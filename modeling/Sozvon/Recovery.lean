import Sozvon.PacketCache
import Sozvon.SerialNumbers
import Mathlib.Data.List.Range
import Mathlib.Data.UInt

/-!
# Packets that a recorder has missed

A recorder asks the upstream cache for the packets between the last one it has
seen and the one that comes in. What becomes of a packet is the list of the calls
that are made for it. The cache may be written to at any time, so a packet comes
in together with what the cache has whenever a number is asked for.

Packets are read by a library; what is relied on is that it takes a slice as one
packet, whole (`Rtp.Whole`).
-/
namespace Sozvon.Recovery
open Codecs (Bytes)
open PacketCache

/-- Reading a packet; `none` is an error. -/
structure Rtp (P : Type*) where
  unmarshal : Bytes → Option P
  sequenceNumber : P → UInt16
  /-- The size of header, payload and padding. -/
  size : P → ℕ

structure Upstream where
  cache : Cache
  sized : ∀ e ∈ cache.entries, e.buf.length = bufSize

/-- The number of bytes, and the buffer into which they have been copied. -/
def Upstream.getPacket (u : Upstream) (seqno : UInt16) (buf : Bytes) : ℕ × Bytes :=
  let data := u.cache.get seqno
  (data.length, data ++ buf.drop data.length)

inductive Call (P : Type*) where
  | getPacket (seqno : UInt16)
  /-- `writeRTP` of a packet from the cache. -/
  | recovered (seqno : UInt16) (p : P)
  /-- `writeRTP` of the packet that came in. -/
  | arrived (p : P)
  | requestKeyframe
deriving DecidableEq, Repr

structure Arrival where
  data : Bytes
  /-- What the cache has when a number is asked for. -/
  upstream : UInt16 → Upstream

section Model

variable {P : Type*} (lib : Rtp P)

def fetch (upstream : Upstream) (seqno : UInt16) : List (Call P) :=
  let buf := List.replicate 1504 0
  let (n, buf) := upstream.getPacket seqno buf
  .getPacket seqno ::
    if n = 0 then []
    else
      match lib.unmarshal buf with
      | none => []
      | some p => [.recovered seqno p]

/-- The numbers of the loop over `i` from 1 up to `count`. -/
def missing (lastSeqno count : UInt16) : List UInt16 :=
  (List.range' 1 (count.toNat - 1)).map fun i => lastSeqno + .ofNat i

/-- What `Write` does to `lastSeqno`, and the calls it makes. -/
def write (lastSeqno : Option UInt16) (a : Arrival) : Option UInt16 × List (Call P) :=
  match lib.unmarshal a.data with
  | none => (lastSeqno, [])
  | some p =>
      let seqno := lib.sequenceNumber p
      match lastSeqno with
      | some lastSeqno =>
          if (seqno - lastSeqno) &&& 0x8000 = 0 then
            -- jump forward
            let count := seqno - lastSeqno
            if count < 256 then
              let calls := (missing lastSeqno count).flatMap fun i => fetch lib (a.upstream i) i
              (some seqno, calls ++ [.arrived p])
            else (some seqno, [.requestKeyframe, .arrived p])
          else
            -- jump backward
            let count := lastSeqno - seqno
            if 512 ≤ count then (none, [.requestKeyframe, .arrived p])
            else (some lastSeqno, [.arrived p])
      | none => (some seqno, [.arrived p])

/-- What holds of each packet that comes in, in the state it finds. -/
def Along (R : Option UInt16 → Arrival → Prop) : Option UInt16 → List Arrival → Prop
  | _, [] => True
  | lastSeqno, a :: rest => R lastSeqno a ∧ Along R (write lib lastSeqno a).1 rest

end Model

/-! ## Recovered packets -/

section Specification

variable {P : Type*} (lib : Rtp P)

def Rtp.Whole : Prop := ∀ buf p, lib.unmarshal buf = some p → lib.size p = buf.length

def Call.asked : Call P → Option UInt16
  | .getPacket seqno => some seqno
  | _ => none

/-- What is recovered is what the cache has, and on a small jump forward all that is missing is
asked for once and in order, before the packet is written. -/
structure Recovered (lastSeqno : Option UInt16) (a : Arrival) : Prop where
  same : ∀ seqno p, .recovered seqno p ∈ (write lib lastSeqno a).2 →
    lib.unmarshal ((a.upstream seqno).cache.get seqno) = some p
  asked : ∀ last ∈ lastSeqno, ∀ p ∈ lib.unmarshal a.data, lib.sequenceNumber p - last < 256 →
    ∃ calls, (write lib lastSeqno a).2 = calls ++ [.arrived p] ∧
      (∀ seqno, seqno ∈ calls.filterMap Call.asked ↔
        0 < seqno - last ∧ seqno - last < lib.sequenceNumber p - last) ∧
      (calls.filterMap Call.asked).Pairwise fun x y => x - last < y - last

/-- The numbers that are missing before a packet. -/
def missed (lastSeqno : Option UInt16) (a : Arrival) : List UInt16 :=
  match lastSeqno, lib.unmarshal a.data with
  | some last, some p =>
      let count := lib.sequenceNumber p - last
      if count < 256 then missing last count else []
  | _, _ => []

/-- The cache does not have a packet, or it fills the buffer, or with the zeros after it it is not
a packet any more. -/
def Filled (upstream : Upstream) (seqno : UInt16) : Prop :=
  let data := upstream.cache.get seqno
  data.length = 0 ∨ data.length = 1504 ∨
    lib.unmarshal (data ++ List.replicate (1504 - data.length) 0) = none

def AllFilled (lastSeqno : Option UInt16) (a : Arrival) : Prop :=
  ∀ seqno ∈ missed lib lastSeqno a, Filled lib (a.upstream seqno) seqno

end Specification

section Missing

variable {last count seqno : UInt16}

theorem mem_missing (h : count < 256) :
    seqno ∈ missing last count ↔ 0 < seqno - last ∧ seqno - last < count := by
  have hcount : count.toNat < 256 := h
  rw [missing, List.mem_map]
  constructor
  · rintro ⟨i, hi, rfl⟩
    rw [List.mem_range'_1] at hi
    have htoNat : (UInt16.ofNat i).toNat = i := UInt16.toNat_ofNat_of_lt' (by
      change i < 65536
      omega)
    rw [add_sub_cancel_left, UInt16.lt_iff_toNat_lt, UInt16.lt_iff_toNat_lt, htoNat,
      UInt16.toNat_zero]
    omega
  · rintro ⟨hpos, hlt⟩
    rw [UInt16.lt_iff_toNat_lt, UInt16.toNat_zero] at hpos
    rw [UInt16.lt_iff_toNat_lt] at hlt
    refine ⟨(seqno - last).toNat, ?_, ?_⟩
    · rw [List.mem_range'_1]
      omega
    · rw [UInt16.ofNat_toNat, add_sub_cancel]

theorem missing_pairwise (h : count < 256) :
    (missing last count).Pairwise fun x y => x - last < y - last := by
  have hcount : count.toNat < 256 := h
  rw [missing, List.pairwise_map]
  refine List.Pairwise.imp_of_mem ?_ List.pairwise_lt_range'
  intro i j hi hj hij
  rw [List.mem_range'_1] at hi hj
  rw [add_sub_cancel_left, add_sub_cancel_left, UInt16.lt_iff_toNat_lt, UInt16.toNat_ofNat',
    UInt16.toNat_ofNat']
  omega

end Missing

section Fetch

variable {P : Type*} {lib : Rtp P} {upstream : Upstream} {seqno : UInt16} {p : P}

theorem length_get_le (upstream : Upstream) (seqno : UInt16) :
    (upstream.cache.get seqno).length ≤ 1504 := by
  rw [Cache.get]
  cases hfind : find seqno upstream.cache.entries with
  | none => exact Nat.zero_le _
  | some e =>
      refine (List.length_take_le' _ _).trans ?_
      exact (upstream.sized e (List.mem_of_find?_eq_some hfind)).le

/-- What is read is the packet in the cache and the zeros after it. -/
theorem recovered_mem_fetch {seqno' : UInt16} : .recovered seqno' p ∈ fetch lib upstream seqno ↔
    seqno' = seqno ∧ (upstream.cache.get seqno).length ≠ 0 ∧
    lib.unmarshal (upstream.cache.get seqno ++
      List.replicate (1504 - (upstream.cache.get seqno).length) 0) = some p := by
  simp only [fetch, Upstream.getPacket, List.drop_replicate]
  generalize List.replicate (1504 - (upstream.cache.get seqno).length) (0 : UInt8) = zeros
  split_ifs with h0
  · simp [h0]
  · cases lib.unmarshal (upstream.cache.get seqno ++ zeros) with
    | none => simp
    | some q => simp [h0, eq_comm]

theorem filled_iff (hlib : lib.Whole) : Filled lib upstream seqno ↔
    ∀ p, .recovered seqno p ∈ fetch lib upstream seqno →
      lib.unmarshal (upstream.cache.get seqno) = some p := by
  simp only [recovered_mem_fetch, Filled, true_and]
  have hle := length_get_le upstream seqno
  constructor
  · rintro (h0 | hfull | hnone) p ⟨hne, hp⟩
    · exact absurd h0 hne
    · rwa [hfull, Nat.sub_self, List.replicate_zero, List.append_nil] at hp
    · cases hnone.symm.trans hp
  · intro h
    by_contra hnot
    obtain ⟨hne, hnot⟩ := not_or.1 hnot
    obtain ⟨hfull, hsome⟩ := not_or.1 hnot
    obtain ⟨p, hp⟩ := Option.ne_none_iff_exists'.1 hsome
    have hlong := hlib _ _ hp
    have hshort := hlib _ _ (h p ⟨hne, hp⟩)
    rw [List.length_append, List.length_replicate] at hlong
    omega

theorem filterMap_asked_fetch : (fetch lib upstream seqno).filterMap Call.asked = [seqno] := by
  simp only [fetch]
  split_ifs
  · rfl
  · split <;> rfl

end Fetch

section Write

variable {P : Type*} {lib : Rtp P} {lastSeqno : Option UInt16} {a : Arrival} {p : P}

theorem write_forward {last : UInt16} (hp : lib.unmarshal a.data = some p)
    (h : lib.sequenceNumber p - last < 256) :
    (write lib (some last) a).2 =
      (missing last (lib.sequenceNumber p - last)).flatMap (fun i => fetch lib (a.upstream i) i) ++
        [.arrived p] := by
  have hforward : (lib.sequenceNumber p - last) &&& 0x8000 = 0 := by
    by_contra hne
    have := (SerialNumbers.and_0x8000_ne_zero _).1 hne
    have hlt : (lib.sequenceNumber p - last).toNat < 256 := h
    omega
  simp only [write, hp, if_pos hforward, if_pos h]

/-- What is recovered was missing. -/
theorem recovered_mem_write {seqno : UInt16} : .recovered seqno p ∈ (write lib lastSeqno a).2 ↔
    seqno ∈ missed lib lastSeqno a ∧ .recovered seqno p ∈ fetch lib (a.upstream seqno) seqno := by
  cases hp : lib.unmarshal a.data with
  | none => cases lastSeqno <;> simp [write, missed, hp]
  | some q =>
      cases lastSeqno with
      | none => simp [write, missed, hp]
      | some last =>
          by_cases h : lib.sequenceNumber q - last < 256
          · rw [write_forward hp h]
            simp only [missed, hp, if_pos h, List.mem_append, List.mem_flatMap]
            constructor
            · rintro (⟨i, hi, hmem⟩ | hmem)
              · obtain rfl := (recovered_mem_fetch.1 hmem).1
                exact ⟨hi, hmem⟩
              · simp at hmem
            · exact fun ⟨hi, hmem⟩ => .inl ⟨seqno, hi, hmem⟩
          · simp only [write, missed, hp, if_neg h]
            split_ifs <;> simp

/-- The numbers are asked for in order whatever the cache has. -/
theorem asked_write {last : UInt16} (hp : lib.unmarshal a.data = some p)
    (h : lib.sequenceNumber p - last < 256) :
    ∃ calls, (write lib (some last) a).2 = calls ++ [.arrived p] ∧
      (∀ seqno, seqno ∈ calls.filterMap Call.asked ↔
        0 < seqno - last ∧ seqno - last < lib.sequenceNumber p - last) ∧
      (calls.filterMap Call.asked).Pairwise fun x y => x - last < y - last := by
  refine ⟨_, write_forward hp h, ?_⟩
  have hasked : ((missing last (lib.sequenceNumber p - last)).flatMap
      fun i => fetch lib (a.upstream i) i).filterMap Call.asked =
      missing last (lib.sequenceNumber p - last) := by
    rw [List.filterMap_flatMap]
    simp only [filterMap_asked_fetch, List.flatMap_singleton']
  rw [hasked]
  exact ⟨fun seqno => mem_missing h, missing_pairwise h⟩

theorem recovered_iff_allFilled (hlib : lib.Whole) :
    Recovered lib lastSeqno a ↔ AllFilled lib lastSeqno a := by
  constructor
  · intro h seqno hseqno
    exact (filled_iff hlib).2 fun p hp => h.same seqno p (recovered_mem_write.2 ⟨hseqno, hp⟩)
  · intro h
    refine ⟨fun seqno p hp => ?_, ?_⟩
    · obtain ⟨hseqno, hp⟩ := recovered_mem_write.1 hp
      exact (filled_iff hlib).1 (h seqno hseqno) p hp
    · rintro last ⟨⟩ p hp hlt
      exact asked_write hp hlt

/-- A recorder recovers what the cache has on exactly those runs on which each packet that it finds
there either fills the buffer or is not read. -/
theorem recovered_iff (hlib : lib.Whole) (as : List Arrival) (lastSeqno : Option UInt16) :
    Along lib (Recovered lib) lastSeqno as ↔ Along lib (AllFilled lib) lastSeqno as := by
  induction as generalizing lastSeqno with
  | nil => exact Iff.rfl
  | cons a as ih => exact and_congr (recovered_iff_allFilled hlib) (ih _)

end Write

section Samples

/-- Packets that have a plain header of twelve bytes. -/
def plain : Rtp Bytes where
  unmarshal buf := if 12 ≤ buf.length ∧ buf[0]? = some 0x80 then some buf else none
  sequenceNumber p := (p.getD 2 0).toUInt16 <<< 8 ||| (p.getD 3 0).toUInt16
  size := List.length

theorem plain_unmarshal {buf : Bytes} (hlen : 12 ≤ buf.length) (hfirst : buf[0]? = some 0x80) :
    plain.unmarshal buf = some buf := if_pos ⟨hlen, hfirst⟩

theorem plain_whole : plain.Whole := by
  intro buf p hp
  simp only [plain] at hp ⊢
  split_ifs at hp
  cases hp
  rfl

def packet (seqno : UInt8) : Bytes := [0x80, 96, 0, seqno, 0, 0, 0, 0, 0, 0, 0, 1, 7]

/-- A cache that has the first `length` bytes of packet 2. -/
def having (length : UInt16) : Upstream where
  cache :=
    { entries :=
        [{ seqno := 2, lengthAndMarker := length, buf := packet 2 ++ List.replicate 1491 0 }] }
  sized e he := by
    rw [List.mem_singleton.1 he, List.length_append, List.length_replicate]
    rfl

/-- Packet 2 is missing when packet 3 comes in. -/
def jump (length : UInt16) : List Arrival :=
  [{ data := packet 1, upstream := fun _ => having length },
    { data := packet 3, upstream := fun _ => having length }]

theorem recovered_full : Along plain (Recovered plain) none (jump 1504) := by
  refine (recovered_iff plain_whole (jump 1504) none).2 ?_
  change AllFilled plain none _ ∧ AllFilled plain (some 1) _ ∧ True
  refine ⟨fun seqno h => absurd h List.not_mem_nil, fun seqno h => ?_, trivial⟩
  have hseqno : seqno ∈ [2] := h
  rw [List.mem_singleton.1 hseqno]
  refine .inr (.inl ?_)
  change ((packet 2 ++ List.replicate 1491 0).take 1504).length = 1504
  rw [List.length_take, List.length_append, List.length_replicate]
  rfl

/-- A packet of thirteen bytes is recovered as one of 1504. -/
theorem not_recovered :
    ¬ ∀ (lib : Rtp Bytes), lib.Whole → ∀ as, Along lib (Recovered lib) none as := by
  intro h
  obtain ⟨-, hsecond, -⟩ := h plain plain_whole (jump 13)
  have hlong : plain.unmarshal (packet 2 ++ List.replicate 1491 0) =
      some (packet 2 ++ List.replicate 1491 0) := by
    refine plain_unmarshal ?_ rfl
    rw [List.length_append, List.length_replicate]
    decide
  have hmem : .recovered 2 (packet 2 ++ List.replicate 1491 0) ∈
      (write plain (some 1) { data := packet 3, upstream := fun _ => having 13 }).2 :=
    recovered_mem_write.2 ⟨List.mem_singleton.2 rfl, recovered_mem_fetch.2 ⟨rfl, by decide, hlong⟩⟩
  have hshort : (packet 2 ++ List.replicate 1491 0).length = 13 :=
    plain_whole _ _ (hsecond.same _ _ hmem)
  rw [List.length_append, List.length_replicate] at hshort
  exact absurd hshort (by decide)

end Samples

end Sozvon.Recovery
