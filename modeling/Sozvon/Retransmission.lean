import Sozvon.LayerSelection
import Sozvon.PacketCache

/-!
# Retransmission

A packet that the viewer reports missing is looked up in the cache of its source
and handed to `Write` a second time. The packet map gives a number it has seen
its first target again and does not move, but the rest of `Write` does not tell
a packet that comes again from a new one: the beginning of a frame switches
layers, and the marker depends on the current layer.

A run is made of packets, reports of lost ones, adjustments of the layers and
changes of their limit. Its packets are kept with the layers they were forwarded
under, and with the number and the picture id delta the map gave them.
-/
namespace Sozvon.Retransmission
open DownTrack PacketMap Codecs LayerSelection Runs

section Code

/-- A number of a report with what its handling finds: the cache of the source
and the rates of the viewer. -/
structure Named where
  number : UInt16
  cache : PacketCache.Cache
  max : UInt64
  rate : UInt64
deriving DecidableEq, Repr

variable (lib : Pion) (codec : Codec)

/-- What `gotNACK` does for a number. -/
def resend (down : RtpDownTrack) (n : Named) : RtpDownTrack × Except Error (Option Bytes) :=
  match down.packetmap.reverse n.number with
  | none => (down, .ok none)
  | some (seqno, _) =>
      match n.cache.get seqno with
      | [] => (down, .ok none)
      | buf => write lib codec n.max n.rate down buf

/-- The numbers of a pair, up to the first one whose `Write` fails. -/
def resendRange : RtpDownTrack → List Named → RtpDownTrack × List Bytes
  | down, [] => (down, [])
  | down, n :: ns =>
      match resend lib codec down n with
      | (down, .error _) => (down, [])
      | (down, .ok out) =>
          let r := resendRange down ns
          (r.1, out.toList ++ r.2)

/-- A report of lost packets; its pairs are handled one after the other. -/
def gotNACK : RtpDownTrack → List (List Named) → RtpDownTrack × List Bytes
  | down, [] => (down, [])
  | down, p :: ps =>
      let r := resendRange lib codec down p
      let rest := gotNACK r.1 ps
      (rest.1, r.2 ++ rest.2)

end Code

/-- A packet that was forwarded: its bytes and flags, the layers and the mapping
it was forwarded under, and the bytes that were written. -/
structure Sent where
  buf : Bytes
  flags : Flags
  layer : LayerInfo
  number : UInt16
  pidDelta : UInt16
  out : Bytes
deriving DecidableEq, Repr

structure State where
  down : RtpDownTrack := {}
  sent : List Sent := []
deriving DecidableEq, Repr

inductive Call where
  | write (max rate : UInt64) (buf : Bytes)
  | gotNACK (nacks : List (List Named))
  | adjustLayer (max rate : UInt64)
  | replaceTracks (limitSid : Bool)
deriving DecidableEq, Repr

section Runs

variable (lib : Pion) (codec : Codec)

/-- What is kept of a packet, if it was forwarded. -/
def sentBy (down : RtpDownTrack) (buf : Bytes)
    (r : RtpDownTrack × Except Error (Option Bytes)) : Option Sent :=
  match packetFlags lib codec buf, r.2 with
  | .ok flags, .ok (some out) =>
      (down.packetmap.map flags.seqno flags.pid).2.map fun (number, pidDelta) =>
        { buf, flags, layer := r.1.layer, number, pidDelta, out }
  | _, _ => none

def step (s : State) : Call → Option State
  | .write max rate buf =>
      let r := write lib codec max rate s.down buf
      some { down := r.1, sent := s.sent ++ (sentBy lib codec s.down buf r).toList }
  | .gotNACK nacks => some { s with down := (gotNACK lib codec s.down nacks).1 }
  | .adjustLayer max rate =>
      some { s with down := { s.down with layer := adjustLayer max rate s.down.layer } }
  | .replaceTracks limitSid =>
      some { s with down := { s.down with layer := replaceTracks limitSid s.down.layer } }

def system : System State Call := { init := (· = {}), step := step lib codec }

/-- What comes of packets written in a row. -/
def outputs (down : RtpDownTrack) :
    List (UInt64 × UInt64 × Bytes) → List (Except Error (Option Bytes))
  | [] => []
  | (max, rate, buf) :: rest =>
      let r := write lib codec max rate down buf
      r.2 :: outputs r.1 rest

/-- The number `n`, named after `pre` and the pairs `ps`, has the first bytes
sent again, and nothing else comes of it. -/
structure Repeats (down : RtpDownTrack) (ps : List (List Named)) (pre : List Named) (n : Named)
    (out : Bytes) : Prop where
  bytes : (gotNACK lib codec down (ps ++ [pre ++ [n]])).2 =
    (gotNACK lib codec down (ps ++ [pre])).2 ++ [out]
  layer : (gotNACK lib codec down (ps ++ [pre ++ [n]])).1.layer =
    (gotNACK lib codec down (ps ++ [pre])).1.layer
  next : (gotNACK lib codec down (ps ++ [pre ++ [n]])).1.packetmap.next =
    (gotNACK lib codec down (ps ++ [pre])).1.packetmap.next
  delta : (gotNACK lib codec down (ps ++ [pre ++ [n]])).1.packetmap.delta =
    (gotNACK lib codec down (ps ++ [pre])).1.packetmap.delta
  pidDelta : (gotNACK lib codec down (ps ++ [pre ++ [n]])).1.packetmap.pidDelta =
    (gotNACK lib codec down (ps ++ [pre])).1.packetmap.pidDelta
  later : ∀ packets, outputs lib codec (gotNACK lib codec down (ps ++ [pre ++ [n]])).1 packets =
    outputs lib codec (gotNACK lib codec down (ps ++ [pre])).1 packets

/-- A number of a pair is not reached behind one whose `Write` fails. -/
def Fails : RtpDownTrack → List Named → Prop
  | _, [] => False
  | down, n :: ns =>
      (resend lib codec down n).2.toOption = none ∨ Fails (resend lib codec down n).1 ns

end Runs

/-- The map has the mapping of a packet, in both directions. -/
structure Known (m : Map) (sent : Sent) : Prop where
  reverse : m.reverse sent.number = some (sent.flags.seqno, sent.pidDelta)
  direct : (if m.delta = 0 ∧ m.entries = [] then some (sent.flags.seqno, 0)
    else m.direct sent.flags.seqno) = some (sent.number, sent.pidDelta)

instance (m : Map) (sent : Sent) : Decidable (Known m sent) :=
  decidable_of_iff (m.reverse sent.number = some (sent.flags.seqno, sent.pidDelta) ∧
      (if m.delta = 0 ∧ m.entries = [] then some (sent.flags.seqno, 0)
        else m.direct sent.flags.seqno) = some (sent.number, sent.pidDelta))
    ⟨fun ⟨h₁, h₂⟩ => ⟨h₁, h₂⟩, fun ⟨h₁, h₂⟩ => ⟨h₁, h₂⟩⟩

/-- One of the 8192 numbers before the next one. -/
def Near (m : Map) (seqno : UInt16) : Prop :=
  1 ≤ (m.next - seqno).toNat ∧ (m.next - seqno).toNat ≤ 8192

/-- A packet with these flags does not switch layers. -/
structure Settled (flags : Flags) (layer : LayerInfo) : Prop where
  tid : flags.start = true → layer.tid ≠ layer.wantedTid →
    flags.keyframe = false ∧ layer.tid ≤ layer.wantedTid ∧
      (flags.tidUpSync = true → flags.tid ≤ layer.wantedTid → flags.tid = layer.tid)
  sid : flags.start = true → flags.keyframe = true → layer.sid = layer.wantedSid

/-- The number is one of the 8192 before the next one, the packet does not
switch layers, and its marker is not another's: if it ends a frame without a
marker, then it is of the current spatial layer now if it was then. -/
structure Undisturbed (down : RtpDownTrack) (sent : Sent) : Prop where
  near : Near down.packetmap sent.flags.seqno
  settled : Settled sent.flags down.layer
  marker : sent.flags.end = true → sent.flags.marker = false →
    (sent.flags.sid = down.layer.sid ↔ sent.flags.sid = sent.layer.sid)

section Maps

variable {m : Map} {seqno pid : UInt16}

theorem toNat_sub_comm (a b : UInt16) :
    (a - b).toNat + (b - a).toNat = if a = b then 0 else 65536 := by
  have ha := a.toNat_lt
  have hb := b.toNat_lt
  rw [UInt16.toNat_sub, UInt16.toNat_sub]
  split_ifs with heq
  · subst heq
    omega
  · have hne : a.toNat ≠ b.toNat := fun h => heq (UInt16.toNat_inj.mp h)
    omega

theorem near_iff : Near m seqno ↔
    ¬ PacketMap.compare m.next seqno ≤ 0 ∧ ¬ 8 * 1024 < m.next - seqno := by
  have hsum := toNat_sub_comm m.next seqno
  have hlt := (seqno - m.next).toNat_lt
  rw [Near, compare_eq, UInt16.lt_iff_toNat_lt, show (8 * 1024 : UInt16).toNat = 8192 from rfl]
  by_cases heq : m.next = seqno
  · rw [if_pos heq, heq, UInt16.sub_self]
    simp
  · rw [if_neg heq] at hsum ⊢
    split_ifs <;> omega

theorem Near.ne (h : Near m seqno) : seqno ≠ m.next := by
  rintro rfl
  have hpos := h.1
  rw [UInt16.sub_self] at hpos
  exact absurd hpos (by decide)

theorem Near.map (h : Near m seqno) (pid : UInt16) :
    m.map seqno pid = (m, if m.delta = 0 ∧ m.entries = [] then some (seqno, 0)
      else m.direct seqno) := by
  obtain ⟨hahead, hfar⟩ := near_iff.mp h
  rw [Map.map]
  split_ifs with hfresh hreset
  · exact (hreset.elim hahead hfar).elim
  · rfl
  · rfl

/-- Any other number is the newest one afterwards. -/
theorem map_next_of_not_near (h : ¬ Near m seqno) (pid : UInt16) :
    (m.map seqno pid).1.next = seqno + 1 := by
  rw [near_iff] at h
  rw [Map.map]
  split_ifs with hfresh hreset hahead hfar hbehind
  · rfl
  · exact (h (not_or.mp hreset)).elim
  · rfl
  · rfl
  · rfl
  · exact (h ⟨hahead, hbehind⟩).elim

theorem next_ne_of_not_near (h : ¬ Near m seqno) : seqno + 1 ≠ m.next := by
  intro hnext
  refine h ?_
  rw [Near, ← hnext, add_sub_cancel_left]
  decide

end Maps

section Bytes

variable {codec : Codec} {data out : Bytes} {setMarker : Bool} {seqno delta : UInt16}

/-- The end of `Write`: the packet under its new number. -/
def renumber (codec : Codec) (seqno : UInt16) (buf : Bytes) (setMarker : Bool)
    (number pidDelta : UInt16) : Except Error Bytes :=
  if ¬ setMarker ∧ number = seqno ∧ pidDelta = 0 then .ok buf
  else rewritePacket codec (buf.take bufSize) setMarker number pidDelta

theorem bind_ok {α β : Type} {x : Except Error α} {f : α → Except Error β} {r : β}
    (h : x >>= f = .ok r) : ∃ a, f a = .ok r := by
  cases x with
  | error e => cases h
  | ok a => exact ⟨a, h⟩

theorem ite_ok {α : Type} {c : Prop} [Decidable c] {x y : Except Error α} {r : α}
    (h : (if c then x else y) = .ok r) : x = .ok r ∨ y = .ok r := by
  split_ifs at h
  · exact .inl h
  · exact .inr h

/-- Only what comes after the fixed header is changed for a picture id. -/
theorem rewritePictureID_header {offset : ℕ} (hoffset : 12 ≤ offset)
    (h : rewritePictureID data offset delta = .ok out) {i : ℕ} (hi : i < 12) :
    peek out i = peek data i := by
  have hset : ∀ (l : Bytes) (k : ℕ) (b : UInt8), peek (l.set (offset + k) b) i = peek l i := by
    intro l k b
    rw [peek_set, if_neg (by omega)]
  obtain ⟨x, h⟩ := bind_ok h
  rcases ite_ok h with h | h
  · cases h
    rfl
  rcases ite_ok h with h | h
  · cases h
  obtain ⟨y, h⟩ := bind_ok h
  rcases ite_ok h with h | h
  · cases h
    rfl
  rcases ite_ok h with h | h
  · cases h
  obtain ⟨m, h⟩ := bind_ok h
  rcases ite_ok h with h | h
  · rcases ite_ok h with h | h
    · cases h
    · obtain ⟨l, h⟩ := bind_ok h
      cases h
      rw [hset, hset]
  · cases h
    rw [hset]

theorem payloadOffset_header {offset : ℕ} (h : payloadOffset data = .ok offset) :
    12 ≤ offset := by
  obtain ⟨b₀, h⟩ := bind_ok h
  rcases ite_ok h with h | h
  · cases h
  rcases ite_ok h with h | h
  · obtain ⟨hi, h⟩ := bind_ok h
    obtain ⟨lo, h⟩ := bind_ok h
    rcases ite_ok h with h | h <;> cases h
    omega
  · cases h
    omega

/-- The marker and the number of a rewritten packet. -/
theorem rewritePacket_header (h : rewritePacket codec data setMarker seqno delta = .ok out) :
    peek out 1 = (if setMarker then peek data 1 ||| 0x80 else peek data 1) ∧
      seqnoOf out = seqno := by
  rw [rewritePacket] at h
  rcases Nat.lt_or_ge data.length 12 with hshort | hlong
  · rw [if_pos hshort] at h
    cases h
  rw [if_neg (Nat.not_lt.mpr hlong)] at h
  set marked := if setMarker then data.set 1 (peek data 1 ||| 0x80) else data with hmarked
  set numbered := (marked.set 2 (seqno >>> 8).toUInt8).set 3 seqno.toUInt8 with hnumbered
  have hlength : marked.length = data.length := by
    rw [hmarked]
    split_ifs <;> simp
  have hmarker : peek numbered 1 = if setMarker then peek data 1 ||| 0x80 else peek data 1 := by
    rw [hnumbered, peek_set, peek_set, if_neg (by omega), if_neg (by omega), hmarked]
    split_ifs with hset
    · rw [peek_set, if_pos ⟨rfl, by omega⟩]
    · rfl
  have hnumber : seqnoOf numbered = seqno := by
    rw [seqnoOf, peek_set, peek_set, peek_set, if_neg (by omega), if_pos (by omega),
      if_pos ⟨rfl, by simp only [List.length_set]; omega⟩, word_split]
  have hheader : ∀ i < 12, peek out i = peek numbered i := by
    intro i hi
    rcases ite_ok h with h | h
    · cases h
      rfl
    · cases hoffset : payloadOffset numbered with
      | error e =>
          rw [hoffset] at h
          cases h
      | ok offset =>
          rw [hoffset] at h
          cases codec with
          | vp8 => exact rewritePictureID_header (payloadOffset_header hoffset) h hi
          | vp9 | other =>
              cases h
              rfl
  rw [hheader 1 (by omega), seqnoOf, hheader 2 (by omega), hheader 3 (by omega)]
  exact ⟨hmarker, hnumber⟩

theorem peek_take {n i : ℕ} (h : i < n) (l : Bytes) : peek (l.take n) i = peek l i := by
  simp [peek, List.getD_eq_getElem?_getD, h]

/-- What a viewer sees of the marker and the number. -/
theorem renumber_header {buf : Bytes} {number pidDelta : UInt16}
    (h : renumber codec (seqnoOf buf) buf setMarker number pidDelta = .ok out) :
    peek out 1 = (if setMarker then peek buf 1 ||| 0x80 else peek buf 1) ∧
      seqnoOf out = number := by
  rw [renumber] at h
  split_ifs at h with hplain
  · cases h
    rw [if_neg hplain.1]
    exact ⟨rfl, hplain.2.1.symm⟩
  · obtain ⟨hmarker, hnumber⟩ := rewritePacket_header h
    rw [peek_take (by decide)] at hmarker
    exact ⟨hmarker, hnumber⟩

/-- A marker that is set where there was none shows. -/
theorem or_0x80_ne {b : UInt8} (h : b &&& 0x80 = 0) : b ||| 0x80 ≠ b := by
  have hlow : b.toNat < 128 := by
    by_contra hge
    exact (and_0x80_ne_zero b).mpr (Nat.not_lt.mp hge) h
  intro heq
  have hsum := toNat_0x80_or hlow
  rw [UInt8.or_comm, heq] at hsum
  omega

/-- The bytes tell whether the marker was set. -/
theorem renumber_marker {buf : Bytes} {number pidDelta : UInt16} {setMarker setMarker' : Bool}
    (hfree : setMarker = true ∨ setMarker' = true → peek buf 1 &&& 0x80 = 0)
    (h : renumber codec (seqnoOf buf) buf setMarker number pidDelta = .ok out)
    (h' : renumber codec (seqnoOf buf) buf setMarker' number pidDelta = .ok out) :
    setMarker = setMarker' := by
  have hmarker := (renumber_header h).1.symm.trans (renumber_header h').1
  cases setMarker <;> cases setMarker'
  · rfl
  · exact (or_0x80_ne (hfree (.inr rfl)) hmarker.symm).elim
  · exact (or_0x80_ne (hfree (.inl rfl)) hmarker).elim
  · rfl

end Bytes

section Write

variable {codec : Codec} {m : Map} {flags : Flags} {buf out : Bytes} {drop setMarker : Bool}

theorem forward_mapped (codec : Codec) (flags : Flags) (buf : Bytes) (setMarker : Bool) :
    ∀ r : Map × Option (UInt16 × UInt16),
      (match r with
        | (m, none) => (m, .ok none)
        | (m, some (newseqno, piddelta)) =>
            if ¬ setMarker ∧ newseqno = flags.seqno ∧ piddelta = 0 then (m, .ok (some buf))
            else (m, (rewritePacket codec (buf.take bufSize) setMarker newseqno piddelta).map some)
          : Map × Except Error (Option Bytes)) =
        (r.1, match r.2 with
          | none => .ok none
          | some (number, pidDelta) =>
              (renumber codec flags.seqno buf setMarker number pidDelta).map some) := by
  rintro ⟨m, _ | ⟨number, pidDelta⟩⟩
  · rfl
  · simp only [renumber]
    split_ifs <;> rfl

/-- A packet is dropped if it is the next one, and mapped otherwise. -/
theorem forward_eq (codec : Codec) (m : Map) (flags : Flags) (buf : Bytes)
    (drop setMarker : Bool) :
    forward codec m flags buf drop setMarker =
      if drop = true ∧ flags.seqno = m.next then ((m.drop flags.seqno flags.pid).1, .ok none)
      else
        ((m.map flags.seqno flags.pid).1,
          match (m.map flags.seqno flags.pid).2 with
          | none => .ok none
          | some (number, pidDelta) =>
              (renumber codec flags.seqno buf setMarker number pidDelta).map some) := by
  by_cases haccept : drop = true ∧ flags.seqno = m.next
  · rw [if_pos haccept, forward, haccept.1, if_pos rfl]
    exact if_pos (congrArg Prod.snd (if_neg (not_not_intro haccept.2)))
  · have hrefuse : (if drop then m.drop flags.seqno flags.pid else (m, false)) = (m, false) := by
      cases drop with
      | false => rfl
      | true => exact if_pos fun hnext => haccept ⟨rfl, hnext⟩
    rw [if_neg haccept, forward, hrefuse]
    exact forward_mapped codec flags buf setMarker _

/-- A packet that is written has a mapping. -/
theorem forward_sent {m' : Map}
    (h : forward codec m flags buf drop setMarker = (m', .ok (some out))) :
    ∃ number pidDelta, (m.map flags.seqno flags.pid).2 = some (number, pidDelta) ∧
      renumber codec flags.seqno buf setMarker number pidDelta = .ok out := by
  rw [forward_eq] at h
  split_ifs at h with haccept
  · cases h
  · have hout := congrArg Prod.snd h
    cases hmap : (m.map flags.seqno flags.pid).2 with
    | none =>
        rw [hmap] at hout
        cases hout
    | some target =>
        rw [hmap] at hout
        refine ⟨target.1, target.2, rfl, ?_⟩
        cases hr : renumber codec flags.seqno buf setMarker target.1 target.2 with
        | error e =>
            simp only [hr] at hout
            cases hout
        | ok bytes =>
            simp only [hr] at hout
            cases hout
            rfl

theorem forward_near (hnear : Near m flags.seqno) {number pidDelta : UInt16}
    (hdirect : (if m.delta = 0 ∧ m.entries = [] then some (flags.seqno, 0)
      else m.direct flags.seqno) = some (number, pidDelta)) :
    forward codec m flags buf drop setMarker =
      (m, (renumber codec flags.seqno buf setMarker number pidDelta).map some) := by
  rw [forward_eq, if_neg fun haccept => hnear.ne haccept.2, hnear.map, hdirect]

/-- A packet that is not near moves the map. -/
theorem forward_moves (hnear : ¬ Near m flags.seqno) :
    (forward codec m flags buf drop setMarker).1.next ≠ m.next ∨
      (forward codec m flags buf drop setMarker).1.delta ≠ m.delta := by
  rw [forward_eq]
  split_ifs with haccept
  · refine .inr ?_
    rw [Map.drop, if_neg (not_not_intro haccept.2)]
    intro hdelta
    exact absurd (sub_eq_self.mp hdelta) (by decide)
  · refine .inl ?_
    rw [map_next_of_not_near hnear]
    exact next_ne_of_not_near hnear

end Write

section Layers

variable {lib : Pion} {codec : Codec} {buf : Bytes} {flags : Flags} {layer : LayerInfo}

/-- Layers are numbered with three bits at most. -/
structure FewLayers (lib : Pion) : Prop where
  vp8 : ∀ payload p, lib.unmarshalVP8 payload = some p → p.tid < 8
  vp9 : ∀ payload p, lib.unmarshalVP9 payload = some p → p.tid < 8 ∧ p.sid < 8

/-- What the flags of a packet have in common for all codecs. -/
theorem packetFlags_spec (hlib : FewLayers lib) (h : packetFlags lib codec buf = .ok flags) :
    flags.seqno = seqnoOf buf ∧ flags.marker = decide (peek buf 1 &&& 0x80 ≠ 0) ∧
      buf ≠ [] ∧ flags.sid < 8 ∧ flags.tid < 8 := by
  rcases ite_ok h with h' | h'
  · cases h'
  have hne : buf ≠ [] := by
    rintro rfl
    cases h
  cases codec with
  | vp8 =>
      cases hpacket : lib.unmarshal buf with
      | none =>
          simp only [hpacket] at h'
          cases h'
      | some packet =>
          cases hvp8 : lib.unmarshalVP8 packet.payload with
          | none =>
              simp only [hpacket, hvp8] at h'
              cases h'
          | some vp8 =>
              simp only [hpacket, hvp8] at h'
              cases h'
              exact ⟨rfl, rfl, hne, (by decide : (0 : UInt8) < 8), hlib.vp8 _ _ hvp8⟩
  | vp9 =>
      cases hpacket : lib.unmarshal buf with
      | none =>
          simp only [hpacket] at h'
          cases h'
      | some packet =>
          cases hvp9 : lib.unmarshalVP9 packet.payload with
          | none =>
              simp only [hpacket, hvp9] at h'
              cases h'
          | some vp9 =>
              simp only [hpacket, hvp9] at h'
              obtain ⟨b₀, h'⟩ := bind_ok h'
              cases h'
              exact ⟨rfl, rfl, hne, (hlib.vp9 _ _ hvp9).2, (hlib.vp9 _ _ hvp9).1⟩
  | other =>
      cases h'
      exact ⟨rfl, rfl, hne, (by decide : (0 : UInt8) < 8), (by decide : (0 : UInt8) < 8)⟩

/-- Nothing is new about the layer of a packet seen before. -/
theorem noteLayer_seen (max rate : UInt64) (hsid : flags.sid ≤ layer.maxSid)
    (htid : flags.tid ≤ layer.maxTid) : noteLayer max rate flags layer = layer :=
  if_neg (not_or.mpr ⟨UInt8.not_lt.mpr htid, UInt8.not_lt.mpr hsid⟩)

theorem switchTid_eq : switchTid flags layer =
    { layer with tid := (switchTid flags layer).tid } := by
  unfold switchTid
  split_ifs <;> rfl

theorem switchTid_eq_iff : switchTid flags layer = layer ↔
    (flags.start = true → layer.tid ≠ layer.wantedTid →
      flags.keyframe = false ∧ layer.tid ≤ layer.wantedTid ∧
        (flags.tidUpSync = true → flags.tid ≤ layer.wantedTid → flags.tid = layer.tid)) := by
  have hset : ∀ tid, { layer with tid } = layer ↔ tid = layer.tid :=
    fun tid => ⟨fun h => congrArg LayerInfo.tid h, fun h => h ▸ rfl⟩
  rw [switchTid]
  split_ifs with hstart hdown hsync
  · rw [hset]
    refine ⟨fun h => (hstart.2 h.symm).elim, fun h => ?_⟩
    obtain ⟨hkeyframe, hle, -⟩ := h hstart.1 hstart.2
    rcases hdown with hdown | hdown
    · rw [hkeyframe] at hdown
      cases hdown
    · exact (UInt8.not_lt.mpr hle hdown).elim
  · rw [hset]
    obtain ⟨hkeyframe, hle⟩ := not_or.mp hdown
    refine ⟨fun h _ _ => ⟨by simpa using hkeyframe, UInt8.not_lt.mp hle, fun _ _ => h⟩, fun h => ?_⟩
    exact (h hstart.1 hstart.2).2.2 hsync.1 hsync.2
  · obtain ⟨hkeyframe, hle⟩ := not_or.mp hdown
    exact ⟨fun _ _ _ => ⟨by simpa using hkeyframe, UInt8.not_lt.mp hle,
      fun hup htid => (hsync ⟨hup, htid⟩).elim⟩, fun _ => rfl⟩
  · exact ⟨fun _ hs htid => (hstart ⟨hs, htid⟩).elim, fun _ => rfl⟩

theorem switchSid_eq_iff : switchSid flags layer = layer ↔
    (flags.start = true → flags.keyframe = true → layer.sid = layer.wantedSid) := by
  rw [switchSid]
  split_ifs with hswitch
  · refine ⟨fun h => (hswitch.2.1 (congrArg LayerInfo.sid h).symm).elim, fun h => ?_⟩
    exact (hswitch.2.1 (h hswitch.1 hswitch.2.2)).elim
  · refine ⟨fun _ hstart hkeyframe => ?_, fun _ => rfl⟩
    by_contra hne
    exact hswitch ⟨hstart, hne, hkeyframe⟩

theorem settled_iff (max rate : UInt64) (hsid : flags.sid ≤ layer.maxSid)
    (htid : flags.tid ≤ layer.maxTid) :
    selectLayer max rate flags layer = layer ↔ Settled flags layer := by
  rw [selectLayer_eq, noteLayer_seen max rate hsid htid]
  constructor
  · intro h
    have htid := congrArg LayerInfo.tid h
    rw [switchSid_tid] at htid
    have hswitch : switchTid flags layer = layer := by rw [switchTid_eq, htid]
    rw [hswitch] at h
    exact ⟨switchTid_eq_iff.mp hswitch, switchSid_eq_iff.mp h⟩
  · intro h
    rw [switchTid_eq_iff.mpr h.tid]
    exact switchSid_eq_iff.mpr h.sid

/-- No layer that was seen is forgotten. -/
structure Grows (layer layer' : LayerInfo) : Prop where
  sid : layer.maxSid ≤ layer'.maxSid
  tid : layer.maxTid ≤ layer'.maxTid

theorem Grows.refl (layer : LayerInfo) : Grows layer layer := ⟨UInt8.le_refl _, UInt8.le_refl _⟩

theorem Grows.trans {a b c : LayerInfo} (h : Grows a b) (h' : Grows b c) : Grows a c :=
  ⟨UInt8.le_trans h.sid h'.sid, UInt8.le_trans h.tid h'.tid⟩

theorem le_ite_lt (a b : UInt8) : a ≤ (if a < b then b else a) ∧ b ≤ if a < b then b else a := by
  split_ifs with hlt
  · exact ⟨UInt8.le_of_lt hlt, UInt8.le_refl _⟩
  · exact ⟨UInt8.le_refl _, UInt8.not_lt.mp hlt⟩

theorem selectLayer_grows (h : Fits layer) (max rate : UInt64) (hsid : flags.sid < 8)
    (htid : flags.tid < 8) :
    Fits (selectLayer max rate flags layer) ∧ Grows layer (selectLayer max rate flags layer) ∧
      flags.sid ≤ (selectLayer max rate flags layer).maxSid ∧
      flags.tid ≤ (selectLayer max rate flags layer).maxTid := by
  obtain ⟨-, hmaxTid, hmaxSid⟩ := h.noteLayer_kept max rate hsid htid
  obtain ⟨hs, ht⟩ := switch_max flags (noteLayer max rate flags layer)
  have hs' := le_ite_lt layer.maxSid flags.sid
  have ht' := le_ite_lt layer.maxTid flags.tid
  rw [← hmaxSid, ← hs] at hs'
  rw [← hmaxTid, ← ht] at ht'
  rw [selectLayer_eq]
  exact ⟨(h.noteLayer max rate hsid htid).switchTid.switchSid, ⟨hs'.1, ht'.1⟩, hs'.2, ht'.2⟩

end Layers

section Tracks

variable {lib : Pion} {codec : Codec} {down : RtpDownTrack} {sent : Sent}

theorem write_ok {buf : Bytes} {flags : Flags} (h : packetFlags lib codec buf = .ok flags)
    (max rate : UInt64) (down : RtpDownTrack) :
    ∃ drop, write lib codec max rate down buf =
      let layer := selectLayer max rate flags down.layer
      let r := forward codec down.packetmap flags buf drop
        (flags.sid = layer.sid ∧ flags.end ∧ ¬ flags.marker)
      ({ packetmap := r.1, layer }, r.2) := by
  simp only [write, h]
  exact ⟨_, rfl⟩

/-- The layers fit their bits afterwards if they did before, and none is
forgotten. -/
def Keeps (down down' : RtpDownTrack) : Prop :=
  Fits down.layer → Fits down'.layer ∧ Grows down.layer down'.layer

theorem Keeps.refl (down : RtpDownTrack) : Keeps down down := fun h => ⟨h, .refl _⟩

theorem Keeps.trans {a b c : RtpDownTrack} (h : Keeps a b) (h' : Keeps b c) : Keeps a c :=
  fun hf => ⟨(h' (h hf).1).1, (h hf).2.trans (h' (h hf).1).2⟩

theorem write_keeps (hlib : FewLayers lib) (codec : Codec) (max rate : UInt64) (down : RtpDownTrack)
    (buf : Bytes) : Keeps down (write lib codec max rate down buf).1 := by
  intro hf
  cases hflags : packetFlags lib codec buf with
  | error e =>
      simp only [write, hflags]
      exact ⟨hf, .refl _⟩
  | ok flags =>
      obtain ⟨-, -, -, hsid, htid⟩ := packetFlags_spec hlib hflags
      obtain ⟨drop, hwrite⟩ := write_ok hflags max rate down
      obtain ⟨hfits, hgrows, -⟩ := selectLayer_grows hf max rate hsid htid
      rw [hwrite]
      exact ⟨hfits, hgrows⟩

theorem resend_keeps (hlib : FewLayers lib) (codec : Codec) (down : RtpDownTrack) (n : Named) :
    Keeps down (resend lib codec down n).1 := by
  unfold resend
  split
  · exact .refl down
  · split
    · exact .refl down
    · exact write_keeps hlib codec n.max n.rate down _

theorem resendRange_keeps (hlib : FewLayers lib) (codec : Codec) (down : RtpDownTrack) (ns : List Named) :
    Keeps down (resendRange lib codec down ns).1 := by
  induction ns generalizing down with
  | nil => exact .refl down
  | cons n ns ih =>
      have hn := resend_keeps hlib codec down n
      rw [resendRange]
      split
      · next hr => rwa [hr] at hn
      · next hr =>
          rw [hr] at hn
          exact hn.trans (ih _)

theorem gotNACK_keeps (hlib : FewLayers lib) (codec : Codec) (down : RtpDownTrack) (ps : List (List Named)) :
    Keeps down (gotNACK lib codec down ps).1 := by
  induction ps generalizing down with
  | nil => exact .refl down
  | cons p ps ih => exact (resendRange_keeps hlib codec down p).trans (ih _)

/-- How a packet was forwarded, and that its layers are among those seen. -/
structure Forwarded (lib : Pion) (codec : Codec) (layer : LayerInfo) (sent : Sent) : Prop where
  flags : packetFlags lib codec sent.buf = .ok sent.flags
  out : renumber codec sent.flags.seqno sent.buf
    (sent.flags.sid = sent.layer.sid ∧ sent.flags.end ∧ ¬ sent.flags.marker) sent.number
    sent.pidDelta = .ok sent.out
  sid : sent.flags.sid ≤ layer.maxSid
  tid : sent.flags.tid ≤ layer.maxTid

theorem Forwarded.grow {layer layer' : LayerInfo} (h : Forwarded lib codec layer sent)
    (hgrows : Grows layer layer') : Forwarded lib codec layer' sent :=
  ⟨h.flags, h.out, UInt8.le_trans h.sid hgrows.sid, UInt8.le_trans h.tid hgrows.tid⟩

theorem Forwarded.number (hlib : FewLayers lib) {layer : LayerInfo}
    (h : Forwarded lib codec layer sent) : seqnoOf sent.out = sent.number := by
  have hout := h.out
  rw [(packetFlags_spec hlib h.flags).1] at hout
  exact (renumber_header hout).2

/-- A packet that is recorded was forwarded so. -/
theorem sentBy_forwarded (hlib : FewLayers lib) (hf : Fits down.layer) {max rate : UInt64}
    {buf : Bytes} (h : sentBy lib codec down buf (write lib codec max rate down buf) = some sent) :
    Forwarded lib codec (write lib codec max rate down buf).1.layer sent := by
  cases hflags : packetFlags lib codec buf with
  | error e =>
      rw [sentBy, hflags] at h
      cases h
  | ok flags =>
      obtain ⟨drop, hwrite⟩ := write_ok hflags max rate down
      obtain ⟨-, -, -, hsid, htid⟩ := packetFlags_spec hlib hflags
      obtain ⟨-, -, hsid, htid⟩ := selectLayer_grows hf max rate hsid htid
      rw [hwrite] at h ⊢
      cases hr : forward codec down.packetmap flags buf drop
          (flags.sid = (selectLayer max rate flags down.layer).sid ∧ flags.end ∧
            ¬ flags.marker) with
      | mk m r =>
          rw [sentBy, hflags] at h
          simp only [hr] at h
          cases r with
          | error e => cases h
          | ok out =>
              cases out with
              | none => cases h
              | some out =>
                  obtain ⟨number, pidDelta, hmap, hout⟩ := forward_sent hr
                  simp only [hmap, Option.map_some, Option.some.injEq] at h
                  subst h
                  exact ⟨hflags, hout, hsid, htid⟩

/-- A known packet that is in the cache comes to `Write` again. -/
theorem resend_known (hlib : FewLayers lib) (h : Forwarded lib codec down.layer sent)
    (hknown : Known down.packetmap sent) {n : Named} (hn : n.number = sent.number)
    (hcache : n.cache.get sent.flags.seqno = sent.buf) :
    resend lib codec down n = write lib codec n.max n.rate down sent.buf := by
  obtain ⟨-, -, hne, -⟩ := packetFlags_spec hlib h.flags
  rw [resend, hn, hknown.reverse]
  cases hbuf : sent.buf with
  | nil => exact (hne hbuf).elim
  | cons b bs => simp only [hcache, hbuf]

/-- The flag that asks for a marker, at first and again. -/
theorem marker_eq_iff (flags : Flags) (layer layer' : LayerInfo) :
    decide (flags.sid = layer.sid ∧ flags.end ∧ ¬ flags.marker) =
        decide (flags.sid = layer'.sid ∧ flags.end ∧ ¬ flags.marker) ↔
      (flags.end = true → flags.marker = false →
        (flags.sid = layer.sid ↔ flags.sid = layer'.sid)) := by
  rw [decide_eq_decide]
  constructor
  · intro h hend hmarker
    simpa [hend, hmarker] using h
  · intro h
    by_cases hend : flags.end = true ∧ flags.marker = false
    · simpa [hend.1, hend.2] using h hend.1 hend.2
    · exact iff_of_false (fun hset => hend ⟨hset.2.1, by simpa using hset.2.2⟩)
        fun hset => hend ⟨hset.2.1, by simpa using hset.2.2⟩

theorem write_undisturbed (h : Forwarded lib codec down.layer sent)
    (hknown : Known down.packetmap sent) (hu : Undisturbed down sent) (max rate : UInt64) :
    write lib codec max rate down sent.buf = (down, .ok (some sent.out)) := by
  obtain ⟨drop, hwrite⟩ := write_ok h.flags max rate down
  have hmarker := (marker_eq_iff _ _ _).mpr hu.marker
  rw [hwrite, (settled_iff max rate h.sid h.tid).mpr hu.settled]
  simp only
  rw [forward_near hu.near hknown.direct, hmarker, h.out]
  rfl

theorem undisturbed_of_write (hlib : FewLayers lib) (h : Forwarded lib codec down.layer sent)
    (hknown : Known down.packetmap sent) (max rate : UInt64)
    (hout : (write lib codec max rate down sent.buf).2 = .ok (some sent.out))
    (hlayer : (write lib codec max rate down sent.buf).1.layer = down.layer)
    (hnext : (write lib codec max rate down sent.buf).1.packetmap.next = down.packetmap.next)
    (hdelta : (write lib codec max rate down sent.buf).1.packetmap.delta = down.packetmap.delta) :
    Undisturbed down sent := by
  obtain ⟨drop, hwrite⟩ := write_ok h.flags max rate down
  rw [hwrite] at hout hlayer hnext hdelta
  simp only at hout hlayer hnext hdelta
  have hnear : Near down.packetmap sent.flags.seqno := by
    by_contra hfar
    rcases forward_moves hfar with hmoved | hmoved
    · exact hmoved hnext
    · exact hmoved hdelta
  refine ⟨hnear, (settled_iff max rate h.sid h.tid).mp hlayer, ?_⟩
  rw [hlayer, forward_near hnear hknown.direct] at hout
  obtain ⟨hseqno, hflag, -⟩ := packetFlags_spec hlib h.flags
  have hfirst := h.out
  rw [← marker_eq_iff]
  rw [hseqno] at hout hfirst
  refine renumber_marker ?_ ?_ hfirst
  · intro hset
    have hfree : sent.flags.marker = false := by
      rcases hset with hset | hset <;> simpa using (of_decide_eq_true hset).2.2
    rw [hflag] at hfree
    simpa using hfree
  · cases hr : renumber codec (seqnoOf sent.buf) sent.buf
        (sent.flags.sid = down.layer.sid ∧ sent.flags.end ∧ ¬ sent.flags.marker) sent.number
        sent.pidDelta with
    | error e =>
        rw [hr] at hout
        cases hout
    | ok out =>
        rw [hr] at hout
        cases hout
        rfl

end Tracks

section Reports

variable {lib : Pion} {codec : Codec} {down : RtpDownTrack}

theorem gotNACK_snoc (ps : List (List Named)) (p : List Named) :
    gotNACK lib codec down (ps ++ [p]) =
      ((resendRange lib codec (gotNACK lib codec down ps).1 p).1,
        (gotNACK lib codec down ps).2 ++
          (resendRange lib codec (gotNACK lib codec down ps).1 p).2) := by
  induction ps generalizing down with
  | nil => simp [gotNACK]
  | cons q ps ih => simp [gotNACK, ih]

/-- Behind a number that fails nothing of the pair is handled. -/
theorem resendRange_of_fails {pre : List Named} (h : Fails lib codec down pre)
    (ns : List Named) :
    resendRange lib codec down (pre ++ ns) = resendRange lib codec down pre := by
  induction pre generalizing down with
  | nil => exact h.elim
  | cons m pre ih =>
      rw [List.cons_append, resendRange, resendRange]
      rw [Fails] at h
      split
      · rfl
      · next hr =>
          rw [hr] at h
          rw [ih (h.resolve_left (by simp [Except.toOption]))]

/-- What is sent again for the last number of a pair. -/
theorem resendRange_snoc {pre : List Named} (h : ¬ Fails lib codec down pre) (n : Named) :
    resendRange lib codec down (pre ++ [n]) =
      let r := resendRange lib codec down pre
      ((resend lib codec r.1 n).1,
        r.2 ++ ((resend lib codec r.1 n).2.toOption.bind fun out => out).toList) := by
  induction pre generalizing down with
  | nil =>
      simp only [List.nil_append, resendRange]
      split
      · next hr => simp [hr, Except.toOption]
      · next hr => simp [hr, Except.toOption]
  | cons m pre ih =>
      obtain ⟨hm, hpre⟩ := not_or.mp h
      rw [List.cons_append, resendRange, resendRange]
      split
      · next hr => exact (hm (by rw [hr]; rfl)).elim
      · next hr =>
          rw [hr] at hpre
          simp only [ih hpre, List.append_assoc]

/-- For a packet that was forwarded and a track that has seen its layers. -/
theorem repeats_iff (hlib : FewLayers lib) (ps : List (List Named)) (pre : List Named)
    {sent : Sent}
    (hsent : Forwarded lib codec (gotNACK lib codec down (ps ++ [pre])).1.layer sent)
    (hknown : Known (gotNACK lib codec down (ps ++ [pre])).1.packetmap sent) {n : Named}
    (hn : n.number = sent.number) (hcache : n.cache.get sent.flags.seqno = sent.buf) :
    Repeats lib codec down ps pre n sent.out ↔ ¬ Fails lib codec (gotNACK lib codec down ps).1 pre ∧
      Undisturbed (gotNACK lib codec down (ps ++ [pre])).1 sent := by
  by_cases hfails : Fails lib codec (gotNACK lib codec down ps).1 pre
  · refine iff_of_false (fun h => ?_) fun h => h.1 hfails
    have hbytes := h.bytes
    rw [gotNACK_snoc, gotNACK_snoc, resendRange_of_fails hfails] at hbytes
    simp at hbytes
  have hresend := resend_known hlib hsent hknown hn hcache
  have hgot : gotNACK lib codec down (ps ++ [pre ++ [n]]) =
      ((write lib codec n.max n.rate (gotNACK lib codec down (ps ++ [pre])).1 sent.buf).1,
        (gotNACK lib codec down (ps ++ [pre])).2 ++
          ((write lib codec n.max n.rate (gotNACK lib codec down (ps ++ [pre])).1
            sent.buf).2.toOption.bind fun out => out).toList) := by
    rw [← hresend, gotNACK_snoc, gotNACK_snoc, resendRange_snoc hfails, List.append_assoc]
  constructor
  · intro h
    refine ⟨hfails, ?_⟩
    have hbytes := h.bytes
    have hlayer := h.layer
    have hnext := h.next
    have hdelta := h.delta
    rw [hgot] at hbytes hlayer hnext hdelta
    refine undisturbed_of_write hlib hsent hknown n.max n.rate ?_ hlayer hnext
      hdelta
    have hout := List.append_cancel_left hbytes
    revert hout
    cases (write lib codec n.max n.rate (gotNACK lib codec down (ps ++ [pre])).1 sent.buf).2 with
    | error e => simp [Except.toOption]
    | ok out =>
        cases out with
        | none => simp [Except.toOption]
        | some out => simp [Except.toOption]
  · rintro ⟨-, hu⟩
    rw [write_undisturbed hsent hknown hu] at hgot
    constructor <;> rw [hgot]
    · rfl
    · exact fun _ => rfl

end Reports

section States

variable {lib : Pion} {codec : Codec} {s : State}

/-- The invariant of a run: what was forwarded, and that its layers were seen. -/
structure Sound (lib : Pion) (codec : Codec) (s : State) : Prop where
  fits : Fits s.down.layer
  sent : ∀ sent ∈ s.sent, Forwarded lib codec s.down.layer sent

theorem Sound.keep (h : Sound lib codec s) {down : RtpDownTrack} (hkeeps : Keeps s.down down) :
    Sound lib codec { s with down } :=
  ⟨(hkeeps h.fits).1, fun sent hsent => (h.sent sent hsent).grow (hkeeps h.fits).2⟩

theorem Sound.write (hlib : FewLayers lib) (h : Sound lib codec s) (max rate : UInt64)
    (buf : Bytes) :
    Sound lib codec
      { down := (write lib codec max rate s.down buf).1
        sent := s.sent ++
          (sentBy lib codec s.down buf (write lib codec max rate s.down buf)).toList } := by
  have hkeep := h.keep (write_keeps hlib codec max rate s.down buf)
  refine ⟨hkeep.fits, fun sent hsent => ?_⟩
  rcases List.mem_append.mp hsent with hold | hnew
  · exact hkeep.sent sent hold
  · exact sentBy_forwarded hlib h.fits (Option.mem_toList.mp hnew)

theorem sound_of_reachable (hlib : FewLayers lib)
    (h : Reachable (system lib codec) Always s) : Sound lib codec s := by
  refine h.invariant ?_ ?_
  · rintro s rfl
    exact ⟨⟨⟨by decide, by decide, by decide, by decide, by decide⟩, by decide, by decide⟩, by simp⟩
  · intro s call t hs _ hstep
    cases call with
    | write max rate buf =>
        obtain rfl := Option.some.inj hstep
        exact hs.write hlib max rate buf
    | gotNACK nacks =>
        obtain rfl := Option.some.inj hstep
        exact hs.keep (gotNACK_keeps hlib codec s.down nacks)
    | adjustLayer max rate =>
        obtain rfl := Option.some.inj hstep
        refine hs.keep fun hf => ⟨hf.adjustLayer max rate, ?_⟩
        obtain ⟨-, htid, hsid⟩ := hf.adjustLayer_kept max rate
        exact ⟨hsid ▸ UInt8.le_refl _, htid ▸ UInt8.le_refl _⟩
    | replaceTracks limitSid =>
        obtain rfl := Option.some.inj hstep
        refine hs.keep fun hf => ⟨hf.replaceTracks limitSid, ?_⟩
        obtain ⟨hsid, htid⟩ := hf.replaceTracks_max limitSid
        exact ⟨hsid ▸ UInt8.le_refl _, htid ▸ UInt8.le_refl _⟩

/-- In every run, a reported packet whose mapping is known and that is still in
the cache is sent again as it was, and nothing else changes, if and only if it
is reached, is one of the 8192 newest, and neither switches layers nor is of a
layer that began or ceased to be the current one since. -/
theorem repeats_of_reachable (hlib : FewLayers lib)
    (h : Reachable (system lib codec) Always s) {sent : Sent} (hsent : sent ∈ s.sent)
    (ps : List (List Named)) (pre : List Named) {n : Named} (hn : n.number = seqnoOf sent.out)
    (hknown : Known (gotNACK lib codec s.down (ps ++ [pre])).1.packetmap sent)
    (hcache : n.cache.get sent.flags.seqno = sent.buf) :
    Repeats lib codec s.down ps pre n sent.out ↔
      ¬ Fails lib codec (gotNACK lib codec s.down ps).1 pre ∧
        Undisturbed (gotNACK lib codec s.down (ps ++ [pre])).1 sent := by
  have hsound := (sound_of_reachable hlib h).keep
    (gotNACK_keeps hlib codec s.down (ps ++ [pre]))
  have hforwarded := hsound.sent sent hsent
  rw [hforwarded.number hlib] at hn
  exact repeats_iff hlib ps pre hforwarded hknown hn hcache

/-- A depacketiser for VP9 packets with layer indices and no picture id. -/
def layerReader : Pion where
  unmarshal buf :=
    some { marker := peek buf 1 &&& 0x80 ≠ 0, payload := buf.drop (headerLength buf) }
  unmarshalVP8 _ := none
  unmarshalVP9 payload :=
    if payload.length < 3 then none
    else
      some { p := peek payload 0 &&& 0x40 ≠ 0, b := peek payload 0 &&& 0x08 ≠ 0
             e := peek payload 0 &&& 0x04 ≠ 0, tid := peek payload 1 >>> 5
             u := peek payload 1 &&& 0x10 ≠ 0, sid := (peek payload 1 >>> 1) &&& 0x07
             payload := payload.drop 3 }

theorem layerReader_fewLayers : FewLayers layerReader := by
  refine ⟨nofun, fun payload p h => ?_⟩
  have hbits : ∀ b : UInt8, b >>> 5 < 8 ∧ (b >>> 1) &&& 0x07 < 8 := by
    intro b
    have hb := b.toNat_lt
    have hand : ((b >>> 1) &&& 0x07).toNat = (b >>> 1).toNat % 8 :=
      (UInt8.toNat_and ..).trans (Nat.and_two_pow_sub_one_eq_mod _ 3)
    rw [UInt8.lt_iff_toNat_lt, UInt8.lt_iff_toNat_lt, hand, UInt8.toNat_shiftRight,
      show (8 : UInt8).toNat = 8 from rfl, show (5 : UInt8).toNat % 8 = 5 from rfl,
      Nat.shiftRight_eq_div_pow]
    omega
  simp only [layerReader] at h
  split_ifs at h
  cases h
  exact hbits _

/-- A frame of one packet, in spatial layer `sid`. -/
def samplePacket (seqno sid marker : UInt8) : Bytes :=
  [0x80, marker, 0, seqno, 0, 0, 0, 0, 0, 0, 0, 0, 0x2C, sid <<< 1, 0, 0x86]

def sampleCache : PacketCache.Cache :=
  ((PacketCache.new 16).store 1 0 false false (samplePacket 1 0 0)).1

/-- The lower layer's frame of a picture, and then the higher one's, which ends
it. -/
def sampleCalls : List Call :=
  [.write 1000 1000 (samplePacket 1 0 0), .write 1000 1000 (samplePacket 2 1 0x80)]

def sampleNamed : Named := ⟨1, sampleCache, 1000, 1000⟩

/-- The first packet comes again before the second one: it is sent as it was. -/
theorem repeats_sample : ∃ s sent, Reachable (system layerReader .vp9) Always s ∧ sent ∈ s.sent ∧
    (Repeats layerReader .vp9 s.down [] [] sampleNamed sent.out ↔
      ¬ Fails layerReader .vp9 (gotNACK layerReader .vp9 s.down []).1 [] ∧
        Undisturbed (gotNACK layerReader .vp9 s.down ([] ++ [[]])).1 sent) := by
  obtain ⟨s, hs, sent, hsent, hnumber, hknown, hcache⟩ :
      ∃ s ∈ (system layerReader .vp9).exec Always {} (sampleCalls.take 1), ∃ sent ∈ s.sent,
        sampleNamed.number = seqnoOf sent.out ∧
        Known (gotNACK layerReader .vp9 s.down ([] ++ [[]])).1.packetmap sent ∧
        sampleNamed.cache.get sent.flags.seqno = sent.buf := by decide +kernel
  have hreach : Reachable (system layerReader .vp9) Always s := .exec (.init rfl) hs
  exact ⟨s, sent, hreach, hsent, repeats_of_reachable layerReader_fewLayers hreach hsent [] []
    hnumber hknown hcache⟩

/-- After the second one its layer is no longer the current one, and it is sent
without the marker. -/
theorem not_repeats : ¬ ∀ (lib : Pion) (codec : Codec) (s : State) (sent : Sent)
    (ps : List (List Named)) (pre : List Named) (n : Named), FewLayers lib →
    Reachable (system lib codec) Always s → sent ∈ s.sent → n.number = seqnoOf sent.out →
    Known (gotNACK lib codec s.down (ps ++ [pre])).1.packetmap sent →
    n.cache.get sent.flags.seqno = sent.buf → Repeats lib codec s.down ps pre n sent.out := by
  intro h
  obtain ⟨s, hs, sent, hsent, hnumber, hknown, hcache, hout⟩ :
      ∃ s ∈ (system layerReader .vp9).exec Always {} sampleCalls, ∃ sent ∈ s.sent,
        sampleNamed.number = seqnoOf sent.out ∧
        Known (gotNACK layerReader .vp9 s.down ([] ++ [[]])).1.packetmap sent ∧
        sampleNamed.cache.get sent.flags.seqno = sent.buf ∧
        (gotNACK layerReader .vp9 s.down ([] ++ [[] ++ [sampleNamed]])).2 ≠
          (gotNACK layerReader .vp9 s.down ([] ++ [[]])).2 ++ [sent.out] := by decide +kernel
  exact hout (h _ _ s sent [] [] sampleNamed layerReader_fewLayers (.exec (.init rfl) hs) hsent
    hnumber hknown hcache).bytes

end States

end Sozvon.Retransmission
