import Sozvon.PacketCache
import Sozvon.Runs

/-!
# The most recent packets

What the packet cache is for: a list of the most recent packets, the newest one
first, cut to the capacity whenever that is exceeded. The cache's ring holds that
list from its tail backwards, and a resize, which copies it in two parts, only
cuts it.

Indices into the ring are kept by the writers of a track. One of them holds its
packet until the ring has gone round or a resize has moved it.
-/
namespace Sozvon.PacketCache
open Codecs (Bytes)
open Runs Rings

structure Packet where
  seqno : UInt16
  timestamp : UInt32
  marker : Bool
  buf : Bytes
deriving DecidableEq, Repr

def Entry.used (e : Entry) : Bool := e.lengthAndMarker ≠ 0

def Entry.packet (e : Entry) : Packet where
  seqno := e.seqno
  timestamp := e.timestamp
  marker := e.marker
  buf := e.data

/-- The used entries, read backwards from the tail. -/
def Cache.backwards (cache : Cache) : List Packet :=
  (((cache.entries.take cache.tail).reverse ++ (cache.entries.drop cache.tail).reverse).filter
    Entry.used).map Entry.packet

inductive Call where
  | store (p : Packet) (keyframe : Bool)
  | resize (capacity : ℕ)
  | resizeCond (capacity : ℕ)
deriving DecidableEq, Repr

def Cache.call (cache : Cache) : Call → Cache
  | .store p keyframe => (cache.store p.seqno p.timestamp keyframe p.marker p.buf).1
  | .resize capacity => cache.resize capacity
  | .resizeCond capacity => (cache.resizeCond capacity).1

/-- What a cache is to be: its capacity and the most recent packets, the newest
one first. -/
structure Recent where
  capacity : ℕ
  packets : List Packet := []
deriving DecidableEq, Repr

def Recent.store (r : Recent) (p : Packet) : Recent :=
  { r with packets := (p :: r.packets).take r.capacity }

def Recent.resize (r : Recent) (capacity : ℕ) : Recent :=
  { capacity, packets := r.packets.take capacity }

/-- A cache beside the list it stands for. -/
structure State where
  cache : Cache
  recent : Recent
deriving DecidableEq, Repr

def step (s : State) (a : Call) : Option State :=
  some { cache := s.cache.call a, recent := match a with
    | .store p _ => s.recent.store p
    | .resize capacity => s.recent.resize capacity
    | .resizeCond capacity =>
        if (s.cache.resizeCond capacity).2 then s.recent.resize capacity else s.recent }

def Capacity (n : ℕ) : Prop := 1 ≤ n ∧ n ≤ 65535

def system : System State Call where
  init s := ∃ capacity, Capacity capacity ∧ s = ⟨new capacity, { capacity }⟩
  step

/-- Packets of 1 to 1504 bytes, and capacities that are not zero and fit. -/
def Sized (_ : State) : Call → Prop
  | .store p _ => 1 ≤ p.buf.length ∧ p.buf.length ≤ bufSize
  | .resize capacity => Capacity capacity
  | .resizeCond capacity => Capacity capacity

/-- The cache has the packets of the list and no others. -/
structure Refines (cache : Cache) (recent : Recent) : Prop where
  capacity : cache.entries.length = recent.capacity
  backwards : cache.backwards = recent.packets
  get_iff : ∀ seqno, cache.get seqno ≠ [] ↔ ∃ p ∈ recent.packets, p.seqno = seqno
  get : ∀ seqno, cache.get seqno ≠ [] →
    ∃ p ∈ recent.packets, p.seqno = seqno ∧ cache.get seqno = p.buf
  getAt : ∀ seqno i, cache.getAt seqno i ≠ [] →
    ∃ p ∈ recent.packets, p.seqno = seqno ∧ cache.getAt seqno i = p.buf

/-- A resize that moves what is at an index, or drops it. -/
def Call.Invalidates (cache : Cache) (i : ℕ) : Call → Prop
  | .store _ _ => False
  | .resize n => cache.entries.length ≠ n ∧ (cache.tail ≤ i ∨ n < cache.tail)
  | .resizeCond n => (cache.resizeCond n).2 = true ∧ cache.entries.length ≠ n ∧
      (cache.tail ≤ i ∨ n < cache.tail)

def Call.stores : Call → ℕ
  | .store _ _ => 1
  | _ => 0

/-- In a row of calls an index is never invalidated, and at no time as many
packets as the capacity have been stored. -/
def Undisturbed (i : ℕ) : ℕ → Cache → List Call → Prop
  | _, _, [] => True
  | k, cache, a :: calls =>
      ¬ a.Invalidates cache i ∧ k + a.stores < (cache.call a).entries.length ∧
        Undisturbed i (k + a.stores) (cache.call a) calls

/-- What holds of the indices into a cache. -/
structure Indexed (cache : Cache) : Prop where
  stored : ∀ (p : Packet) keyframe calls, 1 ≤ p.buf.length → p.buf.length ≤ bufSize →
    let r := cache.store p.seqno p.timestamp keyframe p.marker p.buf
    Undisturbed r.2.2 0 r.1 calls → (calls.foldl Cache.call r.1).getAt p.seqno r.2.2 = p.buf
  refused : ∀ n, (cache.resizeCond n).2 = false → (cache.resizeCond n).1 = cache
  kept : ∀ n, (cache.resizeCond n).2 = true → ∀ i < cache.tail,
    (cache.resizeCond n).1.entries[i]? = cache.entries[i]?

section Entries

theorem length_or_marker {n : ℕ} (h : n < 32768) :
    (UInt16.ofNat n ||| 0x8000).toNat = 32768 + n := by
  have hn : (UInt16.ofNat n).toNat = n := UInt16.toNat_ofNat_of_lt' (by
    change n < 65536
    omega)
  rw [UInt16.toNat_or, hn, Nat.or_comm]
  exact (Nat.two_pow_add_eq_or_of_lt (i := 15) h 1).symm

variable {e : Entry} {seqno : UInt16} {timestamp : UInt32} {marker : Bool} {buf : Bytes}

theorem write_lengthAndMarker (h : buf.length < 32768) :
    (e.write seqno timestamp marker buf).lengthAndMarker.toNat =
      (if marker then 32768 else 0) + buf.length := by
  cases marker with
  | true => exact length_or_marker h
  | false =>
      have hn : (UInt16.ofNat buf.length).toNat = buf.length := UInt16.toNat_ofNat_of_lt' (by
        change buf.length < 65536
        omega)
      rw [Entry.write, if_neg Bool.false_ne_true, if_neg Bool.false_ne_true, Nat.zero_add]
      exact hn

theorem write_length (h : buf.length < 32768) :
    (e.write seqno timestamp marker buf).length.toNat = buf.length := by
  rw [Entry.length, Codecs.toNat_and_0x7FFF, write_lengthAndMarker h]
  split_ifs <;> omega

/-- What is written over an entry is what it holds then. -/
theorem write_packet (h : 1 ≤ buf.length) (hle : buf.length ≤ bufSize) :
    (e.write seqno timestamp marker buf).packet = ⟨seqno, timestamp, marker, buf⟩ ∧
      (e.write seqno timestamp marker buf).used := by
  have hlt : buf.length < 32768 := Nat.lt_of_le_of_lt hle (by decide)
  have hdata : (e.write seqno timestamp marker buf).data = buf := by
    rw [Entry.data, write_length hlt, Entry.write, List.take_append_of_le_length,
      List.take_take, List.take_of_length_le]
    · exact Nat.le_min.mpr ⟨Nat.le_refl _, hle⟩
    · rw [List.length_take]
      exact Nat.le_min.mpr ⟨hle, Nat.le_refl _⟩
  have hmarker : (e.write seqno timestamp marker buf).marker = marker := by
    rw [Entry.marker, Bool.eq_iff_iff, decide_eq_true_iff, SerialNumbers.and_0x8000_ne_zero,
      write_lengthAndMarker hlt]
    cases marker with
    | true => simp
    | false => simpa using hlt
  have hused : (e.write seqno timestamp marker buf).used := by
    rw [Entry.used, decide_eq_true_iff, ne_eq, ← UInt16.toNat_inj, write_lengthAndMarker hlt]
    change _ ≠ 0
    omega
  exact ⟨by rw [Entry.packet, hdata, hmarker]; rfl, hused⟩

end Entries

section Ring

variable {ring : List Entry} {packets : List Packet} {e : Entry}

/-- A ring, its oldest element first, that has not been filled up to some point
and holds the packets of a list from there on. -/
def Holds (ring : List Entry) (packets : List Packet) : Prop :=
  ∃ n used, ring = List.replicate n ({} : Entry) ++ used ∧ (∀ e ∈ used, e.used = true ∧ e.data ≠ []) ∧
    used.map Entry.packet = packets.reverse

theorem Holds.length_le (h : Holds ring packets) : packets.length ≤ ring.length := by
  obtain ⟨n, used, rfl, -, hpackets⟩ := h
  have hlength := congrArg List.length hpackets
  rw [List.length_map, List.length_reverse] at hlength
  rw [List.length_append]
  omega

theorem Holds.snoc (h : Holds ring packets) (hused : e.used = true) (hdata : e.data ≠ []) :
    Holds (ring ++ [e]) (e.packet :: packets) := by
  obtain ⟨n, used, rfl, hall, hpackets⟩ := h
  refine ⟨n, used ++ [e], List.append_assoc .., fun d hd => ?_, ?_⟩
  · rcases List.mem_append.mp hd with hd | hd
    · exact hall d hd
    · rw [List.mem_singleton.mp hd]
      exact ⟨hused, hdata⟩
  · rw [List.map_append, hpackets, List.reverse_cons]
    rfl

/-- Slots that have not been used go first, then the oldest packets. -/
theorem Holds.drop (h : Holds ring packets) {n : ℕ} (hn : n ≤ ring.length) :
    Holds (ring.drop n) (packets.take (ring.length - n)) := by
  obtain ⟨m, used, rfl, hall, hpackets⟩ := h
  have hlength := congrArg List.length hpackets
  rw [List.length_map, List.length_reverse] at hlength
  refine ⟨m - n, used.drop (n - m), ?_, fun e he => hall e (List.mem_of_mem_drop he), ?_⟩
  · rw [List.drop_append, List.drop_replicate, List.length_replicate]
  · rw [List.length_append, List.length_replicate, List.map_drop, hpackets, List.drop_reverse]
    rw [List.length_append, List.length_replicate] at hn
    congr 1
    by_cases hfree : n ≤ m
    · rw [List.take_of_length_le (by omega), List.take_of_length_le (by omega)]
    · congr 1
      omega

theorem Holds.grow (h : Holds ring packets) (n : ℕ) :
    Holds (List.replicate n ({} : Entry) ++ ring) packets := by
  obtain ⟨m, used, rfl, hall, hpackets⟩ := h
  refine ⟨n + m, used, ?_, hall, hpackets⟩
  rw [← List.append_assoc, List.replicate_append_replicate]

/-- A stored packet pushes out the oldest one of a full ring. -/
theorem Holds.push (h : Holds ring packets) (hne : 1 ≤ ring.length) (hused : e.used = true)
    (hdata : e.data ≠ []) :
    Holds (ring.drop 1 ++ [e]) ((e.packet :: packets).take ring.length) := by
  have hpushed := (h.drop hne).snoc hused hdata
  obtain ⟨n, hn⟩ : ∃ n, ring.length = n + 1 := ⟨ring.length - 1, by omega⟩
  rw [hn, Nat.add_sub_cancel] at hpushed
  rw [hn, List.take_succ_cons]
  exact hpushed

end Ring

section Runs

variable {cache : Cache} {recent : Recent} {s : State}

/-- The tail is in the ring, and the ring holds the list. -/
structure Follows (cache : Cache) (recent : Recent) : Prop where
  capacity : cache.entries.length = recent.capacity
  tail : cache.tail < cache.entries.length
  holds : Holds (oldestFirst cache.tail cache.entries) recent.packets

theorem backwards_eq (cache : Cache) : cache.backwards =
    (((oldestFirst cache.tail cache.entries).filter Entry.used).map Entry.packet).reverse := by
  rw [Cache.backwards, oldestFirst, ← List.reverse_append, List.filter_reverse, List.map_reverse]

theorem count_entries (cache : Cache) (seqno : UInt16) :
    (cache.count seqno).entries = cache.entries ∧ (cache.count seqno).tail = cache.tail := by
  unfold Cache.count
  split_ifs <;> exact ⟨rfl, rfl⟩

/-- A store writes at the tail, and the tail moves on. -/
theorem store_ring (cache : Cache) (seqno : UInt16) (timestamp : UInt32) (keyframe marker : Bool)
    (buf : Bytes) :
    (cache.store seqno timestamp keyframe marker buf).1.entries = cache.entries.set cache.tail
        ((cache.entries.getD cache.tail {}).write seqno timestamp marker buf) ∧
      (cache.store seqno timestamp keyframe marker buf).1.tail =
        (cache.tail + 1) % cache.entries.length ∧
      (cache.store seqno timestamp keyframe marker buf).2.2 = cache.tail := by
  obtain ⟨hentries, htail⟩ := count_entries cache seqno
  cases keyframe <;> simp only [Cache.store, hentries, htail, if_true, Bool.false_eq_true, if_false,
    and_self]

theorem Follows.store (h : Follows cache recent) {p : Packet} (hp : 1 ≤ p.buf.length)
    (hle : p.buf.length ≤ bufSize) (keyframe : Bool) :
    Follows (cache.store p.seqno p.timestamp keyframe p.marker p.buf).1 (recent.store p) := by
  obtain ⟨hentries, htail, -⟩ := store_ring cache p.seqno p.timestamp keyframe p.marker p.buf
  generalize cache.entries.getD cache.tail {} = e at hentries
  obtain ⟨hpacket, hused⟩ : (e.write p.seqno p.timestamp p.marker p.buf).packet = p ∧
      (e.write p.seqno p.timestamp p.marker p.buf).used := write_packet hp hle
  have hdata : (e.write p.seqno p.timestamp p.marker p.buf).data = p.buf :=
    congrArg Packet.buf hpacket
  have hne : p.buf ≠ [] := List.ne_nil_of_length_pos hp
  have hpos := Nat.zero_lt_of_lt h.tail
  refine ⟨?_, ?_, ?_⟩
  · rw [hentries, List.length_set]
    exact h.capacity
  · rw [hentries, htail, List.length_set]
    exact Nat.mod_lt _ hpos
  · have hpush := h.holds.push (by rwa [length_oldestFirst]) hused (by rwa [hdata])
    rw [hentries, htail, oldestFirst_set h.tail]
    rwa [hpacket, length_oldestFirst, h.capacity] at hpush

theorem length_resize (h : cache.tail < cache.entries.length) (n : ℕ) :
    (cache.resize n).entries.length = n := by
  simp only [Cache.resize]
  split_ifs with hsame hgrow hshrink
  · exact hsame
  · simp only [List.length_append, List.length_take, List.length_replicate, List.length_drop]
    omega
  · simp only [List.length_append, List.length_take, List.length_drop]
    omega
  · simp only [List.length_take, List.length_drop]
    omega

/-- A resize only cuts the list. -/
theorem Follows.resize (h : Follows cache recent) {n : ℕ} (hn : Capacity n) :
    Follows (cache.resize n) (recent.resize n) := by
  have htail := h.tail
  have hlength := length_resize htail n
  have hpos := hn.1
  have hfits := h.holds.length_le
  rw [length_oldestFirst] at hfits
  have hcut := h.holds.drop (n := cache.entries.length - n) (by rw [length_oldestFirst]; omega)
  rw [length_oldestFirst] at hcut
  simp only [Cache.resize] at hlength ⊢
  split_ifs at hlength ⊢ with hsame hgrow hshrink
  · have htake : recent.packets.take n = recent.packets := List.take_of_length_le (by omega)
    refine ⟨hlength, htail, ?_⟩
    dsimp only [Recent.resize]
    rw [htake]
    exact h.holds
  · have htake : recent.packets.take n = recent.packets := List.take_of_length_le (by omega)
    refine ⟨hlength, Nat.lt_of_lt_of_eq (Nat.lt_trans htail hgrow) hlength.symm, ?_⟩
    dsimp only [Recent.resize]
    rw [oldestFirst_grow (Nat.le_of_lt htail), htake]
    exact h.holds.grow _
  · refine ⟨hlength, Nat.lt_of_lt_of_eq hshrink hlength.symm, ?_⟩
    dsimp only [Recent.resize]
    rw [Nat.add_sub_assoc (by omega), oldestFirst_shrink (by omega)]
    rwa [show cache.entries.length - (cache.entries.length - n) = n by omega] at hcut
  · refine ⟨hlength, Nat.lt_of_lt_of_eq hpos hlength.symm, ?_⟩
    dsimp only [Recent.resize]
    rw [oldestFirst_newest (by omega) (by omega)]
    rwa [show cache.entries.length - (cache.entries.length - n) = n by omega] at hcut

theorem resizeCond_eq (cache : Cache) (n : ℕ) :
    cache.resizeCond n = (cache, false) ∨
      cache.resizeCond n = (cache.resize n, true) ∧
        (n < cache.entries.length → cache.tail ≤ n) := by
  unfold Cache.resizeCond
  dsimp only
  split_ifs with hnear hmany
  · exact Or.inl rfl
  · exact Or.inl rfl
  · exact Or.inr ⟨rfl, fun hlt => by omega⟩

theorem recent_of_reachable (h : Reachable system Sized s) : Follows s.cache s.recent := by
  refine h.invariant (P := fun s => Follows s.cache s.recent) ?_ ?_
  · rintro s ⟨capacity, hcapacity, rfl⟩
    have hlength : (new capacity).entries.length = capacity := List.length_replicate
    refine ⟨hlength, ?_, capacity, [], ?_, nofun, rfl⟩
    · rw [hlength]
      exact hcapacity.1
    · rw [List.append_nil]
      exact List.append_nil _
  · rintro s a t h hsized ⟨⟩
    cases a with
    | store p keyframe => exact h.store hsized.1 hsized.2 keyframe
    | resize n => exact h.resize hsized
    | resizeCond n =>
        rcases resizeCond_eq s.cache n with heq | ⟨heq, -⟩
        · simpa only [Cache.call, heq, Bool.false_eq_true, if_false] using h
        · simpa only [Cache.call, heq, if_true] using h.resize hsized

theorem find_some {seqno : UInt16} {entries : List Entry} {e : Entry}
    (h : find seqno entries = some e) : e ∈ entries ∧ e.used = true ∧ e.seqno = seqno := by
  have hprop := List.find?_some h
  rw [decide_eq_true_iff] at hprop
  exact ⟨List.mem_of_find?_eq_some h, decide_eq_true hprop.1, hprop.2⟩

/-- A used entry of a ring is one of the packets of its list. -/
theorem Follows.mem (h : Follows cache recent) {e : Entry} (he : e ∈ cache.entries) :
    e.data = [] ∨ e.packet ∈ recent.packets := by
  obtain ⟨n, used, hring, hall, hpackets⟩ := h.holds
  rw [← mem_oldestFirst cache.tail, hring] at he
  rcases List.mem_append.mp he with hfree | hin
  · rw [List.eq_of_mem_replicate hfree]
    exact Or.inl rfl
  · refine Or.inr ?_
    rw [← List.mem_reverse, ← hpackets]
    exact List.mem_map_of_mem hin

theorem Follows.refines (h : Follows cache recent) : Refines cache recent := by
  obtain ⟨n, used, hring, hall, hpackets⟩ := h.holds
  have hfound (seqno : UInt16) (hget : cache.get seqno ≠ []) :
      ∃ p ∈ recent.packets, p.seqno = seqno ∧ cache.get seqno = p.buf := by
    unfold Cache.get at hget ⊢
    cases hfind : find seqno cache.entries with
    | none =>
        rw [hfind] at hget
        exact absurd rfl hget
    | some e =>
        rw [hfind] at hget
        obtain ⟨hin, -, hseqno⟩ := find_some hfind
        exact ⟨e.packet, (h.mem hin).resolve_left hget, hseqno, rfl⟩
  refine ⟨h.capacity, ?_, fun seqno => ⟨fun hget => ?_, ?_⟩, hfound, fun seqno i hget => ?_⟩
  · have hfree : (List.replicate n ({} : Entry)).filter Entry.used = [] := by
      refine List.filter_eq_nil_iff.mpr fun e he => ?_
      rw [List.eq_of_mem_replicate he]
      decide
    rw [backwards_eq, hring, List.filter_append, hfree, List.nil_append,
      List.filter_eq_self.mpr fun e he => (hall e he).1, hpackets, List.reverse_reverse]
  · obtain ⟨p, hp, hseqno, -⟩ := hfound seqno hget
    exact ⟨p, hp, hseqno⟩
  · rintro ⟨p, hp, hseqno⟩
    rw [← List.mem_reverse, ← hpackets] at hp
    obtain ⟨e, he, rfl⟩ := List.mem_map.mp hp
    have hin : e ∈ cache.entries := by
      rw [← mem_oldestFirst cache.tail, hring]
      exact List.mem_append_right _ he
    unfold Cache.get
    cases hfind : find seqno cache.entries with
    | none =>
        have hused : e.lengthAndMarker ≠ 0 := of_decide_eq_true (hall e he).1
        exact absurd (decide_eq_true ⟨hused, hseqno⟩) (List.find?_eq_none.mp hfind e hin)
    | some e' =>
        obtain ⟨hin', hused', -⟩ := find_some hfind
        rw [← mem_oldestFirst cache.tail, hring] at hin'
        rcases List.mem_append.mp hin' with hfree | hin'
        · rw [List.eq_of_mem_replicate hfree] at hused'
          exact absurd hused' (by decide)
        · exact (hall e' hin').2
  · unfold Cache.getAt at hget ⊢
    cases hi : cache.entries[i]? with
    | none =>
        rw [hi] at hget
        exact absurd rfl hget
    | some e =>
        rw [hi] at hget
        dsimp only at hget ⊢
        by_cases hseqno : e.seqno = seqno
        · rw [if_neg (not_not_intro hseqno)] at hget ⊢
          exact ⟨e.packet, (h.mem (List.mem_of_getElem? hi)).resolve_left hget, hseqno, rfl⟩
        · rw [if_pos hseqno] at hget
          exact absurd rfl hget

end Runs

section Indices

variable {cache : Cache} {recent : Recent} {p : Packet} {i k n : ℕ} {s : State}

/-- A packet is at an index, and `k` others have been stored after it. -/
structure Placed (cache : Cache) (p : Packet) (i k : ℕ) : Prop where
  index : i < cache.entries.length
  fresh : k < cache.entries.length
  depth : (i + k + 1) % cache.entries.length = cache.tail
  entry : cache.entries[i]?.map Entry.packet = some p

theorem placed_store (h : cache.tail < cache.entries.length) (hp : 1 ≤ p.buf.length)
    (hle : p.buf.length ≤ bufSize) (keyframe : Bool) :
    Placed (cache.store p.seqno p.timestamp keyframe p.marker p.buf).1 p cache.tail 0 := by
  obtain ⟨hentries, htail, -⟩ := store_ring cache p.seqno p.timestamp keyframe p.marker p.buf
  refine ⟨?_, ?_, ?_, ?_⟩
  · rwa [hentries, List.length_set]
  · rw [hentries, List.length_set]
    exact Nat.zero_lt_of_lt h
  · rw [hentries, List.length_set, htail]
  · rw [hentries, List.getElem?_set_self h]
    exact congrArg some (write_packet hp hle).1

theorem Placed.store (h : Placed cache p i k) (hk : k + 1 < cache.entries.length) (q : Packet)
    (keyframe : Bool) :
    Placed (cache.store q.seqno q.timestamp keyframe q.marker q.buf).1 p i (k + 1) := by
  obtain ⟨hentries, htail, -⟩ := store_ring cache q.seqno q.timestamp keyframe q.marker q.buf
  refine ⟨?_, ?_, ?_, ?_⟩
  · rw [hentries, List.length_set]
    exact h.index
  · rwa [hentries, List.length_set]
  · rw [hentries, List.length_set, htail, ← h.depth, Nat.mod_add_mod]
    rfl
  · rw [hentries, set_ne h.index hk h.depth]
    exact h.entry

/-- What is below the tail stays where it is unless the ring gets smaller than
that. -/
theorem getElem_resize (htail : cache.tail ≤ cache.entries.length) (hi : i < cache.tail)
    (hn : cache.tail ≤ n) : (cache.resize n).entries[i]? = cache.entries[i]? := by
  have htake (l : List Entry) : (cache.entries.take cache.tail ++ l)[i]? = cache.entries[i]? := by
    rw [List.getElem?_append_left (by rw [List.length_take]; omega), List.getElem?_take_of_lt hi]
  simp only [Cache.resize]
  split_ifs with hsame hgrow hshrink
  · rfl
  · dsimp only
    rw [List.append_assoc]
    exact htake _
  · exact htake _
  · dsimp only
    rw [show cache.tail - n = 0 by omega, List.drop_zero, List.getElem?_take_of_lt hi]

theorem Placed.resize (h : Placed cache p i k) (hk : k < (cache.resize n).entries.length)
    (hkeep : cache.entries.length = n ∨ i < cache.tail ∧ cache.tail ≤ n) :
    Placed (cache.resize n) p i k := by
  have htail : cache.tail < cache.entries.length := by
    rw [← h.depth]
    exact Nat.mod_lt _ (Nat.zero_lt_of_lt h.index)
  have hlength := length_resize htail n
  rcases hkeep with hsame | ⟨hi, hn⟩
  · rwa [Cache.resize, if_pos hsame]
  · have hdepth : i + k + 1 = cache.tail := by
      have hdepth := h.depth
      have hfresh := h.fresh
      rcases Nat.lt_or_ge (i + k + 1) cache.entries.length with hlt | hge
      · rwa [Nat.mod_eq_of_lt hlt] at hdepth
      · rw [Nat.mod_eq_sub_mod hge, Nat.mod_eq_of_lt (by omega)] at hdepth
        omega
    refine ⟨by omega, hk, ?_, ?_⟩
    · rw [hlength, hdepth]
      unfold Cache.resize
      dsimp only
      split_ifs with hsame hgrow hshrink
      · rw [← hsame, Nat.mod_eq_of_lt htail]
      · exact Nat.mod_eq_of_lt (Nat.lt_trans htail hgrow)
      · exact Nat.mod_eq_of_lt hshrink
      · rw [show cache.tail = n by omega, Nat.mod_self]
    · rw [getElem_resize (Nat.le_of_lt htail) hi hn]
      exact h.entry

theorem Placed.call (h : Placed cache p i k) {a : Call} (hvalid : ¬ a.Invalidates cache i)
    (hfresh : k + a.stores < (cache.call a).entries.length) :
    Placed (cache.call a) p i (k + a.stores) := by
  cases a with
  | store q keyframe =>
      obtain ⟨hentries, -, -⟩ := store_ring cache q.seqno q.timestamp keyframe q.marker q.buf
      refine h.store ?_ q keyframe
      rwa [Cache.call, hentries, List.length_set] at hfresh
  | resize n =>
      refine h.resize hfresh ?_
      simp only [Call.Invalidates] at hvalid
      omega
  | resizeCond n =>
      simp only [Cache.call, Call.Invalidates] at hvalid hfresh ⊢
      rcases resizeCond_eq cache n with heq | ⟨heq, -⟩
      · rwa [heq]
      · rw [heq] at hvalid hfresh ⊢
        refine h.resize hfresh ?_
        simp only [true_and] at hvalid
        omega

/-- An index is good through every row of calls that leaves it alone. -/
theorem Placed.getAt (h : Placed cache p i k) (calls : List Call)
    (hcalls : Undisturbed i k cache calls) :
    (calls.foldl Cache.call cache).getAt p.seqno i = p.buf := by
  induction calls generalizing cache k with
  | nil =>
      obtain ⟨e, he, rfl⟩ := Option.map_eq_some_iff.mp h.entry
      rw [List.foldl_nil, Cache.getAt, he]
      exact if_neg (not_not_intro rfl)
  | cons a calls ih =>
      obtain ⟨hvalid, hfresh, hrest⟩ := hcalls
      exact ih (h.call hvalid hfresh) hrest

theorem Follows.indexed (h : Follows cache recent) : Indexed cache where
  stored p keyframe calls hp hle := by
    obtain ⟨-, -, hindex⟩ := store_ring cache p.seqno p.timestamp keyframe p.marker p.buf
    intro r hcalls
    rw [hindex] at hcalls ⊢
    exact (placed_store h.tail hp hle keyframe).getAt calls hcalls
  refused n hrefused := by
    rcases resizeCond_eq cache n with heq | ⟨heq, -⟩
    · rw [heq]
    · rw [heq] at hrefused
      cases hrefused
  kept n hdone i hi := by
    rcases resizeCond_eq cache n with heq | ⟨heq, hle⟩
    · rw [heq]
    · have htail := h.tail
      rw [heq]
      exact getElem_resize (Nat.le_of_lt htail) hi (by omega)

/-- The cache is the list of its most recent packets, after every run. -/
theorem refines_of_reachable (h : Reachable system Sized s) :
    Refines s.cache s.recent ∧ Indexed s.cache :=
  ⟨(recent_of_reachable h).refines, (recent_of_reachable h).indexed⟩

instance (s : State) : (a : Call) → Decidable (Sized s a)
  | .store p _ => inferInstanceAs (Decidable (1 ≤ p.buf.length ∧ p.buf.length ≤ bufSize))
  | .resize n => inferInstanceAs (Decidable (1 ≤ n ∧ n ≤ 65535))
  | .resizeCond n => inferInstanceAs (Decidable (1 ≤ n ∧ n ≤ 65535))

/-- A ring of two that goes round, grows in its middle, goes round and shrinks. -/
def resized : List Call :=
  [.store ⟨65534, 1, false, [1]⟩ true, .store ⟨65535, 1, true, [2]⟩ false,
    .store ⟨0, 2, false, [3, 3]⟩ false, .resizeCond 4, .store ⟨1, 2, true, [4]⟩ false, .resize 2,
    .resizeCond 2]

theorem refines_resized : ∃ s, system.exec Sized ⟨new 2, { capacity := 2 }⟩ resized = some s ∧
    s.recent.packets = [⟨1, 2, true, [4]⟩, ⟨0, 2, false, [3, 3]⟩] ∧
    Refines s.cache s.recent ∧ Indexed s.cache := by
  obtain ⟨s, hs, hpackets⟩ : ∃ s ∈ system.exec Sized ⟨new 2, { capacity := 2 }⟩ resized,
      s.recent.packets = [⟨1, 2, true, [4]⟩, ⟨0, 2, false, [3, 3]⟩] := by decide +kernel
  exact ⟨s, hs, hpackets, refines_of_reachable (.exec (.init ⟨2, ⟨by decide, by decide⟩, rfl⟩) hs)⟩

end Indices

end Sozvon.PacketCache
