import Sozvon.PacketCache
import Sozvon.Runs

/-!
# Statistics for receiver reports

The counts that the cache keeps for receiver reports, over runs of `Store`,
`Expect` and `GetStats`. A late packet is counted as received only while fewer
have been received than expected, so the fraction lost that is computed from
them is not negative.
-/
namespace Sozvon.ReceiverStats
open PacketCache Runs
open Codecs (Bytes)

inductive Call where
  | store (seqno : UInt16) (timestamp : UInt32) (keyframe marker : Bool) (buf : Bytes)
  | expect (n : ℤ)
  | getStats (reset : Bool)
deriving DecidableEq, Repr

/-- The cache, and the number of the first packet stored in it. -/
structure State where
  cache : Cache
  first : Option UInt16 := none
deriving DecidableEq, Repr

def step (s : State) : Call → Option State
  | .store seqno timestamp keyframe marker buf =>
      some { cache := (s.cache.store seqno timestamp keyframe marker buf).1
             first := some (s.first.getD seqno) }
  | .expect n => some { s with cache := s.cache.expect n }
  | .getStats reset => some { s with cache := (s.cache.getStats reset).1 }

def system : System State Call where
  init s := ∃ capacity, s = { cache := new capacity }
  step

/-- By how much a call lets the packets expected grow. -/
def growth (cache : Cache) : Call → ℕ
  | .store seqno _ _ _ _ =>
      if ¬ cache.lastValid ∨ seqnoInvalid seqno cache.last then 1
      else if PacketCache.compare cache.last seqno < 0 then (seqno - cache.last).toNat
      else 0
  | .expect n => n.toNat
  | .getStats _ => 0

/-- The counters do not reach `2^32`. -/
def Counted (s : State) (a : Call) : Prop :=
  s.cache.totalExpected.toNat + s.cache.expected.toNat + growth s.cache a < 2 ^ 32

/-- No call of `Expect`, and no packet more than 256 behind the newest one. -/
def Ordinary (s : State) : Call → Prop
  | .store seqno _ _ _ _ => s.cache.lastValid = true → seqnoInvalid seqno s.cache.last = false
  | .expect _ => False
  | .getStats _ => True

/-- No more has been received than was expected, since the last reset and in
all. -/
structure Possible (stats : Stats) : Prop where
  interval : stats.received ≤ stats.expected
  total : stats.totalReceived ≤ stats.totalExpected

section Counts

variable {cache : Cache} {s : State}

/-- The statistics of a cache are those that `count` leaves. -/
theorem store_counts (cache : Cache) (seqno : UInt16) (timestamp : UInt32) (keyframe marker : Bool)
    (buf : Bytes) :
    ∃ bitmap keyframe' valid tail entries,
      (cache.store seqno timestamp keyframe marker buf).1 =
        { cache.count seqno with
            bitmap, keyframe := keyframe', keyframeValid := valid, tail, entries } := by
  cases keyframe <;> exact ⟨_, _, _, _, _, rfl⟩

/-- The counts as numbers that do not wrap. -/
structure Bounded (cache : Cache) : Prop where
  interval : cache.received.toNat ≤ cache.expected.toNat
  total : cache.totalReceived.toNat ≤ cache.totalExpected.toNat
  fits : cache.totalExpected.toNat + cache.expected.toNat < 2 ^ 32

theorem toNat_add_of_lt {a b : UInt32} (h : a.toNat + b.toNat < 2 ^ 32) :
    (a + b).toNat = a.toNat + b.toNat := by
  rw [UInt32.toNat_add, Nat.mod_eq_of_lt h]

theorem Bounded.count (h : Bounded cache) (seqno : UInt16)
    (hfits : cache.totalExpected.toNat + cache.expected.toNat +
      (if ¬ cache.lastValid ∨ seqnoInvalid seqno cache.last then 1
        else if PacketCache.compare cache.last seqno < 0 then (seqno - cache.last).toNat else 0) < 2 ^ 32) :
    Bounded (cache.count seqno) := by
  obtain ⟨hinterval, htotal, -⟩ := h
  have hone : (1 : UInt32).toNat = 1 := rfl
  unfold Cache.count
  by_cases hfresh : ¬ cache.lastValid ∨ seqnoInvalid seqno cache.last
  · rw [if_pos hfresh] at hfits ⊢
    have hexpected : (cache.expected + 1).toNat = cache.expected.toNat + 1 :=
      toNat_add_of_lt (by omega)
    have hreceived : (cache.received + 1).toNat = cache.received.toNat + 1 :=
      toNat_add_of_lt (by omega)
    exact ⟨by dsimp only; omega, htotal, by dsimp only; omega⟩
  rw [if_neg hfresh] at hfits ⊢
  by_cases hnewer : PacketCache.compare cache.last seqno < 0
  · rw [if_pos hnewer] at hfits ⊢
    have hstep : 1 ≤ (seqno - cache.last).toNat := by
      rw [PacketCache.compare, PacketMap.compare_eq] at hnewer
      split_ifs at hnewer with heq
      · exact absurd hnewer (by decide)
      · exact absurd hnewer (by decide)
      · refine Nat.one_le_iff_ne_zero.mpr fun hzero => heq ?_
        rw [← UInt16.toNat_inj]
        rw [UInt16.toNat_sub] at hzero
        have hlt := cache.last.toNat_lt
        have hlt' := seqno.toNat_lt
        omega
    have hwide : (seqno - cache.last).toUInt32.toNat = (seqno - cache.last).toNat :=
      UInt16.toNat_toUInt32 _
    have hexpected : (cache.expected + (seqno - cache.last).toUInt32).toNat =
        cache.expected.toNat + (seqno - cache.last).toNat := by
      rw [toNat_add_of_lt (by omega), hwide]
    have hreceived : (cache.received + 1).toNat = cache.received.toNat + 1 :=
      toNat_add_of_lt (by omega)
    exact ⟨by dsimp only; omega, htotal, by dsimp only; omega⟩
  rw [if_neg hnewer] at hfits ⊢
  by_cases hlate : 0 < PacketCache.compare cache.last seqno ∧ cache.received < cache.expected
  · rw [if_pos hlate]
    have hless : cache.received.toNat < cache.expected.toNat := UInt32.lt_iff_toNat_lt.mp hlate.2
    have hreceived : (cache.received + 1).toNat = cache.received.toNat + 1 :=
      toNat_add_of_lt (by omega)
    exact ⟨by dsimp only; omega, htotal, by dsimp only; omega⟩
  · rw [if_neg hlate]
    exact ⟨hinterval, htotal, hfits⟩

theorem Bounded.expect (h : Bounded cache) (n : ℤ)
    (hfits : cache.totalExpected.toNat + cache.expected.toNat + n.toNat < 2 ^ 32) :
    Bounded (cache.expect n) := by
  obtain ⟨hinterval, htotal, hbefore⟩ := h
  unfold Cache.expect
  split_ifs with hn
  · exact ⟨hinterval, htotal, hbefore⟩
  · have hwide : (UInt32.ofInt n).toNat = n.toNat := by
      rw [UInt32.ofInt, UInt32.toNat_ofNat']
      omega
    have hexpected : (cache.expected + .ofInt n).toNat = cache.expected.toNat + n.toNat := by
      rw [toNat_add_of_lt (by omega), hwide]
    exact ⟨by dsimp only; omega, htotal, by dsimp only; omega⟩

/-- A reset moves the counts of the interval to the totals. -/
theorem Bounded.getStats (h : Bounded cache) (reset : Bool) :
    Bounded (cache.getStats reset).1 ∧ Possible (cache.getStats reset).2 := by
  obtain ⟨hinterval, htotal, hfits⟩ := h
  have hexpected : (cache.totalExpected + cache.expected).toNat =
      cache.totalExpected.toNat + cache.expected.toNat := toNat_add_of_lt hfits
  have hreceived : (cache.totalReceived + cache.received).toNat =
      cache.totalReceived.toNat + cache.received.toNat := toNat_add_of_lt (by omega)
  have hpossible : Possible (cache.getStats reset).2 := by
    unfold Cache.getStats
    split_ifs <;>
      exact ⟨UInt32.le_iff_toNat_le.mpr hinterval, UInt32.le_iff_toNat_le.mpr (by dsimp only; omega)⟩
  refine ⟨?_, hpossible⟩
  unfold Cache.getStats
  split_ifs
  · have hzero : (0 : UInt32).toNat = 0 := rfl
    exact ⟨Nat.le_refl _, by dsimp only; omega, by dsimp only; omega⟩
  · exact ⟨hinterval, htotal, hfits⟩

theorem bounded_of_reachable (h : Reachable system Counted s) : Bounded s.cache := by
  refine h.invariant (P := fun s => Bounded s.cache) ?_ ?_
  · rintro s ⟨capacity, rfl⟩
    exact ⟨Nat.le_refl _, Nat.le_refl _, Nat.two_pow_pos 32⟩
  · intro s a t h hcounted hstep
    cases a with
    | store seqno timestamp keyframe marker buf =>
        cases hstep
        obtain ⟨_, _, _, _, _, heq⟩ := store_counts s.cache seqno timestamp keyframe marker buf
        obtain ⟨hinterval, htotal, hfits⟩ := h.count seqno hcounted
        dsimp only
        rw [heq]
        exact ⟨hinterval, htotal, hfits⟩
    | expect n =>
        cases hstep
        exact h.expect n hcounted
    | getStats reset =>
        cases hstep
        exact (h.getStats reset).1

/-- The highest number with the wraps before it. -/
def extended (cycle last : UInt16) : UInt32 := cycle.toUInt32 <<< 16 ||| last.toUInt32

theorem toNat_extended (cycle last : UInt16) :
    (extended cycle last).toNat = 65536 * cycle.toNat + last.toNat := by
  have hcycle := cycle.toNat_lt
  have hlast : last.toNat < 2 ^ 16 := last.toNat_lt
  rw [extended, UInt32.toNat_or, UInt32.toNat_shiftLeft, UInt16.toNat_toUInt32,
    UInt16.toNat_toUInt32]
  simp only [UInt32.toNat_ofNat, show 16 % 2 ^ 32 % 32 = 16 from rfl, Nat.shiftLeft_eq]
  rw [Nat.mod_eq_of_lt (by omega), mul_comm, ← Nat.two_pow_add_eq_or_of_lt hlast]

/-- The extended number moves on by as much as the number. -/
theorem extended_newer (cycle last seqno : UInt16) :
    extended (if seqno < last then cycle + 1 else cycle) seqno =
      extended cycle last + (seqno - last).toUInt32 := by
  have hlast := last.toNat_lt
  have hseqno := seqno.toNat_lt
  have hcycle := cycle.toNat_lt
  rw [← UInt32.toNat_inj, UInt32.toNat_add, toNat_extended, toNat_extended, UInt16.toNat_toUInt32,
    UInt16.toNat_sub]
  by_cases hwrap : seqno < last
  · have hlt := UInt16.lt_iff_toNat_lt.mp hwrap
    have hone : (1 : UInt16).toNat = 1 := rfl
    rw [if_pos hwrap, UInt16.toNat_add, hone]
    omega
  · have hle := Nat.not_lt.mp (fun hlt => hwrap (UInt16.lt_iff_toNat_lt.mpr hlt))
    rw [if_neg hwrap]
    omega

/-- As many packets are expected as there are numbers from the first one to the
highest. -/
structure Exact (s : State) : Prop where
  untouched : s.first = none →
    s.cache.lastValid = false ∧ s.cache.cycle = 0 ∧ s.cache.totalExpected + s.cache.expected = 0
  counted : ∀ first ∈ s.first, s.cache.lastValid = true ∧
    s.cache.totalExpected + s.cache.expected =
      extended s.cache.cycle s.cache.last - first.toUInt32 + 1

theorem Exact.count (h : Exact s) {seqno : UInt16}
    (hordinary : s.cache.lastValid = true → seqnoInvalid seqno s.cache.last = false) :
    Exact { s with cache := s.cache.count seqno, first := some (s.first.getD seqno) } := by
  refine ⟨nofun, ?_⟩
  rintro _ ⟨⟩
  unfold Cache.count
  cases hfirst : s.first with
  | none =>
      obtain ⟨hvalid, hcycle, hexpected⟩ := h.untouched hfirst
      rw [if_pos (Or.inl (by rw [hvalid]; decide)), hcycle, ← UInt32.add_assoc, hexpected]
      have hzero : extended 0 seqno = seqno.toUInt32 := by
        rw [← UInt32.toNat_inj, toNat_extended, UInt16.toNat_toUInt32]
        exact Nat.zero_add _
      exact ⟨rfl, by rw [hzero, Option.getD_none, UInt32.sub_self]⟩
  | some first =>
      obtain ⟨hvalid, hexpected⟩ := h.counted first hfirst
      have hold : ¬ (¬ s.cache.lastValid ∨ seqnoInvalid seqno s.cache.last) := by
        rw [hordinary hvalid, hvalid]
        decide
      rw [if_neg hold, Option.getD_some]
      by_cases hnewer : PacketCache.compare s.cache.last seqno < 0
      · rw [if_pos hnewer]
        refine ⟨hvalid, ?_⟩
        dsimp only
        rw [extended_newer, ← UInt32.add_assoc, hexpected]
        grind
      · rw [if_neg hnewer]
        split <;> exact ⟨hvalid, hexpected⟩

theorem Exact.getStats (h : Exact s) (reset : Bool) :
    Exact { s with cache := (s.cache.getStats reset).1 } := by
  unfold Cache.getStats
  cases reset with
  | false => exact h
  | true =>
      refine ⟨fun hfirst => ?_, fun first hfirst => ?_⟩
      · obtain ⟨hvalid, hcycle, hexpected⟩ := h.untouched hfirst
        exact ⟨hvalid, hcycle, (UInt32.add_zero _).trans hexpected⟩
      · obtain ⟨hvalid, hexpected⟩ := h.counted first hfirst
        exact ⟨hvalid, (UInt32.add_zero _).trans hexpected⟩

theorem expected_of_reachable (h : Reachable system Ordinary s) : Exact s := by
  refine h.invariant ?_ ?_
  · rintro s ⟨capacity, rfl⟩
    exact ⟨fun _ => ⟨rfl, rfl, rfl⟩, nofun⟩
  · intro s a t h hordinary hstep
    cases a with
    | store seqno timestamp keyframe marker buf =>
        cases hstep
        obtain ⟨_, _, _, _, _, heq⟩ := store_counts s.cache seqno timestamp keyframe marker buf
        obtain ⟨huntouched, hcounted⟩ := h.count hordinary
        rw [heq]
        exact ⟨huntouched, hcounted⟩
    | expect n => exact hordinary.elim
    | getStats reset =>
        cases hstep
        exact h.getStats reset

end Counts

/-- Whatever is reported is possible, and with nothing but packets and reports
the total expected is the extended highest number minus the first one plus
one. -/
theorem stats_of_reachable (s : State) :
    (Reachable system Counted s → ∀ reset, Possible (s.cache.getStats reset).2) ∧
      (Reachable system Ordinary s → ∀ first ∈ s.first, ∀ reset,
        (s.cache.getStats reset).2.totalExpected =
          (s.cache.getStats reset).2.eSeqno - first.toUInt32 + 1) := by
  refine ⟨fun h reset => ((bounded_of_reachable h).getStats reset).2,
    fun h first hfirst reset => ?_⟩
  have hexpected := ((expected_of_reachable h).counted first hfirst).2
  unfold Cache.getStats
  cases reset with
  | false => exact hexpected
  | true => exact hexpected

instance (s : State) (a : Call) : Decidable (Counted s a) :=
  inferInstanceAs (Decidable (_ < _))

instance (s : State) : (a : Call) → Decidable (Ordinary s a)
  | .store seqno _ _ _ _ => inferInstanceAs
      (Decidable (s.cache.lastValid = true → seqnoInvalid seqno s.cache.last = false))
  | .expect _ => inferInstanceAs (Decidable False)
  | .getStats _ => inferInstanceAs (Decidable True)

/-- A wrap, a loss, a duplicate and a late packet, with a report in between. -/
def received : List Call :=
  [.store 65534 0 true false [1], .store 65535 0 false false [1], .store 2 0 false false [1],
    .store 65535 0 false false [1], .getStats true, .store 1 0 false false [1],
    .store 3 0 false false [1]]

theorem stats_received : ∃ s, system.exec Counted { cache := new 2 } received = some s ∧
    system.exec Ordinary { cache := new 2 } received = some s ∧
    (s.cache.getStats false).2 = ⟨1, 5, 1, 6, 65539⟩ ∧
    Possible (s.cache.getStats false).2 ∧
    (s.cache.getStats false).2.totalExpected =
      (s.cache.getStats false).2.eSeqno - (65534 : UInt16).toUInt32 + 1 := by
  obtain ⟨s, hs, hs', hfirst, hstats⟩ : ∃ s ∈ system.exec Counted { cache := new 2 } received,
      system.exec Ordinary { cache := new 2 } received = some s ∧ s.first = some 65534 ∧
        (s.cache.getStats false).2 = ⟨1, 5, 1, 6, 65539⟩ := by decide +kernel
  have hinit : system.init { cache := new 2 } := ⟨2, rfl⟩
  exact ⟨s, hs, hs', hstats, (stats_of_reachable s).1 (.exec (.init hinit) hs) false,
    (stats_of_reachable s).2 (.exec (.init hinit) hs') 65534 hfirst false⟩

end Sozvon.ReceiverStats
