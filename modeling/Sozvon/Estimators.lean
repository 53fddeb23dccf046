import Sozvon.Runs
import Mathlib.Data.UInt
import Mathlib.Data.Nat.Notation

/-!
# Estimators of rates

Packets are counted in an interval. An estimate that finds the interval over
derives the rates from it, adds what it counted to the totals and starts the next
one. The clock is a word of jiffies and may show anything.
-/
namespace Sozvon.Estimators
open Runs

def jiffiesPerSec : UInt64 := 24576000

structure Estimator where
  interval : UInt64
  time : UInt64
  bytes : UInt32 := 0
  packets : UInt32 := 0
  totalBytes : UInt64 := 0
  totalPackets : UInt64 := 0
  rate : UInt32 := 0
  packetRate : UInt32 := 0
deriving DecidableEq, Repr

/-- What is counted in `jiffies`, for one second. -/
def perSecond (count : UInt32) (jiffies : UInt64) : UInt32 :=
  if jiffies ≥ jiffiesPerSec / 1000
    then ((count.toUInt64 * jiffiesPerSec + jiffies / 2) / jiffies).toUInt32
    else 0

def swap (e : Estimator) (now : UInt64) : Estimator :=
  let jiffies := now - e.time
  { e with
    bytes := 0
    packets := 0
    totalBytes := e.totalBytes + e.bytes.toUInt64
    totalPackets := e.totalPackets + e.packets.toUInt64
    rate := perSecond e.bytes jiffies
    packetRate := perSecond e.packets jiffies
    time := now }

/-- A counter has room for `n` more. The subtraction of the source never wraps around. -/
def Room (count n : UInt32) : Prop := count.toNat < 0xffffffff - n.toNat

instance (count n : UInt32) : Decidable (Room count n) := inferInstanceAs (Decidable (_ < _))

/-- What there is no room for is left out. -/
def counted (count n : UInt32) : UInt32 := if Room count n then count + n else count

def accumulate (e : Estimator) (bytes : UInt32) : Estimator :=
  { e with bytes := counted e.bytes bytes, packets := counted e.packets 1 }

def estimate (e : Estimator) (now : UInt64) : (UInt32 × UInt32) × Estimator :=
  let e' :=
    if now < e.time then
      -- time went backwards
      if e.time - now > e.interval then { e with time := now, packets := 0, bytes := 0 } else e
    else if now - e.time ≥ e.interval then swap e now
    else e
  ((e'.rate, e'.packetRate), e')

/-- Packets first. -/
def totals (e : Estimator) : UInt64 × UInt64 :=
  (e.totalPackets + e.packets.toUInt64, e.totalBytes + e.bytes.toUInt64)

inductive Call where
  | accumulate (bytes : UInt32)
  | estimate (now : UInt64)
  | totals
deriving DecidableEq, Repr

/-- An estimator, and the sums of all that it has been told. -/
structure State where
  e : Estimator
  bytes : ℕ := 0
  packets : ℕ := 0
deriving DecidableEq, Repr

def step (s : State) : Call → State
  | .accumulate bytes =>
      { s with
        e := accumulate s.e bytes
        bytes := s.bytes + bytes.toNat
        packets := s.packets + 1 }
  | .estimate now => { s with e := (estimate s.e now).2 }
  | .totals => s

def system : System State Call where
  init s := ∃ interval now, s = { e := { interval := interval, time := now } }
  step s c := some (step s c)

/-- What `Totals` reports are the sums. -/
def Exact (s : State) : Prop :=
  (totals s.e).1.toNat = s.packets ∧ (totals s.e).2.toNat = s.bytes

instance : DecidablePred Exact := fun _ => inferInstanceAs (Decidable (_ ∧ _))

/-- The clock went back by more than the interval. -/
def Backwards (e : Estimator) (now : UInt64) : Prop := now < e.time ∧ e.time - now > e.interval

instance (e : Estimator) (now : UInt64) : Decidable (Backwards e now) :=
  inferInstanceAs (Decidable (_ ∧ _))

/-- There is room for what is accumulated, and where the clock goes back too far nothing is
waiting for the totals. -/
def Keeps (s : State) : Call → Prop
  | .accumulate bytes =>
      (bytes = 0 ∨ Room s.e.bytes bytes) ∧ Room s.e.packets 1 ∧
        s.bytes + bytes.toNat < 2 ^ 64 ∧ s.packets + 1 < 2 ^ 64
  | .estimate now => Backwards s.e now → s.e.bytes = 0 ∧ s.e.packets = 0
  | .totals => True

instance (s : State) (c : Call) : Decidable (Keeps s c) := by
  cases c <;> unfold Keeps <;> infer_instance

theorem totals_swap (e : Estimator) (now : UInt64) : totals (swap e now) = totals e := by
  simp [totals, swap]

/-- The counters of the interval that are cleared are missing in the totals. -/
theorem totals_estimate (e : Estimator) (now : UInt64) :
    totals (estimate e now).2 =
      if Backwards e now then (e.totalPackets, e.totalBytes) else totals e := by
  by_cases hback : now < e.time
  · by_cases hfar : e.time - now > e.interval
    · simp [estimate, Backwards, totals, hback, hfar]
    · simp [estimate, Backwards, hback, hfar]
  · by_cases hover : now - e.time ≥ e.interval
    · simp [estimate, Backwards, hback, hover, totals_swap]
    · simp [estimate, Backwards, hback, hover]

theorem toNat_total (total : UInt64) (count : UInt32) :
    (total + count.toUInt64).toNat = (total.toNat + count.toNat) % 2 ^ 64 := by
  rw [UInt64.toNat_add, UInt32.toNat_toUInt64]

theorem counted_iff {total : UInt64} {count n : UInt32} {sum : ℕ}
    (h : (total + count.toUInt64).toNat = sum) :
    (total + (counted count n).toUInt64).toNat = sum + n.toNat ↔
      (n = 0 ∨ Room count n) ∧ sum + n.toNat < 2 ^ 64 := by
  have hzero : n = 0 ↔ n.toNat = 0 := UInt32.toNat_inj.symm
  have htotal := total.toNat_lt
  rw [toNat_total] at h ⊢
  rw [hzero, counted]
  split_ifs with hroom
  · rw [Room] at hroom ⊢
    rw [UInt32.toNat_add, Nat.mod_eq_of_lt (a := count.toNat + n.toNat) (by omega)]
    omega
  · rw [Room] at hroom ⊢
    omega

/-- Just the calls that keep the totals exact. -/
theorem exact_step_iff {s : State} (h : Exact s) (c : Call) : Exact (step s c) ↔ Keeps s c := by
  obtain ⟨hpackets, hbytes⟩ := h
  cases c with
  | accumulate bytes =>
      have hb := counted_iff (n := bytes) hbytes
      have hp := counted_iff (n := 1) hpackets
      have hone : ¬ (1 : UInt32) = 0 := by decide
      rw [UInt32.toNat_one, or_iff_right hone] at hp
      have hiff : Exact (step s (.accumulate bytes)) ↔ _ := and_congr hp hb
      rw [hiff]
      constructor
      · rintro ⟨⟨hroom, hsum⟩, hroom', hsum'⟩
        exact ⟨hroom', hroom, hsum', hsum⟩
      · rintro ⟨hroom', hroom, hsum', hsum⟩
        exact ⟨⟨hroom, hsum⟩, hroom', hsum'⟩
  | estimate now =>
      rw [Keeps]
      change ((totals (estimate s.e now).2).1.toNat = s.packets ∧
        (totals (estimate s.e now).2).2.toNat = s.bytes) ↔ _
      rw [totals_estimate]
      split_ifs with hback
      · have hp := toNat_total s.e.totalPackets s.e.packets
        have hb := toNat_total s.e.totalBytes s.e.bytes
        have hzero : ∀ n : UInt32, n = 0 ↔ n.toNat = 0 := fun n => UInt32.toNat_inj.symm
        have hp₁ := s.e.totalPackets.toNat_lt
        have hb₁ := s.e.totalBytes.toNat_lt
        have hp₂ := s.e.packets.toNat_lt
        have hb₂ := s.e.bytes.toNat_lt
        simp only [totals] at hpackets hbytes
        simp only [hback, forall_const, hzero]
        omega
      · exact iff_of_true ⟨hpackets, hbytes⟩ fun hb => absurd hb hback
  | totals => exact iff_of_true ⟨hpackets, hbytes⟩ trivial

theorem sums_step (s : State) (c : Call) :
    s.bytes ≤ (step s c).bytes ∧ s.packets ≤ (step s c).packets := by
  cases c with
  | accumulate bytes => exact ⟨Nat.le_add_right _ _, Nat.le_add_right _ _⟩
  | estimate now => exact ⟨Nat.le_refl _, Nat.le_refl _⟩
  | totals => exact ⟨Nat.le_refl _, Nat.le_refl _⟩

/-- Totals that are exact before and after do not decrease. -/
theorem totals_step_le {s : State} {c : Call} (h : Exact s) (h' : Exact (step s c)) :
    (totals s.e).1 ≤ (totals (step s c).e).1 ∧ (totals s.e).2 ≤ (totals (step s c).e).2 := by
  obtain ⟨hb, hp⟩ := sums_step s c
  rw [UInt64.le_iff_toNat_le, UInt64.le_iff_toNat_le, h.1, h.2, h'.1, h'.2]
  exact ⟨hp, hb⟩

/-- Less than `2 ^ 32 - 1` bytes and packets arrive between two estimates. -/
def Moderate : ℕ → ℕ → List Call → Prop
  | _, _, [] => True
  | bytes, packets, .accumulate n :: rest =>
      bytes + n.toNat < 2 ^ 32 - 1 ∧ packets + 1 < 2 ^ 32 - 1 ∧
        Moderate (bytes + n.toNat) (packets + 1) rest
  | _, _, .estimate _ :: rest => Moderate 0 0 rest
  | bytes, packets, .totals :: rest => Moderate bytes packets rest

/-- A new estimator. -/
def fresh (interval now : UInt64) : State := { e := { interval := interval, time := now } }

theorem exact_iff_keeps (interval now : UInt64) {t : State} {calls : List Call}
    (h : system.exec Always (fresh interval now) calls = some t) :
    system.Throughout Exact (fresh interval now) calls ↔
      system.exec Keeps (fresh interval now) calls = some t := by
  refine System.throughout_iff_exec (I := fun _ => True) (fun _ _ _ _ _ => trivial) ?_ trivial
    ⟨rfl, rfl⟩ h
  intro s c u _ hexact hstep
  cases hstep
  exact exact_step_iff hexact c

/-- The totals reported never decrease. -/
def NeverDecrease : State → List Call → Prop
  | _, [] => True
  | s, c :: rest =>
      (totals s.e).1 ≤ (totals (step s c).e).1 ∧ (totals s.e).2 ≤ (totals (step s c).e).2 ∧
        NeverDecrease (step s c) rest

theorem neverDecrease_of_exact {s : State} {calls : List Call}
    (h : system.Throughout Exact s calls) : NeverDecrease s calls := by
  induction calls generalizing s with
  | nil => trivial
  | cons c rest ih =>
      have hrest := h.2 (step s c) rfl
      have hnext : Exact (step s c) := by
        cases rest with
        | nil => exact hrest
        | cons _ _ => exact hrest.1
      obtain ⟨hpackets, hbytes⟩ := totals_step_le h.1 hnext
      exact ⟨hpackets, hbytes, ih hrest⟩

/-- The totals are exact throughout a run, and so never decrease, if and only if every one of its
calls keeps them. -/
theorem totals_exact_iff (interval now : UInt64) {t : State} {calls : List Call}
    (h : system.exec Always (fresh interval now) calls = some t) :
    (system.Throughout Exact (fresh interval now) calls ∧
        NeverDecrease (fresh interval now) calls) ↔
      system.exec Keeps (fresh interval now) calls = some t := by
  rw [← exact_iff_keeps interval now h]
  exact and_iff_left_of_imp neverDecrease_of_exact

/-- A run with a flush and a small step back. -/
theorem totals_exact_second :
    system.Throughout Exact (fresh 10 1000) [.accumulate 700, .estimate 1010, .accumulate 5,
        .estimate 1007, .totals] ∧
      NeverDecrease (fresh 10 1000) [.accumulate 700, .estimate 1010, .accumulate 5,
        .estimate 1007, .totals] :=
  (totals_exact_iff 10 1000 (t := _) rfl).2 (by decide)

/-- A clock that goes back by more than the interval takes what waits in it along. -/
theorem totals_not_exact :
    ¬ ∀ (interval now : UInt64) (calls : List Call), Moderate 0 0 calls →
      system.Throughout Exact (fresh interval now) calls ∧
        NeverDecrease (fresh interval now) calls := by
  intro hall
  have h := (hall 10 1000 [.accumulate 700, .estimate 900]
    ⟨by decide, by decide, trivial⟩).2
  exact absurd h.2.2.1 (by decide)

end Sozvon.Estimators
