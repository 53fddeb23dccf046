import Mathlib.Data.UInt
import Mathlib.Data.Nat.Notation
import Mathlib.Algebra.Order.Ring.Int
import Mathlib.Algebra.Order.Ring.Abs
import Mathlib.Tactic.Linarith

/-!
# RTP and NTP time

Durations and instants count nanoseconds, instants from the origin of NTP time.
-/
namespace Sozvon.RtpTime

/-- `time.Second`. -/
def second : ℤ := 1000000000

/-- Units of `1 / hz` from a duration. -/
def fromDuration (d : ℤ) (hz : ℕ) : ℤ := (d * hz).tdiv second

/-- A duration from units of `1 / hz`. -/
def toDuration (tm : ℤ) (hz : ℕ) : ℤ := (tm * second).tdiv hz

def ntpToTime (ntp : UInt64) : ℤ :=
  let sec := (ntp >>> 32).toUInt32
  let frac := (ntp &&& 0xFFFFFFFF).toUInt32
  sec.toNat * second + (frac.toNat * second) >>> (32 : ℕ)

def timeToNTP (tm : ℤ) : UInt64 :=
  let sec := UInt32.ofInt (tm.tdiv second)
  let frac := UInt32.ofInt (tm.tmod second)
  (sec.toUInt64 <<< 32) + (frac.toUInt64 <<< 32) / 1000000000

theorem abs_tmod_lt (a : ℤ) {b : ℤ} (h : 0 < b) : |a.tmod b| < b :=
  abs_lt.2 ⟨Int.lt_tmod_of_pos a h, Int.tmod_lt_of_pos a h⟩

/-- Less than one unit is lost. -/
theorem abs_fromDuration (d : ℤ) (hz : ℕ) : |d * hz - fromDuration d hz * second| < second := by
  rw [fromDuration, mul_comm (Int.tdiv _ _), ← Int.tmod_def]
  exact abs_tmod_lt (d * hz) (by decide)

theorem abs_toDuration (tm : ℤ) {hz : ℕ} (h : 0 < hz) :
    |tm * second - toDuration tm hz * hz| < hz := by
  rw [toDuration, mul_comm (Int.tdiv _ _), ← Int.tmod_def]
  exact abs_tmod_lt (tm * second) (by omega)

theorem ntpToTime_eq (ntp : UInt64) :
    ntpToTime ntp =
      (ntp.toNat / 2 ^ 32 * 1000000000 + ntp.toNat % 2 ^ 32 * 1000000000 / 2 ^ 32 : ℕ) := by
  have hsec : (ntp >>> 32).toUInt32.toNat = ntp.toNat / 2 ^ 32 := by
    rw [UInt64.toNat_toUInt32, UInt64.toNat_shiftRight]
    change ntp.toNat >>> 32 % 2 ^ 32 = _
    rw [Nat.shiftRight_eq_div_pow]
    have := ntp.toNat_lt
    omega
  have hfrac : (ntp &&& 0xFFFFFFFF).toUInt32.toNat = ntp.toNat % 2 ^ 32 := by
    rw [UInt64.toNat_toUInt32, UInt64.toNat_and]
    change (ntp.toNat &&& (2 ^ 32 - 1)) % 2 ^ 32 = _
    rw [Nat.and_two_pow_sub_one_eq_mod, Nat.mod_mod]
  simp only [ntpToTime, hsec, hfrac, Int.shiftRight_eq_div_pow, second]
  push_cast
  rfl

theorem timeToNTP_toNat {sec ns : ℕ} (hsec : sec < 2 ^ 32) (hns : ns < 1000000000) :
    (timeToNTP (sec * 1000000000 + ns : ℕ)).toNat = sec * 2 ^ 32 + ns * 2 ^ 32 / 1000000000 := by
  have hdiv : ((sec * 1000000000 + ns : ℕ) : ℤ).tdiv second = (sec : ℕ) := by
    rw [second, Int.tdiv_eq_ediv_of_nonneg (by omega)]
    omega
  have hmod : ((sec * 1000000000 + ns : ℕ) : ℤ).tmod second = (ns : ℕ) := by
    rw [second, Int.tmod_eq_emod_of_nonneg (by omega)]
    omega
  have hword : ∀ n : ℕ, n < 2 ^ 32 → (UInt32.ofInt n).toUInt64.toNat = n := by
    intro n hn
    rw [UInt32.toNat_toUInt64, UInt32.ofInt, UInt32.toNat_ofNat']
    omega
  simp only [timeToNTP, hdiv, hmod, UInt64.toNat_add, UInt64.toNat_div, UInt64.toNat_shiftLeft,
    hword sec hsec, hword ns (by omega)]
  change ((sec <<< 32) % 2 ^ 64 + (ns <<< 32) % 2 ^ 64 / 1000000000) % 2 ^ 64 = _
  have hsec' : sec * 2 ^ 32 < 2 ^ 64 := by omega
  have hns' : ns * 2 ^ 32 < 1000000000 * 2 ^ 32 :=
    Nat.mul_lt_mul_of_pos_right hns (Nat.two_pow_pos 32)
  have hfrac : ns * 2 ^ 32 / 1000000000 < 2 ^ 32 := Nat.div_lt_of_lt_mul hns'
  rw [Nat.shiftLeft_eq, Nat.shiftLeft_eq, Nat.mod_eq_of_lt hsec',
    Nat.mod_eq_of_lt (hns'.trans (by decide))]
  refine Nat.mod_eq_of_lt ?_
  calc sec * 2 ^ 32 + ns * 2 ^ 32 / 1000000000
      < sec * 2 ^ 32 + 2 ^ 32 := Nat.add_lt_add_left hfrac _
    _ = (sec + 1) * 2 ^ 32 := (Nat.succ_mul sec _).symm
    _ ≤ 2 ^ 32 * 2 ^ 32 := Nat.mul_le_mul_right _ hsec

/-- Instants from 1970 until NTP time wraps around, in 2036. -/
def InEra (tm : ℤ) : Prop := 2208988800 * second ≤ tm ∧ tm < 2 ^ 32 * second

instance (tm : ℤ) : Decidable (InEra tm) := inferInstanceAs (Decidable (_ ∧ _))

theorem InEra.parts {tm : ℤ} (h : InEra tm) : ∃ sec ns : ℕ, 0 < sec ∧ sec < 2 ^ 32 ∧
    ns < 1000000000 ∧ tm = (sec * 1000000000 + ns : ℕ) := by
  obtain ⟨hlow, hhigh⟩ := h
  rw [second] at hlow hhigh
  exact ⟨(tm / 1000000000).toNat, (tm % 1000000000).toNat, by omega, by omega, by omega, by omega⟩

theorem timeToNTP_ne_zero {tm : ℤ} (h : InEra tm) : timeToNTP tm ≠ 0 := by
  obtain ⟨sec, ns, hpos, hsec, hns, rfl⟩ := h.parts
  intro h0
  have := timeToNTP_toNat hsec hns
  rw [h0, UInt64.toNat_zero] at this
  omega

/-- A nanosecond may be lost on the way to an NTP time and back. -/
theorem ntpToTime_timeToNTP {tm : ℤ} (h : InEra tm) :
    tm - 1 ≤ ntpToTime (timeToNTP tm) ∧ ntpToTime (timeToNTP tm) ≤ tm := by
  obtain ⟨sec, ns, -, hsec, hns, rfl⟩ := h.parts
  have hfrac : ns * 2 ^ 32 / 1000000000 < 2 ^ 32 := by omega
  have hround : ns ≤ ns * 2 ^ 32 / 1000000000 * 1000000000 / 2 ^ 32 + 1 ∧
      ns * 2 ^ 32 / 1000000000 * 1000000000 / 2 ^ 32 ≤ ns := by omega
  rw [ntpToTime_eq, timeToNTP_toNat hsec hns]
  obtain ⟨frac, hq⟩ : ∃ frac, frac = ns * 2 ^ 32 / 1000000000 := ⟨_, rfl⟩
  rw [← hq] at hfrac hround ⊢
  have hdiv : (sec * 2 ^ 32 + frac) / 2 ^ 32 = sec := by omega
  have hmod : (sec * 2 ^ 32 + frac) % 2 ^ 32 = frac := by omega
  rw [hdiv, hmod]
  omega

end Sozvon.RtpTime
