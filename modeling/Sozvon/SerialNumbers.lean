import Mathlib.Data.Nat.Bitwise
import Mathlib.Data.UInt
import Mathlib.Tactic.Linarith

/-!
# Unbounded numbers behind 16-bit ones

A counter that goes out on the wire modulo `2^16` is described by an integer
that never wraps. These lemmas read a 16-bit difference back as the integer one
while the two numbers are close enough, which is all that serial arithmetic
needs.
-/
namespace Sozvon.SerialNumbers

theorem ofInt_sub (a b : ℤ) : UInt16.ofInt (a - b) = UInt16.ofInt a - UInt16.ofInt b := by
  rw [sub_eq_add_neg, UInt16.ofInt_add, UInt16.ofInt_neg, UInt16.sub_eq_add_neg]

theorem toNat_ofInt (a : ℤ) : ((UInt16.ofInt a).toNat : ℤ) = a % 65536 := by
  simp only [UInt16.ofInt, UInt16.toNat_ofNat']
  omega

theorem ofInt_eq_iff {a b : ℤ} : UInt16.ofInt a = UInt16.ofInt b ↔ a % 65536 = b % 65536 := by
  rw [← UInt16.toNat_inj, ← toNat_ofInt, ← toNat_ofInt]
  omega

/-- Two numbers less than a full turn apart are told apart by 16 bits. -/
theorem ofInt_injOn {a b : ℤ} (h : UInt16.ofInt a = UInt16.ofInt b)
    (hab : a - b < 65536) (hba : b - a < 65536) : a = b := by
  have := ofInt_eq_iff.mp h
  omega

/-- The top bit of a 16-bit word, as a bound. -/
theorem and_0x8000_ne_zero (x : UInt16) : x &&& 0x8000 ≠ 0 ↔ 32768 ≤ x.toNat := by
  have hx : x.toNat < 65536 := x.toNat_lt
  have hmask : (x &&& 0x8000).toNat = (x.toNat.testBit 15).toNat * 2 ^ 15 := by
    rw [UInt16.toNat_and, ← Nat.and_two_pow]
    rfl
  rw [ne_eq, ← UInt16.toNat_inj, hmask, show (0 : UInt16).toNat = 0 from rfl,
    Nat.testBit_eq_decide_div_mod_eq]
  by_cases hb : x.toNat / 2 ^ 15 % 2 = 1
  · rw [decide_eq_true hb, Bool.toNat_true]
    omega
  · rw [decide_eq_false hb, Bool.toNat_false]
    omega

end Sozvon.SerialNumbers
