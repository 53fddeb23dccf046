import Mathlib.Data.List.Basic

/-!
# Rings read from the oldest element

A ring is a list with a tail, the index that is written next. Turned so that it
starts at its tail it is the list of its elements from the oldest to the newest:
writing takes one off its front and adds one at its end, a ring that grows gets
its new slots in front, and one that shrinks loses its front.
-/
namespace Sozvon.Rings

variable {α : Type*}

/-- The elements of a ring, the next one to be overwritten first. -/
def oldestFirst (tail : ℕ) (l : List α) : List α := l.drop tail ++ l.take tail

theorem length_oldestFirst (tail : ℕ) (l : List α) :
    (oldestFirst tail l).length = l.length := by
  rw [oldestFirst, List.length_append, List.length_drop, List.length_take]
  omega

theorem mem_oldestFirst (tail : ℕ) {l : List α} {a : α} : a ∈ oldestFirst tail l ↔ a ∈ l := by
  rw [oldestFirst, List.mem_append, or_comm, ← List.mem_append, List.take_append_drop]

/-- Writing at the tail, which moves on by one. -/
theorem oldestFirst_set {tail : ℕ} {l : List α} (h : tail < l.length) (a : α) :
    oldestFirst ((tail + 1) % l.length) (l.set tail a) = (oldestFirst tail l).drop 1 ++ [a] := by
  have hdrop : (l.set tail a).drop (tail + 1) = l.drop (tail + 1) :=
    List.drop_set_of_lt (Nat.lt_succ_self tail)
  have htake : (l.set tail a).take (tail + 1) = l.take tail ++ [a] := by
    rw [List.take_succ_eq_append_getElem (by rwa [List.length_set]), List.getElem_set_self,
      List.take_set_of_le (Nat.le_refl tail)]
  have hturned : (oldestFirst tail l).drop 1 = l.drop (tail + 1) ++ l.take tail := by
    rw [oldestFirst, List.drop_append_of_le_length (by rw [List.length_drop]; omega),
      List.drop_drop]
  rw [hturned]
  by_cases hlast : tail + 1 = l.length
  · -- the tail wraps, and the ring as it is starts with its oldest element
    rw [hlast, Nat.mod_self, oldestFirst, List.drop_zero, List.take_zero, List.append_nil,
      List.drop_length, List.nil_append, ← htake, hlast, List.take_of_length_le]
    exact Nat.le_of_eq List.length_set
  · rw [Nat.mod_eq_of_lt (by omega), oldestFirst, hdrop, htake, List.append_assoc]

/-- New slots between the tail and the oldest element. -/
theorem oldestFirst_grow {tail : ℕ} {l : List α} (h : tail ≤ l.length) (slots : List α) :
    oldestFirst tail (l.take tail ++ slots ++ l.drop tail) = slots ++ oldestFirst tail l := by
  have hlength : (l.take tail).length = tail := by
    rw [List.length_take]
    omega
  rw [oldestFirst, List.append_assoc, List.drop_left' hlength, List.take_left' hlength,
    oldestFirst, List.append_assoc]

/-- The oldest elements taken out past the tail. -/
theorem oldestFirst_shrink {tail n : ℕ} {l : List α} (h : tail + n ≤ l.length) :
    oldestFirst tail (l.take tail ++ l.drop (tail + n)) = (oldestFirst tail l).drop n := by
  have hlength : (l.take tail).length = tail := by
    rw [List.length_take]
    omega
  rw [oldestFirst, List.drop_left' hlength, List.take_left' hlength, oldestFirst,
    List.drop_append_of_le_length (by rw [List.length_drop]; omega), List.drop_drop]

/-- The newest `n` elements alone, in a ring of that size. -/
theorem oldestFirst_newest {tail n : ℕ} {l : List α} (h : n ≤ tail) (hle : tail ≤ l.length) :
    oldestFirst 0 ((l.take tail).drop (tail - n)) = (oldestFirst tail l).drop (l.length - n) := by
  have hlength : (l.drop tail).length = l.length - tail := List.length_drop
  have hsplit : l.length - n = (l.drop tail).length + (tail - n) := by omega
  rw [oldestFirst, List.drop_zero, List.take_zero, List.append_nil, oldestFirst, hsplit,
    ← List.drop_drop, List.drop_left]

/-- The element that is written, and `k` others after it. -/
theorem set_ne {tail i k : ℕ} {l : List α} (hi : i < l.length) (hk : k + 1 < l.length)
    (hdepth : (i + k + 1) % l.length = tail) (a : α) : (l.set tail a)[i]? = l[i]? := by
  refine List.getElem?_set_ne fun heq => ?_
  rcases Nat.lt_or_ge (i + k + 1) l.length with hlt | hge
  · rw [Nat.mod_eq_of_lt hlt] at hdepth
    omega
  · rw [Nat.mod_eq_sub_mod hge, Nat.mod_eq_of_lt (by omega)] at hdepth
    omega

end Sozvon.Rings
