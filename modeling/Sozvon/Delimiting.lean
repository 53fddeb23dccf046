import Mathlib.Data.Set.Function
import Mathlib.Data.Set.Prod

/-!
# Self-delimiting encodings

A code delimits the elements of a set if whatever stands after it, an encoded
element can be read off the front together with the place where it ends. Codes
of a fixed width delimit, and one after the other they delimit pairs, so that a
concatenation of several parts has only one reading.
-/
namespace Sozvon.Delimiting

variable {α β γ δ : Type*} {s : Set α} {t : Set β} {code : α → List δ} {code' : β → List δ}

/-- The code of an element of `s` determines it and what follows. -/
def Delimits (s : Set α) (code : α → List δ) : Prop :=
  ∀ x ∈ s, ∀ y ∈ s, ∀ a b, code x ++ a = code y ++ b → x = y ∧ a = b

theorem Delimits.injOn (h : Delimits s code) : Set.InjOn code s := by
  intro x hx y hy heq
  exact (h x hx y hy [] [] (congrArg (· ++ []) heq)).1

/-- A code of a fixed width delimits if it is injective. -/
theorem delimits_of_width {n : ℕ} (hwidth : ∀ x ∈ s, (code x).length = n)
    (hinj : Set.InjOn code s) : Delimits s code := by
  intro x hx y hy a b h
  obtain ⟨hcode, hrest⟩ := List.append_inj h ((hwidth x hx).trans (hwidth y hy).symm)
  exact ⟨hinj hx hy hcode, hrest⟩

/-- A header that delimits the width of what follows. -/
theorem delimits_header (header body : α → List δ)
    (hheader : ∀ x ∈ s, ∀ y ∈ s, ∀ a b, header x ++ a = header y ++ b →
      (body x).length = (body y).length ∧ a = b)
    (hinj : Set.InjOn body s) : Delimits s fun x => header x ++ body x := by
  intro x hx y hy a b h
  rw [List.append_assoc, List.append_assoc] at h
  obtain ⟨hlength, hbody⟩ := hheader x hx y hy _ _ h
  obtain ⟨hsame, hrest⟩ := List.append_inj hbody hlength
  exact ⟨hinj hx hy hsame, hrest⟩

/-- One part after the other. -/
theorem Delimits.append (h : Delimits s code) (h' : Delimits t code') :
    Delimits (s ×ˢ t) fun p => code p.1 ++ code' p.2 := by
  rintro ⟨x, x'⟩ ⟨hx, hx'⟩ ⟨y, y'⟩ ⟨hy, hy'⟩ a b heq
  rw [List.append_assoc, List.append_assoc] at heq
  obtain ⟨rfl, hrest⟩ := h x hx y hy _ _ heq
  obtain ⟨rfl, hend⟩ := h' x' hx' y' hy' a b hrest
  exact ⟨rfl, hend⟩

/-- Behind the same words nothing changes. -/
theorem Delimits.tagged (h : Delimits s code) (tag : List δ) :
    Delimits s fun x => tag ++ code x := by
  intro x hx y hy a b heq
  rw [List.append_assoc, List.append_assoc] at heq
  exact h x hx y hy a b (List.append_cancel_left heq)

end Sozvon.Delimiting
