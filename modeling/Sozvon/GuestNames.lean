import Sozvon.Utf16
import Sozvon.WhiteSpace

/-!
# The names of guests

A guest's name travels as a marked message, cleaned by the sender and again by the
receiver.
-/
namespace Sozvon.GuestNames
open Utf16 WhiteSpace

section Definitions

def KIND : Units := ofChars "name".toList

def MARK : Units := ofChars "\x01sozvon-name\x01".toList

def MAX : ℕ := 64

/-- The units that `clean` takes out. -/
def isControl (u : UInt16) : Bool :=
  let n := u.toNat
  n ≤ 0x1f ∨ 0x7f ≤ n ∧ n ≤ 0x9f ∨ 0x200b ≤ n ∧ n ≤ 0x200f ∨ 0x2028 ≤ n ∧ n ≤ 0x202e ∨
    0x2066 ≤ n ∧ n ≤ 0x2069

/-- What `clean` cuts at `MAX` in the end. -/
def tidy (name : Units) : Units :=
  trim isSpace (collapse isSpace 0x20 (name.filter fun u => !isControl u))

/-- The words that are shown of a name. -/
def shownWords (name : Units) : List Units :=
  words isSpace (name.filter fun u => !isControl u)

def clean (name : Units) : Units := (tidy name).take MAX

def pack (name : Units) : Units := MARK ++ clean name

inductive Message where
  | name (name : Units)
  | chat
  | drop
deriving DecidableEq, Repr

def classify (kind text : Units) : Message :=
  let marked := MARK.isPrefixOf text
  if kind = KIND then
    let name := if marked then clean (text.drop MARK.length) else []
    if name ≠ [] then .name name else .drop
  else if marked then .drop
  else .chat

/-- Some first words of the name, with a space between each two, take 63 units, and another word
follows. -/
def EndsAtLimit (name : Units) : Prop :=
  ∃ k, 0 < k ∧ k < (shownWords name).length ∧
    (((shownWords name).take k).map List.length).sum + (k - 1) = MAX - 1

end Definitions

section Theorems

/-- What `tidy` leaves: no control characters, and single spaces that are not at the ends. -/
theorem tidy_spec (name : Units) :
    (∀ u ∈ tidy name, ¬ isControl u) ∧ Collapsed isSpace 0x20 (tidy name) ∧
      Trimmed isSpace (tidy name) := by
  have hcollapsed : Collapsed isSpace 0x20 _ :=
    collapse_collapsed (by decide) (name.filter fun u => !isControl u)
  refine ⟨fun u hu => ?_, hcollapsed.part (trim_isInfix _), trim_trimmed _⟩
  have hmem := mem_of_mem_collapse (mem_of_mem_trim hu)
  rcases hmem with hmem | rfl
  · simpa using (List.mem_filter.1 hmem).2
  · decide

theorem tidy_eq (name : Units) : tidy name = joined 0x20 (shownWords name) :=
  trim_collapse (by decide) _

/-- The 64th unit is a space where some words end just before it. -/
theorem tidy_getElem?_iff (name : Units) :
    (tidy name)[MAX - 1]? = some 0x20 ↔ EndsAtLimit name := by
  rw [tidy_eq]
  exact joined_getElem?_eq_some (p := isSpace) (by decide)
    (fun w hw a ha => ((not_of_mem_words hw).2 a ha).2) _

/-- Of a clean name nothing but a space at its end is taken. -/
theorem clean_clean (name : Units) : clean (clean name) = (trim isSpace (clean name)).take MAX := by
  obtain ⟨hcontrol, hcollapsed, -⟩ := tidy_spec name
  have hfilter : (clean name).filter (fun u => !isControl u) = clean name :=
    List.filter_eq_self.2 fun u hu => by
      have := hcontrol u (List.mem_of_mem_take hu)
      simpa using this
  have hcollapse : collapse isSpace 0x20 (clean name) = clean name :=
    collapse_of_collapsed (hcollapsed.part ( List.take_prefix MAX _).isInfix)
  rw [clean, tidy, hfilter, hcollapse]

theorem clean_head (name : Units) : ∀ u ∈ (clean name).head?, ¬ isSpace u := by
  obtain ⟨-, -, htrimmed⟩ := tidy_spec name
  intro u hu
  have hhead : (clean name).head? = (tidy name).head? := by
    rw [clean, List.head?_take, if_neg (by decide)]
  exact htrimmed.head u (hhead ▸ hu)

/-- Cut right after a space, a name is cut once more. -/
theorem clean_clean_of_endsAtLimit {name : Units} (h : EndsAtLimit name) :
    clean (clean name) = (tidy name).take (MAX - 1) := by
  obtain ⟨-, hcollapsed, -⟩ := tidy_spec name
  have hcut : clean name = (tidy name).take (MAX - 1) ++ [0x20] := by
    have hsucc := List.take_add_one (l := tidy name) (i := MAX - 1)
    rw [(tidy_getElem?_iff name).2 h] at hsucc
    exact hsucc
  have hpart : Collapsed isSpace 0x20 (clean name) :=
    hcollapsed.part ( List.take_prefix MAX _).isInfix
  have hhead := clean_head name
  rw [clean_clean]
  rw [hcut] at hpart hhead ⊢
  rw [trim_concat_of_collapsed hpart (by decide) hhead, List.take_take]
  rfl

theorem clean_clean_of_not {name : Units} (h : ¬ EndsAtLimit name) :
    clean (clean name) = clean name := by
  obtain ⟨-, hcollapsed, htrimmed⟩ := tidy_spec name
  have hlast : ∀ u ∈ (clean name).getLast?, ¬ isSpace u := by
    intro u hu hspace
    rw [clean, List.getLast?_take, if_neg (by decide)] at hu
    cases hget : (tidy name)[MAX - 1]? with
    | none =>
        rw [hget] at hu
        exact htrimmed.last u hu hspace
    | some v =>
        rw [hget] at hu
        cases hu
        have honly := hcollapsed.only u (List.mem_of_getElem? hget) hspace
        exact h ((tidy_getElem?_iff name).1 (honly ▸ hget))
  rw [clean_clean, trim_of_trimmed ⟨clean_head name, hlast⟩, clean, List.take_take, Nat.min_self]

theorem classify_pack (name : Units) :
    classify KIND (pack name) =
      if clean (clean name) ≠ [] then .name (clean (clean name)) else .drop := by
  have hmarked : MARK.isPrefixOf (pack name) = true :=
    List.isPrefixOf_iff_prefix.2 (List.prefix_append _ _)
  have hrest : (pack name).drop MARK.length = clean name := List.drop_left' rfl
  rw [classify, if_pos rfl, hrest]
  simp only [hmarked, if_true]

/-- A name stays what it is when it is cleaned again and when it is sent, if and only if it is not
cut right after a space. -/
theorem clean_stays_iff (name : Units) :
    (clean (clean name) = clean name ∧
        (clean name ≠ [] → classify KIND (pack name) = .name (clean name))) ↔
      ¬ EndsAtLimit name := by
  constructor
  · rintro ⟨hclean, -⟩ hends
    rw [clean_clean_of_endsAtLimit hends] at hclean
    have hlong : MAX - 1 < (tidy name).length := by
      obtain ⟨hlt, -⟩ := List.getElem?_eq_some_iff.1 ((tidy_getElem?_iff name).2 hends)
      exact hlt
    have hlength := congrArg List.length hclean
    rw [clean, List.length_take, List.length_take] at hlength
    have hmax : MAX = 64 := rfl
    omega
  · intro hends
    have hclean := clean_clean_of_not hends
    refine ⟨hclean, fun hne => ?_⟩
    rw [classify_pack, hclean, if_pos hne]

/-- 63 letters, a space and another letter. -/
theorem clean_not_idempotent :
    ¬ ∀ name : Units, clean (clean name) = clean name ∧
      (clean name ≠ [] → classify KIND (pack name) = .name (clean name)) := by
  intro hall
  have h := (hall (List.replicate 63 0x61 ++ [0x20, 0x62])).1
  exact absurd (congrArg List.length h) (by decide +kernel)

end Theorems

end Sozvon.GuestNames
