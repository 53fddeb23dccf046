import Std.Data.String.ToInt
import Mathlib.Data.List.AList
import Mathlib.Data.Nat.Notation
import Mathlib.Algebra.Group.Int.Defs

/-!
# JSON values

What `encoding/json` documents of reading a value into a variable that has one
already, and of writing it. A number is its literal, of which the grammar has
seen to the form; the text around the values is left out.
-/
namespace Sozvon

inductive Json where
  | null
  | bool (b : Bool)
  | num (literal : String)
  | str (s : String)
  | arr (elements : List Json)
  | obj (members : List (String × Json))

namespace Json

/-- A variable of type `α` after a value has been read into it, unless that fails. -/
abbrev Decoder (α : Type) := Json → α → Except Unit α

/-! ## Reading -/

/-- `null` has no effect on a string, a number or a struct. -/
def string : Decoder String
  | .str s, _ => .ok s
  | .null, old => .ok old
  | _, _ => .error ()

def boolean : Decoder Bool
  | .bool b, _ => .ok b
  | .null, old => .ok old
  | _, _ => .error ()

/-- A whole number that the type has. -/
def int64 : Decoder Int64
  | .num literal, _ =>
      match literal.toInt? with
      | some n => if -2 ^ 63 ≤ n ∧ n < 2 ^ 63 then .ok (Int64.ofInt n) else .error ()
      | none => .error ()
  | .null, old => .ok old
  | _, _ => .error ()

/-- A type with an `UnmarshalJSON`, which is asked about `null` too. -/
def unmarshaler {α : Type} (unmarshalJSON : Json → Except Unit α) : Decoder α :=
  fun j _ => unmarshalJSON j

/-- `null` makes a nil pointer; where there is one it is pointed to a new `zero` before the value is
read. -/
def pointer {α : Type} (zero : α) (element : Decoder α) : Decoder (Option α)
  | .null, _ => .ok none
  | j, old => (element j (old.getD zero)).map some

def slice {α : Type} (zero : α) (element : Decoder α) : Decoder (Option (List α))
  | .null, _ => .ok none
  | .arr elements, _ => (elements.mapM fun j => element j zero).map some
  | _, _ => .error ()

/-- The members of an object, one after the other, into a map. -/
def readEntries {α : Type} (read : Json → Except Unit α) (members : List (String × Json))
    (m : AList fun _ : String => α) : Except Unit (AList fun _ : String => α) :=
  members.foldlM (fun (m : AList fun _ : String => α) (member : String × Json) =>
    (read member.2).map fun a => m.insert member.1 a) m

/-- A map with string keys; the entries that it has are kept. -/
def mapOf {α : Type} (zero : α) (element : Decoder α) : Decoder (Option (AList fun _ : String => α))
  | .null, _ => .ok none
  | .obj members, old =>
      (readEntries (element · zero) members (old.getD ∅)).map some
  | _, _ => .error ()

/-- The letters that `foldName` puts together, with the Kelvin sign and the long s. -/
def foldChar (c : Char) : Char :=
  if c.toNat = 0x212a then 'k' else if c.toNat = 0x17f then 's' else c.toLower

def foldName (s : String) : List Char := s.toList.map foldChar

/-- The field of a struct that a key stands for: of this name, or else of one that differs in case
only. -/
def field {α : Type} (fields : List (String × α)) (key : String) : Option α :=
  ((fields.find? fun f => f.1 = key).or (fields.find? fun f => foldName f.1 = foldName key)).map (·.2)

/-- One field, read through a view of the struct. -/
def part {σ α : Type} (get : σ → α) (set : σ → α → σ) (element : Decoder α) : Decoder σ :=
  fun j s => (element j (get s)).map (set s)

/-- The members of an object, one after the other, into the fields of a struct. -/
def readMembers {σ : Type} (strict : Bool) (fields : List (String × Decoder σ))
    (members : List (String × Json)) (s : σ) : Except Unit σ :=
  members.foldlM (fun s (key, j) =>
    match field fields key with
    | some read => read j s
    | none => if strict then .error () else .ok s) s

/-- A struct, with its fields and whether unknown ones are disallowed. -/
def struct {σ : Type} (strict : Bool) (fields : List (String × Decoder σ)) : Decoder σ
  | .null, old => .ok old
  | .obj members, old => readMembers strict fields members old
  | _, _ => .error ()

/-! ## Writing -/

def ofInt64 (n : Int64) : Json := .num n.toInt.repr

/-- A member that is left out where it would be empty. -/
def omitempty {α : Type} (key : String) (write : α → Json) : Option α → List (String × Json)
  | none => []
  | some a => [(key, write a)]

def ofString (key s : String) : List (String × Json) :=
  omitempty key .str (if s = "" then none else some s)

/-! ## What is written is read -/

section Members
variable {σ α : Type} {strict : Bool} {fields : List (String × Decoder σ)} {s s' : σ}
  {key : String}

theorem readMembers_append (a b : List (String × Json)) (s : σ) :
    readMembers strict fields (a ++ b) s =
      (readMembers strict fields a s).bind (readMembers strict fields b) :=
  List.foldlM_append

/-- A member that a field takes. -/
theorem readMembers_one {read : Decoder σ} (hfield : field fields key = some read) {j : Json}
    (hread : read j s = .ok s') : readMembers strict fields [(key, j)] s = .ok s' := by
  simp only [readMembers, List.foldlM_cons, List.foldlM_nil, hfield, hread]
  rfl

/-- A member that is there unless it would be empty, for a struct in which it is empty yet. -/
theorem readMembers_omitempty {read : Decoder σ} (hfield : field fields key = some read)
    {write : α → Json} {a : Option α} (hnone : a = none → s' = s)
    (hsome : ∀ x ∈ a, read (write x) s = .ok s') :
    readMembers strict fields (omitempty key write a) s = .ok s' := by
  cases a with
  | none =>
      rw [hnone rfl]
      rfl
  | some x => exact readMembers_one hfield (hsome x rfl)

theorem readMembers_ofString {read : Decoder σ} (hfield : field fields key = some read) {t : String}
    (hnone : t = "" → s' = s) (hsome : read (.str t) s = .ok s') :
    readMembers strict fields (ofString key t) s = .ok s' := by
  refine readMembers_omitempty hfield (fun h => ?_) fun x hx => ?_
  · by_cases ht : t = ""
    · exact hnone ht
    · rw [if_neg ht] at h
      cases h
  · by_cases ht : t = ""
    · rw [if_pos ht] at hx
      cases hx
    · rw [if_neg ht] at hx
      cases hx
      exact hsome

end Members

section Values
variable {α β : Type}

/-- Only `null` makes a nil pointer. -/
theorem pointer_of_ne_null {zero : α} {element : Decoder α} {j : Json} (h : j ≠ .null)
    (old : Option α) : pointer zero element j old = (element j (old.getD zero)).map some := by
  cases j <;> first | exact absurd rfl h | rfl

theorem mapM_of_read {read : Json → Except Unit β} {write : α → Json} {f : α → β} (a : List α)
    (h : ∀ x ∈ a, read (write x) = .ok (f x)) : (a.map write).mapM read = .ok (a.map f) := by
  induction a with
  | nil => rfl
  | cons x a ih =>
      rw [List.map_cons, List.mapM_cons, h x (List.mem_cons_self ..),
        ih fun y hy => h y (List.mem_cons_of_mem _ hy)]
      rfl

/-- Entries that are read one by one. -/
def insertAll (f : α → β) (entries : List (Sigma fun _ : String => α))
    (m : AList fun _ : String => β) : AList fun _ : String => β :=
  entries.foldl (fun m e => m.insert e.1 (f e.2)) m

theorem readEntries_write {read : Json → Except Unit β} {write : α → Json} {f : α → β}
    (entries : List (Sigma fun _ : String => α)) (h : ∀ a, read (write a) = .ok (f a))
    (m : AList fun _ : String => β) :
    readEntries read (entries.map fun e => (e.1, write e.2)) m = .ok (insertAll f entries m) := by
  induction entries generalizing m with
  | nil => rfl
  | cons e entries ih =>
      unfold readEntries insertAll at ih ⊢
      rw [List.map_cons, List.foldlM_cons, h, List.foldl_cons]
      exact ih (m.insert e.1 (f e.2))

/-- Where the keys are different, every entry is found again. -/
theorem lookup_insertAll {f : α → β} (entries : List (Sigma fun _ : String => α))
    (hkeys : entries.NodupKeys) (m : AList fun _ : String => β) (key : String) :
    (insertAll f entries m).lookup key = ((entries.dlookup key).map f).or (m.lookup key) := by
  induction entries generalizing m with
  | nil => rfl
  | cons e entries ih =>
      obtain ⟨hnotin, hrest⟩ := List.nodupKeys_cons.mp hkeys
      have hfold : insertAll f (e :: entries) m = insertAll f entries (m.insert e.1 (f e.2)) := rfl
      rw [hfold, ih hrest]
      by_cases hk : key = e.1
      · subst hk
        rw [List.dlookup_eq_none.mpr hnotin, AList.lookup_insert, List.dlookup_cons_eq]
        rfl
      · rw [AList.lookup_insert_ne hk, List.dlookup_cons_ne _ _ hk]

end Values

theorem int64_ofInt64 (n old : Int64) : int64 (ofInt64 n) old = .ok n := by
  have hlow : -2 ^ 63 ≤ n.toInt := n.le_toInt
  have hhigh : n.toInt < 2 ^ 63 := n.toInt_lt
  simp only [int64, ofInt64, Int.toInt?_repr]
  rw [if_pos ⟨hlow, hhigh⟩, Int64.ofInt_toInt]

end Json

end Sozvon
