import Sozvon.Json
import Sozvon.Utf16
import Mathlib.Data.List.DropRight

/-!
# JSON texts

The grammar of the text around the values, as a reader of characters that gives back what it
has not read. An object ends where its brace is closed: a text that has lost its end is not
the text of anything.
-/
namespace Sozvon.Json

section Reader

def isWhite (c : Char) : Bool := c = ' ' ∨ c = '\t' ∨ c = '\n' ∨ c = '\r'

def skip (s : List Char) : List Char := s.dropWhile isWhite

def expect (c : Char) (s : List Char) : Option (List Char) :=
  match skip s with
  | [] => none
  | c' :: rest => if c' = c then some rest else none

def hexDigit (c : Char) : Option ℕ :=
  if '0' ≤ c ∧ c ≤ '9' then some (c.toNat - '0'.toNat)
  else if 'a' ≤ c ∧ c ≤ 'f' then some (c.toNat - 'a'.toNat + 10)
  else if 'A' ≤ c ∧ c ≤ 'F' then some (c.toNat - 'A'.toNat + 10)
  else none

/-- The character that stands for another after a backslash. -/
def escaped (c : Char) : Option Char :=
  if c = '"' ∨ c = '\\' ∨ c = '/' then some c
  else if c = 'b' then some '\x08'
  else if c = 'f' then some '\x0c'
  else if c = 'n' then some '\n'
  else if c = 'r' then some '\r'
  else if c = 't' then some '\t'
  else none

/-- Where a reader of a string is: in an escape, or before the last `n + 1` digits of one. -/
inductive Mode where
  | plain
  | escape
  | hex (n value : ℕ)

def prepend (units : Utf16.Units) (r : Option (Utf16.Units × List Char)) :
    Option (Utf16.Units × List Char) :=
  r.map fun p => (units ++ p.1, p.2)

/-- The rest of a string after its first quote. -/
def chars : Mode → List Char → Option (Utf16.Units × List Char)
  | _, [] => none
  | .plain, c :: s =>
      if c = '"' then some ([], s)
      else if c = '\\' then chars .escape s
      else if c.toNat < 0x20 then none
      else prepend (Utf16.ofChar c) (chars .plain s)
  | .escape, c :: s =>
      if c = 'u' then chars (.hex 3 0) s
      else match escaped c with
        | none => none
        | some e => prepend (Utf16.ofChar e) (chars .plain s)
  | .hex n v, c :: s =>
      match hexDigit c with
      | none => none
      | some d =>
          match n with
          | 0 => prepend [UInt16.ofNat (v * 16 + d)] (chars .plain s)
          | n + 1 => chars (.hex n (v * 16 + d)) s

def isDigit (c : Char) : Bool := '0' ≤ c ∧ c ≤ '9'

/-- The characters that numbers are made of. -/
def isNumeric (c : Char) : Bool := isDigit c || c ∈ ['-', '+', '.', 'e', 'E']

/-- The digits of an exponent, with a sign or without. -/
def isExponent (s : List Char) : Bool :=
  match s with
  | '+' :: s | '-' :: s | s => s ≠ [] && s.all isDigit

/-- A fraction, an exponent, both or nothing. -/
def isTail (s : List Char) : Bool :=
  let fraction := s.takeWhile (fun c => c ≠ 'e' && c ≠ 'E')
  let exponent := s.dropWhile (fun c => c ≠ 'e' && c ≠ 'E')
  (match fraction with
    | [] => true
    | '.' :: digits => digits ≠ [] && digits.all isDigit
    | _ => false) &&
  match exponent with
  | [] => true
  | _ :: s => isExponent s

def isNumber (s : List Char) : Bool :=
  let unsigned := match s with
    | '-' :: s => s
    | s => s
  match unsigned with
  | '0' :: s => isTail s
  | c :: s => isDigit c && isTail (s.dropWhile isDigit)
  | [] => false

def number (s : List Char) : Option (Json × List Char) :=
  let literal := s.takeWhile isNumeric
  if isNumber literal then some (.num (String.ofList literal), s.dropWhile isNumeric) else none

/-- `true`, `false` or `null` -/
def literal : List Char → Option (Json × List Char)
  | 't' :: 'r' :: 'u' :: 'e' :: s => some (.bool true, s)
  | 'f' :: 'a' :: 'l' :: 's' :: 'e' :: s => some (.bool false, s)
  | 'n' :: 'u' :: 'l' :: 'l' :: s => some (.null, s)
  | _ => none

def text (units : Utf16.Units) : String := String.ofList (Utf16.toChars units)

mutual

def value : ℕ → List Char → Option (Json × List Char)
  | 0, _ => none
  | n + 1, s =>
      match skip s with
      | [] => none
      | c :: s =>
          if c = '"' then (chars .plain s).map fun r => (.str (text r.1), r.2)
          else if c = '{' then
            match expect '}' s with
            | some rest => some (.obj [], rest)
            | none => (members n s).map fun r => (.obj r.1, r.2)
          else if c = '[' then
            match expect ']' s with
            | some rest => some (.arr [], rest)
            | none => (elements n s).map fun r => (.arr r.1, r.2)
          else if isDigit c ∨ c = '-' then number (c :: s)
          else literal (c :: s)

/-- The members of an object, and its closing brace. -/
def members : ℕ → List Char → Option (List (String × Json) × List Char)
  | 0, _ => none
  | n + 1, s => do
      let s ← expect '"' s
      let (key, s) ← chars .plain s
      let s ← expect ':' s
      let (v, s) ← value n s
      match expect '}' s with
      | some rest => return ([(text key, v)], rest)
      | none =>
          let s ← expect ',' s
          let (ms, rest) ← members n s
          return ((text key, v) :: ms, rest)

/-- The elements of an array, and its closing bracket. -/
def elements : ℕ → List Char → Option (List Json × List Char)
  | 0, _ => none
  | n + 1, s => do
      let (v, s) ← value n s
      match expect ']' s with
      | some rest => return ([v], rest)
      | none =>
          let s ← expect ',' s
          let (vs, rest) ← elements n s
          return (v :: vs, rest)

end

/-- `JSON.parse`; no value is nested more deeply than its text is long. -/
def parse (s : List Char) : Option Json :=
  match value (s.length + 1) s with
  | some (v, rest) => if skip rest = [] then some v else none
  | none => none

end Reader

/-! ## Reading on -/

section Append

variable {s r : List Char} {c : Char}

theorem skip_append (h : skip s ≠ []) (t : List Char) : skip (s ++ t) = skip s ++ t := by
  have hne : ¬ (s.dropWhile isWhite).isEmpty = true := fun hempty =>
    h (List.isEmpty_iff.mp hempty)
  rw [skip, List.dropWhile_append, if_neg hne]
  rfl

theorem skip_ne_nil_of_expect (h : expect c s = some r) : skip s ≠ [] := by
  intro hnil
  rw [expect, hnil] at h
  cases h

theorem expect_append (h : expect c s = some r) (t : List Char) :
    expect c (s ++ t) = some (r ++ t) := by
  have hskip := skip_append (skip_ne_nil_of_expect h) t
  unfold expect at h ⊢
  rw [hskip]
  cases hs : skip s with
  | nil => rw [hs] at h; cases h
  | cons c' rest =>
      rw [hs] at h
      dsimp only [List.cons_append] at h ⊢
      split_ifs at h ⊢
      cases h
      rfl

theorem expect_append_none (hs : skip s ≠ []) (h : expect c s = none) (t : List Char) :
    expect c (s ++ t) = none := by
  unfold expect at h ⊢
  rw [skip_append hs]
  cases hs' : skip s with
  | nil => exact absurd hs' hs
  | cons c' rest =>
      rw [hs'] at h
      dsimp only [List.cons_append] at h ⊢
      split_ifs at h ⊢
      rfl

theorem prepend_append {units more : Utf16.Units} {o o' : Option (Utf16.Units × List Char)}
    {t : List Char} (h : prepend units o = some (more, r))
    (ho : ∀ more r, o = some (more, r) → o' = some (more, r ++ t)) :
    prepend units o' = some (more, r ++ t) := by
  obtain ⟨⟨u, rest⟩, hu, heq⟩ := Option.map_eq_some_iff.mp h
  rw [prepend, ho u rest hu]
  cases heq
  rfl

theorem chars_append {mode : Mode} {units : Utf16.Units} (h : chars mode s = some (units, r))
    (t : List Char) : chars mode (s ++ t) = some (units, r ++ t) := by
  induction s generalizing mode units r with
  | nil => cases mode <;> cases h
  | cons c s ih =>
      rw [List.cons_append]
      cases mode with
      | plain =>
          rw [chars] at h ⊢
          split_ifs at h ⊢
          · cases h
            rfl
          · exact ih h
          · exact prepend_append h fun _ _ => ih
      | escape =>
          rw [chars] at h ⊢
          split_ifs at h ⊢
          · exact ih h
          · cases he : escaped c with
            | none => rw [he] at h; cases h
            | some e =>
                rw [he] at h
                exact prepend_append h fun _ _ => ih
      | hex n v =>
          rw [chars] at h ⊢
          cases hd : hexDigit c with
          | none => rw [hd] at h; cases h
          | some d =>
              rw [hd] at h
              cases n with
              | zero => exact prepend_append h fun _ _ => ih
              | succ n => exact ih h

theorem number_append {v : Json} (h : number s = some (v, r)) (hr : r ≠ []) (t : List Char) :
    number (s ++ t) = some (v, r ++ t) := by
  unfold number at h ⊢
  dsimp only at h ⊢
  split_ifs at h with hnumber
  obtain ⟨hv, hrest⟩ := Prod.mk.inj (Option.some.inj h)
  have hdrop : ¬ (s.dropWhile isNumeric).isEmpty = true := fun hempty =>
    hr (hrest.symm.trans (List.isEmpty_iff.mp hempty))
  have htake : (s.takeWhile isNumeric).length ≠ s.length := by
    intro hlength
    have hsplit := congrArg List.length (List.takeWhile_append_dropWhile (p := isNumeric) (l := s))
    rw [List.length_append, hlength, hrest] at hsplit
    have hpos := List.length_pos_iff.mpr hr
    omega
  rw [List.takeWhile_append, if_neg htake, List.dropWhile_append, if_neg hdrop, if_pos hnumber,
    hv, hrest]

theorem literal_append {v : Json} (h : literal s = some (v, r)) (t : List Char) :
    literal (s ++ t) = some (v, r ++ t) := by
  unfold literal at h
  split at h <;> cases h <;> rfl

def isNum : Json → Bool
  | .num _ => true
  | _ => false

theorem skip_ne_nil_of_value {n : ℕ} {v : Json} (h : value n s = some (v, r)) : skip s ≠ [] := by
  intro hnil
  cases n with
  | zero => cases h
  | succ n =>
      rw [value, hnil] at h
      cases h

/-- Reading does not see past the end of what it has read, with whatever fuel; only a number
may go on. -/
structure ReadsOn (n : ℕ) : Prop where
  value : ∀ {s r v} m t, n ≤ m → value n s = some (v, r) → (r ≠ [] ∨ isNum v = false) →
    value m (s ++ t) = some (v, r ++ t)
  members : ∀ {s r ms} m t, n ≤ m → members n s = some (ms, r) →
    members m (s ++ t) = some (ms, r ++ t)
  elements : ∀ {s r vs} m t, n ≤ m → elements n s = some (vs, r) →
    elements m (s ++ t) = some (vs, r ++ t)

theorem map_append {α β : Type} {o o' : Option (α × List Char)} {f : α → β} {b : β}
    {t : List Char} (h : (o.map fun p => (f p.1, p.2)) = some (b, r))
    (ho : ∀ a r, o = some (a, r) → o' = some (a, r ++ t)) :
    (o'.map fun p => (f p.1, p.2)) = some (b, r ++ t) := by
  obtain ⟨⟨a, rest⟩, ha, heq⟩ := Option.map_eq_some_iff.mp h
  rw [ho a rest ha]
  cases heq
  rfl

theorem skip_ne_nil_of_members {n : ℕ} {ms : List (String × Json)}
    (h : members n s = some (ms, r)) : skip s ≠ [] := by
  cases n with
  | zero => cases h
  | succ n =>
      rw [members] at h
      obtain ⟨s', hquote, -⟩ := Option.bind_eq_some_iff.mp h
      exact skip_ne_nil_of_expect hquote

theorem skip_ne_nil_of_elements {n : ℕ} {vs : List Json}
    (h : elements n s = some (vs, r)) : skip s ≠ [] := by
  cases n with
  | zero => cases h
  | succ n =>
      rw [elements] at h
      obtain ⟨⟨v, s'⟩, hvalue, -⟩ := Option.bind_eq_some_iff.mp h
      exact skip_ne_nil_of_value hvalue

/-- A bracket that closes at once, or what is between it and its other half. -/
theorem closing_append {α β : Type} {o o' : Option (α × List Char)} {f : α → β} {b e : β}
    {t : List Char}
    (h : (match expect c s with
      | some rest => some (e, rest)
      | none => o.map fun p => (f p.1, p.2)) = some (b, r))
    (hs : ∀ a r, o = some (a, r) → skip s ≠ [])
    (ho : ∀ a r, o = some (a, r) → o' = some (a, r ++ t)) :
    (match expect c (s ++ t) with
      | some rest => some (e, rest)
      | none => o'.map fun p => (f p.1, p.2)) = some (b, r ++ t) := by
  cases hclose : expect c s with
  | some rest =>
      rw [hclose] at h
      rw [expect_append hclose]
      cases h
      rfl
  | none =>
      rw [hclose] at h
      obtain ⟨⟨a, rest⟩, ha, -⟩ := Option.map_eq_some_iff.mp h
      rw [expect_append_none (hs a rest ha) hclose]
      exact map_append h ho

theorem value_readsOn {n : ℕ} (ih : ReadsOn n) {v : Json} {m : ℕ} (t : List Char) (hnm : n ≤ m)
    (h : value (n + 1) s = some (v, r)) (hr : r ≠ [] ∨ isNum v = false) :
    value (m + 1) (s ++ t) = some (v, r ++ t) := by
  have hskip := skip_append (skip_ne_nil_of_value h) t
  rw [value] at h ⊢
  rw [hskip]
  cases hs : skip s with
  | nil => rw [hs] at h; cases h
  | cons c s' =>
      rw [hs] at h
      dsimp only [List.cons_append] at h ⊢
      by_cases hquote : c = '"'
      · rw [if_pos hquote] at h ⊢
        exact map_append (f := fun units => str (text units)) h fun _ _ ha => chars_append ha t
      by_cases hbrace : c = '{'
      · rw [if_neg hquote, if_pos hbrace] at h ⊢
        exact closing_append h (fun _ _ => skip_ne_nil_of_members) fun _ _ => ih.members m t hnm
      by_cases hbracket : c = '['
      · rw [if_neg hquote, if_neg hbrace, if_pos hbracket] at h ⊢
        exact closing_append h (fun _ _ => skip_ne_nil_of_elements) fun _ _ => ih.elements m t hnm
      rw [if_neg hquote, if_neg hbrace, if_neg hbracket] at h ⊢
      by_cases hdigit : isDigit c = true ∨ c = '-'
      · rw [if_pos hdigit] at h ⊢
        refine number_append h (hr.resolve_right ?_) t
        unfold number at h
        dsimp only at h
        split_ifs at h
        cases h
        exact nofun
      · rw [if_neg hdigit] at h ⊢
        exact literal_append h t

theorem members_readsOn {n : ℕ} (ih : ReadsOn n) {ms : List (String × Json)} {m : ℕ}
    (t : List Char) (hnm : n ≤ m) (h : members (n + 1) s = some (ms, r)) :
    members (m + 1) (s ++ t) = some (ms, r ++ t) := by
  rw [members] at h ⊢
  obtain ⟨s₁, hquote, h⟩ := Option.bind_eq_some_iff.mp h
  obtain ⟨⟨key, s₂⟩, hkey, h⟩ := Option.bind_eq_some_iff.mp h
  obtain ⟨s₃, hcolon, h⟩ := Option.bind_eq_some_iff.mp h
  obtain ⟨⟨v, s₄⟩, hvalue, h⟩ := Option.bind_eq_some_iff.mp h
  have hmore : s₄ ≠ [] := by
    rintro rfl
    exact absurd h nofun
  simp only [expect_append hquote t, chars_append hkey t, expect_append hcolon t,
    ih.value m t hnm hvalue (.inl hmore), Option.bind_eq_bind, Option.bind_some]
  dsimp only at h
  cases hclose : expect '}' s₄ with
  | some rest =>
      rw [hclose] at h
      rw [expect_append hclose]
      cases h
      rfl
  | none =>
      rw [hclose] at h
      obtain ⟨s₅, hcomma, h⟩ := Option.bind_eq_some_iff.mp h
      obtain ⟨⟨ms', rest⟩, hrest, h⟩ := Option.bind_eq_some_iff.mp h
      rw [expect_append_none (skip_ne_nil_of_expect hcomma) hclose]
      simp only [expect_append hcomma t, ih.members m t hnm hrest, Option.bind_some]
      cases h
      rfl

theorem elements_readsOn {n : ℕ} (ih : ReadsOn n) {vs : List Json} {m : ℕ}
    (t : List Char) (hnm : n ≤ m) (h : elements (n + 1) s = some (vs, r)) :
    elements (m + 1) (s ++ t) = some (vs, r ++ t) := by
  rw [elements] at h ⊢
  obtain ⟨⟨v, s₁⟩, hvalue, h⟩ := Option.bind_eq_some_iff.mp h
  have hmore : s₁ ≠ [] := by
    rintro rfl
    exact absurd h nofun
  simp only [ih.value m t hnm hvalue (.inl hmore), Option.bind_eq_bind, Option.bind_some]
  dsimp only at h
  cases hclose : expect ']' s₁ with
  | some rest =>
      rw [hclose] at h
      rw [expect_append hclose]
      cases h
      rfl
  | none =>
      rw [hclose] at h
      obtain ⟨s₂, hcomma, h⟩ := Option.bind_eq_some_iff.mp h
      obtain ⟨⟨vs', rest⟩, hrest, h⟩ := Option.bind_eq_some_iff.mp h
      rw [expect_append_none (skip_ne_nil_of_expect hcomma) hclose]
      simp only [expect_append hcomma t, ih.elements m t hnm hrest, Option.bind_some]
      cases h
      rfl

theorem readsOn (n : ℕ) : ReadsOn n := by
  induction n with
  | zero => exact ⟨fun _ _ _ h => (nomatch h), fun _ _ _ h => (nomatch h), fun _ _ _ h => (nomatch h)⟩
  | succ n ih =>
      refine ⟨fun m t hnm h hr => ?_, fun m t hnm h => ?_, fun m t hnm h => ?_⟩
      · obtain ⟨m, rfl⟩ := Nat.exists_eq_succ_of_ne_zero (Nat.ne_zero_of_lt hnm)
        exact value_readsOn ih t (Nat.le_of_succ_le_succ hnm) h hr
      · obtain ⟨m, rfl⟩ := Nat.exists_eq_succ_of_ne_zero (Nat.ne_zero_of_lt hnm)
        exact members_readsOn ih t (Nat.le_of_succ_le_succ hnm) h
      · obtain ⟨m, rfl⟩ := Nat.exists_eq_succ_of_ne_zero (Nat.ne_zero_of_lt hnm)
        exact elements_readsOn ih t (Nat.le_of_succ_le_succ hnm) h

end Append

/-! ## Texts that are cut short -/

section Prefixes

variable {s t : List Char}

/-- What is left of a text that has lost something other than white space at its end. -/
def Cut (t s : List Char) : Prop := ∃ lost, s = t ++ lost ∧ skip lost ≠ []

/-- Only an object begins with a brace. -/
theorem brace_iff {n : ℕ} {v : Json} {r : List Char} (h : value n s = some (v, r)) :
    (∃ rest, skip s = '{' :: rest) ↔ ∃ ms, v = .obj ms := by
  cases n with
  | zero => cases h
  | succ n =>
      rw [value] at h
      cases hs : skip s with
      | nil => rw [hs] at h; cases h
      | cons c s' =>
          rw [hs] at h
          dsimp only at h
          have hc : (∃ rest, c :: s' = '{' :: rest) ↔ c = '{' :=
            ⟨fun ⟨_, heq⟩ => (List.cons.inj heq).1, fun heq => ⟨s', heq ▸ rfl⟩⟩
          rw [hc]
          split_ifs at h with hquote hbrace hbracket hdigit
          · obtain ⟨a, -, heq⟩ := Option.map_eq_some_iff.mp h
            cases heq
            exact iff_of_false (fun heq => absurd (heq.symm.trans hquote) (by decide)) nofun
          · refine iff_of_true hbrace ?_
            split at h
            · cases h
              exact ⟨[], rfl⟩
            · obtain ⟨a, -, heq⟩ := Option.map_eq_some_iff.mp h
              cases heq
              exact ⟨a.1, rfl⟩
          · refine iff_of_false hbrace ?_
            split at h
            · cases h
              exact nofun
            · obtain ⟨a, -, heq⟩ := Option.map_eq_some_iff.mp h
              cases heq
              exact nofun
          · refine iff_of_false hbrace ?_
            unfold number at h
            dsimp only at h
            split_ifs at h
            cases h
            exact nofun
          · refine iff_of_false hbrace ?_
            unfold literal at h
            split at h <;> cases h <;> exact nofun

theorem parse_eq_some {v : Json} (h : parse s = some v) :
    ∃ r, value (s.length + 1) s = some (v, r) ∧ skip r = [] := by
  unfold parse at h
  split at h
  · split_ifs at h with hskip
    cases h
    exact ⟨_, ‹_›, hskip⟩
  · cases h

theorem skip_eq_nil_append {r lost : List Char} (h : skip r = []) :
    skip (r ++ lost) = skip lost := by
  have hempty : (r.dropWhile isWhite).isEmpty = true := List.isEmpty_iff.mpr h
  rw [skip, List.dropWhile_append, if_pos hempty]
  rfl

/-- A text without the end of its object is not the text of anything. -/
theorem parse_cut {ms : List (String × Json)} (h : parse s = some (.obj ms)) (hcut : Cut t s) :
    parse t = none := by
  obtain ⟨lost, rfl, hlost⟩ := hcut
  obtain ⟨r, hvalue, hr⟩ := parse_eq_some h
  cases hparse : parse t with
  | none => rfl
  | some v =>
      exfalso
      obtain ⟨r', hvalue', hr'⟩ := parse_eq_some hparse
      have hlength : t.length + 1 ≤ (t ++ lost).length + 1 := by
        rw [List.length_append]
        omega
      cases hnum : isNum v with
      | true =>
          -- a number does not begin as the whole text does
          obtain ⟨rest, hrest⟩ := (brace_iff hvalue).mpr ⟨ms, rfl⟩
          have hskip := skip_ne_nil_of_value hvalue'
          rw [skip_append hskip] at hrest
          obtain ⟨c, s', hs'⟩ := List.exists_cons_of_ne_nil hskip
          rw [hs', List.cons_append, List.cons.injEq] at hrest
          obtain ⟨ms', rfl⟩ := (brace_iff hvalue').mp ⟨s', by rw [hs', hrest.1]⟩
          cases hnum
      | false =>
          have hon := (readsOn _).value _ lost hlength hvalue' (.inr hnum)
          rw [hvalue, Option.some.injEq, Prod.mk.injEq] at hon
          rw [hon.2, skip_eq_nil_append hr'] at hr
          exact hlost hr

end Prefixes

end Sozvon.Json
