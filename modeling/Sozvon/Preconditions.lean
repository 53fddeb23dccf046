import Mathlib.Data.List.Basic
import Mathlib.Data.Nat.Notation

/-!
# Request preconditions

`If-Match` and `If-None-Match`. A header is its bytes, each written as the
character of that number. The empty etag is the one of what does not exist.
-/
namespace Sozvon.Preconditions

abbrev Text := List Char

def isSpace (c : Char) : Bool := c = ' ' || c = '\t' || c = '\n' || c = '\r'

/-- The characters allowed in an etag, between its quotes. -/
def allowed (c : Char) : Bool :=
  c.toNat = 0x21 || 0x23 ≤ c.toNat && c.toNat ≤ 0x7e || 0x80 ≤ c.toNat

/-- A quoted text, and what comes after it. -/
def scanQuoted : Text → Option (Text × Text)
  | '"' :: body =>
      match body.dropWhile allowed with
      | '"' :: remain => some ('"' :: body.takeWhile allowed ++ ['"'], remain)
      | _ => none
  | _ => none

/-- The etag at the front of a text, and what comes after it. -/
def scanETag (s : Text) : Option (Text × Text) :=
  match s.dropWhile isSpace with
  | 'W' :: '/' :: s => (scanQuoted s).map fun (e, remain) => ('W' :: '/' :: e, remain)
  | s => scanQuoted s

/-- The loop of `etagMatch`, which goes round at most once for every character. -/
def matchLoop (etag : Text) : ℕ → Text → Bool
  | 0, _ => false
  | n + 1, header =>
      match header.dropWhile isSpace with
      | [] => false
      | c :: rest =>
          if c = ',' then matchLoop etag n rest
          else if c = '*' then etag ≠ []
          else match scanETag (c :: rest) with
            | none => false
            | some (e, remain) => e = etag || matchLoop etag n remain

def etagMatch (etag header : Text) : Bool :=
  header ≠ [] && (header = etag || matchLoop etag (header.length + 1) header)

/-- The headers of a request, empty where there is none. -/
structure Headers where
  ifMatch : Text := []
  ifNoneMatch : Text := []

/-- A request that changes something is refused where this holds. -/
def Failed (etag : Text) (h : Headers) : Prop :=
  h.ifMatch ≠ [] ∧ etagMatch etag h.ifMatch = false ∨
    h.ifNoneMatch ≠ [] ∧ etagMatch etag h.ifNoneMatch = true

instance (etag : Text) (h : Headers) : Decidable (Failed etag h) :=
  inferInstanceAs (Decidable (_ ∨ _))

/-! ## The loop ends -/

theorem scanQuoted_length {s e remain : Text} (h : scanQuoted s = some (e, remain)) :
    remain.length < s.length := by
  unfold scanQuoted at h
  split at h
  · rename_i body
    split at h
    · rename_i remain' heq
      cases h
      have hdrop := congrArg List.length heq
      have hle := (List.dropWhile_sublist (p := allowed) (l := body)).length_le
      simp only [List.length_cons] at hdrop ⊢
      omega
    · cases h
  · cases h

theorem scanETag_length {s e remain : Text} (h : scanETag s = some (e, remain)) :
    remain.length < s.length := by
  have hle := (List.dropWhile_sublist (p := isSpace) (l := s)).length_le
  unfold scanETag at h
  split at h
  · rename_i rest heq
    rw [heq] at hle
    cases hq : scanQuoted rest with
    | none => simp [hq] at h
    | some q =>
        obtain ⟨e', remain'⟩ := q
        have hlt := scanQuoted_length hq
        simp only [hq, Option.map_some, Option.some.injEq, Prod.mk.injEq] at h
        obtain ⟨-, rfl⟩ := h
        simp only [List.length_cons] at hle
        omega
  · have hlt := scanQuoted_length h
    omega

/-- More rounds than there are characters make no difference. -/
theorem matchLoop_enough (etag : Text) {n m : ℕ} {header : Text} (hn : header.length < n)
    (hm : header.length < m) : matchLoop etag n header = matchLoop etag m header := by
  induction n generalizing m header with
  | zero => exact absurd hn (Nat.not_lt_zero _)
  | succ n ih =>
      cases m with
      | zero => exact absurd hm (Nat.not_lt_zero _)
      | succ m =>
          have hle := (List.dropWhile_sublist (p := isSpace) (l := header)).length_le
          simp only [matchLoop]
          cases hdrop : header.dropWhile isSpace with
          | nil => rfl
          | cons c rest =>
              rw [hdrop, List.length_cons] at hle
              dsimp only
              split
              · exact ih (by omega) (by omega)
              split
              · rfl
              cases hscan : scanETag (c :: rest) with
              | none => rfl
              | some q =>
                  obtain ⟨e, remain⟩ := q
                  have hlt := scanETag_length hscan
                  rw [List.length_cons] at hlt
                  dsimp only
                  rw [@ih m remain (by omega) (by omega)]

/-! ## Lists of etags -/

/-- An etag as it is written in a header, weak or not. -/
inductive Tag : Text → Prop
  | strong (body : Text) : (∀ c ∈ body, allowed c) → Tag ('"' :: body ++ ['"'])
  | weak (body : Text) : (∀ c ∈ body, allowed c) → Tag ('W' :: '/' :: '"' :: body ++ ['"'])

theorem scanQuoted_tag {body : Text} (h : ∀ c ∈ body, allowed c) (rest : Text) :
    scanQuoted ('"' :: body ++ '"' :: rest) = some ('"' :: body ++ ['"'], rest) := by
  have hquote : allowed '"' = false := by decide
  have hdrop : (body ++ '"' :: rest).dropWhile allowed = '"' :: rest := by
    rw [List.dropWhile_append_of_pos h, List.dropWhile_cons_of_neg (by rw [hquote]; decide)]
  have htake : (body ++ '"' :: rest).takeWhile allowed = body := by
    rw [List.takeWhile_append_of_pos h, List.takeWhile_cons_of_neg (by rw [hquote]; decide),
      List.append_nil]
  simp only [scanQuoted, List.cons_append, hdrop, htake]

/-- An etag at the front is found, whatever comes after it. -/
theorem Tag.scan {t : Text} (h : Tag t) (rest : Text) : scanETag (t ++ rest) = some (t, rest) := by
  cases h with
  | strong body hbody =>
      have hscan := scanQuoted_tag hbody rest
      have hspace : isSpace '"' = false := by decide
      simp only [scanETag, List.cons_append, List.append_assoc, List.dropWhile_cons, hspace]
      exact hscan
  | weak body hbody =>
      have hscan := scanQuoted_tag hbody rest
      have hspace : isSpace 'W' = false := by decide
      simp only [List.cons_append] at hscan
      simp only [scanETag, List.cons_append, List.append_assoc, List.nil_append,
        List.dropWhile_cons, hspace, Bool.false_eq_true, if_false, hscan, Option.map_some]

theorem Tag.ne_nil {t : Text} (h : Tag t) : t ≠ [] := by
  cases h <;> exact List.cons_ne_nil _ _

theorem matchLoop_comma (etag : Text) (n : ℕ) (header : Text) :
    matchLoop etag (n + 1) (',' :: header) = matchLoop etag n header := rfl

theorem Tag.matchLoop {t : Text} (h : Tag t) (etag : Text) (n : ℕ) (rest : Text) :
    matchLoop etag (n + 1) (t ++ rest) = (t = etag || matchLoop etag n rest) := by
  have hscan := h.scan rest
  cases h with
  | strong body hbody =>
      have hspace : isSpace '"' = false := by decide
      simp only [List.cons_append] at hscan
      simp only [Preconditions.matchLoop, List.cons_append, List.dropWhile_cons, hspace,
        Bool.false_eq_true, if_false, Char.reduceEq, hscan]
  | weak body hbody =>
      have hspace : isSpace 'W' = false := by decide
      simp only [List.cons_append] at hscan
      simp only [Preconditions.matchLoop, List.cons_append, List.dropWhile_cons, hspace,
        Bool.false_eq_true, if_false, Char.reduceEq, hscan]

/-- `*` matches whatever exists. -/
theorem etagMatch_star (etag : Text) (rest : Text) :
    etagMatch etag ('*' :: rest) = (('*' :: rest) = etag || decide (etag ≠ [])) := rfl

end Sozvon.Preconditions
