import Sozvon.Preconditions

/-!
# Lists of entity tags, and what they let through

The scanner of a header goes round for every comma and every tag, and each time the
rest is shorter.
-/
namespace Sozvon.Preconditions

/-- The loop of `etagMatch` again, with `none` where it is still going round. -/
def roundsOf (etag : Text) : ℕ → Text → Option Bool
  | 0, _ => none
  | n + 1, header =>
      match header.dropWhile isSpace with
      | [] => some false
      | c :: rest =>
          if c = ',' then roundsOf etag n rest
          else if c = '*' then some (etag ≠ [])
          else match scanETag (c :: rest) with
            | none => some false
            | some (e, remain) => if e = etag then some true else roundsOf etag n remain

/-- What a refused request is answered with. -/
inductive Refusal where
  | notModified
  | preconditionFailed
deriving DecidableEq, Repr

/-- `checkPreconditions`; `none` lets the request through. -/
def checkPreconditions (method : String) (h : Headers) (etag : Text) : Option Refusal :=
  if h.ifMatch ≠ [] ∧ etagMatch etag h.ifMatch = false then some .preconditionFailed
  else if h.ifNoneMatch ≠ [] ∧ etagMatch etag h.ifNoneMatch = true then
    if method = "GET" ∨ method = "HEAD" then some .notModified else some .preconditionFailed
  else none

/-- Commas and white space. -/
def Gap (s : Text) : Prop := ∀ c ∈ s, c = ',' ∨ isSpace c

instance (s : Text) : Decidable (Gap s) := List.decidableBAll _ s

/-- A header of tags, with a gap in front and one after each. -/
def listed (front : Text) (tags : List (Text × Text)) : Text :=
  front ++ tags.flatMap fun tag => tag.1 ++ tag.2

/-- The loop with all the rounds that it needs. -/
def wholeLoop (etag header : Text) : Bool := matchLoop etag (header.length + 1) header

/-- Every round shortens the header, so the loop comes to its end. -/
theorem roundsOf_eq (etag : Text) {n : ℕ} {header : Text} (h : header.length < n) :
    roundsOf etag n header = some (matchLoop etag n header) := by
  induction n generalizing header with
  | zero => exact absurd h (Nat.not_lt_zero _)
  | succ n ih =>
      have hle := (List.dropWhile_sublist (p := isSpace) (l := header)).length_le
      rw [roundsOf, matchLoop]
      cases hdrop : header.dropWhile isSpace with
      | nil => rfl
      | cons c rest =>
          rw [hdrop, List.length_cons] at hle
          dsimp only
          split_ifs with hcomma hstar
          · exact ih (by omega)
          · rfl
          cases hscan : scanETag (c :: rest) with
          | none => rfl
          | some q =>
              obtain ⟨e, remain⟩ := q
              have hlt := scanETag_length hscan
              rw [List.length_cons] at hlt
              dsimp only
              rw [ih (by omega)]
              split_ifs with heq
              · simp [heq]
              · simp [heq]

theorem matchLoop_of_isSpace {c : Char} (h : isSpace c) (etag : Text) (n : ℕ) (header : Text) :
    matchLoop etag n (c :: header) = matchLoop etag n header := by
  cases n with
  | zero => rfl
  | succ n => rw [matchLoop, matchLoop, List.dropWhile_cons_of_pos h]

theorem wholeLoop_gap {gap : Text} (h : Gap gap) (etag header : Text) :
    wholeLoop etag (gap ++ header) = wholeLoop etag header := by
  induction gap with
  | nil => rfl
  | cons c gap ih =>
      have hrest := ih fun d hd => h d (List.mem_cons_of_mem _ hd)
      rcases h c (List.mem_cons_self ..) with rfl | hspace
      · rw [← hrest, wholeLoop, List.cons_append, matchLoop_comma]
        rfl
      · rw [← hrest, wholeLoop, List.cons_append, matchLoop_of_isSpace hspace]
        exact matchLoop_enough etag (by rw [List.length_cons]; omega) (Nat.lt_succ_self _)

theorem wholeLoop_tag {t : Text} (h : Tag t) (etag header : Text) :
    wholeLoop etag (t ++ header) = (t = etag || wholeLoop etag header) := by
  have hpos := List.length_pos_iff.2 h.ne_nil
  rw [wholeLoop, h.matchLoop, wholeLoop]
  congr 1
  exact matchLoop_enough etag (by rw [List.length_append]; omega) (Nat.lt_succ_self _)

theorem wholeLoop_tags {tags : List (Text × Text)} (h : ∀ tag ∈ tags, Tag tag.1 ∧ Gap tag.2)
    (etag : Text) :
    wholeLoop etag (tags.flatMap fun tag => tag.1 ++ tag.2) = true ↔ etag ∈ tags.map Prod.fst := by
  induction tags with
  | nil => exact ⟨nofun, nofun⟩
  | cons tag tags ih =>
      obtain ⟨htag, hgap⟩ := h tag (List.mem_cons_self ..)
      have hrest := ih fun t ht => h t (List.mem_cons_of_mem _ ht)
      rw [List.flatMap_cons, List.append_assoc, wholeLoop_tag htag, wholeLoop_gap hgap,
        List.map_cons, List.mem_cons, ← hrest, Bool.or_eq_true, decide_eq_true_iff, eq_comm]

/-- A tag that is the whole header is found by the loop too. -/
theorem wholeLoop_self {etag : Text} (h : Tag etag) : wholeLoop etag etag = true := by
  have hself := wholeLoop_tag h etag []
  rw [List.append_nil] at hself
  rw [hself, decide_eq_true rfl, Bool.true_or]

/-- The listed tags match, and no others. -/
theorem etagMatch_listed {front : Text} {tags : List (Text × Text)} {etag : Text}
    (hfront : Gap front) (htags : ∀ tag ∈ tags, Tag tag.1 ∧ Gap tag.2)
    (hetag : etag = [] ∨ Tag etag) :
    etagMatch etag (listed front tags) = true ↔ etag ∈ tags.map Prod.fst := by
  have hloop : wholeLoop etag (listed front tags) = true ↔ etag ∈ tags.map Prod.fst := by
    rw [listed, wholeLoop_gap hfront, wholeLoop_tags htags]
  rw [← hloop]
  have hmatch : etagMatch etag (listed front tags) = (listed front tags ≠ [] &&
    (listed front tags = etag || wholeLoop etag (listed front tags))) := rfl
  rw [hmatch]
  by_cases hempty : listed front tags = []
  · rw [hempty]
    exact ⟨nofun, nofun⟩
  by_cases hsame : listed front tags = etag
  · -- the shortcut for a header that is the tag itself
    rw [hsame] at hempty ⊢
    rw [wholeLoop_self (hetag.resolve_left hempty)]
    simp [hempty]
  · simp [hempty, hsame]

/-- A star stands for whatever exists. -/
theorem etagMatch_single_star (etag : Text) : etagMatch etag ['*'] = true ↔ etag ≠ [] := by
  rw [etagMatch_star, Bool.or_eq_true, decide_eq_true_iff, decide_eq_true_iff]
  refine or_iff_right_of_imp fun heq => ?_
  rw [← heq]
  exact List.cons_ne_nil _ _

theorem checkPreconditions_eq_none (method : String) (h : Headers) (etag : Text) :
    checkPreconditions method h etag = none ↔ ¬ Failed etag h := by
  rw [checkPreconditions, Failed]
  split_ifs with hmatch hnone hget
  · exact ⟨nofun, fun hno => absurd (.inl hmatch) hno⟩
  · exact ⟨nofun, fun hno => absurd (.inr hnone) hno⟩
  · exact ⟨nofun, fun hno => absurd (.inr hnone) hno⟩
  · exact iff_of_true rfl fun hor => hor.elim hmatch hnone

/-- The scanner ends on every header, a list of tags matches just those in it and a star whatever
exists, and a request goes through just when what it asks to match does and what it asks not to
match does not. -/
theorem preconditions_exact :
    (∀ (front : Text) (tags : List (Text × Text)) (etag : Text), Gap front →
      (∀ tag ∈ tags, Tag tag.1 ∧ Gap tag.2) → etag = [] ∨ Tag etag →
      (etagMatch etag (listed front tags) = true ↔ etag ∈ tags.map Prod.fst)) ∧
    (∀ etag : Text, etagMatch etag ['*'] = true ↔ etag ≠ []) ∧
    (∀ (etag header : Text) (n : ℕ), header.length < n →
      roundsOf etag n header = some (wholeLoop etag header)) ∧
    (∀ (method : String) (h : Headers) (etag : Text), checkPreconditions method h etag = none ↔
      (h.ifMatch ≠ [] → etagMatch etag h.ifMatch = true) ∧
        (h.ifNoneMatch ≠ [] → etagMatch etag h.ifNoneMatch = false)) := by
  refine ⟨fun _ _ _ => etagMatch_listed, etagMatch_single_star, fun etag header n hn => ?_,
    fun method h etag => ?_⟩
  · rw [roundsOf_eq etag hn, wholeLoop, matchLoop_enough etag hn (Nat.lt_succ_self _)]
  · rw [checkPreconditions_eq_none, Failed, not_or, not_and, not_and, Bool.not_eq_false,
      Bool.not_eq_true]

/-- A tag with a comma and a star in it, and a weak one. -/
theorem preconditions_exact_quoted :
    etagMatch "\"a,*\"".toList (listed ", ".toList [("\"a,*\"".toList, [' ', ','])]) = true ∧
      roundsOf [] 3 "W/".toList = some false := by
  obtain ⟨hlist, -, hends, -⟩ := preconditions_exact
  have htag : Tag "\"a,*\"".toList := .strong ['a', ',', '*'] (List.all_eq_true.1 (by decide))
  have hgap : Gap [' ', ','] := by decide
  refine ⟨(hlist _ _ _ (by decide) ?_ (.inr htag)).2 (by decide),
    (hends [] "W/".toList 3 (by decide)).trans (by decide)⟩
  intro tag hin
  rw [List.mem_singleton.1 hin]
  exact ⟨htag, hgap⟩

end Sozvon.Preconditions
