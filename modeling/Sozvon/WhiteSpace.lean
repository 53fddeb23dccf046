import Mathlib.Data.List.Chain
import Mathlib.Data.List.DropRight
import Mathlib.Data.List.TakeWhile
import Mathlib.Algebra.GroupWithZero.Nat

/-!
# White space in lists

Which elements are white space is a parameter.
-/
namespace Sozvon.WhiteSpace

section Definitions

variable {α : Type*} (p : α → Bool)

/-- Without the white space at both ends. -/
def trim (l : List α) : List α := (l.dropWhile p).rdropWhile p

/-- Each run of white space becomes one `sp`, for which the last of the run stands. -/
def collapse (sp : α) : List α → List α
  | [] => []
  | a :: rest =>
      if p a then if rest.head?.any p then collapse sp rest else sp :: collapse sp rest
      else a :: collapse sp rest

/-- The runs of what is not white space. -/
def words : List α → List (List α)
  | [] => []
  | a :: rest =>
      if p a then words rest
      else if rest.head?.any fun b => !p b then (words rest).modifyHead (a :: ·)
      else [a] :: words rest

/-- Words with one `sp` between each two. -/
def joined (sp : α) : List (List α) → List α
  | [] => []
  | [w] => w
  | w :: ws => w ++ sp :: joined sp ws

/-- There is none at either end. -/
structure Trimmed (l : List α) : Prop where
  head : ∀ a ∈ l.head?, ¬ p a
  last : ∀ a ∈ l.getLast?, ¬ p a

/-- There is no other than `sp`, and never two in a row. -/
structure Collapsed (sp : α) (l : List α) : Prop where
  only : ∀ a ∈ l, p a → a = sp
  single : l.IsChain fun a b => ¬ (p a ∧ p b)

end Definitions

section Theorems

variable {α : Type*} {p : α → Bool} {sp : α} {l : List α}

theorem trim_isInfix (l : List α) : trim p l <:+: l := by
  obtain ⟨front, hfront⟩ := List.dropWhile_suffix (l := l) p
  obtain ⟨back, hback⟩ : trim p l <+: l.dropWhile p := List.rdropWhile_prefix p _
  exact ⟨front, back, by rw [List.append_assoc, hback, hfront]⟩

theorem mem_of_mem_trim {a : α} (h : a ∈ trim p l) : a ∈ l := (trim_isInfix l).subset h

theorem trim_trimmed (l : List α) : Trimmed p (trim p l) := by
  constructor
  · intro a ha
    obtain ⟨rest, hrest⟩ : trim p l <+: l.dropWhile p := List.rdropWhile_prefix p _
    have hhead : a ∈ (l.dropWhile p).head? := by
      rw [← hrest, List.head?_append, ha]
      rfl
    have hnot := List.head?_dropWhile_not p l
    rw [hhead] at hnot
    simpa using hnot
  · intro a ha
    obtain ⟨hne, rfl⟩ := List.mem_getLast?_eq_getLast ha
    exact List.rdropWhile_last_not p _ hne

theorem dropWhile_of_head (h : ∀ a ∈ l.head?, ¬ p a) : l.dropWhile p = l := by
  cases l with
  | nil => rfl
  | cons a rest => exact List.dropWhile_cons_of_neg (h a rfl)

theorem trim_of_head (h : ∀ a ∈ l.head?, ¬ p a) : trim p l = l.rdropWhile p := by
  rw [trim, dropWhile_of_head h]

theorem trim_of_trimmed (h : Trimmed p l) : trim p l = l := by
  rw [trim_of_head h.head, List.rdropWhile_eq_self_iff]
  exact fun hne => h.last _ (List.getLast?_eq_some_getLast hne)

theorem collapse_head (sp : α) (hsp : p sp) (l : List α) :
    (collapse p sp l).head?.any p = l.head?.any p := by
  induction l with
  | nil => rfl
  | cons a rest ih =>
      rw [collapse]
      split_ifs with ha hrest
      · rw [ih, hrest]
        exact ha.symm
      · exact hsp.trans ha.symm
      · rfl

theorem mem_of_mem_collapse {a : α} (h : a ∈ collapse p sp l) : a ∈ l ∨ a = sp := by
  induction l with
  | nil => exact .inl h
  | cons b rest ih =>
      rw [collapse] at h
      split_ifs at h
      · exact (ih h).imp_left (List.mem_cons_of_mem _)
      · rcases List.mem_cons.1 h with rfl | h
        · exact .inr rfl
        · exact (ih h).imp_left (List.mem_cons_of_mem _)
      · rcases List.mem_cons.1 h with rfl | h
        · exact .inl (List.mem_cons_self ..)
        · exact (ih h).imp_left (List.mem_cons_of_mem _)

/-- Collapsing leaves single spaces. -/
theorem collapse_collapsed (hsp : p sp) (l : List α) : Collapsed p sp (collapse p sp l) := by
  induction l with
  | nil => exact ⟨nofun, List.isChain_nil⟩
  | cons a rest ih =>
      rw [collapse]
      split_ifs with ha hrest
      · exact ih
      · refine ⟨fun b hb hp => ?_, List.isChain_cons.2 ⟨fun b hb hboth => ?_, ih.single⟩⟩
        · rcases List.mem_cons.1 hb with rfl | hb
          · rfl
          · exact ih.only b hb hp
        · rw [← collapse_head sp hsp, hb] at hrest
          exact hrest hboth.2
      · refine ⟨fun b hb hp => ?_, List.isChain_cons.2 ⟨fun b _ hboth => ha hboth.1, ih.single⟩⟩
        rcases List.mem_cons.1 hb with rfl | hb
        · exact absurd hp ha
        · exact ih.only b hb hp

theorem collapse_of_collapsed (h : Collapsed p sp l) : collapse p sp l = l := by
  induction l with
  | nil => rfl
  | cons a rest ih =>
      obtain ⟨hhead, hchain⟩ := List.isChain_cons.1 h.single
      have hrest : collapse p sp rest = rest :=
        ih ⟨fun b hb => h.only b (List.mem_cons_of_mem _ hb), hchain⟩
      rw [collapse, hrest]
      split_ifs with ha hnext
      · cases hb : rest.head? with
        | none => rw [hb] at hnext; cases hnext
        | some b =>
            rw [hb] at hnext
            exact absurd ⟨ha, hnext⟩ (hhead b hb)
      · rw [h.only a (List.mem_cons_self ..) ha]
      · rfl

theorem Collapsed.part {m : List α} (h : Collapsed p sp l) (hm : m <:+: l) : Collapsed p sp m :=
  ⟨fun a ha => h.only a (hm.subset ha), List.IsChain.infix h.single hm⟩

/-- Of single spaces at most one is trimmed at the end. -/
theorem trim_concat_of_collapsed {a : α} (h : Collapsed p sp (l ++ [a])) (ha : p a)
    (hhead : ∀ b ∈ (l ++ [a]).head?, ¬ p b) : trim p (l ++ [a]) = l := by
  rw [trim_of_head hhead, List.rdropWhile_concat_pos p l a ha, List.rdropWhile_eq_self_iff]
  intro hne hlast
  have hchain := (List.isChain_append.1 h.single).2.2 (l.getLast hne)
    (List.getLast?_eq_some_getLast hne) a rfl
  exact hchain ⟨hlast, ha⟩

theorem rdropWhile_cons (a : α) (l : List α) :
    (a :: l).rdropWhile p =
      if p a ∧ l.rdropWhile p = [] then [] else a :: l.rdropWhile p := by
  induction l using List.reverseRecOn with
  | nil =>
      rw [List.rdropWhile_singleton, List.rdropWhile_nil]
      simp
  | append_singleton l b ih =>
      rw [← List.cons_append]
      by_cases hb : p b
      · rw [List.rdropWhile_concat_pos p _ _ hb, List.rdropWhile_concat_pos p _ _ hb, ih]
      · rw [List.rdropWhile_concat_neg p _ _ hb, List.rdropWhile_concat_neg p _ _ hb]
        simp

theorem takeWhile_append_cons {a : α} (ha : ¬ p a) (l m : List α) :
    (l ++ a :: m).takeWhile p = l.takeWhile p := by
  induction l with
  | nil => exact List.takeWhile_cons_of_neg ha
  | cons b l ih =>
      rw [List.cons_append]
      by_cases hb : p b
      · rw [List.takeWhile_cons_of_pos hb, List.takeWhile_cons_of_pos hb, ih]
      · rw [List.takeWhile_cons_of_neg hb, List.takeWhile_cons_of_neg hb]

theorem rdropWhile_append_cons {a : α} (ha : ¬ p a) (l m : List α) :
    (l ++ a :: m).rdropWhile p = l ++ a :: m.rdropWhile p := by
  induction l with
  | nil => rw [List.nil_append, rdropWhile_cons, if_neg fun h => ha h.1, List.nil_append]
  | cons b l ih =>
      rw [List.cons_append, rdropWhile_cons, ih,
        if_neg fun h => List.append_ne_nil_of_right_ne_nil _ (List.cons_ne_nil _ _) h.2]
      rfl

theorem trim_append_cons {a : α} (ha : ¬ p a) (l m : List α) :
    trim p (l ++ a :: m) = l.dropWhile p ++ a :: m.rdropWhile p := by
  rw [trim, List.dropWhile_append]
  split_ifs with hnil
  · rw [List.isEmpty_iff.1 hnil, List.dropWhile_cons_of_neg ha]
    exact rdropWhile_append_cons ha [] m
  · exact rdropWhile_append_cons ha _ m

/-- The ends may be trimmed in either order. -/
theorem trim_eq (l : List α) : trim p l = (l.rdropWhile p).dropWhile p := by
  rw [trim]
  induction l with
  | nil => rfl
  | cons a rest ih =>
      rw [rdropWhile_cons]
      by_cases ha : p a
      · rw [List.dropWhile_cons_of_pos ha, ih]
        split_ifs with hempty
        · rw [hempty.2]
        · exact (List.dropWhile_cons_of_pos ha).symm
      · rw [List.dropWhile_cons_of_neg ha, rdropWhile_cons, if_neg fun h => ha h.1,
          List.dropWhile_cons_of_neg ha]

theorem words_cons_of_pos {a : α} (ha : p a) (l : List α) : words p (a :: l) = words p l := by
  rw [words, if_pos ha]

theorem words_cons_of_neg {a : α} (ha : ¬ p a) (l : List α) :
    words p (a :: l) =
      if l.head?.any fun b => !p b then (words p l).modifyHead (a :: ·) else [a] :: words p l := by
  rw [words, if_neg ha]

theorem words_ne_nil (h : l.head?.any fun b => !p b) : words p l ≠ [] := by
  induction l with
  | nil => cases h
  | cons a rest ih =>
      have ha : ¬ p a := by simpa using h
      rw [words, if_neg ha]
      split_ifs with hnext
      · cases hw : words p rest with
        | nil => exact absurd hw (ih hnext)
        | cons w ws => exact List.cons_ne_nil _ _
      · exact List.cons_ne_nil _ _

theorem joined_cons (sp : α) (w : List α) {ws : List (List α)} (h : ws ≠ []) :
    joined sp (w :: ws) = w ++ sp :: joined sp ws := by
  cases ws with
  | nil => exact absurd rfl h
  | cons => rfl

theorem joined_modifyHead (sp a : α) {ws : List (List α)} (h : ws ≠ []) :
    joined sp (ws.modifyHead (a :: ·)) = a :: joined sp ws := by
  match ws with
  | [] => exact absurd rfl h
  | [w] => rfl
  | w :: w' :: ws => rfl

/-- Up to a space in front what is collapsed are the words. -/
theorem rdropWhile_collapse (hsp : p sp) (l : List α) :
    (collapse p sp l).rdropWhile p =
      (if l.head?.any p ∧ words p l ≠ [] then [sp] else []) ++ joined sp (words p l) := by
  induction l with
  | nil => rfl
  | cons a rest ih =>
      cases rest with
      | nil => by_cases ha : p a <;> simp [collapse, words, joined, List.rdropWhile_singleton, ha, hsp]
      | cons b rest =>
          have hlead : ∀ c : α, ∀ r, (c :: r).head?.any p = p c := fun _ _ => rfl
          have hother : ∀ c : α, ∀ r, ((c :: r).head?.any fun d => !p d) = !p c := fun _ _ => rfl
          by_cases ha : p a
          · by_cases hb : p b
            · rw [collapse, if_pos ha, if_pos (by rw [hlead, hb]), words_cons_of_pos ha, ih]
              simp only [hlead, ha, hb]
            · have hwords : words p (b :: rest) ≠ [] := words_ne_nil (by rw [hother]; simpa using hb)
              have hne : (collapse p sp (b :: rest)).rdropWhile p ≠ [] := by
                rw [collapse, if_neg hb, rdropWhile_cons, if_neg fun h => hb h.1]
                exact List.cons_ne_nil _ _
              rw [collapse, if_pos ha, if_neg (by rw [hlead]; exact hb), rdropWhile_cons,
                if_neg fun h => hne h.2, ih, words_cons_of_pos ha,
                if_neg (by rw [hlead]; exact fun h => hb h.1), if_pos ⟨by rw [hlead, ha], hwords⟩]
              rfl
          · have hfront : ¬ ((a :: b :: rest).head?.any p = true ∧ words p (a :: b :: rest) ≠ []) :=
              fun h => ha h.1
            rw [collapse, if_neg ha, rdropWhile_cons, if_neg fun h => ha h.1, ih, if_neg hfront,
              words_cons_of_neg ha]
            by_cases hb : p b
            · have hother' : ¬ ((b :: rest).head?.any fun d => !p d) = true := by
                rw [hother, hb]
                decide
              by_cases hwords : words p (b :: rest) = []
              · rw [if_neg fun h => h.2 hwords, if_neg hother', hwords]
                rfl
              · rw [if_pos ⟨by rw [hlead, hb], hwords⟩, if_neg hother', joined_cons sp [a] hwords]
                rfl
            · have hother' : ((b :: rest).head?.any fun d => !p d) = true := by
                rw [hother]
                simpa using hb
              rw [if_neg (by rw [hlead]; exact fun h => hb h.1), if_pos hother',
                joined_modifyHead sp a (words_ne_nil hother')]
              rfl

theorem not_of_mem_words {w : List α} (h : w ∈ words p l) : w ≠ [] ∧ ∀ a ∈ w, a ∈ l ∧ ¬ p a := by
  induction l generalizing w with
  | nil => cases h
  | cons a rest ih =>
      rw [words] at h
      have hrest : ∀ w ∈ words p rest, w ≠ [] ∧ ∀ b ∈ w, b ∈ a :: rest ∧ ¬ p b := fun w hw =>
        ⟨(ih hw).1, fun b hb => ⟨List.mem_cons_of_mem _ ((ih hw).2 b hb).1, ((ih hw).2 b hb).2⟩⟩
      split_ifs at h with ha hnext
      · exact hrest w h
      · cases hw : words p rest with
        | nil => rw [hw] at h; cases h
        | cons v ws =>
            rw [hw] at h hrest
            rcases List.mem_cons.1 h with rfl | h
            · refine ⟨List.cons_ne_nil _ _, fun b hb => ?_⟩
              rcases List.mem_cons.1 hb with rfl | hb
              · exact ⟨List.mem_cons_self .., ha⟩
              · exact (hrest v (List.mem_cons_self ..)).2 b hb
            · exact hrest w (List.mem_cons_of_mem _ h)
      · rcases List.mem_cons.1 h with rfl | h
        · refine ⟨List.cons_ne_nil _ _, fun b hb => ?_⟩
          rw [List.mem_singleton.1 hb]
          exact ⟨List.mem_cons_self .., ha⟩
        · exact hrest w h

theorem joined_head {ws : List (List α)} (h : ∀ w ∈ ws, w ≠ [] ∧ ∀ a ∈ w, ¬ p a) :
    ∀ a ∈ (joined sp ws).head?, ¬ p a := by
  match ws with
  | [] => exact nofun
  | [w] =>
      intro a ha
      exact (h w (List.mem_cons_self ..)).2 a (List.mem_of_mem_head? ha)
  | w :: w' :: ws =>
      intro a ha
      obtain ⟨hne, hno⟩ := h w (List.mem_cons_self ..)
      rw [joined_cons sp w (List.cons_ne_nil _ _), List.head?_append_of_ne_nil _ hne] at ha
      exact hno a (List.mem_of_mem_head? ha)

/-- Collapsed and trimmed, a text is its words. -/
theorem trim_collapse (hsp : p sp) (l : List α) :
    trim p (collapse p sp l) = joined sp (words p l) := by
  have hhead : ∀ a ∈ (joined sp (words p l)).head?, ¬ p a :=
    joined_head fun w hw => ⟨(not_of_mem_words hw).1, fun a ha => ((not_of_mem_words hw).2 a ha).2⟩
  rw [trim_eq, rdropWhile_collapse hsp]
  split_ifs
  · exact (List.dropWhile_cons_of_pos hsp).trans (dropWhile_of_head hhead)
  · exact dropWhile_of_head hhead

/-- Where a space stands in joined words, some of them end and another follows. -/
theorem joined_getElem?_eq_some {ws : List (List α)} (hsp : p sp) (h : ∀ w ∈ ws, ∀ a ∈ w, ¬ p a)
    (n : ℕ) : (joined sp ws)[n]? = some sp ↔
      ∃ k, 0 < k ∧ k < ws.length ∧ ((ws.take k).map List.length).sum + (k - 1) = n := by
  induction ws generalizing n with
  | nil => exact ⟨nofun, fun ⟨k, _, hk, _⟩ => absurd hk (Nat.not_lt_zero k)⟩
  | cons w ws ih =>
      have hword : ∀ m, w[m]? ≠ some sp := fun m hm =>
        h w (List.mem_cons_self ..) sp (List.mem_of_getElem? hm) hsp
      by_cases hws : ws = []
      · subst hws
        refine ⟨fun hn => absurd hn (hword n), fun ⟨k, hpos, hk, _⟩ => ?_⟩
        rw [List.length_singleton] at hk
        omega
      rw [joined_cons sp w hws, List.getElem?_append]
      have hlength := List.length_pos_iff.2 hws
      have hstep : ∀ k, ((List.take (k + 1) (w :: ws)).map List.length).sum =
          w.length + ((ws.take k).map List.length).sum := fun _ => rfl
      split_ifs with hn
      · refine ⟨fun hin => absurd hin (hword n), fun ⟨k, hpos, hk, hsum⟩ => ?_⟩
        obtain ⟨j, rfl⟩ : ∃ j, k = j + 1 := ⟨k - 1, by omega⟩
        rw [hstep] at hsum
        omega
      · obtain ⟨m, rfl⟩ : ∃ m, n = w.length + m := ⟨n - w.length, by omega⟩
        rw [Nat.add_sub_cancel_left]
        cases m with
        | zero =>
            refine ⟨fun _ => ⟨1, by decide, ?_, ?_⟩, fun _ => rfl⟩
            · rw [List.length_cons]
              omega
            · rw [hstep]
              rfl
        | succ m =>
            rw [List.getElem?_cons_succ, ih fun v hv => h v (List.mem_cons_of_mem _ hv)]
            constructor
            · rintro ⟨k, hpos, hk, hsum⟩
              refine ⟨k + 1, by omega, by rw [List.length_cons]; omega, ?_⟩
              rw [hstep]
              omega
            · rintro ⟨k, hpos, hk, hsum⟩
              obtain ⟨j, rfl⟩ : ∃ j, k = j + 1 := ⟨k - 1, by omega⟩
              rw [hstep] at hsum
              rw [List.length_cons] at hk
              have hj : 0 < j := by
                by_contra hzero
                obtain rfl : j = 0 := by omega
                rw [List.take_zero] at hsum
                simp at hsum
              exact ⟨j, hj, by omega, by omega⟩

end Theorems

end Sozvon.WhiteSpace
