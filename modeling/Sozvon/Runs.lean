import Mathlib.Data.List.Basic

/-!
# Runs of a labelled transition system

A system is given by its initial states and an executable step: a label either
has no effect in a state because it is not enabled there (`none`), or leads to
exactly one successor. Nondeterminism is carried by the labels, so a schedule
is a list of labels and an interleaving is an order of them.

Reachability is relative to a guard on steps. With the guard `Always` it is
ordinary reachability; a stronger guard describes the runs whose steps all meet
a condition.
-/
namespace Sozvon.Runs

structure System (σ α : Type*) where
  init : σ → Prop
  step : σ → α → Option σ

variable {σ α : Type*}

/-- The guard that allows every step. -/
def Always : σ → α → Prop := fun _ _ => True

/-- States reached from an initial one by steps that all meet `ok`. -/
inductive Reachable (S : System σ α) (ok : σ → α → Prop) : σ → Prop
  | init {s : σ} : S.init s → Reachable S ok s
  | step {s t : σ} {a : α} : Reachable S ok s → ok s a → S.step s a = some t →
      Reachable S ok t

/-- What holds initially and is kept by every allowed step holds of every
reachable state. -/
theorem Reachable.invariant {S : System σ α} {ok : σ → α → Prop} {P : σ → Prop}
    (hinit : ∀ s, S.init s → P s)
    (hstep : ∀ s a t, P s → ok s a → S.step s a = some t → P t)
    {s : σ} (h : Reachable S ok s) : P s := by
  induction h with
  | init hs => exact hinit _ hs
  | step _ hok ht ih => exact hstep _ _ _ ih hok ht

theorem Reachable.mono {S : System σ α} {ok ok' : σ → α → Prop}
    (hle : ∀ s a, ok s a → ok' s a) {s : σ} (h : Reachable S ok s) :
    Reachable S ok' s := by
  induction h with
  | init hs => exact .init hs
  | step _ hok ht ih => exact .step ih (hle _ _ hok) ht

/-- Where each allowed step of `S` is, up to `R`, a step of `T` or none at all, whatever `S` reaches
is related to something that `T` reaches. -/
theorem Reachable.simulated {τ β : Type*} {S : System σ α} {T : System τ β} {ok : σ → α → Prop}
    {R : σ → τ → Prop} (hinit : ∀ s, S.init s → ∃ t, T.init t ∧ R s t)
    (hstep : ∀ s a s' t, R s t → ok s a → S.step s a = some s' →
      R s' t ∨ ∃ b t', T.step t b = some t' ∧ R s' t')
    {s : σ} (h : Reachable S ok s) : ∃ t, Reachable T Always t ∧ R s t := by
  induction h with
  | init hs =>
      obtain ⟨t, ht, hr⟩ := hinit _ hs
      exact ⟨t, .init ht, hr⟩
  | step _ hok hs ih =>
      obtain ⟨t, ht, hr⟩ := ih
      rcases hstep _ _ _ t hr hok hs with hr' | ⟨b, t', hb, hr'⟩
      · exact ⟨t, ht, hr'⟩
      · exact ⟨t', .step ht trivial hb, hr'⟩

/-- Run a list of labels in order; `none` if one of them is not allowed or not
enabled. -/
def System.exec (S : System σ α) (ok : σ → α → Prop) [∀ s a, Decidable (ok s a)] :
    σ → List α → Option σ
  | s, [] => some s
  | s, a :: as => if ok s a then (S.step s a).bind fun t => S.exec ok t as else none

/-- Every state along an executed schedule is reachable. -/
theorem Reachable.exec {S : System σ α} {ok : σ → α → Prop} [∀ s a, Decidable (ok s a)]
    {s t : σ} {as : List α} (hs : Reachable S ok s) (h : S.exec ok s as = some t) :
    Reachable S ok t := by
  induction as generalizing s with
  | nil =>
      simp only [System.exec, Option.some.injEq] at h
      exact h ▸ hs
  | cons a as ih =>
      rw [System.exec] at h
      split_ifs at h with hok
      cases hstep : S.step s a with
      | none => simp [hstep] at h
      | some u =>
          rw [hstep] at h
          exact ih (.step hs hok hstep) h

instance (s : σ) (a : α) : Decidable (Always s a) := inferInstanceAs (Decidable True)

/-- A predicate holds in every state that a schedule goes through, the first and
the last included. -/
def System.Throughout (S : System σ α) (P : σ → Prop) : σ → List α → Prop
  | s, [] => P s
  | s, a :: as => P s ∧ ∀ t, S.step s a = some t → S.Throughout P t as

theorem System.exec_always_cons {S : System σ α} {s t : σ} {a : α} {as : List α}
    (h : S.exec Always s (a :: as) = some t) :
    ∃ u, S.step s a = some u ∧ S.exec Always u as = some t :=
  Option.bind_eq_some_iff.mp ((if_pos trivial).symm.trans h)

/-- Where a guard says just which steps keep `P`, for states with the invariant `I`, a
schedule goes through states with `P` alone if and only if its steps meet the guard. -/
theorem System.throughout_iff_exec {S : System σ α} {ok : σ → α → Prop}
    [∀ s a, Decidable (ok s a)] {I P : σ → Prop}
    (hinv : ∀ s a t, I s → S.step s a = some t → I t)
    (hstep : ∀ s a t, I s → P s → S.step s a = some t → (P t ↔ ok s a))
    {s t : σ} {as : List α} (hI : I s) (hP : P s) (h : S.exec Always s as = some t) :
    S.Throughout P s as ↔ S.exec ok s as = some t := by
  induction as generalizing s with
  | nil => exact iff_of_true hP h
  | cons a as ih =>
      obtain ⟨u, hu, hrest⟩ := S.exec_always_cons h
      have hcons : S.Throughout P s (a :: as) ↔ S.Throughout P u as := by
        refine ⟨fun ht => ht.2 u hu, fun ht => ⟨hP, fun v hv => ?_⟩⟩
        exact Option.some.inj (hu.symm.trans hv) ▸ ht
      have hhead : ∀ {v : σ} {as : List α}, S.Throughout P v as → P v := by
        intro v as hv
        cases as with
        | nil => exact hv
        | cons _ _ => exact hv.1
      rw [hcons, System.exec]
      by_cases hok : ok s a
      · rw [if_pos hok, hu]
        exact ih (hinv s a u hI hu) ((hstep s a u hI hP hu).mpr hok) hrest
      · rw [if_neg hok]
        exact iff_of_false (fun ht => hok ((hstep s a u hI hP hu).mp (hhead ht))) nofun

end Sozvon.Runs
