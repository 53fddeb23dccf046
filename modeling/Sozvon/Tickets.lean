import Mathlib.Data.List.Count

/-!
# Tickets

Events of a log, the latest first, hand tickets out, take them and make them
void. At most one ticket is out at a time: handing one out again does not make
it two. What needs a ticket is `Backed` where each time one was out, and then
it happens at most as often as tickets are handed out.
-/
namespace Sozvon.Tickets

/-- What an event does to the ticket. -/
structure Desk (α : Type*) where
  grants : α → Prop
  takes : α → Prop
  voids : α → Prop

variable {α : Type*} (D : Desk α)

/-- A ticket was handed out, and has been neither taken nor made void since. -/
inductive Desk.Out : List α → Prop
  | granted {e : α} {past : List α} : D.grants e → Desk.Out (e :: past)
  | kept {e : α} {past : List α} : ¬ D.takes e → ¬ D.voids e → Desk.Out past →
      Desk.Out (e :: past)

/-- Every event in `uses` came when a ticket was out. -/
inductive Desk.Backed (uses : α → Prop) : List α → Prop
  | nil : Desk.Backed uses []
  | cons {e : α} {past : List α} : (uses e → D.Out past) → Desk.Backed uses past →
      Desk.Backed uses (e :: past)

variable {D} {uses : α → Prop} {e : α} {log past : List α}

variable [DecidablePred D.grants] [DecidablePred uses]

/-- As many are used as are handed out at most, and one less while one is out. -/
theorem Desk.Backed.countP_le_of_out (htakes : ∀ e, uses e → D.takes e)
    (hgrants : ∀ e, uses e → ¬ D.grants e) (h : D.Backed uses log) :
    log.countP uses ≤ log.countP D.grants ∧
      (D.Out log → log.countP uses < log.countP D.grants) := by
  induction h with
  | nil => exact ⟨Nat.le_refl _, nofun⟩
  | @cons e past hout _ ih =>
      rw [List.countP_cons, List.countP_cons]
      by_cases huse : uses e
      · have hlt := ih.2 (hout huse)
        have hnew := hgrants e huse
        simp only [huse, hnew, decide_true, decide_false, if_true, Bool.false_eq_true, if_false]
        refine ⟨hlt, ?_⟩
        rintro (hgranted | ⟨hkept, -, -⟩)
        · exact absurd hgranted hnew
        · exact absurd (htakes e huse) hkept
      · by_cases hgrant : D.grants e
        · simp only [huse, hgrant, decide_true, decide_false, if_true, Bool.false_eq_true, if_false]
          exact ⟨Nat.le_succ_of_le ih.1, fun _ => Nat.lt_succ_of_le ih.1⟩
        · simp only [huse, hgrant, decide_false, Bool.false_eq_true, if_false]
          refine ⟨ih.1, ?_⟩
          rintro (hgranted | ⟨-, -, hpast⟩)
          · exact absurd hgranted hgrant
          · exact ih.2 hpast

theorem Desk.Backed.countP_le (htakes : ∀ e, uses e → D.takes e)
    (hgrants : ∀ e, uses e → ¬ D.grants e) (h : D.Backed uses log) :
    log.countP uses ≤ log.countP D.grants :=
  (h.countP_le_of_out htakes hgrants).1

end Sozvon.Tickets
