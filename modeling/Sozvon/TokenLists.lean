import Sozvon.TokenFailures
import Mathlib.Order.WithBot
import Mathlib.Order.RelClasses
import Mathlib.Data.Int.ConditionallyCompleteOrder
import Mathlib.Order.ConditionallyCompleteLattice.Basic

/-!
# Lists of tokens

`list` and `listSubtree` collect the tokens of a group, or of a group and those
below it, and leave them to `sortStateful`. A token that never expires is due
later than any other (`due`), and the lists are meant to be in that order; the
comparison has it earlier than any other (`rank`).
-/
namespace Sozvon.Token

/-- A group is below another whose name it continues at a slash. -/
def Below (group name : String) : Prop := (group ++ "/").toList <+: name.toList

instance (group name : String) : Decidable (Below group name) :=
  inferInstanceAs (Decidable (List.IsPrefix _ _))

def State.listSubtree (s : State) (fault : LoadFaults) (order : Order) (group : String) :
    State × Except Error (List Stateful × String) :=
  match s.load fault with
  | (s, .error e) => (s, .error e)
  | (s, .ok _) =>
      let front := (group ++ "/").toList
      let a := (State.values (s.tokens.getD ∅)).filter fun t =>
        t.group = group || front.isPrefixOf t.group.toList
      (s, .ok (order.sort a, s.etag))

/-- When a token expires, `⊤` for never. -/
def Stateful.due (t : Stateful) : WithTop ℤ := t.expires

/-- Where the comparison has it. -/
def Stateful.rank (t : Stateful) : WithBot ℤ := t.expires

/-- By ascending expiry, non-expiring last. -/
def Ascending (a : List Stateful) : Prop := a.Pairwise fun t u => t.due ≤ u.due

/-- Either all of them expire, or none. -/
def Unmixed (a : List Stateful) : Prop :=
  ∀ t ∈ a, ∀ u ∈ a, t.expires.isSome → u.expires.isSome

instance (a : List Stateful) : Decidable (Unmixed a) :=
  inferInstanceAs (Decidable (∀ t ∈ a, ∀ u ∈ a, _ → _))

theorem less_iff (t u : Stateful) : less t u = true ↔ t.rank < u.rank := by
  unfold less Stateful.rank
  cases u.expires with
  | none => exact iff_of_false Bool.false_ne_true not_lt_bot
  | some b =>
      cases t.expires with
      | none => exact iff_of_true rfl (WithBot.bot_lt_coe b)
      | some a => exact decide_eq_true_iff.trans WithBot.coe_lt_coe.symm

/-- No token is less than one before it. -/
theorem rank_sort (order : Order) (l : List Stateful) :
    (order.sort l).Pairwise fun t u => t.rank ≤ u.rank :=
  (order.sorted l).imp fun {t u} h => not_lt.mp fun hlt => by
    rw [(less_iff u t).mpr hlt] at h
    cases h

theorem due_le_iff {t u : Stateful} (h : t.expires.isSome ↔ u.expires.isSome) :
    t.due ≤ u.due ↔ t.rank ≤ u.rank := by
  unfold Stateful.due Stateful.rank
  cases ht : t.expires with
  | none =>
      have hu : u.expires = none := by
        rw [ht] at h
        exact Option.not_isSome_iff_eq_none.mp fun hsome => Bool.false_ne_true (h.mpr hsome)
      rw [hu]
      exact iff_of_true le_rfl le_rfl
  | some a =>
      obtain ⟨b, hu⟩ := Option.isSome_iff_exists.mp (h.mp (by rw [ht, Option.isSome_some]))
      rw [hu]
      exact WithTop.coe_le_coe.trans WithBot.coe_le_coe.symm

/-- The two orders disagree on a token that expires and one that never does. -/
theorem isSome_iff_of_le {t u : Stateful} (hdue : t.due ≤ u.due) (hrank : t.rank ≤ u.rank) :
    t.expires.isSome ↔ u.expires.isSome := by
  unfold Stateful.due Stateful.rank at *
  cases ht : t.expires with
  | none =>
      rw [ht] at hdue
      have hu : u.expires = none := WithTop.top_le_iff.mp hdue
      rw [hu]
  | some a =>
      rw [ht] at hrank
      obtain ⟨b, hu, -⟩ := WithBot.coe_le_iff.mp hrank
      rw [hu]
      exact iff_of_true rfl rfl

theorem ascending_sort_iff (order : Order) (l : List Stateful) :
    Ascending (order.sort l) ↔ Unmixed l := by
  have hmem := fun t => (order.perm l).mem_iff (a := t)
  constructor
  · intro h t ht u hu hsome
    let R (t u : Stateful) : Prop := t.expires.isSome ↔ u.expires.isSome
    have : Std.Symm R := ⟨fun _ _ => Iff.symm⟩
    have hsame : (order.sort l).Pairwise R :=
      (h.and (rank_sort order l)).imp fun hboth => isSome_iff_of_le hboth.1 hboth.2
    have hrefl : ∀ t ∈ order.sort l, R t t := fun _ _ => Iff.rfl
    exact (hsame.forall_of_forall hrefl ((hmem t).mpr ht) ((hmem u).mpr hu)).mp hsome
  · intro h
    refine (rank_sort order l).imp_of_mem fun {t u} ht hu hrank => ?_
    rw [hmem] at ht hu
    exact (due_le_iff ⟨h t ht u hu, h u hu t ht⟩).mpr hrank

theorem isStrictWeakOrder_less : IsStrictWeakOrder Stateful fun t u => less t u = true := by
  have hless : (fun t u => less t u = true) = Order.Preimage Stateful.rank (· < ·) :=
    funext₂ fun t u => propext (less_iff t u)
  have : IsStrictWeakOrder (WithBot ℤ) (· < ·) := isStrictWeakOrder_of_isOrderConnected
  rw [hless]
  infer_instance

/-- The tokens in memory once `load` is through. -/
def State.loaded (s : State) (fault : LoadFaults) : List Stateful :=
  State.values ((s.load fault).1.tokens.getD ∅)

/-- What `List` is to return. -/
def State.own (s : State) (fault : LoadFaults) (group : String) : List Stateful :=
  (s.loaded fault).filter fun t => t.group = group

/-- What `ListSubtree` is to return. -/
def State.subtree (s : State) (fault : LoadFaults) (group : String) : List Stateful :=
  (s.loaded fault).filter fun t => t.group = group ∨ Below group t.group

theorem list_eq_ok {s : State} {fault : LoadFaults} {order : Order} {group etag : String}
    {a : List Stateful} (h : (s.list fault order group false).2 = .ok (a, etag)) :
    a = order.sort (s.own fault group) := by
  unfold State.own State.loaded
  rw [State.list, if_neg fun hboth => Bool.false_ne_true hboth.2] at h
  rcases hload : s.load fault with ⟨t, _ | _⟩
  · rw [hload] at h
    cases h
  · rw [hload] at h
    simp only [Except.ok.injEq, Prod.mk.injEq, Bool.false_or] at h
    exact h.1.symm

theorem listSubtree_eq_ok {s : State} {fault : LoadFaults} {order : Order} {group etag : String}
    {a : List Stateful} (h : (s.listSubtree fault order group).2 = .ok (a, etag)) :
    a = order.sort (s.subtree fault group) := by
  unfold State.subtree State.loaded
  rw [State.listSubtree] at h
  rcases hload : s.load fault with ⟨t, _ | _⟩
  · rw [hload] at h
    cases h
  · rw [hload] at h
    simp only [Except.ok.injEq, Prod.mk.injEq] at h
    rw [← h.1]
    congr 2
    funext t
    rw [Bool.eq_iff_iff, Bool.or_eq_true, decide_eq_true_iff, List.isPrefixOf_iff_prefix,
      decide_eq_true_iff, Below]

/-- Just the matching tokens are listed, each once; they are in the order of their expiries if
and only if they do not include both one that expires and one that never does. -/
theorem ascending_list_iff (s : State) (fault : LoadFaults) (order : Order) (group : String) :
    IsStrictWeakOrder Stateful (fun t u => less t u = true) ∧
    (∀ a etag, (s.list fault order group false).2 = .ok (a, etag) →
      a.Perm (s.own fault group) ∧ (Ascending a ↔ Unmixed (s.own fault group))) ∧
    (∀ a etag, (s.listSubtree fault order group).2 = .ok (a, etag) →
      a.Perm (s.subtree fault group) ∧ (Ascending a ↔ Unmixed (s.subtree fault group))) := by
  refine ⟨isStrictWeakOrder_less, fun a etag h => ?_, fun a etag h => ?_⟩
  · rw [list_eq_ok h]
    exact ⟨order.perm _, ascending_sort_iff order _⟩
  · rw [listSubtree_eq_ok h]
    exact ⟨order.perm _, ascending_sort_iff order _⟩

section Samples

/-- A link that expires, of a room below. -/
def link : Stateful := { token := "def", group := "room/client", expires := some 5 }

def shortLived : Stateful := { token := "ghi", group := "room", expires := some 7 }

def longLived : Stateful := { link with token := "jkl", expires := some 9 }

/-- A store of the invitation, which never expires, and of others that do. -/
def mixed : State :=
  { filename := "tokens.jsonl"
    disk := some (.ofTokens plain [invitation, longLived, link, shortLived] 1) }

theorem subtree_mixed : mixed.subtree {} "room/client" = [link, longLived] := by decide

theorem ascending_mixed : ∃ a etag,
    (mixed.listSubtree {} byExpiry "room/client").2 = .ok (a, etag) ∧
    a.Perm [link, longLived] ∧ Ascending a := by
  refine ⟨_, _, rfl, ?_⟩
  have h := (ascending_list_iff mixed {} byExpiry "room/client").2.2 _ _ rfl
  rw [subtree_mixed] at h
  exact ⟨h.1, h.2.mpr (by decide)⟩

/-- The invitation is listed before the link. -/
theorem not_ascending : ¬ ∀ (s : State) (fault : LoadFaults) (order : Order) (group : String)
    (a : List Stateful) (etag : String), (s.list fault order group false).2 = .ok (a, etag) →
    a.Perm (s.own fault group) ∧ Ascending a := by
  intro h
  have hroom : mixed.own {} "room" = [shortLived, invitation] := by decide
  have hlist := (h mixed {} byExpiry "room" _ _ rfl).2
  have hall := (ascending_sort_iff byExpiry (mixed.own {} "room")).mp hlist
  rw [hroom] at hall
  exact absurd hall (by decide)

end Samples

end Sozvon.Token
