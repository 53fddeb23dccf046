import Mathlib.Data.List.Nodup
import Mathlib.Data.List.Sublists

/-!
# Maps that remember the order of insertion

A finite map is the list of its entries, in the order in which their keys came.
A value put under a key that is there takes the place of the old one; a new key
comes last. What is in a map is read off `mem_entries`, which all operations
are described by.
-/
namespace Sozvon

structure OrderedMap (κ υ : Type*) where
  entries : List (κ × υ) := []
  nodup : (entries.map Prod.fst).Nodup := by exact List.nodup_nil

namespace OrderedMap

variable {κ υ : Type*} [DecidableEq κ]

section Definitions

def get (m : OrderedMap κ υ) (k : κ) : Option υ :=
  (m.entries.find? fun e => e.1 = k).map Prod.snd

def filter (m : OrderedMap κ υ) (p : κ × υ → Bool) : OrderedMap κ υ where
  entries := m.entries.filter p
  nodup := m.nodup.sublist (List.filter_sublist.map Prod.fst)

def delete (m : OrderedMap κ υ) (k : κ) : OrderedMap κ υ := m.filter fun e => e.1 ≠ k

/-- The entries with the value under one key replaced. -/
def replaced (k : κ) (v : υ) (e : κ × υ) : κ × υ := if e.1 = k then (k, v) else e

theorem fst_replaced (k : κ) (v : υ) (e : κ × υ) : (replaced k v e).1 = e.1 := by
  unfold replaced
  split_ifs with h
  · exact h.symm
  · rfl

def put (m : OrderedMap κ υ) (k : κ) (v : υ) : OrderedMap κ υ :=
  if h : k ∈ m.entries.map Prod.fst then {
    entries := m.entries.map (replaced k v)
    nodup := by
      have hkeys : Prod.fst ∘ replaced k v = (Prod.fst : κ × υ → κ) := funext (fst_replaced k v)
      rw [List.map_map, hkeys]
      exact m.nodup }
  else {
    entries := m.entries ++ [(k, v)]
    nodup := by
      rw [List.map_append, List.map_singleton]
      exact List.nodup_append_comm.mp (List.nodup_cons.mpr ⟨h, m.nodup⟩) }

end Definitions

variable {m : OrderedMap κ υ} {k k' : κ} {v : υ}

/-- A map has one value under a key. -/
theorem mem_entries : (k, v) ∈ m.entries ↔ m.get k = some v := by
  obtain ⟨entries, hnodup⟩ := m
  simp only [get]
  induction entries with
  | nil => simp
  | cons e es ih =>
      obtain ⟨hnot, hes⟩ := List.nodup_cons.mp hnodup
      rw [List.mem_cons, List.find?_cons]
      by_cases hk : e.1 = k
      · have hrest : (k, v) ∉ es := fun hmem => hnot (hk ▸ List.mem_map_of_mem hmem)
        rw [decide_eq_true hk, or_iff_left hrest, Option.map_some, Option.some.injEq, Prod.ext_iff,
          and_iff_right hk.symm, eq_comm]
      · rw [decide_eq_false hk, or_iff_right fun h => hk (congrArg Prod.fst h).symm]
        exact ih hes

theorem get_eq_none : m.get k = none ↔ ∀ v, (k, v) ∉ m.entries := by
  rw [Option.eq_none_iff_forall_ne_some]
  exact forall_congr' fun v => not_congr mem_entries.symm

theorem entries_eq_nil : m.entries = [] ↔ ∀ k, m.get k = none := by
  refine ⟨fun h k => ?_, fun h => List.eq_nil_iff_forall_not_mem.mpr fun e he => ?_⟩
  · rw [get, h]
    rfl
  · exact get_eq_none.mp (h e.1) e.2 he

theorem get_filter (p : κ × υ → Bool) :
    (m.filter p).get k = (m.get k).filter fun v => p (k, v) := by
  refine Option.ext fun v => ?_
  rw [← mem_entries, filter, List.mem_filter, mem_entries, Option.filter_eq_some_iff]

theorem get_delete : (m.delete k).get k' = if k' = k then none else m.get k' := by
  rw [delete, get_filter]
  split_ifs with h
  · rw [h]
    cases m.get k with
    | none => rfl
    | some v => simp
  · cases m.get k' with
    | none => rfl
    | some v => simp [h]

theorem get_put : (m.put k v).get k' = if k' = k then some v else m.get k' := by
  refine Option.ext fun w => ?_
  rw [← mem_entries, put]
  split
  · rename_i hmem
    rw [List.mem_map]
    split_ifs with hk
    · subst hk
      constructor
      · rintro ⟨e, -, he⟩
        have hfst : e.1 = k' := (fst_replaced k' v e).symm.trans (congrArg Prod.fst he)
        rw [replaced, if_pos hfst] at he
        exact congrArg some (congrArg Prod.snd he)
      · intro h
        cases h
        obtain ⟨e, he, hfst⟩ := List.mem_map.mp hmem
        exact ⟨e, he, if_pos hfst⟩
    · rw [← mem_entries]
      constructor
      · rintro ⟨e, he, heq⟩
        have hfst : e.1 = k' := (fst_replaced k v e).symm.trans (congrArg Prod.fst heq)
        rw [replaced, if_neg (hfst ▸ hk)] at heq
        exact heq ▸ he
      · intro h
        exact ⟨_, h, if_neg hk⟩
  · rename_i hmem
    rw [List.mem_append, List.mem_singleton, Prod.mk.injEq]
    split_ifs with hk
    · subst hk
      have hnot : (k', w) ∉ m.entries := fun h => hmem (List.mem_map_of_mem h)
      rw [or_iff_right hnot, and_iff_right rfl, Option.some.injEq, eq_comm]
    · rw [or_iff_left fun h => hk h.1, mem_entries]

theorem length_put {w : υ} (h : m.get k = some w) :
    (m.put k v).entries.length = m.entries.length := by
  have hmem : k ∈ m.entries.map Prod.fst := List.mem_map_of_mem (mem_entries.mpr h)
  rw [put, dif_pos hmem, List.length_map]

end OrderedMap

end Sozvon
