import Sozvon.TokenRuns

/-!
# What the store holds

Whatever fails, an operation of the store only moves tokens between memory and the
file, and brings in the one that it is given.
-/
namespace Sozvon.Token

/-- Tokens that all have a property, filed under their names. -/
def Filed (P : Stateful → Prop) (ts : Tokens) : Prop :=
  ∀ token t, ts.lookup token = some t → t.token = token ∧ P t

/-- In memory and in the file there are such tokens only. -/
structure State.HoldsOnly (P : Stateful → Prop) (s : State) : Prop where
  tokens : ∀ ts ∈ s.tokens, Filed P ts
  disk : ∀ f ∈ s.disk, Filed P f.read

section Tokens
variable {P Q : Stateful → Prop} {ts ts' : Tokens} {t : Stateful}

theorem filed_empty : Filed P ∅ := fun _ _ h => by cases h

theorem Filed.mono (h : Filed P ts) (hle : ∀ t, P t → Q t) : Filed Q ts :=
  fun token t ht => ⟨(h token t ht).1, hle t (h token t ht).2⟩

theorem Filed.insert (h : Filed P ts) (ht : P t) : Filed P (ts.insert t.token t) := by
  intro token t' hlookup
  by_cases hk : token = t.token
  · subst hk
    rw [AList.lookup_insert] at hlookup
    cases hlookup
    exact ⟨rfl, ht⟩
  · rw [AList.lookup_insert_ne hk] at hlookup
    exact h token t' hlookup

theorem Filed.erase (h : Filed P ts) (token : String) : Filed P (ts.erase token) := by
  intro name t' hlookup
  by_cases hk : name = token
  · subst hk
    rw [AList.lookup_erase] at hlookup
    cases hlookup
  · rw [AList.lookup_erase_ne hk] at hlookup
    exact h name t' hlookup

theorem Filed.getD {o : Option Tokens} (h : ∀ ts ∈ o, Filed P ts) : Filed P (o.getD ∅) := by
  cases o with
  | none => exact filed_empty
  | some ts => exact h ts rfl

theorem filed_foldl (a : List Stateful) (hts : Filed P ts) (ha : ∀ t ∈ a, P t) :
    Filed P (a.foldl (fun ts t => ts.insert t.token t) ts) := by
  induction a generalizing ts with
  | nil => exact hts
  | cons t a ih =>
      exact ih (hts.insert (ha t (List.mem_cons_self ..))) fun t' ht' =>
        ha t' (List.mem_cons_of_mem _ ht')

/-- A file of tokens that there were in memory. -/
theorem filed_ofTokens {E : Encoding} {a : List Stateful} {m : ℤ} (h : Filed P ts)
    (ha : ∀ t ∈ a, t ∈ State.values ts) : Filed P (File.ofTokens E a m).read := by
  refine filed_foldl a filed_empty fun t ht => ?_
  obtain ⟨token, hlookup⟩ := mem_values.mp (ha t ht)
  exact (h token t hlookup).2

theorem filed_append {E : Encoding} {f : File} {k : ℕ} {m : ℤ} (h : Filed P f.read) (ht : P t) :
    Filed P (f.append E t k m).read := by
  unfold File.append
  split
  · exact h
  · simp only [File.read]
    split
    · rw [List.foldl_append]
      exact Filed.insert h ht
    · exact h

end Tokens

namespace State

variable {P : Stateful → Prop} {s : State} {E : Encoding} {c : Choices}

theorem HoldsOnly.mono {Q : Stateful → Prop} (h : s.HoldsOnly P) (hle : ∀ t, P t → Q t) : s.HoldsOnly Q :=
  ⟨fun ts hts => (h.tokens ts hts).mono hle, fun f hf => (h.disk f hf).mono hle⟩

theorem HoldsOnly.of_none (hdisk : ∀ f ∈ s.disk, Filed P f.read) (h : s.tokens = none) : s.HoldsOnly P :=
  ⟨fun ts hts => (by rw [h] at hts; cases hts), hdisk⟩

theorem HoldsOnly.reset (h : s.HoldsOnly P) : s.reset.HoldsOnly P := .of_none h.disk rfl

theorem HoldsOnly.load (h : s.HoldsOnly P) (fault : LoadFaults) : (s.load fault).1.HoldsOnly P := by
  unfold State.load
  split
  · exact h.reset
  split
  · exact h.reset
  split
  · exact h.reset
  rename_i f hf
  split
  · exact h
  split
  · exact h.reset
  split
  · exact h.reset
  split
  · exact h.reset
  split
  · exact h.reset
  exact ⟨fun ts hts => (by cases hts; exact h.disk f hf), h.disk⟩

theorem HoldsOnly.get (h : s.HoldsOnly P) (fault : LoadFaults) (token : String) :
    (s.get fault token).1.HoldsOnly P ∧
      ∀ t etag, (s.get fault token).2 = .ok (t, etag) → t.token = token ∧ P t := by
  have hload := h.load fault
  unfold State.get
  split
  · rename_i s' e hs
    rw [hs] at hload
    exact ⟨hload, fun _ _ h => by cases h⟩
  · rename_i s' etag hs
    rw [hs] at hload
    split
    · exact ⟨hload, fun _ _ h => by cases h⟩
    · rename_i t ht
      refine ⟨hload, fun t' etag' heq => ?_⟩
      cases heq
      exact Filed.getD hload.tokens token t ht

theorem HoldsOnly.list (h : s.HoldsOnly P) (fault : LoadFaults) (order : Order) (group : String)
    (all : Bool) : (s.list fault order group all).1.HoldsOnly P ∧
      ∀ a etag, (s.list fault order group all).2 = .ok (a, etag) →
        ∀ t ∈ a, t ∈ values ((s.list fault order group all).1.tokens.getD ∅) := by
  have hload := h.load fault
  unfold State.list
  split
  · exact ⟨h, fun _ _ h => by cases h⟩
  split
  · rename_i s' e hs
    rw [hs] at hload
    exact ⟨hload, fun _ _ h => by cases h⟩
  · rename_i s' etag hs
    rw [hs] at hload
    refine ⟨hload, fun a etag' heq t ht => ?_⟩
    cases heq
    exact (List.mem_filter.mp ((order.perm _).mem_iff.mp ht)).1

theorem HoldsOnly.rewrite (h : s.HoldsOnly P) : (s.rewrite E c).1.HoldsOnly P := by
  obtain ⟨hlist, hvalues⟩ := h.list c.list c.order "" true
  unfold State.rewrite
  split
  · split
    · exact h
    · exact ⟨h.tokens, fun f hf => by cases hf⟩
  split
  · exact h
  split
  · rename_i s' e hs
    rw [hs] at hlist
    exact hlist
  · rename_i s' a etag hs
    rw [hs] at hlist hvalues
    have hfile : Filed P (File.ofTokens E a c.modTime).read :=
      filed_ofTokens (Filed.getD hlist.tokens) (hvalues a etag rfl)
    split
    · exact hlist
    split
    · exact .of_none (fun f hf => by cases hf; exact hfile) rfl
    · exact ⟨hlist.tokens, fun f hf => by cases hf; exact hfile⟩

theorem HoldsOnly.add (h : s.HoldsOnly P) {t : Stateful} (ht : P t) : (s.add E c t).1.HoldsOnly P := by
  have hdisk : Filed P (s.disk.getD (.created c.modTime)).read := by
    cases hd : s.disk with
    | none => exact filed_empty
    | some f => exact h.disk f hd
  unfold State.add
  split
  · exact h
  split
  · exact ⟨h.tokens, fun f hf => by cases hf; exact filed_append hdisk ht⟩
  · split
    · exact .of_none (fun f hf => by cases hf; exact filed_append hdisk ht) rfl
    · exact ⟨fun ts hts => (by cases hts; exact (Filed.getD h.tokens).insert ht),
        fun f hf => by cases hf; exact filed_append hdisk ht⟩

theorem HoldsOnly.finish {token : String} {old a : Stateful} {r : State × Except Error Unit}
    (h : r.1.HoldsOnly P) (hold : old.token = token ∧ P old) :
    (State.finish token old a r).1.HoldsOnly P := by
  obtain ⟨s, e | _⟩ := r
  · simp only [State.finish, State.putBack]
    split
    · exact h
    · rename_i ts hts
      refine ⟨fun ts' hts' => ?_, h.disk⟩
      cases hts'
      rw [← hold.1]
      exact (h.tokens ts hts).insert hold.2
  · exact h

/-- An update brings in the token that it is given. -/
theorem HoldsOnly.update (h : s.HoldsOnly P) {t : Stateful} (ht : P t) (etag : String) :
    (s.update E c t etag).1.HoldsOnly P := by
  have hload := h.load c.load
  unfold State.update
  split
  · exact h
  split
  · rename_i s' e hs
    rw [hs] at hload
    exact hload
  · rename_i s' etag' hs
    rw [hs] at hload
    have hts : Filed P (s'.tokens.getD ∅) := Filed.getD hload.tokens
    have hfilled : ({ s' with tokens := some (s'.tokens.getD ∅) } : State).HoldsOnly P :=
      ⟨fun ts hts' => (by cases hts'; exact hts), hload.disk⟩
    dsimp only
    split
    · rename_i old hold
      split
      · exact hfilled
      · have hinserted : ({ s' with
            tokens := some ((s'.tokens.getD ∅).insert t.token t) } : State).HoldsOnly P :=
          ⟨fun ts hts' => (by cases hts'; exact hts.insert ht), hload.disk⟩
        exact HoldsOnly.finish hinserted.rewrite (hts _ _ hold)
    · split
      · exact hfilled
      · exact hfilled.add ht

theorem HoldsOnly.delete (h : s.HoldsOnly P) (token etag : String) : (s.delete E c token etag).1.HoldsOnly P := by
  have hload := h.load c.load
  unfold State.delete
  split
  · exact h
  split
  · rename_i s' e hs
    rw [hs] at hload
    exact hload
  · rename_i s' etag' hs
    rw [hs] at hload
    have hts : Filed P (s'.tokens.getD ∅) := Filed.getD hload.tokens
    dsimp only
    split
    · exact hload
    · rename_i old hold
      split
      · exact hload
      · have herased : ({ s' with
            tokens := some ((s'.tokens.getD ∅).erase token) } : State).HoldsOnly P :=
          ⟨fun ts hts' => (by cases hts'; exact hts.erase token), hload.disk⟩
        exact HoldsOnly.finish herased.rewrite (hts _ _ hold)

end State

end Sozvon.Token
