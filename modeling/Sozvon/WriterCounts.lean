import Sozvon.WriterPool

/-!
# The count of a pool of writers

A removal goes wrong if the caller, with the answer nil there, picks the end of
the writer instead: it takes the track for one that nobody knows, and the count
stays. As long as that does not happen, what is counted is what is attached.
-/
namespace Sozvon.WriterPool
open Runs

section Definitions

variable {τ : Type*} [DecidableEq τ]

/-- A track that is added is attached nowhere, and one that is removed is attached. -/
def Proper (s : Pool τ) : Label τ → Prop
  | .call track true => track ∉ s.attached
  | .call track false => track ∈ s.attached
  | _ => True

instance (s : Pool τ) (l : Label τ) : Decidable (Proper s l) :=
  match l with
  | .call track true => inferInstanceAs (Decidable (track ∉ s.attached))
  | .call track false => inferInstanceAs (Decidable (track ∈ s.attached))
  | .last | .send | .answer | .dead | .handle _ | .hangUp _ | .finish _ | .reap _ | .close =>
      inferInstanceAs (Decidable True)

/-- The answer nil is there. -/
def Caller.obeyed : Caller τ → Bool
  | .waiting _ _ (some none) => true
  | _ => false

/-- With the answer nil there, a caller does not pick the writer's end. -/
def Taken (s : Pool τ) (l : Label τ) : Prop := ¬ (l = .dead ∧ s.caller.obeyed)

instance (s : Pool τ) (l : Label τ) : Decidable (Taken s l) := inferInstanceAs (Decidable (¬ _))

/-- The steps of runs in which `add` is called as it should be and no answer nil is passed over. -/
def Fair (s : Pool τ) (l : Label τ) : Prop := Proper s l ∧ Taken s l

instance (s : Pool τ) (l : Label τ) : Decidable (Fair s l) := inferInstanceAs (Decidable (_ ∧ _))

/-- What is to hold after a call. -/
structure Right (s : Pool τ) (c : Call τ) (err : Option Err) : Prop where
  added : c.add = true → err = none → s.attached.count c.track = 1
  removed : c.add = false → err = none ∧ c.track ∉ s.attached

def Idle (m : Writer τ) : Prop := m.loop = .running → m.action = none

/-- A call has not come to the end of its search yet. -/
def Sought (s : Pool τ) (c : Call τ) : Place → Prop
  | .nth i =>
      if c.add then c.track ∉ s.attached
      else c.track ∈ (s.writers.drop i).flatMap fun w => (s.mem w).tracks
  | .made w =>
      c.add = true ∧ c.track ∉ s.attached ∧ w ∈ s.writers ∧ (s.mem w).loop = .running ∧
        (s.mem w).tracks = []

structure Asking (s : Pool τ) (c : Call τ) (p : Place) : Prop where
  count : s.count = s.attached.length
  room : 0 < c.n
  sought : Sought s c p

/-- What holds at each point of a call. -/
def CallerOk (s : Pool τ) : Caller τ → Prop
  | .returned last => (∀ w ∈ s.writers, Idle (s.mem w)) ∧ s.count = s.attached.length ∧
      ∀ c err, last = some (c, err) → Right s c err
  | .asking c p => (∀ w ∈ s.writers, Idle (s.mem w)) ∧ Asking s c p
  | .waiting c p none => Asking s c p ∧ ∃ w ∈ s.writers, s.target p = some w ∧
      (∀ v ∈ s.writers, v ≠ w → Idle (s.mem v)) ∧
      ((s.mem w).loop = .running → (s.mem w).action = some ⟨c.add, c.track, c.n⟩)
  | .waiting c p (some none) => (∀ w ∈ s.writers, Idle (s.mem w)) ∧
      (∀ w, p = .made w → c.add = true) ∧
      if c.add then s.attached.length = s.count + 1 ∧ s.attached.count c.track = 1
      else s.attached.length + 1 = s.count ∧ c.track ∉ s.attached
  | .waiting c p (some (some e)) => (∀ w ∈ s.writers, Idle (s.mem w)) ∧ e ≠ .writerDead ∧
      ∃ i, p = .nth i ∧ Asking s c (.nth (i + 1))

structure Inv (s : Pool τ) : Prop where
  nodup : s.writers.Nodup
  old : ∀ w ∈ s.writers, w < s.next
  ended : ∀ w ∈ s.writers, (s.mem w).loop ≠ .running → (s.mem w).tracks = []
  opened : ∀ w ∈ s.writers, (s.mem w).closed = false
  once : s.attached.Nodup
  caller : CallerOk s s.caller

end Definitions

section Lists

variable {τ : Type*} {s : Pool τ} {w : ℕ}

/-- The tracks of one writer among those of the pool. -/
theorem attached_split (hnodup : s.writers.Nodup) (hw : w ∈ s.writers) : ∃ l r, w ∉ l ∧ w ∉ r ∧
    s.writers = l ++ w :: r := by
  obtain ⟨l, r, hlr⟩ := List.append_of_mem hw
  rw [hlr, List.nodup_middle, List.nodup_cons, List.mem_append, not_or] at hnodup
  exact ⟨l, r, hnodup.1.1, hnodup.1.2, hlr⟩

theorem flatMap_update {mem : ℕ → Writer τ} {l : List ℕ} (hw : w ∉ l) (m : Writer τ) :
    (l.flatMap fun v => (Function.update mem w m v).tracks) = l.flatMap fun v => (mem v).tracks :=
  List.flatMap_congr fun v hv => by
    have hvw : v ≠ w := fun heq => hw (heq ▸ hv)
    rw [Function.update_of_ne hvw]

theorem attached_set (hnodup : s.writers.Nodup) (hw : w ∈ s.writers) : ∃ a b,
    s.attached = a ++ (s.mem w).tracks ++ b ∧ ∀ m, (s.set w m).attached = a ++ m.tracks ++ b := by
  obtain ⟨l, r, hl, hr, hlr⟩ := attached_split hnodup hw
  refine ⟨l.flatMap fun v => (s.mem v).tracks, r.flatMap fun v => (s.mem v).tracks, ?_, fun m => ?_⟩
  · rw [Pool.attached, hlr, List.flatMap_append, List.flatMap_cons, List.append_assoc]
  · rw [Pool.attached, Pool.set]
    dsimp only
    rw [hlr, List.flatMap_append, List.flatMap_cons, flatMap_update hl, flatMap_update hr,
      Function.update_self, List.append_assoc]

theorem attached_make (hnext : s.next ∉ s.writers) (c : Call τ) :
    (s.make c).attached = s.attached := by
  rw [Pool.attached, Pool.make]
  dsimp only
  rw [List.flatMap_append, flatMap_update hnext, List.flatMap_singleton, Function.update_self,
    List.append_nil, Pool.attached]

end Lists

section Frame

variable {τ : Type*} {s t : Pool τ} {w : ℕ} {c : Call τ} {p : Place}

/-- The writers of the pool have the tracks they had, and run if they ran. -/
structure Alike (s t : Pool τ) : Prop where
  writers : t.writers = s.writers
  next : t.next = s.next
  count : t.count = s.count
  mem : ∀ w ∈ s.writers, (t.mem w).tracks = (s.mem w).tracks ∧
    (t.mem w).closed = (s.mem w).closed ∧ ((t.mem w).loop = .running ↔ (s.mem w).loop = .running)

/-- Nothing has changed that matters to a call. -/
structure Same (s t : Pool τ) : Prop extends Alike s t where
  caller : t.caller = s.caller
  action : ∀ w ∈ s.writers, (t.mem w).action = (s.mem w).action

theorem Alike.attached (h : Alike s t) : t.attached = s.attached := by
  rw [Pool.attached, h.writers]
  exact List.flatMap_congr fun w hw => (h.mem w hw).1

theorem Alike.target (h : Alike s t) (p : Place) : t.target p = s.target p := by
  cases p with
  | nth i => rw [Pool.target, Pool.target, h.writers]
  | made w => rfl

theorem Alike.sought (h : Alike s t) {c : Call τ} {p : Place} (hp : Sought s c p) :
    Sought t c p := by
  cases p with
  | nth i =>
      rw [Sought] at hp ⊢
      have hdrop : ((s.writers.drop i).flatMap fun w => (t.mem w).tracks) =
          (s.writers.drop i).flatMap fun w => (s.mem w).tracks :=
        List.flatMap_congr fun w hw => (h.mem w (List.mem_of_mem_drop hw)).1
      rwa [h.attached, h.writers, hdrop]
  | made w =>
      obtain ⟨hadd, htrack, hw, hrunning, htracks⟩ := hp
      exact ⟨hadd, h.attached.symm ▸ htrack, h.writers.symm ▸ hw, ((h.mem w hw).2.2).mpr hrunning,
        (h.mem w hw).1.trans htracks⟩

theorem Alike.asking (h : Alike s t) {c : Call τ} {p : Place} (hp : Asking s c p) :
    Asking t c p :=
  ⟨by rw [h.count, h.attached, hp.count], hp.room, h.sought hp.sought⟩

theorem Same.idle (h : Same s t) (hs : ∀ w ∈ s.writers, Idle (s.mem w)) :
    ∀ w ∈ t.writers, Idle (t.mem w) := by
  intro w hw
  rw [h.writers] at hw
  rw [Idle, h.action w hw, (h.mem w hw).2.2]
  exact hs w hw

/-- Another point of a call, or of another call. -/
theorem alike_caller (s : Pool τ) (x : Caller τ) : Alike s { s with caller := x } where
  writers := rfl
  next := rfl
  count := rfl
  mem _ _ := ⟨rfl, rfl, Iff.rfl⟩

/-- A writer that is not in the pool does not matter. -/
theorem same_set (hw : w ∉ s.writers) (m : Writer τ) : Same s (s.set w m) where
  writers := rfl
  next := rfl
  count := rfl
  caller := rfl
  mem v hv := by
    have hvw : v ≠ w := fun heq => hw (heq ▸ hv)
    rw [Pool.set]
    dsimp only
    rw [Function.update_of_ne hvw]
    exact ⟨rfl, rfl, Iff.rfl⟩
  action v hv := by
    have hvw : v ≠ w := fun heq => hw (heq ▸ hv)
    rw [Pool.set]
    dsimp only
    rw [Function.update_of_ne hvw]

/-- A writer that has left its loop ends. -/
theorem same_finish (hloop : (s.mem w).loop = .returning) :
    Same s (s.set w { s.mem w with loop := .done }) := by
  refine ⟨⟨rfl, rfl, rfl, fun v _ => ?_⟩, rfl, fun v _ => ?_⟩ <;> rw [Pool.set] <;> dsimp only
  · by_cases hvw : v = w
    · rw [hvw, Function.update_self, hloop]
      exact ⟨rfl, rfl, iff_of_false nofun nofun⟩
    · rw [Function.update_of_ne hvw]
      exact ⟨rfl, rfl, Iff.rfl⟩
  · by_cases hvw : v = w
    · rw [hvw, Function.update_self]
    · rw [Function.update_of_ne hvw]

theorem deliver_target (hs : s.caller = .waiting c p none) (htarget : s.target p = some w)
    (m : Writer τ) (answer : Option Err) : (s.set w m).deliver w answer =
      { s.set w m with caller := .waiting c p (some answer) } := by
  have hsame : (s.set w m).target p = some w := by
    cases p <;> exact htarget
  have hwaits : (s.set w m).caller = .waiting c p none := hs
  rw [Pool.deliver, hwaits]
  exact if_pos hsame

/-- Nobody waits for a writer that is not in the pool. -/
theorem deliver_of_not_mem (hw : w ∉ s.writers)
    (hwaits : ∀ c p, s.caller = .waiting c p none → ∃ v ∈ s.writers, s.target p = some v)
    (m : Writer τ) (answer : Option Err) : (s.set w m).deliver w answer = s.set w m := by
  have hsame : (s.set w m).caller = s.caller := rfl
  rw [Pool.deliver, hsame]
  cases hs : s.caller with
  | returned last => rfl
  | asking c p => rfl
  | waiting c p answer =>
      rcases answer with _ | err
      · obtain ⟨v, hv, htarget⟩ := hwaits c p hs
        have hother : (s.set w m).target p ≠ some w := by
          intro heq
          have hsame : (s.set w m).target p = s.target p := by cases p <;> rfl
          exact hw (Option.some.inj (htarget.symm.trans (hsame.symm.trans heq)) ▸ hv)
        exact if_neg hother
      · rfl

theorem target_mem (hp : Sought s c p) (hw : s.target p = some w) : w ∈ s.writers := by
  cases p with
  | nth i => exact List.mem_of_getElem? hw
  | made v =>
      obtain ⟨-, -, hv, -, -⟩ := hp
      cases hw
      exact hv

/-- An action for a writer. -/
theorem alike_action (w : ℕ) (action : Option (Action τ)) (x : Caller τ) :
    Alike s { s.set w { s.mem w with action } with caller := x } where
  writers := rfl
  next := rfl
  count := rfl
  mem v _ := by
    rw [Pool.set]
    dsimp only
    by_cases hvw : v = w
    · rw [hvw, Function.update_self]
      exact ⟨rfl, rfl, Iff.rfl⟩
    · rw [Function.update_of_ne hvw]
      exact ⟨rfl, rfl, Iff.rfl⟩

/-- A track that a writer does not have is sought after it. -/
theorem sought_next {i : ℕ} (hi : s.writers[i]? = some w)
    (hnot : c.add = false → c.track ∉ (s.mem w).tracks) (hsought : Sought s c (.nth i)) :
    Sought s c (.nth (i + 1)) := by
  rw [Sought] at hsought ⊢
  split_ifs at hsought ⊢ with hadd
  · exact hsought
  · obtain ⟨hlt, hget⟩ := List.getElem?_eq_some_iff.mp hi
    rw [← List.getElem_cons_drop (h := hlt), hget, List.flatMap_cons, List.mem_append] at hsought
    exact hsought.resolve_left (hnot (Bool.eq_false_iff.mpr hadd))

theorem idle_set {m : Writer τ} (hothers : ∀ v ∈ s.writers, v ≠ w → Idle (s.mem v))
    (hm : m.action = none) : ∀ v ∈ (s.set w m).writers, Idle ((s.set w m).mem v) := by
  intro v hv
  rw [Pool.set]
  dsimp only
  by_cases hvw : v = w
  · rw [hvw, Function.update_self]
    exact fun _ => hm
  · rw [Function.update_of_ne hvw]
    exact hothers v hv hvw

/-- A writer that refuses has the tracks it had. -/
theorem asking_set {m : Writer τ} (hm : m.tracks = (s.mem w).tracks) {i : ℕ}
    (hask : Asking s c (.nth i)) (x : Caller τ) :
    (s.set w m).attached = s.attached ∧ Asking { s.set w m with caller := x } c (.nth i) := by
  have hsame (l : List ℕ) : (l.flatMap fun v => ((s.set w m).mem v).tracks) =
      l.flatMap fun v => (s.mem v).tracks :=
    List.flatMap_congr fun v _ => by
      rw [Pool.set]
      dsimp only
      by_cases hvw : v = w
      · rw [hvw, Function.update_self, hm]
      · rw [Function.update_of_ne hvw]
  have hattached : (s.set w m).attached = s.attached := hsame s.writers
  refine ⟨hattached, hask.count.trans (congrArg List.length hattached.symm), hask.room, ?_⟩
  have hsought := hask.sought
  rw [Sought] at hsought ⊢
  rw [← hsame (s.writers.drop i), ← hattached] at hsought
  exact hsought

variable [DecidableEq τ]

theorem Alike.inv (halike : Alike s t) (h : Inv s) (hcaller : CallerOk t t.caller) : Inv t where
  nodup := halike.writers.symm ▸ h.nodup
  old := by
    rw [halike.writers, halike.next]
    exact h.old
  ended w hw := by
    rw [halike.writers] at hw
    obtain ⟨htracks, -, hloop⟩ := halike.mem w hw
    rw [htracks, ne_eq, hloop]
    exact h.ended w hw
  opened w hw := by
    rw [halike.writers] at hw
    rw [(halike.mem w hw).2.1]
    exact h.opened w hw
  once := halike.attached.symm ▸ h.once
  caller := hcaller

theorem Alike.right (h : Alike s t) {c : Call τ} {err : Option Err} (hr : Right s c err) :
    Right t c err := ⟨h.attached.symm ▸ hr.added, h.attached.symm ▸ hr.removed⟩

theorem Same.callerOk (h : Same s t) {x : Caller τ} (hx : CallerOk s x) : CallerOk t x := by
  cases x with
  | returned last =>
      obtain ⟨hs, hcount, hlast⟩ := hx
      exact ⟨h.idle hs, by rw [h.count, h.attached, hcount],
        fun c err hc => h.right (hlast c err hc)⟩
  | asking c p => exact ⟨h.idle hx.1, h.asking hx.2⟩
  | waiting c p answer =>
      cases answer with
      | none =>
          obtain ⟨hask, w, hw, htarget, hothers, haction⟩ := hx
          refine ⟨h.asking hask, w, h.writers.symm ▸ hw, (h.target p).trans htarget, ?_, ?_⟩
          · intro v hv hne
            rw [h.writers] at hv
            rw [Idle, h.action v hv, (h.mem v hv).2.2]
            exact hothers v hv hne
          · rwa [h.action w hw, (h.mem w hw).2.2]
      | some err =>
          cases err with
          | none =>
              obtain ⟨hs, hmade, hrest⟩ := hx
              refine ⟨h.idle hs, hmade, ?_⟩
              rwa [h.attached, h.count]
          | some e =>
              obtain ⟨hs, hne, i, hp, hask⟩ := hx
              exact ⟨h.idle hs, hne, i, hp, h.asking hask⟩

theorem Inv.same (h : Inv s) (hsame : Same s t) : Inv t :=
  hsame.inv h (hsame.caller.symm ▸ hsame.callerOk h.caller)

end Frame

section Deletion

variable {τ : Type*} {s : Pool τ} {w : ℕ}

theorem del_eq (hw : w ∈ s.writers) : s.del w =
    { s.set w { s.mem w with closed := true } with writers := s.writers.erase w } := if_pos hw

theorem mem_of_mem_del (hnodup : s.writers.Nodup) {v : ℕ} (hv : v ∈ (s.del w).writers) :
    v ∈ s.writers ∧ (w ∈ s.writers → v ≠ w) ∧ (s.del w).mem v = s.mem v := by
  by_cases hw : w ∈ s.writers
  · rw [del_eq hw] at hv ⊢
    obtain ⟨hne, hmem⟩ := (hnodup.mem_erase_iff).mp hv
    exact ⟨hmem, fun _ => hne, Function.update_of_ne hne ..⟩
  · rw [Pool.del, if_neg hw] at hv ⊢
    exact ⟨hv, fun h => absurd h hw, rfl⟩

theorem flatMap_del (hw : w ∈ s.writers) {l : List ℕ} (hl : w ∉ l) :
    (l.flatMap fun v => ((s.del w).mem v).tracks) = l.flatMap fun v => (s.mem v).tracks := by
  rw [del_eq hw]
  exact flatMap_update hl _

theorem attached_del (hnodup : s.writers.Nodup) (hw : w ∈ s.writers)
    (htracks : (s.mem w).tracks = []) : (s.del w).attached = s.attached := by
  obtain ⟨l, r, hl, hr, hlr⟩ := attached_split hnodup hw
  have hwriters : (s.del w).writers = l ++ r := by
    rw [del_eq hw]
    dsimp only
    rw [hlr, List.erase_append_right _ hl, List.erase_cons_head]
  rw [Pool.attached, hwriters, List.flatMap_append, flatMap_del hw hl,
    flatMap_del hw hr, Pool.attached, hlr, List.flatMap_append, List.flatMap_cons, htracks,
    List.nil_append]

/-- What comes after a writer of the list stands in its place when it is deleted. -/
theorem drop_del (hnodup : s.writers.Nodup) {i : ℕ} (hi : s.writers[i]? = some w) :
    (s.del w).writers.drop i = s.writers.drop (i + 1) ∧ w ∉ s.writers.drop (i + 1) := by
  obtain ⟨hlt, hget⟩ := List.getElem?_eq_some_iff.mp hi
  have hlr : s.writers = s.writers.take i ++ w :: s.writers.drop (i + 1) := by
    rw [← hget, List.getElem_cons_drop, List.take_append_drop]
  have hsplit : w ∉ s.writers.take i ∧ w ∉ s.writers.drop (i + 1) := by
    have hmiddle := hnodup
    rw [hlr, List.nodup_middle, List.nodup_cons, List.mem_append, not_or] at hmiddle
    exact hmiddle.1
  have herase : (s.del w).writers = s.writers.take i ++ s.writers.drop (i + 1) := by
    rw [del_eq (List.mem_of_getElem? hi)]
    dsimp only
    nth_rewrite 1 [hlr]
    rw [List.erase_append_right _ hsplit.1, List.erase_cons_head]
  have hlength : (s.writers.take i).length = i := by
    rw [List.length_take]
    omega
  exact ⟨by rw [herase, List.drop_left' hlength], hsplit.2⟩

end Deletion

section Steps

variable {τ : Type*} [DecidableEq τ] {s t : Pool τ} {w : ℕ} {c : Call τ} {p : Place}

/-- A writer with no tracks is deleted. -/
theorem Inv.del (h : Inv s) (hw : w ∈ s.writers) (htracks : (s.mem w).tracks = []) {x : Caller τ}
    (hx : CallerOk { s.del w with caller := x } x) : Inv { s.del w with caller := x } where
  nodup := by
    rw [del_eq hw]
    exact h.nodup.erase w
  old v hv := by
    rw [del_eq hw]
    exact h.old v (mem_of_mem_del h.nodup hv).1
  ended v hv := by
    obtain ⟨hmem, -, heq⟩ := mem_of_mem_del h.nodup hv
    dsimp only
    rw [heq]
    exact h.ended v hmem
  opened v hv := by
    obtain ⟨hmem, -, heq⟩ := mem_of_mem_del h.nodup hv
    dsimp only
    rw [heq]
    exact h.opened v hmem
  once := (attached_del h.nodup hw htracks).symm ▸ h.once
  caller := hx

theorem idle_del (h : Inv s) (hothers : ∀ v ∈ s.writers, v ≠ w → Idle (s.mem v))
    (hw : w ∈ s.writers) : ∀ v ∈ (s.del w).writers, Idle ((s.del w).mem v) := by
  intro v hv
  obtain ⟨hmem, hne, heq⟩ := mem_of_mem_del h.nodup hv
  rw [heq]
  exact hothers v hmem (hne hw)

/-- The end of the writer that a call is at, which has no track of interest. -/
theorem asking_del (h : Inv s) {i : ℕ} (hi : s.writers[i]? = some w)
    (htracks : (s.mem w).tracks = []) (hask : Asking s c (.nth i) ∨ Asking s c (.nth (i + 1))) :
    Asking (s.del w) c (.nth i) := by
  have hw := List.mem_of_getElem? hi
  have hattached := attached_del h.nodup hw htracks
  obtain ⟨hdrop, hnot⟩ := drop_del h.nodup hi
  have hcount : (s.del w).count = s.count := by rw [del_eq hw]; rfl
  have hnext : Asking s c (.nth (i + 1)) := by
    refine hask.elim (fun hask => ⟨hask.count, hask.room, sought_next hi ?_ hask.sought⟩) id
    rw [htracks]
    exact fun _ => List.not_mem_nil
  refine ⟨by rw [hcount, hattached, hnext.count], hnext.room, ?_⟩
  have hsought := hnext.sought
  rw [Sought] at hsought ⊢
  rwa [hattached, hdrop, flatMap_del hw hnot]

theorem inv_call (h : Inv s) {last : Option (Call τ × Option Err)} (hs : s.caller = .returned last)
    {track : τ} {add : Bool} (hproper : Proper s (.call track add)) :
    Inv { s with caller := .asking { track, add, n := maxTracks s.count } (.nth 0) } := by
  have hcaller := h.caller
  rw [hs] at hcaller
  obtain ⟨hidle, hcount, -⟩ := hcaller
  refine ⟨h.nodup, h.old, h.ended, h.opened, h.once, hidle, hcount, maxTracks_pos s.count, ?_⟩
  rw [Sought, List.drop_zero]
  cases add
  · exact hproper
  · exact hproper

theorem inv_make (h : Inv s) {i : ℕ} (hs : s.caller = .asking c (.nth i)) (hadd : c.add = true) :
    Inv (s.make c) := by
  have hcaller := h.caller
  rw [hs] at hcaller
  obtain ⟨hidle, hcount, hroom, hsought⟩ := hcaller
  have hnext : s.next ∉ s.writers := fun hmem => Nat.lt_irrefl _ (h.old _ hmem)
  have hself : (s.make c).mem s.next = {} := Function.update_self ..
  have hattached := attached_make hnext c
  -- a writer is an old one, which is as it was, or the new one
  have hmem {P : ℕ → Writer τ → Prop} (hP : ∀ v ∈ s.writers, P v (s.mem v)) (hlast : P s.next {}) :
      ∀ v ∈ (s.make c).writers, P v ((s.make c).mem v) := by
    intro v hv
    rcases List.mem_append.mp hv with hv | hv
    · have hne : v ≠ s.next := fun heq => hnext (heq ▸ hv)
      have hold : (s.make c).mem v = s.mem v := Function.update_of_ne hne ..
      exact hold.symm ▸ hP v hv
    · obtain rfl := List.mem_singleton.mp hv
      exact hself.symm ▸ hlast
  refine ⟨?_, ?_, ?_, ?_, ?_, ?_, ?_, hroom, hadd, ?_, ?_, ?_, ?_⟩
  · exact List.Nodup.append h.nodup (List.nodup_singleton _)
      (List.disjoint_singleton.mpr hnext)
  · exact hmem (P := fun v _ => v < s.next + 1) (fun v hv => Nat.lt_succ_of_lt (h.old v hv))
      (Nat.lt_succ_self _)
  · exact hmem (P := fun _ m => m.loop ≠ .running → m.tracks = []) h.ended fun _ => rfl
  · exact hmem (P := fun _ m => m.closed = false) h.opened rfl
  · exact hattached.symm ▸ h.once
  · exact hmem (P := fun _ m => Idle m) hidle fun _ => rfl
  · exact hcount.trans (congrArg List.length hattached.symm)
  · rw [Sought, if_pos hadd] at hsought
    exact hattached.symm ▸ hsought
  · exact List.mem_append_right _ (List.mem_singleton_self _)
  · rw [hself]
  · rw [hself]

/-- At the end of the list a track that is to be removed has been found. -/
theorem not_at_end (h : Inv s) {i : ℕ} (hs : s.caller = .asking c (.nth i))
    (hi : s.writers.length ≤ i) : c.add = true := by
  have hcaller := h.caller
  rw [hs] at hcaller
  have hsought := hcaller.2.sought
  rw [Sought, List.drop_of_length_le hi] at hsought
  by_contra hadd
  rw [if_neg hadd] at hsought
  cases hsought

theorem inv_send (h : Inv s) (hs : s.caller = .asking c p) (hw : s.target p = some w) :
    Inv { s.set w { s.mem w with action := some ⟨c.add, c.track, c.n⟩ } with
      caller := .waiting c p none } := by
  have hcaller := h.caller
  rw [hs] at hcaller
  obtain ⟨hidle, hask⟩ := hcaller
  have hmem := target_mem hask.sought hw
  have halike := alike_action (s := s) w (some ⟨c.add, c.track, c.n⟩) (.waiting c p none)
  refine halike.inv h ⟨halike.asking hask, w, hmem,
    (halike.target p).trans hw, fun v hv hne => ?_, fun _ => ?_⟩
  · rw [Pool.set]
    dsimp only
    rw [Function.update_of_ne hne]
    exact hidle v hv
  · rw [Pool.set]
    dsimp only
    rw [Function.update_self]

theorem inv_answer (h : Inv s) {err : Option Err} (hs : s.caller = .waiting c p (some err))
    (hw : s.target p = some w) : Inv (s.result c p w err) := by
  have hcaller := h.caller
  rw [hs] at hcaller
  cases err with
  | some e =>
      obtain ⟨hidle, hne, i, rfl, hask⟩ := hcaller
      have hresult :
          s.result c (.nth i) w (some e) = { s with caller := .asking c (.nth (i + 1)) } := by
        cases e with
        | writerDead => exact absurd rfl hne
        | writerBusy | unknownTrack | deletingUnknown => rfl
      rw [hresult]
      have halike := alike_caller s (.asking c (.nth (i + 1)))
      exact halike.inv h ⟨hidle, halike.asking hask⟩
  | none =>
      obtain ⟨hidle, hmade, hcount⟩ := hcaller
      have hreturned (count : ℕ) (hlength : count = s.attached.length)
          (hright : Right s c none) :
          Inv { s with count, caller := .returned (some (c, none)) } := by
        refine ⟨h.nodup, h.old, h.ended, h.opened, h.once, hidle, hlength, ?_⟩
        rintro c' err ⟨⟩
        exact ⟨hright.added, hright.removed⟩
      cases hadd : c.add with
      | true =>
          rw [if_pos hadd] at hcount
          have hright : Right s c none := ⟨fun _ _ => hcount.2, fun hnot => by
            rw [hadd] at hnot
            cases hnot⟩
          have hresult : s.result c p w none =
              { s with count := s.count + 1, caller := .returned (some (c, none)) } := by
            cases p with
            | nth i => rw [Pool.result, if_pos hadd]
            | made v => rfl
          rw [hresult]
          exact hreturned _ hcount.1.symm hright
      | false =>
          have hnot : c.add ≠ true := fun h => Bool.false_ne_true (hadd.symm.trans h)
          rw [if_neg hnot] at hcount
          have hright : Right s c none := ⟨fun h => absurd h hnot, fun _ => ⟨rfl, hcount.2⟩⟩
          have hresult : s.result c p w none =
              { s with count := s.count - 1, caller := .returned (some (c, none)) } := by
            cases p with
            | nth i =>
                have hpos : s.count > 0 := by omega
                rw [Pool.result, if_neg hnot, if_pos hpos]
            | made v => exact absurd (hmade v rfl) hnot
          rw [hresult]
          exact hreturned _ (by omega) hright

/-- The end of a writer is found, and nothing has been lost with it. -/
theorem inv_dead (h : Inv s)
    (hs : s.caller = .asking c p ∨ ∃ answer, s.caller = .waiting c p answer)
    (htaken : Taken s .dead) (hw : s.target p = some w)
    (hdone : (s.mem w).loop = .done) : Inv (s.result c p w (some .writerDead)) := by
  have hcaller := h.caller
  have hnot : (s.mem w).loop ≠ .running := by
    rw [hdone]
    nofun
  have hasks : w ∈ s.writers ∧ (∀ v ∈ s.writers, v ≠ w → Idle (s.mem v)) ∧
      ∃ i, p = .nth i ∧ (Asking s c (.nth i) ∨ Asking s c (.nth (i + 1))) := by
    have hplace (hask : Asking s c p) : ∃ i, p = .nth i ∧
        (Asking s c (.nth i) ∨ Asking s c (.nth (i + 1))) := by
      cases p with
      | nth i => exact ⟨i, rfl, .inl hask⟩
      | made v =>
          cases hw
          exact absurd hask.sought.2.2.2.1 hnot
    rcases hs with hs | ⟨answer, hs⟩
    · rw [hs] at hcaller
      obtain ⟨hidle, hask⟩ := hcaller
      exact ⟨target_mem hask.sought hw, fun v hv _ => hidle v hv, hplace hask⟩
    · rw [hs] at hcaller
      rcases answer with _ | _ | e
      · obtain ⟨hask, v, hv, htarget, hothers, -⟩ := hcaller
        obtain rfl := Option.some.inj (htarget.symm.trans hw)
        exact ⟨hv, hothers, hplace hask⟩
      · exact absurd ⟨rfl, hs ▸ rfl⟩ htaken
      · obtain ⟨hidle, -, i, rfl, hask⟩ := hcaller
        exact ⟨List.mem_of_getElem? hw, fun v hv _ => hidle v hv, i, rfl, .inr hask⟩
  obtain ⟨hmem, hothers, i, rfl, hask⟩ := hasks
  have htracks := h.ended w hmem hnot
  exact h.del hmem htracks ⟨idle_del h hothers hmem,
    (alike_caller _ _).asking (asking_del h hw htracks hask)⟩

theorem inv_reap (h : Inv s) {last : Option (Call τ × Option Err)} (hs : s.caller = .returned last)
    (hdone : (s.mem w).loop = .done) : Inv (s.del w) := by
  by_cases hw : w ∈ s.writers
  · have hcaller := h.caller
    rw [hs] at hcaller
    obtain ⟨hidle, hcount, hlast⟩ := hcaller
    have htracks := h.ended w hw (by rw [hdone]; nofun)
    have hattached := attached_del h.nodup hw htracks
    have hdel : s.del w = { s.del w with caller := .returned last } := by
      rw [del_eq hw, ← hs]
      rfl
    rw [hdel]
    refine h.del hw htracks ⟨idle_del h (fun v hv _ => hidle v hv) hw, ?_, fun c err hc => ?_⟩
    · have hsame : (s.del w).count = s.count := by
        rw [del_eq hw]
        rfl
      exact hsame.trans (hcount.trans (congrArg List.length hattached.symm))
    · obtain ⟨hadded, hremoved⟩ := hlast c err hc
      exact ⟨hattached.symm ▸ hadded, hattached.symm ▸ hremoved⟩
  · rwa [Pool.del, if_neg hw]

theorem handle_cases (m : Writer τ) (a : Action τ) :
    (a.add = true ∧ a.maxTracks ≤ m.tracks.length ∧
      m.handle a = ({ m with action := none }, some .writerBusy)) ∨
    (a.add = true ∧
      m.handle a = ({ m with action := none, tracks := m.tracks ++ [a.track] }, none)) ∨
    (a.add = false ∧ a.track ∈ m.tracks ∧ m.handle a =
      ({ m with action := none, tracks := m.tracks.erase a.track, loop :=
          if (m.tracks.erase a.track).length = 0 then .returning else m.loop }, none)) ∨
    (a.add = false ∧ a.track ∉ m.tracks ∧ m.handle a =
      ({ m with action := none, loop := if m.tracks.length = 0 then .returning else m.loop },
        some .unknownTrack)) := by
  unfold Writer.handle
  by_cases hadd : a.add = true
  · rw [if_pos hadd]
    by_cases hfull : a.maxTracks ≤ m.tracks.length
    · rw [if_pos hfull]
      exact .inl ⟨hadd, hfull, rfl⟩
    · rw [if_neg hfull]
      exact .inr (.inl ⟨hadd, rfl⟩)
  · rw [if_neg hadd]
    dsimp only
    by_cases hfound : a.track ∈ m.tracks
    · rw [if_pos hfound]
      exact .inr (.inr (.inl ⟨Bool.eq_false_iff.mpr hadd, hfound, rfl⟩))
    · rw [if_neg hfound, List.erase_of_not_mem hfound]
      exact .inr (.inr (.inr ⟨Bool.eq_false_iff.mpr hadd, hfound, rfl⟩))

/-- A writer of the pool has done something, and its caller knows of it. -/
theorem inv_set (h : Inv s) {m : Writer τ} (hended : m.loop ≠ .running → m.tracks = [])
    (hopened : m.closed = false) (honce : (s.set w m).attached.Nodup) {x : Caller τ}
    (hx : CallerOk { s.set w m with caller := x } x) : Inv { s.set w m with caller := x } where
  nodup := h.nodup
  old := h.old
  ended v hv := by
    rw [Pool.set]
    dsimp only
    by_cases hvw : v = w
    · rw [hvw, Function.update_self]
      exact hended
    · rw [Function.update_of_ne hvw]
      exact h.ended v hv
  opened v hv := by
    rw [Pool.set]
    dsimp only
    by_cases hvw : v = w
    · rw [hvw, Function.update_self]
      exact hopened
    · rw [Function.update_of_ne hvw]
      exact h.opened v hv
  once := honce
  caller := hx

theorem inv_refused (h : Inv s) {m : Writer τ} {i : ℕ} (hi : s.writers[i]? = some w)
    (hothers : ∀ v ∈ s.writers, v ≠ w → Idle (s.mem v)) (hask : Asking s c (.nth i))
    (hnot : c.add = false → c.track ∉ (s.mem w).tracks) (htracks : m.tracks = (s.mem w).tracks)
    (haction : m.action = none) (hopened : m.closed = false)
    (hended : m.loop ≠ .running → m.tracks = []) {e : Err} (he : e ≠ .writerDead) :
    Inv { s.set w m with caller := .waiting c (.nth i) (some (some e)) } := by
  have hnext : Asking s c (.nth (i + 1)) :=
    ⟨hask.count, hask.room, sought_next hi hnot hask.sought⟩
  obtain ⟨hattached, hask'⟩ := asking_set htracks hnext (.waiting c (.nth i) (some (some e)))
  refine inv_set h hended hopened (hattached.symm ▸ h.once) ?_
  exact ⟨idle_set hothers haction, he, i, rfl, hask'⟩

theorem inv_obeyed (h : Inv s) {m : Writer τ} (hothers : ∀ v ∈ s.writers, v ≠ w → Idle (s.mem v))
    (hmade : ∀ v, p = .made v → c.add = true) (haction : m.action = none)
    (hopened : m.closed = false) (hended : m.loop ≠ .running → m.tracks = []) (honce : (s.set w m).attached.Nodup)
    (hcount : if c.add then (s.set w m).attached.length = s.count + 1 ∧
        (s.set w m).attached.count c.track = 1
      else (s.set w m).attached.length + 1 = s.count ∧ c.track ∉ (s.set w m).attached) :
    Inv { s.set w m with caller := .waiting c p (some none) } := by
  refine inv_set h hended hopened honce ?_
  exact ⟨idle_set hothers haction, hmade, hcount⟩

/-- The writer that a caller waits for takes the action. -/
theorem inv_handled (h : Inv s) (hw : w ∈ s.writers) (htarget : s.target p = some w)
    (hrun : (s.mem w).loop = .running) (hothers : ∀ v ∈ s.writers, v ≠ w → Idle (s.mem v))
    (hask : Asking s c p) :
    Inv { s.set w ((s.mem w).handle ⟨c.add, c.track, c.n⟩).1 with
      caller := .waiting c p (some ((s.mem w).handle ⟨c.add, c.track, c.n⟩).2) } := by
  obtain ⟨a, b, hattached, hset⟩ := attached_set h.nodup hw
  have hopened := h.opened w hw
  have honce := h.once
  have hcount := hask.count
  rw [hattached] at honce hcount
  have hadded (hadd : c.add = true) : c.track ∉ a ++ (s.mem w).tracks ++ b := by
    rw [← hattached]
    cases p with
    | nth i =>
        have hsought := hask.sought
        rwa [Sought, if_pos hadd] at hsought
    | made v => exact hask.sought.2.1
  rcases handle_cases (s.mem w) ⟨c.add, c.track, c.n⟩ with
    ⟨hadd, hfull, hhandle⟩ | ⟨hadd, hhandle⟩ |
    ⟨hadd, hfound, hhandle⟩ | ⟨hadd, hfound, hhandle⟩ <;> rw [hhandle] <;> dsimp only at hadd
  · -- the writer is busy, which one that has just been made is not
    cases p with
    | made v =>
        obtain ⟨-, -, -, -, hempty⟩ := hask.sought
        cases htarget
        rw [hempty] at hfull
        exact absurd hask.room (Nat.not_lt.mpr hfull)
    | nth i =>
        exact inv_refused (m := { s.mem w with action := none }) h htarget hothers hask
          (fun hnot => (Bool.false_ne_true (hnot.symm.trans hadd)).elim) rfl rfl hopened
          (fun hnot => absurd hrun hnot) nofun
  · have hnot := hadded hadd
    have hperm : (a ++ ((s.mem w).tracks ++ [c.track]) ++ b).Perm
        (c.track :: (a ++ (s.mem w).tracks ++ b)) := by
      rw [← List.append_assoc, List.append_assoc (a ++ _)]
      exact List.perm_middle
    refine inv_obeyed h hothers (fun _ _ => hadd) rfl hopened (fun hnot => absurd hrun hnot) ?_ ?_
    · rw [hset]
      exact hperm.nodup_iff.mpr (List.nodup_cons.mpr ⟨hnot, honce⟩)
    · rw [if_pos hadd, hset]
      refine ⟨?_, ?_⟩
      · rw [hperm.length_eq, List.length_cons, hcount]
      · rw [hperm.count_eq, List.count_cons_self, List.count_eq_zero_of_not_mem hnot]
  · have hperm : (a ++ (s.mem w).tracks ++ b).Perm
        (c.track :: (a ++ (s.mem w).tracks.erase c.track ++ b)) := by
      rw [List.append_assoc, List.append_assoc]
      exact ((List.perm_cons_erase hfound).append_right b |>.append_left a).trans List.perm_middle
    have hnodup := hperm.nodup_iff.mp honce
    refine inv_obeyed h hothers ?_ rfl hopened ?_ ?_ ?_
    · rintro v rfl
      exact hask.sought.1
    · intro hnot
      dsimp only at hnot ⊢
      split_ifs at hnot with hlength
      · exact List.length_eq_zero_iff.mp hlength
      · exact absurd hrun hnot
    · rw [hset]
      exact (List.nodup_cons.mp hnodup).2
    · rw [if_neg (Bool.eq_false_iff.mp hadd), hset]
      refine ⟨?_, (List.nodup_cons.mp hnodup).1⟩
      rw [hcount, hperm.length_eq, List.length_cons]
  · cases p with
    | made v => exact (Bool.false_ne_true (hadd.symm.trans hask.sought.1)).elim
    | nth i =>
        let loop := if (s.mem w).tracks.length = 0 then .returning else (s.mem w).loop
        refine inv_refused (m := { s.mem w with action := none, loop }) h htarget hothers hask
          (fun _ => hfound) rfl rfl hopened (fun hnot => ?_) nofun
        dsimp only [loop] at hnot ⊢
        split_ifs at hnot with hlength
        · exact List.length_eq_zero_iff.mp hlength
        · exact absurd hrun hnot

theorem inv_handle (h : Inv s) (hrun : (s.mem w).loop = .running) {a : Action τ}
    (ha : (s.mem w).action = some a) :
    Inv ((s.set w ((s.mem w).handle a).1).deliver w ((s.mem w).handle a).2) := by
  have hcaller := h.caller
  have hbusy {v : ℕ} (hidle : Idle (s.mem v)) : v ≠ w := by
    rintro rfl
    rw [hidle hrun] at ha
    cases ha
  by_cases hw : w ∈ s.writers
  · cases hs : s.caller with
    | returned last =>
        rw [hs] at hcaller
        exact absurd rfl (hbusy (hcaller.1 w hw))
    | asking c p =>
        rw [hs] at hcaller
        exact absurd rfl (hbusy (hcaller.1 w hw))
    | waiting c p answer =>
        rw [hs] at hcaller
        rcases answer with _ | _ | e
        · obtain ⟨hask, v, hv, htarget, hothers, haction⟩ := hcaller
          have hvw : v = w := by
            by_contra hne
            exact hbusy (hothers w hw (Ne.symm hne)) rfl
          subst hvw
          rw [deliver_target hs htarget, Option.some.inj (ha.symm.trans (haction hrun))]
          exact inv_handled h hv htarget hrun hothers hask
        · exact absurd rfl (hbusy (hcaller.1 w hw))
        · exact absurd rfl (hbusy (hcaller.1 w hw))
  · have hwaits (c : Call τ) (p : Place) (hs : s.caller = .waiting c p none) :
        ∃ v ∈ s.writers, s.target p = some v := by
      rw [hs] at hcaller
      obtain ⟨-, v, hv, htarget, -⟩ := hcaller
      exact ⟨v, hv, htarget⟩
    exact (deliver_of_not_mem hw hwaits _ _).symm ▸ h.same (same_set hw _)

theorem inv_close (s : Pool τ) : Inv {
    s with
    mem := fun w => if w ∈ s.writers then { s.mem w with closed := true } else s.mem w
    writers := []
    count := 0
    caller := .returned none } where
  nodup := List.nodup_nil
  old := nofun
  ended := nofun
  opened := nofun
  once := List.nodup_nil
  caller := ⟨nofun, rfl, nofun⟩

theorem inv_step (h : Inv s) {l : Label τ} (hproper : Proper s l) (htaken : Taken s l)
    (hstep : s.step l = some t) : Inv t := by
  cases l with
  | call track add =>
      rw [Pool.step] at hstep
      split at hstep
      · exact Option.some.inj hstep ▸ inv_call h ‹_› hproper
      · cases hstep
  | last =>
      rw [Pool.step] at hstep
      split at hstep
      · split_ifs at hstep with hlt hadd
        · exact Option.some.inj hstep ▸ inv_make h ‹_› hadd
        · exact absurd (not_at_end h ‹_› (Nat.not_lt.mp hlt)) hadd
      · cases hstep
  | send =>
      rw [Pool.step] at hstep
      split at hstep
      · obtain ⟨w, hw, hsend⟩ := Option.bind_eq_some_iff.mp hstep
        split_ifs at hsend
        exact Option.some.inj hsend ▸ inv_send h ‹_› hw
      · cases hstep
  | answer =>
      rw [Pool.step] at hstep
      split at hstep
      · obtain ⟨w, hw, rfl⟩ := Option.map_eq_some_iff.mp hstep
        exact inv_answer h ‹_› hw
      · cases hstep
  | dead =>
      rw [Pool.step] at hstep
      split at hstep
      · rename_i c p hs
        obtain ⟨w, hw, hdead⟩ := Option.bind_eq_some_iff.mp hstep
        split_ifs at hdead with hdone
        exact Option.some.inj hdead ▸ inv_dead h (.inl hs) htaken hw hdone
      · rename_i c p answer hs
        obtain ⟨w, hw, hdead⟩ := Option.bind_eq_some_iff.mp hstep
        split_ifs at hdead with hdone
        exact Option.some.inj hdead ▸ inv_dead h (.inr ⟨answer, hs⟩) htaken hw hdone
      · cases hstep
  | handle w =>
      rw [Pool.step] at hstep
      split_ifs at hstep with hrun
      obtain ⟨a, ha, rfl⟩ := Option.map_eq_some_iff.mp hstep
      exact inv_handle h hrun ha
  | hangUp w =>
      rw [Pool.step] at hstep
      split_ifs at hstep with hclosed
      have hw : w ∉ s.writers := fun hmem => by
        rw [h.opened w hmem] at hclosed
        exact Bool.false_ne_true hclosed.2
      exact Option.some.inj hstep ▸ h.same (same_set hw _)
  | finish w =>
      rw [Pool.step] at hstep
      split_ifs at hstep with hloop
      exact Option.some.inj hstep ▸ h.same (same_finish hloop)
  | reap w =>
      rw [Pool.step] at hstep
      split at hstep
      · split_ifs at hstep with hdone
        exact Option.some.inj hstep ▸ inv_reap h ‹_› hdone
      · cases hstep
  | close =>
      rw [Pool.step] at hstep
      split at hstep
      · exact Option.some.inj hstep ▸ inv_close s
      · cases hstep

theorem inv_of_reachable (h : Reachable (system τ) Fair s) : Inv s := by
  refine h.invariant (P := Inv) ?_ fun s l t hs hok hstep => inv_step hs hok.1 hok.2 hstep
  rintro s rfl
  exact ⟨List.nodup_nil, nofun, nofun, nofun, List.nodup_nil, nofun, rfl, nofun⟩

/-- After each call the pool counts the tracks that are attached, and the call has done what it
says. -/
theorem counted_of_reachable (h : Reachable (system τ) Fair s)
    {last : Option (Call τ × Option Err)} (hs : s.caller = .returned last) :
    s.count = s.attached.length ∧ ∀ c err, last = some (c, err) → Right s c err := by
  have hcaller := (inv_of_reachable h).caller
  rw [hs] at hcaller
  exact hcaller.2

end Steps

section Samples

/-- A track is added and removed, and the caller does or does not take the answer to the second
call, with the writer gone. -/
def visit (taken : Bool) : List (Label ℕ) :=
  [.call 7 true, .last, .send, .handle 0, .answer, .call 7 false, .send, .handle 0, .finish 0] ++
    if taken then [.answer] else [.dead, .last]

theorem counted_visit : ∃ s : Pool ℕ, s.caller = .returned (some (⟨7, false, 4⟩, none)) ∧
    s.count = s.attached.length ∧ 7 ∉ s.attached := by
  have hrun : (system ℕ).exec Fair {} (visit true) =
      some (((system ℕ).exec Fair {} (visit true)).get (by decide)) := (Option.some_get _).symm
  have h := counted_of_reachable (Reachable.exec (.init rfl) hrun) rfl
  exact ⟨_, rfl, h.1, ((h.2 _ _ rfl).removed rfl).2⟩

/-- The writer's end is picked: nothing is attached any more, and one track is counted. -/
theorem not_counted : ¬ ∀ (s : Pool ℕ) (last : Option (Call ℕ × Option Err)),
    Reachable (system ℕ) Proper s → s.caller = .returned last →
    s.count = s.attached.length ∧ ∀ c err, last = some (c, err) → Right s c err := by
  intro h
  have hrun : (system ℕ).exec Proper {} (visit false) =
      some (((system ℕ).exec Proper {} (visit false)).get (by decide)) := (Option.some_get _).symm
  exact absurd (h _ _ (Reachable.exec (.init rfl) hrun) rfl).1 (by decide)

end Samples

end Sozvon.WriterPool
