import Sozvon.WriterPool
import Mathlib.Data.List.Perm.Basic
import Mathlib.Data.List.Count
import Mathlib.Tactic.Linarith

/-!
# The receivers of a track

A track has a list of the receivers that are registered on it, and a pool of writers
that send them its packets. A call changes the list under the lock, and only then
tells the read loop, which runs the pool, through a queue. The read loop is the one
of a track that goes on.

A call of the pool is a single step here. The goroutines that it goes through are
modelled in `WriterPool`, and `WriterCalls` shows that they come to such steps.
-/
namespace Sozvon.LocalTracks

open Runs

inductive TrackAction (τ : Type) where
  | add (track : τ)
  | del (track : τ)
  | keyframe
deriving DecidableEq, Repr

/-- The thread of a writer; it ends when it is left without tracks. -/
structure Writer (τ : Type) where
  locals : List τ := []
  done : Bool := false
deriving DecidableEq, Repr

inductive Reply where
  | ok
  | writerBusy
  | unknownTrack
  | writerDead
deriving DecidableEq, Repr

section Writers

variable {τ : Type} [DecidableEq τ]

/-- A writer that ends has answered before, but who asked may see its end first: it is `late`. -/
def Writer.add (w : Writer τ) (track : τ) (add : Bool) (maxTracks : ℕ) (late : Bool) :
    Writer τ × Reply :=
  if w.done then (w, .writerDead)
  else if add then
    if maxTracks ≤ w.locals.length then (w, .writerBusy)
    else ({ w with locals := w.locals ++ [track] }, .ok)
  else
    let reply := if track ∈ w.locals then Reply.ok else .unknownTrack
    let rest := w.locals.erase track
    if rest.length = 0 then ({ locals := rest, done := true }, if late then .writerDead else reply)
    else ({ w with locals := rest }, reply)

structure Pool (τ : Type) where
  writers : List (Writer τ) := []
  count : ℕ := 0
deriving DecidableEq, Repr

/-- One writer after the other, and whether one has done it; dead ones are deleted. The writers that
are late are given by how many come after them. -/
def tryWriters (track : τ) (add : Bool) (n : ℕ) (late : List ℕ) :
    List (Writer τ) → List (Writer τ) × Bool
  | [] => ([], false)
  | w :: ws =>
      match w.add track add n (ws.length ∈ late) with
      | (w, .ok) => (w :: ws, true)
      | (_, .writerDead) => tryWriters track add n late ws
      | (w, _) =>
          let (ws, found) := tryWriters track add n late ws
          (w :: ws, found)

def Pool.add (wp : Pool τ) (track : τ) (add : Bool) (late : List ℕ) : Pool τ :=
  let n := WriterPool.maxTracks wp.count
  match tryWriters track add n late wp.writers with
  | (writers, true) => { writers, count := if add then wp.count + 1 else wp.count - 1 }
  | (writers, false) =>
      if add then
        match ({} : Writer τ).add track true n false with
        | (writer, .ok) => { writers := writers ++ [writer], count := wp.count + 1 }
        | (writer, _) => { wp with writers := writers ++ [writer] }
      else { wp with writers }

/-! ## The track -/

structure State (τ : Type) where
  locals : List τ := []
  /-- The calls that have changed the list and not told the read loop, in the order of the changes. -/
  calls : List (TrackAction τ) := []
  queue : List (TrackAction τ) := []
  /-- Those that have found the queue empty and not triggered its channel yet. -/
  triggering : ℕ := 0
  triggered : Bool := false
  /-- What the read loop has taken from the queue. -/
  actions : List (TrackAction τ) := []
  pool : Pool τ := {}
deriving DecidableEq, Repr

inductive Label (τ : Type) where
  | addLocal (track : τ)
  | delLocal (track : τ)
  | requestKeyframe
  /-- A call that has changed the list queues its action. -/
  | action (call : ℕ)
  | trigger
  | get
  | handle (late : List ℕ)
  /-- A packet finds that a writer is dead. -/
  | write (writer : ℕ)
deriving DecidableEq, Repr

namespace State

def addLocal (s : State τ) (track : τ) : State τ :=
  if track ∈ s.locals then s
  else { s with locals := s.locals ++ [track], calls := s.calls ++ [.add track] }

def delLocal (s : State τ) (track : τ) : State τ :=
  if track ∈ s.locals then
    { s with locals := s.locals.erase track, calls := s.calls ++ [.del track] }
  else s

def put (s : State τ) (a : TrackAction τ) : State τ :=
  { s with
    queue := s.queue ++ [a]
    triggering := if s.queue = [] then s.triggering + 1 else s.triggering }

def handle (s : State τ) (late : List ℕ) : TrackAction τ → State τ
  | .add track => { s with pool := s.pool.add track true late }
  | .del track => { s with pool := s.pool.add track false late }
  | .keyframe => s

def step (s : State τ) : Label τ → Option (State τ)
  | .addLocal track => some (s.addLocal track)
  | .delLocal track => some (s.delLocal track)
  | .requestKeyframe => some (s.put .keyframe)
  | .action call =>
      s.calls[call]?.map fun a => { s with calls := s.calls.eraseIdx call }.put a
  | .trigger =>
      if s.triggering = 0 then none
      else some { s with triggering := s.triggering - 1, triggered := true }
  | .get =>
      if s.triggered = true ∧ s.actions = [] then
        some { s with triggered := false, actions := s.queue, queue := [] }
      else none
  | .handle late =>
      match s.actions with
      | [] => none
      | a :: actions => some ({ s with actions }.handle late a)
  | .write writer =>
      match s.pool.writers[writer]? with
      | some w =>
          if w.done then
            some { s with pool := { s.pool with writers := s.pool.writers.eraseIdx writer } }
          else none
      | none => none

end State

def system (τ : Type) [DecidableEq τ] : System (State τ) (Label τ) where
  init s := s = {}
  step := State.step

/-! ## What the writers are to serve -/

def Writer.attached (w : Writer τ) : List τ := if w.done then [] else w.locals

def State.attached (s : State τ) : List τ := s.pool.writers.flatMap Writer.attached

/-- Every call has told the read loop, which has done what it was told. -/
def Drained (s : State τ) : Prop := s.calls = [] ∧ s.queue = [] ∧ s.actions = []

/-- The tracks attached to the writers are those on the list, each of them once. -/
def Serves (s : State τ) : Prop := s.attached.Perm s.locals ∧ s.attached.Nodup

def TrackAction.removes : TrackAction τ → Option τ
  | .del track => some track
  | _ => none

/-- By how much some actions change the number of times that a track is attached. -/
def change (track : τ) (actions : List (TrackAction τ)) : ℤ :=
  actions.count (.add track) - actions.count (.del track)

/-- No removal is queued ahead of the addition that it is to undo; and where an addition has got
ahead of a removal, and so the track is attached twice, the removal misses no answer. -/
def InOrder (s : State τ) : Label τ → Prop
  | .action call => ∀ a ∈ s.calls[call]?, ∀ track ∈ a.removes,
      0 < s.attached.count track + change track (s.actions ++ s.queue)
  | .handle late => ∀ a ∈ s.actions.head?, ∀ track ∈ a.removes,
      1 < s.attached.count track → late = []
  | _ => True

/-! ## One action -/

variable {track : τ}

theorem Writer.add_attached (w : Writer τ) (track : τ) (n : ℕ) (late : Bool) :
    match w.add track true n late with
    | (w', .ok) => w'.attached = w.attached ++ [track]
    | (_, .writerDead) => w.attached = []
    | (w', _) => w'.attached = w.attached := by
  unfold Writer.add
  by_cases hdone : w.done = true
  · rw [if_pos hdone]
    exact if_pos hdone
  · rw [if_neg hdone, if_pos rfl]
    by_cases hbusy : n ≤ w.locals.length
    · rw [if_pos hbusy]
    · rw [if_neg hbusy]
      simp only [attached, if_neg hdone]

/-- The rest of the writer's tracks; the writer is dead if it has none, and may not have said that it
has removed one. -/
theorem Writer.del_attached (w : Writer τ) (track : τ) (n : ℕ) (late : Bool) :
    match w.add track false n late with
    | (w', .ok) => w'.attached = w.attached.erase track ∧ track ∈ w.attached
    | (_, .writerDead) => w.attached = [] ∨ w.attached.erase track = [] ∧ late = true
    | (w', _) => w'.attached = w.attached ∧ track ∉ w.attached := by
  unfold Writer.add
  by_cases hdone : w.done = true
  · rw [if_pos hdone]
    exact Or.inl (if_pos hdone)
  · rw [if_neg hdone, if_neg Bool.false_ne_true]
    have hattached : w.attached = w.locals := if_neg hdone
    rw [hattached]
    dsimp only
    by_cases hin : track ∈ w.locals
    · rw [if_pos hin]
      by_cases hempty : (w.locals.erase track).length = 0
      · rw [if_pos hempty]
        have hnil := List.length_eq_zero_iff.mp hempty
        cases late with
        | true => exact Or.inr ⟨hnil, rfl⟩
        | false => exact ⟨hnil.symm, hin⟩
      · rw [if_neg hempty]
        exact ⟨if_neg hdone, hin⟩
    · rw [if_neg hin, List.erase_of_not_mem hin]
      by_cases hempty : w.locals.length = 0
      · rw [if_pos hempty]
        have hnil := List.length_eq_zero_iff.mp hempty
        cases late with
        | true => exact Or.inl hnil
        | false => exact ⟨hnil.symm, hin⟩
      · rw [if_neg hempty]
        exact ⟨hattached, hin⟩

def attachedTo (ws : List (Writer τ)) : List τ := ws.flatMap Writer.attached

omit [DecidableEq τ] in
theorem attachedTo_cons (w : Writer τ) (ws : List (Writer τ)) :
    attachedTo (w :: ws) = w.attached ++ attachedTo ws := List.flatMap_cons

theorem count_single (t : τ) : [track].count t = if t = track then 1 else 0 := by
  by_cases ht : t = track
  · rw [ht, List.count_singleton_self, if_pos rfl]
  · rw [if_neg ht]
    exact List.count_eq_zero.mpr fun h => ht (List.mem_singleton.mp h)

theorem count_erase_eq (l : List τ) (t : τ) :
    (l.erase track).count t = l.count t - if t = track then 1 else 0 := by
  by_cases ht : t = track
  · rw [ht, List.count_erase_self, if_pos rfl]
  · rw [List.count_erase_of_ne ht, if_neg ht, Nat.sub_zero]

theorem tryWriters_add (track : τ) (n : ℕ) (ls : List ℕ) (ws : List (Writer τ)) (t : τ) :
    (attachedTo (tryWriters track true n ls ws).1).count t = (attachedTo ws).count t +
      if (tryWriters track true n ls ws).2 = true ∧ t = track then 1 else 0 := by
  induction ws with
  | nil => simp [tryWriters]
  | cons w ws ih =>
      have hw := w.add_attached track n (ws.length ∈ ls)
      rw [tryWriters]
      generalize w.add track true n (ws.length ∈ ls) = answer at hw
      obtain ⟨w', reply⟩ := answer
      cases reply with
      | ok =>
          simp only at hw ⊢
          rw [attachedTo_cons, attachedTo_cons, hw]
          simp only [List.count_append, count_single, true_and]
          omega
      | writerDead =>
          simp only at hw ⊢
          rw [ih, attachedTo_cons, hw, List.nil_append]
      | writerBusy =>
          simp only at hw ⊢
          rw [attachedTo_cons, attachedTo_cons, hw, List.count_append, List.count_append, ih]
          omega
      | unknownTrack =>
          simp only at hw ⊢
          rw [attachedTo_cons, attachedTo_cons, hw, List.count_append, List.count_append, ih]
          omega

/-- One removal, unless a second one follows because the answer to the first has been missed. -/
theorem tryWriters_del (track : τ) (n : ℕ) (ls : List ℕ) (ws : List (Writer τ)) (t : τ)
    (h : (attachedTo ws).count track ≤ 1 ∨ ls = []) :
    (attachedTo (tryWriters track false n ls ws).1).count t = (attachedTo ws).count t -
      if t = track then 1 else 0 := by
  induction ws with
  | nil => simp [tryWriters, attachedTo]
  | cons w ws ih =>
      have hw := w.del_attached track n (ws.length ∈ ls)
      rw [attachedTo_cons, List.count_append] at h
      specialize ih (h.imp (fun h => by omega) id)
      rw [tryWriters]
      generalize w.add track false n (ws.length ∈ ls) = answer at hw
      obtain ⟨w', reply⟩ := answer
      cases reply with
      | ok =>
          simp only at hw ⊢
          have hpos : 0 < w.attached.count track := List.count_pos_iff.mpr hw.2
          rw [attachedTo_cons, attachedTo_cons, hw.1, List.count_append, List.count_append,
            count_erase_eq]
          by_cases ht : t = track
          · rw [if_pos ht, ht]
            omega
          · rw [if_neg ht]
            omega
      | writerDead =>
          simp only at hw ⊢
          rw [ih, attachedTo_cons, List.count_append]
          rcases hw with hnone | ⟨hlast, hlate⟩
          · rw [hnone, List.count_nil, Nat.zero_add]
          · have hcount : w.attached.count t - (if t = track then 1 else 0) = 0 := by
              rw [← count_erase_eq, hlast, List.count_nil]
            rcases h with h | h
            · by_cases ht : t = track
              · rw [if_pos ht] at hcount ⊢
                rw [ht] at hcount ⊢
                omega
              · rw [if_neg ht] at hcount
                omega
            · rw [h] at hlate
              simp at hlate
      | writerBusy =>
          simp only at hw ⊢
          have hzero : w.attached.count track = 0 := List.count_eq_zero.mpr hw.2
          rw [attachedTo_cons, attachedTo_cons, hw.1, List.count_append, List.count_append, ih]
          by_cases ht : t = track
          · subst ht
            omega
          · rw [if_neg ht]
            omega
      | unknownTrack =>
          simp only at hw ⊢
          have hzero : w.attached.count track = 0 := List.count_eq_zero.mpr hw.2
          rw [attachedTo_cons, attachedTo_cons, hw.1, List.count_append, List.count_append, ih]
          by_cases ht : t = track
          · subst ht
            omega
          · rw [if_neg ht]
            omega

theorem Pool.add_attached (wp : Pool τ) (track : τ) (ls : List ℕ) (t : τ) :
    (attachedTo (wp.add track true ls).writers).count t =
      (attachedTo wp.writers).count t + if t = track then 1 else 0 := by
  have hall := tryWriters_add track (WriterPool.maxTracks wp.count) ls wp.writers t
  rw [Pool.add]
  generalize tryWriters track true (WriterPool.maxTracks wp.count) ls wp.writers = answer at hall
  obtain ⟨writers, found⟩ := answer
  cases found with
  | true => simpa using hall
  | false =>
      have hroom : ¬ WriterPool.maxTracks wp.count ≤ 0 := Nat.not_le.mpr (WriterPool.maxTracks_pos _)
      simp only [Bool.false_eq_true, false_and, if_false, Nat.add_zero] at hall
      simp only [Writer.add, List.length_nil, if_neg hroom, if_true, Bool.false_eq_true, if_false,
        List.nil_append, attachedTo, List.flatMap_append, List.flatMap_singleton, Writer.attached,
        List.count_append, count_single]
      exact congrArg (· + if t = track then 1 else 0) hall

theorem Pool.del_attached (wp : Pool τ) (track : τ) (ls : List ℕ) (t : τ)
    (h : (attachedTo wp.writers).count track ≤ 1 ∨ ls = []) :
    (attachedTo (wp.add track false ls).writers).count t =
      (attachedTo wp.writers).count t - if t = track then 1 else 0 := by
  have hall := tryWriters_del track (WriterPool.maxTracks wp.count) ls wp.writers t h
  rw [Pool.add]
  generalize tryWriters track false (WriterPool.maxTracks wp.count) ls wp.writers = answer at hall
  obtain ⟨writers, found⟩ := answer
  cases found with
  | true => exact hall
  | false => exact hall

/-! ## Every run -/

theorem change_nil : change track [] = 0 := rfl

theorem change_append (l l' : List (TrackAction τ)) :
    change track (l ++ l') = change track l + change track l' := by
  simp only [change, List.count_append]
  omega

theorem change_perm (track : τ) {l l' : List (TrackAction τ)} (h : l.Perm l') :
    change track l = change track l' := by
  simp only [change, h.count_eq]

theorem change_add (t : τ) : change t [.add track] = if t = track then 1 else 0 := by
  by_cases ht : t = track
  · rw [if_pos ht, ht]
    simp [change]
  · rw [if_neg ht]
    simp [change, Ne.symm ht]

theorem change_del (t : τ) : change t [.del track] = -if t = track then 1 else 0 := by
  by_cases ht : t = track
  · rw [if_pos ht, ht]
    simp [change]
  · rw [if_neg ht]
    simp [change, Ne.symm ht]

theorem change_keyframe (t : τ) : change t [.keyframe] = 0 := rfl

/-- With what is still to be done the writers come to what is on the list, and on the way nothing is
removed that is not attached. -/
structure Balanced (s : State τ) : Prop where
  nodup : s.locals.Nodup
  total : ∀ t, s.attached.count t + change t (s.actions ++ s.queue) + change t s.calls =
    s.locals.count t
  ahead : ∀ t l, l <+: s.actions ++ s.queue → 0 ≤ s.attached.count t + change t l

namespace Balanced

variable {s : State τ}

theorem init : Balanced ({} : State τ) where
  nodup := List.nodup_nil
  total _ := rfl
  ahead t l h := by
    rw [List.prefix_nil.mp h]
    exact Int.le_refl 0

theorem addLocal (h : Balanced s) (track : τ) : Balanced (s.addLocal track) := by
  unfold State.addLocal
  split
  · exact h
  · rename_i hnew
    refine ⟨List.nodup_append.mpr ⟨h.nodup, List.pairwise_singleton _ _, fun a ha b hb hab => ?_⟩,
      fun t => ?_, h.ahead⟩
    · rw [List.mem_singleton.mp hb] at hab
      exact hnew (hab ▸ ha)
    · have htotal := h.total t
      simp only [State.attached, change_append, change_add, List.count_append,
        count_single] at htotal ⊢
      push_cast
      omega

theorem delLocal (h : Balanced s) (track : τ) : Balanced (s.delLocal track) := by
  unfold State.delLocal
  split
  · rename_i hold
    refine ⟨h.nodup.erase track, fun t => ?_, h.ahead⟩
    have htotal := h.total t
    have hpos : 0 < s.locals.count track := List.count_pos_iff.mpr hold
    simp only [State.attached, change_append, change_del, count_erase_eq] at htotal ⊢
    by_cases ht : t = track
    · rw [ht] at htotal ⊢
      simp only [if_true]
      omega
    · rw [if_neg ht, if_neg ht]
      omega
  · exact h

/-- One more action, which may be a removal of what the ones before it leave attached. -/
theorem ahead_put {a : TrackAction τ}
    (hahead : ∀ t l, l <+: s.actions ++ s.queue → 0 ≤ (s.attached.count t : ℤ) + change t l)
    (ha : ∀ track ∈ a.removes, 0 < s.attached.count track + change track (s.actions ++ s.queue))
    (t : τ) {l : List (TrackAction τ)} (hl : l <+: s.actions ++ (s.queue ++ [a])) :
    0 ≤ (s.attached.count t : ℤ) + change t l := by
  rw [← List.append_assoc] at hl
  rcases List.prefix_concat_iff.mp hl with rfl | hl
  · have hbefore := hahead t _ (List.prefix_refl _)
    rw [change_append]
    cases a with
    | add track =>
        rw [change_add]
        split <;> omega
    | del track =>
        have hpos := ha track rfl
        rw [change_del]
        split
        · rename_i ht
          rw [ht]
          omega
        · omega
    | keyframe =>
        rw [change_keyframe]
        omega
  · exact hahead t l hl

theorem requestKeyframe (h : Balanced s) : Balanced (s.put .keyframe) where
  nodup := h.nodup
  total t := by
    have htotal := h.total t
    simp only [State.put, State.attached, change_append, change_keyframe] at htotal ⊢
    omega
  ahead t _ hl := ahead_put h.ahead (fun _ hnone => by cases hnone) t hl

theorem action (h : Balanced s) {call : ℕ} {a : TrackAction τ} (hcall : s.calls[call]? = some a)
    (ha : ∀ track ∈ a.removes,
      0 < s.attached.count track + change track (s.actions ++ s.queue)) :
    Balanced ({ s with calls := s.calls.eraseIdx call }.put a) where
  nodup := h.nodup
  total t := by
    obtain ⟨hlt, hget⟩ := List.getElem?_eq_some_iff.mp hcall
    have htotal := h.total t
    have hperm := change_perm t (List.getElem_cons_eraseIdx_perm hlt)
    rw [hget, ← List.singleton_append] at hperm
    simp only [State.put, State.attached, change_append] at htotal hperm ⊢
    omega
  ahead t _ hl := ahead_put h.ahead ha t hl

theorem get (h : Balanced s) (hnone : s.actions = []) :
    Balanced { s with triggered := false, actions := s.queue, queue := [] } where
  nodup := h.nodup
  total t := by
    have htotal := h.total t
    rw [hnone] at htotal
    rw [List.append_nil]
    exact htotal
  ahead t l hl := by
    have hahead := h.ahead t l
    rw [hnone] at hahead
    rw [List.append_nil] at hl
    exact hahead hl

theorem handle (h : Balanced s) {late : List ℕ} {a : TrackAction τ}
    {actions : List (TrackAction τ)} (hactions : s.actions = a :: actions)
    (ha : ∀ track ∈ a.removes, 1 < s.attached.count track → late = []) :
    Balanced ({ s with actions }.handle late a) := by
  have hchange (t : τ) : ((({ s with actions }.handle late a).attached.count t : ℕ) : ℤ) =
      s.attached.count t + change t [a] := by
    cases a with
    | add track =>
        rw [change_add]
        have hpool := s.pool.add_attached track late t
        simp only [State.handle, State.attached, attachedTo] at hpool ⊢
        rw [hpool]
        push_cast
        rfl
    | del track =>
        have hone : s.attached.count track ≤ 1 ∨ late = [] := by
          by_cases htwice : 1 < s.attached.count track
          · exact Or.inr (ha track rfl htwice)
          · exact Or.inl (by omega)
        have hpos := h.ahead track [.del track] (by
          rw [hactions]
          exact ⟨actions ++ s.queue, rfl⟩)
        have hpool := s.pool.del_attached track late t hone
        rw [change_del] at hpos ⊢
        simp only [State.handle, State.attached, attachedTo, if_true] at hpool hpos ⊢
        rw [hpool]
        by_cases ht : t = track
        · rw [ht]
          simp only [if_true]
          omega
        · rw [if_neg ht, if_neg ht]
          omega
    | keyframe => simp [State.handle, State.attached, change_keyframe]
  have hframe : ({ s with actions }.handle late a).locals = s.locals ∧
      ({ s with actions }.handle late a).calls = s.calls ∧
      ({ s with actions }.handle late a).queue = s.queue ∧
      ({ s with actions }.handle late a).actions = actions := by
    cases a <;> exact ⟨rfl, rfl, rfl, rfl⟩
  obtain ⟨hlocals, hcalls, hqueue, hrest⟩ := hframe
  refine ⟨?_, fun t => ?_, fun t l hl => ?_⟩
  · rw [hlocals]
    exact h.nodup
  · have htotal := h.total t
    rw [hactions, List.cons_append, ← List.singleton_append, change_append] at htotal
    rw [hchange, hlocals, hcalls, hqueue, hrest, ← htotal]
    omega
  · rw [hqueue, hrest] at hl
    have hahead := h.ahead t (a :: l) (by
      rw [hactions]
      exact List.cons_prefix_cons.mpr ⟨rfl, hl⟩)
    rw [← List.singleton_append, change_append] at hahead
    rw [hchange]
    omega

/-- A dead writer has no tracks. -/
theorem write (h : Balanced s) {writer : ℕ} {w : Writer τ}
    (hwriter : s.pool.writers[writer]? = some w) (hdone : w.done = true) :
    Balanced { s with pool := { s.pool with writers := s.pool.writers.eraseIdx writer } } := by
  have hsame (t : τ) : (attachedTo (s.pool.writers.eraseIdx writer)).count t =
      s.attached.count t := by
    obtain ⟨hlt, hget⟩ := List.getElem?_eq_some_iff.mp hwriter
    have hperm := (List.getElem_cons_eraseIdx_perm hlt).flatMap_right Writer.attached
    rw [hget, List.flatMap_cons, Writer.attached, if_pos hdone, List.nil_append] at hperm
    exact hperm.count_eq t
  refine ⟨h.nodup, fun t => ?_, fun t l hl => ?_⟩
  · rw [← h.total t, ← hsame t]
    rfl
  · have hahead := h.ahead t l hl
    rw [← hsame t] at hahead
    exact hahead

theorem step {s' : State τ} {a : Label τ} (h : Balanced s) (hok : InOrder s a)
    (hstep : s.step a = some s') : Balanced s' := by
  cases a with
  | addLocal track =>
      cases hstep
      exact h.addLocal track
  | delLocal track =>
      cases hstep
      exact h.delLocal track
  | requestKeyframe =>
      cases hstep
      exact h.requestKeyframe
  | action call =>
      obtain ⟨a, hcall, rfl⟩ := Option.map_eq_some_iff.mp hstep
      exact h.action hcall (hok a hcall)
  | trigger =>
      simp only [State.step] at hstep
      split at hstep
      · cases hstep
      · cases hstep
        exact ⟨h.nodup, h.total, h.ahead⟩
  | get =>
      simp only [State.step] at hstep
      split at hstep
      · rename_i hguard
        cases hstep
        exact h.get hguard.2
      · cases hstep
  | handle late =>
      simp only [State.step] at hstep
      split at hstep
      · cases hstep
      · rename_i a actions hactions
        cases hstep
        exact h.handle hactions (hok a (by rw [hactions]; rfl))
  | write writer =>
      simp only [State.step] at hstep
      split at hstep
      · rename_i w hwriter
        split at hstep
        · rename_i hdone
          cases hstep
          exact h.write hwriter hdone
        · cases hstep
      · cases hstep

end Balanced

theorem balanced_of_reachable {s : State τ} (h : Reachable (system τ) InOrder s) : Balanced s :=
  h.invariant (fun _ hs => hs ▸ .init) fun _ _ _ hs hok hstep => hs.step hok hstep

/-- Whenever everything has been done, the writers serve the tracks on the list. -/
theorem serves_of_drained {s : State τ} (h : Reachable (system τ) InOrder s) (hdrained : Drained s) :
    Serves s := by
  have hbalanced := balanced_of_reachable h
  obtain ⟨hcalls, hqueue, hactions⟩ := hdrained
  have hperm : s.attached.Perm s.locals := by
    refine List.perm_iff_count.mpr fun t => ?_
    have htotal := hbalanced.total t
    rw [hcalls, hqueue, hactions, List.append_nil, change_nil] at htotal
    omega
  exact ⟨hperm, hperm.nodup_iff.mpr hbalanced.nodup⟩

end Writers

instance {τ : Type} [DecidableEq τ] (s : State τ) (a : Label τ) : Decidable (InOrder s a) :=
  match a with
  | .action _ => inferInstanceAs (Decidable (∀ a ∈ _, ∀ track ∈ TrackAction.removes a, _ < _))
  | .handle _ => inferInstanceAs (Decidable (∀ a ∈ _, ∀ track ∈ TrackAction.removes a, _ < _ → _ = _))
  | .addLocal _ => inferInstanceAs (Decidable True)
  | .delLocal _ => inferInstanceAs (Decidable True)
  | .requestKeyframe => inferInstanceAs (Decidable True)
  | .trigger => inferInstanceAs (Decidable True)
  | .get => inferInstanceAs (Decidable True)
  | .write _ => inferInstanceAs (Decidable True)

/-- Two receivers, of which the first leaves again; its removal is handled together with the second
addition, after the first addition. -/
def twoReceivers : List (Label ℕ) :=
  [.addLocal 1, .addLocal 2, .action 0, .trigger, .get, .handle [], .delLocal 1, .action 1,
    .action 0, .trigger, .get, .handle [0], .handle []]

def servingTwo : State ℕ where
  locals := [2]
  pool := { writers := [{ locals := [2] }], count := 2 }

theorem serves_two : Serves servingTwo := by
  have hrun : (system ℕ).exec InOrder {} twoReceivers = some servingTwo := by decide
  exact serves_of_drained (.exec (.init rfl) hrun) ⟨rfl, rfl, rfl⟩

/-- A receiver that is removed before its addition has been queued. -/
def overtaken : List (Label ℕ) :=
  [.addLocal 1, .delLocal 1, .action 1, .action 0, .trigger, .get, .handle [], .handle []]

def servingNobody : State ℕ where
  pool := { writers := [{ locals := [1] }], count := 1 }

theorem not_serves_of_drained :
    ¬ ∀ s : State ℕ, Reachable (system ℕ) Always s → Drained s → Serves s := by
  intro h
  have hrun : (system ℕ).exec Always {} overtaken = some servingNobody := by decide
  have hserves := h servingNobody (.exec (.init rfl) hrun) ⟨rfl, rfl, rfl⟩
  exact absurd hserves.1.length_eq (by decide)

end Sozvon.LocalTracks
