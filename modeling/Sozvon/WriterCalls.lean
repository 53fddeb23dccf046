import Sozvon.LocalTracks
import Sozvon.WriterCounts

/-!
# The calls of a pool as single steps

`LocalTracks` takes a call of `rtpWriterPool.add` for one step, in which the
writers answer at once and one that ends may be late. `WriterPool` has the
goroutines and their channels. Whatever these do in between, the pool that a
call leaves behind is one that such a step leads to.
-/
namespace Sozvon.WriterPool
open Runs

section Definitions

variable {τ : Type} [DecidableEq τ]

inductive PoolCall (τ : Type) where
  | add (track : τ) (add : Bool) (late : List ℕ)
  | write (writer : ℕ)
  | close
deriving DecidableEq, Repr

/-- The pool whose calls are steps. -/
def calls (τ : Type) [DecidableEq τ] : System (LocalTracks.Pool τ) (PoolCall τ) where
  init wp := wp = {}
  step wp
    | .add track add late => some (wp.add track add late)
    | .write writer =>
        match wp.writers[writer]? with
        | some w => if w.done then some { wp with writers := wp.writers.eraseIdx writer } else none
        | none => none
    | .close => some {}

/-- What a step knows of a writer: its tracks, and whether it has left its loop. -/
def Writer.outline (m : Writer τ) : LocalTracks.Writer τ where
  locals := m.tracks
  done := m.loop ≠ .running

def Pool.outlines (s : Pool τ) : List (LocalTracks.Writer τ) :=
  s.writers.map fun w => (s.mem w).outline

def Pool.outline (s : Pool τ) : LocalTracks.Pool τ where
  writers := s.outlines
  count := s.count

def reply : Option Err → LocalTracks.Reply
  | none => .ok
  | some .writerDead => .writerDead
  | some .writerBusy => .writerBusy
  | some .unknownTrack | some .deletingUnknown => .unknownTrack

/-- What asking one writer after the other may come to. -/
inductive Tries (c : Call τ) :
    List (LocalTracks.Writer τ) → List (LocalTracks.Writer τ) → Bool → Prop
  | nil : Tries c [] [] false
  | found {w w' : LocalTracks.Writer τ} {ws : List (LocalTracks.Writer τ)} {late : Bool} :
      w.add c.track c.add c.n late = (w', .ok) → Tries c (w :: ws) (w' :: ws) true
  | dead {w w' : LocalTracks.Writer τ} {ws ws' : List (LocalTracks.Writer τ)} {late found : Bool} :
      w.add c.track c.add c.n late = (w', .writerDead) → Tries c ws ws' found →
      Tries c (w :: ws) ws' found
  | next {w w' : LocalTracks.Writer τ} {ws ws' : List (LocalTracks.Writer τ)} {late found : Bool}
      {reply : LocalTracks.Reply} : w.add c.track c.add c.n late = (w', reply) →
      reply = .writerBusy ∨ reply = .unknownTrack → Tries c ws ws' found →
      Tries c (w :: ws) (w' :: ws') found

/-- However the rest of the list is gone through, the whole list has been gone through so. -/
def Leads (c : Call τ) (wp : LocalTracks.Pool τ) (front rest : List (LocalTracks.Writer τ)) : Prop :=
  ∀ ws found, Tries c rest ws found → Tries c wp.writers (front ++ ws) found

/-- A writer has been made, since all the others have been asked in vain. -/
structure Made (s : Pool τ) (wp : LocalTracks.Pool τ) (c : Call τ) (w : ℕ) : Prop where
  add : c.add = true
  last : ∃ l, s.writers = l ++ [w] ∧
    Tries c wp.writers (l.map fun v => (s.mem v).outline) false

/-- How far the list has been gone through when a writer is asked. -/
def Upto (s : Pool τ) (wp : LocalTracks.Pool τ) (c : Call τ) : Place → Prop
  | .nth i => Leads c wp (s.outlines.take i) (s.outlines.drop i)
  | .made w => Made s wp c w ∧ (s.mem w).outline = {}

/-- How far it has been gone through when the writer has answered; a writer that has ended since may
be taken for dead. -/
def Answered (s : Pool τ) (wp : LocalTracks.Pool τ) (c : Call τ) (err : Option Err) : Place → Prop
  | .nth i => ∃ w v, s.writers[i]? = some w ∧
      Leads c wp (s.outlines.take i) (v :: s.outlines.drop (i + 1)) ∧
      v.add c.track c.add c.n false = ((s.mem w).outline, reply err) ∧
      ((s.mem w).loop ≠ .running → ∃ v', v.add c.track c.add c.n true = (v', .writerDead))
  | .made w => err = none ∧ Made s wp c w ∧ (s.mem w).outline = { locals := [c.track] }

/-- The call has been made on this pool. -/
structure Called (s : Pool τ) (wp : LocalTracks.Pool τ) (c : Call τ) : Prop where
  count : s.count = wp.count
  n : c.n = maxTracks wp.count

/-- What has become of the pool that the last call but this one has left. -/
def Follows (s : Pool τ) (wp : LocalTracks.Pool τ) : Caller τ → Prop
  | .returned _ => (∀ w ∈ s.writers, Idle (s.mem w)) ∧ s.outline = wp
  | .asking c p => (∀ w ∈ s.writers, Idle (s.mem w)) ∧ Called s wp c ∧ Upto s wp c p
  | .waiting c p none => Called s wp c ∧ Upto s wp c p ∧ ∃ w ∈ s.writers, s.target p = some w ∧
      (∀ v ∈ s.writers, v ≠ w → Idle (s.mem v)) ∧
      ((s.mem w).loop = .running → (s.mem w).action = some ⟨c.add, c.track, c.n⟩)
  | .waiting c p (some err) => (∀ w ∈ s.writers, Idle (s.mem w)) ∧ Called s wp c ∧
      Answered s wp c err p

structure Simulates (s : Pool τ) (wp : LocalTracks.Pool τ) : Prop where
  nodup : s.writers.Nodup
  old : ∀ w ∈ s.writers, w < s.next
  opened : ∀ w ∈ s.writers, (s.mem w).closed = false
  follows : Follows s wp s.caller

end Definitions

section Tries

variable {τ : Type} [DecidableEq τ] {c : Call τ} {ws ws' : List (LocalTracks.Writer τ)}

theorem tryWriters_congr {track : τ} {add : Bool} {n : ℕ} {late late' : List ℕ}
    (h : ∀ k < ws.length, k ∈ late ↔ k ∈ late') :
    LocalTracks.tryWriters track add n late ws = LocalTracks.tryWriters track add n late' ws := by
  induction ws with
  | nil => rfl
  | cons w ws ih =>
      have hlate : decide (ws.length ∈ late) = decide (ws.length ∈ late') :=
        decide_eq_decide.mpr (h _ (Nat.lt_succ_self _))
      rw [LocalTracks.tryWriters, LocalTracks.tryWriters, hlate,
        ih fun k hk => h k (Nat.lt_succ_of_lt hk)]

/-- Whether the first writer is late does not matter to the others. -/
theorem exists_late (first : Bool) {late : List ℕ} (hlate : ∀ k ∈ late, k < ws.length) :
    ∃ late', (∀ k ∈ late', k < ws.length + 1) ∧ decide (ws.length ∈ late') = first ∧
      ∀ track add n, LocalTracks.tryWriters track add n late' ws =
        LocalTracks.tryWriters (τ := τ) track add n late ws := by
  have hnot : ws.length ∉ late := fun hmem => Nat.lt_irrefl _ (hlate _ hmem)
  cases first with
  | false =>
      exact ⟨late, fun k hk => Nat.lt_succ_of_lt (hlate k hk), decide_eq_false hnot, fun _ _ _ => rfl⟩
  | true =>
      refine ⟨ws.length :: late, fun k hk => ?_, decide_eq_true List.mem_cons_self, fun _ _ _ => ?_⟩
      · rcases List.mem_cons.mp hk with rfl | hk
        · exact Nat.lt_succ_self _
        · exact Nat.lt_succ_of_lt (hlate k hk)
      · exact tryWriters_congr fun k hk => List.mem_cons.trans (or_iff_right (Nat.ne_of_lt hk))

/-- Each of these ways is one that `tryWriters` takes. -/
theorem Tries.tryWriters {found : Bool} (h : Tries c ws ws' found) :
    ∃ late, (∀ k ∈ late, k < ws.length) ∧
      LocalTracks.tryWriters c.track c.add c.n late ws = (ws', found) := by
  induction h with
  | nil => exact ⟨[], nofun, rfl⟩
  | @found w w' ws first hadd =>
      have hnone : ∀ k ∈ ([] : List ℕ), k < ws.length := nofun
      obtain ⟨late, hlate, hfirst, -⟩ := exists_late first hnone
      refine ⟨late, hlate, ?_⟩
      rw [LocalTracks.tryWriters, hfirst, hadd]
  | @dead w w' ws ws' first found hadd _ ih =>
      obtain ⟨rest, hrest, htry⟩ := ih
      obtain ⟨late, hlate, hfirst, hsame⟩ := exists_late first hrest
      refine ⟨late, hlate, ?_⟩
      rw [LocalTracks.tryWriters, hfirst, hadd]
      exact (hsame _ _ _).trans htry
  | @next w w' ws ws' first found reply hadd hreply _ ih =>
      obtain ⟨rest, hrest, htry⟩ := ih
      obtain ⟨late, hlate, hfirst, hsame⟩ := exists_late first hrest
      refine ⟨late, hlate, ?_⟩
      rw [LocalTracks.tryWriters, hfirst, hadd, hsame, htry]
      rcases hreply with rfl | rfl
      · rfl
      · rfl

end Tries

section Outlines

variable {τ : Type} {s t : Pool τ} {w : ℕ}

theorem Alike.outline (h : Alike s t) (hw : w ∈ s.writers) :
    (t.mem w).outline = (s.mem w).outline := by
  obtain ⟨htracks, -, hloop⟩ := h.mem w hw
  rw [Writer.outline, Writer.outline, htracks]
  exact congrArg (LocalTracks.Writer.mk _) (decide_eq_decide.mpr (not_congr hloop))

theorem Alike.outlines (h : Alike s t) : t.outlines = s.outlines := by
  rw [Pool.outlines, Pool.outlines, h.writers]
  exact List.map_congr_left fun w hw => h.outline hw

theorem outlines_get {i : ℕ} (hi : s.writers[i]? = some w) :
    s.outlines[i]? = some (s.mem w).outline := by
  rw [Pool.outlines, List.getElem?_map, hi]
  rfl

theorem drop_outlines {i : ℕ} (hi : s.writers[i]? = some w) :
    s.outlines.drop i = (s.mem w).outline :: s.outlines.drop (i + 1) := by
  obtain ⟨hlt, hget⟩ := List.getElem?_eq_some_iff.mp (outlines_get hi)
  rw [← hget, List.getElem_cons_drop]

theorem take_outlines {i : ℕ} (hi : s.writers[i]? = some w) :
    s.outlines.take (i + 1) = s.outlines.take i ++ [(s.mem w).outline] := by
  rw [List.take_add_one, outlines_get hi]
  rfl

/-- Something happens to one writer of the list. -/
theorem outlines_set (hnodup : s.writers.Nodup) {i : ℕ} (hi : s.writers[i]? = some w) (m : Writer τ) :
    (s.set w m).outlines = s.outlines.set i m.outline := by
  refine List.ext_getElem? fun j => ?_
  rw [List.getElem?_set, Pool.outlines, Pool.outlines, List.getElem?_map, List.getElem?_map,
    List.length_map]
  obtain ⟨hlt, hget⟩ := List.getElem?_eq_some_iff.mp hi
  by_cases hij : i = j
  · subst hij
    rw [if_pos rfl, if_pos hlt]
    change (s.writers[i]?).map _ = _
    rw [hi, Option.map_some, Pool.set]
    dsimp only
    rw [Function.update_self]
  · rw [if_neg hij]
    change (s.writers[j]?).map _ = _
    cases hj : s.writers[j]? with
    | none => rfl
    | some v =>
        have hvw : v ≠ w := by
          rintro rfl
          obtain ⟨hlt', hget'⟩ := List.getElem?_eq_some_iff.mp hj
          exact hij ((hnodup.getElem_inj_iff).mp (hget.trans hget'.symm))
        rw [Option.map_some, Option.map_some, Pool.set]
        dsimp only
        rw [Function.update_of_ne hvw]

/-- A writer is deleted. -/
theorem outlines_del (hnodup : s.writers.Nodup) {i : ℕ} (hi : s.writers[i]? = some w) :
    (s.del w).outlines = s.outlines.eraseIdx i := by
  obtain ⟨hlt, hget⟩ := List.getElem?_eq_some_iff.mp hi
  have hwriters : (s.del w).writers = s.writers.eraseIdx i := by
    rw [del_eq (List.mem_of_getElem? hi), ← hget]
    exact hnodup.erase_getElem i hlt
  have hmem : (s.del w).outlines = (s.del w).writers.map fun v => (s.mem v).outline :=
    List.map_congr_left fun v hv => by rw [(mem_of_mem_del hnodup hv).2.2]
  rw [hmem, hwriters, Pool.outlines, List.eraseIdx_map]

theorem outline_of_ended (h : (s.mem w).loop ≠ .running) : (s.mem w).outline.done = true :=
  decide_eq_true h

variable [DecidableEq τ]

theorem add_of_done {m : LocalTracks.Writer τ} (h : m.done = true) (track : τ) (add : Bool) (n : ℕ)
    (late : Bool) : m.add track add n late = (m, .writerDead) := if_pos h

/-- What a writer does in its loop is what is known of it in a step. -/
theorem outline_handle {m : Writer τ} (hrun : m.loop = .running) (c : Call τ) :
    m.outline.add c.track c.add c.n false =
        ((m.handle ⟨c.add, c.track, c.n⟩).1.outline, reply (m.handle ⟨c.add, c.track, c.n⟩).2) ∧
      ((m.handle ⟨c.add, c.track, c.n⟩).1.loop ≠ .running →
        ∃ v, m.outline.add c.track c.add c.n true = (v, .writerDead)) := by
  have hdone : m.outline.done = false := decide_eq_false (not_not.mpr hrun)
  have hlocals : m.outline.locals = m.tracks := rfl
  unfold LocalTracks.Writer.add Writer.handle
  rw [hdone, if_neg Bool.false_ne_true, if_neg Bool.false_ne_true, hlocals]
  dsimp only
  by_cases hadd : c.add = true
  · rw [if_pos hadd, if_pos hadd, if_pos hadd]
    by_cases hfull : c.n ≤ m.tracks.length
    · rw [if_pos hfull, if_pos hfull]
      exact ⟨rfl, fun hnot => absurd hrun hnot⟩
    · rw [if_neg hfull, if_neg hfull]
      refine ⟨?_, fun hnot => absurd hrun hnot⟩
      exact congrArg (Prod.mk · _) (congrArg _ hdone.symm)
  · rw [if_neg hadd, if_neg hadd, if_neg hadd]
    have hreply : (if c.track ∈ m.tracks then LocalTracks.Reply.ok else .unknownTrack) =
        reply (if c.track ∈ m.tracks then none else some .unknownTrack) := by
      split_ifs <;> rfl
    by_cases hlast : (m.tracks.erase c.track).length = 0
    · rw [if_pos hlast, if_pos hlast, if_pos hlast, hreply]
      exact ⟨rfl, fun _ => ⟨_, rfl⟩⟩
    · rw [if_neg hlast, if_neg hlast, if_neg hlast, hreply]
      refine ⟨?_, fun hnot => absurd hrun hnot⟩
      exact congrArg (Prod.mk · _) (congrArg _ hdone.symm)

end Outlines

section Frame

variable {τ : Type} [DecidableEq τ] {s t : Pool τ} {wp : LocalTracks.Pool τ} {c : Call τ} {p : Place}
  {err : Option Err} {w : ℕ}

theorem Made.mem (h : Made s wp c w) : w ∈ s.writers := by
  obtain ⟨l, hl, -⟩ := h.last
  rw [hl]
  exact List.mem_append_right _ (List.mem_singleton_self _)

theorem eq_none_of_reply (h : reply err = .ok) : err = none := by
  rcases err with _ | e
  · rfl
  · cases e <;> cases h

theorem Made.set (h : Made s wp c w) (hnodup : s.writers.Nodup) (m : Writer τ) (x : Caller τ) :
    Made { s.set w m with caller := x } wp c w := by
  obtain ⟨l, hl, htries⟩ := h.last
  refine ⟨h.add, l, hl, ?_⟩
  have hsame : (l.map fun v => ((s.set w m).mem v).outline) = l.map fun v => (s.mem v).outline := by
    refine List.map_congr_left fun v hv => ?_
    have hvw : v ≠ w := by
      rintro rfl
      rw [hl] at hnodup
      exact (List.nodup_append.mp hnodup).2.2 v hv v (List.mem_singleton_self v) rfl
    rw [Pool.set]
    dsimp only
    rw [Function.update_of_ne hvw]
  exact hsame.symm ▸ htries

theorem Alike.made (h : Alike s t) (hmade : Made s wp c w) : Made t wp c w := by
  obtain ⟨l, hl, htries⟩ := hmade.last
  refine ⟨hmade.add, l, h.writers.trans hl, ?_⟩
  have hsame : (l.map fun v => (t.mem v).outline) = l.map fun v => (s.mem v).outline :=
    List.map_congr_left fun v hv => h.outline (hl ▸ List.mem_append_left _ hv)
  exact hsame.symm ▸ htries

theorem Alike.upto (h : Alike s t) (hp : Upto s wp c p) : Upto t wp c p := by
  cases p with
  | nth i =>
      rw [Upto] at hp ⊢
      rwa [h.outlines]
  | made w => exact ⟨h.made hp.1, (h.outline hp.1.mem).trans hp.2⟩

theorem Alike.answered (h : Alike s t) (hp : Answered s wp c err p) : Answered t wp c err p := by
  cases p with
  | nth i =>
      obtain ⟨w, v, hi, hleads, hadd, hlate⟩ := hp
      have hw := List.mem_of_getElem? hi
      refine ⟨w, v, h.writers.symm ▸ hi, ?_, ?_, fun hnot => hlate fun hrun => hnot ?_⟩
      · rwa [h.outlines]
      · rwa [h.outline hw]
      · exact ((h.mem w hw).2.2).mpr hrun
  | made w => exact ⟨hp.1, h.made hp.2.1, (h.outline hp.2.1.mem).trans hp.2.2⟩

omit [DecidableEq τ] in
theorem Alike.called (h : Alike s t) (hc : Called s wp c) : Called t wp c :=
  ⟨h.count.trans hc.count, hc.n⟩

theorem Alike.simulates (h : Alike s t) (hs : Simulates s wp) (hfollows : Follows t wp t.caller) :
    Simulates t wp where
  nodup := h.writers.symm ▸ hs.nodup
  old := by
    rw [h.writers, h.next]
    exact hs.old
  opened w hw := by
    rw [h.writers] at hw
    rw [(h.mem w hw).2.1]
    exact hs.opened w hw
  follows := hfollows

theorem Same.follows (h : Same s t) {x : Caller τ} (hx : Follows s wp x) : Follows t wp x := by
  cases x with
  | returned last =>
      refine ⟨h.idle hx.1, hx.2 ▸ ?_⟩
      rw [Pool.outline, Pool.outline, h.outlines, h.count]
  | asking c p => exact ⟨h.idle hx.1, h.called hx.2.1, h.upto hx.2.2⟩
  | waiting c p answer =>
      cases answer with
      | none =>
          obtain ⟨hcalled, hupto, w, hw, htarget, hothers, haction⟩ := hx
          refine ⟨h.called hcalled, h.upto hupto, w, h.writers.symm ▸ hw,
            (h.target p).trans htarget, fun v hv hne => ?_, ?_⟩
          · rw [h.writers] at hv
            rw [Idle, h.action v hv, (h.mem v hv).2.2]
            exact hothers v hv hne
          · rwa [h.action w hw, (h.mem w hw).2.2]
      | some err => exact ⟨h.idle hx.1, h.called hx.2.1, h.answered hx.2.2⟩

theorem Simulates.same (h : Simulates s wp) (hsame : Same s t) : Simulates t wp :=
  hsame.simulates h (hsame.caller.symm ▸ hsame.follows h.follows)

/-- A writer that has been asked, and is dead, does not count. -/
theorem Leads.dead {front rest : List (LocalTracks.Writer τ)} {v v' : LocalTracks.Writer τ}
    {late : Bool} (h : Leads c wp front (v :: rest))
    (hdead : v.add c.track c.add c.n late = (v', .writerDead)) : Leads c wp front rest :=
  fun ws found htries => h ws found (.dead hdead htries)

end Frame

section Steps

variable {τ : Type} [DecidableEq τ] {s t : Pool τ} {wp : LocalTracks.Pool τ} {c : Call τ} {p : Place}
  {w : ℕ} {last : Option (Call τ × Option Err)}

theorem simulates_call (h : Simulates s wp) (hs : s.caller = .returned last) {track : τ} {add : Bool} :
    Simulates { s with caller := .asking { track, add, n := maxTracks s.count } (.nth 0) } wp := by
  have hfollows := h.follows
  rw [hs] at hfollows
  obtain ⟨hidle, rfl⟩ := hfollows
  exact (alike_caller s _).simulates h ⟨hidle, ⟨rfl, rfl⟩, fun ws found htries => htries⟩

/-- Everybody has been asked. -/
theorem tries_last (h : Simulates s wp) {i : ℕ} (hs : s.caller = .asking c (.nth i))
    (hlt : ¬ i < s.writers.length) : Tries c wp.writers s.outlines false := by
  have hfollows := h.follows
  rw [hs] at hfollows
  obtain ⟨-, -, hleads⟩ := hfollows
  have hlength : s.outlines.length ≤ i := by
    rw [Pool.outlines, List.length_map]
    exact Nat.not_lt.mp hlt
  rw [Upto, List.take_of_length_le hlength, List.drop_of_length_le hlength] at hleads
  have htries := hleads [] false .nil
  rwa [List.append_nil] at htries

theorem simulates_make (h : Simulates s wp) {i : ℕ} (hs : s.caller = .asking c (.nth i))
    (hlt : ¬ i < s.writers.length) (hadd : c.add = true) : Simulates (s.make c) wp := by
  have hfollows := h.follows
  rw [hs] at hfollows
  obtain ⟨hidle, hcalled, -⟩ := hfollows
  have hnext : s.next ∉ s.writers := fun hmem => Nat.lt_irrefl _ (h.old _ hmem)
  have hself : (s.make c).mem s.next = {} := Function.update_self ..
  have hold {v : ℕ} (hv : v ∈ s.writers) : (s.make c).mem v = s.mem v := by
    have hne : v ≠ s.next := fun heq => hnext (heq ▸ hv)
    exact Function.update_of_ne hne ..
  have hmem {P : ℕ → Prop} (hP : ∀ v ∈ s.writers, P v) (hlast : P s.next) :
      ∀ v ∈ (s.make c).writers, P v := by
    intro v hv
    rcases List.mem_append.mp hv with hv | hv
    · exact hP v hv
    · exact List.mem_singleton.mp hv ▸ hlast
  have hsame : (s.writers.map fun v => ((s.make c).mem v).outline) = s.outlines :=
    List.map_congr_left fun v hv => by rw [hold hv]
  refine ⟨?_, ?_, ?_, ?_, ⟨hcalled.count, hcalled.n⟩, ⟨hadd, s.writers, rfl, ?_⟩, ?_⟩
  · exact List.Nodup.append h.nodup (List.nodup_singleton _) (List.disjoint_singleton.mpr hnext)
  · exact hmem (fun v hv => Nat.lt_succ_of_lt (h.old v hv)) (Nat.lt_succ_self _)
  · exact hmem (fun v hv => (hold hv).symm ▸ h.opened v hv) (hself.symm ▸ rfl)
  · exact hmem (fun v hv => (hold hv).symm ▸ hidle v hv) (hself.symm ▸ fun _ => rfl)
  · rw [hsame]
    exact tries_last h hs hlt
  · rw [hself]
    rfl

theorem simulates_send (h : Simulates s wp) (hs : s.caller = .asking c p) (hw : s.target p = some w) :
    Simulates { s.set w { s.mem w with action := some ⟨c.add, c.track, c.n⟩ } with
      caller := .waiting c p none } wp := by
  have hfollows := h.follows
  rw [hs] at hfollows
  obtain ⟨hidle, hcalled, hupto⟩ := hfollows
  have hmem : w ∈ s.writers := by
    cases p with
    | nth i => exact List.mem_of_getElem? hw
    | made v =>
        cases hw
        exact hupto.1.mem
  have halike := alike_action (s := s) w (some ⟨c.add, c.track, c.n⟩) (.waiting c p none)
  refine halike.simulates h ⟨halike.called hcalled, halike.upto hupto, w, hmem,
    (halike.target p).trans hw, fun v hv hne => ?_, fun _ => ?_⟩
  · rw [Pool.set]
    dsimp only
    rw [Function.update_of_ne hne]
    exact hidle v hv
  · rw [Pool.set]
    dsimp only
    rw [Function.update_self]

/-- A call that a writer has obeyed. -/
theorem add_found {ws : List (LocalTracks.Writer τ)} (hn : c.n = maxTracks wp.count)
    (h : Tries c wp.writers ws true) : ∃ late, wp.add c.track c.add late =
      { writers := ws, count := if c.add then wp.count + 1 else wp.count - 1 } := by
  obtain ⟨late, -, htry⟩ := h.tryWriters
  refine ⟨late, ?_⟩
  rw [LocalTracks.Pool.add, ← hn, htry]

/-- A removal that everybody has been asked for in vain. -/
theorem add_missing {ws : List (LocalTracks.Writer τ)} (hn : c.n = maxTracks wp.count)
    (h : Tries c wp.writers ws false) (hadd : ¬ c.add = true) : ∃ late,
      wp.add c.track c.add late = { wp with writers := ws } := by
  obtain ⟨late, -, htry⟩ := h.tryWriters
  refine ⟨late, ?_⟩
  rw [LocalTracks.Pool.add, ← hn, htry]
  exact if_neg hadd

/-- A writer that has just been made is not busy. -/
theorem add_to_made (hn : c.n = maxTracks wp.count) (hadd : c.add = true) :
    ({} : LocalTracks.Writer τ).add c.track c.add c.n false = ({ locals := [c.track] }, .ok) := by
  have hroom : ¬ c.n ≤ 0 := Nat.not_le.mpr (hn ▸ maxTracks_pos _)
  simp only [LocalTracks.Writer.add, Bool.false_eq_true, if_false, hadd, if_true, List.length_nil,
    if_neg hroom, List.nil_append]

theorem add_made {ws : List (LocalTracks.Writer τ)} (hn : c.n = maxTracks wp.count)
    (h : Tries c wp.writers ws false) (hadd : c.add = true) : ∃ late, wp.add c.track c.add late =
      { writers := ws ++ [{ locals := [c.track] }], count := wp.count + 1 } := by
  obtain ⟨late, -, htry⟩ := h.tryWriters
  have hmade := add_to_made hn hadd
  rw [hadd] at hmade
  refine ⟨late, ?_⟩
  rw [LocalTracks.Pool.add, ← hn, htry]
  dsimp only
  rw [if_pos hadd, hmade]

theorem simulates_returned (h : Simulates s wp) (hidle : ∀ w ∈ s.writers, Idle (s.mem w)) {count : ℕ}
    {x : Option (Call τ × Option Err)} {wp' : LocalTracks.Pool τ}
    (hwp : { writers := s.outlines, count } = wp') :
    Simulates { s with count, caller := .returned x } wp' :=
  ⟨h.nodup, h.old, h.opened, hidle, hwp⟩

theorem simulates_missing (h : Simulates s wp) {i : ℕ} (hs : s.caller = .asking c (.nth i))
    (hlt : ¬ i < s.writers.length) (hadd : ¬ c.add = true) {x : Option (Call τ × Option Err)} :
    ∃ b wp', (calls τ).step wp b = some wp' ∧ Simulates { s with caller := .returned x } wp' := by
  have hfollows := h.follows
  rw [hs] at hfollows
  obtain ⟨hidle, hcalled, -⟩ := hfollows
  obtain ⟨late, hstep⟩ := add_missing hcalled.n (tries_last h hs hlt) hadd
  refine ⟨.add c.track c.add late, _, congrArg some hstep, simulates_returned h hidle ?_⟩
  exact congrArg (LocalTracks.Pool.mk _) hcalled.count

/-- The writer that the call is at is deleted. -/
theorem simulates_del (h : Simulates s wp) {i : ℕ} (hi : s.writers[i]? = some w)
    (hothers : ∀ v ∈ s.writers, v ≠ w → Idle (s.mem v)) (hcalled : Called s wp c)
    (hleads : Leads c wp (s.outlines.take i) (s.outlines.drop (i + 1))) :
    Simulates { s.del w with caller := .asking c (.nth i) } wp := by
  have hw := List.mem_of_getElem? hi
  have hlength : (s.outlines.take i).length = i := by
    obtain ⟨hlt, -⟩ := List.getElem?_eq_some_iff.mp (outlines_get hi)
    rw [List.length_take]
    omega
  have hdel : (s.del w).outlines = s.outlines.take i ++ s.outlines.drop (i + 1) :=
    (outlines_del h.nodup hi).trans (List.eraseIdx_eq_take_drop_succ ..)
  have hmem {P : ℕ → Writer τ → Prop} (hP : ∀ v ∈ s.writers, v ≠ w → P v (s.mem v)) :
      ∀ v ∈ (s.del w).writers, P v ((s.del w).mem v) := by
    intro v hv
    obtain ⟨hold, hne, hsame⟩ := mem_of_mem_del h.nodup hv
    exact hsame.symm ▸ hP v hold (hne hw)
  refine ⟨?_, ?_, ?_, ?_, ⟨?_, hcalled.n⟩, ?_⟩
  · rw [del_eq hw]
    exact h.nodup.erase w
  · rw [del_eq hw]
    exact fun v hv => h.old v (List.mem_of_mem_erase hv)
  · exact hmem (P := fun _ m => m.closed = false) fun v hv _ => h.opened v hv
  · exact hmem (P := fun _ m => Idle m) hothers
  · rw [del_eq hw]
    exact hcalled.count
  · change Leads c wp ((s.del w).outlines.take i) ((s.del w).outlines.drop i)
    rwa [hdel, List.take_left' hlength, List.drop_left' hlength]

theorem simulates_dead (h : Simulates s wp)
    (hs : s.caller = .asking c p ∨ ∃ answer, s.caller = .waiting c p answer)
    (hw : s.target p = some w) (hdone : (s.mem w).loop = .done) :
    Simulates (s.result c p w (some .writerDead)) wp := by
  have hfollows := h.follows
  have hnot : (s.mem w).loop ≠ .running := by
    rw [hdone]
    nofun
  have hended := outline_of_ended hnot
  -- a writer that has not been reached, or has not answered, was dead before it was asked
  have hplace (hcalled : Called s wp c) (hothers : ∀ v ∈ s.writers, v ≠ w → Idle (s.mem v))
      (hupto : Upto s wp c p) : Simulates (s.result c p w (some .writerDead)) wp := by
    cases p with
    | nth i =>
        rw [Upto, drop_outlines hw] at hupto
        exact simulates_del h hw hothers hcalled
          (hupto.dead (add_of_done hended c.track c.add c.n false))
    | made v =>
        cases hw
        rw [hupto.2] at hended
        cases hended
  rcases hs with hs | ⟨answer, hs⟩
  · rw [hs] at hfollows
    exact hplace hfollows.2.1 (fun v hv _ => hfollows.1 v hv) hfollows.2.2
  · rw [hs] at hfollows
    cases answer with
    | none =>
        obtain ⟨hcalled, hupto, v, -, htarget, hothers, -⟩ := hfollows
        obtain rfl := Option.some.inj (htarget.symm.trans hw)
        exact hplace hcalled hothers hupto
    | some err =>
        obtain ⟨hidle, hcalled, hanswered⟩ := hfollows
        cases p with
        | nth i =>
            obtain ⟨w', v, hi, hleads, -, hlate⟩ := hanswered
            obtain rfl := Option.some.inj (hi.symm.trans hw)
            obtain ⟨v', hdead⟩ := hlate hnot
            exact simulates_del h hi (fun v hv _ => hidle v hv) hcalled (hleads.dead hdead)
        | made v =>
            cases hw
            rw [hanswered.2.2] at hended
            cases hended

theorem simulates_answer (h : Simulates s wp) {err : Option Err}
    (hs : s.caller = .waiting c p (some err)) (hw : s.target p = some w) :
    Simulates (s.result c p w err) wp ∨
      ∃ b wp', (calls τ).step wp b = some wp' ∧ Simulates (s.result c p w err) wp' := by
  have hfollows := h.follows
  rw [hs] at hfollows
  obtain ⟨hidle, hcalled, hanswered⟩ := hfollows
  cases p with
  | nth i =>
      obtain ⟨w', v, hi, hleads, hadd, -⟩ := hanswered
      obtain rfl := Option.some.inj (hi.symm.trans hw)
      rcases err with _ | e
      · have htries : Tries c wp.writers s.outlines true := by
          have hall := hleads _ _ (.found hadd)
          rwa [← drop_outlines hi, List.take_append_drop] at hall
        obtain ⟨late, hstep⟩ := add_found hcalled.n htries
        refine .inr ⟨.add c.track c.add late, _, congrArg some hstep, simulates_returned h hidle ?_⟩
        rw [hcalled.count]
        refine congrArg (LocalTracks.Pool.mk _) (if_congr Iff.rfl rfl ?_)
        split_ifs <;> omega
      · refine .inl ?_
        have hnext (hreply : reply (some e) = .writerBusy ∨ reply (some e) = .unknownTrack) :
            Simulates { s with caller := .asking c (.nth (i + 1)) } wp := by
          refine (alike_caller s _).simulates h
            ⟨hidle, ⟨hcalled.count, hcalled.n⟩, fun ws found htries => ?_⟩
          have hall := hleads _ _ (.next hadd hreply htries)
          change Tries c wp.writers (s.outlines.take (i + 1) ++ ws) found
          rwa [take_outlines hi, List.append_assoc]
        cases e with
        | writerDead =>
            exact simulates_del h hi (fun v hv _ => hidle v hv) hcalled (hleads.dead hadd)
        | writerBusy => exact hnext (.inl rfl)
        | unknownTrack | deletingUnknown => exact hnext (.inr rfl)
  | made v =>
      obtain ⟨rfl, hmade, houtline⟩ := hanswered
      obtain ⟨l, hl, htries⟩ := hmade.last
      obtain ⟨late, hstep⟩ := add_made hcalled.n htries hmade.add
      refine .inr ⟨.add c.track c.add late, _, congrArg some hstep, simulates_returned h hidle ?_⟩
      rw [hcalled.count, Pool.outlines, hl, List.map_append, List.map_singleton, houtline]

/-- The writer that a caller waits for takes the action. -/
theorem simulates_handled (h : Simulates s wp) (hs : s.caller = .waiting c p none) (hw : w ∈ s.writers)
    (htarget : s.target p = some w) (hothers : ∀ v ∈ s.writers, v ≠ w → Idle (s.mem v))
    (hrun : (s.mem w).loop = .running) :
    Simulates { s.set w ((s.mem w).handle ⟨c.add, c.track, c.n⟩).1 with
      caller := .waiting c p (some ((s.mem w).handle ⟨c.add, c.track, c.n⟩).2) } wp := by
  have hfollows := h.follows
  rw [hs] at hfollows
  obtain ⟨hcalled, hupto, -⟩ := hfollows
  obtain ⟨hadd, hlate⟩ := outline_handle hrun c
  have hfree : ((s.mem w).handle ⟨c.add, c.track, c.n⟩).1.action = none ∧
      ((s.mem w).handle ⟨c.add, c.track, c.n⟩).1.closed = (s.mem w).closed := by
    rcases handle_cases (s.mem w) ⟨c.add, c.track, c.n⟩ with
      ⟨-, -, hhandle⟩ | ⟨-, hhandle⟩ | ⟨-, -, hhandle⟩ | ⟨-, -, hhandle⟩ <;>
    · rw [hhandle]
      exact ⟨rfl, rfl⟩
  have hself (m : Writer τ) : (s.set w m).mem w = m := Function.update_self ..
  have hne (m : Writer τ) {v : ℕ} (hv : v ≠ w) : (s.set w m).mem v = s.mem v :=
    Function.update_of_ne hv ..
  generalize hm : (s.mem w).handle ⟨c.add, c.track, c.n⟩ = r at hadd hlate hfree
  obtain ⟨m, err⟩ := r
  refine ⟨h.nodup, h.old, fun v hv => ?_, idle_set hothers hfree.1, ⟨hcalled.count, hcalled.n⟩, ?_⟩
  · change ((s.set w m).mem v).closed = false
    by_cases hvw : v = w
    · rw [hvw, hself, hfree.2]
      exact h.opened w hw
    · rw [hne m hvw]
      exact h.opened v hv
  · cases p with
    | nth i =>
        obtain ⟨hlt, -⟩ := List.getElem?_eq_some_iff.mp (outlines_get htarget)
        have hset := outlines_set h.nodup htarget m
        refine ⟨w, (s.mem w).outline, htarget, ?_, ?_, ?_⟩
        · change Leads c wp ((s.set w m).outlines.take i) (_ :: (s.set w m).outlines.drop (i + 1))
          rw [Upto, drop_outlines htarget] at hupto
          rwa [hset, List.take_set_of_le (Nat.le_refl i), List.drop_set_of_lt (Nat.lt_succ_self i)]
        · change _ = (((s.set w m).mem w).outline, reply err)
          rw [hself]
          exact hadd
        · change ((s.set w m).mem w).loop ≠ .running → _
          rw [hself]
          exact hlate
    | made v =>
        cases htarget
        obtain ⟨hmade, hempty⟩ := hupto
        rw [hempty, add_to_made hcalled.n hmade.add] at hadd
        obtain ⟨houtline, hreply⟩ := Prod.mk.inj hadd
        refine ⟨eq_none_of_reply hreply.symm, hmade.set h.nodup m _, ?_⟩
        change ((s.set w m).mem w).outline = _
        rw [hself]
        exact houtline.symm

theorem simulates_handle (h : Simulates s wp) (hrun : (s.mem w).loop = .running) {a : Action τ}
    (ha : (s.mem w).action = some a) :
    Simulates ((s.set w ((s.mem w).handle a).1).deliver w ((s.mem w).handle a).2) wp := by
  have hfollows := h.follows
  have hbusy {v : ℕ} (hidle : Idle (s.mem v)) : v ≠ w := by
    rintro rfl
    rw [hidle hrun] at ha
    cases ha
  by_cases hw : w ∈ s.writers
  · cases hs : s.caller with
    | returned last =>
        rw [hs] at hfollows
        exact absurd rfl (hbusy (hfollows.1 w hw))
    | asking c p =>
        rw [hs] at hfollows
        exact absurd rfl (hbusy (hfollows.1 w hw))
    | waiting c p answer =>
        rw [hs] at hfollows
        cases answer with
        | none =>
            obtain ⟨-, -, v, hv, htarget, hothers, haction⟩ := hfollows
            have hvw : v = w := by
              by_contra hne
              exact hbusy (hothers w hw (Ne.symm hne)) rfl
            subst hvw
            rw [deliver_target hs htarget, Option.some.inj (ha.symm.trans (haction hrun))]
            exact simulates_handled h hs hv htarget hothers hrun
        | some err => exact absurd rfl (hbusy (hfollows.1 w hw))
  · have hwaits (c : Call τ) (p : Place) (hs : s.caller = .waiting c p none) :
        ∃ v ∈ s.writers, s.target p = some v := by
      rw [hs] at hfollows
      obtain ⟨-, -, v, hv, htarget, -⟩ := hfollows
      exact ⟨v, hv, htarget⟩
    exact (deliver_of_not_mem hw hwaits _ _).symm ▸ h.same (same_set hw _)

/-- A packet finds a dead writer, which may have been deleted before. -/
theorem simulates_reap (h : Simulates s wp) (hs : s.caller = .returned last)
    (hdone : (s.mem w).loop = .done) : Simulates (s.del w) wp ∨
      ∃ b wp', (calls τ).step wp b = some wp' ∧ Simulates (s.del w) wp' := by
  by_cases hw : w ∈ s.writers
  · right
    have hfollows := h.follows
    rw [hs] at hfollows
    obtain ⟨hidle, rfl⟩ := hfollows
    obtain ⟨i, hi⟩ := List.mem_iff_getElem?.mp hw
    have hended : (s.mem w).outline.done = true := outline_of_ended (by rw [hdone]; nofun)
    refine ⟨.write i, { s.outline with writers := s.outlines.eraseIdx i }, ?_, ?_⟩
    · have hget : s.outline.writers[i]? = some (s.mem w).outline := outlines_get hi
      simp only [calls, hget, hended, if_true]
      rfl
    · have hcaller : (s.del w).caller = .returned last := by
        rw [del_eq hw]
        exact hs
      refine ⟨?_, ?_, fun v hv => ?_, ?_⟩
      · rw [del_eq hw]
        exact h.nodup.erase w
      · rw [del_eq hw]
        exact fun v hv => h.old v (List.mem_of_mem_erase hv)
      · obtain ⟨hold, -, hsame⟩ := mem_of_mem_del h.nodup hv
        rw [hsame]
        exact h.opened v hold
      · rw [hcaller]
        refine ⟨fun v hv => ?_, ?_⟩
        · obtain ⟨hold, -, hsame⟩ := mem_of_mem_del h.nodup hv
          rw [hsame]
          exact hidle v hold
        · rw [Pool.outline, outlines_del h.nodup hi, del_eq hw]
          rfl
  · rw [Pool.del, if_neg hw]
    exact .inl h

theorem simulates_close (s : Pool τ) : Simulates {
    s with
    mem := fun w => if w ∈ s.writers then { s.mem w with closed := true } else s.mem w
    writers := []
    count := 0
    caller := .returned none } {} where
  nodup := List.nodup_nil
  old := nofun
  opened := nofun
  follows := ⟨nofun, rfl⟩

theorem simulates_step (h : Simulates s wp) {l : Label τ} (hstep : s.step l = some t) :
    Simulates t wp ∨ ∃ b wp', (calls τ).step wp b = some wp' ∧ Simulates t wp' := by
  cases l with
  | call track add =>
      rw [Pool.step] at hstep
      split at hstep
      · exact .inl (Option.some.inj hstep ▸ simulates_call h ‹_›)
      · cases hstep
  | last =>
      rw [Pool.step] at hstep
      split at hstep
      · split_ifs at hstep with hlt hadd
        · exact .inl (Option.some.inj hstep ▸ simulates_make h ‹_› hlt hadd)
        · exact .inr (Option.some.inj hstep ▸ simulates_missing h ‹_› hlt hadd)
      · cases hstep
  | send =>
      rw [Pool.step] at hstep
      split at hstep
      · obtain ⟨w, hw, hsend⟩ := Option.bind_eq_some_iff.mp hstep
        split_ifs at hsend
        exact .inl (Option.some.inj hsend ▸ simulates_send h ‹_› hw)
      · cases hstep
  | answer =>
      rw [Pool.step] at hstep
      split at hstep
      · obtain ⟨w, hw, rfl⟩ := Option.map_eq_some_iff.mp hstep
        exact simulates_answer h ‹_› hw
      · cases hstep
  | dead =>
      rw [Pool.step] at hstep
      split at hstep
      · rename_i c p hs
        obtain ⟨w, hw, hdead⟩ := Option.bind_eq_some_iff.mp hstep
        split_ifs at hdead with hdone
        exact .inl (Option.some.inj hdead ▸ simulates_dead h (.inl hs) hw hdone)
      · rename_i c p answer hs
        obtain ⟨w, hw, hdead⟩ := Option.bind_eq_some_iff.mp hstep
        split_ifs at hdead with hdone
        exact .inl (Option.some.inj hdead ▸ simulates_dead h (.inr ⟨answer, hs⟩) hw hdone)
      · cases hstep
  | handle w =>
      rw [Pool.step] at hstep
      split_ifs at hstep with hrun
      obtain ⟨a, ha, rfl⟩ := Option.map_eq_some_iff.mp hstep
      exact .inl (simulates_handle h hrun ha)
  | hangUp w =>
      rw [Pool.step] at hstep
      split_ifs at hstep with hclosed
      have hw : w ∉ s.writers := fun hmem => by
        rw [h.opened w hmem] at hclosed
        exact Bool.false_ne_true hclosed.2
      exact .inl (Option.some.inj hstep ▸ h.same (same_set hw _))
  | finish w =>
      rw [Pool.step] at hstep
      split_ifs at hstep with hloop
      exact .inl (Option.some.inj hstep ▸ h.same (same_finish hloop))
  | reap w =>
      rw [Pool.step] at hstep
      split at hstep
      · split_ifs at hstep with hdone
        exact Option.some.inj hstep ▸ simulates_reap h ‹_› hdone
      · cases hstep
  | close =>
      rw [Pool.step] at hstep
      split at hstep
      · exact .inr ⟨.close, {}, rfl, Option.some.inj hstep ▸ simulates_close s⟩
      · cases hstep

/-- In every run each call that has returned counts as a step. -/
theorem simulates_of_reachable (h : Reachable (system τ) Always s) :
    ∃ wp, Reachable (calls τ) Always wp ∧ Simulates s wp := by
  refine h.simulated (R := Simulates) (fun s hs => ?_)
    fun s l t wp hsim _ hstep => simulates_step hsim hstep
  subst hs
  exact ⟨{}, rfl, List.nodup_nil, nofun, nofun, nofun, rfl⟩

/-- Between two calls the pool is one that calls have come to that are made in single steps. -/
theorem outline_of_reachable (h : Reachable (system τ) Always s) (hs : s.caller = .returned last) :
    Reachable (calls τ) Always s.outline := by
  obtain ⟨wp, hwp, hsim⟩ := simulates_of_reachable h
  have hfollows := hsim.follows
  rw [hs] at hfollows
  exact hfollows.2 ▸ hwp

theorem pool_step {s t : LocalTracks.State τ} {l : LocalTracks.Label τ} (h : s.step l = some t) :
    t.pool = s.pool ∨ ∃ b wp, (calls τ).step s.pool b = some wp ∧ t.pool = wp := by
  cases l with
  | addLocal track =>
      rw [← Option.some.inj h, LocalTracks.State.addLocal]
      split <;> exact .inl rfl
  | delLocal track =>
      rw [← Option.some.inj h, LocalTracks.State.delLocal]
      split <;> exact .inl rfl
  | requestKeyframe => exact .inl (Option.some.inj h ▸ rfl)
  | action call =>
      obtain ⟨a, -, rfl⟩ := Option.map_eq_some_iff.mp h
      exact .inl rfl
  | trigger =>
      rw [LocalTracks.State.step] at h
      split_ifs at h
      exact .inl (Option.some.inj h ▸ rfl)
  | get =>
      rw [LocalTracks.State.step] at h
      split_ifs at h
      exact .inl (Option.some.inj h ▸ rfl)
  | handle late =>
      rw [LocalTracks.State.step] at h
      split at h
      · cases h
      · rename_i a actions hactions
        rw [← Option.some.inj h]
        cases a with
        | add track => exact .inr ⟨.add track true late, _, rfl, rfl⟩
        | del track => exact .inr ⟨.add track false late, _, rfl, rfl⟩
        | keyframe => exact .inl rfl
  | write writer =>
      rw [LocalTracks.State.step] at h
      split at h
      · rename_i w hw
        split_ifs at h with hdone
        refine .inr ⟨.write writer, t.pool, ?_, rfl⟩
        rw [← Option.some.inj h]
        simp only [calls, hw, hdone, if_true]
      · cases h

/-- The pool of a track that goes on is one of these. -/
theorem pool_of_reachable {ok : LocalTracks.State τ → LocalTracks.Label τ → Prop}
    {s : LocalTracks.State τ} (h : Reachable (LocalTracks.system τ) ok s) :
    Reachable (calls τ) Always s.pool := by
  obtain ⟨wp, hwp, rfl⟩ := h.simulated (R := fun s wp => s.pool = wp)
    (T := calls τ) (fun s hs => ⟨{}, rfl, by rw [hs]⟩) fun s l t wp hsame _ hstep => by
      subst hsame
      exact pool_step hstep
  exact hwp

end Steps

end Sozvon.WriterPool
