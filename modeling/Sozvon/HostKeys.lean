import Sozvon.Runs
import Mathlib.Data.List.Basic
import Mathlib.Logic.Function.Basic

/-!
# Host keys

The question whether to trust a host key goes to the deploy page, and the answer comes
back on a channel that all pages and all questions share: it says yes or no, and
not to what. Whoever waits for an answer hears every one.

A prompt outlives the connection that it was raised for, by minutes.
-/
namespace Sozvon.HostKeys

open Runs

section Definitions

structure Info where
  host : String
  port : ℕ
  fingerprint : String
deriving DecidableEq

/-- What `config.knownHosts` has the fingerprints under. -/
abbrev Address := String × ℕ

def Info.address (info : Info) : Address := (info.host, info.port)

/-- `config.knownHosts` -/
abbrev KnownHosts := Address → Option String

inductive Status where
  | new
  | known
  | changed
deriving DecidableEq

/-- What `askHostKey` sends to the page. -/
structure Message where
  info : Info
  status : Status
  previous : Option String
deriving DecidableEq

/-- An `askHostKey` that waits: its listener and its timer. -/
structure Prompt where
  id : ℕ
  info : Info
deriving DecidableEq

/-- What the deploy page shows. -/
inductive View where
  | form
  | progress
  | done
  | error
  | hostkey (message : Message)
deriving DecidableEq

/-- A `deploy:hostkey-answer` on its way, with what was on display when the person gave it;
nothing was if it is not from the buttons of the prompt. -/
structure Answer where
  ourOwnPage : Bool
  accepted : Bool
  shown : Option Message
deriving DecidableEq

/-- How a `verifyHostKey` or an answer has ended. -/
inductive Event where
  | matched (info : Info)
  | denied (info : Info)
  | answered (a : Answer) (settled : List Prompt)

structure State where
  knownHosts : KnownHosts
  next : ℕ := 0
  pending : List Prompt := []
  toPage : List Message := []
  view : View := .form
  toMain : List Answer := []
  log : List Event := []

inductive Label where
  /-- A connection of some `deploy:start` has come to the host's key, and the main window is
  there or not. -/
  | verify (info : Info) (mainWindow : Bool)
  /-- A prompt reaches the deploy page. -/
  | deliver
  /-- A prompt is sent to another page or to one that goes away. -/
  | lose
  /-- The page is loaded, or a `deploy:start` begins, returns or fails, by its time-out as well. -/
  | turn (view : View)
  /-- A button of the prompt. -/
  | answer (accepted : Bool)
  /-- Any page sends an answer on its own. -/
  | send (ourOwnPage accepted : Bool)
  /-- An answer reaches the main process. -/
  | arrive
  /-- The timer of a prompt goes off. -/
  | timeOut (p : Prompt)

namespace State

def askHostKey (s : State) (info : Info) : State :=
  let known := s.knownHosts info.address
  let status : Status :=
    if known = none then .new else if known = some info.fingerprint then .known else .changed
  { s with
    next := s.next + 1
    pending := s.pending ++ [⟨s.next, info⟩]
    toPage := s.toPage ++ [⟨info, status, known.filter (· ≠ info.fingerprint)⟩] }

def verifyHostKey (s : State) (info : Info) (mainWindow : Bool) : State :=
  if s.knownHosts info.address = some info.fingerprint then
    { s with log := s.log ++ [.matched info] }
  else if ¬ mainWindow then { s with log := s.log ++ [.denied info] }
  else s.askHostKey info

/-- `config.knownHosts[...] = info.fingerprint` -/
def record (known : KnownHosts) (info : Info) : KnownHosts :=
  Function.update known info.address (some info.fingerprint)

/-- A listener hears an answer. -/
def onAnswer (a : Answer) (r : State × List Prompt) (p : Prompt) : State × List Prompt :=
  if ¬ a.ourOwnPage then r
  else
    ({ r.1 with
        pending := r.1.pending.filter (· ≠ p)
        knownHosts := if a.accepted then record r.1.knownHosts p.info else r.1.knownHosts },
      r.2 ++ [p])

/-- An answer is emitted to the listeners that there are, and settles some of the prompts. -/
def emit (s : State) (a : Answer) : State :=
  let r := s.pending.foldl (onAnswer a) (s, [])
  { r.1 with log := r.1.log ++ [.answered a r.2] }

def step (s : State) : Label → Option State
  | .verify info mainWindow => some (s.verifyHostKey info mainWindow)
  | .deliver =>
      match s.toPage with
      | [] => none
      | m :: rest => some { s with toPage := rest, view := .hostkey m }
  | .lose =>
      match s.toPage with
      | [] => none
      | _ :: rest => some { s with toPage := rest }
  | .turn view =>
      match view with
      | .hostkey _ => none
      | view => some { s with view := view }
  | .answer accepted =>
      match s.view with
      | .hostkey m =>
          some { s with
            toMain := s.toMain ++ [⟨true, accepted, some m⟩]
            view := if accepted then .progress else .form }
      | _ => none
  | .send ourOwnPage accepted =>
      some { s with toMain := s.toMain ++ [⟨ourOwnPage, accepted, none⟩] }
  | .arrive =>
      match s.toMain with
      | [] => none
      | a :: rest => some ({ s with toMain := rest }.emit a)
  | .timeOut p =>
      if p ∈ s.pending then
        some { s with pending := s.pending.filter (· ≠ p), log := s.log ++ [.denied p.info] }
      else none

end State

/-- The main process and the deploy page, with some hosts known from before. -/
def system (known : KnownHosts) : System State Label where
  init s := s = { knownHosts := known }
  step := State.step

/-- An acceptance finds one prompt waiting, about what was on display when it was given. -/
def ForItsPrompt (pending : List Prompt) (a : Answer) : Prop :=
  ∃ p, pending = [p] ∧ ∃ m ∈ a.shown, m.info = p.info

instance (pending : List Prompt) (a : Answer) : Decidable (ForItsPrompt pending a) :=
  match pending with
  | [] => isFalse fun ⟨_, h, _⟩ => nomatch h
  | [p] => decidable_of_iff (∃ m ∈ a.shown, m.info = p.info)
      ⟨fun h => ⟨p, rfl, h⟩, fun ⟨_, hp, h⟩ => List.singleton_inj.mp hp ▸ h⟩
  | _ :: _ :: _ => isFalse fun ⟨_, h, _⟩ => nomatch h

/-- Whenever an acceptance of one of our own pages arrives, it is for the prompt that waits. -/
def Paired (s : State) : Label → Prop
  | .arrive => ∀ a ∈ s.toMain.head?, a.ourOwnPage = true → a.accepted = true →
      ForItsPrompt s.pending a
  | _ => True

instance (s : State) (l : Label) : Decidable (Paired s l) :=
  match l with
  | .arrive => inferInstanceAs (Decidable (∀ a ∈ s.toMain.head?, _ → _ → _))
  | .verify .. | .deliver | .lose | .turn _ | .answer _ | .send .. | .timeOut _ =>
      isTrue trivial

/-- What has come of an answer. An acceptance has settled one prompt, about what was on
display, and a page that is not our own has settled none. -/
def Event.Sound : Event → Prop
  | .answered a settled =>
      (a.ourOwnPage = false → settled = []) ∧
        (a.ourOwnPage = true → a.accepted = true →
          ∃ p, settled = [p] ∧ ∃ m ∈ a.shown, m.info = p.info)
  | _ => True

/-- The person has accepted a key while the page displayed it. -/
def Accepted (log : List Event) (info : Info) : Prop :=
  ∃ a settled, Event.answered a settled ∈ log ∧ a.ourOwnPage = true ∧ a.accepted = true ∧
    ∃ m ∈ a.shown, m.info = info

structure Trusted (known : KnownHosts) (s : State) : Prop where
  recorded : ∀ info : Info, s.knownHosts info.address = some info.fingerprint →
    known info.address = some info.fingerprint ∨ Accepted s.log info
  sound : ∀ e ∈ s.log, e.Sound

end Definitions

/-! ## Answers -/

section Answers

variable {s t : State} {a : Answer} {known : KnownHosts} {l : Label}

namespace State

theorem emit_foreign (h : a.ourOwnPage = false) (s : State) :
    s.emit a = { s with log := s.log ++ [.answered a []] } := by
  have hfold : ∀ (l : List Prompt) (r : State × List Prompt), l.foldl (onAnswer a) r = r := by
    intro l r
    induction l with
    | nil => rfl
    | cons p l ih =>
        have hdeaf : onAnswer a r p = r := if_pos (by rw [h]; decide)
        rw [List.foldl_cons, hdeaf, ih]
  rw [emit, hfold]

theorem foldl_onAnswer (h : a.ourOwnPage = true) (l : List Prompt) (r : State × List Prompt) :
    l.foldl (onAnswer a) r =
      ({ r.1 with
          pending := r.1.pending.filter (· ∉ l)
          knownHosts := if a.accepted then (l.map Prompt.info).foldl record r.1.knownHosts
            else r.1.knownHosts },
        r.2 ++ l) := by
  induction l generalizing r with
  | nil => simp
  | cons p l ih =>
      rw [List.foldl_cons, ih, onAnswer, if_neg (by rw [h]; decide)]
      simp only [List.filter_filter, List.append_assoc, List.singleton_append, List.map_cons,
        List.foldl_cons, List.mem_cons, not_or, Bool.decide_and, Bool.and_comm]
      split_ifs <;> rfl

/-- Every listener hears the answer, whatever prompt it was for. -/
theorem emit_own (h : a.ourOwnPage = true) (s : State) : s.emit a =
    { s with
      pending := []
      knownHosts := if a.accepted then (s.pending.map Prompt.info).foldl record s.knownHosts
        else s.knownHosts
      log := s.log ++ [.answered a s.pending] } := by
  have hnone : s.pending.filter (fun p => p ∉ s.pending) = [] :=
    List.filter_eq_nil_iff.mpr fun p hp => by simp [hp]
  rw [emit, foldl_onAnswer h, hnone]
  rfl

theorem emit_event (s : State) (a : Answer) : (s.emit a).log =
    s.log ++ [.answered a (if a.ourOwnPage then s.pending else [])] := by
  cases h : a.ourOwnPage with
  | false => rw [emit_foreign h]; rfl
  | true => rw [emit_own h]; rfl

/-- A step that is not the arrival of an answer records nothing, and logs at most that a question
has been settled without one. -/
theorem step_cases (h : s.step l = some t) :
    (l ≠ .arrive ∧ t.knownHosts = s.knownHosts ∧
      ∃ events, t.log = s.log ++ events ∧ ∀ e ∈ events, e.Sound) ∨
    l = .arrive ∧ ∃ a rest, s.toMain = a :: rest ∧ t = { s with toMain := rest }.emit a := by
  have hquiet : t.knownHosts = s.knownHosts → t.log = s.log →
      t.knownHosts = s.knownHosts ∧ ∃ events, t.log = s.log ++ events ∧ ∀ e ∈ events, e.Sound :=
    fun hknown hlog => ⟨hknown, [], by rw [hlog, List.append_nil], List.forall_mem_nil _⟩
  have hone : ∀ e : Event, e.Sound → ∀ e' ∈ [e], e'.Sound := fun e he e' hmem =>
    List.mem_singleton.mp hmem ▸ he
  cases l with
  | verify info mainWindow =>
      obtain rfl : s.verifyHostKey info mainWindow = t := Option.some.inj h
      unfold verifyHostKey
      by_cases hknown : s.knownHosts info.address = some info.fingerprint
      · rw [if_pos hknown]
        exact .inl ⟨nofun, rfl, _, rfl, hone _ trivial⟩
      · rw [if_neg hknown]
        by_cases hwindow : ¬ mainWindow = true
        · rw [if_pos hwindow]
          exact .inl ⟨nofun, rfl, _, rfl, hone _ trivial⟩
        · rw [if_neg hwindow]
          exact .inl ⟨nofun, rfl, [], (List.append_nil _).symm, List.forall_mem_nil _⟩
  | deliver =>
      simp only [step] at h
      split at h
      · cases h
      · obtain rfl := Option.some.inj h
        exact .inl ⟨nofun, hquiet rfl rfl⟩
  | lose =>
      simp only [step] at h
      split at h
      · cases h
      · obtain rfl := Option.some.inj h
        exact .inl ⟨nofun, hquiet rfl rfl⟩
  | turn view =>
      simp only [step] at h
      split at h
      · cases h
      · obtain rfl := Option.some.inj h
        exact .inl ⟨nofun, hquiet rfl rfl⟩
  | answer accepted =>
      simp only [step] at h
      split at h
      · obtain rfl := Option.some.inj h
        exact .inl ⟨nofun, hquiet rfl rfl⟩
      · cases h
  | send ourOwnPage accepted =>
      obtain rfl := Option.some.inj h
      exact .inl ⟨nofun, hquiet rfl rfl⟩
  | arrive =>
      simp only [step] at h
      split at h
      · cases h
      · rename_i a rest hmain
        exact .inr ⟨rfl, a, rest, hmain, (Option.some.inj h).symm⟩
  | timeOut p =>
      simp only [step] at h
      split_ifs at h
      obtain rfl := Option.some.inj h
      exact .inl ⟨nofun, rfl, _, rfl, hone _ trivial⟩

theorem step_log (h : s.step l = some t) : s.log <+: t.log := by
  rcases step_cases h with ⟨-, -, events, hlog, -⟩ | ⟨-, a, rest, -, rfl⟩
  · exact hlog ▸ List.prefix_append ..
  · rw [emit_event]
    exact List.prefix_append ..

end State

/-! ## Runs -/

theorem Accepted.mono {log log' : List Event} {info : Info} (h : Accepted log info)
    (hlog : log <+: log') : Accepted log' info := by
  obtain ⟨a, settled, hmem, hrest⟩ := h
  exact ⟨a, settled, hlog.subset hmem, hrest⟩

/-- An answer leaves an event that is sound just when the answer is for its prompt. -/
theorem sound_answered_iff (pending : List Prompt) (a : Answer) :
    (Event.answered a (if a.ourOwnPage then pending else [])).Sound ↔
      (a.ourOwnPage = true → a.accepted = true → ForItsPrompt pending a) := by
  cases h : a.ourOwnPage with
  | false => simp [Event.Sound, h]
  | true => simp [Event.Sound, h, ForItsPrompt]

theorem paired_of_ne (h : l ≠ .arrive) : Paired s l := by
  cases l with
  | arrive => exact absurd rfl h
  | _ => trivial

theorem emit_trusted (h : Trusted known s) (hpaired : a.ourOwnPage = true → a.accepted = true →
    ForItsPrompt s.pending a) : Trusted known (s.emit a) := by
  have hlog : s.log <+: (s.emit a).log := by
    rw [State.emit_event]
    exact List.prefix_append ..
  refine ⟨fun info hinfo => ?_, fun e he => ?_⟩
  · by_cases hknown : s.knownHosts info.address = some info.fingerprint
    · exact (h.recorded info hknown).imp_right (·.mono hlog)
    · -- only an acceptance writes to the table, and it finds one prompt
      cases hown : a.ourOwnPage with
      | false =>
          rw [State.emit_foreign hown] at hinfo
          exact absurd hinfo hknown
      | true =>
          cases haccepted : a.accepted with
          | false =>
              rw [State.emit_own hown, haccepted] at hinfo
              exact absurd hinfo hknown
          | true =>
              obtain ⟨p, hp, m, hm, hinfos⟩ := hpaired hown haccepted
              rw [State.emit_own hown, haccepted, hp] at hinfo
              have hrecord : State.record s.knownHosts p.info info.address =
                  some info.fingerprint := hinfo
              rw [State.record] at hrecord
              by_cases haddress : info.address = p.info.address
              · rw [haddress, Function.update_self, Option.some.injEq] at hrecord
                have hsame : p.info = info := by
                  obtain ⟨hhost, hport⟩ := Prod.mk.inj haddress
                  cases info
                  cases hp' : p.info
                  simp_all
                refine .inr ⟨a, s.pending, ?_, hown, haccepted, m, hm, hinfos.trans hsame⟩
                rw [State.emit_event, hown]
                exact List.mem_append_right _ (List.mem_singleton_self _)
              · rw [Function.update_of_ne haddress] at hrecord
                exact absurd hrecord hknown
  · rw [State.emit_event, List.mem_append, List.mem_singleton] at he
    rcases he with he | rfl
    · exact h.sound e he
    · exact (sound_answered_iff s.pending a).mpr hpaired

theorem step_trusted (h : Trusted known s) (hpaired : Paired s l) (hstep : s.step l = some t) :
    Trusted known t := by
  rcases State.step_cases hstep with
    ⟨-, hknown, events, hlog, hsound⟩ | ⟨rfl, a, rest, hmain, rfl⟩
  · refine ⟨fun info hinfo => ?_, fun e he => ?_⟩
    · exact (h.recorded info (hknown ▸ hinfo)).imp_right (·.mono (hlog ▸ List.prefix_append ..))
    · rw [hlog, List.mem_append] at he
      exact he.elim (h.sound e) (hsound e)
  · have hhead : a ∈ s.toMain.head? := by rw [hmain]; rfl
    exact emit_trusted (s := { s with toMain := rest }) ⟨h.recorded, h.sound⟩ (hpaired a hhead)

theorem trusted_of_reachable (h : Reachable (system known) Paired s) : Trusted known s := by
  refine h.invariant (P := Trusted known) ?_ fun s l t hs hl ht => step_trusted hs hl ht
  rintro s rfl
  exact ⟨fun info hinfo => .inl hinfo, List.forall_mem_nil _⟩

/-- What an answer has done wrong stays in the log. -/
theorem exec_paired {labels : List Label} (h : (system known).exec Always s labels = some t)
    (hsound : ∀ e ∈ t.log, e.Sound) :
    s.log <+: t.log ∧ (system known).exec Paired s labels = some t := by
  induction labels generalizing s with
  | nil =>
      rw [System.exec, Option.some.injEq] at h
      exact ⟨h ▸ List.prefix_refl _, congrArg some h⟩
  | cons l labels ih =>
      obtain ⟨u, hstep, hrest⟩ := (system known).exec_always_cons h
      obtain ⟨hlog, hexec⟩ := ih hrest
      have hpaired : Paired s l := by
        rcases State.step_cases hstep with ⟨hne, -⟩ | ⟨rfl, a, rest, hmain, rfl⟩
        · exact paired_of_ne hne
        · intro a' ha'
          obtain rfl : a = a' := by
            rw [hmain] at ha'
            exact Option.some.inj ha'
          refine (sound_answered_iff s.pending a).mp (hsound _ (hlog.subset ?_))
          rw [State.emit_event]
          exact List.mem_append_right _ (List.mem_singleton_self _)
      refine ⟨(State.step_log hstep).trans hlog, ?_⟩
      rw [System.exec, if_pos hpaired, hstep]
      exact hexec

/-- A run records and trusts what the person has accepted, and only that, just when no
acceptance arrives while another prompt waits, or none, or one about another key. -/
theorem trusted_iff_paired {labels : List Label}
    (h : (system known).exec Always { knownHosts := known } labels = some s) :
    Trusted known s ↔ (system known).exec Paired { knownHosts := known } labels = some s :=
  ⟨fun ht => (exec_paired h ht.sound).2,
    fun hexec => trusted_of_reachable (Reachable.exec (.init rfl) hexec)⟩

def one : Info := ⟨"one.example", 22, "SHA256:1"⟩

def other : Info := ⟨"other.example", 22, "SHA256:2"⟩

/-- A key that is accepted. -/
theorem trusted_iff_paired_one : ∃ s,
    (system fun _ => none).exec Always { knownHosts := fun _ => none }
      [.verify one true, .deliver, .answer true, .arrive] = some s ∧
    (Trusted (fun _ => none) s ↔ (system fun _ => none).exec Paired { knownHosts := fun _ => none }
      [.verify one true, .deliver, .answer true, .arrive] = some s) :=
  ⟨_, rfl, trusted_iff_paired rfl⟩

/-- The prompt of a connection that has timed out, and after it another host's. -/
theorem not_trusted : ¬ ∀ known s, Reachable (system known) Always s → Trusted known s := by
  intro h
  obtain ⟨s, hs⟩ : ∃ s, (system fun _ => none).exec Always { knownHosts := fun _ => none }
      [.verify one true, .deliver, .turn .error, .verify other true, .deliver, .answer true,
        .arrive] = some s := ⟨_, rfl⟩
  have htrusted := h _ s (Reachable.exec (.init rfl) hs)
  have hpaired := (exec_paired hs htrusted.sound).2
  cases hpaired

end Answers

end Sozvon.HostKeys
