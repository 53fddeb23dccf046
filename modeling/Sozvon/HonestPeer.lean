import Sozvon.ControllerTurns

/-!
# A controller alone with an honest peer

Only a `Part` of the controller matters to the handshake with one other
participant who can encrypt too: what each event does to it.
-/
namespace Sozvon.E2EE
open Runs Controller

section Definitions

variable {Id : Type}

structure Part (Id : Type) where
  id : Id
  able : Bool
  users : List Id
  peer : Option Id
  role : Option Role
  startingFor : Option Id
  keyPair : Option KeyPair
  myPub : Option Bytes
  myCommit : Option Bytes
  peerPub : Option Bytes
  peerCommit : Option Bytes
  state : CallState
  generation : ℕ
  calls : List (Suspended Id)
  sent : List (Id × Payload)

def Controller.part (c : Controller Id) : Part Id where
  id := c.id
  able := c.canEncrypt
  users := c.users
  peer := c.peer
  role := c.role
  startingFor := c.startingFor
  keyPair := c.keyPair
  myPub := c.myPub
  myCommit := c.myCommit
  peerPub := c.peerPub
  peerCommit := c.peerCommit
  state := c.state
  generation := c.generation
  calls := c.calls
  sent := c.sent

namespace Part

variable (u : Part Id)

def reset : Part Id :=
  { u with
    generation := u.generation + 1, peer := none, role := none, startingFor := none,
    keyPair := none, myPub := none, myCommit := none, peerPub := none, peerCommit := none }

def renewed [LinearOrder Id] (p : Id) : Part Id :=
  { u.reset with
    peer := some p, startingFor := some p,
    role := some (if u.id < p then .initiator else .responder), state := .handshaking }

/-- A handshake with `p` begins. -/
def begun [LinearOrder Id] (p : Id) : Part Id :=
  { u.renewed p with
    users := [p], calls := u.calls ++ [.starting p (u.generation + 1) none] }

def erase (i : ℕ) : Part Id := { u with calls := u.calls.eraseIdx i }

def suspend (call : Suspended Id) : Part Id := { u with calls := u.calls ++ [call] }

def say (p : Id) (payload : Payload) : Part Id := { u with sent := u.sent ++ [(p, payload)] }

def stored (C : Crypto Id) (kp : KeyPair) : Part Id :=
  { u with
    keyPair := some kp, myPub := some kp.publicKey,
    myCommit := some (C.commit kp.publicKey), startingFor := none }

def fix (commit : Bytes) : Part Id := { u with peerCommit := some commit }

def accept (pub : Bytes) : Part Id := { u with peerPub := some pub }

def finish : Part Id := { u with state := .established }

end Part

/-- The handshake with `p` is under way. -/
structure Engaged (p : Id) (role : Role) (u : Part Id) : Prop where
  users : u.users = [p]
  peer : u.peer = some p
  role : u.role = some role
  starts : u.keyPair = none → u.startingFor = some p

end Definitions

section Effects

variable {Id : Type} [LinearOrder Id] {C : Crypto Id} {c d : Controller Id} {p : Id} {role : Role}

omit [LinearOrder Id] in
theorem supported_of_able (h : c.part.able = true) : c.supported = true :=
  (Bool.and_eq_true_iff.mp h).1

omit [LinearOrder Id] in
theorem able_not (h : c.part.able = true) : ¬ (!c.supported) = true := by
  simp [supported_of_able h]

theorem startWith_engaged (h : Engaged p role c.part) (waiting : Option Payload) :
    c.startWith p waiting = waiting.elim c fun payload => c.suspend (.resuming payload) := by
  have hpeer : c.peer = some p := h.peer
  have hunder : c.underway p = true := by
    cases hkey : c.keyPair with
    | some kp => simp [underway, hpeer, hkey]
    | none =>
        have hstart : c.startingFor = some p := h.starts hkey
        simp [underway, hpeer, hstart]
  unfold startWith
  rw [hunder, Bool.or_true, if_pos rfl]

omit [LinearOrder Id] in
theorem part_setWorkerMode (cleartext : Bool) : (c.setWorkerMode cleartext).part = c.part := rfl

omit [LinearOrder Id] in
theorem part_resetPeer : c.resetPeer.part = c.part.reset := by
  unfold resetPeer
  rfl

theorem part_renew (p : Id) : (c.renew p).part = c.part.renewed p := by
  unfold renew Part.renewed
  rw [← part_resetPeer]
  rfl

theorem part_startWith_alone (hable : c.part.able = true) (hu : c.users = [p])
    (hpeer : c.peer = none) : (c.startWith p none).part = c.part.begun p := by
  have hnot : ¬ (!c.supported || c.underway p) = true := by
    simp [underway, hpeer, supported_of_able hable]
  have hmode : ((c.renew p).setWorkerMode false).part = c.part.renewed p :=
    (part_setWorkerMode false).trans (part_renew p)
  unfold startWith
  rw [if_neg hnot]
  generalize (c.renew p).setWorkerMode false = e at hmode
  have hlast : ({ e with handshakeTimer := some e.generation }.suspend
      (.starting p e.generation none)).part =
    e.part.suspend (.starting p e.part.generation none) := rfl
  have hu' : c.part.users = [p] := hu
  dsimp only
  rw [hlast, hmode, Part.begun, ← hu']
  rfl

theorem recompute_alone (hable : c.canEncrypt = true) (hu : c.users = [p]) (up : Bool) :
    c.recompute up = c.startWith p none := by
  unfold recompute
  rw [hu]
  dsimp only
  rw [hable]
  rfl

theorem part_addUser_alone (hne : p ≠ c.id) (hable : c.part.able = true) (hu : c.part.users = [])
    (hpeer : c.part.peer = none) : (c.addUser p true).part = c.part.begun p := by
  have hu' : c.users = [] := hu
  unfold addUser
  rw [if_neg hne, hu', if_neg List.not_mem_nil, List.nil_append]
  have hstart := recompute_alone (c := { c with users := [p] }) hable rfl true
  rw [hstart]
  exact part_startWith_alone hable rfl hpeer

theorem addUser_engaged (h : Engaged p role c.part) (hne : p ≠ c.id) (hable : c.part.able = true) :
    c.addUser p true = c := by
  have hu : c.users = [p] := h.users
  have hsame : ({ c with users := if p ∈ c.users then c.users else c.users ++ [p] } : Controller Id) =
      c := by
    rw [if_pos (hu ▸ List.mem_singleton_self p)]
  unfold addUser
  rw [if_neg hne, hsame, recompute_alone hable hu, startWith_engaged h]
  rfl

omit [LinearOrder Id] in
theorem part_slow (gen : ℕ) : (c.slow gen).part = c.part := by
  unfold slow
  dsimp only
  split
  · rename_i hslow
    simp only [Controller.part, Part.mk.injEq]
    exact ⟨rfl, rfl, rfl, rfl, rfl, rfl, rfl, rfl, rfl, rfl, rfl, hslow.2.symm, rfl, rfl, rfl⟩
  · rfl

/-- What comes before the peer is known is lost. -/
theorem onMessage_away (hu : c.part.users = []) (payload : Payload) :
    c.onMessage p (some payload) true = c := by
  have hu' : c.users = [] := hu
  unfold onMessage
  dsimp only
  rw [hu', if_pos (by simp)]

/-- What comes before the key pair is there waits for `startWith`. -/
theorem onMessage_starting (h : Engaged p role c.part) (hable : c.part.able = true)
    (hkey : c.part.keyPair = none) {payload : Payload} (ht : payload.t ≠ .nocrypto) :
    c.onMessage p (some payload) true = c.suspend (.resuming payload) := by
  have hu : c.users = [p] := h.users
  unfold onMessage
  dsimp only
  rw [if_neg (not_not.mpr hu), if_neg (able_not hable), if_neg ht, if_pos (.inr hkey), startWith_engaged h]
  rfl

theorem onMessage_keyed (h : Engaged p role c.part) (hable : c.part.able = true)
    (hkey : c.part.keyPair ≠ none) {payload : Payload} (ht : payload.t ≠ .nocrypto) :
    c.onMessage p (some payload) true = c.answer payload true := by
  have hu : c.users = [p] := h.users
  have hpeer : c.peer = some p := h.peer
  have hkeyed : ¬ (c.peer ≠ some p ∨ c.keyPair = none) := by
    rintro (hother | hnone)
    · exact hother hpeer
    · exact hkey hnone
  unfold onMessage
  dsimp only
  rw [if_neg (not_not.mpr hu), if_neg (able_not hable), if_neg ht, if_neg hkeyed]

omit [LinearOrder Id] in
/-- An open socket takes the message for the peer. -/
theorem part_send (hpeer : c.part.peer = some p) {payload : Payload} {returned : Bool}
    (h : c.send payload true = (d, returned)) :
    d.part = c.part.say p payload.stamped ∧ returned = true := by
  obtain ⟨hsent, hreturned⟩ := sent_of_send hpeer h
  obtain ⟨⟨sent, rfl⟩, -⟩ := send_eq h
  have hsent' : sent = c.sent ++ [(p, payload.stamped)] := hsent
  rw [hsent']
  exact ⟨rfl, hreturned⟩

omit [LinearOrder Id] in
theorem answer_unkeyed (h : c.part.myCommit = none) (payload : Payload) :
    c.answer payload true = c := by
  have hmine : c.myCommit = none := h
  unfold answer
  rw [if_pos hmine, ite_self]

omit [LinearOrder Id] in
theorem answer_established (h : c.part.state = .established) (payload : Payload) :
    c.answer payload true = c := by
  have hstate : c.state = .established := h
  unfold answer
  rw [if_pos (.inl hstate)]

/-- The handshake with `p` is past the key pair and not done yet. -/
structure Talking (p : Id) (role : Role) (u : Part Id) : Prop extends Engaged p role u where
  state : u.state = .handshaking
  own : u.myCommit ≠ none

omit [LinearOrder Id] in
theorem answer_hello_initiator (h : Talking p .initiator c.part) :
    c.answer helloPayload true = c := by
  have hstate : c.state = .handshaking := h.state
  have hrole : c.role = some .initiator := h.role
  have hown : c.myCommit ≠ none := h.own
  simp [answer, helloPayload, hstate, hrole, hown]

omit [LinearOrder Id] in
/-- A responder repeats its commitment for every hello. -/
theorem part_answer_hello (h : Talking p .responder c.part) :
    (c.answer helloPayload true).part = c.part.say p (commitPayload c.part.myCommit) := by
  have hstate : c.state = .handshaking := h.state
  have hrole : c.role = some .responder := h.role
  have hown : c.myCommit ≠ none := h.own
  have hanswer : c.answer helloPayload true =
      (c.send { t := .commit, commit := c.myCommit } true).1 := by
    simp [answer, helloPayload, hstate, hrole, hown]
  rw [hanswer]
  exact (part_send h.peer rfl).1

omit [LinearOrder Id] in
/-- The initiator fixes a commitment and sends its key. -/
theorem part_answer_commit (h : Talking p .initiator c.part) {commit : Bytes}
    (hfresh : c.part.peerCommit = none) :
    (c.answer (commitPayload (some commit)) true).part =
      (c.part.fix commit).say p (dhPayload c.part.myPub) := by
  have hstate : c.state = .handshaking := h.state
  have hrole : c.role = some .initiator := h.role
  have hown : c.myCommit ≠ none := h.own
  have hfresh' : c.peerCommit = none := hfresh
  have hanswer : c.answer (commitPayload (some commit)) true =
      ({ c with peerCommit := some commit }.send { t := .dh, pub := c.myPub } true).1 := by
    simp [answer, commitPayload, hstate, hrole, hown, hfresh']
  rw [hanswer]
  have hpeer : ({ c with peerCommit := some commit } : Controller Id).part.peer = some p := h.peer
  exact (part_send hpeer rfl).1

omit [LinearOrder Id] in
/-- The same commitment again is no news. -/
theorem answer_commit_again (h : Talking p .initiator c.part) {commit : Bytes}
    (hfixed : c.part.peerCommit = some commit) :
    c.answer (commitPayload (some commit)) true = c := by
  have hstate : c.state = .handshaking := h.state
  have hrole : c.role = some .initiator := h.role
  have hown : c.myCommit ≠ none := h.own
  have hfixed' : c.peerCommit = some commit := hfixed
  simp [answer, commitPayload, hstate, hrole, hown, hfixed']

omit [LinearOrder Id] in
theorem answer_dh_again (h : Talking p role c.part) {pub : Bytes}
    (hknown : c.part.peerPub = some pub) : c.answer (dhPayload (some pub)) true = c := by
  have hstate : c.state = .handshaking := h.state
  have hown : c.myCommit ≠ none := h.own
  have hknown' : c.peerPub = some pub := hknown
  simp [answer, dhPayload, hstate, hown, hknown']

omit [LinearOrder Id] in
theorem answer_dh_initiator (h : Talking p .initiator c.part) {pub : Bytes}
    (hfresh : c.part.peerPub = none) (hfixed : c.part.peerCommit ≠ none) :
    c.answer (dhPayload (some pub)) true = c.suspend (.hashing pub) := by
  have hstate : c.state = .handshaking := h.state
  have hrole : c.role = some .initiator := h.role
  have hown : c.myCommit ≠ none := h.own
  have hfresh' : c.peerPub = none := hfresh
  have hfixed' : c.peerCommit ≠ none := hfixed
  simp [answer, dhPayload, hstate, hrole, hown, hfresh', hfixed']

/-- Nothing is missing that `finalize` needs. -/
structure Part.Complete (u : Part Id) : Prop where
  key : u.keyPair ≠ none
  mine : u.myPub ≠ none
  theirs : u.peerPub ≠ none
  peer : u.peer ≠ none
  commit : (if u.role = some .initiator then u.peerCommit else u.myCommit) ≠ none

omit [LinearOrder Id] in
theorem part_finalize (h : c.part.Complete) : ∃ s, s.gen = c.part.generation ∧
    c.finalize.part = c.part.suspend (.finalizing s .agree) := by
  obtain ⟨kp, hkey⟩ := Option.ne_none_iff_exists'.mp h.key
  obtain ⟨mine, hpub⟩ := Option.ne_none_iff_exists'.mp h.mine
  obtain ⟨theirs, htheirs⟩ := Option.ne_none_iff_exists'.mp h.theirs
  obtain ⟨q, hpeer⟩ := Option.ne_none_iff_exists'.mp h.peer
  obtain ⟨commit, hcommit⟩ := Option.ne_none_iff_exists'.mp h.commit
  have hkey' : c.keyPair = some kp := hkey
  have hpub' : c.myPub = some mine := hpub
  have htheirs' : c.peerPub = some theirs := htheirs
  have hpeer' : c.peer = some q := hpeer
  have hcommit' : (if c.role = some .initiator then c.peerCommit else c.myCommit) = some commit :=
    hcommit
  have hsession : ∃ s : Session Id, c.session = some s ∧ s.gen = c.generation := by
    simp [session, hkey', hpub', htheirs', hpeer', hcommit']
  obtain ⟨s, hs, hgen⟩ := hsession
  refine ⟨s, hgen, ?_⟩
  unfold finalize
  rw [hs]
  rfl

omit [LinearOrder Id] in
/-- The responder takes the initiator's key. -/
theorem part_answer_dh (h : Talking p .responder c.part) {pub : Bytes}
    (hfresh : c.part.peerPub = none) (hkey : c.part.keyPair ≠ none) (hpub : c.part.myPub ≠ none) :
    ∃ s, s.gen = c.part.generation ∧ (c.answer (dhPayload (some pub)) true).part =
      ((c.part.accept pub).say p (dhPayload c.part.myPub)).suspend (.finalizing s .agree) := by
  have hstate : c.state = .handshaking := h.state
  have hrole : c.role = some .responder := h.role
  have hown : c.myCommit ≠ none := h.own
  have hfresh' : c.peerPub = none := hfresh
  rcases hsend : { c with peerPub := some pub }.send { t := .dh, pub := c.myPub } true
    with ⟨e, returned⟩
  have hpeer : ({ c with peerPub := some pub } : Controller Id).part.peer = some p := h.peer
  obtain ⟨hpart, rfl⟩ := part_send hpeer hsend
  have hanswer : c.answer (dhPayload (some pub)) true = e.finalize := by
    have hgoing : ¬ (c.state = .established ∨ c.state = .failed) := by simp [hstate]
    unfold answer
    have hversion : ¬ (dhPayload (some pub)).v ≠ some PROTOCOL_VERSION := fun h => h rfl
    rw [if_neg hgoing, if_neg hown, if_neg hversion]
    dsimp only [dhPayload]
    rw [hfresh']
    dsimp only
    rw [if_pos hrole, hsend]
  have hcomplete : e.part.Complete := by
    rw [hpart]
    refine ⟨hkey, hpub, nofun, ?_, ?_⟩
    · have hseat : c.part.peer ≠ none := by simp [h.peer]
      exact hseat
    · have hcommit : (if c.part.role = some .initiator then c.part.peerCommit
          else c.part.myCommit) ≠ none := by
        rw [h.role, if_neg nofun]
        exact h.own
      exact hcommit
  obtain ⟨s, hgen, hfinal⟩ := part_finalize hcomplete
  rw [hanswer, hfinal, hpart]
  rw [hpart] at hgen
  exact ⟨s, hgen, rfl⟩

/-- The key pair is there. -/
theorem part_started {gen : ℕ} {kp : KeyPair} {returned : Bool} (h : Engaged p role c.part)
    (hgen : gen = c.part.generation) (hd : c.started C p gen kp true = (d, returned)) :
    returned = true ∧ d.part = if role = .responder then
      ((c.part.stored C kp).say p helloPayload).say p (commitPayload (some (C.commit kp.publicKey)))
      else (c.part.stored C kp).say p helloPayload := by
  have hpeer : c.peer = some p := h.peer
  have hcurrent : ¬ (c.peer ≠ some p ∨ gen ≠ c.generation) := by
    rintro (hother | hold)
    · exact hother hpeer
    · exact hold hgen
  have hrole : c.role = some role := h.role
  unfold started at hd
  rw [if_neg hcurrent] at hd
  dsimp only at hd
  have hplace : ({ c with
      keyPair := some kp, myPub := some kp.publicKey,
      myCommit := some (C.commit kp.publicKey), startingFor := none } : Controller Id).part.peer =
    some p := h.peer
  split at hd
  · rename_i hsend
    cases (part_send hplace hsend).2
  · rename_i e hsend
    have hpart := (part_send hplace hsend).1
    have hrole' : e.role = some role := (congrArg Part.role hpart).trans hrole
    have hseat : e.part.peer = some p := (congrArg Part.peer hpart).trans hpeer
    cases role with
    | responder =>
        rw [if_pos hrole'] at hd
        obtain ⟨hlast, hreturned⟩ := part_send hseat hd
        have hmine : e.myCommit = some (C.commit kp.publicKey) := congrArg Part.myCommit hpart
        rw [hmine, hpart] at hlast
        exact ⟨hreturned, hlast⟩
    | initiator =>
        have hother : ¬ e.role = some .responder := by simp [hrole']
        rw [if_neg hother] at hd
        cases hd
        exact ⟨rfl, hpart⟩

omit [LinearOrder Id] in
/-- The key opens the commitment, and is taken. -/
theorem part_hashed (h : Talking p .initiator c.part) {pub : Bytes}
    (hfixed : c.part.peerCommit = some (C.commit pub)) (hfresh : c.part.peerPub = none)
    (hkey : c.part.keyPair ≠ none) (hpub : c.part.myPub ≠ none) :
    ∃ s, s.gen = c.part.generation ∧
      (c.hashed C pub).part = (c.part.accept pub).suspend (.finalizing s .agree) := by
  have hfixed' : c.peerCommit = some (C.commit pub) := hfixed
  have hfresh' : ¬ (c.peerPub.isSome = true ∨ c.state ≠ .handshaking) := by
    have hfresh' : c.peerPub = none := hfresh
    have hstate : c.state = .handshaking := h.state
    simp [hfresh', hstate]
  have hcomplete : ({ c with peerPub := some pub } : Controller Id).part.Complete := by
    refine ⟨hkey, hpub, nofun, ?_, ?_⟩
    · have hseat : c.part.peer ≠ none := by simp [h.peer]
      exact hseat
    · have hcommit : (if c.part.role = some .initiator then c.part.peerCommit
          else c.part.myCommit) ≠ none := by
        rw [h.role, if_pos rfl, hfixed]
        exact nofun
      exact hcommit
  obtain ⟨s, hgen, hfinal⟩ := part_finalize hcomplete
  have hhash : c.hashed C pub = { c with peerPub := some pub }.finalize := by
    unfold hashed
    split
    · rename_i hnone
      rw [hfixed'] at hnone
      cases hnone
    · rename_i commit hcommit
      obtain rfl := Option.some.inj (hfixed'.symm.trans hcommit)
      rw [if_neg (not_not.mpr rfl), if_neg hfresh']
  rw [hhash, hfinal]
  exact ⟨s, hgen, rfl⟩

omit [LinearOrder Id] in
/-- Another key has been taken meanwhile. -/
theorem hashed_again {pub : Bytes} (hfixed : c.part.peerCommit = some (C.commit pub))
    (hknown : c.part.peerPub ≠ none) : c.hashed C pub = c := by
  have hfixed' : c.peerCommit = some (C.commit pub) := hfixed
  have hknown' : c.peerPub.isSome = true ∨ c.state ≠ .handshaking :=
    .inl (Option.isSome_iff_ne_none.mpr hknown)
  unfold hashed
  rw [hfixed']
  dsimp only
  rw [if_neg (not_not.mpr rfl), if_pos hknown']

omit [LinearOrder Id] in
theorem part_finalizing {s : Session Id} {await : Await Id} (hgen : s.gen = c.part.generation) :
    (∃ next, (c.finalizing C s await).part = c.part.suspend (.finalizing s next)) ∨
      (c.finalizing C s await).part = c.part.finish := by
  have hcurrent : ¬ s.gen ≠ c.generation := not_not.mpr hgen
  unfold Controller.finalizing
  rw [if_neg hcurrent]
  cases await with
  | agree => exact .inl ⟨_, rfl⟩
  | transcript secret => exact .inl ⟨_, rfl⟩
  | media secret salt streamId rest =>
      cases rest with
      | nil => exact .inl ⟨_, rfl⟩
      | cons next rest => exact .inl ⟨_, rfl⟩
  | chat secret salt => exact .inl ⟨_, rfl⟩
  | sas secret salt => exact .inr rfl

end Effects

end Sozvon.E2EE
