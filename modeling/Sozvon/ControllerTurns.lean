import Sozvon.WorkerMode

/-!
# What one turn does to the handshake

The fields that a handshake is made of are a controller's `Hand`. A turn of the
event loop changes it in one of a few ways, whichever event or continuation it
is, and sends little; both are said once here, and what holds over whole runs
of the handshake is shown by going through these ways.
-/
namespace Sozvon.E2EE
open Runs Controller

section Definitions

variable {Id : Type}

structure Hand (Id : Type) where
  resets : ℕ
  generation : ℕ
  peer : Option Id
  role : Option Role
  keyPair : Option KeyPair
  myPub : Option Bytes
  myCommit : Option Bytes
  peerPub : Option Bytes
  peerCommit : Option Bytes
  state : CallState
  transformFailed : Bool

def Controller.hand (c : Controller Id) : Hand Id where
  resets := c.resets
  generation := c.generation
  peer := c.peer
  role := c.role
  keyPair := c.keyPair
  myPub := c.myPub
  myCommit := c.myCommit
  peerPub := c.peerPub
  peerCommit := c.peerCommit
  state := c.state
  transformFailed := c.transformFailed

namespace Hand

variable (h : Hand Id)

def shown (state : CallState) : Hand Id := { h with state := state }

def seated (peer : Option Id) : Hand Id := { h with peer := peer }

def failed : Hand Id := { h with generation := h.generation + 1, state := .failed }

def stored (kp : KeyPair) (commit : Bytes) : Hand Id :=
  { h with keyPair := some kp, myPub := some kp.publicKey, myCommit := some commit }

def committed (commit : Bytes) : Hand Id := { h with peerCommit := some commit }

def accepted (pub : Bytes) : Hand Id := { h with peerPub := some pub }

def detached : Hand Id := { h with transformFailed := true }

/-- A session that has only just begun, or none. -/
structure Renews (g h : Hand Id) : Prop where
  resets : g.resets < h.resets
  generation : g.generation < h.generation
  keyPair : h.keyPair = none
  myPub : h.myPub = none
  myCommit : h.myCommit = none
  peerPub : h.peerPub = none
  peerCommit : h.peerCommit = none
  state : h.state ≠ .established
  transformFailed : h.transformFailed = g.transformFailed

end Hand

def helloPayload : Payload := { t := .hello, v := some PROTOCOL_VERSION }

def commitPayload (commit : Option Bytes) : Payload :=
  { t := .commit, v := some PROTOCOL_VERSION, commit := commit }

def dhPayload (pub : Option Bytes) : Payload :=
  { t := .dh, v := some PROTOCOL_VERSION, pub := pub }

/-- Nothing is sent but to the peer of `d`, over an open socket, and of this kind. -/
def Sends (up : Bool) (c d : Controller Id) (kind : Payload → Prop) : Prop :=
  ∃ new, d.sent = c.sent ++ new ∧ ∀ m ∈ new, up = true ∧ d.peer = some m.1 ∧ kind m.2

/-- Of the suspended calls these are left, with at most one new one, of this kind. -/
def Suspends (left : List (Suspended Id)) (d : Controller Id) (kind : Suspended Id → Prop) : Prop :=
  d.calls = left ∨ ∃ call, d.calls = left ++ [call] ∧ kind call

/-- What a turn is about, of what matters here: a new key pair, the peer's key, in a
message or hashed, a run of `finalize`, or an encryptor that could not be attached. -/
inductive News (Id : Type) where
  | nothing
  | unattached
  | paired
  | key (pub : Bytes)
  | hashed (pub : Bytes)
  | run (session : Session Id) (await : Await Id)
deriving DecidableEq, Repr

def Payload.news (payload : Payload) : News Id :=
  match payload.t, payload.pub with
  | .dh, some pub => if payload.v = some PROTOCOL_VERSION then .key pub else .nothing
  | _, _ => .nothing

def Suspended.news : Suspended Id → News Id
  | .starting _ _ _ => .paired
  | .resuming payload => payload.news
  | .hashing pub => .hashed pub
  | .finalizing s await => .run s await

/-- Most messages are not looked at. -/
def Controller.news [DecidableEq Id] (c : Controller Id) : Label Id → News Id
  | .attachSender false _ => if c.supported then .unattached else .nothing
  | .message sender (some payload) _ =>
      if c.users = [sender] ∧ c.supported ∧ c.peer = some sender ∧ c.keyPair.isSome then
        payload.news
      else .nothing
  | .resume i _ _ => (c.calls[i]?.map Suspended.news).getD .nothing
  | _ => .nothing

/-- The ways a turn can go. -/
inductive Turn (C : Crypto Id) (up : Bool) (news : News Id) (left : List (Suspended Id))
    (c d : Controller Id) : Prop
  /-- The handshake stays as it is; what is shown may change. -/
  | kept (peer : Option Id) (state : CallState) (hand : d.hand = (c.hand.seated peer).shown state)
      (seat : peer = c.peer ∨ c.peer = none)
      (hstate : state = c.state ∨ state ≠ .established)
      (sends : Sends up c d fun m => m.t = .nocrypto ∨
        c.role = some .responder ∧ m = commitPayload c.myCommit)
      (calls : Suspends left d fun
        | .resuming _ | .hashing _ => True
        | _ => False)
  /-- An encryptor could not be attached. -/
  | detached (state : CallState) (hand : d.hand = c.hand.detached.shown state)
      (cause : news = .unattached)
      (hstate : state ≠ .established) (sends : Sends up c d fun m => m.t = .nocrypto)
      (calls : Suspends left d fun _ => False)
  | renewed (hand : c.hand.Renews d.hand) (sends : d.sent = c.sent)
      (calls : Suspends left d fun
        | .starting _ gen _ => gen = d.generation
        | _ => False)
  | failed (hand : d.hand = c.hand.failed) (sends : d.sent = c.sent)
      (calls : Suspends left d fun _ => False)
  /-- `startWith` stores its key pair. -/
  | started (peer : Id) (kp : KeyPair) (hand : d.hand = c.hand.stored kp (C.commit kp.publicKey))
      (cause : news = .paired) (current : ∃ waiting, .starting peer c.generation waiting ∈ c.calls)
      (seat : c.peer = some peer)
      (sends : Sends up c d fun m => m = helloPayload ∨
        c.role = some .responder ∧ m = commitPayload d.myCommit)
      (answer : up = true → c.role = some .responder →
        (peer, commitPayload d.myCommit) ∈ d.sent.drop c.sent.length)
      (calls : Suspends left d fun
        | .resuming _ => True
        | _ => False)
  /-- The initiator fixes the commitment and sends its key. -/
  | committed (commit : Bytes) (hand : d.hand = c.hand.committed commit)
      (role : c.role = some .initiator) (fresh : c.peerCommit = none) (mine : c.myCommit ≠ none)
      (state : c.state ≠ .established)
      (sends : Sends up c d fun m => m = dhPayload c.myPub) (calls : Suspends left d fun _ => False)
  /-- The responder takes a key and sends its own. -/
  | accepted (pub : Bytes) (hand : d.hand = c.hand.accepted pub) (key : news = .key pub)
      (role : c.role = some .responder) (fresh : c.peerPub = none) (mine : c.myCommit ≠ none)
      (state : c.state ≠ .established ∧ c.state ≠ .failed)
      (sends : Sends up c d fun m => m = dhPayload c.myPub)
      (calls : Suspends left d fun call =>
        up = true ∧ ∃ s, d.session = some s ∧ call = .finalizing s .agree)
  /-- The initiator takes the key that it has fixed. -/
  | verified (pub : Bytes) (hand : d.hand = c.hand.accepted pub) (key : news = .hashed pub)
      (fixed : c.peerCommit = some (C.commit pub)) (fresh : c.peerPub = none)
      (state : c.state = .handshaking) (sends : d.sent = c.sent)
      (calls : Suspends left d fun call => ∃ s, d.session = some s ∧ call = .finalizing s .agree)
  | progressed (s : Session Id) (await : Await Id) (hand : d.hand = c.hand)
      (cause : news = .run s await) (current : .finalizing s await ∈ c.calls) (gen : s.gen = c.generation)
      (sends : d.sent = c.sent)
      (calls : Suspends left d fun call => ∃ await, call = .finalizing s await)
  | finished (s : Session Id) (secret salt : Bytes) (hand : d.hand = c.hand.shown .established)
      (cause : news = .run s (.sas secret salt)) (current : .finalizing s (.sas secret salt) ∈ c.calls) (gen : s.gen = c.generation)
      (sends : d.sent = c.sent) (calls : Suspends left d fun _ => False)

end Definitions

section Sending

variable {Id : Type} {news : News Id} {left : List (Suspended Id)} {c d : Controller Id}

theorem hand_of_send {payload : Payload} {up returned : Bool}
    (h : c.send payload up = (d, returned)) : d.hand = c.hand := by
  obtain ⟨⟨sent, rfl⟩, -⟩ := send_eq h
  rfl

theorem calls_of_send {payload : Payload} {up returned : Bool}
    (h : c.send payload up = (d, returned)) : d.calls = c.calls := by
  obtain ⟨⟨sent, rfl⟩, -⟩ := send_eq h
  rfl

/-- What `send` adds to a message. -/
def Payload.stamped (payload : Payload) : Payload :=
  if payload.t = .nocrypto then payload else { payload with v := some PROTOCOL_VERSION }

theorem sent_of_send {payload : Payload} {up returned : Bool} {p : Id} (hp : c.peer = some p)
    (h : c.send payload up = (d, returned)) :
    d.sent = c.sent ++ (if up then [(p, payload.stamped)] else []) ∧ returned = up := by
  unfold send at h
  rw [hp] at h
  dsimp only at h
  cases up <;> cases h <;> simp [Payload.stamped]

theorem sends_of_send {payload : Payload} {up returned : Bool}
    (h : c.send payload up = (d, returned)) : Sends up c d fun m => m = payload.stamped := by
  cases hp : c.peer with
  | none =>
      unfold send at h
      rw [hp] at h
      cases h
      exact ⟨[], by simp, nofun⟩
  | some p =>
      refine ⟨_, (sent_of_send hp h).1, fun m hm => ?_⟩
      have hpeer : d.peer = some p := (congrArg Hand.peer (hand_of_send h)).trans hp
      cases up with
      | false => cases hm
      | true =>
          rw [if_pos rfl, List.mem_singleton] at hm
          subst hm
          exact ⟨rfl, hpeer, rfl⟩

theorem Sends.of_eq {up : Bool} {kind : Payload → Prop} (h : d.sent = c.sent) :
    Sends up c d kind :=
  ⟨[], by simp [h], nofun⟩

theorem Sends.mono {up : Bool} {kind kind' : Payload → Prop} (h : Sends up c d kind)
    (hkind : ∀ m, kind m → kind' m) : Sends up c d kind' := by
  obtain ⟨new, hnew, hall⟩ := h
  exact ⟨new, hnew, fun m hm => ⟨(hall m hm).1, (hall m hm).2.1, hkind _ (hall m hm).2.2⟩⟩

theorem Suspends.of_eq {kind : Suspended Id → Prop} (h : d.calls = left) : Suspends left d kind :=
  .inl h

theorem Suspends.mem {kind : Suspended Id → Prop} (h : Suspends left d kind) {call : Suspended Id}
    (hcall : call ∈ d.calls) : call ∈ left ∨ kind call := by
  rcases h with h | ⟨new, h, hnew⟩
  · exact .inl (h ▸ hcall)
  · rw [h] at hcall
    rcases List.mem_append.mp hcall with hold | hlast
    · exact .inl hold
    · exact .inr (List.mem_singleton.mp hlast ▸ hnew)

theorem suspends_suspend {kind : Suspended Id → Prop} {call : Suspended Id} (h : kind call) :
    Suspends c.calls (c.suspend call) kind :=
  .inr ⟨call, rfl, h⟩

/-- Nothing but what is shown, of what the handshake is about. -/
theorem turn_shown (C : Crypto Id) (up : Bool) {state : CallState}
    (hand : d.hand = c.hand.shown state) (hstate : state = c.state ∨ state ≠ .established)
    (sent : d.sent = c.sent) (calls : d.calls = left) : Turn C up news left c d :=
  .kept c.peer state hand (.inl rfl) hstate (.of_eq sent) (.of_eq calls)

theorem turn_same (C : Crypto Id) (up : Bool) (hand : d.hand = c.hand) (sent : d.sent = c.sent)
    (calls : d.calls = left) : Turn C up news left c d :=
  turn_shown C up hand (.inl rfl) sent calls

theorem downgrade_hand (c : Controller Id) (reason : Detail) :
    ∃ state, (c.downgrade reason).hand = c.hand.shown state ∧ state ≠ .established := by
  unfold downgrade
  split
  · exact ⟨.blocked, rfl, nofun⟩
  · exact ⟨.unencrypted, rfl, nofun⟩

theorem downgrade_sent (c : Controller Id) (reason : Detail) :
    (c.downgrade reason).sent = c.sent ∧ (c.downgrade reason).calls = c.calls := by
  unfold downgrade
  split <;> exact ⟨rfl, rfl⟩

theorem turn_reset {C : Crypto Id} {up : Bool} {state : CallState} (hand : d.hand = c.resetPeer.hand.shown state)
    (hstate : state ≠ .established) (sent : d.sent = c.sent) (calls : d.calls = left) :
    Turn C up news left c d := by
  refine .renewed ?_ sent (.of_eq calls)
  rw [hand]
  exact ⟨Nat.lt_succ_self _, Nat.lt_succ_self _, rfl, rfl, rfl, rfl, rfl, hstate, rfl⟩

theorem turn_reset_downgrade {C : Crypto Id} {up : Bool} (reason : Detail) : Turn C up news c.calls c (c.resetPeer.downgrade reason) := by
  obtain ⟨state, hand, hstate⟩ := downgrade_hand c.resetPeer reason
  have hsame := downgrade_sent c.resetPeer reason
  exact turn_reset hand hstate hsame.1 hsame.2

/-- The only participant becomes the peer and is told that we cannot encrypt. -/
theorem turn_announced {C : Crypto Id} {up : Bool} {p : Id}
    (hp : ∀ q, c.peer = some q → q = p) {returned : Bool} {state : CallState}
    {e : Controller Id} (h : { c with peer := some p }.announceNoCrypto up = (e, returned))
    (hand : d.hand = e.hand.shown state) (hstate : state = c.state ∨ state ≠ .established)
    (sent : d.sent = e.sent) (calls : d.calls = e.calls) : Turn C up news c.calls c d := by
  have hhand := hand_of_send h
  have hseat : some p = c.peer ∨ c.peer = none := by
    cases hpeer : c.peer with
    | none => exact .inr rfl
    | some q => exact .inl (by rw [hp q hpeer])
  refine .kept (some p) state ?_ hseat hstate ?_ (.of_eq ?_)
  · rw [hand, hhand]
    rfl
  · obtain ⟨new, hnew, hall⟩ := sends_of_send h
    refine ⟨new, sent.trans hnew, fun m hm => ?_⟩
    obtain ⟨hup, hpeer, hkind⟩ := hall m hm
    refine ⟨hup, ?_, .inl ?_⟩
    · exact (congrArg Hand.peer hand).trans hpeer
    · rw [hkind]
      rfl
  · have hcalls := calls_of_send h
    exact calls.trans hcalls

theorem turn_announced_downgrade {C : Crypto Id} {up : Bool} {p : Id}
    (hp : ∀ q, c.peer = some q → q = p) {returned : Bool} {e : Controller Id}
    (h : { c with peer := some p }.announceNoCrypto up = (e, returned)) (reason : Detail) :
    Turn C up news c.calls c (e.downgrade reason) := by
  obtain ⟨state, hand, hstate⟩ := downgrade_hand e reason
  have hsame := downgrade_sent e reason
  exact turn_announced hp h hand (.inr hstate) hsame.1 hsame.2

/-- A change of what the handshake is not about, before the turn. -/
theorem Turn.of_same {C : Crypto Id} {up : Bool} {e : Controller Id} (h : Turn C up news left e d)
    (hand : e.hand = c.hand) (calls : ∀ call ∈ e.calls, call ∈ c.calls)
    (sent : e.sent = c.sent) : Turn C up news left c d := by
  have hstate : e.state = c.state := congrArg Hand.state hand
  have hrole : e.role = c.role := congrArg Hand.role hand
  have hpeer : e.peer = c.peer := congrArg Hand.peer hand
  have hgen : e.generation = c.generation := congrArg Hand.generation hand
  have hpub : e.myPub = c.myPub := congrArg Hand.myPub hand
  have hcommit : e.myCommit = c.myCommit := congrArg Hand.myCommit hand
  have htheirs : e.peerCommit = c.peerCommit := congrArg Hand.peerCommit hand
  have hkey : e.peerPub = c.peerPub := congrArg Hand.peerPub hand
  have hsends : ∀ {kind}, Sends up e d kind → Sends up c d kind := by
    rintro kind ⟨new, hnew, hall⟩
    exact ⟨new, sent ▸ hnew, hall⟩
  cases h with
  | kept peer state hhand seat hs sends hcalls =>
      rw [hrole, hcommit] at sends
      exact .kept peer state (hand ▸ hhand) (hpeer ▸ seat) (hstate ▸ hs) (hsends sends)
        hcalls
  | detached state hhand cause hs sends hcalls =>
      exact .detached state (hand ▸ hhand) cause hs (hsends sends) hcalls
  | renewed hhand sends hcalls => exact .renewed (hand ▸ hhand) (sends.trans sent) hcalls
  | failed hhand sends hcalls =>
      exact .failed (hand ▸ hhand) (sends.trans sent) hcalls
  | started peer kp hhand cause current seat sends answer hcalls =>
      rw [hrole] at sends answer
      rw [sent] at answer
      obtain ⟨waiting, hcurrent⟩ := current
      exact .started peer kp (hand ▸ hhand) cause ⟨waiting, calls _ (hgen ▸ hcurrent)⟩ (hpeer ▸ seat) (hsends sends) answer
        hcalls
  | committed commit hhand role fresh mine state sends hcalls =>
      rw [hpub] at sends
      exact .committed commit (hand ▸ hhand) (hrole ▸ role) (htheirs ▸ fresh) (hcommit ▸ mine)
        (hstate ▸ state) (hsends sends) hcalls
  | accepted pub hhand key role fresh mine state sends hcalls =>
      rw [hpub] at sends
      exact .accepted pub (hand ▸ hhand) key (hrole ▸ role) (hkey ▸ fresh) (hcommit ▸ mine)
        (hstate ▸ state) (hsends sends) hcalls
  | verified pub hhand key fixed fresh state sends hcalls =>
      exact .verified pub (hand ▸ hhand) key (htheirs ▸ fixed) (hkey ▸ fresh) (hstate ▸ state)
        (sends.trans sent) hcalls
  | progressed s await hhand cause current gen sends hcalls =>
      exact .progressed s await (hand ▸ hhand) cause (calls _ current) (hgen ▸ gen) (sends.trans sent)
        hcalls
  | finished s secret salt hhand cause current gen sends hcalls =>
      exact .finished s secret salt (hand ▸ hhand) cause (calls _ current) (hgen ▸ gen) (sends.trans sent)
        hcalls

/-- `finalize` only suspends a run for the session at hand. -/
theorem finalize_spec (c : Controller Id) : c.finalize.hand = c.hand ∧ c.finalize.sent = c.sent ∧
    Suspends c.calls c.finalize fun call =>
      ∃ s, c.finalize.session = some s ∧ call = .finalizing s .agree := by
  unfold finalize
  split
  · exact ⟨rfl, rfl, .of_eq rfl⟩
  · rename_i s hs
    exact ⟨rfl, rfl, suspends_suspend ⟨s, hs, rfl⟩⟩

/-- The responder takes a key: it answers with its own, and goes on if it could. -/
theorem turn_accepted {C : Crypto Id} {up returned : Bool} {e : Controller Id} {pub : Bytes}
    (hrole : c.role = some .responder) (hfresh : c.peerPub = none) (hmine : c.myCommit ≠ none)
    (hstate : c.state ≠ .established ∧ c.state ≠ .failed) (hkey : news = .key pub)
    (h : { c with peerPub := some pub }.send { t := .dh, pub := c.myPub } up = (e, returned)) :
    Turn C up news c.calls c (if returned then e.finalize else e) := by
  have hhand := hand_of_send h
  have hcalls := calls_of_send h
  obtain ⟨new, hnew, hall⟩ := sends_of_send h
  cases returned with
  | false => exact .accepted pub hhand hkey hrole hfresh hmine hstate ⟨new, hnew, hall⟩ (.of_eq hcalls)
  | true =>
      obtain ⟨hfinal, hsent, hsuspends⟩ := finalize_spec e
      have hpeer : e.finalize.peer = e.peer := congrArg Hand.peer hfinal
      refine .accepted pub (hfinal.trans hhand) hkey hrole hfresh hmine hstate
        ⟨new, hsent.trans hnew, fun m hm => ⟨(hall m hm).1, ?_, (hall m hm).2.2⟩⟩ ?_
      · exact hpeer.trans (hall m hm).2.1
      · rcases hsuspends with hsame | ⟨call, hnew, s, hs, rfl⟩
        · exact .inl (hsame.trans hcalls)
        · refine .inr ⟨_, hcalls ▸ hnew, ?_, s, hs, rfl⟩
          have hsome : c.peer.isSome := by
            cases hp : c.peer with
            | some p => rfl
            | none =>
                have hnone : e.finalize.peer = none :=
                  (hpeer.trans (congrArg Hand.peer hhand)).trans hp
                simp [session, hnone] at hs
          exact ((send_eq h).2 hsome).symm

end Sending

section Answers

variable {Id : Type} {C : Crypto Id} {news : News Id} {left : List (Suspended Id)}
  {c d : Controller Id} {up : Bool}

theorem turn_fail (detail : Detail) : Turn C up news c.calls c (c.fail detail) := by
  unfold fail dropChatKeys stopHandshakeTimer post setState
  exact .failed rfl rfl (.of_eq rfl)

/-- A responder repeats its commitment. -/
theorem turn_repeated (hrole : c.role = some .responder) :
    Turn C up news c.calls c (c.send { t := .commit, commit := c.myCommit } up).1 := by
  rcases hsend : c.send { t := .commit, commit := c.myCommit } up with ⟨d, returned⟩
  refine .kept c.peer c.state (hand_of_send hsend) (.inl rfl) (.inl rfl) ?_ (.of_eq (calls_of_send hsend))
  exact (sends_of_send hsend).mono fun m hm => .inr ⟨hrole, hm⟩

/-- The initiator fixes a commitment, and sends its key. -/
theorem turn_committed {commit : Bytes} {e : Controller Id} (hand : e.hand = c.hand.committed commit)
    (calls : e.calls = c.calls) (sent : e.sent = c.sent) (hrole : c.role = some .initiator)
    (hfresh : c.peerCommit = none) (hmine : c.myCommit ≠ none) (hstate : c.state ≠ .established) :
    Turn C up news c.calls c (e.send { t := .dh, pub := c.myPub } up).1 := by
  rcases hsend : e.send { t := .dh, pub := c.myPub } up with ⟨d, returned⟩
  have hhand := hand_of_send hsend
  have hcalls := calls_of_send hsend
  obtain ⟨new, hnew, hall⟩ := sends_of_send hsend
  exact .committed commit (hhand.trans hand) hrole hfresh hmine hstate ⟨new, sent ▸ hnew, hall⟩
    (.of_eq (hcalls.trans calls))

theorem turn_answer (payload : Payload) : Turn C up payload.news c.calls c (c.answer payload up) := by
  unfold answer
  split
  · exact turn_same C up rfl rfl rfl
  rename_i hstate
  rw [not_or] at hstate
  split
  · exact turn_same C up rfl rfl rfl
  rename_i hmine
  split
  · exact turn_fail _
  rename_i hversion
  rw [not_not] at hversion
  split
  · split
    · rename_i hrole
      exact turn_repeated hrole
    · exact turn_same C up rfl rfl rfl
  · split
    · rename_i hrole
      split
      · exact turn_same C up rfl rfl rfl
      · rename_i commit _
        split
        · split
          · exact turn_same C up rfl rfl rfl
          · exact turn_fail _
        · rename_i hfresh
          exact turn_committed rfl rfl rfl hrole hfresh hmine hstate.1
    · exact turn_same C up rfl rfl rfl
  · rename_i hdh
    split
    · exact turn_same C up rfl rfl rfl
    · rename_i pub hpub
      have hkey : (payload.news : News Id) = .key pub := by simp [Payload.news, hdh, hpub, hversion]
      split
      · split
        · exact turn_same C up rfl rfl rfl
        · exact turn_fail _
      · rename_i hfresh
        split
        · rename_i hrole
          split
          · rename_i hsend
            exact turn_accepted hrole hfresh hmine hstate hkey hsend
          · rename_i hsend
            exact turn_accepted hrole hfresh hmine hstate hkey hsend
        · split
          · exact turn_same C up rfl rfl rfl
          · exact .kept c.peer c.state rfl (.inl rfl) (.inl rfl) (.of_eq rfl) (suspends_suspend trivial)
  · exact turn_same C up rfl rfl rfl
  · exact turn_same C up rfl rfl rfl

theorem turn_hashed (pub : Bytes) : Turn C up (.hashed pub) c.calls c (c.hashed C pub) := by
  unfold hashed
  split
  · exact turn_same C up rfl rfl rfl
  · rename_i commit hfixed
    split
    · exact turn_fail _
    · rename_i hcommit
      rw [not_not] at hcommit
      split
      · exact turn_same C up rfl rfl rfl
      · rename_i hnew
        rw [not_or, Option.not_isSome_iff_eq_none, not_not] at hnew
        obtain ⟨hhand, hsent, hcalls⟩ := finalize_spec { c with peerPub := some pub }
        exact .verified pub hhand rfl (hcommit ▸ hfixed) hnew.1 hnew.2 hsent hcalls

theorem turn_continueInClear : Turn C up news c.calls c c.continueInClear := by
  unfold continueInClear
  split
  · exact turn_shown C up rfl (.inr nofun) rfl rfl
  · exact turn_same C up rfl rfl rfl

theorem turn_attachSender (ok : Bool)
    (hnews : ok = false → c.supported = true → news = .unattached) :
    Turn C up news c.calls c (c.attachSender ok up) := by
  unfold attachSender
  split
  · exact turn_same C up rfl rfl rfl
  · rename_i hable
    split
    · exact turn_same C up rfl rfl rfl
    · rename_i hok
      have hsend : { c.ensureWorker with transformFailed := true }.send { t := .nocrypto } up =
        (_, _) := rfl
      have hhand := hand_of_send hsend
      have hcalls := calls_of_send hsend
      obtain ⟨new, hnew, hall⟩ := sends_of_send hsend
      obtain ⟨state, hshown, hstate⟩ := downgrade_hand
        ({ c.ensureWorker with transformFailed := true }.send { t := .nocrypto } up).1 .transform
      have hsame := downgrade_sent
        ({ c.ensureWorker with transformFailed := true }.send { t := .nocrypto } up).1 .transform
      have hcause : news = .unattached := by
        apply hnews
        · simpa using hok
        · simpa using hable
      refine .detached state (hshown.trans (hhand ▸ rfl)) hcause hstate
        ⟨new, hsame.1.trans hnew, fun m hm => ⟨(hall m hm).1, ?_, ?_⟩⟩ (.of_eq (hsame.2.trans hcalls))
      · exact (congrArg Hand.peer hshown).trans (hall m hm).2.1
      · rw [(hall m hm).2.2]
        rfl

theorem turn_attachReceiver : Turn C up news c.calls c c.attachReceiver := by
  unfold attachReceiver
  split <;> exact turn_same C up rfl rfl rfl

theorem turn_slow (gen : ℕ) : Turn C up news c.calls c (c.slow gen) := by
  unfold slow
  dsimp only
  split
  · exact turn_shown C up rfl (.inr nofun) rfl rfl
  · exact turn_same C up rfl rfl rfl

/-- A run of `finalize` goes on, taken out of the suspended calls. -/
theorem turn_finalizing {s : Session Id} {await : Await Id} (hmem : .finalizing s await ∈ c.calls) :
    Turn C up (.run s await) left c ({ c with calls := left }.finalizing C s await) := by
  unfold Controller.finalizing
  split
  · exact turn_same C up rfl rfl rfl
  rename_i hgen
  rw [not_not] at hgen
  have hnext : ∀ next, Suspends left ({ c with calls := left }.suspend (.finalizing s next))
      fun call => ∃ await, call = .finalizing s await := fun next => .inr ⟨_, rfl, next, rfl⟩
  cases await with
  | agree => exact .progressed s .agree rfl rfl hmem hgen rfl (hnext _)
  | transcript secret => exact .progressed s _ rfl rfl hmem hgen rfl (hnext _)
  | media secret salt streamId rest =>
      cases rest with
      | nil => exact .progressed s _ rfl rfl hmem hgen rfl (hnext _)
      | cons next rest => exact .progressed s _ rfl rfl hmem hgen rfl (hnext _)
  | chat secret salt => exact .progressed s _ rfl rfl hmem hgen rfl (hnext _)
  | sas secret salt => exact .finished s secret salt rfl rfl hmem hgen rfl (.of_eq rfl)

end Answers

section Handlers

variable {Id : Type} [LinearOrder Id] {C : Crypto Id} {news : News Id} {left : List (Suspended Id)}
  {c d : Controller Id} {up : Bool}

theorem turn_startWith (peer : Id) (waiting : Option Payload) :
    Turn C up news c.calls c (c.startWith peer waiting) := by
  unfold startWith
  split
  · cases waiting with
    | none => exact turn_same C up rfl rfl rfl
    | some payload =>
        exact .kept c.peer c.state rfl (.inl rfl) (.inl rfl) (.of_eq rfl) (suspends_suspend trivial)
  · have hcalls : Suspends c.calls (c.suspend (.starting peer (c.generation + 1) waiting))
        fun
        | .starting _ gen _ => gen = c.generation + 1
        | _ => False := suspends_suspend rfl
    dsimp only [suspend, setWorkerMode, renew, ensureWorker, setState, resetPeer, post,
      dropChatKeys, stopHandshakeTimer] at hcalls ⊢
    refine .renewed ?_ rfl hcalls
    exact ⟨Nat.lt_succ_self _, Nat.lt_succ_self _, rfl, rfl, rfl, rfl, rfl, nofun, rfl⟩

theorem turn_recompute (hlone : ∀ p q, c.peer = some p → c.users = [q] → p = q) :
    Turn C up news c.calls c (c.recompute up) := by
  unfold recompute
  split
  · dsimp only
    split
    · exact turn_reset_downgrade _
    · exact turn_reset rfl nofun rfl rfl
  · rename_i p hu
    split
    · split
      · rename_i hsend
        have hstate := congrArg Hand.state (hand_of_send hsend)
        exact turn_announced (fun q hq => hlone q p hq hu) hsend rfl (.inl hstate) rfl rfl
      · rename_i hsend
        exact turn_announced_downgrade (fun q hq => hlone q p hq hu) hsend _
    · exact turn_startWith _ _
  · exact turn_reset_downgrade _

/-- `recompute` where nobody is left, after a reset of its own. -/
theorem turn_recompute_nil {e : Controller Id} (hu : e.users = [])
    (hand : e.hand = c.resetPeer.hand) (hcalls : e.calls = c.calls) (hsent : e.sent = c.sent) :
    Turn C up news c.calls c (e.recompute up) := by
  have hresets : e.resets = c.resets + 1 := congrArg Hand.resets hand
  have hgen : e.generation = c.generation + 1 := congrArg Hand.generation hand
  have hfailed : e.transformFailed = c.transformFailed := congrArg Hand.transformFailed hand
  have hrenews : ∀ state, state ≠ .established →
      c.hand.Renews (e.resetPeer.hand.shown state) := by
    intro state hstate
    refine ⟨?_, ?_, rfl, rfl, rfl, rfl, rfl, hstate, hfailed⟩
    · exact Nat.lt_succ_of_lt (hresets ▸ Nat.lt_succ_self _)
    · exact Nat.lt_succ_of_lt (hgen ▸ Nat.lt_succ_self _)
  unfold recompute
  rw [hu]
  dsimp only
  split
  · obtain ⟨state, hshown, hstate⟩ := downgrade_hand e.resetPeer (e.resetPeer.noEncryptReason)
    have hsame := downgrade_sent e.resetPeer e.resetPeer.noEncryptReason
    exact .renewed (hshown ▸ hrenews state hstate) (hsame.1.trans hsent)
      (.of_eq (hsame.2.trans hcalls))
  · exact .renewed (hrenews .idle nofun) hsent (.of_eq hcalls)

theorem turn_setRequire (h : c.view.Placed) (require : Bool) :
    Turn C up news c.calls c (c.setRequire require up) := by
  refine (turn_recompute (c := { c with require := require }) ?_).of_same rfl (fun _ hcall => hcall) rfl
  intro p q hp hq
  exact List.head_eq_of_cons_eq ((h p hp).symm.trans hq)

theorem turn_addUser (h : c.view.Placed) (id : Id) : Turn C up news c.calls c (c.addUser id up) := by
  unfold addUser
  split
  · exact turn_same C up rfl rfl rfl
  · refine (turn_recompute
      (c := { c with users := if id ∈ c.users then c.users else c.users ++ [id] }) ?_).of_same
      rfl (fun _ hcall => hcall) rfl
    intro p q hp hq
    have hu : c.users = [p] := h p hp
    dsimp only at hq
    rw [hu] at hq
    split at hq
    · exact List.head_eq_of_cons_eq hq
    · simp at hq

theorem turn_delUser (h : c.view.Placed) (id : Id) : Turn C up news c.calls c (c.delUser id up) := by
  unfold delUser
  dsimp only
  split
  · rename_i hpeer
    have hu : c.users = [id] := h id hpeer
    have hnil : c.users.filter (· ≠ id) = [] := by simp [hu]
    generalize he : ({ c with users := c.users.filter (· ≠ id) } : Controller Id).resetPeer = e
    have hhand : e.hand = c.resetPeer.hand := he ▸ rfl
    have hnone : e.users = [] := by
      rw [← he]
      exact hnil
    exact turn_recompute_nil hnone hhand (he ▸ rfl) (he ▸ rfl)
  · refine (turn_recompute (c := { c with users := c.users.filter (· ≠ id) }) ?_).of_same rfl (fun _ hcall => hcall) rfl
    intro p q hp hq
    have hu : c.users = [p] := h p hp
    have hkept := List.mem_of_mem_filter (hq ▸ List.mem_singleton_self q)
    rw [hu] at hkept
    exact (List.mem_singleton.mp hkept).symm

theorem turn_onMessage (h : c.view.Placed) (sender : Id) (payload : Option Payload) :
    Turn C up (c.news (.message sender payload up)) c.calls c (c.onMessage sender payload up) := by
  unfold onMessage
  cases payload with
  | none => exact turn_same C up rfl rfl rfl
  | some payload =>
    dsimp only
    split
    · exact turn_same C up rfl rfl rfl
    rename_i hu
    rw [not_not] at hu
    have hlone : ∀ q, c.peer = some q → q = sender := fun q hq =>
      List.head_eq_of_cons_eq ((h q hq).symm.trans hu)
    split
    · split
      · rename_i hsend
        have hstate := congrArg Hand.state (hand_of_send hsend)
        exact turn_announced hlone hsend rfl (.inl hstate) rfl rfl
      · rename_i hsend
        exact turn_announced_downgrade hlone hsend _
    · split
      · obtain ⟨state, hand, hstate⟩ := downgrade_hand
          { c with peer := some sender, peerSupports := some false } .peerUnsupported
        have hsame := downgrade_sent
          { c with peer := some sender, peerSupports := some false } .peerUnsupported
        have hseat : some sender = c.peer ∨ c.peer = none := by
          cases hpeer : c.peer with
          | none => exact .inr rfl
          | some q => exact .inl (by rw [hlone q hpeer])
        exact .kept (some sender) state hand hseat (.inr hstate) (.of_eq hsame.1) (.of_eq hsame.2)
      · split
        · exact turn_startWith _ _
        · rename_i hable _ hpeer
          rw [not_or, not_not] at hpeer
          have hnews : c.news (.message sender (some payload) up) = payload.news := by
            simp_all [Controller.news, Option.isSome_iff_ne_none]
          rw [hnews]
          exact turn_answer _

/-- What is left of `startWith` either finds its session gone or stores the key pair
and sends what it can. -/
theorem started_spec {peer : Id} {gen : ℕ} {kp : KeyPair} {returned : Bool}
    (h : c.started C peer gen kp up = (d, returned)) : d = c ∨
      (c.peer = some peer ∧ gen = c.generation) ∧
      d.hand = c.hand.stored kp (C.commit kp.publicKey) ∧ d.calls = c.calls ∧
      Sends up c d (fun m => m = helloPayload ∨
        c.role = some .responder ∧ m = commitPayload d.myCommit) ∧
      (up = true → c.role = some .responder →
        (peer, commitPayload d.myCommit) ∈ d.sent.drop c.sent.length) := by
  unfold started at h
  split at h
  · cases h
    exact .inl rfl
  rename_i hcurrent
  rw [not_or, not_not, not_not] at hcurrent
  refine .inr ⟨hcurrent, ?_⟩
  dsimp only at h
  have hpeer : ({ c with
      keyPair := some kp, myPub := some kp.publicKey,
      myCommit := some (C.commit kp.publicKey), startingFor := none } : Controller Id).peer =
    some peer := hcurrent.1
  split at h
  · rename_i hsend
    have hhand := hand_of_send hsend
    have hcalls := calls_of_send hsend
    have hsent := sent_of_send hpeer hsend
    cases h
    obtain ⟨hsent, rfl⟩ := hsent
    exact ⟨hhand, hcalls, ⟨[], hsent, nofun⟩, nofun⟩
  · rename_i e hsend
    have hhand := hand_of_send hsend
    have hcalls := calls_of_send hsend
    have hsent := sent_of_send hpeer hsend
    have hup : up = true := hsent.2.symm
    have hseat : e.peer = some peer := (congrArg Hand.peer hhand).trans hpeer
    have hrole : e.role = c.role := congrArg Hand.role hhand
    rw [hup, if_pos rfl] at hsent
    split at h
    · rename_i hresponder
      have hhand' := hand_of_send h
      have hcalls' := calls_of_send h
      have hsent' := sent_of_send hseat h
      have hmine : d.myCommit = e.myCommit := congrArg Hand.myCommit hhand'
      have hseat' : d.peer = some peer := (congrArg Hand.peer hhand').trans hseat
      rw [hup, if_pos rfl, hsent.1, List.append_assoc] at hsent'
      have hlast : Payload.stamped { t := .commit, commit := e.myCommit } =
        commitPayload d.myCommit := by
        rw [hmine]
        rfl
      rw [hlast] at hsent'
      refine ⟨hhand'.trans hhand, hcalls'.trans hcalls, ⟨_, hsent'.1, fun m hm => ?_⟩,
        fun _ _ => ?_⟩
      · rcases List.mem_append.mp hm with hfirst | hsecond
        · rw [List.mem_singleton.mp hfirst]
          exact ⟨hup, hseat', .inl rfl⟩
        · rw [List.mem_singleton.mp hsecond]
          exact ⟨hup, hseat', .inr ⟨hrole ▸ hresponder, rfl⟩⟩
      · rw [hsent'.1]
        simp
    · rename_i hinitiator
      cases h
      refine ⟨hhand, hcalls, ⟨_, hsent.1, fun m hm => ?_⟩, fun _ hresponder => ?_⟩
      · rw [List.mem_singleton.mp hm]
        exact ⟨hup, hseat, .inl rfl⟩
      · exact absurd (hrole.trans hresponder) hinitiator

theorem turn_started {peer : Id} {gen : ℕ} {waiting : Option Payload} {kp : KeyPair}
    {returned : Bool} {e : Controller Id} (hmem : .starting peer gen waiting ∈ c.calls)
    (h : { c with calls := left }.started C peer gen kp up = (e, returned))
    (hd : d = e ∨ ∃ payload, d = e.suspend (.resuming payload)) : Turn C up .paired left c d := by
  have hsuspends : ∀ kind : Suspended Id → Prop, (∀ payload, kind (.resuming payload)) →
      e.calls = left → Suspends left d kind := by
    intro kind hkind he
    rcases hd with rfl | ⟨payload, rfl⟩
    · exact .of_eq he
    · have hnew : Suspends e.calls (e.suspend (.resuming payload)) kind :=
        suspends_suspend (hkind payload)
      exact he ▸ hnew
  have hhand : d.hand = e.hand := by rcases hd with rfl | ⟨_, rfl⟩ <;> rfl
  have hsent : d.sent = e.sent := by rcases hd with rfl | ⟨_, rfl⟩ <;> rfl
  have hmine : d.myCommit = e.myCommit := congrArg Hand.myCommit hhand
  have hpeer : d.peer = e.peer := congrArg Hand.peer hhand
  rcases started_spec h with rfl | ⟨⟨hseat, rfl⟩, hstored, hsame, ⟨new, hnew, hall⟩, hanswer⟩
  · exact .kept c.peer c.state hhand (.inl rfl) (.inl rfl) (.of_eq hsent)
      (hsuspends _ (fun _ => trivial) rfl)
  · refine .started peer kp (hhand.trans hstored) rfl ⟨waiting, hmem⟩ hseat
      ⟨new, hsent.trans hnew, fun m hm => ⟨(hall m hm).1, hpeer.trans (hall m hm).2.1, ?_⟩⟩ ?_
      (hsuspends _ (fun _ => trivial) hsame)
    · rw [hmine]
      exact (hall m hm).2.2
    · rw [hmine, hsent]
      exact hanswer

/-- A suspended call goes on. -/
theorem turn_resume {i : ℕ} {call : Suspended Id} (hi : c.calls[i]? = some call) (kp : KeyPair) :
    Turn C up call.news (c.calls.eraseIdx i) c
      ({ c with calls := c.calls.eraseIdx i }.resume C kp up call) := by
  have hcalls : ∀ call ∈ c.calls.eraseIdx i, call ∈ c.calls := fun _ => List.mem_of_mem_eraseIdx
  have hmem : call ∈ c.calls := List.mem_of_getElem? hi
  cases call with
  | starting peer gen waiting =>
      simp only [Controller.resume]
      split
      · rename_i hstart
        exact turn_started hmem hstart (.inl rfl)
      · rename_i hstart
        cases waiting with
        | none => exact turn_started hmem hstart (.inl rfl)
        | some payload => exact turn_started hmem hstart (.inr ⟨payload, rfl⟩)
  | resuming payload => exact (turn_answer (c := { c with calls := c.calls.eraseIdx i }) payload).of_same rfl hcalls rfl
  | hashing pub => exact (turn_hashed (c := { c with calls := c.calls.eraseIdx i }) pub).of_same rfl hcalls rfl
  | finalizing s await => exact turn_finalizing hmem

end Handlers

/-- Whether the socket is open, if the event has occasion to send. -/
def Label.socket {Id : Type} : Label Id → Option Bool
  | .addUser _ up | .delUser _ up | .setRequire _ up | .message _ _ up | .attachSender _ up
  | .resume _ _ up => some up
  | .continueInClear | .attachReceiver | .timeout | .reject _ => none

def Label.up {Id : Type} (a : Label Id) : Bool := a.socket.getD false

theorem Payload.news_ne_run {Id : Type} (payload : Payload) (s : Session Id) (await : Await Id) :
    payload.news ≠ .run s await := by
  unfold Payload.news
  split
  · split <;> exact nofun
  · exact nofun

theorem socket_of_paired {Id : Type} [DecidableEq Id] {c : Controller Id} {a : Label Id}
    (h : c.news a = .paired) : a.socket = some a.up := by
  unfold Controller.news at h
  split at h
  · rfl
  · rfl
  · rfl
  · cases h

/-- Only the run of `finalize` that goes on is heard of. -/
theorem call_of_news {Id : Type} [DecidableEq Id] {c : Controller Id} {a : Label Id}
    {s : Session Id} {await : Await Id} (h : c.news a = .run s await) :
    ∃ i kp up, a = .resume i kp up ∧ c.calls[i]? = some (.finalizing s await) := by
  unfold Controller.news at h
  split at h
  · split at h <;> cases h
  · split at h
    · exact absurd h (Payload.news_ne_run _ s await)
    · cases h
  · rename_i i kp up
    refine ⟨i, kp, up, rfl, ?_⟩
    cases hcall : c.calls[i]? with
    | none =>
        rw [hcall] at h
        cases h
    | some call =>
        rw [hcall] at h
        cases call with
        | resuming payload => exact absurd h (Payload.news_ne_run _ s await)
        | finalizing s' await' =>
            cases h
            rfl
        | _ => cases h
  · cases h

/-- The calls that are left when the label's own has gone on. -/
def Controller.left {Id : Type} (c : Controller Id) : Label Id → List (Suspended Id)
  | .resume i _ _ | .reject i => c.calls.eraseIdx i
  | _ => c.calls

theorem mem_of_mem_left {Id : Type} {c : Controller Id} {a : Label Id} {call : Suspended Id}
    (h : call ∈ c.left a) : call ∈ c.calls := by
  cases a <;> first | exact h | exact List.mem_of_mem_eraseIdx h

theorem step_turn {Id : Type} [LinearOrder Id] {C : Crypto Id} {c d : Controller Id} {a : Label Id}
    (h : c.view.Placed) (hd : step C c a = some d) : Turn C a.up (c.news a) (c.left a) c d := by
  cases a with
  | addUser id up =>
      cases hd
      exact turn_addUser h id
  | delUser id up =>
      cases hd
      exact turn_delUser h id
  | setRequire require up =>
      cases hd
      exact turn_setRequire h require
  | message sender payload up =>
      cases hd
      exact turn_onMessage h sender payload
  | continueInClear =>
      cases hd
      exact turn_continueInClear
  | attachSender ok up =>
      cases hd
      apply turn_attachSender
      rintro rfl hable
      simp [Controller.news, hable]
  | attachReceiver =>
      cases hd
      exact turn_attachReceiver
  | timeout =>
      obtain ⟨gen, -, rfl⟩ := Option.map_eq_some_iff.mp hd
      exact turn_slow gen
  | resume i kp up =>
      obtain ⟨call, hcall, rfl⟩ := Option.map_eq_some_iff.mp hd
      have hnews : c.news (.resume i kp up) = call.news := by simp [Controller.news, hcall]
      rw [hnews]
      exact turn_resume hcall kp
  | reject i =>
      obtain ⟨call, -, rfl⟩ := Option.map_eq_some_iff.mp hd
      exact turn_same C false rfl rfl rfl

theorem inv_init {Id : Type} [LinearOrder Id] {C : Crypto Id} {c : Controller Id}
    (h : (system C).init c) : Inv C False c.view := by
  have hbegin : Reachable (system C) Always c := .init h
  exact inv_of_reachable (fun _ _ hsafe _ => hsafe.elim) hbegin

/-- What holds of new controllers and is kept by every turn, given what is known of
every run, holds in every run. -/
theorem invariant_of_turns {Id : Type} [LinearOrder Id] {C : Crypto Id}
    {ok : Controller Id → Label Id → Prop} {P : Controller Id → Prop} {c : Controller Id}
    (hinit : ∀ c, (system C).init c → P c)
    (hturn : ∀ c a d, Inv C False c.view → P c → ok c a → step C c a = some d → P d)
    (hc : Reachable (system C) ok c) : P c := by
  have hboth : Inv C False c.view ∧ P c := by
    refine Reachable.invariant (P := fun c : Controller Id => Inv C False c.view ∧ P c) ?_ ?_ hc
    · intro c hnew
      exact ⟨inv_init hnew, hinit c hnew⟩
    · intro c a d h hok hd
      exact ⟨h.1.step (fun hsafe => hsafe.elim) hd, hturn c a d h.1 h.2 hok hd⟩
  exact hboth.2

end Sozvon.E2EE
