import Sozvon.Runs
import Mathlib.Data.Nat.Basic
import Mathlib.Data.Int.Notation
import Mathlib.Data.List.Basic
import Mathlib.Order.Lattice
import Mathlib.Algebra.Group.Nat.Defs

/-!
# The end-to-end encryption controller

`E2EE` of `e2ee.js` agrees on keys with the single other participant and posts
them to the worker of `e2ee-worker.js`, through which all media goes. A turn of
its event loop is one step here: an event or the continuation of an `await`,
up to the next one. Suspended calls are kept in `calls`, and a label says which
of them goes on, so an interleaving is again an order of the labels. Awaits
with nothing between them that others could see are taken as one.

A send fails with an exception when the socket is closed; `up` in a label says
that it is not. Participants' ids are only compared, so any linear order of
them will do, and the cryptography is a parameter.
-/
namespace Sozvon.E2EE
open Runs

abbrev Bytes := List UInt8

inductive Kind where
  | audio | video
deriving DecidableEq, Repr

inductive Role where
  | initiator | responder
deriving DecidableEq, Repr

/-- What the controller shows to the user. -/
inductive CallState where
  | idle | handshaking | established | failed | unencrypted | blocked
deriving DecidableEq, Repr

inductive Detail where
  | slow | transform | unsupported | multipeer | peerUnsupported | version | commitment
deriving DecidableEq, Repr

/-- `owner + '|' + kind`. -/
structure StreamId (Id : Type) where
  owner : Id
  kind : Kind
deriving DecidableEq, Repr

/-- The public key is the one that `exportPublic` gives. -/
structure KeyPair where
  privateKey : Bytes
  publicKey : Bytes
deriving DecidableEq, Repr

structure Transcript (Id : Type) where
  initiatorId : Id
  responderId : Id
  commit : Bytes
  initiatorPub : Bytes
  responderPub : Bytes
deriving DecidableEq, Repr

/-- What the controller uses of `e2ee-crypto.js`. -/
structure Crypto (Id : Type) where
  commit : Bytes → Bytes
  agree : Bytes → Bytes → Bytes
  transcript : Transcript Id → Bytes
  deriveMediaKey : Bytes → Bytes → StreamId Id → Bytes
  deriveChatKey : Bytes → Bytes → Id → Bytes
  deriveSAS : Bytes → Bytes → List String

def PROTOCOL_VERSION : ℕ := 2

inductive Tag where
  | hello | commit | dh | nocrypto | other
deriving DecidableEq, Repr

/-- An `e2ee` message. The byte strings are what `unb64` makes of its fields,
`none` where it throws. -/
structure Payload where
  t : Tag
  v : Option ℕ := none
  commit : Option Bytes := none
  pub : Option Bytes := none
deriving DecidableEq, Repr

section Worker

inductive Post (Id : Type) where
  | key (streamId : StreamId Id) (keyId : ℕ) (key : Bytes)
  | sendKeyId (keyId : ℕ)
  | clear
  | mode (cleartext : Bool)
deriving DecidableEq, Repr

structure Worker (Id : Type) where
  keys : StreamId Id → ℕ → Option Bytes := fun _ _ => none
  sendKeyId : ℕ := 0
  cleartextMode : Bool := false

/-- What becomes of a frame. -/
inductive Outcome where
  | forwarded
  | sealed (key : Bytes)
  | dropped
deriving DecidableEq, Repr

variable {Id : Type} [DecidableEq Id]

def Worker.putKey (w : Worker Id) (streamId : StreamId Id) (keyId : ℕ) (key : Bytes) : Worker Id :=
  { w with keys := fun s k => if s = streamId ∧ k = keyId then some key else w.keys s k }

def Worker.onmessage (w : Worker Id) : Post Id → Worker Id
  | .key streamId keyId key => w.putKey streamId keyId key
  | .sendKeyId keyId => { w with sendKeyId := keyId }
  | .clear => { w with keys := fun _ _ => none }
  | .mode cleartext => { w with cleartextMode := cleartext }

/-- The transform of `makeEncryptor`, as long as the encryption itself succeeds. -/
def Worker.encryptor (w : Worker Id) (streamId : StreamId Id) : Outcome :=
  if w.cleartextMode then .forwarded
  else match w.keys streamId w.sendKeyId with
    | none => .dropped
    | some key => .sealed key

end Worker

/-- What a run of `finalize` read when it began. -/
structure Session (Id : Type) where
  gen : ℕ
  keyPair : KeyPair
  myPub : Bytes
  peerPub : Bytes
  peer : Id
  initiator : Bool
  commit : Bytes
deriving DecidableEq, Repr

/-- Where a run of `finalize` is suspended, with its local variables. -/
inductive Await (Id : Type) where
  | agree
  | transcript (secret : Bytes)
  | media (secret salt : Bytes) (streamId : StreamId Id) (rest : List (StreamId Id))
  | chat (secret salt : Bytes)
  | sas (secret salt : Bytes)
deriving DecidableEq, Repr

/-- A call suspended at an `await`. -/
inductive Suspended (Id : Type) where
  /-- `startWith`, and the message whose handler waits for it. -/
  | starting (peer : Id) (gen : ℕ) (waiting : Option Payload)
  /-- `onMessage`, whose `startWith` has returned. -/
  | resuming (payload : Payload)
  /-- `onMessage`, while the key in it is hashed. -/
  | hashing (pub : Bytes)
  | finalizing (session : Session Id) (await : Await Id)
deriving DecidableEq, Repr

structure Controller (Id : Type) where
  id : Id
  supported : Bool
  transformFailed : Bool := false
  /-- The messages posted to the worker, if there is one. -/
  worker : Option (List (Post Id)) := none
  users : List Id := []
  require : Bool := false
  peer : Option Id := none
  role : Option Role := none
  startingFor : Option Id := none
  keyPair : Option KeyPair := none
  myPub : Option Bytes := none
  myCommit : Option Bytes := none
  peerPub : Option Bytes := none
  peerCommit : Option Bytes := none
  /-- The generation that the running timer was started for. -/
  handshakeTimer : Option ℕ := none
  secret : Option Bytes := none
  peerSupports : Option Bool := none
  chatSendKey : Option Bytes := none
  chatRecvKey : Option Bytes := none
  chatSendSeq : ℕ := 0
  chatRecvSeq : ℤ := -1
  wasEncrypted : Bool := false
  clearAgreed : Bool := false
  generation : ℕ := 0
  state : CallState := .idle
  detail : Option Detail := none
  sas : Option (List String) := none
  /-- How often `resetPeer` was called: the number of the session. Nothing reads it. -/
  resets : ℕ := 0
  calls : List (Suspended Id) := []
  /-- What was given to `userMessage`, and for whom. -/
  sent : List (Id × Payload) := []

namespace Controller

variable {Id : Type} [LinearOrder Id]

/-- The worker once it has handled all that was posted to it. -/
def media (c : Controller Id) : Worker Id := (c.worker.getD []).foldl Worker.onmessage {}

def setState (c : Controller Id) (state : CallState) (detail : Option Detail) : Controller Id :=
  { c with state := state, detail := detail }

def canEncrypt (c : Controller Id) : Bool := c.supported && !c.transformFailed

def noEncryptReason (c : Controller Id) : Detail :=
  if c.supported then .transform else .unsupported

def ensureWorker (c : Controller Id) : Controller Id :=
  { c with worker := some (c.worker.getD []) }

/-- `this.worker.postMessage`, where there is a worker. -/
def post (c : Controller Id) (m : Post Id) : Controller Id :=
  { c with worker := c.worker.map (· ++ [m]) }

def setWorkerMode (c : Controller Id) (cleartext : Bool) : Controller Id :=
  { c with worker := if c.supported then (c.post (.mode cleartext)).worker else c.worker }

def suspend (c : Controller Id) (call : Suspended Id) : Controller Id :=
  { c with calls := c.calls ++ [call] }

/-- The second part says whether `send` returned; otherwise it threw. -/
def send (c : Controller Id) (payload : Payload) (up : Bool) : Controller Id × Bool :=
  match c.peer with
  | none => (c, true)
  | some peer =>
      let payload := if payload.t = .nocrypto then payload
        else { payload with v := some PROTOCOL_VERSION }
      if up then ({ c with sent := c.sent ++ [(peer, payload)] }, true) else (c, false)

omit [LinearOrder Id] in
/-- Sending changes nothing else, and returns if the socket takes the message. -/
theorem send_eq {c d : Controller Id} {payload : Payload} {up returned : Bool}
    (h : c.send payload up = (d, returned)) :
    (∃ sent, d = { c with sent := sent }) ∧ (c.peer.isSome → returned = up) := by
  unfold send at h
  split at h
  · rename_i hpeer
    cases h
    exact ⟨⟨c.sent, rfl⟩, by simp [hpeer]⟩
  · dsimp only at h
    cases up with
    | false =>
        cases h
        exact ⟨⟨c.sent, rfl⟩, fun _ => rfl⟩
    | true =>
        cases h
        exact ⟨⟨_, rfl⟩, fun _ => rfl⟩

def announceNoCrypto (c : Controller Id) (up : Bool) : Controller Id × Bool :=
  c.send { t := .nocrypto } up

def dropChatKeys (c : Controller Id) : Controller Id :=
  { c with chatSendKey := none, chatRecvKey := none, chatSendSeq := 0, chatRecvSeq := -1 }

def stopHandshakeTimer (c : Controller Id) : Controller Id := { c with handshakeTimer := none }

def resetPeer (c : Controller Id) : Controller Id :=
  let c := { c with
    generation := c.generation + 1, peer := none, role := none, startingFor := none,
    keyPair := none, myPub := none, myCommit := none, peerPub := none, peerCommit := none,
    secret := none, sas := none, peerSupports := none, resets := c.resets + 1 }
  ((c.dropChatKeys.stopHandshakeTimer).post .clear).post (.mode false)

def fail (c : Controller Id) (detail : Detail) : Controller Id :=
  let c := { c with generation := c.generation + 1 }.stopHandshakeTimer
  let c := { c with secret := none, sas := none }.dropChatKeys
  ((c.post .clear).post (.mode false)).setState .failed (some detail)

/-- Why `downgrade` refuses. -/
def refusesClear (c : Controller Id) : Bool := c.require || (c.wasEncrypted && !c.clearAgreed)

def downgrade (c : Controller Id) (reason : Detail) : Controller Id :=
  if c.refusesClear then (c.setWorkerMode false).setState .blocked (some reason)
  else (c.setWorkerMode true).setState .unencrypted (some reason)

def awaitsClearConsent (c : Controller Id) : Bool :=
  c.state = .blocked && !c.require && c.wasEncrypted && !c.clearAgreed

def continueInClear (c : Controller Id) : Controller Id :=
  if c.awaitsClearConsent then
    ({ c with clearAgreed := true }.setWorkerMode true).setState .unencrypted c.detail
  else c

/-- A handshake with `peer` is under way or done, so `startWith` returns at once. -/
def underway (c : Controller Id) (peer : Id) : Bool :=
  c.peer = some peer && (c.keyPair.isSome || c.startingFor = some peer)

/-- A new session with `peer`, at the beginning of its handshake. -/
def renew (c : Controller Id) (peer : Id) : Controller Id :=
  let c := c.resetPeer
  let c := { c with
    peer := some peer, startingFor := some peer,
    role := some (if c.id < peer then .initiator else .responder) }
  (c.setState .handshaking none).ensureWorker

/-- `startWith` up to its first `await`. A message whose handler awaits it goes
on after it. -/
def startWith (c : Controller Id) (peer : Id) (waiting : Option Payload) : Controller Id :=
  if !c.supported || c.underway peer then
    waiting.elim c fun payload => c.suspend (.resuming payload)
  else
    let c := (c.renew peer).setWorkerMode false
    { c with handshakeTimer := some c.generation }.suspend (.starting peer c.generation waiting)

/-- The timer of `startWith`. -/
def slow (c : Controller Id) (gen : ℕ) : Controller Id :=
  let c := { c with handshakeTimer := none }
  if gen = c.generation ∧ c.state = .handshaking then c.setState .handshaking (some .slow) else c

/-- The rest of `startWith`, with the key pair it has generated. -/
def started (C : Crypto Id) (c : Controller Id) (peer : Id) (gen : ℕ) (kp : KeyPair) (up : Bool) :
    Controller Id × Bool :=
  if c.peer ≠ some peer ∨ gen ≠ c.generation then (c, true)
  else
    let c := { c with
      keyPair := some kp, myPub := some kp.publicKey,
      myCommit := some (C.commit kp.publicKey), startingFor := none }
    match c.send { t := .hello } up with
    | (c, false) => (c, false)
    | (c, true) =>
        if c.role = some .responder then c.send { t := .commit, commit := c.myCommit } up
        else (c, true)

def recompute (c : Controller Id) (up : Bool) : Controller Id :=
  match c.users with
  | [] =>
      let c := c.resetPeer
      if c.require && !c.canEncrypt then c.downgrade c.noEncryptReason
      else c.setState .idle none
  | [peer] =>
      if !c.canEncrypt then
        match { c with peer := some peer }.announceNoCrypto up with
        | (c, false) => c
        | (c, true) => c.downgrade c.noEncryptReason
      else c.startWith peer none
  | _ :: _ :: _ => c.resetPeer.downgrade .multipeer

def setRequire (c : Controller Id) (require up : Bool) : Controller Id :=
  { c with require := require }.recompute up

def addUser (c : Controller Id) (id : Id) (up : Bool) : Controller Id :=
  if id = c.id then c
  else { c with users := if id ∈ c.users then c.users else c.users ++ [id] }.recompute up

def delUser (c : Controller Id) (id : Id) (up : Bool) : Controller Id :=
  let c := { c with users := c.users.filter (· ≠ id) }
  if c.peer = some id then c.resetPeer.recompute up else c.recompute up

/-- What `finalize` works from; `none` if something is missing. -/
def session (c : Controller Id) : Option (Session Id) :=
  let initiator : Bool := c.role = some .initiator
  match c.keyPair, c.myPub, c.peerPub, c.peer, (if initiator then c.peerCommit else c.myCommit) with
  | some keyPair, some myPub, some peerPub, some peer, some commit =>
      some { gen := c.generation, keyPair, myPub, peerPub, peer, initiator, commit }
  | _, _, _, _, _ => none

def finalize (c : Controller Id) : Controller Id :=
  match c.session with
  | none => c
  | some s => c.suspend (.finalizing s .agree)

/-- The rest of `onMessage` after its `startWith`. -/
def answer (c : Controller Id) (payload : Payload) (up : Bool) : Controller Id :=
  if c.state = .established ∨ c.state = .failed then c
  else if c.myCommit = none then c
  else if payload.v ≠ some PROTOCOL_VERSION then c.fail .version
  else match payload.t with
    | .hello =>
        if c.role = some .responder then (c.send { t := .commit, commit := c.myCommit } up).1
        else c
    | .commit =>
        if c.role = some .initiator then
          match payload.commit with
          | none => c
          | some commit =>
              match c.peerCommit with
              | some known => if commit = known then c else c.fail .commitment
              | none =>
                  ({ c with peerCommit := some commit }.send { t := .dh, pub := c.myPub } up).1
        else c
    | .dh =>
        match payload.pub with
        | none => c
        | some pub =>
            match c.peerPub with
            | some known => if pub = known then c else c.fail .commitment
            | none =>
                if c.role = some .responder then
                  match { c with peerPub := some pub }.send { t := .dh, pub := c.myPub } up with
                  | (c, false) => c
                  | (c, true) => c.finalize
                else if c.peerCommit = none then c
                else c.suspend (.hashing pub)
    | .nocrypto | .other => c

/-- The rest of `onMessage` once the initiator has hashed the key. A commitment
that has gone meanwhile makes `bytesEqual` throw. -/
def hashed (C : Crypto Id) (c : Controller Id) (pub : Bytes) : Controller Id :=
  match c.peerCommit with
  | none => c
  | some commit =>
      if C.commit pub ≠ commit then c.fail .commitment
      else if c.peerPub.isSome ∨ c.state ≠ .handshaking then c
      else { c with peerPub := some pub }.finalize

def onMessage (c : Controller Id) (sender : Id) (payload : Option Payload) (up : Bool) :
    Controller Id :=
  match payload with
  | none => c
  | some payload =>
      if c.users ≠ [sender] then c
      else if !c.supported then
        match { c with peer := some sender }.announceNoCrypto up with
        | (c, false) => c
        | (c, true) => c.downgrade .unsupported
      else if payload.t = .nocrypto then
        { c with peer := some sender, peerSupports := some false }.downgrade .peerUnsupported
      else if c.peer ≠ some sender ∨ c.keyPair = none then c.startWith sender (some payload)
      else c.answer payload up

end Controller

section Sessions

variable {Id : Type}

def Session.transcript (s : Session Id) (id : Id) : Transcript Id where
  initiatorId := if s.initiator then id else s.peer
  responderId := if s.initiator then s.peer else id
  commit := s.commit
  initiatorPub := if s.initiator then s.myPub else s.peerPub
  responderPub := if s.initiator then s.peerPub else s.myPub

/-- The streams of the two participants, in the order of the loop in `finalize`. -/
def Session.streams (s : Session Id) (id : Id) : List (StreamId Id) :=
  [⟨id, .audio⟩, ⟨id, .video⟩, ⟨s.peer, .audio⟩, ⟨s.peer, .video⟩]

end Sessions

namespace Controller

variable {Id : Type} [LinearOrder Id]

/-- `finalize` from one `await` to the next. -/
def finalizing (C : Crypto Id) (c : Controller Id) (s : Session Id) (await : Await Id) :
    Controller Id :=
  if s.gen ≠ c.generation then c
  else match await with
    | .agree =>
        let secret := C.agree s.keyPair.privateKey s.peerPub
        { c with secret := some secret }.suspend (.finalizing s (.transcript secret))
    | .transcript secret =>
        let salt := C.transcript (s.transcript c.id)
        match s.streams c.id with
        | [] => c.suspend (.finalizing s (.chat secret salt))
        | streamId :: rest => c.suspend (.finalizing s (.media secret salt streamId rest))
    | .media secret salt streamId rest =>
        let c := c.ensureWorker.post (.key streamId 0 (C.deriveMediaKey secret salt streamId))
        match rest with
        | [] => c.suspend (.finalizing s (.chat secret salt))
        | streamId :: rest => c.suspend (.finalizing s (.media secret salt streamId rest))
    | .chat secret salt =>
        let c := { c with
          chatSendKey := some (C.deriveChatKey secret salt c.id),
          chatRecvKey := some (C.deriveChatKey secret salt s.peer),
          chatSendSeq := 0, chatRecvSeq := -1 }
        (c.setWorkerMode false).suspend (.finalizing s (.sas secret salt))
    | .sas secret salt =>
        let c := { c with
          sas := some (C.deriveSAS secret salt), peerSupports := some true,
          handshakeTimer := none, wasEncrypted := true, clearAgreed := false }
        c.setState .established none

/-- A suspended call goes on; one that has generated a key pair finds it in `kp`. -/
def resume (C : Crypto Id) (c : Controller Id) (kp : KeyPair) (up : Bool) :
    Suspended Id → Controller Id
  | .starting peer gen waiting =>
      match c.started C peer gen kp up with
      | (c, false) => c
      | (c, true) => waiting.elim c fun payload => c.suspend (.resuming payload)
  | .resuming payload => c.answer payload up
  | .hashing pub => c.hashed C pub
  | .finalizing s await => c.finalizing C s await

/-- `attachSender`, where `ok` says whether the transform could be set. -/
def attachSender (c : Controller Id) (ok up : Bool) : Controller Id :=
  if !c.supported then c
  else if ok then c.ensureWorker
  else ({ c.ensureWorker with transformFailed := true }.announceNoCrypto up).1.downgrade .transform

def attachReceiver (c : Controller Id) : Controller Id :=
  if c.supported then c.ensureWorker else c

end Controller

inductive Label (Id : Type) where
  | addUser (id : Id) (up : Bool)
  | delUser (id : Id) (up : Bool)
  | setRequire (require up : Bool)
  | message (sender : Id) (payload : Option Payload) (up : Bool)
  | continueInClear
  | attachSender (ok up : Bool)
  | attachReceiver
  | timeout
  | resume (i : ℕ) (kp : KeyPair) (up : Bool)
  /-- What a suspended call awaits fails. -/
  | reject (i : ℕ)
deriving DecidableEq, Repr

variable {Id : Type} [LinearOrder Id]

def step (C : Crypto Id) (c : Controller Id) : Label Id → Option (Controller Id)
  | .addUser id up => some (c.addUser id up)
  | .delUser id up => some (c.delUser id up)
  | .setRequire require up => some (c.setRequire require up)
  | .message sender payload up => some (c.onMessage sender payload up)
  | .continueInClear => some c.continueInClear
  | .attachSender ok up => some (c.attachSender ok up)
  | .attachReceiver => some c.attachReceiver
  | .timeout => c.handshakeTimer.map c.slow
  | .resume i kp up =>
      c.calls[i]?.map ({ c with calls := c.calls.eraseIdx i }.resume C kp up)
  | .reject i => c.calls[i]?.map fun _ => { c with calls := c.calls.eraseIdx i }

/-- The event lets a call with one other participant go on in clear: a message
that says that the peer cannot encrypt, an encryptor that cannot be attached,
the user's consent, or, once an encryptor could not be attached, an event that
makes the controller decide anew. -/
def Controller.clears (c : Controller Id) : Label Id → Bool
  | .message sender (some payload) _ =>
      c.users = [sender] && payload.t = .nocrypto && !c.refusesClear
  | .attachSender ok _ => !ok && !c.refusesClear
  | .continueInClear => c.awaitsClearConsent
  | .addUser id up => c.users = [id] && up && !c.canEncrypt && !c.refusesClear
  | .delUser id up => id ∉ c.users && up && !c.canEncrypt && !c.refusesClear
  | .setRequire require up =>
      !require && up && !c.canEncrypt && !{ c with require := false }.refusesClear
  | _ => false

/-- `galene.js` tells a new controller whether the room was encrypted before. -/
def system (C : Crypto Id) : System (Controller Id) (Label Id) where
  init c := ∃ id supported wasEncrypted,
    c = { id := id, supported := supported, wasEncrypted := wasEncrypted }
  step := step C

section Samples

/-- A small Diffie-Hellman group, with the inputs themselves for their hashes. -/
def sampleCrypto : Crypto ℕ where
  commit pub := 0 :: pub
  agree privateKey peerPub := match privateKey, peerPub with
    | [a], [p] => [UInt8.ofNat (p.toNat ^ a.toNat % 251)]
    | _, _ => []
  transcript t := t.commit ++ t.initiatorPub ++ t.responderPub
  deriveMediaKey secret salt streamId :=
    secret ++ salt ++ [UInt8.ofNat streamId.owner, if streamId.kind = .audio then 0 else 1]
  deriveChatKey secret salt sender := secret ++ salt ++ [UInt8.ofNat sender, 2]
  deriveSAS secret salt := (secret ++ salt).map fun b => toString b.toNat

def samplePair (privateKey : UInt8) : KeyPair where
  privateKey := [privateKey]
  publicKey := sampleCrypto.agree [privateKey] [6]

/-- A new controller in a room that was not encrypted before. -/
def newcomer : Controller ℕ := { id := 1, supported := true }

theorem init_newcomer : (system sampleCrypto).init newcomer := ⟨1, true, false, rfl⟩

end Samples

end Sozvon.E2EE
