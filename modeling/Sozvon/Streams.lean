import Sozvon.Runs
import Mathlib.Logic.Function.Basic

/-!
# Streams

What the clients of a group publish and what they are sent. A connection on which a
client publishes is an up connection, and the server has a down connection of it for
every client that wants some of its tracks. Clients tell each other of their
connections through queues of actions. What is new on a connection is pushed to the
others after a while only, by a goroutine that sleeps for 200 ms. Both ends of a stream
are web clients: clients that publish over WHIP and the recorder, to which up
connections are pushed as well, are left out.

A handler is one step, and so is the end of such a sleep: no handler takes that long.
What WebRTC makes of a request comes with the labels. An error that a handler returns
ends the session. A client joins a group in one step, and leaves it in one.
-/
namespace Sozvon.Streams
open Runs

inductive Kind where
  | audio | video
deriving DecidableEq, Repr

structure RtpUpTrack where
  number : ℕ
  kind : Kind
deriving DecidableEq, Repr

structure RtpDownTrack where
  remote : RtpUpTrack
  limitSid : Bool := false
deriving DecidableEq, Repr

inductive SignalingState where
  | stable | haveLocalOffer
deriving DecidableEq, Repr

inductive Negotiation where
  | unneeded | needed | restartIce
deriving DecidableEq, Repr

structure RtpUpConnection where
  id : String := ""
  client : ℕ := 0
  label : String := ""
  closed : Bool := false
  pushed : Bool := false
  replace : String := ""
  tracks : List RtpUpTrack := []
  /-- The clients with a down connection of this one. -/
  locals : List ℕ := []
deriving DecidableEq, Repr

structure RtpDownConnection where
  id : String
  /-- The up connection that it is one of. -/
  remote : ℕ
  signalingState : SignalingState := .stable
  negotiationNeeded : Negotiation := .unneeded
  requested : Option (List String) := none
  tracks : List RtpDownTrack := []
deriving DecidableEq, Repr

/-- What an offer describes. -/
structure Sdp where
  tracks : List RtpUpTrack
  iceRestart : Bool
deriving DecidableEq, Repr

/-- A message to a client. -/
inductive Message where
  | offer (id label replace : String) (source : ℕ) (sdp : Sdp)
  | answer (id : String)
  | renegotiate (id : String)
  | close (id : String)
  | abort (id : String)
  | error (message : String)
deriving DecidableEq, Repr

/-- A message from a client. -/
inductive ClientMessage where
  | request (requested : List (String × List String))
  | requestStream (id : String) (requested : Option (List String))
  | offer (id label replace : String)
  | answer (id : String)
  | renegotiate (id : String)
  | close (id : String)
  | abort (id : String)
deriving DecidableEq, Repr

inductive Action where
  | pushConn (group : ℕ) (id : String) (conn : Option ℕ) (tracks : List RtpUpTrack)
      (replace : String)
  | requestConns (group : ℕ) (target : ℕ) (id : String)
  | connectionFailed (id : String)
  | permissionsChanged
deriving DecidableEq, Repr

structure WebClient where
  group : Option ℕ := none
  /-- Whether it may publish. -/
  present : Bool := false
  requested : List (String × List String) := []
  down : List RtpDownConnection := []
  actions : List Action := []
  /-- All that has been written to it. -/
  sent : List Message := []
  /-- The number of joins so far. -/
  stay : ℕ := 0
  ended : Bool := false
deriving DecidableEq, Repr

/-- A goroutine that sleeps before it pushes a connection. -/
structure Delayed where
  up : ℕ
  group : ℕ
  clients : List ℕ
deriving DecidableEq, Repr

/-- What a client is to those who tell it something. -/
class Peer (γ : Type) where
  group : γ → Option ℕ
  put : γ → Action → γ

instance : Peer WebClient where
  group c := c.group
  put c a := { c with actions := c.actions ++ [a] }

/-- The clients and their groups, the up connections and what is due to be pushed. -/
structure Net (γ : Type) where
  clients : ℕ → γ
  ups : ℕ → RtpUpConnection := fun _ => {}
  /-- The number of up connections so far. -/
  fresh : ℕ := 0
  /-- The members of a group. -/
  rooms : ℕ → List ℕ := fun _ => []
  delayed : List Delayed := []

abbrev World := Net WebClient

/-- What WebRTC makes of what it is asked to do in a step. -/
structure Rtc where
  /-- A new connection can be made. -/
  connects : Bool := true
  /-- The tracks that it does not add or remove. -/
  refuses : List RtpUpTrack := []
  offers : Bool := true
  /-- It takes what the client has offered or answered. -/
  accepts : Bool := true
  error : String := ""
deriving DecidableEq, Repr

/-! ## Tracks -/

/-- The first or the last track of a kind, and how many have been looked at. -/
def find (tracks : List RtpUpTrack) (kind : Kind) (last : Bool) : Option RtpUpTrack × ℕ :=
  let ts := tracks.filter (·.kind = kind)
  if last then (ts.getLast?, ts.length) else (ts.head?, min ts.length 1)

def requestedTracks (requested : List String) (tracks : List RtpUpTrack) :
    List RtpUpTrack × Bool :=
  if requested.length = 0 then ([], false)
  else
    let audio := if "audio" ∈ requested then (find tracks .audio false).1.toList else []
    if "video" ∈ requested then (audio ++ (find tracks .video false).1.toList, false)
    else if "video-low" ∈ requested then
      let (t, count) := find tracks .video true
      (audio ++ t.toList, count < 2)
    else (audio, false)

def addDownTrack (rtc : Rtc) (tracks : List RtpDownTrack) (remoteTrack : RtpUpTrack) :
    Option (List RtpDownTrack) :=
  if remoteTrack ∈ tracks.map (·.remote) ∨ remoteTrack ∈ rtc.refuses then none
  else some (tracks ++ [{ remote := remoteTrack }])

def delDownTrack (rtc : Rtc) (tracks : List RtpDownTrack) (track : RtpDownTrack) :
    Option (List RtpDownTrack) :=
  if track.remote ∈ rtc.refuses then none else some (tracks.erase track)

/-- The tracks that a down connection is left with, and whether they are others than
before. -/
def replaceTracks (rtc : Rtc) (tracks : List RtpDownTrack) (remote : List RtpUpTrack)
    (limitSid : Bool) : Option (List RtpDownTrack × Bool) :=
  let add := remote.filter (· ∉ tracks.map (·.remote))
  let del := tracks.filter (·.remote ∉ remote)
  if del = [] ∧ add = [] then some (tracks.map ({ · with limitSid }), false)
  else do
    let tracks ← del.foldlM (delDownTrack rtc) tracks
    let tracks ← add.foldlM (addDownTrack rtc) tracks
    some (tracks.map ({ · with limitSid }), true)

/-! ## Clients -/

namespace WebClient

def write (c : WebClient) (m : Message) : WebClient := { c with sent := c.sent ++ [m] }

def getDownConn (c : WebClient) (id : String) : Option RtpDownConnection :=
  c.down.find? (·.id = id)

def setDownConn (c : WebClient) (down : RtpDownConnection) : WebClient :=
  { c with down := c.down.map fun d => if d.id = down.id then down else d }

/-- What it wants of a stream for which it has not asked for anything else. -/
def requestedOf (c : WebClient) (label : String) : List String :=
  (c.requested.lookup label).getD ((c.requested.lookup "").getD [])

/-- A description of the tracks there are; two offers are never sent back-to-back. -/
def negotiate (c : WebClient) (rtc : Rtc) (up : RtpUpConnection) (down : RtpDownConnection)
    (restartIce : Bool) (replace : String) : Except WebClient WebClient :=
  if down.signalingState = .haveLocalOffer then
    .ok (c.setDownConn { down with
      negotiationNeeded :=
        if restartIce then .restartIce
        else if down.negotiationNeeded = .unneeded then .needed
        else down.negotiationNeeded })
  else if rtc.offers then
    .ok ((c.setDownConn { down with
        negotiationNeeded := .unneeded, signalingState := .haveLocalOffer }).write
      (.offer down.id up.label replace up.client ⟨down.tracks.map (·.remote), restartIce⟩))
  else .error (c.setDownConn { down with negotiationNeeded := .unneeded })

end WebClient

namespace Net

section Peers

variable {γ : Type} [Peer γ] (w : Net γ) (n : ℕ)

def modify (f : γ → γ) : Net γ := { w with clients := Function.update w.clients n (f (w.clients n)) }

def modifyUp (r : ℕ) (f : RtpUpConnection → RtpUpConnection) : Net γ :=
  { w with ups := Function.update w.ups r (f (w.ups r)) }

/-- An action is queued for some clients. -/
def action (ks : List ℕ) (a : Action) : Net γ :=
  { w with clients := fun k => if k ∈ ks then Peer.put (w.clients k) a else w.clients k }

def getClients (g except : ℕ) : List ℕ := (w.rooms g).filter (· ≠ except)

/-! ## Up connections -/

/-- The up connections of a client, which are those it has not closed. -/
def getUpConns : List ℕ :=
  (List.range w.fresh).filter fun r => (w.ups r).client = n ∧ (w.ups r).closed = false

def getUpConn (id : String) : Option ℕ := (w.getUpConns n).find? fun r => (w.ups r).id = id

/-- A push of a connection to the members that there are now is due. -/
def pushConn (r : ℕ) : Net γ :=
  let n := (w.ups r).client
  match Peer.group (w.clients n) with
  | none => w
  | some g =>
      { w.modifyUp r ({ · with pushed := false }) with
        delayed := w.delayed ++ [⟨r, g, w.getClients g n⟩] }

def pushConnNow (e : Delayed) : Net γ :=
  let u := w.ups e.up
  (w.modifyUp e.up ({ · with pushed := true, replace := "" })).action e.clients
    (.pushConn e.group u.id (some e.up) u.tracks u.replace)

/-- A new connection, and the first push of it. -/
def newUpConn (id label : String) : Net γ :=
  { w.modifyUp w.fresh fun _ => { id, client := n, label } with fresh := w.fresh + 1 }.pushConn
    w.fresh

/-- The close is pushed to the other members of the client's group. -/
def delUpConn (id : String) (push : Bool) : Net γ :=
  match w.getUpConn n id with
  | none => w
  | some r =>
      let closed := w.modifyUp r ({ · with closed := true })
      match push, Peer.group (w.clients n) with
      | true, some g =>
          closed.action (w.getClients g n) (.pushConn g id none [] (w.ups r).replace)
      | _, _ => closed

def delUpConns (order : List ℕ) : Net γ :=
  order.foldl (fun w r => w.delUpConn n (w.ups r).id true) w

def supersede (r : ℕ) (replace : String) : Net γ :=
  if replace ≠ "" then (w.modifyUp r ({ · with replace })).delUpConn n replace false else w

/-- A map of connections is gone through in any order. -/
def requestConns (target g : ℕ) (id : String) (order : List ℕ) : Net γ :=
  order.foldl (fun w r =>
    if id ≠ "" ∧ id ≠ (w.ups r).id then w
    else w.action [target] (.pushConn g (w.ups r).id (some r) (w.ups r).tracks (w.ups r).replace)) w

end Peers

section Clients

variable (w : World) (n : ℕ)

def write (m : Message) : World := w.modify n (·.write m)

def error (message : String) : World := if message ≠ "" then w.write n (.error message) else w

/-- The connection of a client with this id, which is a new one if there is none. -/
def addUpConn (rtc : Rtc) (id label : String) : Except String (World × ℕ) :=
  if ((w.clients n).getDownConn id).isSome then .error "adding duplicate connection"
  else
    match w.getUpConn n id with
    | some r => .ok (w, r)
    | none => if rtc.connects then .ok (w.newUpConn n id label, w.fresh) else .error rtc.error

def failUpConnection (id message : String) : World :=
  (if id ≠ "" then w.write n (.abort id) else w).error n message

def gotOffer (rtc : Rtc) (id label replace : String) : World :=
  match w.addUpConn n rtc id label with
  | .error message => w.failUpConnection n id message
  | .ok (added, r) =>
      let replaced := added.supersede n r replace
      if rtc.accepts then replaced.write n (.answer id)
      else replaced.failUpConnection n id rtc.error

/-! ## Down connections -/

def delDownConn (id : String) : World :=
  match (w.clients n).getDownConn id with
  | none => w
  | some d =>
      (w.modifyUp d.remote fun u => { u with locals := u.locals.erase n }).modify n fun c =>
        { c with down := c.down.filter (·.id ≠ id) }

def closeDownConn (id message : String) : World :=
  ((w.delDownConn n id).write n (.close id)).error n message

inductive AddError where
  | duplicate | failed | closed
deriving DecidableEq, Repr

/-- The up connection takes no down connections once it is closed. -/
def addDownConn (rtc : Rtc) (r : ℕ) : Except AddError World :=
  let u := w.ups r
  if (w.getUpConn n u.id).isSome then .error .duplicate
  else if ((w.clients n).getDownConn u.id).isSome then .ok w
  else if ¬ rtc.connects then .error .failed
  else if u.closed then .error .closed
  else
    .ok ((w.modifyUp r fun u => if n ∈ u.locals then u else { u with locals := u.locals ++ [n] }).modify
      n fun c => { c with down := c.down ++ [{ id := u.id, remote := r }] })

/-- The tracks that a client is to be sent of those pushed to it. -/
def wanted (up : Option ℕ) (tracks : List RtpUpTrack) (replace : String) :
    List RtpUpTrack × Bool :=
  match up with
  | none => ([], false)
  | some r =>
      let c := w.clients n
      let old := c.getDownConn (if replace ≠ "" then replace else (w.ups r).id)
      let req := (old.bind (·.requested)).getD (c.requestedOf (w.ups r).label)
      requestedTracks req tracks

/-- The client is told of a connection that has been replaced, if the new one has not said so. -/
def closeReplaced (replace : String) : World :=
  if replace ≠ "" then w.closeDownConn n replace "" else w

/-- A down connection is given the tracks that are wanted, and the client an offer of them. -/
def giveTracks (rtc : Rtc) (down : RtpDownConnection) (requested : List RtpUpTrack)
    (limitSid : Bool) (replace : String) : Except World World :=
  match replaceTracks rtc down.tracks requested limitSid with
  | none => .error (w.closeReplaced n replace)
  | some (tracks, false) =>
      .ok ((w.modify n (·.setDownConn { down with tracks })).closeReplaced n replace)
  | some (tracks, true) =>
      match (w.clients n).negotiate rtc (w.ups down.remote) { down with tracks } false replace with
      | .ok c => .ok (w.modify n fun _ => c)
      | .error c =>
          .error (((w.modify n fun _ => c).closeDownConn n down.id rtc.error).closeReplaced n replace)

def offerTracks (rtc : Rtc) (r : ℕ) (requested : List RtpUpTrack)
    (limitSid : Bool) (replace : String) : Except World World :=
  match w.addDownConn n rtc r with
  | .error .closed => .ok (w.closeReplaced n replace)
  | .error _ => .error (w.closeReplaced n replace)
  | .ok w =>
      match (w.clients n).getDownConn (w.ups r).id with
      | none => .ok (w.closeReplaced n replace)
      | some down => w.giveTracks n rtc down requested limitSid replace

def pushDownConn (rtc : Rtc) (id : String) (up : Option ℕ)
    (tracks : List RtpUpTrack) (replace : String) : Except World World :=
  let (requested, limitSid) := w.wanted n up tracks replace
  let replaced := if replace ≠ "" then w.delDownConn n replace else w
  match requested, up with
  | _ :: _, some r => replaced.offerTracks n rtc r requested limitSid replace
  | _, _ => .ok ((replaced.closeDownConn n id "").closeReplaced n replace)

/-! ## The loop of a client -/

def leaveGroup (order : List ℕ) : World :=
  match (w.clients n).group with
  | none => w
  | some g =>
      let closed := w.delUpConns n order
      let left := ((closed.clients n).down.map (·.id)).foldl (fun w id => w.delDownConn n id) closed
      { left.modify n ({ · with group := none, present := false, requested := [] }) with
        rooms := Function.update left.rooms g ((left.rooms g).erase n) }

def handleAction (rtc : Rtc) (order : List ℕ) : Action → Except World World
  | .pushConn g id conn tracks replace =>
      if (w.clients n).group ≠ some g then .ok w else w.pushDownConn n rtc id conn tracks replace
  | .requestConns g target id =>
      if (w.clients n).group ≠ some g then .ok w else .ok (w.requestConns target g id order)
  | .connectionFailed id =>
      match (w.clients n).getDownConn id with
      | some down =>
          match (w.clients n).negotiate rtc (w.ups down.remote) down true "" with
          | .error c => .error (w.modify n fun _ => c)
          | .ok c =>
              let w := w.modify n fun _ => c
              match c.group with
              | none => .ok w
              | some g =>
                  .ok (w.action [n] (.pushConn g (w.ups down.remote).id (some down.remote)
                    (down.tracks.map (·.remote)) ""))
      | none => .ok (if (w.getUpConn n id).isSome then w.write n (.renegotiate id) else w)
  | .permissionsChanged =>
      match (w.clients n).group with
      | none => .error w
      | some _ =>
          if (w.clients n).present then .ok w
          else
            .ok (order.foldl (fun w r =>
              let id := (w.ups r).id
              if (w.getUpConn n id).isSome then
                (w.delUpConn n id true).failUpConnection n id "permission denied"
              else w) w)

def handleClientMessage (rtc : Rtc) : ClientMessage → Except World World
  | .request requested =>
      match (w.clients n).group with
      | none => .error w
      | some g =>
          .ok ((w.modify n ({ · with requested })).action (w.getClients g n) (.requestConns g n ""))
  | .requestStream id requested =>
      match (w.clients n).getDownConn id with
      | none => .ok w
      | some down =>
          let asked := w.modify n (·.setDownConn { down with requested })
          match (w.clients n).group with
          | none => .ok asked
          | some g =>
              .ok (asked.action [(w.ups down.remote).client]
                (.requestConns g n (w.ups down.remote).id))
  | .offer id label replace =>
      if id = "" then .error w
      else if (w.clients n).present then .ok (w.gotOffer n rtc id label replace)
      else
        let w := if replace ≠ "" then w.delUpConn n replace true else w
        .ok ((w.write n (.abort id)).error n "not authorised")
  | .answer id =>
      if id = "" then .error w
      else
        match (w.clients n).getDownConn id with
        | none => .ok (w.closeDownConn n id "")
        | some down =>
            -- an answer to nothing is an error in any state but this
            if ¬ (rtc.accepts ∧ down.signalingState = .haveLocalOffer) then
              .ok (w.closeDownConn n id rtc.error)
            else
              let answered := { down with signalingState := .stable }
              if down.negotiationNeeded = .unneeded then .ok (w.modify n (·.setDownConn answered))
              else
                match (w.clients n).negotiate rtc (w.ups down.remote) answered
                    (down.negotiationNeeded = .restartIce) "" with
                | .ok c => .ok (w.modify n fun _ => c)
                | .error c => .ok ((w.modify n fun _ => c).closeDownConn n id rtc.error)
  | .renegotiate id =>
      if id = "" then .error w
      else
        match (w.clients n).getDownConn id with
        | none => .ok w
        | some down =>
            match (w.clients n).negotiate rtc (w.ups down.remote) down true "" with
            | .ok c => .ok (w.modify n fun _ => c)
            | .error c => .ok ((w.modify n fun _ => c).closeDownConn n id rtc.error)
  | .close id => if id = "" then .error w else .ok (w.delUpConn n id true)
  | .abort id => if id = "" then .error w else .ok (w.closeDownConn n id "")

/-- An offer of a client that may publish but is in no group, as happens after a join that has
been refused, takes the server down. -/
def crashes : ClientMessage → Bool
  | .offer .. => (w.clients n).present && (w.clients n).group.isNone
  | _ => false

/-- A session that is over leaves its group. -/
def finish (order : List ℕ) : Except World World → World
  | .ok w => w
  | .error w => (w.leaveGroup n order).modify n ({ · with ended := true })

end Clients

end Net

/-! ## Runs -/

inductive Label where
  | join (n g : ℕ) (present : Bool)
  | leave (n : ℕ) (order : List ℕ)
  /-- The socket is lost or closed, or a handler that is not modelled fails. -/
  | lost (n : ℕ) (order : List ℕ)
  /-- The permission to publish is given or taken. -/
  | permit (n : ℕ) (present : Bool)
  | message (n : ℕ) (m : ClientMessage) (rtc : Rtc) (order : List ℕ)
  /-- The next action of a client is handled. -/
  | action (n : ℕ) (rtc : Rtc) (order : List ℕ)
  /-- WebRTC has found a new track. -/
  | onTrack (r : ℕ) (track : RtpUpTrack)
  /-- ICE has found that a connection does not work. -/
  | failed (n : ℕ) (id : String)
  /-- A delayed push is due, and is made unless another one has been meanwhile. -/
  | wake (i : ℕ)
deriving DecidableEq, Repr

def step (w : World) : Label → Option World
  | .join n g present =>
      let c := w.clients n
      if c.ended ∨ c.group ≠ none then none
      else some { w.modify n ({ · with group := some g, present, stay := c.stay + 1 }) with
        rooms := Function.update w.rooms g (w.rooms g ++ [n]) }
  | .leave n order =>
      if (w.clients n).ended ∨ ¬ order.Perm (w.getUpConns n) then none
      else some (w.leaveGroup n order)
  | .lost n order =>
      if (w.clients n).ended ∨ ¬ order.Perm (w.getUpConns n) then none
      else some (Net.finish n order (.error w))
  | .permit n present =>
      if (w.clients n).ended then none
      else some (w.modify n fun c =>
        { c with present, actions := c.actions ++ [.permissionsChanged] })
  | .message n m rtc order =>
      if (w.clients n).ended ∨ ¬ order.Perm (w.getUpConns n) ∨ w.crashes n m then none
      else some (Net.finish n order (w.handleClientMessage n rtc m))
  | .action n rtc order =>
      if (w.clients n).ended ∨ ¬ order.Perm (w.getUpConns n) then none
      else
        match (w.clients n).actions with
        | [] => none
        | a :: rest =>
            let w := w.modify n ({ · with actions := rest })
            some (Net.finish n order (w.handleAction n rtc order a))
  | .onTrack r track =>
      if r < w.fresh ∧ (w.clients (w.ups r).client).group ≠ none then
        some ((w.modifyUp r fun u => { u with tracks := u.tracks ++ [track] }).pushConn r)
      else none
  | .failed n id => some (w.action [n] (.connectionFailed id))
  | .wake i =>
      match w.delayed[i]? with
      | none => none
      | some e =>
          let w := { w with delayed := w.delayed.eraseIdx i }
          some (if (w.ups e.up).pushed then w else w.pushConnNow e)

def system : System World Label := { init := (· = { clients := fun _ => {} }), step }

end Sozvon.Streams
