import Sozvon.ReplayLogs
import Sozvon.Runs
import Sozvon.Utf16
import Mathlib.Logic.Function.Basic

/-!
# A resumable session

The client of `protocol.js` and the session of `webclient.go` and `resume.go`, joined
by one socket after another. Every goroutine of the server and every event of the
client's takes its steps by itself, and the network may lose the end of what a
socket carries at any time. Channels are unbounded here: their capacity only makes
some orders of the steps impossible.
-/
namespace Sozvon.Resume
open Runs Utf16

section Definitions

abbrev Bytes := List UInt8

def maxWSMessageSize : ℕ := 1024 * 1024

def CLOSE_NO_RESUME : ℕ := 4001

/-- A message that `ReadJSON` reads: no longer than the limit, and `decodes` into a `clientMessage`. -/
def Readable (decodes : Bytes → Bool) (text : Units) : Prop :=
  (encode text).length ≤ maxWSMessageSize ∧ decodes (encode text) = true

instance (decodes : Bytes → Bool) (text : Units) : Decidable (Readable decodes text) :=
  inferInstanceAs (Decidable (_ ∧ _))

/-- On its way to the server. A message does not carry its number; nothing reads it. -/
inductive Up where
  | hello (received : ℕ)
  | msg (number : ℕ) (text : Units)
deriving DecidableEq

/-- On its way to the client; only the last one is counted. -/
inductive Down where
  | handshake
  | network
  | session
  | resumed (ack : ℕ)
  | msg (b : Bytes)
deriving DecidableEq

inductive ReadyState where
  | connecting | opened | closed
deriving DecidableEq

/-- What the server does with a socket. -/
inductive Reading where
  /-- `StartClient` awaits the handshake. -/
  | start
  /-- `resumeClient` awaits the reply. -/
  | waiting
  /-- There is a `clientReader` of this generation. -/
  | running (gen : ℕ)
  | stopped
deriving DecidableEq

structure Socket where
  up : List Up := []
  down : List Down := []
  /-- Whether anything still gets through. -/
  upLive : Bool := true
  downLive : Bool := true
  readyState : ReadyState := .connecting
  reader : Reading := .start

/-- `send` of the client's socket. -/
def Socket.send (s : Socket) (frames : List Up) : Socket :=
  if s.readyState = .opened ∧ s.upLive = true then { s with up := s.up ++ frames } else s

/-- `WriteMessage` of the server's. -/
def Socket.write (s : Socket) (frames : List Down) : Socket :=
  if s.downLive then { s with down := s.down ++ frames } else s

/-- `Close` of the server's. What is in flight may still arrive. -/
def Socket.shut (s : Socket) : Socket := { s with upLive := false, downLive := false }

structure Client where
  current : ℕ := 0
  closed : Bool := false
  resuming : Bool := false
  /-- Whether the server has given one. -/
  resumeSecret : Bool := false
  sentLog : SentLog Units := {}
  received : ℕ := 0

inductive ReadOutcome where
  | message (text : Units)
  | failed (normal : Bool)
deriving DecidableEq

structure ReadResult where
  gen : ℕ
  outcome : ReadOutcome
deriving DecidableEq

structure ResumeAction where
  conn : ℕ
  received : ℕ
deriving DecidableEq

structure Server where
  ring : ReplayRing Bytes := {}
  /-- The writer's. -/
  conn : Option ℕ := some 0
  writeCh : List Down
  gen : ℕ := 0
  /-- The socket that this generation reads. Nothing reads it. -/
  attached : ℕ := 0
  read : List ReadResult := []
  received : ℕ := 0
  detached : Bool := false
  actions : List ResumeAction := []
  ended : Bool := false

structure World where
  client : Client := {}
  server : Server
  sockets : ℕ → Socket
  /-- The sockets up to here have been made. -/
  next : ℕ := 1
  /-- The counted messages given to `send`. -/
  sentMessages : List Units := []
  /-- Those that `clientLoop` has handled. -/
  handled : List Units := []
  /-- The counted messages given to the writer. -/
  queued : List Bytes := []
  /-- Those that the client has processed. -/
  processed : List Bytes := []
  /-- The messages that a reader has refused: the socket and the number. -/
  refused : List (ℕ × ℕ) := []

/-- Whether to resume. -/
def onClose (code : ℕ) (resumable leaving : Bool) : Bool :=
  if leaving || !resumable then false
  else if code = 1000 ∨ code = CLOSE_NO_RESUME then false
  else true

/-- The session is over for the client. -/
def Client.gone (c : Client) : Client :=
  { c with closed := true, resuming := false, resumeSecret := false }

namespace World

def set (w : World) (k : ℕ) (s : Socket) : World :=
  { w with sockets := Function.update w.sockets k s }

/-! ### The client -/

/-- `ServerConnection.send` of a counted message; throws where there is no result. -/
def send (w : World) (text : Units) : Option World :=
  let c := w.client
  let s := w.sockets c.current
  if c.closed = true ∨ s.readyState ≠ .opened ∧ c.resumeSecret = false then none
  else
    let w := { w with
      client := { c with sentLog := c.sentLog.push List.length text }
      sentMessages := w.sentMessages ++ [text] }
    if c.resuming = true ∨ s.readyState ≠ .opened then some w
    else some (w.set c.current (s.send [.msg w.client.sentLog.count text]))

/-- The new socket that `resume` makes, unless it gives up. -/
def resume (w : World) (giveUp : Bool) : World :=
  let c := w.client
  if c.closed then w
  else
    let old := { w.sockets c.current with readyState := .closed }
    if giveUp then { w.set c.current old with client := c.gone }
    else { w.set c.current old with
      client := { c with current := w.next, resuming := true }
      next := w.next + 1 }

def onopen (w : World) (k : ℕ) : Option World :=
  let c := w.client
  let s := w.sockets k
  if w.next ≤ k ∨ s.readyState ≠ .connecting then none
  else
    let s := { s with readyState := .opened }
    if c.closed = true ∨ k ≠ c.current ∨ c.resuming = false then some (w.set k s)
    else some (w.set k (s.send [.hello c.received]))

def onclose (w : World) (k code : ℕ) : Option World :=
  let c := w.client
  if w.next ≤ k then none
  else
    let w := w.set k { w.sockets k with readyState := .closed }
    if k ≠ c.current then some w
    else if c.resuming = true ∧ code ≠ CLOSE_NO_RESUME then some w
    else if c.resuming = false ∧ onClose code c.resumeSecret false = true then some (w.resume false)
    else some { w with client := c.gone }

def gotMessage (w : World) : Down → World
  | .handshake | .network => w
  | .session => { w with client := { w.client with resumeSecret := true } }
  | .resumed ack =>
      let c := w.client
      let s := w.sockets c.current
      if c.resuming = false then w
      else match c.sentLog.after ack with
        | none => { w.set c.current { s with readyState := .closed } with client := c.gone }
        | some rest =>
            let frames := (rest.zipIdx (ack + 1)).map fun (text, number) => Up.msg number text
            { w.set c.current (s.send frames) with client := { c with resuming := false } }
  | .msg b => { w with
      client := { w.client with received := w.client.received + 1 }
      processed := w.processed ++ [b] }

def onmessage (w : World) (k : ℕ) : Option World :=
  match (w.sockets k).down with
  | [] => none
  | frame :: rest =>
      let c := w.client
      let w := w.set k { w.sockets k with down := rest }
      if c.closed = true ∨ k ≠ c.current then some w else some (w.gotMessage frame)

/-! ### The server -/

/-- `StartClient` has the handshake, and `resumeClient` answers it: `written` says that
it could. -/
def serve (w : World) (k : ℕ) (network written : Bool) : Option World :=
  let s := w.sockets k
  match s.reader, s.up with
  | .start, .hello received :: rest =>
      let s := { s with up := rest }
      if w.server.ended = true ∨ 2 ^ 53 < received ∨ written = false then
        some (w.set k { s with reader := .stopped }.shut)
      else
        let s := s.write (.handshake :: if network then [.network] else [])
        some { w.set k { s with reader := .waiting } with
          server := { w.server with actions := w.server.actions ++ [⟨k, received⟩] } }
  | _, _ => none

/-- `clientReader` -/
def read (decodes : Bytes → Bool) (w : World) (k : ℕ) : Option World :=
  let s := w.sockets k
  match s.reader, s.up with
  | .running gen, .msg number text :: rest =>
      if Readable decodes text then
        some { w.set k { s with up := rest } with
          server := { w.server with read := w.server.read ++ [⟨gen, .message text⟩] } }
      else
        some { w.set k { s with up := rest, reader := .stopped } with
          server := { w.server with read := w.server.read ++ [⟨gen, .failed false⟩] }
          refused := w.refused ++ [(k, number)] }
  | _, _ => none

/-- The connection that a reader reads fails. -/
def fail (w : World) (k : ℕ) (normal : Bool) : Option World :=
  let s := w.sockets k
  match s.reader with
  | .running gen =>
      some { w.set k { s with reader := .stopped } with
        server := { w.server with read := w.server.read ++ [⟨gen, .failed normal⟩] } }
  | _ => none

/-- `clientLoop` takes what a reader has read. -/
def handle (w : World) : Option World :=
  if w.server.ended then none
  else match w.server.read with
    | [] => none
    | r :: rest =>
        let w := { w with server := { w.server with read := rest } }
        if r.gen ≠ w.server.gen then some w
        else match r.outcome with
          | .failed normal =>
              if normal then some { w with server := { w.server with ended := true } }
              else some { w with server := { w.server with detached := true } }
          | .message text => some { w with
              server := { w.server with received := w.server.received + 1 }
              handled := w.handled ++ [text] }

/-- `conn.Close()`, where there is one. -/
def shut (w : World) : Option ℕ → World
  | none => w
  | some k => w.set k (w.sockets k).shut

/-- `clientLoop` takes a request to resume, and the writer attaches its socket. -/
def attach (w : World) : Option World :=
  if w.server.ended then none
  else match w.server.actions with
    | [] => none
    | a :: actions =>
        match w.server.ring.after a.received with
        | none => some { w.set a.conn { (w.sockets a.conn).shut with reader := .stopped } with
            server := { w.server with actions, ended := true } }
        | some msgs =>
            let v := w.shut w.server.conn
            let s := (v.sockets a.conn).write (.resumed w.server.received :: msgs.map .msg)
            some { v.set a.conn { s with reader := .running (w.server.gen + 1) } with
              server := { w.server with
                actions
                conn := some a.conn
                gen := w.server.gen + 1
                attached := a.conn
                detached := false } }

/-- A counted message is given to the writer. -/
def queue (w : World) (b : Bytes) : Option World :=
  if w.server.ended then none
  else some { w with
    server := { w.server with writeCh := w.server.writeCh ++ [.msg b] }
    queued := w.queued ++ [b] }

/-- `clientWriter` takes a message; `written` says that its socket took it. -/
def write (w : World) (written : Bool) : Option World :=
  match w.server.writeCh with
  | [] => none
  | frame :: writeCh =>
      let ring := match frame with
        | .msg b => w.server.ring.push List.length b
        | _ => w.server.ring
      let w := { w with server := { w.server with writeCh, ring } }
      match w.server.conn with
      | none => some w
      | some k =>
          if written then some (w.set k ((w.sockets k).write [frame]))
          else some { w.shut (some k) with server := { w.server with conn := none } }

end World

inductive Label where
  | send (text : Units)
  | resume (giveUp : Bool)
  | onopen (k : ℕ)
  | onclose (k code : ℕ)
  | onmessage (k : ℕ)
  /-- The application leaves. -/
  | close
  | serve (k : ℕ) (network written : Bool)
  | read (k : ℕ)
  | fail (k : ℕ) (normal : Bool)
  | handle
  | attach
  | queue (b : Bytes)
  | write (written : Bool)
  /-- The session has been without signalling for too long, or the server ends it. -/
  | expire
  /-- What is in flight beyond the first `n` is lost, and nothing more gets through. -/
  | loseUp (k n : ℕ)
  | loseDown (k n : ℕ)
deriving DecidableEq

def step (decodes : Bytes → Bool) (w : World) : Label → Option World
  | .send text => w.send text
  | .resume giveUp => if w.client.resumeSecret then some (w.resume giveUp) else none
  | .onopen k => w.onopen k
  | .onclose k code => w.onclose k code
  | .onmessage k => w.onmessage k
  | .close => some { w with client := w.client.gone }
  | .serve k network written => w.serve k network written
  | .read k => w.read decodes k
  | .fail k normal => w.fail k normal
  | .handle => w.handle
  | .attach => w.attach
  | .queue b => w.queue b
  | .write written => w.write written
  | .expire => some { w with server := { w.server with ended := true } }
  | .loseUp k n =>
      some (w.set k { w.sockets k with up := (w.sockets k).up.take n, upLive := false })
  | .loseDown k n =>
      some (w.set k { w.sockets k with down := (w.sockets k).down.take n, downLive := false })

/-- The session begins on its first socket, whose reader and writer have started. -/
def begun (network : Bool) : World where
  server := { writeCh := .handshake :: .session :: if network then [.network] else [] }
  sockets k := if k = 0 then { readyState := .opened, reader := .running 0 } else {}

def session (decodes : Bytes → Bool) : System World Label where
  init w := ∃ network, w = begun network
  step := step decodes

end Definitions

end Sozvon.Resume
