import Sozvon.Groups
import Sozvon.Runs

/-!
# Chat in one group

A sender adds its message to the history, takes the list of members and writes
to each of them, with a lock for each of the first two only; a joiner becomes a
member, is told so by an action in its queue, and reads the history when it
handles that. Each of these is a step of its own here, so that a schedule can
put anything in between. A message that fails the checks on its source and user
name ends the loop of its client, like a kick: that is `fail`.
-/
namespace Sozvon.Chat
open Groups Runs

/-- `serial` is not in the source: it is the number of the message, and tells
apart messages that look the same. -/
structure ChatHistoryEntry where
  id : String
  source : String
  user : Option String
  time : ℤ
  kind : String
  value : String
  serial : ℕ
deriving DecidableEq, Repr

def maxChatHistory : ℕ := 50

def addToChatHistory (history : List ChatHistoryEntry) (e : ChatHistoryEntry) : List ChatHistoryEntry :=
  (if history.length ≥ maxChatHistory then history.tail else history) ++ [e]

def clearChatHistory (history : List ChatHistoryEntry) (id userId : String) : List ChatHistoryEntry :=
  if id = "" ∧ userId = "" then []
  else history.filter fun e => ¬ (e.source = userId ∧ (id = "" ∨ e.id = id))

def discardObsoleteHistory (h : List ChatHistoryEntry) (duration now : ℤ) : List ChatHistoryEntry :=
  h.dropWhile fun e => duration < now - e.time

/-- The `clientMessage` of a chat message, as it comes in. -/
structure ClientMessage where
  id : String := ""
  source : String := ""
  username : Option String := none
  dest : String := ""
  kind : String := ""
  noEcho : Bool := false
  value : String := ""
deriving DecidableEq, Repr

/-- And as it goes out, with the number that its history entry has. -/
structure ChatMessage extends ClientMessage where
  privileged : Bool
  time : ℤ
  serial : Option ℕ
deriving DecidableEq, Repr

inductive JoinedKind where
  | join | leave | change
deriving DecidableEq, Repr

/-- What is written to a client's queue. -/
inductive Written where
  | joined (kind : JoinedKind) (permissions : Permissions)
  | chathistory (e : ChatHistoryEntry)
  | chat (m : ChatMessage)
  | error (e : Error)
deriving DecidableEq, Repr

/-- Where the loop of a client stands; a batch is what is left to do of the
queued actions, of which only the `joinedAction`s are looked at. -/
inductive Pc where
  | ready (batch : List JoinedKind)
  /-- The client has been told that it has joined. -/
  | greeted (batch : List JoinedKind)
  /-- It has read the history, and has the rest of it to write out. -/
  | reading (history : List ChatHistoryEntry) (batch : List JoinedKind)
  /-- Its message is in the history. -/
  | added (m : ChatMessage)
  /-- It has the members to whom the message goes. -/
  | broadcasting (m : ChatMessage) (cs : List ℕ)
  | ended
deriving DecidableEq, Repr

structure Client where
  id : String
  permissions : Permissions := []
  actions : List JoinedKind := []
  pc : Pc := .ready []
  writerDone : Bool := false
  /-- What has been written to the queue since the client last became a member. -/
  written : List Written := []
  /-- How many messages there were then. -/
  since : ℕ := 0

/-- A message that has been sent without a destination. -/
structure Send where
  sender : ℕ
  noEcho : Bool
deriving DecidableEq, Repr

structure Room where
  members : List ℕ := []
  history : List ChatHistoryEntry := []
  maxHistoryAge : ℤ := 4 * 3600
  clients : ℕ → Client
  /-- All of them, in order. -/
  sends : List Send := []

inductive Label where
  /-- `AddClient` lets the client in. -/
  | join (n : ℕ) (permissions : Permissions)
  | leave (n : ℕ)
  /-- The loop ends with an error. -/
  | fail (n : ℕ)
  /-- The group announces a change to the client. -/
  | change (n : ℕ)
  | take (n : ℕ)
  /-- The next action of the batch. -/
  | act (n : ℕ)
  | readHistory (n : ℕ) (now : ℤ)
  | writeHistory (n : ℕ)
  /-- A chat message; `fresh` is the identifier drawn if it has none. -/
  | chat (n : ℕ) (m : ClientMessage) (fresh : String) (now : ℤ)
  /-- `GetClients`, in the order in which the map happens to be read. -/
  | getClients (n : ℕ) (cs : List ℕ)
  | write (n : ℕ)
  | clearchat (n : ℕ) (id userId : String)
  /-- The client's writer has stopped. -/
  | stopWriter (n : ℕ)

def Client.write (c : Client) (x : Written) : Client :=
  if c.writerDone then c else { c with written := c.written ++ [x] }

namespace Room

variable (r : Room)

def set (n : ℕ) (c : Client) : Room := { r with clients := Function.update r.clients n c }

def error (n : ℕ) (text : String) : Room := r.set n ((r.clients n).write (.error (.user text)))

/-- The client is a member and may chat. -/
def MayChat (n : ℕ) (kind : String) : Prop :=
  n ∈ r.members ∧ (if kind = "caption" then "caption" else "message") ∈ (r.clients n).permissions

instance (n : ℕ) (kind : String) : Decidable (r.MayChat n kind) :=
  inferInstanceAs (Decidable (_ ∧ _))

/-- `handleClientMessage` for a chat message, up to `AddToChatHistory`. -/
def chat (n : ℕ) (m : ClientMessage) (fresh : String) (now : ℤ) : Room :=
  let c := r.clients n
  if n ∉ r.members then r.error n "join a group first"
  else if ¬ r.MayChat n m.kind then r.error n "not authorised"
  else
    let mm : ChatMessage := { m with privileged := "op" ∈ c.permissions, time := now, serial := none }
    if m.dest = "" then
      let id := if m.id = "" then fresh else m.id
      let serial := r.sends.length
      { r.set n { c with pc := .added { mm with id, serial := some serial } } with
        history := addToChatHistory r.history
          { id, source := m.source, user := m.username, time := now, kind := m.kind, value := m.value
            serial }
        sends := r.sends ++ [⟨n, m.noEcho⟩] }
    else
      match r.members.find? fun d => (r.clients d).id = m.dest with
      | none => r.error n "user unknown"
      | some d => r.set d ((r.clients d).write (.chat mm))

/-- `handleAction` for a `joinedAction`, up to `GetChatHistory`. -/
def act (n : ℕ) (kind : JoinedKind) (batch : List JoinedKind) : Room :=
  let c := (r.clients n).write (.joined kind (r.clients n).permissions)
  r.set n { c with pc := if kind = .join then .greeted batch else .ready batch }

def readHistory (n : ℕ) (batch : List JoinedKind) (now : ℤ) : Room :=
  let history := discardObsoleteHistory r.history r.maxHistoryAge now
  { r.set n { r.clients n with pc := .reading history batch } with history }

def getClients (n : ℕ) (noEcho : Bool) : List ℕ := r.members.filter fun d => ¬ (noEcho ∧ d = n)

def clearchat (n : ℕ) (id userId : String) : Room :=
  if n ∉ r.members then r.error n "join a group first"
  else if "op" ∉ (r.clients n).permissions then r.error n "not authorised"
  else { r with history := clearChatHistory r.history id userId }

def step : Label → Option Room
  | .join n permissions =>
      let c := r.clients n
      if c.pc = .ready [] ∧ c.id ≠ "" ∧ c.id ∉ r.members.map fun d => (r.clients d).id then
        some { r.set n { c with
          permissions, actions := c.actions ++ [.join], written := [], since := r.sends.length } with
            members := n :: r.members }
      else none
  | .leave n =>
      let c := r.clients n
      if c.pc = .ready [] ∧ n ∈ r.members then
        some { r.set n { c with permissions := [], actions := c.actions ++ [.leave] } with
          members := r.members.erase n }
      else none
  | .fail n =>
      let left : Room := { r.set n { r.clients n with pc := .ended } with members := r.members.erase n }
      match (r.clients n).pc with
      | .ready _ => some left
      | .greeted _ | .reading .. => if (r.clients n).writerDone then some left else none
      | .added _ | .broadcasting .. | .ended => none
  | .change n =>
      let c := r.clients n
      if n ∈ r.members then some (r.set n { c with actions := c.actions ++ [.change] }) else none
  | .take n =>
      let c := r.clients n
      if c.pc = .ready [] then some (r.set n { c with pc := .ready c.actions, actions := [] }) else none
  | .act n =>
      match (r.clients n).pc with
      | .ready (kind :: batch) => if (r.clients n).writerDone then none else some (r.act n kind batch)
      | _ => none
  | .readHistory n now =>
      match (r.clients n).pc with
      | .greeted batch => some (r.readHistory n batch now)
      | _ => none
  | .writeHistory n =>
      let c := r.clients n
      match c.pc with
      | .reading [] batch => some (r.set n { c with pc := .ready batch })
      | .reading (e :: h) batch =>
          if c.writerDone then none
          else some (r.set n { c.write (.chathistory e) with pc := .reading h batch })
      | _ => none
  | .chat n m fresh now => if (r.clients n).pc = .ready [] then some (r.chat n m fresh now) else none
  | .getClients n cs =>
      match (r.clients n).pc with
      | .added m =>
          if cs.Perm (r.getClients n m.noEcho) then
            some (r.set n { r.clients n with pc := .broadcasting m cs })
          else none
      | _ => none
  | .write n =>
      match (r.clients n).pc with
      | .broadcasting _ [] => some (r.set n { r.clients n with pc := .ready [] })
      | .broadcasting m (d :: cs) =>
          let s := r.set d ((r.clients d).write (.chat m))
          some (s.set n { s.clients n with pc := .broadcasting m cs })
      | _ => none
  | .clearchat n id userId =>
      if (r.clients n).pc = .ready [] then some (r.clearchat n id userId) else none
  | .stopWriter n => some (r.set n { r.clients n with writerDone := true })

end Room

/-- A group without members, whose history is empty. -/
def room : System Room Label where
  init r := r.members = [] ∧ r.history = [] ∧ r.sends = [] ∧
    ∀ n, r.clients n = { id := (r.clients n).id }
  step := Room.step

end Sozvon.Chat
