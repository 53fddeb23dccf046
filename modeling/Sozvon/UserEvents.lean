import Sozvon.WebClients

/-!
# User events

Who is in a group is told to its members by `user` messages. A join is told from
within the group's lock (`add`), a departure from the loop of the client that
leaves, once the lock is free again (`delete`), new data from the loop of the
client (`change`), and new permissions from a goroutine of their own (`change`).
Each call is queued for its recipient, whose loop writes it if it comes from the
group the recipient is in; the browser folds what has been written into its
table of users.

The model keeps of a web client what these messages depend on. Between two calls
to different recipients, and wherever a handler lets go of the group's lock,
anything else may happen. Which group a join finds, what is answered to its
credentials and when the loop fails comes with the labels.
-/
namespace Sozvon.UserEvents
open Groups Runs
open WebClients (changePermissions setData IsCommand)

structure User where
  username : String
  permissions : Permissions
  data : Data
deriving DecidableEq, Repr

section Browser

/-- What the table of users reads of the messages from the server. -/
inductive Message where
  | joined (kind : String)
  | user (kind id : String) (user : User)
deriving DecidableEq, Repr

/-- The names that `in` finds in every object. -/
def objectPrototype : List String :=
  ["__proto__", "constructor", "hasOwnProperty", "isPrototypeOf", "propertyIsEnumerable",
    "toLocaleString", "toString", "valueOf", "__defineGetter__", "__defineSetter__",
    "__lookupGetter__", "__lookupSetter__"]

/-- `sc.users`: its own keys, and the names that its prototype has come to have
besides those of every object. -/
structure Users where
  own : String → Option User := fun _ => none
  inherited : List String := []

namespace Users

/-- The test `id in sc.users`. -/
def has (t : Users) (id : String) : Bool :=
  (t.own id).isSome || id ∈ objectPrototype || id ∈ t.inherited

/-- An assignment to `__proto__` does not make a key, but a new prototype. -/
def assign (t : Users) (id : String) (user : User) : Users :=
  if id = "__proto__" then
    { t with inherited := ["username", "permissions", "data", "streams"] ++ t.inherited }
  else { t with own := Function.update t.own id (some user) }

/-- Sets the fields of `sc.users[id]`, which may be an object of the prototype. -/
def amend (t : Users) (id : String) (user : User) : Users :=
  if (t.own id).isSome then { t with own := Function.update t.own id (some user) }
  else if id = "__proto__" then
    { t with inherited := ["username", "permissions", "data"] ++ t.inherited }
  else t

def delete (t : Users) (id : String) : Users := { t with own := Function.update t.own id none }

def clear (t : Users) : Users := { t with own := fun _ => none }

end Users

def gotMessage (t : Users) : Message → Users
  | .joined kind => if kind = "leave" ∨ kind = "fail" then t.clear else t
  | .user kind id user =>
      if kind = "add" then t.assign id user
      else if kind = "change" then if t.has id then t.amend id user else t.assign id user
      else if kind = "delete" then t.delete id
      else t

end Browser

inductive Action where
  | call (call : Call)
  | changePermissions (kind : String)
  | permissionsChanged
deriving DecidableEq, Repr

/-- The parts of `leaveGroup`; while it stands at `deletes`, the loop calls the
remaining members. -/
inductive LeaveStage where
  | member | deletes | lock | clear
deriving DecidableEq, Repr

inductive Pc where
  /-- Between two steps of the loop, with the rest of a batch to handle. -/
  | ready (batch : List Action)
  /-- In `AddClient`, which has looked up its group. -/
  | joining (group : ℕ) (token : String)
  /-- `AddClient` has returned its group. -/
  | joined (group : ℕ)
  /-- `setdata` has stored the data. -/
  | telling
  /-- A handler calls other clients, one after the other. -/
  | pushing
  | leaving (stage : LeaveStage) (ending : Bool)
  | ended
deriving DecidableEq, Repr

/-- A web client, with what has been written to its browser and not arrived yet,
and the browser's table. -/
structure Client where
  id : String
  group : Option ℕ := none
  username : String := ""
  permissions : Permissions := []
  data : Data := []
  actions : List Action := []
  pc : Pc := .ready []
  wire : List Message := []
  users : Users := {}

namespace Client

def write (c : Client) (m : Message) : Client := { c with wire := c.wire ++ [m] }

/-- The handler returns an error, and the loop ends. -/
def fail (c : Client) : Client := { c with pc := .leaving .member true }

def user (c : Client) : User := ⟨c.username, c.permissions, c.data⟩

end Client

/-- Calls made one after the other, by a loop that waits for their end or by a
goroutine of their own. -/
structure Push where
  owner : Option ℕ := none
  calls : List (ℕ × Action)
deriving DecidableEq, Repr

structure World where
  rooms : ℕ → Groups.Group ℕ
  clients : ℕ → Client
  pushes : List Push := []

def callsFor (n : ℕ) (calls : List (ℕ × Action)) : List Action :=
  (calls.filter (·.1 = n)).map (·.2)

def quiet (calls : List (ℕ × Call)) : List (ℕ × Action) := calls.map fun c => (c.1, .call c.2)

namespace World

def view (w : World) : View ℕ where
  id n := (w.clients n).id
  username n := (w.clients n).username
  permissions n := (w.clients n).permissions
  data n := (w.clients n).data

def enqueue (w : World) (calls : List (ℕ × Action)) : World :=
  { w with
    clients := fun n =>
      { w.clients n with actions := (w.clients n).actions ++ callsFor n calls } }

end World

/-- What a step does: to a client, to the groups, to the queues at once, and what
it starts to call. -/
structure Reply where
  rooms : ℕ → Groups.Group ℕ
  client : Client
  calls : List (ℕ × Action) := []
  pushes : List Push := []

namespace World

def commit (w : World) (n : ℕ) (r : Reply) : World :=
  enqueue
    { rooms := r.rooms
      clients := Function.update w.clients n r.client
      pushes := w.pushes ++ r.pushes } r.calls

def reply (w : World) (c : Client) : Reply := { rooms := w.rooms, client := c }

end World

section Handlers
variable (w : World) (n : ℕ) (c : Client)

/-- A `join`: refused to a banned address, or on its way into the group that
`Add` has found. -/
def join (banned : Bool) (found : Option ℕ) (token : String) (data : Data) : Client :=
  if c.group.isSome then c.fail
  else if banned then c.write (.joined "fail")
  else
    match found with
    | none => { c with data }.write (.joined "fail")
    | some g => { c with data, pc := .joining g token }

/-- `AddClient` from its lock on. -/
def lockGroup (g : ℕ) (token : String) (permission : Except Error (String × Permissions))
    (now : ℕ) : Reply :=
  let r := addClient w.view (w.rooms g) n token permission now
  let c :=
    { c with
      username := r.init.elim c.username (·.1), permissions := r.init.elim c.permissions (·.2) }
  let client :=
    match r.error with
    | none => { c with pc := .joined g }
    | some .knocking => { c with pc := .ready [] }.write (.joined "knock")
    | some _ => { c with pc := .ready [] }.write (.joined "fail")
  { rooms := Function.update w.rooms g r.group, client, calls := quiet r.calls }

/-- The rest of the join, once `AddClient` has accepted it. -/
def settle (g : ℕ) : Client :=
  if (w.rooms g).description.redirect ≠ "" then { c with pc := .ready [] }.write (.joined "redirect")
  else { c with group := some g, pc := .ready [] }

def leave (name : String) : Client :=
  match c.group with
  | none => c.fail
  | some g => if (w.rooms g).name ≠ name then c.fail else { c with pc := .leaving .member false }

/-- An operator has something queued for another client. -/
def issue (dest : String) (action : Action) : Reply :=
  match c.group with
  | none => w.reply c
  | some g =>
      if "op" ∉ c.permissions then w.reply c
      else
        match (w.rooms g).clients.lookup dest with
        | none => w.reply c
        | some t =>
            { w.reply { c with pc := .pushing } with
              pushes := [{ owner := some n, calls := [(t, action)] }] }

/-- A `useraction` of a kind that has no case of its own here. -/
def useraction (kind dest : String) : Reply :=
  if c.group.isSome ∧ ¬ IsCommand kind then w.reply c.fail
  else issue w n c dest (.changePermissions kind)

def kick (source : String) (username : Option String) (dest message : String) : Reply :=
  issue w n c dest (.call (.kick source username message))

/-- The first part of `setdata`; the changes without a value delete. -/
def setdata (changes : List (String × Option String)) (dest : String) : Client :=
  if c.group = none ∨ dest ≠ c.id then c
  else { c with data := setData c.data changes, pc := .telling }

/-- The calls by which a client tells its group what has changed about it. -/
def tell (room : Groups.Group ℕ) : List (ℕ × Action) :=
  room.members.map fun m =>
    (m, .call (.pushClient room.name "change" c.id c.username c.permissions c.data))

def handleAction (a : Action) : Reply :=
  match a with
  | .call (.pushClient group kind id username permissions data) =>
      match c.group with
      | none => w.reply c
      | some g =>
          if group ≠ (w.rooms g).name then w.reply c
          else w.reply (c.write (.user kind id ⟨username, permissions, data⟩))
  | .call (.joined _ kind) => w.reply (c.write (.joined kind))
  | .call (.kick ..) => w.reply c.fail
  | .changePermissions kind =>
      let recording := c.group.elim false fun g => (w.rooms g).description.allowRecording
      match changePermissions recording kind c.permissions with
      | none => w.reply c.fail
      | some permissions =>
          w.reply { c with permissions, actions := c.actions ++ [.permissionsChanged] }
  | .permissionsChanged =>
      match c.group with
      | none => w.reply c.fail
      | some g =>
          { w.reply (c.write (.joined "change")) with
            pushes := [{ calls := tell c (w.rooms g) }] }

def finish (ending : Bool) : Pc := if ending then .ended else .ready []

/-- The calls that `autoLockKick` makes from a goroutine. -/
def kicked (members : List ℕ) : List Push :=
  if members = [] then []
  else
    [{ calls := members.map fun m =>
        (m, .call (.kick "" none "there are no operators in this group")) }]

/-- Of the calls of `DelClient` the first one is for the client itself. It only
goes into the client's own queue, so it is made at once. -/
def leaveGroup (stage : LeaveStage) (ending : Bool) (now : ℕ) : Option Reply :=
  match stage with
  | .member =>
      match c.group with
      | none => some (w.reply { c with pc := finish ending })
      | some g =>
          match delClient w.view (w.rooms g) n now with
          | none => some (w.reply { c with pc := .leaving .clear ending })
          | some room =>
              let calls := quiet (delClientCalls w.view room n)
              some
                { rooms := Function.update w.rooms g room
                  client := { c with pc := .leaving .deletes ending }
                  calls := calls.take 1
                  pushes := [{ owner := some n, calls := calls.drop 1 }] }
  | .deletes => none
  | .lock =>
      c.group.map fun g =>
        let r := autoLockKick w.view (w.rooms g)
        { rooms := Function.update w.rooms g r.1
          client := { c with pc := .leaving .clear ending }
          calls := quiet r.2.1
          pushes := kicked r.2.2 }
  | .clear =>
      some (w.reply { c with permissions := [], data := [], group := none, pc := finish ending })

/-- A loop goes on after its calls. -/
def Client.resume (c : Client) : Client :=
  match c.pc with
  | .pushing => { c with pc := .ready [] }
  | .leaving .deletes ending => { c with pc := .leaving .lock ending }
  | _ => c

end Handlers

/-- What else changes a group, and calls its members. -/
inductive Section where
  | describe (description : Description)
  /-- `UpdateData`, or `Add` when it has read a new description. -/
  | notify
  | setLocked (locked : Bool) (message : String)
  | setLocked1on1 (on : Bool)
  | admitKnock (id : String)
  | deny (id : String)
  | removeKnock (id : String)
  | autoLockKick
  /-- `Shutdown`, which locks the group and kicks its members. -/
  | shutdown (message : String)
deriving DecidableEq, Repr

/-- The group after a section, the calls made in it, and the kicks that follow. -/
def Section.run (s : Section) (v : View ℕ) (room : Groups.Group ℕ) :
    Groups.Group ℕ × List (ℕ × Call) × List Push :=
  match s with
  | .describe description => ({ room with description }, [], [])
  | .notify => (room, room.members.map fun c => (c, .joined room.name "change"), [])
  | .setLocked locked message =>
      let r := Groups.setLocked room locked message
      (r.1, r.2, [])
  | .setLocked1on1 on =>
      let r := Groups.setLocked1on1 room on
      (r.1, r.2, [])
  | .admitKnock id =>
      match Groups.admitKnock v room id with
      | .error _ => (room, [], [])
      | .ok r => (r.1, r.2, [])
  | .deny id =>
      match Groups.deny v room id with
      | .error _ => (room, [], [])
      | .ok r => (r.1, r.2, [])
  | .removeKnock id =>
      let r := Groups.removeKnock v room id
      (r.1, r.2, [])
  | .autoLockKick =>
      let r := Groups.autoLockKick v room
      (r.1, r.2.1, kicked r.2.2)
  | .shutdown message =>
      let r := Groups.setLocked room true message
      (r.1, r.2,
        [{ calls := room.members.map fun m => (m, .call (.kick "" none message)) }])

inductive Label where
  | aside (g : ℕ) (s : Section)
  | join (n : ℕ) (banned : Bool) (found : Option ℕ) (token : String) (data : Data)
  | lock (n now : ℕ) (permission : Except Error (String × Permissions))
  | settle (n : ℕ)
  | leave (n : ℕ) (name : String)
  | leaveGroup (n now : ℕ)
  | useraction (n : ℕ) (kind dest : String)
  | kick (n : ℕ) (source : String) (username : Option String) (dest message : String)
  | setdata (n : ℕ) (changes : List (String × Option String)) (dest : String)
  | tell (n : ℕ)
  | push (i : ℕ)
  | take (n : ℕ)
  | act (n : ℕ)
  | fail (n : ℕ)
  | receive (n : ℕ)

namespace World

/-- A handler of a message, which the loop takes up between two batches. -/
def message (w : World) (n : ℕ) (r : Reply) : Option World :=
  if (w.clients n).pc = .ready [] then some (w.commit n r) else none

/-- The next call, or the end, of the calls at position `i`. -/
def push (w : World) (i : ℕ) : Option World :=
  w.pushes[i]?.map fun p =>
    match p.calls with
    | [] =>
        { w with
          pushes := w.pushes.eraseIdx i
          clients := p.owner.elim w.clients fun n =>
            Function.update w.clients n (w.clients n).resume }
    | call :: rest => enqueue { w with pushes := w.pushes.set i { p with calls := rest } } [call]

end World

def step (w : World) (a : Label) : Option World :=
  match a with
  | .aside g s =>
      let r := s.run w.view (w.rooms g)
      some <| World.enqueue
        { w with rooms := Function.update w.rooms g r.1, pushes := w.pushes ++ r.2.2 } (quiet r.2.1)
  | .join n banned found token data =>
      w.message n (w.reply (join (w.clients n) banned found token data))
  | .lock n now permission =>
      match (w.clients n).pc with
      | .joining g token => some (w.commit n (lockGroup w n (w.clients n) g token permission now))
      | _ => none
  | .settle n =>
      match (w.clients n).pc with
      | .joined g => some (w.commit n (w.reply (settle w (w.clients n) g)))
      | _ => none
  | .leave n name => w.message n (w.reply (leave w (w.clients n) name))
  | .leaveGroup n now =>
      match (w.clients n).pc with
      | .leaving stage ending =>
          (leaveGroup w n (w.clients n) stage ending now).map (w.commit n)
      | _ => none
  | .useraction n kind dest => w.message n (useraction w n (w.clients n) kind dest)
  | .kick n source username dest message =>
      w.message n (kick w n (w.clients n) source username dest message)
  | .setdata n changes dest => w.message n (w.reply (setdata (w.clients n) changes dest))
  | .tell n =>
      let c := w.clients n
      if c.pc = .telling then
        c.group.map fun g =>
          w.commit n
            { w.reply { c with pc := .pushing } with
              pushes := [{ owner := some n, calls := tell c (w.rooms g) }] }
      else none
  | .push i => w.push i
  | .take n =>
      let c := w.clients n
      if c.actions = [] then none
      else w.message n (w.reply { c with pc := .ready c.actions, actions := [] })
  | .act n =>
      let c := w.clients n
      match c.pc with
      | .ready (a :: rest) => some (w.commit n (handleAction w { c with pc := .ready rest } a))
      | _ => none
  | .fail n =>
      match (w.clients n).pc with
      | .ready _ => some (w.commit n (w.reply (w.clients n).fail))
      | _ => none
  | .receive n =>
      let c := w.clients n
      match c.wire with
      | [] => none
      | m :: rest =>
          some (w.commit n (w.reply { c with wire := rest, users := gotMessage c.users m }))

/-- Groups without members, clients that have joined nothing, and no calls. -/
def Initial (w : World) : Prop :=
  (∀ g, w.rooms g = { name := (w.rooms g).name, description := (w.rooms g).description }) ∧
    (∀ n, w.clients n = { id := (w.clients n).id }) ∧ w.pushes = []

def system : System World Label := { init := Initial, step }

/-- All that was queued for the members of a group has been handled, and has
arrived in their browsers. -/
def Settled (w : World) (g : ℕ) : Prop :=
  w.pushes = [] ∧ ∀ n ∈ (w.rooms g).members,
    (w.clients n).pc = .ready [] ∧ (w.clients n).actions = [] ∧ (w.clients n).wire = []

/-- What a member's table should hold under an id. -/
def World.member (w : World) (g : ℕ) (id : String) : Option User :=
  ((w.rooms g).clients.lookup id).map fun n => (w.clients n).user

/-- Each member's table holds the members, as they are, and nobody else. -/
def Converged (w : World) (g : ℕ) : Prop :=
  ∀ n ∈ (w.rooms g).members, ∀ id, (w.clients n).users.own id = w.member g id

section Order

/-- The action tells about a user of the group. -/
def Action.tells (group : String) : Action → Bool
  | .call (.pushClient group' ..) => group' = group
  | _ => false

/-- The action tells about user `id` of the group. -/
def Action.about (group id : String) : Action → Bool
  | .call (.pushClient group' _ id' ..) => group' = group ∧ id' = id
  | _ => false

/-- The action makes the browser clear its table. -/
def Action.clears : Action → Bool
  | .call (.joined _ kind) => kind = "leave"
  | _ => false

namespace World

/-- A call that tells about user `id` of the group is still on its way. -/
def onTheWay (w : World) (group id : String) : Bool :=
  w.pushes.any fun p => p.calls.any fun q => q.2.about group id

/-- What tells client `n` about the group is on its way, or queued behind the
last departure of the client. -/
def stale (w : World) (n : ℕ) (group : String) : Bool :=
  (w.pushes.any fun p => p.calls.any fun q => q.1 = n && q.2.tells group) ||
    ((w.clients n).actions.reverse.takeWhile fun a => !a.clears).any fun a => a.tells group

/-- Nothing is on its way about client `n`, in the group it is in. -/
def free (w : World) (n : ℕ) : Bool :=
  (w.clients n).group.all fun g => !w.onTheWay (w.rooms g).name (w.clients n).id

/-- Client `n` starts to tell its group about itself, or is let into a group, only
when nothing older is under way that might be taken for newer. Groups that
redirect, and an id that cannot be a key of the table, stay out. -/
def orderly (w : World) : Label → Bool
  | .tell n => w.free n
  | .act n =>
      match (w.clients n).pc with
      | .ready (.permissionsChanged :: _) => w.free n
      | _ => true
  | .leaveGroup n _ =>
      match (w.clients n).pc with
      | .leaving .member _ => w.free n
      | _ => true
  | .lock n now permission =>
      match (w.clients n).pc with
      | .joining g token =>
          let id := (w.clients n).id
          let name := (w.rooms g).name
          (addClient w.view (w.rooms g) n token permission now).error ≠ none ||
            (id ≠ "__proto__" && !w.onTheWay name id && !w.stale n name)
      | _ => true
  | .settle n =>
      match (w.clients n).pc with
      | .joined g => (w.rooms g).description.redirect = ""
      | _ => true
  | _ => true

end World

def Orderly (w : World) (a : Label) : Prop := w.orderly a

instance (w : World) (a : Label) : Decidable (Orderly w a) :=
  inferInstanceAs (Decidable (w.orderly a = true))

end Order

end Sozvon.UserEvents
