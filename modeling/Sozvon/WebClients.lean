import Sozvon.GroupTable

/-!
# Web clients

A web client is one goroutine, `clientLoop`, which takes either a message off
its socket or the batch of actions that others have queued for it, and handles
them one by one. `handleClientMessage` and `handleAction` are translated
below. A join, a `useraction` that reaches into another client and `leaveGroup`
take several locks one after the other, so each of these is cut into steps and
the client's `Pc` says where it stands; all other handlers are one step.

What is read off the network, the clock and the disk, and whether WebRTC does
what it is asked to, comes with the labels.

A command (`op` and the like, or a kick by an operator) is queued together with
the `Stay` it was issued for: the group of the operator and the target's stay
there. Nothing below reads it; it is there to say what a command may act on.
-/
namespace Sozvon.WebClients
open Groups GroupTable Runs

inductive Member where
  | web (n : ℕ)
  | other (o : ℕ)
deriving DecidableEq, Repr

/-- One membership of a client: the group, and how many joins it took. -/
structure Stay where
  group : ℕ
  number : ℕ
deriving DecidableEq, Repr

inductive Action where
  | pushConn (group : Option ℕ) (id : String) (conn : Option Member) (replace : String)
  | requestConns (group : Option ℕ) (target : Member) (id : String)
  | connectionFailed (id : String)
  | call (call : Call)
  | changePermissions (kind : String)
  | permissionsChanged
deriving DecidableEq, Repr

structure Queued where
  action : Action
  issued : Option Stay := none
deriving DecidableEq, Repr

/-- The parts of `leaveGroup`. -/
inductive LeaveStage where
  | knock | conns | member | lock | clear
deriving DecidableEq, Repr

inductive Pc where
  /-- Between two steps of the loop, with the rest of a batch to handle. -/
  | ready (batch : List Queued)
  /-- In `AddClient`, which has looked up its group. -/
  | joining (group : ℕ) (name token : String)
  /-- `AddClient` has returned its group. -/
  | joined (group : ℕ)
  /-- `AddClient` has put the client into the waiting room. -/
  | knocked (name : String)
  /-- The handler is about to queue a command for its target. -/
  | acting
  | leaving (stage : LeaveStage) (ending : Bool)
  | ended
deriving DecidableEq, Repr

structure WebClient where
  id : String
  group : Option ℕ := none
  knocking : Option ℕ := none
  username : String := ""
  permissions : Permissions := []
  data : Data := []
  up : List String := []
  down : List (String × Member) := []
  actions : List Queued := []
  pc : Pc := .ready []
  /-- The connections with an `OnTrack` callback that has not pushed them yet. -/
  callbacks : List String := []
  /-- The number of joins so far. -/
  stay : ℕ := 0
  /-- What the latest join granted. -/
  granted : Permissions := []
  /-- The commands of the current stay obeyed so far, with `AllowRecording`. -/
  commands : List (String × Bool) := []
  /-- The kicks by operators that ended a stay: the stay they were issued for,
  and the one they ended. -/
  evictions : List (Stay × Stay) := []

/-- A client that is not a web client: its group calls it, but it queues no actions. -/
structure Other where
  id : String
  username : String := ""
  permissions : Permissions := []
  data : Data := []

/-- A call on its way to a client's queue, by a goroutine of its own or by the
loop of a client that waits for it. -/
structure Pending where
  caller : Option ℕ := none
  target : ℕ
  queued : Queued

structure World where
  registry : Registry Member := {}
  clients : ℕ → WebClient
  others : ℕ → Other
  pending : List Pending := []
  panicked : Bool := false

namespace World

def view (w : World) : View Member where
  id | .web n => (w.clients n).id
     | .other o => (w.others o).id
  username | .web n => (w.clients n).username
           | .other o => (w.others o).username
  permissions | .web n => (w.clients n).permissions
              | .other o => (w.others o).permissions
  data | .web n => (w.clients n).data
       | .other o => (w.others o).data

def room (w : World) (g : ℕ) : Groups.Group Member := w.registry.heap g

def getClients (w : World) (g : ℕ) (except : Member) : List Member :=
  (w.room g).members.filter (· ≠ except)

end World

/-- Those of the calls that are for client `n`. -/
def callsFor (n : ℕ) (calls : List (Member × Queued)) : List Queued :=
  (calls.filter (·.1 = .web n)).map (·.2)

def quiet (calls : List (Member × Call)) : List (Member × Queued) :=
  calls.map fun c => (c.1, { action := .call c.2 })

def pendingOf (calls : List (Member × Queued)) : List Pending :=
  calls.filterMap fun
    | (.web n, queued) => some { target := n, queued }
    | (.other _, _) => none

def kickOf (message : String) : Queued := { action := .call (.kick "" none message) }

/-- The members that `autoLockKick` has kicked, from a goroutine. -/
def kicked (members : List Member) : List Pending :=
  pendingOf (members.map fun c => (c, kickOf "there are no operators in this group"))

/-- What a step of a client's loop does: to the groups, to the client, to other
clients' queues, now and later. -/
structure Reply where
  registry : Registry Member
  client : WebClient
  calls : List (Member × Queued) := []
  pending : List Pending := []
  panic : Bool := false

namespace World

def enqueue (w : World) (calls : List (Member × Queued)) : World :=
  { w with
    clients := fun n =>
      { w.clients n with actions := (w.clients n).actions ++ callsFor n calls } }

def commit (w : World) (n : ℕ) (r : Reply) : World :=
  enqueue
    { w with
      registry := r.registry
      clients := Function.update w.clients n r.client
      pending := w.pending ++ r.pending
      panicked := w.panicked || r.panic } r.calls

def reply (w : World) (c : WebClient) : Reply := { registry := w.registry, client := c }

/-- The handler returns an error, and the loop ends. -/
def fail (w : World) (c : WebClient) : Reply := w.reply { c with pc := .leaving .knock true }

end World

/-- What `changePermissionsAction` makes of a client's permissions. -/
def changePermissions (recording : Bool) (kind : String) (perms : Permissions) :
    Option Permissions :=
  let addnew := fun (p : String) (l : Permissions) => if p ∈ l then l else l ++ [p]
  match kind with
  | "op" => some (let perms := addnew "op" perms; if recording then addnew "record" perms else perms)
  | "unop" => some ((perms.erase "op").erase "record")
  | "present" => some (addnew "present" perms)
  | "unpresent" => some (perms.erase "present")
  | "shutup" => some (perms.erase "message")
  | "unshutup" => some (addnew "message" perms)
  | _ => none

/-- The permissions a client holds if it obeys only the commands of its stay. -/
def WebClient.due (c : WebClient) : Permissions :=
  c.commands.foldl (fun perms k => (changePermissions k.2 k.1 perms).getD perms) c.granted

/-- What a label says of the outside world. -/
structure Env where
  now : ℕ := 0
  file : File := { stat := none, read := .error .notExist }
  banned : Bool := false
  /-- The session description parses. -/
  sdp : Bool := true
  /-- What is asked of WebRTC, or of the parser of a request, is done. -/
  done : Bool := true

section Connections

def close (g : ℕ) (id : String) : Queued := { action := .pushConn (some g) id none "" }

/-- The pushes of an up connection of client `n` to the rest of its group. -/
def pushConn (w : World) (n g : ℕ) (id replace : String) : List (Member × Queued) :=
  (w.getClients g (.web n)).map fun m =>
    (m, { action := .pushConn (some g) id (some (.web n)) replace })

/-- The client without an up connection, and the closes it pushes. -/
def delUpConn (w : World) (n : ℕ) (c : WebClient) (id : String) :
    WebClient × List (Member × Queued) :=
  if id ∈ c.up then
    ({ c with up := c.up.erase id },
      c.group.elim [] fun g => (w.getClients g (.web n)).map fun m => (m, close g id))
  else (c, [])

def requestConns (w : World) (n g : ℕ) : List (Member × Queued) :=
  (w.getClients g (.web n)).map fun m => (m, { action := .requestConns (some g) (.web n) "" })

/-- The up connections that stay when `replace` is replaced. -/
def keptUp (replace : String) (up : List String) : List String :=
  if replace = "" then up else up.erase replace

/-- `gotOffer`, with `addUpConn` and `newUpConn`. A new connection asks the
client's group for its API and its members. -/
def gotOffer (w : World) (n : ℕ) (c : WebClient) (id replace : String) (env : Env) : Reply :=
  if (c.down.lookup id).isSome then w.reply c
  else if id ∈ c.up then w.reply { c with up := keptUp replace c.up }
  else if ¬ env.sdp then w.reply c
  else
    match c.group with
    | none => { w.reply c with panic := true }
    | some g =>
        if ¬ env.done then w.reply c
        else
          { w.reply { c with up := keptUp replace (id :: c.up) } with
            pending := pendingOf (pushConn w n g id replace) }

def offer (w : World) (n : ℕ) (c : WebClient) (id replace : String) (env : Env) : Reply :=
  if id = "" then w.fail c
  else if "present" ∉ c.permissions then
    if replace = "" then w.reply c
    else { w.reply (delUpConn w n c replace).1 with calls := (delUpConn w n c replace).2 }
  else gotOffer w n c id replace env

end Connections

inductive GroupAction where
  | lock (on : Bool) (message : String)
  | setgroup (locked1on1 : Option Bool)
  | setdata
  /-- `clearchat`, `record`, `unrecord`, `subgroups`, `subgroupstatus` and those
  on tokens. The recorder is one of the other clients, and joins by itself. -/
  | known (kind : String)
  | unknown
deriving DecidableEq, Repr

inductive UserAction where
  /-- Any kind that is none of the others. -/
  | change (kind : String)
  | identify
  | kick (message : String)
  | admitKnock
  | deny
  | setdata (data : List (String × Option String))
deriving DecidableEq, Repr

inductive Body where
  | join (group token : String) (data : Data)
  | leave (group : String)
  | unknownJoin
  | request
  | requestStream (id : String)
  | offer (id replace : String)
  | answer (id : String)
  | renegotiate (id : String)
  | close (id : String)
  | abort (id : String)
  | ice (id : String) (candidate : Bool)
  | chat (dest : String)
  | groupaction (action : GroupAction)
  | useraction (action : UserAction) (dest : String)
  | ping
  | pong
  | quality
  | unexpected
deriving DecidableEq, Repr

structure ClientMessage where
  source : String := ""
  username : Option String := none
  body : Body
deriving DecidableEq, Repr

def Body.isJoin : Body → Bool
  | .join .. | .leave _ | .unknownJoin => true
  | _ => false

def IsCommand (kind : String) : Prop :=
  kind ∈ ["op", "unop", "present", "unpresent", "shutup", "unshutup"]

instance (kind : String) : Decidable (IsCommand kind) :=
  inferInstanceAs (Decidable (kind ∈ _))

section Messages
variable (w : World) (n : ℕ) (c : WebClient)

def join (name token : String) (data : Data) (env : Env) : Reply :=
  if c.group.isSome then w.fail c
  else if env.banned then w.reply c
  else
    let looked := add w.view w.registry env.file env.now name none
    let calls := quiet looked.calls
    let pending := kicked looked.kicks
    match looked.group with
    | .error _ =>
        { registry := looked.registry, client := { c with data }, calls, pending }
    | .ok g =>
        { registry := looked.registry
          client := { c with data, pc := .joining g name token }, calls, pending }

/-- Answer "join a group first" outside a group. -/
def inGroup (handler : ℕ → Reply) : Reply := c.group.elim (w.reply c) handler

def groupaction (action : GroupAction) (g : ℕ) : Reply :=
  match action with
  | .lock on message =>
      if "op" ∉ c.permissions then w.reply c
      else
        let r := setLocked (w.room g) on message
        { registry := w.registry.set g r.1, client := c, calls := quiet r.2 }
  | .setgroup none => w.reply c
  | .setgroup (some on) =>
      if "op" ∉ c.permissions then w.reply c
      else
        let r := setLocked1on1 (w.room g) on
        { registry := w.registry.set g r.1, client := c, calls := quiet r.2 }
  | .setdata =>
      if "op" ∉ c.permissions then w.reply c
      else
        { w.reply c with
          calls := quiet ((w.room g).members.map fun m => (m, .joined (w.room g).name "change")) }
  | .known _ => w.reply c
  | .unknown => w.fail c

/-- The handler has found its target in the group, and holds a command for it. -/
def issue (g : ℕ) (target : Member) (action : Action) : Reply :=
  match target with
  | .other _ => w.reply c
  | .web k =>
      { w.reply { c with pc := .acting } with
        pending := [{ caller := some n, target := k
                      queued := { action, issued := some ⟨g, (w.clients k).stay⟩ } }] }

def answerKnock (g : ℕ) (r : Except Error (Groups.Group Member × List (Member × Call))) : Reply :=
  match r with
  | .error _ => w.reply c
  | .ok r => { registry := w.registry.set g r.1, client := c, calls := quiet r.2 }

/-- A change without a value deletes. -/
def setData (data : Data) (changes : List (String × Option String)) : Data :=
  changes.foldl (fun d k => k.2.toList.map (k.1, ·) ++ d.filter (·.1 ≠ k.1)) data

def useraction (m : ClientMessage) (action : UserAction) (dest : String) (g : ℕ) : Reply :=
  let room := w.room g
  match action with
  | .change kind =>
      if ¬ IsCommand kind then w.fail c
      else if "op" ∉ c.permissions then w.reply c
      else (room.clients.lookup dest).elim (w.reply c) fun t =>
        issue w n c g t (.changePermissions kind)
  | .identify => w.reply c
  | .kick message =>
      if "op" ∉ c.permissions then w.reply c
      else (room.clients.lookup dest).elim (w.reply c) fun t =>
        issue w n c g t (.call (.kick m.source m.username message))
  | .admitKnock =>
      if "op" ∉ c.permissions then w.reply c else answerKnock w c g (admitKnock w.view room dest)
  | .deny =>
      if "op" ∉ c.permissions then w.reply c else answerKnock w c g (deny w.view room dest)
  | .setdata changes =>
      if dest ≠ c.id then w.reply c
      else
        let data := setData c.data changes
        { w.reply { c with data } with
          calls := quiet (room.members.map fun m =>
            (m, .pushClient room.name "change" c.id c.username c.permissions data)) }

def handleClientMessage (m : ClientMessage) (env : Env) : Reply :=
  if m.source ≠ "" ∧ m.source ≠ c.id then w.fail c
  else if ¬ m.body.isJoin ∧ m.username.any (· ≠ c.username) then w.fail c
  else
    match m.body with
    | .join name token data => join w c name token data env
    | .leave name =>
        match c.group with
        | none => w.fail c
        | some g =>
            if (w.room g).name ≠ name then w.fail c
            else w.reply { c with pc := .leaving .knock false }
    | .unknownJoin => w.fail c
    | .request =>
        if ¬ env.done then w.fail c
        else
          match c.group with
          | none => w.fail c
          | some g => { w.reply c with calls := requestConns w n g }
    | .requestStream id =>
        match c.down.lookup id with
        | none => w.reply c
        | some owner =>
            if ¬ env.done then w.fail c
            else
              { w.reply c with
                calls := [(owner, { action := .requestConns c.group (.web n) id })] }
    | .offer id replace => offer w n c id replace env
    | .answer id =>
        if id = "" then w.fail c
        else if env.done then w.reply c
        else w.reply { c with down := c.down.filter (·.1 ≠ id) }
    | .renegotiate id =>
        if id = "" then w.fail c
        else if env.done then w.reply c
        else w.reply { c with down := c.down.filter (·.1 ≠ id) }
    | .close id =>
        if id = "" then w.fail c
        else { w.reply (delUpConn w n c id).1 with calls := (delUpConn w n c id).2 }
    | .abort id =>
        if id = "" then w.fail c else w.reply { c with down := c.down.filter (·.1 ≠ id) }
    | .ice id candidate => if id = "" ∨ ¬ candidate then w.fail c else w.reply c
    | .chat _ => inGroup w c fun _ => w.reply c
    | .groupaction action => inGroup w c (groupaction w c action)
    | .useraction action dest => inGroup w c (useraction w n c m action dest)
    | .ping | .pong | .quality => w.reply c
    | .unexpected => w.fail c

end Messages

section Actions
variable (w : World) (n : ℕ) (c : WebClient)

/-- The closes of all up connections. -/
def closeAll : List (Member × Queued) :=
  c.group.elim [] fun g =>
    c.up.flatMap fun id => (w.getClients g (.web n)).map fun m => (m, close g id)

def pushDownConn (id : String) (conn : Option Member) (replace : String) (env : Env) : Reply :=
  let down := c.down.filter (·.1 ≠ replace)
  match conn with
  | none => w.reply { c with down := down.filter (·.1 ≠ id) }
  | some owner =>
      if ¬ env.done then w.reply { c with down := down.filter (·.1 ≠ id) }
      else if id ∈ c.up then w.fail { c with down }
      else w.reply { c with down := (id, owner) :: down.filter (·.1 ≠ id) }

def handleAction (q : Queued) (env : Env) : Reply :=
  let own := c.group.map fun g => (⟨g, c.stay⟩ : Stay)
  match q.action with
  | .pushConn group id conn replace =>
      if c.group = none ∨ c.group ≠ group then w.reply c else pushDownConn w c id conn replace env
  | .requestConns group target id =>
      match c.group with
      | none => w.reply c
      | some g =>
          if group ≠ some g then w.reply c
          else
            { w.reply c with
              calls := (c.up.filter fun u => id = "" ∨ u = id).map fun u =>
                (target, { action := .pushConn (some g) u (some (.web n)) "" }) }
  | .connectionFailed id =>
      match c.down.lookup id with
      | none => w.reply c
      | some owner =>
          if ¬ env.done then w.fail c
          else
            { w.reply c with
              calls := [(.web n, { action := .pushConn c.group id (some owner) "" })] }
  | .call (.pushClient ..) | .call (.joined ..) => w.reply c
  | .call (.kick ..) =>
      w.fail { c with evictions := c.evictions ++ (q.issued.toList.product own.toList) }
  | .changePermissions kind =>
      let recording := c.group.elim false fun g => (w.room g).description.allowRecording
      match changePermissions recording kind c.permissions with
      | none => w.fail c
      | some permissions =>
          let commands :=
            if q.issued = own then c.commands ++ [(kind, recording)] else c.commands
          { w.reply { c with permissions, commands } with
            calls := [(.web n, { action := .permissionsChanged })] }
  | .permissionsChanged =>
      match c.group with
      | none => w.fail c
      | some g =>
          let pending := pendingOf <| quiet <| (w.room g).members.map fun m =>
            (m, .pushClient (w.room g).name "change" c.id c.username c.permissions c.data)
          if "present" ∈ c.permissions then { w.reply c with pending }
          else { w.reply { c with up := [] } with calls := closeAll w n c, pending }

end Actions

section Joining
variable (w : World) (n : ℕ) (c : WebClient)

/-- `AddClient` from its lock on. -/
def lockGroup (g : ℕ) (name token : String) (permission : Except Error (String × Permissions))
    (now : ℕ) : Reply :=
  let r := addClient w.view (w.room g) (.web n) token permission now
  let username := r.init.elim c.username (·.1)
  let permissions := r.init.elim c.permissions (·.2)
  let client :=
    match r.error with
    | none =>
        { c with
          username, permissions, pc := .joined g, stay := c.stay + 1, granted := permissions
          commands := [] }
    | some .knocking => { c with username, permissions, pc := .knocked name }
    | some _ => { c with username, permissions, pc := .ready [] }
  { registry := w.registry.set g r.group, client, calls := quiet r.calls }

/-- The rest of the join, once `AddClient` has accepted it. -/
def settle (g : ℕ) : WebClient :=
  if (w.room g).description.redirect ≠ "" then { c with pc := .ready [] }
  else { c with group := some g, knocking := none, pc := .ready [] }

def finish (ending : Bool) : Pc := if ending then .ended else .ready []

def leaveGroup (stage : LeaveStage) (ending : Bool) (now : ℕ) : Reply :=
  match stage with
  | .knock =>
      let pc := if c.group = none then finish ending else .leaving .conns ending
      match c.knocking with
      | none => w.reply { c with pc }
      | some k =>
          let r := removeKnock w.view (w.room k) c.id
          { registry := w.registry.set k r.1, client := { c with knocking := none, pc }
            calls := quiet r.2 }
  | .conns =>
      { w.reply { c with up := [], down := [], pc := .leaving .member ending } with
        calls := closeAll w n c }
  | .member =>
      match c.group with
      | none => w.reply { c with pc := finish ending }
      | some g =>
          match delClient w.view (w.room g) (.web n) now with
          | none => w.reply { c with pc := .leaving .clear ending }
          | some room =>
              { registry := w.registry.set g room
                client := { c with pc := .leaving .lock ending }
                calls := quiet (delClientCalls w.view room (.web n)) }
  | .lock =>
      match c.group with
      | none => w.reply { c with pc := finish ending }
      | some g =>
          let r := autoLockKick w.view (w.room g)
          { registry := w.registry.set g r.1, client := { c with pc := .leaving .clear ending }
            calls := quiet r.2.1, pending := kicked r.2.2 }
  | .clear => w.reply { c with permissions := [], data := [], group := none, pc := finish ending }

end Joining

/-- The end of an `OnTrack` callback. It asks the client's group for its members. -/
def trackPush (w : World) (n : ℕ) (c : WebClient) (id : String) : Reply :=
  let c' := { c with callbacks := c.callbacks.erase id }
  match c.group with
  | none => { w.reply c' with panic := true }
  | some g => { w.reply c' with pending := pendingOf (pushConn w n g id "") }

/-- What may happen next: in the groups, in a client's loop, in the callbacks of
its connections, or among the other clients, who come and go as they like. -/
inductive Label where
  | update (file : File) (now : ℕ) (name : String) (desc : Option Description)
  | delete (name : String)
  | shutdown (g : ℕ) (message : String)
  | queue (n : ℕ) (action : Action)
  | deliver (i : ℕ)
  | message (n : ℕ) (m : ClientMessage) (env : Env)
  | take (n : ℕ)
  | act (n : ℕ) (env : Env)
  | fail (n : ℕ)
  | lock (n now : ℕ) (permission : Except Error (String × Permissions))
  | settle (n : ℕ)
  | knock (n : ℕ)
  | leave (n now : ℕ)
  | trackStart (n : ℕ) (id : String)
  | trackEnd (n : ℕ) (id : String)
  | otherJoin (o g : ℕ) (token : String) (permission : Except Error (String × Permissions))
      (now : ℕ)
  | otherLeave (o g now : ℕ)
  | autoLockKick (g : ℕ)

/-- Only these actions are queued by the media side. -/
def Action.isMedia : Action → Bool
  | .pushConn .. | .requestConns .. | .connectionFailed _ => true
  | _ => false

/-- The world after a lock section on a group that no web client takes part in. -/
def World.section (w : World) (g : ℕ) (room : Groups.Group Member) (calls : List (Member × Call))
    (kicks : List Pending) : World :=
  ({ w with registry := w.registry.set g room, pending := w.pending ++ kicks }).enqueue (quiet calls)

def Pending.call (p : Pending) : Member × Queued := (.web p.target, p.queued)

/-- The loop that made a call goes on. -/
def World.resume (w : World) (caller : Option ℕ) : World :=
  match caller with
  | none => w
  | some n =>
      if (w.clients n).pc = .acting then
        { w with clients := Function.update w.clients n { w.clients n with pc := .ready [] } }
      else w

def step (w : World) (a : Label) : Option World :=
  if w.panicked then none
  else
    match a with
    | .update file now name desc =>
        let r := add w.view w.registry file now name desc
        some <| ({ w with registry := r.registry, pending := w.pending ++ kicked r.kicks }).enqueue
          (quiet r.calls)
    | .delete name => some { w with registry := (w.registry.delete name).1 }
    | .shutdown g message =>
        let r := setLocked (w.room g) true message
        some <| w.section g r.1 r.2 (pendingOf ((w.room g).members.map fun m => (m, kickOf message)))
    | .queue n action =>
        if action.isMedia then some (w.enqueue [(.web n, { action })]) else none
    | .deliver i =>
        w.pending[i]?.map fun p =>
          (({ w with pending := w.pending.eraseIdx i }).enqueue [p.call]).resume p.caller
    | .message n m env =>
        if (w.clients n).pc = .ready [] then
          some (w.commit n (handleClientMessage w n (w.clients n) m env))
        else none
    | .take n =>
        let c := w.clients n
        if c.pc = .ready [] ∧ c.actions ≠ [] then
          some <| w.commit n (w.reply { c with pc := .ready c.actions, actions := [] })
        else none
    | .act n env =>
        let c := w.clients n
        match c.pc with
        | .ready (q :: rest) =>
            some (w.commit n (handleAction w n { c with pc := .ready rest } q env))
        | _ => none
    | .fail n =>
        match (w.clients n).pc with
        | .ready _ => some (w.commit n (w.fail (w.clients n)))
        | _ => none
    | .lock n now permission =>
        match (w.clients n).pc with
        | .joining g name token =>
            some (w.commit n (lockGroup w n (w.clients n) g name token permission now))
        | _ => none
    | .settle n =>
        match (w.clients n).pc with
        | .joined g => some (w.commit n (w.reply (settle w (w.clients n) g)))
        | _ => none
    | .knock n =>
        match (w.clients n).pc with
        | .knocked name =>
            some <| w.commit n <| w.reply
              { w.clients n with knocking := w.registry.table.lookup name, pc := .ready [] }
        | _ => none
    | .leave n now =>
        match (w.clients n).pc with
        | .leaving stage ending =>
            some (w.commit n (leaveGroup w n (w.clients n) stage ending now))
        | _ => none
    | .trackStart n id =>
        let c := w.clients n
        if id ∈ c.up then some (w.commit n (w.reply { c with callbacks := id :: c.callbacks }))
        else none
    | .trackEnd n id =>
        let c := w.clients n
        if id ∈ c.callbacks then some (w.commit n (trackPush w n c id)) else none
    | .otherJoin o g token permission now =>
        let r := addClient w.view (w.room g) (.other o) token permission now
        let other := r.init.elim (w.others o) fun i =>
          { w.others o with username := i.1, permissions := i.2 }
        if g < w.registry.size then
          some (World.section { w with others := Function.update w.others o other } g r.group r.calls [])
        else none
    | .otherLeave o g now =>
        (delClient w.view (w.room g) (.other o) now).map fun room =>
          w.section g room (delClientCalls w.view room (.other o)) []
    | .autoLockKick g =>
        let r := autoLockKick w.view (w.room g)
        some (w.section g r.1 r.2.1 (kicked r.2.2))

/-- Clients before they join anything, and no groups. -/
def Initial (w : World) : Prop :=
  w.registry = {} ∧ (∀ n, w.clients n = { id := (w.clients n).id }) ∧ w.pending = [] ∧
    w.panicked = false

def system : System World Label := { init := Initial, step }

end Sozvon.WebClients
