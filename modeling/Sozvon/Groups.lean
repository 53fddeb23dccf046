import Mathlib.Data.List.AList

/-!
# A group under its lock

The state of one `Group` and what the functions of the `group` package do to it
while they hold `g.mu`. A client is known to a group by an identity `κ` only;
what the group reads from it through the `Client` interface is a `View`, and
what it calls on it is handed back as a list of `Call`s.

Reading a description and checking credentials involve files and cryptography;
their outcomes are arguments. A moment is a number of seconds.
-/
namespace Sozvon.Groups

abbrev Permissions := List String
abbrev Data := List (String × String)

/-- A map keyed by client id. -/
abbrev ById (α : Type) := AList fun _ : String => α

structure Description where
  fileName : String := ""
  modTime : ℕ := 0
  fileSize : ℕ := 0
  isOperatorRoomChild : Bool := false
  isPublic : Bool := false
  redirect : String := ""
  maxClients : ℤ := 0
  maxHistoryAge : ℤ := 0
  expires : Option ℕ := none
  notBefore : Option ℕ := none
  allowRecording : Bool := false
  autolock : Bool := false
  autokick : Bool := false
  lobby : Bool := false
  e2ee : Bool := false
  requireE2EE : Bool := false
  operatorRoom : Bool := false
deriving DecidableEq, Repr

def maxHistoryAge (desc : Description) : ℤ :=
  if desc.maxHistoryAge ≠ 0 then desc.maxHistoryAge else 4 * 60 * 60

/-- Whether two descriptions were read from the same state of a file. -/
def descriptionMatch (d1 d2 : Description) : Bool :=
  d1.fileName = d2.fileName ∧ d1.fileSize = d2.fileSize ∧ d1.modTime = d2.modTime

/-- What a join is refused with. -/
inductive Error where
  | full (code message : String)
  | user (message : String)
  | protocol (message : String)
  | notAuthorised
  | usernameRequired
  | duplicateUsername
  | notExist
  | knocking
  | other (message : String)
deriving DecidableEq, Repr

def errGroupFull : Error := .full "group-full" "too many users"

def errGroupOneOnOne : Error := .full "group-one-on-one" "Room is busy, try again later"

def errGroupE2EEFull : Error :=
  .full "group-e2ee-full"
    "this group requires end-to-end encryption and is limited to two participants"

/-- The calls a group makes on a client. -/
inductive Call where
  | joined (group kind : String)
  | pushClient (group kind id username : String) (permissions : Permissions) (data : Data)
  | kick (id : String) (username : Option String) (message : String)
deriving DecidableEq, Repr

structure KnockEntry (κ : Type) where
  client : κ
  username : String
deriving DecidableEq, Repr

structure Group (κ : Type) where
  name : String
  description : Description := {}
  locked : Option String := none
  locked1on1 : Bool := false
  clients : ById κ := ∅
  knocking : ById (KnockEntry κ) := ∅
  admitted : List String := []
  timestamp : ℕ := 0

/-- What a group reads from its clients. -/
structure View (κ : Type) where
  id : κ → String
  username : κ → String
  permissions : κ → Permissions
  data : κ → Data

variable {κ : Type}

def View.init [DecidableEq κ] (v : View κ) (c : κ) (username : String) (permissions : Permissions) : View κ :=
  { v with
    username := fun c' => if c' = c then username else v.username c'
    permissions := fun c' => if c' = c then permissions else v.permissions c' }

def Group.members (g : Group κ) : List κ := g.clients.entries.map fun e => e.2

theorem Group.mem_members {g : Group κ} {c : κ} :
    c ∈ g.members ↔ ∃ id, g.clients.lookup id = some c := by
  simp only [Group.members, List.mem_map]
  constructor
  · rintro ⟨⟨id, c'⟩, hmem, rfl⟩
    exact ⟨id, AList.mem_lookup_iff.mpr hmem⟩
  · rintro ⟨id, hlookup⟩
    exact ⟨⟨id, c⟩, AList.mem_lookup_iff.mp hlookup, rfl⟩

def getOpsUnlocked (v : View κ) (g : Group κ) : List κ :=
  g.members.filter fun c => "op" ∈ v.permissions c

def hasOp (v : View κ) (g : Group κ) : Bool := g.members.any fun c => "op" ∈ v.permissions c

def notifyKnock (g : Group κ) (ops : List κ) (kind id username : String) : List (κ × Call) :=
  ops.map fun c => (c, .pushClient g.name kind id username [] [])

def lockedError (message : String) : Error :=
  .user (if message = "" then "this group is locked" else message)

def seatErrorUnlocked (g : Group κ) (perms : Permissions) : Option Error :=
  let count := g.clients.entries.length
  if "op" ∉ perms ∧ 0 < g.description.maxClients ∧ g.description.maxClients ≤ count then
    some errGroupFull
  else if "op" ∉ perms ∧ g.locked1on1 ∧ 2 ≤ count then some errGroupOneOnOne
  else if g.description.e2ee ∧ g.description.requireE2EE ∧ ¬ g.description.operatorRoom ∧
      2 ≤ count then
    some errGroupE2EEFull
  else none

/-- The lobby and the lock, as a client without `op` meets them: the group
afterwards, the refusal if there is one, and the calls made. -/
def passDoor (v : View κ) (g : Group κ) (c : κ) (token : String) (username : String)
    (perms : Permissions) : Group κ × Option Error × List (κ × Call) :=
  let cid := v.id c
  if g.description.lobby then
    let child := g.description.isOperatorRoomChild
    if cid ∈ g.admitted then ({ g with admitted := g.admitted.filter (· ≠ cid) }, none, [])
    else if token ≠ "" ∧ ¬ child then (g, g.locked.map lockedError, [])
    else if child ∧ token = "" then (g, some (.user "this link is not valid"), [])
    else if ¬ child ∧ ¬ hasOp v g then (g, some (.user "the host is not available yet"), [])
    else
      match seatErrorUnlocked g perms with
      | some err =>
          (g, some err, notifyKnock g (getOpsUnlocked v g) "knockrefused" cid username)
      | none =>
          ({ g with knocking := g.knocking.insert cid ⟨c, username⟩ }, some .knocking,
            notifyKnock g (getOpsUnlocked v g) "knock" cid username)
  else (g, g.locked.map lockedError, [])

/-- The opening hours and the presence of an operator. -/
def openError (v : View κ) (g : Group κ) (now : ℕ) : Option Error :=
  if ∃ t ∈ g.description.notBefore, now < t then some (.user "this group is not open yet")
  else if ∃ t ∈ g.description.expires, t < now then some (.user "this group is closed")
  else if g.description.autokick ∧ ¬ hasOp v g then
    some (.user "there are no operators in this group")
  else none

/-- The end of `AddClient`: the client becomes a member and everyone is told. -/
def enter (v : View κ) (g : Group κ) (c : κ) (now : ℕ) :
    Group κ × Option Error × List (κ × Call) :=
  let id := v.id c
  if id = "" then (g, some (.other "client has empty id"), [])
  else if (g.clients.lookup id).isSome then (g, some (.protocol "duplicate client id"), [])
  else
    let p := v.permissions c
    let add := fun cc => Call.pushClient g.name "add" (v.id cc) (v.username cc) (v.permissions cc)
      (v.data cc)
    ({ g with clients := g.clients.insert id c, timestamp := now }, none,
      [(c, .joined g.name "join"), (c, add c)] ++
        g.members.flatMap (fun cc => [(c, add cc), (cc, add c)]) ++
        if "op" ∈ p then
          g.knocking.entries.map fun k =>
            (c, .pushClient g.name "knock" k.1 k.2.username [] [])
        else [])

/-- The outcome of `AddClient`. The client's name and permissions are set by
`Init` as soon as its credentials are accepted, also if it is turned away. -/
structure Added (κ : Type) where
  group : Group κ
  error : Option Error
  init : Option (String × Permissions) := none
  calls : List (κ × Call) := []

/-- What may turn a client with accepted credentials away. -/
def gate (v : View κ) (g : Group κ) (c : κ) (token username : String) (perms : Permissions)
    (now : ℕ) : Group κ × Option Error × List (κ × Call) :=
  let door : Group κ × Option Error × List (κ × Call) :=
    if "op" ∈ perms then (g, none, [])
    else
      let r := passDoor v g c token username perms
      (r.1, r.2.1.or (openError v g now), r.2.2)
  (door.1, door.2.1.or (seatErrorUnlocked g perms), door.2.2)

/-- The part of `AddClient` that runs under the group's lock. `permission` is
what `GetPermission` answers for the credentials. -/
def addClient [DecidableEq κ] (v : View κ) (g : Group κ) (c : κ) (token : String)
    (permission : Except Error (String × Permissions)) (now : ℕ) : Added κ :=
  if "system" ∈ v.permissions c then
    let r := enter v g c now
    { group := r.1, error := r.2.1, calls := r.2.2 }
  else
    match permission with
    | .error e => { group := g, error := e }
    | .ok (username, perms) =>
        let v := v.init c username perms
        let r := gate v g c token username perms now
        match r.2.1 with
        | some error => { group := r.1, error, init := (username, perms), calls := r.2.2 }
        | none =>
            let r' := enter v r.1 c now
            { group := r'.1, error := r'.2.1, init := (username, perms), calls := r.2.2 ++ r'.2.2 }

/-! The clients that `AddClient` takes, by what it is given. -/

/-- The client has an id, which no member has. -/
def Free (v : View κ) (g : Group κ) (c : κ) : Prop :=
  v.id c ≠ "" ∧ g.clients.lookup (v.id c) = none

/-- The lobby and the lock let a client without `op` through. -/
def Passes (v : View κ) (g : Group κ) (c : κ) (token : String) : Prop :=
  if g.description.lobby then
    v.id c ∈ g.admitted ∨ token ≠ "" ∧ g.description.isOperatorRoomChild = false ∧ g.locked = none
  else g.locked = none

def Admits (v : View κ) (g : Group κ) (c : κ) (token : String) (perms : Permissions) (now : ℕ) :
    Prop :=
  Free v g c ∧ seatErrorUnlocked g perms = none ∧
    ("op" ∈ perms ∨ Passes v g c token ∧ openError v g now = none)

/-- The lobby has a client wait whom a host, or a link to the room, is to let in. -/
def Detains (v : View κ) (g : Group κ) (c : κ) (token : String) (perms : Permissions) : Prop :=
  "op" ∉ perms ∧ g.description.lobby = true ∧ v.id c ∉ g.admitted ∧
    seatErrorUnlocked g perms = none ∧
      if g.description.isOperatorRoomChild then token ≠ "" else token = "" ∧ hasOp v g = true

/-- The client becomes a member. -/
def Enters [DecidableEq κ] (v : View κ) (g : Group κ) (c : κ) (token : String)
    (permission : Except Error (String × Permissions)) (now : ℕ) : Prop :=
  if "system" ∈ v.permissions c then Free v g c
  else ∃ p ∈ permission.toOption, Admits (v.init c p.1 p.2) g c token p.2 now

/-- The client goes into the waiting room. -/
def Knocks [DecidableEq κ] (v : View κ) (g : Group κ) (c : κ) (token : String)
    (permission : Except Error (String × Permissions)) : Prop :=
  "system" ∉ v.permissions c ∧
    ∃ p ∈ permission.toOption, Detains (v.init c p.1 p.2) g c token p.2

section Deciding

variable [DecidableEq κ] (v : View κ) (g : Group κ) (c : κ) (token : String) (perms : Permissions)
  (permission : Except Error (String × Permissions)) (now : ℕ)

instance : Decidable (Free v g c) := inferInstanceAs (Decidable (_ ∧ _ = none))

instance : Decidable (Passes v g c token) := inferInstanceAs (Decidable (if g.description.lobby then _ ∨ _ ∧ _ ∧ _ else _ = _))

instance : Decidable (Admits v g c token perms now) :=
  inferInstanceAs (Decidable (_ ∧ _ ∧ (_ ∨ _ ∧ _)))

instance : Decidable (Detains v g c token perms) :=
  inferInstanceAs (Decidable (_ ∧ _ ∧ _ ∧ _ ∧
    if g.description.isOperatorRoomChild then _ ≠ _ else _ ∧ _))

instance : Decidable (Enters v g c token permission now) :=
  inferInstanceAs (Decidable (if "system" ∈ v.permissions c then _ else
    ∃ p ∈ permission.toOption, Admits _ _ _ _ p.2 _))

instance : Decidable (Knocks v g c token permission) :=
  inferInstanceAs (Decidable (_ ∧ ∃ p ∈ permission.toOption, Detains _ _ _ _ p.2))

end Deciding

/-- Lock a group without an operator, and name the members to kick. -/
def autoLockKick (v : View κ) (g : Group κ) : Group κ × List (κ × Call) × List κ :=
  if ¬ (g.description.autolock ∧ g.locked = none) ∧ ¬ g.description.autokick then (g, [], [])
  else if hasOp v g then (g, [], [])
  else
    let lock := g.description.autolock ∧ g.locked = none
    (if lock then { g with locked := some "this group is locked" } else g,
      if lock then g.members.map fun c => (c, .joined g.name "change") else [],
      if g.description.autokick then g.members else [])

/-- The first lock section of `DelClient`; `none` if `c` is not a member. -/
def delClient [DecidableEq κ] (v : View κ) (g : Group κ) (c : κ) (now : ℕ) : Option (Group κ) :=
  if g.clients.lookup (v.id c) = some c then
    some { g with clients := g.clients.erase (v.id c), timestamp := now }
  else none

/-- What `DelClient` tells the departing client and those who remain. -/
def delClientCalls (v : View κ) (g : Group κ) (c : κ) : List (κ × Call) :=
  (c, .joined g.name "leave") ::
    g.members.map fun cc => (cc, .pushClient g.name "delete" (v.id c) (v.username c) [] [])

def admitKnock (v : View κ) (g : Group κ) (id : String) : Except Error (Group κ × List (κ × Call)) :=
  match g.knocking.lookup id with
  | none => .error (.user "no such request")
  | some k =>
      .ok ({ g with
             knocking := g.knocking.erase id, admitted := id :: g.admitted.filter (· ≠ id) },
        notifyKnock g (getOpsUnlocked v g) "knockcancel" id k.username ++
          [(k.client, .joined g.name "rejoin")])

def deny (v : View κ) (g : Group κ) (id : String) : Except Error (Group κ × List (κ × Call)) :=
  match g.knocking.lookup id with
  | none => .error (.user "no such request")
  | some k =>
      .ok ({ g with knocking := g.knocking.erase id, admitted := g.admitted.filter (· ≠ id) },
        notifyKnock g (getOpsUnlocked v g) "knockcancel" id k.username ++
          [(k.client, .joined g.name "deny")])

def removeKnock (v : View κ) (g : Group κ) (id : String) : Group κ × List (κ × Call) :=
  ({ g with knocking := g.knocking.erase id, admitted := g.admitted.filter (· ≠ id) },
    match g.knocking.lookup id with
    | none => []
    | some k => notifyKnock g (getOpsUnlocked v g) "knockcancel" id k.username)

def setLocked (g : Group κ) (locked : Bool) (message : String) : Group κ × List (κ × Call) :=
  ({ g with locked := if locked then some message else none },
    g.members.map fun c => (c, .joined g.name "change"))

def setLocked1on1 (g : Group κ) (on : Bool) : Group κ × List (κ × Call) :=
  ({ g with locked1on1 := on }, g.members.map fun c => (c, .joined g.name "change"))

def mayExpire (g : Group κ) (now : ℕ) : Bool :=
  ¬ g.description.isPublic ∧ g.clients.entries = [] ∧ g.knocking.entries = [] ∧
    maxHistoryAge g.description < (now : ℤ) - g.timestamp

/-- Whether `deleteUnlocked` may take the group off the table. -/
def Group.isEmpty (g : Group κ) : Bool := g.clients.entries = [] ∧ g.knocking.entries = []

section Members

variable {v : View κ} {g : Group κ} {c : κ}

theorem passDoor_keeps (token username : String) (perms : Permissions) :
    (passDoor v g c token username perms).1.clients = g.clients ∧
      (passDoor v g c token username perms).1.name = g.name ∧
      (passDoor v g c token username perms).1.description = g.description := by
  simp only [passDoor]
  split_ifs
  any_goals exact ⟨rfl, rfl, rfl⟩
  cases seatErrorUnlocked g perms <;> exact ⟨rfl, rfl, rfl⟩

theorem gate_keeps (token username : String) (perms : Permissions) (now : ℕ) :
    (gate v g c token username perms now).1.clients = g.clients ∧
      (gate v g c token username perms now).1.name = g.name ∧
      (gate v g c token username perms now).1.description = g.description := by
  simp only [gate]
  split_ifs
  · exact ⟨rfl, rfl, rfl⟩
  · exact passDoor_keeps token username perms

/-- Entering is all or nothing. -/
theorem enter_cases (v : View κ) (g : Group κ) (c : κ) (now : ℕ) :
    ((enter v g c now).2.1 ≠ none ∧ (enter v g c now).1 = g) ∨
      ((enter v g c now).2.1 = none ∧ v.id c ≠ "" ∧ g.clients.lookup (v.id c) = none ∧
        (enter v g c now).1 =
          { g with clients := g.clients.insert (v.id c) c, timestamp := now }) := by
  unfold enter
  by_cases hid : v.id c = ""
  · exact .inl (by simp [hid])
  · by_cases hdup : (g.clients.lookup (v.id c)).isSome
    · exact .inl (by simp [hid, hdup])
    · rw [if_neg hid, if_neg hdup]
      exact .inr ⟨rfl, hid, by simpa using hdup, rfl⟩

/-- What a locked `AddClient` does to the member map: nothing if it refuses,
and one new entry under the client's own id if it does not. -/
structure AddSpec (v : View κ) (g : Group κ) (c : κ) (r : Added κ) : Prop where
  name : r.group.name = g.name
  description : r.group.description = g.description
  clients : (r.error ≠ none ∧ r.group.clients = g.clients) ∨
    (r.error = none ∧ v.id c ≠ "" ∧ g.clients.lookup (v.id c) = none ∧
      r.group.clients = g.clients.insert (v.id c) c)

theorem addSpec_enter (now : ℕ) {init : Option (String × Permissions)} {calls : List (κ × Call)} :
    AddSpec v g c { group := (enter v g c now).1, error := (enter v g c now).2.1, init, calls } := by
  rcases enter_cases v g c now with ⟨herror, hgroup⟩ | ⟨herror, hid, hlookup, hgroup⟩
  · exact ⟨by rw [hgroup], by rw [hgroup], .inl ⟨herror, by rw [hgroup]⟩⟩
  · exact ⟨by rw [hgroup], by rw [hgroup], .inr ⟨herror, hid, hlookup, by rw [hgroup]⟩⟩

/-- What happens at the gate is not seen from outside. -/
theorem AddSpec.of_keeps {v' : View κ} {g' : Group κ} {r : Added κ} (h : AddSpec v' g' c r)
    (hid : v'.id = v.id)
    (hkeeps : g'.clients = g.clients ∧ g'.name = g.name ∧ g'.description = g.description) :
    AddSpec v g c r := by
  obtain ⟨hclients, hname, hdescription⟩ := hkeeps
  refine ⟨h.name.trans hname, h.description.trans hdescription, ?_⟩
  rw [← hclients, ← hid]
  exact h.clients

theorem addSpec_addClient [DecidableEq κ] (v : View κ) (g : Group κ) (c : κ) (token : String)
    (permission : Except Error (String × Permissions)) (now : ℕ) :
    AddSpec v g c (addClient v g c token permission now) := by
  unfold addClient
  split_ifs
  · exact addSpec_enter now
  · cases permission with
    | error e => exact ⟨rfl, rfl, .inl ⟨by simp, rfl⟩⟩
    | ok granted =>
        obtain ⟨username, perms⟩ := granted
        have hkeeps := gate_keeps (v := v.init c username perms) (g := g) (c := c) token username
          perms now
        cases hgate : (gate (v.init c username perms) g c token username perms now).2.1 with
        | some error =>
            simp only [hgate]
            exact ⟨hkeeps.2.1, hkeeps.2.2, .inl ⟨by simp, hkeeps.1⟩⟩
        | none =>
            simp only [hgate]
            exact (addSpec_enter now).of_keeps rfl hkeeps

theorem seatError_ne_knocking (perms : Permissions) :
    seatErrorUnlocked g perms ≠ some .knocking := by
  unfold seatErrorUnlocked
  dsimp only
  split_ifs <;> simp [errGroupFull, errGroupOneOnOne, errGroupE2EEFull]

theorem openError_ne_knocking (now : ℕ) : openError v g now ≠ some .knocking := by
  unfold openError
  split_ifs <;> simp

theorem enter_keeps (v : View κ) (g : Group κ) (c : κ) (now : ℕ) :
    (enter v g c now).1.knocking = g.knocking ∧ (enter v g c now).1.admitted = g.admitted ∧
      (enter v g c now).2.1 ≠ some .knocking := by
  unfold enter
  dsimp only
  split_ifs <;> exact ⟨rfl, rfl, nofun⟩

theorem passDoor_none_iff (token username : String) (perms : Permissions) :
    (passDoor v g c token username perms).2.1 = none ↔ Passes v g c token := by
  unfold passDoor Passes
  by_cases hlobby : g.description.lobby = true
  · rw [if_pos hlobby, if_pos hlobby]
    dsimp only
    by_cases hadmitted : v.id c ∈ g.admitted
    · rw [if_pos hadmitted]
      exact iff_of_true rfl (.inl hadmitted)
    rw [if_neg hadmitted, or_iff_right hadmitted]
    by_cases hpass : token ≠ "" ∧ g.description.isOperatorRoomChild = false
    · rw [if_pos (by simpa using hpass), Option.map_eq_none_iff]
      exact ⟨fun hlocked => ⟨hpass.1, hpass.2, hlocked⟩, fun h => h.2.2⟩
    rw [if_neg (by simpa using hpass)]
    refine iff_of_false ?_ fun h => hpass ⟨h.1, h.2.1⟩
    split_ifs
    · exact nofun
    · exact nofun
    · cases seatErrorUnlocked g perms <;> exact nofun
  · rw [if_neg hlobby, if_neg hlobby, Option.map_eq_none_iff]

/-- Who is to wait has been told so by the lobby. -/
theorem detains_of_passDoor {token username : String} {perms : Permissions} (hop : "op" ∉ perms)
    (h : (passDoor v g c token username perms).2.1 = some .knocking) : Detains v g c token perms := by
  unfold passDoor at h
  have hunlocked : g.locked.map lockedError ≠ some .knocking := by cases g.locked <;> exact nofun
  split at h
  · rename_i hlobby
    dsimp only at h
    split_ifs at h with hadmitted hpass hinvalid habsent
    · exact absurd h hunlocked
    · cases h
    · cases h
    · cases hseat : seatErrorUnlocked g perms with
      | some e =>
          rw [hseat] at h
          exact absurd (hseat.trans h) (seatError_ne_knocking perms)
      | none =>
          refine ⟨hop, hlobby, hadmitted, hseat, ?_⟩
          cases hchild : g.description.isOperatorRoomChild with
          | true => simpa [hchild] using hinvalid
          | false => simpa [hchild] using And.intro hpass habsent
  · exact absurd h hunlocked

theorem passDoor_knocking {token username : String} {perms : Permissions}
    (h : (passDoor v g c token username perms).2.1 ≠ some .knocking) :
    (passDoor v g c token username perms).1.knocking = g.knocking := by
  unfold passDoor at h ⊢
  dsimp only at h ⊢
  split_ifs at h ⊢
  any_goals rfl
  cases hseat : seatErrorUnlocked g perms with
  | some e => rfl
  | none =>
      rw [hseat] at h
      exact absurd rfl h

variable {token username : String} {perms : Permissions} {now : ℕ}
  {permission : Except Error (String × Permissions)}

theorem detains_of_gate (h : (gate v g c token username perms now).2.1 = some .knocking) :
    Detains v g c token perms := by
  unfold gate at h
  by_cases hop : "op" ∈ perms
  · rw [if_pos hop] at h
    exact absurd h (seatError_ne_knocking perms)
  · rw [if_neg hop] at h
    dsimp only at h
    rcases Option.or_eq_some_iff.mp h with hdoor | ⟨-, hseat⟩
    · rcases Option.or_eq_some_iff.mp hdoor with hdoor | ⟨-, hopen⟩
      · exact detains_of_passDoor hop hdoor
      · exact absurd hopen (openError_ne_knocking now)
    · exact absurd hseat (seatError_ne_knocking perms)

theorem gate_knocking (h : (gate v g c token username perms now).2.1 ≠ some .knocking) :
    (gate v g c token username perms now).1.knocking = g.knocking := by
  unfold gate at h ⊢
  by_cases hop : "op" ∈ perms
  · rw [if_pos hop]
  · rw [if_neg hop] at h ⊢
    refine passDoor_knocking fun hdoor => h ?_
    dsimp only
    rw [hdoor]
    rfl

/-- Nothing at the gate stands in the way of who comes in. -/
theorem admits_of_gate (hgate : (gate v g c token username perms now).2.1 = none)
    (hfree : Free v g c) : Admits v g c token perms now := by
  unfold gate at hgate
  obtain ⟨hdoor, hseat⟩ := Option.or_eq_none_iff.mp hgate
  refine ⟨hfree, hseat, ?_⟩
  by_cases hop : "op" ∈ perms
  · exact .inl hop
  · rw [if_neg hop] at hdoor
    obtain ⟨hpassed, hopen⟩ := Option.or_eq_none_iff.mp hdoor
    exact .inr ⟨(passDoor_none_iff token username perms).mp hpassed, hopen⟩

theorem free_of_enter {g' : Group κ} (hclients : g'.clients = g.clients)
    (h : (enter v g' c now).2.1 = none) : Free v g c := by
  rcases enter_cases v g' c now with ⟨herror, -⟩ | ⟨-, hid, hlookup, -⟩
  · exact absurd h herror
  · exact ⟨hid, hclients ▸ hlookup⟩

theorem enters_of_addClient [DecidableEq κ]
    (h : (addClient v g c token permission now).error = none) : Enters v g c token permission now := by
  unfold addClient at h
  unfold Enters
  split_ifs at h ⊢ with hsystem
  · exact free_of_enter rfl h
  · cases permission with
    | error e => cases h
    | ok granted =>
        refine ⟨granted, rfl, ?_⟩
        dsimp only at h
        cases hgate : (gate (v.init c granted.1 granted.2) g c token granted.1 granted.2 now).2.1 with
        | some error =>
            rw [hgate] at h
            cases h
        | none =>
            rw [hgate] at h
            exact admits_of_gate hgate (free_of_enter (gate_keeps token granted.1 granted.2 now).1 h)

/-- Only who knocks is put into the waiting room. -/
theorem addClient_knocking [DecidableEq κ] (h : ¬ Knocks v g c token permission) :
    (addClient v g c token permission now).group.knocking = g.knocking ∧
      ((addClient v g c token permission now).error = some .knocking →
        permission = .error .knocking) := by
  unfold addClient
  split_ifs with hsystem
  · have hkeeps := enter_keeps v g c now
    exact ⟨hkeeps.1, fun herror => absurd herror hkeeps.2.2⟩
  · cases permission with
    | error e => exact ⟨rfl, fun herror => congrArg Except.error (Option.some.inj herror)⟩
    | ok granted =>
        have hgate : (gate (v.init c granted.1 granted.2) g c token granted.1 granted.2 now).2.1 ≠
            some .knocking := fun hgate => h ⟨hsystem, granted, rfl, detains_of_gate hgate⟩
        have hknocking := gate_knocking hgate
        dsimp only
        cases herror : (gate (v.init c granted.1 granted.2) g c token granted.1 granted.2 now).2.1 with
        | some error => exact ⟨hknocking, fun heq => absurd (herror.trans heq) hgate⟩
        | none =>
            have hkeeps := enter_keeps (v.init c granted.1 granted.2)
              (gate (v.init c granted.1 granted.2) g c token granted.1 granted.2 now).1 c now
            exact ⟨hkeeps.1.trans hknocking, fun heq => absurd heq hkeeps.2.2⟩

end Members

end Sozvon.Groups
