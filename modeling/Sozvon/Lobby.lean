import Sozvon.WebClients
import Sozvon.Tickets

/-!
# The lobby of a group

One group whose description stays as it is, with a log of what is called on it
and what comes of it. A visitor without `op` who comes to a group with a lobby
needs a ticket: their knock lets an operator admit them once, and that lets
them in once.
-/
namespace Sozvon.Lobby
open Groups Tickets Runs

section Definitions

variable {κ : Type}

/-- A call that the lobby knows of, and its answer. -/
inductive Event where
  /-- `AddClient`: whether the client is a system client, what its credentials
  grant, whether the group is locked, and the refusal if there is one. -/
  | addClient (id token : String) (system : Bool) (granted : Option Permissions) (locked : Bool)
      (error : Option Error)
  | admitKnock (id : String) (error : Option Error)
  | deny (id : String) (error : Option Error)
  | removeKnock (id : String)
deriving DecidableEq, Repr

structure Room (κ : Type) where
  group : Groups.Group κ
  view : View κ
  /-- The latest first. -/
  log : List Event := []

inductive Label (κ : Type) where
  | addClient (c : κ) (token : String) (permission : Except Error (String × Permissions)) (now : ℕ)
  | delClient (c : κ) (now : ℕ)
  /-- The end of `DelClient`. -/
  | autoLockKick
  | admitKnock (id : String)
  | deny (id : String)
  | removeKnock (id : String)
  | setLocked (locked : Bool) (message : String)
  | setLocked1on1 (on : Bool)
  /-- A command changes the permissions of a client. -/
  | changePermissions (c : κ) (recording : Bool) (kind : String)
  /-- A client that is gone forgets its permissions. -/
  | clear (c : κ)

def permit [DecidableEq κ] (v : View κ) (c : κ) (permissions : Permissions) : View κ :=
  { v with permissions := Function.update v.permissions c permissions }

namespace Room

variable [DecidableEq κ] (r : Room κ)

/-- `AddClient`, once it has the lock. -/
def addClient (c : κ) (token : String) (permission : Except Error (String × Permissions)) (now : ℕ) :
    Room κ :=
  let added := Groups.addClient r.view r.group c token permission now
  let event := .addClient (r.view.id c) token ("system" ∈ r.view.permissions c)
    (added.init.map (·.2)) r.group.locked.isSome added.error
  { group := added.group
    view := added.init.elim r.view fun i => r.view.init c i.1 i.2
    log := event :: r.log }

def admitKnock (id : String) : Room κ :=
  match Groups.admitKnock r.view r.group id with
  | .error e => { r with log := .admitKnock id (some e) :: r.log }
  | .ok s => { r with group := s.1, log := .admitKnock id none :: r.log }

def deny (id : String) : Room κ :=
  match Groups.deny r.view r.group id with
  | .error e => { r with log := .deny id (some e) :: r.log }
  | .ok s => { r with group := s.1, log := .deny id none :: r.log }

def removeKnock (id : String) : Room κ :=
  { r with group := (Groups.removeKnock r.view r.group id).1, log := .removeKnock id :: r.log }

def step (r : Room κ) : Label κ → Option (Room κ)
  | .addClient c token permission now => some (r.addClient c token permission now)
  | .delClient c now => (Groups.delClient r.view r.group c now).map fun g => { r with group := g }
  | .autoLockKick => some { r with group := (Groups.autoLockKick r.view r.group).1 }
  | .admitKnock id => some (r.admitKnock id)
  | .deny id => some (r.deny id)
  | .removeKnock id => some (r.removeKnock id)
  | .setLocked locked message => some { r with group := (Groups.setLocked r.group locked message).1 }
  | .setLocked1on1 on => some { r with group := (Groups.setLocked1on1 r.group on).1 }
  | .changePermissions c recording kind =>
      (WebClients.changePermissions recording kind (r.view.permissions c)).map fun perms =>
        { r with view := permit r.view c perms }
  | .clear c => if c ∈ r.group.members then none else some { r with view := permit r.view c [] }

end Room

/-- A group in which nobody is yet. -/
def room (κ : Type) [DecidableEq κ] : System (Room κ) (Label κ) where
  init r := r.group.clients = ∅ ∧ r.group.knocking = ∅ ∧ r.group.admitted = [] ∧ r.log = []
  step := Room.step

namespace Event

/-- A client with this id that is subject to the lobby has tried to come in: it
is no system client, and its credentials do not grant `op`. -/
def Tries (id : String) : Event → Prop
  | .addClient i _ system granted _ _ =>
      i = id ∧ system = false ∧ granted.any fun perms => "op" ∉ perms
  | _ => False

/-- It has been put in the waiting list. -/
def Knock (id : String) : Event → Prop
  | .addClient i _ system granted _ error =>
      i = id ∧ system = false ∧ (granted.any fun perms => "op" ∉ perms) ∧ error = some .knocking
  | _ => False

/-- It has come in, and no token is its pass. -/
def Entry (child : Bool) (id : String) : Event → Prop
  | .addClient i token system granted locked error =>
      i = id ∧ system = false ∧ (granted.any fun perms => "op" ∉ perms) ∧ error = none ∧
        ¬ (token ≠ "" ∧ child = false ∧ locked = false)
  | _ => False

def Admits (id : String) : Event → Prop
  | .admitKnock i error => i = id ∧ error = none
  | _ => False

/-- The id has been denied, or its visitor is gone. -/
def Drops (id : String) : Event → Prop
  | .deny i error => i = id ∧ error = none
  | .removeKnock i => i = id
  | _ => False

instance (id : String) : DecidablePred (Knock id)
  | .addClient i _ system granted _ error => inferInstanceAs (Decidable (i = id ∧ system = false ∧
      (granted.any fun perms => "op" ∉ perms) ∧ error = some .knocking))
  | .admitKnock .. | .deny .. | .removeKnock .. => .isFalse fun h => h

instance (child : Bool) (id : String) : DecidablePred (Entry child id)
  | .addClient i token system granted locked error =>
      inferInstanceAs (Decidable (i = id ∧ system = false ∧
        (granted.any fun perms => "op" ∉ perms) ∧ error = none ∧
          ¬ (token ≠ "" ∧ child = false ∧ locked = false)))
  | .admitKnock .. | .deny .. | .removeKnock .. => .isFalse fun h => h

instance (id : String) : DecidablePred (Admits id)
  | .admitKnock i error => inferInstanceAs (Decidable (i = id ∧ error = none))
  | .addClient .. | .deny .. | .removeKnock .. => .isFalse fun h => h

end Event

/-- A knock is the ticket for an admission. -/
def knocks (id : String) : Desk Event where
  grants := Event.Knock id
  takes := Event.Admits id
  voids := Event.Drops id

/-- An admission is the ticket for coming in. -/
def admissions (id : String) : Desk Event where
  grants := Event.Admits id
  takes := Event.Tries id
  voids := Event.Drops id

instance (id : String) : DecidablePred (knocks id).grants :=
  inferInstanceAs (DecidablePred (Event.Knock id))

instance (id : String) : DecidablePred (admissions id).grants :=
  inferInstanceAs (DecidablePred (Event.Admits id))

/-- How a client without `op` fares at the door, `v` with its new permissions. -/
inductive Met (v : View κ) (g : Groups.Group κ) (c : κ) (token username : String)
    (perms : Permissions) : Groups.Group κ → Option Error → Prop
  | lobbyless (lobby : g.description.lobby = false) (error : Option Error)
      (unlocked : error = none → g.locked = none) (refusal : error ≠ some .knocking) :
      Met v g c token username perms g error
  | ticket (lobby : g.description.lobby = true) (admitted : v.id c ∈ g.admitted) :
      Met v g c token username perms { g with admitted := g.admitted.filter (· ≠ v.id c) } none
  | pass (lobby : g.description.lobby = true) (admitted : v.id c ∉ g.admitted) (given : token ≠ "")
      (child : g.description.isOperatorRoomChild = false) (unlocked : g.locked = none) :
      Met v g c token username perms g none
  | turned (lobby : g.description.lobby = true) (admitted : v.id c ∉ g.admitted) (error : Error)
      (refusal : error ≠ .knocking) : Met v g c token username perms g (some error)
  | knocked (lobby : g.description.lobby = true) (admitted : v.id c ∉ g.admitted)
      (seat : seatErrorUnlocked g perms = none) : Met v g c token username perms
        { g with knocking := g.knocking.insert (v.id c) ⟨c, username⟩ } (some .knocking)

/-- How a client fares whose credentials are good. -/
structure Granted [DecidableEq κ] (v : View κ) (g : Groups.Group κ) (c : κ) (token username : String)
    (perms : Permissions) (a : Added κ) : Prop where
  init : a.init = some (username, perms)
  seat : a.error = none → seatErrorUnlocked g perms = none
  op : "op" ∈ perms → a.group.knocking = g.knocking ∧ a.group.admitted = g.admitted ∧
    a.error ≠ some .knocking
  visitor : "op" ∉ perms → ∃ g' error,
    Met (v.init c username perms) g c token username perms g' error ∧
      a.group.knocking = g'.knocking ∧ a.group.admitted = g'.admitted ∧
        (∀ e, error = some e → a.error = some e) ∧ (error = none → a.error ≠ some .knocking)

/-- The three ways through `AddClient`. -/
inductive Fate [DecidableEq κ] (v : View κ) (g : Groups.Group κ) (c : κ) (token : String)
    (permission : Except Error (String × Permissions)) (a : Added κ) : Prop
  | system (is : "system" ∈ v.permissions c) (init : a.init = none)
      (knocking : a.group.knocking = g.knocking) (admitted : a.group.admitted = g.admitted)
      (error : a.error ≠ some .knocking)
  | refused (not : "system" ∉ v.permissions c) (e : Error) (permission : permission = .error e)
      (init : a.init = none) (group : a.group = g) (error : a.error = some e)
  | granted (not : "system" ∉ v.permissions c) (username : String) (perms : Permissions)
      (permission : permission = .ok (username, perms))
      (granted : Granted v g c token username perms a)

/-- What the lobby promises about one id, in a group that is an operator room's child
or not. -/
structure Gated [DecidableEq κ] (child : Bool) (r : Room κ) (id : String) : Prop where
  entries : (admissions id).Backed (Event.Entry child id) r.log
  entries_le : r.log.countP (Event.Entry child id) ≤ r.log.countP (Event.Admits id)
  admissions : (knocks id).Backed (Event.Admits id) r.log
  admissions_le : r.log.countP (Event.Admits id) ≤ r.log.countP (Event.Knock id)
  idle : id ∉ r.group.knocking → ∃ e, Groups.admitKnock r.view r.group id = .error e ∧
    Groups.deny r.view r.group id = .error e ∧
      r.admitKnock id = { r with log := .admitKnock id (some e) :: r.log } ∧
        r.deny id = { r with log := .deny id (some e) :: r.log }

/-- Who waits has knocked, and who is admitted has been. -/
structure Kept (child : Bool) (r : Room κ) (id : String) : Prop where
  lobby : r.group.description.lobby = true
  hub : r.group.description.isOperatorRoomChild = child
  admitted : id ∈ r.group.admitted → (admissions id).Out r.log
  waiting : id ∈ r.group.knocking → (knocks id).Out r.log
  entries : (Lobby.admissions id).Backed (Event.Entry child id) r.log
  admissions : (knocks id).Backed (Event.Admits id) r.log

end Definitions

section Door

variable {κ : Type} {v : View κ} {g : Groups.Group κ} {c : κ}

theorem met_passDoor (token username : String) (perms : Permissions) :
    Met v g c token username perms (passDoor v g c token username perms).1
      (passDoor v g c token username perms).2.1 := by
  unfold passDoor
  split
  · rename_i hlobby
    dsimp only
    split
    · rename_i hadmitted
      exact .ticket hlobby hadmitted
    rename_i hadmitted
    split
    · rename_i hpass
      cases hlocked : g.locked with
      | none => exact .pass hlobby hadmitted hpass.1 (by simpa using hpass.2) hlocked
      | some message => exact .turned hlobby hadmitted _ nofun
    split
    · exact .turned hlobby hadmitted _ nofun
    split
    · exact .turned hlobby hadmitted _ nofun
    split
    · rename_i err hseat
      refine .turned hlobby hadmitted err ?_
      rintro rfl
      exact seatError_ne_knocking perms hseat
    · rename_i hseat
      exact .knocked hlobby hadmitted hseat
  · rename_i hlobby
    refine .lobbyless (by simpa using hlobby) _ ?_ ?_
    · cases g.locked <;> simp
    · cases g.locked <;> simp [lockedError]

theorem gate_op (token username : String) {perms : Permissions} (now : ℕ) (hop : "op" ∈ perms) :
    gate v g c token username perms now = (g, seatErrorUnlocked g perms, []) := by
  unfold gate
  rw [if_pos hop]
  rfl

theorem gate_visitor (token username : String) {perms : Permissions} (now : ℕ) (hop : "op" ∉ perms) :
    (gate v g c token username perms now).1 = (passDoor v g c token username perms).1 ∧
      (gate v g c token username perms now).2.1 =
        ((passDoor v g c token username perms).2.1.or (openError v g now)).or
          (seatErrorUnlocked g perms) := by
  unfold gate
  rw [if_neg hop]
  exact ⟨rfl, rfl⟩

/-- The gate refuses what the door does, and else it may refuse on other grounds. -/
theorem granted_of_gate [DecidableEq κ] {token username : String} {perms : Permissions} {now : ℕ}
    {a : Added κ} {g' : Groups.Group κ} {error : Option Error}
    (hgate : (gate (v.init c username perms) g c token username perms now).1 = g' ∧
      (gate (v.init c username perms) g c token username perms now).2.1 = error)
    (init : a.init = some (username, perms)) (hknocking : a.group.knocking = g'.knocking)
    (hadmitted : a.group.admitted = g'.admitted) (hrefused : ∀ e, error = some e → a.error = some e)
    (hother : error = none → a.error ≠ some .knocking) : Granted v g c token username perms a := by
  obtain ⟨rfl, rfl⟩ := hgate
  refine ⟨init, ?_, ?_, ?_⟩
  · intro hnone
    by_contra hseat
    obtain ⟨e, he⟩ := Option.ne_none_iff_exists'.mp hseat
    have hgate : (gate (v.init c username perms) g c token username perms now).2.1 ≠ none := by
      simp only [gate, he]
      exact fun h => by cases (Option.or_eq_none_iff.mp h).2
    obtain ⟨e', he'⟩ := Option.ne_none_iff_exists'.mp hgate
    cases (hrefused e' he').symm.trans hnone
  · intro hop
    rw [gate_op token username now hop] at hknocking hadmitted hrefused hother
    refine ⟨hknocking, hadmitted, ?_⟩
    cases hseat : seatErrorUnlocked g perms with
    | none => exact hother hseat
    | some e =>
        rw [hrefused e hseat]
        exact fun h => seatError_ne_knocking perms (hseat.trans h)
  · intro hop
    obtain ⟨hgroup, herror⟩ :=
      gate_visitor (v := v.init c username perms) (g := g) (c := c) token username now hop
    rw [hgroup] at hknocking hadmitted
    rw [herror] at hrefused hother
    refine ⟨_, _, met_passDoor token username perms, hknocking, hadmitted, ?_, ?_⟩
    · intro e he
      exact hrefused e (by rw [he]; rfl)
    · intro hnone
      rw [hnone, Option.none_or] at hrefused hother
      intro hknock
      cases hopen : openError (v.init c username perms) g now with
      | some e =>
          have hsame := hrefused e (by rw [hopen]; rfl)
          exact openError_ne_knocking now (hopen.trans (hsame.symm.trans hknock))
      | none =>
          rw [hopen, Option.none_or] at hrefused hother
          cases hseat : seatErrorUnlocked g perms with
          | some e => exact seatError_ne_knocking perms (hseat.trans ((hrefused e hseat).symm.trans hknock))
          | none => exact hother hseat hknock

theorem fate_addClient [DecidableEq κ] (v : View κ) (g : Groups.Group κ) (c : κ) (token : String)
    (permission : Except Error (String × Permissions)) (now : ℕ) :
    Fate v g c token permission (Groups.addClient v g c token permission now) := by
  unfold Groups.addClient
  split
  · rename_i hsystem
    obtain ⟨hknocking, hadmitted, herror⟩ := enter_keeps v g c now
    exact .system hsystem rfl hknocking hadmitted herror
  · rename_i hsystem
    cases permission with
    | error e => exact .refused hsystem e rfl rfl rfl rfl
    | ok granted =>
        obtain ⟨username, perms⟩ := granted
        refine .granted hsystem username perms rfl ?_
        dsimp only
        split
        · rename_i error hgate
          refine granted_of_gate ⟨rfl, hgate⟩ rfl rfl rfl (fun e he => he) ?_
          exact nofun
        · rename_i hgate
          obtain ⟨hknocking, hadmitted, herror⟩ := enter_keeps (v.init c username perms)
            (gate (v.init c username perms) g c token username perms now).1 c now
          exact granted_of_gate ⟨rfl, hgate⟩ rfl hknocking hadmitted nofun fun _ => herror

end Door

section Runs

variable {κ : Type} [DecidableEq κ] {r r' : Room κ} {child : Bool} {id : String}

omit [DecidableEq κ] in
/-- A step that the lobby knows nothing of. -/
theorem Kept.of_same (h : Kept child r id) (hdescription : r'.group.description = r.group.description)
    (hknocking : r'.group.knocking = r.group.knocking)
    (hadmitted : r'.group.admitted = r.group.admitted) (hlog : r'.log = r.log) : Kept child r' id where
  lobby := hdescription ▸ h.lobby
  hub := hdescription ▸ h.hub
  admitted := hadmitted ▸ hlog ▸ h.admitted
  waiting := hknocking ▸ hlog ▸ h.waiting
  entries := hlog ▸ h.entries
  admissions := hlog ▸ h.admissions

omit [DecidableEq κ] in
/-- An event about which only `hentry`, `hadmits` and what becomes of the two sets have to be
known. -/
theorem Kept.log (h : Kept child r id) (hdescription : r'.group.description = r.group.description)
    {e : Event} (hlog : r'.log = e :: r.log)
    (hadmitted : id ∈ r'.group.admitted →
      Event.Admits id e ∨ ¬ Event.Tries id e ∧ ¬ Event.Drops id e ∧ id ∈ r.group.admitted)
    (hwaiting : id ∈ r'.group.knocking →
      Event.Knock id e ∨ ¬ Event.Admits id e ∧ ¬ Event.Drops id e ∧ id ∈ r.group.knocking)
    (hentry : Event.Entry child id e → id ∈ r.group.admitted)
    (hadmits : Event.Admits id e → id ∈ r.group.knocking) : Kept child r' id where
  lobby := hdescription ▸ h.lobby
  hub := hdescription ▸ h.hub
  admitted hmem := by
    rw [hlog]
    rcases hadmitted hmem with hgrants | ⟨htakes, hvoids, hold⟩
    · exact .granted hgrants
    · exact .kept htakes hvoids (h.admitted hold)
  waiting hmem := by
    rw [hlog]
    rcases hwaiting hmem with hgrants | ⟨htakes, hvoids, hold⟩
    · exact .granted hgrants
    · exact .kept htakes hvoids (h.waiting hold)
  entries := by
    rw [hlog]
    exact .cons (fun hentered => h.admitted (hentry hentered)) h.entries
  admissions := by
    rw [hlog]
    exact .cons (fun hadmit => h.waiting (hadmits hadmit)) h.admissions

omit [DecidableEq κ] in
theorem Kept.came (h : Kept child r id) (hdescription : r'.group.description = r.group.description)
    {i token : String} {system locked : Bool} {granted : Option Permissions} {error : Option Error}
    (hlog : r'.log = .addClient i token system granted locked error :: r.log)
    (hadmitted : id ∈ r'.group.admitted →
      ¬ Event.Tries id (.addClient i token system granted locked error) ∧ id ∈ r.group.admitted)
    (hwaiting : id ∈ r'.group.knocking →
      Event.Knock id (.addClient i token system granted locked error) ∨ id ∈ r.group.knocking)
    (hentry : Event.Entry child id (.addClient i token system granted locked error) →
      id ∈ r.group.admitted) : Kept child r' id := by
  refine h.log hdescription hlog ?_ ?_ hentry False.elim
  · intro hmem
    exact .inr ⟨(hadmitted hmem).1, fun h => h, (hadmitted hmem).2⟩
  · intro hmem
    exact (hwaiting hmem).imp_right fun hold => ⟨fun h => h, fun h => h, hold⟩

/-- A visitor comes in with a ticket, or with a token as their pass. -/
theorem Kept.addClient (h : Kept child r id) (c : κ) (token : String)
    (permission : Except Error (String × Permissions)) (now : ℕ) :
    Kept child (r.addClient c token permission now) id := by
  have hdescription := (addSpec_addClient r.view r.group c token permission now).description
  have hfate := fate_addClient r.view r.group c token permission now
  unfold Room.addClient
  generalize Groups.addClient r.view r.group c token permission now = a at hdescription hfate ⊢
  cases hfate with
  | system is init knocking admitted error =>
      refine h.came hdescription rfl (fun hmem => ⟨?_, admitted ▸ hmem⟩)
        (fun hmem => .inr (knocking ▸ hmem)) ?_
      · exact fun htries => absurd htries.2.1 (by simp [is])
      · exact fun hentry => absurd hentry.2.1 (by simp [is])
  | refused _ e _ init group error =>
      refine h.came hdescription rfl (fun hmem => ⟨?_, group ▸ hmem⟩)
        (fun hmem => .inr (group ▸ hmem)) ?_
      · exact fun htries => absurd htries.2.2 (by simp [init])
      · exact fun hentry => absurd hentry.2.2.1 (by simp [init])
  | granted hsystem username perms _ hgranted =>
      by_cases hop : "op" ∈ perms
      · obtain ⟨hknocking, hadmitted, -⟩ := hgranted.op hop
        refine h.came hdescription rfl (fun hmem => ⟨?_, hadmitted ▸ hmem⟩)
          (fun hmem => .inr (hknocking ▸ hmem)) ?_
        · exact fun htries => absurd htries.2.2 (by simp [hgranted.init, hop])
        · exact fun hentry => absurd hentry.2.2.1 (by simp [hgranted.init, hop])
      obtain ⟨g', error, hmet, hknocking, hadmitted, hrefused, -⟩ := hgranted.visitor hop
      -- who has no ticket keeps none, and a ticket is taken whatever comes of it
      have hmine : ∀ mem : id ∈ r.group.admitted, r.view.id c ∉ r.group.admitted →
          r.view.id c ≠ id := by
        rintro hmem hnone rfl
        exact hnone hmem
      cases hmet with
      | lobbyless lobby => exact absurd (lobby.symm.trans h.lobby) nofun
      | ticket lobby mine =>
          refine h.came hdescription rfl ?_ (fun hmem => .inr (hknocking ▸ hmem)) ?_
          · intro hmem
            rw [hadmitted, List.mem_filter] at hmem
            have hne : id ≠ r.view.id c := of_decide_eq_true hmem.2
            exact ⟨fun htries => hne htries.1.symm, hmem.1⟩
          · rintro ⟨rfl, -⟩
            exact mine
      | pass lobby mine given child unlocked =>
          refine h.came hdescription rfl ?_ (fun hmem => .inr (hknocking ▸ hmem)) ?_
          · intro hmem
            rw [hadmitted] at hmem
            exact ⟨fun htries => hmine hmem mine htries.1, hmem⟩
          · intro hentry
            exact absurd ⟨given, h.hub ▸ child, by simp [unlocked]⟩ hentry.2.2.2.2
      | turned lobby mine error refusal =>
          refine h.came hdescription rfl ?_ (fun hmem => .inr (hknocking ▸ hmem)) ?_
          · intro hmem
            rw [hadmitted] at hmem
            exact ⟨fun htries => hmine hmem mine htries.1, hmem⟩
          · intro hentry
            exact absurd ((hrefused error rfl).symm.trans hentry.2.2.2.1) nofun
      | knocked lobby mine seat =>
          refine h.came hdescription rfl ?_ ?_ ?_
          · intro hmem
            rw [hadmitted] at hmem
            exact ⟨fun htries => hmine hmem mine htries.1, hmem⟩
          · intro hmem
            rw [hknocking, AList.mem_insert] at hmem
            rcases hmem with rfl | hold
            · exact .inl ⟨rfl, by simp [hsystem], by simp [hgranted.init, hop], hrefused _ rfl⟩
            · exact .inr hold
          · intro hentry
            exact absurd ((hrefused _ rfl).symm.trans hentry.2.2.2.1) nofun

omit [DecidableEq κ] in
theorem Kept.admitKnock (h : Kept child r id) (other : String) : Kept child (r.admitKnock other) id := by
  unfold Room.admitKnock Groups.admitKnock
  cases hk : r.group.knocking.lookup other with
  | none =>
      have hno : ∀ e, ¬ Event.Admits id (.admitKnock other (some e)) := fun e h => absurd h.2 nofun
      exact h.log rfl rfl (fun hmem => .inr ⟨fun h => h, fun h => h, hmem⟩)
        (fun hmem => .inr ⟨hno _, fun h => h, hmem⟩) False.elim fun h => absurd h (hno _)
  | some k =>
      refine h.log rfl rfl ?_ ?_ False.elim ?_
      · intro hmem
        rcases List.mem_cons.mp hmem with rfl | hold
        · exact .inl ⟨rfl, rfl⟩
        · exact .inr ⟨fun h => h, fun h => h, (List.mem_filter.mp hold).1⟩
      · intro hmem
        obtain ⟨hne, hold⟩ := AList.mem_erase.mp hmem
        exact .inr ⟨fun h => hne h.1.symm, fun h => h, hold⟩
      · rintro ⟨rfl, -⟩
        exact AList.lookup_isSome.mp (by rw [hk]; rfl)

omit [DecidableEq κ] in
/-- The id is dropped from both sets. -/
theorem Kept.drop (h : Kept child r id) {other : String} {e : Event}
    (hdescription : r'.group.description = r.group.description)
    (hknocking : r'.group.knocking = r.group.knocking.erase other)
    (hadmitted : r'.group.admitted = r.group.admitted.filter (· ≠ other)) (hlog : r'.log = e :: r.log)
    (he : e = .deny other none ∨ e = .removeKnock other) : Kept child r' id := by
  have hdrops : ∀ {i}, Event.Drops i e → i = other := by
    intro i hdrop
    rcases he with rfl | rfl
    · exact hdrop.1.symm
    · exact hdrop.symm
  have hquiet : ¬ Event.Tries id e ∧ ¬ Event.Admits id e ∧ ¬ Event.Entry child id e := by
    rcases he with rfl | rfl <;> exact ⟨fun h => h, fun h => h, fun h => h⟩
  refine h.log hdescription hlog ?_ ?_ (fun h => absurd h hquiet.2.2) fun h => absurd h hquiet.2.1
  · intro hmem
    rw [hadmitted, List.mem_filter] at hmem
    exact .inr ⟨hquiet.1, fun h => absurd (hdrops h) (by simpa using hmem.2), hmem.1⟩
  · intro hmem
    rw [hknocking, AList.mem_erase] at hmem
    exact .inr ⟨hquiet.2.1, fun h => hmem.1 (hdrops h), hmem.2⟩

omit [DecidableEq κ] in
theorem Kept.deny (h : Kept child r id) (other : String) : Kept child (r.deny other) id := by
  unfold Room.deny Groups.deny
  cases hk : r.group.knocking.lookup other with
  | none =>
      have hno : ∀ e, ¬ Event.Drops id (.deny other (some e)) := fun e h => absurd h.2 nofun
      exact h.log rfl rfl (fun hmem => .inr ⟨fun h => h, hno _, hmem⟩)
        (fun hmem => .inr ⟨fun h => h, hno _, hmem⟩) False.elim False.elim
  | some k => exact h.drop rfl rfl rfl rfl (.inl rfl)

omit [DecidableEq κ] in
theorem autoLockKick_keeps (v : View κ) (g : Groups.Group κ) :
    (Groups.autoLockKick v g).1.description = g.description ∧
      (Groups.autoLockKick v g).1.knocking = g.knocking ∧
        (Groups.autoLockKick v g).1.admitted = g.admitted ∧
          (Groups.autoLockKick v g).1.clients = g.clients := by
  unfold Groups.autoLockKick
  dsimp only
  split_ifs <;> exact ⟨rfl, rfl, rfl, rfl⟩

theorem Kept.step (h : Kept child r id) {a : Label κ} (hstep : Room.step r a = some r') :
    Kept child r' id := by
  cases a with
  | addClient c token permission now =>
      cases hstep
      exact h.addClient c token permission now
  | delClient c now =>
      obtain ⟨g, hg, rfl⟩ := Option.map_eq_some_iff.mp hstep
      unfold Groups.delClient at hg
      split at hg
      · cases hg
        exact h.of_same rfl rfl rfl rfl
      · cases hg
  | autoLockKick =>
      cases hstep
      obtain ⟨hdescription, hknocking, hadmitted, -⟩ := autoLockKick_keeps r.view r.group
      exact h.of_same hdescription hknocking hadmitted rfl
  | admitKnock other =>
      cases hstep
      exact h.admitKnock other
  | deny other =>
      cases hstep
      exact h.deny other
  | removeKnock other =>
      cases hstep
      exact h.drop rfl rfl rfl rfl (.inr rfl)
  | setLocked locked message =>
      cases hstep
      exact h.of_same rfl rfl rfl rfl
  | setLocked1on1 on =>
      cases hstep
      exact h.of_same rfl rfl rfl rfl
  | changePermissions c recording kind =>
      obtain ⟨perms, -, rfl⟩ := Option.map_eq_some_iff.mp hstep
      exact h.of_same rfl rfl rfl rfl
  | clear c =>
      dsimp only [Room.step] at hstep
      split at hstep
      · cases hstep
      · cases hstep
        exact h.of_same rfl rfl rfl rfl

theorem description_step {a : Label κ} (hstep : Room.step r a = some r') :
    r'.group.description = r.group.description := by
  cases a with
  | addClient c token permission now =>
      cases hstep
      exact (addSpec_addClient r.view r.group c token permission now).description
  | delClient c now =>
      obtain ⟨g, hg, rfl⟩ := Option.map_eq_some_iff.mp hstep
      unfold Groups.delClient at hg
      split at hg
      · cases hg
        rfl
      · cases hg
  | autoLockKick =>
      cases hstep
      exact (autoLockKick_keeps r.view r.group).1
  | admitKnock other =>
      cases hstep
      unfold Room.admitKnock Groups.admitKnock
      cases r.group.knocking.lookup other <;> rfl
  | deny other =>
      cases hstep
      unfold Room.deny Groups.deny
      cases r.group.knocking.lookup other <;> rfl
  | changePermissions c recording kind =>
      obtain ⟨perms, -, rfl⟩ := Option.map_eq_some_iff.mp hstep
      rfl
  | clear c =>
      dsimp only [Room.step] at hstep
      split at hstep
      · cases hstep
      · cases hstep
        rfl
  | _ =>
      cases hstep
      rfl

theorem kept_of_reachable (hr : Reachable (room κ) Always r)
    (hlobby : r.group.description.lobby = true) (id : String) :
    Kept r.group.description.isOperatorRoomChild r id := by
  refine Reachable.invariant (P := fun r : Room κ => r.group.description.lobby = true →
    Kept r.group.description.isOperatorRoomChild r id) ?_ ?_ hr hlobby
  · rintro r ⟨-, hknocking, hadmitted, hlog⟩ hlobby
    exact {
      lobby := hlobby
      hub := rfl
      admitted := fun hmem => by simp [hadmitted] at hmem
      waiting := fun hmem => absurd hmem (hknocking ▸ AList.notMem_empty id)
      entries := hlog ▸ .nil
      admissions := hlog ▸ .nil }
  · intro r a r' h _ hstep hlobby
    have hsame := description_step hstep
    rw [hsame] at hlobby ⊢
    exact (h hlobby).step hstep

/-- In every run of a group with a lobby, whoever comes in without a pass uses up an
admission, and every admission is the answer to a knock. -/
theorem gated_of_reachable (hr : Reachable (room κ) Always r)
    (hlobby : r.group.description.lobby = true) (id : String) :
    Gated r.group.description.isOperatorRoomChild r id := by
  have h := kept_of_reachable hr hlobby id
  refine ⟨h.entries, h.entries.countP_le ?_ ?_, h.admissions, h.admissions.countP_le ?_ ?_, ?_⟩
  · intro e hentry
    cases e with
    | addClient => exact ⟨hentry.1, hentry.2.1, hentry.2.2.1⟩
    | _ => exact hentry.elim
  · intro e hentry
    cases e with
    | addClient => exact fun h => h
    | _ => exact hentry.elim
  · exact fun _ h => h
  · intro e hadmit
    cases e with
    | admitKnock => exact fun h => h
    | _ => exact hadmit.elim
  · intro hidle
    have hnone : r.group.knocking.lookup id = none := AList.lookup_eq_none.mpr hidle
    refine ⟨.user "no such request", ?_, ?_, ?_, ?_⟩
    · simp [Groups.admitKnock, hnone]
    · simp [Groups.deny, hnone]
    · simp [Room.admitKnock, Groups.admitKnock, hnone]
    · simp [Room.deny, Groups.deny, hnone]

end Runs

section Samples

/-- A client's room under an operator's hub, where nobody is yet. -/
def clientRoom : Room ℕ where
  group := { name := "hub/client", description := { lobby := true, isOperatorRoomChild := true } }
  view := {
    id := fun n => if n = 0 then "operator" else "visitor", username := fun _ => ""
    permissions := fun _ => [], data := fun _ => [] }

theorem clientRoom_init : (room ℕ).init clientRoom := ⟨rfl, rfl, rfl, rfl⟩

/-- A visitor knocks, is admitted and comes in. -/
def visit : List (Label ℕ) :=
  [.addClient 1 "link" (.ok ("visitor", ["present"])) 1, .admitKnock "visitor",
    .addClient 1 "link" (.ok ("visitor", ["present"])) 2]

theorem gated_visit : ∃ r, (room ℕ).exec Always clientRoom visit = some r ∧
    r.log.countP (Event.Entry true "visitor") = 1 ∧
      Gated r.group.description.isOperatorRoomChild r "visitor" := by
  obtain ⟨r, hr, hlobby, hentry⟩ : ∃ r ∈ (room ℕ).exec Always clientRoom visit,
      r.group.description.lobby = true ∧ r.log.countP (Event.Entry true "visitor") = 1 := by
    decide +kernel
  exact ⟨r, hr, hentry, gated_of_reachable (.exec (.init clientRoom_init) hr) hlobby "visitor"⟩

end Samples

end Sozvon.Lobby
