import Sozvon.UserTables

/-!
# Steps that tell nothing

What is on its way about a user, and what holds between that and the tables of the
members in every orderly run. Most steps say nothing about anybody, and keep it.
-/
namespace Sozvon.Roster
open Groups UserEvents

section Invariant

variable {w w' : World} {n g : ℕ}

/-- A call to client `n` that tells about a user of the group is on its way. -/
def Coming (w : World) (n : ℕ) (name kind id : String) (u : User) : Prop :=
  ∃ p ∈ w.pushes,
    (n, .call (.pushClient name kind id u.username u.permissions u.data)) ∈ p.calls

/-- What member `n` has been told of a user, and will be, says whether the user
is there and how the user is, unless the user still has to tell it. -/
structure Told (w : World) (n g : ℕ) (id : String) : Prop where
  absent : (w.rooms g).clients.lookup id = none →
    (∀ kind u, Coming w n (w.rooms g).name kind id u → kind = "delete") ∧
      ((tableOf (w.clients n) (w.rooms g).name).own id = none ∨
        ∃ kind u, Coming w n (w.rooms g).name kind id u)
  present : ∀ k, (w.rooms g).clients.lookup id = some k →
    ((tableOf (w.clients n) (w.rooms g).name).own id).isSome ∧
      (∀ kind u, Coming w n (w.rooms g).name kind id u →
        kind = "change" ∧ (Owes (w.clients k) ∨ u = (w.clients k).user)) ∧
      (Owes (w.clients k) ∨
        (tableOf (w.clients n) (w.rooms g).name).own id = some (w.clients k).user ∨
        ∃ kind u, Coming w n (w.rooms g).name kind id u)

/-- The table takes notice of nothing else that is on its way. -/
def Plain : Action → Prop
  | .call (.joined ..) => False
  | _ => True

structure Inv (w : World) : Prop where
  seats : ∀ g id n, (w.rooms g).clients.lookup id = some n ↔
    (w.clients n).id = id ∧ roomOf (w.clients n) = some g
  apart : ∀ n g token, (w.clients n).pc = .joining g token → (w.clients n).group = none
  cleared : ∀ n, roomOf (w.clients n) = none → ¬ Ending (w.clients n) → Cleared (w.clients n)
  keyed : ∀ n g, roomOf (w.clients n) = some g → (w.clients n).id ≠ "__proto__"
  told : ∀ n g, roomOf (w.clients n) = some g → ¬ Ending (w.clients n) → ∀ id, Told w n g id
  plain : ∀ p ∈ w.pushes, ∀ q ∈ p.calls, Plain q.2

/-- Nothing changes for member `n` about a user, unless the user still has to tell
it. -/
theorem Told.transfer {id : String} (h : Told w n g id)
    (hlookup : (w'.rooms g).clients.lookup id = (w.rooms g).clients.lookup id)
    (hname : (w'.rooms g).name = (w.rooms g).name)
    (hown : (tableOf (w'.clients n) (w.rooms g).name).own id =
      (tableOf (w.clients n) (w.rooms g).name).own id)
    (hcoming : ∀ kind u, Coming w' n (w.rooms g).name kind id u ↔
      Coming w n (w.rooms g).name kind id u)
    (huser : ∀ k, (w.rooms g).clients.lookup id = some k → Owes (w'.clients k) ∨
      ((w'.clients k).user = (w.clients k).user ∧ (Owes (w.clients k) → Owes (w'.clients k)))) :
    Told w' n g id := by
  constructor
  · rw [hlookup, hname, hown]
    simp only [hcoming]
    exact h.absent
  · intro k hk
    rw [hlookup] at hk
    rw [hname, hown]
    simp only [hcoming]
    obtain ⟨hknown, hflight, hstands⟩ := h.present k hk
    rcases huser k hk with howes | ⟨hsame, howes⟩
    · exact ⟨hknown, fun kind u hcome => ⟨(hflight kind u hcome).1, .inl howes⟩, .inl howes⟩
    · rw [hsame]
      exact ⟨hknown, fun kind u hcome => (hflight kind u hcome).imp_right (.imp_left howes),
        hstands.imp_left howes⟩

/-- A member has been told of a user as the user is, and nothing is on its way. -/
theorem told_of_own {id : String} (hcoming : ∀ kind u, ¬ Coming w n (w.rooms g).name kind id u)
    (hown : (tableOf (w.clients n) (w.rooms g).name).own id = w.member g id) : Told w n g id := by
  constructor
  · intro hlookup
    rw [World.member, hlookup] at hown
    exact ⟨fun kind u hcome => absurd hcome (hcoming kind u), .inl hown⟩
  · intro k hlookup
    rw [World.member, hlookup] at hown
    refine ⟨?_, fun kind u hcome => absurd hcome (hcoming kind u), .inr (.inl hown)⟩
    rw [hown]
    rfl

/-- A step that tells no group anything about its members. -/
theorem Inv.kept (h : Inv w)
    (hrooms : ∀ g, (w'.rooms g).clients = (w.rooms g).clients ∧
      (w'.rooms g).name = (w.rooms g).name)
    (hclients : ∀ n, Kept (fun g => (w.rooms g).name) (w.clients n) (w'.clients n))
    (hcoming : ∀ n name kind id u, Coming w' n name kind id u ↔ Coming w n name kind id u)
    (hplain : ∀ p ∈ w'.pushes, ∀ q ∈ p.calls, Plain q.2) : Inv w' where
  seats g id n := by
    rw [(hrooms g).1, (hclients n).id, (hclients n).present]
    exact h.seats g id n
  apart n := (hclients n).apart (h.apart n)
  cleared n hn hlive := by
    have hn' : roomOf (w.clients n) = none := (hclients n).present.symm.trans hn
    exact (hclients n).cleared hn' hlive (h.cleared n hn' fun he => hlive ((hclients n).ending he))
  keyed n g hn := by
    rw [(hclients n).id]
    exact h.keyed n g ((hclients n).present.symm.trans hn)
  told n g hn hlive id := by
    have hn' : roomOf (w.clients n) = some g := (hclients n).present.symm.trans hn
    have htold := h.told n g hn' (fun he => hlive ((hclients n).ending he)) id
    refine htold.transfer (congrArg (AList.lookup id) (hrooms g).1) (hrooms g).2
      (by rw [(hclients n).table g hn' hlive]) (fun kind u => hcoming ..) fun k hk => ?_
    have hk' : roomOf (w.clients k) ≠ none := by
      rw [((h.seats g id k).mp hk).2]
      exact Option.some_ne_none g
    exact ((hclients k).user hk').imp_right fun hsame => ⟨hsame, (hclients k).owes hk'⟩
  plain := hplain

/-- A call that tells nobody anything. -/
def Silent (a : Action) : Prop := ∀ name, a.tells name = false

theorem coming_append {pushes : List Push} (h : ∀ p ∈ pushes, ∀ q ∈ p.calls, Silent q.2)
    (hpushes : w'.pushes = w.pushes ++ pushes) (n : ℕ) (name kind id : String) (u : User) :
    Coming w' n name kind id u ↔ Coming w n name kind id u := by
  simp only [Coming, hpushes, List.mem_append]
  constructor
  · rintro ⟨p, hp | hp, hmem⟩
    · exact ⟨p, hp, hmem⟩
    · have htells := h p hp _ hmem name
      exact absurd htells (by simp [Action.tells])
  · rintro ⟨p, hp, hmem⟩
    exact ⟨p, .inl hp, hmem⟩

theorem calm_callsFor {calls : List (ℕ × Action)} (h : ∀ q ∈ calls, Calm q.2) (n : ℕ) :
    ∀ a ∈ callsFor n calls, Calm a := by
  intro a ha
  obtain ⟨q, hq, rfl⟩ := List.mem_map.mp ha
  exact h q (List.mem_filter.mp hq).1

/-- A reply that says nothing about anybody. -/
structure Mute (w : World) (n : ℕ) (r : Reply) : Prop where
  rooms : ∀ g, (r.rooms g).clients = (w.rooms g).clients ∧ (r.rooms g).name = (w.rooms g).name
  client : Kept (fun g => (w.rooms g).name) (w.clients n) r.client
  calls : ∀ q ∈ r.calls, Calm q.2
  pushes : ∀ p ∈ r.pushes, ∀ q ∈ p.calls, Silent q.2 ∧ Plain q.2

theorem Inv.commit (h : Inv w) {r : Reply} (hr : Mute w n r) : Inv (w.commit n r) := by
  refine h.kept hr.rooms (fun k => ?_)
    (coming_append (fun p hp q hq => (hr.pushes p hp q hq).1) rfl) fun p hp q hq => ?_
  · have hkept : Kept (fun g => (w.rooms g).name) (w.clients k)
        (Function.update w.clients n r.client k) := by
      by_cases hk : k = n
      · subst hk
        rw [Function.update_self]
        exact hr.client
      · rw [Function.update_of_ne hk]
        exact .refl ..
    exact hkept.trans (kept_append _ (calm_callsFor hr.calls k))
  · rcases List.mem_append.mp hp with hp | hp
    · exact h.plain p hp q hq
    · exact (hr.pushes p hp q hq).2

/-- A reply that only goes on with the client. -/
theorem mute_reply {c : Client} (h : Kept (fun g => (w.rooms g).name) (w.clients n) c) :
    Mute w n (w.reply c) :=
  ⟨fun _ => ⟨rfl, rfl⟩, h, List.forall_mem_nil _, List.forall_mem_nil _⟩

end Invariant

section Handlers

variable {w : World} {n : ℕ}

theorem mute_issue {a : Action} (hpc : (w.clients n).pc = .ready []) (dest : String)
    (hsilent : Silent a) (hplain : Plain a) : Mute w n (issue w n (w.clients n) dest a) := by
  rw [issue]
  split
  · exact mute_reply (.refl ..)
  next g hgroup =>
    split_ifs
    · split
      · exact mute_reply (.refl ..)
      next t _ =>
        refine ⟨fun _ => ⟨rfl, rfl⟩, ?_, List.forall_mem_nil _, ?_⟩
        · exact kept_turn hpc rfl rfl (.inr rfl) rfl rfl rfl (by simp [World.reply])
        · simp only [List.mem_singleton, forall_eq]
          exact ⟨hsilent, hplain⟩
    · exact mute_reply (.refl ..)

theorem mute_useraction (hpc : (w.clients n).pc = .ready []) (kind dest : String) :
    Mute w n (useraction w n (w.clients n) kind dest) := by
  rw [useraction]
  split_ifs
  · exact mute_reply (kept_fail hpc)
  · exact mute_issue hpc dest (fun _ => rfl) trivial

theorem mute_kick (hpc : (w.clients n).pc = .ready []) (source : String) (username : Option String)
    (dest message : String) : Mute w n (kick w n (w.clients n) source username dest message) :=
  mute_issue hpc dest (fun _ => rfl) trivial

theorem mute_handleAction {a : Action} {rest : List Action}
    (hpc : (w.clients n).pc = .ready (a :: rest))
    (ha : a = .permissionsChanged → (w.clients n).group = none) :
    Mute w n (handleAction w { w.clients n with pc := .ready rest } a) := by
  have hfail : Mute w n (w.reply (w.clients n).fail) := mute_reply (kept_fail hpc)
  cases a with
  | call call =>
      cases call with
      | pushClient group kind id username permissions data =>
          simp only [handleAction]
          split
          next hgroup =>
            refine mute_reply (kept_drop hpc (by simp) (fun g hg => ?_) fun _ => rfl)
            exact absurd (hgroup.symm.trans hg) (by simp)
          next g hgroup =>
            have hsame {g' : ℕ} (hg : (w.clients n).group = some g') : g' = g :=
              Option.some.inj (hg.symm.trans hgroup)
            split_ifs with hname
            · refine mute_reply (kept_drop hpc (by simp) (fun g' hg => ?_) fun _ => rfl)
              rw [hsame hg]
              exact if_neg hname
            · refine mute_reply (kept_written hpc (by simp) (fun g' hg => ?_) fun hnone => ?_)
              · rw [hsame hg]
                exact if_pos (not_not.mp hname)
              · exact absurd (hgroup.symm.trans hnone) (by simp)
      | joined group kind =>
          refine mute_reply (kept_written hpc (by simp) (fun _ _ => rfl) fun _ => ?_)
          by_cases hkind : kind = "leave" ∨ kind = "fail"
          · exact .inr ⟨kind, rfl, hkind⟩
          · exact .inl ⟨not_or.mp hkind, decide_eq_false (not_or.mp hkind).1⟩
      | kick id username message => exact hfail
  | changePermissions kind =>
      simp only [handleAction]
      split
      · exact hfail
      next permissions _ =>
        have hdrop : Kept (fun g => (w.rooms g).name) (w.clients n)
            { w.clients n with pc := .ready rest } :=
          kept_drop hpc (by simp) (fun _ _ => rfl) fun _ => rfl
        exact mute_reply (hdrop.trans (kept_permissions permissions rfl))
  | permissionsChanged =>
      simp only [handleAction]
      split
      · exact hfail
      next g hgroup => exact absurd (hgroup.symm.trans (ha rfl)) (by simp)

end Handlers

section Sections

variable {v : View ℕ} {room : Groups.Group ℕ} {w : World} {n : ℕ}

theorem calm_pushClient {group kind id username : String} {permissions : Permissions} {data : Data}
    (h : kind ≠ "add" ∧ kind ≠ "change" ∧ kind ≠ "delete") :
    Calm (.call (.pushClient group kind id username permissions data)) := by
  intro name m hm
  simp only [messageOf, Option.mem_def, Option.ite_none_right_eq_some, Option.some.injEq] at hm
  obtain ⟨-, rfl⟩ := hm
  exact h

theorem calm_joined {group kind : String} (h : kind ≠ "leave" ∧ kind ≠ "fail") :
    Calm (.call (.joined group kind)) := by
  intro name m hm
  cases hm
  exact h

theorem calm_change (members : List ℕ) (name : String) :
    ∀ q ∈ quiet (members.map fun c => (c, .joined name "change")), Calm q.2 := by
  intro q hq
  simp only [quiet, List.map_map, List.mem_map] at hq
  obtain ⟨c, -, rfl⟩ := hq
  exact calm_joined (by simp)

theorem calm_notifyKnock {kind : String} (h : kind ≠ "add" ∧ kind ≠ "change" ∧ kind ≠ "delete")
    (ops : List ℕ) (id username : String) :
    ∀ q ∈ quiet (notifyKnock room ops kind id username), Calm q.2 := by
  intro q hq
  simp only [quiet, notifyKnock, List.map_map, List.mem_map] at hq
  obtain ⟨c, -, rfl⟩ := hq
  exact calm_pushClient h

theorem calm_answer (ops : List ℕ) (id username kind : String) (c : ℕ)
    (h : kind ≠ "leave" ∧ kind ≠ "fail") :
    ∀ q ∈ quiet (notifyKnock room ops "knockcancel" id username ++ [(c, .joined room.name kind)]),
      Calm q.2 := by
  intro q hq
  rw [quiet, List.map_append, List.mem_append] at hq
  rcases hq with hq | hq
  · exact calm_notifyKnock (by simp) ops id username q hq
  · simp only [List.map_cons, List.map_nil, List.mem_singleton] at hq
    subst hq
    exact calm_joined h

/-- What a section of the group that is not about its members leaves of it. -/
structure Aside (room : Groups.Group ℕ) (r : Groups.Group ℕ × List (ℕ × Call) × List Push) :
    Prop where
  clients : r.1.clients = room.clients
  name : r.1.name = room.name
  calls : ∀ q ∈ quiet r.2.1, Calm q.2
  pushes : ∀ p ∈ r.2.2, ∀ q ∈ p.calls, Silent q.2 ∧ Plain q.2

theorem silent_kicks (members : List ℕ) (message : String) :
    ∀ p ∈ [({ calls := members.map fun m => (m, .call (.kick "" none message)) } : Push)],
      ∀ q ∈ p.calls, Silent q.2 ∧ Plain q.2 := by
  simp only [List.mem_singleton, forall_eq, List.mem_map]
  rintro _ ⟨c, -, rfl⟩
  exact ⟨fun _ => rfl, trivial⟩

theorem silent_kicked (members : List ℕ) :
    ∀ p ∈ kicked members, ∀ q ∈ p.calls, Silent q.2 ∧ Plain q.2 := by
  rw [kicked]
  split_ifs
  · exact List.forall_mem_nil _
  · exact silent_kicks members _

theorem calm_autoLockKick (v : View ℕ) (room : Groups.Group ℕ) :
    ∀ q ∈ quiet (Groups.autoLockKick v room).2.1, Calm q.2 := by
  have hcalls : (Groups.autoLockKick v room).2.1 = [] ∨ (Groups.autoLockKick v room).2.1 =
      room.members.map fun c => (c, .joined room.name "change") := by
    unfold Groups.autoLockKick
    split_ifs
    · exact .inl rfl
    · exact .inl rfl
    all_goals exact (ite_eq_or_eq _ _ _).symm
  rcases hcalls with hcalls | hcalls <;> rw [hcalls]
  · exact List.forall_mem_nil _
  · exact calm_change _ _

theorem aside_autoLockKick (v : View ℕ) (room : Groups.Group ℕ) :
    Aside room ((Groups.autoLockKick v room).1, (Groups.autoLockKick v room).2.1,
      kicked (Groups.autoLockKick v room).2.2) :=
  ⟨GroupTable.autoLockKick_clients v room, (GroupTable.keeps_autoLockKick v room).name,
    calm_autoLockKick v room, silent_kicked _⟩

theorem aside_run (s : Section) (v : View ℕ) (room : Groups.Group ℕ) :
    Aside room (s.run v room) := by
  have hnone : Aside room (room, [], []) :=
    ⟨rfl, rfl, List.forall_mem_nil _, List.forall_mem_nil _⟩
  cases s with
  | describe description => exact ⟨rfl, rfl, List.forall_mem_nil _, List.forall_mem_nil _⟩
  | notify => exact ⟨rfl, rfl, calm_change _ _, List.forall_mem_nil _⟩
  | setLocked locked message => exact ⟨rfl, rfl, calm_change _ _, List.forall_mem_nil _⟩
  | setLocked1on1 on => exact ⟨rfl, rfl, calm_change _ _, List.forall_mem_nil _⟩
  | admitKnock id =>
      simp only [Section.run, Groups.admitKnock]
      cases room.knocking.lookup id with
      | none => exact hnone
      | some k => exact ⟨rfl, rfl, calm_answer _ _ _ _ _ (by simp), List.forall_mem_nil _⟩
  | deny id =>
      simp only [Section.run, Groups.deny]
      cases room.knocking.lookup id with
      | none => exact hnone
      | some k => exact ⟨rfl, rfl, calm_answer _ _ _ _ _ (by simp), List.forall_mem_nil _⟩
  | removeKnock id =>
      simp only [Section.run, Groups.removeKnock]
      cases room.knocking.lookup id with
      | none => exact ⟨rfl, rfl, List.forall_mem_nil _, List.forall_mem_nil _⟩
      | some k => exact ⟨rfl, rfl, calm_notifyKnock (by simp) _ _ _, List.forall_mem_nil _⟩
  | autoLockKick => exact aside_autoLockKick v room
  | shutdown message => exact ⟨rfl, rfl, calm_change _ _, silent_kicks _ _⟩

theorem rooms_update {g : ℕ} (hclients : room.clients = (w.rooms g).clients)
    (hname : room.name = (w.rooms g).name) (g' : ℕ) :
    (Function.update w.rooms g room g').clients = (w.rooms g').clients ∧
      (Function.update w.rooms g room g').name = (w.rooms g').name := by
  by_cases hg : g' = g
  · subst hg
    rw [Function.update_self]
    exact ⟨hclients, hname⟩
  · rw [Function.update_of_ne hg]
    exact ⟨rfl, rfl⟩

/-- The call that tells about member `k` as the group sees it. -/
def addOf (v : View ℕ) (name : String) (k : ℕ) : Action :=
  .call (.pushClient name "add" (v.id k) (v.username k) (v.permissions k) (v.data k))

/-- The calls for a client that becomes a member: it hears of everyone and
everyone hears of it. -/
structure Enters (v : View ℕ) (room : Groups.Group ℕ) (n : ℕ) (calls : List (ℕ × Action)) :
    Prop where
  only : ∀ q ∈ calls, Calm q.2 ∨ ∃ k, q.2 = addOf v room.name k ∧
    ((q.1 = n ∧ (k = n ∨ k ∈ room.members)) ∨ (k = n ∧ q.1 ∈ room.members))
  self : (n, addOf v room.name n) ∈ calls
  others : ∀ k ∈ room.members,
    (n, addOf v room.name k) ∈ calls ∧ (k, addOf v room.name n) ∈ calls

theorem enters_enter {now : ℕ} (h : (enter v room n now).2.1 = none) :
    Enters v room n (quiet (enter v room n now).2.2) := by
  rcases enter_cases v room n now with ⟨herror, -⟩ | ⟨-, hid, hfree, -⟩
  · exact absurd h herror
  have hcalls : (enter v room n now).2.2 =
      [(n, .joined room.name "join"), (n, .pushClient room.name "add" (v.id n) (v.username n)
        (v.permissions n) (v.data n))] ++
      room.members.flatMap (fun k =>
        [(n, .pushClient room.name "add" (v.id k) (v.username k) (v.permissions k) (v.data k)),
          (k, .pushClient room.name "add" (v.id n) (v.username n) (v.permissions n) (v.data n))]) ++
      if "op" ∈ v.permissions n then
        room.knocking.entries.map fun k =>
          (n, .pushClient room.name "knock" k.1 k.2.username [] [])
      else [] := by
    rw [enter, if_neg hid, if_neg (by simp [hfree])]
  rw [hcalls]
  constructor
  · intro q hq
    simp only [quiet, List.map_append, List.mem_append, List.map_flatMap, List.mem_flatMap] at hq
    rcases hq with (hq | ⟨k, hk, hq⟩) | hq
    · simp only [List.map_cons, List.map_nil, List.mem_cons, List.not_mem_nil, or_false] at hq
      rcases hq with rfl | rfl
      · exact .inl (calm_joined (by simp))
      · exact .inr ⟨n, rfl, .inl ⟨rfl, .inl rfl⟩⟩
    · simp only [List.map_cons, List.map_nil, List.mem_cons, List.not_mem_nil, or_false] at hq
      rcases hq with rfl | rfl
      · exact .inr ⟨k, rfl, .inl ⟨rfl, .inr hk⟩⟩
      · exact .inr ⟨n, rfl, .inr ⟨rfl, hk⟩⟩
    · split_ifs at hq
      · simp only [List.map_map, List.mem_map] at hq
        obtain ⟨k, -, rfl⟩ := hq
        exact .inl (calm_pushClient (by simp))
      · exact absurd hq List.not_mem_nil
  · simp [quiet, addOf]
  · intro k hk
    simp only [quiet, List.map_append, List.mem_append, List.map_flatMap, List.mem_flatMap]
    exact ⟨.inl (.inr ⟨k, hk, by simp [addOf]⟩), .inl (.inr ⟨k, hk, by simp [addOf]⟩)⟩

theorem enter_calls {now : ℕ} (h : (enter v room n now).2.1 ≠ none) :
    (enter v room n now).2.2 = [] := by
  revert h
  unfold enter
  dsimp only
  split_ifs
  · exact fun _ => rfl
  · exact fun _ => rfl
  all_goals exact fun h => absurd rfl h

theorem calm_passDoor (token username : String) (perms : Permissions) :
    ∀ q ∈ quiet (passDoor v room n token username perms).2.2, Calm q.2 := by
  simp only [passDoor]
  split_ifs
  any_goals exact List.forall_mem_nil _
  cases seatErrorUnlocked room perms with
  | none => exact calm_notifyKnock (by simp) _ _ _
  | some err => exact calm_notifyKnock (by simp) _ _ _

theorem calm_gate (token username : String) (perms : Permissions) (now : ℕ) :
    ∀ q ∈ quiet (gate v room n token username perms now).2.2, Calm q.2 := by
  simp only [gate]
  split_ifs
  · exact List.forall_mem_nil _
  · exact calm_passDoor token username perms

/-- The group's view of its clients once a client has been given a name and
permissions. -/
def after (v : View ℕ) (n : ℕ) (init : Option (String × Permissions)) : View ℕ :=
  init.elim v fun i => v.init n i.1 i.2

/-- What `AddClient` says: nothing of a client it refuses. -/
theorem calls_addClient (v : View ℕ) (room : Groups.Group ℕ) (n : ℕ) (token : String)
    (permission : Except Error (String × Permissions)) (now : ℕ) :
    ((addClient v room n token permission now).error ≠ none →
      ∀ q ∈ quiet (addClient v room n token permission now).calls, Calm q.2) ∧
    ((addClient v room n token permission now).error = none →
      Enters (after v n (addClient v room n token permission now).init) room n
        (quiet (addClient v room n token permission now).calls)) := by
  unfold addClient
  split_ifs
  · refine ⟨fun herror => ?_, enters_enter⟩
    change ∀ q ∈ quiet (enter v room n now).2.2, Calm q.2
    rw [enter_calls herror]
    exact List.forall_mem_nil _
  · cases permission with
    | error e => exact ⟨fun _ => List.forall_mem_nil _, fun h => absurd h (by simp)⟩
    | ok granted =>
        obtain ⟨username, perms⟩ := granted
        have hcalm :
            ∀ q ∈ quiet (gate (v.init n username perms) room n token username perms now).2.2,
            Calm q.2 := calm_gate token username perms now
        obtain ⟨hclients, hname, -⟩ := gate_keeps (v := v.init n username perms) (g := room)
          (c := n) token username perms now
        cases hgate : (gate (v.init n username perms) room n token username perms now).2.1 with
        | some error =>
            simp only [hgate]
            exact ⟨fun _ => hcalm, fun h => absurd h (by simp)⟩
        | none =>
            simp only [hgate, quiet, List.map_append]
            constructor
            · intro herror
              rw [enter_calls herror, List.map_nil, List.append_nil]
              exact hcalm
            · intro herror
              have henters := enters_enter herror
              have hmembers :
                  (gate (v.init n username perms) room n token username perms now).1.members =
                  room.members := by rw [Group.members, hclients, Group.members]
              constructor
              · intro q hq
                rcases List.mem_append.mp hq with hq | hq
                · exact .inl (hcalm q hq)
                · have honly := henters.only q hq
                  rwa [hname, hmembers] at honly
              · exact List.mem_append_right _ (hname ▸ henters.self)
              · intro k hk
                have hothers := henters.others k (hmembers.symm ▸ hk)
                rw [hname] at hothers
                exact ⟨List.mem_append_right _ hothers.1, List.mem_append_right _ hothers.2⟩

theorem mute_refused {g now : ℕ} {token : String}
    {permission : Except Error (String × Permissions)}
    (hpc : (w.clients n).pc = .joining g token)
    (hgroup : (w.clients n).group = none)
    (herror : (addClient w.view (w.rooms g) n token permission now).error ≠ none) :
    Mute w n (lockGroup w n (w.clients n) g token permission now) := by
  have hspec := addSpec_addClient w.view (w.rooms g) n token permission now
  have hclients : (addClient w.view (w.rooms g) n token permission now).group.clients =
      (w.rooms g).clients := by
    rcases hspec.clients with ⟨-, hclients⟩ | ⟨hnone, -⟩
    · exact hclients
    · exact absurd hnone herror
  have hroom : roomOf (w.clients n) = none := by rw [roomOf, hpc, hgroup]
  refine ⟨rooms_update hclients hspec.name, ?_, (calls_addClient ..).1 herror,
    List.forall_mem_nil _⟩
  obtain ⟨e, he⟩ := Option.ne_none_iff_exists'.mp herror
  have hqueue (c : Client) (hc : c.pc = .ready []) (hactions : c.actions = (w.clients n).actions) :
      queueOf c = queueOf (w.clients n) := by
    rw [queueOf_ready hc, hactions, queueOf, hpc]
    rfl
  have hwrite (c : Client) (m : Message) (hid : c.id = (w.clients n).id) (hc : c.pc = .ready [])
      (hactions : c.actions = (w.clients n).actions) (hwire : c.wire = (w.clients n).wire)
      (husers : c.users = (w.clients n).users) (hgroup : c.group = none)
      (hm : Quiet m ∨ ∃ kind, m = .joined kind ∧ (kind = "leave" ∨ kind = "fail")) :
      Kept (fun g => (w.rooms g).name) (w.clients n) (c.write m) := by
    refine kept_outside hid hroom ((roomOf_ready (c := c.write m) hc).trans hgroup)
      (by simp [Ending, hpc]) (fun _ hcleared => cleared_write hm ?_) (by simp [Client.write, hc])
    exact hcleared.congr (hqueue c hc hactions) hwire husers
  simp only [lockGroup, he]
  by_cases hknock : e = .knocking
  · subst hknock
    exact hwrite _ _ rfl rfl rfl rfl rfl hgroup (.inl ⟨by simp, by simp⟩)
  · cases e
    case knocking => exact absurd rfl hknock
    all_goals exact hwrite _ _ rfl rfl rfl rfl rfl hgroup (.inr ⟨_, rfl, .inr rfl⟩)

end Sections

end Sozvon.Roster
