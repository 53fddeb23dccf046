import Sozvon.ClientSteps

/-!
# Membership agreement

A web client is in the member map of a group exactly while its own `group` is
that group, as seen between two steps of its loop. Inside a handler the two
sides are written one after the other; `seat` says on which side the client
counts at each point, and `Seated` is the invariant.

The redirect at the end of a join is the one exit that does not restore the
agreement: the client has been let in and goes on without a group.
-/
namespace Sozvon.WebClients
open Groups GroupTable Runs

/-- The group a client that stands at `pc` is a member of. -/
def seatOf (pc : Pc) (group : Option ℕ) : Option ℕ :=
  match pc with
  | .joined g => some g
  | .leaving .lock _ | .leaving .clear _ | .ended => none
  | _ => group

def WebClient.seat (c : WebClient) : Option ℕ := seatOf c.pc c.group

/-- A client that is joining has no group yet, and one that has ended none any more. -/
def WebClient.Placed (c : WebClient) : Prop :=
  match c.pc with
  | .joining .. | .joined _ | .knocked _ | .ended => c.group = none
  | _ => True

/-- Only group objects that exist have members, are registered or looked up. -/
structure Founded (w : World) : Prop where
  fresh : Fresh w.registry
  bounded : w.registry.Bounded
  joining : ∀ n g name token, (w.clients n).pc = .joining g name token → g < w.registry.size

structure Seated (w : World) : Prop extends Founded w where
  placed : ∀ n, (w.clients n).Placed
  keys : ∀ g id n, (w.room g).clients.lookup id = some (.web n) → id = (w.clients n).id
  seats : ∀ n g, .web n ∈ (w.room g).members ↔ (w.clients n).seat = some g

theorem seat_finish (ending : Bool) : seatOf (finish ending) none = none := by
  cases ending <;> rfl

/-- `leaveGroup` keeps a client's seat up to the lock section of `DelClient`. -/
theorem seat_leaveGroup {w : World} {n : ℕ} {c : WebClient} {stage : LeaveStage} {ending : Bool}
    (now : ℕ) (hpc : c.pc = .leaving stage ending) :
    (w.registry.Same (leaveGroup w n c stage ending now).registry ∧
        (leaveGroup w n c stage ending now).client.seat = c.seat) ∨
      ∃ g, c.seat = some g ∧
        ((delClient w.view (w.room g) (.web n) now = none ∧
          (leaveGroup w n c stage ending now).registry = w.registry ∧
            (leaveGroup w n c stage ending now).client.pc = .leaving .clear ending) ∨
        ∃ room, delClient w.view (w.room g) (.web n) now = some room ∧
          (leaveGroup w n c stage ending now).registry = w.registry.set g room ∧
            (leaveGroup w n c stage ending now).client.pc = .leaving .lock ending) := by
  unfold leaveGroup
  cases stage with
  | knock =>
      have hseat : seatOf (if c.group = none then finish ending else .leaving .conns ending) c.group =
          c.seat := by
        simp only [WebClient.seat, hpc, seatOf]
        split_ifs with hgroup
        · rw [hgroup]
          exact seat_finish ending
        · rfl
      dsimp only
      split
      · exact .inl ⟨.refl _, hseat⟩
      · exact .inl ⟨Registry.same_set rfl, hseat⟩
  | conns => exact .inl ⟨.refl _, by rw [WebClient.seat, WebClient.seat, hpc]; rfl⟩
  | member =>
      have hseat : c.seat = c.group := by rw [WebClient.seat, hpc]; rfl
      dsimp only
      split
      · rename_i hgroup
        refine .inl ⟨.refl _, ?_⟩
        rw [hseat, hgroup]
        exact seat_finish ending
      · rename_i g hgroup
        refine .inr ⟨g, hseat.trans hgroup, ?_⟩
        cases hdel : delClient w.view (w.room g) (.web n) now with
        | none => exact .inl ⟨rfl, rfl, rfl⟩
        | some room => exact .inr ⟨room, rfl, rfl, rfl⟩
  | lock =>
      have hseat : c.seat = none := by rw [WebClient.seat, hpc]; rfl
      dsimp only
      split
      · rename_i hgroup
        have hfinish : seatOf (finish ending) c.group = none := by
          rw [hgroup]
          exact seat_finish ending
        exact .inl ⟨.refl _, hfinish.trans hseat.symm⟩
      · exact .inl ⟨Registry.same_set (autoLockKick_clients _ _), hseat.symm⟩
  | clear =>
      refine .inl ⟨.refl _, ?_⟩
      rw [WebClient.seat, WebClient.seat, hpc]
      exact seat_finish ending

theorem pc_leaveGroup (w : World) (n : ℕ) (c : WebClient) (stage : LeaveStage) (ending : Bool)
    (now : ℕ) : (∃ stage', (leaveGroup w n c stage ending now).client.pc = .leaving stage' ending) ∨
      (leaveGroup w n c stage ending now).client.pc = finish ending ∧
        (leaveGroup w n c stage ending now).client.group = none := by
  unfold leaveGroup
  cases stage with
  | knock =>
      by_cases hgroup : c.group = none
      · dsimp only
        split
        · exact .inr ⟨if_pos hgroup, hgroup⟩
        · exact .inr ⟨if_pos hgroup, hgroup⟩
      · dsimp only
        split
        · exact .inl ⟨.conns, if_neg hgroup⟩
        · exact .inl ⟨.conns, if_neg hgroup⟩
  | conns => exact .inl ⟨.member, rfl⟩
  | member =>
      dsimp only
      split
      · exact .inr ⟨rfl, by assumption⟩
      split
      · exact .inl ⟨.clear, rfl⟩
      · exact .inl ⟨.lock, rfl⟩
  | lock =>
      dsimp only
      split
      · exact .inr ⟨rfl, by assumption⟩
      · exact .inl ⟨.clear, rfl⟩
  | clear => exact .inr ⟨rfl, rfl⟩

section Founded
variable {w t : World} {n : ℕ} {r : Reply}

theorem Founded.commit (h : Founded w) (hsize : w.registry.size ≤ r.registry.size)
    (hfresh : Fresh r.registry) (hbounded : r.registry.Bounded)
    (hjoining : ∀ g name token, r.client.pc = .joining g name token → g < r.registry.size) :
    Founded (w.commit n r) := by
  refine ⟨hfresh, hbounded, ?_⟩
  intro m g name token hpc
  by_cases hm : m = n
  · subst m
    rw [commit_self] at hpc
    exact hjoining g name token hpc
  · rw [commit_of_ne hm] at hpc
    exact Nat.lt_of_lt_of_le (h.joining m g name token hpc) hsize

theorem Founded.commit_same (h : Founded w) (hregistry : w.registry.Same r.registry)
    (hjoining : ∀ g name token, r.client.pc = .joining g name token →
      (w.clients n).pc = .joining g name token ∨ g < r.registry.size) :
    Founded (w.commit n r) := by
  have hweb := SameWeb.of_same hregistry
  refine h.commit hregistry.size (hweb.fresh h.fresh) (hweb.bounded h.bounded) ?_
  intro g name token hpc
  rcases hjoining g name token hpc with hold | hlt
  · exact Nat.lt_of_lt_of_le (h.joining n g name token hold) hregistry.size
  · exact hlt

theorem Founded.handled (h : Founded w) {batch : List Queued} {c : WebClient}
    (hpc : c.pc = .ready batch) (hr : Handled w c r) : Founded (w.commit n r) := by
  apply h.commit_same hr.registry
  intro g name token hjoining
  rcases hr.pc with heq | ⟨b, heq⟩ | heq | ⟨g', name', token', heq, _, hlt⟩
  · rw [heq, hpc] at hjoining
    cases hjoining
  · rw [heq] at hjoining
    cases hjoining
  · rw [heq] at hjoining
    cases hjoining
  · rw [heq, Pc.joining.injEq] at hjoining
    exact .inr (hjoining.1 ▸ hlt)

theorem Founded.aside (h : Founded w) (ht : Aside w t) : Founded t := by
  refine ⟨ht.registry.fresh h.fresh, ht.registry.bounded h.bounded, ?_⟩
  intro m g name token hpc
  rcases (ht.client m).pc with heq | ⟨_, heq⟩
  · exact Nat.lt_of_lt_of_le (h.joining m g name token (heq ▸ hpc)) ht.registry.size
  · rw [heq] at hpc
    cases hpc

theorem finish_ne_joining {ending : Bool} {g : ℕ} {name token : String} :
    finish ending ≠ .joining g name token := by
  cases ending <;> exact nofun

/-- A lock section on an existing group, or one that leaves an empty group empty. -/
theorem fresh_set {r : Registry Member} {g : ℕ} {room : Groups.Group Member} (h : Fresh r)
    (hroom : r.size ≤ g → room.clients = ∅) : Fresh (r.set g room) := by
  intro g' hg'
  by_cases heq : g' = g
  · subst g'
    simpa [Registry.set] using hroom hg'
  · simpa [Registry.set, heq] using h g' hg'

theorem founded_step {a : Label} (h : Founded w) (hstep : step w a = some t) : Founded t := by
  cases ha : a.client with
  | none => exact h.aside (step_aside h.fresh ha hstep)
  | some n =>
      obtain ⟨r, hturn, rfl⟩ := step_turn ha hstep
      cases hturn with
      | message m env hpc =>
          exact h.handled hpc
            (handledMessage (h.fresh _ (le_refl _)) h.bounded m env).toHandled
      | take hpc => exact h.commit_same (.refl _) fun _ _ _ hjoining => by cases hjoining
      | act q rest env hpc => exact h.handled rfl (handledAction q env).toHandled
      | fail batch hpc => exact h.commit_same (.refl _) fun _ _ _ hjoining => by cases hjoining
      | lock g name token now permission hpc =>
          have hg := h.joining n g name token hpc
          have hlocked := locked_lockGroup w n (w.clients n) g name token permission now
          apply h.commit
          · rw [hlocked.registry]
            exact le_refl _
          · rw [hlocked.registry]
            exact fresh_set h.fresh fun hle => absurd hg (Nat.not_lt.mpr hle)
          · rw [hlocked.registry]
            exact h.bounded
          · intro g' name' token' hjoining
            rcases hlocked.outcome with ⟨_, hpc', _⟩ | ⟨_, hpc' | ⟨name'', hpc'⟩, _⟩ <;>
              rw [hpc'] at hjoining <;> cases hjoining
      | settle g hpc =>
          apply h.commit_same (.refl _)
          intro g' name token hjoining
          simp only [World.reply, settle] at hjoining
          split at hjoining <;> cases hjoining
      | knock name hpc => exact h.commit_same (.refl _) fun _ _ _ hjoining => by cases hjoining
      | leave stage ending now hpc =>
          have hjoining : ∀ g name token,
              (leaveGroup w n (w.clients n) stage ending now).client.pc ≠ .joining g name token := by
            intro g name token
            rcases pc_leaveGroup w n (w.clients n) stage ending now with ⟨stage', heq⟩ | ⟨heq, _⟩ <;>
              rw [heq]
            · exact nofun
            · exact finish_ne_joining
          rcases seat_leaveGroup now hpc with ⟨hsame, _⟩ | ⟨g, _, ⟨_, heq, _⟩ | ⟨room, hroom, heq, _⟩⟩
          · exact h.commit_same hsame fun g name token hpc' => absurd hpc' (hjoining g name token)
          · exact h.commit_same (heq ▸ .refl _) fun g name token hpc' =>
              absurd hpc' (hjoining g name token)
          · apply h.commit
            · rw [heq]
              exact le_refl _
            · rw [heq]
              apply fresh_set h.fresh
              intro hle
              rw [(delClient_cases hroom).2, World.room, h.fresh g hle, erase_empty]
            · rw [heq]
              exact h.bounded
            · exact fun g name token hpc' => absurd hpc' (hjoining g name token)
      | trackStart id hid => exact h.commit_same (.refl _) fun _ _ _ hjoining => .inl hjoining
      | trackEnd id hid =>
          obtain ⟨pending, panic, heq, _⟩ := trackPush_eq w n (w.clients n) id
          rw [heq]
          exact h.commit_same (.refl _) fun _ _ _ hjoining => .inl hjoining

end Founded

section Members
variable {room room' : Groups.Group Member} {id : String} {c m : Member}

theorem mem_members_insert (hclients : room'.clients = room.clients.insert id c)
    (hfree : room.clients.lookup id = none) : m ∈ room'.members ↔ m = c ∨ m ∈ room.members := by
  simp only [Group.mem_members, hclients]
  constructor
  · rintro ⟨id', hlookup⟩
    by_cases hid : id' = id
    · subst id'
      rw [AList.lookup_insert, Option.some.injEq] at hlookup
      exact .inl hlookup.symm
    · exact .inr ⟨id', by rwa [AList.lookup_insert_ne hid] at hlookup⟩
  · rintro (rfl | ⟨id', hlookup⟩)
    · exact ⟨id, AList.lookup_insert _⟩
    · refine ⟨id', ?_⟩
      rw [AList.lookup_insert_ne]
      · exact hlookup
      · rintro rfl
        rw [hfree] at hlookup
        cases hlookup

theorem mem_members_erase (hclients : room'.clients = room.clients.erase id)
    (hmember : room.clients.lookup id = some c)
    (hkeys : ∀ id', room.clients.lookup id' = some c → id' = id) :
    m ∈ room'.members ↔ m ≠ c ∧ m ∈ room.members := by
  simp only [Group.mem_members, hclients]
  constructor
  · rintro ⟨id', hlookup⟩
    by_cases hid : id' = id
    · subst id'
      rw [AList.lookup_erase] at hlookup
      cases hlookup
    · rw [AList.lookup_erase_ne hid] at hlookup
      refine ⟨?_, id', hlookup⟩
      rintro rfl
      exact hid (hkeys id' hlookup)
  · rintro ⟨hne, id', hlookup⟩
    refine ⟨id', ?_⟩
    rw [AList.lookup_erase_ne]
    · exact hlookup
    · rintro rfl
      exact hne (Option.some.inj (hlookup.symm.trans hmember))

end Members

section Seated
variable {w t : World} {n : ℕ} {r : Reply}

theorem Seated.commit (h : Seated w) (hfounded : Founded (w.commit n r))
    (hid : r.client.id = (w.clients n).id) (hplaced : r.client.Placed)
    (hkeys : ∀ g id m, (r.registry.heap g).clients.lookup id = some (.web m) →
      id = (w.clients m).id)
    (hself : ∀ g, .web n ∈ (r.registry.heap g).members ↔ r.client.seat = some g)
    (hothers : ∀ m g, m ≠ n →
      (.web m ∈ (r.registry.heap g).members ↔ (w.clients m).seat = some g)) :
    Seated (w.commit n r) := by
  refine ⟨hfounded, forall_commit (fun _ _ h => h) hplaced h.placed, ?_, ?_⟩
  · intro g id m hlookup
    rw [hkeys g id m hlookup]
    by_cases hm : m = n
    · subst m
      rw [commit_self]
      exact hid.symm
    · rw [commit_of_ne hm]
  · intro m g
    by_cases hm : m = n
    · subst m
      rw [commit_self]
      exact hself g
    · rw [commit_of_ne hm]
      exact hothers m g hm

theorem Seated.commit_same (h : Seated w) (hfounded : Founded (w.commit n r))
    (hregistry : w.registry.Same r.registry) (hid : r.client.id = (w.clients n).id)
    (hplaced : r.client.Placed) (hseat : r.client.seat = (w.clients n).seat) :
    Seated (w.commit n r) := by
  have hmembers : ∀ m g, .web m ∈ (r.registry.heap g).members ↔ (w.clients m).seat = some g :=
    fun m g => ((SameWeb.of_same hregistry).members g m).trans (h.seats m g)
  apply h.commit hfounded hid hplaced
  · intro g id m hlookup
    rw [hregistry.clients] at hlookup
    exact h.keys g id m hlookup
  · intro g
    rw [hseat]
    exact hmembers n g
  · exact fun m g _ => hmembers m g

theorem seat_handled {c : WebClient} {batch : List Queued} (hr : Handled w c r)
    (hc : c.pc = .ready batch) : r.client.seat = c.seat := by
  rw [WebClient.seat, WebClient.seat, hr.untouched.group, hc]
  rcases hr.pc with heq | ⟨b, heq⟩ | heq | ⟨g, name, token, heq, _⟩ <;> rw [heq]
  · rw [hc]
  all_goals rfl

theorem Seated.handled (h : Seated w) {batch : List Queued} {c : WebClient}
    (hfounded : Founded (w.commit n r)) (hr : Handled w c r) (hid : c.id = (w.clients n).id)
    (hc : c.pc = .ready batch) (hseat : c.seat = (w.clients n).seat) :
    Seated (w.commit n r) := by
  apply h.commit_same hfounded hr.registry (hr.untouched.id.trans hid)
  · unfold WebClient.Placed
    rcases hr.pc with heq | ⟨b, heq⟩ | heq | ⟨g, name, token, heq, hnone, _⟩ <;> rw [heq]
    · rw [hc]
      trivial
    · trivial
    · trivial
    · exact hr.untouched.group.trans hnone
  · exact (seat_handled hr hc).trans hseat

theorem Nudged.seat {c c' : WebClient} (h : Nudged c c') : c'.seat = c.seat := by
  unfold WebClient.seat
  rw [h.group]
  rcases h.pc with heq | ⟨hold, heq⟩
  · rw [heq]
  · rw [heq, hold]
    rfl

theorem Seated.aside (h : Seated w) (ht : Aside w t) : Seated t := by
  refine ⟨h.toFounded.aside ht, ?_, ?_, ?_⟩
  · intro m
    have hplaced := h.placed m
    unfold WebClient.Placed at hplaced ⊢
    rw [(ht.client m).group]
    rcases (ht.client m).pc with heq | ⟨_, heq⟩ <;> rw [heq]
    · exact hplaced
    · trivial
  · intro g id m hlookup
    rw [(ht.client m).id]
    exact h.keys g id m ((ht.registry.lookup g id m).mp hlookup)
  · intro m g
    rw [World.room, ht.registry.members g m, (ht.client m).seat]
    exact h.seats m g

theorem room_set (registry : Registry Member) (g g' : ℕ) (room : Groups.Group Member) :
    (registry.set g room).heap g' = if g' = g then room else registry.heap g' := by
  simp only [Registry.set, Function.update_apply]

/-- `AddClient` lets in a client that has no seat anywhere. -/
theorem Seated.lock (h : Seated w) {g : ℕ} {name token : String} {now : ℕ}
    {permission : Except Error (String × Permissions)}
    (hfounded : Founded (w.commit n r)) (hpc : (w.clients n).pc = .joining g name token)
    (hr : Locked w n (w.clients n) g
      (addClient w.view (w.room g) (.web n) token permission now) r) :
    Seated (w.commit n r) := by
  have hgroup : (w.clients n).group = none := by
    have hplaced := h.placed n
    rwa [WebClient.Placed, hpc] at hplaced
  have hseat : (w.clients n).seat = none := by rw [WebClient.seat, hpc]; exact hgroup
  have hspec := addSpec_addClient w.view (w.room g) (.web n) token permission now
  rcases hr.outcome with ⟨herror, hpc', _⟩ | ⟨herror, hpc', _⟩
  · obtain ⟨herror', _⟩ | ⟨_, _, hfree, hclients⟩ := hspec.clients
    · exact absurd herror herror'
    have hmembers : ∀ m g', .web m ∈ (r.registry.heap g').members ↔
        (g' = g ∧ m = n) ∨ (w.clients m).seat = some g' := by
      intro m g'
      rw [hr.registry, room_set]
      split_ifs with hg
      · subst g'
        rw [mem_members_insert hclients hfree, h.seats m g]
        simp
      · rw [show w.registry.heap g' = w.room g' from rfl, h.seats m g']
        simp [hg]
    apply h.commit hfounded hr.id
    · rw [WebClient.Placed, hpc']
      exact hr.group.trans hgroup
    · intro g' id m hlookup
      rw [hr.registry, room_set] at hlookup
      split_ifs at hlookup with hg
      · rw [hclients] at hlookup
        by_cases hid : id = w.view.id (.web n)
        · subst id
          rw [AList.lookup_insert, Option.some.injEq, Member.web.injEq] at hlookup
          subst m
          rfl
        · rw [AList.lookup_insert_ne hid] at hlookup
          exact h.keys g id m hlookup
      · exact h.keys g' id m hlookup
    · intro g'
      rw [hmembers, hseat, WebClient.seat, hpc']
      simp [seatOf, eq_comm]
    · intro m g' hm
      rw [hmembers]
      simp [hm]
  · obtain ⟨_, hclients⟩ | ⟨herror', _⟩ := hspec.clients
    · apply h.commit_same hfounded
      · rw [hr.registry]
        exact Registry.same_set hclients
      · exact hr.id
      · unfold WebClient.Placed
        rcases hpc' with heq | ⟨name', heq⟩ <;> rw [heq]
        · trivial
        · exact hr.group.trans hgroup
      · rw [hseat, WebClient.seat, hr.group, hgroup]
        rcases hpc' with heq | ⟨name', heq⟩ <;> rw [heq] <;> rfl
    · exact absurd herror' herror

/-- The lock section of `DelClient` finds the client, and takes it out. -/
theorem Seated.leave (h : Seated w) {stage : LeaveStage} {ending : Bool} {now : ℕ}
    (hpc : (w.clients n).pc = .leaving stage ending)
    (hfounded : Founded (w.commit n (leaveGroup w n (w.clients n) stage ending now))) :
    Seated (w.commit n (leaveGroup w n (w.clients n) stage ending now)) := by
  have hid := (leaving_leaveGroup w n (w.clients n) stage ending now).id
  have hplaced : (leaveGroup w n (w.clients n) stage ending now).client.Placed := by
    unfold WebClient.Placed
    rcases pc_leaveGroup w n (w.clients n) stage ending now with ⟨stage', heq⟩ | ⟨heq, hgroup⟩
    · rw [heq]
      trivial
    · rw [heq]
      cases ending
      · trivial
      · exact hgroup
  rcases seat_leaveGroup now hpc with ⟨hsame, hseat⟩ | ⟨g, hseat, ⟨hroom, _⟩ | ⟨room, hroom, heq, hpc'⟩⟩
  · exact h.commit_same hfounded hsame hid hplaced hseat
  · obtain ⟨id, hlookup⟩ := Group.mem_members.mp ((h.seats n g).mpr hseat)
    have hkey := h.keys g id n hlookup
    subst id
    simp [delClient, World.view, hlookup] at hroom
  · obtain ⟨hmember, hclients⟩ := delClient_cases hroom
    have hmembers : ∀ m g', .web m ∈
        ((leaveGroup w n (w.clients n) stage ending now).registry.heap g').members ↔
          ¬ (g' = g ∧ m = n) ∧ (w.clients m).seat = some g' := by
      intro m g'
      rw [heq, room_set]
      split_ifs with hg
      · subst g'
        rw [mem_members_erase hclients hmember fun id' hlookup => h.keys g id' n hlookup,
          h.seats m g]
        simp
      · rw [show w.registry.heap g' = w.room g' from rfl, h.seats m g']
        simp [hg]
    apply h.commit hfounded hid hplaced
    · intro g' id m hlookup
      rw [heq, room_set] at hlookup
      split_ifs at hlookup with hg
      · rw [hclients] at hlookup
        by_cases hkey : id = w.view.id (.web n)
        · subst id
          rw [AList.lookup_erase] at hlookup
          cases hlookup
        · rw [AList.lookup_erase_ne hkey] at hlookup
          exact h.keys g id m hlookup
      · exact h.keys g' id m hlookup
    · intro g'
      rw [hmembers, hseat, WebClient.seat, hpc']
      simp [seatOf, eq_comm]
    · intro m g' hm
      rw [hmembers]
      simp [hm]

end Seated

/-- What `AddClient` answers to a client that stands before its lock. -/
def World.added (w : World) (n now : ℕ) (permission : Except Error (String × Permissions)) :
    Pc → Option (Added Member)
  | .joining g _ token => some (addClient w.view (w.room g) (.web n) token permission now)
  | _ => none

/-- The redirect that a join finds once it has been accepted. -/
def World.redirect (w : World) : Pc → String
  | .joined g => (w.room g).description.redirect
  | _ => ""

/-- A join that has been accepted finds no redirect in the description. -/
def NotRedirected (w : World) : Label → Prop
  | .settle n => w.redirect (w.clients n).pc = ""
  | _ => True

theorem seated_step {w t : World} {a : Label} (h : Seated w) (hok : NotRedirected w a)
    (hstep : step w a = some t) : Seated t := by
  have hfounded := founded_step h.toFounded hstep
  cases ha : a.client with
  | none => exact h.aside (step_aside h.fresh ha hstep)
  | some n =>
      obtain ⟨r, hturn, rfl⟩ := step_turn ha hstep
      cases hturn with
      | message m env hpc =>
          have hr := handledMessage (n := n) (c := w.clients n) (h.fresh _ (le_refl _)) h.bounded m env
          exact h.handled hfounded hr.toHandled rfl hpc rfl
      | take hpc =>
          refine h.commit_same hfounded (.refl _) rfl trivial ?_
          simp only [WebClient.seat, hpc]
          rfl
      | act q rest env hpc =>
          have hr := handledAction (w := w) (n := n) (c := { w.clients n with pc := .ready rest }) q
            env
          refine h.handled hfounded hr.toHandled rfl rfl ?_
          simp only [WebClient.seat, hpc]
          rfl
      | fail batch hpc =>
          refine h.commit_same hfounded (.refl _) rfl trivial ?_
          simp only [WebClient.seat, hpc]
          rfl
      | lock g name token now permission hpc =>
          exact h.lock hfounded hpc (locked_lockGroup w n (w.clients n) g name token permission now)
      | settle g hpc =>
          have hredirect : (w.room g).description.redirect = "" := by
            rwa [NotRedirected, hpc] at hok
          refine h.commit_same hfounded (.refl _) ?_ ?_ ?_ <;> rw [World.reply, settle] <;>
            simp only [hredirect, ne_eq, not_true_eq_false, if_false]
          · trivial
          · simp only [WebClient.seat, hpc]
            rfl
      | knock name hpc =>
          refine h.commit_same hfounded (.refl _) rfl trivial ?_
          simp only [WebClient.seat, hpc]
          rfl
      | leave stage ending now hpc => exact h.leave hpc hfounded
      | trackStart id hid => exact h.commit_same hfounded (.refl _) rfl (h.placed n) rfl
      | trackEnd id hid =>
          obtain ⟨pending, panic, heq, _⟩ := trackPush_eq w n (w.clients n) id
          rw [heq] at hfounded ⊢
          exact h.commit_same hfounded (.refl _) rfl (h.placed n) rfl

theorem seated_initial {w : World} (h : Initial w) : Seated w := by
  obtain ⟨hregistry, hclients, _, _⟩ := h
  have hpc : ∀ n, (w.clients n).pc = .ready [] ∧ (w.clients n).group = none := by
    intro n
    rw [hclients n]
    exact ⟨rfl, rfl⟩
  have hrooms : ∀ g, (w.room g).clients = ∅ := by
    intro g
    rw [World.room, hregistry]
  refine ⟨⟨?_, ?_, ?_⟩, ?_, ?_, ?_⟩
  · exact fun g _ => hrooms g
  · intro name g hlookup
    simp [hregistry] at hlookup
  · intro n g name token h
    rw [(hpc n).1] at h
    cases h
  · intro n
    rw [WebClient.Placed, (hpc n).1]
    trivial
  · intro g id n hlookup
    rw [hrooms] at hlookup
    simp at hlookup
  · intro n g
    rw [WebClient.seat, (hpc n).1, (hpc n).2, Group.mem_members, hrooms]
    simp [seatOf]

/-- Membership agreement, as seen between two steps of a client's loop. -/
structure Agreed (w : World) : Prop where
  member : ∀ n g, ((∃ batch, (w.clients n).pc = .ready batch) ∨ (w.clients n).pc = .ended) →
    (.web n ∈ (w.room g).members ↔ (w.clients n).group = some g)
  unique : ∀ n g g', .web n ∈ (w.room g).members → .web n ∈ (w.room g').members → g = g'
  ended : ∀ n g, (w.clients n).pc = .ended → .web n ∉ (w.room g).members

theorem Seated.agreed {w : World} (h : Seated w) : Agreed w := by
  refine ⟨?_, ?_, ?_⟩
  · rintro n g (⟨batch, hpc⟩ | hpc)
    · rw [h.seats, WebClient.seat, hpc]
      rfl
    · have hplaced := h.placed n
      rw [WebClient.Placed, hpc] at hplaced
      rw [h.seats, WebClient.seat, hpc, hplaced]
      rfl
  · intro n g g' hg hg'
    exact Option.some.inj (((h.seats n g).mp hg).symm.trans ((h.seats n g').mp hg'))
  · intro n g hpc
    rw [h.seats, WebClient.seat, hpc]
    exact nofun

theorem seated_reachable {w : World} (h : Reachable system NotRedirected w) : Seated w :=
  h.invariant (fun _ => seated_initial) fun _ _ _ => seated_step

/-- As long as no accepted join is redirected, members and their groups agree. -/
theorem agreed_of_notRedirected {w : World} (h : Reachable system NotRedirected w) : Agreed w :=
  (seated_reachable h).agreed

section Samples

instance (w : World) : (a : Label) → Decidable (NotRedirected w a)
  | .settle n => inferInstanceAs (Decidable (w.redirect (w.clients n).pc = ""))
  | .update .. | .delete _ | .shutdown .. | .queue .. | .deliver _ | .message .. | .take _ | .act ..
  | .fail _ | .lock .. | .knock _ | .leave .. | .trackStart .. | .trackEnd .. | .otherJoin ..
  | .otherLeave .. | .autoLockKick _ => .isTrue trivial

/-- Two clients, who have just connected. -/
def start : World :=
  { clients := fun n => { id := if n = 0 then "alice" else if n = 1 then "bob" else "" }
    others := fun _ => { id := "" } }

theorem initial_start : Initial start := ⟨rfl, fun _ => rfl, rfl, rfl⟩

/-- A group file that says `desc`. -/
def fileOf (desc : Description) : Env := { file := { stat := none, read := .ok desc } }

def credentials (permissions : Permissions) : Except Error (String × Permissions) :=
  .ok ("", permissions)

/-- All the steps of a join to group object `g`, if it is accepted. -/
def joinSteps (n : ℕ) (name : String) (desc : Description) (permissions : Permissions) : List Label :=
  [.message n { body := .join name "" [] } (fileOf desc), .lock n 1 (credentials permissions),
    .settle n]

def leaveSteps (n : ℕ) : List Label := List.replicate 5 (.leave n 2)

theorem agreed_afterLeave : ∃ w, system.exec NotRedirected start
    (joinSteps 0 "room" {} ["present"] ++ joinSteps 1 "room" {} ["present"] ++
      [.message 0 { body := .leave "room" } {}] ++ leaveSteps 0) = some w ∧
    .web 1 ∈ (w.room 0).members ∧ Agreed w := by
  obtain ⟨w, hw, hmember⟩ : ∃ w ∈ system.exec NotRedirected start
      (joinSteps 0 "room" {} ["present"] ++ joinSteps 1 "room" {} ["present"] ++
        [.message 0 { body := .leave "room" } {}] ++ leaveSteps 0),
      .web 1 ∈ (w.room 0).members := by decide +kernel
  exact ⟨w, hw, hmember, agreed_of_notRedirected (.exec (.init initial_start) hw)⟩

/-- A client that is let in and redirected is a member of a group it is not in. -/
theorem not_agreed : ¬ ∀ w, Reachable system Always w → Agreed w := by
  intro h
  obtain ⟨w, hw, hmember, hpc, hgroup⟩ : ∃ w ∈ system.exec Always start
      (joinSteps 0 "room" { redirect := "https://elsewhere" } ["present"]),
      .web 0 ∈ (w.room 0).members ∧ (w.clients 0).pc = .ready [] ∧ (w.clients 0).group = none := by
    decide +kernel
  have hagreed := h w (.exec (.init initial_start) hw)
  have hiff := hagreed.member 0 0 (.inl ⟨[], hpc⟩)
  rw [hgroup] at hiff
  exact absurd (hiff.mp hmember) nofun

end Samples

end Sozvon.WebClients
