import Sozvon.WebClients

/-!
# What the handlers of a web client can do

One specification for each part of a client's loop, from which the invariants
of the whole system are derived: `Handled` for the two handlers, `Aside` for
everything that happens outside the clients' loops.
-/
namespace Sozvon.WebClients
open Groups GroupTable Runs

/-- An action that is not a command of an operator. -/
def Plain (q : Queued) : Prop := q.issued = none ∧ ∀ kind, q.action ≠ .changePermissions kind

section Calls

theorem plain_quiet (calls : List (Member × Call)) : ∀ e ∈ quiet calls, Plain e.2 := by
  intro e he
  obtain ⟨c, _, rfl⟩ := List.mem_map.mp he
  exact ⟨rfl, fun kind h => by cases h⟩

theorem mem_pendingOf {calls : List (Member × Queued)} {p : Pending} (h : p ∈ pendingOf calls) :
    (.web p.target, p.queued) ∈ calls := by
  obtain ⟨⟨m, q⟩, hmem, hp⟩ := List.mem_filterMap.mp h
  cases m with
  | web k => cases hp; exact hmem
  | other o => cases hp

theorem plain_pendingOf {calls : List (Member × Queued)} (h : ∀ e ∈ calls, Plain e.2) :
    ∀ p ∈ pendingOf calls, Plain p.queued := fun _ hp => h _ (mem_pendingOf hp)

theorem plain_kicked (members : List Member) : ∀ p ∈ kicked members, Plain p.queued := by
  apply plain_pendingOf
  intro e he
  obtain ⟨m, _, rfl⟩ := List.mem_map.mp he
  exact ⟨rfl, fun kind h => by cases h⟩

theorem mem_callsFor {n : ℕ} {calls : List (Member × Queued)} {q : Queued} :
    q ∈ callsFor n calls ↔ (.web n, q) ∈ calls := by
  simp only [callsFor, List.mem_map, List.mem_filter, decide_eq_true_eq]
  constructor
  · rintro ⟨⟨m, q'⟩, ⟨hmem, rfl⟩, rfl⟩
    exact hmem
  · intro h
    exact ⟨_, ⟨h, rfl⟩, rfl⟩

end Calls

section Commit
variable {w : World} {n : ℕ} {r : Reply}

theorem commit_self : (w.commit n r).clients n =
    { r.client with actions := r.client.actions ++ callsFor n r.calls } := by
  simp [World.commit, World.enqueue]

theorem commit_of_ne {m : ℕ} (h : m ≠ n) : (w.commit n r).clients m =
    { w.clients m with actions := (w.clients m).actions ++ callsFor m r.calls } := by
  simp [World.commit, World.enqueue, h]

/-- What does not depend on the queue and holds of the client that takes the
step, holds of all clients. -/
theorem forall_commit {P : WebClient → Prop} (hactions : ∀ c actions, P c → P { c with actions })
    (hself : P r.client) (h : ∀ m, P (w.clients m)) (m : ℕ) : P ((w.commit n r).clients m) := by
  by_cases hm : m = n
  · subst m
    rw [commit_self]
    exact hactions _ _ hself
  · rw [commit_of_ne hm]
    exact hactions _ _ (h m)

end Commit

/-- The part of a client that its handlers leave alone. -/
structure Untouched (c c' : WebClient) : Prop where
  id : c'.id = c.id
  group : c'.group = c.group
  stay : c'.stay = c.stay
  granted : c'.granted = c.granted
  actions : c'.actions = c.actions
  callbacks : c'.callbacks = c.callbacks

structure SameRights (c c' : WebClient) : Prop where
  permissions : c'.permissions = c.permissions
  commands : c'.commands = c.commands
  evictions : c'.evictions = c.evictions

/-- A command for a member of the group of client `c`, for its present stay. -/
def Issued (w : World) (c : WebClient) (p : Pending) : Prop :=
  ∃ g, c.group = some g ∧ .web p.target ∈ (w.room g).members ∧
    p.queued.issued = some ⟨g, (w.clients p.target).stay⟩

/-- What `handleClientMessage` and `handleAction` do at most. -/
structure Handled (w : World) (c : WebClient) (r : Reply) : Prop where
  registry : w.registry.Same r.registry
  untouched : Untouched c r.client
  pc : r.client.pc = c.pc ∨ (∃ b, r.client.pc = .leaving .knock b) ∨ r.client.pc = .acting ∨
    ∃ g name token, r.client.pc = .joining g name token ∧ c.group = none ∧ g < r.registry.size
  up : r.client.up ⊆ c.up ∨ c.group ≠ none
  panic : r.panic = true → "present" ∈ c.permissions ∧ c.group = none
  calls : ∀ e ∈ r.calls, Plain e.2
  pending : ∀ p ∈ r.pending, Plain p.queued ∨ Issued w c p

section Handled
variable {w : World} {n : ℕ} {c c' : WebClient} {calls : List (Member × Queued)}
  {pending : List Pending} {registry : Registry Member}

/-- A handler that does nothing but change the client and queue plain actions. -/
theorem handled_reply (hsame : w.registry.Same registry) (h : Untouched c c') (hpc : c'.pc = c.pc)
    (hup : c'.up ⊆ c.up ∨ c.group ≠ none) (hcalls : ∀ e ∈ calls, Plain e.2)
    (hpending : ∀ p ∈ pending, Plain p.queued) :
    Handled w c { registry, client := c', calls, pending } :=
  ⟨hsame, h, .inl hpc, hup, nofun, hcalls, fun p hp => .inl (hpending p hp)⟩

theorem handled_silent (h : Untouched c c') (hpc : c'.pc = c.pc) (hup : c'.up ⊆ c.up) :
    Handled w c (w.reply c') :=
  handled_reply (.refl _) h hpc (.inl hup) (List.forall_mem_nil _) (List.forall_mem_nil _)

/-- A handler after which the client begins to leave. -/
theorem handled_leaving {b : Bool} (h : Untouched c c') (hpc : c'.pc = .leaving .knock b)
    (hup : c'.up ⊆ c.up) : Handled w c (w.reply c') :=
  ⟨.refl _, h, .inr (.inl ⟨b, hpc⟩), .inl hup, nofun, List.forall_mem_nil _, List.forall_mem_nil _⟩

theorem handled_keep : Handled w c (w.reply c) :=
  handled_silent ⟨rfl, rfl, rfl, rfl, rfl, rfl⟩ rfl (List.Subset.refl _)

theorem handled_fail : Handled w c (w.fail c) :=
  handled_leaving ⟨rfl, rfl, rfl, rfl, rfl, rfl⟩ rfl (List.Subset.refl _)

theorem handled_down (down : List (String × Member)) : Handled w c (w.reply { c with down }) :=
  handled_silent ⟨rfl, rfl, rfl, rfl, rfl, rfl⟩ rfl (List.Subset.refl _)

theorem handled_calls (hcalls : ∀ e ∈ calls, Plain e.2) :
    Handled w c { registry := w.registry, client := c, calls } :=
  handled_reply (.refl _) ⟨rfl, rfl, rfl, rfl, rfl, rfl⟩ rfl (.inl fun _ h => h) hcalls
    (List.forall_mem_nil _)

theorem handled_delUpConn (id : String) :
    Handled w c { registry := w.registry, client := (delUpConn w n c id).1
                  calls := (delUpConn w n c id).2 } := by
  unfold delUpConn
  split_ifs
  · dsimp only
    refine handled_reply (.refl _) ⟨rfl, rfl, rfl, rfl, rfl, rfl⟩ rfl (.inl List.erase_subset) ?_
      (List.forall_mem_nil _)
    intro e he
    cases hg : c.group with
    | none => simp [hg] at he
    | some g =>
        simp only [hg, Option.elim_some, List.mem_map] at he
        obtain ⟨m, _, rfl⟩ := he
        exact ⟨rfl, fun kind h => by cases h⟩
  · exact handled_keep

theorem plain_pushConn (g : ℕ) (id replace : String) :
    ∀ e ∈ pushConn w n g id replace, Plain e.2 := by
  intro e he
  obtain ⟨m, _, rfl⟩ := List.mem_map.mp he
  exact ⟨rfl, fun kind h => by cases h⟩

theorem plain_requestConns (g : ℕ) : ∀ e ∈ requestConns w n g, Plain e.2 := by
  intro e he
  obtain ⟨m, _, rfl⟩ := List.mem_map.mp he
  exact ⟨rfl, fun kind h => by cases h⟩

end Handled

/-- What `handleClientMessage` does at most. -/
structure HandledMessage (w : World) (c : WebClient) (r : Reply) : Prop extends Handled w c r where
  rights : SameRights c r.client

section Messages
variable {w : World} {n : ℕ} {c : WebClient}

theorem message_keep : HandledMessage w c (w.reply c) := ⟨handled_keep, rfl, rfl, rfl⟩

theorem message_fail : HandledMessage w c (w.fail c) := ⟨handled_fail, rfl, rfl, rfl⟩

theorem message_section {g : ℕ} {room : Groups.Group Member} (h : room.clients = (w.room g).clients)
    (calls : List (Member × Call)) :
    HandledMessage w c { registry := w.registry.set g room, client := c, calls := quiet calls } :=
  ⟨handled_reply (Registry.same_set h) ⟨rfl, rfl, rfl, rfl, rfl, rfl⟩ rfl (.inl fun _ h => h)
    (plain_quiet calls) (List.forall_mem_nil _), rfl, rfl, rfl⟩

theorem message_join (hfresh : (w.room w.registry.size).clients = ∅) (hbounded : w.registry.Bounded)
    (name token : String) (data : Data) (env : Env) :
    HandledMessage w c (join w c name token data env) := by
  unfold join
  split_ifs with hgroup hbanned
  · exact message_fail
  · exact message_keep
  · have hsame := Registry.same_add hfresh w.view env.file env.now name none
    have hpending : ∀ p ∈ kicked (add w.view w.registry env.file env.now name none).kicks,
        Plain p.queued ∨ Issued w c p := fun p hp => .inl (plain_kicked _ p hp)
    cases hadd : (add w.view w.registry env.file env.now name none).group with
    | error e =>
        simp only [hadd]
        exact ⟨⟨hsame, ⟨rfl, rfl, rfl, rfl, rfl, rfl⟩, .inl rfl, .inl fun _ h => h, nofun,
          plain_quiet _, hpending⟩, rfl, rfl, rfl⟩
    | ok g =>
        simp only [hadd]
        exact ⟨⟨hsame, ⟨rfl, rfl, rfl, rfl, rfl, rfl⟩,
          .inr (.inr (.inr ⟨g, name, token, rfl, by simpa using hgroup, hbounded.add_lt hadd⟩)),
          .inl fun _ h => h, nofun, plain_quiet _, hpending⟩, rfl, rfl, rfl⟩

theorem keptUp_subset (replace : String) (up : List String) : keptUp replace up ⊆ up := by
  unfold keptUp
  split_ifs
  · exact List.Subset.refl up
  · exact List.erase_subset

theorem message_gotOffer (hpresent : "present" ∈ c.permissions) (id replace : String) (env : Env) :
    HandledMessage w c (gotOffer w n c id replace env) := by
  unfold gotOffer
  split
  · exact message_keep
  split
  · exact ⟨handled_silent ⟨rfl, rfl, rfl, rfl, rfl, rfl⟩ rfl (keptUp_subset replace c.up), rfl, rfl, rfl⟩
  split
  · exact message_keep
  · split
    · rename_i hgroup
      exact ⟨⟨.refl _, ⟨rfl, rfl, rfl, rfl, rfl, rfl⟩, .inl rfl, .inl fun _ h => h,
        fun _ => ⟨hpresent, hgroup⟩, List.forall_mem_nil _, List.forall_mem_nil _⟩,
        rfl, rfl, rfl⟩
    · rename_i g hgroup
      split
      · exact message_keep
      · exact ⟨handled_reply (.refl _) ⟨rfl, rfl, rfl, rfl, rfl, rfl⟩ rfl
          (.inr (by simp [hgroup])) (List.forall_mem_nil _)
          (plain_pendingOf (plain_pushConn g id replace)),
          rfl, rfl, rfl⟩

theorem message_delUpConn (id : String) :
    HandledMessage w c { registry := w.registry, client := (delUpConn w n c id).1
                         calls := (delUpConn w n c id).2 } := by
  refine ⟨handled_delUpConn id, ?_⟩
  unfold delUpConn
  split_ifs <;> exact ⟨rfl, rfl, rfl⟩

theorem message_offer (id replace : String) (env : Env) :
    HandledMessage w c (offer w n c id replace env) := by
  unfold offer
  split_ifs with hid hpresent hreplace
  · exact message_fail
  · exact message_gotOffer hpresent id replace env
  · exact message_keep
  · exact message_delUpConn replace

theorem message_groupaction (action : GroupAction) (g : ℕ) :
    HandledMessage w c (groupaction w c action g) := by
  unfold groupaction
  cases action with
  | lock on message =>
      simp only
      split
      · exact message_keep
      · exact message_section (by rfl) _
  | setgroup locked1on1 =>
      cases locked1on1 with
      | none => exact message_keep
      | some on =>
          simp only
          split
          · exact message_keep
          · exact message_section (by rfl) _
  | setdata =>
      simp only
      split
      · exact message_keep
      · exact ⟨handled_calls (plain_quiet _), rfl, rfl, rfl⟩
  | known kind => exact message_keep
  | unknown => exact message_fail

theorem admit_clients {v : View Member} {room : Groups.Group Member} {id : String}
    {r : Groups.Group Member × List (Member × Call)} (h : admitKnock v room id = .ok r) :
    r.1.clients = room.clients := by
  unfold admitKnock at h
  split at h <;> cases h
  rfl

theorem deny_clients {v : View Member} {room : Groups.Group Member} {id : String}
    {r : Groups.Group Member × List (Member × Call)} (h : deny v room id = .ok r) :
    r.1.clients = room.clients := by
  unfold deny at h
  split at h <;> cases h
  rfl

theorem message_answerKnock {g : ℕ} {r : Except Error (Groups.Group Member × List (Member × Call))}
    (h : ∀ r', r = .ok r' → r'.1.clients = (w.room g).clients) :
    HandledMessage w c (answerKnock w c g r) := by
  cases r with
  | error e => exact message_keep
  | ok r => exact message_section (h r rfl) r.2

/-- The command that `useraction` sends is for a member of the group. -/
theorem message_issue {g : ℕ} {t : Member} (hgroup : c.group = some g)
    (ht : t ∈ (w.room g).members) (action : Action) :
    HandledMessage w c (issue w n c g t action) := by
  cases t with
  | other o => exact message_keep
  | web k =>
      refine ⟨⟨.refl _, ⟨rfl, rfl, rfl, rfl, rfl, rfl⟩, .inr (.inr (.inl rfl)),
        .inl fun _ h => h, nofun, List.forall_mem_nil _, ?_⟩, rfl, rfl, rfl⟩
      intro p hp
      cases List.mem_singleton.mp hp
      exact .inr ⟨g, hgroup, ht, rfl⟩

theorem message_lookup {g : ℕ} {dest : String} (hgroup : c.group = some g) (action : Action) :
    HandledMessage w c
      (((w.room g).clients.lookup dest).elim (w.reply c) fun t => issue w n c g t action) := by
  cases hlookup : (w.room g).clients.lookup dest with
  | none => exact message_keep
  | some t => exact message_issue hgroup (Group.mem_members.mpr ⟨dest, hlookup⟩) action

theorem message_useraction {g : ℕ} (hgroup : c.group = some g) (m : ClientMessage)
    (action : UserAction) (dest : String) :
    HandledMessage w c (useraction w n c m action dest g) := by
  unfold useraction
  cases action with
  | change kind =>
      simp only
      split
      · exact message_fail
      split
      · exact message_keep
      · exact message_lookup hgroup _
  | identify => exact message_keep
  | kick message =>
      simp only
      split
      · exact message_keep
      · exact message_lookup hgroup _
  | admitKnock =>
      simp only
      split
      · exact message_keep
      · exact message_answerKnock fun r h => admit_clients h
  | deny =>
      simp only
      split
      · exact message_keep
      · exact message_answerKnock fun r h => deny_clients h
  | setdata changes =>
      simp only
      split
      · exact message_keep
      · exact ⟨handled_reply (.refl _) ⟨rfl, rfl, rfl, rfl, rfl, rfl⟩ rfl (.inl fun _ h => h)
          (plain_quiet _) (List.forall_mem_nil _), rfl, rfl, rfl⟩

theorem message_inGroup {handler : ℕ → Reply}
    (h : ∀ g, c.group = some g → HandledMessage w c (handler g)) :
    HandledMessage w c (inGroup w c handler) := by
  unfold inGroup
  cases hgroup : c.group with
  | none => exact message_keep
  | some g => exact h g hgroup

theorem message_down (down : List (String × Member)) :
    HandledMessage w c (w.reply { c with down }) := ⟨handled_down down, rfl, rfl, rfl⟩

theorem handledMessage (hfresh : (w.room w.registry.size).clients = ∅)
    (hbounded : w.registry.Bounded) (m : ClientMessage) (env : Env) :
    HandledMessage w c (handleClientMessage w n c m env) := by
  unfold handleClientMessage
  split
  · exact message_fail
  split
  · exact message_fail
  cases m.body with
  | join name token data => exact message_join hfresh hbounded name token data env
  | leave name =>
      simp only
      split
      · exact message_fail
      split
      · exact message_fail
      · exact ⟨handled_leaving ⟨rfl, rfl, rfl, rfl, rfl, rfl⟩ rfl (List.Subset.refl _),
          rfl, rfl, rfl⟩
  | unknownJoin => exact message_fail
  | request =>
      simp only
      split
      · exact message_fail
      split
      · exact message_fail
      · rename_i g hgroup
        exact ⟨handled_calls (plain_requestConns g), rfl, rfl, rfl⟩
  | requestStream id =>
      simp only
      split
      · exact message_keep
      split
      · exact message_fail
      · refine ⟨handled_calls ?_, rfl, rfl, rfl⟩
        intro e he
        cases List.mem_singleton.mp he
        exact ⟨rfl, fun kind h => by cases h⟩
  | offer id replace => exact message_offer id replace env
  | answer id =>
      simp only
      split
      · exact message_fail
      split
      · exact message_keep
      · exact message_down _
  | renegotiate id =>
      simp only
      split
      · exact message_fail
      split
      · exact message_keep
      · exact message_down _
  | close id =>
      simp only
      split
      · exact message_fail
      · exact message_delUpConn id
  | abort id =>
      simp only
      split
      · exact message_fail
      · exact message_down _
  | ice id candidate =>
      simp only
      split
      · exact message_fail
      · exact message_keep
  | chat dest => exact message_inGroup fun g _ => message_keep
  | groupaction action => exact message_inGroup fun g _ => message_groupaction action g
  | useraction action dest =>
      exact message_inGroup fun g hgroup => message_useraction hgroup m action dest
  | ping => exact message_keep
  | pong => exact message_keep
  | quality => exact message_keep
  | unexpected => exact message_fail

end Messages

/-- The stay a client is in, if it has a group. -/
def WebClient.present (c : WebClient) : Option Stay := c.group.map fun g => ⟨g, c.stay⟩

/-- What `handleAction` does to the rights of a client: only the two kinds of
command change anything. -/
inductive Obeyed (c : WebClient) (q : Queued) (c' : WebClient) : Prop
  | nothing : SameRights c c' → Obeyed c q c'
  | change (recording : Bool) (kind : String) : q.action = .changePermissions kind →
      changePermissions recording kind c.permissions = some c'.permissions →
      c'.commands = (if q.issued = c.present then c.commands ++ [(kind, recording)] else c.commands) →
      c'.evictions = c.evictions → Obeyed c q c'
  | kick : c'.permissions = c.permissions → c'.commands = c.commands →
      c'.evictions = c.evictions ++ q.issued.toList.product c.present.toList → Obeyed c q c'

structure HandledAction (w : World) (c : WebClient) (q : Queued) (r : Reply) : Prop
    extends Handled w c r where
  rights : Obeyed c q r.client

section Actions
variable {w : World} {n : ℕ} {c : WebClient} {q : Queued}

theorem action_keep : HandledAction w c q (w.reply c) := ⟨handled_keep, .nothing ⟨rfl, rfl, rfl⟩⟩

theorem action_fail : HandledAction w c q (w.fail c) := ⟨handled_fail, .nothing ⟨rfl, rfl, rfl⟩⟩

theorem plain_closeAll : ∀ e ∈ closeAll w n c, Plain e.2 := by
  intro e he
  unfold closeAll at he
  cases hg : c.group with
  | none => simp [hg] at he
  | some g =>
      simp only [hg, Option.elim_some, List.mem_flatMap, List.mem_map] at he
      obtain ⟨id, _, m, _, rfl⟩ := he
      exact ⟨rfl, fun kind h => by cases h⟩

theorem action_pushDownConn (id : String) (conn : Option Member) (replace : String) (env : Env) :
    HandledAction w c q (pushDownConn w c id conn replace env) := by
  have down : ∀ down, HandledAction w c q (w.reply { c with down }) :=
    fun down => ⟨handled_down down, .nothing ⟨rfl, rfl, rfl⟩⟩
  unfold pushDownConn
  cases conn with
  | none => exact down _
  | some owner =>
      simp only
      split
      · exact down _
      split
      · exact ⟨handled_leaving ⟨rfl, rfl, rfl, rfl, rfl, rfl⟩ rfl (List.Subset.refl _),
          .nothing ⟨rfl, rfl, rfl⟩⟩
      · exact down _

theorem handledAction (q : Queued) (env : Env) :
    HandledAction w c q (handleAction w n c q env) := by
  obtain ⟨action, issued⟩ := q
  unfold handleAction
  cases action with
  | pushConn group id conn replace =>
      simp only
      split
      · exact action_keep
      · exact action_pushDownConn id conn replace env
  | requestConns group target id =>
      simp only
      split
      · exact action_keep
      split
      · exact action_keep
      · refine ⟨handled_calls ?_, .nothing ⟨rfl, rfl, rfl⟩⟩
        intro e he
        obtain ⟨u, _, rfl⟩ := List.mem_map.mp he
        exact ⟨rfl, fun kind h => by cases h⟩
  | connectionFailed id =>
      simp only
      split
      · exact action_keep
      split
      · exact action_fail
      · refine ⟨handled_calls ?_, .nothing ⟨rfl, rfl, rfl⟩⟩
        intro e he
        cases List.mem_singleton.mp he
        exact ⟨rfl, fun kind h => by cases h⟩
  | call call =>
      cases call with
      | joined group kind => exact action_keep
      | pushClient group kind id username permissions data => exact action_keep
      | kick id username message =>
          exact ⟨handled_leaving ⟨rfl, rfl, rfl, rfl, rfl, rfl⟩ rfl (List.Subset.refl _),
            .kick rfl rfl rfl⟩
  | changePermissions kind =>
      simp only
      split
      · exact action_fail
      · rename_i permissions hpermissions
        refine ⟨handled_reply (.refl _) ⟨rfl, rfl, rfl, rfl, rfl, rfl⟩ rfl (.inl fun _ h => h)
          ?_ (List.forall_mem_nil _), .change _ kind rfl hpermissions rfl rfl⟩
        intro e he
        cases List.mem_singleton.mp he
        exact ⟨rfl, fun kind h => by cases h⟩
  | permissionsChanged =>
      simp only
      split
      · exact action_fail
      split
      · exact ⟨handled_reply (.refl _) ⟨rfl, rfl, rfl, rfl, rfl, rfl⟩ rfl (.inl fun _ h => h)
          (List.forall_mem_nil _) (plain_pendingOf (plain_quiet _)), .nothing ⟨rfl, rfl, rfl⟩⟩
      · exact ⟨handled_reply (.refl _) ⟨rfl, rfl, rfl, rfl, rfl, rfl⟩ rfl
          (.inl (List.nil_subset _)) plain_closeAll (plain_pendingOf (plain_quiet _)),
          .nothing ⟨rfl, rfl, rfl⟩⟩

end Actions

section Registry

/-- Objects that do not exist yet have no members. -/
def Fresh (r : Registry Member) : Prop := ∀ g, r.size ≤ g → (r.heap g).clients = ∅

/-- No web client has entered or left a group. -/
structure SameWeb (r r' : Registry Member) : Prop where
  size : r.size ≤ r'.size
  bounded : r.Bounded → r'.Bounded
  fresh : Fresh r → Fresh r'
  lookup : ∀ g id m, (r'.heap g).clients.lookup id = some (.web m) ↔
    (r.heap g).clients.lookup id = some (.web m)

variable {r r' : Registry Member} {v : View Member} {g o : ℕ}

theorem SameWeb.of_same (h : r.Same r') : SameWeb r r' := by
  refine ⟨h.size, h.bounded, ?_, ?_⟩
  · intro hfresh g hg
    rw [h.clients]
    exact hfresh g (Nat.le_trans h.size hg)
  · intro g id m
    rw [h.clients]

theorem SameWeb.members (h : SameWeb r r') (g m : ℕ) :
    .web m ∈ (r'.heap g).members ↔ .web m ∈ (r.heap g).members := by
  simp only [Group.mem_members, h.lookup]

/-- A lock section on one group changes nothing in the others. -/
theorem sameWeb_set {room : Groups.Group Member} (hfresh : r.size ≤ g → room.clients = ∅)
    (hlookup : ∀ id m, room.clients.lookup id = some (.web m) ↔
      (r.heap g).clients.lookup id = some (.web m)) : SameWeb r (r.set g room) := by
  refine ⟨le_refl _, id, ?_, ?_⟩
  · intro h g' hg'
    by_cases heq : g' = g
    · subst g'
      simpa [Registry.set] using hfresh hg'
    · simpa [Registry.set, heq] using h g' hg'
  · intro g' id m
    by_cases heq : g' = g
    · subst g'
      simpa [Registry.set] using hlookup id m
    · simp [Registry.set, heq]

theorem sameWeb_otherJoin (hg : g < r.size) (token : String)
    (permission : Except Error (String × Permissions)) (now : ℕ) :
    SameWeb r (r.set g (addClient v (r.heap g) (.other o) token permission now).group) := by
  apply sameWeb_set (fun h => absurd hg h.not_gt)
  intro id m
  rcases (addSpec_addClient v (r.heap g) (.other o) token permission now).clients with
    ⟨_, hclients⟩ | ⟨_, _, hfree, hclients⟩
  · rw [hclients]
  · rw [hclients]
    by_cases hid : id = v.id (.other o)
    · subst id
      rw [AList.lookup_insert, hfree]
      simp
    · rw [AList.lookup_insert_ne hid]

theorem delClient_cases {c : Member} {room room' : Groups.Group Member} {now : ℕ}
    (h : delClient v room c now = some room') :
    room.clients.lookup (v.id c) = some c ∧ room'.clients = room.clients.erase (v.id c) := by
  unfold delClient at h
  split at h
  · cases h
    exact ⟨by assumption, rfl⟩
  · cases h

theorem erase_empty (id : String) : (∅ : ById Member).erase id = ∅ := by
  apply AList.ext
  rfl

theorem sameWeb_otherLeave {room : Groups.Group Member} {now : ℕ} (h : Fresh r)
    (hroom : delClient v (r.heap g) (.other o) now = some room) :
    SameWeb r (r.set g room) := by
  obtain ⟨hmember, hclients⟩ := delClient_cases hroom
  apply sameWeb_set
  · intro hg
    rw [hclients, h g hg, erase_empty]
  · intro id m
    rw [hclients]
    by_cases hid : id = v.id (.other o)
    · subst id
      rw [AList.lookup_erase, hmember]
      simp
    · rw [AList.lookup_erase_ne hid]

end Registry

/-- What happens to a client by steps that are not its own: actions are queued
to it, and its loop goes on after a call. -/
structure Nudged (c c' : WebClient) : Prop where
  id : c'.id = c.id
  group : c'.group = c.group
  permissions : c'.permissions = c.permissions
  up : c'.up = c.up
  callbacks : c'.callbacks = c.callbacks
  stay : c'.stay = c.stay
  granted : c'.granted = c.granted
  commands : c'.commands = c.commands
  evictions : c'.evictions = c.evictions
  pc : c'.pc = c.pc ∨ c.pc = .acting ∧ c'.pc = .ready []

/-- A step outside the clients' loops. -/
structure Aside (w t : World) : Prop where
  registry : SameWeb w.registry t.registry
  client : ∀ m, Nudged (w.clients m) (t.clients m)
  actions : ∀ m, ∀ q ∈ (t.clients m).actions, q ∈ (w.clients m).actions ∨ Plain q ∨
    ∃ p ∈ w.pending, p.target = m ∧ p.queued = q
  pending : ∀ p ∈ t.pending, p ∈ w.pending ∨ Plain p.queued
  panicked : t.panicked = w.panicked

/-- The client in whose loop, or in a callback of whose connections, a step is. -/
def Label.client : Label → Option ℕ
  | .message n .. | .take n | .act n _ | .fail n | .lock n .. | .settle n | .knock n | .leave n _
  | .trackStart n _ | .trackEnd n _ => some n
  | _ => none

section Aside
variable {w : World} {n : ℕ}

theorem nudged_refl (c : WebClient) : Nudged c c :=
  ⟨rfl, rfl, rfl, rfl, rfl, rfl, rfl, rfl, rfl, .inl rfl⟩

theorem nudged_actions (c : WebClient) (actions : List Queued) : Nudged c { c with actions } :=
  ⟨rfl, rfl, rfl, rfl, rfl, rfl, rfl, rfl, rfl, .inl rfl⟩

/-- Plain actions are queued while a group is changed. -/
theorem aside_enqueue {registry : Registry Member} {others : ℕ → Other} {pending : List Pending}
    {calls : List (Member × Queued)} (hregistry : SameWeb w.registry registry)
    (hcalls : ∀ e ∈ calls, Plain e.2) (hpending : ∀ p ∈ pending, p ∈ w.pending ∨ Plain p.queued) :
    Aside w ((⟨registry, w.clients, others, pending, w.panicked⟩ : World).enqueue calls) := by
  refine ⟨hregistry, fun m => nudged_actions _ _, ?_, hpending, rfl⟩
  intro m q hq
  rcases List.mem_append.mp hq with hq | hq
  · exact .inl hq
  · exact .inr (.inl (hcalls _ (mem_callsFor.mp hq)))

theorem nudged_resume (caller : Option ℕ) (m : ℕ) :
    Nudged (w.clients m) ((w.resume caller).clients m) ∧
      ((w.resume caller).clients m).actions = (w.clients m).actions := by
  cases caller with
  | none => exact ⟨nudged_refl _, rfl⟩
  | some n =>
      dsimp only [World.resume]
      split
      · rename_i hpc
        by_cases hm : m = n
        · subst m
          simp only [Function.update_self]
          exact ⟨⟨rfl, rfl, rfl, rfl, rfl, rfl, rfl, rfl, rfl, .inr ⟨hpc, rfl⟩⟩, trivial⟩
        · simp only [Function.update_of_ne hm]
          exact ⟨nudged_refl _, trivial⟩
      · exact ⟨nudged_refl _, rfl⟩

theorem resume_fields (caller : Option ℕ) : (w.resume caller).registry = w.registry ∧
    (w.resume caller).pending = w.pending ∧ (w.resume caller).panicked = w.panicked := by
  unfold World.resume
  cases caller with
  | none => exact ⟨rfl, rfl, rfl⟩
  | some n => dsimp only; split <;> exact ⟨rfl, rfl, rfl⟩

theorem aside_deliver {i : ℕ} {p : Pending} (hp : w.pending[i]? = some p) :
    Aside w ((({ w with pending := w.pending.eraseIdx i }).enqueue [p.call]).resume p.caller) := by
  set u := ({ w with pending := w.pending.eraseIdx i }).enqueue [p.call] with hu
  obtain ⟨hregistry, hpending, hpanicked⟩ := resume_fields (w := u) p.caller
  refine ⟨by rw [hregistry]; exact .of_same (.refl _), ?_, ?_, ?_, by rw [hpanicked]; rfl⟩
  · intro m
    have h := (nudged_resume (w := u) p.caller m).1
    exact ⟨h.id, h.group, h.permissions, h.up, h.callbacks, h.stay, h.granted, h.commands,
      h.evictions, h.pc⟩
  · intro m q hq
    rw [(nudged_resume p.caller m).2] at hq
    rcases List.mem_append.mp hq with hq | hq
    · exact .inl hq
    · rw [mem_callsFor, List.mem_singleton, Pending.call, Prod.mk.injEq, Member.web.injEq] at hq
      exact .inr (.inr ⟨p, List.mem_of_getElem? hp, hq.1.symm, hq.2.symm⟩)
  · intro p' hp'
    rw [hpending] at hp'
    exact .inl (List.mem_of_mem_eraseIdx hp')

theorem pending_kicked (members : List Member) :
    ∀ p ∈ w.pending ++ kicked members, p ∈ w.pending ∨ Plain p.queued := by
  intro p hp
  rcases List.mem_append.mp hp with hp | hp
  · exact .inl hp
  · exact .inr (plain_kicked members p hp)

theorem aside_section {g : ℕ} {room : Groups.Group Member} {calls : List (Member × Call)}
    {kicks : List Pending} (hregistry : SameWeb w.registry (w.registry.set g room))
    (hkicks : ∀ p ∈ kicks, Plain p.queued) : Aside w (w.section g room calls kicks) := by
  apply aside_enqueue hregistry (plain_quiet calls)
  intro p hp
  rcases List.mem_append.mp hp with hp | hp
  · exact .inl hp
  · exact .inr (hkicks p hp)

theorem step_aside {t : World} {a : Label} (hfresh : Fresh w.registry) (ha : a.client = none)
    (h : step w a = some t) : Aside w t := by
  unfold step at h
  split at h
  · cases h
  cases a with
  | update file now name desc =>
      cases h
      exact aside_enqueue (.of_same (Registry.same_add (hfresh _ (le_refl _)) _ _ _ _ _))
        (plain_quiet _) (pending_kicked _)
  | delete name =>
      cases h
      exact ⟨.of_same (Registry.same_delete name), fun m => nudged_refl _, fun m q hq => .inl hq,
        fun p hp => .inl hp, rfl⟩
  | shutdown g message =>
      cases h
      refine aside_section (.of_same (Registry.same_set rfl)) (plain_pendingOf ?_)
      intro e he
      obtain ⟨m, _, rfl⟩ := List.mem_map.mp he
      exact ⟨rfl, fun kind h => by cases h⟩
  | queue n action =>
      dsimp only at h
      split at h
      · rename_i hmedia
        cases h
        refine aside_enqueue (.of_same (.refl _)) ?_ (fun p hp => .inl hp)
        intro e he
        cases List.mem_singleton.mp he
        exact ⟨rfl, fun kind h => by rw [show action = _ from h] at hmedia; cases hmedia⟩
      · cases h
  | deliver i =>
      obtain ⟨p, hp, rfl⟩ := Option.map_eq_some_iff.mp h
      exact aside_deliver hp
  | otherJoin o g token permission now =>
      dsimp only at h
      split at h
      · rename_i hg
        cases h
        exact aside_enqueue (sameWeb_otherJoin hg token permission now) (plain_quiet _)
          (fun p hp => .inl (by simpa using hp))
      · cases h
  | otherLeave o g now =>
      obtain ⟨room, hroom, rfl⟩ := Option.map_eq_some_iff.mp h
      exact aside_section (sameWeb_otherLeave hfresh hroom) nofun
  | autoLockKick g =>
      cases h
      exact aside_section (.of_same (Registry.same_set (autoLockKick_clients _ _)))
        (plain_kicked _)
  | message | take | act | fail | lock | settle | knock | leave | trackStart | trackEnd => cases ha

end Aside

/-- The end of a callback only queues pushes, if it finds a group. -/
theorem trackPush_eq (w : World) (n : ℕ) (c : WebClient) (id : String) :
    ∃ pending panic, trackPush w n c id =
        ⟨w.registry, { c with callbacks := c.callbacks.erase id }, [], pending, panic⟩ ∧
      (∀ p ∈ pending, Plain p.queued) ∧ (panic = true → c.group = none) := by
  unfold trackPush
  split
  · exact ⟨[], true, rfl, nofun, fun _ => by assumption⟩
  · exact ⟨_, false, rfl, plain_pendingOf (plain_pushConn _ _ _), nofun⟩

/-- `AddClient` from its lock on: the client is let in, or it is not. -/
structure Locked (w : World) (n : ℕ) (c : WebClient) (g : ℕ) (added : Added Member) (r : Reply) :
    Prop where
  id : r.client.id = c.id
  group : r.client.group = c.group
  up : r.client.up = c.up
  callbacks : r.client.callbacks = c.callbacks
  actions : r.client.actions = c.actions
  evictions : r.client.evictions = c.evictions
  panic : r.panic = false
  pending : r.pending = []
  calls : ∀ e ∈ r.calls, Plain e.2
  permissions : r.client.permissions = added.init.elim c.permissions (·.2)
  registry : r.registry = w.registry.set g added.group
  outcome : (added.error = none ∧ r.client.pc = .joined g ∧ r.client.stay = c.stay + 1 ∧
      r.client.granted = r.client.permissions ∧ r.client.commands = []) ∨
    (added.error ≠ none ∧ (r.client.pc = .ready [] ∨ ∃ name, r.client.pc = .knocked name) ∧
      r.client.stay = c.stay ∧ r.client.granted = c.granted ∧ r.client.commands = c.commands)

theorem locked_lockGroup (w : World) (n : ℕ) (c : WebClient) (g : ℕ) (name token : String)
    (permission : Except Error (String × Permissions)) (now : ℕ) :
    Locked w n c g (addClient w.view (w.room g) (.web n) token permission now)
      (lockGroup w n c g name token permission now) := by
  unfold lockGroup
  cases herror : (addClient w.view (w.room g) (.web n) token permission now).error with
  | none =>
      simp only [herror]
      exact ⟨rfl, rfl, rfl, rfl, rfl, rfl, rfl, rfl, plain_quiet _, rfl, rfl,
        .inl ⟨herror, rfl, rfl, rfl, rfl⟩⟩
  | some e =>
      cases e
      case knocking =>
        simp only [herror]
        exact ⟨rfl, rfl, rfl, rfl, rfl, rfl, rfl, rfl, plain_quiet _, rfl, rfl,
          .inr ⟨by simp [herror], .inr ⟨name, rfl⟩, rfl, rfl, rfl⟩⟩
      all_goals
        simp only [herror]
        exact ⟨rfl, rfl, rfl, rfl, rfl, rfl, rfl, rfl, plain_quiet _, rfl, rfl,
          .inr ⟨by simp [herror], .inl rfl, rfl, rfl, rfl⟩⟩

/-- What all the parts of `leaveGroup` do, and what only the last one does. -/
structure Leaving (c : WebClient) (stage : LeaveStage) (r : Reply) : Prop where
  id : r.client.id = c.id
  callbacks : r.client.callbacks = c.callbacks
  actions : r.client.actions = c.actions
  stay : r.client.stay = c.stay
  granted : r.client.granted = c.granted
  commands : r.client.commands = c.commands
  evictions : r.client.evictions = c.evictions
  up : r.client.up ⊆ c.up
  panic : r.panic = false
  calls : ∀ e ∈ r.calls, Plain e.2
  pending : ∀ p ∈ r.pending, Plain p.queued
  rights : (r.client.group = c.group ∧ r.client.permissions = c.permissions) ∨
    (stage = .clear ∧ r.client.group = none ∧ r.client.permissions = [])

theorem leaving_leaveGroup (w : World) (n : ℕ) (c : WebClient) (stage : LeaveStage) (ending : Bool)
    (now : ℕ) : Leaving c stage (leaveGroup w n c stage ending now) := by
  unfold leaveGroup
  cases stage with
  | knock =>
      dsimp only
      split
      · exact ⟨rfl, rfl, rfl, rfl, rfl, rfl, rfl, fun _ h => h, rfl, List.forall_mem_nil _, List.forall_mem_nil _, .inl ⟨rfl, rfl⟩⟩
      · exact ⟨rfl, rfl, rfl, rfl, rfl, rfl, rfl, fun _ h => h, rfl, plain_quiet _, List.forall_mem_nil _,
          .inl ⟨rfl, rfl⟩⟩
  | conns =>
      exact ⟨rfl, rfl, rfl, rfl, rfl, rfl, rfl, List.nil_subset _, rfl, plain_closeAll, List.forall_mem_nil _,
        .inl ⟨rfl, rfl⟩⟩
  | member =>
      dsimp only
      split
      · exact ⟨rfl, rfl, rfl, rfl, rfl, rfl, rfl, fun _ h => h, rfl, List.forall_mem_nil _, List.forall_mem_nil _, .inl ⟨rfl, rfl⟩⟩
      split
      · exact ⟨rfl, rfl, rfl, rfl, rfl, rfl, rfl, fun _ h => h, rfl, List.forall_mem_nil _, List.forall_mem_nil _, .inl ⟨rfl, rfl⟩⟩
      · exact ⟨rfl, rfl, rfl, rfl, rfl, rfl, rfl, fun _ h => h, rfl, plain_quiet _, List.forall_mem_nil _,
          .inl ⟨rfl, rfl⟩⟩
  | lock =>
      dsimp only
      split
      · exact ⟨rfl, rfl, rfl, rfl, rfl, rfl, rfl, fun _ h => h, rfl, List.forall_mem_nil _, List.forall_mem_nil _, .inl ⟨rfl, rfl⟩⟩
      · exact ⟨rfl, rfl, rfl, rfl, rfl, rfl, rfl, fun _ h => h, rfl, plain_quiet _, plain_kicked _,
          .inl ⟨rfl, rfl⟩⟩
  | clear =>
      exact ⟨rfl, rfl, rfl, rfl, rfl, rfl, rfl, fun _ h => h, rfl, List.forall_mem_nil _, List.forall_mem_nil _,
        .inr ⟨rfl, rfl, rfl⟩⟩

/-- The steps of a client's own, with what each of them starts from. -/
inductive Turn (w : World) (n : ℕ) : Label → Reply → Prop
  | message (m : ClientMessage) (env : Env) : (w.clients n).pc = .ready [] →
      Turn w n (.message n m env) (handleClientMessage w n (w.clients n) m env)
  | take : (w.clients n).pc = .ready [] →
      Turn w n (.take n)
        (w.reply { w.clients n with pc := .ready (w.clients n).actions, actions := [] })
  | act (q : Queued) (rest : List Queued) (env : Env) : (w.clients n).pc = .ready (q :: rest) →
      Turn w n (.act n env) (handleAction w n { w.clients n with pc := .ready rest } q env)
  | fail (batch : List Queued) : (w.clients n).pc = .ready batch →
      Turn w n (.fail n) (w.fail (w.clients n))
  | lock (g : ℕ) (name token : String) (now : ℕ)
      (permission : Except Error (String × Permissions)) :
      (w.clients n).pc = .joining g name token →
      Turn w n (.lock n now permission) (lockGroup w n (w.clients n) g name token permission now)
  | settle (g : ℕ) : (w.clients n).pc = .joined g →
      Turn w n (.settle n) (w.reply (settle w (w.clients n) g))
  | knock (name : String) : (w.clients n).pc = .knocked name →
      Turn w n (.knock n)
        (w.reply { w.clients n with knocking := w.registry.table.lookup name, pc := .ready [] })
  | leave (stage : LeaveStage) (ending : Bool) (now : ℕ) :
      (w.clients n).pc = .leaving stage ending →
      Turn w n (.leave n now) (leaveGroup w n (w.clients n) stage ending now)
  | trackStart (id : String) : id ∈ (w.clients n).up →
      Turn w n (.trackStart n id)
        (w.reply { w.clients n with callbacks := id :: (w.clients n).callbacks })
  | trackEnd (id : String) : id ∈ (w.clients n).callbacks →
      Turn w n (.trackEnd n id) (trackPush w n (w.clients n) id)

theorem step_turn {w t : World} {n : ℕ} {a : Label} (ha : a.client = some n)
    (h : step w a = some t) : ∃ r, Turn w n a r ∧ t = w.commit n r := by
  unfold step at h
  split at h
  · cases h
  cases a with
  | message k m env =>
      cases ha
      dsimp only at h
      split at h <;> cases h
      exact ⟨_, .message m env ‹_›, rfl⟩
  | take k =>
      cases ha
      dsimp only at h
      split at h <;> cases h
      exact ⟨_, .take (And.left ‹_›), rfl⟩
  | act k env =>
      cases ha
      dsimp only at h
      split at h <;> cases h
      exact ⟨_, .act _ _ env ‹_›, rfl⟩
  | fail k =>
      cases ha
      dsimp only at h
      split at h <;> cases h
      exact ⟨_, .fail _ ‹_›, rfl⟩
  | lock k now permission =>
      cases ha
      dsimp only at h
      split at h <;> cases h
      exact ⟨_, .lock _ _ _ now permission ‹_›, rfl⟩
  | settle k =>
      cases ha
      dsimp only at h
      split at h <;> cases h
      exact ⟨_, .settle _ ‹_›, rfl⟩
  | knock k =>
      cases ha
      dsimp only at h
      split at h <;> cases h
      exact ⟨_, .knock _ ‹_›, rfl⟩
  | leave k now =>
      cases ha
      dsimp only at h
      split at h <;> cases h
      exact ⟨_, .leave _ _ now ‹_›, rfl⟩
  | trackStart k id =>
      cases ha
      dsimp only at h
      split at h <;> cases h
      exact ⟨_, .trackStart id ‹_›, rfl⟩
  | trackEnd k id =>
      cases ha
      dsimp only at h
      split at h <;> cases h
      exact ⟨_, .trackEnd id ‹_›, rfl⟩
  | update | delete | shutdown | queue | deliver | otherJoin | otherLeave | autoLockKick => cases ha

end Sozvon.WebClients
