import Sozvon.Membership
import Sozvon.Lobby
import Mathlib.Data.Fintype.Defs

/-!
# Who waits at a group

A group remembers the ids of those who wait to be let in and of those who have
been admitted, and a client remembers the one group whose memory it has to clear
when it goes. A second join writes over that while the first group may still
know the client.
-/
namespace Sozvon.WebClients
open Groups GroupTable Runs Lobby

section Definitions

/-- Group `g` has the id in its waiting list or among the admitted. -/
def World.Holds (w : World) (g : ℕ) (id : String) : Prop :=
  id ∈ (w.room g).knocking ∨ id ∈ (w.room g).admitted

instance (w : World) (g : ℕ) (id : String) : Decidable (w.Holds g id) :=
  inferInstanceAs (Decidable (_ ∨ _))

/-- Every id that a group holds is that of a client who is there, outside, and remembers
the group; what follows for a client who has gone on is said as well. -/
structure Known (w : World) : Prop where
  waits : ∀ g id, w.Holds g id → ∃ n, (w.clients n).id = id ∧ (w.clients n).pc ≠ .ended ∧
    .web n ∉ (w.room g).members ∧
      ((∀ name, (w.clients n).pc ≠ .knocked name) → (w.clients n).knocking = some g)
  entered : ∀ n g, (w.clients n).group = some g → ∀ g', ¬ w.Holds g' (w.clients n).id
  moved : ∀ n g, (∀ name, (w.clients n).pc ≠ .knocked name) → (w.clients n).knocking = some g →
    ∀ g' ≠ g, ¬ w.Holds g' (w.clients n).id
  gone : ∀ n, (w.clients n).pc = .ended → ∀ g, ¬ w.Holds g (w.clients n).id
  alive : ∀ g, (w.room g).isEmpty = false → (w.room g).members ≠ [] ∨
    ∃ n, (w.clients n).id ∈ (w.room g).knocking ∧ (w.clients n).pc ≠ .ended

def Distinct (w : World) : Prop := Function.Injective fun n => (w.clients n).id

/-- The lobby has admitted client `n`, and it is by this that it comes in. -/
def World.ByTicket (w : World) (n g : ℕ) (permission : Except Error (String × Permissions)) : Prop :=
  (w.room g).description.lobby = true ∧ (w.clients n).id ∈ (w.room g).admitted ∧
    "system" ∉ (w.clients n).permissions ∧ ∀ p ∈ permission.toOption, "op" ∉ p.2

/-- A client that a group holds enters that group only, by its ticket; and who is already a
member does not come to wait. -/
def World.Comes (w : World) (n g : ℕ) (token : String)
    (permission : Except Error (String × Permissions)) (now : ℕ) : Prop :=
  (Enters w.view (w.room g) (.web n) token permission now →
    ∀ k ∈ (w.clients n).knocking, w.Holds k (w.clients n).id → k = g ∧ w.ByTicket n g permission) ∧
  (Knocks w.view (w.room g) (.web n) token permission → .web n ∉ (w.room g).members)

def World.Orderly (w : World) : Label → Prop
  | .lock n now permission =>
      match (w.clients n).pc with
      | .joining g _ token => w.Comes n g token permission now
      | _ => True
  | .knock n =>
      match (w.clients n).pc with
      | .knocked name => ∀ g < w.registry.size, w.Holds g (w.clients n).id →
          w.registry.table.lookup name = some g
      | _ => True
  | .otherJoin o g token permission _ => ¬ Knocks w.view (w.room g) (.other o) token permission
  | _ => True

end Definitions

/-- What a lock section that is not `AddClient` does to the two sets. -/
structure Recedes (room room' : Groups.Group Member) : Prop where
  knocking : ∀ id ∈ room'.knocking, id ∈ room.knocking
  admitted : ∀ id ∈ room'.admitted, id ∈ room.admitted ∨ id ∈ room.knocking
  apart : (∀ id ∈ room.knocking, id ∉ room.admitted) → ∀ id ∈ room'.knocking, id ∉ room'.admitted

section Recedes
variable {room room' : Groups.Group Member} {id : String} {v : View Member}

theorem Recedes.of_same (hknocking : room'.knocking = room.knocking)
    (hadmitted : room'.admitted = room.admitted) : Recedes room room' where
  knocking _ h := hknocking ▸ h
  admitted _ h := .inl (hadmitted ▸ h)
  apart h := by
    rw [hknocking, hadmitted]
    exact h

theorem Recedes.refl (room : Groups.Group Member) : Recedes room room := .of_same rfl rfl

/-- The id is dropped from both. -/
theorem Recedes.drop (hknocking : room'.knocking = room.knocking.erase id)
    (hadmitted : room'.admitted = room.admitted.filter (· ≠ id)) : Recedes room room' where
  knocking i h := by
    rw [hknocking, AList.mem_erase] at h
    exact h.2
  admitted i h := by
    rw [hadmitted, List.mem_filter] at h
    exact .inl h.1
  apart h i hi hi' := by
    rw [hknocking, AList.mem_erase] at hi
    rw [hadmitted, List.mem_filter] at hi'
    exact h i hi.2 hi'.1

/-- A ticket has been used. -/
theorem Recedes.spent (hknocking : room'.knocking = room.knocking)
    (hadmitted : room'.admitted = room.admitted.filter (· ≠ id)) : Recedes room room' where
  knocking i h := hknocking ▸ h
  admitted i h := by
    rw [hadmitted, List.mem_filter] at h
    exact .inl h.1
  apart h i hi hi' := by
    rw [hknocking] at hi
    rw [hadmitted, List.mem_filter] at hi'
    exact h i hi hi'.1

theorem recedes_admitKnock {r : Groups.Group Member × List (Member × Call)}
    (h : admitKnock v room id = .ok r) : Recedes room r.1 := by
  unfold admitKnock at h
  split at h
  · cases h
  · rename_i k hk
    cases h
    refine ⟨?_, ?_, ?_⟩
    · intro i hi
      exact (AList.mem_erase.mp hi).2
    · intro i hi
      rcases List.mem_cons.mp hi with rfl | hold
      · exact .inr (AList.lookup_isSome.mp (by rw [hk]; rfl))
      · exact .inl (List.mem_filter.mp hold).1
    · intro hapart i hi hi'
      obtain ⟨hne, hold⟩ := AList.mem_erase.mp hi
      rcases List.mem_cons.mp hi' with rfl | hmem
      · exact hne rfl
      · exact hapart i hold (List.mem_filter.mp hmem).1

theorem recedes_deny {r : Groups.Group Member × List (Member × Call)}
    (h : deny v room id = .ok r) : Recedes room r.1 := by
  unfold deny at h
  split at h
  · cases h
  · cases h
    exact .drop rfl rfl

theorem recedes_autoLockKick (v : View Member) (room : Groups.Group Member) :
    Recedes room (autoLockKick v room).1 := by
  obtain ⟨-, hknocking, hadmitted, -⟩ := autoLockKick_keeps v room
  exact .of_same hknocking hadmitted

theorem recedes_delClient {c : Member} {now : ℕ} (h : delClient v room c now = some room') :
    Recedes room room' := by
  unfold delClient at h
  split at h
  · cases h
    exact .of_same rfl rfl
  · cases h

end Recedes

/-- So do all groups. -/
def RecedesAll (r r' : Registry Member) : Prop := ∀ g, Recedes (r.heap g) (r'.heap g)

section Registry
variable {r r' : Registry Member} {v : View Member}

theorem RecedesAll.refl (r : Registry Member) : RecedesAll r r := fun _ => .refl _

theorem recedesAll_set {g : ℕ} {room : Groups.Group Member} (h : Recedes (r.heap g) room) :
    RecedesAll r (r.set g room) := by
  intro k
  by_cases hk : k = g
  · subst k
    simpa [Registry.set] using h
  · simp only [Registry.set, Function.update_of_ne hk]
    exact .refl _

theorem recedesAll_deleteUnlocked (g : ℕ) : RecedesAll r (r.deleteUnlocked g) := by
  intro k
  rw [Registry.heap_deleteUnlocked]
  exact .refl _

theorem recedesAll_create (name : String) (desc : Description) (now : ℕ) :
    RecedesAll r (r.create name desc now) := by
  intro k
  by_cases hk : k = r.size
  · subst k
    simp only [Registry.create, Function.update_self]
    exact ⟨fun id h => absurd h (AList.notMem_empty id), List.forall_mem_nil _,
      fun _ _ _ => List.not_mem_nil⟩
  · rw [Registry.create_heap_of_ne hk]
    exact .refl _

theorem RecedesAll.trans {r'' : Registry Member} (h : RecedesAll r r') (h' : RecedesAll r' r'') :
    RecedesAll r r'' := by
  intro g
  refine ⟨fun id hid => (h g).knocking id ((h' g).knocking id hid), ?_, fun hapart =>
    (h' g).apart ((h g).apart hapart)⟩
  intro id hid
  rcases (h' g).admitted id hid with hadmitted | hknocking
  · exact (h g).admitted id hadmitted
  · exact .inr ((h g).knocking id hknocking)

theorem recedesAll_refresh (g : ℕ) (desc : Description) (notify : Bool) :
    RecedesAll r (refresh v r g desc notify).registry := by
  have hkick := recedes_autoLockKick v { r.heap g with description := desc }
  exact recedesAll_set ⟨hkick.knocking, hkick.admitted, hkick.apart⟩

theorem recedesAll_add (v : View Member) (r : Registry Member) (file : File) (now : ℕ)
    (name : String) (desc : Option Description) : RecedesAll r (add v r file now name desc).registry := by
  unfold add
  split
  · exact .refl _
  split
  · split
    · exact .refl _
    · exact (recedesAll_create _ _ _).trans (recedesAll_refresh _ _ _)
  · split
    · split
      · exact recedesAll_refresh _ _ _
      · exact recedesAll_refresh _ _ _
    · split
      · exact recedesAll_refresh _ _ _
      · split
        · exact recedesAll_deleteUnlocked _
        · exact recedesAll_refresh _ _ _

theorem recedesAll_delete (name : String) : RecedesAll r (r.delete name).1 := by
  unfold Registry.delete
  split
  · exact .refl _
  · exact recedesAll_deleteUnlocked _

end Registry

/-- A handler leaves the pointer alone, and lets no group hold anyone new. -/
structure Calm (w : World) (c : WebClient) (r : Reply) : Prop where
  knocking : r.client.knocking = c.knocking
  recedes : RecedesAll w.registry r.registry

section Handlers
variable {w : World} {n : ℕ} {c c' : WebClient} {calls : List (Member × Queued)}
  {pending : List Pending} {panic : Bool}

theorem calm_reply (h : c'.knocking = c.knocking) :
    Calm w c { registry := w.registry, client := c', calls, pending, panic } := ⟨h, .refl _⟩

theorem calm_section {g : ℕ} {room : Groups.Group Member} (h : Recedes (w.room g) room) :
    Calm w c { registry := w.registry.set g room, client := c, calls } :=
  ⟨rfl, recedesAll_set h⟩

theorem calm_delUpConn (id : String) :
    Calm w c { registry := w.registry, client := (delUpConn w n c id).1
               calls := (delUpConn w n c id).2 } := by
  unfold delUpConn
  split <;> exact calm_reply rfl

theorem calm_gotOffer (id replace : String) (env : Env) : Calm w c (gotOffer w n c id replace env) := by
  unfold gotOffer
  split
  · exact calm_reply rfl
  split
  · exact calm_reply rfl
  split
  · exact calm_reply rfl
  split
  · exact calm_reply rfl
  · split <;> exact calm_reply rfl

theorem calm_offer (id replace : String) (env : Env) : Calm w c (offer w n c id replace env) := by
  unfold offer
  split
  · exact calm_reply rfl
  split
  · split
    · exact calm_reply rfl
    · exact calm_delUpConn replace
  · exact calm_gotOffer id replace env

theorem calm_join (name token : String) (data : Data) (env : Env) :
    Calm w c (join w c name token data env) := by
  unfold join
  split
  · exact calm_reply rfl
  split
  · exact calm_reply rfl
  · dsimp only
    split <;> exact ⟨rfl, recedesAll_add w.view w.registry env.file env.now name none⟩

theorem calm_groupaction (action : GroupAction) (g : ℕ) : Calm w c (groupaction w c action g) := by
  unfold groupaction
  cases action with
  | lock on message =>
      dsimp only
      split
      · exact calm_reply rfl
      · exact calm_section (.of_same rfl rfl)
  | setgroup locked1on1 =>
      cases locked1on1 with
      | none => exact calm_reply rfl
      | some on =>
          dsimp only
          split
          · exact calm_reply rfl
          · exact calm_section (.of_same rfl rfl)
  | setdata =>
      dsimp only
      split <;> exact calm_reply rfl
  | known kind => exact calm_reply rfl
  | unknown => exact calm_reply rfl

theorem calm_lookup (g : ℕ) (dest : String) (action : Action) :
    Calm w c (((w.room g).clients.lookup dest).elim (w.reply c) fun t => issue w n c g t action) := by
  cases (w.room g).clients.lookup dest with
  | none => exact calm_reply rfl
  | some t => cases t <;> exact calm_reply rfl

theorem calm_answerKnock {g : ℕ} {r : Except Error (Groups.Group Member × List (Member × Call))}
    (h : ∀ r', r = .ok r' → Recedes (w.room g) r'.1) : Calm w c (answerKnock w c g r) := by
  cases r with
  | error e => exact calm_reply rfl
  | ok r => exact calm_section (h r rfl)

theorem calm_useraction (m : ClientMessage) (action : UserAction) (dest : String) (g : ℕ) :
    Calm w c (useraction w n c m action dest g) := by
  unfold useraction
  cases action with
  | change kind =>
      dsimp only
      split
      · exact calm_reply rfl
      split
      · exact calm_reply rfl
      · exact calm_lookup g dest _
  | identify => exact calm_reply rfl
  | kick message =>
      dsimp only
      split
      · exact calm_reply rfl
      · exact calm_lookup g dest _
  | admitKnock =>
      dsimp only
      split
      · exact calm_reply rfl
      · exact calm_answerKnock fun r h => recedes_admitKnock h
  | deny =>
      dsimp only
      split
      · exact calm_reply rfl
      · exact calm_answerKnock fun r h => recedes_deny h
  | setdata changes =>
      dsimp only
      split <;> exact calm_reply rfl

theorem calm_message (m : ClientMessage) (env : Env) :
    Calm w c (handleClientMessage w n c m env) := by
  unfold handleClientMessage
  split
  · exact calm_reply rfl
  split
  · exact calm_reply rfl
  cases m.body with
  | join name token data => exact calm_join name token data env
  | offer id replace => exact calm_offer id replace env
  | close id =>
      dsimp only
      split
      · exact calm_reply rfl
      · exact calm_delUpConn id
  | groupaction action =>
      dsimp only [inGroup]
      cases c.group with
      | none => exact calm_reply rfl
      | some g => exact calm_groupaction action g
  | useraction action dest =>
      dsimp only [inGroup]
      cases c.group with
      | none => exact calm_reply rfl
      | some g => exact calm_useraction m action dest g
  | chat dest =>
      dsimp only [inGroup]
      cases c.group <;> exact calm_reply rfl
  | leave name =>
      dsimp only
      split
      · exact calm_reply rfl
      split <;> exact calm_reply rfl
  | request =>
      dsimp only
      split
      · exact calm_reply rfl
      split <;> exact calm_reply rfl
  | requestStream id =>
      dsimp only
      split
      · exact calm_reply rfl
      split <;> exact calm_reply rfl
  | answer id =>
      dsimp only
      split
      · exact calm_reply rfl
      split <;> exact calm_reply rfl
  | renegotiate id =>
      dsimp only
      split
      · exact calm_reply rfl
      split <;> exact calm_reply rfl
  | abort id =>
      dsimp only
      split <;> exact calm_reply rfl
  | ice id candidate =>
      dsimp only
      split <;> exact calm_reply rfl
  | unknownJoin | ping | pong | quality | unexpected => exact calm_reply rfl

theorem calm_pushDownConn (id : String) (conn : Option Member) (replace : String) (env : Env) :
    Calm w c (pushDownConn w c id conn replace env) := by
  unfold pushDownConn
  cases conn with
  | none => exact calm_reply rfl
  | some owner =>
      dsimp only
      split
      · exact calm_reply rfl
      split <;> exact calm_reply rfl

theorem calm_action (q : Queued) (env : Env) : Calm w c (handleAction w n c q env) := by
  unfold handleAction
  cases q.action with
  | pushConn group id conn replace =>
      dsimp only
      split
      · exact calm_reply rfl
      · exact calm_pushDownConn id conn replace env
  | requestConns group target id =>
      dsimp only
      split
      · exact calm_reply rfl
      split <;> exact calm_reply rfl
  | connectionFailed id =>
      dsimp only
      split
      · exact calm_reply rfl
      split <;> exact calm_reply rfl
  | call call => cases call <;> exact calm_reply rfl
  | changePermissions kind =>
      dsimp only
      split <;> exact calm_reply rfl
  | permissionsChanged =>
      dsimp only
      split
      · exact calm_reply rfl
      split <;> exact calm_reply rfl

end Handlers

/-- A step outside the clients' loops. -/
structure CalmAside (w t : World) : Prop where
  knocking : ∀ m, (t.clients m).knocking = (w.clients m).knocking
  recedes : RecedesAll w.registry t.registry

theorem calmAside_step {w t : World} {a : Label} (ha : a.client = none) (hok : w.Orderly a)
    (h : step w a = some t) : CalmAside w t := by
  unfold step at h
  split at h
  · cases h
  cases a with
  | update file now name desc =>
      cases h
      exact ⟨fun _ => rfl, recedesAll_add w.view w.registry file now name desc⟩
  | delete name =>
      cases h
      exact ⟨fun _ => rfl, recedesAll_delete name⟩
  | shutdown g message =>
      cases h
      exact ⟨fun _ => rfl, recedesAll_set (.of_same rfl rfl)⟩
  | queue n action =>
      dsimp only at h
      split at h <;> cases h
      exact ⟨fun _ => rfl, .refl _⟩
  | deliver i =>
      obtain ⟨p, hp, rfl⟩ := Option.map_eq_some_iff.mp h
      refine ⟨fun m => ?_, ?_⟩
      · unfold World.resume
        split
        · rfl
        · rename_i k _
          split
          · by_cases hm : m = k
            · subst m
              simp only [Function.update_self]
              rfl
            · simp only [Function.update_of_ne hm]
              rfl
          · rfl
      · rw [(resume_fields p.caller).1]
        exact .refl _
  | otherJoin o g token permission now =>
      dsimp only at h
      split at h <;> cases h
      refine ⟨fun _ => rfl, recedesAll_set ?_⟩
      have hknocking :
          (addClient w.view (w.room g) (.other o) token permission now).group.knocking =
            (w.room g).knocking ∧
          ((addClient w.view (w.room g) (.other o) token permission now).error = some .knocking →
            permission = .error .knocking) := addClient_knocking hok
      cases fate_addClient w.view (w.room g) (.other o) token permission now with
      | system _ _ _ hadmitted => exact .of_same hknocking.1 hadmitted
      | refused _ _ _ _ hgroup =>
          rw [hgroup]
          exact .refl _
      | granted _ username perms hpermission hgranted =>
          by_cases hop : "op" ∈ perms
          · exact .of_same hknocking.1 (hgranted.op hop).2.1
          obtain ⟨g', error, hmet, -, hadmitted, hrefused, -⟩ := hgranted.visitor hop
          cases hmet with
          | lobbyless | pass | turned => exact .of_same hknocking.1 hadmitted
          | ticket => exact .spent hknocking.1 hadmitted
          | knocked => exact absurd (hpermission.symm.trans (hknocking.2 (hrefused _ rfl))) nofun
  | otherLeave o g now =>
      obtain ⟨room, hroom, rfl⟩ := Option.map_eq_some_iff.mp h
      exact ⟨fun _ => rfl, recedesAll_set (recedes_delClient hroom)⟩
  | autoLockKick g =>
      cases h
      exact ⟨fun _ => rfl, recedesAll_set (recedes_autoLockKick _ _)⟩
  | message | take | act | fail | lock | settle | knock | leave | trackStart | trackEnd => cases ha

/-- The client is outside and remembers the group, or is about to. -/
def WebClient.Waits (c : WebClient) (g : ℕ) : Prop :=
  c.group = none ∧
    match c.pc with
    | .knocked _ => True
    | .ready _ | .joining .. | .acting | .leaving .knock _ => c.knocking = some g
    | _ => False

structure Tracked (w : World) : Prop extends Founded w where
  apart : ∀ g, ∀ id ∈ (w.room g).knocking, id ∉ (w.room g).admitted
  outside : ∀ n g name token, (w.clients n).pc = .joining g name token → (w.clients n).group = none
  waits : ∀ g id, w.Holds g id → g < w.registry.size ∧
    ∃ n, (w.clients n).id = id ∧ (w.clients n).Waits g ∧ .web n ∉ (w.room g).members

section Tracked
variable {w t : World} {n g : ℕ} {r : Reply} {c c' : WebClient}

theorem WebClient.Waits.of_same (h : c.Waits g) (hgroup : c'.group = c.group)
    (hknocking : c'.knocking = c.knocking) (hpc : c'.pc = c.pc) : c'.Waits g := by
  refine ⟨hgroup.trans h.1, ?_⟩
  have hplace := h.2
  rw [hpc, hknocking]
  exact hplace

/-- Between two handlers the pointer says where the client waits. -/
theorem WebClient.Waits.ready {batch : List Queued} (h : c.Waits g) (hpc : c.pc = .ready batch) :
    c.knocking = some g := by
  have hplace := h.2
  rw [hpc] at hplace
  exact hplace

theorem waits_of_knocking (hgroup : c.group = none) (hknocking : c.knocking = some g)
    (hpc : (∃ batch, c.pc = .ready batch) ∨ (∃ b, c.pc = .leaving .knock b) ∨ c.pc = .acting ∨
      ∃ k name token, c.pc = .joining k name token) : c.Waits g := by
  refine ⟨hgroup, ?_⟩
  rcases hpc with ⟨batch, hpc⟩ | ⟨b, hpc⟩ | hpc | ⟨k, name, token, hpc⟩ <;> rw [hpc] <;> exact hknocking

theorem Recedes.holds {room room' : Groups.Group Member} {id : String} (h : Recedes room room')
    (hid : id ∈ room'.knocking ∨ id ∈ room'.admitted) : id ∈ room.knocking ∨ id ∈ room.admitted := by
  rcases hid with hknocking | hadmitted
  · exact .inl (h.knocking id hknocking)
  · exact (h.admitted id hadmitted).symm

/-- A step in which no group comes to hold anyone new. -/
theorem Tracked.commit (h : Tracked w) (hfounded : Founded (w.commit n r))
    (hsize : w.registry.size ≤ r.registry.size) (hrecedes : RecedesAll w.registry r.registry)
    (hmembers : ∀ m g, .web m ∈ (r.registry.heap g).members → .web m ∈ (w.room g).members)
    (hid : r.client.id = (w.clients n).id)
    (hjoining : ∀ g name token, r.client.pc = .joining g name token → r.client.group = none)
    (hwaits : ∀ g, (w.commit n r).Holds g (w.clients n).id → w.Holds g (w.clients n).id →
      (w.clients n).Waits g → r.client.Waits g) : Tracked (w.commit n r) where
  toFounded := hfounded
  apart g := (hrecedes g).apart (h.apart g)
  outside m g name token hpc := by
    by_cases hm : m = n
    · subst m
      rw [commit_self] at hpc ⊢
      exact hjoining g name token hpc
    · rw [commit_of_ne hm] at hpc ⊢
      exact h.outside m g name token hpc
  waits g id hholds := by
    have hold : w.Holds g id := (hrecedes g).holds hholds
    obtain ⟨hlt, m, hmid, hmwaits, hout⟩ := h.waits g id hold
    refine ⟨Nat.lt_of_lt_of_le hlt hsize, m, ?_⟩
    by_cases hm : m = n
    · subst m
      subst hmid
      rw [commit_self]
      exact ⟨hid, (hwaits g hholds hold hmwaits).of_same rfl rfl rfl, fun hin => hout (hmembers _ g hin)⟩
    · rw [commit_of_ne hm]
      exact ⟨hmid, hmwaits.of_same rfl rfl rfl, fun hin => hout (hmembers m g hin)⟩

theorem members_of_same (h : w.registry.Same r.registry) (m g : ℕ)
    (hin : .web m ∈ (r.registry.heap g).members) : .web m ∈ (w.room g).members := by
  simp only [Groups.Group.members, h.clients] at hin
  exact hin

theorem Tracked.handled (h : Tracked w) {batch rest : List Queued}
    (hbefore : (w.clients n).pc = .ready batch) (hr : Handled w { w.clients n with pc := .ready rest } r)
    (hcalm : Calm w { w.clients n with pc := .ready rest } r) : Tracked (w.commit n r) := by
  have hfounded : Founded (w.commit n r) := h.toFounded.handled rfl hr
  refine h.commit hfounded hr.registry.size hcalm.recedes (members_of_same hr.registry)
    hr.untouched.id ?_ ?_
  · intro g name token hpc
    rcases hr.pc with hsame | ⟨b, hsame⟩ | hsame | ⟨g', name', token', -, hgroup, -⟩
    · exact absurd (hsame.symm.trans hpc) nofun
    · exact absurd (hsame.symm.trans hpc) nofun
    · exact absurd (hsame.symm.trans hpc) nofun
    · exact hr.untouched.group.trans hgroup
  · intro g _ _ hwaits
    have hknocking := hcalm.knocking.trans (hwaits.ready hbefore)
    refine waits_of_knocking (hr.untouched.group.trans hwaits.1) hknocking ?_
    rcases hr.pc with hsame | hleaving | hacting | ⟨g', name', token', hjoining, -, -⟩
    · exact .inl ⟨rest, hsame⟩
    · exact .inr (.inl hleaving)
    · exact .inr (.inr (.inl hacting))
    · exact .inr (.inr (.inr ⟨g', name', token', hjoining⟩))

theorem Tracked.aside (h : Tracked w) (ht : Aside w t) (hcalm : CalmAside w t) : Tracked t where
  toFounded := h.toFounded.aside ht
  apart g := (hcalm.recedes g).apart (h.apart g)
  outside m g name token hpc := by
    rcases (ht.client m).pc with hsame | ⟨-, hready⟩
    · exact (ht.client m).group.trans (h.outside m g name token (hsame ▸ hpc))
    · exact absurd (hready.symm.trans hpc) nofun
  waits g id hholds := by
    obtain ⟨hlt, m, hid, hwaits, hout⟩ := h.waits g id ((hcalm.recedes g).holds hholds)
    have hclient := ht.client m
    refine ⟨Nat.lt_of_lt_of_le hlt ht.registry.size, m, hclient.id.trans hid, ?_, ?_⟩
    · rcases hclient.pc with hsame | ⟨hacting, hready⟩
      · exact hwaits.of_same hclient.group (hcalm.knocking m) hsame
      · have hplace := hwaits.2
        rw [hacting] at hplace
        exact waits_of_knocking (hclient.group.trans hwaits.1) ((hcalm.knocking m).trans hplace)
          (.inl ⟨_, hready⟩)
    · exact fun hin => hout ((ht.registry.members g m).mp hin)

/-- `leaveGroup` clears the memory of the one group that the client remembers. -/
theorem calm_leaveGroup (w : World) (n : ℕ) (c : WebClient) (stage : LeaveStage) (ending : Bool)
    (now : ℕ) : RecedesAll w.registry (leaveGroup w n c stage ending now).registry ∧
      w.registry.size ≤ (leaveGroup w n c stage ending now).registry.size ∧
        ∀ m g, .web m ∈ ((leaveGroup w n c stage ending now).registry.heap g).members →
          .web m ∈ (w.room g).members := by
  have hset : ∀ (g : ℕ) (room : Groups.Group Member), Recedes (w.room g) room →
      (∀ m, .web m ∈ room.members → .web m ∈ (w.room g).members) →
      RecedesAll w.registry (w.registry.set g room) ∧
        w.registry.size ≤ (w.registry.set g room).size ∧
          ∀ m k, .web m ∈ ((w.registry.set g room).heap k).members →
            .web m ∈ (w.room k).members := by
    intro g room hrecedes hmembers
    refine ⟨recedesAll_set hrecedes, Nat.le_refl _, ?_⟩
    intro m k hin
    rw [room_set] at hin
    split at hin
    · rename_i hk
      subst k
      exact hmembers m hin
    · exact hin
  have hkeep : RecedesAll w.registry w.registry ∧ w.registry.size ≤ w.registry.size ∧
      ∀ m g, .web m ∈ (w.registry.heap g).members → .web m ∈ (w.room g).members :=
    ⟨.refl _, Nat.le_refl _, fun _ _ hin => hin⟩
  unfold leaveGroup
  cases stage with
  | knock =>
      dsimp only
      split
      · exact hkeep
      · exact hset _ _ (.drop rfl rfl) fun _ hin => hin
  | conns => exact hkeep
  | member =>
      dsimp only
      split
      · exact hkeep
      split
      · exact hkeep
      · rename_i room hroom
        have hclients := (delClient_cases hroom).2
        refine hset _ room (recedes_delClient hroom) fun m hin => ?_
        obtain ⟨id, hid⟩ := Group.mem_members.mp hin
        rw [hclients] at hid
        by_cases hself : id = w.view.id (.web n)
        · rw [hself, AList.lookup_erase] at hid
          cases hid
        · rw [AList.lookup_erase_ne hself] at hid
          exact Group.mem_members.mpr ⟨id, hid⟩
  | lock =>
      dsimp only
      split
      · exact hkeep
      · refine hset _ _ (recedes_autoLockKick _ _) fun m hin => ?_
        simp only [Groups.Group.members, autoLockKick_clients] at hin
        exact hin
  | clear => exact hkeep

theorem Tracked.leave (h : Tracked w) {stage : LeaveStage} {ending : Bool} {now : ℕ}
    (hpc : (w.clients n).pc = .leaving stage ending)
    (hfounded : Founded (w.commit n (leaveGroup w n (w.clients n) stage ending now))) :
    Tracked (w.commit n (leaveGroup w n (w.clients n) stage ending now)) := by
  obtain ⟨hrecedes, hsize, hmembers⟩ := calm_leaveGroup w n (w.clients n) stage ending now
  refine h.commit hfounded hsize hrecedes hmembers (leaving_leaveGroup w n _ stage ending now).id ?_ ?_
  · intro g name token hjoining
    rcases pc_leaveGroup w n (w.clients n) stage ending now with ⟨stage', hsame⟩ | ⟨hsame, hgroup⟩
    · exact absurd (hsame.symm.trans hjoining) nofun
    · exact hgroup
  · intro g hholds _ hwaits
    have hplace := hwaits.2
    rw [hpc] at hplace
    cases stage with
    | knock =>
        -- the group that the client waits at is the one that has just forgotten it
        have hknocking : (w.clients n).knocking = some g := hplace
        have hheap : ((w.commit n (leaveGroup w n (w.clients n) .knock ending now)).room g) =
            (removeKnock w.view (w.room g) (w.clients n).id).1 := by
          simp [World.room, World.commit, World.enqueue, leaveGroup, hknocking, Registry.set]
        simp only [World.Holds, hheap, removeKnock, AList.mem_erase, List.mem_filter] at hholds
        rcases hholds with hold | hold
        · exact absurd rfl hold.1
        · exact absurd rfl (of_decide_eq_true hold.2)
    | conns | member | lock | clear => exact hplace.elim

end Tracked

section Lock
variable {v : View Member} {room : Groups.Group Member} {c : Member} {token : String}
  {permission : Except Error (String × Permissions)} {a : Added Member} {id : String}

def HoldsIn (room : Groups.Group Member) (id : String) : Prop :=
  id ∈ room.knocking ∨ id ∈ room.admitted

theorem holdsIn_of_same {room' : Groups.Group Member} (hknocking : room'.knocking = room.knocking)
    (hadmitted : room'.admitted = room.admitted) : HoldsIn room' id ↔ HoldsIn room id := by
  rw [HoldsIn, HoldsIn, hknocking, hadmitted]

/-- `AddClient` changes nothing for other ids. -/
theorem holdsIn_of_ne (hfate : Fate v room c token permission a) (hid : id ≠ v.id c)
    (h : HoldsIn a.group id) : HoldsIn room id := by
  cases hfate with
  | system _ _ hknocking hadmitted => exact (holdsIn_of_same hknocking hadmitted).mp h
  | refused _ _ _ _ hgroup => exact hgroup ▸ h
  | granted _ username perms _ hgranted =>
      by_cases hop : "op" ∈ perms
      · obtain ⟨hknocking, hadmitted, -⟩ := hgranted.op hop
        exact (holdsIn_of_same hknocking hadmitted).mp h
      obtain ⟨g', error, hmet, hknocking, hadmitted, -⟩ := hgranted.visitor hop
      have h' : HoldsIn g' id := (holdsIn_of_same hknocking hadmitted).mp h
      cases hmet with
      | lobbyless => exact h'
      | ticket => exact h'.imp_right fun hmem => (List.mem_filter.mp hmem).1
      | pass => exact h'
      | turned => exact h'
      | knocked => exact h'.imp_left fun hmem => ((AList.mem_insert _).mp hmem).resolve_left hid

theorem apart_addClient (hfate : Fate v room c token permission a)
    (h : ∀ id ∈ room.knocking, id ∉ room.admitted) : ∀ id ∈ a.group.knocking, id ∉ a.group.admitted := by
  cases hfate with
  | system _ _ hknocking hadmitted =>
      rw [hknocking, hadmitted]
      exact h
  | refused _ _ _ _ hgroup =>
      rw [hgroup]
      exact h
  | granted _ username perms _ hgranted =>
      by_cases hop : "op" ∈ perms
      · obtain ⟨hknocking, hadmitted, -⟩ := hgranted.op hop
        rw [hknocking, hadmitted]
        exact h
      obtain ⟨g', error, hmet, hknocking, hadmitted, -⟩ := hgranted.visitor hop
      rw [hknocking, hadmitted]
      cases hmet with
      | lobbyless => exact h
      | ticket => exact fun id hmem hmem' => h id hmem (List.mem_filter.mp hmem').1
      | pass => exact h
      | turned => exact h
      | knocked lobby hout =>
          intro id hmem
          rcases (AList.mem_insert _).mp hmem with rfl | hold
          · exact hout
          · exact h id hold

/-- Whom the group holds it held before, or it has just put into its waiting room. -/
theorem holdsIn_before (hfate : Fate v room c token permission a) (h : HoldsIn a.group (v.id c)) :
    HoldsIn room (v.id c) ∨ a.error = some .knocking ∧ ∃ p, permission = .ok p := by
  cases hfate with
  | system _ _ hknocking hadmitted => exact .inl ((holdsIn_of_same hknocking hadmitted).mp h)
  | refused _ e _ _ hgroup => exact .inl (hgroup ▸ h)
  | granted _ username perms hpermission hgranted =>
      by_cases hop : "op" ∈ perms
      · obtain ⟨hknocking, hadmitted, -⟩ := hgranted.op hop
        exact .inl ((holdsIn_of_same hknocking hadmitted).mp h)
      obtain ⟨g', error, hmet, hknocking, hadmitted, hrefused, -⟩ := hgranted.visitor hop
      have h' : HoldsIn g' (v.id c) := (holdsIn_of_same hknocking hadmitted).mp h
      cases hmet with
      | lobbyless | pass | turned => exact .inl h'
      | ticket => exact .inl (h'.imp_right fun hmem => (List.mem_filter.mp hmem).1)
      | knocked => exact .inr ⟨hrefused _ rfl, _, hpermission⟩

/-- A client that comes in by its ticket has used it. -/
theorem error_of_holdsIn (hfate : Fate v room c token permission a)
    (hapart : ∀ id ∈ room.knocking, id ∉ room.admitted)
    (hticket : a.error = none → HoldsIn room (v.id c) → room.description.lobby = true ∧
      v.id c ∈ room.admitted ∧ "system" ∉ v.permissions c ∧ ∀ p ∈ permission.toOption, "op" ∉ p.2)
    (h : HoldsIn a.group (v.id c)) : a.error ≠ none := by
  intro hnone
  specialize hticket hnone
  cases hfate with
  | system is _ hknocking hadmitted =>
      exact (hticket ((holdsIn_of_same hknocking hadmitted).mp h)).2.2.1 is
  | refused _ e _ _ _ herror => exact absurd (herror.symm.trans hnone) nofun
  | granted _ username perms hpermission hgranted =>
      subst hpermission
      by_cases hop : "op" ∈ perms
      · obtain ⟨hknocking, hadmitted, -⟩ := hgranted.op hop
        exact (hticket ((holdsIn_of_same hknocking hadmitted).mp h)).2.2.2 _ rfl hop
      obtain ⟨g', error, hmet, hknocking, hadmitted, hrefused, -⟩ := hgranted.visitor hop
      have h' : HoldsIn g' (v.id c) := (holdsIn_of_same hknocking hadmitted).mp h
      cases hmet with
      | lobbyless lobby => exact absurd (lobby.symm.trans (hticket h').1) nofun
      | ticket _ hadmit =>
          rcases h' with hknock | hmem
          · exact hapart _ hknock hadmit
          · exact absurd rfl (of_decide_eq_true (List.mem_filter.mp hmem).2)
      | pass _ hout => exact hout (hticket h').2.1
      | turned _ _ e => exact absurd ((hrefused e rfl).symm.trans hnone) nofun
      | knocked => exact absurd ((hrefused _ rfl).symm.trans hnone) nofun

variable {w : World} {n g : ℕ} {name : String} {now : ℕ}

theorem client_lockGroup (w : World) (n : ℕ) (c : WebClient) (g : ℕ) (name token : String)
    (permission : Except Error (String × Permissions)) (now : ℕ) :
    (lockGroup w n c g name token permission now).client.knocking = c.knocking ∧
      ((addClient w.view (w.room g) (.web n) token permission now).error ≠ none →
        (lockGroup w n c g name token permission now).client.pc = .ready [] ∨
          (lockGroup w n c g name token permission now).client.pc = .knocked name) ∧
      ((addClient w.view (w.room g) (.web n) token permission now).error = some .knocking →
        (lockGroup w n c g name token permission now).client.pc = .knocked name) ∧
      ∀ k name' token', (lockGroup w n c g name token permission now).client.pc ≠
        .joining k name' token' := by
  unfold lockGroup
  cases herror : (addClient w.view (w.room g) (.web n) token permission now).error with
  | none =>
      simp only [herror]
      exact ⟨trivial, fun h => absurd rfl h, nofun, fun _ _ _ => nofun⟩
  | some e =>
      cases e
      case knocking =>
        simp only [herror]
        exact ⟨trivial, fun _ => .inr trivial, fun _ => trivial, fun _ _ _ => nofun⟩
      all_goals
        simp only [herror]
        exact ⟨trivial, fun _ => .inl trivial, nofun, fun _ _ _ => nofun⟩

theorem room_lock (k : ℕ) :
    (w.commit n (lockGroup w n (w.clients n) g name token permission now)).room k =
      if k = g then (addClient w.view (w.room g) (.web n) token permission now).group
      else w.room k := by
  have hregistry : (w.commit n (lockGroup w n (w.clients n) g name token permission now)).registry =
      w.registry.set g (addClient w.view (w.room g) (.web n) token permission now).group :=
    (locked_lockGroup w n (w.clients n) g name token permission now).registry
  rw [World.room, hregistry, room_set]
  rfl

theorem size_lock :
    (w.commit n (lockGroup w n (w.clients n) g name token permission now)).registry.size =
      w.registry.size := by
  have hregistry : (w.commit n (lockGroup w n (w.clients n) g name token permission now)).registry =
      w.registry.set g (addClient w.view (w.room g) (.web n) token permission now).group :=
    (locked_lockGroup w n (w.clients n) g name token permission now).registry
  rw [hregistry]
  rfl

/-- Nobody else comes in. -/
theorem members_lock {m k : ℕ}
    (hin : .web m ∈
      ((w.commit n (lockGroup w n (w.clients n) g name token permission now)).room k).members) :
    .web m ∈ (w.room k).members ∨
      m = n ∧ (addClient w.view (w.room g) (.web n) token permission now).error = none := by
  rw [room_lock] at hin
  split at hin
  · rename_i hk
    subst k
    rcases (addSpec_addClient w.view (w.room g) (.web n) token permission now).clients with
      ⟨-, hsame⟩ | ⟨herror, -, hfree, hinsert⟩
    · simp only [Groups.Group.members, hsame] at hin
      exact .inl hin
    · rcases (mem_members_insert hinsert hfree).mp hin with hself | hold
      · exact .inr ⟨Member.web.inj hself, herror⟩
      · exact .inl hold
  · exact .inl hin

/-- Where a client that joins is known, it is known by its own pointer. -/
theorem Tracked.pointer (h : Tracked w) (hids : Distinct w)
    (hpc : (w.clients n).pc = .joining g name token) {k : ℕ} (hholds : w.Holds k (w.clients n).id) :
    (w.clients n).knocking = some k ∧ .web n ∉ (w.room k).members := by
  obtain ⟨-, m, hid, hwaits, hout⟩ := h.waits k _ hholds
  obtain rfl : m = n := hids hid
  have hplace := hwaits.2
  rw [hpc] at hplace
  exact ⟨hplace, hout⟩

/-- A client that knocks is in no group yet. -/
theorem World.Comes.out (hok : w.Comes n g token permission now)
    (herror : (addClient w.view (w.room g) (.web n) token permission now).error = some .knocking)
    {p : String × Permissions} (hp : permission = .ok p) : .web n ∉ (w.room g).members := by
  refine hok.2 (by_contra fun hno => ?_)
  have hrefused := (addClient_knocking hno).2 herror
  rw [hp] at hrefused
  cases hrefused

/-- A client that is still held after it has asked to come in has not come in; it is held where it
was, or at the door where it has just knocked. -/
theorem Tracked.held (h : Tracked w) (hids : Distinct w)
    (hpc : (w.clients n).pc = .joining g name token) (hok : w.Comes n g token permission now)
    {k : ℕ} (hholds : (w.commit n (lockGroup w n (w.clients n) g name token permission now)).Holds k
      (w.clients n).id) :
    (addClient w.view (w.room g) (.web n) token permission now).error ≠ none ∧
      (w.Holds k (w.clients n).id ∨ k = g ∧ .web n ∉ (w.room g).members ∧
        (addClient w.view (w.room g) (.web n) token permission now).error = some .knocking) := by
  have hfate := fate_addClient w.view (w.room g) (.web n) token permission now
  have henters (hnone : (addClient w.view (w.room g) (.web n) token permission now).error = none)
      {k : ℕ} (hold : w.Holds k (w.clients n).id) : k = g ∧ w.ByTicket n g permission :=
    hok.1 (enters_of_addClient hnone) k (h.pointer hids hpc hold).1 hold
  simp only [World.Holds, room_lock] at hholds
  split at hholds
  · rename_i hk
    subst k
    refine ⟨error_of_holdsIn hfate (h.apart g) (fun hnone hold => (henters hnone hold).2) hholds, ?_⟩
    refine (holdsIn_before hfate hholds).imp_right ?_
    rintro ⟨herror, p, hp⟩
    exact ⟨rfl, hok.out herror hp, herror⟩
  · rename_i hk
    exact ⟨fun hnone => hk (henters hnone hholds).1, .inl hholds⟩

/-- The client that has asked to come in waits wherever it is held. -/
theorem Tracked.waits_self (h : Tracked w) (hids : Distinct w)
    (hpc : (w.clients n).pc = .joining g name token) (hok : w.Comes n g token permission now)
    {k : ℕ} (hholds : (w.commit n (lockGroup w n (w.clients n) g name token permission now)).Holds k
      (w.clients n).id) :
    k < w.registry.size ∧
      ((w.commit n (lockGroup w n (w.clients n) g name token permission now)).clients n).Waits k ∧
      .web n ∉ ((w.commit n (lockGroup w n (w.clients n) g name token permission now)).room k).members := by
  have hlocked := locked_lockGroup w n (w.clients n) g name token permission now
  obtain ⟨hknocking, hrefused, hknocked, -⟩ :=
    client_lockGroup w n (w.clients n) g name token permission now
  obtain ⟨herror, hcause⟩ := h.held hids hpc hok hholds
  refine ⟨?_, ?_, fun hin => ?_⟩
  · rcases hcause with hold | ⟨rfl, -, -⟩
    · exact (h.waits k _ hold).1
    · exact h.toFounded.joining n k name token hpc
  · rw [commit_self]
    have hwaits : (lockGroup w n (w.clients n) g name token permission now).client.Waits k := by
      refine ⟨hlocked.group.trans (h.outside n g name token hpc), ?_⟩
      rcases hcause with hold | ⟨-, -, hknock⟩
      · rcases hrefused herror with hready | hready
        · rw [hready, hknocking]
          exact (h.pointer hids hpc hold).1
        · rw [hready]
          trivial
      · rw [hknocked hknock]
        trivial
    exact hwaits.of_same rfl rfl rfl
  · have hin' := (members_lock hin).resolve_right fun h => herror h.2
    rcases hcause with hold | ⟨rfl, hout, -⟩
    · exact (h.pointer hids hpc hold).2 hin'
    · exact hout hin'

theorem Tracked.lock (h : Tracked w) (hids : Distinct w)
    (hpc : (w.clients n).pc = .joining g name token) (hok : w.Comes n g token permission now)
    (hfounded : Founded (w.commit n (lockGroup w n (w.clients n) g name token permission now))) :
    Tracked (w.commit n (lockGroup w n (w.clients n) g name token permission now)) := by
  have hlocked := locked_lockGroup w n (w.clients n) g name token permission now
  have hfate := fate_addClient w.view (w.room g) (.web n) token permission now
  refine ⟨hfounded, ?_, ?_, ?_⟩
  · intro k
    rw [room_lock]
    split
    · exact apart_addClient hfate (h.apart g)
    · exact h.apart k
  · intro m k name' token' hjoining
    by_cases hm : m = n
    · subst m
      rw [commit_self] at hjoining
      exact absurd hjoining
        ((client_lockGroup w n (w.clients n) g name token permission now).2.2.2 k name' token')
    · rw [commit_of_ne hm] at hjoining ⊢
      exact h.outside m k name' token' hjoining
  · intro k id hholds
    rw [size_lock]
    by_cases hid : id = (w.clients n).id
    · subst hid
      obtain ⟨hlt, hwaits, hout⟩ := h.waits_self hids hpc hok hholds
      exact ⟨hlt, n, by rw [commit_self]; exact hlocked.id, hwaits, hout⟩
    · have hold : w.Holds k id := by
        simp only [World.Holds, room_lock] at hholds
        split at hholds
        · rename_i hk
          subst k
          exact holdsIn_of_ne hfate hid hholds
        · exact hholds
      obtain ⟨hlt, m, hmid, hwaits, hout⟩ := h.waits k id hold
      have hm : m ≠ n := by
        rintro rfl
        exact hid hmid.symm
      refine ⟨hlt, m, by rw [commit_of_ne hm]; exact hmid, ?_, ?_⟩
      · rw [commit_of_ne hm]
        exact hwaits.of_same rfl rfl rfl
      · exact fun hin => hout ((members_lock hin).resolve_right fun h => hm h.1)

end Lock

section Runs
variable {w t : World} {a : Label}

theorem Tracked.step (h : Tracked w) (hids : Distinct w) (hok : w.Orderly a)
    (hstep : step w a = some t) : Tracked t := by
  have hfounded := founded_step h.toFounded hstep
  cases ha : a.client with
  | none => exact h.aside (step_aside h.fresh ha hstep) (calmAside_step ha hok hstep)
  | some n =>
      obtain ⟨r, hturn, rfl⟩ := step_turn ha hstep
      -- a step that leaves the groups alone
      have quiet : ∀ {c : WebClient} {pending : List Pending} {panic : Bool},
          r = ⟨w.registry, c, [], pending, panic⟩ → c.id = (w.clients n).id →
          (∀ g name token, c.pc = .joining g name token → c.group = none) →
          (∀ g, w.Holds g (w.clients n).id → (w.clients n).Waits g → c.Waits g) →
          Tracked (w.commit n r) := by
        rintro c pending panic rfl hid hjoining hwaits
        exact h.commit hfounded (Nat.le_refl _) (.refl _) (fun _ _ hin => hin) hid hjoining
          fun g _ hold => hwaits g hold
      cases hturn with
      | message m env hpc =>
          have hhandled := handledMessage (n := n) (c := w.clients n) (h.fresh _ (le_refl _)) h.bounded m env
          have hsame : w.clients n = { w.clients n with pc := .ready [] } := by rw [← hpc]
          have hsame' : Handled w { w.clients n with pc := .ready [] }
              (handleClientMessage w n (w.clients n) m env) := by
            rw [← hsame]
            exact hhandled.toHandled
          have hcalm : Calm w { w.clients n with pc := .ready [] }
              (handleClientMessage w n (w.clients n) m env) := by
            rw [← hsame]
            exact calm_message m env
          exact h.handled hpc hsame' hcalm
      | take hpc =>
          refine quiet rfl rfl (fun _ _ _ hjoining => by cases hjoining) fun g _ hwaits => ?_
          exact waits_of_knocking hwaits.1 (hwaits.ready hpc) (.inl ⟨_, rfl⟩)
      | act q rest env hpc =>
          exact h.handled hpc (handledAction q env).toHandled (calm_action q env)
      | fail batch hpc =>
          refine quiet rfl rfl (fun _ _ _ hjoining => by cases hjoining) fun g _ hwaits => ?_
          exact waits_of_knocking hwaits.1 (hwaits.ready hpc) (.inr (.inl ⟨true, rfl⟩))
      | lock g name token now permission hpc =>
          dsimp only [World.Orderly] at hok
          rw [hpc] at hok
          exact h.lock hids hpc hok hfounded
      | settle g hpc =>
          refine quiet rfl ?_ ?_ ?_
          · unfold settle
            split <;> rfl
          · intro k name token hjoining
            unfold settle at hjoining
            split at hjoining <;> cases hjoining
          · intro k _ hwaits
            have hplace := hwaits.2
            rw [hpc] at hplace
            exact hplace.elim
      | knock name hpc =>
          refine quiet rfl rfl (fun _ _ _ hjoining => by cases hjoining) fun g hold hwaits => ?_
          dsimp only [World.Orderly] at hok
          rw [hpc] at hok
          exact waits_of_knocking hwaits.1 (hok g (h.waits g _ hold).1 hold) (.inl ⟨[], rfl⟩)
      | leave stage ending now hpc => exact h.leave hpc hfounded
      | trackStart id hid =>
          exact quiet rfl rfl (h.outside n) fun g _ hwaits => hwaits.of_same rfl rfl rfl
      | trackEnd id hid =>
          obtain ⟨pending, panic, heq, -⟩ := trackPush_eq w n (w.clients n) id
          exact quiet heq rfl (h.outside n) fun g _ hwaits => hwaits.of_same rfl rfl rfl

/-- A client keeps its id. -/
theorem id_step (hfounded : Founded w) (hstep : step w a = some t) (m : ℕ) :
    (t.clients m).id = (w.clients m).id := by
  cases ha : a.client with
  | none => exact ((step_aside hfounded.fresh ha hstep).client m).id
  | some n =>
      obtain ⟨r, hturn, rfl⟩ := step_turn ha hstep
      by_cases hm : m = n
      case neg =>
        rw [commit_of_ne hm]
      subst m
      rw [commit_self]
      cases hturn with
      | message m env hpc =>
          exact (handledMessage (hfounded.fresh _ (le_refl _)) hfounded.bounded m env).untouched.id
      | act q rest env hpc => exact (handledAction q env).untouched.id
      | lock g name token now permission hpc =>
          exact (locked_lockGroup w n (w.clients n) g name token permission now).id
      | settle g hpc =>
          dsimp only [World.reply, settle]
          split <;> rfl
      | leave stage ending now hpc =>
          exact (leaving_leaveGroup w n (w.clients n) stage ending now).id
      | trackEnd id hid =>
          obtain ⟨pending, panic, heq, -⟩ := trackPush_eq w n (w.clients n) id
          rw [heq]
      | take | fail | knock | trackStart => rfl

theorem distinct_step (hfounded : Founded w) (hstep : step w a = some t) : Distinct t ↔ Distinct w := by
  have hsame : (fun n => (t.clients n).id) = fun n => (w.clients n).id :=
    funext (id_step hfounded hstep)
  rw [Distinct, Distinct, hsame]

theorem tracked_initial (h : Initial w) : Tracked w where
  toFounded := (seated_initial h).toFounded
  apart g id hmem := by
    rw [World.room, h.1] at hmem
    exact absurd hmem (AList.notMem_empty id)
  outside n g name token hpc := by
    rw [h.2.1 n] at hpc
    cases hpc
  waits g id hholds := by
    rw [World.Holds, World.room, h.1] at hholds
    rcases hholds with hknock | hadmit
    · exact absurd hknock (AList.notMem_empty id)
    · cases hadmit

theorem tracked_reachable (h : Reachable system World.Orderly w) (hids : Distinct w) : Tracked w := by
  have hall : Founded w ∧ (Distinct w → Tracked w) := by
    refine Reachable.invariant (P := fun w => Founded w ∧ (Distinct w → Tracked w)) ?_ ?_ h
    · exact fun w hw => ⟨(seated_initial hw).toFounded, fun _ => tracked_initial hw⟩
    · rintro w a t ⟨hfounded, htracked⟩ hok hstep
      refine ⟨founded_step hfounded hstep, fun hids => ?_⟩
      have hids' := (distinct_step hfounded hstep).mp hids
      exact (htracked hids').step hids' hok hstep
  exact hall.2 hids

theorem Tracked.known (h : Tracked w) (hids : Distinct w) : Known w := by
  have hown : ∀ n g, w.Holds g (w.clients n).id →
      (w.clients n).Waits g ∧ .web n ∉ (w.room g).members := by
    intro n g hholds
    obtain ⟨-, m, hid, hwaits, hout⟩ := h.waits g _ hholds
    obtain rfl : m = n := hids hid
    exact ⟨hwaits, hout⟩
  have hplace : ∀ {c : WebClient} {g : ℕ}, c.Waits g → c.pc ≠ .ended ∧
      ((∀ name, c.pc ≠ .knocked name) → c.knocking = some g) := by
    rintro c g ⟨-, hplace⟩
    cases hpc : c.pc with
    | ready | joining | acting =>
        rw [hpc] at hplace
        exact ⟨nofun, fun _ => hplace⟩
    | knocked name => exact ⟨nofun, fun hno => absurd rfl (hno name)⟩
    | joined | ended =>
        rw [hpc] at hplace
        exact hplace.elim
    | leaving stage ending =>
        rw [hpc] at hplace
        cases stage with
        | knock => exact ⟨nofun, fun _ => hplace⟩
        | conns | member | lock | clear => exact hplace.elim
  refine ⟨?_, ?_, ?_, ?_, ?_⟩
  · intro g id hholds
    obtain ⟨-, n, hid, hwaits, hout⟩ := h.waits g id hholds
    exact ⟨n, hid, (hplace hwaits).1, hout, (hplace hwaits).2⟩
  · intro n g hgroup g' hholds
    exact absurd ((hown n g' hholds).1.1.symm.trans hgroup) nofun
  · intro n g hpc hknocking g' hne hholds
    have hsame := (hplace (hown n g' hholds).1).2 hpc
    exact hne (Option.some.inj (hsame.symm.trans hknocking))
  · intro n hpc g hholds
    exact (hplace (hown n g hholds).1).1 hpc
  · intro g hlive
    by_cases hmembers : (w.room g).members = []
    case neg => exact .inl hmembers
    have hclients : (w.room g).clients.entries = [] := List.map_eq_nil_iff.mp hmembers
    have hknocking : (w.room g).knocking.entries ≠ [] := by
      simpa [Group.isEmpty, hclients] using hlive
    obtain ⟨k, hk⟩ := List.exists_mem_of_ne_nil _ hknocking
    have hmem : k.1 ∈ (w.room g).knocking := List.mem_keys_of_mem hk
    obtain ⟨-, n, hid, hwaits, -⟩ := h.waits g k.1 (.inl hmem)
    exact .inr ⟨n, by rw [hid]; exact hmem, (hplace hwaits).1⟩

/-- As long as nobody whom a group holds goes elsewhere, or comes in another way, groups
hold only those who wait. -/
theorem known_of_orderly (h : Reachable system World.Orderly w) (hids : Distinct w) : Known w :=
  (tracked_reachable h hids).known hids

end Runs

section Samples

instance (w : World) (n g : ℕ) (token : String) (permission : Except Error (String × Permissions))
    (now : ℕ) : Decidable (w.Comes n g token permission now) := by
  unfold World.Comes World.ByTicket
  infer_instance

instance (w : World) : (a : Label) → Decidable (w.Orderly a)
  | .lock n now permission => by
      unfold World.Orderly
      dsimp only
      split <;> infer_instance
  | .knock n => by
      unfold World.Orderly
      dsimp only
      split <;> infer_instance
  | .otherJoin o g token permission _ =>
      inferInstanceAs (Decidable (¬ Knocks w.view (w.room g) (.other o) token permission))
  | .update .. | .delete _ | .shutdown .. | .queue .. | .deliver _ | .message .. | .take _ | .act ..
  | .fail _ | .settle _ | .leave .. | .trackStart .. | .trackEnd .. | .otherLeave ..
  | .autoLockKick _ => .isTrue trivial

/-- Clients of different names, who have just connected. -/
def visitors : World :=
  { clients := fun n => { id := String.ofList (List.replicate (n + 1) 'v') }
    others := fun _ => { id := "" } }

theorem initial_visitors : Initial visitors := ⟨rfl, fun _ => rfl, rfl, rfl⟩

theorem distinct_visitors : Distinct visitors := by
  intro n m h
  have hlist : List.replicate (n + 1) 'v' = List.replicate (m + 1) 'v' := String.ofList_injective h
  have hlength := congrArg List.length hlist
  simpa using hlength

theorem distinct_exec {ok : World → Label → Prop} [∀ w a, Decidable (ok w a)] {w t : World}
    {as : List Label} (hfounded : Founded w) (hids : Distinct w)
    (h : system.exec ok w as = some t) : Distinct t := by
  induction as generalizing w with
  | nil =>
      cases h
      exact hids
  | cons a as ih =>
      rw [System.exec] at h
      split at h
      case isFalse => cases h
      obtain ⟨u, hstep, hrest⟩ := Option.bind_eq_some_iff.mp h
      exact ih (founded_step hfounded hstep) ((distinct_step hfounded hstep).mpr hids) hrest

/-- A lobby: the room of one client under an operator's hub. -/
def lobby : Description := { lobby := true, isOperatorRoomChild := true }

/-- A visitor comes to the lobby and has to wait there. -/
def knockSteps (n : ℕ) (name : String) : List Label :=
  [.message n { body := .join name "link" [] } (fileOf lobby), .lock n 1 (credentials ["present"]),
    .knock n]

/-- A visitor waits, asks again and gives up. -/
theorem known_visit : ∃ w, system.exec World.Orderly visitors
    (knockSteps 0 "hub/client" ++ knockSteps 0 "hub/client") = some w ∧
      w.Holds 0 "v" ∧ Known w := by
  obtain ⟨w, hw, hholds⟩ : ∃ w ∈ system.exec World.Orderly visitors
      (knockSteps 0 "hub/client" ++ knockSteps 0 "hub/client"), w.Holds 0 "v" := by
    decide +kernel
  have hids := distinct_exec (tracked_initial initial_visitors).toFounded distinct_visitors hw
  exact ⟨w, hw, hholds, known_of_orderly (.exec (.init initial_visitors) hw) hids⟩

/-- A visitor who waits at one group and comes into another is still known to the first. -/
theorem not_known : ¬ ∀ w, Distinct w → Reachable system Always w → Known w := by
  intro h
  obtain ⟨w, hw, hgroup, hholds⟩ : ∃ w ∈ system.exec Always visitors
      (knockSteps 0 "hub/client" ++ joinSteps 0 "room" {} ["present"]),
      (w.clients 0).group = some 1 ∧ w.Holds 0 (w.clients 0).id := by
    decide +kernel
  have hids := distinct_exec (tracked_initial initial_visitors).toFounded distinct_visitors hw
  exact (h w hids (.exec (.init initial_visitors) hw)).entered 0 1 hgroup 0 hholds

end Samples

end Sozvon.WebClients
