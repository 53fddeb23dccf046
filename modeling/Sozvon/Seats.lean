import Sozvon.Lobby

/-!
# The seats of a group

`AddClient` asks `seatErrorUnlocked` for a seat before it takes a client without
`op` or a knock, and for an encrypted call before it takes anyone. Members come and
go in any order; how many of them there are at most follows from what each one
met who came in.
-/
namespace Sozvon.Lobby
open Groups Runs

section Definitions

variable {κ : Type}

def Room.outsider (r : Room κ) (c : κ) : Bool := "system" ∉ r.view.permissions c

/-- The group takes two participants and no more: the call is encrypted. -/
def Pairwise (desc : Description) : Prop :=
  desc.e2ee = true ∧ desc.requireE2EE = true ∧ desc.operatorRoom = false

/-- There is a seat for one more client without `op`. -/
structure Free (g : Groups.Group κ) : Prop where
  full : 0 < g.description.maxClients → (g.members.length : ℤ) < g.description.maxClients
  oneOnOne : g.locked1on1 = true → g.members.length < 2
  encrypted : Pairwise g.description → g.members.length < 2

/-- What the limits promise of one step. -/
structure Seated (r r' : Room κ) : Prop where
  /-- Whoever becomes a member, and is neither a system client nor has `op`, had a seat. -/
  enters : ∀ c, c ∉ r.group.members → c ∈ r'.group.members → r.outsider c = true →
    "op" ∉ r'.view.permissions c → Free r.group
  /-- So had whoever is put in the waiting list. -/
  knocks : ∀ e id, r'.log = e :: r.log → Event.Knock id e → Free r.group

end Definitions

section Counting

variable {κ : Type} {g : Groups.Group κ} {c d : κ} {id : String}

theorem members_insert (hfresh : g.clients.lookup id = none) :
    ((g.clients.insert id c).entries.map fun e => e.2) = c :: g.members := by
  rw [AList.entries_insert_of_notMem (AList.lookup_eq_none.mp hfresh), List.map_cons]
  rfl

theorem members_erase : List.Sublist ((g.clients.erase id).entries.map fun e => e.2) g.members :=
  (List.kerase_sublist id g.clients.entries).map _

theorem free_of_seat {perms : Permissions} (h : seatErrorUnlocked g perms = none) :
    ("op" ∉ perms → Free g) ∧ (Pairwise g.description → g.members.length < 2) := by
  have hcount : g.members.length = g.clients.entries.length := List.length_map _
  unfold seatErrorUnlocked at h
  dsimp only at h
  split at h
  · cases h
  rename_i hfull
  split at h
  · cases h
  rename_i honeOnOne
  split at h
  · cases h
  rename_i hencrypted
  rw [← hcount] at hfull honeOnOne hencrypted
  have hpair : Pairwise g.description → g.members.length < 2 := by
    rintro ⟨he2ee, hrequire, hroom⟩
    by_contra hle
    exact hencrypted ⟨he2ee, hrequire, by simp [hroom], Nat.le_of_not_lt hle⟩
  refine ⟨fun hop => ⟨?_, ?_, hpair⟩, hpair⟩
  · intro hmax
    by_contra hle
    exact hfull ⟨hop, hmax, Int.not_lt.mp hle⟩
  · intro hlocked
    by_contra hle
    exact honeOnOne ⟨hop, hlocked, Nat.le_of_not_lt hle⟩

/-- No command makes a system client, or unmakes one. -/
theorem system_changePermissions {recording : Bool} {kind : String} {perms perms' : Permissions}
    (h : WebClients.changePermissions recording kind perms = some perms') :
    "system" ∈ perms' ↔ "system" ∈ perms := by
  have hadd : ∀ (p : String) (l : Permissions), p ≠ "system" →
      ("system" ∈ (if p ∈ l then l else l ++ [p]) ↔ "system" ∈ l) := by
    intro p l hp
    split
    · exact Iff.rfl
    · simp [hp.symm]
  have herase : ∀ (p : String) (l : Permissions), p ≠ "system" →
      ("system" ∈ l.erase p ↔ "system" ∈ l) :=
    fun p l hp => List.mem_erase_of_ne hp.symm
  unfold WebClients.changePermissions at h
  dsimp only at h
  split at h <;> cases h
  · split
    · rw [hadd _ _ (by decide), hadd _ _ (by decide)]
    · exact hadd _ _ (by decide)
  · rw [herase _ _ (by decide), herase _ _ (by decide)]
  · exact hadd _ _ (by decide)
  · exact herase _ _ (by decide)
  · exact herase _ _ (by decide)
  · exact hadd _ _ (by decide)

end Counting

section Steps

variable {κ : Type} [DecidableEq κ] {r r' : Room κ} {c d : κ} {token : String}
  {permission : Except Error (String × Permissions)} {now : ℕ}

/-- Nobody becomes a member but the client that `AddClient` has accepted. -/
theorem eq_of_enters (hout : d ∉ r.group.members)
    (hin : d ∈ (r.addClient c token permission now).group.members) :
    d = c ∧ (Groups.addClient r.view r.group c token permission now).error = none := by
  unfold Room.addClient at hin
  rcases (addSpec_addClient r.view r.group c token permission now).clients with
    ⟨-, hsame⟩ | ⟨herror, -, hfresh, hinsert⟩
  · simp only [Groups.Group.members, hsame] at hin
    exact absurd hin hout
  · simp only [Groups.Group.members, hinsert] at hin
    rw [members_insert hfresh] at hin
    exact ⟨(List.mem_cons.mp hin).resolve_right hout, herror⟩

omit [DecidableEq κ] in
/-- A step in which nobody enters and nobody knocks. -/
theorem Seated.of_quiet (hmembers : ∀ c ∈ r'.group.members, c ∈ r.group.members)
    (hlog : r'.log = r.log ∨ ∃ e, r'.log = e :: r.log ∧ ∀ id, ¬ Event.Knock id e) : Seated r r' where
  enters c hout hin := absurd (hmembers c hin) hout
  knocks e id he hknock := by
    rcases hlog with hsame | ⟨e', he', hno⟩
    · exact absurd (congrArg List.length (hsame.symm.trans he)) (by simp)
    · rw [he'] at he
      cases he
      exact absurd hknock (hno id)

theorem seated_addClient (r : Room κ) (c : κ) (token : String)
    (permission : Except Error (String × Permissions)) (now : ℕ) :
    Seated r (r.addClient c token permission now) where
  enters d hout hin houtsider hop := by
    obtain ⟨rfl, hnone⟩ := eq_of_enters hout hin
    cases fate_addClient r.view r.group d token permission now with
    | system is => exact absurd houtsider (by simp [Room.outsider, is])
    | refused _ e _ _ _ error => exact absurd (hnone.symm.trans error) nofun
    | granted _ username perms _ hgranted =>
        have hperms : (r.addClient d token permission now).view.permissions d = perms := by
          simp [Room.addClient, hgranted.init, View.init]
        exact (free_of_seat (hgranted.seat hnone)).1 (hperms ▸ hop)
  knocks e id he hknock := by
    unfold Room.addClient at he
    cases he
    obtain ⟨-, -, hany, hknocking⟩ := hknock
    cases fate_addClient r.view r.group c token permission now with
    | system _ init => exact absurd hany (by simp [init])
    | refused _ _ _ init => exact absurd hany (by simp [init])
    | granted _ username perms _ hgranted =>
        have hop : "op" ∉ perms := by simpa [hgranted.init] using hany
        obtain ⟨g', error, hmet, -, -, hrefused, hother⟩ := hgranted.visitor hop
        cases hmet with
        | lobbyless _ _ _ refusal =>
            cases error with
            | none => exact absurd hknocking (hother rfl)
            | some e => exact absurd ((hrefused e rfl).symm.trans hknocking) refusal
        | ticket => exact absurd hknocking (hother rfl)
        | pass => exact absurd hknocking (hother rfl)
        | turned _ _ e refusal =>
            exact absurd (Option.some.inj ((hrefused e rfl).symm.trans hknocking)) refusal
        | knocked _ _ seat => exact (free_of_seat seat).1 hop

theorem seated_step {a : Label κ} (hstep : Room.step r a = some r') : Seated r r' := by
  cases a with
  | addClient c token permission now =>
      cases hstep
      exact seated_addClient r c token permission now
  | delClient c now =>
      obtain ⟨g, hg, rfl⟩ := Option.map_eq_some_iff.mp hstep
      unfold Groups.delClient at hg
      split at hg
      · cases hg
        exact .of_quiet (fun _ hin => members_erase.subset hin) (.inl rfl)
      · cases hg
  | autoLockKick =>
      cases hstep
      have hclients := (autoLockKick_keeps r.view r.group).2.2.2
      refine .of_quiet (fun c hin => ?_) (.inl rfl)
      simp only [Groups.Group.members, hclients] at hin
      exact hin
  | admitKnock id =>
      cases hstep
      unfold Room.admitKnock Groups.admitKnock
      cases r.group.knocking.lookup id <;>
        exact .of_quiet (fun _ hin => hin) (.inr ⟨_, rfl, fun _ h => h⟩)
  | deny id =>
      cases hstep
      unfold Room.deny Groups.deny
      cases r.group.knocking.lookup id <;>
        exact .of_quiet (fun _ hin => hin) (.inr ⟨_, rfl, fun _ h => h⟩)
  | removeKnock id =>
      cases hstep
      exact .of_quiet (fun _ hin => hin) (.inr ⟨_, rfl, fun _ h => h⟩)
  | setLocked locked message =>
      cases hstep
      exact .of_quiet (fun _ hin => hin) (.inl rfl)
  | setLocked1on1 on =>
      cases hstep
      exact .of_quiet (fun _ hin => hin) (.inl rfl)
  | changePermissions c recording kind =>
      obtain ⟨perms, -, rfl⟩ := Option.map_eq_some_iff.mp hstep
      exact .of_quiet (fun _ hin => hin) (.inl rfl)
  | clear c =>
      dsimp only [Room.step] at hstep
      split at hstep
      · cases hstep
      · cases hstep
        exact .of_quiet (fun _ hin => hin) (.inl rfl)

/-- How many members there are that are no system clients. -/
def Room.outsiders (r : Room κ) : ℕ := r.group.members.countP r.outsider

omit [DecidableEq κ] in
theorem outsiders_mono (hmembers : List.Sublist r'.group.members r.group.members)
    (hout : ∀ c ∈ r'.group.members, r'.outsider c = true → r.outsider c = true) :
    r'.outsiders ≤ r.outsiders :=
  Nat.le_trans (List.countP_mono_left hout) hmembers.countP_le

/-- Who enters an encrypted call finds at most one other there; a system client does not
count. -/
theorem outsiders_addClient (r : Room κ) (c : κ) (token : String)
    (permission : Except Error (String × Permissions)) (now : ℕ) (hpair : Pairwise r.group.description)
    (h : r.outsiders ≤ 2) : (r.addClient c token permission now).outsiders ≤ 2 := by
  have hfate := fate_addClient r.view r.group c token permission now
  have hspec := (addSpec_addClient r.view r.group c token permission now).clients
  unfold Room.addClient
  generalize Groups.addClient r.view r.group c token permission now = a at hfate hspec ⊢
  have hmembers : a.group.members = r.group.members ∨
      a.error = none ∧ a.group.members = c :: r.group.members := by
    rcases hspec with ⟨-, hsame⟩ | ⟨herror, -, hfresh, hinsert⟩
    · exact .inl (by simp only [Groups.Group.members, hsame])
    · exact .inr ⟨herror, by simp only [Groups.Group.members, hinsert]; exact members_insert hfresh⟩
  cases hfate with
  | system is init =>
      simp only [Room.outsiders, init, Option.elim_none]
      rcases hmembers with hsame | ⟨-, hcons⟩
      · rw [hsame]
        exact h
      · rw [hcons, List.countP_cons_of_neg (by simp [Room.outsider, is])]
        exact h
  | refused _ e _ init group error =>
      simp only [Room.outsiders, init, Option.elim_none, group]
      exact h
  | granted not username perms _ hgranted =>
      simp only [Room.outsiders, hgranted.init, Option.elim_some]
      rcases hmembers with hsame | ⟨hnone, hcons⟩
      · rw [hsame]
        refine Nat.le_trans (List.countP_mono_left fun d _ hd => ?_) h
        by_cases hcd : d = c
        · simp [Room.outsider, hcd, not]
        · simpa [Room.outsider, View.init, hcd] using hd
      · have hlt := (free_of_seat (hgranted.seat hnone)).2 hpair
        refine Nat.le_trans List.countP_le_length ?_
        rw [hcons]
        exact hlt

theorem outsiders_step {a : Label κ} (hstep : Room.step r a = some r')
    (hpair : Pairwise r.group.description) (h : r.outsiders ≤ 2) : r'.outsiders ≤ 2 := by
  cases a with
  | addClient c token permission now =>
      cases hstep
      exact outsiders_addClient r c token permission now hpair h
  | delClient c now =>
      obtain ⟨g, hg, rfl⟩ := Option.map_eq_some_iff.mp hstep
      unfold Groups.delClient at hg
      split at hg
      · cases hg
        exact Nat.le_trans (outsiders_mono members_erase fun _ _ h => h) h
      · cases hg
  | autoLockKick =>
      cases hstep
      have hclients := (autoLockKick_keeps r.view r.group).2.2.2
      simp only [Room.outsiders, Groups.Group.members, hclients]
      exact h
  | admitKnock id =>
      cases hstep
      unfold Room.admitKnock Groups.admitKnock
      cases r.group.knocking.lookup id <;> exact h
  | deny id =>
      cases hstep
      unfold Room.deny Groups.deny
      cases r.group.knocking.lookup id <;> exact h
  | removeKnock id =>
      cases hstep
      exact h
  | setLocked locked message =>
      cases hstep
      exact h
  | setLocked1on1 on =>
      cases hstep
      exact h
  | changePermissions c recording kind =>
      obtain ⟨perms, hperms, rfl⟩ := Option.map_eq_some_iff.mp hstep
      refine Nat.le_trans (outsiders_mono (r := r) (List.Sublist.refl _) fun d _ hd => ?_) h
      by_cases hcd : d = c
      · subst hcd
        have hsame := system_changePermissions hperms
        simpa [Room.outsider, permit, hsame] using hd
      · simpa [Room.outsider, permit, hcd] using hd
  | clear c =>
      dsimp only [Room.step] at hstep
      split at hstep
      · cases hstep
      · rename_i hout
        cases hstep
        refine Nat.le_trans (outsiders_mono (r := r) (List.Sublist.refl _) fun d hmem hd => ?_) h
        have hcd : d ≠ c := by
          rintro rfl
          exact hout hmem
        simpa [Room.outsider, permit, hcd] using hd

/-- In every run, at most two take part in an encrypted call, and nobody comes in or waits
for whom there is no seat. -/
theorem seated_of_reachable (hr : Reachable (room κ) Always r) :
    (Pairwise r.group.description → r.outsiders ≤ 2) ∧
      ∀ a r', (room κ).step r a = some r' → Seated r r' := by
  refine ⟨?_, fun a r' hstep => seated_step hstep⟩
  refine Reachable.invariant (P := fun r : Room κ => Pairwise r.group.description → r.outsiders ≤ 2)
    ?_ ?_ hr
  · rintro r ⟨hclients, -⟩ -
    have hnil : r.group.members = [] := by
      rw [Groups.Group.members, hclients]
      rfl
    rw [Room.outsiders, hnil, List.countP_nil]
    exact Nat.zero_le 2
  · intro r a r' h _ hstep hpair
    rw [description_step hstep] at hpair
    exact outsiders_step hstep hpair (h hpair)

end Steps

section Samples

/-- A room for an encrypted call. -/
def callRoom : Room ℕ where
  group := { name := "call", description := { e2ee := true, requireE2EE := true } }
  view := {
    id := fun n => ["operator", "visitor", "recorder"].getD n "third", username := fun _ => ""
    permissions := fun n => if n = 2 then ["system"] else [], data := fun _ => [] }

theorem callRoom_init : (room ℕ).init callRoom := ⟨rfl, rfl, rfl, rfl⟩

/-- Two take part, the recorder comes in, and a third is refused. -/
def call : List (Label ℕ) :=
  [.addClient 0 "" (.ok ("operator", ["op", "present"])) 1,
    .addClient 1 "" (.ok ("visitor", ["present"])) 2,
    .addClient 2 "" (.error .notAuthorised) 3,
    .addClient 3 "" (.ok ("third", ["op", "present"])) 4]

theorem seated_call : ∃ r, (room ℕ).exec Always callRoom call = some r ∧
    r.group.members.length = 3 ∧ r.outsiders ≤ 2 := by
  obtain ⟨r, hr, hpair, hcount⟩ : ∃ r ∈ (room ℕ).exec Always callRoom call,
      (r.group.description.e2ee = true ∧ r.group.description.requireE2EE = true ∧
        r.group.description.operatorRoom = false) ∧ r.group.members.length = 3 := by
    decide +kernel
  exact ⟨r, hr, hcount, (seated_of_reachable (.exec (.init callRoom_init) hr)).1 hpair⟩

end Samples

end Sozvon.Lobby
