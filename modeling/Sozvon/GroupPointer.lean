import Sozvon.Membership

/-!
# The group a client's handlers rely on

Most handlers look at the client's group before they use it. Two do not: an
offer is let through by the permission `present` alone, and an `OnTrack`
callback pushes its connection to whatever group the client has by then. A
missing group makes either of them panic.

`GroupSafe` names the steps that are harmless: everything else leads to a client
that holds `present` without a group, or to a callback that outlives the stay.
-/
namespace Sozvon.WebClients
open Groups GroupTable Runs

/-- No step has used a missing group, and no client may offer without one. -/
structure NoMissingGroup (w : World) : Prop where
  panicked : w.panicked = false
  present : ∀ n batch, (w.clients n).pc = .ready batch → "present" ∈ (w.clients n).permissions →
    (w.clients n).group ≠ none

/-- The parts of `leaveGroup` that come after the connections are closed. -/
def LeaveStage.closed : LeaveStage → Bool
  | .knock | .conns => false
  | .member | .lock | .clear => true

/-- What a client without a group does not have: `present` (once a join is over),
connections, and callbacks. -/
structure WebClient.Pointed (c : WebClient) : Prop where
  present : (∀ g, c.pc ≠ .joined g) → "present" ∈ c.permissions → c.group ≠ none
  media : c.group = none → c.up = [] ∧ c.callbacks = []
  closed : ∀ stage ending, c.pc = .leaving stage ending → stage.closed → c.up = []

structure Pointed (w : World) : Prop extends Founded w where
  panicked : w.panicked = false
  client : ∀ n, (w.clients n).Pointed

def Pc.action : Pc → Option Action
  | .ready (q :: _) => some q.action
  | _ => none

def Pc.clears : Pc → Bool
  | .leaving .clear _ => true
  | _ => false

/-- A join that is granted `present` is let in, and is not redirected; a command
`present` is obeyed in a group only; no callback is under way when the group is
cleared. -/
def GroupSafe (w : World) : Label → Prop
  | .lock n now permission =>
      ∀ r ∈ w.added n now permission (w.clients n).pc, ∀ i ∈ r.init, "present" ∈ i.2 → r.error = none
  | .settle n => w.redirect (w.clients n).pc = "" ∨ "present" ∉ (w.clients n).permissions
  | .act n _ =>
      (w.clients n).pc.action = some (.changePermissions "present") → (w.clients n).group ≠ none
  | .leave n _ => (w.clients n).pc.clears → (w.clients n).callbacks = []
  | _ => True

theorem present_of_changePermissions {recording : Bool} {kind : String}
    {perms perms' : Permissions} (h : changePermissions recording kind perms = some perms')
    (hpresent : "present" ∈ perms') : "present" ∈ perms ∨ kind = "present" := by
  have hadd : ∀ {p : String}, p ≠ "present" → ∀ l : Permissions,
      "present" ∈ (if p ∈ l then l else l ++ [p]) → "present" ∈ l := by
    intro p hp l hmem
    split at hmem
    · exact hmem
    · simpa [hp.symm] using hmem
  unfold changePermissions at h
  dsimp only at h
  split at h <;> cases h
  · split at hpresent
    · exact .inl (hadd (by decide) _ (hadd (by decide) _ hpresent))
    · exact .inl (hadd (by decide) _ hpresent)
  · exact .inl (List.mem_of_mem_erase (List.mem_of_mem_erase hpresent))
  · exact .inr rfl
  · exact .inl (List.mem_of_mem_erase hpresent)
  · exact .inl (List.mem_of_mem_erase hpresent)
  · exact .inl (hadd (by decide) _ hpresent)

section Steps
variable {w t : World} {n : ℕ} {r : Reply}

theorem Pointed.commit (h : Pointed w) (hfounded : Founded (w.commit n r)) (hpanic : r.panic = false)
    (hclient : r.client.Pointed) : Pointed (w.commit n r) := by
  refine ⟨hfounded, ?_, ?_⟩
  · simp [World.commit, World.enqueue, h.panicked, hpanic]
  · exact forall_commit (fun _ _ h => ⟨h.present, h.media, h.closed⟩) hclient h.client

/-- Everything but the panic of a handler, which needs `present` without a group. -/
theorem Pointed.handled (h : Pointed w) {c : WebClient} {batch : List Queued}
    (hfounded : Founded (w.commit n r)) (hr : Handled w c r) (hc : c.pc = .ready batch)
    (hold : c.group = (w.clients n).group ∧ c.up = (w.clients n).up ∧
      c.callbacks = (w.clients n).callbacks)
    (hbefore : "present" ∈ c.permissions → c.group ≠ none)
    (hpresent : "present" ∈ r.client.permissions → c.group ≠ none) :
    Pointed (w.commit n r) := by
  obtain ⟨hgroup, hup, hcallbacks⟩ := hold
  refine h.commit hfounded ?_ ⟨?_, ?_, ?_⟩
  · cases hpanic : r.panic with
    | false => rfl
    | true => exact absurd (hr.panic hpanic).2 (hbefore (hr.panic hpanic).1)
  · intro _
    rw [hr.untouched.group]
    exact hpresent
  · rw [hr.untouched.group, hr.untouched.callbacks]
    intro hnone
    obtain ⟨hup', hcallbacks'⟩ := (h.client n).media (hgroup ▸ hnone)
    refine ⟨?_, hcallbacks.trans hcallbacks'⟩
    rcases hr.up with hsub | hsome
    · rw [hup, hup'] at hsub
      exact List.subset_nil.mp hsub
    · exact absurd hnone hsome
  · intro stage ending hpc hclosed
    rcases hr.pc with heq | ⟨b, heq⟩ | heq | ⟨g, name, token, heq, _⟩ <;> rw [heq] at hpc
    · rw [hc] at hpc
      cases hpc
    · cases hpc
      cases hclosed
    · cases hpc
    · cases hpc

theorem WebClient.Pointed.nudged {c c' : WebClient} (h : c.Pointed) (hc : Nudged c c') :
    c'.Pointed := by
  refine ⟨?_, ?_, ?_⟩
  · intro hpc
    rw [hc.permissions, hc.group]
    apply h.present
    rcases hc.pc with heq | ⟨hold, _⟩
    · rwa [heq] at hpc
    · rw [hold]
      exact fun g => nofun
  · rw [hc.group, hc.up, hc.callbacks]
    exact h.media
  · intro stage ending hpc
    rw [hc.up]
    rcases hc.pc with heq | ⟨_, heq⟩
    · exact h.closed stage ending (heq ▸ hpc)
    · rw [heq] at hpc
      cases hpc

theorem Pointed.aside (h : Pointed w) (ht : Aside w t) : Pointed t :=
  ⟨h.toFounded.aside ht, ht.panicked.trans h.panicked,
    fun n => (h.client n).nudged (ht.client n)⟩

theorem Pointed.act (h : Pointed w) {q : Queued} {rest : List Queued} (env : Env)
    (hpc : (w.clients n).pc = .ready (q :: rest))
    (hok : q.action = .changePermissions "present" → (w.clients n).group ≠ none)
    (hfounded : Founded (w.commit n (handleAction w n { w.clients n with pc := .ready rest } q env))) :
    Pointed (w.commit n (handleAction w n { w.clients n with pc := .ready rest } q env)) := by
  have hr := handledAction (w := w) (n := n) (c := { w.clients n with pc := .ready rest }) q env
  have hbefore : "present" ∈ (w.clients n).permissions → (w.clients n).group ≠ none := by
    apply (h.client n).present
    rw [hpc]
    exact fun g => nofun
  apply h.handled hfounded hr.toHandled rfl ⟨rfl, rfl, rfl⟩ hbefore
  intro hpresent
  cases hr.rights with
  | nothing hsame => exact hbefore (hsame.permissions ▸ hpresent)
  | change recording kind haction hchange _ _ =>
      rcases present_of_changePermissions hchange hpresent with hold | rfl
      · exact hbefore hold
      · exact hok haction
  | kick hpermissions _ _ => exact hbefore (hpermissions ▸ hpresent)

theorem Pointed.lock (h : Pointed w) {g : ℕ} {name token : String} {now : ℕ}
    {permission : Except Error (String × Permissions)}
    (hpc : (w.clients n).pc = .joining g name token)
    (hok : ∀ i ∈ (addClient w.view (w.room g) (.web n) token permission now).init,
      "present" ∈ i.2 → (addClient w.view (w.room g) (.web n) token permission now).error = none)
    (hfounded : Founded (w.commit n r))
    (hr : Locked w n (w.clients n) g
      (addClient w.view (w.room g) (.web n) token permission now) r) :
    Pointed (w.commit n r) := by
  refine h.commit hfounded hr.panic ⟨?_, ?_, ?_⟩
  · intro hjoined hpresent
    rw [hr.group]
    rw [hr.permissions] at hpresent
    cases hinit : (addClient w.view (w.room g) (.web n) token permission now).init with
    | none =>
        rw [hinit] at hpresent
        refine (h.client n).present ?_ hpresent
        rw [hpc]
        exact fun g => nofun
    | some i =>
        rw [hinit] at hpresent
        have herror := hok i hinit hpresent
        rcases hr.outcome with ⟨_, hpc', _⟩ | ⟨herror', _⟩
        · exact absurd hpc' (hjoined g)
        · exact absurd herror herror'
  · rw [hr.group, hr.up, hr.callbacks]
    exact (h.client n).media
  · intro stage ending hpc'
    rcases hr.outcome with ⟨_, heq, _⟩ | ⟨_, heq | ⟨name', heq⟩, _⟩ <;> rw [heq] at hpc' <;>
      cases hpc'

theorem closed_leaveGroup {w : World} {n : ℕ} {c : WebClient} {stage : LeaveStage} {ending : Bool}
    (now : ℕ) (h : stage.closed → c.up = []) {stage' : LeaveStage} {ending' : Bool}
    (hpc : (leaveGroup w n c stage ending now).client.pc = .leaving stage' ending')
    (hclosed : stage'.closed) : (leaveGroup w n c stage ending now).client.up = [] := by
  have hfinish : finish ending ≠ .leaving stage' ending' := by cases ending <;> exact nofun
  unfold leaveGroup at hpc ⊢
  cases stage with
  | knock =>
      dsimp only at hpc
      have hconns : (if c.group = none then finish ending else Pc.leaving .conns ending) ≠
          .leaving stage' ending' := by
        split
        · exact hfinish
        · intro heq
          cases heq
          cases hclosed
      split at hpc <;> exact absurd hpc hconns
  | conns => rfl
  | member =>
      dsimp only
      split
      · exact h rfl
      split <;> exact h rfl
  | lock =>
      dsimp only
      split <;> exact h rfl
  | clear => exact h rfl

theorem Pointed.leave (h : Pointed w) {stage : LeaveStage} {ending : Bool} {now : ℕ}
    (hpc : (w.clients n).pc = .leaving stage ending)
    (hok : stage = .clear → (w.clients n).callbacks = [])
    (hfounded : Founded (w.commit n (leaveGroup w n (w.clients n) stage ending now))) :
    Pointed (w.commit n (leaveGroup w n (w.clients n) stage ending now)) := by
  have hr := leaving_leaveGroup w n (w.clients n) stage ending now
  refine h.commit hfounded hr.panic ⟨?_, ?_, ?_⟩
  · intro _ hpresent
    rcases hr.rights with ⟨hgroup, hpermissions⟩ | ⟨_, _, hpermissions⟩ <;>
      rw [hpermissions] at hpresent
    · rw [hgroup]
      refine (h.client n).present ?_ hpresent
      rw [hpc]
      exact fun g => nofun
    · cases hpresent
  · intro hnone
    rw [hr.callbacks]
    rcases hr.rights with ⟨hgroup, _⟩ | ⟨rfl, _, _⟩
    · obtain ⟨hup, hcallbacks⟩ := (h.client n).media (hgroup ▸ hnone)
      have hsub := hr.up
      rw [hup] at hsub
      exact ⟨List.subset_nil.mp hsub, hcallbacks⟩
    · have hsub := hr.up
      rw [(h.client n).closed .clear ending hpc rfl] at hsub
      exact ⟨List.subset_nil.mp hsub, hok rfl⟩
  · intro stage' ending' hpc'
    exact closed_leaveGroup now ((h.client n).closed stage ending hpc) hpc'

theorem pointed_step {a : Label} (h : Pointed w) (hok : GroupSafe w a) (hstep : step w a = some t) :
    Pointed t := by
  have hfounded := founded_step h.toFounded hstep
  cases ha : a.client with
  | none => exact h.aside (step_aside h.fresh ha hstep)
  | some n =>
      obtain ⟨r, hturn, rfl⟩ := step_turn ha hstep
      cases hturn with
      | message m env hpc =>
          have hr := handledMessage (n := n) (c := w.clients n) (h.fresh _ (le_refl _)) h.bounded m env
          have hbefore := (h.client n).present (by rw [hpc]; exact fun g heq => by cases heq)
          exact h.handled hfounded hr.toHandled hpc ⟨rfl, rfl, rfl⟩ hbefore
            (hr.rights.permissions ▸ hbefore)
      | take hpc =>
          have hbefore := (h.client n).present (by rw [hpc]; exact fun g heq => by cases heq)
          exact h.commit hfounded rfl
            ⟨fun _ => hbefore, (h.client n).media, fun _ _ heq => by cases heq⟩
      | act q rest env hpc =>
          apply h.act env hpc _ hfounded
          intro haction
          rw [GroupSafe, hpc] at hok
          exact hok (congrArg some haction)
      | fail batch hpc =>
          have hbefore := (h.client n).present (by rw [hpc]; exact fun g heq => by cases heq)
          refine h.commit hfounded rfl ⟨fun _ => hbefore, (h.client n).media, ?_⟩
          intro stage ending heq hclosed
          cases heq
          cases hclosed
      | lock g name token now permission hpc =>
          apply h.lock hpc _ hfounded (locked_lockGroup w n (w.clients n) g name token permission now)
          rw [GroupSafe, hpc] at hok
          exact hok _ rfl
      | settle g hpc =>
          rw [GroupSafe, hpc] at hok
          apply h.commit hfounded rfl
          rw [World.reply, settle]
          split
          · refine ⟨?_, (h.client n).media, fun _ _ heq => by cases heq⟩
            intro _ hpresent
            rcases hok with hredirect | hpermissions
            · contradiction
            · exact absurd hpresent hpermissions
          · exact ⟨fun _ _ => (by rintro ⟨⟩), (by rintro ⟨⟩), fun _ _ heq => by cases heq⟩
      | knock name hpc =>
          have hbefore := (h.client n).present (by rw [hpc]; exact fun g heq => by cases heq)
          exact h.commit hfounded rfl
            ⟨fun _ => hbefore, (h.client n).media, fun _ _ heq => by cases heq⟩
      | leave stage ending now hpc =>
          apply h.leave hpc _ hfounded
          rintro rfl
          rw [GroupSafe, hpc] at hok
          exact hok rfl
      | trackStart id hid =>
          refine h.commit hfounded rfl ⟨(h.client n).present, ?_, (h.client n).closed⟩
          intro hnone
          rw [((h.client n).media hnone).1] at hid
          cases hid
      | trackEnd id hid =>
          have hgroup : (w.clients n).group ≠ none := by
            intro hnone
            rw [((h.client n).media hnone).2] at hid
            cases hid
          obtain ⟨pending, panic, heq, _, hpanic⟩ := trackPush_eq w n (w.clients n) id
          rw [heq] at hfounded ⊢
          refine h.commit hfounded ?_
            ⟨(h.client n).present, fun hnone => absurd hnone hgroup, (h.client n).closed⟩
          cases panic with
          | false => rfl
          | true => exact absurd (hpanic rfl) hgroup

end Steps

theorem pointed_initial {w : World} (h : Initial w) : Pointed w := by
  refine ⟨(seated_initial h).toFounded, h.2.2.2, fun n => ?_⟩
  rw [h.2.1 n]
  exact ⟨fun _ => nofun, fun _ => ⟨rfl, rfl⟩, fun _ _ => nofun⟩

/-- Runs of harmless steps never use a missing group. -/
theorem noMissingGroup_of_groupSafe {w : World} (h : Reachable system GroupSafe w) :
    NoMissingGroup w := by
  have hpointed : Pointed w :=
    h.invariant (fun _ => pointed_initial) fun _ _ _ => pointed_step
  refine ⟨hpointed.panicked, ?_⟩
  intro n batch hpc
  apply (hpointed.client n).present
  rw [hpc]
  exact fun g => nofun

section Samples

instance (w : World) : (a : Label) → Decidable (GroupSafe w a)
  | .lock n now permission => inferInstanceAs (Decidable (∀ r ∈ w.added n now permission
      (w.clients n).pc, ∀ i ∈ r.init, "present" ∈ i.2 → r.error = none))
  | .settle n => inferInstanceAs (Decidable (w.redirect (w.clients n).pc = "" ∨
      "present" ∉ (w.clients n).permissions))
  | .act n _ => inferInstanceAs (Decidable ((w.clients n).pc.action =
      some (.changePermissions "present") → (w.clients n).group ≠ none))
  | .leave n _ =>
      inferInstanceAs (Decidable ((w.clients n).pc.clears → (w.clients n).callbacks = []))
  | .update .. | .delete _ | .shutdown .. | .queue .. | .deliver _ | .message .. | .take _ | .fail _
  | .knock _ | .trackStart .. | .trackEnd .. | .otherJoin .. | .otherLeave ..
  | .autoLockKick _ => .isTrue trivial

/-- Join, offer a stream, get its track, and leave. -/
theorem noMissingGroup_call : ∃ w, system.exec GroupSafe start
    (joinSteps 0 "room" {} ["present"] ++
      [.message 0 { body := .offer "camera" "" } {}, .trackStart 0 "camera", .trackEnd 0 "camera",
        .message 0 { body := .leave "room" } {}] ++ leaveSteps 0) = some w ∧
    (w.clients 0).stay = 1 ∧ NoMissingGroup w := by
  obtain ⟨w, hw, hstay⟩ : ∃ w ∈ system.exec GroupSafe start
      (joinSteps 0 "room" {} ["present"] ++
        [.message 0 { body := .offer "camera" "" } {}, .trackStart 0 "camera", .trackEnd 0 "camera",
          .message 0 { body := .leave "room" } {}] ++ leaveSteps 0),
      (w.clients 0).stay = 1 := by decide +kernel
  exact ⟨w, hw, hstay, noMissingGroup_of_groupSafe (.exec (.init initial_start) hw)⟩

/-- A presenter turned away from a closed room keeps `present`, and offers. -/
theorem not_noMissingGroup : ¬ ∀ w, Reachable system Always w → NoMissingGroup w := by
  intro h
  obtain ⟨w, hw, hpanicked⟩ : ∃ w ∈ system.exec Always start
      [.message 0 { body := .join "room" "" [] } (fileOf { notBefore := some 10 }),
        .lock 0 1 (credentials ["present"]), .message 0 { body := .offer "camera" "" } {}],
      w.panicked = true := by decide +kernel
  have hsafe := (h w (.exec (.init initial_start) hw)).panicked
  rw [hpanicked] at hsafe
  cases hsafe

end Samples

end Sozvon.WebClients
