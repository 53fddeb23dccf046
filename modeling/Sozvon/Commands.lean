import Sozvon.Membership

/-!
# Commands across rooms

An operator's command is checked in the operator's loop and obeyed later, in
the loop of its target, which by then may be in another group or in none. A
queued command does not say which group it is for.

Every command that has not been obeyed yet is outstanding for its target. As
long as nobody is let into a group with a command outstanding, all of them are
for the target's present stay, if it still goes on (`Owed`).
-/
namespace Sozvon.WebClients
open Groups GroupTable Runs

/-- Commands act on the stay that they were issued for, and on no other. -/
structure Confined (w : World) : Prop where
  permissions : ∀ n g, .web n ∈ (w.room g).members →
    (w.clients n).permissions = (w.clients n).due
  evictions : ∀ n, ∀ e ∈ (w.clients n).evictions, e.1 = e.2

/-- Queued to client `n`, taken off the queue and not handled, or on its way. -/
def Outstanding (w : World) (n : ℕ) (q : Queued) : Prop :=
  q ∈ (w.clients n).actions ∨ (∃ batch, (w.clients n).pc = .ready batch ∧ q ∈ batch) ∨
    ∃ p ∈ w.pending, p.target = n ∧ p.queued = q

/-- A command, if it is one, for the stay of `c` that goes on or was the last. -/
structure Owed (c : WebClient) (q : Queued) : Prop where
  issued : ∀ kind, q.action = .changePermissions kind → q.issued ≠ none
  number : ∀ stay ∈ q.issued, stay.number = c.stay
  group : ∀ stay ∈ q.issued, ∀ g, c.seat = some g → stay.group = g

structure Obedient (w : World) : Prop extends Seated w where
  owed : ∀ n q, Outstanding w n q → Owed (w.clients n) q
  due : ∀ n g, (w.clients n).seat = some g → (w.clients n).permissions = (w.clients n).due
  evictions : ∀ n, ∀ e ∈ (w.clients n).evictions, e.1 = e.2

/-- Nobody is let into a group while a command to him is outstanding, and no
accepted join is redirected. -/
def Undisturbed (w : World) : Label → Prop
  | .lock n now permission =>
      ∀ r ∈ w.added n now permission (w.clients n).pc, r.error = none →
        (∀ q ∈ (w.clients n).actions, q.issued = none) ∧
          ∀ p ∈ w.pending, p.target = n → p.queued.issued = none
  | .settle n => w.redirect (w.clients n).pc = ""
  | _ => True

section Owed
variable {c c' : WebClient} {q : Queued}

theorem Plain.owed (h : Plain q) : Owed c q :=
  ⟨fun kind hq => absurd hq (h.2 kind), by simp [h.1], by simp [h.1]⟩

/-- A stay may end, but may not become another one. -/
theorem Owed.mono (h : Owed c q) (hstay : c'.stay = c.stay)
    (hseat : ∀ g, c'.seat = some g → c.seat = some g) : Owed c' q :=
  ⟨h.issued, fun stay hs => (h.number stay hs).trans hstay.symm,
    fun stay hs g hg => h.group stay hs g (hseat g hg)⟩

/-- A command that a client with a group obeys is for its present stay. -/
theorem Owed.present (h : Owed c q) {stay : Stay} (hissued : q.issued = some stay) {g : ℕ}
    (hseat : c.seat = some g) : stay = ⟨g, c.stay⟩ := by
  obtain ⟨group, number⟩ := stay
  rw [Stay.mk.injEq]
  exact ⟨h.group _ hissued g hseat, h.number _ hissued⟩

theorem due_append (c : WebClient) (kind : String) (recording : Bool) {perms : Permissions}
    (h : changePermissions recording kind c.due = some perms) :
    WebClient.due { c with commands := c.commands ++ [(kind, recording)] } = perms := by
  rw [WebClient.due, List.foldl_append]
  simp only [WebClient.due] at h
  simp [h]

end Owed

section Steps
variable {w t : World} {n : ℕ} {r : Reply}

theorem outstanding_commit {m : ℕ} {q : Queued} (hactions : ∀ q ∈ r.client.actions, Outstanding w n q)
    (hbatch : ∀ batch, r.client.pc = .ready batch → ∀ q ∈ batch, Outstanding w n q)
    (hcalls : ∀ e ∈ r.calls, Plain e.2) (h : Outstanding (w.commit n r) m q) :
    Outstanding w m q ∨ Plain q ∨ ∃ p ∈ r.pending, p.target = m ∧ p.queued = q := by
  rcases h with hq | ⟨batch, hpc, hq⟩ | ⟨p, hp, htarget, hqueued⟩
  · by_cases hm : m = n
    · subst m
      rw [commit_self] at hq
      rcases List.mem_append.mp hq with hq | hq
      · exact .inl (hactions q hq)
      · exact .inr (.inl (hcalls _ (mem_callsFor.mp hq)))
    · rw [commit_of_ne hm] at hq
      rcases List.mem_append.mp hq with hq | hq
      · exact .inl (.inl hq)
      · exact .inr (.inl (hcalls _ (mem_callsFor.mp hq)))
  · by_cases hm : m = n
    · subst m
      rw [commit_self] at hpc
      exact .inl (hbatch batch hpc q hq)
    · rw [commit_of_ne hm] at hpc
      exact .inl (.inr (.inl ⟨batch, hpc, hq⟩))
  · rcases List.mem_append.mp hp with hp | hp
    · exact .inl (.inr (.inr ⟨p, hp, htarget, hqueued⟩))
    · exact .inr (.inr ⟨p, hp, htarget, hqueued⟩)

theorem Obedient.commit (h : Obedient w) (hseated : Seated (w.commit n r))
    (hactions : ∀ q ∈ r.client.actions, Outstanding w n q)
    (hbatch : ∀ batch, r.client.pc = .ready batch → ∀ q ∈ batch, Outstanding w n q)
    (hcalls : ∀ e ∈ r.calls, Plain e.2)
    (howed : ∀ q, Outstanding w n q → Owed r.client q)
    (hpending : ∀ p ∈ r.pending, Plain p.queued ∨
      Owed (if p.target = n then r.client else w.clients p.target) p.queued)
    (hdue : ∀ g, r.client.seat = some g → r.client.permissions = r.client.due)
    (hevictions : ∀ e ∈ r.client.evictions, e.1 = e.2) : Obedient (w.commit n r) := by
  refine ⟨hseated, ?_, ?_, ?_⟩
  · intro m q hq
    have hq' := outstanding_commit hactions hbatch hcalls hq
    by_cases hm : m = n
    · subst m
      rw [commit_self]
      rcases hq' with hold | hplain | ⟨p, hp, rfl, rfl⟩
      · exact (howed q hold).mono rfl fun _ hg => hg
      · exact hplain.owed
      · rcases hpending p hp with hplain | hnew
        · exact hplain.owed
        · rw [if_pos rfl] at hnew
          exact hnew.mono rfl fun _ hg => hg
    · rw [commit_of_ne hm]
      rcases hq' with hold | hplain | ⟨p, hp, rfl, rfl⟩
      · exact (h.owed m q hold).mono rfl fun _ hg => hg
      · exact hplain.owed
      · rcases hpending p hp with hplain | hnew
        · exact hplain.owed
        · rw [if_neg hm] at hnew
          exact hnew.mono rfl fun _ hg => hg
  · exact forall_commit (P := fun c => ∀ g, c.seat = some g → c.permissions = c.due)
      (fun _ _ h => h) hdue h.due
  · exact forall_commit (P := fun c => ∀ e ∈ c.evictions, e.1 = e.2) (fun _ _ h => h) hevictions
      h.evictions

theorem batch_handled {c : WebClient} {batch rest : List Queued} (hr : Handled w c r)
    (hc : c.pc = .ready rest) (hpc : r.client.pc = .ready batch) : batch = rest := by
  rcases hr.pc with heq | ⟨b, heq⟩ | heq | ⟨g, name, token, heq, _⟩ <;> rw [heq] at hpc
  · rw [hc, Pc.ready.injEq] at hpc
    exact hpc.symm
  all_goals cases hpc

/-- A command just issued is for the present stay of its target. -/
theorem Obedient.issued (h : Obedient w) {c : WebClient} {p : Pending} (hp : Issued w c p)
    (hstay : r.client.stay = (w.clients n).stay) (hseat : r.client.seat = (w.clients n).seat) :
    Owed (if p.target = n then r.client else w.clients p.target) p.queued := by
  obtain ⟨g, _, hmember, hissued⟩ := hp
  have htarget : (w.clients p.target).seat = some g := (h.seats p.target g).mp hmember
  have howed : Owed (w.clients p.target) p.queued := by
    refine ⟨fun _ _ => by simp [hissued], ?_, ?_⟩
    · rw [hissued]
      rintro stay ⟨⟩
      rfl
    · rw [hissued]
      rintro stay ⟨⟩ g' hg'
      exact Option.some.inj (htarget.symm.trans hg')
  split_ifs with hn
  · rw [hn] at howed
    exact howed.mono hstay fun g hg => hseat ▸ hg
  · exact howed

theorem Obedient.message (h : Obedient w) {m : ClientMessage} {env : Env}
    (hpc : (w.clients n).pc = .ready [])
    (hseated : Seated (w.commit n (handleClientMessage w n (w.clients n) m env))) :
    Obedient (w.commit n (handleClientMessage w n (w.clients n) m env)) := by
  have hr := handledMessage (n := n) (c := w.clients n) (h.fresh _ (le_refl _)) h.bounded m env
  have hseat := seat_handled hr.toHandled hpc
  have hstay := hr.untouched.stay
  apply h.commit hseated
  · rw [hr.untouched.actions]
    exact fun q hq => .inl hq
  · intro batch hbatch
    rw [batch_handled hr.toHandled hpc hbatch]
    exact nofun
  · exact hr.calls
  · exact fun q hq => (h.owed n q hq).mono hstay fun g hg => hseat ▸ hg
  · intro p hp
    rcases hr.pending p hp with hplain | hissued
    · exact .inl hplain
    · exact .inr (h.issued hissued hstay hseat)
  · intro g hg
    have hdue := h.due n g (hseat ▸ hg)
    rwa [WebClient.due, hr.rights.permissions, hr.rights.commands, hr.untouched.granted]
  · rw [hr.rights.evictions]
    exact h.evictions n

theorem Obedient.act (h : Obedient w) {q : Queued} {rest : List Queued} {env : Env}
    (hpc : (w.clients n).pc = .ready (q :: rest))
    (hseated : Seated (w.commit n (handleAction w n { w.clients n with pc := .ready rest } q env))) :
    Obedient (w.commit n (handleAction w n { w.clients n with pc := .ready rest } q env)) := by
  have hr := handledAction (w := w) (n := n) (c := { w.clients n with pc := .ready rest }) q env
  have hgroup : (w.clients n).seat = (w.clients n).group := by rw [WebClient.seat, hpc]; rfl
  have hseat : _ = (w.clients n).seat := (seat_handled hr.toHandled rfl).trans hgroup.symm
  have hstay : _ = (w.clients n).stay := hr.untouched.stay
  have howed : Owed (w.clients n) q := h.owed n q (.inr (.inl ⟨_, hpc, List.mem_cons_self⟩))
  apply h.commit hseated
  · rw [hr.untouched.actions]
    exact fun q hq => .inl hq
  · intro batch hbatch q' hq'
    rw [batch_handled hr.toHandled rfl hbatch] at hq'
    exact .inr (.inl ⟨_, hpc, List.mem_cons_of_mem q hq'⟩)
  · exact hr.calls
  · exact fun q hq => (h.owed n q hq).mono hstay fun g hg => hseat ▸ hg
  · intro p hp
    rcases hr.pending p hp with hplain | hissued
    · exact .inl hplain
    · exact .inr (h.issued hissued hstay hseat)
  · intro g hg
    rw [hseat] at hg
    have hdue := h.due n g hg
    cases hr.rights with
    | nothing hsame =>
        rwa [WebClient.due, hsame.permissions, hsame.commands, hr.untouched.granted]
    | change recording kind haction hchange hcommands _ =>
        obtain ⟨stay, hissued⟩ := Option.ne_none_iff_exists'.mp (howed.issued kind haction)
        have hpresent : q.issued = some ⟨g, (w.clients n).stay⟩ := by
          rw [hissued, howed.present hissued hg]
        rw [if_pos (by rw [hpresent, WebClient.present, ← hgroup, hg]; rfl)] at hcommands
        rw [hdue] at hchange
        rw [WebClient.due, hcommands, hr.untouched.granted]
        exact (due_append (w.clients n) kind recording hchange).symm
    | kick hpermissions hcommands _ =>
        rwa [WebClient.due, hpermissions, hcommands, hr.untouched.granted]
  · intro e he
    cases hr.rights with
    | nothing hsame => exact h.evictions n e (hsame.evictions ▸ he)
    | change _ _ _ _ _ hevictions => exact h.evictions n e (hevictions ▸ he)
    | kick _ _ hevictions =>
        rw [hevictions] at he
        rcases List.mem_append.mp he with hold | hnew
        · exact h.evictions n e hold
        · simp only [List.product, List.mem_flatMap, List.mem_map, Option.mem_toList] at hnew
          obtain ⟨stay, hissued, present, hpresent, rfl⟩ := hnew
          obtain ⟨g, hg, hstay'⟩ := Option.map_eq_some_iff.mp hpresent
          rw [← hstay']
          exact howed.present hissued (hgroup.trans hg)

/-- Steps of a client that change nothing but where it stands. -/
theorem Obedient.stand (h : Obedient w) {c : WebClient} (hseated : Seated (w.commit n (w.reply c)))
    (hactions : ∀ q ∈ c.actions, Outstanding w n q)
    (hbatch : ∀ batch, c.pc = .ready batch → ∀ q ∈ batch, Outstanding w n q)
    (hstay : c.stay = (w.clients n).stay) (hseat : ∀ g, c.seat = some g → (w.clients n).seat = some g)
    (hrights : c.permissions = (w.clients n).permissions ∧ c.due = (w.clients n).due)
    (hevictions : c.evictions = (w.clients n).evictions) : Obedient (w.commit n (w.reply c)) := by
  refine h.commit hseated hactions hbatch nofun ?_ nofun ?_ ?_
  · exact fun q hq => (h.owed n q hq).mono hstay hseat
  · intro g hg
    rw [World.reply, hrights.1, hrights.2]
    exact h.due n g (hseat g hg)
  · rw [World.reply, hevictions]
    exact h.evictions n

theorem Obedient.lock (h : Obedient w) {g : ℕ} {name token : String} {now : ℕ}
    {permission : Except Error (String × Permissions)}
    (hpc : (w.clients n).pc = .joining g name token)
    (hok : (addClient w.view (w.room g) (.web n) token permission now).error = none →
      (∀ q ∈ (w.clients n).actions, q.issued = none) ∧
        ∀ p ∈ w.pending, p.target = n → p.queued.issued = none)
    (hseated : Seated (w.commit n r))
    (hr : Locked w n (w.clients n) g
      (addClient w.view (w.room g) (.web n) token permission now) r) :
    Obedient (w.commit n r) := by
  have hgroup : (w.clients n).group = none := by
    have hplaced := h.placed n
    rwa [WebClient.Placed, hpc] at hplaced
  refine h.commit hseated ?_ ?_ hr.calls ?_ (by rw [hr.pending]; exact List.forall_mem_nil _) ?_ ?_
  · rw [hr.actions]
    exact fun q hq => .inl hq
  · intro batch hbatch q hq
    rcases hr.outcome with ⟨_, heq, _⟩ | ⟨_, heq | ⟨name', heq⟩, _⟩ <;> rw [heq] at hbatch <;>
      cases hbatch
    cases hq
  · intro q hq
    have howed := h.owed n q hq
    rcases hr.outcome with ⟨herror, _⟩ | ⟨_, hpc', hstay, _⟩
    · obtain ⟨hactions, hpending⟩ := hok herror
      have hnone : q.issued = none := by
        rcases hq with hq | ⟨batch, hbatch, _⟩ | ⟨p, hp, htarget, rfl⟩
        · exact hactions q hq
        · rw [hpc] at hbatch
          cases hbatch
        · exact hpending p hp htarget
      exact ⟨howed.issued, by simp [hnone], by simp [hnone]⟩
    · apply howed.mono hstay
      intro g' hg'
      rw [WebClient.seat, hr.group, hgroup] at hg'
      rcases hpc' with heq | ⟨name', heq⟩ <;> rw [heq] at hg' <;> cases hg'
  · intro g' hg'
    rcases hr.outcome with ⟨_, _, _, hgranted, hcommands⟩ | ⟨_, hpc', _⟩
    · rw [WebClient.due, hcommands, hgranted]
      rfl
    · rw [WebClient.seat, hr.group, hgroup] at hg'
      rcases hpc' with heq | ⟨name', heq⟩ <;> rw [heq] at hg' <;> cases hg'
  · rw [hr.evictions]
    exact h.evictions n

theorem Obedient.leave (h : Obedient w) {stage : LeaveStage} {ending : Bool} {now : ℕ}
    (hpc : (w.clients n).pc = .leaving stage ending)
    (hseated : Seated (w.commit n (leaveGroup w n (w.clients n) stage ending now))) :
    Obedient (w.commit n (leaveGroup w n (w.clients n) stage ending now)) := by
  have hr := leaving_leaveGroup w n (w.clients n) stage ending now
  have hseat : ∀ g, (leaveGroup w n (w.clients n) stage ending now).client.seat = some g →
      (w.clients n).seat = some g := by
    intro g hg
    rcases seat_leaveGroup now hpc with ⟨_, hsame⟩ | ⟨g', _, ⟨_, _, hpc'⟩ | ⟨room, _, _, hpc'⟩⟩
    · exact hsame ▸ hg
    · rw [WebClient.seat, hpc'] at hg
      cases hg
    · rw [WebClient.seat, hpc'] at hg
      cases hg
  refine h.commit hseated ?_ ?_ hr.calls ?_ (fun p hp => .inl (hr.pending p hp)) ?_ ?_
  · rw [hr.actions]
    exact fun q hq => .inl hq
  · intro batch hbatch q hq
    rcases pc_leaveGroup w n (w.clients n) stage ending now with ⟨stage', heq⟩ | ⟨heq, _⟩ <;>
      rw [heq] at hbatch
    · cases hbatch
    · cases ending <;> cases hbatch
      cases hq
  · exact fun q hq => (h.owed n q hq).mono hr.stay hseat
  · intro g hg
    rcases hr.rights with ⟨_, hpermissions⟩ | ⟨rfl, _⟩
    · rw [hpermissions, WebClient.due, hr.commands, hr.granted]
      exact h.due n g (hseat g hg)
    · rw [WebClient.seat] at hg
      cases (seat_finish ending).symm.trans hg
  · rw [hr.evictions]
    exact h.evictions n

theorem Obedient.aside (h : Obedient w) (hseated : Seated t) (ht : Aside w t) : Obedient t := by
  have hseat : ∀ m, (t.clients m).seat = (w.clients m).seat := fun m => (ht.client m).seat
  refine ⟨hseated, ?_, ?_, ?_⟩
  · intro m q hq
    have hold : Outstanding w m q → Owed (t.clients m) q := fun hq =>
      (h.owed m q hq).mono (ht.client m).stay fun g hg => hseat m ▸ hg
    rcases hq with hq | ⟨batch, hpc, hq⟩ | ⟨p, hp, htarget, rfl⟩
    · rcases ht.actions m q hq with hq | hplain | hp
      · exact hold (.inl hq)
      · exact hplain.owed
      · exact hold (.inr (.inr hp))
    · rcases (ht.client m).pc with heq | ⟨_, heq⟩ <;> rw [heq] at hpc
      · exact hold (.inr (.inl ⟨batch, hpc, hq⟩))
      · cases hpc
        cases hq
    · rcases ht.pending p hp with hp | hplain
      · exact hold (.inr (.inr ⟨p, hp, htarget, rfl⟩))
      · exact hplain.owed
  · intro m g hg
    rw [(ht.client m).permissions, WebClient.due, (ht.client m).commands, (ht.client m).granted]
    exact h.due m g (hseat m ▸ hg)
  · intro m
    rw [(ht.client m).evictions]
    exact h.evictions m

theorem Undisturbed.notRedirected {a : Label} (h : Undisturbed w a) : NotRedirected w a := by
  cases a with
  | settle n => exact h
  | _ => trivial

theorem obedient_step {a : Label} (h : Obedient w) (hok : Undisturbed w a)
    (hstep : step w a = some t) : Obedient t := by
  have hseated := seated_step h.toSeated hok.notRedirected hstep
  cases ha : a.client with
  | none => exact h.aside hseated (step_aside h.fresh ha hstep)
  | some n =>
      obtain ⟨r, hturn, rfl⟩ := step_turn ha hstep
      cases hturn with
      | message m env hpc => exact h.message hpc hseated
      | take hpc =>
          refine h.stand hseated (List.forall_mem_nil _) ?_ rfl ?_ ⟨rfl, rfl⟩ rfl
          · rintro batch ⟨⟩ q hq
            exact .inl hq
          · intro g hg
            rw [WebClient.seat, hpc]
            exact hg
      | act q rest env hpc => exact h.act hpc hseated
      | fail batch hpc =>
          refine h.stand hseated (fun q hq => .inl hq) (fun _ heq => by cases heq) rfl ?_
            ⟨rfl, rfl⟩ rfl
          intro g hg
          rw [WebClient.seat, hpc]
          exact hg
      | lock g name token now permission hpc =>
          rw [Undisturbed, hpc] at hok
          exact h.lock hpc (hok _ rfl) hseated
            (locked_lockGroup w n (w.clients n) g name token permission now)
      | settle g hpc =>
          have hredirect : (w.room g).description.redirect = "" := by
            rwa [Undisturbed, hpc] at hok
          have heq : settle w (w.clients n) g =
              { w.clients n with group := some g, knocking := none, pc := .ready [] } :=
            if_neg (not_not_intro hredirect)
          rw [heq] at hseated ⊢
          refine h.stand hseated (fun q hq => .inl hq) ?_ rfl ?_ ⟨rfl, rfl⟩ rfl
          · rintro batch ⟨⟩ q hq
            cases hq
          · intro g' hg'
            rw [WebClient.seat, hpc]
            exact hg'
      | knock name hpc =>
          refine h.stand hseated (fun q hq => .inl hq) ?_ rfl ?_ ⟨rfl, rfl⟩ rfl
          · rintro batch ⟨⟩ q hq
            cases hq
          · intro g hg
            rw [WebClient.seat, hpc]
            exact hg
      | leave stage ending now hpc => exact h.leave hpc hseated
      | trackStart id hid =>
          exact h.stand hseated (fun q hq => .inl hq)
            (fun batch hpc q hq => .inr (.inl ⟨batch, hpc, hq⟩)) rfl (fun g hg => hg) ⟨rfl, rfl⟩ rfl
      | trackEnd id hid =>
          obtain ⟨pending, panic, heq, hplain, _⟩ := trackPush_eq w n (w.clients n) id
          rw [heq] at hseated ⊢
          refine h.commit hseated (fun q hq => .inl hq)
            (fun batch hpc q hq => .inr (.inl ⟨batch, hpc, hq⟩)) (List.forall_mem_nil _)
            (fun q hq => (h.owed n q hq).mono rfl fun g hg => hg)
            (fun p hp => .inl (hplain p hp)) (h.due n) (h.evictions n)

end Steps

theorem obedient_initial {w : World} (h : Initial w) : Obedient w := by
  have hseated := seated_initial h
  refine ⟨hseated, ?_, ?_, ?_⟩
  · rintro n q (hq | ⟨batch, hpc, hq⟩ | ⟨p, hp, _⟩)
    · rw [h.2.1 n] at hq
      cases hq
    · rw [h.2.1 n] at hpc
      cases hpc
      cases hq
    · rw [h.2.2.1] at hp
      cases hp
  · intro n g hg
    rw [h.2.1 n] at hg
    cases hg
  · intro n
    rw [h.2.1 n]
    exact nofun

/-- If nobody joins with a command outstanding, no command reaches another room. -/
theorem confined_of_undisturbed {w : World} (h : Reachable system Undisturbed w) : Confined w := by
  have hobedient : Obedient w :=
    h.invariant (fun _ => obedient_initial) fun _ _ _ => obedient_step
  exact ⟨fun n g hmember => hobedient.due n g ((hobedient.seats n g).mp hmember),
    hobedient.evictions⟩

section Samples

instance (w : World) : (a : Label) → Decidable (Undisturbed w a)
  | .lock n now permission => inferInstanceAs (Decidable (∀ r ∈ w.added n now permission
      (w.clients n).pc, r.error = none → (∀ q ∈ (w.clients n).actions, q.issued = none) ∧
        ∀ p ∈ w.pending, p.target = n → p.queued.issued = none))
  | .settle n => inferInstanceAs (Decidable (w.redirect (w.clients n).pc = ""))
  | .update .. | .delete _ | .shutdown .. | .queue .. | .deliver _ | .message .. | .take _ | .act ..
  | .fail _ | .knock _ | .leave .. | .trackStart .. | .trackEnd .. | .otherJoin .. | .otherLeave ..
  | .autoLockKick _ => .isTrue trivial

/-- Alice, an operator, makes bob one, who is in the room with her. -/
def promotion : List Label :=
  joinSteps 0 "room" {} ["op"] ++ joinSteps 1 "room" {} ["message"] ++
    [.message 0 { body := .useraction (.change "op") "bob" } {}, .deliver 0]

def obeySteps (n count : ℕ) : List Label := .take n :: List.replicate count (.act n {})

theorem confined_promotion : ∃ w, system.exec Undisturbed start
    (promotion ++ obeySteps 1 4) = some w ∧
    (w.clients 1).permissions = ["message", "op"] ∧ Confined w := by
  obtain ⟨w, hw, hop⟩ : ∃ w ∈ system.exec Undisturbed start (promotion ++ obeySteps 1 4),
      (w.clients 1).permissions = ["message", "op"] := by decide +kernel
  exact ⟨w, hw, hop, confined_of_undisturbed (.exec (.init initial_start) hw)⟩

/-- Bob moves to another room before he obeys, and becomes an operator there. -/
theorem not_confined : ¬ ∀ w, Reachable system Always w → Confined w := by
  intro h
  obtain ⟨w, hw, hmember, hop, hdue⟩ : ∃ w ∈ system.exec Always start
      (promotion ++ [.message 1 { body := .leave "room" } {}] ++ leaveSteps 1 ++
        joinSteps 1 "hall" {} ["message"] ++ obeySteps 1 4),
      .web 1 ∈ (w.room 1).members ∧ (w.clients 1).permissions = ["message", "op"] ∧
        (w.clients 1).due = ["message"] := by decide +kernel
  have hconfined := (h w (.exec (.init initial_start) hw)).permissions 1 1 hmember
  rw [hop, hdue] at hconfined
  exact absurd hconfined (by decide)

end Samples

end Sozvon.WebClients
