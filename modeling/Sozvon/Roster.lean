import Sozvon.RosterSteps
import Sozvon.Runs

/-!
# Rosters

In an orderly run what is on its way about a user agrees: all of it says that
the user has left, or all of it says how the user is now. So it does not matter in
which order it arrives, and once it has, every member's table is the group's.
-/
namespace Sozvon.Roster
open Groups Runs UserEvents

section Joining

variable {w : World} {n k g : ℕ} {token : String} {permission : Except Error (String × Permissions)}
  {now : ℕ} {r : Reply} {t : Users}

theorem commit_self : (w.commit n r).clients n =
    { r.client with actions := r.client.actions ++ callsFor n r.calls } := by
  simp only [World.commit, World.enqueue, Function.update_self]

theorem commit_of_ne (h : k ≠ n) : (w.commit n r).clients k =
    { w.clients k with actions := (w.clients k).actions ++ callsFor k r.calls } := by
  simp only [World.commit, World.enqueue, Function.update_of_ne h]

theorem fold_joined {ms : List Message} (h : ∀ m ∈ ms, ∃ kind, m = .joined kind)
    (ht : t.own = fun _ => none) : (fold t ms).own = fun _ => none := by
  induction ms generalizing t with
  | nil => exact ht
  | cons m ms ih =>
      obtain ⟨kind, rfl⟩ := h m (List.mem_cons_self ..)
      refine ih (fun m' hm' => h m' (List.mem_cons_of_mem _ hm')) ?_
      rw [gotMessage]
      split_ifs
      · rfl
      · exact ht

/-- A client that is about to join has nothing to come that its new group may
take for news. -/
theorem table_cleared {c : Client} {name : String} (hbatch : batchOf c.pc = []) (hc : Cleared c)
    (hstale :
      ((c.actions.reverse.takeWhile fun a => !a.clears).any fun a => a.tells name) = false) :
    (tableOf c name).own = fun _ => none := by
  have hqueue : queueOf c = c.actions := by rw [queueOf, hbatch, List.nil_append]
  have hsplit : c.actions = (c.actions.reverse.dropWhile fun a => !a.clears).reverse ++
      (c.actions.reverse.takeWhile fun a => !a.clears).reverse := by
    rw [← List.reverse_append, List.takeWhile_append_dropWhile, List.reverse_reverse]
  have hlast (t : Users) (ht : t.own = fun _ => none) :
      (fold t ((c.actions.reverse.takeWhile fun a => !a.clears).reverse.filterMap
        (messageOf name))).own = fun _ => none := by
    refine fold_joined (fun m hm => ?_) ht
    obtain ⟨a, ha, hm⟩ := List.mem_filterMap.mp hm
    have htells : a.tells name = false := by
      have hall := List.any_eq_false.mp hstale a (List.mem_reverse.mp ha)
      simpa using hall
    cases a with
    | call call =>
        cases call with
        | pushClient group kind id username permissions data =>
            rw [messageOf, if_neg (of_decide_eq_false htells)] at hm
            cases hm
        | joined group kind => exact ⟨kind, (Option.some.inj hm).symm⟩
        | kick => cases hm
    | changePermissions kind => cases hm
    | permissionsChanged => cases hm
  rw [tableOf, hqueue, hsplit, List.filterMap_append, ← List.append_assoc, fold_append]
  refine hlast _ ?_
  cases hdrop : c.actions.reverse.dropWhile fun a => !a.clears with
  | nil =>
      rw [List.reverse_nil, List.filterMap_nil, List.append_nil]
      refine hc.resolve_left ?_
      rintro ⟨a, ha, hclears⟩
      rw [hqueue, ← List.mem_reverse] at ha
      have hall := List.dropWhile_eq_nil_iff.mp hdrop a ha
      rw [hclears] at hall
      exact absurd hall (by simp)
  | cons a rest =>
      have hclears : a.clears = true := by
        have hhead := List.head?_dropWhile_not (fun a : Action => !a.clears) c.actions.reverse
        rw [hdrop] at hhead
        simpa using hhead
      rw [List.reverse_cons, List.filterMap_append, ← List.append_assoc, fold_append]
      cases a with
      | call call =>
          cases call with
          | pushClient => cases hclears
          | joined group kind => exact own_clear (.inl (of_decide_eq_true hclears))
          | kick => cases hclears
      | changePermissions kind => cases hclears
      | permissionsChanged => cases hclears

/-- Nothing is on its way about a user, or for a client. -/
theorem not_coming_about {name id : String} (h : w.onTheWay name id = false) (k : ℕ)
    (kind : String) (u : User) : ¬ Coming w k name kind id u := by
  rintro ⟨p, hp, hmem⟩
  have hcalls := List.any_eq_false.mp h p hp
  simp only [List.any_eq_true, not_exists, not_and] at hcalls
  exact hcalls _ hmem (by simp [Action.about])

theorem not_coming_for {name : String} (h : w.stale n name = false) (kind id : String) (u : User) :
    ¬ Coming w n name kind id u := by
  rintro ⟨p, hp, hmem⟩
  have hcalls := List.any_eq_false.mp (Bool.or_eq_false_iff.mp h).1 p hp
  simp only [List.any_eq_true, not_exists, not_and] at hcalls
  exact hcalls _ hmem (by simp [Action.tells])

theorem mem_messages {calls : List (ℕ × Action)} {name : String} {m : Message} :
    m ∈ (callsFor k calls).filterMap (messageOf name) ↔
      ∃ a, (k, a) ∈ calls ∧ messageOf name a = some m := by
  simp only [callsFor, List.mem_filterMap, List.mem_map, List.mem_filter, decide_eq_true_eq]
  constructor
  · rintro ⟨a, ⟨⟨k', a'⟩, ⟨hmem, rfl⟩, rfl⟩, hm⟩
    exact ⟨a', hmem, hm⟩
  · rintro ⟨a, hmem, hm⟩
    exact ⟨a, ⟨(k, a), ⟨hmem, rfl⟩, rfl⟩, hm⟩

theorem messageOf_addOf (v : View ℕ) (name : String) (k : ℕ) :
    messageOf name (addOf v name k) =
      some (.user "add" (v.id k) ⟨v.username k, v.permissions k, v.data k⟩) := if_pos rfl

end Joining

section Admission

variable {w w' : World} {n k g : ℕ} {calls : List (ℕ × Action)}

/-- A client has become a member, and everyone is being told. -/
structure Admitted (w w' : World) (n g : ℕ) (calls : List (ℕ × Action)) : Prop where
  free : (w.rooms g).clients.lookup (w.clients n).id = none
  room : (w'.rooms g).clients = (w.rooms g).clients.insert (w.clients n).id n
  rooms : ∀ g', g' ≠ g → (w'.rooms g').clients = (w.rooms g').clients
  names : ∀ g', (w'.rooms g').name = (w.rooms g').name
  others : ∀ k, k ≠ n → w'.clients k =
    { w.clients k with actions := (w.clients k).actions ++ callsFor k calls }
  client : ∃ c, w'.clients n = { c with actions := c.actions ++ callsFor n calls } ∧
    c.id = (w.clients n).id ∧ c.pc = .joined g ∧ queueOf c = queueOf (w.clients n) ∧
    c.wire = (w.clients n).wire ∧ c.users = (w.clients n).users
  pushes : w'.pushes = w.pushes
  adds : Enters w'.view (w.rooms g) n calls

namespace Admitted

theorem id_eq (ha : Admitted w w' n g calls) (k : ℕ) : (w'.clients k).id = (w.clients k).id := by
  by_cases hk : k = n
  · subst hk
    obtain ⟨c, hc, hid, -⟩ := ha.client
    rw [hc, ← hid]
  · rw [ha.others k hk]

theorem roomOf_self (ha : Admitted w w' n g calls) : roomOf (w'.clients n) = some g := by
  obtain ⟨c, hc, -, hpc, -⟩ := ha.client
  rw [hc, roomOf, hpc]

theorem roomOf_of_ne (ha : Admitted w w' n g calls) (hk : k ≠ n) :
    roomOf (w'.clients k) = roomOf (w.clients k) := by
  rw [ha.others k hk]
  rfl

theorem coming (ha : Admitted w w' n g calls) (k : ℕ) (name kind id : String) (u : User) :
    Coming w' k name kind id u ↔ Coming w k name kind id u := by
  rw [Coming, Coming, ha.pushes]

theorem lookup_self (ha : Admitted w w' n g calls) :
    (w'.rooms g).clients.lookup (w.clients n).id = some n := by
  rw [ha.room, AList.lookup_insert]

theorem lookup_of_ne (ha : Admitted w w' n g calls) {id : String} (hid : id ≠ (w.clients n).id) :
    (w'.rooms g).clients.lookup id = (w.rooms g).clients.lookup id := by
  rw [ha.room, AList.lookup_insert_ne hid]

theorem seats (ha : Admitted w w' n g calls) (h : Inv w) (hnone : roomOf (w.clients n) = none)
    (g' : ℕ) (id : String) (k : ℕ) : (w'.rooms g').clients.lookup id = some k ↔
      (w'.clients k).id = id ∧ roomOf (w'.clients k) = some g' := by
  rw [ha.id_eq k]
  by_cases hk : k = n
  · subst hk
    rw [ha.roomOf_self, Option.some.injEq]
    by_cases hg : g' = g
    · subst hg
      refine ⟨fun hlookup => ⟨?_, rfl⟩, fun ⟨hid, _⟩ => hid ▸ ha.lookup_self⟩
      by_contra hid
      rw [ha.lookup_of_ne (Ne.symm hid)] at hlookup
      exact absurd (hnone.symm.trans ((h.seats _ _ _).mp hlookup).2) (by simp)
    · rw [ha.rooms g' hg, h.seats, hnone]
      exact ⟨fun hboth => absurd hboth.2 (by simp), fun hboth => absurd hboth.2.symm hg⟩
  · rw [ha.roomOf_of_ne hk, ← h.seats]
    by_cases hg : g' = g
    · subst hg
      by_cases hid : id = (w.clients n).id
      · subst hid
        rw [ha.lookup_self, ha.free, Option.some.injEq]
        exact ⟨fun heq => absurd heq.symm hk, fun heq => absurd heq (by simp)⟩
      · rw [ha.lookup_of_ne hid]
    · rw [ha.rooms g' hg]

/-- A member of the group afterwards, as it is found there. -/
theorem lookup_member (ha : Admitted w w' n g calls) (h : Inv w)
    (hk : k = n ∨ k ∈ (w.rooms g).members) :
    (w'.rooms g).clients.lookup (w'.clients k).id = some k := by
  rw [ha.id_eq k]
  rcases hk with rfl | hk
  · exact ha.lookup_self
  · obtain ⟨id, hlookup⟩ := Group.mem_members.mp hk
    obtain ⟨rfl, -⟩ := (h.seats g id k).mp hlookup
    rw [ha.lookup_of_ne ?_]
    · exact hlookup
    · intro hid
      rw [hid, ha.free] at hlookup
      cases hlookup

theorem user_eq (ha : Admitted w w' n g calls) (hk : k ≠ n) :
    (w'.clients k).user = (w.clients k).user := by
  rw [ha.others k hk]
  rfl

theorem owes (ha : Admitted w w' n g calls) (hk : k ≠ n) (ho : Owes (w.clients k)) :
    Owes (w'.clients k) := by
  rw [ha.others k hk]
  exact ho.append _

/-- All that is queued under the group's name is news of its members. -/
theorem news (ha : Admitted w w' n g calls) (h : Inv w) (hkey : (w.clients n).id ≠ "__proto__")
    {m : Message}
    (hm : m ∈ (callsFor k calls).filterMap (messageOf (w.rooms g).name)) :
    Quiet m ∨ ∃ id u, m = .user "add" id u ∧ id ≠ "__proto__" ∧ w'.member g id = some u := by
  obtain ⟨a, hmem, hm⟩ := mem_messages.mp hm
  rcases ha.adds.only _ hmem with hcalm | ⟨k', rfl, hk'⟩
  · exact .inl (hcalm _ m hm)
  · have hmember : k' = n ∨ k' ∈ (w.rooms g).members := by
      rcases hk' with ⟨-, hk'⟩ | ⟨hk', -⟩
      · exact hk'
      · exact .inl hk'
    rw [messageOf_addOf, Option.some.injEq] at hm
    refine .inr ⟨_, _, hm.symm, ?_, ?_⟩
    · change (w'.clients k').id ≠ _
      rw [ha.id_eq k']
      rcases hmember with rfl | hmember
      · exact hkey
      · obtain ⟨id, hlookup⟩ := Group.mem_members.mp hmember
        exact h.keyed k' g ((h.seats g id k').mp hlookup).2
    · change w'.member g (w'.clients k').id = some (w'.clients k').user
      rw [World.member, ha.lookup_member h hmember]
      rfl

/-- A member is told of no one but the newcomer. -/
theorem add_of_ne (ha : Admitted w w' n g calls) (hk : k ≠ n) {id : String} {u : User}
    (hm : .user "add" id u ∈ (callsFor k calls).filterMap (messageOf (w.rooms g).name)) :
    id = (w.clients n).id ∧ k ∈ (w.rooms g).members := by
  obtain ⟨a, hmem, hm⟩ := mem_messages.mp hm
  rcases ha.adds.only _ hmem with hcalm | ⟨k', rfl, ⟨heq, -⟩ | ⟨rfl, hmember⟩⟩
  · exact absurd rfl (hcalm _ _ hm).1
  · exact absurd heq hk
  · rw [messageOf_addOf, Option.some.injEq] at hm
    injection hm with _ hid _
    exact ⟨hid.symm.trans (ha.id_eq k'), hmember⟩

/-- The table of a client that hears of the newcomer, or is the newcomer. -/
theorem own (ha : Admitted w w' n g calls) (h : Inv w) (hkey : (w.clients n).id ≠ "__proto__")
    (t : Users) (k : ℕ) (id : String) :
    ((∃ u, .user "add" id u ∈ (callsFor k calls).filterMap (messageOf (w.rooms g).name)) →
      (fold t ((callsFor k calls).filterMap (messageOf (w.rooms g).name))).own id =
        w'.member g id) ∧
    ((∀ u, .user "add" id u ∉ (callsFor k calls).filterMap (messageOf (w.rooms g).name)) →
      (fold t ((callsFor k calls).filterMap (messageOf (w.rooms g).name))).own id = t.own id) :=
  own_adds (fun _ hm => ha.news h hkey hm) t id

theorem table_of_ne (ha : Admitted w w' n g calls) (hk : k ≠ n) (name : String) :
    tableOf (w'.clients k) name =
      fold (tableOf (w.clients k) name) ((callsFor k calls).filterMap (messageOf name)) := by
  rw [ha.others k hk, table_append]

theorem told_of_ne (ha : Admitted w w' n g calls) (h : Inv w)
    (hnone : roomOf (w.clients n) = none) (hkey : (w.clients n).id ≠ "__proto__")
    (hway : w.onTheWay (w.rooms g).name (w.clients n).id = false) (hk : k ≠ n) {g' : ℕ}
    (hroom : roomOf (w.clients k) = some g') (hlive : ¬ Ending (w.clients k)) (id : String) :
    Told w' k g' id := by
  have htold := h.told k g' hroom hlive id
  have hothers : ∀ k', (w.rooms g').clients.lookup id = some k' → Owes (w'.clients k') ∨
      ((w'.clients k').user = (w.clients k').user ∧
        (Owes (w.clients k') → Owes (w'.clients k'))) := by
    intro k' hk'
    have hne : k' ≠ n := by
      rintro rfl
      exact absurd (hnone.symm.trans ((h.seats _ _ _).mp hk').2) (by simp)
    exact .inr ⟨ha.user_eq hne, ha.owes hne⟩
  by_cases hg : g' = g
  · subst hg
    by_cases hid : id = (w.clients n).id
    · subst hid
      refine told_of_own (fun kind u hcome => ?_) ?_
      · rw [ha.coming, ha.names] at hcome
        exact not_coming_about hway k kind u hcome
      · rw [ha.names, ha.table_of_ne hk]
        have hmember : k ∈ (w.rooms g').members :=
          Group.mem_members.mpr ⟨_, (h.seats _ _ k).mpr ⟨rfl, hroom⟩⟩
        refine (ha.own h hkey _ k _).1 ⟨(w'.clients n).user,
          mem_messages.mpr ⟨_, (ha.adds.others k hmember).2, ?_⟩⟩
        rw [messageOf_addOf, ← ha.id_eq n]
        rfl
    · refine htold.transfer (ha.lookup_of_ne hid) (ha.names g') ?_ (fun kind u => ha.coming ..)
        hothers
      rw [ha.table_of_ne hk]
      exact (ha.own h hkey _ k id).2 fun u hm => hid (ha.add_of_ne hk hm).1
  · refine htold.transfer (congrArg (AList.lookup id) (ha.rooms g' hg)) (ha.names g') ?_
      (fun kind u => ha.coming ..) hothers
    rw [ha.table_of_ne hk, fold_calm]
    intro a hmem
    obtain ⟨⟨k', a'⟩, hfilter, rfl⟩ := List.mem_map.mp hmem
    obtain ⟨hq, hk'⟩ := List.mem_filter.mp hfilter
    obtain rfl : k' = k := of_decide_eq_true hk'
    rcases ha.adds.only _ hq with hcalm | ⟨_, -, ⟨heq, -⟩ | ⟨-, hmember⟩⟩
    · exact hcalm
    · exact absurd heq hk
    · obtain ⟨id', hlookup⟩ := Group.mem_members.mp hmember
      exact absurd (hroom.symm.trans ((h.seats _ _ _).mp hlookup).2) (by simpa using hg)

theorem told_self (ha : Admitted w w' n g calls) (h : Inv w) {token : String}
    (hpc : (w.clients n).pc = .joining g token) (hkey : (w.clients n).id ≠ "__proto__")
    (hstale : w.stale n (w.rooms g).name = false) (id : String) : Told w' n g id := by
  have hnone : roomOf (w.clients n) = none := by rw [roomOf, hpc, h.apart n g token hpc]
  obtain ⟨c, hc, -, -, hqueue, hwire, husers⟩ := ha.client
  have hempty : (tableOf c (w.rooms g).name).own = fun _ => none := by
    rw [tableOf, hqueue, hwire, husers]
    exact table_cleared (by rw [hpc]; rfl) (h.cleared n hnone (by simp [Ending, hpc]))
      (Bool.or_eq_false_iff.mp hstale).2
  refine told_of_own (fun kind u hcome => ?_) ?_
  · rw [ha.coming, ha.names] at hcome
    exact not_coming_for hstale kind id u hcome
  rw [ha.names, hc, table_append]
  obtain ⟨hadd, hskip⟩ := ha.own h hkey (tableOf c (w.rooms g).name) n id
  cases hlookup : (w'.rooms g).clients.lookup id with
  | some k =>
      obtain ⟨rfl, hk⟩ := (ha.seats h hnone g id k).mp hlookup
      refine hadd ⟨(w'.clients k).user, mem_messages.mpr ⟨addOf w'.view (w.rooms g).name k, ?_, ?_⟩⟩
      · by_cases hkn : k = n
        · subst hkn
          exact ha.adds.self
        · rw [ha.roomOf_of_ne hkn] at hk
          exact (ha.adds.others k (Group.mem_members.mpr ⟨_, (h.seats _ _ k).mpr ⟨rfl, hk⟩⟩)).1
      · exact messageOf_addOf ..
  | none =>
      rw [World.member, hlookup]
      refine (hskip fun u hm => ?_).trans (congrFun hempty id)
      rcases ha.news h hkey hm with hquiet | ⟨id', u', heq, -, hmember⟩
      · exact hquiet.1 rfl
      · injection heq with _ hid _
        rw [World.member, ← hid, hlookup] at hmember
        cases hmember

theorem inv (ha : Admitted w w' n g calls) (h : Inv w) {token : String}
    (hpc : (w.clients n).pc = .joining g token) (hkey : (w.clients n).id ≠ "__proto__")
    (hway : w.onTheWay (w.rooms g).name (w.clients n).id = false)
    (hstale : w.stale n (w.rooms g).name = false) : Inv w' := by
  have hnone : roomOf (w.clients n) = none := by rw [roomOf, hpc, h.apart n g token hpc]
  have hpc' : (w'.clients n).pc = .joined g := by
    obtain ⟨c, hc, -, hpc', -⟩ := ha.client
    rw [hc, hpc']
  refine ⟨ha.seats h hnone, fun k g' token' hk => ?_, fun k hk hlive => ?_, fun k g' hk => ?_,
    fun k g' hk hlive id => ?_, by rw [ha.pushes]; exact h.plain⟩
  · by_cases hkn : k = n
    · subst hkn
      exact absurd (hpc'.symm.trans hk) (by simp)
    · rw [ha.others k hkn] at hk ⊢
      exact h.apart k g' token' hk
  · by_cases hkn : k = n
    · subst hkn
      exact absurd (ha.roomOf_self.symm.trans hk) (by simp)
    · rw [ha.others k hkn] at hk hlive ⊢
      exact (h.cleared k hk hlive).append _
  · rw [ha.id_eq k]
    by_cases hkn : k = n
    · subst hkn
      exact hkey
    · rw [ha.roomOf_of_ne hkn] at hk
      exact h.keyed k g' hk
  · by_cases hkn : k = n
    · subst hkn
      obtain rfl : g = g' := Option.some.inj (ha.roomOf_self.symm.trans hk)
      exact ha.told_self h hpc hkey hstale id
    · rw [ha.roomOf_of_ne hkn] at hk
      rw [ha.others k hkn] at hlive
      exact ha.told_of_ne h hnone hkey hway hkn hk hlive id

end Admitted

/-- Only what concerns client `n` changes in how its groups see their clients. -/
theorem view_commit {r : Reply} (hid : r.client.id = (w.clients n).id)
    (hdata : r.client.data = (w.clients n).data) :
    (w.commit n r).view = w.view.init n r.client.username r.client.permissions := by
  simp only [World.view, View.init, View.mk.injEq]
  refine ⟨funext fun k => ?_, funext fun k => ?_, funext fun k => ?_, funext fun k => ?_⟩
  all_goals
    by_cases hk : k = n
    · subst hk
      simp [commit_self, hid, hdata]
    · simp [commit_of_ne hk, hk]

theorem after_eq (init : Option (String × Permissions)) :
    after w.view n init = w.view.init n (init.elim (w.clients n).username (·.1))
      (init.elim (w.clients n).permissions (·.2)) := by
  cases init with
  | none =>
      simp only [after, World.view, View.init, Option.elim_none, View.mk.injEq, true_and, and_true]
      refine ⟨funext fun k => ?_, funext fun k => ?_⟩
      all_goals
        by_cases hk : k = n
        · subst hk
          simp
        · simp [hk]
  | some i => rfl

theorem admitted_lockGroup {token : String}
    {permission : Except Error (String × Permissions)} {now : ℕ}
    (hpc : (w.clients n).pc = .joining g token)
    (hok : (addClient w.view (w.rooms g) n token permission now).error = none) :
    Admitted w (w.commit n (lockGroup w n (w.clients n) g token permission now)) n g
      (quiet (addClient w.view (w.rooms g) n token permission now).calls) := by
  have hspec := addSpec_addClient w.view (w.rooms g) n token permission now
  have hrooms : (w.commit n (lockGroup w n (w.clients n) g token permission now)).rooms =
      Function.update w.rooms g (addClient w.view (w.rooms g) n token permission now).group := rfl
  obtain ⟨hfree, hclients⟩ : (w.rooms g).clients.lookup (w.clients n).id = none ∧
      (addClient w.view (w.rooms g) n token permission now).group.clients =
        (w.rooms g).clients.insert (w.clients n).id n := by
    rcases hspec.clients with ⟨hne, -⟩ | ⟨-, -, hfree, hclients⟩
    · exact absurd hok hne
    · exact ⟨hfree, hclients⟩
  have hview : (w.commit n (lockGroup w n (w.clients n) g token permission now)).view =
      after w.view n (addClient w.view (w.rooms g) n token permission now).init := by
    rw [after_eq]
    refine (view_commit ?_ ?_).trans ?_ <;> simp only [lockGroup, hok]
  refine ⟨hfree, ?_, fun g' hg => ?_, fun g' => ?_, fun k hk => commit_of_ne hk, ?_,
    List.append_nil _, ?_⟩
  · rw [hrooms, Function.update_self, hclients]
  · rw [hrooms, Function.update_of_ne hg]
  · by_cases hg : g' = g
    · subst hg
      rw [hrooms, Function.update_self, hspec.name]
    · rw [hrooms, Function.update_of_ne hg]
  · refine ⟨_, commit_self, ?_⟩
    have hqueue : (w.clients n).actions = queueOf (w.clients n) := by
      rw [queueOf, hpc]
      rfl
    simp only [lockGroup, hok, queueOf, batchOf, hpc, and_self]
  · rw [hview]
    exact (calls_addClient ..).2 hok

end Admission

section Departure

variable {w w' : World} {n k g : ℕ}

/-- Every member of the group is being told the same of client `n`. -/
def Telling (w w' : World) (n g : ℕ) (members : List ℕ) (kind : String) (u : User) : Prop :=
  ∀ k name kind' id u', Coming w' k name kind' id u' ↔ Coming w k name kind' id u' ∨
    (k ∈ members ∧ name = (w.rooms g).name ∧ kind' = kind ∧ id = (w.clients n).id ∧ u' = u)

/-- A client has been taken out of its group, whose members are being told. -/
structure Departed (w w' : World) (n g : ℕ) : Prop where
  room : (w'.rooms g).clients = (w.rooms g).clients.erase (w.clients n).id
  rooms : ∀ g', g' ≠ g → (w'.rooms g').clients = (w.rooms g').clients
  names : ∀ g', (w'.rooms g').name = (w.rooms g').name
  others : ∀ k, k ≠ n → w'.clients k = w.clients k
  id : (w'.clients n).id = (w.clients n).id
  gone : roomOf (w'.clients n) = none
  cleared : Cleared (w'.clients n)
  apart : ∀ g token, (w'.clients n).pc ≠ .joining g token
  coming : ∃ u, Telling w w' n g (w'.rooms g).members "delete" u
  plain : ∀ p ∈ w'.pushes, ∀ q ∈ p.calls, Plain q.2

/-- A client is telling its group how it is now. -/
structure Announced (w w' : World) (n g : ℕ) : Prop where
  rooms : w'.rooms = w.rooms
  others : ∀ k, k ≠ n → w'.clients k = w.clients k
  id : (w'.clients n).id = (w.clients n).id
  user : (w'.clients n).user = (w.clients n).user
  room : roomOf (w.clients n) = some g
  room' : roomOf (w'.clients n) = some g
  live : ¬ Ending (w.clients n)
  table : tableOf (w'.clients n) (w.rooms g).name = tableOf (w.clients n) (w.rooms g).name
  apart : ∀ g token, (w'.clients n).pc ≠ .joining g token
  coming : Telling w w' n g (w.rooms g).members "change" (w.clients n).user
  plain : ∀ p ∈ w'.pushes, ∀ q ∈ p.calls, Plain q.2

theorem Inv.mem_members (h : Inv w) : k ∈ (w.rooms g).members ↔ roomOf (w.clients k) = some g := by
  rw [Group.mem_members]
  constructor
  · rintro ⟨id, hlookup⟩
    exact ((h.seats g id k).mp hlookup).2
  · intro hroom
    exact ⟨_, (h.seats g _ k).mpr ⟨rfl, hroom⟩⟩

namespace Announced

theorem id_eq (ha : Announced w w' n g) (k : ℕ) : (w'.clients k).id = (w.clients k).id := by
  by_cases hk : k = n
  · subst hk
    exact ha.id
  · rw [ha.others k hk]

theorem roomOf_eq (ha : Announced w w' n g) (k : ℕ) :
    roomOf (w'.clients k) = roomOf (w.clients k) := by
  by_cases hk : k = n
  · subst hk
    exact ha.room'.trans ha.room.symm
  · rw [ha.others k hk]

theorem live_of (ha : Announced w w' n g) (hlive : ¬ Ending (w'.clients k)) :
    ¬ Ending (w.clients k) := by
  by_cases hk : k = n
  · subst hk
    exact ha.live
  · rwa [ha.others k hk] at hlive

theorem table_eq (ha : Announced w w' n g) {g' : ℕ} (hk : roomOf (w.clients k) = some g') :
    tableOf (w'.clients k) (w.rooms g').name = tableOf (w.clients k) (w.rooms g').name := by
  by_cases hkn : k = n
  · subst hkn
    obtain rfl := Option.some.inj (ha.room.symm.trans hk)
    exact ha.table
  · rw [ha.others k hkn]

/-- What is on its way about the client now says how it is now. -/
theorem told_subject (ha : Announced w w' n g) (h : Inv w)
    (hway : w.onTheWay (w.rooms g).name (w.clients n).id = false)
    (hk : roomOf (w.clients k) = some g) (htold : Told w k g (w.clients n).id) :
    Told w' k g (w.clients n).id := by
  have hlookup : (w'.rooms g).clients.lookup (w.clients n).id = some n := by
    rw [ha.rooms]
    exact (h.seats _ _ _).mpr ⟨rfl, ha.room⟩
  refine ⟨fun hnone => absurd (hlookup.symm.trans hnone) (by simp), fun k' hk' => ?_⟩
  obtain rfl : n = k' := Option.some.inj (hlookup.symm.trans hk')
  rw [ha.rooms] at hlookup ⊢
  rw [ha.table_eq hk, ha.user]
  refine ⟨(htold.present n hlookup).1, fun kind u hcome => ?_,
    .inr (.inr ⟨_, _, (ha.coming ..).mpr (.inr ⟨h.mem_members.mpr hk, rfl, rfl, rfl, rfl⟩)⟩)⟩
  rcases (ha.coming ..).mp hcome with hcome | ⟨-, -, hkind, -, hu⟩
  · exact absurd hcome (not_coming_about hway k kind u)
  · exact ⟨hkind, .inr hu⟩

theorem told (ha : Announced w w' n g) (h : Inv w)
    (hway : w.onTheWay (w.rooms g).name (w.clients n).id = false) {g' : ℕ}
    (hk : roomOf (w.clients k) = some g') {id : String} (htold : Told w k g' id) :
    Told w' k g' id := by
  by_cases hsubject : g' = g ∧ id = (w.clients n).id
  · obtain ⟨rfl, rfl⟩ := hsubject
    exact ha.told_subject h hway hk htold
  · refine htold.transfer (by rw [ha.rooms]) (by rw [ha.rooms]) (by rw [ha.table_eq hk])
      (fun kind u => ?_) fun k' hlookup => ?_
    · rw [ha.coming]
      refine or_iff_left fun ⟨hmember, _, _, hid, _⟩ => hsubject ⟨?_, hid⟩
      exact Option.some.inj (hk.symm.trans (h.mem_members.mp hmember))
    · have hne : k' ≠ n := by
        rintro rfl
        obtain ⟨hid, hroom⟩ := (h.seats _ _ _).mp hlookup
        exact hsubject ⟨Option.some.inj (hroom.symm.trans ha.room), hid.symm⟩
      rw [ha.others k' hne]
      exact .inr ⟨rfl, fun ho => ho⟩

theorem inv (ha : Announced w w' n g) (h : Inv w)
    (hway : w.onTheWay (w.rooms g).name (w.clients n).id = false) : Inv w' := by
  refine ⟨fun g' id k => ?_, fun k g' token hk => ?_, fun k hk hlive => ?_, fun k g' hk => ?_,
    fun k g' hk hlive id => ?_, ha.plain⟩
  · rw [ha.rooms, ha.id_eq, ha.roomOf_eq]
    exact h.seats g' id k
  · by_cases hkn : k = n
    · subst hkn
      exact absurd hk (ha.apart g' token)
    · rw [ha.others k hkn] at hk ⊢
      exact h.apart k g' token hk
  · by_cases hkn : k = n
    · subst hkn
      exact absurd (ha.room'.symm.trans hk) (by simp)
    · rw [ha.others k hkn] at hk hlive ⊢
      exact h.cleared k hk hlive
  · rw [ha.id_eq]
    exact h.keyed k g' ((ha.roomOf_eq k).symm.trans hk)
  · have hk' := (ha.roomOf_eq k).symm.trans hk
    exact ha.told h hway hk' (h.told k g' hk' (ha.live_of hlive) id)

end Announced

namespace Departed

theorem stays (hd : Departed w w' n g) {g' : ℕ} (hk : roomOf (w'.clients k) = some g') :
    k ≠ n := by
  rintro rfl
  exact absurd (hd.gone.symm.trans hk) (by simp)

theorem lookup_self (hd : Departed w w' n g) :
    (w'.rooms g).clients.lookup (w.clients n).id = none := by
  rw [hd.room, AList.lookup_erase]

/-- The group still has the others. -/
theorem lookup_of_ne (hd : Departed w w' n g) {g' : ℕ} {id : String}
    (hother : ¬ (g' = g ∧ id = (w.clients n).id)) :
    (w'.rooms g').clients.lookup id = (w.rooms g').clients.lookup id := by
  by_cases hg : g' = g
  · subst hg
    rw [hd.room, AList.lookup_erase_ne fun hid => hother ⟨rfl, hid⟩]
  · rw [hd.rooms g' hg]

theorem seats (hd : Departed w w' n g) (h : Inv w) (hroom : roomOf (w.clients n) = some g)
    (g' : ℕ) (id : String) (k : ℕ) : (w'.rooms g').clients.lookup id = some k ↔
      (w'.clients k).id = id ∧ roomOf (w'.clients k) = some g' := by
  by_cases hsubject : g' = g ∧ id = (w.clients n).id
  · obtain ⟨rfl, rfl⟩ := hsubject
    rw [hd.lookup_self]
    refine ⟨fun heq => absurd heq (by simp), fun ⟨hid, hk⟩ => absurd ?_ (hd.stays hk)⟩
    rw [hd.others k (hd.stays hk)] at hid hk
    have hlookup := (h.seats _ _ k).mpr ⟨hid, hk⟩
    exact Option.some.inj (hlookup.symm.trans ((h.seats _ _ n).mpr ⟨rfl, hroom⟩))
  · rw [hd.lookup_of_ne hsubject, h.seats]
    by_cases hk : k = n
    · subst hk
      refine ⟨fun ⟨hid, hk⟩ => absurd ⟨?_, hid.symm⟩ hsubject,
        fun ⟨_, hk⟩ => absurd rfl (hd.stays hk)⟩
      exact Option.some.inj (hk.symm.trans hroom)
    · rw [hd.others k hk]

theorem told (hd : Departed w w' n g) (h : Inv w) (hroom : roomOf (w.clients n) = some g)
    (hway : w.onTheWay (w.rooms g).name (w.clients n).id = false) {g' : ℕ}
    (hk : roomOf (w'.clients k) = some g') {id : String} (htold : Told w k g' id) :
    Told w' k g' id := by
  obtain ⟨u, hcoming⟩ := hd.coming
  by_cases hsubject : g' = g ∧ id = (w.clients n).id
  · obtain ⟨rfl, rfl⟩ := hsubject
    have hmember : k ∈ (w'.rooms g').members :=
      Group.mem_members.mpr ⟨_, (hd.seats h hroom _ _ k).mpr ⟨rfl, hk⟩⟩
    refine ⟨fun _ => ?_, fun k' hk' => absurd (hd.lookup_self.symm.trans hk') (by simp)⟩
    rw [hd.names]
    refine ⟨fun kind u' hcome => ?_,
      .inr ⟨_, u, (hcoming ..).mpr (.inr ⟨hmember, rfl, rfl, rfl, rfl⟩)⟩⟩
    rcases (hcoming ..).mp hcome with hcome | ⟨-, -, hkind, -⟩
    · exact absurd hcome (not_coming_about hway k kind u')
    · exact hkind
  · refine htold.transfer (hd.lookup_of_ne hsubject) (hd.names g')
      (by rw [hd.others k (hd.stays hk)]) (fun kind u' => ?_) fun k' hlookup => ?_
    · rw [hcoming]
      refine or_iff_left fun ⟨hmember, _, _, hid, _⟩ => hsubject ⟨?_, hid⟩
      obtain ⟨id', hlookup⟩ := Group.mem_members.mp hmember
      exact Option.some.inj (hk.symm.trans ((hd.seats h hroom _ _ _).mp hlookup).2)
    · have hne : k' ≠ n := by
        rintro rfl
        obtain ⟨hid, hroom'⟩ := (h.seats _ _ _).mp hlookup
        exact hsubject ⟨Option.some.inj (hroom'.symm.trans hroom), hid.symm⟩
      rw [hd.others k' hne]
      exact .inr ⟨rfl, fun ho => ho⟩

theorem inv (hd : Departed w w' n g) (h : Inv w) (hroom : roomOf (w.clients n) = some g)
    (hway : w.onTheWay (w.rooms g).name (w.clients n).id = false) : Inv w' := by
  refine ⟨hd.seats h hroom, fun k g' token hk => ?_, fun k hk hlive => ?_, fun k g' hk => ?_,
    fun k g' hk hlive id => ?_, hd.plain⟩
  · by_cases hkn : k = n
    · subst hkn
      exact absurd hk (hd.apart g' token)
    · rw [hd.others k hkn] at hk ⊢
      exact h.apart k g' token hk
  · by_cases hkn : k = n
    · subst hkn
      exact hd.cleared
    · rw [hd.others k hkn] at hk hlive ⊢
      exact h.cleared k hk hlive
  · have hkn := hd.stays hk
    rw [hd.others k hkn] at hk ⊢
    exact h.keyed k g' hk
  · have hkn := hd.stays hk
    have hk' := hk
    rw [hd.others k hkn] at hk' hlive
    exact hd.told h hroom hway hk (h.told k g' hk' hlive id)

end Departed

end Departure

section Delivery

variable {w w' : World} {i : ℕ} {p : Push}

theorem coming_eraseIdx (hp : w.pushes[i]? = some p) (hcalls : p.calls = [])
    (hpushes : w'.pushes = w.pushes.eraseIdx i) (n : ℕ) (name kind id : String) (u : User) :
    Coming w' n name kind id u ↔ Coming w n name kind id u := by
  rw [Coming, Coming, hpushes]
  constructor
  · rintro ⟨p', hp', hmem⟩
    exact ⟨p', List.mem_of_mem_eraseIdx hp', hmem⟩
  · rintro ⟨p', hp', hmem⟩
    refine ⟨p', List.mem_eraseIdx_iff_getElem?.mpr ?_, hmem⟩
    obtain ⟨j, hj⟩ := List.mem_iff_getElem?.mp hp'
    refine ⟨j, ?_, hj⟩
    rintro rfl
    cases hp.symm.trans hj
    rw [hcalls] at hmem
    exact absurd hmem List.not_mem_nil

/-- A call that is made is no longer on its way. -/
theorem coming_set {q : ℕ × Action} {rest : List (ℕ × Action)} (hp : w.pushes[i]? = some p)
    (hcalls : p.calls = q :: rest) (hpushes : w'.pushes = w.pushes.set i { p with calls := rest })
    (n : ℕ) (name kind id : String) (u : User) :
    (Coming w' n name kind id u → Coming w n name kind id u) ∧
      (Coming w n name kind id u → Coming w' n name kind id u ∨
        q = (n, .call (.pushClient name kind id u.username u.permissions u.data))) := by
  have hmem : p ∈ w.pushes := List.mem_of_getElem? hp
  have hlt : i < w.pushes.length := (List.getElem?_eq_some_iff.mp hp).1
  rw [Coming, Coming, hpushes]
  constructor
  · rintro ⟨p', hp', hcall⟩
    rcases List.mem_or_eq_of_mem_set hp' with hp' | rfl
    · exact ⟨p', hp', hcall⟩
    · exact ⟨p, hmem, hcalls ▸ List.mem_cons_of_mem _ hcall⟩
  · rintro ⟨p', hp', hcall⟩
    obtain ⟨j, hj⟩ := List.mem_iff_getElem?.mp hp'
    by_cases hij : i = j
    · subst hij
      cases hp.symm.trans hj
      rw [hcalls, List.mem_cons] at hcall
      rcases hcall with hcall | hcall
      · exact .inr hcall.symm
      · exact .inl ⟨_, List.mem_set hlt _, hcall⟩
    · refine .inl ⟨p', List.mem_iff_getElem?.mpr ⟨j, ?_⟩, hcall⟩
      rw [List.getElem?_set_ne hij, hj]

/-- A call about one user changes a table only there, and not at all if it comes
from elsewhere. -/
theorem own_call {a : Action} (hplain : Plain a) {name id : String}
    (hother : a.about name id = false) (t : Users) : (fold t ([a].filterMap (messageOf name))).own id = t.own id := by
  cases a with
  | call call =>
      cases call with
      | joined => exact hplain.elim
      | kick => rfl
      | pushClient group kind id' username permissions data =>
          by_cases hgroup : group = name
          · have hid : id ≠ id' := by
              rintro rfl
              exact absurd hother (by simp [Action.about, hgroup])
            have hmessage : messageOf name (.call (.pushClient group kind id' username permissions
                data)) = some (.user kind id' ⟨username, permissions, data⟩) := if_pos hgroup
            rw [List.filterMap_cons_some hmessage]
            exact own_of_ne hid kind
          · have hmessage : messageOf name (.call (.pushClient group kind id' username permissions
                data)) = none := if_neg hgroup
            rw [List.filterMap_cons_none hmessage]
            rfl
  | changePermissions => rfl
  | permissionsChanged => rfl

theorem exists_of_about {a : Action} {name id : String} (h : a.about name id = true) :
    ∃ kind, ∃ u : User, a = .call (.pushClient name kind id u.username u.permissions u.data) := by
  cases a with
  | call call =>
      cases call with
      | joined => cases h
      | kick => cases h
      | pushClient group kind id' username permissions data =>
          obtain ⟨rfl, rfl⟩ := of_decide_eq_true h
          exact ⟨kind, ⟨username, permissions, data⟩, rfl⟩
  | changePermissions => cases h
  | permissionsChanged => cases h

theorem callsFor_self (n : ℕ) (a : Action) : callsFor n [(n, a)] = [a] := by simp [callsFor]

theorem callsFor_of_ne {n k : ℕ} (h : k ≠ n) (a : Action) : callsFor n [(k, a)] = [] := by
  simp [callsFor, h]

/-- A call reaches its recipient. -/
theorem Inv.delivered (h : Inv w) {k : ℕ} {a : Action} {rest : List (ℕ × Action)}
    (hp : w.pushes[i]? = some p) (hcalls : p.calls = (k, a) :: rest) :
    Inv (World.enqueue { w with pushes := w.pushes.set i { p with calls := rest } } [(k, a)]) := by
  have hmem : p ∈ w.pushes := List.mem_of_getElem? hp
  have hplain : Plain a := h.plain p hmem (k, a) (hcalls ▸ List.mem_cons_self ..)
  have hpushes : (World.enqueue { w with pushes := w.pushes.set i { p with calls := rest } }
      [(k, a)]).pushes = w.pushes.set i { p with calls := rest } := rfl
  have hcoming := coming_set hp hcalls hpushes
  refine ⟨h.seats, h.apart, fun n hn hlive => (h.cleared n hn hlive).append _, h.keyed,
    fun n g hn hlive id => ?_, fun p' hp' q hq => ?_⟩
  · have htold := h.told n g hn hlive id
    by_cases hnews : k = n ∧ a.about (w.rooms g).name id
    · obtain ⟨rfl, habout⟩ := hnews
      obtain ⟨kind, u, rfl⟩ := exists_of_about habout
      have hcome : Coming w k (w.rooms g).name kind id u :=
        ⟨p, hmem, hcalls ▸ List.mem_cons_self ..⟩
      have hold {kind' : String} {u' : User} (hc : Coming _ k (w.rooms g).name kind' id u') :=
        (hcoming k (w.rooms g).name kind' id u').1 hc
      have hmessage : messageOf (w.rooms g).name
          (.call (.pushClient (w.rooms g).name kind id u.username u.permissions u.data)) =
            some (.user kind id u) := if_pos rfl
      have htable : tableOf { w.clients k with actions := (w.clients k).actions ++ callsFor k [(k,
          .call (.pushClient (w.rooms g).name kind id u.username u.permissions u.data))] }
            (w.rooms g).name =
          gotMessage (tableOf (w.clients k) (w.rooms g).name) (.user kind id u) := by
        rw [table_append, callsFor_self, List.filterMap_cons_some hmessage]
        rfl
      constructor
      · intro hlookup
        obtain ⟨hflight, -⟩ := htold.absent hlookup
        refine ⟨fun kind' u' hc => hflight kind' u' (hold hc), .inl ?_⟩
        refine (congrArg (fun t => t.own id) htable).trans ?_
        rw [hflight kind u hcome, own_delete, Function.update_self]
      · intro k' hlookup
        obtain ⟨hknown, hflight, -⟩ := htold.present k' hlookup
        obtain ⟨rfl, hu⟩ := hflight kind u hcome
        have hown := (congrArg (fun t => t.own id) htable).trans
          ((congrFun (own_change hknown) id).trans (Function.update_self ..))
        refine ⟨Option.isSome_of_eq_some hown, fun kind' u' hc => ?_, ?_⟩
        · exact (hflight kind' u' (hold hc)).imp_right (.imp_left fun ho => ho.append _)
        · rcases hu with ho | rfl
          · exact .inl (ho.append _)
          · exact .inr (.inl hown)
    · refine htold.transfer rfl rfl ?_ (fun kind u => ⟨(hcoming ..).1, fun hcome => ?_⟩)
        fun k' _ => .inr ⟨rfl, fun ho => ho.append _⟩
      · rw [World.enqueue, table_append]
        by_cases hk : k = n
        · subst hk
          rw [callsFor_self]
          refine own_call hplain ?_ _
          simpa using hnews
        · rw [callsFor_of_ne hk]
          rfl
      · refine ((hcoming ..).2 hcome).resolve_right fun heq => hnews ?_
        obtain ⟨rfl, rfl⟩ := Prod.mk.inj heq
        exact ⟨rfl, by simp [Action.about]⟩
  · rcases List.mem_or_eq_of_mem_set hp' with hp' | rfl
    · exact h.plain p' hp' q hq
    · exact h.plain p hmem q (hcalls ▸ List.mem_cons_of_mem _ hq)

theorem Inv.push (h : Inv w) (hstep : w.push i = some w') : Inv w' := by
  obtain ⟨p, hp, rfl⟩ := Option.map_eq_some_iff.mp hstep
  cases hcalls : p.calls with
  | nil =>
      dsimp only
      refine h.kept (fun _ => ⟨rfl, rfl⟩) (fun n => ?_) (coming_eraseIdx hp hcalls rfl)
        fun p' hp' => h.plain p' (List.mem_of_mem_eraseIdx hp')
      cases p.owner with
      | none => exact .refl ..
      | some k =>
          by_cases hk : n = k
          · subst hk
            simp only [Option.elim_some, Function.update_self]
            exact kept_resume
          · simp only [Option.elim_some, Function.update_of_ne hk]
            exact .refl ..
  | cons q rest =>
      exact h.delivered hp hcalls

end Delivery

section Steps

variable {w w' : World} {n g : ℕ}

theorem telling_append {o : Option ℕ} {members : List ℕ} {kind : String} {u : User}
    (hpushes : w'.pushes = w.pushes ++
      [{ owner := o, calls := members.map fun m => (m, .call (.pushClient (w.rooms g).name kind
          (w.clients n).id u.username u.permissions u.data)) }]) :
    Telling w w' n g members kind u := by
  intro k name kind' id u'
  rw [Coming, Coming, hpushes]
  constructor
  · rintro ⟨p, hp, hmem⟩
    rcases List.mem_append.mp hp with hp | hp
    · exact .inl ⟨p, hp, hmem⟩
    · obtain rfl := List.mem_singleton.mp hp
      obtain ⟨m, hm, heq⟩ := List.mem_map.mp hmem
      simp only [Prod.mk.injEq, Action.call.injEq, Call.pushClient.injEq] at heq
      obtain ⟨rfl, rfl, rfl, rfl, husername, hpermissions, hdata⟩ := heq
      refine .inr ⟨hm, rfl, rfl, rfl, ?_⟩
      cases u
      cases u'
      simp only at husername hpermissions hdata
      rw [husername, hpermissions, hdata]
  · rintro (⟨p, hp, hmem⟩ | ⟨hm, rfl, rfl, rfl, rfl⟩)
    · exact ⟨p, List.mem_append_left _ hp, hmem⟩
    · exact ⟨_, List.mem_append_right _ (List.mem_singleton_self _), List.mem_map.mpr ⟨k, hm, rfl⟩⟩

theorem callsFor_nil (k : ℕ) : callsFor k [] = [] := rfl

theorem commit_of_quiet {k : ℕ} {r : Reply} (hk : k ≠ n) (hcalls : callsFor k r.calls = []) :
    (w.commit n r).clients k = w.clients k := by
  rw [commit_of_ne hk, hcalls, List.append_nil]

/-- A client starts to tell its group how it is. -/
theorem Inv.announce (h : Inv w) {c : Client} {owner : Option ℕ}
    (hgroup : (w.clients n).group = some g) (hway : w.free n)
    (hroom : roomOf (w.clients n) = some g) (hlive : ¬ Ending (w.clients n))
    (hid : c.id = (w.clients n).id) (huser : c.user = (w.clients n).user)
    (hroom' : roomOf c = some g)
    (htable : tableOf c (w.rooms g).name = tableOf (w.clients n) (w.rooms g).name)
    (hapart : ∀ g token, c.pc ≠ .joining g token) :
    Inv (w.commit n
      { w.reply c with pushes := [{ owner, calls := tell (w.clients n) (w.rooms g) }] }) := by
  have hself := commit_self (w := w) (n := n)
    (r := { w.reply c with pushes := [{ owner, calls := tell (w.clients n) (w.rooms g) }] })
  have hclient : (w.commit n { w.reply c with
      pushes := [{ owner, calls := tell (w.clients n) (w.rooms g) }] }).clients n = c := by
    rw [hself]
    simp only [World.reply, callsFor_nil, List.append_nil]
  refine Announced.inv (w := w) (g := g) ⟨rfl, fun k hk => commit_of_quiet hk rfl, ?_, ?_, hroom,
    ?_, hlive, ?_, ?_, telling_append rfl, ?_⟩ h ?_
  · rw [hclient, hid]
  · rw [hclient, huser]
  · rw [hclient, hroom']
  · rw [hclient, htable]
  · rw [hclient]
    exact hapart
  · intro p hp q hq
    rcases List.mem_append.mp hp with hp | hp
    · exact h.plain p hp q hq
    · obtain rfl := List.mem_singleton.mp hp
      obtain ⟨m, -, rfl⟩ := List.mem_map.mp hq
      trivial
  · simpa [World.free, hgroup] using hway

theorem Inv.depart (h : Inv w) {ending : Bool} {now : ℕ} {room : Groups.Group ℕ}
    (hpc : (w.clients n).pc = .leaving .member ending) (hgroup : (w.clients n).group = some g)
    (hway : w.free n) (hroom : delClient w.view (w.rooms g) n now = some room) :
    Inv (w.commit n
      { rooms := Function.update w.rooms g room
        client := { w.clients n with pc := .leaving .deletes ending }
        calls := (quiet (delClientCalls w.view room n)).take 1
        pushes := [{ owner := some n, calls := (quiet (delClientCalls w.view room n)).drop 1 }] }) := by
  have hmember : roomOf (w.clients n) = some g := by rw [roomOf, hpc, hgroup]
  obtain ⟨hclients, hname⟩ : room.clients = (w.rooms g).clients.erase (w.clients n).id ∧
      room.name = (w.rooms g).name := by
    rw [delClient] at hroom
    split_ifs at hroom
    cases hroom
    exact ⟨rfl, rfl⟩
  have hcalls : (quiet (delClientCalls w.view room n)).drop 1 = room.members.map fun m =>
      (m, .call (.pushClient (w.rooms g).name "delete" (w.clients n).id (w.clients n).username
        [] [])) := by
    rw [← hname]
    simp only [delClientCalls, quiet, List.map_cons, List.drop_succ_cons, List.drop_zero,
      List.map_map]
    rfl
  have hself : (w.commit n
      { rooms := Function.update w.rooms g room
        client := { w.clients n with pc := .leaving .deletes ending }
        calls := (quiet (delClientCalls w.view room n)).take 1
        pushes := [{ owner := some n, calls := (quiet (delClientCalls w.view room n)).drop 1 }]
        }).rooms g = room := Function.update_self ..
  refine Departed.inv (w := w) (g := g) ⟨?_, fun g' hg => ?_, fun g' => ?_,
    fun k hk => commit_of_quiet hk ?_, ?_, ?_, ?_, ?_, ⟨⟨(w.clients n).username, [], []⟩, ?_⟩, ?_⟩
    h hmember ?_
  · rw [hself, hclients]
  · change (Function.update w.rooms g room g').clients = _
    rw [Function.update_of_ne hg]
  · change (Function.update w.rooms g room g').name = _
    by_cases hg : g' = g
    · subst hg
      rw [Function.update_self, hname]
    · rw [Function.update_of_ne hg]
  · exact callsFor_of_ne (Ne.symm hk) _
  · rw [commit_self]
  · rw [commit_self]
    rfl
  · rw [commit_self]
    refine .inl ⟨.call (.joined room.name "leave"), ?_, rfl⟩
    refine List.mem_append_right _ (List.mem_append_right _ ?_)
    exact (callsFor_self n _).symm ▸ List.mem_singleton_self _
  · rw [commit_self]
    simp
  · refine telling_append (o := some n) ?_
    rw [hself, ← hcalls]
    rfl
  · intro p hp q hq
    rcases List.mem_append.mp hp with hp | hp
    · exact h.plain p hp q hq
    · obtain rfl := List.mem_singleton.mp hp
      change q ∈ (quiet (delClientCalls w.view room n)).drop 1 at hq
      rw [hcalls] at hq
      obtain ⟨m, -, rfl⟩ := List.mem_map.mp hq
      trivial
  · simpa [World.free, hgroup] using hway

theorem batchOf_finish (ending : Bool) : batchOf (finish ending) = [] := by cases ending <;> rfl

theorem roomOf_finish {c : Client} {ending : Bool} (hpc : c.pc = finish ending)
    (hgroup : c.group = none) : roomOf c = none := by
  cases ending <;> simp [roomOf, hpc, finish, hgroup]

/-- A client that leaves goes on outside its group. -/
theorem kept_leaving {names : ℕ → String} {c c' : Client} {stage : LeaveStage} {ending : Bool}
    (hpc : c.pc = .leaving stage ending) (hroom : roomOf c = none) (hroom' : roomOf c' = none)
    (hid : c'.id = c.id) (hbatch : batchOf c'.pc = []) (hactions : c'.actions = c.actions)
    (hwire : c'.wire = c.wire) (husers : c'.users = c.users) (hending : Ending c → Ending c')
    (hapart : ∀ g token, c'.pc ≠ .joining g token) : Kept names c c' := by
  refine kept_outside hid hroom hroom' hending (fun _ hc => hc.congr ?_ hwire husers)
    fun g token heq => absurd heq (hapart g token)
  rw [queueOf, queueOf, hbatch, hactions, hpc]
  rfl

theorem ending_finish {c c' : Client} {stage : LeaveStage} {ending : Bool}
    (hpc : c.pc = .leaving stage ending) (hpc' : c'.pc = finish ending) (he : Ending c) :
    Ending c' := by
  simp only [Ending, hpc] at he
  subst he
  simp only [Ending, hpc', finish, if_true]

theorem finish_ne_joining (ending : Bool) (g : ℕ) (token : String) :
    finish ending ≠ .joining g token := by cases ending <;> simp [finish]

theorem Inv.leaveGroup (h : Inv w) {stage : LeaveStage} {ending : Bool} {now : ℕ} {r : Reply}
    (hpc : (w.clients n).pc = .leaving stage ending) (hway : stage = .member → w.free n)
    (hr : leaveGroup w n (w.clients n) stage ending now = some r) : Inv (w.commit n r) := by
  cases stage with
  | member =>
      simp only [UserEvents.leaveGroup] at hr
      split at hr
      next hgroup =>
        obtain rfl := Option.some.inj hr
        refine h.commit (mute_reply (kept_leaving hpc ?_ (roomOf_finish rfl hgroup) rfl
          (batchOf_finish ending) rfl rfl rfl (ending_finish hpc rfl) (finish_ne_joining ending)))
        rw [roomOf, hpc, hgroup]
      next g hgroup =>
        split at hr
        next hnone =>
          have hlookup : (w.rooms g).clients.lookup (w.view.id n) = some n :=
            (h.seats g _ n).mpr ⟨rfl, by rw [roomOf, hpc, hgroup]⟩
          rw [delClient, if_pos hlookup] at hnone
          cases hnone
        next room hroom =>
          obtain rfl := Option.some.inj hr
          exact h.depart hpc hgroup (hway rfl) hroom
  | deletes => cases hr
  | lock =>
      obtain ⟨g, -, rfl⟩ := Option.map_eq_some_iff.mp hr
      have haside := aside_autoLockKick w.view (w.rooms g)
      refine h.commit ⟨rooms_update haside.clients haside.name, ?_, haside.calls, haside.pushes⟩
      exact kept_leaving hpc (by rw [roomOf, hpc]) rfl rfl rfl rfl rfl rfl
        (fun he => by simpa [Ending, hpc] using he) (by simp)
  | clear =>
      obtain rfl := Option.some.inj hr
      exact h.commit (mute_reply (kept_leaving hpc (by rw [roomOf, hpc]) (roomOf_finish rfl rfl) rfl
        (batchOf_finish ending) rfl rfl rfl (ending_finish hpc rfl) (finish_ne_joining ending)))

theorem Inv.act (h : Inv w) {a : Action} {rest : List Action}
    (hpc : (w.clients n).pc = .ready (a :: rest)) (hway : a = .permissionsChanged → w.free n) :
    Inv (w.commit n (handleAction w { w.clients n with pc := .ready rest } a)) := by
  by_cases ha : a = .permissionsChanged ∧ (w.clients n).group ≠ none
  · obtain ⟨rfl, hgroup⟩ := ha
    obtain ⟨g, hgroup⟩ := Option.ne_none_iff_exists'.mp hgroup
    have hquiet : Quiet (.joined "change") := ⟨by simp, by simp⟩
    have hroom : roomOf (w.clients n) = some g := (roomOf_ready hpc).trans hgroup
    have hr : handleAction w { w.clients n with pc := .ready rest } .permissionsChanged =
        { w.reply ({ w.clients n with pc := .ready rest }.write (.joined "change")) with
          pushes := [{ calls := tell (w.clients n) (w.rooms g) }] } := by
      simp only [handleAction, hgroup]
      rfl
    rw [hr]
    refine h.announce hgroup (hway rfl) hroom (not_ending_ready hpc) rfl rfl hgroup ?_
      (by simp [Client.write])
    have hwrite : Kept (fun g => (w.rooms g).name) { w.clients n with pc := .ready rest }
        ({ w.clients n with pc := .ready rest }.write (.joined "change")) := kept_write hquiet
    rw [hwrite.table g hgroup (by simp [Ending, Client.write]), tableOf, tableOf,
      queueOf_ready hpc, List.cons_append, List.filterMap_cons_none rfl]
    rfl
  · exact h.commit (mute_handleAction hpc fun heq => by_contra fun hne => ha ⟨heq, hne⟩)

theorem inv_step {a : Label} (h : Inv w) (hok : Orderly w a) (hstep : step w a = some w') :
    Inv w' := by
  have hmessage {n : ℕ} {r : Reply} (hr : (w.clients n).pc = .ready [] → Mute w n r)
      (hstep : w.message n r = some w') : Inv w' := by
    simp only [World.message, Option.ite_none_right_eq_some, Option.some.injEq] at hstep
    obtain ⟨hpc, rfl⟩ := hstep
    exact h.commit (hr hpc)
  cases a with
  | aside g s =>
      obtain rfl := Option.some.inj hstep
      have haside := aside_run s w.view (w.rooms g)
      refine h.kept (rooms_update haside.clients haside.name)
        (fun k => kept_append _ (calm_callsFor haside.calls k))
        (coming_append (fun p hp q hq => (haside.pushes p hp q hq).1) rfl) fun p hp q hq => ?_
      rcases List.mem_append.mp hp with hp | hp
      · exact h.plain p hp q hq
      · exact (haside.pushes p hp q hq).2
  | join n banned found token data =>
    exact hmessage (fun hpc => mute_reply (kept_join hpc ..)) hstep
  | lock n now permission =>
      simp only [step] at hstep
      split at hstep
      next g token hpc =>
        obtain rfl := Option.some.inj hstep
        by_cases herror : (addClient w.view (w.rooms g) n token permission now).error = none
        · simp only [Orderly, World.orderly, hpc, herror, ne_eq, not_true_eq_false, decide_false,
            Bool.false_or, Bool.and_eq_true, decide_eq_true_eq, Bool.not_eq_true'] at hok
          obtain ⟨⟨hkey, hway⟩, hstale⟩ := hok
          exact (admitted_lockGroup hpc herror).inv h hpc hkey hway hstale
        · exact h.commit (mute_refused hpc (h.apart n g token hpc) herror)
      next => cases hstep
  | settle n =>
      simp only [step] at hstep
      split at hstep
      next g hpc =>
        obtain rfl := Option.some.inj hstep
        simp only [Orderly, World.orderly, hpc, decide_eq_true_eq] at hok
        exact h.commit (mute_reply (kept_settle hpc hok))
      next => cases hstep
  | leave n name => exact hmessage (fun hpc => mute_reply (kept_leave hpc name)) hstep
  | leaveGroup n now =>
      simp only [step] at hstep
      split at hstep
      next stage ending hpc =>
        obtain ⟨r, hr, rfl⟩ := Option.map_eq_some_iff.mp hstep
        refine h.leaveGroup hpc (fun hstage => ?_) hr
        subst hstage
        simpa only [Orderly, World.orderly, hpc] using hok
      next => cases hstep
  | useraction n kind dest => exact hmessage (fun hpc => mute_useraction hpc ..) hstep
  | kick n source username dest message => exact hmessage (fun hpc => mute_kick hpc ..) hstep
  | setdata n changes dest =>
      exact hmessage (fun hpc => mute_reply (kept_setdata hpc changes dest)) hstep
  | tell n =>
      simp only [step, Option.ite_none_right_eq_some] at hstep
      obtain ⟨hpc, hstep⟩ := hstep
      obtain ⟨g, hgroup, rfl⟩ := Option.map_eq_some_iff.mp hstep
      refine h.announce hgroup hok (by rw [roomOf, hpc, hgroup]) (by simp [Ending, hpc]) rfl rfl
        hgroup ?_ (by simp)
      rw [tableOf, tableOf, queueOf, queueOf, hpc]
      rfl
  | push i => exact h.push hstep
  | take n =>
      simp only [step, Option.ite_none_left_eq_some] at hstep
      exact hmessage (fun hpc => mute_reply (kept_take hpc)) hstep.2
  | act n =>
      simp only [step] at hstep
      split at hstep
      next a rest hpc =>
        obtain rfl := Option.some.inj hstep
        refine h.act hpc fun ha => ?_
        subst ha
        simpa only [Orderly, World.orderly, hpc] using hok
      next => cases hstep
  | fail n =>
      simp only [step] at hstep
      split at hstep
      next batch hpc =>
        obtain rfl := Option.some.inj hstep
        exact h.commit (mute_reply (kept_fail hpc))
      next => cases hstep
  | receive n =>
      simp only [step] at hstep
      split at hstep
      next => cases hstep
      next m rest hwire =>
        obtain rfl := Option.some.inj hstep
        exact h.commit (mute_reply (kept_receive hwire))

theorem inv_initial (h : Initial w) : Inv w := by
  obtain ⟨hrooms, hclients, hpushes⟩ := h
  have hroom (n : ℕ) : roomOf (w.clients n) = none := by rw [hclients n]; rfl
  refine ⟨fun g id n => ?_, fun n g token _ => ?_, fun n _ _ => ?_, fun n g hn => ?_,
    fun n g hn => ?_, ?_⟩
  · rw [hrooms g, hroom]
    exact ⟨fun hlookup => absurd hlookup (by simp), fun hboth => absurd hboth.2 (by simp)⟩
  · rw [hclients n]
  · rw [hclients n]
    exact .inr rfl
  · exact absurd ((hroom n).symm.trans hn) (by simp)
  · exact absurd ((hroom n).symm.trans hn) (by simp)
  · rw [hpushes]
    exact List.forall_mem_nil _

theorem inv_of_reachable (h : Reachable system Orderly w) : Inv w :=
  h.invariant (P := Inv) (fun _ hinit => inv_initial hinit)
    fun _ _ _ hinv hok hstep => inv_step hinv hok hstep

/-- In a run whose steps are all orderly, when everything queued for the members
of a group has arrived, each member's table holds the members, as they are, and
nobody else. -/
theorem converged_of_reachable (h : Reachable system Orderly w) (hsettled : Settled w g) :
    Converged w g := by
  have hinv := inv_of_reachable h
  obtain ⟨hpushes, hidle⟩ := hsettled
  intro n hn id
  obtain ⟨hpc, hactions, hwire⟩ := hidle n hn
  have htable (name : String) : tableOf (w.clients n) name = (w.clients n).users := by
    rw [tableOf, queueOf_ready hpc, hactions, hwire]
    rfl
  have hnone (name kind : String) (u : User) : ¬ Coming w n name kind id u := by
    rintro ⟨p, hp, -⟩
    rw [hpushes] at hp
    exact absurd hp List.not_mem_nil
  have htold := hinv.told n g (hinv.mem_members.mp hn) (not_ending_ready hpc) id
  rw [World.member]
  cases hlookup : (w.rooms g).clients.lookup id with
  | none =>
      obtain ⟨-, hown | ⟨kind, u, hcome⟩⟩ := htold.absent hlookup
      · rwa [htable] at hown
      · exact absurd hcome (hnone _ kind u)
  | some k =>
      obtain ⟨-, -, howes | hown | ⟨kind, u, hcome⟩⟩ := htold.present k hlookup
      · obtain ⟨hpc', hactions', -⟩ := hidle k (Group.mem_members.mpr ⟨id, hlookup⟩)
        rcases howes with htelling | hending | hchanged
        · exact absurd (hpc'.symm.trans htelling) (by simp)
        · exact absurd hending (not_ending_ready hpc')
        · rw [queueOf_ready hpc', hactions'] at hchanged
          exact absurd hchanged List.not_mem_nil
      · rwa [htable] at hown
      · exact absurd hcome (hnone _ kind u)

end Steps

section Runs

instance (w : World) (g : ℕ) : Decidable (Settled w g) := inferInstanceAs (Decidable (_ ∧ _))

instance (w : World) (a : Label) : Decidable (Always w a) := inferInstanceAs (Decidable True)

def hall : World where
  rooms g := { name := if g = 0 then "hall" else "yard" }
  clients n := { id := if n = 0 then "alice" else if n = 1 then "bob" else "carol" }

theorem hall_initial : Initial hall := ⟨fun _ => rfl, fun _ => rfl, rfl⟩

/-- A client joins the hall. -/
def enter (n : ℕ) (username : String) (permissions : Permissions) : List Label :=
  [.join n false (some 0) "" [], .lock n 0 (.ok (username, permissions)), .settle n]

/-- The client handles a batch. -/
def handle (n size : ℕ) : List Label := .take n :: List.replicate size (.act n)

/-- Alice lets Bob present, who also raises his hand, and Carol comes and goes. -/
def visit : List Label :=
  enter 0 "Alice" ["op"] ++ enter 1 "Bob" [] ++
    [.useraction 0 "present" "bob", .push 0, .push 0, .setdata 1 [("raisehand", some "1")] "bob",
      .tell 1, .push 0, .push 0, .push 0] ++ handle 1 5 ++ handle 1 1 ++
    [.push 0, .push 0, .push 0] ++ enter 2 "Carol" [] ++
    [.leave 2 "hall", .leaveGroup 2 0, .push 0, .push 0, .push 0, .leaveGroup 2 0,
      .leaveGroup 2 0] ++ handle 0 7 ++ handle 1 3 ++ List.replicate 7 (.receive 0) ++
    List.replicate 8 (.receive 1)

theorem converged_visit : ∃ w, Reachable system Orderly w ∧ Settled w 0 ∧ Converged w 0 ∧
    (w.clients 0).users.own "bob" = some ⟨"Bob", ["present"], [("raisehand", "1")]⟩ := by
  obtain ⟨w, hw, hsettled, hbob⟩ : ∃ w ∈ system.exec Orderly hall visit, Settled w 0 ∧
      (w.clients 0).users.own "bob" = some ⟨"Bob", ["present"], [("raisehand", "1")]⟩ := by
    decide +kernel
  have hreach : Reachable system Orderly w := .exec (.init hall_initial) hw
  exact ⟨w, hreach, hsettled, converged_of_reachable hreach hsettled, hbob⟩

/-- Alice is given the right to present and raises her hand, and hears of it in
the other order. -/
def overtaken : List Label :=
  enter 0 "Alice" ["op"] ++ [.useraction 0 "present" "alice", .push 0, .push 0] ++ handle 0 3 ++
    handle 0 1 ++
    [.setdata 0 [("raisehand", some "1")] "alice", .tell 0, .push 1, .push 1, .push 0, .push 0] ++
    handle 0 2 ++ List.replicate 5 (.receive 0)

theorem not_converged :
    ¬ ∀ w g, Reachable system Always w → Settled w g → Converged w g := by
  intro h
  obtain ⟨w, hw, hsettled, hmember, hdiffers⟩ : ∃ w ∈ system.exec Always hall overtaken,
      Settled w 0 ∧ 0 ∈ (w.rooms 0).members ∧
        (w.clients 0).users.own "alice" ≠ w.member 0 "alice" := by decide +kernel
  exact hdiffers (h w 0 (.exec (.init hall_initial) hw) hsettled 0 hmember "alice")

end Runs

end Sozvon.Roster
