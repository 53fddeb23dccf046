import Mathlib.Data.List.TakeWhile
import Sozvon.UserEvents

/-!
# Tables of users

What a browser's table will hold once all that is queued for it has been written
and has arrived, and the steps of a client that leave it as it is.
-/
namespace Sozvon.Roster
open Groups UserEvents

section Tables

variable {t : Users} {m : Message} {ms : List Message} {id i kind : String} {u : User}

/-- The table takes no notice of the message. -/
def Quiet : Message → Prop
  | .joined kind => kind ≠ "leave" ∧ kind ≠ "fail"
  | .user kind _ _ => kind ≠ "add" ∧ kind ≠ "change" ∧ kind ≠ "delete"

def fold (t : Users) (ms : List Message) : Users := ms.foldl gotMessage t

theorem fold_append (t : Users) (ms ms' : List Message) :
    fold t (ms ++ ms') = fold (fold t ms) ms' := List.foldl_append

theorem gotMessage_quiet (h : Quiet m) (t : Users) : gotMessage t m = t := by
  cases m with
  | joined kind => exact if_neg (not_or.mpr h)
  | user kind id u => rw [gotMessage, if_neg h.1, if_neg h.2.1, if_neg h.2.2]

theorem fold_quiet (h : ∀ m ∈ ms, Quiet m) (t : Users) : fold t ms = t := by
  induction ms generalizing t with
  | nil => rfl
  | cons m ms ih =>
      rw [fold, List.foldl_cons, gotMessage_quiet (h m (List.mem_cons_self ..))]
      exact ih (fun m' hm' => h m' (List.mem_cons_of_mem _ hm')) t

theorem own_assign (h : id ≠ "__proto__") :
    (t.assign id u).own = Function.update t.own id (some u) := by
  rw [Users.assign, if_neg h]

theorem own_add (h : id ≠ "__proto__") :
    (gotMessage t (.user "add" id u)).own = Function.update t.own id (some u) := own_assign h

/-- A change of a user who is in the table. -/
theorem own_change (h : (t.own id).isSome) :
    (gotMessage t (.user "change" id u)).own = Function.update t.own id (some u) := by
  have hhas : t.has id = true := by simp [Users.has, h]
  simp only [gotMessage, Users.amend, hhas, h, if_true]
  rfl

theorem own_delete : (gotMessage t (.user "delete" id u)).own = Function.update t.own id none := rfl

/-- A message about a user leaves the others alone. -/
theorem own_of_ne (h : i ≠ id) (kind : String) :
    (gotMessage t (.user kind id u)).own i = t.own i := by
  have hupdate (v : Option User) : Function.update t.own id v i = t.own i :=
    Function.update_of_ne h ..
  have hassign : (t.assign id u).own i = t.own i := by
    rw [Users.assign]
    split_ifs
    · rfl
    · exact hupdate _
  have hamend : (t.amend id u).own i = t.own i := by
    rw [Users.amend]
    split_ifs
    · exact hupdate _
    · rfl
    · rfl
  rw [gotMessage]
  split_ifs
  · exact hassign
  · exact hamend
  · exact hassign
  · exact hupdate _
  · rfl

theorem own_clear (h : kind = "leave" ∨ kind = "fail") :
    (gotMessage t (.joined kind)).own = fun _ => none := by
  rw [gotMessage, if_pos h]
  rfl

theorem own_cleared (h : kind = "leave" ∨ kind = "fail") (t : Users) (ms : List Message) :
    (fold t (ms ++ [.joined kind])).own = fun _ => none := by
  rw [fold_append]
  exact own_clear h

/-- Additions that all say the same of a user. -/
theorem own_adds {f : String → Option User}
    (h : ∀ m ∈ ms, Quiet m ∨ ∃ id u, m = .user "add" id u ∧ id ≠ "__proto__" ∧ f id = some u)
    (t : Users) (i : String) :
    ((∃ u, .user "add" i u ∈ ms) → (fold t ms).own i = f i) ∧
      ((∀ u, .user "add" i u ∉ ms) → (fold t ms).own i = t.own i) := by
  induction ms generalizing t with
  | nil => exact ⟨fun ⟨_, hu⟩ => absurd hu List.not_mem_nil, fun _ => rfl⟩
  | cons m ms ih =>
      have hrest := ih fun m' hm' => h m' (List.mem_cons_of_mem _ hm')
      rw [fold, List.foldl_cons]
      rcases h m (List.mem_cons_self ..) with hquiet | ⟨id, u, rfl, hid, hu⟩
      · rw [gotMessage_quiet hquiet]
        have hne (u : User) : Message.user "add" i u ≠ m := by
          rintro rfl
          exact hquiet.1 rfl
        simp only [List.mem_cons, hne, false_or]
        exact hrest t
      · obtain ⟨hmem, hnot⟩ := hrest (gotMessage t (.user "add" id u))
        by_cases hi : i = id
        · subst hi
          refine ⟨fun _ => ?_, fun hall => absurd (List.mem_cons_self ..) (hall u)⟩
          by_cases hlater : ∃ u, Message.user "add" i u ∈ ms
          · exact hmem hlater
          · exact (hnot (not_exists.mp hlater)).trans
              (by rw [own_add hid, Function.update_self, hu])
        · have hne (v : User) : Message.user "add" i v ≠ .user "add" id u := by
            intro heq
            injection heq with _ hid'
            exact hi hid'
          simp only [List.mem_cons, hne, false_or]
          exact ⟨hmem, fun hall => (hnot hall).trans (own_of_ne hi _)⟩

end Tables

section Clients

variable {c c' : Client} {name : String}

def batchOf : Pc → List Action
  | .ready batch => batch
  | _ => []

/-- What the client's loop has yet to handle. -/
def queueOf (c : Client) : List Action := batchOf c.pc ++ c.actions

/-- What a member of the group writes when it handles the action. -/
def messageOf (name : String) : Action → Option Message
  | .call (.pushClient group kind id username permissions data) =>
      if group = name then some (.user kind id ⟨username, permissions, data⟩) else none
  | .call (.joined _ kind) => some (.joined kind)
  | _ => none

/-- The table when all that is queued has been handled and has arrived. -/
def tableOf (c : Client) (name : String) : Users :=
  fold c.users (c.wire ++ (queueOf c).filterMap (messageOf name))

/-- The group that counts the client as a member. -/
def roomOf (c : Client) : Option ℕ :=
  match c.pc with
  | .joined g => some g
  | .leaving .deletes _ | .leaving .lock _ | .leaving .clear _ => none
  | _ => c.group

def Ending (c : Client) : Prop :=
  match c.pc with
  | .leaving _ ending => ending = true
  | .ended => True
  | _ => False

/-- The client has changed and not told its group yet, or never will. -/
def Owes (c : Client) : Prop := c.pc = .telling ∨ Ending c ∨ .permissionsChanged ∈ queueOf c

/-- Nothing of an earlier stay remains in the table, or will once the client has
heard that it left. -/
def Cleared (c : Client) : Prop :=
  (∃ a ∈ queueOf c, a.clears) ∨ (fold c.users c.wire).own = fun _ => none

theorem table_append (c : Client) (name : String) (as : List Action) :
    tableOf { c with actions := c.actions ++ as } name =
      fold (tableOf c name) (as.filterMap (messageOf name)) := by
  simp only [tableOf, queueOf, ← fold_append, List.filterMap_append, List.append_assoc]

/-- The table takes no notice of the action. -/
def Calm (a : Action) : Prop := ∀ name, ∀ m ∈ messageOf name a, Quiet m

theorem fold_calm {as : List Action} (h : ∀ a ∈ as, Calm a) (t : Users) (name : String) :
    fold t (as.filterMap (messageOf name)) = t := by
  refine fold_quiet (fun m hm => ?_) t
  obtain ⟨a, ha, hm⟩ := List.mem_filterMap.mp hm
  exact h a ha name m hm

/-- What a step that says nothing about a client keeps of it. -/
structure Kept (names : ℕ → String) (c c' : Client) : Prop where
  id : c'.id = c.id
  present : roomOf c' = roomOf c
  user : roomOf c ≠ none → Owes c' ∨ c'.user = c.user
  owes : roomOf c ≠ none → Owes c → Owes c'
  ending : Ending c → Ending c'
  table : ∀ g, roomOf c = some g → ¬ Ending c' → tableOf c' (names g) = tableOf c (names g)
  cleared : roomOf c = none → ¬ Ending c' → Cleared c → Cleared c'
  apart : (∀ g token, c.pc = .joining g token → c.group = none) →
    ∀ g token, c'.pc = .joining g token → c'.group = none

theorem Kept.refl (names : ℕ → String) (c : Client) : Kept names c c :=
  ⟨rfl, rfl, fun _ => .inr rfl, fun _ h => h, fun h => h, fun _ _ _ => rfl,
    fun _ _ h => h, fun h => h⟩

theorem Kept.trans {names : ℕ → String} {c₁ c₂ c₃ : Client} (h : Kept names c₁ c₂)
    (h' : Kept names c₂ c₃) : Kept names c₁ c₃ where
  id := h'.id.trans h.id
  present := h'.present.trans h.present
  user hp := by
    have hp' : roomOf c₂ ≠ none := fun heq => hp (h.present.symm.trans heq)
    rcases h'.user hp' with hoes | hsame
    · exact .inl hoes
    · exact (h.user hp).imp (h'.owes hp') hsame.trans
  owes hp := h'.owes (fun heq => hp (h.present.symm.trans heq)) ∘ h.owes hp
  ending := h'.ending ∘ h.ending
  table g hg hlive :=
    (h'.table g (h.present.trans hg) hlive).trans (h.table g hg fun he => hlive (h'.ending he))
  cleared hp hlive :=
    h'.cleared (h.present.trans hp) hlive ∘ h.cleared hp fun he => hlive (h'.ending he)
  apart := h'.apart ∘ h.apart

theorem queueOf_append (as : List Action) :
    queueOf { c with actions := c.actions ++ as } = queueOf c ++ as :=
  (List.append_assoc ..).symm

theorem Owes.append (h : Owes c) (as : List Action) :
    Owes { c with actions := c.actions ++ as } := by
  refine h.imp_right (Or.imp_right fun hmem => ?_)
  rw [queueOf_append]
  exact List.mem_append_left _ hmem

theorem Cleared.append (h : Cleared c) (as : List Action) :
    Cleared { c with actions := c.actions ++ as } := by
  refine h.imp_left fun ⟨a, ha, hclears⟩ => ⟨a, ?_, hclears⟩
  rw [queueOf_append]
  exact List.mem_append_left _ ha

/-- Actions that the table takes no notice of are queued. -/
theorem kept_append (names : ℕ → String) {as : List Action} (h : ∀ a ∈ as, Calm a) :
    Kept names c { c with actions := c.actions ++ as } where
  id := rfl
  present := rfl
  user _ := .inr rfl
  owes _ ho := ho.append as
  ending := id
  table _ _ _ := (table_append c _ as).trans (fold_calm h _ _)
  cleared _ _ hc := hc.append as
  apart := id

end Clients

section Steps

variable {names : ℕ → String} {c c' : Client} {a : Action} {rest : List Action} {m : Message}

/-- The client moves on, with the same queue and the same table. -/
theorem kept_move (hid : c'.id = c.id) (hroom : roomOf c' = roomOf c)
    (huser : roomOf c ≠ none → Owes c' ∨ c'.user = c.user)
    (htelling : c.pc = .telling → Owes c') (hending : Ending c → Ending c')
    (hqueue : queueOf c' = queueOf c) (hwire : c'.wire = c.wire) (husers : c'.users = c.users)
    (hapart : ∀ g token, c'.pc = .joining g token → c'.group = none) : Kept names c c' where
  id := hid
  present := hroom
  user := huser
  owes _ ho := by
    rcases ho with ho | ho | ho
    · exact htelling ho
    · exact .inr (.inl (hending ho))
    · exact .inr (.inr (hqueue ▸ ho))
  ending := hending
  table g _ _ := by rw [tableOf, tableOf, hqueue, hwire, husers]
  cleared _ _ hc := by rwa [Cleared, hqueue, hwire, husers]
  apart _ := hapart

theorem kept_fail {batch : List Action} (hpc : c.pc = .ready batch) : Kept names c c.fail where
  id := rfl
  present := by simp only [roomOf, Client.fail, hpc]
  user _ := .inr rfl
  owes _ _ := .inr (.inl rfl)
  ending _ := rfl
  table _ _ hlive := absurd rfl hlive
  cleared _ hlive _ := absurd rfl hlive
  apart _ _ _ heq := absurd heq (by simp [Client.fail])

theorem queueOf_ready {batch : List Action} (hpc : c.pc = .ready batch) :
    queueOf c = batch ++ c.actions := by
  simp only [queueOf, hpc, batchOf]

theorem not_ending_ready {batch : List Action} (hpc : c.pc = .ready batch) : ¬ Ending c := by
  simp only [Ending, hpc, not_false_iff]

theorem roomOf_ready {batch : List Action} (hpc : c.pc = .ready batch) : roomOf c = c.group := by
  simp only [roomOf, hpc]

/-- A message that clears or leaves the table of a client outside all groups. -/
theorem cleared_write (hm : Quiet m ∨ ∃ kind, m = .joined kind ∧ (kind = "leave" ∨ kind = "fail"))
    (hc : Cleared c) : Cleared (c.write m) := by
  rcases hm with hm | ⟨kind, rfl, hkind⟩
  · refine hc.imp_right fun hown => ?_
    change (fold c.users (c.wire ++ [m])).own = _
    rw [fold_append, ← hown]
    exact congrArg Users.own (gotMessage_quiet hm _)
  · exact .inr (own_cleared hkind _ _)

theorem kept_write (hm : Quiet m) : Kept names c (c.write m) where
  id := rfl
  present := rfl
  user _ := .inr rfl
  owes _ ho := ho
  ending he := he
  table g _ _ := by
    change fold c.users (c.wire ++ [m] ++ (queueOf c).filterMap (messageOf (names g))) = _
    rw [tableOf, fold_append, fold_append _ c.wire [m], fold_append _ c.wire]
    congr 1
    exact gotMessage_quiet hm _
  cleared _ _ hc := cleared_write (.inl hm) hc
  apart h := h

theorem Owes.drop (ho : Owes c) (hpc : c.pc = .ready (a :: rest)) (ha : a ≠ .permissionsChanged) :
    Owes { c with pc := .ready rest } := by
  refine .inr (.inr ?_)
  rcases ho with ho | ho | ho
  · exact absurd (hpc.symm.trans ho) (by simp)
  · exact absurd ho (not_ending_ready hpc)
  · rw [queueOf_ready hpc, List.cons_append, List.mem_cons] at ho
    exact ho.resolve_left ha.symm

theorem Cleared.drop (hc : Cleared c) (hpc : c.pc = .ready (a :: rest)) (ha : a.clears = false) :
    Cleared { c with pc := .ready rest } := by
  refine hc.imp_left fun ⟨b, hb, hclears⟩ => ⟨b, ?_, hclears⟩
  rw [queueOf_ready hpc, List.cons_append, List.mem_cons] at hb
  refine hb.resolve_left ?_
  rintro rfl
  rw [ha] at hclears
  exact absurd hclears Bool.false_ne_true

/-- An action that the client takes off its batch. -/
theorem kept_drop (hpc : c.pc = .ready (a :: rest)) (ha : a ≠ .permissionsChanged)
    (hmember : ∀ g, c.group = some g → messageOf (names g) a = none)
    (houtside : c.group = none → a.clears = false) :
    Kept names c { c with pc := .ready rest } where
  id := rfl
  present := (roomOf_ready hpc).symm ▸ rfl
  user _ := .inr rfl
  owes _ ho := ho.drop hpc ha
  ending he := absurd he (not_ending_ready hpc)
  table g hg _ := by
    rw [roomOf_ready hpc] at hg
    rw [tableOf, tableOf, queueOf_ready hpc, List.cons_append,
      List.filterMap_cons_none (hmember g hg)]
    rfl
  cleared hroom _ hc := hc.drop hpc (houtside ((roomOf_ready hpc).symm.trans hroom))
  apart _ _ _ heq := absurd heq (by simp)

/-- An action that the client takes off its batch and writes. -/
theorem kept_written (hpc : c.pc = .ready (a :: rest)) (ha : a ≠ .permissionsChanged)
    (hmember : ∀ g, c.group = some g → messageOf (names g) a = some m)
    (houtside : c.group = none →
      (Quiet m ∧ a.clears = false) ∨ ∃ kind, m = .joined kind ∧ (kind = "leave" ∨ kind = "fail")) :
    Kept names c ({ c with pc := .ready rest }.write m) where
  id := rfl
  present := (roomOf_ready hpc).symm ▸ rfl
  user _ := .inr rfl
  owes _ ho := ho.drop hpc ha
  ending he := absurd he (not_ending_ready hpc)
  table g hg _ := by
    rw [roomOf_ready hpc] at hg
    rw [tableOf, tableOf, queueOf_ready hpc, List.cons_append,
      List.filterMap_cons_some (hmember g hg)]
    change fold c.users (c.wire ++ [m] ++ (rest ++ c.actions).filterMap _) = _
    rw [List.append_assoc, List.singleton_append]
  cleared hroom _ hc := by
    rcases houtside ((roomOf_ready hpc).symm.trans hroom) with ⟨hm, ha⟩ | ⟨kind, rfl, hkind⟩
    · exact cleared_write (.inl hm) (hc.drop hpc ha)
    · exact .inr (own_cleared hkind _ _)
  apart _ _ _ heq := absurd heq (by simp [Client.write])

/-- A handler of a message that leaves the table alone. -/
theorem kept_turn (hpc : c.pc = .ready []) (hid : c'.id = c.id) (hroom : roomOf c' = c.group)
    (huser : Owes c' ∨ c'.user = c.user) (hqueue : queueOf c' = c.actions)
    (hwire : c'.wire = c.wire) (husers : c'.users = c.users)
    (hapart : ∀ g token, c'.pc ≠ .joining g token) : Kept names c c' :=
  kept_move hid (hroom.trans (roomOf_ready hpc).symm) (fun _ => huser)
    (fun heq => absurd (hpc.symm.trans heq) (by simp)) (fun he => absurd he (not_ending_ready hpc))
    (hqueue.trans (queueOf_ready hpc).symm) hwire husers
    fun g token heq => absurd heq (hapart g token)

/-- A client outside all groups goes on outside them. -/
theorem kept_outside (hid : c'.id = c.id) (hroom : roomOf c = none) (hroom' : roomOf c' = none)
    (hending : Ending c → Ending c') (hcleared : ¬ Ending c' → Cleared c → Cleared c')
    (hapart : ∀ g token, c'.pc = .joining g token → c'.group = none) : Kept names c c' where
  id := hid
  present := hroom'.trans hroom.symm
  user hp := absurd hroom hp
  owes hp := absurd hroom hp
  ending := hending
  table g hg := absurd (hroom.symm.trans hg) (by simp)
  cleared _ := hcleared
  apart _ := hapart

theorem Cleared.congr (hc : Cleared c) (hqueue : queueOf c' = queueOf c) (hwire : c'.wire = c.wire)
    (husers : c'.users = c.users) : Cleared c' := by
  rwa [Cleared, hqueue, hwire, husers]

end Steps

section Handlers

variable {w : World} {c : Client}

theorem kept_join {names : ℕ → String} (hpc : c.pc = .ready []) (banned : Bool) (found : Option ℕ)
    (token : String) (data : Data) : Kept names c (join c banned found token data) := by
  have hroom := roomOf_ready hpc
  unfold UserEvents.join
  split_ifs with hgroup hbanned
  · exact kept_fail hpc
  · simp only [Bool.not_eq_true, Option.isSome_eq_false_iff, Option.isNone_iff_eq_none] at hgroup
    have hnone := hroom.trans hgroup
    exact kept_outside rfl hnone hnone (fun he => he)
      (fun _ hc => cleared_write (.inr ⟨_, rfl, .inr rfl⟩) hc) fun _ _ _ => hgroup
  · simp only [Bool.not_eq_true, Option.isSome_eq_false_iff, Option.isNone_iff_eq_none] at hgroup
    have hnone := hroom.trans hgroup
    cases found with
    | none =>
        exact kept_outside rfl hnone hnone (fun he => he)
          (fun _ hc => cleared_write (c := { c with data }) (.inr ⟨_, rfl, .inr rfl⟩) hc)
          fun _ _ _ => hgroup
    | some g =>
        refine kept_outside rfl hnone hgroup (fun he => absurd he (not_ending_ready hpc))
          (fun _ hc => hc.congr ?_ rfl rfl) fun _ _ _ => hgroup
        exact (queueOf_ready hpc).symm

theorem kept_leave {names : ℕ → String} (hpc : c.pc = .ready []) (name : String) :
    Kept names c (leave w c name) := by
  rw [UserEvents.leave]
  split
  · exact kept_fail hpc
  next g hgroup =>
    split_ifs
    · exact kept_fail hpc
    · exact kept_turn hpc rfl rfl (.inr rfl) rfl rfl rfl (by simp)

theorem kept_setdata {names : ℕ → String} (hpc : c.pc = .ready [])
    (changes : List (String × Option String)) (dest : String) :
    Kept names c (setdata c changes dest) := by
  rw [setdata]
  split_ifs
  · exact .refl ..
  · exact kept_turn hpc rfl rfl (.inl (.inl rfl)) rfl rfl rfl (by simp)

theorem kept_take {names : ℕ → String} (hpc : c.pc = .ready []) :
    Kept names c { c with pc := .ready c.actions, actions := [] } := by
  refine kept_move rfl (roomOf_ready hpc).symm (fun _ => .inr rfl) (by simp [hpc])
    (fun he => absurd he (not_ending_ready hpc)) ?_ rfl rfl (by simp)
  rw [queueOf_ready hpc]
  exact List.append_nil _

theorem kept_receive {names : ℕ → String} {m : Message} {rest : List Message}
    (hwire : c.wire = m :: rest) :
    Kept names c { c with wire := rest, users := gotMessage c.users m } where
  id := rfl
  present := rfl
  user _ := .inr rfl
  owes _ ho := ho
  ending he := he
  table g _ _ := by
    rw [tableOf, tableOf, hwire]
    rfl
  cleared _ _ hc := by
    refine hc.imp_right fun hown => ?_
    rw [hwire] at hown
    exact hown
  apart h := h

theorem kept_resume {names : ℕ → String} : Kept names c c.resume := by
  rw [Client.resume]
  split
  next hpc =>
    refine kept_move rfl (by simp [roomOf, hpc]) (fun _ => .inr rfl) (by simp [hpc])
      (by simp [Ending, hpc]) (by simp [queueOf, batchOf, hpc]) rfl rfl (by simp)
  next ending hpc =>
    refine kept_move rfl (by simp [roomOf, hpc]) (fun _ => .inr rfl) (by simp [hpc])
      (by simp [Ending, hpc]) (by simp [queueOf, batchOf, hpc]) rfl rfl (by simp)
  · exact .refl ..

theorem kept_settle {names : ℕ → String} {g : ℕ} (hpc : c.pc = .joined g)
    (hredirect : (w.rooms g).description.redirect = "") : Kept names c (settle w c g) := by
  rw [settle, if_neg (not_not_intro hredirect)]
  exact kept_move rfl (by simp [roomOf, hpc]) (fun _ => .inr rfl) (by simp [hpc])
    (by simp [Ending, hpc]) (by simp [queueOf, batchOf, hpc]) rfl rfl (by simp)

/-- New permissions, which the client will tell its group. -/
theorem kept_permissions {names : ℕ → String} (permissions : Permissions) {batch : List Action}
    (hpc : c.pc = .ready batch) :
    Kept names c
      { c with permissions, actions := c.actions ++ [.permissionsChanged] } where
  id := rfl
  present := rfl
  user _ := by
    refine .inl (.inr (.inr ?_))
    rw [queueOf_append (c := { c with permissions })]
    exact List.mem_append_right _ (List.mem_singleton_self _)
  owes _ ho := ho.append [.permissionsChanged]
  ending he := he
  table _ _ _ := (table_append c _ _).trans (fold_calm (by simp [Calm, messageOf]) _ _)
  cleared _ _ hc := hc.append [.permissionsChanged]
  apart _ _ _ heq := absurd (hpc.symm.trans heq) (by simp)

end Handlers

end Sozvon.Roster
