import Sozvon.StreamQueues

/-!
# Delivery

When clients do as they should and nothing is pending, a client is sent just what it has
asked for of every stream of its group. Two races make exceptions: a connection that is
pushed after a member has come is not pushed to that member if the push has been scheduled
before, and a connection that fails is given its old tracks after new ones that are still
in the queue.
-/
namespace Sozvon.Streams
open Runs

section Owing

variable {R R' S : Routes} {n m k r r' g h : ℕ} {id replace label : String} {a : Action}
  {order : List ℕ} {tracks : List RtpUpTrack}

theorem Net.Owed.kept (hk : Kept R S) (ho : S.Owed n g r) : R.Owed n g r := by
  obtain ⟨hlive, hmember, howner, hother⟩ := ho
  rw [hk.groups] at hmember
  rw [(hk.ups r).client, hk.groups] at howner
  rw [(hk.ups r).client] at hother
  exact ⟨hk.live hlive, hmember, howner, hother⟩

theorem Net.Owed.relinked (hk : Relinked R S) (ho : S.Owed n g r) : R.Owed n g r := by
  obtain ⟨hlive, hmember, howner, hother⟩ := ho
  rw [hk.groups] at hmember
  rw [(hk.ups r).2.2, hk.groups] at howner
  rw [(hk.ups r).2.2] at hother
  exact ⟨hk.live.mp hlive, hmember, howner, hother⟩

theorem leave_group (hm : (R.clients m).group = some h) :
    ((R.leave m order).clients m).group = none ∧
      ∀ k, k ≠ m → ((R.leave m order).clients k).group = (R.clients k).group := by
  have hkept : Kept R (R.delUpConns m order) := kept_delUpConns
  have hleave : R.leave m order = (R.delUpConns m order).exit m h := by
    unfold Net.leave
    rw [hm]
  rw [hleave]
  unfold Net.exit
  generalize hS : (((R.delUpConns m order).clients m).links.map (·.id)).foldl (fun R id => R.cut m id)
    (R.delUpConns m order) = S
  have hgroups (k : ℕ) : (S.clients k).group = (R.clients k).group := by
    have hsteady : Steady k (R.delUpConns m order) S := hS ▸ steady_cuts
    rw [hsteady.group, hkept.groups]
  have hclients (k : ℕ) : (S.modify m ({ · with group := none, requested := [] })).clients k =
      if k = m then { S.clients m with group := none, requested := [] } else S.clients k :=
    clients_modify S m ({ · with group := none, requested := [] }) k
  refine ⟨?_, fun k hk => ?_⟩
  · exact congrArg Party.group ((hclients m).trans (if_pos rfl))
  · exact (congrArg Party.group ((hclients k).trans (if_neg hk))).trans (hgroups k)

/-- To a client that leaves nothing is owed, and it owes nothing. -/
theorem Net.Owed.leave (hf : Founded R) (horder : order.Perm (R.getUpConns m))
    (ho : (R.leave m order).Owed n g r) :
    R.Owed n g r ∧ ((R.clients m).group ≠ none → n ≠ m ∧ (R.ups r).client ≠ m) := by
  cases hm : (R.clients m).group with
  | none =>
      have hleave : R.leave m order = R := by
        unfold Net.leave
        rw [hm]
      rw [hleave] at ho
      exact ⟨ho, fun h => absurd rfl h⟩
  | some h =>
      obtain ⟨hgone, hstay⟩ := @leave_group R m h order hm
      obtain ⟨hlive, hmember, howner, hother⟩ := ho
      have hkept : Kept R (R.delUpConns m order) := kept_delUpConns
      have hleave : R.leave m order = (R.delUpConns m order).exit m h := by
        unfold Net.leave
        rw [hm]
      have hups (k : ℕ) : ((R.leave m order).ups k).client = (R.ups k).client ∧
          ((R.leave m order).ups k).closed = ((R.delUpConns m order).ups k).closed ∧
          (R.leave m order).fresh = R.fresh := by
        rw [hleave]
        have hrelinked := ((hf.kept hkept).cuts m (((R.delUpConns m order).clients m).links.map (·.id))).2.1
        exact ⟨((hrelinked.ups k).2.2).trans (hkept.ups k).client, (hrelinked.ups k).2.1,
          hrelinked.fresh.trans hkept.fresh⟩
      have hn : n ≠ m := by
        rintro rfl
        rw [hgone] at hmember
        cases hmember
      have hm' : (R.ups r).client ≠ m := by
        intro heq
        rw [(hups r).1, heq, hgone] at howner
        cases howner
      rw [hstay n hn] at hmember
      rw [(hups r).1, hstay _ hm'] at howner
      rw [(hups r).1] at hother
      refine ⟨⟨⟨(hups r).2.2 ▸ hlive.1, (hkept.ups r).closed ?_⟩, hmember, howner, hother⟩, fun _ => ⟨hn, hm'⟩⟩
      rw [← (hups r).2.1]
      exact hlive.2

theorem pushes_take {rest : List Action} (hactions : (R.clients n).actions = a :: rest)
    (ha : a.pushed g r = some tracks) :
    (R.clients n).pushes g r = tracks :: ((R.take n).clients n).pushes g r := by
  have hself : (R.take n).clients n = { R.clients n with actions := (R.clients n).actions.tail } := by
    rw [Net.take, clients_modify, if_pos rfl]
  rw [hself]
  unfold Party.pushes
  dsimp only
  rw [hactions, List.filterMap_cons_some ha]
  rfl

/-- A push is dealt with by giving the client what it wants of it. -/
theorem Net.Served.handled {rest : List Action} (hs : R.Served n g r) (hother : n ≠ (R.ups r).client)
    (hactions : (R.clients n).actions = a :: rest) (ha : a.pushed g r = some tracks)
    (hnear : Near n g r (R.take n) S)
    (htracks : ((S.clients n).tracksOf (R.ups r).id).Perm (R.pick n r tracks)) : S.Served n g r := by
  have hups : (S.ups r).id = (R.ups r).id ∧ (S.ups r).client = (R.ups r).client ∧
      (S.ups r).label = (R.ups r).label ∧ (S.ups r).tracks = (R.ups r).tracks ∧
      (S.ups r).pushed = (R.ups r).pushed := hnear.up
  have hpick (ts : List RtpUpTrack) : S.pick n r ts = R.pick n r ts := by
    refine (hnear.pick ts).trans ?_
    unfold Net.pick
    rw [requestedOf_congr]
    · rfl
    · rw [Net.take, clients_modify, if_pos rfl]
  rcases hs with hask | ⟨hpushed, he⟩ | hperm
  · refine .inl ?_
    rw [hups.2.1]
    have hself : (R.take n).clients (R.ups r).client = R.clients (R.ups r).client := by
      rw [Net.take, clients_modify, if_neg hother.symm]
    refine hnear.asks ?_
    change _ ∈ ((R.take n).clients (R.ups r).client).actions
    rw [hself]
    exact hask
  · exact .inr (.inl ⟨hups.2.2.2.2.trans hpushed, hnear.delayed he⟩)
  · refine .inr (.inr ?_)
    rw [hpick, hups.2.2.2.1]
    unfold Net.heading at hperm ⊢
    rw [pushes_take hactions ha] at hperm
    rw [hnear.pushes]
    generalize ((R.take n).clients n).pushes g r = pushes at hperm ⊢
    cases hlast : pushes.getLast? with
    | none =>
        rw [List.getLast?_eq_none_iff.mp hlast] at hperm
        rw [hups.1]
        exact htracks.trans hperm
    | some last =>
        rw [List.getLast?_cons, hlast] at hperm
        dsimp only
        rw [hpick]
        exact hperm

/-- The last push is the one that counts. -/
theorem served_of_last (hlast : ((R.clients n).pushes g r).getLast? = some (R.ups r).tracks) :
    R.Served n g r := by
  refine .inr (.inr ?_)
  unfold Net.heading
  rw [hlast]

theorem getLast?_pushes_requestConns {target : ℕ} (hr : r ∈ order) (hid : id = "" ∨ id = (R.ups r).id) :
    (((R.requestConns target g id order).clients target).pushes g r).getLast? = some (R.ups r).tracks := by
  unfold Net.requestConns
  suffices hall : ∀ (l : List ℕ) (S : Routes), S.ups = R.ups →
      (r ∈ l ∨ ((S.clients target).pushes g r).getLast? = some (R.ups r).tracks) →
      (((l.foldl (fun w r => if id ≠ "" ∧ id ≠ (w.ups r).id then w
        else w.action [target] (.pushConn g (w.ups r).id (some r) (w.ups r).tracks (w.ups r).replace))
        S).clients target).pushes g r).getLast? = some (R.ups r).tracks from hall order R rfl (.inl hr)
  intro l
  induction l with
  | nil => exact fun S _ h => h.resolve_left List.not_mem_nil
  | cons r' l ih =>
      intro S hups h
      rw [List.foldl_cons]
      by_cases hskip : id ≠ "" ∧ id ≠ (S.ups r').id
      · rw [if_pos hskip]
        refine ih S hups (h.imp_left fun hmem => (List.mem_cons.mp hmem).resolve_left ?_)
        rintro rfl
        rw [hups] at hskip
        exact hid.elim hskip.1 hskip.2
      · rw [if_neg hskip]
        refine ih _ hups ?_
        rw [clients_action, if_pos (List.mem_singleton_self target), pushes_append]
        by_cases hrr : r' = r
        · subst hrr
          have hpushed : (Action.pushConn g (S.ups r').id (some r') (S.ups r').tracks
              (S.ups r').replace).pushed g r' = some (S.ups r').tracks := if_pos ⟨rfl, rfl⟩
          right
          rw [hpushed, hups]
          exact List.getLast?_concat
        · have hpushed : (Action.pushConn g (S.ups r').id (some r') (S.ups r').tracks
              (S.ups r').replace).pushed g r = none :=
            if_neg fun heq => hrr (Option.some.inj heq.2)
          rw [hpushed, Option.toList_none, List.append_nil]
          exact h.imp_left fun hmem => (List.mem_cons.mp hmem).resolve_left (Ne.symm hrr)

end Owing

section Steps

variable {unsent : String → Bool} {R S : Routes} {w : World} {n m k r g : ℕ} {id replace : String}
  {a : Action} {order : List ℕ} {l : Label} {rest : List Action} {rtc : Rtc}

theorem asked_eq_pick {conn : ℕ} {tracks : List RtpUpTrack} (hp : R.Plain unsent) :
    R.asked n (some conn) tracks replace = R.pick n conn tracks := by
  have hnone {i : String} : ((R.clients n).link i).bind (·.requested) = none := by
    cases hl : (R.clients n).link i with
    | none => rfl
    | some l => exact (hp.links n l (List.mem_of_find?_eq_some hl)).1
  unfold Net.asked Net.pick
  dsimp only
  rw [hnone]
  rfl

/-- A client that comes is owed nothing yet. -/
theorem served_enter (hf : Founded R) (hp : R.Plain unsent) (hm : (R.clients m).group = none)
    (hs : ∀ n g r, R.Owed n g r → R.Served n g r) (ho : (R.enter m k).Owed n g r) :
    (R.enter m k).Served n g r := by
  have hclients (i : ℕ) : (R.enter m k).clients i =
      if i = m then { R.clients m with group := some k } else R.clients i :=
    clients_modify R m ({ · with group := some k }) i
  by_cases hn : n = m
  · subst hn
    have hself : (R.enter n k).clients n = { R.clients n with group := some k } :=
      (hclients n).trans (if_pos rfl)
    have hpick (ts : List RtpUpTrack) : (R.enter n k).pick n r ts = [] := by
      unfold Net.pick Party.requestedOf
      rw [hself]
      dsimp only
      rw [hp.outside n hm]
      rfl
    refine .inr (.inr ?_)
    rw [hpick]
    unfold Net.heading
    cases (((R.enter n k).clients n).pushes g r).getLast? with
    | some tracks =>
        dsimp only
        rw [hpick]
    | none =>
        have hnil : (R.clients n).links = [] := List.map_eq_nil_iff.mp (hf.outside n hm)
        dsimp only
        rw [hself]
        unfold Party.tracksOf Party.link
        dsimp only
        rw [hnil]
        exact .refl _
  · have howner : (R.ups r).client ≠ m := fun heq => hf.live r ho.live (heq ▸ hm)
    have hback : R.Owed n g r := by
      obtain ⟨hlive, hmember, howner', hother⟩ := ho
      rw [hclients, if_neg hn] at hmember
      have howner'' : ((R.enter m k).clients (R.ups r).client).group = some g := howner'
      rw [hclients, if_neg howner] at howner''
      exact ⟨hlive, hmember, howner'', hother⟩
    have hcalm : Calm n g r R (R.modify m ({ · with group := some k })) :=
      calm_modify (fun h => absurd h hn) (fun h => absurd h hn) fun h => absurd h howner
    have hcalm' : Calm n g r R (R.enter m k) :=
      ⟨⟨hcalm.requested, hcalm.pushes, hcalm.asks, hcalm.up, hcalm.delayed⟩, hcalm.tracks⟩
    exact hcalm'.served (hs n g r hback)

/-- A client that asks for something else asks everybody else in its group. -/
theorem served_ask {requested : List (String × List String)} (hf : Founded R)
    (hm : (R.clients m).group = some k) (hs : ∀ n g r, R.Owed n g r → R.Served n g r)
    (ho : ((R.modify m ({ · with requested })).action (R.getClients k m) (.requestConns k m "")).Owed n g r) :
    ((R.modify m ({ · with requested })).action (R.getClients k m) (.requestConns k m "")).Served n g r := by
  have hkept : Kept R ((R.modify m ({ · with requested })).action (R.getClients k m)
      (.requestConns k m "")) :=
    (kept_modify rfl rfl fun _ ha => ha).trans
      (kept_action fun k hk => (mem_getClients.mp hk).2.symm)
  have hback := ho.kept hkept
  by_cases hn : n = m
  · subst hn
    have hkg : k = g := Option.some.inj (hm.symm.trans hback.member)
    subst hkg
    refine .inl (mem_actions_action ?_)
    exact mem_getClients.mpr ⟨(hf.member _ _).mpr hback.owner, hback.other.symm⟩
  · exact ((calm_modify (fun h => absurd h hn) (fun h => absurd h hn) fun _ h => h).trans
      (calm_action fun _ => rfl)).served (hs n g r hback)

/-- A new connection is pushed after a while. -/
theorem served_publish {label : String} (hg : (R.clients m).group = some k)
    (hs : ∀ n g r, R.Owed n g r → R.Served n g r)
    (ho : ((R.newUpConn m id label).supersede m R.fresh replace).Owed n g r) :
    ((R.newUpConn m id label).supersede m R.fresh replace).Served n g r := by
  obtain ⟨hclients, -, hfresh⟩ := @clients_newUpConn R m id label
  have hnew := ho.kept kept_supersede
  refine calm_supersede.served ?_
  by_cases hr : r = R.fresh
  · subst hr
    refine .inr (.inl ⟨?_, ⟨R.fresh, k, R.getClients k m⟩, ?_, rfl⟩)
    · rw [ups_newUpConn hg, if_pos rfl]
    · rw [delayed_newUpConn hg]
      exact List.mem_append_right _ (List.mem_singleton_self _)
  · have hups : (R.newUpConn m id label).ups r = R.ups r := by
      rw [ups_newUpConn hg, if_neg hr]
    have hback : R.Owed n g r := by
      obtain ⟨hlive, hmember, howner, hother⟩ := hnew
      rw [hclients] at hmember howner
      rw [hups] at howner hother
      refine ⟨⟨?_, hups ▸ hlive.2⟩, hmember, howner, hother⟩
      have hlt := hlive.1
      rw [hfresh] at hlt
      exact (Nat.lt_succ_iff_lt_or_eq.mp hlt).resolve_right hr
    have hcalm : Calm n g r R (R.newUpConn m id label) := by
      refine ⟨⟨?_, ?_, ?_, ?_, fun he => ?_⟩, ?_⟩
      · rw [hclients]
      · rw [hclients]
      · rw [hclients]
        exact fun h => h
      · rw [hups]
        exact ⟨rfl, rfl, rfl, rfl, rfl⟩
      · obtain ⟨e, he, hup⟩ := he
        rw [delayed_newUpConn hg]
        exact ⟨e, List.mem_append_left _ he, hup⟩
      · rw [hclients]
    exact hcalm.served (hs n g r hback)

/-- What is new on a connection is pushed after a while. -/
theorem served_onTrack {track : RtpUpTrack} (hs : ∀ n g r, R.Owed n g r → R.Served n g r)
    (hk : (R.clients (R.ups m).client).group = some k) (hm : m < R.fresh)
    (ho : (R.onTrack m track).Owed n g r) : (R.onTrack m track).Served n g r := by
  obtain ⟨hclients, -, -⟩ := @clients_onTrack R m track
  have hback : R.Owed n g r := ho.kept
    ((kept_modifyUp ⟨rfl, rfl, fun h => h, rfl⟩).trans (kept_pushConn hm))
  by_cases hr : r = m
  · subst hr
    refine .inr (.inl ⟨?_, ⟨r, k, R.getClients k (R.ups r).client⟩, ?_, rfl⟩)
    · rw [ups_onTrack hk, if_pos rfl]
    · rw [delayed_onTrack hk]
      exact List.mem_append_right _ (List.mem_singleton_self _)
  · have hcalm : Calm n g r R (R.onTrack m track) := by
      refine ⟨⟨?_, ?_, ?_, ?_, fun he => ?_⟩, ?_⟩
      · rw [hclients]
      · rw [hclients]
      · rw [hclients]
        exact fun h => h
      · rw [ups_onTrack hk, if_neg hr]
        exact ⟨rfl, rfl, rfl, rfl, rfl⟩
      · obtain ⟨e, he, hup⟩ := he
        rw [delayed_onTrack hk]
        exact ⟨e, List.mem_append_left _ he, hup⟩
      · rw [hclients]
    exact hcalm.served (hs n g r hback)

/-- A push that is made is made to everybody in the group. -/
theorem served_wake {i : ℕ} {e : Delayed} (hf : Founded R)
    (hs : ∀ n g r, R.Owed n g r → R.Served n g r) (he : R.delayed[i]? = some e)
    (hS : S = { R with delayed := R.delayed.eraseIdx i })
    (htimely : (R.ups e.up).pushed = false →
      ∀ k ∈ R.getClients e.group (R.ups e.up).client, k ∈ e.clients)
    (ho : (if (R.ups e.up).pushed then S else S.pushConnNow e).Owed n g r) :
    (if (R.ups e.up).pushed then S else S.pushConnNow e).Served n g r := by
  have hclients : S.clients = R.clients := by rw [hS]
  have hups : S.ups = R.ups := by rw [hS]
  have hkeptS : Kept R S := by
    rw [hS]
    exact ⟨fun _ => rfl, fun _ => rfl, rfl, rfl, fun _ => .refl _, fun _ _ h => .inl h,
      fun e h => .inl (List.mem_of_mem_eraseIdx h)⟩
  have hdue := hf.delayed e (List.mem_of_getElem? he)
  have hcalm (hne : r ≠ e.up) : Calm n g r R S := by
    refine ⟨⟨?_, ?_, ?_, ?_, fun hwait => ?_⟩, ?_⟩
    · rw [hclients]
    · rw [hclients]
    · rw [hclients]
      exact fun h => h
    · rw [hups]
      exact ⟨rfl, rfl, rfl, rfl, rfl⟩
    · obtain ⟨e', he', hup⟩ := hwait
      refine ⟨e', ?_, hup⟩
      rw [hS]
      exact mem_eraseIdx_of_ne he he' fun heq => hne (hup.symm.trans (congrArg Delayed.up heq))
    · rw [hclients]
  by_cases hpushed : (R.ups e.up).pushed = true
  · rw [if_pos hpushed] at ho ⊢
    have hback := hs n g r (ho.kept hkeptS)
    by_cases hr : r = e.up
    · subst hr
      rcases hback with hask | ⟨hwait, -⟩ | hperm
      · refine .inl ?_
        rw [hups, hclients]
        exact hask
      · rw [hpushed] at hwait
        cases hwait
      · refine .inr (.inr ?_)
        unfold Net.heading Net.pick at hperm ⊢
        rw [hclients, hups]
        exact hperm
    · exact (hcalm hr).served hback
  · rw [if_neg hpushed] at ho ⊢
    have hback := ho.kept (hkeptS.trans (kept_pushConnNow (hkeptS.due hdue)))
    by_cases hr : r = e.up
    · subst hr
      have hgroup : g = e.group := Option.some.inj (hback.owner.symm.trans (hdue.2.2 hback.live))
      have hn : n ∈ e.clients := by
        refine htimely (eq_false_of_ne_true hpushed) n (mem_getClients.mpr ⟨?_, hback.other⟩)
        rw [hf.member, ← hgroup]
        exact hback.member
      refine served_of_last ?_
      unfold Net.pushConnNow
      have hpush : (Action.pushConn e.group (S.ups e.up).id (some e.up) (S.ups e.up).tracks
          (S.ups e.up).replace).pushed g e.up = some (S.ups e.up).tracks := if_pos ⟨hgroup.symm, rfl⟩
      dsimp only
      rw [clients_action, if_pos hn, pushes_append, hpush]
      refine List.getLast?_concat.trans (congrArg some ?_)
      change _ = ((S.modifyUp e.up ({ · with pushed := true, replace := "" })).ups e.up).tracks
      rw [ups_modifyUp, if_pos rfl]
    · have hnow : Calm n g r S (S.pushConnNow e) := by
        refine (calm_modifyUp fun h => absurd h hr).trans (calm_action fun _ => ?_)
        exact if_neg fun heq => hr (Option.some.inj heq.2).symm
      exact ((hcalm hr).trans hnow).served (hs n g r hback)

/-- A client that is asked pushes all it publishes. -/
theorem served_reply {target : ℕ} (hs : ∀ n g r, R.Owed n g r → R.Served n g r)
    (hactions : (R.clients m).actions = .requestConns k target id :: rest)
    (hm : (R.clients m).group = some k) (htarget : target ≠ m) (horder : order.Perm (R.getUpConns m))
    (ho : ((R.take m).requestConns target k id order).Owed n g r) :
    ((R.take m).requestConns target k id order).Served n g r := by
  have hback : R.Owed n g r := by
    refine ho.kept (kept_take.trans (kept_requestConns ((kept_take.groups m).trans hm) htarget ?_))
    exact fun r hr => mem_getUpConns.mp (horder.mem_iff.mp hr)
  by_cases hmine : (R.ups r).client = m ∧ n = target ∧ (id = "" ∨ id = (R.ups r).id)
  · obtain ⟨howner, rfl, hid⟩ := hmine
    have hkg : k = g := Option.some.inj (hm.symm.trans (howner ▸ hback.owner))
    subst hkg
    have hr : r ∈ order := horder.mem_iff.mpr (mem_getUpConns.mpr ⟨hback.live, howner⟩)
    refine served_of_last ?_
    refine (getLast?_pushes_requestConns (R := R.take m) hr hid).trans (congrArg some ?_)
    exact ((@calm_requestConns (R.take m) m r k id order n k
      fun _ _ h => absurd h.symm htarget).up.2.2.2.1).symm
  · have htake : Calm n g r R (R.take m) := by
      refine calm_take hactions (fun _ => rfl) fun howner heq => hmine ⟨howner, ?_⟩
      obtain ⟨-, rfl, rfl⟩ := Action.requestConns.inj heq
      exact ⟨rfl, .inl rfl⟩
    refine (htake.trans (calm_requestConns fun r' hr' hn heq => ?_)).served (hs n g r hback)
    subst heq
    have howner := (mem_getUpConns.mp (horder.mem_iff.mp hr')).2
    by_contra hasked
    refine hmine ⟨howner, hn, ?_⟩
    by_contra hid
    obtain ⟨hne, hne'⟩ := not_or.mp hid
    exact hasked ⟨hne, hne'⟩

/-- What is closed, or replaced, is none of what the client is owed. -/
theorem calm_replaced {conn : Option ℕ} {tracks : List RtpUpTrack} (hp : R.Plain unsent)
    (hactions : (R.clients m).actions = .pushConn k id conn tracks replace :: rest)
    (hr : R.Live r) (hconn : n = m → conn ≠ some r) :
    Calm n g r R ((R.take m).cutReplaced m replace) := by
  have hharmless := hp.actions m _ (hactions ▸ List.mem_cons_self)
  have htake : Calm n g r R (R.take m) :=
    calm_take hactions (fun hn => if_neg fun h => hconn hn h.2) fun _ h => (by cases h)
  refine htake.trans (calm_cutReplaced fun _ hreplace => ?_)
  exact hp.ne_of_live (hharmless.2.resolve_left hreplace) hr

/-- The end of a push that has been dealt with. -/
theorem served_push {conn : Option ℕ} {tracks : List RtpUpTrack} (hp : R.Plain unsent)
    (hs : R.Served n g r) (ho : R.Owed n g r)
    (hactions : (R.clients m).actions = .pushConn k id conn tracks replace :: rest)
    (hm : (R.clients m).group = some k)
    (hself : n = m → conn = some r → Near n g r (R.take n) S ∧
      ((S.clients n).tracksOf (R.ups r).id).Perm (R.pick n r tracks))
    (hother : (n = m → conn ≠ some r) → Calm n g r ((R.take m).cutReplaced m replace) S) :
    S.Served n g r := by
  by_cases hmine : n = m ∧ conn = some r
  · obtain ⟨rfl, rfl⟩ := hmine
    obtain ⟨hnear, htracks⟩ := hself rfl rfl
    have hkg : k = g := Option.some.inj (hm.symm.trans ho.member)
    exact hs.handled ho.other hactions (if_pos ⟨hkg, rfl⟩) hnear htracks
  · have hne : n = m → conn ≠ some r := fun hn hc => hmine ⟨hn, hc⟩
    exact ((calm_replaced hp hactions ho.live hne).trans (hother hne)).served hs

/-- A connection that has failed is given the tracks that it has. -/
theorem served_echo {link : Link} (hf : Founded R)
    (hs : ∀ n g r, R.Owed n g r → R.Served n g r)
    (hactions : (R.clients m).actions = .connectionFailed id :: rest)
    (hm : (R.clients m).group = some k) (hlink : (R.clients m).link id = some link)
    (hrest : ∀ a ∈ rest, a.conn ≠ some link.remote) (ho : R.Owed n g r) :
    ((R.take m).action [m] (.pushConn k (R.ups link.remote).id (some link.remote) link.tracks "")).Served
      n g r := by
  have htake : Calm n g r R (R.take m) := calm_take hactions (fun _ => rfl) fun _ h => (by cases h)
  have hback := htake.served (hs n g r ho)
  by_cases hmine : n = m ∧ link.remote = r
  · obtain ⟨rfl, rfl⟩ := hmine
    have hkg : k = g := Option.some.inj (hm.symm.trans ho.member)
    subst hkg
    have hself : (R.take n).clients n = { R.clients n with actions := rest } := by
      rw [Net.take, clients_modify, if_pos rfl, hactions]
      rfl
    have hnone : ((R.take n).clients n).pushes k link.remote = [] := by
      rw [hself]
      unfold Party.pushes
      refine List.filterMap_eq_nil_iff.mpr fun a ha => ?_
      have hne := hrest a ha
      cases a with
      | pushConn h i conn ts rep => exact if_neg fun heq => hne heq.2
      | requestConns h target i => rfl
      | connectionFailed i => rfl
      | permissionsChanged => rfl
    have hid : (R.ups link.remote).id = id := ((hf.conns n id _ (mem_conns_of_link hlink)).2.1).symm
    have htracks : ((R.take n).clients n).tracksOf (R.ups link.remote).id = link.tracks := by
      rw [hself, hid]
      unfold Party.tracksOf
      have hlink' : ({ R.clients n with actions := rest } : Party).link id = some link := hlink
      rw [hlink']
      rfl
    rcases hback with hask | ⟨hpushed, he⟩ | hperm
    · exact .inl (steady_action.actions _ hask)
    · exact .inr (.inl ⟨hpushed, he⟩)
    · refine .inr (.inr ?_)
      unfold Net.heading at hperm
      rw [hnone] at hperm
      have hheld : link.tracks.Perm ((R.take n).pick n link.remote ((R.take n).ups link.remote).tracks) := by
        rw [← htracks]
        exact hperm
      have hpushed : (Action.pushConn k (R.ups link.remote).id (some link.remote) link.tracks "").pushed
          k link.remote = some link.tracks := if_pos ⟨rfl, rfl⟩
      have hpick (ts : List RtpUpTrack) : ((R.take n).action [n] (.pushConn k (R.ups link.remote).id
          (some link.remote) link.tracks "")).pick n link.remote ts = (R.take n).pick n link.remote ts := by
        unfold Net.pick
        rw [requestedOf_congr]
        · rfl
        · rw [clients_action, if_pos (List.mem_singleton_self n)]
      unfold Net.heading
      rw [clients_action, if_pos (List.mem_singleton_self n), pushes_append, hpushed, hnone]
      refine Eq.subst (motive := fun l => List.Perm _ l) (hpick _).symm ?_
      refine Eq.subst (motive := fun l => List.Perm l _) (hpick _).symm ?_
      exact (requestedTracks_perm hheld).trans hheld
  · have hnone : n ∈ [m] → (Action.pushConn k (R.ups link.remote).id (some link.remote) link.tracks
        "").pushed g r = none :=
      fun hn => if_neg fun heq => hmine ⟨List.mem_singleton.mp hn, Option.some.inj heq.2⟩
    exact (calm_action hnone).served hback

theorem Broken.calm {replace : String} (hne : n ≠ m) (howner : (R.ups r).client ≠ m)
    (h : Broken R m k replace S) : Calm n g r R S := by
  have htake : Calm n g r R (R.take m) :=
    calm_modify (fun h => absurd h hne) (fun h => absurd h hne) fun h => absurd h howner
  induction h with
  | early => exact htake.trans (calm_cutReplaced fun h => absurd h hne)
  | attach _ _ _ _ ih => exact ih.trans (calm_attach fun h => absurd h hne)
  | cut _ _ ih => exact ih.trans (calm_cut fun h => absurd h hne)

variable {r' : ℕ} {tracks : List RtpUpTrack}

theorem served_leave (hf : Founded R) (hs : ∀ n g r, R.Owed n g r → R.Served n g r)
    (horder : order.Perm (R.getUpConns m)) (ho : (R.leave m order).Owed n g r) :
    (R.leave m order).Served n g r := by
  obtain ⟨hback, hne⟩ := ho.leave hf horder
  cases hm : (R.clients m).group with
  | none =>
      have hleave : R.leave m order = R := by
        unfold Net.leave
        rw [hm]
      rw [hleave]
      exact hs n g r hback
  | some k =>
      obtain ⟨hn, howner⟩ := hne (hm ▸ Option.some_ne_none k)
      exact (calm_leave hn howner).served (hs n g r hback)

/-- An action that does nothing any more is no push that is waited for. -/
theorem served_skip (hs : ∀ n g r, R.Owed n g r → R.Served n g r)
    (hactions : (R.clients m).actions = a :: rest) (hidle : Idle R m a)
    (ho : (R.take m).Owed n g r) : (R.take m).Served n g r := by
  have hback := ho.kept kept_take
  refine (calm_take hactions (fun hn => ?_) fun howner heq => ?_).served (hs n g r hback)
  · cases a with
    | pushConn h id conn tracks replace =>
        refine if_neg fun heq => hidle ?_
        rw [← hn, heq.1]
        exact hback.member
    | requestConns h target id => rfl
    | connectionFailed id => rfl
    | permissionsChanged => rfl
  · subst heq
    exact hidle (howner ▸ hback.owner)

/-- Of a stream of which nothing is asked there is no connection any more. -/
theorem served_drop {conn : Option ℕ} (hf : Founded R) (hp : R.Plain unsent)
    (hs : ∀ n g r, R.Owed n g r → R.Served n g r)
    (hactions : (R.clients m).actions = .pushConn k id conn tracks replace :: rest)
    (hm : (R.clients m).group = some k) (hasked : R.asked m conn tracks replace = [])
    (ho : (((R.take m).cutReplaced m replace).cut m id).Owed n g r) :
    (((R.take m).cutReplaced m replace).cut m id).Served n g r := by
  have hback : R.Owed n g r := ((ho.relinked relinked_cut).relinked relinked_cutReplaced).kept kept_take
  have hmem : Action.pushConn k id conn tracks replace ∈ (R.clients m).actions :=
    hactions ▸ List.mem_cons_self
  have hup : (((R.take m).cutReplaced m replace).ups r).id = (R.ups r).id :=
    (relinked_cutReplaced.ups r).1
  refine served_push hp (hs n g r hback) hback hactions hm (fun hn hc => ?_) fun hne => ?_
  · subst hn hc
    have hid : id = (R.ups r).id := (hf.actions n _ hmem).2.1
    refine ⟨near_cutReplaced.trans near_cut, ?_⟩
    rw [← hid, tracksOf_cut, ← asked_eq_pick hp, hasked]
  · refine calm_cut fun hn => ?_
    rw [hup]
    cases conn with
    | none => exact hp.ne_of_live ((hp.actions m _ hmem).1 rfl) hback.live
    | some r' =>
        obtain ⟨hlt, hid, -⟩ := hf.actions m _ hmem
        exact fun heq => hne hn (congrArg some (hp.ids r' r hlt hback.live.1 (hid.symm.trans heq.symm)))

/-- A push of a stream that has ended is not waited for. -/
theorem served_late (hp : R.Plain unsent) (hs : ∀ n g r, R.Owed n g r → R.Served n g r)
    (hactions : (R.clients m).actions = .pushConn k id (some r') tracks replace :: rest)
    (hm : (R.clients m).group = some k) (hclosed : (R.ups r').closed = true)
    (ho : ((R.take m).cutReplaced m replace).Owed n g r) :
    ((R.take m).cutReplaced m replace).Served n g r := by
  have hback : R.Owed n g r := (ho.relinked relinked_cutReplaced).kept kept_take
  refine served_push hp (hs n g r hback) hback hactions hm (fun _ hc => ?_) fun _ => .refl _ _ _ _
  rw [Option.some.inj hc, hback.live.2] at hclosed
  cases hclosed

theorem served_attach (hf : Founded R) (hp : R.Plain unsent)
    (hs : ∀ n g r, R.Owed n g r → R.Served n g r)
    (hactions : (R.clients m).actions = .pushConn k id (some r') tracks replace :: rest)
    (hm : (R.clients m).group = some k)
    (hlink : (((R.take m).cutReplaced m replace).clients m).link (R.ups r').id = none)
    (ho : (((R.take m).cutReplaced m replace).attach m r' (R.asked m (some r') tracks replace)).Owed
      n g r) :
    (((R.take m).cutReplaced m replace).attach m r' (R.asked m (some r') tracks replace)).Served
      n g r := by
  have hback : R.Owed n g r :=
    ((ho.relinked relinked_attach).relinked relinked_cutReplaced).kept kept_take
  have hmem : Action.pushConn k id (some r') tracks replace ∈ (R.clients m).actions :=
    hactions ▸ List.mem_cons_self
  have hup (i : ℕ) : (((R.take m).cutReplaced m replace).ups i).id = (R.ups i).id :=
    (relinked_cutReplaced.ups i).1
  refine served_push hp (hs n g r hback) hback hactions hm (fun hn hc => ?_) fun hne => ?_
  · subst hn
    obtain rfl := Option.some.inj hc
    refine ⟨near_cutReplaced.trans near_attach, ?_⟩
    rw [← hup r', tracksOf_attach (by rw [hup]; exact hlink), asked_eq_pick hp]
  · refine calm_attach fun hn heq => hne hn ?_
    rw [hup, hup] at heq
    exact congrArg some (hp.ids r' r (hf.actions m _ hmem).1 hback.live.1 heq)

theorem served_update {link : Link} (hf : Founded R) (hp : R.Plain unsent)
    (hs : ∀ n g r, R.Owed n g r → R.Served n g r)
    (hactions : (R.clients m).actions = .pushConn k id (some r') tracks replace :: rest)
    (hm : (R.clients m).group = some k) (hT : S = (R.take m).cutReplaced m replace)
    (hlink : (S.clients m).link (R.ups r').id = some link)
    (ho : (S.modify m (·.setLink { link with
      tracks := merge link.tracks (R.asked m (some r') tracks replace) })).Owed n g r) :
    (S.modify m (·.setLink { link with
      tracks := merge link.tracks (R.asked m (some r') tracks replace) })).Served n g r := by
  subst hT
  have hmem : Action.pushConn k id (some r') tracks replace ∈ (R.clients m).actions :=
    hactions ▸ List.mem_cons_self
  have hfT : Founded ((R.take m).cutReplaced m replace) := (hf.kept kept_take).cutReplaced m replace
  have hset : Kept ((R.take m).cutReplaced m replace)
      (((R.take m).cutReplaced m replace).modify m (·.setLink { link with
        tracks := merge link.tracks (R.asked m (some r') tracks replace) })) :=
    kept_setLink hfT hlink ⟨rfl, rfl⟩
  have hback : R.Owed n g r := ((ho.kept hset).relinked relinked_cutReplaced).kept kept_take
  have hup (i : ℕ) : (((R.take m).cutReplaced m replace).ups i).id = (R.ups i).id :=
    (relinked_cutReplaced.ups i).1
  refine served_push hp (hs n g r hback) hback hactions hm (fun hn hc => ?_) fun hne => ?_
  · subst hn
    obtain rfl := Option.some.inj hc
    refine ⟨near_cutReplaced.trans near_setLink, ?_⟩
    have hplain := hp.mild ((@mild_take unsent R n).trans (@mild_cutReplaced unsent _ n replace))
    rw [tracksOf_setLink hlink, ← @asked_eq_pick unsent _ _ replace _ _ hp]
    exact merge_perm (hplain.links n link (List.mem_of_find?_eq_some hlink)).2 asked_nodup
  · refine calm_setLink fun hn heq => hne hn ?_
    rw [hup] at heq
    exact congrArg some (hp.ids r' r (hf.actions m _ hmem).1 hback.live.1 ((link_id hlink).symm.trans heq))

/-- A client whose push fails leaves. -/
theorem served_broken (hf : Founded R) (hs : ∀ n g r, R.Owed n g r → R.Served n g r)
    (hactions : (R.clients m).actions = .pushConn k id (some r') tracks replace :: rest)
    (hm : (R.clients m).group = some k) (horder : order.Perm (R.getUpConns m))
    (hbroken : Broken R m r' replace S) (ho : (S.leave m order).Owed n g r) :
    (S.leave m order).Served n g r := by
  obtain ⟨hfounded, hrelinked⟩ := hbroken.founded hf fun hnone => hf.joins hactions hm hnone
  have hgroup (i : ℕ) : (S.clients i).group = (R.clients i).group :=
    (hrelinked.groups i).trans (kept_take.groups i)
  obtain ⟨hback, hne⟩ := ho.leave hfounded (hrelinked.getUpConns ▸ horder)
  obtain ⟨hn, howner⟩ := hne (by rw [hgroup, hm]; exact Option.some_ne_none k)
  have howner' : (R.ups r).client ≠ m := (hrelinked.ups r).2.2 ▸ howner
  exact ((hbroken.calm hn howner').trans (calm_leave hn howner)).served
    (hs n g r ((hback.relinked hrelinked).kept kept_take))

/-- A client whose handler fails leaves. -/
theorem served_failed (hf : Founded R) (hs : ∀ n g r, R.Owed n g r → R.Served n g r)
    (horder : order.Perm (R.getUpConns m)) (ho : ((R.take m).leave m order).Owed n g r) :
    ((R.take m).leave m order).Served n g r := by
  obtain ⟨hback, hne⟩ := ho.leave (hf.kept kept_take) horder
  have hapart : n ≠ m ∧ (R.ups r).client ≠ m := by
    cases hm : ((R.take m).clients m).group with
    | none =>
        refine ⟨?_, fun howner => ?_⟩
        · rintro rfl
          exact Option.some_ne_none g (hback.member.symm.trans hm)
        · have hgroup : ((R.take m).clients (R.ups r).client).group = some g := hback.owner
          rw [howner, hm] at hgroup
          cases hgroup
    | some k => exact hne (hm ▸ Option.some_ne_none k)
  have htake : Calm n g r R (R.take m) :=
    calm_modify (fun h => absurd h hapart.1) (fun h => absurd h hapart.1) fun h => absurd h hapart.2
  exact (htake.trans (calm_leave hapart.1 hapart.2)).served (hs n g r (hback.kept kept_take))

theorem served_outcome (hf : Founded w.routes) (hp : w.routes.Plain unsent) (hok : Faithful unsent w l)
    (hs : ∀ n g r, w.routes.Owed n g r → w.routes.Served n g r)
    (hl : ∀ n id rtc order, l ≠ .message n (.answer id) rtc order ∧
      l ≠ .message n (.renegotiate id) rtc order)
    (h : Outcome w.routes l S) (ho : S.Owed n g r) : S.Served n g r := by
  cases h with
  | same => exact hs n g r ho
  | enter hm => exact served_enter hf hp hm hs ho
  | leave _ horder => exact served_leave hf hs horder ho
  | @queue m a _ ha =>
      have hnone (k : ℕ) : w.routes.Proper k a ∧ a.pushed g r = none := by
        rcases ha with rfl | ⟨id, rfl⟩ <;> exact ⟨trivial, rfl⟩
      exact (calm_action fun _ => (hnone n).2).served
        (hs n g r (ho.kept (kept_action fun k _ => (hnone k).1)))
  | ask _ hm => exact served_ask hf hm hs ho
  | askStream _ _ => cases hok
  | publish hm _ _ => exact served_publish hm hs ho
  | @again m r' id label replace rtc order hfound =>
      have hup : w.getUpConn m id = some r' := hfound
      rw [Faithful, faithful, hup] at hok
      have hreplace : replace = "" := of_decide_eq_true hok
      have hsupersede : w.routes.supersede m r' replace = w.routes := by
        unfold Net.supersede
        rw [if_neg (not_not.mpr hreplace)]
      rw [hsupersede] at ho ⊢
      exact hs n g r ho
  | close _ => exact calm_delUpConn.served (hs n g r (ho.kept kept_delUpConn))
  | answer => exact absurd rfl (hl _ _ _ _).1
  | renegotiate => exact absurd rfl (hl _ _ _ _).2
  | abort => cases hok
  | skip hactions hidle => exact served_skip hs hactions hidle ho
  | deny hactions _ =>
      exact ((calm_take hactions (fun _ => rfl) fun _ h => (by cases h)).trans calm_delUpConns).served
        (hs n g r (ho.kept (kept_take.trans kept_delUpConns)))
  | @reply m k target id rest rtc order hactions hm horder =>
      have htarget : w.routes.Proper m (.requestConns k target id) :=
        hf.actions m _ (hactions ▸ List.mem_cons_self)
      exact served_reply hs hactions hm htarget horder ho
  | drop hactions hm hasked => exact served_drop hf hp hs hactions hm hasked ho
  | late hactions hm hclosed => exact served_late hp hs hactions hm hclosed ho
  | attach hactions hm _ _ hT hlink _ =>
      subst hT
      exact served_attach hf hp hs hactions hm hlink ho
  | update hactions hm _ hT hlink => exact served_update hf hp hs hactions hm hT hlink ho
  | @echo m k id link rest rtc order hactions hm hlink =>
      have hparty : (w.routes.clients m).link id = ((w.clients m).getDownConn id).map (·.link) := link_party
      obtain ⟨d, hd, rfl⟩ := Option.map_eq_some_iff.mp (hparty.symm.trans hlink)
      have hqueue : (w.clients m).actions = .connectionFailed id :: rest := hactions
      rw [Faithful, faithful, hqueue] at hok
      dsimp only at hok
      rw [hd, Option.all_some] at hok
      have hpair := mem_conns_of_link hlink
      have hback : w.routes.Owed n g r := by
        refine ho.kept (kept_take.trans (kept_action fun k' hk' => ?_))
        rw [List.mem_singleton.mp hk']
        obtain ⟨hlt, -, hne⟩ := hf.conns m _ _ hpair
        exact ⟨hlt, rfl, hne, fun hr => (kept_take.groups _).trans ((hf.same m _ _ hpair hr).trans hm)⟩
      refine served_echo hf hs hactions hm hlink (fun a ha => ?_) hback
      exact of_decide_eq_true (List.all_eq_true.mp hok a ha)
  | broken hactions hm horder hbroken => exact served_broken hf hs hactions hm horder hbroken ho
  | failed _ horder => exact served_failed hf hs horder ho
  | onTrack hr hgroup =>
      obtain ⟨k, hk⟩ := Option.ne_none_iff_exists'.mp hgroup
      exact served_onTrack hs hk hr ho
  | @wake i e T he hT =>
      refine served_wake hf hs he hT (fun hpushed k hk => ?_) ho
      have hdue : w.delayed[i]? = some e := he
      have hpushed' : (w.ups e.up).pushed = false := hpushed
      rw [Faithful, faithful, hdue, Option.all_some, hpushed', Bool.false_or] at hok
      exact of_decide_eq_true (List.all_eq_true.mp hok k hk)

theorem finish_outcome {w' : World} {x : Except World World} (hperm : order.Perm (w.getUpConns n))
    (hx : x = .error w ∨ ∃ v, x = .ok v ∧ v.routes = w.routes) (h : Net.finish n order x = w') :
    Outcome w.routes (.lost n order) w'.routes := by
  rw [← h]
  rcases hx with rfl | ⟨v, rfl, hv⟩
  · rw [routes_finish_error]
    exact .leave _ hperm
  · change Outcome w.routes _ v.routes
    rw [hv]
    exact .same _

/-- A faithful answer, and a request to negotiate again, leave the routes as they are, unless
the session ends. -/
theorem negotiation_outcome {w' : World} {m : ClientMessage} (hwell : (w.routes.clients n).WellFormed)
    (hm : m = .answer id ∨ m = .renegotiate id) (hok : Faithful unsent w (.message n m rtc order))
    (h : step w (.message n m rtc order) = some w') : Outcome w.routes (.lost n order) w'.routes := by
  have hlink : (w.routes.clients n).link id = ((w.clients n).getDownConn id).map (·.link) := link_party
  rw [step] at h
  split_ifs at h with hmessage
  obtain ⟨hperm, -⟩ := not_or.mp (not_or.mp hmessage).2
  refine finish_outcome (not_not.mp hperm) ?_ (Option.some.inj h)
  have hnegotiated (down : RtpDownConnection) (restartIce : Bool) (up : RtpUpConnection)
      (hoffers : rtc.offers = true) :
      ∃ c, (w.clients n).negotiate rtc up down restartIce "" = .ok c := by
    unfold WebClient.negotiate
    by_cases hoffer : down.signalingState = .haveLocalOffer
    · rw [if_pos hoffer]
      exact ⟨_, rfl⟩
    · rw [if_neg hoffer, if_pos hoffers]
      exact ⟨_, rfl⟩
  rcases hm with rfl | rfl
  · rw [Faithful, faithful, Bool.and_eq_true, Bool.and_eq_true] at hok
    obtain ⟨⟨haccepts, hoffers⟩, hstate⟩ := hok
    rw [Net.handleClientMessage]
    by_cases hid : id = ""
    · rw [if_pos hid]
      exact .inl rfl
    · rw [if_neg hid]
      right
      cases hdown : (w.clients n).getDownConn id with
      | none =>
          refine ⟨_, rfl, ?_⟩
          rw [routes_closeDownConn, cut_of_none (hlink.trans (by rw [hdown]; rfl))]
      | some down =>
          have hl : (w.routes.clients n).link id = some down.link := hlink.trans (by rw [hdown]; rfl)
          rw [hdown, Option.all_some, decide_eq_true_eq] at hstate
          dsimp only
          rw [if_neg (not_not.mpr ⟨haccepts, hstate⟩)]
          by_cases hneeded : down.negotiationNeeded = .unneeded
          · rw [if_pos hneeded]
            refine ⟨_, rfl, ?_⟩
            rw [routes_modify (g := (·.setLink down.link)) party_setDownConn, modify_eq_self]
            exact setLink_self hwell.ids hl
          · rw [if_neg hneeded]
            obtain ⟨c, hc⟩ := hnegotiated { down with signalingState := .stable }
              (down.negotiationNeeded = .restartIce) (w.ups down.remote) hoffers
            have hanswered : { down with signalingState := .stable }.link = down.link := rfl
            rw [hc]
            exact ⟨_, rfl, routes_renegotiate hwell.ids hdown hanswered (.inl hc)⟩
  · have hoffers : rtc.offers = true := hok
    rw [Net.handleClientMessage]
    by_cases hid : id = ""
    · rw [if_pos hid]
      exact .inl rfl
    · rw [if_neg hid]
      right
      cases hdown : (w.clients n).getDownConn id with
      | none => exact ⟨_, rfl, rfl⟩
      | some down =>
          obtain ⟨c, hc⟩ := hnegotiated down true (w.ups down.remote) hoffers
          dsimp only
          rw [hc]
          exact ⟨_, rfl, routes_renegotiate hwell.ids hdown rfl (.inl hc)⟩

theorem served_step {w' : World} (hf : Founded w.routes) (hp : w.routes.Plain unsent)
    (hok : Faithful unsent w l) (hs : ∀ n g r, w.routes.Owed n g r → w.routes.Served n g r)
    (h : step w l = some w') : w'.routes.Plain unsent ∧
      ∀ n g r, w'.routes.Owed n g r → w'.routes.Served n g r := by
  have hother (l' : Label) (hok' : Faithful unsent w l') (h' : Outcome w.routes l' w'.routes)
      (hl : ∀ n id rtc order, l' ≠ .message n (.answer id) rtc order ∧
        l' ≠ .message n (.renegotiate id) rtc order) : w'.routes.Plain unsent ∧
      ∀ n g r, w'.routes.Owed n g r → w'.routes.Served n g r :=
    ⟨hp.outcome hf hok' h', fun n g r ho => served_outcome hf hp hok' hs hl h' ho⟩
  have hlost {n : ℕ} {order : List ℕ} (h' : Outcome w.routes (.lost n order) w'.routes) :
      w'.routes.Plain unsent ∧ ∀ n g r, w'.routes.Owed n g r → w'.routes.Served n g r :=
    hother (.lost n order) rfl h' fun _ _ _ _ => ⟨Label.noConfusion, Label.noConfusion⟩
  by_cases hl : ∀ n id rtc order, l ≠ .message n (.answer id) rtc order ∧
      l ≠ .message n (.renegotiate id) rtc order
  · exact hother l hok (step_outcome hf.wellFormed h) hl
  · obtain ⟨n, id, rtc, order, hl⟩ := by simpa only [not_forall] using hl
    by_cases hanswer : l = .message n (.answer id) rtc order
    · subst hanswer
      exact hlost (negotiation_outcome (hf.wellFormed n) (.inl rfl) hok h)
    · have hrenegotiate := not_not.mp (not_and.mp hl hanswer)
      subst hrenegotiate
      exact hlost (negotiation_outcome (hf.wellFormed n) (.inr rfl) hok h)

end Steps

section Runs

variable {unsent : String → Bool} {w : World} {n g r : ℕ}

theorem served_of_reachable (h : Reachable system (Faithful unsent) w) : Founded w.routes ∧
    w.routes.Plain unsent ∧ ∀ n g r, w.routes.Owed n g r → w.routes.Served n g r := by
  refine h.invariant (P := fun w => Founded w.routes ∧ w.routes.Plain unsent ∧
    ∀ n g r, w.routes.Owed n g r → w.routes.Served n g r) (fun w hw => ?_) fun w l w' hw hok hstep => ?_
  · refine ⟨founded_init hw, ?_, fun n g r ho => ?_⟩
    · subst hw
      exact {
        ids := fun r _ hr => absurd hr (Nat.not_lt_zero r)
        sent := fun r hr => absurd hr (Nat.not_lt_zero r)
        replaces := fun r hr => absurd hr (Nat.not_lt_zero r)
        actions := fun n a h => (by cases h)
        links := fun n l h => (by cases h)
        outside := fun n _ => rfl }
    · subst hw
      exact absurd ho.live.1 (Nat.not_lt_zero r)
  · exact ⟨founded_step hw.1 hstep, served_step hw.1 hw.2.1 hok hw.2.2 hstep⟩

theorem Faithful.orderly {l : Label} (h : Faithful unsent w l) : Orderly w l := by
  cases l with
  | message n m rtc order =>
      cases m with
      | offer id label replace =>
          intro hup
          obtain ⟨r, hr⟩ := Option.isSome_iff_exists.mp hup
          rw [Faithful, faithful, hr] at h
          exact of_decide_eq_true h
      | request requested => trivial
      | requestStream id requested => trivial
      | answer id => trivial
      | renegotiate id => trivial
      | close id => trivial
      | abort id => trivial
  | onTrack r track => exact (Bool.not_eq_true' _).mp h
  | join n g present => trivial
  | leave n order => trivial
  | lost n order => trivial
  | permit n present => trivial
  | action n rtc order => trivial
  | failed n id => trivial
  | wake i => trivial

/-- A member is sent what it has asked for of a stream of another, once neither it nor the
publisher has anything left to do and no push of the stream is due. -/
theorem tracks_of_quiet (h : Reachable system (Faithful unsent) w) (hr : w.Live r)
    (howner : (w.clients (w.ups r).client).group = some g) (hmember : (w.clients n).group = some g)
    (hother : n ≠ (w.ups r).client) (hactions : (w.clients n).actions = [])
    (hasked : (w.clients (w.ups r).client).actions = []) (hdelayed : ∀ e ∈ w.delayed, e.up ≠ r) :
    ((((w.clients n).getDownConn (w.ups r).id).map fun d => d.tracks.map (·.remote)).getD []).Perm
      (requestedTracks ((w.clients n).requestedOf (w.ups r).label) (w.ups r).tracks).1 := by
  obtain ⟨-, -, hs⟩ := served_of_reachable h
  rcases hs n g r ⟨hr, hmember, howner, hother⟩ with hask | ⟨-, e, he, hup⟩ | hperm
  · have hmem : .requestConns g n "" ∈ (w.clients (w.ups r).client).actions := hask
    rw [hasked] at hmem
    cases hmem
  · exact absurd hup (hdelayed e he)
  · have hnone : (w.routes.clients n).pushes g r = [] := by
      change List.filterMap _ (w.clients n).actions = []
      rw [hactions]
      rfl
    have hlink : (w.routes.clients n).link (w.ups r).id =
        ((w.clients n).getDownConn (w.ups r).id).map (·.link) := link_party
    unfold Net.heading at hperm
    rw [hnone] at hperm
    have htracks : (w.routes.clients n).tracksOf (w.routes.ups r).id =
        (((w.clients n).getDownConn (w.ups r).id).map fun d => d.tracks.map (·.remote)).getD [] := by
      change (((w.routes.clients n).link (w.ups r).id).map (·.tracks)).getD [] = _
      rw [hlink, Option.map_map]
      rfl
    rw [← htracks]
    exact hperm

/-- A member with nothing left to do is sent what it has asked for of every stream of the others
that have nothing left to do either, if no push of it is due; and when no push is due at all, it is
sent no other streams. -/
theorem quiet_served (h : Reachable system (Faithful unsent) w)
    (hactions : (w.clients n).actions = []) (hmember : (w.clients n).group = some g) :
    (∀ r, w.Live r → (w.clients (w.ups r).client).group = some g → n ≠ (w.ups r).client →
      (w.clients (w.ups r).client).actions = [] → (∀ e ∈ w.delayed, e.up ≠ r) →
      ((((w.clients n).getDownConn (w.ups r).id).map fun d => d.tracks.map (·.remote)).getD []).Perm
        (requestedTracks ((w.clients n).requestedOf (w.ups r).label) (w.ups r).tracks).1) ∧
    (w.delayed = [] → ∀ d ∈ (w.clients n).down, w.Live d.remote ∧ d.id = (w.ups d.remote).id ∧
      n ≠ (w.ups d.remote).client ∧ (w.clients (w.ups d.remote).client).group = some g) := by
  refine ⟨fun r hr howner hother hasked hdelayed =>
    tracks_of_quiet h hr howner hmember hother hactions hasked hdelayed, fun hdelayed d hd => ?_⟩
  have horderly : Reachable system Orderly w := h.mono fun _ _ => Faithful.orderly
  obtain ⟨hf, -⟩ := sound_of_reachable horderly
  obtain ⟨hlive, hother, g', hg', howner⟩ := open_of_quiet horderly hactions hdelayed d hd
  obtain rfl : g = g' := Option.some.inj (hmember.symm.trans hg')
  obtain ⟨-, hid, -⟩ := hf.conns n d.id d.remote (mem_conns_party.mpr ⟨d, hd, rfl, rfl⟩)
  exact ⟨hlive, hid, hother.symm, howner⟩

/-- The tracks of each stream that a client is sent. -/
def sentTo (n : ℕ) (w : World) : List (String × List RtpUpTrack) :=
  (w.clients n).down.map fun d => (d.id, d.tracks.map (·.remote))

theorem served_second : ∃ w,
    system.exec (Faithful fun _ => false) { clients := fun _ => {} } secondStream = some w ∧
      sentTo 2 w = [("b", [⟨1, .audio⟩])] ∧
      ((((w.clients 2).getDownConn (w.ups 1).id).map fun d => d.tracks.map (·.remote)).getD []).Perm
        (requestedTracks ((w.clients 2).requestedOf (w.ups 1).label) (w.ups 1).tracks).1 ∧
      ∀ d ∈ (w.clients 2).down, w.Live d.remote := by
  have hrun : (system.exec (Faithful fun _ => false) { clients := fun _ => {} } secondStream).any
      (fun w => sentTo 2 w = [("b", [⟨1, .audio⟩])] ∧
        (w.fresh = 2 ∧ (w.ups 1).closed = false ∧ (w.ups 1).client = 1) ∧
        ((w.clients 1).group = some 0 ∧ (w.clients 2).group = some 0) ∧
        ((w.clients 1).actions = [] ∧ (w.clients 2).actions = []) ∧ w.delayed = []) = true := by
    decide +kernel
  obtain ⟨w, hw, hquiet⟩ := (Option.any_eq_true ..).mp hrun
  obtain ⟨hsent, ⟨hfresh, hclosed, hclient⟩, ⟨hfirst, hsecond⟩, ⟨hasked, hactions⟩, hdelayed⟩ :=
    of_decide_eq_true hquiet
  obtain ⟨hserved, hnone⟩ := quiet_served (Reachable.exec (.init rfl) hw) hactions hsecond
  refine ⟨w, hw, hsent, hserved 1 ⟨?_, hclosed⟩ ?_ ?_ ?_ ?_, fun d hd => (hnone hdelayed d hd).1⟩
  · rw [hfresh]
    decide
  · rw [hclient]
    exact hfirst
  · rw [hclient]
    decide
  · rw [hclient]
    exact hasked
  · rw [hdelayed]
    exact List.forall_mem_nil _

/-- A member that comes while a push is due gets what there is when it asks, and misses a track
that is found before the push. -/
example : (system.exec Always { clients := fun _ => {} } [.join 1 0 true,
    .message 1 (.offer "a" "camera" "") {} [], .onTrack 0 ⟨0, .audio⟩, .join 2 0 false,
    .message 2 (.request [("", ["audio", "video"])]) {} [], .action 1 {} [0], .onTrack 0 ⟨1, .video⟩,
    .wake 0, .wake 0, .wake 0, .action 2 {} []]).map (fun w => (sentTo 2 w, (w.ups 0).tracks)) =
    some ([("a", [⟨0, .audio⟩])], [⟨0, .audio⟩, ⟨1, .video⟩]) := by
  decide +kernel

/-- A push that waits behind a failure is undone by it. -/
example : (system.exec Always { clients := fun _ => {} } [.join 1 0 true, .join 2 0 false,
    .message 2 (.request [("", ["audio", "video"])]) {} [], .action 1 {} [],
    .message 1 (.offer "a" "camera" "") {} [], .onTrack 0 ⟨0, .audio⟩, .wake 0, .action 2 {} [],
    .onTrack 0 ⟨1, .video⟩, .failed 2 "a", .wake 0, .action 2 {} [], .action 2 {} [],
    .action 2 {} []]).map (fun w => (sentTo 2 w, (w.ups 0).tracks, (w.clients 2).actions)) =
    some ([("a", [⟨0, .audio⟩])], [⟨0, .audio⟩, ⟨1, .video⟩], []) := by
  decide +kernel

end Runs

end Sozvon.Streams
