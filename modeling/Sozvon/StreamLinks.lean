import Sozvon.Routing

/-!
# Who is registered on a connection

What holds of the routes in every run, whatever the clients do. The clients that are
registered on an up connection are those with a down connection of it, and each is
registered once. A down connection of a live connection is one to a member of its
publisher's group.
-/
namespace Sozvon.Streams
open Runs

section Definitions

/-- A queued action that names a connection knows whose it is. -/
def Net.Proper (R : Routes) (n : ℕ) : Action → Prop
  | .pushConn g id (some r) _ _ => r < R.fresh ∧ id = (R.ups r).id ∧ (R.ups r).client ≠ n ∧
      (R.Live r → (R.clients (R.ups r).client).group = some g)
  | .requestConns _ target _ => target ≠ n
  | _ => True

def Net.Due (R : Routes) (e : Delayed) : Prop :=
  e.up < R.fresh ∧ (R.ups e.up).client ∉ e.clients ∧
    (R.Live e.up → (R.clients (R.ups e.up).client).group = some e.group)

structure Founded (R : Routes) : Prop where
  member : ∀ n g, n ∈ R.rooms g ↔ (R.clients n).group = some g
  rooms : ∀ g, (R.rooms g).Nodup
  ids : ∀ n, ((R.clients n).conns.map Prod.fst).Nodup
  conns : ∀ n id r, (id, r) ∈ (R.clients n).conns →
    r < R.fresh ∧ id = (R.ups r).id ∧ (R.ups r).client ≠ n
  outside : ∀ n, (R.clients n).group = none → (R.clients n).conns = []
  live : ∀ r, R.Live r → (R.clients (R.ups r).client).group ≠ none
  same : ∀ n id r, (id, r) ∈ (R.clients n).conns → R.Live r →
    (R.clients (R.ups r).client).group = (R.clients n).group
  unique : ∀ r r', R.Live r → R.Live r' → (R.ups r).client = (R.ups r').client →
    (R.ups r).id = (R.ups r').id → r = r'
  exclusive : ∀ r r', R.Live r → ((R.ups r).id, r') ∉ (R.clients (R.ups r).client).conns
  actions : ∀ n, ∀ a ∈ (R.clients n).actions, R.Proper n a
  delayed : ∀ e ∈ R.delayed, R.Due e
  locals : ∀ r n, n ∈ (R.ups r).locals ↔ ∃ id, (id, r) ∈ (R.clients n).conns
  localsNodup : ∀ r, (R.ups r).locals.Nodup

/-- A connection stays the one it is, and closed once it is. -/
structure Keeps (u u' : RtpUpConnection) : Prop where
  id : u'.id = u.id
  client : u'.client = u.client
  closed : u'.closed = false → u.closed = false
  locals : u'.locals = u.locals

/-- Nothing but queues, tracks and what is delayed has changed. -/
structure Kept (R R' : Routes) : Prop where
  groups : ∀ n, (R'.clients n).group = (R.clients n).group
  conns : ∀ n, (R'.clients n).conns = (R.clients n).conns
  rooms : R'.rooms = R.rooms
  fresh : R'.fresh = R.fresh
  ups : ∀ r, Keeps (R.ups r) (R'.ups r)
  actions : ∀ n, ∀ a ∈ (R'.clients n).actions, a ∈ (R.clients n).actions ∨ R'.Proper n a
  delayed : ∀ e ∈ R'.delayed, e ∈ R.delayed ∨ R'.Due e

end Definitions

section Keeping

variable {R R' S : Routes} {n k r g : ℕ} {id : String} {a : Action} {e : Delayed}

theorem Keeps.refl (u : RtpUpConnection) : Keeps u u := ⟨rfl, rfl, fun h => h, rfl⟩

theorem keeps_modifyUp {f : RtpUpConnection → RtpUpConnection} (h : Keeps (R.ups r) (f (R.ups r)))
    (k : ℕ) : Keeps (R.ups k) ((R.modifyUp r f).ups k) := by
  unfold Net.modifyUp
  by_cases hk : k = r
  · subst hk
    dsimp only
    rw [Function.update_self]
    exact h
  · dsimp only
    rw [Function.update_of_ne hk]
    exact .refl _

theorem Kept.live (h : Kept R R') (hr : R'.Live r) : R.Live r :=
  ⟨h.fresh ▸ hr.1, (h.ups r).closed hr.2⟩

theorem Kept.proper (h : Kept R R') (ha : R.Proper n a) : R'.Proper n a := by
  cases a with
  | pushConn g id conn tracks replace =>
      cases conn with
      | none => trivial
      | some r =>
          obtain ⟨hlt, hid, hne, hgroup⟩ := ha
          refine ⟨h.fresh ▸ hlt, hid.trans (h.ups r).id.symm, ?_, fun hlive => ?_⟩
          · rw [(h.ups r).client]
            exact hne
          · rw [(h.ups r).client, h.groups]
            exact hgroup (h.live hlive)
  | requestConns g target id => exact ha
  | connectionFailed id => trivial
  | permissionsChanged => trivial

theorem Kept.due (h : Kept R R') (he : R.Due e) : R'.Due e := by
  obtain ⟨hlt, hnot, hgroup⟩ := he
  refine ⟨h.fresh ▸ hlt, ?_, fun hlive => ?_⟩
  · rw [(h.ups e.up).client]
    exact hnot
  · rw [(h.ups e.up).client, h.groups]
    exact hgroup (h.live hlive)

theorem Founded.kept (hf : Founded R) (h : Kept R R') : Founded R' where
  member n g := by
    rw [h.rooms, h.groups]
    exact hf.member n g
  rooms g := h.rooms ▸ hf.rooms g
  ids n := by
    rw [h.conns]
    exact hf.ids n
  conns n id r hmem := by
    rw [h.conns] at hmem
    obtain ⟨hlt, hid, hne⟩ := hf.conns n id r hmem
    refine ⟨h.fresh ▸ hlt, hid.trans (h.ups r).id.symm, ?_⟩
    rw [(h.ups r).client]
    exact hne
  outside n hn := by
    rw [h.groups] at hn
    rw [h.conns]
    exact hf.outside n hn
  live r hr := by
    rw [(h.ups r).client, h.groups]
    exact hf.live r (h.live hr)
  same n id r hmem hr := by
    rw [h.conns] at hmem
    rw [(h.ups r).client, h.groups, h.groups]
    exact hf.same n id r hmem (h.live hr)
  unique r r' hr hr' hclient hid := by
    rw [(h.ups r).client, (h.ups r').client] at hclient
    rw [(h.ups r).id, (h.ups r').id] at hid
    exact hf.unique r r' (h.live hr) (h.live hr') hclient hid
  exclusive r r' hr := by
    rw [(h.ups r).id, (h.ups r).client, h.conns]
    exact hf.exclusive r r' (h.live hr)
  actions n a ha := (h.actions n a ha).elim (fun ha => h.proper (hf.actions n a ha)) fun ha => ha
  delayed e he := (h.delayed e he).elim (fun he => h.due (hf.delayed e he)) fun he => he
  locals r n := by
    rw [(h.ups r).locals, h.conns]
    exact hf.locals r n
  localsNodup r := by
    rw [(h.ups r).locals]
    exact hf.localsNodup r

theorem Kept.trans (h : Kept R R') (h' : Kept R' S) : Kept R S where
  groups n := (h'.groups n).trans (h.groups n)
  conns n := (h'.conns n).trans (h.conns n)
  rooms := h'.rooms.trans h.rooms
  fresh := h'.fresh.trans h.fresh
  ups r := ⟨(h'.ups r).id.trans (h.ups r).id, (h'.ups r).client.trans (h.ups r).client,
    fun hr => (h.ups r).closed ((h'.ups r).closed hr), (h'.ups r).locals.trans (h.ups r).locals⟩
  actions n a ha := (h'.actions n a ha).elim
    (fun ha => (h.actions n a ha).imp_right h'.proper) .inr
  delayed e he := (h'.delayed e he).elim (fun he => (h.delayed e he).imp_right h'.due) .inr

theorem Kept.refl (R : Routes) : Kept R R where
  groups _ := rfl
  conns _ := rfl
  rooms := rfl
  fresh := rfl
  ups _ := .refl _
  actions _ _ ha := .inl ha
  delayed _ he := .inl he

/-! ## Operations that keep the links -/

theorem kept_action {ks : List ℕ} (h : ∀ k ∈ ks, R.Proper k a) : Kept R (R.action ks a) where
  groups k := by
    unfold Net.action
    dsimp only
    split_ifs <;> rfl
  conns k := by
    unfold Net.action
    dsimp only
    split_ifs <;> rfl
  rooms := rfl
  fresh := rfl
  ups r := .refl _
  actions k b hb := by
    unfold Net.action at hb
    dsimp only at hb
    split_ifs at hb with hk
    · rcases List.mem_append.mp hb with hb | hb
      · exact .inl hb
      · rw [List.mem_singleton.mp hb]
        right
        have hproper := h k hk
        cases a with
        | pushConn g id conn tracks replace =>
            cases conn with
            | none => trivial
            | some r =>
                obtain ⟨hlt, hid, hne, hgroup⟩ := hproper
                refine ⟨hlt, hid, hne, fun hlive => (Eq.trans ?_ (hgroup hlive))⟩
                unfold Net.action
                dsimp only
                split_ifs <;> rfl
        | requestConns g target id => exact hproper
        | connectionFailed id => trivial
        | permissionsChanged => trivial
    · exact .inl hb
  delayed _ he := .inl he

theorem kept_modifyUp {f : RtpUpConnection → RtpUpConnection} (h : Keeps (R.ups r) (f (R.ups r))) :
    Kept R (R.modifyUp r f) where
  groups _ := rfl
  conns _ := rfl
  rooms := rfl
  fresh := rfl
  ups := keeps_modifyUp h
  actions _ _ ha := .inl ha
  delayed _ he := .inl he

/-- A client whose links and group stay as they are, with no new actions. -/
theorem kept_modify {f : Party → Party} (hgroup : (f (R.clients n)).group = (R.clients n).group)
    (hconns : (f (R.clients n)).conns = (R.clients n).conns)
    (hactions : ∀ a ∈ (f (R.clients n)).actions, a ∈ (R.clients n).actions) :
    Kept R (R.modify n f) := by
  have hcases (k : ℕ) : (R.modify n f).clients k = if k = n then f (R.clients n) else R.clients k := by
    unfold Net.modify
    dsimp only
    rw [Function.update_apply]
  refine ⟨fun k => ?_, fun k => ?_, rfl, rfl, fun r => .refl _, fun k a ha => .inl ?_, fun _ he => .inl he⟩
  · rw [hcases]
    split_ifs with hk
    · rw [hk, hgroup]
    · rfl
  · rw [hcases]
    split_ifs with hk
    · rw [hk, hconns]
    · rfl
  · rw [hcases] at ha
    split_ifs at ha with hk
    · rw [hk]
      exact hactions a ha
    · exact ha

theorem kept_take : Kept R (R.take n) :=
  kept_modify rfl rfl fun _ => List.mem_of_mem_tail

theorem conns_setLink {p : Party} {l l' : Link} (hl : p.link id = some l) (hids : (p.conns.map Prod.fst).Nodup)
    (h : l'.id = l.id ∧ l'.remote = l.remote) : (p.setLink l').conns = p.conns := by
  have hself := setLink_self hids hl
  unfold Party.setLink Party.conns at *
  dsimp only at *
  rw [List.map_map]
  conv_rhs => rw [← congrArg Party.links hself]
  dsimp only
  rw [List.map_map]
  refine List.map_congr_left fun l'' _ => ?_
  simp only [Function.comp_apply, h.1]
  split_ifs
  · rw [h.1, h.2]
  · rfl

theorem kept_setLink (hf : Founded R) {l l' : Link} (hl : (R.clients n).link id = some l)
    (h : l'.id = l.id ∧ l'.remote = l.remote) : Kept R (R.modify n (·.setLink l')) :=
  kept_modify rfl (conns_setLink hl (hf.ids n) h) fun _ ha => ha

theorem mem_getUpConns : r ∈ R.getUpConns n ↔ R.Live r ∧ (R.ups r).client = n := by
  unfold Net.getUpConns Net.Live
  rw [List.mem_filter, List.mem_range, decide_eq_true_eq]
  tauto

theorem getUpConn_some (h : R.getUpConn n id = some r) :
    R.Live r ∧ (R.ups r).client = n ∧ (R.ups r).id = id := by
  obtain ⟨hlive, hclient⟩ := mem_getUpConns.mp (List.mem_of_find?_eq_some h)
  exact ⟨hlive, hclient, by simpa using List.find?_some h⟩

theorem getUpConn_none (h : R.getUpConn n id = none) (hr : R.Live r) (hclient : (R.ups r).client = n) :
    (R.ups r).id ≠ id := by
  have hnot := List.find?_eq_none.mp h r (mem_getUpConns.mpr ⟨hr, hclient⟩)
  simpa using hnot

theorem mem_getClients : k ∈ R.getClients g n ↔ k ∈ R.rooms g ∧ k ≠ n := by
  unfold Net.getClients
  rw [List.mem_filter, decide_eq_true_eq]

theorem kept_close : Kept R (R.modifyUp r ({ · with closed := true })) :=
  kept_modifyUp ⟨rfl, rfl, nofun, rfl⟩

theorem kept_delUpConn {push : Bool} : Kept R (R.delUpConn n id push) := by
  unfold Net.delUpConn
  cases R.getUpConn n id with
  | none => exact .refl _
  | some r =>
      cases push with
      | false => exact kept_close
      | true =>
          cases hg : Peer.group (R.clients n) with
          | none => exact kept_close
          | some g => exact kept_close.trans (kept_action fun _ _ => trivial)

theorem kept_foldl {α : Type} {l : List α} {f : Routes → α → Routes} (h : ∀ R a, Kept R (f R a))
    (R : Routes) : Kept R (l.foldl f R) := by
  induction l generalizing R with
  | nil => exact .refl _
  | cons a l ih => exact (h R a).trans (ih _)

theorem kept_delUpConns {order : List ℕ} : Kept R (R.delUpConns n order) :=
  kept_foldl (fun _ _ => kept_delUpConn) R

theorem kept_supersede {replace : String} : Kept R (R.supersede n r replace) := by
  unfold Net.supersede
  split_ifs
  · exact (kept_modifyUp ⟨rfl, rfl, fun h => h, rfl⟩).trans kept_delUpConn
  · exact .refl _

theorem kept_requestConns {target : ℕ} {order : List ℕ} (hgroup : (R.clients n).group = some g)
    (htarget : target ≠ n) (horder : ∀ r ∈ order, R.Live r ∧ (R.ups r).client = n) :
    Kept R (R.requestConns target g id order) := by
  have hpush {S : Routes} (hk : Kept R S) (hups : S.ups = R.ups) {r : ℕ} (hr : r ∈ order) :
      Kept R (if id ≠ "" ∧ id ≠ (S.ups r).id then S
        else S.action [target] (.pushConn g (S.ups r).id (some r) (S.ups r).tracks (S.ups r).replace)) := by
    split_ifs
    · exact hk
    · obtain ⟨hlive, hclient⟩ := horder r hr
      refine hk.trans (kept_action fun k hmem => ⟨hk.fresh ▸ hlive.1, rfl, ?_, fun _ => ?_⟩)
      · rw [hups, hclient, List.mem_singleton.mp hmem]
        exact htarget.symm
      · rw [hups, hclient, hk.groups]
        exact hgroup
  unfold Net.requestConns
  suffices hall : ∀ l : List ℕ, (∀ r ∈ l, r ∈ order) → ∀ S : Routes, Kept R S → S.ups = R.ups →
      Kept R (l.foldl (fun w r =>
        if id ≠ "" ∧ id ≠ (w.ups r).id then w
        else w.action [target] (.pushConn g (w.ups r).id (some r) (w.ups r).tracks (w.ups r).replace)) S) from
    hall order (fun _ h => h) R (.refl R) rfl
  intro l
  induction l with
  | nil => exact fun _ S hk _ => hk
  | cons r l ih =>
      intro hl S hk hups
      refine ih (fun r hr => hl r (List.mem_cons_of_mem _ hr)) _ (hpush hk hups (hl r List.mem_cons_self)) ?_
      by_cases hskip : id ≠ "" ∧ id ≠ (S.ups r).id
      · exact (congrArg Net.ups (if_pos hskip)).trans hups
      · exact (congrArg Net.ups (if_neg hskip)).trans hups

theorem kept_pushConn (hr : r < R.fresh) : Kept R (R.pushConn r) := by
  cases hg : Peer.group (R.clients (R.ups r).client) with
  | none =>
      rw [pushConn_of_none hg]
      exact .refl _
  | some g =>
      rw [pushConn_of_some hg]
      have hkeeps : Keeps (R.ups r) { R.ups r with pushed := false } := ⟨rfl, rfl, fun h => h, rfl⟩
      have hkept := kept_modifyUp (R := R) (f := ({ · with pushed := false })) hkeeps
      refine ⟨hkept.groups, hkept.conns, rfl, rfl, hkept.ups, hkept.actions, fun e he => ?_⟩
      rcases List.mem_append.mp he with he | he
      · exact .inl he
      · rw [List.mem_singleton.mp he]
        refine .inr ⟨hr, ?_, fun _ => ?_⟩
        · rw [(hkept.ups r).client]
          exact fun hmem => (mem_getClients.mp hmem).2 rfl
        · rw [(hkept.ups r).client]
          exact hg

theorem kept_pushConnNow (he : R.Due e) : Kept R (R.pushConnNow e) := by
  unfold Net.pushConnNow
  have hkeeps : Keeps (R.ups e.up) { R.ups e.up with pushed := true, replace := "" } :=
    ⟨rfl, rfl, fun h => h, rfl⟩
  have hkept := kept_modifyUp (R := R) (f := ({ · with pushed := true, replace := "" })) hkeeps
  obtain ⟨hlt, hnot, hgroup⟩ := hkept.due he
  refine hkept.trans (kept_action fun k hk => ⟨hlt, (hkept.ups e.up).id.symm, ?_, hgroup⟩)
  exact fun hclient => hnot (hclient ▸ hk)

end Keeping

section Changing

variable {R S : Routes} {n k r g : ℕ} {id : String}

theorem clients_modify (R : Routes) (n : ℕ) (f : Party → Party) (k : ℕ) :
    (R.modify n f).clients k = if k = n then f (R.clients n) else R.clients k := by
  unfold Net.modify
  dsimp only
  rw [Function.update_apply]

theorem ups_modifyUp (R : Routes) (r : ℕ) (f : RtpUpConnection → RtpUpConnection) (k : ℕ) :
    (R.modifyUp r f).ups k = if k = r then f (R.ups r) else R.ups k := by
  unfold Net.modifyUp
  dsimp only
  rw [Function.update_apply]

theorem mem_conns_of_link {p : Party} {l : Link} (h : p.link id = some l) : (id, l.remote) ∈ p.conns := by
  have hmem : (l.id, l.remote) ∈ p.conns :=
    List.mem_map_of_mem (f := fun l : Link => (l.id, l.remote)) (List.mem_of_find?_eq_some h)
  rw [link_id h] at hmem
  exact hmem

theorem not_mem_conns_of_link {p : Party} (h : p.link id = none) (r : ℕ) : (id, r) ∉ p.conns := by
  intro hmem
  obtain ⟨l, hl, heq⟩ := List.mem_map.mp hmem
  have hne := List.find?_eq_none.mp h l hl
  exact hne (decide_eq_true (Prod.mk.inj heq).1)

theorem Founded.remote_eq (hf : Founded R) {r' : ℕ} (h : (id, r) ∈ (R.clients n).conns)
    (h' : (id, r') ∈ (R.clients n).conns) : r = r' :=
  (Prod.mk.inj (List.inj_on_of_nodup_map (hf.ids n) h h' rfl)).2

theorem getUpConn_eq_none : R.getUpConn n id = none ↔
    ∀ r, R.Live r → (R.ups r).client = n → (R.ups r).id ≠ id := by
  constructor
  · exact fun h r hr hclient => getUpConn_none h hr hclient
  · intro h
    refine List.find?_eq_none.mpr fun r hr => ?_
    obtain ⟨hlive, hclient⟩ := mem_getUpConns.mp hr
    have hne := h r hlive hclient
    simpa using hne

/-- Nothing but links has changed. -/
structure Relinked (R R' : Routes) : Prop where
  groups : ∀ n, (R'.clients n).group = (R.clients n).group
  actions : ∀ n, (R'.clients n).actions = (R.clients n).actions
  rooms : R'.rooms = R.rooms
  fresh : R'.fresh = R.fresh
  ups : ∀ r, (R'.ups r).id = (R.ups r).id ∧ (R'.ups r).closed = (R.ups r).closed ∧
    (R'.ups r).client = (R.ups r).client
  delayed : R'.delayed = R.delayed

/-- A client may have a down connection of this one. -/
structure Net.Joins (R : Routes) (n r : ℕ) : Prop where
  fresh : r < R.fresh
  other : (R.ups r).client ≠ n
  none : R.getUpConn n (R.ups r).id = none
  inside : (R.clients n).group ≠ Option.none
  same : R.Live r → (R.clients (R.ups r).client).group = (R.clients n).group

theorem Relinked.refl (R : Routes) : Relinked R R :=
  ⟨fun _ => rfl, fun _ => rfl, rfl, rfl, fun _ => ⟨rfl, rfl, rfl⟩, rfl⟩

theorem Relinked.trans {R' : Routes} (h : Relinked R R') (h' : Relinked R' S) : Relinked R S where
  groups n := (h'.groups n).trans (h.groups n)
  actions n := (h'.actions n).trans (h.actions n)
  rooms := h'.rooms.trans h.rooms
  fresh := h'.fresh.trans h.fresh
  ups r := ⟨(h'.ups r).1.trans (h.ups r).1, (h'.ups r).2.1.trans (h.ups r).2.1,
    (h'.ups r).2.2.trans (h.ups r).2.2⟩
  delayed := h'.delayed.trans h.delayed

theorem Relinked.live {R' : Routes} (h : Relinked R R') : R'.Live r ↔ R.Live r := by
  unfold Net.Live
  rw [h.fresh, (h.ups r).2.1]

theorem Relinked.proper {R' : Routes} {a : Action} (h : Relinked R R') (ha : R.Proper n a) :
    R'.Proper n a := by
  cases a with
  | pushConn g i conn tracks replace =>
      cases conn with
      | none => trivial
      | some r =>
          obtain ⟨hlt, hid, hne, hg⟩ := ha
          refine ⟨h.fresh ▸ hlt, hid.trans (h.ups r).1.symm, ?_, fun hr => ?_⟩
          · rw [(h.ups r).2.2]
            exact hne
          · rw [(h.ups r).2.2, h.groups]
            exact hg (h.live.mp hr)
  | requestConns g target i => exact ha
  | connectionFailed i => trivial
  | permissionsChanged => trivial

theorem Founded.relinked {R' : Routes} (hf : Founded R) (h : Relinked R R')
    (hids : ∀ k, ((R'.clients k).conns.map Prod.fst).Nodup)
    (hconns : ∀ k i r, (i, r) ∈ (R'.clients k).conns →
      (i, r) ∈ (R.clients k).conns ∨ (i = (R.ups r).id ∧ R.Joins k r))
    (hlocals : ∀ r k, k ∈ (R'.ups r).locals ↔ ∃ i, (i, r) ∈ (R'.clients k).conns)
    (hnodup : ∀ r, (R'.ups r).locals.Nodup) : Founded R' where
  member n g := by
    rw [h.rooms, h.groups]
    exact hf.member n g
  rooms g := h.rooms ▸ hf.rooms g
  ids := hids
  conns k i r hmem := by
    rw [h.fresh, (h.ups r).1, (h.ups r).2.2]
    rcases hconns k i r hmem with hold | ⟨hid, hjoins⟩
    · exact hf.conns k i r hold
    · exact ⟨hjoins.fresh, hid, hjoins.other⟩
  outside k hk := by
    rw [h.groups] at hk
    refine List.eq_nil_iff_forall_not_mem.mpr fun ⟨i, r⟩ hp => ?_
    rcases hconns k i r hp with hold | ⟨-, hjoins⟩
    · rw [hf.outside k hk] at hold
      cases hold
    · exact hjoins.inside hk
  live r hr := by
    rw [(h.ups r).2.2, h.groups]
    exact hf.live r (h.live.mp hr)
  same k i r hmem hr := by
    rw [(h.ups r).2.2, h.groups, h.groups]
    rcases hconns k i r hmem with hold | ⟨-, hjoins⟩
    · exact hf.same k i r hold (h.live.mp hr)
    · exact hjoins.same (h.live.mp hr)
  unique r r' hr hr' hclient hid := by
    rw [(h.ups r).2.2, (h.ups r').2.2] at hclient
    rw [(h.ups r).1, (h.ups r').1] at hid
    exact hf.unique r r' (h.live.mp hr) (h.live.mp hr') hclient hid
  exclusive r r' hr hmem := by
    rw [(h.ups r).1, (h.ups r).2.2] at hmem
    rcases hconns _ _ _ hmem with hold | ⟨hid, hjoins⟩
    · exact hf.exclusive r r' (h.live.mp hr) hold
    · exact getUpConn_none hjoins.none (h.live.mp hr) rfl hid
  actions k a ha := h.proper (hf.actions k a (h.actions k ▸ ha))
  delayed e he := by
    obtain ⟨hlt, hnot, hg⟩ := hf.delayed e (h.delayed ▸ he)
    refine ⟨h.fresh ▸ hlt, ?_, fun hr => ?_⟩
    · rw [(h.ups e.up).2.2]
      exact hnot
    · rw [(h.ups e.up).2.2, h.groups]
      exact hg (h.live.mp hr)
  locals := hlocals
  localsNodup := hnodup

/-! ## Links that go -/

theorem cut_of_some {l : Link} (hl : (R.clients n).link id = some l) :
    R.cut n id = (R.modifyUp l.remote fun u => { u with locals := u.locals.erase n }).modify n
      fun p => { p with links := p.links.filter (·.id ≠ id) } := by
  rw [Net.cut, hl]

theorem clients_cut (k : ℕ) : (R.cut n id).clients k = if k = n then
    { R.clients n with links := (R.clients n).links.filter (·.id ≠ id) } else R.clients k := by
  cases hl : (R.clients n).link id with
  | none =>
      rw [cut_of_none hl]
      split_ifs with hk
      · subst hk
        have hall : (R.clients k).links.filter (·.id ≠ id) = (R.clients k).links := by
          rw [List.filter_eq_self]
          intro l hmem
          have hne := List.find?_eq_none.mp hl l hmem
          simpa using hne
        rw [hall]
      · rfl
  | some l =>
      rw [cut_of_some hl]
      exact clients_modify ..

theorem conns_cut (k : ℕ) (p : String × ℕ) : p ∈ ((R.cut n id).clients k).conns ↔
    p ∈ (R.clients k).conns ∧ (k = n → p.1 ≠ id) := by
  rw [clients_cut]
  split_ifs with hk
  · subst hk
    unfold Party.conns
    dsimp only
    rw [List.mem_map, List.mem_map]
    constructor
    · rintro ⟨l', hl', rfl⟩
      obtain ⟨hl', hne⟩ := List.mem_filter.mp hl'
      exact ⟨⟨l', hl', rfl⟩, fun _ => of_decide_eq_true hne⟩
    · rintro ⟨⟨l', hl', rfl⟩, hne⟩
      exact ⟨l', List.mem_filter.mpr ⟨hl', decide_eq_true (hne rfl)⟩, rfl⟩
  · exact ⟨fun h => ⟨h, fun h' => absurd h' hk⟩, fun h => h.1⟩

theorem relinked_cut : Relinked R (R.cut n id) where
  groups k := by
    rw [clients_cut]
    split_ifs with hk
    · rw [hk]
    · rfl
  actions k := by
    rw [clients_cut]
    split_ifs with hk
    · rw [hk]
    · rfl
  rooms := by
    unfold Net.cut
    cases (R.clients n).link id <;> rfl
  fresh := by
    unfold Net.cut
    cases (R.clients n).link id <;> rfl
  ups := ups_cut
  delayed := by
    unfold Net.cut
    cases (R.clients n).link id <;> rfl

/-- A down connection is deleted. -/
theorem Founded.cut (hf : Founded R) (n : ℕ) (id : String) : Founded (R.cut n id) := by
  cases hl : (R.clients n).link id with
  | none =>
      rw [cut_of_none hl]
      exact hf
  | some l =>
      have hpair := mem_conns_of_link hl
      have hlocals (k : ℕ) : ((R.cut n id).ups k).locals =
          if k = l.remote then (R.ups k).locals.erase n else (R.ups k).locals := by
        rw [cut_of_some hl]
        refine (congrArg RtpUpConnection.locals
          (ups_modifyUp R l.remote (fun u => { u with locals := u.locals.erase n }) k)).trans ?_
        split_ifs with hk
        · rw [hk]
        · rfl
      refine hf.relinked relinked_cut (fun k => ?_) (fun k i r h => .inl ((conns_cut k _).mp h).1)
        (fun r k => ?_) fun r => ?_
      · rw [clients_cut]
        split_ifs with hk
        · subst hk
          exact (hf.ids k).sublist (List.Sublist.map _ (List.Sublist.map _ List.filter_sublist))
        · exact hf.ids k
      · have hold := hf.locals r k
        rw [hlocals]
        constructor
        · intro hmem
          split_ifs at hmem with hr
          · obtain ⟨hne, hmem⟩ := (List.Nodup.mem_erase_iff (hf.localsNodup r)).mp hmem
            obtain ⟨i, hi⟩ := hold.mp hmem
            exact ⟨i, (conns_cut k _).mpr ⟨hi, fun h => absurd h hne⟩⟩
          · obtain ⟨i, hi⟩ := hold.mp hmem
            refine ⟨i, (conns_cut k _).mpr ⟨hi, fun h hid => hr ?_⟩⟩
            subst h
            exact hf.remote_eq hi ((show i = id from hid) ▸ hpair)
        · rintro ⟨i, hi⟩
          obtain ⟨hi, hne⟩ := (conns_cut k _).mp hi
          have hmem := hold.mpr ⟨i, hi⟩
          split_ifs with hr
          · refine (List.Nodup.mem_erase_iff (hf.localsNodup r)).mpr ⟨fun h => hne h ?_, hmem⟩
            -- the one connection that it has a link to has the id that goes
            rw [(hf.conns k i r hi).2.1, hr, ← (hf.conns n id _ hpair).2.1]
          · exact hmem
      · rw [hlocals]
        split_ifs
        · exact (hf.localsNodup r).erase n
        · exact hf.localsNodup r

theorem Founded.cutReplaced (hf : Founded R) (n : ℕ) (replace : String) :
    Founded (R.cutReplaced n replace) := by
  unfold Net.cutReplaced
  split_ifs
  · exact hf.cut n replace
  · exact hf

theorem Founded.cuts (hf : Founded R) (n : ℕ) (ids : List String) :
    Founded (ids.foldl (fun R id => R.cut n id) R) ∧
      Relinked R (ids.foldl (fun R id => R.cut n id) R) ∧
      ∀ k p, p ∈ ((ids.foldl (fun R id => R.cut n id) R).clients k).conns ↔
        p ∈ (R.clients k).conns ∧ (k = n → p.1 ∉ ids) := by
  induction ids generalizing R with
  | nil => exact ⟨hf, .refl R, fun k p => ⟨fun h => ⟨h, fun _ => List.not_mem_nil⟩, fun h => h.1⟩⟩
  | cons id ids ih =>
      obtain ⟨hfounded, hrelinked, hconns⟩ := ih (hf.cut n id)
      refine ⟨hfounded, relinked_cut.trans hrelinked, fun k p => ?_⟩
      rw [List.foldl_cons, hconns, conns_cut, List.mem_cons, and_assoc]
      tauto

/-! ## Links that come -/

theorem clients_attach {tracks : List RtpUpTrack} (k : ℕ) : (R.attach n r tracks).clients k =
    if k = n then { R.clients n with
      links := (R.clients n).links ++ [{ id := (R.ups r).id, remote := r, tracks }] }
    else R.clients k := clients_modify ..

theorem ups_attach {tracks : List RtpUpTrack} (k : ℕ) : (R.attach n r tracks).ups k =
    if k = r then if n ∈ (R.ups r).locals then R.ups r
      else { R.ups r with locals := (R.ups r).locals ++ [n] }
    else R.ups k :=
  ups_modifyUp R r (fun u => if n ∈ u.locals then u else { u with locals := u.locals ++ [n] }) k

theorem conns_attach {tracks : List RtpUpTrack} (k : ℕ) (p : String × ℕ) :
    p ∈ ((R.attach n r tracks).clients k).conns ↔
      p ∈ (R.clients k).conns ∨ (k = n ∧ p = ((R.ups r).id, r)) := by
  rw [clients_attach]
  split_ifs with hk
  · subst hk
    unfold Party.conns
    dsimp only
    rw [List.map_append, List.mem_append, List.map_singleton, List.mem_singleton]
    tauto
  · tauto

theorem relinked_attach {tracks : List RtpUpTrack} : Relinked R (R.attach n r tracks) where
  groups k := by
    rw [clients_attach]
    split_ifs with hk
    · rw [hk]
    · rfl
  actions k := by
    rw [clients_attach]
    split_ifs with hk
    · rw [hk]
    · rfl
  rooms := rfl
  fresh := rfl
  ups k := by
    rw [ups_attach]
    split_ifs with hk
    · rw [hk]
      exact ⟨rfl, rfl, rfl⟩
    · rw [hk]
      exact ⟨rfl, rfl, rfl⟩
    · exact ⟨rfl, rfl, rfl⟩
  delayed := rfl

/-- A down connection is made. -/
theorem Founded.attach {tracks : List RtpUpTrack} (hf : Founded R) (hjoins : R.Joins n r)
    (hlink : (R.clients n).link (R.ups r).id = none) : Founded (R.attach n r tracks) := by
  have hnone : n ∉ (R.ups r).locals := by
    intro hmem
    obtain ⟨i, hi⟩ := (hf.locals r n).mp hmem
    rw [(hf.conns n i r hi).2.1] at hi
    exact not_mem_conns_of_link hlink r hi
  have hlocals (k : ℕ) : ((R.attach n r tracks).ups k).locals =
      if k = r then (R.ups r).locals ++ [n] else (R.ups k).locals := by
    rw [ups_attach, if_neg hnone]
    split_ifs <;> rfl
  refine hf.relinked relinked_attach (fun k => ?_) (fun k i r' h => ?_) (fun r' k => ?_) fun r' => ?_
  · rw [clients_attach]
    split_ifs with hk
    · subst hk
      unfold Party.conns
      dsimp only
      rw [List.map_append, List.map_append]
      refine (hf.ids k).append (List.nodup_singleton _) fun i hi hnew => ?_
      obtain ⟨⟨i', r'⟩, hmem, rfl⟩ := List.mem_map.mp hi
      have hid : i' = (R.ups r).id := List.mem_singleton.mp hnew
      exact not_mem_conns_of_link hlink r' (hid ▸ hmem)
    · exact hf.ids k
  · rcases (conns_attach k _).mp h with hold | ⟨rfl, heq⟩
    · exact .inl hold
    · obtain ⟨rfl, rfl⟩ := Prod.mk.inj heq
      exact .inr ⟨rfl, hjoins⟩
  · rw [hlocals]
    split_ifs with hr
    · subst hr
      rw [List.mem_append, List.mem_singleton, hf.locals]
      constructor
      · rintro (⟨i, hi⟩ | rfl)
        · exact ⟨i, (conns_attach k _).mpr (.inl hi)⟩
        · exact ⟨_, (conns_attach k _).mpr (.inr ⟨rfl, rfl⟩)⟩
      · rintro ⟨i, hi⟩
        rcases (conns_attach k _).mp hi with hold | ⟨rfl, -⟩
        · exact .inl ⟨i, hold⟩
        · exact .inr rfl
    · rw [hf.locals]
      refine exists_congr fun i => ?_
      rw [conns_attach]
      constructor
      · exact .inl
      · rintro (hold | ⟨-, heq⟩)
        · exact hold
        · exact absurd (Prod.mk.inj heq).2 hr
  · rw [hlocals]
    split_ifs with hr
    · refine (hf.localsNodup r).append (List.nodup_singleton n) fun k hk hnew => ?_
      exact hnone (List.mem_singleton.mp hnew ▸ hk)
    · exact hf.localsNodup r'

end Changing

section Grouping

variable {R S : Routes} {n k r g : ℕ} {id : String} {order : List ℕ}

/-- A client that has no connections changes its group. -/
theorem Founded.regroup {f : Party → Party} {rooms : ℕ → List ℕ} (hf : Founded R)
    (hups : ∀ r, R.Live r → (R.ups r).client ≠ n) (hold : (R.clients n).conns = [])
    (hconns : (f (R.clients n)).conns = []) (hactions : (f (R.clients n)).actions = (R.clients n).actions)
    (hrooms : ∀ k g, k ∈ rooms g ↔ ((R.modify n f).clients k).group = some g)
    (hnodup : ∀ g, (rooms g).Nodup) : Founded { R.modify n f with rooms } := by
  have hclients (k : ℕ) : (R.modify n f).clients k = if k = n then f (R.clients n) else R.clients k :=
    clients_modify ..
  have hother {k : ℕ} (hk : k ≠ n) : (R.modify n f).clients k = R.clients k := by
    rw [hclients, if_neg hk]
  have hsame (k : ℕ) : ((R.modify n f).clients k).conns = (R.clients k).conns := by
    by_cases hk : k = n
    · rw [hclients, if_pos hk, hk, hconns, hold]
    · rw [hother hk]
  have hgroup {r : ℕ} (hr : R.Live r) : ((R.modify n f).clients (R.ups r).client).group =
      (R.clients (R.ups r).client).group := by
    rw [hother (hups r hr)]
  exact {
    member := hrooms
    rooms := hnodup
    ids := fun k => (hsame k).symm ▸ hf.ids k
    conns := fun k i r hmem => hf.conns k i r (hsame k ▸ hmem)
    outside := fun k hk => by
      refine (hsame k).trans ?_
      by_cases hn : k = n
      · rw [hn, hold]
      · exact hf.outside k (hother hn ▸ hk)
    live := fun r hr => (hgroup hr).symm ▸ hf.live r hr
    same := fun k i r hmem hr => by
      have hk : k ≠ n := by
        rintro rfl
        rw [show _ = (R.clients k).conns from hsame k, hold] at hmem
        cases hmem
      refine (hgroup hr).trans ?_
      change _ = ((R.modify n f).clients k).group
      rw [hother hk]
      exact hf.same k i r (hsame k ▸ hmem) hr
    unique := hf.unique
    exclusive := fun r r' hr hmem => hf.exclusive r r' hr (hsame _ ▸ hmem)
    actions := fun k a ha => by
      have hmem : a ∈ (R.clients k).actions := by
        by_cases hk : k = n
        · subst hk
          rw [show _ = f (R.clients k) from (hclients k).trans (if_pos rfl), hactions] at ha
          exact ha
        · exact hother hk ▸ ha
      have hproper := hf.actions k a hmem
      cases a with
      | pushConn g i conn tracks replace =>
          cases conn with
          | none => trivial
          | some r =>
              obtain ⟨hlt, hid, hne, hg⟩ := hproper
              exact ⟨hlt, hid, hne, fun hr => (hgroup hr).trans (hg hr)⟩
      | requestConns g target i => exact hproper
      | connectionFailed i => trivial
      | permissionsChanged => trivial
    delayed := fun e he => by
      obtain ⟨hlt, hnot, hg⟩ := hf.delayed e he
      exact ⟨hlt, hnot, fun hr => (hgroup hr).trans (hg hr)⟩
    locals := fun r k => (hf.locals r k).trans (exists_congr fun i => (hsame k).symm ▸ Iff.rfl)
    localsNodup := hf.localsNodup }

theorem Founded.enter (hf : Founded R) (hn : (R.clients n).group = none) : Founded (R.enter n g) := by
  have hclients (k : ℕ) : (R.modify n fun p => { p with group := some g }).clients k =
      if k = n then { R.clients n with group := some g } else R.clients k := clients_modify ..
  refine hf.regroup (fun r hr hclient => hf.live r hr (hclient ▸ hn)) (hf.outside n hn)
    (hf.outside n hn) rfl (fun k g' => ?_) fun g' => ?_
  · rw [hclients, Function.update_apply]
    have hmember := hf.member k g'
    by_cases hk : k = n
    · subst hk
      rw [hn] at hmember
      rw [if_pos rfl]
      split_ifs with hg
      · subst hg
        simp
      · rw [hmember]
        exact ⟨fun h => (by cases h), fun h => absurd (Option.some.inj h).symm hg⟩
    · rw [if_neg hk, ← hmember]
      split_ifs with hg
      · subst hg
        simp [hk]
      · rfl
  · rw [Function.update_apply]
    split_ifs with hg
    · refine (hf.rooms g).append (List.nodup_singleton n) fun k hk hnew => ?_
      rw [List.mem_singleton.mp hnew, hf.member, hn] at hk
      cases hk
    · exact hf.rooms g'

theorem Founded.exit (hf : Founded R) (hn : (R.clients n).group = some g)
    (hups : ∀ r, R.Live r → (R.ups r).client ≠ n) : Founded (R.exit n g) := by
  obtain ⟨hleft, hrelinked, hconns⟩ := hf.cuts n ((R.clients n).links.map (·.id))
  have hempty : ((((R.clients n).links.map (·.id)).foldl (fun R id => R.cut n id) R).clients n).conns
      = [] := by
    refine List.eq_nil_iff_forall_not_mem.mpr fun p hp => ?_
    obtain ⟨hp, hnot⟩ := (hconns n p).mp hp
    obtain ⟨l, hl, rfl⟩ := List.mem_map.mp hp
    exact hnot rfl (List.mem_map_of_mem hl)
  unfold Net.exit
  generalize hS : ((R.clients n).links.map (·.id)).foldl (fun R id => R.cut n id) R = S at *
  have hgone : (S.clients n).group = some g := (hrelinked.groups n).trans hn
  refine hleft.regroup (fun r hr => ?_) hempty hempty rfl (fun k g' => ?_) fun g' => ?_
  · rw [(hrelinked.ups r).2.2]
    exact hups r (hrelinked.live.mp hr)
  · rw [clients_modify, Function.update_apply]
    have hmember := hleft.member k g'
    by_cases hk : k = n
    · subst hk
      rw [hgone] at hmember
      rw [if_pos rfl]
      have hmem : k ∉ if g' = g then (S.rooms g).erase k else S.rooms g' := by
        split_ifs with hg
        · exact List.Nodup.not_mem_erase (hleft.rooms g)
        · rw [hmember]
          exact fun h => hg (Option.some.inj h).symm
      exact ⟨fun h => absurd h hmem, fun h => (by cases h)⟩
    · rw [if_neg hk, ← hmember]
      split_ifs with hg
      · subst hg
        exact List.mem_erase_of_ne hk
      · rfl
  · rw [Function.update_apply]
    split_ifs with hg
    · exact (hleft.rooms g).erase n
    · exact hleft.rooms g'

/-- A connection that has been deleted is closed. -/
theorem delUpConn_closes {push : Bool} (hf : Founded R) (hclient : (R.ups r).client = n) :
    ¬ (R.delUpConn n (R.ups r).id push).Live r := by
  intro hlive
  have hr := (kept_delUpConn (R := R)).live hlive
  unfold Net.delUpConn at hlive
  cases hfound : R.getUpConn n (R.ups r).id with
  | none => exact getUpConn_none hfound hr hclient rfl
  | some r' =>
      obtain ⟨hr', hclient', hid⟩ := getUpConn_some hfound
      have heq := hf.unique r' r hr' hr (hclient'.trans hclient.symm) hid
      subst heq
      have hclosed : ((R.modifyUp r' ({ · with closed := true })).ups r').closed = true := by
        rw [ups_modifyUp, if_pos rfl]
      rw [hfound] at hlive
      dsimp only at hlive
      split at hlive
      · exact absurd (hclosed.symm.trans hlive.2) (by decide)
      · exact absurd (hclosed.symm.trans hlive.2) (by decide)

theorem delUpConns_closes (hf : Founded R) (horder : ∀ r ∈ order, (R.ups r).client = n) (hr : r ∈ order) :
    ¬ (R.delUpConns n order).Live r := by
  unfold Net.delUpConns
  induction order generalizing R with
  | nil => cases hr
  | cons r' order ih =>
      rw [List.foldl_cons]
      have hkept : Kept R (R.delUpConn n (R.ups r').id true) := kept_delUpConn
      rcases List.mem_cons.mp hr with rfl | hr
      · intro hlive
        exact delUpConn_closes hf (horder r List.mem_cons_self)
          ((@kept_delUpConns (R.delUpConn n (R.ups r).id true) n order).live hlive)
      · refine ih (hf.kept hkept) (fun k hk => ?_) hr
        rw [(hkept.ups k).client]
        exact horder k (List.mem_cons_of_mem _ hk)

/-- A client that goes closes all that it publishes. -/
theorem delUpConns_all (hf : Founded R) (horder : order.Perm (R.getUpConns n))
    (hr : (R.delUpConns n order).Live r) : ((R.delUpConns n order).ups r).client ≠ n := by
  intro hclient
  have hkept : Kept R (R.delUpConns n order) := kept_delUpConns
  rw [(hkept.ups r).client] at hclient
  refine delUpConns_closes hf (fun k hk => ?_) ?_ hr
  · exact (mem_getUpConns.mp (horder.mem_iff.mp hk)).2
  · exact horder.mem_iff.mpr (mem_getUpConns.mpr ⟨hkept.live hr, hclient⟩)

theorem Founded.leave (hf : Founded R) (horder : order.Perm (R.getUpConns n)) :
    Founded (R.leave n order) := by
  unfold Net.leave
  cases hn : (R.clients n).group with
  | none => exact hf
  | some g =>
      have hkept : Kept R (R.delUpConns n order) := kept_delUpConns
      exact (hf.kept hkept).exit ((hkept.groups n).trans hn) fun r hr => delUpConns_all hf horder hr

/-- A connection that has not been pushed yet. -/
theorem Founded.alloc {label : String} (hf : Founded R) (hn : (R.clients n).group ≠ none)
    (hlink : (R.clients n).link id = none) (hnone : R.getUpConn n id = none) :
    Founded { R.modifyUp R.fresh fun _ => { id, client := n, label } with fresh := R.fresh + 1 } := by
  generalize hS : { R.modifyUp R.fresh fun _ => { id, client := n, label } with
    fresh := R.fresh + 1 } = S
  have hclients : S.clients = R.clients := by rw [← hS]; rfl
  have hrooms : S.rooms = R.rooms := by rw [← hS]; rfl
  have hdelayed : S.delayed = R.delayed := by rw [← hS]; rfl
  have hfresh : S.fresh = R.fresh + 1 := by rw [← hS]
  have hold {r : ℕ} (hr : r < R.fresh) : S.ups r = R.ups r := by
    rw [← hS]
    exact (ups_modifyUp R R.fresh (fun _ => { id, client := n, label }) r).trans (if_neg (Nat.ne_of_lt hr))
  have hnew : S.ups R.fresh = { id, client := n, label } := by
    rw [← hS]
    exact (ups_modifyUp R R.fresh (fun _ => { id, client := n, label }) R.fresh).trans (if_pos rfl)
  have hcases {r : ℕ} (hr : S.Live r) : (r < R.fresh ∧ R.Live r) ∨ r = R.fresh := by
    rcases Nat.lt_or_eq_of_le (Nat.lt_succ_iff.mp (hfresh ▸ hr.1)) with hlt | heq
    · exact .inl ⟨hlt, hlt, hold hlt ▸ hr.2⟩
    · exact .inr heq
  have hlive {r : ℕ} (hlt : r < R.fresh) (hr : S.Live r) : R.Live r := ⟨hlt, hold hlt ▸ hr.2⟩
  have hdiffer {r : ℕ} (hr : R.Live r) (hclient : (R.ups r).client = n) : (R.ups r).id ≠ id :=
    getUpConn_none hnone hr hclient
  exact {
    member := by rw [hrooms, hclients]; exact hf.member
    rooms := by rw [hrooms]; exact hf.rooms
    ids := by rw [hclients]; exact hf.ids
    conns := fun k i r hmem => by
      rw [hclients] at hmem
      obtain ⟨hlt, hid, hne⟩ := hf.conns k i r hmem
      rw [hold hlt, hfresh]
      exact ⟨Nat.lt_succ_of_lt hlt, hid, hne⟩
    outside := by rw [hclients]; exact hf.outside
    live := fun r hr => by
      rw [hclients]
      rcases hcases hr with ⟨hlt, hr⟩ | rfl
      · rw [hold hlt]
        exact hf.live r hr
      · rw [hnew]
        exact hn
    same := fun k i r hmem hr => by
      rw [hclients] at hmem ⊢
      have hlt := (hf.conns k i r hmem).1
      rw [hold hlt]
      exact hf.same k i r hmem (hlive hlt hr)
    unique := fun r r' hr hr' hclient hid => by
      rcases hcases hr with ⟨hlt, hr⟩ | rfl
      · rcases hcases hr' with ⟨hlt', hr'⟩ | rfl
        · rw [hold hlt, hold hlt'] at hclient hid
          exact hf.unique r r' hr hr' hclient hid
        · rw [hold hlt, hnew] at hclient hid
          exact absurd hid (hdiffer hr hclient)
      · rcases hcases hr' with ⟨hlt', hr'⟩ | rfl
        · rw [hold hlt', hnew] at hclient hid
          exact absurd hid.symm (hdiffer hr' hclient.symm)
        · rfl
    exclusive := fun r r' hr => by
      rw [hclients]
      rcases hcases hr with ⟨hlt, hr⟩ | rfl
      · rw [hold hlt]
        exact hf.exclusive r r' hr
      · rw [hnew]
        exact not_mem_conns_of_link hlink r'
    actions := fun k a ha => by
      rw [hclients] at ha
      have hproper := hf.actions k a ha
      cases a with
      | pushConn g i conn tracks replace =>
          cases conn with
          | none => trivial
          | some r =>
              obtain ⟨hlt, hid, hne, hg⟩ := hproper
              refine ⟨hfresh ▸ Nat.lt_succ_of_lt hlt, ?_, ?_, fun hr => ?_⟩
              · rw [hold hlt]
                exact hid
              · rw [hold hlt]
                exact hne
              · rw [hclients, hold hlt]
                exact hg (hlive hlt hr)
      | requestConns g target i => exact hproper
      | connectionFailed i => trivial
      | permissionsChanged => trivial
    delayed := fun e he => by
      obtain ⟨hlt, hnot, hg⟩ := hf.delayed e (hdelayed ▸ he)
      refine ⟨hfresh ▸ Nat.lt_succ_of_lt hlt, ?_, fun hr => ?_⟩
      · rw [hold hlt]
        exact hnot
      · rw [hclients, hold hlt]
        exact hg (hlive hlt hr)
    locals := fun r k => by
      rw [hclients]
      by_cases hr : r = R.fresh
      · subst hr
        rw [hnew]
        exact ⟨fun h => (by cases h), fun ⟨i, hi⟩ => absurd (hf.conns k i _ hi).1 (Nat.lt_irrefl _)⟩
      · have hups : S.ups r = R.ups r := by
          rw [← hS]
          exact (ups_modifyUp R R.fresh (fun _ => { id, client := n, label }) r).trans (if_neg hr)
        rw [hups]
        exact hf.locals r k
    localsNodup := fun r => by
      by_cases hr : r = R.fresh
      · subst hr
        rw [hnew]
        exact List.nodup_nil
      · have hups : S.ups r = R.ups r := by
          rw [← hS]
          exact (ups_modifyUp R R.fresh (fun _ => { id, client := n, label }) r).trans (if_neg hr)
        rw [hups]
        exact hf.localsNodup r }

theorem Founded.newUpConn {label : String} (hf : Founded R) (hn : (R.clients n).group ≠ none)
    (hlink : (R.clients n).link id = none) (hnone : R.getUpConn n id = none) :
    Founded (R.newUpConn n id label) :=
  (hf.alloc hn hlink hnone).kept (kept_pushConn (Nat.lt_succ_self _))

end Grouping

section Steps

variable {R S : Routes} {n k r g : ℕ} {id replace : String} {l : Label}

theorem Relinked.getUpConns {R' : Routes} (h : Relinked R R') : R'.getUpConns n = R.getUpConns n := by
  unfold Net.getUpConns
  rw [h.fresh]
  refine List.filter_congr fun r _ => ?_
  rw [(h.ups r).2.1, (h.ups r).2.2]

theorem Relinked.joins {R' : Routes} (h : Relinked R R') (hr : R.Joins n r) : R'.Joins n r where
  fresh := h.fresh ▸ hr.fresh
  other := (h.ups r).2.2 ▸ hr.other
  none := by
    rw [getUpConn_eq_none]
    intro r' hr' hclient
    rw [(h.ups r').2.2] at hclient
    rw [(h.ups r').1, (h.ups r).1]
    exact getUpConn_none hr.none (h.live.mp hr') hclient
  inside := by
    rw [h.groups]
    exact hr.inside
  same hlive := by
    rw [(h.ups r).2.2, h.groups, h.groups]
    exact hr.same (h.live.mp hlive)

theorem relinked_cutReplaced : Relinked R (R.cutReplaced n replace) := by
  unfold Net.cutReplaced
  split_ifs
  · exact relinked_cut
  · exact .refl R

/-- A push that is taken from the queue of a client may be of use to it. -/
theorem Founded.joins (hf : Founded R) {conn : ℕ} {tracks : List RtpUpTrack} {rest : List Action}
    (hactions : (R.clients n).actions = .pushConn g id (some conn) tracks replace :: rest)
    (hgroup : (R.clients n).group = some g) (hnone : R.getUpConn n (R.ups conn).id = none) :
    (R.take n).Joins n conn := by
  obtain ⟨hlt, -, hne, hg⟩ := hf.actions n _ (hactions ▸ List.mem_cons_self)
  have hgroups (k : ℕ) : ((R.take n).clients k).group = (R.clients k).group :=
    (kept_take (R := R)).groups k
  refine ⟨hlt, hne, hnone, ?_, fun hr => ?_⟩
  · rw [hgroups, hgroup]
    exact Option.some_ne_none g
  · rw [hgroups, hgroups, hgroup]
    exact hg hr

theorem Broken.founded (hf : Founded R) (hjoins : R.getUpConn n (R.ups r).id = none →
    (R.take n).Joins n r) (h : Broken R n r replace S) : Founded S ∧ Relinked (R.take n) S := by
  induction h with
  | early => exact ⟨(hf.kept kept_take).cutReplaced n replace, relinked_cutReplaced⟩
  | attach _ hnone hlink _ ih =>
      obtain ⟨hfounded, hrelinked⟩ := ih
      have hid := (hrelinked.ups r).1
      refine ⟨hfounded.attach (hrelinked.joins (hjoins hnone)) ?_, hrelinked.trans relinked_attach⟩
      rw [hid]
      exact hlink
  | cut id _ ih => exact ⟨ih.1.cut n id, ih.2.trans relinked_cut⟩

theorem Founded.outcome (hf : Founded R) (h : Outcome R l S) : Founded S := by
  cases h with
  | same => exact hf
  | enter hn => exact hf.enter hn
  | leave _ horder => exact hf.leave horder
  | queue _ ha =>
      refine hf.kept (kept_action fun k _ => ?_)
      rcases ha with rfl | ⟨id, rfl⟩ <;> trivial
  | ask _ hg =>
      refine hf.kept ((kept_modify rfl rfl fun _ ha => ha).trans (kept_action fun k hk => ?_))
      exact (mem_getClients.mp hk).2.symm
  | @askStream n g id requested link rtc order hlink hg =>
      have hset : Kept R (R.modify n (·.setLink { link with requested })) :=
        kept_setLink hf hlink ⟨rfl, rfl⟩
      refine hf.kept (hset.trans (kept_action fun k hk => ?_))
      rw [List.mem_singleton.mp hk]
      exact (hf.conns _ _ _ (mem_conns_of_link hlink)).2.2.symm
  | publish hg hlink hnone =>
      exact (hf.newUpConn (hg ▸ Option.some_ne_none _) hlink hnone).kept kept_supersede
  | again _ => exact hf.kept kept_supersede
  | close _ => exact hf.kept kept_delUpConn
  | answer => exact hf.cut _ _
  | renegotiate => exact hf.cut _ _
  | abort => exact hf.cut _ _
  | skip _ _ => exact hf.kept kept_take
  | deny _ _ => exact hf.kept (kept_take.trans kept_delUpConns)
  | @reply n g target id rest rtc order hactions hg horder =>
      have htarget : R.Proper n (.requestConns g target id) :=
        hf.actions n _ (hactions ▸ List.mem_cons_self)
      refine hf.kept (kept_take.trans (kept_requestConns (((kept_take (R := R)).groups n).trans hg)
        htarget fun r hr => ?_))
      exact mem_getUpConns.mp (horder.mem_iff.mp hr)
  | drop _ _ _ => exact ((hf.kept kept_take).cutReplaced _ _).cut _ _
  | late _ _ _ => exact (hf.kept kept_take).cutReplaced _ _
  | @attach n g r id replace tracks rest rtc order T hactions hg _ hnone hT hlink _ =>
      subst hT
      have hrelinked : Relinked (R.take n) ((R.take n).cutReplaced n replace) := relinked_cutReplaced
      refine ((hf.kept kept_take).cutReplaced _ _).attach
        (hrelinked.joins (hf.joins hactions hg hnone)) ?_
      rw [(hrelinked.ups r).1]
      exact hlink
  | @update n g r id replace tracks rest rtc order T l _ _ _ hT hlink =>
      subst hT
      have hcut : Founded ((R.take n).cutReplaced n replace) := (hf.kept kept_take).cutReplaced _ _
      exact hcut.kept (kept_setLink hcut hlink ⟨rfl, rfl⟩)
  | @echo n g id l rest rtc order hactions hg hlink =>
      refine hf.kept (kept_take.trans (kept_action fun k hk => ?_))
      rw [List.mem_singleton.mp hk]
      obtain ⟨hlt, hid, hne⟩ := hf.conns n _ _ (mem_conns_of_link hlink)
      refine ⟨hlt, rfl, hne, fun hr => ?_⟩
      rw [(kept_take (R := R)).groups]
      exact (hf.same n _ _ (mem_conns_of_link hlink) hr).trans hg
  | @broken n g r id replace tracks rest rtc order T hactions hg horder hbroken =>
      obtain ⟨hfounded, hrelinked⟩ := hbroken.founded hf fun hnone => hf.joins hactions hg hnone
      exact hfounded.leave (hrelinked.getUpConns ▸ horder)
  | failed _ horder => exact (hf.kept kept_take).leave horder
  | onTrack hr _ =>
      exact hf.kept ((kept_modifyUp ⟨rfl, rfl, fun h => h, rfl⟩).trans (kept_pushConn hr))
  | @wake i e T he hT =>
      have hmem : e ∈ R.delayed := List.mem_of_getElem? he
      have hkept : Kept R T := by
        rw [hT]
        exact ⟨fun _ => rfl, fun _ => rfl, rfl, rfl, fun _ => .refl _, fun _ _ h => .inl h,
          fun e h => .inl (List.mem_of_mem_eraseIdx h)⟩
      split_ifs
      · exact hf.kept hkept
      · exact hf.kept (hkept.trans (kept_pushConnNow (hkept.due (hf.delayed e hmem))))

theorem Founded.wellFormed (hf : Founded R) (n : ℕ) : (R.clients n).WellFormed :=
  ⟨hf.ids n, fun hn => List.map_eq_nil_iff.mp (hf.outside n hn)⟩

theorem founded_init {w : World} (h : system.init w) : Founded w.routes := by
  subst h
  exact {
    member := fun n g => ⟨fun h => (by cases h), fun h => (by cases h)⟩
    rooms := fun g => List.nodup_nil
    ids := fun n => List.nodup_nil
    conns := fun n id r h => (by cases h)
    outside := fun n _ => rfl
    live := fun r hr => absurd hr.1 (Nat.not_lt_zero r)
    same := fun n id r h => (by cases h)
    unique := fun r _ hr => absurd hr.1 (Nat.not_lt_zero r)
    exclusive := fun r _ hr => absurd hr.1 (Nat.not_lt_zero r)
    actions := fun n a h => (by cases h)
    delayed := fun e h => (by cases h)
    locals := fun r n => ⟨fun h => (by cases h), fun ⟨_, h⟩ => (by cases h)⟩
    localsNodup := fun r => List.nodup_nil }

theorem founded_step {w w' : World} (hf : Founded w.routes) (h : step w l = some w') :
    Founded w'.routes :=
  hf.outcome (step_outcome hf.wellFormed h)

theorem founded_of_reachable {w : World} (h : Reachable system Always w) : Founded w.routes :=
  h.invariant (fun _ => founded_init) fun _ _ _ hf _ => founded_step hf

end Steps

section Runs

variable {w : World}

theorem mem_conns_party {c : WebClient} {id : String} {r : ℕ} :
    (id, r) ∈ c.party.conns ↔ ∃ d ∈ c.down, d.id = id ∧ d.remote = r := by
  unfold Party.conns WebClient.party
  dsimp only
  rw [List.map_map, List.mem_map]
  exact exists_congr fun d => and_congr_right fun _ => (Prod.mk.injEq ..).to_iff

/-- The clients that are registered on a connection are those that have a down connection
of it. -/
theorem registered_iff (h : Reachable system Always w) (r n : ℕ) :
    (w.ups r).locals.Nodup ∧ (n ∈ (w.ups r).locals ↔ ∃ d ∈ (w.clients n).down, d.remote = r) := by
  have hf := founded_of_reachable h
  refine ⟨hf.localsNodup r, (hf.locals r n).trans ?_⟩
  constructor
  · rintro ⟨id, hid⟩
    obtain ⟨d, hd, -, hremote⟩ := mem_conns_party.mp hid
    exact ⟨d, hd, hremote⟩
  · rintro ⟨d, hd, hremote⟩
    exact ⟨d.id, mem_conns_party.mpr ⟨d, hd, rfl, hremote⟩⟩

/-- A client has one connection of an id at most. What it is sent is what another member of
its group publishes, or has published. -/
theorem down_connections (h : Reachable system Always w) (n : ℕ) :
    ((w.clients n).down.map (·.id)).Nodup ∧
      (∀ d ∈ (w.clients n).down, d.id = (w.ups d.remote).id ∧ (w.ups d.remote).client ≠ n ∧
        w.getUpConn n d.id = none ∧ ∃ g, (w.clients n).group = some g ∧
          (w.Live d.remote → (w.clients (w.ups d.remote).client).group = some g)) ∧
      ((w.clients n).group = none → w.getUpConns n = []) := by
  have hf := founded_of_reachable h
  have hpair {d : RtpDownConnection} (hd : d ∈ (w.clients n).down) :
      (d.id, d.remote) ∈ (w.routes.clients n).conns := mem_conns_party.mpr ⟨d, hd, rfl, rfl⟩
  refine ⟨?_, fun d hd => ?_, fun hn => ?_⟩
  · have hids := hf.ids n
    change ((((w.clients n).down.map (·.link)).map fun l => (l.id, l.remote)).map Prod.fst).Nodup at hids
    rw [List.map_map, List.map_map] at hids
    exact hids
  · obtain ⟨-, hid, hne⟩ := hf.conns n _ _ (hpair hd)
    have hinside : (w.clients n).group ≠ none := by
      intro hn
      have hmem := hpair hd
      rw [hf.outside n hn] at hmem
      cases hmem
    obtain ⟨g, hg⟩ := Option.ne_none_iff_exists'.mp hinside
    refine ⟨hid, hne, ?_, g, hg, fun hr => (hf.same n _ _ (hpair hd) hr).trans hg⟩
    refine (getUpConn_eq_none (R := w.routes)).mpr fun r hr hclient hr' => ?_
    have hmem := hpair hd
    rw [← hr', ← hclient] at hmem
    exact hf.exclusive r d.remote hr hmem
  · refine List.eq_nil_iff_forall_not_mem.mpr fun r hr => ?_
    obtain ⟨hlive, hclient⟩ := mem_getUpConns.mp (show r ∈ w.routes.getUpConns n from hr)
    exact hf.live r hlive (hclient ▸ hn)

/-- A member publishes, and another one is sent what it has asked for. -/
def firstStream : List Label :=
  [.join 1 0 true, .join 2 0 false, .message 2 (.request [("", ["audio"])]) {} [], .action 1 {} [],
    .message 1 (.offer "a" "camera" "") {} [], .onTrack 0 ⟨0, .audio⟩, .wake 0, .action 2 {} []]

theorem registered_first : ∃ w, system.exec Always { clients := fun _ => {} } firstStream = some w ∧
    ((w.ups 0).locals = [2] ∧ (w.clients 2).down.map (·.remote) = [0]) ∧
    ((w.ups 0).locals.Nodup ∧ (2 ∈ (w.ups 0).locals ↔ ∃ d ∈ (w.clients 2).down, d.remote = 0)) := by
  have hrun : (system.exec Always { clients := fun _ => {} } firstStream).map
      (fun w => ((w.ups 0).locals, (w.clients 2).down.map (·.remote))) = some ([2], [0]) := by
    decide +kernel
  obtain ⟨w, hw, hlinks⟩ := Option.map_eq_some_iff.mp hrun
  exact ⟨w, hw, Prod.mk.inj hlinks, registered_iff (Reachable.exec (.init rfl) hw) 0 2⟩

theorem down_first : ∃ w, system.exec Always { clients := fun _ => {} } firstStream = some w ∧
    (w.clients 2).down.map (·.id) = ["a"] ∧
    (((w.clients 2).down.map (·.id)).Nodup ∧
      (∀ d ∈ (w.clients 2).down, d.id = (w.ups d.remote).id ∧ (w.ups d.remote).client ≠ 2 ∧
        w.getUpConn 2 d.id = none ∧ ∃ g, (w.clients 2).group = some g ∧
          (w.Live d.remote → (w.clients (w.ups d.remote).client).group = some g)) ∧
      ((w.clients 2).group = none → w.getUpConns 2 = [])) := by
  have hrun : (system.exec Always { clients := fun _ => {} } firstStream).map
      (fun w => (w.clients 2).down.map (·.id)) = some ["a"] := by
    decide +kernel
  obtain ⟨w, hw, hids⟩ := Option.map_eq_some_iff.mp hrun
  exact ⟨w, hw, hids, down_connections (Reachable.exec (.init rfl) hw) 2⟩

end Runs

end Sozvon.Streams
