import Sozvon.StreamLinks

/-!
# Closed streams

A client that is sent a stream hears of it when the stream is closed or replaced. When it
has nothing left to do and no push is due, what it is sent is open.
-/
namespace Sozvon.Streams
open Runs

section Definitions

/-- A connection that has been offered is not used to replace another, and one that is
closed gets no more tracks. -/
def Orderly {γ : Type} [Peer γ] (w : Net γ) : Label → Prop
  | .message n (.offer id _ replace) _ _ => (w.getUpConn n id).isSome = true → replace = ""
  | .onTrack r _ => (w.ups r).closed = false
  | _ => True

instance (w : World) : (l : Label) → Decidable (Orderly w l)
  | .message n (.offer id _ replace) _ _ =>
      inferInstanceAs (Decidable ((w.getUpConn n id).isSome = true → replace = ""))
  | .onTrack r _ => inferInstanceAs (Decidable ((w.ups r).closed = false))
  | .message _ (.request _) _ _ | .message _ (.requestStream ..) _ _ | .message _ (.answer _) _ _
  | .message _ (.renegotiate _) _ _ | .message _ (.close _) _ _ | .message _ (.abort _) _ _
  | .join .. | .leave .. | .lost .. | .permit .. | .action .. | .failed .. | .wake _ =>
      inferInstanceAs (Decidable True)

/-- The action tells a member of a group that a connection is gone. -/
def Closes (g : ℕ) (id : String) : Action → Prop
  | .pushConn h i conn _ replace => h = g ∧ ((conn = none ∧ i = id) ∨ (replace = id ∧ id ≠ ""))
  | _ => False

/-- What replaces a connection is yet to be pushed to the client. -/
structure Net.Pending (R : Routes) (n : ℕ) (id : String) (r : ℕ) : Prop where
  replace : (R.ups r).replace = id
  named : id ≠ ""
  waiting : (R.ups r).pushed = false
  due : ∃ e ∈ R.delayed, e.up = r
  clients : ∀ e ∈ R.delayed, e.up = r → n ∈ e.clients ∧ (R.clients n).group = some e.group

/-- The client is going to hear that a connection is gone. -/
def Net.Told (R : Routes) (n : ℕ) (id : String) : Prop :=
  (∃ g, (R.clients n).group = some g ∧ ∃ a ∈ (R.clients n).actions, Closes g id a) ∨
    ∃ r, R.Pending n id r

/-- Apart from some that are being dealt with. -/
def Net.Sound (R : Routes) (n : ℕ) (done : String → Prop) : Prop :=
  ∀ id r, (id, r) ∈ (R.clients n).conns → (R.ups r).closed = true → done id ∨ R.Told n id

/-- To the client nothing is new but actions and links that are gone. -/
structure Steady (n : ℕ) (R R' : Routes) : Prop where
  group : (R'.clients n).group = (R.clients n).group
  conns : ∀ p ∈ (R'.clients n).conns, p ∈ (R.clients n).conns
  actions : ∀ a ∈ (R.clients n).actions, a ∈ (R'.clients n).actions
  ups : ∀ r, (R'.ups r).closed = (R.ups r).closed ∧ (R'.ups r).pushed = (R.ups r).pushed ∧
    (R'.ups r).replace = (R.ups r).replace
  delayed : R'.delayed = R.delayed

end Definitions

section Steadiness

variable {R R' S : Routes} {n m k r g : ℕ} {id replace : String} {a : Action}
  {done done' : String → Prop}

theorem Steady.refl (n : ℕ) (R : Routes) : Steady n R R :=
  ⟨rfl, fun _ h => h, fun _ h => h, fun _ => ⟨rfl, rfl, rfl⟩, rfl⟩

theorem Steady.trans (h : Steady n R R') (h' : Steady n R' S) : Steady n R S where
  group := h'.group.trans h.group
  conns p hp := h.conns p (h'.conns p hp)
  actions a ha := h'.actions a (h.actions a ha)
  ups r := ⟨(h'.ups r).1.trans (h.ups r).1, (h'.ups r).2.1.trans (h.ups r).2.1,
    (h'.ups r).2.2.trans (h.ups r).2.2⟩
  delayed := h'.delayed.trans h.delayed

theorem Steady.told (h : Steady n R R') (hid : R.Told n id) : R'.Told n id := by
  rcases hid with ⟨g, hg, a, ha, hcloses⟩ | ⟨r, hpending⟩
  · exact .inl ⟨g, h.group.trans hg, a, h.actions a ha, hcloses⟩
  · refine .inr ⟨r, ?_, hpending.named, ?_, ?_, ?_⟩
    · exact (h.ups r).2.2.trans hpending.replace
    · exact (h.ups r).2.1.trans hpending.waiting
    · exact h.delayed ▸ hpending.due
    · rw [h.delayed, h.group]
      exact hpending.clients

theorem Net.Sound.steady (hs : R.Sound n done) (h : Steady n R R') : R'.Sound n done := by
  intro id r hmem hclosed
  rw [(h.ups r).1] at hclosed
  exact (hs id r (h.conns _ hmem) hclosed).imp_right h.told

theorem Net.Sound.mono (hs : R.Sound n done) (h : ∀ id, done id → done' id) : R.Sound n done' :=
  fun id r hmem hclosed => (hs id r hmem hclosed).imp_left (h id)

theorem Net.Sound.of_nil (h : (R.clients n).conns = []) : R.Sound n done := by
  intro id r hmem
  rw [h] at hmem
  cases hmem

theorem steady_modify_of_ne {f : Party → Party} (hne : n ≠ m) : Steady n R (R.modify m f) := by
  have hself : (R.modify m f).clients n = R.clients n := by rw [clients_modify, if_neg hne]
  refine ⟨?_, ?_, ?_, fun _ => ⟨rfl, rfl, rfl⟩, rfl⟩
  · rw [hself]
  · rw [hself]
    exact fun _ h => h
  · rw [hself]
    exact fun _ h => h

theorem steady_modify {f : Party → Party} (hgroup : (f (R.clients m)).group = (R.clients m).group)
    (hconns : (f (R.clients m)).conns = (R.clients m).conns)
    (hactions : (f (R.clients m)).actions = (R.clients m).actions) : Steady n R (R.modify m f) := by
  by_cases hn : n = m
  · subst hn
    have hself : (R.modify n f).clients n = f (R.clients n) := by rw [clients_modify, if_pos rfl]
    refine ⟨?_, ?_, ?_, fun _ => ⟨rfl, rfl, rfl⟩, rfl⟩
    · rw [hself, hgroup]
    · rw [hself, hconns]
      exact fun _ h => h
    · rw [hself, hactions]
      exact fun _ h => h
  · exact steady_modify_of_ne hn

theorem steady_action {ks : List ℕ} : Steady n R (R.action ks a) where
  group := by
    unfold Net.action
    dsimp only
    split_ifs <;> rfl
  conns p hp := by
    unfold Net.action at hp
    dsimp only at hp
    split_ifs at hp with hn
    · exact hp
    · exact hp
  actions b hb := by
    unfold Net.action
    dsimp only
    split_ifs
    · exact List.mem_append_left _ hb
    · exact hb
  ups _ := ⟨rfl, rfl, rfl⟩
  delayed := rfl

theorem mem_actions_action {ks : List ℕ} (h : n ∈ ks) : a ∈ ((R.action ks a).clients n).actions := by
  unfold Net.action
  dsimp only
  rw [if_pos h]
  exact List.mem_append_right _ (List.mem_singleton_self a)

theorem ups_cut_steady (r : ℕ) : ((R.cut m id).ups r).closed = (R.ups r).closed ∧
    ((R.cut m id).ups r).pushed = (R.ups r).pushed ∧
    ((R.cut m id).ups r).replace = (R.ups r).replace := by
  cases hl : (R.clients m).link id with
  | none =>
      rw [cut_of_none hl]
      exact ⟨rfl, rfl, rfl⟩
  | some l =>
      have hups : (R.cut m id).ups r = if r = l.remote then
          { R.ups l.remote with locals := (R.ups l.remote).locals.erase m } else R.ups r := by
        rw [cut_of_some hl]
        exact ups_modifyUp R l.remote (fun u => { u with locals := u.locals.erase m }) r
      rw [hups]
      split_ifs with hr
      · rw [hr]
        exact ⟨rfl, rfl, rfl⟩
      · exact ⟨rfl, rfl, rfl⟩

theorem steady_cut : Steady n R (R.cut m id) where
  group := relinked_cut.groups n
  conns p hp := ((conns_cut n p).mp hp).1
  actions _ ha := (relinked_cut (R := R)).actions n ▸ ha
  ups := ups_cut_steady
  delayed := relinked_cut.delayed

theorem steady_cuts {ids : List String} : Steady n R (ids.foldl (fun R id => R.cut m id) R) := by
  induction ids generalizing R with
  | nil => exact .refl n R
  | cons id ids ih => exact steady_cut.trans ih

theorem steady_cutReplaced : Steady n R (R.cutReplaced m replace) := by
  unfold Net.cutReplaced
  split_ifs
  · exact steady_cut
  · exact .refl n R

theorem ups_attach_steady {tracks : List RtpUpTrack} (k : ℕ) :
    ((R.attach m r tracks).ups k).closed = (R.ups k).closed ∧
      ((R.attach m r tracks).ups k).pushed = (R.ups k).pushed ∧
      ((R.attach m r tracks).ups k).replace = (R.ups k).replace := by
  rw [ups_attach]
  split_ifs with hk
  · rw [hk]
    exact ⟨rfl, rfl, rfl⟩
  · rw [hk]
    exact ⟨rfl, rfl, rfl⟩
  · exact ⟨rfl, rfl, rfl⟩

theorem steady_attach {tracks : List RtpUpTrack} (hne : n ≠ m) : Steady n R (R.attach m r tracks) := by
  have hself : (R.attach m r tracks).clients n = R.clients n := by rw [clients_attach, if_neg hne]
  refine ⟨?_, ?_, ?_, ups_attach_steady, rfl⟩
  · rw [hself]
  · rw [hself]
    exact fun _ h => h
  · rw [hself]
    exact fun _ h => h

theorem delUpConn_none {push : Bool} (h : R.getUpConn m id = none) : R.delUpConn m id push = R := by
  unfold Net.delUpConn
  rw [h]

theorem delUpConn_quiet (h : R.getUpConn m id = some r) :
    R.delUpConn m id false = R.modifyUp r ({ · with closed := true }) := by
  unfold Net.delUpConn
  rw [h]

theorem delUpConn_pushed (h : R.getUpConn m id = some r) (hg : (R.clients m).group = some g) :
    R.delUpConn m id true = (R.modifyUp r ({ · with closed := true })).action (R.getClients g m)
      (.pushConn g id none [] (R.ups r).replace) := by
  have hpeer : Peer.group (R.clients m) = some g := hg
  unfold Net.delUpConn
  rw [h, hpeer]

theorem steady_requestConns {target : ℕ} {order : List ℕ} :
    Steady n R (R.requestConns target g id order) := by
  unfold Net.requestConns
  induction order generalizing R with
  | nil => exact .refl n R
  | cons r order ih =>
      rw [List.foldl_cons]
      refine Steady.trans ?_ ih
      split_ifs
      · exact .refl n R
      · exact steady_action

end Steadiness

section Operations

variable {R S : Routes} {n m k r g : ℕ} {id replace : String} {a : Action} {order : List ℕ}
  {done : String → Prop}

/-- What a client takes from its queue it has to deal with. -/
theorem Net.Sound.take (hs : R.Sound n done) (hactions : (R.clients n).actions.head? = some a) :
    (R.take n).Sound n fun id => done id ∨ ∃ g, (R.clients n).group = some g ∧ Closes g id a := by
  have hself : (R.take n).clients n = { R.clients n with actions := (R.clients n).actions.tail } := by
    rw [Net.take, clients_modify, if_pos rfl]
  intro id r hmem hclosed
  rw [hself] at hmem
  rcases hs id r hmem hclosed with hdone | ⟨g, hg, b, hb, hcloses⟩ | ⟨r', hpending⟩
  · exact .inl (.inl hdone)
  · rw [List.eq_cons_of_mem_head? hactions] at hb
    rcases List.mem_cons.mp hb with rfl | hb
    · exact .inl (.inr ⟨g, hg, hcloses⟩)
    · refine .inr (.inl ⟨g, ?_, b, ?_, hcloses⟩)
      · rw [hself]
        exact hg
      · rw [hself]
        exact hb
  · refine .inr (.inr ⟨r', hpending.replace, hpending.named, hpending.waiting, hpending.due, ?_⟩)
    rw [hself]
    exact hpending.clients

theorem Net.Sound.cut (hs : R.Sound n done) : (R.cut n id).Sound n fun i => done i ∧ i ≠ id := by
  intro i r hmem hclosed
  rw [(ups_cut_steady r).1] at hclosed
  obtain ⟨hmem, hne⟩ := (conns_cut n _).mp hmem
  exact (hs i r hmem hclosed).imp (fun hdone => ⟨hdone, hne rfl⟩) steady_cut.told

theorem Net.Sound.cutReplaced (hs : R.Sound n done) :
    (R.cutReplaced n replace).Sound n fun i => done i ∧ (i = replace → i = "") := by
  unfold Net.cutReplaced
  split_ifs with hreplace
  · refine hs.cut.mono fun i hi => ⟨hi.1, fun h => absurd h hi.2⟩
  · exact hs.mono fun i hi => ⟨hi, fun h => h.trans (not_not.mp hreplace)⟩

/-- A client is given a link to an open connection only. -/
theorem Net.Sound.attach {tracks : List RtpUpTrack} (hs : R.Sound n done) (hr : (R.ups r).closed = false) :
    (R.attach n r tracks).Sound n done := by
  have htold {i : String} (hi : R.Told n i) : (R.attach n r tracks).Told n i := by
    have hself : ((R.attach n r tracks).clients n).group = (R.clients n).group ∧
        ((R.attach n r tracks).clients n).actions = (R.clients n).actions :=
      ⟨relinked_attach.groups n, relinked_attach.actions n⟩
    rcases hi with ⟨g, hg, a, ha, hcloses⟩ | ⟨r', hpending⟩
    · exact .inl ⟨g, hself.1.trans hg, a, hself.2 ▸ ha, hcloses⟩
    · refine .inr ⟨r', ?_, hpending.named, ?_, hpending.due, ?_⟩
      · exact (ups_attach_steady r').2.2.trans hpending.replace
      · exact (ups_attach_steady r').2.1.trans hpending.waiting
      · rw [hself.1]
        exact hpending.clients
  intro i r' hmem hclosed
  rw [(ups_attach_steady r').1] at hclosed
  rcases (conns_attach n _).mp hmem with hold | ⟨-, heq⟩
  · exact (hs i r' hold hclosed).imp_right htold
  · rw [(Prod.mk.inj heq).2, hr] at hclosed
    cases hclosed

/-- A connection that is closed and pushed as such is so to all that have a link to it. -/
theorem Net.Sound.delUpConn (hf : Founded R) (hs : R.Sound n done) :
    (R.delUpConn m id true).Sound n done := by
  cases hfound : R.getUpConn m id with
  | none =>
      rw [delUpConn_none hfound]
      exact hs
  | some r =>
      obtain ⟨hlive, hclient, hid⟩ := getUpConn_some hfound
      obtain ⟨g, hg⟩ := Option.ne_none_iff_exists'.mp (hf.live r hlive)
      rw [hclient] at hg
      rw [delUpConn_pushed hfound hg]
      have hups (k : ℕ) : ((R.modifyUp r ({ · with closed := true })).ups k) =
          if k = r then { R.ups r with closed := true } else R.ups k := ups_modifyUp ..
      have hsame (k : ℕ) : ((R.modifyUp r ({ · with closed := true })).ups k).pushed = (R.ups k).pushed ∧
          ((R.modifyUp r ({ · with closed := true })).ups k).replace = (R.ups k).replace := by
        rw [hups]
        split_ifs with hk
        · rw [hk]
          exact ⟨rfl, rfl⟩
        · exact ⟨rfl, rfl⟩
      intro i r' hmem hclosed
      have hold := steady_action.conns _ hmem
      by_cases hr : r' = r
      · subst hr
        obtain ⟨-, hi, hne⟩ := hf.conns n i r' hold
        have hn := (hf.same n i r' hold hlive).symm
        rw [hclient, hg] at hn
        refine .inr (.inl ⟨g, steady_action.group.trans hn, _, mem_actions_action ?_, rfl, .inl ⟨rfl, ?_⟩⟩)
        · exact mem_getClients.mpr ⟨(hf.member n g).mpr hn, hclient ▸ hne.symm⟩
        · exact hid.symm.trans hi.symm
      · have hclosed' : (R.ups r').closed = true := by
          have hkeep := hups r'
          rw [if_neg hr] at hkeep
          exact hkeep ▸ hclosed
        refine (hs i r' hold hclosed').imp_right fun htold => steady_action.told ?_
        rcases htold with htold | ⟨r'', hpending⟩
        · exact .inl htold
        · exact .inr ⟨r'', (hsame r'').2.trans hpending.replace, hpending.named,
            (hsame r'').1.trans hpending.waiting, hpending.due, hpending.clients⟩

theorem Net.Sound.delUpConns (hf : Founded R) (hs : R.Sound n done) :
    (R.delUpConns m order).Sound n done := by
  unfold Net.delUpConns
  induction order generalizing R with
  | nil => exact hs
  | cons r order ih => exact ih (hf.kept kept_delUpConn) (hs.delUpConn hf)

end Operations

section Pushes

variable {R : Routes} {n m r g : ℕ} {id label replace : String} {track : RtpUpTrack}
  {done : String → Prop}

theorem ups_pushConn (hg : (R.clients (R.ups r).client).group = some g) (k : ℕ) :
    (R.pushConn r).ups k = if k = r then { R.ups r with pushed := false } else R.ups k := by
  rw [pushConn_of_some (w := R) hg]
  exact ups_modifyUp R r ({ · with pushed := false }) k

theorem delayed_pushConn (hg : (R.clients (R.ups r).client).group = some g) :
    (R.pushConn r).delayed = R.delayed ++ [⟨r, g, R.getClients g (R.ups r).client⟩] := by
  rw [pushConn_of_some (w := R) hg]

theorem clients_pushConn : (R.pushConn r).clients = R.clients ∧ (R.pushConn r).rooms = R.rooms ∧
    (R.pushConn r).fresh = R.fresh := by
  unfold Net.pushConn
  dsimp only
  cases Peer.group (R.clients (R.ups r).client) with
  | none => exact ⟨rfl, rfl, rfl⟩
  | some g => exact ⟨rfl, rfl, rfl⟩

def Net.onTrack (R : Routes) (r : ℕ) (track : RtpUpTrack) : Routes :=
  (R.modifyUp r fun u => { u with tracks := u.tracks ++ [track] }).pushConn r

theorem ups_track (k : ℕ) : (R.modifyUp r fun u => { u with tracks := u.tracks ++ [track] }).ups k =
    if k = r then { R.ups r with tracks := (R.ups r).tracks ++ [track] } else R.ups k :=
  ups_modifyUp R r (fun u => { u with tracks := u.tracks ++ [track] }) k

theorem ups_onTrack (hg : (R.clients (R.ups r).client).group = some g) (k : ℕ) :
    (R.onTrack r track).ups k =
      if k = r then { R.ups r with tracks := (R.ups r).tracks ++ [track], pushed := false }
      else R.ups k := by
  have hself : (R.modifyUp r fun u => { u with tracks := u.tracks ++ [track] }).ups r =
      { R.ups r with tracks := (R.ups r).tracks ++ [track] } := by
    rw [ups_track, if_pos rfl]
  rw [Net.onTrack, ups_pushConn (g := g)]
  · by_cases hk : k = r
    · rw [if_pos hk, if_pos hk, hself]
    · rw [if_neg hk, if_neg hk, ups_track, if_neg hk]
  · rw [hself]
    exact hg

theorem delayed_onTrack (hg : (R.clients (R.ups r).client).group = some g) :
    (R.onTrack r track).delayed = R.delayed ++ [⟨r, g, R.getClients g (R.ups r).client⟩] := by
  have hself : ((R.modifyUp r fun u => { u with tracks := u.tracks ++ [track] }).ups r).client =
      (R.ups r).client := by
    rw [ups_track, if_pos rfl]
  rw [Net.onTrack, delayed_pushConn (g := g)]
  · rw [hself]
    rfl
  · rw [hself]
    exact hg

theorem clients_onTrack : (R.onTrack r track).clients = R.clients ∧
    (R.onTrack r track).rooms = R.rooms ∧ (R.onTrack r track).fresh = R.fresh := clients_pushConn

theorem ups_newUpConn (hg : (R.clients m).group = some g) (k : ℕ) : (R.newUpConn m id label).ups k =
    if k = R.fresh then { id, client := m, label } else R.ups k := by
  have hups (k : ℕ) : ({ R.modifyUp R.fresh fun _ => { id, client := m, label } with
      fresh := R.fresh + 1 } : Routes).ups k = if k = R.fresh then { id, client := m, label }
      else R.ups k := ups_modifyUp R R.fresh (fun _ => { id, client := m, label }) k
  rw [Net.newUpConn, ups_pushConn (g := g)]
  · by_cases hk : k = R.fresh
    · rw [if_pos hk, if_pos hk, hups, if_pos rfl]
    · rw [if_neg hk, if_neg hk, hups, if_neg hk]
  · rw [hups, if_pos rfl]
    exact hg

theorem delayed_newUpConn (hg : (R.clients m).group = some g) :
    (R.newUpConn m id label).delayed = R.delayed ++ [⟨R.fresh, g, R.getClients g m⟩] := by
  have hself : ({ R.modifyUp R.fresh fun _ => { id, client := m, label } with
      fresh := R.fresh + 1 } : Routes).ups R.fresh = { id, client := m, label } :=
    (ups_modifyUp R R.fresh (fun _ => { id, client := m, label }) R.fresh).trans (if_pos rfl)
  rw [Net.newUpConn, delayed_pushConn (g := g)]
  · rw [hself]
    rfl
  · rw [hself]
    exact hg

theorem clients_newUpConn : (R.newUpConn m id label).clients = R.clients ∧
    (R.newUpConn m id label).rooms = R.rooms ∧ (R.newUpConn m id label).fresh = R.fresh + 1 :=
  clients_pushConn

/-- What is pushed of an open connection is pushed to all that have been waiting for it. -/
theorem Net.Sound.onTrack (hf : Founded R) (hs : R.Sound n done) (hr : R.Live r) :
    (R.onTrack r track).Sound n done := by
  obtain ⟨g, hg⟩ := Option.ne_none_iff_exists'.mp (hf.live r hr)
  obtain ⟨hclients, hrooms, -⟩ := @clients_onTrack R r track
  have hsame (k : ℕ) : ((R.onTrack r track).ups k).closed = (R.ups k).closed ∧
      ((R.onTrack r track).ups k).replace = (R.ups k).replace ∧
      ((R.ups k).pushed = false → ((R.onTrack r track).ups k).pushed = false) := by
    rw [ups_onTrack hg]
    by_cases hk : k = r
    · rw [if_pos hk, hk]
      exact ⟨rfl, rfl, fun _ => rfl⟩
    · rw [if_neg hk]
      exact ⟨rfl, rfl, fun h => h⟩
  intro i r' hmem hclosed
  rw [hclients] at hmem
  rw [(hsame r').1] at hclosed
  rcases hs i r' hmem hclosed with hdone | ⟨g', hg', a, ha, hcloses⟩ | ⟨r'', hpending⟩
  · exact .inl hdone
  · refine .inr (.inl ⟨g', ?_, a, ?_, hcloses⟩)
    · rw [hclients]
      exact hg'
    · rw [hclients]
      exact ha
  · obtain ⟨e, he, hup⟩ := hpending.due
    refine .inr (.inr ⟨r'', (hsame r'').2.1.trans hpending.replace, hpending.named,
      (hsame r'').2.2 hpending.waiting, ⟨e, ?_, hup⟩, fun e' he' hup' => ?_⟩)
    · rw [delayed_onTrack hg]
      exact List.mem_append_left _ he
    · rw [hclients]
      rw [delayed_onTrack hg] at he'
      rcases List.mem_append.mp he' with he' | he'
      · exact hpending.clients e' he' hup'
      · rw [List.mem_singleton.mp he'] at hup' ⊢
        have hr'' : r = r'' := hup'
        subst hr''
        -- who waits for a push of the connection is in the group of its owner
        obtain ⟨hn, hgroup⟩ := hpending.clients e he hup
        obtain ⟨-, hnot, hdue⟩ := hf.delayed e he
        rw [hup] at hnot hdue
        have heq : g = e.group := Option.some.inj (hg.symm.trans (hdue hr))
        rw [heq]
        exact ⟨mem_getClients.mpr ⟨(hf.member n _).mpr hgroup, fun h => hnot (h ▸ hn)⟩, hgroup⟩

/-- A push that is due comes on top of those that are. -/
theorem Net.Told.publish {S : Routes} (hf : Founded R) (hclients : S.clients = R.clients)
    (hdelayed : S.delayed = R.delayed ++ [⟨R.fresh, g, R.getClients g m⟩])
    (hups : ∀ r < R.fresh, (S.ups r).pushed = (R.ups r).pushed ∧ (S.ups r).replace = (R.ups r).replace)
    (h : R.Told n id) : S.Told n id := by
  rcases h with ⟨g', hg', a, ha, hcloses⟩ | ⟨r, hpending⟩
  · refine .inl ⟨g', ?_, a, ?_, hcloses⟩
    · rw [hclients]
      exact hg'
    · rw [hclients]
      exact ha
  · obtain ⟨e, he, hup⟩ := hpending.due
    have hr : r < R.fresh := hup ▸ (hf.delayed e he).1
    refine .inr ⟨r, (hups r hr).2.trans hpending.replace, hpending.named,
      (hups r hr).1.trans hpending.waiting, ⟨e, ?_, hup⟩, fun e' he' hup' => ?_⟩
    · rw [hdelayed]
      exact List.mem_append_left _ he
    · rw [hclients]
      rw [hdelayed] at he'
      rcases List.mem_append.mp he' with he' | he'
      · exact hpending.clients e' he' hup'
      · rw [List.mem_singleton.mp he'] at hup'
        exact absurd hup' (Nat.ne_of_gt hr)

/-- The push of a new connection tells those who have one that it replaces. -/
theorem pending_publish {S : Routes} (hf : Founded R) (hclients : S.clients = R.clients)
    (hdelayed : S.delayed = R.delayed ++ [⟨R.fresh, g, R.getClients g m⟩])
    (hnew : S.ups R.fresh = { id, client := m, label, replace }) (hreplace : replace ≠ "")
    (hgroup : (R.clients n).group = some g) (hne : n ≠ m) : S.Pending n replace R.fresh := by
  refine ⟨by rw [hnew], hreplace, by rw [hnew], ⟨⟨R.fresh, g, R.getClients g m⟩, ?_, rfl⟩,
    fun e he hup => ?_⟩
  · rw [hdelayed]
    exact List.mem_append_right _ (List.mem_singleton_self _)
  · rw [hclients]
    rw [hdelayed] at he
    rcases List.mem_append.mp he with he | he
    · exact absurd hup (Nat.ne_of_lt (hf.delayed e he).1)
    · rw [List.mem_singleton.mp he]
      exact ⟨mem_getClients.mpr ⟨(hf.member n g).mpr hgroup, hne⟩, hgroup⟩

/-- A new connection replaces an old one. -/
theorem Net.Sound.publish (hf : Founded R) (hs : R.Sound n done) (hg : (R.clients m).group = some g) :
    ((R.newUpConn m id label).supersede m R.fresh replace).Sound n done := by
  obtain ⟨hclients, -, -⟩ := @clients_newUpConn R m id label
  unfold Net.supersede
  by_cases hreplace : replace = ""
  · rw [if_neg (not_not.mpr hreplace)]
    have hold {r : ℕ} (hr : r < R.fresh) : (R.newUpConn m id label).ups r = R.ups r := by
      rw [ups_newUpConn hg, if_neg (Nat.ne_of_lt hr)]
    intro i r hmem hclosed
    rw [hclients] at hmem
    have hr := (hf.conns n i r hmem).1
    rw [hold hr] at hclosed
    refine (hs i r hmem hclosed).imp_right (.publish hf hclients (delayed_newUpConn hg) fun r hr => ?_)
    rw [hold hr]
    exact ⟨rfl, rfl⟩
  · rw [if_pos hreplace]
    generalize hT : (R.newUpConn m id label).modifyUp R.fresh ({ · with replace }) = T
    have hTups (k : ℕ) : T.ups k = if k = R.fresh then { id, client := m, label, replace } else R.ups k := by
      rw [← hT, ups_modifyUp, ups_newUpConn hg, if_pos rfl]
      by_cases hk : k = R.fresh
      · rw [if_pos hk, if_pos hk]
      · rw [if_neg hk, if_neg hk, ups_newUpConn hg, if_neg hk]
    have hold {r : ℕ} (hr : r < R.fresh) : T.ups r = R.ups r := by
      rw [hTups, if_neg (Nat.ne_of_lt hr)]
    have hTclients : T.clients = R.clients := by
      rw [← hT]
      exact hclients
    have hTdelayed : T.delayed = R.delayed ++ [⟨R.fresh, g, R.getClients g m⟩] := by
      rw [← hT]
      exact delayed_newUpConn hg
    cases hfound : T.getUpConn m replace with
    | none =>
        rw [delUpConn_none hfound]
        intro i r hmem hclosed
        rw [hTclients] at hmem
        have hr := (hf.conns n i r hmem).1
        rw [hold hr] at hclosed
        refine (hs i r hmem hclosed).imp_right (.publish hf hTclients hTdelayed fun r hr => ?_)
        rw [hold hr]
        exact ⟨rfl, rfl⟩
    | some r' =>
        obtain ⟨hlive, hclient, hid⟩ := getUpConn_some hfound
        have hups (k : ℕ) : (T.modifyUp r' ({ · with closed := true })).ups k =
            if k = r' then { T.ups r' with closed := true } else T.ups k := ups_modifyUp ..
        rw [delUpConn_quiet hfound]
        intro i r hmem hclosed
        replace hmem : (i, r) ∈ (R.clients n).conns := hTclients ▸ hmem
        obtain ⟨hr, hi, hne⟩ := hf.conns n i r hmem
        by_cases hrr : r = r'
        · subst hrr
          -- it is the one that is replaced, and the new one has not been pushed yet
          rw [hold hr] at hclient hid
          have hopen : R.Live r := ⟨hr, hold hr ▸ hlive.2⟩
          have hgroup : (R.clients n).group = some g := by
            rw [← hf.same n i r hmem hopen, hclient]
            exact hg
          have hself : (T.modifyUp r ({ · with closed := true })).ups R.fresh =
              { id, client := m, label, replace } := by
            rw [hups, if_neg (Nat.ne_of_gt hr), hTups, if_pos rfl]
          rw [hi, hid]
          exact .inr (.inr ⟨R.fresh, pending_publish (S := T.modifyUp r ({ · with closed := true })) hf
            hTclients hTdelayed hself hreplace hgroup (hclient ▸ hne.symm)⟩)
        · have hclosed' : (R.ups r).closed = true := by
            have hsame := hups r
            rw [if_neg hrr, hold hr] at hsame
            exact hsame ▸ hclosed
          refine (hs i r hmem hclosed').imp_right
            (.publish (S := T.modifyUp r' ({ · with closed := true })) hf hTclients hTdelayed
              fun k hk => ?_)
          rw [hups]
          split_ifs with hkr
          · rw [← hkr, hold hk]
            exact ⟨rfl, rfl⟩
          · rw [hold hk]
            exact ⟨rfl, rfl⟩

theorem mem_eraseIdx_of_ne {α : Type} {l : List α} {i : ℕ} {a b : α} (hi : l[i]? = some a) (hb : b ∈ l)
    (hne : b ≠ a) : b ∈ l.eraseIdx i := by
  obtain ⟨j, hj, rfl⟩ := List.mem_iff_getElem.mp hb
  refine List.mem_eraseIdx_iff_getElem.mpr ⟨j, hj, fun hij => hne ?_, rfl⟩
  subst hij
  exact Option.some.inj ((List.getElem?_eq_getElem hj).symm.trans hi)

/-- A push that is due is made, or has been. -/
theorem Net.Sound.wake {i : ℕ} {e : Delayed} {S : Routes} (hs : R.Sound n done)
    (he : R.delayed[i]? = some e) (hS : S = { R with delayed := R.delayed.eraseIdx i }) :
    (if (R.ups e.up).pushed then S else S.pushConnNow e).Sound n done := by
  have hclients : S.clients = R.clients := by rw [hS]
  have hups : S.ups = R.ups := by rw [hS]
  have hkeep {T : Routes} (hT : T.delayed = R.delayed.eraseIdx i)
      (hgroup : (T.clients n).group = (R.clients n).group)
      (hT' : ∀ r, r ≠ e.up → T.ups r = R.ups r) {id : String} {r : ℕ} (hr : r ≠ e.up)
      (h : R.Pending n id r) : T.Pending n id r := by
    obtain ⟨e', he', hup⟩ := h.due
    refine ⟨(hT' r hr) ▸ h.replace, h.named, (hT' r hr) ▸ h.waiting, ⟨e', ?_, hup⟩, fun e' he' hup' => ?_⟩
    · rw [hT]
      exact mem_eraseIdx_of_ne he he' fun heq => hr (hup.symm.trans (congrArg Delayed.up heq))
    · rw [hgroup]
      exact h.clients e' (List.mem_of_mem_eraseIdx (hT ▸ he')) hup'
  by_cases hpushed : (R.ups e.up).pushed
  · rw [if_pos hpushed]
    intro id r hmem hclosed
    rw [hclients] at hmem
    rw [hups] at hclosed
    rcases hs id r hmem hclosed with hdone | ⟨g, hg, a, ha, hcloses⟩ | ⟨r', hpending⟩
    · exact .inl hdone
    · refine .inr (.inl ⟨g, ?_, a, ?_, hcloses⟩)
      · rw [hclients]
        exact hg
      · rw [hclients]
        exact ha
    · refine .inr (.inr ⟨r', hkeep (by rw [hS]) (by rw [hclients]) (fun r _ => by rw [hups]) ?_ hpending⟩)
      rintro rfl
      exact absurd (hpushed.symm.trans hpending.waiting) (by decide)
  · rw [if_neg hpushed]
    have hS' : S.pushConnNow e = (S.modifyUp e.up ({ · with pushed := true, replace := "" })).action
        e.clients (.pushConn e.group (S.ups e.up).id (some e.up) (S.ups e.up).tracks
          (S.ups e.up).replace) := rfl
    rw [hS']
    have hups' (k : ℕ) : (S.modifyUp e.up ({ · with pushed := true, replace := "" })).ups k =
        if k = e.up then { S.ups e.up with pushed := true, replace := "" } else S.ups k :=
      ups_modifyUp S e.up ({ · with pushed := true, replace := "" }) k
    intro id r hmem hclosed
    have hold : (id, r) ∈ (R.clients n).conns := hclients ▸ steady_action.conns _ hmem
    have hclosed' : (R.ups r).closed = true := by
      have hsame := hups' r
      rw [hups] at hsame
      by_cases hr : r = e.up
      · subst hr
        rw [if_pos rfl] at hsame
        exact (congrArg RtpUpConnection.closed hsame).symm.trans hclosed
      · rw [if_neg hr] at hsame
        exact (congrArg RtpUpConnection.closed hsame).symm.trans hclosed
    rcases hs id r hold hclosed' with hdone | ⟨g, hg, a, ha, hcloses⟩ | ⟨r', hpending⟩
    · exact .inl hdone
    · refine .inr (.inl ⟨g, ?_, a, steady_action.actions a ?_, hcloses⟩)
      · rw [steady_action.group]
        exact hclients ▸ hg
      · exact hclients ▸ ha
    · by_cases hr' : r' = e.up
      · subst hr'
        obtain ⟨hn, hgroup⟩ := hpending.clients e (List.mem_of_getElem? he) rfl
        refine .inr (.inl ⟨e.group, ?_, _, mem_actions_action hn, rfl, .inr ⟨?_, hpending.named⟩⟩)
        · rw [steady_action.group]
          exact hclients ▸ hgroup
        · rw [hups]
          exact hpending.replace
      · refine .inr (.inr ⟨r', hkeep (by rw [← hS', hS]; rfl) ?_ (fun r hr => ?_) hr' hpending⟩)
        · rw [steady_action.group]
          exact congrArg Party.group (congrFun hclients n)
        · refine (hups' r).trans ?_
          rw [if_neg hr, hups]

end Pushes

section Leaving

variable {R S : Routes} {n m r g : ℕ} {id replace : String} {order : List ℕ} {l : Label}

theorem steady_exit (hne : n ≠ m) : Steady n R (R.exit m g) := by
  unfold Net.exit
  generalize hS : ((R.clients m).links.map (·.id)).foldl (fun R id => R.cut m id) R = S
  have hcuts : Steady n R S := hS ▸ steady_cuts
  have hmodify : Steady n S (S.modify m ({ · with group := none, requested := [] })) :=
    steady_modify_of_ne hne
  exact hcuts.trans ⟨hmodify.group, hmodify.conns, hmodify.actions, hmodify.ups, hmodify.delayed⟩

theorem steady_enter (hne : n ≠ m) : Steady n R (R.enter m g) := by
  have hmodify : Steady n R (R.modify m ({ · with group := some g })) := steady_modify_of_ne hne
  exact ⟨hmodify.group, hmodify.conns, hmodify.actions, hmodify.ups, hmodify.delayed⟩

/-- When a client leaves, the others hear of what it has closed. -/
theorem Net.Sound.leave (hf : Founded R) (horder : order.Perm (R.getUpConns m))
    (hs : n ≠ m → R.Sound n fun _ => False) : (R.leave m order).Sound n fun _ => False := by
  have hleft := hf.leave horder
  cases hg : (R.clients m).group with
  | none =>
      have hsame : R.leave m order = R := by
        unfold Net.leave
        rw [hg]
      rw [hsame]
      by_cases hn : n = m
      · subst hn
        exact .of_nil (hf.outside n hg)
      · exact hs hn
  | some g =>
      have hexit : R.leave m order = (R.delUpConns m order).exit m g := by
        unfold Net.leave
        rw [hg]
      by_cases hn : n = m
      · subst hn
        refine .of_nil (hleft.outside n ?_)
        rw [hexit]
        unfold Net.exit
        exact congrArg Party.group
          ((clients_modify _ n ({ · with group := none, requested := [] }) n).trans (if_pos rfl))
      · rw [hexit]
        exact ((hs hn).delUpConns hf).steady (steady_exit hn)

theorem Broken.steady (hne : n ≠ m) (h : Broken R m r replace S) : Steady n R S := by
  induction h with
  | early => exact (steady_modify_of_ne hne).trans steady_cutReplaced
  | attach _ _ _ _ ih => exact ih.trans (steady_attach hne)
  | cut _ _ ih => exact ih.trans steady_cut

end Leaving

section Steps

variable {R S : Routes} {w w' : World} {n : ℕ} {l : Label}

theorem Net.Sound.outcome (hf : Founded R) (hok : Orderly R l) (hs : ∀ n, R.Sound n fun _ => False)
    (h : Outcome R l S) (n : ℕ) : S.Sound n fun _ => False := by
  have htake {m : ℕ} {a : Action} {rest : List Action} (hactions : (R.clients m).actions = a :: rest) :
      (R.take m).Sound n fun id => n = m ∧ ∃ g, (R.clients m).group = some g ∧ Closes g id a := by
    by_cases hn : n = m
    · subst hn
      refine ((hs n).take (by rw [hactions]; rfl)).mono fun id hid => ⟨rfl, ?_⟩
      exact hid.resolve_left fun h => h
    · exact ((hs n).steady (steady_modify_of_ne hn)).mono fun _ h => h.elim
  have hidle {m : ℕ} {a : Action} {rest : List Action} (hactions : (R.clients m).actions = a :: rest)
      (ha : ∀ g id, (R.clients m).group = some g → ¬ Closes g id a) :
      (R.take m).Sound n fun _ => False :=
    (htake hactions).mono fun id hid => by
      obtain ⟨-, g, hg, hcloses⟩ := hid
      exact ha g id hg hcloses
  have hreplaced {m g r : ℕ} {id replace : String} {tracks : List RtpUpTrack} {rest : List Action}
      (hactions : (R.clients m).actions = .pushConn g id (some r) tracks replace :: rest) :
      ((R.take m).cutReplaced m replace).Sound n fun _ => False := by
    by_cases hn : n = m
    · subst hn
      refine (htake hactions).cutReplaced.mono fun i hi => ?_
      obtain ⟨⟨-, g', -, -, hcloses⟩, hgone⟩ := hi
      rcases hcloses with ⟨hnone, -⟩ | ⟨rfl, hnamed⟩
      · cases hnone
      · exact hnamed (hgone rfl)
    · exact ((htake hactions).mono fun i hi => hn hi.1).steady steady_cutReplaced
  cases h with
  | same => exact hs n
  | @enter m g present hm =>
      by_cases hn : n = m
      · subst hn
        refine .of_nil ?_
        have hself : (R.enter n g).clients n = { R.clients n with group := some g } :=
          (clients_modify R n ({ · with group := some g }) n).trans (if_pos rfl)
        rw [hself]
        exact hf.outside n hm
      · exact (hs n).steady (steady_enter hn)
  | leave _ horder => exact Net.Sound.leave hf horder fun _ => hs n
  | queue _ _ => exact (hs n).steady steady_action
  | ask _ _ => exact (hs n).steady ((steady_modify rfl rfl rfl).trans steady_action)
  | @askStream m g id requested link rtc order hlink _ =>
      have hset : Steady n R (R.modify m (·.setLink { link with requested })) :=
        steady_modify rfl (conns_setLink hlink (hf.ids m) ⟨rfl, rfl⟩) rfl
      exact (hs n).steady (hset.trans steady_action)
  | publish hg _ _ => exact (hs n).publish hf hg
  | @again m r id label replace rtc order hfound =>
      have hreplace : replace = "" := hok (by rw [hfound]; rfl)
      unfold Net.supersede
      rw [if_neg (not_not.mpr hreplace)]
      exact hs n
  | close _ => exact (hs n).delUpConn hf
  | answer => exact (hs n).steady steady_cut
  | renegotiate => exact (hs n).steady steady_cut
  | abort => exact (hs n).steady steady_cut
  | @skip m a rest rtc order hactions hidl =>
      refine hidle hactions fun g id hg hcloses => ?_
      cases a with
      | pushConn h i conn tracks replace => exact hidl (hcloses.1 ▸ hg)
      | requestConns g target i => exact hcloses
      | connectionFailed i => exact hcloses
      | permissionsChanged => exact hcloses
  | deny hactions _ => exact (hidle hactions fun _ _ _ h => h).delUpConns (hf.kept kept_take)
  | reply hactions _ _ => exact (hidle hactions fun _ _ _ h => h).steady steady_requestConns
  | @drop m g id replace conn tracks rest rtc order hactions hg _ =>
      by_cases hn : n = m
      · subst hn
        refine (htake hactions).cutReplaced.cut.mono fun i hi => ?_
        obtain ⟨⟨⟨-, g', -, -, hcloses⟩, hreplaced⟩, hne⟩ := hi
        rcases hcloses with ⟨-, rfl⟩ | ⟨rfl, hnamed⟩
        · exact hne rfl
        · exact hnamed (hreplaced rfl)
      · exact ((htake hactions).mono fun i hi => hn hi.1).steady (steady_cutReplaced.trans steady_cut)
  | late hactions _ _ => exact hreplaced hactions
  | @attach m g r id replace tracks rest rtc order T hactions _ _ _ hT _ hopen =>
      subst hT
      by_cases hn : n = m
      · subst hn
        exact (hreplaced hactions).attach ((relinked_cutReplaced.ups r).2.1.trans hopen)
      · exact (hreplaced hactions).steady (steady_attach hn)
  | @update m g r id replace tracks rest rtc order T link hactions _ _ hT hlink =>
      subst hT
      have hids := ((hf.kept (kept_take (n := m))).cutReplaced m replace).ids m
      exact (hreplaced hactions).steady
        (steady_modify rfl (conns_setLink hlink hids ⟨rfl, rfl⟩) rfl)
  | echo hactions hg hlink => exact (hidle hactions fun _ _ _ h => h).steady steady_action
  | @broken m g r id replace tracks rest rtc order T hactions hg horder hbroken =>
      obtain ⟨hfounded, hrelinked⟩ := hbroken.founded hf fun hnone => hf.joins hactions hg hnone
      exact Net.Sound.leave hfounded (hrelinked.getUpConns ▸ horder) fun hn =>
        (hs n).steady (hbroken.steady hn)
  | failed hactions horder =>
      exact Net.Sound.leave (hf.kept kept_take) horder fun hn => (hs n).steady (steady_modify_of_ne hn)
  | onTrack hr _ => exact (hs n).onTrack hf ⟨hr, hok⟩
  | wake he hT => exact (hs n).wake he hT

theorem sound_of_reachable (h : Reachable system Orderly w) :
    Founded w.routes ∧ ∀ n, w.routes.Sound n fun _ => False := by
  refine h.invariant (P := fun w => Founded w.routes ∧ ∀ n, w.routes.Sound n fun _ => False)
    (fun w hw => ⟨founded_init hw, fun n => ?_⟩) fun w l w' hw hok hstep => ?_
  · subst hw
    exact .of_nil rfl
  · have houtcome := step_outcome hw.1.wellFormed hstep
    exact ⟨hw.1.outcome houtcome, Net.Sound.outcome hw.1 hok hw.2 houtcome⟩

theorem open_of_quiet (h : Reachable system Orderly w) (hactions : (w.clients n).actions = [])
    (hdelayed : w.delayed = []) : ∀ d ∈ (w.clients n).down, w.Live d.remote ∧
      (w.ups d.remote).client ≠ n ∧ ∃ g, (w.clients n).group = some g ∧
        (w.clients (w.ups d.remote).client).group = some g := by
  obtain ⟨hf, hs⟩ := sound_of_reachable h
  intro d hd
  have hpair : (d.id, d.remote) ∈ (w.routes.clients n).conns := mem_conns_party.mpr ⟨d, hd, rfl, rfl⟩
  obtain ⟨hlt, -, hne⟩ := hf.conns n _ _ hpair
  have hlive : w.routes.Live d.remote := by
    refine ⟨hlt, ?_⟩
    by_contra hclosed
    rcases hs n _ _ hpair (eq_true_of_ne_false hclosed) with hdone | ⟨g, -, a, ha, -⟩ | ⟨r, hpending⟩
    · exact hdone
    · rw [show (w.routes.clients n).actions = [] from hactions] at ha
      cases ha
    · obtain ⟨e, he, -⟩ := hpending.due
      rw [show w.routes.delayed = [] from hdelayed] at he
      cases he
  obtain ⟨g, hg⟩ := Option.ne_none_iff_exists'.mp (hf.live _ hlive)
  exact ⟨hlive, hne, g, (hf.same n _ _ hpair hlive).symm.trans hg, hg⟩

/-- A client with nothing left to do, when no push is due, is sent only what other members of its
group publish. -/
theorem quiet_open (h : Reachable system Orderly w) (hactions : (w.clients n).actions = [])
    (hdelayed : w.delayed = []) : ∀ d ∈ (w.clients n).down, w.Live d.remote ∧
      (w.ups d.remote).client ≠ n ∧ ∃ g, (w.clients n).group = some g ∧
        (w.clients (w.ups d.remote).client).group = some g :=
  open_of_quiet h hactions hdelayed

/-- A stream is replaced by another. -/
def secondStream : List Label :=
  firstStream ++ [.wake 0, .message 1 (.offer "b" "camera" "a") {} [0], .onTrack 1 ⟨1, .audio⟩,
    .wake 0, .wake 0, .action 2 {} []]

theorem quiet_second : ∃ w, system.exec Orderly { clients := fun _ => {} } secondStream = some w ∧
    (w.clients 2).down.map (·.remote) = [1] ∧
    (∀ d ∈ (w.clients 2).down, w.Live d.remote ∧ (w.ups d.remote).client ≠ 2 ∧
      ∃ g, (w.clients 2).group = some g ∧ (w.clients (w.ups d.remote).client).group = some g) := by
  have hrun : (system.exec Orderly { clients := fun _ => {} } secondStream).map
      (fun w => ((w.clients 2).down.map (·.remote), (w.clients 2).actions, w.delayed)) =
      some ([1], [], []) := by
    decide +kernel
  obtain ⟨w, hw, hquiet⟩ := Option.map_eq_some_iff.mp hrun
  obtain ⟨hlinks, hactions, hdelayed⟩ := by simpa only [Prod.mk.injEq] using hquiet
  exact ⟨w, hw, hlinks, quiet_open (Reachable.exec (.init rfl) hw) hactions hdelayed⟩

end Steps

end Sozvon.Streams
