import Sozvon.StreamClosing

/-!
# What is in the queues

A client that publishes a stream tells the others of it in three ways: it is asked, a push
of it is due, or a push is in the queue of the other. Clients that keep to the protocol use
an id once, and so what is closed or replaced is never a stream that is open.
-/
namespace Sozvon.Streams
open Runs

section Definitions

/-- The connection that an action pushes. -/
def Action.conn : Action → Option ℕ
  | .pushConn _ _ conn _ _ => conn
  | _ => none

/-- What clients do that keep to the protocol, when nothing is pushed late and no push is
overtaken. A new connection gets an id that has not been used, and replaces an own one, or
one that has not been offered. What is offered to a client is taken. -/
def faithful (unsent : String → Bool) (w : World) : Label → Bool
  | .message n (.offer id _ replace) _ _ =>
      match w.getUpConn n id with
      | some _ => replace = ""
      | none =>
          !unsent id && ((List.range w.fresh).all fun r => (w.ups r).id ≠ id) &&
            (replace = "" || unsent replace ||
              (List.range w.fresh).any fun r => (w.ups r).client = n && (w.ups r).id = replace)
  | .message _ (.requestStream ..) _ _ | .message _ (.abort _) _ _ => false
  | .message n (.answer id) rtc _ =>
      rtc.accepts && rtc.offers &&
        ((w.clients n).getDownConn id).all fun d => d.signalingState = .haveLocalOffer
  | .message _ (.renegotiate _) rtc _ => rtc.offers
  | .onTrack r _ => !(w.ups r).closed
  | .wake i =>
      w.delayed[i]?.all fun e => (w.ups e.up).pushed ||
        (w.getClients e.group (w.ups e.up).client).all (· ∈ e.clients)
  | .action n _ _ =>
      match (w.clients n).actions with
      | .connectionFailed id :: rest =>
          ((w.clients n).getDownConn id).all fun d => rest.all fun a => a.conn ≠ some d.remote
      | _ => true
  | _ => true

abbrev Faithful (unsent : String → Bool) (w : World) (l : Label) : Prop := faithful unsent w l = true

namespace Net
variable (unsent : String → Bool) (R : Routes) (n g r : ℕ)

/-- An id that no connection has or will have. -/
def Dead (id : String) : Prop :=
  unsent id = true ∨ ∃ r < R.fresh, (R.ups r).closed = true ∧ (R.ups r).id = id

/-- What the action may close is closed already. -/
def Harmless : Action → Prop
  | .pushConn _ id conn _ replace =>
      (conn = none → R.Dead unsent id) ∧ (replace = "" ∨ R.Dead unsent replace)
  | _ => True

structure Plain : Prop where
  ids : ∀ r r', r < R.fresh → r' < R.fresh → (R.ups r).id = (R.ups r').id → r = r'
  sent : ∀ r < R.fresh, unsent (R.ups r).id = false
  replaces : ∀ r < R.fresh, (R.ups r).replace = "" ∨ R.Dead unsent (R.ups r).replace
  actions : ∀ n, ∀ a ∈ (R.clients n).actions, R.Harmless unsent a
  links : ∀ n, ∀ l ∈ (R.clients n).links, l.requested = none ∧ l.tracks.Nodup
  outside : ∀ n, (R.clients n).group = none → (R.clients n).requested = []

/-- What a client is sent of these tracks. -/
def pick (tracks : List RtpUpTrack) : List RtpUpTrack :=
  (requestedTracks ((R.clients n).requestedOf (R.ups r).label) tracks).1

end Net

/-- The tracks of a connection that an action pushes to the members of a group. -/
def Action.pushed (g r : ℕ) : Action → Option (List RtpUpTrack)
  | .pushConn h _ conn tracks _ => if h = g ∧ conn = some r then some tracks else none
  | _ => none

namespace Party

def pushes (p : Party) (g r : ℕ) : List (List RtpUpTrack) := p.actions.filterMap (Action.pushed g r)

def tracksOf (p : Party) (id : String) : List RtpUpTrack := ((p.link id).map (·.tracks)).getD []

end Party

namespace Net
variable (R : Routes) (n g r : ℕ)

/-- What a client will be sent of a connection when it has dealt with its queue. -/
def heading : List RtpUpTrack :=
  match ((R.clients n).pushes g r).getLast? with
  | some tracks => R.pick n r tracks
  | none => (R.clients n).tracksOf (R.ups r).id

/-- The client and the owner of a connection are in the same group. -/
structure Owed : Prop where
  live : R.Live r
  member : (R.clients n).group = some g
  owner : (R.clients (R.ups r).client).group = some g
  other : n ≠ (R.ups r).client

/-- The owner is to be asked, a push is due, or what is wanted is on its way. -/
def Served : Prop :=
  .requestConns g n "" ∈ (R.clients (R.ups r).client).actions ∨
    ((R.ups r).pushed = false ∧ ∃ e ∈ R.delayed, e.up = r) ∨
    (R.heading n g r).Perm (R.pick n r (R.ups r).tracks)

end Net

/-- Nothing but what a client is sent of a connection has changed between them. -/
structure Near (n g r : ℕ) (R R' : Routes) : Prop where
  requested : (R'.clients n).requested = (R.clients n).requested
  pushes : (R'.clients n).pushes g r = (R.clients n).pushes g r
  asks : .requestConns g n "" ∈ (R.clients (R.ups r).client).actions →
    .requestConns g n "" ∈ (R'.clients (R.ups r).client).actions
  up : (R'.ups r).id = (R.ups r).id ∧ (R'.ups r).client = (R.ups r).client ∧
    (R'.ups r).label = (R.ups r).label ∧ (R'.ups r).tracks = (R.ups r).tracks ∧
    (R'.ups r).pushed = (R.ups r).pushed
  delayed : (∃ e ∈ R.delayed, e.up = r) → ∃ e ∈ R'.delayed, e.up = r

/-- Nothing has changed between a client and a connection. -/
structure Calm (n g r : ℕ) (R R' : Routes) : Prop extends Near n g r R R' where
  tracks : (R'.clients n).tracksOf (R.ups r).id = (R.clients n).tracksOf (R.ups r).id

end Definitions

section Tracks

variable {req : List String} {tracks given : List RtpUpTrack}

theorem find_congr {kind : Kind} {last : Bool}
    (h : given.filter (·.kind = kind) = tracks.filter (·.kind = kind)) :
    find given kind last = find tracks kind last := by
  unfold find
  rw [h]

/-- At most one track of a kind is sent, and none of a kind that has not been asked for. -/
theorem requestedTracks_eq (req : List String) (tracks : List RtpUpTrack) :
    ∃ audio video : Option RtpUpTrack, (requestedTracks req tracks).1 = audio.toList ++ video.toList ∧
      ((∀ t, audio = some t → t.kind = .audio) ∧ (∀ t, video = some t → t.kind = .video)) ∧
      ("audio" ∉ req → audio = none) ∧ ("video" ∉ req → "video-low" ∉ req → video = none) := by
  have hnone (kind : Kind) : ∀ t : RtpUpTrack, none = some t → t.kind = kind := fun t h => (by cases h)
  have haudio : ∃ audio : Option RtpUpTrack, (if "audio" ∈ req then (find tracks .audio false).1.toList
      else []) = audio.toList ∧ (∀ t, audio = some t → t.kind = .audio) ∧
      ("audio" ∉ req → audio = none) := by
    split_ifs with h
    · exact ⟨_, rfl, fun t ht => (mem_find ht).2, fun hnot => absurd h hnot⟩
    · exact ⟨none, rfl, hnone _, fun _ => rfl⟩
  obtain ⟨audio, haudio, haudios, hasked⟩ := haudio
  unfold requestedTracks
  rw [haudio]
  dsimp only
  split_ifs with hlength hvideo hlow
  · exact ⟨none, none, rfl, ⟨hnone _, hnone _⟩, fun _ => rfl, fun _ _ => rfl⟩
  · exact ⟨audio, _, rfl, ⟨haudios, fun t ht => (mem_find ht).2⟩, hasked, fun h => absurd hvideo h⟩
  · exact ⟨audio, _, rfl, ⟨haudios, fun t ht => (mem_find ht).2⟩, hasked, fun _ h => absurd hlow h⟩
  · exact ⟨audio, none, (List.append_nil _).symm, ⟨haudios, hnone _⟩, hasked, fun _ _ => rfl⟩

theorem filter_kinds {audio video : Option RtpUpTrack} (haudio : ∀ t, audio = some t → t.kind = .audio)
    (hvideo : ∀ t, video = some t → t.kind = .video) :
    (audio.toList ++ video.toList).filter (·.kind = .audio) = audio.toList ∧
      (audio.toList ++ video.toList).filter (·.kind = .video) = video.toList := by
  rw [List.filter_append, List.filter_append]
  cases audio with
  | none =>
      cases video with
      | none => exact ⟨rfl, rfl⟩
      | some v => simp [hvideo v rfl]
  | some a =>
      cases video with
      | none => simp [haudio a rfl]
      | some v => simp [haudio a rfl, hvideo v rfl]

theorem requestedTracks_nodup : (requestedTracks req tracks).1.Nodup := by
  obtain ⟨audio, video, heq, ⟨haudio, hvideo⟩, -⟩ := requestedTracks_eq req tracks
  rw [heq]
  cases audio with
  | none => cases video <;> simp
  | some a =>
      cases video with
      | none => simp
      | some v =>
          have hne : a ≠ v := by
            rintro rfl
            exact absurd ((haudio a rfl).symm.trans (hvideo a rfl)) (by decide)
          simpa using hne

theorem filter_requestedTracks_length (kind : Kind) :
    ((requestedTracks req tracks).1.filter (·.kind = kind)).length ≤ 1 := by
  obtain ⟨audio, video, heq, ⟨haudio, hvideo⟩, -⟩ := requestedTracks_eq req tracks
  obtain ⟨hfirst, hsecond⟩ := filter_kinds haudio hvideo
  rw [heq]
  cases kind with
  | audio =>
      rw [hfirst]
      cases audio <;> simp
  | video =>
      rw [hsecond]
      cases video <;> simp

theorem requestedTracks_self :
    (requestedTracks req (requestedTracks req tracks).1).1 = (requestedTracks req tracks).1 := by
  obtain ⟨audio, video, heq, ⟨haudio, hvideo⟩, hnoaudio, hnovideo⟩ := requestedTracks_eq req tracks
  obtain ⟨hfirst, hsecond⟩ := filter_kinds haudio hvideo
  have hfindAudio : (find (audio.toList ++ video.toList) .audio false).1 = audio := by
    unfold find
    rw [hfirst]
    cases audio <;> rfl
  have hfindVideo (last : Bool) : (find (audio.toList ++ video.toList) .video last).1 = video := by
    unfold find
    rw [hsecond]
    cases last <;> cases video <;> rfl
  have hlist : (if "audio" ∈ req then audio.toList else []) = audio.toList := by
    split_ifs with h
    · rfl
    · rw [hnoaudio h]
      rfl
  rw [heq]
  unfold requestedTracks
  rw [hfindAudio, hlist]
  dsimp only
  split_ifs with hlength hv hlow
  · have hreq := List.length_eq_zero_iff.mp hlength
    rw [hreq] at hnoaudio hnovideo
    rw [hnoaudio (by simp), hnovideo (by simp) (by simp)]
    rfl
  · rw [hfindVideo]
  · rw [hfindVideo]
  · rw [hnovideo hv hlow, Option.toList_none, List.append_nil]

/-- To be given what one is sent already changes nothing. -/
theorem requestedTracks_perm (h : given.Perm (requestedTracks req tracks).1) :
    (requestedTracks req given).1.Perm given := by
  have hfilter (kind : Kind) : given.filter (·.kind = kind) =
      (requestedTracks req tracks).1.filter (·.kind = kind) := by
    have hperm := h.filter fun t => decide (t.kind = kind)
    have hlength := @filter_requestedTracks_length req tracks kind
    generalize (requestedTracks req tracks).1.filter (fun t => decide (t.kind = kind)) = l at hperm hlength
    match l with
    | [] => exact hperm.eq_nil
    | [t] => exact List.perm_singleton.mp hperm
    | _ :: _ :: _ => exact absurd hlength (by simp)
  have hsame : requestedTracks req given = requestedTracks req (requestedTracks req tracks).1 := by
    unfold requestedTracks
    rw [find_congr (hfilter .audio), find_congr (hfilter .video), find_congr (hfilter .video)]
    rfl
  rw [hsame, requestedTracks_self]
  exact h.symm

theorem merge_perm (hgiven : given.Nodup) (htracks : tracks.Nodup) : (merge given tracks).Perm tracks := by
  have hkept : (given.filter (· ∈ tracks)).Perm (tracks.filter (· ∈ given)) := by
    refine (List.perm_ext_iff_of_nodup (hgiven.filter _) (htracks.filter _)).mpr fun t => ?_
    rw [List.mem_filter, List.mem_filter, decide_eq_true_eq, decide_eq_true_eq, and_comm]
  have hnew : tracks.filter (· ∉ given) = tracks.filter fun t => !decide (t ∈ given) :=
    List.filter_congr fun t _ => (by simp)
  rw [merge, hnew]
  exact (hkept.append_right _).trans (List.filter_append_perm (fun t => decide (t ∈ given)) tracks)

end Tracks

section Plainness

variable {unsent : String → Bool} {R R' S : Routes} {n m k r g : ℕ} {id replace label : String}
  {a : Action} {order : List ℕ}

/-- Nothing is used that is not known. -/
structure Mild (unsent : String → Bool) (R R' : Routes) : Prop where
  fresh : R'.fresh = R.fresh
  ids : ∀ r, (R'.ups r).id = (R.ups r).id
  closed : ∀ r, (R.ups r).closed = true → (R'.ups r).closed = true
  replaces : ∀ r, (R'.ups r).replace = (R.ups r).replace ∨ (R'.ups r).replace = "" ∨
    R'.Dead unsent (R'.ups r).replace
  actions : ∀ n, ∀ a ∈ (R'.clients n).actions, a ∈ (R.clients n).actions ∨ R'.Harmless unsent a
  links : ∀ n, ∀ l ∈ (R'.clients n).links, l ∈ (R.clients n).links ∨
    (l.requested = none ∧ l.tracks.Nodup)
  outside : ∀ n, (R'.clients n).group = none → (R'.clients n).requested = [] ∨
    ((R.clients n).group = none ∧ (R'.clients n).requested = (R.clients n).requested)

theorem Mild.dead (h : Mild unsent R R') (hid : R.Dead unsent id) : R'.Dead unsent id := by
  rcases hid with hunsent | ⟨r, hr, hclosed, hid⟩
  · exact .inl hunsent
  · exact .inr ⟨r, h.fresh ▸ hr, h.closed r hclosed, (h.ids r).trans hid⟩

theorem Mild.harmless (h : Mild unsent R R') (ha : R.Harmless unsent a) : R'.Harmless unsent a := by
  cases a with
  | pushConn g i conn tracks replace => exact ⟨fun hc => h.dead (ha.1 hc), ha.2.imp_right h.dead⟩
  | requestConns g target i => trivial
  | connectionFailed i => trivial
  | permissionsChanged => trivial

theorem Net.Plain.mild (hp : R.Plain unsent) (h : Mild unsent R R') : R'.Plain unsent where
  ids r r' hr hr' hid := by
    rw [h.ids, h.ids] at hid
    rw [h.fresh] at hr hr'
    exact hp.ids r r' hr hr' hid
  sent r hr := by
    rw [h.ids]
    rw [h.fresh] at hr
    exact hp.sent r hr
  replaces r hr := by
    rw [h.fresh] at hr
    rcases h.replaces r with heq | hnone | hdead
    · rw [heq]
      exact (hp.replaces r hr).imp_right h.dead
    · exact .inl hnone
    · exact .inr hdead
  actions n a ha := (h.actions n a ha).elim (fun ha => h.harmless (hp.actions n a ha)) fun ha => ha
  links n l hl := (h.links n l hl).elim (hp.links n l) fun hl => hl
  outside n hn := by
    rcases h.outside n hn with hnone | ⟨hn, heq⟩
    · exact hnone
    · exact heq.trans (hp.outside n hn)

theorem Mild.refl (unsent : String → Bool) (R : Routes) : Mild unsent R R :=
  ⟨rfl, fun _ => rfl, fun _ h => h, fun _ => .inl rfl, fun _ _ h => .inl h, fun _ _ h => .inl h,
    fun _ h => .inr ⟨h, rfl⟩⟩

theorem Mild.trans (h : Mild unsent R R') (h' : Mild unsent R' S) : Mild unsent R S where
  fresh := h'.fresh.trans h.fresh
  ids r := (h'.ids r).trans (h.ids r)
  closed r hr := h'.closed r (h.closed r hr)
  replaces r := by
    rcases h'.replaces r with heq | hnone | hdead
    · rw [heq]
      rcases h.replaces r with heq' | hnone' | hdead'
      · exact .inl heq'
      · exact .inr (.inl hnone')
      · exact .inr (.inr (h'.dead hdead'))
    · exact .inr (.inl hnone)
    · exact .inr (.inr hdead)
  actions n a ha := by
    rcases h'.actions n a ha with ha | ha
    · exact (h.actions n a ha).imp_right h'.harmless
    · exact .inr ha
  links n l hl := by
    rcases h'.links n l hl with hl | hl
    · exact h.links n l hl
    · exact .inr hl
  outside n hn := by
    rcases h'.outside n hn with hnone | ⟨hn, heq⟩
    · exact .inl hnone
    · rcases h.outside n hn with hnone | ⟨hn, heq'⟩
      · exact .inl (heq.trans hnone)
      · exact .inr ⟨hn, heq.trans heq'⟩

/-- No open connection has the id of one that is closed. -/
theorem Net.Plain.ne_of_live (hp : R.Plain unsent) (hid : R.Dead unsent id) (hr : R.Live r) :
    (R.ups r).id ≠ id := by
  intro heq
  rcases hid with hunsent | ⟨r', hr', hclosed, hid⟩
  · rw [← heq, hp.sent r hr.1] at hunsent
    cases hunsent
  · have hsame := hp.ids r r' hr.1 hr' (heq.trans hid.symm)
    rw [← hsame, hr.2] at hclosed
    cases hclosed

theorem mild_action {ks : List ℕ} (ha : R.Harmless unsent a) : Mild unsent R (R.action ks a) where
  fresh := rfl
  ids _ := rfl
  closed _ h := h
  replaces _ := .inl rfl
  actions k b hb := by
    unfold Net.action at hb
    dsimp only at hb
    split_ifs at hb
    · rcases List.mem_append.mp hb with hb | hb
      · exact .inl hb
      · rw [List.mem_singleton.mp hb]
        right
        cases a with
        | pushConn g i conn tracks replace => exact ha
        | requestConns g target i => trivial
        | connectionFailed i => trivial
        | permissionsChanged => trivial
    · exact .inl hb
  links k l hl := by
    unfold Net.action at hl
    dsimp only at hl
    split_ifs at hl with hk
    · exact .inl hl
    · exact .inl hl
  outside k hk := by
    right
    unfold Net.action at hk ⊢
    dsimp only at hk ⊢
    split_ifs with hmem
    · rw [if_pos hmem] at hk
      exact ⟨hk, rfl⟩
    · rw [if_neg hmem] at hk
      exact ⟨hk, rfl⟩

theorem mild_modifyUp {f : RtpUpConnection → RtpUpConnection} (hid : (f (R.ups r)).id = (R.ups r).id)
    (hclosed : (R.ups r).closed = true → (f (R.ups r)).closed = true)
    (hreplace : (f (R.ups r)).replace = (R.ups r).replace ∨ (f (R.ups r)).replace = "") :
    Mild unsent R (R.modifyUp r f) where
  fresh := rfl
  ids k := by
    rw [ups_modifyUp]
    split_ifs with hk
    · rw [hid, hk]
    · rfl
  closed k hk := by
    rw [ups_modifyUp]
    split_ifs with hkr
    · exact hclosed (hkr ▸ hk)
    · exact hk
  replaces k := by
    rw [ups_modifyUp]
    split_ifs with hk
    · rw [hk]
      exact hreplace.imp_right .inl
    · exact .inl rfl
  actions _ _ h := .inl h
  links _ _ h := .inl h
  outside _ h := .inr ⟨h, rfl⟩

theorem mild_modify {f : Party → Party}
    (hactions : ∀ a ∈ (f (R.clients n)).actions, a ∈ (R.clients n).actions)
    (hlinks : ∀ l ∈ (f (R.clients n)).links, l ∈ (R.clients n).links ∨
      (l.requested = none ∧ l.tracks.Nodup))
    (houtside : (f (R.clients n)).group = none → (f (R.clients n)).requested = [] ∨
      ((R.clients n).group = none ∧ (f (R.clients n)).requested = (R.clients n).requested)) :
    Mild unsent R (R.modify n f) where
  fresh := rfl
  ids _ := rfl
  closed _ h := h
  replaces _ := .inl rfl
  actions k a ha := by
    rw [clients_modify] at ha
    split_ifs at ha with hk
    · rw [hk]
      exact .inl (hactions a ha)
    · exact .inl ha
  links k l hl := by
    rw [clients_modify] at hl
    split_ifs at hl with hk
    · rw [hk]
      exact hlinks l hl
    · exact .inl hl
  outside k hk := by
    rw [clients_modify] at hk ⊢
    split_ifs with hkn
    · rw [if_pos hkn] at hk
      rw [hkn]
      exact houtside hk
    · rw [if_neg hkn] at hk
      exact .inr ⟨hk, rfl⟩

theorem mild_take : Mild unsent R (R.take n) :=
  mild_modify (fun _ => List.mem_of_mem_tail) (fun _ h => .inl h) fun h => .inr ⟨h, rfl⟩

theorem mild_cut : Mild unsent R (R.cut n id) := by
  cases hl : (R.clients n).link id with
  | none =>
      rw [cut_of_none hl]
      exact .refl unsent R
  | some l =>
      rw [cut_of_some hl]
      exact (mild_modifyUp rfl (fun h => h) (.inl rfl)).trans (mild_modify (fun _ h => h)
        (fun _ h => .inl (List.mem_of_mem_filter h)) fun h => .inr ⟨h, rfl⟩)

theorem mild_cuts {ids : List String} : Mild unsent R (ids.foldl (fun R id => R.cut n id) R) := by
  induction ids generalizing R with
  | nil => exact .refl unsent R
  | cons id ids ih => exact mild_cut.trans ih

theorem mild_cutReplaced : Mild unsent R (R.cutReplaced n replace) := by
  unfold Net.cutReplaced
  split_ifs
  · exact mild_cut
  · exact .refl unsent R

theorem mild_attach {tracks : List RtpUpTrack} (h : tracks.Nodup) : Mild unsent R (R.attach n r tracks) := by
  have hup : Mild unsent R (R.modifyUp r fun u =>
      if n ∈ u.locals then u else { u with locals := u.locals ++ [n] }) := by
    refine mild_modifyUp ?_ (fun hr => ?_) (.inl ?_)
    · split_ifs <;> rfl
    · split_ifs <;> exact hr
    · split_ifs <;> rfl
  refine hup.trans (mild_modify (fun _ h => h) (fun l hl => ?_) fun h => .inr ⟨h, rfl⟩)
  rcases List.mem_append.mp hl with hl | hl
  · exact .inl hl
  · rw [List.mem_singleton.mp hl]
    exact .inr ⟨rfl, h⟩

theorem mild_setLink {l : Link} (h : l.requested = none ∧ l.tracks.Nodup) :
    Mild unsent R (R.modify n (·.setLink l)) := by
  refine mild_modify (fun _ h => h) (fun l' hl' => ?_) fun h => .inr ⟨h, rfl⟩
  obtain ⟨l'', hl'', rfl⟩ := List.mem_map.mp hl'
  split_ifs
  · exact .inr h
  · exact .inl hl''

theorem Net.Plain.delUpConn {push : Bool} (hp : R.Plain unsent) : (R.delUpConn n id push).Plain unsent := by
  cases hfound : R.getUpConn n id with
  | none =>
      rw [delUpConn_none hfound]
      exact hp
  | some r =>
      have hclosing : Mild unsent R (R.modifyUp r ({ · with closed := true })) :=
        mild_modifyUp rfl (fun _ => rfl) (.inl rfl)
      unfold Net.delUpConn
      rw [hfound]
      cases push with
      | false => exact hp.mild hclosing
      | true =>
          cases hg : Peer.group (R.clients n) with
          | none => exact hp.mild hclosing
          | some g =>
              obtain ⟨hr, -, hid⟩ := getUpConn_some hfound
              refine hp.mild (hclosing.trans (mild_action ⟨fun _ => .inr ⟨r, hr.1, ?_, ?_⟩, ?_⟩))
              · rw [ups_modifyUp, if_pos rfl]
              · rw [ups_modifyUp, if_pos rfl]
                exact hid
              · exact (hp.replaces r hr.1).imp_right hclosing.dead

theorem Net.Plain.delUpConns (hp : R.Plain unsent) : (R.delUpConns n order).Plain unsent := by
  unfold Net.delUpConns
  induction order generalizing R with
  | nil => exact hp
  | cons r order ih => exact ih hp.delUpConn

theorem Net.Plain.leave (hp : R.Plain unsent) : (R.leave n order).Plain unsent := by
  unfold Net.leave
  cases (R.clients n).group with
  | none => exact hp
  | some g =>
      have hleft := (@Net.Plain.delUpConns unsent R n order hp).mild
        (@mild_cuts unsent _ n (((R.delUpConns n order).clients n).links.map (·.id)))
      have hgone := hleft.mild (mild_modify (n := n) (f := ({ · with group := none, requested := [] }))
        (fun _ h => h) (fun _ h => .inl h) fun _ => .inl rfl)
      exact ⟨hgone.ids, hgone.sent, hgone.replaces, hgone.actions, hgone.links, hgone.outside⟩

theorem Net.Plain.enter (hp : R.Plain unsent) : (R.enter n g).Plain unsent := by
  have hentered := hp.mild (mild_modify (n := n) (f := ({ · with group := some g }))
    (fun _ h => h) (fun _ h => .inl h) fun h => (by cases h))
  exact ⟨hentered.ids, hentered.sent, hentered.replaces, hentered.actions, hentered.links,
    hentered.outside⟩

theorem Net.Plain.requestConns {target : ℕ} (hp : R.Plain unsent) (horder : ∀ r ∈ order, r < R.fresh) :
    (R.requestConns target g id order).Plain unsent := by
  unfold Net.requestConns
  induction order generalizing R with
  | nil => exact hp
  | cons r order ih =>
      rw [List.foldl_cons]
      split_ifs
      · exact ih hp fun r hr => horder r (List.mem_cons_of_mem _ hr)
      · refine ih (hp.mild (mild_action ⟨fun h => (by cases h), ?_⟩)) fun r hr =>
          horder r (List.mem_cons_of_mem _ hr)
        exact hp.replaces r (horder r List.mem_cons_self)

theorem Net.Plain.pushConn (hp : R.Plain unsent) : (R.pushConn r).Plain unsent := by
  cases hg : Peer.group (R.clients (R.ups r).client) with
  | none =>
      rw [pushConn_of_none hg]
      exact hp
  | some g =>
      rw [pushConn_of_some hg]
      have hpushed := hp.mild (mild_modifyUp (r := r) (f := ({ · with pushed := false })) rfl
        (fun h => h) (.inl rfl))
      exact ⟨hpushed.ids, hpushed.sent, hpushed.replaces, hpushed.actions, hpushed.links,
        hpushed.outside⟩

theorem Net.Plain.pushConnNow {e : Delayed} (hp : R.Plain unsent) (he : e.up < R.fresh) :
    (R.pushConnNow e).Plain unsent := by
  have hpushed : Mild unsent R (R.modifyUp e.up ({ · with pushed := true, replace := "" })) :=
    mild_modifyUp rfl (fun h => h) (.inr rfl)
  exact hp.mild (hpushed.trans (mild_action
    ⟨fun h => (by cases h), (hp.replaces e.up he).imp_right hpushed.dead⟩))

theorem Net.Plain.newUpConn (hp : R.Plain unsent) (hg : (R.clients m).group = some g)
    (hid : unsent id = false) (hnew : ∀ r < R.fresh, (R.ups r).id ≠ id) :
    (R.newUpConn m id label).Plain unsent := by
  obtain ⟨hclients, -, hfresh⟩ := @clients_newUpConn R m id label
  have hold {r : ℕ} (hr : r < R.fresh) : (R.newUpConn m id label).ups r = R.ups r := by
    rw [ups_newUpConn hg, if_neg (Nat.ne_of_lt hr)]
  have hself : (R.newUpConn m id label).ups R.fresh = { id, client := m, label } := by
    rw [ups_newUpConn hg, if_pos rfl]
  have hdead {i : String} (h : R.Dead unsent i) : (R.newUpConn m id label).Dead unsent i := by
    rcases h with hunsent | ⟨r, hr, hclosed, hi⟩
    · exact .inl hunsent
    · exact .inr ⟨r, hfresh ▸ Nat.lt_succ_of_lt hr, hold hr ▸ hclosed, hold hr ▸ hi⟩
  have hcases {r : ℕ} (hr : r < (R.newUpConn m id label).fresh) : r < R.fresh ∨ r = R.fresh := by
    rw [hfresh] at hr
    exact Nat.lt_or_eq_of_le (Nat.lt_succ_iff.mp hr)
  exact {
    ids := fun r r' hr hr' heq => by
      rcases hcases hr with hr | rfl
      · rcases hcases hr' with hr' | rfl
        · rw [hold hr, hold hr'] at heq
          exact hp.ids r r' hr hr' heq
        · rw [hold hr, hself] at heq
          exact absurd heq (hnew r hr)
      · rcases hcases hr' with hr' | rfl
        · rw [hold hr', hself] at heq
          exact absurd heq.symm (hnew r' hr')
        · rfl
    sent := fun r hr => by
      rcases hcases hr with hr | rfl
      · rw [hold hr]
        exact hp.sent r hr
      · rw [hself]
        exact hid
    replaces := fun r hr => by
      rcases hcases hr with hr | rfl
      · rw [hold hr]
        exact (hp.replaces r hr).imp_right hdead
      · rw [hself]
        exact .inl rfl
    actions := fun n a ha => by
      rw [hclients] at ha
      have hharmless := hp.actions n a ha
      cases a with
      | pushConn g i conn tracks replace =>
          exact ⟨fun hc => hdead (hharmless.1 hc), hharmless.2.imp_right hdead⟩
      | requestConns g target i => trivial
      | connectionFailed i => trivial
      | permissionsChanged => trivial
    links := fun n l hl => by
      rw [hclients] at hl
      exact hp.links n l hl
    outside := fun n hn => by
      rw [hclients] at hn ⊢
      exact hp.outside n hn }

/-- What a new connection replaces is closed. -/
theorem mild_supersede (hp : R.Plain unsent)
    (hreplace : replace = "" ∨ unsent replace = true ∨
      ∃ r' < R.fresh, (R.ups r').client = n ∧ (R.ups r').id = replace) :
    Mild unsent R (R.supersede n r replace) := by
  unfold Net.supersede
  by_cases hnone : replace = ""
  · rw [if_neg (not_not.mpr hnone)]
    exact .refl unsent R
  · rw [if_pos hnone]
    replace hreplace := hreplace.resolve_left hnone
    have hups (k : ℕ) : (R.modifyUp r ({ · with replace })).ups k =
        if k = r then { R.ups r with replace } else R.ups k := ups_modifyUp R r ({ · with replace }) k
    have hids (k : ℕ) : ((R.modifyUp r ({ · with replace })).ups k).id = (R.ups k).id ∧
        ((R.modifyUp r ({ · with replace })).ups k).client = (R.ups k).client ∧
        ((R.modifyUp r ({ · with replace })).ups k).closed = (R.ups k).closed := by
      rw [hups]
      split_ifs with hk
      · rw [hk]
        exact ⟨rfl, rfl, rfl⟩
      · exact ⟨rfl, rfl, rfl⟩
    have hreplaces (k : ℕ) : ((R.modifyUp r ({ · with replace })).ups k).replace = (R.ups k).replace ∨
        ((R.modifyUp r ({ · with replace })).ups k).replace = replace := by
      rw [hups]
      split_ifs with hk
      · exact .inr rfl
      · exact .inl rfl
    cases hfound : (R.modifyUp r ({ · with replace })).getUpConn n replace with
    | none =>
        rw [delUpConn_none hfound]
        refine ⟨rfl, fun k => (hids k).1, fun k hk => (hids k).2.2.trans hk, fun k => ?_,
          fun _ _ h => .inl h, fun _ _ h => .inl h, fun _ h => .inr ⟨h, rfl⟩⟩
        refine (hreplaces k).imp_right fun heq => .inr ?_
        rw [heq]
        refine hreplace.imp_right ?_
        rintro ⟨r', hr', hclient, hid⟩
        refine ⟨r', hr', ?_, (hids r').1.trans hid⟩
        by_contra hopen
        exact getUpConn_none hfound ⟨hr', eq_false_of_ne_true hopen⟩ ((hids r').2.1.trans hclient)
          ((hids r').1.trans hid)
    | some r'' =>
        obtain ⟨hlive, -, hid''⟩ := getUpConn_some hfound
        rw [delUpConn_quiet hfound]
        have hclosing (k : ℕ) : ((R.modifyUp r ({ · with replace })).modifyUp r''
            ({ · with closed := true })).ups k = if k = r'' then
              { (R.modifyUp r ({ · with replace })).ups r'' with closed := true }
            else (R.modifyUp r ({ · with replace })).ups k := ups_modifyUp ..
        have hsame (k : ℕ) : (((R.modifyUp r ({ · with replace })).modifyUp r''
              ({ · with closed := true })).ups k).id = (R.ups k).id ∧
            (((R.modifyUp r ({ · with replace })).modifyUp r''
              ({ · with closed := true })).ups k).replace =
              ((R.modifyUp r ({ · with replace })).ups k).replace := by
          rw [hclosing]
          split_ifs with hk
          · rw [hk]
            exact ⟨(hids r'').1, rfl⟩
          · exact ⟨(hids k).1, rfl⟩
        refine ⟨rfl, fun k => (hsame k).1, fun k hk => ?_, fun k => ?_, fun _ _ h => .inl h,
          fun _ _ h => .inl h, fun _ h => .inr ⟨h, rfl⟩⟩
        · rw [hclosing]
          split_ifs with hkr
          · rfl
          · exact (hids k).2.2.trans hk
        · rw [(hsame k).2]
          refine (hreplaces k).imp_right fun heq => .inr ?_
          rw [heq]
          refine hreplace.imp_right ?_
          rintro ⟨r', hr', -, hid⟩
          have heq' : r'' = r' := hp.ids r'' r' hlive.1 hr' ((hids r'').1.symm.trans (hid''.trans hid.symm))
          refine ⟨r', hr', ?_, (hsame r').1.trans hid⟩
          rw [hclosing, if_pos heq'.symm]

theorem Broken.mild (h : Broken R n r replace S) : Mild unsent R S := by
  induction h with
  | early => exact mild_take.trans mild_cutReplaced
  | attach _ _ _ _ ih => exact ih.trans (mild_attach List.nodup_nil)
  | cut _ _ ih => exact ih.trans mild_cut

theorem asked_nodup {conn : Option ℕ} {tracks : List RtpUpTrack} :
    (R.asked n conn tracks replace).Nodup := by
  cases conn with
  | none => exact List.nodup_nil
  | some r => exact requestedTracks_nodup

theorem Net.Plain.outcome {w : World} {l : Label} (hf : Founded w.routes) (hp : w.routes.Plain unsent)
    (hok : Faithful unsent w l) (h : Outcome w.routes l S) : S.Plain unsent := by
  cases h with
  | same => exact hp
  | enter _ => exact hp.enter
  | leave _ _ => exact hp.leave
  | queue _ ha =>
      refine hp.mild (mild_action ?_)
      rcases ha with rfl | ⟨id, rfl⟩ <;> trivial
  | ask _ hg =>
      refine hp.mild ((mild_modify (fun _ h => h) (fun _ h => .inl h) fun h => ?_).trans
        (mild_action trivial))
      rw [hg] at h
      cases h
  | askStream _ _ => cases hok
  | @publish n g id label replace rtc order hg _ hnone =>
      have hup : w.getUpConn n id = none := hnone
      rw [Faithful, faithful, hup] at hok
      simp only [Bool.and_eq_true, Bool.or_eq_true, Bool.not_eq_true', decide_eq_true_eq,
        List.all_eq_true, List.any_eq_true, List.mem_range] at hok
      obtain ⟨⟨hunsent, hnew⟩, hreplace⟩ := hok
      have hplain := @Net.Plain.newUpConn unsent w.routes n g id label hp hg hunsent hnew
      obtain ⟨-, -, hfresh⟩ := @clients_newUpConn w.routes n id label
      refine hplain.mild (mild_supersede hplain ?_)
      rcases hreplace with (hempty | hunsent) | ⟨r, hr, hclient, hid⟩
      · exact .inl hempty
      · exact .inr (.inl hunsent)
      · have hold : (w.routes.newUpConn n id label).ups r = w.routes.ups r := by
          rw [ups_newUpConn hg, if_neg (Nat.ne_of_lt (show r < w.routes.fresh from hr))]
        refine .inr (.inr ⟨r, hfresh ▸ Nat.lt_succ_of_lt hr, ?_, ?_⟩)
        · rw [hold]
          exact hclient
        · rw [hold]
          exact hid
  | @again n r id label replace rtc order hfound =>
      have hup : w.getUpConn n id = some r := hfound
      rw [Faithful, faithful, hup] at hok
      exact hp.mild (mild_supersede hp (.inl (of_decide_eq_true hok)))
  | close _ => exact hp.delUpConn
  | answer => exact hp.mild mild_cut
  | renegotiate => exact hp.mild mild_cut
  | abort => cases hok
  | skip _ _ => exact hp.mild mild_take
  | deny _ _ => exact (hp.mild mild_take).delUpConns
  | reply _ _ horder =>
      refine (hp.mild mild_take).requestConns fun r hr => ?_
      exact (mem_getUpConns.mp (horder.mem_iff.mp hr)).1.1
  | drop _ _ _ => exact hp.mild ((mild_take.trans mild_cutReplaced).trans mild_cut)
  | late _ _ _ => exact hp.mild (mild_take.trans mild_cutReplaced)
  | attach _ _ _ _ hT _ _ =>
      subst hT
      exact hp.mild ((mild_take.trans mild_cutReplaced).trans (mild_attach asked_nodup))
  | @update n g r id replace tracks rest rtc order T link _ _ _ hT hlink =>
      subst hT
      have hcut := hp.mild ((@mild_take unsent w.routes n).trans (@mild_cutReplaced unsent _ n replace))
      obtain ⟨hrequested, hnodup⟩ := hcut.links n link (List.mem_of_find?_eq_some hlink)
      exact hcut.mild (mild_setLink ⟨hrequested, (merge_perm hnodup asked_nodup).nodup_iff.mpr asked_nodup⟩)
  | echo _ _ _ =>
      exact hp.mild (mild_take.trans (mild_action ⟨fun h => (by cases h), .inl rfl⟩))
  | broken _ _ _ hbroken => exact (hp.mild hbroken.mild).leave
  | failed _ _ => exact (hp.mild mild_take).leave
  | onTrack _ _ => exact (hp.mild (mild_modifyUp rfl (fun h => h) (.inl rfl))).pushConn
  | @wake i e T he hT =>
      have hplain : T.Plain unsent := by
        rw [hT]
        exact ⟨hp.ids, hp.sent, hp.replaces, hp.actions, hp.links, hp.outside⟩
      split_ifs
      · exact hplain
      · refine hplain.pushConnNow ?_
        rw [hT]
        exact (hf.delayed e (List.mem_of_getElem? he)).1

end Plainness

section Calmness

variable {unsent : String → Bool} {R R' S : Routes} {n m k r r' g : ℕ} {id replace label : String}
  {a : Action} {order : List ℕ}

theorem Near.refl (n g r : ℕ) (R : Routes) : Near n g r R R :=
  ⟨rfl, rfl, fun h => h, ⟨rfl, rfl, rfl, rfl, rfl⟩, fun h => h⟩

theorem Near.trans (h : Near n g r R R') (h' : Near n g r R' S) : Near n g r R S where
  requested := h'.requested.trans h.requested
  pushes := h'.pushes.trans h.pushes
  asks ha := by
    have hasks := h'.asks
    rw [h.up.2.1] at hasks
    exact hasks (h.asks ha)
  up := ⟨h'.up.1.trans h.up.1, h'.up.2.1.trans h.up.2.1, h'.up.2.2.1.trans h.up.2.2.1,
    h'.up.2.2.2.1.trans h.up.2.2.2.1, h'.up.2.2.2.2.trans h.up.2.2.2.2⟩
  delayed he := h'.delayed (h.delayed he)

theorem Calm.refl (n g r : ℕ) (R : Routes) : Calm n g r R R := ⟨.refl n g r R, rfl⟩

theorem Calm.trans (h : Calm n g r R R') (h' : Calm n g r R' S) : Calm n g r R S := by
  refine ⟨h.toNear.trans h'.toNear, ?_⟩
  have htracks := h'.tracks
  rw [h.up.1] at htracks
  exact htracks.trans h.tracks

theorem requestedOf_congr {p p' : Party} (h : p'.requested = p.requested) :
    p'.requestedOf label = p.requestedOf label := by
  unfold Party.requestedOf
  rw [h]

theorem Near.pick (h : Near n g r R R') (tracks : List RtpUpTrack) :
    R'.pick n r tracks = R.pick n r tracks := by
  unfold Net.pick
  rw [requestedOf_congr h.requested, h.up.2.2.1]

theorem Calm.heading (h : Calm n g r R R') : R'.heading n g r = R.heading n g r := by
  unfold Net.heading
  rw [h.pushes, h.up.1, h.tracks]
  cases ((R.clients n).pushes g r).getLast? with
  | none => rfl
  | some tracks => exact h.pick tracks

theorem Calm.served (h : Calm n g r R R') (hs : R.Served n g r) : R'.Served n g r := by
  rcases hs with hask | ⟨hpushed, he⟩ | hperm
  · refine .inl ?_
    rw [h.up.2.1]
    exact h.asks hask
  · exact .inr (.inl ⟨h.up.2.2.2.2.trans hpushed, h.delayed he⟩)
  · refine .inr (.inr ?_)
    rw [h.heading, h.pick, h.up.2.2.2.1]
    exact hperm

theorem pushes_append {p : Party} :
    ({ p with actions := p.actions ++ [a] } : Party).pushes g r = p.pushes g r ++ (a.pushed g r).toList := by
  unfold Party.pushes
  dsimp only
  rw [List.filterMap_append]
  cases h : a.pushed g r <;> simp [h]

theorem clients_action (ks : List ℕ) (k : ℕ) : (R.action ks a).clients k =
    if k ∈ ks then { R.clients k with actions := (R.clients k).actions ++ [a] } else R.clients k := rfl

theorem calm_action {ks : List ℕ} (h : n ∈ ks → a.pushed g r = none) : Calm n g r R (R.action ks a) where
  requested := by
    rw [clients_action]
    split_ifs <;> rfl
  pushes := by
    rw [clients_action]
    split_ifs with hn
    · rw [pushes_append, h hn]
      exact List.append_nil _
    · rfl
  tracks := by
    rw [clients_action]
    split_ifs <;> rfl
  asks ha := steady_action.actions _ ha
  up := ⟨rfl, rfl, rfl, rfl, rfl⟩
  delayed he := he

theorem calm_modifyUp {f : RtpUpConnection → RtpUpConnection} (h : r = r' →
    (f (R.ups r)).id = (R.ups r).id ∧ (f (R.ups r)).client = (R.ups r).client ∧
      (f (R.ups r)).label = (R.ups r).label ∧ (f (R.ups r)).tracks = (R.ups r).tracks ∧
      (f (R.ups r)).pushed = (R.ups r).pushed) : Calm n g r R (R.modifyUp r' f) where
  requested := rfl
  pushes := rfl
  tracks := rfl
  asks h := h
  up := by
    rw [ups_modifyUp]
    split_ifs with hr
    · subst hr
      exact h rfl
    · exact ⟨rfl, rfl, rfl, rfl, rfl⟩
  delayed he := he

theorem near_modify {f : Party → Party}
    (h : n = m → (f (R.clients n)).requested = (R.clients n).requested ∧
      (f (R.clients n)).pushes g r = (R.clients n).pushes g r)
    (hasks : (R.ups r).client = m → .requestConns g n "" ∈ (R.clients m).actions →
      .requestConns g n "" ∈ (f (R.clients m)).actions) : Near n g r R (R.modify m f) where
  requested := by
    rw [clients_modify]
    split_ifs with hn
    · subst hn
      exact (h rfl).1
    · rfl
  pushes := by
    rw [clients_modify]
    split_ifs with hn
    · subst hn
      exact (h rfl).2
    · rfl
  asks ha := by
    rw [clients_modify]
    split_ifs with hm
    · exact hasks hm (hm ▸ ha)
    · exact ha
  up := ⟨rfl, rfl, rfl, rfl, rfl⟩
  delayed he := he

theorem calm_modify {f : Party → Party}
    (h : n = m → (f (R.clients n)).requested = (R.clients n).requested ∧
      (f (R.clients n)).pushes g r = (R.clients n).pushes g r)
    (htracks : n = m → (f (R.clients n)).tracksOf (R.ups r).id = (R.clients n).tracksOf (R.ups r).id)
    (hasks : (R.ups r).client = m → .requestConns g n "" ∈ (R.clients m).actions →
      .requestConns g n "" ∈ (f (R.clients m)).actions) : Calm n g r R (R.modify m f) := by
  refine ⟨near_modify h hasks, ?_⟩
  rw [clients_modify]
  split_ifs with hn
  · subst hn
    exact htracks rfl
  · rfl

/-! ## Links of other connections -/

theorem link_filter_of_ne {p : Party} {i : String} (h : i ≠ id) :
    ({ p with links := p.links.filter (·.id ≠ id) } : Party).link i = p.link i := by
  unfold Party.link
  dsimp only
  rw [List.find?_filter]
  congr 1
  funext l
  by_cases hl : l.id = i
  · simp [hl, h]
  · simp [hl]

theorem near_cut : Near n g r R (R.cut m id) := by
  cases hl : (R.clients m).link id with
  | none =>
      rw [cut_of_none hl]
      exact .refl n g r R
  | some l =>
      rw [cut_of_some hl]
      exact (calm_modifyUp fun _ => ⟨rfl, rfl, rfl, rfl, rfl⟩).toNear.trans
        (near_modify (fun _ => ⟨rfl, rfl⟩) fun _ h => h)

theorem calm_cut (h : n = m → (R.ups r).id ≠ id) : Calm n g r R (R.cut m id) := by
  refine ⟨near_cut, ?_⟩
  rw [clients_cut]
  split_ifs with hn
  · subst hn
    unfold Party.tracksOf
    rw [link_filter_of_ne (h rfl)]
  · rfl

theorem tracksOf_cut : ((R.cut n id).clients n).tracksOf id = [] := by
  unfold Party.tracksOf
  rw [cut_clients_self]
  rfl

theorem calm_cuts {ids : List String} (h : n ≠ m) :
    Calm n g r R (ids.foldl (fun R id => R.cut m id) R) := by
  induction ids generalizing R with
  | nil => exact .refl n g r R
  | cons id ids ih => exact (calm_cut fun hn => absurd hn h).trans ih

theorem near_cutReplaced : Near n g r R (R.cutReplaced m replace) := by
  unfold Net.cutReplaced
  split_ifs
  · exact near_cut
  · exact .refl n g r R

theorem calm_cutReplaced (h : n = m → replace ≠ "" → (R.ups r).id ≠ replace) :
    Calm n g r R (R.cutReplaced m replace) := by
  unfold Net.cutReplaced
  split_ifs with hreplace
  · exact calm_cut fun hn => h hn hreplace
  · exact .refl n g r R

theorem near_attach {tracks : List RtpUpTrack} : Near n g r R (R.attach m r' tracks) := by
  refine (calm_modifyUp fun _ => ?_).toNear.trans (near_modify (fun _ => ⟨rfl, rfl⟩) fun _ h => h)
  split_ifs <;> exact ⟨rfl, rfl, rfl, rfl, rfl⟩

theorem link_append {p : Party} {l : Link} {i : String} (h : l.id ≠ i) :
    ({ p with links := p.links ++ [l] } : Party).link i = p.link i := by
  unfold Party.link
  dsimp only
  rw [List.find?_append, List.find?_cons_of_neg (by simpa using h), List.find?_nil, Option.or_none]

theorem calm_attach {tracks : List RtpUpTrack} (h : n = m → (R.ups r').id ≠ (R.ups r).id) :
    Calm n g r R (R.attach m r' tracks) := by
  refine ⟨near_attach, ?_⟩
  rw [clients_attach]
  split_ifs with hn
  · subst hn
    unfold Party.tracksOf
    rw [link_append (h rfl)]
  · rfl

theorem tracksOf_attach {tracks : List RtpUpTrack} (h : (R.clients n).link (R.ups r).id = none) :
    ((R.attach n r tracks).clients n).tracksOf (R.ups r).id = tracks := by
  unfold Party.tracksOf
  rw [link_attach h]
  rfl

theorem near_setLink {l : Link} : Near n g r R (R.modify m (·.setLink l)) :=
  near_modify (fun _ => ⟨rfl, rfl⟩) fun _ h => h

theorem calm_setLink {l : Link} (h : n = m → l.id ≠ (R.ups r).id) :
    Calm n g r R (R.modify m (·.setLink l)) := by
  refine ⟨near_setLink, ?_⟩
  rw [clients_modify]
  split_ifs with hn
  · subst hn
    unfold Party.tracksOf
    rw [link_setLink]
    cases hl : (R.clients n).link (R.ups r).id with
    | none => rfl
    | some l' =>
        have hne : l'.id ≠ l.id := link_id hl ▸ (h rfl).symm
        rw [Option.map_some, if_neg hne]
  · rfl

theorem tracksOf_setLink {l : Link} {tracks : List RtpUpTrack} (h : (R.clients n).link id = some l) :
    ((R.modify n (·.setLink { l with tracks })).clients n).tracksOf id = tracks := by
  rw [clients_modify, if_pos rfl]
  unfold Party.tracksOf
  rw [link_setLink, h, Option.map_some, if_pos rfl]
  rfl

/-! ## Queues of other connections -/

theorem calm_take {rest : List Action} (hactions : (R.clients m).actions = a :: rest)
    (hpush : n = m → a.pushed g r = none) (hask : (R.ups r).client = m → a ≠ .requestConns g n "") :
    Calm n g r R (R.take m) := by
  refine calm_modify (fun hn => ⟨rfl, ?_⟩) (fun _ => rfl) fun hm hmem => ?_
  · subst hn
    unfold Party.pushes
    dsimp only
    rw [hactions, List.filterMap_cons_none (hpush rfl)]
    rfl
  · rw [hactions] at hmem ⊢
    exact (List.mem_cons.mp hmem).resolve_left fun h => hask hm h.symm

theorem calm_requestConns {target : ℕ} {g' : ℕ}
    (h : ∀ r' ∈ order, n = target → r' = r → id ≠ "" ∧ id ≠ (R.ups r).id) :
    Calm n g r R (R.requestConns target g' id order) := by
  unfold Net.requestConns
  induction order generalizing R with
  | nil => exact .refl n g r R
  | cons r' order ih =>
      rw [List.foldl_cons]
      split_ifs with hskip
      · exact ih fun k hk => h k (List.mem_cons_of_mem _ hk)
      · refine Calm.trans (calm_action fun hn => ?_) (ih fun k hk => h k (List.mem_cons_of_mem _ hk))
        unfold Action.pushed
        dsimp only
        refine if_neg fun heq => hskip ?_
        have hr := Option.some.inj heq.2
        subst hr
        exact h r' List.mem_cons_self (List.mem_singleton.mp hn) rfl

theorem pushed_none {h i : ℕ} {tracks : List RtpUpTrack} :
    (Action.pushConn h id none tracks replace).pushed g i = none :=
  if_neg fun heq => Option.some_ne_none i heq.2.symm

theorem calm_delUpConn {push : Bool} : Calm n g r R (R.delUpConn m id push) := by
  have hclosing (r' : ℕ) : Calm n g r R (R.modifyUp r' ({ · with closed := true })) :=
    calm_modifyUp fun _ => ⟨rfl, rfl, rfl, rfl, rfl⟩
  unfold Net.delUpConn
  cases R.getUpConn m id with
  | none => exact .refl n g r R
  | some r' =>
      cases push with
      | false => exact hclosing r'
      | true =>
          cases Peer.group (R.clients m) with
          | none => exact hclosing r'
          | some g' => exact (hclosing r').trans (calm_action fun _ => pushed_none)

theorem calm_delUpConns : Calm n g r R (R.delUpConns m order) := by
  unfold Net.delUpConns
  induction order generalizing R with
  | nil => exact .refl n g r R
  | cons r' order ih => exact calm_delUpConn.trans ih

theorem calm_supersede : Calm n g r R (R.supersede m r' replace) := by
  unfold Net.supersede
  split_ifs
  · exact (calm_modifyUp fun _ => ⟨rfl, rfl, rfl, rfl, rfl⟩).trans calm_delUpConn
  · exact .refl n g r R

theorem calm_leave (hn : n ≠ m) (howner : (R.ups r).client ≠ m) : Calm n g r R (R.leave m order) := by
  unfold Net.leave
  cases (R.clients m).group with
  | none => exact .refl n g r R
  | some g' =>
      have hclosed : Calm n g r R (R.delUpConns m order) := calm_delUpConns
      have hcuts : Calm n g r R ((((R.delUpConns m order).clients m).links.map (·.id)).foldl
          (fun R id => R.cut m id) (R.delUpConns m order)) := hclosed.trans (calm_cuts hn)
      have hgone := hcuts.trans (calm_modify (m := m) (f := ({ · with group := none, requested := [] }))
        (fun h => absurd h hn) (fun h => absurd h hn) fun h =>
          absurd (hcuts.up.2.1.symm.trans h) howner)
      exact ⟨⟨hgone.requested, hgone.pushes, hgone.asks, hgone.up, hgone.delayed⟩, hgone.tracks⟩

end Calmness

end Sozvon.Streams
