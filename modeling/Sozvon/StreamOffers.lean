import Sozvon.StreamDelivery

/-!
# Offers

What a client has been told of what it is sent. The last message that opens or ends a
stream which the client is sent is an offer of it, under its label and source, and the
offer lists the tracks that the stream has unless another one is to follow.
-/
namespace Sozvon.Streams
open Runs

section Definitions

/-- The message opens the stream of this id, or ends it. -/
def Message.about (id : String) : Message → Bool
  | .offer i _ replace _ _ => i = id || (replace = id && replace ≠ "")
  | .close i => i = id
  | _ => false

def lastAbout (sent : List Message) (id : String) : Option Message :=
  (sent.filter (Message.about id)).getLast?

/-- The client has been offered these tracks last. -/
def LastOffer (u : RtpUpConnection) (sent : List Message) (id : String) (tracks : List RtpUpTrack) : Prop :=
  ∃ replace restart,
    lastAbout sent id = some (.offer id u.label replace u.client ⟨tracks, restart⟩)

structure Agreed (u : RtpUpConnection) (sent : List Message) (d : RtpDownConnection) : Prop where
  stable : d.signalingState = .stable → d.negotiationNeeded = .unneeded
  offered : ∃ tracks, LastOffer u sent d.id tracks ∧
    (d.negotiationNeeded = .unneeded → tracks = d.tracks.map (·.remote))

/-- Apart from some that are being dealt with. -/
def Net.Fine (w : World) (n : ℕ) (aside : String → Prop) : Prop :=
  ∀ d ∈ (w.clients n).down, aside d.id ∨ Agreed (w.ups d.remote) (w.clients n).sent d

/-- What a client is sent and has been told is what it was. -/
structure Still (n : ℕ) (w w' : World) : Prop where
  down : (w'.clients n).down = (w.clients n).down
  sent : (w'.clients n).sent = (w.clients n).sent
  names : ∀ r, (w'.ups r).label = (w.ups r).label ∧ (w'.ups r).client = (w.ups r).client

end Definitions

section Stillness

variable {w v x : World} {n k r : ℕ} {id : String} {aside aside' : String → Prop}

theorem Still.refl (n : ℕ) (w : World) : Still n w w := ⟨rfl, rfl, fun _ => ⟨rfl, rfl⟩⟩

theorem Still.trans (h : Still n w v) (h' : Still n v x) : Still n w x where
  down := h'.down.trans h.down
  sent := h'.sent.trans h.sent
  names r := ⟨(h'.names r).1.trans (h.names r).1, (h'.names r).2.trans (h.names r).2⟩

theorem Agreed.congr {u u' : RtpUpConnection} {sent : List Message} {d : RtpDownConnection}
    (h : Agreed u sent d) (hu : u'.label = u.label ∧ u'.client = u.client) : Agreed u' sent d := by
  obtain ⟨hstable, tracks, ⟨replace, restart, hlast⟩, htracks⟩ := h
  refine ⟨hstable, tracks, ⟨replace, restart, ?_⟩, htracks⟩
  rw [hu.1, hu.2]
  exact hlast

theorem Net.Fine.still (hf : w.Fine n aside) (h : Still n w v) : v.Fine n aside := by
  intro d hd
  rw [h.down] at hd
  rw [h.sent]
  exact (hf d hd).imp_right fun hagreed => hagreed.congr (h.names d.remote)

theorem Net.Fine.mono (hf : w.Fine n aside) (h : ∀ id, aside id → aside' id) : w.Fine n aside' :=
  fun d hd => (hf d hd).imp_left (h d.id)

theorem clients_modify_world (f : WebClient → WebClient) (k : ℕ) :
    (w.modify n f).clients k = if k = n then f (w.clients n) else w.clients k := by
  unfold Net.modify
  dsimp only
  rw [Function.update_apply]

theorem still_modify {f : WebClient → WebClient}
    (h : k = n → (f (w.clients n)).down = (w.clients n).down ∧ (f (w.clients n)).sent = (w.clients n).sent) :
    Still k w (w.modify n f) := by
  refine ⟨?_, ?_, fun _ => ⟨rfl, rfl⟩⟩
  · rw [clients_modify_world]
    split_ifs with hk
    · rw [(h hk).1, hk]
    · rfl
  · rw [clients_modify_world]
    split_ifs with hk
    · rw [(h hk).2, hk]
    · rfl

theorem still_modifyUp {f : RtpUpConnection → RtpUpConnection}
    (h : (f (w.ups r)).label = (w.ups r).label ∧ (f (w.ups r)).client = (w.ups r).client) :
    Still n w (w.modifyUp r f) := by
  refine ⟨rfl, rfl, fun k => ?_⟩
  unfold Net.modifyUp
  dsimp only
  rw [Function.update_apply]
  split_ifs with hk
  · rw [hk]
    exact h
  · exact ⟨rfl, rfl⟩

theorem still_action {ks : List ℕ} {a : Action} : Still n w (w.action ks a) := by
  refine ⟨?_, ?_, fun _ => ⟨rfl, rfl⟩⟩
  · unfold Net.action
    dsimp only
    split_ifs <;> rfl
  · unfold Net.action
    dsimp only
    split_ifs <;> rfl

theorem still_foldl {α : Type} {l : List α} {f : World → α → World} (h : ∀ w a, Still n w (f w a))
    (w : World) : Still n w (l.foldl f w) := by
  induction l generalizing w with
  | nil => exact .refl n w
  | cons a l ih => exact (h w a).trans (ih _)

theorem still_pushConn : Still n w (w.pushConn r) := by
  cases hg : Peer.group (w.clients (w.ups r).client) with
  | none =>
      rw [pushConn_of_none hg]
      exact .refl n w
  | some g =>
      rw [pushConn_of_some hg]
      have hpushed : Still n w (w.modifyUp r ({ · with pushed := false })) := still_modifyUp ⟨rfl, rfl⟩
      exact ⟨hpushed.down, hpushed.sent, hpushed.names⟩

theorem still_pushConnNow {e : Delayed} : Still n w (w.pushConnNow e) :=
  (still_modifyUp ⟨rfl, rfl⟩).trans still_action

theorem still_delUpConn {push : Bool} : Still n w (w.delUpConn k id push) := by
  have hclosing (r : ℕ) : Still n w (w.modifyUp r ({ · with closed := true })) :=
    still_modifyUp ⟨rfl, rfl⟩
  unfold Net.delUpConn
  cases w.getUpConn k id with
  | none => exact .refl n w
  | some r =>
      cases push with
      | false => exact hclosing r
      | true =>
          cases Peer.group (w.clients k) with
          | none => exact hclosing r
          | some g => exact (hclosing r).trans still_action

theorem still_delUpConns {order : List ℕ} : Still n w (w.delUpConns k order) :=
  still_foldl (fun _ _ => still_delUpConn) w

theorem still_supersede {replace : String} : Still n w (w.supersede k r replace) := by
  unfold Net.supersede
  split_ifs
  · exact (still_modifyUp ⟨rfl, rfl⟩).trans still_delUpConn
  · exact .refl n w

theorem still_requestConns {target g : ℕ} {order : List ℕ} :
    Still n w (w.requestConns target g id order) := by
  refine still_foldl (fun w r => ?_) w
  split_ifs
  · exact .refl n w
  · exact still_action

theorem still_write_of_ne {m : Message} (h : k ≠ n) : Still k w (w.write n m) :=
  still_modify fun hk => absurd hk h

theorem still_error_of_ne {message : String} (h : k ≠ n) : Still k w (w.error n message) := by
  unfold Net.error
  split_ifs
  · exact still_write_of_ne h
  · exact .refl k w

theorem still_delDownConn_of_ne (h : k ≠ n) : Still k w (w.delDownConn n id) := by
  unfold Net.delDownConn
  cases (w.clients n).getDownConn id with
  | none => exact .refl k w
  | some d => exact (still_modifyUp ⟨rfl, rfl⟩).trans (still_modify fun hk => absurd hk h)

theorem still_closeDownConn_of_ne {message : String} (h : k ≠ n) :
    Still k w (w.closeDownConn n id message) :=
  ((still_delDownConn_of_ne h).trans (still_write_of_ne h)).trans (still_error_of_ne h)

theorem still_closeReplaced_of_ne {replace : String} (h : k ≠ n) :
    Still k w (w.closeReplaced n replace) := by
  unfold Net.closeReplaced
  split_ifs
  · exact still_closeDownConn_of_ne h
  · exact .refl k w

theorem still_failUpConnection_of_ne {message : String} (h : k ≠ n) :
    Still k w (w.failUpConnection n id message) := by
  unfold Net.failUpConnection
  refine Still.trans ?_ (still_error_of_ne h)
  split_ifs
  · exact still_write_of_ne h
  · exact .refl k w

theorem still_leaveGroup_of_ne {order : List ℕ} (h : k ≠ n) : Still k w (w.leaveGroup n order) := by
  unfold Net.leaveGroup
  cases (w.clients n).group with
  | none => exact .refl k w
  | some g =>
      have hclosed : Still k w (w.delUpConns n order) := still_delUpConns
      have hleft := hclosed.trans (still_foldl (l := ((w.delUpConns n order).clients n).down.map (·.id))
        (f := fun w id => w.delDownConn n id) (fun _ _ => still_delDownConn_of_ne h) _)
      have hgone := hleft.trans (still_modify (n := n)
        (f := ({ · with group := none, present := false, requested := [] })) fun hk => absurd hk h)
      exact ⟨hgone.down, hgone.sent, hgone.names⟩

end Stillness

section Telling

variable {w v : World} {n r : ℕ} {id message replace : String} {aside : String → Prop} {m : Message}
  {rtc : Rtc}

theorem lastAbout_append (sent : List Message) (m : Message) (id : String) :
    lastAbout (sent ++ [m]) id = if m.about id = true then some m else lastAbout sent id := by
  unfold lastAbout
  rw [List.filter_append]
  by_cases h : m.about id = true
  · rw [if_pos h, List.filter_cons_of_pos h]
    exact List.getLast?_concat
  · rw [if_neg h, List.filter_cons_of_neg h, List.filter_nil, List.append_nil]

theorem mem_of_getDownConn {c : WebClient} {d : RtpDownConnection} (h : c.getDownConn id = some d) :
    d ∈ c.down ∧ d.id = id :=
  ⟨List.mem_of_find?_eq_some h, by simpa using List.find?_some h⟩

/-- A message about other streams changes nothing. -/
theorem Agreed.append {u : RtpUpConnection} {sent : List Message} {d : RtpDownConnection}
    (h : Agreed u sent d) (hm : m.about d.id = false) : Agreed u (sent ++ [m]) d := by
  obtain ⟨hstable, tracks, ⟨replace, restart, hlast⟩, htracks⟩ := h
  refine ⟨hstable, tracks, ⟨replace, restart, ?_⟩, htracks⟩
  rw [lastAbout_append, if_neg (by rw [hm]; decide)]
  exact hlast

theorem Net.Fine.write (hf : w.Fine n aside)
    (hm : ∀ d ∈ (w.clients n).down, aside d.id ∨ m.about d.id = false) : (w.write n m).Fine n aside := by
  have hself : (w.write n m).clients n = (w.clients n).write m := by
    rw [Net.write, clients_modify_world, if_pos rfl]
  intro d hd
  rw [hself] at hd ⊢
  rcases hm d hd with haside | habout
  · exact .inl haside
  · exact (hf d hd).imp_right fun hagreed => hagreed.append habout

theorem Net.Fine.error (hf : w.Fine n aside) : (w.error n message).Fine n aside := by
  unfold Net.error
  split_ifs
  · exact hf.write fun _ _ => .inr rfl
  · exact hf

theorem Net.Fine.failUpConnection (hf : w.Fine n aside) : (w.failUpConnection n id message).Fine n aside := by
  unfold Net.failUpConnection
  refine Net.Fine.error ?_
  split_ifs
  · exact hf.write fun _ _ => .inr rfl
  · exact hf

theorem mem_down_delDownConn {d : RtpDownConnection} (h : d ∈ ((w.delDownConn n id).clients n).down) :
    d ∈ (w.clients n).down ∧ d.id ≠ id := by
  unfold Net.delDownConn at h
  cases hd : (w.clients n).getDownConn id with
  | none =>
      rw [hd] at h
      have hne := List.find?_eq_none.mp hd d h
      exact ⟨h, by simpa using hne⟩
  | some old =>
      rw [hd] at h
      dsimp only at h
      rw [clients_modify_world, if_pos rfl] at h
      exact ⟨List.mem_of_mem_filter h, by simpa using (List.mem_filter.mp h).2⟩

theorem Net.Fine.delDownConn (hf : w.Fine n aside) :
    (w.delDownConn n id).Fine n fun i => aside i ∧ i ≠ id := by
  intro d hd
  obtain ⟨hmem, hne⟩ := mem_down_delDownConn hd
  refine (hf d hmem).imp (fun haside => ⟨haside, hne⟩) fun hagreed => ?_
  unfold Net.delDownConn
  cases (w.clients n).getDownConn id with
  | none => exact hagreed
  | some old =>
      have hups : Still n w (w.modifyUp old.remote fun u => { u with locals := u.locals.erase n }) :=
        still_modifyUp ⟨rfl, rfl⟩
      dsimp only
      rw [clients_modify_world, if_pos rfl]
      exact hagreed.congr (hups.names d.remote)

theorem Net.Fine.closeDownConn (hf : w.Fine n aside) :
    (w.closeDownConn n id message).Fine n fun i => aside i ∧ i ≠ id := by
  refine Net.Fine.error (hf.delDownConn.write fun d hd => .inr ?_)
  exact decide_eq_false (mem_down_delDownConn hd).2.symm

theorem Net.Fine.closeReplaced (hf : w.Fine n aside) :
    (w.closeReplaced n replace).Fine n aside := by
  unfold Net.closeReplaced
  split_ifs
  · exact hf.closeDownConn.mono fun _ h => h.1
  · exact hf

/-- What a connection is set to has to be told, or has been told already. -/
theorem Net.Fine.setDownConn {down : RtpDownConnection} {f : WebClient → WebClient}
    (hf : w.Fine n fun i => aside i ∨ i = down.id)
    (hdown : (f (w.clients n)).down = ((w.clients n).setDownConn down).down)
    (hsent : (f (w.clients n)).sent = (w.clients n).sent)
    (hagreed : aside down.id ∨ Agreed (w.ups down.remote) (w.clients n).sent down) :
    (w.modify n f).Fine n aside := by
  have hself : (w.modify n f).clients n = f (w.clients n) := by rw [clients_modify_world, if_pos rfl]
  intro d hd
  rw [hself, hdown] at hd
  rw [hself, hsent]
  obtain ⟨d', hd', rfl⟩ := List.mem_map.mp hd
  split_ifs with hid
  · exact hagreed
  · rcases hf d' hd' with (haside | heq) | hagreed'
    · exact .inl haside
    · exact absurd heq hid
    · exact .inr hagreed'

theorem negotiate_ok {c c' : WebClient} {up : RtpUpConnection} {down : RtpDownConnection}
    {restartIce : Bool} (h : c.negotiate rtc up down restartIce replace = .ok c') :
    (down.signalingState = .haveLocalOffer ∧ ∃ due, due ≠ .unneeded ∧
      c' = c.setDownConn { down with negotiationNeeded := due }) ∨
    (down.signalingState = .stable ∧ c' = (c.setDownConn { down with
        negotiationNeeded := .unneeded, signalingState := .haveLocalOffer }).write
      (.offer down.id up.label replace up.client ⟨down.tracks.map (·.remote), restartIce⟩)) := by
  unfold WebClient.negotiate at h
  cases hstate : down.signalingState with
  | haveLocalOffer =>
      rw [hstate, if_pos rfl] at h
      refine .inl ⟨rfl, _, ?_, (Except.ok.inj h).symm⟩
      split_ifs with hrestart hneeded
      · decide
      · decide
      · exact hneeded
  | stable =>
      rw [hstate, if_neg (by decide)] at h
      split_ifs at h with hoffers
      exact .inr ⟨rfl, (Except.ok.inj h).symm⟩

/-- A negotiation offers the tracks that a connection has, or puts the offer off. -/
theorem Net.Fine.negotiate {c : WebClient} {down : RtpDownConnection} {restartIce : Bool}
    (hf : w.Fine n fun i => aside i ∨ i = down.id)
    (hoffered : down.signalingState = .haveLocalOffer →
      ∃ tracks, LastOffer (w.ups down.remote) (w.clients n).sent down.id tracks)
    (hreplace : ∀ d ∈ (w.clients n).down, replace = "" ∨ d.id ≠ replace ∨ d.id = down.id)
    (h : (w.clients n).negotiate rtc (w.ups down.remote) down restartIce replace = .ok c) :
    (w.modify n fun _ => c).Fine n aside := by
  rcases negotiate_ok h with ⟨hstate, due, hdue, rfl⟩ | ⟨-, rfl⟩
  · refine @Net.Fine.setDownConn w n aside { down with negotiationNeeded := due } _ hf rfl rfl
      (.inr ⟨?_, ?_⟩)
    · intro hstable
      rw [show down.signalingState = .stable from hstable] at hstate
      cases hstate
    · obtain ⟨tracks, hlast⟩ := hoffered hstate
      exact ⟨tracks, hlast, fun heq => absurd heq hdue⟩
  · intro d hd
    rw [clients_modify_world, if_pos rfl] at hd ⊢
    obtain ⟨d', hd', rfl⟩ := List.mem_map.mp hd
    have hsent : ((((w.clients n).setDownConn { down with
        negotiationNeeded := .unneeded, signalingState := .haveLocalOffer }).write
          (.offer down.id (w.ups down.remote).label replace (w.ups down.remote).client
            ⟨down.tracks.map (·.remote), restartIce⟩)).sent) = (w.clients n).sent ++
        [.offer down.id (w.ups down.remote).label replace (w.ups down.remote).client
          ⟨down.tracks.map (·.remote), restartIce⟩] := rfl
    rw [hsent]
    by_cases hid : d'.id = down.id
    · rw [if_pos hid]
      refine .inr ⟨fun hstable => (by cases hstable), down.tracks.map (·.remote), ⟨replace, restartIce, ?_⟩,
        fun _ => rfl⟩
      have habout : (Message.offer down.id (w.ups down.remote).label replace (w.ups down.remote).client
          ⟨down.tracks.map (·.remote), restartIce⟩).about down.id = true := by
        unfold Message.about
        simp
      exact (lastAbout_append ..).trans (if_pos habout)
    · rw [if_neg hid]
      rcases hf d' hd' with (haside | heq) | hagreed
      · exact .inl haside
      · exact absurd heq hid
      · refine .inr (hagreed.append ?_)
        unfold Message.about
        rcases hreplace d' hd' with hnone | hne | heq
        · simp [Ne.symm hid, hnone]
        · simp [Ne.symm hid, Ne.symm hne]
        · exact absurd heq hid

end Telling

section Handlers

variable {w v : World} {n k r : ℕ} {id message replace : String} {rtc : Rtc} {order : List ℕ}
  {requested : List RtpUpTrack} {limitSid : Bool}

theorem Net.Fine.giveTracks {down : RtpDownConnection} (hf : w.Fine n fun i => i = down.id)
    (hdown : Agreed (w.ups down.remote) (w.clients n).sent down ∨
      (down.tracks = [] ∧ down.signalingState = .stable))
    (hrequested : requested ≠ [])
    (hreplace : ∀ d ∈ (w.clients n).down, replace = "" ∨ d.id ≠ replace ∨ d.id = down.id)
    (h : w.giveTracks n rtc down requested limitSid replace = .ok v) : v.Fine n fun _ => False := by
  unfold Net.giveTracks at h
  cases hreplaced : replaceTracks rtc down.tracks requested limitSid with
  | none =>
      rw [hreplaced] at h
      cases h
  | some result =>
      obtain ⟨tracks, changed⟩ := result
      rw [hreplaced] at h
      cases changed with
      | false =>
          have hsame := replaceTracks_changed hreplaced rfl
          rw [← Except.ok.inj h]
          refine Net.Fine.closeReplaced (@Net.Fine.setDownConn w n _ { down with tracks } _
            (hf.mono fun _ h => .inr h) rfl rfl (.inr ?_))
          rcases hdown with ⟨hstable, ts, hlast, htracks⟩ | ⟨hempty, -⟩
          · exact ⟨hstable, ts, hlast, fun hneeded => (htracks hneeded).trans hsame.symm⟩
          · rw [replaceTracks_merge hreplaced, hempty] at hsame
            exact absurd ((merge_nil _).symm.trans hsame) hrequested
      | true =>
          dsimp only at h
          cases hnegotiated : (w.clients n).negotiate rtc (w.ups down.remote) { down with tracks }
              false replace with
          | error c =>
              rw [hnegotiated] at h
              cases h
          | ok c =>
              rw [hnegotiated] at h
              rw [← Except.ok.inj h]
              refine @Net.Fine.negotiate w n _ _ _ _ { down with tracks } _ (hf.mono fun _ h => .inr h)
                (fun hstate => ?_) hreplace hnegotiated
              rcases hdown with ⟨-, ts, hlast, -⟩ | ⟨-, hstable⟩
              · exact ⟨ts, hlast⟩
              · rw [show down.signalingState = .haveLocalOffer from hstate] at hstable
                cases hstable

theorem Net.Fine.offerTracks (hf : w.Fine n fun _ => False) (hrequested : requested ≠ [])
    (hreplace : ∀ d ∈ (w.clients n).down, replace = "" ∨ d.id ≠ replace)
    (h : w.offerTracks n rtc r requested limitSid replace = .ok v) : v.Fine n fun _ => False := by
  unfold Net.offerTracks at h
  cases hadd : w.addDownConn n rtc r with
  | error e =>
      rw [hadd] at h
      cases e with
      | closed =>
          rw [← Except.ok.inj h]
          exact hf.closeReplaced
      | duplicate | failed => cases h
  | ok x =>
      rw [hadd] at h
      dsimp only at h
      obtain ⟨-, ⟨-, rfl⟩ | ⟨hnew, -, rfl⟩⟩ := addDownConn_ok hadd
      · cases hdown : (x.clients n).getDownConn (x.ups r).id with
        | none =>
            rw [hdown] at h
            rw [← Except.ok.inj h]
            exact hf.closeReplaced
        | some down =>
            rw [hdown] at h
            have hagreed := (hf down (mem_of_getDownConn hdown).1).resolve_left fun h => h
            exact (hf.mono fun _ h => h.elim).giveTracks (.inl hagreed) hrequested
              (fun d hd => (hreplace d hd).imp_right .inl) h
      · have hself : (attached w n r).clients n = { w.clients n with
            down := (w.clients n).down ++ [{ id := (w.ups r).id, remote := r }] } :=
          (clients_modify_world (fun c => { c with
            down := c.down ++ [{ id := (w.ups r).id, remote := r }] }) n).trans (if_pos rfl)
        have hups : Still n w (w.modifyUp r fun u =>
            if n ∈ u.locals then u else { u with locals := u.locals ++ [n] }) := by
          refine still_modifyUp ?_
          split_ifs <;> exact ⟨rfl, rfl⟩
        have hid : ((attached w n r).ups r).id = (w.ups r).id := by
          unfold attached Net.modify Net.modifyUp
          dsimp only
          rw [Function.update_self]
          split_ifs <;> rfl
        have hdown : ((attached w n r).clients n).getDownConn ((attached w n r).ups r).id =
            some { id := (w.ups r).id, remote := r } := by
          rw [hself, hid]
          unfold WebClient.getDownConn at hnew ⊢
          dsimp only
          rw [List.find?_append, hnew, Option.none_or]
          exact List.find?_cons_of_pos (decide_eq_true rfl)
        rw [hdown] at h
        refine Net.Fine.giveTracks (fun d hd => ?_) (.inr ⟨rfl, rfl⟩) hrequested (fun d hd => ?_) h
        · rw [hself] at hd ⊢
          rcases List.mem_append.mp hd with hd | hd
          · refine .inr (((hf d hd).resolve_left fun h => h).congr ?_)
            exact hups.names d.remote
          · rw [List.mem_singleton.mp hd]
            exact .inl rfl
        · rw [hself] at hd
          rcases List.mem_append.mp hd with hd | hd
          · exact (hreplace d hd).imp_right .inl
          · rw [List.mem_singleton.mp hd]
            exact .inr (.inr rfl)

theorem Net.Fine.pushDownConn {conn : Option ℕ} {tracks : List RtpUpTrack} (hf : w.Fine n fun _ => False)
    (h : w.pushDownConn n rtc id conn tracks replace = .ok v) : v.Fine n fun _ => False := by
  have hreplaced : (if replace ≠ "" then w.delDownConn n replace else w).Fine n fun _ => False := by
    split_ifs
    · exact hf.delDownConn.mono fun _ h => h.1
    · exact hf
  have hgone : ∀ d ∈ ((if replace ≠ "" then w.delDownConn n replace else w).clients n).down,
      replace = "" ∨ d.id ≠ replace := by
    intro d hd
    by_cases hreplace : replace = ""
    · exact .inl hreplace
    · rw [if_pos hreplace] at hd
      exact .inr (mem_down_delDownConn hd).2
  unfold Net.pushDownConn at h
  cases hwanted : w.wanted n conn tracks replace with
  | mk requested limitSid =>
      rw [hwanted] at h
      dsimp only at h
      have hclosed : (((if replace ≠ "" then w.delDownConn n replace else w).closeDownConn n id
          "").closeReplaced n replace).Fine n fun _ => False :=
        (hreplaced.closeDownConn.mono fun _ h => h.1).closeReplaced
      cases requested with
      | nil =>
          rw [← Except.ok.inj h]
          exact hclosed
      | cons t ts =>
          cases conn with
          | none =>
              rw [← Except.ok.inj h]
              exact hclosed
          | some r => exact hreplaced.offerTracks (List.cons_ne_nil t ts) hgone h

/-! ## The other clients -/

/-- The result of a handler, whether it fails or not. -/
def Result (x : Except World World) (v : World) : Prop := x = .ok v ∨ x = .error v

theorem result_ok {x v : World} (h : Result (.ok x) v) : x = v :=
  h.elim Except.ok.inj fun h => (by cases h)

theorem result_error {x v : World} (h : Result (.error x) v) : x = v :=
  h.elim (fun h => (by cases h)) Except.error.inj

theorem still_giveTracks_of_ne {down : RtpDownConnection} (hk : k ≠ n)
    (h : Result (w.giveTracks n rtc down requested limitSid replace) v) : Still k w v := by
  unfold Net.giveTracks at h
  cases hreplaced : replaceTracks rtc down.tracks requested limitSid with
  | none =>
      rw [hreplaced] at h
      exact result_error h ▸ still_closeReplaced_of_ne hk
  | some result =>
      obtain ⟨tracks, changed⟩ := result
      rw [hreplaced] at h
      cases changed with
      | false =>
          exact result_ok h ▸ (still_modify fun h => absurd h hk).trans (still_closeReplaced_of_ne hk)
      | true =>
          dsimp only at h
          cases hnegotiated : (w.clients n).negotiate rtc (w.ups down.remote) { down with tracks }
              false replace with
          | ok c =>
              rw [hnegotiated] at h
              exact result_ok h ▸ still_modify fun h => absurd h hk
          | error c =>
              rw [hnegotiated] at h
              exact result_error h ▸ ((still_modify fun h => absurd h hk).trans
                (still_closeDownConn_of_ne hk)).trans (still_closeReplaced_of_ne hk)

theorem still_offerTracks_of_ne (hk : k ≠ n)
    (h : Result (w.offerTracks n rtc r requested limitSid replace) v) : Still k w v := by
  unfold Net.offerTracks at h
  cases hadd : w.addDownConn n rtc r with
  | error e =>
      rw [hadd] at h
      cases e with
      | closed => exact result_ok h ▸ still_closeReplaced_of_ne hk
      | duplicate => exact result_error h ▸ still_closeReplaced_of_ne hk
      | failed => exact result_error h ▸ still_closeReplaced_of_ne hk
  | ok x =>
      rw [hadd] at h
      dsimp only at h
      have hx : Still k w x := by
        obtain ⟨-, ⟨-, rfl⟩ | ⟨-, -, rfl⟩⟩ := addDownConn_ok hadd
        · exact .refl k x
        · refine Still.trans (still_modifyUp ?_) (still_modify fun h => absurd h hk)
          split_ifs <;> exact ⟨rfl, rfl⟩
      cases hdown : (x.clients n).getDownConn (x.ups r).id with
      | none =>
          rw [hdown] at h
          exact hx.trans (result_ok h ▸ still_closeReplaced_of_ne hk)
      | some down =>
          rw [hdown] at h
          exact hx.trans (still_giveTracks_of_ne hk h)

theorem still_pushDownConn_of_ne {conn : Option ℕ} {tracks : List RtpUpTrack} (hk : k ≠ n)
    (h : Result (w.pushDownConn n rtc id conn tracks replace) v) : Still k w v := by
  have hreplaced : Still k w (if replace ≠ "" then w.delDownConn n replace else w) := by
    split_ifs
    · exact still_delDownConn_of_ne hk
    · exact .refl k w
  unfold Net.pushDownConn at h
  cases hwanted : w.wanted n conn tracks replace with
  | mk requested limitSid =>
      rw [hwanted] at h
      dsimp only at h
      have hclosed : Still k (if replace ≠ "" then w.delDownConn n replace else w)
          (((if replace ≠ "" then w.delDownConn n replace else w).closeDownConn n id
            "").closeReplaced n replace) :=
        (still_closeDownConn_of_ne hk).trans (still_closeReplaced_of_ne hk)
      cases requested with
      | nil => exact hreplaced.trans (result_ok h ▸ hclosed)
      | cons t ts =>
          cases conn with
          | none => exact hreplaced.trans (result_ok h ▸ hclosed)
          | some r => exact hreplaced.trans (still_offerTracks_of_ne hk h)

theorem still_handleAction_of_ne {a : Action} (hk : k ≠ n)
    (h : Result (w.handleAction n rtc order a) v) : Still k w v := by
  cases a with
  | pushConn g id conn tracks replace =>
      rw [Net.handleAction] at h
      split_ifs at h
      · exact result_ok h ▸ .refl k w
      · exact still_pushDownConn_of_ne hk h
  | requestConns g target id =>
      rw [Net.handleAction] at h
      split_ifs at h
      · exact result_ok h ▸ .refl k w
      · exact result_ok h ▸ still_requestConns
  | connectionFailed id =>
      rw [Net.handleAction] at h
      cases hdown : (w.clients n).getDownConn id with
      | none =>
          rw [hdown] at h
          refine result_ok h ▸ ?_
          split_ifs
          · exact still_write_of_ne hk
          · exact .refl k w
      | some down =>
          rw [hdown] at h
          dsimp only at h
          cases hnegotiated : (w.clients n).negotiate rtc (w.ups down.remote) down true "" with
          | error c =>
              rw [hnegotiated] at h
              exact result_error h ▸ still_modify fun h => absurd h hk
          | ok c =>
              rw [hnegotiated] at h
              dsimp only at h
              have hset : Still k w (w.modify n fun _ => c) := still_modify fun h => absurd h hk
              cases hg : c.group with
              | none =>
                  rw [hg] at h
                  exact result_ok h ▸ hset
              | some g =>
                  rw [hg] at h
                  exact result_ok h ▸ hset.trans still_action
  | permissionsChanged =>
      rw [Net.handleAction] at h
      cases hg : (w.clients n).group with
      | none =>
          rw [hg] at h
          exact result_error h ▸ .refl k w
      | some g =>
          rw [hg] at h
          dsimp only at h
          split_ifs at h
          · exact result_ok h ▸ .refl k w
          · refine result_ok h ▸ still_foldl (fun w r => ?_) w
            split_ifs
            · exact still_delUpConn.trans (still_failUpConnection_of_ne hk)
            · exact .refl k w

/-! ## The handlers of a client -/

theorem Net.Fine.setDown {down : RtpDownConnection} {f : WebClient → WebClient} (hf : w.Fine n fun _ => False)
    (hdown : (f (w.clients n)).down = ((w.clients n).setDownConn down).down)
    (hsent : (f (w.clients n)).sent = (w.clients n).sent)
    (hagreed : Agreed (w.ups down.remote) (w.clients n).sent down) :
    (w.modify n f).Fine n fun _ => False :=
  (hf.mono fun _ h => h.elim).setDownConn hdown hsent (.inr hagreed)

theorem Net.Fine.renegotiate {c : WebClient} {down : RtpDownConnection} {restartIce : Bool}
    (hf : w.Fine n fun _ => False)
    (hoffered : down.signalingState = .haveLocalOffer →
      ∃ tracks, LastOffer (w.ups down.remote) (w.clients n).sent down.id tracks)
    (h : (w.clients n).negotiate rtc (w.ups down.remote) down restartIce "" = .ok c) :
    (w.modify n fun _ => c).Fine n fun _ => False :=
  (hf.mono fun _ h => h.elim).negotiate hoffered (fun _ _ => .inl rfl) h

theorem Net.Fine.agreed {down : RtpDownConnection} (hf : w.Fine n fun _ => False)
    (h : (w.clients n).getDownConn id = some down) :
    Agreed (w.ups down.remote) (w.clients n).sent down :=
  (hf down (mem_of_getDownConn h).1).resolve_left fun h => h

theorem Net.Fine.handleAction {a : Action} (hf : w.Fine n fun _ => False)
    (h : w.handleAction n rtc order a = .ok v) : v.Fine n fun _ => False := by
  cases a with
  | pushConn g id conn tracks replace =>
      rw [Net.handleAction] at h
      split_ifs at h
      · exact Except.ok.inj h ▸ hf
      · exact hf.pushDownConn h
  | requestConns g target id =>
      rw [Net.handleAction] at h
      split_ifs at h
      · exact Except.ok.inj h ▸ hf
      · exact Except.ok.inj h ▸ hf.still still_requestConns
  | connectionFailed id =>
      rw [Net.handleAction] at h
      cases hdown : (w.clients n).getDownConn id with
      | none =>
          rw [hdown] at h
          refine Except.ok.inj h ▸ ?_
          split_ifs
          · exact hf.write fun _ _ => .inr rfl
          · exact hf
      | some down =>
          rw [hdown] at h
          dsimp only at h
          cases hnegotiated : (w.clients n).negotiate rtc (w.ups down.remote) down true "" with
          | error c =>
              rw [hnegotiated] at h
              cases h
          | ok c =>
              rw [hnegotiated] at h
              dsimp only at h
              obtain ⟨-, tracks, hlast, -⟩ := hf.agreed hdown
              have hset := hf.renegotiate (fun _ => ⟨tracks, hlast⟩) hnegotiated
              cases hg : c.group with
              | none =>
                  rw [hg] at h
                  exact Except.ok.inj h ▸ hset
              | some g =>
                  rw [hg] at h
                  exact Except.ok.inj h ▸ hset.still still_action
  | permissionsChanged =>
      rw [Net.handleAction] at h
      cases hg : (w.clients n).group with
      | none =>
          rw [hg] at h
          cases h
      | some g =>
          rw [hg] at h
          dsimp only at h
          split_ifs at h with hpresent
          · exact Except.ok.inj h ▸ hf
          · rw [← Except.ok.inj h]
            clear h hg hpresent
            induction order generalizing w with
            | nil => exact hf
            | cons r order ih =>
                rw [List.foldl_cons]
                refine ih ?_
                split_ifs
                · exact (hf.still still_delUpConn).failUpConnection
                · exact hf

theorem fine_newUpConn {m : ℕ} {label : String} (hf : w.Fine k fun _ => False)
    (hfresh : ∀ d ∈ (w.clients k).down, d.remote ≠ w.fresh) :
    (w.newUpConn m id label).Fine k fun _ => False := by
  refine Net.Fine.still (w := { w.modifyUp w.fresh fun _ => { id, client := m, label } with
    fresh := w.fresh + 1 }) (fun d hd => ?_) still_pushConn
  refine (hf d hd).imp_right fun hagreed => hagreed.congr ?_
  have hups : (w.modifyUp w.fresh fun _ => { id, client := m, label }).ups d.remote = w.ups d.remote :=
    Function.update_of_ne (hfresh d hd) ..
  exact ⟨congrArg RtpUpConnection.label hups, congrArg RtpUpConnection.client hups⟩

theorem fine_gotOffer {label : String} (hf : ∀ k, w.Fine k fun _ => False)
    (hfresh : ∀ k, ∀ d ∈ (w.clients k).down, d.remote ≠ w.fresh) (k : ℕ) :
    (w.gotOffer n rtc id label replace).Fine k fun _ => False := by
  have hfail {x : World} {message : String} (hx : x.Fine k fun _ => False) :
      (x.failUpConnection n id message).Fine k fun _ => False := by
    by_cases hk : k = n
    · subst hk
      exact hx.failUpConnection
    · exact hx.still (still_failUpConnection_of_ne hk)
  unfold Net.gotOffer
  cases hadd : w.addUpConn n rtc id label with
  | error message => exact hfail (hf k)
  | ok added =>
      obtain ⟨x, r⟩ := added
      have hx : x.Fine k fun _ => False := by
        unfold Net.addUpConn at hadd
        by_cases hduplicate : ((w.clients n).getDownConn id).isSome
        · rw [if_pos hduplicate] at hadd
          cases hadd
        · rw [if_neg hduplicate] at hadd
          cases hup : w.getUpConn n id with
          | some r' =>
              rw [hup] at hadd
              exact (Prod.mk.inj (Except.ok.inj hadd)).1 ▸ hf k
          | none =>
              rw [hup] at hadd
              dsimp only at hadd
              by_cases hconnects : rtc.connects
              · rw [if_pos hconnects] at hadd
                exact (Prod.mk.inj (Except.ok.inj hadd)).1 ▸ fine_newUpConn (hf k) (hfresh k)
              · rw [if_neg hconnects] at hadd
                cases hadd
      have hreplaced : (x.supersede n r replace).Fine k fun _ => False := hx.still still_supersede
      dsimp only
      split_ifs
      · by_cases hk : k = n
        · subst hk
          exact hreplaced.write fun _ _ => .inr rfl
        · exact hreplaced.still (still_write_of_ne hk)
      · exact hfail hreplaced

/-- A client that is closing a stream, or failing, tells nobody else. -/
theorem Net.Fine.close (hf : ∀ k, w.Fine k fun _ => False) (k : ℕ) :
    (w.closeDownConn n id message).Fine k fun _ => False := by
  by_cases hk : k = n
  · subst hk
    exact (hf k).closeDownConn.mono fun _ h => h.1
  · exact (hf k).still (still_closeDownConn_of_ne hk)

/-- A negotiation that fails closes the connection. -/
theorem fine_closed {c : WebClient} {down : RtpDownConnection} {restartIce : Bool}
    (hf : ∀ k, w.Fine k fun _ => False) (hdown : (w.clients n).getDownConn id = some down)
    {answered : RtpDownConnection} (hid : answered.id = down.id)
    (h : (w.clients n).negotiate rtc (w.ups down.remote) answered restartIce "" = .error c) (k : ℕ) :
    ((w.modify n fun _ => c).closeDownConn n id message).Fine k fun _ => False := by
  have hc : c = (w.clients n).setDownConn { answered with negotiationNeeded := .unneeded } := by
    unfold WebClient.negotiate at h
    split_ifs at h
    exact (Except.error.inj h).symm
  by_cases hk : k = n
  · subst hk
    have hset : (w.modify k fun _ => c).Fine k fun i => i = id := by
      refine @Net.Fine.setDownConn w k _ { answered with negotiationNeeded := .unneeded } _
        ((hf k).mono fun _ h => h.elim) (by rw [hc]) (by rw [hc]; rfl) (.inl ?_)
      exact hid.trans (mem_of_getDownConn hdown).2
    exact hset.closeDownConn.mono fun i hi => hi.2 hi.1
  · exact ((hf k).still (still_modify fun h => absurd h hk)).still (still_closeDownConn_of_ne hk)

theorem fine_requestStream {requested : Option (List String)}
    (hf : ∀ k, w.Fine k fun _ => False)
    (h : w.handleClientMessage n rtc (.requestStream id requested) = .ok v) (k : ℕ) :
    v.Fine k fun _ => False := by
  rw [Net.handleClientMessage] at h
  cases hdown : (w.clients n).getDownConn id with
  | none =>
      rw [hdown] at h
      exact Except.ok.inj h ▸ hf k
  | some down =>
      rw [hdown] at h
      dsimp only at h
      have hasked : (w.modify n (·.setDownConn { down with requested })).Fine k fun _ => False := by
        by_cases hk : k = n
        · subst hk
          obtain ⟨hstable, tracks, hlast, htracks⟩ := (hf k).agreed hdown
          exact (hf k).setDown rfl rfl ⟨hstable, tracks, hlast, htracks⟩
        · exact (hf k).still (still_modify fun h => absurd h hk)
      cases hg : (w.clients n).group with
      | none =>
          rw [hg] at h
          exact Except.ok.inj h ▸ hasked
      | some g =>
          rw [hg] at h
          exact Except.ok.inj h ▸ hasked.still still_action

theorem fine_offer {label : String} (hf : ∀ k, w.Fine k fun _ => False)
    (hfresh : ∀ k, ∀ d ∈ (w.clients k).down, d.remote ≠ w.fresh)
    (h : w.handleClientMessage n rtc (.offer id label replace) = .ok v) (k : ℕ) :
    v.Fine k fun _ => False := by
  rw [Net.handleClientMessage] at h
  by_cases hid : id = ""
  · rw [if_pos hid] at h
    cases h
  rw [if_neg hid] at h
  by_cases hpresent : (w.clients n).present
  · rw [if_pos hpresent] at h
    exact Except.ok.inj h ▸ fine_gotOffer hf hfresh k
  · rw [if_neg hpresent] at h
    rw [← Except.ok.inj h]
    have hreplaced : (if replace ≠ "" then w.delUpConn n replace true else w).Fine k fun _ => False := by
      split_ifs
      · exact (hf k).still still_delUpConn
      · exact hf k
    by_cases hk : k = n
    · subst hk
      exact (hreplaced.write fun _ _ => .inr rfl).error
    · exact (hreplaced.still (still_write_of_ne hk)).still (still_error_of_ne hk)

theorem fine_answer (hf : ∀ k, w.Fine k fun _ => False)
    (h : w.handleClientMessage n rtc (.answer id) = .ok v) (k : ℕ) :
    v.Fine k fun _ => False := by
  rw [Net.handleClientMessage] at h
  split_ifs at h
  cases hdown : (w.clients n).getDownConn id with
  | none =>
      rw [hdown] at h
      exact Except.ok.inj h ▸ Net.Fine.close hf k
  | some down =>
      rw [hdown] at h
      dsimp only at h
      by_cases haccepted : rtc.accepts ∧ down.signalingState = .haveLocalOffer
      swap
      · rw [if_pos haccepted] at h
        exact Except.ok.inj h ▸ Net.Fine.close hf k
      rw [if_neg (not_not.mpr haccepted)] at h
      by_cases hneeded : down.negotiationNeeded = .unneeded
      · rw [if_pos hneeded] at h
        rw [← Except.ok.inj h]
        by_cases hk : k = n
        · subst hk
          obtain ⟨-, tracks, hlast, htracks⟩ := (hf k).agreed hdown
          exact (hf k).setDown rfl rfl ⟨fun _ => hneeded, tracks, hlast, htracks⟩
        · exact (hf k).still (still_modify fun h => absurd h hk)
      · rw [if_neg hneeded] at h
        cases hnegotiated : (w.clients n).negotiate rtc (w.ups down.remote)
            { down with signalingState := .stable } (down.negotiationNeeded = .restartIce) "" with
        | ok c =>
            rw [hnegotiated] at h
            rw [← Except.ok.inj h]
            by_cases hk : k = n
            · subst hk
              exact @Net.Fine.renegotiate w k _ _ { down with signalingState := .stable } _ (hf k)
                (fun hstate => (by cases hstate)) hnegotiated
            · exact (hf k).still (still_modify fun h => absurd h hk)
        | error c =>
            rw [hnegotiated] at h
            have hanswered : ({ down with signalingState := .stable } : RtpDownConnection).id =
                down.id := rfl
            exact Except.ok.inj h ▸ fine_closed hf hdown hanswered hnegotiated k

theorem fine_renegotiate (hf : ∀ k, w.Fine k fun _ => False)
    (h : w.handleClientMessage n rtc (.renegotiate id) = .ok v) (k : ℕ) :
    v.Fine k fun _ => False := by
  rw [Net.handleClientMessage] at h
  split_ifs at h
  cases hdown : (w.clients n).getDownConn id with
  | none =>
      rw [hdown] at h
      exact Except.ok.inj h ▸ hf k
  | some down =>
      rw [hdown] at h
      dsimp only at h
      cases hnegotiated : (w.clients n).negotiate rtc (w.ups down.remote) down true "" with
      | ok c =>
          rw [hnegotiated] at h
          rw [← Except.ok.inj h]
          by_cases hk : k = n
          · subst hk
            obtain ⟨-, tracks, hlast, -⟩ := (hf k).agreed hdown
            exact (hf k).renegotiate (fun _ => ⟨tracks, hlast⟩) hnegotiated
          · exact (hf k).still (still_modify fun h => absurd h hk)
      | error c =>
          rw [hnegotiated] at h
          exact Except.ok.inj h ▸ fine_closed hf hdown rfl hnegotiated k

theorem fine_handleClientMessage {m : ClientMessage} (hf : ∀ k, w.Fine k fun _ => False)
    (hfresh : ∀ k, ∀ d ∈ (w.clients k).down, d.remote ≠ w.fresh)
    (h : w.handleClientMessage n rtc m = .ok v) (k : ℕ) : v.Fine k fun _ => False := by
  cases m with
  | request requested =>
      rw [Net.handleClientMessage] at h
      cases hg : (w.clients n).group with
      | none =>
          rw [hg] at h
          cases h
      | some g =>
          rw [hg] at h
          exact Except.ok.inj h ▸ (hf k).still ((still_modify fun _ => ⟨rfl, rfl⟩).trans still_action)
  | requestStream id requested => exact fine_requestStream hf h k
  | offer id label replace => exact fine_offer hf hfresh h k
  | answer id => exact fine_answer hf h k
  | renegotiate id => exact fine_renegotiate hf h k
  | close id =>
      rw [Net.handleClientMessage] at h
      split_ifs at h
      exact Except.ok.inj h ▸ (hf k).still still_delUpConn
  | abort id =>
      rw [Net.handleClientMessage] at h
      split_ifs at h
      exact Except.ok.inj h ▸ Net.Fine.close hf k

theorem handleClientMessage_error {m : ClientMessage} (h : w.handleClientMessage n rtc m = .error v) :
    v = w := by
  cases m with
  | request requested =>
      rw [Net.handleClientMessage] at h
      cases hg : (w.clients n).group with
      | none =>
          rw [hg] at h
          exact (Except.error.inj h).symm
      | some g =>
          rw [hg] at h
          cases h
  | requestStream id requested =>
      rw [Net.handleClientMessage] at h
      cases hdown : (w.clients n).getDownConn id with
      | none =>
          rw [hdown] at h
          cases h
      | some down =>
          rw [hdown] at h
          dsimp only at h
          cases hg : (w.clients n).group with
          | none =>
              rw [hg] at h
              cases h
          | some g =>
              rw [hg] at h
              cases h
  | offer id label replace =>
      rw [Net.handleClientMessage] at h
      by_cases hid : id = ""
      · rw [if_pos hid] at h
        exact (Except.error.inj h).symm
      · rw [if_neg hid] at h
        by_cases hpresent : (w.clients n).present
        · rw [if_pos hpresent] at h
          cases h
        · rw [if_neg hpresent] at h
          cases h
  | answer id =>
      rw [Net.handleClientMessage] at h
      by_cases hid : id = ""
      · rw [if_pos hid] at h
        exact (Except.error.inj h).symm
      · rw [if_neg hid] at h
        cases hdown : (w.clients n).getDownConn id with
        | none =>
            rw [hdown] at h
            cases h
        | some down =>
            rw [hdown] at h
            dsimp only at h
            by_cases haccepted : rtc.accepts ∧ down.signalingState = .haveLocalOffer
            swap
            · rw [if_pos haccepted] at h
              cases h
            rw [if_neg (not_not.mpr haccepted)] at h
            by_cases hneeded : down.negotiationNeeded = .unneeded
            · rw [if_pos hneeded] at h
              cases h
            · rw [if_neg hneeded] at h
              cases hnegotiated : (w.clients n).negotiate rtc (w.ups down.remote)
                  { down with signalingState := .stable } (down.negotiationNeeded = .restartIce) "" with
              | ok c =>
                  rw [hnegotiated] at h
                  cases h
              | error c =>
                  rw [hnegotiated] at h
                  cases h
  | renegotiate id =>
      rw [Net.handleClientMessage] at h
      by_cases hid : id = ""
      · rw [if_pos hid] at h
        exact (Except.error.inj h).symm
      · rw [if_neg hid] at h
        cases hdown : (w.clients n).getDownConn id with
        | none =>
            rw [hdown] at h
            cases h
        | some down =>
            rw [hdown] at h
            dsimp only at h
            cases hnegotiated : (w.clients n).negotiate rtc (w.ups down.remote) down true "" with
            | ok c =>
                rw [hnegotiated] at h
                cases h
            | error c =>
                rw [hnegotiated] at h
                cases h
  | close id =>
      rw [Net.handleClientMessage] at h
      by_cases hid : id = ""
      · rw [if_pos hid] at h
        exact (Except.error.inj h).symm
      · rw [if_neg hid] at h
        cases h
  | abort id =>
      rw [Net.handleClientMessage] at h
      by_cases hid : id = ""
      · rw [if_pos hid] at h
        exact (Except.error.inj h).symm
      · rw [if_neg hid] at h
        cases h

theorem group_leaveGroup : ((w.leaveGroup n order).clients n).group = none := by
  unfold Net.leaveGroup
  cases hg : (w.clients n).group with
  | none => exact hg
  | some g =>
      exact congrArg WebClient.group ((clients_modify_world
        ({ · with group := none, present := false, requested := [] }) n).trans (if_pos rfl))

theorem fine_of_none (hf : Founded w.routes) (h : (w.clients n).group = none) :
    w.Fine n fun _ => False := by
  have hnil : (w.clients n).down.map (·.link) = [] := List.map_eq_nil_iff.mp (hf.outside n h)
  intro d hd
  rw [List.map_eq_nil_iff.mp hnil] at hd
  cases hd

end Handlers

section Runs

variable {w w' : World} {n : ℕ} {l : Label} {order : List ℕ} {x : Except World World}

/-- A session that ends is over for its client, and nothing to the others. -/
theorem fine_finish (hfounded : Founded (Net.finish n order x).routes)
    (hok : ∀ v, x = .ok v → ∀ k, v.Fine k fun _ => False)
    (herror : ∀ v, x = .error v → ∀ k, k ≠ n → v.Fine k fun _ => False) (k : ℕ) :
    (Net.finish n order x).Fine k fun _ => False := by
  cases x with
  | ok v => exact hok v rfl k
  | error v =>
      by_cases hk : k = n
      · subst hk
        refine fine_of_none hfounded ?_
        exact (congrArg WebClient.group ((clients_modify_world ({ · with ended := true }) k).trans
          (if_pos rfl))).trans group_leaveGroup
      · have hended : Still k (v.leaveGroup n order)
            ((v.leaveGroup n order).modify n ({ · with ended := true })) :=
          still_modify fun h => absurd h hk
        exact (herror v rfl k hk).still ((still_leaveGroup_of_ne hk).trans hended)

theorem fine_step (hf : Founded w.routes) (hf' : Founded w'.routes)
    (hfine : ∀ k, w.Fine k fun _ => False) (h : step w l = some w') (k : ℕ) :
    w'.Fine k fun _ => False := by
  cases l with
  | join n g present =>
      rw [step] at h
      dsimp only at h
      split_ifs at h
      rw [← Option.some.inj h]
      have hjoined : Still k w (w.modify n fun c => { c with
          group := some g, present, stay := (w.clients n).stay + 1 }) := still_modify fun _ => ⟨rfl, rfl⟩
      exact (hfine k).still ⟨hjoined.down, hjoined.sent, hjoined.names⟩
  | leave n order =>
      rw [step] at h
      split_ifs at h
      rw [← Option.some.inj h] at hf' ⊢
      by_cases hk : k = n
      · subst hk
        exact fine_of_none hf' group_leaveGroup
      · exact (hfine k).still (still_leaveGroup_of_ne hk)
  | lost n order =>
      rw [step] at h
      split_ifs at h
      rw [← Option.some.inj h] at hf' ⊢
      exact fine_finish hf' (fun v hv => (by cases hv)) (fun v hv k _ => Except.error.inj hv ▸ hfine k) k
  | permit n present =>
      rw [step] at h
      split_ifs at h
      rw [← Option.some.inj h]
      exact (hfine k).still (still_modify fun _ => ⟨rfl, rfl⟩)
  | message n m rtc order =>
      rw [step] at h
      split_ifs at h
      rw [← Option.some.inj h] at hf' ⊢
      refine fine_finish hf' (fun v hv => fine_handleClientMessage hfine (fun k d hd => ?_) hv)
        (fun v hv k _ => handleClientMessage_error hv ▸ hfine k) k
      exact Nat.ne_of_lt (hf.conns k d.id d.remote (mem_conns_party.mpr ⟨d, hd, rfl, rfl⟩)).1
  | action n rtc order =>
      rw [step] at h
      split_ifs at h
      cases hactions : (w.clients n).actions with
      | nil =>
          rw [hactions] at h
          cases h
      | cons a rest =>
          rw [hactions] at h
          rw [← Option.some.inj h] at hf' ⊢
          have htaken (k : ℕ) : (w.modify n ({ · with actions := rest })).Fine k fun _ => False :=
            (hfine k).still (still_modify fun _ => ⟨rfl, rfl⟩)
          refine fine_finish hf' (fun v hv k => ?_) (fun v hv k hk => ?_) k
          · by_cases hk : k = n
            · subst hk
              exact (htaken k).handleAction hv
            · exact (htaken k).still (still_handleAction_of_ne hk (.inl hv))
          · exact (htaken k).still (still_handleAction_of_ne hk (.inr hv))
  | onTrack r track =>
      rw [step] at h
      split_ifs at h
      rw [← Option.some.inj h]
      exact (hfine k).still ((still_modifyUp ⟨rfl, rfl⟩).trans still_pushConn)
  | failed n id => exact Option.some.inj h ▸ (hfine k).still still_action
  | wake i =>
      rw [step] at h
      cases he : w.delayed[i]? with
      | none =>
          rw [he] at h
          cases h
      | some e =>
          rw [he] at h
          rw [← Option.some.inj h]
          have hwoken : Still k w { w with delayed := w.delayed.eraseIdx i } :=
            ⟨rfl, rfl, fun _ => ⟨rfl, rfl⟩⟩
          refine (hfine k).still (hwoken.trans ?_)
          split_ifs
          · exact .refl k _
          · exact still_pushConnNow

/-- What a client has last been told of a stream that it is sent is an offer of it. The offer
lists the tracks that the stream has unless another offer is to follow the answer. -/
theorem offered_of_reachable (h : Reachable system Always w) :
    ∀ d ∈ (w.clients n).down, (d.signalingState = .stable → d.negotiationNeeded = .unneeded) ∧
      ∃ replace sdp, lastAbout (w.clients n).sent d.id =
          some (.offer d.id (w.ups d.remote).label replace (w.ups d.remote).client sdp) ∧
        (d.negotiationNeeded = .unneeded → sdp.tracks = d.tracks.map (·.remote)) := by
  have hall : Founded w.routes ∧ ∀ k, w.Fine k fun _ => False := by
    refine h.invariant (P := fun w => Founded w.routes ∧ ∀ k, w.Fine k fun _ => False)
      (fun w hw => ⟨founded_init hw, fun k d hd => ?_⟩) fun w l w' hw _ hstep => ?_
    · subst hw
      cases hd
    · have hfounded := founded_step hw.1 hstep
      exact ⟨hfounded, fine_step hw.1 hfounded hw.2 hstep⟩
  intro d hd
  obtain ⟨hstable, tracks, ⟨replace, restart, hlast⟩, htracks⟩ := (hall.2 n d hd).resolve_left fun h => h
  exact ⟨hstable, replace, ⟨tracks, restart⟩, hlast, htracks⟩

theorem offered_first : ∃ w, system.exec Always { clients := fun _ => {} } firstStream = some w ∧
    (w.clients 2).down.length = 1 ∧
    (∀ d ∈ (w.clients 2).down, (d.signalingState = .stable → d.negotiationNeeded = .unneeded) ∧
      ∃ replace sdp, lastAbout (w.clients 2).sent d.id =
          some (.offer d.id (w.ups d.remote).label replace (w.ups d.remote).client sdp) ∧
        (d.negotiationNeeded = .unneeded → sdp.tracks = d.tracks.map (·.remote))) := by
  have hrun : (system.exec Always { clients := fun _ => {} } firstStream).map
      (fun w => (w.clients 2).down.length) = some 1 := by
    decide +kernel
  obtain ⟨w, hw, hlength⟩ := Option.map_eq_some_iff.mp hrun
  exact ⟨w, hw, hlength, offered_of_reachable (Reachable.exec (.init rfl) hw)⟩

/-- Once nothing is pending, and the client has answered, it has been offered what it has
asked for of each stream, and has not been told that the stream is over. -/
theorem quiet_offered {unsent : String → Bool} {g r : ℕ} (h : Reachable system (Faithful unsent) w)
    (hr : w.Live r) (howner : (w.clients (w.ups r).client).group = some g)
    (hmember : (w.clients n).group = some g) (hother : n ≠ (w.ups r).client)
    (hactions : (w.clients n).actions = []) (hasked : (w.clients (w.ups r).client).actions = [])
    (hdelayed : ∀ e ∈ w.delayed, e.up ≠ r)
    (hanswered : ∀ d ∈ (w.clients n).down, d.signalingState = .stable)
    (hwanted : (requestedTracks ((w.clients n).requestedOf (w.ups r).label) (w.ups r).tracks).1 ≠ []) :
    ∃ replace sdp, lastAbout (w.clients n).sent (w.ups r).id =
        some (.offer (w.ups r).id (w.ups r).label replace (w.ups r).client sdp) ∧
      sdp.tracks.Perm
        (requestedTracks ((w.clients n).requestedOf (w.ups r).label) (w.ups r).tracks).1 := by
  obtain ⟨hf, hp, -⟩ := served_of_reachable h
  have hperm := tracks_of_quiet h hr howner hmember hother hactions hasked hdelayed
  cases hdown : (w.clients n).getDownConn (w.ups r).id with
  | none =>
      rw [hdown] at hperm
      exact absurd hperm.symm.eq_nil hwanted
  | some d =>
      rw [hdown] at hperm
      obtain ⟨hmem, hid⟩ := mem_of_getDownConn hdown
      obtain ⟨hlt, hid', -⟩ := hf.conns n d.id d.remote (mem_conns_party.mpr ⟨d, hmem, rfl, rfl⟩)
      have hremote : d.remote = r := hp.ids d.remote r hlt hr.1 (hid'.symm.trans hid)
      obtain ⟨hstable, replace, sdp, hlast, htracks⟩ :=
        offered_of_reachable (h.mono fun _ _ _ => trivial) d hmem
      rw [hid, hremote] at hlast
      refine ⟨replace, sdp, hlast, ?_⟩
      rw [htracks (hstable (hanswered d hmem))]
      exact hperm

theorem offered_second : ∃ w,
    system.exec (Faithful fun _ => false) { clients := fun _ => {} }
        (secondStream ++ [.message 2 (.answer "b") {} []]) = some w ∧
      ∃ replace sdp, lastAbout (w.clients 2).sent (w.ups 1).id =
          some (.offer (w.ups 1).id (w.ups 1).label replace (w.ups 1).client sdp) ∧
        sdp.tracks.Perm
          (requestedTracks ((w.clients 2).requestedOf (w.ups 1).label) (w.ups 1).tracks).1 := by
  have hrun : (system.exec (Faithful fun _ => false) { clients := fun _ => {} }
      (secondStream ++ [.message 2 (.answer "b") {} []])).any
      (fun w => (w.fresh = 2 ∧ (w.ups 1).closed = false ∧ (w.ups 1).client = 1) ∧
        ((w.clients 1).group = some 0 ∧ (w.clients 2).group = some 0) ∧
        ((w.clients 1).actions = [] ∧ (w.clients 2).actions = []) ∧ w.delayed = [] ∧
        ((w.clients 2).down.map (·.signalingState) = [.stable] ∧
          (requestedTracks ((w.clients 2).requestedOf (w.ups 1).label) (w.ups 1).tracks).1 ≠ [])) =
      true := by
    decide +kernel
  obtain ⟨w, hw, hquiet⟩ := (Option.any_eq_true ..).mp hrun
  obtain ⟨⟨hfresh, hclosed, hclient⟩, ⟨hfirst, hsecond⟩, ⟨hasked, hactions⟩, hdelayed, hanswered, hwanted⟩ :=
    of_decide_eq_true hquiet
  refine ⟨w, hw, quiet_offered (g := 0) (Reachable.exec (.init rfl) hw) ⟨?_, hclosed⟩ ?_ hsecond ?_
    hactions ?_ ?_ (fun d hd => ?_) hwanted⟩
  · rw [hfresh]
    decide
  · rw [hclient]
    exact hfirst
  · rw [hclient]
    decide
  · rw [hclient]
    exact hasked
  · rw [hdelayed]
    exact List.forall_mem_nil _
  · have hmem := List.mem_map_of_mem (f := fun d : RtpDownConnection => d.signalingState) hd
    rw [hanswered] at hmem
    exact List.mem_singleton.mp hmem

end Runs

end Sozvon.Streams
