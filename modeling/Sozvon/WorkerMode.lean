import Sozvon.ClearPolicy
import Sozvon.Handshake

/-!
# The worker and the state shown

While the call is shown as encrypted the worker must hold the keys of the
session and not forward in clear. What it is told and what is shown change
together in every turn but two: `finalize` tells the worker to encrypt, awaits
the authentication string, and shows the call as encrypted only then. Whatever
lets the call go on in clear in between is undone by nobody.
-/
namespace Sozvon.E2EE
open Runs Controller

section Posts

variable {Id : Type} [LinearOrder Id] (c : Controller Id)

theorem media_of_no_worker {c : Controller Id} (h : c.worker.isSome = false) : c.media = {} := by
  unfold media
  cases hw : c.worker with
  | none => rfl
  | some posted => simp [hw] at h

theorem media_post (m : Post Id) :
    (c.post m).media = if c.worker.isSome then c.media.onmessage m else c.media := by
  unfold post media
  cases c.worker with
  | none => rfl
  | some posted => simp

/-- `clear` and `mode`, as `resetPeer` and `fail` post them. -/
theorem media_cleared : ((c.post .clear).post (.mode false)).media.cleartextMode = false ∧
    ((c.post .clear).post (.mode false)).media.sendKeyId = c.media.sendKeyId := by
  have hsome : (c.post .clear).worker.isSome = c.worker.isSome := by simp [post]
  rw [media_post, media_post, hsome]
  cases hw : c.worker.isSome with
  | false => simp [media_of_no_worker hw]
  | true => simp [Worker.onmessage]

theorem mode_resetPeer : c.resetPeer.media.cleartextMode = false := (media_cleared _).1

theorem sendKeyId_resetPeer : c.resetPeer.media.sendKeyId = c.media.sendKeyId := (media_cleared _).2

/-- Only a worker of a browser that can encrypt is told the mode, but no other
one is in cleartext mode. -/
theorem view_setWorkerMode {c : Controller Id}
    (hable : c.media.cleartextMode = true → c.supported = true)
    (cleartext : Bool) (state : CallState) (detail : Option Detail) :
    ((c.setWorkerMode cleartext).setState state detail).view =
      c.view.shown (c.supported && c.worker.isSome && cleartext) state := by
  have hmedia : (c.setWorkerMode cleartext).media =
      { c.media with cleartextMode := c.supported && c.worker.isSome && cleartext } := by
    cases hs : c.supported with
    | false =>
        have hmode : c.media.cleartextMode = false := by simpa [hs] using hable
        have hsame : (c.setWorkerMode cleartext).media = c.media := by
          unfold setWorkerMode
          rw [if_neg (by simp [hs])]
        rw [hsame, Bool.false_and, Bool.false_and, ← hmode]
    | true =>
        have hpost : (c.setWorkerMode cleartext).media = (c.post (.mode cleartext)).media := by
          unfold setWorkerMode
          rw [if_pos hs]
          rfl
        rw [hpost, media_post]
        cases hw : c.worker.isSome with
        | false => simp [media_of_no_worker hw]
        | true => rfl
  have hview : ((c.setWorkerMode cleartext).setState state detail).view =
      { c.view with media := (c.setWorkerMode cleartext).media, state := state } := rfl
  rw [hview, hmedia]
  rfl

theorem view_downgrade {c : Controller Id}
    (hable : c.media.cleartextMode = true → c.supported = true) (reason : Detail) :
    ∃ cleartext state, (c.downgrade reason).view = c.view.shown cleartext state ∧
      state ≠ .established ∧ (cleartext = true →
        c.supported = true ∧ state = .unencrypted ∧ c.refusesClear = false) := by
  unfold downgrade
  split
  · exact ⟨_, _, view_setWorkerMode hable false .blocked _, by decide, by simp⟩
  · rename_i hrefuses
    refine ⟨_, _, view_setWorkerMode hable true .unencrypted _, by decide, ?_⟩
    intro hmode
    rw [Bool.and_true, Bool.and_eq_true] at hmode
    exact ⟨hmode.1, rfl, by simpa using hrefuses⟩

end Posts

section Handlers

variable {Id : Type} [LinearOrder Id] {C : Crypto Id} {safe : Prop} {c d : Controller Id}

theorem view_suspend (c : Controller Id) (call : Suspended Id) :
    (c.suspend call).view = c.view.push call := rfl

theorem view_of_send {payload : Payload} {up returned : Bool}
    (h : c.send payload up = (d, returned)) : d.view = c.view := by
  obtain ⟨⟨sent, rfl⟩, -⟩ := send_eq h
  rfl

theorem view_send (c : Controller Id) (payload : Payload) (up : Bool) :
    (c.send payload up).1.view = c.view :=
  view_of_send rfl

theorem Inv.fail (h : Inv C safe c.view) (detail : Detail) : Inv C safe (c.fail detail).view where
  core := by
    have hmode : (c.fail detail).view.media.cleartextMode = false := (media_cleared _).1
    refine h.core.renewed (Nat.lt_succ_self _) rfl ?_ ?_ ?_ ?_
    · simp [hmode]
    · exact (media_cleared _).2.trans h.core.sendKeyId
    · simp [hmode]
    · simp [Controller.view, Controller.fail, setState]
  placed := by
    simp only [View.Placed, Controller.view, Controller.fail, setState, post, dropChatKeys,
      stopHandshakeTimer]
    exact h.placed

theorem Inv.downgrade (h : Inv C safe c.view) (reason : Detail)
    (hw : c.supported = true → c.refusesClear = false → safe → ¬ c.view.Waits) :
    Inv C safe (c.downgrade reason).view := by
  obtain ⟨cleartext, state, hview, hstate, hclear⟩ := view_downgrade h.core.able reason
  rw [hview]
  refine ⟨h.core.shown hstate ?_, h.placed⟩
  intro hb
  exact ⟨(hclear hb).1, (hclear hb).2.1, hw (hclear hb).1 (hclear hb).2.2⟩

/-- Nothing has been called since `c`, and no session of it has come back. -/
structure Follows (c d : Controller Id) : Prop where
  generation : c.generation ≤ d.generation
  calls : d.calls = c.calls
  sendKeyId : d.media.sendKeyId = c.media.sendKeyId

/-- `resetPeer`, after which the state is decided anew. -/
theorem Core.reset (h : Core C safe c.view) (hcd : Follows c d) {v : View Id}
    (hgen : v.generation = d.resetPeer.generation) (hcalls : v.calls = d.calls)
    (hkey : v.media.sendKeyId = d.resetPeer.media.sendKeyId) (hstate : v.state ≠ .established)
    (hclear : v.media.cleartextMode = true → v.supported = true ∧ v.state = .unencrypted) :
    Core C safe v := by
  refine h.renewed ?_ (hcalls.trans hcd.calls) ?_ ?_ ?_ hstate
  · rw [hgen]
    exact Nat.lt_succ_of_le hcd.generation
  · exact fun hb => (hclear hb).1
  · exact hkey.trans ((sendKeyId_resetPeer d).trans (hcd.sendKeyId.trans h.sendKeyId))
  · exact fun hb => (hclear hb).2

theorem Inv.reset_downgrade (h : Core C safe c.view) (hcd : Follows c d) (reason : Detail) :
    Inv C safe (d.resetPeer.downgrade reason).view := by
  obtain ⟨cleartext, state, hview, hstate, hclear⟩ :=
    view_downgrade (c := d.resetPeer) (by simp [mode_resetPeer]) reason
  rw [hview]
  refine ⟨h.reset hcd rfl rfl rfl hstate ?_, nofun⟩
  intro hb
  exact ⟨(hclear hb).1, (hclear hb).2.1⟩

/-- `recompute`, where nobody else is left. -/
theorem Inv.recompute_nil (h : Core C safe c.view) (hcd : Follows c d) (hu : d.users = []) (up : Bool) :
    Inv C safe (d.recompute up).view := by
  unfold Controller.recompute
  rw [hu]
  dsimp only
  split
  · exact .reset_downgrade h hcd _
  · refine ⟨h.reset hcd rfl rfl rfl nofun ?_, nofun⟩
    intro hb
    exact absurd ((mode_resetPeer d).symm.trans hb) nofun

theorem view_setWorkerMode_renew (peer : Id) :
    ((c.renew peer).setWorkerMode false).view = (c.renew peer).view.shown false .handshaking := by
  have hmode : (c.renew peer).media.cleartextMode = false := mode_resetPeer c
  have hset := view_setWorkerMode (c := c.renew peer) (by simp [hmode]) false .handshaking none
  rwa [Bool.and_false] at hset

/-- What is left of a session once `startWith` has begun the next one. -/
theorem renewed_left {peer : Id} (hd : (c.renew peer).setWorkerMode false = d) :
    d.generation = c.generation + 1 ∧ d.calls = c.calls ∧ d.keyPair = none ∧
      d.peer = some peer ∧ d.users = c.users := by
  rw [← hd]
  simp only [setWorkerMode, renew, resetPeer, setState, ensureWorker, post, stopHandshakeTimer,
    dropChatKeys, and_self]

theorem Inv.startWith (h : Inv C safe c.view) {peer : Id} (hu : c.users = [peer])
    (waiting : Option Payload) : Inv C safe (c.startWith peer waiting).view := by
  unfold Controller.startWith
  split
  · cases waiting with
    | none => exact h
    | some payload => exact h.push_other rfl
  · have hnew : Core C safe ((c.renew peer).setWorkerMode false).view := by
      rw [view_setWorkerMode_renew]
      exact h.core.renewed (Nat.lt_succ_self _) rfl nofun ((sendKeyId_resetPeer c).trans h.core.sendKeyId) nofun nofun
    dsimp only
    generalize hd : (c.renew peer).setWorkerMode false = d at hnew ⊢
    obtain ⟨hgen, hcalls, hkeyPair, hpeer, husers⟩ := renewed_left hd
    rw [view_suspend]
    constructor
    · refine hnew.push_starting hkeyPair fun hstarting => ?_
      change d.generation ∈ d.calls.filterMap Suspended.startGen? at hstarting
      rw [hgen, hcalls] at hstarting
      exact absurd (h.core.gen_le_of_starting hstarting) (Nat.not_succ_le_self _)
    · rintro p hp
      obtain rfl : peer = p := Option.some.inj (hpeer.symm.trans hp)
      exact husers.trans hu

/-- `this.peer = p`, where `p` is the only other participant. -/
theorem Inv.setPeer (h : Core C safe c.view) {p : Id} (hp : ∀ q, c.peer = some q → q = p)
    (hu : c.users = [p]) : Inv C safe { c with peer := some p }.view where
  core := by
    cases hpeer : c.peer with
    | none =>
        have hnone : c.session = none := by simp [session, hpeer]
        exact (h.seat c.users (some p)).material hnone h.fresh
    | some q =>
        rw [hp q hpeer] at hpeer
        rw [← hpeer]
        exact h
  placed := by
    rintro _ ⟨⟩
    exact hu

/-- `recompute`, where the participants may just have changed. -/
theorem Inv.recompute (h : Core C safe c.view) {up : Bool}
    (hlone : ∀ p q, c.peer = some p → c.users = [q] → p = q)
    (hw : ∀ p, c.users = [p] → up = true → c.canEncrypt = false → c.refusesClear = false →
      safe → ¬ c.view.Waits) : Inv C safe (c.recompute up).view := by
  have hcc : Follows c c := ⟨Nat.le_refl _, rfl, rfl⟩
  by_cases hnil : c.users = []
  · exact .recompute_nil h hcc hnil up
  unfold Controller.recompute
  split
  · rename_i hu
    exact absurd hu hnil
  · rename_i p hu
    have hpeer : Inv C safe { c with peer := some p }.view := .setPeer h (fun q hq => hlone q p hq hu) hu
    split
    · rename_i hcan
      rw [Bool.not_eq_true'] at hcan
      split
      · rename_i hsend
        rw [view_of_send hsend]
        exact hpeer
      · rename_i hsend
        have hview := view_of_send hsend
        have hrefuses := congrArg Prod.fst (standing_of_send hsend)
        have hup := (send_eq hsend).2 rfl
        rw [← hview] at hpeer
        refine hpeer.downgrade _ fun _ hclear => ?_
        rw [hview]
        exact hw p hu hup.symm hcan (hrefuses.symm.trans hclear)
    · refine Inv.startWith ⟨h, ?_⟩ hu none
      intro q hq
      exact hlone q p hq hu ▸ hu
  · exact .reset_downgrade h hcc _

/-- `finalize` sets out only if nothing is missing. -/
theorem Inv.finalize (h : Inv C safe c.view) : Inv C safe c.finalize.view := by
  unfold Controller.finalize
  split
  · exact h
  · rename_i s hs
    have hgen : s.gen = c.generation := by
      unfold session at hs
      dsimp only at hs
      split at hs <;> cases hs
      rfl
    rw [view_suspend]
    exact ⟨h.core.push_finalizing hgen hs trivial, h.placed⟩

/-- Only what `finalize` would read has changed, and before that something was
missing. -/
theorem Inv.material (h : Inv C safe c.view) (hnone : c.session = none)
    (hd : d.view = c.view.material c.keyPair d.session) : Inv C safe d.view := by
  rw [hd]
  exact ⟨h.core.material hnone h.core.fresh, h.placed⟩

omit [LinearOrder Id] in
theorem session_of_peerPub (h : c.peerPub = none) : c.session = none := by
  simp [session, h]

theorem Inv.answer (h : Inv C safe c.view) (payload : Payload) (up : Bool) :
    Inv C safe (c.answer payload up).view := by
  unfold Controller.answer
  split
  · exact h
  split
  · exact h
  split
  · exact h.fail _
  split
  · split
    · rw [view_send]
      exact h
    · exact h
  · split
    · rename_i hrole
      split
      · exact h
      · split
        · split
          · exact h
          · exact h.fail _
        · rename_i hcommit
          rw [view_send]
          have hnone : c.session = none := by simp [session, hrole, hcommit]
          exact h.material hnone rfl
    · exact h
  · split
    · exact h
    · split
      · split
        · exact h
        · exact h.fail _
      · rename_i pub _ _ hpub
        have hstored : Inv C safe { c with peerPub := some pub }.view :=
          h.material (session_of_peerPub hpub) rfl
        split
        · split
          · rename_i hsend
            rw [view_of_send hsend]
            exact hstored
          · rename_i hsend
            rw [← view_of_send hsend] at hstored
            exact hstored.finalize
        · split
          · exact h
          · exact h.push_other rfl
  · exact h
  · exact h

theorem Inv.hashed (h : Inv C safe c.view) (pub : Bytes) : Inv C safe (c.hashed C pub).view := by
  unfold Controller.hashed
  split
  · exact h
  · split
    · exact h.fail _
    · split
      · exact h
      · rename_i hnew
        have hpub : c.peerPub = none := by
          rw [not_or, Option.not_isSome_iff_eq_none] at hnew
          exact hnew.1
        have hstored : Inv C safe { c with peerPub := some pub }.view :=
          h.material (session_of_peerPub hpub) rfl
        exact hstored.finalize

theorem Inv.onMessage (h : Inv C safe c.view) (sender : Id) (payload : Option Payload) (up : Bool)
    (hw : c.users = [sender] → (∃ p ∈ payload, p.t = .nocrypto) → c.refusesClear = false →
      safe → ¬ c.view.Waits) : Inv C safe (c.onMessage sender payload up).view := by
  unfold Controller.onMessage
  split
  · exact h
  · rename_i payload
    split
    · exact h
    rename_i hu
    rw [not_not] at hu
    have hpeer : Inv C safe { c with peer := some sender }.view :=
      .setPeer h.core (fun q hq => List.head_eq_of_cons_eq ((h.placed q hq).symm.trans hu)) hu
    split
    · rename_i hs
      rw [Bool.not_eq_true'] at hs
      split
      · rename_i hsend
        rw [view_of_send hsend]
        exact hpeer
      · rename_i hsend
        have hview := view_of_send hsend
        rw [← hview] at hpeer
        refine hpeer.downgrade _ fun hsupported => ?_
        have hsame := congrArg View.supported hview
        exact absurd (hsupported.symm.trans (hsame.trans hs)) nofun
    · split
      · rename_i hnocrypto
        have hd : Inv C safe { c with peer := some sender, peerSupports := some false }.view := hpeer
        exact hd.downgrade _ fun _ hrefuses => hw hu ⟨payload, rfl, hnocrypto⟩ hrefuses
      · split
        · exact h.startWith hu _
        · exact h.answer _ _

theorem Inv.continueInClear (h : Inv C safe c.view)
    (hw : c.awaitsClearConsent = true → safe → ¬ c.view.Waits) : Inv C safe c.continueInClear.view := by
  unfold Controller.continueInClear
  split
  · rename_i hconsent
    rw [view_setWorkerMode (c := { c with clearAgreed := true }) h.core.able]
    refine ⟨h.core.shown nofun ?_, h.placed⟩
    intro hb
    rw [Bool.and_true, Bool.and_eq_true] at hb
    exact ⟨hb.1, rfl, hw hconsent⟩
  · exact h

theorem Inv.attachSender (h : Inv C safe c.view) (ok up : Bool)
    (hw : ok = false → c.refusesClear = false → safe → ¬ c.view.Waits) :
    Inv C safe (c.attachSender ok up).view := by
  unfold Controller.attachSender
  split
  · exact h
  · split
    · exact h
    · rename_i hfails
      have hview : ({ c.ensureWorker with transformFailed := true }.announceNoCrypto up).1.view =
          c.view := view_send _ _ up
      have hrefuses := congrArg Prod.fst
        (standing_send { c.ensureWorker with transformFailed := true } { t := .nocrypto } up)
      refine Inv.downgrade (hview ▸ h) _ fun _ hclear => ?_
      rw [hview]
      exact hw (by simpa using hfails) (hrefuses.symm.trans hclear)

theorem Inv.attachReceiver (h : Inv C safe c.view) : Inv C safe c.attachReceiver.view := by
  unfold Controller.attachReceiver
  split <;> exact h

theorem Inv.slow (h : Inv C safe c.view) (gen : ℕ) : Inv C safe (c.slow gen).view := by
  unfold Controller.slow
  dsimp only
  split
  · rename_i hslow
    have hview : ({ c with handshakeTimer := none }.setState .handshaking (some .slow)).view =
        c.view := by
      rw [setState, Controller.view, Controller.view, View.mk.injEq]
      exact ⟨rfl, rfl, rfl, rfl, rfl, rfl, rfl, rfl, rfl, rfl, hslow.2.symm, rfl, rfl⟩
    rw [hview]
    exact h
  · exact h

theorem view_setWorkerMode_false (hable : c.media.cleartextMode = true → c.supported = true) :
    (c.setWorkerMode false).view = c.view.dropping := by
  have hset := view_setWorkerMode hable false c.state c.detail
  rw [Bool.and_false] at hset
  exact hset

/-- A media key that is posted, to a worker that is there from now on. -/
theorem view_post_key (streamId : StreamId Id) (key : Bytes) :
    (c.ensureWorker.post (.key streamId 0 key)).view =
      c.view.keying (c.media.putKey streamId 0 key) := by
  have hmedia : (c.ensureWorker.post (.key streamId 0 key)).media =
      c.media.putKey streamId 0 key := media_post c.ensureWorker _
  rw [← hmedia]
  rfl

theorem holds_putKey {v : View Id} {s : Session Id} {streams : List (StreamId Id)}
    (h : v.Holds C s streams) (streamId : StreamId Id) :
    (v.keying (v.media.putKey streamId 0 (s.mediaKey C v.id streamId))).Holds C s
      (streams ++ [streamId]) := by
  intro x hx
  simp only [View.keying, Worker.putKey, and_true]
  split
  · rename_i heq
    rw [heq]
  · rename_i hne
    rcases List.mem_append.mp hx with hold | hnew
    · exact h x hold
    · exact absurd (List.mem_singleton.mp hnew) hne

theorem Core.post_key {v : View Id} (h : Core C safe v) {s : Session Id} (hs : v.session = some s)
    (streamId : StreamId Id) :
    Core C safe (v.keying (v.media.putKey streamId 0 (s.mediaKey C v.id streamId))) := by
  refine h.keying ?_ rfl fun hb => hb
  intro s' streams hs' hholds x hx
  obtain rfl : s = s' := Option.some.inj (hs.symm.trans hs')
  exact holds_putKey hholds streamId x (List.mem_append_left _ hx)

/-- The key pair is stored; no other `startWith` of its generation is left. -/
theorem Inv.started (h : Inv C safe c.view) {peer : Id} {gen : ℕ} {kp : KeyPair} {up returned : Bool}
    (hfresh : gen = c.generation →
      c.keyPair = none ∧ gen ∉ c.calls.filterMap Suspended.startGen?)
    (hd : c.started C peer gen kp up = (d, returned)) : Inv C safe d.view := by
  unfold Controller.started at hd
  split at hd
  · cases hd
    exact h
  · rename_i hcurrent
    rw [not_or, not_not, not_not] at hcurrent
    obtain ⟨hnone, hleft⟩ := hfresh hcurrent.2
    have hsession : c.session = none := by simp [session, hnone]
    have hstored : Inv C safe { c with
        keyPair := some kp, myPub := some kp.publicKey,
        myCommit := some (C.commit kp.publicKey), startingFor := none }.view :=
      ⟨h.core.material hsession fun hgen => absurd (hcurrent.2 ▸ hgen) hleft, h.placed⟩
    dsimp only at hd
    split at hd
    · rename_i hsend
      cases hd
      rw [view_of_send hsend]
      exact hstored
    · rename_i hsend
      rw [← view_of_send hsend] at hstored
      split at hd
      · rw [view_of_send hd]
        exact hstored
      · cases hd
        exact hstored

theorem Inv.finalizing (h : Inv C safe c.view) {s : Session Id} {await : Await Id}
    (hs : s.gen = c.generation → c.session = some s ∧ c.view.Reached C safe s await) :
    Inv C safe (c.finalizing C s await).view := by
  unfold Controller.finalizing
  split
  · exact h
  rename_i hgen
  rw [not_not] at hgen
  obtain ⟨hsession, hreached⟩ := hs hgen
  cases await with
  | agree =>
      have hagreed := h.core.agreed hsession
      exact ⟨hagreed.push_finalizing hgen hsession ⟨rfl, rfl⟩, h.placed⟩
  | transcript secret =>
      refine ⟨h.core.push_finalizing hgen hsession ?_, h.placed⟩
      exact ⟨hreached, rfl, [], rfl, nofun⟩
  | media secret salt streamId rest =>
      obtain ⟨⟨rfl, hsecret⟩, rfl, done, hdone, hholds⟩ := hreached
      have hview := view_post_key (c := c) streamId (s.mediaKey C c.id streamId)
      have hposted := h.core.post_key hsession streamId
      have hnext := holds_putKey hholds streamId
      rw [show c.view.keying (c.view.media.putKey streamId 0 (s.mediaKey C c.view.id streamId)) = _
        from hview.symm] at hposted hnext
      cases rest with
      | nil =>
          refine ⟨hposted.push_finalizing hgen hsession ⟨⟨rfl, hsecret⟩, rfl, ?_⟩, h.placed⟩
          intro x hx
          exact hnext x (hdone ▸ hx)
      | cons next rest =>
          refine ⟨hposted.push_finalizing hgen hsession ⟨⟨rfl, hsecret⟩, rfl, _, ?_, hnext⟩, h.placed⟩
          rw [List.append_assoc]
          exact hdone
  | chat secret salt =>
      obtain ⟨⟨rfl, hsecret⟩, rfl, hholds⟩ := hreached
      have hdropping : Core C safe ((c.view.chatting (s.chatKeys C c.id)).dropping) :=
        (h.core.chatting hsession).keying (fun _ _ _ hold => hold) rfl nofun
      have hview := view_setWorkerMode_false (c := { c with
          chatSendKey := some (C.deriveChatKey (s.secret C) (s.salt C c.id) c.id),
          chatRecvKey := some (C.deriveChatKey (s.secret C) (s.salt C c.id) s.peer),
          chatSendSeq := 0, chatRecvSeq := -1 }) h.core.able
      have hreaches : (c.view.chatting (s.chatKeys C c.id)).dropping.Reached C safe s
          (.sas (s.secret C) (s.salt C c.id)) :=
        ⟨⟨rfl, hsecret⟩, rfl, hholds, fun _ => rfl, rfl⟩
      have hnext := hdropping.push_finalizing hgen hsession hreaches
      refine ⟨?_, h.placed⟩
      dsimp only
      rw [view_suspend]
      exact hview.symm ▸ hnext
  | sas secret salt =>
      obtain ⟨⟨rfl, hsecret⟩, rfl, hholds, hmode, hchat⟩ := hreached
      exact ⟨h.core.established hmode ⟨s, hsession, hsecret, hholds, rfl, hchat⟩, h.placed⟩

/-- A suspended call goes on: it is taken out of `calls` and does its part. -/
theorem Inv.resume (h : Inv C safe c.view) {i : ℕ} {call : Suspended Id} (hi : c.calls[i]? = some call)
    (kp : KeyPair) (up : Bool) :
    Inv C safe ({ c with calls := c.calls.eraseIdx i }.resume C kp up call).view := by
  have hrest : Inv C safe { c with calls := c.calls.eraseIdx i }.view := ⟨h.core.erase i, h.placed⟩
  have hmem : call ∈ c.calls := List.mem_of_getElem? hi
  cases call with
  | starting peer gen waiting =>
      have hfresh : gen = c.generation → c.keyPair = none ∧
          gen ∉ (c.calls.eraseIdx i).filterMap Suspended.startGen? := by
        rintro rfl
        exact ⟨h.core.fresh (List.mem_filterMap.mpr ⟨_, hmem, rfl⟩), h.core.starting_erase hi rfl⟩
      simp only [Controller.resume]
      split
      · rename_i hd
        exact hrest.started hfresh hd
      · rename_i hd
        have hstarted := hrest.started hfresh hd
        cases waiting with
        | none => exact hstarted
        | some payload => exact hstarted.push_other rfl
  | resuming payload => exact hrest.answer payload up
  | hashing pub => exact hrest.hashed pub
  | finalizing s await => exact hrest.finalizing (h.core.runs s await hmem)

end Handlers

section Guard

variable {Id : Type} [LinearOrder Id]

namespace Controller

/-- A run of `finalize` for the present session awaits `deriveSAS`. -/
def awaitsSAS (c : Controller Id) : Bool :=
  c.calls.any fun
    | .finalizing s (.sas _ _) => s.gen = c.generation
    | _ => false

end Controller

/-- No event lets the call go on in clear while the authentication string is awaited. -/
def Undisturbed (c : Controller Id) (a : Label Id) : Prop :=
  c.awaitsSAS = true → c.clears a = false

instance (c : Controller Id) (a : Label Id) : Decidable (Undisturbed c a) :=
  inferInstanceAs (Decidable (c.awaitsSAS = true → c.clears a = false))

theorem awaitsSAS_of_waits {c : Controller Id} (h : c.view.Waits) : c.awaitsSAS = true := by
  obtain ⟨s, secret, salt, hmem, hgen⟩ := h
  exact List.any_eq_true.mpr ⟨_, hmem, decide_eq_true hgen⟩

end Guard

section Steps

variable {Id : Type} [LinearOrder Id] {C : Crypto Id} {safe : Prop} {c d : Controller Id}

theorem Inv.users_of_peer (h : Inv C safe c.view) {p : Id} (hp : c.peer = some p) : c.users = [p] :=
  h.placed p hp

/-- A run of `finalize` for the present session has a single participant as its peer. -/
theorem Inv.users_of_waits (h : Inv C safe c.view) (hw : c.view.Waits) : ∃ p, c.users = [p] := by
  obtain ⟨s, secret, salt, hmem, hgen⟩ := hw
  have hsession : c.session = some s := (h.core.runs s _ hmem hgen).1
  cases hpeer : c.peer with
  | none => simp [session, hpeer] at hsession
  | some p => exact ⟨p, h.placed p hpeer⟩

theorem Inv.addUser (h : Inv C safe c.view) {id : Id} {up : Bool}
    (hok : safe → Undisturbed c (.addUser id up)) : Inv C safe (c.addUser id up).view := by
  unfold Controller.addUser
  split
  · exact h
  refine Inv.recompute (c := { c with users := if id ∈ c.users then c.users else c.users ++ [id] })
    (h.core.seat _ c.peer) ?_ ?_
  · intro p q hp hq
    dsimp only at hq
    rw [h.users_of_peer hp] at hq
    split at hq
    · exact List.head_eq_of_cons_eq hq
    · simp at hq
  · intro p hp hup hcan hrefuses hsafe hwaits
    obtain ⟨q, hq⟩ := h.users_of_waits hwaits
    have hid : c.users = [id] := by
      dsimp only at hp
      rw [hq] at hp ⊢
      split at hp
      · rename_i hmem
        rw [List.mem_singleton.mp hmem]
      · simp at hp
    have hclears : c.clears (.addUser id up) = true := by
      have hcan' : c.canEncrypt = false := hcan
      have hrefuses' : c.refusesClear = false := hrefuses
      simp [clears, hid, hup, hcan', hrefuses']
    cases (hok hsafe (awaitsSAS_of_waits hwaits)).symm.trans hclears

theorem Inv.delUser (h : Inv C safe c.view) {id : Id} {up : Bool}
    (hok : safe → Undisturbed c (.delUser id up)) : Inv C safe (c.delUser id up).view := by
  unfold Controller.delUser
  dsimp only
  split
  · rename_i hpeer
    have hu : c.users.filter (· ≠ id) = [] := by simp [h.users_of_peer hpeer]
    have hcd : Follows c { c with users := c.users.filter (· ≠ id) }.resetPeer :=
      ⟨Nat.le_succ _, rfl, sendKeyId_resetPeer { c with users := c.users.filter (· ≠ id) }⟩
    exact .recompute_nil h.core hcd hu up
  · refine Inv.recompute (c := { c with users := c.users.filter (· ≠ id) })
      (h.core.seat _ c.peer) ?_ ?_
    · intro p q hp hq
      have hkept := List.mem_of_mem_filter (hq ▸ List.mem_singleton_self q)
      rw [h.users_of_peer hp] at hkept
      exact (List.mem_singleton.mp hkept).symm
    · intro p hp hup hcan hrefuses hsafe hwaits
      obtain ⟨q, hq⟩ := h.users_of_waits hwaits
      have hid : id ∉ c.users := by
        dsimp only at hp
        rw [hq] at hp ⊢
        intro hmem
        rw [List.mem_singleton.mp hmem] at hp
        simp at hp
      have hclears : c.clears (.delUser id up) = true := by
        have hcan' : c.canEncrypt = false := hcan
        have hrefuses' : c.refusesClear = false := hrefuses
        simp [clears, hid, hup, hcan', hrefuses']
      cases (hok hsafe (awaitsSAS_of_waits hwaits)).symm.trans hclears

theorem Inv.setRequire (h : Inv C safe c.view) {require up : Bool}
    (hok : safe → Undisturbed c (.setRequire require up)) : Inv C safe (c.setRequire require up).view := by
  refine Inv.recompute (c := { c with require := require }) h.core ?_ ?_
  · intro p q hp hq
    exact List.head_eq_of_cons_eq ((h.placed p hp).symm.trans hq)
  · intro p _ hup hcan hrefuses hsafe hwaits
    have hclears : c.clears (.setRequire require up) = true := by
      have hcan' : c.canEncrypt = false := hcan
      cases require with
      | true => simp [refusesClear] at hrefuses
      | false => simp [clears, hup, hcan', hrefuses]
    cases (hok hsafe (awaitsSAS_of_waits hwaits)).symm.trans hclears

theorem Inv.step (h : Inv C safe c.view) {a : Label Id} (hok : safe → Undisturbed c a)
    (hd : step C c a = some d) : Inv C safe d.view := by
  have hquiet : c.clears a = true → safe → ¬ c.view.Waits := by
    intro hclears hsafe hwaits
    cases (hok hsafe (awaitsSAS_of_waits hwaits)).symm.trans hclears
  cases a with
  | addUser id up =>
      cases hd
      exact h.addUser hok
  | delUser id up =>
      cases hd
      exact h.delUser hok
  | setRequire require up =>
      cases hd
      exact h.setRequire hok
  | message sender payload up =>
      cases hd
      apply h.onMessage
      rintro hu ⟨p, rfl, hp⟩ hrefuses
      exact hquiet (by simp [clears, hu, hp, hrefuses])
  | continueInClear =>
      cases hd
      exact h.continueInClear hquiet
  | attachSender ok up =>
      cases hd
      apply h.attachSender
      intro hfails hrefuses
      exact hquiet (by simp [clears, hfails, hrefuses])
  | attachReceiver =>
      cases hd
      exact h.attachReceiver
  | timeout =>
      obtain ⟨gen, -, rfl⟩ := Option.map_eq_some_iff.mp hd
      exact h.slow gen
  | resume i kp up =>
      obtain ⟨call, hcall, rfl⟩ := Option.map_eq_some_iff.mp hd
      exact h.resume hcall kp up
  | reject i =>
      obtain ⟨call, -, rfl⟩ := Option.map_eq_some_iff.mp hd
      exact ⟨h.core.erase i, h.placed⟩

end Steps

section Agreement

variable {Id : Type} [LinearOrder Id] {C : Crypto Id} {safe : Prop} {c d : Controller Id}

/-- The worker holds, under the key id it seals with, the media keys of both
participants that the secret and the transcript of the session give. -/
def Controller.HoldsSessionKeys (C : Crypto Id) (c : Controller Id) : Prop :=
  ∃ s, c.session = some s ∧ c.secret = some (s.secret C) ∧ ∀ streamId ∈ s.streams c.id,
    c.media.keys streamId c.media.sendKeyId = some (s.mediaKey C c.id streamId)

def ModeAgrees (C : Crypto Id) (c : Controller Id) : Prop :=
  (c.state = .established → c.media.cleartextMode = false ∧ c.HoldsSessionKeys C) ∧
  (c.media.cleartextMode = true → c.state = .unencrypted) ∧
  (c.state ≠ .unencrypted → ∀ streamId, c.media.encryptor streamId ≠ .forwarded)

theorem Inv.modeAgrees (h : Inv C True c.view) : ModeAgrees C c := by
  refine ⟨?_, h.core.clear trivial, ?_⟩
  · intro hstate
    obtain ⟨hmode, s, hsession, hsecret, hholds, -⟩ := h.core.keyed hstate
    refine ⟨hmode trivial, s, hsession, hsecret, fun streamId hmem => ?_⟩
    rw [show c.media.sendKeyId = 0 from h.core.sendKeyId]
    exact hholds streamId hmem
  · intro hstate streamId hforwarded
    have hmode : c.media.cleartextMode = false := by
      rw [← Bool.not_eq_true]
      exact fun hb => hstate (h.core.clear trivial hb)
    unfold Worker.encryptor at hforwarded
    rw [hmode, if_neg nofun] at hforwarded
    split at hforwarded <;> cases hforwarded

theorem inv_of_reachable {ok : Controller Id → Label Id → Prop}
    (hok : ∀ c a, safe → ok c a → Undisturbed c a) (hc : Reachable (system C) ok c) :
    Inv C safe c.view := by
  refine Reachable.invariant (P := fun c : Controller Id => Inv C safe c.view) ?_ ?_ hc
  · rintro _ ⟨id, supported, wasEncrypted, rfl⟩
    exact ⟨⟨nofun, .nil, nofun, nofun, nofun, rfl, nofun, nofun⟩, nofun⟩
  · intro c a d h hstep hd
    exact h.step (fun hsafe => hok c a hsafe hstep) hd

/-- As long as nothing lets the call go on in clear while the authentication
string is awaited, what the worker does is what the user is shown. -/
theorem modeAgrees_of_undisturbed (hc : Reachable (system C) Undisturbed c) : ModeAgrees C c := by
  have hinv : Inv C True c.view := inv_of_reachable (fun _ _ _ hok => hok) hc
  exact hinv.modeAgrees

end Agreement

section Samples

/-- A handshake of the initiator, up to the point where `deriveSAS` is awaited. -/
def handshake : List (Label ℕ) :=
  let pub := (samplePair 9).publicKey
  let go := Label.resume 0 (samplePair 7) true
  [.addUser 2 true, go,
    .message 2 (some { t := .commit, v := some 2, commit := some (sampleCrypto.commit pub) }) true,
    .message 2 (some { t := .dh, v := some 2, pub := some pub }) true] ++ List.replicate 8 go

theorem modeAgrees_established : ∃ c, (system sampleCrypto).exec Undisturbed newcomer
    (handshake ++ [.resume 0 (samplePair 7) true]) = some c ∧ c.state = .established ∧
      ModeAgrees sampleCrypto c := by
  obtain ⟨c, hc, hstate⟩ : ∃ c ∈ (system sampleCrypto).exec Undisturbed newcomer
      (handshake ++ [.resume 0 (samplePair 7) true]), c.state = .established := by decide +kernel
  exact ⟨c, hc, hstate, modeAgrees_of_undisturbed (.exec (.init init_newcomer) hc)⟩

/-- The peer's `nocrypto` comes while `deriveSAS` is awaited. -/
theorem not_modeAgrees : ¬ ∀ c, Reachable (system sampleCrypto) Always c →
    ModeAgrees sampleCrypto c := by
  intro h
  obtain ⟨c, hc, hstate, hmode⟩ : ∃ c ∈ (system sampleCrypto).exec Always newcomer
      (handshake ++
        [.message 2 (some { t := .nocrypto }) true, .resume 0 (samplePair 7) true]),
      c.state = .established ∧ c.media.cleartextMode = true := by decide +kernel
  have hclear := ((h c (.exec (.init init_newcomer) hc)).1 hstate).1
  exact absurd (hmode.symm.trans hclear) nofun

end Samples

end Sozvon.E2EE
