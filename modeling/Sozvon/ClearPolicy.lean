import Sozvon.Encryption

/-!
# When a call may go on in clear

Where encryption is required, or the room was encrypted and the user has not
agreed to go on without, the controller must not be `unencrypted`. Every event
that reaches `downgrade` decides this afresh. `setRequire` counts on
`recompute` for it, which does not get that far when the session with the peer
has a key pair already, or when the socket is closed.
-/
namespace Sozvon.E2EE
open Runs Controller

variable {Id : Type}

def ClearPolicy (c : Controller Id) : Prop :=
  c.require = true ∨ c.wasEncrypted = true ∧ c.clearAgreed = false → c.state ≠ .unencrypted

/-- What the policy is about: whether going on in clear is refused, and the state. -/
def Controller.standing (c : Controller Id) : Bool × CallState := (c.refusesClear, c.state)

theorem clearPolicy_iff (c : Controller Id) :
    ClearPolicy c ↔ c.standing ≠ (true, .unencrypted) := by
  unfold ClearPolicy Controller.standing refusesClear
  simp only [ne_eq, Prod.mk.injEq, not_and, Bool.or_eq_true, Bool.and_eq_true, Bool.not_eq_true']

theorem ClearPolicy.of_standing {c d : Controller Id} (h : ClearPolicy c)
    (hd : d.standing = c.standing) : ClearPolicy d := by
  rw [clearPolicy_iff] at h ⊢
  rwa [hd]

theorem ClearPolicy.of_state {c : Controller Id} (h : c.state ≠ .unencrypted) : ClearPolicy c :=
  fun _ => h

section Standing

variable (c : Controller Id)

@[simp] theorem standing_post (m : Post Id) : (c.post m).standing = c.standing := rfl

@[simp] theorem standing_ensureWorker : c.ensureWorker.standing = c.standing := rfl

@[simp] theorem standing_suspend (call : Suspended Id) :
    (c.suspend call).standing = c.standing := rfl

@[simp] theorem standing_resetPeer : c.resetPeer.standing = c.standing := rfl

@[simp] theorem standing_setWorkerMode (cleartext : Bool) :
    (c.setWorkerMode cleartext).standing = c.standing := rfl

variable {c} in
theorem standing_of_send {d : Controller Id} {payload : Payload} {up returned : Bool}
    (h : c.send payload up = (d, returned)) : d.standing = c.standing := by
  obtain ⟨⟨sent, rfl⟩, -⟩ := send_eq h
  rfl

@[simp] theorem standing_send (payload : Payload) (up : Bool) :
    (c.send payload up).1.standing = c.standing :=
  standing_of_send rfl

@[simp] theorem standing_finalize : c.finalize.standing = c.standing := by
  unfold finalize
  split <;> simp

end Standing

theorem clearPolicy_downgrade (c : Controller Id) (reason : Detail) :
    ClearPolicy (c.downgrade reason) := by
  rw [clearPolicy_iff]
  unfold downgrade
  split
  · simp [Controller.standing, setState]
  · rename_i h
    have hr : (c.setWorkerMode true).refusesClear = c.refusesClear :=
      congrArg Prod.fst (standing_setWorkerMode c true)
    intro hbad
    exact h (hr ▸ congrArg Prod.fst hbad)

theorem ClearPolicy.fail (c : Controller Id) (detail : Detail) : ClearPolicy (c.fail detail) :=
  .of_state (by simp [Controller.fail, setState])

section Handlers

variable {c : Controller Id} (h : ClearPolicy c)
include h

theorem ClearPolicy.continueInClear : ClearPolicy c.continueInClear := by
  unfold Controller.continueInClear
  split
  · rename_i hc
    rw [clearPolicy_iff]
    simp only [awaitsClearConsent, Bool.and_eq_true, Bool.not_eq_true'] at hc
    have hr : ({ c with clearAgreed := true }.setWorkerMode true).refusesClear = false :=
      (congrArg Prod.fst (standing_setWorkerMode _ true)).trans (by
        simp [Controller.standing, refusesClear, hc])
    intro hbad
    exact Bool.false_ne_true (hr.symm.trans (congrArg Prod.fst hbad))
  · exact h

theorem ClearPolicy.attachSender (ok up : Bool) : ClearPolicy (c.attachSender ok up) := by
  unfold Controller.attachSender
  split
  · exact h
  · split
    · exact h.of_standing rfl
    · exact clearPolicy_downgrade _ _

theorem ClearPolicy.attachReceiver : ClearPolicy c.attachReceiver := by
  unfold Controller.attachReceiver
  split
  · exact h.of_standing rfl
  · exact h

theorem ClearPolicy.slow (gen : ℕ) : ClearPolicy (c.slow gen) := by
  unfold Controller.slow
  dsimp only
  split
  · exact .of_state (by simp [setState])
  · exact h.of_standing rfl

theorem ClearPolicy.answer (payload : Payload) (up : Bool) :
    ClearPolicy (c.answer payload up) := by
  unfold Controller.answer
  split
  · exact h
  split
  · exact h
  split
  · exact .fail _ _
  split
  · split
    · exact h.of_standing (standing_send ..)
    · exact h
  · split
    · split
      · exact h
      · split
        · split
          · exact h
          · exact .fail _ _
        · exact h.of_standing (standing_send ..)
    · exact h
  · split
    · exact h
    · split
      · split
        · exact h
        · exact .fail _ _
      · split
        · split
          · rename_i hsend
            have hs := standing_of_send hsend
            exact h.of_standing hs
          · rename_i hsend
            have hs := standing_of_send hsend
            exact h.of_standing ((standing_finalize _).trans hs)
        · split
          · exact h
          · exact h.of_standing rfl
  · exact h
  · exact h

theorem ClearPolicy.hashed (C : Crypto Id) (pub : Bytes) : ClearPolicy (c.hashed C pub) := by
  unfold Controller.hashed
  split
  · exact h
  · split
    · exact .fail _ _
    · split
      · exact h
      · exact h.of_standing (standing_finalize _)

theorem ClearPolicy.finalizing (C : Crypto Id) (s : Session Id) (await : Await Id) :
    ClearPolicy (c.finalizing C s await) := by
  unfold Controller.finalizing
  split
  · exact h
  cases await with
  | agree => exact h.of_standing rfl
  | transcript secret => exact h.of_standing rfl
  | media secret salt streamId rest =>
      cases rest <;> exact h.of_standing rfl
  | chat secret salt =>
      apply h.of_standing
      simp only [standing_suspend, standing_setWorkerMode]
      rfl
  | sas secret salt => exact .of_state (by simp [setState])

end Handlers

variable [LinearOrder Id]

theorem standing_of_started {C : Crypto Id} {c d : Controller Id} {peer : Id} {gen : ℕ}
    {kp : KeyPair} {up returned : Bool} (h : c.started C peer gen kp up = (d, returned)) :
    d.standing = c.standing := by
  unfold started at h
  split at h
  · cases h
    rfl
  · dsimp only at h
    split at h
    · rename_i hsend
      have hs := standing_of_send hsend
      cases h
      exact hs
    · rename_i hsend
      have hs := standing_of_send hsend
      split at h
      · exact (standing_of_send h).trans hs
      · cases h
        exact hs

/-- `recompute` returns or throws before it has set a state. -/
def Controller.overlooks (c : Controller Id) (up : Bool) : Bool :=
  match c.users with
  | [peer] => if c.canEncrypt then c.underway peer else !up
  | _ => false

theorem standing_startWith {c : Controller Id} {peer : Id} {waiting : Option Payload}
    (h : !c.supported || c.underway peer) :
    (c.startWith peer waiting).standing = c.standing := by
  unfold startWith
  rw [if_pos h]
  cases waiting <;> rfl

theorem clearPolicy_startWith {c : Controller Id} {peer : Id} {waiting : Option Payload}
    (h : (!c.supported || c.underway peer) = false) : ClearPolicy (c.startWith peer waiting) := by
  unfold startWith
  rw [if_neg (by simp [h])]
  exact .of_state (by simp [suspend, setWorkerMode, renew, ensureWorker, setState])

theorem ClearPolicy.startWith {c : Controller Id} (h : ClearPolicy c) (peer : Id)
    (waiting : Option Payload) : ClearPolicy (c.startWith peer waiting) := by
  cases hb : (!c.supported || c.underway peer) with
  | true => exact h.of_standing (standing_startWith hb)
  | false => exact clearPolicy_startWith hb

/-- Unless it overlooks the state, `recompute` leaves one that the policy allows. -/
theorem clearPolicy_recompute {c : Controller Id} {up : Bool} (h : c.overlooks up = false) :
    ClearPolicy (c.recompute up) := by
  unfold overlooks at h
  unfold recompute
  split
  · dsimp only
    split
    · exact clearPolicy_downgrade _ _
    · exact .of_state (by simp [setState])
  · rename_i peer hu
    rw [hu] at h
    dsimp only at h
    split
    · rename_i hc
      rw [if_neg (by simpa using hc)] at h
      rw [Bool.not_eq_false'] at h
      subst h
      exact clearPolicy_downgrade _ _
    · rename_i hc
      rw [if_pos (by simpa using hc)] at h
      apply clearPolicy_startWith
      have hs : c.supported = true := by
        simp only [canEncrypt, Bool.not_eq_true, Bool.not_eq_false', Bool.and_eq_true] at hc
        exact hc.1
      simp [h, hs]
  · exact clearPolicy_downgrade _ _

theorem standing_recompute {c : Controller Id} {up : Bool} (h : c.overlooks up = true) :
    (c.recompute up).standing = c.standing := by
  unfold overlooks at h
  unfold recompute
  split at h
  · rename_i peer hu
    simp only [hu]
    split at h
    · rename_i hc
      rw [if_neg (by simp [hc])]
      exact standing_startWith (by simp [h])
    · rename_i hc
      rw [if_pos (by simpa using hc)]
      rw [Bool.not_eq_true'] at h
      subst h
      rfl
  · exact absurd h (by decide)

theorem ClearPolicy.recompute {c : Controller Id} (h : ClearPolicy c) (up : Bool) :
    ClearPolicy (c.recompute up) := by
  cases ho : c.overlooks up with
  | false => exact clearPolicy_recompute ho
  | true => exact h.of_standing (standing_recompute ho)

section Handlers

variable {c : Controller Id} (h : ClearPolicy c)
include h

theorem ClearPolicy.addUser (id : Id) (up : Bool) : ClearPolicy (c.addUser id up) := by
  unfold Controller.addUser
  split
  · exact h
  · apply ClearPolicy.recompute
    exact h.of_standing rfl

theorem ClearPolicy.delUser (id : Id) (up : Bool) : ClearPolicy (c.delUser id up) := by
  unfold Controller.delUser
  dsimp only
  split
  · apply ClearPolicy.recompute
    exact h.of_standing rfl
  · apply ClearPolicy.recompute
    exact h.of_standing rfl

theorem ClearPolicy.onMessage (sender : Id) (payload : Option Payload) (up : Bool) :
    ClearPolicy (c.onMessage sender payload up) := by
  unfold Controller.onMessage
  split
  · exact h
  · split
    · exact h
    split
    · split
      · rename_i hsend
        have hs := standing_of_send hsend
        exact h.of_standing hs
      · exact clearPolicy_downgrade _ _
    · split
      · exact clearPolicy_downgrade _ _
      · split
        · exact h.startWith _ _
        · exact h.answer _ _

theorem ClearPolicy.resume (C : Crypto Id) (kp : KeyPair) (up : Bool) (call : Suspended Id) :
    ClearPolicy (c.resume C kp up call) := by
  cases call with
  | starting peer gen waiting =>
      simp only [Controller.resume]
      split
      · rename_i hstart
        exact h.of_standing (standing_of_started hstart)
      · rename_i hstart
        have hs := standing_of_started hstart
        cases waiting with
        | none => exact h.of_standing hs
        | some payload => exact h.of_standing hs
  | resuming payload => exact h.answer payload up
  | hashing pub => exact h.hashed C pub
  | finalizing s await => exact h.finalizing C s await

end Handlers

/-- `setRequire` turns the requirement on in an unencrypted call whose state
`recompute` overlooks. -/
def Controller.misses (c : Controller Id) : Label Id → Bool
  | .setRequire true up => c.state = .unencrypted && c.overlooks up
  | _ => false

def Rechecked (c : Controller Id) (a : Label Id) : Prop := c.misses a = false

instance (c : Controller Id) (a : Label Id) : Decidable (Rechecked c a) :=
  inferInstanceAs (Decidable (c.misses a = false))

theorem clearPolicy_setRequire {c : Controller Id} (h : ClearPolicy c) (require up : Bool) :
    ClearPolicy (c.setRequire require up) ↔ Rechecked c (.setRequire require up) := by
  have ho : { c with require := require }.overlooks up = c.overlooks up := rfl
  cases require with
  | false =>
      refine iff_of_true (ClearPolicy.recompute ?_ up) rfl
      intro hr
      exact h (.inr (hr.resolve_left (by simp)))
  | true =>
      cases hover : c.overlooks up with
      | false =>
          exact iff_of_true (clearPolicy_recompute (ho.trans hover))
            (by simp [Rechecked, misses, hover])
      | true =>
          have hs : (c.setRequire true up).standing = (true, c.state) := by
            unfold setRequire
            rw [standing_recompute (ho.trans hover)]
            simp [Controller.standing, refusesClear]
          rw [clearPolicy_iff, hs]
          simp [Rechecked, misses, hover]

/-- A step keeps to the policy exactly if it is not such a `setRequire`. -/
theorem clearPolicy_step_iff {C : Crypto Id} {c d : Controller Id} {a : Label Id}
    (h : ClearPolicy c) (hd : step C c a = some d) : ClearPolicy d ↔ Rechecked c a := by
  cases a with
  | setRequire require up =>
      cases hd
      exact clearPolicy_setRequire h require up
  | addUser id up =>
      cases hd
      exact iff_of_true (h.addUser id up) rfl
  | delUser id up =>
      cases hd
      exact iff_of_true (h.delUser id up) rfl
  | message sender payload up =>
      cases hd
      exact iff_of_true (h.onMessage sender payload up) rfl
  | continueInClear =>
      cases hd
      exact iff_of_true h.continueInClear rfl
  | attachSender ok up =>
      cases hd
      exact iff_of_true (h.attachSender ok up) rfl
  | attachReceiver =>
      cases hd
      exact iff_of_true h.attachReceiver rfl
  | timeout =>
      obtain ⟨gen, -, rfl⟩ := Option.map_eq_some_iff.mp hd
      exact iff_of_true (h.slow gen) rfl
  | resume i kp up =>
      obtain ⟨call, -, rfl⟩ := Option.map_eq_some_iff.mp hd
      have hrest : ClearPolicy { c with calls := c.calls.eraseIdx i } := h.of_standing rfl
      exact iff_of_true (hrest.resume C kp up call) rfl
  | reject i =>
      obtain ⟨call, -, rfl⟩ := Option.map_eq_some_iff.mp hd
      exact iff_of_true (h.of_standing rfl) rfl

/-- In every run in which no requirement is turned on unnoticed, the controller
is never `unencrypted` against the policy. -/
theorem clearPolicy_of_rechecked {C : Crypto Id} {c : Controller Id}
    (hc : Reachable (system C) Rechecked c) : ClearPolicy c := by
  refine Reachable.invariant (P := ClearPolicy) ?_ ?_ hc
  · rintro _ ⟨id, supported, wasEncrypted, rfl⟩
    exact .of_state (by simp)
  · intro c a d h hok hd
    exact (clearPolicy_step_iff h hd).mpr hok

section Samples

/-- The requirement comes while a third participant is there. -/
theorem clearPolicy_required : ∃ c, (system sampleCrypto).exec Rechecked newcomer
    [.addUser 2 true, .resume 0 (samplePair 7) true, .addUser 3 true, .setRequire true true] =
      some c ∧ c.require = true ∧ ClearPolicy c := by
  obtain ⟨c, hc, hrequire⟩ : ∃ c ∈ (system sampleCrypto).exec Rechecked newcomer
      [.addUser 2 true, .resume 0 (samplePair 7) true, .addUser 3 true, .setRequire true true],
      c.require = true := by decide +kernel
  exact ⟨c, hc, hrequire, clearPolicy_of_rechecked (.exec (.init init_newcomer) hc)⟩

/-- The peer cannot encrypt, and the room then comes to require encryption: the
key pair generated for that peer makes `startWith` return at once. -/
theorem not_clearPolicy :
    ¬ ∀ c, Reachable (system sampleCrypto) Always c → ClearPolicy c := by
  intro h
  obtain ⟨c, hc, hrequire, hstate⟩ : ∃ c ∈ (system sampleCrypto).exec Always newcomer
      [.addUser 2 true, .resume 0 (samplePair 7) true,
        .message 2 (some { t := .nocrypto }) true, .setRequire true true],
      c.require = true ∧ c.state = .unencrypted := by decide +kernel
  exact h c (.exec (.init init_newcomer) hc) (.inl hrequire) hstate

end Samples

end Sozvon.E2EE
