import Sozvon.ControllerTurns

/-!
# A track that goes out in clear

Once an encryptor could not be attached, its track would leave the browser in
clear, and `attachSender` takes the padlock down for good. A handshake that
completes afterwards puts it back: `finalize` does not look at
`transformFailed`, and neither do the handlers that come to it.
-/
namespace Sozvon.E2EE
open Runs Controller

section Definitions

variable {Id : Type}

def Suspended.finalizes (gen : ℕ) : Suspended Id → Bool
  | .finalizing s _ => s.gen = gen
  | _ => false

/-- A run of `finalize` of the present session is suspended. -/
def Controller.finalizes (c : Controller Id) : Bool :=
  c.calls.any fun call => call.finalizes c.generation

/-- The encryptor fails in the middle of `finalize`, or has failed and the peer's
key is taken all the same. -/
def Controller.forgets (C : Crypto Id) (c : Controller Id) (up : Bool) : News Id → Bool
  | .nothing | .paired | .run _ _ => false
  | .unattached => c.finalizes
  | .key _ =>
      c.transformFailed && up && c.role = some .responder && c.peerPub.isNone &&
        c.myCommit.isSome && c.state ≠ .established && c.state ≠ .failed
  | .hashed pub =>
      c.transformFailed && c.peerCommit = some (C.commit pub) && c.peerPub.isNone &&
        c.state = .handshaking

def Heeded [LinearOrder Id] (C : Crypto Id) (c : Controller Id) (a : Label Id) : Prop :=
  c.forgets C a.up (c.news a) = false

instance [LinearOrder Id] (C : Crypto Id) (c : Controller Id) (a : Label Id) :
    Decidable (Heeded C c a) :=
  inferInstanceAs (Decidable (c.forgets C a.up (c.news a) = false))

/-- No padlock after a failure. -/
def TakenDown (c : Controller Id) : Prop := c.transformFailed = true → c.state ≠ .established

/-- Nor is one on its way. -/
structure Down (c : Controller Id) : Prop where
  state : c.state ≠ .established
  calls : ∀ s await, Suspended.finalizing s await ∈ c.calls → s.gen ≠ c.generation

end Definitions

section Steps

variable {Id : Type} {C : Crypto Id} {c d : Controller Id}

theorem down_of_not_finalizes (hstate : c.state ≠ .established) (h : c.finalizes = false) :
    Down c where
  state := hstate
  calls s await hmem hgen := by
    have hnone := List.any_eq_false.mp h _ hmem
    simp [Suspended.finalizes, hgen] at hnone

/-- The session stays and no run of `finalize` begins. -/
theorem Down.of_suspends (h : Down c) {left : List (Suspended Id)} {kind : Suspended Id → Prop}
    (hleft : ∀ call ∈ left, call ∈ c.calls)
    (hstate : d.state = c.state ∨ d.state ≠ .established) (hgen : d.generation = c.generation)
    (hcalls : Suspends left d kind) (hkind : ∀ s await, ¬ kind (.finalizing s await)) : Down d where
  state := by
    rcases hstate with hsame | hnew
    · rw [hsame]
      exact h.state
    · exact hnew
  calls s await hmem := by
    rw [hgen]
    rcases hcalls.mem hmem with hold | hnew
    · exact h.calls s await (hleft _ hold)
    · exact absurd hnew (hkind s await)

/-- A new session, in which no run of `finalize` has begun. -/
theorem down_of_renewed [LinearOrder Id] (h : Core C False c.view)
    {left : List (Suspended Id)} {kind : Suspended Id → Prop}
    (hleft : ∀ call ∈ left, call ∈ c.calls)
    (hstate : d.state ≠ .established) (hgen : c.generation < d.generation)
    (hcalls : Suspends left d kind) (hkind : ∀ s await, ¬ kind (.finalizing s await)) : Down d where
  state := hstate
  calls s await hmem hs := by
    rcases hcalls.mem hmem with hold | hnew
    · have hle : s.gen ≤ c.generation := h.bound _ (hleft _ hold) s.gen rfl
      exact absurd (hs ▸ hle) (Nat.not_le_of_lt hgen)
    · exact hkind s await hnew


theorem down_step [LinearOrder Id] (h : Inv C False c.view) (hdown : c.transformFailed = true → Down c)
    {a : Label Id} (hok : Heeded C c a) (hd : step C c a = some d)
    (hfailed : d.transformFailed = true) : Down d := by
  unfold Heeded at hok
  have hleft : ∀ call ∈ c.left a, call ∈ c.calls := fun _ => mem_of_mem_left
  cases step_turn h.placed hd with
  | kept peer state hand seat hstate sends calls =>
      have hc : Down c := hdown ((congrArg Hand.transformFailed hand).symm.trans hfailed)
      have hshown : d.state = state := congrArg Hand.state hand
      exact hc.of_suspends hleft (hshown ▸ hstate) (congrArg Hand.generation hand) calls fun _ _ => id
  | detached state hand cause hstate sends calls =>
      have hshown : d.state = state := congrArg Hand.state hand
      have hgen : d.generation = c.generation := congrArg Hand.generation hand
      rw [cause] at hok
      have hc : Down { c with state := state } := down_of_not_finalizes hstate hok
      exact hc.of_suspends hleft (.inl hshown) hgen calls fun _ _ => id
  | renewed hand sends calls =>
      exact down_of_renewed h.core hleft hand.state hand.generation calls fun _ _ => id
  | failed hand sends calls =>
      have hshown : d.state = .failed := congrArg Hand.state hand
      have hgen : d.generation = c.generation + 1 := congrArg Hand.generation hand
      refine down_of_renewed h.core hleft ?_ ?_ calls fun _ _ => id
      · rw [hshown]
        exact nofun
      · rw [hgen]
        exact Nat.lt_succ_self _
  | started peer kp hand cause current seat sends answer calls =>
      have hc : Down c := hdown ((congrArg Hand.transformFailed hand).symm.trans hfailed)
      exact hc.of_suspends hleft (.inl (congrArg Hand.state hand)) (congrArg Hand.generation hand) calls
        fun _ _ => id
  | committed commit hand role fresh mine state sends calls =>
      have hc : Down c := hdown ((congrArg Hand.transformFailed hand).symm.trans hfailed)
      exact hc.of_suspends hleft (.inl (congrArg Hand.state hand)) (congrArg Hand.generation hand) calls
        fun _ _ => id
  | accepted pub hand key role fresh mine state sends calls =>
      have hf : c.transformFailed = true := (congrArg Hand.transformFailed hand).symm.trans hfailed
      have hc : Down c := hdown hf
      rw [key] at hok
      refine hc.of_suspends hleft (.inl (congrArg Hand.state hand)) (congrArg Hand.generation hand) calls ?_
      rintro s await ⟨hup, -⟩
      simp_all [forgets]
  | verified pub hand key fixed fresh state sends calls =>
      have hf : c.transformFailed = true := (congrArg Hand.transformFailed hand).symm.trans hfailed
      rw [key] at hok
      simp_all [forgets]
  | progressed s await hand cause current gen sends calls =>
      have hf : c.transformFailed = true := (congrArg Hand.transformFailed hand).symm.trans hfailed
      exact absurd gen ((hdown hf).calls s await current)
  | finished s secret salt hand cause current gen sends calls =>
      have hf : c.transformFailed = true := (congrArg Hand.transformFailed hand).symm.trans hfailed
      exact absurd gen ((hdown hf).calls s _ current)

/-- As long as a failure is heeded, no padlock comes back. -/
theorem takenDown_of_heeded [LinearOrder Id] (hc : Reachable (system C) (Heeded C) c) :
    TakenDown c := by
  have hdown : c.transformFailed = true → Down c := by
    refine invariant_of_turns (P := fun c => c.transformFailed = true → Down c) ?_ ?_ hc
    · rintro _ ⟨id, supported, wasEncrypted, rfl⟩
      exact nofun
    · intro c a d h hdown hok hd
      exact down_step h hdown hok hd
  exact fun hfailed => (hdown hfailed).state

end Steps

section Samples

/-- The peer's hello comes after the failure, and starts a handshake. -/
theorem takenDown_hello : ∃ c, (system sampleCrypto).exec (Heeded sampleCrypto) newcomer
    [.attachSender false true, .addUser 2 true,
      .message 2 (some { t := .hello, v := some 2 }) true, .resume 0 (samplePair 7) true] =
      some c ∧ c.transformFailed = true ∧ TakenDown c := by
  obtain ⟨c, hc, hfailed⟩ : ∃ c ∈ (system sampleCrypto).exec (Heeded sampleCrypto) newcomer
      [.attachSender false true, .addUser 2 true,
        .message 2 (some { t := .hello, v := some 2 }) true, .resume 0 (samplePair 7) true],
      c.transformFailed = true := by decide +kernel
  exact ⟨c, hc, hfailed, takenDown_of_heeded (.exec (.init init_newcomer) hc)⟩

/-- The encryptor fails while `deriveSAS` is awaited. -/
theorem not_takenDown :
    ¬ ∀ c, Reachable (system sampleCrypto) Always c → TakenDown c := by
  intro h
  obtain ⟨c, hc, hfailed, hstate⟩ : ∃ c ∈ (system sampleCrypto).exec Always newcomer
      (handshake ++ [.attachSender false true, .resume 0 (samplePair 7) true]),
      c.transformFailed = true ∧ c.state = .established := by decide +kernel
  exact h c (.exec (.init init_newcomer) hc) hfailed hstate

end Samples

end Sozvon.E2EE
