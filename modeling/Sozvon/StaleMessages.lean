import Sozvon.ControllerTurns
import Mathlib.Data.List.Forall2

/-!
# Messages of a session that is over

`startWith` and `finalize` look at the generation after each `await`.
`onMessage` does not: whatever it does after its own awaits, it does to the
session that it then finds.

A `Ledger` keeps for every suspended call the session in which its message was
received. A message that itself starts a session belongs to that one.
-/
namespace Sozvon.E2EE
open Runs Controller

section Definitions

variable {Id : Type}

/-- The calls that are suspended are all that can have changed. -/
def Unaffected (c d : Controller Id) : Prop := d = { c with calls := d.calls }

structure Ledger (Id : Type) where
  controller : Controller Id
  /-- The session of each of the suspended calls. -/
  received : List ℕ := []
  /-- No call has had an effect after the end of its session. -/
  intact : Prop := True

namespace Ledger

variable (w : Ledger Id)

def stale : Label Id → Bool
  | .resume i _ _ => w.received[i]?.any fun session => session ≠ w.controller.resets
  | _ => false

def left : Label Id → List ℕ
  | .resume i _ _ | .reject i => w.received.eraseIdx i
  | _ => w.received

/-- The session of what a step suspends: a call that goes on stays in its own. -/
def sessionOf (a : Label Id) (d : Controller Id) : ℕ :=
  match a with
  | .resume i _ _ =>
      if d.resets = w.controller.resets then w.received.getD i 0 else d.resets
  | _ => d.resets

def file (a : Label Id) (d : Controller Id) : Ledger Id where
  controller := d
  received :=
    w.left a ++ List.replicate (d.calls.length - (w.left a).length) (w.sessionOf a d)
  intact := w.intact ∧ (w.stale a = true → Unaffected w.controller d)

end Ledger

/-- The rest of `onMessage` finds nothing to do. -/
def Controller.ignores (c : Controller Id) (payload : Payload) (up : Bool) : Bool :=
  c.state = .established || c.state = .failed || c.myCommit.isNone ||
    payload.v = some PROTOCOL_VERSION && match payload.t with
      | .hello => c.role ≠ some .responder || c.peer.isNone || !up
      | .commit =>
          c.role ≠ some .initiator || payload.commit.isNone || c.peerCommit = payload.commit
      | .dh =>
          payload.pub.isNone || c.peerPub = payload.pub ||
            (c.peerPub.isNone && c.role ≠ some .responder)
      | .nocrypto | .other => true

/-- Nor does it once the key is hashed. -/
def Controller.ignoresHash (C : Crypto Id) (c : Controller Id) (pub : Bytes) : Bool :=
  c.peerCommit.isNone ||
    c.peerCommit = some (C.commit pub) && (c.peerPub.isSome || c.state ≠ .handshaking)

def Controller.passes (C : Crypto Id) (c : Controller Id) : Label Id → Bool
  | .resume i _ up => match c.calls[i]? with
    | some (.resuming payload) => c.ignores payload up
    | some (.hashing pub) => c.ignoresHash C pub
    | _ => true
  | _ => true

/-- Messages whose session is over are met by a session that ignores them. -/
def Ignored (C : Crypto Id) (w : Ledger Id) (a : Label Id) : Prop :=
  (!w.stale a || w.controller.passes C a) = true

instance (C : Crypto Id) (w : Ledger Id) (a : Label Id) : Decidable (Ignored C w a) :=
  inferInstanceAs (Decidable ((!w.stale a || w.controller.passes C a) = true))

end Definitions

def ledger {Id : Type} [LinearOrder Id] (C : Crypto Id) : System (Ledger Id) (Label Id) where
  init w := ∃ c, (system C).init c ∧ w = { controller := c }
  step w a := (step C w.controller a).map (w.file a)

section Effects

variable {Id : Type} {C : Crypto Id} {c d : Controller Id}

theorem unaffected_refl (c : Controller Id) : Unaffected c c := rfl

theorem unaffected_suspend (c : Controller Id) (call : Suspended Id) :
    Unaffected c (c.suspend call) := rfl

theorem Unaffected.hand (h : Unaffected c d) : d.hand = c.hand := by
  rw [h]
  rfl

theorem Unaffected.sent (h : Unaffected c d) : d.sent = c.sent := by rw [h]

theorem not_unaffected_fail (c : Controller Id) (detail : Detail) :
    ¬ Unaffected c (c.fail detail) := fun h =>
  absurd (congrArg Hand.generation h.hand) (Nat.succ_ne_self _)

theorem not_unaffected_of_hand {hand : Hand Id} (h : d.hand = hand) (hne : hand ≠ c.hand) :
    ¬ Unaffected c d := fun hd => hne (h.symm.trans hd.hand)

/-- A message goes out if there is a peer and the socket is open. -/
theorem unaffected_send_iff (payload : Payload) (up : Bool) :
    Unaffected c (c.send payload up).1 ↔ (c.peer.isNone || !up) = true := by
  cases hpeer : c.peer with
  | none =>
      refine iff_of_true ?_ rfl
      simp [send, hpeer, unaffected_refl]
  | some p =>
      rcases hsend : c.send payload up with ⟨e, returned⟩
      have hsent := (sent_of_send hpeer hsend).1
      cases up with
      | false =>
          refine iff_of_true ?_ rfl
          obtain ⟨⟨sent, rfl⟩, -⟩ := send_eq hsend
          have hsame : sent = c.sent := by simpa using hsent
          rw [hsame]
          exact unaffected_refl c
      | true =>
          refine iff_of_false (fun h => ?_) nofun
          rw [h.sent] at hsent
          simp at hsent

/-- The peer's key is taken, whether ours then goes out or not. -/
theorem not_unaffected_accepted {pub : Bytes} (hfresh : c.peerPub = none)
    (hhand : d.hand = c.hand.accepted pub) : ¬ Unaffected c d := by
  apply not_unaffected_of_hand hhand
  intro h
  have hpub : some pub = c.peerPub := congrArg Hand.peerPub h
  rw [hfresh] at hpub
  cases hpub

theorem unaffected_hashed_iff (pub : Bytes) :
    Unaffected c (c.hashed C pub) ↔ c.ignoresHash C pub = true := by
  unfold hashed ignoresHash
  split
  · rename_i hnone
    exact iff_of_true (unaffected_refl c) (by simp [hnone])
  · rename_i commit hfixed
    split
    · rename_i hcommit
      have hne : ¬ commit = C.commit pub := fun h => hcommit h.symm
      exact iff_of_false (not_unaffected_fail c _) (by simp [hfixed, hne])
    · rename_i hcommit
      rw [not_not] at hcommit
      split
      · rename_i hknown
        exact iff_of_true (unaffected_refl c) (by simpa [hfixed, hcommit] using hknown)
      · rename_i hnew
        rw [not_or, Option.not_isSome_iff_eq_none, not_not] at hnew
        have hhand := (finalize_spec { c with peerPub := some pub }).1
        exact iff_of_false (not_unaffected_accepted hnew.1 hhand) (by simp [hfixed, hcommit, hnew])

/-- The rest of `onMessage` changes something exactly if it does not ignore the message. -/
theorem unaffected_answer_iff (payload : Payload) (up : Bool) :
    Unaffected c (c.answer payload up) ↔ c.ignores payload up = true := by
  unfold answer ignores
  split
  · rename_i hstate
    refine iff_of_true (unaffected_refl c) ?_
    rcases hstate with hstate | hstate <;> simp [hstate]
  rename_i hstate
  rw [not_or] at hstate
  split
  · rename_i hnone
    exact iff_of_true (unaffected_refl c) (by simp [hnone])
  rename_i hmine
  split
  · rename_i hversion
    exact iff_of_false (not_unaffected_fail c _) (by simp [hstate, hmine, hversion])
  rename_i hversion
  rw [not_not] at hversion
  cases payload.t with
  | hello =>
      dsimp only
      split
      · rename_i hrole
        rw [unaffected_send_iff]
        simp [hstate, hmine, hversion, hrole]
      · rename_i hrole
        exact iff_of_true (unaffected_refl c) (by simp [hversion, hrole])
  | commit =>
      dsimp only
      split
      · rename_i hrole
        split
        · rename_i hnone
          exact iff_of_true (unaffected_refl c) (by simp [hversion, hnone])
        · rename_i commit hcommit
          split
          · rename_i known hknown
            split
            · rename_i hsame
              exact iff_of_true (unaffected_refl c) (by simp [hversion, hcommit, hknown, hsame])
            · rename_i hother
              have hne : ¬ known = commit := fun h => hother h.symm
              exact iff_of_false (not_unaffected_fail c _)
                (by simp [hstate, hmine, hversion, hrole, hcommit, hknown, hne])
          · rename_i hfresh
            have hhand := hand_of_send (show ({ c with peerCommit := some commit }.send
              { t := .dh, pub := c.myPub } up) = (_, _) from rfl)
            refine iff_of_false (not_unaffected_of_hand hhand fun h => ?_)
              (by simp [hstate, hmine, hversion, hrole, hcommit, hfresh])
            have hpeer : some commit = c.peerCommit := congrArg Hand.peerCommit h
            rw [hfresh] at hpeer
            cases hpeer
      · rename_i hrole
        exact iff_of_true (unaffected_refl c) (by simp [hversion, hrole])
  | dh =>
      dsimp only
      split
      · rename_i hnone
        exact iff_of_true (unaffected_refl c) (by simp [hversion, hnone])
      · rename_i pub hpub
        split
        · rename_i known hknown
          split
          · rename_i hsame
            exact iff_of_true (unaffected_refl c) (by simp [hversion, hpub, hknown, hsame])
          · rename_i hother
            have hne : ¬ known = pub := fun h => hother h.symm
            exact iff_of_false (not_unaffected_fail c _)
              (by simp [hstate, hmine, hversion, hpub, hknown, hne])
        · rename_i hfresh
          split
          · rename_i hrole
            refine iff_of_false ?_ (by simp [hstate, hmine, hversion, hpub, hfresh, hrole])
            split
            · rename_i hsend
              have hhand := hand_of_send hsend
              exact not_unaffected_accepted hfresh hhand
            · rename_i e hsend
              have hhand := (finalize_spec e).1.trans (hand_of_send hsend)
              exact not_unaffected_accepted hfresh hhand
          · rename_i hrole
            refine iff_of_true ?_ (by simp [hversion, hpub, hfresh, hrole])
            split
            · exact unaffected_refl c
            · exact unaffected_suspend c _
  | nocrypto | other => exact iff_of_true (unaffected_refl c) (by simp [hversion])

end Effects

section Runs

variable {Id : Type} {C : Crypto Id} {w : Ledger Id} {d : Controller Id} {a : Label Id}

/-- What belongs to the present generation belongs to the present session. -/
def Fits (c : Controller Id) (call : Suspended Id) (session : ℕ) : Prop :=
  call.gen? = some c.generation → session = c.resets

def Filed (w : Ledger Id) : Prop :=
  List.Forall₂ (Fits w.controller) w.controller.calls w.received

theorem forall₂_eraseIdx {α β : Type} {R : α → β → Prop} {xs : List α} {ys : List β}
    (h : List.Forall₂ R xs ys) (i : ℕ) : List.Forall₂ R (xs.eraseIdx i) (ys.eraseIdx i) := by
  rw [List.eraseIdx_eq_take_drop_succ, List.eraseIdx_eq_take_drop_succ]
  exact List.rel_append (List.forall₂_take i h) (List.forall₂_drop (i + 1) h)

theorem Filed.left (h : Filed w) (a : Label Id) :
    List.Forall₂ (Fits w.controller) (w.controller.left a) (w.left a) := by
  cases a <;> first | exact h | exact forall₂_eraseIdx h _

/-- What a step suspends is filed with the rest. -/
theorem filed_file {left : List (Suspended Id)} {kind : Suspended Id → Prop}
    (hleft : List.Forall₂ (Fits d) left (w.left a)) (hcalls : Suspends left d kind)
    (hkind : ∀ call, kind call → Fits d call (w.sessionOf a d)) : Filed (w.file a d) := by
  have hlength := hleft.length_eq
  unfold Filed Ledger.file
  dsimp only
  rcases hcalls with hsame | ⟨call, hnew, hcall⟩
  · rw [hsame, hlength, Nat.sub_self]
    simpa using hleft
  · rw [hnew, List.length_append, hlength, List.length_singleton, Nat.add_sub_cancel_left]
    exact List.rel_append hleft (.cons (hkind call hcall) .nil)

/-- The generation and the session stay. -/
theorem Filed.same (h : Filed w) {left : List (Suspended Id)} {kind : Suspended Id → Prop}
    (hleft : left = w.controller.left a) (hgen : d.generation = w.controller.generation)
    (hresets : d.resets = w.controller.resets) (hcalls : Suspends left d kind)
    (hkind : ∀ call, kind call → Fits d call (w.sessionOf a d)) : Filed (w.file a d) := by
  refine filed_file ?_ hcalls hkind
  rw [hleft]
  refine (h.left a).imp fun call session hfits hgen' => ?_
  rw [hresets]
  exact hfits (hgen ▸ hgen')

/-- Nothing that was suspended before is of a new generation. -/
theorem Filed.renewed [LinearOrder Id] (h : Filed w) (hcore : Core C False w.controller.view)
    {kind : Suspended Id → Prop} (hgen : w.controller.generation < d.generation)
    (hcalls : Suspends (w.controller.left a) d kind)
    (hkind : ∀ call, kind call → Fits d call (w.sessionOf a d)) : Filed (w.file a d) := by
  refine filed_file ?_ hcalls hkind
  have hbound : ∀ call ∈ w.controller.left a, ∀ gen ∈ call.gen?, gen ≤ w.controller.generation :=
    fun call hcall => hcore.bound call (mem_of_mem_left hcall)
  refine ((List.forall₂_and_left _ _).mpr ⟨hbound, h.left a⟩).imp fun call session hcall hgen' => ?_
  exact absurd (hcall.1 _ hgen') (Nat.not_le_of_lt hgen)

theorem Filed.get (h : Filed w) {i : ℕ} {call : Suspended Id} {session : ℕ}
    (hcall : w.controller.calls[i]? = some call) (hsession : w.received[i]? = some session) :
    Fits w.controller call session := by
  obtain ⟨hi, rfl⟩ := List.getElem?_eq_some_iff.mp hcall
  obtain ⟨hj, rfl⟩ := List.getElem?_eq_some_iff.mp hsession
  exact List.Forall₂.get h hi hj

/-- A call whose session is over has no effect exactly where its message is ignored. -/
theorem unaffected_iff_ignored [LinearOrder Id] (h : Filed w)
    (hd : E2EE.step C w.controller a = some d) (hstale : w.stale a = true) :
    Unaffected w.controller d ↔ Ignored C w a := by
  cases a with
  | resume i kp up =>
      obtain ⟨session, hsession, hover⟩ := (Option.any_eq_true _ _).mp hstale
      obtain ⟨call, hcall, rfl⟩ := Option.map_eq_some_iff.mp hd
      have hold : call.gen? ≠ some w.controller.generation := fun hgen =>
        (of_decide_eq_true hover) (h.get hcall hsession hgen)
      have hignored : Ignored C w (.resume i kp up) ↔
          w.controller.passes C (.resume i kp up) = true := by
        simp [Ignored, hstale]
      rw [hignored]
      have hrest : Unaffected { w.controller with calls := w.controller.calls.eraseIdx i }
          ({ w.controller with calls := w.controller.calls.eraseIdx i }.resume C kp up call) ↔
            w.controller.passes C (.resume i kp up) = true := by
        cases call with
        | starting peer gen waiting =>
            have hgen : gen ≠ w.controller.generation := fun hgen => hold (congrArg some hgen)
            refine iff_of_true ?_ (by simp [passes, hcall])
            simp only [Controller.resume]
            unfold Controller.started
            rw [if_pos (.inr hgen)]
            cases waiting with
            | none => exact unaffected_refl _
            | some payload => exact unaffected_suspend _ _
        | resuming payload =>
            have hpasses : w.controller.passes C (.resume i kp up) =
                w.controller.ignores payload up := by simp [passes, hcall]
            rw [hpasses]
            exact unaffected_answer_iff payload up
        | hashing pub =>
            have hpasses : w.controller.passes C (.resume i kp up) =
                w.controller.ignoresHash C pub := by simp [passes, hcall]
            rw [hpasses]
            exact unaffected_hashed_iff pub
        | finalizing s await =>
            have hgen : s.gen ≠ w.controller.generation := fun hgen => hold (congrArg some hgen)
            refine iff_of_true ?_ (by simp [passes, hcall])
            simp only [Controller.resume]
            unfold Controller.finalizing
            rw [if_pos hgen]
            exact unaffected_refl _
      exact hrest
  | _ => cases hstale

theorem sessionOf_of_renewed (h : d.resets ≠ w.controller.resets) : w.sessionOf a d = d.resets := by
  cases a <;> simp [Ledger.sessionOf, h]

/-- What is not stale goes on in the present session. -/
theorem sessionOf_of_current [LinearOrder Id] (h : Filed w)
    (hd : E2EE.step C w.controller a = some d) (hsame : d.resets = w.controller.resets)
    (hcurrent : w.stale a = false) : w.sessionOf a d = d.resets := by
  cases a with
  | resume i kp up =>
      obtain ⟨call, hcall, -⟩ := Option.map_eq_some_iff.mp hd
      obtain ⟨hi, -⟩ := List.getElem?_eq_some_iff.mp hcall
      have hj : i < w.received.length := h.length_eq ▸ hi
      have hsession : w.received[i] = w.controller.resets := by
        simpa [Ledger.stale, List.getElem?_eq_getElem hj] using hcurrent
      simp [Ledger.sessionOf, hsame, List.getElem?_eq_getElem hj, hsession]
  | _ => rfl

theorem stale_of_run [DecidableEq Id] (h : Filed w) {s : Session Id} {await : Await Id}
    (hrun : w.controller.news a = .run s await) (hgen : s.gen = w.controller.generation) :
    w.stale a = false := by
  obtain ⟨i, kp, up, rfl, hcall⟩ := call_of_news hrun
  rw [Bool.eq_false_iff]
  intro hstale
  obtain ⟨session, hsession, hover⟩ := (Option.any_eq_true _ _).mp hstale
  exact (of_decide_eq_true hover) (h.get hcall hsession (congrArg some hgen))

theorem fits_of_gen {c : Controller Id} {call : Suspended Id} {session : ℕ}
    (h : call.gen? = none) : Fits c call session := fun hgen => by
  rw [h] at hgen
  cases hgen

theorem filed_step [LinearOrder Id] (hinv : Inv C False w.controller.view) (h : Filed w)
    (hok : Ignored C w a) (hd : E2EE.step C w.controller a = some d) : Filed (w.file a d) := by
  have hfits : d.resets = w.controller.resets → w.stale a = false →
      ∀ call, Fits d call (w.sessionOf a d) :=
    fun hsame hcurrent _ _ => sessionOf_of_current h hd hsame hcurrent
  have htaken : ∀ pub, w.controller.peerPub = none →
      d.hand = w.controller.hand.accepted pub → w.stale a = false := by
    intro pub hfresh hand
    rw [Bool.eq_false_iff]
    exact fun hstale =>
      not_unaffected_accepted hfresh hand ((unaffected_iff_ignored h hd hstale).mpr hok)
  cases step_turn hinv.placed hd with
  | kept peer state hand seat hstate sends calls =>
      refine h.same rfl (congrArg Hand.generation hand) (congrArg Hand.resets hand) calls ?_
      intro call hcall
      apply fits_of_gen
      cases call <;> first | rfl | cases hcall
  | detached state hand cause hstate sends calls =>
      exact h.same rfl (congrArg Hand.generation hand) (congrArg Hand.resets hand) calls
        fun _ => False.elim
  | renewed hand sends calls =>
      refine h.renewed hinv.core hand.generation calls ?_
      intro call hcall _
      exact sessionOf_of_renewed (Nat.ne_of_gt hand.resets)
  | failed hand sends calls =>
      have hgen : d.generation = w.controller.generation + 1 := congrArg Hand.generation hand
      exact h.renewed hinv.core (hgen ▸ Nat.lt_succ_self _) calls fun _ => False.elim
  | started peer kp hand cause current seat sends answer calls =>
      refine h.same rfl (congrArg Hand.generation hand) (congrArg Hand.resets hand) calls ?_
      intro call hcall
      apply fits_of_gen
      cases call <;> first | rfl | cases hcall
  | committed commit hand role fresh mine state sends calls =>
      exact h.same rfl (congrArg Hand.generation hand) (congrArg Hand.resets hand) calls
        fun _ => False.elim
  | accepted pub hand key role fresh mine state sends calls =>
      have hsame : d.resets = w.controller.resets := congrArg Hand.resets hand
      exact h.same rfl (congrArg Hand.generation hand) hsame calls
        fun call _ => hfits hsame (htaken pub fresh hand) call
  | verified pub hand key fixed fresh state sends calls =>
      have hsame : d.resets = w.controller.resets := congrArg Hand.resets hand
      exact h.same rfl (congrArg Hand.generation hand) hsame calls
        fun call _ => hfits hsame (htaken pub fresh hand) call
  | progressed s await hand cause current gen sends calls =>
      have hsame : d.resets = w.controller.resets := congrArg Hand.resets hand
      exact h.same rfl (congrArg Hand.generation hand) hsame calls
        fun call _ => hfits hsame (stale_of_run h cause gen) call
  | finished s secret salt hand cause current gen sends calls =>
      exact h.same rfl (congrArg Hand.generation hand) (congrArg Hand.resets hand) calls
        fun _ => False.elim

/-- Where every message whose session is over is met by a session that ignores it,
none has an effect. -/
theorem intact_of_ignored [LinearOrder Id] (hw : Reachable (ledger C) (Ignored C) w) : w.intact := by
  have hall : Inv C False w.controller.view ∧ Filed w ∧ w.intact := by
    refine Reachable.invariant
      (P := fun w : Ledger Id => Inv C False w.controller.view ∧ Filed w ∧ w.intact) ?_ ?_ hw
    · rintro _ ⟨c, hnew, rfl⟩
      have hinv : Inv C False c.view := inv_init hnew
      obtain ⟨id, supported, wasEncrypted, rfl⟩ := hnew
      exact ⟨hinv, .nil, trivial⟩
    · rintro w a _ ⟨hinv, hfiled, hintact⟩ hok hw
      obtain ⟨d, hd, rfl⟩ := Option.map_eq_some_iff.mp hw
      exact ⟨hinv.step (fun hsafe => hsafe.elim) hd, filed_step hinv hfiled hok hd,
        hintact, fun hstale => (unaffected_iff_ignored hfiled hd hstale).mpr hok⟩
  exact hall.2.2

end Runs

section Samples

def newLedger : Ledger ℕ := { controller := newcomer }

theorem init_newLedger : (ledger sampleCrypto).init newLedger := ⟨newcomer, init_newcomer, rfl⟩

/-- Peer 2 leaves while a key of theirs is hashed, and peer 3 comes. -/
def departure : List (Label ℕ) :=
  let go := fun i => Label.resume i (samplePair 7) true
  [.addUser 2 true, go 0,
    .message 2 (some { t := .commit, v := some 2, commit := some [5] }) true,
    .message 2 (some { t := .dh, v := some 2, pub := some [6] }) true,
    .delUser 2 true, .addUser 3 true, go 1]

/-- Peer 3 has not sent a commitment yet when the key is hashed. -/
theorem intact_departure : ∃ w, (ledger sampleCrypto).exec (Ignored sampleCrypto) newLedger
    (departure ++ [.resume 0 (samplePair 7) true]) = some w ∧ w.controller.state = .handshaking ∧
      w.intact := by
  obtain ⟨w, hw, hstate⟩ : ∃ w ∈ (ledger sampleCrypto).exec (Ignored sampleCrypto) newLedger
      (departure ++ [.resume 0 (samplePair 7) true]), w.controller.state = .handshaking := by
    decide +kernel
  exact ⟨w, hw, hstate, intact_of_ignored (.exec (.init init_newLedger) hw)⟩

/-- Peer 3 has, and the call with them fails. -/
theorem not_intact : ¬ ∀ w, Reachable (ledger sampleCrypto) Always w → w.intact := by
  intro h
  obtain ⟨w, hw, hstale, hbefore, d, hd, hafter⟩ :
      ∃ w ∈ (ledger sampleCrypto).exec Always newLedger (departure ++
        [.message 3 (some { t := .commit, v := some 2, commit := some [8] }) true]),
      w.stale (.resume 0 (samplePair 7) true) = true ∧ w.controller.state = .handshaking ∧
        ∃ d ∈ step sampleCrypto w.controller (.resume 0 (samplePair 7) true),
          d.state = .failed := by decide +kernel
  have hnext : (ledger sampleCrypto).step w (.resume 0 (samplePair 7) true) = some (w.file _ d) :=
    Option.map_eq_some_iff.mpr ⟨d, hd, rfl⟩
  have hintact := h _ (.step (.exec (.init init_newLedger) hw) trivial hnext)
  have hsame := congrArg Hand.state (hintact.2 hstale).hand
  exact absurd (hafter.symm.trans (hsame.trans hbefore)) nofun

end Samples

end Sozvon.E2EE
