import Sozvon.ControllerTurns

/-!
# Keys are committed to before they are seen

The responder commits to its key before the initiator's is known, and each side
takes one key and one commitment in a session. A `Wire` keeps, with each
message sent, the session and what was fixed in it at the time. Once a send has
thrown, the socket is closed for good.
-/
namespace Sozvon.E2EE
open Runs Controller

section Definitions

variable {Id : Type}

/-- A message sent, and the controller's handshake as it was then. -/
structure Mark (Id : Type) where
  dest : Id
  payload : Payload
  session : ℕ
  role : Option Role
  fixed : Option Bytes
deriving DecidableEq, Repr

structure Wire (Id : Type) where
  controller : Controller Id
  closed : Bool := false
  log : List (Mark Id) := []

def Controller.mark (c : Controller Id) (m : Id × Payload) : Mark Id where
  dest := m.1
  payload := m.2
  session := c.resets
  role := c.role
  fixed := c.peerCommit

def Wire.advance (w : Wire Id) (a : Label Id) (d : Controller Id) : Wire Id where
  controller := d
  closed := w.closed || a.socket = some false
  log := w.log ++ (d.sent.drop w.controller.sent.length).map d.mark

/-- Nothing that was fixed changes within the session. -/
def Steady (c d : Controller Id) : Prop :=
  d.resets = c.resets →
    (∀ commit, c.peerCommit = some commit → d.peerCommit = some commit) ∧
    (∀ pub, c.peerPub = some pub → d.peerPub = some pub)

/-- The responder's key, at place `i`, comes after the commitment to it. -/
def Precommitted (C : Crypto Id) (log : List (Mark Id)) (i : ℕ) (m : Mark Id) : Prop :=
  ∃ key, m.payload = dhPayload (some key) ∧ ∃ j < i, ∃ first, log[j]? = some first ∧
    first.dest = m.dest ∧ first.session = m.session ∧
      first.payload = commitPayload (some (C.commit key))

/-- The session is made from the fields of the controller as they are. -/
structure FromFields (c : Controller Id) (s : Session Id) : Prop where
  peer : c.peer = some s.peer
  myPub : c.myPub = some s.myPub
  peerPub : c.peerPub = some s.peerPub
  peerCommit : c.peerCommit = some s.commit

structure Binding (C : Crypto Id) (w : Wire Id) : Prop where
  initiator : ∀ m ∈ w.log, m.payload.t = .dh → m.role = some .initiator →
    ∃ commit, m.fixed = some commit ∧ (m.session = w.controller.resets →
      w.controller.peerCommit = some commit ∧ m.payload = dhPayload w.controller.myPub)
  responder : ∀ i m, w.log[i]? = some m → m.payload.t = .dh → m.role = some .responder →
    Precommitted C w.log i m
  established : w.controller.state = .established → w.controller.role = some .initiator →
    ∃ s, FromFields w.controller s ∧ C.commit s.peerPub = s.commit ∧
      (∀ key, C.commit key = s.commit → key = s.peerPub) ∧
      ∃ secret, w.controller.secret = some secret ∧
        w.controller.sas = some (C.deriveSAS secret (C.transcript {
          initiatorId := w.controller.id, responderId := s.peer, commit := s.commit,
          initiatorPub := s.myPub, responderPub := s.peerPub }))

end Definitions

def wire {Id : Type} [LinearOrder Id] (C : Crypto Id) : System (Wire Id) (Label Id) where
  init w := ∃ c, (system C).init c ∧ w = { controller := c }
  step w a :=
    if w.closed && a.up then none else (step C w.controller a).map (w.advance a)

section Steps

variable {Id : Type} {C : Crypto Id} {w : Wire Id} {c d : Controller Id} {a : Label Id}

/-- What the fields of a handshake have to do with each other. -/
structure Hand.Sound (C : Crypto Id) (h : Hand Id) : Prop where
  own : (h.keyPair = none ∧ h.myPub = none ∧ h.myCommit = none) ∨
    ∃ kp, h.keyPair = some kp ∧ h.myPub = some kp.publicKey ∧
      h.myCommit = some (C.commit kp.publicKey)
  seat : h.peer = none → h.myCommit = none
  key : h.role = some .initiator → ∀ pub, h.peerPub = some pub →
    h.peerCommit = some (C.commit pub)

/-- What has been sent, and in this session. -/
structure Bound (C : Crypto Id) (w : Wire Id) : Prop where
  sessions : ∀ m ∈ w.log, m.session ≤ w.controller.resets
  initiator : ∀ m ∈ w.log, m.payload.t = .dh → m.role = some .initiator →
    ∃ commit, m.fixed = some commit ∧ (m.session = w.controller.resets →
      w.controller.peerCommit = some commit ∧ w.controller.myPub ≠ none ∧
        m.payload = dhPayload w.controller.myPub)
  responder : ∀ i m, w.log[i]? = some m → m.payload.t = .dh → m.role = some .responder →
    Precommitted C w.log i m
  answered : w.closed = false → w.controller.role = some .responder →
    ∀ commit, w.controller.myCommit = some commit → ∃ m ∈ w.log,
      w.controller.peer = some m.dest ∧ m.session = w.controller.resets ∧
        m.payload = commitPayload (some commit)

theorem steady_of_turn {up : Bool} {news : News Id} {left : List (Suspended Id)}
    (h : Turn C up news left c d) : Steady c d := by
  intro hsame
  have hrest : d.peerCommit = c.peerCommit → d.peerPub = c.peerPub →
      (∀ commit, c.peerCommit = some commit → d.peerCommit = some commit) ∧
        (∀ pub, c.peerPub = some pub → d.peerPub = some pub) := by
    intro hcommit hpub
    rw [hcommit, hpub]
    exact ⟨fun _ h => h, fun _ h => h⟩
  cases h with
  | kept peer state hand seat hstate sends calls =>
      exact hrest (congrArg Hand.peerCommit hand) (congrArg Hand.peerPub hand)
  | detached state hand cause hstate sends calls =>
      exact hrest (congrArg Hand.peerCommit hand) (congrArg Hand.peerPub hand)
  | renewed hand sends calls => exact absurd hsame (Nat.ne_of_gt hand.resets)
  | failed hand sends calls =>
      exact hrest (congrArg Hand.peerCommit hand) (congrArg Hand.peerPub hand)
  | started peer kp hand cause current seat sends answer calls =>
      exact hrest (congrArg Hand.peerCommit hand) (congrArg Hand.peerPub hand)
  | committed commit hand role fresh mine state sends calls =>
      have hpub : d.peerPub = c.peerPub := congrArg Hand.peerPub hand
      rw [fresh, hpub]
      exact ⟨nofun, fun _ h => h⟩
  | accepted pub hand key role fresh mine state sends calls =>
      have hcommit : d.peerCommit = c.peerCommit := congrArg Hand.peerCommit hand
      rw [fresh, hcommit]
      exact ⟨fun _ h => h, nofun⟩
  | verified pub hand key fixed fresh state sends calls =>
      have hcommit : d.peerCommit = c.peerCommit := congrArg Hand.peerCommit hand
      rw [fresh, hcommit]
      exact ⟨fun _ h => h, nofun⟩
  | progressed s await hand cause current gen sends calls =>
      exact hrest (congrArg Hand.peerCommit hand) (congrArg Hand.peerPub hand)
  | finished s secret salt hand cause current gen sends calls =>
      exact hrest (congrArg Hand.peerCommit hand) (congrArg Hand.peerPub hand)

theorem log_advance {new : List (Id × Payload)} (h : d.sent = w.controller.sent ++ new) :
    (w.advance a d).log = w.log ++ new.map d.mark := by
  unfold Wire.advance
  dsimp only
  rw [h, List.drop_left]

theorem Precommitted.append {log more : List (Mark Id)} {i : ℕ} {m : Mark Id}
    (h : Precommitted C log i m) : Precommitted C (log ++ more) i m := by
  obtain ⟨key, hkey, j, hj, first, hfirst, hrest⟩ := h
  have hlt : j < log.length := (List.getElem?_eq_some_iff.mp hfirst).1
  exact ⟨key, hkey, j, hj, first, by rw [List.getElem?_append_left hlt, hfirst], hrest⟩

/-- A turn keeps what is known if its own messages agree with it. -/
theorem Bound.advance {up : Bool} {kind : Payload → Prop} (h : Bound C w)
    (sends : Sends up w.controller d kind)
    (resets : w.controller.resets ≤ d.resets)
    (fixed : d.resets = w.controller.resets →
      ∀ commit, w.controller.peerCommit = some commit → w.controller.myPub ≠ none →
        d.peerCommit = some commit ∧ d.myPub = w.controller.myPub)
    (initiator : ∀ m, kind m → m.t = .dh → d.role = some .initiator →
      d.peerCommit ≠ none ∧ d.myPub ≠ none ∧ m = dhPayload d.myPub)
    (responder : ∀ p m, up = true → d.peer = some p → kind m → m.t = .dh →
      d.role = some .responder →
      ∃ key, m = dhPayload (some key) ∧ ∃ first ∈ w.log, first.dest = p ∧
        first.session = d.resets ∧ first.payload = commitPayload (some (C.commit key)))
    (answered : (w.advance a d).closed = false → d.role = some .responder →
      ∀ commit, d.myCommit = some commit → ∃ m ∈ (w.advance a d).log, d.peer = some m.dest ∧
        m.session = d.resets ∧ m.payload = commitPayload (some commit)) :
    Bound C (w.advance a d) := by
  obtain ⟨new, hnew, hall⟩ := sends
  have hlog := log_advance (a := a) hnew
  refine ⟨?_, ?_, ?_, answered⟩
  · intro m hm
    rw [hlog] at hm
    rcases List.mem_append.mp hm with hold | hlast
    · exact Nat.le_trans (h.sessions m hold) resets
    · obtain ⟨p, -, rfl⟩ := List.mem_map.mp hlast
      exact Nat.le_refl _
  · intro m hm hdh hrole
    rw [hlog] at hm
    rcases List.mem_append.mp hm with hold | hlast
    · obtain ⟨commit, hfixed, hsame⟩ := h.initiator m hold hdh hrole
      refine ⟨commit, hfixed, fun hsession => ?_⟩
      have hle := h.sessions m hold
      have hresets : d.resets = w.controller.resets := Nat.le_antisymm (hsession ▸ hle) resets
      obtain ⟨hcommit, hmine, hpayload⟩ := hsame (hsession.trans hresets)
      obtain ⟨hcommit', hmine'⟩ := fixed hresets commit hcommit hmine
      exact ⟨hcommit', hmine' ▸ hmine, hmine' ▸ hpayload⟩
    · obtain ⟨p, hp, rfl⟩ := List.mem_map.mp hlast
      obtain ⟨hcommit, hmine, hpayload⟩ := initiator p.2 (hall p hp).2.2 hdh hrole
      obtain ⟨commit, hcommit⟩ := Option.ne_none_iff_exists'.mp hcommit
      exact ⟨commit, hcommit, fun _ => ⟨hcommit, hmine, hpayload⟩⟩
  · intro i m hi hdh hrole
    rw [hlog] at hi ⊢
    by_cases hlt : i < w.log.length
    · rw [List.getElem?_append_left hlt] at hi
      exact (h.responder i m hi hdh hrole).append
    · rw [Nat.not_lt] at hlt
      rw [List.getElem?_append_right hlt] at hi
      obtain ⟨p, hp, rfl⟩ := List.mem_map.mp (List.mem_of_getElem? hi)
      obtain ⟨hup, hpeer, hkind⟩ := hall p hp
      obtain ⟨key, hkey, first, hfirst, hrest⟩ := responder p.1 p.2 hup hpeer hkind hdh hrole
      obtain ⟨j, hj, hget⟩ := List.mem_iff_getElem.mp hfirst
      refine ⟨key, hkey, j, Nat.lt_of_lt_of_le hj hlt, first, ?_, hrest⟩
      rw [List.getElem?_append_left hj, List.getElem?_eq_getElem hj, hget]

theorem Hand.Sound.of_turn {up : Bool} {news : News Id} {left : List (Suspended Id)}
    (h : c.hand.Sound C) (hturn : Turn C up news left c d) : d.hand.Sound C := by
  cases hturn with
  | kept peer state hand seat hstate sends calls =>
      rw [hand]
      refine ⟨h.own, fun hpeer => ?_, h.key⟩
      have hpeer' : peer = none := hpeer
      rcases seat with rfl | hnone
      · exact h.seat hpeer'
      · exact h.seat hnone
  | detached state hand cause hstate sends calls => exact hand ▸ ⟨h.own, h.seat, h.key⟩
  | renewed hand sends calls =>
      refine ⟨.inl ⟨hand.keyPair, hand.myPub, hand.myCommit⟩, fun _ => hand.myCommit, ?_⟩
      intro _ pub hpub
      rw [hand.peerPub] at hpub
      cases hpub
  | failed hand sends calls => exact hand ▸ ⟨h.own, h.seat, h.key⟩
  | started peer kp hand cause current seat sends answer calls =>
      rw [hand]
      refine ⟨.inr ⟨kp, rfl, rfl, rfl⟩, fun hpeer => ?_, h.key⟩
      have hpeer' : c.peer = none := hpeer
      rw [seat] at hpeer'
      cases hpeer'
  | committed commit hand role fresh mine state sends calls =>
      rw [hand]
      refine ⟨h.own, h.seat, fun hrole pub hpub => ?_⟩
      have hknown : c.peerCommit = some (C.commit pub) := h.key hrole pub hpub
      rw [fresh] at hknown
      cases hknown
  | accepted pub hand key role fresh mine state sends calls =>
      rw [hand]
      refine ⟨h.own, h.seat, fun hrole => ?_⟩
      have hrole' : c.role = some .initiator := hrole
      rw [role] at hrole'
      cases hrole'
  | verified pub hand key fixed fresh state sends calls =>
      rw [hand]
      refine ⟨h.own, h.seat, fun _ pub' hpub => ?_⟩
      have hsame : pub = pub' := Option.some.inj hpub
      exact hsame ▸ fixed
  | progressed s await hand cause current gen sends calls => exact hand ▸ h
  | finished s secret salt hand cause current gen sends calls =>
      exact hand ▸ ⟨h.own, h.seat, h.key⟩

/-- The responder's commitment is still there. -/
theorem Bound.answered_of_same (h : Bound C w) {new : List (Id × Payload)}
    (hsent : d.sent = w.controller.sent ++ new) (hrole : d.role = w.controller.role)
    (hmine : d.myCommit = w.controller.myCommit) (hpeer : d.peer = w.controller.peer)
    (hresets : d.resets = w.controller.resets) (hopen : (w.advance a d).closed = false)
    (hresponder : d.role = some .responder) (commit : Bytes) (hcommit : d.myCommit = some commit) :
    ∃ m ∈ (w.advance a d).log, d.peer = some m.dest ∧ m.session = d.resets ∧
      m.payload = commitPayload (some commit) := by
  have hbefore : w.closed = false := (Bool.or_eq_false_iff.mp hopen).1
  obtain ⟨m, hm, hdest, hsession, hpayload⟩ :=
    h.answered hbefore (hrole ▸ hresponder) commit (hmine ▸ hcommit)
  refine ⟨m, ?_, hpeer.trans hdest, hsession.trans hresets.symm, hpayload⟩
  rw [log_advance hsent]
  exact List.mem_append_left _ hm

theorem Hand.Sound.myPub_eq_none {h : Hand Id} (hs : h.Sound C) (hkey : h.keyPair = none) :
    h.myPub = none := by
  rcases hs.own with ⟨-, hnone, -⟩ | ⟨kp, hkp, -⟩
  · exact hnone
  · rw [hkey] at hkp
    cases hkp

/-- No key goes out, and nothing is fixed. -/
theorem Bound.quiet {up : Bool} {kind : Payload → Prop} (h : Bound C w)
    (sends : Sends up w.controller d kind) (hkind : ∀ m, kind m → m.t ≠ .dh)
    (hresets : d.resets = w.controller.resets) (hrole : d.role = w.controller.role)
    (hpub : d.myPub = w.controller.myPub) (hmine : d.myCommit = w.controller.myCommit)
    (hfixed : d.peerCommit = w.controller.peerCommit)
    (hpeer : d.peer = w.controller.peer ∨ w.controller.myCommit = none) :
    Bound C (w.advance a d) := by
  refine h.advance sends (Nat.le_of_eq hresets.symm) ?_ ?_ ?_ ?_
  · intro _ commit hcommit _
    exact ⟨hfixed.trans hcommit, hpub⟩
  · intro m hm hdh
    exact absurd hdh (hkind m hm)
  · intro p m _ _ hm hdh
    exact absurd hdh (hkind m hm)
  · intro hopen hresponder commit hcommit
    obtain ⟨new, hnew, -⟩ := sends
    rcases hpeer with hpeer | hnone
    · exact h.answered_of_same hnew hrole hmine hpeer hresets hopen hresponder commit hcommit
    · rw [hmine, hnone] at hcommit
      cases hcommit

theorem Bound.step [LinearOrder Id] (hinv : Inv C False w.controller.view)
    (hsound : w.controller.hand.Sound C) (h : Bound C w) (hopen : (w.closed && a.up) = false)
    (hd : E2EE.step C w.controller a = some d) : Bound C (w.advance a d) := by
  cases step_turn hinv.placed hd with
  | kept peer state hand seat hstate sends calls =>
      refine h.quiet sends ?_ (congrArg Hand.resets hand) (congrArg Hand.role hand)
        (congrArg Hand.myPub hand) (congrArg Hand.myCommit hand) (congrArg Hand.peerCommit hand) ?_
      · rintro m (hm | ⟨-, rfl⟩) hdh
        · rw [hm] at hdh
          cases hdh
        · cases hdh
      · have hpeer : d.peer = peer := congrArg Hand.peer hand
        exact seat.imp hpeer.trans hsound.seat
  | detached state hand cause hstate sends calls =>
      refine h.quiet sends ?_ (congrArg Hand.resets hand) (congrArg Hand.role hand)
        (congrArg Hand.myPub hand) (congrArg Hand.myCommit hand) (congrArg Hand.peerCommit hand)
        (.inl (congrArg Hand.peer hand))
      intro m hm hdh
      rw [hm] at hdh
      cases hdh
  | renewed hand sends calls =>
      have hsends : Sends a.up w.controller d fun _ => False := .of_eq sends
      refine h.advance hsends (Nat.le_of_lt hand.resets) ?_ (fun _ => False.elim)
        (fun _ _ _ _ => False.elim) ?_
      · intro hsame
        exact absurd hsame (Nat.ne_of_gt hand.resets)
      · intro _ _ commit hcommit
        have hnone : d.myCommit = none := hand.myCommit
        rw [hnone] at hcommit
        cases hcommit
  | failed hand sends calls =>
      have hsends : Sends a.up w.controller d fun _ => False := .of_eq sends
      exact h.quiet hsends (fun _ => False.elim) (congrArg Hand.resets hand) (congrArg Hand.role hand)
        (congrArg Hand.myPub hand) (congrArg Hand.myCommit hand) (congrArg Hand.peerCommit hand)
        (.inl (congrArg Hand.peer hand))
  | started peer kp hand cause current seat sends answer calls =>
      obtain ⟨waiting, hmem⟩ := current
      have hfresh : w.controller.keyPair = none :=
        hinv.core.fresh (List.mem_filterMap.mpr ⟨_, hmem, rfl⟩)
      have hnone : w.controller.myPub = none := hsound.myPub_eq_none hfresh
      have hkind : ∀ m, (m = helloPayload ∨
          w.controller.role = some .responder ∧ m = commitPayload d.myCommit) → m.t ≠ .dh := by
        rintro m (rfl | ⟨-, rfl⟩) hdh <;> cases hdh
      have hresets : d.resets = w.controller.resets := congrArg Hand.resets hand
      refine h.advance sends (Nat.le_of_eq hresets.symm) ?_ ?_ ?_ ?_
      · intro _ _ _ hmine
        exact absurd hnone hmine
      · intro m hm hdh
        exact absurd hdh (hkind m hm)
      · intro p m _ _ hm hdh
        exact absurd hdh (hkind m hm)
      · intro hclosed hresponder commit hcommit
        have hrole : w.controller.role = some .responder :=
          (congrArg Hand.role hand).symm.trans hresponder
        have hsocket : decide (a.socket = some false) = false := (Bool.or_eq_false_iff.mp hclosed).2
        have hup : a.up = true := by simpa [socket_of_paired cause] using hsocket
        have hmem : d.mark (peer, commitPayload d.myCommit) ∈ (w.advance a d).log :=
          List.mem_append_right _ (List.mem_map_of_mem (answer hup hrole))
        exact ⟨_, hmem, (congrArg Hand.peer hand).trans seat, rfl, hcommit ▸ rfl⟩
  | committed commit hand role fresh mine state sends calls =>
      obtain ⟨kp, -, hpub, -⟩ := hsound.own.resolve_left fun hnone => mine hnone.2.2
      have hresets : d.resets = w.controller.resets := congrArg Hand.resets hand
      have hrole : d.role = some .initiator := (congrArg Hand.role hand).trans role
      have hmine : d.myPub = w.controller.myPub := congrArg Hand.myPub hand
      have hfixed : d.peerCommit = some commit := congrArg Hand.peerCommit hand
      have hpub' : w.controller.myPub = some kp.publicKey := hpub
      refine h.advance sends (Nat.le_of_eq hresets.symm) ?_ ?_ ?_ ?_
      · intro _ known hknown
        rw [fresh] at hknown
        cases hknown
      · rintro m rfl - -
        rw [hfixed, hmine, hpub']
        exact ⟨nofun, nofun, rfl⟩
      · intro _ _ _ _ _ _ hresponder
        rw [hrole] at hresponder
        cases hresponder
      · intro _ hresponder
        rw [hrole] at hresponder
        cases hresponder
  | accepted pub hand key role fresh mine state sends calls =>
      obtain ⟨kp, -, hpub, hcommit⟩ := hsound.own.resolve_left fun hnone => mine hnone.2.2
      have hresets : d.resets = w.controller.resets := congrArg Hand.resets hand
      have hrole : d.role = w.controller.role := congrArg Hand.role hand
      have hpub' : w.controller.myPub = some kp.publicKey := hpub
      have hpeer : d.peer = w.controller.peer := congrArg Hand.peer hand
      have hmine : d.myCommit = w.controller.myCommit := congrArg Hand.myCommit hand
      refine h.advance sends (Nat.le_of_eq hresets.symm) ?_ ?_ ?_ ?_
      · intro _ known hknown _
        exact ⟨(congrArg Hand.peerCommit hand).trans hknown, congrArg Hand.myPub hand⟩
      · intro _ _ _ hinitiator
        rw [hrole, role] at hinitiator
        cases hinitiator
      · rintro p _ hup hp rfl - -
        have hclosed : w.closed = false := by simpa [hup] using hopen
        obtain ⟨first, hfirst, hdest, hsession, hpayload⟩ := h.answered hclosed role _ hcommit
        have hsame : first.dest = p :=
          Option.some.inj (hdest.symm.trans (hpeer.symm.trans hp))
        exact ⟨kp.publicKey, by rw [hpub'], first, hfirst, hsame, hsession.trans hresets.symm, hpayload⟩
      · intro hclosed hresponder commit hown
        obtain ⟨new, hnew, -⟩ := sends
        exact h.answered_of_same hnew hrole hmine hpeer hresets hclosed hresponder commit hown
  | verified pub hand key fixed fresh state sends calls =>
      have hsends : Sends a.up w.controller d fun _ => False := .of_eq sends
      exact h.quiet hsends (fun _ => False.elim) (congrArg Hand.resets hand) (congrArg Hand.role hand)
        (congrArg Hand.myPub hand) (congrArg Hand.myCommit hand) (congrArg Hand.peerCommit hand)
        (.inl (congrArg Hand.peer hand))
  | progressed s await hand cause current gen sends calls =>
      have hsends : Sends a.up w.controller d fun _ => False := .of_eq sends
      exact h.quiet hsends (fun _ => False.elim) (congrArg Hand.resets hand) (congrArg Hand.role hand)
        (congrArg Hand.myPub hand) (congrArg Hand.myCommit hand) (congrArg Hand.peerCommit hand)
        (.inl (congrArg Hand.peer hand))
  | finished s secret salt hand cause current gen sends calls =>
      have hsends : Sends a.up w.controller d fun _ => False := .of_eq sends
      exact h.quiet hsends (fun _ => False.elim) (congrArg Hand.resets hand) (congrArg Hand.role hand)
        (congrArg Hand.myPub hand) (congrArg Hand.myCommit hand) (congrArg Hand.peerCommit hand)
        (.inl (congrArg Hand.peer hand))

/-- What an initiator's `finalize` works from. -/
theorem session_of_initiator {s : Session Id} (hrole : c.role = some .initiator)
    (hs : c.session = some s) : FromFields c s ∧ s.initiator = true := by
  unfold session at hs
  rw [hrole] at hs
  dsimp only at hs
  split at hs
  · rename_i hkp hpub hkey hpeer hcommit
    cases hs
    exact ⟨⟨hpeer, hpub, hkey, by simpa using hcommit⟩, rfl⟩
  · cases hs

theorem binding_of_bound [LinearOrder Id] (hcommit : Function.Injective C.commit)
    (hinv : Inv C False w.controller.view) (hsound : w.controller.hand.Sound C) (h : Bound C w) :
    Binding C w := by
  refine ⟨?_, h.responder, ?_⟩
  · intro m hm hdh hrole
    obtain ⟨commit, hfixed, hsame⟩ := h.initiator m hm hdh hrole
    exact ⟨commit, hfixed, fun hsession => ⟨(hsame hsession).1, (hsame hsession).2.2⟩⟩
  · intro hstate hrole
    obtain ⟨-, s, hsession, hsecret, -, hsas, -⟩ := hinv.core.keyed hstate
    obtain ⟨hfields, hinitiator⟩ := session_of_initiator hrole hsession
    have hopens : C.commit s.peerPub = s.commit := by
      have hfixed : w.controller.peerCommit = some (C.commit s.peerPub) :=
        hsound.key hrole _ hfields.peerPub
      exact Option.some.inj (hfixed.symm.trans hfields.peerCommit)
    refine ⟨s, hfields, hopens, fun key hkey => hcommit (hkey.trans hopens.symm), s.secret C, hsecret, ?_⟩
    have htranscript : s.transcript w.controller.id = {
        initiatorId := w.controller.id, responderId := s.peer, commit := s.commit,
        initiatorPub := s.myPub, responderPub := s.peerPub } := by
      simp [Session.transcript, hinitiator]
    rw [← htranscript]
    exact hsas

/-- In every run, whatever the relay delivers, both keys are bound by commitment, and
what is fixed in a session stays. -/
theorem binding_of_reachable [LinearOrder Id] (hcommit : Function.Injective C.commit)
    (hw : Reachable (wire C) Always w) : Binding C w ∧
      ∀ a w', (wire C).step w a = some w' → Steady w.controller w'.controller := by
  have hall : Inv C False w.controller.view ∧ w.controller.hand.Sound C ∧ Bound C w := by
    refine Reachable.invariant (P := fun w : Wire Id =>
      Inv C False w.controller.view ∧ w.controller.hand.Sound C ∧ Bound C w) ?_ ?_ hw
    · rintro _ ⟨c, hnew, rfl⟩
      have hinv : Inv C False c.view := inv_init hnew
      obtain ⟨id, supported, wasEncrypted, rfl⟩ := hnew
      exact ⟨hinv, ⟨.inl ⟨rfl, rfl, rfl⟩, fun _ => rfl, nofun⟩, nofun, nofun, nofun, nofun⟩
    · rintro w a _ ⟨hinv, hsound, hbound⟩ - hstep
      dsimp only [wire] at hstep
      split at hstep
      · cases hstep
      · rename_i hopen
        rw [Bool.not_eq_true] at hopen
        obtain ⟨d, hd, rfl⟩ := Option.map_eq_some_iff.mp hstep
        exact ⟨hinv.step (fun hsafe => hsafe.elim) hd, hsound.of_turn (step_turn hinv.placed hd),
          hbound.step hinv hsound hopen hd⟩
  obtain ⟨hinv, hsound, hbound⟩ := hall
  refine ⟨binding_of_bound hcommit hinv hsound hbound, ?_⟩
  intro a w' hstep
  dsimp only [wire] at hstep
  split at hstep
  · cases hstep
  · obtain ⟨d, hd, rfl⟩ := Option.map_eq_some_iff.mp hstep
    exact steady_of_turn (step_turn hinv.placed hd)

end Steps

section Samples

theorem commit_injective : Function.Injective sampleCrypto.commit := fun _ _ h => by
  simpa [sampleCrypto] using h

/-- A handshake of the initiator, in which its key goes out. -/
theorem binding_handshake : ∃ w, (wire sampleCrypto).exec Always { controller := newcomer }
    (handshake ++ [.resume 0 (samplePair 7) true]) = some w ∧
      w.controller.state = .established ∧ w.log.length = 2 ∧ Binding sampleCrypto w := by
  obtain ⟨w, hw, hstate, hlog⟩ : ∃ w ∈ (wire sampleCrypto).exec Always { controller := newcomer }
      (handshake ++ [.resume 0 (samplePair 7) true]),
      w.controller.state = .established ∧ w.log.length = 2 := by decide +kernel
  have hbegin : Reachable (wire sampleCrypto) Always { controller := newcomer } :=
    .init ⟨newcomer, init_newcomer, rfl⟩
  exact ⟨w, hw, hstate, hlog, (binding_of_reachable commit_injective (.exec hbegin hw)).1⟩

end Samples

end Sozvon.E2EE
