import Sozvon.ControllerTurns

/-!
# The chat's part of a turn

The chat keys and the numbers of the chat messages go with a generation: a new one
begins without keys, and in each at most one run of `finalize` sets them.
-/
namespace Sozvon.E2EE
open Runs Controller

section Definitions

variable {Id : Type}

structure ChatFields where
  sendKey : Option Bytes := none
  recvKey : Option Bytes := none
  sendSeq : ℕ := 0
  recvSeq : ℤ := -1

def Controller.chat (c : Controller Id) : ChatFields :=
  ⟨c.chatSendKey, c.chatRecvKey, c.chatSendSeq, c.chatRecvSeq⟩

def Controller.chatView (c : Controller Id) : Id × ℕ × ChatFields := (c.id, c.generation, c.chat)

/-- The chat goes on as it was, or a new generation has begun. -/
def Quiet (c d : Controller Id) : Prop :=
  d.chatView = c.chatView ∨ d.id = c.id ∧ c.generation < d.generation ∧ d.chat = {}

/-- What a turn does to the chat. -/
inductive ChatTurn (c d : Controller Id) : Prop
  | quiet (h : Quiet c d)
  | keyed (s : Session Id) (secret salt : Bytes) (current : .finalizing s (.chat secret salt) ∈ c.calls)
      (gen : s.gen = c.generation) (id : d.id = c.id) (generation : d.generation = c.generation)
      (recvSeq : d.chatRecvSeq = -1)

/-- A run of `finalize` of this generation. -/
def Suspended.runs (gen : ℕ) : Suspended Id → Bool
  | .finalizing s _ => s.gen = gen
  | _ => false

/-- A generation has one run of `finalize`, which the peer's key begins and which ends with the
session established. -/
def Controller.Single (c : Controller Id) : Prop :=
  c.calls.countP (Suspended.runs c.generation) + (if c.state = .established then 1 else 0) ≤
    if c.peerPub.isSome then 1 else 0

/-- The one run of the generation is over. -/
structure Controller.Done (c : Controller Id) : Prop where
  peerPub : c.peerPub.isSome = true
  calls : ∀ call ∈ c.calls, Suspended.runs c.generation call = false

end Definitions

section Turns

variable {Id : Type} {C : Crypto Id} {c d e : Controller Id}

theorem Quiet.refl (c : Controller Id) : Quiet c c := Or.inl rfl

theorem Quiet.trans (h : Quiet c d) (h' : Quiet d e) : Quiet c e := by
  have hkept {a b : Controller Id} (h : b.chatView = a.chatView) :
      b.id = a.id ∧ b.generation = a.generation ∧ b.chat = a.chat :=
    ⟨congrArg (·.1) h, congrArg (·.2.1) h, congrArg (·.2.2) h⟩
  rcases h with h | ⟨hid, hgen, hchat⟩
  · rcases h' with h' | ⟨hid', hgen', hchat'⟩
    · exact Or.inl (h'.trans h)
    · obtain ⟨hid, hgen, -⟩ := hkept h
      exact Or.inr ⟨hid'.trans hid, hgen ▸ hgen', hchat'⟩
  · rcases h' with h' | ⟨hid', hgen', hchat'⟩
    · obtain ⟨hid', hgen', hchat'⟩ := hkept h'
      exact Or.inr ⟨hid'.trans hid, hgen'.symm ▸ hgen, hchat'.trans hchat⟩
    · exact Or.inr ⟨hid'.trans hid, Nat.lt_trans hgen hgen', hchat'⟩

theorem quiet_send (payload : Payload) (up : Bool) : Quiet c (c.send payload up).1 := by
  unfold Controller.send
  split
  · exact .refl c
  · dsimp only
    split <;> exact Or.inl rfl

theorem quiet_downgrade (reason : Detail) : Quiet c (c.downgrade reason) := by
  unfold downgrade
  split <;> exact Or.inl rfl

theorem quiet_resetPeer : Quiet c c.resetPeer := Or.inr ⟨rfl, Nat.lt_succ_self _, rfl⟩

theorem quiet_fail (detail : Detail) : Quiet c (c.fail detail) :=
  Or.inr ⟨rfl, Nat.lt_succ_self _, rfl⟩

theorem quiet_suspended (waiting : Option Payload) :
    Quiet c (waiting.elim c fun payload => c.suspend (.resuming payload)) := by
  cases waiting <;> exact Or.inl rfl

theorem quiet_finalize : Quiet c c.finalize := by
  unfold finalize
  split <;> exact Or.inl rfl

theorem quiet_announced (reason : Controller Id → Detail) (up : Bool) :
    Quiet c (match c.announceNoCrypto up with
      | (c, false) => c
      | (c, true) => c.downgrade (reason c)) := by
  have hsend : Quiet c (c.announceNoCrypto up).1 := quiet_send _ up
  split
  · rename_i c' hsent
    rw [hsent] at hsend
    exact hsend
  · rename_i c' hsent
    rw [hsent] at hsend
    exact hsend.trans (quiet_downgrade _)

theorem quiet_answer (payload : Payload) (up : Bool) : Quiet c (c.answer payload up) := by
  unfold answer
  split
  · exact .refl c
  split
  · exact .refl c
  split
  · exact quiet_fail _
  split
  · split
    · exact quiet_send _ up
    · exact .refl c
  · split
    · split
      · exact .refl c
      · rename_i commit hcommit
        split
        · split
          · exact .refl c
          · exact quiet_fail _
        · have hset : Quiet c { c with peerCommit := some commit } := Or.inl rfl
          exact hset.trans (quiet_send _ up)
    · exact .refl c
  · split
    · exact .refl c
    · rename_i pub hpub
      split
      · split
        · exact .refl c
        · exact quiet_fail _
      · split
        · have hset : Quiet c { c with peerPub := some pub } := Or.inl rfl
          have hsend := hset.trans (quiet_send { t := .dh, pub := c.myPub } up)
          split
          · rename_i c' hsent
            rw [hsent] at hsend
            exact hsend
          · rename_i c' hsent
            rw [hsent] at hsend
            exact hsend.trans quiet_finalize
        · split
          · exact .refl c
          · exact Or.inl rfl
  · exact .refl c
  · exact .refl c

theorem quiet_hashed (pub : Bytes) : Quiet c (c.hashed C pub) := by
  unfold hashed
  split
  · exact .refl c
  split
  · exact quiet_fail _
  split
  · exact .refl c
  · have hset : Quiet c { c with peerPub := some pub } := Or.inl rfl
    exact hset.trans quiet_finalize

theorem quiet_attachSender (ok up : Bool) : Quiet c (c.attachSender ok up) := by
  unfold attachSender
  split
  · exact .refl c
  split
  · exact Or.inl rfl
  · have hset : Quiet c { c.ensureWorker with transformFailed := true } := Or.inl rfl
    exact (hset.trans (quiet_send _ up)).trans (quiet_downgrade _)

theorem quiet_continueInClear : Quiet c c.continueInClear := by
  unfold continueInClear
  split <;> exact Or.inl rfl

theorem quiet_slow (gen : ℕ) : Quiet c (c.slow gen) := by
  unfold slow
  dsimp only
  split <;> exact Or.inl rfl

variable [LinearOrder Id]

theorem quiet_renew (peer : Id) : Quiet c (c.renew peer) := by
  have hreset : Quiet c c.resetPeer := quiet_resetPeer
  unfold renew
  generalize c.resetPeer = d at hreset ⊢
  exact hreset.trans (Or.inl rfl)

theorem quiet_startWith (peer : Id) (waiting : Option Payload) :
    Quiet c (c.startWith peer waiting) := by
  unfold startWith
  split
  · exact quiet_suspended waiting
  · have hrenew : Quiet c (c.renew peer) := quiet_renew peer
    dsimp only
    generalize c.renew peer = d at hrenew ⊢
    exact hrenew.trans (Or.inl rfl)

theorem quiet_recompute (up : Bool) : Quiet c (c.recompute up) := by
  unfold recompute
  split
  · have hreset : Quiet c c.resetPeer := quiet_resetPeer
    dsimp only
    split
    · exact hreset.trans (quiet_downgrade _)
    · exact hreset.trans (Or.inl rfl)
  · rename_i peer hpeer
    split
    · have hseat : Quiet c { c with peer := some peer } := Or.inl rfl
      exact hseat.trans (quiet_announced noEncryptReason up)
    · exact quiet_startWith peer none
  · have hreset : Quiet c c.resetPeer := quiet_resetPeer
    exact hreset.trans (quiet_downgrade _)

theorem quiet_setRequire (require up : Bool) : Quiet c (c.setRequire require up) := by
  have hset : Quiet c { c with require := require } := Or.inl rfl
  exact hset.trans (quiet_recompute up)

theorem quiet_addUser (id : Id) (up : Bool) : Quiet c (c.addUser id up) := by
  unfold addUser
  split
  · exact .refl c
  · have hset : Quiet c { c with users := if id ∈ c.users then c.users else c.users ++ [id] } :=
      Or.inl rfl
    exact hset.trans (quiet_recompute up)

theorem quiet_delUser (id : Id) (up : Bool) : Quiet c (c.delUser id up) := by
  unfold delUser
  have hset : Quiet c { c with users := c.users.filter (· ≠ id) } := Or.inl rfl
  dsimp only
  split
  · exact hset.trans (quiet_resetPeer.trans (quiet_recompute up))
  · exact hset.trans (quiet_recompute up)

theorem quiet_onMessage (sender : Id) (payload : Option Payload) (up : Bool) :
    Quiet c (c.onMessage sender payload up) := by
  unfold onMessage
  split
  · exact .refl c
  · rename_i payload
    split
    · exact .refl c
    have hseat : Quiet c { c with peer := some sender } := Or.inl rfl
    split
    · exact hseat.trans (quiet_announced (fun _ => .unsupported) up)
    split
    · have hset : Quiet c { c with peer := some sender, peerSupports := some false } := Or.inl rfl
      exact hset.trans (quiet_downgrade _)
    split
    · exact quiet_startWith sender (some payload)
    · exact quiet_answer payload up

theorem quiet_started (peer : Id) (gen : ℕ) (kp : KeyPair) (up : Bool) :
    Quiet c (c.started C peer gen kp up).1 := by
  unfold started
  split
  · exact .refl c
  · have hset : Quiet c { c with
        keyPair := some kp, myPub := some kp.publicKey,
        myCommit := some (C.commit kp.publicKey), startingFor := none } := Or.inl rfl
    have hsend := hset.trans (quiet_send { t := .hello } up)
    dsimp only
    generalize Controller.send _ { t := .hello } up = answer at hsend ⊢
    obtain ⟨c', returned⟩ := answer
    cases returned with
    | false => exact hsend
    | true =>
        dsimp only
        split
        · exact hsend.trans (quiet_send _ up)
        · exact hsend

/-- `c` is the controller without the call. -/
theorem chatTurn_resume {c₀ : Controller Id} (hcalls : c₀.chatView = c.chatView) (kp : KeyPair)
    (up : Bool) {call : Suspended Id} (hmem : call ∈ c.calls) :
    ChatTurn c (c₀.resume C kp up call) := by
  have hfirst : Quiet c c₀ := Or.inl hcalls
  have hgen : c₀.generation = c.generation := congrArg (·.2.1) hcalls
  cases call with
  | starting peer gen waiting =>
      refine .quiet (hfirst.trans ?_)
      have hstarted := quiet_started (C := C) (c := c₀) peer gen kp up
      simp only [resume]
      split
      · rename_i c' hsent
        rw [hsent] at hstarted
        exact hstarted
      · rename_i c' hsent
        rw [hsent] at hstarted
        exact hstarted.trans (quiet_suspended waiting)
  | resuming payload => exact .quiet (hfirst.trans (quiet_answer payload up))
  | hashing pub => exact .quiet (hfirst.trans (quiet_hashed pub))
  | finalizing s await =>
      simp only [resume, finalizing]
      split
      · exact .quiet hfirst
      · rename_i hcurrent
        have hcurrent : s.gen = c.generation := (not_not.mp hcurrent).trans hgen
        cases await with
        | agree => exact .quiet (hfirst.trans (Or.inl rfl))
        | transcript secret =>
            refine .quiet (hfirst.trans ?_)
            dsimp only
            split <;> exact Or.inl rfl
        | media secret salt streamId rest =>
            refine .quiet (hfirst.trans ?_)
            dsimp only
            split <;> exact Or.inl rfl
        | chat secret salt =>
            exact .keyed s secret salt hmem hcurrent (congrArg (·.1) hcalls) hgen rfl
        | sas secret salt => exact .quiet (hfirst.trans (Or.inl rfl))

theorem chatTurn_of_step {a : Label Id} (h : step C c a = some d) : ChatTurn c d := by
  cases a with
  | addUser id up =>
      cases h
      exact .quiet (quiet_addUser id up)
  | delUser id up =>
      cases h
      exact .quiet (quiet_delUser id up)
  | setRequire require up =>
      cases h
      exact .quiet (quiet_setRequire require up)
  | message sender payload up =>
      cases h
      exact .quiet (quiet_onMessage sender payload up)
  | continueInClear =>
      cases h
      exact .quiet quiet_continueInClear
  | attachSender ok up =>
      cases h
      exact .quiet (quiet_attachSender ok up)
  | attachReceiver =>
      cases h
      refine .quiet ?_
      unfold attachReceiver
      split <;> exact Or.inl rfl
  | timeout =>
      obtain ⟨gen, -, rfl⟩ := Option.map_eq_some_iff.mp h
      exact .quiet (quiet_slow gen)
  | resume i kp up =>
      obtain ⟨call, hcall, rfl⟩ := Option.map_eq_some_iff.mp h
      have hrest : ({ c with calls := c.calls.eraseIdx i } : Controller Id).chatView = c.chatView := rfl
      exact chatTurn_resume hrest kp up (List.mem_of_getElem? hcall)
  | reject i =>
      obtain ⟨call, -, rfl⟩ := Option.map_eq_some_iff.mp h
      exact .quiet (Or.inl rfl)

end Turns

/-! ## One run a generation -/

section Runs

variable {Id : Type} {C : Crypto Id} {c d : Controller Id} {up : Bool} {news : News Id}
  {left : List (Suspended Id)}

/-- What is suspended anew is no run of `finalize`. -/
theorem Suspends.countP_le {kind : Suspended Id → Prop} (h : Suspends left d kind) (gen : ℕ)
    (hkind : ∀ call, kind call → Suspended.runs gen call = false) :
    d.calls.countP (Suspended.runs gen) = left.countP (Suspended.runs gen) := by
  rcases h with h | ⟨call, h, hcall⟩
  · rw [h]
  · rw [h, List.countP_append, List.countP_singleton, hkind call hcall]
    rfl

theorem Suspends.countP_le_succ {kind : Suspended Id → Prop} (h : Suspends left d kind) (gen : ℕ) :
    d.calls.countP (Suspended.runs gen) ≤ left.countP (Suspended.runs gen) + 1 := by
  rcases h with h | ⟨call, h, -⟩
  · rw [h]
    exact Nat.le_succ _
  · rw [h, List.countP_append]
    exact Nat.add_le_add_left List.countP_le_length _

/-- A new generation has no runs. -/
theorem countP_later {calls : List (Suspended Id)} {bound gen : ℕ}
    (h : ∀ call ∈ calls, ∀ gen ∈ call.gen?, gen ≤ bound) (hgen : bound < gen) :
    calls.countP (Suspended.runs gen) = 0 := by
  refine List.countP_eq_zero.mpr fun call hcall hruns => ?_
  cases call with
  | finalizing s await =>
      have hle := h _ hcall s.gen rfl
      have heq : s.gen = gen := of_decide_eq_true hruns
      omega
  | _ => cases hruns

theorem Controller.Done.countP (h : c.Done) :
    c.calls.countP (Suspended.runs c.generation) = 0 :=
  List.countP_eq_zero.mpr fun call hcall hruns => by
    rw [h.calls call hcall] at hruns
    cases hruns

/-- What is left of the calls has no more runs. -/
structure Leaves (c : Controller Id) (left : List (Suspended Id)) (news : News Id) : Prop where
  sublist : left.Sublist c.calls
  run : ∀ s await, news = .run s await → s.gen = c.generation →
    left.countP (Suspended.runs c.generation) + 1 = c.calls.countP (Suspended.runs c.generation)

theorem Leaves.countP_le (h : Leaves c left news) (gen : ℕ) :
    left.countP (Suspended.runs gen) ≤ c.calls.countP (Suspended.runs gen) := h.sublist.countP_le

theorem Controller.Single.of_turn (hturn : Turn C up news left c d) (hleft : Leaves c left news)
    (hbound : ∀ call ∈ c.calls, ∀ gen ∈ call.gen?, gen ≤ c.generation) (h : c.Single) : d.Single := by
  have hle := hleft.countP_le c.generation
  have hlater {gen : ℕ} (hgen : c.generation < gen) : left.countP (Suspended.runs gen) = 0 :=
    countP_later (fun call hcall => hbound call (hleft.sublist.subset hcall)) hgen
  unfold Controller.Single at h ⊢
  cases hturn with
  | kept peer state hand seat hstate sends calls =>
      have hgen : d.generation = c.generation := congrArg Hand.generation hand
      have hpub : d.peerPub = c.peerPub := congrArg Hand.peerPub hand
      have hshown : d.state = state := congrArg Hand.state hand
      have hcount := calls.countP_le c.generation fun call hcall => by
        cases call <;> first | rfl | exact False.elim hcall
      rw [hgen, hpub, hshown, hcount]
      rcases hstate with rfl | hstate
      · omega
      · rw [if_neg hstate]
        omega
  | detached state hand cause hstate sends calls =>
      have hgen : d.generation = c.generation := congrArg Hand.generation hand
      have hpub : d.peerPub = c.peerPub := congrArg Hand.peerPub hand
      have hshown : d.state = state := congrArg Hand.state hand
      have hcount := calls.countP_le c.generation fun call hcall => False.elim hcall
      rw [hgen, hpub, hshown, hcount, if_neg hstate]
      omega
  | renewed hand sends calls =>
      have hcount := calls.countP_le d.generation fun call hcall => by
        cases call <;> first | rfl | exact False.elim hcall
      have hnew : c.generation < d.generation := hand.generation
      have hshown : d.state ≠ .established := hand.state
      rw [hcount, hlater hnew, if_neg hshown]
      exact Nat.zero_le _
  | failed hand sends calls =>
      have hgen : d.generation = c.generation + 1 := congrArg Hand.generation hand
      have hshown : d.state = .failed := congrArg Hand.state hand
      have hcount := calls.countP_le d.generation fun call hcall => False.elim hcall
      rw [hcount, hlater (by omega), hshown, if_neg nofun]
      exact Nat.zero_le _
  | started peer kp hand cause current seat sends answer calls =>
      have hgen : d.generation = c.generation := congrArg Hand.generation hand
      have hpub : d.peerPub = c.peerPub := congrArg Hand.peerPub hand
      have hshown : d.state = c.state := congrArg Hand.state hand
      have hcount := calls.countP_le c.generation fun call hcall => by
        cases call <;> first | rfl | exact False.elim hcall
      rw [hgen, hpub, hshown, hcount]
      omega
  | committed commit hand role fresh mine state sends calls =>
      have hgen : d.generation = c.generation := congrArg Hand.generation hand
      have hpub : d.peerPub = c.peerPub := congrArg Hand.peerPub hand
      have hshown : d.state = c.state := congrArg Hand.state hand
      have hcount := calls.countP_le c.generation fun call hcall => False.elim hcall
      rw [hgen, hpub, hshown, hcount]
      omega
  | accepted pub hand key role fresh mine state sends calls =>
      have hgen : d.generation = c.generation := congrArg Hand.generation hand
      have hpub : d.peerPub = some pub := congrArg Hand.peerPub hand
      have hshown : d.state = c.state := congrArg Hand.state hand
      have hcount := calls.countP_le_succ c.generation
      rw [fresh] at h
      rw [hgen, hpub, hshown, if_neg state.1]
      simp only [Option.isSome_none, Option.isSome_some, Bool.false_eq_true, if_false, if_true] at h ⊢
      omega
  | verified pub hand key fixed fresh state sends calls =>
      have hgen : d.generation = c.generation := congrArg Hand.generation hand
      have hpub : d.peerPub = some pub := congrArg Hand.peerPub hand
      have hshown : d.state = c.state := congrArg Hand.state hand
      have hcount := calls.countP_le_succ c.generation
      rw [fresh] at h
      rw [hgen, hpub, hshown, state, if_neg nofun]
      simp only [Option.isSome_none, Option.isSome_some, Bool.false_eq_true, if_false, if_true] at h ⊢
      omega
  | progressed s await hand cause current gen sends calls =>
      have hgen : d.generation = c.generation := congrArg Hand.generation hand
      have hpub : d.peerPub = c.peerPub := congrArg Hand.peerPub hand
      have hshown : d.state = c.state := congrArg Hand.state hand
      have hcount := calls.countP_le_succ c.generation
      have hone := hleft.run s await cause gen
      rw [hgen, hpub, hshown]
      omega
  | finished s secret salt hand cause current gen sends calls =>
      have hgen : d.generation = c.generation := congrArg Hand.generation hand
      have hpub : d.peerPub = c.peerPub := congrArg Hand.peerPub hand
      have hshown : d.state = .established := congrArg Hand.state hand
      have hcount := calls.countP_le c.generation fun call hcall => False.elim hcall
      have hone := hleft.run s _ cause gen
      rw [hgen, hpub, hshown, hcount, if_pos rfl]
      omega

theorem Controller.Single.done (h : c.Single) (hstate : c.state = .established) : c.Done := by
  unfold Controller.Single at h
  rw [if_pos hstate] at h
  split at h
  · rename_i hpub
    have hzero : c.calls.countP (Suspended.runs c.generation) = 0 := by omega
    exact ⟨hpub, fun call hcall => Bool.eq_false_iff.mpr (List.countP_eq_zero.mp hzero call hcall)⟩
  · omega

/-- Nothing of the generation comes after that. -/
theorem Controller.Done.of_turn (hturn : Turn C up news left c d) (hleft : Leaves c left news)
    (h : c.Done) (hgen : d.generation = c.generation) : d.Done := by
  have hzero : left.countP (Suspended.runs c.generation) = 0 :=
    Nat.le_zero.mp (h.countP ▸ hleft.countP_le c.generation)
  have hdone (hpub : d.peerPub = c.peerPub)
      (hcount : d.calls.countP (Suspended.runs c.generation) =
        left.countP (Suspended.runs c.generation)) : d.Done := by
    refine ⟨hpub ▸ h.peerPub, fun call hcall => Bool.eq_false_iff.mpr ?_⟩
    rw [hgen]
    exact List.countP_eq_zero.mp (hcount.trans hzero) call hcall
  have hnone (hpub : c.peerPub = none) : False := by
    have hsome := h.peerPub
    rw [hpub] at hsome
    cases hsome
  have hstopped {s : Session Id} {await : Await Id} (hmem : .finalizing s await ∈ c.calls)
      (hs : s.gen = c.generation) : False := by
    have hruns := h.calls _ hmem
    simp [Suspended.runs, hs] at hruns
  cases hturn with
  | kept peer state hand seat hstate sends calls =>
      refine hdone (congrArg Hand.peerPub hand) (calls.countP_le _ fun call hcall => ?_)
      cases call <;> first | rfl | exact False.elim hcall
  | detached state hand cause hstate sends calls =>
      exact hdone (congrArg Hand.peerPub hand) (calls.countP_le _ fun call hcall => False.elim hcall)
  | renewed hand sends calls => exact absurd hgen (Nat.ne_of_gt hand.generation)
  | failed hand sends calls =>
      have hnext : d.generation = c.generation + 1 := congrArg Hand.generation hand
      omega
  | started peer kp hand cause current seat sends answer calls =>
      refine hdone (congrArg Hand.peerPub hand) (calls.countP_le _ fun call hcall => ?_)
      cases call <;> first | rfl | exact False.elim hcall
  | committed commit hand role fresh mine state sends calls =>
      exact hdone (congrArg Hand.peerPub hand) (calls.countP_le _ fun call hcall => False.elim hcall)
  | accepted pub hand key role fresh mine state sends calls => exact (hnone fresh).elim
  | verified pub hand key fixed fresh state sends calls => exact (hnone fresh).elim
  | progressed s await hand cause current gen sends calls => exact (hstopped current gen).elim
  | finished s secret salt hand cause current gen sends calls => exact (hstopped current gen).elim

variable [LinearOrder Id]

theorem leaves_left (c : Controller Id) (a : Label Id) : Leaves c (c.left a) (c.news a) := by
  refine ⟨?_, fun s await hnews hgen => ?_⟩
  · cases a <;> first | exact List.Sublist.refl _ | exact List.eraseIdx_sublist ..
  · obtain ⟨i, kp, up, rfl, hcall⟩ := call_of_news hnews
    obtain ⟨hlt, hget⟩ := List.getElem?_eq_some_iff.mp hcall
    have hperm := (List.getElem_cons_eraseIdx_perm hlt).countP_eq (Suspended.runs c.generation)
    rw [hget, List.countP_cons, Suspended.runs, decide_eq_true hgen, if_pos rfl] at hperm
    exact hperm

/-- The invariant of a controller's runs, with the one run of each generation. -/
structure Regular (C : Crypto Id) (c : Controller Id) : Prop where
  inv : Inv C False c.view
  single : c.Single

theorem Regular.step {a : Label Id} (h : Regular C c) (hstep : E2EE.step C c a = some d) : Regular C d :=
  ⟨h.inv.step (fun hsafe => hsafe.elim) hstep,
    .of_turn (step_turn h.inv.placed hstep) (leaves_left c a) h.inv.core.bound h.single⟩

theorem Regular.init (h : (system C).init c) : Regular C c := by
  refine ⟨inv_init h, ?_⟩
  obtain ⟨id, supported, wasEncrypted, rfl⟩ := h
  exact Nat.le_refl 0

theorem Regular.done_step {a : Label Id} (h : Regular C c) (hdone : c.Done)
    (hstep : E2EE.step C c a = some d) (hgen : d.generation = c.generation) : d.Done :=
  hdone.of_turn (step_turn h.inv.placed hstep) (leaves_left c a) hgen

end Runs

end Sozvon.E2EE
