import Sozvon.PairMessages

/-!
# Two honest controllers agree

A pair of controllers is alone in a room, and a relay takes the messages of each
to the other in order. In whatever order both learn of each other, receive and
go on with what they have suspended: once nothing is left to be done, the call
is established on both sides, with the same keys.
-/
namespace Sozvon.E2EE
open Runs Controller

section Definitions

variable {Id : Type}

structure Pair (Id : Type) where
  low : Controller Id
  high : Controller Id
  /-- What `low` has sent and `high` not yet received. -/
  up : List (Id × Payload) := []
  down : List (Id × Payload) := []

inductive Side where
  | low | high
deriving DecidableEq, Repr

inductive Act where
  /-- The server says that the other is there. -/
  | learn
  | deliver
  | timeout
  | resume (i : ℕ) (kp : KeyPair)
deriving DecidableEq, Repr

/-- What happens to a controller, and what is left of the messages for it. -/
def Act.run [LinearOrder Id] (C : Crypto Id) (c : Controller Id) (other : Id)
    (inbox : List (Id × Payload)) : Act → Option (Controller Id × List (Id × Payload))
  | .learn => (step C c (.addUser other true)).map (·, inbox)
  | .deliver => match inbox with
    | [] => none
    | (dest, payload) :: rest =>
        if dest = c.id then (step C c (.message other (some payload) true)).map (·, rest)
        else some (c, rest)
  | .timeout => (step C c .timeout).map (·, inbox)
  | .resume i kp => (step C c (.resume i kp true)).map (·, inbox)

def Pair.step [LinearOrder Id] (C : Crypto Id) (w : Pair Id) : Side × Act → Option (Pair Id)
  | (.low, act) => (act.run C w.low w.high.id w.down).map fun (d, rest) =>
      { w with low := d, down := rest, up := w.up ++ d.sent.drop w.low.sent.length }
  | (.high, act) => (act.run C w.high w.low.id w.up).map fun (d, rest) =>
      { w with high := d, up := rest, down := w.down ++ d.sent.drop w.high.sent.length }

def pair [LinearOrder Id] (C : Crypto Id) : System (Pair Id) (Side × Act) where
  init w := ∃ low high, (system C).init low ∧ (system C).init high ∧ low.supported = true ∧
    high.supported = true ∧ low.id < high.id ∧ w = { low := low, high := high }
  step := Pair.step C

/-- Key pairs come from `generateKeyPair`. -/
def Generates (Generated : KeyPair → Prop) (_ : Pair Id) : Side × Act → Prop
  | (_, .resume _ kp) => Generated kp
  | _ => True

structure Quiescent (w : Pair Id) : Prop where
  up : w.up = []
  down : w.down = []
  lowCalls : w.low.calls = []
  highCalls : w.high.calls = []
  low : w.low.users = [w.high.id]
  high : w.high.users = [w.low.id]

/-- Both have established the call, and have the same of everything. -/
structure Agreed (C : Crypto Id) (w : Pair Id) : Prop where
  states : w.low.state = .established ∧ w.high.state = .established
  roles : w.low.role = some .initiator ∧ w.high.role = some .responder
  secrets : w.low.secret.isSome ∧ w.low.secret = w.high.secret
  transcripts : ∃ s t, w.low.session = some s ∧ w.high.session = some t ∧
    s.transcript w.low.id = t.transcript w.high.id
  chat : w.low.chatSendKey.isSome ∧ w.low.chatSendKey = w.high.chatRecvKey ∧
    w.high.chatSendKey.isSome ∧ w.high.chatSendKey = w.low.chatRecvKey
  sas : w.low.sas.isSome ∧ w.low.sas = w.high.sas

end Definitions

section Hearing

variable {Id : Type} {C : Crypto Id} {Generated : KeyPair → Prop} {l h : Part Id}
  {up down rest : List (Id × Payload)} {c d : Controller Id} {m : Id × Payload}

/-- Nothing has become of it. -/
theorem good_of_same [LinearOrder Id] (hg : Good C Generated c.part h up down) (hd : d.part = c.part) :
    Good C Generated d.part h (up ++ d.sent.drop c.sent.length) down := by
  have hsent : d.sent = c.sent := congrArg Part.sent hd
  rw [hd, hsent, List.drop_length, List.append_nil]
  exact hg

theorem good_of_same_high [LinearOrder Id] (hg : Good C Generated l c.part up down) (hd : d.part = c.part) :
    Good C Generated l d.part up (down ++ d.sent.drop c.sent.length) := by
  have hsent : d.sent = c.sent := congrArg Part.sent hd
  rw [hd, hsent, List.drop_length, List.append_nil]
  exact hg

/-- One message has been said. -/
theorem drop_said {u : Part Id} {p : Id} {payload : Payload} (hu : u.sent = c.sent)
    (hd : d.part = u.say p payload) : d.sent.drop c.sent.length = [(p, payload)] := by
  have hsent : d.sent = u.sent ++ [(p, payload)] := congrArg Part.sent hd
  rw [hsent, hu, List.drop_left]

/-- The initiator handles a message of its peer's once it has its key pair. -/
theorem low_hears [LinearOrder Id] (hg : Good C Generated c.part h up (m :: rest)) (hkey : c.part.keyPair ≠ none) :
    Good C Generated (c.answer m.2 true).part h
      (up ++ (c.answer m.2 true).sent.drop c.sent.length) rest := by
  obtain ⟨kp, -, -, hpub, hmine, engaged, hstate⟩ := hg.safe.low.keyed_of_keyPair hkey
  rcases hstate with hstate | ⟨hstate, htaken⟩
  case inr =>
    refine good_of_same (hg.lowIgnore (fun _ => ?_) fun _ => .inl htaken) (congrArg part (answer_established hstate _))
    exact hg.safe.highAfter (hg.safe.lowAfter htaken)
  have talking : Talking h.id .initiator c.part := ⟨engaged, hstate, by rw [hmine]; exact nofun⟩
  cases hg.safe.down m List.mem_cons_self with
  | hello =>
      exact good_of_same (hg.lowIgnore nofun nofun) (congrArg part (answer_hello_initiator talking))
  | commit hmine =>
      obtain ⟨commit, hcommit⟩ := Option.ne_none_iff_exists'.mp hmine
      rw [hcommit] at hg ⊢
      cases hfixed : c.part.peerCommit with
      | none =>
          have hpart : (c.answer (commitPayload (some commit)) true).part = _ :=
            part_answer_commit talking hfixed
          have hfix := hg.lowFix hkey hfixed hcommit
          rw [hpart, drop_said rfl hpart]
          exact (hfix.lowIgnore (fun _ => nofun) nofun).lowSaid _ _
      | some known =>
          obtain rfl : known = commit :=
            Option.some.inj ((hg.safe.lowFixed known hfixed).symm.trans hcommit)
          refine good_of_same (hg.lowIgnore (fun _ => ?_) nofun) (congrArg part (answer_commit_again talking hfixed))
          rw [hfixed]
          exact nofun
  | dh htaken =>
      have hfixed := hg.safe.highAfter htaken
      obtain ⟨commit, hcommit⟩ := Option.ne_none_iff_exists'.mp hfixed
      have hmyCommit : h.myCommit ≠ none := by
        rw [hg.safe.lowFixed commit hcommit]
        exact nofun
      obtain ⟨kp', -, -, hpub', -⟩ :=
        hg.safe.high.keyed_of_keyPair (hg.safe.high.keyPair_of_myCommit hmyCommit)
      rw [hpub'] at hg ⊢
      cases hfresh : c.part.peerPub with
      | none =>
          rw [answer_dh_initiator talking hfresh hfixed]
          have hthere : c.part.users ≠ [] := by rw [engaged.users]; exact nofun
          have hheld := hg.lowSuspend (.hashing hpub' htaken) hthere
          have hlast := hheld.lowIgnore nofun fun _ =>
            .inr ⟨_, List.mem_append_right _ (List.mem_singleton_self _)⟩
          have hsame : (c.suspend (.hashing kp'.publicKey)).sent.drop c.sent.length = [] :=
            List.drop_length
          rw [hsame, List.append_nil]
          exact hlast
      | some pub =>
          have hsame : some pub = some kp'.publicKey :=
            (hg.safe.lowKey pub hfresh).symm.trans hpub'
          cases hsame
          refine good_of_same (hg.lowIgnore nofun fun _ => .inl ?_) (congrArg part (answer_dh_again talking hfresh))
          rw [hfresh]
          exact nofun

/-- The responder handles a message of its peer's once it has its key pair. -/
theorem high_hears [LinearOrder Id] (hg : Good C Generated l c.part (m :: rest) down) (hkey : c.part.keyPair ≠ none) :
    Good C Generated l (c.answer m.2 true).part rest
      (down ++ (c.answer m.2 true).sent.drop c.sent.length) := by
  obtain ⟨kp, -, -, hpub, hmine, engaged, hstate⟩ := hg.safe.high.keyed_of_keyPair hkey
  rcases hstate with hstate | ⟨hstate, htaken⟩
  case inr =>
    exact good_of_same_high (hg.highIgnore (fun _ => hg.safe.highAfter htaken) fun _ => htaken)
      (congrArg part (answer_established hstate _))
  have hown : c.part.myCommit ≠ none := by
    rw [hmine]
    exact nofun
  have talking : Talking l.id .responder c.part := ⟨engaged, hstate, hown⟩
  cases hg.safe.up m List.mem_cons_self with
  | hello =>
      have hpart : (c.answer helloPayload true).part = _ := part_answer_hello talking
      rw [hpart, drop_said rfl hpart]
      exact (hg.highRepeat hown).highSaid _ _
  | dh hfixed =>
      obtain ⟨kp', -, -, hpub', -⟩ :=
        hg.safe.low.keyed_of_keyPair (hg.safe.low.keyPair_of_peerCommit hfixed)
      rw [hpub'] at hg ⊢
      cases hfresh : c.part.peerPub with
      | none =>
          have hpub'' : c.part.myPub ≠ none := by
            rw [hpub]
            exact nofun
          have hthere : c.part.users ≠ [] := by
            rw [engaged.users]
            exact nofun
          obtain ⟨s, hgen, hlast⟩ : ∃ s : Session Id, s.gen = c.part.generation ∧
            (c.answer (dhPayload (some kp'.publicKey)) true).part = _ :=
              part_answer_dh talking hfresh hkey hpub''
          have hpart : (c.answer (dhPayload (some kp'.publicKey)) true).part =
              ((c.part.accept kp'.publicKey).suspend (.finalizing s .agree)).say l.id
                (dhPayload c.part.myPub) := hlast
          have haccept := hg.highAccept hkey hthere hpub' hfixed hgen
          rw [hpart, drop_said rfl hpart]
          exact (haccept.highIgnore nofun fun _ => nofun).highSaid _ _
      | some pub =>
          have hsame : some pub = some kp'.publicKey :=
            (hg.safe.highKey pub hfresh).symm.trans hpub'
          cases hsame
          refine good_of_same_high (hg.highIgnore nofun fun _ => ?_) (congrArg part (answer_dh_again talking hfresh))
          rw [hfresh]
          exact nofun

end Hearing

section Acts

variable {Id : Type} [LinearOrder Id] {C : Crypto Id} {Generated : KeyPair → Prop}
  {l h : Part Id} {up down rest : List (Id × Payload)} {c e : Controller Id} {m : Id × Payload}

theorem low_delivered (hg : Good C Generated c.part h up (m :: rest)) :
    Good C Generated (c.onMessage h.id (some m.2) true).part h
      (up ++ (c.onMessage h.id (some m.2) true).sent.drop c.sent.length) rest := by
  have hmessage := hg.safe.down m List.mem_cons_self
  have ht : m.2.t ≠ .nocrypto := by cases hmessage <;> exact nofun
  by_cases haway : c.part.users = []
  · have hkey := (hg.safe.low.blank_of_users haway).2.1.keyPair
    exact good_of_same (hg.lowDrop hkey) (congrArg part (onMessage_away haway m.2))
  have engaged := hg.safe.low.engaged haway
  by_cases hkey : c.part.keyPair = none
  · rw [onMessage_starting engaged hg.safe.lowAble hkey ht]
    have hcall : LowCall c.part h (.resuming m.2) := by
      cases hmessage with
      | hello => exact .hello
      | commit hmine => exact .commit hmine
      | dh htaken =>
          exact absurd (hg.safe.low.blank hkey).peerCommit (hg.safe.highAfter htaken)
    have hsame : (c.suspend (.resuming m.2)).sent.drop c.sent.length = [] := List.drop_length
    rw [hsame, List.append_nil]
    exact (hg.lowDrop hkey).lowSuspend hcall haway
  · rw [onMessage_keyed engaged hg.safe.lowAble hkey ht]
    exact low_hears hg hkey

theorem high_delivered (hg : Good C Generated l c.part (m :: rest) down) :
    Good C Generated l (c.onMessage l.id (some m.2) true).part rest
      (down ++ (c.onMessage l.id (some m.2) true).sent.drop c.sent.length) := by
  have hmessage := hg.safe.up m List.mem_cons_self
  have ht : m.2.t ≠ .nocrypto := by cases hmessage <;> exact nofun
  by_cases haway : c.part.users = []
  · have hkey := (hg.safe.high.blank_of_users haway).2.1.keyPair
    exact good_of_same_high (hg.highDrop hkey) (congrArg part (onMessage_away haway m.2))
  have engaged := hg.safe.high.engaged haway
  by_cases hkey : c.part.keyPair = none
  · rw [onMessage_starting engaged hg.safe.highAble hkey ht]
    have hcall : HighCall l c.part (.resuming m.2) := by
      cases hmessage with
      | hello => exact .hello
      | dh hfixed =>
          obtain ⟨commit, hcommit⟩ := Option.ne_none_iff_exists'.mp hfixed
          have hmine := hg.safe.lowFixed commit hcommit
          exact absurd ((hg.safe.high.blank hkey).myCommit.symm.trans hmine) nofun
    have hsame : (c.suspend (.resuming m.2)).sent.drop c.sent.length = [] := List.drop_length
    rw [hsame, List.append_nil]
    exact (hg.highDrop hkey).highSuspend hcall haway
  · rw [onMessage_keyed engaged hg.safe.highAble hkey ht]
    exact high_hears hg hkey

/-- Once its own has gone on, no `startWith` is left in the session. -/
theorem no_starting (hinv : Inv C False c.view) {i : ℕ} {p : Id} {waiting : Option Payload}
    (hi : c.calls[i]? = some (.starting p c.generation waiting))
    (hcalls : ∀ call ∈ c.calls, ∀ gen ∈ call.startGen?, gen = c.generation) :
    ∀ peer gen waiting, .starting peer gen waiting ∉ c.calls.eraseIdx i := by
  intro peer gen waiting' hmem
  have hgen : gen = c.generation := hcalls _ (List.mem_of_mem_eraseIdx hmem) gen rfl
  subst hgen
  exact hinv.core.starting_erase hi rfl (List.mem_filterMap.mpr ⟨_, hmem, rfl⟩)

/-- The initiator, whose calls but the `i`th are left in `e`, goes on with that. -/
theorem low_resumed (hinv : Inv C False c.view) (hg : Good C Generated c.part h up down) {i : ℕ}
    {call : Suspended Id} (hi : c.calls[i]? = some call) {kp : KeyPair} (hkp : Generated kp)
    (he : e.part = c.part.erase i) :
    Good C Generated (e.resume C kp true call).part h
      (up ++ (e.resume C kp true call).sent.drop c.sent.length) down := by
  have hmem : call ∈ c.part.calls := List.mem_of_getElem? hi
  have hthere : c.part.users ≠ [] := fun haway =>
    List.not_mem_nil ((hg.safe.low.blank_of_users haway).2.2 ▸ hmem)
  have engaged := hg.safe.low.engaged hthere
  have engaged' : Engaged h.id .initiator e.part := by
    rw [he]
    exact ⟨engaged.1, engaged.2, engaged.3, engaged.4⟩
  have hsent : e.sent = c.sent := congrArg Part.sent he
  have hgen : e.generation = c.generation := congrArg Part.generation he
  have hback : ∀ payload, call = .resuming payload →
      Good C Generated (e.answer payload true).part h
        (up ++ (e.answer payload true).sent.drop c.sent.length) down := by
    rintro payload rfl
    have hagain : Good C Generated e.part h up ((c.part.id, payload) :: down) := by
      rw [he]
      exact hg.lowResumed hi
    rw [← hsent]
    by_cases hkey : e.part.keyPair = none
    · have hnone := (hagain.safe.low.blank hkey).myCommit
      exact good_of_same (hagain.lowDrop hkey) (congrArg part (answer_unkeyed hnone _))
    · exact low_hears hagain hkey
  cases hg.safe.lowCalls call hmem with
  | starting hkey =>
      have hstarts := no_starting hinv hi fun call hcall gen hgen => by
        cases hg.safe.lowCalls call hcall <;> cases hgen
        rfl
      have hstored := hg.lowStored hthere hkey hkp (fun _ => List.mem_of_mem_eraseIdx) hstarts
      simp only [Controller.resume]
      split
      · rename_i hstart
        cases (part_started engaged' hgen.symm hstart).1
      · rename_i d hstart
        have hpart := (part_started engaged' hgen.symm hstart).2
        rw [if_neg (by decide), he] at hpart
        dsimp only [Option.elim_none]
        rw [hpart, drop_said rfl hpart]
        exact hstored.lowSaid _ _
  | hello => exact hback _ rfl
  | commit hmine => exact hback _ rfl
  | hashing hmine htaken =>
      rename_i pub
      have hfixed := hg.safe.highAfter htaken
      have hkey : c.part.keyPair ≠ none := hg.safe.low.keyPair_of_peerCommit hfixed
      obtain ⟨kp', -, -, hpub, hcommit, -, hstate⟩ := hg.safe.low.keyed_of_keyPair hkey
      have hopens : e.part.peerCommit = some (C.commit pub) := by
        obtain ⟨commit, hcommit⟩ := Option.ne_none_iff_exists'.mp hfixed
        have hown := hg.safe.lowFixed commit hcommit
        have hkeyed := hg.safe.high.keyPair_of_myCommit (by rw [hown]; exact Option.some_ne_none _)
        obtain ⟨kp'', -, -, hpub'', hcommit'', -⟩ := hg.safe.high.keyed_of_keyPair hkeyed
        cases hpub''.symm.trans hmine
        rw [he]
        exact hcommit.trans (hown.symm.trans hcommit'')
      by_cases hfresh : c.part.peerPub = none
      · have hgoing := hstate.resolve_right fun h => h.2 hfresh
        have talking : Talking h.id .initiator e.part :=
          ⟨engaged', by rw [he]; exact hgoing, by rw [he]; exact hcommit ▸ Option.some_ne_none _⟩
        obtain ⟨s, hs, hpart⟩ := part_hashed talking hopens (by rw [he]; exact hfresh)
          (by rw [he]; exact hkey) (by rw [he]; exact hpub ▸ Option.some_ne_none _)
        have hkept : (e.hashed C pub).sent = c.sent := (congrArg Part.sent hpart).trans hsent
        simp only [Controller.resume]
        rw [hkept, List.drop_length, List.append_nil, hpart]
        rw [he] at hs ⊢
        exact hg.lowAccept hkey hthere hmine htaken hs fun _ => List.mem_of_mem_eraseIdx
      · have hpart : (e.hashed C pub).part = c.part.erase i := by
          rw [hashed_again hopens (by rw [he]; exact hfresh), he]
        have hkept : (e.hashed C pub).sent = c.sent := congrArg Part.sent hpart
        simp only [Controller.resume]
        rw [hkept, List.drop_length, List.append_nil, hpart]
        have hgone := hg.lowReplaced hi hthere (fun _ => List.not_mem_nil.elim) (.inl ⟨⟨pub, rfl⟩, hfresh⟩)
        rw [List.append_nil] at hgone
        exact hgone
  | finalizing hsession htaken =>
      rename_i s await
      rcases part_finalizing (C := C) (hsession.trans hgen.symm) with ⟨next, hpart⟩ | hpart
      · have hkept : (e.finalizing C s await).sent = c.sent := (congrArg Part.sent hpart).trans hsent
        simp only [Controller.resume]
        rw [hkept, List.drop_length, List.append_nil, hpart, he]
        refine hg.lowReplaced hi hthere ?_ (.inr ⟨s, await, rfl, next, List.mem_singleton_self _⟩)
        intro other hother
        rw [List.mem_singleton.mp hother]
        exact .finalizing hsession htaken
      · have hkept : (e.finalizing C s await).sent = c.sent := (congrArg Part.sent hpart).trans hsent
        simp only [Controller.resume]
        rw [hkept, List.drop_length, List.append_nil, hpart, he]
        exact hg.lowFinish hi

theorem high_resumed (hinv : Inv C False c.view) (hg : Good C Generated l c.part up down) {i : ℕ}
    {call : Suspended Id} (hi : c.calls[i]? = some call) {kp : KeyPair} (hkp : Generated kp)
    (he : e.part = c.part.erase i) :
    Good C Generated l (e.resume C kp true call).part up
      (down ++ (e.resume C kp true call).sent.drop c.sent.length) := by
  have hmem : call ∈ c.part.calls := List.mem_of_getElem? hi
  have hthere : c.part.users ≠ [] := fun haway =>
    List.not_mem_nil ((hg.safe.high.blank_of_users haway).2.2 ▸ hmem)
  have engaged := hg.safe.high.engaged hthere
  have engaged' : Engaged l.id .responder e.part := by
    rw [he]
    exact ⟨engaged.1, engaged.2, engaged.3, engaged.4⟩
  have hsent : e.sent = c.sent := congrArg Part.sent he
  have hgen : e.generation = c.generation := congrArg Part.generation he
  cases hg.safe.highCalls call hmem with
  | starting hkey =>
      have hstarts := no_starting hinv hi fun call hcall gen hgen => by
        cases hg.safe.highCalls call hcall <;> cases hgen
        rfl
      have hstored := hg.highStored hthere hkey hkp (fun _ => List.mem_of_mem_eraseIdx) hstarts
      simp only [Controller.resume]
      split
      · rename_i hstart
        cases (part_started engaged' hgen.symm hstart).1
      · rename_i d hstart
        have hpart := (part_started engaged' hgen.symm hstart).2
        rw [if_pos rfl, he] at hpart
        have hboth : d.sent = c.sent ++ [(l.id, helloPayload),
            (l.id, commitPayload (some (C.commit kp.publicKey)))] :=
          (congrArg Part.sent hpart).trans (List.append_assoc ..)
        dsimp only [Option.elim_none]
        rw [hpart, hboth, List.drop_left]
        exact (hstored.highSaid _ _).highSaid _ _
  | hello =>
      have hagain : Good C Generated l e.part ((c.part.id, helloPayload) :: up) down := by
        rw [he]
        exact hg.highResumed hi
      rw [← hsent]
      by_cases hkey : e.part.keyPair = none
      · have hnone := (hagain.safe.high.blank hkey).myCommit
        exact good_of_same_high (hagain.highDrop hkey) (congrArg part (answer_unkeyed hnone _))
      · exact high_hears hagain hkey
  | finalizing hsession htaken =>
      rename_i s await
      rcases part_finalizing (C := C) (hsession.trans hgen.symm) with ⟨next, hpart⟩ | hpart
      · have hkept : (e.finalizing C s await).sent = c.sent := (congrArg Part.sent hpart).trans hsent
        simp only [Controller.resume]
        rw [hkept, List.drop_length, List.append_nil, hpart, he]
        exact hg.highReplaced hi hthere (.finalizing hsession htaken)
      · have hkept : (e.finalizing C s await).sent = c.sent := (congrArg Part.sent hpart).trans hsent
        simp only [Controller.resume]
        rw [hkept, List.drop_length, List.append_nil, hpart, he]
        exact hg.highFinish hi

theorem low_learns (hg : Good C Generated c.part h up down) :
    Good C Generated (c.addUser h.id true).part h
      (up ++ (c.addUser h.id true).sent.drop c.sent.length) down := by
  have hne : h.id ≠ c.id := ne_of_gt hg.safe.ids
  by_cases haway : c.part.users = []
  · have hpeer := (hg.safe.low.blank_of_users haway).1
    have hpart := part_addUser_alone hne hg.safe.lowAble haway hpeer
    have hsame : (c.addUser h.id true).sent = c.sent := congrArg Part.sent hpart
    rw [hpart, hsame, List.drop_length, List.append_nil]
    exact hg.lowBegun haway
  · have engaged := hg.safe.low.engaged haway
    exact good_of_same hg (congrArg part (addUser_engaged engaged hne hg.safe.lowAble))

theorem high_learns (hg : Good C Generated l c.part up down) :
    Good C Generated l (c.addUser l.id true).part up
      (down ++ (c.addUser l.id true).sent.drop c.sent.length) := by
  have hne : l.id ≠ c.id := ne_of_lt hg.safe.ids
  by_cases haway : c.part.users = []
  · have hpeer := (hg.safe.high.blank_of_users haway).1
    have hpart := part_addUser_alone hne hg.safe.highAble haway hpeer
    have hsame : (c.addUser l.id true).sent = c.sent := congrArg Part.sent hpart
    rw [hpart, hsame, List.drop_length, List.append_nil]
    exact hg.highBegun haway
  · have engaged := hg.safe.high.engaged haway
    exact good_of_same_high hg (congrArg part (addUser_engaged engaged hne hg.safe.highAble))

/-- What the initiator does keeps all that fits together. -/
theorem low_acts (hinv : Inv C False c.view) (hg : Good C Generated c.part h up down) {act : Act}
    (hkp : ∀ i kp, act = .resume i kp → Generated kp) (hd : act.run C c h.id down = some (e, rest)) :
    Good C Generated e.part h (up ++ e.sent.drop c.sent.length) rest := by
  cases act with
  | learn =>
      cases hd
      exact low_learns hg
  | deliver =>
      cases down with
      | nil => cases hd
      | cons m rest' =>
          have hdest : m.1 = c.id := by
            cases hg.safe.down m List.mem_cons_self <;> rfl
          obtain ⟨dest, payload⟩ := m
          dsimp only [Act.run] at hd
          rw [if_pos hdest] at hd
          cases hd
          exact low_delivered hg
  | timeout =>
      dsimp only [Act.run, step] at hd
      rw [Option.map_map] at hd
      obtain ⟨gen, -, hlast⟩ := Option.map_eq_some_iff.mp hd
      cases hlast
      exact good_of_same hg (part_slow gen)
  | resume i kp =>
      dsimp only [Act.run, step] at hd
      rw [Option.map_map] at hd
      obtain ⟨call, hcall, hlast⟩ := Option.map_eq_some_iff.mp hd
      cases hlast
      exact low_resumed hinv hg hcall (hkp i kp rfl) rfl

theorem high_acts (hinv : Inv C False c.view) (hg : Good C Generated l c.part up down) {act : Act}
    (hkp : ∀ i kp, act = .resume i kp → Generated kp) (hd : act.run C c l.id up = some (e, rest)) :
    Good C Generated l e.part rest (down ++ e.sent.drop c.sent.length) := by
  cases act with
  | learn =>
      cases hd
      exact high_learns hg
  | deliver =>
      cases up with
      | nil => cases hd
      | cons m rest' =>
          have hdest : m.1 = c.id := by
            cases hg.safe.up m List.mem_cons_self <;> rfl
          obtain ⟨dest, payload⟩ := m
          dsimp only [Act.run] at hd
          rw [if_pos hdest] at hd
          cases hd
          exact high_delivered hg
  | timeout =>
      dsimp only [Act.run, step] at hd
      rw [Option.map_map] at hd
      obtain ⟨gen, -, hlast⟩ := Option.map_eq_some_iff.mp hd
      cases hlast
      exact good_of_same_high hg (part_slow gen)
  | resume i kp =>
      dsimp only [Act.run, step] at hd
      rw [Option.map_map] at hd
      obtain ⟨call, hcall, hlast⟩ := Option.map_eq_some_iff.mp hd
      cases hlast
      exact high_resumed hinv hg hcall (hkp i kp rfl) rfl

/-- An act is an event of the controller's, or its message is for nobody. -/
theorem inv_acts (hinv : Inv C False c.view) {act : Act} {other : Id}
    (hd : act.run C c other down = some (e, rest)) : Inv C False e.view := by
  cases act with
  | learn =>
      cases hd
      exact hinv.step (a := .addUser other true) (fun hsafe => hsafe.elim) rfl
  | deliver =>
      cases down with
      | nil => cases hd
      | cons m rest' =>
          obtain ⟨dest, payload⟩ := m
          dsimp only [Act.run] at hd
          split at hd
          · cases hd
            exact hinv.step (a := .message other (some payload) true) (fun hsafe => hsafe.elim) rfl
          · cases hd
            exact hinv
  | timeout =>
      obtain ⟨d, hstep, hlast⟩ := Option.map_eq_some_iff.mp hd
      cases hlast
      exact hinv.step (fun hsafe => hsafe.elim) hstep
  | resume i kp =>
      obtain ⟨d, hstep, hlast⟩ := Option.map_eq_some_iff.mp hd
      cases hlast
      exact hinv.step (fun hsafe => hsafe.elim) hstep

end Acts

section Runs

variable {Id : Type} [LinearOrder Id] {C : Crypto Id} {Generated : KeyPair → Prop} {w w' : Pair Id}

/-- Everything that holds of a pair in every run. -/
structure Paired (C : Crypto Id) (Generated : KeyPair → Prop) (w : Pair Id) : Prop where
  low : Inv C False w.low.view
  high : Inv C False w.high.view
  good : Good C Generated w.low.part w.high.part w.up w.down

theorem paired_init (h : (pair C).init w) : Paired C Generated w := by
  obtain ⟨low, high, hlow, hhigh, hablel, hableh, hids, rfl⟩ := h
  have hinvl : Inv C False low.view := inv_init hlow
  have hinvh : Inv C False high.view := inv_init hhigh
  obtain ⟨idl, supported, wasEncrypted, rfl⟩ := hlow
  obtain ⟨idh, supported', wasEncrypted', rfl⟩ := hhigh
  cases hablel
  cases hableh
  refine ⟨hinvl, hinvh, ?_, ?_⟩
  · exact {
      ids := hids
      lowAble := rfl
      highAble := rfl
      low := .away rfl rfl ⟨rfl, rfl, rfl, rfl, rfl⟩ rfl
      high := .away rfl rfl ⟨rfl, rfl, rfl, rfl, rfl⟩ rfl
      lowCalls := nofun
      highCalls := nofun
      up := nofun
      down := nofun
      lowFixed := nofun
      lowKey := nofun
      highKey := nofun
      lowAfter := fun h => absurd rfl h
      highAfter := fun h => absurd rfl h }
  · exact {
      lowKeyPair := fun h => absurd rfl h
      highKeyPair := fun h => absurd rfl h
      commitment := fun h => absurd rfl h
      lowsKey := fun h => absurd rfl h
      highsKey := fun h => absurd rfl h
      lowDone := fun h => absurd rfl h
      highDone := fun h => absurd rfl h }

theorem paired_step (hw : Paired C Generated w) {move : Side × Act} (hok : Generates Generated w move)
    (hstep : (pair C).step w move = some w') : Paired C Generated w' := by
  obtain ⟨side, act⟩ := move
  have hkp : ∀ i kp, act = .resume i kp → Generated kp := by
    rintro i kp rfl
    exact hok
  cases side with
  | low =>
      obtain ⟨⟨e, rest⟩, hd, rfl⟩ := Option.map_eq_some_iff.mp hstep
      exact ⟨inv_acts hw.low hd, hw.high, low_acts hw.low hw.good hkp hd⟩
  | high =>
      obtain ⟨⟨e, rest⟩, hd, rfl⟩ := Option.map_eq_some_iff.mp hstep
      exact ⟨hw.low, inv_acts hw.high hd, high_acts hw.high hw.good hkp hd⟩

theorem paired_of_reachable (hw : Reachable (pair C) (Generates Generated) w) :
    Paired C Generated w :=
  hw.invariant (fun _ => paired_init) fun _ _ _ hp hok hstep => paired_step hp hok hstep

/-- When nothing is on its way any more, both sides have taken each other's key. -/
theorem Good.settled {l h : Part Id} (hg : Good C Generated l h [] []) (hl : l.calls = [])
    (hh : h.calls = []) (hlu : l.users ≠ []) (hhu : h.users ≠ []) :
    l.peerPub ≠ none ∧ h.peerPub ≠ none ∧ l.state = .established ∧ h.state = .established := by
  have hlow := hg.due.lowKeyPair
  have hhigh := hg.due.highKeyPair
  have hcommitment := hg.due.commitment
  have hlows := hg.due.lowsKey
  have hhighs := hg.due.highsKey
  have hldone := hg.due.lowDone
  have hhdone := hg.due.highDone
  simp only [hl, hh, List.not_mem_nil, exists_false, or_false, imp_false] at *
  have hhkey := hhigh hhu
  have hfixed : l.peerCommit ≠ none := fun hnone => hhkey (hcommitment (hlow hlu) hnone)
  have htaken := hlows hfixed
  exact ⟨hhighs htaken, htaken, hldone (hhighs htaken), hhdone htaken⟩

omit [LinearOrder Id] in
/-- What the initiator's `finalize` reads, and what the responder's does. -/
theorem session_initiator {c : Controller Id} {kp : KeyPair} {pub commit : Bytes} {p : Id}
    (engaged : Engaged p .initiator c.part) (hkey : c.part.keyPair = some kp)
    (hpub : c.part.myPub = some kp.publicKey) (htheirs : c.part.peerPub = some pub)
    (hfixed : c.part.peerCommit = some commit) :
    c.session = some {
      gen := c.generation, keyPair := kp, myPub := kp.publicKey, peerPub := pub, peer := p,
      initiator := true, commit := commit } := by
  have hrole : c.role = some .initiator := engaged.role
  have hpeer : c.peer = some p := engaged.peer
  have hkey' : c.keyPair = some kp := hkey
  have hpub' : c.myPub = some kp.publicKey := hpub
  have htheirs' : c.peerPub = some pub := htheirs
  have hfixed' : c.peerCommit = some commit := hfixed
  simp [session, hrole, hpeer, hkey', hpub', htheirs', hfixed']

omit [LinearOrder Id] in
theorem session_responder {c : Controller Id} {kp : KeyPair} {pub commit : Bytes} {p : Id}
    (engaged : Engaged p .responder c.part) (hkey : c.part.keyPair = some kp)
    (hpub : c.part.myPub = some kp.publicKey) (htheirs : c.part.peerPub = some pub)
    (hmine : c.part.myCommit = some commit) :
    c.session = some {
      gen := c.generation, keyPair := kp, myPub := kp.publicKey, peerPub := pub, peer := p,
      initiator := false, commit := commit } := by
  have hrole : c.role = some .responder := engaged.role
  have hpeer : c.peer = some p := engaged.peer
  have hkey' : c.keyPair = some kp := hkey
  have hpub' : c.myPub = some kp.publicKey := hpub
  have htheirs' : c.peerPub = some pub := htheirs
  have hmine' : c.myCommit = some commit := hmine
  simp [session, hrole, hpeer, hkey', hpub', htheirs', hmine']

/-- In every run of the two, once nothing is on its way and they know of each other,
they have established the call and agree on everything. -/
theorem agreed_of_quiescent
    (hagree : ∀ k l, Generated k → Generated l →
      C.agree k.privateKey l.publicKey = C.agree l.privateKey k.publicKey)
    (hw : Reachable (pair C) (Generates Generated) w) (hq : Quiescent w) : Agreed C w := by
  obtain ⟨hinvl, hinvh, hgood⟩ := paired_of_reachable hw
  rw [hq.up, hq.down] at hgood
  have hlu : w.low.part.users ≠ [] := fun h => absurd (hq.low.symm.trans h) nofun
  have hhu : w.high.part.users ≠ [] := fun h => absurd (hq.high.symm.trans h) nofun
  obtain ⟨hltaken, hhtaken, hl, hh⟩ := hgood.settled hq.lowCalls hq.highCalls hlu hhu
  have hfixed := hgood.safe.highAfter hhtaken
  obtain ⟨commit, hcommit⟩ := Option.ne_none_iff_exists'.mp hfixed
  have hmine := hgood.safe.lowFixed commit hcommit
  have hlkeyed := hgood.safe.low.keyPair_of_peerCommit hfixed
  have hhkeyed := hgood.safe.high.keyPair_of_myCommit (by rw [hmine]; exact nofun)
  obtain ⟨k, hk, hlkey, hlpub, -, hle, -⟩ := hgood.safe.low.keyed_of_keyPair hlkeyed
  obtain ⟨k', hk', hhkey, hhpub, -, hhe, -⟩ := hgood.safe.high.keyed_of_keyPair hhkeyed
  have hltheirs : w.low.part.peerPub = some k'.publicKey := by
    obtain ⟨pub, hpub⟩ := Option.ne_none_iff_exists'.mp hltaken
    rw [hpub, ← hgood.safe.lowKey pub hpub, hhpub]
  have hhtheirs : w.high.part.peerPub = some k.publicKey := by
    obtain ⟨pub, hpub⟩ := Option.ne_none_iff_exists'.mp hhtaken
    rw [hpub, ← hgood.safe.highKey pub hpub, hlpub]
  have hlsession := session_initiator hle hlkey hlpub hltheirs hcommit
  have hhsession := session_responder hhe hhkey hhpub hhtheirs hmine
  obtain ⟨-, s, hs, hlsecret, -, hlsas, hlchat⟩ := hinvl.core.keyed hl
  obtain ⟨-, t, ht, hhsecret, -, hhsas, hhchat⟩ := hinvh.core.keyed hh
  obtain rfl := Option.some.inj (hlsession.symm.trans hs)
  obtain rfl := Option.some.inj (hhsession.symm.trans ht)
  have hsecret : C.agree k.privateKey k'.publicKey = C.agree k'.privateKey k.publicKey :=
    hagree k k' hk hk'
  have hchatl := Prod.mk.inj hlchat
  have hchath := Prod.mk.inj hhchat
  simp only [Controller.view, Session.secret, Session.salt, Session.transcript,
    Controller.part, hsecret, if_true, Bool.false_eq_true, if_false] at *
  exact {
    states := ⟨hl, hh⟩
    roles := ⟨hle.role, hhe.role⟩
    secrets := by rw [hlsecret, hhsecret]; exact ⟨rfl, rfl⟩
    transcripts := ⟨_, _, hlsession, hhsession, by simp [Session.transcript]⟩
    chat := by
      rw [hchatl.1, hchatl.2, hchath.1, hchath.2]
      exact ⟨rfl, rfl, rfl, rfl⟩
    sas := by rw [hlsas, hhsas]; exact ⟨rfl, rfl⟩ }

end Runs

section Samples

def samplePairs (kp : KeyPair) : Prop := kp = samplePair 7 ∨ kp = samplePair 9

instance : DecidablePred samplePairs := fun kp =>
  inferInstanceAs (Decidable (kp = samplePair 7 ∨ kp = samplePair 9))

instance (Generated : KeyPair → Prop) [DecidablePred Generated] (w : Pair ℕ) :
    (move : Side × Act) → Decidable (Generates Generated w move)
  | (_, .resume _ kp) => inferInstanceAs (Decidable (Generated kp))
  | (_, .learn) => .isTrue trivial
  | (_, .deliver) => .isTrue trivial
  | (_, .timeout) => .isTrue trivial

theorem samplePairs_agree (k l : KeyPair) (hk : samplePairs k) (hl : samplePairs l) :
    sampleCrypto.agree k.privateKey l.publicKey = sampleCrypto.agree l.privateKey k.publicKey := by
  rcases hk with rfl | rfl <;> rcases hl with rfl | rfl <;> decide +kernel

def strangers : Pair ℕ := { low := newcomer, high := { id := 2, supported := true } }

/-- The responder's first messages come before the initiator knows of it. -/
def meeting : List (Side × Act) :=
  [(.high, .learn), (.high, .resume 0 (samplePair 9)), (.low, .deliver), (.low, .deliver),
    (.low, .learn), (.low, .resume 0 (samplePair 7)), (.high, .deliver), (.low, .deliver),
    (.high, .deliver), (.low, .deliver), (.low, .resume 0 (samplePair 7))] ++
  List.replicate 8 (.high, .resume 0 (samplePair 9)) ++
  List.replicate 8 (.low, .resume 0 (samplePair 7))

theorem agreed_meeting : ∃ w, (pair sampleCrypto).exec (Generates samplePairs) strangers meeting =
    some w ∧ Quiescent w ∧ Agreed sampleCrypto w := by
  obtain ⟨w, hw, hup, hdown, hlow, hhigh, hlowUsers, hhighUsers⟩ :
      ∃ w ∈ (pair sampleCrypto).exec (Generates samplePairs) strangers meeting,
        w.up = [] ∧ w.down = [] ∧ w.low.calls = [] ∧ w.high.calls = [] ∧
          w.low.users = [w.high.id] ∧ w.high.users = [w.low.id] := by decide +kernel
  have hbegin : Reachable (pair sampleCrypto) (Generates samplePairs) strangers :=
    .init ⟨_, _, init_newcomer, ⟨2, true, false, rfl⟩, rfl, rfl, by decide, rfl⟩
  have hquiet : Quiescent w := ⟨hup, hdown, hlow, hhigh, hlowUsers, hhighUsers⟩
  exact ⟨w, hw, hquiet, agreed_of_quiescent samplePairs_agree (.exec hbegin hw) hquiet⟩

end Samples

end Sozvon.E2EE
