import Sozvon.HonestPeer

/-!
# What is under way between two honest controllers

Two controllers that can both encrypt are alone in a room. The one with the
lower id is the initiator, and each has a queue of messages on their way to the
other. What is in the queues and in the suspended calls is what an honest peer
can have sent (`Safe`), and as long as a side still waits for something, that is
on its way (`Due`). Whatever one of them does next keeps both.
-/
namespace Sozvon.E2EE
open Runs Controller

section Definitions

variable {Id : Type}

/-- Nothing of a handshake yet. -/
structure Part.Blank (u : Part Id) : Prop where
  keyPair : u.keyPair = none
  myPub : u.myPub = none
  myCommit : u.myCommit = none
  peerPub : u.peerPub = none
  peerCommit : u.peerCommit = none

inductive Stage (C : Crypto Id) (Generated : KeyPair → Prop) (p : Id) (role : Role) (u : Part Id) :
    Prop
  | away (users : u.users = []) (peer : u.peer = none) (blank : u.Blank) (calls : u.calls = [])
  | starting (engaged : Engaged p role u) (blank : u.Blank) (state : u.state = .handshaking)
  | keyed (engaged : Engaged p role u) (kp : KeyPair) (generated : Generated kp)
      (keyPair : u.keyPair = some kp) (myPub : u.myPub = some kp.publicKey)
      (myCommit : u.myCommit = some (C.commit kp.publicKey))
      (state : u.state = .handshaking ∨ u.state = .established ∧ u.peerPub ≠ none)

/-- What may be suspended at the initiator `l`, with `h` for its peer. -/
inductive LowCall (l h : Part Id) : Suspended Id → Prop
  | starting : l.keyPair = none → LowCall l h (.starting h.id l.generation none)
  | hello : LowCall l h (.resuming helloPayload)
  | commit : h.myCommit ≠ none → LowCall l h (.resuming (commitPayload h.myCommit))
  | hashing {pub : Bytes} : h.myPub = some pub → h.peerPub ≠ none → LowCall l h (.hashing pub)
  | finalizing {s : Session Id} {await : Await Id} : s.gen = l.generation → l.peerPub ≠ none →
      LowCall l h (.finalizing s await)

inductive HighCall (l h : Part Id) : Suspended Id → Prop
  | starting : h.keyPair = none → HighCall l h (.starting l.id h.generation none)
  | hello : HighCall l h (.resuming helloPayload)
  | finalizing {s : Session Id} {await : Await Id} : s.gen = h.generation → h.peerPub ≠ none →
      HighCall l h (.finalizing s await)

inductive UpMessage (l h : Part Id) : Id × Payload → Prop
  | hello : UpMessage l h (h.id, helloPayload)
  | dh : l.peerCommit ≠ none → UpMessage l h (h.id, dhPayload l.myPub)

inductive DownMessage (l h : Part Id) : Id × Payload → Prop
  | hello : DownMessage l h (l.id, helloPayload)
  | commit : h.myCommit ≠ none → DownMessage l h (l.id, commitPayload h.myCommit)
  | dh : h.peerPub ≠ none → DownMessage l h (l.id, dhPayload h.myPub)

/-- What is known, and what is on its way, fits together. -/
structure Safe [LinearOrder Id] (C : Crypto Id) (Generated : KeyPair → Prop) (l h : Part Id)
    (up down : List (Id × Payload)) : Prop where
  ids : l.id < h.id
  lowAble : l.able = true
  highAble : h.able = true
  low : Stage C Generated h.id .initiator l
  high : Stage C Generated l.id .responder h
  lowCalls : ∀ call ∈ l.calls, LowCall l h call
  highCalls : ∀ call ∈ h.calls, HighCall l h call
  up : ∀ m ∈ up, UpMessage l h m
  down : ∀ m ∈ down, DownMessage l h m
  lowFixed : ∀ commit, l.peerCommit = some commit → h.myCommit = some commit
  lowKey : ∀ pub, l.peerPub = some pub → h.myPub = some pub
  highKey : ∀ pub, h.peerPub = some pub → l.myPub = some pub
  lowAfter : l.peerPub ≠ none → h.peerPub ≠ none
  highAfter : h.peerPub ≠ none → l.peerCommit ≠ none

/-- What a side still waits for is on its way. -/
structure Due (l h : Part Id) (up down : List (Id × Payload)) : Prop where
  lowKeyPair : l.users ≠ [] → l.keyPair = none → .starting h.id l.generation none ∈ l.calls
  highKeyPair : h.users ≠ [] → h.keyPair = none → .starting l.id h.generation none ∈ h.calls
  commitment : l.keyPair ≠ none → l.peerCommit = none → h.keyPair = none ∨
    (h.id, helloPayload) ∈ up ∨ (l.id, commitPayload h.myCommit) ∈ down ∨
      .resuming (commitPayload h.myCommit) ∈ l.calls
  lowsKey : l.peerCommit ≠ none → h.peerPub = none → (h.id, dhPayload l.myPub) ∈ up
  highsKey : h.peerPub ≠ none → l.peerPub = none →
    (l.id, dhPayload h.myPub) ∈ down ∨ ∃ pub, .hashing pub ∈ l.calls
  lowDone : l.peerPub ≠ none → l.state = .established ∨ ∃ s await, .finalizing s await ∈ l.calls
  highDone : h.peerPub ≠ none → h.state = .established ∨ ∃ s await, .finalizing s await ∈ h.calls

end Definitions

section Keeping

variable {Id : Type} {C : Crypto Id} {Generated : KeyPair → Prop} {l h l' h' u v : Part Id}
  {up down up' down' : List (Id × Payload)} {p : Id} {role : Role}

/-- The session and its key pair stay, and so does what is known of the peer's. -/
structure Keeps (u v : Part Id) : Prop where
  id : v.id = u.id
  able : v.able = u.able
  generation : v.generation = u.generation
  keyPair : v.keyPair = u.keyPair
  myPub : v.myPub = u.myPub
  myCommit : v.myCommit = u.myCommit
  peerPub : u.peerPub ≠ none → v.peerPub ≠ none
  peerCommit : u.peerCommit ≠ none → v.peerCommit ≠ none

theorem Keeps.refl (u : Part Id) : Keeps u u := ⟨rfl, rfl, rfl, rfl, rfl, rfl, fun h => h, fun h => h⟩

theorem keeps_calls (u : Part Id) (calls : List (Suspended Id)) :
    Keeps u { u with calls := calls } := ⟨rfl, rfl, rfl, rfl, rfl, rfl, fun h => h, fun h => h⟩

theorem LowCall.keeps {call : Suspended Id} (hcall : LowCall l h call) (hl : Keeps l l')
    (hh : Keeps h h') : LowCall l' h' call := by
  cases hcall with
  | starting hkey =>
      rw [← hh.id, ← hl.generation]
      exact .starting (hl.keyPair.trans hkey)
  | hello => exact .hello
  | commit hmine =>
      rw [← hh.myCommit] at hmine ⊢
      exact .commit hmine
  | hashing hmine htaken => exact .hashing (hh.myPub.trans hmine) (hh.peerPub htaken)
  | finalizing hgen htaken =>
      exact .finalizing (hgen.trans hl.generation.symm) (hl.peerPub htaken)

theorem HighCall.keeps {call : Suspended Id} (hcall : HighCall l h call) (hl : Keeps l l')
    (hh : Keeps h h') : HighCall l' h' call := by
  cases hcall with
  | starting hkey =>
      rw [← hl.id, ← hh.generation]
      exact .starting (hh.keyPair.trans hkey)
  | hello => exact .hello
  | finalizing hgen htaken =>
      exact .finalizing (hgen.trans hh.generation.symm) (hh.peerPub htaken)

theorem UpMessage.keeps {m : Id × Payload} (hm : UpMessage l h m) (hl : Keeps l l')
    (hh : Keeps h h') : UpMessage l' h' m := by
  cases hm with
  | hello =>
      rw [← hh.id]
      exact .hello
  | dh hfixed =>
      rw [← hh.id, ← hl.myPub]
      exact .dh (hl.peerCommit hfixed)

theorem DownMessage.keeps {m : Id × Payload} (hm : DownMessage l h m) (hl : Keeps l l')
    (hh : Keeps h h') : DownMessage l' h' m := by
  cases hm with
  | hello =>
      rw [← hl.id]
      exact .hello
  | commit hmine =>
      rw [← hl.id, ← hh.myCommit]
      exact .commit (hh.myCommit ▸ hmine)
  | dh htaken =>
      rw [← hl.id, ← hh.myPub]
      exact .dh (hh.peerPub htaken)

theorem Stage.retain (hu : Stage C Generated p role u) {calls : List (Suspended Id)}
    (hcalls : u.users = [] → u.calls = [] → calls = []) :
    Stage C Generated p role { u with calls := calls } := by
  cases hu with
  | away users peer blank none =>
      exact .away users peer ⟨blank.1, blank.2, blank.3, blank.4, blank.5⟩ (hcalls users none)
  | starting engaged blank state =>
      exact .starting ⟨engaged.1, engaged.2, engaged.3, engaged.4⟩
        ⟨blank.1, blank.2, blank.3, blank.4, blank.5⟩ state
  | keyed engaged kp generated keyPair myPub myCommit state =>
      exact .keyed ⟨engaged.1, engaged.2, engaged.3, engaged.4⟩ kp generated keyPair myPub myCommit
        state

/-- Both keep what they have: only what is new is left to see to. -/
theorem Safe.keeps [LinearOrder Id] (hs : Safe C Generated l h up down) (hl : Keeps l l') (hh : Keeps h h')
    (low : Stage C Generated h'.id .initiator l') (high : Stage C Generated l'.id .responder h')
    (lowCalls : ∀ call ∈ l'.calls, call ∈ l.calls ∨ LowCall l' h' call)
    (highCalls : ∀ call ∈ h'.calls, call ∈ h.calls ∨ HighCall l' h' call)
    (hup : ∀ m ∈ up', m ∈ up ∨ UpMessage l' h' m)
    (hdown : ∀ m ∈ down', m ∈ down ∨ DownMessage l' h' m)
    (lowFixed : ∀ commit, l'.peerCommit = some commit → h'.myCommit = some commit)
    (lowKey : ∀ pub, l'.peerPub = some pub → h'.myPub = some pub)
    (highKey : ∀ pub, h'.peerPub = some pub → l'.myPub = some pub)
    (lowAfter : l'.peerPub ≠ none → h'.peerPub ≠ none)
    (highAfter : h'.peerPub ≠ none → l'.peerCommit ≠ none) :
    Safe C Generated l' h' up' down' where
  ids := hl.id ▸ hh.id ▸ hs.ids
  lowAble := hl.able.trans hs.lowAble
  highAble := hh.able.trans hs.highAble
  low := low
  high := high
  lowCalls call hcall := (lowCalls call hcall).elim (fun h => (hs.lowCalls call h).keeps hl hh) fun h => h
  highCalls call hcall :=
    (highCalls call hcall).elim (fun h => (hs.highCalls call h).keeps hl hh) fun h => h
  up m hm := (hup m hm).elim (fun h => (hs.up m h).keeps hl hh) fun h => h
  down m hm := (hdown m hm).elim (fun h => (hs.down m h).keeps hl hh) fun h => h
  lowFixed := lowFixed
  lowKey := lowKey
  highKey := highKey
  lowAfter := lowAfter
  highAfter := highAfter

end Keeping

section Moves

variable {Id : Type} {C : Crypto Id} {Generated : KeyPair → Prop} {l h : Part Id}
  {up down : List (Id × Payload)}

/-- Calls and messages for the initiator may go, and calls may come. -/
theorem Safe.lowCalled [LinearOrder Id] (hs : Safe C Generated l h up down) {calls : List (Suspended Id)}
    {rest : List (Id × Payload)} (hnil : l.users = [] → l.calls = [] → calls = [])
    (hcalls : ∀ call ∈ calls, call ∈ l.calls ∨ LowCall l h call)
    (hrest : ∀ m ∈ rest, m ∈ down) : Safe C Generated { l with calls := calls } h up rest := by
  have hkeeps : Keeps l { l with calls := calls } := keeps_calls l calls
  refine hs.keeps hkeeps (.refl h) (hs.low.retain hnil) hs.high ?_ (fun _ => .inl) (fun _ => .inl)
    (fun m hm => .inl (hrest m hm)) hs.lowFixed hs.lowKey hs.highKey hs.lowAfter hs.highAfter
  exact fun call hcall => (hcalls call hcall).imp_right fun h => h.keeps hkeeps (.refl _)

theorem Safe.highCalled [LinearOrder Id] (hs : Safe C Generated l h up down) {calls : List (Suspended Id)}
    {rest : List (Id × Payload)} (hnil : h.users = [] → h.calls = [] → calls = [])
    (hcalls : ∀ call ∈ calls, call ∈ h.calls ∨ HighCall l h call)
    (hrest : ∀ m ∈ rest, m ∈ up) : Safe C Generated l { h with calls := calls } rest down := by
  have hkeeps : Keeps h { h with calls := calls } := keeps_calls h calls
  refine hs.keeps (.refl l) hkeeps hs.low (hs.high.retain hnil) (fun _ => .inl) ?_
    (fun m hm => .inl (hrest m hm)) (fun _ => .inl) hs.lowFixed hs.lowKey hs.highKey hs.lowAfter
    hs.highAfter
  exact fun call hcall => (hcalls call hcall).imp_right fun h => h.keeps (.refl _) hkeeps

/-- A side that is away has nothing but its name. -/
theorem Stage.blank_of_users {p : Id} {role : Role} {u : Part Id}
    (hu : Stage C Generated p role u) (haway : u.users = []) :
    u.peer = none ∧ u.Blank ∧ u.calls = [] := by
  cases hu with
  | away users peer blank calls => exact ⟨peer, blank, calls⟩
  | starting engaged blank state => exact absurd (engaged.users.symm.trans haway) nofun
  | keyed engaged => exact absurd (engaged.users.symm.trans haway) nofun

theorem Stage.engaged {p : Id} {role : Role} {u : Part Id} (hu : Stage C Generated p role u)
    (hthere : u.users ≠ []) : Engaged p role u := by
  cases hu with
  | away users => exact absurd users hthere
  | starting engaged => exact engaged
  | keyed engaged => exact engaged

theorem Stage.blank {p : Id} {role : Role} {u : Part Id} (hu : Stage C Generated p role u)
    (hkey : u.keyPair = none) : u.Blank := by
  cases hu with
  | away users peer blank => exact blank
  | starting engaged blank => exact blank
  | keyed engaged kp generated keyPair => exact absurd (keyPair.symm.trans hkey) nofun

theorem stage_begun [LinearOrder Id] {p : Id} {u : Part Id} {role : Role}
    (hrole : role = if u.id < p then .initiator else .responder) :
    Stage C Generated p role (u.begun p) := by
  subst hrole
  exact .starting ⟨rfl, rfl, rfl, fun _ => rfl⟩ ⟨rfl, rfl, rfl, rfl, rfl⟩ rfl

/-- The initiator learns of its peer. -/
theorem Safe.lowBegun [LinearOrder Id] (hs : Safe C Generated l h up down)
    (haway : l.users = []) : Safe C Generated (l.begun h.id) h up down := by
  obtain ⟨-, blank, hnil⟩ := hs.low.blank_of_users haway
  exact {
    ids := hs.ids
    lowAble := hs.lowAble
    highAble := hs.highAble
    low := stage_begun (by rw [if_pos hs.ids])
    high := hs.high
    lowCalls := by
      intro call hcall
      have hcall' : call = .starting h.id (l.generation + 1) none := by
        simpa [Part.begun, hnil] using hcall
      subst hcall'
      exact .starting rfl
    highCalls := by
      intro call hcall
      cases hs.highCalls call hcall with
      | starting hkey => exact .starting hkey
      | hello => exact .hello
      | finalizing hgen htaken => exact .finalizing hgen htaken
    up := by
      intro m hm
      cases hs.up m hm with
      | hello => exact .hello
      | dh hfixed => exact absurd blank.peerCommit hfixed
    down := by
      intro m hm
      cases hs.down m hm with
      | hello => exact .hello
      | commit hmine => exact .commit hmine
      | dh htaken => exact absurd blank.peerCommit (hs.highAfter htaken)
    lowFixed := nofun
    lowKey := nofun
    highKey := fun pub hpub => absurd blank.peerCommit (hs.highAfter (hpub ▸ nofun))
    lowAfter := fun h => absurd rfl h
    highAfter := fun htaken => absurd blank.peerCommit (hs.highAfter htaken) }

theorem Safe.highBegun [LinearOrder Id] (hs : Safe C Generated l h up down)
    (haway : h.users = []) : Safe C Generated l (h.begun l.id) up down := by
  obtain ⟨-, blank, hnil⟩ := hs.high.blank_of_users haway
  exact {
    ids := hs.ids
    lowAble := hs.lowAble
    highAble := hs.highAble
    low := hs.low
    high := stage_begun (by rw [if_neg (not_lt_of_gt hs.ids)])
    lowCalls := by
      intro call hcall
      cases hs.lowCalls call hcall with
      | starting hkey => exact .starting hkey
      | hello => exact .hello
      | commit hmine => exact absurd blank.myCommit hmine
      | hashing hmine hfixed => exact absurd (blank.myPub.symm.trans hmine) nofun
      | finalizing hgen htaken => exact .finalizing hgen htaken
    highCalls := by
      intro call hcall
      have hcall' : call = .starting l.id (h.generation + 1) none := by
        simpa [Part.begun, hnil] using hcall
      subst hcall'
      exact .starting rfl
    up := by
      intro m hm
      cases hs.up m hm with
      | hello => exact .hello
      | dh hfixed => exact .dh hfixed
    down := by
      intro m hm
      cases hs.down m hm with
      | hello => exact .hello
      | commit hmine => exact absurd blank.myCommit hmine
      | dh htaken => exact absurd blank.peerPub htaken
    lowFixed := fun commit hfixed =>
      absurd (blank.myCommit.symm.trans (hs.lowFixed commit hfixed)) nofun
    lowKey := fun pub hpub => absurd (blank.myPub.symm.trans (hs.lowKey pub hpub)) nofun
    highKey := nofun
    lowAfter := fun htaken => absurd blank.peerPub (hs.lowAfter htaken)
    highAfter := fun h => absurd rfl h }

theorem Stage.stored {p : Id} {role : Role} {u : Part Id} (hu : Stage C Generated p role u)
    (hthere : u.users ≠ []) (hkey : u.keyPair = none) {kp : KeyPair} (hkp : Generated kp) :
    Stage C Generated p role (u.stored C kp) := by
  cases hu with
  | away users => exact absurd users hthere
  | starting engaged blank state =>
      exact .keyed ⟨engaged.users, engaged.peer, engaged.role, nofun⟩ kp hkp rfl rfl rfl (.inl state)
  | keyed engaged kp' generated keyPair => exact absurd (keyPair.symm.trans hkey) nofun

/-- The initiator stores its key pair and says hello. -/
theorem Safe.lowStored [LinearOrder Id] (hs : Safe C Generated l h up down) (hthere : l.users ≠ [])
    (hkey : l.keyPair = none) {kp : KeyPair} (hkp : Generated kp)
    (hstarts : ∀ peer gen waiting, .starting peer gen waiting ∉ l.calls) :
    Safe C Generated (l.stored C kp) h (up ++ [(h.id, helloPayload)]) down := by
  have blank := hs.low.blank hkey
  exact {
    ids := hs.ids
    lowAble := hs.lowAble
    highAble := hs.highAble
    low := hs.low.stored hthere hkey hkp
    high := hs.high
    lowCalls := by
      intro call hcall
      have hcall' : call ∈ l.calls := hcall
      cases hs.lowCalls call hcall with
      | starting => exact absurd hcall' (hstarts _ _ _)
      | hello => exact .hello
      | commit hmine => exact .commit hmine
      | hashing hmine htaken => exact absurd blank.peerCommit (hs.highAfter htaken)
      | finalizing hgen htaken => exact absurd blank.peerPub htaken
    highCalls := by
      intro call hcall
      cases hs.highCalls call hcall with
      | starting hkey => exact .starting hkey
      | hello => exact .hello
      | finalizing hgen htaken => exact .finalizing hgen htaken
    up := by
      intro m hm
      rcases List.mem_append.mp hm with hold | hnew
      · cases hs.up m hold with
        | hello => exact .hello
        | dh hfixed => exact absurd blank.peerCommit hfixed
      · rw [List.mem_singleton.mp hnew]
        exact .hello
    down := by
      intro m hm
      cases hs.down m hm with
      | hello => exact .hello
      | commit hmine => exact .commit hmine
      | dh htaken => exact absurd blank.peerCommit (hs.highAfter htaken)
    lowFixed := hs.lowFixed
    lowKey := hs.lowKey
    highKey := fun pub hpub => absurd blank.peerCommit (hs.highAfter (hpub ▸ nofun))
    lowAfter := hs.lowAfter
    highAfter := hs.highAfter }

/-- The responder stores its key pair, and sends its commitment with its hello. -/
theorem Safe.highStored [LinearOrder Id] (hs : Safe C Generated l h up down) (hthere : h.users ≠ [])
    (hkey : h.keyPair = none) {kp : KeyPair} (hkp : Generated kp)
    (hstarts : ∀ peer gen waiting, .starting peer gen waiting ∉ h.calls) :
    Safe C Generated l (h.stored C kp) up
      (down ++ [(l.id, helloPayload), (l.id, commitPayload (some (C.commit kp.publicKey)))]) := by
  have blank := hs.high.blank hkey
  exact {
    ids := hs.ids
    lowAble := hs.lowAble
    highAble := hs.highAble
    low := hs.low
    high := hs.high.stored hthere hkey hkp
    lowCalls := by
      intro call hcall
      cases hs.lowCalls call hcall with
      | starting hkey => exact .starting hkey
      | hello => exact .hello
      | commit hmine => exact absurd blank.myCommit hmine
      | hashing hmine hfixed => exact absurd (blank.myPub.symm.trans hmine) nofun
      | finalizing hgen htaken => exact .finalizing hgen htaken
    highCalls := by
      intro call hcall
      have hcall' : call ∈ h.calls := hcall
      cases hs.highCalls call hcall with
      | starting => exact absurd hcall' (hstarts _ _ _)
      | hello => exact .hello
      | finalizing hgen htaken => exact absurd blank.peerPub htaken
    up := by
      intro m hm
      cases hs.up m hm with
      | hello => exact .hello
      | dh hfixed => exact .dh hfixed
    down := by
      intro m hm
      rcases List.mem_append.mp hm with hold | hnew
      · cases hs.down m hold with
        | hello => exact .hello
        | commit hmine => exact absurd blank.myCommit hmine
        | dh htaken => exact absurd blank.peerPub htaken
      · rcases List.mem_pair.mp hnew with rfl | rfl
        · exact .hello
        · exact .commit (h := h.stored C kp) nofun
    lowFixed := fun commit hfixed =>
      absurd (blank.myCommit.symm.trans (hs.lowFixed commit hfixed)) nofun
    lowKey := fun pub hpub => absurd (blank.myPub.symm.trans (hs.lowKey pub hpub)) nofun
    highKey := hs.highKey
    lowAfter := hs.lowAfter
    highAfter := hs.highAfter }

theorem Stage.fix {p : Id} {role : Role} {u : Part Id} (hu : Stage C Generated p role u)
    (hkey : u.keyPair ≠ none) (commit : Bytes) : Stage C Generated p role (u.fix commit) := by
  cases hu with
  | away users peer blank => exact absurd blank.keyPair hkey
  | starting engaged blank => exact absurd blank.keyPair hkey
  | keyed engaged kp generated keyPair myPub myCommit state =>
      exact .keyed ⟨engaged.1, engaged.2, engaged.3, engaged.4⟩ kp generated keyPair myPub myCommit
        state

theorem Stage.accept {p : Id} {role : Role} {u : Part Id} (hu : Stage C Generated p role u)
    (hkey : u.keyPair ≠ none) (pub : Bytes) : Stage C Generated p role (u.accept pub) := by
  cases hu with
  | away users peer blank => exact absurd blank.keyPair hkey
  | starting engaged blank => exact absurd blank.keyPair hkey
  | keyed engaged kp generated keyPair myPub myCommit state =>
      exact .keyed ⟨engaged.1, engaged.2, engaged.3, engaged.4⟩ kp generated keyPair myPub myCommit
        (state.imp_right fun h => ⟨h.1, nofun⟩)

theorem Stage.finish {p : Id} {role : Role} {u : Part Id} (hu : Stage C Generated p role u)
    (htaken : u.peerPub ≠ none) : Stage C Generated p role u.finish := by
  cases hu with
  | away users peer blank => exact absurd blank.peerPub htaken
  | starting engaged blank => exact absurd blank.peerPub htaken
  | keyed engaged kp generated keyPair myPub myCommit state =>
      exact .keyed ⟨engaged.1, engaged.2, engaged.3, engaged.4⟩ kp generated keyPair myPub myCommit
        (.inr ⟨rfl, htaken⟩)

/-- The initiator fixes the responder's commitment. -/
theorem Safe.lowFix [LinearOrder Id] (hs : Safe C Generated l h up down) (hkey : l.keyPair ≠ none) {commit : Bytes}
    (hmine : h.myCommit = some commit) :
    Safe C Generated (l.fix commit) h (up ++ [(h.id, dhPayload l.myPub)]) down := by
  have hkeeps : Keeps l (l.fix commit) :=
    ⟨rfl, rfl, rfl, rfl, rfl, rfl, fun h => h, fun _ => nofun⟩
  refine hs.keeps hkeeps (.refl h) (hs.low.fix hkey commit) hs.high (fun _ => .inl) (fun _ => .inl)
    ?_ (fun _ => .inl) ?_ hs.lowKey hs.highKey hs.lowAfter fun _ => nofun
  · intro m hm
    refine (List.mem_append.mp hm).imp_right fun hnew => ?_
    rw [List.mem_singleton.mp hnew]
    exact .dh (l := l.fix commit) nofun
  · rintro _ ⟨⟩
    exact hmine

/-- The initiator takes the responder's key. -/
theorem Safe.lowAccept [LinearOrder Id] (hs : Safe C Generated l h up down) (hkey : l.keyPair ≠ none) {pub : Bytes}
    (hmine : h.myPub = some pub) (htaken : h.peerPub ≠ none) :
    Safe C Generated (l.accept pub) h up down := by
  have hkeeps : Keeps l (l.accept pub) :=
    ⟨rfl, rfl, rfl, rfl, rfl, rfl, fun _ => nofun, fun h => h⟩
  refine hs.keeps hkeeps (.refl h) (hs.low.accept hkey pub) hs.high (fun _ => .inl) (fun _ => .inl)
    (fun _ => .inl) (fun _ => .inl) hs.lowFixed ?_ hs.highKey (fun _ => htaken) hs.highAfter
  rintro _ ⟨⟩
  exact hmine

/-- The responder takes the initiator's key and sends its own. -/
theorem Safe.highAccept [LinearOrder Id] (hs : Safe C Generated l h up down) (hkey : h.keyPair ≠ none) {pub : Bytes}
    (hmine : l.myPub = some pub) (hfixed : l.peerCommit ≠ none) :
    Safe C Generated l (h.accept pub) up (down ++ [(l.id, dhPayload h.myPub)]) := by
  have hkeeps : Keeps h (h.accept pub) :=
    ⟨rfl, rfl, rfl, rfl, rfl, rfl, fun _ => nofun, fun h => h⟩
  refine hs.keeps (.refl l) hkeeps hs.low (hs.high.accept hkey pub) (fun _ => .inl) (fun _ => .inl)
    (fun _ => .inl) ?_ hs.lowFixed hs.lowKey ?_ (fun _ => nofun) (fun _ => hfixed)
  · intro m hm
    refine (List.mem_append.mp hm).imp_right fun hnew => ?_
    rw [List.mem_singleton.mp hnew]
    exact .dh (h := h.accept pub) nofun
  · rintro _ ⟨⟩
    exact hmine

theorem Safe.lowFinish [LinearOrder Id] (hs : Safe C Generated l h up down) (htaken : l.peerPub ≠ none) :
    Safe C Generated l.finish h up down := by
  have hkeeps : Keeps l l.finish := ⟨rfl, rfl, rfl, rfl, rfl, rfl, fun h => h, fun h => h⟩
  exact hs.keeps hkeeps (.refl h) (hs.low.finish htaken) hs.high (fun _ => .inl) (fun _ => .inl)
    (fun _ => .inl) (fun _ => .inl) hs.lowFixed hs.lowKey hs.highKey hs.lowAfter hs.highAfter

theorem Safe.highFinish [LinearOrder Id] (hs : Safe C Generated l h up down) (htaken : h.peerPub ≠ none) :
    Safe C Generated l h.finish up down := by
  have hkeeps : Keeps h h.finish := ⟨rfl, rfl, rfl, rfl, rfl, rfl, fun h => h, fun h => h⟩
  exact hs.keeps (.refl l) hkeeps hs.low (hs.high.finish htaken) (fun _ => .inl) (fun _ => .inl)
    (fun _ => .inl) (fun _ => .inl) hs.lowFixed hs.lowKey hs.highKey hs.lowAfter hs.highAfter

end Moves

section Waiting

variable {Id : Type} {C : Crypto Id} {Generated : KeyPair → Prop} {l h : Part Id}
  {up down rest : List (Id × Payload)} {m : Id × Payload}

structure Good [LinearOrder Id] (C : Crypto Id) (Generated : KeyPair → Prop) (l h : Part Id)
    (up down : List (Id × Payload)) : Prop where
  safe : Safe C Generated l h up down
  due : Due l h up down

theorem mem_eraseIdx_of_ne {α : Type} {xs : List α} {i : ℕ} {x y : α} (hi : xs[i]? = some x)
    (hy : y ∈ xs) (hne : y ≠ x) : y ∈ xs.eraseIdx i := by
  obtain ⟨hlt, rfl⟩ := List.getElem?_eq_some_iff.mp hi
  have hperm := List.getElem_cons_eraseIdx_perm hlt
  rcases List.mem_cons.mp (hperm.mem_iff.mpr hy) with rfl | hrest
  · exact absurd rfl hne
  · exact hrest

/-- Before the initiator has its key pair, nothing that it is sent is missed. -/
theorem Good.lowDrop [LinearOrder Id] (hg : Good C Generated l h up (m :: rest)) (hkey : l.keyPair = none) :
    Good C Generated l h up rest where
  safe := hg.safe.lowCalled (fun _ h => h) (fun _ => .inl) fun _ => List.mem_cons_of_mem m
  due := { hg.due with
    commitment := fun hkeyed => absurd hkey hkeyed
    highsKey := fun htaken => absurd (hg.safe.low.blank hkey).peerCommit (hg.safe.highAfter htaken) }

/-- The responder misses only a hello, which its own commitment will make up for. -/
theorem Good.highDrop [LinearOrder Id] (hg : Good C Generated l h (m :: rest) down) (hkey : h.keyPair = none) :
    Good C Generated l h rest down where
  safe := hg.safe.highCalled (fun _ h => h) (fun _ => .inl) fun _ => List.mem_cons_of_mem m
  due := { hg.due with
    commitment := fun _ _ => .inl hkey
    lowsKey := by
      intro hfixed
      obtain ⟨commit, hcommit⟩ := Option.ne_none_iff_exists'.mp hfixed
      exact absurd ((hg.safe.high.blank hkey).myCommit.symm.trans (hg.safe.lowFixed _ hcommit)) nofun }

/-- Nothing has become of a message that the initiator did not need. -/
theorem Good.lowIgnore [LinearOrder Id] (hg : Good C Generated l h up (m :: rest))
    (hcommit : m = (l.id, commitPayload h.myCommit) → l.peerCommit ≠ none)
    (hdh : m = (l.id, dhPayload h.myPub) → l.peerPub ≠ none ∨ ∃ pub, .hashing pub ∈ l.calls) :
    Good C Generated l h up rest where
  safe := hg.safe.lowCalled (fun _ h => h) (fun _ => .inl) fun _ => List.mem_cons_of_mem m
  due := { hg.due with
    commitment := by
      intro hkey hfresh
      rcases hg.due.commitment hkey hfresh with hnone | hup | hdown | hheld
      · exact .inl hnone
      · exact .inr (.inl hup)
      · rcases List.mem_cons.mp hdown with heq | hrest
        · exact absurd hfresh (hcommit heq.symm)
        · exact .inr (.inr (.inl hrest))
      · exact .inr (.inr (.inr hheld))
    highsKey := by
      intro htaken hfresh
      rcases hg.due.highsKey htaken hfresh with hdown | hheld
      · rcases List.mem_cons.mp hdown with heq | hrest
        · exact .inr ((hdh heq.symm).resolve_left fun h => h hfresh)
        · exact .inl hrest
      · exact .inr hheld }

theorem Good.highIgnore [LinearOrder Id] (hg : Good C Generated l h (m :: rest) down)
    (hhello : m = (h.id, helloPayload) → l.peerCommit ≠ none)
    (hdh : m = (h.id, dhPayload l.myPub) → h.peerPub ≠ none) : Good C Generated l h rest down where
  safe := hg.safe.highCalled (fun _ h => h) (fun _ => .inl) fun _ => List.mem_cons_of_mem m
  due := { hg.due with
    commitment := by
      intro hkey hfresh
      rcases hg.due.commitment hkey hfresh with hnone | hup | hdown
      · exact .inl hnone
      · rcases List.mem_cons.mp hup with heq | hrest
        · exact absurd hfresh (hhello heq.symm)
        · exact .inr (.inl hrest)
      · exact .inr (.inr hdown)
    lowsKey := by
      intro hfixed hfresh
      rcases List.mem_cons.mp (hg.due.lowsKey hfixed hfresh) with heq | hrest
      · exact absurd hfresh (hdh heq.symm)
      · exact hrest }

theorem Stage.keyed_of_keyPair {p : Id} {role : Role} {u : Part Id}
    (hu : Stage C Generated p role u) (hkey : u.keyPair ≠ none) :
    ∃ kp, Generated kp ∧ u.keyPair = some kp ∧ u.myPub = some kp.publicKey ∧
      u.myCommit = some (C.commit kp.publicKey) ∧ Engaged p role u ∧
        (u.state = .handshaking ∨ u.state = .established ∧ u.peerPub ≠ none) := by
  cases hu with
  | away users peer blank => exact absurd blank.keyPair hkey
  | starting engaged blank => exact absurd blank.keyPair hkey
  | keyed engaged kp generated keyPair myPub myCommit state =>
      exact ⟨kp, generated, keyPair, myPub, myCommit, engaged, state⟩

theorem Stage.keyPair_of_myCommit {p : Id} {role : Role} {u : Part Id}
    (hu : Stage C Generated p role u) (hmine : u.myCommit ≠ none) : u.keyPair ≠ none :=
  fun hkey => hmine (hu.blank hkey).myCommit

/-- What is in the list of things said does not matter. -/
theorem Stage.said {p q : Id} {role : Role} {u : Part Id} (hu : Stage C Generated p role u)
    (payload : Payload) : Stage C Generated p role (u.say q payload) := by
  cases hu with
  | away users peer blank calls =>
      exact .away users peer ⟨blank.1, blank.2, blank.3, blank.4, blank.5⟩ calls
  | starting engaged blank state =>
      exact .starting ⟨engaged.1, engaged.2, engaged.3, engaged.4⟩
        ⟨blank.1, blank.2, blank.3, blank.4, blank.5⟩ state
  | keyed engaged kp generated keyPair myPub myCommit state =>
      exact .keyed ⟨engaged.1, engaged.2, engaged.3, engaged.4⟩ kp generated keyPair myPub myCommit
        state

theorem Good.lowSaid [LinearOrder Id] (hg : Good C Generated l h up down) (p : Id) (payload : Payload) :
    Good C Generated (l.say p payload) h up down where
  safe := hg.safe.keeps ⟨rfl, rfl, rfl, rfl, rfl, rfl, fun h => h, fun h => h⟩ (.refl h)
    (hg.safe.low.said payload) hg.safe.high (fun _ => .inl) (fun _ => .inl) (fun _ => .inl)
    (fun _ => .inl) hg.safe.lowFixed hg.safe.lowKey hg.safe.highKey hg.safe.lowAfter
    hg.safe.highAfter
  due := ⟨hg.due.1, hg.due.2, hg.due.3, hg.due.4, hg.due.5, hg.due.6, hg.due.7⟩

theorem Good.highSaid [LinearOrder Id] (hg : Good C Generated l h up down) (p : Id) (payload : Payload) :
    Good C Generated l (h.say p payload) up down where
  safe := hg.safe.keeps (.refl l) ⟨rfl, rfl, rfl, rfl, rfl, rfl, fun h => h, fun h => h⟩
    hg.safe.low (hg.safe.high.said payload) (fun _ => .inl) (fun _ => .inl) (fun _ => .inl)
    (fun _ => .inl) hg.safe.lowFixed hg.safe.lowKey hg.safe.highKey hg.safe.lowAfter
    hg.safe.highAfter
  due := ⟨hg.due.1, hg.due.2, hg.due.3, hg.due.4, hg.due.5, hg.due.6, hg.due.7⟩

theorem Good.lowFix [LinearOrder Id] (hg : Good C Generated l h up rest) (hkey : l.keyPair ≠ none) {commit : Bytes}
    (hfresh : l.peerCommit = none) (hmine : h.myCommit = some commit) :
    Good C Generated (l.fix commit) h (up ++ [(h.id, dhPayload l.myPub)]) rest where
  safe := hg.safe.lowFix hkey hmine
  due := { hg.due with
    lowKeyPair := hg.due.lowKeyPair
    commitment := nofun
    lowsKey := fun _ _ => List.mem_append_right _ (List.mem_singleton_self _)
    highsKey := fun htaken => absurd hfresh (hg.safe.highAfter htaken)
    lowDone := hg.due.lowDone }

theorem Due.lowCalled (hd : Due l h up down) {calls : List (Suspended Id)}
    (hstarting : l.keyPair = none → .starting h.id l.generation none ∈ l.calls →
      .starting h.id l.generation none ∈ calls)
    (hcommit : .resuming (commitPayload h.myCommit) ∈ l.calls →
      (l.id, commitPayload h.myCommit) ∈ rest ∨ .resuming (commitPayload h.myCommit) ∈ calls)
    (hhashing : l.peerPub = none → ∀ pub, .hashing pub ∈ l.calls → .hashing pub ∈ calls)
    (hfinalizing : ∀ s await, .finalizing s await ∈ l.calls → ∃ next, .finalizing s next ∈ calls)
    (hrest : ∀ m ∈ down, m ∈ rest) : Due { l with calls := calls } h up rest where
  lowKeyPair := fun hthere hkey => hstarting hkey (hd.lowKeyPair hthere hkey)
  highKeyPair := hd.highKeyPair
  commitment := by
    intro hkey hfresh
    rcases hd.commitment hkey hfresh with hnone | hup | hdown | hheld
    · exact .inl hnone
    · exact .inr (.inl hup)
    · exact .inr (.inr (.inl (hrest _ hdown)))
    · exact .inr (.inr (hcommit hheld))
  lowsKey := hd.lowsKey
  highsKey := by
    intro htaken hfresh
    rcases hd.highsKey htaken hfresh with hdown | ⟨pub, hheld⟩
    · exact .inl (hrest _ hdown)
    · exact .inr ⟨pub, hhashing hfresh pub hheld⟩
  lowDone := by
    intro htaken
    refine (hd.lowDone htaken).imp_right ?_
    rintro ⟨s, await, hmem⟩
    exact ⟨s, hfinalizing s await hmem⟩
  highDone := hd.highDone

theorem Due.highCalled (hd : Due l h up down) {calls : List (Suspended Id)}
    (hstarting : h.keyPair = none → .starting l.id h.generation none ∈ h.calls →
      .starting l.id h.generation none ∈ calls)
    (hfinalizing : ∀ s await, .finalizing s await ∈ h.calls → ∃ next, .finalizing s next ∈ calls)
    (hrest : ∀ m ∈ up, m ∈ rest) : Due l { h with calls := calls } rest down where
  lowKeyPair := hd.lowKeyPair
  highKeyPair := fun hthere hkey => hstarting hkey (hd.highKeyPair hthere hkey)
  commitment := by
    intro hkey hfresh
    refine (hd.commitment hkey hfresh).imp_right ?_
    exact Or.imp_left (hrest _)
  lowsKey := fun hfixed hfresh => hrest _ (hd.lowsKey hfixed hfresh)
  highsKey := hd.highsKey
  lowDone := hd.lowDone
  highDone := by
    intro htaken
    refine (hd.highDone htaken).imp_right ?_
    rintro ⟨s, await, hmem⟩
    exact ⟨s, hfinalizing s await hmem⟩

/-- One more call is suspended at the initiator. -/
theorem Good.lowSuspend [LinearOrder Id] (hg : Good C Generated l h up down) {call : Suspended Id}
    (hcall : LowCall l h call) (hthere : l.users ≠ []) :
    Good C Generated (l.suspend call) h up down := by
  have hold : ∀ {other}, other ∈ l.calls → other ∈ l.calls ++ [call] := List.mem_append_left _
  refine ⟨hg.safe.lowCalled (fun haway => absurd haway hthere) ?_ fun _ h => h,
    hg.due.lowCalled (fun _ => hold) (fun h => .inr (hold h)) (fun _ _ => hold)
      (fun s await h => ⟨await, hold h⟩) fun _ h => h⟩
  intro other hother
  refine (List.mem_append.mp hother).imp_right fun hnew => ?_
  rw [List.mem_singleton.mp hnew]
  exact hcall

theorem Good.highSuspend [LinearOrder Id] (hg : Good C Generated l h up down) {call : Suspended Id}
    (hcall : HighCall l h call) (hthere : h.users ≠ []) :
    Good C Generated l (h.suspend call) up down := by
  have hold : ∀ {other}, other ∈ h.calls → other ∈ h.calls ++ [call] := List.mem_append_left _
  refine ⟨hg.safe.highCalled (fun haway => absurd haway hthere) ?_ fun _ h => h,
    hg.due.highCalled (fun _ => hold) (fun s await h => ⟨await, hold h⟩) fun _ h => h⟩
  intro other hother
  refine (List.mem_append.mp hother).imp_right fun hnew => ?_
  rw [List.mem_singleton.mp hnew]
  exact hcall

/-- A message that was held back is as good as one that is only now received. -/
theorem Good.lowResumed [LinearOrder Id] (hg : Good C Generated l h up down) {i : ℕ} {payload : Payload}
    (hi : l.calls[i]? = some (.resuming payload)) :
    Good C Generated (l.erase i) h up ((l.id, payload) :: down) := by
  have hother : ∀ {other}, other ∈ l.calls → other ≠ .resuming payload →
      other ∈ l.calls.eraseIdx i := mem_eraseIdx_of_ne hi
  have hmem := List.mem_of_getElem? hi
  have hmessage : DownMessage l h (l.id, payload) := by
    cases hg.safe.lowCalls _ hmem with
    | hello => exact .hello
    | commit hmine => exact .commit hmine
  have hkeeps : Keeps l (l.erase i) := keeps_calls l _
  refine ⟨hg.safe.keeps hkeeps (.refl h) (hg.safe.low.retain ?_) hg.safe.high ?_ (fun _ => .inl)
    (fun _ => .inl) ?_ hg.safe.lowFixed hg.safe.lowKey hg.safe.highKey hg.safe.lowAfter
    hg.safe.highAfter, hg.due.lowCalled ?_ ?_ ?_ ?_ fun _ => List.mem_cons_of_mem _⟩
  · intro _ hnil
    rw [hnil]
    rfl
  · exact fun call hcall => .inl (List.mem_of_mem_eraseIdx hcall)
  · intro m hm
    rcases List.mem_cons.mp hm with rfl | hold
    · exact .inr (hmessage.keeps hkeeps (.refl h))
    · exact .inl hold
  · exact fun _ hstart => hother hstart nofun
  · intro hheld
    by_cases heq : payload = commitPayload h.myCommit
    · exact .inl (heq ▸ List.mem_cons_self)
    · exact .inr (hother hheld fun h => heq (Suspended.resuming.inj h).symm)
  · exact fun _ pub hhash => hother hhash nofun
  · exact fun s await hrun => ⟨await, hother hrun nofun⟩

theorem Good.highResumed [LinearOrder Id] (hg : Good C Generated l h up down) {i : ℕ} {payload : Payload}
    (hi : h.calls[i]? = some (.resuming payload)) :
    Good C Generated l (h.erase i) ((h.id, payload) :: up) down := by
  have hother : ∀ {other}, other ∈ h.calls → other ≠ .resuming payload →
      other ∈ h.calls.eraseIdx i := mem_eraseIdx_of_ne hi
  have hmem := List.mem_of_getElem? hi
  have hmessage : UpMessage l h (h.id, payload) := by
    cases hg.safe.highCalls _ hmem with
    | hello => exact .hello
  have hkeeps : Keeps h (h.erase i) := keeps_calls h _
  refine ⟨hg.safe.keeps (.refl l) hkeeps hg.safe.low (hg.safe.high.retain ?_) (fun _ => .inl) ?_
    ?_ (fun _ => .inl) hg.safe.lowFixed hg.safe.lowKey hg.safe.highKey hg.safe.lowAfter
    hg.safe.highAfter, hg.due.highCalled ?_ ?_ fun _ => List.mem_cons_of_mem _⟩
  · intro _ hnil
    rw [hnil]
    rfl
  · exact fun call hcall => .inl (List.mem_of_mem_eraseIdx hcall)
  · intro m hm
    rcases List.mem_cons.mp hm with rfl | hold
    · exact .inr (hmessage.keeps (.refl l) hkeeps)
    · exact .inl hold
  · exact fun _ hstart => hother hstart nofun
  · exact fun s await hrun => ⟨await, hother hrun nofun⟩

/-- A suspended call of the initiator that is neither of `startWith` nor of a message
has gone, in favour of another or because it is not needed. -/
theorem Good.lowReplaced [LinearOrder Id] (hg : Good C Generated l h up down) {i : ℕ} {call : Suspended Id}
    (hi : l.calls[i]? = some call) (hthere : l.users ≠ []) {more : List (Suspended Id)}
    (hmore : ∀ other ∈ more, LowCall l h other)
    (hcall : (∃ pub, call = .hashing pub) ∧ l.peerPub ≠ none ∨
      ∃ s await, call = .finalizing s await ∧ ∃ next, .finalizing s next ∈ more) :
    Good C Generated { l with calls := l.calls.eraseIdx i ++ more } h up down := by
  have hother : ∀ {other}, other ∈ l.calls → other ≠ call → other ∈ l.calls.eraseIdx i ++ more :=
    fun hmem hne => List.mem_append_left _ (mem_eraseIdx_of_ne hi hmem hne)
  refine ⟨hg.safe.lowCalled (fun haway => absurd haway hthere) ?_ fun _ h => h,
    hg.due.lowCalled ?_ ?_ ?_ ?_ fun _ h => h⟩
  · intro other hmem
    rcases List.mem_append.mp hmem with hold | hnew
    · exact .inl (List.mem_of_mem_eraseIdx hold)
    · exact .inr (hmore other hnew)
  · intro _ hstart
    apply hother hstart
    rcases hcall with ⟨⟨pub, rfl⟩, -⟩ | ⟨s, await, rfl, -⟩ <;> exact nofun
  · intro hheld
    refine .inr (hother hheld ?_)
    rcases hcall with ⟨⟨pub, rfl⟩, -⟩ | ⟨s, await, rfl, -⟩ <;> exact nofun
  · intro hfresh pub hhash
    apply hother hhash
    rcases hcall with ⟨-, htaken⟩ | ⟨s, await, rfl, -⟩
    · exact absurd hfresh htaken
    · exact nofun
  · intro s await hrun
    by_cases heq : .finalizing s await = call
    · subst heq
      rcases hcall with ⟨⟨pub, hhash⟩, -⟩ | ⟨s', await', hsame, next, hnext⟩
      · cases hhash
      · cases hsame
        exact ⟨next, List.mem_append_right _ hnext⟩
    · exact ⟨await, hother hrun heq⟩

theorem Good.highReplaced [LinearOrder Id] (hg : Good C Generated l h up down) {i : ℕ} {s : Session Id}
    {await next : Await Id} (hi : h.calls[i]? = some (.finalizing s await)) (hthere : h.users ≠ [])
    (hnext : HighCall l h (.finalizing s next)) : Good C Generated l
      { h with calls := h.calls.eraseIdx i ++ [.finalizing s next] } up down := by
  have hother : ∀ {other}, other ∈ h.calls → other ≠ .finalizing s await →
      other ∈ h.calls.eraseIdx i ++ [.finalizing s next] :=
    fun hmem hne => List.mem_append_left _ (mem_eraseIdx_of_ne hi hmem hne)
  refine ⟨hg.safe.highCalled (fun haway => absurd haway hthere) ?_ fun _ h => h,
    hg.due.highCalled ?_ ?_ fun _ h => h⟩
  · intro other hmem
    rcases List.mem_append.mp hmem with hold | hnew
    · exact .inl (List.mem_of_mem_eraseIdx hold)
    · rw [List.mem_singleton.mp hnew]
      exact .inr hnext
  · exact fun _ hstart => hother hstart nofun
  · intro s' await' hrun
    by_cases heq : .finalizing s' await' = Suspended.finalizing s await
    · cases heq
      exact ⟨next, List.mem_append_right _ (List.mem_singleton_self _)⟩
    · exact ⟨await', hother hrun heq⟩

theorem Good.lowFinish [LinearOrder Id] (hg : Good C Generated l h up down) {i : ℕ} {s : Session Id}
    {await : Await Id} (hi : l.calls[i]? = some (.finalizing s await)) :
    Good C Generated (l.erase i).finish h up down := by
  have hother : ∀ {other}, other ∈ l.calls → other ≠ .finalizing s await →
      other ∈ l.calls.eraseIdx i := mem_eraseIdx_of_ne hi
  have htaken : l.peerPub ≠ none := by
    cases hg.safe.lowCalls _ (List.mem_of_getElem? hi) with
    | finalizing _ htaken => exact htaken
  have hsafe : Safe C Generated (l.erase i) h up down :=
    hg.safe.lowCalled (fun _ hnil => by rw [hnil]; rfl)
      (fun _ hmem => .inl (List.mem_of_mem_eraseIdx hmem)) fun _ h => h
  exact {
    safe := hsafe.lowFinish htaken
    due := { hg.due with
      lowKeyPair := fun hthere hkey => hother (hg.due.lowKeyPair hthere hkey) nofun
      commitment := fun _ hfresh => absurd hfresh (hg.safe.highAfter (hg.safe.lowAfter htaken))
      lowsKey := hg.due.lowsKey
      highsKey := fun _ hfresh => absurd hfresh htaken
      lowDone := fun _ => .inl rfl } }

theorem Good.highFinish [LinearOrder Id] (hg : Good C Generated l h up down) {i : ℕ} {s : Session Id}
    {await : Await Id} (hi : h.calls[i]? = some (.finalizing s await)) :
    Good C Generated l (h.erase i).finish up down := by
  have hother : ∀ {other}, other ∈ h.calls → other ≠ .finalizing s await →
      other ∈ h.calls.eraseIdx i := mem_eraseIdx_of_ne hi
  have htaken : h.peerPub ≠ none := by
    cases hg.safe.highCalls _ (List.mem_of_getElem? hi) with
    | finalizing _ htaken => exact htaken
  have hsafe : Safe C Generated l (h.erase i) up down :=
    hg.safe.highCalled (fun _ hnil => by rw [hnil]; rfl)
      (fun _ hmem => .inl (List.mem_of_mem_eraseIdx hmem)) fun _ h => h
  exact {
    safe := hsafe.highFinish htaken
    due := { hg.due with
      highKeyPair := fun hthere hkey => hother (hg.due.highKeyPair hthere hkey) nofun
      commitment := fun _ hfresh => absurd hfresh (hg.safe.highAfter htaken)
      lowsKey := fun _ hfresh => absurd hfresh htaken
      highsKey := hg.due.highsKey
      highDone := fun _ => .inl rfl } }

/-- The responder takes the initiator's key. -/
theorem Good.highAccept [LinearOrder Id] (hg : Good C Generated l h up down) (hkey : h.keyPair ≠ none)
    (hthere : h.users ≠ []) {pub : Bytes} (hmine : l.myPub = some pub) (hfixed : l.peerCommit ≠ none)
    {s : Session Id} (hgen : s.gen = h.generation) :
    Good C Generated l ((h.accept pub).suspend (.finalizing s .agree)) up
      (down ++ [(l.id, dhPayload h.myPub)]) where
  safe := by
    have hsafe := hg.safe.highAccept hkey hmine hfixed
    refine hsafe.highCalled (fun haway => absurd haway hthere) ?_ fun _ h => h
    intro call hcall
    rcases List.mem_append.mp hcall with hold | hnew
    · exact .inl hold
    · rw [List.mem_singleton.mp hnew]
      exact .inr (.finalizing hgen nofun)
  due := {
    lowKeyPair := hg.due.lowKeyPair
    highKeyPair := fun _ hnone => absurd hnone hkey
    commitment := fun _ hfresh => absurd hfresh hfixed
    lowsKey := nofun
    highsKey := fun _ _ => .inl (List.mem_append_right _ (List.mem_singleton_self _))
    lowDone := hg.due.lowDone
    highDone := fun _ => .inr ⟨s, .agree, List.mem_append_right _ (List.mem_singleton_self _)⟩ }

/-- The responder answers a hello with its commitment. -/
theorem Good.highRepeat [LinearOrder Id] (hg : Good C Generated l h ((h.id, helloPayload) :: rest) down)
    (hmine : h.myCommit ≠ none) :
    Good C Generated l h rest (down ++ [(l.id, commitPayload h.myCommit)]) where
  safe := by
    refine hg.safe.keeps (.refl l) (.refl h) hg.safe.low hg.safe.high (fun _ => .inl)
      (fun _ => .inl) (fun _ hm => .inl (List.mem_cons_of_mem _ hm)) ?_ hg.safe.lowFixed
      hg.safe.lowKey hg.safe.highKey hg.safe.lowAfter hg.safe.highAfter
    intro m hm
    refine (List.mem_append.mp hm).imp_right fun hnew => ?_
    rw [List.mem_singleton.mp hnew]
    exact .commit hmine
  due := { hg.due with
    commitment := fun _ _ =>
      .inr (.inr (.inl (List.mem_append_right _ (List.mem_singleton_self _))))
    lowsKey := by
      intro hfixed hfresh
      rcases List.mem_cons.mp (hg.due.lowsKey hfixed hfresh) with heq | hrest
      · cases heq
      · exact hrest
    highsKey := fun htaken hfresh =>
      (hg.due.highsKey htaken hfresh).imp_left (List.mem_append_left _) }

theorem Stage.keyPair_of_peerCommit {p : Id} {role : Role} {u : Part Id}
    (hu : Stage C Generated p role u) (hfixed : u.peerCommit ≠ none) : u.keyPair ≠ none :=
  fun hkey => hfixed (hu.blank hkey).peerCommit

theorem Good.lowStored [LinearOrder Id] (hg : Good C Generated l h up down) (hthere : l.users ≠ [])
    (hkey : l.keyPair = none) {kp : KeyPair} (hkp : Generated kp) {calls : List (Suspended Id)}
    (hcalls : ∀ call ∈ calls, call ∈ l.calls)
    (hstarts : ∀ peer gen waiting, .starting peer gen waiting ∉ calls) :
    Good C Generated ({ l with calls := calls }.stored C kp) h (up ++ [(h.id, helloPayload)]) down := by
  have blank := hg.safe.low.blank hkey
  have hsafe : Safe C Generated { l with calls := calls } h up down :=
    hg.safe.lowCalled (fun haway => absurd haway hthere) (fun _ hmem => .inl (hcalls _ hmem))
      fun _ h => h
  exact {
    safe := hsafe.lowStored hthere hkey hkp hstarts
    due := {
      lowKeyPair := nofun
      highKeyPair := hg.due.highKeyPair
      commitment := fun _ _ => .inr (.inl (List.mem_append_right _ (List.mem_singleton_self _)))
      lowsKey := fun hfixed => absurd blank.peerCommit hfixed
      highsKey := fun htaken => absurd blank.peerCommit (hg.safe.highAfter htaken)
      lowDone := fun htaken => absurd blank.peerPub htaken
      highDone := hg.due.highDone } }

theorem Good.highStored [LinearOrder Id] (hg : Good C Generated l h up down) (hthere : h.users ≠ [])
    (hkey : h.keyPair = none) {kp : KeyPair} (hkp : Generated kp) {calls : List (Suspended Id)}
    (hcalls : ∀ call ∈ calls, call ∈ h.calls)
    (hstarts : ∀ peer gen waiting, .starting peer gen waiting ∉ calls) :
    Good C Generated l ({ h with calls := calls }.stored C kp) up
      (down ++ [(l.id, helloPayload), (l.id, commitPayload (some (C.commit kp.publicKey)))]) := by
  have blank := hg.safe.high.blank hkey
  have hsafe : Safe C Generated l { h with calls := calls } up down :=
    hg.safe.highCalled (fun haway => absurd haway hthere) (fun _ hmem => .inl (hcalls _ hmem))
      fun _ h => h
  exact {
    safe := hsafe.highStored hthere hkey hkp hstarts
    due := {
      lowKeyPair := hg.due.lowKeyPair
      highKeyPair := nofun
      commitment := fun _ _ => .inr (.inr (.inl (List.mem_append_right _ (by simp [Part.stored]))))
      lowsKey := by
        intro hfixed
        obtain ⟨commit, hcommit⟩ := Option.ne_none_iff_exists'.mp hfixed
        exact absurd (blank.myCommit.symm.trans (hg.safe.lowFixed _ hcommit)) nofun
      highsKey := fun htaken => absurd blank.peerPub htaken
      lowDone := hg.due.lowDone
      highDone := fun htaken => absurd blank.peerPub htaken } }

theorem Good.lowBegun [LinearOrder Id] (hg : Good C Generated l h up down)
    (haway : l.users = []) : Good C Generated (l.begun h.id) h up down where
  safe := hg.safe.lowBegun haway
  due := {
    lowKeyPair := fun _ _ => List.mem_append_right _ (List.mem_singleton_self _)
    highKeyPair := hg.due.highKeyPair
    commitment := fun hkey => absurd rfl hkey
    lowsKey := fun hfixed => absurd rfl hfixed
    highsKey := fun htaken =>
      absurd (hg.safe.low.blank_of_users haway).2.1.peerCommit (hg.safe.highAfter htaken)
    lowDone := fun htaken => absurd rfl htaken
    highDone := hg.due.highDone }

theorem Good.highBegun [LinearOrder Id] (hg : Good C Generated l h up down)
    (haway : h.users = []) : Good C Generated l (h.begun l.id) up down where
  safe := hg.safe.highBegun haway
  due := {
    lowKeyPair := hg.due.lowKeyPair
    highKeyPair := fun _ _ => List.mem_append_right _ (List.mem_singleton_self _)
    commitment := fun _ _ => .inl rfl
    lowsKey := by
      intro hfixed
      obtain ⟨commit, hcommit⟩ := Option.ne_none_iff_exists'.mp hfixed
      have hnone := (hg.safe.high.blank_of_users haway).2.1.myCommit
      exact absurd (hnone.symm.trans (hg.safe.lowFixed _ hcommit)) nofun
    highsKey := fun htaken => absurd rfl htaken
    lowDone := hg.due.lowDone
    highDone := fun htaken => absurd rfl htaken }

/-- The initiator takes the key that it has hashed. -/
theorem Good.lowAccept [LinearOrder Id] (hg : Good C Generated l h up down) (hkey : l.keyPair ≠ none)
    (hthere : l.users ≠ []) {pub : Bytes} (hmine : h.myPub = some pub) (htaken : h.peerPub ≠ none)
    {s : Session Id} (hgen : s.gen = l.generation) {calls : List (Suspended Id)}
    (hcalls : ∀ call ∈ calls, call ∈ l.calls) : Good C Generated
      (({ l with calls := calls }.accept pub).suspend (.finalizing s .agree)) h up down where
  safe := by
    have hsafe := hg.safe.lowAccept hkey hmine htaken
    have hcalled : ∀ call ∈ calls ++ [.finalizing s .agree],
        call ∈ (l.accept pub).calls ∨ LowCall (l.accept pub) h call := by
      intro call hcall
      rcases List.mem_append.mp hcall with hold | hnew
      · exact .inl (hcalls _ hold)
      · rw [List.mem_singleton.mp hnew]
        exact .inr (.finalizing hgen nofun)
    exact hsafe.lowCalled (fun haway => absurd haway hthere) hcalled fun _ h => h
  due := {
    lowKeyPair := fun _ hnone => absurd hnone hkey
    highKeyPair := hg.due.highKeyPair
    commitment := fun _ hfresh => absurd hfresh (hg.safe.highAfter htaken)
    lowsKey := hg.due.lowsKey
    highsKey := nofun
    lowDone := fun _ => .inr ⟨s, .agree, List.mem_append_right _ (List.mem_singleton_self _)⟩
    highDone := hg.due.highDone }

end Waiting

end Sozvon.E2EE
