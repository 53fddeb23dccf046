import Sozvon.Encryption
import Mathlib.Data.List.Nodup
import Mathlib.Data.List.Perm.Basic

/-!
# Sessions of the encryption controller

`resetPeer` and `fail` start a new generation, and a suspended `startWith` or
`finalize` of an older one does nothing when it goes on. Of the present
generation at most one `startWith` is suspended, and as long as it is there is
no key pair; every suspended `finalize` works from the fields as they are, and
what it has posted is what the worker holds.

All this is about a few parts of the controller only, its `View`, and most
statements of the code leave them as they are.
-/
namespace Sozvon.E2EE
open Runs Controller

section Definitions

variable {Id : Type}

/-- The generation of a `startWith` that has yet to store its key pair. -/
def Suspended.startGen? : Suspended Id → Option ℕ
  | .starting _ gen _ => some gen
  | _ => none

def Suspended.gen? : Suspended Id → Option ℕ
  | .starting _ gen _ => some gen
  | .finalizing s _ => some s.gen
  | _ => none

def Session.secret (C : Crypto Id) (s : Session Id) : Bytes :=
  C.agree s.keyPair.privateKey s.peerPub

def Session.salt (C : Crypto Id) (s : Session Id) (id : Id) : Bytes :=
  C.transcript (s.transcript id)

def Session.mediaKey (C : Crypto Id) (s : Session Id) (id : Id) (streamId : StreamId Id) : Bytes :=
  C.deriveMediaKey (s.secret C) (s.salt C id) streamId

/-- The chat key to send with, and the one to receive with. -/
def Session.chatKeys (C : Crypto Id) (s : Session Id) (id : Id) : Option Bytes × Option Bytes :=
  (some (C.deriveChatKey (s.secret C) (s.salt C id) id),
    some (C.deriveChatKey (s.secret C) (s.salt C id) s.peer))

structure View (Id : Type) where
  id : Id
  supported : Bool
  users : List Id
  peer : Option Id
  generation : ℕ
  keyPair : Option KeyPair
  session : Option (Session Id)
  secret : Option Bytes
  chat : Option Bytes × Option Bytes
  media : Worker Id
  state : CallState
  sas : Option (List String)
  calls : List (Suspended Id)

namespace View

variable (v : View Id)

/-- The worker has the media keys of `s` for these streams. -/
def Holds (C : Crypto Id) (s : Session Id) (streams : List (StreamId Id)) : Prop :=
  ∀ streamId ∈ streams, v.media.keys streamId 0 = some (s.mediaKey C v.id streamId)

/-- What a run of `finalize` that has come to `await` has done. Whether the worker
is still not in cleartext mode in the end is known in some runs only. -/
def Reached (C : Crypto Id) (safe : Prop) (s : Session Id) : Await Id → Prop
  | .agree => True
  | .transcript secret => secret = s.secret C ∧ v.secret = some (s.secret C)
  | .media secret salt streamId rest =>
      (secret = s.secret C ∧ v.secret = some (s.secret C)) ∧ salt = s.salt C v.id ∧
        ∃ done, s.streams v.id = done ++ streamId :: rest ∧ v.Holds C s done
  | .chat secret salt =>
      (secret = s.secret C ∧ v.secret = some (s.secret C)) ∧ salt = s.salt C v.id ∧
        v.Holds C s (s.streams v.id)
  | .sas secret salt =>
      (secret = s.secret C ∧ v.secret = some (s.secret C)) ∧ salt = s.salt C v.id ∧
        v.Holds C s (s.streams v.id) ∧ (safe → v.media.cleartextMode = false) ∧
          v.chat = s.chatKeys C v.id

def Waits : Prop :=
  ∃ s secret salt, Suspended.finalizing s (.sas secret salt) ∈ v.calls ∧ s.gen = v.generation

def HoldsKeys (C : Crypto Id) : Prop :=
  ∃ s, v.session = some s ∧ v.secret = some (s.secret C) ∧ v.Holds C s (s.streams v.id) ∧
    v.sas = some (C.deriveSAS (s.secret C) (s.salt C v.id)) ∧ v.chat = s.chatKeys C v.id

/-- There is at most one other participant where there is a peer: the peer. -/
def Placed : Prop := ∀ p, v.peer = some p → v.users = [p]

def push (call : Suspended Id) : View Id := { v with calls := v.calls ++ [call] }

def erase (i : ℕ) : View Id := { v with calls := v.calls.eraseIdx i }

def seat (users : List Id) (peer : Option Id) : View Id := { v with users := users, peer := peer }

def material (keyPair : Option KeyPair) (session : Option (Session Id)) : View Id :=
  { v with keyPair := keyPair, session := session }

def shown (cleartext : Bool) (state : CallState) : View Id :=
  { v with media := { v.media with cleartextMode := cleartext }, state := state }

def ended (sas : List String) : View Id := { v with state := .established, sas := some sas }

def agreed (secret : Bytes) : View Id := { v with secret := some secret }

def chatting (keys : Option Bytes × Option Bytes) : View Id := { v with chat := keys }

def keying (media : Worker Id) : View Id := { v with media := media }

def dropping : View Id := v.keying { v.media with cleartextMode := false }

end View

/-- The invariant, with what holds of the worker's mode in the `safe` runs only. -/
structure Core (C : Crypto Id) (safe : Prop) (v : View Id) : Prop where
  bound : ∀ call ∈ v.calls, ∀ gen ∈ call.gen?, gen ≤ v.generation
  starts : (v.calls.filterMap Suspended.startGen?).Nodup
  fresh : v.generation ∈ v.calls.filterMap Suspended.startGen? → v.keyPair = none
  runs : ∀ s await, Suspended.finalizing s await ∈ v.calls → s.gen = v.generation →
    v.session = some s ∧ v.Reached C safe s await
  able : v.media.cleartextMode = true → v.supported = true
  sendKeyId : v.media.sendKeyId = 0
  clear : safe → v.media.cleartextMode = true → v.state = .unencrypted
  keyed : v.state = .established → (safe → v.media.cleartextMode = false) ∧ v.HoldsKeys C

end Definitions

def Controller.view {Id : Type} [LinearOrder Id] (c : Controller Id) : View Id where
  id := c.id
  supported := c.supported
  users := c.users
  peer := c.peer
  generation := c.generation
  keyPair := c.keyPair
  session := c.session
  secret := c.secret
  chat := (c.chatSendKey, c.chatRecvKey)
  media := c.media
  state := c.state
  sas := c.sas
  calls := c.calls

namespace Core

variable {Id : Type} {C : Crypto Id} {safe : Prop} {v w : View Id}

theorem gen_le_of_starting (h : Core C safe v) {gen : ℕ}
    (hgen : gen ∈ v.calls.filterMap Suspended.startGen?) : gen ≤ v.generation := by
  obtain ⟨call, hcall, hstart⟩ := List.mem_filterMap.mp hgen
  apply h.bound call hcall
  cases call <;> simp_all [Suspended.startGen?, Suspended.gen?]

/-- A new generation begins with nothing of its own. -/
theorem renewed (h : Core C safe v) (hgen : v.generation < w.generation) (hcalls : w.calls = v.calls)
    (hable : w.media.cleartextMode = true → w.supported = true)
    (hkey : w.media.sendKeyId = 0)
    (hclear : w.media.cleartextMode = true → w.state = .unencrypted)
    (hstate : w.state ≠ .established) : Core C safe w where
  bound call hcall gen hg := by
    rw [hcalls] at hcall
    exact Nat.le_trans (h.bound call hcall gen hg) (Nat.le_of_lt hgen)
  starts := hcalls ▸ h.starts
  fresh hg := by
    rw [hcalls] at hg
    exact absurd (h.gen_le_of_starting hg) (Nat.not_le_of_lt hgen)
  runs s await hmem hs := by
    rw [hcalls] at hmem
    have hle := h.bound _ hmem s.gen rfl
    rw [hs] at hle
    exact absurd hle (Nat.not_le_of_lt hgen)
  able := hable
  sendKeyId := hkey
  clear _ := hclear
  keyed hs := absurd hs hstate

theorem seat (h : Core C safe v) (users : List Id) (peer : Option Id) : Core C safe (v.seat users peer) where
  bound := h.bound
  starts := h.starts
  fresh := h.fresh
  runs := h.runs
  able := h.able
  sendKeyId := h.sendKeyId
  clear := h.clear
  keyed := h.keyed

/-- Where `finalize` would find something missing, none is under way, and what
it reads can be set. -/
theorem material (h : Core C safe v) (hnone : v.session = none) {keyPair : Option KeyPair}
    {session : Option (Session Id)}
    (hfresh : v.generation ∈ v.calls.filterMap Suspended.startGen? → keyPair = none) :
    Core C safe (v.material keyPair session) where
  bound := h.bound
  starts := h.starts
  fresh := hfresh
  runs s await hmem hs := by
    have hsession := (h.runs s await hmem hs).1
    rw [hnone] at hsession
    cases hsession
  able := h.able
  sendKeyId := h.sendKeyId
  clear := h.clear
  keyed hs := by
    obtain ⟨s, hsession, -⟩ := (h.keyed hs).2
    rw [hnone] at hsession
    cases hsession

theorem erase (h : Core C safe v) (i : ℕ) : Core C safe (v.erase i) where
  bound call hcall := h.bound call (List.mem_of_mem_eraseIdx hcall)
  starts := h.starts.sublist ((List.eraseIdx_sublist _ _).filterMap _)
  fresh hgen := h.fresh (((List.eraseIdx_sublist _ _).filterMap _).subset hgen)
  runs s await hmem := h.runs s await (List.mem_of_mem_eraseIdx hmem)
  able := h.able
  sendKeyId := h.sendKeyId
  clear := h.clear
  keyed := h.keyed

/-- Once the `startWith` of a generation goes on, no other one is left. -/
theorem starting_erase (h : Core C safe v) {i : ℕ} {call : Suspended Id} {gen : ℕ}
    (hi : v.calls[i]? = some call) (hgen : call.startGen? = some gen) :
    gen ∉ (v.calls.eraseIdx i).filterMap Suspended.startGen? := by
  obtain ⟨hlt, rfl⟩ := List.getElem?_eq_some_iff.mp hi
  have hperm := (List.getElem_cons_eraseIdx_perm hlt).filterMap Suspended.startGen?
  have hnodup := hperm.nodup_iff.mpr h.starts
  rw [List.filterMap_cons_some hgen] at hnodup
  exact (List.nodup_cons.mp hnodup).1

theorem push (h : Core C safe v) {call : Suspended Id} (hgen : ∀ gen ∈ call.gen?, gen ≤ v.generation)
    (hstart : call.startGen? = none)
    (hrun : ∀ s await, call = .finalizing s await → s.gen = v.generation →
      v.session = some s ∧ v.Reached C safe s await) : Core C safe (v.push call) where
  bound other hother := by
    rcases List.mem_append.mp hother with hold | hnew
    · exact h.bound other hold
    · rw [List.mem_singleton.mp hnew]
      exact hgen
  starts := by simpa [View.push, hstart] using h.starts
  fresh hg := h.fresh (by simpa [View.push, hstart] using hg)
  runs s await hmem hs := by
    rcases List.mem_append.mp hmem with hold | hnew
    · exact h.runs s await hold hs
    · exact hrun s await (List.mem_singleton.mp hnew).symm hs
  able := h.able
  sendKeyId := h.sendKeyId
  clear := h.clear
  keyed := h.keyed

/-- A call that is neither of `startWith` nor of `finalize`. -/
theorem push_other (h : Core C safe v) {call : Suspended Id} (hgen : call.gen? = none) :
    Core C safe (v.push call) := by
  apply h.push
  · simp [hgen]
  · cases call <;> simp_all [Suspended.gen?, Suspended.startGen?]
  · rintro s await rfl
    cases hgen

theorem push_starting (h : Core C safe v) (hfresh : v.keyPair = none) {peer : Id}
    {waiting : Option Payload} (hnew : v.generation ∉ v.calls.filterMap Suspended.startGen?) :
    Core C safe (v.push (.starting peer v.generation waiting)) where
  bound other hother := by
    rcases List.mem_append.mp hother with hold | hnew
    · exact h.bound other hold
    · rw [List.mem_singleton.mp hnew]
      rintro gen ⟨⟩
      exact Nat.le_refl _
  starts := by
    rw [View.push, List.filterMap_append]
    exact List.Nodup.append h.starts (List.nodup_singleton _) (List.disjoint_singleton.mpr hnew)
  fresh _ := hfresh
  runs s await hmem hs := by
    rcases List.mem_append.mp hmem with hold | hnew
    · exact h.runs s await hold hs
    · cases List.mem_singleton.mp hnew
  able := h.able
  sendKeyId := h.sendKeyId
  clear := h.clear
  keyed := h.keyed

/-- A run of `finalize` stores the secret of the session. -/
theorem agreed (h : Core C safe v) {s : Session Id} (hs : v.session = some s) :
    Core C safe (v.agreed (s.secret C)) where
  bound := h.bound
  starts := h.starts
  fresh := h.fresh
  runs s' await hmem hgen := by
    obtain ⟨hsession, hreached⟩ := h.runs s' await hmem hgen
    obtain rfl : s = s' := Option.some.inj (hs.symm.trans hsession)
    refine ⟨hsession, ?_⟩
    cases await with
    | agree => trivial
    | transcript secret => exact ⟨hreached.1, rfl⟩
    | media secret salt streamId rest => exact ⟨⟨hreached.1.1, rfl⟩, hreached.2⟩
    | chat secret salt => exact ⟨⟨hreached.1.1, rfl⟩, hreached.2⟩
    | sas secret salt => exact ⟨⟨hreached.1.1, rfl⟩, hreached.2⟩
  able := h.able
  sendKeyId := h.sendKeyId
  clear := h.clear
  keyed hstate := by
    obtain ⟨hmode, s', hsession, -, hholds⟩ := h.keyed hstate
    obtain rfl : s = s' := Option.some.inj (hs.symm.trans hsession)
    exact ⟨hmode, s, hsession, rfl, hholds⟩

/-- A run of `finalize` stores the chat keys of the session. -/
theorem chatting (h : Core C safe v) {s : Session Id} (hs : v.session = some s) :
    Core C safe (v.chatting (s.chatKeys C v.id)) where
  bound := h.bound
  starts := h.starts
  fresh := h.fresh
  runs s' await hmem hgen := by
    obtain ⟨hsession, hreached⟩ := h.runs s' await hmem hgen
    obtain rfl : s = s' := Option.some.inj (hs.symm.trans hsession)
    refine ⟨hsession, ?_⟩
    cases await with
    | agree => trivial
    | transcript secret => exact hreached
    | media secret salt streamId rest => exact hreached
    | chat secret salt => exact hreached
    | sas secret salt =>
        exact ⟨hreached.1, hreached.2.1, hreached.2.2.1, hreached.2.2.2.1, rfl⟩
  able := h.able
  sendKeyId := h.sendKeyId
  clear := h.clear
  keyed hstate := by
    obtain ⟨hmode, s', hsession, hsecret, hholds, hsas, -⟩ := h.keyed hstate
    obtain rfl : s = s' := Option.some.inj (hs.symm.trans hsession)
    exact ⟨hmode, s, hsession, hsecret, hholds, hsas, rfl⟩

/-- The worker gets to hold more keys of the session, or stops forwarding in clear. -/
theorem keying (h : Core C safe v) {media : Worker Id}
    (hkeys : ∀ s streams, v.session = some s → v.Holds C s streams →
      (v.keying media).Holds C s streams)
    (hid : media.sendKeyId = v.media.sendKeyId)
    (hmode : media.cleartextMode = true → v.media.cleartextMode = true) :
    Core C safe (v.keying media) := by
  have hdrops : v.media.cleartextMode = false → media.cleartextMode = false := by
    intro hb
    cases hm : media.cleartextMode with
    | false => rfl
    | true => exact absurd (hb.symm.trans (hmode hm)) nofun
  exact {
    bound := h.bound
    starts := h.starts
    fresh := h.fresh
    runs := by
      intro s await hmem hgen
      obtain ⟨hsession, hreached⟩ := h.runs s await hmem hgen
      refine ⟨hsession, ?_⟩
      cases await with
      | agree => trivial
      | transcript secret => exact hreached
      | media secret salt streamId rest =>
          obtain ⟨hsecret, hsalt, done, hdone, hholds⟩ := hreached
          exact ⟨hsecret, hsalt, done, hdone, hkeys s done hsession hholds⟩
      | chat secret salt =>
          obtain ⟨hsecret, hsalt, hholds⟩ := hreached
          exact ⟨hsecret, hsalt, hkeys s _ hsession hholds⟩
      | sas secret salt =>
          obtain ⟨hsecret, hsalt, hholds, hb, hchat⟩ := hreached
          exact ⟨hsecret, hsalt, hkeys s _ hsession hholds, fun hsafe => hdrops (hb hsafe), hchat⟩
    able := fun hb => h.able (hmode hb)
    sendKeyId := hid.trans h.sendKeyId
    clear := fun hsafe hb => h.clear hsafe (hmode hb)
    keyed := by
      intro hstate
      obtain ⟨hb, s, hsession, hsecret, hholds, hsas⟩ := h.keyed hstate
      exact ⟨fun hsafe => hdrops (hb hsafe), s, hsession, hsecret, hkeys s _ hsession hholds, hsas⟩ }

theorem established (h : Core C safe v) (hmode : safe → v.media.cleartextMode = false)
    {sas : List String} (hkeys : (v.ended sas).HoldsKeys C) : Core C safe (v.ended sas) where
  bound := h.bound
  starts := h.starts
  fresh := h.fresh
  runs := h.runs
  able := h.able
  sendKeyId := h.sendKeyId
  clear hsafe hb := absurd ((hmode hsafe).symm.trans hb) nofun
  keyed _ := ⟨hmode, hkeys⟩

/-- The next `await` of a run of `finalize`. -/
theorem push_finalizing (h : Core C safe v) {s : Session Id} {await : Await Id}
    (hgen : s.gen = v.generation) (hs : v.session = some s) (hreached : v.Reached C safe s await) :
    Core C safe (v.push (.finalizing s await)) := by
  apply h.push
  · rintro gen ⟨⟩
    exact Nat.le_of_eq hgen
  · rfl
  · rintro _ _ ⟨⟩ -
    exact ⟨hs, hreached⟩

/-- Whatever is shown, the worker may be told to drop what it has no key for; it
may be told to forward in clear only if no run of `finalize` is about to show
the call as encrypted. -/
theorem shown (h : Core C safe v) {cleartext : Bool} {state : CallState} (hstate : state ≠ .established)
    (hclear : cleartext = true →
      v.supported = true ∧ state = .unencrypted ∧ (safe → ¬ v.Waits)) :
    Core C safe (v.shown cleartext state) where
  bound := h.bound
  starts := h.starts
  fresh := h.fresh
  runs s await hmem hs := by
    refine ⟨(h.runs s await hmem hs).1, ?_⟩
    have hreached := (h.runs s await hmem hs).2
    cases await with
    | agree => trivial
    | transcript secret => exact hreached
    | media secret salt streamId rest => exact hreached
    | chat secret salt => exact hreached
    | sas secret salt =>
        refine ⟨hreached.1, hreached.2.1, hreached.2.2.1, fun hsafe => ?_, hreached.2.2.2.2⟩
        cases hb : cleartext with
        | false => rfl
        | true => exact absurd ⟨s, secret, salt, hmem, hs⟩ ((hclear hb).2.2 hsafe)
  able hb := (hclear hb).1
  sendKeyId := h.sendKeyId
  clear _ hb := (hclear hb).2.1
  keyed hs := absurd hs hstate

end Core

structure Inv {Id : Type} (C : Crypto Id) (safe : Prop) (v : View Id) : Prop where
  core : Core C safe v
  placed : v.Placed

theorem Inv.push_other {Id : Type} {C : Crypto Id} {safe : Prop} {v : View Id} (h : Inv C safe v)
    {call : Suspended Id} (hgen : call.gen? = none) : Inv C safe (v.push call) :=
  ⟨h.core.push_other hgen, h.placed⟩

end Sozvon.E2EE
