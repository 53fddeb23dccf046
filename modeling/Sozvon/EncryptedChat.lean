import Sozvon.ChatTurns
import Sozvon.Utf16
import Mathlib.Logic.Function.Basic
import Mathlib.Tactic.NormNum

/-!
# Encrypted chat

The messages go through the server, which may hold them back, repeat and reorder
them, send them to anybody and change everything about them but what is sealed.
The encryption is ideal: a ciphertext is known by what it was made of, opens under
that only, and is made by a controller or is junk. Any number of controllers take part.
-/
namespace Sozvon.E2EE
open Runs Controller Utf16

/-! ## What is sealed -/

section Sealing

/-- What `writeUint48` writes. -/
def uint48 (n : ℤ) : Bytes := [40, 32, 24, 16, 8, 0].map fun k => UInt8.ofNat (n / 2 ^ k % 256).toNat

def lengthPrefixed (u8 : Bytes) : Bytes :=
  UInt8.ofNat (u8.length / 256) :: UInt8.ofNat u8.length :: u8

variable {Id : Type}

/-- `ids` gives the bytes of a participant's id. -/
def chatAAD (ids : Id → Bytes) (senderId recipientId : Id) (seq : ℤ) (kind : Units) : Bytes :=
  utf8 ("sozvon-chat-v" ++ toString PROTOCOL_VERSION).toList ++ (lengthPrefixed (ids senderId) ++
    (lengthPrefixed (ids recipientId) ++ (uint48 seq ++ lengthPrefixed (encode kind))))

/-- A ciphertext by what it was made of. The plaintext is that of these characters. -/
structure Box where
  key : Bytes
  iv : Bytes
  aad : Bytes
  plaintext : List Char
deriving DecidableEq

inductive Ciphertext where
  | box (b : Box)
  | junk (bytes : Bytes)
deriving DecidableEq

def encryptChat (key iv : Bytes) (text : Units) (aad : Bytes) : Ciphertext :=
  .box ⟨key, iv, aad, toChars text⟩

/-- Throws where there is no text. -/
def decryptChat (key iv : Bytes) (aad : Bytes) : Ciphertext → Option Units
  | .box b => if b.key = key ∧ b.iv = iv ∧ b.aad = aad then some (decode b.plaintext) else none
  | .junk _ => none

end Sealing

/-! ## Sending and receiving -/

section Definitions

variable {Id : Type}

/-- An `e2eechat` message as it arrives: `none` for what is not a string, not a whole number, or not
base64. -/
structure ChatPayload where
  kind : Option Units := none
  seq : Option ℤ := none
  iv : Option Bytes := none
  ct : Option Ciphertext := none

/-- The peers' ids, keys and commitment that the present session is made from. -/
def Controller.handshake (c : Controller Id) : Option (Transcript Id) :=
  c.session.map (·.transcript c.id)

/-- `sendChatNow` while it awaits the ciphertext. -/
structure Sealing (Id : Type) where
  peer : Id
  key : Bytes
  kind : Units
  text : Units
  seq : ℕ
  gen : ℕ
  handshake : Option (Transcript Id)

/-- `decryptChatNow` while it awaits the text. -/
structure Opening (Id : Type) where
  sender : Id
  key : Bytes
  iv : Bytes
  ct : Ciphertext
  seq : ℤ
  kind : Units
  gen : ℕ
  handshake : Option (Transcript Id)

/-- A message given to `userMessage`, and the session that it was written in. -/
structure SentChat (Id : Type) where
  sender : Id
  recipient : Id
  kind : Units
  text : Units
  seq : ℕ
  iv : Bytes
  ct : Ciphertext
  handshake : Option (Transcript Id)

/-- What `decryptChat` has returned, and in which session. -/
structure Accepted (Id : Type) where
  gen : ℕ
  sender : Id
  seq : ℤ
  kind : Units
  text : Units
  missed : ℤ
  handshake : Option (Transcript Id)

structure Chatter (Id : Type) where
  controller : Controller Id
  /-- Kind, text and generation of the messages that have yet to be sent. -/
  chatSendQueue : List (Units × Units × ℕ) := []
  sealing : Option (Sealing Id) := none
  chatRecvQueue : List (Id × ChatPayload) := []
  opening : Option (Opening Id) := none
  accepted : List (Accepted Id) := []

def Controller.canChat (c : Controller Id) : Bool :=
  c.state = .established && c.chatSendKey.isSome && c.peer.isSome

/-- Adding one to a large number does not change it. -/
def succNumber (n : ℕ) : ℕ := if n < 2 ^ 53 then n + 1 else n

namespace Chatter

def sendChat (s : Chatter Id) (kind text : Units) : Chatter Id :=
  if s.controller.canChat then
    { s with chatSendQueue := s.chatSendQueue ++ [(kind, text, s.controller.generation)] }
  else s

/-- The next message's turn has come. -/
def sendChatNow (s : Chatter Id) : Option (Chatter Id) :=
  match s.sealing, s.chatSendQueue with
  | none, (kind, text, gen) :: rest =>
      let s := { s with chatSendQueue := rest }
      if gen ≠ s.controller.generation ∨ s.controller.canChat = false then some s
      else
        match s.controller.peer, s.controller.chatSendKey with
        | some peer, some key => some { s with sealing := some {
            peer, key, kind, text, gen
            seq := s.controller.chatSendSeq
            handshake := s.controller.handshake } }
        | _, _ => some s
  | _, _ => none

/-- The message has been sealed; `userMessage` throws unless the socket is `up`. -/
def sealed (ids : Id → Bytes) (s : Chatter Id) (iv : Bytes) (up : Bool) :
    Option (Chatter Id × List (SentChat Id)) :=
  match s.sealing with
  | none => none
  | some z =>
      let s := { s with sealing := none }
      if z.gen ≠ s.controller.generation ∨ s.controller.canChat = false then some (s, [])
      else
        let message : SentChat Id := {
          sender := s.controller.id
          recipient := z.peer
          kind := z.kind
          text := z.text
          seq := z.seq
          iv
          ct := encryptChat z.key iv z.text (chatAAD ids s.controller.id z.peer z.seq z.kind)
          handshake := z.handshake }
        some ({ s with controller := { s.controller with chatSendSeq := succNumber z.seq } },
          if up then [message] else [])

def decryptChat (s : Chatter Id) (sender : Id) (payload : ChatPayload) : Chatter Id :=
  { s with chatRecvQueue := s.chatRecvQueue ++ [(sender, payload)] }

variable [DecidableEq Id]

def decryptChatNow (s : Chatter Id) : Option (Chatter Id) :=
  match s.opening, s.chatRecvQueue with
  | none, (sender, payload) :: rest =>
      let s := { s with chatRecvQueue := rest }
      if s.controller.state ≠ .established ∨ s.controller.peer ≠ some sender then some s
      else
        match s.controller.chatRecvKey, payload.iv, payload.ct, payload.seq with
        | some key, some iv, some ct, some seq =>
            if 2 ^ 53 - 1 < seq.natAbs ∨ seq ≤ s.controller.chatRecvSeq ∨ 2 ^ 48 ≤ seq then some s
            else some { s with opening := some {
              sender, key, iv, ct, seq
              kind := payload.kind.getD []
              gen := s.controller.generation
              handshake := s.controller.handshake } }
        | _, _, _, _ => some s
  | _, _ => none

/-- The message has been opened, or could not be. -/
def opened (ids : Id → Bytes) (s : Chatter Id) : Option (Chatter Id) :=
  match s.opening with
  | none => none
  | some o =>
      let s := { s with opening := none }
      match E2EE.decryptChat o.key o.iv (chatAAD ids o.sender s.controller.id o.seq o.kind) o.ct with
      | none => some s
      | some text =>
          if o.gen ≠ s.controller.generation then some s
          else some { s with
            controller := { s.controller with chatRecvSeq := o.seq }
            accepted := s.accepted ++ [{
              gen := o.gen
              sender := o.sender
              seq := o.seq
              kind := o.kind
              text
              missed := o.seq - s.controller.chatRecvSeq - 1
              handshake := o.handshake }] }

end Chatter

inductive ChatLabel (Id : Type) where
  | turn (a : Label Id)
  | sendChat (kind text : Units)
  | sendChatNow
  | sealed (iv : Bytes) (up : Bool)
  /-- The encryption fails. -/
  | unsealed
  | decryptChat (sender : Id) (payload : ChatPayload)
  | decryptChatNow
  | opened

variable [LinearOrder Id]

/-- A chatter's step, and what it sends. -/
def Chatter.step (C : Crypto Id) (ids : Id → Bytes) (s : Chatter Id) :
    ChatLabel Id → Option (Chatter Id × List (SentChat Id))
  | .turn a => (E2EE.step C s.controller a).map fun c => ({ s with controller := c }, [])
  | .sendChat kind text => some (s.sendChat kind text, [])
  | .sendChatNow => s.sendChatNow.map fun s => (s, [])
  | .sealed iv up => s.sealed ids iv up
  | .unsealed => s.sealing.map fun _ => ({ s with sealing := none }, [])
  | .decryptChat sender payload => some (s.decryptChat sender payload, [])
  | .decryptChatNow => s.decryptChatNow.map fun s => (s, [])
  | .opened => (s.opened ids).map fun s => (s, [])

structure ChatWorld (ι Id : Type) where
  chatters : ι → Chatter Id
  sent : List (SentChat Id) := []

def chatSystem {ι : Type} [DecidableEq ι] (C : Crypto Id) (ids : Id → Bytes) :
    System (ChatWorld ι Id) (ι × ChatLabel Id) where
  init w := (∀ i, ∃ c, (system C).init c ∧ w.chatters i = { controller := c }) ∧ w.sent = []
  step w move :=
    ((w.chatters move.1).step C ids move.2).map fun (s, messages) =>
      { chatters := Function.update w.chatters move.1 s, sent := w.sent ++ messages }

end Definitions

/-! ## What the server cannot do -/

section Claims

variable {ι Id : Type}

/-- A ciphertext that was not made up. -/
def Genuine (sent : List (SentChat Id)) (payload : ChatPayload) : Prop :=
  ∀ b, payload.ct = some (.box b) → ∃ m ∈ sent, m.ct = .box b

/-- The server can make no ciphertexts, only pass on those that were sent. -/
def Relayed (w : ChatWorld ι Id) : ι × ChatLabel Id → Prop
  | (_, .decryptChat _ payload) => Genuine w.sent payload
  | _ => True

/-- The text is well formed and has no byte order mark in front, the kind has no characters that
others are replaced with. -/
def Carried (_ : ChatWorld ι Id) : ι × ChatLabel Id → Prop
  | (_, .sendChat kind text) => Plain kind ∧ Lossless text
  | _ => True

/-- What a chat key is derived from. -/
structure Derivation (Id : Type) where
  secret : Bytes
  handshake : Transcript Id
  sender : Id

def Derivation.chatKey (C : Crypto Id) (d : Derivation Id) : Bytes :=
  C.deriveChatKey d.secret (C.transcript d.handshake) d.sender

/-- Different handshakes and senders have different chat keys. -/
def Separates (C : Crypto Id) (D : Set (Derivation Id)) : Prop :=
  ∀ d ∈ D, ∀ d' ∈ D, d.chatKey C = d'.chatKey C → d.handshake = d'.handshake ∧ d.sender = d'.sender

/-- The keys of a session that is established are derived from these. -/
def Controller.Derives (C : Crypto Id) (D : Set (Derivation Id)) (c : Controller Id) : Prop :=
  c.state = .established → ∀ session ∈ c.session, ∀ sender ∈ [c.id, session.peer],
    ⟨session.secret C, session.transcript c.id, sender⟩ ∈ D

def Derives (C : Crypto Id) (D : Set (Derivation Id)) (w : ChatWorld ι Id)
    (move : ι × ChatLabel Id) : Prop := (w.chatters move.1).controller.Derives C D

def Chatter.acceptedIn (s : Chatter Id) (gen : ℕ) : List (Accepted Id) :=
  s.accepted.filter fun x => x.gen = gen

def lastSeq (first : ℤ) (l : List (Accepted Id)) : ℤ := (l.getLast?.map (·.seq)).getD first

/-- What was sent to `id` in the session that it was accepted in. -/
structure Accepted.Carries (id : Id) (x : Accepted Id) (m : SentChat Id) : Prop where
  sender : m.sender = x.sender
  recipient : m.recipient = id
  inSession : m.handshake.isSome = true
  handshake : m.handshake = x.handshake
  seq : (m.seq : ℤ) % 2 ^ 48 = x.seq
  kind : m.kind = x.kind
  text : m.text = x.text

/-- What a chatter has accepted, session by session. -/
structure Chatter.Resists (sent : List (SentChat Id)) (s : Chatter Id) : Prop where
  increasing : ∀ gen, ((s.acceptedIn gen).map (·.seq)).Pairwise (· < ·)
  sent : ∀ x ∈ s.accepted, ∃ m ∈ sent, x.Carries s.controller.id m
  once : ∀ gen m, (s.acceptedIn gen).Pairwise fun x y =>
    x.Carries s.controller.id m → ¬ y.Carries s.controller.id m
  missed : ∀ gen before x after, s.acceptedIn gen = before ++ x :: after →
    x.missed = x.seq - lastSeq (-1) before - 1

end Claims

/-! ## What a message is bound to -/

section Binding

variable {Id : Type}

theorem uint48_inj {a b : ℤ} (h : uint48 a = uint48 b) : a % 2 ^ 48 = b % 2 ^ 48 := by
  have hbyte {x y : ℤ} (hxy : UInt8.ofNat (x % 256).toNat = UInt8.ofNat (y % 256).toNat) :
      x % 256 = y % 256 := by
    have hnat := congrArg UInt8.toNat hxy
    simp only [UInt8.toNat_ofNat'] at hnat
    omega
  simp only [uint48, List.map_cons, List.map_nil, List.cons.injEq, and_true] at h
  obtain ⟨h₅, h₄, h₃, h₂, h₁, h₀⟩ := h
  have h₅ := hbyte h₅
  have h₄ := hbyte h₄
  have h₃ := hbyte h₃
  have h₂ := hbyte h₂
  have h₁ := hbyte h₁
  have h₀ := hbyte h₀
  norm_num at h₅ h₄ h₃ h₂ h₁ h₀ ⊢
  omega

/-- For the same two participants it tells numbers and kinds apart. -/
theorem chatAAD_inj {ids : Id → Bytes} {sender recipient : Id} {a b : ℤ} {kind kind' : Units}
    (h : chatAAD ids sender recipient a kind = chatAAD ids sender recipient b kind') :
    a % 2 ^ 48 = b % 2 ^ 48 ∧ encode kind = encode kind' := by
  have hrest := List.append_cancel_left (List.append_cancel_left (List.append_cancel_left h))
  obtain ⟨hseq, hkind⟩ := List.append_inj hrest rfl
  exact ⟨uint48_inj hseq, (List.cons.inj (List.cons.inj hkind).2).2⟩

theorem session_peer {c : Controller Id} {s : Session Id} (h : c.session = some s) :
    c.peer = some s.peer := by
  unfold Controller.session at h
  dsimp only at h
  split at h
  · rename_i hpeer _
    cases h
    exact hpeer
  · cases h

/-- Two ends of one handshake. -/
theorem peer_of_transcript {s s' : Session Id} {a b : Id}
    (h : s'.transcript a = s.transcript b) (ha : a = s.peer) : s'.peer = b := by
  have hinitiator := congrArg Transcript.initiatorId h
  have hresponder := congrArg Transcript.responderId h
  simp only [Session.transcript] at hinitiator hresponder
  subst ha
  cases hs' : s'.initiator <;> cases hs : s.initiator <;>
    simp only [hs, hs', if_true, if_false, Bool.false_eq_true] at hinitiator hresponder
  · exact hinitiator.trans hresponder
  · exact hinitiator
  · exact hresponder
  · exact hresponder.trans hinitiator

end Binding

/-! ## Numbers -/

section Numbers

variable {Id : Type} {first : ℤ} {l : List (Accepted Id)}

def Counted : ℤ → List (Accepted Id) → Prop
  | _, [] => True
  | last, x :: l => last < x.seq ∧ x.missed = x.seq - last - 1 ∧ Counted x.seq l

theorem lastSeq_cons (x : Accepted Id) (l : List (Accepted Id)) :
    lastSeq first (x :: l) = lastSeq x.seq l := by
  cases l with
  | nil => rfl
  | cons y l =>
      simp only [lastSeq, List.getLast?_cons_cons]
      rw [List.getLast?_eq_some_getLast (List.cons_ne_nil y l)]
      rfl

theorem Counted.snoc (h : Counted first l) {x : Accepted Id} (hlt : lastSeq first l < x.seq)
    (hmissed : x.missed = x.seq - lastSeq first l - 1) : Counted first (l ++ [x]) := by
  induction l generalizing first with
  | nil => exact ⟨hlt, hmissed, trivial⟩
  | cons y l ih =>
      rw [lastSeq_cons] at hlt hmissed
      exact ⟨h.1, h.2.1, ih h.2.2 hlt hmissed⟩

theorem Counted.increasing (h : Counted first l) :
    (∀ x ∈ l, first < x.seq) ∧ (l.map (·.seq)).Pairwise (· < ·) := by
  induction l generalizing first with
  | nil => exact ⟨fun x hx => (by cases hx), List.Pairwise.nil⟩
  | cons y l ih =>
      obtain ⟨hrest, hpairwise⟩ := ih h.2.2
      refine ⟨fun x hx => ?_, ?_⟩
      · rcases List.mem_cons.mp hx with rfl | hx
        · exact h.1
        · exact Int.lt_trans h.1 (hrest x hx)
      · rw [List.map_cons]
        refine List.Pairwise.cons (fun n hn => ?_) hpairwise
        obtain ⟨x, hx, rfl⟩ := List.mem_map.mp hn
        exact hrest x hx

theorem Counted.missed (h : Counted first l) {before after : List (Accepted Id)} {x : Accepted Id}
    (hl : l = before ++ x :: after) : x.missed = x.seq - lastSeq first before - 1 := by
  induction before generalizing first l with
  | nil =>
      subst hl
      exact h.2.1
  | cons y before ih =>
      subst hl
      rw [lastSeq_cons]
      exact ih h.2.2 rfl

theorem lastSeq_snoc (l : List (Accepted Id)) (x : Accepted Id) : lastSeq first (l ++ [x]) = x.seq := by
  rw [lastSeq, List.getLast?_concat]
  rfl

theorem acceptedIn_of_eq {s t : Chatter Id} {x : Accepted Id} {gen : ℕ}
    (h : t.accepted = s.accepted ++ [x]) (hgen : x.gen = gen) :
    t.acceptedIn gen = s.acceptedIn gen ++ [x] := by
  rw [Chatter.acceptedIn, h, List.filter_append, List.filter_cons_of_pos (by simpa using hgen)]
  rfl

theorem acceptedIn_of_ne {s t : Chatter Id} {x : Accepted Id} {gen : ℕ}
    (h : t.accepted = s.accepted ++ [x]) (hgen : x.gen ≠ gen) : t.acceptedIn gen = s.acceptedIn gen := by
  rw [Chatter.acceptedIn, h, List.filter_append, List.filter_cons_of_neg (by simpa using hgen),
    List.filter_nil, List.append_nil]
  rfl

end Numbers

/-! ## Every run -/

section Invariant

variable {Id : Type} [LinearOrder Id] {C : Crypto Id} {D : Set (Derivation Id)} {ids : Id → Bytes}
  {sent sent' : List (SentChat Id)} {s : Chatter Id}

/-- Made with the key of its sender in a handshake with its recipient. -/
structure SentChat.Genuine (C : Crypto Id) (D : Set (Derivation Id)) (ids : Id → Bytes)
    (m : SentChat Id) : Prop where
  plain : Plain m.kind
  lossless : Lossless m.text
  made : ∃ (secret : Bytes) (session : Session Id), m.recipient = session.peer ∧
    m.handshake = some (session.transcript m.sender) ∧
    ∃ d ∈ D, d = ⟨secret, session.transcript m.sender, m.sender⟩ ∧
      m.ct = encryptChat (d.chatKey C) m.iv m.text (chatAAD ids m.sender m.recipient m.seq m.kind)

structure Sealing.Sound (C : Crypto Id) (D : Set (Derivation Id)) (id : Id) (z : Sealing Id) :
    Prop where
  plain : Plain z.kind
  lossless : Lossless z.text
  keyed : ∃ (secret : Bytes) (session : Session Id), z.peer = session.peer ∧
    z.handshake = some (session.transcript id) ∧
    ∃ d ∈ D, d = ⟨secret, session.transcript id, id⟩ ∧ z.key = d.chatKey C

structure Opening.Sound (C : Crypto Id) (D : Set (Derivation Id)) (sent : List (SentChat Id))
    (c : Controller Id) (o : Opening Id) : Prop where
  low : 0 ≤ o.seq
  high : o.seq < 2 ^ 48
  genuine : ∀ b, o.ct = .box b → ∃ m ∈ sent, m.ct = .box b
  keyed : ∃ (secret : Bytes) (session : Session Id), o.sender = session.peer ∧
    o.handshake = some (session.transcript c.id) ∧
    ∃ d ∈ D, d = ⟨secret, session.transcript c.id, session.peer⟩ ∧ o.key = d.chatKey C
  gen : o.gen ≤ c.generation
  current : o.gen = c.generation → c.Done ∧ c.chatRecvSeq < o.seq

structure Chatter.Sound (C : Crypto Id) (D : Set (Derivation Id)) (sent : List (SentChat Id))
    (s : Chatter Id) : Prop where
  regular : Regular C s.controller
  floor : -1 ≤ s.controller.chatRecvSeq
  queued : ∀ e ∈ s.chatSendQueue, Plain e.1 ∧ Lossless e.2.1
  received : ∀ e ∈ s.chatRecvQueue, Genuine sent e.2
  sealing : ∀ z ∈ s.sealing, z.Sound C D s.controller.id
  opening : ∀ o ∈ s.opening, o.Sound C D sent s.controller
  gens : ∀ x ∈ s.accepted, x.gen ≤ s.controller.generation
  current : lastSeq (-1) (s.acceptedIn s.controller.generation) = s.controller.chatRecvSeq
  done : s.acceptedIn s.controller.generation ≠ [] → s.controller.Done
  counted : ∀ gen, Counted (-1) (s.acceptedIn gen)
  origin : ∀ x ∈ s.accepted, ∃ m ∈ sent, x.Carries s.controller.id m

namespace Chatter.Sound

theorem mono (h : s.Sound C D sent) (hsub : ∀ m ∈ sent, m ∈ sent') : s.Sound C D sent' where
  regular := h.regular
  floor := h.floor
  queued := h.queued
  received e he b hb := by
    obtain ⟨m, hm, hct⟩ := h.received e he b hb
    exact ⟨m, hsub m hm, hct⟩
  sealing := h.sealing
  opening o ho := by
    have hopening := h.opening o ho
    refine { hopening with genuine := fun b hb => ?_ }
    obtain ⟨m, hm, hct⟩ := hopening.genuine b hb
    exact ⟨m, hsub m hm, hct⟩
  gens := h.gens
  current := h.current
  done := h.done
  counted := h.counted
  origin x hx := by
    obtain ⟨m, hm, hrest⟩ := h.origin x hx
    exact ⟨m, hsub m hm, hrest⟩

theorem init {c : Controller Id} (h : (system C).init c) :
    Chatter.Sound C D sent ({ controller := c } : Chatter Id) := by
  have hseq : c.chatRecvSeq = -1 := by
    obtain ⟨id, supported, wasEncrypted, rfl⟩ := h
    rfl
  exact {
    regular := .init h
    floor := by rw [hseq]
    queued := fun e he => by cases he
    received := fun e he => by cases he
    sealing := fun z hz => by cases hz
    opening := fun o ho => by cases ho
    gens := fun x hx => by cases hx
    current := hseq.symm
    done := fun h => absurd rfl h
    counted := fun gen => trivial
    origin := fun x hx => by cases hx }

/-- Nothing has been accepted in a later generation. -/
theorem acceptedIn_later (h : s.Sound C D sent) {gen : ℕ} (hgen : s.controller.generation < gen) :
    s.acceptedIn gen = [] := by
  refine List.filter_eq_nil_iff.mpr fun x hx heq => ?_
  have hle := h.gens x hx
  have hsame : x.gen = gen := of_decide_eq_true heq
  omega

theorem turn (h : s.Sound C D sent) {a : Label Id} {d : Controller Id}
    (hstep : E2EE.step C s.controller a = some d) :
    Chatter.Sound C D sent { s with controller := d } := by
  have hregular := h.regular.step hstep
  cases chatTurn_of_step hstep with
  | quiet hquiet =>
      rcases hquiet with hkept | ⟨hid, hgen, hchat⟩
      · have hid : d.id = s.controller.id := congrArg (·.1) hkept
        have hgen : d.generation = s.controller.generation := congrArg (·.2.1) hkept
        have hseq : d.chatRecvSeq = s.controller.chatRecvSeq := congrArg (·.2.2.recvSeq) hkept
        have hdone (hdone : s.controller.Done) : d.Done := h.regular.done_step hdone hstep hgen
        refine ⟨hregular, hseq ▸ h.floor, h.queued, h.received, fun z hz => hid ▸ h.sealing z hz,
          fun o ho => ?_, fun x hx => hgen ▸ h.gens x hx, ?_, ?_, h.counted,
          fun x hx => hid ▸ h.origin x hx⟩
        · have hopening := h.opening o ho
          refine ⟨hopening.low, hopening.high, hopening.genuine, hid ▸ hopening.keyed,
            hgen ▸ hopening.gen, fun heq => ?_⟩
          obtain ⟨hover, hlt⟩ := hopening.current (heq.trans hgen)
          exact ⟨hdone hover, hseq ▸ hlt⟩
        · change lastSeq (-1) (s.acceptedIn d.generation) = d.chatRecvSeq
          rw [hgen, hseq]
          exact h.current
        · intro hsome
          change s.acceptedIn d.generation ≠ [] at hsome
          rw [hgen] at hsome
          exact hdone (h.done hsome)
      · have hseq : d.chatRecvSeq = -1 := congrArg ChatFields.recvSeq hchat
        have hnone : s.acceptedIn d.generation = [] := h.acceptedIn_later hgen
        refine ⟨hregular, hseq ▸ le_refl _, h.queued, h.received, fun z hz => hid ▸ h.sealing z hz,
          fun o ho => ?_, fun x hx => (h.gens x hx).trans hgen.le, ?_, fun hsome => absurd hnone hsome,
          h.counted, fun x hx => hid ▸ h.origin x hx⟩
        · have hopening := h.opening o ho
          refine ⟨hopening.low, hopening.high, hopening.genuine, hid ▸ hopening.keyed,
            hopening.gen.trans hgen.le, fun heq => ?_⟩
          have hle := hopening.gen
          change o.gen = d.generation at heq
          omega
        · change lastSeq (-1) (s.acceptedIn d.generation) = d.chatRecvSeq
          rw [hnone, hseq]
          rfl
  | keyed session secret salt current gen hid hgen hseq =>
      -- the run is not over, so nothing has been accepted in this generation
      have hrunning (hdone : s.controller.Done) : False := by
        have hruns := hdone.calls _ current
        simp [Suspended.runs, gen] at hruns
      have hnone : s.acceptedIn d.generation = [] := by
        rw [hgen]
        by_contra hsome
        exact hrunning (h.done hsome)
      refine ⟨hregular, hseq ▸ le_refl _, h.queued, h.received, fun z hz => hid ▸ h.sealing z hz,
        fun o ho => ?_, fun x hx => hgen ▸ h.gens x hx, ?_, fun hsome => absurd hnone hsome,
        h.counted, fun x hx => hid ▸ h.origin x hx⟩
      · have hopening := h.opening o ho
        refine ⟨hopening.low, hopening.high, hopening.genuine, hid ▸ hopening.keyed,
          hgen ▸ hopening.gen, fun heq => ?_⟩
        exact (hrunning (hopening.current (heq.trans hgen)).1).elim
      · change lastSeq (-1) (s.acceptedIn d.generation) = d.chatRecvSeq
        rw [hnone, hseq]
        rfl

/-- While the session is established the keys are those of its handshake. -/
theorem keys_of_established {c : Controller Id} (h : Regular C c) (hD : c.Derives C D)
    (hstate : c.state = .established) :
    ∃ (secret : Bytes) (session : Session Id), c.peer = some session.peer ∧
      c.handshake = some (session.transcript c.id) ∧
      (∃ d ∈ D, d = ⟨secret, session.transcript c.id, c.id⟩ ∧ c.chatSendKey = some (d.chatKey C)) ∧
      ∃ d ∈ D, d = ⟨secret, session.transcript c.id, session.peer⟩ ∧
        c.chatRecvKey = some (d.chatKey C) := by
  obtain ⟨session, hsession, -, -, -, hchat⟩ := (h.inv.core.keyed hstate).2
  change c.session = some session at hsession
  change (c.chatSendKey, c.chatRecvKey) = session.chatKeys C c.id at hchat
  have hderives := hD hstate session hsession
  refine ⟨session.secret C, session, session_peer hsession, ?_,
    ⟨_, hderives c.id (List.mem_cons_self ..), rfl, congrArg Prod.fst hchat⟩,
    ⟨_, hderives session.peer (List.mem_cons_of_mem _ (List.mem_cons_self ..)), rfl,
      congrArg Prod.snd hchat⟩⟩
  rw [Controller.handshake, hsession]
  rfl

theorem sendChat (h : s.Sound C D sent) {kind text : Units} (hkind : Plain kind)
    (htext : Lossless text) : (s.sendChat kind text).Sound C D sent := by
  unfold Chatter.sendChat
  split
  · refine { h with queued := fun e he => ?_ }
    rcases List.mem_append.mp he with he | he
    · exact h.queued e he
    · rw [List.mem_singleton.mp he]
      exact ⟨hkind, htext⟩
  · exact h

theorem sendChatNow (h : s.Sound C D sent) (hD : s.controller.Derives C D) {t : Chatter Id}
    (hstep : s.sendChatNow = some t) : t.Sound C D sent := by
  unfold Chatter.sendChatNow at hstep
  split at hstep
  · rename_i kind text gen rest hnone hqueue
    have hqueued (e : Units × Units × ℕ) (he : e ∈ rest) : Plain e.1 ∧ Lossless e.2.1 :=
      h.queued e (hqueue ▸ List.mem_cons_of_mem _ he)
    have hskip : Chatter.Sound C D sent { s with chatSendQueue := rest } :=
      { h with queued := hqueued }
    dsimp only at hstep
    split at hstep
    · cases hstep
      exact hskip
    · rename_i hcurrent
      have hcan : s.controller.canChat = true :=
        Bool.not_eq_false _ ▸ fun hno => hcurrent (Or.inr hno)
      split at hstep
      · rename_i peer key hpeer hkey
        cases hstep
        refine { hskip with sealing := fun z hz => ?_ }
        obtain rfl := Option.mem_some_iff.mp hz
        obtain ⟨hplain, hlossless⟩ := h.queued (kind, text, gen) (hqueue ▸ List.mem_cons_self ..)
        have hstate : s.controller.state = .established := by
          simp only [Controller.canChat, Bool.and_eq_true, decide_eq_true_eq] at hcan
          exact hcan.1.1
        obtain ⟨secret, session, hpeer', hhandshake, ⟨d, hd, hderived, hkey'⟩, -⟩ :=
          keys_of_established h.regular hD hstate
        exact ⟨hplain, hlossless, secret, session, Option.some.inj (hpeer.symm.trans hpeer'),
          hhandshake, d, hd, hderived, Option.some.inj (hkey.symm.trans hkey')⟩
      · cases hstep
        exact hskip
  · cases hstep

/-- The number of the next message to send is nobody else's concern. -/
theorem numbered (h : s.Sound C D sent) (seq : ℕ) :
    Chatter.Sound C D sent { s with
      controller := { s.controller with chatSendSeq := seq }, sealing := none } where
  regular := ⟨h.regular.inv, h.regular.single⟩
  floor := h.floor
  queued := h.queued
  received := h.received
  sealing z hz := by cases hz
  opening o ho := by
    have hopening := h.opening o ho
    refine ⟨hopening.low, hopening.high, hopening.genuine, hopening.keyed, hopening.gen, fun heq => ?_⟩
    obtain ⟨hdone, hlt⟩ := hopening.current heq
    exact ⟨⟨hdone.peerPub, hdone.calls⟩, hlt⟩
  gens := h.gens
  current := h.current
  done hsome := ⟨(h.done hsome).peerPub, (h.done hsome).calls⟩
  counted := h.counted
  origin := h.origin

theorem unsealed (h : s.Sound C D sent) : Chatter.Sound C D sent { s with sealing := none } :=
  { h with sealing := fun z hz => by cases hz }

theorem sealed (h : s.Sound C D sent) {iv : Bytes} {up : Bool} {t : Chatter Id}
    {messages : List (SentChat Id)} (hstep : s.sealed ids iv up = some (t, messages)) :
    t.Sound C D sent ∧ ∀ m ∈ messages, m.Genuine C D ids := by
  unfold Chatter.sealed at hstep
  split at hstep
  · cases hstep
  · rename_i z hz
    have hsealing := h.sealing z hz
    dsimp only at hstep
    split at hstep
    · cases hstep
      exact ⟨h.unsealed, fun m hm => by cases hm⟩
    · cases hstep
      refine ⟨h.numbered (succNumber z.seq), fun m hm => ?_⟩
      cases up with
      | false => cases hm
      | true =>
          obtain rfl := List.mem_singleton.mp hm
          obtain ⟨secret, session, hpeer, hhandshake, d, hd, hderived, hkey⟩ := hsealing.keyed
          exact ⟨hsealing.plain, hsealing.lossless, secret, session, hpeer, hhandshake, d, hd,
            hderived, hkey ▸ rfl⟩

theorem decryptChat (h : s.Sound C D sent) {sender : Id} {payload : ChatPayload}
    (hpayload : Genuine sent payload) : (s.decryptChat sender payload).Sound C D sent := by
  refine { h with received := fun e he => ?_ }
  rcases List.mem_append.mp he with he | he
  · exact h.received e he
  · rw [List.mem_singleton.mp he]
    exact hpayload

theorem decryptChatNow (h : s.Sound C D sent) (hD : s.controller.Derives C D) {t : Chatter Id}
    (hstep : s.decryptChatNow = some t) : t.Sound C D sent := by
  unfold Chatter.decryptChatNow at hstep
  split at hstep
  · rename_i sender payload rest hnone hqueue
    have hreceived (e : Id × ChatPayload) (he : e ∈ rest) : Genuine sent e.2 :=
      h.received e (hqueue ▸ List.mem_cons_of_mem _ he)
    have hskip : Chatter.Sound C D sent { s with chatRecvQueue := rest } :=
      { h with received := hreceived }
    dsimp only at hstep
    split at hstep
    · cases hstep
      exact hskip
    rename_i hpeer
    obtain ⟨hstate, hpeer⟩ := not_or.mp hpeer
    have hstate : s.controller.state = .established := not_not.mp hstate
    split at hstep
    · rename_i key iv ct seq hkey hiv hct hseq
      split at hstep
      · cases hstep
        exact hskip
      · rename_i hrange
        cases hstep
        refine { hskip with opening := fun o ho => ?_ }
        obtain rfl := Option.mem_some_iff.mp ho
        obtain ⟨secret, session, hpeer', hhandshake, -, d, hd, hderived, hkey'⟩ :=
          keys_of_established h.regular hD hstate
        have hsender : sender = session.peer :=
          Option.some.inj ((not_not.mp hpeer).symm.trans hpeer')
        have hfloor := h.floor
        have hlow : s.controller.chatRecvSeq < seq := by omega
        exact {
          low := by
            change (0 : ℤ) ≤ seq
            omega
          high := by
            change seq < 2 ^ 48
            omega
          genuine := fun b hb => h.received (sender, payload) (hqueue ▸ List.mem_cons_self ..) b
            (hct.trans (congrArg some hb))
          keyed := ⟨secret, session, hsender, hhandshake, d, hd, hderived,
            Option.some.inj (hkey.symm.trans hkey')⟩
          gen := Nat.le_refl _
          current := fun _ => ⟨h.regular.single.done hstate, hlow⟩ }
    · cases hstep
      exact hskip
  · cases hstep

omit [LinearOrder Id] in
/-- What opens is what the peer has sealed in this handshake. -/
theorem carries_of_opened (hC : Separates C D) (hsent : ∀ m ∈ sent, m.Genuine C D ids)
    {c : Controller Id} {o : Opening Id} (ho : o.Sound C D sent c) {text : Units}
    (hopen : E2EE.decryptChat o.key o.iv (chatAAD ids o.sender c.id o.seq o.kind) o.ct = some text)
    (missed : ℤ) :
    ∃ m ∈ sent, Accepted.Carries c.id
      ⟨o.gen, o.sender, o.seq, o.kind, text, missed, o.handshake⟩ m := by
  unfold E2EE.decryptChat at hopen
  split at hopen
  · rename_i b hb
    split at hopen
    · rename_i hbox
      obtain ⟨hkey, -, haad⟩ := hbox
      obtain ⟨m, hm, hct⟩ := ho.genuine b hb
      have hgenuine := hsent m hm
      obtain ⟨secret, session, hrecipient, hhandshake, d, hd, rfl, hmade⟩ := hgenuine.made
      obtain ⟨secret', session', hsender', hhandshake', d', hd', rfl, hkey'⟩ := ho.keyed
      have hbox := Ciphertext.box.inj (hct.symm.trans hmade)
      subst hbox
      obtain ⟨htranscript, hsender⟩ : session.transcript m.sender = session'.transcript c.id ∧
          m.sender = session'.peer := hC _ hd _ hd' (hkey.trans hkey')
      have hpeer : m.recipient = c.id :=
        hrecipient.trans (peer_of_transcript htranscript hsender)
      have hauthor : m.sender = o.sender := hsender.trans hsender'.symm
      dsimp only at haad
      rw [hauthor, hpeer] at haad
      obtain ⟨hseq, hkind⟩ := chatAAD_inj haad
      refine ⟨m, hm, hauthor, hpeer, by rw [hhandshake]; rfl, ?_, ?_,
        (eq_of_encode hgenuine.plain hkind.symm).symm, ?_⟩
      · rw [hhandshake, htranscript]
        exact hhandshake'.symm
      · rw [hseq]
        exact Int.emod_eq_of_lt ho.low ho.high
      · exact (decode_toChars hgenuine.lossless).symm.trans (Option.some.inj hopen)
    · cases hopen
  · cases hopen

theorem opened (h : s.Sound C D sent) (hC : Separates C D) (hsent : ∀ m ∈ sent, m.Genuine C D ids)
    {t : Chatter Id} (hstep : s.opened ids = some t) : t.Sound C D sent := by
  unfold Chatter.opened at hstep
  split at hstep
  · cases hstep
  · rename_i o ho
    have hopening := h.opening o ho
    have hskip : Chatter.Sound C D sent { s with opening := none } :=
      { h with opening := fun o ho => by cases ho }
    dsimp only at hstep
    split at hstep
    · cases hstep
      exact hskip
    rename_i text htext
    split at hstep
    · cases hstep
      exact hskip
    rename_i hcurrent
    have hgen : o.gen = s.controller.generation := not_not.mp hcurrent
    obtain ⟨hdone, hlt⟩ := hopening.current hgen
    have hlast := h.current
    cases hstep
    refine {
      regular := ⟨h.regular.inv, h.regular.single⟩
      floor := ?_
      queued := h.queued
      received := h.received
      sealing := h.sealing
      opening := fun o ho => by cases ho
      gens := fun x hx => ?_
      current := ?_
      done := fun _ => ⟨hdone.peerPub, hdone.calls⟩
      counted := fun gen => ?_
      origin := fun x hx => ?_ }
    · change -1 ≤ o.seq
      have hlow := hopening.low
      omega
    · rcases List.mem_append.mp hx with hx | hx
      · exact h.gens x hx
      · rw [List.mem_singleton.mp hx]
        exact hopening.gen
    · rw [acceptedIn_of_eq (s := s) rfl hgen, lastSeq_snoc]
    · by_cases hsame : o.gen = gen
      · rw [acceptedIn_of_eq (s := s) rfl hsame]
        have hlast : lastSeq (-1) (s.acceptedIn gen) = s.controller.chatRecvSeq :=
          hsame ▸ hgen ▸ h.current
        exact (h.counted gen).snoc (hlast ▸ hlt) (hlast ▸ rfl)
      · rw [acceptedIn_of_ne (s := s) rfl hsame]
        exact h.counted gen
    · rcases List.mem_append.mp hx with hx | hx
      · exact h.origin x hx
      · rw [List.mem_singleton.mp hx]
        exact carries_of_opened hC hsent hopening htext _

theorem step {ι : Type} {w : ChatWorld ι Id} {i : ι} {a : ChatLabel Id} {t : Chatter Id}
    {messages : List (SentChat Id)} (h : (w.chatters i).Sound C D w.sent) (hC : Separates C D)
    (hsent : ∀ m ∈ w.sent, m.Genuine C D ids) (hrelayed : Relayed w (i, a))
    (hcarried : Carried w (i, a)) (hD : Derives C D w (i, a))
    (hstep : (w.chatters i).step C ids a = some (t, messages)) :
    t.Sound C D w.sent ∧ ∀ m ∈ messages, m.Genuine C D ids := by
  have hquiet {step : Option (Chatter Id)} (hsound : ∀ t, step = some t → t.Sound C D w.sent)
      (heq : step.map (fun s => (s, ([] : List (SentChat Id)))) = some (t, messages)) :
      t.Sound C D w.sent ∧ ∀ m ∈ messages, m.Genuine C D ids := by
    obtain ⟨u, hu, hpair⟩ := Option.map_eq_some_iff.mp heq
    cases hpair
    exact ⟨hsound t hu, fun m hm => by cases hm⟩
  cases a with
  | turn a =>
      obtain ⟨d, hd, hpair⟩ := Option.map_eq_some_iff.mp hstep
      cases hpair
      exact ⟨h.turn hd, fun m hm => by cases hm⟩
  | sendChat kind text =>
      cases hstep
      exact ⟨h.sendChat hcarried.1 hcarried.2, fun m hm => by cases hm⟩
  | sendChatNow => exact hquiet (fun t ht => h.sendChatNow hD ht) hstep
  | sealed iv up => exact h.sealed hstep
  | unsealed =>
      obtain ⟨z, -, hpair⟩ := Option.map_eq_some_iff.mp hstep
      cases hpair
      exact ⟨h.unsealed, fun m hm => by cases hm⟩
  | decryptChat sender payload =>
      cases hstep
      exact ⟨h.decryptChat hrelayed, fun m hm => by cases hm⟩
  | decryptChatNow => exact hquiet (fun t ht => h.decryptChatNow hD ht) hstep
  | opened => exact hquiet (fun t ht => h.opened hC hsent ht) hstep

theorem resists (h : s.Sound C D sent) : s.Resists sent where
  increasing gen := (h.counted gen).increasing.2
  sent := h.origin
  once gen m := by
    have hnumbers := List.pairwise_map.mp (h.counted gen).increasing.2
    refine hnumbers.imp fun hlt hx hy => ?_
    have hseq := hx.seq.symm.trans hy.seq
    omega
  missed gen before x after := (h.counted gen).missed

end Chatter.Sound

/-- Every chatter and every message that was sent are sound. -/
structure ChatWorld.Sound {ι : Type} (C : Crypto Id) (D : Set (Derivation Id)) (ids : Id → Bytes)
    (w : ChatWorld ι Id) : Prop where
  chatters : ∀ i, (w.chatters i).Sound C D w.sent
  sent : ∀ m ∈ w.sent, m.Genuine C D ids

variable {ι : Type} [DecidableEq ι] {w w' : ChatWorld ι Id}

theorem ChatWorld.Sound.init (h : (chatSystem C ids).init w) : w.Sound C D ids where
  chatters i := by
    obtain ⟨c, hc, hw⟩ := h.1 i
    rw [hw]
    exact .init hc
  sent m hm := by
    rw [h.2] at hm
    cases hm

theorem ChatWorld.Sound.step (h : w.Sound C D ids) (hC : Separates C D) {move : ι × ChatLabel Id}
    (hrelayed : Relayed w move) (hcarried : Carried w move) (hD : Derives C D w move)
    (hstep : (chatSystem C ids).step w move = some w') : w'.Sound C D ids := by
  obtain ⟨⟨t, messages⟩, ht, hw'⟩ := Option.map_eq_some_iff.mp hstep
  subst hw'
  obtain ⟨htsound, hmessages⟩ := (h.chatters move.1).step hC h.sent hrelayed hcarried hD ht
  have hsub (m : SentChat Id) (hm : m ∈ w.sent) : m ∈ w.sent ++ messages :=
    List.mem_append_left messages hm
  refine ⟨fun i => ?_, fun m hm => ?_⟩
  · dsimp only
    by_cases hi : i = move.1
    · subst hi
      rw [Function.update_self]
      exact htsound.mono hsub
    · rw [Function.update_of_ne hi]
      exact (h.chatters i).mono hsub
  · rcases List.mem_append.mp hm with hm | hm
    · exact h.sent m hm
    · exact hmessages m hm

/-- Nothing that the server does to the messages gets past the numbers, the keys and what the
messages are bound to. -/
theorem resists_of_separates (hC : Separates C D)
    (h : Reachable (chatSystem C ids)
      (fun w move => Relayed w move ∧ Carried w move ∧ Derives C D w move) w) (i : ι) :
    (w.chatters i).Resists w.sent := by
  have hsound : w.Sound C D ids :=
    h.invariant (fun w hw => .init hw) fun w move w' hw hok hstep =>
      hw.step hC hok.1 hok.2.1 hok.2.2 hstep
  exact (hsound.chatters i).resists

end Invariant

end Sozvon.E2EE
