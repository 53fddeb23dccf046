import Sozvon.Transcripts

/-!
# Where the keys come from

`e2ee-crypto.js` over what the browser's `crypto.subtle` does for it. Every key comes out
of HKDF, salted with the hash of a handshake and made for one sender, so two chat keys are
the same only if their handshakes and senders are, unless there is a collision.
-/
namespace Sozvon.E2EE
open Runs Controller Utf16

section Definitions

variable {ι Id : Type}

/-- `crypto.subtle` as it is used. -/
structure Subtle where
  /-- SHA-256. -/
  digest : Bytes → Bytes
  /-- The bits agreed on from a private key and the other side's public key. -/
  agree : Bytes → Bytes → Bytes
  /-- HKDF of key material, salt and info, and how many bytes. -/
  hkdf : Bytes → Bytes → Bytes → ℕ → Bytes

def EMOJI : List ℕ :=
  [0x1F600, 0x1F60E, 0x1F916, 0x1F47D, 0x1F436, 0x1F431, 0x1F98A, 0x1F43C,
    0x1F428, 0x1F42F, 0x1F981, 0x1F438, 0x1F435, 0x1F414, 0x1F427, 0x1F989,
    0x1F98B, 0x1F41D, 0x1F422, 0x1F419, 0x1F433, 0x1F42C, 0x1F41F, 0x1F335,
    0x1F332, 0x1F338, 0x1F341, 0x1F344, 0x1F347, 0x1F349, 0x1F34B, 0x1F34C,
    0x1F34E, 0x1F353, 0x1F352, 0x1F951, 0x1F33D, 0x1F955, 0x1F354, 0x1F355,
    0x1F366, 0x1F369, 0x1F36A, 0x1F382, 0x2615, 0x1F377, 0x26BD, 0x1F3C0,
    0x1F3B2, 0x1F3B8, 0x1F3BA, 0x1F3A8, 0x1F697, 0x1F680, 0x26F5, 0x23F0,
    0x1F319, 0x2B50, 0x1F525, 0x1F308, 0x26A1, 0x1F388, 0x1F381, 0x1F511]

def SAS_LENGTH : ℕ := 5

def emoji (byte : UInt8) : String := String.ofList [Char.ofNat (EMOJI.getD (byte &&& 0x3f).toNat 0)]

def Kind.word : Kind → String
  | .audio => "audio"
  | .video => "video"

/-- The info of a chat key. -/
def chatInfo (ids : Id → Bytes) (senderId : Id) : Bytes := utf8 "chat|".toList ++ ids senderId

/-- `ids` gives the bytes of a participant's id. -/
def Subtle.crypto (subtle : Subtle) (ids : Id → Bytes) : Crypto Id where
  commit := subtle.digest
  agree := subtle.agree
  transcript t := subtle.digest (transcriptBytes ids t)
  deriveMediaKey secret salt streamId :=
    let info := utf8 "media|".toList ++ (ids streamId.owner ++ utf8 ("|" ++ streamId.kind.word).toList)
    subtle.hkdf secret salt info 32
  deriveChatKey secret salt senderId := subtle.hkdf secret salt (chatInfo ids senderId) 32
  deriveSAS secret salt :=
    let bytes := subtle.hkdf secret salt (utf8 "sas".toList) SAS_LENGTH
    (List.range SAS_LENGTH).map fun i => emoji (bytes.getD i 0)

/-- A handshake with the bytes of its ids. -/
def Transcript.bytes (ids : Id → Bytes) (t : Transcript Id) : Transcript Bytes where
  initiatorId := ids t.initiatorId
  responderId := ids t.responderId
  commit := t.commit
  initiatorPub := t.initiatorPub
  responderPub := t.responderPub

def Derivation.salt (subtle : Subtle) (ids : Id → Bytes) (d : Derivation Id) : Bytes :=
  subtle.digest (transcriptBytes ids d.handshake)

def Derivation.participants (d : Derivation Id) : List Id :=
  [d.handshake.initiatorId, d.handshake.responderId, d.sender]

/-- Neither SHA-256 nor HKDF has a collision among these, which name different participants by
different bytes, none of them too long for its length to be written in front. -/
structure Subtle.Collisionless (subtle : Subtle) (ids : Id → Bytes) (D : Set (Derivation Id)) :
    Prop where
  participants : Set.InjOn ids {id | ∃ d ∈ D, id ∈ d.participants}
  short : ∀ d ∈ D, (d.handshake.bytes ids).Short
  digest : Set.InjOn subtle.digest {hashed | ∃ d ∈ D, hashed = transcriptBytes ids d.handshake}
  hkdf : ∀ d ∈ D, ∀ d' ∈ D,
    subtle.hkdf d.secret (d.salt subtle ids) (chatInfo ids d.sender) 32 =
      subtle.hkdf d'.secret (d'.salt subtle ids) (chatInfo ids d'.sender) 32 →
    d.salt subtle ids = d'.salt subtle ids ∧ chatInfo ids d.sender = chatInfo ids d'.sender

end Definitions

section Theorems

variable {ι Id : Type} {subtle : Subtle} {ids : Id → Bytes} {D : Set (Derivation Id)}

/-- The hash is one of a handshake between participants whose ids are apart. -/
theorem Subtle.Collisionless.handshake (h : subtle.Collisionless ids D) {d d' : Derivation Id}
    (hd : d ∈ D) (hd' : d' ∈ D) (hsalt : d.salt subtle ids = d'.salt subtle ids) :
    d.handshake = d'.handshake := by
  have hhashed : transcriptBytes ids d.handshake = transcriptBytes ids d'.handshake :=
    h.digest ⟨d, hd, rfl⟩ ⟨d', hd', rfl⟩ hsalt
  have hbytes : d.handshake.bytes ids = d'.handshake.bytes ids :=
    transcriptBytes_inj (h.short d hd) (h.short d' hd') hhashed
  have hinitiator : d.handshake.initiatorId = d'.handshake.initiatorId :=
    h.participants ⟨d, hd, by simp [Derivation.participants]⟩ ⟨d', hd', by simp [Derivation.participants]⟩
      (congrArg Transcript.initiatorId hbytes)
  have hresponder : d.handshake.responderId = d'.handshake.responderId :=
    h.participants ⟨d, hd, by simp [Derivation.participants]⟩ ⟨d', hd', by simp [Derivation.participants]⟩
      (congrArg Transcript.responderId hbytes)
  obtain ⟨secret, ⟨initiatorId, responderId, commit, initiatorPub, responderPub⟩, sender⟩ := d
  obtain ⟨secret', ⟨initiatorId', responderId', commit', initiatorPub', responderPub'⟩, sender'⟩ := d'
  simp only [Transcript.bytes, Transcript.mk.injEq] at hbytes hinitiator hresponder ⊢
  exact ⟨hinitiator, hresponder, hbytes.2.2⟩

theorem Subtle.Collisionless.separates (h : subtle.Collisionless ids D) :
    Separates (subtle.crypto ids) D := by
  intro d hd d' hd' hkey
  obtain ⟨hsalt, hinfo⟩ := h.hkdf d hd d' hd' hkey
  refine ⟨h.handshake hd hd' hsalt, ?_⟩
  exact h.participants ⟨d, hd, by simp [Derivation.participants]⟩ ⟨d', hd', by simp [Derivation.participants]⟩
    (List.append_cancel_left hinfo)

/-- Nothing that the server does to the messages gets past the numbers, the keys and what the
messages are bound to, where there is no collision among the sessions established. -/
theorem resists_of_reachable [LinearOrder Id] [DecidableEq ι] (hD : subtle.Collisionless ids D)
    {w : ChatWorld ι Id} (h : Reachable (chatSystem (subtle.crypto ids) ids)
      (fun w move => Relayed w move ∧ Carried w move ∧ Derives (subtle.crypto ids) D w move) w)
    (i : ι) : (w.chatters i).Resists w.sent :=
  resists_of_separates hD.separates h i

end Theorems

section Samples

/-- Behind as many zeros as the number says. -/
def numbered (n : ℕ) (rest : Bytes) : Bytes := List.replicate n 0 ++ 1 :: rest

def delimited (bytes rest : Bytes) : Bytes := numbered bytes.length (bytes ++ rest)

theorem numbered_inj {m n : ℕ} {a b : Bytes} (h : numbered m a = numbered n b) : m = n ∧ a = b := by
  induction m generalizing n with
  | zero =>
      cases n with
      | zero => exact ⟨rfl, (List.cons.inj h).2⟩
      | succ n => exact absurd (List.cons.inj h).1 (by decide)
  | succ m ih =>
      cases n with
      | zero => exact absurd (List.cons.inj h).1 (by decide)
      | succ n =>
          obtain ⟨hn, hrest⟩ := ih (List.cons.inj h).2
          exact ⟨congrArg (· + 1) hn, hrest⟩

theorem delimited_inj {x y a b : Bytes} (h : delimited x a = delimited y b) : x = y ∧ a = b := by
  obtain ⟨hlength, hrest⟩ := numbered_inj h
  exact List.append_inj hrest hlength

def idBytes (id : ℕ) : Bytes := numbered id []

/-- The hash of something is the thing itself, and a key tells all that it was derived from. -/
def openSubtle : Subtle where
  digest bytes := bytes
  agree := sampleCrypto.agree
  hkdf ikm salt info _ := delimited salt (delimited info ikm)

def chatCrypto : Crypto ℕ := openSubtle.crypto idBytes

def shortHandshakes : Set (Derivation ℕ) := {d | (d.handshake.bytes idBytes).Short}

theorem collisionless_openSubtle : openSubtle.Collisionless idBytes shortHandshakes where
  participants _ _ _ _ h := (numbered_inj h).1
  short _ h := h
  digest _ _ _ _ h := h
  hkdf d _ d' _ h := by
    obtain ⟨hsalt, hrest⟩ := delimited_inj h
    exact ⟨hsalt, (delimited_inj hrest).1⟩

instance (t : Transcript Bytes) : Decidable t.Short :=
  decidable_of_iff (t.initiatorId.length < 65536 ∧ t.responderId.length < 65536 ∧
      t.commit.length < 65536 ∧ t.initiatorPub.length < 65536 ∧ t.responderPub.length < 65536)
    ⟨fun h => ⟨h.1, h.2.1, h.2.2.1, h.2.2.2.1, h.2.2.2.2⟩,
      fun h => ⟨h.initiatorId, h.responderId, h.commit, h.initiatorPub, h.responderPub⟩⟩

instance : DecidablePred (· ∈ shortHandshakes) := fun d =>
  inferInstanceAs (Decidable (d.handshake.bytes idBytes).Short)

instance (w : ChatWorld Bool ℕ) (move : Bool × ChatLabel ℕ) :
    Decidable (Derives chatCrypto shortHandshakes w move) :=
  inferInstanceAs (Decidable (_ = CallState.established → ∀ session ∈ Controller.session _,
    ∀ sender ∈ [_, Session.peer session], _ ∈ shortHandshakes))

instance (sent : List (SentChat ℕ)) (payload : ChatPayload) : Decidable (Genuine sent payload) :=
  match hct : payload.ct with
  | some (.box b) => decidable_of_iff (∃ m ∈ sent, m.ct = .box b) (by simp [Genuine, hct])
  | some (.junk bytes) => .isTrue (by simp [Genuine, hct])
  | none => .isTrue (by simp [Genuine, hct])

instance (w : ChatWorld Bool ℕ) : (move : Bool × ChatLabel ℕ) → Decidable (Relayed w move)
  | (_, .decryptChat _ payload) => inferInstanceAs (Decidable (Genuine w.sent payload))
  | (_, .turn _) | (_, .sendChat _ _) | (_, .sendChatNow) | (_, .sealed _ _) | (_, .unsealed)
  | (_, .decryptChatNow) | (_, .opened) => .isTrue trivial

/-- The second one has the higher id. -/
def callers : ChatWorld Bool ℕ where
  chatters second := { controller := { id := if second then 2 else 1, supported := true } }

theorem init_callers : (chatSystem chatCrypto idBytes).init callers :=
  ⟨fun _ => ⟨_, ⟨_, true, false, rfl⟩, rfl⟩, rfl⟩

/-- Two callers agree on keys, and the first one sends a message. -/
def dialogue (text : Units) : List (Bool × ChatLabel ℕ) :=
  let pub := (samplePair 7).publicKey
  let peerPub := (samplePair 9).publicKey
  let commit := chatCrypto.commit peerPub
  let salt := chatCrypto.transcript ⟨1, 2, commit, pub, peerPub⟩
  let key := chatCrypto.deriveChatKey (chatCrypto.agree [7] peerPub) salt 1
  [(true, .turn (.addUser 1 true)), (true, .turn (.resume 0 (samplePair 9) true)),
    (false, .turn (.addUser 2 true)), (false, .turn (.resume 0 (samplePair 7) true)),
    (false, .turn (.message 2 (some { t := .commit, v := some 2, commit := some commit }) true)),
    (true, .turn (.message 1 (some { t := .dh, v := some 2, pub := some pub }) true)),
    (false, .turn (.message 2 (some { t := .dh, v := some 2, pub := some peerPub }) true))] ++
  List.replicate 9 (false, .turn (.resume 0 (samplePair 7) true)) ++
  List.replicate 8 (true, .turn (.resume 0 (samplePair 9) true)) ++
  [(false, .sendChat [] text), (false, .sendChatNow), (false, .sealed [3] true),
    (true, .decryptChat 1 {
      kind := some []
      seq := some 0
      iv := some [3]
      ct := some (encryptChat key [3] text (chatAAD idBytes 1 2 0 [])) }),
    (true, .decryptChatNow), (true, .opened)]

/-- Nothing else is sent. -/
def Says (text : Units) (_ : ChatWorld Bool ℕ) : Bool × ChatLabel ℕ → Prop
  | (_, .sendChat kind text') => kind = [] ∧ text' = text
  | _ => True

instance (text : Units) (w : ChatWorld Bool ℕ) :
    (move : Bool × ChatLabel ℕ) → Decidable (Says text w move)
  | (_, .sendChat kind text') => inferInstanceAs (Decidable (kind = [] ∧ text' = text))
  | (_, .turn _) | (_, .decryptChat _ _) | (_, .sendChatNow) | (_, .sealed _ _) | (_, .unsealed)
  | (_, .decryptChatNow) | (_, .opened) => .isTrue trivial

theorem resists_dialogue : ∃ w, Reachable (chatSystem chatCrypto idBytes)
    (fun w move => Relayed w move ∧ Carried w move ∧ Derives chatCrypto shortHandshakes w move) w ∧
      (w.chatters true).accepted.map (·.text) = [[104, 105]] ∧ (w.chatters true).Resists w.sent := by
  obtain ⟨w, hw, htext⟩ : ∃ w ∈ (chatSystem chatCrypto idBytes).exec (fun w move => Relayed w move ∧
        Says [104, 105] w move ∧ Derives chatCrypto shortHandshakes w move)
      callers (dialogue [104, 105]), (w.chatters true).accepted.map (·.text) = [[104, 105]] := by
    decide +kernel
  have hreachable : Reachable (chatSystem chatCrypto idBytes) (fun w move => Relayed w move ∧
      Carried w move ∧ Derives chatCrypto shortHandshakes w move) w :=
    (Reachable.exec (.init init_callers) hw).mono fun w move hok => by
      refine ⟨hok.1, ?_, hok.2.2⟩
      obtain ⟨_, a⟩ := move
      cases a with
      | sendChat kind text =>
          obtain ⟨rfl, rfl⟩ := hok.2.1
          exact ⟨⟨[], rfl, by decide⟩, [Char.ofNat 104, Char.ofNat 105], rfl, by decide⟩
      | _ => trivial
  exact ⟨w, hreachable, htext, resists_of_reachable collisionless_openSubtle hreachable true⟩

/-- A byte order mark at the beginning of the text is lost. -/
theorem not_resists : ¬ ∀ (subtle : Subtle) (ids : ℕ → Bytes) (D : Set (Derivation ℕ))
    (w : ChatWorld Bool ℕ), subtle.Collisionless ids D →
    Reachable (chatSystem (subtle.crypto ids) ids)
      (fun w move => Relayed w move ∧ Derives (subtle.crypto ids) D w move) w →
    ∀ i, (w.chatters i).Resists w.sent := by
  intro h
  obtain ⟨w, hw, htext, hsent⟩ : ∃ w ∈ (chatSystem chatCrypto idBytes).exec
      (fun w move => Relayed w move ∧ Derives chatCrypto shortHandshakes w move) callers
      (dialogue [0xfeff, 104, 105]), (w.chatters true).accepted.map (·.text) = [[104, 105]] ∧
        w.sent.map (·.text) = [[0xfeff, 104, 105]] := by decide +kernel
  have hreachable : Reachable (chatSystem chatCrypto idBytes)
      (fun w move => Relayed w move ∧ Derives chatCrypto shortHandshakes w move) w :=
    .exec (.init init_callers) hw
  have hresists := h openSubtle idBytes _ w collisionless_openSubtle hreachable true
  have hmem : [104, 105] ∈ (w.chatters true).accepted.map (·.text) := by
    rw [htext]
    exact List.mem_singleton.mpr rfl
  obtain ⟨x, hx, hxtext⟩ := List.mem_map.mp hmem
  obtain ⟨m, hm, hcarries⟩ := hresists.sent x hx
  have hmtext : m.text ∈ w.sent.map (·.text) := List.mem_map_of_mem hm
  rw [hsent, hcarries.text, hxtext] at hmtext
  exact absurd hmtext (by decide)

end Samples

end Sozvon.E2EE
