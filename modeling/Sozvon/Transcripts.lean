import Sozvon.Delimiting
import Sozvon.FrameCipher

/-!
# What is hashed and what is authenticated

The transcript of a handshake and the associated data of a chat message put
several byte strings of any length one after the other, each behind its length.
-/
namespace Sozvon.E2EE
open Delimiting Utf16

section Definitions

variable {Id : Type}

/-- What `transcript` hashes. `ids` gives the bytes of a participant's id. -/
def transcriptBytes (ids : Id → Bytes) (t : Transcript Id) : Bytes :=
  utf8 ("sozvon-e2ee-v" ++ toString PROTOCOL_VERSION).toList ++
    (lengthPrefixed (ids t.initiatorId) ++ (lengthPrefixed (ids t.responderId) ++
      (lengthPrefixed t.commit ++
        (lengthPrefixed t.initiatorPub ++ lengthPrefixed t.responderPub))))

/-- What a chat message is bound to, as bytes. -/
structure ChatContext where
  sender : Bytes
  recipient : Bytes
  seq : ℕ
  kind : Bytes
deriving DecidableEq

def ChatContext.aad (m : ChatContext) : Bytes :=
  utf8 ("sozvon-chat-v" ++ toString PROTOCOL_VERSION).toList ++
    (lengthPrefixed m.sender ++ (lengthPrefixed m.recipient ++
      (writeUint48 (List.replicate 6 0) 0 m.seq ++ lengthPrefixed m.kind)))

def Transcript.parts (t : Transcript Bytes) : Bytes × Bytes × Bytes × Bytes × Bytes :=
  (t.initiatorId, t.responderId, t.commit, t.initiatorPub, t.responderPub)

def ChatContext.parts (m : ChatContext) : Bytes × Bytes × ℕ × Bytes :=
  (m.sender, m.recipient, m.seq, m.kind)

structure Transcript.Short (t : Transcript Bytes) : Prop where
  initiatorId : t.initiatorId.length < 65536
  responderId : t.responderId.length < 65536
  commit : t.commit.length < 65536
  initiatorPub : t.initiatorPub.length < 65536
  responderPub : t.responderPub.length < 65536

structure ChatContext.Short (m : ChatContext) : Prop where
  sender : m.sender.length < 65536
  recipient : m.recipient.length < 65536
  seq : m.seq < 2 ^ 48
  kind : m.kind.length < 65536

end Definitions

section Proofs

theorem writeUint48_fresh (n : ℕ) : writeUint48 (List.replicate 6 0) 0 n = uint48 n := by
  have h := writeUint48_zeros (a := []) (b := []) rfl n
  rwa [List.nil_append, List.append_nil, List.nil_append, List.append_nil] at h

/-- The associated data of a message between two participants. -/
theorem chatAAD_eq {Id : Type} (ids : Id → Bytes) (sender recipient : Id) (seq : ℕ)
    (kind : Units) : chatAAD ids sender recipient seq kind =
      ChatContext.aad { sender := ids sender, recipient := ids recipient, seq,
                        kind := encode kind } := by
  rw [chatAAD, ChatContext.aad, writeUint48_fresh]

/-- The lengths that two bytes can hold. -/
def short : Set Bytes := {u8 | u8.length < 65536}

theorem delimits_lengthPrefixed : Delimits short lengthPrefixed := by
  refine delimits_header (fun u8 : Bytes => [.ofNat (u8.length / 256), .ofNat u8.length]) id ?_
    Function.injective_id.injOn
  intro x hx y hy a b h
  obtain ⟨hhigh, hlow, hrest⟩ : UInt8.ofNat (x.length / 256) = UInt8.ofNat (y.length / 256) ∧
      UInt8.ofNat x.length = UInt8.ofNat y.length ∧ a = b := by simpa using h
  have hhigh := congrArg UInt8.toNat hhigh
  have hlow := congrArg UInt8.toNat hlow
  rw [UInt8.toNat_ofNat', UInt8.toNat_ofNat'] at hhigh hlow
  have hx : x.length < 65536 := hx
  have hy : y.length < 65536 := hy
  exact ⟨by simp only [id]; omega, hrest⟩

theorem delimits_writeUint48 :
    Delimits {n | n < 2 ^ 48} fun n => writeUint48 (List.replicate 6 0) 0 n := by
  have hwidth (n : ℕ) : (writeUint48 (List.replicate 6 0) 0 n).length = 6 := by
    rw [writeUint48_fresh, length_uint48]
  refine delimits_of_width (fun n _ => hwidth n) ?_
  intro m hm n hn h
  dsimp only at h
  rw [writeUint48_fresh, writeUint48_fresh] at h
  have hmod := uint48_inj h
  have hm : m < 2 ^ 48 := hm
  have hn : n < 2 ^ 48 := hn
  omega

theorem parts_injective : Function.Injective Transcript.parts := by
  rintro ⟨⟩ ⟨⟩ h
  simpa [Transcript.parts] using h

theorem Transcript.Short.parts_mem {t : Transcript Bytes} (h : t.Short) :
    t.parts ∈ short ×ˢ short ×ˢ short ×ˢ short ×ˢ short :=
  ⟨h.initiatorId, h.responderId, h.commit, h.initiatorPub, h.responderPub⟩

theorem transcriptBytes_inj {t t' : Transcript Bytes} (ht : t.Short) (ht' : t'.Short)
    (h : transcriptBytes id t = transcriptBytes id t') : t = t' := by
  have hparts := (delimits_lengthPrefixed.append (delimits_lengthPrefixed.append
    (delimits_lengthPrefixed.append (delimits_lengthPrefixed.append delimits_lengthPrefixed)))).tagged
      (utf8 ("sozvon-e2ee-v" ++ toString PROTOCOL_VERSION).toList)
  exact parts_injective (hparts.injOn ht.parts_mem ht'.parts_mem h)

theorem ChatContext.Short.parts_mem {m : ChatContext} (h : m.Short) :
    m.parts ∈ short ×ˢ short ×ˢ {n | n < 2 ^ 48} ×ˢ short :=
  ⟨h.sender, h.recipient, h.seq, h.kind⟩

theorem aad_inj {m m' : ChatContext} (hm : m.Short) (hm' : m'.Short) (h : m.aad = m'.aad) :
    m = m' := by
  have hparts := (delimits_lengthPrefixed.append (delimits_lengthPrefixed.append
    (delimits_writeUint48.append delimits_lengthPrefixed))).tagged
      (utf8 ("sozvon-chat-v" ++ toString PROTOCOL_VERSION).toList)
  have hsame := hparts.injOn hm.parts_mem hm'.parts_mem h
  cases m
  cases m'
  simpa [ChatContext.parts] using hsame

/-- The two begin with words of the same length that are not the same. -/
theorem transcriptBytes_ne_aad (t : Transcript Bytes) (m : ChatContext) :
    transcriptBytes id t ≠ m.aad := by
  intro h
  have hlength : (utf8 ("sozvon-e2ee-v" ++ toString PROTOCOL_VERSION).toList).length =
      (utf8 ("sozvon-chat-v" ++ toString PROTOCOL_VERSION).toList).length := by decide
  have hwords := utf8_injective (List.append_inj h hlength).1
  exact absurd hwords (by decide)

/-- Different handshakes and messages are told apart by what is hashed and what is
authenticated. -/
theorem transcripts_unambiguous :
    (∀ t t' : Transcript Bytes, t.Short → t'.Short →
      transcriptBytes id t = transcriptBytes id t' → t = t') ∧
    (∀ m m' : ChatContext, m.Short → m'.Short → m.aad = m'.aad → m = m') ∧
    ∀ (t : Transcript Bytes) (m : ChatContext), transcriptBytes id t ≠ m.aad :=
  ⟨fun _ _ ht ht' h => transcriptBytes_inj ht ht' h, fun _ _ hm hm' h => aad_inj hm hm' h,
    transcriptBytes_ne_aad⟩

end Proofs

section Samples

/-- Two handshakes whose parts are the same bytes, cut in different places. -/
def cut (initiatorId responderId : Bytes) : Transcript Bytes :=
  ⟨initiatorId, responderId, [4, 5], [6], [7]⟩

theorem transcripts_unambiguous_cut :
    transcriptBytes id (cut [1] [2, 3]) ≠ transcriptBytes id (cut [1, 2] [3]) := fun h =>
  absurd (transcripts_unambiguous.1 (cut [1] [2, 3]) (cut [1, 2] [3])
    ⟨by decide, by decide, by decide, by decide, by decide⟩
    ⟨by decide, by decide, by decide, by decide, by decide⟩ h) (by decide)

end Samples

end Sozvon.E2EE
