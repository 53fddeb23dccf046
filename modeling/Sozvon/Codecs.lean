import Mathlib.Data.Nat.Bitwise
import Mathlib.Data.UInt

/-!
# Packets of the forwarded codecs

Reading and rewriting of RTP packets in `codecs`. A packet is the list of its
bytes. An index past the end of a slice is a panic in the source; here it is
the error `indexOutOfRange`, so that a result free of it is a proof that the
access was guarded.

The depacketisers come from a library and are a parameter, `Pion`. What is
relied on about them is that they return the picture id that is in the bytes
(`Pion.ReadsPictureID`).
-/
namespace Sozvon.Codecs

abbrev Bytes := List UInt8

inductive Codec where
  | vp8
  | vp9
  | other
deriving DecidableEq, Repr

inductive Error where
  | truncated
  | malformed
  | indexOutOfRange
deriving DecidableEq, Repr

structure RTPPacket where
  marker : Bool
  payload : Bytes
deriving DecidableEq, Repr

structure VP8Packet where
  n : UInt8
  s : UInt8
  pid : UInt8
  pictureID : UInt16
  tid : UInt8
  y : UInt8
  payload : Bytes
deriving DecidableEq, Repr

structure VP9Packet where
  p : Bool
  b : Bool
  e : Bool
  tid : UInt8
  u : Bool
  sid : UInt8
  payload : Bytes
deriving DecidableEq, Repr

/-- The depacketisers the code calls; `none` is an error. -/
structure Pion where
  unmarshal : Bytes → Option RTPPacket
  unmarshalVP8 : Bytes → Option VP8Packet
  unmarshalVP9 : Bytes → Option VP9Packet

structure Flags where
  seqno : UInt16
  marker : Bool := false
  start : Bool := false
  «end» : Bool := false
  keyframe : Bool := false
  pid : UInt16 := 0
  tid : UInt8 := 0
  sid : UInt8 := 0
  tidUpSync : Bool := false
  sidUpSync : Bool := false
  sidNonReference : Bool := false
  discardable : Bool := false
deriving DecidableEq, Repr

def byte (data : Bytes) (i : ℕ) : Except Error UInt8 :=
  match data[i]? with
  | some b => .ok b
  | none => .error .indexOutOfRange

/-- The byte at `i` of a slice that is long enough. -/
def peek (data : Bytes) (i : ℕ) : UInt8 := data.getD i 0

/-- The sequence number field. -/
def seqnoOf (buf : Bytes) : UInt16 :=
  (peek buf 2).toUInt16 <<< 8 ||| (peek buf 3).toUInt16

def vp9Keyframe (vp9 : VP9Packet) : Bool :=
  match vp9.payload with
  | [] => false
  | b₀ :: _ =>
      if vp9.b ∧ b₀ &&& 0xc0 = 0x80 then
        let profile := (b₀ >>> 4) &&& 0x3
        if profile ≠ 3 then b₀ &&& 0xC = 0 else b₀ &&& 0x6 = 0
      else false

def packetFlags (lib : Pion) (codec : Codec) (buf : Bytes) : Except Error Flags :=
  if buf.length < 4 then .error .truncated
  else
    let flags : Flags :=
      { seqno := seqnoOf buf, marker := peek buf 1 &&& 0x80 ≠ 0 }
    match codec with
    | .vp8 =>
        match lib.unmarshal buf with
        | none => .error .malformed
        | some packet =>
            match lib.unmarshalVP8 packet.payload with
            | none => .error .malformed
            | some vp8 =>
                let start := vp8.s ≠ 0 ∧ vp8.pid = 0
                let keyframe := start ∧ ∃ b₀ ∈ vp8.payload.head?, b₀ &&& 0x1 = 0
                .ok { flags with
                        start, «end» := packet.marker, keyframe
                        pid := vp8.pictureID, tid := vp8.tid
                        tidUpSync := keyframe ∨ vp8.y = 1, sidUpSync := keyframe
                        discardable := vp8.n = 1 }
    | .vp9 =>
        match lib.unmarshal buf with
        | none => .error .malformed
        | some packet =>
            match lib.unmarshalVP9 packet.payload with
            | none => .error .malformed
            | some vp9 => do
                let keyframe := vp9Keyframe vp9
                let b₀ ← byte packet.payload 0
                return { flags with
                           start := vp9.b, «end» := vp9.e, keyframe
                           tid := vp9.tid, sid := vp9.sid
                           tidUpSync := keyframe ∨ vp9.u, sidUpSync := keyframe ∨ ¬ vp9.p
                           sidNonReference := b₀ &&& 0x01 ≠ 0 }
    | .other => .ok flags

/-- Where the payload begins, past the contributing sources and the header
extension. -/
def payloadOffset (data : Bytes) : Except Error ℕ := do
  let b₀ ← byte data 0
  let offset := 12 + (b₀ &&& 0x0F).toNat * 4
  if data.length ≤ offset then .error .truncated
  else if b₀ &&& 0x10 ≠ 0 then do
    let hi ← byte data (offset + 2)
    let lo ← byte data (offset + 3)
    let length := hi.toUInt16 <<< 8 ||| lo.toUInt16
    let offset := offset + 4 + length.toNat * 4
    if data.length < offset + 4 then .error .truncated else .ok offset
  else .ok offset

/-- Add `delta` to the picture id of a VP8 payload descriptor, if it has one. -/
def rewritePictureID (data : Bytes) (offset : ℕ) (delta : UInt16) : Except Error Bytes := do
  let x ← byte data offset
  if x &&& 0x80 = 0 then .ok data
  else if data.length ≤ offset + 1 then .error .truncated
  else do
    let i ← byte data (offset + 1)
    if i &&& 0x80 = 0 then .ok data
    else if data.length ≤ offset + 2 then .error .truncated
    else do
      let m ← byte data (offset + 2)
      if m &&& 0x80 ≠ 0 then
        if data.length ≤ offset + 3 then .error .truncated
        else do
          let l ← byte data (offset + 3)
          let pid := (m &&& 0x7F).toUInt16 <<< 8 ||| l.toUInt16
          let pid := (pid + delta) &&& 0x7FFF
          let hi := (0x80 : UInt8) ||| ((pid >>> 8) &&& 0x7F).toUInt8
          .ok ((data.set (offset + 2) hi).set (offset + 3) (pid &&& 0xFF).toUInt8)
      else .ok (data.set (offset + 2) ((m + delta.toUInt8) &&& 0x7F))

def rewritePacket (codec : Codec) (data : Bytes) (setMarker : Bool) (seqno delta : UInt16) :
    Except Error Bytes :=
  if data.length < 12 then .error .truncated
  else
    let data := if setMarker then data.set 1 (peek data 1 ||| 0x80) else data
    let data := (data.set 2 (seqno >>> 8).toUInt8).set 3 seqno.toUInt8
    if delta = 0 then .ok data
    else do
      let offset ← payloadOffset data
      match codec with
      | .vp8 => rewritePictureID data offset delta
      | _ => .ok data

section Words

theorem and_0x80_ne_zero (b : UInt8) : b &&& 0x80 ≠ 0 ↔ 128 ≤ b.toNat := by
  have hb : b.toNat < 256 := b.toNat_lt
  have hmask : (b &&& 0x80).toNat = (b.toNat.testBit 7).toNat * 2 ^ 7 := by
    rw [UInt8.toNat_and, ← Nat.and_two_pow]
    rfl
  rw [ne_eq, ← UInt8.toNat_inj, hmask, show (0 : UInt8).toNat = 0 from rfl,
    Nat.testBit_eq_decide_div_mod_eq]
  by_cases hbit : b.toNat / 2 ^ 7 % 2 = 1
  · rw [decide_eq_true hbit, Bool.toNat_true]
    omega
  · rw [decide_eq_false hbit, Bool.toNat_false]
    omega

theorem toNat_and_0x7F (b : UInt8) : (b &&& 0x7F).toNat = b.toNat % 128 := by
  rw [UInt8.toNat_and]
  exact Nat.and_two_pow_sub_one_eq_mod _ 7

theorem toNat_and_0x7FFF (x : UInt16) : (x &&& 0x7FFF).toNat = x.toNat % 32768 := by
  rw [UInt16.toNat_and]
  exact Nat.and_two_pow_sub_one_eq_mod _ 15

/-- Two bytes as a number, the high one first. -/
theorem toNat_word (hi lo : UInt8) :
    (hi.toUInt16 <<< 8 ||| lo.toUInt16).toNat = 256 * hi.toNat + lo.toNat := by
  have hhi : hi.toNat < 256 := hi.toNat_lt
  have hlo : lo.toNat < 2 ^ 8 := lo.toNat_lt
  rw [UInt16.toNat_or, UInt16.toNat_shiftLeft, UInt8.toNat_toUInt16, UInt8.toNat_toUInt16]
  simp only [UInt16.toNat_ofNat, show 8 % 2 ^ 16 % 16 = 8 from rfl, Nat.shiftLeft_eq]
  rw [Nat.mod_eq_of_lt (by omega), mul_comm, ← Nat.two_pow_add_eq_or_of_lt hlo]

/-- A word survives being split into its bytes. -/
theorem word_split (x : UInt16) :
    (x >>> 8).toUInt8.toUInt16 <<< 8 ||| x.toUInt8.toUInt16 = x := by
  have hx : x.toNat < 65536 := x.toNat_lt
  rw [← UInt16.toNat_inj, toNat_word]
  simp only [UInt16.toNat_toUInt8, UInt16.toNat_shiftRight, UInt16.toNat_ofNat,
    show 8 % 2 ^ 16 % 16 = 8 from rfl, Nat.shiftRight_eq_div_pow]
  omega

theorem toNat_0x80_or {b : UInt8} (h : b.toNat < 128) : (0x80 ||| b).toNat = 128 + b.toNat := by
  rw [UInt8.toNat_or]
  exact (Nat.two_pow_add_eq_or_of_lt (i := 7) h 1).symm

/-- A long picture id with a delta added, in its two bytes again. -/
theorem toNat_longID (m l : UInt8) (delta : UInt16) :
    let pid := ((m &&& 0x7F).toUInt16 <<< 8 ||| l.toUInt16) + delta &&& 0x7FFF
    let sum := (256 * (m.toNat % 128) + l.toNat + delta.toNat) % 32768
    ((0x80 : UInt8) ||| ((pid >>> 8) &&& 0x7F).toUInt8).toNat = 128 + sum / 256 ∧
      (pid &&& 0xFF).toUInt8.toNat = sum % 256 := by
  intro pid sum
  have hpid : pid.toNat = sum := by
    rw [toNat_and_0x7FFF, UInt16.toNat_add, toNat_word, toNat_and_0x7F]
    omega
  have hmask : ((pid >>> 8) &&& 0x7F).toUInt8.toNat = pid.toNat / 256 := by
    have hand : ((pid >>> 8) &&& 0x7F).toNat = (pid >>> 8).toNat % 128 := by
      rw [UInt16.toNat_and]
      exact Nat.and_two_pow_sub_one_eq_mod _ 7
    rw [UInt16.toNat_toUInt8, hand, UInt16.toNat_shiftRight]
    simp only [UInt16.toNat_ofNat, show 8 % 2 ^ 16 % 16 = 8 from rfl, Nat.shiftRight_eq_div_pow]
    omega
  have hlow : (pid &&& 0xFF).toNat = pid.toNat % 256 := by
    rw [UInt16.toNat_and]
    exact Nat.and_two_pow_sub_one_eq_mod _ 8
  constructor
  · rw [toNat_0x80_or (by rw [hmask]; omega), hmask, hpid]
  · rw [UInt16.toNat_toUInt8, hlow, Nat.mod_mod, hpid]

end Words

section VP8

/-- The two widths a picture id comes in. -/
inductive Width where
  | short
  | long
deriving DecidableEq, Repr

def Width.modulus : Width → ℕ
  | .short => 128
  | .long => 32768

def Width.bytes : Width → ℕ
  | .short => 1
  | .long => 2

/-- The length of the RTP header, its contributing sources and extension
included. -/
def headerLength (buf : Bytes) : ℕ :=
  let base := 12 + (peek buf 0 &&& 0x0F).toNat * 4
  if peek buf 0 &&& 0x10 = 0 then base
  else base + 4 + (256 * (peek buf (base + 2)).toNat + (peek buf (base + 3)).toNat) * 4

/-- The picture id of a packet that has one. -/
def pictureID (w : Width) (buf : Bytes) : ℕ :=
  let m := peek buf (headerLength buf + 2)
  match w with
  | .short => m.toNat % 128
  | .long => 256 * (m.toNat % 128) + (peek buf (headerLength buf + 3)).toNat

/-- The length of the VP8 payload descriptor at an offset: the picture id in either width, the
index of the base layer, and a byte for the layer or the key. -/
def descriptorLength (data : Bytes) (offset : ℕ) : ℕ :=
  if peek data offset &&& 0x80 = 0 then 1
  else
    let flags := peek data (offset + 1)
    2 + (if flags &&& 0x80 = 0 then 0 else if peek data (offset + 2) &&& 0x80 = 0 then 1 else 2) +
      (if flags &&& 0x40 = 0 then 0 else 1) + (if flags &&& 0x30 = 0 then 0 else 1)

/-- The padding at the end of a packet, whose last byte is its length. -/
def paddingLength (buf : Bytes) : ℕ :=
  if peek buf 0 &&& 0x20 = 0 then 0 else (peek buf (buf.length - 1)).toNat

/-- Elements with headers of one byte fill the rest of a header extension, `n` bytes of which
are left of the element before. Nothing is read behind an element with id 15. -/
def oneByteElements : ℕ → Bytes → Bool
  | 0, [] => true
  | _ + 1, [] => false
  | n + 1, _ :: bs => oneByteElements n bs
  | 0, b :: bs =>
      if b = 0 then oneByteElements 0 bs
      else b >>> 4 ≠ 15 && oneByteElements ((b &&& 0x0F).toNat + 1) bs

/-- The same for headers of two bytes. -/
def twoByteElements : ℕ → Bytes → Bool
  | 0, [] => true
  | _ + 1, [] => false
  | n + 1, _ :: bs => twoByteElements n bs
  | 0, [b] => b = 0
  | 0, b :: l :: bs => if b = 0 then twoByteElements 0 (l :: bs) else twoByteElements l.toNat bs

/-- A header extension without its four bytes of profile and length. -/
def elements (buf : Bytes) : Bytes :=
  (buf.take (headerLength buf)).drop (16 + (peek buf 0 &&& 0x0F).toNat * 4)

/-- A header extension consists of elements if its profile says so, and of anything otherwise. -/
def ExtensionFits (buf : Bytes) : Prop :=
  let base := 12 + (peek buf 0 &&& 0x0F).toNat * 4
  let profile := (peek buf base).toUInt16 <<< 8 ||| (peek buf (base + 1)).toUInt16
  peek buf 0 &&& 0x10 ≠ 0 →
    (profile = 0xBEDE ∨ profile = 0xC0DE → oneByteElements 0 (elements buf) = true) ∧
    (profile &&& 0xFFF0 = 0x1000 ∨ profile = 0xC2DE → twoByteElements 0 (elements buf) = true)

/-- A packet of a VP8 stream with picture ids of width `w`: an RTP packet whose payload begins
with a descriptor with the extension and picture id bits set, and has something after it. -/
structure IsVP8 (w : Width) (buf : Bytes) : Prop where
  version : peek buf 0 &&& 0xC0 = 0x80
  extension : ExtensionFits buf
  padding : peek buf 0 &&& 0x20 ≠ 0 → paddingLength buf ≠ 0
  long : headerLength buf + descriptorLength buf (headerLength buf) + paddingLength buf < buf.length
  x : peek buf (headerLength buf) &&& 0x80 ≠ 0
  i : peek buf (headerLength buf + 1) &&& 0x80 ≠ 0
  m : peek buf (headerLength buf + 2) &&& 0x80 ≠ 0 ↔ w = .long

/-- The depacketiser finds the picture id of every such packet. -/
def Pion.ReadsPictureID (lib : Pion) : Prop :=
  ∀ w buf, IsVP8 w buf → ∃ packet vp8, lib.unmarshal buf = some packet ∧
    lib.unmarshalVP8 packet.payload = some vp8 ∧ vp8.pictureID.toNat = pictureID w buf

theorem pictureID_lt (w : Width) (buf : Bytes) : pictureID w buf < w.modulus := by
  have hl : (peek buf (headerLength buf + 3)).toNat < 256 := UInt8.toNat_lt _
  cases w <;> simp only [pictureID, Width.modulus] <;> omega

theorem twelve_le_headerLength (buf : Bytes) : 12 ≤ headerLength buf := by
  simp only [headerLength]
  split_ifs <;> omega

theorem peek_set (l : Bytes) (i j : ℕ) (b : UInt8) :
    peek (l.set i b) j = if i = j ∧ i < l.length then b else peek l j := by
  simp only [peek, List.getD_eq_getElem?_getD, List.getElem?_set]
  by_cases hij : i = j
  · subst hij
    by_cases hi : i < l.length <;> simp [hi]
  · simp [hij]

theorem byte_bind {α : Type} {data : Bytes} {i : ℕ} (h : i < data.length)
    (f : UInt8 → Except Error α) : (byte data i >>= f) = f (peek data i) := by
  simp [byte, peek, h, bind, Except.bind]

/-- Changing a byte that is not part of the header's layout. -/
theorem headerLength_set (buf : Bytes) {i : ℕ} (b : UInt8)
    (h : 1 ≤ i ∧ i < 12 ∨ headerLength buf ≤ i) :
    headerLength (buf.set i b) = headerLength buf := by
  have h0 : peek (buf.set i b) 0 = peek buf 0 := by
    rw [peek_set, if_neg]
    have := twelve_le_headerLength buf
    omega
  simp only [headerLength] at h ⊢
  rw [h0]
  split_ifs at h ⊢ with hext
  · rfl
  · rw [peek_set, if_neg (by omega), peek_set, if_neg (by omega)]

theorem elements_set (buf : Bytes) {i : ℕ} (b : UInt8)
    (h : 1 ≤ i ∧ i < 12 ∨ headerLength buf ≤ i) : elements (buf.set i b) = elements buf := by
  have h12 := twelve_le_headerLength buf
  rw [elements, headerLength_set buf b h, peek_set, if_neg (by omega), List.take_set, elements]
  rcases h with hlow | hhigh
  · rw [List.drop_set, if_pos (by omega)]
  · rw [List.set_eq_of_length_le ((List.length_take_le _ _).trans hhigh)]

theorem ExtensionFits.set {buf : Bytes} (hfits : ExtensionFits buf) {i : ℕ} (b : UInt8)
    (h : 1 ≤ i ∧ i < 12 ∨ headerLength buf ≤ i) : ExtensionFits (buf.set i b) := by
  have h12 := twelve_le_headerLength buf
  unfold ExtensionFits at hfits ⊢
  rw [elements_set buf b h, peek_set buf i 0, if_neg (by omega)]
  intro base profile hext
  have hbase : base + 4 ≤ headerLength buf := by
    simp only [headerLength, hext, if_false]
    omega
  have hprofile : profile = (peek buf base).toUInt16 <<< 8 ||| (peek buf (base + 1)).toUInt16 := by
    have hlow : 12 ≤ base := Nat.le_add_right ..
    change (peek _ _).toUInt16 <<< 8 ||| (peek _ _).toUInt16 = _
    rw [peek_set, if_neg (by omega), peek_set, if_neg (by omega)]
  rw [hprofile]
  exact hfits hext

theorem paddingLength_set {buf : Bytes} {i : ℕ} (b : UInt8) (h : 1 ≤ i) (h' : i + 1 < buf.length) :
    paddingLength (buf.set i b) = paddingLength buf := by
  have hfirst : peek (buf.set i b) 0 = peek buf 0 := by rw [peek_set, if_neg (by omega)]
  have hlast : peek (buf.set i b) (buf.length - 1) = peek buf (buf.length - 1) := by
    rw [peek_set, if_neg (by omega)]
  rw [paddingLength, hfirst, List.length_set, hlast, paddingLength]

/-- The picture id is in the descriptor. -/
theorem IsVP8.le_descriptorLength {w : Width} {buf : Bytes} (h : IsVP8 w buf) :
    2 + w.bytes ≤ descriptorLength buf (headerLength buf) := by
  have hwidth : (if peek buf (headerLength buf + 2) &&& 0x80 = 0 then 1 else 2) = w.bytes := by
    have hm := h.m
    cases w with
    | short => exact if_pos (not_not.mp fun hne => Width.noConfusion (hm.mp hne))
    | long => exact if_neg (hm.mpr rfl)
  rw [descriptorLength, if_neg h.x]
  dsimp only
  rw [if_neg h.i, hwidth]
  omega

theorem IsVP8.lt_length {w : Width} {buf : Bytes} (h : IsVP8 w buf) :
    headerLength buf + 2 + w.bytes < buf.length := by
  have hlong := h.long
  have hle := h.le_descriptorLength
  omega

theorem payloadOffset_eq {w : Width} {buf : Bytes} (h : IsVP8 w buf) :
    payloadOffset buf = .ok (headerLength buf) := by
  have hlong := h.lt_length
  have hw : 1 ≤ w.bytes := by cases w <;> decide
  rw [payloadOffset, byte_bind (by omega)]
  by_cases hext : peek buf 0 &&& 0x10 = 0
  · simp only [headerLength, hext, if_true] at hlong ⊢
    rw [if_neg (by omega), if_neg (by simp)]
  · simp only [headerLength, hext, if_false] at hlong ⊢
    rw [if_neg (by omega), if_pos hext, byte_bind (by omega), byte_bind (by omega)]
    simp only [toNat_word]
    rw [if_neg (by omega)]

/-- The marker, the sequence number and the picture id may change if its width is kept. -/
theorem IsVP8.set {w : Width} {buf : Bytes} (h : IsVP8 w buf) {i : ℕ} {b : UInt8}
    (hi : 1 ≤ i ∧ i < 12 ∨ headerLength buf + 2 ≤ i ∧ i < headerLength buf + 2 + w.bytes)
    (hm : i = headerLength buf + 2 → (128 ≤ b.toNat ↔ w = .long)) :
    IsVP8 w (buf.set i b) ∧ headerLength (buf.set i b) = headerLength buf := by
  have h12 := twelve_le_headerLength buf
  have hlong := h.lt_length
  have hi' : 1 ≤ i ∧ i < 12 ∨ headerLength buf ≤ i := by omega
  have hlength := headerLength_set buf b hi'
  have hpadding : paddingLength (buf.set i b) = paddingLength buf :=
    paddingLength_set b (by omega) (by omega)
  have hfirst : peek (buf.set i b) 0 = peek buf 0 := by rw [peek_set, if_neg (by omega)]
  have hx : peek (buf.set i b) (headerLength buf) = peek buf (headerLength buf) := by
    rw [peek_set, if_neg (by omega)]
  have hflags : peek (buf.set i b) (headerLength buf + 1) = peek buf (headerLength buf + 1) := by
    rw [peek_set, if_neg (by omega)]
  have hwidth : peek (buf.set i b) (headerLength buf + 2) &&& 0x80 ≠ 0 ↔ w = .long := by
    rw [peek_set]
    split_ifs with hset
    · rw [and_0x80_ne_zero]
      exact hm hset.1
    · exact h.m
  have hsame : peek (buf.set i b) (headerLength buf + 2) &&& 0x80 = 0 ↔
      peek buf (headerLength buf + 2) &&& 0x80 = 0 := not_iff_not.mp (hwidth.trans h.m.symm)
  have hdescriptor : descriptorLength (buf.set i b) (headerLength buf) =
      descriptorLength buf (headerLength buf) := by
    simp only [descriptorLength, hx, hflags, hsame]
  refine ⟨⟨?_, h.extension.set b hi', ?_, ?_, ?_, ?_, ?_⟩, hlength⟩
  · rw [hfirst]
    exact h.version
  · rw [hfirst, hpadding]
    exact h.padding
  · rw [hlength, hdescriptor, hpadding, List.length_set]
    exact h.long
  · rw [hlength, hx]
    exact h.x
  · rw [hlength, hflags]
    exact h.i
  · rw [hlength]
    exact hwidth

/-- The marker and the sequence number are outside the payload descriptor. -/
theorem IsVP8.set_header {w : Width} {buf : Bytes} (h : IsVP8 w buf) {i : ℕ} (b : UInt8)
    (h₁ : 1 ≤ i) (h₂ : i < 12) :
    IsVP8 w (buf.set i b) ∧ pictureID w (buf.set i b) = pictureID w buf := by
  have h12 := twelve_le_headerLength buf
  obtain ⟨hvp8, hlength⟩ := h.set (b := b) (.inl ⟨h₁, h₂⟩) fun hi => absurd hi (by omega)
  refine ⟨hvp8, ?_⟩
  simp only [pictureID, hlength]
  rw [peek_set, if_neg (by omega), peek_set, if_neg (by omega)]

theorem seqnoOf_set {buf : Bytes} {i : ℕ} (b : UInt8) (h : i ≠ 2) (h' : i ≠ 3) :
    seqnoOf (buf.set i b) = seqnoOf buf := by
  rw [seqnoOf, peek_set, peek_set, if_neg (by omega), if_neg (by omega), seqnoOf]

/-- Rewriting adds the delta to the picture id, in the width it has. -/
theorem rewritePictureID_eq {w : Width} {data : Bytes} (h : IsVP8 w data) (delta : UInt16) :
    ∃ out, rewritePictureID data (headerLength data) delta = .ok out ∧ IsVP8 w out ∧
      pictureID w out = (pictureID w data + delta.toNat) % w.modulus ∧
      seqnoOf out = seqnoOf data := by
  have hlong := h.lt_length
  have h12 := twelve_le_headerLength data
  have hw : 1 ≤ w.bytes := by cases w <;> decide
  have hmbit := h.m
  rw [and_0x80_ne_zero] at hmbit
  rw [rewritePictureID, byte_bind (by omega), if_neg h.x, if_neg (by omega), byte_bind (by omega),
    if_neg h.i, if_neg (by omega), byte_bind (by omega)]
  cases w with
  | short =>
      rw [if_neg (by rw [h.m]; simp)]
      refine ⟨_, rfl, ?_⟩
      set m := peek data (headerLength data + 2) with hmdef
      set b := (m + delta.toUInt8) &&& 0x7F with hb
      have hbval : b.toNat = (m.toNat + delta.toNat) % 128 := by
        rw [hb, toNat_and_0x7F, UInt8.toNat_add, UInt16.toNat_toUInt8]
        omega
      obtain ⟨hvp8, hlength⟩ := h.set (b := b) (.inr ⟨le_rfl, Nat.lt_succ_self _⟩)
        (fun _ => by simp only [hbval, reduceCtorEq, iff_false]; omega)
      refine ⟨hvp8, ?_, seqnoOf_set b (by omega) (by omega)⟩
      simp only [pictureID, hlength, peek_set, true_and, Width.modulus]
      rw [if_pos (by omega), hbval, ← hmdef]
      omega
  | long =>
      simp only [Width.bytes] at hlong
      rw [if_pos (h.m.mpr rfl), if_neg (by omega), byte_bind (by omega)]
      refine ⟨_, rfl, ?_⟩
      set m := peek data (headerLength data + 2) with hmdef
      set l := peek data (headerLength data + 3) with hldef
      obtain ⟨hhival, hloval⟩ := toNat_longID m l delta
      set pid := ((m &&& 0x7F).toUInt16 <<< 8 ||| l.toUInt16) + delta &&& 0x7FFF
      set hi := (0x80 : UInt8) ||| ((pid >>> 8) &&& 0x7F).toUInt8
      obtain ⟨hvp8, hlength⟩ := h.set (b := hi)
        (.inr ⟨le_rfl, Nat.lt_add_of_pos_right Nat.two_pos⟩)
        (fun _ => by simp only [hhival, iff_true]; omega)
      obtain ⟨hvp8', hlength'⟩ := hvp8.set (i := headerLength data + 3)
        (b := (pid &&& 0xFF).toUInt8) (.inr ⟨by omega, by rw [hlength]; exact Nat.lt_succ_self _⟩)
        (fun he => by omega)
      refine ⟨hvp8', ?_, ?_⟩
      · simp only [pictureID, hlength', hlength, peek_set, List.length_set, true_and,
          Width.modulus]
        rw [if_neg (by omega), if_pos (by omega), if_pos (by omega), hhival, hloval, ← hmdef,
          ← hldef]
        omega
      · rw [seqnoOf_set _ (by omega) (by omega), seqnoOf_set _ (by omega) (by omega)]

/-- A rewritten VP8 packet carries the new number, and the picture id plus the
delta. -/
theorem rewritePacket_vp8 {w : Width} {data : Bytes} (h : IsVP8 w data) (setMarker : Bool)
    (seqno delta : UInt16) :
    ∃ out, rewritePacket .vp8 data setMarker seqno delta = .ok out ∧ IsVP8 w out ∧
      pictureID w out = (pictureID w data + delta.toNat) % w.modulus ∧ seqnoOf out = seqno := by
  have hlong := h.lt_length
  have h12 := twelve_le_headerLength data
  set marked := if setMarker then data.set 1 (peek data 1 ||| 0x80) else data with hmarked
  have hm : IsVP8 w marked ∧ pictureID w marked = pictureID w data := by
    rw [hmarked]
    split_ifs
    · exact h.set_header _ (by omega) (by omega)
    · exact ⟨h, rfl⟩
  have hlen : marked.length = data.length := by
    rw [hmarked]
    split_ifs <;> simp
  have h₂ := hm.1.set_header (i := 2) (seqno >>> 8).toUInt8 (by omega) (by omega)
  have h₃ := h₂.1.set_header (i := 3) seqno.toUInt8 (by omega) (by omega)
  have hseqno : seqnoOf ((marked.set 2 (seqno >>> 8).toUInt8).set 3 seqno.toUInt8) = seqno := by
    rw [seqnoOf, peek_set, peek_set, peek_set, if_neg (by omega), if_pos (by omega),
      if_pos ⟨rfl, by simp only [List.length_set]; omega⟩, word_split]
  have hpid := h₃.2.trans (h₂.2.trans hm.2)
  simp only [rewritePacket]
  rw [if_neg (by omega), ← hmarked]
  split_ifs with hdelta
  · refine ⟨_, rfl, h₃.1, ?_, hseqno⟩
    rw [hpid, hdelta, show (0 : UInt16).toNat = 0 from rfl, add_zero,
      Nat.mod_eq_of_lt (pictureID_lt w data)]
  · obtain ⟨out, hout, hvp8, hpicture, hnumber⟩ := rewritePictureID_eq h₃.1 delta
    rw [payloadOffset_eq h₃.1]
    exact ⟨out, hout, hvp8, by rw [hpicture, hpid], by rw [hnumber, hseqno]⟩

/-- The flags of a VP8 packet carry the number and picture id in its bytes. -/
theorem packetFlags_vp8 {lib : Pion} (hlib : lib.ReadsPictureID) {w : Width} {buf : Bytes}
    (h : IsVP8 w buf) :
    ∃ flags, packetFlags lib .vp8 buf = .ok flags ∧ flags.seqno = seqnoOf buf ∧
      flags.pid.toNat = pictureID w buf := by
  obtain ⟨packet, vp8, hpacket, hvp8, hpid⟩ := hlib w buf h
  have hlong := h.lt_length
  have h12 := twelve_le_headerLength buf
  simp only [packetFlags]
  rw [if_neg (by omega)]
  simp only [hpacket, hvp8]
  exact ⟨_, rfl, rfl, hpid⟩

instance (buf : Bytes) : Decidable (ExtensionFits buf) :=
  inferInstanceAs (Decidable (_ → (_ ∨ _ → _) ∧ (_ ∨ _ → _)))

instance (w : Width) (buf : Bytes) : Decidable (IsVP8 w buf) :=
  decidable_of_iff
    (peek buf 0 &&& 0xC0 = 0x80 ∧ ExtensionFits buf ∧
      (peek buf 0 &&& 0x20 ≠ 0 → paddingLength buf ≠ 0) ∧
      headerLength buf + descriptorLength buf (headerLength buf) + paddingLength buf < buf.length ∧
      peek buf (headerLength buf) &&& 0x80 ≠ 0 ∧ peek buf (headerLength buf + 1) &&& 0x80 ≠ 0 ∧
      (peek buf (headerLength buf + 2) &&& 0x80 ≠ 0 ↔ w = .long))
    ⟨fun ⟨h₁, h₂, h₃, h₄, h₅, h₆, h₇⟩ => ⟨h₁, h₂, h₃, h₄, h₅, h₆, h₇⟩,
      fun ⟨h₁, h₂, h₃, h₄, h₅, h₆, h₇⟩ => ⟨h₁, h₂, h₃, h₄, h₅, h₆, h₇⟩⟩

/-- The picture id of a payload, read off the descriptor. -/
def descriptorPictureID (payload : Bytes) : UInt16 :=
  if peek payload 0 &&& 0x80 ≠ 0 ∧ peek payload 1 &&& 0x80 ≠ 0 then
    if peek payload 2 &&& 0x80 ≠ 0 then
      (peek payload 2 &&& 0x7F).toUInt16 <<< 8 ||| (peek payload 3).toUInt16
    else (peek payload 2).toUInt16
  else 0

/-- A depacketiser for packets without temporal layers. -/
def descriptorReader : Pion where
  unmarshal buf :=
    if buf.length < headerLength buf + paddingLength buf then none
    else
      some { marker := peek buf 1 &&& 0x80 ≠ 0
             payload := (buf.take (buf.length - paddingLength buf)).drop (headerLength buf) }
  unmarshalVP8 payload :=
    if payload.length < descriptorLength payload 0 then none
    else
      some { n := (peek payload 0 &&& 0x20) >>> 5, s := (peek payload 0 &&& 0x10) >>> 4
             pid := peek payload 0 &&& 0x07, pictureID := descriptorPictureID payload
             tid := 0, y := 0, payload := payload.drop (descriptorLength payload 0) }
  unmarshalVP9 _ := none

theorem descriptorReader_readsPictureID : descriptorReader.ReadsPictureID := by
  intro w buf h
  have hlong := h.long
  have hle := h.le_descriptorLength
  set payload := (buf.take (buf.length - paddingLength buf)).drop (headerLength buf) with hpayload
  have hpeek : ∀ k, k < descriptorLength buf (headerLength buf) →
      peek payload k = peek buf (headerLength buf + k) := by
    intro k hk
    rw [hpayload, peek, peek, List.getD_eq_getElem?_getD, List.getD_eq_getElem?_getD,
      List.getElem?_drop, List.getElem?_take_of_lt (by omega)]
  have hw : 1 ≤ w.bytes := by cases w <;> decide
  have h0 : peek payload 0 = peek buf (headerLength buf) := hpeek 0 (by omega)
  have h1 := hpeek 1 (by omega)
  have h2 := hpeek 2 (by omega)
  have hdescriptor : descriptorLength payload 0 = descriptorLength buf (headerLength buf) := by
    simp only [descriptorLength, Nat.zero_add, h0, h1, h2]
  have hlength : payload.length = buf.length - paddingLength buf - headerLength buf := by
    rw [hpayload, List.length_drop, List.length_take_of_le (Nat.sub_le ..)]
  refine ⟨_, _, if_neg (by omega), if_neg ?_, ?_⟩
  · rw [hdescriptor]
    change ¬ payload.length < _
    omega
  change (descriptorPictureID payload).toNat = pictureID w buf
  have hm := h.m
  rw [descriptorPictureID, h0, h1, h2, if_pos ⟨h.x, h.i⟩]
  cases w with
  | short =>
      have hshort : ¬ peek buf (headerLength buf + 2) &&& 0x80 ≠ 0 := by simpa using hm
      rw [if_neg hshort, UInt8.toNat_toUInt16]
      rw [and_0x80_ne_zero] at hshort
      simp only [pictureID]
      omega
  | long =>
      simp only [Width.bytes] at hle
      rw [if_pos (hm.mpr rfl), hpeek 3 (by omega), toNat_word, toNat_and_0x7F]
      rfl

end VP8

end Sozvon.Codecs
