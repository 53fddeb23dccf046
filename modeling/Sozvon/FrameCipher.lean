import Sozvon.EncryptedChat

/-!
# Encrypted frames

A frame goes out as its clear prefix, what the cipher made of the rest, and a
trailer of salt, counter and key id. The cipher is a parameter: it is `AES-GCM`,
which appends a tag of sixteen bytes.
-/
namespace Sozvon.E2EE

/-! ## Bytes -/

section ByteOperations

/-- `w & 0xff`, stored in a byte. -/
def octet (w : UInt32) : UInt8 := (w &&& 0xff).toUInt8

/-- The bitwise operators take a number modulo `2 ^ 32`. -/
def writeUint48 (buf : Bytes) (off n : ℕ) : Bytes :=
  let word (n : ℕ) := UInt32.ofNat n
  (((((buf.set off (octet (word (n / 0x10000000000)))).set
    (off + 1) (octet (word (n / 0x100000000)))).set
    (off + 2) (octet (word n >>> 24))).set
    (off + 3) (octet (word n >>> 16))).set
    (off + 4) (octet (word n >>> 8))).set
    (off + 5) (octet (word n))

def readUint48 (buf : Bytes) (off : ℕ) : ℕ :=
  (buf.getD off 0).toNat * 0x10000000000 + (buf.getD (off + 1) 0).toNat * 0x100000000 +
    (buf.getD (off + 2) 0).toNat * 0x1000000 + (buf.getD (off + 3) 0).toNat * 0x10000 +
    (buf.getD (off + 4) 0).toNat * 0x100 + (buf.getD (off + 5) 0).toNat

/-- `buf.set(a, off)` -/
def blit (buf a : Bytes) (off : ℕ) : Bytes := buf.take off ++ a ++ buf.drop (off + a.length)

def subarray (buf : Bytes) (first last : ℕ) : Bytes := (buf.take last).drop first

theorem subarray_append (a b c : Bytes) {first last : ℕ} (hfirst : first = a.length)
    (hlast : last = a.length + b.length) : subarray (a ++ b ++ c) first last = b := by
  rw [subarray, hlast, hfirst, ← List.length_append, List.take_left, List.drop_left]

theorem octet_toNat (w : UInt32) : (octet w).toNat = w.toNat % 256 := by
  have hmask : (0xff : UInt32).toNat = 2 ^ 8 - 1 := rfl
  rw [octet, UInt32.toNat_toUInt8, UInt32.toNat_and, hmask, Nat.and_two_pow_sub_one_eq_mod]
  omega

/-- The lower 32 bits hold what is shifted to the last eight. -/
theorem octet_shift {n k : ℕ} (hk : k ≤ 24) :
    octet (.ofNat n >>> .ofNat k) = UInt8.ofNat (n / 2 ^ k % 256) := by
  apply UInt8.toNat.inj
  have hsmall : k % 2 ^ 32 % 32 = k := by omega
  have hdiv : n % 2 ^ 32 / 2 ^ k = n / 2 ^ k % 2 ^ (32 - k) := by
    have hpow : 2 ^ 32 = 2 ^ k * 2 ^ (32 - k) := by
      rw [← Nat.pow_add, Nat.add_sub_cancel' (by omega)]
    rw [hpow, Nat.mod_mul_right_div_self]
  have hdvd : 256 ∣ 2 ^ (32 - k) := Nat.pow_dvd_pow 2 (show 8 ≤ 32 - k by omega)
  rw [octet_toNat, UInt32.toNat_shiftRight, UInt32.toNat_ofNat', UInt32.toNat_ofNat', hsmall,
    Nat.shiftRight_eq_div_pow, hdiv, Nat.mod_mod_of_dvd _ hdvd, UInt8.toNat_ofNat', Nat.mod_mod]

theorem octet_word (n : ℕ) : octet (.ofNat n) = UInt8.ofNat (n % 256) := by
  apply UInt8.toNat.inj
  rw [octet_toNat, UInt32.toNat_ofNat', UInt8.toNat_ofNat']
  omega

theorem uint48_eq (n : ℕ) : uint48 n = [octet (.ofNat (n / 2 ^ 40)), octet (.ofNat (n / 2 ^ 32)),
    octet (UInt32.ofNat n >>> 24), octet (UInt32.ofNat n >>> 16), octet (UInt32.ofNat n >>> 8),
    octet (.ofNat n)] := by
  have hbyte (k : ℕ) : UInt8.ofNat ((n : ℤ) / 2 ^ k % 256).toNat = UInt8.ofNat (n / 2 ^ k % 256) :=
    congrArg UInt8.ofNat (by norm_cast)
  have h₂₄ : octet (UInt32.ofNat n >>> 24) = UInt8.ofNat (n / 2 ^ 24 % 256) :=
    octet_shift (k := 24) (by omega)
  have h₁₆ : octet (UInt32.ofNat n >>> 16) = UInt8.ofNat (n / 2 ^ 16 % 256) :=
    octet_shift (k := 16) (by omega)
  have h₈ : octet (UInt32.ofNat n >>> 8) = UInt8.ofNat (n / 2 ^ 8 % 256) :=
    octet_shift (k := 8) (by omega)
  rw [octet_word, octet_word, h₂₄, h₁₆, h₈, octet_word, uint48]
  simp only [List.map_cons, List.map_nil, hbyte, Nat.pow_zero, Nat.div_one]

@[simp] theorem length_uint48 (n : ℤ) : (uint48 n).length = 6 := rfl

/-- The six bytes at the offset are replaced. -/
theorem writeUint48_append {a gap b : Bytes} (hgap : gap.length = 6) (n : ℕ) :
    writeUint48 (a ++ gap ++ b) a.length n = a ++ uint48 n ++ b := by
  obtain ⟨g₅, g₄, g₃, g₂, g₁, g₀, rfl⟩ : ∃ g₅ g₄ g₃ g₂ g₁ g₀, gap = [g₅, g₄, g₃, g₂, g₁, g₀] := by
    match gap, hgap with
    | [g₅, g₄, g₃, g₂, g₁, g₀], _ => exact ⟨g₅, g₄, g₃, g₂, g₁, g₀, rfl⟩
  rw [uint48_eq]
  simp [writeUint48]

theorem readUint48_append {a b : Bytes} {n : ℕ} (hn : n < 2 ^ 48) :
    readUint48 (a ++ uint48 n ++ b) a.length = n := by
  have hbyte (k : ℕ) : (UInt8.ofNat ((n : ℤ) / 2 ^ k % 256).toNat).toNat = n / 2 ^ k % 256 := by
    have hcast : ((n : ℤ) / 2 ^ k % 256).toNat = n / 2 ^ k % 256 := by norm_cast
    rw [hcast, UInt8.toNat_ofNat', Nat.mod_mod]
  have hget (i : ℕ) : (a ++ (uint48 n ++ b)).getD (a.length + i) 0 = (uint48 n ++ b).getD i 0 := by
    rw [List.getD_eq_getElem?_getD, List.getElem?_append_right (Nat.le_add_right _ _),
      Nat.add_sub_cancel_left, List.getD_eq_getElem?_getD]
  have hzero := hget 0
  rw [Nat.add_zero] at hzero
  simp only [readUint48, List.append_assoc, hget, hzero]
  simp only [uint48, List.map_cons, List.map_nil, List.cons_append, List.getD_cons_zero,
    List.getD_cons_succ, hbyte]
  omega

/-- An empty buffer, written from its beginning. -/
theorem writeUint48_zeros {a b : Bytes} {off : ℕ} (ha : a.length = off) (n : ℕ) :
    writeUint48 (a ++ List.replicate 6 0 ++ b) off n = a ++ uint48 n ++ b := by
  subst off
  exact writeUint48_append List.length_replicate n

end ByteOperations

/-! ## Sealing and opening -/

section Definitions

def TAG_BYTES : ℕ := 16

def SALT_BYTES : ℕ := 6

def TRAILER_BYTES : ℕ := SALT_BYTES + 6 + 1

def OVERHEAD : ℕ := TAG_BYTES + TRAILER_BYTES

variable {κ : Type}

/-- `subtle.encrypt` and `subtle.decrypt` of `AES-GCM`: of key, IV, associated data
and text. -/
structure AEAD (κ : Type) where
  encrypt : κ → Bytes → Bytes → Bytes → Bytes
  decrypt : κ → Bytes → Bytes → Bytes → Option Bytes

/-- What is sealed opens under what it was sealed with, and is longer by the tag. -/
structure AEAD.Ideal (A : AEAD κ) : Prop where
  opens : ∀ key iv aad text, A.decrypt key iv aad (A.encrypt key iv aad text) = some text
  length : ∀ key iv aad text, (A.encrypt key iv aad text).length = text.length + TAG_BYTES

def clearPrefixLength (isVideo isKeyFrame : Bool) : ℕ :=
  if !isVideo then 0 else if isKeyFrame then 10 else 1

def ivFromSaltCounter (salt : Bytes) (counter : ℕ) : Bytes :=
  writeUint48 (blit (List.replicate 12 0) salt 0) 6 counter

def encryptFrame (A : AEAD κ) (plain : Bytes) (isVideo isKeyFrame : Bool) (key : κ) (salt : Bytes)
    (counter keyId : ℕ) : Bytes :=
  let prefixLen := min (clearPrefixLength isVideo isKeyFrame) plain.length
  let header := plain.take prefixLen
  let body := plain.drop prefixLen
  let iv := ivFromSaltCounter salt counter
  let ct := A.encrypt key iv header body
  let trailer := blit (List.replicate TRAILER_BYTES 0) salt 0
  let trailer := writeUint48 trailer SALT_BYTES counter
  let trailer := trailer.set (SALT_BYTES + 6) (octet (.ofNat keyId))
  header ++ ct ++ trailer

/-- A failure comes with its message. -/
def decryptFrame (A : AEAD κ) (data : Bytes) (isVideo isKeyFrame : Bool)
    (keyResolver : UInt8 → Option κ) : Except String Bytes :=
  if data.length < OVERHEAD then .error "frame too short to be encrypted"
  else
    let salt := subarray data (data.length - TRAILER_BYTES) (data.length - 7)
    let counter := readUint48 data (data.length - 7)
    let keyId := data.getD (data.length - 1) 0
    match keyResolver keyId with
    | none => .error ("no key for keyId " ++ toString keyId)
    | some key =>
        let cipherEnd := data.length - TRAILER_BYTES
        let prefixLen : ℤ := min (clearPrefixLength isVideo isKeyFrame) (cipherEnd - TAG_BYTES : ℤ)
        if prefixLen < 0 then .error "malformed encrypted frame"
        else
          let header := subarray data 0 prefixLen.toNat
          let ct := subarray data prefixLen.toNat cipherEnd
          let iv := ivFromSaltCounter salt counter
          match A.decrypt key iv header ct with
          | none => .error "OperationError"
          | some body => .ok (header ++ body)

/-- What `makeEncryptor` keeps for a transform. -/
structure Encryptor where
  salt : Bytes
  counter : ℕ := 0

/-- A frame, and what the worker holds when it comes. -/
structure Arriving (κ : Type) where
  data : Bytes
  isKey : Bool
  cleartextMode : Bool
  key : Option κ
  sendKeyId : ℕ

/-- What the transform makes of a frame. Of a sealed one it says the IV as well. -/
inductive Outgoing where
  | asIs (data : Bytes)
  | dropped
  | enciphered (iv out : Bytes)

def Encryptor.transform (A : AEAD κ) (isVideo : Bool) (e : Encryptor) (a : Arriving κ) :
    Encryptor × Outgoing :=
  if a.cleartextMode then (e, .asIs a.data)
  else
    match a.key with
    | none => (e, .dropped)
    | some key =>
        let isKey := isVideo && a.isKey
        ({ e with counter := e.counter + 1 }, .enciphered (ivFromSaltCounter e.salt e.counter)
          (encryptFrame A a.data isVideo isKey key e.salt e.counter a.sendKeyId))

def Encryptor.run (A : AEAD κ) (isVideo : Bool) (e : Encryptor) : List (Arriving κ) → List Outgoing
  | [] => []
  | a :: as => (e.transform A isVideo a).2 :: (e.transform A isVideo a).1.run A isVideo as

def Outgoing.iv? : Outgoing → Option Bytes
  | .asIs _ | .dropped => none
  | .enciphered iv _ => some iv

end Definitions

section Proofs

variable {κ : Type} {A : AEAD κ} {salt : Bytes}

theorem ivFromSaltCounter_eq (hsalt : salt.length = 6) (counter : ℕ) :
    ivFromSaltCounter salt counter = salt ++ uint48 counter := by
  have hzeros : (List.replicate 12 0 : Bytes).drop salt.length = List.replicate 6 0 ++ [] := by
    rw [hsalt]
    rfl
  rw [ivFromSaltCounter, blit, List.take_zero, List.nil_append, Nat.zero_add, hzeros,
    ← List.append_assoc, writeUint48_zeros hsalt, List.append_nil]

/-- Salts of six bytes and counters of 48 bits can be read off the IV. -/
theorem ivFromSaltCounter_inj {salt' : Bytes} {counter counter' : ℕ} (hsalt : salt.length = 6)
    (hsalt' : salt'.length = 6) (hcounter : counter < 2 ^ 48) (hcounter' : counter' < 2 ^ 48)
    (h : ivFromSaltCounter salt counter = ivFromSaltCounter salt' counter') :
    salt = salt' ∧ counter = counter' := by
  rw [ivFromSaltCounter_eq hsalt, ivFromSaltCounter_eq hsalt'] at h
  obtain ⟨hsame, hbytes⟩ := List.append_inj h (hsalt.trans hsalt'.symm)
  have hmod := uint48_inj hbytes
  exact ⟨hsame, by omega⟩

theorem trailer_eq (hsalt : salt.length = 6) (counter : ℕ) (keyId : UInt8) :
    (writeUint48 (blit (List.replicate TRAILER_BYTES 0) salt 0) SALT_BYTES counter).set
      (SALT_BYTES + 6) keyId = salt ++ uint48 counter ++ [keyId] := by
  have hzeros : (List.replicate TRAILER_BYTES 0 : Bytes).drop salt.length =
      List.replicate 6 0 ++ [0] := by
    rw [hsalt]
    rfl
  have hlength : (salt ++ uint48 counter).length = SALT_BYTES + 6 := by
    rw [List.length_append, hsalt, length_uint48, SALT_BYTES]
  rw [blit, List.take_zero, List.nil_append, Nat.zero_add, hzeros, ← List.append_assoc,
    writeUint48_zeros (show salt.length = SALT_BYTES from hsalt), ← hlength,
    List.set_append_right _ _ (Nat.le_refl _), Nat.sub_self, List.set_cons_zero]

/-- The parts of a frame, each where the other end looks for it. -/
theorem decryptFrame_append {header ct : Bytes} {isVideo isKeyFrame : Bool} {counter : ℕ}
    {keyId : UInt8} {key : κ} {keyResolver : UInt8 → Option κ} (hsalt : salt.length = 6)
    (hcounter : counter < 2 ^ 48) (hkey : keyResolver keyId = some key)
    (htag : TAG_BYTES ≤ ct.length)
    (hheader : header.length =
      min (clearPrefixLength isVideo isKeyFrame) (header.length + (ct.length - TAG_BYTES))) :
    decryptFrame A (header ++ ct ++ (salt ++ uint48 counter ++ [keyId])) isVideo isKeyFrame
      keyResolver = match A.decrypt key (ivFromSaltCounter salt counter) header ct with
        | none => .error "OperationError"
        | some body => .ok (header ++ body) := by
  set data := header ++ ct ++ (salt ++ uint48 counter ++ [keyId]) with hdata
  have hlength : data.length = header.length + ct.length + 13 := by
    simp only [hdata, List.length_append, hsalt, length_uint48, List.length_singleton]
  have hlong : ¬ data.length < OVERHEAD := by
    rw [hlength, OVERHEAD, TRAILER_BYTES, SALT_BYTES]
    omega
  have hcipher : data.length - TRAILER_BYTES = header.length + ct.length := by
    rw [hlength, TRAILER_BYTES, SALT_BYTES]
    omega
  have hsub : subarray data (data.length - TRAILER_BYTES) (data.length - 7) = salt := by
    have hsplit : data = header ++ ct ++ salt ++ (uint48 counter ++ [keyId]) := by
      simp only [hdata, List.append_assoc]
    rw [hcipher, hlength, hsplit]
    exact subarray_append _ _ _ List.length_append.symm
      (by rw [List.length_append, hsalt]; omega)
  have hread : readUint48 data (data.length - 7) = counter := by
    have hsplit : data = header ++ ct ++ salt ++ uint48 counter ++ [keyId] := by
      simp only [hdata, List.append_assoc]
    have hoff : data.length - 7 = (header ++ ct ++ salt).length := by
      rw [hlength, List.length_append, List.length_append, hsalt]
      omega
    rw [hoff, hsplit, readUint48_append hcounter]
  have hlast : data.getD (data.length - 1) 0 = keyId := by
    have hsplit : data = header ++ ct ++ (salt ++ uint48 counter) ++ [keyId] := by
      simp only [hdata, List.append_assoc]
    have hoff : data.length - 1 = (header ++ ct ++ (salt ++ uint48 counter)).length := by
      rw [hsplit, List.length_append, List.length_singleton, Nat.add_sub_cancel]
    rw [hoff, hsplit, List.getD_eq_getElem?_getD, List.getElem?_concat_length, Option.getD_some]
  have hclearLen : min (clearPrefixLength isVideo isKeyFrame : ℤ)
      ((data.length - TRAILER_BYTES : ℕ) - TAG_BYTES : ℤ) = header.length := by
    rw [hcipher]
    omega
  have hclear : subarray data 0 header.length = header := by
    rw [hdata, List.append_assoc]
    exact subarray_append [] header _ rfl (Nat.zero_add _).symm
  have hct : subarray data header.length (header.length + ct.length) = ct :=
    subarray_append header ct _ rfl rfl
  rw [decryptFrame, if_neg hlong]
  dsimp only
  rw [hlast, hkey]
  dsimp only
  rw [hclearLen, if_neg (by omega), hsub, hread, hcipher, Int.toNat_natCast, hclear, hct]

/-- What `encryptFrame` has made is opened again. -/
theorem decryptFrame_encryptFrame (hA : A.Ideal) (hsalt : salt.length = 6) (plain : Bytes)
    (isVideo isKeyFrame : Bool) {key : κ} {counter keyId : ℕ} {keyResolver : UInt8 → Option κ}
    (hcounter : counter < 2 ^ 48) (hkey : keyResolver (.ofNat keyId) = some key) :
    decryptFrame A (encryptFrame A plain isVideo isKeyFrame key salt counter keyId) isVideo
      isKeyFrame keyResolver = .ok plain := by
  have hoctet : octet (.ofNat keyId) = UInt8.ofNat keyId := by
    rw [octet_word]
    exact UInt8.ofNat_mod_size
  have hct := hA.length key (ivFromSaltCounter salt counter)
    (plain.take (min (clearPrefixLength isVideo isKeyFrame) plain.length))
    (plain.drop (min (clearPrefixLength isVideo isKeyFrame) plain.length))
  rw [List.length_drop] at hct
  rw [encryptFrame, hoctet, trailer_eq hsalt, decryptFrame_append hsalt hcounter hkey (by omega)
    (by rw [List.length_take, hct]; omega), hA.opens]
  exact congrArg Except.ok (List.take_append_drop _ plain)

/-- The clear prefix is the frame's own. -/
theorem take_encryptFrame (plain : Bytes) (isVideo isKeyFrame : Bool) (key : κ)
    (salt : Bytes) (counter keyId : ℕ) :
    (encryptFrame A plain isVideo isKeyFrame key salt counter keyId).take
        (min (clearPrefixLength isVideo isKeyFrame) plain.length) =
      plain.take (clearPrefixLength isVideo isKeyFrame) := by
  have hlength : (plain.take (min (clearPrefixLength isVideo isKeyFrame) plain.length)).length =
      min (clearPrefixLength isVideo isKeyFrame) plain.length := by
    rw [List.length_take, Nat.min_assoc, Nat.min_self]
  rw [encryptFrame, List.append_assoc, List.take_left' hlength]
  exact List.take_eq_take_iff.mpr (by rw [Nat.min_assoc, Nat.min_self])

/-- The counter stands seven bytes before the end. -/
theorem readUint48_encryptFrame (hsalt : salt.length = 6) (plain : Bytes)
    (isVideo isKeyFrame : Bool) (key : κ) {counter : ℕ} (keyId : ℕ) (hcounter : counter < 2 ^ 48) :
    readUint48 (encryptFrame A plain isVideo isKeyFrame key salt counter keyId)
      ((encryptFrame A plain isVideo isKeyFrame key salt counter keyId).length - 7) = counter := by
  rw [encryptFrame, trailer_eq hsalt]
  generalize plain.take _ ++ _ = front
  have hsplit : front ++ (salt ++ uint48 counter ++ [octet (.ofNat keyId)]) =
      front ++ salt ++ uint48 counter ++ [octet (.ofNat keyId)] := by
    simp only [List.append_assoc]
  have hoff : (front ++ salt ++ uint48 counter ++ [octet (.ofNat keyId)]).length - 7 =
      (front ++ salt).length := by
    simp only [List.length_append, length_uint48, List.length_singleton]
    omega
  rw [hsplit, hoff, readUint48_append hcounter]

/-- A transform counts on from where it is. -/
theorem mem_ivs {isVideo : Bool} {e : Encryptor} {as : List (Arriving κ)} {iv : Bytes}
    (h : iv ∈ (e.run A isVideo as).filterMap Outgoing.iv?) :
    ∃ counter, e.counter ≤ counter ∧
      counter < e.counter + ((e.run A isVideo as).filterMap Outgoing.iv?).length ∧
      iv = ivFromSaltCounter e.salt counter := by
  induction as generalizing e with
  | nil => cases h
  | cons a as ih =>
      rw [Encryptor.run, List.filterMap_cons] at h ⊢
      unfold Encryptor.transform at h ⊢
      split_ifs at h ⊢ with hmode
      · exact ih h
      · cases hkey : a.key with
        | none =>
            rw [hkey] at h
            exact ih h
        | some key =>
            rw [hkey] at h
            simp only [Outgoing.iv?, List.length_cons] at h ⊢
            rcases List.mem_cons.mp h with rfl | h
            · exact ⟨e.counter, Nat.le_refl _, by omega, rfl⟩
            · obtain ⟨counter, hle, hlt, hiv⟩ := ih h
              dsimp only at hle hlt hiv
              exact ⟨counter, by omega, by omega, hiv⟩

theorem nodup_ivs {isVideo : Bool} {e : Encryptor} {as : List (Arriving κ)}
    (hsalt : e.salt.length = 6)
    (hcounter : e.counter + ((e.run A isVideo as).filterMap Outgoing.iv?).length ≤ 2 ^ 48) :
    ((e.run A isVideo as).filterMap Outgoing.iv?).Nodup := by
  induction as generalizing e with
  | nil => exact List.nodup_nil
  | cons a as ih =>
      rw [Encryptor.run, List.filterMap_cons] at hcounter ⊢
      unfold Encryptor.transform at hcounter ⊢
      split_ifs at hcounter ⊢ with hmode
      · exact ih hsalt hcounter
      · cases hkey : a.key with
        | none =>
            rw [hkey] at hcounter
            exact ih hsalt hcounter
        | some key =>
            rw [hkey] at hcounter
            simp only [Outgoing.iv?, List.length_cons] at hcounter ⊢
            refine List.nodup_cons.mpr ⟨fun hmem => ?_, ih hsalt (by dsimp only; omega)⟩
            obtain ⟨counter, hle, hlt, hiv⟩ := mem_ivs hmem
            dsimp only at hle hlt hiv
            have hsame := (ivFromSaltCounter_inj hsalt hsalt (by omega) (by omega) hiv).2
            omega

/-- Frames of any length and kind come back as they were, behind a clear prefix, with
their counter in the trailer; no two share an IV. -/
theorem frames_roundTrip (hA : A.Ideal) :
    (∀ (plain : Bytes) (isVideo isKeyFrame : Bool) (key : κ) (salt : Bytes) (counter keyId : ℕ)
        (keyResolver : UInt8 → Option κ), salt.length = 6 → counter < 2 ^ 48 → keyId < 256 →
        keyResolver (.ofNat keyId) = some key →
      let out := encryptFrame A plain isVideo isKeyFrame key salt counter keyId
      decryptFrame A out isVideo isKeyFrame keyResolver = .ok plain ∧
        out.take (min (clearPrefixLength isVideo isKeyFrame) plain.length) =
          plain.take (clearPrefixLength isVideo isKeyFrame) ∧
        readUint48 out (out.length - 7) = counter) ∧
    (∀ (salt salt' : Bytes) (counter counter' : ℕ), salt.length = 6 → salt'.length = 6 →
        counter < 2 ^ 48 → counter' < 2 ^ 48 →
        ivFromSaltCounter salt counter = ivFromSaltCounter salt' counter' →
      salt = salt' ∧ counter = counter') ∧
    ∀ (isVideo : Bool) (salt : Bytes) (as : List (Arriving κ)), salt.length = 6 →
        ((Encryptor.run A isVideo { salt } as).filterMap Outgoing.iv?).length ≤ 2 ^ 48 →
      ((Encryptor.run A isVideo { salt } as).filterMap Outgoing.iv?).Nodup := by
  refine ⟨?_, ?_, ?_⟩
  · intro plain isVideo isKeyFrame key salt counter keyId keyResolver hsalt hcounter _ hkey out
    exact ⟨decryptFrame_encryptFrame hA hsalt plain isVideo isKeyFrame hcounter hkey,
      take_encryptFrame plain isVideo isKeyFrame key salt counter keyId,
      readUint48_encryptFrame hsalt plain isVideo isKeyFrame key keyId hcounter⟩
  · intro salt salt' counter counter' hsalt hsalt' hcounter hcounter' h
    exact ivFromSaltCounter_inj hsalt hsalt' hcounter hcounter' h
  · intro isVideo salt as hsalt hcounter
    exact nodup_ivs hsalt (by rwa [Nat.zero_add])

end Proofs

section Samples

/-- A cipher that shifts every byte, with a tag of what it is given. -/
def shiftCipher : AEAD UInt8 :=
  let tag (key : UInt8) (iv aad text : Bytes) :=
    (key :: iv ++ aad ++ text ++ List.replicate TAG_BYTES 0).take TAG_BYTES
  { encrypt := fun key iv aad text => text.map (· + key) ++ tag key iv aad text
    decrypt := fun key iv aad ct =>
      let text := (ct.take (ct.length - TAG_BYTES)).map (· - key)
      if ct.drop (ct.length - TAG_BYTES) = tag key iv aad text then some text else none }

theorem ideal_shiftCipher : shiftCipher.Ideal := by
  have htag (bytes : Bytes) :
      ((bytes ++ List.replicate TAG_BYTES 0).take TAG_BYTES).length = TAG_BYTES := by
    rw [List.length_take, List.length_append, List.length_replicate]
    omega
  constructor
  · intro key iv aad text
    have hback : (text.map (· + key)).map (· - key) = text := by
      have hid : (fun b : UInt8 => b - key) ∘ (fun b => b + key) = id :=
        funext fun b => UInt8.add_sub_cancel b key
      rw [List.map_map, hid, List.map_id]
    simp only [shiftCipher, List.length_append, htag, Nat.add_sub_cancel, List.take_left,
      List.drop_left, hback]
    exact if_pos trivial
  · intro key iv aad text
    simp only [shiftCipher, List.length_append, htag, List.length_map]

/-- A key frame that is shorter than its clear prefix could be. -/
theorem frames_roundTrip_short : decryptFrame shiftCipher
    (encryptFrame shiftCipher [1, 2, 3] true true 5 [9, 8, 7, 6, 5, 4] 0x123456789a 3) true true
    (fun keyId => if keyId = 3 then some 5 else none) = .ok [1, 2, 3] :=
  ((frames_roundTrip ideal_shiftCipher).1 [1, 2, 3] true true 5 [9, 8, 7, 6, 5, 4] 0x123456789a 3
    (fun keyId => if keyId = 3 then some 5 else none) rfl (by decide) (by decide) rfl).1

end Samples

end Sozvon.E2EE
