import Sozvon.Json

/-!
# Stored passwords

A password and its JSON. A plain password is written as a string, and a string is
read as a plain password.
-/
namespace Sozvon.Group

open Json

structure Password where
  type : String := ""
  hash : String := ""
  key : Option String := none
  salt : String := ""
  iterations : Int64 := 0
deriving DecidableEq

/-- Copying leaves a buffer of the length of `a` with as much of `b` as it has room for. -/
def constantTimeCompare (a b : List UInt8) : Bool :=
  let bs := (b ++ List.replicate a.length 0).take a.length
  a.length = b.length && a = bs

theorem constantTimeCompare_iff (a b : List UInt8) : constantTimeCompare a b = true ↔ a = b := by
  unfold constantTimeCompare
  constructor
  · intro h
    obtain ⟨hlength, hbuffer⟩ : a.length = b.length ∧
        a = (b ++ List.replicate a.length 0).take a.length := by simpa using h
    rw [hbuffer, hlength]
    simp
  · rintro rfl
    simp

def hexDigit (c : Char) : Option ℕ :=
  if '0' ≤ c ∧ c ≤ '9' then some (c.toNat - '0'.toNat)
  else if 'a' ≤ c ∧ c ≤ 'f' then some (c.toNat - 'a'.toNat + 10)
  else if 'A' ≤ c ∧ c ≤ 'F' then some (c.toNat - 'A'.toNat + 10)
  else none

/-- `hex.DecodeString` -/
def hexDecode : List Char → Option (List UInt8)
  | [] => some []
  | [_] => none
  | a :: b :: rest => do
      let high ← hexDigit a
      let low ← hexDigit b
      return (16 * high + low).toUInt8 :: (← hexDecode rest)

/-- What `Match` returns for a password that is not accepted. -/
inductive MatchError where
  | missingKey
  | badHex
  | unknownHash
  | badKey
  | unknownType
deriving DecidableEq

/-- The functions of `golang.org/x/crypto`. -/
structure Crypto where
  /-- `pbkdf2.Key` with SHA-256, of a password, a salt, a number of iterations and a length. -/
  pbkdf2 : List UInt8 → List UInt8 → Int64 → ℕ → List UInt8
  /-- `bcrypt.CompareHashAndPassword`: whether the password matches, if the hash is one. -/
  bcrypt : String → List UInt8 → Option Bool

namespace Password

variable (crypto : Crypto)

def «match» (p : Password) (pw : List UInt8) : Except MatchError Bool :=
  if p.type = "" then .ok false
  else if p.type = "plain" then
    match p.key with
    | none => .error .missingKey
    | some key => .ok (constantTimeCompare pw key.toUTF8.toList)
  else if p.type = "wildcard" then .ok true
  else if p.type = "pbkdf2" then
    match p.key with
    | none => .error .missingKey
    | some key =>
        match hexDecode key.toList, hexDecode p.salt.toList with
        | some key, some salt =>
            if p.hash = "sha-256" then .ok (crypto.pbkdf2 pw salt p.iterations key.length = key)
            else .error .unknownHash
        | _, _ => .error .badHex
  else if p.type = "bcrypt" then
    match p.key with
    | none => .error .missingKey
    | some key =>
        match crypto.bcrypt key pw with
        | some equal => .ok equal
        | none => .error .badKey
  else .error .unknownType

/-- The candidates that are accepted. -/
def accepts (p : Password) (pw : List UInt8) : Prop := p.match crypto pw = .ok true

end Password

/-! ## JSON -/

namespace Password

/-- The fields of a `RawPassword`. -/
def fields : List (String × Decoder Password) :=
  [("type", part (·.type) (fun p a => { p with type := a }) string),
    ("hash", part (·.hash) (fun p a => { p with hash := a }) string),
    ("key", part (·.key) (fun p a => { p with key := a }) (pointer "" string)),
    ("salt", part (·.salt) (fun p a => { p with salt := a }) string),
    ("iterations", part (·.iterations) (fun p a => { p with iterations := a }) int64)]

/-- What can be read as a string, as `null` can, is the key of a plain password. -/
def unmarshalJSON (j : Json) : Except Unit Password :=
  match string j "" with
  | .ok k => .ok { type := "plain", key := some k }
  | .error _ => struct false fields j {}

def marshalRaw (p : Password) : Json :=
  .obj (ofString "type" p.type ++ ofString "hash" p.hash ++ omitempty "key" .str p.key ++
    ofString "salt" p.salt ++
    omitempty "iterations" ofInt64 (if p.iterations = 0 then none else some p.iterations))

def marshalJSON (p : Password) : Json :=
  if p.type = "plain" ∧ p.hash = "" ∧ p.salt = "" ∧ p.iterations = 0 then
    match p.key with
    | none => .null
    | some key => .str key
  else p.marshalRaw

end Password

/-- The names of `permissionsMap`. -/
inductive PermissionsName where
  | op | present | message | observe | caption | admin
deriving DecidableEq, Repr

def PermissionsName.toString : PermissionsName → String
  | .op => "op"
  | .present => "present"
  | .message => "message"
  | .observe => "observe"
  | .caption => "caption"
  | .admin => "admin"

def PermissionsName.all : List PermissionsName :=
  [.op, .present, .message, .observe, .caption, .admin]

inductive Permissions where
  | named (name : PermissionsName)
  | unnamed (permissions : Option (List String))
deriving DecidableEq, Repr

namespace Permissions

def unmarshalJSON (j : Json) : Except Unit Permissions :=
  match slice "" string j none with
  | .ok a => .ok (.unnamed a)
  | .error _ =>
      match string j "" with
      | .ok s =>
          match PermissionsName.all.find? fun name => name.toString = s with
          | some name => .ok (.named name)
          | none => .error ()
      | .error _ => .error ()

def marshalJSON : Permissions → Json
  | .named name => .str name.toString
  | .unnamed none => .null
  | .unnamed (some a) => .arr (a.map .str)

end Permissions

structure UserDescription where
  password : Password := {}
  permissions : Permissions := .unnamed none
deriving DecidableEq

namespace UserDescription

def fields : List (String × Decoder UserDescription) :=
  [("password", part (·.password) (fun u a => { u with password := a })
      (unmarshaler Password.unmarshalJSON)),
    ("permissions", part (·.permissions) (fun u a => { u with permissions := a })
      (unmarshaler Permissions.unmarshalJSON))]

def read (strict : Bool) : Decoder UserDescription := struct strict fields

/-- Without a password that has no type, and without permissions that nobody has set. -/
def marshalJSON (u : UserDescription) : Json :=
  .obj (omitempty "password" Password.marshalJSON
      (if u.password.type = "" then none else some u.password) ++
    omitempty "permissions" Permissions.marshalJSON
      (if u.permissions = .unnamed none then none else some u.permissions))

end UserDescription

/-! ## Reading what was written -/

namespace Password

/-- A plain password with nothing else. -/
def Keyless (p : Password) : Prop :=
  p.type = "plain" ∧ p.key = none ∧ p.hash = "" ∧ p.salt = "" ∧ p.iterations = 0

instance (p : Password) : Decidable p.Keyless := inferInstanceAs (Decidable (_ ∧ _))

theorem read_marshalRaw (p : Password) : struct false fields p.marshalRaw {} = .ok p := by
  have htype : readMembers false fields (ofString "type" p.type) {} = .ok { type := p.type } :=
    readMembers_ofString rfl (fun h => by rw [h]) rfl
  have hhash : readMembers false fields (ofString "hash" p.hash) { type := p.type } =
      .ok { type := p.type, hash := p.hash } :=
    readMembers_ofString rfl (fun h => by rw [h]) rfl
  have hkey : readMembers false fields (omitempty "key" .str p.key)
      { type := p.type, hash := p.hash } = .ok { type := p.type, hash := p.hash, key := p.key } :=
    readMembers_omitempty rfl (fun h => by rw [h]) fun key h => by rw [Option.mem_def.mp h]; rfl
  have hsalt : readMembers false fields (ofString "salt" p.salt)
      { type := p.type, hash := p.hash, key := p.key } =
      .ok { type := p.type, hash := p.hash, key := p.key, salt := p.salt } :=
    readMembers_ofString rfl (fun h => by rw [h]) rfl
  have hiterations : readMembers false fields
      (omitempty "iterations" ofInt64 (if p.iterations = 0 then none else some p.iterations))
      { type := p.type, hash := p.hash, key := p.key, salt := p.salt } = .ok p := by
    refine readMembers_omitempty rfl (fun h => ?_) fun n h => ?_
    · by_cases hzero : p.iterations = 0
      · rw [← hzero]
      · rw [if_neg hzero] at h
        cases h
    · by_cases hzero : p.iterations = 0
      · rw [if_pos hzero] at h
        cases h
      · rw [if_neg hzero] at h
        cases h
        simp only [part, int64_ofInt64]
        rfl
  simp only [struct, marshalRaw, readMembers_append, htype, hhash, hkey, hsalt, hiterations,
    Except.bind]

/-- The password as it comes back: without a key it is empty. -/
def written (p : Password) : Password :=
  if p.Keyless then { type := "plain", key := some "" } else p

theorem marshal_keyless {p : Password} (h : p.Keyless) : p.marshalJSON = .null := by
  obtain ⟨htype, hkey, hrest⟩ := h
  rw [marshalJSON, if_pos ⟨htype, hrest⟩, hkey]

theorem marshal_ne_null {p : Password} (h : ¬ p.Keyless) : p.marshalJSON ≠ .null := by
  unfold marshalJSON
  split
  · rename_i hplain
    cases hkey : p.key with
    | none => exact absurd ⟨hplain.1, hkey, hplain.2⟩ h
    | some key => exact nofun
  · exact nofun

theorem unmarshal_marshal_keyed {p : Password} (h : ¬ p.Keyless) :
    unmarshalJSON p.marshalJSON = .ok p := by
  unfold marshalJSON
  split
  · rename_i hplain
    cases hkey : p.key with
    | none => exact absurd ⟨hplain.1, hkey, hplain.2⟩ h
    | some key =>
        obtain ⟨htype, hhash, hsalt, hiterations⟩ := hplain
        obtain ⟨type, hash, _, salt, iterations⟩ := p
        dsimp only at htype hhash hsalt hiterations hkey
        rw [htype, hhash, hsalt, hiterations, hkey]
        rfl
  · exact p.read_marshalRaw

theorem unmarshal_marshal (p : Password) : unmarshalJSON p.marshalJSON = .ok p.written := by
  unfold written
  split
  · rename_i h
    rw [marshal_keyless h]
    rfl
  · rename_i h
    exact unmarshal_marshal_keyed h

theorem not_accepts_keyless {p : Password} (h : p.Keyless) (crypto : Crypto) (pw : List UInt8) :
    ¬ p.accepts crypto pw := by
  obtain ⟨htype, hkey, -⟩ := h
  simp [accepts, Password.match, htype, hkey]

theorem accepts_empty (crypto : Crypto) :
    accepts crypto { type := "plain", key := some "" } [] := by
  simp [accepts, Password.match, constantTimeCompare_iff]

end Password

namespace Permissions

theorem mapM_string (a : List String) : (a.map Json.str).mapM (string · "") = .ok a := by
  rw [mapM_of_read (f := id) a fun _ _ => rfl, List.map_id]

theorem unmarshal_marshal (p : Permissions) : unmarshalJSON p.marshalJSON = .ok p := by
  cases p with
  | named name => cases name <;> decide
  | unnamed a =>
      cases a with
      | none => rfl
      | some a =>
          simp only [unmarshalJSON, marshalJSON, slice, mapM_string]
          rfl

end Permissions

namespace UserDescription

/-- The user as it comes back: a password without a type is left out. -/
def written (u : UserDescription) : UserDescription :=
  { u with password := if u.password.type = "" then {} else u.password.written }

theorem read_marshalJSON (strict : Bool) (u : UserDescription) :
    read strict u.marshalJSON {} = .ok u.written := by
  have hpassword : readMembers strict fields (omitempty "password" Password.marshalJSON
      (if u.password.type = "" then none else some u.password)) {} =
      .ok { password := u.written.password } := by
    by_cases htype : u.password.type = ""
    · rw [if_pos htype, written, if_pos htype]
      rfl
    · rw [if_neg htype, written, if_neg htype]
      refine readMembers_one rfl ?_
      simp only [part, unmarshaler, Password.unmarshal_marshal]
      rfl
  have hpermissions : readMembers strict fields (omitempty "permissions" Permissions.marshalJSON
      (if u.permissions = .unnamed none then none else some u.permissions))
      { password := u.written.password } = .ok u.written := by
    by_cases hunset : u.permissions = .unnamed none
    · rw [if_pos hunset, written, hunset]
      rfl
    · rw [if_neg hunset]
      refine readMembers_one rfl ?_
      simp only [part, unmarshaler, Permissions.unmarshal_marshal]
      rfl
  simp only [read, struct, marshalJSON, readMembers_append, hpassword, hpermissions, Except.bind]

end UserDescription

namespace Password

/-- What comes back, alone and inside a user's description, accepts what the password does. -/
def KeepsMeaning (crypto : Crypto) (p : Password) : Prop :=
  (∃ q, unmarshalJSON p.marshalJSON = .ok q ∧ ∀ pw, q.accepts crypto pw ↔ p.accepts crypto pw) ∧
  ∀ permissions strict, ∃ u,
    UserDescription.read strict (UserDescription.marshalJSON ⟨p, permissions⟩) {} = .ok u ∧
    ∀ pw, u.password.accepts crypto pw ↔ p.accepts crypto pw

/-- Nothing is accepted without a type. -/
theorem not_accepts_untyped {p : Password} (h : p.type = "") (crypto : Crypto) (pw : List UInt8) :
    ¬ p.accepts crypto pw := by
  simp [accepts, Password.match, h]

/-- Writing a password and reading it again keeps its meaning, unless it is a plain one without a
key, which comes back as the empty password. -/
theorem keepsMeaning_iff (crypto : Crypto) (p : Password) :
    KeepsMeaning crypto p ↔ ¬ p.Keyless := by
  constructor
  · rintro ⟨⟨q, hq, hsame⟩, -⟩ hkeyless
    rw [unmarshal_marshal, written, if_pos hkeyless] at hq
    cases hq
    exact not_accepts_keyless hkeyless crypto [] ((hsame []).mp (accepts_empty crypto))
  · intro h
    have hp : p.written = p := if_neg h
    refine ⟨⟨p, unmarshal_marshal_keyed h, fun pw => Iff.rfl⟩, fun permissions strict => ?_⟩
    refine ⟨_, UserDescription.read_marshalJSON strict ⟨p, permissions⟩, fun pw => ?_⟩
    dsimp only [UserDescription.written]
    rw [hp]
    split
    · rename_i htype
      exact iff_of_false (not_accepts_untyped rfl crypto pw) (not_accepts_untyped htype crypto pw)
    · exact Iff.rfl

/-- An object with a type and no key, which accepts nothing. -/
def typeOnly : Json := .obj [("type", .str "plain")]

theorem not_keepsMeaning : ¬ ∀ (crypto : Crypto) (j : Json) (p : Password),
    unmarshalJSON j = .ok p → KeepsMeaning crypto p := by
  intro h
  let crypto : Crypto := ⟨fun _ _ _ _ => [], fun _ _ => none⟩
  obtain ⟨⟨q, hq, hsame⟩, -⟩ := h crypto typeOnly { type := "plain" } rfl
  have hempty : q = { type := "plain", key := some "" } := (Except.ok.inj hq).symm
  have haccepts := (hsame []).mp (hempty ▸ accepts_empty crypto)
  exact not_accepts_keyless ⟨rfl, rfl, rfl, rfl, rfl⟩ crypto [] haccepts

end Password

end Sozvon.Group
