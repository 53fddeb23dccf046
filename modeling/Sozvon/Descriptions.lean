import Sozvon.Passwords

/-!
# Group descriptions

Who may log in to a group is in its description, and is not for everybody who may
write the description to change. A description is upgraded whenever it is read:
the users of the obsolete fields become ordinary ones.
-/
namespace Sozvon.Group

open Json

structure ClientPattern where
  username : String := ""
  password : Option Password := none
deriving DecidableEq

/-- The values that keys are made of, which `encoding/json` reads as it has written them. -/
structure KeyCodec (κ : Type) where
  read : Json → Except Unit κ
  write : κ → Json
  read_write : ∀ k, read (write k) = .ok k

abbrev Users := AList fun _ : String => UserDescription

/-- What a description says about who may log in. Nothing looks at the other fields here. -/
structure Description (κ : Type) where
  autoSubgroups : Bool := false
  users : Option Users := none
  wildcardUser : Option UserDescription := none
  authKeys : Option (List κ) := none
  -- obsolete fields
  op : Option (List ClientPattern) := none
  presenter : Option (List ClientPattern) := none
  other : Option (List ClientPattern) := none
  allowSubgroups : Bool := false
  allowAnonymous : Bool := false

namespace ClientPattern

def fields : List (String × Decoder ClientPattern) :=
  [("username", part (·.username) (fun u a => { u with username := a }) string),
    ("password", part (·.password) (fun u a => { u with password := a })
      (pointer {} (unmarshaler Password.unmarshalJSON)))]

def marshalJSON (u : ClientPattern) : Json :=
  .obj (ofString "username" u.username ++ omitempty "password" Password.marshalJSON u.password)

end ClientPattern

namespace Description

variable {κ : Type} (codec : KeyCodec κ)

/-- The names of the fields that are left out. -/
def otherFields : List String :=
  ["displayName", "description", "contact", "comment", "public", "redirect", "max-clients",
    "max-history-age", "expires", "not-before", "allow-recording", "unrestricted-tokens",
    "autolock", "autokick", "lobby", "e2ee", "require-e2ee", "operator-room", "authServer",
    "authPortal", "codecs"]

def readPatterns : Decoder (Option (List ClientPattern)) :=
  slice {} (struct true ClientPattern.fields)

def fields : List (String × Decoder (Description κ)) :=
  [("auto-subgroups", part (·.autoSubgroups) (fun d a => { d with autoSubgroups := a }) boolean),
    ("users", part (·.users) (fun d a => { d with users := a })
      (mapOf {} (UserDescription.read true))),
    ("wildcard-user", part (·.wildcardUser) (fun d a => { d with wildcardUser := a })
      (pointer {} (UserDescription.read true))),
    ("authKeys", fun j d => match j with
      | .null => .ok { d with authKeys := none }
      | .arr keys => (keys.mapM codec.read).map fun a => { d with authKeys := some a }
      | _ => .error ()),
    ("op", part (·.op) (fun d a => { d with op := a }) readPatterns),
    ("presenter", part (·.presenter) (fun d a => { d with presenter := a }) readPatterns),
    ("other", part (·.other) (fun d a => { d with other := a }) readPatterns),
    ("allow-subgroups", part (·.allowSubgroups) (fun d a => { d with allowSubgroups := a }) boolean),
    ("allow-anonymous", part (·.allowAnonymous) (fun d a => { d with allowAnonymous := a }) boolean)] ++
    otherFields.map fun name => (name, fun _ d => .ok d)

/-- A slice or a map that has something in it. -/
def nonempty {α : Type} : Option (List α) → Option (List α)
  | some (a :: l) => some (a :: l)
  | _ => none

def ofBool (key : String) (b : Bool) : List (String × Json) :=
  omitempty key .bool (if b then some true else none)

def ofPatterns (key : String) (ps : Option (List ClientPattern)) : List (String × Json) :=
  omitempty key (fun ps => .arr (ps.map ClientPattern.marshalJSON)) (nonempty ps)

/-- The order of the users, whom Go sorts, makes no difference to who reads them. -/
def marshalUsers (entries : List (Sigma fun _ : String => UserDescription)) : Json :=
  .obj (entries.map fun e => (e.1, e.2.marshalJSON))

def marshalJSON (d : Description κ) : Json :=
  .obj (ofBool "auto-subgroups" d.autoSubgroups ++
    omitempty "users" marshalUsers (nonempty (d.users.map (·.entries))) ++
    omitempty "wildcard-user" UserDescription.marshalJSON d.wildcardUser ++
    omitempty "authKeys" (fun keys => .arr (keys.map codec.write)) (nonempty d.authKeys) ++
    ofPatterns "op" d.op ++ ofPatterns "presenter" d.presenter ++ ofPatterns "other" d.other ++
    ofBool "allow-subgroups" d.allowSubgroups ++ ofBool "allow-anonymous" d.allowAnonymous)

end Description

/-! ## Upgrading -/

def upgradePassword : Option Password → Password
  | none => { type := "wildcard" }
  | some pw => pw

def upgradeUser (u : ClientPattern) (p : PermissionsName) : UserDescription where
  password := upgradePassword u.password
  permissions := .named p

section Upgrade
variable {κ : Type}

/-- One user of an obsolete field; a duplicate is ignored. -/
def upgradeOne (p : PermissionsName) (d : Description κ) (u : ClientPattern) : Description κ :=
  if u.username = "" then
    match d.wildcardUser with
    | some _ => d
    | none => { d with wildcardUser := some (upgradeUser u p) }
  else if u.username ∈ d.users.getD ∅ then d
  else { d with users := some ((d.users.getD ∅).insert u.username (upgradeUser u p)) }

def upgradeUsers (d : Description κ) (ps : List ClientPattern) (p : PermissionsName) :
    Description κ :=
  ps.foldl (upgradeOne p) { d with users := some (d.users.getD ∅) }

/-- An obsolete field with the permissions of its users; `clear` clears it. -/
def upgradeField (ps : Option (List ClientPattern)) (p : PermissionsName)
    (clear : Description κ → Description κ) (d : Description κ) : Description κ :=
  match ps with
  | some ps => clear (upgradeUsers d ps p)
  | none => d

def upgradeFlags (d : Description κ) : Description κ :=
  let d : Description κ := { d with allowAnonymous := false }
  if d.allowSubgroups then { d with autoSubgroups := true, allowSubgroups := false } else d

def upgradeDescription (d : Description κ) : Description κ :=
  let d := upgradeFlags d
  let d := upgradeField d.op .op (fun d => { d with op := none }) d
  let d := upgradeField d.presenter .present (fun d => { d with presenter := none }) d
  upgradeField d.other .message (fun d => { d with other := none }) d

end Upgrade

/-! ## The file -/

structure File where
  content : Json
  size : ℕ
  modTime : ℤ

def makeETag (f : File) : String := s!"\"{f.size}-{f.modTime}\""

inductive UpdateError where
  | notSanitised
  | unreadable
  | tagMismatch
  | notWritable
deriving DecidableEq, Repr

section Files
variable {κ : Type} (codec : KeyCodec κ)

def readDescription (content : Json) : Except Unit (Description κ) :=
  (struct true (Description.fields codec) content {}).map upgradeDescription

/-- The content that a group's file is given, while the file system works. -/
def updateDescription (writableGroups : Bool) (file : Option File) (etag : String)
    (desc : Description κ) : Except UpdateError Json :=
  if desc.users.isSome ∨ desc.wildcardUser.isSome ∨ desc.authKeys.isSome then
    .error .notSanitised
  else
    let rewrite (newdesc : Description κ) : Except UpdateError Json :=
      if writableGroups then .ok (newdesc.marshalJSON codec) else .error .notWritable
    match file with
    | none => if "" ≠ etag then .error .tagMismatch else rewrite desc
    | some f =>
        match readDescription codec f.content with
        | .error () => .error .unreadable
        | .ok old =>
            if makeETag f ≠ etag then .error .tagMismatch
            else rewrite { desc with
              users := old.users, wildcardUser := old.wildcardUser, authKeys := old.authKeys }

end Files

/-! ## What is not to change -/

section Secrets
variable {κ : Type}

structure SameSecrets (d d' : Description κ) : Prop where
  users : ∀ name, (d.users.getD ∅).lookup name = (d'.users.getD ∅).lookup name
  wildcardUser : d.wildcardUser = d'.wildcardUser
  authKeys : d.authKeys.getD [] = d'.authKeys.getD []

/-- A pattern that an upgrade ignores. -/
def Known (d : Description κ) (u : ClientPattern) : Prop :=
  (u.username = "" → d.wildcardUser.isSome = true) ∧
    (u.username ≠ "" → u.username ∈ d.users.getD ∅)

/-- A password that is read as it has been written in a user's description. -/
def Password.Lasting (p : Password) : Prop := ¬ p.Keyless ∧ (p.type = "" → p = {})

/-- The body brings no users in its obsolete fields, and there are no odd passwords. -/
structure Harmless (old desc : Description κ) : Prop where
  op : ∀ u ∈ desc.op.getD [], Known old u
  presenter : ∀ u ∈ desc.presenter.getD [], Known old u
  other : ∀ u ∈ desc.other.getD [], Known old u
  users : ∀ name, ∀ u ∈ (old.users.getD ∅).lookup name, u.password.Lasting
  wildcardUser : ∀ u ∈ old.wildcardUser, u.password.Lasting

end Secrets

/-! ## Reading what was written -/

namespace ClientPattern

/-- The pattern as it comes back: a password without a key is lost. -/
def written (u : ClientPattern) : ClientPattern :=
  { u with password := u.password.bind fun p => if p.Keyless then none else some p }

theorem read_marshalJSON (u : ClientPattern) :
    struct true fields u.marshalJSON {} = .ok u.written := by
  have husername : readMembers true fields (ofString "username" u.username) {} =
      .ok { username := u.username } :=
    readMembers_ofString rfl (fun h => by rw [h]) rfl
  have hpassword : readMembers true fields (omitempty "password" Password.marshalJSON u.password)
      { username := u.username } = .ok u.written := by
    refine readMembers_omitempty rfl (fun h => ?_) fun p h => ?_
    · simp only [written, h]
      rfl
    · rw [Option.mem_def] at h
      simp only [part, written, h, Option.bind_some]
      by_cases hkeyless : p.Keyless
      · rw [Password.marshal_keyless hkeyless, if_pos hkeyless]
        rfl
      · rw [pointer_of_ne_null (Password.marshal_ne_null hkeyless), if_neg hkeyless, unmarshaler,
          Password.unmarshal_marshal_keyed hkeyless]
        rfl
  simp only [struct, marshalJSON, readMembers_append, husername, hpassword, Except.bind]

end ClientPattern

namespace Description

variable {κ : Type} (codec : KeyCodec κ)

def writtenUsers (entries : List (Sigma fun _ : String => UserDescription)) : Users :=
  insertAll UserDescription.written entries ∅

/-- The description as it comes back, before it is upgraded. -/
def written (d : Description κ) : Description κ where
  autoSubgroups := d.autoSubgroups
  users := (nonempty (d.users.map (·.entries))).map writtenUsers
  wildcardUser := d.wildcardUser.map UserDescription.written
  authKeys := nonempty d.authKeys
  op := (nonempty d.op).map (·.map ClientPattern.written)
  presenter := (nonempty d.presenter).map (·.map ClientPattern.written)
  other := (nonempty d.other).map (·.map ClientPattern.written)
  allowSubgroups := d.allowSubgroups
  allowAnonymous := d.allowAnonymous

section Members
variable {σ : Type} {strict : Bool} {fs : List (String × Decoder σ)} {s s' : σ} {key : String}

theorem readMembers_ofBool {read : Decoder σ} (hfield : field fs key = some read) {b : Bool}
    (hfalse : b = false → s' = s) (htrue : b = true → read (.bool true) s = .ok s') :
    readMembers strict fs (ofBool key b) s = .ok s' := by
  refine readMembers_omitempty hfield (fun h => ?_) fun x h => ?_
  · cases b with
    | false => exact hfalse rfl
    | true => cases h
  · cases b with
    | false => cases h
    | true =>
        cases h
        exact htrue rfl

theorem readPatterns_written (ps : List ClientPattern) (old : Option (List ClientPattern)) :
    readPatterns (.arr (ps.map ClientPattern.marshalJSON)) old =
      .ok (some (ps.map ClientPattern.written)) := by
  simp only [readPatterns, slice]
  rw [mapM_of_read ps fun u _ => u.read_marshalJSON]
  rfl

end Members

theorem read_marshalJSON (d : Description κ) :
    struct true (fields codec) (d.marshalJSON codec) {} = .ok d.written := by
  have hauto : readMembers true (fields codec) (ofBool "auto-subgroups" d.autoSubgroups) {} =
      .ok { autoSubgroups := d.written.autoSubgroups } :=
    readMembers_ofBool rfl (fun h => by rw [written, h]) fun h => by rw [written, h]; rfl
  have husers : readMembers true (fields codec)
      (omitempty "users" marshalUsers (nonempty (d.users.map (·.entries))))
      { autoSubgroups := d.written.autoSubgroups } =
      .ok { autoSubgroups := d.written.autoSubgroups, users := d.written.users } := by
    refine readMembers_omitempty rfl (fun h => ?_) fun entries h => ?_
    · rw [written, h]
      rfl
    · rw [written, Option.mem_def.mp h]
      simp only [part, marshalUsers, mapOf]
      rw [readEntries_write entries (UserDescription.read_marshalJSON true)]
      rfl
  have hwildcard : readMembers true (fields codec)
      (omitempty "wildcard-user" UserDescription.marshalJSON d.wildcardUser)
      { autoSubgroups := d.written.autoSubgroups, users := d.written.users } =
      .ok { autoSubgroups := d.written.autoSubgroups, users := d.written.users,
            wildcardUser := d.written.wildcardUser } := by
    refine readMembers_omitempty rfl (fun h => ?_) fun u h => ?_
    · rw [written, h]
      rfl
    · rw [written, Option.mem_def.mp h]
      have hread := UserDescription.read_marshalJSON true u
      simp only [part, UserDescription.marshalJSON, pointer] at hread ⊢
      rw [Option.getD_none, hread]
      rfl
  have hkeys : readMembers true (fields codec)
      (omitempty "authKeys" (fun keys => .arr (keys.map codec.write)) (nonempty d.authKeys))
      { autoSubgroups := d.written.autoSubgroups, users := d.written.users,
        wildcardUser := d.written.wildcardUser } =
      .ok { autoSubgroups := d.written.autoSubgroups, users := d.written.users,
            wildcardUser := d.written.wildcardUser, authKeys := d.written.authKeys } := by
    refine readMembers_omitempty rfl (fun h => ?_) fun keys h => ?_
    · rw [written, h]
    · rw [written, Option.mem_def.mp h]
      dsimp only
      rw [mapM_of_read (f := id) keys fun k _ => codec.read_write k, List.map_id]
      rfl
  have hop : readMembers true (fields codec) (ofPatterns "op" d.op)
      { autoSubgroups := d.written.autoSubgroups, users := d.written.users,
        wildcardUser := d.written.wildcardUser, authKeys := d.written.authKeys } =
      .ok { autoSubgroups := d.written.autoSubgroups, users := d.written.users,
            wildcardUser := d.written.wildcardUser, authKeys := d.written.authKeys,
            op := d.written.op } := by
    refine readMembers_omitempty rfl (fun h => ?_) fun ps h => ?_
    · rw [written, h]
      rfl
    · rw [written, Option.mem_def.mp h]
      simp only [part, readPatterns_written]
      rfl
  have hpresenter : readMembers true (fields codec) (ofPatterns "presenter" d.presenter)
      { autoSubgroups := d.written.autoSubgroups, users := d.written.users,
        wildcardUser := d.written.wildcardUser, authKeys := d.written.authKeys,
        op := d.written.op } =
      .ok { autoSubgroups := d.written.autoSubgroups, users := d.written.users,
            wildcardUser := d.written.wildcardUser, authKeys := d.written.authKeys,
            op := d.written.op, presenter := d.written.presenter } := by
    refine readMembers_omitempty rfl (fun h => ?_) fun ps h => ?_
    · rw [written, h]
      rfl
    · rw [written, Option.mem_def.mp h]
      simp only [part, readPatterns_written]
      rfl
  have hother : readMembers true (fields codec) (ofPatterns "other" d.other)
      { autoSubgroups := d.written.autoSubgroups, users := d.written.users,
        wildcardUser := d.written.wildcardUser, authKeys := d.written.authKeys,
        op := d.written.op, presenter := d.written.presenter } =
      .ok { autoSubgroups := d.written.autoSubgroups, users := d.written.users,
            wildcardUser := d.written.wildcardUser, authKeys := d.written.authKeys,
            op := d.written.op, presenter := d.written.presenter, other := d.written.other } := by
    refine readMembers_omitempty rfl (fun h => ?_) fun ps h => ?_
    · rw [written, h]
      rfl
    · rw [written, Option.mem_def.mp h]
      simp only [part, readPatterns_written]
      rfl
  have hsubgroups : readMembers true (fields codec) (ofBool "allow-subgroups" d.allowSubgroups)
      { autoSubgroups := d.written.autoSubgroups, users := d.written.users,
        wildcardUser := d.written.wildcardUser, authKeys := d.written.authKeys,
        op := d.written.op, presenter := d.written.presenter, other := d.written.other } =
      .ok { d.written with allowAnonymous := false } :=
    readMembers_ofBool rfl (fun h => by rw [written, h]) fun h => by rw [written, h]; rfl
  have hanonymous : readMembers true (fields codec) (ofBool "allow-anonymous" d.allowAnonymous)
      { d.written with allowAnonymous := false } = .ok d.written :=
    readMembers_ofBool rfl (fun h => by rw [written, h]) fun h => by rw [written, h]; rfl
  simp only [struct, marshalJSON, readMembers_append, hauto, husers, hwildcard, hkeys, hop,
    hpresenter, hother, hsubgroups, hanonymous, Except.bind]

theorem nonempty_getD {α : Type} (l : Option (List α)) : (nonempty l).getD [] = l.getD [] := by
  rcases l with _ | _ | ⟨a, l⟩ <;> rfl

theorem lookup_written (d : Description κ) (name : String) :
    (d.written.users.getD ∅).lookup name =
      ((d.users.getD ∅).lookup name).map UserDescription.written := by
  cases hd : d.users with
  | none => simp only [written, hd]; rfl
  | some users =>
      have hall : (insertAll UserDescription.written users.entries ∅).lookup name =
          (users.lookup name).map UserDescription.written := by
        rw [lookup_insertAll _ users.nodupKeys]
        simp [AList.lookup]
      rw [Option.getD_some, ← hall]
      simp only [written, hd, Option.map_some]
      cases hentries : users.entries with
      | nil => rfl
      | cons e entries => rfl

end Description

/-! ## What an upgrade adds -/

section Upgrade
variable {κ : Type} {d d' : Description κ} {ps : List ClientPattern} {p : PermissionsName}
  {u : ClientPattern}

/-- Users are only added. -/
structure Extends (d d' : Description κ) : Prop where
  users : ∀ name u, (d.users.getD ∅).lookup name = some u → (d'.users.getD ∅).lookup name = some u
  wildcardUser : ∀ u, d.wildcardUser = some u → d'.wildcardUser = some u
  authKeys : d'.authKeys = d.authKeys

theorem Extends.of_eq (hu : d'.users.getD ∅ = d.users.getD ∅)
    (hw : d'.wildcardUser = d.wildcardUser) (hk : d'.authKeys = d.authKeys) : Extends d d' where
  users := by rw [hu]; exact fun _ _ h => h
  wildcardUser := by rw [hw]; exact fun _ h => h
  authKeys := hk

theorem Extends.trans {d'' : Description κ} (h : Extends d d') (h' : Extends d' d'') :
    Extends d d'' where
  users name u hu := h'.users name u (h.users name u hu)
  wildcardUser u hu := h'.wildcardUser u (h.wildcardUser u hu)
  authKeys := h'.authKeys.trans h.authKeys

theorem Extends.known (h : Extends d d') (hu : Known d u) : Known d' u := by
  constructor
  · intro hname
    obtain ⟨w, hw⟩ := Option.isSome_iff_exists.mp (hu.1 hname)
    rw [h.wildcardUser w hw]
    rfl
  · intro hname
    obtain ⟨w, hw⟩ := Option.isSome_iff_exists.mp (AList.lookup_isSome.mpr (hu.2 hname))
    exact AList.lookup_isSome.mp (by rw [h.users _ w hw]; rfl)

theorem upgradeOne_extends (p : PermissionsName) (d : Description κ) (u : ClientPattern) :
    Extends d (upgradeOne p d u) ∧ Known (upgradeOne p d u) u := by
  unfold upgradeOne
  by_cases hname : u.username = ""
  · rw [if_pos hname]
    cases hw : d.wildcardUser with
    | some w => exact ⟨.of_eq rfl rfl rfl, fun _ => by rw [hw]; rfl, fun h => absurd hname h⟩
    | none =>
        refine ⟨⟨fun _ _ h => h, fun w h => ?_, rfl⟩, fun _ => rfl, fun h => absurd hname h⟩
        rw [hw] at h
        cases h
  · rw [if_neg hname]
    by_cases hin : u.username ∈ d.users.getD ∅
    · rw [if_pos hin]
      exact ⟨.of_eq rfl rfl rfl, fun h => absurd h hname, fun _ => hin⟩
    · rw [if_neg hin]
      refine ⟨⟨fun name w h => ?_, fun _ h => h, rfl⟩, fun h => absurd h hname, fun _ => ?_⟩
      · have hne : name ≠ u.username := by
          rintro rfl
          exact hin (AList.lookup_isSome.mp (by rw [h]; rfl))
        rw [Option.getD_some, AList.lookup_insert_ne hne]
        exact h
      · rw [Option.getD_some]
        exact AList.mem_insert _ |>.mpr (Or.inl rfl)

theorem foldl_upgradeOne (ps : List ClientPattern) (d : Description κ) :
    Extends d (ps.foldl (upgradeOne p) d) ∧ ∀ u ∈ ps, Known (ps.foldl (upgradeOne p) d) u := by
  induction ps generalizing d with
  | nil => exact ⟨.of_eq rfl rfl rfl, fun u h => by cases h⟩
  | cons u ps ih =>
      obtain ⟨hone, hknown⟩ := upgradeOne_extends p d u
      obtain ⟨hrest, hall⟩ := ih (upgradeOne p d u)
      refine ⟨hone.trans hrest, fun v hv => ?_⟩
      rcases List.mem_cons.mp hv with rfl | hv
      · exact hrest.known hknown
      · exact hall v hv

theorem upgradeOne_known (h : Known d u) : upgradeOne p d u = d := by
  unfold upgradeOne
  split
  · rename_i hname
    obtain ⟨w, hw⟩ := Option.isSome_iff_exists.mp (h.1 hname)
    rw [hw]
  · rename_i hname
    rw [if_pos (h.2 hname)]

theorem foldl_upgradeOne_known (h : ∀ u ∈ ps, Known d u) : ps.foldl (upgradeOne p) d = d := by
  induction ps with
  | nil => rfl
  | cons u ps ih =>
      rw [List.foldl_cons, upgradeOne_known (h u (List.mem_cons_self ..))]
      exact ih fun v hv => h v (List.mem_cons_of_mem _ hv)

theorem SameSecrets.of_eq (hu : d.users.getD ∅ = d'.users.getD ∅)
    (hw : d.wildcardUser = d'.wildcardUser) (hk : d.authKeys = d'.authKeys) : SameSecrets d d' where
  users := by rw [hu]; exact fun _ => rfl
  wildcardUser := hw
  authKeys := by rw [hk]

theorem SameSecrets.trans {d'' : Description κ} (h : SameSecrets d d') (h' : SameSecrets d' d'') :
    SameSecrets d d'' where
  users name := (h.users name).trans (h'.users name)
  wildcardUser := h.wildcardUser.trans h'.wildcardUser
  authKeys := h.authKeys.trans h'.authKeys

theorem SameSecrets.known (h : SameSecrets d d') (hu : Known d u) : Known d' u := by
  refine ⟨fun hname => ?_, fun hname => ?_⟩
  · rw [← h.wildcardUser]
    exact hu.1 hname
  · rw [← AList.lookup_isSome, ← h.users, AList.lookup_isSome]
    exact hu.2 hname

/-- Only a field that is not looked at any more is cleared. -/
structure Clears (clear : Description κ → Description κ) : Prop where
  users : ∀ d, (clear d).users = d.users
  wildcardUser : ∀ d, (clear d).wildcardUser = d.wildcardUser
  authKeys : ∀ d, (clear d).authKeys = d.authKeys

variable {clear : Description κ → Description κ}

theorem upgradeField_extends (hclear : Clears clear) (ps : Option (List ClientPattern))
    (p : PermissionsName) (d : Description κ) : Extends d (upgradeField ps p clear d) ∧
      ∀ u ∈ ps.getD [], Known (upgradeField ps p clear d) u := by
  cases ps with
  | none => exact ⟨.of_eq rfl rfl rfl, fun u h => by cases h⟩
  | some ps =>
      obtain ⟨hfold, hknown⟩ := foldl_upgradeOne (p := p) ps
        ({ d with users := some (d.users.getD ∅) } : Description κ)
      have hlast : Extends (upgradeUsers d ps p) (clear (upgradeUsers d ps p)) :=
        .of_eq (by rw [hclear.users]) (hclear.wildcardUser _) (hclear.authKeys _)
      have hfirst : Extends d ({ d with users := some (d.users.getD ∅) } : Description κ) :=
        .of_eq rfl rfl rfl
      exact ⟨hfirst.trans (hfold.trans hlast), fun u hu => hlast.known (hknown u hu)⟩

theorem upgradeField_same (hclear : Clears clear) {ps : Option (List ClientPattern)}
    (h : ∀ u ∈ ps.getD [], Known d u) : SameSecrets (upgradeField ps p clear d) d := by
  cases ps with
  | none => exact .of_eq rfl rfl rfl
  | some ps =>
      have hfold : upgradeUsers d ps p = { d with users := some (d.users.getD ∅) } :=
        foldl_upgradeOne_known fun u hu => h u hu
      refine .of_eq ?_ ?_ ?_
      · rw [upgradeField, hclear.users, hfold]
        rfl
      · rw [upgradeField, hclear.wildcardUser, hfold]
      · rw [upgradeField, hclear.authKeys, hfold]

/-- Upgrading one field leaves the later ones for later. -/
theorem foldl_upgradeOne_fields (ps : List ClientPattern) (d : Description κ) :
    (ps.foldl (upgradeOne p) d).presenter = d.presenter ∧
      (ps.foldl (upgradeOne p) d).other = d.other := by
  induction ps generalizing d with
  | nil => exact ⟨rfl, rfl⟩
  | cons u ps ih =>
      have hone : (upgradeOne p d u).presenter = d.presenter ∧
          (upgradeOne p d u).other = d.other := by
        unfold upgradeOne
        repeat' split
        all_goals exact ⟨rfl, rfl⟩
      rw [List.foldl_cons, (ih _).1, (ih _).2]
      exact hone

theorem clears_op : Clears fun d : Description κ => { d with op := none } :=
  ⟨fun _ => rfl, fun _ => rfl, fun _ => rfl⟩

theorem clears_presenter : Clears fun d : Description κ => { d with presenter := none } :=
  ⟨fun _ => rfl, fun _ => rfl, fun _ => rfl⟩

theorem clears_other : Clears fun d : Description κ => { d with other := none } :=
  ⟨fun _ => rfl, fun _ => rfl, fun _ => rfl⟩

theorem upgradeFlags_same (d : Description κ) : SameSecrets (upgradeFlags d) d ∧
    Extends d (upgradeFlags d) ∧ (upgradeFlags d).op = d.op ∧
    (upgradeFlags d).presenter = d.presenter ∧ (upgradeFlags d).other = d.other := by
  unfold upgradeFlags
  dsimp only
  split
  · exact ⟨.of_eq rfl rfl rfl, .of_eq rfl rfl rfl, rfl, rfl, rfl⟩
  · exact ⟨.of_eq rfl rfl rfl, .of_eq rfl rfl rfl, rfl, rfl, rfl⟩

theorem upgradeField_op_fields (d : Description κ) :
    (upgradeField d.op .op (fun d => { d with op := none }) d).presenter = d.presenter ∧
      (upgradeField d.op .op (fun d => { d with op := none }) d).other = d.other := by
  cases d.op with
  | none => exact ⟨rfl, rfl⟩
  | some ps => exact foldl_upgradeOne_fields ps _

theorem upgradeField_presenter_field (d : Description κ) :
    (upgradeField d.presenter .present (fun d => { d with presenter := none }) d).other =
      d.other := by
  cases d.presenter with
  | none => rfl
  | some ps => exact (foldl_upgradeOne_fields ps _).2

/-- An upgrade keeps the users there are, and has all of the obsolete ones known. -/
theorem upgradeDescription_extends (d : Description κ) : Extends d (upgradeDescription d) ∧
    (∀ u ∈ d.op.getD [], Known (upgradeDescription d) u) ∧
    (∀ u ∈ d.presenter.getD [], Known (upgradeDescription d) u) ∧
    ∀ u ∈ d.other.getD [], Known (upgradeDescription d) u := by
  obtain ⟨-, hflags, hop, hpresenter, hother⟩ := upgradeFlags_same d
  unfold upgradeDescription
  dsimp only
  obtain ⟨hpresenter₁, hother₁⟩ := upgradeField_op_fields (upgradeFlags d)
  obtain ⟨hext₁, hknown₁⟩ := upgradeField_extends clears_op (upgradeFlags d).op .op (upgradeFlags d)
  generalize upgradeField (upgradeFlags d).op .op _ (upgradeFlags d) = d₁ at *
  have hother₂ := upgradeField_presenter_field d₁
  obtain ⟨hext₂, hknown₂⟩ := upgradeField_extends clears_presenter d₁.presenter .present d₁
  generalize upgradeField d₁.presenter .present _ d₁ = d₂ at *
  obtain ⟨hext₃, hknown₃⟩ := upgradeField_extends clears_other d₂.other .message d₂
  refine ⟨hflags.trans (hext₁.trans (hext₂.trans hext₃)), fun u hu => ?_, fun u hu => ?_,
    fun u hu => ?_⟩
  · rw [← hop] at hu
    exact (hext₂.trans hext₃).known (hknown₁ u hu)
  · rw [← hpresenter, ← hpresenter₁] at hu
    exact hext₃.known (hknown₂ u hu)
  · rw [← hother, ← hother₁, ← hother₂] at hu
    exact hknown₃ u hu

/-- Where the obsolete users are all known an upgrade adds nobody. -/
theorem upgradeDescription_same (hop : ∀ u ∈ d.op.getD [], Known d u)
    (hpresenter : ∀ u ∈ d.presenter.getD [], Known d u)
    (hother : ∀ u ∈ d.other.getD [], Known d u) : SameSecrets (upgradeDescription d) d := by
  obtain ⟨hsame, hflags, hop', hpresenter', hother'⟩ := upgradeFlags_same d
  unfold upgradeDescription
  dsimp only
  obtain ⟨hpresenter₁, hother₁⟩ := upgradeField_op_fields (upgradeFlags d)
  obtain ⟨hext₁, -⟩ := upgradeField_extends clears_op (upgradeFlags d).op .op (upgradeFlags d)
  have hsame₁ : SameSecrets (upgradeField (upgradeFlags d).op .op _ (upgradeFlags d))
      (upgradeFlags d) := upgradeField_same clears_op fun u hu =>
        hflags.known (hop u (hop' ▸ hu))
  generalize upgradeField (upgradeFlags d).op .op _ (upgradeFlags d) = d₁ at *
  have hother₂ := upgradeField_presenter_field d₁
  obtain ⟨hext₂, -⟩ := upgradeField_extends clears_presenter d₁.presenter .present d₁
  have hsame₂ : SameSecrets (upgradeField d₁.presenter .present _ d₁) d₁ :=
    upgradeField_same clears_presenter fun u hu =>
      (hflags.trans hext₁).known (hpresenter u (hpresenter' ▸ hpresenter₁ ▸ hu))
  generalize upgradeField d₁.presenter .present _ d₁ = d₂ at *
  have hsame₃ : SameSecrets (upgradeField d₂.other .message _ d₂) d₂ :=
    upgradeField_same clears_other fun u hu =>
      (hflags.trans (hext₁.trans hext₂)).known (hother u (hother' ▸ hother₁ ▸ hother₂ ▸ hu))
  exact hsame₃.trans (hsame₂.trans (hsame₁.trans hsame))

end Upgrade

/-! ## Updates -/

theorem UserDescription.written_eq_iff (u : UserDescription) :
    u.written = u ↔ u.password.Lasting := by
  obtain ⟨p, permissions⟩ := u
  simp only [UserDescription.written, UserDescription.mk.injEq, and_true]
  constructor
  · intro h
    by_cases htype : p.type = ""
    · rw [if_pos htype] at h
      refine ⟨fun hkeyless => ?_, fun _ => h.symm⟩
      exact absurd (htype.symm.trans hkeyless.1) (by decide)
    · rw [if_neg htype] at h
      refine ⟨fun hkeyless => ?_, fun h => absurd h htype⟩
      rw [Password.written, if_pos hkeyless] at h
      exact absurd (h ▸ hkeyless.2.1) (by decide)
  · rintro ⟨hkeyed, huntyped⟩
    split
    · rename_i htype
      exact (huntyped htype).symm
    · exact if_neg hkeyed

section Updates
variable {κ : Type} {codec : KeyCodec κ} {old desc : Description κ}

/-- The description that is written: the body with the secrets of the old one. -/
def withSecrets (old desc : Description κ) : Description κ :=
  { desc with users := old.users, wildcardUser := old.wildcardUser, authKeys := old.authKeys }

theorem updateDescription_ok {writableGroups : Bool} {f : File} {etag : String} {content : Json}
    (hold : readDescription codec f.content = .ok old)
    (h : updateDescription codec writableGroups (some f) etag desc = .ok content) :
    content = (withSecrets old desc).marshalJSON codec := by
  unfold updateDescription at h
  split at h
  · cases h
  · simp only [hold] at h
    split at h
    · cases h
    · split at h
      · exact (Except.ok.inj h).symm
      · cases h

/-- What the next reader finds. -/
theorem readDescription_marshalJSON (d : Description κ) :
    readDescription codec (d.marshalJSON codec) = .ok (upgradeDescription d.written) := by
  rw [readDescription, Description.read_marshalJSON]
  rfl

/-- Before it is upgraded it extends what was there, but for the passwords that are not lasting. -/
theorem written_known {u : ClientPattern} :
    Known (withSecrets old desc).written u.written ↔ Known old u := by
  have hmem (name : String) :
      name ∈ (withSecrets old desc).written.users.getD ∅ ↔ name ∈ old.users.getD ∅ := by
    rw [← AList.lookup_isSome, ← AList.lookup_isSome, Description.lookup_written,
      Option.isSome_map]
    rfl
  have hwildcard : (withSecrets old desc).written.wildcardUser.isSome = old.wildcardUser.isSome :=
    Option.isSome_map
  rw [Known, hwildcard, hmem]
  rfl

/-- The patterns of an obsolete field, as they come back. -/
theorem mem_written {ps : Option (List ClientPattern)} {u : ClientPattern} :
    u ∈ ((Description.nonempty ps).map (·.map ClientPattern.written)).getD [] ↔
      ∃ v ∈ ps.getD [], v.written = u := by
  rw [← Description.nonempty_getD ps]
  cases Description.nonempty ps with
  | none =>
      constructor
      · intro h
        cases h
      · rintro ⟨v, hv, -⟩
        cases hv
  | some ps => exact List.mem_map

theorem written_same (husers : ∀ name, ∀ u ∈ (old.users.getD ∅).lookup name, u.password.Lasting)
    (hwildcard : ∀ u ∈ old.wildcardUser, u.password.Lasting) :
    SameSecrets (withSecrets old desc).written old where
  users name := by
    rw [Description.lookup_written]
    cases hu : (old.users.getD ∅).lookup name with
    | none => simp only [withSecrets, hu, Option.map_none]
    | some u =>
        have hsame : u.written = u := u.written_eq_iff.mpr (husers name u hu)
        simp only [withSecrets, hu, Option.map_some, hsame]
  wildcardUser := by
    change old.wildcardUser.map UserDescription.written = old.wildcardUser
    cases hu : old.wildcardUser with
    | none => rfl
    | some u => rw [Option.map_some, u.written_eq_iff.mpr (hwildcard u hu)]
  authKeys := Description.nonempty_getD old.authKeys ▸ rfl

/-- An update of an existing group leaves the next reader with the users and the keys that there
were exactly if the body brings no users of its own and all of the stored passwords are read as they
are written. -/
theorem update_keeps_secrets_iff {writableGroups : Bool} {f : File} {etag : String}
    {content : Json} (hold : readDescription codec f.content = .ok old)
    (hupdate : updateDescription codec writableGroups (some f) etag desc = .ok content) :
    (∃ new, readDescription codec content = .ok new ∧ SameSecrets new old) ↔ Harmless old desc := by
  rw [updateDescription_ok hold hupdate, readDescription_marshalJSON]
  set first := (withSecrets old desc).written with hfirst
  obtain ⟨hextends, hop, hpresenter, hother⟩ := upgradeDescription_extends first
  constructor
  · rintro ⟨new, hnew, hsame⟩
    cases hnew
    have hknown {u : ClientPattern} (h : Known (upgradeDescription first) u.written) :
        Known old u := hsame.known h
    refine ⟨fun u hu => hknown (hop _ (mem_written.mpr ⟨u, hu, rfl⟩)),
      fun u hu => hknown (hpresenter _ (mem_written.mpr ⟨u, hu, rfl⟩)),
      fun u hu => hknown (hother _ (mem_written.mpr ⟨u, hu, rfl⟩)), fun name u hu => ?_,
      fun u hu => ?_⟩
    · have hback : (first.users.getD ∅).lookup name = some u.written := by
        rw [hfirst, Description.lookup_written]
        exact congrArg (Option.map UserDescription.written) hu
      have hnow := hextends.users name _ hback
      rw [hsame.users, Option.mem_def.mp hu] at hnow
      exact u.written_eq_iff.mp (Option.some.inj hnow).symm
    · have hback : first.wildcardUser = some u.written :=
        congrArg (Option.map UserDescription.written) hu
      have hnow := hextends.wildcardUser _ hback
      rw [hsame.wildcardUser, Option.mem_def.mp hu] at hnow
      exact u.written_eq_iff.mp (Option.some.inj hnow).symm
  · intro h
    refine ⟨_, rfl, (upgradeDescription_same (fun u hu => ?_) (fun u hu => ?_) fun u hu => ?_).trans
      (written_same h.users h.wildcardUser)⟩
    · obtain ⟨v, hv, rfl⟩ := mem_written.mp hu
      exact written_known.mpr (h.op v hv)
    · obtain ⟨v, hv, rfl⟩ := mem_written.mp hu
      exact written_known.mpr (h.presenter v hv)
    · obtain ⟨v, hv, rfl⟩ := mem_written.mp hu
      exact written_known.mpr (h.other v hv)

theorem updateDescription_accepts {f : File}
    (hold : readDescription codec f.content = .ok old)
    (hsanitised : ¬ (desc.users.isSome ∨ desc.wildcardUser.isSome ∨ desc.authKeys.isSome)) :
    updateDescription codec true (some f) (makeETag f) desc =
      .ok ((withSecrets old desc).marshalJSON codec) := by
  unfold updateDescription
  rw [if_neg hsanitised]
  simp only [hold]
  rw [if_neg (fun h => h rfl)]
  rfl

/-- A group with one user. -/
def stored : Description Json where
  users := some ((∅ : Users).insert "vimes"
    { password := { type := "plain", key := some "sybil" }, permissions := .named .op })

def storedFile : File where
  content := .obj [("users", .obj [("vimes",
    .obj [("password", .str "sybil"), ("permissions", .str "op")])])]
  size := 67
  modTime := 20

def jsonCodec : KeyCodec Json := ⟨.ok, id, fun _ => rfl⟩

theorem read_storedFile : readDescription jsonCodec storedFile.content = .ok stored := rfl

/-- A body that names the user there is in an obsolete field. -/
def knownBody : Description Json where
  autoSubgroups := true
  other := some [{ username := "vimes" }]

theorem update_keeps_stored : Harmless stored knownBody ∧ ∃ new,
    readDescription jsonCodec ((withSecrets stored knownBody).marshalJSON jsonCodec) = .ok new ∧
      SameSecrets new stored := by
  have hknown : Known stored { username := "vimes" } :=
    ⟨fun h => absurd h (by decide), fun _ => AList.mem_insert _ |>.mpr (Or.inl rfl)⟩
  have hlasting (name : String) : ∀ u ∈ (stored.users.getD ∅).lookup name,
      u.password.Lasting := by
    intro u hu
    by_cases hname : name = "vimes"
    · subst hname
      cases hu
      exact ⟨fun h => absurd h.2.1 (by decide), fun h => absurd h (by decide)⟩
    · rw [stored, Option.getD_some, AList.lookup_insert_ne hname] at hu
      cases hu
  have hharmless : Harmless stored knownBody := by
    refine ⟨fun u hu => (by cases hu), fun u hu => (by cases hu), fun u hu => ?_, hlasting,
      fun u hu => (by cases hu)⟩
    rw [List.mem_singleton.mp hu]
    exact hknown
  have hupdate : updateDescription jsonCodec true (some storedFile) (makeETag storedFile) knownBody =
      _ := updateDescription_accepts read_storedFile (by decide)
  exact ⟨hharmless, (update_keeps_secrets_iff read_storedFile hupdate).mpr hharmless⟩

/-- A body that brings an operator. -/
def evilBody : Description Json where
  op := some [{ username := "evil" }]

theorem not_update_keeps_secrets : ¬ ∀ (f : File) (desc old : Description Json) (content : Json),
    readDescription jsonCodec f.content = .ok old →
    updateDescription jsonCodec true (some f) (makeETag f) desc = .ok content →
    ∃ new, readDescription jsonCodec content = .ok new ∧ SameSecrets new old := by
  intro h
  have hupdate : updateDescription jsonCodec true (some storedFile) (makeETag storedFile) evilBody =
      _ := updateDescription_accepts read_storedFile (by decide)
  obtain ⟨new, hnew, hsame⟩ := h storedFile evilBody stored _ read_storedFile hupdate
  rw [readDescription_marshalJSON] at hnew
  have hevil := hsame.users "evil"
  rw [← Except.ok.inj hnew] at hevil
  exact absurd hevil (by decide)

end Updates

end Sozvon.Group
