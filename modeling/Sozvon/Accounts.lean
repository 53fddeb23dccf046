import Sozvon.Descriptions
import Sozvon.EntityTags
import Sozvon.Runs

/-!
# The accounts of a group

The users, the passwords and the keys in the file of one group, and the requests that
read and change them. A request to change something first looks at the etag, with no lock
held, and the change itself is made later, if the file still has that etag. A group that is
in memory keeps the description that it has been added with.

What a parent has to say about a group without a file of its own comes with the label.
-/
namespace Sozvon.Group

open Json Preconditions Runs

/-- The `username` and the `wildcard` of a request. -/
structure Subject where
  username : String := ""
  wildcard : Bool := false
deriving DecidableEq, Repr

/-- A description as it has been read, with the stamp of the file. -/
structure Reading (κ : Type) where
  desc : Description κ
  size : ℕ
  modTime : ℤ
  isSubgroup : Bool := false

inductive AccountError where
  | notExist
  | wildcardWithUsername
  | badKeys
  | failed (e : UpdateError)
deriving DecidableEq, Repr

inductive Operation (κ : Type) where
  | updateDescription (desc : Description κ)
  | deleteDescription
  | updateUser (who : Subject) (user : UserDescription)
  | deleteUser (who : Subject)
  | setUserPassword (who : Subject) (pw : Password)
  | setKeys (keys : Option (List κ))

/-- What can be read. -/
inductive Target where
  | description
  | users
  | user (who : Subject)

inductive Body (κ : Type) where
  | description (desc : Description κ)
  | users (names : List String)
  | user (user : UserDescription)

section Definitions
variable {κ : Type} (codec : KeyCodec κ)

/-! ## Reading -/

def Reading.etag (r : Reading κ) : String := s!"\"{r.size}-{r.modTime}\""

def openDescription : Option File → Except AccountError (Reading κ)
  | none => .error .notExist
  | some f =>
      match readDescription codec f.content with
      | .error () => .error (.failed .unreadable)
      | .ok desc => .ok { desc, size := f.size, modTime := f.modTime }

def descriptionUnchanged (f : File) (r : Reading κ) : Prop :=
  r.isSubgroup = false ∧ f.size = r.size ∧ f.modTime = r.modTime

instance (f : File) (r : Reading κ) : Decidable (descriptionUnchanged f r) :=
  inferInstanceAs (Decidable (_ ∧ _))

/-- From memory, or else from the file, or from a parent's. -/
def getDescription (file : Option File) (memory : Option (Reading κ))
    (inherited : Except AccountError (Reading κ)) : Except AccountError (Reading κ) :=
  match file, memory with
  | some f, some r => if descriptionUnchanged f r then .ok r else openDescription codec (some f)
  | some f, none => openDescription codec (some f)
  | none, _ => inherited.map fun r => { r with isSubgroup := true }

/-- The user that is meant; a map that is nil has none. -/
def Description.account (d : Description κ) (who : Subject) : Option UserDescription :=
  if who.wildcard then d.wildcardUser else (d.users.getD ∅).lookup who.username

def getSanitisedUser (r : Except AccountError (Reading κ)) (who : Subject) :
    Except AccountError (UserDescription × String) :=
  if who.wildcard ∧ who.username ≠ "" then .error .wildcardWithUsername
  else r.bind fun r =>
    match r.desc.account who with
    | none => .error .notExist
    | some u => .ok ({ u with password := {} }, r.etag)

def getUserTag (r : Except AccountError (Reading κ)) (who : Subject) : Except AccountError String :=
  (getSanitisedUser r who).map Prod.snd

def getDescriptionTag : Option File → Except AccountError String
  | none => .error .notExist
  | some f => .ok (makeETag f)

def Target.body (r : Except AccountError (Reading κ)) :
    Target → Except AccountError (Body κ × String)
  | .description => r.bind fun r =>
      if r.isSubgroup then .error .notExist
      else .ok (.description
        { r.desc with users := none, wildcardUser := none, authKeys := none }, r.etag)
  | .users => r.map fun r => (.users (r.desc.users.getD ∅).keys, r.etag)
  | .user who => (getSanitisedUser r who).map fun u => (.user u.1, u.2)

/-! ## Writing -/

def Description.setAccount (d : Description κ) (who : Subject) (user : UserDescription) :
    Description κ :=
  if who.wildcard then { d with wildcardUser := some user }
  else { d with users := some ((d.users.getD ∅).insert who.username user) }

def Description.deleteAccount (d : Description κ) (who : Subject) : Description κ :=
  if who.wildcard then { d with wildcardUser := none }
  else { d with users := d.users.map (·.erase who.username) }

variable (parseKeys : List κ → Bool) (writableGroups : Bool) (file : Option File)

def rewriteDescriptionFile (desc : Description κ) : Except AccountError (Option Json) :=
  if writableGroups then .ok (some (desc.marshalJSON codec)) else .error (.failed .notWritable)

def deleteDescription (etag : String) : Except AccountError (Option Json) :=
  match file with
  | none => .error .notExist
  | some f => if etag ≠ makeETag f then .error (.failed .tagMismatch) else .ok none

def deleteUser (who : Subject) (etag : String) : Except AccountError (Option Json) :=
  if who.wildcard ∧ who.username ≠ "" then .error .wildcardWithUsername
  else (openDescription codec file).bind fun r =>
    match r.desc.account who with
    | none => .error .notExist
    | some _ =>
        if r.etag ≠ etag then .error (.failed .tagMismatch)
        else rewriteDescriptionFile codec writableGroups (r.desc.deleteAccount who)

def updateUser (who : Subject) (etag : String) (user : UserDescription) :
    Except AccountError (Option Json) :=
  if who.wildcard ∧ who.username ≠ "" then .error .wildcardWithUsername
  else if user.password.type ≠ "" ∨ user.password.key ≠ none then .error (.failed .notSanitised)
  else (openDescription codec file).bind fun r =>
    let old := r.desc.account who
    let oldetag := if old.isSome then r.etag else ""
    if oldetag ≠ etag then .error (.failed .tagMismatch)
    else rewriteDescriptionFile codec writableGroups
      (r.desc.setAccount who { user with password := (old.getD {}).password })

def setUserPassword (who : Subject) (pw : Password) : Except AccountError (Option Json) :=
  if who.wildcard ∧ who.username ≠ "" then .error .wildcardWithUsername
  else (openDescription codec file).bind fun r =>
    match r.desc.account who with
    | none => .error .notExist
    | some user => rewriteDescriptionFile codec writableGroups
        (r.desc.setAccount who { user with password := pw })

def setKeys (keys : Option (List κ)) : Except AccountError (Option Json) :=
  if keys.any (!parseKeys ·) then .error .badKeys
  else (openDescription codec file).bind fun r =>
    rewriteDescriptionFile codec writableGroups { r.desc with authKeys := keys }

/-- The new content of the file, or `none` where it is removed. -/
def Operation.run (etag : String) : Operation κ → Except AccountError (Option Json)
  | .updateDescription desc =>
      match Group.updateDescription codec writableGroups file etag desc with
      | .error e => .error (.failed e)
      | .ok content => .ok (some content)
  | .deleteDescription => Group.deleteDescription file etag
  | .updateUser who user => Group.updateUser codec writableGroups file who etag user
  | .deleteUser who => Group.deleteUser codec writableGroups file who etag
  | .setUserPassword who pw => Group.setUserPassword codec writableGroups file who pw
  | .setKeys keys => Group.setKeys codec parseKeys writableGroups file keys

/-! ## Requests -/

/-- A request that puts something where there may be nothing is not stopped by that. -/
def orEmpty : Except AccountError String → Except AccountError String
  | .error .notExist => .ok ""
  | r => r

def Operation.puts : Operation κ → Bool
  | .updateDescription _ | .updateUser .. => true
  | _ => false

/-- The tag that the handler asks for, with the method; a password or a key is set without one. -/
def Operation.look (r : Except AccountError (Reading κ)) :
    Operation κ → Option (String × Except AccountError String)
  | .updateDescription _ => some ("PUT", orEmpty (getDescriptionTag file))
  | .deleteDescription => some ("DELETE", getDescriptionTag file)
  | .updateUser who _ => some ("PUT", orEmpty (getUserTag r who))
  | .deleteUser who => some ("DELETE", getUserTag r who)
  | .setUserPassword .. | .setKeys _ => none

end Definitions

structure Request (κ : Type) where
  operation : Operation κ
  headers : Headers := {}

/-- What has happened: a description, or a parent's, has been read, a request has been refused,
has failed or is done, or the file has been edited by hand. -/
inductive Event (κ : Type) where
  | read (isSubgroup : Bool) (target : Target) (body : Body κ) (etag : String)
  | refused (refusal : Refusal)
  | failed (e : AccountError)
  | done (request : Request κ) (created : Bool) (before after : Option File)
  | edited (file : Option File)

structure Store (κ : Type) where
  file : Option File := none
  writableGroups : Bool := true
  -- the description of the group in memory, and those that are about to be put there
  memory : Option (Reading κ) := none
  readings : List (Reading κ) := []
  clock : ℤ := 0
  -- the requests that have seen an etag
  pending : List (Request κ × String) := []
  log : List (Event κ) := []

inductive Label (κ : Type) where
  | get (target : Target) (headers : Headers) (inherited : Except AccountError (Reading κ))
  | look (request : Request κ) (inherited : Except AccountError (Reading κ))
  | commit (i : ℕ) (size : ℕ) (modTime : ℤ)
  | edit (file : Option File) (time : ℤ)
  | configure (writableGroups : Bool)
  | read
  | add (i : ℕ)
  | drop

section Store
variable {κ : Type} (codec : KeyCodec κ) (parseKeys : List κ → Bool)

namespace Store

def append (s : Store κ) (e : Event κ) : Store κ := { s with log := s.log ++ [e] }

def getDescription (s : Store κ) (inherited : Except AccountError (Reading κ)) :
    Except AccountError (Reading κ) :=
  Group.getDescription codec s.file s.memory inherited

def get (s : Store κ) (target : Target) (headers : Headers)
    (inherited : Except AccountError (Reading κ)) : Store κ :=
  match target.body (s.getDescription codec inherited) with
  | .error e => s.append (.failed e)
  | .ok (body, etag) =>
      match checkPreconditions "GET" headers etag.toList with
      | some refusal => s.append (.refused refusal)
      | none => s.append (.read s.file.isNone target body etag)

def look (s : Store κ) (request : Request κ) (inherited : Except AccountError (Reading κ)) :
    Store κ :=
  match request.operation.look s.file (s.getDescription codec inherited) with
  | none => { s with pending := s.pending ++ [(request, "")] }
  | some (_, .error e) => s.append (.failed e)
  | some (method, .ok etag) =>
      match checkPreconditions method request.headers etag.toList with
      | some refusal => s.append (.refused refusal)
      | none => { s with pending := s.pending ++ [(request, etag)] }

def commit (s : Store κ) (request : Request κ) (etag : String) (size : ℕ) (modTime : ℤ) :
    Store κ :=
  match request.operation.run codec parseKeys s.writableGroups s.file etag with
  | .error e => s.append (.failed e)
  | .ok content =>
      let file := content.map fun content => ⟨content, size, modTime⟩
      { s with file, clock := max s.clock modTime }.append
        (.done request (request.operation.puts && etag = "") s.file file)

end Store

def step (s : Store κ) : Label κ → Option (Store κ)
  | .get target headers inherited => some (s.get codec target headers inherited)
  | .look request inherited => some (s.look codec request inherited)
  | .commit i size modTime =>
      s.pending[i]?.map fun (request, etag) =>
        { s with pending := s.pending.eraseIdx i }.commit codec parseKeys request etag size modTime
  | .edit file time => some ({ s with file, clock := max s.clock time }.append (.edited file))
  | .configure writableGroups => some { s with writableGroups }
  | .read =>
      match openDescription codec s.file with
      | .error _ => none
      | .ok r => some { s with readings := s.readings ++ [r] }
  | .add i => s.readings[i]?.map fun r =>
      { s with memory := some r, readings := s.readings.eraseIdx i }
  | .drop => some { s with memory := none }

/-- A group whose file nobody has read yet, at a time when it has been there for a while. -/
def Fresh (file : Option File) (s : Store κ) : Prop :=
  ∃ clock writableGroups, s = { file, clock, writableGroups } ∧ ∀ f ∈ file, f.modTime ≤ clock

def system (file : Option File) : System (Store κ) (Label κ) where
  init := Fresh file
  step := step codec parseKeys

/-- The clock goes on from one change of the file to the next. -/
def ticks (s : Store κ) : Label κ → Bool
  | .commit _ _ modTime => s.clock < modTime
  | .edit file time => s.clock < time && file.all fun f => f.modTime = time
  | _ => true

def Ticks (s : Store κ) (l : Label κ) : Prop := ticks s l = true

instance (s : Store κ) (l : Label κ) : Decidable (Ticks s l) :=
  inferInstanceAs (Decidable (_ = _))

end Store

end Sozvon.Group
