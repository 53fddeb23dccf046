import Sozvon.Descriptions
import Sozvon.GroupTable
import Sozvon.TokenGroups
import Mathlib.Data.List.Induction

/-!
# Whose name a client is given

A client names itself, or its token does. A name that a description defines has a
password or an operator behind it, and the several ways into a group must not give
it to anybody else.

What verifies a JWT is not modelled; of the outcome only what the check reads is.
-/
namespace Sozvon.Token

/-- What a verified JWT says. -/
structure Claims where
  getSubject : Except String String
  getAudience : Except String (List String)
  fields : String → Option Json

structure Url where
  host : String
  path : String

/-- The libraries that tokens are read with. -/
structure Outside (κ : Type) where
  /-- `none` for what does not look like a JWT. -/
  parseJWT : String → Option (List κ) → Except String (Option Claims)
  parseUrl : String → Option Url
  equalFold : String → String → Bool

/-- What a token is read as. -/
inductive Parsed where
  | jwt (claims : Claims)
  | stateful (token : Stateful)

inductive ParseError where
  | jwt (message : String)
  | store (e : Error)
deriving DecidableEq

def toStringArray : Json → Option (List String)
  | .arr a => a.mapM fun
      | .str s => some s
      | _ => none
  | _ => none

def Claims.includeSubgroups (claims : Claims) : Bool :=
  match claims.fields "include-subgroups" with
  | some (.bool b) => b
  | _ => false

variable {κ : Type}

/-- An audience is for the group, on this host. -/
def Claims.audienceMatches (o : Outside κ) (claims : Claims) (host group u : String) : Bool :=
  match o.parseUrl u with
  | none => false
  | some url =>
      (host == "" || o.equalFold url.host host) &&
        matchGroup url.path group claims.includeSubgroups

def Claims.check (o : Outside κ) (claims : Claims) (host group : String) :
    Except String (String × List String) :=
  match claims.getSubject with
  | .error e => .error e
  | .ok sub =>
      match claims.getAudience with
      | .error e => .error e
      | .ok aud =>
          if ¬ aud.any (claims.audienceMatches o host group) then .error "token for wrong group"
          else match claims.fields "permissions" with
            | none | some .null => .ok (sub, [])
            | some p =>
                match toStringArray p with
                | none => .error "invalid 'permissions' field"
                | some perms => .ok (sub, perms)

def Stateful.check (token : Stateful) (now : ℤ) (group : String) :
    Except String (String × List String) :=
  if ¬ token.matches group then .error "token for bad group"
  else if token.expires.any (· < now) then .error "token has expired"
  else if token.notBefore.any (now < ·) then .error "token is in the future"
  else .ok (token.username.getD "", token.permissions)

namespace Parsed

def check (o : Outside κ) (now : ℤ) (host group : String) :
    Parsed → Except String (String × List String)
  | .jwt claims => claims.check o host group
  | .stateful token => token.check now group

def needsUsername : Parsed → Bool
  | .jwt _ => false
  | .stateful token => token.username.isNone

/-- The username that a token carries. A JWT without one has the empty subject. -/
def username : Parsed → Option String
  | .jwt claims => claims.getSubject.toOption.filter (· ≠ "")
  | .stateful token => token.username

/-- The times of a token allow it; those of a JWT are verified before. -/
def Current (now : ℤ) : Parsed → Prop
  | .jwt _ => True
  | .stateful token => (∀ t ∈ token.expires, now ≤ t) ∧ ∀ t ∈ token.notBefore, t ≤ now

/-- The token is for the group, or for one above it with its subgroups. -/
def Covers (o : Outside κ) (host group : String) : Parsed → Prop
  | .jwt claims => ∃ aud, claims.getAudience = .ok aud ∧
      ∃ u ∈ aud, claims.audienceMatches o host group u = true
  | .stateful token => Opens token.group token.includeSubgroups group

/-- The token is for the group itself. -/
def ForItself (o : Outside κ) (group : String) : Parsed → Prop
  | .jwt claims => ∃ aud, claims.getAudience = .ok aud ∧
      ∃ u ∈ aud, ∃ url ∈ o.parseUrl u, url.path = "/group/" ++ group ++ "/"
  | .stateful token => token.group = group

end Parsed

/-- `token.Parse`, in a state of the store. -/
def parse (o : Outside κ) (store : State) (fault : LoadFaults) (token : String)
    (keys : Option (List κ)) : State × Except ParseError Parsed :=
  match o.parseJWT token keys with
  | .error e => (store, .error (.jwt e))
  | .ok (some claims) => (store, .ok (.jwt claims))
  | .ok none =>
      match store.get fault token with
      | (store, .error e) => (store, .error (.store e))
      | (store, .ok t) => (store, .ok (.stateful t.1))

theorem Stateful.check_ok {token : Stateful} {now : ℤ} {group u : String} {perms : List String}
    (h : token.check now group = .ok (u, perms)) : token.matches group = true ∧
      (Parsed.stateful token).Current now ∧ u = token.username.getD "" := by
  unfold check at h
  split_ifs at h with hgroup hexpires hbefore
  refine ⟨hgroup, ⟨fun t ht => ?_, fun t ht => ?_⟩, ?_⟩
  · rw [Option.mem_def.mp ht, Option.any_some, decide_eq_true_eq] at hexpires
    exact not_lt.mp hexpires
  · rw [Option.mem_def.mp ht, Option.any_some, decide_eq_true_eq] at hbefore
    exact not_lt.mp hbefore
  · injection h with h
    exact (congrArg Prod.fst h).symm

theorem Claims.check_ok {o : Outside κ} {claims : Claims} {host group u : String}
    {perms : List String} (h : claims.check o host group = .ok (u, perms)) :
    claims.getSubject = .ok u ∧ (Parsed.jwt claims).Covers o host group := by
  unfold check at h
  cases hsub : claims.getSubject with
  | error e => rw [hsub] at h; cases h
  | ok sub =>
      cases haud : claims.getAudience with
      | error e => rw [hsub, haud] at h; cases h
      | ok aud =>
          rw [hsub, haud] at h
          dsimp only at h
          split_ifs at h with hany
          obtain ⟨a, ha, hmatch⟩ := List.any_eq_true.mp hany
          refine ⟨?_, aud, haud, a, ha, hmatch⟩
          split at h
          · cases h; rfl
          · cases h; rfl
          · split at h
            · cases h
            · cases h; rfl

/-- The token is a JWT whose subject is empty. -/
def Parsed.Nameless (tok : Parsed) : Prop := ∃ claims, tok = .jwt claims ∧ claims.getSubject = .ok ""

/-- A token that is accepted carries the name that it gives, unless that is the empty subject of a
JWT, or the token wants a name from the client. -/
theorem Parsed.check_ok {o : Outside κ} {tok : Parsed} {now : ℤ} {host group u : String}
    {perms : List String} (h : tok.check o now host group = .ok (u, perms)) :
    tok.Covers o host group ∧ tok.Current now ∧
      (tok.username = some u ∨ u = "" ∧ (tok.Nameless ∨ tok.needsUsername = true)) := by
  cases tok with
  | jwt claims =>
      obtain ⟨hsub, hcovers⟩ := Claims.check_ok h
      refine ⟨hcovers, trivial, ?_⟩
      by_cases hempty : u = ""
      · subst hempty
        exact .inr ⟨rfl, .inl ⟨claims, rfl, hsub⟩⟩
      · left
        rw [username, hsub]
        exact Option.filter_some_pos (decide_eq_true hempty)
  | stateful token =>
      obtain ⟨hmatch, hcurrent, rfl⟩ := Stateful.check_ok h
      refine ⟨(matches_iff token group).mp hmatch, hcurrent, ?_⟩
      rw [username, needsUsername]
      cases token.username with
      | none => exact .inr ⟨rfl, .inr rfl⟩
      | some u => exact .inl rfl

end Sozvon.Token

namespace Sozvon.Group

open Token

section Definitions

variable {κ : Type}

/-- What a description says about permissions as well. -/
structure LoginDescription (κ : Type) extends Description κ where
  allowRecording : Bool := false
  unrestrictedTokens : Bool := false

def permissionsMap : PermissionsName → List String
  | .op => ["op", "present", "message", "caption", "token"]
  | .present => ["present", "message"]
  | .message => ["message"]
  | .observe => []
  | .caption => ["caption"]
  | .admin => ["admin"]

def Permissions.permissions (p : Permissions) (desc : LoginDescription κ) : List String :=
  match p with
  | .unnamed permissions => permissions.getD []
  | .named name =>
      let perms := permissionsMap name
      let recorded := if desc.allowRecording ∧ "op" ∈ perms ∧ "record" ∉ perms then
        "record" :: perms else perms
      if desc.unrestrictedTokens ∧ "present" ∈ perms ∧ "token" ∉ perms then
        "token" :: recorded
      else recorded

structure ClientCredentials where
  username : Option String := none
  password : List UInt8 := []
  token : String := ""

inductive LoginError where
  | text (message : String)
  | password (e : MatchError)
  | parse (e : ParseError)
  | notAuthorised (e : LoginError)
deriving DecidableEq

def ErrUsernameRequired : LoginError := .text "username required"

def ErrBadPassword : LoginError := .notAuthorised (.text "bad password")

def ErrNoSuchUsername : LoginError := .notAuthorised (.text "user not found")

def ErrDuplicateUsername : LoginError := .notAuthorised (.text "this username is taken")

def validUsername (username : String) : Bool :=
  username == "" || GroupTable.validGroupName username

/-- What a login depends on apart from the description and the client. -/
structure Server (κ : Type) where
  crypto : Crypto
  outside : Outside κ
  store : State
  fault : LoadFaults := {}
  now : ℤ
  /-- The canonical host of the configuration, if that can be read. -/
  canonicalHost : Except String String

namespace LoginDescription

def user (desc : LoginDescription κ) (username : String) : Option UserDescription :=
  desc.users.bind (·.lookup username)

def userExists (desc : LoginDescription κ) (username : String) : Bool :=
  (desc.user username).isSome

def getPasswordPermission (crypto : Crypto) (desc : LoginDescription κ)
    (creds : ClientCredentials) : Except LoginError Permissions :=
  match creds.username with
  | none => .error (.text "username not provided")
  | some username =>
      match desc.user username with
      | some c =>
          match c.password.match crypto creds.password with
          | .error e => .error (.password e)
          | .ok true => .ok c.permissions
          | .ok false => .error ErrBadPassword
      | none =>
          match desc.wildcardUser with
          | none => .error ErrNoSuchUsername
          | some wildcard =>
              if (wildcard.password.match crypto creds.password).toOption = some true then
                .ok wildcard.permissions
              else .error ErrNoSuchUsername

/-- The branch of `GetPermission` for a token that has been read. -/
def tokenPermission (s : Server κ) (desc : LoginDescription κ) (groupname : String)
    (creds : ClientCredentials) (tok : Parsed) : Except LoginError (String × List String) :=
  if creds.username = none ∧ tok.needsUsername then .error ErrUsernameRequired
  else match s.canonicalHost with
    | .error e => .error (.text e)
    | .ok host =>
        match tok.check s.outside s.now host groupname with
        | .error e => .error (.notAuthorised (.text e))
        | .ok (username, perms) =>
            match creds.username with
            | none => .ok (username, perms)
            | some name =>
                if username ≠ "" then .ok (username, perms)
                else if desc.userExists name then .error ErrDuplicateUsername
                else .ok (name, perms)

/-- The branch for a client without a token. -/
def passwordPermission (s : Server κ) (desc : LoginDescription κ) (creds : ClientCredentials) :
    Except LoginError (String × List String) :=
  match creds.username with
  | none => .error (.text "neither username nor token provided")
  | some username =>
      (desc.getPasswordPermission s.crypto creds).map fun ps => (username, ps.permissions desc)

def getPermission (s : Server κ) (desc : LoginDescription κ) (groupname : String)
    (creds : ClientCredentials) : State × Except LoginError (String × List String) :=
  let r : State × Except LoginError (String × List String) :=
    if creds.token ≠ "" then
      match parse s.outside s.store s.fault creds.token desc.authKeys with
      | (store, .error e) => (store, .error (.notAuthorised (.parse e)))
      | (store, .ok tok) => (store, desc.tokenPermission s groupname creds tok)
    else (s.store, desc.passwordPermission s creds)
  (r.1, r.2.bind fun p =>
    if validUsername p.1 then .ok p else .error (.notAuthorised (.text "invalid username")))

end LoginDescription

end Definitions

/-! ## Clean names -/

section Names

/-- The loop of `path.Clean` over the elements of a rooted path. -/
def cleanParts (parts : List (List Char)) : List (List Char) :=
  parts.foldl (fun out part =>
    if part = [] ∨ part = ['.'] then out
    else if part = ['.', '.'] then out.dropLast
    else out ++ [part]) []

/-- `path.Clean("/" + name)` -/
def clean (name : String) : List Char :=
  '/' :: ['/'].intercalate (cleanParts (name.toList.splitOn '/'))

/-- Nothing to clean. -/
def CleanName (name : String) : Prop :=
  '\\' ∉ name.toList ∧ clean name ≠ ['/'] ∧ clean name = '/' :: name.toList

def ProperPart (part : List Char) : Prop := part ≠ [] ∧ part ≠ ['.'] ∧ part ≠ ['.', '.']

theorem not_mem_of_mem_splitOn {sep : Char} {l part : List Char} (h : part ∈ l.splitOn sep) :
    sep ∉ part := by
  induction l generalizing part with
  | nil =>
      obtain rfl := List.mem_singleton.mp h
      exact List.not_mem_nil
  | cons c l ih =>
      rw [List.splitOn_cons_eq_if_modifyHead] at h
      split_ifs at h with hc
      · rcases List.mem_cons.mp h with rfl | h
        · exact List.not_mem_nil
        · exact ih h
      · obtain ⟨first, rest, hsplit⟩ := List.exists_cons_of_ne_nil (List.splitOn_ne_nil sep l)
        rw [hsplit, List.modifyHead_cons, List.mem_cons] at h
        rw [hsplit] at ih
        rcases h with rfl | h
        · rw [List.mem_cons, not_or]
          exact ⟨fun heq => hc (beq_iff_eq.mpr heq.symm), ih List.mem_cons_self⟩
        · exact ih (List.mem_cons_of_mem _ h)

theorem mem_cleanParts {parts : List (List Char)} {part : List Char}
    (h : part ∈ cleanParts parts) : part ∈ parts ∧ ProperPart part := by
  induction parts using List.reverseRecOn generalizing part with
  | nil => exact absurd h List.not_mem_nil
  | append_singleton parts last ih =>
      rw [cleanParts, List.foldl_append] at h
      change part ∈ (if last = [] ∨ last = ['.'] then cleanParts parts
        else if last = ['.', '.'] then (cleanParts parts).dropLast
        else cleanParts parts ++ [last]) at h
      have hold : part ∈ cleanParts parts → part ∈ parts ++ [last] ∧ ProperPart part :=
        fun hmem => ⟨List.mem_append_left _ (ih hmem).1, (ih hmem).2⟩
      split_ifs at h with hempty hup
      · exact hold h
      · exact hold (List.dropLast_subset _ h)
      · rcases List.mem_append.mp h with hmem | hmem
        · exact hold hmem
        · obtain rfl := List.mem_singleton.mp hmem
          exact ⟨List.mem_append_right _ hmem, fun hnil => hempty (.inl hnil),
            fun hdot => hempty (.inr hdot), hup⟩

theorem cleanParts_of_proper {parts : List (List Char)} (h : ∀ part ∈ parts, ProperPart part) :
    cleanParts parts = parts := by
  induction parts using List.reverseRecOn with
  | nil => rfl
  | append_singleton parts last ih =>
      obtain ⟨hnil, hdot, hup⟩ := h last (List.mem_append_right _ (List.mem_singleton_self _))
      have hparts : cleanParts parts = parts :=
        ih fun part hpart => h part (List.mem_append_left _ hpart)
      rw [cleanParts, List.foldl_append]
      change (if last = [] ∨ last = ['.'] then cleanParts parts
        else if last = ['.', '.'] then (cleanParts parts).dropLast
        else cleanParts parts ++ [last]) = _
      rw [if_neg fun hor => hor.elim hnil hdot, if_neg hup, hparts]

/-- What `validGroupName` says of the elements is what the path's cleaning says. -/
theorem validGroupName_iff (name : String) :
    GroupTable.validGroupName name = true ↔ CleanName name := by
  have hvalid : GroupTable.validGroupName name = true ↔
      '\\' ∉ name.toList ∧ ∀ part ∈ name.toList.splitOn '/', ProperPart part := by
    rw [GroupTable.validGroupName]
    simp [ProperPart]
  rw [hvalid, CleanName, and_congr_right_iff]
  intro _
  constructor
  · intro hproper
    have hclean : clean name = '/' :: name.toList := by
      rw [clean, cleanParts_of_proper hproper, List.intercalate_splitOn]
    refine ⟨fun hroot => ?_, hclean⟩
    have hempty : name.toList = [] := List.tail_eq_of_cons_eq (hclean.symm.trans hroot)
    rw [hempty] at hproper
    exact (hproper [] (List.mem_singleton_self _)).1 rfl
  · rintro ⟨hroot, hclean⟩
    have hname : ['/'].intercalate (cleanParts (name.toList.splitOn '/')) = name.toList :=
      List.tail_eq_of_cons_eq hclean
    have hne : cleanParts (name.toList.splitOn '/') ≠ [] := fun hnil =>
      hroot (by rw [clean, hnil]; rfl)
    have hsep : ∀ part ∈ cleanParts (name.toList.splitOn '/'), '/' ∉ part :=
      fun part hpart => not_mem_of_mem_splitOn (mem_cleanParts hpart).1
    rw [← hname, List.splitOn_intercalate _ hsep hne]
    exact fun part hpart => (mem_cleanParts hpart).2

end Names

/-! ## Defined users -/

section Owners

variable {κ : Type} {s : Server κ} {desc : LoginDescription κ} {groupname u : String}
  {creds : ClientCredentials} {perms : List String}

namespace LoginDescription

/-- The client has shown that a name is its own: with the password of the entry, or with a
token that carries it. -/
def Owns (s : Server κ) (desc : LoginDescription κ) (creds : ClientCredentials)
    (isFor : Parsed → Prop) (u : String) : Prop :=
  (creds.token = "" ∧ creds.username = some u ∧
    ∃ c ∈ desc.user u, c.password.accepts s.crypto creds.password) ∨
  (creds.token ≠ "" ∧ ∃ tok,
    (parse s.outside s.store s.fault creds.token desc.authKeys).2 = .ok tok ∧ isFor tok ∧
      tok.Current s.now ∧ tok.username = some u)

/-- The token is for the group on this host. -/
def CoveredBy (s : Server κ) (groupname : String) (tok : Parsed) : Prop :=
  ∃ host, s.canonicalHost = .ok host ∧ tok.Covers s.outside host groupname

theorem passwordPermission_owns
    (h : desc.passwordPermission s creds = .ok (u, perms)) (hu : desc.userExists u = true) :
    creds.username = some u ∧ ∃ c ∈ desc.user u, c.password.accepts s.crypto creds.password := by
  unfold passwordPermission at h
  cases hname : creds.username with
  | none => rw [hname] at h; cases h
  | some name =>
      rw [hname] at h
      obtain ⟨ps, hps, heq⟩ : ∃ ps, desc.getPasswordPermission s.crypto creds = .ok ps ∧
          (name, ps.permissions desc) = (u, perms) := by
        cases hps : desc.getPasswordPermission s.crypto creds with
        | error e => rw [hps] at h; cases h
        | ok ps => rw [hps] at h; exact ⟨ps, rfl, Except.ok.inj h⟩
      obtain rfl : name = u := congrArg Prod.fst heq
      obtain ⟨c, hc⟩ := Option.isSome_iff_exists.mp hu
      refine ⟨rfl, c, hc, ?_⟩
      rw [getPasswordPermission, hname] at hps
      dsimp only at hps
      rw [hc] at hps
      dsimp only at hps
      split at hps
      · cases hps
      · assumption
      · cases hps

/-- A name that the client brings along with a token is not that of a user. -/
theorem tokenPermission_owns {tok : Parsed}
    (h : desc.tokenPermission s groupname creds tok = .ok (u, perms))
    (hu : desc.userExists u = true) :
    CoveredBy s groupname tok ∧ tok.Current s.now ∧
      (tok.username = some u ∨ u = "" ∧ creds.username = none ∧ tok.Nameless) := by
  unfold tokenPermission at h
  split_ifs at h with hneeds
  cases hhost : s.canonicalHost with
  | error e => rw [hhost] at h; cases h
  | ok host =>
      rw [hhost] at h
      dsimp only at h
      cases hcheck : tok.check s.outside s.now host groupname with
      | error e => rw [hcheck] at h; cases h
      | ok p =>
          obtain ⟨username, perms'⟩ := p
          obtain ⟨hcovers, hcurrent, hcarries⟩ := Parsed.check_ok hcheck
          rw [hcheck] at h
          dsimp only at h
          have hgiven : username = u ∧ (u = "" → creds.username = none) := by
            split at h
            · rename_i hnone
              cases h
              exact ⟨rfl, fun _ => hnone⟩
            · split_ifs at h with hempty hexists
              · cases h
                exact ⟨rfl, fun hu => absurd hu hempty⟩
              · cases h
                exact absurd hu hexists
          obtain ⟨rfl, hanonymous⟩ := hgiven
          refine ⟨⟨host, hhost, hcovers⟩, hcurrent, hcarries.imp_right fun ⟨hempty, hwhy⟩ => ?_⟩
          have hnone := hanonymous hempty
          exact ⟨hempty, hnone, hwhy.resolve_right fun hneeded => hneeds ⟨hnone, hneeded⟩⟩

/-- The client has a JWT with an empty subject, and has not said who it is. -/
def Anonymous (s : Server κ) (desc : LoginDescription κ) (creds : ClientCredentials)
    (isFor : Parsed → Prop) : Prop :=
  creds.token ≠ "" ∧ creds.username = none ∧ ∃ tok,
    (parse s.outside s.store s.fault creds.token desc.authKeys).2 = .ok tok ∧ isFor tok ∧
      tok.Current s.now ∧ tok.Nameless

/-- A defined name is only given to a client that owns it, but for the empty one, which a client
without a name gets for a JWT without one. And a name is clean. -/
theorem getPermission_owner (h : (desc.getPermission s groupname creds).2 = .ok (u, perms)) :
    (desc.userExists u = true → Owns s desc creds (CoveredBy s groupname) u ∨
      u = "" ∧ Anonymous s desc creds (CoveredBy s groupname)) ∧
      (u = "" ∨ CleanName u) := by
  unfold getPermission at h
  dsimp only at h
  generalize hr : (if creds.token ≠ "" then _ else _ :
    State × Except LoginError (String × List String)) = r at h
  obtain ⟨hresult, hvalid⟩ : r.2 = .ok (u, perms) ∧ validUsername u = true := by
    cases hr2 : r.2 with
    | error e => rw [hr2] at h; cases h
    | ok p =>
        rw [hr2, Except.bind] at h
        split_ifs at h with hvalid
        cases h
        exact ⟨rfl, hvalid⟩
  refine ⟨fun hu => ?_, ?_⟩
  · split_ifs at hr with htoken
    · cases hparse : parse s.outside s.store s.fault creds.token desc.authKeys with
      | mk store parsed =>
          rw [hparse] at hr
          cases parsed with
          | error e => rw [← hr] at hresult; cases hresult
          | ok tok =>
              rw [← hr] at hresult
              obtain ⟨hcovered, hcurrent, hname⟩ := tokenPermission_owns hresult hu
              rcases hname with hcarries | ⟨hempty, hnone, hnameless⟩
              · exact .inl (.inr ⟨htoken, tok, by rw [hparse], hcovered, hcurrent, hcarries⟩)
              · exact .inr ⟨hempty, htoken, hnone, tok, by rw [hparse], hcovered, hcurrent, hnameless⟩
    · rw [← hr] at hresult
      exact .inl (.inl ⟨not_not.mp htoken, passwordPermission_owns hresult hu⟩)
  · rw [validUsername, Bool.or_eq_true, beq_iff_eq] at hvalid
    exact hvalid.imp_right (validGroupName_iff u).mp

/-- No JWTs, and one stateful token in the store. -/
def storeOf (token : Stateful) : Server Unit where
  crypto := ⟨fun _ _ _ _ => [], fun _ _ => none⟩
  outside := ⟨fun _ _ => .ok none, fun _ => none, fun _ _ => false⟩
  store :=
    { filename := "tokens.jsonl"
      fileSize := 1
      modTime := 1
      tokens := some ((∅ : Tokens).insert token.token token)
      disk := some { lines := [token], size := 1, modTime := 1, empty := nofun } }
  now := 1
  canonicalHost := .ok ""

/-- A JWT for the group `a` that has nothing in it but its audience. -/
def nameless : Server Unit :=
  { storeOf { token := "" } with
    outside :=
      { parseJWT := fun _ _ =>
          .ok (some ⟨.ok "", .ok ["https://localhost/group/a/"], fun _ => none⟩)
        parseUrl := fun _ => some ⟨"localhost", "/group/a/"⟩
        equalFold := fun _ _ => false } }

def oneUser (name : String) : LoginDescription Unit :=
  { users := some ((∅ : Users).insert name { password := { type := "plain", key := some "k" } }) }

/-- A token of the group itself. -/
theorem getPermission_owner_token :
    let token : Stateful := { token := "t", group := "a", username := some "op" }
    ((oneUser "op").userExists "op" = true →
      Owns (storeOf token) (oneUser "op") { token := "t" } (CoveredBy (storeOf token) "a") "op" ∨
        "op" = "" ∧ Anonymous (storeOf token) (oneUser "op") { token := "t" }
          (CoveredBy (storeOf token) "a")) ∧
      ("op" = "" ∨ CleanName "op") :=
  getPermission_owner (s := storeOf { token := "t", group := "a", username := some "op" })
    (by decide +kernel : ((oneUser "op").getPermission _ "a" { token := "t" }).2 = .ok ("op", []))

/-- A token of the group above gives its username in the subgroup as well, and a JWT without
a subject gives the empty name. -/
theorem not_owner : (¬ ∀ (s : Server Unit) desc groupname creds u perms,
      (getPermission s desc groupname creds).2 = .ok (u, perms) → u ≠ "" →
      userExists desc u = true → Owns s desc creds (·.ForItself s.outside groupname) u) ∧
    ¬ ∀ (s : Server Unit) desc groupname creds perms,
      (getPermission s desc groupname creds).2 = .ok ("", perms) → userExists desc "" = true →
      Owns s desc creds (CoveredBy s groupname) "" := by
  constructor
  · intro h
    let token : Stateful :=
      { token := "t", group := "a", includeSubgroups := true, username := some "op" }
    rcases h (storeOf token) (oneUser "op") "a/b" { token := "t" } "op" [] (by decide +kernel)
      (by decide) (by decide) with hpassword | ⟨-, tok, hparse, hself, -⟩
    · exact absurd hpassword.1 (by decide)
    · have htok : tok = .stateful token := (Except.ok.inj hparse).symm
      rw [htok] at hself
      have hgroup : "a" = "a/b" := hself
      exact absurd hgroup (by decide)
  · intro h
    rcases h nameless (oneUser "") "a" { token := "t" } [] (by decide +kernel)
      (by decide) with
      hpassword | ⟨-, tok, hparse, -, -, hname⟩
    · exact absurd hpassword.1 (by decide)
    · cases hparse
      cases hname

end LoginDescription

end Owners

end Sozvon.Group
