import Sozvon.Json
import Sozvon.Runs
import Sozvon.TokenFrame

/-!
# Messages about tokens

What a client may do to the tokens is a matter of its permissions, of its group and
of the names in the message. A change takes several accesses to the store, and other
clients' messages may come in between. Descriptions may be replaced at any time
between two messages.
-/
namespace Sozvon.TokenMessages

open Token Runs

structure Client where
  username : String
  group : String
  permissions : List String
deriving DecidableEq, Repr

/-- What of a group's description the messages look at. -/
structure Description where
  operatorRoom : Bool := false
  e2ee : Bool := false
  users : List String := []
deriving DecidableEq, Repr

def Description.userExists (d : Description) (username : String) : Prop := username ∈ d.users

instance (d : Description) : DecidablePred d.userExists :=
  fun _ => inferInstanceAs (Decidable (_ ∈ _))

def isOperatorHub (d : Description) : Prop := d.operatorRoom = true

instance : DecidablePred isOperatorHub := fun _ => inferInstanceAs (Decidable (_ = _))

/-- The characters of a slug. -/
def slugChar (r : Char) : Bool := 'a' ≤ r ∧ r ≤ 'z' ∨ '0' ≤ r ∧ r ≤ '9' ∨ r = '-'

def isDirectChild (child parent : String) : Bool :=
  let front := (parent ++ "/").toList
  if front.isPrefixOf child.toList then
    match child.toList.drop front.length with
    | [] => false
    | r :: rest => !(r :: rest).contains '/' && r ≠ '-' && (r :: rest).all slugChar
  else false

/-! ## The value of a message -/

/-- What `parseStatefulToken` returns. Of a list nil is told apart. -/
structure Parsed where
  token : String
  group : String
  includeSubgroups : Bool
  username : Option String
  permissions : Option (List String)
  expires : Option ℤ
  notBefore : Option ℤ
deriving DecidableEq, Repr

/-- `time.Parse(time.RFC3339, v)`, and the time so many milliseconds from now. -/
structure Times where
  rfc3339 : String → Option ℤ
  fromNow : String → ℤ

section Parse

variable (data : List (String × Json))

/-- `data[key]`; the last member of that name counts, and a missing one is nil as `null` is. -/
def field (key : String) : Json :=
  ((data.reverse.find? fun member => member.1 = key).map (·.2)).getD .null

def parseString (key : String) : Except String (Option String) :=
  match field data key with
  | .null => .ok none
  | .str s => .ok (some s)
  | _ => .error "bad string value"

def parseStringList (key : String) : Except String (Option (List String)) :=
  match field data key with
  | .null => .ok none
  | .arr l =>
      (l.mapM fun (j : Json) =>
        match j with
        | .str s => (.ok s : Except String String)
        | _ => .error "bad string list").map some
  | _ => .error "bad string list"

def parseTime (times : Times) (key : String) : Except String (Option ℤ) :=
  match field data key with
  | .null => .ok none
  | .str s =>
      match times.rfc3339 s with
      | some t => .ok (some t)
      | none => .error "bad time value"
  | .num v => .ok (some (times.fromNow v))
  | _ => .error "bad time value"

def parseBool (key : String) : Except String Bool :=
  match field data key with
  | .null => .ok false
  | .bool b => .ok b
  | _ => .error "bad boolean value"

end Parse

def parseStatefulToken (times : Times) : Json → Except String Parsed
  | .obj data => do
      let token ← parseString data "token"
      let username ← parseString data "username"
      let group ← parseString data "group"
      let permissions ← parseStringList data "permissions"
      let expires ← parseTime data times "expires"
      let notBefore ← parseTime data times "not-before"
      let includeSubgroups ← parseBool data "includeSubgroups"
      return {
        token := token.getD ""
        group := group.getD ""
        includeSubgroups, username, permissions, expires, notBefore }
  | _ => .error "bad token value"

/-! ## The messages -/

inductive Refusal where
  | notAuthorised
  | error (message : String)
deriving DecidableEq, Repr

def tokenUsername (d : Description) (username : Option String) : Option String :=
  match username with
  | none => none
  | some u => if u = "" then some u else if ¬ d.e2ee ∨ d.userExists u then some u else none

/-- The checks of `maketoken` on what has been parsed, and the token that it makes. -/
def newToken (c : Client) (d : Description) (tok : Parsed) (name : String) (now : ℤ) :
    Except Refusal Stateful :=
  let isLink := isOperatorHub d ∧ isDirectChild tok.group c.group = true
  let username := tokenUsername d tok.username
  if tok.group ≠ c.group ∧ ¬ isLink then .error (.error "wrong group in token")
  else if tok.includeSubgroups = true ∧
      ¬ ("op" ∈ c.permissions ∧ tok.group = c.group ∧ username = some c.username) then
    .error (.error "hierarchical token not allowed")
  else if tok.expires = none ∧ ¬ isLink then .error (.error "token doesn't expire")
  else if ∃ u ∈ username, d.userExists u ∧ (c.username = "" ∨ u ≠ c.username) then
    .error (.error "that username is taken")
  else if ∃ p ∈ tok.permissions.getD [], p ∉ c.permissions then .error .notAuthorised
  else .ok {
    token := name
    group := tok.group
    includeSubgroups := tok.includeSubgroups
    username
    permissions := tok.permissions.getD []
    expires := tok.expires
    notBefore := tok.notBefore
    issuedAt := some now
    issuedBy := if c.username ≠ "" then some c.username else none
    link := decide isLink }

/-- What is given to `Update`, without an etag. -/
def maketoken (c : Client) (d : Description) (times : Times) (value : Json) (name : String)
    (now : ℤ) : Except Refusal Stateful :=
  if "token" ∉ c.permissions then .error .notAuthorised
  else
    match parseStatefulToken times value with
    | .error e => .error (.error e)
    | .ok tok =>
        if tok.token ≠ "" then .error (.error "client specified token")
        else newToken c d tok name now

/-- An operator, who may also deal with tokens. -/
def Client.managesTokens (c : Client) : Prop := "op" ∈ c.permissions ∧ "token" ∈ c.permissions

instance (c : Client) : Decidable c.managesTokens := inferInstanceAs (Decidable (_ ∧ _))

/-- A token of the client's own group or, on a hub, of one of its child rooms. -/
def Client.reaches (c : Client) (d : Description) (group : String) : Prop :=
  group = c.group ∨ isOperatorHub d ∧ isDirectChild group c.group = true

instance (c : Client) (d : Description) : DecidablePred (c.reaches d) :=
  fun _ => inferInstanceAs (Decidable (_ ∨ _))

/-- What `edittoken` does before it looks the token up. -/
def edittoken (c : Client) (times : Times) (value : Json) : Except Refusal Parsed :=
  if ¬ c.managesTokens then .error .notAuthorised
  else
    match parseStatefulToken times value with
    | .error e => .error (.error e)
    | .ok tok =>
        if tok.group ≠ "" ∨ tok.username ≠ none ∨ tok.includeSubgroups = true ∨
            tok.permissions ≠ none then
          .error (.error "this field cannot be edited")
        else .ok tok

def Parsed.edit (tok : Parsed) (old : Stateful) : Stateful :=
  { old with
    expires := if tok.expires = none then old.expires else tok.expires
    notBefore := if tok.notBefore = none then old.notBefore else tok.notBefore }

/-- What `deletetoken` does before it looks the token up. -/
def deletetoken (c : Client) (value : Json) : Except Refusal String :=
  if ¬ c.managesTokens then .error .notAuthorised
  else
    let token := match value with
      | .str s => s
      | .obj data =>
          match field data "token" with
          | .str s => s
          | _ => ""
      | _ => ""
    if token = "" then .error (.error "no token specified") else .ok token

/-! ## Runs -/

/-- A message that has seen the token it is about, and has still to change it or to answer. The
description is the one that it has looked at. -/
inductive Pending where
  | edit (c : Client) (d : Description) (tok : Parsed) (old : Stateful) (etag : String)
  | delete (c : Client) (d : Description) (token etag : String)
  | list (c : Client) (d : Description)

/-- A change that the store has been told to make, with the store and the descriptions that there
were. -/
inductive Write where
  | made (c : Client) (descriptions : String → Description) (t : Stateful)
  | edited (c : Client) (d : Description) (before : Token.State) (t : Stateful)
  | deleted (c : Client) (d : Description) (before : Token.State) (token : String)

structure World where
  store : Token.State
  descriptions : String → Description
  pending : List Pending := []
  /-- The tokens that there were at first. -/
  found : List Stateful
  writes : List Write := []

inductive Label where
  | describe (group : String) (d : Description)
  | maketoken (c : Client) (times : Times) (value : Json) (name : String) (now : ℤ)
      (choices : Choices)
  | edittoken (c : Client) (times : Times) (value : Json) (fault : LoadFaults)
  | deletetoken (c : Client) (value : Json) (fault : LoadFaults)
  | listtokens (c : Client) (fault : LoadFaults) (order : Order)
  | proceed (message : ℕ) (choices : Choices)

namespace World

variable (E : Encoding) (w : World)

def description (c : Client) : Description := w.descriptions c.group

/-- The store's state after the tokens have been listed; of a hub with those of its rooms, which
makes no difference to the store. -/
def list (c : Client) (d : Description) (fault : LoadFaults) (order : Order) : Token.State :=
  if isOperatorHub d then (w.store.load fault).1
  else (w.store.list fault order c.group false).1

def startMake (c : Client) (times : Times) (value : Json) (name : String) (now : ℤ)
    (choices : Choices) : World :=
  match maketoken c (w.description c) times value name now with
  | .error _ => w
  | .ok t => { w with
      store := (w.store.update E choices t "").1
      writes := w.writes ++ [.made c w.descriptions t] }

def startEdit (c : Client) (times : Times) (value : Json) (fault : LoadFaults) : World :=
  match edittoken c times value with
  | .error _ => w
  | .ok tok =>
      match w.store.get fault tok.token with
      | (store, .error _) => { w with store }
      | (store, .ok (old, etag)) =>
          if c.reaches (w.description c) old.group then
            { w with store, pending := w.pending ++ [.edit c (w.description c) tok old etag] }
          else { w with store }

def startDelete (c : Client) (value : Json) (fault : LoadFaults) : World :=
  match deletetoken c value with
  | .error _ => w
  | .ok token =>
      match w.store.get fault token with
      | (store, .error _) => { w with store }
      | (store, .ok (old, etag)) =>
          if c.reaches (w.description c) old.group then
            { w with store, pending := w.pending ++ [.delete c (w.description c) token etag] }
          else { w with store }

def proceed (choices : Choices) : Pending → World
  | .edit c d tok old etag => { w with
      store := (w.store.update E choices (tok.edit old) etag).1
      writes := w.writes ++ [.edited c d w.store (tok.edit old)] }
  | .delete c d token etag =>
      let (store, result) := w.store.delete E choices token etag
      let writes := w.writes ++ [.deleted c d w.store token]
      match result with
      | .ok _ => { w with store, writes, pending := w.pending ++ [.list c (w.description c)] }
      | _ => { w with store, writes }
  | .list c d => { w with store := w.list c d choices.load choices.order }

def step : Label → Option World
  | .describe group d => some { w with descriptions := Function.update w.descriptions group d }
  | .maketoken c times value name now choices =>
      some (w.startMake E c times value name now choices)
  | .edittoken c times value fault => some (w.startEdit c times value fault)
  | .deletetoken c value fault => some (w.startDelete c value fault)
  | .listtokens c fault order =>
      if c.managesTokens then
        some { w with store := w.list c (w.description c) fault order }
      else some w
  | .proceed message choices =>
      w.pending[message]?.map fun p =>
        { w with pending := w.pending.eraseIdx message }.proceed E choices p

end World

/-- A store that has just been opened. -/
def system (E : Encoding) : System World Label where
  init w := w.store.HoldsOnly (· ∈ w.found) ∧ w.store.tokens = none ∧ w.pending = [] ∧ w.writes = []
  step w a := w.step E a

/-! ## Confinement -/

/-- A room of the group, one level down. -/
def DirectChild (child parent : String) : Prop :=
  ∃ slug, child = parent ++ "/" ++ slug ∧ slug ≠ "" ∧ '/' ∉ slug.toList

/-- The client's own group or, where it is a hub, a room of it. -/
def Client.Governs (c : Client) (d : Description) (group : String) : Prop :=
  group = c.group ∨ d.operatorRoom = true ∧ DirectChild group c.group

/-- The same token but for its times. -/
def SameBut (t t' : Stateful) : Prop := t = { t' with expires := t.expires, notBefore := t.notBefore }

/-- What a client may make. -/
structure Client.MayMake (c : Client) (descriptions : String → Description) (t : Stateful) :
    Prop where
  group : c.Governs (descriptions c.group) t.group
  link : t.link = true → (descriptions c.group).operatorRoom = true ∧ DirectChild t.group c.group
  perpetual : t.expires = none →
    (descriptions c.group).operatorRoom = true ∧ DirectChild t.group c.group
  permissions : ∀ p ∈ t.permissions, p ∈ c.permissions
  includeSubgroups : t.includeSubgroups = true →
    "op" ∈ c.permissions ∧ t.username = some c.username ∧ t.group = c.group
  username : ∀ u ∈ t.username, u ≠ c.username → ¬ (descriptions t.group).userExists u

/-- Of the tokens in memory and in the file, an edit or a deletion touches only those that it
should. -/
def Write.Confined : Write → Prop
  | .made c descriptions t => c.MayMake descriptions t
  | .edited c d before t => c.Governs d t.group ∧
      before.HoldsOnly fun t' => t'.token = t.token → SameBut t t'
  | .deleted c d before token => before.HoldsOnly fun t => t.token = token → c.Governs d t.group

/-- The token that the store is given. -/
def Write.token : Write → Option Stateful
  | .made _ _ t => some t
  | .edited _ _ _ t => some t
  | .deleted _ _ _ _ => none

/-- All the changes were the client's to make, and there are no others. -/
structure World.Confined (w : World) : Prop where
  writes : ∀ write ∈ w.writes, write.Confined
  store : w.store.HoldsOnly fun t => t ∈ w.found ∨ ∃ write ∈ w.writes, t ∈ write.token

def Pending.token : Pending → Option String
  | .edit _ _ _ old _ => some old.token
  | .delete _ _ token _ => some token
  | .list _ _ => none

/-- The random name of a new token is not that of one that there is, or of one that a message is
about. -/
def Fresh (w : World) : Label → Prop
  | .maketoken _ _ _ name _ _ =>
      w.store.HoldsOnly (·.token ≠ name) ∧ ∀ p ∈ w.pending, name ∉ p.token
  | _ => True

/-- A link does not name a user of the room's own description whom the hub's does not have, the
client apart. -/
def Unclaimed (w : World) : Label → Prop
  | .maketoken c times value name now _ =>
      ∀ t, maketoken c (w.description c) times value name now = .ok t → t.group ≠ c.group →
        ∀ u ∈ t.username, u ≠ c.username → (w.descriptions t.group).userExists u →
          (w.descriptions c.group).userExists u
  | _ => True

/-! ## What the checks see to -/

theorem isDirectChild_iff {child parent : String} (h : isDirectChild child parent = true) :
    DirectChild child parent := by
  unfold isDirectChild at h
  dsimp only at h
  split at h
  · rename_i hfront
    obtain ⟨slug, hslug⟩ := List.isPrefixOf_iff_prefix.mp hfront
    rw [← hslug, List.drop_left] at h
    cases slug with
    | nil => cases h
    | cons r rest =>
        simp only [Bool.and_eq_true] at h
        refine ⟨String.ofList (r :: rest), ?_, ?_, ?_⟩
        · rw [← String.toList_inj, String.toList_append, String.toList_ofList]
          exact hslug.symm
        · intro hempty
          rw [← String.toList_inj, String.toList_ofList] at hempty
          cases hempty
        · rw [String.toList_ofList]
          intro hin
          rw [List.contains_iff_mem.mpr hin] at h
          exact absurd h.1.1 (by decide)
  · cases h

theorem Client.governs_of_reaches {c : Client} {d : Description} {group : String}
    (h : c.reaches d group) : c.Governs d group :=
  h.imp id fun ⟨hhub, hchild⟩ => ⟨hhub, isDirectChild_iff hchild⟩

/-- The checks of `maketoken`, when all of them are passed. -/
theorem newToken_ok {c : Client} {d : Description} {tok : Parsed} {name : String} {now : ℤ}
    {t : Stateful} (h : newToken c d tok name now = .ok t) :
    t.token = name ∧ c.reaches d t.group ∧
      ((t.link = true ∨ t.expires = none) → isOperatorHub d ∧ isDirectChild t.group c.group = true) ∧
      (t.includeSubgroups = true →
        "op" ∈ c.permissions ∧ t.group = c.group ∧ t.username = some c.username) ∧
      (∀ u ∈ t.username, d.userExists u → u = c.username) ∧ ∀ p ∈ t.permissions, p ∈ c.permissions := by
  unfold newToken at h
  dsimp only at h
  split at h
  · cases h
  rename_i hgroup
  split at h
  · cases h
  rename_i hsubgroups
  split at h
  · cases h
  rename_i hexpires
  split at h
  · cases h
  rename_i htaken
  split at h
  · cases h
  rename_i hpermissions
  cases h
  refine ⟨rfl, ?_, ?_, fun hsub => ?_, fun u hu hexists => ?_, fun p hp => ?_⟩
  · by_contra hreach
    exact hgroup ⟨fun h => hreach (Or.inl h), fun h => hreach (Or.inr h)⟩
  · rintro (hlink | hnone)
    · exact of_decide_eq_true hlink
    · by_contra hlink
      exact hexpires ⟨hnone, hlink⟩
  · by_contra hop
    exact hsubgroups ⟨hsub, hop⟩
  · by_contra hother
    exact htaken ⟨u, hu, hexists, Or.inr hother⟩
  · by_contra hlacks
    exact hpermissions ⟨p, hp, hlacks⟩

theorem maketoken_ok {c : Client} {d : Description} {times : Times} {value : Json} {name : String}
    {now : ℤ} {t : Stateful} (h : maketoken c d times value name now = .ok t) :
    ∃ tok, newToken c d tok name now = .ok t := by
  unfold maketoken at h
  split at h
  · cases h
  split at h
  · cases h
  split at h
  · cases h
  exact ⟨_, h⟩

/-- Only the username takes more than the checks. -/
theorem mayMake {c : Client} {descriptions : String → Description} {tok : Parsed} {name : String}
    {now : ℤ} {t : Stateful} (h : newToken c (descriptions c.group) tok name now = .ok t)
    (hclaim : t.group ≠ c.group → ∀ u ∈ t.username, u ≠ c.username →
      (descriptions t.group).userExists u → (descriptions c.group).userExists u) :
    c.MayMake descriptions t := by
  obtain ⟨-, hgroup, hlink, hsubgroups, husername, hpermissions⟩ := newToken_ok h
  have hroom (hor : t.link = true ∨ t.expires = none) :
      (descriptions c.group).operatorRoom = true ∧ DirectChild t.group c.group :=
    ⟨(hlink hor).1, isDirectChild_iff (hlink hor).2⟩
  refine ⟨c.governs_of_reaches hgroup, fun h => hroom (Or.inl h), fun h => hroom (Or.inr h),
    hpermissions, fun h => ?_, fun u hu hother hexists => ?_⟩
  · obtain ⟨hop, hown, hname⟩ := hsubgroups h
    exact ⟨hop, hname, hown⟩
  · by_cases hown : t.group = c.group
    · rw [hown] at hexists
      exact hother (husername u hu hexists)
    · exact hother (husername u hu (hclaim hown u hu hother hexists))

theorem SameBut.refl (t : Stateful) : SameBut t t := rfl

theorem SameBut.trans {t t' t'' : Stateful} (h : SameBut t t') (h' : SameBut t' t'') :
    SameBut t t'' := by
  unfold SameBut at h h' ⊢
  rw [h, h']

theorem SameBut.symm {t t' : Stateful} (h : SameBut t t') : SameBut t' t := by
  unfold SameBut at h ⊢
  rw [h]

theorem sameBut_edit (tok : Parsed) (old : Stateful) : SameBut (tok.edit old) old := rfl

theorem SameBut.group {t t' : Stateful} (h : SameBut t t') : t.group = t'.group := by
  rw [h]

/-! ## Every run -/

/-- There is a token of each name that all those of the name are like. -/
structure World.Traced (w : World) (origin : String → Stateful) : Prop where
  store : w.store.HoldsOnly fun t => SameBut t (origin t.token)
  edits : ∀ c d tok old etag, Pending.edit c d tok old etag ∈ w.pending →
    c.Governs d old.group ∧ SameBut old (origin old.token)
  deletes : ∀ c d token etag, Pending.delete c d token etag ∈ w.pending →
    c.Governs d (origin token).group

/-- The store has been read. -/
def Reads (s s' : Token.State) : Prop := ∀ P, s.HoldsOnly P → s'.HoldsOnly P

namespace World

variable {E : Encoding} {w : World} {origin : String → Stateful}

theorem Confined.read (h : w.Confined) {store : Token.State} (hreads : Reads w.store store)
    {pending : List Pending} : World.Confined { w with store, pending } :=
  ⟨h.writes, hreads _ h.store⟩

theorem Traced.read (h : w.Traced origin) {store : Token.State} (hreads : Reads w.store store) :
    World.Traced { w with store } origin :=
  ⟨hreads _ h.store, h.edits, h.deletes⟩

theorem Confined.write (h : w.Confined) {store : Token.State} {write : Write}
    (hwrite : write.Confined)
    (hstore : ∀ P, w.store.HoldsOnly P → (∀ t ∈ write.token, P t) → store.HoldsOnly P) :
    World.Confined { w with store, writes := w.writes ++ [write] } where
  writes write' hin := by
    rcases List.mem_append.mp hin with hin | hin
    · exact h.writes write' hin
    · rw [List.mem_singleton.mp hin]
      exact hwrite
  store := by
    refine hstore _ (h.store.mono fun t ht => ht.imp id ?_) fun t ht => ?_
    · rintro ⟨write', hin, ht⟩
      exact ⟨write', List.mem_append_left _ hin, ht⟩
    · exact Or.inr ⟨write, List.mem_append_right _ (List.mem_singleton_self _), ht⟩

theorem Traced.pending (h : w.Traced origin) {pending : List Pending}
    (hsub : ∀ p ∈ pending, p ∈ w.pending) : World.Traced { w with pending } origin :=
  ⟨h.store, fun c d tok old etag hin => h.edits c d tok old etag (hsub _ hin),
    fun c d token etag hin => h.deletes c d token etag (hsub _ hin)⟩

theorem reads_list (c : Client) (d : Description) (fault : LoadFaults) (order : Order) :
    Reads w.store (w.list c d fault order) := by
  intro P hP
  unfold World.list
  split
  · exact hP.load fault
  · exact (hP.list fault order c.group false).1

theorem reads_get (s : Token.State) (fault : LoadFaults) (token : String) :
    Reads s (s.get fault token).1 := fun _ hP => (hP.get fault token).1

/-- A new token has a name of its own. -/
theorem Traced.made (h : w.Traced origin) (hconfined : w.Confined) {c : Client} {times : Times}
    {value : Json} {name : String} {now : ℤ} {choices : Choices}
    (hfresh : Fresh w (.maketoken c times value name now choices))
    (hclaim : Unclaimed w (.maketoken c times value name now choices)) :
    (∃ origin, World.Traced (w.startMake E c times value name now choices) origin) ∧
      (w.startMake E c times value name now choices).Confined := by
  unfold startMake
  split
  · exact ⟨⟨origin, h⟩, hconfined⟩
  · rename_i t hmake
    obtain ⟨tok, hnew⟩ := maketoken_ok hmake
    have hname : t.token = name := (newToken_ok hnew).1
    have hother (t' : Stateful) (hne : t'.token ≠ name) :
        Function.update origin name t t'.token = origin t'.token := Function.update_of_ne hne _ _
    refine ⟨⟨Function.update origin name t, ?_, fun c d tok old etag hin => ?_,
      fun c d token etag hin => ?_⟩, ?_⟩
    · have hboth : w.store.HoldsOnly fun t' => SameBut t' (Function.update origin name t t'.token) :=
        ⟨fun ts hts token t' ht' => ⟨(h.store.tokens ts hts token t' ht').1, by
            rw [hother t' (hfresh.1.tokens ts hts token t' ht').2]
            exact (h.store.tokens ts hts token t' ht').2⟩,
          fun f hf token t' ht' => ⟨(h.store.disk f hf token t' ht').1, by
            rw [hother t' (hfresh.1.disk f hf token t' ht').2]
            exact (h.store.disk f hf token t' ht').2⟩⟩
      refine hboth.update ?_ ""
      rw [hname, Function.update_self]
      exact .refl t
    · have hne : old.token ≠ name := fun heq => hfresh.2 _ hin (by rw [← heq]; rfl)
      rw [hother old hne]
      exact h.edits c d tok old etag hin
    · have hne : token ≠ name := fun heq => hfresh.2 _ hin (by rw [← heq]; rfl)
      rw [Function.update_of_ne hne]
      exact h.deletes c d token etag hin
    · exact hconfined.write (mayMake hnew (hclaim t hmake)) fun P hP ht =>
        hP.update (ht t rfl) ""

theorem Traced.startEdit (h : w.Traced origin) (hconfined : w.Confined) (c : Client)
    (times : Times) (value : Json) (fault : LoadFaults) :
    World.Traced (w.startEdit c times value fault) origin ∧
      (w.startEdit c times value fault).Confined := by
  unfold World.startEdit
  split
  · exact ⟨h, hconfined⟩
  · rename_i tok htok
    have hreads := reads_get w.store fault tok.token
    have hgot := (h.store.get fault tok.token).2
    split
    · rename_i store e hget
      rw [hget] at hreads
      exact ⟨h.read hreads, hconfined.read hreads⟩
    · rename_i store old etag hget
      rw [hget] at hreads hgot
      split
      · rename_i hreach
        refine ⟨⟨hreads _ h.store, fun c' d' tok' old' etag' hin => ?_,
          fun c' d' token' etag' hin => ?_⟩, hconfined.read hreads⟩
        · rcases List.mem_append.mp hin with hin | hin
          · exact h.edits c' d' tok' old' etag' hin
          · cases List.mem_singleton.mp hin
            exact ⟨c.governs_of_reaches hreach, (hgot old etag rfl).2⟩
        · rcases List.mem_append.mp hin with hin | hin
          · exact h.deletes c' d' token' etag' hin
          · cases List.mem_singleton.mp hin
      · exact ⟨h.read hreads, hconfined.read hreads⟩

theorem Traced.startDelete (h : w.Traced origin) (hconfined : w.Confined) (c : Client)
    (value : Json) (fault : LoadFaults) :
    World.Traced (w.startDelete c value fault) origin ∧
      (w.startDelete c value fault).Confined := by
  unfold World.startDelete
  split
  · exact ⟨h, hconfined⟩
  · rename_i token htoken
    have hreads := reads_get w.store fault token
    have hgot := (h.store.get fault token).2
    split
    · rename_i store e hget
      rw [hget] at hreads
      exact ⟨h.read hreads, hconfined.read hreads⟩
    · rename_i store old etag hget
      rw [hget] at hreads hgot
      split
      · rename_i hreach
        refine ⟨⟨hreads _ h.store, fun c' d' tok' old' etag' hin => ?_,
          fun c' d' token' etag' hin => ?_⟩, hconfined.read hreads⟩
        · rcases List.mem_append.mp hin with hin | hin
          · exact h.edits c' d' tok' old' etag' hin
          · cases List.mem_singleton.mp hin
        · rcases List.mem_append.mp hin with hin | hin
          · exact h.deletes c' d' token' etag' hin
          · cases List.mem_singleton.mp hin
            obtain ⟨hname, hsame⟩ := hgot old etag rfl
            rw [← hname, ← hsame.group]
            exact c.governs_of_reaches hreach
      · exact ⟨h.read hreads, hconfined.read hreads⟩

/-- Whatever has become of a token since, a message about it finds it the way it was but for its
times. -/
theorem Traced.proceed (h : w.Traced origin) (hconfined : w.Confined) {p : Pending}
    (hedit : ∀ c d tok old etag, p = .edit c d tok old etag →
      c.Governs d old.group ∧ SameBut old (origin old.token))
    (hdelete : ∀ c d token etag, p = .delete c d token etag → c.Governs d (origin token).group)
    (choices : Choices) :
    World.Traced (w.proceed E choices p) origin ∧ (w.proceed E choices p).Confined := by
  cases p with
  | edit c d tok old etag =>
      obtain ⟨hgoverns, hold⟩ := hedit c d tok old etag rfl
      have hsame : SameBut (tok.edit old) (origin (tok.edit old).token) :=
        (sameBut_edit tok old).trans hold
      refine ⟨⟨h.store.update hsame etag, h.edits, h.deletes⟩, hconfined.write ⟨hgoverns, ?_⟩ ?_⟩
      · refine h.store.mono fun t ht htoken => ?_
        rw [htoken] at ht
        exact hsame.trans ht.symm
      · exact fun P hP ht => hP.update (ht _ rfl) etag
  | delete c d token etag =>
      have hgoverns := hdelete c d token etag rfl
      have hwrite : Write.Confined (.deleted c d w.store token) :=
        h.store.mono fun t ht htoken => by
          rw [ht.group, htoken]
          exact hgoverns
      have hnext : World.Confined { w with
          store := (w.store.delete E choices token etag).1
          writes := w.writes ++ [.deleted c d w.store token] } :=
        hconfined.write hwrite fun P hP _ => hP.delete token etag
      have htraced : World.Traced { w with
          store := (w.store.delete E choices token etag).1
          writes := w.writes ++ [.deleted c d w.store token] } origin :=
        ⟨h.store.delete token etag, h.edits, h.deletes⟩
      unfold World.proceed
      dsimp only
      split
      · refine ⟨⟨htraced.store, fun c' d' tok' old' etag' hin => ?_,
          fun c' d' token' etag' hin => ?_⟩, hnext.writes, hnext.store⟩
        · rcases List.mem_append.mp hin with hin | hin
          · exact h.edits c' d' tok' old' etag' hin
          · cases List.mem_singleton.mp hin
        · rcases List.mem_append.mp hin with hin | hin
          · exact h.deletes c' d' token' etag' hin
          · cases List.mem_singleton.mp hin
      · exact ⟨htraced, hnext⟩
  | list c d =>
      have hreads := reads_list (w := w) c d choices.load choices.order
      exact ⟨h.read hreads, hconfined.read hreads⟩

theorem Traced.step (h : w.Traced origin) (hconfined : w.Confined) {a : Label} {w' : World}
    (hfresh : Fresh w a) (hclaim : Unclaimed w a) (hstep : w.step E a = some w') :
    (∃ origin, w'.Traced origin) ∧ w'.Confined := by
  cases a with
  | describe group d =>
      cases hstep
      exact ⟨⟨origin, h.store, h.edits, h.deletes⟩, hconfined.writes, hconfined.store⟩
  | maketoken c times value name now choices =>
      cases hstep
      exact h.made hconfined hfresh hclaim
  | edittoken c times value fault =>
      cases hstep
      obtain ⟨htraced, hnext⟩ := h.startEdit hconfined c times value fault
      exact ⟨⟨origin, htraced⟩, hnext⟩
  | deletetoken c value fault =>
      cases hstep
      obtain ⟨htraced, hnext⟩ := h.startDelete hconfined c value fault
      exact ⟨⟨origin, htraced⟩, hnext⟩
  | listtokens c fault order =>
      simp only [World.step] at hstep
      split at hstep
      · cases hstep
        have hreads := reads_list (w := w) c (w.description c) fault order
        exact ⟨⟨origin, h.read hreads⟩, hconfined.read hreads⟩
      · cases hstep
        exact ⟨⟨origin, h⟩, hconfined⟩
  | proceed message choices =>
      obtain ⟨p, hp, rfl⟩ := Option.map_eq_some_iff.mp hstep
      have hin : p ∈ w.pending := List.mem_of_getElem? hp
      have hrest := h.pending fun q (hq : q ∈ w.pending.eraseIdx message) =>
        List.mem_of_mem_eraseIdx hq
      have hbefore : World.Confined { w with pending := w.pending.eraseIdx message } :=
        ⟨hconfined.writes, hconfined.store⟩
      obtain ⟨htraced, hnext⟩ := hrest.proceed (E := E) hbefore
        (fun c d tok old etag heq => h.edits c d tok old etag (heq ▸ hin))
        (fun c d token etag heq => h.deletes c d token etag (heq ▸ hin)) choices
      exact ⟨⟨origin, htraced⟩, hnext⟩

theorem traced_init (hw : (system E).init w) : (∃ origin, w.Traced origin) ∧ w.Confined := by
  obtain ⟨hstore, htokens, hpending, hwrites⟩ := hw
  refine ⟨⟨fun token => ((w.store.disk.map (·.read)).bind (·.lookup token)).getD { token }, ?_,
    fun c d tok old etag hin => ?_, fun c d token etag hin => ?_⟩, fun write hin => ?_, ?_⟩
  · refine .of_none (fun f hf token t ht => ?_) htokens
    obtain ⟨hname, -⟩ := hstore.disk f hf token t ht
    refine ⟨hname, ?_⟩
    rw [hname, Option.mem_def.mp hf]
    simp only [Option.map_some, Option.bind_some, ht, Option.getD_some]
    exact .refl t
  · rw [hpending] at hin
    cases hin
  · rw [hpending] at hin
    cases hin
  · rw [hwrites] at hin
    cases hin
  · exact hstore.mono fun t ht => Or.inl ht

/-- No message makes, edits or deletes a token that is not the client's to. -/
theorem confined_of_reachable
    (h : Reachable (system E) (fun w a => Fresh w a ∧ Unclaimed w a) w) : w.Confined := by
  have hboth : (∃ origin, w.Traced origin) ∧ w.Confined := by
    refine h.invariant (P := fun w => (∃ origin, w.Traced origin) ∧ w.Confined)
      (fun w hw => traced_init hw) fun w a w' ih hok hstep => ?_
    obtain ⟨⟨origin, htraced⟩, hconfined⟩ := ih
    exact htraced.step hconfined hok.1 hok.2 hstep
  exact hboth.2

end World

/-! ## A hub with a room -/

def boss : Client := { username := "boss", group := "hub", permissions := ["op", "token", "present"] }

/-- The room has a description of its own, with a user of its own. -/
def hubAndRoom (group : String) : Description :=
  if group = "hub" then { operatorRoom := true, users := ["boss"] }
  else if group = "hub/room" then { users := ["alice"] }
  else {}

def hubWorld : World where
  store := opened
  descriptions := hubAndRoom
  found := [invitation]

def noTimes : Times := ⟨fun _ => none, fun _ => 0⟩

def link (members : List (String × Json)) : Label :=
  .maketoken boss noTimes (.obj (members ++ [("group", .str "hub/room"),
    ("permissions", .arr [.str "present"])])) "new" 5 (calm 2)

def linkToken (username : Option String) : Stateful where
  token := "new"
  group := "hub/room"
  username
  permissions := ["present"]
  issuedAt := some 5
  issuedBy := some "boss"
  link := true

theorem hubWorld_init : (system plain).init hubWorld := by
  refine ⟨.of_none (fun f hf => ?_) rfl, rfl, rfl, rfl⟩
  cases hf
  exact filed_foldl [invitation] filed_empty fun t ht => ht

theorem fresh_link (members : List (String × Json)) : Fresh hubWorld (link members) := by
  refine ⟨hubWorld_init.1.mono fun t ht => ?_, fun p hp => by cases hp⟩
  rw [List.mem_singleton.mp ht]
  decide

theorem confined_link : ∃ w, hubWorld.step plain (link []) = some w ∧ w.writes.length = 1 ∧
    w.Confined := by
  refine ⟨_, rfl, by decide, World.confined_of_reachable (E := plain)
    (.step (.init hubWorld_init) ⟨fresh_link [], fun t ht _ u hu => ?_⟩ rfl)⟩
  have hmake : t = linkToken none := (Except.ok.inj ht).symm
  rw [hmake] at hu
  cases hu

/-- The description of the room has an "alice" of its own. -/
theorem not_confined_tokens :
    ¬ ∀ w, Reachable (system plain) Fresh w → w.Confined := by
  intro h
  have hconfined := h _ (.step (.init hubWorld_init) (fresh_link [("username", .str "alice")]) rfl)
  have hwrite := hconfined.writes (.made boss hubAndRoom (linkToken (some "alice")))
    (List.mem_singleton_self _)
  exact hwrite.username "alice" rfl (by decide) (by decide)

end Sozvon.TokenMessages
