import Sozvon.Accounts
import Mathlib.Logic.Function.Basic

/-!
# The accounts as a database

What the file of a group amounts to: who has an account, with which password, and which keys
there are. Every request that is done changes just that, as the requests of a small database
do, one after another. A description that brings users in its obsolete fields adds those who
have no account.
-/
namespace Sozvon.Group

open Json Preconditions Runs

/-- Accounts as they come back whenever the file is written again. -/
@[ext]
structure Accounts (κ : Type) where
  users : String → Option UserDescription := fun _ => none
  wildcardUser : Option UserDescription := none
  keys : List κ := []

/-- What a file amounts to. -/
inductive View (κ : Type) where
  | absent
  | unreadable
  | holds (accounts : Accounts κ)

section Definitions
variable {κ : Type}

namespace Accounts

def get (a : Accounts κ) (who : Subject) : Option UserDescription :=
  if who.wildcard then a.wildcardUser else a.users who.username

def set (a : Accounts κ) (who : Subject) (u : Option UserDescription) : Accounts κ :=
  if who.wildcard then { a with wildcardUser := u }
  else { a with users := Function.update a.users who.username u }

/-- A user of an obsolete field; without a name it is the wildcard. -/
def enrol (p : PermissionsName) (a : Accounts κ) (u : ClientPattern) : Accounts κ :=
  let who : Subject := { username := u.username, wildcard := u.username = "" }
  if (a.get who).isSome then a else a.set who (some (upgradeUser u p).written)

def enrolAll (a : Accounts κ) (d : Description κ) : Accounts κ :=
  let a := (d.op.getD []).foldl (enrol .op) a
  let a := (d.presenter.getD []).foldl (enrol .present) a
  (d.other.getD []).foldl (enrol .message) a

end Accounts

def Description.accounts (d : Description κ) : Accounts κ where
  users name := ((d.users.getD ∅).lookup name).map UserDescription.written
  wildcardUser := d.wildcardUser.map UserDescription.written
  keys := d.authKeys.getD []

def view (codec : KeyCodec κ) : Option File → View κ
  | none => .absent
  | some f =>
      match readDescription codec f.content with
      | .error () => .unreadable
      | .ok d => .holds d.accounts

def Subject.Valid (who : Subject) : Prop := who.wildcard = true → who.username = ""

instance (who : Subject) : Decidable who.Valid := inferInstanceAs (Decidable (_ → _))

/-- A request of the database, or `none` where it cannot be done. -/
def Operation.apply (parseKeys : List κ → Bool) : Operation κ → View κ → Option (View κ)
  | .updateDescription desc, .absent => some (.holds (Accounts.enrolAll {} desc.written))
  | .updateDescription desc, .holds a => some (.holds (a.enrolAll desc.written))
  | .deleteDescription, .holds _ => some .absent
  | .deleteDescription, .unreadable => some .absent
  | .updateUser who user, .holds a =>
      if who.Valid then
        some (.holds (a.set who
          (some { user with password := ((a.get who).getD {}).password })))
      else none
  | .deleteUser who, .holds a =>
      if who.Valid ∧ (a.get who).isSome then some (.holds (a.set who none)) else none
  | .setUserPassword who pw, .holds a =>
      if who.Valid ∧ (a.get who).isSome then
        some (.holds (a.set who ((a.get who).map fun u => { u with password := pw }.written)))
      else none
  | .setKeys keys, .holds a =>
      if keys.all parseKeys then some (.holds { a with keys := keys.getD [] }) else none
  | _, _ => none

/-- The password of a user, as it is kept. -/
def View.password (who : Subject) : View κ → Option Password
  | .holds a => (a.get who).map (·.password)
  | _ => none

/-- A request that may give somebody a password. -/
def Operation.sets (who : Subject) : Operation κ → Bool
  | .updateDescription desc => desc.op.isSome || desc.presenter.isSome || desc.other.isSome
  | .setUserPassword who' _ => who' = who
  | _ => false

/-- A request that may take somebody's account away. -/
def Operation.ends (who : Subject) : Operation κ → Bool
  | .deleteDescription => true
  | .deleteUser who' => who' = who
  | _ => false

def Event.sets (who : Subject) : Event κ → Bool
  | .done request _ _ _ => request.operation.sets who
  | .edited _ => true
  | _ => false

def Event.ends (who : Subject) : Event κ → Bool
  | .done request _ _ _ => request.operation.ends who
  | _ => false

def Event.apply (codec : KeyCodec κ) (parseKeys : List κ → Bool) (v : View κ) :
    Event κ → Option (View κ)
  | .done request _ _ _ => request.operation.apply parseKeys v
  | .edited file => some (view codec file)
  | _ => some v

end Definitions

/-! ## Accounts of descriptions -/

section Accounts
variable {κ : Type} {d : Description κ} {a : Accounts κ} {who : Subject}

theorem Password.lasting_empty : Password.Lasting {} :=
  ⟨fun h => absurd h.1 (by decide), fun _ => rfl⟩

theorem Password.lasting_written {p : Password} (h : p.type ≠ "") : p.written.Lasting := by
  unfold Password.written
  by_cases hkeyless : p.Keyless
  · rw [if_pos hkeyless]
    exact ⟨by decide, fun h => absurd h (by decide)⟩
  · rw [if_neg hkeyless]
    exact ⟨hkeyless, fun h' => absurd h' h⟩

theorem UserDescription.written_written (u : UserDescription) : u.written.written = u.written := by
  rw [UserDescription.written_eq_iff]
  change (if u.password.type = "" then {} else u.password.written).Lasting
  by_cases htype : u.password.type = ""
  · rw [if_pos htype]
    exact Password.lasting_empty
  · rw [if_neg htype]
    exact Password.lasting_written htype

theorem map_written_written (u : Option UserDescription) :
    (u.map UserDescription.written).map UserDescription.written = u.map UserDescription.written := by
  rw [Option.map_map]
  exact congrArg (Option.map · u) (funext UserDescription.written_written)

theorem accounts_written : d.written.accounts = d.accounts := by
  refine Accounts.ext (funext fun name => ?_) ?_ ?_
  · change ((d.written.users.getD ∅).lookup name).map _ = _
    rw [Description.lookup_written]
    exact map_written_written _
  · exact map_written_written _
  · exact Description.nonempty_getD _

theorem get_accounts : d.accounts.get who = (d.account who).map UserDescription.written := by
  unfold Accounts.get Description.account
  split_ifs
  · rfl
  · rfl

theorem accounts_setAccount (u : UserDescription) :
    (d.setAccount who u).accounts = d.accounts.set who (some u.written) := by
  unfold Description.setAccount Accounts.set
  split_ifs
  · rfl
  · refine Accounts.ext (funext fun name => ?_) rfl rfl
    change (((d.users.getD ∅).insert who.username u).lookup name).map UserDescription.written =
      Function.update d.accounts.users who.username (some u.written) name
    by_cases hname : name = who.username
    · rw [hname, AList.lookup_insert, Function.update_self]
      rfl
    · rw [AList.lookup_insert_ne hname, Function.update_of_ne hname]
      rfl

theorem accounts_deleteAccount : (d.deleteAccount who).accounts = d.accounts.set who none := by
  unfold Description.deleteAccount Accounts.set
  split_ifs
  · rfl
  · refine Accounts.ext (funext fun name => ?_) rfl rfl
    have herase : (d.users.map fun users : Users => users.erase who.username).getD ∅ =
        (d.users.getD ∅).erase who.username := by
      cases d.users with
      | none => rfl
      | some _ => rfl
    change (((d.users.map fun users : Users => users.erase who.username).getD ∅).lookup name).map
      UserDescription.written = Function.update d.accounts.users who.username none name
    rw [herase]
    by_cases hname : name = who.username
    · rw [hname, AList.lookup_erase, Function.update_self]
      rfl
    · rw [AList.lookup_erase_ne hname, Function.update_of_ne hname]
      rfl

/-! ## Upgrades of accounts -/

theorem accounts_upgradeOne (p : PermissionsName) (d : Description κ) (u : ClientPattern) :
    (upgradeOne p d u).accounts = d.accounts.enrol p u := by
  unfold upgradeOne Accounts.enrol
  by_cases hname : u.username = ""
  · rw [if_pos hname]
    have hget : d.accounts.get ⟨u.username, decide (u.username = "")⟩ =
        d.wildcardUser.map UserDescription.written := by
      rw [Accounts.get, if_pos (decide_eq_true hname)]
      rfl
    dsimp only
    rw [hget]
    cases hw : d.wildcardUser with
    | some w => rfl
    | none =>
        rw [Accounts.set, if_pos (decide_eq_true hname)]
        rfl
  · rw [if_neg hname]
    have hwildcard : ¬ decide (u.username = "") = true := fun h => hname (of_decide_eq_true h)
    have hget : d.accounts.get ⟨u.username, decide (u.username = "")⟩ =
        ((d.users.getD ∅).lookup u.username).map UserDescription.written := by
      rw [Accounts.get, if_neg hwildcard]
      rfl
    dsimp only
    rw [hget, Option.isSome_map]
    by_cases hin : u.username ∈ d.users.getD ∅
    · rw [if_pos hin, if_pos (AList.lookup_isSome.mpr hin)]
    · rw [if_neg hin, if_neg fun h => hin (AList.lookup_isSome.mp h)]
      have hset := @accounts_setAccount κ d ⟨u.username, false⟩ (upgradeUser u p)
      rw [decide_eq_false hname]
      exact hset

theorem accounts_upgradeUsers (d : Description κ) (ps : List ClientPattern) (p : PermissionsName) :
    (upgradeUsers d ps p).accounts = ps.foldl (Accounts.enrol p) d.accounts := by
  have hfold (d : Description κ) :
      (ps.foldl (upgradeOne p) d).accounts = ps.foldl (Accounts.enrol p) d.accounts := by
    induction ps generalizing d with
    | nil => rfl
    | cons u ps ih => rw [List.foldl_cons, List.foldl_cons, ih, accounts_upgradeOne]
  exact hfold _

theorem Clears.accounts {clear : Description κ → Description κ} (h : Clears clear)
    (d : Description κ) : (clear d).accounts = d.accounts := by
  unfold Description.accounts
  rw [h.users, h.wildcardUser, h.authKeys]

theorem accounts_upgradeField {clear : Description κ → Description κ} (hclear : Clears clear)
    (ps : Option (List ClientPattern))
    (p : PermissionsName) (d : Description κ) : (upgradeField ps p clear d).accounts =
      (ps.getD []).foldl (Accounts.enrol p) d.accounts := by
  cases ps with
  | none => rfl
  | some ps => exact (hclear.accounts _).trans (accounts_upgradeUsers d ps p)

/-- An upgrade enrols the users of the obsolete fields, one field after another. -/
theorem accounts_upgradeDescription (d : Description κ) :
    (upgradeDescription d).accounts = d.accounts.enrolAll d := by
  obtain ⟨hop, hpresenter, hother⟩ := (upgradeFlags_same d).2.2
  have hflags : (upgradeFlags d).accounts = d.accounts := by
    unfold upgradeFlags
    dsimp only
    split_ifs
    · rfl
    · rfl
  obtain ⟨hpresenter', hother'⟩ := upgradeField_op_fields (upgradeFlags d)
  unfold upgradeDescription Accounts.enrolAll
  dsimp only
  rw [accounts_upgradeField clears_other, accounts_upgradeField clears_presenter,
    accounts_upgradeField clears_op, upgradeField_presenter_field, hother', hpresenter', hop,
    hpresenter, hother, hflags]

/-- No obsolete field is left. -/
structure Upgraded (d : Description κ) : Prop where
  op : d.op = none
  presenter : d.presenter = none
  other : d.other = none

theorem Upgraded.enrolAll (h : Upgraded d) : a.enrolAll d.written = a := by
  have hnone : d.written.op = none ∧ d.written.presenter = none ∧ d.written.other = none :=
    ⟨by rw [Description.written, h.op]; rfl, by rw [Description.written, h.presenter]; rfl,
      by rw [Description.written, h.other]; rfl⟩
  unfold Accounts.enrolAll
  rw [hnone.1, hnone.2.1, hnone.2.2]
  rfl

theorem foldl_upgradeOne_op (ps : List ClientPattern) (p : PermissionsName) (d : Description κ) :
    (ps.foldl (upgradeOne p) d).op = d.op := by
  induction ps generalizing d with
  | nil => rfl
  | cons u ps ih =>
      rw [List.foldl_cons, ih]
      unfold upgradeOne
      split_ifs
      · split
        · rfl
        · rfl
      · rfl
      · rfl

theorem upgraded (d : Description κ) : Upgraded (upgradeDescription d) := by
  unfold upgradeDescription
  dsimp only
  generalize upgradeFlags d = d
  have hop : (upgradeField d.op .op (fun d => { d with op := none }) d).op = none := by
    cases h : d.op with
    | none => exact h
    | some ps => rfl
  generalize upgradeField d.op .op (fun d => { d with op := none }) d = d at hop ⊢
  have hpresenter : (upgradeField d.presenter .present (fun d => { d with presenter := none }) d).op =
      none ∧ (upgradeField d.presenter .present (fun d => { d with presenter := none }) d).presenter =
        none := by
    cases h : d.presenter with
    | none => exact ⟨hop, h⟩
    | some ps => exact ⟨(foldl_upgradeOne_op ps _ _).trans hop, rfl⟩
  generalize upgradeField d.presenter .present (fun d => { d with presenter := none }) d = d
    at hpresenter ⊢
  cases h : d.other with
  | none => exact ⟨hpresenter.1, hpresenter.2, h⟩
  | some ps =>
      exact ⟨(foldl_upgradeOne_op ps _ _).trans hpresenter.1,
        (foldl_upgradeOne_fields ps _).1.trans hpresenter.2, rfl⟩

end Accounts

/-! ## Requests of the database -/

section Refinement
variable {κ : Type} {codec : KeyCodec κ} {parseKeys : List κ → Bool} {writableGroups : Bool}
  {file : Option File} {etag : String} {r : Reading κ} {content : Option Json}

/-- A description that has been written is read back. -/
theorem view_marshalJSON (d : Description κ) (size : ℕ) (modTime : ℤ) :
    view codec (some ⟨d.marshalJSON codec, size, modTime⟩) =
      .holds (d.accounts.enrolAll d.written) := by
  unfold view
  dsimp only
  rw [readDescription_marshalJSON]
  exact congrArg View.holds ((accounts_upgradeDescription _).trans (by rw [accounts_written]))

theorem view_open (h : openDescription codec file = .ok r) :
    view codec file = .holds r.desc.accounts ∧ Upgraded r.desc := by
  cases file with
  | none => cases h
  | some f =>
      unfold openDescription at h
      unfold view
      dsimp only at h ⊢
      cases hread : readDescription codec f.content with
      | error e =>
          rw [hread] at h
          cases h
      | ok d =>
          rw [hread] at h
          cases h
          refine ⟨rfl, ?_⟩
          unfold readDescription at hread
          cases hstruct : struct true (Description.fields codec) f.content {} with
          | error e =>
              rw [hstruct] at hread
              cases hread
          | ok raw =>
              rw [hstruct] at hread
              cases hread
              exact upgraded raw

theorem rewrite_ok {d : Description κ}
    (h : rewriteDescriptionFile codec writableGroups d = .ok content) :
    content = some (d.marshalJSON codec) := by
  unfold rewriteDescriptionFile at h
  split_ifs at h
  exact (Except.ok.inj h).symm

/-- A description that has been opened, changed and written. -/
theorem view_rewritten {d : Description κ} (hd : Upgraded d)
    (h : rewriteDescriptionFile codec writableGroups d = .ok content) (size : ℕ) (modTime : ℤ) :
    view codec (content.map fun content => ⟨content, size, modTime⟩) = .holds d.accounts := by
  rw [rewrite_ok h, Option.map_some, view_marshalJSON, hd.enrolAll]

theorem bind_ok {ε α β : Type} {x : Except ε α} {f : α → Except ε β} {b : β}
    (h : x.bind f = .ok b) : ∃ a, x = .ok a ∧ f a = .ok b := by
  cases x with
  | error e => cases h
  | ok a => exact ⟨a, rfl, h⟩

theorem valid_of_not {who : Subject} (h : ¬ (who.wildcard = true ∧ who.username ≠ "")) :
    who.Valid := fun hw => not_not.mp fun hne => h ⟨hw, hne⟩

theorem Upgraded.setAccount {d : Description κ} (h : Upgraded d) (who : Subject)
    (u : UserDescription) : Upgraded (d.setAccount who u) := by
  unfold Description.setAccount
  split_ifs
  · exact ⟨h.op, h.presenter, h.other⟩
  · exact ⟨h.op, h.presenter, h.other⟩

theorem Upgraded.deleteAccount {d : Description κ} (h : Upgraded d) (who : Subject) :
    Upgraded (d.deleteAccount who) := by
  unfold Description.deleteAccount
  split_ifs
  · exact ⟨h.op, h.presenter, h.other⟩
  · exact ⟨h.op, h.presenter, h.other⟩

theorem apply_updateDescription {desc : Description κ} {c : Json}
    (h : updateDescription codec writableGroups file etag desc = .ok c) (size : ℕ) (modTime : ℤ) :
    (Operation.updateDescription desc).apply parseKeys (view codec file) =
      some (view codec (some ⟨c, size, modTime⟩)) := by
  cases file with
  | none =>
      unfold updateDescription at h
      split_ifs at h with hsanitised
      simp only [not_or, Option.not_isSome_iff_eq_none] at hsanitised
      rw [← Except.ok.inj h, view_marshalJSON]
      have hempty : desc.accounts = {} := by
        unfold Description.accounts
        rw [hsanitised.1, hsanitised.2.1, hsanitised.2.2]
        rfl
      rw [hempty]
      rfl
  | some f =>
      cases hold : readDescription codec f.content with
      | error e =>
          unfold updateDescription at h
          split at h
          · cases h
          · simp only [hold] at h
            cases h
      | ok old =>
          have hview : view codec (some f) = .holds old.accounts := by
            unfold view
            dsimp only
            rw [hold]
          rw [updateDescription_ok hold h, view_marshalJSON, hview]
          rfl

theorem apply_deleteDescription (h : deleteDescription file etag = .ok content) (size : ℕ)
    (modTime : ℤ) :
    Operation.deleteDescription.apply parseKeys (view codec file) =
      some (view codec (content.map fun content => ⟨content, size, modTime⟩)) := by
  unfold deleteDescription at h
  cases file with
  | none => cases h
  | some f =>
      dsimp only at h
      split_ifs at h
      cases h
      unfold view
      dsimp only
      split
      · rfl
      · rfl

theorem apply_updateUser {who : Subject} {user : UserDescription}
    (h : updateUser codec writableGroups file who etag user = .ok content) (size : ℕ) (modTime : ℤ) :
    (Operation.updateUser who user).apply parseKeys (view codec file) =
      some (view codec (content.map fun content => ⟨content, size, modTime⟩)) := by
  unfold updateUser at h
  split_ifs at h with hwho
  obtain ⟨r, hr, h⟩ := bind_ok h
  dsimp only at h
  obtain ⟨hview, hupgraded⟩ := view_open hr
  by_cases htag : (if (r.desc.account who).isSome = true then r.etag else "") = etag
  · rw [if_neg (not_not.mpr htag)] at h
    have hpassword : ((r.desc.accounts.get who).getD {}).password =
        ({ user with password := ((r.desc.account who).getD {}).password } :
          UserDescription).written.password := by
      rw [get_accounts]
      cases r.desc.account who with
      | none => rfl
      | some u => rfl
    rw [view_rewritten (hupgraded.setAccount ..) h, accounts_setAccount, hview]
    unfold Operation.apply
    dsimp only
    rw [if_pos (valid_of_not hwho), hpassword]
    rfl
  · rw [if_pos htag] at h
    cases h

theorem apply_deleteUser {who : Subject}
    (h : deleteUser codec writableGroups file who etag = .ok content) (size : ℕ) (modTime : ℤ) :
    (Operation.deleteUser who).apply parseKeys (view codec file) =
      some (view codec (content.map fun content => ⟨content, size, modTime⟩)) := by
  unfold deleteUser at h
  split_ifs at h with hwho
  obtain ⟨r, hr, h⟩ := bind_ok h
  obtain ⟨hview, hupgraded⟩ := view_open hr
  cases haccount : r.desc.account who with
  | none =>
      rw [haccount] at h
      cases h
  | some u =>
      rw [haccount] at h
      dsimp only at h
      split_ifs at h with htag
      rw [view_rewritten (hupgraded.deleteAccount ..) h, accounts_deleteAccount, hview]
      unfold Operation.apply
      dsimp only
      rw [get_accounts, haccount, if_pos ⟨valid_of_not hwho, rfl⟩]

theorem apply_setUserPassword {who : Subject} {pw : Password}
    (h : setUserPassword codec writableGroups file who pw = .ok content) (size : ℕ) (modTime : ℤ) :
    (Operation.setUserPassword who pw).apply parseKeys (view codec file) =
      some (view codec (content.map fun content => ⟨content, size, modTime⟩)) := by
  unfold setUserPassword at h
  split_ifs at h with hwho
  obtain ⟨r, hr, h⟩ := bind_ok h
  obtain ⟨hview, hupgraded⟩ := view_open hr
  cases haccount : r.desc.account who with
  | none =>
      rw [haccount] at h
      cases h
  | some u =>
      rw [haccount] at h
      rw [view_rewritten (hupgraded.setAccount ..) h, accounts_setAccount, hview]
      unfold Operation.apply
      dsimp only
      rw [get_accounts, haccount, if_pos ⟨valid_of_not hwho, rfl⟩]
      rfl

theorem apply_setKeys {keys : Option (List κ)}
    (h : setKeys codec parseKeys writableGroups file keys = .ok content) (size : ℕ) (modTime : ℤ) :
    (Operation.setKeys keys).apply parseKeys (view codec file) =
      some (view codec (content.map fun content => ⟨content, size, modTime⟩)) := by
  unfold setKeys at h
  split_ifs at h with hkeys
  obtain ⟨r, hr, h⟩ := bind_ok h
  obtain ⟨hview, hupgraded⟩ := view_open hr
  have hrewritten : Upgraded { r.desc with authKeys := keys } :=
    ⟨hupgraded.op, hupgraded.presenter, hupgraded.other⟩
  rw [view_rewritten hrewritten h, hview]
  unfold Operation.apply
  dsimp only
  have hall : keys.all parseKeys = true := by
    cases keys with
    | none => rfl
    | some keys => simpa using hkeys
  rw [if_pos hall]
  rfl

/-- What the handlers do to the file is what the database does to the accounts. -/
theorem run_apply {op : Operation κ}
    (h : op.run codec parseKeys writableGroups file etag = .ok content) (size : ℕ) (modTime : ℤ) :
    op.apply parseKeys (view codec file) =
      some (view codec (content.map fun content => ⟨content, size, modTime⟩)) := by
  cases op with
  | updateDescription desc =>
      unfold Operation.run at h
      dsimp only at h
      cases hupdate : updateDescription codec writableGroups file etag desc with
      | error e =>
          rw [hupdate] at h
          cases h
      | ok c =>
          rw [hupdate] at h
          cases h
          exact apply_updateDescription hupdate size modTime
  | deleteDescription => exact apply_deleteDescription h size modTime
  | updateUser who user => exact apply_updateUser h size modTime
  | deleteUser who => exact apply_deleteUser h size modTime
  | setUserPassword who pw => exact apply_setUserPassword h size modTime
  | setKeys keys => exact apply_setKeys h size modTime

end Refinement

/-! ## Runs -/

section Runs
variable {κ : Type} {codec : KeyCodec κ} {parseKeys : List κ → Bool} {file : Option File}
  {s t : Store κ} {who : Subject}

/-- The events of a step, and what they do to the accounts. -/
def Adds (codec : KeyCodec κ) (parseKeys : List κ → Bool) (s t : Store κ) : Prop :=
  ∃ events : List (Event κ), t.log = s.log ++ events ∧
    events.foldlM (fun v e => e.apply codec parseKeys v) (view codec s.file) =
      some (view codec t.file)

theorem adds_quiet (hlog : t.log = s.log) (hfile : t.file = s.file) : Adds codec parseKeys s t :=
  ⟨[], by rw [hlog, List.append_nil], by rw [hfile]; rfl⟩

theorem adds_append {e : Event κ} (hlog : t.log = s.log ++ [e])
    (h : e.apply codec parseKeys (view codec s.file) = some (view codec t.file)) :
    Adds codec parseKeys s t := by
  refine ⟨[e], hlog, ?_⟩
  rw [List.foldlM_cons, h]
  rfl

theorem step_read (h : step codec parseKeys s .read = some t) :
    ∃ r, openDescription codec s.file = .ok r ∧ t = { s with readings := s.readings ++ [r] } := by
  unfold step at h
  dsimp only at h
  cases hread : openDescription codec s.file with
  | error e =>
      rw [hread] at h
      cases h
  | ok r =>
      rw [hread] at h
      exact ⟨r, rfl, (Option.some.inj h).symm⟩

theorem step_adds {l : Label κ} (h : step codec parseKeys s l = some t) :
    Adds codec parseKeys s t := by
  cases l with
  | get target headers inherited =>
      obtain rfl := Option.some.inj h
      unfold Store.get
      cases target.body (s.getDescription codec inherited) with
      | error e => exact adds_append rfl rfl
      | ok answer =>
          dsimp only
          cases checkPreconditions "GET" headers answer.2.toList with
          | some refusal => exact adds_append rfl rfl
          | none => exact adds_append rfl rfl
  | look request inherited =>
      obtain rfl := Option.some.inj h
      unfold Store.look
      rcases request.operation.look s.file (s.getDescription codec inherited) with
        _ | ⟨method, e | etag⟩
      · exact adds_quiet rfl rfl
      · exact adds_append rfl rfl
      · dsimp only
        cases checkPreconditions method request.headers etag.toList with
        | some refusal => exact adds_append rfl rfl
        | none => exact adds_quiet rfl rfl
  | commit i size modTime =>
      obtain ⟨⟨request, etag⟩, -, rfl⟩ := Option.map_eq_some_iff.mp h
      unfold Store.commit
      dsimp only
      cases hrun : request.operation.run codec parseKeys s.writableGroups s.file etag with
      | error e => exact adds_append rfl rfl
      | ok content => exact adds_append rfl (run_apply hrun size modTime)
  | edit file time =>
      obtain rfl := Option.some.inj h
      exact adds_append rfl rfl
  | configure writableGroups =>
      obtain rfl := Option.some.inj h
      exact adds_quiet rfl rfl
  | read =>
      obtain ⟨r, -, rfl⟩ := step_read h
      exact adds_quiet rfl rfl
  | add i =>
      obtain ⟨r, -, rfl⟩ := Option.map_eq_some_iff.mp h
      exact adds_quiet rfl rfl
  | drop =>
      obtain rfl := Option.some.inj h
      exact adds_quiet rfl rfl

/-- In every run the requests that are done could be done to the accounts one after another, in
the order in which they are done, and the file holds what becomes of the accounts. -/
theorem done_one_after_another (h : Reachable (system codec parseKeys file) Always s) :
    s.log.foldlM (fun v e => e.apply codec parseKeys v) (view codec file) =
      some (view codec s.file) := by
  refine h.invariant (P := fun s => s.log.foldlM (fun v e => e.apply codec parseKeys v)
    (view codec file) = some (view codec s.file)) ?_ ?_
  · rintro s ⟨clock, writableGroups, rfl, -⟩
    rfl
  · intro s l t hs _ hstep
    obtain ⟨events, hlog, hevents⟩ := step_adds hstep
    rw [hlog, List.foldlM_append, hs]
    exact hevents

def vimes : Subject := { username := "vimes" }

/-- Somebody gets other permissions, and somebody else an account. -/
def promotions : List (Label Json) :=
  [.look { operation := .updateUser vimes { permissions := .named .present } } (.error .notExist),
    .look { operation := .updateUser { username := "carrot" } { permissions := .named .op },
            headers := { ifNoneMatch := ['*'] } } (.error .notExist),
    .commit 0 70 21, .commit 0 120 22]

def stationed : Store Json := { file := some storedFile, clock := 20 }

theorem fresh_stationed : Fresh (some storedFile) stationed :=
  ⟨20, true, rfl, fun f hf => by cases hf; decide⟩

theorem promotions_done : ∃ s, (system jsonCodec (fun _ => true) (some storedFile)).exec Always
    stationed promotions = some s ∧ s.log.length = 2 ∧
    s.log.foldlM (fun v e => e.apply jsonCodec (fun _ => true) v)
      (view jsonCodec (some storedFile)) = some (view jsonCodec s.file) := by
  have hrun : ((system jsonCodec (fun _ => true) (some storedFile)).exec Always stationed
      promotions).any (fun s => s.log.length = 2) = true := by decide +kernel
  obtain ⟨s, hs, hlength⟩ := (Option.any_eq_true ..).mp hrun
  exact ⟨s, hs, of_decide_eq_true hlength,
    done_one_after_another (Reachable.exec (.init fresh_stationed) hs)⟩

/-! ## Passwords -/

variable {a : Accounts κ} {u : Option UserDescription} {v v' : View κ} {op : Operation κ}

theorem get_set_self : (a.set who u).get who = u := by
  unfold Accounts.set Accounts.get
  split_ifs
  · rfl
  · exact Function.update_self ..

theorem get_set_of_ne {who' : Subject} (hwho : who.Valid) (hwho' : who'.Valid) (h : who' ≠ who) :
    (a.set who' u).get who = a.get who := by
  unfold Accounts.set Accounts.get
  by_cases hw' : who'.wildcard = true
  · rw [if_pos hw']
    by_cases hw : who.wildcard = true
    · have hsame : who' = who := by
        obtain ⟨name, wildcard⟩ := who
        obtain ⟨name', wildcard'⟩ := who'
        rw [Subject.mk.injEq]
        exact ⟨(hwho' hw').trans (hwho hw).symm, hw'.trans hw.symm⟩
      exact absurd hsame h
    · rw [if_neg hw, if_neg hw]
  · rw [if_neg hw']
    by_cases hw : who.wildcard = true
    · rw [if_pos hw, if_pos hw]
    · rw [if_neg hw, if_neg hw]
      have hname : who.username ≠ who'.username := by
        intro hname
        obtain ⟨name, wildcard⟩ := who
        obtain ⟨name', wildcard'⟩ := who'
        exact h (Subject.mk.injEq .. ▸
          ⟨hname.symm, (Bool.eq_false_iff.mpr hw').trans (Bool.eq_false_iff.mpr hw).symm⟩)
      dsimp only
      rw [Function.update_of_ne hname]

/-- A password that a request leaves as it is, or that is gone where an account may end, or that
is the empty one of a new account. -/
def Leaves (ends : Bool) (who : Subject) (v v' : View κ) : Prop :=
  v'.password who = v.password who ∨ ends = true ∧ v'.password who = none ∨
    v.password who = none ∧ v'.password who = some {}

theorem leaves_set {ends : Bool} {who' : Subject} (hwho : who.Valid) (hwho' : who'.Valid)
    (h : who' = who → ends = true ∧ u = none ∨
      u.map (·.password) = some ((a.get who).getD {}).password) :
    Leaves ends who (.holds a) (.holds (a.set who' u)) := by
  by_cases hsame : who' = who
  · subst hsame
    unfold Leaves View.password
    dsimp only
    rw [get_set_self]
    rcases h rfl with ⟨hends, rfl⟩ | hu
    · exact .inr (.inl ⟨hends, rfl⟩)
    · rw [hu]
      cases a.get who' with
      | none => exact .inr (.inr ⟨rfl, rfl⟩)
      | some u => exact .inl rfl
  · refine .inl ?_
    unfold View.password
    dsimp only
    rw [get_set_of_ne hwho hwho' hsame]

theorem apply_leaves (hwho : who.Valid) (hsets : op.sets who = false)
    (h : op.apply parseKeys v = some v') : Leaves (op.ends who) who v v' := by
  cases op with
  | updateDescription desc =>
      have hnone : Upgraded desc := by
        unfold Operation.sets at hsets
        simp only [Bool.or_eq_false_iff, Option.isSome_eq_false_iff, Option.isNone_iff_eq_none]
          at hsets
        exact ⟨hsets.1.1, hsets.1.2, hsets.2⟩
      cases v with
      | absent =>
          cases h
          rw [hnone.enrolAll]
          refine .inl ?_
          unfold View.password Accounts.get
          dsimp only
          split_ifs
          · rfl
          · rfl
      | unreadable => cases h
      | holds a =>
          cases h
          rw [hnone.enrolAll]
          exact .inl rfl
  | deleteDescription =>
      cases v with
      | absent => cases h
      | unreadable =>
          cases h
          exact .inl rfl
      | holds a =>
          cases h
          exact .inr (.inl ⟨rfl, rfl⟩)
  | updateUser who' user =>
      cases v with
      | absent => cases h
      | unreadable => cases h
      | holds a =>
          unfold Operation.apply at h
          dsimp only at h
          split_ifs at h with hvalid
          cases h
          exact leaves_set hwho hvalid fun hsame => .inr (by rw [hsame]; rfl)
  | deleteUser who' =>
      cases v with
      | absent => cases h
      | unreadable => cases h
      | holds a =>
          unfold Operation.apply at h
          dsimp only at h
          split_ifs at h with hvalid
          cases h
          exact leaves_set hwho hvalid.1 fun hsame => .inl ⟨decide_eq_true hsame, rfl⟩
  | setUserPassword who' pw =>
      cases v with
      | absent => cases h
      | unreadable => cases h
      | holds a =>
          unfold Operation.apply at h
          dsimp only at h
          split_ifs at h with hvalid
          cases h
          exact leaves_set hwho hvalid.1 fun hsame => absurd hsame (of_decide_eq_false hsets)
  | setKeys keys =>
      cases v with
      | absent => cases h
      | unreadable => cases h
      | holds a =>
          unfold Operation.apply at h
          dsimp only at h
          split_ifs at h
          cases h
          exact .inl rfl

/-- What a list of events leaves of a password. -/
theorem foldlM_leaves {events : List (Event κ)} (hwho : who.Valid)
    (hsets : ∀ e ∈ events, e.sets who = false)
    (h : events.foldlM (fun v e => e.apply codec parseKeys v) v = some v') :
    (v'.password who = v.password who ∨ v'.password who = none ∨ v'.password who = some {}) ∧
      ((∀ e ∈ events, e.ends who = false) → v.password who ≠ none →
        v'.password who = v.password who) := by
  induction events generalizing v with
  | nil =>
      cases h
      exact ⟨.inl rfl, fun _ _ => rfl⟩
  | cons e events ih =>
      rw [List.foldlM_cons] at h
      obtain ⟨v₁, hv₁, h⟩ := Option.bind_eq_some_iff.mp h
      have hhead : Leaves (e.ends who) who v v₁ := by
        have hset := hsets e List.mem_cons_self
        cases e with
        | done request created before after => exact apply_leaves hwho hset hv₁
        | edited file => cases hset
        | read isSubgroup target body etag => exact .inl (by cases hv₁; rfl)
        | refused refusal => exact .inl (by cases hv₁; rfl)
        | failed e => exact .inl (by cases hv₁; rfl)
      obtain ⟨hleft, hkept⟩ := ih (fun e he => hsets e (List.mem_cons_of_mem _ he)) h
      rcases hhead with hsame | ⟨hends, hnone⟩ | ⟨hnone, hempty⟩
      · rw [← hsame]
        exact ⟨hleft, fun hends => hkept fun e he => hends e (List.mem_cons_of_mem _ he)⟩
      · refine ⟨.inr ?_, fun hall => absurd (hall e List.mem_cons_self) (by rw [hends]; decide)⟩
        rw [hnone] at hleft
        rcases hleft with hleft | hleft | hleft
        · exact .inl hleft
        · exact .inl hleft
        · exact .inr hleft
      · refine ⟨.inr ?_, fun _ hv => absurd hnone hv⟩
        rw [hempty] at hleft
        rcases hleft with hleft | hleft | hleft
        · exact .inr hleft
        · exact .inl hleft
        · exact .inr hleft

theorem not_accepts_unset (crypto : Crypto) (pw : List UInt8) :
    ¬ Password.accepts crypto {} pw := by
  simp [Password.accepts, Password.match]

end Runs

end Sozvon.Group
