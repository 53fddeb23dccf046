import Sozvon.Preconditions
import Sozvon.TokenRuns

/-!
# Putting a token

The administrator's `PUT` of a token looks the token up and updates it later, on
the condition that the file is still the one that the lookup has seen. In between
the store is open to everybody.
-/
namespace Sozvon.TokenRequests

open Token

inductive Response where
  | status (code : ℕ) (text : String)
  /-- A nil pointer is followed. -/
  | panic
deriving DecidableEq, Repr

def Response.IsError : Response → Prop
  | .status code _ => 400 ≤ code
  | .panic => False

def Response.IsSuccess : Response → Prop
  | .status code _ => 200 ≤ code ∧ code < 300
  | .panic => False

/-- What `getJSON` is given. -/
inductive Body where
  | otherType
  | tooLarge
  | undecodable
  | token (t : Stateful)

structure Request where
  /-- The group and the token of the URL. -/
  group : String
  token : String
  headers : Preconditions.Headers := {}
  body : Body
  /-- What `group.GetDescription` says of the group, which is not asked where there is none. -/
  description : Except Error Unit := .ok ()

def httpError : Error → Response
  | .notExist => .status 404 ""
  | .tagMismatch => .status 500 "Internal server error"
  | .failed => .status 500 "Internal server error"
  | .syntaxError => .status 500 "Internal server error"
  | .text _ => .status 500 "Internal server error"

def getJSON : Body → Except Response Stateful
  | .otherType => .error (.status 415 "unsupported content type")
  | .tooLarge => .error (.status 413 "Request body too large")
  | .undecodable => .error (.status 500 "Internal server error")
  | .token t => .ok t

variable (E : Encoding) (c : Choices)

/-- The `PUT` case of `tokensHandler` from the preconditions on, the lookup having found `old`. -/
def update (s : State) (r : Request) (old : Option Stateful) (etag : String) : State × Response :=
  match old with
  -- `old.Group` of a nil pointer
  | none => (s, .panic)
  | some old =>
      if old.group ≠ r.group then (s, .status 409 "token exists in different group")
      else if Preconditions.Failed etag.toList r.headers then (s, .status 412 "")
      else match getJSON r.body with
        | .error response => (s, response)
        | .ok newtoken =>
            if newtoken.group ≠ "" ∨ newtoken.token ≠ "" then (s, .status 400 "overspecified token")
            else match s.update E c { newtoken with group := r.group, token := r.token } etag with
              | (s, .ok _) => (s, .status (if etag = "" then 201 else 204) "")
              | (s, .error e) => (s, httpError e)
              | (s, .panic) => (s, .panic)

/-- The `PUT` case up to the preconditions: what has been found, or an answer already. -/
def lookup (s : State) (r : Request) : State × Except Response (Option Stateful × String) :=
  match if r.group = "" then .ok () else r.description with
  | .error e => (s, .error (httpError e))
  | .ok () =>
      match s.get c.load r.token with
      | (s, .ok (old, etag)) => (s, .ok (some old, etag))
      | (s, .error .notExist) => (s, .ok (none, ""))
      | (s, .error e) => (s, .error (httpError e))

/-- The store when the update comes, with what others have done since the lookup. -/
def later (s : State) (others : List Event) (r : Request) : State := exec E (lookup c s r).1 others

def put (s : State) (others : List Event) (r : Request) : State × Response :=
  match (lookup c s r).2 with
  | .error response => (later E c s others r, response)
  | .ok (old, etag) => update E c (later E c s others r) r old etag

/-! ## What should be -/

/-- The store is written. -/
def Written (s : State) (others : List Event) : Prop :=
  ∃ a e b, others = a ++ e :: b ∧ e.Succeeds E (exec E s a) ∧ e.call.Writes (exec E s a).read

/-- The etag of the token of the request, which is empty where there is none. -/
def currentTag (s : State) (r : Request) : String := if r.token ∈ s.read then s.tag else ""

/-- The request has to be refused for what it is and what the store is at the lookup. -/
inductive Refused (s : State) (r : Request) : Prop
  | group (e : Error) : r.group ≠ "" → r.description = .error e → Refused s r
  | unreadable (e : Error) : s.onDisk = .error e → Refused s r
  | elsewhere (old : Stateful) : s.read.lookup r.token = some old → old.group ≠ r.group →
      Refused s r
  | precondition : Preconditions.Failed (currentTag s r).toList r.headers → Refused s r
  | body (response : Response) : getJSON r.body = .error response → Refused s r
  | overspecified (t : Stateful) : r.body = .token t → t.group ≠ "" ∨ t.token ≠ "" → Refused s r

/-- A `PUT` that is refused, or has been overtaken, is answered with an error and leaves the store
as it is by then; any other leaves in it the token of its body. -/
def Conforms (s : State) (others : List Event) (r : Request) : Prop :=
  (put E c s others r).2 ≠ .panic ∧
  (Refused s r ∨ Written E (lookup c s r).1 others → (put E c s others r).2.IsError ∧
    (put E c s others r).1.disk = (later E c s others r).disk) ∧
  (¬ (Refused s r ∨ Written E (lookup c s r).1 others) → (put E c s others r).2.IsSuccess ∧
    ∃ t ts, r.body = .token t ∧ (put E c s others r).1.onDisk = .ok ts ∧ ∀ token,
      ts.lookup token = if token = r.token then some { t with group := r.group, token := r.token }
        else (later E c s others r).read.lookup token)

/-- What was written cannot be told from the file's size and time. -/
def Unseen (s s' : State) (r : Request) : Prop := s'.Expects r.token s.tag

/-- The token is found, if it comes to that, and what others write does not go unseen. -/
def Sound (s : State) (others : List Event) (r : Request) : Prop :=
  ((r.group ≠ "" → r.description = .ok ()) → (∃ ts, s.onDisk = .ok ts) → r.token ∈ s.read) ∧
  (¬ Refused s r → Written E (lookup c s r).1 others → ¬ Unseen s (later E c s others r) r)

/-! ## The lookup -/

section Lookup
variable {E : Encoding} {c : Choices} {s : State} {others : List Event} {r : Request}

theorem isError_httpError (e : Error) : (httpError e).IsError := by
  cases e <;> simp [httpError, Response.IsError]

theorem isError_getJSON {body : Body} {response : Response} (h : getJSON body = .error response) :
    response.IsError := by
  cases body <;> cases h <;> simp [Response.IsError]

/-- How a lookup in a store that is as it should be ends. -/
inductive LookedUp (s : State) (r : Request) : State × Except Response (Option Stateful × String) → Prop
  | refused (s' : State) (response : Response) : Refused s r → response.IsError →
      ((r.group ≠ "" → r.description = .ok ()) → ∀ ts, s.onDisk ≠ .ok ts) →
      LookedUp s r (s', .error response)
  | missing (s' : State) : (r.group ≠ "" → r.description = .ok ()) → (∃ ts, s.onDisk = .ok ts) →
      r.token ∉ s.read → LookedUp s r (s', .ok (none, ""))
  | found (s' : State) (old : Stateful) : (r.group ≠ "" → r.description = .ok ()) →
      s.filename ≠ "" → s'.filename = s.filename → s'.disk = s.disk → s'.Good →
      s.read.lookup r.token = some old → LookedUp s r (s', .ok (some old, s.tag))

/-- A file that cannot be read is not taken for a missing token. -/
theorem get_unreadable (hname : s.filename ≠ "") (h : s.Good) {e : Error} (hs : s.onDisk = .error e)
    (token : String) : s.get {} token = (s.reset, .error .syntaxError) := by
  obtain ⟨e', hload⟩ := load_fails hname h.honest hs
  have hcurrent : s.current = .error e' := by simp only [State.current, hload]
  rw [State.get, hload, current_error hcurrent]

theorem lookedUp (hc : c.Works) (h : s.Good) : LookedUp s r (lookup c s r) := by
  unfold lookup
  by_cases hdescription : r.group ≠ "" → r.description = .ok ()
  · have hok : (if r.group = "" then .ok () else r.description) = .ok () := by
      by_cases hgroup : r.group = ""
      · rw [if_pos hgroup]
      · rw [if_neg hgroup, hdescription hgroup]
    rw [hok, hc.load]
    dsimp only
    by_cases hname : s.filename = ""
    · have hread : s.onDisk = .ok ∅ := onDisk_none (h.unnamed hname)
      have hget : s.get {} r.token = (s.reset, .error .notExist) := by
        simp [State.get, State.load, hname, State.reset]
      rw [hget]
      refine .missing _ hdescription ⟨∅, hread⟩ ?_
      rw [read_eq hread]
      exact AList.notMem_empty _
    · cases hs : s.onDisk with
      | error e =>
          rw [get_unreadable hname h hs]
          exact .refused _ _ (.unreadable e hs) (isError_httpError _)
            fun _ ts hts => by rw [hs] at hts; cases hts
      | ok ts =>
          have hholds : Holds s s.read := by
            refine ⟨h.honest, ?_⟩
            rw [read_eq hs, hs]
            exact agree_refl _
          obtain ⟨s₁, hload, hloaded, hagree⟩ := load_works hname hholds
          have hlookup := lookup_of_agree hagree r.token
          rw [State.get, hload]
          dsimp only
          cases hold : (s₁.tokens.getD ∅).lookup r.token with
          | none =>
              rw [hold] at hlookup
              exact .missing _ hdescription ⟨ts, hs⟩ (AList.lookup_eq_none.mp hlookup.symm)
          | some old =>
              rw [hold] at hlookup
              refine .found _ old hdescription hname hloaded.filename hloaded.disk
                ⟨hloaded.honest.mpr h.honest, fun hempty => ?_⟩ hlookup.symm
              exact absurd (hloaded.filename ▸ hempty) hname
  · have hgroup : r.group ≠ "" := fun h => hdescription fun hne => absurd h hne
    rw [if_neg hgroup]
    cases hd : r.description with
    | error e =>
        exact .refused _ _ (.group e hgroup hd) (isError_httpError e)
          fun hok => absurd hok hdescription
    | ok =>
        exact absurd (fun _ => hd) hdescription

end Lookup

/-! ## The update -/

section Update
variable {E : Encoding} {c : Choices} {s s' : State} {others : List Event} {r : Request}

/-- Nothing of what the request and the store are at the lookup speaks against it. -/
structure Proceeds (s : State) (r : Request) (old t : Stateful) : Prop where
  group : old.group = r.group
  precondition : ¬ Preconditions.Failed s.tag.toList r.headers
  body : r.body = .token t
  anonymous : t.group = "" ∧ t.token = ""

/-- A token has been found: the request is refused at once, or goes on to the update. -/
theorem update_cases (hold : s.read.lookup r.token = some old) :
    (Refused s r ∧ ∃ response, response.IsError ∧
      ∀ s', update E c s' r (some old) s.tag = (s', response)) ∨
    ∃ t, Proceeds s r old t ∧ ∀ s', update E c s' r (some old) s.tag =
      match s'.update E c { t with group := r.group, token := r.token } s.tag with
      | (s', .ok _) => (s', .status (if s.tag = "" then 201 else 204) "")
      | (s', .error e) => (s', httpError e)
      | (s', .panic) => (s', .panic) := by
  have hin : r.token ∈ s.read := AList.lookup_isSome.mp (by rw [hold]; rfl)
  have htag : currentTag s r = s.tag := if_pos hin
  unfold update
  by_cases hgroup : old.group ≠ r.group
  · refine .inl ⟨.elsewhere old hold hgroup, .status 409 "token exists in different group", ?_, ?_⟩
    · simp [Response.IsError]
    · intro s'
      simp only [hgroup, ne_eq, not_false_eq_true, if_true]
  by_cases hfailed : Preconditions.Failed s.tag.toList r.headers
  · refine .inl ⟨.precondition (htag.symm ▸ hfailed), .status 412 "", ?_, ?_⟩
    · simp [Response.IsError]
    · intro s'
      simp only [hgroup, hfailed, if_true, if_false]
  cases hbody : getJSON r.body with
  | error response =>
      refine .inl ⟨.body response hbody, response, isError_getJSON hbody, ?_⟩
      intro s'
      simp only [hgroup, hfailed, if_false]
  | ok t =>
      have hr : r.body = .token t := by
        cases hb : r.body <;> rw [hb] at hbody <;> cases hbody
        rfl
      by_cases hnamed : t.group ≠ "" ∨ t.token ≠ ""
      · refine .inl ⟨.overspecified t hr hnamed, .status 400 "overspecified token", ?_, ?_⟩
        · simp [Response.IsError]
        · intro s'
          simp only [hgroup, hfailed, hnamed, if_true, if_false]
      · refine .inr ⟨t, ⟨not_not.mp hgroup, hfailed, hr, ?_⟩, ?_⟩
        · simpa [not_or] using hnamed
        · intro s'
          simp only [hgroup, hfailed, hnamed, if_false]

theorem Proceeds.not_refused {old t : Stateful} (h : Proceeds s r old t)
    (hdescription : r.group ≠ "" → r.description = .ok ())
    (hold : s.read.lookup r.token = some old) : ¬ Refused s r := by
  have hin : r.token ∈ s.read := AList.lookup_isSome.mp (by rw [hold]; rfl)
  intro hrefused
  cases hrefused with
  | group e hgroup hd =>
      rw [hdescription hgroup] at hd
      cases hd
  | unreadable e hs =>
      rw [State.read, hs] at hin
      exact AList.notMem_empty _ hin
  | elsewhere old' hold' hgroup =>
      rw [hold] at hold'
      cases hold'
      exact hgroup h.group
  | precondition hfailed =>
      rw [currentTag, if_pos hin] at hfailed
      exact h.precondition hfailed
  | body response hbody =>
      rw [h.body] at hbody
      cases hbody
  | overspecified t' hbody hnamed =>
      rw [h.body] at hbody
      cases hbody
      exact hnamed.elim (fun hne => hne h.anonymous.1) fun hne => hne h.anonymous.2

/-- What an update of a store that others have left in `s'` comes to. -/
theorem update_outcome (hc : c.Works) (hname : s'.filename ≠ "") (h : s'.Good)
    (hread : ∃ ts, s'.onDisk = .ok ts) (t : Stateful) (tag : String) :
    (s'.Expects t.token tag ∧ ∃ s'', s'.update E c t tag = (s'', .ok t) ∧
      ∃ ts, s''.onDisk = .ok ts ∧ ∀ token, ts.lookup token =
        if token = t.token then some t else s'.read.lookup token) ∨
    (¬ s'.Expects t.token tag ∧ ∃ s'', s'.update E c t tag = (s'', .error .tagMismatch) ∧
      s''.disk = s'.disk) := by
  obtain ⟨ts, hts⟩ := hread
  have hholds : Holds s' s'.read := by
    refine ⟨h.honest, ?_⟩
    rw [read_eq hts, hts]
    exact agree_refl _
  have hran := ran_update (E := E) hc h t tag
  simp only [Call.run, Op.run] at hran
  rcases update_result (E := E) hc hname hholds t tag with ⟨hexpects, hresult⟩ | ⟨hnot, hresult⟩
  · refine .inl ⟨hexpects, (s'.update E c t tag).1, Prod.ext rfl hresult, ?_⟩
    rw [hresult] at hran
    have hafter := (hran.effect rfl).2
    cases hs : (s'.update E c t tag).1.onDisk with
    | error e =>
        dsimp only at hafter
        rw [hs] at hafter
        exact False.elim hafter
    | ok ts' =>
        dsimp only at hafter
        rw [hs] at hafter
        refine ⟨ts', rfl, fun token => ?_⟩
        rw [lookup_of_agree hafter token]
        by_cases htoken : token = t.token
        · rw [if_pos htoken, htoken]
          exact AList.lookup_insert _
        · rw [if_neg htoken]
          exact AList.lookup_insert_ne htoken
  · refine .inr ⟨hnot, (s'.update E c t tag).1, Prod.ext rfl hresult, ?_⟩
    rw [hresult] at hran
    exact hran.fails (by simp [Result.forget])

theorem isSuccess_put (tag : String) :
    (Response.status (if tag = "" then 201 else 204) "").IsSuccess := by
  by_cases h : tag = "" <;> simp [h, Response.IsSuccess]

theorem not_isError_put (tag : String) :
    ¬ (Response.status (if tag = "" then 201 else 204) "").IsError := by
  by_cases h : tag = "" <;> simp [h, Response.IsError]

/-- A request in a good store conforms if and only if it is sound. -/
theorem conforms_good (hc : c.Works) (hothers : ∀ e ∈ others, e.choices.Works) (h : s.Good) :
    Conforms E c s others r ↔ Sound E c s others r := by
  have hl := lookedUp (r := r) hc h
  unfold Conforms Sound put later
  generalize lookup c s r = l at hl ⊢
  cases hl with
  | refused s₁ response hrefused herror hnot =>
      refine iff_of_true ⟨?_, fun _ => ⟨herror, rfl⟩, fun hn => absurd (.inl hrefused) hn⟩
        ⟨fun hd ⟨ts, hts⟩ => absurd hts (hnot hd ts), fun hn => absurd hrefused hn⟩
      intro hpanic
      dsimp only at hpanic
      rw [hpanic] at herror
      exact herror
  | missing s₁ hd hread hnotin =>
      exact iff_of_false (fun hconforms => hconforms.1 rfl) fun hsound => hnotin (hsound.1 hd hread)
  | found s₁ old hd hname hname₁ hdisk hgood hold =>
      have hin : r.token ∈ s.read := AList.lookup_isSome.mp (by rw [hold]; rfl)
      dsimp only
      rcases update_cases (E := E) (c := c) hold with ⟨hrefused, response, herror, hupdate⟩ |
        ⟨t, hproceeds, hupdate⟩
      · rw [hupdate]
        refine iff_of_true ⟨?_, fun _ => ⟨herror, rfl⟩, fun hn => absurd (.inl hrefused) hn⟩
          ⟨fun _ _ => hin, fun hn => absurd hrefused hn⟩
        intro hpanic
        dsimp only at hpanic
        rw [hpanic] at herror
        exact herror
      · have hnot := hproceeds.not_refused hd hold
        have hread₁ : ∃ ts, s₁.onDisk = .ok ts := by
          rw [onDisk_congr hdisk]
          exact onDisk_of_mem hin
        have hmid := hgood.after (E := E) hothers
        have hmidname : (exec E s₁ others).filename ≠ "" := by
          rw [hgood.filename_after hothers, hname₁]
          exact hname
        rw [hupdate]
        rcases update_outcome (E := E) hc hmidname hmid (hgood.readable hothers hread₁)
          { t with group := r.group, token := r.token } s.tag with
          ⟨hexpects, s'', hresult, hafter⟩ | ⟨hnexpects, s'', hresult, hafter⟩
        · rw [hresult]
          have hsuccess := isSuccess_put s.tag
          by_cases hwritten : Written E s₁ others
          · refine iff_of_false (fun hconforms => ?_) fun hsound => hsound.2 hnot hwritten hexpects
            exact not_isError_put s.tag (hconforms.2.1 (.inr hwritten)).1
          · refine iff_of_true ⟨nofun, fun hor => ?_, fun _ => ⟨hsuccess, t, ?_⟩⟩
              ⟨fun _ _ => hin, fun _ hw => absurd hw hwritten⟩
            · exact hor.elim (fun hr => absurd hr hnot) fun hw => absurd hw hwritten
            · obtain ⟨ts, hts, hlookup⟩ := hafter
              exact ⟨ts, hproceeds.body, hts, hlookup⟩
        · rw [hresult]
          by_cases hwritten : Written E s₁ others
          · refine iff_of_true ⟨nofun, fun _ => ⟨isError_httpError .tagMismatch, hafter⟩, fun hn => ?_⟩
              ⟨fun _ _ => hin, fun _ _ => hnexpects⟩
            exact absurd (.inr hwritten) hn
          · have hsame : (exec E s₁ others).disk = s.disk :=
              (hgood.unwritten hothers fun a e b hsplit hok hw =>
                hwritten ⟨a, e, b, hsplit, hok, hw⟩).trans hdisk
            refine absurd ⟨fun _ => (tag_congr hsame).symm, fun hnotin => ?_⟩ hnexpects
            rw [read_congr hsame] at hnotin
            exact absurd hin hnotin

/-- A `PUT`, in whatever state calls have brought the store to and with whatever calls between its
lookup and its update, conforms if and only if it is sound: the token is there, and what others
write shows. -/
theorem conforms_iff_sound (hc : c.Works) (hinit : s.Initial) {before : List Event}
    (hbefore : ∀ e ∈ before, e.choices.Works) (hothers : ∀ e ∈ others, e.choices.Works) :
    Conforms E c (exec E s before) others r ↔ Sound E c (exec E s before) others r :=
  conforms_good hc hothers (hinit.good.after hbefore)

end Update

section Samples

/-- The body of a new token. -/
def fresh : Stateful := { token := "", permissions := ["present"] }

/-- It is put under a name that no token has. -/
def creation : Request := { group := "room", token := "new", body := .token fresh }

/-- And in the place of the invitation. -/
def replacement : Request := { group := "room", token := "abc", body := .token fresh }

theorem not_conforms : ¬ ∀ (E : Encoding) (c : Choices) (s : State) (before others : List Event)
    (r : Request), c.Works → s.Initial → (∀ e ∈ before, e.choices.Works) →
    (∀ e ∈ others, e.choices.Works) → Conforms E c (exec E s before) others r := by
  intro h
  have hconforms := h plain (calm 2) opened [] [] creation (calm_works 2) opened_initial
    (fun e he => by cases he) fun e he => by cases he
  exact hconforms.1 (by decide +kernel)

theorem conforms_replacement : Conforms plain (calm 2) (exec plain opened []) [] replacement := by
  refine (conforms_iff_sound (calm_works 2) opened_initial (fun e he => by cases he)
    fun e he => by cases he).mpr ⟨fun _ _ => ?_, fun _ hwritten => ?_⟩
  · decide +kernel
  · obtain ⟨a, e, b, hsplit, -⟩ := hwritten
    simp at hsplit

end Samples

end Sozvon.TokenRequests
