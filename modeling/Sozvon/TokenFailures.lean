import Sozvon.TokenStore

/-!
# Operations on tokens that fail

An operation changes the tokens in memory first and the file afterwards. What
comes of it where that fails depends on whether the tokens are put back, and on
whether the `load` inside `rewrite` has dropped them in the meantime.
-/
namespace Sozvon.Token

section Definitions

inductive Op where
  | update (t : Stateful) (etag : String)
  | delete (token : String) (etag : String)
  | expire (now : ℤ)

def Result.forget {α : Type} : Result α → Result Unit
  | .ok _ => .ok ()
  | .error e => .error e
  | .panic => .panic

def Op.run (E : Encoding) (c : Choices) (s : State) : Op → State × Result Unit
  | .update t etag => ((s.update E c t etag).1, (s.update E c t etag).2.forget)
  | .delete token etag => ((s.delete E c token etag).1, (s.delete E c token etag).2.forget)
  | .expire now => s.expire E c now

/-- Two lists of tokens, or two failures to list them. -/
def Listed : Except Error (List Stateful × String) → Except Error (List Stateful × String) → Prop
  | .ok a, .ok b => a.1.Perm b.1
  | .error e, .error e' => e = e'
  | .ok _, .error _ | .error _, .ok _ => False

/-- While the file system works, `Get` and `List` return the same tokens in both states. -/
structure Unchanged (s s' : State) : Prop where
  get : ∀ token, (s'.get {} token).2.map (·.1) = (s.get {} token).2.map (·.1)
  list : ∀ (order order' : Order) group,
    Listed (s'.list {} order' group false).2 (s.list {} order group false).2

/-- An operation that returns an error leaves the tokens as they were, and does not panic. -/
def Leaves {α : Type} (s : State) : State × Result α → Prop
  | (_, .ok _) => True
  | (s', .error _) => Unchanged s s'
  | (_, .panic) => False

def Atomic (E : Encoding) (c : Choices) (s : State) (op : Op) : Prop := Leaves s (op.run E c s)

/-- The tokens in memory, as long as they are taken for those of the file, are. -/
def State.Honest (s : State) : Prop :=
  ∀ f, s.disk = some f → s.Hit f → f.garbled = false ∧ (s.tokens.getD ∅).entries.Perm f.read.entries

/-- After a `load` that left `s`: only such steps fail as the operation is prepared for. -/
def Op.Prepared (c : Choices) (s : State) : Op → Prop
  | .update t etag =>
      if t.token ∈ s.tokens.getD ∅ then etag = s.etag → c.createTemp = true ∨ c.list.stat = false
      else etag = "" → c.mkdirAll = false → c.openAppend = false → ∀ k, c.append = some k → k = 0
  | .delete token etag =>
      token ∈ s.tokens.getD ∅ → etag = s.etag → ((s.tokens.getD ∅).erase token).entries ≠ [] →
        c.createTemp = true ∨ c.list.stat = false
  | .expire now =>
      (∃ t ∈ State.values (s.tokens.getD ∅), State.Expired now t) →
        if (State.live now (s.tokens.getD ∅)).entries = [] then c.remove = false
        else c.createTemp = false ∧ if c.list.stat then s.Honest
          else c.encode = false ∧ c.close = false ∧ c.rename = false

def Op.Safe (c : Choices) (s : State) (op : Op) : Prop :=
  s.filename ≠ "" → (c.load.stat = true → s.Honest) ∧
    ∀ s₁ etag, s.load c.load = (s₁, .ok etag) → op.Prepared c s₁

/-- What `Get` and `List` see while the file system works. -/
def State.current (s : State) : Except Error Tokens :=
  match s.load {} with
  | (s, .ok _) => .ok (s.tokens.getD ∅)
  | (_, .error e) => .error e

/-- And what they would see in the file. -/
def State.onDisk (s : State) : Except Error Tokens :=
  match s.disk with
  | none => .ok ∅
  | some f => if f.garbled then .error .syntaxError else .ok f.read

def Agree : Except Error Tokens → Except Error Tokens → Prop
  | .ok ts, .ok ts' => ts.entries.Perm ts'.entries
  | .error e, .error e' => e = e'
  | .ok _, .error _ | .error _, .ok _ => False

end Definitions

section Agree
variable {a b c : Except Error Tokens} {ts ts' : Tokens}

theorem agree_ok : Agree (.ok ts) (.ok ts') ↔ ts.entries.Perm ts'.entries := Iff.rfl

theorem agree_refl (a : Except Error Tokens) : Agree a a := by
  cases a with
  | ok ts => exact List.Perm.refl _
  | error e => exact Eq.refl e

theorem Agree.symm (h : Agree a b) : Agree b a := by
  cases a <;> cases b
  · exact Eq.symm h
  · exact False.elim h
  · exact False.elim h
  · exact List.Perm.symm h

theorem agree_of_lookup (h : ∀ token, ts.lookup token = ts'.lookup token) : Agree (.ok ts) (.ok ts') := by
  refine List.lookup_ext ts.nodupKeys ts'.nodupKeys fun token t => ?_
  exact iff_of_eq (congrArg (t ∈ ·) (h token))

theorem lookup_of_agree (h : Agree (.ok ts) (.ok ts')) (token : String) :
    ts.lookup token = ts'.lookup token := AList.perm_lookup h

end Agree

section Load
variable {s s₁ : State} {fault : LoadFaults} {e : Error} {etag : String} {f : File}

theorem current_of_hit (hname : s.filename ≠ "") (hdisk : s.disk = some f) (hhit : s.Hit f) :
    s.current = .ok (s.tokens.getD ∅) := by
  simp [State.current, State.load, hname, hdisk, hhit]

theorem current_of_miss (hname : s.filename ≠ "") (hmiss : ∀ f, s.disk = some f → ¬ s.Hit f) :
    s.current = s.onDisk := by
  unfold State.current State.onDisk State.load
  cases hdisk : s.disk with
  | none => simp [hname, State.reset]
  | some f => cases hgarbled : f.garbled <;> simp [hname, hmiss f hdisk, hgarbled]

/-- After a reset the file is read again. -/
theorem current_reset (hname : s.filename ≠ "") : s.reset.current = s.onDisk := by
  by_cases hhit : ∃ f, s.disk = some f ∧ s.reset.Hit f
  · obtain ⟨f, hdisk, hhit⟩ := hhit
    obtain ⟨hlines, hgarbled⟩ := f.empty hhit.2.symm
    rw [current_of_hit (s := s.reset) hname hdisk hhit]
    simp [State.onDisk, hdisk, hgarbled, File.read, hlines, State.reset]
  · have hmiss : ∀ f, s.reset.disk = some f → ¬ s.reset.Hit f := fun f hdisk h => hhit ⟨f, hdisk, h⟩
    rw [current_of_miss (s := s.reset) hname hmiss]
    rfl

theorem onDisk_error (h : s.onDisk = .error e) : e = .syntaxError := by
  unfold State.onDisk at h
  split at h
  · cases h
  · split at h <;> cases h
    rfl

theorem current_error (h : s.current = .error e) : e = .syntaxError := by
  by_cases hname : s.filename = ""
  · simp [State.current, State.load, hname] at h
  by_cases hhit : ∃ f, s.disk = some f ∧ s.Hit f
  · obtain ⟨f, hdisk, hhit⟩ := hhit
    rw [current_of_hit hname hdisk hhit] at h
    cases h
  · rw [current_of_miss hname fun f hdisk hf => hhit ⟨f, hdisk, hf⟩] at h
    exact onDisk_error h

theorem honest_iff (hname : s.filename ≠ "") : s.Honest ↔ Agree s.current s.onDisk := by
  by_cases hhit : ∃ f, s.disk = some f ∧ s.Hit f
  · obtain ⟨f, hdisk, hhit⟩ := hhit
    rw [current_of_hit hname hdisk hhit]
    constructor
    · intro h
      obtain ⟨hgarbled, hperm⟩ := h f hdisk hhit
      simp only [State.onDisk, hdisk, hgarbled]
      exact hperm
    · intro h f' hdisk' _
      obtain rfl : f = f' := Option.some.inj (hdisk.symm.trans hdisk')
      cases hgarbled : f.garbled with
      | true =>
          simp only [State.onDisk, hdisk, hgarbled, if_true] at h
          exact False.elim h
      | false =>
          simp only [State.onDisk, hdisk, hgarbled] at h
          exact ⟨rfl, h⟩
  · have hmiss : ∀ f, s.disk = some f → ¬ s.Hit f := fun f hdisk h => hhit ⟨f, hdisk, h⟩
    rw [current_of_miss hname hmiss]
    exact iff_of_true (fun f hdisk h => absurd h (hmiss f hdisk)) (agree_refl _)

/-- What is true after a successful `load`. -/
structure Loaded (s s₁ : State) : Prop where
  filename : s₁.filename = s.filename
  disk : s₁.disk = s.disk
  current : s.current = .ok (s₁.tokens.getD ∅)
  hit : ∀ f, s.disk = some f → s₁.Hit f
  missing : s.disk = none → s₁ = s.reset
  honest : s₁.Honest ↔ s.Honest

/-- A `load` fails with the state reset, and so that nothing is lost with that, or it succeeds. -/
theorem load_cases (hname : s.filename ≠ "") (fault : LoadFaults) :
    ((∃ e, s.load fault = (s.reset, .error e)) ∧
      (fault.stat = true ∨ ∀ f, s.disk = some f → ¬ s.Hit f)) ∨
    fault.stat = false ∧ ∃ s₁ etag, s.load fault = (s₁, .ok etag) ∧ Loaded s s₁ := by
  unfold State.load
  rw [if_neg hname]
  cases hstat : fault.stat with
  | true => exact .inl ⟨⟨_, rfl⟩, .inl rfl⟩
  | false =>
  simp only [Bool.false_eq_true, if_false]
  cases hdisk : s.disk with
  | none =>
      refine .inr ⟨trivial, _, _, rfl, ⟨rfl, rfl, ?_, ?_, fun _ => rfl, ?_⟩⟩
      · rw [current_of_miss hname (by simp [hdisk])]
        simp [State.onDisk, hdisk, State.reset]
      · simp [hdisk]
      · refine iff_of_true ?_ ?_ <;> intro f hf
        · exact absurd (hdisk.symm.trans hf) nofun
        · exact absurd (hdisk.symm.trans hf) nofun
  | some f =>
      dsimp only
      split
      · rename_i hhit
        refine .inr ⟨trivial, _, _, rfl, ⟨rfl, rfl, current_of_hit hname hdisk hhit, ?_, ?_, Iff.rfl⟩⟩
        · intro f' hf
          obtain rfl : f = f' := Option.some.inj (hdisk.symm.trans hf)
          exact hhit
        · intro hnone
          exact absurd (hdisk.symm.trans hnone) nofun
      rename_i hhit
      have hmiss : ∀ f', some f = some f' → ¬ s.Hit f' := by
        rintro f' ⟨⟩
        exact hhit
      split
      · exact .inl ⟨⟨_, rfl⟩, .inr hmiss⟩
      split
      · exact .inl ⟨⟨_, rfl⟩, .inr hmiss⟩
      split
      · exact .inl ⟨⟨_, rfl⟩, .inr hmiss⟩
      split
      · exact .inl ⟨⟨_, rfl⟩, .inr hmiss⟩
      rename_i hgarbled _
      have hgarbled' : f.garbled = false := by simpa using hgarbled
      refine .inr ⟨trivial, _, _, rfl, ⟨rfl, hdisk.symm, ?_, ?_, ?_, ?_⟩⟩
      · rw [current_of_miss hname (hdisk ▸ hmiss)]
        simp [State.onDisk, hdisk, hgarbled']
      · intro f' hf
        obtain rfl : f = f' := Option.some.inj (hdisk.symm.trans hf)
        exact ⟨rfl, rfl⟩
      · intro hnone
        exact absurd (hdisk.symm.trans hnone) nofun
      · refine iff_of_true ?_ fun f' hf h => absurd h (hmiss f' (hdisk.symm.trans hf))
        intro f' hf _
        obtain rfl : f = f' := Option.some.inj hf
        exact ⟨hgarbled', List.Perm.refl _⟩

end Load

section Unchanged
variable {s s' : State}

theorem get_current (s : State) (token : String) : (s.get {} token).2.map (·.1) =
    s.current.bind fun ts => match ts.lookup token with
      | none => .error .notExist
      | some t => .ok t := by
  unfold State.get State.current
  cases hload : s.load {} with
  | mk s₁ r =>
      cases r with
      | error e => rfl
      | ok etag =>
          dsimp only [Except.bind]
          cases hlookup : (s₁.tokens.getD ∅).lookup token <;> rfl

theorem list_current (s : State) (order : Order) (group : String) :
    (s.list {} order group false).2.map (·.1) = s.current.map fun ts =>
      order.sort ((State.values ts).filter fun t => t.group = group) := by
  unfold State.list State.current
  cases hload : s.load {} with
  | mk s₁ r =>
      cases r with
      | error e => simp [Except.map]
      | ok etag => simp [Except.map]

/-- `Get` and `List` tell no more than what is current. -/
theorem unchanged_iff : Unchanged s s' ↔ Agree s.current s'.current := by
  constructor
  · rintro ⟨hget, -⟩
    simp only [get_current] at hget
    cases hs : s.current with
    | error e =>
        obtain rfl := current_error hs
        cases hs' : s'.current with
        | error e' => exact (current_error hs').symm
        | ok ts' =>
            rw [hs, hs'] at hget
            have hnone := hget ""
            dsimp only [Except.bind] at hnone
            split at hnone <;> cases hnone
    | ok ts =>
        cases hs' : s'.current with
        | error e' =>
            obtain rfl := current_error hs'
            rw [hs, hs'] at hget
            have hnone := hget ""
            dsimp only [Except.bind] at hnone
            split at hnone <;> cases hnone
        | ok ts' =>
            refine agree_of_lookup fun token => ?_
            have hsame := hget token
            rw [hs, hs'] at hsame
            dsimp only [Except.bind] at hsame
            cases h : ts.lookup token <;> cases h' : ts'.lookup token <;> simp_all
  · intro h
    constructor
    · intro token
      rw [get_current, get_current]
      cases hs : s.current <;> cases hs' : s'.current <;> rw [hs, hs'] at h
      · obtain rfl : _ = _ := h
        rfl
      · exact False.elim h
      · exact False.elim h
      · dsimp only [Except.bind]
        rw [lookup_of_agree h]
    · intro order order' group
      have hlist := list_current s order group
      have hlist' := list_current s' order' group
      generalize (s.list {} order group false).2 = r at hlist ⊢
      generalize (s'.list {} order' group false).2 = r' at hlist' ⊢
      cases hs : s.current with
      | error e =>
          cases hs' : s'.current with
          | ok ts' =>
              rw [hs, hs'] at h
              exact False.elim h
          | error e' =>
              rw [hs, hs'] at h
              obtain rfl : e = e' := h
              rw [hs] at hlist
              rw [hs'] at hlist'
              cases r <;> cases hlist
              cases r' <;> cases hlist'
              exact rfl
      | ok ts =>
          cases hs' : s'.current with
          | error e' =>
              rw [hs, hs'] at h
              exact False.elim h
          | ok ts' =>
              rw [hs, hs', agree_ok] at h
              rw [hs] at hlist
              rw [hs'] at hlist'
              cases r with
              | error e => cases hlist
              | ok a =>
                  cases r' with
                  | error e => cases hlist'
                  | ok a' =>
                      have ha : a.1 = _ := Except.ok.inj hlist
                      have ha' : a'.1 = _ := Except.ok.inj hlist'
                      rw [Listed, ha, ha']
                      exact (order'.perm _).trans (((h.map _).filter _).symm.trans (order.perm _).symm)

end Unchanged

section Rewrite
variable {E : Encoding} {c : Choices} {s : State} {f : File}

/-- What comes of a `rewrite` while the file has not changed since it was read. -/
inductive Rewritten (c : Choices) (s : State) : State × Except Error Unit → Prop
  | written (s' : State)
      (emptied : (s.tokens.getD ∅).entries = [] → c.remove = false)
      (renamed : (s.tokens.getD ∅).entries ≠ [] → c.createTemp = false ∧ c.list.stat = false ∧
        c.encode = false ∧ c.close = false ∧ c.rename = false) : Rewritten c s (s', .ok ())
  | kept
      (emptied : (s.tokens.getD ∅).entries = [] → c.remove = true)
      (renamed : (s.tokens.getD ∅).entries ≠ [] → c.createTemp = true ∨ c.list.stat = false ∧
        (c.encode = true ∨ c.close = true ∨ c.rename = true)) : Rewritten c s (s, .error .failed)
  | dropped (some : (s.tokens.getD ∅).entries ≠ []) (temp : c.createTemp = false)
      (stat : c.list.stat = true) : Rewritten c s (s.reset, .error .failed)

theorem rewritten_rewrite (hname : s.filename ≠ "") (hdisk : s.disk = some f) (hhit : s.Hit f) :
    Rewritten c s (s.rewrite E c) := by
  unfold State.rewrite
  split
  · rename_i hgone
    split
    · rename_i hremove
      exact .kept (fun _ => hremove) (absurd hgone)
    · rename_i hremove
      exact .written _ (fun _ => by simpa using hremove) (absurd hgone)
  rename_i hsome
  split
  · rename_i htemp
    exact .kept (fun hgone => absurd hgone hsome) fun _ => .inl htemp
  rename_i htemp
  have htemp' : c.createTemp = false := by simpa using htemp
  have hlist : s.list c.list c.order "" true = if c.list.stat then (s.reset, .error .failed)
      else (s, .ok (c.order.sort (State.values (s.tokens.getD ∅)), s.etag)) := by
    unfold State.list State.load
    cases hstat : c.list.stat <;> simp [hname, hdisk, hhit]
  rw [hlist]
  cases hstat : c.list.stat with
  | true => exact .dropped hsome htemp' hstat
  | false =>
      simp only [Bool.false_eq_true, if_false]
      split
      · rename_i hfails
        refine .kept (fun hgone => absurd hgone hsome) fun _ => .inr ⟨hstat, ?_⟩
        simpa [or_assoc] using hfails
      · rename_i hfails
        have hworks : c.encode = false ∧ c.close = false ∧ c.rename = false := by
          simpa [and_assoc] using hfails
        split
        · exact .written _ (fun hgone => absurd hgone hsome) fun _ => ⟨htemp', hstat, hworks⟩
        · exact .written _ (fun hgone => absurd hgone hsome) fun _ => ⟨htemp', hstat, hworks⟩

/-- A token put back is as before. -/
theorem lookup_putBack {ts ts' : Tokens} {token : String} {old : Stateful}
    (hold : ts.lookup token = some old) (hother : ∀ k ≠ token, ts'.lookup k = ts.lookup k) :
    Agree (.ok ts) (.ok (ts'.insert token old)) := by
  refine agree_of_lookup fun k => ?_
  by_cases hk : k = token
  · subst k
    rw [AList.lookup_insert, hold]
  · rw [AList.lookup_insert_ne hk, hother k hk]

end Rewrite

section Operations
variable {E : Encoding} {c : Choices} {s s₁ : State}

/-- Changing the tokens of a state whose file is taken for read changes what is current. -/
theorem current_with (h : Loaded s s₁) (hname : s.filename ≠ "") {f : File} (hdisk : s.disk = some f)
    (ts : Tokens) : State.current { s₁ with tokens := some ts } = .ok ts := by
  refine current_of_hit (f := f) ?_ ?_ (h.hit f hdisk)
  · exact h.filename ▸ hname
  · exact h.disk.trans hdisk

theorem disk_of_mem (h : Loaded s s₁) {token : String} (hmem : token ∈ s₁.tokens.getD ∅) :
    ∃ f, s.disk = some f := by
  cases hdisk : s.disk with
  | some f => exact ⟨f, rfl⟩
  | none =>
      rw [h.missing hdisk] at hmem
      exact absurd hmem (AList.notMem_empty token)

/-- Where `load` fails, so does the operation, with the state reset. -/
theorem atomic_reset (hname : s.filename ≠ "") :
    Unchanged s s.reset ↔ s.Honest := by
  rw [unchanged_iff, current_reset hname, honest_iff hname]

theorem leaves_forget {α : Type} {r : State × Result α} : Leaves s (r.1, r.2.forget) ↔ Leaves s r := by
  obtain ⟨s', r⟩ := r
  cases r <;> exact Iff.rfl

theorem unchanged_refl (s : State) : Unchanged s s := unchanged_iff.mpr (agree_refl _)

theorem safe_error (hname : s.filename ≠ "") {e : Error} (hload : s.load c.load = (s.reset, .error e))
    (hcause : c.load.stat = true ∨ ∀ f, s.disk = some f → ¬ s.Hit f) (op : Op) :
    op.Safe c s ↔ s.Honest := by
  constructor
  · intro h
    rcases hcause with hstat | hmiss
    · exact (h hname).1 hstat
    · exact fun f hdisk hhit => absurd hhit (hmiss f hdisk)
  · intro h _
    refine ⟨fun _ => h, fun s₁ etag hok => ?_⟩
    rw [hload] at hok
    cases hok

theorem safe_ok (hname : s.filename ≠ "") {etag : String} (hstat : c.load.stat = false)
    (hload : s.load c.load = (s₁, .ok etag)) (op : Op) : op.Safe c s ↔ op.Prepared c s₁ := by
  constructor
  · exact fun h => (h hname).2 s₁ etag hload
  · intro h _
    refine ⟨fun hfault => absurd (hfault.symm.trans hstat) nofun, fun s₂ etag₂ hok => ?_⟩
    rw [hload] at hok
    cases hok
    exact h

/-- `Update` and `Delete` put back what they have changed, unless there is no map any more. -/
theorem leaves_rewrite (h : Loaded s s₁) (hname : s.filename ≠ "") {f : File} (hdisk : s.disk = some f)
    {ts : Tokens} {token : String} {old a : Stateful} {r : State × Except Error Unit}
    (hr : Rewritten c { s₁ with tokens := some ts } r)
    (hold : (s₁.tokens.getD ∅).lookup token = some old)
    (hother : ∀ k ≠ token, ts.lookup k = (s₁.tokens.getD ∅).lookup k) :
    Leaves s (State.finish token old a r) ↔
        (ts.entries ≠ [] → c.createTemp = true ∨ c.list.stat = false) := by
  cases hr with
  | written s' emptied renamed =>
      exact iff_of_true trivial fun hsome => .inr (renamed hsome).2.1
  | kept emptied renamed =>
      refine iff_of_true ?_ fun hsome => (renamed hsome).imp_right fun h => h.1
      dsimp only [State.finish, State.putBack, Leaves]
      rw [unchanged_iff, h.current, current_with h hname hdisk]
      exact lookup_putBack hold hother
  | dropped hsome temp stat =>
      refine iff_of_false (fun h => h) fun hok => ?_
      rcases hok hsome with htemp | hstat
      · exact absurd (htemp.symm.trans temp) nofun
      · exact absurd (hstat.symm.trans stat) nofun

/-- A map for the tokens, and an empty file, may be made: that changes nothing. -/
theorem unchanged_made (h : Loaded s s₁) (hname : s.filename ≠ "") {disk : Option File} (m : ℤ)
    (hdisk : disk = s.disk ∨ s.disk = none ∧ disk = some (.created m)) :
    Unchanged s { s₁ with tokens := some (s₁.tokens.getD ∅), disk } := by
  have hname₁ : s₁.filename ≠ "" := h.filename ▸ hname
  rw [unchanged_iff, h.current]
  cases hs : s.disk with
  | some f =>
      have hdisk' : disk = some f := by
        rcases hdisk with rfl | ⟨hnone, -⟩
        · exact hs
        · exact absurd (hs.symm.trans hnone) nofun
      have hhit : State.Hit { s₁ with tokens := some (s₁.tokens.getD ∅), disk } f := h.hit f hs
      rw [current_of_hit (s := { s₁ with tokens := _, disk }) hname₁ hdisk' hhit]
      exact agree_refl _
  | none =>
      have htokens : s₁.tokens = none := by
        rw [h.missing hs]
        rfl
      rw [htokens]
      have hread : ∀ f, disk = some f → f = .created m := by
        intro f hf
        rcases hdisk with rfl | ⟨-, rfl⟩
        · exact absurd (hs.symm.trans hf) nofun
        · exact (Option.some.inj hf).symm
      generalize ht : ({ s₁ with tokens := some (Option.getD none ∅), disk } : State) = t
      have hnamet : t.filename ≠ "" := ht ▸ hname₁
      have hdiskt : t.disk = disk := ht ▸ rfl
      by_cases hhit : ∃ f, t.disk = some f ∧ t.Hit f
      · obtain ⟨f, hf, hhit⟩ := hhit
        rw [current_of_hit hnamet hf hhit, ← ht]
        exact agree_refl _
      · rw [current_of_miss hnamet fun f hf h => hhit ⟨f, hf, h⟩, State.onDisk, hdiskt]
        cases hcases : disk with
        | none => exact agree_refl _
        | some f =>
            rw [hread f hcases]
            exact agree_refl _

theorem unchanged_loaded (h : Loaded s s₁) (hname : s.filename ≠ "") : Unchanged s s₁ := by
  rw [unchanged_iff, h.current]
  cases hdisk : s.disk with
  | some f =>
      rw [current_of_hit (h.filename ▸ hname) (h.disk.trans hdisk) (h.hit f hdisk)]
      exact agree_refl _
  | none =>
      rw [h.missing hdisk, current_reset hname, State.onDisk, hdisk]
      exact agree_refl _

/-- A line that is cut short spoils the file, or its token is in the file after all. -/
theorem not_unchanged_cut (h : Loaded s s₁) (hname : s.filename ≠ "") {t : Stateful}
    (hnone : (s₁.tokens.getD ∅).lookup t.token = none) {k : ℕ} (hk : k ≠ 0) :
    ¬ Unchanged s { s₁ with
      tokens := some (s₁.tokens.getD ∅)
      disk := some ((s.disk.getD (.created c.modTime)).append E t k c.modTime) } := by
  have hsize : s₁.fileSize = (s.disk.getD (.created c.modTime)).size := by
    cases hs : s.disk with
    | some f => exact (h.hit f hs).2
    | none =>
        rw [h.missing hs]
        rfl
  generalize s.disk.getD (.created c.modTime) = f at hsize ⊢
  rw [unchanged_iff, h.current, current_of_miss]
  · have happend : f.append E t k c.modTime = {
        lines := if E.len t ≤ k + 1 then f.lines ++ [t] else f.lines
        garbled := f.garbled || decide (k + 1 < E.len t)
        size := f.size + k, modTime := c.modTime
        empty := fun h => absurd (Nat.eq_zero_of_add_eq_zero_left h) hk } := by
      rw [File.append, dif_neg hk]
    rw [State.onDisk, happend]
    dsimp only
    split
    · exact fun h => h
    · rename_i hgarbled
      have hlen : E.len t ≤ k + 1 := by
        by_contra hlt
        exact hgarbled (by simp [Nat.lt_of_not_le hlt])
      intro hagree
      have hsame := lookup_of_agree hagree t.token
      rw [hnone] at hsame
      simp [File.read, hlen] at hsame
  · exact h.filename ▸ hname
  · intro f' hf hhit
    obtain rfl : f.append E t k c.modTime = f' := Option.some.inj hf
    have hsame : s₁.fileSize = (f.append E t k c.modTime).size := hhit.2
    rw [hsize, File.append, dif_neg hk] at hsame
    dsimp only at hsame
    omega

theorem leaves_add (h : Loaded s s₁) (hname : s.filename ≠ "") {t : Stateful}
    (hnone : (s₁.tokens.getD ∅).lookup t.token = none) :
    Leaves s (State.add { s₁ with tokens := some (s₁.tokens.getD ∅) } E c t) ↔
      (c.mkdirAll = false → c.openAppend = false → ∀ k, c.append = some k → k = 0) := by
  unfold State.add
  split
  · rename_i hopen
    refine iff_of_true (unchanged_made h hname 0 (.inl h.disk)) fun hdir hfile => ?_
    simp [hdir, hfile] at hopen
  rename_i hopen
  dsimp only
  cases happend : c.append with
  | none =>
      refine iff_of_true ?_ fun _ _ => nofun
      dsimp only
      split <;> trivial
  | some k =>
      have htwo := E.two_le t
      have hgoes : c.mkdirAll = false ∧ c.openAppend = false := by simpa using hopen
      dsimp only [Leaves]
      rw [h.disk]
      by_cases hk : k = 0
      · subst k
        refine iff_of_true ?_ fun _ _ k hk => (Option.some.inj hk).symm
        rw [Nat.zero_min, File.append, dif_pos rfl]
        refine unchanged_made h hname c.modTime ?_
        cases hs : s.disk with
        | none => exact .inr ⟨rfl, rfl⟩
        | some f => exact .inl rfl
      · refine iff_of_false (not_unchanged_cut h hname hnone (by omega)) fun hok => ?_
        exact hk (hok hgoes.1 hgoes.2 k rfl)

theorem leaves_update (t : Stateful) (etag : String) :
    Leaves s (s.update E c t etag) ↔ (Op.update t etag).Safe c s := by
  by_cases hname : s.filename = ""
  · refine iff_of_true ?_ fun h => absurd hname h
    unfold State.update
    rw [if_pos hname]
    exact unchanged_refl s
  rcases load_cases hname c.load with ⟨⟨e, hload⟩, hcause⟩ | ⟨hstat, s₁, etag₁, hload, h⟩
  · rw [safe_error hname hload hcause]
    unfold State.update
    rw [if_neg hname, hload]
    exact atomic_reset hname
  rw [safe_ok hname hstat hload]
  unfold State.update Op.Prepared
  rw [if_neg hname, hload]
  dsimp only
  have hmade : Unchanged s { s₁ with tokens := some (s₁.tokens.getD ∅) } :=
    unchanged_made h hname 0 (.inl h.disk)
  cases hlookup : (s₁.tokens.getD ∅).lookup t.token with
  | none =>
      rw [if_neg (AList.lookup_eq_none.mp hlookup)]
      dsimp only
      split
      · rename_i htag
        exact iff_of_true hmade fun h => absurd h htag
      · rename_i htag
        rw [leaves_add h hname hlookup]
        exact ⟨fun hok _ => hok, fun hok => hok (not_not.mp htag)⟩
  | some old =>
      have hin : t.token ∈ s₁.tokens.getD ∅ := AList.lookup_isSome.mp (by rw [hlookup]; rfl)
      obtain ⟨f, hdisk⟩ := disk_of_mem h hin
      rw [if_pos hin]
      dsimp only
      split
      · rename_i htag
        exact iff_of_true hmade fun h => absurd h htag
      · rename_i htag
        have hr : Rewritten c { s₁ with tokens := some ((s₁.tokens.getD ∅).insert t.token t) }
            (State.rewrite { s₁ with tokens := some ((s₁.tokens.getD ∅).insert t.token t) } E c) :=
          rewritten_rewrite (h.filename ▸ hname) (h.disk.trans hdisk) (h.hit f hdisk)
        rw [leaves_rewrite h hname hdisk hr hlookup fun k hk => AList.lookup_insert_ne hk]
        have hsome : ((s₁.tokens.getD ∅).insert t.token t).entries ≠ [] := by
          rw [AList.entries_insert]
          exact List.cons_ne_nil _ _
        exact ⟨fun hok _ => hok hsome, fun hok _ => hok (not_not.mp htag)⟩

theorem leaves_delete (token etag : String) :
    Leaves s (s.delete E c token etag) ↔ (Op.delete token etag).Safe c s := by
  by_cases hname : s.filename = ""
  · refine iff_of_true ?_ fun h => absurd hname h
    unfold State.delete
    rw [if_pos hname]
    exact unchanged_refl s
  rcases load_cases hname c.load with ⟨⟨e, hload⟩, hcause⟩ | ⟨hstat, s₁, etag₁, hload, h⟩
  · rw [safe_error hname hload hcause]
    unfold State.delete
    rw [if_neg hname, hload]
    exact atomic_reset hname
  rw [safe_ok hname hstat hload]
  unfold State.delete Op.Prepared
  rw [if_neg hname, hload]
  dsimp only
  cases hlookup : (s₁.tokens.getD ∅).lookup token with
  | none => exact iff_of_true (unchanged_loaded h hname) fun hin => absurd hin (AList.lookup_eq_none.mp hlookup)
  | some old =>
      have hin : token ∈ s₁.tokens.getD ∅ := AList.lookup_isSome.mp (by rw [hlookup]; rfl)
      obtain ⟨f, hdisk⟩ := disk_of_mem h hin
      dsimp only
      split
      · rename_i htag
        exact iff_of_true (unchanged_loaded h hname) fun _ h => absurd h htag
      · rename_i htag
        have hr : Rewritten c { s₁ with tokens := some ((s₁.tokens.getD ∅).erase token) }
            (State.rewrite { s₁ with tokens := some ((s₁.tokens.getD ∅).erase token) } E c) :=
          rewritten_rewrite (h.filename ▸ hname) (h.disk.trans hdisk) (h.hit f hdisk)
        rw [leaves_rewrite h hname hdisk hr hlookup fun k hk => AList.lookup_erase_ne hk]
        exact ⟨fun hok _ _ => hok, fun hok => hok hin (not_not.mp htag)⟩

theorem lookup_live {now : ℤ} {ts : Tokens} {t : Stateful} (hmem : t ∈ State.values ts)
    (hexpired : State.Expired now t) : ¬ Agree (.ok ts) (.ok (State.live now ts)) := by
  intro hagree
  have hvalues : (State.values ts).Perm (State.values (State.live now ts)) := hagree.map _
  obtain ⟨e, he, rfl⟩ := List.mem_map.mp (hvalues.mem_iff.mp hmem)
  exact of_decide_eq_true (List.mem_filter.mp he).2 hexpired

/-- `Expire` puts nothing back. -/
theorem leaves_expire (now : ℤ) : Leaves s (s.expire E c now) ↔ (Op.expire now).Safe c s := by
  by_cases hname : s.filename = ""
  · refine iff_of_true ?_ fun h => absurd hname h
    unfold State.expire State.load
    rw [if_pos hname]
    exact trivial
  rcases load_cases hname c.load with ⟨⟨e, hload⟩, hcause⟩ | ⟨hstat, s₁, etag₁, hload, h⟩
  · rw [safe_error hname hload hcause]
    unfold State.expire
    rw [hload]
    exact atomic_reset hname
  rw [safe_ok hname hstat hload]
  unfold State.expire Op.Prepared
  rw [hload]
  dsimp only
  split
  case isFalse => exact iff_of_true trivial fun hexpired => absurd hexpired ‹_›
  rename_i hexpired
  obtain ⟨t, hmem, ht⟩ := hexpired
  have hdisk : ∃ f, s.disk = some f := by
    cases hdisk : s.disk with
    | some f => exact ⟨f, rfl⟩
    | none =>
        rw [h.missing hdisk] at hmem
        cases hmem
  obtain ⟨f, hdisk⟩ := hdisk
  have hr : Rewritten c { s₁ with tokens := some (State.live now (s₁.tokens.getD ∅)) }
      (State.rewrite { s₁ with tokens := some (State.live now (s₁.tokens.getD ∅)) } E c) :=
    rewritten_rewrite (h.filename ▸ hname) (h.disk.trans hdisk) (h.hit f hdisk)
  generalize State.rewrite { s₁ with tokens := some (State.live now (s₁.tokens.getD ∅)) } E c = r at hr ⊢
  cases hr with
  | written s' emptied renamed =>
      refine iff_of_true trivial fun _ => ?_
      split
      · rename_i hgone
        exact emptied hgone
      · rename_i hsome
        obtain ⟨htemp, hstat, hworks⟩ := renamed hsome
        rw [hstat]
        exact ⟨htemp, hworks⟩
  | kept emptied renamed =>
      refine iff_of_false ?_ fun hok => ?_
      · dsimp only [Leaves]
        rw [unchanged_iff, h.current, current_with h hname hdisk]
        exact lookup_live hmem ht
      · have hfails := hok ⟨t, hmem, ht⟩
        split at hfails
        · rename_i hgone
          exact absurd (hfails.symm.trans (emptied hgone)) nofun
        · rename_i hsome
          obtain ⟨htemp, hrest⟩ := hfails
          rcases renamed hsome with htemp' | ⟨hstat, hfault⟩
          · exact absurd (htemp.symm.trans htemp') nofun
          · rw [hstat] at hrest
            obtain ⟨hencode, hclose, hrename⟩ := hrest
            rcases hfault with hfault | hfault | hfault
            · exact absurd (hencode.symm.trans hfault) nofun
            · exact absurd (hclose.symm.trans hfault) nofun
            · exact absurd (hrename.symm.trans hfault) nofun
  | dropped hsome temp stat =>
      have hreset : Leaves s ((s₁.reset : State), (.error .failed : Result Unit)) ↔ s₁.Honest := by
        dsimp only [Leaves]
        rw [unchanged_iff, current_reset (h.filename ▸ hname), h.honest, honest_iff hname]
        unfold State.onDisk
        rw [h.disk]
      have hsome' : (State.live now (s₁.tokens.getD ∅)).entries ≠ [] := hsome
      refine hreset.trans ⟨fun honest _ => ?_, fun hok => ?_⟩
      · rw [if_neg hsome', stat]
        exact ⟨temp, honest⟩
      · have hall := hok ⟨t, hmem, ht⟩
        rw [if_neg hsome', stat] at hall
        exact hall.2

/-- Every operation, from every state and whatever steps of it fail, is atomic if and only if
it is safe. -/
theorem atomic_iff_safe (E : Encoding) (c : Choices) (s : State) (op : Op) :
    Atomic E c s op ↔ op.Safe c s := by
  cases op with
  | update t etag => exact leaves_forget.trans (leaves_update t etag)
  | delete token etag => exact leaves_forget.trans (leaves_delete token etag)
  | expire now => exact leaves_expire now

end Operations

section Samples

/-- The line of a token without optional fields is `{"token":"...","group":"...","permissions":null}`. -/
def plain : Encoding where
  len t := t.token.length + t.group.length + 43
  two_le t := by omega

def byExpiry : Order where
  sort l := l.mergeSort fun a b => !less b a
  perm l := List.mergeSort_perm l _
  sorted l := by
    refine (List.pairwise_mergeSort ?_ ?_ l).imp fun h => by simpa using h
    · intro a b d hab hbd
      cases ha : a.expires <;> cases hb : b.expires <;> cases hd : d.expires <;>
        simp_all [less]
      omega
    · intro a b
      cases ha : a.expires <;> cases hb : b.expires <;> simp [less, ha, hb]
      omega

def invitation : Stateful := { token := "abc", group := "room" }

/-- A store that has read its file, with the invitation in it. -/
def stored : State :=
  (State.load { filename := "tokens.jsonl", disk := some (.ofTokens plain [invitation] 1) } {}).1

/-- The file cannot be looked at while it is being rewritten. -/
def blind : Choices := { list := { stat := true }, order := byExpiry, modTime := 2 }

theorem not_atomic : ¬ ∀ (E : Encoding) (c : Choices) (s : State) (op : Op), Atomic E c s op := by
  intro h
  have hpanic : Op.run plain blind stored (.update { invitation with link := true } stored.etag) =
      (_, .panic) := rfl
  have hfalse := h plain blind stored (.update { invitation with link := true } stored.etag)
  rw [Atomic, hpanic] at hfalse
  exact hfalse

end Samples

end Sozvon.Token
