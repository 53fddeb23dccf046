import Std.Data.String.ToNat
import Std.Data.String.ToInt
import Mathlib.Data.List.Induction
import Sozvon.TokenFailures

/-!
# Tokens in memory and on disk

Runs of the store while the file system works and nobody else writes the file.
An etag is a stamp of the file, its size and its modification time, and is worth
as much as the stamps of different writes differ.
-/
namespace Sozvon.Token

section Definitions

/-- Nothing fails. -/
structure Choices.Works (c : Choices) : Prop where
  load : c.load = {}
  mkdirAll : c.mkdirAll = false
  openAppend : c.openAppend = false
  append : c.append = none
  statAppended : c.statAppended = false
  remove : c.remove = false
  createTemp : c.createTemp = false
  list : c.list = {}
  encode : c.encode = false
  close : c.close = false
  rename : c.rename = false
  statRenamed : c.statRenamed = false

inductive Call where
  | get (token : String)
  | list (group : String)
  | store (op : Op)

def Result.ofExcept {α : Type} : Except Error α → Result Unit
  | .ok _ => .ok ()
  | .error e => .error e

variable (E : Encoding)

def Call.run (c : Choices) (s : State) : Call → State × Result Unit
  | .get token => ((s.get c.load token).1, .ofExcept (s.get c.load token).2)
  | .list group =>
      ((s.list c.load c.order group false).1, .ofExcept (s.list c.load c.order group false).2)
  | .store op => op.run E c s

/-- A call, with what is not determined about it. -/
structure Event where
  call : Call
  choices : Choices

def Event.run (s : State) (e : Event) : State × Result Unit := e.call.run E e.choices s

def Event.Succeeds (s : State) (e : Event) : Prop := (e.run E s).2 = .ok ()

/-- The state after these calls of any callers. -/
def exec (s : State) (es : List Event) : State := es.foldl (fun s e => (e.run E s).1) s

/-- What a successful call makes of the tokens. -/
def Call.effect (ts : Tokens) : Call → Tokens
  | .get _ => ts
  | .list _ => ts
  | .store (.update t _) => ts.insert t.token t
  | .store (.delete token _) => ts.erase token
  | .store (.expire now) => State.live now ts

/-- A successful call writes the file. -/
def Call.Writes (ts : Tokens) : Call → Prop
  | .get _ => False
  | .list _ => False
  | .store (.update _ _) => True
  | .store (.delete _ _) => True
  | .store (.expire now) => ∃ t ∈ State.values ts, State.Expired now t

/-- An `Update` or a `Delete`, with this etag, of a token that exists. -/
def Call.Changes (ts : Tokens) (tag : String) : Call → Prop
  | .get _ => False
  | .list _ => False
  | .store (.update t etag) => t.token ∈ ts ∧ etag = tag
  | .store (.delete token etag) => token ∈ ts ∧ etag = tag
  | .store (.expire _) => False

/-- The tokens that reading the file afresh gives, none if it cannot be read. -/
def State.read (s : State) : Tokens :=
  match s.onDisk with
  | .ok ts => ts
  | .error _ => ∅

/-- The size and the modification time of the file. -/
def State.stamp (s : State) : Option (ℕ × ℤ) := s.disk.map fun f => (f.size, f.modTime)

/-- Every write gives the file a stamp that it has not had just before. -/
def StampsChange (s : State) (es : List Event) : Prop :=
  ∀ a e b, es = a ++ e :: b → e.Succeeds E (exec E s a) → e.call.Writes (exec E s a).read →
    ∀ stamp ∈ (exec E s (a ++ [e])).stamp, stamp ∉ (exec E s a).stamp

/-- Every write gives the file a stamp that it has never had, with a time that is not zero. -/
def StampsNew (s : State) (es : List Event) : Prop :=
  ∀ a e b, es = a ++ e :: b → e.Succeeds E (exec E s a) → e.call.Writes (exec E s a).read →
    ∀ stamp ∈ (exec E s (a ++ [e])).stamp, stamp.2 ≠ 0 ∧
      ∀ before, before <+: a → stamp ∉ (exec E s before).stamp

/-- `SetStatefulFilename`, with whatever there is of that name. -/
structure State.Initial (s : State) : Prop where
  fileSize : s.fileSize = 0
  modTime : s.modTime = 0
  tokens : s.tokens = none
  unnamed : s.filename = "" → s.disk = none

/-- `Get` answers from what the file says. -/
def State.Reads (s : State) : Prop :=
  ∀ token, (s.get {} token).2.map (·.1) = s.onDisk.bind fun ts =>
    match ts.lookup token with
    | none => .error .notExist
    | some t => .ok t

/-- Memory and file agree after every call, a call that succeeds has its effect and no other, one
that fails has none. -/
def InStep (s : State) (es : List Event) : Prop :=
  ∀ a e b, es = a ++ e :: b → (exec E s (a ++ [e])).Reads ∧
    (e.Succeeds E (exec E s a) → ∃ ts ts', (exec E s a).onDisk = .ok ts ∧
      (exec E s (a ++ [e])).onDisk = .ok ts' ∧
      ∀ token, ts'.lookup token = (e.call.effect ts).lookup token) ∧
    (¬ e.Succeeds E (exec E s a) → (exec E s (a ++ [e])).disk = (exec E s a).disk)

/-- Of two changes of existing tokens with one etag, at most one succeeds. -/
def AtMostOne (s : State) (es : List Event) : Prop :=
  ∀ a e b e' d tag, es = a ++ e :: b ++ e' :: d →
    e.call.Changes (exec E s a).read tag → e'.call.Changes (exec E s (a ++ e :: b)).read tag →
    ¬ (e.Succeeds E (exec E s a) ∧ e'.Succeeds E (exec E s (a ++ e :: b)))

end Definitions

/-! ## What a file says -/

section Files
variable {ts ts' : Tokens} {a : List Stateful} {f : File}

/-- Tokens are filed under their names. -/
def Keyed (ts : Tokens) : Prop := ∀ token t, ts.lookup token = some t → t.token = token

theorem Keyed.insert (h : Keyed ts) (t : Stateful) : Keyed (ts.insert t.token t) := by
  intro token t' hlookup
  by_cases hk : token = t.token
  · subst hk
    rw [AList.lookup_insert] at hlookup
    rw [← Option.some.inj hlookup]
  · rw [AList.lookup_insert_ne hk] at hlookup
    exact h token t' hlookup

theorem Keyed.agree (h : Keyed ts) (hagree : Agree (.ok ts) (.ok ts')) : Keyed ts' := by
  intro token t hlookup
  rw [← lookup_of_agree hagree token] at hlookup
  exact h token t hlookup

theorem keyed_foldl (a : List Stateful) (h : Keyed ts) :
    Keyed (a.foldl (fun ts t => ts.insert t.token t) ts) := by
  induction a generalizing ts with
  | nil => exact h
  | cons t a ih => exact ih (h.insert t)

theorem keyed_read (f : File) : Keyed f.read :=
  keyed_foldl f.lines fun token t h => by cases h

/-- The last token of a name is the one that counts. -/
theorem lookup_foldl (a : List Stateful) (ts : Tokens) (token : String) :
    (a.foldl (fun ts t => ts.insert t.token t) ts).lookup token =
      (a.reverse.find? fun t => t.token = token).or (ts.lookup token) := by
  induction a generalizing ts with
  | nil => rfl
  | cons t a ih =>
      rw [List.foldl_cons, ih, List.reverse_cons, List.find?_append, Option.or_assoc]
      congr 1
      by_cases hk : t.token = token
      · subst hk
        rw [AList.lookup_insert]
        simp
      · rw [AList.lookup_insert_ne (Ne.symm hk)]
        simp [hk]

theorem mem_values {t : Stateful} : t ∈ State.values ts ↔ ∃ token, ts.lookup token = some t := by
  constructor
  · intro h
    obtain ⟨⟨token, t'⟩, he, rfl⟩ := List.mem_map.mp h
    exact ⟨token, AList.mem_lookup_iff.mpr he⟩
  · rintro ⟨token, h⟩
    exact List.mem_map.mpr ⟨⟨token, t⟩, AList.mem_lookup_iff.mp h, rfl⟩

/-- A file with the tokens of a map, in any order, says what the map does. -/
theorem agree_ofTokens (hk : Keyed ts) {E : Encoding} {m : ℤ} (hperm : a.Perm (State.values ts)) :
    Agree (.ok ts) (.ok (File.ofTokens E a m).read) := by
  refine agree_of_lookup fun token => ?_
  have hread : (File.ofTokens E a m).read.lookup token =
      a.reverse.find? fun t => t.token = token := by
    rw [File.read, File.ofTokens, lookup_foldl]
    simp
  have hmem : ∀ t, t ∈ a.reverse ∧ t.token = token ↔ ts.lookup token = some t := by
    intro t
    rw [List.mem_reverse, hperm.mem_iff, mem_values]
    constructor
    · rintro ⟨⟨token', hlookup⟩, htoken⟩
      rw [← htoken, hk token' t hlookup, hlookup]
    · intro hlookup
      exact ⟨⟨token, hlookup⟩, hk token t hlookup⟩
  rw [hread]
  cases hfind : a.reverse.find? fun t => t.token = token with
  | none =>
      rw [List.find?_eq_none] at hfind
      cases hlookup : ts.lookup token with
      | none => rfl
      | some t =>
          obtain ⟨hin, htoken⟩ := (hmem t).mpr hlookup
          exact absurd (by simpa using htoken) (hfind t hin)
  | some t =>
      have htoken := List.find?_some hfind
      exact (hmem t).mp ⟨List.mem_of_find?_eq_some hfind, by simpa using htoken⟩

/-- A line that is appended counts last. -/
theorem read_append {E : Encoding} {t : Stateful} {m : ℤ} :
    (f.append E t (E.len t) m).read = f.read.insert t.token t ∧
      (f.append E t (E.len t) m).garbled = f.garbled := by
  have htwo := E.two_le t
  have hk : E.len t ≠ 0 := by omega
  have hlt : ¬ E.len t + 1 < E.len t := by omega
  simp [File.append, hk, File.read, hlt]

end Files

/-! ## What a call does -/

section Calls
variable {E : Encoding} {c : Choices} {s s₁ : State} {ts : Tokens} {f : File}

/-- The tokens in memory are not mistaken for those of the file, which says `ts`. -/
structure Holds (s : State) (ts : Tokens) : Prop where
  honest : s.Honest
  onDisk : Agree s.onDisk (.ok ts)

/-- What `etag` gives once the file has been looked at. -/
def State.tag (s : State) : String :=
  match s.disk with
  | none => ""
  | some f => { s with fileSize := f.size, modTime := f.modTime : State }.etag

theorem holds_written {f : File} (hdisk : s.disk = some f) (hgarbled : f.garbled = false)
    (htokens : Agree (.ok (s.tokens.getD ∅)) (.ok f.read)) (hts : Agree (.ok ts) (.ok f.read)) :
    Holds s ts := by
  constructor
  · intro f' hdisk' _
    obtain rfl : f = f' := Option.some.inj (hdisk.symm.trans hdisk')
    exact ⟨hgarbled, htokens⟩
  · simp only [State.onDisk, hdisk, hgarbled]
    exact hts.symm

theorem holds_removed (hdisk : s.disk = none) (hts : ts.entries = []) : Holds s ts := by
  constructor
  · intro f hf
    exact absurd (hdisk.symm.trans hf) nofun
  · simp only [State.onDisk, hdisk]
    exact List.perm_nil.mpr hts |>.symm

theorem load_etag {fault : LoadFaults} {etag : String} (h : s.load fault = (s₁, .ok etag)) :
    etag = s₁.etag := by
  unfold State.load at h
  repeat' split at h
  all_goals cases h
  all_goals simp [State.etag, State.reset]

theorem Loaded.etag_eq (h : Loaded s s₁) : s₁.etag = s.tag := by
  unfold State.tag
  cases hdisk : s.disk with
  | none =>
      rw [h.missing hdisk]
      rfl
  | some f =>
      obtain ⟨htime, hsize⟩ := h.hit f hdisk
      simp only [State.etag, htime, hsize]

/-- A file that can be read is. -/
theorem load_works (hname : s.filename ≠ "") (h : Holds s ts) :
    ∃ s₁, s.load {} = (s₁, .ok s.tag) ∧ Loaded s s₁ ∧ Agree (.ok (s₁.tokens.getD ∅)) (.ok ts) := by
  rcases load_cases hname {} with ⟨⟨e, hload⟩, hcause⟩ | ⟨-, s₁, etag, hload, hloaded⟩
  · rcases hcause with hstat | hmiss
    · cases hstat
    · have hcurrent := current_of_miss hname hmiss
      have hdisk := h.onDisk
      rw [← hcurrent, State.current, hload] at hdisk
      exact False.elim hdisk
  · refine ⟨s₁, ?_, hloaded, ?_⟩
    · rw [hload, load_etag hload, hloaded.etag_eq]
    · have hagree := (honest_iff hname).mp h.honest
      rw [hloaded.current] at hagree
      have hdisk := h.onDisk
      cases hs : s.onDisk with
      | error e =>
          rw [hs] at hdisk
          exact False.elim hdisk
      | ok ts' =>
          rw [hs] at hagree hdisk
          exact List.Perm.trans hagree hdisk

/-- One that cannot is not. -/
theorem load_fails (hname : s.filename ≠ "") (honest : s.Honest) {e : Error}
    (h : s.onDisk = .error e) : ∃ e', s.load {} = (s.reset, .error e') := by
  rcases load_cases hname {} with ⟨hload, -⟩ | ⟨-, s₁, etag, hload, hloaded⟩
  · exact hload
  · have hagree := (honest_iff hname).mp honest
    rw [hloaded.current, h] at hagree
    exact False.elim hagree

theorem rewrite_works (hc : c.Works) (hname : s.filename ≠ "") (hdisk : s.disk = some f)
    (hhit : s.Hit f) (htokens : s.tokens = some ts) (hk : Keyed ts) :
    ∃ s', s.rewrite E c = (s', .ok ()) ∧ s'.filename = s.filename ∧ Holds s' ts := by
  have hlist : s.list c.list c.order "" true =
      (s, .ok (c.order.sort (State.values ts), s.etag)) := by
    simp [State.list, State.load, hc.list, hname, hdisk, hhit, htokens]
  unfold State.rewrite
  rw [htokens, Option.getD_some, hlist]
  by_cases hgone : ts.entries = []
  · refine ⟨{ s with disk := none }, ?_, rfl, holds_removed rfl hgone⟩
    simp [hgone, hc.remove, htokens]
  · let f' := File.ofTokens E (c.order.sort (State.values ts)) c.modTime
    have hread : Agree (.ok ts) (.ok f'.read) := agree_ofTokens hk (c.order.perm _)
    refine ⟨{ s with disk := some f', modTime := f'.modTime, fileSize := f'.size }, ?_, rfl,
      holds_written rfl rfl ?_ hread⟩
    · simp [hgone, hc.createTemp, hc.encode, hc.close, hc.rename, hc.statRenamed, f', htokens]
    · rw [htokens]
      exact hread

theorem add_works (hc : c.Works) (h : Holds s ts) (hts : Agree (.ok (s.tokens.getD ∅)) (.ok ts))
    (t : Stateful) : ∃ s', s.add E c t = (s', .ok t) ∧ s'.filename = s.filename ∧
      Holds s' (ts.insert t.token t) := by
  let f' := (s.disk.getD (.created c.modTime)).append E t (E.len t) c.modTime
  have hinsert : Agree (.ok ((s.tokens.getD ∅).insert t.token t)) (.ok (ts.insert t.token t)) :=
    AList.perm_insert hts
  have hbefore : Agree (.ok ts) (.ok (s.disk.getD (.created c.modTime)).read) ∧
      (s.disk.getD (.created c.modTime)).garbled = false := by
    have honDisk := h.onDisk
    unfold State.onDisk at honDisk
    cases hdisk : s.disk with
    | none =>
        rw [hdisk] at honDisk
        exact ⟨honDisk.symm, rfl⟩
    | some f =>
        rw [hdisk] at honDisk
        cases hgarbled : f.garbled with
        | true => simp [hgarbled, Agree] at honDisk
        | false =>
            simp only [hgarbled, Bool.false_eq_true, if_false] at honDisk
            exact ⟨honDisk.symm, hgarbled⟩
  have hread : Agree (.ok (ts.insert t.token t)) (.ok f'.read) := by
    rw [read_append.1]
    exact AList.perm_insert hbefore.1
  refine ⟨{ s with
    tokens := some ((s.tokens.getD ∅).insert t.token t)
    disk := some f', modTime := f'.modTime, fileSize := f'.size }, ?_, rfl,
    holds_written rfl (read_append.2.trans hbefore.2) (hinsert.trans hread) hread⟩
  simp [State.add, hc.mkdirAll, hc.openAppend, hc.append, hc.statAppended, f']

/-- What a call makes of a state whose file is `s.read`. -/
structure Ran (s : State) (call : Call) (r : State × Result Unit) : Prop where
  filename : r.1.filename = s.filename
  honest : r.1.Honest
  unnamed : s.filename = "" → r.1.disk = s.disk
  effect : r.2 = .ok () → Agree s.onDisk (.ok s.read) ∧
    Agree r.1.onDisk (.ok (call.effect s.read))
  fails : r.2 ≠ .ok () → r.1.disk = s.disk
  quiet : ¬ call.Writes s.read → r.1.disk = s.disk
  tagged : ∀ tag, call.Changes s.read tag → r.2 = .ok () → tag = s.tag

/-- The tokens in memory are not mistaken, and without a name there is no file. -/
structure State.Good (s : State) : Prop where
  honest : s.Honest
  unnamed : s.filename = "" → s.disk = none

theorem read_eq (h : s.onDisk = .ok ts) : s.read = ts := by
  simp only [State.read, h]

theorem keyed_state (s : State) : Keyed s.read := by
  unfold State.read State.onDisk
  split
  · rename_i h
    split at h
    · cases h
      exact fun token t h => by cases h
    · split at h
      · cases h
      · cases h
        exact keyed_read _
  · exact fun token t h => by cases h

theorem onDisk_congr {s' : State} (h : s'.disk = s.disk) : s'.onDisk = s.onDisk := by
  simp only [State.onDisk, h]

theorem read_congr {s' : State} (h : s'.disk = s.disk) : s'.read = s.read := by
  simp only [State.read, onDisk_congr h]

theorem tag_congr {s' : State} (h : s'.disk = s.disk) : s'.tag = s.tag := by
  simp only [State.tag, h, State.etag]

/-- A token that is read is read from somewhere. -/
theorem onDisk_of_mem {token : String} (h : token ∈ s.read) : ∃ ts, s.onDisk = .ok ts := by
  cases hs : s.onDisk with
  | ok ts => exact ⟨ts, rfl⟩
  | error e =>
      simp only [State.read, hs] at h
      exact absurd h (AList.notMem_empty _)

theorem Honest.of_none (h : s.disk = none) : s.Honest :=
  fun _ hf => absurd (h.symm.trans hf) nofun

/-- A call that leaves the file as it is. -/
theorem Ran.same {call : Call} {r : State × Result Unit} (hname : r.1.filename = s.filename)
    (hdisk : r.1.disk = s.disk) (honest : r.1.Honest)
    (heffect : r.2 = .ok () → (∃ ts, s.onDisk = .ok ts) ∧
      Agree (.ok s.read) (.ok (call.effect s.read)))
    (htag : ∀ tag, call.Changes s.read tag → r.2 ≠ .ok ()) : Ran s call r where
  filename := hname
  honest := honest
  unnamed _ := hdisk
  effect h := by
    obtain ⟨⟨ts, hts⟩, hagree⟩ := heffect h
    rw [onDisk_congr hdisk, read_eq hts, hts]
    rw [read_eq hts] at hagree
    exact ⟨agree_refl _, hagree⟩
  fails _ := hdisk
  quiet _ := hdisk
  tagged tag hchanges h := absurd h (htag tag hchanges)

/-- What `load` does while the file system works. -/
inductive Fetched (s : State) : State × Except Error String → Prop
  | unnamed : s.filename = "" → s.disk = none → Fetched s (s.reset, .ok "")
  | error (e : Error) : s.filename ≠ "" → Fetched s (s.reset, .error e)
  | ok (s₁ : State) : s.filename ≠ "" → Holds s s.read → Loaded s s₁ →
      Agree (.ok (s₁.tokens.getD ∅)) (.ok s.read) → Fetched s (s₁, .ok s.tag)

theorem fetched (h : s.Good) : Fetched s (s.load {}) := by
  by_cases hname : s.filename = ""
  · have hload : s.load {} = (s.reset, .ok "") := by simp [State.load, hname]
    rw [hload]
    exact .unnamed hname (h.unnamed hname)
  · cases hs : s.onDisk with
    | error e =>
        obtain ⟨e', hload⟩ := load_fails hname h.honest hs
        rw [hload]
        exact .error e' hname
    | ok ts =>
        have hholds : Holds s s.read := by
          refine ⟨h.honest, ?_⟩
          rw [read_eq hs, hs]
          exact agree_refl _
        obtain ⟨s₁, hload, hloaded, hagree⟩ := load_works hname hholds
        rw [hload]
        exact .ok s₁ hname hholds hloaded hagree

theorem honest_reset (hname : s.filename ≠ "") : s.reset.Honest := by
  rw [honest_iff (s := s.reset) hname, current_reset hname]
  exact agree_refl _

theorem exists_onDisk (h : Holds s ts) : ∃ ts', s.onDisk = .ok ts' := by
  have honDisk := h.onDisk
  cases hs : s.onDisk with
  | ok ts' => exact ⟨ts', rfl⟩
  | error e =>
      rw [hs] at honDisk
      exact False.elim honDisk

theorem onDisk_none (h : s.disk = none) : s.onDisk = .ok ∅ := by
  simp only [State.onDisk, h]

/-- Looking at the file changes nothing. -/
theorem Fetched.same {r : State × Except Error String} (h : Fetched s r) :
    r.1.filename = s.filename ∧ r.1.disk = s.disk ∧ r.1.Honest ∧
      ∀ tag, r.2 = .ok tag → ∃ ts, s.onDisk = .ok ts := by
  cases h with
  | unnamed _ hdisk => exact ⟨rfl, rfl, Honest.of_none hdisk, fun _ _ => ⟨∅, onDisk_none hdisk⟩⟩
  | error e hname => exact ⟨rfl, rfl, honest_reset hname, fun tag h => by cases h⟩
  | ok s₁ _ hholds hloaded =>
      exact ⟨hloaded.filename, hloaded.disk, hloaded.honest.mpr hholds.honest,
        fun _ _ => exists_onDisk hholds⟩

theorem ran_get (hc : c.Works) (h : s.Good) (token : String) :
    Ran s (.get token) ((Call.get token).run E c s) := by
  obtain ⟨hname, hdisk, honest, hread⟩ := (fetched h).same
  have hget : ((Call.get token).run E c s).1 = (s.load {}).1 ∧
      (((Call.get token).run E c s).2 = .ok () → ∃ tag, (s.load {}).2 = .ok tag) := by
    simp only [Call.run, State.get, hc.load]
    rcases s.load {} with ⟨s₁, e | tag⟩
    · exact ⟨rfl, fun h => by cases h⟩
    · dsimp only
      split
      · exact ⟨rfl, fun h => by cases h⟩
      · exact ⟨rfl, fun _ => ⟨tag, rfl⟩⟩
  rw [← hget.1] at hname hdisk honest
  refine .same hname hdisk honest (fun hok => ?_) fun tag hchanges => False.elim hchanges
  obtain ⟨tag, htag⟩ := hget.2 hok
  exact ⟨hread tag htag, agree_refl _⟩

theorem ran_list (hc : c.Works) (h : s.Good) (group : String) :
    Ran s (.list group) ((Call.list group).run E c s) := by
  obtain ⟨hname, hdisk, honest, hread⟩ := (fetched h).same
  have hlist : ((Call.list group).run E c s).1 = (s.load {}).1 ∧
      (((Call.list group).run E c s).2 = .ok () → ∃ tag, (s.load {}).2 = .ok tag) := by
    simp only [Call.run, State.list, hc.load, Bool.false_eq_true, and_false, if_false]
    rcases s.load {} with ⟨s₁, e | tag⟩
    · exact ⟨rfl, fun h => by cases h⟩
    · exact ⟨rfl, fun _ => ⟨tag, rfl⟩⟩
  rw [← hlist.1] at hname hdisk honest
  refine .same hname hdisk honest (fun hok => ?_) fun tag hchanges => False.elim hchanges
  obtain ⟨tag, htag⟩ := hlist.2 hok
  exact ⟨hread tag htag, agree_refl _⟩

/-- A call that writes. -/
theorem Ran.written {call : Call} {r : State × Result Unit} {ts : Tokens}
    (hnamed : s.filename ≠ "") (hname : r.1.filename = s.filename) (hholds : Holds s s.read) (hnext : Holds r.1 ts)
    (hagree : Agree (.ok ts) (.ok (call.effect s.read))) (hok : r.2 = .ok ())
    (hwrites : call.Writes s.read) (htag : ∀ tag, call.Changes s.read tag → tag = s.tag) :
    Ran s call r where
  filename := hname
  honest := hnext.honest
  unnamed h := absurd h hnamed
  effect _ := by
    have honDisk := hnext.onDisk
    obtain ⟨ts', hts'⟩ := exists_onDisk hnext
    rw [hts'] at honDisk ⊢
    exact ⟨hholds.onDisk, List.Perm.trans honDisk hagree⟩
  fails h := absurd hok h
  quiet h := absurd hwrites h
  tagged tag hchanges _ := htag tag hchanges

/-- A call that is refused with the state as `load` left it, or with a map made for the tokens. -/
theorem Ran.refused {call : Call} {r : State × Result Unit} {e : Error} (hloaded : Loaded s s₁)
    (hholds : Holds s s.read) (hr : r = (s₁, .error e) ∨
      r = ({ s₁ with tokens := some (s₁.tokens.getD ∅) }, .error e)) : Ran s call r := by
  have honest : s₁.Honest := hloaded.honest.mpr hholds.honest
  rcases hr with rfl | rfl
  · exact .same hloaded.filename hloaded.disk honest (fun h => by cases h) fun _ _ h => by cases h
  · exact .same hloaded.filename hloaded.disk honest (fun h => by cases h) fun _ _ h => by cases h

theorem Loaded.holds {ts : Tokens} (h : Loaded s s₁) (hholds : Holds s ts) : Holds s₁ ts := by
  refine ⟨h.honest.mpr hholds.honest, ?_⟩
  rw [onDisk_congr h.disk]
  exact hholds.onDisk

theorem mem_agree {ts ts' : Tokens} (h : Agree (.ok ts) (.ok ts')) (token : String) :
    token ∈ ts ↔ token ∈ ts' := by
  rw [← AList.lookup_isSome, ← AList.lookup_isSome, lookup_of_agree h]

/-- The end of an `Update` or a `Delete` that is carried out. -/
theorem ran_finish {call : Call} (hc : c.Works) (hname : s.filename ≠ "") (hholds : Holds s s.read)
    (hloaded : Loaded s s₁) {token : String} (hin : token ∈ s₁.tokens.getD ∅) {ts : Tokens}
    (hkeyed : Keyed ts) (hagree : Agree (.ok ts) (.ok (call.effect s.read))) {old a : Stateful}
    (hwrites : call.Writes s.read) (htag : ∀ tag, call.Changes s.read tag → tag = s.tag) :
    Ran s call ((State.finish token old a (State.rewrite { s₁ with tokens := some ts } E c)).1,
      (State.finish token old a (State.rewrite { s₁ with tokens := some ts } E c)).2.forget) := by
  obtain ⟨f, hdisk⟩ := disk_of_mem hloaded hin
  obtain ⟨s', hrewrite, hname', hnext⟩ := rewrite_works (E := E)
    (s := { s₁ with tokens := some ts }) hc (hloaded.filename ▸ hname) (hloaded.disk.trans hdisk)
    (hloaded.hit f hdisk) rfl hkeyed
  rw [hrewrite]
  exact .written hname (hname'.trans hloaded.filename) hholds hnext hagree rfl hwrites htag

theorem ran_update (hc : c.Works) (h : s.Good) (t : Stateful) (etag : String) :
    Ran s (.store (.update t etag)) ((Call.store (.update t etag)).run E c s) := by
  have hf := fetched h
  simp only [Call.run, Op.run, State.update]
  rw [hc.load]
  by_cases hunnamed : s.filename = ""
  · rw [if_pos hunnamed]
    refine .same rfl rfl h.honest (fun hok => by cases hok) fun _ _ hok => by cases hok
  rw [if_neg hunnamed]
  generalize s.load {} = r at hf
  cases hf with
  | unnamed hname => exact absurd hname hunnamed
  | error e hname =>
      exact .same rfl rfl (honest_reset hname) (fun hok => by cases hok) fun _ _ hok => by cases hok
  | ok s₁ hname hholds hloaded hagree =>
      dsimp only
      have hkeyed : Keyed (s₁.tokens.getD ∅) := (keyed_state s).agree hagree.symm
      have hinsert : Agree (.ok ((s₁.tokens.getD ∅).insert t.token t))
          (.ok ((Call.store (.update t etag)).effect s.read)) := AList.perm_insert hagree
      have hmem := mem_agree hagree t.token
      cases hlookup : (s₁.tokens.getD ∅).lookup t.token with
      | none =>
          have hnotin : t.token ∉ s.read := by
            rw [← hmem]
            exact AList.lookup_eq_none.mp hlookup
          dsimp only
          split
          · exact .refused hloaded hholds (.inr rfl)
          · have hmade : Holds { s₁ with tokens := some (s₁.tokens.getD ∅) } s.read :=
              ⟨(hloaded.holds hholds).honest, (hloaded.holds hholds).onDisk⟩
            obtain ⟨s', hadd, hname', hnext⟩ := add_works (E := E) hc hmade hagree t
            rw [hadd]
            exact .written hname (hname'.trans hloaded.filename) hholds hnext (agree_refl _) rfl trivial
              fun tag hchanges => absurd hchanges.1 hnotin
      | some old =>
          have hin : t.token ∈ s₁.tokens.getD ∅ := AList.lookup_isSome.mp (by rw [hlookup]; rfl)
          dsimp only
          split
          · exact .refused hloaded hholds (.inr rfl)
          · rename_i htag
            have htag' : etag = s.tag := hloaded.etag_eq ▸ not_not.mp htag
            exact ran_finish hc hname hholds hloaded hin (hkeyed.insert t) hinsert trivial
              fun tag hchanges => hchanges.2.symm.trans htag'

/-- The etag is the one that an update of this token has to come with. -/
def State.Expects (s : State) (token etag : String) : Prop :=
  (token ∈ s.read → etag = s.tag) ∧ (token ∉ s.read → etag = "")

/-- When an `Update` succeeds. -/
theorem update_result (hc : c.Works) (hname : s.filename ≠ "") (hholds : Holds s s.read)
    (t : Stateful) (etag : String) : (s.Expects t.token etag ∧ (s.update E c t etag).2 = .ok t) ∨
      (¬ s.Expects t.token etag ∧ (s.update E c t etag).2 = .error .tagMismatch) := by
  obtain ⟨s₁, hload, hloaded, hagree⟩ := load_works hname hholds
  unfold State.update
  rw [if_neg hname, hc.load, hload]
  dsimp only
  have hmem := mem_agree hagree t.token
  cases hlookup : (s₁.tokens.getD ∅).lookup t.token with
  | none =>
      have hnotin : t.token ∉ s.read := by
        rw [← hmem]
        exact AList.lookup_eq_none.mp hlookup
      have hmade : Holds { s₁ with tokens := some (s₁.tokens.getD ∅) } s.read :=
        ⟨(hloaded.holds hholds).honest, (hloaded.holds hholds).onDisk⟩
      obtain ⟨s', hadd, -, -⟩ := add_works (E := E) hc hmade hagree t
      dsimp only
      by_cases htag : etag = ""
      · rw [if_neg (not_not.mpr htag), hadd]
        exact .inl ⟨⟨fun h => absurd h hnotin, fun _ => htag⟩, rfl⟩
      · rw [if_pos htag]
        exact .inr ⟨fun h => htag (h.2 hnotin), rfl⟩
  | some old =>
      have hin : t.token ∈ s₁.tokens.getD ∅ := AList.lookup_isSome.mp (by rw [hlookup]; rfl)
      have hkeyed : Keyed (s₁.tokens.getD ∅) := (keyed_state s).agree hagree.symm
      obtain ⟨f, hdisk⟩ := disk_of_mem hloaded hin
      obtain ⟨s', hrewrite, -, -⟩ := rewrite_works (E := E)
        (s := { s₁ with tokens := some ((s₁.tokens.getD ∅).insert t.token t) }) hc
        (hloaded.filename ▸ hname) (hloaded.disk.trans hdisk) (hloaded.hit f hdisk) rfl
        (hkeyed.insert t)
      have hetag : State.etag { s₁ with tokens := some (s₁.tokens.getD ∅) } = s.tag :=
        hloaded.etag_eq
      dsimp only
      by_cases htag : etag = s.tag
      · rw [if_neg (not_not.mpr (htag.trans hetag.symm)), hrewrite]
        exact .inl ⟨⟨fun _ => htag, fun h => absurd (hmem.mp hin) h⟩, rfl⟩
      · rw [if_pos fun h => htag (h.trans hetag)]
        exact .inr ⟨fun h => htag (h.1 (hmem.mp hin)), rfl⟩

theorem Keyed.erase {ts : Tokens} (h : Keyed ts) (token : String) : Keyed (ts.erase token) := by
  intro token' t hlookup
  by_cases hk : token' = token
  · subst hk
    rw [AList.lookup_erase] at hlookup
    cases hlookup
  · rw [AList.lookup_erase_ne hk] at hlookup
    exact h token' t hlookup

theorem ran_delete (hc : c.Works) (h : s.Good) (token etag : String) :
    Ran s (.store (.delete token etag)) ((Call.store (.delete token etag)).run E c s) := by
  have hf := fetched h
  simp only [Call.run, Op.run, State.delete]
  rw [hc.load]
  by_cases hunnamed : s.filename = ""
  · rw [if_pos hunnamed]
    refine .same rfl rfl h.honest (fun hok => by cases hok) fun _ _ hok => by cases hok
  rw [if_neg hunnamed]
  generalize s.load {} = r at hf
  cases hf with
  | unnamed hname => exact absurd hname hunnamed
  | error e hname =>
      exact .same rfl rfl (honest_reset hname) (fun hok => by cases hok) fun _ _ hok => by cases hok
  | ok s₁ hname hholds hloaded hagree =>
      dsimp only
      have hkeyed : Keyed (s₁.tokens.getD ∅) := (keyed_state s).agree hagree.symm
      have herase : Agree (.ok ((s₁.tokens.getD ∅).erase token))
          (.ok ((Call.store (.delete token etag)).effect s.read)) := AList.perm_erase hagree
      cases hlookup : (s₁.tokens.getD ∅).lookup token with
      | none => exact .refused hloaded hholds (.inl rfl)
      | some old =>
          have hin : token ∈ s₁.tokens.getD ∅ := AList.lookup_isSome.mp (by rw [hlookup]; rfl)
          dsimp only
          split
          · exact .refused hloaded hholds (.inl rfl)
          · rename_i htag
            have htag' : etag = s.tag := hloaded.etag_eq ▸ not_not.mp htag
            exact ran_finish hc hname hholds hloaded hin (hkeyed.erase token) herase trivial
              fun tag hchanges => hchanges.2.symm.trans htag'

theorem keyed_live {ts : Tokens} (h : Keyed ts) (now : ℤ) : Keyed (State.live now ts) := by
  intro token t hlookup
  have hmem := AList.mem_lookup_iff.mp hlookup
  exact h token t (AList.mem_lookup_iff.mpr (List.mem_filter.mp hmem).1)

theorem agree_live {ts ts' : Tokens} (h : Agree (.ok ts) (.ok ts')) (now : ℤ) :
    Agree (.ok (State.live now ts)) (.ok (State.live now ts')) := List.Perm.filter _ h

/-- Where nothing is expired, everything is live. -/
theorem live_eq {now : ℤ} {ts : Tokens}
    (h : ¬ ∃ t ∈ State.values ts, State.Expired now t) : State.live now ts = ts := by
  apply AList.ext
  refine List.filter_eq_self.mpr fun e he => ?_
  have hlive : ¬ State.Expired now e.2 :=
    fun hexpired => h ⟨e.2, List.mem_map_of_mem he, hexpired⟩
  simpa using hlive

theorem ran_expire (hc : c.Works) (h : s.Good) (now : ℤ) :
    Ran s (.store (.expire now)) ((Call.store (.expire now)).run E c s) := by
  have hf := fetched h
  simp only [Call.run, Op.run, State.expire]
  rw [hc.load]
  generalize s.load {} = r at hf
  cases hf with
  | unnamed hname hdisk =>
      have hread : s.read = ∅ := read_eq (onDisk_none hdisk)
      have hnone : ¬ ∃ t ∈ State.values (s.reset.tokens.getD ∅), State.Expired now t :=
        fun ⟨t, ht, _⟩ => by cases ht
      dsimp only
      rw [if_neg hnone]
      refine .same rfl rfl (Honest.of_none hdisk) (fun _ => ⟨⟨∅, onDisk_none hdisk⟩, ?_⟩)
        fun _ hchanges => False.elim hchanges
      rw [hread]
      exact agree_refl _
  | error e hname =>
      exact .same rfl rfl (honest_reset hname) (fun hok => by cases hok) fun _ _ hok => by cases hok
  | ok s₁ hname hholds hloaded hagree =>
      dsimp only
      have hvalues : (∃ t ∈ State.values (s₁.tokens.getD ∅), State.Expired now t) ↔
          ∃ t ∈ State.values s.read, State.Expired now t := by
        have hperm : (State.values (s₁.tokens.getD ∅)).Perm (State.values s.read) := hagree.map _
        simp only [hperm.mem_iff]
      by_cases hexpired : ∃ t ∈ State.values (s₁.tokens.getD ∅), State.Expired now t
      · rw [if_pos hexpired]
        obtain ⟨t, ht, _⟩ := id hexpired
        have hkeyed : Keyed (s₁.tokens.getD ∅) := (keyed_state s).agree hagree.symm
        obtain ⟨token, hlookup⟩ := mem_values.mp ht
        have hin : token ∈ s₁.tokens.getD ∅ := AList.lookup_isSome.mp (by rw [hlookup]; rfl)
        obtain ⟨f, hdisk⟩ := disk_of_mem hloaded hin
        obtain ⟨s', hrewrite, hname', hnext⟩ := rewrite_works (E := E)
          (s := { s₁ with tokens := some (State.live now (s₁.tokens.getD ∅)) }) hc
          (hloaded.filename ▸ hname) (hloaded.disk.trans hdisk) (hloaded.hit f hdisk) rfl
          (keyed_live hkeyed now)
        rw [hrewrite]
        exact .written hname (hname'.trans hloaded.filename) hholds hnext (agree_live hagree now) rfl
          (hvalues.mp hexpired) fun _ hchanges => False.elim hchanges
      · rw [if_neg hexpired]
        refine .same hloaded.filename hloaded.disk (hloaded.holds hholds).honest
          (fun _ => ⟨exists_onDisk hholds, ?_⟩) fun _ hchanges => False.elim hchanges
        have hlive : State.live now s.read = s.read := live_eq (mt hvalues.mpr hexpired)
        simp only [Call.effect, hlive]
        exact agree_refl _

/-- What any call does while the file system works. -/
theorem ran (hc : c.Works) (h : s.Good) (call : Call) : Ran s call (call.run E c s) := by
  cases call with
  | get token => exact ran_get hc h token
  | list group => exact ran_list hc h group
  | store op =>
      cases op with
      | update t etag => exact ran_update hc h t etag
      | delete token etag => exact ran_delete hc h token etag
      | expire now => exact ran_expire hc h now

/-! ## Runs -/

theorem Ran.good {call : Call} {r : State × Result Unit} (h : Ran s call r) (hgood : s.Good) :
    r.1.Good where
  honest := h.honest
  unnamed hname := by
    rw [h.filename] at hname
    rw [h.unnamed hname, hgood.unnamed hname]

theorem State.Good.reads (h : s.Good) : s.Reads := by
  have hagree : Agree s.current s.onDisk := by
    by_cases hname : s.filename = ""
    · rw [onDisk_none (h.unnamed hname)]
      simp [State.current, State.load, hname, State.reset, Agree]
    · exact (honest_iff hname).mp h.honest
  intro token
  rw [get_current]
  cases hcurrent : s.current with
  | error e =>
      rw [hcurrent] at hagree
      cases hs : s.onDisk with
      | error e' =>
          rw [hs] at hagree
          obtain rfl : e = e' := hagree
          rfl
      | ok ts' =>
          rw [hs] at hagree
          exact False.elim hagree
  | ok ts =>
      rw [hcurrent] at hagree
      cases hs : s.onDisk with
      | error e =>
          rw [hs] at hagree
          exact False.elim hagree
      | ok ts' =>
          rw [hs] at hagree
          have hlookup := lookup_of_agree hagree token
          dsimp only [Except.bind]
          generalize ts.lookup token = mine at hlookup ⊢
          subst hlookup
          cases ts'.lookup token <;> rfl

theorem State.Initial.good (h : s.Initial) : s.Good where
  unnamed := h.unnamed
  honest := by
    intro f hdisk hhit
    obtain ⟨hlines, hgarbled⟩ := f.empty (hhit.2.symm.trans h.fileSize)
    refine ⟨hgarbled, ?_⟩
    rw [h.tokens, File.read, hlines]
    exact List.Perm.refl _

theorem exec_append (a b : List Event) : exec E s (a ++ b) = exec E (exec E s a) b :=
  List.foldl_append

theorem exec_snoc (a : List Event) (e : Event) :
    exec E s (a ++ [e]) = (e.run E (exec E s a)).1 := exec_append a [e]

theorem State.Good.after (h : s.Good) {es : List Event} (hworks : ∀ e ∈ es, e.choices.Works) :
    (exec E s es).Good := by
  induction es generalizing s with
  | nil => exact h
  | cons e es ih =>
      have hstep := (ran (E := E) (hworks e (List.mem_cons_self ..)) h e.call).good h
      exact ih hstep fun e' he' => hworks e' (List.mem_cons_of_mem _ he')

theorem works_split {a b : List Event} {e : Event}
    (hworks : ∀ e' ∈ a ++ e :: b, e'.choices.Works) :
    (∀ e' ∈ a, e'.choices.Works) ∧ e.choices.Works :=
  ⟨fun e' he' => hworks e' (List.mem_append_left _ he'), hworks e (by simp)⟩

theorem State.Good.inStep (h : s.Good) {es : List Event} (hworks : ∀ e ∈ es, e.choices.Works) :
    InStep E s es := by
  rintro a e b rfl
  obtain ⟨ha, he⟩ := works_split hworks
  have hgood := h.after (E := E) ha
  have hran : Ran (exec E s a) e.call (e.run E (exec E s a)) := ran he hgood e.call
  rw [exec_snoc]
  refine ⟨(hran.good hgood).reads, fun hok => ?_, hran.fails⟩
  obtain ⟨hbefore, hafter⟩ := hran.effect hok
  have hts : (exec E s a).onDisk = .ok (exec E s a).read := by
    cases hs : (exec E s a).onDisk with
    | error e =>
        rw [hs] at hbefore
        exact False.elim hbefore
    | ok ts => rw [read_eq hs]
  refine ⟨_, (e.run E (exec E s a)).1.read, hts, ?_⟩
  cases hs : (e.run E (exec E s a)).1.onDisk with
  | error e =>
      rw [hs] at hafter
      exact False.elim hafter
  | ok ts =>
      rw [hs] at hafter
      rw [read_eq hs]
      exact ⟨rfl, lookup_of_agree hafter⟩

/-! ## Etags -/

/-- A separator that is in neither of the parts before it. -/
theorem append_cons_cancel {α : Type} {x y z w : List α} {a : α} (hx : a ∉ x) (hy : a ∉ y)
    (h : x ++ a :: z = y ++ a :: w) : x = y ∧ z = w := by
  induction x generalizing y with
  | nil =>
      cases y with
      | nil => exact ⟨rfl, (List.cons.inj h).2⟩
      | cons b y => exact absurd (List.cons.inj h).1 (fun hab => hy (hab ▸ List.mem_cons_self ..))
  | cons b x ih =>
      cases y with
      | nil =>
          exact absurd (List.cons.inj h).1.symm (fun hab => hx (hab ▸ List.mem_cons_self ..))
      | cons c y =>
          obtain ⟨rfl, hrest⟩ := List.cons.inj h
          obtain ⟨rfl, rfl⟩ := ih (fun ha => hx (List.mem_cons_of_mem _ ha))
            (fun ha => hy (List.mem_cons_of_mem _ ha)) hrest
          exact ⟨rfl, rfl⟩

theorem dash_notMem_repr (n : ℕ) : '-' ∉ n.repr.toList := by
  intro h
  rw [Nat.toList_repr] at h
  exact absurd (Nat.isDigit_of_mem_toDigits (by decide) (by decide) h) (by decide)

/-- An etag tells the stamp it was made from. -/
theorem stamp_of_etag {n k : ℕ} {m l : ℤ}
    (h : s!"\"{n}-{m}\"" = s!"\"{k}-{l}\"") : n = k ∧ m = l := by
  have hlist := congrArg String.toList h
  simp only [toString, String.toList_append] at hlist
  have hinner : n.repr.toList ++ '-' :: m.repr.toList = k.repr.toList ++ '-' :: l.repr.toList := by
    have hopen : ∀ l : List Char, "\"".toList ++ l = '"' :: l := fun l => rfl
    have hdash : "-".toList = ['-'] := rfl
    simp only [hopen, hdash, List.cons_append, List.append_assoc, List.cons.injEq, true_and,
      List.nil_append] at hlist
    rw [← List.append_cancel_right_eq _ "\"".toList _]
    simpa using hlist
  obtain ⟨hn, hm⟩ := append_cons_cancel (dash_notMem_repr n) (dash_notMem_repr k) hinner
  exact ⟨Nat.repr_injective (String.toList_injective hn),
    Int.repr_injective (String.toList_injective hm)⟩

theorem tag_of_stamp {n : ℕ} {m : ℤ} (h : s.stamp = some (n, m)) (hm : m ≠ 0) :
    s.tag = s!"\"{n}-{m - unixEpoch}\"" := by
  unfold State.stamp at h
  cases hdisk : s.disk with
  | none =>
      rw [hdisk] at h
      cases h
  | some f =>
      rw [hdisk] at h
      cases h
      simp only [State.tag, hdisk, State.etag, if_neg hm]

theorem tag_empty (h : s.stamp = none ∨ ∃ n, s.stamp = some (n, 0)) : s.tag = "" := by
  unfold State.stamp at h
  cases hdisk : s.disk with
  | none => simp only [State.tag, hdisk]
  | some f =>
      rw [hdisk] at h
      rcases h with h | ⟨n, h⟩
      · cases h
      · have htime : f.modTime = 0 := congrArg Prod.snd (Option.some.inj h)
        simp only [State.tag, hdisk, State.etag, htime, if_true]

/-- Two etags are the same only if the stamps are, unless a time is zero. -/
theorem stamp_of_tag {s' : State} {n : ℕ} {m : ℤ} (h : s'.stamp = some (n, m)) (hm : m ≠ 0)
    (htag : s.tag = s'.tag) : s.stamp = s'.stamp := by
  have htag' := tag_of_stamp h hm
  cases hs : s.stamp with
  | none =>
      rw [tag_empty (.inl hs), htag'] at htag
      have hlist := congrArg String.toList htag
      simp at hlist
  | some stamp =>
      obtain ⟨n', m'⟩ := stamp
      by_cases hm' : m' = 0
      · subst hm'
        rw [tag_empty (.inr ⟨n', hs⟩), htag'] at htag
        have hlist := congrArg String.toList htag
        simp at hlist
      · rw [tag_of_stamp hs hm', htag'] at htag
        obtain ⟨rfl, hsame⟩ := stamp_of_etag htag
        have hm : m' = m := by omega
        rw [h, hm]

/-- A file that can be read goes on to be. -/
theorem State.Good.readable (h : s.Good) {es : List Event} (hworks : ∀ e ∈ es, e.choices.Works)
    (hread : ∃ ts, s.onDisk = .ok ts) : ∃ ts, (Token.exec E s es).onDisk = .ok ts := by
  induction es generalizing s with
  | nil => exact hread
  | cons e es ih =>
      have hran : Ran s e.call (e.run E s) := ran (hworks e (List.mem_cons_self ..)) h e.call
      refine ih (hran.good h) (fun e' he' => hworks e' (List.mem_cons_of_mem _ he')) ?_
      by_cases hok : (e.run E s).2 = .ok ()
      · have hafter := (hran.effect hok).2
        cases hs : (e.run E s).1.onDisk with
        | ok ts => exact ⟨ts, rfl⟩
        | error e =>
            rw [hs] at hafter
            exact False.elim hafter
      · rw [onDisk_congr (hran.fails hok)]
        exact hread

/-- Calls that write nothing leave the file as it is. -/
theorem State.Good.unwritten (h : s.Good) {es : List Event} (hworks : ∀ e ∈ es, e.choices.Works)
    (hquiet : ∀ a e b, es = a ++ e :: b → e.Succeeds E (Token.exec E s a) →
      ¬ e.call.Writes (Token.exec E s a).read) : (Token.exec E s es).disk = s.disk := by
  induction es generalizing s with
  | nil => rfl
  | cons e es ih =>
      have hran : Ran s e.call (e.run E s) := ran (hworks e (List.mem_cons_self ..)) h e.call
      have hfirst : (e.run E s).1.disk = s.disk := by
        by_cases hok : (e.run E s).2 = .ok ()
        · exact hran.quiet (hquiet [] e es rfl hok)
        · exact hran.fails hok
      have hrest := ih (hran.good h) (fun e' he' => hworks e' (List.mem_cons_of_mem _ he'))
        fun a e' b hsplit => hquiet (e :: a) e' b (by rw [hsplit]; rfl)
      exact hrest.trans hfirst

theorem State.Good.filename_after (h : s.Good) {es : List Event}
    (hworks : ∀ e ∈ es, e.choices.Works) : (Token.exec E s es).filename = s.filename := by
  induction es generalizing s with
  | nil => rfl
  | cons e es ih =>
      have hran : Ran s e.call (e.run E s) := ran (hworks e (List.mem_cons_self ..)) h e.call
      exact (ih (hran.good h) fun e' he' => hworks e' (List.mem_cons_of_mem _ he')).trans
        hran.filename

/-- After a write the file keeps a stamp that it has not had before. -/
theorem StampsNew.after {es a b : List Event} {e : Event} (hgood : s.Good)
    (hworks : ∀ e ∈ es, e.choices.Works) (hnew : StampsNew E s es) (hes : ∃ d, es = a ++ e :: b ++ d)
    (hok : e.Succeeds E (exec E s a)) (hwrites : e.call.Writes (exec E s a).read) :
    ∀ stamp ∈ (exec E s (a ++ e :: b)).stamp, stamp.2 ≠ 0 ∧ stamp ∉ (exec E s a).stamp := by
  induction b using List.reverseRecOn with
  | nil =>
      obtain ⟨d, rfl⟩ := hes
      intro stamp hstamp
      obtain ⟨htime, hbefore⟩ := hnew a e d (by simp) hok hwrites stamp hstamp
      exact ⟨htime, hbefore a (List.prefix_refl a)⟩
  | append_singleton b x ih =>
      obtain ⟨d, rfl⟩ := hes
      have hsplit : a ++ e :: (b ++ [x]) ++ d = (a ++ e :: b) ++ x :: d := by simp
      have hlast : a ++ e :: (b ++ [x]) = (a ++ e :: b) ++ [x] := by simp
      have hpart := ih ⟨x :: d, hsplit⟩
      rw [hsplit] at hworks
      obtain ⟨hbefore, hx⟩ := works_split hworks
      have hran : Ran (exec E s (a ++ e :: b)) x.call (x.run E (exec E s (a ++ e :: b))) :=
        ran hx (hgood.after hbefore) x.call
      rw [hlast]
      by_cases hwrote : x.Succeeds E (exec E s (a ++ e :: b)) ∧
          x.call.Writes (exec E s (a ++ e :: b)).read
      · intro stamp hstamp
        obtain ⟨htime, hnever⟩ := hnew (a ++ e :: b) x d hsplit hwrote.1 hwrote.2 stamp hstamp
        exact ⟨htime, hnever a (List.prefix_append a _)⟩
      · have hsame : (exec E s ((a ++ e :: b) ++ [x])).disk = (exec E s (a ++ e :: b)).disk := by
          rw [exec_snoc]
          by_cases hx : x.Succeeds E (exec E s (a ++ e :: b))
          · exact hran.quiet fun h => hwrote ⟨hx, h⟩
          · exact hran.fails hx
        simp only [State.stamp] at hpart ⊢
        rw [hsame]
        exact hpart

theorem Call.Changes.writes {call : Call} {tag : String} (h : call.Changes ts tag) :
    call.Writes ts := by
  cases call with
  | get => exact h
  | list => exact h
  | store op =>
      cases op with
      | update => exact trivial
      | delete => exact trivial
      | expire => exact False.elim h

theorem Call.Changes.stored {call : Call} {tag : String} (h : call.Changes s.read tag) :
    ∃ stamp, s.stamp = some stamp := by
  unfold State.stamp
  cases hdisk : s.disk with
  | some f => exact ⟨_, rfl⟩
  | none =>
      rw [read_eq (onDisk_none hdisk)] at h
      cases call with
      | get => exact False.elim h
      | list => exact False.elim h
      | store op =>
          cases op with
          | update t => exact absurd h.1 (AList.notMem_empty _)
          | delete token => exact absurd h.1 (AList.notMem_empty _)
          | expire => exact False.elim h

theorem State.Good.atMostOne (hgood : s.Good) {es : List Event}
    (hworks : ∀ e ∈ es, e.choices.Works) (hnew : StampsNew E s es) : AtMostOne E s es := by
  rintro a e b e' d tag hes hchanges hchanges' ⟨hok, hok'⟩
  have hfirst : es = a ++ e :: (b ++ e' :: d) := by rw [hes]; simp
  obtain ⟨ha, he⟩ := works_split (hfirst ▸ hworks)
  obtain ⟨hb, he'⟩ := works_split (hes ▸ hworks)
  have htag := (ran (E := E) he (hgood.after ha) e.call).tagged tag hchanges hok
  have htag' := (ran (E := E) he' (hgood.after hb) e'.call).tagged tag hchanges' hok'
  obtain ⟨⟨n, m⟩, hstamp⟩ := hchanges'.stored
  obtain ⟨htime, hother⟩ := hnew.after hgood hworks ⟨e' :: d, hes⟩ hok hchanges.writes _ hstamp
  exact hother (stamp_of_tag hstamp htime (htag.symm.trans htag') ▸ hstamp)

/-- From the start on memory and file are in step, and while no stamp comes back at most one of two
changes with one etag succeeds. -/
theorem inStep_atMostOne (hinit : s.Initial) {es : List Event}
    (hworks : ∀ e ∈ es, e.choices.Works) (hnew : StampsNew E s es) :
    InStep E s es ∧ AtMostOne E s es :=
  ⟨hinit.good.inStep hworks, hinit.good.atMostOne hworks hnew⟩

end Calls

section Samples

def calm (modTime : ℤ) : Choices := { order := byExpiry, modTime }

theorem calm_works (modTime : ℤ) : (calm modTime).Works := by
  constructor <;> rfl

/-- A store with the invitation in its file. -/
def opened : State := { filename := "tokens.jsonl", disk := some (.ofTokens plain [invitation] 1) }

theorem opened_initial : opened.Initial := ⟨rfl, rfl, rfl, fun h => absurd h (by decide)⟩

/-- The invitation for another room, whose line is one byte longer. -/
def moved : Stateful := { invitation with group := "rooms" }

/-- With the etag of the file as it is first, and of the file with the other line. -/
def move : Event := ⟨.store (.update moved "\"50--62135596799999999999\""), calm 1⟩

def moveBack : Event := ⟨.store (.update invitation "\"51--62135596799999999999\""), calm 1⟩

/-- One writer moves the invitation and moves it back, and another one, who has looked at the file
before that, moves it too, all within one tick of the file's clock. -/
def thereAndBack : List Event := [move, moveBack, move]

theorem stamps_thereAndBack : (exec plain opened []).stamp = some (50, 1) ∧
    (exec plain opened [move]).stamp = some (51, 1) ∧
    (exec plain opened [move, moveBack]).stamp = some (50, 1) ∧
    (exec plain opened thereAndBack).stamp = some (51, 1) := by
  decide +kernel

theorem works_thereAndBack : ∀ e ∈ thereAndBack, e.choices.Works := by
  intro e he
  have hcalm : e.choices = calm 1 := by
    simp only [thereAndBack, List.mem_cons, List.not_mem_nil, or_false] at he
    rcases he with rfl | rfl | rfl <;> rfl
  rw [hcalm]
  exact calm_works 1

theorem stampsChange_thereAndBack : StampsChange plain opened thereAndBack := by
  obtain ⟨hzero, hone, htwo, hthree⟩ := stamps_thereAndBack
  intro a e b hsplit _ _
  rcases a with _ | ⟨x, _ | ⟨y, _ | ⟨z, a⟩⟩⟩
  · obtain ⟨rfl, -⟩ := List.cons.inj hsplit
    rw [List.nil_append, hone, hzero]
    decide
  · obtain ⟨rfl, hrest⟩ := List.cons.inj hsplit
    obtain ⟨rfl, -⟩ := List.cons.inj hrest
    rw [show [move] ++ [moveBack] = [move, moveBack] from rfl, htwo, hone]
    decide
  · obtain ⟨rfl, hrest⟩ := List.cons.inj hsplit
    obtain ⟨rfl, hlast⟩ := List.cons.inj hrest
    obtain ⟨rfl, -⟩ := List.cons.inj hlast
    rw [show [move, moveBack] ++ [move] = thereAndBack from rfl, hthree, htwo]
    decide
  · simp [thereAndBack] at hsplit

/-- That each write changes the stamp is not enough: the one that the second writer has seen comes
back. -/
theorem not_atMostOne : ¬ ∀ (E : Encoding) (s : State) (es : List Event), s.Initial →
    (∀ e ∈ es, e.choices.Works) → StampsChange E s es → InStep E s es ∧ AtMostOne E s es := by
  intro h
  have honce := (h plain opened thereAndBack opened_initial works_thereAndBack
    stampsChange_thereAndBack).2
  refine honce [] move [moveBack] move [] "\"50--62135596799999999999\"" rfl ?_ ?_ ⟨?_, ?_⟩
  · exact ⟨by decide +kernel, rfl⟩
  · exact ⟨by decide +kernel, rfl⟩
  · unfold Event.Succeeds
    decide +kernel
  · unfold Event.Succeeds
    decide +kernel

/-- The same with a tick of the clock between the writes. -/
def laterBack : Event := { moveBack with choices := calm 2 }

theorem stampsNew_later : StampsNew plain opened [move, laterBack] := by
  have hzero : (exec plain opened []).stamp = some (50, 1) := by decide +kernel
  have hone : (exec plain opened [move]).stamp = some (51, 1) := by decide +kernel
  have htwo : (exec plain opened [move, laterBack]).stamp = some (50, 2) := by decide +kernel
  intro a e b hsplit _ _
  rcases a with _ | ⟨x, _ | ⟨y, a⟩⟩
  · obtain ⟨rfl, -⟩ := List.cons.inj hsplit
    rw [List.nil_append, hone]
    rintro stamp ⟨⟩
    refine ⟨by decide, fun before hbefore => ?_⟩
    rw [List.prefix_nil.mp hbefore, hzero]
    decide
  · obtain ⟨rfl, hrest⟩ := List.cons.inj hsplit
    obtain ⟨rfl, -⟩ := List.cons.inj hrest
    rw [show [move] ++ [laterBack] = [move, laterBack] from rfl, htwo]
    rintro stamp ⟨⟩
    refine ⟨by decide, fun before hbefore => ?_⟩
    rcases before with _ | ⟨x, before⟩
    · rw [hzero]
      decide
    · obtain ⟨rfl, hnil⟩ := List.cons_prefix_cons.mp hbefore
      rw [List.prefix_nil.mp hnil, hone]
      decide
  · simp at hsplit

/-- There the etag that the second writer had is worth nothing any more. -/
theorem inStep_later : InStep plain opened [move, laterBack] ∧
    AtMostOne plain opened [move, laterBack] := by
  refine inStep_atMostOne opened_initial (fun e he => ?_) stampsNew_later
  simp only [List.mem_cons, List.not_mem_nil, or_false] at he
  rcases he with rfl | rfl
  · exact calm_works 1
  · exact calm_works 2

end Samples

end Sozvon.Token
