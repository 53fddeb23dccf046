import Mathlib.Data.List.AList
import Mathlib.Data.List.Sort
import Mathlib.Algebra.Group.Int.Defs
import Mathlib.Algebra.GroupWithZero.Nat

/-!
# The stateful tokens

A set of tokens in memory and the file that it is kept in sync with. Every step
that touches the file system comes with a flag that says whether it fails. It
fails with an error of its own: `os.ErrNotExist` is what a step says when the
file is not there, and nobody else removes it. Tokens are values here, so
`Clone` has no counterpart.

Of the bytes in the file only those are told apart that the decoder tells
apart: the tokens in it, and whether it fails. Temporary files are of no
concern to anybody.
-/
namespace Sozvon.Token

structure Stateful where
  token : String
  group : String := ""
  includeSubgroups : Bool := false
  username : Option String := none
  permissions : List String := []
  expires : Option ℤ := none
  notBefore : Option ℤ := none
  issuedAt : Option ℤ := none
  issuedBy : Option String := none
  link : Bool := false
deriving DecidableEq, Repr

/-- How many bytes a token takes in the file: an object and a newline. -/
structure Encoding where
  len : Stateful → ℕ
  two_le : ∀ t, 2 ≤ len t

/-- The file, with what the decoder makes of it. -/
structure File where
  lines : List Stateful
  /-- The decoder fails after these. -/
  garbled : Bool := false
  size : ℕ
  modTime : ℤ
  empty : size = 0 → lines = [] ∧ garbled = false

inductive Error where
  | notExist
  | tagMismatch
  /-- A step of the file system has failed. -/
  | failed
  /-- The decoder has. -/
  | syntaxError
  | text (message : String)
deriving DecidableEq, Repr

inductive Result (α : Type) where
  | ok (a : α)
  | error (e : Error)
  | panic
deriving DecidableEq

abbrev Tokens := AList fun _ : String => Stateful

structure State where
  filename : String
  fileSize : ℕ := 0
  modTime : ℤ := 0
  tokens : Option Tokens := none
  /-- The file of that name. -/
  disk : Option File := none

/-- The steps of `load` that fail. -/
structure LoadFaults where
  stat : Bool := false
  openFile : Bool := false
  decode : Bool := false
  fstat : Bool := false

/-- The comparison of `sortStateful`. -/
def less (a b : Stateful) : Bool :=
  match b.expires, a.expires with
  | none, _ => false
  | some _, none => true
  | some tb, some ta => ta < tb

/-- An order that a map's iteration and `sort.Slice` may leave a set of tokens in. -/
structure Order where
  sort : List Stateful → List Stateful
  perm : ∀ l, (sort l).Perm l
  sorted : ∀ l, (sort l).Pairwise fun a b => less b a = false

/-- What fails during an operation, and what else is not determined. -/
structure Choices where
  load : LoadFaults := {}
  mkdirAll : Bool := false
  openAppend : Bool := false
  /-- The append fails after this many bytes. -/
  append : Option ℕ := none
  statAppended : Bool := false
  remove : Bool := false
  createTemp : Bool := false
  /-- The `load` of `rewrite`'s call of `list`. -/
  list : LoadFaults := {}
  encode : Bool := false
  close : Bool := false
  rename : Bool := false
  statRenamed : Bool := false
  order : Order
  /-- The time of a write. -/
  modTime : ℤ

/-- Nanoseconds from the zero `time.Time`, that times are counted from here, to the one that
`UnixNano` counts from. -/
def unixEpoch : ℤ := 62135596800 * 10 ^ 9

namespace File

/-- An empty file. -/
def created (modTime : ℤ) : File := { lines := [], size := 0, modTime, empty := fun _ => ⟨rfl, rfl⟩ }

/-- The first `k` bytes of a token's line are appended: a line that lacks no more than its
newline can be decoded. -/
def append (f : File) (E : Encoding) (t : Stateful) (k : ℕ) (modTime : ℤ) : File :=
  if hk : k = 0 then f
  else {
    lines := if E.len t ≤ k + 1 then f.lines ++ [t] else f.lines
    garbled := f.garbled || decide (k + 1 < E.len t)
    size := f.size + k
    modTime
    empty := fun h => absurd (Nat.eq_zero_of_add_eq_zero_left h) hk }

theorem sum_len_pos (E : Encoding) {a : List Stateful} (h : (a.map E.len).sum = 0) : a = [] := by
  cases a with
  | nil => rfl
  | cons t a =>
      have htwo := E.two_le t
      simp only [List.map_cons, List.sum_cons] at h
      omega

def ofTokens (E : Encoding) (a : List Stateful) (modTime : ℤ) : File where
  lines := a
  size := (a.map E.len).sum
  modTime
  empty h := ⟨sum_len_pos E h, rfl⟩

/-- What decoding it line by line gives. -/
def read (f : File) : Tokens := f.lines.foldl (fun ts t => ts.insert t.token t) ∅

end File

namespace State

variable (s : State)

def reset : State := { s with modTime := 0, fileSize := 0, tokens := none }

def etag : String :=
  if s.modTime = 0 then "" else s!"\"{s.fileSize}-{s.modTime - unixEpoch}\""

/-- The file has not changed since it was read. -/
def Hit (f : File) : Prop := s.modTime = f.modTime ∧ s.fileSize = f.size

instance (f : File) : Decidable (s.Hit f) := inferInstanceAs (Decidable (_ ∧ _))

def load (fault : LoadFaults) : State × Except Error String :=
  if s.filename = "" then (s.reset, .ok "")
  else if fault.stat then (s.reset, .error .failed)
  else match s.disk with
    | none => (s.reset, .ok "")
    | some f =>
        if s.Hit f then (s, .ok s.etag)
        else if fault.openFile then (s.reset, .error .failed)
        else if fault.decode then (s.reset, .error .failed)
        else if f.garbled then (s.reset, .error .syntaxError)
        else if fault.fstat then (s.reset, .error .failed)
        else
          let s : State := { s with tokens := some f.read, modTime := f.modTime, fileSize := f.size }
          (s, .ok s.etag)

def get (fault : LoadFaults) (token : String) : State × Except Error (Stateful × String) :=
  match s.load fault with
  | (s, .error e) => (s, .error e)
  | (s, .ok etag) =>
      match (s.tokens.getD ∅).lookup token with
      | none => (s, .error .notExist)
      | some t => (s, .ok (t, etag))

def values (ts : Tokens) : List Stateful := ts.entries.map (·.2)

def list (fault : LoadFaults) (order : Order) (group : String) (all : Bool) :
    State × Except Error (List Stateful × String) :=
  if group ≠ "" ∧ all then (s, .error (.text "cannot specify both group and all"))
  else match s.load fault with
    | (s, .error e) => (s, .error e)
    | (s, .ok _) =>
        let a := (values (s.tokens.getD ∅)).filter fun t => all || t.group = group
        (s, .ok (order.sort a, s.etag))

variable (E : Encoding) (c : Choices)

def rewrite : State × Except Error Unit :=
  if (s.tokens.getD ∅).entries = [] then
    if c.remove then (s, .error .failed) else ({ s with disk := none }, .ok ())
  else if c.createTemp then (s, .error .failed)
  else match s.list c.list c.order "" true with
    | (s, .error e) => (s, .error e)
    | (s, .ok (a, _)) =>
        if c.encode || c.close || c.rename then (s, .error .failed)
        else
          let f := File.ofTokens E a c.modTime
          let s : State := { s with disk := some f }
          if c.statRenamed then (s.reset, .ok ())
          else ({ s with modTime := f.modTime, fileSize := f.size }, .ok ())

def add (t : Stateful) : State × Result Stateful :=
  if c.mkdirAll || c.openAppend then (s, .error .failed)
  else
    let f := s.disk.getD (.created c.modTime)
    match c.append with
    | some k => ({ s with disk := some (f.append E t (min k (E.len t - 1)) c.modTime) }, .error .failed)
    | none =>
        let f := f.append E t (E.len t) c.modTime
        let s : State := { s with tokens := some ((s.tokens.getD ∅).insert t.token t), disk := some f }
        if c.statAppended then (s.reset, .ok t)
        else ({ s with modTime := f.modTime, fileSize := f.size }, .ok t)

/-- `state.tokens[token] = old`, which panics if there is no map. -/
def putBack (token : String) (old : Stateful) (e : Error) : State × Result Stateful :=
  match s.tokens with
  | none => (s, .panic)
  | some ts => ({ s with tokens := some (ts.insert token old) }, .error e)

/-- The end of `Update` and `Delete`: where the file cannot be written the old token is put back. -/
def finish (token : String) (old a : Stateful) : State × Except Error Unit → State × Result Stateful
  | (s, .ok ()) => (s, .ok a)
  | (s, .error e) => s.putBack token old e

def update (t : Stateful) (etag : String) : State × Result Stateful :=
  if s.filename = "" then (s, .error (if etag ≠ "" then .tagMismatch else .notExist))
  else match s.load c.load with
    | (s, .error e) => (s, .error e)
    | (s, .ok _) =>
        let ts := s.tokens.getD ∅
        let s : State := { s with tokens := some ts }
        match ts.lookup t.token with
        | some old =>
            if etag ≠ s.etag then (s, .error .tagMismatch)
            else finish t.token old t (rewrite { s with tokens := some (ts.insert t.token t) } E c)
        | none => if etag ≠ "" then (s, .error .tagMismatch) else s.add E c t

def delete (token : String) (etag : String) : State × Result Stateful :=
  if s.filename = "" then (s, .error .notExist)
  else match s.load c.load with
    | (s, .error e) => (s, .error e)
    | (s, .ok _) =>
        let ts := s.tokens.getD ∅
        match ts.lookup token with
        | none => (s, .error .notExist)
        | some old =>
            if etag ≠ s.etag then (s, .error .tagMismatch)
            else finish token old old (rewrite { s with tokens := some (ts.erase token) } E c)

/-- A week in nanoseconds. -/
def week : ℤ := 7 * 24 * 3600 * 10 ^ 9

def Expired (now : ℤ) (t : Stateful) : Prop := t.expires.any fun expires => expires < now - week

instance (now : ℤ) : DecidablePred (Expired now) := fun _ => inferInstanceAs (Decidable (_ = true))

def live (now : ℤ) (ts : Tokens) : Tokens where
  entries := ts.entries.filter fun e => ¬ Expired now e.2
  nodupKeys := ts.nodupKeys.sublist List.filter_sublist

def expire (now : ℤ) : State × Result Unit :=
  match s.load c.load with
  | (s, .error e) => (s, .error e)
  | (s, .ok _) =>
      let ts := s.tokens.getD ∅
      if ∃ t ∈ values ts, Expired now t then
        match rewrite { s with tokens := some (live now ts) } E c with
        | (s, .ok ()) => (s, .ok ())
        | (s, .error e) => (s, .error e)
      else (s, .ok ())

end State

end Sozvon.Token
