import Sozvon.PacketMap
import Sozvon.Runs
import Mathlib.Algebra.BigOperators.Group.List.Basic
import Mathlib.Data.List.Infix
import Mathlib.Data.List.Perm.Subperm

/-!
# The packet map against its drop set

Source numbers are unbounded integers here; the code sees them modulo `2^16`.
The specification keeps the newest number and the accepted drops, each with the
picture id step it hid, and says where a number must go: back by the drops
before it. The first number is written between `-8192` and `57343`, so that an
untouched map, whose `next` is zero, stands at the integer zero.

The ring is followed by an unbounded list of runs, newest first. A run is a
stretch of source numbers between two groups of drops. The code agrees with the
specification as long as it can still tell how far a number is from the start
of its run, which 16 bits allow for runs of at most 32769 numbers.
-/
namespace Sozvon.PacketMapRuns
open PacketMap SerialNumbers Runs

/-- A call on the map, with the source number before it is cut to 16 bits. -/
inductive Call where
  | map (number : ℤ) (pid : UInt16)
  | drop (number : ℤ) (pid : UInt16)
deriving DecidableEq, Repr

def Call.number : Call → ℤ
  | map x _ => x
  | drop x _ => x

/-- The stream as it arrived: one past its newest number, the picture id of
that number, and the accepted drops, newest first. -/
structure Source where
  next : ℤ := 0
  lastPid : UInt16 := 0
  drops : List (ℤ × UInt16) := []
deriving DecidableEq, Repr

def Source.advance (a : Source) (x : ℤ) (pid : UInt16) : Source :=
  if a.next ≤ x then { a with next := x + 1, lastPid := pid } else a

def Source.drop (a : Source) (x : ℤ) (pid : UInt16) : Source :=
  { next := x + 1, lastPid := pid, drops := (x, pid - a.lastPid) :: a.drops }

def Source.numbers (a : Source) : List ℤ := a.drops.map Prod.fst

def Source.dropsBefore (a : Source) (x : ℤ) : ℕ := a.drops.countP (·.1 < x)

def Source.pidDeltaBefore (a : Source) (x : ℤ) : UInt16 :=
  ((a.drops.filter (·.1 < x)).map Prod.snd).sum

/-- Where a source number must go. -/
def Source.target (a : Source) (x : ℤ) : ℤ := x - a.dropsBefore x

/-- The groups of consecutive drops that begin after `x`. -/
def Source.groupsAfter (a : Source) (x : ℤ) : ℕ :=
  a.numbers.countP fun d => x < d ∧ d - 1 ∉ a.numbers

/-- A number that was not dropped and lies after the 127th most recent group. -/
def Source.Survives (a : Source) (x : ℤ) : Prop := x ∉ a.numbers ∧ a.groupsAfter x ≤ 126

structure State where
  map : Map := {}
  source : Source := {}
deriving DecidableEq, Repr

def step (s : State) : Call → Option State
  | .map x pid =>
      some { map := (s.map.map (.ofInt x) pid).1, source := s.source.advance x pid }
  | .drop x pid =>
      let r := s.map.drop (.ofInt x) pid
      some { map := r.1, source := if r.2 then s.source.drop x pid else s.source }

def system : System State Call := { init := (· = {}), step }

/-- Reordering stays among the newest 8192 numbers and no jump resets the map.
Before the first drop there is nothing to reset, and every 16-bit number stands
for one in this window. -/
def InWindow (s : State) (c : Call) : Prop :=
  s.source.next - 8192 ≤ c.number ∧
    c.number ≤ s.source.next + (if s.source.drops = [] then 57343 else 8192)

/-- The map does what its drop set says. -/
structure Faithful (s : State) : Prop where
  maps : ∀ x pid, s.source.next - 8192 ≤ x → x ≤ s.source.next + 8192 →
    s.source.Survives x → (s.map.map (.ofInt x) pid).2 =
      some (.ofInt (s.source.target x), s.source.pidDeltaBefore x)
  fails : ∀ x pid, s.source.next - 8192 ≤ x → x ∈ s.source.numbers →
    (s.map.map (.ofInt x) pid).2 = none
  injective : ∀ x y pid, s.source.next - 8192 ≤ x → x ≤ s.source.next + 8192 →
    s.source.next - 8192 ≤ y → y ≤ s.source.next + 8192 →
    s.source.Survives x → s.source.Survives y →
    (s.map.map (.ofInt x) pid).2.map Prod.fst = (s.map.map (.ofInt y) pid).2.map Prod.fst →
    x = y
  reverses : ∀ x, s.source.next - 8192 ≤ x → x < s.source.next → s.source.Survives x →
    s.map.reverse (.ofInt (s.source.target x)) =
      some (.ofInt x, s.source.pidDeltaBefore x)

def newest (m : Map) : Entry := m.entry m.lastEntry

/-- The numbers of an entry, as far as 16 bits tell. -/
def Covers (e : Entry) (seqno : UInt16) : Prop :=
  0 ≤ PacketMap.compare seqno e.first ∧ PacketMap.compare seqno (e.first + e.count) < 0

/-- What a call must meet for the 16-bit ring to follow its drop set. A number
that extends the newest run is at most 32768 after its first; a group of 8192
drops or more is followed by the number right after it; and a number is dropped
only where no run of the ring covers it, or only runs behind the newest one,
which began at most 32768 before the number. -/
def Traceable (s : State) : Call → Prop
  | .map x _ => s.source.next ≤ x → s.map.entries ≠ [] →
      if s.map.delta = (newest s.map).delta ∧ s.map.pidDelta = (newest s.map).pidDelta then
        0 ≤ PacketMap.compare (.ofInt x) (newest s.map).first
      else (newest s.map).delta - s.map.delta < 8192 ∨ x = s.source.next
  | .drop x _ => x = s.source.next → s.map.entries ≠ [] →
      ¬ Covers (newest s.map) (.ofInt x) ∧
        (0 ≤ PacketMap.compare (.ofInt x) (newest s.map).first ∨
          ∀ e ∈ s.map.newestFirst, ¬ Covers e (.ofInt x))

instance (s : State) (c : Call) : Decidable (InWindow s c) :=
  inferInstanceAs (Decidable (_ ∧ _))

instance (e : Entry) (seqno : UInt16) : Decidable (Covers e seqno) :=
  inferInstanceAs (Decidable (_ ∧ _))

instance (s : State) : (c : Call) → Decidable (Traceable s c)
  | .map _ _ => inferInstanceAs (Decidable (_ → _ → ite _ _ _))
  | .drop _ _ => inferInstanceAs (Decidable (_ → _ → _ ∧ (_ ∨ _)))

section Source

variable {a : Source}

@[simp] theorem advance_drops (x : ℤ) (pid : UInt16) :
    (a.advance x pid).drops = a.drops := by
  unfold Source.advance
  split_ifs <;> rfl

@[simp] theorem numbers_advance (x : ℤ) (pid : UInt16) :
    (a.advance x pid).numbers = a.numbers := by simp [Source.numbers]

@[simp] theorem dropsBefore_advance (x y : ℤ) (pid : UInt16) :
    (a.advance x pid).dropsBefore y = a.dropsBefore y := by simp [Source.dropsBefore]

@[simp] theorem pidDeltaBefore_advance (x y : ℤ) (pid : UInt16) :
    (a.advance x pid).pidDeltaBefore y = a.pidDeltaBefore y := by simp [Source.pidDeltaBefore]

@[simp] theorem numbers_drop (x : ℤ) (pid : UInt16) :
    (a.drop x pid).numbers = x :: a.numbers := rfl

/-- A drop changes nothing for the numbers up to it. -/
theorem dropsBefore_drop {x y : ℤ} (pid : UInt16) (h : y ≤ x) :
    (a.drop x pid).dropsBefore y = a.dropsBefore y := by
  simp [Source.dropsBefore, Source.drop, not_lt.mpr h]

theorem pidDeltaBefore_drop {x y : ℤ} (pid : UInt16) (h : y ≤ x) :
    (a.drop x pid).pidDeltaBefore y = a.pidDeltaBefore y := by
  simp [Source.pidDeltaBefore, Source.drop, not_lt.mpr h]

/-- Past the newest number every drop counts. -/
theorem dropsBefore_of_below {x : ℤ} (h : ∀ d ∈ a.drops, d.1 < x) :
    a.dropsBefore x = a.drops.length := by
  rw [Source.dropsBefore, List.countP_eq_length]
  simpa using h

theorem pidDeltaBefore_of_below {x : ℤ} (h : ∀ d ∈ a.drops, d.1 < x) :
    a.pidDeltaBefore x = (a.drops.map Prod.snd).sum := by
  rw [Source.pidDeltaBefore, List.filter_eq_self.mpr (by simpa using h)]

theorem not_mem_numbers_of_below {x : ℤ} (h : ∀ d ∈ a.drops, d.1 < x) : x ∉ a.numbers := by
  intro hx
  obtain ⟨d, hd, rfl⟩ := List.mem_map.mp hx
  exact lt_irrefl _ (h d hd)

end Source

section Runs

/-- Consecutive source numbers with the same number of drops before them. -/
structure Run where
  first : ℤ
  stop : ℤ
  drops : ℕ
  pid : UInt16
deriving DecidableEq, Repr

def Run.code (r : Run) : Entry :=
  ⟨.ofInt r.first, .ofInt (r.stop - r.first), .ofInt (-r.drops), r.pid⟩

/-- A newer run begins past the older one, by at least the drops between them,
and so its targets begin past the targets of the older one. -/
def Run.After (newer older : Run) : Prop :=
  older.stop + (newer.drops - older.drops) ≤ newer.first ∧ older.drops < newer.drops

def Run.Holds (r : Run) (x : ℤ) : Prop := r.first ≤ x ∧ x < r.stop

/-- The walk of `direct` stops at the run that holds a number of the window. -/
theorem scan_first {runs : List Run} {r : Run} {x : ℤ} (hr : r ∈ runs) (hx : r.Holds x)
    (hsorted : runs.Pairwise Run.After) (hspan : x ≤ r.first + 32768)
    (hnear : ∀ r' ∈ runs, r'.first < r'.stop ∧ r'.stop ≤ x + 8192) :
    scan Entry.first (.ofInt x) (runs.map Run.code) = some r.code := by
  induction runs with
  | nil => simp at hr
  | cons r' runs ih =>
      obtain ⟨hhead, htail⟩ := List.pairwise_cons.mp hsorted
      obtain ⟨hlt, hstop⟩ := hnear r' (by simp)
      obtain ⟨h₁, h₂⟩ := hx
      simp only [List.map_cons, scan, Run.code, ← UInt16.ofInt_add, compare_ofInt_nonneg_iff,
        compare_ofInt_neg_iff]
      rcases List.mem_cons.mp hr with rfl | hr
      · rw [if_pos (by omega), if_pos (by omega)]
      · have hafter := hhead r hr
        simp only [Run.After] at hafter
        rw [if_neg (by omega)]
        exact ih hr htail fun r'' h => hnear r'' (by simp [h])

/-- The walk of `Reverse` stops there too, at the target of the number. -/
theorem scan_target {runs : List Run} {r : Run} {x : ℤ} (hr : r ∈ runs) (hx : r.Holds x)
    (hsorted : runs.Pairwise Run.After) (hspan : x ≤ r.first + 32768)
    (hnear : ∀ r' ∈ runs, r'.first < r'.stop ∧ r'.stop ≤ x + 8192) :
    scan (fun e => e.first + e.delta) (.ofInt (x - r.drops)) (runs.map Run.code) =
      some r.code := by
  induction runs with
  | nil => simp at hr
  | cons r' runs ih =>
      obtain ⟨hhead, htail⟩ := List.pairwise_cons.mp hsorted
      obtain ⟨hlt, hstop⟩ := hnear r' (by simp)
      obtain ⟨h₁, h₂⟩ := hx
      simp only [List.map_cons, scan, Run.code, ← UInt16.ofInt_add, compare_ofInt_nonneg_iff,
        compare_ofInt_neg_iff]
      rcases List.mem_cons.mp hr with rfl | hr
      · rw [if_pos (by omega), if_pos (by omega)]
      · have hafter := hhead r hr
        simp only [Run.After] at hafter
        rw [if_neg (by omega)]
        exact ih hr htail fun r'' h => hnear r'' (by simp [h])

/-- A number that no entry covers is not found. -/
theorem scan_eq_none {seqno : UInt16} {es : List Entry} (h : ∀ e ∈ es, ¬ Covers e seqno) :
    scan Entry.first seqno es = none := by
  induction es with
  | nil => rfl
  | cons e es ih =>
      have he := h e (by simp)
      simp only [scan]
      split_ifs with h₁ h₂
      · exact (he ⟨h₁, h₂⟩).elim
      · rfl
      · exact ih fun e' h' => h e' (by simp [h'])

/-- Forgetting old entries cannot make a walk succeed. -/
theorem scan_take_eq_none {start : Entry → UInt16} {seqno : UInt16} {es : List Entry}
    (h : scan start seqno es = none) (n : ℕ) : scan start seqno (es.take n) = none := by
  induction es generalizing n with
  | nil => simp [scan]
  | cons e es ih =>
      cases n with
      | zero => simp [scan]
      | succ n =>
          simp only [scan, List.take_succ_cons] at h ⊢
          split_ifs at h ⊢ with h₁ h₂
          · rfl
          · exact ih h n

/-- An entry that begins after a number is passed over. -/
theorem scan_cons_of_lt {start : Entry → UInt16} {x : ℤ} {f : ℤ} {e : Entry} {es : List Entry}
    (hf : start e = .ofInt f) (h₁ : x < f) (h₂ : f ≤ x + 8192) :
    scan start (.ofInt x) (e :: es) = scan start (.ofInt x) es := by
  rw [scan, hf, if_neg]
  rw [compare_ofInt_nonneg_iff]
  omega

end Runs

section Invariant

/-- The ring holds the newest runs, and the runs cut up the numbers seen since
the first drop as the drop set does. -/
structure Follows (s : State) (runs : List Run) : Prop where
  wellFormed : s.map.WellFormed
  next : s.map.next = .ofInt s.source.next
  nextPid : s.map.nextPid = s.source.lastPid
  delta : s.map.delta = .ofInt (-s.source.drops.length)
  pidDelta : s.map.pidDelta = (s.source.drops.map Prod.snd).sum
  ring : s.map.newestFirst = (runs.take maxEntries).map Run.code
  nil_iff : runs = [] ↔ s.source.drops = []
  sorted : runs.Pairwise Run.After
  span : ∀ r ∈ runs, r.first < r.stop ∧ r.stop ≤ r.first + 32769
  pending : ∀ r ∈ runs.head?, r.stop + (s.source.drops.length - r.drops) = s.source.next ∧
    r.drops ≤ s.source.drops.length ∧ s.source.drops.length ≤ r.drops + 65535
  trailing : ∀ r ∈ runs.head?, ∀ x, r.stop ≤ x → x < s.source.next → x ∈ s.source.numbers
  below : ∀ d ∈ s.source.drops, d.1 < s.source.next
  distinct : s.source.numbers.Nodup
  inside : ∀ r ∈ runs, ∀ x, r.Holds x → x ∉ s.source.numbers ∧
    s.source.dropsBefore x = r.drops ∧ s.source.pidDeltaBefore x = r.pid
  cover : runs ≠ [] → ∀ x, s.source.next - 8192 ≤ x → x < s.source.next →
    x ∈ s.source.numbers ∨ ∃ r ∈ runs, r.Holds x
  ends : ∀ r ∈ runs.tail, r.stop ∈ s.source.numbers
  refused : ∀ x ∈ s.source.numbers, s.source.next - 8192 ≤ x →
    scan Entry.first (.ofInt x) s.map.newestFirst = none

variable {s : State} {runs : List Run}

theorem follows_init : Follows {} [] := by
  constructor <;> simp [Map.newestFirst, Source.numbers]
  · constructor <;> simp
  · rfl
  · rfl

theorem Follows.entries_nil_iff (h : Follows s runs) : s.map.entries = [] ↔ runs = [] := by
  have hlen := congrArg List.length h.ring
  simp only [Map.newestFirst_length, List.length_map, List.length_take, maxEntries] at hlen
  rw [← List.length_eq_zero_iff, ← List.length_eq_zero_iff, hlen]
  omega

theorem Follows.direct_eq (h : Follows s runs) (seqno : UInt16) :
    s.map.direct seqno = (scan Entry.first seqno s.map.newestFirst).map
      fun e => (seqno + e.delta, e.pidDelta) := by
  rw [Map.direct, Map.search_eq_scan h.wellFormed]

/-- No run reaches past the newest number. -/
theorem Follows.stop_le (h : Follows s runs) {r : Run} (hr : r ∈ runs) :
    r.stop + (s.source.drops.length - r.drops) ≤ s.source.next := by
  cases runs with
  | nil => simp at hr
  | cons r' runs =>
      have hp := h.pending r' (by simp)
      rcases List.mem_cons.mp hr with rfl | hr
      · omega
      · have hafter := (List.pairwise_cons.mp h.sorted).1 r hr
        have hspan := h.span r' (by simp)
        simp only [Run.After] at hafter
        omega

theorem Follows.drops_le (h : Follows s runs) {r : Run} (hr : r ∈ runs) :
    r.drops ≤ s.source.drops.length := by
  cases runs with
  | nil => simp at hr
  | cons r' runs =>
      have hp := h.pending r' (by simp)
      rcases List.mem_cons.mp hr with rfl | hr
      · omega
      · have hafter := (List.pairwise_cons.mp h.sorted).1 r hr
        simp only [Run.After] at hafter
        omega

theorem Follows.near (h : Follows s runs) {x : ℤ} (hx : s.source.next - 8192 ≤ x) :
    ∀ r ∈ runs.take maxEntries, r.first < r.stop ∧ r.stop ≤ x + 8192 := by
  intro r hr
  have hr := List.mem_of_mem_take hr
  have h₁ := h.span r hr
  have h₂ := h.stop_le hr
  have h₃ := h.drops_le hr
  omega

theorem Follows.stops_sorted (h : Follows s runs) :
    runs.Pairwise fun newer older => older.stop < newer.stop := by
  refine h.sorted.imp_of_mem ?_
  intro newer older hn ho hafter
  have := h.span newer hn
  have := h.span older ho
  simp only [Run.After] at hafter
  omega

/-- Each run before the one that holds `x`, the newest excepted, ends at the
first drop of a group after `x`. -/
theorem Follows.index_le_groups (h : Follows s runs) {k : ℕ} (hk : k < runs.length) {x : ℤ}
    (hx : x < runs[k].stop) : k ≤ s.source.groupsAfter x := by
  set L := ((runs.take (k + 1)).tail).map Run.stop with hL
  have hlen : L.length = k := by
    simp only [hL, List.length_map, List.length_tail, List.length_take]
    omega
  have hsub : (runs.take (k + 1)).tail.Sublist runs :=
    (List.tail_sublist _).trans (List.take_sublist _ _)
  have hnodup : L.Nodup :=
    List.pairwise_map.mpr ((h.stops_sorted.sublist hsub).imp fun hlt => (ne_of_lt hlt).symm)
  have hgroups : L ⊆ s.source.numbers.filter fun d => x < d ∧ d - 1 ∉ s.source.numbers := by
    intro d hd
    obtain ⟨r, hr, rfl⟩ := List.mem_map.mp hd
    have hmem : r ∈ runs := hsub.subset hr
    have hends := h.ends r ((List.take_sublist _ _).tail.subset hr)
    have hspan := h.span r hmem
    have hinside := (h.inside r hmem (r.stop - 1) ⟨by omega, by omega⟩).1
    have hle : runs[k].stop ≤ r.stop := by
      obtain ⟨i, hi, rfl⟩ := List.mem_iff_getElem.mp (List.mem_of_mem_tail hr)
      simp only [List.length_take] at hi
      simp only [List.getElem_take]
      rcases Nat.lt_or_ge i k with hik | hik
      · exact le_of_lt (List.pairwise_iff_getElem.mp h.stops_sorted i k (by omega) hk hik)
      · have : i = k := by omega
        subst this
        exact le_rfl
    simp only [List.mem_filter, decide_eq_true_eq]
    exact ⟨hends, by omega, hinside⟩
  rw [Source.groupsAfter, List.countP_eq_length_filter, ← hlen]
  exact (hnodup.subperm hgroups).length_le

/-- A surviving number of the window lies in a run the ring still holds. -/
theorem Follows.run_of_survives (h : Follows s runs) (hne : runs ≠ []) {x : ℤ}
    (h₁ : s.source.next - 8192 ≤ x) (h₂ : x < s.source.next) (hx : s.source.Survives x) :
    ∃ r ∈ runs.take maxEntries, r.Holds x := by
  obtain hmem | ⟨r, hr, hholds⟩ := h.cover hne x h₁ h₂
  · exact (hx.1 hmem).elim
  · obtain ⟨k, hk, rfl⟩ := List.mem_iff_getElem.mp hr
    have hgroups := h.index_le_groups hk hholds.2
    have := hx.2
    refine ⟨runs[k], ?_, hholds⟩
    rw [List.mem_take_iff_getElem]
    exact ⟨k, by simp only [maxEntries]; omega, rfl⟩

/-- Past the newest number nothing was dropped and every drop counts. -/
theorem Follows.fresh (h : Follows s runs) {x : ℤ} (hx : s.source.next ≤ x) :
    x ∉ s.source.numbers ∧ s.source.dropsBefore x = s.source.drops.length ∧
      s.source.pidDeltaBefore x = (s.source.drops.map Prod.snd).sum := by
  have hbelow : ∀ d ∈ s.source.drops, d.1 < x := fun d hd => (h.below d hd).trans_le hx
  exact ⟨not_mem_numbers_of_below hbelow, dropsBefore_of_below hbelow,
    pidDeltaBefore_of_below hbelow⟩

theorem Follows.newest_eq {r : Run} (h : Follows s (r :: runs)) : newest s.map = r.code := by
  have hne : s.map.entries ≠ [] := by simp [h.entries_nil_iff]
  have hring := h.ring
  rw [Map.newestFirst_eq_cons hne] at hring
  simpa [newest, maxEntries] using congrArg List.head? hring

/-- Nothing is pending exactly when the newest run can be extended. -/
theorem Follows.same_deltas_iff {r : Run} (h : Follows s (r :: runs)) :
    s.map.delta = (newest s.map).delta ∧ s.map.pidDelta = (newest s.map).pidDelta ↔
      s.source.drops.length = r.drops := by
  have hp := h.pending r (by simp)
  have hspan := h.span r (by simp)
  rw [h.newest_eq, h.delta, h.pidDelta]
  simp only [Run.code, ofInt_eq_iff]
  constructor
  · intro ⟨heq, _⟩
    omega
  · intro heq
    refine ⟨by omega, ?_⟩
    obtain ⟨hlast, _, hpid⟩ := h.inside r (by simp) (r.stop - 1) ⟨by omega, by omega⟩
    rw [← hpid, pidDeltaBefore_of_below]
    intro d hd
    have hbelow := h.below d hd
    have hne : d.1 ≠ r.stop - 1 := fun he => hlast (List.mem_map.mpr ⟨d, hd, he⟩)
    omega

/-- A newer number with no drop since the newest run extends it. -/
theorem Follows.extend {r : Run} (h : Follows s (r :: runs)) {x : ℤ} (pid : UInt16)
    (hx : s.source.next ≤ x) (hspan : x ≤ r.first + 32768)
    (hdrops : s.source.drops.length = r.drops) :
    Follows { map := { addMapping s.map (.ofInt x) s.map.delta s.map.pidDelta with
                         next := .ofInt x + 1, nextPid := pid }
              source := s.source.advance x pid } ({ r with stop := x + 1 } :: runs) := by
  have hne : s.map.entries ≠ [] := by simp [h.entries_nil_iff]
  have hr := h.span r (by simp)
  have hp := h.pending r (by simp)
  have hsame := h.same_deltas_iff.mpr hdrops
  have hring : (addMapping s.map (.ofInt x) s.map.delta s.map.pidDelta).newestFirst =
      ((({ r with stop := x + 1 } : Run) :: runs).take maxEntries).map Run.code := by
    have hlast := h.newest_eq
    rw [newest] at hlast hsame
    rw [newestFirst_addMapping h.wellFormed hne]
    simp only [if_pos hsame, recorded]
    rw [hlast, h.ring, Run.code, ← ofInt_sub, show (1 : UInt16) = .ofInt 1 from rfl,
      ← UInt16.ofInt_add, show x - r.first + 1 = x + 1 - r.first by omega]
    simp [maxEntries, Run.code]
  have hadv : (s.source.advance x pid).next = x + 1 := by simp [Source.advance, hx]
  obtain ⟨hhead, htail⟩ := List.pairwise_cons.mp h.sorted
  constructor
  case wellFormed =>
    exact Map.wellFormed_congr (m := addMapping _ _ _ _) rfl rfl
      (addMapping_wellFormed h.wellFormed _ _ _)
  case next => rw [hadv, UInt16.ofInt_add]; rfl
  case nextPid => simp [Source.advance, hx]
  case delta => simpa using h.delta
  case pidDelta => simpa using h.pidDelta
  case ring => exact hring
  case nil_iff => simpa using h.nil_iff
  case sorted => exact List.pairwise_cons.mpr ⟨hhead, htail⟩
  case span =>
    intro r' hr'
    rcases List.mem_cons.mp hr' with rfl | hr'
    · exact ⟨by simp only; omega, by simp only; omega⟩
    · exact h.span r' (by simp [hr'])
  case pending =>
    intro r' hr'
    obtain rfl : _ = r' := by simpa using hr'
    simp only [hadv, advance_drops]
    omega
  case trailing =>
    intro r' hr' y h₁ h₂
    obtain rfl : _ = r' := by simpa using hr'
    simp only [hadv] at h₁ h₂
    omega
  case below =>
    intro d hd
    rw [advance_drops] at hd
    have := h.below d hd
    rw [hadv]
    omega
  case distinct => simpa using h.distinct
  case inside =>
    intro r' hr' y hy
    simp only [numbers_advance, dropsBefore_advance, pidDeltaBefore_advance]
    rcases List.mem_cons.mp hr' with rfl | hr'
    · rcases lt_or_ge y s.source.next with hlt | hge
      · exact h.inside r (by simp) y ⟨hy.1, by omega⟩
      · obtain ⟨h₁, h₂, h₃⟩ := h.fresh hge
        refine ⟨h₁, by rw [h₂, hdrops], ?_⟩
        rw [h₃, ← h.pidDelta, hsame.2, h.newest_eq]
        rfl
    · exact h.inside r' (by simp [hr']) y hy
  case cover =>
    intro _ y h₁ h₂
    rw [hadv] at h₁ h₂
    rw [numbers_advance]
    rcases lt_or_ge y s.source.next with hlt | hge
    · obtain hmem | ⟨r', hr', hy⟩ := h.cover (by simp) y (by omega) hlt
      · exact .inl hmem
      · rcases List.mem_cons.mp hr' with rfl | hr'
        · exact .inr ⟨_, List.mem_cons_self, hy.1, by have := hy.2; simp only; omega⟩
        · exact .inr ⟨r', by simp [hr'], hy⟩
    · exact .inr ⟨_, List.mem_cons_self, by simp only; omega, by simp only; omega⟩
  case ends =>
    simpa using h.ends
  case refused =>
    intro d hd hnear
    rw [numbers_advance] at hd
    rw [hadv] at hnear
    have hold := h.refused d hd (by omega)
    obtain ⟨d', hd', rfl⟩ := List.mem_map.mp hd
    have hlt := h.below d' hd'
    have hbefore : d'.1 < r.first := by
      by_contra hge
      exact (h.inside r (by simp) d'.1 ⟨by omega, by omega⟩).1 hd
    rw [h.ring] at hold
    simp only [maxEntries, List.take_succ_cons, List.map_cons] at hold
    rw [scan_cons_of_lt (f := r.first) rfl hbefore (by omega)] at hold
    refine (congrArg (scan Entry.first _) hring).trans ?_
    simp only [maxEntries, List.take_succ_cons, List.map_cons]
    rw [scan_cons_of_lt (f := r.first) rfl hbefore (by omega)]
    exact hold

/-- The run that such a number begins comes to the front of the ring. -/
theorem Follows.newestFirst_open {r : Run} (h : Follows s (r :: runs)) {x : ℤ}
    (hx : s.source.next ≤ x) (hnear : x ≤ s.source.next + 8192)
    (hdrops : s.source.drops.length ≠ r.drops)
    (hgap : (newest s.map).delta - s.map.delta < 8192 ∨ x = s.source.next) :
    (addMapping s.map (.ofInt x) s.map.delta s.map.pidDelta).newestFirst =
      ((⟨s.source.next, x + 1, s.source.drops.length, (s.source.drops.map Prod.snd).sum⟩ ::
        r :: runs).take maxEntries).map Run.code := by
  set new : Run :=
    ⟨s.source.next, x + 1, s.source.drops.length, (s.source.drops.map Prod.snd).sum⟩ with hnew
  have hne : s.map.entries ≠ [] := by simp [h.entries_nil_iff]
  have hp := h.pending r (by simp)
  have hsame : ¬ _ := fun hs => hdrops (h.same_deltas_iff.mp hs)
  have hlast := h.newest_eq
  rw [newest] at hlast hsame hgap
  have hcode : recorded (s.map.entry s.map.lastEntry) (.ofInt x) s.map.delta s.map.pidDelta =
      new.code := by
    have hff : r.code.first + r.code.count + (r.code.delta - s.map.delta) =
        .ofInt s.source.next := by
      rw [h.delta]
      simp only [Run.code, ← UInt16.ofInt_add, ← ofInt_sub]
      congr 1
      omega
    rw [hlast] at hgap hsame ⊢
    simp only [recorded, if_neg hsame, hff, compare_ofInt_neg_iff]
    have hf : (if r.code.delta - s.map.delta < 8192 ∧ 1 ≤ (x - s.source.next) % 65536 ∧
          (x - s.source.next) % 65536 ≤ 32767 then UInt16.ofInt s.source.next
        else .ofInt x) = .ofInt s.source.next := by
      by_cases heq : x = s.source.next
      · rw [heq, ite_self]
      · exact if_pos ⟨hgap.resolve_right heq, by omega, by omega⟩
    rw [hf, h.delta, h.pidDelta, ← ofInt_sub, show (1 : UInt16) = .ofInt 1 from rfl,
      ← UInt16.ofInt_add, show x - s.source.next + 1 = x + 1 - s.source.next by omega]
    rfl
  rw [newestFirst_addMapping h.wellFormed hne]
  simp only [if_neg hsame]
  rw [hcode, h.ring]
  simp [maxEntries, List.take_take]

/-- A newer number behind pending drops begins a run right after them. -/
theorem Follows.open {r : Run} (h : Follows s (r :: runs)) {x : ℤ} (pid : UInt16)
    (hx : s.source.next ≤ x) (hnear : x ≤ s.source.next + 8192)
    (hdrops : s.source.drops.length ≠ r.drops)
    (hgap : (newest s.map).delta - s.map.delta < 8192 ∨ x = s.source.next) :
    Follows { map := { addMapping s.map (.ofInt x) s.map.delta s.map.pidDelta with
                         next := .ofInt x + 1, nextPid := pid }
              source := s.source.advance x pid }
      (⟨s.source.next, x + 1, s.source.drops.length, (s.source.drops.map Prod.snd).sum⟩ ::
        r :: runs) := by
  set new : Run :=
    ⟨s.source.next, x + 1, s.source.drops.length, (s.source.drops.map Prod.snd).sum⟩ with hnew
  have hr := h.span r (by simp)
  have hp := h.pending r (by simp)
  have hring := h.newestFirst_open hx hnear hdrops hgap
  have hadv : (s.source.advance x pid).next = x + 1 := by simp [Source.advance, hx]
  constructor
  case wellFormed =>
    exact Map.wellFormed_congr (m := addMapping _ _ _ _) rfl rfl
      (addMapping_wellFormed h.wellFormed _ _ _)
  case next => rw [hadv, UInt16.ofInt_add]; rfl
  case nextPid => simp [Source.advance, hx]
  case delta => simpa using h.delta
  case pidDelta => simpa using h.pidDelta
  case ring => exact hring
  case nil_iff => simpa using h.nil_iff
  case sorted =>
    refine List.pairwise_cons.mpr ⟨?_, h.sorted⟩
    intro r' hr'
    have hle := h.stop_le hr'
    have hdrops' : r'.drops ≤ r.drops := by
      rcases List.mem_cons.mp hr' with rfl | hr'
      · exact le_rfl
      · exact le_of_lt ((List.pairwise_cons.mp h.sorted).1 r' hr').2
    exact ⟨by simp only [hnew]; omega, by simp only [hnew]; omega⟩
  case span =>
    intro r' hr'
    rcases List.mem_cons.mp hr' with rfl | hr'
    · exact ⟨by simp only [hnew]; omega, by simp only [hnew]; omega⟩
    · exact h.span r' hr'
  case pending =>
    intro r' hr'
    obtain rfl : new = r' := by simpa using hr'
    simp only [hadv, advance_drops, hnew]
    omega
  case trailing =>
    intro r' hr' y h₁ h₂
    obtain rfl : new = r' := by simpa using hr'
    simp only [hadv, hnew] at h₁ h₂
    omega
  case below =>
    intro d hd
    rw [advance_drops] at hd
    have := h.below d hd
    rw [hadv]
    omega
  case distinct => simpa using h.distinct
  case inside =>
    intro r' hr' y hy
    simp only [numbers_advance, dropsBefore_advance, pidDeltaBefore_advance]
    rcases List.mem_cons.mp hr' with rfl | hr'
    · exact h.fresh hy.1
    · exact h.inside r' hr' y hy
  case cover =>
    intro _ y h₁ h₂
    rw [hadv] at h₁ h₂
    rw [numbers_advance]
    rcases lt_or_ge y s.source.next with hlt | hge
    · obtain hmem | ⟨r', hr', hy⟩ := h.cover (by simp) y (by omega) hlt
      · exact .inl hmem
      · exact .inr ⟨r', List.mem_cons_of_mem _ hr', hy⟩
    · exact .inr ⟨new, List.mem_cons_self, hge, h₂⟩
  case ends =>
    intro r' hr'
    rw [numbers_advance]
    rcases List.mem_cons.mp hr' with rfl | hr'
    · exact h.trailing r' (by simp) r'.stop le_rfl (by omega)
    · exact h.ends r' hr'
  case refused =>
    intro d hd hnear'
    rw [numbers_advance] at hd
    rw [hadv] at hnear'
    have hold := h.refused d hd (by omega)
    obtain ⟨d', hd', rfl⟩ := List.mem_map.mp hd
    have hlt := h.below d' hd'
    rw [h.ring] at hold
    refine (congrArg (scan Entry.first _) hring).trans ?_
    simp only [maxEntries, List.take_succ_cons, List.map_cons]
    rw [scan_cons_of_lt (f := s.source.next) rfl hlt (by omega)]
    have htake := scan_take_eq_none hold 127
    rwa [← List.map_take, List.take_take] at htake

/-- The first drop writes the 8192 numbers before it down as a run. -/
theorem Follows.drop_first (h : Follows s []) (pid : UInt16) :
    Follows { map := (s.map.drop (.ofInt s.source.next) pid).1
              source := s.source.drop s.source.next pid }
      [⟨s.source.next - 8192, s.source.next, 0, 0⟩] := by
  have hentries : s.map.entries = [] := h.entries_nil_iff.mpr rfl
  have hdrops := h.nil_iff.mp rfl
  have hlast := h.wellFormed.growing (by simp [hentries, maxEntries])
  have hring : (s.map.drop (.ofInt s.source.next) pid).1.newestFirst =
      ([⟨s.source.next - 8192, s.source.next, 0, 0⟩] : List Run).map Run.code := by
    simp only [hentries, List.length_nil] at hlast
    simp [Map.drop, h.next, hentries, Map.newestFirst, Map.entry, Map.back, hlast, Run.code,
      ofInt_sub]
    exact ⟨rfl, rfl⟩
  have hnumbers : s.source.numbers = [] := by simp [Source.numbers, hdrops]
  constructor
  case wellFormed =>
    constructor <;> simp [Map.drop, h.next, hentries, hlast, maxEntries]
  case next => simp [Map.drop, h.next, Source.drop, UInt16.ofInt_add]
  case nextPid => simp [Map.drop, h.next, Source.drop]
  case delta => simp [Map.drop, h.next, Source.drop, hdrops, h.delta]; rfl
  case pidDelta => simp [Map.drop, h.next, Source.drop, hdrops, h.pidDelta, h.nextPid]
  case ring => exact hring
  case nil_iff => simp [Source.drop]
  case sorted => simp
  case span =>
    simp
    omega
  case pending => simp [Source.drop, hdrops]
  case trailing =>
    intro r hr y h₁ h₂
    obtain rfl := by simpa using hr
    simp only [Source.drop] at h₁ h₂
    simp
    omega
  case below => simp [Source.drop, hdrops]
  case distinct => simp [hnumbers]
  case inside =>
    intro r hr y hy
    obtain rfl := by simpa using hr
    have hlt := hy.2
    simp only at hlt
    rw [dropsBefore_drop pid (by omega), pidDeltaBefore_drop pid (by omega), numbers_drop,
      hnumbers]
    simp [Source.dropsBefore, Source.pidDeltaBefore, hdrops]
    omega
  case cover =>
    intro _ y h₁ h₂
    simp only [Source.drop] at h₁ h₂
    rcases eq_or_ne y s.source.next with rfl | hne
    · simp
    · exact .inr ⟨_, List.mem_cons_self, by simp only; omega, by simp only; omega⟩
  case ends => simp
  case refused =>
    intro d hd _
    obtain rfl : d = s.source.next := by simpa [hnumbers] using hd
    refine (congrArg (scan Entry.first _) hring).trans ?_
    simp only [List.map_cons, List.map_nil, scan, Run.code, ← UInt16.ofInt_add,
      compare_ofInt_nonneg_iff, compare_ofInt_neg_iff]
    split_ifs <;> first | rfl | omega

/-- A further drop lengthens the pending group and leaves the ring alone. -/
theorem Follows.drop_next {r : Run} (h : Follows s (r :: runs)) (pid : UInt16)
    (htrace : Traceable s (.drop s.source.next pid)) :
    Follows { map := (s.map.drop (.ofInt s.source.next) pid).1
              source := s.source.drop s.source.next pid } (r :: runs) := by
  have hne : s.map.entries ≠ [] := by simp [h.entries_nil_iff]
  have hlen : s.map.entries.length ≠ 0 := fun hz => hne (List.length_eq_zero_iff.mp hz)
  have hr := h.span r (by simp)
  have hp := h.pending r (by simp)
  obtain ⟨hcovers, hblocked⟩ := htrace rfl hne
  have hmap : (s.map.drop (.ofInt s.source.next) pid).1 =
      { s.map with pidDelta := s.map.pidDelta + (pid - s.map.nextPid), nextPid := pid
                   delta := s.map.delta - 1, next := .ofInt s.source.next + 1 } := by
    simp [Map.drop, h.next, hlen]
  have hring : (s.map.drop (.ofInt s.source.next) pid).1.newestFirst = s.map.newestFirst := by
    rw [hmap]
    rfl
  have hnone : scan Entry.first (.ofInt s.source.next) s.map.newestFirst = none := by
    rcases hblocked with hblocked | hblocked
    · rw [Map.newestFirst_eq_cons hne, scan]
      rw [newest] at hblocked hcovers
      rw [if_pos hblocked, if_neg fun hlt => hcovers ⟨hblocked, hlt⟩]
    · exact scan_eq_none hblocked
  have hpending : s.source.drops.length ≤ r.drops + 65534 := by
    by_contra hlarge
    refine hcovers ?_
    rw [h.newest_eq]
    simp only [Covers, Run.code, ← UInt16.ofInt_add, compare_ofInt_nonneg_iff,
      compare_ofInt_neg_iff]
    omega
  constructor
  case wellFormed =>
    rw [hmap]
    exact Map.wellFormed_congr (m := s.map) rfl rfl h.wellFormed
  case next => rw [hmap]; simp [Source.drop, UInt16.ofInt_add]
  case nextPid => rw [hmap]; rfl
  case delta =>
    rw [hmap]
    simp only [h.delta, Source.drop, List.length_cons, show (1 : UInt16) = .ofInt 1 from rfl,
      ← ofInt_sub]
    congr 1
    omega
  case pidDelta =>
    rw [hmap]
    simp [Source.drop, h.pidDelta, h.nextPid, add_comm]
  case ring => rw [hring, h.ring]
  case nil_iff => simp [Source.drop]
  case sorted => exact h.sorted
  case span => exact h.span
  case pending =>
    intro r' hr'
    obtain rfl : r = r' := by simpa using hr'
    simp only [Source.drop, List.length_cons]
    omega
  case trailing =>
    intro r' hr' y h₁ h₂
    rw [numbers_drop]
    simp only [Source.drop] at h₂
    rcases eq_or_ne y s.source.next with rfl | hne'
    · exact List.mem_cons_self
    · exact List.mem_cons_of_mem _ (h.trailing r' hr' y h₁ (by omega))
  case below =>
    intro d hd
    simp only [Source.drop] at hd ⊢
    rcases List.mem_cons.mp hd with rfl | hd
    · simp
    · have := h.below d hd
      omega
  case distinct =>
    rw [numbers_drop, List.nodup_cons]
    exact ⟨(h.fresh le_rfl).1, h.distinct⟩
  case inside =>
    intro r' hr' y hy
    have hle := h.stop_le hr'
    have hle' := h.drops_le hr'
    have hlt := hy.2
    obtain ⟨h₁, h₂, h₃⟩ := h.inside r' hr' y hy
    rw [numbers_drop, dropsBefore_drop pid (by omega), pidDeltaBefore_drop pid (by omega)]
    refine ⟨?_, h₂, h₃⟩
    simp only [List.mem_cons, not_or]
    exact ⟨by omega, h₁⟩
  case cover =>
    intro _ y h₁ h₂
    rw [numbers_drop]
    simp only [Source.drop] at h₁ h₂
    rcases eq_or_ne y s.source.next with rfl | hne'
    · exact .inl List.mem_cons_self
    · exact (h.cover (by simp) y (by omega) (by omega)).imp_left (List.mem_cons_of_mem _)
  case ends =>
    intro r' hr'
    exact List.mem_cons_of_mem _ (h.ends r' hr')
  case refused =>
    intro d hd hnear
    rw [hring]
    simp only [Source.drop] at hnear
    rcases List.mem_cons.mp hd with rfl | hd
    · exact hnone
    · exact h.refused d hd (by omega)

/-- Before the first drop every number is passed through. -/
theorem Follows.map_untouched (h : Follows s []) {x : ℤ} (pid : UInt16)
    (h₁ : s.source.next - 8192 ≤ x) (h₂ : x ≤ s.source.next + 57343) :
    s.map.map (.ofInt x) pid =
      (if s.source.next ≤ x then { s.map with next := .ofInt x + 1, nextPid := pid } else s.map,
        some (.ofInt x, 0)) := by
  have hcond : (PacketMap.compare s.map.next (.ofInt x) ≤ 0 ∨ 8 * 1024 < s.map.next - .ofInt x) ↔
      s.source.next ≤ x := by
    have hsub := toNat_ofInt (s.source.next - x)
    rw [h.next, compare_ofInt_nonpos_iff, ← ofInt_sub, UInt16.lt_iff_toNat_lt,
      show (8 * 1024 : UInt16).toNat = 8192 from rfl]
    omega
  have hdelta : s.map.delta = 0 := by rw [h.delta, h.nil_iff.mp rfl]; rfl
  simp only [Map.map, hdelta, h.entries_nil_iff, true_and, if_true, hcond]
  split_ifs <;> rfl

theorem Follows.map_newer (h : Follows s runs) (hne : runs ≠ []) {x : ℤ} (pid : UInt16)
    (h₁ : s.source.next ≤ x) (h₂ : x ≤ s.source.next + 8192) :
    s.map.map (.ofInt x) pid =
      ({ addMapping s.map (.ofInt x) s.map.delta s.map.pidDelta with
           next := .ofInt x + 1, nextPid := pid },
        some (.ofInt x + s.map.delta, s.map.pidDelta)) := by
  have hnewer : PacketMap.compare s.map.next (.ofInt x) ≤ 0 := by
    rw [h.next, compare_ofInt_nonpos_iff]
    omega
  have hjump : ¬ 8 * 1024 < UInt16.ofInt x - s.map.next := by
    have hsub := toNat_ofInt (x - s.source.next)
    rw [h.next, ← ofInt_sub, UInt16.lt_iff_toNat_lt, show (8 * 1024 : UInt16).toNat = 8192 from rfl]
    omega
  simp only [Map.map, h.entries_nil_iff, hne, hnewer, hjump, and_false, if_false, if_true]

theorem Follows.map_late (h : Follows s runs) (hne : runs ≠ []) {x : ℤ} (pid : UInt16)
    (h₁ : s.source.next - 8192 ≤ x) (h₂ : x < s.source.next) :
    s.map.map (.ofInt x) pid = (s.map, s.map.direct (.ofInt x)) := by
  have hlate : ¬ PacketMap.compare s.map.next (.ofInt x) ≤ 0 := by
    rw [h.next, compare_ofInt_nonpos_iff]
    omega
  have hjump : ¬ 8 * 1024 < s.map.next - UInt16.ofInt x := by
    have hsub := toNat_ofInt (s.source.next - x)
    rw [h.next, ← ofInt_sub, UInt16.lt_iff_toNat_lt, show (8 * 1024 : UInt16).toNat = 8192 from rfl]
    omega
  simp only [Map.map, h.entries_nil_iff, hne, hlate, hjump, and_false, if_false]

/-- The map keeps no record of the numbers it passes through. -/
theorem Follows.untouched (h : Follows s []) {x : ℤ} (pid : UInt16) :
    Follows { map := { s.map with next := .ofInt x + 1, nextPid := pid }
              source := { s.source with next := x + 1, lastPid := pid } } [] := by
  have hdrops := h.nil_iff.mp rfl
  constructor
  case wellFormed => exact Map.wellFormed_congr (m := s.map) rfl rfl h.wellFormed
  case next => simp [UInt16.ofInt_add]
  case delta => exact h.delta
  case pidDelta => exact h.pidDelta
  case ring => exact h.ring
  case distinct => exact h.distinct
  all_goals simp [hdrops, Source.numbers]

theorem Follows.step_map (h : Follows s runs) {x : ℤ} {pid : UInt16}
    (hwindow : InWindow s (.map x pid)) (htrace : Traceable s (.map x pid)) :
    ∃ runs', Follows { map := (s.map.map (.ofInt x) pid).1, source := s.source.advance x pid }
      runs' := by
  obtain ⟨h₁, h₂⟩ := hwindow
  simp only [Call.number, ← h.nil_iff] at h₁ h₂
  cases runs with
  | nil =>
      rw [h.map_untouched pid h₁ (by simpa using h₂)]
      rcases lt_or_ge x s.source.next with hlate | hnewer
      · rw [if_neg (by omega), show s.source.advance x pid = s.source from if_neg (by omega)]
        exact ⟨_, h⟩
      · rw [if_pos hnewer, show s.source.advance x pid =
          { s.source with next := x + 1, lastPid := pid } from if_pos hnewer]
        exact ⟨_, h.untouched pid⟩
  | cons r runs =>
      simp only [reduceCtorEq, if_false] at h₂
      rcases lt_or_ge x s.source.next with hlate | hnewer
      · rw [h.map_late (by simp) pid h₁ hlate, show s.source.advance x pid = s.source from
          if_neg (by omega)]
        exact ⟨_, h⟩
      · rw [h.map_newer (by simp) pid hnewer h₂]
        have htrace := htrace hnewer (by simp [h.entries_nil_iff])
        simp only [h.same_deltas_iff] at htrace
        by_cases hdrops : s.source.drops.length = r.drops
        · have hp := h.pending r (by simp)
          have hr := h.span r (by simp)
          rw [if_pos hdrops, h.newest_eq, Run.code, compare_ofInt_nonneg_iff] at htrace
          exact ⟨_, h.extend pid hnewer (by omega) hdrops⟩
        · rw [if_neg hdrops] at htrace
          exact ⟨_, h.open pid hnewer h₂ hdrops htrace⟩

theorem Follows.step_drop (h : Follows s runs) {x : ℤ} {pid : UInt16}
    (hwindow : InWindow s (.drop x pid)) (htrace : Traceable s (.drop x pid)) :
    ∃ runs', Follows
      { map := (s.map.drop (.ofInt x) pid).1
        source := if (s.map.drop (.ofInt x) pid).2 then s.source.drop x pid else s.source }
      runs' := by
  obtain ⟨h₁, h₂⟩ := hwindow
  simp only [Call.number] at h₁ h₂
  by_cases hx : x = s.source.next
  · subst hx
    rw [show (s.map.drop (.ofInt s.source.next) pid).2 = true by simp [Map.drop, h.next], if_pos rfl]
    cases runs with
    | nil => exact ⟨_, h.drop_first pid⟩
    | cons r runs => exact ⟨_, h.drop_next pid htrace⟩
  · have hne : UInt16.ofInt x ≠ s.map.next := by
      rw [h.next, ne_eq, ofInt_eq_iff]
      split_ifs at h₂ <;> omega
    rw [show s.map.drop (.ofInt x) pid = (s.map, false) by simp [Map.drop, hne], if_neg (by simp)]
    exact ⟨_, h⟩

/-- Every call in the window that the ring can trace keeps the two in step. -/
theorem follows_step {t : State} {c : Call} (h : ∃ runs, Follows s runs)
    (hc : InWindow s c ∧ Traceable s c) (ht : step s c = some t) : ∃ runs, Follows t runs := by
  obtain ⟨runs, h⟩ := h
  obtain ⟨hwindow, htrace⟩ := hc
  cases c with
  | map x pid =>
      obtain rfl := Option.some.inj ht
      exact h.step_map hwindow htrace
  | drop x pid =>
      obtain rfl := Option.some.inj ht
      exact h.step_drop hwindow htrace

end Invariant

section Results

variable {s : State} {runs : List Run}

/-- What a surviving number of the window maps to. -/
theorem Follows.maps (h : Follows s runs) {x : ℤ} (pid : UInt16)
    (h₁ : s.source.next - 8192 ≤ x) (h₂ : x ≤ s.source.next + 8192) (hx : s.source.Survives x) :
    (s.map.map (.ofInt x) pid).2 =
      some (.ofInt (s.source.target x), s.source.pidDeltaBefore x) := by
  rcases eq_or_ne runs [] with rfl | hne
  · rw [h.map_untouched pid h₁ (by omega)]
    simp [Source.target, Source.dropsBefore, Source.pidDeltaBefore, h.nil_iff.mp rfl]
  · rcases lt_or_ge x s.source.next with hlate | hnewer
    · obtain ⟨r, hr, hholds⟩ := h.run_of_survives hne h₁ hlate hx
      have hmem := List.mem_of_mem_take hr
      have hspan := h.span r hmem
      have hstop := hholds.2
      obtain ⟨-, hdrops, hpid⟩ := h.inside r hmem x hholds
      have hscan := scan_first hr hholds (h.sorted.sublist (List.take_sublist _ _)) (by omega)
        (h.near h₁)
      rw [h.map_late hne pid h₁ hlate, h.direct_eq, h.ring, hscan]
      simp [Run.code, Source.target, hdrops, hpid, sub_eq_add_neg, UInt16.ofInt_add]
    · obtain ⟨-, hdrops, hpid⟩ := h.fresh hnewer
      rw [h.map_newer hne pid hnewer h₂, h.delta, h.pidDelta]
      simp [Source.target, hdrops, hpid, sub_eq_add_neg, UInt16.ofInt_add]

theorem Follows.fails (h : Follows s runs) {x : ℤ} (pid : UInt16)
    (h₁ : s.source.next - 8192 ≤ x) (hx : x ∈ s.source.numbers) :
    (s.map.map (.ofInt x) pid).2 = none := by
  have hlate : x < s.source.next := by
    obtain ⟨d, hd, rfl⟩ := List.mem_map.mp hx
    exact h.below d hd
  have hne : runs ≠ [] := by
    rintro rfl
    simp [Source.numbers, h.nil_iff.mp rfl] at hx
  rw [h.map_late hne pid h₁ hlate, h.direct_eq, h.refused x hx h₁]
  rfl

/-- Between two surviving numbers fewer are dropped than there are. -/
theorem Follows.target_lt (h : Follows s runs) {x y : ℤ} (hx : x ∉ s.source.numbers)
    (hxy : x < y) : s.source.target x < s.source.target y ∧
      s.source.target y - s.source.target x ≤ y - x := by
  have hsplit : s.source.dropsBefore y =
      s.source.dropsBefore x + s.source.numbers.countP fun d => x ≤ d ∧ d < y := by
    simp only [Source.dropsBefore, Source.numbers, List.countP_map]
    induction s.source.drops with
    | nil => rfl
    | cons d ds ih =>
        simp only [List.countP_cons, Function.comp_apply, decide_eq_true_eq] at ih ⊢
        split_ifs <;> omega
  have hsub : s.source.numbers.filter (fun d => x ≤ d ∧ d < y) ⊆
      (List.range (y - x - 1).toNat).map fun i : ℕ => x + 1 + (i : ℤ) := by
    intro d hd
    simp only [List.mem_filter, decide_eq_true_eq] at hd
    have hne : d ≠ x := fun he => hx (he ▸ hd.1)
    refine List.mem_map.mpr ⟨(d - x - 1).toNat, List.mem_range.mpr (by omega), by omega⟩
  have hle := ((h.distinct.filter _).subperm hsub).length_le
  rw [List.length_map, List.length_range, ← List.countP_eq_length_filter] at hle
  simp only [Source.target]
  omega

theorem Follows.reverses (h : Follows s runs) {x : ℤ}
    (h₁ : s.source.next - 8192 ≤ x) (h₂ : x < s.source.next) (hx : s.source.Survives x) :
    s.map.reverse (.ofInt (s.source.target x)) =
      some (.ofInt x, s.source.pidDeltaBefore x) := by
  rcases eq_or_ne runs [] with rfl | hne
  · have hdelta : s.map.delta = 0 := by rw [h.delta, h.nil_iff.mp rfl]; rfl
    simp [Map.reverse, hdelta, h.entries_nil_iff, Source.target, Source.dropsBefore,
      Source.pidDeltaBefore, h.nil_iff.mp rfl]
  · obtain ⟨r, hr, hholds⟩ := h.run_of_survives hne h₁ h₂ hx
    have hmem := List.mem_of_mem_take hr
    have hspan := h.span r hmem
    have hstop := hholds.2
    obtain ⟨-, hdrops, hpid⟩ := h.inside r hmem x hholds
    have hscan := scan_target hr hholds (h.sorted.sublist (List.take_sublist _ _)) (by omega)
      (h.near h₁)
    simp only [Map.reverse, h.entries_nil_iff, hne, and_false, if_false, Source.target, hdrops]
    rw [Map.search_eq_scan h.wellFormed, h.ring, hscan]
    simp [Run.code, hpid, ← UInt16.ofInt_add]

theorem Follows.faithful (h : Follows s runs) : Faithful s where
  maps _ pid h₁ h₂ hx := h.maps pid h₁ h₂ hx
  fails _ pid h₁ hx := h.fails pid h₁ hx
  injective x y pid hx₁ hx₂ hy₁ hy₂ hx hy heq := by
    rw [h.maps pid hx₁ hx₂ hx, h.maps pid hy₁ hy₂ hy] at heq
    have heq : UInt16.ofInt (s.source.target x) = .ofInt (s.source.target y) := by
      simpa using heq
    rcases lt_trichotomy x y with hlt | rfl | hlt
    · have hlt' := h.target_lt hx.1 hlt
      have := ofInt_injOn heq (by omega) (by omega)
      omega
    · rfl
    · have hlt' := h.target_lt hy.1 hlt
      have := ofInt_injOn heq (by omega) (by omega)
      omega
  reverses _ h₁ h₂ hx := h.reverses h₁ h₂ hx

/-- In a run whose calls the ring can trace, the map equals its drop set,
forwards and backwards, in every state. -/
theorem faithful_of_traceable
    (h : Reachable system (fun s c => InWindow s c ∧ Traceable s c) s) : Faithful s := by
  have hfollows : ∃ runs, Follows s runs := by
    refine h.invariant ?_ fun _ _ _ hP hc ht => follows_step hP hc ht
    rintro _ rfl
    exact ⟨[], follows_init⟩
  obtain ⟨runs, h⟩ := hfollows
  exact h.faithful

/-- Two groups of drops, a late number and a wrap. -/
def wrappedRun : State where
  map :=
    { next := 3, nextPid := 12, delta := 65533, pidDelta := 2, lastEntry := 2
      entries := [⟨49152, 8192, 0, 0⟩, ⟨57346, 8191, 65534, 1⟩, ⟨2, 1, 65533, 2⟩] }
  source := { next := 65539, lastPid := 12, drops := [(65537, 1), (57345, 0), (57344, 1)] }

theorem faithful_of_traceable_wrapped : Faithful wrappedRun := by
  have hrun : system.exec (fun s c => InWindow s c ∧ Traceable s c) {}
      [.map 57343 7, .drop 57344 8, .drop 57345 8, .map 57347 9, .map 57346 9, .map 65535 9,
        .map 65536 10, .drop 65537 11, .map 65538 12] = some wrappedRun := by
    decide +kernel
  exact faithful_of_traceable (.exec (.init rfl) hrun)

/-- One drop and then `n` numbers in a row. -/
def longRun (n : ℕ) : State where
  map :=
    { next := .ofInt (2 + n), delta := 65535, lastEntry := 1
      entries := [⟨57345, 8192, 0, 0⟩, ⟨2, .ofInt n, 65535, 0⟩] }
  source := { next := 2 + n, drops := [(1, 0)] }

theorem longRun_step (n : ℕ) :
    system.step (longRun n) (.map (2 + n) 0) = some (longRun (n + 1)) := by
  have hcount : UInt16.ofInt (2 + n) - 2 + 1 = UInt16.ofInt ↑(n + 1) := by
    rw [show (2 : UInt16) = .ofInt 2 from rfl, ← ofInt_sub, show (1 : UInt16) = .ofInt 1 from rfl,
      ← UInt16.ofInt_add, show (2 + n - 2 + 1 : ℤ) = ↑(n + 1) by omega]
  have hnext : UInt16.ofInt (2 + n) + 1 = UInt16.ofInt (2 + ↑(n + 1)) := by
    rw [show (1 : UInt16) = .ofInt 1 from rfl, ← UInt16.ofInt_add,
      show (2 + n + 1 : ℤ) = 2 + ↑(n + 1) by omega]
  have hadvance : (longRun n).source.advance (2 + n) 0 = (longRun (n + 1)).source := by
    simp [Source.advance, longRun]
    omega
  simp only [system, step, hadvance]
  simp only [longRun, ← hnext, ← hcount]
  generalize UInt16.ofInt (2 + n) = k
  simp [Map.map, PacketMap.compare, addMapping, Map.entry]

theorem longRun_reachable (n : ℕ) : Reachable system InWindow (longRun (n + 1)) := by
  induction n with
  | zero =>
      have hstart : system.exec InWindow {} [.map 0 0, .drop 1 0, .map 2 0] = some (longRun 1) := by
        decide +kernel
      exact .exec (.init rfl) hstart
  | succ n ih =>
      refine .step ih ?_ (longRun_step (n + 1))
      simp only [InWindow, Call.number, longRun]
      split_ifs <;> omega

/-- The 16-bit walk loses a run that grows past 32769 numbers: the number just
forwarded is not found again. -/
theorem not_faithful : ¬ ∀ s, Reachable system InWindow s → Faithful s := by
  intro h
  have hmaps := (h _ (longRun_reachable 32769)).maps 32771 0 (by decide) (by decide)
    ⟨by decide, by decide⟩
  revert hmaps
  decide +kernel

end Results

end Sozvon.PacketMapRuns
