import Sozvon.SerialNumbers

/-!
# The packet map

The remapping of sequence numbers and picture ids of `packetmap`: a ring of at
most 128 entries, each saying by how much a run of consecutive source numbers
is shifted. Every number is 16 bits wide and wraps, the run lengths included.

`direct` and `Reverse` walk the ring in the same way, from the newest entry
backwards, and differ only in where an entry starts and in which way it is
applied; `search` is that walk. It is read here as a scan of the list
`newestFirst`, which `addMapping` changes at its head only.
-/
namespace Sozvon.PacketMap
open SerialNumbers

def maxEntries : ℕ := 128

structure Entry where
  first : UInt16
  count : UInt16
  delta : UInt16
  pidDelta : UInt16
deriving DecidableEq, Repr, Inhabited

structure Map where
  next : UInt16 := 0
  nextPid : UInt16 := 0
  delta : UInt16 := 0
  pidDelta : UInt16 := 0
  lastEntry : ℕ := 0
  entries : List Entry := []
deriving DecidableEq, Repr

/-- Comparison modulo `2^16`. -/
def compare (s1 s2 : UInt16) : ℤ :=
  if s1 = s2 then 0
  else if (s2 - s1) &&& 0x8000 ≠ 0 then 1
  else -1

def Map.reset (_ : Map) : Map := {}

def Map.entry (m : Map) (i : ℕ) : Entry := m.entries.getD i default

def addMapping (m : Map) (seqno delta pidDelta : UInt16) : Map :=
  if m.entries.length = 0 then m
  else
    let last := m.entry m.lastEntry
    if delta = last.delta ∧ pidDelta = last.pidDelta then
      { m with entries :=
          m.entries.set m.lastEntry { last with count := seqno - last.first + 1 } }
    else
      let d := last.delta - delta
      let ff := last.first + last.count + d
      -- expand the interval to cover missing values, unless targets overlap
      let f := if d < 8192 ∧ compare ff seqno < 0 then ff else seqno
      let e : Entry := ⟨f, seqno - f + 1, delta, pidDelta⟩
      if m.entries.length < maxEntries then
        { m with entries := m.entries ++ [e], lastEntry := m.entries.length }
      else
        let j := (m.lastEntry + 1) % maxEntries
        { m with entries := m.entries.set j e, lastEntry := j }

/-- The loop of `direct` and of `Reverse`: the entry that holds `seqno` when an
entry begins at `start`. The walk begins at index `i`, steps backwards around
the ring and ends before it would come back to the newest entry. -/
def Map.search (m : Map) (start : Entry → UInt16) (seqno : UInt16) : ℕ → ℕ → Option Entry
  | 0, _ => none
  | fuel + 1, i =>
      let f := start (m.entry i)
      if 0 ≤ compare seqno f then
        if compare seqno (f + (m.entry i).count) < 0 then some (m.entry i) else none
      else
        let j := if 0 < i then i - 1 else m.entries.length - 1
        if j = m.lastEntry then none else m.search start seqno fuel j

def Map.direct (m : Map) (seqno : UInt16) : Option (UInt16 × UInt16) :=
  (m.search Entry.first seqno m.entries.length m.lastEntry).map
    fun e => (seqno + e.delta, e.pidDelta)

/-- The target of a source number with the picture id delta to apply, recording
the mapping if the number is new. -/
def Map.map (m : Map) (seqno pid : UInt16) : Map × Option (UInt16 × UInt16) :=
  if m.delta = 0 ∧ m.entries = [] then
    if compare m.next seqno ≤ 0 ∨ 8 * 1024 < m.next - seqno then
      ({ m with next := seqno + 1, nextPid := pid }, some (seqno, 0))
    else (m, some (seqno, 0))
  else if compare m.next seqno ≤ 0 then
    if 8 * 1024 < seqno - m.next then
      ({ m.reset with next := seqno + 1, nextPid := pid }, some (seqno, 0))
    else
      ({ addMapping m seqno m.delta m.pidDelta with next := seqno + 1, nextPid := pid },
        some (seqno + m.delta, m.pidDelta))
  else if 8 * 1024 < m.next - seqno then
    ({ m.reset with next := seqno + 1, nextPid := pid }, some (seqno, 0))
  else (m, m.direct seqno)

/-- The source number behind a target, with the delta to apply in reverse. -/
def Map.reverse (m : Map) (seqno : UInt16) : Option (UInt16 × UInt16) :=
  if m.delta = 0 ∧ m.entries = [] then some (seqno, 0)
  else if m.entries = [] then (if m.delta = 0 then some (seqno, 0) else none)
  else
    (m.search (fun e => e.first + e.delta) seqno m.entries.length m.lastEntry).map
      fun e => (seqno - e.delta, e.pidDelta)

/-- Record a dropped packet; `false` if it is not safe to drop. -/
def Map.drop (m : Map) (seqno pid : UInt16) : Map × Bool :=
  if seqno ≠ m.next then (m, false)
  else
    let entries := if m.entries.length = 0 then [⟨seqno - 8192, 8192, 0, 0⟩] else m.entries
    ({ m with
        entries
        pidDelta := m.pidDelta + (pid - m.nextPid)
        nextPid := pid
        delta := m.delta - 1
        next := seqno + 1 }, true)

section Compare

theorem compare_eq (s1 s2 : UInt16) :
    compare s1 s2 = if s1 = s2 then 0 else if 32768 ≤ (s2 - s1).toNat then 1 else -1 := by
  simp only [compare, and_0x8000_ne_zero]

/-- On wrapped integers `compare` looks at the distance to the second one. -/
theorem compare_ofInt_neg_iff {x y : ℤ} :
    compare (UInt16.ofInt x) (UInt16.ofInt y) < 0 ↔
      1 ≤ (y - x) % 65536 ∧ (y - x) % 65536 ≤ 32767 := by
  have h := toNat_ofInt (y - x)
  simp only [compare_eq, ofInt_eq_iff, ← ofInt_sub]
  split_ifs <;> omega

theorem compare_ofInt_nonneg_iff {x y : ℤ} :
    0 ≤ compare (UInt16.ofInt x) (UInt16.ofInt y) ↔
      (y - x) % 65536 = 0 ∨ 32768 ≤ (y - x) % 65536 := by
  rw [← not_lt, compare_ofInt_neg_iff]
  omega

theorem compare_ofInt_nonpos_iff {x y : ℤ} :
    compare (UInt16.ofInt x) (UInt16.ofInt y) ≤ 0 ↔ (y - x) % 65536 ≤ 32767 := by
  have h := toNat_ofInt (y - x)
  simp only [compare_eq, ofInt_eq_iff, ← ofInt_sub]
  split_ifs <;> omega

end Compare

section Ring

/-- What the walk finds in a list of entries, newest first. -/
def scan (start : Entry → UInt16) (seqno : UInt16) : List Entry → Option Entry
  | [] => none
  | e :: es =>
      if 0 ≤ compare seqno (start e) then
        if compare seqno (start e + e.count) < 0 then some e else none
      else scan start seqno es

/-- The index of the `k`-th newest entry. -/
def Map.back (m : Map) (k : ℕ) : ℕ :=
  if k ≤ m.lastEntry then m.lastEntry - k else m.lastEntry + m.entries.length - k

def Map.newestFirst (m : Map) : List Entry :=
  (List.range m.entries.length).map fun k => m.entry (m.back k)

/-- The newest entry is inside the ring, and is the last one appended as long
as the ring still grows. -/
structure Map.WellFormed (m : Map) : Prop where
  last_lt : m.entries ≠ [] → m.lastEntry < m.entries.length
  length_le : m.entries.length ≤ maxEntries
  growing : m.entries.length < maxEntries → m.lastEntry = m.entries.length - 1

@[simp] theorem Map.newestFirst_length (m : Map) :
    m.newestFirst.length = m.entries.length := by
  simp [newestFirst]

theorem Map.getElem_newestFirst (m : Map) (k : ℕ) (hk : k < m.newestFirst.length) :
    m.newestFirst[k] = m.entry (m.back k) := by
  simp only [newestFirst, List.getElem_map, List.getElem_range]

theorem Map.newestFirst_drop {m : Map} {k : ℕ} (hk : k < m.entries.length) :
    m.newestFirst.drop k = m.entry (m.back k) :: m.newestFirst.drop (k + 1) := by
  rw [List.drop_eq_getElem_cons (by simpa using hk)]
  simp [newestFirst]

theorem Map.newestFirst_eq_cons {m : Map} (h : m.entries ≠ []) :
    m.newestFirst = m.entry m.lastEntry :: m.newestFirst.drop 1 := by
  have := newestFirst_drop (m := m) (k := 0) (List.length_pos_iff.mpr h)
  simpa [back] using this

/-- Stepping backwards around the ring goes to the next older entry, and comes
back to the newest one exactly after the oldest. -/
theorem Map.back_succ {m : Map} (hm : m.WellFormed) {k : ℕ} (hk : k < m.entries.length) :
    (if 0 < m.back k then m.back k - 1 else m.entries.length - 1) =
      if k + 1 = m.entries.length then m.lastEntry else m.back (k + 1) := by
  have hlast := hm.last_lt (List.ne_nil_of_length_pos (by omega))
  unfold back
  split_ifs <;> omega

theorem Map.back_ne_last {m : Map} (hm : m.WellFormed) {k : ℕ} (hk : k + 1 < m.entries.length) :
    m.back (k + 1) ≠ m.lastEntry := by
  have hlast := hm.last_lt (List.ne_nil_of_length_pos (by omega))
  unfold back
  split_ifs <;> omega

theorem Map.search_back {m : Map} (hm : m.WellFormed) (start : Entry → UInt16)
    (seqno : UInt16) (fuel k : ℕ) (hk : fuel + k = m.entries.length) :
    m.search start seqno fuel (m.back k) = scan start seqno (m.newestFirst.drop k) := by
  induction fuel generalizing k with
  | zero => simp [search, scan, List.drop_of_length_le, ← hk]
  | succ fuel ih =>
      rw [newestFirst_drop (by omega), search, scan, back_succ hm (by omega)]
      by_cases hlast : k + 1 = m.entries.length
      · simp [hlast, List.drop_of_length_le, scan]
      · have hne := back_ne_last hm (show k + 1 < m.entries.length by omega)
        simp only [hlast, if_false, hne, ih (k + 1) (by omega)]

/-- The loop of the source is a scan from the newest entry to the oldest. -/
theorem Map.search_eq_scan {m : Map} (hm : m.WellFormed) (start : Entry → UInt16)
    (seqno : UInt16) :
    m.search start seqno m.entries.length m.lastEntry = scan start seqno m.newestFirst := by
  have h := search_back hm start seqno m.entries.length 0 (by omega)
  simpa [back] using h

theorem Map.wellFormed_congr {m m' : Map} (he : m'.entries = m.entries)
    (hl : m'.lastEntry = m.lastEntry) (hm : m.WellFormed) : m'.WellFormed :=
  ⟨he ▸ hl ▸ hm.last_lt, he ▸ hm.length_le, he ▸ hl ▸ hm.growing⟩

/-- Rewriting the newest entry in place. -/
theorem Map.newestFirst_set_last {m : Map} (hm : m.WellFormed) (h : m.entries ≠ [])
    (e : Entry) :
    ({ m with entries := m.entries.set m.lastEntry e } : Map).newestFirst =
      e :: m.newestFirst.drop 1 := by
  have hlast := hm.last_lt h
  apply List.ext_getElem
  · simp only [newestFirst_length, List.length_set, List.length_cons, List.length_drop]
    omega
  · intro k hk _
    simp only [newestFirst_length, List.length_set] at hk
    cases k with
    | zero => simp [newestFirst, entry, back, List.getD_eq_getElem?_getD, hlast]
    | succ k =>
        have hne := back_ne_last hm hk
        have hback : ({ m with entries := m.entries.set m.lastEntry e } : Map).back (k + 1) =
            m.back (k + 1) := by
          simp only [back, List.length_set]
        rw [getElem_newestFirst, List.getElem_cons_succ, List.getElem_drop, getElem_newestFirst,
          hback, Nat.add_comm 1 k, entry, entry, List.getD_eq_getElem?_getD,
          List.getElem?_set_ne fun he => hne he.symm, ← List.getD_eq_getElem?_getD]

theorem Map.wellFormed_set_last {m : Map} (hm : m.WellFormed) (e : Entry) :
    ({ m with entries := m.entries.set m.lastEntry e } : Map).WellFormed := by
  constructor <;> simp only [List.length_set, ne_eq, List.set_eq_nil_iff]
  exacts [hm.last_lt, hm.length_le, hm.growing]

/-- The two ways `addMapping` adds an entry. -/
def Map.push (m : Map) (e : Entry) : Map :=
  if m.entries.length < maxEntries then
    { m with entries := m.entries ++ [e], lastEntry := m.entries.length }
  else
    { m with entries := m.entries.set ((m.lastEntry + 1) % maxEntries) e
             lastEntry := (m.lastEntry + 1) % maxEntries }

theorem Map.push_wellFormed {m : Map} (hm : m.WellFormed) (e : Entry) :
    (m.push e).WellFormed := by
  have hle := hm.length_le
  unfold push
  split_ifs with h
  · constructor <;> simp
    omega
  · have hmod := Nat.mod_lt (m.lastEntry + 1) (show 0 < maxEntries by decide)
    constructor <;> simp only [List.length_set] <;> intros <;> omega

/-- A new entry becomes the newest, and the oldest of a full ring goes. -/
theorem Map.newestFirst_push {m : Map} (hm : m.WellFormed) (h : m.entries ≠ []) (e : Entry) :
    (m.push e).newestFirst = (e :: m.newestFirst).take maxEntries := by
  have hlast := hm.last_lt h
  have hle := hm.length_le
  have hgrow := hm.growing
  unfold push
  split_ifs with hlt
  · have hl := hgrow hlt
    have hpos := List.length_pos_iff.mpr h
    apply List.ext_getElem
    · simp only [newestFirst_length, List.length_append, List.length_take, List.length_cons,
        List.length_nil]
      omega
    · intro k hk _
      simp only [newestFirst_length, List.length_append, List.length_cons, List.length_nil] at hk
      cases k with
      | zero => simp [newestFirst, entry, back, List.getD_eq_getElem?_getD]
      | succ k =>
          have h₁ : m.entries.length - (k + 1) < m.entries.length := by omega
          have h₂ : k ≤ m.lastEntry := by omega
          have h₃ : m.lastEntry - k = m.entries.length - (k + 1) := by omega
          have h₄ : k + 1 ≤ m.entries.length := by omega
          have hback : ({ m with
              entries := m.entries ++ [e], lastEntry := m.entries.length } : Map).back (k + 1) =
            m.entries.length - (k + 1) := by
            rw [back, if_pos h₄]
          have hback' : m.back k = m.entries.length - (k + 1) := by rw [back, if_pos h₂, h₃]
          rw [getElem_newestFirst, List.getElem_take, List.getElem_cons_succ, getElem_newestFirst,
            hback, hback', entry, entry, List.getD_eq_getElem?_getD,
            List.getElem?_append_left h₁, ← List.getD_eq_getElem?_getD]
  · have hfull : m.entries.length = 128 := by simp only [maxEntries] at hlt hle; omega
    have hj : (m.lastEntry + 1) % maxEntries =
        if m.lastEntry = 127 then 0 else m.lastEntry + 1 := by
      simp only [maxEntries]
      split_ifs <;> omega
    rw [hj]
    apply List.ext_getElem
    · simp [maxEntries, hfull]
    · intro k hk _
      simp only [newestFirst_length, List.length_set] at hk
      cases k with
      | zero =>
          have : (if m.lastEntry = 127 then 0 else m.lastEntry + 1) < m.entries.length := by
            split_ifs <;> omega
          simp [newestFirst, entry, back, List.getD_eq_getElem?_getD, this]
      | succ k =>
          simp only [newestFirst, entry, back, List.getD_eq_getElem?_getD, List.getElem_map,
            List.getElem_range, List.length_set, List.getElem_take, List.getElem_cons_succ,
            List.getElem?_set, hfull]
          split_ifs <;> first | omega | (congr 2; omega)

/-- What `addMapping` records: the newest entry extended to `seqno`, or a new
entry, which begins right after the dropped numbers if it can. -/
def recorded (last : Entry) (seqno delta pidDelta : UInt16) : Entry :=
  if delta = last.delta ∧ pidDelta = last.pidDelta then
    { last with count := seqno - last.first + 1 }
  else
    let d := last.delta - delta
    let ff := last.first + last.count + d
    let f := if d < 8192 ∧ compare ff seqno < 0 then ff else seqno
    ⟨f, seqno - f + 1, delta, pidDelta⟩

theorem addMapping_eq {m : Map} (h : m.entries ≠ []) (seqno delta pidDelta : UInt16) :
    addMapping m seqno delta pidDelta =
      let last := m.entry m.lastEntry
      if delta = last.delta ∧ pidDelta = last.pidDelta then
        { m with entries := m.entries.set m.lastEntry (recorded last seqno delta pidDelta) }
      else m.push (recorded last seqno delta pidDelta) := by
  have hpos : m.entries.length ≠ 0 := fun hz => h (List.length_eq_zero_iff.mp hz)
  simp only [addMapping, hpos, if_false, recorded, Map.push]
  split_ifs <;> rfl

theorem addMapping_wellFormed {m : Map} (hm : m.WellFormed) (seqno delta pidDelta : UInt16) :
    (addMapping m seqno delta pidDelta).WellFormed := by
  by_cases h : m.entries = []
  · simpa [addMapping, h] using hm
  · rw [addMapping_eq h]
    simp only
    split_ifs
    · exact Map.wellFormed_set_last hm _
    · exact Map.push_wellFormed hm _

@[simp] theorem addMapping_delta (m : Map) (seqno delta pidDelta : UInt16) :
    (addMapping m seqno delta pidDelta).delta = m.delta := by
  simp only [addMapping]
  split_ifs <;> rfl

@[simp] theorem addMapping_pidDelta (m : Map) (seqno delta pidDelta : UInt16) :
    (addMapping m seqno delta pidDelta).pidDelta = m.pidDelta := by
  simp only [addMapping]
  split_ifs <;> rfl

/-- Only the newest entry changes, or a newer one is put before it. -/
theorem newestFirst_addMapping {m : Map} (hm : m.WellFormed) (h : m.entries ≠ [])
    (seqno delta pidDelta : UInt16) :
    (addMapping m seqno delta pidDelta).newestFirst =
      let last := m.entry m.lastEntry
      let e := recorded last seqno delta pidDelta
      if delta = last.delta ∧ pidDelta = last.pidDelta then e :: m.newestFirst.drop 1
      else (e :: m.newestFirst).take maxEntries := by
  rw [addMapping_eq h]
  simp only
  split_ifs
  · exact Map.newestFirst_set_last hm h _
  · exact Map.newestFirst_push hm h _

end Ring

end Sozvon.PacketMap
