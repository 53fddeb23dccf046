import Sozvon.PacketMapRuns

/-!
# The next number of a packet map

A map that knows which packet comes next can drop it. `Map` takes the number of
a newer packet as the last one, but it tells a newer packet by comparing with
`next`, and up to 8192 numbers before `next` are late ones. A map is made with
`next` zero, so until something has set it the last 8192 numbers of a turn look
late, and a stream that begins there is not followed.
-/
namespace Sozvon.NextPacket
open PacketMap SerialNumbers Runs
open PacketMapRuns (Call)

/-- A map and the numbers of the packets that it has mapped or dropped. -/
structure State where
  map : Map := {}
  seen : List ℤ := []
deriving DecidableEq, Repr

def step (s : State) : Call → Option State
  | .map x pid => some { map := (s.map.map (.ofInt x) pid).1, seen := x :: s.seen }
  | .drop x pid =>
      let r := s.map.drop (.ofInt x) pid
      some { map := r.1, seen := if r.2 then x :: s.seen else s.seen }

def system : System State Call := { init := (· = {}), step }

/-- A packet newer than all before it, by at most 8192. -/
structure Newer (s : State) (x : ℤ) : Prop where
  newer : ∀ y ∈ s.seen, y < x
  near : s.seen ≠ [] → ∃ y ∈ s.seen, x ≤ y + 8192

/-- After the packet the map expects the following one, and would drop it. -/
structure Knows (s : State) (x : ℤ) (pid : UInt16) : Prop where
  next : (s.map.map (.ofInt x) pid).1.next = .ofInt (x + 1)
  drops : ∀ pid', ((s.map.map (.ofInt x) pid).1.drop (.ofInt (x + 1)) pid').2 = true

/-- The map takes the packet for a late one: the number it expects is 2 to 8192
ahead of it. -/
def Overlooked (s : State) (x : ℤ) : Prop :=
  2 ≤ (s.map.next - .ofInt x).toNat ∧ (s.map.next - .ofInt x).toNat ≤ 8192

/-- Every number so far is one of the last 8192 of a turn, and not its last. -/
def Early (s : State) (x : ℤ) : Prop :=
  ∀ y ∈ x :: s.seen, 57344 ≤ y % 65536 ∧ y % 65536 ≤ 65534

/-- No number is more than 49152 behind the newest one, from where on it would
be taken for a newer one, or more than 8192 ahead of it. -/
def Near (s : State) (c : Call) : Prop :=
  (∀ y ∈ s.seen, y - 49152 ≤ c.number) ∧ (s.seen ≠ [] → ∃ y ∈ s.seen, c.number ≤ y + 8192)

section Next

variable {s : State} {x t : ℤ} {pid : UInt16}

/-- Whether `Map` sets the next number does not depend on what was dropped. -/
theorem next_map (m : Map) (seqno pid : UInt16) :
    (m.map seqno pid).1.next =
      if PacketMap.compare m.next seqno ≤ 0 ∨ 8 * 1024 < m.next - seqno then seqno + 1
      else m.next := by
  unfold Map.map
  by_cases huntouched : m.delta = 0 ∧ m.entries = []
  · rw [if_pos huntouched]
    split_ifs <;> rfl
  rw [if_neg huntouched]
  by_cases hnewer : PacketMap.compare m.next seqno ≤ 0
  · rw [if_pos hnewer, if_pos (Or.inl hnewer)]
    split_ifs <;> rfl
  rw [if_neg hnewer]
  by_cases hfar : 8 * 1024 < m.next - seqno
  · rw [if_pos hfar, if_pos (Or.inr hfar)]
  · rw [if_neg hfar, if_neg (not_or.mpr ⟨hnewer, hfar⟩)]

/-- The same in integers, for a map that expects the number after `t`. -/
theorem next_map_ofInt {m : Map} (h : m.next = .ofInt (t + 1)) (x : ℤ) (pid : UInt16) :
    (m.map (.ofInt x) pid).1.next =
      if 1 ≤ (t + 1 - x) % 65536 ∧ (t + 1 - x) % 65536 ≤ 8192 then .ofInt (t + 1)
      else .ofInt (x + 1) := by
  have hfar : (8 * 1024 : UInt16) < .ofInt (t + 1) - .ofInt x ↔ 8192 < (t + 1 - x) % 65536 := by
    rw [← ofInt_sub, UInt16.lt_iff_toNat_lt, ← Int.ofNat_lt, toNat_ofInt]
    exact Iff.rfl
  have hset : PacketMap.compare (.ofInt (t + 1)) (.ofInt x) ≤ 0 ∨
      (8 * 1024 : UInt16) < .ofInt (t + 1) - .ofInt x ↔
        ¬ (1 ≤ (t + 1 - x) % 65536 ∧ (t + 1 - x) % 65536 ≤ 8192) := by
    rw [compare_ofInt_nonpos_iff, hfar]
    omega
  rw [next_map, h]
  by_cases hlate : 1 ≤ (t + 1 - x) % 65536 ∧ (t + 1 - x) % 65536 ≤ 8192
  · rw [if_pos hlate, if_neg (fun hor => hset.mp hor hlate)]
  · rw [if_neg hlate, if_pos (hset.mpr hlate), UInt16.ofInt_add]
    rfl

theorem knows_iff (s : State) (x : ℤ) (pid : UInt16) :
    Knows s x pid ↔ (s.map.map (.ofInt x) pid).1.next = .ofInt (x + 1) := by
  refine ⟨fun h => h.next, fun h => ⟨h, fun pid' => ?_⟩⟩
  rw [Map.drop, if_neg (not_not_intro h.symm)]

/-- Whatever the run, a packet that does not look late is known. -/
theorem knows_iff_not_overlooked (s : State) (x : ℤ) (pid : UInt16) :
    Knows s x pid ↔ ¬ Overlooked s x := by
  obtain ⟨t, ht⟩ : ∃ t, s.map.next = .ofInt (t + 1) := by
    refine ⟨s.map.next.toNat - 1, ?_⟩
    have hlt := s.map.next.toNat_lt
    rw [sub_add_cancel, ← UInt16.toNat_inj, ← Int.natCast_inj, toNat_ofInt]
    omega
  have hdistance : ((s.map.next - .ofInt x).toNat : ℤ) = (t + 1 - x) % 65536 := by
    rw [ht, ← ofInt_sub, toNat_ofInt]
  rw [knows_iff, next_map_ofInt ht, Overlooked]
  split_ifs with hlate
  · rw [ofInt_eq_iff]
    omega
  · simp only [true_iff]
    omega

/-- The numbers of a run in which nothing is far from the newest: nothing has set
the next number yet, or something that is not far behind has. -/
inductive Tracks (s : State) : Prop
  | untouched (hnext : s.map.next = 0)
      (hseen : ∀ y ∈ s.seen, 57344 ≤ y % 65536 ∧ y % 65536 ≤ 65534)
  | touched (t y : ℤ) (hnext : s.map.next = .ofInt (t + 1)) (ht : t ∈ s.seen)
      (hbehind : ∀ y ∈ s.seen, y - 49152 ≤ t) (hy : y ∈ s.seen)
      (hout : ¬ (57344 ≤ y % 65536 ∧ y % 65536 ≤ 65534))

/-- One past the last number of a turn is zero. -/
theorem next_untouched (h : s.map.next = 0) : s.map.next = .ofInt (-1 + 1) := h

theorem Tracks.map (h : Tracks s) (hlow : ∀ y ∈ s.seen, y - 49152 ≤ x)
    (hhigh : s.seen ≠ [] → ∃ y ∈ s.seen, x ≤ y + 8192) (pid : UInt16) :
    Tracks { map := (s.map.map (.ofInt x) pid).1, seen := x :: s.seen } := by
  cases h with
  | untouched hnext hseen =>
      have hmap := next_map_ofInt (next_untouched hnext) x pid
      by_cases hearly : 57344 ≤ x % 65536 ∧ x % 65536 ≤ 65534
      · rw [if_pos (by omega)] at hmap
        refine .untouched hmap fun y hy => ?_
        rcases List.mem_cons.mp hy with rfl | hy
        · exact hearly
        · exact hseen y hy
      · refine .touched x x ?_ (List.mem_cons_self ..) (fun y hy => ?_) (List.mem_cons_self ..)
          hearly
        · rw [hmap]
          split_ifs with hlate
          · rw [ofInt_eq_iff]
            omega
          · rfl
        · rcases List.mem_cons.mp hy with rfl | hy
          · omega
          · exact hlow y hy
  | touched t y hnext ht hbehind hy hout =>
      have hmap := next_map_ofInt hnext x pid
      obtain ⟨z, hz, hxz⟩ := hhigh (List.ne_nil_of_mem ht)
      have htz := hbehind z hz
      split_ifs at hmap with hlate
      · -- a late packet: it is not newer than the last one that was taken
        refine .touched t y hmap (List.mem_cons_of_mem _ ht) (fun u hu => ?_)
          (List.mem_cons_of_mem _ hy) hout
        rcases List.mem_cons.mp hu with rfl | hu
        · by_cases hold : u - 49152 ≤ t
          · exact hold
          · omega
        · exact hbehind u hu
      · refine .touched x y hmap (List.mem_cons_self ..) (fun u hu => ?_)
          (List.mem_cons_of_mem _ hy) hout
        rcases List.mem_cons.mp hu with rfl | hu
        · omega
        · exact hlow u hu

theorem Tracks.drop (h : Tracks s) (hlow : ∀ y ∈ s.seen, y - 49152 ≤ x) {pid : UInt16}
    (hnext : .ofInt x = s.map.next) :
    Tracks { map := (s.map.drop (.ofInt x) pid).1, seen := x :: s.seen } := by
  have hset : (s.map.drop (.ofInt x) pid).1.next = .ofInt (x + 1) := by
    rw [Map.drop, if_neg (not_not_intro hnext), UInt16.ofInt_add]
    rfl
  have hbehind : ∀ y ∈ x :: s.seen, y - 49152 ≤ x := by
    intro y hy
    rcases List.mem_cons.mp hy with rfl | hy
    · omega
    · exact hlow y hy
  cases h with
  | untouched hzero hseen =>
      refine .touched x x hset (List.mem_cons_self ..) hbehind (List.mem_cons_self ..) ?_
      rw [hzero, show (0 : UInt16) = .ofInt 0 from rfl, ofInt_eq_iff] at hnext
      omega
  | touched t y _ _ _ hy hout =>
      exact .touched x y hset (List.mem_cons_self ..) hbehind (List.mem_cons_of_mem _ hy) hout

theorem tracks_of_reachable (h : Reachable system Near s) : Tracks s := by
  refine h.invariant ?_ ?_
  · rintro s rfl
    exact .untouched rfl nofun
  · intro s a t h hnear hstep
    cases a with
    | map x pid =>
        cases hstep
        exact h.map hnear.1 hnear.2 pid
    | drop x pid =>
        cases hstep
        by_cases hnext : .ofInt x = s.map.next
        · have haccept : (s.map.drop (.ofInt x) pid).2 = true := by
            rw [Map.drop, if_neg (not_not_intro hnext)]
          rw [haccept, if_pos rfl]
          exact h.drop hnear.1 hnext
        · have hrefuse : s.map.drop (.ofInt x) pid = (s.map, false) := if_pos hnext
          rw [hrefuse]
          exact h

/-- In a run whose numbers stay near the newest one, only the last numbers of
the first turn are not known. -/
theorem Tracks.knows_iff (h : Tracks s) (hnewer : Newer s x) (pid : UInt16) :
    Knows s x pid ↔ ¬ Early s x := by
  rw [NextPacket.knows_iff]
  cases h with
  | untouched hnext hseen =>
      have hearly : Early s x ↔ 57344 ≤ x % 65536 ∧ x % 65536 ≤ 65534 :=
        ⟨fun h => h x (List.mem_cons_self ..), fun h y hy => by
          rcases List.mem_cons.mp hy with rfl | hy
          · exact h
          · exact hseen y hy⟩
      rw [hearly, next_map_ofInt (next_untouched hnext)]
      split_ifs with hlate
      · rw [ofInt_eq_iff]
        omega
      · simp only [true_iff]
        omega
  | touched t y hnext ht hbehind hy hout =>
      have hknown : ¬ Early s x := fun h => hout (h y (List.mem_cons_of_mem _ hy))
      obtain ⟨z, hz, hxz⟩ := hnewer.near (List.ne_nil_of_mem ht)
      have htz := hbehind z hz
      have htx := hnewer.newer t ht
      rw [next_map_ofInt hnext, if_neg (by omega)]
      simp only [true_iff]
      exact hknown

/-- After a newer packet the map expects the following one, unless it took it for
a late one; in a run whose numbers stay near the newest, that is unless there
have only been numbers from the last 8192 of a turn. -/
theorem knows_of_reachable (s : State) (x : ℤ) (pid : UInt16) :
    (Knows s x pid ↔ ¬ Overlooked s x) ∧
      (Reachable system Near s → Newer s x → (Knows s x pid ↔ ¬ Early s x)) :=
  ⟨knows_iff_not_overlooked s x pid,
    fun h hnewer => (tracks_of_reachable h).knows_iff hnewer pid⟩

instance (s : State) (c : Call) : Decidable (Near s c) :=
  inferInstanceAs (Decidable (_ ∧ _))

/-- A stream that begins 8192 numbers before a wrap is followed from the wrap
on. -/
def late : List Call := [.map 57344 0, .map 57345 0, .map 65530 0, .map 65536 0]

theorem knows_late : ∃ s, system.exec Near {} late = some s ∧
    (Knows s 65537 0 ↔ ¬ Overlooked s 65537) ∧ (Knows s 65537 0 ↔ ¬ Early s 65537) ∧
    ¬ Early s 65537 := by
  obtain ⟨s, hs, hseen⟩ : ∃ s ∈ system.exec Near {} late,
      s.seen = [65536, 65530, 57345, 57344] := by decide +kernel
  have hnewer : Newer s 65537 := by
    refine ⟨fun y hy => ?_, fun _ => ⟨65536, ?_, by decide⟩⟩
    · rw [hseen] at hy
      exact (by decide : ∀ y ∈ [(65536 : ℤ), 65530, 57345, 57344], y < 65537) y hy
    · rw [hseen]
      exact List.mem_cons_self ..
  have hreach : Reachable system Near s := .exec (.init rfl) hs
  have hknows := knows_of_reachable s 65537 0
  refine ⟨s, hs, hknows.1, hknows.2 hreach hnewer, fun h => ?_⟩
  have hfirst := (h 65537 (List.mem_cons_self ..)).1
  exact absurd hfirst (by decide)

theorem not_knows : ¬ ∀ s x pid, Reachable system Always s → Newer s x → Knows s x pid := by
  intro h
  have hknows := h {} 60000 0 (.init rfl) ⟨nofun, fun hne => absurd rfl hne⟩
  exact absurd hknows.next (by decide)

end Next

end Sozvon.NextPacket
