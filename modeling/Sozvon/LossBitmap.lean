import Sozvon.PacketCache
import Sozvon.Runs

/-!
# The loss bitmap

The bitmap of recent losses against the numbers that have arrived. Numbers are
unbounded integers here and the code sees them modulo `2^16`; the window's start
is followed as an integer too, and only moves forward.

Both calls are shifts of the window, and a shift keeps what its bits say
whatever its width. What `get` reports lies between the old start and the new
one, so it is not reported again.
-/
namespace Sozvon.LossBitmap
open PacketCache SerialNumbers Runs

inductive Call where
  | set (number : ℤ)
  | get (next : UInt16)
deriving DecidableEq, Repr

/-- The bitmap with the number its window begins at, the numbers that have
arrived and the ones that `get` has reported. -/
structure State where
  bitmap : Bitmap
  first : ℤ
  arrived : List ℤ
  reported : List ℤ := []
deriving DecidableEq, Repr

/-- The number that the window begins at after a call. -/
def State.advance (s : State) (bitmap : Bitmap) : ℤ :=
  s.first + (bitmap.first - s.bitmap.first).toNat

/-- The numbers that `get` reports as missing: the first one, and the ones after
it whose bits are set. -/
def State.missing (s : State) (next : UInt16) : List ℤ :=
  match s.bitmap.get next with
  | (_, false, _, _) => []
  | (_, true, first, bitmap) =>
      let n : ℤ := s.first + (first - s.bitmap.first).toNat
      n :: ((List.range 16).filter fun k => bitmap.toBitVec.getLsbD k).map fun k : ℕ => n + 1 + k

def step (s : State) : Call → Option State
  | .set number =>
      let bitmap := s.bitmap.set (.ofInt number)
      some { s with bitmap, first := s.advance bitmap, arrived := number :: s.arrived }
  | .get next =>
      let bitmap := (s.bitmap.get next).1
      some { s with bitmap, first := s.advance bitmap, reported := s.reported ++ s.missing next }

/-- Runs begin with a first number set in an empty bitmap. -/
def system : System State Call where
  init s := ∃ number : ℤ,
    s = { bitmap := ({} : Bitmap).set (.ofInt number), first := number, arrived := [number] }
  step

/-- No number is more than 256 behind or 32767 ahead of the window's start. -/
def InWindow (s : State) : Call → Prop
  | .set number => s.first - 256 ≤ number ∧ number ≤ s.first + 32767
  | .get _ => True

/-- The bitmap tells what has arrived, and nothing that has is asked for. -/
structure Exact (s : State) : Prop where
  start : s.bitmap.first = .ofInt s.first
  bits : ∀ i : ℕ, i < 32 → (s.bitmap.bitmap.getLsbD i = true ↔ s.first + i ∈ s.arrived)
  missing : ∀ next, ∀ n ∈ s.missing next, n ∉ s.arrived
  once : s.reported.Nodup

section Window

variable {b : BitVec 32} {first n : ℤ} {arrived : List ℤ}

/-- The bits of a window say which numbers from its start on have arrived; the
ones past its end have not. -/
def Window (b : BitVec 32) (first : ℤ) (arrived : List ℤ) : Prop :=
  ∀ i : ℕ, b.getLsbD i = true ↔ first + i ∈ arrived

theorem Window.shift (h : Window b first arrived) (k : ℕ) :
    Window (b >>> k) (first + k) arrived := by
  intro i
  rw [BitVec.getLsbD_ushiftRight, h, Nat.cast_add, add_assoc]

/-- A bit set in the window. -/
theorem Window.insert (h : Window b first arrived) {d : ℕ} (hd : d < 32) (hn : n = first + d) :
    Window (b ||| 1#32 <<< d) first (n :: arrived) := by
  intro i
  have hbit : (1#32 <<< d).getLsbD i = true ↔ i = d := by
    rw [BitVec.getLsbD_shiftLeft, BitVec.getLsbD_one]
    simp only [Bool.and_eq_true, Bool.not_eq_true', decide_eq_true_eq, decide_eq_false_iff_not]
    omega
  rw [BitVec.getLsbD_or, Bool.or_eq_true, h, hbit, List.mem_cons, or_comm]
  refine or_congr ?_ Iff.rfl
  omega

/-- A number before the window is none of its bits. -/
theorem Window.before (h : Window b first arrived) (hn : n < first) :
    Window b first (n :: arrived) := by
  intro i
  rw [h, List.mem_cons]
  refine ⟨Or.inr, fun hin => hin.resolve_left fun heq => ?_⟩
  omega

theorem trailingZeros_le (b : BitVec 32) : trailingZeros b ≤ 32 := by
  unfold trailingZeros
  cases hfind : (List.range 32).find? fun i => b.getLsbD i with
  | none => exact Nat.le_refl _
  | some i => exact Nat.le_of_lt (List.mem_range.mp (List.mem_of_find?_eq_some hfind))

/-- The lowest one of a word that has a one. -/
theorem getLsbD_trailingZeros (h : b ≠ 0) : b.getLsbD (trailingZeros b) = true := by
  unfold trailingZeros
  cases hfind : (List.range 32).find? fun i => b.getLsbD i with
  | none =>
      refine absurd (BitVec.eq_of_getLsbD_eq fun i hi => ?_) h
      have hbit := List.find?_eq_none.mp hfind i (List.mem_range.mpr hi)
      rw [Bool.not_eq_true] at hbit
      rw [hbit, BitVec.ofNat_eq_ofNat, BitVec.getLsbD_zero]
  | some i => exact List.find?_some hfind

end Window

section Calls

variable {s : State}

/-- The window's start as the code has it, and the window. -/
structure Follows (bitmap : Bitmap) (first : ℤ) (arrived : List ℤ) : Prop where
  valid : bitmap.valid = true
  start : bitmap.first = .ofInt first
  window : Window bitmap.bitmap first arrived

variable {bitmap : Bitmap} {first : ℤ} {arrived : List ℤ}

theorem Follows.shift (h : Follows bitmap first arrived) (k : ℕ) {w : UInt16}
    (hw : w = .ofInt (k : ℤ)) :
    Follows { bitmap with bitmap := bitmap.bitmap >>> k, first := bitmap.first + w }
      (first + k) arrived where
  valid := h.valid
  start := by rw [hw, h.start, UInt16.ofInt_add]
  window := h.window.shift k

/-- The distance of a number from the start, while sixteen bits can hold it. -/
theorem toNat_sub_first (h : bitmap.first = .ofInt first) {n : ℤ} (hle : first ≤ n)
    (hlt : n < first + 65536) : (((.ofInt n : UInt16) - bitmap.first).toNat : ℤ) = n - first := by
  rw [h, ← ofInt_sub, toNat_ofInt]
  omega

theorem ofInt_natCast (k : ℕ) : UInt16.ofInt (k : ℤ) = .ofNat k := by
  rw [← UInt16.toNat_inj, ← Int.natCast_inj, toNat_ofInt, UInt16.toNat_ofNat']
  omega

/-- Setting a number shifts the window by some amount and sets a bit, if the
number is not before the window. -/
theorem Follows.set (h : Follows bitmap first arrived) {n : ℤ} (hlow : first - 256 ≤ n)
    (hhigh : n ≤ first + 32767) :
    ∃ k : ℕ, k < 65536 ∧ Follows (bitmap.set (.ofInt n)) (first + k) (n :: arrived) := by
  have hinvalid : seqnoInvalid (.ofInt n) bitmap.first = false := by
    unfold seqnoInvalid
    rw [h.start]
    split_ifs with hahead
    · rfl
    · rw [PacketCache.compare, PacketMap.compare_ofInt_neg_iff] at hahead
      rw [← ofInt_sub, decide_eq_false_iff_not, UInt16.lt_iff_toNat_lt, ← Int.ofNat_lt, toNat_ofInt]
      have hlimit : ((0x100 : UInt16).toNat : ℤ) = 256 := rfl
      omega
  have hkept : ¬ (¬ bitmap.valid ∨ seqnoInvalid (.ofInt n) bitmap.first) := by
    rw [h.valid, hinvalid]
    decide
  unfold Bitmap.set
  rw [if_neg hkept]
  by_cases hbehind : 0 < PacketCache.compare bitmap.first (.ofInt n)
  · rw [if_pos hbehind]
    refine ⟨0, by decide, h.valid, ?_, ?_⟩
    · rw [h.start, Nat.cast_zero, add_zero]
    · rw [h.start, ← not_le, PacketCache.compare, PacketMap.compare_ofInt_nonpos_iff] at hbehind
      rw [Nat.cast_zero, add_zero]
      exact h.window.before (by omega)
  rw [if_neg hbehind]
  rw [h.start, not_lt, PacketCache.compare, PacketMap.compare_ofInt_nonpos_iff] at hbehind
  have hdistance := toNat_sub_first h.start (n := n) (by omega) (by omega)
  -- the two shifts, of which the first takes the number into the window
  obtain ⟨k, hk, hin, hfirst⟩ : ∃ k : ℕ, k ≤ 32767 ∧ n < first + k + 32 ∧
      Follows (if 32 ≤ (.ofInt n : UInt16) - bitmap.first then
        let shift := (.ofInt n : UInt16) - bitmap.first - 31
        { bitmap with bitmap := bitmap.bitmap >>> shift.toNat, first := bitmap.first + shift }
      else bitmap) (first + k) arrived := by
    have hwide : (32 : UInt16) ≤ (.ofInt n : UInt16) - bitmap.first ↔ 32 ≤ n - first := by
      rw [UInt16.le_iff_toNat_le, ← Int.ofNat_le, hdistance]
      rfl
    by_cases hfar : (32 : UInt16) ≤ (.ofInt n : UInt16) - bitmap.first
    · rw [if_pos hfar]
      rw [hwide] at hfar
      have hshift : (((.ofInt n : UInt16) - bitmap.first - 31).toNat : ℤ) = n - first - 31 := by
        have hlimit : (31 : UInt16) = .ofInt 31 := rfl
        rw [h.start, hlimit, ← ofInt_sub, ← ofInt_sub, toNat_ofInt]
        omega
      refine ⟨((.ofInt n : UInt16) - bitmap.first - 31).toNat, by omega, by omega, h.shift _ ?_⟩
      rw [ofInt_natCast, UInt16.ofNat_toNat]
    · rw [if_neg hfar]
      rw [hwide] at hfar
      refine ⟨0, by omega, by omega, ?_⟩
      rw [Nat.cast_zero, add_zero]
      exact h
  dsimp only at hfirst ⊢
  generalize (if 32 ≤ (.ofInt n : UInt16) - bitmap.first then _ else bitmap) = moved at hfirst ⊢
  obtain ⟨k', hk', hsecond⟩ : ∃ k' : ℕ, k' ≤ 32 ∧
      Follows (if moved.bitmap.getLsbD 0 then
        let ones := trailingZeros (~~~moved.bitmap)
        { moved with bitmap := moved.bitmap >>> ones, first := moved.first + .ofNat ones }
      else moved) (first + k + k') arrived := by
    split_ifs
    · exact ⟨_, trailingZeros_le _, hfirst.shift _ (ofInt_natCast _).symm⟩
    · refine ⟨0, by omega, ?_⟩
      rw [Nat.cast_zero, add_zero]
      exact hfirst
  dsimp only at hsecond ⊢
  generalize (if moved.bitmap.getLsbD 0 then _ else moved) = turned at hsecond ⊢
  refine ⟨k + k', by omega, hsecond.valid, by rw [Nat.cast_add, ← add_assoc]; exact hsecond.start,
    ?_⟩
  rw [Nat.cast_add, ← add_assoc]
  by_cases hpast : n < first + k + k'
  · -- the number was a duplicate that the second shift has gone past
    have hbig : 32 ≤ ((.ofInt n : UInt16) - turned.first).toNat := by
      rw [hsecond.start, ← ofInt_sub, ← Int.ofNat_le, toNat_ofInt]
      omega
    have hnothing : 1#32 <<< ((.ofInt n : UInt16) - turned.first).toNat = 0#32 :=
      BitVec.shiftLeft_eq_zero hbig
    dsimp only
    rw [hnothing, BitVec.or_zero]
    exact hsecond.window.before hpast
  · have hplace := toNat_sub_first hsecond.start (n := n) (by omega) (by omega)
    exact hsecond.window.insert (by omega) (by omega)

/-- What `get` takes out of the window: a shift, and reports only of bits that
are shifted out and not set. -/
theorem get_cases (bitmap : Bitmap) (next : UInt16) : ∃ count : ℕ, count ≤ 17 ∧
    (bitmap.get next).1 = { bitmap with
      bitmap := bitmap.bitmap >>> count, first := bitmap.first + .ofNat count } ∧
    ((bitmap.get next).2.1 = false ∨ ∃ (zeros : ℕ) (word : UInt16),
      (bitmap.get next).2 = (true, bitmap.first + .ofNat zeros, word) ∧
        (zeros < count ∧ bitmap.bitmap.getLsbD zeros = false) ∧
        ∀ k, word.toBitVec.getLsbD k = true →
          zeros + 1 + k < count ∧ bitmap.bitmap.getLsbD (zeros + 1 + k) = false) := by
  unfold Bitmap.get
  dsimp only
  by_cases hdone : 0 ≤ PacketCache.compare bitmap.first next
  · refine ⟨0, by decide, ?_, Or.inl ?_⟩
    · rw [if_pos hdone]
      simp
    · rw [if_pos hdone]
  rw [if_neg hdone]
  generalize hcount : (if 17 < next - bitmap.first then 17 else next - bitmap.first) = count
  have hle : count.toNat ≤ 17 := by
    rw [← hcount]
    split_ifs with hmany
    · decide
    · exact UInt16.le_iff_toNat_le.mp (UInt16.not_lt.mp hmany)
  refine ⟨count.toNat, hle, ?_⟩
  rw [UInt16.ofNat_toNat]
  generalize hbm : ~~~bitmap.bitmap &&& ~~~(BitVec.allOnes 32 <<< count.toNat) = bm
  have hbits (i : ℕ) (hi : bm.getLsbD i = true) :
      i < count.toNat ∧ bitmap.bitmap.getLsbD i = false := by
    rw [← hbm, BitVec.getLsbD_and, BitVec.getLsbD_not, BitVec.getLsbD_not,
      BitVec.getLsbD_shiftLeft, BitVec.getLsbD_allOnes] at hi
    simp only [Bool.and_eq_true, Bool.not_eq_true', decide_eq_true_eq, Bool.and_eq_false_imp,
      decide_eq_false_iff_not] at hi
    refine ⟨?_, hi.1.2⟩
    by_contra hge
    exact hi.2.2 ⟨hi.1.1, hge⟩ (by omega)
  by_cases hnone : bm = 0
  · rw [if_pos hnone]
    exact ⟨rfl, Or.inl rfl⟩
  · rw [if_neg hnone]
    refine ⟨rfl, Or.inr ⟨_, _, rfl, hbits _ ?_, fun k hk => ?_⟩⟩
    · split_ifs with hfirst
      · exact hfirst
      · exact getLsbD_trailingZeros hnone
    · rw [UInt16.toBitVec_ofBitVec, BitVec.getLsbD_setWidth, Bool.and_eq_true,
        BitVec.getLsbD_ushiftRight, BitVec.getLsbD_ushiftRight, ← Nat.add_assoc] at hk
      exact hbits _ hk.2

/-- What is reported lies in the part of the window that is shifted out. -/
theorem Follows.get {s : State} (h : Follows s.bitmap s.first s.arrived) (next : UInt16) :
    ∃ count : ℕ, count < 65536 ∧
      Follows (s.bitmap.get next).1 (s.first + count) s.arrived ∧ (s.missing next).Nodup ∧
        ∀ n ∈ s.missing next, s.first ≤ n ∧ n < s.first + count ∧ n ∉ s.arrived := by
  obtain ⟨count, hcount, hbitmap, hanswer⟩ := get_cases s.bitmap next
  have hfollows := h.shift count (ofInt_natCast count).symm
  rw [← hbitmap] at hfollows
  refine ⟨count, by omega, hfollows, ?_⟩
  unfold State.missing
  generalize s.bitmap.get next = answer at hanswer
  obtain ⟨bitmap, found, first, word⟩ := answer
  rcases hanswer with hnone | ⟨zeros, word, hfound, ⟨hlow, hzero⟩, hrest⟩
  · obtain rfl : found = false := hnone
    exact ⟨List.nodup_nil, nofun⟩
  · cases hfound
    have hbefore : ((s.bitmap.first + .ofNat zeros - s.bitmap.first).toNat : ℤ) = zeros := by
      rw [UInt16.add_comm, UInt16.add_sub_cancel, UInt16.toNat_ofNat']
      omega
    have hmissing (j : ℕ) (hj : j < count ∧ s.bitmap.bitmap.getLsbD j = false) :
        s.first ≤ s.first + j ∧ s.first + j < s.first + count ∧ s.first + j ∉ s.arrived := by
      refine ⟨by omega, by omega, fun hin => ?_⟩
      rw [← h.window, hj.2] at hin
      cases hin
    dsimp only
    rw [hbefore]
    refine ⟨List.nodup_cons.mpr ⟨fun hin => ?_, ?_⟩, fun n hn => ?_⟩
    · obtain ⟨k, -, hk⟩ := List.mem_map.mp hin
      omega
    · refine (List.nodup_range.filter _).map fun a b hab => ?_
      omega
    · rcases List.mem_cons.mp hn with rfl | hn
      · exact hmissing zeros ⟨hlow, hzero⟩
      · obtain ⟨k, hk, rfl⟩ := List.mem_map.mp hn
        have hcast : s.first + zeros + 1 + k = s.first + ((zeros + 1 + k : ℕ) : ℤ) := by omega
        rw [hcast]
        exact hmissing _ (hrest k (List.mem_filter.mp hk).2)

/-- The window's start moves on by what the code adds to it. -/
theorem Follows.advance {bitmap : Bitmap} {arrived : List ℤ} (h : s.bitmap.first = .ofInt s.first)
    {k : ℕ} (hk : k < 65536) (hnext : Follows bitmap (s.first + k) arrived) :
    s.advance bitmap = s.first + k := by
  rw [State.advance, hnext.start, h, ← ofInt_sub, toNat_ofInt]
  omega

/-- The window, and what has been reported is before it. -/
structure Sound (s : State) : Prop where
  follows : Follows s.bitmap s.first s.arrived
  before : ∀ n ∈ s.reported, n < s.first
  once : s.reported.Nodup

theorem sound_of_reachable (h : Reachable system InWindow s) : Sound s := by
  refine h.invariant ?_ ?_
  · rintro s ⟨number, rfl⟩
    refine ⟨⟨rfl, rfl, fun i => ?_⟩, nofun, List.nodup_nil⟩
    have hbit : (1#32).getLsbD i = true ↔ i = 0 := by
      rw [BitVec.getLsbD_one, Bool.and_eq_true, decide_eq_true_eq, decide_eq_true_eq]
      omega
    rw [List.mem_singleton]
    refine hbit.trans ?_
    dsimp only
    omega
  · intro s a t h hwindow hstep
    cases a with
    | set number =>
        cases hstep
        obtain ⟨k, hk, hnext⟩ := h.follows.set hwindow.1 hwindow.2
        have hadvance := Follows.advance h.follows.start hk hnext
        refine ⟨?_, fun n hn => ?_, h.once⟩
        · dsimp only
          rwa [hadvance]
        · have hbefore := h.before n hn
          dsimp only
          omega
    | get next =>
        cases hstep
        obtain ⟨k, hk, hnext, hnodup, hmissing⟩ := h.follows.get next
        have hadvance := Follows.advance h.follows.start hk hnext
        refine ⟨?_, fun n hn => ?_, List.nodup_append.mpr ⟨h.once, hnodup, fun m hm n hn heq => ?_⟩⟩
        · dsimp only
          rwa [hadvance]
        · dsimp only
          rw [hadvance]
          rcases List.mem_append.mp hn with hn | hn
          · have hbefore := h.before n hn
            omega
          · exact (hmissing n hn).2.1
        · have hbefore := h.before m hm
          have hafter := (hmissing n hn).1
          omega

/-- The bitmap says what has arrived, and a number is asked for only if it has
not, and only once. -/
theorem exact_of_reachable (h : Reachable system InWindow s) : Exact s := by
  have hsound := sound_of_reachable h
  refine ⟨hsound.follows.start, fun i _ => hsound.follows.window i, fun next n hn => ?_,
    hsound.once⟩
  obtain ⟨count, -, -, -, hmissing⟩ := hsound.follows.get next
  exact (hmissing n hn).2.2

instance (s : State) : (a : Call) → Decidable (InWindow s a)
  | .set number => inferInstanceAs
      (Decidable (s.first - 256 ≤ number ∧ number ≤ s.first + 32767))
  | .get _ => inferInstanceAs (Decidable True)

/-- Losses across a wrap, a late packet, a duplicate and a jump past the window. -/
def lossy : List Call :=
  [.set 65534, .set 65537, .get 65535, .get 2, .set 65536, .set 65536, .set 65600, .get 60]

theorem exact_lossy : ∃ s,
    system.exec InWindow ⟨({} : Bitmap).set (.ofInt 65533), 65533, [65533], []⟩ lossy = some s ∧
      s.reported = [65535, 65536] ++ ((List.range 17).map fun k : ℕ => 65569 + (k : ℤ)) ∧ Exact s := by
  obtain ⟨s, hs, hreported⟩ : ∃ s ∈
      system.exec InWindow ⟨({} : Bitmap).set (.ofInt 65533), 65533, [65533], []⟩ lossy,
      s.reported = [65535, 65536] ++ (List.range 17).map fun k : ℕ => 65569 + (k : ℤ) := by
    decide +kernel
  exact ⟨s, hs, hreported, exact_of_reachable (.exec (.init ⟨65533, rfl⟩) hs)⟩

end Calls

end Sozvon.LossBitmap
