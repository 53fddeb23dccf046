import Sozvon.PacketCache
import Mathlib.Data.List.Sort

/-!
# Requests for lost packets

A request names a first number and, in a bitmap, some of the sixteen after it.
`ToBitmap` covers a front part of a list with one such pair and leaves the rest,
whatever the order of the list: a number that the pair cannot name, a repeated
one included, begins the next pair. Nothing is named that is not in the list.

`nackWriter` looks at the cache once for each buffered number, while packets
keep arriving; `caches` is the cache as it is at each of these times.
-/
namespace Sozvon.Nacks
open PacketCache

abbrev NackPair := UInt16 × UInt16

/-- The numbers that a pair stands for. -/
def denoted (p : NackPair) : List UInt16 :=
  p.1 :: ((List.range 16).filter fun k => p.2.toBitVec.getLsbD k).map fun k => p.1 + 1 + .ofNat k

/-- `ToBitmap` applied to what remains, at most `n` times. -/
def rounds : ℕ → List UInt16 → List NackPair × List UInt16
  | 0, seqnos => ([], seqnos)
  | _ + 1, [] => ([], [])
  | n + 1, s :: remain =>
      let (first, bitmap, remain) := toBitmap s remain
      let rest := rounds n remain
      ((first, bitmap) :: rest.1, rest.2)

structure UpTrack where
  /-- Whether the codec has `nack` feedback. -/
  nackFb : Bool
  bufferedNACKs : List UInt16 := []
deriving DecidableEq, Repr

/-- The pairs that are sent, and how many packets are expected after that. -/
def UpTrack.sendNACKs (track : UpTrack) (seqnos : List UInt16) : Option (List NackPair × ℕ) :=
  if seqnos = [] ∨ ¬ track.nackFb then none else some ((rounds 240 seqnos).1, seqnos.length)

/-- Nothing before the last keyframe is asked for or, without one, nothing more
than 256 before the last packet. -/
def cutoff (caches : ℕ → Cache) : Option UInt16 :=
  match (caches 0).keyframeSeqno with
  | some seqno => some seqno
  | none => (caches 1).lastSeqno.map fun lastSeqno => lastSeqno - 256

/-- The numbers that are not before the cutoff and have not arrived in the
meantime, the first of them checked at the time `t`. -/
def missing (cutoff : UInt16) (caches : ℕ → Cache) : ℕ → List UInt16 → List UInt16
  | _, [] => []
  | t, s :: nacks =>
      if (s - cutoff) &&& 0x8000 ≠ 0 then missing cutoff caches (t + 1) nacks
      else if 0 < (caches t).getSize s then missing cutoff caches (t + 1) nacks
      else s :: missing cutoff caches (t + 1) nacks

/-- The numbers to ask for, in the order in which they were sent. -/
def requested (cutoff : UInt16) (caches : ℕ → Cache) (nacks : List UInt16) : List UInt16 :=
  (missing cutoff caches 2 nacks).insertionSort fun s t => s - cutoff ≤ t - cutoff

def UpTrack.nackWriter (track : UpTrack) (caches : ℕ → Cache) :
    UpTrack × Option (List NackPair × ℕ) :=
  let nacks := track.bufferedNACKs
  let track := { track with bufferedNACKs := [] }
  if nacks = [] ∨ ¬ track.nackFb then (track, none)
  else
    match cutoff caches with
    | none => (track, none)
    | some cutoff => (track, track.sendNACKs (requested cutoff caches nacks))

/-- What a list of pairs denotes. -/
def Denotes (pairs : List NackPair) (s : UInt16) : Prop := ∃ p ∈ pairs, s ∈ denoted p

section Pairs

variable {first bitmap s t : UInt16} {seqnos : List UInt16} {n m : ℕ}

theorem mem_denoted : s ∈ denoted (first, bitmap) ↔
    s = first ∨ ∃ k < 16, bitmap.toBitVec.getLsbD k = true ∧ s = first + 1 + .ofNat k := by
  simp only [denoted, List.mem_cons, List.mem_map, List.mem_filter, List.mem_range, and_assoc,
    eq_comm]

/-- A bit adds the number that it is for. -/
theorem mem_denoted_or (h : ¬ 16 ≤ t - first - 1) :
    s ∈ denoted (first, bitmap ||| 1 <<< (t - first - 1)) ↔ s = t ∨ s ∈ denoted (first, bitmap) := by
  rw [UInt16.not_le, UInt16.lt_iff_toNat_lt, show (16 : UInt16).toNat = 16 from rfl] at h
  have ht : first + 1 + .ofNat (t - first - 1).toNat = t := by
    rw [UInt16.ofNat_toNat]
    grind
  have hbit (k : ℕ) (hk : k < 16) :
      (bitmap ||| 1 <<< (t - first - 1)).toBitVec.getLsbD k = true ↔
        k = (t - first - 1).toNat ∨ bitmap.toBitVec.getLsbD k = true := by
    have hone : (1 <<< (t - first - 1)).toBitVec.getLsbD k = true ↔ k = (t - first - 1).toNat := by
      rw [UInt16.toBitVec_shiftLeft]
      simp only [UInt16.toBitVec_one, BitVec.shiftLeft_eq', BitVec.getLsbD_shiftLeft,
        BitVec.getLsbD_one, BitVec.toNat_umod, UInt16.toNat_toBitVec, Bool.and_eq_true,
        Bool.not_eq_true', decide_eq_true_eq, decide_eq_false_iff_not,
        show BitVec.toNat (16 : BitVec 16) = 16 from rfl]
      omega
    rw [UInt16.toBitVec_or, BitVec.getLsbD_or, Bool.or_eq_true, hone, or_comm]
  rw [mem_denoted, mem_denoted]
  constructor
  · rintro (rfl | ⟨k, hk, hset, rfl⟩)
    · exact Or.inr (Or.inl rfl)
    · rcases (hbit k hk).mp hset with rfl | hset
      · exact Or.inl ht
      · exact Or.inr (Or.inr ⟨k, hk, hset, rfl⟩)
  · rintro (rfl | rfl | ⟨k, hk, hset, rfl⟩)
    · exact Or.inr ⟨_, h, (hbit _ h).mpr (Or.inl rfl), ht.symm⟩
    · exact Or.inl rfl
    · exact Or.inr ⟨k, hk, (hbit k hk).mpr (Or.inr hset), rfl⟩

/-- Covering a list moves numbers from the list to the pair. -/
theorem mem_cover (first bitmap : UInt16) (seqnos : List UInt16) :
    s ∈ denoted (first, (cover first bitmap seqnos).1) ∨ s ∈ (cover first bitmap seqnos).2 ↔
      s ∈ denoted (first, bitmap) ∨ s ∈ seqnos := by
  induction seqnos generalizing bitmap with
  | nil => exact Iff.rfl
  | cons t remain ih =>
      unfold cover
      dsimp only
      split_ifs with hfar
      · exact Iff.rfl
      · rw [ih, mem_denoted_or hfar, List.mem_cons, or_assoc, or_left_comm]

theorem length_cover (first bitmap : UInt16) (seqnos : List UInt16) :
    (cover first bitmap seqnos).2.length ≤ seqnos.length := by
  induction seqnos generalizing bitmap with
  | nil => exact Nat.le_refl _
  | cons t remain ih =>
      unfold cover
      dsimp only
      split_ifs
      · exact Nat.le_refl _
      · exact Nat.le_succ_of_le (ih _)

theorem denotes_cons {p : NackPair} {pairs : List NackPair} :
    Denotes (p :: pairs) s ↔ s ∈ denoted p ∨ Denotes pairs s := by
  simp only [Denotes, List.mem_cons, exists_eq_or_imp]

/-- Every round takes numbers over into a pair, none is lost and none made up. -/
theorem mem_rounds (n : ℕ) (seqnos : List UInt16) :
    Denotes (rounds n seqnos).1 s ∨ s ∈ (rounds n seqnos).2 ↔ s ∈ seqnos := by
  induction n generalizing seqnos with
  | zero => simp [rounds, Denotes]
  | succ n ih =>
      cases seqnos with
      | nil => simp [rounds, Denotes]
      | cons t remain =>
          have hfirst : s ∈ denoted (t, 0) ↔ s = t := by
            rw [mem_denoted]
            simp
          simp only [rounds, toBitmap]
          rw [denotes_cons, or_assoc, ih, mem_cover, hfirst, List.mem_cons]

/-- A list is used up after as many rounds as it has numbers. -/
theorem rounds_rest (hn : seqnos.length ≤ n) : (rounds n seqnos).2 = [] := by
  induction n generalizing seqnos with
  | zero => exact List.length_eq_zero_iff.mp (Nat.le_zero.mp hn)
  | succ n ih =>
      cases seqnos with
      | nil => rfl
      | cons t remain =>
          have hlength := length_cover t 0 remain
          have hrest : (toBitmap t remain).2.2.length ≤ n :=
            Nat.le_trans hlength (Nat.le_of_succ_le_succ hn)
          exact ih hrest

theorem take_rounds (hnm : n ≤ m) : (rounds m seqnos).1.take n = (rounds n seqnos).1 := by
  induction n generalizing m seqnos with
  | zero => rw [List.take_zero, rounds]
  | succ n ih =>
      obtain ⟨m, rfl⟩ : ∃ k, m = k + 1 := ⟨m - 1, by omega⟩
      cases seqnos with
      | nil => rfl
      | cons t remain =>
          simp only [rounds, List.take_succ_cons]
          rw [ih (by omega)]

/-- The pairs for a list stand for exactly its numbers. -/
theorem denotes_rounds (hn : (rounds seqnos.length seqnos).1.length ≤ n) :
    Denotes (rounds n seqnos).1 s ↔ s ∈ seqnos := by
  have hall (k : ℕ) (hk : seqnos.length ≤ k) : Denotes (rounds k seqnos).1 s ↔ s ∈ seqnos := by
    rw [← mem_rounds k seqnos, rounds_rest hk]
    exact (or_iff_left List.not_mem_nil).symm
  rcases Nat.le_total n seqnos.length with hle | hle
  · rw [← take_rounds hle, List.take_of_length_le hn]
    exact hall _ (Nat.le_refl _)
  · exact hall n hle

end Pairs

section Writer

variable {c s : UInt16} {caches : ℕ → Cache}

/-- A buffered number that is not before the cutoff, and of which there is no
packet when the cache is asked for it. -/
def Due (c : UInt16) (caches : ℕ → Cache) (nacks : List UInt16) (s : UInt16) : Prop :=
  ∃ i, nacks[i]? = some s ∧ (s - c) &&& 0x8000 = 0 ∧ (caches (2 + i)).getSize s = 0

theorem mem_missing (t : ℕ) (nacks : List UInt16) : s ∈ missing c caches t nacks ↔
    ∃ i, nacks[i]? = some s ∧ (s - c) &&& 0x8000 = 0 ∧ (caches (t + i)).getSize s = 0 := by
  induction nacks generalizing t with
  | nil => simp [missing]
  | cons n nacks ih =>
      have hlater (P : ℕ → Prop) : (∃ i, (n :: nacks)[i]? = some s ∧ P i) ↔
          n = s ∧ P 0 ∨ ∃ i, nacks[i]? = some s ∧ P (i + 1) := by
        constructor
        · rintro ⟨i, hi, hP⟩
          cases i with
          | zero => exact Or.inl ⟨Option.some.inj hi, hP⟩
          | succ i => exact Or.inr ⟨i, hi, hP⟩
        · rintro (⟨rfl, hP⟩ | ⟨i, hi, hP⟩)
          · exact ⟨0, rfl, hP⟩
          · exact ⟨i + 1, hi, hP⟩
      rw [hlater, missing]
      have hrest : (∃ i, nacks[i]? = some s ∧ (s - c) &&& 0x8000 = 0 ∧
          (caches (t + (i + 1))).getSize s = 0) ↔ s ∈ missing c caches (t + 1) nacks := by
        rw [ih]
        simp only [Nat.add_assoc, Nat.add_comm 1]
      rw [hrest, Nat.add_zero]
      split_ifs with hbefore hhere
      · refine ⟨Or.inr, fun h => h.resolve_left ?_⟩
        rintro ⟨rfl, hnot, -⟩
        exact hbefore hnot
      · refine ⟨Or.inr, fun h => h.resolve_left ?_⟩
        rintro ⟨rfl, -, hnone⟩
        rw [Nat.add_zero] at hnone
        rw [hnone] at hhere
        exact absurd hhere (by decide)
      · have hnone : (caches t).getSize n = 0 := by
          rw [← UInt16.toNat_inj]
          exact Nat.eq_zero_of_not_pos fun hpos => hhere (UInt16.lt_iff_toNat_lt.mpr hpos)
        rw [List.mem_cons]
        refine or_congr_left ⟨?_, fun h => h.1.symm⟩
        rintro rfl
        exact ⟨rfl, not_not.mp hbefore, hnone⟩

/-- What is sent, and when nothing is. -/
theorem nackWriter_eq (track : UpTrack) (caches : ℕ → Cache) :
    (track.nackWriter caches).2 =
      if track.nackFb then
        (cutoff caches).bind fun c =>
          { track with bufferedNACKs := [] }.sendNACKs (requested c caches track.bufferedNACKs)
      else none := by
  unfold UpTrack.nackWriter
  dsimp only
  cases hfb : track.nackFb with
  | false => simp
  | true =>
      by_cases hempty : track.bufferedNACKs = []
      · rw [if_pos (Or.inl hempty), if_pos rfl, hempty]
        cases cutoff caches <;> simp [requested, missing, UpTrack.sendNACKs]
      · rw [if_neg (by simp [hempty]), if_pos rfl]
        cases cutoff caches <;> rfl

/-- `ToBitmap` again and again denotes its list and ends, and what `nackWriter`
sends denotes the numbers that are due, if the pairs fit in a packet. -/
theorem nacks_exact :
    (∀ seqnos : List UInt16, seqnos ≠ [] → (rounds seqnos.length seqnos).2 = [] ∧
      ∀ s, Denotes (rounds seqnos.length seqnos).1 s ↔ s ∈ seqnos) ∧
    ∀ (track : UpTrack) (caches : ℕ → Cache) (c : UInt16), track.nackFb = true →
      cutoff caches = some c →
      (rounds (requested c caches track.bufferedNACKs).length
        (requested c caches track.bufferedNACKs)).1.length ≤ 240 →
      ∀ s, (∃ sent ∈ (track.nackWriter caches).2, Denotes sent.1 s) ↔
        Due c caches track.bufferedNACKs s := by
  refine ⟨fun seqnos _ => ⟨rounds_rest (Nat.le_refl _), fun s => ?_⟩, ?_⟩
  · have hall := mem_rounds (s := s) seqnos.length seqnos
    rw [rounds_rest (Nat.le_refl _)] at hall
    rw [← hall]
    exact (or_iff_left List.not_mem_nil).symm
  · intro track caches c hfb hcutoff hfits s
    have hdue : s ∈ requested c caches track.bufferedNACKs ↔ Due c caches track.bufferedNACKs s :=
      (List.perm_insertionSort _ _).mem_iff.trans (mem_missing 2 track.bufferedNACKs)
    rw [nackWriter_eq, hfb, hcutoff, if_pos rfl, Option.bind_some, ← hdue]
    unfold UpTrack.sendNACKs
    split_ifs with hnone
    · have hempty := hnone.resolve_right (not_not_intro rfl)
      rw [hempty]
      simp
    · rw [← denotes_rounds hfits]
      simp

/-- A cache that has had packet 65535 and then packet 5. -/
def early : Cache :=
  (((new 2).store 65535 0 false false [1]).1.store 5 0 false false [1]).1

theorem nacks_exact_early :
    (Denotes (rounds 4 [9, 3, 3, 20]).1 20 ↔ (20 : UInt16) ∈ [(9 : UInt16), 3, 3, 20]) ∧
    (UpTrack.nackWriter ⟨true, [3, 65535, 2, 65530, 65280]⟩ fun _ => early).2 =
      some ([(65530, 384)], 3) ∧
    (Denotes [(65530, 384)] 3 ↔ Due 65285 (fun _ => early) [3, 65535, 2, 65530, 65280] 3) := by
  have hsent : (UpTrack.nackWriter ⟨true, [3, 65535, 2, 65530, 65280]⟩ fun _ => early).2 =
      some ([(65530, 384)], 3) := by decide +kernel
  have hexact := nacks_exact.2 ⟨true, [3, 65535, 2, 65530, 65280]⟩ (fun _ => early) 65285 rfl
    (by decide +kernel) (by decide +kernel) 3
  rw [hsent] at hexact
  refine ⟨(nacks_exact.1 [9, 3, 3, 20] (by decide)).2 20, hsent, ?_⟩
  rw [← hexact]
  simp

end Writer

end Sozvon.Nacks
