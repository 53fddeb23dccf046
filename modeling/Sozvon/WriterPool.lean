import Sozvon.Runs
import Mathlib.Data.List.Nodup
import Mathlib.Logic.Function.Basic
import Mathlib.Tactic.Linarith
import Mathlib.Tactic.Zify
import Mathlib.Tactic.Ring
import Mathlib.Tactic.Positivity
import Mathlib.Algebra.Order.Ring.Int

/-!
# The pool of writers of a track

A track that is received has a pool of writers, each a goroutine with the local
tracks it writes to. `rtpWriterPool.add` asks one writer after the other to add
or to remove a track. It puts an action into the writer's channel and waits for
the answer or for the writer's end, whichever its `select` picks. A writer ends
when its last track is removed, after it has answered.

The channel of an answer is made for one action, so it is kept with the call
that waits for it; an action that nobody waits for any more is answered to
nobody. The packets that a writer writes in between, and what else it does for
a track that it adds, change nothing here.
-/
namespace Sozvon.WriterPool
open Runs

inductive Err where
  | writerDead
  | writerBusy
  | unknownTrack
  | deletingUnknown
deriving DecidableEq, Repr

structure Action (τ : Type*) where
  add : Bool
  track : τ
  maxTracks : ℕ
deriving DecidableEq, Repr

/-- Where the goroutine is: in its loop, past it with `done` still open, or gone. -/
inductive Loop where
  | running
  | returning
  | done
deriving DecidableEq, Repr

structure Writer (τ : Type*) where
  /-- `local` of its loop. -/
  tracks : List τ := []
  /-- The channel of actions, of capacity one. -/
  action : Option (Action τ) := none
  /-- `ch` has been closed. -/
  closed : Bool := false
  loop : Loop := .running
deriving DecidableEq, Repr

/-- A call of `rtpWriterPool.add`, with the `n` that it computes first. -/
structure Call (τ : Type*) where
  track : τ
  add : Bool
  n : ℕ
deriving DecidableEq, Repr

/-- The writer a call is at: one in the list, or the one that it has made at last. -/
inductive Place where
  | nth (i : ℕ)
  | made (w : ℕ)
deriving DecidableEq, Repr

/-- What the goroutine that calls `add` is doing. `returned` comes with the last call and its
result, unless the pool has been closed since, and `waiting` with what is in the channel of the
answer, where `some none` is the error nil. -/
inductive Caller (τ : Type*) where
  | returned (last : Option (Call τ × Option Err))
  | asking (c : Call τ) (p : Place)
  | waiting (c : Call τ) (p : Place) (answer : Option (Option Err))
deriving DecidableEq, Repr

/-- The pool, and the writers at their addresses. -/
structure Pool (τ : Type*) where
  mem : ℕ → Writer τ := fun _ => {}
  next : ℕ := 0
  writers : List ℕ := []
  count : ℕ := 0
  caller : Caller τ := .returned none

/-- `sqrt` as it is. -/
def sqrt (n : ℕ) : ℕ :=
  if h : n < 2 then n
  else
    let s := sqrt (n / 2) * 2
    let l := s + 1
    if l * l > n then s else l
decreasing_by omega

def maxTracks (count : ℕ) : ℕ := if count > 16 then sqrt count else 4

theorem sqrt_pos {n : ℕ} (h : 0 < n) : 0 < sqrt n := by
  induction n using Nat.strongRecOn with
  | ind n ih =>
      rw [sqrt]
      by_cases hlt : n < 2
      · rwa [dif_pos hlt]
      · have := ih (n / 2) (by omega) (by omega)
        rw [dif_neg hlt]
        dsimp only
        split_ifs <;> omega

theorem maxTracks_pos (count : ℕ) : 0 < maxTracks count := by
  unfold maxTracks
  split_ifs with h
  · exact sqrt_pos (by omega)
  · decide

/-- What `sqrt` has been written for. -/
def IsSqrt (s n : ℤ) : Prop := s * s ≤ n ∧ n < (s + 1) * (s + 1)

/-- `sqrt` with words for its integers. -/
def sqrtInt (n : Int64) : Int64 :=
  if n < 2 then n
  else
    let s := sqrtInt (n / 2) * 2
    let l := s + 1
    if l * l > n then s else l
termination_by n.toInt.toNat
decreasing_by
  rename_i h
  rw [Int64.lt_iff_toInt_lt] at h
  have htwo : (2 : Int64).toInt = 2 := rfl
  rw [htwo] at h
  rw [Int64.toInt_div_of_ne_right _ _ (by decide), htwo, Int.tdiv_eq_ediv_of_nonneg (by omega)]
  omega

/-- Halving the argument and doubling the result keep the power of two below the argument, and one
more than it is too much. -/
theorem sqrt_eq_pow (k : ℕ) {n : ℕ} (hlow : 2 ^ k ≤ n) (hhigh : n < 2 ^ (k + 1)) :
    sqrt n = 2 ^ k := by
  induction k generalizing n with
  | zero =>
      have hone : n = 1 := by omega
      subst hone
      rw [sqrt, dif_pos (by decide), pow_zero]
  | succ k ih =>
      have hpow : 0 < 2 ^ k := Nat.two_pow_pos k
      rw [pow_succ] at hlow
      rw [pow_succ, pow_succ] at hhigh
      have hhalf : sqrt (n / 2) = 2 ^ k := ih (by omega) (by rw [pow_succ]; omega)
      have hover : (2 ^ k * 2 + 1) * (2 ^ k * 2 + 1) > n := by nlinarith
      rw [sqrt, dif_neg (by omega), hhalf]
      exact (if_pos hover).trans (pow_succ 2 k).symm

/-- The square of the larger candidate may leave the words, and still is not small. -/
theorem bmod_square_gt {k : ℕ} (h : k < 62) {n : ℤ} (hn : n < 2 ^ (k + 1)) :
    n < (((2 : ℤ) ^ k + 1) * (2 ^ k + 1)).bmod (2 ^ 64) := by
  rcases Nat.lt_or_ge k 32 with hk | hk
  · have hpow : (2 : ℤ) ^ k ≤ 2 ^ 31 := pow_le_pow_right₀ (by decide) (by omega)
    have hpos : (1 : ℤ) ≤ 2 ^ k := one_le_pow₀ (by decide)
    have hmax : ((2 : ℤ) ^ k + 1) * (2 ^ k + 1) ≤ (2 ^ 31 + 1) * (2 ^ 31 + 1) :=
      mul_le_mul (by omega) (by omega) (by omega) (by decide)
    have hsquare : (0 : ℤ) ≤ 2 ^ k * 2 ^ k := by positivity
    rw [pow_succ] at hn
    have hexpand : ((2 : ℤ) ^ k + 1) * (2 ^ k + 1) = 2 ^ k * 2 ^ k + 2 * 2 ^ k + 1 := by ring
    rw [Int.bmod_eq_of_le (by omega) (by omega)]
    omega
  · obtain ⟨j, rfl⟩ : ∃ j, k = 32 + j := ⟨k - 32, by omega⟩
    have hpow : (2 : ℤ) ^ (32 + j) ≤ 2 ^ 61 := pow_le_pow_right₀ (by decide) (by omega)
    have hpos : (1 : ℤ) ≤ 2 ^ (32 + j) := one_le_pow₀ (by decide)
    have hsplit : ((2 : ℤ) ^ (32 + j) + 1) * (2 ^ (32 + j) + 1) =
        2 ^ (32 + j + 1) + 1 + (2 ^ 64 : ℕ) * 2 ^ (2 * j) := by
      push_cast
      ring
    rw [hsplit, Int.add_mul_bmod_self_left]
    rw [pow_succ] at hn ⊢
    rw [Int.bmod_eq_of_le (by omega) (by omega)]
    omega

theorem sqrtInt_step {n : Int64} (h : 2 ≤ n.toInt) {p : ℤ} (hp : 0 ≤ p) (hmax : 2 * p + 1 < 2 ^ 63)
    (hs : (sqrtInt (n / 2)).toInt = p) :
    (sqrtInt n).toInt =
      if n.toInt < ((2 * p + 1) * (2 * p + 1)).bmod (2 ^ 64) then 2 * p else 2 * p + 1 := by
  have hdouble : (sqrtInt (n / 2) * 2).toInt = 2 * p := by
    rw [Int64.toInt_mul, hs]
    change (p * 2).bmod (2 ^ 64) = _
    rw [Int.bmod_eq_of_le (by omega) (by omega), mul_comm]
  have hl : (sqrtInt (n / 2) * 2 + 1).toInt = 2 * p + 1 := by
    rw [Int64.toInt_add, hdouble]
    change (2 * p + 1).bmod (2 ^ 64) = _
    exact Int.bmod_eq_of_le (by omega) (by omega)
  rw [sqrtInt, if_neg (by rw [Int64.lt_iff_toInt_lt]; exact Int.not_lt.2 h)]
  simp only [gt_iff_lt, Int64.lt_iff_toInt_lt, Int64.toInt_mul, hl]
  split_ifs with hlt
  · exact hdouble
  · exact hl

theorem toInt_half {n : Int64} (h : 0 ≤ n.toInt) : (n / 2).toInt = n.toInt / 2 := by
  rw [Int64.toInt_div_of_ne_right _ _ (by decide)]
  exact Int.tdiv_eq_ediv_of_nonneg h

theorem toInt_sqrtInt_eq_pow (k : ℕ) (hk : k < 62) {n : Int64} (hlow : 2 ^ k ≤ n.toInt)
    (hhigh : n.toInt < 2 ^ (k + 1)) : (sqrtInt n).toInt = 2 ^ k := by
  induction k generalizing n with
  | zero =>
      rw [sqrtInt, if_pos (by rw [Int64.lt_iff_toInt_lt]; exact hhigh)]
      rw [pow_zero] at hlow ⊢
      rw [zero_add, pow_one] at hhigh
      omega
  | succ k ih =>
      have hpow : (2 : ℤ) ^ k ≤ 2 ^ 60 := pow_le_pow_right₀ (by decide) (by omega)
      have hpos : (1 : ℤ) ≤ 2 ^ k := one_le_pow₀ (by decide)
      have hsucc : (2 : ℤ) ^ (k + 1) = 2 * 2 ^ k := pow_succ' 2 k
      have hhalf := toInt_half (n := n) (by omega)
      have hih : (sqrtInt (n / 2)).toInt = 2 ^ k :=
        ih (by omega) (by omega) (by rw [pow_succ] at hhigh; omega)
      have hgt := bmod_square_gt hk hhigh
      rw [hsucc] at hgt
      rw [sqrtInt_step (by omega) (by omega) (by omega) hih, if_pos hgt, hsucc]

/-- What `sqrt` returns is more than half its argument. -/
theorem lt_two_mul_sqrtInt {n : Int64} (h : 0 < n.toInt) : n.toInt < 2 * (sqrtInt n).toInt := by
  have hlow : 2 ^ n.toInt.toNat.log2 ≤ n.toInt.toNat := Nat.log2_self_le (by omega)
  have hhigh : n.toInt.toNat < 2 ^ (n.toInt.toNat.log2 + 1) := Nat.lt_log2_self
  have hword := n.toInt_lt
  generalize n.toInt.toNat.log2 = k at hlow hhigh
  zify at hlow hhigh
  rw [Int.toNat_of_nonneg h.le] at hlow hhigh
  rcases Nat.lt_or_ge k 62 with hk | hk
  · rw [toInt_sqrtInt_eq_pow k hk hlow hhigh, ← pow_succ']
    exact hhigh
  · -- the last power of two, where the square leaves the words
    have hpow : (2 : ℤ) ^ 62 ≤ 2 ^ k := pow_le_pow_right₀ (by decide) hk
    have hhalf := toInt_half (n := n) h.le
    have hih : (sqrtInt (n / 2)).toInt = 2 ^ 61 :=
      toInt_sqrtInt_eq_pow 61 (by decide) (by omega) (by omega)
    rw [sqrtInt_step (by omega) (by decide) (by decide) hih]
    split_ifs <;> omega

/-- Below `2 ^ 62` the words make no difference. -/
theorem toInt_sqrtInt {n : Int64} (h : 0 ≤ n.toInt) (hmax : n.toInt < 2 ^ 62) :
    (sqrtInt n).toInt = sqrt n.toInt.toNat := by
  rcases h.eq_or_lt with h0 | hpos
  · rw [sqrtInt, if_pos (by rw [Int64.lt_iff_toInt_lt, ← h0]; decide), ← h0, sqrt]
    rfl
  · have hlow : 2 ^ n.toInt.toNat.log2 ≤ n.toInt.toNat := Nat.log2_self_le (by omega)
    have hhigh : n.toInt.toNat < 2 ^ (n.toInt.toNat.log2 + 1) := Nat.lt_log2_self
    have hk : n.toInt.toNat.log2 < 62 := (Nat.log2_lt (by omega)).2 (by omega)
    rw [sqrt_eq_pow _ hlow hhigh]
    zify at hlow hhigh
    rw [Int.toNat_of_nonneg h] at hlow hhigh
    rw [toInt_sqrtInt_eq_pow _ hk hlow hhigh]
    norm_cast

/-- Only of zero and of one is it the square root. -/
theorem sqrtInt_isSqrt_iff {n : Int64} (h : 0 ≤ n) :
    IsSqrt (sqrtInt n).toInt n.toInt ↔ n < 2 := by
  rw [Int64.le_iff_toInt_le] at h
  change 0 ≤ n.toInt at h
  constructor
  · rintro ⟨hle, -⟩
    rw [Int64.lt_iff_toInt_lt]
    change n.toInt < 2
    by_contra hge
    have hhalf := lt_two_mul_sqrtInt (n := n) (by omega)
    have htwo : 2 ≤ (sqrtInt n).toInt := by omega
    nlinarith
  · intro hlt
    have heq : sqrtInt n = n := by rw [sqrtInt, if_pos hlt]
    rw [Int64.lt_iff_toInt_lt] at hlt
    change n.toInt < 2 at hlt
    rw [heq, IsSqrt]
    constructor <;> nlinarith

theorem sqrtInt_isSqrt_one : IsSqrt (sqrtInt 1).toInt 1 :=
  (sqrtInt_isSqrt_iff (n := 1) (by decide)).2 (by decide)

theorem sqrtInt_not_isSqrt : ¬ ∀ n : Int64, 0 ≤ n → IsSqrt (sqrtInt n).toInt n.toInt := by
  intro hall
  have htwo := (hall 2 (by decide)).1
  have hroot : (sqrtInt 2).toInt = 2 :=
    (toInt_sqrtInt (by decide) (by decide)).trans
      (congrArg Nat.cast (sqrt_eq_pow 1 (by decide) (by decide)))
  rw [hroot] at htwo
  exact absurd htwo (by decide)

inductive Label (τ : Type*) where
  | call (track : τ) (add : Bool)
  /-- The end of the list: a new writer, or an error. -/
  | last
  /-- The branches of the two selects. -/
  | send
  | answer
  | dead
  /-- A writer takes an action, finds its channel closed, or is gone at last. -/
  | handle (w : ℕ)
  | hangUp (w : ℕ)
  | finish (w : ℕ)
  /-- `write` finds that a writer is dead. -/
  | reap (w : ℕ)
  | close
deriving DecidableEq, Repr

section Steps

variable {τ : Type*} [DecidableEq τ]

/-- What a writer does with an action, and its answer. -/
def Writer.handle (w : Writer τ) (a : Action τ) : Writer τ × Option Err :=
  if a.add then
    if a.maxTracks ≤ w.tracks.length then ({ w with action := none }, some .writerBusy)
    else ({ w with action := none, tracks := w.tracks ++ [a.track] }, none)
  else
    let found := a.track ∈ w.tracks
    let tracks := w.tracks.erase a.track
    ({ w with action := none, tracks, loop := if tracks.length = 0 then .returning else w.loop },
      if found then none else some .unknownTrack)

namespace Pool

variable (s : Pool τ)

omit [DecidableEq τ] in
def set (w : ℕ) (m : Writer τ) : Pool τ := { s with mem := Function.update s.mem w m }

/-- The tracks attached to the writers of the pool. -/
def attached : List τ := s.writers.flatMap fun w => (s.mem w).tracks

def target : Place → Option ℕ
  | .nth i => s.writers[i]?
  | .made w => some w

def del (w : ℕ) : Pool τ :=
  if w ∈ s.writers then
    { s.set w { s.mem w with closed := true } with writers := s.writers.erase w }
  else s

/-- A new writer at the end of the list, which is asked next. -/
def make (c : Call τ) : Pool τ where
  mem := Function.update s.mem s.next {}
  next := s.next + 1
  writers := s.writers ++ [s.next]
  count := s.count
  caller := .asking c (.made s.next)

/-- The rest of `add` once a writer's `add` has returned. -/
def result (c : Call τ) (p : Place) (w : ℕ) (err : Option Err) : Pool τ :=
  match p, err with
  | .nth _, none =>
      let count := if c.add then s.count + 1 else if s.count > 0 then s.count - 1 else s.count
      { s with count, caller := .returned (some (c, none)) }
  | .nth i, some .writerDead => { s.del w with caller := .asking c (.nth i) }
  | .nth i, some _ => { s with caller := .asking c (.nth (i + 1)) }
  | .made _, none => { s with count := s.count + 1, caller := .returned (some (c, none)) }
  | .made _, some e => { s with caller := .returned (some (c, some e)) }

/-- The caller gets the answer of a writer it waits for. -/
def deliver (w : ℕ) (answer : Option Err) : Pool τ :=
  match s.caller with
  | .waiting c p none =>
      if s.target p = some w then { s with caller := .waiting c p (some answer) } else s
  | _ => s

def step : Label τ → Option (Pool τ)
  | .call track add =>
      match s.caller with
      | .returned _ =>
        some { s with caller := .asking { track, add, n := maxTracks s.count } (.nth 0) }
      | _ => none
  | .last =>
      match s.caller with
      | .asking c (.nth i) =>
          if i < s.writers.length then none
          else if c.add then some (s.make c)
          else some { s with caller := .returned (some (c, some .deletingUnknown)) }
      | _ => none
  | .send =>
      match s.caller with
      | .asking c p =>
          (s.target p).bind fun w =>
            if (s.mem w).action = none then
              some { s.set w { s.mem w with action := some ⟨c.add, c.track, c.n⟩ } with
                caller := .waiting c p none }
            else none
      | _ => none
  | .answer =>
      match s.caller with
      | .waiting c p (some err) => (s.target p).map fun w => s.result c p w err
      | _ => none
  | .dead =>
      match s.caller with
      | .asking c p | .waiting c p _ =>
          (s.target p).bind fun w =>
            if (s.mem w).loop = .done then some (s.result c p w (some .writerDead)) else none
      | _ => none
  | .handle w =>
      if (s.mem w).loop = .running then
        (s.mem w).action.map fun a =>
          let r := (s.mem w).handle a
          (s.set w r.1).deliver w r.2
      else none
  | .hangUp w =>
      if (s.mem w).loop = .running ∧ (s.mem w).closed then
        some (s.set w { s.mem w with loop := .returning })
      else none
  | .finish w =>
      if (s.mem w).loop = .returning then some (s.set w { s.mem w with loop := .done }) else none
  | .reap w =>
      match s.caller with
      | .returned _ => if (s.mem w).loop = .done then some (s.del w) else none
      | _ => none
  | .close =>
      match s.caller with
      | .returned _ => some {
          s with
          mem := fun w => if w ∈ s.writers then { s.mem w with closed := true } else s.mem w
          writers := []
          count := 0
          caller := .returned none }
      | _ => none

end Pool

def system (τ : Type*) [DecidableEq τ] : System (Pool τ) (Label τ) where
  init s := s = {}
  step := Pool.step

end Steps

end Sozvon.WriterPool
