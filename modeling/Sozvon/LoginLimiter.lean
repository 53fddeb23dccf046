import Mathlib.Data.Option.Basic
import Mathlib.Data.List.Basic
import Mathlib.Order.Basic
import Mathlib.Data.Nat.Notation
import Mathlib.Algebra.Group.Nat.Defs

/-!
# The login limiter

One record for every address with failed logins. Old records are dropped all at
once, at anybody's failure, while what an address is told should be a matter of
what has come from that address only.

Times are nanoseconds since the zero `time.Time`, which no clock is behind.
-/
namespace Sozvon.AuthLimit

def millisecond : ℕ := 10 ^ 6
def second : ℕ := 10 ^ 9
def minute : ℕ := 60 * second

def authBaseDelay : ℕ := 200 * millisecond
def authMaxDelay : ℕ := 15 * second
def authForget : ℕ := 10 * minute
def banThreshold : ℕ := 10
def banDuration : ℕ := 15 * minute

structure AuthRecord where
  failures : ℕ := 0
  last : ℕ := 0
  /-- The zero time where there is no ban. -/
  bannedUntil : ℕ := 0
deriving DecidableEq, Repr

abbrev AuthRecords (κ : Type) := κ → Option AuthRecord

/-- Far from overflowing: the shift gives less than four hours. -/
def delayForFailures (n : ℕ) : ℕ :=
  if n ≤ 1 then authBaseDelay
  else
    let shift := if 16 < n - 1 then 16 else n - 1
    let d := authBaseDelay <<< shift
    if d ≤ 0 ∨ authMaxDelay < d then authMaxDelay else d

/-- Silent for too long, and not banned. -/
def AuthRecord.Stale (r : AuthRecord) (now : ℕ) : Prop :=
  authForget < now - r.last ∧ ¬ now < r.bannedUntil

instance (now : ℕ) : DecidablePred fun r : AuthRecord => r.Stale now :=
  fun _ => inferInstanceAs (Decidable (_ ∧ _))

/-- A ban has ended that no failure has cleared yet. -/
def AuthRecord.Ended (r : AuthRecord) (now : ℕ) : Prop := r.bannedUntil ≠ 0 ∧ ¬ now < r.bannedUntil

instance (r : AuthRecord) (now : ℕ) : Decidable (r.Ended now) :=
  inferInstanceAs (Decidable (_ ∧ _))

/-- What a failure makes of the record of its address. -/
def AuthRecord.fail (r : AuthRecord) (now : ℕ) : AuthRecord :=
  let r := if authForget < now - r.last then { r with failures := 0 } else r
  let r := if r.Ended now then { r with failures := 0, bannedUntil := 0 } else r
  let r := { r with failures := r.failures + 1, last := now }
  if banThreshold ≤ r.failures then { r with bannedUntil := now + banDuration } else r

section Records

variable {κ : Type} [DecidableEq κ] (records : AuthRecords κ)

def purgeAuthLocked (now : ℕ) : AuthRecords κ :=
  fun k => (records k).filter fun r => ¬ r.Stale now

/-- With `purge` in the place of `purgeAuthLocked`. -/
def failureWith (purge : AuthRecords κ → ℕ → AuthRecords κ) (key : κ) (now : ℕ) :
    AuthRecords κ × ℕ × ℕ :=
  let records := purge records now
  let r := ((records key).getD {}).fail now
  (Function.update records key (some r), delayForFailures r.failures, banThreshold - r.failures)

def failureDelayAt (key : κ) (now : ℕ) : AuthRecords κ × ℕ × ℕ :=
  failureWith records purgeAuthLocked key now

def bannedAt (key : κ) (now : ℕ) : Bool × ℕ :=
  match records key with
  | none => (false, 0)
  | some r => if ¬ now < r.bannedUntil then (false, 0) else (true, r.bannedUntil - now)

def resetAt (key : κ) : AuthRecords κ := Function.update records key none

end Records

/-- What is asked of the limiter about an address. -/
inductive Op where
  | failureDelayAt (now : ℕ)
  | bannedAt (now : ℕ)
  | resetAt
deriving DecidableEq, Repr

inductive Answer where
  | failed (delay remaining : ℕ)
  | banned (banned : Bool) (left : ℕ)
  | reset
deriving DecidableEq, Repr

structure Call (κ : Type) where
  key : κ
  op : Op

def Op.time : Op → Option ℕ
  | .failureDelayAt now => some now
  | .bannedAt now => some now
  | .resetAt => none

section Run

variable {κ : Type} [DecidableEq κ] (purge : AuthRecords κ → ℕ → AuthRecords κ)

def Call.runWith (records : AuthRecords κ) (c : Call κ) : AuthRecords κ × Answer :=
  match c.op with
  | .failureDelayAt now =>
      let (records, delay, remaining) := failureWith records purge c.key now
      (records, .failed delay remaining)
  | .bannedAt now =>
      let (banned, left) := bannedAt records c.key now
      (records, .banned banned left)
  | .resetAt => (resetAt records c.key, .reset)

def answersWith : AuthRecords κ → List (Call κ) → List Answer
  | _, [] => []
  | records, c :: cs => (c.runWith purge records).2 :: answersWith (c.runWith purge records).1 cs

/-- What a limiter without records answers, call by call. -/
def answers (calls : List (Call κ)) : List Answer := answersWith purgeAuthLocked (fun _ => none) calls

/-- The clock does not go back. -/
def Ordered (calls : List (Call κ)) : Prop := (calls.filterMap (·.op.time)).Pairwise (· ≤ ·)

instance (calls : List (Call κ)) : Decidable (Ordered calls) :=
  inferInstanceAs (Decidable (List.Pairwise _ _))

end Run

/-! ## What an address is owed -/

namespace Spec

/-- Between the failure before and `now` there was a long silence, or a ban has ended. -/
def Afresh (before : List ℕ) (deadline : Option ℕ) (now : ℕ) : Prop :=
  ∃ last ∈ before.head?, last + authForget < now ∨ ∃ d ∈ deadline, last < d ∧ d ≤ now

instance (before : List ℕ) (deadline : Option ℕ) (now : ℕ) :
    Decidable (Afresh before deadline now) := by
  unfold Afresh; infer_instance

/-- The failures that count, and the deadline of the last ban, after these failures with no
success between them, the last one first. -/
def account : List ℕ → ℕ × Option ℕ
  | [] => (0, none)
  | now :: before =>
      let (count, deadline) := account before
      let count := if Afresh before deadline now then 1 else count + 1
      (count, if banThreshold ≤ count then some (now + banDuration) else deadline)

/-- The failures since the last success; what is asked last comes first. -/
def failures : List Op → List ℕ
  | [] => []
  | .failureDelayAt now :: ops => now :: failures ops
  | .bannedAt _ :: ops => failures ops
  | .resetAt :: _ => []

/-- The answer to an address that has asked `before`. -/
def answer (before : List Op) : Op → Answer
  | .failureDelayAt now =>
      let (count, _) := account (now :: failures before)
      .failed (delayForFailures count) (banThreshold - count)
  | .bannedAt now =>
      match (account (failures before)).2 with
      | some deadline => if now < deadline then .banned true (deadline - now) else .banned false 0
      | none => .banned false 0
  | .resetAt => .reset

theorem account_fst (now : ℕ) (before : List ℕ) : (account (now :: before)).1 =
    if Afresh before (account before).2 now then 1 else (account before).1 + 1 := rfl

theorem account_snd (now : ℕ) (before : List ℕ) : (account (now :: before)).2 =
    if banThreshold ≤ (account (now :: before)).1 then some (now + banDuration)
    else (account before).2 := rfl

section Run

variable {κ : Type} [DecidableEq κ]

/-- The history of one address. -/
def own (key : κ) (calls : List (Call κ)) : List Op :=
  (calls.filter fun c => c.key = key).map (·.op)

/-- The answers to calls that come after those of `before`, of which the last comes first. -/
def answers : List (Call κ) → List (Call κ) → List Answer
  | _, [] => []
  | before, c :: cs => answer (own c.key before) c.op :: answers (c :: before) cs

end Run

end Spec

/-! ## A failure -/

namespace AuthRecord

variable (r : AuthRecord) (now : ℕ)

/-- Forgetting the count leaves the ban as it is. -/
@[simp]
theorem ended_failures (n : ℕ) : Ended { r with failures := n } now ↔ r.Ended now := Iff.rfl

theorem fail_last : (r.fail now).last = now := by
  simp only [fail]
  split_ifs <;> rfl

theorem fail_failures : (r.fail now).failures =
    if authForget < now - r.last ∨ r.Ended now then 1 else r.failures + 1 := by
  by_cases hended : r.Ended now <;> by_cases hsilent : authForget < now - r.last <;>
    simp [fail, hended, hsilent, apply_ite AuthRecord.failures]

theorem fail_bannedUntil : (r.fail now).bannedUntil =
    if banThreshold ≤ (r.fail now).failures then now + banDuration
    else if r.Ended now then 0 else r.bannedUntil := by
  rw [fail_failures]
  by_cases hended : r.Ended now <;> by_cases hsilent : authForget < now - r.last <;>
    simp [fail, hended, hsilent, apply_ite AuthRecord.bannedUntil]

end AuthRecord

/-! ## What is kept and what is owed -/

/-- The record of an address with these failures since its last success: where there is none,
it would not matter any more. -/
def Tracks (now : ℕ) (fs : List ℕ) : Option AuthRecord → Prop
  | none => ∀ last ∈ fs.head?, last + authForget < now ∧ ∀ d ∈ (Spec.account fs).2, d ≤ now
  | some r => fs.head? = some r.last ∧ r.last ≤ now ∧ r.failures = (Spec.account fs).1 ∧
      r.bannedUntil = ((Spec.account fs).2.filter fun d => r.last < d).getD 0

namespace Tracks

variable {now later : ℕ} {fs : List ℕ} {r : AuthRecord} {record : Option AuthRecord}

theorem mono (h : Tracks now fs record) (hle : now ≤ later) : Tracks later fs record := by
  cases record with
  | none =>
      intro last hlast
      obtain ⟨hsilent, hover⟩ := h last hlast
      exact ⟨Nat.lt_of_lt_of_le hsilent hle, fun d hd => Nat.le_trans (hover d hd) hle⟩
  | some r =>
      obtain ⟨hhead, hlast, hcount, hban⟩ := h
      exact ⟨hhead, Nat.le_trans hlast hle, hcount, hban⟩

/-- A ban that is over is not in the record, or is about to be cleared. -/
theorem ban_over (h : Tracks now fs (some r)) (hban : ¬ now < r.bannedUntil) :
    ∀ d ∈ (Spec.account fs).2, d ≤ now := by
  obtain ⟨-, hlast, -, huntil⟩ := h
  intro d hd
  by_cases hlt : r.last < d
  · rw [Option.mem_def.mp hd] at huntil
    simp only [Option.filter_some, hlt, decide_true, if_true, Option.getD_some] at huntil
    omega
  · omega

theorem purged (h : Tracks now fs (some r)) (hstale : r.Stale now) : Tracks now fs none := by
  intro last hlast
  have heq : r.last = last := Option.some.inj (h.1.symm.trans hlast)
  have hsilent := hstale.1
  exact ⟨by omega, h.ban_over hstale.2⟩

theorem ended_iff (h : Tracks now fs (some r)) :
    r.Ended now ↔ ∃ d ∈ (Spec.account fs).2, r.last < d ∧ d ≤ now := by
  obtain ⟨-, -, -, huntil⟩ := h
  unfold AuthRecord.Ended
  rw [huntil]
  cases (Spec.account fs).2 with
  | none => simp
  | some d =>
      by_cases hlt : r.last < d
      · simp only [Option.filter_some, hlt, decide_true, if_true, Option.getD_some, Option.mem_def,
          Option.some.injEq, exists_eq_left', true_and]
        omega
      · simp only [Option.filter_some, hlt, decide_false, if_false, Option.getD_none, ne_eq,
          not_true_eq_false, false_and, Option.mem_def, Option.some.injEq, exists_eq_left',
          Bool.false_eq_true]

theorem afresh_iff (h : Tracks now fs (some r)) :
    Spec.Afresh fs (Spec.account fs).2 now ↔ authForget < now - r.last ∨ r.Ended now := by
  unfold Spec.Afresh
  rw [h.ended_iff, h.1]
  simp only [Option.mem_def, Option.some.injEq, exists_eq_left']
  have hsilent : r.last + authForget < now ↔ authForget < now - r.last := by omega
  rw [hsilent]

/-- A failure is counted as it should be, and what is left of an earlier ban is right. -/
theorem charged (hcount : (r.fail now).failures = (Spec.account (now :: fs)).1)
    (huntil : (if r.Ended now then 0 else r.bannedUntil) =
      ((Spec.account fs).2.filter fun d => now < d).getD 0) :
    Tracks now (now :: fs) (some (r.fail now)) := by
  have hlast : (r.fail now).last = now := r.fail_last now
  have hnew : now < now + banDuration := Nat.lt_add_of_pos_right (by decide)
  refine ⟨?_, Nat.le_of_eq hlast, hcount, ?_⟩
  · rw [hlast]
    rfl
  · rw [hlast, r.fail_bannedUntil, huntil, hcount, Spec.account_snd]
    by_cases hmany : banThreshold ≤ (Spec.account (now :: fs)).1
    · simp only [hmany, if_true, Option.filter_some, hnew, decide_true, Option.getD_some]
    · simp only [hmany, if_false]

/-- A failure of an address without a record. -/
theorem fail_none (h : Tracks now fs none) :
    Tracks now (now :: fs) (some (({} : AuthRecord).fail now)) := by
  apply charged
  · rw [AuthRecord.fail_failures, Spec.account_fst]
    cases fs with
    | nil => simp [Spec.Afresh, Spec.account]
    | cons last fs =>
        have hafresh : Spec.Afresh (last :: fs) (Spec.account (last :: fs)).2 now :=
          ⟨last, rfl, Or.inl (h last rfl).1⟩
        simp only [hafresh, if_true, Nat.zero_add, ite_self]
  · cases fs with
    | nil => simp [AuthRecord.Ended, Spec.account]
    | cons last fs =>
        have hover : (Spec.account (last :: fs)).2.filter (fun d => now < d) = none := by
          rw [Option.filter_eq_none_iff]
          intro d hd
          have := (h last rfl).2 d hd
          simpa using this
        rw [hover]
        rfl

theorem fail_some (h : Tracks now fs (some r)) : Tracks now (now :: fs) (some (r.fail now)) := by
  apply charged
  · rw [AuthRecord.fail_failures, Spec.account_fst, h.2.2.1]
    exact if_congr h.afresh_iff.symm rfl rfl
  · by_cases hended : r.Ended now
    · have hover : (Spec.account fs).2.filter (fun d => now < d) = none := by
        rw [Option.filter_eq_none_iff]
        intro d hd
        have := h.ban_over hended.2 d hd
        simpa using this
      rw [hover, if_pos hended]
      rfl
    · rw [if_neg hended, h.2.2.2]
      have hnot := mt h.ended_iff.mpr hended
      cases hd : (Spec.account fs).2 with
      | none => rfl
      | some d =>
          have hle : r.last ≤ now := h.2.1
          have hiff : r.last < d ↔ now < d := by
            refine ⟨fun hlt => ?_, fun hlt => Nat.lt_of_le_of_lt hle hlt⟩
            by_contra hge
            exact hnot ⟨d, hd, hlt, Nat.le_of_not_lt hge⟩
          simp only [Option.filter_some, hiff]

/-- After a failure, whether or not the record was still there. -/
theorem fail (h : Tracks now fs record) :
    Tracks now (now :: fs) (some ((record.getD {}).fail now)) := by
  cases record with
  | none => exact h.fail_none
  | some r => exact h.fail_some

/-- Being banned is being short of the deadline. -/
theorem banned (h : Tracks now fs (some r)) :
    now < r.bannedUntil ↔ ∃ d ∈ (Spec.account fs).2, now < d := by
  obtain ⟨-, hlast, -, huntil⟩ := h
  rw [huntil]
  cases (Spec.account fs).2 with
  | none => simp
  | some d =>
      by_cases hlt : r.last < d
      · simp [Option.filter_some, hlt]
      · have hle : ¬ now < d := by omega
        simp [Option.filter_some, hlt, hle]

theorem until_eq (h : Tracks now fs (some r)) {d : ℕ} (hd : d ∈ (Spec.account fs).2)
    (hlt : now < d) : r.bannedUntil = d := by
  obtain ⟨-, hlast, -, huntil⟩ := h
  have hnew : r.last < d := Nat.lt_of_le_of_lt hlast hlt
  rw [huntil, Option.mem_def.mp hd]
  simp [Option.filter_some, hnew]

end Tracks

/-! ## Runs -/

section Runs

variable {κ : Type} [DecidableEq κ] {purge : AuthRecords κ → ℕ → AuthRecords κ}
  {records : AuthRecords κ} {before calls : List (Call κ)} {now later : ℕ} {key : κ}

/-- A way of purging: any stale records are dropped. -/
def Purges (purge : AuthRecords κ → ℕ → AuthRecords κ) : Prop :=
  ∀ records now key, purge records now key = records key ∨
    purge records now key = none ∧ ∃ r ∈ records key, r.Stale now

omit [DecidableEq κ] in
theorem purges_locked : Purges (purgeAuthLocked (κ := κ)) := by
  intro records now key
  unfold purgeAuthLocked
  cases hr : records key with
  | none => exact Or.inl rfl
  | some r =>
      by_cases hstale : r.Stale now
      · exact Or.inr ⟨by simp [hstale], r, rfl, hstale⟩
      · exact Or.inl (by simp [hstale])

/-- The records are what the addresses' own histories ask for. -/
def Follows (now : ℕ) (before : List (Call κ)) (records : AuthRecords κ) : Prop :=
  ∀ key, Tracks now (Spec.failures (Spec.own key before)) (records key)

theorem Follows.mono (h : Follows now before records) (hle : now ≤ later) :
    Follows later before records :=
  fun key => (h key).mono hle

theorem Follows.purged (h : Follows now before records) (hp : Purges purge) :
    Follows now before (purge records now) := by
  intro key
  rcases hp records now key with heq | ⟨heq, r, hr, hstale⟩
  · rw [heq]
    exact h key
  · rw [heq]
    have hk := h key
    rw [Option.mem_def.mp hr] at hk
    exact hk.purged hstale

theorem own_self (c : Call κ) : Spec.own c.key (c :: before) = c.op :: Spec.own c.key before := by
  simp [Spec.own]

theorem own_ne {c : Call κ} (hne : c.key ≠ key) :
    Spec.own key (c :: before) = Spec.own key before := by
  simp [Spec.own, hne]

/-- A call moves its own address on and no other. -/
theorem Follows.update (h : Follows now before records) (c : Call κ) {record : Option AuthRecord}
    (hself : Tracks now (Spec.failures (c.op :: Spec.own c.key before)) record) :
    Follows now (c :: before) (Function.update records c.key record) := by
  intro key
  by_cases heq : key = c.key
  · subst heq
    rw [own_self, Function.update_self]
    exact hself
  · rw [own_ne (Ne.symm heq), Function.update_of_ne heq]
    exact h key

/-- What an address is told of its failure, and what becomes of the records. -/
theorem Follows.failure (h : Follows now before records) (hp : Purges purge) (key : κ) :
    Follows now (⟨key, .failureDelayAt now⟩ :: before) (failureWith records purge key now).1 ∧
    Answer.failed (failureWith records purge key now).2.1 (failureWith records purge key now).2.2 =
      Spec.answer (Spec.own key before) (.failureDelayAt now) := by
  have hpurged := h.purged hp
  have hfail := (hpurged key).fail
  refine ⟨hpurged.update ⟨key, .failureDelayAt now⟩ hfail, ?_⟩
  have hcount := hfail.2.2.1
  simp only [failureWith, Spec.answer]
  rw [hcount]

theorem answer_banned {ops : List Op} {d : ℕ} (hd : d ∈ (Spec.account (Spec.failures ops)).2)
    (hlt : now < d) : Spec.answer ops (.bannedAt now) = .banned true (d - now) := by
  simp only [Spec.answer, Option.mem_def.mp hd, hlt, if_true]

theorem answer_free {ops : List Op} (h : ∀ d ∈ (Spec.account (Spec.failures ops)).2, d ≤ now) :
    Spec.answer ops (.bannedAt now) = .banned false 0 := by
  unfold Spec.answer
  cases hd : (Spec.account (Spec.failures ops)).2 with
  | none => rfl
  | some d =>
      have hle : ¬ now < d := Nat.not_lt.mpr (h d hd)
      simp only [hle, if_false]

theorem Follows.bannedAt (h : Follows now before records) (key : κ) :
    Answer.banned (AuthLimit.bannedAt records key now).1 (AuthLimit.bannedAt records key now).2 =
      Spec.answer (Spec.own key before) (.bannedAt now) := by
  have hkey := h key
  unfold AuthLimit.bannedAt
  cases hr : records key with
  | none =>
      rw [hr] at hkey
      rw [answer_free]
      intro d hd
      cases hfs : Spec.failures (Spec.own key before) with
      | nil =>
          rw [hfs] at hd
          cases hd
      | cons last fs =>
          rw [hfs] at hkey hd
          exact (hkey last rfl).2 d hd
  | some r =>
      rw [hr] at hkey
      by_cases hban : now < r.bannedUntil
      · obtain ⟨d, hd, hlt⟩ := hkey.banned.mp hban
        rw [answer_banned hd hlt, ← hkey.until_eq hd hlt]
        simp only [hban, not_true_eq_false, if_false]
      · rw [answer_free (hkey.ban_over hban)]
        simp only [hban, not_false_eq_true, if_true]

/-- One call: the answer is the address's due, and the records still follow the histories. -/
theorem Follows.step (h : Follows now before records) (hp : Purges purge) (c : Call κ)
    (hnow : ∀ t ∈ c.op.time, t = now) :
    Follows now (c :: before) (c.runWith purge records).1 ∧
      (c.runWith purge records).2 = Spec.answer (Spec.own c.key before) c.op := by
  obtain ⟨key, op⟩ := c
  cases op with
  | failureDelayAt t =>
      obtain rfl : t = now := hnow t rfl
      exact h.failure hp key
  | bannedAt t =>
      obtain rfl : t = now := hnow t rfl
      refine ⟨fun k => ?_, h.bannedAt key⟩
      by_cases heq : key = k
      · subst heq
        rw [own_self ⟨key, .bannedAt t⟩]
        exact h key
      · rw [own_ne (c := ⟨key, .bannedAt t⟩) heq]
        exact h k
  | resetAt =>
      refine ⟨h.update ⟨key, .resetAt⟩ ?_, rfl⟩
      intro last hlast
      cases hlast

omit [DecidableEq κ] in
/-- The time at which the first of the calls is made, where it is told one. -/
theorem Ordered.first {c : Call κ} (hord : Ordered (c :: calls))
    (hcalls : ∀ t ∈ (c :: calls).filterMap (·.op.time), now ≤ t) :
    Ordered calls ∧ ∃ later, now ≤ later ∧ (∀ t ∈ c.op.time, t = later) ∧
      ∀ t ∈ calls.filterMap (·.op.time), later ≤ t := by
  unfold Ordered at hord ⊢
  cases ht : c.op.time with
  | none =>
      simp only [List.filterMap_cons, ht] at hcalls hord
      exact ⟨hord, now, Nat.le_refl _, fun t ht => absurd ht (Option.not_mem_none t), hcalls⟩
  | some t =>
      simp only [List.filterMap_cons, ht] at hcalls hord
      obtain ⟨hfirst, hrest⟩ := List.pairwise_cons.mp hord
      refine ⟨hrest, t, hcalls t (List.mem_cons_self ..), ?_, hfirst⟩
      rintro u ⟨⟩
      rfl

/-- A limiter answers every address by its own history, however it purges. -/
theorem Follows.answers (hp : Purges purge) (h : Follows now before records)
    (hcalls : ∀ t ∈ calls.filterMap (·.op.time), now ≤ t) (hord : Ordered calls) :
    answersWith purge records calls = Spec.answers before calls := by
  induction calls generalizing now before records with
  | nil => rfl
  | cons c calls ih =>
      obtain ⟨hordered, later, hle, hlater, hrest⟩ := hord.first hcalls
      obtain ⟨hnext, hanswer⟩ := (h.mono hle).step hp c hlater
      simp only [answersWith, Spec.answers]
      rw [hanswer, ih hnext hrest hordered]

theorem follows_start : Follows 0 ([] : List (Call κ)) fun _ => none := by
  intro key last hlast
  cases hlast

theorem answers_eq_spec (hp : Purges purge) (hord : Ordered calls) :
    answersWith purge (fun _ => none) calls = Spec.answers [] calls :=
  follows_start.answers hp (fun t _ => Nat.zero_le t) hord

/-- The answers that an address gets among those to all of the calls. -/
def answersTo (key : κ) (calls : List (Call κ)) (answers : List Answer) : List Answer :=
  ((calls.zip answers).filter fun a => a.1.key = key).map (·.2)

theorem own_filter : Spec.own key (before.filter fun c => c.key = key) = Spec.own key before := by
  simp [Spec.own, List.filter_filter]

theorem spec_answersTo (key : κ) : answersTo key calls (Spec.answers before calls) =
    Spec.answers (before.filter fun c => c.key = key) (calls.filter fun c => c.key = key) := by
  induction calls generalizing before with
  | nil => rfl
  | cons c calls ih =>
      have hrest := @ih (c :: before)
      unfold answersTo at hrest ⊢
      by_cases heq : c.key = key
      · subst heq
        simp only [Spec.answers, List.zip_cons_cons, List.filter_cons, decide_true, if_true,
          List.map_cons, own_filter] at hrest ⊢
        rw [hrest]
      · simp only [Spec.answers, List.zip_cons_cons, List.filter_cons, heq, decide_false,
          Bool.false_eq_true, if_false] at hrest ⊢
        exact hrest

omit [DecidableEq κ] in
theorem Ordered.filter (h : Ordered calls) (p : Call κ → Bool) : Ordered (calls.filter p) :=
  List.Pairwise.sublist (List.Sublist.filterMap _ List.filter_sublist) h

/-- The limiter answers every call by the history of its address alone, the answers to an address
are what they would be if nobody else ever called, and when old records are dropped, if they are,
makes no difference. -/
theorem answers_specified (hord : Ordered calls) :
    AuthLimit.answers calls = Spec.answers [] calls ∧
    (∀ key, answersTo key calls (AuthLimit.answers calls) =
      AuthLimit.answers (calls.filter fun c => c.key = key)) ∧
    ∀ purge, Purges purge →
      AuthLimit.answers calls = answersWith purge (fun _ => none) calls := by
  have hspec : AuthLimit.answers calls = Spec.answers [] calls :=
    answers_eq_spec purges_locked hord
  refine ⟨hspec, fun key => ?_, fun purge hp => ?_⟩
  · rw [hspec, spec_answersTo]
    exact (answers_eq_spec purges_locked (hord.filter _)).symm
  · rw [hspec, answers_eq_spec hp hord]

end Runs

/-- A failure, another address's failure that finds the first one stale, and the first address
again. -/
def visits : List (Call String) :=
  [⟨"a", .failureDelayAt 0⟩, ⟨"b", .failureDelayAt (11 * minute)⟩, ⟨"a", .bannedAt (11 * minute)⟩,
    ⟨"a", .failureDelayAt (12 * minute)⟩, ⟨"b", .resetAt⟩]

theorem answers_visits : Ordered visits ∧ answers visits = Spec.answers [] visits ∧
    answers visits = [.failed authBaseDelay 9, .failed authBaseDelay 9, .banned false 0,
      .failed authBaseDelay 9, .reset] :=
  have hord : Ordered visits := by decide
  ⟨hord, (answers_specified hord).1, by decide +kernel⟩

end Sozvon.AuthLimit
