import Sozvon.Runs
import Mathlib.Data.Rat.Defs
import Mathlib.Algebra.Order.Ring.Rat
import Mathlib.Tactic.NormNum
import Mathlib.Tactic.SplitIfs

/-!
# The level of a connection

The tracker moves the level it shows only when the ratings of several polls
agree. What it keeps of the polls before is one pending level and how many in a
row were rated so; a rating that is neither shown nor pending starts the count
again, also when it is worse than both.
-/
namespace Sozvon.ConnectionQuality

open Runs

section Definitions

inductive Level where
  | good
  | weak
  | bad
  | lost
deriving DecidableEq

def rank : Level → ℕ
  | .good => 0
  | .weak => 1
  | .bad => 2
  | .lost => 3

structure Thresholds where
  loss : ℚ
  rtt : ℚ
  jitter : ℚ

def WEAK : Thresholds := ⟨0.03, 0.35, 0.05⟩

def BAD : Thresholds := ⟨0.10, 0.8, 0.15⟩

def MIN_PACKETS : ℚ := 20

def WORSEN_AFTER : ℕ := 2

def IMPROVE_AFTER : ℕ := 3

structure Snapshot where
  time : ℚ := 0
  received : ℚ := 0
  lost : ℚ := 0
  jitter : ℚ := 0
  inbound : Bool := false
  remoteLoss : ℚ := 0
  remoteRtt : ℚ := 0
  outbound : Bool := false
  rtt : ℚ := 0

structure Assessment where
  level : Option Level
  loss : ℚ
  rtt : ℚ
  jitter : ℚ

/-- Some figure reaches its threshold. -/
def Assessment.reaches (a : Assessment) (t : Thresholds) : Prop :=
  t.loss ≤ a.loss ∨ t.rtt ≤ a.rtt ∨ t.jitter ≤ a.jitter

instance (a : Assessment) (t : Thresholds) : Decidable (a.reaches t) :=
  inferInstanceAs (Decidable (_ ∨ _ ∨ _))

/-- The loss that the counters show, if enough packets came. -/
def inboundLoss (prev : Option Snapshot) (cur : Snapshot) : Option ℚ :=
  match prev with
  | none => none
  | some prev =>
      let received := cur.received - prev.received
      let lost := cur.lost - prev.lost
      if cur.inbound ∧ 0 ≤ received ∧ 0 ≤ lost ∧ MIN_PACKETS ≤ received + lost then
        some (lost / (received + lost))
      else none

def assess (prev : Option Snapshot) (cur : Snapshot) : Assessment :=
  let rtt := max cur.rtt cur.remoteRtt
  let counted := inboundLoss prev cur
  let loss := counted.getD 0
  let loss := if cur.outbound then max loss cur.remoteLoss else loss
  let jitter := if cur.inbound then cur.jitter else 0
  let a : Assessment := ⟨none, loss, rtt, jitter⟩
  if ¬ (counted.isSome ∨ cur.outbound ∨ 0 < rtt) then a
  else if a.reaches BAD then { a with level := some .bad }
  else if a.reaches WEAK then { a with level := some .weak }
  else { a with level := some .good }

inductive IceState where
  | new
  | checking
  | connected
  | completed
  | disconnected
  | failed
  | closed
deriving DecidableEq

structure Tracker where
  level : Level := .good
  prev : Option Snapshot := none
  pending : Option Level := none
  count : ℕ := 0
  last : Option Assessment := none

structure Poll where
  iceState : IceState
  snap : Option Snapshot := none

/-- What `update` returns. -/
structure Report where
  level : Level
  previous : Level
  changed : Bool

namespace Tracker

/-- The rating of a poll, `raw` in the source, and the tracker once it has read
the poll. -/
def read (t : Tracker) (p : Poll) : Tracker × Option Level :=
  if p.iceState = .disconnected then
    ({ t with prev := none, last := none }, if t.level = .lost then none else some .lost)
  else match p.snap with
    | none => (t, none)
    | some snap =>
        let a := assess t.prev snap
        ({ t with prev := some snap, last := some a }, a.level)

def agree (t : Tracker) : Tracker := { t with pending := none, count := 0 }

/-- A level other than the one shown is counted, and shown when it has persisted. -/
def differ (t : Tracker) (raw : Level) : Tracker :=
  let count := (if t.pending = some raw then t.count else 0) + 1
  let needed := if rank t.level < rank raw then WORSEN_AFTER else IMPROVE_AFTER
  if needed ≤ count then { t with level := raw, pending := none, count := 0 }
  else { t with pending := some raw, count := count }

def settle (t : Tracker) (raw : Option Level) : Tracker :=
  match raw with
  | none => t.agree
  | some raw => if raw = t.level then t.agree else t.differ raw

/-- Back from `lost`: a rating is believed at once. -/
def restore (t : Tracker) (iceState : IceState) (raw : Option Level) : Tracker :=
  if iceState = .connected ∨ iceState = .completed then
    { t with level := raw.getD .good, pending := none, count := 0 }
  else t

def next (t : Tracker) (p : Poll) : Tracker :=
  if p.iceState = .failed then { level := .lost }
  else
    let r := t.read p
    if t.level = .lost then r.1.restore p.iceState r.2 else r.1.settle r.2

def update (t : Tracker) (p : Poll) : Tracker × Report :=
  (t.next p, ⟨(t.next p).level, t.level, t.level ≠ (t.next p).level⟩)

/-- What a poll is rated. -/
def rating (t : Tracker) (p : Poll) : Option Level := (t.read p).2

end Tracker

def tracker : System Tracker Poll where
  init t := t = {}
  step t p := some (t.update p).1

/-- ICE has not failed, and the level shown is not `lost`. -/
def Up (t : Tracker) (p : Poll) : Prop := p.iceState ≠ .failed ∧ t.level ≠ .lost

instance (t : Tracker) (p : Poll) : Decidable (Up t p) := inferInstanceAs (Decidable (_ ∧ _))

/-- The rating of the poll is worse than a level. -/
def RatedWorse (shown : Level) (t : Tracker) (p : Poll) (r : Level) : Prop :=
  t.rating p = some r ∧ rank shown < rank r

instance (shown : Level) (t : Tracker) (p : Poll) (r : Level) :
    Decidable (RatedWorse shown t p r) := inferInstanceAs (Decidable (_ ∧ _))

/-- Two polls in a row that are rated worse than the level shown make it worse. -/
def Tells (t : Tracker) (p q : Poll) : Prop :=
  rank t.level < rank ((t.next p).update q).2.level

instance (t : Tracker) (p q : Poll) : Decidable (Tells t p q) :=
  inferInstanceAs (Decidable (_ < _))

/-- The polls between them change nothing of what is shown. -/
def Holds (t : Tracker) (polls : List Poll) : Prop :=
  match polls with
  | [] => True
  | p :: polls => (t.update p).2.changed = false ∧ Holds (t.update p).1 polls

end Definitions

/-! ## One poll -/

section Steps

variable {t : Tracker} {p : Poll} {r : Level}

namespace Tracker

theorem read_fst (t : Tracker) (p : Poll) : ∃ prev last,
    (t.read p).1 = { t with prev := prev, last := last } := by
  unfold read
  by_cases hdown : p.iceState = .disconnected
  · rw [if_pos hdown]
    exact ⟨none, none, rfl⟩
  · rw [if_neg hdown]
    cases p.snap with
    | none => exact ⟨t.prev, t.last, rfl⟩
    | some snap => exact ⟨some snap, some (assess t.prev snap), rfl⟩

theorem next_of_up (h : Up t p) : t.next p = (t.read p).1.settle (t.rating p) := by
  rw [next, if_neg h.1]
  exact if_neg h.2

/-- A poll that is rated as the level shown forgets the pending one. -/
theorem next_agree (h : Up t p) (hr : t.rating p = some t.level) :
    (t.next p).level = t.level ∧ (t.next p).pending = none := by
  obtain ⟨prev, last, hread⟩ := t.read_fst p
  have hnext : t.next p = { t with prev := prev, last := last, pending := none, count := 0 } := by
    rw [next_of_up h, hr, hread]
    exact if_pos rfl
  rw [hnext]
  exact ⟨rfl, rfl⟩

/-- The first poll of a rating only makes it pending. -/
theorem next_first (h : Up t p) (hr : t.rating p = some r) (hne : r ≠ t.level)
    (hpending : t.pending ≠ some r) :
    (t.next p).level = t.level ∧ (t.next p).pending = some r ∧ (t.next p).count = 1 := by
  obtain ⟨prev, last, hread⟩ := t.read_fst p
  have hneeded : ¬ (if rank t.level < rank r then WORSEN_AFTER else IMPROVE_AFTER) ≤ 0 + 1 := by
    split_ifs <;> decide
  have hnext : t.next p =
      { t with prev := prev, last := last, pending := some r, count := 0 + 1 } := by
    rw [next_of_up h, hr, hread, settle]
    simp only [if_neg hne, differ, if_neg hpending, if_neg hneeded]
  rw [hnext]
  exact ⟨rfl, rfl, rfl⟩

/-- The second poll of a worse rating makes it the level shown. -/
theorem next_again (h : Up t p) (hr : t.rating p = some r) (hworse : rank t.level < rank r)
    (hpending : t.pending = some r) (hcount : 1 ≤ t.count) :
    (t.next p).level = r ∧ (t.next p).pending = none := by
  obtain ⟨prev, last, hread⟩ := t.read_fst p
  have hne : r ≠ t.level := fun heq => absurd hworse (heq ▸ lt_irrefl _)
  have hneeded : WORSEN_AFTER ≤ t.count + 1 := Nat.succ_le_succ hcount
  have hnext : t.next p =
      { t with prev := prev, last := last, level := r, pending := none, count := 0 } := by
    rw [next_of_up h, hr, hread, settle]
    simp only [if_neg hne, differ, if_pos hpending, if_pos hworse, if_pos hneeded]
  rw [hnext]
  exact ⟨rfl, rfl⟩

/-- After a poll that left nothing pending the next one moves nothing. -/
theorem next_level (h : Up t p) (hpending : t.pending = none) : (t.next p).level = t.level := by
  cases hr : t.rating p with
  | none =>
      obtain ⟨prev, last, hread⟩ := t.read_fst p
      rw [next_of_up h, hr, hread]
      rfl
  | some r =>
      by_cases hne : r = t.level
      · exact (next_agree h (hne ▸ hr)).1
      · exact (next_first h hr hne (hpending ▸ nofun)).1

/-- What is pending has been counted. -/
def Counted (t : Tracker) : Prop := t.pending ≠ none → 1 ≤ t.count

theorem settle_counted (t : Tracker) (raw : Option Level) : (t.settle raw).Counted := by
  have hagree : t.agree.Counted := fun hpending => absurd rfl hpending
  cases raw with
  | none => exact hagree
  | some raw =>
      simp only [settle, differ]
      split_ifs
      · exact hagree
      all_goals first
        | exact fun hpending => absurd rfl hpending
        | exact fun _ => Nat.le_add_left ..

theorem update_counted (h : Up t p) : (t.update p).1.Counted := by
  rw [update, next_of_up h]
  exact settle_counted _ _

theorem counted_of_polled (h : Reachable tracker Up t) : t.Counted := by
  refine h.invariant (P := Counted) ?_ ?_
  · rintro t rfl hpending
    exact absurd rfl hpending
  · intro t p t' _ hup hstep
    cases hstep
    exact update_counted hup

end Tracker

end Steps

/-! ## Two polls -/

section Pairs

variable {t : Tracker} {p q : Poll} {r r' : Level}

open Tracker

theorem tells_of_pending (ht : t.Counted) (hp : Up t p) (hq : Up (t.next p) q)
    (hr : RatedWorse t.level t p r) (hpending : t.pending = some r) : Tells t p q := by
  obtain ⟨hlevel, hnone⟩ := next_again hp hr.1 hr.2 hpending (ht (hpending ▸ nofun))
  rw [Tells, update, next_level hq hnone, hlevel]
  exact hr.2

/-- A rating that is not pending yet is told by the second poll if that repeats it. -/
theorem tells_iff_of_first (hp : Up t p) (hq : Up (t.next p) q)
    (hr : RatedWorse t.level t p r) (hr' : RatedWorse t.level (t.next p) q r')
    (hpending : t.pending ≠ some r) : Tells t p q ↔ r = r' := by
  have hne : ∀ {x}, rank t.level < rank x → x ≠ t.level :=
    fun hworse heq => absurd hworse (heq ▸ lt_irrefl _)
  obtain ⟨hlevel, hsome, hcount⟩ := next_first hp hr.1 (hne hr.2) hpending
  rw [Tells, update]
  constructor
  · intro htells
    by_contra hdiffer
    have hnew : (t.next p).pending ≠ some r' := by
      rw [hsome]
      exact fun h => hdiffer (Option.some.inj h)
    rw [(next_first hq hr'.1 (hlevel ▸ hne hr'.2) hnew).1, hlevel] at htells
    exact lt_irrefl _ htells
  · rintro rfl
    rw [(next_again hq hr'.1 (hlevel ▸ hr.2) hsome hcount.ge).1]
    exact hr.2

theorem holds_of_agree {q' : Poll} (hp : Up t p) (hq : Up (t.next p) q)
    (hq' : Up ((t.next p).next q) q') (hr : t.rating p = some t.level)
    (hr' : ((t.next p).next q).rating q' = some t.level) : Holds t [p, q, q'] := by
  obtain ⟨hlevel, hnone⟩ := next_agree hp hr
  have hlevel' : ((t.next p).next q).level = t.level := (next_level hq hnone).trans hlevel
  have hlevel'' : (((t.next p).next q).next q').level = t.level :=
    (next_agree hq' (hlevel' ▸ hr')).1.trans hlevel'
  have hchanged : ∀ {l l' : Level}, l' = l → decide (l ≠ l') = false := fun heq =>
    decide_eq_false fun hne => hne heq.symm
  exact ⟨hchanged hlevel, hchanged (hlevel'.trans hlevel.symm),
    hchanged (hlevel''.trans hlevel'.symm), trivial⟩

/-- Two polls in a row that are rated worse than what is shown are told if they
agree, or if the first one agrees with the poll before it; a single poll never
shows. -/
theorem tells_iff (h : Reachable tracker Up t) :
    (∀ p q r r', Up t p → Up (t.next p) q →
      RatedWorse t.level t p r → RatedWorse t.level (t.next p) q r' →
      (Tells t p q ↔ r = r' ∨ t.pending = some r)) ∧
    ∀ p q q', Up t p → Up (t.next p) q → Up ((t.next p).next q) q' →
      t.rating p = some t.level → (t.next p).rating q ≠ some t.level →
      ((t.next p).next q).rating q' = some t.level → Holds t [p, q, q'] := by
  refine ⟨fun p q r r' hp hq hr hr' => ?_, fun p q q' hp hq hq' hr _ hr' =>
    holds_of_agree hp hq hq' hr hr'⟩
  by_cases hpending : t.pending = some r
  · exact iff_of_true (tells_of_pending (counted_of_polled h) hp hq hr hpending)
      (.inr hpending)
  · rw [tells_iff_of_first hp hq hr hr' hpending]
    exact (or_iff_left hpending).symm

/-- A round trip that is slow. -/
def slow (rtt : ℚ) : Poll := ⟨.connected, some { rtt := rtt }⟩

theorem tells_iff_slow : Tells {} (slow 1) (slow 1) ↔ Level.bad = .bad ∨ none = some Level.bad :=
  (tells_iff (.init rfl)).1 (slow 1) (slow 1) .bad .bad ⟨nofun, nofun⟩
    ⟨nofun, by decide +kernel⟩ (by decide +kernel) (by decide +kernel)

/-- A link that gets worse from poll to poll. -/
theorem not_tells : ¬ ∀ t, Reachable tracker Up t → ∀ p q r r', Up t p → Up (t.next p) q →
    RatedWorse t.level t p r → RatedWorse t.level (t.next p) q r' → Tells t p q := by
  intro h
  have htells : Tells {} (slow 0.5) (slow 1) := h {} (.init rfl) _ _ .weak .bad ⟨nofun, nofun⟩
    ⟨nofun, by decide +kernel⟩ (by decide +kernel) (by decide +kernel)
  exact absurd htells (by decide +kernel)

end Pairs

end Sozvon.ConnectionQuality
