import Sozvon.DiskOrigins
import Sozvon.Runs
import Mathlib.Algebra.Order.Field.Rat
import Mathlib.Algebra.Order.Field.Basic
import Mathlib.Tactic.Ring
import Mathlib.Tactic.FieldSimp

/-!
# Sound and picture of a recording

A run of the recorder goes together with the same run on timestamps that do not
wrap around, which says which timestamps are far apart.
-/
namespace Sozvon.DiskWriter
open RtpTime Runs

inductive SyncLabel (ι : Type*) (τ : Type) where
  | setOrigin (i : ι) (ts : τ) (now : ℤ)
  | setTimeOffset (i : ι) (ntp : UInt64) (rtp : τ)
  | adjustOrigin (i : ι) (ts : τ)
  | close
deriving DecidableEq

def SyncLabel.wrap {ι : Type*} : SyncLabel ι ℤ → SyncLabel ι UInt32
  | .setOrigin i ts now => .setOrigin i (.ofInt ts) now
  | .setTimeOffset i ntp rtp => .setTimeOffset i ntp (.ofInt rtp)
  | .adjustOrigin i ts => .adjustOrigin i (.ofInt ts)
  | .close => .close

def SyncLabel.adjusts {ι : Type*} {τ : Type} : SyncLabel ι τ → Bool
  | .adjustOrigin _ _ => true
  | _ => false

def TrackOrigin.wrap (t : TrackOrigin ℤ) : TrackOrigin UInt32 :=
  { origin := t.origin.map .ofInt, remoteNTP := t.remoteNTP, remoteRTP := .ofInt t.remoteRTP }

def Origins.wrap {ι : Type*} (c : Origins ι ℤ) : Origins ι UInt32 :=
  { originLocal := c.originLocal
    originRemote := c.originRemote
    tracks := fun i => (c.tracks i).wrap }

/-- The recorder, the same with timestamps that do not wrap around, and whether the origins have
been adjusted since they were reset. -/
structure Sync (ι : Type*) where
  recorder : Origins ι UInt32
  unwrapped : Origins ι ℤ
  adjusted : Bool := false

section Model

variable {ι : Type*} {τ : Type} [DecidableEq ι] [DecidableEq τ] [Timestamp τ] (clockRate : ι → ℕ)

def Origins.step (c : Origins ι τ) : SyncLabel ι τ → Origins ι τ
  | .setOrigin i ts now => c.setOrigin clockRate i ts now
  | .setTimeOffset i ntp rtp => c.setTimeOffset clockRate i ntp rtp
  | .adjustOrigin i ts => c.adjustOrigin clockRate i ts
  | .close => c.close

def Sync.step (s : Sync ι) (a : SyncLabel ι ℤ) : Sync ι where
  recorder := s.recorder.step clockRate a.wrap
  unwrapped := s.unwrapped.step clockRate a
  adjusted := match a with
    | .adjustOrigin _ _ => true
    | .close => false
    | _ => s.adjusted

def syncSystem : System (Sync ι) (SyncLabel ι ℤ) where
  init s := s.recorder = s.unwrapped.wrap ∧ s.unwrapped.originLocal = none ∧
    s.unwrapped.originRemote = 0 ∧ ∀ i, (s.unwrapped.tracks i).origin = none
  step s a := some (s.step clockRate a)

/-- The timestamps a track has: its origin, and that of its last report. -/
def TrackOrigin.stamps (t : TrackOrigin ℤ) : List ℤ :=
  t.origin.toList ++ if t.remoteNTP = 0 then [] else [t.remoteRTP]

def SyncLabel.stamps (i : ι) : SyncLabel ι ℤ → List ℤ
  | .setOrigin j ts _ => if j = i then [ts] else []
  | .setTimeOffset j _ rtp => if j = i then [rtp] else []
  | .adjustOrigin j ts => if j = i then [ts] else []
  | .close => []

/-- The instants that a step computes. -/
def Origins.instants (c : Origins ι ℤ) : SyncLabel ι ℤ → List ℤ
  | .setOrigin i ts now =>
      let remote := (c.tracks i).remote ts (clockRate i)
      if (c.tracks i).remoteNTP = 0 then []
      else if c.originRemote ≠ 0 then [remote]
      else [remote, remote - (now - c.originLocal.getD now)]
  | .setTimeOffset i ntp rtp =>
      ntpToTime ntp :: (c.tracks i).origin.toList.map fun origin =>
        ntpToTime ntp - toDuration (rtp - origin) (clockRate i)
  | .adjustOrigin i ts =>
      if c.originRemote = 0 then []
      else (c.tracks i).origin.toList.map fun origin =>
        ntpToTime c.originRemote + toDuration (ts - origin) (clockRate i)
  | .close => []

/-- Timestamps less than `2 ^ 31` apart from each other. -/
def Near (l : List ℤ) : Prop := ∀ x ∈ l, ∀ y ∈ l, |x - y| < 2 ^ 31

instance (l : List ℤ) : Decidable (Near l) :=
  inferInstanceAs (Decidable (∀ x ∈ l, ∀ y ∈ l, |x - y| < 2 ^ 31))

/-- All timestamps used for a track are near, also those that come out of the step; all instants
are between 1970 and 2036; and origins that have been adjusted are not adjusted again. -/
def Sync.Usual (s : Sync ι) (a : SyncLabel ι ℤ) : Prop :=
  (∀ i, Near (a.stamps i ++ (s.unwrapped.tracks i).stamps ++
    ((s.unwrapped.step clockRate a).tracks i).stamps)) ∧
  (∀ tm ∈ s.unwrapped.instants clockRate a, InEra tm) ∧
  ¬(s.adjusted ∧ a.adjusts)

/-- The instant, in nanoseconds, that the last report gives an origin. -/
def TrackOrigin.instant (t : TrackOrigin τ) (origin : τ) (clockrate : ℕ) : ℚ :=
  ntpToTime t.remoteNTP + Timestamp.diff origin t.remoteRTP * (10 ^ 9 / clockrate)

/-- The reports of the tracks agree, up to three ticks of a track's clock, on the instant at which
the file starts. -/
def Origins.Aligned (c : Origins ι τ) : Prop :=
  c.originRemote ≠ 0 → ∀ i origin, (c.tracks i).origin = some origin →
    (c.tracks i).remoteNTP ≠ 0 →
    |(c.tracks i).instant origin (clockRate i) - ntpToTime c.originRemote| ≤
      3 * (10 ^ 9 / clockRate i)

end Model

/-! ## Timestamps that do not wrap around -/

section Wrap

theorem ofInt_sub (a b : ℤ) : UInt32.ofInt (a - b) = .ofInt a - .ofInt b := by
  rw [Int.sub_eq_add_neg, UInt32.ofInt_add, UInt32.ofInt_neg, UInt32.sub_eq_add_neg]

theorem toInt32_ofInt (n : ℤ) : (UInt32.ofInt n).toInt32 = .ofInt n := by
  apply Int32.toBitVec_inj.1
  rw [Int32.toBitVec_ofInt]
  apply BitVec.eq_of_toNat_eq
  change (UInt32.ofInt n).toNat = _
  rw [UInt32.ofInt, UInt32.toNat_ofNat', BitVec.toNat_ofInt]
  omega

theorem diff_ofInt {a b : ℤ} (h : |a - b| < 2 ^ 31) :
    Timestamp.diff (UInt32.ofInt a) (UInt32.ofInt b) = a - b := by
  obtain ⟨hlow, hhigh⟩ := abs_lt.1 h
  change (UInt32.ofInt a - UInt32.ofInt b).toInt32.toInt = a - b
  rw [← ofInt_sub, toInt32_ofInt, Int32.toInt_ofInt_of_le (by omega) (by omega)]

theorem ofInt_inj {a b : ℤ} (h : |a - b| < 2 ^ 31) : UInt32.ofInt a = .ofInt b ↔ a = b := by
  refine ⟨fun heq => ?_, congrArg _⟩
  have hdiff := diff_ofInt h
  rw [heq, diff_ofInt (by simp)] at hdiff
  omega

variable {ι : Type*} {clockRate : ι → ℕ} {c : Origins ι ℤ}

theorem wrap_adjustOrigin {i : ι} {ts : ℤ}
    (h : ∀ origin ∈ (c.tracks i).origin, |origin - ts| < 2 ^ 31) :
    (c.adjustOrigin clockRate i ts).wrap = c.wrap.adjustOrigin clockRate i (.ofInt ts) := by
  have hremote : c.wrap.originRemote = c.originRemote := rfl
  have htrack : ∀ j, (c.wrap.tracks j).origin = (c.tracks j).origin.map .ofInt := fun _ => rfl
  simp only [Origins.adjustOrigin, hremote, htrack]
  cases ho : (c.tracks i).origin with
  | none => rfl
  | some origin =>
    have hdiff := diff_ofInt ((abs_sub_comm ts origin).trans_lt (h origin ho))
    simp only [Option.map_some, ofInt_inj (h origin ho), hdiff]
    by_cases heq : origin = ts
    · rw [if_pos heq, if_pos heq]
    · rw [if_neg heq, if_neg heq, Origins.wrap, Origins.mk.injEq]
      refine ⟨rfl, rfl, funext fun j => ?_⟩
      rw [TrackOrigin.wrap, TrackOrigin.mk.injEq]
      refine ⟨?_, rfl, rfl⟩
      rw [Option.map_map, Option.map_map]
      exact congrFun (congrArg Option.map (funext fun o => UInt32.ofInt_add o _)) _

variable [DecidableEq ι]

theorem wrap_update (l : Option ℤ) (r : UInt64) (i : ι) (t : TrackOrigin ℤ) :
    Origins.wrap
        { originLocal := l, originRemote := r, tracks := Function.update c.tracks i t } =
      { originLocal := l, originRemote := r,
        tracks := Function.update c.wrap.tracks i t.wrap } := by
  rw [Origins.wrap, Origins.mk.injEq]
  exact ⟨rfl, rfl, Function.comp_update TrackOrigin.wrap c.tracks i t⟩

theorem wrap_sub (t : TrackOrigin ℤ) (ts delta : ℤ) :
    ({ t with origin := some (Timestamp.sub ts delta) } : TrackOrigin ℤ).wrap =
      { t.wrap with origin := some (Timestamp.sub (UInt32.ofInt ts) delta) } := by
  rw [TrackOrigin.wrap, TrackOrigin.mk.injEq]
  exact ⟨congrArg some (ofInt_sub ts delta), rfl, rfl⟩

theorem remote_wrap {t : TrackOrigin ℤ} {ts : ℤ} (h : |ts - t.remoteRTP| < 2 ^ 31) (hz : ℕ) :
    t.wrap.remote (.ofInt ts) hz = t.remote ts hz := by
  rw [TrackOrigin.remote, TrackOrigin.remote, TrackOrigin.wrap, diff_ofInt h]
  rfl

theorem wrap_setOrigin {i : ι} {ts now : ℤ}
    (h : (c.tracks i).remoteNTP ≠ 0 → |ts - (c.tracks i).remoteRTP| < 2 ^ 31) :
    (c.setOrigin clockRate i ts now).wrap = c.wrap.setOrigin clockRate i (.ofInt ts) now := by
  have hremote : (c.tracks i).remoteNTP ≠ 0 → (c.wrap.tracks i).remote (.ofInt ts) (clockRate i) =
      (c.tracks i).remote ts (clockRate i) := fun h0 => remote_wrap (h h0) _
  have hntp : (c.wrap.tracks i).remoteNTP = (c.tracks i).remoteNTP := rfl
  have horigin : c.wrap.originRemote = c.originRemote := rfl
  have hlocal : c.wrap.originLocal = c.originLocal := rfl
  simp only [Origins.setOrigin, hntp, horigin, hlocal]
  cases c.originLocal with
  | none =>
    simp only
    split_ifs with h0
    · rw [hremote h0]
      exact wrap_update _ _ i _
    · exact wrap_update _ _ i _
  | some originLocal =>
    simp only
    split_ifs with hboth h0
    · rw [hremote hboth.2, wrap_update, wrap_sub]
      rfl
    · rw [hremote h0, wrap_update, wrap_sub]
      rfl
    · rw [wrap_update, wrap_sub]
      rfl

theorem wrap_setTimeOffset {i : ι} {ntp : UInt64} {rtp : ℤ}
    (h : ∀ origin ∈ (c.tracks i).origin, |rtp - origin| < 2 ^ 31) :
    (c.setTimeOffset clockRate i ntp rtp).wrap =
      c.wrap.setTimeOffset clockRate i ntp (.ofInt rtp) := by
  have horigin : c.wrap.originRemote = c.originRemote := rfl
  have htrack : (c.wrap.tracks i).origin = (c.tracks i).origin.map .ofInt := rfl
  simp only [Origins.setTimeOffset, horigin, htrack]
  cases ho : (c.tracks i).origin with
  | none => exact wrap_update _ _ i _
  | some origin =>
    simp only [Option.map_some, diff_ofInt (h origin ho)]
    split_ifs with h0
    · exact wrap_update _ _ i _
    · rw [wrap_update, TrackOrigin.wrap, Option.map_some]
      congr 4
      exact ofInt_sub _ _

/-- Where timestamps are near, the recorder does what it would do if they never wrapped around. -/
theorem wrap_step {a : SyncLabel ι ℤ} (h : ∀ i, Near (a.stamps i ++ (c.tracks i).stamps)) :
    (c.step clockRate a).wrap = c.wrap.step clockRate a.wrap := by
  cases a with
  | setOrigin i ts now =>
    refine wrap_setOrigin fun h0 => h i ts ?_ _ ?_
    · simp [SyncLabel.stamps]
    · simp [TrackOrigin.stamps, h0]
  | setTimeOffset i ntp rtp =>
    refine wrap_setTimeOffset fun origin ho => h i rtp ?_ origin ?_
    · simp [SyncLabel.stamps]
    · simp [TrackOrigin.stamps, Option.mem_def.1 ho]
  | adjustOrigin i ts =>
    refine wrap_adjustOrigin fun origin ho => h i origin ?_ ts ?_
    · simp [TrackOrigin.stamps, Option.mem_def.1 ho]
    · simp [SyncLabel.stamps]
  | close => rfl

end Wrap

/-! ## Origins and reports -/

section Skew

variable {t : TrackOrigin ℤ} {originRemote originRemote' : UInt64} {hz : ℕ}

/-- How far the instant that the last report gives an origin is from the remote origin, in
nanoseconds of a tick. -/
def TrackOrigin.skew (t : TrackOrigin ℤ) (originRemote : UInt64) (hz : ℕ) (origin : ℤ) : ℤ :=
  (ntpToTime t.remoteNTP - ntpToTime originRemote) * hz + (origin - t.remoteRTP) * second

/-- The origin is put `delta` ticks before `ts`, and the remote origin `d` before the instant of
`ts`: this is a tick, and what roundings come to. -/
theorem skew_le {ts d delta : ℤ} (hpos : 0 < hz) (hd : |d * hz - delta * second| < second)
    (hlow : t.remote ts hz - d - 1 ≤ ntpToTime originRemote)
    (hhigh : ntpToTime originRemote ≤ t.remote ts hz - d) :
    |t.skew originRemote hz (ts - delta)| ≤ second + 2 * hz := by
  have hts := abs_lt.1 (abs_toDuration (ts - t.remoteRTP) hpos)
  have hd' := abs_lt.1 hd
  have hremote : t.remote ts hz = ntpToTime t.remoteNTP + toDuration (ts - t.remoteRTP) hz := rfl
  obtain ⟨ε, h0, h1, hε⟩ : ∃ ε : ℤ, 0 ≤ ε ∧ ε ≤ 1 ∧
      ntpToTime originRemote = ntpToTime t.remoteNTP + toDuration (ts - t.remoteRTP) hz - d - ε :=
    ⟨t.remote ts hz - d - ntpToTime originRemote, by omega, by omega, by omega⟩
  have hskew : t.skew originRemote hz (ts - delta) =
      ((ts - t.remoteRTP) * second - toDuration (ts - t.remoteRTP) hz * hz) +
        (d * hz - delta * second) + ε * hz := by
    rw [TrackOrigin.skew, hε]
    ring
  have hlast : 0 ≤ ε * hz ∧ ε * hz ≤ hz := by
    constructor <;> nlinarith
  rw [hskew, abs_le]
  constructor <;> linarith

theorem skew_stored {ts d delta : ℤ} (hpos : 0 < hz) (hd : |d * hz - delta * second| < second)
    (hera : InEra (t.remote ts hz - d)) :
    |t.skew (timeToNTP (t.remote ts hz - d)) hz (ts - delta)| ≤ second + 2 * hz :=
  have ⟨hlow, hhigh⟩ := ntpToTime_timeToNTP hera
  skew_le hpos hd hlow hhigh

/-- Origins are moved by `offset`, each on its own clock. -/
theorem skew_adjust {origin offset b : ℤ} (h : |t.skew originRemote hz origin| ≤ b)
    (hlow : ntpToTime originRemote + offset - 1 ≤ ntpToTime originRemote')
    (hhigh : ntpToTime originRemote' ≤ ntpToTime originRemote + offset) :
    |t.skew originRemote' hz (origin + fromDuration offset hz)| ≤ b + second + hz := by
  have hb := abs_le.1 h
  have hd := abs_lt.1 (abs_fromDuration offset hz)
  obtain ⟨ε, h0, h1, hε⟩ : ∃ ε : ℤ, 0 ≤ ε ∧ ε ≤ 1 ∧
      ntpToTime originRemote' = ntpToTime originRemote + offset - ε :=
    ⟨ntpToTime originRemote + offset - ntpToTime originRemote', by omega, by omega, by omega⟩
  have hskew : t.skew originRemote' hz (origin + fromDuration offset hz) =
      t.skew originRemote hz origin - (offset * hz - fromDuration offset hz * second) + ε * hz := by
    rw [TrackOrigin.skew, TrackOrigin.skew, hε]
    ring
  have hlast : 0 ≤ ε * hz ∧ ε * hz ≤ hz := by
    constructor <;> nlinarith
  rw [hskew, abs_le]
  constructor <;> linarith

end Skew

section Tuned

variable {ι : Type*} {clockRate : ι → ℕ} {c : Origins ι ℤ} {bound : ι → ℤ}

/-- Without a local origin there are no origins, and without a remote one no track has both an
origin and a report. -/
structure Tuned (clockRate : ι → ℕ) (bound : ι → ℤ) (c : Origins ι ℤ) : Prop where
  started : c.originLocal = none → c.originRemote = 0 ∧ ∀ i, (c.tracks i).origin = none
  heard : c.originRemote = 0 → ∀ i, ∀ origin ∈ (c.tracks i).origin, (c.tracks i).remoteNTP = 0
  skew : c.originRemote ≠ 0 → ∀ i, ∀ origin ∈ (c.tracks i).origin, (c.tracks i).remoteNTP ≠ 0 →
    |(c.tracks i).skew c.originRemote (clockRate i) origin| ≤ bound i

/-- What has just been computed is off by a tick, and what roundings come to. -/
def fresh (clockRate : ι → ℕ) (i : ι) : ℤ := second + 2 * clockRate i

theorem Tuned.mono {bound' : ι → ℤ} (h : Tuned clockRate bound c) (hle : ∀ i, bound i ≤ bound' i) :
    Tuned clockRate bound' c where
  started := h.started
  heard := h.heard
  skew hremote i origin ho hntp := (h.skew hremote i origin ho hntp).trans (hle i)

theorem Tuned.close (c : Origins ι ℤ) : Tuned clockRate bound c.close where
  started _ := ⟨rfl, fun _ => rfl⟩
  heard _ _ _ ho := by cases ho
  skew h := absurd rfl h

/-- Every track's error grows by less than a tick and a nanosecond. -/
theorem Tuned.adjustOrigin [DecidableEq ι] (h : Tuned clockRate bound c) {i : ι} {ts : ℤ}
    (hera : ∀ tm ∈ c.instants clockRate (.adjustOrigin i ts), InEra tm) :
    Tuned clockRate (fun i => bound i + second + clockRate i) (c.adjustOrigin clockRate i ts) := by
  have hle : ∀ j, bound j ≤ bound j + second + clockRate j := fun j => by
    rw [second]
    omega
  rw [Origins.adjustOrigin]
  cases ho : (c.tracks i).origin with
  | none => exact h.mono hle
  | some origin =>
    simp only
    split_ifs with heq h0
    · exact h.mono hle
    · have hera' : InEra (ntpToTime c.originRemote + toDuration (ts - origin) (clockRate i)) := by
        refine hera _ ?_
        simp [Origins.instants, h0, ho]
      obtain ⟨hlow, hhigh⟩ := ntpToTime_timeToNTP hera'
      refine ⟨fun hl => ?_, fun hr => absurd hr (timeToNTP_ne_zero hera'), fun _ j o hj hntp => ?_⟩
      · exact absurd (h.started (Option.map_eq_none_iff.1 hl)).1 h0
      · obtain ⟨o', ho', rfl⟩ := Option.mem_map.1 hj
        exact skew_adjust (h.skew h0 j o' ho' hntp) hlow hhigh
    · have h0 := not_not.1 h0
      refine ⟨fun hl => ⟨h0, fun j => ?_⟩, fun _ j o hj => ?_, fun hr => absurd h0 hr⟩
      · exact Option.map_eq_none_iff.2 ((h.started (Option.map_eq_none_iff.1 hl)).2 j)
      · obtain ⟨o', ho', -⟩ := Option.mem_map.1 hj
        exact h.heard h0 j o' ho'

variable [DecidableEq ι]

/-- A step that changes one track. -/
theorem Tuned.update (h : Tuned clockRate bound c) {l : Option ℤ} {r : UInt64} {i : ι}
    {t : TrackOrigin ℤ} (hl : l = none → c.originLocal = none ∧ r = 0 ∧ t.origin = none)
    (hr : c.originRemote ≠ 0 → r = c.originRemote)
    (ht : ∀ origin ∈ t.origin, t.remoteNTP ≠ 0 →
      r ≠ 0 ∧ |t.skew r (clockRate i) origin| ≤ bound i) :
    Tuned clockRate bound
      { originLocal := l, originRemote := r, tracks := Function.update c.tracks i t } where
  started hnone := by
    obtain ⟨hlocal, hr0, horigin⟩ := hl hnone
    refine ⟨hr0, (Function.forall_update_iff _ fun _ u => TrackOrigin.origin u = none).2 ?_⟩
    exact ⟨horigin, fun j _ => (h.started hlocal).2 j⟩
  heard hr0 := by
    refine (Function.forall_update_iff _ fun _ u =>
      ∀ origin ∈ TrackOrigin.origin u, u.remoteNTP = 0).2 ⟨fun o ho => ?_, fun j _ o ho => ?_⟩
    · exact not_not.1 fun hntp => (ht o ho hntp).1 hr0
    · exact h.heard (not_not.1 fun hne => hne ((hr hne).symm.trans hr0)) j o ho
  skew hr0 := by
    refine (Function.forall_update_iff _ fun j u => ∀ origin ∈ TrackOrigin.origin u,
      u.remoteNTP ≠ 0 → |u.skew r (clockRate j) origin| ≤ bound j).2 ⟨?_, fun j _ o ho hntp => ?_⟩
    · exact fun o ho hntp => (ht o ho hntp).2
    · have hne : c.originRemote ≠ 0 := fun heq => hntp (h.heard heq j o ho)
      rw [hr hne]
      exact h.skew hne j o ho hntp

theorem Tuned.setOrigin (h : Tuned clockRate bound c) {i : ι} {ts now : ℤ}
    (hera : ∀ tm ∈ c.instants clockRate (.setOrigin i ts now), InEra tm) (hpos : 0 < clockRate i)
    (hbound : fresh clockRate i ≤ bound i) :
    Tuned clockRate bound (c.setOrigin clockRate i ts now) := by
  rw [Origins.setOrigin]
  cases hlocal : c.originLocal with
  | none =>
    have hr0 := (h.started hlocal).1
    refine h.update (fun hn => by cases hn) (fun hne => absurd hr0 hne) fun o ho hntp => ?_
    cases ho
    have hera' : InEra ((c.tracks i).remote ts (clockRate i) - 0) := by
      rw [sub_zero]
      exact hera _ (by simp [Origins.instants, hr0, show (c.tracks i).remoteNTP ≠ 0 from hntp])
    have hskew : |TrackOrigin.skew _ _ _ (ts - 0)| ≤ _ :=
      skew_stored hpos (by simp [second]) hera'
    rw [sub_zero] at hskew hera'
    simp only [if_pos hntp]
    rw [sub_zero] at hskew
    exact ⟨timeToNTP_ne_zero hera', hskew.trans hbound⟩
  | some originLocal =>
    simp only
    split_ifs with hboth hntp
    · refine h.update (fun hn => by cases hn) (fun _ => rfl) fun o ho _ => ?_
      cases ho
      refine ⟨hboth.1, le_trans ?_ hbound⟩
      exact skew_le (t := c.tracks i) hpos (abs_fromDuration _ _) (by omega) (by omega)
    · have hr0 : c.originRemote = 0 := not_not.1 fun hne => hboth ⟨hne, hntp⟩
      have hera' : InEra ((c.tracks i).remote ts (clockRate i) - (now - originLocal)) :=
        hera _ (by simp [Origins.instants, hr0, hntp, hlocal])
      refine h.update (fun hn => by cases hn) (fun hne => absurd hr0 hne) ?_
      rintro o ⟨⟩ -
      exact ⟨timeToNTP_ne_zero hera',
        (skew_stored hpos (abs_fromDuration _ _) hera').trans hbound⟩
    · refine h.update (fun hn => by cases hn) (fun _ => rfl) fun o _ hne => ?_
      exact absurd hne hntp

theorem remote_report (origin : Option ℤ) (o : ℤ) (ntp : UInt64) (rtp : ℤ) (hz : ℕ) :
    TrackOrigin.remote { origin, remoteNTP := ntp, remoteRTP := rtp } o hz =
      ntpToTime ntp - toDuration (rtp - o) hz := by
  rw [TrackOrigin.remote, sub_eq_add_neg, toDuration, toDuration, ← Int.neg_tdiv, ← neg_mul,
    neg_sub]
  rfl

theorem Tuned.setTimeOffset (h : Tuned clockRate bound c) {i : ι} {ntp : UInt64} {rtp : ℤ}
    (hera : ∀ tm ∈ c.instants clockRate (.setTimeOffset i ntp rtp), InEra tm)
    (hpos : 0 < clockRate i) (hbound : fresh clockRate i ≤ bound i) :
    Tuned clockRate bound (c.setTimeOffset clockRate i ntp rtp) := by
  rw [Origins.setTimeOffset]
  cases ho : (c.tracks i).origin with
  | none =>
    refine h.update (fun hn => ⟨hn, (h.started hn).1, rfl⟩) (fun _ => rfl) fun o ho => ?_
    cases ho
  | some origin =>
    have hlocal : c.originLocal ≠ none := fun hn => by
      cases ho.symm.trans ((h.started hn).2 i)
    simp only
    split_ifs with hr0
    · have hera' : InEra (ntpToTime ntp - toDuration (rtp - origin) (clockRate i) - 0) := by
        rw [sub_zero]
        exact hera _ (by simp [Origins.instants, ho])
      rw [← remote_report (some origin)] at hera'
      have hskew : |TrackOrigin.skew _ _ _ (origin - 0)| ≤ _ :=
        skew_stored hpos (by simp [second]) hera'
      rw [remote_report, sub_zero, sub_zero] at hskew
      rw [remote_report, sub_zero] at hera'
      refine h.update (fun hn => absurd hn hlocal) (fun hne => absurd hr0 hne) ?_
      rintro o ⟨⟩ -
      exact ⟨timeToNTP_ne_zero hera', hskew.trans hbound⟩
    · refine h.update (fun hn => absurd hn hlocal) (fun _ => rfl) ?_
      rintro o ⟨⟩ -
      refine ⟨hr0, le_trans ?_ hbound⟩
      refine skew_le hpos (abs_fromDuration _ _) ?_ ?_
      · rw [remote_report]
        change _ - (_ - toDuration (rtp - origin) (clockRate i)) - 1 ≤ _
        omega
      · rw [remote_report]
        change _ ≤ _ - (_ - toDuration (rtp - origin) (clockRate i))
        omega

end Tuned

/-! ## Runs -/

section Runs

variable {ι : Type*} {clockRate : ι → ℕ} {s : Sync ι}

/-- Origins that have been adjusted may be off by a tick more. -/
def Sync.bound (clockRate : ι → ℕ) (s : Sync ι) (i : ι) : ℤ :=
  if s.adjusted then fresh clockRate i + second + clockRate i else fresh clockRate i

theorem Sync.fresh_le_bound (i : ι) : fresh clockRate i ≤ s.bound clockRate i := by
  rw [Sync.bound]
  split_ifs
  · rw [second]
    omega
  · exact le_rfl

structure Sync.Inv (clockRate : ι → ℕ) (s : Sync ι) : Prop where
  wrapped : s.recorder = s.unwrapped.wrap
  near : ∀ i, Near (s.unwrapped.tracks i).stamps
  tuned : Tuned clockRate (s.bound clockRate) s.unwrapped

theorem Near.sublist {l l' : List ℤ} (h : Near l) (hl : l'.Sublist l) : Near l' :=
  fun x hx y hy => h x (hl.subset hx) y (hl.subset hy)

variable [DecidableEq ι]

theorem Sync.Inv.step (hpos : ∀ i, 0 < clockRate i) (h : s.Inv clockRate) {a : SyncLabel ι ℤ}
    (hok : s.Usual clockRate a) : (s.step clockRate a).Inv clockRate := by
  obtain ⟨hnear, hera, honce⟩ := hok
  refine ⟨?_, fun i => (hnear i).sublist (List.sublist_append_right _ _), ?_⟩
  · refine Eq.trans (congrArg (fun r : Origins ι UInt32 => r.step clockRate a.wrap) h.wrapped) ?_
    exact (wrap_step fun i => (hnear i).sublist (List.sublist_append_left _ _)).symm
  · cases a with
    | setOrigin i ts now => exact h.tuned.setOrigin hera (hpos i) (s.fresh_le_bound i)
    | setTimeOffset i ntp rtp => exact h.tuned.setTimeOffset hera (hpos i) (s.fresh_le_bound i)
    | adjustOrigin i ts =>
      have hbound : s.bound clockRate = fresh clockRate :=
        funext fun j => if_neg fun hadjusted => honce ⟨hadjusted, rfl⟩
      exact (hbound ▸ h.tuned).adjustOrigin hera
    | close => exact Tuned.close _

theorem Sync.Inv.of_reachable (hpos : ∀ i, 0 < clockRate i)
    (hs : Reachable (syncSystem clockRate) (Sync.Usual clockRate) s) : s.Inv clockRate := by
  refine hs.invariant ?_ ?_
  · rintro s ⟨hwrap, hlocal, hremote, horigin⟩
    refine ⟨hwrap, fun i => ?_, fun _ => ⟨hremote, horigin⟩, fun _ i o ho => ?_, fun h => ?_⟩
    · rw [TrackOrigin.stamps, horigin i]
      split_ifs <;> simp [Near]
    · cases (horigin i).symm.trans ho
    · exact absurd hremote h
  · rintro s a t h hok ⟨⟩
    exact h.step hpos hok

theorem instant_sub {t : TrackOrigin ℤ} {hz : ℕ} (hpos : 0 < hz) (originRemote : UInt64)
    (origin : ℤ) : t.instant origin hz - ntpToTime originRemote =
      (t.skew originRemote hz origin : ℚ) / hz := by
  have hhz : (hz : ℚ) ≠ 0 := by exact_mod_cast hpos.ne'
  have hdiff : Timestamp.diff origin t.remoteRTP = origin - t.remoteRTP := rfl
  rw [TrackOrigin.instant, TrackOrigin.skew, second, hdiff]
  push_cast
  field_simp
  ring

/-- In every run of the recorder, sound and picture are aligned. -/
theorem aligned_of_reachable (hrate : ∀ i, 8000 ≤ clockRate i ∧ clockRate i ≤ 90000)
    (hs : Reachable (syncSystem clockRate) (Sync.Usual clockRate) s) :
    s.recorder.Aligned clockRate := by
  have hpos : ∀ i, 0 < clockRate i := fun i => (by decide : 0 < 8000).trans_le (hrate i).1
  have h := Sync.Inv.of_reachable hpos hs
  rw [h.wrapped]
  intro hremote i origin ho hntp
  obtain ⟨o, ho', rfl⟩ := Option.map_eq_some_iff.1 ho
  have hnear : |o - (s.unwrapped.tracks i).remoteRTP| < 2 ^ 31 := by
    refine h.near i o ?_ _ ?_
    · simp [TrackOrigin.stamps, ho']
    · simp [TrackOrigin.stamps, show (s.unwrapped.tracks i).remoteNTP ≠ 0 from hntp]
  have hinstant : (s.unwrapped.wrap.tracks i).instant (.ofInt o) (clockRate i) =
      (s.unwrapped.tracks i).instant o (clockRate i) := by
    rw [TrackOrigin.instant, TrackOrigin.instant]
    have hdiff : Timestamp.diff (UInt32.ofInt o) (s.unwrapped.wrap.tracks i).remoteRTP =
        Timestamp.diff o (s.unwrapped.tracks i).remoteRTP := diff_ofInt hnear
    rw [hdiff]
    rfl
  have hskew : |(s.unwrapped.tracks i).skew s.unwrapped.originRemote (clockRate i) o| ≤
      3 * second := by
    refine (h.tuned.skew hremote i o ho' hntp).trans ?_
    have := (hrate i).2
    rw [Sync.bound, fresh, second]
    split_ifs <;> omega
  have hhz : (0 : ℚ) < clockRate i := by exact_mod_cast hpos i
  rw [hinstant]
  change |_ - (ntpToTime s.unwrapped.originRemote : ℚ)| ≤ _
  rw [instant_sub (hpos i), abs_div, abs_of_pos hhz, ← mul_div_assoc]
  refine div_le_div_of_nonneg_right ?_ hhz.le
  rw [second] at hskew
  exact_mod_cast hskew

end Runs

section Samples

instance {ι : Type*} [DecidableEq ι] [Fintype ι] (clockRate : ι → ℕ) (s : Sync ι)
    (a : SyncLabel ι ℤ) : Decidable (s.Usual clockRate a) :=
  inferInstanceAs (Decidable (_ ∧ _ ∧ _))

/-- The clock rate of the sound, and of the picture. -/
def rates (picture : Bool) : ℕ := if picture then 90000 else 48000

/-- Packets and reports of both tracks, and the picture's keyframe to which the origins are
adjusted. -/
def meeting : List (SyncLabel Bool ℤ) :=
  [.setOrigin true 1000 0, .setOrigin false 5000 20000000,
    .setTimeOffset true 0xe875470000000000 2000, .setTimeOffset false 0xe875470100000000 55000,
    .adjustOrigin true 4000]

def newRecorder : Sync Bool where
  recorder := { tracks := fun _ => { remoteRTP := 0 } }
  unwrapped := { tracks := fun _ => { remoteRTP := 0 } }

theorem aligned_meeting : ∃ s : Sync Bool, (s.recorder.tracks true).origin = some 3999 ∧
    s.recorder.originRemote ≠ 0 ∧ s.recorder.Aligned rates := by
  have hrun : (syncSystem rates).exec (Sync.Usual rates) newRecorder meeting =
      some (((syncSystem rates).exec (Sync.Usual rates) newRecorder meeting).get (by decide)) :=
    (Option.some_get _).symm
  have hinit : (syncSystem rates).init newRecorder := ⟨rfl, rfl, rfl, fun _ => rfl⟩
  have h := aligned_of_reachable (by decide) (Reachable.exec (.init hinit) hrun)
  exact ⟨_, by decide, by decide, h⟩

end Samples

end Sozvon.DiskWriter
