import Sozvon.RtpTime
import Mathlib.Logic.Function.Basic

/-!
# Origins of a recording

For each track the recorder has the timestamp at which the file starts, its
origin, and the last sender report. For the connection it has the local time of
the origins, and their remote time where a report has told it.

In the recorder a timestamp is a 32-bit word. The functions here run on any
timestamps that have the three operations they use: on integers, they compute
what would be computed if timestamps never wrapped around.
-/
namespace Sozvon.DiskWriter
open RtpTime

class Timestamp (τ : Type) where
  /-- `int64(int32(a - b))` -/
  diff : τ → τ → ℤ
  /-- `ts - uint32(delta)` -/
  sub : τ → ℤ → τ
  /-- `ts + uint32(delta)` -/
  add : τ → ℤ → τ

instance : Timestamp UInt32 where
  diff a b := (a - b).toInt32.toInt
  sub ts delta := ts - .ofInt delta
  add ts delta := ts + .ofInt delta

instance : Timestamp ℤ where
  diff a b := a - b
  sub ts delta := ts - delta
  add ts delta := ts + delta

structure TrackOrigin (τ : Type) where
  origin : Option τ := none
  remoteNTP : UInt64 := 0
  remoteRTP : τ
deriving DecidableEq

structure Origins (ι : Type*) (τ : Type) where
  originLocal : Option ℤ := none
  originRemote : UInt64 := 0
  tracks : ι → TrackOrigin τ

section Model

variable {ι : Type*} {τ : Type} [DecidableEq ι] [DecidableEq τ] [Timestamp τ]

/-- The instant that the last report gives a timestamp. -/
def TrackOrigin.remote (t : TrackOrigin τ) (ts : τ) (clockrate : ℕ) : ℤ :=
  ntpToTime t.remoteNTP + toDuration (Timestamp.diff ts t.remoteRTP) clockrate

namespace Origins

variable (clockRate : ι → ℕ)

/-- After receiving a packet with timestamp `ts` at local time `now`. -/
def setOrigin (c : Origins ι τ) (i : ι) (ts : τ) (now : ℤ) : Origins ι τ :=
  let t := c.tracks i
  let remote := t.remote ts (clockRate i)
  match c.originLocal with
  | none =>
      { originLocal := some now
        originRemote := if t.remoteNTP ≠ 0 then timeToNTP remote else 0
        tracks := Function.update c.tracks i { t with origin := some ts } }
  | some originLocal =>
      if c.originRemote ≠ 0 ∧ t.remoteNTP ≠ 0 then
        let origin := ntpToTime c.originRemote
        let delta := fromDuration (remote - origin) (clockRate i)
        let t := { t with origin := some (Timestamp.sub ts delta) }
        { c with tracks := Function.update c.tracks i t }
      else
        let d := now - originLocal
        let delta := fromDuration d (clockRate i)
        { c with
          originRemote := if t.remoteNTP ≠ 0 then timeToNTP (remote - d) else c.originRemote
          tracks := Function.update c.tracks i { t with origin := some (Timestamp.sub ts delta) } }

def setTimeOffset (c : Origins ι τ) (i : ι) (ntp : UInt64) (rtp : τ) : Origins ι τ :=
  let report (origin : Option τ) : ι → TrackOrigin τ :=
    Function.update c.tracks i { origin, remoteNTP := ntp, remoteRTP := rtp }
  match (c.tracks i).origin with
  | none => { c with tracks := report none }
  | some origin =>
      let since := toDuration (Timestamp.diff rtp origin) (clockRate i)
      if c.originRemote = 0 then
        { c with
          originRemote := timeToNTP (ntpToTime ntp - since)
          tracks := report (some origin) }
      else
        let remote := ntpToTime ntp - ntpToTime c.originRemote
        let delta := fromDuration (remote - since) (clockRate i)
        { c with tracks := report (some (Timestamp.sub origin delta)) }

/-- Moves all origins, so that the one of track `i` is equal to `ts`. -/
def adjustOrigin (c : Origins ι τ) (i : ι) (ts : τ) : Origins ι τ :=
  match (c.tracks i).origin with
  | none => c
  | some origin =>
      if origin = ts then c
      else
        let offset := toDuration (Timestamp.diff ts origin) (clockRate i)
        { originLocal := c.originLocal.map (· + offset)
          originRemote :=
            if c.originRemote ≠ 0 then timeToNTP (ntpToTime c.originRemote + offset)
            else c.originRemote
          tracks := fun j =>
            { c.tracks j with
              origin := (c.tracks j).origin.map
                (Timestamp.add · (fromDuration offset (clockRate j))) } }

/-- What `close` does to the origins. -/
def close (c : Origins ι τ) : Origins ι τ :=
  { originLocal := none
    originRemote := 0
    tracks := fun j => { c.tracks j with origin := none } }

end Origins

end Model

/-! ## Which origins there are -/

section Lemmas

variable {ι : Type*} {τ : Type} [Timestamp τ] {clockRate : ι → ℕ} {c : Origins ι τ} {i : ι} {ts : τ}

namespace Origins

theorem adjustOrigin_started [DecidableEq τ] :
    (c.adjustOrigin clockRate i ts).originLocal = none ↔ c.originLocal = none := by
  rw [adjustOrigin]
  cases (c.tracks i).origin with
  | none => rfl
  | some origin =>
    simp only
    split_ifs <;> simp

theorem adjustOrigin_origin [DecidableEq τ] (j : ι) :
    ((c.adjustOrigin clockRate i ts).tracks j).origin = none ↔ (c.tracks j).origin = none := by
  rw [adjustOrigin]
  cases (c.tracks i).origin with
  | none => rfl
  | some origin =>
    simp only
    split_ifs <;> simp

variable [DecidableEq ι]

theorem setOrigin_started (now : ℤ) : (c.setOrigin clockRate i ts now).originLocal ≠ none := by
  rw [setOrigin]
  cases c.originLocal with
  | none => simp
  | some originLocal =>
    simp only
    split_ifs <;> simp

theorem setOrigin_self (now : ℤ) : ((c.setOrigin clockRate i ts now).tracks i).origin ≠ none := by
  rw [setOrigin]
  cases c.originLocal with
  | none => simp
  | some originLocal =>
    simp only
    split_ifs <;> simp

theorem setOrigin_of_ne {j : ι} (h : j ≠ i) (now : ℤ) :
    (c.setOrigin clockRate i ts now).tracks j = c.tracks j := by
  rw [setOrigin]
  cases c.originLocal with
  | none => simp [h]
  | some originLocal =>
    simp only
    split_ifs <;> simp [h]

theorem setTimeOffset_started (ntp : UInt64) :
    (c.setTimeOffset clockRate i ntp ts).originLocal = c.originLocal := by
  rw [setTimeOffset]
  cases (c.tracks i).origin with
  | none => rfl
  | some origin =>
    simp only
    split_ifs <;> rfl

theorem setTimeOffset_origin (ntp : UInt64) (j : ι) :
    ((c.setTimeOffset clockRate i ntp ts).tracks j).origin = none ↔ (c.tracks j).origin = none := by
  by_cases hj : j = i
  · subst hj
    rw [setTimeOffset]
    cases (c.tracks j).origin with
    | none => simp
    | some origin =>
      simp only
      split_ifs <;> simp
  · rw [setTimeOffset]
    cases (c.tracks i).origin with
    | none => simp [hj]
    | some origin =>
      simp only
      split_ifs <;> simp [hj]

end Origins

end Lemmas

end Sozvon.DiskWriter
