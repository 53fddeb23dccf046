import Sozvon.BitrateCaps
import Mathlib.Data.List.MinMax

/-!
# The cap a receiver asks for

The controller judges each poll of a stream against the one before it and lowers
or raises the cap it asks for. Most of what it keeps bears on the judgement
only. The cap is moved in four places, and each of them notes when.
-/
namespace Sozvon.Bitrate

section Samples

structure Delays where
  audioDelay : ℚ
  videoDelay : ℚ

structure Thresholds extends Delays where
  concealed : ℚ
  freeze : ℚ

def CONGESTED : Thresholds := ⟨⟨0.25, 0.4⟩, 0.05, 0.3⟩

def HEALTHY : Thresholds := ⟨⟨0.12, 0.2⟩, 0.01, 0⟩

def EXCESS_CONGESTED : Delays := ⟨0.15, 0.2⟩

def EXCESS_HEALTHY : Delays := ⟨0.05, 0.08⟩

structure Snapshot where
  time : ℚ
  audio : Bool := false
  video : Bool := false
  aDelay : ℚ := 0
  aEmitted : ℚ := 0
  aConcealed : ℚ := 0
  aSamples : ℚ := 0
  vDelay : ℚ := 0
  vEmitted : ℚ := 0
  vFreeze : ℚ := 0
  vBytes : ℚ := 0
  aJitter : ℚ := 0
  vProcessing : ℚ := 0
  vDecoded : ℚ := 0
  vDecode : Option ℚ := none
  aTarget : Option ℚ := none
  aMinimum : Option ℚ := none
  vTarget : Option ℚ := none
  vMinimum : Option ℚ := none
  vWidth : ℚ := 0
  vHeight : ℚ := 0

inductive Judgement where
  | bad
  | good
  | hold
  | unknown
deriving DecidableEq

structure Sample where
  state : Judgement := .unknown
  videoBps : ℚ := 0
  audioDelay : ℚ := 0
  videoDelay : ℚ := 0
  concealed : ℚ := 0
  freeze : ℚ := 0
  jitter : ℚ := 0
  processing : ℚ := 0
  decode : Option ℚ := none
  width : ℚ := 0
  height : ℚ := 0
  fps : ℚ := 0
  audioPlayed : Bool := false
  videoPlayed : Bool := false
  audioTarget : Option ℚ := none
  audioMinimum : Option ℚ := none
  videoTarget : Option ℚ := none
  videoMinimum : Option ℚ := none
  path : Option Delays := none

def perItem (before after : Option ℚ) (items : ℚ) : Option ℚ :=
  match before, after with
  | some before, some after => if 0 < items then some (max 0 (after - before) / items) else none
  | _, _ => none

/-- The growth of a counter over that of another, 0 if that has not grown. -/
def ratio (growth items : ℚ) : ℚ := if 0 < items then growth / items else 0

/-- What `assess` reads off an interval before it judges. -/
def measure (prev cur : Snapshot) (path : Option Delays) : Sample :=
  let dt := (cur.time - prev.time) / 1000
  let de := cur.aEmitted - prev.aEmitted
  let ds := cur.aSamples - prev.aSamples
  let dv := cur.vEmitted - prev.vEmitted
  let dd := cur.vDecoded - prev.vDecoded
  let r : Sample :=
    { path := path
      audioDelay := ratio (cur.aDelay - prev.aDelay) de
      audioPlayed := 0 < de
      audioTarget := perItem prev.aTarget cur.aTarget de
      audioMinimum := perItem prev.aMinimum cur.aMinimum de
      concealed := ratio (max 0 (cur.aConcealed - prev.aConcealed)) ds
      videoDelay := ratio (cur.vDelay - prev.vDelay) dv
      videoPlayed := 0 < dv
      videoTarget := perItem prev.vTarget cur.vTarget dv
      videoMinimum := perItem prev.vMinimum cur.vMinimum dv
      jitter := cur.aJitter
      processing := ratio (max 0 (cur.vProcessing - prev.vProcessing)) dd
      decode := perItem prev.vDecode cur.vDecode dd }
  if cur.video then
    { r with
      width := cur.vWidth
      height := cur.vHeight
      fps := max 0 dd / dt
      freeze := max 0 (cur.vFreeze - prev.vFreeze)
      videoBps := max 0 (cur.vBytes - prev.vBytes) * 8 / dt }
  else r

/-- Thresholds for the delay are counted from the path's own. -/
def Thresholds.above (t : Thresholds) (excess : Delays) : Option Delays → Thresholds
  | none => t
  | some path =>
      { t with
        audioDelay := max t.audioDelay (path.audioDelay + excess.audioDelay)
        videoDelay := max t.videoDelay (path.videoDelay + excess.videoDelay) }

def judge (r : Sample) (path : Option Delays) : Judgement :=
  let congested := CONGESTED.above EXCESS_CONGESTED path
  let healthy := HEALTHY.above EXCESS_HEALTHY path
  if congested.audioDelay < r.audioDelay ∨ congested.videoDelay < r.videoDelay ∨
      congested.concealed < r.concealed ∨ congested.freeze < r.freeze then .bad
  else if r.audioDelay ≤ healthy.audioDelay ∧ r.videoDelay ≤ healthy.videoDelay ∧
      r.concealed ≤ HEALTHY.concealed ∧ r.freeze ≤ HEALTHY.freeze then .good
  else .hold

def assess (prev : Option Snapshot) (cur : Snapshot) (path : Option Delays) : Sample :=
  match prev with
  | none => { path := path }
  | some prev =>
      if cur.time ≤ prev.time then { path := path }
      else
        let r := measure prev cur path
        if r.audioPlayed ∨ r.videoPlayed then { r with state := judge r path } else r

/-- The short side of a picture; the height alone if the width is not known. -/
def lines (width height : ℚ) : ℚ := if 0 < width then min width height else height

end Samples

section Control

def PROVEN_BELOW : ℚ := 0.7

def PATH_MEMORY : ℚ := 300000

def PATH_LOWER_AFTER : ℕ := 3

def SETTLE : ℚ := 4000

def RELEASE_AT : ℚ := 3000000

/-- Pictures of up to so many lines, or of any number, and their ceiling. -/
def CAMERA_CEILING : List (Option ℚ × ℚ) :=
  [(some 540, 2500000), (some 800, 4000000), (none, 6000000)]

def DECREASE : ℚ := 0.6

def INCREASE : ℚ := 1.3

def INCREASE_UNUSED : ℚ := 2

def UNUSED_BELOW : ℚ := 0.7

def BAD_TO_DECREASE : ℕ := 2

def GOOD_TO_INCREASE : ℕ := 8

def MIN_DECREASE_GAP : ℚ := 6000

def MIN_INCREASE_GAP : ℚ := 15000

def WARMUP : ℚ := 10000

def REFRESH : ℚ := 10000

/-- Delays seen under a cap. -/
structure Evidence extends Delays where
  time : ℚ
  cap : ℚ

/-- A time of `none` is the source's `-Infinity`. -/
structure Controller where
  startCap : Option ℚ
  camera : Bool
  maxLines : ℚ := 0
  started : Bool := false
  cap : Option ℚ := none
  prev : Option Snapshot := none
  bad : ℕ := 0
  good : ℕ := 0
  changedAt : Option ℚ := none
  sentAt : Option ℚ := none
  startedAt : Option ℚ := none
  rates : List ℚ := []
  seen : List Evidence := []
  path : Option Delays := none
  pathUntil : Option ℚ := none
  recent : List Delays := []

structure Asked where
  cap : Option ℚ
  changed : Bool
  send : Bool
  sample : Sample

/-- At least `gap` after a time. -/
def Elapsed (gap : ℚ) (time : Option ℚ) (now : ℚ) : Prop := ∀ t ∈ time, gap ≤ now - t

instance (gap : ℚ) (time : Option ℚ) (now : ℚ) : Decidable (Elapsed gap time now) :=
  inferInstanceAs (Decidable (∀ t ∈ time, _))

/-- The loop of `ceiling` over its table. -/
def ceilingOf (maxLines : ℚ) : Option ℚ :=
  (CAMERA_CEILING.find? fun row => row.1.all (maxLines ≤ ·)).map Prod.snd

def Delays.lower (d : Delays) (e : Delays) : Delays :=
  ⟨min d.audioDelay e.audioDelay, min d.videoDelay e.videoDelay⟩

def Delays.raise (d : Delays) (e : Delays) : Delays :=
  ⟨max d.audioDelay e.audioDelay, max d.videoDelay e.videoDelay⟩

namespace Controller

/-- The constructor of the source. -/
def new (startCap : Value) (label : Option String) : Controller :=
  { startCap := sanitizeCap startCap, camera := label = some "camera" }

def ceiling (c : Controller) : Option ℚ := if c.camera then ceilingOf c.maxLines else none

/-- Seen at the floor, or at a cap well below the current one. -/
def Proves (c : Controller) (e : Evidence) : Prop :=
  ¬ (MIN_CAP < e.cap ∧ ∃ cap ∈ c.cap, cap * PROVEN_BELOW < e.cap)

instance (c : Controller) : DecidablePred c.Proves := fun e =>
  inferInstanceAs (Decidable (¬ (_ ∧ ∃ cap ∈ c.cap, cap * PROVEN_BELOW < e.cap)))

def pathEvidence (c : Controller) : Option Delays :=
  c.seen.foldl (fun path e =>
    if c.Proves e then some (path.elim e.toDelays (·.lower e.toDelays)) else path) none

def forgetEvidence (c : Controller) (now : ℚ) : Controller :=
  { c with seen := c.seen.dropWhile fun e => PATH_MEMORY < now - e.time }

/-- Kept until so long after now, if not longer. -/
def trust (pathUntil : Option ℚ) (now : ℚ) : Option ℚ :=
  some (pathUntil.elim (now + PATH_MEMORY) (max · (now + PATH_MEMORY)))

def pathDelay (c : Controller) (now : ℚ) : Controller :=
  let c := c.forgetEvidence now
  match c.pathEvidence with
  | some evidence => { c with path := some evidence, pathUntil := trust c.pathUntil now }
  | none => if ∀ t ∈ c.pathUntil, t ≤ now then { c with path := none } else c

/-- The greatest of the recent delays, once there are enough. -/
def settled (recent : List Delays) : Option Delays :=
  if recent.length < PATH_LOWER_AFTER then none
  else match recent with
    | [] => none
    | d :: rest => some (rest.foldl Delays.raise d)

def confirmPath (c : Controller) (sample : Sample) (now : ℚ) : Controller :=
  let recent := c.recent ++ [⟨sample.audioDelay, sample.videoDelay⟩]
  let recent := if PATH_LOWER_AFTER < recent.length then recent.tail else recent
  { c with
    recent := recent
    pathUntil := if c.path.isSome ∧ sample.state ≠ .bad then trust c.pathUntil now else c.pathUntil
    path := c.path.map fun path => (settled recent).elim path path.lower }

/-- The delays of a sample are evidence if the cap has been in force for long. -/
def remember (c : Controller) (sample : Sample) (now : ℚ) : Controller :=
  match c.cap with
  | none => c
  | some cap =>
      if Elapsed SETTLE c.changedAt now then
        { c with seen := c.seen ++ [⟨⟨sample.audioDelay, sample.videoDelay⟩, now, cap⟩] }
      else c

def warming (c : Controller) (now : ℚ) : Prop := ∀ t ∈ c.startedAt, now - t < WARMUP

instance (c : Controller) (now : ℚ) : Decidable (c.warming now) :=
  inferInstanceAs (Decidable (∀ t ∈ c.startedAt, _))

def sample (c : Controller) (snap : Snapshot) : Sample :=
  assess c.prev snap (c.pathDelay snap.time).path

def note (c : Controller) (sample : Sample) (snap : Snapshot) : Controller :=
  { c with
    maxLines := max c.maxLines (lines sample.width sample.height)
    prev := some snap
    startedAt := if c.startedAt = none ∧ sample.state ≠ .unknown then some snap.time
      else c.startedAt }

/-- What a poll changes that is not the cap. -/
def observe (c : Controller) (snap : Snapshot) : Controller :=
  let sample := c.sample snap
  let c := (c.pathDelay snap.time).note sample snap
  if ¬ c.warming snap.time ∧ sample.state ≠ .unknown then
    (c.remember sample snap.time).confirmPath sample snap.time
  else c

/-- No video is coming in. -/
def stop (c : Controller) (now : ℚ) : Controller :=
  let c' := { c with started := false, rates := [], bad := 0, good := 0, cap := none }
  if c.cap = none then c' else { c' with changedAt := some now, sentAt := some now }

def begin (c : Controller) (now : ℚ) : Controller :=
  if c.started then c
  else
    let c := { c with started := true }
    if c.startCap ≠ none ∧ c.cap = none then { c with cap := c.startCap, changedAt := some now }
    else c

def count (c : Controller) (sample : Sample) (now : ℚ) : Controller :=
  let rates := c.rates ++ [sample.videoBps]
  let c := if sample.state ≠ .unknown then
      { c with rates := if 3 < rates.length then rates.tail else rates }
    else c
  match sample.state with
  | .bad =>
      if c.warming now then { c with bad := 0, good := 0 }
      else { c with bad := c.bad + 1, good := 0 }
  | .good => { c with good := c.good + 1, bad := 0 }
  | .hold => { c with bad := 0, good := 0 }
  | .unknown => c

def arriving (c : Controller) : ℚ := c.rates.max?.getD 0

def decrease (c : Controller) (now : ℚ) : Controller :=
  let base := c.cap.elim c.arriving (min · c.arriving)
  let c := { c with bad := 0 }
  match sanitizeCap (.number (base * DECREASE)) with
  | none => c
  | some cap =>
      if ∀ old ∈ c.cap, cap < old then { c with cap := some cap, changedAt := some now } else c

def increase (c : Controller) (old now : ℚ) : Controller :=
  let factor := if 0 < c.arriving ∧ c.arriving < old * UNUSED_BELOW then INCREASE_UNUSED
    else INCREASE
  let cap := sanitizeCap (.number (old * factor))
  let c := { c with good := 0 }
  match c.ceiling with
  | some ceiling =>
      if old < ceiling then
        { c with cap := some (min (cap.getD ceiling) ceiling), changedAt := some now }
      else c
  | none => { c with cap := cap.filter (¬ RELEASE_AT ≤ ·), changedAt := some now }

def adjust (c : Controller) (now : ℚ) : Controller :=
  if BAD_TO_DECREASE ≤ c.bad ∧ 0 < c.arriving ∧ Elapsed MIN_DECREASE_GAP c.changedAt now then
    c.decrease now
  else match c.cap with
    | none => c
    | some old =>
        if GOOD_TO_INCREASE ≤ c.good ∧ Elapsed MIN_INCREASE_GAP c.changedAt now then
          c.increase old now
        else c

def update (c : Controller) (snap : Snapshot) : Controller × Asked :=
  let now := snap.time
  let sample := c.sample snap
  let o := c.observe snap
  if ¬ snap.video then
    (o.stop now, ⟨none, c.cap ≠ none, c.cap ≠ none, sample⟩)
  else
    let d := ((o.begin now).count sample now).adjust now
    let changed : Bool := d.cap ≠ c.cap
    let send : Bool := changed ∨ (d.cap ≠ none ∧ Elapsed REFRESH d.sentAt now)
    ({ d with sentAt := if send then some now else d.sentAt }, ⟨d.cap, changed, send, sample⟩)

def run (c : Controller) (snaps : List Snapshot) : Controller :=
  snaps.foldl (fun c snap => (c.update snap).1) c

end Controller

end Control

/-! ## One poll -/

section Polls

variable {c c' c'' : Controller} {snap : Snapshot} {now : ℚ}

/-- An integer within the limits. -/
def InRange (cap : ℚ) : Prop := MIN_CAP ≤ cap ∧ cap ≤ MAX_CAP ∧ ∃ n : ℤ, cap = n

theorem sanitizeCap_range {value : Value} {cap : ℚ} (h : sanitizeCap value = some cap) :
    InRange cap := by
  cases value with
  | other => cases h
  | number x =>
      rw [sanitizeCap] at h
      split_ifs at h with hpos hmax
      obtain rfl := Option.some.inj h
      have hround : round x ≤ MAX_CAP := by
        have hfloor : ⌊x + 1 / 2⌋ < (100000001 : ℤ) := by
          rw [Int.floor_lt]
          have hle : x ≤ MAX_CAP := not_lt.mp hmax
          rw [MAX_CAP] at hle
          push_cast
          linarith
        have hle : ⌊x + 1 / 2⌋ ≤ (100000000 : ℤ) := Int.lt_add_one_iff.mp hfloor
        rw [round, MAX_CAP]
        exact_mod_cast hle
      refine ⟨le_max_left .., max_le (by norm_num [MIN_CAP, MAX_CAP]) hround,
        max 150000 ⌊x + 1 / 2⌋, ?_⟩
      rw [Int.cast_max]
      rfl

theorem ceilingOf_eq (maxLines : ℚ) : ceilingOf maxLines =
    some (if maxLines ≤ 540 then 2500000 else if maxLines ≤ 800 then 4000000 else 6000000) := by
  by_cases h : maxLines ≤ 540
  · simp [ceilingOf, CAMERA_CEILING, h]
  · by_cases h' : maxLines ≤ 800 <;> simp [ceilingOf, CAMERA_CEILING, h, h']

theorem ceilingOf_range {maxLines ceiling : ℚ} (h : ceilingOf maxLines = some ceiling) :
    InRange ceiling := by
  rw [ceilingOf_eq, Option.some.injEq] at h
  subst h
  split_ifs
  · exact ⟨by norm_num [MIN_CAP], by norm_num [MAX_CAP], 2500000, by norm_num⟩
  · exact ⟨by norm_num [MIN_CAP], by norm_num [MAX_CAP], 4000000, by norm_num⟩
  · exact ⟨by norm_num [MIN_CAP], by norm_num [MAX_CAP], 6000000, by norm_num⟩

/-- A larger picture has no lower ceiling. -/
theorem ceilingOf_mono {a b x y : ℚ} (hab : a ≤ b) (ha : ceilingOf a = some x)
    (hb : ceilingOf b = some y) : x ≤ y := by
  rw [ceilingOf_eq, Option.some.injEq] at ha hb
  subst ha hb
  split_ifs <;> linarith

theorem InRange.min {x y : ℚ} (hx : InRange x) (hy : InRange y) : InRange (min x y) := by
  rcases min_choice x y with h | h
  · rwa [h]
  · rwa [h]

namespace Controller

/-- Alike in what decides about the cap, the picture apart. -/
structure Alike (c c' : Controller) : Prop where
  startCap : c'.startCap = c.startCap
  camera : c'.camera = c.camera
  started : c'.started = c.started
  cap : c'.cap = c.cap
  changedAt : c'.changedAt = c.changedAt

theorem Alike.trans (h : Alike c c') (h' : Alike c' c'') : Alike c c'' where
  startCap := h'.startCap.trans h.startCap
  camera := h'.camera.trans h.camera
  started := h'.started.trans h.started
  cap := h'.cap.trans h.cap
  changedAt := h'.changedAt.trans h.changedAt

theorem Alike.begin (h : Alike c c') (now : ℚ) : Alike (c.begin now) (c'.begin now) := by
  unfold Controller.begin
  dsimp only
  rw [h.started, h.startCap, h.cap]
  split_ifs
  · exact h
  · exact ⟨rfl, h.camera, rfl, rfl, rfl⟩
  · exact ⟨rfl, h.camera, rfl, rfl, h.changedAt⟩

theorem pathDelay_alike (c : Controller) (now : ℚ) :
    Alike c (c.pathDelay now) ∧ (c.pathDelay now).maxLines = c.maxLines := by
  unfold pathDelay
  dsimp only
  cases (c.forgetEvidence now).pathEvidence with
  | some evidence => exact ⟨⟨rfl, rfl, rfl, rfl, rfl⟩, rfl⟩
  | none =>
      dsimp only
      split_ifs
      · exact ⟨⟨rfl, rfl, rfl, rfl, rfl⟩, rfl⟩
      · exact ⟨⟨rfl, rfl, rfl, rfl, rfl⟩, rfl⟩

theorem remember_alike (c : Controller) (sample : Sample) (now : ℚ) :
    Alike c (c.remember sample now) ∧ (c.remember sample now).maxLines = c.maxLines := by
  unfold remember
  split
  · exact ⟨⟨rfl, rfl, rfl, rfl, rfl⟩, rfl⟩
  · split_ifs
    · exact ⟨⟨rfl, rfl, rfl, rfl, rfl⟩, rfl⟩
    · exact ⟨⟨rfl, rfl, rfl, rfl, rfl⟩, rfl⟩

theorem observe_alike (c : Controller) (snap : Snapshot) : Alike c (c.observe snap) ∧
    (c.observe snap).maxLines =
      max c.maxLines (lines (c.sample snap).width (c.sample snap).height) := by
  obtain ⟨hpath, hlines⟩ := c.pathDelay_alike snap.time
  have hnote : Alike c ((c.pathDelay snap.time).note (c.sample snap) snap) :=
    hpath.trans ⟨rfl, rfl, rfl, rfl, rfl⟩
  have hmax : ((c.pathDelay snap.time).note (c.sample snap) snap).maxLines =
      max c.maxLines (lines (c.sample snap).width (c.sample snap).height) := by
    rw [note, hlines]
  unfold observe
  dsimp only
  split_ifs
  · obtain ⟨hremember, hlines'⟩ :=
      ((c.pathDelay snap.time).note (c.sample snap) snap).remember_alike (c.sample snap) snap.time
    exact ⟨hnote.trans (hremember.trans ⟨rfl, rfl, rfl, rfl, rfl⟩), hlines'.trans hmax⟩
  · exact ⟨hnote, hmax⟩

theorem count_alike (c : Controller) (sample : Sample) (now : ℚ) :
    Alike c (c.count sample now) ∧ (c.count sample now).maxLines = c.maxLines := by
  unfold count
  dsimp only
  cases sample.state <;> dsimp only <;> split_ifs <;> exact ⟨⟨rfl, rfl, rfl, rfl, rfl⟩, rfl⟩

/-- What `adjust` may make of the cap and of the time it was changed. -/
inductive Moves (ceiling : Option ℚ) (now : ℚ) (cap changedAt : Option ℚ) :
    Option ℚ → Option ℚ → Prop
  | kept : Moves ceiling now cap changedAt cap changedAt
  | lowered {cap' : ℚ} (hgap : Elapsed MIN_DECREASE_GAP changedAt now) (hrange : InRange cap')
      (hlower : ∀ old ∈ cap, cap' < old) : Moves ceiling now cap changedAt (some cap') (some now)
  | raised {old : ℚ} {cap' : Option ℚ} (hcap : cap = some old)
      (hgap : Elapsed MIN_INCREASE_GAP changedAt now) (hrange : ∀ x ∈ cap', InRange x)
      (hceiling : ∀ most ∈ ceiling, ∃ x ∈ cap', x ≤ most) :
      Moves ceiling now cap changedAt cap' (some now)

theorem decrease_moves (hgap : Elapsed MIN_DECREASE_GAP c.changedAt now) :
    Moves c.ceiling now c.cap c.changedAt (c.decrease now).cap (c.decrease now).changedAt := by
  unfold decrease
  dsimp only
  split
  · exact .kept
  · rename_i cap hcap
    split_ifs with hlower
    · exact .lowered hgap (sanitizeCap_range hcap) hlower
    · exact .kept

theorem ceiling_range {most : ℚ} (h : most ∈ c.ceiling) : InRange most := by
  rw [ceiling] at h
  split_ifs at h
  · exact ceilingOf_range h
  · cases h

theorem increase_moves {old : ℚ} (hcap : c.cap = some old)
    (hgap : Elapsed MIN_INCREASE_GAP c.changedAt now) :
    Moves c.ceiling now c.cap c.changedAt (c.increase old now).cap
      (c.increase old now).changedAt := by
  unfold increase
  dsimp only
  generalize hnew : sanitizeCap (.number (old * _)) = new
  have hrange : ∀ x ∈ new, InRange x := fun x hx => sanitizeCap_range (hnew.trans hx)
  cases hceiling : c.ceiling with
  | none =>
      have hnone : ({ c with good := 0 } : Controller).ceiling = none := hceiling
      rw [hnone]
      exact .raised hcap hgap (fun x hx => hrange x (Option.mem_filter_iff.mp hx).1) nofun
  | some most =>
      have hsome : ({ c with good := 0 } : Controller).ceiling = some most := hceiling
      have hmost : InRange most := ceiling_range hceiling
      rw [hsome]
      dsimp only
      split_ifs with hlow
      · refine .raised hcap hgap ?_ ?_
        · rintro x hx
          cases hx
          cases new with
          | none => exact hmost.min hmost
          | some new => exact (hrange new rfl).min hmost
        · rintro most' hmost'
          cases hmost'
          exact ⟨_, rfl, min_le_right ..⟩
      · exact .kept

theorem adjust_cases (c : Controller) (now : ℚ) : c.adjust now = c ∨
    (Elapsed MIN_DECREASE_GAP c.changedAt now ∧ c.adjust now = c.decrease now) ∨
    ∃ old, c.cap = some old ∧ Elapsed MIN_INCREASE_GAP c.changedAt now ∧
      c.adjust now = c.increase old now := by
  by_cases hbad : BAD_TO_DECREASE ≤ c.bad ∧ 0 < c.arriving ∧
      Elapsed MIN_DECREASE_GAP c.changedAt now
  · exact .inr (.inl ⟨hbad.2.2, if_pos hbad⟩)
  · rw [adjust, if_neg hbad]
    cases hcap : c.cap with
    | none => exact .inl rfl
    | some old =>
        by_cases hgood : GOOD_TO_INCREASE ≤ c.good ∧ Elapsed MIN_INCREASE_GAP c.changedAt now
        · exact .inr (.inr ⟨old, rfl, hgood.2, if_pos hgood⟩)
        · exact .inl (if_neg hgood)

theorem adjust_moves (c : Controller) (now : ℚ) :
    Moves c.ceiling now c.cap c.changedAt (c.adjust now).cap (c.adjust now).changedAt := by
  rcases c.adjust_cases now with h | ⟨hgap, h⟩ | ⟨old, hcap, hgap, h⟩
  · rw [h]
    exact .kept
  · rw [h]
    exact decrease_moves hgap
  · rw [h]
    exact increase_moves hcap hgap

/-- The same stream, picture and settings. -/
structure SameStream (c c' : Controller) : Prop where
  startCap : c'.startCap = c.startCap
  camera : c'.camera = c.camera
  started : c'.started = c.started
  maxLines : c'.maxLines = c.maxLines

theorem adjust_stream (c : Controller) (now : ℚ) : SameStream c (c.adjust now) := by
  rcases c.adjust_cases now with h | ⟨-, h⟩ | ⟨old, -, -, h⟩ <;> rw [h]
  · exact ⟨rfl, rfl, rfl, rfl⟩
  · unfold decrease
    dsimp only
    split
    · exact ⟨rfl, rfl, rfl, rfl⟩
    · split_ifs
      · exact ⟨rfl, rfl, rfl, rfl⟩
      · exact ⟨rfl, rfl, rfl, rfl⟩
  · unfold increase
    dsimp only
    split
    · split_ifs <;> exact ⟨rfl, rfl, rfl, rfl⟩
    · exact ⟨rfl, rfl, rfl, rfl⟩

theorem update_stop (c : Controller) (h : snap.video = false) :
    Alike { c with
        started := false
        cap := none
        changedAt := if c.cap = none then c.changedAt else some snap.time } (c.update snap).1 ∧
      (c.update snap).2.cap = none ∧ (c.update snap).1.maxLines =
        max c.maxLines (lines (c.sample snap).width (c.sample snap).height) := by
  obtain ⟨halike, hlines⟩ := c.observe_alike snap
  have hupdate : c.update snap = ((c.observe snap).stop snap.time,
      ⟨none, c.cap ≠ none, c.cap ≠ none, c.sample snap⟩) := by
    rw [update, if_pos (by rw [h]; decide)]
  rw [hupdate, stop, halike.cap]
  split_ifs
  · exact ⟨⟨halike.startCap, halike.camera, rfl, rfl, halike.changedAt⟩, rfl, hlines⟩
  · exact ⟨⟨halike.startCap, halike.camera, rfl, rfl, rfl⟩, rfl, hlines⟩

theorem begin_frame (c : Controller) (now : ℚ) : (c.begin now).startCap = c.startCap ∧
    (c.begin now).camera = c.camera ∧ (c.begin now).started = true ∧
    (c.begin now).maxLines = c.maxLines := by
  unfold Controller.begin
  dsimp only
  split_ifs with hstarted
  · exact ⟨rfl, rfl, hstarted, rfl⟩
  · exact ⟨rfl, rfl, rfl, rfl⟩
  · exact ⟨rfl, rfl, rfl, rfl⟩

/-- With video coming in the cap is moved from where `begin` has put it. -/
theorem update_play (c : Controller) (h : snap.video = true) :
    (c.update snap).2.cap = (c.update snap).1.cap ∧
      SameStream { c with
        started := true
        maxLines := max c.maxLines (lines (c.sample snap).width (c.sample snap).height) }
        (c.update snap).1 ∧
      Moves (c.update snap).1.ceiling snap.time (c.begin snap.time).cap
        (c.begin snap.time).changedAt (c.update snap).1.cap (c.update snap).1.changedAt := by
  obtain ⟨hobserve, hlines⟩ := c.observe_alike snap
  have hbegin : Alike (c.begin snap.time) ((c.observe snap).begin snap.time) := hobserve.begin _
  obtain ⟨hstart, hcamera, hstarted, hsame⟩ := (c.observe snap).begin_frame snap.time
  obtain ⟨hcount, hsame'⟩ :=
    ((c.observe snap).begin snap.time).count_alike (c.sample snap) snap.time
  generalize hd : ((c.observe snap).begin snap.time).count (c.sample snap) snap.time = d
    at hcount hsame'
  have hstream := d.adjust_stream snap.time
  have hmoves := d.adjust_moves snap.time
  have hupdate : ∃ sentAt, (c.update snap).1 = { d.adjust snap.time with sentAt := sentAt } ∧
      (c.update snap).2.cap = (d.adjust snap.time).cap := by
    rw [update, if_neg (by rw [h]; decide), ← hd]
    exact ⟨_, rfl, rfl⟩
  obtain ⟨sentAt, hupdate, hcap⟩ := hupdate
  have hceiling : (c.update snap).1.ceiling = d.ceiling := by
    rw [hupdate, ceiling, ceiling]
    show (if (d.adjust snap.time).camera then ceilingOf (d.adjust snap.time).maxLines else none) = _
    rw [hstream.camera, hstream.maxLines]
  refine ⟨by rw [hcap, hupdate], ?_, ?_⟩
  · rw [hupdate]
    exact ⟨hstream.startCap.trans (hcount.startCap.trans (hstart.trans hobserve.startCap)),
      hstream.camera.trans (hcount.camera.trans (hcamera.trans hobserve.camera)),
      hstream.started.trans (hcount.started.trans hstarted),
      hstream.maxLines.trans (hsame'.trans (hsame.trans hlines))⟩
  · rw [hceiling, hupdate, ← hbegin.cap, ← hcount.cap, ← hbegin.changedAt, ← hcount.changedAt]
    exact hmoves

theorem update_cap (c : Controller) (snap : Snapshot) :
    (c.update snap).2.cap = (c.update snap).1.cap := by
  cases h : snap.video with
  | false =>
      obtain ⟨halike, hcap, -⟩ := c.update_stop h
      exact hcap.trans halike.cap.symm
  | true => exact (c.update_play h).1

theorem update_maxLines (c : Controller) (snap : Snapshot) : (c.update snap).1.maxLines =
    max c.maxLines (lines (c.sample snap).width (c.sample snap).height) := by
  cases h : snap.video with
  | false => exact (c.update_stop h).2.2
  | true => exact (c.update_play h).2.1.maxLines

/-- Where `begin` has put the cap, and when it has. -/
theorem begin_cases (c : Controller) (now : ℚ) :
    ((c.begin now).cap = c.cap ∧ (c.begin now).changedAt = c.changedAt ∧
      ¬ (c.started = false ∧ c.startCap ≠ none ∧ c.cap = none)) ∨
    ((c.begin now).cap = c.startCap ∧ (c.begin now).changedAt = some now ∧
      c.started = false ∧ c.startCap ≠ none ∧ c.cap = none) := by
  unfold Controller.begin
  dsimp only
  split_ifs with hstarted hstart
  · exact .inl ⟨rfl, rfl, fun h => absurd (hstarted.symm.trans h.1) nofun⟩
  · exact .inr ⟨rfl, rfl, Bool.eq_false_iff.mpr hstarted, hstart⟩
  · exact .inl ⟨rfl, rfl, fun h => hstart h.2⟩

/-- Every change notes its time. -/
theorem update_changedAt (c : Controller) (snap : Snapshot) :
    (c.update snap).1.changedAt = some snap.time ∨
      ((c.update snap).1.changedAt = c.changedAt ∧ (c.update snap).2.cap = c.cap) := by
  cases h : snap.video with
  | false =>
      obtain ⟨halike, hcap, -⟩ := c.update_stop h
      by_cases hnone : c.cap = none
      · exact .inr ⟨halike.changedAt.trans (if_pos hnone), hcap.trans hnone.symm⟩
      · exact .inl (halike.changedAt.trans (if_neg hnone))
  | true =>
      obtain ⟨hcap, -, hmoves⟩ := c.update_play h
      rw [hcap]
      rcases c.begin_cases snap.time with ⟨hbegin, htime, -⟩ | ⟨-, htime, -⟩
      · rw [hbegin, htime] at hmoves
        generalize (c.update snap).1.cap = cap', (c.update snap).1.changedAt = time' at hmoves
        cases hmoves with
        | kept => exact .inr ⟨rfl, rfl⟩
        | lowered => exact .inl rfl
        | raised => exact .inl rfl
      · rw [htime] at hmoves
        generalize (c.update snap).1.cap = cap', (c.update snap).1.changedAt = time' at hmoves
        cases hmoves <;> exact .inl rfl

end Controller

end Polls

/-! ## Runs -/

section Limits

variable {c : Controller} {snap : Snapshot}

/-- A poll of a run. -/
structure Poll where
  before : Controller
  snap : Snapshot

namespace Poll

def asked (p : Poll) : Asked := (p.before.update p.snap).2

/-- The cap asked for is another than before. -/
def Changes (p : Poll) : Prop := p.asked.cap ≠ p.before.cap

/-- Video has stopped, or has started with a cap to start with. -/
def ByVideo (p : Poll) : Prop := p.snap.video = false ∨
  (p.before.started = false ∧ p.before.startCap ≠ none ∧ p.before.cap = none)

/-- The cap is increased or lifted. -/
def Rises (p : Poll) : Prop := ∃ old ∈ p.before.cap, ∀ cap ∈ p.asked.cap, old < cap

/-- A change is late enough after an earlier one, whatever that was for. -/
def Paced (p q : Poll) : Prop := p.Changes → q.Changes → ¬ q.ByVideo →
  MIN_DECREASE_GAP ≤ q.snap.time - p.snap.time ∧
    (q.Rises → MIN_INCREASE_GAP ≤ q.snap.time - p.snap.time)

theorem elapsed_of_changes {q : Poll} (h : q.Changes) (hvideo : ¬ q.ByVideo) :
    Elapsed MIN_DECREASE_GAP q.before.changedAt q.snap.time ∧
      (q.Rises → Elapsed MIN_INCREASE_GAP q.before.changedAt q.snap.time) := by
  obtain ⟨c, snap⟩ := q
  have hplays : snap.video = true := by
    by_contra hstops
    exact hvideo (.inl (Bool.eq_false_iff.mpr hstops))
  obtain ⟨hcap, -, hmoves⟩ := c.update_play hplays
  rcases c.begin_cases snap.time with ⟨hbegin, htime, -⟩ | ⟨-, -, hstarts⟩
  · rw [hbegin, htime, ← hcap] at hmoves
    simp only [Changes, Rises, asked] at h ⊢
    generalize (c.update snap).2.cap = cap', (c.update snap).1.changedAt = time' at h hmoves
    cases hmoves with
    | kept => exact absurd rfl h
    | lowered hgap _ hlower =>
        refine ⟨hgap, fun hrises => ?_⟩
        obtain ⟨old, hold, hlt⟩ := hrises
        exact absurd (hlower old hold) (hlt _ rfl).asymm
    | raised _ hgap =>
        refine ⟨fun t ht => le_trans ?_ (hgap t ht), fun _ => hgap⟩
        norm_num [MIN_DECREASE_GAP, MIN_INCREASE_GAP]
  · exact absurd (.inr hstarts) hvideo

end Poll

namespace Controller

def polls (c : Controller) : List Snapshot → List Poll
  | [] => []
  | snap :: snaps => ⟨c, snap⟩ :: (c.update snap).1.polls snaps

theorem run_append (c : Controller) (snaps : List Snapshot) (snap : Snapshot) :
    c.run (snaps ++ [snap]) = ((c.run snaps).update snap).1 := by
  rw [run, List.foldl_append]
  rfl

theorem polls_append (c : Controller) (snaps : List Snapshot) (snap : Snapshot) :
    c.polls (snaps ++ [snap]) = c.polls snaps ++ [⟨c.run snaps, snap⟩] := by
  induction snaps generalizing c with
  | nil => rfl
  | cons s snaps ih =>
      rw [List.cons_append, polls, ih]
      rfl

/-- The limits, and the cap to start with as well. -/
structure Limited (c : Controller) : Prop where
  startCap : ∀ s ∈ c.startCap, InRange s
  cap : ∀ x ∈ c.cap, InRange x

theorem Moves.range {ceiling cap changedAt cap' time' : Option ℚ} {now : ℚ}
    (h : Moves ceiling now cap changedAt cap' time') (hcap : ∀ x ∈ cap, InRange x) :
    ∀ x ∈ cap', InRange x := by
  cases h with
  | kept => exact hcap
  | lowered _ hrange _ =>
      rintro x hx
      cases hx
      exact hrange
  | raised _ _ hrange _ => exact hrange

theorem update_limited (h : c.Limited) (snap : Snapshot) : (c.update snap).1.Limited := by
  cases hvideo : snap.video with
  | false =>
      obtain ⟨halike, -, -⟩ := c.update_stop hvideo
      refine ⟨halike.startCap ▸ h.startCap, ?_⟩
      rw [halike.cap]
      exact nofun
  | true =>
      obtain ⟨-, hstream, hmoves⟩ := c.update_play hvideo
      refine ⟨hstream.startCap ▸ h.startCap, hmoves.range ?_⟩
      rcases c.begin_cases snap.time with ⟨hbegin, -⟩ | ⟨hbegin, -⟩
      · exact hbegin ▸ h.cap
      · exact hbegin ▸ h.startCap

/-- A camera that starts below the lowest ceiling. -/
structure Camera (c : Controller) : Prop where
  camera : c.camera = true
  startCap : ∃ s, c.startCap = some s ∧ ∀ row ∈ CAMERA_CEILING, s ≤ row.2
  cap : ∀ x ∈ c.cap, ∀ most ∈ ceilingOf c.maxLines, x ≤ most
  started : c.started = true → c.cap ≠ none

theorem le_ceilingOf {s maxLines : ℚ} (h : ∀ row ∈ CAMERA_CEILING, s ≤ row.2) :
    ∀ most ∈ ceilingOf maxLines, s ≤ most := by
  intro most hmost
  obtain ⟨row, hrow, rfl⟩ := Option.map_eq_some_iff.mp hmost
  exact h row (List.mem_of_find?_eq_some hrow)

theorem Moves.below {ceiling cap changedAt cap' time' : Option ℚ} {now most : ℚ}
    (h : Moves ceiling now cap changedAt cap' time') (hceiling : ceiling = some most)
    (hcap : ∃ x ∈ cap, x ≤ most) : ∃ x ∈ cap', x ≤ most := by
  cases h with
  | kept => exact hcap
  | lowered _ _ hlower =>
      obtain ⟨x, hx, hle⟩ := hcap
      exact ⟨_, rfl, (hlower x hx).le.trans hle⟩
  | raised _ _ _ hmost => exact hmost most hceiling

/-- Where `begin` puts the cap is below the ceiling for any picture from the
largest so far on. -/
theorem Camera.begin (h : c.Camera) (now : ℚ) {maxLines most : ℚ} (hle : c.maxLines ≤ maxLines)
    (hmost : ceilingOf maxLines = some most) : ∃ x ∈ (c.begin now).cap, x ≤ most := by
  obtain ⟨s, hs, hlowest⟩ := h.startCap
  rcases c.begin_cases now with ⟨hbegin, -, hnot⟩ | ⟨hbegin, -⟩
  · rw [hbegin]
    cases hcap : c.cap with
    | none =>
        refine absurd ⟨?_, hs ▸ nofun, hcap⟩ hnot
        exact Bool.eq_false_iff.mpr fun hstarted => h.started hstarted hcap
    | some x =>
        refine ⟨x, rfl, (h.cap x hcap _ (ceilingOf_eq _)).trans ?_⟩
        exact ceilingOf_mono hle (ceilingOf_eq _) hmost
  · rw [hbegin, hs]
    exact ⟨s, rfl, le_ceilingOf hlowest most hmost⟩

/-- While video comes in a camera asks for a cap, below its ceiling. -/
theorem Camera.play (h : c.Camera) (hvideo : snap.video = true) :
    ∃ x ∈ (c.update snap).1.cap, ∀ most ∈ ceilingOf (c.update snap).1.maxLines, x ≤ most := by
  obtain ⟨-, hstream, hmoves⟩ := c.update_play hvideo
  have hmost := ceilingOf_eq (c.update snap).1.maxLines
  have hceiling : (c.update snap).1.ceiling = _ :=
    (if_pos (hstream.camera.trans h.camera)).trans hmost
  have hlines : c.maxLines ≤ (c.update snap).1.maxLines :=
    (le_max_left ..).trans (c.update_maxLines snap).ge
  obtain ⟨x, hx, hle⟩ := hmoves.below hceiling (h.begin snap.time hlines hmost)
  exact ⟨x, hx, fun most hm => hle.trans (Option.some.inj (hmost.symm.trans hm)).le⟩

theorem update_camera (h : c.Camera) (snap : Snapshot) : (c.update snap).1.Camera := by
  cases hvideo : snap.video with
  | false =>
      obtain ⟨halike, -, -⟩ := c.update_stop hvideo
      refine ⟨halike.camera.trans h.camera, halike.startCap ▸ h.startCap, ?_, ?_⟩
      · rw [halike.cap]
        exact nofun
      · rw [halike.started]
        exact nofun
  | true =>
      obtain ⟨-, hstream, -⟩ := c.update_play hvideo
      obtain ⟨x, hx, hle⟩ := h.play hvideo
      refine ⟨hstream.camera.trans h.camera, hstream.startCap ▸ h.startCap, ?_, ?_⟩
      · intro y hy
        obtain rfl := Option.some.inj (hx.symm.trans hy)
        exact hle
      · intro _ hnone
        exact absurd (hx.symm.trans hnone) nofun

theorem new_limited (startCap : Value) (label : Option String) :
    (new startCap label).Limited :=
  ⟨fun _ h => sanitizeCap_range h, fun _ h => nomatch h⟩

theorem run_limited (h : c.Limited) (snaps : List Snapshot) : (c.run snaps).Limited := by
  induction snaps using List.reverseRecOn with
  | nil => exact h
  | append_singleton snaps snap ih =>
      rw [run_append]
      exact update_limited ih snap

theorem run_camera (h : c.Camera) (snaps : List Snapshot) : (c.run snaps).Camera := by
  induction snaps using List.reverseRecOn with
  | nil => exact h
  | append_singleton snaps snap ih =>
      rw [run_append]
      exact update_camera ih snap

/-- The largest of the pictures that have come in, by the short side. -/
def largest (snaps : List Snapshot) : ℚ :=
  (snaps.filter Snapshot.video).foldl (fun most snap => max most (lines snap.vWidth snap.vHeight)) 0

theorem largest_append (snaps : List Snapshot) (snap : Snapshot) : largest (snaps ++ [snap]) =
    if snap.video then max (largest snaps) (lines snap.vWidth snap.vHeight)
    else largest snaps := by
  rw [largest, List.filter_append, List.foldl_append]
  cases hvideo : snap.video <;> simp [hvideo, largest]

theorem sample_lines (c : Controller) (snap : Snapshot) :
    lines (c.sample snap).width (c.sample snap).height = 0 ∨
      (snap.video = true ∧ lines (c.sample snap).width (c.sample snap).height =
        lines snap.vWidth snap.vHeight) := by
  have hzero : lines 0 0 = 0 := if_neg (lt_irrefl 0)
  have hmeasure : ∀ prev path, let r := measure prev snap path
      lines r.width r.height = 0 ∨
        (snap.video = true ∧ lines r.width r.height = lines snap.vWidth snap.vHeight) := by
    intro prev path
    cases hvideo : snap.video with
    | false => exact .inl (by simp [measure, hvideo, hzero])
    | true => exact .inr ⟨rfl, by simp [measure, hvideo]⟩
  unfold sample assess
  split
  · exact .inl hzero
  · split_ifs
    · exact .inl hzero
    · dsimp only
      split_ifs
      · exact hmeasure _ _
      · exact hmeasure _ _

theorem run_maxLines (hc : c.maxLines = 0) (snaps : List Snapshot) :
    0 ≤ (c.run snaps).maxLines ∧ (c.run snaps).maxLines ≤ largest snaps := by
  induction snaps using List.reverseRecOn with
  | nil => exact ⟨hc.ge, hc.le⟩
  | append_singleton snaps snap ih =>
      obtain ⟨hpos, hle⟩ := ih
      rw [run_append, update_maxLines, largest_append]
      refine ⟨hpos.trans (le_max_left ..), ?_⟩
      rcases sample_lines (c.run snaps) snap with hzero | ⟨hvideo, hlines⟩
      · rw [hzero, max_eq_left hpos]
        split_ifs
        · exact hle.trans (le_max_left ..)
        · exact hle
      · rw [if_pos hvideo, hlines]
        exact max_le_max_right _ hle

/-- A change of the cap is not later than the time that the controller keeps. -/
theorem run_changedAt {snaps : List Snapshot}
    (h : (snaps.map Snapshot.time).Pairwise (· ≤ ·)) :
    ∀ p ∈ c.polls snaps, p.snap ∈ snaps ∧
      (p.Changes → ∃ t ∈ (c.run snaps).changedAt, p.snap.time ≤ t) := by
  induction snaps using List.reverseRecOn with
  | nil => exact List.forall_mem_nil _
  | append_singleton snaps snap ih =>
      rw [List.map_append, List.pairwise_append] at h
      obtain ⟨hsnaps, -, hlast⟩ := h
      intro p hp
      rw [polls_append, List.mem_append, List.mem_singleton] at hp
      rw [run_append]
      rcases hp with hp | rfl
      · obtain ⟨hmem, hchanged⟩ := ih hsnaps p hp
        refine ⟨List.mem_append_left _ hmem, fun hchanges => ?_⟩
        rcases (c.run snaps).update_changedAt snap with hnow | ⟨hsame, -⟩
        · exact ⟨snap.time, hnow, hlast _ (List.mem_map_of_mem hmem) _ (List.mem_singleton_self _)⟩
        · rw [hsame]
          exact hchanged hchanges
      · refine ⟨List.mem_append_right _ (List.mem_singleton_self _), fun hchanges => ?_⟩
        rcases (c.run snaps).update_changedAt snap with hnow | ⟨-, hcap⟩
        · exact ⟨snap.time, hnow, le_refl _⟩
        · exact absurd hcap hchanges

theorem run_paced {snaps : List Snapshot} (h : (snaps.map Snapshot.time).Pairwise (· ≤ ·))
    (snap : Snapshot) : ∀ p ∈ c.polls snaps, p.Paced ⟨c.run snaps, snap⟩ := by
  intro p hp hp' hq hvideo
  obtain ⟨t, ht, hle⟩ := (run_changedAt h p hp).2 hp'
  obtain ⟨hgap, hrises⟩ := Poll.elapsed_of_changes hq hvideo
  exact ⟨(hgap t ht).trans (sub_le_sub_left hle _),
    fun h => (hrises h t ht).trans (sub_le_sub_left hle _)⟩

end Controller

open Controller

/-- What the last poll of a run asks for. -/
structure KeepsLimits (startCap : Value) (label : Option String) (snaps : List Snapshot)
    (snap : Snapshot) : Prop where
  range : ∀ cap ∈ (((new startCap label).run snaps).update snap).2.cap, InRange cap
  /-- A camera, if it starts with a cap that is not above the lowest ceiling. -/
  camera : label = some "camera" →
    (∃ s ∈ sanitizeCap startCap, ∀ row ∈ CAMERA_CEILING, s ≤ row.2) →
    (∀ cap ∈ (((new startCap label).run snaps).update snap).2.cap,
      ∃ most ∈ ceilingOf (largest (snaps ++ [snap])), cap ≤ most) ∧
    (snap.video = true → (((new startCap label).run snaps).update snap).2.cap ≠ none)
  paced : ∀ p ∈ (new startCap label).polls snaps, p.Paced ⟨(new startCap label).run snaps, snap⟩

theorem keepsLimits (startCap : Value) (label : Option String) (snaps : List Snapshot)
    (snap : Snapshot) (h : ((snaps ++ [snap]).map Snapshot.time).Pairwise (· ≤ ·)) :
    KeepsLimits startCap label snaps snap := by
  rw [List.map_append, List.pairwise_append] at h
  refine ⟨?_, fun hlabel hstart => ?_, run_paced h.1 snap⟩
  · rw [update_cap]
    exact (update_limited (run_limited (new_limited startCap label) snaps) snap).cap
  · have hnew : (new startCap label).Camera :=
      ⟨decide_eq_true hlabel, hstart, fun _ h => (nomatch h), fun h => (nomatch h)⟩
    have hrun := run_camera hnew snaps
    rw [update_cap]
    refine ⟨fun cap hcap => ⟨_, ceilingOf_eq _, ?_⟩, fun hvideo => ?_⟩
    · have hle := (update_camera hrun snap).cap cap hcap _ (ceilingOf_eq _)
      rw [← run_append] at hle
      exact hle.trans (ceilingOf_mono (run_maxLines rfl _).2 (ceilingOf_eq _) (ceilingOf_eq _))
    · obtain ⟨x, hx, -⟩ := hrun.play hvideo
      exact fun hnone => absurd (hx.symm.trans hnone) nofun

/-- A camera whose video stops and starts again. -/
theorem keepsLimits_again : KeepsLimits (.number 1000000) (some "camera")
    [⟨0, true, true, 0, 0, 0, 0, 0, 0, 0, 0, 0, 0, 0, none, none, none, none, none, 640, 480⟩,
      { time := 2000 }] { time := 4000, video := true } :=
  keepsLimits _ _ _ _ (by decide +kernel)

end Limits

end Sozvon.Bitrate
