import Sozvon.Runs
import Mathlib.Logic.Function.Basic
import Mathlib.Data.UInt
import Mathlib.Data.Nat.Notation

/-!
# Times in RTCP reports

The clock counts jiffies. A listener reads it when RTCP packets of an upstream
track come in and records it for every sender report among them; the sender of
a connection reads it once, and then goes through the tracks to say how long ago
their last sender report was. A downstream track has the time of the last
sender report that went out, and its round-trip time, in words that are loaded
and stored one by one.

`recorded` and `log` are there to be spoken about, and nothing reads them.
-/
namespace Sozvon.RtcpTimes
open Runs

def jiffiesPerSec : UInt64 := 24576000

/-- A clock reading as the code has it. -/
def jiffies (clock : ℕ) : UInt64 := .ofNat clock

/-- The bits of an NTP time that a reception report has. -/
def middle (ntp : UInt64) : UInt32 := (ntp >>> 16).toUInt32

structure ReceptionReport where
  lastSenderReport : UInt32
  delay : UInt32
deriving DecidableEq, Repr

/-! ## Upstream -/

structure UpTrack where
  srTime : UInt64 := 0
  srNTPTime : UInt64 := 0
  /-- When the last sender report came in, and its NTP time. -/
  recorded : Option (ℕ × UInt64) := none
deriving DecidableEq, Repr

/-- A call of `sendUpRTCP`: its clock reading, and the tracks it has still to go through. -/
structure Call (ι : Type*) where
  now : ℕ
  rest : List ι

/-- A report, the call's clock reading, the time when it was made, and what was recorded then. -/
structure Entry where
  report : ReceptionReport
  now : ℕ
  made : ℕ
  recorded : Option (ℕ × UInt64)
deriving DecidableEq, Repr

structure Up (ι : Type*) where
  clock : ℕ := 0
  tracks : ι → UpTrack := fun _ => {}
  /-- The clock readings of the listeners that are going through what came in. -/
  listeners : ι → Option ℕ := fun _ => none
  call : Option (Call ι) := none
  log : List Entry := []

inductive UpLabel (ι : Type*) where
  | tick (d : ℕ)
  /-- A listener reads the clock, records a sender report, waits for the next packets. -/
  | listen (i : ι)
  | record (i : ι) (ntp : UInt64)
  | wait (i : ι)
  /-- The sender reads the clock, and then each track. -/
  | start (tracks : List ι)
  | read
deriving DecidableEq, Repr

/-- The part of `sendUpRTCP` about one track. -/
def UpTrack.report (t : UpTrack) (now : UInt64) : ReceptionReport :=
  let delay := if t.srTime ≠ 0 then (now - t.srTime) / (jiffiesPerSec / 0x10000) else 0
  { lastSenderReport := middle t.srNTPTime, delay := delay.toUInt32 }

section Up

variable {ι : Type*} [DecidableEq ι]

def Up.step (s : Up ι) : UpLabel ι → Option (Up ι)
  | .tick d => if s.clock + d < 2 ^ 63 then some { s with clock := s.clock + d } else none
  | .listen i =>
      if s.listeners i = none then
        some { s with listeners := Function.update s.listeners i (some s.clock) }
      else none
  | .record i ntp => (s.listeners i).map fun now =>
      let t : UpTrack := { srTime := jiffies now, srNTPTime := ntp, recorded := some (now, ntp) }
      { s with tracks := Function.update s.tracks i t }
  | .wait i => some { s with listeners := Function.update s.listeners i none }
  | .start tracks =>
      if s.call.isNone then some { s with call := some { now := s.clock, rest := tracks } }
      else none
  | .read =>
      match s.call with
      | none => none
      | some { now := _, rest := [] } => some { s with call := none }
      | some { now, rest := i :: rest } =>
          let t := s.tracks i
          let entry : Entry :=
            { report := t.report (jiffies now), now, made := s.clock, recorded := t.recorded }
          some { s with call := some { now, rest }, log := s.log ++ [entry] }

def upSystem (ι : Type*) [DecidableEq ι] : System (Up ι) (UpLabel ι) where
  init s := s = {}
  step := Up.step

end Up

/-! ## Downstream -/

/-- A call of `sendSR`, which has read the clock, and one that has stored the one word and not yet
the other. -/
inductive Sending where
  | idle
  | read (jiffies nowNTP : UInt64)
  | stored (nowNTP : UInt64)
deriving DecidableEq, Repr

/-- A call of `handleReport` with what it has read so far. -/
inductive Handling where
  | idle
  | clocked (report : ReceptionReport) (jiffies : UInt64)
  | timed (report : ReceptionReport) (jiffies srTime : UInt64)
  | measured (rtt : UInt64)
  | storing (newrtt : UInt64)
deriving DecidableEq, Repr

/-- A downstream track, with the calls about it that are under way. -/
structure Down where
  clock : ℕ := 0
  sr : UInt64 := 0
  srNTP : UInt64 := 0
  rtt : UInt64 := 0
  senders : ℕ → Sending := fun _ => .idle
  handlers : ℕ → Handling := fun _ => .idle

inductive DownLabel where
  | tick (d : ℕ)
  | sendSR (k : ℕ) (nowNTP : UInt64)
  | handleReport (k : ℕ) (report : ReceptionReport)
  /-- The next step of a call. -/
  | sender (k : ℕ)
  | handler (k : ℕ)
deriving DecidableEq, Repr

/-- The guards of `handleReport`, and the round-trip time where none of them holds. -/
def measure (report : ReceptionReport) (jiffies srTime srNTPTime : UInt64) : Option UInt64 :=
  if jiffies < srTime ∨ jiffies - srTime > 8 * jiffiesPerSec then none
  else if report.lastSenderReport = middle srNTPTime then
    let delay := report.delay.toUInt64 * (jiffiesPerSec / 0x10000)
    if delay > jiffies - srTime then none else some (jiffies - srTime - delay)
  else none

def average (oldrtt rtt : UInt64) : UInt64 := if oldrtt > 0 then (3 * oldrtt + rtt) / 4 else rtt

namespace Down

variable (s : Down)

def setSender (k : ℕ) (x : Sending) : Down := { s with senders := Function.update s.senders k x }

def setHandler (k : ℕ) (x : Handling) : Down :=
  { s with handlers := Function.update s.handlers k x }

def step : DownLabel → Option Down
  | .tick d => if s.clock + d < 2 ^ 63 then some { s with clock := s.clock + d } else none
  | .sendSR k nowNTP =>
      if s.senders k = .idle then some (s.setSender k (.read (jiffies s.clock) nowNTP)) else none
  | .handleReport k report =>
      if s.handlers k = .idle ∧ report.lastSenderReport ≠ 0 then
        some (s.setHandler k (.clocked report (jiffies s.clock)))
      else none
  | .sender k =>
      match s.senders k with
      | .idle => none
      | .read jiffies nowNTP => some { s.setSender k (.stored nowNTP) with sr := jiffies }
      | .stored nowNTP => some { s.setSender k .idle with srNTP := nowNTP }
  | .handler k =>
      match s.handlers k with
      | .idle => none
      | .clocked report jiffies => some (s.setHandler k (.timed report jiffies s.sr))
      | .timed report jiffies srTime =>
          match measure report jiffies srTime s.srNTP with
          | none => some (s.setHandler k .idle)
          | some rtt => some (s.setHandler k (.measured rtt))
      | .measured rtt => some (s.setHandler k (.storing (average s.rtt rtt)))
      | .storing newrtt => some { s.setHandler k .idle with rtt := newrtt }

end Down

def downSystem : System Down DownLabel where
  init s := s = {}
  step := Down.step

/-! ## Reception reports -/

section Reports

variable {ι : Type*} {s t : Up ι}

/-- A report is about the sender report that was recorded, and about some instant of the call. -/
def Entry.Truthful (e : Entry) : Prop :=
  ∀ time ntp, e.recorded = some (time, ntp) → e.report.lastSenderReport = middle ntp ∧
    ∃ u, e.now ≤ u ∧ u ≤ e.made ∧ time ≤ u ∧ e.report.delay = .ofNat ((u - time) / 375)

/-- A track that is read has no sender report from after the call's clock reading, and none from
the clock's very first instant unless that has just been. -/
def Timely (s : Up ι) : UpLabel ι → Prop
  | .read => ∀ c ∈ s.call, ∀ i ∈ c.rest.head?, ∀ r ∈ (s.tracks i).recorded,
      r.1 ≤ c.now ∧ (r.1 = 0 → c.now < 375)
  | _ => True

/-- What a track has is what was recorded. -/
def UpTrack.Sound (t : UpTrack) (clock : ℕ) : Prop :=
  ∀ r ∈ t.recorded, t.srTime = jiffies r.1 ∧ t.srNTPTime = r.2 ∧ r.1 ≤ clock

structure UpInv (s : Up ι) : Prop where
  clock : s.clock < 2 ^ 63
  tracks : ∀ i, (s.tracks i).Sound s.clock
  listeners : ∀ i, ∀ now ∈ s.listeners i, now ≤ s.clock
  call : ∀ c ∈ s.call, c.now ≤ s.clock
  log : ∀ e ∈ s.log, e.Truthful

theorem toNat_jiffies {clock : ℕ} (h : clock < 2 ^ 63) : (jiffies clock).toNat = clock :=
  UInt64.toNat_ofNat_of_lt' (Nat.lt_trans h (by decide))

/-- The delay since an instant that was not after the clock reading. -/
theorem report_delay {u : UpTrack} {time now : ℕ} (htime : u.srTime = jiffies time)
    (hle : time ≤ now) (hnow : now < 2 ^ 63) (hzero : time = 0 → now < 375) :
    (u.report (jiffies now)).delay = .ofNat ((now - time) / 375) := by
  have hword : now - time < UInt64.size := by rw [UInt64.size]; omega
  have hunit : jiffiesPerSec / 0x10000 = .ofNat 375 := rfl
  simp only [UpTrack.report, htime, hunit]
  split_ifs with h
  · rw [jiffies, jiffies, ← UInt64.ofNat_sub hle, ← UInt64.ofNat_div hword (by decide)]
    exact UInt64.toUInt32_ofNat
  · have h0 : time = 0 := by
      have := congrArg UInt64.toNat (not_not.mp h)
      rwa [toNat_jiffies (Nat.lt_of_le_of_lt hle hnow)] at this
    rw [h0, Nat.sub_zero, Nat.div_eq_of_lt (hzero h0)]
    rfl

/-- What the sender says about a track, where its report is in time. -/
theorem Entry.truthful {u : UpTrack} {clock now : ℕ} (hu : u.Sound clock) (hclock : clock < 2 ^ 63)
    (hnow : now ≤ clock) (hr : ∀ r ∈ u.recorded, r.1 ≤ now ∧ (r.1 = 0 → now < 375)) :
    Entry.Truthful
      { report := u.report (jiffies now), now, made := clock, recorded := u.recorded } := by
  intro time ntp hrec
  obtain ⟨htime, hntp, -⟩ := hu _ hrec
  obtain ⟨hle, hzero⟩ := hr _ hrec
  refine ⟨congrArg middle hntp, now, le_rfl, hnow, hle, ?_⟩
  exact report_delay htime hle (Nat.lt_of_le_of_lt hnow hclock) hzero

theorem UpTrack.Sound.mono {u : UpTrack} {clock clock' : ℕ} (h : u.Sound clock)
    (hle : clock ≤ clock') : u.Sound clock' :=
  fun r hr => ⟨(h r hr).1, (h r hr).2.1, (h r hr).2.2.trans hle⟩

theorem UpInv.init : UpInv ({} : Up ι) where
  clock := Nat.two_pow_pos 63
  tracks _ _ hr := by cases hr
  listeners _ _ hn := by cases hn
  call _ hc := by cases hc
  log _ he := by cases he

variable [DecidableEq ι]

theorem UpInv.tick {d : ℕ} (h : UpInv s) (ht : s.step (.tick d) = some t) : UpInv t := by
  simp only [Up.step] at ht
  split_ifs at ht with hd
  cases ht
  have hle : s.clock ≤ s.clock + d := Nat.le_add_right _ _
  exact { clock := hd
          tracks := fun i => (h.tracks i).mono hle
          listeners := fun i now hn => (h.listeners i now hn).trans hle
          call := fun c hc => (h.call c hc).trans hle
          log := h.log }

theorem UpInv.listen {i : ι} (h : UpInv s) (ht : s.step (.listen i) = some t) : UpInv t := by
  simp only [Up.step] at ht
  split_ifs at ht with hi
  cases ht
  refine { h with listeners := ?_ }
  refine (Function.forall_update_iff _ fun _ l => ∀ now ∈ l, now ≤ s.clock).2 ⟨?_, ?_⟩
  · rintro now ⟨⟩
    exact le_rfl
  · exact fun j _ => h.listeners j

/-- What is recorded is a clock reading of before. -/
theorem UpInv.record {i : ι} {ntp : UInt64} (h : UpInv s) (ht : s.step (.record i ntp) = some t) :
    UpInv t := by
  simp only [Up.step, Option.map_eq_some_iff] at ht
  obtain ⟨now, hnow, rfl⟩ := ht
  refine { h with tracks := ?_ }
  refine (Function.forall_update_iff _ fun _ u => UpTrack.Sound u s.clock).2 ⟨?_, ?_⟩
  · rintro r ⟨⟩
    exact ⟨rfl, rfl, h.listeners i now hnow⟩
  · exact fun j _ => h.tracks j

theorem UpInv.wait {i : ι} (h : UpInv s) (ht : s.step (.wait i) = some t) : UpInv t := by
  simp only [Up.step, Option.some.injEq] at ht
  subst ht
  refine { h with listeners := ?_ }
  refine (Function.forall_update_iff _ fun _ l => ∀ now ∈ l, now ≤ s.clock).2 ⟨?_, ?_⟩
  · rintro now ⟨⟩
  · exact fun j _ => h.listeners j

theorem UpInv.start {tracks : List ι} (h : UpInv s) (ht : s.step (.start tracks) = some t) :
    UpInv t := by
  simp only [Up.step] at ht
  split_ifs at ht with hc
  cases ht
  refine { h with call := ?_ }
  rintro c ⟨⟩
  exact le_rfl

theorem UpInv.read (h : UpInv s) (hok : Timely s .read) (ht : s.step .read = some t) :
    UpInv t := by
  simp only [Up.step] at ht
  split at ht
  · cases ht
  · cases ht
    exact { h with call := fun c hc => by cases hc }
  · next now i rest hcall =>
    cases ht
    have hnow : now ≤ s.clock := h.call _ hcall
    refine { h with call := ?_, log := fun e he => ?_ }
    · rintro c ⟨⟩
      exact hnow
    · rcases List.mem_append.1 he with he | he
      · exact h.log e he
      · rw [List.mem_singleton] at he
        subst he
        exact Entry.truthful (h.tracks i) h.clock hnow (hok _ hcall i rfl)

theorem UpInv.step {a : UpLabel ι} (h : UpInv s) (hok : Timely s a) (ht : s.step a = some t) :
    UpInv t := by
  cases a with
  | tick d => exact h.tick ht
  | listen i => exact h.listen ht
  | record i ntp => exact h.record ht
  | wait i => exact h.wait ht
  | start tracks => exact h.start ht
  | read => exact h.read hok ht

theorem UpInv.of_reachable (hs : Reachable (upSystem ι) Timely s) : UpInv s :=
  hs.invariant (P := UpInv) (by rintro _ rfl; exact .init) fun _ _ _ h hok ht => h.step hok ht

end Reports

/-! ## Round-trip times -/

section RoundTrips

/-- Eight seconds, which nothing that is kept exceeds. -/
def limit : UInt64 := 8 * jiffiesPerSec

def Handling.Bounded : Handling → Prop
  | .measured rtt => rtt ≤ limit
  | .storing newrtt => newrtt ≤ limit
  | _ => True

structure DownInv (s : Down) : Prop where
  rtt : s.rtt ≤ limit
  handlers : ∀ k, (s.handlers k).Bounded

theorem measure_le {report : ReceptionReport} {jiffies srTime srNTPTime rtt : UInt64}
    (h : measure report jiffies srTime srNTPTime = some rtt) : rtt ≤ limit := by
  simp only [measure] at h
  split_ifs at h with hguard hsame hdelay
  cases h
  rw [not_or, UInt64.not_lt, UInt64.not_lt] at hguard
  exact UInt64.le_trans (UInt64.sub_le (UInt64.not_lt.1 hdelay)) hguard.2

/-- Three times eight seconds, and eight more, are far from wrapping around. -/
theorem average_le {oldrtt rtt : UInt64} (hold : oldrtt ≤ limit) (hrtt : rtt ≤ limit) :
    average oldrtt rtt ≤ limit := by
  rw [average]
  split_ifs with h
  · have hlimit : limit.toNat = 196608000 := rfl
    rw [UInt64.le_iff_toNat_le, hlimit] at hold hrtt ⊢
    have : ((3 * oldrtt + rtt) / 4).toNat = (3 * oldrtt.toNat + rtt.toNat) / 4 := by
      rw [UInt64.toNat_div, UInt64.toNat_add, UInt64.toNat_mul]
      change ((3 * oldrtt.toNat) % 2 ^ 64 + rtt.toNat) % 2 ^ 64 / 4 = _
      omega
    omega
  · exact hrtt

variable {s t : Down}

theorem DownInv.setHandler {k : ℕ} {x : Handling} (h : DownInv s) (hx : x.Bounded) :
    DownInv (s.setHandler k x) where
  rtt := h.rtt
  handlers := (Function.forall_update_iff _ fun _ x => Handling.Bounded x).2
    ⟨hx, fun j _ => h.handlers j⟩

theorem DownInv.sender {k : ℕ} (h : DownInv s) (ht : s.step (.sender k) = some t) : DownInv t := by
  simp only [Down.step] at ht
  split at ht <;> cases ht
  · exact ⟨h.rtt, h.handlers⟩
  · exact ⟨h.rtt, h.handlers⟩

theorem DownInv.handler {k : ℕ} (h : DownInv s) (ht : s.step (.handler k) = some t) :
    DownInv t := by
  have hk := h.handlers k
  simp only [Down.step] at ht
  split at ht
  · cases ht
  · cases ht
    exact h.setHandler trivial
  · split at ht <;> cases ht
    · exact h.setHandler trivial
    · next hmeasure => exact h.setHandler (measure_le hmeasure)
  · next rtt hstate =>
    cases ht
    rw [hstate] at hk
    exact h.setHandler (average_le h.rtt hk)
  · next newrtt hstate =>
    cases ht
    rw [hstate] at hk
    exact ⟨hk, (h.setHandler (k := k) (x := .idle) trivial).handlers⟩

theorem DownInv.step {a : DownLabel} (h : DownInv s) (ht : s.step a = some t) : DownInv t := by
  cases a with
  | tick d =>
    simp only [Down.step] at ht
    split_ifs at ht
    cases ht
    exact ⟨h.rtt, h.handlers⟩
  | sendSR k nowNTP =>
    simp only [Down.step] at ht
    split_ifs at ht
    cases ht
    exact ⟨h.rtt, h.handlers⟩
  | handleReport k report =>
    simp only [Down.step] at ht
    split_ifs at ht
    cases ht
    exact h.setHandler trivial
  | sender k => exact h.sender ht
  | handler k => exact h.handler ht

theorem DownInv.of_reachable (hs : Reachable downSystem Always s) : DownInv s :=
  hs.invariant (P := DownInv) (by rintro _ rfl; exact ⟨by decide, fun _ => trivial⟩)
    fun _ _ _ h _ ht => h.step ht

end RoundTrips

/-- Where the reports are in time, everything that is sent upstream is true; and no round-trip time
that is kept downstream exceeds eight seconds. -/
theorem reports_truthful {ι : Type*} [DecidableEq ι] {s : Up ι}
    (hs : Reachable (upSystem ι) Timely s) {d : Down} (hd : Reachable downSystem Always d) :
    (∀ e ∈ s.log, e.Truthful) ∧ d.rtt ≤ 8 * jiffiesPerSec :=
  ⟨(UpInv.of_reachable hs).log, (DownInv.of_reachable hd).rtt⟩

section Samples

instance {ι : Type*} (s : Up ι) (a : UpLabel ι) : Decidable (Timely s a) :=
  match a with
  | .read => inferInstanceAs (Decidable (∀ c ∈ s.call, ∀ i ∈ c.rest.head?,
      ∀ r ∈ (s.tracks i).recorded, r.1 ≤ c.now ∧ (r.1 = 0 → c.now < 375)))
  | .tick _ | .listen _ | .record _ _ | .wait _ | .start _ => .isTrue trivial

/-- A sender report comes in, and two units of delay later the sender reads the track. -/
def early : List (UpLabel Unit) :=
  [.tick 375, .listen (), .record () 0x123456789, .wait (), .tick 750, .start [()], .read]

/-- The sender reads the clock, and then a sender report comes in. -/
def late : List (UpLabel Unit) :=
  [.start [()], .tick 500, .listen (), .record () 0x123456789, .read]

/-- A sender report goes out, and is answered after a while. -/
def answered : List DownLabel :=
  [.tick 375, .sendSR 0 0x123456789, .sender 0, .sender 0, .tick 750, .handleReport 0 ⟨0x12345, 1⟩,
    .handler 0, .handler 0, .handler 0, .handler 0]

theorem truthful_early : ∃ (s : Up Unit) (d : Down),
    s.log.map Entry.report = [⟨0x12345, 2⟩] ∧ d.rtt = 375 ∧
    (∀ e ∈ s.log, e.Truthful) ∧ d.rtt ≤ 8 * jiffiesPerSec := by
  have hup : (upSystem Unit).exec Timely {} early =
      some (((upSystem Unit).exec Timely {} early).get (by decide)) := (Option.some_get _).symm
  have hdown : downSystem.exec Always {} answered =
      some ((downSystem.exec Always {} answered).get (by decide)) := (Option.some_get _).symm
  have h := reports_truthful (Reachable.exec (.init rfl) hup) (Reachable.exec (.init rfl) hdown)
  exact ⟨_, _, by decide, by decide, h⟩

/-- The delay of a report that came in after the clock had been read has wrapped around. -/
theorem not_truthful_late :
    ¬ ∀ (s : Up Unit) (d : Down), Reachable (upSystem Unit) Always s →
      Reachable downSystem Always d → (∀ e ∈ s.log, e.Truthful) ∧ d.rtt ≤ 8 * jiffiesPerSec := by
  intro h
  have hrun : (upSystem Unit).exec Always {} late =
      some (((upSystem Unit).exec Always {} late).get (by decide)) := (Option.some_get _).symm
  obtain ⟨-, u, -, hmade, htime, hdelay⟩ :=
    (h _ {} (Reachable.exec (.init rfl) hrun) (.init rfl)).1 _ (List.mem_singleton.2 rfl) _ _ rfl
  have hu : u = 500 := Nat.le_antisymm hmade htime
  rw [hu] at hdelay
  exact absurd hdelay (by decide)

end Samples

end Sozvon.RtcpTimes
