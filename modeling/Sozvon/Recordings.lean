import Sozvon.Recorder

/-!
# Files and their samples

A track that has a writer has an origin, unless the origins have been reset
since: the file of a keyframe that is popped then has no origins, and neither has
a track that is flushed and has not had a packet for the file that is closed. So a
run of the recorder is watched for the tracks of which a packet has come in.
-/
namespace Sozvon.DiskWriter
open Runs

/-- The sample is from before the origin, or 2³¹ ticks after it. -/
def Popped.Older (p : Popped) : Prop := ∃ origin ∈ p.origin, Timestamp.diff p.sample.ts origin < 0

def Outcome.file : Outcome → Option File
  | .written file _ _ _ => some file
  | _ => none

/-- The sample is not lost for want of an origin. If it is of the video track, then it is written
to the file that has been opened for it, or else to the one that it found. -/
def Entry.Kept (e : Entry) : Prop :=
  e.outcome ≠ .invalidOrigin ∧
  (e.track = .video →
    (∀ file ∈ e.opened, e.outcome.file = some file) ∧
    (e.opened = none → ¬ e.Older → ∀ file ∈ e.file, e.outcome.file = some file))

namespace Recorder

variable (s : Recorder)

/-- A sample for which a file is opened where none is. -/
def Opens (k : Kind) (ts : UInt32) : Prop :=
  match k with
  | .video => (s.tracks .video).savedKf.map Packet.timestamp = some ts
  | .audio => s.hasVideo = false

/-- A sample that is 2³¹ ticks after the origin. -/
def Around (k : Kind) (ts : UInt32) : Prop :=
  ∃ origin ∈ s.origin k, Timestamp.diff ts origin < 0 ∧ ¬ origin - ts < 0x10000

/-- A sample from before the origin, which is left out. -/
def Late (k : Kind) (ts : UInt32) : Prop :=
  ∃ origin ∈ s.origin k, Timestamp.diff ts origin < 0 ∧ origin - ts < 0x10000

/-- The track for which files are opened. -/
def main : Kind := if s.hasVideo then .video else .audio

/-- A sample that is popped finds things in order. The track of a keyframe that opens a file, or
might have, has its origin still, the keyframe is not around it, and no file of another size is
open. Where the track is being flushed, there is no other track if a file is opened, and a packet
of it has come in if it has a writer, unless it is the track for which files are opened. -/
def Settled (s : Recorder) (heard : List Kind) (call : Writing) (ts : UInt32) : Prop :=
  (s.Opens call.track ts → ¬ s.Late call.track ts →
    s.origin call.track ≠ none ∧ ¬ s.Around call.track ts ∧
    (call.track = .video → s.file ≠ none → ∀ kf ∈ (s.tracks .video).savedKf,
      kf.width = s.width ∧ kf.height = s.height) ∧
    (call.force → s.file = none → s.kinds = [call.track])) ∧
  (call.force → (s.tracks call.track).writer ≠ none → call.track ≠ s.main → call.track ∈ heard)

end Recorder

/-- A recorder, with the tracks of which a packet has come in since the connection got its start,
which may be one that `close` has taken away since. -/
structure Watched where
  recorder : Recorder
  heard : List Kind := []

namespace Watched

/-- The tracks that have been heard of once a step has led to `t`. -/
def hear (w : Watched) (t : Recorder) : RecorderLabel → List Kind
  | .writeRTP k _ _ =>
      let heard := if w.recorder.origins.originLocal = none then [] else w.heard
      if t.origins.originLocal = none then heard else k :: heard
  | _ => w.heard

def Steady (w : Watched) : RecorderLabel → Prop
  | .pop (some sample) =>
      match w.recorder.control with
      | .pop call => w.recorder.Settled w.heard call sample.ts
      | _ => True
  | _ => True

end Watched

/-- The runs of the recorder, watched. -/
def watchedSystem (clockRate : Kind → ℕ) : System Watched RecorderLabel where
  init w := (recorderSystem clockRate).init w.recorder ∧ w.heard = []
  step w a := (w.recorder.step clockRate a).map fun t => ⟨t, w.hear t a⟩

/-- To watch a run is not to change it. -/
theorem reachable_watched {clockRate : Kind → ℕ} {s : Recorder}
    (hs : Reachable (recorderSystem clockRate) Always s) :
    ∃ heard, Reachable (watchedSystem clockRate) Always ⟨s, heard⟩ := by
  induction hs with
  | init hs => exact ⟨[], .init ⟨hs, rfl⟩⟩
  | @step s t a _ _ ht ih =>
    obtain ⟨heard, hw⟩ := ih
    refine ⟨Watched.hear ⟨s, heard⟩ t a, .step (a := a) hw trivial ?_⟩
    exact congrArg (Option.map fun t => Watched.mk t (Watched.hear ⟨s, heard⟩ t a)) ht

namespace Recorder

variable (s : Recorder) (heard : List Kind)

/-! ### What holds between the steps -/

structure Shut (k : Kind) : Prop where
  writer : (s.tracks k).writer = none
  origin : s.origin k = none

/-- A file that is open has a writer in the main track, whose origin is there; an origin has a local
time, and with one a track that has been heard of has an origin. -/
structure Open (s : Recorder) (heard : List Kind) : Prop where
  writers : ∀ f ∈ s.file, ∀ k ∈ s.kinds, (s.tracks k).writer = some f
  origin : s.file ≠ none → s.origin s.main ≠ none
  started : ∀ k ∈ s.kinds, s.origin k ≠ none → s.origins.originLocal ≠ none
  heard : s.origins.originLocal ≠ none → ∀ k ∈ heard, s.origin k ≠ none

/-- What is left of this while a file is closed. -/
structure MainOpen (s : Recorder) (heard : List Kind) : Prop where
  writer : ∀ f ∈ s.file, (s.tracks s.main).writer = some f
  origin : s.file ≠ none → s.origin s.main ≠ none
  heard : ∀ k ∈ s.kinds, k ∈ heard → (s.tracks k).writer ≠ none → s.origin k ≠ none

end Recorder

mutual

/-- A call that is under way is about a track of the connection, and the samples that have led to
a call of `close` open no file when it returns. -/
def Writing.Calm (kinds : List Kind) (opens : Kind → UInt32 → Prop) : Writing → Prop
  | .writeRTP k => k ∈ kinds
  | .close k rest call => k :: rest <:+ kinds ∧ call.Calm kinds opens

def Closing.Calm (kinds : List Kind) (opens : Kind → UInt32 → Prop) : Closing → Prop
  | .closeConn => True
  | .writeBuffered call p size =>
      call.Calm kinds opens ∧ size = none ∧ ¬ opens call.track p.sample.ts ∧ p.Older

end

namespace Recorder

def Writes (s : Recorder) (heard : List Kind) : Writing → Prop
  | .writeRTP k => s.Open heard ∧ (s.file ≠ none → s.origin k ≠ none)
  | .close k rest _ => (∀ j ∈ s.kinds, j ∉ k :: rest → s.Shut j) ∧ s.MainOpen heard ∧
      s.origins.originLocal = none

def Holds (s : Recorder) (heard : List Kind) : Control → Prop
  | .idle => s.Open heard
  | .pop call => call.Calm s.kinds s.Opens ∧ s.Writes heard call
  | .close rest call => call.Calm s.kinds s.Opens ∧ rest <:+ s.kinds ∧
      (∀ j ∈ s.kinds, j ∉ rest → s.Shut j) ∧ (rest ≠ [] → s.MainOpen heard) ∧
      s.origins.originLocal = none

structure Base (s : Recorder) : Prop where
  kinds : s.kinds ∈ [[.audio], [.video], [.audio, .video]]
  writers : ∀ k ∈ s.kinds, ∀ f ∈ (s.tracks k).writer, s.file = some f
  log : ∀ e ∈ s.log, e.Kept

structure Inv (s : Recorder) (heard : List Kind) : Prop extends Base s where
  control : s.Holds heard s.control

variable {clockRate : Kind → ℕ} {s t : Recorder} {heard : List Kind} {call : Writing} {p : Popped}

/-! ### Writing a sample -/

/-- The sample is written where it should be, if there is a writer. -/
structure Fit (s : Recorder) (call : Writing) (p : Popped) (opened : Option File) : Prop where
  valid : (s.tracks call.track).writer ≠ none → s.origin call.track ≠ none
  fresh : call.track = .video → ∀ f ∈ opened, (s.tracks call.track).writer = some f
  found : call.track = .video → opened = none → ¬ p.Older → ∀ f ∈ p.file,
    (s.tracks call.track).writer = some f

theorem write_eq (clockRate : Kind → ℕ) (keyframe : Bool) {opened : Option File}
    (h : s.Fit call p opened) :
    ∃ e : Entry, e.Kept ∧ s.write clockRate call p keyframe opened =
      { s with control := .pop call, log := s.log ++ [e] } := by
  rw [Recorder.write]
  cases hw : (s.tracks call.track).writer with
  | none =>
    refine ⟨_, ⟨?_, fun hvideo => ⟨fun f hf => ?_, fun hnone hold f hf => ?_⟩⟩, rfl⟩
    · exact Outcome.noConfusion
    · cases hw.symm.trans (h.fresh hvideo f hf)
    · cases hw.symm.trans (h.found hvideo hnone hold f hf)
  | some file =>
    have hvalid := h.valid (by simp [hw])
    cases ho : s.origin call.track with
    | none => exact absurd ho hvalid
    | some origin =>
      refine ⟨_, ⟨?_, fun hvideo => ⟨fun f hf => ?_, fun hnone hold f hf => ?_⟩⟩, rfl⟩
      · exact Outcome.noConfusion
      · exact hw.symm.trans (h.fresh hvideo f hf)
      · exact hw.symm.trans (h.found hvideo hnone hold f hf)

/-- The loop goes on after a sample that is kept. -/
theorem Base.record {e : Entry} (h : s.Base) (hcalm : call.Calm s.kinds s.Opens)
    (hwrites : s.Writes heard call) (he : e.Kept) :
    Inv { s with control := .pop call, log := s.log ++ [e] } heard := by
  refine ⟨⟨h.kinds, h.writers, fun e' he' => ?_⟩, hcalm, ?_⟩
  · rcases List.mem_append.1 he' with he' | he'
    · exact h.log e' he'
    · exact List.mem_singleton.1 he' ▸ he
  · cases call with
    | writeRTP k =>
      exact ⟨⟨hwrites.1.writers, hwrites.1.origin, hwrites.1.started, hwrites.1.heard⟩, hwrites.2⟩
    | close k rest c =>
      exact ⟨fun j hj hne => ⟨(hwrites.1 j hj hne).writer, (hwrites.1 j hj hne).origin⟩,
        ⟨hwrites.2.1.writer, hwrites.2.1.origin, hwrites.2.1.heard⟩, hwrites.2.2⟩

theorem Base.write {keyframe : Bool} {opened : Option File} (h : s.Base)
    (hcalm : call.Calm s.kinds s.Opens) (hwrites : s.Writes heard call)
    (hfit : s.Fit call p opened) : (s.write clockRate call p keyframe opened).Inv heard := by
  obtain ⟨e, he, heq⟩ := write_eq clockRate keyframe hfit
  rw [heq]
  exact h.record hcalm hwrites he

theorem track_mem (hcalm : call.Calm s.kinds s.Opens) : call.track ∈ s.kinds := by
  cases call with
  | writeRTP k => exact hcalm
  | close k rest c => exact hcalm.1.subset List.mem_cons_self

theorem main_video (h : .video ∈ s.kinds) : s.main = .video := if_pos (decide_eq_true h)

theorem Base.main_mem (h : s.Base) : s.main ∈ s.kinds := by
  have hkinds := h.kinds
  simp only [List.mem_cons, List.not_mem_nil, or_false] at hkinds
  rcases hkinds with hk | hk | hk <;> simp [main, hasVideo, hk]

theorem Base.openMain (h : s.Base) (hopen : s.Open heard) : s.MainOpen heard where
  writer f hf := hopen.writers f hf _ h.main_mem
  origin := hopen.origin
  heard k hk hheard hw := by
    obtain ⟨f, hf⟩ := Option.ne_none_iff_exists'.1 hw
    have hfile : s.file ≠ none := Option.ne_none_iff_exists'.2 ⟨f, h.writers k hk f hf⟩
    exact hopen.heard (hopen.started _ h.main_mem (hopen.origin hfile)) k hheard

/-- Whatever call is under way, a file that is open has a writer in the main track. -/
theorem Base.mainOpen (h : s.Base) (hwrites : s.Writes heard call) : s.MainOpen heard := by
  cases call with
  | writeRTP k => exact h.openMain hwrites.1
  | close k rest c => exact hwrites.2.1

theorem openFile_opens {width height : UInt32} {k : Kind} {ts : UInt32} :
    (s.openFile clockRate width height k ts).Opens = s.Opens := by
  funext j ts'
  cases j with
  | audio => rfl
  | video =>
    simp only [Opens, openFile]
    split_ifs <;> rfl

theorem Base.openAndWrite {width height : UInt32} (h : s.Base)
    (hcalm : call.Calm s.kinds s.Opens) (hwrites : s.Writes heard call)
    (hmain : call.track = s.main) (horigin : s.origin call.track ≠ none)
    (hforce : call.force → s.kinds = [call.track]) :
    (s.openAndWrite clockRate width height call p).Inv heard := by
  have hmem := track_mem hcalm
  have horigin' : ∀ j, (s.openFile clockRate width height call.track p.sample.ts).origin j = none ↔
      s.origin j = none := fun j => Origins.adjustOrigin_origin j
  have hwriter : ∀ j ∈ s.kinds,
      ((s.openFile clockRate width height call.track p.sample.ts).tracks j).writer =
        some s.files := fun j hj => by simp [openFile, hj]
  refine Base.write ⟨h.kinds, fun j hj f hf => ?_, h.log⟩ ?_ ?_
    ⟨fun _ => ?_, fun _ f hf => ?_, nofun⟩
  · exact (hwriter j hj).symm.trans hf
  · rw [openFile_opens]
    exact hcalm
  · cases call with
    | writeRTP k =>
      refine ⟨⟨fun f hf j hj => (hwriter j hj).trans hf, fun _ => ?_, fun j hj hne => ?_,
        fun hstarted j hj => ?_⟩, fun _ => ?_⟩
      · exact mt (horigin' _).1 (hmain ▸ horigin)
      · exact mt Origins.adjustOrigin_started.1 (hwrites.1.started j hj (mt (horigin' j).2 hne))
      · exact mt (horigin' j).1 (hwrites.1.heard (mt Origins.adjustOrigin_started.2 hstarted) j hj)
      · exact mt (horigin' _).1 horigin
    | close k rest c =>
      have honly : ∀ j ∈ s.kinds, j = k := fun j hj => by
        rw [hforce rfl] at hj
        exact List.mem_singleton.1 hj
      refine ⟨fun j hj hne => absurd (honly j hj ▸ List.mem_cons_self) hne,
        ⟨fun f hf => (hwriter _ h.main_mem).trans hf, fun _ => ?_, fun j hj _ _ => ?_⟩,
        Origins.adjustOrigin_started.2 hwrites.2.2⟩
      · exact mt (horigin' _).1 (hmain ▸ horigin)
      · exact mt (horigin' j).1 (honly j hj ▸ horigin)
  · exact mt (horigin' _).1 horigin
  · exact (hwriter _ hmem).trans hf

/-- What a sample needs that is about to be written. -/
structure Ready (s : Recorder) (call : Writing) (p : Popped) : Prop where
  opens : s.Opens call.track p.sample.ts → s.origin call.track ≠ none ∧
    (call.track = .video → s.file ≠ none → ∀ kf ∈ (s.tracks .video).savedKf,
      kf.width = s.width ∧ kf.height = s.height) ∧
    (call.force → s.file = none → s.kinds = [call.track])
  valid : (s.tracks call.track).writer ≠ none → s.origin call.track ≠ none
  found : ¬ p.Older → ∀ f ∈ p.file, s.file = some f

/-- A track that has a writer and is not being closed has an origin, and so has one that has been
heard of and the one for which files are opened. -/
theorem Base.valid {ts : UInt32} (h : s.Base) (hcalm : call.Calm s.kinds s.Opens)
    (hwrites : s.Writes heard call) (hset : s.Settled heard call ts)
    (hw : (s.tracks call.track).writer ≠ none) : s.origin call.track ≠ none := by
  have hmem := track_mem hcalm
  obtain ⟨f, hf⟩ := Option.ne_none_iff_exists'.1 hw
  have hfile : s.file ≠ none := Option.ne_none_iff_exists'.2 ⟨f, h.writers _ hmem f hf⟩
  cases call with
  | writeRTP k => exact hwrites.2 hfile
  | close k rest c =>
    by_cases hmain : k = s.main
    · exact hmain ▸ hwrites.2.1.origin hfile
    · exact hwrites.2.1.heard k hmem (hset.2 rfl hw hmain) hw

theorem Base.fit (h : s.Base) (hcalm : call.Calm s.kinds s.Opens) (hwrites : s.Writes heard call)
    (hready : s.Ready call p) : s.Fit call p none where
  valid := hready.valid
  fresh _ := nofun
  found hvideo _ hold f hf := by
    have hmain : s.main = call.track :=
      (main_video (hvideo ▸ track_mem hcalm)).trans hvideo.symm
    exact hmain ▸ (h.mainOpen hwrites).writer f (hready.found hold f hf)

theorem Base.initWriter {width height : UInt32} (h : s.Base) (hcalm : call.Calm s.kinds s.Opens)
    (hwrites : s.Writes heard call) (hready : s.Ready call p) (hmain : call.track = s.main)
    (hopens : s.Opens call.track p.sample.ts)
    (hsize : s.file ≠ none → width = s.width ∧ height = s.height) :
    (s.initWriter clockRate width height call p).Inv heard := by
  obtain ⟨horigin, -, hforce⟩ := hready.opens hopens
  rw [Recorder.initWriter]
  split_ifs with hfile hdim
  · exact h.write hcalm hwrites (h.fit hcalm hwrites hready)
  · exact absurd (hsize hfile) hdim
  · exact h.openAndWrite hcalm hwrites hmain horigin fun hf => hforce hf (not_not.1 hfile)

theorem Base.writeSample (h : s.Base) (hcalm : call.Calm s.kinds s.Opens)
    (hwrites : s.Writes heard call) (hready : s.Ready call p) :
    (s.writeSample clockRate call p).Inv heard := by
  have hmem := track_mem hcalm
  have hwrite : ∀ keyframe, (s.write clockRate call p keyframe none).Inv heard := fun _ =>
    h.write hcalm hwrites (h.fit hcalm hwrites hready)
  cases hk : call.track with
  | video =>
    have hmain : call.track = s.main := hk.trans (main_video (hk ▸ hmem)).symm
    simp only [Recorder.writeSample, hk]
    cases hkf : (s.tracks .video).savedKf with
    | none => exact hwrite false
    | some kf =>
      simp only
      split_ifs with hts
      · have hopens : s.Opens call.track p.sample.ts := by
          rw [hk, hts]
          exact congrArg (Option.map Packet.timestamp) hkf
        refine h.initWriter hcalm hwrites hready hmain hopens fun hfile => ?_
        exact (hready.opens hopens).2.1 hk hfile kf hkf
      · exact hwrite false
  | audio =>
    simp only [Recorder.writeSample, hk]
    split_ifs with hnone
    · obtain ⟨hw, hvideo⟩ := hnone
      rw [Bool.not_eq_true] at hvideo
      have hmain : call.track = s.main := by simp [main, hvideo, hk]
      have hopens : s.Opens call.track p.sample.ts := by
        rw [hk]
        exact hvideo
      refine h.initWriter hcalm hwrites hready hmain hopens fun hfile => ?_
      obtain ⟨f, hf⟩ := Option.ne_none_iff_exists'.1 hfile
      cases hw.symm.trans (hmain.symm.trans hk ▸ (h.mainOpen hwrites).writer f hf)
    · exact hwrite true

/-- A sample that is popped is written, or left out for being late, or else all files are closed
first. -/
theorem Base.popped {sample : Sample} (h : s.Base) (hcalm : call.Calm s.kinds s.Opens)
    (hwrites : s.Writes heard call) (hset : s.Settled heard call sample.ts) :
    (s.popped clockRate call sample).Inv heard := by
  let found : Popped := { sample, file := s.file, origin := s.origin call.track }
  have hwrite (hnot : ¬ s.Late call.track sample.ts) :
      (s.writeSample clockRate call found).Inv heard := by
    refine h.writeSample hcalm hwrites ⟨fun hopens => ?_, h.valid hcalm hwrites hset,
      fun _ f hf => hf⟩
    obtain ⟨horigin, -, hsize, honly⟩ := hset.1 hopens hnot
    exact ⟨horigin, hsize, honly⟩
  simp only [Recorder.popped]
  split
  · next ho =>
    refine hwrite ?_
    rintro ⟨origin, horigin, -⟩
    cases ho.symm.trans horigin
  · next origin ho =>
    have hsame : ∀ origin' ∈ s.origin call.track, origin' = origin := fun origin' horigin' =>
      Option.some.inj (horigin'.symm.trans ho)
    split_ifs with hold hlate
    · refine h.record hcalm hwrites ⟨Outcome.noConfusion, fun _ => ⟨nofun, fun _ hnot => ?_⟩⟩
      exact absurd ⟨origin, ho, hold⟩ hnot
    · have hnot : ¬ s.Late call.track sample.ts := by
        rintro ⟨origin', horigin', -, hlate'⟩
        exact hlate (hsame origin' horigin' ▸ hlate')
      refine ⟨⟨h.kinds, h.writers, h.log⟩, ⟨hcalm, rfl, fun hopens => ?_, origin, ho, hold⟩,
        List.suffix_rfl, fun j hj hne => absurd hj hne, fun _ => ?_, rfl⟩
      · exact (hset.1 hopens hnot).2.1 ⟨origin, ho, hold, hlate⟩
      · obtain ⟨hwriter, horigin, hheard⟩ := h.mainOpen hwrites
        exact ⟨hwriter, horigin, hheard⟩
    · refine hwrite ?_
      rintro ⟨origin', horigin', hold', -⟩
      exact hold (hsame origin' horigin' ▸ hold')

/-! ### Closing -/

theorem closeTrack_opens (s : Recorder) (k : Kind) : (s.closeTrack k).Opens = s.Opens := by
  funext j ts
  cases j with
  | audio => rfl
  | video => cases k <;> rfl

theorem closeTrack_shut (s : Recorder) (k : Kind) : (s.closeTrack k).Shut k := by
  constructor <;> simp [closeTrack, origin]

theorem Shut.closeTrack {j k : Kind} (h : s.Shut j) : (s.closeTrack k).Shut j := by
  by_cases hj : j = k
  · exact hj ▸ s.closeTrack_shut k
  · exact ⟨by simpa [Recorder.closeTrack, hj] using h.writer,
      by simpa [Recorder.closeTrack, Recorder.origin, hj] using h.origin⟩

/-- The main track is the last one. -/
theorem Base.main_ne (h : s.Base) {k : Kind} {rest : List Kind} (hrest : rest ≠ [])
    (hsuffix : k :: rest <:+ s.kinds) : s.main ≠ k := by
  have hkinds := h.kinds
  simp only [List.mem_cons, List.not_mem_nil, or_false] at hkinds
  rintro rfl
  rcases hkinds with hk | hk | hk
  all_goals
    rw [hk] at hsuffix
    simp [List.suffix_cons_iff, main, hasVideo, hk, hrest] at hsuffix

/-- The file stays open for the tracks that are still to be flushed. -/
theorem Base.endWriting (h : s.Base) (hcalm : call.Calm s.kinds s.Opens)
    (hwrites : s.Writes heard call) : (s.endWriting call).Inv heard := by
  cases call with
  | writeRTP k =>
    exact ⟨⟨h.kinds, h.writers, h.log⟩, hwrites.1.writers, hwrites.1.origin, hwrites.1.started,
      hwrites.1.heard⟩
  | close k rest c =>
    obtain ⟨hsuffix, hc⟩ := hcalm
    have hshut : ∀ j ∈ s.kinds, j ∉ rest → (s.closeTrack k).Shut j := fun j hj hne => by
      by_cases hjk : j = k
      · exact hjk ▸ s.closeTrack_shut k
      · exact (hwrites.1 j hj fun hmem => (List.mem_cons.1 hmem).elim hjk hne).closeTrack
    have hwriter : ∀ j, j ≠ k → ((s.closeTrack k).tracks j).writer = (s.tracks j).writer :=
      fun j hjk => by simp [closeTrack, hjk]
    refine ⟨⟨h.kinds, fun j hj f hf => ?_, h.log⟩, ?_, (List.suffix_cons k rest).trans hsuffix,
      fun j hj hne => ⟨(hshut j hj hne).writer, (hshut j hj hne).origin⟩, fun hrest => ?_,
      hwrites.2.2⟩
    · by_cases hjk : j = k
      · subst hjk
        cases (s.closeTrack_shut j).writer.symm.trans hf
      · exact h.writers j hj f ((hwriter j hjk).symm.trans hf)
    · change c.Calm s.kinds (s.closeTrack k).Opens
      rwa [closeTrack_opens]
    · have horigin : ∀ j, j ≠ k → (s.closeTrack k).origin j = s.origin j :=
        fun j hjk => by simp [closeTrack, origin, hjk]
      have hmain := h.main_ne hrest hsuffix
      refine ⟨fun f hf => (hwriter s.main hmain).trans (hwrites.2.1.writer f hf),
        fun hfile => ?_, fun j hj hheard hw => ?_⟩
      · exact fun hnone => hwrites.2.1.origin hfile ((horigin s.main hmain).symm.trans hnone)
      · have hjk : j ≠ k := fun heq => hw (heq ▸ (s.closeTrack_shut k).writer)
        have hw' : (s.tracks j).writer ≠ none := hwriter j hjk ▸ hw
        exact fun hnone => hwrites.2.1.heard j hj hheard hw' ((horigin j hjk).symm.trans hnone)

/-- Once all tracks are shut, what is under way goes on without a file. -/
theorem Base.endClosing {call : Closing} (h : s.Base) (hcalm : call.Calm s.kinds s.Opens)
    (hshut : ∀ k ∈ s.kinds, s.Shut k) (hlocal : s.origins.originLocal = none) :
    (({ s with file := none } : Recorder).endClosing clockRate call).Inv heard := by
  have hbase : Base { s with file := none } := by
    refine ⟨h.kinds, fun k hk f hf => ?_, h.log⟩
    cases (hshut k hk).writer.symm.trans hf
  have hopen : Open { s with file := none } heard :=
    ⟨nofun, fun hne => absurd rfl hne, fun k hk hne => absurd (hshut k hk).origin hne,
      fun hstarted => absurd hlocal hstarted⟩
  cases call with
  | closeConn =>
    exact ⟨⟨hbase.kinds, hbase.writers, hbase.log⟩, hopen.writers, hopen.origin, hopen.started,
      hopen.heard⟩
  | writeBuffered call p size =>
    obtain ⟨hcall, rfl, hopens, hold⟩ := hcalm
    have hwrites : Writes { s with file := none } heard call := by
      cases call with
      | writeRTP k => exact ⟨hopen, fun hne => absurd rfl hne⟩
      | close k rest c =>
        exact ⟨fun j hj _ => ⟨(hshut j hj).writer, (hshut j hj).origin⟩, ⟨nofun,
          fun hne => absurd rfl hne, fun j hj _ hw => absurd (hshut j hj).writer hw⟩, hlocal⟩
    refine hbase.writeSample hcall hwrites ⟨fun hop => absurd hop hopens, fun hw => ?_, ?_⟩
    · exact absurd (hshut _ (track_mem hcall)).writer hw
    · exact fun hnot => absurd hold hnot

theorem Inv.next (h : s.Inv heard) (ht : s.step clockRate .next = some t) : t.Inv heard := by
  have hcontrol := h.control
  simp only [step] at ht
  split at ht
  · next k rest call hc =>
    cases ht
    rw [hc] at hcontrol
    obtain ⟨hcalm, hsuffix, hshut, hmain, hlocal⟩ := hcontrol
    obtain ⟨hwriter, horigin, hheard⟩ := hmain nofun
    exact ⟨⟨h.kinds, h.writers, h.log⟩, ⟨hsuffix, hcalm⟩,
      fun j hj hne => ⟨(hshut j hj hne).writer, (hshut j hj hne).origin⟩,
      ⟨hwriter, horigin, hheard⟩, hlocal⟩
  · next call hc =>
    cases ht
    rw [hc] at hcontrol
    obtain ⟨hcalm, -, hshut, -, hlocal⟩ := hcontrol
    exact h.toBase.endClosing hcalm (fun k hk => hshut k hk List.not_mem_nil) hlocal
  · cases ht

theorem Inv.closeConn (h : s.Inv heard) (ht : s.step clockRate .closeConn = some t) :
    t.Inv heard := by
  have hcontrol := h.control
  simp only [step] at ht
  split at ht
  · next hc =>
    cases ht
    rw [hc] at hcontrol
    obtain ⟨hwriter, horigin, hheard⟩ := h.openMain hcontrol
    exact ⟨⟨h.kinds, h.writers, h.log⟩, trivial, List.suffix_rfl,
      fun j hj hne => absurd hj hne, fun _ => ⟨hwriter, horigin, hheard⟩, rfl⟩
  · cases ht

theorem Inv.pop {sample : Option Sample} (h : s.Inv heard)
    (hok : Watched.Steady ⟨s, heard⟩ (.pop sample))
    (ht : s.step clockRate (.pop sample) = some t) : t.Inv heard := by
  have hcontrol := h.control
  simp only [step] at ht
  split at ht
  · next call hc =>
    cases ht
    rw [hc] at hcontrol
    exact h.toBase.endWriting hcontrol.1 hcontrol.2
  · next call sample hc =>
    cases ht
    rw [hc] at hcontrol
    simp only [Watched.Steady, hc] at hok
    exact h.toBase.popped hcontrol.1 hcontrol.2 hok
  · cases ht

/-! ### Packets and reports -/

/-- Origins are set, and nothing else is changed that matters to the files. -/
structure Grows (s t : Recorder) : Prop where
  kinds : t.kinds = s.kinds
  file : t.file = s.file
  log : t.log = s.log
  writers : ∀ k, (t.tracks k).writer = (s.tracks k).writer
  origin : ∀ k, s.origin k ≠ none → t.origin k ≠ none
  started : s.origins.originLocal ≠ none → t.origins.originLocal ≠ none
  fresh : ∀ k, t.origin k ≠ none → s.origin k ≠ none ∨ t.origins.originLocal ≠ none

theorem Grows.base (hst : Grows s t) (h : s.Base) : t.Base where
  kinds := hst.kinds ▸ h.kinds
  writers k hk f hf :=
    hst.file.trans (h.writers k (hst.kinds ▸ hk) f ((hst.writers k).symm.trans hf))
  log := hst.log ▸ h.log

theorem Grows.main (hst : Grows s t) : t.main = s.main := by
  rw [Recorder.main, Recorder.main, hasVideo, hasVideo, hst.kinds]

theorem Grows.open {heard' : List Kind} (hst : Grows s t) (h : s.Open heard)
    (hheard : t.origins.originLocal ≠ none → ∀ k ∈ heard', t.origin k ≠ none) :
    t.Open heard' where
  writers f hf k hk :=
    (hst.writers k).trans (h.writers f (hst.file.symm.trans hf) k (hst.kinds ▸ hk))
  origin hfile := hst.main ▸ hst.origin _ (h.origin (hst.file ▸ hfile))
  started k hk hne := (hst.fresh k hne).elim
    (fun hs => hst.started (h.started k (hst.kinds ▸ hk) hs)) id
  heard := hheard

theorem Grows.trans {r : Recorder} (hrs : Grows r s) (hst : Grows s t) : Grows r t where
  kinds := hst.kinds.trans hrs.kinds
  file := hst.file.trans hrs.file
  log := hst.log.trans hrs.log
  writers k := (hst.writers k).trans (hrs.writers k)
  origin k h := hst.origin k (hrs.origin k h)
  started h := hst.started (hrs.started h)
  fresh k h := (hst.fresh k h).elim (fun hs => (hrs.fresh k hs).imp_right hst.started) .inr

theorem Grows.refl (s : Recorder) : Grows s s where
  kinds := rfl
  file := rfl
  log := rfl
  writers _ := rfl
  origin _ h := h
  started h := h
  fresh _ := .inl

theorem grows_setOrigin (k : Kind) (ts : UInt32) (now : ℤ) :
    Grows s (s.setOrigin clockRate k ts now) where
  kinds := rfl
  file := rfl
  log := rfl
  writers _ := rfl
  origin j h := by
    by_cases hj : j = k
    · exact hj ▸ Origins.setOrigin_self now
    · refine fun hnone => h (Eq.trans ?_ hnone)
      exact congrArg TrackOrigin.origin (Origins.setOrigin_of_ne hj now).symm
  started _ := Origins.setOrigin_started now
  fresh _ _ := .inr (Origins.setOrigin_started now)

theorem grows_savedKf (k : Kind) (p : Packet) :
    Grows s { s with
      tracks := Function.update s.tracks k { s.tracks k with savedKf := some p } } where
  kinds := rfl
  file := rfl
  log := rfl
  writers j := by
    by_cases hj : j = k
    · subst hj
      simp
    · simp [hj]
  origin _ h := h
  started h := h
  fresh _ := .inl

/-- A packet that comes in when there is a start, or sets it, leaves its track with an origin. -/
theorem writeRTP_eq (clockRate : Kind → ℕ) (s : Recorder) (k : Kind) (packet : Packet)
    (now : ℤ) : ∃ r, Grows s r ∧ (r.origins.originLocal ≠ none → r.origin k ≠ none) ∧
    s.writeRTP clockRate k packet now = { r with control := .pop (.writeRTP k) } := by
  have hfirst : ∀ u : Recorder, Grows u (if u.origin k = none then
      u.setOrigin clockRate k packet.timestamp now else u) := fun u => by
    split_ifs
    · exact grows_setOrigin k _ now
    · exact .refl u
  have hsecond : ∀ u : Recorder, Grows u (if u.origin k = none ∧
      (¬ u.hasVideo ∨ u.origins.originLocal ≠ none) then
      u.setOrigin clockRate k packet.timestamp now else u) := fun u => by
    split_ifs
    · exact grows_setOrigin k _ now
    · exact .refl u
  have hset : ∀ u v : Recorder, (if u.origin k = none ∧
      (¬ u.hasVideo ∨ u.origins.originLocal ≠ none) then
      u.setOrigin clockRate k packet.timestamp now else u) = v →
      v.origins.originLocal ≠ none → v.origin k ≠ none := fun u v huv hv => by
    subst huv
    split_ifs at hv ⊢ with hcond
    · exact Origins.setOrigin_self now
    · exact fun hnone => hcond ⟨hnone, .inr hv⟩
  have hkf : Grows s (if k = .video ∧ packet.keyframe then
      let t := { s.tracks k with savedKf := some packet }
      let s := { s with tracks := Function.update s.tracks k t }
      if s.origin k = none then s.setOrigin clockRate k packet.timestamp now else s else s) := by
    split_ifs
    · exact (grows_savedKf k packet).trans (hfirst _)
    · exact .refl s
  exact ⟨_, hkf.trans (hsecond _), hset _ _ rfl, rfl⟩

/-- After a packet there is an origin, if the file that is open has one. -/
theorem Inv.writeRTP {k : Kind} {packet : Packet} {now : ℤ} (h : s.Inv heard)
    (ht : s.step clockRate (.writeRTP k packet now) = some t) :
    t.Inv (Watched.hear ⟨s, heard⟩ t (.writeRTP k packet now)) := by
  have hcontrol := h.control
  simp only [step] at ht
  split at ht
  · next hc =>
    split_ifs at ht with hk
    cases ht
    rw [hc] at hcontrol
    obtain ⟨r, hgrows, hset, heq⟩ := writeRTP_eq clockRate s k packet now
    rw [heq]
    have hheard : r.origins.originLocal ≠ none →
        ∀ j ∈ Watched.hear ⟨s, heard⟩ r (.writeRTP k packet now), r.origin j ≠ none := by
      intro hlocal j hj
      rw [Watched.hear] at hj
      dsimp only at hj
      rw [if_neg hlocal] at hj
      rcases List.mem_cons.1 hj with rfl | hj
      · exact hset hlocal
      · split_ifs at hj with hbefore
        · cases hj
        · exact hgrows.origin j (hcontrol.heard hbefore j hj)
    have hbase := hgrows.base h.toBase
    have hopen := hgrows.open hcontrol hheard
    refine ⟨⟨hbase.kinds, hbase.writers, hbase.log⟩, ?_,
      ⟨hopen.writers, hopen.origin, hopen.started, hopen.heard⟩, fun hfile => hset ?_⟩
    · change k ∈ r.kinds
      rwa [hgrows.kinds]
    · exact hopen.started _ hbase.main_mem (hopen.origin hfile)
  · cases ht

theorem Inv.setTimeOffset {k : Kind} {ntp : UInt64} {rtp : UInt32} (h : s.Inv heard)
    (ht : s.step clockRate (.setTimeOffset k ntp rtp) = some t) : t.Inv heard := by
  have hcontrol := h.control
  simp only [step] at ht
  split at ht
  · next hc =>
    split_ifs at ht with hk
    cases ht
    rw [hc] at hcontrol
    have horigin : ∀ j, ((s.origins.setTimeOffset clockRate k ntp rtp).tracks j).origin = none ↔
        s.origin j = none := Origins.setTimeOffset_origin ntp
    have hlocal : (s.origins.setTimeOffset clockRate k ntp rtp).originLocal =
        s.origins.originLocal := Origins.setTimeOffset_started ntp
    refine ⟨⟨h.kinds, h.writers, h.log⟩, ?_⟩
    rw [hc]
    refine ⟨hcontrol.writers, fun hfile => mt (horigin _).1 (hcontrol.origin hfile),
      fun j hj hne => ?_, fun hstarted j hj => mt (horigin j).1 (hcontrol.heard ?_ j hj)⟩
    · exact hlocal ▸ hcontrol.started j hj (mt (horigin j).2 hne)
    · exact hlocal ▸ hstarted
  · cases ht

/-! ### Runs -/

theorem Inv.init (h : (recorderSystem clockRate).init s) : s.Inv [] := by
  obtain ⟨hkinds, heq⟩ := h
  rw [heq]
  exact ⟨⟨hkinds, fun _ _ => nofun, nofun⟩, nofun, fun hne => absurd rfl hne,
    fun _ _ hne => absurd rfl hne, fun hne => absurd rfl hne⟩

end Recorder

namespace Watched

variable {clockRate : Kind → ℕ} {w w' : Watched}

theorem inv_step {a : RecorderLabel} (h : w.recorder.Inv w.heard) (hok : w.Steady a)
    (ht : (watchedSystem clockRate).step w a = some w') : w'.recorder.Inv w'.heard := by
  obtain ⟨t, hstep, rfl⟩ := Option.map_eq_some_iff.1 ht
  cases a with
  | writeRTP k packet now => exact h.writeRTP hstep
  | setTimeOffset k ntp rtp => exact h.setTimeOffset hstep
  | closeConn => exact h.closeConn hstep
  | pop sample => exact h.pop hok hstep
  | next => exact h.next hstep

/-- In a run on which all samples find things in order, none is lost that there is a file for. -/
theorem samples_kept (hw : Reachable (watchedSystem clockRate) Steady w) :
    ∀ e ∈ w.recorder.log, e.Kept := by
  have hinit : ∀ v, (watchedSystem clockRate).init v → v.recorder.Inv v.heard := by
    rintro v ⟨hstart, hheard⟩
    rw [hheard]
    exact Recorder.Inv.init hstart
  have hinv : w.recorder.Inv w.heard :=
    hw.invariant (P := fun w : Watched => w.recorder.Inv w.heard) hinit
      fun _ _ _ h hok ht => inv_step h hok ht
  exact hinv.log

end Watched

section Samples

open Recorder

instance (s : Recorder) (k : Kind) (ts : UInt32) : Decidable (s.Opens k ts) :=
  match k with
  | .audio => inferInstanceAs (Decidable (s.hasVideo = false))
  | .video =>
      inferInstanceAs (Decidable ((s.tracks .video).savedKf.map Packet.timestamp = some ts))

instance (s : Recorder) (k : Kind) (ts : UInt32) : Decidable (s.Around k ts) :=
  inferInstanceAs (Decidable (∃ origin ∈ s.origin k, _ ∧ _))

instance (s : Recorder) (k : Kind) (ts : UInt32) : Decidable (s.Late k ts) :=
  inferInstanceAs (Decidable (∃ origin ∈ s.origin k, _ ∧ _))

instance (s : Recorder) (heard : List Kind) (call : Writing) (ts : UInt32) :
    Decidable (s.Settled heard call ts) :=
  have : Decidable (∀ kf ∈ (s.tracks .video).savedKf, kf.width = s.width ∧ kf.height = s.height) :=
    inferInstance
  inferInstanceAs (Decidable ((s.Opens call.track ts → ¬ s.Late call.track ts → _ ∧ _ ∧ _ ∧ _) ∧
    (_ → _ → _ → _)))

instance (w : Watched) (a : RecorderLabel) : Decidable (w.Steady a) :=
  match a with
  | .pop (some sample) =>
      match h : w.recorder.control with
      | .pop call =>
          decidable_of_iff (w.recorder.Settled w.heard call sample.ts) (by rw [Watched.Steady, h])
      | .idle | .close _ _ => .isTrue (by rw [Watched.Steady, h]; trivial)
  | .pop none | .writeRTP _ _ _ | .setTimeOffset _ _ _ | .closeConn | .next => .isTrue trivial

def usualRates : Kind → ℕ
  | .audio => 48000
  | .video => 90000

/-- A keyframe, a frame, another keyframe, of `width` pixels, and another frame. Each sample is
popped after the packet that follows it has come in. -/
def frames (width : UInt32) : List RecorderLabel :=
  [.writeRTP .video { timestamp := 1000, keyframe := true, width := 640, height := 480 } 0,
    .pop none,
    .writeRTP .video { timestamp := 4000 } 1, .pop (some { ts := 1000 }), .pop none,
    .writeRTP .video { timestamp := 7000, keyframe := true, width, height := 480 } 2,
    .pop (some { ts := 4000 }), .pop none,
    .writeRTP .video { timestamp := 10000 } 3, .pop (some { ts := 7000 })]

theorem kept_frames : ∃ w : Watched, w.recorder.log.length = 3 ∧ ∀ e ∈ w.recorder.log, e.Kept := by
  have hrun : (watchedSystem usualRates).exec Watched.Steady ⟨{ kinds := [.video] }, []⟩
      (frames 640) = some (((watchedSystem usualRates).exec Watched.Steady
        ⟨{ kinds := [.video] }, []⟩ (frames 640)).get (by decide)) := (Option.some_get _).symm
  exact ⟨_, by decide,
    Watched.samples_kept (Reachable.exec (.init ⟨⟨by decide, rfl⟩, rfl⟩) hrun)⟩

/-- The keyframe of a new size is lost, for which the new file has been opened. -/
theorem not_kept : ¬ ∀ s, Reachable (recorderSystem usualRates) Always s →
    ∀ e ∈ s.log, e.Kept := by
  intro h
  have hrun : (recorderSystem usualRates).exec Always { kinds := [.video] }
      (frames 320 ++ [.next, .pop none, .next]) =
      some (((recorderSystem usualRates).exec Always { kinds := [.video] }
        (frames 320 ++ [.next, .pop none, .next])).get (by decide)) := (Option.some_get _).symm
  have hlog := h _ (Reachable.exec (.init ⟨by decide, rfl⟩) hrun)
    { sample := { ts := 7000 }, file := some 0, origin := some 1000, track := .video,
      opened := some 1, outcome := .invalidOrigin } (by decide)
  exact hlog.1 rfl

end Samples

end Sozvon.DiskWriter
