import Sozvon.DiskOrigins
import Sozvon.Codecs
import Sozvon.Runs

/-!
# The recorder

A recorded connection: its tracks, the file that is open, and the call that is
under way. `writeBuffered` closes the connection where a file has to be closed,
and `close` flushes the tracks, which is to say that it calls `writeBuffered`.
So the calls that are under way are nested, and each of them knows by which one
it has been made.

What the sample builders answer is part of a run. Files are opened and written
to without errors. Requests for keyframes are left out.
-/
namespace Sozvon.DiskWriter
open Codecs (Bytes)
open Runs

inductive Kind where
  | audio
  | video
deriving DecidableEq, Repr

/-- A packet, and what `codecs` reads in it. -/
structure Packet where
  timestamp : UInt32
  keyframe : Bool := false
  width : UInt32 := 0
  height : UInt32 := 0
deriving DecidableEq, Repr

structure Sample where
  ts : UInt32
  data : Bytes := []
deriving DecidableEq, Repr

/-- Files are numbered in the order in which they are opened. -/
abbrev File := ℕ

structure Track where
  writer : Option File := none
  savedKf : Option Packet := none
deriving DecidableEq, Repr

inductive Outcome where
  /-- The sample is from before the origin. -/
  | late
  | noWriter
  | invalidOrigin
  | written (file : File) (keyframe : Bool) (tm : UInt32) (data : Bytes)
deriving DecidableEq, Repr

/-- A sample that has been popped, the file and the origin that there were then. -/
structure Popped where
  sample : Sample
  file : Option File
  origin : Option UInt32
deriving DecidableEq, Repr

/-- What has become of a sample, and the file that has been opened for it. -/
structure Entry extends Popped where
  track : Kind
  opened : Option File
  outcome : Outcome
deriving DecidableEq, Repr

mutual

/-- A call of `writeBuffered`. -/
inductive Writing where
  | writeRTP (track : Kind)
  /-- `close` has yet to go through the tracks in `rest`. -/
  | close (track : Kind) (rest : List Kind) (call : Closing)

/-- A call of `close`. -/
inductive Closing where
  | closeConn
  /-- A sample goes around, or is a keyframe of a new size. -/
  | writeBuffered (call : Writing) (popped : Popped) (size : Option (UInt32 × UInt32))

end

def Writing.track : Writing → Kind
  | .writeRTP track => track
  | .close track _ _ => track

def Writing.force : Writing → Bool
  | .writeRTP _ => false
  | .close _ _ _ => true

inductive Control where
  | idle
  /-- In the loop of `writeBuffered`. -/
  | pop (call : Writing)
  /-- In the loop of `close`. -/
  | close (rest : List Kind) (call : Closing)

structure Recorder where
  kinds : List Kind
  origins : Origins Kind UInt32 := { tracks := fun _ => { remoteRTP := 0 } }
  tracks : Kind → Track := fun _ => {}
  file : Option File := none
  files : ℕ := 0
  width : UInt32 := 0
  height : UInt32 := 0
  control : Control := .idle
  log : List Entry := []

inductive RecorderLabel where
  | writeRTP (track : Kind) (p : Packet) (now : ℤ)
  | setTimeOffset (track : Kind) (ntp : UInt64) (rtp : UInt32)
  | closeConn
  /-- The answer of the sample builder. -/
  | pop (sample : Option Sample)
  /-- `close` goes on to the next track, or returns. -/
  | next
deriving DecidableEq

namespace Recorder

variable (clockRate : Kind → ℕ) (s : Recorder)

def hasVideo : Bool := .video ∈ s.kinds

def origin (k : Kind) : Option UInt32 := (s.origins.tracks k).origin

def setOrigin (k : Kind) (ts : UInt32) (now : ℤ) : Recorder :=
  { s with origins := s.origins.setOrigin clockRate k ts now }

def writeRTP (k : Kind) (p : Packet) (now : ℤ) : Recorder :=
  let s :=
    if k = .video ∧ p.keyframe then
      let t := { s.tracks k with savedKf := some p }
      let s := { s with tracks := Function.update s.tracks k t }
      if s.origin k = none then s.setOrigin clockRate k p.timestamp now else s
    else s
  let s :=
    if s.origin k = none ∧ (¬ s.hasVideo ∨ s.origins.originLocal ≠ none) then
      s.setOrigin clockRate k p.timestamp now
    else s
  { s with control := .pop (.writeRTP k) }

def close (call : Closing) : Recorder :=
  { s with
    origins := { s.origins with originLocal := none, originRemote := 0 }
    control := .close s.kinds call }

/-- The end of the body of the loop in `close`. -/
def closeTrack (k : Kind) : Recorder :=
  { s with
    origins :=
      { s.origins with
        tracks := Function.update s.origins.tracks k { s.origins.tracks k with origin := none } }
    tracks := Function.update s.tracks k { s.tracks k with writer := none } }

/-- `writeBuffered` returns. -/
def endWriting : Writing → Recorder
  | .writeRTP _ => { s with control := .idle }
  | .close k rest call => { s.closeTrack k with control := .close rest call }

/-- The end of the body of the loop in `writeBuffered`. -/
def write (call : Writing) (p : Popped) (keyframe : Bool) (opened : Option File) : Recorder :=
  let k := call.track
  let record (outcome : Outcome) : Recorder :=
    { s with log := s.log ++ [{ p with track := k, opened, outcome }] }
  match (s.tracks k).writer, s.origin k with
  | none, _ => { record .noWriter with control := .pop call }
  | some _, none => (record .invalidOrigin).endWriting call
  | some file, some origin =>
      let tm := (p.sample.ts - origin) / .ofNat (clockRate k / 1000)
      { record (.written file keyframe tm p.sample.data) with control := .pop call }

/-- The part of `initWriter` after a file has been closed. -/
def openFile (width height : UInt32) (k : Kind) (ts : UInt32) : Recorder :=
  { s with
    origins := s.origins.adjustOrigin clockRate k ts
    tracks := fun j =>
      if j ∈ s.kinds then { s.tracks j with writer := some s.files } else s.tracks j
    file := some s.files
    files := s.files + 1
    width
    height }

def openAndWrite (width height : UInt32) (call : Writing) (p : Popped) : Recorder :=
  (s.openFile clockRate width height call.track p.sample.ts).write clockRate call p true
    (some s.files)

def initWriter (width height : UInt32) (call : Writing) (p : Popped) : Recorder :=
  if s.file ≠ none then
    if width = s.width ∧ height = s.height then s.write clockRate call p true none
    else s.close (.writeBuffered call p (some (width, height)))
  else s.openAndWrite clockRate width height call p

/-- The body of the loop in `writeBuffered`, from the keyframes on. -/
def writeSample (call : Writing) (p : Popped) : Recorder :=
  match call.track with
  | .video =>
      match (s.tracks .video).savedKf with
      | none => s.write clockRate call p false none
      | some kf =>
          if p.sample.ts = kf.timestamp then s.initWriter clockRate kf.width kf.height call p
          else s.write clockRate call p false none
  | .audio =>
      if (s.tracks .audio).writer = none ∧ ¬ s.hasVideo then s.initWriter clockRate 0 0 call p
      else s.write clockRate call p true none

def popped (call : Writing) (sample : Sample) : Recorder :=
  let p : Popped := { sample, file := s.file, origin := s.origin call.track }
  match s.origin call.track with
  | none => s.writeSample clockRate call p
  | some origin =>
      if Timestamp.diff sample.ts origin < 0 then
        if origin - sample.ts < 0x10000 then
          let entry : Entry := { p with track := call.track, opened := none, outcome := .late }
          { s with control := .pop call, log := s.log ++ [entry] }
        else s.close (.writeBuffered call p none)
      else s.writeSample clockRate call p

/-- `close` returns. -/
def endClosing : Closing → Recorder
  | .closeConn => { s with control := .idle }
  | .writeBuffered call p none => s.writeSample clockRate call p
  | .writeBuffered call p (some (width, height)) => s.openAndWrite clockRate width height call p

def step : RecorderLabel → Option Recorder
  | .writeRTP k p now =>
      match s.control with
      | .idle => if k ∈ s.kinds then some (s.writeRTP clockRate k p now) else none
      | _ => none
  | .setTimeOffset k ntp rtp =>
      match s.control with
      | .idle =>
          if k ∈ s.kinds then
            some { s with origins := s.origins.setTimeOffset clockRate k ntp rtp }
          else none
      | _ => none
  | .closeConn =>
      match s.control with
      | .idle => some (s.close .closeConn)
      | _ => none
  | .pop sample =>
      match s.control, sample with
      | .pop call, none => some (s.endWriting call)
      | .pop call, some sample => some (s.popped clockRate call sample)
      | _, _ => none
  | .next =>
      match s.control with
      | .close (k :: rest) call => some { s with control := .pop (.close k rest call) }
      | .close [] call => some ({ s with file := none }.endClosing clockRate call)
      | _ => none

end Recorder

/-- A connection has a track for sound, one for the picture, or both. -/
def recorderSystem (clockRate : Kind → ℕ) : System Recorder RecorderLabel where
  init s := s.kinds ∈ [[.audio], [.video], [.audio, .video]] ∧ s = { kinds := s.kinds }
  step s a := s.step clockRate a

end Sozvon.DiskWriter
