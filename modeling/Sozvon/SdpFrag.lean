import Sozvon.LineScanner
import Sozvon.NetAddr

/-!
# SDP fragments

The ICE-related subset of a session description, and the text that it is
exchanged as. The session descriptions are those of a library, which finds the
attributes of a place by their keys (`Sdp`). A text is its bytes.
-/
namespace Sozvon.SdpFrag
open NetAddr (Text ascii)
open LineScanner

structure ICECandidateInit where
  candidate : Text
  sdpMid : Option Text := none
  sdpMLineIndex : Option UInt16 := none
  usernameFragment : Option Text := none
deriving DecidableEq, Repr

structure MediaDescription where
  mLine : Text := []
  mid : Text := []
  usernameFragment : Text := []
  password : Text := []
  candidates : List ICECandidateInit := []
deriving DecidableEq, Repr

structure SDPFrag where
  usernameFragment : Text := []
  password : Text := []
  candidates : List ICECandidateInit := []
  mediaDescriptions : List MediaDescription := []
deriving DecidableEq, Repr

/-! ## The text of a fragment -/

/-- What follows `front` in a line. -/
def after (front l : Text) : Option Text :=
  if front.isPrefixOf l then some (l.drop front.length) else none

/-- What `Unmarshal` has read so far, and the section it is in. -/
structure Reader where
  frag : SDPFrag := {}
  mediaDescription : Option MediaDescription := none
deriving DecidableEq, Repr

namespace Reader

variable (r : Reader)

def ufrag (v : Text) : Reader :=
  match r.mediaDescription with
  | none => { r with frag := { r.frag with usernameFragment := v } }
  | some m => { r with mediaDescription := some { m with usernameFragment := v } }

def pwd (v : Text) : Reader :=
  match r.mediaDescription with
  | none => { r with frag := { r.frag with password := v } }
  | some m => { r with mediaDescription := some { m with password := v } }

/-- The section is over. -/
def close : SDPFrag :=
  { r.frag with mediaDescriptions := r.frag.mediaDescriptions ++ r.mediaDescription.toList }

def media (v : Text) : Reader := { frag := r.close, mediaDescription := some { mLine := v } }

def mid (v : Text) : Except String Reader :=
  match r.mediaDescription with
  | none => .error "unexpected mid"
  | some m => .ok { r with mediaDescription := some { m with mid := v } }

def candidate (v : Text) : Reader :=
  let init : ICECandidateInit := {
    candidate := v
    usernameFragment :=
      if 0 < r.frag.usernameFragment.length then some r.frag.usernameFragment else none }
  match r.mediaDescription with
  | none => { r with frag := { r.frag with candidates := r.frag.candidates ++ [init] } }
  | some m =>
      let i := UInt16.ofNat r.frag.mediaDescriptions.length
      let init := { init with sdpMLineIndex := some i, sdpMid := some m.mid }
      { r with mediaDescription := some { m with candidates := m.candidates ++ [init] } }

/-- A line that is none of these is skipped. -/
def line (l : Text) : Except String Reader :=
  match after (ascii "a=ice-ufrag:") l with
  | some v => .ok (r.ufrag v)
  | none => match after (ascii "a=ice-pwd:") l with
    | some v => .ok (r.pwd v)
    | none => match after (ascii "m=") l with
      | some v => .ok (r.media v)
      | none => match after (ascii "a=mid:") l with
        | some v => r.mid v
        | none => match after (ascii "a=candidate:") l with
          | some v => .ok (r.candidate v)
          | none => .ok r

end Reader

/-- `Unmarshal` into an empty fragment. -/
def unmarshal (value : Text) : Except String SDPFrag :=
  ((scan value).foldlM Reader.line {}).map Reader.close

/-- A line with a value, none if it is empty. -/
def optional (front v : Text) : List Text := if v ≠ [] then [front ++ v] else []

def MediaDescription.lines (m : MediaDescription) : List Text :=
  [ascii "m=" ++ m.mLine, ascii "a=mid:" ++ m.mid] ++
    optional (ascii "a=ice-ufrag:") m.usernameFragment ++
    optional (ascii "a=ice-pwd:") m.password ++
    m.candidates.map fun c => ascii "a=candidate:" ++ c.candidate

def SDPFrag.lines (f : SDPFrag) : List Text :=
  optional (ascii "a=ice-ufrag:") f.usernameFragment ++ optional (ascii "a=ice-pwd:") f.password ++
    f.candidates.map (fun c => ascii "a=" ++ c.candidate) ++
    f.mediaDescriptions.flatMap MediaDescription.lines

def marshal (f : SDPFrag) : Text := render f.lines

/-! ## Session descriptions -/

structure Attribute where
  key : Text
  value : Text := []
deriving DecidableEq, Repr

/-- A section with its attributes and what else it is made of. -/
structure Media (Name : Type) where
  mediaName : Name
  attributes : List Attribute
deriving DecidableEq, Repr

structure SessionDescription (Name : Type) where
  attributes : List Attribute
  mediaDescriptions : List (Media Name)
deriving DecidableEq, Repr

/-- The library's part: the value of an attribute, empty where there is none, and the text of the
line that opens a section. -/
structure Sdp (Name : Type) where
  attributeOf : List Attribute → Text → Text
  string : Name → Text

variable {Name : Type} (P : Sdp Name)

def getCandidates (as : List Attribute) (mid : Option Text) (index : Option UInt16) (ufrag : Text) :
    List ICECandidateInit :=
  (as.filter fun a => a.key = ascii "candidate").map fun a => {
    candidate := a.value
    sdpMid := mid
    sdpMLineIndex := index
    usernameFragment := if ufrag ≠ [] then some ufrag else none }

def fromMedia (index : ℕ) (m : Media Name) : MediaDescription :=
  let mid := P.attributeOf m.attributes (ascii "mid")
  let ufrag := P.attributeOf m.attributes (ascii "ice-ufrag")
  { mLine := P.string m.mediaName
    mid
    usernameFragment := ufrag
    password := P.attributeOf m.attributes (ascii "ice-pwd")
    candidates := getCandidates m.attributes (some mid) (some (.ofNat index)) ufrag }

def fromSDP (s : SessionDescription Name) : SDPFrag :=
  let ufrag := P.attributeOf s.attributes (ascii "ice-ufrag")
  { usernameFragment := ufrag
    password := P.attributeOf s.attributes (ascii "ice-pwd")
    candidates := getCandidates s.attributes none none ufrag
    mediaDescriptions := s.mediaDescriptions.mapIdx (fromMedia P) }

end Sozvon.SdpFrag
