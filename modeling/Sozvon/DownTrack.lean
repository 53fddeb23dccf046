import Sozvon.Codecs
import Sozvon.PacketMap
import Mathlib.Data.List.Chain
import Mathlib.Data.ZMod.Basic
import Mathlib.Tactic.LinearCombination

/-!
# Forwarding a track to a viewer

`Write` decides for each packet whether it belongs to a layer the viewer gets,
tries to drop it if not, and otherwise renumbers it through the packet map and
writes it out. The decision depends on bitrates and on the layers seen so far;
`forward` is what follows from it and takes the decision as an argument, so
that a fact about `forward` holds for every choice of layers (`write_eq`).

The second half compares what is written for a VP8 stream with a stream from
which nothing was dropped. The accumulated picture id delta has the wrong sign
for that: a gap of `d` frames is passed on as a gap of `2 * d`.
-/
namespace Sozvon.DownTrack
open PacketMap Codecs

section Code

def bufSize : ℕ := 1504

/-- Current, wanted and maximum layers, each kept in four bits. -/
structure LayerInfo where
  sid : UInt8 := 0
  wantedSid : UInt8 := 0
  maxSid : UInt8 := 0
  tid : UInt8 := 0
  wantedTid : UInt8 := 0
  maxTid : UInt8 := 0
  limitSid : Bool := false
deriving DecidableEq, Repr

structure RtpDownTrack where
  packetmap : Map := {}
  layer : LayerInfo := {}
deriving DecidableEq, Repr

def setLayerInfo (info : LayerInfo) : LayerInfo :=
  { sid := info.sid &&& 0xF, wantedSid := info.wantedSid &&& 0xF, maxSid := info.maxSid &&& 0xF
    tid := info.tid &&& 0xF, wantedTid := info.wantedTid &&& 0xF, maxTid := info.maxTid &&& 0xF
    limitSid := info.limitSid }

/-- One step towards the layers the allowed rate `max` has room for. -/
def adjustLayer (max rate : UInt64) (layer : LayerInfo) : LayerInfo :=
  if rate < max * 7 / 8 then
    if layer.limitSid ∧ layer.wantedSid ≠ 0 then setLayerInfo { layer with wantedSid := 0 }
    else if ¬ layer.limitSid ∧ layer.sid < layer.maxSid then
      setLayerInfo { layer with wantedSid := layer.sid + 1 }
    else if layer.tid < layer.maxTid then setLayerInfo { layer with wantedTid := layer.tid + 1 }
    else layer
  else if max * 3 / 2 < rate then
    if 0 < layer.tid then setLayerInfo { layer with wantedTid := layer.tid - 1 }
    else if 0 < layer.sid then
      setLayerInfo { layer with wantedSid := if layer.limitSid then 0 else layer.sid - 1 }
    else layer
  else layer

/-- The layers after a packet with these flags has been looked at. A switch of
spatial layer away from a keyframe asks the sender for one and waits. -/
def selectLayer (max rate : UInt64) (flags : Flags) (layer : LayerInfo) : LayerInfo :=
  let layer :=
    if layer.maxTid < flags.tid ∨ layer.maxSid < flags.sid then
      let seen := if layer.maxTid < flags.tid then
          let eager := if layer.tid = layer.maxTid then
              { layer with wantedTid := flags.tid, tid := flags.tid } else layer
          { eager with maxTid := flags.tid }
        else layer
      let seen := if seen.maxSid < flags.sid then
          let eager := if seen.sid = seen.maxSid ∧ ¬ seen.limitSid then
              { seen with wantedSid := flags.sid, sid := flags.sid } else seen
          { eager with maxSid := flags.sid }
        else seen
      adjustLayer max rate (setLayerInfo seen)
    else layer
  let layer :=
    if flags.start ∧ layer.tid ≠ layer.wantedTid then
      if flags.keyframe ∨ layer.wantedTid < layer.tid then
        { layer with tid := layer.wantedTid }
      else if flags.tidUpSync ∧ flags.tid ≤ layer.wantedTid then { layer with tid := flags.tid }
      else layer
    else layer
  if flags.start ∧ layer.sid ≠ layer.wantedSid ∧ flags.keyframe then
    { layer with sid := layer.wantedSid }
  else layer

/-- Drop the packet if that is wanted and safe, else renumber it and hand it to
the local track. -/
def forward (codec : Codec) (m : Map) (flags : Flags) (buf : Bytes) (drop setMarker : Bool) :
    Map × Except Error (Option Bytes) :=
  let dropped := if drop then m.drop flags.seqno flags.pid else (m, false)
  if dropped.2 then (dropped.1, .ok none)
  else
    match dropped.1.map flags.seqno flags.pid with
    | (m, none) => (m, .ok none)
    | (m, some (newseqno, piddelta)) =>
        if ¬ setMarker ∧ newseqno = flags.seqno ∧ piddelta = 0 then (m, .ok (some buf))
        else
          (m, (rewritePacket codec (buf.take bufSize) setMarker newseqno piddelta).map some)

/-- What is written for one packet, when the viewer's rate is `rate` and may be
`max`. -/
def write (lib : Pion) (codec : Codec) (max rate : UInt64) (down : RtpDownTrack) (buf : Bytes) :
    RtpDownTrack × Except Error (Option Bytes) :=
  match packetFlags lib codec buf with
  | .error e => (down, .error e)
  | .ok flags =>
      let layer := selectLayer max rate flags down.layer
      let drop := layer.tid < flags.tid ∨ layer.sid < flags.sid ∨
        flags.sid < layer.sid ∧ flags.sidNonReference
      let setMarker := flags.sid = layer.sid ∧ flags.end ∧ ¬ flags.marker
      let r := forward codec down.packetmap flags buf drop setMarker
      ({ packetmap := r.1, layer }, r.2)

end Code

/-- A packet with what is asked of the track for it: to set the marker or not. -/
structure Packet where
  buf : Bytes
  setMarker : Bool := false
deriving DecidableEq, Repr

/-- One packet, with the decision to drop it or not. -/
def send (lib : Pion) (codec : Codec) (m : Map) (p : Packet) (drop : Bool) :
    Map × Except Error (Option Bytes) :=
  match packetFlags lib codec p.buf with
  | .error e => (m, .error e)
  | .ok flags => forward codec m flags p.buf drop p.setMarker

/-- `Write` is `send` under the decisions its layers lead to. -/
theorem write_eq (lib : Pion) (codec : Codec) (max rate : UInt64) (down : RtpDownTrack)
    (buf : Bytes) :
    ∃ drop setMarker, (write lib codec max rate down buf).1.packetmap =
        (send lib codec down.packetmap ⟨buf, setMarker⟩ drop).1 ∧
      (write lib codec max rate down buf).2 =
        (send lib codec down.packetmap ⟨buf, setMarker⟩ drop).2 := by
  cases hflags : packetFlags lib codec buf with
  | error e =>
      refine ⟨false, false, ?_, ?_⟩ <;> simp only [write, send, hflags]
  | ok flags =>
      simp only [write, send, hflags]
      exact ⟨_, _, rfl, rfl⟩

section Frames

/-- A frame of a stream and whether it is to be dropped as a whole. -/
structure Frame where
  packets : List Packet
  drop : Bool
deriving DecidableEq, Repr

/-- The packets written in a row of calls. -/
def sendAll (lib : Pion) (drop : Bool) (m : Map) : List Packet → Map × List Bytes
  | [] => (m, [])
  | p :: ps =>
      let r := send lib .vp8 m p drop
      let rest := sendAll lib drop r.1 ps
      match r.2 with
      | .ok (some out) => (rest.1, out :: rest.2)
      | _ => rest

/-- The frames written, those of which nothing was written left out. -/
def sendFrame (lib : Pion) (s : Map × List (List Bytes)) (f : Frame) : Map × List (List Bytes) :=
  let r := sendAll lib f.drop s.1 f.packets
  (r.1, if r.2 = [] then s.2 else s.2 ++ [r.2])

def run (lib : Pion) (fs : List Frame) : Map × List (List Bytes) :=
  fs.foldl (sendFrame lib) ({}, [])

/-- Each `Drop` in a row of them is accepted. -/
def Accepts (lib : Pion) (m : Map) : List Packet → Prop
  | [] => True
  | p :: ps => ∃ flags, packetFlags lib .vp8 p.buf = .ok flags ∧
      (m.drop flags.seqno flags.pid).2 = true ∧ Accepts lib (m.drop flags.seqno flags.pid).1 ps

/-- VP8 packets numbered from `seqno` on, all of them with picture id `pid`. -/
def Numbered (w : Width) (seqno : UInt16) (pid : ℕ) : List Bytes → Prop
  | [] => True
  | buf :: bufs => IsVP8 w buf ∧ seqnoOf buf = seqno ∧ pictureID w buf = pid ∧
      Numbered w (seqno + 1) pid bufs

def packetCount (fs : List Frame) : ℕ := (fs.map fun f => f.packets.length).sum

/-- A VP8 stream in order: each frame begins where the packets before it end,
and its picture id is one more than that of the frame before it. -/
def InOrder (w : Width) (start : UInt16) (pid : ℕ) (fs : List Frame) : Prop :=
  ∀ pre f, pre ++ [f] <+: fs → f.packets ≠ [] ∧ (∀ p ∈ f.packets, p.buf.length ≤ bufSize) ∧
    Numbered w (start + .ofNat (packetCount pre)) ((pid + pre.length) % w.modulus)
      (f.packets.map Packet.buf)

/-- Each `Drop` of a frame chosen to be dropped is accepted, and the first
frame is forwarded. -/
def Chosen (lib : Pion) (fs : List Frame) : Prop :=
  ∀ pre f, pre ++ [f] <+: fs → f.drop → pre ≠ [] ∧ Accepts lib (run lib pre).1 f.packets

/-- What a viewer can tell from the packets that no frame is missing. -/
structure Seamless (w : Width) (out : List (List Bytes)) : Prop where
  seqno : (out.flatten.map seqnoOf).IsChain fun a b => b = a + 1
  constant : ∀ f ∈ out, ∀ b ∈ f, ∀ b' ∈ f, pictureID w b = pictureID w b'
  pictureID : out.IsChain fun f g => ∀ b ∈ f, ∀ b' ∈ g,
    pictureID w b' = (pictureID w b + 1) % w.modulus

/-- The frames dropped since the last one forwarded. -/
def gap (pre : List Frame) : ℕ := (pre.reverse.takeWhile Frame.drop).length

/-- By how much the picture id of a frame forwarded after `pre` is off. The map
counts a gap a second time instead of closing it. The one exception is a stream
that starts in the last 8192 numbers: its map has no picture id to count from
before number zero, and a gap that begins there counts from picture id zero. -/
def slip (start : UInt16) (pid : ℕ) (pre : List Frame) : ℕ :=
  if 57344 ≤ start.toNat ∧ gap pre ≠ 0 ∧
      start.toNat + packetCount (pre.take (pre.length - gap pre)) = 65536 then
    gap pre + (pid + (pre.length - 1))
  else 2 * gap pre

end Frames

section InOrderMap

variable {m : Map} {seqno last : UInt16}

/-- A map that expects `seqno` next, after a packet with picture id `last`. -/
structure Ready (m : Map) (seqno last : UInt16) : Prop where
  next : m.next = seqno
  nextPid : m.nextPid = last
  untouched : m.entries = [] → m.delta = 0 ∧ m.pidDelta = 0

/-- The expected packet is shifted by what has been dropped so far. -/
theorem Ready.map (h : Ready m seqno last) (pid : UInt16) :
    ∃ m', m.map seqno pid = (m', some (seqno + m.delta, m.pidDelta)) ∧
      Ready m' (seqno + 1) pid ∧ m'.delta = m.delta ∧ m'.pidDelta = m.pidDelta := by
  have hcompare : PacketMap.compare seqno seqno = 0 := if_pos rfl
  have hjump : ¬ (8 * 1024 : UInt16) < seqno - seqno := by
    rw [UInt16.sub_self]
    decide
  by_cases hentries : m.entries = []
  · obtain ⟨hdelta, hpid⟩ := h.untouched hentries
    refine ⟨{ m with next := seqno + 1, nextPid := pid }, ?_, ⟨rfl, rfl, h.untouched⟩, rfl, rfl⟩
    simp [Map.map, hdelta, hpid, hentries, h.next, hcompare]
  · refine ⟨{ addMapping m seqno m.delta m.pidDelta with next := seqno + 1, nextPid := pid },
      ?_, ⟨rfl, rfl, ?_⟩, addMapping_delta m seqno m.delta m.pidDelta,
      addMapping_pidDelta m seqno m.delta m.pidDelta⟩
    · simp only [Map.map, hentries, h.next, hcompare, hjump, and_false, if_false, le_refl, if_true]
    · intro he
      simp only [addMapping, List.length_eq_zero_iff, hentries, if_false] at he
      split_ifs at he <;> simp_all

theorem Ready.drop (h : Ready m seqno last) (pid : UInt16) :
    ∃ m', m.drop seqno pid = (m', true) ∧ Ready m' (seqno + 1) pid ∧
      m'.delta = m.delta - 1 ∧ m'.pidDelta = m.pidDelta + (pid - last) := by
  have hdrop : (m.drop seqno pid).2 = true := by simp [Map.drop, h.next]
  refine ⟨(m.drop seqno pid).1, Prod.ext rfl hdrop, ⟨?_, ?_, ?_⟩, ?_, ?_⟩
  · simp [Map.drop, h.next]
  · simp [Map.drop, h.next]
  · by_cases hentries : m.entries = [] <;> simp [Map.drop, h.next, hentries]
  · simp [Map.drop, h.next]
  · simp [Map.drop, h.next, h.nextPid]

/-- In the last 8192 numbers an untouched map stays as it is. -/
theorem map_fresh_late (pid : UInt16) (h : 57344 ≤ seqno.toNat) :
    ({} : Map).map seqno pid = ({}, some (seqno, 0)) := by
  have hseqno : seqno.toNat < 65536 := seqno.toNat_lt
  have hsub : (0 - seqno).toNat = 65536 - seqno.toNat := by
    rw [UInt16.toNat_sub, UInt16.toNat_zero]
    omega
  have hcompare : ¬ PacketMap.compare 0 seqno ≤ 0 := by
    have hne : (0 : UInt16) ≠ seqno := by
      rw [ne_eq, ← UInt16.toNat_inj, UInt16.toNat_zero]
      omega
    rw [compare_eq, if_neg hne, UInt16.sub_zero, if_pos (by omega)]
    decide
  have hjump : ¬ (8 * 1024 : UInt16) < 0 - seqno := by
    rw [UInt16.lt_iff_toNat_lt, hsub, show (8 * 1024 : UInt16).toNat = 8192 from rfl]
    omega
  simp only [Map.map, hcompare, hjump, true_and, or_false, if_false, if_true]

theorem map_fresh_early (pid : UInt16) (h : seqno.toNat < 57344) :
    ({} : Map).map seqno pid = ({ next := seqno + 1, nextPid := pid }, some (seqno, 0)) := by
  have hcond : PacketMap.compare 0 seqno ≤ 0 ∨ (8 * 1024 : UInt16) < 0 - seqno := by
    by_cases hzero : seqno = 0
    · subst hzero
      exact .inl (by decide)
    · have hpos : seqno.toNat ≠ 0 := by
        rwa [ne_eq, ← UInt16.toNat_zero, UInt16.toNat_inj]
      rcases Nat.lt_or_ge seqno.toNat 32768 with hlt | hge
      · left
        rw [compare_eq, if_neg (Ne.symm hzero), UInt16.sub_zero, if_neg (by omega)]
        decide
      · right
        rw [UInt16.lt_iff_toNat_lt, UInt16.toNat_sub, UInt16.toNat_zero,
          show (8 * 1024 : UInt16).toNat = 8192 from rfl]
        omega
  simp only [Map.map, true_and, hcond, if_true]

/-- The map of a stream from `start` after `n` packets in a row. -/
def Position (start : UInt16) (n : ℕ) (m : Map) (last : UInt16) : Prop :=
  if n = 0 ∨ 57344 ≤ start.toNat ∧ start.toNat + n ≤ 65536 then m = {}
  else Ready m (start + .ofNat n) last

theorem toNat_add_ofNat (start : UInt16) (n : ℕ) :
    (start + .ofNat n).toNat = (start.toNat + n) % 65536 := by
  rw [UInt16.toNat_add, UInt16.toNat_ofNat']
  omega

theorem add_ofNat_succ (start : UInt16) (n : ℕ) :
    start + .ofNat n + 1 = start + .ofNat (n + 1) := by
  rw [UInt16.ofNat_add, ← UInt16.add_assoc]
  rfl

theorem Position.map {start : UInt16} {n : ℕ} (h : Position start n m last) (pid : UInt16) :
    ∃ m', m.map (start + .ofNat n) pid = (m', some (start + .ofNat n + m.delta, m.pidDelta)) ∧
      Position start (n + 1) m' pid ∧ m'.delta = m.delta ∧ m'.pidDelta = m.pidDelta := by
  have hstart : start.toNat < 65536 := start.toNat_lt
  have hnumber := toNat_add_ofNat start n
  have hsucc := add_ofNat_succ start n
  unfold Position at h
  split_ifs at h with hfresh
  · subst h
    rcases Nat.lt_or_ge (start + UInt16.ofNat n).toNat 57344 with hlt | hge
    · refine ⟨{ next := start + .ofNat n + 1, nextPid := pid },
        (map_fresh_early pid hlt).trans ?_, ?_, rfl, rfl⟩
      · rw [UInt16.add_zero]
      · rw [Position, if_neg (by omega), ← hsucc]
        exact ⟨rfl, rfl, fun _ => ⟨rfl, rfl⟩⟩
    · refine ⟨_, (map_fresh_late pid hge).trans ?_, ?_, rfl, rfl⟩
      · rw [UInt16.add_zero]
      · rw [Position, if_pos (by omega)]
  · obtain ⟨m', hm, hready, hdelta, hpid⟩ := h.map pid
    refine ⟨m', hm, ?_, hdelta, hpid⟩
    rw [Position, if_neg (by omega), ← hsucc]
    exact hready

/-- An accepted drop is of the expected number, zero for an untouched map. -/
theorem Position.drop {start : UInt16} {n : ℕ} (h : Position start n m last) (_ : n ≠ 0)
    {pid : UInt16} (haccept : (m.drop (start + .ofNat n) pid).2 = true) :
    m.next = start + .ofNat n ∧
      ∃ m', m.drop (start + .ofNat n) pid = (m', true) ∧ Position start (n + 1) m' pid ∧
        Ready m' (start + .ofNat (n + 1)) pid ∧ m'.delta = m.delta - 1 ∧
        m'.pidDelta = m.pidDelta + (pid - m.nextPid) := by
  have hstart : start.toNat < 65536 := start.toNat_lt
  have hnumber := toNat_add_ofNat start n
  have hnext : m.next = start + .ofNat n := by
    by_contra hne
    simp [Map.drop, Ne.symm hne] at haccept
  have hready : Ready m (start + .ofNat n) m.nextPid := by
    unfold Position at h
    split_ifs at h
    · subst h
      exact ⟨hnext, rfl, fun _ => ⟨rfl, rfl⟩⟩
    · exact ⟨hnext, rfl, h.untouched⟩
  have hsucc := add_ofNat_succ start n
  obtain ⟨m', hm, hready', hdelta, hpid⟩ := hready.drop pid
  rw [hsucc] at hready'
  refine ⟨hnext, m', hm, ?_, hready', hdelta, hpid⟩
  rw [Position, if_neg]
  · exact hready'
  · unfold Position at h
    split_ifs at h with hfresh
    · subst h
      have hzero : (start + UInt16.ofNat n).toNat = 0 := by rw [← hnext]; rfl
      omega
    · omega

end InOrderMap

section Sending

variable {lib : Pion} {w : Width} {m : Map} {p : Packet}

/-- A packet that is not dropped is written with the number the map gives it. -/
theorem send_forwarded (hlib : lib.ReadsPictureID) (hp : IsVP8 w p.buf)
    (hlen : p.buf.length ≤ bufSize) {m' : Map} {seqno delta : UInt16}
    (hmap : m.map (seqnoOf p.buf) (.ofNat (pictureID w p.buf)) = (m', some (seqno, delta))) :
    ∃ out, send lib .vp8 m p false = (m', .ok (some out)) ∧ IsVP8 w out ∧
      seqnoOf out = seqno ∧ pictureID w out = (pictureID w p.buf + delta.toNat) % w.modulus := by
  obtain ⟨flags, hflags, hnumber, hpid⟩ := packetFlags_vp8 hlib hp
  have hpid : flags.pid = .ofNat (pictureID w p.buf) := by rw [← hpid, UInt16.ofNat_toNat]
  simp only [send, hflags, forward, hnumber, hpid, hmap, Bool.false_eq_true, if_false]
  split_ifs with hsame
  · obtain ⟨-, hseqno, hdelta⟩ := hsame
    refine ⟨_, rfl, hp, hseqno.symm, ?_⟩
    rw [hdelta, UInt16.toNat_zero, add_zero, Nat.mod_eq_of_lt (pictureID_lt w p.buf)]
  · rw [List.take_of_length_le hlen]
    obtain ⟨out, hout, hvp8, hpicture, hseqno⟩ := rewritePacket_vp8 hp p.setMarker seqno delta
    rw [hout]
    exact ⟨out, rfl, hvp8, hseqno, hpicture⟩

theorem send_dropped {flags : Flags} (hflags : packetFlags lib .vp8 p.buf = .ok flags)
    {m' : Map} (hdrop : m.drop flags.seqno flags.pid = (m', true)) :
    send lib .vp8 m p true = (m', .ok none) := by
  simp [send, hflags, forward, hdrop]

variable {start seqno last : UInt16} {n pid : ℕ}

/-- A forwarded frame keeps its length and is shifted as a whole. -/
theorem sendAll_forwarded (hlib : lib.ReadsPictureID) {ps : List Packet}
    (hlen : ∀ p ∈ ps, p.buf.length ≤ bufSize) (hpos : Position start n m last)
    (hps : Numbered w (start + .ofNat n) pid (ps.map Packet.buf)) :
    ∃ m' outs, sendAll lib false m ps = (m', outs) ∧ outs.length = ps.length ∧
      Numbered w (start + .ofNat n + m.delta) ((pid + m.pidDelta.toNat) % w.modulus) outs ∧
      Position start (n + ps.length) m' (if ps = [] then last else .ofNat pid) ∧
      m'.delta = m.delta ∧ m'.pidDelta = m.pidDelta := by
  induction ps generalizing n m last with
  | nil => exact ⟨m, [], rfl, rfl, trivial, hpos, rfl, rfl⟩
  | cons p ps ih =>
      obtain ⟨hp, hseqno, hpid, hrest⟩ := hps
      obtain ⟨m₁, hm₁, hpos₁, hdelta₁, hpid₁⟩ := hpos.map (.ofNat pid)
      rw [← hseqno, ← hpid] at hm₁
      obtain ⟨out, hout, hvp8, hnumber, hpicture⟩ :=
        send_forwarded hlib hp (hlen p (by simp)) hm₁
      rw [add_ofNat_succ] at hrest
      obtain ⟨m', outs, hsend, hlength, hnumbered, hpos', hdelta', hpid'⟩ :=
        ih (fun q hq => hlen q (by simp [hq])) hpos₁ hrest
      refine ⟨m', out :: outs, ?_, by simp [hlength], ⟨hvp8, ?_, ?_, ?_⟩, ?_, by rw [hdelta', hdelta₁],
        by rw [hpid', hpid₁]⟩
      · simp only [sendAll, hout, hsend]
      · rw [hnumber, hseqno]
      · rw [hpicture, hpid]
      · rw [hdelta₁, hpid₁, ← add_ofNat_succ] at hnumbered
        rwa [add_right_comm] at hnumbered
      · rw [List.length_cons, if_neg (List.cons_ne_nil _ _), ← Nat.add_assoc, Nat.add_right_comm]
        simpa using hpos'

/-- A run of accepted drops writes nothing. The first of them counts how far
its picture id is from the last one the map saw. -/
theorem sendAll_dropped (hlib : lib.ReadsPictureID) {ps : List Packet}
    (hn : n ≠ 0) (hne : ps ≠ []) (hpos : Position start n m last)
    (hps : Numbered w (start + .ofNat n) pid (ps.map Packet.buf)) (haccept : Accepts lib m ps) :
    m.next = start + .ofNat n ∧
      ∃ m', sendAll lib true m ps = (m', []) ∧ Position start (n + ps.length) m' (.ofNat pid) ∧
        m'.delta = m.delta - .ofNat ps.length ∧
        m'.pidDelta = m.pidDelta + (.ofNat pid - m.nextPid) := by
  induction ps generalizing n m last with
  | nil => exact (hne rfl).elim
  | cons p ps ih =>
      obtain ⟨hp, hseqno, hpid, hrest⟩ := hps
      obtain ⟨flags, hflags, haccept₁, haccept'⟩ := haccept
      obtain ⟨flags', hflags', hnumber, hpicture⟩ := packetFlags_vp8 hlib hp
      obtain rfl : flags = flags' := by simpa [hflags] using hflags'
      have hpid16 : flags.pid = .ofNat pid := by
        rw [← hpid, ← hpicture, UInt16.ofNat_toNat]
      rw [hseqno] at hnumber
      rw [hnumber] at haccept₁
      obtain ⟨hnext, m₁, hm₁, hpos₁, hready₁, hdelta₁, hpid₁⟩ := hpos.drop hn haccept₁
      have hsend : send lib .vp8 m p true = (m₁, .ok none) :=
        send_dropped hflags (by rw [hnumber]; exact hm₁)
      rw [hpid16] at hpos₁ hready₁ hpid₁
      rcases eq_or_ne ps [] with rfl | hps
      · refine ⟨hnext, m₁, ?_, hpos₁, hdelta₁, hpid₁⟩
        simp only [sendAll, hsend]
      · rw [add_ofNat_succ] at hrest
        rw [hnumber, hm₁] at haccept'
        obtain ⟨-, m', hall, hpos', hdelta', hpid'⟩ :=
          ih (by omega) hps hpos₁ hrest haccept'
        refine ⟨hnext, m', ?_, ?_, ?_, ?_⟩
        · simp only [sendAll, hsend, hall]
        · rwa [List.length_cons, ← Nat.add_assoc, Nat.add_right_comm]
        · rw [hdelta', hdelta₁, List.length_cons, UInt16.ofNat_add]
          exact (sub_add_eq_sub_sub_swap _ _ _).symm
        · rw [hpid', hpid₁, hready₁.nextPid, UInt16.sub_self, UInt16.add_zero]

end Sending

section Runs

theorem Numbered.seqnos {w : Width} {seqno : UInt16} {pid : ℕ} {bufs : List Bytes}
    (h : Numbered w seqno pid bufs) :
    (bufs.map seqnoOf).IsChain (fun a b => b = a + 1) ∧
      (∀ x ∈ (bufs.map seqnoOf).head?, x = seqno) ∧
      ∀ x ∈ (bufs.map seqnoOf).getLast?, x + 1 = seqno + .ofNat bufs.length := by
  induction bufs generalizing seqno with
  | nil => simp
  | cons buf bufs ih =>
      obtain ⟨-, hseqno, -, hrest⟩ := h
      obtain ⟨hchain, hhead, hlast⟩ := ih hrest
      refine ⟨?_, by simp [hseqno], ?_⟩
      · rw [List.map_cons, List.isChain_cons]
        exact ⟨fun y hy => by rw [hhead y hy, hseqno], hchain⟩
      · intro x hx
        cases bufs with
        | nil =>
            obtain rfl : seqnoOf buf = x := by simpa using hx
            rw [hseqno]
            rfl
        | cons buf' bufs =>
            rw [List.map_cons, List.map_cons, List.getLast?_cons_cons, ← List.map_cons] at hx
            rw [hlast x hx, List.length_cons (a := buf), ← add_ofNat_succ, add_right_comm]

theorem Numbered.pictureID {w : Width} {seqno : UInt16} {pid : ℕ} {bufs : List Bytes}
    (h : Numbered w seqno pid bufs) : ∀ buf ∈ bufs, Codecs.pictureID w buf = pid := by
  induction bufs generalizing seqno with
  | nil => simp
  | cons buf bufs ih =>
      obtain ⟨-, -, hpid, hrest⟩ := h
      simpa [hpid] using ih hrest

@[simp] theorem gap_nil : gap [] = 0 := rfl

theorem gap_snoc (pre : List Frame) (f : Frame) :
    gap (pre ++ [f]) = if f.drop then gap pre + 1 else 0 := by
  simp only [gap, List.reverse_append, List.reverse_cons, List.reverse_nil, List.nil_append,
    List.singleton_append, List.takeWhile_cons]
  split_ifs <;> simp

theorem gap_le (pre : List Frame) : gap pre ≤ pre.length := by
  have h := (List.takeWhile_prefix (l := pre.reverse) Frame.drop).length_le
  simpa [gap] using h

theorem packetCount_snoc (pre : List Frame) (f : Frame) :
    packetCount (pre ++ [f]) = packetCount pre + f.packets.length := by
  simp [packetCount]

theorem slip_forwarded (start : UInt16) (pid : ℕ) {pre : List Frame} {f : Frame}
    (hf : f.drop = false) : slip start pid (pre ++ [f]) = 0 := by
  simp [slip, gap_snoc, hf]

/-- A frame dropped right at number zero, before the map has seen a picture id. -/
theorem slip_dropped_late {start : UInt16} (pid : ℕ) {pre : List Frame} {f : Frame}
    (hf : f.drop) (hgap : gap pre = 0) (hstart : 57344 ≤ start.toNat)
    (hzero : start.toNat + packetCount pre = 65536) :
    slip start pid (pre ++ [f]) = 1 + (pid + pre.length) := by
  have htake : (pre ++ [f]).take ((pre ++ [f]).length - 1) = pre := by simp
  rw [slip, gap_snoc, if_pos hf, hgap, Nat.zero_add, htake, if_pos ⟨hstart, by omega, hzero⟩]
  simp

/-- Every other dropped frame adds two. -/
theorem slip_dropped {start : UInt16} (pid : ℕ) {pre : List Frame} {f : Frame} (hf : f.drop)
    (hne : pre ≠ []) (h : gap pre ≠ 0 ∨
      ¬ (57344 ≤ start.toNat ∧ start.toNat + packetCount pre = 65536)) :
    slip start pid (pre ++ [f]) = slip start pid pre + 2 := by
  have hle := gap_le pre
  have hpos := List.length_pos_iff.mpr hne
  have htake : (pre ++ [f]).take ((pre ++ [f]).length - (gap pre + 1)) =
      pre.take (pre.length - gap pre) := by
    rw [List.length_append, List.length_singleton, Nat.add_sub_add_right,
      List.take_append_of_le_length (by omega)]
  simp only [slip, gap_snoc, hf, if_true, htake]
  rcases Nat.eq_zero_or_pos (gap pre) with hzero | hgap
  · have h := h.resolve_left (by omega)
    rw [hzero, Nat.sub_zero, List.take_length, if_neg (by tauto), if_neg (by simp)]
  · simp only [List.length_append, List.length_singleton]
    split_ifs <;> omega

variable {lib : Pion} {w : Width} {start : UInt16} {pid : ℕ} {fs : List Frame}

theorem run_snoc (lib : Pion) (fs : List Frame) (f : Frame) :
    run lib (fs ++ [f]) = sendFrame lib (run lib fs) f := by
  simp [run, List.foldl_append]

/-- The map and the output of a run, the picture id the next forwarded frame
would get being `slip` ahead of the one it should get. -/
structure Written (w : Width) (start : UInt16) (pid : ℕ) (fs : List Frame) (m : Map)
    (out : List (List Bytes)) : Prop where
  position : Position start (packetCount fs) m (.ofNat ((pid + (fs.length - 1)) % w.modulus))
  count : fs ≠ [] → packetCount fs ≠ 0
  untouched : 57344 ≤ start.toNat → start.toNat + packetCount fs ≤ 65536 → gap fs = 0
  written : out = [] ↔ fs = []
  nonempty : ∀ o ∈ out, o ≠ []
  seqno : (out.flatten.map seqnoOf).IsChain fun a b => b = a + 1
  lastSeqno : ∀ x ∈ (out.flatten.map seqnoOf).getLast?,
    x + 1 = start + .ofNat (packetCount fs) + m.delta
  constant : ∀ f ∈ out, ∀ b ∈ f, ∀ b' ∈ f, pictureID w b = pictureID w b'
  lastPid : ∀ o ∈ out.getLast?, ∀ b ∈ o,
    ((pid + (fs.length - 1) : ℕ) + m.pidDelta.toNat : ZMod w.modulus) =
      (pictureID w b : ℕ) + (slip start pid fs : ℕ)
  seam : (out.IsChain fun f g => ∀ b ∈ f, ∀ b' ∈ g,
      pictureID w b' = (pictureID w b + 1) % w.modulus) ↔
    ∀ pre f, pre ++ [f] <+: fs → f.drop = false → w.modulus ∣ slip start pid pre

theorem written_nil : Written w start pid [] {} [] where
  position := by simp [Position, packetCount]
  count := by simp
  untouched := fun _ _ => rfl
  written := by simp
  nonempty := by simp
  seqno := by simp
  lastSeqno := by simp
  constant := by simp
  lastPid := by simp
  seam := by simp

/-- Prefixes of a longer run: the run itself and those of the shorter one. -/
theorem forall_prefix_snoc {P : List Frame → Frame → Prop} (fs : List Frame) (f : Frame) :
    (∀ pre g, pre ++ [g] <+: fs ++ [f] → P pre g) ↔
      (∀ pre g, pre ++ [g] <+: fs → P pre g) ∧ P fs f := by
  constructor
  · intro h
    exact ⟨fun pre g hpre => h pre g (hpre.trans (List.prefix_append _ _)), h fs f List.prefix_rfl⟩
  · intro ⟨h, hf⟩ pre g hpre
    rcases List.prefix_concat_iff.mp hpre with heq | hpre
    · obtain ⟨rfl, hg⟩ := List.append_inj' heq rfl
      obtain rfl : g = f := by simpa using hg
      exact hf
    · exact h pre g hpre

/-- Sixteen bits reduce to either width. -/
theorem cast_toNat_add (w : Width) (a b : UInt16) :
    ((a + b).toNat : ZMod w.modulus) = a.toNat + b.toNat := by
  rw [UInt16.toNat_add, ← Nat.cast_add, ZMod.natCast_eq_natCast_iff']
  cases w <;> simp only [Width.modulus] <;> omega

theorem cast_toNat_sub (w : Width) (a b : UInt16) :
    ((a - b).toNat : ZMod w.modulus) = a.toNat - b.toNat := by
  rw [eq_sub_iff_add_eq, ← cast_toNat_add, sub_add_cancel]

theorem cast_toNat_ofNat_mod (w : Width) (n : ℕ) :
    ((UInt16.ofNat (n % w.modulus)).toNat : ZMod w.modulus) = n := by
  rw [UInt16.toNat_ofNat', ZMod.natCast_eq_natCast_iff']
  cases w <;> simp only [Width.modulus] <;> omega

/-- Two picture ids are a step apart if they are so modulo the width. -/
theorem step_iff (w : Width) {a b : ℕ} (hb : b < w.modulus) :
    b = (a + 1) % w.modulus ↔ (b : ZMod w.modulus) = a + 1 := by
  rw [← Nat.cast_add_one, ZMod.natCast_eq_natCast_iff', Nat.mod_eq_of_lt hb]

theorem Written.forward (hlib : lib.ReadsPictureID) {m : Map} {out : List (List Bytes)}
    (h : Written w start pid fs m out) {f : Frame} (hf : f.drop = false) (hne : f.packets ≠ [])
    (hlen : ∀ p ∈ f.packets, p.buf.length ≤ bufSize)
    (hnumbered : Numbered w (start + .ofNat (packetCount fs)) ((pid + fs.length) % w.modulus)
      (f.packets.map Packet.buf)) :
    Written w start pid (fs ++ [f]) (sendFrame lib (m, out) f).1 (sendFrame lib (m, out) f).2 := by
  obtain ⟨m', outs, hsend, hlength, houts, hpos, hdelta, hpid⟩ :=
    sendAll_forwarded hlib hlen h.position hnumbered
  have hpos' := List.length_pos_iff.mpr hne
  have houtsne : outs ≠ [] := List.ne_nil_of_length_pos (by omega)
  have hframe : sendFrame lib (m, out) f = (m', out ++ [outs]) := by
    simp [sendFrame, hf, hsend, houtsne]
  have hnewpid : ∀ b ∈ outs, ((pid + fs.length : ℕ) + m.pidDelta.toNat : ZMod w.modulus) =
      (pictureID w b : ℕ) := by
    intro b hb
    rw [houts.pictureID b hb, ← Nat.cast_add, ZMod.natCast_eq_natCast_iff']
    simp
  obtain ⟨hchain, hhead, hlast⟩ := houts.seqnos
  rw [hframe]
  constructor
  case position =>
    rw [packetCount_snoc]
    simpa [hne] using hpos
  case count =>
    rw [packetCount_snoc]
    omega
  case untouched => simp [gap_snoc, hf]
  case written => simp
  case nonempty =>
    intro o ho
    rcases List.mem_append.mp ho with ho | ho
    · exact h.nonempty o ho
    · rwa [List.mem_singleton.mp ho]
  case seqno =>
    rw [List.flatten_append, List.map_append, List.isChain_append]
    refine ⟨h.seqno, by simpa using hchain, ?_⟩
    intro x hx y hy
    rw [h.lastSeqno x hx]
    exact hhead y (by simpa using hy)
  case lastSeqno =>
    intro x hx
    have hx : x ∈ (outs.map seqnoOf).getLast? := by
      have hmapne : outs.map seqnoOf ≠ [] := by simpa using houtsne
      simpa [List.getLast?_append, List.getLast?_eq_some_getLast hmapne] using hx
    rw [hlast x hx, packetCount_snoc, hlength, hdelta, UInt16.ofNat_add, ← UInt16.add_assoc,
      add_right_comm]
  case constant =>
    intro o ho b hb b' hb'
    rcases List.mem_append.mp ho with ho | ho
    · exact h.constant o ho b hb b' hb'
    · obtain rfl := List.mem_singleton.mp ho
      rw [houts.pictureID b hb, houts.pictureID b' hb']
  case lastPid =>
    intro o ho b hb
    obtain rfl : outs = o := by simpa using ho
    rw [slip_forwarded start pid hf, hpid]
    simpa using hnewpid b hb
  case seam =>
    rw [List.isChain_append, h.seam, forall_prefix_snoc]
    refine and_congr_right fun _ => ?_
    simp only [List.isChain_singleton, true_and, List.head?_cons, Option.mem_def,
      Option.some.injEq, forall_eq', hf, forall_const]
    rcases eq_or_ne fs [] with rfl | hfs
    · simp [h.written.mpr rfl, slip]
    · have hlen' := List.length_pos_iff.mpr hfs
      obtain ⟨o, ho⟩ := List.getLast?_isSome.mpr (fun he => hfs (h.written.mp he)) |>
        Option.isSome_iff_exists.mp
      obtain ⟨b, hb⟩ := List.exists_mem_of_ne_nil o (h.nonempty o (List.mem_of_getLast? ho))
      obtain ⟨b', hb'⟩ := List.exists_mem_of_ne_nil outs houtsne
      have hslip : ∀ b ∈ o, ∀ b' ∈ outs,
          (pictureID w b' = (pictureID w b + 1) % w.modulus ↔ w.modulus ∣ slip start pid fs) := by
        intro b hb b' hb'
        have hold := h.lastPid o ho b hb
        have hnew := hnewpid b' hb'
        rw [show pid + fs.length = pid + (fs.length - 1) + 1 by omega, Nat.cast_add_one,
          add_right_comm, hold] at hnew
        rw [step_iff w (pictureID_lt w b'), ← hnew, ← ZMod.natCast_eq_zero_iff,
          add_left_inj, add_eq_left]
      simp only [ho, Option.some.injEq, forall_eq']
      exact ⟨fun hall => (hslip b hb b' hb').mp (hall b hb b' hb'),
        fun hdvd b hb b' hb' => (hslip b hb b' hb').mpr hdvd⟩

theorem Written.drop (hlib : lib.ReadsPictureID) {m : Map} {out : List (List Bytes)}
    (h : Written w start pid fs m out) {f : Frame} (hf : f.drop) (hne : f.packets ≠ [])
    (hfs : fs ≠ []) (haccept : Accepts lib m f.packets)
    (hnumbered : Numbered w (start + .ofNat (packetCount fs)) ((pid + fs.length) % w.modulus)
      (f.packets.map Packet.buf)) :
    Written w start pid (fs ++ [f]) (sendFrame lib (m, out) f).1 (sendFrame lib (m, out) f).2 := by
  have hcount := h.count hfs
  have hpos' := List.length_pos_iff.mpr hne
  have hlen := List.length_pos_iff.mpr hfs
  obtain ⟨hnext, m', hsend, hpos, hdelta, hpid⟩ :=
    sendAll_dropped hlib hcount hne h.position hnumbered haccept
  have hframe : sendFrame lib (m, out) f = (m', out) := by simp [sendFrame, hf, hsend]
  have hlate : 57344 ≤ start.toNat → start.toNat + packetCount fs ≤ 65536 →
      m = {} ∧ start.toNat + packetCount fs = 65536 := by
    intro h₁ h₂
    have hm : m = {} := by
      have hposition := h.position
      rwa [Position, if_pos (.inr ⟨h₁, h₂⟩)] at hposition
    have hnumber := toNat_add_ofNat start (packetCount fs)
    rw [← hnext, hm] at hnumber
    change 0 = _ at hnumber
    exact ⟨hm, by omega⟩
  rw [hframe]
  constructor
  case position =>
    rw [packetCount_snoc]
    simpa using hpos
  case count =>
    rw [packetCount_snoc]
    omega
  case untouched =>
    rw [packetCount_snoc]
    intro h₁ h₂
    have := (hlate h₁ (by omega)).2
    omega
  case written => simp [h.written, hfs]
  case nonempty => exact h.nonempty
  case seqno => exact h.seqno
  case lastSeqno =>
    intro x hx
    rw [h.lastSeqno x hx, packetCount_snoc, hdelta, UInt16.ofNat_add, ← UInt16.add_assoc,
      add_add_sub_cancel]
  case constant => exact h.constant
  case lastPid =>
    intro o ho b hb
    have hold := h.lastPid o ho b hb
    have hsucc : ((pid + fs.length : ℕ) : ZMod w.modulus) = (pid + (fs.length - 1) : ℕ) + 1 := by
      rw [← Nat.cast_add_one]
      congr 1
      omega
    rw [hpid, cast_toNat_add, cast_toNat_sub, cast_toNat_ofNat_mod, List.length_append,
      List.length_singleton, Nat.add_sub_cancel]
    by_cases hfresh : 57344 ≤ start.toNat ∧ start.toNat + packetCount fs ≤ 65536
    · obtain ⟨rfl, hzero⟩ := hlate hfresh.1 hfresh.2
      have hgap := h.untouched hfresh.1 hfresh.2
      have hslip : slip start pid fs = 0 := by simp [slip, hgap]
      have hfirst : (({} : Map).pidDelta.toNat : ZMod w.modulus) = 0 := by simp
      rw [hslip, hfirst, Nat.cast_zero] at hold
      rw [slip_dropped_late pid hf hgap hfresh.1 hzero, hfirst, Nat.cast_add 1,
        Nat.cast_one]
      linear_combination hold + hsucc
    · have hposition := h.position
      rw [Position, if_neg (by omega)] at hposition
      rw [slip_dropped pid hf hfs (.inr (by omega)), hposition.nextPid, cast_toNat_ofNat_mod,
        hsucc, Nat.cast_add (slip start pid fs), Nat.cast_ofNat]
      linear_combination hold
  case seam =>
    rw [h.seam, forall_prefix_snoc]
    simp [hf]

theorem run_written (hlib : lib.ReadsPictureID) (hs : InOrder w start pid fs)
    (hc : Chosen lib fs) : Written w start pid fs (run lib fs).1 (run lib fs).2 := by
  induction fs using List.reverseRecOn with
  | nil => exact written_nil
  | append_singleton fs f ih =>
      obtain ⟨hs, hne, hlen, hnumbered⟩ := (forall_prefix_snoc fs f).mp hs
      obtain ⟨hc, hdrop⟩ := (forall_prefix_snoc fs f).mp hc
      rw [run_snoc]
      cases hf : f.drop with
      | false => exact (ih hs hc).forward hlib hf hne hlen hnumbered
      | true =>
          obtain ⟨hfs, haccept⟩ := hdrop hf
          exact (ih hs hc).drop hlib hf hne hfs haccept hnumbered

/-- A viewer cannot tell from the forwarded packets that frames were dropped
exactly if no frame is forwarded behind a gap that shows. -/
theorem seamless_iff (hlib : lib.ReadsPictureID) (hs : InOrder w start pid fs)
    (hc : Chosen lib fs) : Seamless w (run lib fs).2 ↔
      ∀ pre f, pre ++ [f] <+: fs → f.drop = false → w.modulus ∣ slip start pid pre := by
  have h := run_written hlib hs hc
  rw [← h.seam]
  exact ⟨fun hs => hs.pictureID, fun hp => ⟨h.seqno, h.constant, hp⟩⟩

/-- A one-packet frame as a sender makes it, with a long picture id. -/
def sampleFrame (seqno pid : UInt8) (drop : Bool) : Frame :=
  ⟨[⟨[0x80, 0, 0, seqno, 0, 0, 0, 0, 0, 0, 0, 0, 0x90, 0x80, 0x80, pid, 0, 0, 0, 0], false⟩], drop⟩

def sampleStream : List Frame :=
  [sampleFrame 42 57 false, sampleFrame 43 58 true, sampleFrame 44 59 false]

theorem sampleStream_inOrder : InOrder .long 42 57 sampleStream := by
  refine (forall_prefix_snoc [_, _] _).mpr ⟨(forall_prefix_snoc [_] _).mpr
    ⟨(forall_prefix_snoc [] _).mpr ⟨by simp, ?_⟩, ?_⟩, ?_⟩
  all_goals
    simp only [sampleFrame, Numbered, List.map_cons, List.map_nil]
    decide +kernel

theorem sampleStream_chosen : Chosen descriptorReader sampleStream := by
  refine (forall_prefix_snoc [_, _] _).mpr ⟨(forall_prefix_snoc [_] _).mpr
    ⟨(forall_prefix_snoc [] _).mpr ⟨by simp, ?_⟩, ?_⟩, ?_⟩
  · simp [sampleFrame]
  · intro _
    exact ⟨by simp, _, rfl, by decide +kernel, trivial⟩
  · simp [sampleFrame]

theorem sampleStream_seamless_iff : Seamless .long (run descriptorReader sampleStream).2 ↔
    ∀ pre f, pre ++ [f] <+: sampleStream → f.drop = false →
      Width.long.modulus ∣ slip 42 57 pre :=
  seamless_iff descriptorReader_readsPictureID sampleStream_inOrder sampleStream_chosen

/-- One dropped frame, and the picture id jumps from 57 to 60. -/
theorem sampleStream_run : (run descriptorReader sampleStream).2 =
    [(sampleFrame 42 57 false).packets.map Packet.buf,
      (sampleFrame 43 60 false).packets.map Packet.buf] := by
  decide +kernel

theorem not_seamless : ¬ ∀ (lib : Pion) (w : Width) (start : UInt16) (pid : ℕ) (fs : List Frame),
    lib.ReadsPictureID → InOrder w start pid fs → Chosen lib fs → Seamless w (run lib fs).2 := by
  intro h
  have hseamless := (h _ _ _ _ _ descriptorReader_readsPictureID sampleStream_inOrder
    sampleStream_chosen).pictureID
  rw [sampleStream_run, List.isChain_pair] at hseamless
  have hstep := hseamless _ List.mem_cons_self _ List.mem_cons_self
  revert hstep
  decide +kernel

end Runs

end Sozvon.DownTrack
