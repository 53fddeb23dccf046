import Sozvon.Codecs
import Sozvon.PacketMap
import Sozvon.Rings

/-!
# The packet cache

The history of recently received packets of `packetcache`, with the statistics
that go into receiver reports and the bitmap of recent losses. The cache is a
ring of entries; `tail` is the index that is written next and, as a capacity is
at most 65535, never overflows its sixteen bits.
-/
namespace Sozvon.PacketCache
open Codecs (Bytes)

def bufSize : ℕ := 1504

/-- A cached packet: `lengthAndMarker` is 1 bit of marker and 15 bits of length. -/
structure Entry where
  seqno : UInt16 := 0
  lengthAndMarker : UInt16 := 0
  timestamp : UInt32 := 0
  buf : Bytes := List.replicate bufSize 0
deriving DecidableEq, Repr

def Entry.length (e : Entry) : UInt16 := e.lengthAndMarker &&& 0x7FFF

def Entry.marker (e : Entry) : Bool := e.lengthAndMarker &&& 0x8000 ≠ 0

/-- What is copied out of an entry into a buffer that is large enough. -/
def Entry.data (e : Entry) : Bytes := e.buf.take e.length.toNat

/-- Recent loss history: bit `i` is for the number `first + i`. -/
structure Bitmap where
  valid : Bool := false
  first : UInt16 := 0
  bitmap : BitVec 32 := 0
deriving DecidableEq, Repr

structure Cache where
  last : UInt16 := 0
  cycle : UInt16 := 0
  lastValid : Bool := false
  expected : UInt32 := 0
  totalExpected : UInt32 := 0
  received : UInt32 := 0
  totalReceived : UInt32 := 0
  keyframe : UInt16 := 0
  keyframeValid : Bool := false
  bitmap : Bitmap := {}
  tail : ℕ := 0
  entries : List Entry
deriving DecidableEq, Repr

def new (capacity : ℕ) : Cache := { entries := List.replicate capacity {} }

/-- Comparison modulo `2^16`, the one of the packet map. -/
abbrev compare (s1 s2 : UInt16) : ℤ := PacketMap.compare s1 s2

/-- Whether a number is unreasonably far in the past. -/
def seqnoInvalid (seqno reference : UInt16) : Bool :=
  if compare reference seqno < 0 then false else 0x100 < reference - seqno

/-- The number of zeros below the lowest one, 32 where there is no one. -/
def trailingZeros (b : BitVec 32) : ℕ :=
  ((List.range 32).find? fun i => b.getLsbD i).getD 32

/-- Set a bit in the bitmap, shifting if necessary. -/
def Bitmap.set (bitmap : Bitmap) (seqno : UInt16) : Bitmap :=
  if ¬ bitmap.valid ∨ seqnoInvalid seqno bitmap.first then
    { first := seqno, bitmap := 1, valid := true }
  else if 0 < compare bitmap.first seqno then bitmap
  else
    let bitmap :=
      if 32 ≤ seqno - bitmap.first then
        let shift := seqno - bitmap.first - 31
        { bitmap with bitmap := bitmap.bitmap >>> shift.toNat, first := bitmap.first + shift }
      else bitmap
    let bitmap :=
      if bitmap.bitmap.getLsbD 0 then
        let ones := trailingZeros (~~~bitmap.bitmap)
        { bitmap with bitmap := bitmap.bitmap >>> ones, first := bitmap.first + .ofNat ones }
      else bitmap
    { bitmap with bitmap := bitmap.bitmap ||| 1#32 <<< (seqno - bitmap.first).toNat }

/-- Shift up to 17 bits out of the bitmap: whether any of them was 0, the number
of the first that was, and a bitmap of the ones after it. -/
def Bitmap.get (bitmap : Bitmap) (next : UInt16) : Bitmap × Bool × UInt16 × UInt16 :=
  let first := bitmap.first
  if 0 ≤ compare first next then (bitmap, false, first, 0)
  else
    let count := if 17 < next - first then 17 else next - first
    let bm := ~~~bitmap.bitmap &&& ~~~(BitVec.allOnes 32 <<< count.toNat)
    let bitmap :=
      { bitmap with bitmap := bitmap.bitmap >>> count.toNat, first := bitmap.first + count }
    if bm = 0 then (bitmap, false, first, 0)
    else
      let zeros := if bm.getLsbD 0 then 0 else trailingZeros bm
      (bitmap, true, first + .ofNat zeros, .ofBitVec ((bm >>> zeros >>> 1).setWidth 16))

/-- The statistics and the last number and keyframe after a packet. -/
def Cache.count (cache : Cache) (seqno : UInt16) : Cache :=
  if ¬ cache.lastValid ∨ seqnoInvalid seqno cache.last then
    { cache with
        last := seqno, lastValid := true
        expected := cache.expected + 1, received := cache.received + 1 }
  else if compare cache.last seqno < 0 then
    { cache with
        received := cache.received + 1
        expected := cache.expected + (seqno - cache.last).toUInt32
        cycle := if seqno < cache.last then cache.cycle + 1 else cache.cycle
        last := seqno
        keyframeValid := cache.keyframeValid ∧ ¬ 0 < compare cache.keyframe seqno }
  else if 0 < compare cache.last seqno ∧ cache.received < cache.expected then
    { cache with received := cache.received + 1 }
  else cache

/-- A packet written over an entry. -/
def Entry.write (e : Entry) (seqno : UInt16) (timestamp : UInt32) (marker : Bool) (buf : Bytes) :
    Entry where
  seqno
  buf := buf.take bufSize ++ e.buf.drop buf.length
  lengthAndMarker := if marker then .ofNat buf.length ||| 0x8000 else .ofNat buf.length
  timestamp

/-- Store a packet. The answer is the first number in the bitmap and the index
at which the packet was stored. -/
def Cache.store (cache : Cache) (seqno : UInt16) (timestamp : UInt32) (keyframe marker : Bool)
    (buf : Bytes) : Cache × UInt16 × ℕ :=
  let cache := cache.count seqno
  let cache := { cache with bitmap := cache.bitmap.set seqno }
  let cache := if keyframe then { cache with keyframe := seqno, keyframeValid := true } else cache
  let i := cache.tail
  let entry := (cache.entries.getD i {}).write seqno timestamp marker buf
  let cache := { cache with
    entries := cache.entries.set i entry, tail := (i + 1) % cache.entries.length }
  (cache, cache.bitmap.first, i)

def Cache.expect (cache : Cache) (n : ℤ) : Cache :=
  if n ≤ 0 then cache else { cache with expected := cache.expected + .ofInt n }

/-- The entry of a packet, the first one in the order of the slice. -/
def find (seqno : UInt16) (entries : List Entry) : Option Entry :=
  entries.find? fun e => e.lengthAndMarker ≠ 0 ∧ e.seqno = seqno

/-- The bytes of a packet, none of them if it is not there. -/
def Cache.get (cache : Cache) (seqno : UInt16) : Bytes :=
  ((find seqno cache.entries).map Entry.data).getD []

/-- The size of a packet, as asked for with an empty buffer. -/
def Cache.getSize (cache : Cache) (seqno : UInt16) : UInt16 :=
  ((find seqno cache.entries).map Entry.length).getD 0

def Cache.lastSeqno (cache : Cache) : Option UInt16 :=
  if cache.lastValid then some cache.last else none

/-- The bytes of a packet that is assumed to be at an index. -/
def Cache.getAt (cache : Cache) (seqno : UInt16) (index : ℕ) : Bytes :=
  match cache.entries[index]? with
  | none => []
  | some e => if e.seqno ≠ seqno then [] else e.data

def Cache.keyframeSeqno (cache : Cache) : Option UInt16 :=
  if cache.keyframeValid then some cache.keyframe else none

def Cache.resize (cache : Cache) (capacity : ℕ) : Cache :=
  let tail := cache.tail
  let entries := cache.entries
  if entries.length = capacity then cache
  else if entries.length < capacity then
    { cache with entries :=
        entries.take tail ++ List.replicate (capacity - entries.length) {} ++ entries.drop tail }
  else if tail < capacity then
    { cache with entries := entries.take tail ++ entries.drop (tail + entries.length - capacity) }
  else
    -- too bad, invalidate all indices
    { cache with entries := (entries.take tail).drop (tail - capacity), tail := 0 }

/-- Like `resize`, but it avoids invalidating recent indices. -/
def Cache.resizeCond (cache : Cache) (capacity : ℕ) : Cache × Bool :=
  let current := cache.entries.length
  if capacity * 3 / 4 ≤ current ∧ current < capacity * 2 then (cache, false)
  else if capacity < current ∧ capacity < cache.tail then (cache, false)
  else (cache.resize capacity, true)

structure Stats where
  received : UInt32
  totalReceived : UInt32
  expected : UInt32
  totalExpected : UInt32
  eSeqno : UInt32
deriving DecidableEq, Repr

def Cache.getStats (cache : Cache) (reset : Bool) : Cache × Stats :=
  let s : Stats :=
    { received := cache.received
      totalReceived := cache.totalReceived + cache.received
      expected := cache.expected
      totalExpected := cache.totalExpected + cache.expected
      eSeqno := cache.cycle.toUInt32 <<< 16 ||| cache.last.toUInt32 }
  if reset then
    ({ cache with
        totalExpected := cache.totalExpected + cache.expected, expected := 0
        totalReceived := cache.totalReceived + cache.received, received := 0 }, s)
  else (cache, s)

/-- The numbers after `first` that a bitmap can cover, up to the first one that
it cannot. -/
def cover (first bitmap : UInt16) : List UInt16 → UInt16 × List UInt16
  | [] => (bitmap, [])
  | s :: remain =>
      let delta := s - first - 1
      if 16 ≤ delta then (bitmap, s :: remain)
      else cover first (bitmap ||| 1 <<< delta) remain

/-- The first number and a bitmap covering a front part of the list, which is
not empty, and the part of it that could not be covered. -/
def toBitmap (first : UInt16) (remain : List UInt16) : UInt16 × UInt16 × List UInt16 :=
  (first, cover first 0 remain)

end Sozvon.PacketCache
