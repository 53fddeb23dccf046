import Mathlib.Data.List.Basic
import Mathlib.Data.Nat.Notation

/-!
# Network addresses

The addresses of `net/netip` and their texts. A text is its bytes, as it is in
Go, whether or not they are a character's.
-/
namespace Sozvon.NetAddr

abbrev Text := List UInt8

/-- The bytes of a text of ASCII characters. -/
def ascii (s : String) : Text := s.toList.map fun c => c.toNat.toUInt8

/-- `,` -/
def comma : UInt8 := 0x2c
/-- `.` -/
def dot : UInt8 := 0x2e
/-- `/` -/
def slash : UInt8 := 0x2f
/-- `:` -/
def colon : UInt8 := 0x3a
/-- `%` -/
def percent : UInt8 := 0x25
/-- `[` -/
def opening : UInt8 := 0x5b
/-- `]` -/
def closing : UInt8 := 0x5d

/-! ## Space -/

/-- The encodings of the characters that `unicode.IsSpace` holds of. -/
def spaces : List Text :=
  [[0x20], [0x09], [0x0a], [0x0b], [0x0c], [0x0d], [0xc2, 0x85], [0xc2, 0xa0], [0xe1, 0x9a, 0x80],
    [0xe2, 0x80, 0x80], [0xe2, 0x80, 0x81], [0xe2, 0x80, 0x82], [0xe2, 0x80, 0x83],
    [0xe2, 0x80, 0x84], [0xe2, 0x80, 0x85], [0xe2, 0x80, 0x86], [0xe2, 0x80, 0x87],
    [0xe2, 0x80, 0x88], [0xe2, 0x80, 0x89], [0xe2, 0x80, 0x8a], [0xe2, 0x80, 0xa8],
    [0xe2, 0x80, 0xa9], [0xe2, 0x80, 0xaf], [0xe2, 0x81, 0x9f], [0xe3, 0x80, 0x80]]

/-- Drop what is in `ws` from the front, at most `n` times. -/
def trimFront (ws : List Text) : ℕ → Text → Text
  | 0, s => s
  | n + 1, s =>
      match ws.findSome? fun w => s.dropPrefix? w with
      | some rest => trimFront ws n rest
      | none => s

/-- `strings.TrimSpace` -/
def trimSpace (s : Text) : Text :=
  let s := trimFront spaces s.length s
  (trimFront (spaces.map List.reverse) s.length s.reverse).reverse

theorem trimSpace_space (s : Text) : trimSpace (0x20 :: s) = trimSpace s := by
  have hfront : trimFront spaces (s.length + 1) (0x20 :: s) = trimFront spaces s.length s := by
    simp [trimFront, spaces, List.dropPrefix?]
  unfold trimSpace
  rw [List.length_cons, hfront]

/-! ## Addresses -/

/-- A valid `netip.Addr`. -/
inductive Addr where
  | v4 (bits : BitVec 32)
  | v6 (bits : BitVec 128) (zone : Text)
deriving DecidableEq

/-- A valid `netip.Prefix`, which has no zone. -/
structure Prefix where
  addr : Addr
  bits : ℕ
deriving DecidableEq

structure AddrPort where
  addr : Addr
  port : ℕ
deriving DecidableEq

namespace Addr

/-- An IPv6 address that holds an IPv4 one. -/
def is4In6 : Addr → Bool
  | v4 _ => false
  | v6 bits _ => bits.extractLsb' 32 96 = 0xffff#96

def unmap : Addr → Addr
  | v4 bits => v4 bits
  | v6 bits zone => if is4In6 (v6 bits zone) then v4 (bits.extractLsb' 0 32) else v6 bits zone

theorem unmap_unmap (a : Addr) : a.unmap.unmap = a.unmap := by
  cases a with
  | v4 bits => rfl
  | v6 bits zone =>
      by_cases h : is4In6 (v6 bits zone)
      · simp [unmap, h]
      · simp [unmap, h]

def bitLen : Addr → ℕ
  | v4 _ => 32
  | v6 _ _ => 128

def withoutZone : Addr → Addr
  | v4 bits => v4 bits
  | v6 bits _ => v6 bits []

end Addr

namespace Prefix

/-- `netip.PrefixFrom`, for a number of bits that the address has. -/
def of (a : Addr) (bits : ℕ) : Prefix := ⟨a.withoutZone, bits⟩

/-- The bits after the first ones are cleared. -/
def masked (p : Prefix) : Prefix :=
  match p.addr with
  | .v4 bits => ⟨.v4 ((bits >>> (32 - p.bits)) <<< (32 - p.bits)), p.bits⟩
  | .v6 bits zone => ⟨.v6 ((bits >>> (128 - p.bits)) <<< (128 - p.bits)) zone, p.bits⟩

/-- No prefix holds an address with a zone, or one of the other kind. -/
def contains (p : Prefix) : Addr → Bool
  | .v4 bits =>
      match p.addr with
      | .v4 net => (bits ^^^ net) >>> (32 - p.bits) = 0#32
      | .v6 _ _ => false
  | .v6 bits zone =>
      match p.addr with
      | .v4 _ => false
      | .v6 net _ => zone = [] && (bits ^^^ net) >>> (128 - p.bits) = 0#128

end Prefix

/-! ## Reading -/

def digit (c : UInt8) : Option ℕ := if 0x30 ≤ c ∧ c ≤ 0x39 then some (c - 0x30).toNat else none

def hexDigit (c : UInt8) : Option ℕ :=
  if 0x30 ≤ c ∧ c ≤ 0x39 then some (c - 0x30).toNat
  else if 0x61 ≤ c ∧ c ≤ 0x66 then some ((c - 0x61).toNat + 10)
  else if 0x41 ≤ c ∧ c ≤ 0x46 then some ((c - 0x41).toNat + 10)
  else none

/-- The number with these digits. -/
def ofDigits (base : ℕ) (digits : List ℕ) : ℕ := digits.foldl (fun n d => base * n + d) 0

/-- A number without a sign that is at most `max`. -/
def parseDecimal (max : ℕ) (s : Text) : Option ℕ := do
  let n := ofDigits 10 (← s.mapM digit)
  if s ≠ [] ∧ n ≤ max then some n else none

/-- A field of a dotted address, which has no zeros in front. -/
def parseOctet (s : Text) : Option ℕ :=
  if s.length > 1 ∧ s.head? = some 0x30 then none else parseDecimal 255 s

/-- The fields of a dotted address. -/
def parseIPv4Fields (s : Text) : Option (List ℕ) :=
  let fields := s.splitOn dot
  if fields.length = 4 then fields.mapM parseOctet else none

def parseIPv4 (s : Text) : Option Addr :=
  (parseIPv4Fields s).map fun fields => .v4 (BitVec.ofNat 32 (ofDigits 256 fields))

/-- What has been read of an IPv6 address: its 16-bit groups, and where the ellipsis is. -/
structure Groups where
  groups : List ℕ := []
  ellipsis : Option ℕ := none

/-- The zeros that the ellipsis stands for are put in: one group at least. -/
def Groups.expand (g : Groups) : Option (List ℕ) :=
  match g.ellipsis with
  | none => if g.groups.length = 8 then some g.groups else none
  | some i =>
      if g.groups.length < 8 then
        some (g.groups.take i ++ List.replicate (8 - g.groups.length) 0 ++ g.groups.drop i)
      else none

/-- The loop of `parseIPv6`, which goes round once for each of the groups there is room for. -/
def parseGroups : ℕ → Groups → Text → Option (List ℕ)
  | 0, g, s => if s = [] then g.expand else none
  | n + 1, g, s =>
      let hex := s.takeWhile fun c => (hexDigit c).isSome
      let rest := s.dropWhile fun c => (hexDigit c).isSome
      if hex = [] ∨ 4 < hex.length then none
      else match rest with
        | [] => { g with groups := g.groups ++ [ofDigits 16 (hex.filterMap hexDigit)] : Groups }.expand
        | c :: rest =>
            if c = dot then
              -- the last two groups as an IPv4 address
              if g.ellipsis = none ∧ g.groups.length ≠ 6 ∨ 6 < g.groups.length then none
              else match parseIPv4Fields s with
                | some [a, b, c, d] =>
                    { g with groups := g.groups ++ [256 * a + b, 256 * c + d] : Groups }.expand
                | _ => none
            else if c ≠ colon then none
            else
              let g := { g with groups := g.groups ++ [ofDigits 16 (hex.filterMap hexDigit)] }
              match rest with
              | [] => none
              | c' :: rest' =>
                  if c' = colon then
                    if g.ellipsis.isSome then none
                    else
                      let g := { g with ellipsis := some g.groups.length }
                      if rest' = [] then g.expand else parseGroups n g rest'
                  else parseGroups n g rest

def parseIPv6 (s : Text) : Option Addr := do
  let addr := s.takeWhile (· ≠ percent)
  let zone := (s.dropWhile (· ≠ percent)).drop 1
  if percent ∈ s ∧ zone = [] then none
  let groups ←
    if addr.take 2 = [colon, colon] then
      let g : Groups := { ellipsis := some 0 }
      if addr.length = 2 then g.expand else parseGroups 8 g (addr.drop 2)
    else parseGroups 8 {} addr
  return .v6 (BitVec.ofNat 128 (ofDigits 65536 groups)) zone

/-- `netip.ParseAddr` -/
def parseAddr (s : Text) : Option Addr :=
  match s.find? fun c => c = dot ∨ c = colon ∨ c = percent with
  | some c => if c = dot then parseIPv4 s else if c = colon then parseIPv6 s else none
  | none => none

/-- The texts on both sides of the last `c`. -/
def cutLast (c : UInt8) (s : Text) : Option (Text × Text) :=
  if c ∈ s then
    let back := s.reverse
    some (((back.dropWhile (· ≠ c)).drop 1).reverse, (back.takeWhile (· ≠ c)).reverse)
  else none

/-- `netip.ParseAddrPort`: brackets stand round an IPv6 address and no other. -/
def parseAddrPort (s : Text) : Option AddrPort := do
  let (ip, port) ← cutLast colon s
  let port ← parseDecimal 65535 port
  if ip.head? = some opening then
    if ip.length < 2 ∨ ip.getLast? ≠ some closing then none
    match ← parseAddr (ip.drop 1).dropLast with
    | .v4 _ => none
    | .v6 bits zone => return ⟨.v6 bits zone, port⟩
  else
    match ← parseAddr ip with
    | .v4 bits => return ⟨.v4 bits, port⟩
    | .v6 _ _ => none

/-- `netip.ParsePrefix` -/
def parsePrefix (s : Text) : Option Prefix := do
  let (ip, bits) ← cutLast slash s
  let a ← parseAddr ip
  if a ≠ a.withoutZone then none
  if bits.length > 1 ∧ bits.head? = some 0x30 then none
  let bits ← parseDecimal a.bitLen bits
  return .of a bits

/-! ## Writing -/

def digits (base n : ℕ) : Text := ascii (String.ofList (Nat.toDigits base n))

def writeIPv4 (bits : BitVec 32) : Text :=
  (digits 10 (bits.extractLsb' 24 8).toNat) ++ dot :: digits 10 (bits.extractLsb' 16 8).toNat ++
    dot :: digits 10 (bits.extractLsb' 8 8).toNat ++ dot :: digits 10 (bits.extractLsb' 0 8).toNat

def group (bits : BitVec 128) (i : ℕ) : ℕ := (bits.extractLsb' (112 - 16 * i) 16).toNat

/-- How many groups are zero from the `i`-th on. -/
def zeros (bits : BitVec 128) (i : ℕ) : ℕ :=
  ((List.range' i (8 - i)).takeWhile fun j => group bits j = 0).length

/-- The first of the longest runs of two or more zero groups. -/
def longestZeros (bits : BitVec 128) : ℕ × ℕ :=
  (List.range 8).foldl (fun (start, length) i =>
    let l := zeros bits i
    if 2 ≤ l ∧ length < l then (i, l) else (start, length)) (0, 0)

def joinGroups (bits : BitVec 128) (is : List ℕ) : Text :=
  [colon].intercalate (is.map fun i => digits 16 (group bits i))

def writeIPv6 (bits : BitVec 128) : Text :=
  match longestZeros bits with
  | (_, 0) => joinGroups bits (List.range 8)
  | (start, length) =>
      joinGroups bits (List.range start) ++ colon :: colon ::
        joinGroups bits (List.range' (start + length) (8 - (start + length)))

def writeZone (zone : Text) : Text := if zone = [] then [] else percent :: zone

/-- `Addr.String` -/
def Addr.write : Addr → Text
  | v4 bits => writeIPv4 bits
  | v6 bits zone =>
      if is4In6 (v6 bits zone) then
        ascii "::ffff:" ++ writeIPv4 (bits.extractLsb' 0 32) ++ writeZone zone
      else writeIPv6 bits ++ writeZone zone

/-- `AddrPort.String` -/
def AddrPort.write (p : AddrPort) : Text :=
  match p.addr with
  | .v4 bits => writeIPv4 bits ++ colon :: digits 10 p.port
  | .v6 _ _ => opening :: p.addr.write ++ closing :: colon :: digits 10 p.port

end Sozvon.NetAddr
