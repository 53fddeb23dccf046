import Sozvon.UriComponents
import Sozvon.WhiteSpace

/-!
# Links to rooms

A link to a room is made of the address of a server and the name of the room, and is
found again in a text that somebody pasted. What the browser makes of an address is a
parameter.
-/
namespace Sozvon.RoomLinks
open Utf16 UriComponents WhiteSpace

section Definitions

def units (s : String) : Units := ofChars s.toList

def SLASH : UInt16 := 0x2f

def APOSTROPHE : UInt16 := 0x27

def QUOTE : UInt16 := 0x22

def HTTPS : Units := units "https://"

def HTTP : Units := units "http://"

/-- Capital letters are made small. -/
def lower (u : UInt16) : UInt16 := if 0x41 ≤ u.toNat ∧ u.toNat ≤ 0x5a then u + 0x20 else u

/-- The length of `https?:\/\/`, in capital or small letters. -/
def schemeLength (text : Units) : Option ℕ :=
  if (text.take HTTPS.length).map lower = HTTPS then some HTTPS.length
  else if (text.take HTTP.length).map lower = HTTP then some HTTP.length
  else none

/-- A unit of an address, `[^\s<>"'«»]`. -/
def inAddress (u : UInt16) : Bool :=
  !isSpace u && !([0x3c, 0x3e, QUOTE, APOSTROPHE, 0xab, 0xbb].contains u)

/-- The address that begins at the beginning of the text. -/
def addressAt (text : Units) : Option Units :=
  match schemeLength text with
  | none => none
  | some n =>
      let rest := (text.drop n).takeWhile inAddress
      if rest = [] then none else some (text.take n ++ rest)

/-- The first address in the text. -/
def firstAddress : Units → Option Units
  | [] => none
  | u :: rest => (addressAt (u :: rest)).or (firstAddress rest)

/-- A unit that is left out at the end of an address, `[.,;:!?)\]]`. -/
def isClosing (u : UInt16) : Bool := [0x2e, 0x2c, 0x3b, 0x3a, 0x21, 0x3f, 0x29, 0x5d].contains u

def isDigit (u : UInt16) : Bool := 0x30 ≤ u.toNat ∧ u.toNat ≤ 0x39

/-- A unit of a host, `[a-z0-9-]` or a dot, in capital or small letters. -/
def isHostUnit (u : UInt16) : Bool :=
  let n := (lower u).toNat
  0x61 ≤ n ∧ n ≤ 0x7a ∨ isDigit u ∨ n = 0x2d ∨ n = 0x2e

/-- A host, `localhost|[a-z0-9-]+(\.[a-z0-9-]+)+`. -/
def isHost (host : Units) : Bool :=
  let labels := host.splitOn 0x2e
  host.map lower = units "localhost" ∨ 1 < labels.length ∧ [] ∉ labels

/-- What is left after `(:\d+)?`. -/
def afterPort (rest : Units) : Units :=
  match rest with
  | u :: d :: more => if u = 0x3a ∧ isDigit d then more.dropWhile isDigit else rest
  | _ => rest

/-- A page of a host or nothing, `(\/\S*)?`. -/
def isPage (rest : Units) : Bool :=
  match rest with
  | [] => true
  | u :: more => u = SLASH ∧ more.all fun v => !isSpace v

def isBareHost (t : Units) : Bool :=
  isHost (t.takeWhile isHostUnit) && isPage (afterPort (t.dropWhile isHostUnit))

def findAddress (text : Units) : Option Units :=
  match firstAddress text with
  | some m => some (m.rdropWhile isClosing)
  | none =>
      let t := trim isSpace text
      if isBareHost t then some (HTTPS ++ t) else none

/-- What is read of a `URL`; of its parameters, whether there is a token. -/
structure Url where
  href : Units
  protocol : Units
  hostname : Units
  host : Units
  origin : Units
  pathname : Units
  token : Bool
deriving DecidableEq, Repr

inductive Kind where
  | room
  | link
  | server
deriving DecidableEq, Repr

structure Invite where
  url : Units
  origin : Units
  host : Units
  kind : Kind
  room : Option Units
deriving DecidableEq, Repr

inductive InviteError where
  | empty
  | notUrl
  | notHttps
deriving DecidableEq, Repr

def safeDecode (s : Units) : Units := (decodeURIComponent s).getD s

/-- The kind of a link and the room, from its path. -/
def destination (u : Url) : Kind × Option Units :=
  let segs := (u.pathname.splitOn SLASH).filter (· ≠ [])
  if segs.head? = some (units "group") ∧ 1 < segs.length then
    (.room, some ([SLASH].intercalate ((segs.drop 1).map safeDecode)))
  else if segs.length = 1 ∧ u.token then (.link, segs.head?.map safeDecode)
  else if 0 < segs.length then (.room, some ([SLASH].intercalate (segs.map safeDecode)))
  else (.server, none)

/-- An address that is no URL has no `parse`. -/
def parseInvite (parse : Units → Option Url) (text : Units) : Except InviteError Invite :=
  if trim isSpace text = [] then .error .empty
  else
    match (findAddress text).bind parse with
    | none => .error .notUrl
    | some u =>
        if u.hostname = [] then .error .notUrl
        else if u.protocol ≠ units "https:" then .error .notHttps
        else .ok ⟨u.href, u.origin, u.host, (destination u).1, (destination u).2⟩

/-- There is no address of a room with a lone surrogate in its name. -/
def roomUrl (origin room : Units) : Option Units :=
  let base := origin.rdropWhile (· == SLASH)
  let r := trim (· == SLASH) (trim isSpace room)
  if r = [] then some (base ++ [SLASH])
  else
    ((r.splitOn SLASH).mapM encodeURIComponent).map fun segs =>
      base ++ units "/group/" ++ [SLASH].intercalate segs ++ [SLASH]

/-- The path of a file in directories. -/
def pathOf (dirs : List Units) (last : Units) : Units :=
  SLASH :: (dirs.flatMap fun s => s ++ [SLASH]) ++ last

/-- A segment that a browser leaves as it is: escaped, and no way to the directory itself or to the
one above. -/
structure PlainSegment (s : Units) : Prop where
  escaped : ∀ u ∈ s, u = 0x25 ∨ isUnreserved u.toNat
  notSame : decodeURIComponent s ≠ some (units ".")
  notAbove : decodeURIComponent s ≠ some (units "..")

def IsHttpsOrigin (parse : Units → Option Url) (origin : Units) : Prop :=
  ∃ text u, parse text = some u ∧ u.protocol = units "https:" ∧ u.origin = origin

/-- A host and a port, as they are printed: in ASCII, and without `/`, `<`, `>` and `%`. -/
def IsAuthority (authority : Units) : Prop :=
  authority ≠ [] ∧ ∀ v ∈ authority,
    0x20 < v.toNat ∧ v.toNat < 0x7f ∧ v ∉ [SLASH, 0x3c, 0x3e, 0x25]

/-- What is relied on of the browser. -/
structure UrlStandard (parse : Units → Option Url) : Prop where
  /-- An origin ends with the host and the port. -/
  origin : ∀ {text u}, parse text = some u → u.protocol = units "https:" →
    ∃ authority, u.origin = HTTPS ++ authority ∧ IsAuthority authority
  /-- An origin and a plain path are parsed into themselves. -/
  path : ∀ {origin dirs last}, IsHttpsOrigin parse origin → (∀ s ∈ dirs, PlainSegment s) →
    PlainSegment last → ∃ u, parse (origin ++ pathOf dirs last) = some u ∧
      u.protocol = units "https:" ∧ u.origin = origin ∧ u.hostname ≠ [] ∧
      u.pathname = pathOf dirs last
  /-- No quotation marks come into an origin, except from bytes that are percent-encoded. -/
  quotes : ∀ {text u q}, q = APOSTROPHE ∨ q = QUOTE → (∀ v ∈ text, v.toNat < 0x80 ∧ v ≠ 0x25) →
    q ∉ text → parse text = some u → q ∉ u.origin

/-- Segments that are not empty and are no way to the same or to another directory. -/
def IsSegment (s : List Char) : Prop := s ≠ [] ∧ '/' ∉ s ∧ s ≠ ['.'] ∧ s ≠ ['.', '.']

instance : DecidablePred IsSegment := fun _ => inferInstanceAs (Decidable (_ ∧ _))

def IsRoom (room : Units) : Prop :=
  Trimmed isSpace room ∧
    ∃ segs, segs ≠ [] ∧ (∀ s ∈ segs, IsSegment s) ∧ room = ofChars (['/'].intercalate segs)

/-- Words around a link, apart from it and with no address before it. -/
structure Around (before after : Units) : Prop where
  apartBefore : ∀ u ∈ before.getLast?, isSpace u
  apartAfter : ∀ u ∈ after.head?, isSpace u
  wordsBefore : firstAddress before = none

/-- The text is an invitation into that room. -/
def Invites (parse : Units → Option Url) (text origin room : Units) : Prop :=
  ∃ invite, parseInvite parse text = .ok invite ∧ invite.origin = origin ∧
    invite.kind = .room ∧ invite.room = some room

end Definitions

section Addresses

theorem inAddress_of_printing {u : UInt16} (hlow : 0x20 < u.toNat) (hhigh : u.toNat < 0x7f)
    (h : u ∉ [0x3c, 0x3e, QUOTE, APOSTROPHE]) : inAddress u := by
  have hspace : isSpace u = false := by
    simp only [isSpace, decide_eq_false_iff_not]
    omega
  have hleft : u ≠ 0xab := by
    rintro rfl
    exact absurd hhigh (by decide)
  have hright : u ≠ 0xbb := by
    rintro rfl
    exact absurd hhigh (by decide)
  simp only [List.mem_cons, List.not_mem_nil, or_false, not_or] at h
  simp [inAddress, hspace, h, hleft, hright]

theorem inAddress_https : ∀ u ∈ HTTPS, inAddress u := List.all_eq_true.1 (by decide)

/-- A unit outside of addresses is outside of `https://` too. -/
theorem lower_not_mem {u : UInt16} (h : ¬ inAddress u) : lower u ∉ HTTPS ∧ lower u ∉ HTTP := by
  have hall : lower u ∉ HTTPS := by
    intro hmem
    rw [lower] at hmem
    split_ifs at hmem with hcapital
    · refine h (inAddress_of_printing (by omega) (by omega) fun hin => ?_)
      simp only [List.mem_cons, List.not_mem_nil, or_false] at hin
      rcases hin with rfl | rfl | rfl | rfl <;> exact absurd hcapital (by decide)
    · exact h (inAddress_https u hmem)
  have hsub : HTTP ⊆ HTTPS := by decide
  exact ⟨hall, fun hmem => hall (hsub hmem)⟩

theorem take_append_cons_eq_iff {scheme w y : Units} {u : UInt16} (h : lower u ∉ scheme) :
    ((w ++ u :: y).take scheme.length).map lower = scheme ↔
      (w.take scheme.length).map lower = scheme := by
  by_cases hle : scheme.length ≤ w.length
  · rw [List.take_append_of_le_length hle]
  · refine ⟨fun heq => absurd ?_ h, fun heq => ?_⟩
    · rw [← heq]
      refine List.mem_map_of_mem ?_
      rw [List.take_append]
      obtain ⟨n, hn⟩ : ∃ n, scheme.length - w.length = n + 1 :=
        ⟨scheme.length - w.length - 1, by omega⟩
      rw [hn, List.take_succ_cons]
      exact List.mem_append_right _ (List.mem_cons_self ..)
    · have hlength := congrArg List.length heq
      rw [List.length_map, List.length_take] at hlength
      omega

theorem schemeLength_append_cons {u : UInt16} (h : ¬ inAddress u) (w y : Units) :
    schemeLength (w ++ u :: y) = schemeLength w := by
  obtain ⟨hs, hp⟩ := lower_not_mem h
  simp only [schemeLength, take_append_cons_eq_iff hs, take_append_cons_eq_iff hp]

theorem schemeLength_le {w : Units} {n : ℕ} (h : schemeLength w = some n) : n ≤ w.length := by
  have hlength : ∀ {scheme : Units}, (w.take scheme.length).map lower = scheme →
      scheme.length ≤ w.length := by
    intro scheme heq
    have := congrArg List.length heq
    rw [List.length_map, List.length_take] at this
    omega
  rw [schemeLength] at h
  split_ifs at h with hs hp
  · cases h
    exact hlength hs
  · cases h
    exact hlength hp

/-- An address ends before a unit that is in no address. -/
theorem addressAt_append_cons {u : UInt16} (h : ¬ inAddress u) (w y : Units) :
    addressAt (w ++ u :: y) = addressAt w := by
  rw [addressAt, addressAt, schemeLength_append_cons h]
  cases hn : schemeLength w with
  | none => rfl
  | some n =>
      have hle := schemeLength_le hn
      simp only [List.drop_append_of_le_length hle, List.take_append_of_le_length hle,
        takeWhile_append_cons h]

theorem firstAddress_append_cons {u : UInt16} (h : ¬ inAddress u) (w y : Units) :
    firstAddress (w ++ u :: y) = (firstAddress w).or (firstAddress y) := by
  induction w with
  | nil =>
      have hnone : addressAt (u :: y) = none := addressAt_append_cons h [] y
      change (addressAt (u :: y)).or (firstAddress y) = _
      rw [hnone]
      rfl
  | cons v w ih =>
      have heq : addressAt (v :: (w ++ u :: y)) = addressAt (v :: w) :=
        addressAt_append_cons h (v :: w) y
      rw [List.cons_append, firstAddress, heq, ih, firstAddress, Option.or_assoc]

theorem not_inAddress_of_isSpace {u : UInt16} (h : isSpace u) : ¬ inAddress u := by
  simp [inAddress, h]

/-- Words before a text do not change its first address. -/
theorem firstAddress_before {before : Units} (h : ∀ u ∈ before.getLast?, isSpace u)
    (hnone : firstAddress before = none) (y : Units) :
    firstAddress (before ++ y) = firstAddress y := by
  rcases List.eq_nil_or_concat before with rfl | ⟨w, u, rfl⟩
  · rfl
  · rw [List.concat_eq_append] at h hnone ⊢
    have hu := not_inAddress_of_isSpace (h u (by rw [List.getLast?_append]; rfl))
    rw [firstAddress_append_cons hu] at hnone
    have hw : firstAddress w = none := (Option.or_eq_none_iff.1 hnone).1
    rw [List.append_assoc, List.singleton_append, firstAddress_append_cons hu, hw]
    rfl

theorem firstAddress_after {after : Units} (h : ∀ u ∈ after.head?, isSpace u)
    (hnone : firstAddress after = none) (y : Units) :
    firstAddress (y ++ after) = firstAddress y := by
  cases after with
  | nil => rw [List.append_nil]
  | cons u after =>
      have hu := not_inAddress_of_isSpace (h u rfl)
      have hafter : firstAddress after = none := by
        have := firstAddress_append_cons hu [] after
        rw [List.nil_append, hnone] at this
        exact this.symm
      rw [firstAddress_append_cons hu, hafter, Option.or_none]

/-- An address goes on to its first unit that is in no address. -/
theorem firstAddress_https {good rest : Units} (hgood : ∀ u ∈ good, inAddress u) (hne : good ≠ [])
    (hrest : ∀ u ∈ rest.head?, ¬ inAddress u) :
    firstAddress (HTTPS ++ (good ++ rest)) = some (HTTPS ++ good) := by
  have hscheme : schemeLength (HTTPS ++ (good ++ rest)) = some HTTPS.length := by
    rw [schemeLength, List.take_left, if_pos (by decide)]
  have htake : (good ++ rest).takeWhile inAddress = good := by
    cases rest with
    | nil => rw [List.append_nil, List.takeWhile_eq_self_iff.2 hgood]
    | cons u rest =>
        rw [takeWhile_append_cons (hrest u rfl), List.takeWhile_eq_self_iff.2 hgood]
  have haddress : addressAt (HTTPS ++ (good ++ rest)) = some (HTTPS ++ good) := by
    simp only [addressAt, hscheme, List.drop_left, List.take_left, htake, if_neg hne]
  have hcons : HTTPS ++ (good ++ rest) = 0x68 :: ((HTTPS ++ (good ++ rest)).drop 1) := rfl
  rw [hcons] at haddress ⊢
  rw [firstAddress, haddress]
  rfl

end Addresses

section Paths

theorem lower_eq_slash {u : UInt16} (h : lower u = SLASH) : u = SLASH := by
  rw [lower] at h
  split_ifs at h with hcapital
  · have hnat := congrArg UInt16.toNat h
    rw [UInt16.toNat_add] at hnat
    change (u.toNat + 0x20) % 65536 = 0x2f at hnat
    omega
  · exact h

def NoTwoSlashes (w : Units) : Prop := w.IsChain fun u v => ¬ (u = SLASH ∧ v = SLASH)

theorem not_noTwoSlashes {w : Units} (front : Units) {n : ℕ}
    (h : (w.take n).map lower = front ++ [SLASH, SLASH]) : ¬ NoTwoSlashes w := by
  obtain ⟨l, m, hsplit, -, hslashes⟩ := List.map_eq_append_iff.1 h
  obtain ⟨a, m', rfl, ha, hm'⟩ := List.map_eq_cons_iff.1 hslashes
  obtain ⟨b, m'', rfl, hb, -⟩ := List.map_eq_cons_iff.1 hm'
  intro hchain
  have hpart : [a, b] <:+: w := by
    refine List.IsInfix.trans ⟨l, m'', ?_⟩ ( List.take_prefix n w).isInfix
    rw [hsplit, List.append_assoc]
    rfl
  have hpair := List.IsChain.infix hchain hpart
  exact (List.isChain_pair.1 hpair) ⟨lower_eq_slash ha, lower_eq_slash hb⟩

/-- Where an address begins there are two slashes. -/
theorem firstAddress_eq_none {w : Units} (h : NoTwoSlashes w) : firstAddress w = none := by
  induction w with
  | nil => rfl
  | cons u w ih =>
      have hscheme : schemeLength (u :: w) = none := by
        have hs : (List.take HTTPS.length (u :: w)).map lower ≠ HTTPS := fun heq =>
          not_noTwoSlashes (units "https:") heq h
        have hp : (List.take HTTP.length (u :: w)).map lower ≠ HTTP := fun heq =>
          not_noTwoSlashes (units "http:") heq h
        rw [schemeLength, if_neg hs, if_neg hp]
      rw [firstAddress, addressAt, hscheme, ih (List.isChain_cons.1 h).2]
      rfl

theorem noTwoSlashes_of_not_mem {w : Units} (h : SLASH ∉ w) : NoTwoSlashes w := by
  induction w with
  | nil => exact List.isChain_nil
  | cons u w ih =>
      obtain ⟨hu, hw⟩ := not_or.1 (List.mem_cons.not.1 h)
      exact List.isChain_cons.2 ⟨fun v _ hboth => hu hboth.1.symm, ih hw⟩

/-- In directories with names no two slashes follow each other. -/
theorem noTwoSlashes_pathOf {dirs : List Units} (h : ∀ s ∈ dirs, s ≠ [] ∧ SLASH ∉ s) :
    NoTwoSlashes (pathOf dirs []) := by
  rw [pathOf, List.append_nil]
  induction dirs with
  | nil => exact List.isChain_singleton _
  | cons s dirs ih =>
      obtain ⟨hne, hslash⟩ := h s (List.mem_cons_self ..)
      have hrest := ih fun s hs => h s (List.mem_cons_of_mem _ hs)
      rw [List.flatMap_cons, List.append_assoc, List.singleton_append]
      refine List.isChain_cons.2 ⟨fun u hu hboth => ?_, List.isChain_append.2
        ⟨noTwoSlashes_of_not_mem hslash, hrest, fun u hu v _ hboth => ?_⟩⟩
      · rw [List.head?_append_of_ne_nil _ hne] at hu
        exact hslash (hboth.2 ▸ List.mem_of_mem_head? hu)
      · exact hslash (hboth.1 ▸ List.mem_of_mem_getLast? hu)

theorem flatMap_concat {α : Type*} (x : α) {ls : List (List α)} (h : ls ≠ []) :
    (ls.flatMap fun s => s ++ [x]) = [x].intercalate ls ++ [x] := by
  induction ls with
  | nil => exact absurd rfl h
  | cons s ls ih =>
      cases ls with
      | nil => simp
      | cons t ls =>
          rw [List.flatMap_cons, ih (List.cons_ne_nil _ _), List.intercalate_cons_cons]
          simp

/-- The segments of a path with names. -/
theorem segments_pathOf {dirs : List Units} {last : Units} (h : ∀ s ∈ dirs, s ≠ [] ∧ SLASH ∉ s)
    (hlast : SLASH ∉ last) :
    ((pathOf dirs last).splitOn SLASH).filter (· ≠ []) = dirs ++ [last].filter (· ≠ []) := by
  have hrest : ((dirs.flatMap fun s => s ++ [SLASH]) ++ last).splitOn SLASH = dirs ++ [last] := by
    induction dirs with
    | nil => exact List.splitOn_eq_singleton hlast
    | cons s dirs ih =>
        rw [List.flatMap_cons, List.append_assoc, List.append_assoc, List.singleton_append,
          List.splitOn_append_cons_self_of_not_mem (h s (List.mem_cons_self ..)).2,
          ih fun s hs => h s (List.mem_cons_of_mem _ hs), List.cons_append]
  have hfilter : dirs.filter (· ≠ []) = dirs :=
    List.filter_eq_self.2 fun s hs => decide_eq_true (h s hs).1
  have hfirst : (SLASH :: ((dirs.flatMap fun s => s ++ [SLASH]) ++ last)).splitOn SLASH =
      [] :: (dirs ++ [last]) :=
    (List.splitOn_append_cons_self_of_not_mem List.not_mem_nil _).trans (congrArg ([] :: ·) hrest)
  rw [pathOf, List.cons_append, hfirst, List.filter_cons_of_neg (by simp), List.filter_append,
    hfilter]

end Paths

section Segments

theorem slash_not_mem_encodeChars (cs : List Char) : SLASH ∉ encodeChars cs := by
  intro h
  rcases unreserved_of_mem_encodeChars h with h | h
  · exact absurd h (by decide)
  · exact absurd h (by decide)

theorem inAddress_of_escaped {u : UInt16} (h : u = 0x25 ∨ isUnreserved u.toNat)
    (hne : u ≠ APOSTROPHE) : inAddress u := by
  rcases h with rfl | h
  · decide
  · have hrange := unreserved_range h
    refine inAddress_of_printing hrange.1 hrange.2.1 fun hin => ?_
    simp only [List.mem_cons, List.not_mem_nil, or_false] at hin
    rcases hin with rfl | rfl | rfl | rfl
    · exact absurd h (by decide)
    · exact absurd h (by decide)
    · exact absurd h (by decide)
    · exact hne rfl

theorem hexDigit_ne : ∀ {n : ℕ}, n < 16 → hexDigit n ≠ APOSTROPHE := by
  decide

/-- An apostrophe comes from an apostrophe only. -/
theorem inAddress_of_mem_encodeChars {cs : List Char} (h : '\'' ∉ cs) {u : UInt16}
    (hu : u ∈ encodeChars cs) : inAddress u := by
  refine inAddress_of_escaped (unreserved_of_mem_encodeChars hu) ?_
  rintro rfl
  obtain ⟨c, hc, hin⟩ := List.mem_flatMap.1 hu
  rcases of_mem_encodeChar hin with ⟨-, heq⟩ | hpercent | ⟨n, hn, hdigit⟩
  · refine h ?_
    have hchar : c = '\'' := by rw [← Char.ofNat_toNat c, ← heq]; rfl
    exact hchar ▸ hc
  · exact absurd hpercent (by decide)
  · exact hexDigit_ne hn hdigit.symm

theorem plainSegment_encodeChars {cs : List Char} (hsame : cs ≠ ['.']) (habove : cs ≠ ['.', '.']) :
    PlainSegment (encodeChars cs) := by
  refine ⟨fun u hu => unreserved_of_mem_encodeChars hu, fun h => hsame ?_, fun h => habove ?_⟩
  · rw [decodeURIComponent_encodeChars] at h
    exact ofChars_injective (Option.some.inj h)
  · rw [decodeURIComponent_encodeChars] at h
    exact ofChars_injective (Option.some.inj h)

theorem safeDecode_encodeChars (cs : List Char) : safeDecode (encodeChars cs) = ofChars cs := by
  rw [safeDecode, decodeURIComponent_encodeChars, Option.getD_some]

theorem isClosing_of_mem_encodeChar {c : Char} {u : UInt16} (h : u ∈ encodeChar c)
    (hclosing : isClosing u) : encodeChar c = [u] := by
  rcases of_mem_encodeChar h with ⟨hc, -⟩ | rfl | ⟨n, hn, rfl⟩
  · rw [encodeChar, if_pos hc, ofChar_of_unreserved hc] at h ⊢
    rw [List.mem_singleton.1 h]
  · exact absurd hclosing (by decide)
  · exact absurd hclosing ((by decide : ∀ n < 16, ¬ isClosing (hexDigit n)) n hn)

/-- What is left of an encoded segment, and never a dot at its end. -/
theorem rdropWhile_encodeChars (cs : List Char) :
    ∃ front, front <+: cs ∧ (encodeChars cs).rdropWhile isClosing = encodeChars front ∧
      front.getLast? ≠ some '.' := by
  induction cs using List.reverseRecOn with
  | nil => exact ⟨[], List.prefix_rfl, rfl, nofun⟩
  | append_singleton cs c ih =>
      have happend : encodeChars (cs ++ [c]) = encodeChars cs ++ encodeChar c := by
        rw [encodeChars, List.flatMap_append, List.flatMap_singleton]
        rfl
      obtain ⟨l, u, hlast⟩ : ∃ l u, encodeChar c = l ++ [u] :=
        ⟨_, _, (List.dropLast_append_getLast (encodeChar_ne_nil c)).symm⟩
      by_cases hu : isClosing u
      · obtain ⟨front, hprefix, heq, hdot⟩ := ih
        have hsingle := isClosing_of_mem_encodeChar (hlast ▸ List.mem_concat_self) hu
        refine ⟨front, hprefix.trans ( List.prefix_append cs [c]), ?_, hdot⟩
        rw [happend, hsingle, List.rdropWhile_concat_pos isClosing _ _ hu, heq]
      · refine ⟨cs ++ [c], List.prefix_rfl, ?_, fun hdot => ?_⟩
        · rw [happend, hlast, ← List.append_assoc, List.rdropWhile_concat_neg isClosing _ _ hu]
        · rw [List.getLast?_concat, Option.some.injEq] at hdot
          subst hdot
          have hdot : encodeChar '.' = [0x2e] := by decide
          rw [hdot] at hlast
          obtain rfl : u = 0x2e := by
            have := congrArg List.getLast? hlast
            rw [List.getLast?_concat] at this
            exact (Option.some.inj this).symm
          exact hu (by decide)

end Segments

section Rooms

theorem ofChars_intercalate (segs : List (List Char)) :
    ofChars (['/'].intercalate segs) = [SLASH].intercalate (segs.map ofChars) := by
  have happend : ∀ cs cs', ofChars (cs ++ cs') = ofChars cs ++ ofChars cs' := fun _ _ =>
    List.flatMap_append
  have hslash : ofChars ['/'] = [SLASH] := by decide
  induction segs with
  | nil => rfl
  | cons s segs ih =>
      cases segs with
      | nil => simp
      | cons t segs =>
          rw [List.intercalate_cons_cons, happend, happend, hslash, ih]
          exact List.intercalate_cons_cons.symm

theorem slash_not_mem_ofChars {cs : List Char} (h : '/' ∉ cs) : SLASH ∉ ofChars cs := fun hin =>
  h ((mem_ofChars_iff (a := '/') (by decide)).1 hin)

variable {segs : List (List Char)}

theorem splitOn_room (hne : segs ≠ []) (hsegs : ∀ s ∈ segs, IsSegment s) :
    (ofChars (['/'].intercalate segs)).splitOn SLASH = segs.map ofChars := by
  rw [ofChars_intercalate, List.splitOn_intercalate SLASH _ (List.map_eq_nil_iff.not.2 hne)]
  intro l hl
  obtain ⟨s, hs, rfl⟩ := List.mem_map.1 hl
  exact slash_not_mem_ofChars (hsegs s hs).2.1

theorem pathOf_eq {dirs : List Units} (h : dirs ≠ []) :
    pathOf dirs [] = SLASH :: ([SLASH].intercalate dirs ++ [SLASH]) := by
  rw [pathOf, flatMap_concat SLASH h, List.append_nil]

/-- A room's name has no slash at its ends. -/
theorem trimmed_room (hne : segs ≠ []) (hsegs : ∀ s ∈ segs, IsSegment s) :
    Trimmed (· == SLASH) (ofChars (['/'].intercalate segs)) := by
  have hpath : NoTwoSlashes (pathOf (segs.map ofChars) []) := by
    refine noTwoSlashes_pathOf fun l hl => ?_
    obtain ⟨s, hs, rfl⟩ := List.mem_map.1 hl
    exact ⟨ofChars_ne_nil (hsegs s hs).1, slash_not_mem_ofChars (hsegs s hs).2.1⟩
  rw [pathOf_eq (List.map_eq_nil_iff.not.2 hne), ← ofChars_intercalate] at hpath
  obtain ⟨hhead, hrest⟩ := List.isChain_cons.1 hpath
  obtain ⟨-, -, hlast⟩ := List.isChain_append.1 hrest
  constructor
  · intro u hu hslash
    refine hhead u ?_ ⟨rfl, beq_iff_eq.1 hslash⟩
    rw [List.head?_append, hu]
    rfl
  · intro u hu hslash
    exact hlast u hu SLASH rfl ⟨beq_iff_eq.1 hslash, rfl⟩

theorem mapM_encodeURIComponent (segs : List (List Char)) :
    (segs.map ofChars).mapM encodeURIComponent = some (segs.map encodeChars) := by
  induction segs with
  | nil => rfl
  | cons s segs ih =>
      rw [List.map_cons, List.mapM_cons, encodeURIComponent_ofChars, ih]
      rfl

/-- The directories of a room. -/
def roomDirs (segs : List (List Char)) : List Units := units "group" :: segs.map encodeChars

theorem roomDirs_ne_nil (segs : List (List Char)) : roomDirs segs ≠ [] := List.cons_ne_nil _ _

theorem roomUrl_eq {authority : Units} (hauthority : authority ≠ []) (hslash : SLASH ∉ authority)
    (hne : segs ≠ []) (hsegs : ∀ s ∈ segs, IsSegment s)
    (htrimmed : Trimmed isSpace (ofChars (['/'].intercalate segs))) :
    roomUrl (HTTPS ++ authority) (ofChars (['/'].intercalate segs)) =
      some (HTTPS ++ authority ++ pathOf (roomDirs segs) []) := by
  have hbase : (HTTPS ++ authority).rdropWhile (· == SLASH) = HTTPS ++ authority := by
    rw [List.rdropWhile_eq_self_iff]
    intro hlong hlast
    rw [List.getLast_append_of_ne_nil _ hauthority] at hlast
    exact hslash (beq_iff_eq.1 hlast ▸ List.getLast_mem hauthority)
  have hroom : ofChars (['/'].intercalate segs) ≠ [] := by
    intro hnil
    have hsplit := splitOn_room hne hsegs
    rw [hnil] at hsplit
    have hmem : [] ∈ segs.map ofChars := hsplit ▸ List.mem_cons_self ..
    obtain ⟨s, hs, hempty⟩ := List.mem_map.1 hmem
    exact ofChars_ne_nil (hsegs s hs).1 hempty
  have hgroup : units "/group/" = SLASH :: (units "group" ++ [SLASH]) := by decide
  rw [roomUrl, hbase, trim_of_trimmed htrimmed, trim_of_trimmed (trimmed_room hne hsegs),
    if_neg hroom, splitOn_room hne hsegs, mapM_encodeURIComponent, Option.map_some, hgroup,
    pathOf_eq (roomDirs_ne_nil segs), roomDirs, List.intercalate_cons_of_ne_nil
    (List.map_eq_nil_iff.not.2 hne)]
  simp

end Rooms

section Invitations

variable {before after link good rest body : Units}

/-- A link is found up to its first unit that is in no address. -/
theorem findAddress_link (hwords : Around before after) (hlink : link = HTTPS ++ (good ++ rest))
    (hgood : ∀ u ∈ good, inAddress u) (hne : good ≠ []) (hrest : ∀ u ∈ rest.head?, ¬ inAddress u) :
    findAddress (before ++ link ++ after) = some ((HTTPS ++ good).rdropWhile isClosing) := by
  have hstop : ∀ u ∈ (rest ++ after).head?, ¬ inAddress u := by
    cases rest with
    | nil => exact fun u hu => not_inAddress_of_isSpace (hwords.apartAfter u hu)
    | cons v rest => exact hrest
  have hfirst := firstAddress_https hgood hne hstop
  rw [findAddress, hlink, List.append_assoc, List.append_assoc, List.append_assoc,
    firstAddress_before hwords.apartBefore hwords.wordsBefore, hfirst]

theorem trim_link_ne_nil (before body after : Units) :
    trim isSpace (before ++ (HTTPS ++ body) ++ after) ≠ [] := by
  have htext : before ++ (HTTPS ++ body) ++ after =
      before ++ 0x68 :: (units "ttps://" ++ (body ++ after)) := by
    rw [List.append_assoc, List.append_assoc]
    rfl
  rw [htext, trim_append_cons (by decide)]
  exact List.append_ne_nil_of_right_ne_nil _ (List.cons_ne_nil _ _)

theorem not_isSpace_of_isHostUnit {u : UInt16} (h : isHostUnit u) : ¬ isSpace u := by
  intro hspace
  have hrange : 0x2d ≤ u.toNat ∧ u.toNat < 0x7f := by
    simp only [isHostUnit, isDigit, lower, decide_eq_true_eq] at h
    split_ifs at h with hcapital
    · omega
    · omega
  simp only [isSpace, decide_eq_true_eq] at hspace
  omega

theorem not_isSpace_of_isPage {l : Units} (h : isPage (afterPort l)) : ∀ u ∈ l, ¬ isSpace u := by
  have hpage : ∀ m, isPage m → ∀ u ∈ m, ¬ isSpace u := by
    intro m hm u hu
    cases m with
    | nil => cases hu
    | cons v more =>
        obtain ⟨rfl, hmore⟩ := of_decide_eq_true hm
        rcases List.mem_cons.1 hu with rfl | hu
        · decide
        · simpa using List.all_eq_true.1 hmore u hu
  have hdigit : ∀ {u}, isDigit u → ¬ isSpace u := by
    intro u hu hspace
    simp only [isDigit, decide_eq_true_eq] at hu
    simp only [isSpace, decide_eq_true_eq] at hspace
    omega
  match l with
  | [] => exact nofun
  | [v] => exact hpage [v] h
  | v :: d :: more =>
      rw [afterPort] at h
      split_ifs at h with hport
      · intro u hu
        rcases List.mem_cons.1 hu with rfl | hu
        · rw [hport.1]
          decide
        rcases List.mem_cons.1 hu with rfl | hu
        · exact hdigit hport.2
        rw [← List.takeWhile_append_dropWhile (p := isDigit) (l := more), List.mem_append] at hu
        rcases hu with hu | hu
        · exact hdigit (List.mem_takeWhile_imp hu)
        · exact hpage _ h u hu
      · exact hpage _ h

theorem not_isSpace_of_isBareHost {t : Units} (h : isBareHost t) : ∀ u ∈ t, ¬ isSpace u := by
  obtain ⟨-, hpage⟩ := Bool.and_eq_true_iff.1 h
  intro u hu
  rw [← List.takeWhile_append_dropWhile (p := isHostUnit) (l := t), List.mem_append] at hu
  rcases hu with hu | hu
  · exact not_isSpace_of_isHostUnit (List.mem_takeWhile_imp hu)
  · exact not_isSpace_of_isPage hpage u hu

/-- A link whose host begins with a quotation mark is not found. -/
theorem findAddress_none (hwords : Around before after) (hafter : firstAddress after = none)
    {q : UInt16} (hq : ¬ inAddress q) (hbody : NoTwoSlashes body) :
    findAddress (before ++ (HTTPS ++ (q :: body)) ++ after) = none := by
  have hfirst : firstAddress (before ++ (HTTPS ++ (q :: body)) ++ after) = none := by
    rw [firstAddress_after hwords.apartAfter hafter,
      firstAddress_before hwords.apartBefore hwords.wordsBefore, firstAddress_append_cons hq,
      firstAddress_eq_none hbody]
    decide
  have htext : before ++ (HTTPS ++ (q :: body)) ++ after =
      before ++ 0x68 :: (units "ttps:/" ++ SLASH :: (q :: body ++ after)) := by
    rw [List.append_assoc]
    rfl
  have hbare : isBareHost (trim isSpace (before ++ (HTTPS ++ (q :: body)) ++ after)) = false := by
    rw [htext, trim_append_cons (by decide), rdropWhile_append_cons (by decide)]
    cases hd : before.dropWhile isSpace with
    | nil => rfl
    | cons d front =>
        obtain ⟨u, hu⟩ : ∃ u, (d :: front).getLast? = some u :=
          ⟨_, List.getLast?_eq_some_getLast (List.cons_ne_nil _ _)⟩
        have hlast : before.getLast? = some u := by
          rw [← List.takeWhile_append_dropWhile (p := isSpace) (l := before), hd,
            List.getLast?_append, hu]
          rfl
        have hspace := hwords.apartBefore u hlast
        refine Bool.eq_false_iff.2 fun h => not_isSpace_of_isBareHost h u ?_ hspace
        exact List.mem_append_left _ (List.mem_of_mem_getLast? hu)
  simp only [findAddress, hfirst, hbare]
  rfl

variable {parse : Units → Option Url} {text origin room authority : Units} {u : Url}

theorem invites_iff :
    Invites parse text origin room ↔ trim isSpace text ≠ [] ∧ ∃ u,
      (findAddress text).bind parse = some u ∧ u.hostname ≠ [] ∧ u.protocol = units "https:" ∧
        u.origin = origin ∧ destination u = (.room, some room) := by
  rw [Invites, parseInvite]
  split_ifs with hempty
  · exact ⟨nofun, fun h => absurd hempty h.1⟩
  cases hu : (findAddress text).bind parse with
  | none => exact ⟨nofun, nofun⟩
  | some u =>
      dsimp only
      split_ifs with hhost hprotocol
      · exact ⟨nofun, fun ⟨_, v, hv, hne, _⟩ => absurd hhost (Option.some.inj hv ▸ hne)⟩
      · exact ⟨nofun, fun ⟨_, v, hv, _, heq, _⟩ => absurd (Option.some.inj hv ▸ heq) hprotocol⟩
      · constructor
        · rintro ⟨invite, hok, horigin, hkind, hroom⟩
          cases hok
          exact ⟨hempty, u, rfl, hhost, not_not.1 hprotocol, horigin, Prod.ext hkind hroom⟩
        · rintro ⟨-, v, hv, -, -, horigin, hdestination⟩
          cases hv
          exact ⟨_, rfl, horigin, congrArg Prod.fst hdestination, congrArg Prod.snd hdestination⟩

theorem destination_eq {shown : List (List Char)}
    (h : (u.pathname.splitOn SLASH).filter (· ≠ []) = roomDirs shown) :
    destination u =
      if shown ≠ [] then (.room, some (ofChars (['/'].intercalate shown)))
      else if u.token then (.link, some (units "group")) else (.room, some (units "group")) := by
  have hdecode : (shown.map encodeChars).map safeDecode = shown.map ofChars := by
    rw [List.map_map]
    exact List.map_congr_left fun s _ => safeDecode_encodeChars s
  have hgroup : safeDecode (units "group") = units "group" := safeDecode_encodeChars "group".toList
  rw [destination, h, roomDirs]
  cases shown with
  | nil =>
      cases u.token <;> simp [hgroup]
  | cons s shown =>
      rw [if_pos ⟨rfl, by simp⟩, if_pos (List.cons_ne_nil _ _), ofChars_intercalate, ← hdecode]
      rfl

theorem plainSegment_roomDirs {segs : List (List Char)} (hsegs : ∀ s ∈ segs, IsSegment s) :
    ∀ s ∈ roomDirs segs, PlainSegment s ∧ s ≠ [] ∧ SLASH ∉ s := by
  intro l hl
  obtain ⟨s, hs, rfl⟩ : ∃ s : List Char, IsSegment s ∧ encodeChars s = l := by
    rcases List.mem_cons.1 hl with rfl | hl
    · exact ⟨"group".toList, by decide, rfl⟩
    · obtain ⟨s, hs, rfl⟩ := List.mem_map.1 hl
      exact ⟨s, hsegs s hs, rfl⟩
  exact ⟨plainSegment_encodeChars hs.2.2.1 hs.2.2.2, encodeChars_ne_nil hs.1,
    slash_not_mem_encodeChars s⟩

/-- What is read of the link to a room, or of its beginning. -/
theorem parse_link (hparse : UrlStandard parse) (horigin : IsHttpsOrigin parse origin)
    {segs : List (List Char)} (hsegs : ∀ s ∈ segs, IsSegment s) (front : List Char)
    (hfront : PlainSegment (encodeChars front)) :
    ∃ u, parse (origin ++ pathOf (roomDirs segs) (encodeChars front)) = some u ∧
      u.hostname ≠ [] ∧ u.protocol = units "https:" ∧ u.origin = origin ∧
      (u.pathname.splitOn SLASH).filter (· ≠ []) =
        roomDirs (segs ++ [front].filter (· ≠ [])) := by
  obtain ⟨u, hu, hprotocol, horigin, hhost, hpath⟩ := hparse.path horigin
    (fun s hs => (plainSegment_roomDirs hsegs s hs).1) hfront
  refine ⟨u, hu, hhost, hprotocol, horigin, ?_⟩
  rw [hpath, segments_pathOf (fun s hs => (plainSegment_roomDirs hsegs s hs).2)
    (slash_not_mem_encodeChars front), roomDirs, roomDirs, List.map_append, List.cons_append]
  by_cases hempty : front = []
  · subst hempty
    rfl
  · rw [List.filter_cons_of_pos (by simpa using encodeChars_ne_nil hempty),
      List.filter_cons_of_pos (by simpa using hempty)]
    rfl

theorem rdropWhile_pathOf {dirs : List Units} (h : dirs ≠ []) (front last : Units) :
    (front ++ pathOf dirs last).rdropWhile isClosing =
      front ++ pathOf dirs (last.rdropWhile isClosing) := by
  have hpath : ∀ last, front ++ pathOf dirs last =
      (front ++ SLASH :: [SLASH].intercalate dirs) ++ SLASH :: last := by
    intro last
    rw [pathOf, flatMap_concat SLASH h]
    simp
  rw [hpath, rdropWhile_append_cons (by decide), hpath]

theorem inAddress_pathOf {dirs : List Units} {last : Units}
    (hdirs : ∀ s ∈ dirs, ∀ u ∈ s, inAddress u) (hlast : ∀ u ∈ last, inAddress u) :
    ∀ u ∈ pathOf dirs last, inAddress u := by
  intro u hu
  rw [pathOf, List.cons_append, List.mem_cons, List.mem_append, List.mem_flatMap] at hu
  rcases hu with rfl | ⟨s, hs, hu⟩ | hu
  · decide
  · rcases List.mem_append.1 hu with hu | hu
    · exact hdirs s hs u hu
    · rw [List.mem_singleton.1 hu]
      decide
  · exact hlast u hu

theorem inAddress_roomDirs {segs : List (List Char)} (h : ∀ s ∈ segs, '\'' ∉ s) :
    ∀ l ∈ roomDirs segs, ∀ u ∈ l, inAddress u := by
  intro l hl u hu
  rcases List.mem_cons.1 hl with rfl | hl
  · exact (List.all_eq_true.1 (by decide : (units "group").all inAddress = true)) u hu
  · obtain ⟨s, hs, rfl⟩ := List.mem_map.1 hl
    exact inAddress_of_mem_encodeChars (h s hs) hu

theorem mem_intercalate {c : Char} (hc : c ≠ '/') {segs : List (List Char)} :
    c ∈ ['/'].intercalate segs ↔ ∃ s ∈ segs, c ∈ s := by
  by_cases hne : segs = []
  · subst hne
    simp
  · have hmem : c ∈ ['/'].intercalate segs ↔ c ∈ ['/'].intercalate segs ++ ['/'] := by
      simp [hc]
    rw [hmem, ← flatMap_concat '/' hne, List.mem_flatMap]
    simp [hc]

theorem inAddress_of_authority (hauthority : IsAuthority authority) {v : UInt16}
    (hv : v ∈ authority) (hquote : v ≠ QUOTE) (hapostrophe : v ≠ APOSTROPHE) : inAddress v := by
  obtain ⟨hlow, hhigh, hnot⟩ := hauthority.2 v hv
  refine inAddress_of_printing hlow hhigh fun hin => ?_
  simp only [List.mem_cons, List.not_mem_nil, or_false, not_or] at hin hnot
  rcases hin with h | h | h | h
  · exact hnot.2.1 h
  · exact hnot.2.2.1 h
  · exact hquote h
  · exact hapostrophe h

/-- Without quotation marks a link, or its beginning, is in one address. -/
theorem inAddress_link (hauthority : IsAuthority authority)
    (hquotes : APOSTROPHE ∉ authority ∧ QUOTE ∉ authority) {segs : List (List Char)}
    (hsegs : ∀ s ∈ segs, '\'' ∉ s) {front : List Char} (hfront : '\'' ∉ front) :
    ∀ u ∈ authority ++ pathOf (roomDirs segs) (encodeChars front), inAddress u := by
  intro u hu
  rcases List.mem_append.1 hu with hu | hu
  · refine inAddress_of_authority hauthority hu ?_ ?_
    · rintro rfl
      exact hquotes.2 hu
    · rintro rfl
      exact hquotes.1 hu
  · exact inAddress_pathOf (inAddress_roomDirs hsegs)
      (fun v hv => inAddress_of_mem_encodeChars hfront hv) u hu

variable {segs : List (List Char)}

/-- Without quotation marks the whole link is found and read. -/
theorem invites_of_plain (hparse : UrlStandard parse)
    (horigin : IsHttpsOrigin parse (HTTPS ++ authority)) (hauthority : IsAuthority authority)
    (hwords : Around before after) (hne : segs ≠ []) (hsegs : ∀ s ∈ segs, IsSegment s)
    (hquotes : APOSTROPHE ∉ authority ∧ QUOTE ∉ authority) (happostrophe : ∀ s ∈ segs, '\'' ∉ s) :
    Invites parse (before ++ (HTTPS ++ authority ++ pathOf (roomDirs segs) []) ++ after)
      (HTTPS ++ authority) (ofChars (['/'].intercalate segs)) := by
  have hgood : ∀ u ∈ authority ++ pathOf (roomDirs segs) [], inAddress u :=
    inAddress_link hauthority hquotes happostrophe List.not_mem_nil
  have hlink : HTTPS ++ authority ++ pathOf (roomDirs segs) [] =
      HTTPS ++ (authority ++ pathOf (roomDirs segs) [] ++ []) := by
    rw [List.append_nil, List.append_assoc]
  have hfound := findAddress_link hwords hlink hgood (by simp [hauthority.1]) (by simp)
  obtain ⟨u, hu, hhost, hprotocol, huorigin, hpath⟩ := parse_link hparse horigin hsegs []
    (plainSegment_encodeChars (by decide) (by decide))
  rw [← List.append_assoc HTTPS authority, rdropWhile_pathOf (roomDirs_ne_nil segs)] at hfound
  refine invites_iff.2 ⟨?_, u, ?_, hhost, hprotocol, huorigin, ?_⟩
  · rw [List.append_assoc HTTPS]
    exact trim_link_ne_nil _ _ _
  · rw [hfound]
    exact hu
  · have hshown : segs ++ [[]].filter (· ≠ []) = segs := List.append_nil segs
    rw [hshown] at hpath
    rw [destination_eq hpath, if_pos hne]

/-- A quotation mark in the host ends the address before the host does. -/
theorem not_invites_of_quoted (hparse : UrlStandard parse) (hauthority : IsAuthority authority)
    (hwords : Around before after) (hafter : firstAddress after = none)
    (hsegs : ∀ s ∈ segs, IsSegment s) (hquotes : APOSTROPHE ∈ authority ∨ QUOTE ∈ authority) :
    ¬ Invites parse (before ++ (HTTPS ++ authority ++ pathOf (roomDirs segs) []) ++ after)
      (HTTPS ++ authority) room := by
  have hpath : NoTwoSlashes (pathOf (roomDirs segs) []) :=
    noTwoSlashes_pathOf fun s hs => (plainSegment_roomDirs hsegs s hs).2
  have hsplit := (List.takeWhile_append_dropWhile (p := inAddress) (l := authority)).symm
  have hgood : ∀ u ∈ authority.takeWhile inAddress, inAddress u := fun u hu =>
    List.mem_takeWhile_imp hu
  generalize authority.takeWhile inAddress = good at hsplit hgood
  cases hdrop : authority.dropWhile inAddress with
  | nil =>
      rw [hdrop, List.append_nil] at hsplit
      rw [hsplit] at hquotes
      rcases hquotes with hquote | hquote
      · exact absurd (hgood _ hquote) (by decide)
      · exact absurd (hgood _ hquote) (by decide)
  | cons q more =>
      have hq : ¬ inAddress q := by
        have hnot := List.head?_dropWhile_not inAddress authority
        rw [hdrop] at hnot
        simpa using hnot
      rw [hdrop] at hsplit
      have hmem : q ∈ authority := hsplit ▸ List.mem_append_right _ (List.mem_cons_self ..)
      have hquote : q = APOSTROPHE ∨ q = QUOTE := by
        by_contra hneither
        obtain ⟨hapostrophe, hquote⟩ := not_or.1 hneither
        exact hq (inAddress_of_authority hauthority hmem hquote hapostrophe)
      rw [invites_iff]
      rintro ⟨-, u, hu, -, -, horigin, -⟩
      by_cases hempty : good = []
      · have hbody : NoTwoSlashes (more ++ pathOf (roomDirs segs) []) := by
          have hmore : SLASH ∉ more := fun hin =>
            (hauthority.2 SLASH (hsplit ▸ List.mem_append_right _ (List.mem_cons_of_mem _ hin))).2.2
              (List.mem_cons_self ..)
          refine List.isChain_append.2 ⟨noTwoSlashes_of_not_mem hmore, hpath, ?_⟩
          intro a ha b _ hboth
          exact hmore (hboth.1 ▸ List.mem_of_mem_getLast? ha)
        have hnone := findAddress_none hwords hafter hq hbody
        rw [hsplit, hempty, List.nil_append, List.append_assoc HTTPS, List.cons_append, hnone] at hu
        cases hu
      · have hlink : HTTPS ++ authority ++ pathOf (roomDirs segs) [] =
            HTTPS ++ (good ++ q :: (more ++ pathOf (roomDirs segs) [])) := by
          rw [hsplit]
          simp
        have hfound := findAddress_link hwords hlink hgood hempty
          (fun v hv => Option.some.inj hv ▸ hq)
        rw [hfound] at hu
        have hsub : ∀ v ∈ (HTTPS ++ good).rdropWhile isClosing, v ∈ HTTPS ∨ v ∈ good := fun v hv =>
          List.mem_append.1 (( List.rdropWhile_prefix isClosing _).subset hv)
        refine hparse.quotes hquote (fun v hv => ?_) (fun hin => ?_) hu ?_
        · rcases hsub v hv with hv | hv
          · have hscheme : HTTPS.all (fun v => v.toNat < 0x80 ∧ v ≠ 0x25) = true := by decide
            exact of_decide_eq_true (List.all_eq_true.1 hscheme v hv)
          · obtain ⟨-, hhigh, hnot⟩ := hauthority.2 v (hsplit ▸ List.mem_append_left _ hv)
            refine ⟨by omega, ?_⟩
            rintro rfl
            exact hnot (by decide)
        · rcases hsub q hin with hin | hin
          · exact hq (inAddress_https q hin)
          · exact hq (hgood q hin)
        · rw [horigin]
          exact List.mem_append_right _ hmem

/-- The first segment with an apostrophe, up to its first one. -/
theorem exists_first_apostrophe {a : Char} (h : ∃ s ∈ segs, a ∈ s) :
    ∃ done front back more, segs = done ++ (front ++ a :: back) :: more ∧
      (∀ s ∈ done, a ∉ s) ∧ a ∉ front := by
  induction segs with
  | nil => simp at h
  | cons s segs ih =>
      by_cases hs : a ∈ s
      · obtain ⟨front, back, rfl, hfront⟩ := List.eq_append_cons_of_mem hs
        exact ⟨[], front, back, segs, rfl, by simp, hfront⟩
      · have hrest : ∃ s ∈ segs, a ∈ s := by simpa [hs] using h
        obtain ⟨done, front, back, more, rfl, hdone, hfront⟩ := ih hrest
        refine ⟨s :: done, front, back, more, rfl, fun t ht => ?_, hfront⟩
        rcases List.mem_cons.1 ht with rfl | ht
        · exact hs
        · exact hdone t ht

theorem pathOf_roomDirs_append (done more : List (List Char)) (front back : List Char) :
    pathOf (roomDirs (done ++ (front ++ '\'' :: back) :: more)) [] =
      pathOf (roomDirs done) (encodeChars front) ++ APOSTROPHE ::
        (encodeChars back ++ SLASH :: (more.map encodeChars).flatMap fun s => s ++ [SLASH]) := by
  have happend : encodeChars (front ++ '\'' :: back) =
      encodeChars front ++ APOSTROPHE :: encodeChars back := by
    rw [encodeChars, List.flatMap_append, List.flatMap_cons]
    rfl
  simp [pathOf, roomDirs, happend]

/-- An apostrophe in the name of a room ends the address, so none is in the room that is found. -/
theorem not_invites_of_apostrophe (hparse : UrlStandard parse)
    (horigin : IsHttpsOrigin parse (HTTPS ++ authority)) (hauthority : IsAuthority authority)
    (hwords : Around before after) (hsegs : ∀ s ∈ segs, IsSegment s)
    (hquotes : APOSTROPHE ∉ authority ∧ QUOTE ∉ authority) (happostrophe : ∃ s ∈ segs, '\'' ∈ s) :
    ¬ Invites parse (before ++ (HTTPS ++ authority ++ pathOf (roomDirs segs) []) ++ after)
      (HTTPS ++ authority) (ofChars (['/'].intercalate segs)) := by
  obtain ⟨done, front, back, more, hsplit, hdone, hfront⟩ := exists_first_apostrophe happostrophe
  have hgood := inAddress_link hauthority hquotes hdone hfront
  have hlink : HTTPS ++ authority ++ pathOf (roomDirs segs) [] =
      HTTPS ++ (authority ++ pathOf (roomDirs done) (encodeChars front) ++ APOSTROPHE ::
        (encodeChars back ++ SLASH :: (more.map encodeChars).flatMap fun s => s ++ [SLASH])) := by
    rw [hsplit, pathOf_roomDirs_append]
    simp
  have hfound := findAddress_link hwords hlink hgood (by simp [hauthority.1])
    (fun v hv => Option.some.inj hv ▸ (by decide : ¬ inAddress APOSTROPHE))
  obtain ⟨shown, hshown, hencode, hdot⟩ := rdropWhile_encodeChars front
  have hplain : PlainSegment (encodeChars shown) :=
    plainSegment_encodeChars (fun h => hdot (h ▸ rfl)) (fun h => hdot (h ▸ rfl))
  have hsegsDone : ∀ s ∈ done, IsSegment s := fun s hs =>
    hsegs s (hsplit ▸ List.mem_append_left _ hs)
  obtain ⟨u, hu, -, -, -, hpath⟩ := parse_link hparse horigin hsegsDone shown hplain
  rw [← List.append_assoc HTTPS authority, rdropWhile_pathOf (roomDirs_ne_nil done), hencode]
    at hfound
  rw [invites_iff]
  rintro ⟨-, v, hv, -, -, -, hdestination⟩
  rw [hfound, Option.bind_some, hu] at hv
  cases hv
  have hmissing : ∀ s ∈ done ++ [shown].filter (· ≠ []), '\'' ∉ s := by
    intro s hs
    rcases List.mem_append.1 hs with hs | hs
    · exact hdone s hs
    · rw [List.mem_singleton.1 (List.mem_of_mem_filter hs)]
      exact fun hin => hfront (hshown.subset hin)
  have hroom : APOSTROPHE ∈ ofChars (['/'].intercalate segs) :=
    (mem_ofChars_iff (a := '\'') (by decide)).2 ((mem_intercalate (by decide)).2 happostrophe)
  rw [destination_eq hpath] at hdestination
  split_ifs at hdestination
  · rw [← Option.some.inj (congrArg Prod.snd hdestination)] at hroom
    obtain ⟨s, hs, hin⟩ := (mem_intercalate (by decide)).1
      ((mem_ofChars_iff (a := '\'') (by decide)).1 hroom)
    exact hmissing s hs hin
  · cases congrArg Prod.fst hdestination
  · rw [← Option.some.inj (congrArg Prod.snd hdestination)] at hroom
    exact absurd hroom (by decide)

/-- A link and words around it are an invitation into the room, if there is no apostrophe in the
name of the room and no quotation mark in the origin; and only then, if the words behind it have no
address of their own. -/
theorem roomUrl_invites_iff (hparse : UrlStandard parse) (horigin : IsHttpsOrigin parse origin)
    (hroom : IsRoom room) (hwords : Around before after) :
    ∃ link, roomUrl origin room = some link ∧
      (APOSTROPHE ∉ room ∧ APOSTROPHE ∉ origin ∧ QUOTE ∉ origin →
        Invites parse (before ++ link ++ after) origin room) ∧
      (firstAddress after = none →
        (Invites parse (before ++ link ++ after) origin room ↔
          APOSTROPHE ∉ room ∧ APOSTROPHE ∉ origin ∧ QUOTE ∉ origin)) := by
  obtain ⟨text, u, hu, hprotocol, rfl⟩ := id horigin
  obtain ⟨authority, hauth, hauthority⟩ := hparse.origin hu hprotocol
  rw [hauth] at horigin ⊢
  obtain ⟨htrimmed, segs, hne, hsegs, rfl⟩ := hroom
  have hslash : SLASH ∉ authority := fun hin =>
    (hauthority.2 SLASH hin).2.2 (List.mem_cons_self ..)
  have horiginUnits : ∀ q, q ∉ HTTPS → (q ∈ HTTPS ++ authority ↔ q ∈ authority) := by
    intro q hq
    rw [List.mem_append, or_iff_right hq]
  have hroomUnits : APOSTROPHE ∈ ofChars (['/'].intercalate segs) ↔ ∃ s ∈ segs, '\'' ∈ s :=
    (mem_ofChars_iff (a := '\'') (by decide)).trans (mem_intercalate (by decide))
  refine ⟨_, roomUrl_eq hauthority.1 hslash hne hsegs htrimmed, ?_⟩
  rw [horiginUnits APOSTROPHE (by decide), horiginUnits QUOTE (by decide), hroomUnits]
  have hplain : (¬ ∃ s ∈ segs, '\'' ∈ s) ∧ APOSTROPHE ∉ authority ∧ QUOTE ∉ authority →
      Invites parse (before ++ (HTTPS ++ authority ++ pathOf (roomDirs segs) []) ++ after)
        (HTTPS ++ authority) (ofChars (['/'].intercalate segs)) := by
    rintro ⟨happostrophe, hquotes⟩
    exact invites_of_plain hparse horigin hauthority hwords hne hsegs hquotes
      fun s hs hin => happostrophe ⟨s, hs, hin⟩
  refine ⟨hplain, fun hafter => ⟨fun hinvites => ?_, hplain⟩⟩
  by_cases hquotes : APOSTROPHE ∈ authority ∨ QUOTE ∈ authority
  · exact absurd hinvites (not_invites_of_quoted hparse hauthority hwords hafter hsegs hquotes)
  · rw [not_or] at hquotes
    refine ⟨fun happostrophe => ?_, hquotes⟩
    exact not_invites_of_apostrophe hparse horigin hauthority hwords hsegs hquotes happostrophe
      hinvites

theorem firstAddress_of_isSpace {l : Units} (h : ∀ u ∈ l, isSpace u) : firstAddress l = none := by
  induction l with
  | nil => rfl
  | cons u l ih =>
      have hu := not_inAddress_of_isSpace (h u (List.mem_cons_self ..))
      have hcons := firstAddress_append_cons hu [] l
      rw [ih fun v hv => h v (List.mem_cons_of_mem _ hv)] at hcons
      exact hcons

theorem trim_ne_nil_of_address {l : Units} (h : firstAddress l ≠ none) : trim isSpace l ≠ [] := by
  intro hnil
  refine h (firstAddress_of_isSpace ?_)
  rw [trim, List.rdropWhile_eq_nil_iff] at hnil
  intro u hu
  rw [← List.takeWhile_append_dropWhile (p := isSpace) (l := l), List.mem_append] at hu
  rcases hu with hu | hu
  · exact List.mem_takeWhile_imp hu
  · exact hnil u hu

/-- After words with an address of their own a link is not looked at. -/
theorem parseInvite_first (hapart : ∀ u ∈ before.getLast?, isSpace u)
    (h : firstAddress before ≠ none) (text : Units) :
    parseInvite parse (before ++ text) = parseInvite parse before := by
  obtain ⟨m, hm⟩ := Option.ne_none_iff_exists'.1 h
  have hfirst : firstAddress (before ++ text) = some m := by
    rcases List.eq_nil_or_concat before with rfl | ⟨w, u, rfl⟩
    · cases hm
    · rw [List.concat_eq_append] at hapart hm ⊢
      have hu := not_inAddress_of_isSpace (hapart u (by rw [List.getLast?_append]; rfl))
      rw [firstAddress_append_cons hu] at hm
      rw [List.append_assoc, List.singleton_append, firstAddress_append_cons hu,
        Option.or_eq_some_iff]
      exact .inl (by simpa [firstAddress] using hm)
  have htrim : trim isSpace (before ++ text) ≠ [] :=
    trim_ne_nil_of_address (by rw [hfirst]; exact Option.some_ne_none m)
  rw [parseInvite, parseInvite, if_neg htrim, if_neg (trim_ne_nil_of_address h), findAddress,
    findAddress, hfirst, hm]

end Invitations

section Letters

def isSmall (u : UInt16) : Bool := 0x61 ≤ u.toNat ∧ u.toNat ≤ 0x7a

/-- A browser that knows hosts of small letters only. -/
def parseLetters (text : Units) : Option Url :=
  let rest := text.drop HTTPS.length
  let host := rest.takeWhile (· ≠ SLASH)
  let page := rest.dropWhile (· ≠ SLASH)
  if text.take HTTPS.length = HTTPS ∧ host ≠ [] ∧ host.all isSmall then
    some ⟨text, units "https:", host, host, HTTPS ++ host, if page = [] then [SLASH] else page, false⟩
  else none

theorem parseLetters_spec {text : Units} {u : Url} (h : parseLetters text = some u) :
    ∃ host page, text = HTTPS ++ (host ++ page) ∧ host ≠ [] ∧
      host.all isSmall ∧ u.origin = HTTPS ++ host := by
  dsimp only [parseLetters] at h
  split at h
  next hletters =>
    obtain ⟨htake, hne, hhost⟩ := hletters
    cases h
    refine ⟨_, (text.drop HTTPS.length).dropWhile (· ≠ SLASH), ?_, hne, hhost, rfl⟩
    rw [List.takeWhile_append_dropWhile]
    exact ((congrArg (· ++ text.drop HTTPS.length) htake).symm.trans
      (List.take_append_drop HTTPS.length text)).symm
  next => cases h

theorem parseLetters_path {host page : Units} (hne : host ≠ []) (hhost : host.all isSmall) :
    parseLetters (HTTPS ++ (host ++ SLASH :: page)) =
      some ⟨HTTPS ++ (host ++ SLASH :: page), units "https:", host, host, HTTPS ++ host,
        SLASH :: page, false⟩ := by
  have hslash : ∀ v ∈ host, decide (v ≠ SLASH) = true := by
    intro v hv
    refine decide_eq_true ?_
    rintro rfl
    exact absurd (List.all_eq_true.1 hhost SLASH hv) (by decide)
  have htake : (host ++ SLASH :: page).takeWhile (· ≠ SLASH) = host := by
    rw [takeWhile_append_cons (by decide), List.takeWhile_eq_self_iff.2 hslash]
  have hdrop : (host ++ SLASH :: page).dropWhile (· ≠ SLASH) = SLASH :: page := by
    rw [List.dropWhile_append_of_pos hslash, List.dropWhile_cons_of_neg (by decide)]
  simp only [parseLetters, List.drop_left, List.take_left, htake, hdrop]
  rw [if_pos ⟨trivial, hne, hhost⟩, if_neg (List.cons_ne_nil _ _)]

theorem parseLetters_standard : UrlStandard parseLetters := by
  refine ⟨fun h _ => ?_, fun ⟨_, _, h, _, horigin⟩ _ _ => ?_, fun hq _ hnot h hin => ?_⟩
  · obtain ⟨host, -, -, hne, hhost, horigin⟩ := parseLetters_spec h
    refine ⟨host, horigin, hne, fun v hv => ?_⟩
    obtain ⟨hlow, hhigh⟩ := of_decide_eq_true (List.all_eq_true.1 hhost v hv)
    refine ⟨by omega, by omega, fun hmem => ?_⟩
    have hother : [SLASH, 0x3c, 0x3e, 0x25].all (fun w => w.toNat < 0x61) = true := by decide
    have hless := of_decide_eq_true (List.all_eq_true.1 hother v hmem)
    omega
  · obtain ⟨host, -, -, hne, hhost, heq⟩ := parseLetters_spec h
    rw [← horigin, heq, List.append_assoc]
    exact ⟨_, parseLetters_path hne hhost, rfl, rfl, hne, rfl⟩
  · obtain ⟨host, page, rfl, -, -, horigin⟩ := parseLetters_spec h
    rw [horigin] at hin
    refine hnot ?_
    rcases List.mem_append.1 hin with hin | hin
    · exact List.mem_append_left _ hin
    · exact List.mem_append_right _ (List.mem_append_left _ hin)

/-- A room in a directory, with a space and a letter that is not of ASCII. -/
theorem roomUrl_invites_words : ∃ link,
    roomUrl (units "https://meet") (units "hub/café one") = some link ∧
      Invites parseLetters (units "Join: " ++ link ++ units " - now!") (units "https://meet")
        (units "hub/café one") := by
  have horigin : IsHttpsOrigin parseLetters (units "https://meet") :=
    ⟨units "https://meet", ⟨_, _, _, _, _, _, _⟩, rfl, rfl, by decide⟩
  have hroom : IsRoom (units "hub/café one") :=
    ⟨⟨by rintro _ ⟨⟩; decide, by rintro _ ⟨⟩; decide⟩, ["hub".toList, "café one".toList],
      by decide, by decide, by decide⟩
  have hwords : Around (units "Join: ") (units " - now!") :=
    ⟨by rintro _ ⟨⟩; decide, by rintro _ ⟨⟩; decide, by decide⟩
  obtain ⟨link, hlink, -, hiff⟩ := roomUrl_invites_iff parseLetters_standard horigin hroom hwords
  exact ⟨link, hlink, (hiff (by decide)).2 (by decide)⟩

/-- The room `it's` is found as `it`. -/
theorem not_roomUrl_invites :
    ¬ ∀ parse, UrlStandard parse → ∀ origin room before after, IsHttpsOrigin parse origin →
      IsRoom room → Around before after →
        ∃ link, roomUrl origin room = some link ∧
          Invites parse (before ++ link ++ after) origin room := by
  intro hall
  have horigin : IsHttpsOrigin parseLetters (units "https://h") :=
    ⟨units "https://h", ⟨_, _, _, _, _, _, _⟩, rfl, rfl, by decide⟩
  have hname : IsRoom (units "it's") :=
    ⟨⟨by rintro _ ⟨⟩; decide, by rintro _ ⟨⟩; decide⟩, ["it's".toList],
      by decide, by decide, by decide⟩
  obtain ⟨link, hlink, invite, hok, -, -, hroom⟩ := hall parseLetters parseLetters_standard _ _
    [] [] horigin hname ⟨nofun, nofun, rfl⟩
  have hurl : roomUrl (units "https://h") (units "it's") = some (units "https://h/group/it's/") := by
    decide +kernel
  rw [hurl] at hlink
  cases hlink
  have hfound : (parseInvite parseLetters ([] ++ units "https://h/group/it's/" ++ [])).toOption.map
      Invite.room = some (some (units "it")) := by decide +kernel
  rw [hok] at hfound
  have hit : invite.room = some (units "it") := Option.some.inj hfound
  rw [hroom] at hit
  exact absurd hit (by decide)

end Letters

end Sozvon.RoomLinks
