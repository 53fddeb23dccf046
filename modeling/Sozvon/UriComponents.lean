import Sozvon.Utf16

/-!
# Percent-encoding of strings

A character of a URI component stands for itself or for its bytes in UTF-8, each of
them written as two hexadecimal digits.
-/
namespace Sozvon.UriComponents
open Utf16

section Definitions

/-- Letters, digits and `-_.!~*'()` -/
def isUnreserved (n : ℕ) : Bool :=
  0x30 ≤ n ∧ n ≤ 0x39 ∨ 0x41 ≤ n ∧ n ≤ 0x5a ∨ 0x61 ≤ n ∧ n ≤ 0x7a ∨
    n ∈ [0x2d, 0x5f, 0x2e, 0x21, 0x7e, 0x2a, 0x27, 0x28, 0x29]

def hexDigit (n : ℕ) : UInt16 := UInt16.ofNat (if n < 10 then 0x30 + n else 0x41 + (n - 10))

def hexValue (u : UInt16) : Option ℕ :=
  let n := u.toNat
  if 0x30 ≤ n ∧ n ≤ 0x39 then some (n - 0x30)
  else if 0x41 ≤ n ∧ n ≤ 0x46 then some (n - 0x41 + 10)
  else if 0x61 ≤ n ∧ n ≤ 0x66 then some (n - 0x61 + 10)
  else none

def percent (b : UInt8) : Units := [0x25, hexDigit (b.toNat / 16), hexDigit (b.toNat % 16)]

def encodeChar (c : Char) : Units :=
  if isUnreserved c.toNat then ofChar c else (String.utf8EncodeChar c).flatMap percent

def encodeChars (cs : List Char) : Units := cs.flatMap encodeChar

/-- There is no encoding of a lone surrogate. -/
def encodeURIComponent (x : Units) : Option Units :=
  if ofChars (toChars x) = x then some (encodeChars (toChars x)) else none

/-- The bytes that stand in front. -/
def octets : Units → List UInt8
  | u :: a :: b :: rest =>
      if u = 0x25 then
        match hexValue a, hexValue b with
        | some x, some y => UInt8.ofNat (16 * x + y) :: octets rest
        | _, _ => []
      else []
  | _ => []

/-- Decoding that goes on after so many units. -/
def decodeAfter : ℕ → Units → Option Units
  | _, [] => some []
  | n + 1, _ :: rest => decodeAfter n rest
  | 0, u :: rest =>
      if u = 0x25 then
        match ByteArray.utf8DecodeChar? (octets (u :: rest)).toByteArray 0 with
        | none => none
        | some c => (decodeAfter (3 * c.utf8Size - 1) rest).map (ofChar c ++ ·)
      else (decodeAfter 0 rest).map (u :: ·)

/-- There is no decoding where the bytes are no character. -/
def decodeURIComponent (x : Units) : Option Units := decodeAfter 0 x

end Definitions

section Theorems

theorem hexValue_hexDigit : ∀ {n : ℕ}, n < 16 → hexValue (hexDigit n) = some n := by
  decide

theorem octets_percent (b : UInt8) (rest : Units) :
    octets (percent b ++ rest) = b :: octets rest := by
  have hlt := b.toNat_lt
  have hbyte : UInt8.ofNat (16 * (b.toNat / 16) + b.toNat % 16) = b := by
    rw [Nat.div_add_mod, UInt8.ofNat_toNat]
  rw [percent, List.cons_append, List.cons_append, List.cons_append, List.nil_append, octets,
    if_pos rfl, hexValue_hexDigit (by omega), hexValue_hexDigit (by omega)]
  exact congrArg (· :: octets rest) hbyte

theorem octets_flatMap_percent (bs : List UInt8) (rest : Units) :
    octets (bs.flatMap percent ++ rest) = bs ++ octets rest := by
  induction bs with
  | nil => rfl
  | cons b bs ih =>
      rw [List.flatMap_cons, List.append_assoc, octets_percent, ih]
      rfl

theorem length_flatMap_percent (bs : List UInt8) : (bs.flatMap percent).length = 3 * bs.length := by
  induction bs with
  | nil => rfl
  | cons b bs ih =>
      rw [List.flatMap_cons, List.length_append, ih, List.length_cons, percent]
      change 3 + _ = _
      omega

theorem decodeAfter_append (front rest : Units) :
    decodeAfter front.length (front ++ rest) = decodeAfter 0 rest := by
  induction front with
  | nil => rfl
  | cons u front ih => exact ih

theorem decodeAfter_cons {u : UInt16} (h : u ≠ 0x25) (rest : Units) :
    decodeAfter 0 (u :: rest) = (decodeAfter 0 rest).map (u :: ·) := by
  rw [decodeAfter, if_neg h]

/-- The bytes of a character are read as this character. -/
theorem decodeAfter_bytes (c : Char) (rest : Units) :
    decodeAfter 0 ((String.utf8EncodeChar c).flatMap percent ++ rest) =
      (decodeAfter 0 rest).map (ofChar c ++ ·) := by
  have hoctets := octets_flatMap_percent (String.utf8EncodeChar c) rest
  have hlength := length_flatMap_percent (String.utf8EncodeChar c)
  rw [String.length_utf8EncodeChar] at hlength
  have hpos := c.utf8Size_pos
  have hchar : ByteArray.utf8DecodeChar?
      (String.utf8EncodeChar c ++ octets rest).toByteArray 0 = some c := by
    rw [List.toByteArray_append]
    exact ByteArray.utf8DecodeChar?_utf8EncodeChar_append
  cases hbytes : (String.utf8EncodeChar c).flatMap percent with
  | nil =>
      rw [hbytes, List.length_nil] at hlength
      omega
  | cons u units =>
      have hu : u = 0x25 := by
        cases hencoded : String.utf8EncodeChar c with
        | nil =>
            rw [hencoded] at hbytes
            cases hbytes
        | cons b bs =>
            rw [hencoded] at hbytes
            exact (List.cons.inj hbytes).1.symm
      rw [hbytes, List.cons_append] at hoctets
      rw [hbytes, List.length_cons] at hlength
      rw [List.cons_append, decodeAfter, if_pos hu, hoctets, hchar]
      change (decodeAfter (3 * c.utf8Size - 1) (units ++ rest)).map _ = _
      rw [show 3 * c.utf8Size - 1 = units.length by omega, decodeAfter_append]

/-- Unreserved are printing characters of ASCII, and not the percent sign. -/
theorem unreserved_range {n : ℕ} (h : isUnreserved n) : 0x20 < n ∧ n < 0x7f ∧ n ≠ 0x25 := by
  simp only [isUnreserved, List.mem_cons, List.not_mem_nil, or_false, decide_eq_true_eq] at h
  omega

theorem ofChar_of_unreserved {c : Char} (h : isUnreserved c.toNat) :
    ofChar c = [UInt16.ofNat c.toNat] := by
  have hrange := unreserved_range h
  rw [ofChar, if_pos (by omega)]

theorem decodeAfter_encodeChar (c : Char) (rest : Units) :
    decodeAfter 0 (encodeChar c ++ rest) = (decodeAfter 0 rest).map (ofChar c ++ ·) := by
  rw [encodeChar]
  split_ifs with h
  · have hne : UInt16.ofNat c.toNat ≠ 0x25 := by
      intro heq
      have hrange := unreserved_range h
      have hnat := congrArg UInt16.toNat heq
      rw [UInt16.toNat_ofNat_of_lt' (by change _ < 65536; omega)] at hnat
      exact hrange.2.2 hnat
    rw [ofChar_of_unreserved h, List.singleton_append, decodeAfter_cons hne]
    rfl
  · exact decodeAfter_bytes c rest

/-- What is encoded comes back. -/
theorem decodeURIComponent_encodeChars (cs : List Char) :
    decodeURIComponent (encodeChars cs) = some (ofChars cs) := by
  rw [decodeURIComponent]
  induction cs with
  | nil => rfl
  | cons c cs ih =>
      rw [encodeChars, List.flatMap_cons, decodeAfter_encodeChar]
      change (decodeAfter 0 (encodeChars cs)).map _ = _
      rw [ih]
      rfl

theorem encodeURIComponent_ofChars (cs : List Char) :
    encodeURIComponent (ofChars cs) = some (encodeChars cs) := by
  rw [encodeURIComponent, toChars_ofChars, if_pos rfl]

/-- An unreserved character stands for itself; all others leave percent signs and digits. -/
theorem of_mem_encodeChar {c : Char} {u : UInt16} (h : u ∈ encodeChar c) :
    isUnreserved c.toNat ∧ u.toNat = c.toNat ∨ u = 0x25 ∨ ∃ n < 16, u = hexDigit n := by
  rw [encodeChar] at h
  split_ifs at h with hc
  · have hrange := unreserved_range hc
    rw [ofChar_of_unreserved hc, List.mem_singleton] at h
    exact .inl ⟨hc, by rw [h, UInt16.toNat_ofNat_of_lt' (by change _ < 65536; omega)]⟩
  · obtain ⟨b, -, hb⟩ := List.mem_flatMap.1 h
    have hlt := b.toNat_lt
    rw [percent, List.mem_cons, List.mem_cons, List.mem_singleton] at hb
    rcases hb with rfl | rfl | rfl
    · exact .inr (.inl rfl)
    · exact .inr (.inr ⟨_, by omega, rfl⟩)
    · exact .inr (.inr ⟨_, by omega, rfl⟩)

theorem unreserved_hexDigit : ∀ {n : ℕ}, n < 16 → isUnreserved (hexDigit n).toNat := by
  decide

theorem unreserved_of_mem_encodeChars {cs : List Char} {u : UInt16} (h : u ∈ encodeChars cs) :
    u = 0x25 ∨ isUnreserved u.toNat := by
  obtain ⟨c, -, hc⟩ := List.mem_flatMap.1 h
  rcases of_mem_encodeChar hc with ⟨hunreserved, heq⟩ | hpercent | ⟨n, hn, rfl⟩
  · exact .inr (heq ▸ hunreserved)
  · exact .inl hpercent
  · exact .inr (unreserved_hexDigit hn)

theorem encodeChar_ne_nil (c : Char) : encodeChar c ≠ [] := by
  rw [encodeChar]
  split_ifs with h
  · rw [ofChar_of_unreserved h]
    exact List.cons_ne_nil _ _
  · intro hnil
    have hlength := length_flatMap_percent (String.utf8EncodeChar c)
    have hpos := c.utf8Size_pos
    rw [hnil, List.length_nil, String.length_utf8EncodeChar] at hlength
    omega

theorem encodeChars_ne_nil {cs : List Char} (h : cs ≠ []) : encodeChars cs ≠ [] := by
  cases cs with
  | nil => exact absurd rfl h
  | cons c cs =>
      rw [encodeChars, List.flatMap_cons]
      exact List.append_ne_nil_of_left_ne_nil (encodeChar_ne_nil c) _

end Theorems

end Sozvon.UriComponents
