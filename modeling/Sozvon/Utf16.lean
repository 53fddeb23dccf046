import Mathlib.Data.List.Basic
import Mathlib.Data.Nat.Notation

/-!
# Strings of UTF-16 code units

A string is a list of code units, of which some may be surrogates without their
other half. An encoder into UTF-8 replaces those; a decoder may leave out a
byte order mark at the beginning.
-/
namespace Sozvon.Utf16

abbrev Units := List UInt16

def isHigh (u : UInt16) : Prop := 0xd800 ≤ u.toNat ∧ u.toNat < 0xdc00

def isLow (u : UInt16) : Prop := 0xdc00 ≤ u.toNat ∧ u.toNat < 0xe000

instance : DecidablePred isHigh := fun _ => inferInstanceAs (Decidable (_ ∧ _))

instance : DecidablePred isLow := fun _ => inferInstanceAs (Decidable (_ ∧ _))

def replacement : Char := Char.ofNat 0xfffd

def byteOrderMark : Char := Char.ofNat 0xfeff

def single (u : UInt16) : Char := if isHigh u ∨ isLow u then replacement else Char.ofNat u.toNat

def pair (u v : UInt16) : Char :=
  Char.ofNat (0x10000 + (u.toNat - 0xd800) * 0x400 + (v.toNat - 0xdc00))

/-- White space of the language, `\s` of its regular expressions too. -/
def isSpace (u : UInt16) : Bool :=
  let n := u.toNat
  0x9 ≤ n ∧ n ≤ 0xd ∨ n = 0x20 ∨ n = 0xa0 ∨ n = 0x1680 ∨ 0x2000 ≤ n ∧ n ≤ 0x200a ∨
    n = 0x2028 ∨ n = 0x2029 ∨ n = 0x202f ∨ n = 0x205f ∨ n = 0x3000 ∨ n = 0xfeff

/-- The characters, with a replacement for each lone surrogate. -/
def toChars : Units → List Char
  | [] => []
  | [u] => [single u]
  | u :: v :: rest =>
      if isHigh u ∧ isLow v then pair u v :: toChars rest else single u :: toChars (v :: rest)

def ofChar (c : Char) : Units :=
  if c.toNat < 0x10000 then [UInt16.ofNat c.toNat]
  else
    [UInt16.ofNat (0xd800 + (c.toNat - 0x10000) / 0x400),
      UInt16.ofNat (0xdc00 + (c.toNat - 0x10000) % 0x400)]

def ofChars (cs : List Char) : Units := cs.flatMap ofChar

/-- The bytes of the characters, in UTF-8. -/
def utf8 (cs : List Char) : List UInt8 := (String.ofList cs).toByteArray.data.toList

/-- `TextEncoder.encode` -/
def encode (x : Units) : List UInt8 := utf8 (toChars x)

/-- `TextDecoder.decode`, of the characters whose bytes it is given. -/
def decode (cs : List Char) : Units :=
  match cs with
  | [] => []
  | c :: rest => if c = byteOrderMark then ofChars rest else ofChars (c :: rest)

/-- Strings that come back from encoding and decoding. -/
def Lossless (x : Units) : Prop := ∃ cs, x = ofChars cs ∧ cs.head? ≠ some byteOrderMark

/-- Strings that no other string is encoded as. -/
def Plain (x : Units) : Prop := ∃ cs, x = ofChars cs ∧ replacement ∉ cs

theorem utf8_injective {cs cs' : List Char} (h : utf8 cs = utf8 cs') : cs = cs' := by
  have hbytes : (String.ofList cs).toByteArray = (String.ofList cs').toByteArray :=
    ByteArray.ext (Array.toList_inj.mp h)
  have hstring : String.ofList cs = String.ofList cs' := String.toByteArray_inj.mp hbytes
  rw [← String.toList_ofList (l := cs), hstring, String.toList_ofList]

theorem utf8_eq (cs : List Char) : utf8 cs = cs.flatMap String.utf8EncodeChar := by
  rw [utf8, String.toByteArray_ofList, List.utf8Encode]
  simp

/-- A character takes at least one byte. -/
theorem length_le_utf8 (cs : List Char) : cs.length ≤ (utf8 cs).length := by
  rw [utf8_eq]
  induction cs with
  | nil => exact Nat.le_refl 0
  | cons c cs ih =>
      rw [List.flatMap_cons, List.length_append, String.length_utf8EncodeChar, List.length_cons]
      have hpos := Char.utf8Size_pos c
      omega

theorem toNat_lt (c : Char) : c.toNat < 0xd800 ∨ 0xdfff < c.toNat ∧ c.toNat < 0x110000 := c.valid

theorem toNat_ofNat {n : ℕ} (h : n < 0xd800 ∨ 0xdfff < n ∧ n < 0x110000) :
    (Char.ofNat n).toNat = n := by
  have hvalid : n.isValidChar := h
  rw [Char.ofNat, dif_pos hvalid]
  rfl

theorem single_ne {u : UInt16} (h : ¬ isHigh u) (h' : ¬ isLow u) : single u = Char.ofNat u.toNat :=
  if_neg fun hor => hor.elim h h'

/-- A unit that does not begin a pair stands alone. -/
theorem toChars_cons {u : UInt16} (h : ¬ isHigh u) (rest : Units) :
    toChars (u :: rest) = single u :: toChars rest := by
  cases rest with
  | nil => rfl
  | cons v rest => rw [toChars, if_neg fun hpair => h hpair.1]

theorem ofChar_single {u : UInt16} (h : single u ≠ replacement) : ofChar (single u) = [u] := by
  by_cases hor : isHigh u ∨ isLow u
  · exact absurd (if_pos hor) h
  · have hlt := u.toNat_lt
    have hvalid : u.toNat < 0xd800 ∨ 0xdfff < u.toNat ∧ u.toNat < 0x110000 := by
      simp only [isHigh, isLow] at hor
      omega
    rw [single, if_neg hor, ofChar, toNat_ofNat hvalid, if_pos (by omega), UInt16.ofNat_toNat]

theorem ofChar_pair {u v : UInt16} (hu : isHigh u) (hv : isLow v) : ofChar (pair u v) = [u, v] := by
  obtain ⟨hu₁, hu₂⟩ := hu
  obtain ⟨hv₁, hv₂⟩ := hv
  rw [pair, ofChar, toNat_ofNat (by omega), if_neg (by omega)]
  have hfirst : 0xd800 + (0x10000 + (u.toNat - 0xd800) * 0x400 + (v.toNat - 0xdc00) - 0x10000) / 0x400 =
      u.toNat := by omega
  have hsecond : 0xdc00 + (0x10000 + (u.toNat - 0xd800) * 0x400 + (v.toNat - 0xdc00) - 0x10000) % 0x400 =
      v.toNat := by omega
  rw [hfirst, hsecond, UInt16.ofNat_toNat, UInt16.ofNat_toNat]

/-- Where nothing had to be replaced, nothing is lost. -/
theorem ofChars_toChars {x : Units} (h : replacement ∉ toChars x) : ofChars (toChars x) = x := by
  induction x using toChars.induct with
  | case1 => rfl
  | case2 u =>
      have hne : single u ≠ replacement := fun heq => h (by rw [toChars, heq]; exact List.mem_cons_self ..)
      rw [toChars, ofChars, List.flatMap_cons, ofChar_single hne]
      rfl
  | case3 u v rest hpair ih =>
      rw [toChars, if_pos hpair] at h ⊢
      have hrest := ih fun hin => h (List.mem_cons_of_mem _ hin)
      rw [ofChars, List.flatMap_cons, ofChar_pair hpair.1 hpair.2]
      exact congrArg (fun l => u :: v :: l) hrest
  | case4 u v rest hpair ih =>
      rw [toChars, if_neg hpair] at h ⊢
      have hne : single u ≠ replacement := fun heq => h (by rw [heq]; exact List.mem_cons_self ..)
      have hrest := ih fun hin => h (List.mem_cons_of_mem _ hin)
      rw [ofChars, List.flatMap_cons, ofChar_single hne]
      exact congrArg (fun l => u :: l) hrest

theorem toChars_ofChars (cs : List Char) : toChars (ofChars cs) = cs := by
  induction cs with
  | nil => rfl
  | cons c cs ih =>
      have hvalid := toNat_lt c
      rw [ofChars, List.flatMap_cons, ofChar]
      by_cases hsmall : c.toNat < 0x10000
      · rw [if_pos hsmall]
        have hunit : (UInt16.ofNat c.toNat).toNat = c.toNat := UInt16.toNat_ofNat_of_lt' hsmall
        have hhigh : ¬ isHigh (UInt16.ofNat c.toNat) := by
          rw [isHigh, hunit]
          omega
        have hlow : ¬ isLow (UInt16.ofNat c.toNat) := by
          rw [isLow, hunit]
          omega
        rw [List.singleton_append, toChars_cons hhigh, single_ne hhigh hlow, hunit, Char.ofNat_toNat]
        exact congrArg (c :: ·) ih
      · rw [if_neg hsmall]
        have hfirst : (UInt16.ofNat (0xd800 + (c.toNat - 0x10000) / 0x400)).toNat =
            0xd800 + (c.toNat - 0x10000) / 0x400 := UInt16.toNat_ofNat_of_lt' (by
          change _ < 65536
          omega)
        have hsecond : (UInt16.ofNat (0xdc00 + (c.toNat - 0x10000) % 0x400)).toNat =
            0xdc00 + (c.toNat - 0x10000) % 0x400 := UInt16.toNat_ofNat_of_lt' (by
          change _ < 65536
          omega)
        have hpair : isHigh (UInt16.ofNat (0xd800 + (c.toNat - 0x10000) / 0x400)) ∧
            isLow (UInt16.ofNat (0xdc00 + (c.toNat - 0x10000) % 0x400)) := by
          rw [isHigh, isLow, hfirst, hsecond]
          omega
        have hchar : pair (UInt16.ofNat (0xd800 + (c.toNat - 0x10000) / 0x400))
            (UInt16.ofNat (0xdc00 + (c.toNat - 0x10000) % 0x400)) = c := by
          have hsum : 0x10000 + (0xd800 + (c.toNat - 0x10000) / 0x400 - 0xd800) * 0x400 +
              (0xdc00 + (c.toNat - 0x10000) % 0x400 - 0xdc00) = c.toNat := by omega
          rw [pair, hfirst, hsecond, hsum, Char.ofNat_toNat]
        rw [List.cons_append, List.singleton_append, toChars, if_pos hpair, hchar]
        exact congrArg (c :: ·) ih

theorem ofChars_injective {cs cs' : List Char} (h : ofChars cs = ofChars cs') : cs = cs' := by
  rw [← toChars_ofChars cs, h, toChars_ofChars]

theorem ofChars_ne_nil {cs : List Char} (h : cs ≠ []) : ofChars cs ≠ [] := fun hnil =>
  h (ofChars_injective (hnil.trans (rfl : [] = ofChars [])))

/-- Characters of ASCII are units of their own. -/
theorem mem_ofChars_iff {a : Char} (ha : a.toNat < 0x80) {cs : List Char} :
    UInt16.ofNat a.toNat ∈ ofChars cs ↔ a ∈ cs := by
  have hunit : (UInt16.ofNat a.toNat).toNat = a.toNat :=
    UInt16.toNat_ofNat_of_lt' (by change _ < 65536; omega)
  rw [ofChars, List.mem_flatMap]
  constructor
  · rintro ⟨c, hc, hin⟩
    rw [ofChar] at hin
    split_ifs at hin with hsmall
    · have hnat := congrArg UInt16.toNat (List.mem_singleton.1 hin)
      rw [hunit, UInt16.toNat_ofNat_of_lt' hsmall] at hnat
      rw [← Char.ofNat_toNat a, hnat, Char.ofNat_toNat]
      exact hc
    · have hvalid := toNat_lt c
      rw [List.mem_cons, List.mem_singleton] at hin
      have hnat := hin.imp (congrArg UInt16.toNat) (congrArg UInt16.toNat)
      rw [hunit, UInt16.toNat_ofNat_of_lt' (by change _ < 65536; omega),
        UInt16.toNat_ofNat_of_lt' (by change _ < 65536; omega)] at hnat
      omega
  · intro hin
    refine ⟨a, hin, ?_⟩
    rw [ofChar, if_pos (by omega)]
    exact List.mem_singleton.2 rfl

theorem decode_toChars {x : Units} (h : Lossless x) : decode (toChars x) = x := by
  obtain ⟨cs, rfl, hmark⟩ := h
  rw [toChars_ofChars]
  cases cs with
  | nil => rfl
  | cons c cs => rw [decode, if_neg fun heq => hmark (congrArg some heq)]

theorem eq_of_encode {x y : Units} (h : Plain x) (heq : encode y = encode x) : y = x := by
  obtain ⟨cs, rfl, hplain⟩ := h
  have hchars : toChars y = cs := (utf8_injective heq).trans (toChars_ofChars cs)
  rw [← ofChars_toChars (x := y) (hchars ▸ hplain), hchars]

end Sozvon.Utf16
