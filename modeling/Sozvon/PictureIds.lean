import Sozvon.Codecs

/-!
# Picture ids rewritten in place

`RewritePacket` changes the buffer that it is given, also where it returns an error.
Of a VP8 packet that is whole, rewriting adds to the picture id and changes nothing
else but the number and the marker.
-/
namespace Sozvon.Codecs

/-- `RewritePacket` with the buffer that it leaves behind and its error, which is `none` for
`nil`. -/
def rewriteInPlace (codec : Codec) (data : Bytes) (setMarker : Bool) (seqno delta : UInt16) :
    Bytes × Option Error :=
  if data.length < 12 then (data, some .truncated)
  else
    let data := if setMarker then data.set 1 (peek data 1 ||| 0x80) else data
    let data := (data.set 2 (seqno >>> 8).toUInt8).set 3 seqno.toUInt8
    if delta = 0 then (data, none)
    else match payloadOffset data with
      | .error e => (data, some e)
      | .ok offset =>
          match codec with
          | .vp8 =>
              match rewritePictureID data offset delta with
              | .error e => (data, some e)
              | .ok out => (out, none)
          | _ => (data, none)

/-- Where there is no error it leaves behind what `rewritePacket` returns. -/
theorem rewritePacket_eq (codec : Codec) (data : Bytes) (setMarker : Bool) (seqno delta : UInt16) :
    rewritePacket codec data setMarker seqno delta =
      match rewriteInPlace codec data setMarker seqno delta with
      | (out, none) => .ok out
      | (_, some e) => .error e := by
  rw [rewritePacket, rewriteInPlace]
  by_cases hshort : data.length < 12
  · rw [if_pos hshort, if_pos hshort]
  rw [if_neg hshort, if_neg hshort]
  extract_lets data data
  by_cases hdelta : delta = 0
  · rw [if_pos hdelta, if_pos hdelta]
  rw [if_neg hdelta, if_neg hdelta]
  cases payloadOffset data with
  | error e => rfl
  | ok offset =>
      cases codec with
      | vp8 => cases hrewrite : rewritePictureID data offset delta <;> simp [bind, Except.bind, hrewrite]
      | vp9 => rfl
      | other => rfl

/-- A VP8 packet in which the header, with its sources and its extension, and the payload
descriptor end before the packet does. -/
def WellFormed (data : Bytes) : Prop :=
  headerLength data + descriptorLength data (headerLength data) ≤ data.length

instance (data : Bytes) : Decidable (WellFormed data) := inferInstanceAs (Decidable (_ ≤ _))

/-- Behind a header extension `RewritePacket` asks for four bytes of payload. -/
def LongEnough (data : Bytes) : Prop :=
  peek data 0 &&& 0x10 = 0 ∨ headerLength data + 4 ≤ data.length

instance (data : Bytes) : Decidable (LongEnough data) := inferInstanceAs (Decidable (_ ∨ _))

/-- The width of the picture id that is rewritten, if there is one. -/
def pictureIDWidth (data : Bytes) : Option Width :=
  let offset := headerLength data
  if ¬ LongEnough data ∨ peek data offset &&& 0x80 = 0 ∨ peek data (offset + 1) &&& 0x80 = 0 then none
  else if peek data (offset + 2) &&& 0x80 = 0 then some .short
  else some .long

def shiftShort (m : UInt8) (delta : UInt16) : UInt8 := (m + delta.toUInt8) &&& 0x7F

def shiftLong (m l : UInt8) (delta : UInt16) : UInt8 × UInt8 :=
  let pid := ((m &&& 0x7F).toUInt16 <<< 8 ||| l.toUInt16) + delta &&& 0x7FFF
  ((0x80 : UInt8) ||| ((pid >>> 8) &&& 0x7F).toUInt8, (pid &&& 0xFF).toUInt8)

/-- The marker and the sequence number. -/
def setHeader (data : Bytes) (setMarker : Bool) (seqno : UInt16) : Bytes :=
  let data := if setMarker then data.set 1 (peek data 1 ||| 0x80) else data
  (data.set 2 (seqno >>> 8).toUInt8).set 3 seqno.toUInt8

def addPictureID (data : Bytes) (delta : UInt16) : Bytes :=
  let offset := headerLength data
  let m := peek data (offset + 2)
  match pictureIDWidth data with
  | none => data
  | some .short => data.set (offset + 2) (shiftShort m delta)
  | some .long =>
      let pid := shiftLong m (peek data (offset + 3)) delta
      (data.set (offset + 2) pid.1).set (offset + 3) pid.2

section Shifts

theorem toNat_shiftShort (m : UInt8) (delta : UInt16) :
    (shiftShort m delta).toNat = (m.toNat + delta.toNat) % 128 := by
  rw [shiftShort, toNat_and_0x7F, UInt8.toNat_add, UInt16.toNat_toUInt8]
  omega

theorem shiftShort_shiftShort (m : UInt8) (d₁ d₂ : UInt16) :
    shiftShort (shiftShort m d₁) d₂ = shiftShort m (d₁ + d₂) := by
  rw [← UInt8.toNat_inj, toNat_shiftShort, toNat_shiftShort, toNat_shiftShort, UInt16.toNat_add]
  omega

theorem shiftShort_zero {m : UInt8} (h : m &&& 0x80 = 0) : shiftShort m 0 = m := by
  have hlt : ¬ 128 ≤ m.toNat := fun hle => (and_0x80_ne_zero m).2 hle h
  rw [← UInt8.toNat_inj, toNat_shiftShort]
  change (m.toNat + 0) % 128 = _
  omega

theorem toNat_shiftLong (m l : UInt8) (delta : UInt16) :
    (shiftLong m l delta).1.toNat =
        128 + (256 * (m.toNat % 128) + l.toNat + delta.toNat) % 32768 / 256 ∧
      (shiftLong m l delta).2.toNat =
        (256 * (m.toNat % 128) + l.toNat + delta.toNat) % 32768 % 256 :=
  toNat_longID m l delta

theorem shiftLong_shiftLong (m l : UInt8) (d₁ d₂ : UInt16) :
    shiftLong (shiftLong m l d₁).1 (shiftLong m l d₁).2 d₂ = shiftLong m l (d₁ + d₂) := by
  obtain ⟨hm₁, hl₁⟩ := toNat_shiftLong m l d₁
  obtain ⟨hm₂, hl₂⟩ := toNat_shiftLong (shiftLong m l d₁).1 (shiftLong m l d₁).2 d₂
  obtain ⟨hm, hl⟩ := toNat_shiftLong m l (d₁ + d₂)
  rw [UInt16.toNat_add] at hm hl
  refine Prod.ext ?_ ?_
  · rw [← UInt8.toNat_inj, hm₂, hm]
    omega
  · rw [← UInt8.toNat_inj, hl₂, hl]
    omega

theorem shiftLong_zero {m : UInt8} (h : m &&& 0x80 ≠ 0) (l : UInt8) : shiftLong m l 0 = (m, l) := by
  have hle := (and_0x80_ne_zero m).1 h
  have hm := m.toNat_lt
  have hl := l.toNat_lt
  obtain ⟨hhi, hlo⟩ := toNat_shiftLong m l 0
  have hzero : (0 : UInt16).toNat = 0 := rfl
  rw [hzero] at hhi hlo
  refine Prod.ext ?_ ?_
  · rw [← UInt8.toNat_inj, hhi]
    change _ = m.toNat
    omega
  · rw [← UInt8.toNat_inj, hlo]
    change _ = l.toNat
    omega

theorem shiftShort_bit (m : UInt8) (delta : UInt16) : shiftShort m delta &&& 0x80 = 0 := by
  by_contra hbit
  have hle := (and_0x80_ne_zero _).1 hbit
  rw [toNat_shiftShort] at hle
  omega

theorem shiftLong_bit (m l : UInt8) (delta : UInt16) : (shiftLong m l delta).1 &&& 0x80 ≠ 0 := by
  rw [and_0x80_ne_zero, (toNat_shiftLong m l delta).1]
  omega

end Shifts

section Layout

/-- The packets differ, if at all, in what rewriting changes: the marker, the number, and the
picture id but for the bit of its width. -/
structure SameLayout (data data' : Bytes) : Prop where
  length : data'.length = data.length
  rest : ∀ j, j = 0 ∨ 12 ≤ j → j ≠ headerLength data + 2 → j ≠ headerLength data + 3 →
    peek data' j = peek data j
  width : peek data' (headerLength data + 2) &&& 0x80 = 0 ↔
    peek data (headerLength data + 2) &&& 0x80 = 0

variable {data data' : Bytes}

theorem SameLayout.first (h : SameLayout data data') : peek data' 0 = peek data 0 :=
  h.rest 0 (.inl rfl) (by omega) (by omega)

theorem SameLayout.headerLength_eq (h : SameLayout data data') :
    headerLength data' = headerLength data := by
  by_cases hext : peek data 0 &&& 0x10 = 0
  · simp only [headerLength, h.first, hext, if_true]
  · have hlength : 12 + (peek data 0 &&& 0x0F).toNat * 4 + 4 ≤ headerLength data := by
      simp only [headerLength, hext, if_false]
      omega
    have hhi := h.rest (12 + (peek data 0 &&& 0x0F).toNat * 4 + 2) (by omega) (by omega) (by omega)
    have hlo := h.rest (12 + (peek data 0 &&& 0x0F).toNat * 4 + 3) (by omega) (by omega) (by omega)
    simp only [headerLength, h.first, hext, if_false, hhi, hlo]

theorem SameLayout.descriptorLength_eq (h : SameLayout data data') :
    descriptorLength data' (headerLength data) = descriptorLength data (headerLength data) := by
  have h12 := twelve_le_headerLength data
  rw [descriptorLength, descriptorLength, h.rest (headerLength data) (by omega) (by omega) (by omega),
    h.rest (headerLength data + 1) (by omega) (by omega) (by omega)]
  simp only [h.width]

theorem SameLayout.longEnough_iff (h : SameLayout data data') :
    LongEnough data' ↔ LongEnough data := by
  rw [LongEnough, LongEnough, h.first, h.headerLength_eq, h.length]

theorem SameLayout.pictureIDWidth_eq (h : SameLayout data data') :
    pictureIDWidth data' = pictureIDWidth data := by
  have h12 := twelve_le_headerLength data
  simp only [pictureIDWidth, h.longEnough_iff, h.headerLength_eq, h.width,
    h.rest (headerLength data) (by omega) (by omega) (by omega),
    h.rest (headerLength data + 1) (by omega) (by omega) (by omega)]

theorem SameLayout.wellFormed (h : SameLayout data data') (hdata : WellFormed data) :
    WellFormed data' := by
  rw [WellFormed, h.headerLength_eq, h.descriptorLength_eq, h.length]
  exact hdata

theorem WellFormed.lt (h : WellFormed data) : headerLength data < data.length := by
  have hpos : 0 < descriptorLength data (headerLength data) := by
    simp only [descriptorLength]
    split_ifs <;> omega
  rw [WellFormed] at h
  omega

/-- Where a picture id is found, its bytes are in the packet. -/
theorem WellFormed.lt_of_width {w : Width} (h : WellFormed data)
    (hw : pictureIDWidth data = some w) : headerLength data + 1 + w.bytes < data.length := by
  simp only [pictureIDWidth] at hw
  split_ifs at hw with hnone hshort
  · cases hw
    simp only [WellFormed, descriptorLength] at h
    rw [if_neg fun hx => hnone (.inr (.inl hx)), if_neg fun hi => hnone (.inr (.inr hi)),
      if_pos hshort] at h
    simp only [Width.bytes]
    omega
  · cases hw
    simp only [WellFormed, descriptorLength] at h
    rw [if_neg fun hx => hnone (.inr (.inl hx)), if_neg fun hi => hnone (.inr (.inr hi)),
      if_neg hshort] at h
    simp only [Width.bytes]
    omega

theorem length_setHeader (data : Bytes) (setMarker : Bool) (seqno : UInt16) :
    (setHeader data setMarker seqno).length = data.length := by
  rw [setHeader, List.length_set, List.length_set]
  split_ifs
  · exact List.length_set
  · rfl

theorem peek_setHeader (h : 4 ≤ data.length) (setMarker : Bool) (seqno : UInt16) (j : ℕ) :
    peek (setHeader data setMarker seqno) j =
      if j = 3 then seqno.toUInt8
      else if j = 2 then (seqno >>> 8).toUInt8
      else if j = 1 ∧ setMarker then peek data 1 ||| 0x80
      else peek data j := by
  have hlength : (if setMarker then data.set 1 (peek data 1 ||| 0x80) else data).length =
      data.length := by
    split_ifs
    · exact List.length_set
    · rfl
  rw [setHeader, peek_set, peek_set, List.length_set, hlength]
  by_cases h3 : j = 3
  · rw [if_pos h3, if_pos ⟨h3.symm, by omega⟩]
  rw [if_neg h3, if_neg fun hj => h3 hj.1.symm]
  by_cases h2 : j = 2
  · rw [if_pos h2, if_pos ⟨h2.symm, by omega⟩]
  rw [if_neg h2, if_neg fun hj => h2 hj.1.symm]
  by_cases hm : setMarker
  · rw [if_pos hm, peek_set]
    by_cases h1 : j = 1
    · rw [if_pos ⟨h1.symm, by omega⟩, if_pos ⟨h1, hm⟩]
    · rw [if_neg fun hj => h1 hj.1.symm, if_neg fun hj => h1 hj.1]
  · rw [if_neg hm, if_neg fun hj => hm hj.2]

theorem setHeader_sameLayout (h : 4 ≤ data.length) (setMarker : Bool) (seqno : UInt16) :
    SameLayout data (setHeader data setMarker seqno) := by
  have h12 := twelve_le_headerLength data
  have hpeek : ∀ j, j = 0 ∨ 12 ≤ j → peek (setHeader data setMarker seqno) j = peek data j := by
    intro j hj
    rw [peek_setHeader h, if_neg (by omega), if_neg (by omega), if_neg (by omega)]
  exact ⟨length_setHeader data setMarker seqno, fun j hj _ _ => hpeek j hj,
    by rw [hpeek _ (by omega)]⟩

theorem length_addPictureID (data : Bytes) (delta : UInt16) :
    (addPictureID data delta).length = data.length := by
  rw [addPictureID]
  cases pictureIDWidth data with
  | none => rfl
  | some w =>
      cases w with
      | short => exact List.length_set
      | long => exact (List.length_set).trans List.length_set

theorem peek_addPictureID (h : WellFormed data) (delta : UInt16) (j : ℕ) :
    peek (addPictureID data delta) j =
      match pictureIDWidth data with
      | none => peek data j
      | some .short =>
          if j = headerLength data + 2 then shiftShort (peek data (headerLength data + 2)) delta
          else peek data j
      | some .long =>
          let pid := shiftLong (peek data (headerLength data + 2))
            (peek data (headerLength data + 3)) delta
          if j = headerLength data + 3 then pid.2
          else if j = headerLength data + 2 then pid.1
          else peek data j := by
  rw [addPictureID]
  cases hw : pictureIDWidth data with
  | none => rfl
  | some w =>
      have hlt := h.lt_of_width hw
      cases w with
      | short =>
          simp only [Width.bytes] at hlt
          simp only [peek_set]
          by_cases hj : j = headerLength data + 2
          · rw [if_pos hj, if_pos ⟨hj.symm, by omega⟩]
          · rw [if_neg hj, if_neg fun hin => hj hin.1.symm]
      | long =>
          simp only [Width.bytes] at hlt
          simp only [peek_set, List.length_set]
          by_cases hj : j = headerLength data + 3
          · rw [if_pos hj, if_pos ⟨hj.symm, by omega⟩]
          rw [if_neg hj, if_neg fun hin => hj hin.1.symm]
          by_cases hj' : j = headerLength data + 2
          · rw [if_pos hj', if_pos ⟨hj'.symm, by omega⟩]
          · rw [if_neg hj', if_neg fun hin => hj' hin.1.symm]

theorem pictureIDWidth_bit {w : Width} (hw : pictureIDWidth data = some w) :
    peek data (headerLength data + 2) &&& 0x80 = 0 ↔ w = .short := by
  simp only [pictureIDWidth] at hw
  split_ifs at hw with hnone hshort
  · cases hw
    exact iff_of_true hshort rfl
  · cases hw
    exact iff_of_false hshort nofun

theorem addPictureID_sameLayout (h : WellFormed data) (delta : UInt16) :
    SameLayout data (addPictureID data delta) := by
  refine ⟨length_addPictureID data delta, fun j _ h2 h3 => ?_, ?_⟩
  · rw [peek_addPictureID h]
    cases pictureIDWidth data with
    | none => rfl
    | some w =>
        cases w with
        | short => exact if_neg h2
        | long => exact (if_neg h3).trans (if_neg h2)
  · rw [peek_addPictureID h]
    cases hw : pictureIDWidth data with
    | none => rfl
    | some w =>
        rw [pictureIDWidth_bit hw]
        cases w with
        | short => simp [shiftShort_bit]
        | long =>
            have hne : ¬ headerLength data + 2 = headerLength data + 3 := by omega
            simp only [hne, if_false, if_true, reduceCtorEq, iff_false]
            exact shiftLong_bit _ _ _

end Layout

section Action

variable {data data' : Bytes}

theorem ext_peek (hlength : data.length = data'.length) (h : ∀ j, peek data j = peek data' j) :
    data = data' := by
  refine List.ext_getElem hlength fun j hj hj' => ?_
  have hpeek := h j
  rw [peek, peek, List.getD_eq_getElem _ _ hj, List.getD_eq_getElem _ _ hj'] at hpeek
  exact hpeek

theorem peek_addPictureID_low (h : WellFormed data) (delta : UInt16) {j : ℕ} (hj : j < 12) :
    peek (addPictureID data delta) j = peek data j := by
  have h12 := twelve_le_headerLength data
  rw [peek_addPictureID h]
  cases pictureIDWidth data with
  | none => rfl
  | some w =>
      cases w with
      | short => exact if_neg (by omega)
      | long => exact (if_neg (by omega)).trans (if_neg (by omega))

theorem peek_setHeader_high (h : 4 ≤ data.length) (setMarker : Bool) (seqno : UInt16) {j : ℕ}
    (hj : 12 ≤ j) : peek (setHeader data setMarker seqno) j = peek data j := by
  rw [peek_setHeader h, if_neg (by omega), if_neg (by omega), if_neg (by omega)]

theorem WellFormed.four_le (h : WellFormed data) : 4 ≤ data.length := by
  have hlt := h.lt
  have h12 := twelve_le_headerLength data
  omega

/-- The header and the picture id are in different bytes. -/
theorem setHeader_addPictureID (h : WellFormed data) (setMarker : Bool) (seqno delta : UInt16) :
    setHeader (addPictureID data delta) setMarker seqno =
      addPictureID (setHeader data setMarker seqno) delta := by
  have h4 := h.four_le
  have h12 := twelve_le_headerLength data
  have hlayout := setHeader_sameLayout h4 setMarker seqno
  have hset := hlayout.wellFormed h
  have hadd : 4 ≤ (addPictureID data delta).length := by rwa [length_addPictureID]
  refine ext_peek (by simp only [length_setHeader, length_addPictureID]) fun j => ?_
  rcases Nat.lt_or_ge j 12 with hj | hj
  · rw [peek_setHeader hadd, peek_addPictureID_low hset delta hj, peek_setHeader h4,
      peek_addPictureID_low h delta hj, peek_addPictureID_low h delta (by decide : 1 < 12)]
  · rw [peek_setHeader_high hadd setMarker seqno hj, peek_addPictureID h, peek_addPictureID hset,
      hlayout.pictureIDWidth_eq, hlayout.headerLength_eq,
      peek_setHeader_high h4 setMarker seqno hj,
      peek_setHeader_high h4 setMarker seqno (by omega : 12 ≤ headerLength data + 2),
      peek_setHeader_high h4 setMarker seqno (by omega : 12 ≤ headerLength data + 3)]

/-- The last number stays, and the marker once it is set. -/
theorem setHeader_setHeader (h : 4 ≤ data.length) (setMarker : Bool) (s₁ s₂ : UInt16) :
    setHeader (setHeader data setMarker s₁) setMarker s₂ = setHeader data setMarker s₂ := by
  have hset : 4 ≤ (setHeader data setMarker s₁).length := by rwa [length_setHeader]
  refine ext_peek (by simp only [length_setHeader]) fun j => ?_
  rw [peek_setHeader hset, peek_setHeader h, peek_setHeader h, peek_setHeader h]
  by_cases h1 : j = 1 ∧ setMarker = true
  · obtain ⟨rfl, hmarker⟩ := h1
    simp [hmarker, UInt8.or_assoc]
  · simp only [h1, if_false]
    split_ifs <;> rfl

/-- Two deltas add up. -/
theorem addPictureID_addPictureID (h : WellFormed data) (d₁ d₂ : UInt16) :
    addPictureID (addPictureID data d₁) d₂ = addPictureID data (d₁ + d₂) := by
  have hlayout := addPictureID_sameLayout h d₁
  refine ext_peek (by simp only [length_addPictureID]) fun j => ?_
  rw [peek_addPictureID (hlayout.wellFormed h), hlayout.pictureIDWidth_eq, hlayout.headerLength_eq]
  simp only [peek_addPictureID h]
  cases pictureIDWidth data with
  | none => rfl
  | some w =>
      have hne : ¬ headerLength data + 2 = headerLength data + 3 := by omega
      cases w with
      | short =>
          simp only [if_true, shiftShort_shiftShort]
          split_ifs <;> rfl
      | long =>
          simp only [if_true, if_neg hne, shiftLong_shiftLong]
          split_ifs <;> rfl

theorem addPictureID_zero (h : WellFormed data) : addPictureID data 0 = data := by
  refine ext_peek (length_addPictureID data 0) fun j => ?_
  rw [peek_addPictureID h]
  cases hw : pictureIDWidth data with
  | none => rfl
  | some w =>
      have hbit := pictureIDWidth_bit hw
      cases w with
      | short =>
          dsimp only
          split_ifs with hj
          · rw [hj, shiftShort_zero (hbit.2 rfl)]
          · rfl
      | long =>
          have hlong : peek data (headerLength data + 2) &&& 0x80 ≠ 0 := fun h0 =>
            absurd (hbit.1 h0) (by decide)
          simp only [shiftLong_zero hlong]
          split_ifs with hj hj'
          · rw [hj]
          · rw [hj']
          · rfl

theorem payloadOffset_of_lt (h : headerLength data < data.length) :
    payloadOffset data = if LongEnough data then .ok (headerLength data) else .error .truncated := by
  have h12 := twelve_le_headerLength data
  rw [payloadOffset, byte_bind (by omega)]
  by_cases hext : peek data 0 &&& 0x10 = 0
  · have hlong : LongEnough data := .inl hext
    rw [if_pos hlong]
    simp only [headerLength, hext, if_true] at h ⊢
    rw [if_neg (by omega), if_neg (by simp)]
  · have hiff : LongEnough data ↔ ¬ data.length < headerLength data + 4 := by
      rw [LongEnough, Nat.not_lt]
      exact or_iff_right hext
    simp only [hiff, ite_not]
    simp only [headerLength, hext, if_false] at h ⊢
    rw [if_neg (by omega), byte_bind (by omega), byte_bind (by omega)]
    simp only [toNat_word]

theorem rewritePictureID_of_longEnough (h : WellFormed data) (hlong : LongEnough data)
    (delta : UInt16) :
    rewritePictureID data (headerLength data) delta = .ok (addPictureID data delta) := by
  have hlt := h.lt
  rw [rewritePictureID, byte_bind hlt]
  have hfits := h
  simp only [WellFormed, descriptorLength] at hfits
  by_cases hx : peek data (headerLength data) &&& 0x80 = 0
  · have hw : pictureIDWidth data = none := by
      simp only [pictureIDWidth]
      exact if_pos (.inr (.inl hx))
    rw [if_pos hx, addPictureID, hw]
  rw [if_neg hx] at hfits ⊢
  rw [if_neg (by omega), byte_bind (by omega)]
  by_cases hi : peek data (headerLength data + 1) &&& 0x80 = 0
  · have hw : pictureIDWidth data = none := by
      simp only [pictureIDWidth]
      exact if_pos (.inr (.inr hi))
    rw [if_pos hi, addPictureID, hw]
  rw [if_neg hi] at hfits ⊢
  have hsome : pictureIDWidth data =
      if peek data (headerLength data + 2) &&& 0x80 = 0 then some .short else some .long := by
    simp only [pictureIDWidth]
    exact if_neg fun hor => hor.elim (fun hno => hno hlong) fun hor => hor.elim hx hi
  by_cases hm : peek data (headerLength data + 2) &&& 0x80 = 0
  · rw [if_pos hm] at hfits hsome
    rw [if_neg (by omega), byte_bind (by omega), if_neg (not_not.2 hm), addPictureID, hsome]
    rfl
  · rw [if_neg hm] at hfits hsome
    rw [if_neg (by omega), byte_bind (by omega), if_pos hm, if_neg (by omega),
      byte_bind (by omega), addPictureID, hsome]
    rfl

theorem addPictureID_of_not_longEnough (h : ¬ LongEnough data) (delta : UInt16) :
    addPictureID data delta = data := by
  have hw : pictureIDWidth data = none := by
    simp only [pictureIDWidth]
    exact if_pos (.inl h)
  rw [addPictureID, hw]

/-- What rewriting does to a VP8 packet that is whole, with the only error that it has. -/
theorem rewriteInPlace_vp8 (h : WellFormed data) (setMarker : Bool) (seqno delta : UInt16) :
    rewriteInPlace .vp8 data setMarker seqno delta =
      (addPictureID (setHeader data setMarker seqno) delta,
        if delta = 0 ∨ LongEnough data then none else some .truncated) := by
  have h12 := twelve_le_headerLength data
  have hlt := h.lt
  have hlayout := setHeader_sameLayout h.four_le setMarker seqno
  have hset := hlayout.wellFormed h
  have hunfold : rewriteInPlace .vp8 data setMarker seqno delta =
      if delta = 0 then (setHeader data setMarker seqno, none)
      else match payloadOffset (setHeader data setMarker seqno) with
        | .error e => (setHeader data setMarker seqno, some e)
        | .ok offset =>
            match rewritePictureID (setHeader data setMarker seqno) offset delta with
            | .error e => (setHeader data setMarker seqno, some e)
            | .ok out => (out, none) := by
    rw [rewriteInPlace, if_neg (by omega)]
    rfl
  rw [hunfold]
  by_cases hdelta : delta = 0
  · rw [if_pos hdelta, if_pos (.inl hdelta), hdelta, addPictureID_zero hset]
  rw [if_neg hdelta, payloadOffset_of_lt hset.lt]
  by_cases hlong : LongEnough data
  · have hlong' := hlayout.longEnough_iff.2 hlong
    rw [if_pos hlong', if_pos (.inr hlong)]
    dsimp only
    rw [rewritePictureID_of_longEnough hset hlong']
  · have hlong' := fun h' => hlong (hlayout.longEnough_iff.1 h')
    rw [if_neg hlong', if_neg fun hor => hor.elim hdelta hlong,
      addPictureID_of_not_longEnough hlong']

/-- The bytes of the picture id. -/
def pictureIDBytes (data : Bytes) : List ℕ :=
  match pictureIDWidth data with
  | none => []
  | some .short => [headerLength data + 2]
  | some .long => [headerLength data + 2, headerLength data + 3]

theorem peek_addPictureID_of_not_mem (h : WellFormed data) (delta : UInt16) {j : ℕ}
    (hj : j ∉ pictureIDBytes data) : peek (addPictureID data delta) j = peek data j := by
  rw [peek_addPictureID h]
  rw [pictureIDBytes] at hj
  cases hw : pictureIDWidth data with
  | none => rfl
  | some w =>
      rw [hw] at hj
      cases w with
      | short =>
          refine if_neg ?_
          rintro rfl
          exact hj (List.mem_singleton_self _)
      | long =>
          refine (if_neg ?_).trans (if_neg ?_)
          · rintro rfl
            exact hj (List.mem_cons_of_mem _ (List.mem_singleton_self _))
          · rintro rfl
            exact hj (List.mem_cons_self ..)

/-- The packet is looked at byte by byte: only the bit of the marker, the number and the picture id
are not as they were, and of the picture id the bit of the width is. -/
structure Untouched (data out : Bytes) : Prop where
  length : out.length = data.length
  rest : ∀ j, j ≠ 1 → j ≠ 2 → j ≠ 3 → j ∉ pictureIDBytes data → peek out j = peek data j
  payloadType : peek out 1 &&& 0x7F = peek data 1 &&& 0x7F
  width : peek out (headerLength data + 2) &&& 0x80 = 0 ↔
    peek data (headerLength data + 2) &&& 0x80 = 0

theorem rewriteInPlace_untouched (h : WellFormed data) (setMarker : Bool) (seqno delta : UInt16) :
    Untouched data (rewriteInPlace .vp8 data setMarker seqno delta).1 := by
  have h4 := h.four_le
  have h12 := twelve_le_headerLength data
  have hlayout := setHeader_sameLayout h4 setMarker seqno
  have hset := hlayout.wellFormed h
  have hadd := addPictureID_sameLayout hset delta
  rw [rewriteInPlace_vp8 h]
  refine ⟨hadd.length.trans hlayout.length, fun j h1 h2 h3 hj => ?_, ?_, ?_⟩
  · have hj' : j ∉ pictureIDBytes (setHeader data setMarker seqno) := by
      rwa [pictureIDBytes, hlayout.pictureIDWidth_eq, hlayout.headerLength_eq]
    rw [peek_addPictureID_of_not_mem hset delta hj', peek_setHeader h4, if_neg h3, if_neg h2,
      if_neg fun hm => h1 hm.1]
  · rw [peek_addPictureID_low hset delta (by decide), peek_setHeader h4, if_neg (by decide),
      if_neg (by decide)]
    split_ifs
    · have hmask : ∀ b : BitVec 8, (b ||| 0x80#8) &&& 0x7F#8 = b &&& 0x7F#8 := by decide
      exact UInt8.toBitVec_inj.1 (hmask _)
    · rfl
  · have hwidth := hadd.width
    rw [hlayout.headerLength_eq] at hwidth
    exact hwidth.trans hlayout.width

theorem rewriteInPlace_rewriteInPlace (h : WellFormed data) (setMarker : Bool)
    (s₁ s₂ d₁ d₂ : UInt16) :
    (rewriteInPlace .vp8 (rewriteInPlace .vp8 data setMarker s₁ d₁).1 setMarker s₂ d₂).1 =
      (rewriteInPlace .vp8 data setMarker s₂ (d₁ + d₂)).1 := by
  have hlayout := setHeader_sameLayout h.four_le setMarker s₁
  have hset := hlayout.wellFormed h
  have hset₂ := (setHeader_sameLayout h.four_le setMarker s₂).wellFormed h
  have hadd := (addPictureID_sameLayout hset d₁).wellFormed hset
  rw [rewriteInPlace_vp8 h, rewriteInPlace_vp8 h, rewriteInPlace_vp8 hadd]
  dsimp only
  rw [setHeader_addPictureID hset, setHeader_setHeader h.four_le,
    addPictureID_addPictureID hset₂]

/-- Rewritten by nothing, with the number that it has, a packet is the same. -/
theorem rewriteInPlace_zero (h : WellFormed data) :
    rewriteInPlace .vp8 data false (seqnoOf data) 0 = (data, none) := by
  have h4 := h.four_le
  have hset := (setHeader_sameLayout h4 false (seqnoOf data)).wellFormed h
  have hword : (seqnoOf data >>> 8).toUInt8 = peek data 2 ∧ (seqnoOf data).toUInt8 = peek data 3 := by
    have hvalue := toNat_word (peek data 2) (peek data 3)
    have hhi := (peek data 2).toNat_lt
    have hlo := (peek data 3).toNat_lt
    rw [seqnoOf, ← UInt8.toNat_inj, ← UInt8.toNat_inj, UInt16.toNat_toUInt8, UInt16.toNat_toUInt8,
      UInt16.toNat_shiftRight, hvalue]
    simp only [UInt16.toNat_ofNat, show 8 % 2 ^ 16 % 16 = 8 from rfl, Nat.shiftRight_eq_div_pow]
    omega
  rw [rewriteInPlace_vp8 h, addPictureID_zero hset, if_pos (.inl rfl)]
  refine Prod.ext (ext_peek (length_setHeader _ _ _) fun j => ?_) rfl
  rw [peek_setHeader h4, hword.1, hword.2]
  split_ifs with h3 h2 h1
  · rw [h3]
  · rw [h2]
  · cases h1.2
  · rfl

/-- Of whole VP8 packets rewriting is an action of the picture ids: two deltas are one, zero is
none, and nothing else is touched. The number and the marker are written, and the delta is added
to the picture id, but for a packet with less than four bytes behind a header extension. -/
theorem rewriting_action (h : WellFormed data) :
    (∀ (setMarker : Bool) (s₁ s₂ d₁ d₂ : UInt16),
      (rewriteInPlace .vp8 (rewriteInPlace .vp8 data setMarker s₁ d₁).1 setMarker s₂ d₂).1 =
        (rewriteInPlace .vp8 data setMarker s₂ (d₁ + d₂)).1) ∧
    rewriteInPlace .vp8 data false (seqnoOf data) 0 = (data, none) ∧
    (∀ (setMarker : Bool) (seqno delta : UInt16),
      rewriteInPlace .vp8 data setMarker seqno delta =
        (addPictureID (setHeader data setMarker seqno) delta,
          if delta = 0 ∨ LongEnough data then none else some .truncated) ∧
      Untouched data (rewriteInPlace .vp8 data setMarker seqno delta).1 ∧
        ((rewriteInPlace .vp8 data setMarker seqno delta).2 = none ↔ delta = 0 ∨ LongEnough data)) := by
  refine ⟨rewriteInPlace_rewriteInPlace h, rewriteInPlace_zero h, fun setMarker seqno delta =>
    ⟨rewriteInPlace_vp8 h setMarker seqno delta,
      rewriteInPlace_untouched h setMarker seqno delta, ?_⟩⟩
  rw [rewriteInPlace_vp8 h]
  dsimp only
  split_ifs with hgood
  · exact iff_of_true rfl hgood
  · exact iff_of_false nofun hgood

/-- A packet with a source, an extension and a picture id of two bytes. -/
def packetWithAll : Bytes :=
  [0x91, 0x60, 0, 42, 0, 0, 0, 0, 0, 0, 0, 0, 1, 2, 3, 4, 0xbe, 0xde, 0, 1, 9, 9, 9, 9,
    0x90, 0x80, 0x80, 57, 1, 2]

theorem rewriting_action_all :
    (rewriteInPlace .vp8 (rewriteInPlace .vp8 packetWithAll true 43 200).1 true 44 300).1 =
      (rewriteInPlace .vp8 packetWithAll true 44 500).1 := by
  have h : WellFormed packetWithAll := by decide
  exact (rewriting_action h).1 true 43 44 200 300

end Action

end Sozvon.Codecs
