import Sozvon.Codecs

/-!
# Rewriting inside the packet

`RewritePacket` with every read and every write checked against the length of
the packet: an index past the end is the error `indexOutOfRange`, which in the
source is a panic. It computes what `rewritePacket` computes, and the one access
that no length check covers is to the length of a header extension.
-/
namespace Sozvon.Codecs

def setByte (data : Bytes) (i : ℕ) (b : UInt8) : Except Error Bytes :=
  if i < data.length then .ok (data.set i b) else .error .indexOutOfRange

/-- The part of `RewritePacket` that is for VP8. -/
def rewritePictureIDChecked (data : Bytes) (offset : ℕ) (delta : UInt16) : Except Error Bytes := do
  let x ← byte data offset
  if x &&& 0x80 = 0 then .ok data
  else if data.length ≤ offset + 1 then .error .truncated
  else do
    let i ← byte data (offset + 1)
    if i &&& 0x80 = 0 then .ok data
    else if data.length ≤ offset + 2 then .error .truncated
    else do
      let m ← byte data (offset + 2)
      if m &&& 0x80 ≠ 0 then
        if data.length ≤ offset + 3 then .error .truncated
        else do
          let l ← byte data (offset + 3)
          let pid := (m &&& 0x7F).toUInt16 <<< 8 ||| l.toUInt16
          let pid := (pid + delta) &&& 0x7FFF
          let data ← setByte data (offset + 2) ((0x80 : UInt8) ||| ((pid >>> 8) &&& 0x7F).toUInt8)
          setByte data (offset + 3) (pid &&& 0xFF).toUInt8
      else setByte data (offset + 2) ((m + delta.toUInt8) &&& 0x7F)

def setMarkerChecked (data : Bytes) (setMarker : Bool) : Except Error Bytes :=
  if setMarker then do
    let b ← byte data 1
    setByte data 1 (b ||| 0x80)
  else .ok data

def rewriteChecked (codec : Codec) (data : Bytes) (setMarker : Bool) (seqno delta : UInt16) :
    Except Error Bytes :=
  if data.length < 12 then .error .truncated
  else do
    let data ← setMarkerChecked data setMarker
    let data ← setByte data 2 (seqno >>> 8).toUInt8
    let data ← setByte data 3 seqno.toUInt8
    if delta = 0 then .ok data
    else do
      let offset ← payloadOffset data
      match codec with
      | .vp8 => rewritePictureIDChecked data offset delta
      | _ => .ok data

/-- Every index used is below the length of the packet. -/
def InBounds (codec : Codec) (data : Bytes) (setMarker : Bool) (seqno delta : UInt16) : Prop :=
  rewriteChecked codec data setMarker seqno delta ≠ .error .indexOutOfRange

/-- The packet ends inside the first word of its header extension, whose length
is read to find the picture id. -/
def CutExtension (data : Bytes) (delta : UInt16) : Prop :=
  delta ≠ 0 ∧ peek data 0 &&& 0x10 ≠ 0 ∧ 12 + (peek data 0 &&& 0x0F).toNat * 4 < data.length ∧
    data.length < 12 + (peek data 0 &&& 0x0F).toNat * 4 + 4

section Bounds

variable {data : Bytes} {offset : ℕ}

theorem setByte_eq {i : ℕ} (h : i < data.length) (b : UInt8) :
    setByte data i b = .ok (data.set i b) := if_pos h

theorem setByte_bind {i : ℕ} (h : i < data.length) (b : UInt8) (f : Bytes → Except Error Bytes) :
    (setByte data i b >>= f) = f (data.set i b) := by
  rw [setByte_eq h]
  rfl

theorem rewritePictureIDChecked_eq (data : Bytes) (offset : ℕ) (delta : UInt16) :
    rewritePictureIDChecked data offset delta = rewritePictureID data offset delta := by
  unfold rewritePictureIDChecked rewritePictureID
  refine bind_congr fun x => ite_congr rfl (fun _ => rfl) fun _ => ?_
  refine ite_congr rfl (fun _ => rfl) fun _ => bind_congr fun i => ?_
  refine ite_congr rfl (fun _ => rfl) fun _ => ?_
  refine ite_congr rfl (fun _ => rfl) fun hlong => bind_congr fun m => ?_
  refine ite_congr rfl (fun _ => ?_) fun _ => setByte_eq (by omega) _
  refine ite_congr rfl (fun _ => rfl) fun hlonger => bind_congr fun l => ?_
  have hsecond (b : UInt8) : offset + 3 < (data.set (offset + 2) b).length := by
    rw [List.length_set]
    omega
  rw [setByte_bind (by omega), setByte_eq (hsecond _)]

/-- The checks that `rewritePacket` leaves out would never fail. -/
theorem rewriteChecked_eq (codec : Codec) (data : Bytes) (setMarker : Bool)
    (seqno delta : UInt16) :
    rewriteChecked codec data setMarker seqno delta =
      rewritePacket codec data setMarker seqno delta := by
  unfold rewriteChecked rewritePacket
  refine ite_congr rfl (fun _ => rfl) fun hshort => ?_
  have hmarked : setMarkerChecked data setMarker =
      .ok (if setMarker then data.set 1 (peek data 1 ||| 0x80) else data) := by
    cases setMarker with
    | true => exact (byte_bind (by omega) _).trans (setByte_eq (by omega) _)
    | false => rfl
  rw [hmarked]
  generalize hmark : (if setMarker then data.set 1 (peek data 1 ||| 0x80) else data) = marked
  have hlength : marked.length = data.length := by
    rw [← hmark]
    split_ifs
    · exact List.length_set
    · rfl
  have hnext (b : UInt8) : 3 < (marked.set 2 b).length := by
    rw [List.length_set]
    omega
  change (setByte marked 2 _ >>= _) = _
  rw [setByte_bind (by omega), setByte_bind (hnext _)]
  refine ite_congr rfl (fun _ => rfl) fun _ => bind_congr fun offset => ?_
  cases codec with
  | vp8 => exact rewritePictureIDChecked_eq _ _ _
  | vp9 => rfl
  | other => rfl

/-- Past its first read the picture id is rewritten behind length checks. -/
theorem rewritePictureID_inBounds (h : offset < data.length) (delta : UInt16) :
    rewritePictureID data offset delta ≠ .error .indexOutOfRange := by
  unfold rewritePictureID
  rw [byte_bind h]
  by_cases hx : peek data offset &&& 0x80 = 0
  · rw [if_pos hx]
    nofun
  rw [if_neg hx]
  by_cases hshort : data.length ≤ offset + 1
  · rw [if_pos hshort]
    nofun
  rw [if_neg hshort, byte_bind (by omega)]
  by_cases hi : peek data (offset + 1) &&& 0x80 = 0
  · rw [if_pos hi]
    nofun
  rw [if_neg hi]
  by_cases hshort' : data.length ≤ offset + 2
  · rw [if_pos hshort']
    nofun
  rw [if_neg hshort', byte_bind (by omega)]
  by_cases hm : peek data (offset + 2) &&& 0x80 ≠ 0
  · rw [if_pos hm]
    by_cases hshort'' : data.length ≤ offset + 3
    · rw [if_pos hshort'']
      nofun
    · rw [if_neg hshort'', byte_bind (by omega)]
      nofun
  · rw [if_neg hm]
    nofun

/-- The payload begins inside the packet if the extension's length does. -/
theorem payloadOffset_inBounds (h : 12 ≤ data.length) (hcut : ¬ (peek data 0 &&& 0x10 ≠ 0 ∧
      12 + (peek data 0 &&& 0x0F).toNat * 4 < data.length ∧
        data.length < 12 + (peek data 0 &&& 0x0F).toNat * 4 + 4)) :
    payloadOffset data = .error .truncated ∨
      ∃ offset < data.length, payloadOffset data = .ok offset := by
  unfold payloadOffset
  rw [byte_bind (by omega)]
  dsimp only
  by_cases hshort : data.length ≤ 12 + (peek data 0 &&& 0x0F).toNat * 4
  · rw [if_pos hshort]
    exact Or.inl rfl
  rw [if_neg hshort]
  by_cases hext : peek data 0 &&& 0x10 ≠ 0
  · have hword : 12 + (peek data 0 &&& 0x0F).toNat * 4 + 4 ≤ data.length :=
      Nat.not_lt.mp fun hlt => hcut ⟨hext, Nat.not_le.mp hshort, hlt⟩
    rw [if_pos hext, byte_bind (by omega), byte_bind (by omega)]
    split_ifs with hlong
    · exact Or.inl rfl
    · exact Or.inr ⟨_, by omega, rfl⟩
  · rw [if_neg hext]
    exact Or.inr ⟨_, Nat.not_le.mp hshort, rfl⟩

theorem payloadOffset_cut {base : ℕ} (hbase : 12 + (peek data 0 &&& 0x0F).toNat * 4 = base)
    (hext : peek data 0 &&& 0x10 ≠ 0) (hlong : base < data.length)
    (hcut : data.length < base + 4) : payloadOffset data = .error .indexOutOfRange := by
  unfold payloadOffset
  rw [byte_bind (by omega)]
  dsimp only
  rw [hbase, if_neg (by omega), if_pos hext]
  by_cases htwo : base + 2 < data.length
  · have hnone : data[base + 3]? = none := List.getElem?_eq_none (by omega)
    rw [byte_bind htwo, byte, hnone]
    rfl
  · have hnone : data[base + 2]? = none := List.getElem?_eq_none (by omega)
    rw [byte, hnone]
    rfl

/-- The header's layout is not changed by the marker and the number. -/
theorem peek_zero_set (data : Bytes) {i : ℕ} (hi : 1 ≤ i) (b : UInt8) :
    peek (data.set i b) 0 = peek data 0 := by
  rw [peek_set, if_neg (by omega)]

/-- `RewritePacket` stays inside the packet unless this ends in the first word
of its header extension and the picture id is to be changed. -/
theorem inBounds_iff (codec : Codec) (data : Bytes) (setMarker : Bool) (seqno delta : UInt16) :
    InBounds codec data setMarker seqno delta ↔ ¬ CutExtension data delta := by
  unfold InBounds CutExtension
  rw [rewriteChecked_eq]
  unfold rewritePacket
  dsimp only
  by_cases hshort : data.length < 12
  · rw [if_pos hshort]
    exact ⟨fun _ h => by omega, fun _ => nofun⟩
  rw [if_neg hshort]
  generalize hmark : (if setMarker then data.set 1 (peek data 1 ||| 0x80) else data) = marked
  have hmarked : marked.length = data.length ∧ peek marked 0 = peek data 0 := by
    rw [← hmark]
    split_ifs
    · exact ⟨List.length_set, peek_zero_set data (Nat.le_refl 1) _⟩
    · exact ⟨rfl, rfl⟩
  generalize hnumber : (marked.set 2 (seqno >>> 8).toUInt8).set 3 seqno.toUInt8 = out
  have hlength : out.length = data.length := by
    rw [← hnumber, List.length_set, List.length_set, hmarked.1]
  have hzero : peek out 0 = peek data 0 := by
    rw [← hnumber, peek_zero_set _ (by omega), peek_zero_set _ (by omega), hmarked.2]
  rw [← hlength, ← hzero]
  by_cases hdelta : delta = 0
  · rw [if_pos hdelta]
    exact ⟨fun _ h => h.1 hdelta, fun _ => nofun⟩
  rw [if_neg hdelta]
  constructor
  · rintro h ⟨-, hext, hlong, hcut⟩
    rw [payloadOffset_cut rfl hext hlong hcut] at h
    exact h rfl
  · intro h
    rcases payloadOffset_inBounds (by omega) (fun hcut => h ⟨hdelta, hcut⟩) with
      heq | ⟨offset, hoffset, heq⟩
    · rw [heq]
      nofun
    · rw [heq]
      cases codec with
      | vp8 => exact rewritePictureID_inBounds hoffset delta
      | vp9 => nofun
      | other => nofun

/-- Thirteen bytes with the extension bit set. -/
theorem not_inBounds : ¬ ∀ codec data setMarker seqno delta,
    InBounds codec data setMarker seqno delta := by
  intro h
  exact h .vp8 [0x90, 96, 0, 1, 0, 0, 0, 0, 0, 0, 0, 1, 0xbe] false 2 1 (by decide +kernel)

end Bounds

end Sozvon.Codecs
