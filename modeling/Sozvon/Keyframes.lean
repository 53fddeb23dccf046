import Sozvon.Codecs

/-!
# Detection of keyframes

`Keyframe` looks into the payload of a packet. A payload comes from the network, so
that its lengths may say anything; an index or a slice past its end is the error
`indexOutOfRange`.
-/
namespace Sozvon.Codecs

section Definitions

/-- The codecs that `Keyframe` tells apart. -/
inductive Format where
  | vp8
  | vp9
  | av1
  | h264
  | other
deriving DecidableEq, Repr

/-- Whether it is a keyframe, and whether that is known. -/
abbrev Answer := Bool × Bool

/-- `data[low:high]` -/
def slice (data : Bytes) (low high : ℕ) : Except Error Bytes :=
  if low ≤ high ∧ high ≤ data.length then .ok ((data.take high).drop low)
  else .error .indexOutOfRange

/-- The loop of `getObu`, which leaves it with the end of the length field and the length, or
returns from `getObu` with an offset and whether the unit is truncated. -/
def obuLength (data : Bytes) (offset length : ℕ) : Except Error ((ℕ × ℕ) ⊕ (ℕ × Bool)) :=
  if data.length ≤ offset then .ok (.inr (offset, decide (0 < offset)))
  else if h : 4 ≤ offset then .ok (.inr (offset, true))
  else do
    let l ← byte data offset
    let length := length ||| (l &&& 0x7f).toNat <<< (offset * 7)
    if l &&& 0x80 = 0 then .ok (.inl (offset + 1, length))
    else obuLength data (offset + 1) length
termination_by 4 - offset

def getObu (data : Bytes) (last : Bool) : Except Error (Bytes × ℕ × Bool) :=
  if last then .ok (data, data.length, false)
  else do
    match ← obuLength data 0 0 with
    | .inr (offset, truncated) => .ok ([], offset, truncated)
    | .inl (offset, length) =>
        if data.length < offset + length then do
          let obu ← slice data offset data.length
          .ok (obu, data.length, true)
        else do
          let obu ← slice data offset (offset + length)
          .ok (obu, offset + length, false)

/-- What the unit with the number `i` says, if it says anything. -/
def answerObu (i : ℕ) (obu : Bytes) : Except Error (Option Answer) :=
  if obu.length < 1 then .ok (some (false, false))
  else do
    let b₀ ← byte obu 0
    let tpe := (b₀ &&& 0x38) >>> 3
    if i = 0 then
      -- a sequence header
      if tpe ≠ 1 then .ok (some (false, true)) else .ok none
    else if tpe = 3 ∨ tpe = 6 then
      -- a frame header or a frame
      if obu.length < 2 then .ok (some (false, false))
      else do
        let b₁ ← byte obu 1
        if b₁ &&& 0x80 ≠ 0 then .ok (some (false, true))
        else .ok (some (decide (b₁ &&& 0x60 = 0), true))
    else .ok none

/-- The loop over the units of a packet that says that it has `w` of them. -/
def obuLoop (payload : Bytes) (w offset i : ℕ) : Except Error Answer := do
  let data ← slice payload offset payload.length
  let (obu, length, truncated) ← getObu data (decide (w = i + 1))
  match ← answerObu i obu with
  | some answer => .ok answer
  | none =>
      if h : truncated = true ∨ w ≤ i then .ok (false, false)
      else obuLoop payload w (offset + length) (i + 1)
termination_by w - i
decreasing_by omega

def keyframeAV1 (payload : Bytes) : Except Error Answer :=
  if payload.length < 2 then .ok (false, true)
  else do
    let b₀ ← byte payload 0
    if b₀ &&& 0x88 ≠ 0x08 then .ok (false, true)
    else obuLoop payload ((b₀ &&& 0x30) >>> 4).toNat 1 0

/-- The loop over the units of an aggregate of type `nalu`. -/
def naluLoop (payload : Bytes) (nalu : UInt8) (i : ℕ) : Except Error Answer :=
  if h : i < payload.length then
    if i + 2 > payload.length then .ok (false, false)
    else do
      let hi ← byte payload i
      let lo ← byte payload (i + 1)
      let length := (hi.toUInt16 <<< 8 ||| lo.toUInt16).toNat
      if i + 2 + length > payload.length then .ok (false, false)
      else
        let offset := if nalu = 26 then 3 else if nalu = 27 then 4 else 0
        if offset ≥ length then .ok (false, false)
        else do
          let b ← byte payload (i + 2 + offset)
          let n := b &&& 0x1F
          if n = 7 then .ok (true, true)
          else if 24 ≤ n then .ok (false, false)
          else naluLoop payload nalu (i + 2 + length)
  else if i = payload.length then .ok (false, true)
  else .ok (false, false)
termination_by payload.length - i

def keyframeH264 (payload : Bytes) : Except Error Answer :=
  if payload.length < 1 then .ok (false, false)
  else do
    let b₀ ← byte payload 0
    let nalu := b₀ &&& 0x1F
    if nalu = 0 then .ok (false, false)
    else if nalu ≤ 23 then .ok (decide (nalu = 7), true)
    else if nalu = 24 ∨ nalu = 25 ∨ nalu = 26 ∨ nalu = 27 then
      naluLoop payload nalu (if nalu = 25 ∨ nalu = 26 ∨ nalu = 27 then 3 else 1)
    else if nalu = 28 ∨ nalu = 29 then
      if payload.length < 2 then .ok (false, false)
      else do
        let b₁ ← byte payload 1
        if b₁ &&& 0x80 = 0 then .ok (false, true) else .ok (decide (b₁ &&& 0x1F = 7), true)
    else .ok (false, false)

def keyframe (lib : Pion) (format : Format) (payload : Bytes) : Except Error Answer :=
  match format with
  | .vp8 =>
      match lib.unmarshalVP8 payload with
      | none => .ok (false, false)
      | some vp8 =>
          if vp8.payload.length < 1 then .ok (false, false)
          else do
            let b₀ ← byte vp8.payload 0
            if vp8.s ≠ 0 ∧ vp8.pid = 0 ∧ b₀ &&& 0x1 = 0 then .ok (true, true) else .ok (false, true)
  | .vp9 =>
      match lib.unmarshalVP9 payload with
      | none => .ok (false, false)
      | some vp9 =>
          if vp9.payload.length < 1 then .ok (false, false)
          else if ¬ vp9.b then .ok (false, true)
          else do
            let b₀ ← byte vp9.payload 0
            if b₀ &&& 0xc0 ≠ 0x80 then .ok (false, false)
            else
              let profile := (b₀ >>> 4) &&& 0x3
              if profile ≠ 3 then .ok (decide (b₀ &&& 0xC = 0), true)
              else .ok (decide (b₀ &&& 0x6 = 0), true)
  | .av1 => keyframeAV1 payload
  | .h264 => keyframeH264 payload
  | .other => .ok (false, false)

end Definitions

section Totality

/-- No index was out of range, and no other error is there. -/
def Ok {α : Type} (x : Except Error α) : Prop := ∃ a, x = .ok a

theorem Ok.value {α : Type} (a : α) : Ok (.ok a : Except Error α) := ⟨a, rfl⟩

theorem Ok.ite {α : Type} {c : Prop} [Decidable c] {x y : Except Error α} (hx : c → Ok x)
    (hy : ¬ c → Ok y) : Ok (if c then x else y) := by
  split_ifs with h
  · exact hx h
  · exact hy h

theorem Ok.dite {α : Type} {c : Prop} [Decidable c] {x : c → Except Error α}
    {y : ¬ c → Except Error α} (hx : ∀ h, Ok (x h)) (hy : ∀ h, Ok (y h)) : Ok (dite c x y) := by
  by_cases h : c
  · rw [dif_pos h]
    exact hx h
  · rw [dif_neg h]
    exact hy h

theorem Ok.byte {α : Type} {data : Bytes} {i : ℕ} (h : i < data.length)
    {f : UInt8 → Except Error α} (hf : ∀ b, Ok (f b)) : Ok (byte data i >>= f) := by
  rw [byte_bind h]
  exact hf _

theorem slice_bind {α : Type} {data : Bytes} {low high : ℕ} (h : low ≤ high)
    (h' : high ≤ data.length) (f : Bytes → Except Error α) :
    (slice data low high >>= f) = f ((data.take high).drop low) := by
  rw [slice, if_pos ⟨h, h'⟩]
  rfl

/-- The length field is inside the data. -/
theorem obuLength_ok {data : Bytes} {offset : ℕ} (h : offset ≤ data.length) (length : ℕ) :
    (∃ o l, obuLength data offset length = .ok (.inl (o, l)) ∧ o ≤ data.length) ∨
      ∃ o t, obuLength data offset length = .ok (.inr (o, t)) ∧ o ≤ data.length := by
  induction hn : 4 - offset using Nat.strong_induction_on generalizing offset length with
  | _ n ih =>
      rw [obuLength]
      by_cases hend : data.length ≤ offset
      · rw [if_pos hend]
        exact .inr ⟨_, _, rfl, h⟩
      by_cases hmax : 4 ≤ offset
      · rw [if_neg hend, dif_pos hmax]
        exact .inr ⟨_, _, rfl, h⟩
      rw [if_neg hend, dif_neg hmax, byte_bind (by omega)]
      by_cases hlast : peek data offset &&& 0x80 = 0
      · exact .inl ⟨_, _, if_pos hlast, by omega⟩
      · simp only [if_neg hlast]
        exact ih (4 - (offset + 1)) (by omega) (by omega) _ rfl

theorem getObu_ok (data : Bytes) (last : Bool) :
    ∃ obu length truncated, getObu data last = .ok (obu, length, truncated) ∧
      length ≤ data.length := by
  rw [getObu]
  split_ifs
  · exact ⟨_, _, _, rfl, Nat.le_refl _⟩
  · rcases obuLength_ok (Nat.zero_le data.length) 0 with ⟨o, l, heq, hle⟩ | ⟨o, t, heq, hle⟩
    · simp only [heq, bind, Except.bind]
      by_cases hshort : data.length < o + l
      · rw [if_pos hshort, slice, if_pos ⟨hle, Nat.le_refl _⟩]
        exact ⟨_, _, _, rfl, Nat.le_refl _⟩
      · rw [if_neg hshort, slice, if_pos ⟨Nat.le_add_right _ _, Nat.not_lt.1 hshort⟩]
        exact ⟨_, _, _, rfl, Nat.not_lt.1 hshort⟩
    · rw [heq]
      exact ⟨_, _, _, rfl, hle⟩

theorem answerObu_ok (i : ℕ) (obu : Bytes) : Ok (answerObu i obu) := by
  refine Ok.ite (fun _ => Ok.value _) fun hne => Ok.byte (by omega) fun b₀ => ?_
  refine Ok.ite (fun _ => Ok.ite (fun _ => Ok.value _) fun _ => Ok.value _) fun _ => ?_
  refine Ok.ite (fun _ => Ok.ite (fun _ => Ok.value _) fun htwo => ?_) fun _ => Ok.value _
  exact Ok.byte (by omega) fun b₁ => Ok.ite (fun _ => Ok.value _) fun _ => Ok.value _

/-- The units are taken one after the other, and none of them ends past the payload. -/
theorem obuLoop_ok (payload : Bytes) (w : ℕ) {offset i : ℕ} (h : offset ≤ payload.length) :
    Ok (obuLoop payload w offset i) := by
  induction hn : w - i using Nat.strong_induction_on generalizing offset i with
  | _ n ih =>
      obtain ⟨obu, length, truncated, hobu, hle⟩ :=
        getObu_ok ((payload.take payload.length).drop offset) (decide (w = i + 1))
      obtain ⟨answer, hanswer⟩ := answerObu_ok i obu
      rw [List.length_drop, List.take_length] at hle
      rw [obuLoop, slice_bind h (Nat.le_refl _)]
      simp only [bind, Except.bind, hobu, hanswer]
      cases answer with
      | some answer => exact Ok.value answer
      | none => exact Ok.dite (fun _ => Ok.value _) fun _ => ih _ (by omega) (by omega) rfl

theorem keyframeAV1_ok (payload : Bytes) : Ok (keyframeAV1 payload) :=
  Ok.ite (fun _ => Ok.value _) fun htwo => Ok.byte (by omega) fun _ =>
    Ok.ite (fun _ => Ok.value _) fun _ => obuLoop_ok payload _ (by omega)

theorem naluLoop_ok (payload : Bytes) (nalu : UInt8) (i : ℕ) : Ok (naluLoop payload nalu i) := by
  induction hn : payload.length - i using Nat.strong_induction_on generalizing i with
  | _ n ih =>
      rw [naluLoop]
      refine Ok.dite (fun hi => ?_) fun _ => Ok.ite (fun _ => Ok.value _) fun _ => Ok.value _
      refine Ok.ite (fun _ => Ok.value _) fun htwo => Ok.byte hi fun hi' => Ok.byte (by omega) fun lo => ?_
      refine Ok.ite (fun _ => Ok.value _) fun hfits => Ok.ite (fun _ => Ok.value _) fun hoffset => ?_
      refine Ok.byte (by omega) fun b => Ok.ite (fun _ => Ok.value _) fun _ => ?_
      exact Ok.ite (fun _ => Ok.value _) fun _ => ih _ (by omega) _ rfl

theorem keyframeH264_ok (payload : Bytes) : Ok (keyframeH264 payload) := by
  refine Ok.ite (fun _ => Ok.value _) fun hne => Ok.byte (by omega) fun b₀ => ?_
  refine Ok.ite (fun _ => Ok.value _) fun _ => Ok.ite (fun _ => Ok.value _) fun _ => ?_
  refine Ok.ite (fun _ => naluLoop_ok _ _ _) fun _ => Ok.ite (fun _ => ?_) fun _ => Ok.value _
  refine Ok.ite (fun _ => Ok.value _) fun htwo => Ok.byte (by omega) fun b₁ => ?_
  exact Ok.ite (fun _ => Ok.value _) fun _ => Ok.value _

/-- Whatever the payload, there is an answer. -/
theorem keyframe_ok (lib : Pion) (format : Format) (payload : Bytes) :
    Ok (keyframe lib format payload) := by
  cases format with
  | vp8 =>
      rw [keyframe]
      cases lib.unmarshalVP8 payload with
      | none => exact Ok.value _
      | some vp8 =>
          exact Ok.ite (fun _ => Ok.value _) fun hne => Ok.byte (by omega) fun _ =>
            Ok.ite (fun _ => Ok.value _) fun _ => Ok.value _
  | vp9 =>
      rw [keyframe]
      cases lib.unmarshalVP9 payload with
      | none => exact Ok.value _
      | some vp9 =>
          refine Ok.ite (fun _ => Ok.value _) fun hne => Ok.ite (fun _ => Ok.value _) fun _ => ?_
          refine Ok.byte (by omega) fun _ => Ok.ite (fun _ => Ok.value _) fun _ => ?_
          exact Ok.ite (fun _ => Ok.value _) fun _ => Ok.value _
  | av1 => exact keyframeAV1_ok payload
  | h264 => exact keyframeH264_ok payload
  | other => exact Ok.value _

end Totality

section Aggregates

def unitType (unit : Bytes) : UInt8 := peek unit 0 &&& 0x1F

/-- A unit that an aggregate may hold. -/
structure IsUnit (unit : Bytes) : Prop where
  nonempty : 0 < unit.length
  short : unit.length < 65536
  single : unitType unit < 24

/-- A unit behind its length. -/
def encodeUnit (unit : Bytes) : Bytes :=
  UInt8.ofNat (unit.length / 256) :: UInt8.ofNat (unit.length % 256) :: unit

/-- The payload of an aggregate. -/
def stapA (header : UInt8) (units : List Bytes) : Bytes := header :: units.flatMap encodeUnit

theorem length_encodeUnit (unit : Bytes) : (encodeUnit unit).length = unit.length + 2 := rfl

theorem peek_append_right (front rest : Bytes) (k : ℕ) :
    peek (front ++ rest) (front.length + k) = peek rest k := by
  rw [peek, peek, List.getD_eq_getElem?_getD, List.getD_eq_getElem?_getD,
    List.getElem?_append_right (Nat.le_add_right _ _), Nat.add_sub_cancel_left]

/-- The length before a unit is read back. -/
theorem length_field {unit : Bytes} (h : unit.length < 65536) :
    ((UInt8.ofNat (unit.length / 256)).toUInt16 <<< 8 |||
      (UInt8.ofNat (unit.length % 256)).toUInt16).toNat = unit.length := by
  have hhi : (UInt8.ofNat (unit.length / 256)).toNat = unit.length / 256 :=
    UInt8.toNat_ofNat_of_lt' (by change unit.length / 256 < 256; omega)
  have hlo : (UInt8.ofNat (unit.length % 256)).toNat = unit.length % 256 :=
    UInt8.toNat_ofNat_of_lt' (by change unit.length % 256 < 256; omega)
  rw [toNat_word, hhi, hlo]
  omega

/-- What the loop does at the length of a unit, whatever comes after it. -/
theorem naluLoop_unit {unit : Bytes} (h : IsUnit unit) (front more : Bytes) :
    naluLoop (front ++ UInt8.ofNat (unit.length / 256) :: UInt8.ofNat (unit.length % 256) :: more)
        24 front.length =
      if more.length < unit.length then .ok (false, false)
      else if unitType more = 7 then .ok (true, true)
      else if 24 ≤ unitType more then .ok (false, false)
      else naluLoop
        (front ++ UInt8.ofNat (unit.length / 256) :: UInt8.ofNat (unit.length % 256) :: more) 24
        (front.length + 2 + unit.length) := by
  have hpos := h.nonempty
  have hfield := length_field h.short
  obtain ⟨payload, hpayload⟩ : ∃ payload, payload =
      front ++ UInt8.ofNat (unit.length / 256) :: UInt8.ofNat (unit.length % 256) :: more := ⟨_, rfl⟩
  have hlength : payload.length = front.length + 2 + more.length := by
    rw [hpayload, List.length_append, List.length_cons, List.length_cons]
    omega
  have hhi : peek payload front.length = UInt8.ofNat (unit.length / 256) := by
    rw [hpayload]
    exact peek_append_right front _ 0
  have hlo : peek payload (front.length + 1) = UInt8.ofNat (unit.length % 256) := by
    rw [hpayload]
    exact peek_append_right front _ 1
  have hfirst : peek payload (front.length + 2) = peek more 0 := by
    rw [hpayload]
    exact peek_append_right front _ 2
  rw [← hpayload, naluLoop, dif_pos (by omega), if_neg (by omega), byte_bind (by omega),
    byte_bind (by omega), hhi, hlo]
  simp only [hfield]
  by_cases hshort : more.length < unit.length
  · rw [if_pos (by omega), if_pos hshort]
  · have hoffset : (if (24 : UInt8) = 26 then 3 else if (24 : UInt8) = 27 then 4 else 0) = 0 := rfl
    rw [if_neg (by omega), if_neg hshort, hoffset, if_neg (by omega), Nat.add_zero,
      byte_bind (by omega), hfirst]
    rfl

/-- A whole unit is passed, or is a sequence parameter set. -/
theorem naluLoop_encodeUnit {unit : Bytes} (h : IsUnit unit) (front rest : Bytes) :
    naluLoop (front ++ (encodeUnit unit ++ rest)) 24 front.length =
      if unitType unit = 7 then .ok (true, true)
      else naluLoop ((front ++ encodeUnit unit) ++ rest) 24 (front ++ encodeUnit unit).length := by
  have hstep := naluLoop_unit h front (unit ++ rest)
  have htype : unitType (unit ++ rest) = unitType unit := by
    obtain ⟨b, tail, rfl⟩ := List.exists_cons_of_length_pos h.nonempty
    rfl
  have hsingle := h.single
  have hbig : ¬ 24 ≤ unitType unit := by
    rw [UInt8.le_iff_toNat_le, Nat.not_le, ← UInt8.lt_iff_toNat_lt]
    exact hsingle
  rw [if_neg (by rw [List.length_append]; omega), htype, if_neg hbig] at hstep
  rw [List.append_assoc, List.length_append, length_encodeUnit]
  exact hstep.trans (by rw [Nat.add_right_comm, Nat.add_assoc]; rfl)

theorem naluLoop_end (front : Bytes) : naluLoop front 24 front.length = .ok (false, true) := by
  rw [naluLoop, dif_neg (Nat.lt_irrefl _), if_pos rfl]

/-- Over whole units the loop finds a sequence parameter set if there is one. -/
theorem naluLoop_units {units : List Bytes} (h : ∀ unit ∈ units, IsUnit unit) (front : Bytes) :
    naluLoop (front ++ units.flatMap encodeUnit) 24 front.length =
      .ok (units.any fun unit => unitType unit = 7, true) := by
  induction units generalizing front with
  | nil =>
      rw [List.flatMap_nil, List.append_nil, naluLoop_end]
      rfl
  | cons unit units ih =>
      rw [List.flatMap_cons, naluLoop_encodeUnit (h unit (List.mem_cons_self ..)), List.any_cons,
        ih fun u hu => h u (List.mem_cons_of_mem _ hu)]
      split_ifs with htype
      · simp [htype]
      · simp [htype]

/-- Over units that are cut short it says no only where the cut is between two of them. -/
theorem naluLoop_cut {units : List Bytes} (h : ∀ unit ∈ units, IsUnit unit) (front : Bytes) {k : ℕ}
    (hno : naluLoop (front ++ (units.flatMap encodeUnit).take k) 24 front.length = .ok (false, true)) :
    ∃ j ≤ units.length,
      (units.flatMap encodeUnit).take k = (units.take j).flatMap encodeUnit := by
  induction units generalizing front k with
  | nil => exact ⟨0, Nat.le_refl _, by rw [List.flatMap_nil, List.take_nil]; rfl⟩
  | cons unit units ih =>
      have hunit := h unit (List.mem_cons_self ..)
      rw [List.flatMap_cons] at hno ⊢
      rcases Nat.lt_or_ge k (encodeUnit unit).length with hcut | hwhole
      · match k with
        | 0 => exact ⟨0, Nat.zero_le _, rfl⟩
        | 1 =>
            -- half of a length
            exfalso
            have hlength : (front ++ (encodeUnit unit ++ units.flatMap encodeUnit).take 1).length =
                front.length + 1 := by
              rw [List.length_append]
              rfl
            rw [naluLoop, dif_pos (by omega), if_pos (by omega)] at hno
            cases hno
        | j + 2 =>
            exfalso
            have hshort : (unit.take j).length < unit.length := by
              rw [length_encodeUnit] at hcut
              rw [List.length_take]
              omega
            rw [List.take_append_of_le_length hcut.le] at hno
            have hstep := naluLoop_unit hunit front (unit.take j)
            rw [if_pos hshort] at hstep
            cases hstep.symm.trans hno
      · obtain ⟨m, rfl⟩ : ∃ m, k = (encodeUnit unit).length + m :=
          ⟨k - (encodeUnit unit).length, by omega⟩
        rw [List.take_length_add_append] at hno ⊢
        rw [naluLoop_encodeUnit hunit] at hno
        split_ifs at hno with htype
        · cases hno
        obtain ⟨j, hj, heq⟩ := ih (fun u hu => h u (List.mem_cons_of_mem _ hu)) _ hno
        refine ⟨j + 1, Nat.succ_le_succ hj, ?_⟩
        rw [heq, List.take_succ_cons, List.flatMap_cons]

theorem keyframeH264_stapA {header : UInt8} (h : header &&& 0x1F = 24) (rest : Bytes) :
    keyframeH264 (header :: rest) = naluLoop ([header] ++ rest) 24 [header].length := by
  have hfirst : peek (header :: rest) 0 = header := rfl
  rw [keyframeH264, if_neg (by rw [List.length_cons]; omega),
    byte_bind (by rw [List.length_cons]; omega), hfirst]
  simp only [h]
  rfl

/-- There is an answer to every payload. Of an aggregate of whole units it is a definite one, and
yes if there is a sequence parameter set among them; of a part of an aggregate it is a definite no
only where the part ends before or behind a unit. -/
theorem keyframe_exact (lib : Pion) :
    (∀ (format : Format) (payload : Bytes), ∃ answer, keyframe lib format payload = .ok answer) ∧
    ∀ (header : UInt8) (units : List Bytes), header &&& 0x1F = 24 → (∀ unit ∈ units, IsUnit unit) →
      keyframe lib .h264 (stapA header units) =
        .ok (units.any fun unit => unitType unit = 7, true) ∧
      ∀ k, keyframe lib .h264 ((stapA header units).take k) = .ok (false, true) →
        ∃ j ≤ units.length, (stapA header units).take k = stapA header (units.take j) := by
  refine ⟨keyframe_ok lib, fun header units hheader hunits => ⟨?_, fun k hno => ?_⟩⟩
  · exact (keyframeH264_stapA hheader _).trans (naluLoop_units hunits [header])
  · cases k with
    | zero => cases hno
    | succ k =>
        have hloop : naluLoop ([header] ++ (units.flatMap encodeUnit).take k) 24 [header].length =
            .ok (false, true) := (keyframeH264_stapA hheader _).symm.trans hno
        obtain ⟨j, hj, heq⟩ := naluLoop_cut hunits [header] hloop
        exact ⟨j, hj, congrArg (header :: ·) heq⟩

/-- An access unit delimiter and a sequence parameter set, and what is left of them. -/
theorem keyframe_exact_pair :
    keyframe descriptorReader .h264 (stapA 0x78 [[0x09, 0xf0], [0x67, 1, 2]]) = .ok (true, true) ∧
      ∃ j ≤ 2, (stapA 0x78 [[0x09, 0xf0], [0x67, 1, 2]]).take 5 =
        stapA 0x78 ([[0x09, 0xf0], [0x67, 1, 2]].take j) := by
  obtain ⟨hwhole, hcut⟩ := (keyframe_exact descriptorReader).2 0x78 [[0x09, 0xf0], [0x67, 1, 2]]
    (by decide) (by
      intro unit hunit
      rcases List.mem_cons.1 hunit with rfl | hunit
      · exact ⟨by decide, by decide, by decide⟩
      · rw [List.mem_singleton.1 hunit]
        exact ⟨by decide, by decide, by decide⟩)
  refine ⟨hwhole, hcut 5 ?_⟩
  exact (keyframe_exact descriptorReader).2 0x78 [[0x09, 0xf0]] (by decide)
    (by
      intro unit hunit
      rw [List.mem_singleton.1 hunit]
      exact ⟨by decide, by decide, by decide⟩) |>.1

end Aggregates

end Sozvon.Codecs
