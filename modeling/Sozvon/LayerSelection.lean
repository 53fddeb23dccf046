import Sozvon.DownTrack
import Sozvon.Runs

/-!
# Layer selection

The layers of a down track over runs of `Write`, steps of `adjustLayer` and
changes of the limit by `replaceTracks`. `Write` first notes a layer it has not
seen before, which may adjust the wanted ones, and then switches towards these.
The limits hold in every run. A packet lowers the current temporal layer under
a wanted one that is not below it in one case, where the layer of the packet is
taken without a look at the current one.
-/
namespace Sozvon.LayerSelection
open DownTrack Codecs Runs

inductive Call where
  | write (max rate : UInt64) (flags : Flags)
  | adjustLayer (max rate : UInt64)
  | replaceTracks (limitSid : Bool)
deriving DecidableEq, Repr

/-- The end of `replaceTracks`, for one of the tracks. -/
def replaceTracks (limitSid : Bool) (layer : LayerInfo) : LayerInfo :=
  setLayerInfo { layer with limitSid, wantedSid := if limitSid then 0 else layer.wantedSid }

/-- A call of `Write` with the layers it was made on. -/
structure Written where
  max : UInt64
  rate : UInt64
  flags : Flags
  layer : LayerInfo
deriving DecidableEq, Repr

structure Selection where
  layer : LayerInfo := {}
  written : List Written := []
deriving DecidableEq, Repr

def step (s : Selection) : Call → Option Selection
  | .write max rate flags =>
      some ⟨selectLayer max rate flags s.layer, s.written ++ [⟨max, rate, flags, s.layer⟩]⟩
  | .adjustLayer max rate => some { s with layer := adjustLayer max rate s.layer }
  | .replaceTracks limitSid => some { s with layer := replaceTracks limitSid s.layer }

def system : System Selection Call := { init := (· = {}), step }

/-- Packets of layers below 8. -/
def Small (_ : Selection) : Call → Prop
  | .write _ _ flags => flags.sid < 8 ∧ flags.tid < 8
  | _ => True

instance (s : Selection) : ∀ a, Decidable (Small s a)
  | .write _ _ flags => inferInstanceAs (Decidable (flags.sid < 8 ∧ flags.tid < 8))
  | .adjustLayer _ _ | .replaceTracks _ => inferInstanceAs (Decidable True)

/-- The temporal layer of a packet, followed at once if it is a new one. -/
def noteTid (flags : Flags) (layer : LayerInfo) : LayerInfo :=
  if layer.maxTid < flags.tid then
    let eager := if layer.tid = layer.maxTid then
        { layer with wantedTid := flags.tid, tid := flags.tid } else layer
    { eager with maxTid := flags.tid }
  else layer

def noteSid (flags : Flags) (layer : LayerInfo) : LayerInfo :=
  if layer.maxSid < flags.sid then
    let eager := if layer.sid = layer.maxSid ∧ ¬ layer.limitSid then
        { layer with wantedSid := flags.sid, sid := flags.sid } else layer
    { eager with maxSid := flags.sid }
  else layer

/-- The part of `Write` that looks at a layer for the first time. -/
def noteLayer (max rate : UInt64) (flags : Flags) (layer : LayerInfo) : LayerInfo :=
  if layer.maxTid < flags.tid ∨ layer.maxSid < flags.sid then
    adjustLayer max rate (setLayerInfo (noteSid flags (noteTid flags layer)))
  else layer

def switchTid (flags : Flags) (layer : LayerInfo) : LayerInfo :=
  if flags.start ∧ layer.tid ≠ layer.wantedTid then
    if flags.keyframe ∨ layer.wantedTid < layer.tid then { layer with tid := layer.wantedTid }
    else if flags.tidUpSync ∧ flags.tid ≤ layer.wantedTid then { layer with tid := flags.tid }
    else layer
  else layer

def switchSid (flags : Flags) (layer : LayerInfo) : LayerInfo :=
  if flags.start ∧ layer.sid ≠ layer.wantedSid ∧ flags.keyframe then
    { layer with sid := layer.wantedSid }
  else layer

theorem selectLayer_eq (max rate : UInt64) (flags : Flags) (layer : LayerInfo) :
    selectLayer max rate flags layer =
      switchSid flags (switchTid flags (noteLayer max rate flags layer)) := rfl

/-- No layer above the ones seen, and none but the lowest wanted under a limit. -/
structure Within (layer : LayerInfo) : Prop where
  sid : layer.sid ≤ layer.maxSid
  wantedSid : layer.wantedSid ≤ layer.maxSid
  tid : layer.tid ≤ layer.maxTid
  wantedTid : layer.wantedTid ≤ layer.maxTid
  limited : layer.limitSid = true → layer.wantedSid = 0

/-- `m` is the highest of these layers, and 0 if there are none. -/
def IsMax (m : UInt8) (layers : List UInt8) : Prop :=
  (∀ l ∈ layers, l ≤ m) ∧ (m = 0 ∨ m ∈ layers)

structure Bounded (s : Selection) : Prop where
  within : Within s.layer
  maxSid : IsMax s.layer.maxSid (s.written.map fun w => w.flags.sid)
  maxTid : IsMax s.layer.maxTid (s.written.map fun w => w.flags.tid)

def Written.noted (w : Written) : LayerInfo := noteLayer w.max w.rate w.flags w.layer

def Written.selected (w : Written) : LayerInfo := selectLayer w.max w.rate w.flags w.layer

/-- The wanted temporal layer is not below the current one, neither before a
packet nor when its layer has been noted. -/
def Written.Steady (w : Written) : Prop :=
  w.layer.tid ≤ w.layer.wantedTid ∧ w.noted.tid ≤ w.noted.wantedTid

instance (w : Written) : Decidable w.Steady :=
  inferInstanceAs (Decidable (_ ∧ _))

def Written.KeepsTid (w : Written) : Prop := w.Steady → w.layer.tid ≤ w.selected.tid

/-- While a higher temporal layer is wanted, a frame of a lower one than the
current one begins, not with a keyframe, that says one may switch up at it. -/
def Written.SyncBelow (w : Written) : Prop :=
  w.layer.tid ≤ w.layer.wantedTid ∧ w.noted.tid < w.noted.wantedTid ∧ w.flags.start = true ∧
    w.flags.keyframe = false ∧ w.flags.tidUpSync = true ∧ w.flags.tid < w.layer.tid

section Bytes

theorem and_0xF {b : UInt8} (h : b < 8) : b &&& 0xF = b := by
  have hlt := UInt8.lt_iff_toNat_lt.mp h
  have height : (8 : UInt8).toNat = 8 := rfl
  rw [← UInt8.toNat_inj, UInt8.toNat_and]
  refine (Nat.and_two_pow_sub_one_eq_mod b.toNat 4).trans (Nat.mod_eq_of_lt ?_)
  omega

theorem add_one_le {a b : UInt8} (h : a < b) : a + 1 ≤ b := by
  have hlt := UInt8.lt_iff_toNat_lt.mp h
  have hsize := b.toNat_lt
  rw [UInt8.le_iff_toNat_le, UInt8.toNat_add, UInt8.toNat_one]
  omega

theorem sub_one_le {a : UInt8} (h : 0 < a) : a - 1 ≤ a := by
  have hlt := UInt8.lt_iff_toNat_lt.mp h
  rw [UInt8.toNat_zero] at hlt
  have hone : (1 : UInt8) ≤ a := by
    rw [UInt8.le_iff_toNat_le, UInt8.toNat_one]
    omega
  rw [UInt8.le_iff_toNat_le, UInt8.toNat_sub_of_le a 1 hone]
  omega

end Bytes

section Layers

variable {layer : LayerInfo} {max rate : UInt64} {flags : Flags}

/-- What the packed word can hold. -/
structure Fits (layer : LayerInfo) : Prop where
  within : Within layer
  maxSid : layer.maxSid < 8
  maxTid : layer.maxTid < 8

/-- The four bits are enough for the layers. -/
theorem Fits.setLayerInfo (h : Fits layer) : setLayerInfo layer = layer := by
  obtain ⟨⟨hsid, hwantedSid, htid, hwantedTid, -⟩, hmaxSid, hmaxTid⟩ := h
  unfold DownTrack.setLayerInfo
  rw [and_0xF hmaxSid, and_0xF hmaxTid, and_0xF (UInt8.lt_of_le_of_lt hsid hmaxSid),
    and_0xF (UInt8.lt_of_le_of_lt hwantedSid hmaxSid),
    and_0xF (UInt8.lt_of_le_of_lt htid hmaxTid),
    and_0xF (UInt8.lt_of_le_of_lt hwantedTid hmaxTid)]

theorem Fits.want_sid (h : Fits layer) {sid : UInt8} (hsid : sid ≤ layer.maxSid)
    (hlimit : layer.limitSid = true → sid = 0) : Fits { layer with wantedSid := sid } :=
  ⟨⟨h.within.sid, hsid, h.within.tid, h.within.wantedTid, hlimit⟩, h.maxSid, h.maxTid⟩

theorem Fits.want_tid (h : Fits layer) {tid : UInt8} (htid : tid ≤ layer.maxTid) :
    Fits { layer with wantedTid := tid } :=
  ⟨⟨h.within.sid, h.within.wantedSid, h.within.tid, htid, h.within.limited⟩, h.maxSid, h.maxTid⟩

theorem Fits.switch_tid (h : Fits layer) {tid : UInt8} (htid : tid ≤ layer.maxTid) :
    Fits { layer with tid } :=
  ⟨⟨h.within.sid, h.within.wantedSid, htid, h.within.wantedTid, h.within.limited⟩,
    h.maxSid, h.maxTid⟩

theorem Fits.switch_sid (h : Fits layer) {sid : UInt8} (hsid : sid ≤ layer.maxSid) :
    Fits { layer with sid } :=
  ⟨⟨hsid, h.within.wantedSid, h.within.tid, h.within.wantedTid, h.within.limited⟩,
    h.maxSid, h.maxTid⟩

theorem Fits.adjustLayer (h : Fits layer) (max rate : UInt64) :
    Fits (adjustLayer max rate layer) := by
  unfold DownTrack.adjustLayer
  split_ifs with hup hlimit hsid htid hdown htid hsid
  · have hf := h.want_sid (UInt8.zero_le) fun _ => rfl
    rw [hf.setLayerInfo]
    exact hf
  · have hf := h.want_sid (add_one_le hsid.2) fun hl => absurd hl hsid.1
    rw [hf.setLayerInfo]
    exact hf
  · have hf := h.want_tid (add_one_le htid)
    rw [hf.setLayerInfo]
    exact hf
  · exact h
  · have hf := h.want_tid (UInt8.le_trans (sub_one_le htid) h.within.tid)
    rw [hf.setLayerInfo]
    exact hf
  · have hf := h.want_sid UInt8.zero_le fun _ => rfl
    rw [hf.setLayerInfo]
    exact hf
  · have hf := h.want_sid (UInt8.le_trans (sub_one_le hsid) h.within.sid)
      fun hl => absurd hl ‹_›
    rw [hf.setLayerInfo]
    exact hf
  · exact h
  · exact h

/-- Only the wanted layers are adjusted. -/
theorem Fits.adjustLayer_kept (h : Fits layer) (max rate : UInt64) :
    (DownTrack.adjustLayer max rate layer).tid = layer.tid ∧
      (DownTrack.adjustLayer max rate layer).maxTid = layer.maxTid ∧
      (DownTrack.adjustLayer max rate layer).maxSid = layer.maxSid := by
  obtain ⟨⟨-, -, htid, -, -⟩, hmaxSid, hmaxTid⟩ := h
  have h₁ := and_0xF (UInt8.lt_of_le_of_lt htid hmaxTid)
  have h₂ := and_0xF hmaxTid
  have h₃ := and_0xF hmaxSid
  unfold DownTrack.adjustLayer
  split_ifs
  all_goals first
    | exact ⟨h₁, h₂, h₃⟩
    | exact ⟨rfl, rfl, rfl⟩

theorem Fits.noteTid (h : Fits layer) (htid : flags.tid < 8) : Fits (noteTid flags layer) := by
  unfold LayerSelection.noteTid
  split_ifs with hnew heager
  · exact ⟨⟨h.within.sid, h.within.wantedSid, UInt8.le_refl _, UInt8.le_refl _, h.within.limited⟩,
      h.maxSid, htid⟩
  · have hle := UInt8.le_of_lt hnew
    exact ⟨⟨h.within.sid, h.within.wantedSid, UInt8.le_trans h.within.tid hle,
      UInt8.le_trans h.within.wantedTid hle, h.within.limited⟩, h.maxSid, htid⟩
  · exact h

theorem Fits.noteSid (h : Fits layer) (hsid : flags.sid < 8) : Fits (noteSid flags layer) := by
  unfold LayerSelection.noteSid
  split_ifs with hnew heager
  · exact ⟨⟨UInt8.le_refl _, UInt8.le_refl _, h.within.tid, h.within.wantedTid,
      fun hl => absurd hl heager.2⟩, hsid, h.maxTid⟩
  · have hle := UInt8.le_of_lt hnew
    exact ⟨⟨UInt8.le_trans h.within.sid hle, UInt8.le_trans h.within.wantedSid hle, h.within.tid,
      h.within.wantedTid, h.within.limited⟩, hsid, h.maxTid⟩
  · exact h

theorem noteTid_maxTid : (noteTid flags layer).maxTid =
    if layer.maxTid < flags.tid then flags.tid else layer.maxTid := by
  unfold noteTid
  split_ifs <;> rfl

theorem noteTid_maxSid : (noteTid flags layer).maxSid = layer.maxSid := by
  unfold noteTid
  split_ifs <;> rfl

theorem noteSid_maxSid : (noteSid flags layer).maxSid =
    if layer.maxSid < flags.sid then flags.sid else layer.maxSid := by
  unfold noteSid
  split_ifs <;> rfl

theorem noteSid_tid : (noteSid flags layer).tid = layer.tid ∧
    (noteSid flags layer).maxTid = layer.maxTid := by
  unfold noteSid
  split_ifs <;> exact ⟨rfl, rfl⟩

/-- The current temporal layer is left alone, or raised to the highest. -/
theorem noteTid_tid (h : Fits layer) : (noteTid flags layer).tid = layer.tid ∨
    (noteTid flags layer).tid = (noteTid flags layer).maxTid ∧
      layer.tid ≤ (noteTid flags layer).maxTid := by
  unfold noteTid
  split_ifs with hnew
  · exact .inr ⟨rfl, UInt8.le_trans h.within.tid (UInt8.le_of_lt hnew)⟩
  · exact .inl rfl
  · exact .inl rfl

theorem Fits.noteLayer (h : Fits layer) (max rate : UInt64) (hsid : flags.sid < 8)
    (htid : flags.tid < 8) : Fits (noteLayer max rate flags layer) := by
  unfold LayerSelection.noteLayer
  split_ifs
  · have hf := (h.noteTid htid).noteSid hsid
    rw [hf.setLayerInfo]
    exact hf.adjustLayer max rate
  · exact h

/-- Adjusting leaves alone what noting a layer does to the current temporal
layer and to the highest ones. -/
theorem Fits.noteLayer_kept (h : Fits layer) (max rate : UInt64) (hsid : flags.sid < 8)
    (htid : flags.tid < 8) :
    (LayerSelection.noteLayer max rate flags layer).tid = (LayerSelection.noteTid flags layer).tid ∧
      (LayerSelection.noteLayer max rate flags layer).maxTid =
        (if layer.maxTid < flags.tid then flags.tid else layer.maxTid) ∧
      (LayerSelection.noteLayer max rate flags layer).maxSid =
        (if layer.maxSid < flags.sid then flags.sid else layer.maxSid) := by
  by_cases hnew : layer.maxTid < flags.tid ∨ layer.maxSid < flags.sid
  · have hf := (h.noteTid htid).noteSid hsid
    obtain ⟨htid', hmaxTid, hmaxSid⟩ := hf.adjustLayer_kept max rate
    rw [LayerSelection.noteLayer, if_pos hnew, hf.setLayerInfo, htid', hmaxTid, hmaxSid,
      noteSid_tid.1, noteSid_tid.2, noteTid_maxTid, noteSid_maxSid, noteTid_maxSid]
    exact ⟨rfl, rfl, rfl⟩
  · obtain ⟨ht, hs⟩ := not_or.mp hnew
    rw [LayerSelection.noteLayer, LayerSelection.noteTid, if_neg hnew, if_neg ht, if_neg ht,
      if_neg hs]
    exact ⟨rfl, rfl, rfl⟩

theorem Fits.switchTid (h : Fits layer) : Fits (switchTid flags layer) := by
  unfold LayerSelection.switchTid
  split_ifs with hstart hdown hsync
  · exact h.switch_tid h.within.wantedTid
  · exact h.switch_tid (UInt8.le_trans hsync.2 h.within.wantedTid)
  · exact h
  · exact h

theorem Fits.switchSid (h : Fits layer) : Fits (switchSid flags layer) := by
  unfold LayerSelection.switchSid
  split_ifs
  · exact h.switch_sid h.within.wantedSid
  · exact h

/-- Switching moves the current layers only. -/
theorem switch_max (flags : Flags) (layer : LayerInfo) :
    (switchSid flags (switchTid flags layer)).maxSid = layer.maxSid ∧
    (switchSid flags (switchTid flags layer)).maxTid = layer.maxTid := by
  unfold switchSid switchTid
  split_ifs <;> exact ⟨rfl, rfl⟩

theorem switchSid_tid : (switchSid flags layer).tid = layer.tid := by
  unfold switchSid
  split_ifs <;> rfl

theorem Fits.replaceTracks (h : Fits layer) (limitSid : Bool) :
    Fits (replaceTracks limitSid layer) := by
  have hf : Fits { layer with limitSid, wantedSid := if limitSid then 0 else layer.wantedSid } := by
    refine ⟨⟨h.within.sid, ?_, h.within.tid, h.within.wantedTid, fun hl => if_pos hl⟩,
      h.maxSid, h.maxTid⟩
    cases limitSid with
    | true => exact UInt8.zero_le
    | false => exact h.within.wantedSid
  rw [LayerSelection.replaceTracks, hf.setLayerInfo]
  exact hf

theorem Fits.replaceTracks_max (h : Fits layer) (limitSid : Bool) :
    (LayerSelection.replaceTracks limitSid layer).maxSid = layer.maxSid ∧
      (LayerSelection.replaceTracks limitSid layer).maxTid = layer.maxTid :=
  ⟨and_0xF h.maxSid, and_0xF h.maxTid⟩

/-- Noting a layer never lowers the current temporal one, and raises it only to
the highest. -/
theorem Fits.noteLayer_tid (h : Fits layer) (max rate : UInt64) (hsid : flags.sid < 8)
    (htid : flags.tid < 8) :
    layer.tid ≤ (LayerSelection.noteLayer max rate flags layer).tid ∧
      ((LayerSelection.noteLayer max rate flags layer).tid = layer.tid ∨
        (LayerSelection.noteLayer max rate flags layer).wantedTid ≤
          (LayerSelection.noteLayer max rate flags layer).tid) := by
  obtain ⟨hkept, hmaxTid, -⟩ := h.noteLayer_kept max rate hsid htid
  have hwanted := (h.noteLayer max rate hsid htid).within.wantedTid
  rw [hmaxTid, ← noteTid_maxTid] at hwanted
  rw [hkept]
  rcases noteTid_tid h with heq | ⟨heq, hle⟩
  · rw [heq]
    exact ⟨UInt8.le_refl _, .inl rfl⟩
  · rw [heq]
    exact ⟨hle, .inr hwanted⟩

/-- A packet lowers the current temporal layer under a wanted one that is not
below it at a sync point of a lower layer, and there alone. -/
theorem keepsTid_iff {w : Written} (h : Fits w.layer) (hsid : w.flags.sid < 8)
    (htid : w.flags.tid < 8) : w.KeepsTid ↔ ¬ w.SyncBelow := by
  obtain ⟨hle, hraised⟩ := h.noteLayer_tid w.max w.rate hsid htid
  have hselected : w.selected.tid = (switchTid w.flags w.noted).tid := switchSid_tid
  constructor
  · rintro hkeeps ⟨hbefore, hwanted, hstart, hkeyframe, hsync, hbelow⟩
    have hsame : w.noted.tid = w.layer.tid :=
      hraised.resolve_right (UInt8.not_le.mpr hwanted)
    have hflags : w.flags.tid ≤ w.noted.wantedTid :=
      UInt8.le_of_lt (UInt8.lt_trans (hsame ▸ hbelow) hwanted)
    have htid : w.selected.tid = w.flags.tid := by
      rw [hselected, switchTid, if_pos ⟨hstart, UInt8.ne_of_lt hwanted⟩,
        if_neg (by simpa [hkeyframe] using UInt8.le_of_lt hwanted), if_pos ⟨hsync, hflags⟩]
    have hkept := hkeeps ⟨hbefore, UInt8.le_of_lt hwanted⟩
    rw [htid] at hkept
    exact UInt8.not_le.mpr hbelow hkept
  · rintro hsync ⟨hbefore, hnoted⟩
    rw [hselected, switchTid]
    split_ifs with hstart hdown hup
    · exact UInt8.le_trans hle hnoted
    · rw [← UInt8.not_lt]
      intro hbelow
      have hkeyframe : w.flags.keyframe = false := by simpa using fun hk => hdown (.inl hk)
      exact hsync ⟨hbefore, UInt8.lt_of_le_of_ne hnoted hstart.2, hstart.1, hkeyframe, hup.1,
        hbelow⟩
    · exact hle
    · exact hle

end Layers

section Runs

theorem IsMax.nil : IsMax 0 [] := ⟨by simp, .inl rfl⟩

theorem IsMax.snoc {m : UInt8} {layers : List UInt8} (h : IsMax m layers) (l : UInt8) :
    IsMax (if m < l then l else m) (layers ++ [l]) := by
  obtain ⟨hle, hmem⟩ := h
  split_ifs with hlt
  · refine ⟨fun k hk => ?_, .inr (by simp)⟩
    rcases List.mem_append.mp hk with hk | hk
    · exact UInt8.le_trans (hle k hk) (UInt8.le_of_lt hlt)
    · rw [List.mem_singleton.mp hk]
      exact UInt8.le_refl _
  · refine ⟨fun k hk => ?_, hmem.imp_right (List.mem_append_left _)⟩
    rcases List.mem_append.mp hk with hk | hk
    · exact hle k hk
    · rw [List.mem_singleton.mp hk]
      exact UInt8.not_lt.mp hlt

/-- The invariant of a run of packets below layer 8. -/
structure Sound (s : Selection) : Prop where
  fits : Fits s.layer
  maxSid : IsMax s.layer.maxSid (s.written.map fun w => w.flags.sid)
  maxTid : IsMax s.layer.maxTid (s.written.map fun w => w.flags.tid)
  written : ∀ w ∈ s.written, w.KeepsTid ↔ ¬ w.SyncBelow

theorem Sound.write {s : Selection} (h : Sound s) (max rate : UInt64) {flags : Flags}
    (hsid : flags.sid < 8) (htid : flags.tid < 8) :
    Sound ⟨selectLayer max rate flags s.layer, s.written ++ [⟨max, rate, flags, s.layer⟩]⟩ := by
  obtain ⟨-, hmaxTid, hmaxSid⟩ := h.fits.noteLayer_kept max rate hsid htid
  have hmax := switch_max flags (noteLayer max rate flags s.layer)
  constructor
  case fits =>
    rw [selectLayer_eq]
    exact (h.fits.noteLayer max rate hsid htid).switchTid.switchSid
  case maxSid =>
    rw [selectLayer_eq, hmax.1, hmaxSid, List.map_append]
    exact h.maxSid.snoc flags.sid
  case maxTid =>
    rw [selectLayer_eq, hmax.2, hmaxTid, List.map_append]
    exact h.maxTid.snoc flags.tid
  case written =>
    intro w hw
    rcases List.mem_append.mp hw with hw | hw
    · exact h.written w hw
    · rw [List.mem_singleton.mp hw]
      exact keepsTid_iff h.fits hsid htid

theorem sound_of_reachable {s : Selection} (h : Reachable system Small s) : Sound s := by
  refine h.invariant ?_ ?_
  · rintro s rfl
    exact ⟨⟨⟨by decide, by decide, by decide, by decide, by decide⟩, by decide, by decide⟩,
      .nil, .nil, by simp⟩
  · intro s call t hs hsmall hstep
    cases call with
    | write max rate flags =>
        obtain rfl := Option.some.inj hstep
        exact hs.write max rate hsmall.1 hsmall.2
    | adjustLayer max rate =>
        obtain rfl := Option.some.inj hstep
        obtain ⟨-, hmaxTid, hmaxSid⟩ := hs.fits.adjustLayer_kept max rate
        exact ⟨hs.fits.adjustLayer max rate, hmaxSid ▸ hs.maxSid, hmaxTid ▸ hs.maxTid, hs.written⟩
    | replaceTracks limitSid =>
        obtain rfl := Option.some.inj hstep
        have hmax := hs.fits.replaceTracks_max limitSid
        exact ⟨hs.fits.replaceTracks limitSid, hmax.1 ▸ hs.maxSid, hmax.2 ▸ hs.maxTid, hs.written⟩

/-- The layers stay within those seen and the limit in every run, and no packet
lowers the current temporal layer unless one is a sync point of a lower one. -/
theorem layers_of_reachable {s : Selection} (h : Reachable system Small s) :
    Bounded s ∧ ((∀ w ∈ s.written, w.KeepsTid) ↔ ∀ w ∈ s.written, ¬ w.SyncBelow) := by
  have hs := sound_of_reachable h
  exact ⟨⟨hs.fits.within, hs.maxSid, hs.maxTid⟩, forall₂_congr hs.written⟩

/-- Layer 2 is followed at once, left for want of rate, and wanted again when a
frame of layer 0 begins that one may switch up at. -/
def sampleCalls : List Call :=
  [.write 1000 1000 { seqno := 1, tid := 2 }, .adjustLayer 1000 2000,
    .write 1000 1000 { seqno := 2, start := true }, .adjustLayer 1000 500,
    .write 1000 1000 { seqno := 3, start := true, tidUpSync := true }]

theorem layers_sample : ∃ s, Reachable system Small s ∧
    s.layer = { wantedTid := 2, maxTid := 2 } ∧ Bounded s ∧
      ((∀ w ∈ s.written, w.KeepsTid) ↔ ∀ w ∈ s.written, ¬ w.SyncBelow) := by
  obtain ⟨s, hs, hlayer⟩ : ∃ s ∈ system.exec Small {} sampleCalls,
      s.layer = { wantedTid := 2, maxTid := 2 } := by decide +kernel
  have hreach : Reachable system Small s := .exec (.init rfl) hs
  exact ⟨s, hreach, hlayer, layers_of_reachable hreach⟩

theorem not_keepsTid : ¬ ∀ s, Reachable system Small s →
    Bounded s ∧ ∀ w ∈ s.written, w.KeepsTid := by
  intro h
  obtain ⟨s, hs, w, hw, hsteady, hlt⟩ : ∃ s ∈ system.exec Small {} sampleCalls,
      ∃ w ∈ s.written, w.Steady ∧ w.selected.tid < w.layer.tid := by decide +kernel
  exact UInt8.not_le.mpr hlt ((h s (.exec (.init rfl) hs)).2 w hw hsteady)

end Runs

end Sozvon.LayerSelection
