import Sozvon.ReplayLogs
import Mathlib.Data.UInt

/-!
# What is kept for replay

Of the messages sent a log holds the longest end that fits. It gives out what comes
after a number, or nothing where a part of that is gone.
-/
namespace Sozvon.Resume

section Windows

variable {M : Type} (size : M → ℕ)

/-- As many as may be kept, and as many bytes, unless it is a single message. -/
def Fits (msgs : List M) : Prop :=
  msgs.length ≤ MAX_MESSAGES ∧ ((msgs.map size).sum ≤ MAX_BYTES ∨ msgs.length ≤ 1)

/-- The longest end of `sent` that fits. -/
structure IsWindow (sent msgs : List M) : Prop where
  suffix : msgs <:+ sent
  fits : Fits size msgs
  longest : ∀ more, more <:+ sent → Fits size more → more.length ≤ msgs.length

/-- The message with this number was sent, and is no longer kept. -/
def Evicted (sent msgs : List M) (number : ℕ) : Prop :=
  1 ≤ number ∧ number ≤ sent.length - msgs.length

instance (sent msgs : List M) (number : ℕ) : Decidable (Evicted sent msgs number) :=
  inferInstanceAs (Decidable (_ ∧ _))

/-- What is to be given out after the first `n` of the messages sent. -/
def Following (sent msgs : List M) (n : ℕ) : Option (List M) :=
  if sent.length < n ∨ Evicted sent msgs (n + 1) then none else some (sent.drop n)

/-- `replayRing.after` on machine words. -/
def ReplayRing.afterWord (ring : ReplayRing M) (n : UInt64) : Option (List M) :=
  let next := UInt64.ofNat ring.next
  let first := next - UInt64.ofNat ring.msgs.length
  if n + 1 < first ∨ next ≤ n then none else some (ring.msgs.drop (n + 1 - first).toNat)

/-- The client's log of these messages. -/
def sentLog (sent : List M) : SentLog M := sent.foldl (SentLog.push size) {}

/-- The server's. -/
def replayRing (sent : List M) : ReplayRing M := sent.foldl (ReplayRing.push size) {}

variable {size} {sent msgs : List M}

theorem Fits.tail {m : M} (h : Fits size (msgs ++ [m])) : Fits size msgs := by
  obtain ⟨hlength, hbytes⟩ := h
  rw [List.length_append, List.length_singleton] at hlength hbytes
  rw [List.map_append, List.sum_append] at hbytes
  exact ⟨by omega, by omega⟩

/-- The loop drops just what does not fit. -/
theorem shift_isWindow (msgs : List M) :
    IsWindow size msgs (shift size msgs (msgs.map size).sum).1 := by
  induction msgs with
  | nil =>
      refine ⟨List.suffix_refl _, ⟨Nat.zero_le _, .inr (Nat.zero_le _)⟩, fun more hmore _ => ?_⟩
      rw [List.suffix_nil.1 hmore]
      exact Nat.le_refl _
  | cons m msgs ih =>
      rw [shift]
      have hbytes : (List.map size (m :: msgs)).sum = size m + (msgs.map size).sum := by
        rw [List.map_cons, List.sum_cons]
      split_ifs with hover
      · -- the whole does not fit, and what does is an end of the rest
        rw [hbytes, Nat.add_sub_cancel_left]
        refine ⟨ih.suffix.trans (List.suffix_cons m msgs), ih.fits, fun more hmore hfits => ?_⟩
        rcases List.suffix_cons_iff.1 hmore with rfl | hrest
        · obtain ⟨hlength, hsum⟩ := hfits
          rw [List.length_cons] at hlength hsum
          omega
        · exact ih.longest more hrest hfits
      · refine ⟨List.suffix_refl _, ⟨?_, ?_⟩, fun more hmore _ => hmore.length_le⟩
        · change msgs.length + 1 ≤ MAX_MESSAGES
          omega
        · change (List.map size (m :: msgs)).sum ≤ MAX_BYTES ∨ msgs.length + 1 ≤ 1
          omega

/-- What fits with the next message fitted before it, and so was kept. -/
theorem IsWindow.push (h : IsWindow size sent msgs) (m : M) {bytes : ℕ}
    (hbytes : bytes = (msgs.map size).sum) :
    IsWindow size (sent ++ [m]) (shift size (msgs ++ [m]) (bytes + size m)).1 := by
  have hsum : bytes + size m = ((msgs ++ [m]).map size).sum := by
    rw [hbytes, List.map_append, List.sum_append, List.map_singleton, List.sum_singleton]
  have hloop : IsWindow size (msgs ++ [m]) _ := shift_isWindow (msgs ++ [m])
  rw [← hsum] at hloop
  have hall : msgs ++ [m] <:+ sent ++ [m] := by
    obtain ⟨before, hbefore⟩ := h.suffix
    exact ⟨before, by rw [← hbefore, List.append_assoc]⟩
  refine ⟨hloop.suffix.trans hall, hloop.fits, fun more hmore hfits => ?_⟩
  refine hloop.longest more ?_ hfits
  rcases List.eq_nil_or_concat more with rfl | ⟨before, last, rfl⟩
  · exact List.nil_suffix
  · obtain ⟨front, hfront⟩ := hmore
    rw [List.concat_eq_append, ← List.append_assoc] at hfront
    obtain ⟨hbefore, hlast⟩ := List.append_inj' hfront rfl
    have hsuffix : before <:+ sent := ⟨front, hbefore⟩
    have hkept := h.longest before hsuffix (Fits.tail (by rwa [List.concat_eq_append] at hfits))
    obtain ⟨rest, hrest⟩ := List.suffix_of_suffix_length_le hsuffix h.suffix hkept
    refine ⟨rest, ?_⟩
    rw [List.concat_eq_append, ← List.append_assoc, hrest, hlast]

theorem sentLog_concat (sent : List M) (m : M) :
    sentLog size (sent ++ [m]) = (sentLog size sent).push size m := by
  rw [sentLog, List.foldl_append]
  rfl

theorem replayRing_concat (sent : List M) (m : M) :
    replayRing size (sent ++ [m]) = (replayRing size sent).push size m := by
  rw [replayRing, List.foldl_append]
  rfl

theorem sentLog_keeps (sent : List M) : (sentLog size sent).Keeps size sent := by
  induction sent using List.reverseRecOn with
  | nil => exact .empty
  | append_singleton sent m ih =>
      rw [sentLog_concat]
      exact ih.push m

theorem replayRing_keeps (sent : List M) : (replayRing size sent).Keeps size sent := by
  induction sent using List.reverseRecOn with
  | nil => exact .empty
  | append_singleton sent m ih =>
      rw [replayRing_concat]
      exact ih.push m

theorem isWindow_nil : IsWindow size ([] : List M) [] :=
  shift_isWindow []

theorem sentLog_isWindow (sent : List M) : IsWindow size sent (sentLog size sent).msgs := by
  induction sent using List.reverseRecOn with
  | nil => exact isWindow_nil
  | append_singleton sent m ih =>
      rw [sentLog_concat]
      exact ih.push m (sentLog_keeps sent).kept.bytes

theorem replayRing_isWindow (sent : List M) :
    IsWindow size sent (replayRing size sent).msgs := by
  induction sent using List.reverseRecOn with
  | nil => exact isWindow_nil
  | append_singleton sent m ih =>
      rw [replayRing_concat]
      exact ih.push m (replayRing_keeps sent).kept.bytes

theorem SentLog.Keeps.after_eq {log : SentLog M} (h : log.Keeps size sent) (n : ℕ) :
    log.after n = Following sent log.msgs n := by
  have hlength := h.kept.suffix.length_le
  cases hafter : log.after n with
  | some rest =>
      obtain ⟨hle, rfl⟩ := h.after hafter
      rw [SentLog.after, h.count] at hafter
      split_ifs at hafter with hrefused
      rw [Following, if_neg (by rw [Evicted]; omega)]
  | none =>
      rw [SentLog.after, h.count] at hafter
      split_ifs at hafter with hrefused
      rw [Following, if_pos (by rw [Evicted]; omega)]

theorem ReplayRing.Keeps.after_eq {ring : ReplayRing M} (h : ring.Keeps size sent) (n : ℕ) :
    ring.after n = Following sent ring.msgs n := by
  have hlength := h.kept.suffix.length_le
  cases hafter : ring.after n with
  | some rest =>
      obtain ⟨hle, rfl⟩ := h.after hafter
      rw [ReplayRing.after, h.next] at hafter
      split_ifs at hafter with hrefused
      rw [Following, if_neg (by rw [Evicted]; omega)]
  | none =>
      rw [ReplayRing.after, h.next] at hafter
      split_ifs at hafter with hrefused
      rw [Following, if_pos (by rw [Evicted]; omega)]

/-- Where the next number is a word, a sum that wraps around is refused like the number it stands
for. -/
theorem ReplayRing.Keeps.afterWord_eq {ring : ReplayRing M} (h : ring.Keeps size sent)
    (hword : sent.length + 1 < 2 ^ 64) (n : UInt64) : ring.afterWord n = ring.after n.toNat := by
  have hlength := h.kept.suffix.length_le
  have hnext : (UInt64.ofNat ring.next).toNat = ring.next :=
    UInt64.toNat_ofNat_of_lt' (by rw [h.next]; exact hword)
  have hmsgs : (UInt64.ofNat ring.msgs.length).toNat = ring.msgs.length :=
    UInt64.toNat_ofNat_of_lt' (by change ring.msgs.length < 2 ^ 64; omega)
  have hfirst : (UInt64.ofNat ring.next - UInt64.ofNat ring.msgs.length).toNat =
      ring.next - ring.msgs.length := by
    rw [UInt64.toNat_sub_of_le _ _ (by rw [UInt64.le_iff_toNat_le, hnext, hmsgs, h.next]; omega),
      hnext, hmsgs]
  have hn := n.toNat_lt
  have hsucc : (n + 1).toNat = (n.toNat + 1) % 2 ^ 64 := UInt64.toNat_add n 1
  rw [h.next] at hnext hfirst
  simp only [ReplayRing.afterWord, ReplayRing.after, h.next, UInt64.lt_iff_toNat_lt,
    UInt64.le_iff_toNat_le, hnext, hfirst]
  rcases Nat.lt_or_ge (n.toNat + 1) (2 ^ 64) with hsmall | hbig
  · rw [Nat.mod_eq_of_lt hsmall] at hsucc
    rw [hsucc]
    split_ifs with hrefused
    · rfl
    · rw [UInt64.toNat_sub_of_le _ _ (by rw [UInt64.le_iff_toNat_le, hfirst, hsucc]; omega),
        hsucc, hfirst]
  · rw [if_pos (by omega), if_pos (by omega)]

/-- Whatever has been sent, each end keeps the longest end of it that fits, and gives out after any
number just what followed it, or refuses where the number is too large or the next message gone. -/
theorem windows_exact (size : M → ℕ) (sent : List M) :
    (IsWindow size sent (sentLog size sent).msgs ∧
      ∀ n, (sentLog size sent).after n = Following sent (sentLog size sent).msgs n) ∧
    (IsWindow size sent (replayRing size sent).msgs ∧
      (∀ n, (replayRing size sent).after n = Following sent (replayRing size sent).msgs n) ∧
      (sent.length + 1 < 2 ^ 64 → ∀ n : UInt64, (replayRing size sent).afterWord n =
        Following sent (replayRing size sent).msgs n.toNat)) :=
  ⟨⟨sentLog_isWindow sent, (sentLog_keeps sent).after_eq⟩,
    replayRing_isWindow sent, (replayRing_keeps sent).after_eq, fun hword n =>
      ((replayRing_keeps sent).afterWord_eq hword n).trans ((replayRing_keeps sent).after_eq _)⟩

/-- Two messages of a megabyte and a half: the first is gone. -/
theorem windows_exact_bytes :
    (replayRing id [1572864, 1572864]).afterWord 1 = some [1572864] ∧
      (replayRing id [1572864, 1572864]).afterWord 0 = none := by
  have h := (windows_exact id [1572864, 1572864]).2.2.2 (by decide)
  exact ⟨(h 1).trans (by decide +kernel), (h 0).trans (by decide +kernel)⟩

end Windows

end Sozvon.Resume
