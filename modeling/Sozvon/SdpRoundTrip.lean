import Sozvon.SdpFrag
import Mathlib.Algebra.BigOperators.Group.List.Basic
import Mathlib.Data.List.TakeWhile
import Mathlib.Algebra.GroupWithZero.Nat

/-!
# Fragments read back

`Marshal` writes the candidates of a section with the attribute's name, and
those at the top level without. What is read back of a fragment is counted
(`SDPFrag.size`): a line adds no more than it is worth, a candidate of the top
level is worth less than it takes, and so is a line that is never read.
-/
namespace Sozvon.SdpFrag
open NetAddr (Text ascii)
open LineScanner

/-- Nothing but the string of a candidate. -/
def ICECandidateInit.plain (c : ICECandidateInit) : ICECandidateInit := { candidate := c.candidate }

def MediaDescription.plain (m : MediaDescription) : MediaDescription :=
  { m with candidates := m.candidates.map ICECandidateInit.plain }

/-- The fragment with nothing but the strings of its candidates. -/
def SDPFrag.plain (f : SDPFrag) : SDPFrag :=
  { f with
    candidates := f.candidates.map ICECandidateInit.plain
    mediaDescriptions := f.mediaDescriptions.map MediaDescription.plain }

/-- The same is read back, up to what is added to the strings of candidates. -/
def RoundTrips (f : SDPFrag) : Prop :=
  ∃ g, unmarshal (marshal f) = .ok g ∧ g.plain = f.plain

def MediaDescription.texts (m : MediaDescription) : List Text :=
  [m.mLine, m.mid, m.usernameFragment, m.password] ++ m.candidates.map (·.candidate)

def SDPFrag.texts (f : SDPFrag) : List Text :=
  [f.usernameFragment, f.password] ++ f.candidates.map (·.candidate) ++
    f.mediaDescriptions.flatMap MediaDescription.texts

/-- No value contains a line break. -/
def SDPFrag.Unbroken (f : SDPFrag) : Prop := ∀ v ∈ f.texts, newline ∉ v

instance (f : SDPFrag) : Decidable f.Unbroken :=
  inferInstanceAs (Decidable (∀ v ∈ f.texts, newline ∉ v))

/-- What the lines that are read begin with. -/
def fronts : List Text :=
  [ascii "a=ice-ufrag:", ascii "a=ice-pwd:", ascii "m=", ascii "a=mid:", ascii "a=candidate:"]

/-! ## Lines -/

section Lines

variable {l : Text} {f : SDPFrag}

theorem mem_optional {front v : Text} (h : l ∈ optional front v) : l = front ++ v := by
  unfold optional at h
  split_ifs at h
  · exact List.mem_singleton.mp h
  · cases h

/-- A line of a section. -/
theorem mem_lines_media {m : MediaDescription} (h : l ∈ m.lines) : ∃ front v, l = front ++ v ∧
    v ∈ m.texts ∧ front ∈ fronts := by
  unfold MediaDescription.lines at h
  unfold MediaDescription.texts fronts
  simp only [List.mem_append, List.mem_cons, List.not_mem_nil, or_false, List.mem_map] at h
  rcases h with (((h | h) | h) | h) | ⟨c, hc, h⟩
  · exact ⟨_, _, h, by simp, by simp⟩
  · exact ⟨_, _, h, by simp, by simp⟩
  · exact ⟨_, _, mem_optional h, by simp, by simp⟩
  · exact ⟨_, _, mem_optional h, by simp, by simp⟩
  · exact ⟨_, _, h.symm, by simp only [List.mem_append, List.mem_map]; exact .inr ⟨c, hc, rfl⟩,
      by simp⟩

/-- A line of a fragment, of one of the kinds that are read unless it is a candidate at the top
level. -/
theorem mem_lines (h : l ∈ f.lines) : ∃ front v, l = front ++ v ∧ v ∈ f.texts ∧
    ((front = ascii "a=" ∧ f.candidates ≠ []) ∨ front ∈ fronts) := by
  unfold SDPFrag.lines at h
  unfold SDPFrag.texts
  simp only [List.mem_append, List.mem_map, List.mem_flatMap] at h
  rcases h with ((h | h) | ⟨c, hc, h⟩) | ⟨m, hm, h⟩
  · exact ⟨_, _, mem_optional h, by simp, .inr (by simp [fronts])⟩
  · exact ⟨_, _, mem_optional h, by simp, .inr (by simp [fronts])⟩
  · refine ⟨_, _, h.symm, ?_, .inl ⟨rfl, List.ne_nil_of_mem hc⟩⟩
    simp only [List.mem_append, List.mem_map]
    exact .inl (.inr ⟨c, hc, rfl⟩)
  · obtain ⟨front, v, hl, hv, hfront⟩ := mem_lines_media h
    refine ⟨front, v, hl, ?_, .inr hfront⟩
    simp only [List.mem_append, List.mem_flatMap]
    exact .inr ⟨m, hm, hv⟩

theorem newline_not_mem (hf : f.Unbroken) (h : l ∈ f.lines) : newline ∉ l := by
  obtain ⟨front, v, rfl, hv, hfront⟩ := mem_lines h
  have hplain : newline ∉ ascii "a=" ∧ ∀ front ∈ fronts, newline ∉ front := by decide
  have hnot : newline ∉ front := by
    rcases hfront with ⟨rfl, -⟩ | hmem
    · exact hplain.1
    · exact hplain.2 front hmem
  rw [List.mem_append, not_or]
  exact ⟨hnot, hf v hv⟩

/-- What is read of a fragment that is written. -/
theorem unmarshal_marshal (hf : f.Unbroken) : unmarshal (marshal f) =
    ((f.lines.takeWhile fun l => Fits l).foldlM Reader.line {}).map Reader.close := by
  rw [unmarshal, marshal, scan_render fun l hl => newline_not_mem hf hl]

end Lines

/-! ## Counting what is read -/

section Size

def ICECandidateInit.size (c : ICECandidateInit) : ℕ := c.candidate.length + 1

def MediaDescription.size (m : MediaDescription) : ℕ :=
  m.mLine.length + 1 + m.mid.length + m.usernameFragment.length + m.password.length +
    (m.candidates.map ICECandidateInit.size).sum

/-- The bytes of a fragment, and one for each section and each candidate. -/
def SDPFrag.size (f : SDPFrag) : ℕ :=
  f.usernameFragment.length + f.password.length + (f.candidates.map ICECandidateInit.size).sum +
    (f.mediaDescriptions.map MediaDescription.size).sum

/-- What a line adds at most. -/
def worth (l : Text) : ℕ :=
  match after (ascii "a=ice-ufrag:") l with
  | some v => v.length
  | none => match after (ascii "a=ice-pwd:") l with
    | some v => v.length
    | none => match after (ascii "m=") l with
      | some v => v.length + 1
      | none => match after (ascii "a=mid:") l with
        | some v => v.length
        | none => match after (ascii "a=candidate:") l with
          | some v => v.length + 1
          | none => 0

theorem size_plain (f : SDPFrag) : f.plain.size = f.size := by
  have hcandidates (cs : List ICECandidateInit) :
      (cs.map ICECandidateInit.plain).map ICECandidateInit.size = cs.map ICECandidateInit.size := by
    rw [List.map_map]
    rfl
  have hmedia : MediaDescription.size ∘ MediaDescription.plain = MediaDescription.size := by
    funext m
    unfold MediaDescription.size MediaDescription.plain
    rw [Function.comp_apply, hcandidates]
  unfold SDPFrag.size SDPFrag.plain
  rw [hcandidates, List.map_map, hmedia]

variable {r r' : Reader} {l : Text}

/-- What a line does to the reader, and what it is worth. -/
theorem line_cases (h : r.line l = .ok r') :
    (∃ v, worth l = v.length ∧ r' = r.ufrag v) ∨ (∃ v, worth l = v.length ∧ r' = r.pwd v) ∨
    (∃ v, worth l = v.length + 1 ∧ r' = r.media v) ∨
    (∃ v, worth l = v.length ∧ r.mid v = .ok r') ∨
    (∃ v, worth l = v.length + 1 ∧ r' = r.candidate v) ∨ r' = r := by
  revert h
  unfold Reader.line worth
  cases after (ascii "a=ice-ufrag:") l with
  | some v => exact fun h => .inl ⟨v, rfl, (Except.ok.inj h).symm⟩
  | none => cases after (ascii "a=ice-pwd:") l with
    | some v => exact fun h => .inr (.inl ⟨v, rfl, (Except.ok.inj h).symm⟩)
    | none => cases after (ascii "m=") l with
      | some v => exact fun h => .inr (.inr (.inl ⟨v, rfl, (Except.ok.inj h).symm⟩))
      | none => cases after (ascii "a=mid:") l with
        | some v => exact fun h => .inr (.inr (.inr (.inl ⟨v, rfl, h⟩)))
        | none => cases after (ascii "a=candidate:") l with
          | some v =>
            exact fun h => .inr (.inr (.inr (.inr (.inl ⟨v, rfl, (Except.ok.inj h).symm⟩))))
          | none => exact fun h => .inr (.inr (.inr (.inr (.inr (Except.ok.inj h).symm))))

/-- The size of what has been read, the section under way included. -/
def Reader.size (r : Reader) : ℕ :=
  r.frag.size + (r.mediaDescription.map MediaDescription.size).getD 0

theorem size_close (r : Reader) : r.close.size = r.size := by
  unfold Reader.close Reader.size SDPFrag.size
  cases r.mediaDescription with
  | none => simp
  | some m =>
      simp only [Option.toList_some, List.map_append, List.map_cons, List.map_nil,
        List.sum_append, List.sum_singleton, Option.map_some, Option.getD_some]
      omega

theorem size_ufrag (v : Text) : (r.ufrag v).size ≤ r.size + v.length := by
  unfold Reader.ufrag Reader.size
  cases r.mediaDescription <;> simp only [SDPFrag.size, Option.map_some, Option.map_none,
    Option.getD_some, Option.getD_none, MediaDescription.size] <;> omega

theorem size_pwd (v : Text) : (r.pwd v).size ≤ r.size + v.length := by
  unfold Reader.pwd Reader.size
  cases r.mediaDescription <;> simp only [SDPFrag.size, Option.map_some, Option.map_none,
    Option.getD_some, Option.getD_none, MediaDescription.size] <;> omega

theorem size_media (v : Text) : (r.media v).size = r.size + (v.length + 1) := by
  rw [← size_close r]
  rfl

theorem size_mid {v : Text} (h : r.mid v = .ok r') : r'.size ≤ r.size + v.length := by
  unfold Reader.mid at h
  unfold Reader.size
  cases hm : r.mediaDescription with
  | none =>
      rw [hm] at h
      cases h
  | some m =>
      rw [hm] at h
      cases h
      simp only [Option.map_some, Option.getD_some, MediaDescription.size]
      omega

theorem size_candidate (v : Text) : (r.candidate v).size = r.size + (v.length + 1) := by
  unfold Reader.candidate Reader.size
  cases r.mediaDescription <;> simp only [SDPFrag.size, Option.map_some, Option.map_none,
    Option.getD_some, Option.getD_none, MediaDescription.size, List.map_append, List.map_cons,
    List.map_nil, List.sum_append, List.sum_singleton, ICECandidateInit.size] <;> omega

theorem size_line (h : r.line l = .ok r') : r'.size ≤ r.size + worth l := by
  rcases line_cases h with ⟨v, hl, rfl⟩ | ⟨v, hl, rfl⟩ | ⟨v, hl, rfl⟩ | ⟨v, hl, hmid⟩ |
    ⟨v, hl, rfl⟩ | rfl
  · exact hl ▸ size_ufrag v
  · exact hl ▸ size_pwd v
  · exact hl ▸ Nat.le_of_eq (size_media v)
  · exact hl ▸ size_mid hmid
  · exact hl ▸ Nat.le_of_eq (size_candidate v)
  · exact Nat.le_add_right ..

theorem size_lines {ls : List Text} (h : ls.foldlM Reader.line r = .ok r') :
    r'.size ≤ r.size + (ls.map worth).sum := by
  induction ls generalizing r with
  | nil =>
      cases h
      exact Nat.le_add_right ..
  | cons l ls ih =>
      rw [List.foldlM_cons] at h
      cases hl : r.line l with
      | error e =>
          rw [hl] at h
          cases h
      | ok r₁ =>
          rw [hl] at h
          have hfirst := size_line hl
          have hrest := ih h
          rw [List.map_cons, List.sum_cons]
          omega

/-! ### What the lines of a fragment are worth -/

theorem worth_ufrag (v : Text) : worth (ascii "a=ice-ufrag:" ++ v) = v.length := rfl

theorem worth_pwd (v : Text) : worth (ascii "a=ice-pwd:" ++ v) = v.length := rfl

theorem worth_media (v : Text) : worth (ascii "m=" ++ v) = v.length + 1 := rfl

theorem worth_mid (v : Text) : worth (ascii "a=mid:" ++ v) = v.length := rfl

theorem worth_candidate (v : Text) : worth (ascii "a=candidate:" ++ v) = v.length + 1 := rfl

theorem length_of_after {front l v : Text} (h : after front l = some v) :
    l.length = front.length + v.length := by
  unfold after at h
  split_ifs at h with hfront
  cases h
  have := (List.isPrefixOf_iff_prefix.mp hfront).length_le
  rw [List.length_drop]
  omega

/-- A candidate without the attribute's name. -/
theorem worth_bare (c : Text) : worth (ascii "a=" ++ c) < c.length + 1 := by
  have hlength : (ascii "a=" ++ c).length = c.length + 2 := by
    rw [List.length_append, Nat.add_comm]
    rfl
  have hmedia : after (ascii "m=") (ascii "a=" ++ c) = none := rfl
  unfold worth
  rw [hmedia]
  -- every other beginning is longer than the two bytes that are there
  cases hufrag : after (ascii "a=ice-ufrag:") (ascii "a=" ++ c) with
  | some v =>
      have hfront : (ascii "a=ice-ufrag:").length = 12 := rfl
      have := length_of_after hufrag
      dsimp only
      omega
  | none => cases hpwd : after (ascii "a=ice-pwd:") (ascii "a=" ++ c) with
    | some v =>
        have hfront : (ascii "a=ice-pwd:").length = 10 := rfl
        have := length_of_after hpwd
        dsimp only
        omega
    | none => cases hmid : after (ascii "a=mid:") (ascii "a=" ++ c) with
      | some v =>
          have hfront : (ascii "a=mid:").length = 6 := rfl
          have := length_of_after hmid
          dsimp only
          omega
      | none => cases hcandidate : after (ascii "a=candidate:") (ascii "a=" ++ c) with
        | some v =>
            have hfront : (ascii "a=candidate:").length = 12 := rfl
            have := length_of_after hcandidate
            dsimp only
            omega
        | none => exact Nat.succ_pos _

theorem worth_optional {front : Text} (h : ∀ v, worth (front ++ v) = v.length) (v : Text) :
    ((optional front v).map worth).sum = v.length := by
  unfold optional
  split_ifs with hv
  · rw [List.map_singleton, List.sum_singleton, h]
  · rw [not_not.mp hv]
    rfl

theorem worth_lines_media (m : MediaDescription) : (m.lines.map worth).sum = m.size := by
  have hcandidates : (m.candidates.map fun c => ascii "a=candidate:" ++ c.candidate).map worth =
      m.candidates.map ICECandidateInit.size := by
    rw [List.map_map]
    rfl
  unfold MediaDescription.lines MediaDescription.size
  rw [List.map_append, List.map_append, List.map_append, List.sum_append, List.sum_append,
    List.sum_append, worth_optional worth_ufrag, worth_optional worth_pwd, hcandidates]
  simp only [List.map_cons, List.map_nil, List.sum_cons, List.sum_nil, worth_media, worth_mid]
  omega

/-- The lines of a fragment are worth its size if it has no candidate at the top level, and less
otherwise. -/
theorem worth_lines (f : SDPFrag) : (f.lines.map worth).sum ≤ f.size ∧
    (f.candidates ≠ [] → (f.lines.map worth).sum < f.size) := by
  have hmedia : ((f.mediaDescriptions.flatMap MediaDescription.lines).map worth).sum =
      (f.mediaDescriptions.map MediaDescription.size).sum := by
    induction f.mediaDescriptions with
    | nil => rfl
    | cons m ms ih =>
        rw [List.flatMap_cons, List.map_append, List.sum_append, ih, worth_lines_media,
          List.map_cons, List.sum_cons]
  have hlt : ∀ c : ICECandidateInit, worth (ascii "a=" ++ c.candidate) < c.size :=
    fun c => worth_bare c.candidate
  have hbare (cs : List ICECandidateInit) :
      ((cs.map fun c => ascii "a=" ++ c.candidate).map worth).sum + cs.length ≤
        (cs.map ICECandidateInit.size).sum := by
    induction cs with
    | nil => exact Nat.le_refl _
    | cons c cs ih =>
        have := hlt c
        simp only [List.map_cons, List.sum_cons, List.length_cons] at ih ⊢
        omega
  have hcandidates := hbare f.candidates
  unfold SDPFrag.lines SDPFrag.size
  rw [List.map_append, List.map_append, List.map_append, List.sum_append, List.sum_append,
    List.sum_append, worth_optional worth_ufrag, worth_optional worth_pwd, hmedia]
  refine ⟨by omega, fun hne => ?_⟩
  have := List.length_pos_iff.mpr hne
  omega

theorem length_le_worth {f : SDPFrag} (hf : f.candidates = []) (h : l ∈ f.lines) :
    l.length ≤ worth l + 12 := by
  obtain ⟨front, v, rfl, -, ⟨-, hne⟩ | hfront⟩ := mem_lines h
  · exact absurd hf hne
  · rw [List.length_append]
    simp only [fronts, List.mem_cons, List.not_mem_nil, or_false] at hfront
    rcases hfront with rfl | rfl | rfl | rfl | rfl
    · rw [worth_ufrag, Nat.add_comm]
      exact Nat.add_le_add_left (by decide) _
    · rw [worth_pwd, Nat.add_comm]
      exact Nat.add_le_add_left (by decide) _
    · rw [worth_media]
      have : (ascii "m=").length = 2 := rfl
      omega
    · rw [worth_mid, Nat.add_comm]
      exact Nat.add_le_add_left (by decide) _
    · rw [worth_candidate]
      have : (ascii "a=candidate:").length = 12 := rfl
      omega

/-- Where nothing is lost, there was no candidate at the top level, and every line has been read. -/
theorem of_roundTrips {f : SDPFrag} (hf : f.Unbroken) (h : RoundTrips f) :
    f.candidates = [] ∧ ∀ l ∈ f.lines, Fits l := by
  obtain ⟨g, hg, hplain⟩ := h
  rw [unmarshal_marshal hf] at hg
  cases hread : (f.lines.takeWhile fun l => Fits l).foldlM Reader.line {} with
  | error e =>
      rw [hread] at hg
      cases hg
  | ok r =>
      rw [hread] at hg
      cases hg
      have hsize : f.size ≤ ((f.lines.takeWhile fun l => Fits l).map worth).sum := by
        rw [← size_plain, ← hplain, size_plain, size_close]
        exact Nat.le_trans (size_lines hread) (Nat.le_of_eq (Nat.zero_add _))
      have hsplit : ((f.lines.takeWhile fun l => Fits l).map worth).sum +
          ((f.lines.dropWhile fun l => Fits l).map worth).sum = (f.lines.map worth).sum := by
        rw [← List.sum_append, ← List.map_append, List.takeWhile_append_dropWhile]
      obtain ⟨hle, hlt⟩ := worth_lines f
      have hnil : f.candidates = [] := by
        by_contra hne
        have := hlt hne
        omega
      refine ⟨hnil, ?_⟩
      cases hdrop : f.lines.dropWhile fun l => Fits l with
      | nil =>
          intro l hl
          exact of_decide_eq_true (List.dropWhile_eq_nil_iff.mp hdrop l hl)
      | cons l ls =>
          -- the first line that is not read is worth something
          have hl : l ∈ f.lines :=
            (List.dropWhile_suffix _).subset (hdrop ▸ List.mem_cons_self)
          have hlong : ¬ Fits l := by
            have hhead := List.head?_dropWhile_not (fun l => decide (Fits l)) f.lines
            rw [hdrop] at hhead
            exact of_decide_eq_false hhead
          have hworth := length_le_worth hnil hl
          rw [hdrop, List.map_cons, List.sum_cons] at hsplit
          unfold Fits maxTokenSize at hlong
          have hcrlf : crlf.length = 2 := rfl
          omega

end Size

/-! ## Reading back -/

section Read

variable {r : Reader} {m : MediaDescription}

theorem read_optional (front : Text) (op : Reader → Text → Reader) (r : Reader)
    (hline : ∀ (r : Reader) (v : Text), r.line (front ++ v) = .ok (op r v))
    (hnil : op r [] = r) (v : Text) : (optional front v).foldlM Reader.line r = .ok (op r v) := by
  unfold optional
  split_ifs with hv
  · rw [List.foldlM_cons, hline]
    rfl
  · rw [not_not.mp hv, hnil]
    rfl

theorem candidate_media (hm : r.mediaDescription = some m) (v : Text) :
    ∃ d, r.candidate v =
        { r with mediaDescription := some { m with candidates := m.candidates ++ [d] } } ∧
      d.plain = { candidate := v } := by
  unfold Reader.candidate
  rw [hm]
  exact ⟨_, rfl, rfl⟩

theorem read_candidates (cs : List ICECandidateInit) (hm : r.mediaDescription = some m) :
    ∃ ds, (cs.map fun c => ascii "a=candidate:" ++ c.candidate).foldlM Reader.line r =
        .ok { r with mediaDescription := some { m with candidates := m.candidates ++ ds } } ∧
      ds.map ICECandidateInit.plain = cs.map ICECandidateInit.plain := by
  induction cs generalizing r m with
  | nil =>
      refine ⟨[], ?_, rfl⟩
      rw [List.append_nil, ← hm]
      rfl
  | cons c cs ih =>
      have hline : r.line (ascii "a=candidate:" ++ c.candidate) = .ok (r.candidate c.candidate) :=
        rfl
      obtain ⟨d, hd, hplain⟩ := candidate_media hm c.candidate
      let m' := { m with candidates := m.candidates ++ [d] }
      obtain ⟨ds, hread, hds⟩ := ih (r := { r with mediaDescription := some m' }) (m := m') rfl
      refine ⟨d :: ds, ?_, ?_⟩
      · rw [List.map_cons, List.foldlM_cons, hline, hd]
        rw [List.append_assoc] at hread
        exact hread
      · rw [List.map_cons, List.map_cons, hds, hplain]
        rfl

/-- A section is read back as the last one. -/
theorem read_media (r : Reader) (m : MediaDescription) : ∃ m', m'.plain = m.plain ∧
    m.lines.foldlM Reader.line r = .ok { frag := r.close, mediaDescription := some m' } := by
  let opened : Reader :=
    { frag := r.close, mediaDescription := some { mLine := m.mLine, mid := m.mid } }
  have hopen : [ascii "m=" ++ m.mLine, ascii "a=mid:" ++ m.mid].foldlM Reader.line r =
      .ok opened := rfl
  have hufrag := read_optional (ascii "a=ice-ufrag:") Reader.ufrag opened
    (fun _ _ => rfl) rfl m.usernameFragment
  have hpwd := read_optional (ascii "a=ice-pwd:") Reader.pwd
    (opened.ufrag m.usernameFragment) (fun _ _ => rfl) rfl m.password
  obtain ⟨ds, hread, hds⟩ := read_candidates (r := (opened.ufrag m.usernameFragment).pwd m.password)
    m.candidates rfl
  refine ⟨{ m with candidates := ds }, ?_, ?_⟩
  · unfold MediaDescription.plain
    rw [← hds]
  · rw [MediaDescription.lines, List.foldlM_append, List.foldlM_append, List.foldlM_append, hopen]
    change ((optional _ _).foldlM Reader.line opened >>= _) >>= _ = _
    rw [hufrag]
    change ((optional _ _).foldlM Reader.line (opened.ufrag _)) >>= _ = _
    rw [hpwd]
    exact hread

theorem read_medias (ms : List MediaDescription) (r : Reader) : ∃ r',
    (ms.flatMap MediaDescription.lines).foldlM Reader.line r = .ok r' ∧
    r'.close.plain = { r.close.plain with
      mediaDescriptions := r.close.plain.mediaDescriptions ++ ms.map MediaDescription.plain } := by
  induction ms generalizing r with
  | nil =>
      refine ⟨r, rfl, ?_⟩
      rw [List.map_nil, List.append_nil]
  | cons m ms ih =>
      obtain ⟨m', hplain, hread⟩ := read_media r m
      obtain ⟨r', hrest, hr'⟩ := ih { frag := r.close, mediaDescription := some m' }
      refine ⟨r', ?_, ?_⟩
      · rw [List.flatMap_cons, List.foldlM_append, hread]
        exact hrest
      · have hclose : ({ frag := r.close, mediaDescription := some m' } : Reader).close.plain =
            { r.close.plain with
              mediaDescriptions := r.close.plain.mediaDescriptions ++ [m.plain] } := by
          rw [← hplain]
          unfold Reader.close SDPFrag.plain
          rw [List.map_append]
          rfl
        rw [hr', hclose, List.map_cons, List.append_assoc]
        rfl

end Read

/-- The same is read back just if there is no candidate at the top level and no line is too long. -/
theorem roundTrips_iff (f : SDPFrag) (hf : f.Unbroken) :
    RoundTrips f ↔ f.candidates = [] ∧ ∀ l ∈ f.lines, Fits l := by
  refine ⟨of_roundTrips hf, fun ⟨hnil, hfits⟩ => ?_⟩
  have hall : (f.lines.takeWhile fun l => Fits l) = f.lines :=
    List.takeWhile_eq_self_iff.mpr fun l hl => decide_eq_true (hfits l hl)
  have hufrag := read_optional (ascii "a=ice-ufrag:") Reader.ufrag {}
    (fun _ _ => rfl) rfl f.usernameFragment
  have hpwd := read_optional (ascii "a=ice-pwd:") Reader.pwd
    (({} : Reader).ufrag f.usernameFragment) (fun _ _ => rfl) rfl f.password
  obtain ⟨r, hread, hr⟩ := read_medias f.mediaDescriptions
    ((({} : Reader).ufrag f.usernameFragment).pwd f.password)
  refine ⟨r.close, ?_, ?_⟩
  · have hlines : f.lines.foldlM Reader.line {} = .ok r := by
      rw [SDPFrag.lines, hnil, List.map_nil, List.append_nil, List.foldlM_append,
        List.foldlM_append, hufrag]
      change ((optional _ _).foldlM Reader.line (({} : Reader).ufrag _)) >>= _ = _
      rw [hpwd]
      exact hread
    rw [unmarshal_marshal hf, hall, hlines]
    rfl
  · rw [hr]
    unfold SDPFrag.plain
    rw [hnil]
    rfl

section Samples

/-- A section with a candidate. -/
def trickle : SDPFrag where
  usernameFragment := ascii "qiKa"
  password := ascii "bcfs93hb/+ZLuUE2K50HVbkr"
  mediaDescriptions := [{
    mLine := ascii "audio 9 UDP/TLS/RTP/SAVPF 0"
    mid := ascii "0"
    candidates := [{ candidate := ascii "1937612317 1 udp 2113937151 192.0.2.1 44501 typ host" }] }]

theorem roundTrips_trickle : RoundTrips trickle :=
  (roundTrips_iff trickle (by decide)).mpr ⟨rfl, by decide⟩

/-- A candidate at the top level is written without the attribute's name. -/
theorem not_roundTrips : ¬ ∀ (value : Text) (f : SDPFrag), unmarshal value = .ok f → f.Unbroken →
    RoundTrips f := by
  intro h
  let candidate : ICECandidateInit :=
    { candidate := ascii "1 1 udp 1 192.0.2.1 9 typ host", usernameFragment := some (ascii "qiKa") }
  let frag : SDPFrag := { usernameFragment := ascii "qiKa", candidates := [candidate] }
  have hread :
      unmarshal (ascii "a=ice-ufrag:qiKa\r\na=candidate:1 1 udp 1 192.0.2.1 9 typ host\r\n") =
        .ok frag := by decide
  have hunbroken : frag.Unbroken := by decide
  exact List.cons_ne_nil _ _ (of_roundTrips hunbroken (h _ _ hread hunbroken)).1

end Samples

end Sozvon.SdpFrag
