import Sozvon.SdpFrag
import Mathlib.Data.List.Basic

/-!
# Patching a session description

`PatchSDP` installs the credentials and the candidates of a fragment in a
session description. The sections are patched where they are, so that the
description that is returned shares them with its argument; only what is
returned is followed here.

The attributes of a place are credentials, candidates and others, and what
becomes of each kind is `Patched`.
-/
namespace Sozvon.SdpFrag
open NetAddr (Text ascii)

def iceUfrag : Text := ascii "ice-ufrag"
def icePwd : Text := ascii "ice-pwd"
def candidateKey : Text := ascii "candidate"

def patch (ufrag pwd : Text) (old : List Attribute) (cs : List ICECandidateInit) (override : Bool) :
    List Attribute :=
  let as := old.filterMap fun a =>
    if a.key = iceUfrag then
      if ufrag = [] then none else some { key := iceUfrag, value := ufrag }
    else if a.key = icePwd then
      if pwd = [] then none else some { key := icePwd, value := pwd }
    else if !override || a.key ≠ candidateKey then some a
    else none
  as ++ cs.map fun c => { key := candidateKey, value := c.candidate }

/-- The pair of a fragment, of its top level if that has an ufrag, or of the first section that
has one. -/
def SDPFrag.uFragPwd (f : SDPFrag) : Text × Text :=
  if f.usernameFragment ≠ [] then (f.usernameFragment, f.password)
  else match f.mediaDescriptions.find? fun m => m.usernameFragment ≠ [] with
    | some m => (m.usernameFragment, m.password)
    | none => ([], [])

section Patch

variable {Name : Type}

def sdpUFragPwd (P : Sdp Name) (s : SessionDescription Name) : Text × Text :=
  let ufrag := P.attributeOf s.attributes iceUfrag
  let pwd := P.attributeOf s.attributes icePwd
  if ufrag ≠ [] then (ufrag, pwd)
  else match s.mediaDescriptions.find? fun m => P.attributeOf m.attributes iceUfrag ≠ [] with
    | some m => (P.attributeOf m.attributes iceUfrag, P.attributeOf m.attributes icePwd)
    | none => ([], [])

/-- The description that is returned, and whether the credentials were others. -/
def patchSDP (P : Sdp Name) (s : SessionDescription Name) (f : SDPFrag) :
    SessionDescription Name × Bool :=
  let (ufrag, pwd) := sdpUFragPwd P s
  let (ufrag1, pwd1) := f.uFragPwd
  let override := decide (ufrag ≠ ufrag1 ∨ pwd ≠ pwd1)
  let s := {
    attributes := patch ufrag1 pwd1 s.attributes f.candidates override
    mediaDescriptions := s.mediaDescriptions.mapIdx fun i m =>
      let mm := f.mediaDescriptions[i]?.getD {}
      { m with attributes := patch ufrag1 pwd1 m.attributes mm.candidates override } }
  (s, override)

end Patch

/-! ## One place -/

section Places

def Attribute.IsCredential (a : Attribute) : Prop := a.key = iceUfrag ∨ a.key = icePwd
def Attribute.IsCandidate (a : Attribute) : Prop := a.key = candidateKey
def Attribute.IsOther (a : Attribute) : Prop := ¬ a.IsCredential ∧ ¬ a.IsCandidate

instance : DecidablePred Attribute.IsCredential := fun _ => inferInstanceAs (Decidable (_ ∨ _))
instance : DecidablePred Attribute.IsCandidate := fun _ => inferInstanceAs (Decidable (_ = _))
instance : DecidablePred Attribute.IsOther := fun _ => inferInstanceAs (Decidable (_ ∧ _))

def Has (as : List Attribute) (key : Text) : Prop := ∃ a ∈ as, a.key = key

instance (as : List Attribute) (key : Text) : Decidable (Has as key) :=
  inferInstanceAs (Decidable (∃ a ∈ as, _))

/-- A credential with the value of a pair instead of its own. -/
def install (creds : Text × Text) (a : Attribute) : Attribute :=
  { a with value := if a.key = iceUfrag then creds.1 else creds.2 }

/-- The credentials are those of a pair, the candidates are followed by new ones, unless these
replace them, and the rest is as it was. -/
structure Patched (creds : Text × Text) (restart : Bool) (cs : List ICECandidateInit)
    (old new : List Attribute) : Prop where
  credentials : new.filter (·.IsCredential) = (old.filter (·.IsCredential)).map (install creds)
  candidates : (new.filter (·.IsCandidate)).map (·.value) =
    (if restart then [] else (old.filter (·.IsCandidate)).map (·.value)) ++ cs.map (·.candidate)
  others : new.filter (·.IsOther) = old.filter (·.IsOther)

variable {creds : Text × Text} {old : List Attribute} {key : Text}

/-- What is kept of an attribute. -/
def keep (creds : Text × Text) (override : Bool) (a : Attribute) : Option Attribute :=
  if a.IsCredential then some (install creds a)
  else if override ∧ a.IsCandidate then none
  else some a

theorem patch_eq (hufrag : creds.1 ≠ []) (hpwd : creds.2 ≠ []) (old : List Attribute)
    (cs : List ICECandidateInit) (override : Bool) : patch creds.1 creds.2 old cs override =
      old.filterMap (keep creds override) ++
        cs.map fun c => { key := candidateKey, value := c.candidate } := by
  unfold patch
  dsimp only
  congr 2
  funext a
  by_cases hu : a.key = iceUfrag
  · have hcredential : a.IsCredential := .inl hu
    rw [if_pos hu, if_neg hufrag, keep, if_pos hcredential, install, if_pos hu, hu]
  · by_cases hp : a.key = icePwd
    · have hcredential : a.IsCredential := .inr hp
      rw [if_neg hu, if_pos hp, if_neg hpwd, keep, if_pos hcredential, install, if_neg hu, hp]
    · have hcredential : ¬ a.IsCredential := not_or.mpr ⟨hu, hp⟩
      rw [if_neg hu, if_neg hp, keep, if_neg hcredential]
      unfold Attribute.IsCandidate
      cases override <;> simp

/-- What is kept of one kind of attributes, kinds being told apart by their keys. -/
theorem filter_keep {kind : Attribute → Bool} (hkind : ∀ a, kind (install creds a) = kind a)
    (override : Bool) (old : List Attribute) :
    (old.filterMap (keep creds override)).filter kind =
      (old.filter kind).filterMap (keep creds override) := by
  rw [List.filter_filterMap, List.filterMap_filter]
  refine List.filterMap_congr fun a _ => ?_
  by_cases hone : kind a = true
  · rw [if_pos hone, keep]
    split_ifs
    · rw [Option.filter_some, hkind, if_pos hone]
    · rfl
    · rw [Option.filter_some, if_pos hone]
  · rw [if_neg hone, keep]
    split_ifs
    · rw [Option.filter_some, hkind, if_neg hone]
    · rfl
    · rw [Option.filter_some, if_neg hone]

theorem not_isCandidate {a : Attribute} (h : a.IsCredential) : ¬ a.IsCandidate := by
  have hkeys : iceUfrag ≠ candidateKey ∧ icePwd ≠ candidateKey := by decide
  rintro hcandidate
  rcases h with h | h
  · exact hkeys.1 (h.symm.trans hcandidate)
  · exact hkeys.2 (h.symm.trans hcandidate)

theorem patched_patch (hufrag : creds.1 ≠ []) (hpwd : creds.2 ≠ []) (old : List Attribute)
    (cs : List ICECandidateInit) (override : Bool) :
    Patched creds override cs old (patch creds.1 creds.2 old cs override) := by
  let added := cs.map fun c => ({ key := candidateKey, value := c.candidate } : Attribute)
  have hadded : ∀ a ∈ added, a.IsCandidate := fun a ha => by
    obtain ⟨c, -, rfl⟩ := List.mem_map.mp ha
    rfl
  have hnone {kind : Attribute → Bool} (h : ∀ a, kind a = true → ¬ a.IsCandidate) :
      added.filter kind = [] :=
    List.filter_eq_nil_iff.mpr fun a ha hkind => h a hkind (hadded a ha)
  rw [patch_eq hufrag hpwd]
  refine ⟨?_, ?_, ?_⟩
  · rw [List.filter_append, filter_keep (fun _ => rfl),
      hnone fun a h => not_isCandidate (of_decide_eq_true h), List.append_nil]
    refine List.filterMap_eq_map_iff_forall_eq_some.mpr fun a ha => ?_
    rw [keep, if_pos (of_decide_eq_true (List.mem_filter.mp ha).2)]
  · rw [List.filter_append, filter_keep (fun _ => rfl),
      List.filter_eq_self.mpr fun a ha => decide_eq_true (hadded a ha), List.map_append,
      List.map_map]
    refine congrArg (· ++ cs.map (·.candidate)) ?_
    cases override with
    | true =>
        rw [List.filterMap_eq_nil_iff.mpr, List.map_nil, if_pos rfl]
        intro a ha
        have hcandidate : a.IsCandidate := of_decide_eq_true (List.mem_filter.mp ha).2
        rw [keep, if_neg fun h => not_isCandidate h hcandidate, if_pos ⟨rfl, hcandidate⟩]
    | false =>
        rw [if_neg Bool.false_ne_true]
        refine congrArg (List.map _) ((List.filterMap_congr fun a ha => ?_).trans
          List.filterMap_some)
        have hcandidate : a.IsCandidate := of_decide_eq_true (List.mem_filter.mp ha).2
        rw [keep, if_neg fun h => not_isCandidate h hcandidate,
          if_neg fun h => Bool.false_ne_true h.1]
  · rw [List.filter_append, filter_keep (fun _ => rfl),
      hnone fun a h => (of_decide_eq_true h : a.IsOther).2, List.append_nil]
    refine (List.filterMap_congr fun a ha => ?_).trans List.filterMap_some
    have hother : a.IsOther := of_decide_eq_true (List.mem_filter.mp ha).2
    rw [keep, if_neg hother.1, if_neg fun h => hother.2 h.2]

variable {override : Bool} {cs : List ICECandidateInit} {new : List Attribute}

/-- The credentials of a place that is patched are those that it had, with other values. -/
theorem Patched.mem_credential (h : Patched creds override cs old new) {a : Attribute}
    (ha : a.IsCredential) : a ∈ new ↔ ∃ b ∈ old, install creds b = a := by
  have hnew : a ∈ new ↔ a ∈ new.filter (·.IsCredential) :=
    ⟨fun hmem => List.mem_filter.mpr ⟨hmem, decide_eq_true ha⟩,
      fun hmem => (List.mem_filter.mp hmem).1⟩
  rw [hnew, h.credentials, List.mem_map]
  constructor
  · rintro ⟨b, hb, hba⟩
    exact ⟨b, (List.mem_filter.mp hb).1, hba⟩
  · rintro ⟨b, hb, rfl⟩
    exact ⟨b, List.mem_filter.mpr ⟨hb, decide_eq_true ha⟩, rfl⟩

theorem Patched.has_iff (h : Patched creds override cs old new) {key : Text}
    (hkey : key = iceUfrag ∨ key = icePwd) : Has new key ↔ Has old key := by
  constructor
  · rintro ⟨a, ha, rfl⟩
    obtain ⟨b, hb, rfl⟩ := (h.mem_credential hkey).mp ha
    exact ⟨b, hb, rfl⟩
  · rintro ⟨b, hb, rfl⟩
    have hkey' : (install creds b).IsCredential := hkey
    exact ⟨install creds b, (h.mem_credential hkey').mpr ⟨b, hb, rfl⟩, rfl⟩

end Places

section Description

variable {Name : Type} {P : Sdp Name} {creds : Text × Text} {s r : SessionDescription Name}

/-- The library finds an attribute where there is one. -/
structure Sdp.Lawful (P : Sdp Name) : Prop where
  absent : ∀ as key, ¬ Has as key → P.attributeOf as key = []
  present : ∀ as key, Has as key → ∃ a ∈ as, a.key = key ∧ P.attributeOf as key = a.value

/-- The attributes of the session and of each section. -/
def SessionDescription.places (s : SessionDescription Name) : List (List Attribute) :=
  s.attributes :: s.mediaDescriptions.map (·.attributes)

theorem Patched.attributeOf (hP : P.Lawful) {old new : List Attribute} {override : Bool}
    {cs : List ICECandidateInit} (h : Patched creds override cs old new)
    (hufrag : Has old iceUfrag) (hpwd : Has old icePwd) :
    P.attributeOf new iceUfrag = creds.1 ∧ P.attributeOf new icePwd = creds.2 := by
  obtain ⟨a, ha, hkey, hvalue⟩ := hP.present new iceUfrag ((h.has_iff (.inl rfl)).mpr hufrag)
  obtain ⟨b, -, rfl⟩ := (h.mem_credential (.inl hkey)).mp ha
  obtain ⟨a', ha', hkey', hvalue'⟩ := hP.present new icePwd ((h.has_iff (.inr rfl)).mpr hpwd)
  obtain ⟨b', -, rfl⟩ := (h.mem_credential (.inr hkey')).mp ha'
  have hne : b'.key ≠ iceUfrag := fun heq => absurd (heq.symm.trans hkey') (by decide)
  exact ⟨hvalue.trans (if_pos hkey), hvalue'.trans (if_neg hne)⟩

/-- A pair that is at every place with an ufrag is the one that is found. -/
theorem sdpUFragPwd_eq (hP : P.Lawful) (hne : creds.1 ≠ [])
    (hplaces : ∀ as ∈ s.places, Has as iceUfrag →
      P.attributeOf as iceUfrag = creds.1 ∧ P.attributeOf as icePwd = creds.2)
    (hsome : ∃ as ∈ s.places, Has as iceUfrag) : sdpUFragPwd P s = creds := by
  have hhas {as : List Attribute} (h : P.attributeOf as iceUfrag ≠ []) : Has as iceUfrag :=
    by_contra fun hnot => h (hP.absent as iceUfrag hnot)
  unfold sdpUFragPwd
  dsimp only
  split_ifs with hsession
  · obtain ⟨hu, hp⟩ := hplaces s.attributes List.mem_cons_self (hhas hsession)
    rw [hu, hp]
  · cases hfind : s.mediaDescriptions.find? fun m => P.attributeOf m.attributes iceUfrag ≠ [] with
    | some m =>
        have hm : m.attributes ∈ s.places :=
          List.mem_cons_of_mem _ (List.mem_map_of_mem (List.mem_of_find?_eq_some hfind))
        have hmedia : P.attributeOf m.attributes iceUfrag ≠ [] := by
          simpa using List.find?_some hfind
        obtain ⟨hu, hp⟩ := hplaces m.attributes hm (hhas hmedia)
        dsimp only
        rw [hu, hp]
    | none =>
        obtain ⟨as, has, hufrag⟩ := hsome
        have hvalue := (hplaces as has hufrag).1
        rcases List.mem_cons.mp has with rfl | hmem
        · exact absurd (hvalue.symm.trans (not_not.mp hsession)) hne
        · obtain ⟨m, hm, rfl⟩ := List.mem_map.mp hmem
          have hnot := List.find?_eq_none.mp hfind m hm
          rw [decide_eq_true_iff, not_not] at hnot
          exact absurd (hvalue.symm.trans hnot) hne

/-- A description patched with a fragment, place by place. -/
structure PatchedBy (f : SDPFrag) (restart : Bool) (s r : SessionDescription Name) : Prop where
  session : Patched f.uFragPwd restart f.candidates s.attributes r.attributes
  length : r.mediaDescriptions.length = s.mediaDescriptions.length
  media : ∀ (i : ℕ) (m m' : Media Name),
    s.mediaDescriptions[i]? = some m → r.mediaDescriptions[i]? = some m' →
    m'.mediaName = m.mediaName ∧
    Patched f.uFragPwd restart (f.mediaDescriptions[i]?.getD {}).candidates
      m.attributes m'.attributes

theorem patchedBy_patchSDP (P : Sdp Name) (s : SessionDescription Name) {f : SDPFrag}
    (hufrag : f.uFragPwd.1 ≠ []) (hpwd : f.uFragPwd.2 ≠ []) :
    PatchedBy f (patchSDP P s f).2 s (patchSDP P s f).1 where
  session := patched_patch hufrag hpwd ..
  length := List.length_mapIdx
  media i m m' hm hm' := by
    unfold patchSDP at hm'
    rw [List.getElem?_mapIdx, hm, Option.map_some, Option.some.injEq] at hm'
    subst hm'
    exact ⟨rfl, patched_patch hufrag hpwd ..⟩

theorem patchSDP_snd (P : Sdp Name) (s : SessionDescription Name) (f : SDPFrag) :
    (patchSDP P s f).2 = decide (sdpUFragPwd P s ≠ f.uFragPwd) := by
  unfold patchSDP
  refine decide_eq_decide.mpr ?_
  rw [ne_eq (sdpUFragPwd P s), Prod.ext_iff, not_and_or]

/-- The patched description has the fragment's pair. -/
theorem PatchedBy.uFragPwd (hP : P.Lawful) {f : SDPFrag} {restart : Bool}
    (h : PatchedBy f restart s r) (hne : f.uFragPwd.1 ≠ [])
    (hpairs : ∀ as ∈ s.places, Has as iceUfrag ↔ Has as icePwd)
    (hsome : ∃ as ∈ s.places, Has as iceUfrag) : sdpUFragPwd P r = f.uFragPwd := by
  -- every place of the one description is a place of the other
  have hplace : ∀ new ∈ r.places,
      ∃ old ∈ s.places, ∃ cs, Patched f.uFragPwd restart cs old new := by
    intro new hnew
    rcases List.mem_cons.mp hnew with rfl | hmem
    · exact ⟨s.attributes, List.mem_cons_self, _, h.session⟩
    · obtain ⟨m', hm', rfl⟩ := List.mem_map.mp hmem
      obtain ⟨i, hi⟩ := List.getElem?_of_mem hm'
      have hlt : i < s.mediaDescriptions.length := by
        rw [← h.length]
        exact (List.getElem?_eq_some_iff.mp hi).1
      have hm := List.getElem?_eq_getElem hlt
      exact ⟨_, List.mem_cons_of_mem _ (List.mem_map_of_mem (List.getElem_mem hlt)), _,
        (h.media i _ m' hm hi).2⟩
  have hback : ∀ old ∈ s.places, ∃ new ∈ r.places, ∃ cs, Patched f.uFragPwd restart cs old new := by
    intro old hold
    rcases List.mem_cons.mp hold with rfl | hmem
    · exact ⟨r.attributes, List.mem_cons_self, _, h.session⟩
    · obtain ⟨m, hm, rfl⟩ := List.mem_map.mp hmem
      obtain ⟨i, hi⟩ := List.getElem?_of_mem hm
      have hlt : i < r.mediaDescriptions.length := by
        rw [h.length]
        exact (List.getElem?_eq_some_iff.mp hi).1
      have hm' := List.getElem?_eq_getElem hlt
      exact ⟨_, List.mem_cons_of_mem _ (List.mem_map_of_mem (List.getElem_mem hlt)), _,
        (h.media i m _ hi hm').2⟩
  refine sdpUFragPwd_eq hP hne (fun new hnew hufrag => ?_) ?_
  · obtain ⟨old, hold, cs, hpatched⟩ := hplace new hnew
    have hu := (hpatched.has_iff (.inl rfl)).mp hufrag
    exact hpatched.attributeOf hP hu ((hpairs old hold).mp hu)
  · obtain ⟨old, hold, hufrag⟩ := hsome
    obtain ⟨new, hnew, cs, hpatched⟩ := hback old hold
    exact ⟨new, hnew, (hpatched.has_iff (.inl rfl)).mpr hufrag⟩

/-- A patched description has the fragment's credentials wherever it had any, the candidates that
are right, and all else as it was; every section of the fragment has one to go to; and patching it
again is no restart. -/
theorem patchSDP_spec (hP : P.Lawful) (s : SessionDescription Name) (f : SDPFrag)
    (hpairs : ∀ as ∈ s.places, Has as iceUfrag ↔ Has as icePwd)
    (hsome : ∃ as ∈ s.places, Has as iceUfrag) (hufrag : f.uFragPwd.1 ≠ [])
    (hpwd : f.uFragPwd.2 ≠ [])
    (hlength : f.mediaDescriptions.length ≤ s.mediaDescriptions.length) :
    PatchedBy f (decide (sdpUFragPwd P s ≠ f.uFragPwd)) s (patchSDP P s f).1 ∧
    f.mediaDescriptions.length ≤ (patchSDP P s f).1.mediaDescriptions.length ∧
    sdpUFragPwd P (patchSDP P s f).1 = f.uFragPwd ∧
    (patchSDP P (patchSDP P s f).1 f).2 = false := by
  have h := patchedBy_patchSDP P s hufrag hpwd
  have hpair := h.uFragPwd hP hufrag hpairs hsome
  refine ⟨patchSDP_snd P s f ▸ h, h.length ▸ hlength, hpair, ?_⟩
  rw [patchSDP_snd, hpair]
  exact decide_eq_false fun hne => hne rfl

end Description

section Samples

/-- A library that returns the value of the first attribute. -/
def lookup : Sdp Text where
  attributeOf as key := ((as.find? fun a => a.key = key).map (·.value)).getD []
  string := id

theorem lawful_lookup : lookup.Lawful where
  absent as key h := by
    have hfind : (as.find? fun a => a.key = key) = none :=
      List.find?_eq_none.mpr fun a ha hkey => h ⟨a, ha, of_decide_eq_true hkey⟩
    exact congrArg (fun o => (o.map Attribute.value).getD []) hfind
  present as key h := by
    obtain ⟨a, ha, hkey⟩ := h
    cases hfind : as.find? fun a => a.key = key with
    | none => exact absurd (decide_eq_true hkey) (List.find?_eq_none.mp hfind a ha)
    | some b =>
        refine ⟨b, List.mem_of_find?_eq_some hfind, ?_, ?_⟩
        · simpa using List.find?_some hfind
        · exact congrArg (fun o => (o.map Attribute.value).getD []) hfind

/-- A section with a pair and a candidate. -/
def offer : SessionDescription Text where
  attributes := [{ key := ascii "group", value := ascii "BUNDLE 0" }]
  mediaDescriptions := [{
    mediaName := ascii "audio 9 UDP/TLS/RTP/SAVPF 0"
    attributes := [{ key := iceUfrag, value := ascii "qiKa" },
      { key := icePwd, value := ascii "bcfs93hb" }, { key := ascii "mid", value := ascii "0" },
      { key := candidateKey, value := ascii "1 1 udp 1 192.0.2.1 9 typ host" }] }]

/-- Another pair, of the same section, and a candidate. -/
def restart : SDPFrag where
  mediaDescriptions := [{
    mLine := ascii "audio 9 UDP/TLS/RTP/SAVPF 0"
    mid := ascii "0"
    usernameFragment := ascii "HWmk"
    password := ascii "6kyIjoI1"
    candidates := [{ candidate := ascii "2 1 udp 1 192.0.2.2 9 typ host" }] }]

theorem patchSDP_restart :
    sdpUFragPwd lookup (patchSDP lookup offer restart).1 = (ascii "HWmk", ascii "6kyIjoI1") ∧
    (patchSDP lookup (patchSDP lookup offer restart).1 restart).2 = false := by
  have h := patchSDP_spec lawful_lookup offer restart (by decide) (by decide) (by decide)
    (by decide) (by decide)
  exact h.2.2

end Samples

end Sozvon.SdpFrag
