import Sozvon.AccountStore
import Sozvon.TokenRuns

/-!
# Etags of accounts

A request is checked against an etag that it has looked at, and changes the file later. It is
done only where the etag is still the same, so its conditions hold of what it changes. While
the clock goes on from one change to the next an etag stands for one description, in memory and
in the file, and a request that names the etag of what somebody has read changes just that.
-/
namespace Sozvon.Group

open Json Preconditions Runs

section Definitions
variable {κ : Type} (codec : KeyCodec κ)

/-- A request that is checked against an etag. -/
def Operation.conditional : Operation κ → Bool
  | .setUserPassword .. | .setKeys _ => false
  | _ => true

/-- Whether what a request is about is there. -/
def Operation.finds (file : Option File) : Operation κ → Bool
  | .updateUser who _ | .deleteUser who =>
      match openDescription codec file with
      | .ok r => (r.desc.account who).isSome
      | .error _ => false
  | _ => file.isSome

/-- The etag of what a request is about, and none where that is not there. -/
def Operation.tag (file : Option File) (op : Operation κ) : String :=
  if op.finds codec file then file.elim "" makeETag else ""

/-- A reading of one of the files. -/
def ReadOf (files : List File) (r : Reading κ) : Prop :=
  ∃ f ∈ files, openDescription codec (some f) = .ok r

/-- The files that there have been, no two of one time, and what has been read of them. -/
structure Genuine (files : List File) (s : Store κ) : Prop where
  unique : ∀ f ∈ files, ∀ g ∈ files, f.modTime = g.modTime → f = g
  past : ∀ f ∈ files, f.modTime ≤ s.clock
  file : ∀ f ∈ s.file, f ∈ files
  memory : ∀ r ∈ s.memory, ReadOf codec files r
  readings : ∀ r ∈ s.readings, ReadOf codec files r
  reads : ∀ target body etag, .read false target body etag ∈ s.log →
    ∃ f ∈ files, target.body (openDescription codec (some f)) = .ok (body, etag)
  befores : ∀ request created before after, .done request created before after ∈ s.log →
    ∀ f ∈ before, f ∈ files

end Definitions

section Tags
variable {κ : Type} {codec : KeyCodec κ} {parseKeys : List κ → Bool} {writableGroups : Bool}
  {file : Option File} {etag : String} {op : Operation κ}

theorem etag_of_open {r : Reading κ} (h : openDescription codec file = .ok r) :
    file.elim "" makeETag = r.etag ∧ r.isSubgroup = false := by
  cases file with
  | none => cases h
  | some f =>
      unfold openDescription at h
      dsimp only at h
      cases hread : readDescription codec f.content with
      | error e =>
          rw [hread] at h
          cases h
      | ok d =>
          rw [hread] at h
          cases h
          exact ⟨rfl, rfl⟩

/-- An answer is about a description that has been read, and comes with its etag. -/
theorem body_etag {target : Target} {r : Except AccountError (Reading κ)} {body : Body κ}
    (h : target.body r = .ok (body, etag)) : ∃ r', r = .ok r' ∧ etag = r'.etag := by
  cases target with
  | description =>
      obtain ⟨r', hr, hbody⟩ := bind_ok h
      split_ifs at hbody
      cases hbody
      exact ⟨r', hr, rfl⟩
  | users =>
      cases r with
      | error e => cases h
      | ok r' =>
          cases h
          exact ⟨r', rfl, rfl⟩
  | user who =>
      change (getSanitisedUser r who).map _ = _ at h
      unfold getSanitisedUser at h
      by_cases hwho : who.wildcard = true ∧ who.username ≠ ""
      · rw [if_pos hwho] at h
        cases h
      · rw [if_neg hwho] at h
        cases r with
        | error e => cases h
        | ok r' =>
            unfold Except.bind at h
            dsimp only at h
            cases haccount : r'.desc.account who with
            | none =>
                rw [haccount] at h
                cases h
            | some u =>
                rw [haccount] at h
                cases h
                exact ⟨r', rfl, rfl⟩

/-- What is answered about a file comes with the etag of the file. -/
theorem body_makeETag {target : Target} {f : File} {body : Body κ}
    (h : target.body (openDescription codec (some f)) = .ok (body, etag)) : etag = makeETag f := by
  obtain ⟨r, hopen, rfl⟩ := body_etag h
  exact (etag_of_open hopen).1.symm

theorem makeETag_ne (f : File) : makeETag f ≠ "" := by
  intro h
  have hlength := congrArg (fun s => s.toList.length) h
  simp [makeETag] at hlength

/-- A request is done only if it has been checked against the etag of what it changes. -/
theorem run_tag {content : Option Json} (hcond : op.conditional = true)
    (h : op.run codec parseKeys writableGroups file etag = .ok content) :
    op.tag codec file = etag := by
  cases op with
  | updateDescription desc =>
      unfold Operation.run at h
      dsimp only at h
      cases hupdate : updateDescription codec writableGroups file etag desc with
      | error e =>
          rw [hupdate] at h
          cases h
      | ok c =>
          unfold updateDescription at hupdate
          split at hupdate
          · cases hupdate
          · cases file with
            | none =>
                dsimp only at hupdate
                by_cases htag : "" ≠ etag
                · rw [if_pos htag] at hupdate
                  cases hupdate
                · exact not_not.mp htag
            | some f =>
                dsimp only at hupdate
                cases hread : readDescription codec f.content with
                | error e =>
                    rw [hread] at hupdate
                    cases hupdate
                | ok old =>
                    rw [hread] at hupdate
                    dsimp only at hupdate
                    by_cases htag : makeETag f ≠ etag
                    · rw [if_pos htag] at hupdate
                      cases hupdate
                    · exact not_not.mp htag
  | deleteDescription =>
      change deleteDescription file etag = .ok content at h
      unfold deleteDescription at h
      cases file with
      | none => cases h
      | some f =>
          dsimp only at h
          split_ifs at h with htag
          exact (not_not.mp htag).symm
  | updateUser who user =>
      change updateUser codec writableGroups file who etag user = .ok content at h
      unfold updateUser at h
      split_ifs at h
      obtain ⟨r, hr, h⟩ := bind_ok h
      dsimp only at h
      unfold Operation.tag Operation.finds
      dsimp only
      rw [hr, (etag_of_open hr).1]
      by_cases htag : (if (r.desc.account who).isSome = true then r.etag else "") = etag
      · exact htag
      · rw [if_pos htag] at h
        cases h
  | deleteUser who =>
      change deleteUser codec writableGroups file who etag = .ok content at h
      unfold deleteUser at h
      split_ifs at h
      obtain ⟨r, hr, h⟩ := bind_ok h
      unfold Operation.tag Operation.finds
      dsimp only
      rw [hr, (etag_of_open hr).1]
      change (if (r.desc.account who).isSome = true then r.etag else "") = etag
      cases haccount : r.desc.account who with
      | none =>
          rw [haccount] at h
          cases h
      | some u =>
          rw [haccount] at h
          dsimp only at h
          split_ifs at h with htag
          exact (if_pos rfl).trans (not_not.mp htag)
  | setUserPassword who pw => cases hcond
  | setKeys keys => cases hcond

/-! ## Conditions -/

theorem tag_eq_empty : op.tag codec file = "" ↔ op.finds codec file = false := by
  have hfile (h : op.finds codec file = true) : ∃ f, file = some f := by
    cases file with
    | none => cases op <;> cases h
    | some f => exact ⟨f, rfl⟩
  unfold Operation.tag
  cases hfinds : op.finds codec file with
  | false => exact iff_of_true (if_neg (by decide)) rfl
  | true =>
      obtain ⟨f, rfl⟩ := hfile hfinds
      rw [if_pos rfl]
      exact iff_of_false (makeETag_ne f) (by decide)

/-- An etag that is not empty is the one of the file. -/
theorem tag_of_ne_empty (h : op.tag codec file ≠ "") :
    ∃ f, file = some f ∧ op.tag codec file = makeETag f := by
  cases file with
  | none =>
      refine absurd ?_ h
      unfold Operation.tag
      split_ifs
      · rfl
      · rfl
  | some f =>
      refine ⟨f, rfl, ?_⟩
      unfold Operation.tag at h ⊢
      split_ifs at h ⊢
      · rfl
      · exact absurd rfl h

theorem look_conditional {r : Except AccountError (Reading κ)} (h : op.look file r = none) :
    op.conditional = false := by
  cases op with
  | updateDescription desc => cases h
  | deleteDescription => cases h
  | updateUser who user => cases h
  | deleteUser who => cases h
  | setUserPassword who pw => rfl
  | setKeys keys => rfl

theorem not_failed_of_check {method : String} {headers : Headers} {tag : Text}
    (h : checkPreconditions method headers tag = none) : ¬ Failed tag headers := by
  unfold checkPreconditions at h
  by_cases hmatch : headers.ifMatch ≠ [] ∧ etagMatch tag headers.ifMatch = false
  · rw [if_pos hmatch] at h
    cases h
  · rw [if_neg hmatch] at h
    by_cases hnone : headers.ifNoneMatch ≠ [] ∧ etagMatch tag headers.ifNoneMatch = true
    · rw [if_pos hnone] at h
      split_ifs at h
    · exact fun hfailed => hfailed.elim hmatch hnone

end Tags

section Conditions
variable {κ : Type} {codec : KeyCodec κ} {parseKeys : List κ → Bool} {file : Option File}
  {s t : Store κ} {e : Event κ} {request : Request κ} {created : Bool} {before after : Option File}

/-- What waits has met its conditions, and what is done has met them where it was done. -/
structure Checked (codec : KeyCodec κ) (s : Store κ) : Prop where
  pending : ∀ request etag, (request, etag) ∈ s.pending → request.operation.conditional = true →
    ¬ Failed etag.toList request.headers
  done : ∀ request created before after, .done request created before after ∈ s.log →
    request.operation.conditional = true →
    ¬ Failed (request.operation.tag codec before).toList request.headers ∧
      (created = true ↔
        request.operation.puts = true ∧ request.operation.finds codec before = false)

def Event.isDone : Event κ → Bool
  | .done .. => true
  | _ => false

theorem mem_of_isDone {log : List (Event κ)} (he : e.isDone = false)
    (h : .done request created before after ∈ log ++ [e]) :
    .done request created before after ∈ log := by
  rcases List.mem_append.mp h with h | h
  · exact h
  · rw [← List.mem_singleton.mp h] at he
    cases he

theorem Checked.append (hs : Checked codec s) (he : e.isDone = false) :
    Checked codec (s.append e) :=
  ⟨hs.pending, fun _ _ _ _ h => hs.done _ _ _ _ (mem_of_isDone he h)⟩

theorem Checked.wait {etag : String} (hs : Checked codec s)
    (h : request.operation.conditional = true → ¬ Failed etag.toList request.headers) :
    Checked codec { s with pending := s.pending ++ [(request, etag)] } := by
  refine ⟨fun request' etag' hmem hcond => ?_, hs.done⟩
  rcases List.mem_append.mp hmem with hmem | hmem
  · exact hs.pending _ _ hmem hcond
  · obtain ⟨rfl, rfl⟩ := Prod.mk.inj (List.mem_singleton.mp hmem)
    exact h hcond

theorem checked_step {l : Label κ} (hs : Checked codec s)
    (h : step codec parseKeys s l = some t) : Checked codec t := by
  cases l with
  | get target headers inherited =>
      obtain rfl := Option.some.inj h
      unfold Store.get
      cases target.body (s.getDescription codec inherited) with
      | error e => exact hs.append rfl
      | ok answer =>
          dsimp only
          cases checkPreconditions "GET" headers answer.2.toList with
          | some refusal => exact hs.append rfl
          | none => exact hs.append rfl
  | look request inherited =>
      obtain rfl := Option.some.inj h
      unfold Store.look
      cases hlook : request.operation.look s.file (s.getDescription codec inherited) with
      | none =>
          refine hs.wait fun hcond => ?_
          rw [look_conditional hlook] at hcond
          cases hcond
      | some found =>
          obtain ⟨method, e | etag⟩ := found
          · exact hs.append rfl
          · dsimp only
            cases hcheck : checkPreconditions method request.headers etag.toList with
            | some refusal => exact hs.append rfl
            | none => exact hs.wait fun _ => not_failed_of_check hcheck
  | commit i size modTime =>
      obtain ⟨⟨request, etag⟩, hi, rfl⟩ := Option.map_eq_some_iff.mp h
      have hrest : Checked codec { s with pending := s.pending.eraseIdx i } :=
        ⟨fun _ _ hmem => hs.pending _ _ (List.mem_of_mem_eraseIdx hmem), hs.done⟩
      unfold Store.commit
      dsimp only
      cases hrun : request.operation.run codec parseKeys s.writableGroups s.file etag with
      | error e => exact hrest.append rfl
      | ok content =>
          refine ⟨hrest.pending, fun request' created before after hmem hcond => ?_⟩
          rcases List.mem_append.mp hmem with hmem | hmem
          · exact hs.done _ _ _ _ hmem hcond
          · obtain ⟨rfl, rfl, rfl, rfl⟩ := Event.done.inj (List.mem_singleton.mp hmem)
            have htag := run_tag hcond hrun
            refine ⟨htag ▸ hs.pending _ _ (List.mem_of_getElem? hi) hcond, ?_⟩
            rw [← tag_eq_empty, htag, Bool.and_eq_true, decide_eq_true_eq]
  | edit file time =>
      obtain rfl := Option.some.inj h
      exact Checked.append ⟨hs.pending, hs.done⟩ rfl
  | configure writableGroups =>
      obtain rfl := Option.some.inj h
      exact ⟨hs.pending, hs.done⟩
  | read =>
      obtain ⟨r, -, rfl⟩ := step_read h
      exact ⟨hs.pending, hs.done⟩
  | add i =>
      obtain ⟨r, -, rfl⟩ := Option.map_eq_some_iff.mp h
      exact ⟨hs.pending, hs.done⟩
  | drop =>
      obtain rfl := Option.some.inj h
      exact ⟨hs.pending, hs.done⟩

def Event.creates : Event κ → Bool
  | .done request created _ _ => request.operation.conditional && created
  | _ => false

end Conditions

/-! ## Versions -/

section Versions
variable {κ : Type} {codec : KeyCodec κ} {parseKeys : List κ → Bool} {file : Option File}
  {s t : Store κ} {e : Event κ} {files : List File}

theorem open_stamp {f : File} {r : Reading κ} (h : openDescription codec (some f) = .ok r) :
    r.modTime = f.modTime := by
  unfold openDescription at h
  dsimp only at h
  cases hread : readDescription codec f.content with
  | error e =>
      rw [hread] at h
      cases h
  | ok d =>
      rw [hread] at h
      cases h
      rfl

/-- What is in memory is what the file says, where it is used. -/
theorem Genuine.memory_agrees (hg : Genuine codec files s)
    (inherited : Except AccountError (Reading κ)) :
    s.getDescription codec inherited = getDescription codec s.file none inherited := by
  unfold Store.getDescription getDescription
  cases hfile : s.file with
  | none => rfl
  | some f =>
      cases hmemory : s.memory with
      | none => rfl
      | some r =>
          dsimp only
          by_cases hsame : descriptionUnchanged f r
          · obtain ⟨g, hmem, hopen⟩ := hg.memory r hmemory
            have hfg : g = f := hg.unique g hmem f (hg.file f hfile)
              ((open_stamp hopen).symm.trans hsame.2.2.symm)
            rw [if_pos hsame, ← hopen, hfg]
          · rw [if_neg hsame]

theorem Genuine.append (hg : Genuine codec files s)
    (hread : ∀ target body etag, e = .read false target body etag →
      ∃ f ∈ files, target.body (openDescription codec (some f)) = .ok (body, etag))
    (hdone : e.isDone = false) : Genuine codec files (s.append e) where
  unique := hg.unique
  past := hg.past
  file := hg.file
  memory := hg.memory
  readings := hg.readings
  reads target body etag h := by
    rcases List.mem_append.mp h with h | h
    · exact hg.reads _ _ _ h
    · exact hread _ _ _ (List.mem_singleton.mp h).symm
  befores request created before after h := hg.befores _ _ _ _ (mem_of_isDone hdone h)

/-- The file is changed, at a time that is later than all before. -/
theorem Genuine.change (hg : Genuine codec files s) {time : ℤ} (htime : s.clock < time)
    (hfile : ∀ f ∈ file, f.modTime = time) (pending : List (Request κ × String))
    (hread : ∀ target body etag, e ≠ .read false target body etag)
    (hdone : ∀ request created before after, e = .done request created before after →
      before = s.file) :
    ∃ files, Genuine codec files
      ({ s with file, clock := max s.clock time, pending }.append e) := by
  have hread' {r : Reading κ} (h : ReadOf codec files r) :
      ReadOf codec (files ++ file.toList) r := by
    obtain ⟨f, hf, hopen⟩ := h
    exact ⟨f, List.mem_append_left _ hf, hopen⟩
  have hnew {f : File} (hf : f ∈ file.toList) : f.modTime = time ∧ file = some f :=
    ⟨hfile f (Option.mem_toList.mp hf), Option.mem_toList.mp hf⟩
  refine ⟨files ++ file.toList, ⟨fun f hf g hg' hfg => ?_, fun f hf => ?_, fun f hf => ?_,
    fun r hr => hread' (hg.memory r hr), fun r hr => hread' (hg.readings r hr),
    fun target body etag h => ?_, fun request created before after h f hf => ?_⟩⟩
  · rcases List.mem_append.mp hf with hf | hf
    · rcases List.mem_append.mp hg' with hg' | hg'
      · exact hg.unique f hf g hg' hfg
      · have hpast := hg.past f hf
        have hg'' := (hnew hg').1
        omega
    · rcases List.mem_append.mp hg' with hg' | hg'
      · have hpast := hg.past g hg'
        have hf' := (hnew hf).1
        omega
      · exact Option.some.inj ((hnew hf).2.symm.trans (hnew hg').2)
  · change f.modTime ≤ max s.clock time
    rcases List.mem_append.mp hf with hf | hf
    · exact (hg.past f hf).trans (le_max_left ..)
    · rw [(hnew hf).1]
      exact le_max_right ..
  · exact List.mem_append_right _ (Option.mem_toList.mpr hf)
  · rcases List.mem_append.mp h with h | h
    · obtain ⟨f, hf, hbody⟩ := hg.reads _ _ _ h
      exact ⟨f, List.mem_append_left _ hf, hbody⟩
    · exact absurd (List.mem_singleton.mp h).symm (hread target body etag)
  · refine List.mem_append_left _ ?_
    rcases List.mem_append.mp h with h | h
    · exact hg.befores _ _ _ _ h f hf
    · rw [hdone _ _ _ _ (List.mem_singleton.mp h).symm] at hf
      exact hg.file f hf

theorem genuine_step {l : Label κ} (hg : Genuine codec files s) (hok : Ticks s l)
    (h : step codec parseKeys s l = some t) : ∃ files, Genuine codec files t := by
  cases l with
  | get target headers inherited =>
      obtain rfl := Option.some.inj h
      refine ⟨files, ?_⟩
      unfold Store.get
      cases hbody : target.body (s.getDescription codec inherited) with
      | error e => exact hg.append (fun _ _ _ h => (by cases h)) rfl
      | ok answer =>
          dsimp only
          cases checkPreconditions "GET" headers answer.2.toList with
          | some refusal => exact hg.append (fun _ _ _ h => (by cases h)) rfl
          | none =>
              refine hg.append (fun target' body etag he => ?_) rfl
              obtain ⟨hown, rfl, rfl, rfl⟩ := Event.read.inj he
              cases hfile : s.file with
              | none =>
                  rw [hfile] at hown
                  cases hown
              | some f =>
                  refine ⟨f, hg.file f hfile, ?_⟩
                  rw [hg.memory_agrees, hfile] at hbody
                  exact hbody
  | look request inherited =>
      obtain rfl := Option.some.inj h
      refine ⟨files, ?_⟩
      have hwait (etag : String) :
          Genuine codec files { s with pending := s.pending ++ [(request, etag)] } :=
        ⟨hg.unique, hg.past, hg.file, hg.memory, hg.readings, hg.reads, hg.befores⟩
      unfold Store.look
      rcases request.operation.look s.file (s.getDescription codec inherited) with
        _ | ⟨method, e | etag⟩
      · exact hwait ""
      · exact hg.append (fun _ _ _ h => (by cases h)) rfl
      · dsimp only
        cases checkPreconditions method request.headers etag.toList with
        | some refusal => exact hg.append (fun _ _ _ h => (by cases h)) rfl
        | none => exact hwait etag
  | commit i size modTime =>
      obtain ⟨⟨request, etag⟩, -, rfl⟩ := Option.map_eq_some_iff.mp h
      have hrest : Genuine codec files { s with pending := s.pending.eraseIdx i } :=
        ⟨hg.unique, hg.past, hg.file, hg.memory, hg.readings, hg.reads, hg.befores⟩
      unfold Store.commit
      dsimp only
      cases request.operation.run codec parseKeys s.writableGroups s.file etag with
      | error e => exact ⟨files, hrest.append (fun _ _ _ h => (by cases h)) rfl⟩
      | ok content =>
          refine hg.change (of_decide_eq_true hok) (fun f hf => ?_) _
            (fun _ _ _ h => (by cases h)) fun _ _ _ _ h => (Event.done.inj h).2.2.1.symm
          obtain ⟨c, -, rfl⟩ := Option.map_eq_some_iff.mp hf
          rfl
  | edit file time =>
      obtain rfl := Option.some.inj h
      obtain ⟨htime, hfile⟩ := Bool.and_eq_true_iff.mp hok
      refine hg.change (of_decide_eq_true htime) (fun f hf => ?_) _
        (fun _ _ _ h => (by cases h)) fun _ _ _ _ h => (by cases h)
      rw [Option.mem_def.mp hf] at hfile
      exact of_decide_eq_true hfile
  | configure writableGroups =>
      obtain rfl := Option.some.inj h
      exact ⟨files, hg.unique, hg.past, hg.file, hg.memory, hg.readings, hg.reads, hg.befores⟩
  | read =>
      obtain ⟨r, hread, rfl⟩ := step_read h
      refine ⟨files, hg.unique, hg.past, hg.file, hg.memory, fun r' hr' => ?_, hg.reads,
        hg.befores⟩
      rcases List.mem_append.mp hr' with hr' | hr'
      · exact hg.readings r' hr'
      · rw [List.mem_singleton.mp hr']
        cases hfile : s.file with
        | none =>
            rw [hfile] at hread
            cases hread
        | some f =>
            rw [hfile] at hread
            exact ⟨f, hg.file f hfile, hread⟩
  | add i =>
      obtain ⟨r, hi, rfl⟩ := Option.map_eq_some_iff.mp h
      refine ⟨files, hg.unique, hg.past, hg.file, fun r' hr' => ?_,
        fun r' hr' => hg.readings r' (List.mem_of_mem_eraseIdx hr'), hg.reads, hg.befores⟩
      rw [← Option.some.inj hr']
      exact hg.readings r (List.mem_of_getElem? hi)
  | drop =>
      obtain rfl := Option.some.inj h
      exact ⟨files, hg.unique, hg.past, hg.file, fun r hr => (by cases hr), hg.readings, hg.reads,
        hg.befores⟩

theorem genuine_of_reachable (h : Reachable (system codec parseKeys file) Ticks s) :
    ∃ files, Genuine codec files s := by
  refine h.invariant (P := fun s => ∃ files, Genuine codec files s) ?_ ?_
  · rintro s ⟨clock, writableGroups, rfl, htime⟩
    refine ⟨file.toList, fun f hf g hg _ => ?_, fun f hf => htime f (Option.mem_toList.mp hf),
      fun f hf => Option.mem_toList.mpr hf, fun r hr => (by cases hr), fun r hr => (by cases hr),
      fun _ _ _ h => (by cases h), fun _ _ _ _ h => (by cases h)⟩
    exact Option.some.inj ((Option.mem_toList.mp hf).symm.trans (Option.mem_toList.mp hg))
  · rintro s l t ⟨files, hg⟩ hok hstep
    exact genuine_step hg hok hstep

theorem makeETag_injective {f g : File} (h : makeETag f = makeETag g) : f.modTime = g.modTime :=
  (Token.stamp_of_etag h).2

/-- A description that is in memory is read, changed and read again. -/
def revisions : List (Label Json) :=
  [.read, .add 0, .get (.user vimes) {} (.error .notExist),
    .look { operation := .updateUser vimes { permissions := .named .present },
            headers := { ifMatch := "\"67-20\"".toList } } (.error .notExist),
    .commit 0 70 21, .get (.user vimes) {} (.error .notExist)]

theorem allowed_of_isDigit {c : Char} (h : c.isDigit = true) : allowed c = true := by
  simp only [Char.isDigit, Bool.and_eq_true, decide_eq_true_eq, UInt32.le_iff_toNat_le] at h
  simp only [allowed, Bool.or_eq_true, Bool.and_eq_true, decide_eq_true_eq, Char.toNat]
  have hlow : 48 ≤ c.val.toNat := h.1
  have hhigh : c.val.toNat ≤ 57 := h.2
  omega

theorem allowed_repr {n : ℕ} {c : Char} (h : c ∈ n.repr.toList) : allowed c = true := by
  rw [Nat.toList_repr] at h
  exact allowed_of_isDigit (Nat.isDigit_of_mem_toDigits (by decide) (by decide) h)

theorem tag_makeETag (f : File) : Tag (makeETag f).toList := by
  have hlist : (makeETag f).toList =
      '"' :: (f.size.repr.toList ++ '-' :: f.modTime.repr.toList) ++ ['"'] := by
    simp only [makeETag, toString, String.toList_append]
    simp
  have hint {c : Char} (h : c ∈ f.modTime.repr.toList) : allowed c = true := by
    unfold Int.repr at h
    split at h
    · exact allowed_repr h
    · rw [String.toList_append] at h
      rcases List.mem_append.mp h with h | h
      · obtain rfl := List.mem_singleton.mp h
        decide
      · exact allowed_repr h
  rw [hlist]
  refine .strong _ fun c hc => ?_
  rcases List.mem_append.mp hc with hc | hc
  · exact allowed_repr hc
  · rcases List.mem_cons.mp hc with rfl | hc
    · decide
    · exact hint hc

def Event.names (tag : Text) : Event κ → Bool
  | .done request _ _ _ => request.operation.conditional && request.headers.ifMatch = tag
  | _ => false

def Event.tells (who : Subject) (tag : Text) : Event κ → Bool
  | .read false (.user who') _ etag => who' = who && etag.toList = tag
  | _ => false

end Versions

end Sozvon.Group
