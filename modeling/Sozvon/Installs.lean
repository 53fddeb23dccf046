import Sozvon.JsonTexts
import Mathlib.Data.List.Destutter
import Mathlib.Data.List.Infix

/-!
# Waiting for an installer

The installer runs on by itself and leaves its state in a file, and its result in another; who
waits for it asks for the files over a connection that may drop in the middle of any command.

A pass of the loop is given by what becomes of its commands.
-/
namespace Sozvon.Deploy

section Definitions

/-- The white space and the line terminators of the language. -/
def isSpace (c : Char) : Bool :=
  let n := c.toNat
  0x9 ≤ n ∧ n ≤ 0xd ∨ n = 0x20 ∨ n = 0xa0 ∨ n = 0x1680 ∨ 0x2000 ≤ n ∧ n ≤ 0x200a ∨
    n = 0x2028 ∨ n = 0x2029 ∨ n = 0x202f ∨ n = 0x205f ∨ n = 0x3000 ∨ n = 0xfeff

def trim (s : List Char) : List Char := (s.dropWhile isSpace).rdropWhile isSpace

/-- `json[field]`; `none` is the source's `undefined`. -/
def field (name : String) : Json → Option Json
  | .obj members => (members.reverse.find? fun m => m.1 = name).map Prod.snd
  | _ => none

/-- A field that is a string. -/
def stringField (name : String) (json : Json) : Option String :=
  match field name json with
  | some (.str s) => some s
  | _ => none

/-- `===`; two objects are never the same one. -/
def strictEq : Option Json → Option Json → Bool
  | none, none | some .null, some .null => true
  | some (.bool a), some (.bool b) => a == b
  | some (.num a), some (.num b) => a == b
  | some (.str a), some (.str b) => a == b
  | _, _ => false

/-- Whether a value counts as true; a number of which all digits are 0 does not. -/
def truthy : Json → Bool
  | .null => false
  | .bool b => b
  | .num s => (s.toList.takeWhile fun c => c ≠ 'e' && c ≠ 'E').any fun c => '1' ≤ c ∧ c ≤ '9'
  | .str s => s ≠ ""
  | _ => true

inductive Command where
  | readState
  | readResult
  | removeResult
  | tail
deriving DecidableEq

/-- What becomes of a command: it fails to start, or its stream is closed, by the command's end
or by that of the connection. -/
inductive Outcome where
  | rejects (message : String)
  | closes (stdout : List Char)
deriving DecidableEq

/-- What has been done, in order. -/
inductive Act where
  | ran (c : Command)
  | parsed (result : Json)

structure StageEvent where
  stage : Option Json
  index : Option Json
  total : Option Json
  message : Option Json

structure Deployer where
  /-- `this.conn` is not null. -/
  connected : Bool := true
  log : List Act := []
  events : List StageEvent := []

inductive Failure where
  | exec (message : String)
  | noResult
  | syntaxError
  | timeout (detail : List Char)
  | connection (detail : String)
  | install (message : Option Json) (detail : List Char)

/-- One pass of the loop: the time since the start, the files as they are then, and what becomes
of the commands and of a reconnection. -/
structure Pass where
  elapsed : ℕ := 0
  stateFile : List Char := []
  cat : Outcome
  connects : Bool := true
  resultFile : List Char := []
  result : Outcome := .closes []
  removal : Outcome := .closes []
  tail : Outcome := .closes []

namespace Deployer

def exec (d : Deployer) (c : Command) (o : Outcome) : Deployer × Except String (List Char) :=
  if ¬ d.connected then (d, .error "not connected")
  else
    ({ d with log := d.log ++ [.ran c] },
      match o with
      | .rejects message => .error message
      | .closes stdout => .ok stdout)

/-- What has been read is `none` if it is not there or not whole. -/
def readState (d : Deployer) (o : Outcome) : Deployer × Except String (Option Json) :=
  let r := d.exec .readState o
  (r.1, r.2.map fun stdout => if trim stdout = [] then none else Json.parse (trim stdout))

def readResult (d : Deployer) (p : Pass) : Deployer × Except Failure Json :=
  match d.exec .readResult p.result with
  | (d, .error message) => (d, .error (.exec message))
  | (d, .ok stdout) =>
      if trim stdout = [] then (d, .error .noResult)
      else match Json.parse (trim stdout) with
        | none => (d, .error .syntaxError)
        | some parsed =>
            let d := { d with log := d.log ++ [Act.parsed parsed] }
            ((d.exec .removeResult p.removal).1, .ok parsed)

/-- The installer's log, or nothing if it cannot be had. -/
def tail (d : Deployer) (p : Pass) : Deployer × List Char :=
  let r := d.exec .tail p.tail
  (r.1, r.2.toOption.getD [])

def report (d : Deployer) (state : Json) : Deployer :=
  { d with
    events := d.events ++
      [⟨field "stage" state, field "stage_index" state, field "stage_total" state,
        field "message" state⟩] }

/-- `waitForCompletion`, from a pass of its loop on. `none` if it waits on after these. -/
def waitForCompletion (timeoutMs : ℕ) (d : Deployer) (lastStage : Option Json)
    (consecutiveErrors : ℕ) : List Pass → Deployer × Option (Except Failure Json)
  | [] => (d, none)
  | p :: rest =>
      if timeoutMs < p.elapsed then
        ((d.tail p).1, some (.error (.timeout (d.tail p).2)))
      else
        match d.readState p.cat with
        | (d, .error message) =>
            if 5 < consecutiveErrors + 1 then (d, some (.error (.connection message)))
            else
              ({ d with connected := p.connects }).waitForCompletion timeoutMs lastStage
                (consecutiveErrors + 1) rest
        | (d, .ok none) => d.waitForCompletion timeoutMs lastStage 0 rest
        | (d, .ok (some state)) =>
            if truthy state then
              let stage := field "stage" state
              let d := if strictEq stage lastStage then d else d.report state
              if stringField "status" state = some "done" then
                ((d.readResult p).1, some (d.readResult p).2)
              else if stringField "status" state = some "failed" then
                ((d.tail p).1, some (.error (.install
                  (((field "error" state).filter truthy).or (field "message" state))
                  (d.tail p).2)))
              else d.waitForCompletion timeoutMs stage 0 rest
            else d.waitForCompletion timeoutMs lastStage 0 rest

end Deployer

/-- What a poll has read, if it has not failed. -/
abbrev Poll := Option (Option Json)

def poll (connected : Bool) (p : Pass) : Poll :=
  match p.cat with
  | .rejects _ => none
  | .closes stdout =>
      if ¬ connected then none
      else some (if trim stdout = [] then none else Json.parse (trim stdout))

/-- The polls of some passes. After one that fails there is a connection if one could be made. -/
def polls (connected : Bool) : List Pass → List Poll
  | [] => []
  | p :: rest =>
      poll connected p :: polls (if (poll connected p).isSome then connected else p.connects) rest

/-- The stages of the states that polls have read. -/
def stages (polls : List Poll) : List String :=
  polls.filterMap fun poll => poll.join.bind (stringField "stage")

/-- A file that the installer has written, and has not failed. -/
structure WrittenState (s : List Char) : Prop where
  parses : ∃ members, Json.parse (trim s) = some (.obj members)
  stage : ∀ state ∈ Json.parse (trim s), (stringField "stage" state).isSome = true
  status : ∀ state ∈ Json.parse (trim s), stringField "status" state ≠ some "failed"

/-- The commands output what is in the files, or the beginning of it. -/
structure Pass.Honest (p : Pass) : Prop where
  state : trim p.stateFile = [] ∨ WrittenState p.stateFile
  cat : ∀ stdout, p.cat = .closes stdout → stdout <+: p.stateFile
  result : ∀ stdout, p.result = .closes stdout → stdout <+: p.resultFile

/-- An install, as far as the poll that reads that it is done. -/
structure Installs (timeoutMs : ℕ) (result : List (String × Json)) (before : List Pass)
    (last : Pass) : Prop where
  honest : ∀ p ∈ before ++ [last], p.Honest
  inTime : ∀ p ∈ before ++ [last], p.elapsed ≤ timeoutMs
  /-- At most five polls in a row fail. -/
  contact : ¬ List.replicate 6 none <:+: polls true (before ++ [last])
  running : ∀ state, some (some state) ∈ polls true before →
    stringField "status" state ≠ some "done"
  done : ∃ state, (polls true (before ++ [last])).getLast? = some (some (some state)) ∧
    stringField "status" state = some "done"
  file : Json.parse (trim last.resultFile) = some (.obj result)

/-- The result is removed only after it has been read and parsed. -/
def KeepsResult (log : List Act) : Prop :=
  ∀ before after, log = before ++ .ran .removeResult :: after →
    ∃ earlier result, before = earlier ++ [.ran .readResult, .parsed result]

end Definitions

/-! ## Outputs that are cut short -/

section Outputs

variable {s t : List Char}

theorem isSpace_of_isWhite {c : Char} (h : Json.isWhite c = true) : isSpace c = true := by
  have hc : c = ' ' ∨ c = '\t' ∨ c = '\n' ∨ c = '\r' := of_decide_eq_true h
  rcases hc with rfl | rfl | rfl | rfl <;> decide

theorem skip_ne_nil {l : List Char} {c : Char} (hc : c ∈ l) (h : ¬ isSpace c = true) :
    Json.skip l ≠ [] := fun hnil =>
  h (isSpace_of_isWhite (List.dropWhile_eq_nil_iff.mp hnil c hc))

theorem rdropWhile_append_of_all {p : Char → Bool} {l r : List Char} (h : ∀ c ∈ r, p c = true) :
    (l ++ r).rdropWhile p = l.rdropWhile p := by
  induction r using List.reverseRecOn with
  | nil => rw [List.append_nil]
  | append_singleton r c ih =>
      rw [← List.append_assoc, List.rdropWhile_concat_pos _ _ _ (h c (by simp))]
      exact ih fun c' hc' => h c' (List.mem_append_left _ hc')

theorem rdropWhile_append {p : Char → Bool} {l r : List Char} (h : ∃ c ∈ r, ¬ p c = true) :
    (l ++ r).rdropWhile p = l ++ r.rdropWhile p := by
  induction r using List.reverseRecOn with
  | nil =>
      obtain ⟨c, hc, -⟩ := h
      exact absurd hc List.not_mem_nil
  | append_singleton r c ih =>
      rw [← List.append_assoc]
      by_cases hc : p c = true
      · rw [List.rdropWhile_concat_pos _ _ _ hc, List.rdropWhile_concat_pos _ _ _ hc]
        obtain ⟨c', hc', hp⟩ := h
        rcases List.mem_append.mp hc' with hmem | hmem
        · exact ih ⟨c', hmem, hp⟩
        · exact absurd (List.mem_singleton.mp hmem ▸ hc) hp
      · rw [List.rdropWhile_concat_neg _ _ _ hc, List.rdropWhile_concat_neg _ _ _ hc,
          List.append_assoc]

theorem mem_rdropWhile {p : Char → Bool} {l : List Char} {c : Char} (hc : c ∈ l)
    (h : ¬ p c = true) : c ∈ l.rdropWhile p := by
  induction l using List.reverseRecOn with
  | nil => exact hc
  | append_singleton l c' ih =>
      by_cases hc' : p c' = true
      · rw [List.rdropWhile_concat_pos _ _ _ hc']
        refine ih ((List.mem_append.mp hc).resolve_right fun hmem => ?_)
        exact h (List.mem_singleton.mp hmem ▸ hc')
      · rwa [List.rdropWhile_concat_neg _ _ _ hc']

/-- What has been read of a file is all of it, white space apart, or has lost something else. -/
theorem trim_eq_or_cut (h : t <+: s) : trim t = trim s ∨ Json.Cut (trim t) (trim s) := by
  obtain ⟨rest, rfl⟩ := h
  unfold trim
  by_cases hspace : ∀ c ∈ rest, isSpace c = true
  · left
    rw [List.dropWhile_append]
    split_ifs with hempty
    · have hnil : rest.dropWhile isSpace = [] := List.dropWhile_eq_nil_iff.mpr hspace
      rw [hnil, List.isEmpty_iff.mp hempty]
    · exact (rdropWhile_append_of_all hspace).symm
  · obtain ⟨c, hc, hne⟩ : ∃ c ∈ rest, ¬ isSpace c = true := by
      by_contra hnone
      exact hspace fun c hc => not_not.mp fun hne => hnone ⟨c, hc, hne⟩
    right
    rw [List.dropWhile_append]
    split_ifs with hempty
    · rw [List.isEmpty_iff.mp hempty]
      have hmem : c ∈ rest.dropWhile isSpace := by
        have hsplit : c ∈ rest.takeWhile isSpace ++ rest.dropWhile isSpace := by
          rwa [List.takeWhile_append_dropWhile]
        exact (List.mem_append.mp hsplit).resolve_left fun htake =>
          hne (List.mem_takeWhile_imp htake)
      exact ⟨_, rfl, skip_ne_nil (mem_rdropWhile hmem hne) hne⟩
    · rw [rdropWhile_append ⟨c, hc, hne⟩]
      obtain ⟨spaces, hspaces⟩ := List.rdropWhile_prefix isSpace (l := t.dropWhile isSpace)
      refine ⟨spaces ++ rest.rdropWhile isSpace, ?_, ?_⟩
      · rw [← List.append_assoc, hspaces]
      · exact skip_ne_nil (List.mem_append_right _ (mem_rdropWhile hc hne)) hne

/-- What can be read of an object's text is the object or nothing. -/
theorem parse_output {members : List (String × Json)} (hs : Json.parse (trim s) = some (.obj members))
    (h : t <+: s) : (trim t = trim s ∧ Json.parse (trim t) = some (.obj members)) ∨
      (trim t ≠ trim s ∧ Json.parse (trim t) = none) := by
  rcases trim_eq_or_cut h with heq | hcut
  · exact .inl ⟨heq, heq ▸ hs⟩
  · have hnone : Json.parse (trim t) = none := Json.parse_cut hs hcut
    refine .inr ⟨fun heq => ?_, hnone⟩
    rw [heq, hs] at hnone
    cases hnone

end Outputs

/-! ## One pass -/

section Passes

variable {d : Deployer} {p : Pass} {connected : Bool} {state : Json}

/-- The result is left alone. -/
def Harmless (log : List Act) : Prop := ∀ a ∈ log, a ≠ .ran .removeResult

theorem Harmless.append {log acts : List Act} (h : Harmless log) (h' : Harmless acts) :
    Harmless (log ++ acts) := fun a ha => (List.mem_append.mp ha).elim (h a) (h' a)

theorem harmless_singleton {a : Act} (h : a ≠ .ran .removeResult) : Harmless [a] :=
  fun _ ha => List.mem_singleton.mp ha ▸ h

theorem Harmless.keepsResult {log : List Act} (h : Harmless log) : KeepsResult log := by
  rintro before after rfl
  exact absurd rfl (h _ (List.mem_append_right _ List.mem_cons_self))

/-- The result is removed by the very next command. -/
theorem Harmless.keepsResult_removed {log : List Act} (h : Harmless log) (result : Json) :
    KeepsResult (log ++ [.ran .readResult, .parsed result] ++ [.ran .removeResult]) := by
  intro before after heq
  have hfront : Harmless (log ++ [.ran .readResult, .parsed result]) := by
    refine h.append fun a ha => ?_
    rcases List.mem_cons.mp ha with rfl | ha
    · exact nofun
    · exact List.mem_singleton.mp ha ▸ nofun
  rcases List.append_eq_append_iff.mp heq with ⟨more, rfl, hmore⟩ | ⟨more, hbefore, hmore⟩
  · -- what is removed is not later than the last command
    cases more with
    | nil => exact ⟨log, result, by rw [List.append_nil]⟩
    | cons a more =>
        have hlength := congrArg List.length hmore
        simp at hlength
  · cases more with
    | nil =>
        rw [List.append_nil] at hbefore
        exact ⟨log, result, hbefore.symm⟩
    | cons a more =>
        have ha : a = .ran .removeResult := (List.cons.inj hmore).1.symm
        refine absurd ha (hfront a ?_)
        rw [hbefore]
        exact List.mem_append_right _ List.mem_cons_self

namespace Deployer

theorem exec_cases (d : Deployer) (c : Command) (o : Outcome) : ∃ acts,
    (∀ a ∈ acts, a = .ran c) ∧ (d.exec c o).1 = { d with log := d.log ++ acts } := by
  unfold exec
  split_ifs with h
  · exact ⟨[.ran c], fun a ha => List.mem_singleton.mp ha, rfl⟩
  · exact ⟨[], List.forall_mem_nil _, by rw [List.append_nil]⟩

/-- A command that leaves the result alone. -/
theorem exec_harmless {c : Command} (hc : c ≠ .removeResult) (o : Outcome) : ∃ acts,
    Harmless acts ∧ (d.exec c o).1 = { d with log := d.log ++ acts } := by
  obtain ⟨acts, hacts, hexec⟩ := d.exec_cases c o
  refine ⟨acts, fun a ha heq => hc ?_, hexec⟩
  exact Act.ran.inj ((hacts a ha).symm.trans heq)

/-- What the loop goes by is what the poll has read. -/
theorem readState_cases (d : Deployer) (p : Pass) : ∃ acts, Harmless acts ∧
    ((poll d.connected p = none ∧
        ∃ message, d.readState p.cat = ({ d with log := d.log ++ acts }, .error message)) ∨
      ∃ state, poll d.connected p = some state ∧
        d.readState p.cat = ({ d with log := d.log ++ acts }, .ok state)) := by
  obtain ⟨acts, hacts, hexec⟩ := d.exec_harmless (c := .readState) nofun p.cat
  refine ⟨acts, hacts, ?_⟩
  rw [readState, hexec]
  unfold poll exec
  cases hcat : p.cat with
  | rejects message =>
      left
      refine ⟨rfl, ?_⟩
      cases d.connected
      · exact ⟨_, rfl⟩
      · exact ⟨_, rfl⟩
  | closes stdout =>
      cases d.connected
      · exact .inl ⟨rfl, _, rfl⟩
      · exact .inr ⟨_, rfl, rfl⟩

end Deployer

/-- A state that has been read has been written. -/
theorem poll_written (h : p.Honest) (hpoll : poll connected p = some (some state)) :
    connected = true ∧ truthy state = true ∧ (∃ s, field "stage" state = some (.str s) ∧
      stringField "stage" state = some s) ∧ stringField "status" state ≠ some "failed" := by
  unfold poll at hpoll
  cases hcat : p.cat with
  | rejects message => rw [hcat] at hpoll; cases hpoll
  | closes stdout =>
      rw [hcat] at hpoll
      dsimp only at hpoll
      split_ifs at hpoll with hconnected hempty
      · cases hpoll
      have hparse : Json.parse (trim stdout) = some state := Option.some.inj hpoll
      refine ⟨hconnected, ?_⟩
      have houtput := h.cat stdout hcat
      rcases h.state with hnone | hwritten
      · rcases trim_eq_or_cut houtput with heq | ⟨lost, hlost, hskip⟩
        · exact absurd (heq.trans hnone) hempty
        · rw [hnone] at hlost
          rw [(List.append_eq_nil_iff.mp hlost.symm).2] at hskip
          exact absurd rfl hskip
      · obtain ⟨members, hmembers⟩ := hwritten.parses
        rcases parse_output hmembers houtput with ⟨-, hobj⟩ | ⟨-, hnone⟩
        · obtain rfl : state = .obj members := Option.some.inj (hparse.symm.trans hobj)
          refine ⟨rfl, ?_, hwritten.status _ hmembers⟩
          have hstage := hwritten.stage _ hmembers
          unfold stringField at hstage ⊢
          split at hstage
          · rename_i s hs
            exact ⟨s, hs, rfl⟩
          · cases hstage
        · rw [hparse] at hnone
          cases hnone

namespace Deployer

theorem readResult_events (d : Deployer) (p : Pass) : (d.readResult p).1.events = d.events := by
  obtain ⟨acts, -, hexec⟩ := d.exec_cases .readResult p.result
  unfold readResult
  generalize hr : d.exec .readResult p.result = r at hexec
  obtain ⟨d', answer⟩ := r
  obtain rfl : d' = _ := hexec
  cases answer with
  | error message => rfl
  | ok stdout =>
      dsimp only
      split_ifs
      · rfl
      · split
        · rfl
        · obtain ⟨acts', -, hremove⟩ := exec_cases
            { d with log := d.log ++ acts ++ [Act.parsed _] } .removeResult p.removal
          exact (congrArg events hremove).trans rfl

/-- The result is returned just when the command that reads it outputs all of it. -/
theorem readResult_iff {result : List (String × Json)} (hconnected : d.connected = true)
    (h : p.Honest) (hfile : Json.parse (trim p.resultFile) = some (.obj result)) :
    (d.readResult p).2 = .ok (.obj result) ↔
      ∃ stdout, p.result = .closes stdout ∧ trim stdout = trim p.resultFile := by
  have hexec : d.exec .readResult p.result = ({ d with log := d.log ++ [.ran .readResult] },
      match p.result with
      | .rejects message => .error message
      | .closes stdout => .ok stdout) := if_neg (not_not.mpr hconnected)
  unfold readResult
  rw [hexec]
  cases hresult : p.result with
  | rejects message =>
      refine iff_of_false nofun ?_
      rintro ⟨stdout, hcloses, -⟩
      cases hcloses
  | closes stdout =>
      have hout : (∃ out, Outcome.closes stdout = .closes out ∧ trim out = trim p.resultFile) ↔
          trim stdout = trim p.resultFile :=
        ⟨fun ⟨_, heq, htrim⟩ => Outcome.closes.inj heq ▸ htrim, fun htrim => ⟨_, rfl, htrim⟩⟩
      rw [hout]
      dsimp only
      rcases parse_output hfile (h.result stdout hresult) with ⟨heq, hparse⟩ | ⟨hne, hparse⟩
      · have hsome : trim stdout ≠ [] := by
          intro hnil
          rw [hnil] at hparse
          cases hparse
        rw [if_neg hsome, hparse]
        exact iff_of_true rfl heq
      · refine iff_of_false ?_ hne
        rw [hparse]
        split_ifs <;> exact nofun

theorem tail_harmless (d : Deployer) (p : Pass) (h : Harmless d.log) :
    Harmless (d.tail p).1.log := by
  obtain ⟨acts, hacts, hexec⟩ := d.exec_harmless (c := .tail) nofun p.tail
  have htail : (d.tail p).1 = (d.exec .tail p.tail).1 := rfl
  rw [htail, hexec]
  exact h.append hacts

theorem readResult_keeps (d : Deployer) (p : Pass) (h : Harmless d.log) :
    KeepsResult (d.readResult p).1.log := by
  unfold readResult
  by_cases hconnected : d.connected = true
  · have hexec : d.exec .readResult p.result = ({ d with log := d.log ++ [.ran .readResult] },
        match p.result with
        | .rejects message => .error message
        | .closes stdout => .ok stdout) := if_neg (not_not.mpr hconnected)
    have hread : Harmless (d.log ++ [.ran .readResult]) := h.append (harmless_singleton nofun)
    rw [hexec]
    cases p.result with
    | rejects message => exact hread.keepsResult
    | closes stdout =>
        dsimp only
        split_ifs
        · exact hread.keepsResult
        · split
          · exact hread.keepsResult
          · rename_i parsed _
            have hremove : (({ d with log := d.log ++ [.ran .readResult] ++ [Act.parsed parsed] } :
                Deployer).exec .removeResult p.removal).1.log =
                d.log ++ [.ran .readResult, .parsed parsed] ++ [.ran .removeResult] := by
              unfold exec
              dsimp only
              rw [if_neg (not_not.mpr hconnected), List.append_assoc d.log]
              rfl
            rw [hremove]
            exact h.keepsResult_removed parsed
  · have hexec : d.exec .readResult p.result = (d, .error "not connected") := if_pos hconnected
    rw [hexec]
    exact h.keepsResult

/-- However the commands end. -/
theorem waitForCompletion_keeps (timeoutMs : ℕ) (passes : List Pass) (d : Deployer)
    (lastStage : Option Json) (n : ℕ) (h : Harmless d.log) :
    KeepsResult (d.waitForCompletion timeoutMs lastStage n passes).1.log := by
  induction passes generalizing d lastStage n with
  | nil => exact h.keepsResult
  | cons p passes ih =>
      rw [waitForCompletion]
      by_cases htime : timeoutMs < p.elapsed
      · rw [if_pos htime]
        exact (d.tail_harmless p h).keepsResult
      · rw [if_neg htime]
        obtain ⟨acts, hacts, ⟨-, message, hread⟩ | ⟨state, -, hread⟩⟩ := d.readState_cases p
        · rw [hread]
          dsimp only
          split_ifs
          · exact (h.append hacts).keepsResult
          · exact ih _ _ _ (h.append hacts)
        · rw [hread]
          cases state with
          | none => exact ih _ _ _ (h.append hacts)
          | some state =>
              dsimp only
              split_ifs
              all_goals first
                | exact readResult_keeps _ _ (h.append hacts)
                | exact (tail_harmless _ _ (h.append hacts)).keepsResult
                | exact ih _ _ _ (h.append hacts)

end Deployer

end Passes

/-! ## The loop -/

section Loop

variable {timeoutMs : ℕ} {result : List (String × Json)}

/-- The stages other than the one before, of which there may be none yet. -/
def changes : Option String → List String → List String
  | _, [] => []
  | last, s :: l => if last = some s then changes last l else s :: changes (some s) l

theorem changes_some (a : String) (l : List String) :
    a :: changes (some a) l = l.destutter' (· ≠ ·) a := by
  induction l generalizing a with
  | nil => rfl
  | cons s l ih =>
      rw [changes, List.destutter']
      by_cases heq : a = s
      · rw [if_pos (congrArg some heq), if_neg (not_not.mpr heq)]
        exact ih a
      · rw [if_neg fun h => heq (Option.some.inj h), if_pos heq, ih]

theorem changes_none (l : List String) : changes none l = l.destutter (· ≠ ·) := by
  cases l with
  | nil => rfl
  | cons s l => exact (if_neg nofun).trans (changes_some s l)

/-- The source's `lastStage`, which is `null` before the first. -/
def lastStage : Option String → Option Json
  | none => some .null
  | some s => some (.str s)

theorem strictEq_lastStage (s : String) (last : Option String) :
    strictEq (some (.str s)) (lastStage last) = true ↔ last = some s := by
  cases last with
  | none => exact iff_of_false nofun nofun
  | some s' =>
      rw [Option.some.injEq]
      exact (beq_iff_eq (a := s) (b := s')).trans eq_comm

/-- The stages of the events after a state. -/
theorem report_stages {d : Deployer} {state : Json} {s : String} (last : Option String)
    (h : field "stage" state = some (.str s)) (l : List String) :
    ((if strictEq (some (.str s)) (lastStage last) then d else d.report state).events.map
        (·.stage)) ++ (changes (some s) l).map (fun s => some (Json.str s)) =
      d.events.map (·.stage) ++ (changes last (s :: l)).map (fun s => some (Json.str s)) := by
  rw [changes]
  by_cases hsame : last = some s
  · rw [if_pos ((strictEq_lastStage s last).mpr hsame), if_pos hsame, hsame]
  · rw [if_neg fun heq => hsame ((strictEq_lastStage s last).mp heq), if_neg hsame]
    simp [Deployer.report, h]

theorem polls_cons (connected : Bool) (p : Pass) (rest : List Pass) : polls connected (p :: rest) =
    poll connected p ::
      polls (if (poll connected p).isSome then connected else p.connects) rest := rfl

theorem polls_getLast? (connected : Bool) (before : List Pass) (last : Pass) (x : Poll) :
    (x :: polls connected (before ++ [last])).getLast? =
      (polls connected (before ++ [last])).getLast? := by
  obtain ⟨y, l, hl⟩ : ∃ y l, polls connected (before ++ [last]) = y :: l := by
    cases before with
    | nil => exact ⟨_, _, rfl⟩
    | cons p before => exact ⟨_, _, rfl⟩
  rw [hl, List.getLast?_cons_cons]

/-- One failure more is not the sixth in a row. -/
theorem contact_failed {n : ℕ} {l : List Poll}
    (h : ¬ List.replicate 6 none <:+: List.replicate n none ++ none :: l) :
    ¬ 5 < n + 1 ∧ ¬ List.replicate 6 none <:+: List.replicate (n + 1) none ++ l := by
  have hfailures : List.replicate n none ++ none :: l = List.replicate (n + 1) none ++ l := by
    rw [List.replicate_succ', List.append_assoc]
    rfl
  rw [hfailures] at h
  refine ⟨fun hmany => h ?_, h⟩
  refine List.IsInfix.trans ?_ (List.prefix_append ..).isInfix
  obtain ⟨k, hk⟩ := Nat.exists_eq_add_of_le (Nat.succ_le_of_lt hmany)
  rw [hk, List.replicate_add]
  exact (List.prefix_append ..).isInfix

/-- A poll that gets through starts the count again. -/
theorem contact_read {n : ℕ} {x : Poll} {l : List Poll}
    (h : ¬ List.replicate 6 none <:+: List.replicate n none ++ x :: l) :
    ¬ List.replicate 6 none <:+: List.replicate 0 none ++ l := fun hmany =>
  h (hmany.trans ((List.suffix_cons ..).trans (List.suffix_append ..)).isInfix)

/-- The pass that reads that the installer is done. -/
theorem waits_last {last : Pass} (rest : List Pass) (hhonest : last.Honest)
    (htime : last.elapsed ≤ timeoutMs)
    (hfile : Json.parse (trim last.resultFile) = some (.obj result))
    (d : Deployer) (stage : Option String) (n : ℕ) {state : Json}
    (hpoll : poll d.connected last = some (some state))
    (hdone : stringField "status" state = some "done") :
    let r := d.waitForCompletion timeoutMs (lastStage stage) n (last :: rest)
    r.1.events.map (·.stage) = d.events.map (·.stage) ++
        (changes stage (stages (polls d.connected [last]))).map (fun s => some (Json.str s)) ∧
      (r.2 = some (.ok (.obj result)) ↔
        ∃ stdout, last.result = .closes stdout ∧ trim stdout = trim last.resultFile) := by
  obtain ⟨hconnected, htruthy, ⟨s, hs, hstage⟩, -⟩ := poll_written hhonest hpoll
  have hstages : stages (polls d.connected [last]) = [s] := by
    rw [polls_cons, hpoll]
    exact congrArg (fun o => List.filterMap id [o]) hstage
  obtain ⟨acts, -, ⟨hfail, -⟩ | ⟨read, hread, heq⟩⟩ := d.readState_cases last
  · rw [hpoll] at hfail
    cases hfail
  · obtain rfl := Option.some.inj (hpoll.symm.trans hread)
    rw [Deployer.waitForCompletion, if_neg (not_lt.mpr htime), heq, hstages]
    dsimp only
    rw [if_pos htruthy, if_pos hdone, hs]
    have hevents := report_stages (d := { d with log := d.log ++ acts }) stage hs []
    have hstill : (if strictEq (some (.str s)) (lastStage stage) then
        ({ d with log := d.log ++ acts } : Deployer)
        else ({ d with log := d.log ++ acts } : Deployer).report state).connected = true := by
      split_ifs <;> exact hconnected
    refine ⟨?_, ?_⟩
    · rw [Deployer.readResult_events, ← hevents]
      exact (List.append_nil _).symm
    · rw [Option.some.injEq]
      exact Deployer.readResult_iff hstill hhonest hfile

/-- From any pass on, if the failures so far and those to come are never six in a row. -/
theorem waits {before : List Pass} {last : Pass} (rest : List Pass)
    (hhonest : ∀ p ∈ before ++ [last], p.Honest)
    (htime : ∀ p ∈ before ++ [last], p.elapsed ≤ timeoutMs)
    (hfile : Json.parse (trim last.resultFile) = some (.obj result))
    (d : Deployer) (stage : Option String) (n : ℕ)
    (hcontact : ¬ List.replicate 6 none <:+:
      List.replicate n none ++ polls d.connected (before ++ [last]))
    (hrunning : ∀ state, some (some state) ∈ polls d.connected before →
      stringField "status" state ≠ some "done")
    (hdone : ∃ state, (polls d.connected (before ++ [last])).getLast? = some (some (some state)) ∧
      stringField "status" state = some "done") :
    let r := d.waitForCompletion timeoutMs (lastStage stage) n (before ++ last :: rest)
    r.1.events.map (·.stage) = d.events.map (·.stage) ++
        (changes stage (stages (polls d.connected (before ++ [last])))).map
          (fun s => some (Json.str s)) ∧
      (r.2 = some (.ok (.obj result)) ↔
        ∃ stdout, last.result = .closes stdout ∧ trim stdout = trim last.resultFile) := by
  induction before generalizing d stage n with
  | nil =>
      obtain ⟨state, hpoll, hstatus⟩ := hdone
      exact waits_last rest (hhonest last List.mem_cons_self) (htime last List.mem_cons_self) hfile
        d stage n (Option.some.inj hpoll) hstatus
  | cons p before ih =>
      have hp : p ∈ p :: before ++ [last] := List.mem_cons_self
      have hrest : ∀ q ∈ before ++ [last], q ∈ p :: before ++ [last] :=
        fun q hq => List.mem_cons_of_mem _ hq
      have ih := ih (fun q hq => hhonest q (hrest q hq)) fun q hq => htime q (hrest q hq)
      rw [List.cons_append, polls_cons] at hcontact hdone
      rw [polls_cons] at hrunning
      rw [polls_getLast?] at hdone
      rw [List.cons_append, Deployer.waitForCompletion, if_neg (not_lt.mpr (htime p hp)),
        List.cons_append, polls_cons]
      obtain ⟨acts, -, ⟨hpoll, message, heq⟩ | ⟨read, hpoll, heq⟩⟩ := d.readState_cases p
      · rw [hpoll] at hcontact hdone hrunning ⊢
        obtain ⟨hcount, hnext⟩ := contact_failed hcontact
        rw [heq]
        dsimp only
        rw [if_neg hcount]
        exact ih ⟨p.connects, d.log ++ acts, d.events⟩ stage (n + 1) hnext
          (fun state hstate => hrunning state (List.mem_cons_of_mem _ hstate)) hdone
      · rw [hpoll] at hcontact hdone hrunning ⊢
        have hnext := contact_read hcontact
        have hrunning' : ∀ state, some (some state) ∈ polls d.connected before →
            stringField "status" state ≠ some "done" :=
          fun state hstate => hrunning state (List.mem_cons_of_mem _ hstate)
        rw [heq]
        cases read with
        | none => exact ih ⟨d.connected, d.log ++ acts, d.events⟩ stage 0 hnext hrunning' hdone
        | some state =>
            obtain ⟨-, htruthy, ⟨s, hs, hstage⟩, hfailed⟩ := poll_written (hhonest p hp) hpoll
            have hnot := hrunning state List.mem_cons_self
            dsimp only
            rw [if_pos htruthy, if_neg hnot, if_neg hfailed, hs]
            have hevents := report_stages (d := { d with log := d.log ++ acts }) stage hs
              (stages (polls d.connected (before ++ [last])))
            have hstages : stages (some (some state) :: polls d.connected (before ++ [last])) =
                s :: stages (polls d.connected (before ++ [last])) :=
              List.filterMap_cons_some hstage
            generalize hd' : (if strictEq (some (.str s)) (lastStage stage) then
              ({ d with log := d.log ++ acts } : Deployer)
              else ({ d with log := d.log ++ acts } : Deployer).report state) = d' at hevents ⊢
            have hconnected : d'.connected = d.connected := by
              rw [← hd']
              split_ifs <;> rfl
            obtain ⟨hreported, hreturned⟩ := ih d' (some s) 0 (hconnected ▸ hnext)
              (hconnected ▸ hrunning') (hconnected ▸ hdone)
            rw [hconnected] at hreported
            refine ⟨?_, hreturned⟩
            rw [Option.isSome_some, if_pos rfl, hstages, ← hevents]
            exact hreported

/-- Stages are reported as they change, and the result is returned just when the command
that reads it is not cut short; it is never removed before. -/
theorem survives (timeoutMs : ℕ) :
    (∀ passes, KeepsResult (Deployer.waitForCompletion timeoutMs {} (some .null) 0 passes).1.log) ∧
    ∀ result before last rest, Installs timeoutMs result before last →
      let r := Deployer.waitForCompletion timeoutMs {} (some .null) 0 (before ++ last :: rest)
      r.1.events.map (·.stage) =
          ((stages (polls true (before ++ [last]))).destutter (· ≠ ·)).map
            (fun s => some (Json.str s)) ∧
        (r.2 = some (.ok (.obj result)) ↔
          ∃ stdout, last.result = .closes stdout ∧ trim stdout = trim last.resultFile) := by
  refine ⟨fun passes => ?_, fun result before last rest h => ?_⟩
  · exact Deployer.waitForCompletion_keeps timeoutMs passes {} _ 0 (List.forall_mem_nil _)
  · rw [← changes_none]
    exact waits rest h.honest h.inTime h.file {} none 0 h.contact h.running h.done

def stateText : List Char := "\x7b\"stage\": \"starting\", \"status\": \"done\"\x7d\n".toList

def resultText : List Char := "\x7b\"admin_password\": \"p\"\x7d\n".toList

/-- The connection has dropped before the first poll. -/
def dropped : Pass := { cat := .rejects "Not connected" }

/-- The state is read; what becomes of the result is open. -/
def finished (o : Outcome) : Pass :=
  { stateFile := stateText, cat := .closes stateText, resultFile := resultText, result := o }

def isObj : Json → Bool
  | .obj _ => true
  | _ => false

theorem exists_obj {s : List Char} (h : (Json.parse s).any isObj = true) :
    ∃ members, Json.parse s = some (.obj members) := by
  cases hs : Json.parse s with
  | none => rw [hs] at h; cases h
  | some v =>
      rw [hs] at h
      cases v with
      | obj members => exact ⟨members, rfl⟩
      | _ => cases h

theorem installs {o : Outcome} (h : ∀ stdout, o = .closes stdout → stdout <+: resultText) :
    ∃ members, Installs 1000 members [dropped] (finished o) := by
  obtain ⟨members, hmembers⟩ : ∃ members, Json.parse (trim resultText) = some (.obj members) :=
    exists_obj (by decide +kernel)
  obtain ⟨state, hstate⟩ : ∃ state, Json.parse (trim stateText) = some (.obj state) :=
    exists_obj (by decide +kernel)
  have hstage : ∀ v ∈ Json.parse (trim stateText), (stringField "stage" v).isSome = true := by
    decide +kernel
  have hstatus : ∀ v ∈ Json.parse (trim stateText), stringField "status" v ≠ some "failed" := by
    decide +kernel
  have hpolls : polls true ([dropped] ++ [finished o]) =
      [none, some (some (.obj state))] := by
    have hpoll : poll true (finished o) = some (Json.parse (trim stateText)) :=
      congrArg some (if_neg (by decide +kernel))
    rw [hstate] at hpoll
    rw [← hpoll]
    rfl
  refine ⟨members, ?_, ?_, ?_, ?_, ?_, hmembers⟩
  · intro p hp
    rcases List.mem_cons.mp hp with rfl | hp
    · exact ⟨.inl rfl, nofun, fun _ hout => Outcome.closes.inj hout ▸ List.nil_prefix⟩
    · obtain rfl := List.mem_singleton.mp hp
      refine ⟨.inr ⟨⟨state, hstate⟩, hstage, hstatus⟩, ?_, h⟩
      exact fun _ hout => Outcome.closes.inj hout ▸ List.prefix_refl _
  · intro p hp
    rcases List.mem_cons.mp hp with rfl | hp
    · exact Nat.zero_le _
    · exact List.mem_singleton.mp hp ▸ Nat.zero_le _
  · rw [hpolls]
    intro hmany
    have hlength : 6 ≤ 2 := hmany.length_le
    omega
  · exact fun _ hmem => absurd (List.mem_singleton.mp hmem) nofun
  · rw [hpolls]
    refine ⟨.obj state, rfl, ?_⟩
    have hdone : ((Json.parse (trim stateText)).bind (stringField "status")) = some "done" := by
      decide +kernel
    rwa [hstate] at hdone

/-- The result is read whole after a drop. -/
theorem survives_drop : ∃ members,
    (Deployer.waitForCompletion 1000 {} (some .null) 0
      ([dropped] ++ finished (.closes resultText) :: [])).2 = some (.ok (.obj members)) := by
  obtain ⟨members, h⟩ := installs (o := .closes resultText) fun _ hout =>
    Outcome.closes.inj hout ▸ List.prefix_refl _
  exact ⟨members, ((survives 1000).2 members _ _ [] h).2.mpr ⟨_, rfl, rfl⟩⟩

/-- The connection drops between the last state and the result. -/
theorem not_survives : ¬ ∀ timeoutMs result before last rest, Installs timeoutMs result before last →
    (Deployer.waitForCompletion timeoutMs {} (some .null) 0 (before ++ last :: rest)).2 =
      some (.ok (.obj result)) := by
  intro h
  obtain ⟨members, hinstalls⟩ := installs (o := .rejects "Not connected") nofun
  have hreturns := h 1000 members _ _ [] hinstalls
  obtain ⟨stdout, hcloses, -⟩ := (waits [] hinstalls.honest hinstalls.inTime hinstalls.file {} none 0
    hinstalls.contact hinstalls.running hinstalls.done).2.mp hreturns
  cases hcloses

end Loop

end Sozvon.Deploy
