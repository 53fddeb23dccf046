import Sozvon.Runs
import Mathlib.Logic.Function.Basic
import Mathlib.Data.List.Basic

/-!
# The locks of a group and of its WHIP members

A group asks its members for their permissions while it holds `g.mu`, and a
`WhipClient` answers under its own mutex; so does a group take `g.mu` inside
`groups.mu`. All of the group's code follows this order. `WhipClient.Close`
goes the other way: it keeps its mutex while it removes itself from the group.

A thread is what is left of its calls, cut at every lock. The permissions of
the members are read in the order of a map and up to the first operator, so
which of them a section asks comes with the label.
-/
namespace Sozvon.LockOrder
open Runs

inductive Member where
  | web (n : ℕ)
  | whip (c : ℕ)
deriving DecidableEq, Repr

inductive Lock where
  | table
  | group (g : ℕ)
  | whip (c : ℕ)
deriving DecidableEq, Repr

/-- What a section of a group does before it unlocks. -/
inductive Effect where
  | nothing
  | enter (m : Member)
  | remove (m : Member)
deriving DecidableEq, Repr

/-- A call path between two of its locks. -/
inductive Part where
  | lockTable
  | unlockTable
  /-- A section of `g`, which asks the clients `own`, and members if it walks. -/
  | room (g : ℕ) (own : List ℕ) (walk : Bool) (effect : Effect)
  /-- A section of a WHIP client that takes no other lock. -/
  | touch (c : ℕ)
  | close (c : ℕ)
  | endClose
deriving DecidableEq, Repr

/-- What a thread holds outside the sections of groups. -/
inductive Mode where
  | free
  | table
  | touching (c : ℕ)
  | closing (c : ℕ)
deriving DecidableEq, Repr

/-- A section of a group under way: the clients it has still to ask, and whether
it holds the mutex of the first. -/
structure Room where
  group : ℕ
  ask : List ℕ
  asking : Bool := false
  effect : Effect
deriving DecidableEq, Repr

structure Thread where
  mode : Mode := .free
  room : Option Room := none
  todo : List Part
deriving DecidableEq, Repr

def Thread.holds (t : Thread) : Lock → Bool
  | .table => t.mode = .table
  | .group g => t.room.any fun r => r.group = g
  | .whip c => t.mode = .touching c ∨ t.mode = .closing c ∨
      t.room.any fun r => r.asking ∧ r.ask.head? = some c

/-- The lock that the next step of a thread takes. -/
def Thread.wants (t : Thread) : Option Lock :=
  match t.room with
  | some r => if r.asking then none else r.ask.head?.map .whip
  | none =>
      match t.mode with
      | .touching _ => none
      | _ =>
          match t.todo with
          | .lockTable :: _ => some .table
          | .room g _ _ _ :: _ => some (.group g)
          | .touch c :: _ | .close c :: _ => some (.whip c)
          | .unlockTable :: _ | .endClose :: _ | [] => none

/-- The part that a thread goes on with, if it is in no section. -/
def Thread.next (t : Thread) : Option Part := if t.room = none then t.todo.head? else none

/-- The clients that a thread has still to ask in its present section. -/
def Thread.asks (t : Thread) : List ℕ := t.room.elim [] (·.ask)

structure State where
  threads : List Thread := []
  members : ℕ → List Member := fun _ => []
  /-- The `group` field of the WHIP clients. -/
  group : ℕ → Option ℕ

/-- What the code does not decide: whom a section asks, whether `AddClient` lets
the client in, whether the WHIP client has a connection. -/
structure Choice where
  ask : List ℕ := []
  accepted : Bool := false
  connected : Bool := false
deriving DecidableEq, Repr

section Calls

/-- `add`, with `autoLockKick` at its end. -/
def add (g : ℕ) : List Part := [.lockTable, .room g [] true .nothing, .unlockTable]

def own : Member → List ℕ
  | .web _ => []
  | .whip c => [c]

def addClient (g : ℕ) (m : Member) : List Part := add g ++ [.room g (own m) true (.enter m)]

/-- The second section of `DelClient` follows once the first has found its client. -/
def delClient (g : ℕ) (m : Member) : List Part := [.room g [] false (.remove m)]

/-- `Admit`, `Deny` and `RemoveKnock`, with `getOpsUnlocked`. -/
def notify (g : ℕ) : List Part := [.room g [] true .nothing]

def getClients (g : ℕ) : List Part := [.room g [] false .nothing]

def getSubGroupStatus (gs : List ℕ) : List Part :=
  .lockTable :: gs.map (fun g => .room g [] true .nothing) ++ [.unlockTable]

/-- The body of `WhipClient.Close`, for a client that has a group. -/
def closeBody (g c : ℕ) (connected : Bool) : List Part :=
  (if connected then getClients g else []) ++ delClient g (.whip c) ++ [.endClose]

inductive Call where
  | add (g : ℕ)
  | addClient (g : ℕ) (m : Member)
  | delClient (g : ℕ) (m : Member)
  | notify (g : ℕ)
  /-- All sections that only read or write the group: `Description`, `GetClient`,
  `SetLocked` and the like. -/
  | getClients (g : ℕ)
  | getSubGroupStatus (gs : List ℕ)
  /-- An HTTP DELETE, a failed connection, or a kick. -/
  | close (c : ℕ)
  /-- The goroutine of `autoLockKick`, and `kickall`. -/
  | kick (cs : List ℕ)
  /-- `Permissions`, `ETag`, `GotOffer` and the like. -/
  | touch (c : ℕ)
deriving DecidableEq, Repr

def Call.parts : Call → List Part
  | .add g => LockOrder.add g
  | .addClient g m => LockOrder.addClient g m
  | .delClient g m => LockOrder.delClient g m
  | .notify g => LockOrder.notify g
  | .getClients g => LockOrder.getClients g
  | .getSubGroupStatus gs => LockOrder.getSubGroupStatus gs
  | .close c => [.close c]
  | .kick cs => cs.map .close
  | .touch c => [.touch c]

end Calls

/-- Leave a section: its effect on the member map, and what comes next. -/
def unlock (s : State) (t : Thread) (r : Room) (choice : Choice) : State × Thread :=
  match r.effect with
  | .nothing => (s, { t with room := none })
  | .enter m =>
      if choice.accepted ∧ m ∉ s.members r.group then
        ({ s with members := Function.update s.members r.group (m :: s.members r.group) },
          { t with room := none })
      else (s, { t with room := none })
  | .remove m =>
      if m ∈ s.members r.group then
        ({ s with members := Function.update s.members r.group ((s.members r.group).erase m) },
          { t with room := none, todo := .room r.group [] true .nothing :: t.todo })
      else (s, { t with room := none })

/-- Outside the sections a thread goes on with its next part, `part`. -/
def start (s : State) (t : Thread) (part : Part) (choice : Choice) : Option (State × Thread) :=
  match part with
  | .lockTable => some (s, { t with mode := .table })
  | .unlockTable => some (s, { t with mode := .free })
  | .room g own walk effect =>
      if ∀ c ∈ choice.ask, c ∈ own ∨ walk ∧ .whip c ∈ s.members g then
        some (s, { t with room := some { group := g, ask := choice.ask, effect } })
      else none
  | .touch c => some (s, { t with mode := .touching c })
  | .close c =>
      match s.group c with
      | none => some (s, t)
      | some g =>
          some (s, { t with mode := .closing c, todo := closeBody g c choice.connected ++ t.todo })
  | .endClose =>
      match t.mode with
      | .closing c =>
          some ({ s with group := Function.update s.group c none }, { t with mode := .free })
      | _ => none

/-- One step of a thread that need not wait. -/
def proceed (s : State) (t : Thread) (choice : Choice) : Option (State × Thread) :=
  match t.room with
  | some r =>
      if r.asking then some (s, { t with room := some { r with ask := r.ask.tail, asking := false } })
      else if r.ask = [] then some (unlock s t r choice)
      else some (s, { t with room := some { r with asking := true } })
  | none =>
      match t.mode with
      | .touching _ => some (s, { t with mode := .free })
      | _ =>
          match t.todo with
          | [] => none
          | part :: todo => start s { t with todo } part choice

inductive Label where
  | call (call : Call)
  | advance (i : ℕ) (choice : Choice)
deriving DecidableEq, Repr

/-- The lock that `t` wants is held by some thread, maybe by itself. -/
def blocked (s : State) (t : Thread) : Bool :=
  t.wants.any fun l => s.threads.any fun u => u.holds l

def step (s : State) : Label → Option State
  | .call call => some { s with threads := s.threads ++ [{ todo := call.parts }] }
  | .advance i choice =>
      s.threads[i]?.bind fun t =>
        if blocked s t then none
        else (proceed s t choice).map fun r => { r.1 with threads := s.threads.set i r.2 }

/-- No threads yet; WHIP clients carry the groups they were made with. -/
def system : System State Label :=
  { init := fun s => s.threads = [] ∧ s.members = fun _ => [], step }

/-- Two threads each hold a lock that the other waits for. -/
def Deadlocked (s : State) : Prop :=
  ∃ i j : ℕ, ∃ t u : Thread, ∃ l l' : Lock, i ≠ j ∧ s.threads[i]? = some t ∧ s.threads[j]? = some u ∧
    t.holds l ∧ u.wants = some l ∧ u.holds l' ∧ t.wants = some l'

/-- Whether a thread may go on with `part`, and ask `ask` in it, while `others`
are where they are: a `Close` takes its mutex only when no other section has
still to ask its client, and a section asks no client that another thread is
closing. -/
def KeptApart (others : List Thread) (ask : List ℕ) : Option Part → Prop
  | some (.close c) => ∀ u ∈ others, c ∉ u.asks
  | some (.room ..) => ∀ u ∈ others, ∀ c ∈ ask, u.mode ≠ .closing c
  | _ => True

def Apart (s : State) : Label → Prop
  | .call _ => True
  | .advance i choice =>
      KeptApart (s.threads.eraseIdx i) choice.ask (s.threads[i]?.bind Thread.next)

/-- The locks of a call path are taken from the outside in, but for those that
`Close` takes under the mutex of its client. -/
def WellFormed : Mode → List Part → Prop
  | m, [] => m = .free
  | m, .lockTable :: rest => m = .free ∧ WellFormed .table rest
  | m, .unlockTable :: rest => m = .table ∧ WellFormed .free rest
  | m, .room .. :: rest => WellFormed m rest
  | m, .touch _ :: rest => m = .free ∧ WellFormed .free rest
  | m, .close _ :: rest => m = .free ∧ WellFormed .free rest
  | m, .endClose :: rest => (∃ c, m = .closing c) ∧ WellFormed .free rest

structure Shaped (t : Thread) : Prop where
  touching : ∀ c, t.mode = .touching c → t.room = none ∧ WellFormed .free t.todo
  wellFormed : (∀ c, t.mode ≠ .touching c) → WellFormed t.mode t.todo

structure Sound (s : State) : Prop where
  shaped : ∀ t ∈ s.threads, Shaped t
  apart : ∀ (i j : ℕ) (t u : Thread) (c : ℕ), i ≠ j → s.threads[i]? = some t →
    s.threads[j]? = some u → t.mode = .closing c → c ∉ u.asks

theorem wellFormed_kick (cs : List ℕ) : WellFormed .free (cs.map .close) := by
  induction cs with
  | nil => rfl
  | cons c cs ih => exact ⟨rfl, ih⟩

theorem wellFormed_status (gs : List ℕ) : WellFormed .table
    (gs.map (fun g => .room g [] true .nothing) ++ [.unlockTable]) := by
  induction gs with
  | nil => exact ⟨rfl, rfl⟩
  | cons g gs ih => exact ih

theorem wellFormed_parts (call : Call) : WellFormed .free call.parts := by
  cases call with
  | add g => exact ⟨rfl, rfl, rfl⟩
  | addClient g m => exact ⟨rfl, rfl, rfl⟩
  | delClient g m => rfl
  | notify g => rfl
  | getClients g => rfl
  | getSubGroupStatus gs => exact ⟨rfl, wellFormed_status gs⟩
  | close c => exact ⟨rfl, rfl⟩
  | kick cs => exact wellFormed_kick cs
  | touch c => exact ⟨rfl, rfl⟩

theorem wellFormed_closeBody (g c : ℕ) (connected : Bool) {rest : List Part}
    (h : WellFormed .free rest) :
    WellFormed (.closing c) (closeBody g c connected ++ rest) := by
  cases connected <;> exact ⟨⟨c, rfl⟩, h⟩

section Waiting
variable {t : Thread} {l : Lock}

/-- A thread that waits outside the sections holds what its mode says. -/
theorem wants_of_room_none (h : Shaped t) (hroom : t.room = none) (hwants : t.wants = some l) :
    (∃ g, l = .group g) ∨ t.mode = .free := by
  unfold Thread.wants at hwants
  rw [hroom] at hwants
  have hnot : ∀ c, t.mode ≠ .touching c := by
    intro c hc
    simp [hc] at hwants
  have hshape := h.wellFormed hnot
  have hwants' : (match t.todo with
      | .lockTable :: _ => some .table
      | .room g _ _ _ :: _ => some (.group g)
      | .touch c :: _ | .close c :: _ => some (.whip c)
      | .unlockTable :: _ | .endClose :: _ | [] => none) = some l := by
    cases hmode : t.mode with
    | touching c => exact absurd hmode (hnot c)
    | _ => simpa only [hmode] using hwants
  cases htodo : t.todo with
  | nil => simp [htodo] at hwants'
  | cons part rest =>
      rw [htodo] at hshape hwants'
      cases part with
      | room g own walk effect => exact .inl ⟨g, (Option.some.inj hwants').symm⟩
      | lockTable => exact .inr hshape.1
      | touch c => exact .inr hshape.1
      | close c => exact .inr hshape.1
      | unlockTable => cases hwants'
      | endClose => cases hwants'

/-- A thread that waits in a section waits for a client it has to ask. -/
theorem wants_of_room {r : Room} (hroom : t.room = some r) (hwants : t.wants = some l) :
    r.asking = false ∧ ∃ c ∈ t.asks, l = .whip c := by
  unfold Thread.wants at hwants
  rw [hroom] at hwants
  dsimp only at hwants
  split at hwants
  · cases hwants
  · rename_i hasking
    refine ⟨by simpa using hasking, ?_⟩
    obtain ⟨c, hc, rfl⟩ := Option.map_eq_some_iff.mp hwants
    refine ⟨c, ?_, rfl⟩
    rw [Thread.asks, hroom]
    exact List.mem_of_mem_head? hc

end Waiting

theorem Sound.not_deadlocked {s : State} (h : Sound s) : ¬ Deadlocked s := by
  -- one of the two waits for a group, since nothing is taken under a client's mutex in a section
  have hside : ∀ (i j : ℕ) (t u : Thread) (l l' : Lock), i ≠ j → s.threads[i]? = some t →
      s.threads[j]? = some u → t.holds l → u.wants = some l → u.holds l' → t.wants = some l' →
      t.room = none → False := by
    intro i j t u l l' hne ht hu hholds hwants hholds' hwants' hroom
    rcases wants_of_room_none (h.shaped t (List.mem_of_getElem? ht)) hroom hwants' with
      ⟨g, rfl⟩ | hfree
    · simp only [Thread.holds, Option.any_eq_true, decide_eq_true_eq] at hholds'
      obtain ⟨r, hr, _⟩ := hholds'
      obtain ⟨_, c, hc, rfl⟩ := wants_of_room hr hwants
      simp only [Thread.holds, hroom, Option.any_none, Bool.false_eq_true, or_false,
        decide_eq_true_eq] at hholds
      rcases hholds with htouching | hclosing
      · simp [Thread.wants, hroom, htouching] at hwants'
      · exact h.apart i j t u c hne ht hu hclosing hc
    · cases l <;> simp [Thread.holds, hroom, hfree] at hholds
  rintro ⟨i, j, t, u, l, l', hne, ht, hu, hholds, hwants, hholds', hwants'⟩
  cases hroom : t.room with
  | none => exact hside i j t u l l' hne ht hu hholds hwants hholds' hwants' hroom
  | some r =>
      cases hroom' : u.room with
      | none => exact hside j i u t l' l hne.symm hu ht hholds' hwants' hholds hwants hroom'
      | some r' =>
          obtain ⟨_, c, hc, rfl⟩ := wants_of_room hroom hwants'
          obtain ⟨hasking, _⟩ := wants_of_room hroom' hwants
          simp only [Thread.holds, hroom', hasking, Option.any_some, Bool.false_eq_true, false_and,
            decide_false, or_false, decide_eq_true_eq] at hholds'
          rcases hholds' with htouching | hclosing
          · have hshaped := (h.shaped u (List.mem_of_getElem? hu)).touching c htouching
            rw [hroom'] at hshaped
            cases hshaped.1
          · exact h.apart j i u t c hne.symm hu ht hclosing hc

/-- What one step of a thread can do to it: only the start of a `Close` makes it
close a client, and only the start of a section makes it ask new ones. -/
structure Proceeds (s : State) (t : Thread) (choice : Choice) (s' : State) (t' : Thread) : Prop where
  shaped : Shaped t → Shaped t'
  threads : s'.threads = s.threads
  closing : ∀ c, t'.mode = .closing c → t.mode = .closing c ∨ t.next = some (.close c)
  asks : ∀ c ∈ t'.asks, c ∈ t.asks ∨
    c ∈ choice.ask ∧ ∃ g own walk effect, t.next = some (.room g own walk effect)

section Proceed
variable {s s' : State} {t t' : Thread} {choice : Choice}

theorem shaped_room {room : Option Room} (h : Shaped t) (hmode : ∀ c, t.mode ≠ .touching c) :
    Shaped { t with room } := ⟨fun c hc => absurd hc (hmode c), h.wellFormed⟩

/-- A thread in a section holds no client outside it. -/
theorem not_touching {r : Room} (h : Shaped t) (hroom : t.room = some r) (c : ℕ) :
    t.mode ≠ .touching c := by
  intro hc
  have hnone := (h.touching c hc).1
  rw [hroom] at hnone
  cases hnone

theorem proceeds_unlock {r : Room} (hroom : t.room = some r) :
    Proceeds s t choice (unlock s t r choice).1 (unlock s t r choice).2 := by
  have hkeep : ∀ s' : State, s'.threads = s.threads → Proceeds s t choice s' { t with room := none } :=
    fun s' hs => ⟨fun h => shaped_room h (not_touching h hroom), hs, fun c hc => .inl hc,
      fun c hc => by cases hc⟩
  unfold unlock
  cases r.effect with
  | nothing => exact hkeep s rfl
  | enter m =>
      dsimp only
      split
      · exact hkeep _ rfl
      · exact hkeep s rfl
  | remove m =>
      dsimp only
      split
      · refine ⟨fun h => ?_, rfl, fun c hc => .inl hc, fun c hc => by cases hc⟩
        have hmode := not_touching h hroom
        exact ⟨fun c hc => absurd hc (hmode c), h.wellFormed⟩
      · exact hkeep s rfl

/-- A part leaves the thread ready for those that follow it. -/
theorem proceeds_start {part : Part} {todo : List Part} (hroom : t.room = none)
    (hmode : ∀ c, t.mode ≠ .touching c) (htodo : t.todo = part :: todo)
    (h : start s { t with todo } part choice = some (s', t')) : Proceeds s t choice s' t' := by
  have hnext : t.next = some part := by rw [Thread.next, if_pos hroom, htodo]; rfl
  have hshape : Shaped t → WellFormed t.mode (part :: todo) := fun h => htodo ▸ h.wellFormed hmode
  have hasks : ∀ mode todo c, c ∉ (⟨mode, t.room, todo⟩ : Thread).asks := by
    intro mode todo c
    rw [Thread.asks, hroom]
    exact nofun
  unfold start at h
  cases part with
  | lockTable =>
      cases h
      exact ⟨fun h => ⟨nofun, fun _ => (hshape h).2⟩, rfl, nofun,
        fun c hc => absurd hc (hasks _ _ c)⟩
  | unlockTable =>
      cases h
      exact ⟨fun h => ⟨nofun, fun _ => (hshape h).2⟩, rfl, nofun,
        fun c hc => absurd hc (hasks _ _ c)⟩
  | room g own walk effect =>
      dsimp only at h
      split at h
      · cases h
        exact ⟨fun h => ⟨fun c hc => absurd hc (hmode c), fun _ => hshape h⟩, rfl,
          fun c hc => .inl hc, fun c hc => .inr ⟨hc, g, own, walk, effect, hnext⟩⟩
      · cases h
  | touch c =>
      cases h
      exact ⟨fun h => ⟨fun _ _ => ⟨hroom, (hshape h).2⟩, fun hnot => absurd rfl (hnot c)⟩, rfl, nofun,
        fun c hc => absurd hc (hasks _ _ c)⟩
  | close c =>
      dsimp only at h
      split at h
      · cases h
        refine ⟨fun h => ⟨fun c hc => absurd hc (hmode c), fun _ => ?_⟩, rfl,
          fun c hc => .inl hc, fun c hc => absurd hc (hasks _ _ c)⟩
        obtain ⟨hfree, hrest⟩ := hshape h
        rw [hfree]
        exact hrest
      · cases h
        refine ⟨fun h => ⟨nofun, fun _ => wellFormed_closeBody _ c _ (hshape h).2⟩, rfl, ?_,
          fun c hc => absurd hc (hasks _ _ c)⟩
        rintro c' ⟨⟩
        exact .inr hnext
  | endClose =>
      dsimp only at h
      split at h
      · cases h
        exact ⟨fun h => ⟨nofun, fun _ => (hshape h).2⟩, rfl, nofun,
          fun c hc => absurd hc (hasks _ _ c)⟩
      · cases h

theorem proceeds_proceed (h : proceed s t choice = some (s', t')) :
    Proceeds s t choice s' t' := by
  unfold proceed at h
  split at h
  · rename_i r hroom
    split at h
    · cases h
      refine ⟨fun h => shaped_room h (not_touching h hroom), rfl, fun c hc => .inl hc, ?_⟩
      intro c hc
      rw [Thread.asks, hroom]
      exact .inl (List.mem_of_mem_tail hc)
    split at h
    · obtain ⟨rfl, rfl⟩ : s' = (unlock s t r choice).1 ∧ t' = (unlock s t r choice).2 := by
        rw [Option.some.inj h]
        exact ⟨rfl, rfl⟩
      exact proceeds_unlock hroom
    · cases h
      refine ⟨fun h => shaped_room h (not_touching h hroom), rfl, fun c hc => .inl hc, ?_⟩
      intro c hc
      rw [Thread.asks, hroom]
      exact .inl hc
  · rename_i hroom
    split at h
    · rename_i c hmode
      cases h
      refine ⟨fun h => ⟨nofun, fun _ => (h.touching c hmode).2⟩, rfl, nofun, ?_⟩
      intro c hc
      rw [Thread.asks, hroom] at hc
      cases hc
    · rename_i hmode
      split at h
      · cases h
      · rename_i part todo htodo
        exact proceeds_start hroom hmode htodo h

end Proceed

theorem Sound.call {s : State} (h : Sound s) (call : Call) :
    Sound { s with threads := s.threads ++ [{ todo := call.parts }] } := by
  have hnew : ∀ {i : ℕ} {t : Thread}, (s.threads ++ [{ todo := call.parts }])[i]? = some t →
      s.threads[i]? = some t ∨ t = { todo := call.parts } := by
    intro i t ht
    rw [List.getElem?_append] at ht
    split at ht
    · exact .inl ht
    · exact .inr (List.mem_singleton.mp (List.mem_of_getElem? ht))
  constructor
  · intro t ht
    rcases List.mem_append.mp ht with ht | ht
    · exact h.shaped t ht
    · cases List.mem_singleton.mp ht
      exact ⟨nofun, fun _ => wellFormed_parts call⟩
  · intro i j t u c hne ht hu hclosing hc
    rcases hnew ht with ht | rfl
    · rcases hnew hu with hu | rfl
      · exact h.apart i j t u c hne ht hu hclosing hc
      · cases hc
    · cases hclosing

theorem Sound.advance {s s' : State} {i : ℕ} {t t' : Thread} {choice : Choice} (h : Sound s)
    (hok : Apart s (.advance i choice)) (ht : s.threads[i]? = some t)
    (hproceeds : Proceeds s t choice s' t') :
    Sound { s' with threads := s.threads.set i t' } := by
  have hat : ∀ {j : ℕ} {u : Thread}, (s.threads.set i t')[j]? = some u →
      j = i ∧ u = t' ∨ j ≠ i ∧ s.threads[j]? = some u := by
    intro j u hu
    by_cases hj : j = i
    · subst j
      exact .inl ⟨rfl, by simpa [(List.getElem?_eq_some_iff.mp ht).1, eq_comm] using hu⟩
    · exact .inr ⟨hj, by rwa [List.getElem?_set_ne (Ne.symm hj)] at hu⟩
  have hothers : ∀ {j : ℕ} {u : Thread}, j ≠ i → s.threads[j]? = some u → u ∈ s.threads.eraseIdx i :=
    fun hj hu => List.mem_eraseIdx_iff_getElem?.mpr ⟨_, hj, hu⟩
  rw [Apart, ht, Option.bind_some] at hok
  constructor
  · intro u hu
    rcases List.mem_or_eq_of_mem_set hu with hu | rfl
    · exact h.shaped u hu
    · exact hproceeds.shaped (h.shaped t (List.mem_of_getElem? ht))
  · intro j k u v c hne hu hv hclosing hc
    rcases hat hu with ⟨rfl, rfl⟩ | ⟨hj, hu'⟩
    · rcases hat hv with ⟨rfl, _⟩ | ⟨hk, hv'⟩
      · exact hne rfl
      · rcases hproceeds.closing c hclosing with hold | hnext
        · exact h.apart j k t v c hne ht hv' hold hc
        · rw [hnext] at hok
          exact hok v (hothers hk hv') hc
    · rcases hat hv with ⟨rfl, rfl⟩ | ⟨_, hv'⟩
      · rcases hproceeds.asks c hc with hold | ⟨hask, g, own, walk, effect, hnext⟩
        · exact h.apart j k u t c hne hu' ht hclosing hold
        · rw [hnext] at hok
          exact hok u (hothers hj hu') c hask hclosing
      · exact h.apart j k u v c hne hu' hv' hclosing hc

theorem sound_step {s t : State} {a : Label} (h : Sound s) (hok : Apart s a)
    (hstep : step s a = some t) : Sound t := by
  cases a with
  | call call =>
      cases hstep
      exact h.call call
  | advance i choice =>
      obtain ⟨u, hu, hstep⟩ := Option.bind_eq_some_iff.mp hstep
      split at hstep
      · cases hstep
      · obtain ⟨r, hr, rfl⟩ := Option.map_eq_some_iff.mp hstep
        exact h.advance hok hu (proceeds_proceed hr)

/-- As long as `Close` and the sections that ask its client stay apart, no two
threads ever wait for each other. -/
theorem not_deadlocked_of_apart {s : State} (h : Reachable system Apart s) : ¬ Deadlocked s := by
  apply Sound.not_deadlocked
  induction h with
  | init hs =>
      constructor
      · rw [hs.1]
        exact nofun
      · rw [hs.1]
        intro i j t u c _ ht
        exact absurd (List.mem_of_getElem? ht) List.not_mem_nil
  | step _ hok hstep ih => exact sound_step ih hok hstep

section Samples

instance (others : List Thread) (ask : List ℕ) :
    (part : Option Part) → Decidable (KeptApart others ask part)
  | some (.close c) => inferInstanceAs (Decidable (∀ u ∈ others, c ∉ u.asks))
  | some (.room ..) => inferInstanceAs (Decidable (∀ u ∈ others, ∀ c ∈ ask, u.mode ≠ .closing c))
  | none | some .lockTable | some .unlockTable | some (.touch _) | some .endClose => .isTrue trivial

instance (s : State) : (a : Label) → Decidable (Apart s a)
  | .call _ => .isTrue trivial
  | .advance i choice => inferInstanceAs (Decidable
      (KeptApart (s.threads.eraseIdx i) choice.ask (s.threads[i]?.bind Thread.next)))

/-- A WHIP client that belongs to group 0, and nothing else. -/
def idle : State := { group := fun _ => some 0 }

def run (i n : ℕ) (ask : List ℕ) : List Label := List.replicate n (.advance i { ask, accepted := true })

/-- The client joins and is closed, one after the other. -/
def inTurn : List Label :=
  [.call (.addClient 0 (.whip 7))] ++ run 0 4 [] ++ run 0 1 [7] ++ run 0 3 [] ++
    [.call (.close 7)] ++ run 1 6 []

theorem not_deadlocked_inTurn : ∃ s, system.exec Apart idle inTurn = some s ∧
    s.members 0 = [] ∧ ¬ Deadlocked s := by
  obtain ⟨s, hs, hmembers⟩ : ∃ s ∈ system.exec Apart idle inTurn, s.members 0 = [] := by
    decide +kernel
  exact ⟨s, hs, hmembers, not_deadlocked_of_apart (.exec (.init ⟨rfl, rfl⟩) hs)⟩

/-- A join that asks the client while its `Close` waits for the group. -/
def crossing : List Label :=
  [.call (.addClient 0 (.whip 7))] ++ run 0 4 [] ++ run 0 1 [7] ++ run 0 3 [] ++
    [.call (.close 7), .call (.addClient 0 (.web 1))] ++ run 2 4 [] ++ run 2 1 [7] ++ run 1 1 []

theorem deadlocked_crossing : ¬ ∀ s, Reachable system Always s → ¬ Deadlocked s := by
  intro h
  obtain ⟨s, hs, t, ht, u, hu, hdead⟩ : ∃ s ∈ system.exec Always idle crossing,
      ∃ t ∈ s.threads[1]?, ∃ u ∈ s.threads[2]?, t.holds (.whip 7) ∧ u.wants = some (.whip 7) ∧
        u.holds (.group 0) ∧ t.wants = some (.group 0) := by
    decide +kernel
  exact h s (.exec (.init ⟨rfl, rfl⟩) hs) ⟨1, 2, t, u, .whip 7, .group 0, by decide, ht, hu, hdead⟩

end Samples

end Sozvon.LockOrder
