import Sozvon.Groups
import Sozvon.Runs
import Mathlib.Logic.Function.Basic

/-!
# The table of groups

A `Group` is an object and the table in `groups.groups` names some of the
objects there are. `AddClient` looks its group up (`Add`) and takes the group's
lock afterwards, in two steps; between them the object it holds can be taken
off the table, by the expiry in `Update` or by a description that cannot be
read any more.

A room is one room as long as no client comes into an object that has left the
table (`oneRoom_of_registered`), and can be two otherwise.
-/
namespace Sozvon.GroupTable
open Groups Runs

/-- The file behind a group at some moment: what `stat` and a full read give. -/
structure File where
  stat : Option (String × ℕ × ℕ)
  read : Except Error Description

def descriptionUnchanged (file : File) (desc : Description) : Bool :=
  file.stat = some (desc.fileName, desc.fileSize, desc.modTime)

/-- Cleaning the path changes nothing and leaves something. -/
def validGroupName (name : String) : Bool :=
  '\\' ∉ name.toList ∧
    ∀ part ∈ name.toList.splitOn '/', part ≠ [] ∧ part ≠ ['.'] ∧ part ≠ ['.', '.']

/-- The group objects, of which the first `size` exist, and the table. -/
structure Registry (κ : Type) where
  size : ℕ := 0
  heap : ℕ → Groups.Group κ := fun _ => { name := "" }
  table : ById ℕ := ∅

variable {κ : Type}

def Registry.set (r : Registry κ) (g : ℕ) (group : Groups.Group κ) : Registry κ :=
  { r with heap := Function.update r.heap g group }

/-- A new object under `name`. -/
def Registry.create (r : Registry κ) (name : String) (description : Description) (now : ℕ) :
    Registry κ :=
  { size := r.size + 1
    heap := Function.update r.heap r.size { name, description, timestamp := now }
    table := r.table.insert name r.size }

def Registry.deleteUnlocked (r : Registry κ) (g : ℕ) : Registry κ :=
  if (r.heap g).isEmpty then { r with table := r.table.erase (r.heap g).name } else r

/-- What `add` leaves behind: its group, the members to notify of a change and
the members to kick. -/
structure Looked (κ : Type) where
  registry : Registry κ
  group : Except Error ℕ
  calls : List (κ × Call) := []
  kicks : List κ := []

/-- The end of `add`, with the group's lock taken: the description in force is
`desc`, and the members hear of it if it is a new one. -/
def refresh (v : View κ) (r : Registry κ) (g : ℕ) (desc : Description) (notify : Bool) : Looked κ :=
  let room := { r.heap g with description := desc }
  let (room, calls, kicks) := autoLockKick v room
  { registry := r.set g room, group := .ok g
    calls := calls ++ if notify then room.members.map fun c => (c, .joined room.name "change") else []
    kicks }

def add (v : View κ) (r : Registry κ) (file : File) (now : ℕ) (name : String)
    (desc : Option Description) : Looked κ :=
  if ¬ validGroupName name then { registry := r, group := .error (.user "illegal group name") }
  else
    match r.table.lookup name with
    | none =>
        match desc.elim file.read .ok with
        | .error e => { registry := r, group := .error e }
        | .ok desc => refresh v (r.create name desc now) r.size desc false
    | some g =>
        match desc with
        | some desc =>
            if descriptionMatch (r.heap g).description desc then
              refresh v r g (r.heap g).description false
            else refresh v r g desc true
        | none =>
            if descriptionUnchanged file (r.heap g).description then
              refresh v r g (r.heap g).description false
            else
              match file.read with
              | .error e => { registry := r.deleteUnlocked g, group := .error e }
              | .ok desc => refresh v r g desc true

def Registry.delete (r : Registry κ) (name : String) : Registry κ × Bool :=
  match r.table.lookup name with
  | none => (r, false)
  | some g => (r.deleteUnlocked g, (r.heap g).isEmpty)

/-- The steps of the functions of `group`, each of them one lock section. The
clients' side of a call is left open: any client may make it at any time, and
reads as it may. -/
inductive Step (κ : Type) where
  | add (v : View κ) (file : File) (now : ℕ) (name : String) (desc : Option Description)
  | joinAdd (v : View κ) (file : File) (now : ℕ) (name : String) (c : κ)
  | joinLock (v : View κ) (now : ℕ) (c : κ) (g : ℕ) (token : String)
      (permission : Except Error (String × Permissions))
  | delClient (v : View κ) (now : ℕ) (c : κ) (g : ℕ)
  | autoLockKick (v : View κ) (g : ℕ)
  | admitKnock (v : View κ) (g : ℕ) (id : String)
  | deny (v : View κ) (g : ℕ) (id : String)
  | removeKnock (v : View κ) (g : ℕ) (id : String)
  | setLocked (g : ℕ) (locked : Bool) (message : String)
  | setLocked1on1 (g : ℕ) (on : Bool)
  | mayExpire (now : ℕ) (name : String)
  | delete (name : String)

/-- The registry, the joins between their two steps, and the names that
`Update` has found old enough and not deleted yet. -/
structure State (κ : Type) where
  registry : Registry κ := {}
  joins : List (κ × ℕ) := []
  expiring : List String := []

variable [DecidableEq κ]

def step (s : State κ) : Step κ → Option (State κ)
  | .add v file now name desc =>
      some { s with registry := (add v s.registry file now name desc).registry }
  | .joinAdd v file now name c =>
      let r := add v s.registry file now name none
      match r.group with
      | .error _ => some { s with registry := r.registry }
      | .ok g => some { s with registry := r.registry, joins := (c, g) :: s.joins }
  | .joinLock v now c g token permission =>
      if (c, g) ∈ s.joins then
        let r := addClient v (s.registry.heap g) c token permission now
        some { s with registry := s.registry.set g r.group, joins := s.joins.erase (c, g) }
      else none
  | .delClient v now c g =>
      (delClient v (s.registry.heap g) c now).map fun room =>
        { s with registry := s.registry.set g room }
  | .autoLockKick v g =>
      some { s with registry := s.registry.set g (autoLockKick v (s.registry.heap g)).1 }
  | .admitKnock v g id =>
      match admitKnock v (s.registry.heap g) id with
      | .error _ => some s
      | .ok r => some { s with registry := s.registry.set g r.1 }
  | .deny v g id =>
      match deny v (s.registry.heap g) id with
      | .error _ => some s
      | .ok r => some { s with registry := s.registry.set g r.1 }
  | .removeKnock v g id =>
      some { s with registry := s.registry.set g (removeKnock v (s.registry.heap g) id).1 }
  | .setLocked g locked message =>
      some { s with registry := s.registry.set g (setLocked (s.registry.heap g) locked message).1 }
  | .setLocked1on1 g on =>
      some { s with registry := s.registry.set g (setLocked1on1 (s.registry.heap g) on).1 }
  | .mayExpire now name =>
      match s.registry.table.lookup name with
      | none => some s
      | some g =>
          if mayExpire (s.registry.heap g) now then some { s with expiring := name :: s.expiring }
          else some s
  | .delete name =>
      if name ∈ s.expiring then
        some { s with registry := (s.registry.delete name).1, expiring := s.expiring.erase name }
      else none

def system : System (State κ) (Step κ) := { init := (· = {}), step }

def Registry.Occupied (r : Registry κ) (g : ℕ) : Prop := (r.heap g).isEmpty = false

def Registry.Registered (r : Registry κ) (g : ℕ) : Prop :=
  r.table.lookup (r.heap g).name = some g

/-- A room name denotes at most one live room. -/
structure OneRoom (s : State κ) : Prop where
  registered : ∀ g, s.registry.Occupied g → s.registry.Registered g
  same : ∀ g g' c c', c ∈ (s.registry.heap g).members → c' ∈ (s.registry.heap g').members →
    (s.registry.heap g).name = (s.registry.heap g').name → g = g'

/-- An `AddClient` that takes its client locks the group while the table still has it. -/
def LocksRegistered (s : State κ) : Step κ → Prop
  | .joinLock v now c g token permission =>
      Enters v (s.registry.heap g) c token permission now ∨
        Knocks v (s.registry.heap g) c token permission → s.registry.Registered g
  | _ => True

/-- What one lock section that is not a join does to a group, as the table sees
it: the name stays, and an empty group stays empty. -/
structure Keeps (room room' : Groups.Group κ) : Prop where
  name : room'.name = room.name
  isEmpty : room.isEmpty → room'.isEmpty

section Keeps
omit [DecidableEq κ]

theorem Keeps.of_maps {room room' : Groups.Group κ} (hname : room'.name = room.name)
    (hclients : room'.clients = room.clients) (hknocking : room'.knocking = room.knocking) :
    Keeps room room' := by
  refine ⟨hname, ?_⟩
  simp only [Group.isEmpty, hclients, hknocking]
  exact id

theorem keeps_autoLockKick (v : View κ) (room : Groups.Group κ) :
    Keeps room (autoLockKick v room).1 := by
  unfold autoLockKick
  split_ifs <;> apply Keeps.of_maps <;> simp only [] <;> split_ifs <;> rfl

theorem isEmpty_erase {room room' : Groups.Group κ} {id : String} (hclients : room'.clients = room.clients)
    (hknocking : room'.knocking = room.knocking.erase id) (h : room.isEmpty) : room'.isEmpty := by
  simp only [Group.isEmpty, decide_eq_true_eq] at h ⊢
  rw [hclients, hknocking]
  have herase : (room.knocking.erase id).entries = [] := by
    change room.knocking.entries.kerase id = []
    rw [h.2]
    rfl
  exact ⟨h.1, herase⟩

theorem keeps_admitKnock {v : View κ} {room : Groups.Group κ} {id : String} {r : Groups.Group κ × List (κ × Call)}
    (h : admitKnock v room id = .ok r) : Keeps room r.1 := by
  unfold admitKnock at h
  split at h
  · cases h
  · cases h
    exact ⟨rfl, isEmpty_erase rfl rfl⟩

theorem keeps_deny {v : View κ} {room : Groups.Group κ} {id : String} {r : Groups.Group κ × List (κ × Call)}
    (h : deny v room id = .ok r) : Keeps room r.1 := by
  unfold deny at h
  split at h
  · cases h
  · cases h
    exact ⟨rfl, isEmpty_erase rfl rfl⟩

theorem keeps_removeKnock (v : View κ) (room : Groups.Group κ) (id : String) :
    Keeps room (removeKnock v room id).1 := ⟨rfl, isEmpty_erase rfl rfl⟩

end Keeps

theorem keeps_delClient {v : View κ} {room room' : Groups.Group κ} {c : κ} {now : ℕ}
    (h : delClient v room c now = some room') : Keeps room room' := by
  unfold delClient at h
  split_ifs at h with hmember
  cases h
  refine ⟨rfl, fun hempty => ?_⟩
  simp only [Group.isEmpty, decide_eq_true_eq] at hempty
  rw [AList.lookup, hempty.1] at hmember
  cases hmember

/-- Whom the group takes neither as a member nor as a visitor it does not keep. -/
theorem keeps_addClient {v : View κ} {room : Groups.Group κ} {c : κ} {token : String}
    {permission : Except Error (String × Permissions)} {now : ℕ}
    (henters : ¬ Enters v room c token permission now) (hknocks : ¬ Knocks v room c token permission) :
    Keeps room (addClient v room c token permission now).group := by
  have hspec := addSpec_addClient v room c token permission now
  rcases hspec.clients with ⟨-, hclients⟩ | ⟨herror, -⟩
  · exact .of_maps hspec.name hclients (addClient_knocking hknocks).1
  · exact absurd (enters_of_addClient herror) henters

section Table
omit [DecidableEq κ]
variable {r : Registry κ}

def Registry.Bounded (r : Registry κ) : Prop := ∀ n g, r.table.lookup n = some g → g < r.size

theorem Registry.create_heap_of_ne {g : ℕ} (hg : g ≠ r.size) (name : String)
    (description : Description) (now : ℕ) :
    (r.create name description now).heap g = r.heap g := Function.update_of_ne hg _ _

theorem Registry.Bounded.create (h : r.Bounded) (name : String) (description : Description)
    (now : ℕ) : (r.create name description now).Bounded := by
  intro n g hlookup
  by_cases hn : n = name
  · subst n
    rw [Registry.create, AList.lookup_insert, Option.some.injEq] at hlookup
    subst g
    exact Nat.lt_succ_self r.size
  · rw [Registry.create, AList.lookup_insert_ne hn] at hlookup
    exact Nat.lt_succ_of_lt (h n g hlookup)

theorem Registry.lookup_of_deleteUnlocked {g g' : ℕ} {n : String}
    (h : (r.deleteUnlocked g).table.lookup n = some g') : r.table.lookup n = some g' := by
  unfold Registry.deleteUnlocked at h
  split_ifs at h
  · by_cases hn : n = (r.heap g).name
    · subst n
      rw [AList.lookup_erase] at h
      cases h
    · rwa [AList.lookup_erase_ne hn] at h
  · exact h

theorem Registry.heap_deleteUnlocked (g : ℕ) : (r.deleteUnlocked g).heap = r.heap := by
  unfold Registry.deleteUnlocked
  split_ifs <;> rfl

theorem Registry.size_deleteUnlocked (g : ℕ) : (r.deleteUnlocked g).size = r.size := by
  unfold Registry.deleteUnlocked
  split_ifs <;> rfl

theorem Registry.Bounded.deleteUnlocked (h : r.Bounded) (g : ℕ) : (r.deleteUnlocked g).Bounded := by
  intro n g' hlookup
  rw [Registry.size_deleteUnlocked]
  exact h n g' (Registry.lookup_of_deleteUnlocked hlookup)

/-- The table names existing objects by their own names, and every object that
somebody is in or waits for is in it. -/
structure Registry.Sound (r : Registry κ) : Prop where
  bounded : r.Bounded
  named : ∀ n g, r.table.lookup n = some g → (r.heap g).name = n
  registered : ∀ g, r.Occupied g → r.Registered g

theorem Registry.Sound.registered_of_lookup (h : r.Sound) {n : String} {g : ℕ}
    (hlookup : r.table.lookup n = some g) : r.Registered g := by
  rw [Registry.Registered, h.named n g hlookup]
  exact hlookup

theorem Registry.Sound.set (h : r.Sound) {g : ℕ} {room : Groups.Group κ}
    (hname : room.name = (r.heap g).name) (hlive : room.isEmpty = false → r.Registered g) :
    (r.set g room).Sound := by
  have hnames : ∀ g', ((r.set g room).heap g').name = (r.heap g').name := by
    intro g'
    by_cases hg : g' = g
    · subst g'
      simpa [Registry.set] using hname
    · simp [Registry.set, hg]
  refine ⟨h.bounded, ?_, ?_⟩
  · intro n g' hlookup
    rw [hnames]
    exact h.named n g' hlookup
  · intro g' hoccupied
    unfold Registry.Registered
    rw [hnames]
    by_cases hg : g' = g
    · subst g'
      apply hlive
      simpa [Registry.Occupied, Registry.set] using hoccupied
    · apply h.registered
      simpa [Registry.Occupied, Registry.set, hg] using hoccupied

theorem Registry.Sound.set_keeps (h : r.Sound) {g : ℕ} {room : Groups.Group κ}
    (hkeeps : Keeps (r.heap g) room) : (r.set g room).Sound := by
  apply h.set hkeeps.name
  intro hlive
  apply h.registered
  unfold Registry.Occupied
  cases hempty : (r.heap g).isEmpty with
  | false => rfl
  | true => rw [hkeeps.isEmpty hempty] at hlive; cases hlive

theorem Registry.Sound.create (h : r.Sound) {name : String} (hfree : r.table.lookup name = none)
    (description : Description) (now : ℕ) : (r.create name description now).Sound := by
  refine ⟨h.bounded.create name description now, ?_, ?_⟩
  · intro n g hlookup
    by_cases hn : n = name
    · subst n
      rw [Registry.create, AList.lookup_insert, Option.some.injEq] at hlookup
      subst g
      simp [Registry.create]
    · rw [Registry.create, AList.lookup_insert_ne hn] at hlookup
      rw [Registry.create_heap_of_ne (Nat.ne_of_lt (h.bounded n g hlookup))]
      exact h.named n g hlookup
  · intro g hoccupied
    by_cases hg : g = r.size
    · subst g
      simp [Registry.Occupied, Registry.create, Group.isEmpty] at hoccupied
    · rw [Registry.Occupied, Registry.create_heap_of_ne hg] at hoccupied
      have hregistered := h.registered g hoccupied
      have hname : (r.heap g).name ≠ name := by
        intro hname
        rw [Registry.Registered, hname, hfree] at hregistered
        cases hregistered
      rw [Registry.Registered, Registry.create_heap_of_ne hg, Registry.create,
        AList.lookup_insert_ne hname]
      exact hregistered

/-- An object leaves the table only while nobody is in it. -/
theorem Registry.Sound.deleteUnlocked (h : r.Sound) {g : ℕ} (hregistered : r.Registered g) :
    (r.deleteUnlocked g).Sound := by
  refine ⟨h.bounded.deleteUnlocked g, ?_, ?_⟩
  · intro n g' hlookup
    rw [Registry.heap_deleteUnlocked]
    exact h.named n g' (Registry.lookup_of_deleteUnlocked hlookup)
  · intro g' hoccupied
    rw [Registry.Occupied, Registry.heap_deleteUnlocked] at hoccupied
    have hg' := h.registered g' hoccupied
    unfold Registry.Registered
    rw [Registry.heap_deleteUnlocked]
    unfold Registry.deleteUnlocked
    split_ifs with hempty
    · have hne : (r.heap g').name ≠ (r.heap g).name := by
        intro hname
        rw [Registry.Registered, hname] at hg'
        have hg : g = g' := Option.some.inj (hregistered.symm.trans hg')
        rw [← hg, hempty] at hoccupied
        cases hoccupied
      rw [AList.lookup_erase_ne hne]
      exact hg'
    · exact hg'

theorem Registry.Sound.delete (h : r.Sound) (name : String) : (r.delete name).1.Sound := by
  unfold Registry.delete
  cases hlookup : r.table.lookup name with
  | none => exact h
  | some g => exact h.deleteUnlocked (h.registered_of_lookup hlookup)

theorem keeps_refresh (v : View κ) (room : Groups.Group κ) (desc : Description) :
    Keeps room (autoLockKick v { room with description := desc }).1 :=
  ⟨(keeps_autoLockKick v _).name, fun h => (keeps_autoLockKick v _).isEmpty h⟩

theorem Registry.Sound.refresh (h : r.Sound) (v : View κ) (g : ℕ) (desc : Description)
    (notify : Bool) : (refresh v r g desc notify).registry.Sound :=
  h.set_keeps (keeps_refresh v (r.heap g) desc)

/-- How `add` can come out: it leaves the table alone, takes an object off it
that it had under `name`, or refreshes an object that is old or new. -/
theorem add_cases (v : View κ) (r : Registry κ) (file : File) (now : ℕ) (name : String)
    (desc : Option Description) :
    (∃ e, add v r file now name desc = { registry := r, group := .error e }) ∨
      (∃ e g, r.table.lookup name = some g ∧
        add v r file now name desc = { registry := r.deleteUnlocked g, group := .error e }) ∨
      (∃ d, r.table.lookup name = none ∧
        add v r file now name desc = refresh v (r.create name d now) r.size d false) ∨
      (∃ d g notify, r.table.lookup name = some g ∧
        add v r file now name desc = refresh v r g d notify) := by
  unfold add
  by_cases hvalid : validGroupName name
  · rw [if_neg (not_not_intro hvalid)]
    cases hlookup : r.table.lookup name with
    | none =>
        cases hdesc : desc.elim file.read .ok with
        | error e => exact .inl ⟨e, rfl⟩
        | ok d => exact .inr (.inr (.inl ⟨d, rfl, rfl⟩))
    | some g =>
        cases desc with
        | some d =>
            right; right; right
            simp only
            split_ifs
            · exact ⟨_, g, false, rfl, rfl⟩
            · exact ⟨d, g, true, rfl, rfl⟩
        | none =>
            simp only
            split_ifs
            · exact .inr (.inr (.inr ⟨_, g, false, rfl, rfl⟩))
            · cases file.read with
              | ok d => exact .inr (.inr (.inr ⟨d, g, true, rfl, rfl⟩))
              | error e => exact .inr (.inl ⟨e, g, rfl, rfl⟩)
  · rw [if_pos hvalid]
    exact .inl ⟨_, rfl⟩

theorem Registry.Sound.add (h : r.Sound) (v : View κ) (file : File) (now : ℕ) (name : String)
    (desc : Option Description) : (add v r file now name desc).registry.Sound := by
  rcases add_cases v r file now name desc with
    ⟨e, heq⟩ | ⟨e, g, hlookup, heq⟩ | ⟨d, hlookup, heq⟩ | ⟨d, g, notify, hlookup, heq⟩ <;> rw [heq]
  · exact h
  · exact h.deleteUnlocked (h.registered_of_lookup hlookup)
  · exact (h.create hlookup d now).refresh v _ d false
  · exact h.refresh v g d notify

theorem Registry.Sound.oneRoom {s : State κ} (h : s.registry.Sound) : OneRoom s := by
  refine ⟨h.registered, ?_⟩
  intro g g' c c' hc hc' hname
  have live : ∀ {g c}, c ∈ (s.registry.heap g).members → s.registry.Registered g := by
    intro g c hc
    apply h.registered
    simp only [Registry.Occupied, Group.isEmpty, decide_eq_false_iff_not]
    intro hempty
    simp [Group.members, hempty.1] at hc
  have hg := live hc
  have hg' := live hc'
  rw [Registry.Registered, hname] at hg
  exact Option.some.inj (hg.symm.trans hg')

/-- What a step that lets nobody in or out does to the registry. -/
structure Registry.Same (r r' : Registry κ) : Prop where
  size : r.size ≤ r'.size
  clients : ∀ g, (r'.heap g).clients = (r.heap g).clients
  bounded : r.Bounded → r'.Bounded

theorem Registry.Same.refl (r : Registry κ) : r.Same r := ⟨le_refl _, fun _ => rfl, id⟩

theorem Registry.Same.trans {r r' r'' : Registry κ} (h : r.Same r') (h' : r'.Same r'') :
    r.Same r'' :=
  ⟨Nat.le_trans h.size h'.size, fun g => (h'.clients g).trans (h.clients g), h'.bounded ∘ h.bounded⟩

theorem Registry.same_set {g : ℕ} {room : Groups.Group κ} (h : room.clients = (r.heap g).clients) :
    r.Same (r.set g room) := by
  refine ⟨le_refl _, ?_, id⟩
  intro g'
  by_cases hg : g' = g
  · subst g'
    simpa [Registry.set] using h
  · simp [Registry.set, hg]

theorem Registry.same_deleteUnlocked (g : ℕ) : r.Same (r.deleteUnlocked g) := by
  refine ⟨Nat.le_of_eq (Registry.size_deleteUnlocked g).symm, ?_, fun h => h.deleteUnlocked g⟩
  intro g'
  rw [Registry.heap_deleteUnlocked]

theorem Registry.same_delete (name : String) : r.Same (r.delete name).1 := by
  unfold Registry.delete
  split
  · exact .refl r
  · exact Registry.same_deleteUnlocked _

theorem Registry.same_create (hfresh : (r.heap r.size).clients = ∅) (name : String)
    (description : Description) (now : ℕ) : r.Same (r.create name description now) := by
  refine ⟨Nat.le_succ _, ?_, fun h => h.create name description now⟩
  intro g
  by_cases hg : g = r.size
  · subst g
    simpa [Registry.create] using hfresh.symm
  · rw [Registry.create_heap_of_ne hg]

theorem autoLockKick_clients (v : View κ) (room : Groups.Group κ) :
    (autoLockKick v room).1.clients = room.clients := by
  unfold autoLockKick
  split_ifs <;> simp only [] <;> split_ifs <;> rfl

theorem Registry.same_refresh (v : View κ) (g : ℕ) (desc : Description) (notify : Bool) :
    r.Same (refresh v r g desc notify).registry :=
  Registry.same_set (autoLockKick_clients v _)

theorem Registry.same_add (hfresh : (r.heap r.size).clients = ∅) (v : View κ) (file : File)
    (now : ℕ) (name : String) (desc : Option Description) :
    r.Same (add v r file now name desc).registry := by
  rcases add_cases v r file now name desc with
    ⟨e, heq⟩ | ⟨e, g, hlookup, heq⟩ | ⟨d, hlookup, heq⟩ | ⟨d, g, notify, hlookup, heq⟩ <;> rw [heq]
  · exact .refl r
  · exact Registry.same_deleteUnlocked g
  · exact (Registry.same_create hfresh name d now).trans (Registry.same_refresh v _ d false)
  · exact Registry.same_refresh v g d notify

theorem Registry.Bounded.add_lt (h : r.Bounded) {v : View κ} {file : File} {now : ℕ}
    {name : String} {desc : Option Description} {g : ℕ}
    (hg : (add v r file now name desc).group = .ok g) :
    g < (add v r file now name desc).registry.size := by
  rcases add_cases v r file now name desc with
    ⟨e, heq⟩ | ⟨e, g', hlookup, heq⟩ | ⟨d, hlookup, heq⟩ | ⟨d, g', notify, hlookup, heq⟩ <;>
    rw [heq] at hg ⊢
  · cases hg
  · cases hg
  · cases hg
    exact Nat.lt_succ_self _
  · cases hg
    exact h name g hlookup

end Table

theorem sound_step {s t : State κ} {a : Step κ} (h : s.registry.Sound) (hlocks : LocksRegistered s a)
    (hstep : step s a = some t) : t.registry.Sound := by
  cases a with
  | add v file now name desc =>
      cases hstep
      exact h.add v file now name desc
  | joinAdd v file now name c =>
      have hadd := h.add v file now name none
      simp only [step] at hstep
      split at hstep <;> cases hstep <;> exact hadd
  | joinLock v now c g token permission =>
      simp only [step] at hstep
      split_ifs at hstep
      cases hstep
      by_cases htaken : Enters v (s.registry.heap g) c token permission now ∨
          Knocks v (s.registry.heap g) c token permission
      · exact h.set (addSpec_addClient v (s.registry.heap g) c token permission now).name
          fun _ => hlocks htaken
      · obtain ⟨henters, hknocks⟩ := not_or.mp htaken
        exact h.set_keeps (keeps_addClient henters hknocks)
  | delClient v now c g =>
      simp only [step, Option.map_eq_some_iff] at hstep
      obtain ⟨room, hroom, rfl⟩ := hstep
      exact h.set_keeps (keeps_delClient hroom)
  | autoLockKick v g =>
      cases hstep
      exact h.set_keeps (keeps_autoLockKick v _)
  | admitKnock v g id =>
      simp only [step] at hstep
      split at hstep
      · cases hstep
        exact h
      · rename_i r hr
        cases hstep
        exact h.set_keeps (keeps_admitKnock hr)
  | deny v g id =>
      simp only [step] at hstep
      split at hstep
      · cases hstep
        exact h
      · rename_i r hr
        cases hstep
        exact h.set_keeps (keeps_deny hr)
  | removeKnock v g id =>
      cases hstep
      exact h.set_keeps (keeps_removeKnock v _ id)
  | setLocked g locked message =>
      cases hstep
      exact h.set_keeps (.of_maps rfl rfl rfl)
  | setLocked1on1 g on =>
      cases hstep
      exact h.set_keeps (.of_maps rfl rfl rfl)
  | mayExpire now name =>
      simp only [step] at hstep
      split at hstep
      · cases hstep
        exact h
      · split_ifs at hstep <;> cases hstep <;> exact h
  | delete name =>
      simp only [step] at hstep
      split_ifs at hstep
      cases hstep
      exact h.delete name

/-- As long as every `AddClient` that comes to lock its group finds it still in
the table, or turns its client away, a room name denotes at most one live room. -/
theorem oneRoom_of_registered {s : State κ} (h : Reachable (system (κ := κ)) LocksRegistered s) :
    OneRoom s := by
  apply Registry.Sound.oneRoom
  induction h with
  | init hs =>
      cases hs
      exact ⟨fun n g h => by simp at h, fun n g h => by simp at h,
        fun g h => by simp [Registry.Occupied, Group.isEmpty] at h⟩
  | step _ hlocks hstep ih => exact sound_step ih hlocks hstep

section Samples

instance (s : State κ) : (a : Step κ) → Decidable (LocksRegistered s a)
  | .joinLock v now c g token permission =>
      inferInstanceAs (Decidable (Enters v (s.registry.heap g) c token permission now ∨
        Knocks v (s.registry.heap g) c token permission →
          s.registry.table.lookup (s.registry.heap g).name = some g))
  | .add .. | .joinAdd .. | .delClient .. | .autoLockKick .. | .admitKnock .. | .deny ..
  | .removeKnock .. | .setLocked .. | .setLocked1on1 .. | .mayExpire .. | .delete .. => .isTrue trivial

/-- Visitors known by their ids, none of them an operator. -/
def visitors : View String :=
  { id := id, username := id, permissions := fun _ => [], data := fun _ => [] }

def roomFile : File := { stat := none, read := .ok {} }

def guest : Except Error (String × Permissions) := .ok ("guest", ["present", "message"])

/-- Two visitors meet in a room, which is not deleted under them. -/
def meeting : List (Step String) :=
  [.joinAdd visitors roomFile 0 "room" "alice", .joinAdd visitors roomFile 1 "room" "bob",
    .joinLock visitors 2 "bob" 0 "" guest, .delClient visitors 3 "bob" 0,
    .mayExpire 20000 "room", .joinLock visitors 20001 "alice" 0 "" guest, .delete "room"]

theorem meeting_oneRoom : ∃ s, system.exec LocksRegistered {} meeting = some s ∧
    "alice" ∈ (s.registry.heap 0).members ∧ OneRoom s := by
  obtain ⟨s, hs, halice⟩ : ∃ s ∈ system.exec LocksRegistered {} meeting,
      "alice" ∈ (s.registry.heap 0).members := by decide +kernel
  exact ⟨s, hs, halice, oneRoom_of_registered (.exec (.init rfl) hs)⟩

/-- The room expires between the two steps of alice's join, and bob's join
opens another one of the same name. -/
def split : List (Step String) :=
  [.add visitors roomFile 0 "room" none, .mayExpire 20000 "room",
    .joinAdd visitors roomFile 20000 "room" "alice", .delete "room",
    .joinAdd visitors roomFile 20000 "room" "bob", .joinLock visitors 20001 "bob" 1 "" guest,
    .joinLock visitors 20001 "alice" 0 "" guest]

theorem not_oneRoom : ¬ ∀ s, Reachable (system (κ := String)) Always s → OneRoom s := by
  intro h
  obtain ⟨s, hs, halice, hbob, hname⟩ : ∃ s ∈ system.exec Always {} split,
      "alice" ∈ (s.registry.heap 0).members ∧ "bob" ∈ (s.registry.heap 1).members ∧
        (s.registry.heap 0).name = (s.registry.heap 1).name := by decide +kernel
  have hroom := h s (.exec (.init rfl) hs)
  exact absurd (hroom.same 0 1 "alice" "bob" halice hbob hname) (by decide)

end Samples

end Sozvon.GroupTable
