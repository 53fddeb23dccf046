import Sozvon.Chat

/-!
# Each message once

What is written to a member, what its loop still has to write of the history,
the join action that will make it read that, and the places it has in the lists
of senders add up to one for every message.
-/
namespace Sozvon.Chat
open Groups Runs

section Definitions

def Written.serial : Written → Option ℕ
  | .chathistory e => some e.serial
  | .chat m => m.serial
  | .joined .. | .error _ => none

/-- How often message `k` has been written to the client. -/
def Client.copies (c : Client) (k : ℕ) : ℕ := c.written.countP fun x => x.serial = some k

/-- What the loop has read of the history and not written yet. -/
def Pc.rest : Pc → List ChatHistoryEntry
  | .reading history _ => history
  | .ready _ | .greeted _ | .added _ | .broadcasting .. | .ended => []

/-- How often the loop is still to read the history. -/
def Pc.joins : Pc → ℕ
  | .ready batch => batch.count .join
  | .greeted batch => batch.count .join + 1
  | .reading _ batch => batch.count .join
  | .added _ | .broadcasting .. | .ended => 0

def Client.joins (c : Client) : ℕ := c.actions.count .join + c.pc.joins

/-- The message that the loop is sending. -/
def Pc.message : Pc → Option ChatMessage
  | .added m | .broadcasting m _ => some m
  | .ready _ | .greeted _ | .reading .. | .ended => none

/-- Message `k` has been written to all those it goes to. -/
def Room.Sent (r : Room) (k : ℕ) : Prop :=
  ∀ s m, (r.clients s).pc.message = some m → m.serial ≠ some k

/-- The client has sent the message during its present membership and wants no echo. -/
def Room.Own (r : Room) (n k : ℕ) (s : Send) : Prop :=
  s.sender = n ∧ s.noEcho = true ∧ (r.clients n).since ≤ k

/-- No message is written twice to a member; one that has been sent is written to every
member that has handled its join; and a sender who wants no echo is sent none. -/
structure ExactlyOnce (r : Room) : Prop where
  once : ∀ n ∈ r.members, ∀ k, (r.clients n).copies k ≤ 1
  all : ∀ n ∈ r.members, (r.clients n).writerDone = false → (r.clients n).joins = 0 →
    (r.clients n).pc.rest = [] → ∀ k s, r.sends[k]? = some s → r.Sent k →
      (r.clients n).copies k = 1 ∨ r.Own n k s ∧ (r.clients n).copies k = 0
  echo : ∀ n m k, .chat m ∈ (r.clients n).written → m.noEcho = true → m.serial = some k →
    ∃ s, r.sends[k]? = some s ∧ s.sender ≠ n

/-- At most fifty messages are sent, none is cleared and none becomes obsolete. -/
def Room.Within (r : Room) : Label → Prop
  | .chat n m .. => m.dest = "" → r.MayChat n m.kind → r.sends.length < maxChatHistory
  | .clearchat n id userId => n ∈ r.members → "op" ∈ (r.clients n).permissions →
      clearChatHistory r.history id userId = r.history
  | .readHistory _ now => ∀ e ∈ r.history, now - e.time ≤ r.maxHistoryAge
  | _ => True

/-- Nothing that is being sent goes, or may still go, to the client. -/
def Pc.Spares (n : ℕ) : Pc → Prop
  | .added _ => False
  | .broadcasting _ cs => n ∉ cs
  | .ready _ | .greeted _ | .reading .. | .ended => True

/-- Nobody to whom a message goes has yet to read the history when it is added; and nobody
joins between that and the taking of the list, or comes back to a join action or a message
of an earlier stay. -/
def Room.Settled (r : Room) : Label → Prop
  | .chat n m .. => m.dest = "" → r.MayChat n m.kind →
      ∀ d ∈ r.getClients n m.noEcho, (r.clients d).joins = 0
  | .join n _ => (r.clients n).joins = 0 ∧ ∀ s ∈ r.members, (r.clients s).pc.Spares n
  | _ => True

/-- Copies of message `k` that the loop of `s` still has to write to `n`. -/
def Pc.due (pc : Pc) (s k n : ℕ) : ℕ :=
  match pc with
  | .added m => if m.serial = some k ∧ ¬ (m.noEcho = true ∧ n = s) then 1 else 0
  | .broadcasting m cs => if m.serial = some k then cs.count n else 0
  | .ready _ | .greeted _ | .reading .. | .ended => 0

/-- Copies of message `k` that the client has, or has in hand. -/
def Client.got (c : Client) (k : ℕ) : ℕ := c.copies k + c.pc.rest.countP fun e => e.serial = k

def Room.total (r : Room) (n k s : ℕ) : ℕ :=
  (r.clients n).got k + (r.clients n).joins + (r.clients s).pc.due s k n

structure Ledger (r : Room) : Prop where
  history : r.history.map (·.serial) = List.range r.sends.length
  nodup : r.members.Nodup
  since : ∀ n ∈ r.members, (r.clients n).since ≤ r.sends.length
  carried : ∀ s m, (r.clients s).pc.message = some m →
    s ∈ r.members ∧ ∃ k, m.serial = some k ∧ r.sends[k]? = some ⟨s, m.noEcho⟩
  joins : ∀ n ∈ r.members, (r.clients n).joins ≤ 1
  fresh : ∀ n ∈ r.members, ∀ k ≥ r.sends.length, (r.clients n).got k = 0
  counted : ∀ n ∈ r.members, ∀ k s, r.sends[k]? = some s → r.total n k s.sender ≤ 1 ∧
    ((r.clients n).writerDone = false →
      r.total n k s.sender = 1 ∨ r.Own n k s ∧ r.total n k s.sender = 0)

/-- Nobody who wants no echo gets one. -/
structure Silent (r : Room) : Prop where
  listed : ∀ n m cs, (r.clients n).pc = .broadcasting m cs → m.noEcho = true → n ∉ cs
  echo : ∀ n m k, .chat m ∈ (r.clients n).written → m.noEcho = true → m.serial = some k →
    ∃ s, r.sends[k]? = some s ∧ s.sender ≠ n

end Definitions

section Counts
variable {c : Client} {x : Written} {k s n : ℕ}

theorem copies_write (hserial : x.serial = none) : (c.write x).copies k = c.copies k := by
  unfold Client.write
  split
  · rfl
  · simp [Client.copies, hserial]

@[simp] theorem write_actions : (c.write x).actions = c.actions := by
  unfold Client.write
  split <;> rfl

@[simp] theorem write_pc : (c.write x).pc = c.pc := by
  unfold Client.write
  split <;> rfl

@[simp] theorem write_since : (c.write x).since = c.since := by
  unfold Client.write
  split <;> rfl

@[simp] theorem write_writerDone : (c.write x).writerDone = c.writerDone := by
  unfold Client.write
  split <;> rfl

@[simp] theorem write_joins : (c.write x).joins = c.joins := by
  simp [Client.joins]

/-- A message that has a number is one more copy, unless the writer has stopped. -/
theorem got_write_serial {j : ℕ} (hserial : x.serial = some j) :
    (c.write x).got k = c.got k + if j = k ∧ c.writerDone = false then 1 else 0 := by
  unfold Client.got Client.copies Client.write
  split
  · rename_i hdone
    simp [hdone]
  · rename_i hdone
    simp only [List.countP_append, List.countP_singleton, hserial]
    by_cases hk : j = k
    · simp [hk, hdone]
      omega
    · simp [hk]

theorem due_of_message_none {pc : Pc} (h : pc.message = none) : pc.due s k n = 0 := by
  cases pc with
  | added m => cases h
  | broadcasting m cs => cases h
  | ready | greeted | reading | ended => rfl

end Counts

/-- A step that changes no members and sends nothing, and accounts for what it does. -/
structure Keeps (r r' : Room) : Prop where
  members : r'.members = r.members
  sends : r'.sends = r.sends
  history : r'.history.map (·.serial) = r.history.map (·.serial)
  since : ∀ n, (r'.clients n).since = (r.clients n).since
  carried : ∀ s m, (r'.clients s).pc.message = some m → (r.clients s).pc.message = some m
  joins : ∀ n, (r'.clients n).joins ≤ (r.clients n).joins
  fresh : ∀ n, ∀ k ≥ r.sends.length, (r.clients n).got k = 0 → (r'.clients n).got k = 0
  total : ∀ n ∈ r.members, ∀ k s, r.sends[k]? = some s →
    r'.total n k s.sender ≤ r.total n k s.sender ∧ ((r'.clients n).writerDone = false →
      (r.clients n).writerDone = false ∧ r'.total n k s.sender = r.total n k s.sender)

theorem Ledger.keeps {r r' : Room} (h : Ledger r) (hk : Keeps r r') : Ledger r' where
  history := by rw [hk.history, hk.sends, h.history]
  nodup := hk.members ▸ h.nodup
  since n hn := by
    rw [hk.since, hk.sends]
    exact h.since n (hk.members ▸ hn)
  carried s m hm := by
    rw [hk.sends, hk.members]
    exact h.carried s m (hk.carried s m hm)
  joins n hn := Nat.le_trans (hk.joins n) (h.joins n (hk.members ▸ hn))
  fresh n hn k hge := by
    rw [hk.sends] at hge
    exact hk.fresh n k hge (h.fresh n (hk.members ▸ hn) k hge)
  counted n hn k s hs := by
    rw [hk.sends] at hs
    rw [hk.members] at hn
    obtain ⟨hle, hcount⟩ := h.counted n hn k s hs
    obtain ⟨hle', hsame⟩ := hk.total n hn k s hs
    refine ⟨Nat.le_trans hle' hle, fun hwriter => ?_⟩
    obtain ⟨hwriter', heq⟩ := hsame hwriter
    rw [heq, Room.Own, hk.since]
    exact hcount hwriter'

/-- What a step makes of the one client that takes it. -/
structure Account (r : Room) (n : ℕ) (c : Client) : Prop where
  since : c.since = (r.clients n).since
  carried : ∀ m, c.pc.message = some m → (r.clients n).pc.message = some m
  joins : c.joins ≤ (r.clients n).joins
  fresh : ∀ k ≥ r.sends.length, (r.clients n).got k = 0 → c.got k = 0
  got : n ∈ r.members → ∀ k < r.sends.length,
    c.got k + c.joins = (r.clients n).got k + (r.clients n).joins
  writer : c.writerDone = false → (r.clients n).writerDone = false
  due : ∀ k, ∀ d ∈ r.members, c.pc.due n k d = (r.clients n).pc.due n k d

section Account
variable {r : Room} {n : ℕ} {c : Client}

@[simp] theorem set_self : (r.set n c).clients n = c := by simp [Room.set]

theorem set_of_ne {m : ℕ} (h : m ≠ n) : (r.set n c).clients m = r.clients m := by
  simp [Room.set, h]

theorem Account.keeps (h : Account r n c) : Keeps r (r.set n c) where
  members := rfl
  sends := rfl
  history := rfl
  since m := by
    by_cases hm : m = n
    · subst m
      rw [set_self, h.since]
    · rw [set_of_ne hm]
  carried s m hm := by
    by_cases hs : s = n
    · subst s
      rw [set_self] at hm
      exact h.carried m hm
    · rwa [set_of_ne hs] at hm
  joins m := by
    by_cases hm : m = n
    · subst m
      rw [set_self]
      exact h.joins
    · rw [set_of_ne hm]
  fresh m k hk hgot := by
    by_cases hm : m = n
    · subst m
      rw [set_self]
      exact h.fresh k hk hgot
    · rwa [set_of_ne hm]
  total m hm k s hs := by
    have hk : k < r.sends.length := (List.getElem?_eq_some_iff.mp hs).1
    have hdue : ((r.set n c).clients s.sender).pc.due s.sender k m =
        (r.clients s.sender).pc.due s.sender k m := by
      by_cases hsender : s.sender = n
      · rw [hsender, set_self, h.due k m hm]
      · rw [set_of_ne hsender]
    have htotal : (r.set n c).total m k s.sender = r.total m k s.sender := by
      unfold Room.total
      rw [hdue]
      by_cases hself : m = n
      · subst m
        rw [set_self, h.got hm k hk]
      · rw [set_of_ne hself]
    refine ⟨Nat.le_of_eq htotal, fun hwriter => ⟨?_, htotal⟩⟩
    by_cases hself : m = n
    · subst m
      rw [set_self] at hwriter
      exact h.writer hwriter
    · rwa [set_of_ne hself] at hwriter

/-- Nothing is written that counts, and nothing more or less is to come. -/
theorem Account.of_same (hcopies : ∀ k, c.copies k = (r.clients n).copies k)
    (hrest : c.pc.rest = (r.clients n).pc.rest) (hjoins : c.joins = (r.clients n).joins)
    (hsince : c.since = (r.clients n).since)
    (hwriter : c.writerDone = false → (r.clients n).writerDone = false)
    (hcarried : ∀ m, c.pc.message = some m → (r.clients n).pc.message = some m)
    (hdue : ∀ k, ∀ d ∈ r.members, c.pc.due n k d = (r.clients n).pc.due n k d) : Account r n c := by
  have hgot : ∀ k, c.got k = (r.clients n).got k := by
    intro k
    rw [Client.got, Client.got, hcopies, hrest]
  exact {
    since := hsince
    carried := hcarried
    joins := Nat.le_of_eq hjoins
    fresh := fun k _ hnone => (hgot k).trans hnone
    got := fun _ k _ => by rw [hgot, hjoins]
    writer := hwriter
    due := hdue }

/-- While the loop sends nothing, its place does not matter. -/
theorem Account.of_quiet (hbefore : (r.clients n).pc.message = none) (hafter : c.pc.message = none)
    (since : c.since = (r.clients n).since) (writer : c.writerDone = (r.clients n).writerDone)
    (joins : c.joins ≤ (r.clients n).joins)
    (fresh : ∀ k ≥ r.sends.length, (r.clients n).got k = 0 → c.got k = 0)
    (got : n ∈ r.members → ∀ k < r.sends.length,
      c.got k + c.joins = (r.clients n).got k + (r.clients n).joins) : Account r n c where
  since := since
  carried m hm := by
    rw [hafter] at hm
    cases hm
  joins := joins
  fresh := fresh
  got := got
  writer hwriter := writer ▸ hwriter
  due k d _ := by rw [due_of_message_none hbefore, due_of_message_none hafter]

end Account

section Steps
variable {r : Room} {n : ℕ}

/-- A write without a number counts for nothing. -/
theorem keeps_write_none {x : Written} (hserial : x.serial = none) :
    Keeps r (r.set n ((r.clients n).write x)) := by
  refine Account.keeps (Account.of_same (fun k => copies_write hserial) ?_ write_joins write_since
    ?_ ?_ ?_)
  · rw [write_pc]
  · exact fun hwriter => by rwa [write_writerDone] at hwriter
  · exact fun m hm => by rwa [write_pc] at hm
  · exact fun k d _ => by rw [write_pc]

theorem keeps_error (text : String) : Keeps r (r.error n text) := keeps_write_none rfl

theorem keeps_change :
    Keeps r (r.set n { r.clients n with actions := (r.clients n).actions ++ [.change] }) := by
  refine Account.keeps (Account.of_same (fun _ => rfl) rfl ?_ rfl (fun h => h) (fun _ h => h)
    fun _ _ _ => rfl)
  simp [Client.joins]

theorem keeps_take (hpc : (r.clients n).pc = .ready []) :
    Keeps r (r.set n { r.clients n with pc := .ready (r.clients n).actions, actions := [] }) := by
  refine Account.keeps (Account.of_same (fun _ => rfl) ?_ ?_ rfl (fun h => h) nofun ?_)
  · rw [hpc]
    rfl
  · simp [Client.joins, Pc.joins, hpc]
  · rw [hpc]
    exact fun _ _ _ => rfl

theorem keeps_act {kind : JoinedKind} {batch : List JoinedKind}
    (hpc : (r.clients n).pc = .ready (kind :: batch)) : Keeps r (r.act n kind batch) := by
  unfold Room.act
  dsimp only
  -- only a join leaves something to be read
  have hplace : ∀ pc : Pc, pc = (if kind = .join then .greeted batch else .ready batch) →
      pc.message = none ∧ pc.rest = [] ∧ pc.joins = (kind :: batch).count .join := by
    rintro pc rfl
    split
    · rename_i hkind
      subst hkind
      exact ⟨rfl, rfl, by simp [Pc.joins]⟩
    · rename_i hkind
      exact ⟨rfl, rfl, by simp [Pc.joins, hkind]⟩
  obtain ⟨hmessage, hrest, hjoins⟩ := hplace _ rfl
  generalize (if kind = .join then Pc.greeted batch else .ready batch) = pc at hmessage hrest hjoins
  refine Account.keeps (Account.of_same ?_ ?_ ?_ write_since ?_ ?_ ?_)
  · exact fun k => copies_write (c := r.clients n) rfl
  · rw [hpc]
    exact hrest
  · rw [Client.joins, Client.joins, hjoins, write_actions, hpc]
    rfl
  · exact fun hwriter => by rwa [write_writerDone] at hwriter
  · intro m hm
    rw [hmessage] at hm
    cases hm
  · intro k d _
    rw [hpc, due_of_message_none hmessage]
    rfl

/-- Nothing is obsolete, so nothing is discarded. -/
theorem discard_eq {h : List ChatHistoryEntry} {duration now : ℤ}
    (hage : ∀ e ∈ h, now - e.time ≤ duration) : discardObsoleteHistory h duration now = h := by
  unfold discardObsoleteHistory
  cases h with
  | nil => rfl
  | cons e h =>
      have hfirst := hage e List.mem_cons_self
      rw [List.dropWhile_cons_of_neg]
      simpa using hfirst

theorem countP_serial {h : List ChatHistoryEntry} {len : ℕ} (hserials : h.map (·.serial) = List.range len)
    (k : ℕ) : h.countP (fun e => e.serial = k) = if k < len then 1 else 0 := by
  have hcount : h.countP (fun e => e.serial = k) = (h.map (·.serial)).count k := by
    rw [List.count, List.countP_map]
    congr 1
  rw [hcount, hserials, List.count_range]

theorem keeps_readHistory (h : Ledger r) {batch : List JoinedKind} {now : ℤ}
    (hpc : (r.clients n).pc = .greeted batch)
    (hage : ∀ e ∈ r.history, now - e.time ≤ r.maxHistoryAge) : Keeps r (r.readHistory n batch now) := by
  unfold Room.readHistory
  rw [discard_eq hage]
  have hjoins : ({ r.clients n with pc := .reading r.history batch } : Client).joins + 1 =
      (r.clients n).joins := by
    simp only [Client.joins, Pc.joins, hpc]
    omega
  have hgot : ∀ k, ({ r.clients n with pc := .reading r.history batch } : Client).got k =
      (r.clients n).got k + if k < r.sends.length then 1 else 0 := by
    intro k
    simp only [Client.got, Client.copies, Pc.rest, hpc, countP_serial h.history k]
    rfl
  refine Account.keeps (Account.of_quiet ?_ rfl rfl rfl (by omega) ?_ ?_)
  · rw [hpc]
    rfl
  · intro k hk hnone
    rw [hgot, if_neg (by omega), hnone]
  · intro _ k hk
    rw [hgot, if_pos hk]
    omega

theorem keeps_writeHistory {e : ChatHistoryEntry} {rest : List ChatHistoryEntry}
    {batch : List JoinedKind} (hpc : (r.clients n).pc = .reading (e :: rest) batch)
    (hwriter : (r.clients n).writerDone = false) :
    Keeps r (r.set n { (r.clients n).write (.chathistory e) with pc := .reading rest batch }) := by
  have hwrite : (r.clients n).write (.chathistory e) =
      { r.clients n with written := (r.clients n).written ++ [.chathistory e] } := by
    simp [Client.write, hwriter]
  rw [hwrite]
  have hgot : ∀ k, ({ r.clients n with
      written := (r.clients n).written ++ [.chathistory e], pc := .reading rest batch } : Client).got k =
        (r.clients n).got k := by
    intro k
    simp only [Client.got, Client.copies, Pc.rest, hpc, List.countP_append, List.countP_cons,
      Written.serial]
    by_cases hk : e.serial = k
    · simp [hk]
      omega
    · simp [hk]
  have hjoins : ({ r.clients n with
      written := (r.clients n).written ++ [.chathistory e], pc := .reading rest batch } : Client).joins =
        (r.clients n).joins := by
    simp [Client.joins, Pc.joins, hpc]
  refine Account.keeps (Account.of_quiet ?_ rfl rfl rfl (Nat.le_of_eq hjoins) ?_ ?_)
  · rw [hpc]
    rfl
  · exact fun k _ h => (hgot k).trans h
  · exact fun _ k _ => by rw [hgot, hjoins]

theorem keeps_writeHistory_done {batch : List JoinedKind} (hpc : (r.clients n).pc = .reading [] batch) :
    Keeps r (r.set n { r.clients n with pc := .ready batch }) := by
  refine Account.keeps (Account.of_same (fun _ => rfl) ?_ ?_ rfl (fun h => h) nofun ?_)
  · rw [hpc]
    rfl
  · simp [Client.joins, Pc.joins, hpc]
  · rw [hpc]
    exact fun _ _ _ => rfl

/-- Every member to whom the message goes has one place in the list. -/
theorem keeps_getClients (h : Ledger r) {m : ChatMessage} {cs : List ℕ}
    (hpc : (r.clients n).pc = .added m) (hcs : cs.Perm (r.getClients n m.noEcho)) :
    Keeps r (r.set n { r.clients n with pc := .broadcasting m cs }) := by
  refine Account.keeps (Account.of_same (fun _ => rfl) ?_ ?_ rfl (fun h => h) ?_ ?_)
  · rw [hpc]
    rfl
  · simp [Client.joins, Pc.joins, hpc]
  · rw [hpc]
    exact fun _ hm => hm
  · intro k d hd
    have hcount : cs.count d = if m.noEcho = true ∧ d = n then 0 else 1 := by
      rw [hcs.count_eq]
      unfold Room.getClients
      split
      · rename_i hown
        rw [List.count_eq_zero]
        exact fun hmem => of_decide_eq_true (List.mem_filter.mp hmem).2 hown
      · rename_i hother
        exact List.count_eq_one_of_mem (h.nodup.filter _)
          (List.mem_filter.mpr ⟨hd, decide_eq_true hother⟩)
    rw [hpc]
    simp only [Pc.due, hcount]
    by_cases hserial : m.serial = some k
    · by_cases hown : m.noEcho = true ∧ d = n <;> simp [hserial, hown]
    · simp [hserial]

theorem keeps_write_done {m : ChatMessage} (hpc : (r.clients n).pc = .broadcasting m []) :
    Keeps r (r.set n { r.clients n with pc := .ready [] }) := by
  refine Account.keeps (Account.of_same (fun _ => rfl) ?_ ?_ rfl (fun h => h) nofun ?_)
  · rw [hpc]
    rfl
  · simp [Client.joins, Pc.joins, hpc]
  · rw [hpc]
    simp [Pc.due]

theorem keeps_stopWriter : Keeps r (r.set n { r.clients n with writerDone := true }) :=
  Account.keeps (Account.of_same (fun _ => rfl) rfl rfl rfl nofun (fun _ h => h) fun _ _ _ => rfl)

/-- A message is written to the next one of those that it is for. -/
def Room.copied (r : Room) (n d : ℕ) (m : ChatMessage) (cs : List ℕ) : Room :=
  (r.set d ((r.clients d).write (.chat m))).set n
    { (r.set d ((r.clients d).write (.chat m))).clients n with pc := .broadcasting m cs }

variable {m : ChatMessage} {d i j k : ℕ} {cs : List ℕ}

theorem pc_copied : ((r.copied n d m cs).clients i).pc =
    if i = n then .broadcasting m cs else (r.clients i).pc := by
  unfold Room.copied
  by_cases hi : i = n
  · subst i
    rw [set_self, if_pos rfl]
  · rw [set_of_ne hi, if_neg hi]
    by_cases hd : i = d
    · subst i
      rw [set_self, write_pc]
    · rw [set_of_ne hd]

theorem client_copied : ((r.copied n d m cs).clients i).written =
      (if i = d then (r.clients d).write (.chat m) else r.clients i).written ∧
    ((r.copied n d m cs).clients i).actions = (r.clients i).actions ∧
    ((r.copied n d m cs).clients i).since = (r.clients i).since ∧
    ((r.copied n d m cs).clients i).writerDone = (r.clients i).writerDone := by
  unfold Room.copied
  by_cases hd : i = d
  · subst i
    rw [if_pos rfl]
    by_cases hi : d = n
    · subst d
      rw [set_self, set_self]
      exact ⟨rfl, write_actions, write_since, write_writerDone⟩
    · rw [set_of_ne hi, set_self]
      exact ⟨rfl, write_actions, write_since, write_writerDone⟩
  · rw [if_neg hd]
    by_cases hi : i = n
    · subst i
      rw [set_self, set_of_ne hd]
      exact ⟨rfl, rfl, rfl, rfl⟩
    · rw [set_of_ne hi, set_of_ne hd]
      exact ⟨rfl, rfl, rfl, rfl⟩

theorem joins_copied (hpc : (r.clients n).pc = .broadcasting m (d :: cs)) :
    ((r.copied n d m cs).clients i).joins = (r.clients i).joins := by
  rw [Client.joins, Client.joins, client_copied.2.1, pc_copied]
  split
  · rename_i hi
    rw [hi, hpc]
    rfl
  · rfl

theorem got_copied (hpc : (r.clients n).pc = .broadcasting m (d :: cs)) (hserial : m.serial = some j) :
    ((r.copied n d m cs).clients i).got k = (r.clients i).got k +
      if i = d ∧ j = k ∧ (r.clients d).writerDone = false then 1 else 0 := by
  have hrest : ((r.copied n d m cs).clients i).pc.rest = (r.clients i).pc.rest := by
    rw [pc_copied]
    split
    · rename_i hi
      rw [hi, hpc]
      rfl
    · rfl
  have hcopies : ((r.copied n d m cs).clients i).got k =
      (if i = d then (r.clients d).write (.chat m) else r.clients i).got k := by
    rw [Client.got, Client.got, Client.copies, client_copied.1, hrest]
    split
    · rename_i hd
      rw [hd, write_pc]
      rfl
    · rfl
  rw [hcopies]
  by_cases hd : i = d
  · subst i
    rw [if_pos rfl, got_write_serial (x := .chat m) (j := j) hserial]
    simp
  · rw [if_neg hd]
    simp [hd]

/-- The copy has been due. -/
theorem due_copied {s : Send} (hpc : (r.clients n).pc = .broadcasting m (d :: cs))
    (hserial : m.serial = some j) (hj : j = k → s.sender = n) :
    (r.clients s.sender).pc.due s.sender k i =
      ((r.copied n d m cs).clients s.sender).pc.due s.sender k i + if i = d ∧ j = k then 1 else 0 := by
  rw [pc_copied]
  by_cases hsender : s.sender = n
  · rw [if_pos hsender, hsender, hpc]
    simp only [Pc.due, hserial, Option.some.injEq, List.count_cons, beq_iff_eq]
    by_cases hk : j = k
    · simp [hk, eq_comm]
    · simp [hk]
  · rw [if_neg hsender]
    have hother : j ≠ k := fun hk => hsender (hj hk)
    simp [hother]

/-- A place in the list becomes a copy. -/
theorem keeps_write (h : Ledger r) (hpc : (r.clients n).pc = .broadcasting m (d :: cs)) :
    Keeps r (r.copied n d m cs) := by
  obtain ⟨-, j, hserial, hj⟩ := h.carried n m (by rw [hpc]; rfl)
  have hlt : j < r.sends.length := (List.getElem?_eq_some_iff.mp hj).1
  refine ⟨rfl, rfl, rfl, fun i => client_copied.2.2.1, ?_,
    fun i => Nat.le_of_eq (joins_copied hpc), ?_, ?_⟩
  · intro i m' hm
    rw [pc_copied] at hm
    split at hm
    · rename_i hi
      rw [hi, hpc]
      exact hm
    · exact hm
  · intro i k hk hnone
    have hother : j ≠ k := by omega
    rw [got_copied hpc hserial, hnone]
    simp [hother]
  · intro i hi k s hs
    have hsender : j = k → s.sender = n := by
      rintro rfl
      exact congrArg Send.sender (Option.some.inj (hs.symm.trans hj))
    have hbefore := due_copied (i := i) hpc hserial hsender
    unfold Room.total
    rw [joins_copied hpc, got_copied hpc hserial, hbefore, client_copied.2.2.2]
    by_cases hd : i = d ∧ j = k
    · obtain ⟨rfl, rfl⟩ := hd
      cases hwriter : (r.clients i).writerDone with
      | false =>
          simp
          omega
      | true => simp
    · have hnone : ¬ (i = d ∧ j = k ∧ (r.clients d).writerDone = false) := fun h => hd ⟨h.1, h.2.1⟩
      rw [if_neg hd, if_neg hnone]
      exact ⟨by omega, fun hwriter => ⟨hwriter, rfl⟩⟩

end Steps

section Members
variable {r : Room} {n : ℕ}

/-- A client that is gone is owed nothing; that it is gone changes nothing for others. -/
theorem Ledger.gone (h : Ledger r) {c : Client} (hafter : c.pc.message = none)
    (hbefore : (r.clients n).pc.message = none) :
    Ledger { r.set n c with members := r.members.erase n } := by
  have hother : ∀ i ∈ r.members.erase n, i ∈ r.members ∧ (r.set n c).clients i = r.clients i := by
    intro i hi
    obtain ⟨hne, hold⟩ := (List.Nodup.mem_erase_iff h.nodup).mp hi
    exact ⟨hold, set_of_ne hne⟩
  refine ⟨h.history, h.nodup.erase n, ?_, ?_, ?_, ?_, ?_⟩
  · intro i hi
    obtain ⟨hold, hsame⟩ := hother i hi
    dsimp only
    rw [hsame]
    exact h.since i hold
  · intro s m hm
    by_cases hs : s = n
    · subst s
      dsimp only at hm
      rw [set_self, hafter] at hm
      cases hm
    · dsimp only at hm
      rw [set_of_ne hs] at hm
      obtain ⟨hmember, hsend⟩ := h.carried s m hm
      exact ⟨(List.mem_erase_of_ne hs).mpr hmember, hsend⟩
  · intro i hi
    obtain ⟨hold, hsame⟩ := hother i hi
    dsimp only
    rw [hsame]
    exact h.joins i hold
  · intro i hi
    obtain ⟨hold, hsame⟩ := hother i hi
    dsimp only
    rw [hsame]
    exact h.fresh i hold
  · intro i hi k s hs
    obtain ⟨hold, hsame⟩ := hother i hi
    have hdue : ((r.set n c).clients s.sender).pc.due s.sender k i =
        (r.clients s.sender).pc.due s.sender k i := by
      by_cases hsender : s.sender = n
      · rw [hsender, set_self, due_of_message_none hafter, due_of_message_none hbefore]
      · rw [set_of_ne hsender]
    have htotal : Room.total { r.set n c with members := r.members.erase n } i k s.sender =
        r.total i k s.sender := by
      dsimp only [Room.total]
      rw [hsame, hdue]
    rw [htotal, Room.Own]
    dsimp only
    rw [hsame]
    exact h.counted i hold k s hs

/-- A new member is owed all messages, as history. -/
theorem Ledger.join (h : Ledger r) {permissions : Permissions} (hpc : (r.clients n).pc = .ready [])
    (hout : n ∉ r.members) (hok : r.Settled (.join n permissions)) :
    Ledger { r.set n { r.clients n with
      permissions, actions := (r.clients n).actions ++ [.join], written := [], since := r.sends.length }
        with members := n :: r.members } := by
  obtain ⟨hjoins, hsenders⟩ := hok
  generalize hc : ({ r.clients n with
    permissions, actions := (r.clients n).actions ++ [.join], written := []
    since := r.sends.length } : Client) = c
  have hpc' : c.pc = .ready [] := by
    rw [← hc]
    exact hpc
  have hjoins' : c.joins = 1 := by
    rw [Client.joins, hpc] at hjoins
    rw [Client.joins, hpc', ← hc]
    simp only [List.count_append, List.count_singleton, beq_self_eq_true, if_true]
    omega
  have hgot : ∀ k, c.got k = 0 := by
    intro k
    rw [Client.got, hpc', ← hc]
    rfl
  have hold : ∀ i ∈ n :: r.members, i ≠ n → i ∈ r.members := by
    intro i hi hne
    exact (List.mem_cons.mp hi).resolve_left hne
  have hplace : ∀ s, ((r.set n c).clients s).pc = (r.clients s).pc := by
    intro s
    by_cases hs : s = n
    · subst s
      rw [set_self, hpc', hpc]
    · rw [set_of_ne hs]
  have hdue : ∀ s k, (r.clients s).pc.due s k n = 0 := by
    intro s k
    have hmember := h.carried s
    have hs := hsenders s
    cases hat : (r.clients s).pc with
    | added m =>
        rw [hat] at hs hmember
        exact (hs (hmember m rfl).1).elim
    | broadcasting m cs =>
        rw [hat] at hs hmember
        simp [Pc.due, List.count_eq_zero.mpr (hs (hmember m rfl).1)]
    | ready | greeted | reading | ended => rfl
  refine ⟨h.history, List.nodup_cons.mpr ⟨hout, h.nodup⟩, ?_, ?_, ?_, ?_, ?_⟩
  · intro i hi
    dsimp only
    by_cases hself : i = n
    · subst i
      rw [set_self, ← hc]
      exact Nat.le_refl _
    · rw [set_of_ne hself]
      exact h.since i (hold i hi hself)
  · intro s m hm
    dsimp only at hm
    rw [hplace] at hm
    exact (h.carried s m hm).imp_left (List.mem_cons_of_mem n)
  · intro i hi
    dsimp only
    by_cases hself : i = n
    · subst i
      rw [set_self, hjoins']
    · rw [set_of_ne hself]
      exact h.joins i (hold i hi hself)
  · intro i hi k hk
    dsimp only
    by_cases hself : i = n
    · subst i
      rw [set_self, hgot]
    · rw [set_of_ne hself]
      exact h.fresh i (hold i hi hself) k hk
  · intro i hi k s hs
    dsimp only [Room.total, Room.Own]
    rw [hplace]
    by_cases hself : i = n
    · subst i
      rw [set_self, hgot, hjoins', hdue]
      exact ⟨Nat.le_refl _, fun _ => .inl rfl⟩
    · rw [set_of_ne hself]
      exact h.counted i (hold i hi hself) k s hs

theorem addToChatHistory_eq {history : List ChatHistoryEntry} (h : history.length < maxChatHistory)
    (e : ChatHistoryEntry) : addToChatHistory history e = history ++ [e] := by
  rw [addToChatHistory, if_neg (Nat.not_le.mpr h)]

/-- A new message is owed to all to whom it goes, and to its sender if that has still to read
the history. -/
theorem Ledger.add (h : Ledger r) {e : ChatHistoryEntry} {m : ChatMessage} (hn : n ∈ r.members)
    (hpc : (r.clients n).pc = .ready []) (hserial : m.serial = some r.sends.length)
    (he : e.serial = r.sends.length) (hlen : r.sends.length < maxChatHistory)
    (hok : ∀ d ∈ r.getClients n m.noEcho, (r.clients d).joins = 0) :
    Ledger { r.set n { r.clients n with pc := .added m } with
      history := addToChatHistory r.history e, sends := r.sends ++ [⟨n, m.noEcho⟩] } := by
  have hlength : r.history.length = r.sends.length := by
    simpa using congrArg List.length h.history
  generalize hc : ({ r.clients n with pc := .added m } : Client) = c
  have hgot : ∀ i k, ((r.set n c).clients i).got k = (r.clients i).got k := by
    intro i k
    by_cases hi : i = n
    · subst i
      rw [set_self, ← hc, Client.got, Client.got, hpc]
      rfl
    · rw [set_of_ne hi]
  have hjoins : ∀ i, ((r.set n c).clients i).joins = (r.clients i).joins := by
    intro i
    by_cases hi : i = n
    · subst i
      rw [set_self, ← hc, Client.joins, Client.joins, hpc]
      rfl
    · rw [set_of_ne hi]
  have hsame : ∀ i, ((r.set n c).clients i).since = (r.clients i).since ∧
      ((r.set n c).clients i).writerDone = (r.clients i).writerDone := by
    intro i
    by_cases hi : i = n
    · subst i
      rw [set_self, ← hc]
      exact ⟨rfl, rfl⟩
    · rw [set_of_ne hi]
      exact ⟨rfl, rfl⟩
  have hcarried : ∀ s m', ((r.set n c).clients s).pc.message = some m' →
      s = n ∧ m' = m ∨ (r.clients s).pc.message = some m' := by
    intro s m' hm
    by_cases hs : s = n
    · subst s
      rw [set_self, ← hc] at hm
      exact .inl ⟨rfl, (Option.some.inj hm).symm⟩
    · rw [set_of_ne hs] at hm
      exact .inr hm
  refine ⟨?_, h.nodup, ?_, ?_, ?_, ?_, ?_⟩
  · dsimp only
    rw [addToChatHistory_eq (hlength ▸ hlen), List.map_append, h.history]
    simp [he, List.range_succ]
  · intro i hi
    dsimp only
    rw [(hsame i).1, List.length_append]
    exact Nat.le_add_right_of_le (h.since i hi)
  · intro s m' hm
    rcases hcarried s m' hm with ⟨rfl, rfl⟩ | hold
    · exact ⟨hn, _, hserial, by simp⟩
    · obtain ⟨hmember, k, hk, hsend⟩ := h.carried s m' hold
      refine ⟨hmember, k, hk, ?_⟩
      dsimp only
      rw [List.getElem?_append_left (List.getElem?_eq_some_iff.mp hsend).1, hsend]
  · intro i hi
    dsimp only
    rw [hjoins]
    exact h.joins i hi
  · intro i hi k hk
    dsimp only at hk ⊢
    rw [List.length_append] at hk
    rw [hgot]
    exact h.fresh i hi k (by omega)
  · intro i hi k s hs
    dsimp only [Room.total, Room.Own] at hs ⊢
    rw [hgot, hjoins, (hsame i).1, (hsame i).2]
    rcases Nat.lt_or_ge k r.sends.length with hk | hk
    · -- an earlier message: its sender, if it is still at it, is another client
      rw [List.getElem?_append_left hk] at hs
      have hdue : ((r.set n c).clients s.sender).pc.due s.sender k i =
          (r.clients s.sender).pc.due s.sender k i := by
        by_cases hsender : s.sender = n
        · have hne : m.serial ≠ some k := by
            rw [hserial]
            exact fun h => by injection h; omega
          rw [hsender, set_self, ← hc, hpc]
          simp [Pc.due, hne]
        · rw [set_of_ne hsender]
      rw [hdue]
      exact h.counted i hi k s hs
    · have hlast : k = r.sends.length ∧ s = ⟨n, m.noEcho⟩ := by
        have hlt := (List.getElem?_eq_some_iff.mp hs).1
        rw [List.length_append, List.length_singleton] at hlt
        obtain rfl : k = r.sends.length := by omega
        simpa [eq_comm] using hs
      obtain ⟨rfl, rfl⟩ := hlast
      have hdue : ((r.set n c).clients n).pc.due n r.sends.length i =
          if m.noEcho = true ∧ i = n then 0 else 1 := by
        rw [set_self, ← hc]
        simp only [Pc.due, hserial, true_and]
        split_ifs <;> rfl
      rw [h.fresh i hi _ (Nat.le_refl _), hdue]
      split
      · rename_i hown
        have hone := h.joins i hi
        refine ⟨by omega, fun _ => ?_⟩
        rcases Nat.lt_or_ge 0 (r.clients i).joins with hsome | hnone
        · exact .inl (by omega)
        · exact .inr ⟨⟨hown.2.symm, hown.1, h.since i hi⟩, by omega⟩
      · rename_i hother
        have hnone : (r.clients i).joins = 0 :=
          hok i (List.mem_filter.mpr ⟨hi, decide_eq_true hother⟩)
        rw [hnone]
        exact ⟨Nat.le_refl _, fun _ => .inl rfl⟩

theorem Ledger.chat (h : Ledger r) {m : ClientMessage} {fresh : String} {now : ℤ}
    (hpc : (r.clients n).pc = .ready []) (hwithin : r.Within (.chat n m fresh now))
    (hok : r.Settled (.chat n m fresh now)) : Ledger (r.chat n m fresh now) := by
  unfold Room.chat
  dsimp only
  split
  · exact h.keeps (keeps_error _)
  split
  · exact h.keeps (keeps_error _)
  rename_i hmay
  have hmay' := not_not.mp hmay
  split
  · rename_i hdest
    exact h.add hmay'.1 hpc rfl rfl (hwithin hdest hmay') (hok hdest hmay')
  split
  · exact h.keeps (keeps_error _)
  · exact h.keeps (keeps_write_none rfl)

theorem Ledger.step {r' : Room} {a : Label} (h : Ledger r) (hwithin : r.Within a) (hok : r.Settled a)
    (hstep : r.step a = some r') : Ledger r' := by
  cases a with
  | join n permissions =>
      dsimp only [Room.step] at hstep
      split at hstep
      case isFalse => cases hstep
      rename_i hready
      cases hstep
      exact h.join hready.1 (fun hin => hready.2.2 (List.mem_map.mpr ⟨n, hin, rfl⟩)) hok
  | leave n =>
      dsimp only [Room.step] at hstep
      split at hstep
      case isFalse => cases hstep
      rename_i hready
      cases hstep
      refine h.gone ?_ ?_ <;> (rw [hready.1]; rfl)
  | fail n =>
      dsimp only [Room.step] at hstep
      split at hstep
      · rename_i hpc
        cases hstep
        exact h.gone rfl (by rw [hpc]; rfl)
      · rename_i hpc
        split at hstep <;> cases hstep
        exact h.gone rfl (by rw [hpc]; rfl)
      · rename_i hpc
        split at hstep <;> cases hstep
        exact h.gone rfl (by rw [hpc]; rfl)
      · cases hstep
      · cases hstep
      · cases hstep
  | change n =>
      dsimp only [Room.step] at hstep
      split at hstep <;> cases hstep
      exact h.keeps keeps_change
  | take n =>
      dsimp only [Room.step] at hstep
      split at hstep
      case isFalse => cases hstep
      rename_i hpc
      cases hstep
      exact h.keeps (keeps_take hpc)
  | act n =>
      dsimp only [Room.step] at hstep
      split at hstep
      · rename_i hpc
        split at hstep <;> cases hstep
        exact h.keeps (keeps_act hpc)
      · cases hstep
  | readHistory n now =>
      dsimp only [Room.step] at hstep
      split at hstep
      · rename_i hpc
        cases hstep
        exact h.keeps (keeps_readHistory h hpc hwithin)
      · cases hstep
  | writeHistory n =>
      dsimp only [Room.step] at hstep
      split at hstep
      · rename_i hpc
        cases hstep
        exact h.keeps (keeps_writeHistory_done hpc)
      · rename_i hpc
        split at hstep
        · cases hstep
        rename_i hwriter
        cases hstep
        exact h.keeps (keeps_writeHistory hpc (by simpa using hwriter))
      · cases hstep
  | chat n m fresh now =>
      dsimp only [Room.step] at hstep
      split at hstep
      case isFalse => cases hstep
      rename_i hpc
      cases hstep
      exact h.chat hpc hwithin hok
  | getClients n cs =>
      dsimp only [Room.step] at hstep
      split at hstep
      · rename_i hpc
        split at hstep
        case isFalse => cases hstep
        rename_i hcs
        cases hstep
        exact h.keeps (keeps_getClients h hpc hcs)
      · cases hstep
  | write n =>
      dsimp only [Room.step] at hstep
      split at hstep
      · rename_i hpc
        cases hstep
        exact h.keeps (keeps_write_done hpc)
      · rename_i hpc
        cases hstep
        exact h.keeps (keeps_write h hpc)
      · cases hstep
  | clearchat n id userId =>
      dsimp only [Room.step] at hstep
      split at hstep
      case isFalse => cases hstep
      cases hstep
      unfold Room.clearchat
      split
      · exact h.keeps (keeps_error _)
      rename_i hin
      split
      · exact h.keeps (keeps_error _)
      rename_i hop
      rw [hwithin (not_not.mp hin) (not_not.mp hop)]
      exact h
  | stopWriter n =>
      cases hstep
      exact h.keeps keeps_stopWriter

end Members

section Echo
variable {r r' : Room} {n : ℕ} {c : Client}

theorem mem_write {x y : Written} (h : y ∈ (c.write x).written) : y ∈ c.written ∨ y = x := by
  unfold Client.write at h
  split at h
  · exact .inl h
  · simpa using h

theorem Silent.set (h : Silent r) (hpc : ∀ m cs, c.pc = .broadcasting m cs → m.noEcho = true → n ∉ cs)
    (hwritten : ∀ m k, .chat m ∈ c.written → m.noEcho = true → m.serial = some k →
      .chat m ∈ (r.clients n).written ∨ ∃ s, r.sends[k]? = some s ∧ s.sender ≠ n) :
    Silent (r.set n c) := by
  constructor
  · intro i m cs hat
    by_cases hi : i = n
    · subst i
      rw [set_self] at hat
      exact hpc m cs hat
    · rw [set_of_ne hi] at hat
      exact h.listed i m cs hat
  · intro i m k hmem hno hserial
    by_cases hi : i = n
    · subst i
      rw [set_self] at hmem
      rcases hwritten m k hmem hno hserial with hold | hnew
      · exact h.echo n m k hold hno hserial
      · exact hnew
    · rw [set_of_ne hi] at hmem
      exact h.echo i m k hmem hno hserial

/-- No step but a `chat` and a `write` writes messages or takes up new ones. -/
theorem Silent.quiet (h : Silent r) (hpc : c.pc.message = none) (hwritten : c.written ⊆ (r.clients n).written) :
    Silent (r.set n c) := by
  refine h.set ?_ fun m k hmem _ _ => .inl (hwritten hmem)
  intro m cs hat
  rw [hat] at hpc
  cases hpc

theorem Silent.write (h : Silent r) {x : Written}
    (hx : ∀ m k, x = .chat m → m.noEcho = true → m.serial = some k →
      ∃ s, r.sends[k]? = some s ∧ s.sender ≠ n) : Silent (r.set n ((r.clients n).write x)) := by
  refine h.set ?_ ?_
  · intro m cs hat
    rw [write_pc] at hat
    exact h.listed n m cs hat
  · intro m k hmem hno hserial
    exact (mem_write hmem).imp_right fun heq => hx m k heq.symm hno hserial

theorem Silent.of_same (h : Silent r) (hclients : r'.clients = r.clients)
    (hsends : ∀ (k : ℕ) (s : Send), r.sends[k]? = some s → r'.sends[k]? = some s) : Silent r' := by
  constructor
  · rw [hclients]
    exact h.listed
  · intro i m k hmem hno hserial
    rw [hclients] at hmem
    obtain ⟨s, hs, hne⟩ := h.echo i m k hmem hno hserial
    exact ⟨s, hsends k s hs, hne⟩

theorem Silent.chat (h : Silent r) (n : ℕ) (m : ClientMessage) (fresh : String) (now : ℤ) :
    Silent (r.chat n m fresh now) := by
  have herror : ∀ text, Silent (r.error n text) := fun text => h.write nofun
  unfold Room.chat
  dsimp only
  split
  · exact herror _
  split
  · exact herror _
  split
  · refine Silent.of_same (r := r.set n { r.clients n with pc := .added _ })
      (h.set nofun fun m k hmem _ _ => .inl hmem) rfl ?_
    intro k s hs
    have hold : r.sends[k]? = some s := hs
    exact (List.getElem?_append_left (List.getElem?_eq_some_iff.mp hold).1).trans hold
  split
  · exact herror _
  · refine h.write fun m' k heq _ hserial => ?_
    cases heq
    cases hserial

theorem Silent.step_join (h : Silent r) {permissions : Permissions}
    (hstep : r.step (.join n permissions) = some r') : Silent r' := by
  dsimp only [Room.step] at hstep
  split at hstep
  case isFalse => cases hstep
  rename_i hready
  cases hstep
  have hset : Silent (r.set n { r.clients n with
      permissions, actions := (r.clients n).actions ++ [.join], written := []
      since := r.sends.length }) := by
    refine h.quiet ?_ (List.nil_subset _)
    dsimp only
    rw [hready.1]
    rfl
  exact hset.of_same rfl fun _ _ hs => hs

theorem Silent.step_leave (h : Silent r) (hstep : r.step (.leave n) = some r') : Silent r' := by
  dsimp only [Room.step] at hstep
  split at hstep
  case isFalse => cases hstep
  rename_i hready
  cases hstep
  have hset : Silent (r.set n { r.clients n with
      permissions := [], actions := (r.clients n).actions ++ [.leave] }) := by
    refine h.quiet ?_ (List.Subset.refl _)
    dsimp only
    rw [hready.1]
    rfl
  exact hset.of_same rfl fun _ _ hs => hs

theorem Silent.step_fail (h : Silent r) (hstep : r.step (.fail n) = some r') : Silent r' := by
  have hset : Silent (r.set n { r.clients n with pc := .ended }) :=
    h.quiet rfl (List.Subset.refl _)
  have hended : Silent { r.set n { r.clients n with pc := .ended } with
      members := r.members.erase n } := hset.of_same rfl fun _ _ hs => hs
  dsimp only [Room.step] at hstep
  split at hstep
  · cases hstep
    exact hended
  · split at hstep <;> cases hstep
    exact hended
  · split at hstep <;> cases hstep
    exact hended
  · cases hstep
  · cases hstep
  · cases hstep

theorem Silent.step_act (h : Silent r) (hstep : r.step (.act n) = some r') : Silent r' := by
  dsimp only [Room.step] at hstep
  split at hstep
  · rename_i kind batch _
    split at hstep <;> cases hstep
    refine h.set ?_ fun m k hmem _ _ => .inl ((mem_write hmem).resolve_right nofun)
    intro m cs hat
    dsimp only at hat
    split at hat <;> cases hat
  · cases hstep

theorem Silent.step_readHistory (h : Silent r) {now : ℤ}
    (hstep : r.step (.readHistory n now) = some r') : Silent r' := by
  dsimp only [Room.step] at hstep
  split at hstep
  · rename_i batch _
    cases hstep
    have hset : Silent (r.set n { r.clients n with
        pc := .reading (discardObsoleteHistory r.history r.maxHistoryAge now) batch }) :=
      h.quiet rfl (List.Subset.refl _)
    exact hset.of_same rfl fun _ _ hs => hs
  · cases hstep

/-- The sender is left out of a message without echo. -/
theorem Silent.step_getClients (h : Silent r) {cs : List ℕ}
    (hstep : r.step (.getClients n cs) = some r') : Silent r' := by
  dsimp only [Room.step] at hstep
  split at hstep
  · rename_i m _
    split at hstep
    case isFalse => cases hstep
    rename_i hcs
    cases hstep
    refine h.set ?_ fun m k hmem _ _ => .inl hmem
    rintro m' cs' hat hno hmem
    cases hat
    have hpass := of_decide_eq_true (List.mem_filter.mp (hcs.mem_iff.mp hmem)).2
    exact hpass ⟨hno, rfl⟩
  · cases hstep

theorem Silent.step_write (h : Silent r) (hl : Ledger r)
    (hstep : r.step (.write n) = some r') : Silent r' := by
  dsimp only [Room.step] at hstep
  split at hstep
  · cases hstep
    exact h.quiet rfl (List.Subset.refl _)
  · rename_i m d cs hpc
    cases hstep
    have hwrite : Silent (r.set d ((r.clients d).write (.chat m))) := by
      refine h.write fun m' k heq hno hserial => ?_
      cases heq
      obtain ⟨-, j, hj, hsend⟩ := hl.carried n m (by rw [hpc]; rfl)
      obtain rfl : j = k := Option.some.inj (hj.symm.trans hserial)
      refine ⟨_, hsend, ?_⟩
      rintro rfl
      exact h.listed _ m _ hpc hno List.mem_cons_self
    refine hwrite.set ?_ fun m' k hmem _ _ => .inl hmem
    rintro m' cs' hat hno hmem
    cases hat
    exact h.listed n m _ hpc hno (List.mem_cons_of_mem d hmem)
  · cases hstep

theorem Silent.step_clearchat (h : Silent r) {id : String} {userId : String}
    (hstep : r.step (.clearchat n id userId) = some r') : Silent r' := by
  dsimp only [Room.step] at hstep
  split at hstep <;> cases hstep
  unfold Room.clearchat
  split
  · exact h.write nofun
  split
  · exact h.write nofun
  · exact h.of_same rfl fun _ _ hs => hs

theorem Silent.step (h : Silent r) (hl : Ledger r) {a : Label} (hstep : r.step a = some r') :
    Silent r' := by
  cases a with
  | join n permissions => exact h.step_join hstep
  | leave n => exact h.step_leave hstep
  | fail n => exact h.step_fail hstep
  | change n =>
      dsimp only [Room.step] at hstep
      split at hstep <;> cases hstep
      exact h.set (h.listed n) fun m k hmem _ _ => .inl hmem
  | take n =>
      dsimp only [Room.step] at hstep
      split at hstep <;> cases hstep
      exact h.quiet rfl (List.Subset.refl _)
  | act n => exact h.step_act hstep
  | readHistory n now => exact h.step_readHistory hstep
  | writeHistory n =>
      dsimp only [Room.step] at hstep
      split at hstep
      · cases hstep
        exact h.quiet rfl (List.Subset.refl _)
      · split at hstep <;> cases hstep
        exact h.set nofun fun m k hmem _ _ => .inl ((mem_write hmem).resolve_right nofun)
      · cases hstep
  | chat n m fresh now =>
      dsimp only [Room.step] at hstep
      split at hstep <;> cases hstep
      exact h.chat n m fresh now
  | getClients n cs => exact h.step_getClients hstep
  | write n => exact h.step_write hl hstep
  | clearchat n id userId => exact h.step_clearchat hstep
  | stopWriter n =>
      cases hstep
      exact h.set (h.listed n) fun m k hmem _ _ => .inl hmem

theorem silent_initial (h : room.init r) : Silent r := by
  constructor
  · intro n m cs hat
    rw [h.2.2.2 n] at hat
    cases hat
  · intro n m k hmem
    rw [h.2.2.2 n] at hmem
    cases hmem

end Echo

section Runs
variable {r : Room}

theorem ledger_initial (h : room.init r) : Ledger r := by
  obtain ⟨hmembers, hhistory, hsends, hclients⟩ := h
  have hnobody : ∀ n, n ∉ r.members := by
    intro n
    rw [hmembers]
    exact List.not_mem_nil
  refine ⟨?_, ?_, fun n hn => absurd hn (hnobody n), ?_, fun n hn => absurd hn (hnobody n),
    fun n hn => absurd hn (hnobody n), fun n hn => absurd hn (hnobody n)⟩
  · rw [hhistory, hsends]
    rfl
  · rw [hmembers]
    exact List.nodup_nil
  · intro s m hm
    rw [hclients s] at hm
    cases hm

theorem Ledger.exactlyOnce (h : Ledger r) (hsilent : Silent r) : ExactlyOnce r := by
  refine ⟨?_, ?_, hsilent.echo⟩
  · intro n hn k
    rcases Nat.lt_or_ge k r.sends.length with hk | hk
    · have hle := (h.counted n hn k _ (List.getElem?_eq_getElem hk)).1
      simp only [Room.total, Client.got] at hle
      omega
    · have hnone := h.fresh n hn k hk
      simp only [Client.got] at hnone
      omega
  · intro n hn hwriter hjoins hrest k s hs hsent
    have hdue : (r.clients s.sender).pc.due s.sender k n = 0 := by
      have hnot := hsent s.sender
      cases hpc : (r.clients s.sender).pc with
      | added m =>
          have hne := hnot m (by rw [hpc]; rfl)
          simp [Pc.due, hne]
      | broadcasting m cs =>
          have hne := hnot m (by rw [hpc]; rfl)
          simp [Pc.due, hne]
      | ready | greeted | reading | ended => rfl
    have htotal : r.total n k s.sender = (r.clients n).copies k := by
      simp [Room.total, Client.got, hrest, hjoins, hdue]
    rw [← htotal]
    exact (h.counted n hn k s hs).2 hwriter

/-- In every run in which no join falls between the adding of a message and the reading of
the history, a member has every message once. -/
theorem exactlyOnce_of_settled (h : Reachable room (fun r a => r.Within a ∧ r.Settled a) r) :
    ExactlyOnce r := by
  have hall : Ledger r ∧ Silent r := by
    refine h.invariant (P := fun r => Ledger r ∧ Silent r)
      (fun r hr => ⟨ledger_initial hr, silent_initial hr⟩) ?_
    rintro r a r' ⟨hledger, hsilent⟩ ⟨hwithin, hsettled⟩ hstep
    exact ⟨hledger.step hwithin hsettled hstep, hsilent.step hledger hstep⟩
  exact hall.1.exactlyOnce hall.2

end Runs

section Samples

instance (n : ℕ) : DecidablePred (Pc.Spares n)
  | .added _ => .isFalse fun h => h
  | .broadcasting _ cs => inferInstanceAs (Decidable (n ∉ cs))
  | .ready _ | .greeted _ | .reading .. | .ended => .isTrue trivial

instance (r : Room) : (a : Label) → Decidable (r.Within a)
  | .chat n m .. => inferInstanceAs (Decidable (m.dest = "" → r.MayChat n m.kind → _ < _))
  | .clearchat n id userId => inferInstanceAs (Decidable (n ∈ r.members →
      "op" ∈ (r.clients n).permissions → clearChatHistory r.history id userId = r.history))
  | .readHistory _ now => inferInstanceAs (Decidable (∀ e ∈ r.history, now - e.time ≤ _))
  | .join .. | .leave _ | .fail _ | .change _ | .take _ | .act _ | .writeHistory _ | .getClients ..
  | .write _ | .stopWriter _ => .isTrue trivial

instance (r : Room) : (a : Label) → Decidable (r.Settled a)
  | .chat n m .. => inferInstanceAs (Decidable (m.dest = "" → r.MayChat n m.kind →
      ∀ d ∈ r.getClients n m.noEcho, (r.clients d).joins = 0))
  | .join n _ => inferInstanceAs (Decidable ((r.clients n).joins = 0 ∧
      ∀ s ∈ r.members, (r.clients s).pc.Spares n))
  | .clearchat .. | .readHistory .. | .leave _ | .fail _ | .change _ | .take _ | .act _
  | .writeHistory _ | .getClients .. | .write _ | .stopWriter _ => .isTrue trivial

/-- A group in which nobody is yet. -/
def hall : Room :=
  { clients := fun n => { id := if n = 0 then "alice" else if n = 1 then "bob" else "" } }

theorem hall_init : room.init hall := ⟨rfl, rfl, rfl, fun _ => rfl⟩

def hello : ClientMessage := { source := "alice", username := some "alice", value := "hello" }

/-- A client comes in and handles its join action, with `count` messages in the history. -/
def comeIn (n count : ℕ) : List Label :=
  [.join n ["message"], .take n, .act n, .readHistory n 0] ++ List.replicate (count + 1) (.writeHistory n)

/-- A message is sent to the members. -/
def say (n : ℕ) (m : ClientMessage) (cs : List ℕ) : List Label :=
  [.chat n m "fresh" 0, .getClients n cs] ++ List.replicate (cs.length + 1) (.write n)

/-- Alice says hello before Bob comes, and once more when he has read that. -/
theorem exactlyOnce_hello : ∃ r, room.exec (fun r a => r.Within a ∧ r.Settled a) hall
    (comeIn 0 0 ++ say 0 hello [0] ++ comeIn 1 1 ++ say 0 hello [1, 0]) = some r ∧
      (r.clients 1).copies 0 = 1 ∧ (r.clients 1).copies 1 = 1 ∧ ExactlyOnce r := by
  obtain ⟨r, hr, hfirst, hsecond⟩ :
      ∃ r ∈ room.exec (fun r a => r.Within a ∧ r.Settled a) hall
        (comeIn 0 0 ++ say 0 hello [0] ++ comeIn 1 1 ++ say 0 hello [1, 0]),
        (r.clients 1).copies 0 = 1 ∧ (r.clients 1).copies 1 = 1 := by
    decide +kernel
  exact ⟨r, hr, hfirst, hsecond, exactlyOnce_of_settled (.exec (.init hall_init) hr)⟩

/-- What is sent between a join and the reading of the history comes twice. -/
theorem not_exactlyOnce : ¬ ∀ r, Reachable room Room.Within r → ExactlyOnce r := by
  intro h
  obtain ⟨r, hr, hmember, hcopies⟩ : ∃ r ∈ room.exec Room.Within hall
      (comeIn 0 0 ++ [.join 1 ["message"]] ++ say 0 hello [1, 0] ++
        [.take 1, .act 1, .readHistory 1 0, .writeHistory 1]),
      1 ∈ r.members ∧ (r.clients 1).copies 0 = 2 := by
    decide +kernel
  have honce := (h r (.exec (.init hall_init) hr)).once 1 hmember 0
  omega

end Samples

end Sozvon.Chat
