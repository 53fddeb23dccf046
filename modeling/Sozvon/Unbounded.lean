import Sozvon.Runs
import Mathlib.Logic.Function.Basic

/-!
# The unbounded channel

A queue under a mutex and a channel `Ch` of capacity one, which holds a token
when there is something to get. A producer appends under the lock and looks
whether the queue was empty; the token it sends if so goes out after the lock
is released, and is dropped where there is one already. The consumer takes a
token and swaps the queue out, in two steps.

The elements are logged as they are appended (`puts`) and as they are returned
(`gets`); nothing reads the logs.
-/
namespace Sozvon.Unbounded
open Runs

/-- A consumer that waits for a token, or has taken one and is about to call `Get`. -/
inductive Consumer where
  | waiting
  | woken
deriving DecidableEq, Repr

structure State (ι α : Type*) where
  queue : List α := []
  /-- `Ch` is full. -/
  token : Bool := false
  /-- The `Put` a producer is in, past its lock: its local `empty`. -/
  producers : ι → Option Bool := fun _ => none
  consumer : Consumer := .waiting
  puts : List α := []
  gets : List (List α) := []

inductive Label (ι α : Type*) where
  | append (i : ι) (v : α)
  | send (i : ι)
  | take
  | swap
deriving DecidableEq, Repr

section Steps

variable {ι α : Type*} [DecidableEq ι]

/-- The locked section of `Put`. -/
def append (s : State ι α) (i : ι) (v : α) : State ι α where
  queue := s.queue ++ [v]
  token := s.token
  producers := Function.update s.producers i (some s.queue.isEmpty)
  consumer := s.consumer
  puts := s.puts ++ [v]
  gets := s.gets

/-- The rest of `Put`: the send has no effect if the channel is full. -/
def send (s : State ι α) (i : ι) (empty : Bool) : State ι α :=
  { s with token := s.token || empty, producers := Function.update s.producers i none }

def take (s : State ι α) : State ι α := { s with token := false, consumer := .woken }

/-- `Get`, whose result is the last of `gets`. -/
def swap (s : State ι α) : State ι α :=
  { s with queue := [], consumer := .waiting, gets := s.gets ++ [s.queue] }

def step (s : State ι α) : Label ι α → Option (State ι α)
  | .append i v => if s.producers i = none then some (append s i v) else none
  | .send i => (s.producers i).map (send s i)
  | .take => if s.token ∧ s.consumer = .waiting then some (take s) else none
  | .swap => if s.consumer = .woken then some (swap s) else none

def system (ι α : Type*) [DecidableEq ι] : System (State ι α) (Label ι α) where
  init s := s = {}
  step := step

end Steps

section Invariant

variable {ι α : Type*} {s : State ι α}

/-- Nobody is between the two steps of a `Put`, or of a take and its `Get`. -/
structure Idle (s : State ι α) : Prop where
  producers : ∀ i, s.producers i = none
  consumer : s.consumer = .waiting

/-- A queue that is not empty has a token, one to come, or a consumer under way. -/
structure Sound (s : State ι α) : Prop where
  logged : s.gets.flatten ++ s.queue = s.puts
  woken : s.queue ≠ [] → s.token = true ∨ (∃ i, s.producers i = some true) ∨ s.consumer = .woken

theorem Sound.token (h : Sound s) (hidle : Idle s) (hqueue : s.queue ≠ []) : s.token = true := by
  rcases h.woken hqueue with htoken | ⟨i, hi⟩ | hwoken
  · exact htoken
  · rw [hidle.producers i] at hi
    cases hi
  · rw [hidle.consumer] at hwoken
    cases hwoken

variable [DecidableEq ι] {t : State ι α}

theorem sound_append (h : Sound s) {i : ι} (hi : s.producers i = none) (v : α) :
    Sound (append s i v) where
  logged := by
    change s.gets.flatten ++ (s.queue ++ [v]) = s.puts ++ [v]
    rw [← List.append_assoc, h.logged]
  woken _ := by
    by_cases hempty : s.queue = []
    · -- the token is this producer's to send
      refine .inr (.inl ⟨i, (Function.update_self ..).trans ?_⟩)
      rw [hempty, List.isEmpty_nil]
    · rcases h.woken hempty with htoken | ⟨j, hj⟩ | hwoken
      · exact .inl htoken
      · have hne : j ≠ i := fun hji => by
          rw [hji, hi] at hj
          cases hj
        exact .inr (.inl ⟨j, (Function.update_of_ne hne ..).trans hj⟩)
      · exact .inr (.inr hwoken)

theorem sound_send (h : Sound s) {i : ι} {empty : Bool} (hi : s.producers i = some empty) :
    Sound (send s i empty) where
  logged := h.logged
  woken hqueue := by
    rcases h.woken hqueue with htoken | ⟨j, hj⟩ | hwoken
    · exact .inl (by rw [send, htoken, Bool.true_or])
    · by_cases hji : j = i
      · rw [hji, hi, Option.some.injEq] at hj
        exact .inl (by rw [send, hj, Bool.or_true])
      · exact .inr (.inl ⟨j, (Function.update_of_ne hji ..).trans hj⟩)
    · exact .inr (.inr hwoken)

omit [DecidableEq ι] in
theorem sound_swap (h : Sound s) : Sound (swap s) where
  logged := by
    change (s.gets ++ [s.queue]).flatten ++ [] = s.puts
    rw [List.flatten_append, List.flatten_singleton, List.append_nil, h.logged]
  woken hqueue := absurd rfl hqueue

theorem sound_step (h : Sound s) {l : Label ι α} (hstep : step s l = some t) : Sound t := by
  cases l with
  | append i v =>
      rw [step] at hstep
      split_ifs at hstep with hi
      exact Option.some.inj hstep ▸ sound_append h hi v
  | send i =>
      obtain ⟨empty, hi, ht⟩ := Option.map_eq_some_iff.mp hstep
      exact ht ▸ sound_send h hi
  | take =>
      rw [step] at hstep
      split_ifs at hstep
      exact Option.some.inj hstep ▸ ⟨h.logged, fun _ => .inr (.inr rfl)⟩
  | swap =>
      rw [step] at hstep
      split_ifs at hstep
      exact Option.some.inj hstep ▸ sound_swap h

theorem sound_of_reachable (h : Reachable (system ι α) Always s) : Sound s := by
  refine h.invariant (P := Sound) ?_ fun s l t hs _ hstep => sound_step hs hstep
  rintro s rfl
  exact ⟨rfl, fun hqueue => absurd rfl hqueue⟩

/-- With something in the queue, someone can go on without a further `Put`. -/
theorem enabled_of_pending (h : Reachable (system ι α) Always s) (hqueue : s.queue ≠ []) :
    (∃ i, (step s (.send i)).isSome) ∨ (step s .take).isSome ∨ (step s .swap).isSome := by
  cases hconsumer : s.consumer with
  | woken => exact .inr (.inr (by rw [step, if_pos hconsumer, Option.isSome_some]))
  | waiting =>
      rcases (sound_of_reachable h).woken hqueue with htoken | ⟨i, hi⟩ | hwoken
      · exact .inr (.inl (by rw [step, if_pos ⟨htoken, hconsumer⟩, Option.isSome_some]))
      · exact .inl ⟨i, by rw [step, hi, Option.map_some, Option.isSome_some]⟩
      · rw [hconsumer] at hwoken
        cases hwoken

/-- No element is lost, and no wakeup. -/
theorem lossless (h : Reachable (system ι α) Always s) :
    s.gets.flatten ++ s.queue = s.puts ∧ (Idle s → s.queue ≠ [] → s.token = true) :=
  ⟨(sound_of_reachable h).logged, (sound_of_reachable h).token⟩

/-- A second producer appends before the token of the first is out, and a third time while
the consumer is on its way to `Get`. -/
theorem lossless_two : ∃ s : State (Fin 2) ℕ, Idle s ∧ s.gets = [[7, 8, 9]] ∧ s.queue = [5] ∧
    (s.gets.flatten ++ s.queue = s.puts ∧ (Idle s → s.queue ≠ [] → s.token = true)) := by
  let labels : List (Label (Fin 2) ℕ) := [.append 0 7, .append 1 8, .send 1, .send 0, .take,
    .append 1 9, .swap, .send 1, .append 0 5, .send 0]
  have hrun : (system (Fin 2) ℕ).exec Always {} labels =
      some (((system (Fin 2) ℕ).exec Always {} labels).get rfl) := (Option.some_get _).symm
  exact ⟨_, ⟨by decide, rfl⟩, rfl, rfl, lossless (Reachable.exec (.init rfl) hrun)⟩

end Invariant

end Sozvon.Unbounded
