import Mathlib.Data.List.Basic
import Mathlib.Data.Int.Notation
import Mathlib.Data.Nat.Notation
import Mathlib.Algebra.GroupWithZero.Nat

/-!
# Messages kept for replay

Each side of a resumable session numbers the messages it sends and keeps the last
ones: `SentLog` of `signalling-resume.js` and `replayRing` of `resume.go`. Both give
out what follows a number only where they still have all of it.
-/
namespace Sozvon.Resume

section Definitions

variable {M : Type} (size : M → ℕ)

def MAX_MESSAGES : ℕ := 512

def MAX_BYTES : ℕ := 2 * 2 ^ 20

/-- The loop of `push` that drops the first messages. -/
def shift : List M → ℕ → List M × ℕ
  | [], bytes => ([], bytes)
  | m :: msgs, bytes =>
      if MAX_MESSAGES < msgs.length + 1 ∨ 1 < msgs.length + 1 ∧ MAX_BYTES < bytes then
        shift msgs (bytes - size m)
      else (m :: msgs, bytes)

structure SentLog (M : Type) where
  msgs : List M := []
  bytes : ℕ := 0
  /-- How many were ever sent. -/
  count : ℕ := 0

def SentLog.push (log : SentLog M) (m : M) : SentLog M :=
  let (msgs, bytes) := shift size (log.msgs ++ [m]) (log.bytes + size m)
  { msgs, bytes, count := log.count + 1 }

/-- `null` is `none`. -/
def SentLog.after (log : SentLog M) (n : ℕ) : Option (List M) :=
  let first : ℤ := log.count - log.msgs.length + 1
  if (n : ℤ) + 1 < first ∨ log.count < n then none
  else some (log.msgs.drop (n + 1 - first).toNat)

structure ReplayRing (M : Type) where
  msgs : List M := []
  /-- The number the next message will get. -/
  next : ℕ := 1
  bytes : ℕ := 0

def ReplayRing.push (ring : ReplayRing M) (m : M) : ReplayRing M :=
  let (msgs, bytes) := shift size (ring.msgs ++ [m]) (ring.bytes + size m)
  { msgs, bytes, next := ring.next + 1 }

def ReplayRing.after (ring : ReplayRing M) (n : ℕ) : Option (List M) :=
  let first := ring.next - ring.msgs.length
  if n + 1 < first ∨ ring.next ≤ n then none
  else some (ring.msgs.drop (n + 1 - first))

/-- Of all the messages the last ones are kept, and their lengths are added up. -/
structure Kept (all msgs : List M) (bytes : ℕ) : Prop where
  suffix : msgs <:+ all
  bytes : bytes = (msgs.map size).sum

/-- Of these messages the log keeps the last ones. -/
structure SentLog.Keeps (log : SentLog M) (all : List M) : Prop where
  kept : Kept size all log.msgs log.bytes
  count : log.count = all.length

structure ReplayRing.Keeps (ring : ReplayRing M) (all : List M) : Prop where
  kept : Kept size all ring.msgs ring.bytes
  next : ring.next = all.length + 1

end Definitions

section Theorems

variable {M : Type} {size : M → ℕ} {all msgs : List M} {bytes : ℕ}

theorem Kept.shifted (h : Kept size all msgs bytes) :
    Kept size all (shift size msgs bytes).1 (shift size msgs bytes).2 := by
  induction msgs generalizing bytes with
  | nil => exact h
  | cons m msgs ih =>
      rw [shift]
      split
      · refine ih ⟨(List.suffix_cons m msgs).trans h.suffix, ?_⟩
        rw [h.bytes, List.map_cons, List.sum_cons, Nat.add_sub_cancel_left]
      · exact h

theorem Kept.push (h : Kept size all msgs bytes) (m : M) :
    Kept size (all ++ [m]) (shift size (msgs ++ [m]) (bytes + size m)).1
      (shift size (msgs ++ [m]) (bytes + size m)).2 := by
  refine Kept.shifted ⟨?_, ?_⟩
  · obtain ⟨before, hall⟩ := h.suffix
    exact ⟨before, by rw [← hall, List.append_assoc]⟩
  · rw [h.bytes, List.map_append, List.sum_append, List.map_singleton, List.sum_singleton]

/-- What is kept from `n` on is all there was from `n` on. -/
theorem Kept.drop (h : Kept size all msgs bytes) {n : ℕ} (hn : all.length - msgs.length ≤ n) :
    msgs.drop (n - (all.length - msgs.length)) = all.drop n := by
  obtain ⟨before, rfl⟩ := h.suffix
  rw [List.length_append, Nat.add_sub_cancel_right] at hn ⊢
  rw [List.drop_append, List.drop_eq_nil_of_le hn, List.nil_append]

theorem SentLog.Keeps.empty : SentLog.Keeps size ({} : SentLog M) [] :=
  ⟨⟨List.suffix_refl _, rfl⟩, rfl⟩

theorem SentLog.Keeps.push {log : SentLog M} (h : log.Keeps size all) (m : M) :
    (log.push size m).Keeps size (all ++ [m]) :=
  ⟨h.kept.push m, by rw [List.length_append, ← h.count]; rfl⟩

theorem SentLog.Keeps.after {log : SentLog M} (h : log.Keeps size all) {n : ℕ} {rest : List M}
    (hafter : log.after n = some rest) : n ≤ all.length ∧ rest = all.drop n := by
  have hlength := h.kept.suffix.length_le
  rw [SentLog.after, h.count] at hafter
  split at hafter
  · cases hafter
  · cases hafter
    rename_i hkept
    refine ⟨by omega, ?_⟩
    rw [← h.kept.drop (by omega)]
    congr 1
    omega

theorem ReplayRing.Keeps.empty : ReplayRing.Keeps size ({} : ReplayRing M) [] :=
  ⟨⟨List.suffix_refl _, rfl⟩, rfl⟩

theorem ReplayRing.Keeps.push {ring : ReplayRing M} (h : ring.Keeps size all) (m : M) :
    (ring.push size m).Keeps size (all ++ [m]) :=
  ⟨h.kept.push m, by rw [List.length_append, List.length_singleton, ← h.next]; rfl⟩

theorem ReplayRing.Keeps.after {ring : ReplayRing M} (h : ring.Keeps size all) {n : ℕ}
    {rest : List M} (hafter : ring.after n = some rest) : n ≤ all.length ∧ rest = all.drop n := by
  have hlength := h.kept.suffix.length_le
  rw [ReplayRing.after, h.next] at hafter
  split at hafter
  · cases hafter
  · cases hafter
    rename_i hkept
    refine ⟨by omega, ?_⟩
    rw [← h.kept.drop (by omega)]
    congr 1
    omega

end Theorems

end Sozvon.Resume
