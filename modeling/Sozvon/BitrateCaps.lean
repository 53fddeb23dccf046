import Sozvon.OrderedMaps
import Mathlib.Algebra.Order.Floor.Ring
import Mathlib.Data.Rat.Floor
import Mathlib.Order.Bounds.Basic
import Mathlib.Tactic.Linarith

/-!
# The caps that receivers have asked for

The registry drops a request that is too old only when it comes across it, in
the course of another call. What it answers is compared with a log of the calls
that nothing is ever dropped from.
-/
namespace Sozvon.Bitrate

section Definitions

def MIN_CAP : ℚ := 150000

def MAX_CAP : ℚ := 100000000

def TTL : ℚ := 35000

/-- What arrives as a cap: a finite number, or anything else. -/
inductive Value where
  | number (x : ℚ)
  | other

/-- `Math.round` -/
def round (x : ℚ) : ℚ := ⌊x + 1 / 2⌋

def sanitizeCap : Value → Option ℚ
  | .other => none
  | .number cap =>
      if ¬ 0 < cap then none
      else if MAX_CAP < cap then none
      else some (max MIN_CAP (round cap))

structure Entry where
  cap : ℚ
  time : ℚ

structure Caps (σ ρ : Type*) where
  streams : OrderedMap σ (OrderedMap ρ Entry) := {}

variable {σ ρ : Type*} [DecidableEq σ] [DecidableEq ρ]

namespace Caps

/-- The loop of `get` over the entries, with the table and the minimum so far. -/
def scan (now : ℚ) : List (ρ × Entry) → OrderedMap ρ Entry → Option ℚ →
    OrderedMap ρ Entry × Option ℚ
  | [], m, min => (m, min)
  | (receiver, e) :: rest, m, min =>
      if TTL < now - e.time then scan now rest (m.delete receiver) min
      else scan now rest m (if min.all (e.cap < ·) then some e.cap else min)

/-- A stream without requests has no table. -/
def keep (c : Caps σ ρ) (stream : σ) (m : OrderedMap ρ Entry) : Caps σ ρ where
  streams := if m.entries = [] then c.streams.delete stream else c.streams.put stream m

def get (c : Caps σ ρ) (stream : σ) (now : ℚ) : Caps σ ρ × Option ℚ :=
  match c.streams.get stream with
  | none => (c, none)
  | some m =>
      let r := scan now m.entries m none
      (c.keep stream r.1, r.2)

/-- The request is lifted or recorded. -/
def ask (c : Caps σ ρ) (stream : σ) (receiver : ρ) (now : ℚ) : Option ℚ → Caps σ ρ
  | none =>
      match c.streams.get stream with
      | none => c
      | some m => c.keep stream (m.delete receiver)
  | some cap =>
      let m := (c.streams.get stream).getD {}
      { c with streams := c.streams.put stream (m.put receiver ⟨cap, now⟩) }

def set (c : Caps σ ρ) (stream : σ) (receiver : ρ) (cap : Value) (now : ℚ) : Caps σ ρ × Bool :=
  let before := c.get stream now
  let after := (before.1.ask stream receiver now (sanitizeCap cap)).get stream now
  (after.1, after.2 ≠ before.2)

/-- The loop of `forget` over the streams. -/
def forgetIn (receiver : ρ) : List (σ × OrderedMap ρ Entry) → Caps σ ρ → List σ →
    Caps σ ρ × List σ
  | [], c, touched => (c, touched)
  | (stream, m) :: rest, c, touched =>
      forgetIn receiver rest (c.keep stream (m.delete receiver))
        (if (m.get receiver).isSome then touched ++ [stream] else touched)

def forget (c : Caps σ ρ) (receiver : ρ) : Caps σ ρ × List σ :=
  forgetIn receiver c.streams.entries c []

end Caps

inductive Call (σ ρ : Type*) where
  | set (stream : σ) (receiver : ρ) (cap : Value) (now : ℚ)
  | get (stream : σ) (now : ℚ)
  | forget (receiver : ρ)

inductive Answer (σ : Type*) where
  | changed (b : Bool)
  | cap (min : Option ℚ)
  | touched (streams : List σ)

def Caps.step (c : Caps σ ρ) : Call σ ρ → Caps σ ρ × Answer σ
  | .set stream receiver cap now =>
      ((c.set stream receiver cap now).1, .changed (c.set stream receiver cap now).2)
  | .get stream now => ((c.get stream now).1, .cap (c.get stream now).2)
  | .forget receiver => ((c.forget receiver).1, .touched (c.forget receiver).2)

def Caps.run (c : Caps σ ρ) (calls : List (Call σ ρ)) : Caps σ ρ :=
  calls.foldl (fun c call => (c.step call).1) c

end Definitions

/-! ## The log -/

section Log

variable {σ ρ : Type*} [DecidableEq σ] [DecidableEq ρ]

def Call.now? : Call σ ρ → Option ℚ
  | .set _ _ _ now | .get _ now => some now
  | .forget _ => none

/-- What a call makes of the request of one receiver for one stream. -/
def Call.after (stream : σ) (receiver : ρ) (e : Option Entry) : Call σ ρ → Option Entry
  | .set stream' receiver' cap now =>
      if stream = stream' ∧ receiver = receiver' then (sanitizeCap cap).map (⟨·, now⟩) else e
  | .get _ _ => e
  | .forget receiver' => if receiver = receiver' then none else e

/-- The latest request that was not lifted or forgotten, however old. -/
def latest (log : List (Call σ ρ)) (stream : σ) (receiver : ρ) : Option Entry :=
  log.foldl (Call.after stream receiver) none

/-- The caps asked for that are not too old. -/
def Fresh (log : List (Call σ ρ)) (stream : σ) (now : ℚ) : Set ℚ :=
  {cap | ∃ receiver, ∃ e ∈ latest log stream receiver, now - e.time ≤ TTL ∧ e.cap = cap}

/-- The least element, if there is any. -/
def IsMin (s : Set ℚ) : Option ℚ → Prop
  | none => s = ∅
  | some min => IsLeast s min

/-- What the calls answer if nothing is ever dropped but by a call that says so. -/
def Call.Eager (log : List (Call σ ρ)) : Call σ ρ → Answer σ → Prop
  | .set stream receiver cap now, .changed b => ∃ before after,
      IsMin (Fresh log stream now) before ∧
      IsMin (Fresh (log ++ [.set stream receiver cap now]) stream now) after ∧
      (b = true ↔ after ≠ before)
  | .get stream now, .cap min => IsMin (Fresh log stream now) min
  | .forget _, .touched _ => True
  | _, _ => False

/-- The times of the calls do not decrease. -/
def Ordered (calls : List (Call σ ρ)) : Prop := (calls.filterMap Call.now?).Pairwise (· ≤ ·)

end Log

/-! ## Lazy expiry -/

section Minimum

variable {s : Set ℚ} {min : Option ℚ}

theorem IsMin.unique {min' : Option ℚ} (h : IsMin s min) (h' : IsMin s min') : min = min' := by
  cases min with
  | none =>
      cases min' with
      | none => rfl
      | some m' => exact absurd (h ▸ h'.1) (Set.notMem_empty m')
  | some m =>
      cases min' with
      | none => exact absurd (h' ▸ h.1) (Set.notMem_empty m)
      | some m' => exact congrArg some (IsLeast.unique h h')

theorem IsMin.insert (h : IsMin s min) (cap : ℚ) :
    IsMin (insert cap s) (if min.all (cap < ·) then some cap else min) := by
  cases min with
  | none =>
      rw [IsMin] at h
      rw [h]
      exact ⟨Set.mem_insert _ _, fun x hx => (hx.resolve_right (Set.notMem_empty x)).ge⟩
  | some m =>
      rw [Option.all_some]
      obtain ⟨hmem, hlower⟩ := h
      split_ifs with hlt <;> rw [decide_eq_true_eq] at hlt
      · refine ⟨Set.mem_insert _ _, fun x hx => ?_⟩
        rcases hx with rfl | hx
        · exact le_refl x
        · exact le_trans hlt.le (hlower hx)
      · refine ⟨Set.mem_insert_of_mem _ hmem, fun x hx => ?_⟩
        rcases hx with rfl | hx
        · exact not_lt.mp hlt
        · exact hlower hx

end Minimum

section Lookup

variable {σ ρ : Type*} [DecidableEq σ] [DecidableEq ρ] {c : Caps σ ρ} {stream stream' : σ}
  {receiver receiver' : ρ} {now : ℚ}

/-- Not too old. -/
def Entry.current (now : ℚ) (e : Entry) : Bool := ¬ TTL < now - e.time

theorem Entry.current_of_not {e : Entry} (h : ¬ TTL < now - e.time) : e.current now = true :=
  decide_eq_true h

theorem Entry.not_current {e : Entry} (h : TTL < now - e.time) : ¬ e.current now = true :=
  fun hcurrent => of_decide_eq_true hcurrent h

namespace Caps

/-- The request that is held of a receiver. -/
def lookup (c : Caps σ ρ) (stream : σ) (receiver : ρ) : Option Entry :=
  (c.streams.get stream).bind (·.get receiver)

/-- The caps that are held and not too old. -/
def requests (c : Caps σ ρ) (stream : σ) (now : ℚ) : Set ℚ :=
  {cap | ∃ receiver, ∃ e ∈ c.lookup stream receiver, e.current now ∧ e.cap = cap}

theorem lookup_keep (m : OrderedMap ρ Entry) : (c.keep stream m).lookup stream' receiver =
    if stream' = stream then m.get receiver else c.lookup stream' receiver := by
  unfold keep lookup
  split_ifs with hnil hstream hstream
  · rw [OrderedMap.get_delete, if_pos hstream, Option.bind_none,
      OrderedMap.entries_eq_nil.mp hnil receiver]
  · rw [OrderedMap.get_delete, if_neg hstream]
  · rw [OrderedMap.get_put, if_pos hstream, Option.bind_some]
  · rw [OrderedMap.get_put, if_neg hstream]

/-- The caps among some entries that are not too old. -/
def currentCaps (now : ℚ) (l : List (ρ × Entry)) : Set ℚ :=
  {cap | ∃ e ∈ l, e.2.current now ∧ e.2.cap = cap}

omit [DecidableEq ρ] in
theorem currentCaps_cons (e : ρ × Entry) (l : List (ρ × Entry)) : currentCaps now (e :: l) =
    if e.2.current now then insert e.2.cap (currentCaps now l) else currentCaps now l := by
  ext cap
  have hmem : cap ∈ currentCaps now (e :: l) ↔
      (e.2.current now = true ∧ e.2.cap = cap) ∨ cap ∈ currentCaps now l :=
    List.exists_mem_cons_iff ..
  rw [hmem]
  split_ifs with hcurrent
  · rw [and_iff_right hcurrent, eq_comm]
    exact Set.mem_insert_iff.symm
  · exact or_iff_right fun h => hcurrent h.1

theorem scan_min {s : Set ℚ} {min : Option ℚ} (h : IsMin s min) (l : List (ρ × Entry))
    (m : OrderedMap ρ Entry) : IsMin (s ∪ currentCaps now l) (scan now l m min).2 := by
  induction l generalizing s m min with
  | nil =>
      have hempty : currentCaps now ([] : List (ρ × Entry)) = ∅ := by simp [currentCaps]
      rwa [hempty, Set.union_empty]
  | cons x l ih =>
      obtain ⟨receiver, e⟩ := x
      rw [scan, currentCaps_cons]
      by_cases hold : TTL < now - e.time
      · rw [if_pos hold, if_neg (Entry.not_current hold)]
        exact ih h _
      · rw [if_neg hold, if_pos (Entry.current_of_not hold), Set.union_insert, ← Set.insert_union]
        exact ih (h.insert e.cap) m

theorem get_scan {e : Entry} (l : List (ρ × Entry)) (m : OrderedMap ρ Entry)
    (min : Option ℚ) : (scan now l m min).1.get receiver = some e ↔
      m.get receiver = some e ∧ ∀ e', (receiver, e') ∈ l → e'.current now = true := by
  induction l generalizing m min with
  | nil => exact (and_iff_left fun _ h => absurd h List.not_mem_nil).symm
  | cons x l ih =>
      obtain ⟨receiver', x⟩ := x
      rw [scan]
      by_cases hold : TTL < now - x.time
      · rw [if_pos hold, ih, OrderedMap.get_delete]
        by_cases hrec : receiver = receiver'
        · rw [if_pos hrec]
          refine iff_of_false (fun h => nomatch h.1) fun h => Entry.not_current hold ?_
          exact h.2 x (hrec ▸ List.mem_cons_self)
        · rw [if_neg hrec]
          refine and_congr_right fun _ => forall_congr' fun e' => imp_congr_left ?_
          rw [List.mem_cons, or_iff_right fun h => hrec (congrArg Prod.fst h)]
      · rw [if_neg hold, ih]
        refine and_congr_right fun _ => forall_congr' fun e' => ?_
        rw [List.mem_cons]
        constructor
        · rintro h (heq | hmem)
          · cases heq
            exact Entry.current_of_not hold
          · exact h hmem
        · exact fun h hmem => h (.inr hmem)

/-- `get` drops what is too old, and nothing else. -/
theorem lookup_get {e : Entry} : (c.get stream now).1.lookup stream' receiver = some e ↔
    c.lookup stream' receiver = some e ∧ (stream' = stream → e.current now = true) := by
  unfold get
  cases hm : c.streams.get stream with
  | none =>
      refine (and_iff_left_of_imp fun he hstream => ?_).symm
      rw [lookup, hstream, hm] at he
      cases he
  | some m =>
      dsimp only
      rw [lookup_keep]
      split_ifs with hstream
      · rw [get_scan, lookup, hstream, hm, Option.bind_some]
        refine and_congr_right fun he => ?_
        simp only [OrderedMap.mem_entries, he, Option.some.injEq, forall_eq', true_implies]
      · exact (and_iff_left fun h => absurd h hstream).symm

theorem isMin_get (c : Caps σ ρ) (stream : σ) (now : ℚ) :
    IsMin (c.requests stream now) (c.get stream now).2 := by
  unfold get
  cases hm : c.streams.get stream with
  | none =>
      refine Set.eq_empty_of_forall_notMem ?_
      rintro cap ⟨receiver, e, he, -⟩
      rw [lookup, hm] at he
      cases he
  | some m =>
      have hrequests : c.requests stream now = ∅ ∪ currentCaps now m.entries := by
        rw [Set.empty_union]
        ext cap
        constructor
        · rintro ⟨receiver, e, he, hcap⟩
          rw [lookup, hm] at he
          exact ⟨(receiver, e), OrderedMap.mem_entries.mpr he, hcap⟩
        · rintro ⟨⟨receiver, e⟩, he, hcap⟩
          refine ⟨receiver, e, ?_, hcap⟩
          rw [lookup, hm]
          exact OrderedMap.mem_entries.mp he
      rw [hrequests]
      have hnone : IsMin (∅ : Set ℚ) none := rfl
      exact scan_min hnone m.entries m

theorem lookup_ask (value : Option ℚ) :
    (c.ask stream receiver now value).lookup stream' receiver' =
      if stream' = stream ∧ receiver' = receiver then value.map (⟨·, now⟩)
      else c.lookup stream' receiver' := by
  unfold ask
  cases value with
  | none =>
      dsimp only
      cases hm : c.streams.get stream with
      | none =>
          split_ifs with h
          · rw [lookup, h.1, hm]
            rfl
          · rfl
      | some m =>
          dsimp only
          rw [lookup_keep, OrderedMap.get_delete]
          by_cases hstream : stream' = stream
          · rw [if_pos hstream, lookup, hstream, hm, Option.bind_some]
            exact if_congr (and_iff_right rfl).symm rfl rfl
          · rw [if_neg hstream, if_neg fun h => hstream h.1]
  | some cap =>
      dsimp only
      rw [lookup, OrderedMap.get_put]
      by_cases hstream : stream' = stream
      · rw [if_pos hstream, Option.bind_some, OrderedMap.get_put, hstream]
        refine if_congr (and_iff_right rfl).symm rfl ?_
        rw [lookup]
        cases c.streams.get stream <;> rfl
      · rw [if_neg hstream, if_neg fun h => hstream h.1, lookup]

omit [DecidableEq ρ] in
theorem get_keep_of_ne (h : stream' ≠ stream) (m : OrderedMap ρ Entry) :
    (c.keep stream m).streams.get stream' = c.streams.get stream' := by
  unfold keep
  split_ifs
  · rw [OrderedMap.get_delete, if_neg h]
  · rw [OrderedMap.get_put, if_neg h]

theorem lookup_forgetIn {l : List (σ × OrderedMap ρ Entry)} (hnodup : (l.map Prod.fst).Nodup)
    (hl : ∀ x ∈ l, c.streams.get x.1 = some x.2) (touched : List σ) :
    (forgetIn receiver l c touched).1.lookup stream' receiver' =
      if stream' ∈ l.map Prod.fst ∧ receiver' = receiver then none
      else c.lookup stream' receiver' := by
  induction l generalizing c touched with
  | nil => rw [forgetIn, if_neg fun h => absurd h.1 List.not_mem_nil]
  | cons x l ih =>
      obtain ⟨stream, m⟩ := x
      obtain ⟨hnot, hnodup⟩ := List.nodup_cons.mp hnodup
      have hm : c.streams.get stream = some m := hl _ List.mem_cons_self
      have hrest : ∀ x ∈ l, (c.keep stream (m.delete receiver)).streams.get x.1 = some x.2 := by
        intro x hx
        have hne : x.1 ≠ stream := fun h => hnot (List.mem_map.mpr ⟨x, hx, h⟩)
        rw [get_keep_of_ne hne]
        exact hl x (List.mem_cons_of_mem _ hx)
      have hmem : stream' ∈ ((stream, m) :: l).map Prod.fst ↔
          stream' = stream ∨ stream' ∈ l.map Prod.fst := List.mem_cons
      rw [forgetIn, ih hnodup hrest, lookup_keep, OrderedMap.get_delete,
        if_congr (and_congr_left fun _ => hmem) rfl rfl]
      by_cases hstream : stream' = stream
      · subst hstream
        rw [if_neg fun h => hnot h.1, if_pos rfl, lookup, hm, Option.bind_some]
        exact if_congr (and_iff_right (.inl rfl)).symm rfl rfl
      · rw [if_neg hstream]
        exact if_congr (and_congr_left fun _ => (or_iff_right hstream).symm) rfl rfl

theorem lookup_forget : (c.forget receiver).1.lookup stream' receiver' =
    if receiver' = receiver then none else c.lookup stream' receiver' := by
  rw [forget, lookup_forgetIn c.streams.nodup fun x hx => OrderedMap.mem_entries.mp hx]
  by_cases hmem : stream' ∈ c.streams.entries.map Prod.fst
  · exact if_congr (and_iff_right hmem) rfl rfl
  · rw [if_neg fun h => hmem h.1]
    have hnone : c.lookup stream' receiver' = none := by
      rw [lookup, OrderedMap.get_eq_none.mpr fun m h => hmem (List.mem_map_of_mem h)]
      rfl
    rw [hnone, ite_self]

end Caps

end Lookup

/-! ## Against the log -/

section Refinement

variable {σ ρ : Type*} [DecidableEq σ] [DecidableEq ρ] {c : Caps σ ρ} {log : List (Call σ ρ)}
  {now t : ℚ}

/-- What the registry holds is in the log, and what it lacks is too old by now. -/
structure Tracks (log : List (Call σ ρ)) (now : ℚ) (c : Caps σ ρ) : Prop where
  held : ∀ stream receiver e, c.lookup stream receiver = some e →
    latest log stream receiver = some e
  current : ∀ stream receiver e, latest log stream receiver = some e → e.current now = true →
    c.lookup stream receiver = some e

theorem Entry.current_mono {e : Entry} (hle : now ≤ t) (h : e.current t = true) :
    e.current now = true := by
  by_contra hnot
  refine Entry.not_current ?_ h
  have hold : TTL < now - e.time := by
    by_contra hnew
    exact hnot (Entry.current_of_not hnew)
  linarith

theorem Tracks.later (h : Tracks log now c) (hle : now ≤ t) : Tracks log t c where
  held := h.held
  current stream receiver e he hcurrent :=
    h.current stream receiver e he (Entry.current_mono hle hcurrent)

theorem Tracks.get (h : Tracks log now c) (stream : σ) :
    Tracks log now (c.get stream now).1 where
  held stream' receiver e he := h.held stream' receiver e (Caps.lookup_get.mp he).1
  current stream' receiver e he hcurrent :=
    Caps.lookup_get.mpr ⟨h.current stream' receiver e he hcurrent, fun _ => hcurrent⟩

/-- The caps that are held are those of the log. -/
theorem Tracks.requests (h : Tracks log now c) (stream : σ) :
    c.requests stream now = Fresh log stream now := by
  ext cap
  refine exists_congr fun receiver => exists_congr fun e => ?_
  constructor
  · rintro ⟨he, hcurrent, hcap⟩
    exact ⟨h.held stream receiver e he, not_lt.mp (of_decide_eq_true hcurrent), hcap⟩
  · rintro ⟨he, hage, hcap⟩
    have hcurrent : e.current now = true := Entry.current_of_not (not_lt.mpr hage)
    exact ⟨h.current stream receiver e he hcurrent, hcurrent, hcap⟩

theorem Tracks.isMin (h : Tracks log now c) (stream : σ) :
    IsMin (Fresh log stream now) (c.get stream now).2 := by
  rw [← h.requests stream]
  exact Caps.isMin_get c stream now

theorem latest_append (call : Call σ ρ) (stream : σ) (receiver : ρ) :
    latest (log ++ [call]) stream receiver =
      call.after stream receiver (latest log stream receiver) :=
  List.foldl_concat ..

/-- A call that treats the requests held as it treats those of the log. -/
theorem Tracks.append {c' : Caps σ ρ} {call : Call σ ρ} (h : Tracks log now c)
    (hafter : ∀ stream receiver, c'.lookup stream receiver =
      call.after stream receiver (c.lookup stream receiver)) :
    Tracks (log ++ [call]) now c' := by
  constructor
  · intro stream receiver e he
    rw [hafter] at he
    rw [latest_append]
    cases call with
    | set stream' receiver' cap time =>
        rw [Call.after] at he ⊢
        split_ifs at he ⊢
        · exact he
        · exact h.held stream receiver e he
    | get stream' time => exact h.held stream receiver e he
    | forget receiver' =>
        rw [Call.after] at he ⊢
        split_ifs at he ⊢
        exact h.held stream receiver e he
  · intro stream receiver e he hcurrent
    rw [latest_append] at he
    rw [hafter]
    cases call with
    | set stream' receiver' cap time =>
        rw [Call.after] at he ⊢
        split_ifs at he ⊢
        · exact he
        · exact h.current stream receiver e he hcurrent
    | get stream' time => exact h.current stream receiver e he hcurrent
    | forget receiver' =>
        rw [Call.after] at he ⊢
        split_ifs at he ⊢
        exact h.current stream receiver e he hcurrent

theorem Tracks.asked (h : Tracks log now c) (stream : σ) (receiver : ρ) (cap : Value) :
    Tracks (log ++ [.set stream receiver cap now]) now
      ((c.get stream now).1.ask stream receiver now (sanitizeCap cap)) :=
  (h.get stream).append fun _ _ => Caps.lookup_ask _

theorem Tracks.step (h : Tracks log now c) {call : Call σ ρ} (hnow : ∀ time ∈ call.now?, time = now) :
    Tracks (log ++ [call]) now (c.step call).1 := by
  cases call with
  | set stream receiver cap time =>
      obtain rfl : time = now := hnow time rfl
      exact (h.asked stream receiver cap).get stream
  | get stream time =>
      obtain rfl : time = now := hnow time rfl
      exact (h.get stream).append fun _ _ => rfl
  | forget receiver => exact h.append fun _ _ => Caps.lookup_forget

/-- A call that comes in time answers as if nothing were ever dropped. -/
theorem Tracks.eager (h : Tracks log now c) {call : Call σ ρ} (hnow : ∀ time ∈ call.now?, time = now) :
    call.Eager log (c.step call).2 := by
  cases call with
  | set stream receiver cap time =>
      obtain rfl : time = now := hnow time rfl
      refine ⟨_, _, h.isMin stream, (h.asked stream receiver cap).isMin stream, ?_⟩
      exact decide_eq_true_iff
  | get stream time =>
      obtain rfl : time = now := hnow time rfl
      exact h.isMin stream
  | forget receiver => trivial

theorem tracks_run (hordered : Ordered log) (hnow : ∀ time ∈ log.filterMap Call.now?, time ≤ now) :
    Tracks log now (Caps.run {} log) := by
  induction log using List.reverseRecOn generalizing now with
  | nil => exact ⟨nofun, nofun⟩
  | append_singleton log call ih =>
      rw [Ordered, List.filterMap_append, List.pairwise_append] at hordered
      obtain ⟨hlog, -, hlast⟩ := hordered
      rw [List.filterMap_append] at hnow
      rw [Caps.run, List.foldl_concat]
      cases hcall : call.now? with
      | none =>
          have hbefore : ∀ time ∈ log.filterMap Call.now?, time ≤ now :=
            fun time h => hnow time (List.mem_append_left _ h)
          exact (ih hlog hbefore).step fun time h => by rw [hcall] at h; cases h
      | some time =>
          have hmem : time ∈ [call].filterMap Call.now? := by
            rw [List.filterMap_cons_some hcall]
            exact List.mem_cons_self
          have htracks := ih hlog fun earlier h => hlast earlier h time hmem
          refine (htracks.step fun other h => ?_).later (hnow time (List.mem_append_right _ hmem))
          rw [hcall] at h
          exact (Option.some.inj h).symm

/-- Calls at times that do not decrease are answered as by a registry that forgets
nothing. -/
theorem answers_eager (log : List (Call σ ρ)) (call : Call σ ρ) (h : Ordered (log ++ [call])) :
    call.Eager log ((Caps.run {} log).step call).2 := by
  rw [Ordered, List.filterMap_append, List.pairwise_append] at h
  obtain ⟨hlog, -, hlast⟩ := h
  cases hcall : call.now? with
  | none =>
      cases call with
      | forget receiver => trivial
      | set stream receiver cap time => cases hcall
      | get stream time => cases hcall
  | some time =>
      have hmem : time ∈ [call].filterMap Call.now? := by
        rw [List.filterMap_cons_some hcall]
        exact List.mem_cons_self
      have htracks := tracks_run hlog fun earlier h => hlast earlier h time hmem
      refine htracks.eager fun other h => ?_
      rw [hcall] at h
      exact (Option.some.inj h).symm

/-- The cap of one receiver is too old when the other one's is lifted. -/
theorem answers_eager_expired :
    Call.Eager [.set 0 1 (.number 500000) 0, .set 0 2 (.number 300000) 30000]
      (.set 0 2 .other 40000) ((Caps.run {} [.set 0 1 (.number 500000) 0,
        .set 0 2 (.number 300000) 30000] : Caps ℕ ℕ).step (.set 0 2 .other 40000)).2 :=
  answers_eager _ _ (by
    simp only [Ordered, List.cons_append, List.nil_append, List.filterMap_cons, Call.now?,
      List.filterMap_nil]
    norm_num)

end Refinement

end Sozvon.Bitrate
