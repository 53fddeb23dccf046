import Mathlib.Data.Rat.Cast.Order
import Mathlib.Data.List.Pairwise
import Mathlib.Algebra.Order.Field.Rat
import Mathlib.Tactic.Linarith
import Mathlib.Tactic.Positivity
import Mathlib.Tactic.Ring
import Mathlib.Tactic.NormNum

/-!
# The limit of the reports of a client

A client's reports of its connection are logged as long as it has a token for each.
`qualityAllowed` keeps the tokens, here as rational numbers. The clock counts
nanoseconds.
-/
namespace Sozvon.ReportLimits

def qualityBurst : ℚ := 20

/-- Three seconds. -/
def qualityRefill : ℚ := 3000000000

/-- The part of a `webClient`. Its `qualityTime` is the zero time before the first report,
and that is `none`. -/
structure Client where
  qualityTokens : ℚ := 0
  qualityTime : Option ℤ := none
deriving DecidableEq, Repr

/-- `time.Time.Sub`: the difference of two readings, within the durations. -/
def sub (t u : ℤ) : ℤ := max (-2 ^ 63) (min (t - u) (2 ^ 63 - 1))

/-- The tokens that a report finds. -/
def available (c : Client) (now : ℤ) : ℚ :=
  match c.qualityTime with
  | none => qualityBurst
  | some last =>
      let tokens := c.qualityTokens + sub now last / qualityRefill
      if tokens > qualityBurst then qualityBurst else tokens

def qualityAllowed (c : Client) (now : ℤ) : Bool × Client :=
  let tokens := available c now
  if tokens < 1 then (false, { qualityTokens := tokens, qualityTime := some now })
  else (true, { qualityTokens := tokens - 1, qualityTime := some now })

/-- The client after reports at these times. -/
def after (c : Client) : List ℤ → Client
  | [] => c
  | now :: rest => after (qualityAllowed c now).2 rest

/-- The times of the reports that are accepted. -/
def accepted (c : Client) : List ℤ → List ℤ
  | [] => []
  | now :: rest =>
      let (ok, c') := qualityAllowed c now
      if ok then now :: accepted c' rest else accepted c' rest

theorem accepted_cons (c : Client) (now : ℤ) (rest : List ℤ) :
    accepted c (now :: rest) =
      if available c now < 1
        then accepted { qualityTokens := available c now, qualityTime := some now } rest
        else now ::
          accepted { qualityTokens := available c now - 1, qualityTime := some now } rest := by
  rw [accepted, qualityAllowed]
  split_ifs <;> rfl

theorem mem_of_mem_accepted {c : Client} {times : List ℤ} {t : ℤ} (h : t ∈ accepted c times) :
    t ∈ times := by
  induction times generalizing c with
  | nil => exact h
  | cons now rest ih =>
      rw [accepted_cons] at h
      split_ifs at h
      · exact List.mem_cons_of_mem _ (ih h)
      · rcases List.mem_cons.1 h with rfl | h
        · exact List.mem_cons_self ..
        · exact List.mem_cons_of_mem _ (ih h)

/-- What is known of a client whose reports so far came no later than `now`. -/
structure Inv (c : Client) (now : ℤ) : Prop where
  nonneg : 0 ≤ c.qualityTokens
  le_burst : c.qualityTokens ≤ qualityBurst
  past : ∀ last ∈ c.qualityTime, last ≤ now

theorem sub_nonneg {t u : ℤ} (h : u ≤ t) : 0 ≤ sub t u := by
  rw [sub]
  omega

theorem sub_le {t u : ℤ} (h : u ≤ t) : sub t u ≤ t - u := by
  rw [sub]
  omega

theorem available_le_burst (c : Client) (now : ℤ) : available c now ≤ qualityBurst := by
  rw [available]
  cases c.qualityTime with
  | none => exact le_refl _
  | some last =>
      dsimp only
      split_ifs with h
      · exact le_refl _
      · exact not_lt.1 h

theorem Inv.available_nonneg {c : Client} {now : ℤ} (h : Inv c now) : 0 ≤ available c now := by
  rw [available]
  cases htime : c.qualityTime with
  | none => exact (by decide : (0 : ℚ) ≤ 20)
  | some last =>
      have hsub : (0 : ℚ) ≤ sub now last := by exact_mod_cast sub_nonneg (h.past last htime)
      have hrefill : (0 : ℚ) < qualityRefill := by decide
      have hnonneg := h.nonneg
      dsimp only
      split_ifs
      · exact (by decide : (0 : ℚ) ≤ 20)
      · positivity

/-- As time passes tokens come in at the rate of the refill, or less. -/
theorem available_some_le {tokens : ℚ} {last now : ℤ} (h : last ≤ now) :
    available { qualityTokens := tokens, qualityTime := some last } now ≤
      tokens + (now - last) / qualityRefill := by
  have hle : (sub now last : ℚ) ≤ now - last := by exact_mod_cast sub_le h
  have hdiv : (sub now last : ℚ) / qualityRefill ≤ (now - last) / qualityRefill :=
    div_le_div_of_nonneg_right hle (by decide)
  rw [available]
  dsimp only
  split_ifs with hlt
  · exact hlt.le.trans (by linarith)
  · linarith

theorem Inv.keep {c : Client} {now : ℤ} (h : Inv c now) :
    Inv { qualityTokens := available c now, qualityTime := some now } now :=
  ⟨h.available_nonneg, available_le_burst c now, fun _ hlast => (Option.some.inj hlast).ge⟩

theorem Inv.spend {c : Client} {now : ℤ} (h : ¬ available c now < 1) :
    Inv { qualityTokens := available c now - 1, qualityTime := some now } now :=
  ⟨by linarith [not_lt.1 h], by linarith [available_le_burst c now],
    fun _ hlast => (Option.some.inj hlast).ge⟩

theorem Inv.mono {c : Client} {now later : ℤ} (h : Inv c now) (hle : now ≤ later) :
    Inv c later :=
  ⟨h.nonneg, h.le_burst, fun last hlast => (h.past last hlast).trans hle⟩

theorem inv_fresh (now : ℤ) : Inv {} now :=
  ⟨le_refl _, by decide, nofun⟩

/-- The report before was the first of those that are still to come, so they keep the invariant. -/
theorem Inv.rest {c : Client} {now : ℤ} {rest : List ℤ} (h : Inv c now)
    (hsorted : (now :: rest).Pairwise (· ≤ ·)) : ∀ t ∈ rest, Inv c t :=
  fun t ht => h.mono ((List.pairwise_cons.1 hsorted).1 t ht)

theorem inv_after {c : Client} {times : List ℤ} {later : ℤ} (hsorted : times.Pairwise (· ≤ ·))
    (h : ∀ t ∈ times, Inv c t) (hlater : Inv c later) (hle : ∀ t ∈ times, t ≤ later) :
    Inv (after c times) later := by
  induction times generalizing c with
  | nil => exact hlater
  | cons t rest ih =>
      have hnext : Inv (qualityAllowed c t).2 t := by
        have ht := h t (List.mem_cons_self ..)
        rw [qualityAllowed]
        split_ifs with hlt
        · exact ht.keep
        · exact Inv.spend hlt
      exact ih (List.pairwise_cons.1 hsorted).2 (hnext.rest hsorted)
        (hnext.mono (hle t (List.mem_cons_self ..)))
        fun u hu => hle u (List.mem_cons_of_mem _ hu)

/-- The accepted reports between two moments. -/
def acceptedWithin (c : Client) (times : List ℤ) (a b : ℚ) : List ℤ :=
  (accepted c times).filter fun t => a ≤ t ∧ t ≤ b

theorem acceptedWithin_nil_of_late {c : Client} {t : ℤ} {rest : List ℤ} {a b : ℚ}
    (hsorted : (t :: rest).Pairwise (· ≤ ·)) (h : b < t) : acceptedWithin c (t :: rest) a b = [] := by
  refine List.filter_eq_nil_iff.2 fun u hu => ?_
  have hle : t ≤ u := by
    rcases List.mem_cons.1 (mem_of_mem_accepted hu) with rfl | hu
    · exact Int.le_refl _
    · exact (List.pairwise_cons.1 hsorted).1 u hu
  have hcast : (t : ℚ) ≤ u := by exact_mod_cast hle
  simp only [decide_eq_true_eq]
  exact fun hin => not_lt.2 hin.2 (h.trans_le hcast)

theorem acceptedWithin_cons (c : Client) (now : ℤ) (rest : List ℤ) (a b : ℚ) :
    acceptedWithin c (now :: rest) a b =
      if available c now < 1
        then acceptedWithin { qualityTokens := available c now, qualityTime := some now } rest a b
        else (if a ≤ now ∧ now ≤ b then [now] else []) ++
          acceptedWithin { qualityTokens := available c now - 1, qualityTime := some now }
            rest a b := by
  rw [acceptedWithin, accepted_cons]
  split_ifs with hlt hin
  · rfl
  · exact List.filter_cons_of_pos (decide_eq_true hin)
  · exact List.filter_cons_of_neg fun h => hin (of_decide_eq_true h)

/-- One report spends the token that it takes. -/
theorem length_acceptedWithin_cons_le {c : Client} {now : ℤ} {rest : List ℤ} {a b more : ℚ}
    (h : Inv c now)
    (hrest : ∀ tokens : ℚ, Inv { qualityTokens := tokens, qualityTime := some now } now →
      ((acceptedWithin { qualityTokens := tokens, qualityTime := some now } rest a b).length : ℚ) ≤
        tokens + more) :
    ((acceptedWithin c (now :: rest) a b).length : ℚ) ≤ available c now + more := by
  rw [acceptedWithin_cons]
  split_ifs with hlt hin
  · exact hrest _ h.keep
  · have hspend := hrest _ (Inv.spend hlt)
    rw [List.length_append, List.length_singleton]
    push_cast
    linarith
  · have hspend := hrest _ (Inv.spend hlt)
    rw [List.nil_append]
    linarith

/-- From a report on, at most the tokens that it finds are spent and those that come in until
the end of the window. -/
theorem length_acceptedWithin_le {c : Client} {now : ℤ} {times : List ℤ} {a b : ℚ}
    (h : Inv c now) (hsorted : (now :: times).Pairwise (· ≤ ·)) (hb : now ≤ b) :
    ((acceptedWithin c (now :: times) a b).length : ℚ) ≤
      available c now + (b - now) / qualityRefill := by
  have hrefill : (0 : ℚ) < qualityRefill := by decide
  have hleft : 0 ≤ (b - now) / qualityRefill := div_nonneg (by linarith) hrefill.le
  induction times generalizing c now with
  | nil =>
      refine length_acceptedWithin_cons_le h fun tokens htokens => ?_
      have hnonneg : 0 ≤ tokens := htokens.nonneg
      exact add_nonneg hnonneg hleft
  | cons t rest ih =>
      obtain ⟨hhead, hrest⟩ := List.pairwise_cons.1 hsorted
      have ht : now ≤ t := hhead t (List.mem_cons_self ..)
      refine length_acceptedWithin_cons_le h fun tokens htokens => ?_
      have hnonneg : 0 ≤ tokens := htokens.nonneg
      rcases lt_or_ge b (t : ℚ) with hlate | hin
      · rw [acceptedWithin_nil_of_late hrest hlate]
        exact add_nonneg hnonneg hleft
      · have hih := ih (htokens.mono ht) hrest hin (div_nonneg (by linarith) hrefill.le)
        have hcome := @available_some_le tokens _ _ ht
        have hsplit : (b - now) / qualityRefill =
            (t - now) / qualityRefill + (b - t) / qualityRefill := by ring
        linarith

/-- In every window of a run at most the burst is accepted and what comes in while it lasts. -/
theorem length_acceptedWithin_window {c : Client} {times : List ℤ} {a b : ℚ}
    (hsorted : times.Pairwise (· ≤ ·)) (h : ∀ t ∈ times, Inv c t) (hab : a ≤ b) :
    ((acceptedWithin c times a b).length : ℚ) ≤ qualityBurst + (b - a) / qualityRefill := by
  have hrefill : (0 : ℚ) < qualityRefill := by decide
  have hbound : 0 ≤ qualityBurst + (b - a) / qualityRefill :=
    add_nonneg (by decide) (div_nonneg (by linarith) hrefill.le)
  induction times generalizing c with
  | nil => exact hbound
  | cons t rest ih =>
      have ht := h t (List.mem_cons_self ..)
      have hrest := (List.pairwise_cons.1 hsorted).2
      rcases lt_or_ge (t : ℚ) a with hbefore | hin
      · -- a report before the window counts for nothing
        have hout : ¬ (a ≤ (t : ℚ) ∧ (t : ℚ) ≤ b) := fun hin => not_lt.2 hin.1 hbefore
        rw [acceptedWithin_cons, if_neg hout, List.nil_append]
        split_ifs with hlt
        · exact ih hrest (ht.keep.rest hsorted)
        · exact ih hrest ((Inv.spend hlt).rest hsorted)
      rcases lt_or_ge b (t : ℚ) with hlate | hle
      · rw [acceptedWithin_nil_of_late hsorted hlate]
        exact hbound
      · have hfrom := length_acceptedWithin_le (a := a) ht hsorted hle
        have hfull := available_le_burst c t
        have hless : (b - t) / qualityRefill ≤ (b - a) / qualityRefill :=
          div_le_div_of_nonneg_right (by linarith) hrefill.le
        linarith

/-- After a minute of silence the burst is full. -/
theorem available_of_silence {c : Client} {now later : ℤ} (h : Inv c now)
    (hlater : now + 60000000000 ≤ later) : available c later = qualityBurst := by
  rw [available]
  cases htime : c.qualityTime with
  | none => rfl
  | some last =>
      have hpast := h.past last htime
      have hsub : 60000000000 ≤ sub later last := by
        rw [sub]
        omega
      have hcome : qualityBurst ≤ (sub later last : ℚ) / qualityRefill := by
        rw [le_div_iff₀ (by decide)]
        have hcast : (60000000000 : ℚ) ≤ sub later last := by exact_mod_cast hsub
        calc qualityBurst * qualityRefill = 60000000000 := by norm_num [qualityBurst, qualityRefill]
          _ ≤ sub later last := hcast
      have hnonneg := h.nonneg
      dsimp only
      split_ifs with hlt
      · rfl
      · linarith

theorem available_at_once {tokens : ℚ} (h : tokens ≤ qualityBurst) (now : ℤ) :
    available { qualityTokens := tokens, qualityTime := some now } now = tokens := by
  have hzero : sub now now = 0 := by
    rw [sub]
    omega
  rw [available]
  dsimp only
  rw [hzero, Int.cast_zero, zero_div, add_zero, if_neg (not_lt.2 h)]

/-- Reports at one moment are accepted as long as there are whole tokens. -/
theorem accepted_at_once (n m : ℕ) (now : ℤ) {c : Client} (h : available c now = n) :
    accepted c (List.replicate m now) = List.replicate (min n m) now := by
  have hburst : (n : ℚ) ≤ qualityBurst := h ▸ available_le_burst c now
  induction m generalizing n c with
  | zero => rw [Nat.min_zero]; rfl
  | succ m ih =>
      rw [List.replicate_succ, accepted_cons, h]
      cases n with
      | zero =>
          rw [if_pos (by norm_num), ih 0 (available_at_once hburst now) hburst, Nat.zero_min,
            Nat.zero_min]
      | succ n =>
          have hless : ((n + 1 : ℕ) : ℚ) - 1 = n := by push_cast; ring
          have hn : (n : ℚ) ≤ qualityBurst := by push_cast at hburst; linarith
          rw [if_neg (by push_cast; linarith [(Nat.cast_nonneg n : (0 : ℚ) ≤ n)]), hless,
            ih n (available_at_once hn now) hn, Nat.succ_min_succ, List.replicate_succ]

/-- No window of a run of reports, in the order of the clock, has more of them accepted than twenty
and one for every three seconds. A minute after all of them twenty are accepted again at one
moment, and never more. -/
theorem reports_limited {times : List ℤ} (hsorted : times.Pairwise (· ≤ ·)) :
    (∀ a b : ℚ, a ≤ b →
      ((acceptedWithin {} times a b).length : ℚ) ≤ 20 + (b - a) / 3000000000) ∧
    (∀ now : ℤ, (∀ t ∈ times, t + 60000000000 ≤ now) → ∀ m : ℕ,
      accepted (after {} times) (List.replicate m now) = List.replicate (min 20 m) now) := by
  have hfresh : ∀ t ∈ times, Inv {} t := fun t _ => inv_fresh t
  refine ⟨fun a b hab => length_acceptedWithin_window hsorted hfresh hab, fun now hsilent m => ?_⟩
  have hinv : Inv (after {} times) (now - 60000000000) :=
    inv_after hsorted hfresh (inv_fresh _) fun t ht => by
      have := hsilent t ht
      omega
  exact accepted_at_once 20 m now (available_of_silence hinv (by omega))

theorem reports_limited_second :
    ((acceptedWithin {} [5, 5, 1000000005] 5 1000000005).length : ℚ) ≤
        20 + (1000000005 - 5) / 3000000000 ∧
      accepted (after {} [5, 5, 1000000005]) (List.replicate 21 61000000005) =
        List.replicate 20 61000000005 := by
  have hsorted : ([5, 5, 1000000005] : List ℤ).Pairwise (· ≤ ·) := by decide
  have h := reports_limited hsorted
  exact ⟨h.1 5 1000000005 (by norm_num), h.2 61000000005 (by decide) 21⟩

end Sozvon.ReportLimits
