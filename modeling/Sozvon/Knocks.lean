import Sozvon.OrderedMaps
import Sozvon.Runs

/-!
# Knocks

A page raises a knock, the app keeps it, and while the app is not the window in front the
knock has a window of its own, with the buttons that the page has offered. The three are
kept in step by messages of the page and by what the app hears of its navigations.

The app drops all knocks when a navigation starts. The page it starts from is still there
then, and stays if the navigation is given up.
-/
namespace Sozvon.Knocks

open Runs

section Definitions

structure Action where
  id : String
  label : String
  primary : Bool
deriving DecidableEq

structure Knock where
  key : String
  text : String
  actions : List Action
deriving DecidableEq

/-- What `outstanding` has under a key. -/
structure Entry where
  knock : Knock
  dismissed : Bool
deriving DecidableEq

/-- The main process. A notification window is on the stack under its key, and `duty.knocks`
is what the tray shows. -/
structure App where
  hasTheirAttention : Bool
  outstanding : OrderedMap String Entry := {}
  stack : List String := []
  knocksOnDuty : ℕ := 0

/-- `show` of the notification windows -/
def showKnock (stack : List String) (knock : Knock) : List String :=
  if knock.key = "" then stack
  else if knock.key ∈ stack then stack
  else stack ++ [knock.key]

def dismiss (stack : List String) (key : String) : List String := stack.erase key

def dismissAll (stack : List String) : List String := stack.foldl dismiss stack

namespace App

def syncKnockWindows (a : App) : App :=
  if a.hasTheirAttention then { a with stack := dismissAll a.stack }
  else
    { a with
      stack := (a.outstanding.entries.map Prod.snd).foldl
        (fun stack entry => if ¬ entry.dismissed then showKnock stack entry.knock else stack)
        a.stack }

def knockArrived (a : App) (knock : Option Knock) : App :=
  match knock with
  | none => a
  | some knock =>
      if knock.key = "" then a
      else
        let dismissed := (a.outstanding.get knock.key).elim false fun before =>
          before.dismissed && before.knock.text = knock.text
        let outstanding := a.outstanding.put knock.key ⟨knock, dismissed⟩
        { a with
          outstanding := outstanding
          knocksOnDuty := outstanding.entries.length }.syncKnockWindows

def knockGone (a : App) (key : String) : App :=
  if key = "" then a
  else
    let outstanding := a.outstanding.delete key
    { a with
      outstanding := outstanding
      stack := dismiss a.stack key
      knocksOnDuty := outstanding.entries.length }

def knocksClear (a : App) : App :=
  { a with outstanding := {}, stack := dismissAll a.stack, knocksOnDuty := 0 }

def didStartNavigation (a : App) (isMainFrame isSameDocument : Bool) : App :=
  if isMainFrame ∧ ¬ isSameDocument then a.knocksClear else a

def onDismiss (a : App) (key : String) : App :=
  match a.outstanding.get key with
  | none => a
  | some entry =>
      { a with outstanding := a.outstanding.put key { entry with dismissed := true } }

end App

/-- The knock that the app has under a key. -/
def App.onHand (a : App) (key : String) : Option Knock := (a.outstanding.get key).map Entry.knock

/-- A `knock-action` sent to the page on screen, with what that page has raised under the key
and not withdrawn. -/
structure Press where
  key : String
  action : String
  raised : Option Knock

/-- The app and the page on screen. Of the page it is known what it has raised and not
withdrawn, in all and since the last navigation has started. -/
structure State where
  app : App
  live : OrderedMap String Knock := {}
  since : OrderedMap String Knock := {}
  navigations : ℕ := 0
  pressed : List Press := []

inductive Label where
  | didStartNavigation (isMainFrame isSameDocument : Bool)
  /-- A navigation in progress puts the new page on screen. -/
  | commit
  /-- A navigation in progress fails, is stopped or turns out to be a download. -/
  | giveUp
  | knock (knock : Option Knock)
  | knockGone (key : String)
  /-- The app comes to be the window in front, or no longer is. -/
  | attention (theirs : Bool)
  /-- The main window fires `focus`, `blur`, `show`, `hide`, `minimize` or `restore`. -/
  | windowEvent
  /-- A button of the notification under a key. -/
  | action (key action : String)
  | dismiss (key : String)
  /-- A notification window is closed by the system. -/
  | closed (key : String)

/-- The knocks of a page after a message that raises one. -/
def raise (knocks : OrderedMap String Knock) : Option Knock → OrderedMap String Knock
  | none => knocks
  | some knock => if knock.key = "" then knocks else knocks.put knock.key knock

def State.step (s : State) : Label → Option State
  | .didStartNavigation isMainFrame isSameDocument =>
      let app := s.app.didStartNavigation isMainFrame isSameDocument
      if isMainFrame ∧ ¬ isSameDocument then
        some { s with app := app, since := {}, navigations := s.navigations + 1 }
      else some { s with app := app }
  | .commit =>
      if s.navigations = 0 then none
      else some { s with live := {}, navigations := s.navigations - 1 }
  | .giveUp =>
      if s.navigations = 0 then none else some { s with navigations := s.navigations - 1 }
  | .knock knock =>
      some { s with
        app := s.app.knockArrived knock
        live := raise s.live knock
        since := raise s.since knock }
  | .knockGone key =>
      some { s with
        app := s.app.knockGone key
        live := s.live.delete key
        since := s.since.delete key }
  | .attention theirs => some { s with app := { s.app with hasTheirAttention := theirs } }
  | .windowEvent => some { s with app := s.app.syncKnockWindows }
  | .action key action =>
      if key ∈ s.app.stack then
        some { s with
          app := { s.app with stack := Knocks.dismiss s.app.stack key }
          pressed := s.pressed ++ [⟨key, action, s.live.get key⟩] }
      else none
  | .dismiss key =>
      if key ∈ s.app.stack then
        let app := s.app.onDismiss key
        some { s with app := { app with stack := Knocks.dismiss app.stack key } }
      else none
  | .closed key =>
      if key ∈ s.app.stack then
        some { s with app := { s.app with stack := s.app.stack.erase key } }
      else none

def start (attention : Bool) : State := { app := { hasTheirAttention := attention } }

def system : System State Label where
  init s := ∃ attention, s = start attention
  step := State.step

/-- The knocks on hand are those of the page on screen. While a navigation is in progress
their windows and buttons are there as well, so then too no other page's are. -/
structure Belongs (s : State) : Prop where
  raised : ∀ key knock, s.app.onHand key = some knock → s.live.get key = some knock
  outstanding : s.navigations = 0 →
    ∀ key knock, s.live.get key = some knock → s.app.onHand key = some knock
  delivered : ∀ p ∈ s.pressed, p.raised ≠ none

/-- A page that leaves takes the knocks along that it has raised since the last navigation has
started, and one that stays after all raises those from before once more. -/
def Settled (s : State) : Label → Prop
  | .commit => s.since.entries = []
  | .giveUp => s.navigations = 1 → ∀ e ∈ s.live.entries, s.since.get e.1 ≠ none
  | _ => True

instance (s : State) (l : Label) : Decidable (Settled s l) :=
  match l with
  | .commit => inferInstanceAs (Decidable (s.since.entries = []))
  | .giveUp => inferInstanceAs (Decidable (s.navigations = 1 → ∀ e ∈ s.live.entries, _))
  | .didStartNavigation .. | .knock _ | .knockGone _ | .attention _ | .windowEvent | .action ..
  | .dismiss _ | .closed _ => isTrue trivial

end Definitions

/-! ## The app -/

section App

variable {a : App} {stack : List String} {key key' : String} {knock : Option Knock}

theorem dismissAll_eq_nil (stack : List String) : dismissAll stack = [] := by
  induction stack with
  | nil => rfl
  | cons key stack ih =>
      have htail : (key :: stack).erase key = stack := List.erase_cons_head key stack
      rw [dismissAll, List.foldl_cons, dismiss, htail]
      exact ih

/-- What a page's own account of its knocks and the app's have in common: how one message
that raises a knock changes what is under a key. -/
def raisedAt (knock : Option Knock) (key : String) (old : Option Knock) : Option Knock :=
  match knock with
  | none => old
  | some knock => if knock.key = "" then old else if key = knock.key then some knock else old

theorem raisedAt_mono {old old' : Option Knock} (h : ∀ k, old = some k → old' = some k) :
    ∀ k, raisedAt knock key old = some k → raisedAt knock key old' = some k := by
  unfold raisedAt
  cases knock with
  | none => exact h
  | some knock =>
      dsimp only
      split_ifs
      · exact h
      · exact fun k hk => hk
      · exact h

theorem get_raise (knocks : OrderedMap String Knock) (knock : Option Knock) (key : String) :
    (raise knocks knock).get key = raisedAt knock key (knocks.get key) := by
  unfold raise raisedAt
  cases knock with
  | none => rfl
  | some knock =>
      dsimp only
      split_ifs with hempty hkey
      · rfl
      · rw [OrderedMap.get_put, if_pos hkey]
      · rw [OrderedMap.get_put, if_neg hkey]

namespace App

/-- The map is kept under the keys of its knocks, and the windows and the tray follow it. -/
structure Tidy (a : App) : Prop where
  keyed : ∀ key entry, a.outstanding.get key = some entry → entry.knock.key = key ∧ key ≠ ""
  windows : ∀ key ∈ a.stack, a.outstanding.get key ≠ none
  nodup : a.stack.Nodup
  counted : a.knocksOnDuty = a.outstanding.entries.length

theorem syncKnockWindows_outstanding (a : App) :
    a.syncKnockWindows.outstanding = a.outstanding := by
  unfold syncKnockWindows
  split_ifs <;> rfl

theorem syncKnockWindows_knocksOnDuty (a : App) :
    a.syncKnockWindows.knocksOnDuty = a.knocksOnDuty := by
  unfold syncKnockWindows
  split_ifs <;> rfl

theorem mem_showKnock {k : Knock} (h : key ∈ showKnock stack k) : key ∈ stack ∨ key = k.key := by
  unfold showKnock at h
  split_ifs at h
  · exact .inl h
  · exact .inl h
  · exact (List.mem_append.mp h).imp_right List.mem_singleton.mp

theorem nodup_showKnock (h : stack.Nodup) (k : Knock) : (showKnock stack k).Nodup := by
  unfold showKnock
  split_ifs with hempty hmem
  · exact h
  · exact h
  · exact List.nodup_append_comm.mp (List.nodup_cons.mpr ⟨hmem, h⟩)

/-- The windows that are put up are those of knocks on hand. -/
theorem mem_syncKnockWindows (h : key ∈ a.syncKnockWindows.stack) :
    key ∈ a.stack ∨ ∃ e ∈ a.outstanding.entries, key = e.2.knock.key := by
  unfold syncKnockWindows at h
  split_ifs at h
  · have hnil : key ∈ dismissAll a.stack := h
    rw [dismissAll_eq_nil] at hnil
    cases hnil
  · generalize a.outstanding.entries = entries at h ⊢
    dsimp only at h
    generalize a.stack = stack at h ⊢
    induction entries generalizing stack with
    | nil => exact .inl h
    | cons e entries ih =>
        rw [List.map_cons, List.foldl_cons] at h
        rcases ih _ h with hstack | ⟨e', he', hkey⟩
        · split_ifs at hstack
          · exact .inl hstack
          · exact (mem_showKnock hstack).imp_right fun hkey => ⟨e, List.mem_cons_self, hkey⟩
        · exact .inr ⟨e', List.mem_cons_of_mem _ he', hkey⟩

theorem nodup_syncKnockWindows (h : a.stack.Nodup) : a.syncKnockWindows.stack.Nodup := by
  unfold syncKnockWindows
  split_ifs
  · rw [dismissAll_eq_nil]
    exact List.nodup_nil
  · refine List.foldlRecOn _ _ h fun stack hstack e _ => ?_
    split_ifs
    · exact hstack
    · exact nodup_showKnock hstack _

theorem Tidy.syncKnockWindows (h : a.Tidy) : a.syncKnockWindows.Tidy where
  keyed := a.syncKnockWindows_outstanding ▸ h.keyed
  windows key hkey := by
    rw [syncKnockWindows_outstanding]
    rcases mem_syncKnockWindows hkey with hstack | ⟨e, he, rfl⟩
    · exact h.windows key hstack
    · have hget := OrderedMap.mem_entries.mp he
      rw [(h.keyed _ _ hget).1, hget]
      nofun
  nodup := nodup_syncKnockWindows h.nodup
  counted := by
    rw [syncKnockWindows_knocksOnDuty, syncKnockWindows_outstanding]
    exact h.counted

/-- A window goes, whatever becomes of its knock. -/
theorem Tidy.dismiss (h : a.Tidy) (key : String) : { a with stack := dismiss a.stack key }.Tidy :=
  ⟨h.keyed, fun key' hkey' => h.windows key' (List.mem_of_mem_erase hkey'),
    h.nodup.erase key, h.counted⟩

theorem Tidy.knockArrived (h : a.Tidy) (knock : Option Knock) : (a.knockArrived knock).Tidy := by
  unfold App.knockArrived
  cases knock with
  | none => exact h
  | some knock =>
      dsimp only
      split_ifs with hempty
      · exact h
      · refine Tidy.syncKnockWindows ⟨fun key entry hget => ?_, fun key hkey => ?_, h.nodup, rfl⟩
        · dsimp only at hget
          rw [OrderedMap.get_put] at hget
          split_ifs at hget with hkey
          · exact Option.some.inj hget ▸ ⟨hkey.symm, hkey ▸ hempty⟩
          · exact h.keyed key entry hget
        · dsimp only
          rw [OrderedMap.get_put]
          split_ifs
          · exact Option.some_ne_none _
          · exact h.windows key hkey

theorem Tidy.knockGone (h : a.Tidy) (key : String) : (a.knockGone key).Tidy := by
  unfold App.knockGone
  split_ifs with hempty
  · exact h
  · refine ⟨fun key' entry hget => ?_, fun key' hkey' => ?_, h.nodup.erase key, rfl⟩
    · dsimp only at hget
      rw [OrderedMap.get_delete] at hget
      split_ifs at hget
      exact h.keyed key' entry hget
    · obtain ⟨hne, hmem⟩ := h.nodup.mem_erase_iff.mp hkey'
      dsimp only
      rw [OrderedMap.get_delete, if_neg hne]
      exact h.windows key' hmem

theorem tidy_knocksClear (a : App) : a.knocksClear.Tidy := by
  unfold knocksClear
  rw [dismissAll_eq_nil]
  exact ⟨nofun, List.forall_mem_nil _, List.nodup_nil, rfl⟩

theorem Tidy.onDismiss (h : a.Tidy) (key : String) : (a.onDismiss key).Tidy := by
  unfold App.onDismiss
  split
  · exact h
  · rename_i entry hentry
    refine ⟨fun key' entry' hget => ?_, fun key' hkey' => ?_, h.nodup, ?_⟩
    · dsimp only at hget
      rw [OrderedMap.get_put] at hget
      split_ifs at hget with hkey
      · exact Option.some.inj hget ▸ hkey ▸ h.keyed key entry hentry
      · exact h.keyed key' entry' hget
    · dsimp only
      rw [OrderedMap.get_put]
      split_ifs
      · exact Option.some_ne_none _
      · exact h.windows key' hkey'
    · dsimp only
      rw [OrderedMap.length_put hentry]
      exact h.counted

theorem onHand_syncKnockWindows (a : App) (key : String) :
    a.syncKnockWindows.onHand key = a.onHand key := by
  rw [onHand, onHand, syncKnockWindows_outstanding]

theorem onHand_knockArrived (a : App) (knock : Option Knock) (key : String) :
    (a.knockArrived knock).onHand key = raisedAt knock key (a.onHand key) := by
  unfold knockArrived raisedAt
  cases knock with
  | none => rfl
  | some knock =>
      dsimp only
      split_ifs with hempty hkey
      · rfl
      · rw [onHand_syncKnockWindows, onHand, OrderedMap.get_put, if_pos hkey]
        rfl
      · rw [onHand_syncKnockWindows, onHand, OrderedMap.get_put, if_neg hkey]
        rfl

theorem onHand_knockGone (h : a.Tidy) (key key' : String) :
    (a.knockGone key).onHand key' = if key' = key then none else a.onHand key' := by
  unfold knockGone
  split_ifs with hempty hkey hkey
  · -- nothing is kept under an empty key
    rw [onHand, Option.map_eq_none_iff, Option.eq_none_iff_forall_ne_some]
    exact fun entry hget => (h.keyed key' entry hget).2 (hkey.trans hempty)
  · rfl
  · rw [onHand, OrderedMap.get_delete, if_pos hkey]
    rfl
  · rw [onHand, OrderedMap.get_delete, if_neg hkey]
    rfl

/-- A knock that was dismissed is on hand as before. -/
theorem onHand_onDismiss (a : App) (key key' : String) :
    (a.onDismiss key).onHand key' = a.onHand key' := by
  unfold onDismiss
  split
  · rfl
  · rename_i entry hentry
    rw [onHand, onHand, OrderedMap.get_put]
    split_ifs with hkey
    · rw [hkey, hentry]
      rfl
    · rfl

end App

end App

/-! ## Navigations -/

section Navigations

variable {s t : State} {l : Label} {attention : Bool}

/-- Whatever the app has heard of navigations, it has the knocks since the last start of one. -/
structure Inv (s : State) : Prop where
  tidy : s.app.Tidy
  since : ∀ key, s.app.onHand key = s.since.get key

theorem inv_start (attention : Bool) : Inv (start attention) :=
  ⟨⟨nofun, List.forall_mem_nil _, List.nodup_nil, rfl⟩, fun _ => rfl⟩

theorem Inv.step (h : Inv s) (hstep : s.step l = some t) : Inv t := by
  cases l with
  | didStartNavigation isMainFrame isSameDocument =>
      simp only [State.step, App.didStartNavigation] at hstep
      split_ifs at hstep with hstarts
      · obtain rfl := Option.some.inj hstep
        exact ⟨App.tidy_knocksClear _, fun _ => rfl⟩
      · obtain rfl := Option.some.inj hstep
        exact h
  | commit =>
      simp only [State.step] at hstep
      split_ifs at hstep
      obtain rfl := Option.some.inj hstep
      exact ⟨h.tidy, h.since⟩
  | giveUp =>
      simp only [State.step] at hstep
      split_ifs at hstep
      obtain rfl := Option.some.inj hstep
      exact ⟨h.tidy, h.since⟩
  | knock knock =>
      obtain rfl := Option.some.inj hstep
      refine ⟨h.tidy.knockArrived knock, fun key => ?_⟩
      dsimp only
      rw [App.onHand_knockArrived, get_raise, h.since]
  | knockGone key =>
      obtain rfl := Option.some.inj hstep
      refine ⟨h.tidy.knockGone key, fun key' => ?_⟩
      dsimp only
      rw [App.onHand_knockGone h.tidy, OrderedMap.get_delete, h.since]
  | attention theirs =>
      obtain rfl := Option.some.inj hstep
      exact ⟨⟨h.tidy.keyed, h.tidy.windows, h.tidy.nodup, h.tidy.counted⟩, h.since⟩
  | windowEvent =>
      obtain rfl := Option.some.inj hstep
      exact ⟨h.tidy.syncKnockWindows, fun key => (s.app.onHand_syncKnockWindows key).trans
        (h.since key)⟩
  | action key action =>
      simp only [State.step] at hstep
      split_ifs at hstep
      obtain rfl := Option.some.inj hstep
      exact ⟨h.tidy.dismiss key, h.since⟩
  | dismiss key =>
      simp only [State.step] at hstep
      split_ifs at hstep
      obtain rfl := Option.some.inj hstep
      exact ⟨(h.tidy.onDismiss key).dismiss key, fun key' =>
        (s.app.onHand_onDismiss key key').trans (h.since key')⟩
  | closed key =>
      simp only [State.step] at hstep
      split_ifs at hstep
      obtain rfl := Option.some.inj hstep
      exact ⟨h.tidy.dismiss key, h.since⟩

/-- A press goes to the page on screen, and what it is about is that page's. -/
theorem raised_of_mem_stack (hI : Inv s) (h : Belongs s) {key : String}
    (hkey : key ∈ s.app.stack) : s.live.get key ≠ none := by
  obtain ⟨entry, hentry⟩ := Option.ne_none_iff_exists'.mp (hI.tidy.windows key hkey)
  have honHand : s.app.onHand key = some entry.knock := by
    rw [App.onHand, hentry]
    rfl
  rw [h.raised key _ honHand]
  nofun

theorem belongs_commit (hI : Inv s) (h : Belongs s) (hstep : s.step .commit = some t) :
    Belongs t ↔ s.since.entries = [] := by
  simp only [State.step] at hstep
  split_ifs at hstep
  obtain rfl := Option.some.inj hstep
  rw [OrderedMap.entries_eq_nil]
  constructor
  · intro ht key
    rw [← hI.since, Option.eq_none_iff_forall_ne_some]
    intro knock hknock
    cases ht.raised key knock hknock
  · intro hempty
    refine ⟨fun key knock hknock => ?_, fun _ _ _ hget => (by cases hget), h.delivered⟩
    rw [show s.app.onHand key = none from (hI.since key).trans (hempty key)] at hknock
    cases hknock

theorem belongs_giveUp (hI : Inv s) (h : Belongs s) (hstep : s.step .giveUp = some t) :
    Belongs t ↔ (s.navigations = 1 → ∀ e ∈ s.live.entries, s.since.get e.1 ≠ none) := by
  simp only [State.step] at hstep
  split_ifs at hstep with hnone
  obtain rfl := Option.some.inj hstep
  constructor
  · intro ht hone e he hgone
    have honHand := ht.outstanding (by rw [hone]) e.1 e.2 (OrderedMap.mem_entries.mp he)
    rw [show s.app.onHand e.1 = none from (hI.since e.1).trans hgone] at honHand
    cases honHand
  · intro hagain
    refine ⟨h.raised, fun hlast key knock hknock => ?_, h.delivered⟩
    have hone : s.navigations = 1 := by
      have hlast : s.navigations - 1 = 0 := hlast
      omega
    have hne : s.since.get key ≠ none := hagain hone (key, knock) (OrderedMap.mem_entries.mpr hknock)
    rw [← hI.since] at hne
    obtain ⟨knock', hknock'⟩ := Option.ne_none_iff_exists'.mp hne
    have hsame := (h.raised key knock' hknock').symm.trans hknock
    exact hknock'.trans hsame

/-- What is on hand stays the page's own while no navigation ends. -/
theorem Belongs.step (hI : Inv s) (h : Belongs s) (hstep : s.step l = some t)
    (hcommit : l ≠ .commit) (hgiveUp : l ≠ .giveUp) : Belongs t := by
  cases l with
  | commit => exact absurd rfl hcommit
  | giveUp => exact absurd rfl hgiveUp
  | didStartNavigation isMainFrame isSameDocument =>
      simp only [State.step, App.didStartNavigation] at hstep
      split_ifs at hstep
      · obtain rfl := Option.some.inj hstep
        exact ⟨fun _ _ hget => (by cases hget), fun hzero => (by cases hzero), h.delivered⟩
      · obtain rfl := Option.some.inj hstep
        exact h
  | knock knock =>
      obtain rfl := Option.some.inj hstep
      refine ⟨fun key => ?_, fun hzero key => ?_, h.delivered⟩
      · dsimp only
        rw [App.onHand_knockArrived, get_raise]
        exact raisedAt_mono (h.raised key)
      · dsimp only
        rw [App.onHand_knockArrived, get_raise]
        exact raisedAt_mono (h.outstanding hzero key)
  | knockGone key =>
      obtain rfl := Option.some.inj hstep
      refine ⟨fun key' => ?_, fun hzero key' => ?_, h.delivered⟩
      · dsimp only
        rw [App.onHand_knockGone hI.tidy, OrderedMap.get_delete]
        split_ifs
        · exact fun _ => id
        · exact h.raised key'
      · dsimp only
        rw [App.onHand_knockGone hI.tidy, OrderedMap.get_delete]
        split_ifs
        · exact fun _ => id
        · exact h.outstanding hzero key'
  | attention theirs =>
      obtain rfl := Option.some.inj hstep
      exact ⟨h.raised, h.outstanding, h.delivered⟩
  | windowEvent =>
      obtain rfl := Option.some.inj hstep
      refine ⟨fun key => ?_, fun hzero key => ?_, h.delivered⟩
      · dsimp only
        rw [App.onHand_syncKnockWindows]
        exact h.raised key
      · dsimp only
        rw [App.onHand_syncKnockWindows]
        exact h.outstanding hzero key
  | action key action =>
      simp only [State.step] at hstep
      split_ifs at hstep with hkey
      obtain rfl := Option.some.inj hstep
      refine ⟨h.raised, h.outstanding, fun p hp => ?_⟩
      rcases List.mem_append.mp hp with hp | hp
      · exact h.delivered p hp
      · obtain rfl := List.mem_singleton.mp hp
        exact raised_of_mem_stack hI h hkey
  | dismiss key =>
      simp only [State.step] at hstep
      split_ifs at hstep
      obtain rfl := Option.some.inj hstep
      refine ⟨fun key' knock hknock => ?_, fun hzero key' knock hknock => ?_, h.delivered⟩
      · exact h.raised key' knock ((s.app.onHand_onDismiss key key').symm.trans hknock)
      · exact (s.app.onHand_onDismiss key key').trans (h.outstanding hzero key' knock hknock)
  | closed key =>
      simp only [State.step] at hstep
      split_ifs at hstep
      obtain rfl := Option.some.inj hstep
      exact ⟨h.raised, h.outstanding, h.delivered⟩

/-- A step keeps what is on hand the page's own just when it does not end a navigation the
wrong way. -/
theorem belongs_step (hI : Inv s) (h : Belongs s) (hstep : s.step l = some t) :
    Belongs t ↔ Settled s l := by
  cases l with
  | commit => exact belongs_commit hI h hstep
  | giveUp => exact belongs_giveUp hI h hstep
  | _ => exact iff_of_true (h.step hI hstep nofun nofun) trivial

theorem belongs_start (attention : Bool) : Belongs (start attention) :=
  ⟨nofun, fun _ => nofun, List.forall_mem_nil _⟩

/-- The knocks on hand are those of the page on screen throughout a run, and every press goes
to the page that it is about, just when no page leaves knocks behind that it has raised while it
was left, and none stays that has not raised its own anew. -/
theorem belongs_iff_settled {labels : List Label}
    (h : system.exec Always (start attention) labels = some s) :
    system.Throughout Belongs (start attention) labels ↔
      system.exec Settled (start attention) labels = some s :=
  system.throughout_iff_exec (I := Inv) (P := Belongs) (fun _ _ _ hI hstep => hI.step hstep)
    (fun _ _ _ hI hP hstep => belongs_step hI hP hstep) (inv_start attention)
    (belongs_start attention) h

def atTheDoor : Knock := ⟨"room:1", "Somebody is asking to join", [⟨"admit", "Admit", true⟩]⟩

/-- A page with a knock is left, and the next one has a knock of the same name. -/
theorem belongs_iff_settled_left : ∃ s,
    system.exec Always (start false) [.knock (some atTheDoor), .didStartNavigation true false,
      .commit, .knock (some atTheDoor), .action "room:1" "admit"] = some s ∧
    (system.Throughout Belongs (start false) [.knock (some atTheDoor),
        .didStartNavigation true false, .commit, .knock (some atTheDoor),
        .action "room:1" "admit"] ↔
      system.exec Settled (start false) [.knock (some atTheDoor), .didStartNavigation true false,
        .commit, .knock (some atTheDoor), .action "room:1" "admit"] = some s) :=
  ⟨_, rfl, belongs_iff_settled rfl⟩

/-- Somebody is at the door while a navigation starts that is given up. -/
theorem not_belongs : ¬ ∀ s, Reachable system Always s → Belongs s := by
  intro h
  obtain ⟨s, hs⟩ : ∃ s, system.exec Always (start false)
      [.knock (some atTheDoor), .didStartNavigation true false, .giveUp] = some s := ⟨_, rfl⟩
  have hbelongs := h s (Reachable.exec (.init ⟨false, rfl⟩) hs)
  obtain rfl := Option.some.inj hs
  have honHand := hbelongs.outstanding rfl "room:1" atTheDoor rfl
  cases honHand

end Navigations

end Sozvon.Knocks
