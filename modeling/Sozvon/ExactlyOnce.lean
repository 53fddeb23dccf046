import Sozvon.ResumeSession
import Mathlib.Data.List.Nodup

/-!
# Every counted message once and in order

What has been handled and what is under way on the socket that the server reads are
the first of the messages sent, and all of them while the client sends on that socket
and nothing has been lost. For the other direction it is what has been processed and
what is under way on the client's socket.
-/
namespace Sozvon.Resume
open Runs Utf16

section Definitions

def texts (up : List Up) : List Units := up.filterMap fun
  | .msg _ text => some text
  | .hello _ => none

def bodies (down : List Down) : List Bytes := down.filterMap fun
  | .msg b => some b
  | _ => none

def ReadResult.text? (gen : ℕ) (r : ReadResult) : Option Units :=
  if r.gen = gen then
    match r.outcome with
    | .message text => some text
    | .failed _ => none
  else none

/-- `clientLoop` has not been given the socket yet. -/
def Socket.Unattached (s : Socket) : Prop := s.reader = .start ∨ s.reader = .waiting

structure Socket.Sound (s : Socket) : Prop where
  greeted : s.Unattached → texts s.up = [] ∧ bodies s.down = [] ∧ ∀ ack, .resumed ack ∉ s.down
  hello : ∀ received, .hello received ∈ s.up → s.reader = .start ∧ s.up = [.hello received]
  connecting : s.readyState = .connecting → s.reader = .start ∧ s.up = []

/-- What holds of the sockets. -/
structure World.Placed (w : World) : Prop where
  socket : ∀ k, (w.sockets k).Sound
  unmade : ∀ k, w.next ≤ k → (w.sockets k).readyState = .connecting
  current : w.client.current < w.next
  action : ∀ a ∈ w.server.actions, (w.sockets a.conn).reader = .waiting
  actions : (w.server.actions.map (·.conn)).Nodup
  settled : w.client.closed = false → w.client.resuming = false →
    ¬ (w.sockets w.client.current).Unattached
  quiet : w.client.closed = false → w.client.resuming = true →
    texts (w.sockets w.client.current).up = []
  attached : ¬ (w.sockets w.server.attached).Unattached
  conn : ∀ k ∈ w.server.conn, ¬ (w.sockets k).Unattached
  gens : ∀ k gen, (w.sockets k).reader = .running gen →
    gen ≤ w.server.gen ∧ (gen = w.server.gen → k = w.server.attached)
  results : ∀ r ∈ w.server.read, r.gen ≤ w.server.gen

/-- What the present reader has read. -/
def World.readTexts (w : World) : List Units := w.server.read.filterMap (·.text? w.server.gen)

/-- What is under way to the server. -/
def World.coming (w : World) : List Units :=
  let s := w.sockets w.server.attached
  w.readTexts ++ if s.reader = .running w.server.gen then texts s.up else []

/-- Whether the client's messages get to the reader as they are sent. -/
structure World.Sends (w : World) : Prop where
  closed : w.client.closed = false
  resuming : w.client.resuming = false
  current : w.client.current = w.server.attached
  reader : (w.sockets w.server.attached).reader = .running w.server.gen
  readyState : (w.sockets w.server.attached).readyState = .opened
  live : (w.sockets w.server.attached).upLive = true

structure World.Upward (w : World) : Prop where
  log : w.client.sentLog.Keeps List.length w.sentMessages
  received : w.server.received = w.handled.length
  within : w.handled ++ w.coming <+: w.sentMessages
  complete : w.Sends → w.handled ++ w.coming = w.sentMessages
  resumed : w.client.closed = false → w.client.resuming = true →
    w.client.current = w.server.attached →
      w.readTexts = [] ∧
        ∀ ack, .resumed ack ∈ (w.sockets w.server.attached).down → ack = w.server.received

/-- Of the messages queued, those `written` have been numbered. -/
structure World.Downward (w : World) (written : List Bytes) : Prop where
  ring : w.server.ring.Keeps List.length written
  queued : w.queued = written ++ bodies w.server.writeCh ∧ ∀ ack, .resumed ack ∉ w.server.writeCh
  received : w.client.received = w.processed.length
  taken : w.processed <+: written
  within : w.client.closed = false →
    w.processed ++ bodies (w.sockets w.client.current).down <+: written
  complete : w.client.closed = false → w.server.conn = some w.client.current →
    (w.sockets w.client.current).downLive = true →
      w.processed ++ bodies (w.sockets w.client.current).down = written
  hello : w.client.closed = false → ∀ received,
    .hello received ∈ (w.sockets w.client.current).up → received = w.client.received
  asked : w.client.closed = false → ∀ a ∈ w.server.actions,
    a.conn = w.client.current → a.received = w.client.received

end Definitions

section Lists

@[simp] theorem texts_append (a b : List Up) : texts (a ++ b) = texts a ++ texts b :=
  List.filterMap_append

@[simp] theorem bodies_append (a b : List Down) : bodies (a ++ b) = bodies a ++ bodies b :=
  List.filterMap_append

@[simp] theorem texts_msg (number : ℕ) (text : Units) (up : List Up) :
    texts (.msg number text :: up) = text :: texts up := rfl

@[simp] theorem bodies_msg (b : Bytes) (down : List Down) :
    bodies (.msg b :: down) = b :: bodies down := rfl

theorem bodies_msgs (l : List Bytes) : bodies (l.map .msg) = l := by
  induction l with
  | nil => rfl
  | cons b l ih => rw [List.map_cons, bodies_msg, ih]

theorem texts_numbered (l : List Units) (n : ℕ) :
    texts ((l.zipIdx n).map fun (text, number) => Up.msg number text) = l := by
  induction l generalizing n with
  | nil => rfl
  | cons text l ih => rw [List.zipIdx_cons, List.map_cons, texts_msg, ih]

end Lists

/-! ## Sockets -/

section Sockets

variable {s s' : Socket}

theorem Socket.send_cases (s : Socket) (frames : List Up) :
    s.send frames = s ∧ ¬ (s.readyState = .opened ∧ s.upLive = true) ∨
      s.send frames = { s with up := s.up ++ frames } ∧ s.readyState = .opened ∧ s.upLive = true := by
  unfold Socket.send
  split
  · rename_i hlive
    exact Or.inr ⟨rfl, hlive⟩
  · rename_i hlive
    exact Or.inl ⟨rfl, hlive⟩

theorem Socket.write_cases (s : Socket) (frames : List Down) :
    s.write frames = s ∧ s.downLive ≠ true ∨
      s.write frames = { s with down := s.down ++ frames } ∧ s.downLive = true := by
  unfold Socket.write
  split
  · rename_i hlive
    exact Or.inr ⟨rfl, hlive⟩
  · rename_i hlive
    exact Or.inl ⟨rfl, hlive⟩

/-- Something has been lost, and the client's end may have been closed. -/
theorem Socket.Sound.lose (h : s.Sound) {up : List Up} (hup : up.Sublist s.up) {down : List Down}
    (hdown : down.Sublist s.down) {upLive downLive : Bool} {readyState : ReadyState}
    (hstate : readyState = .connecting → s.readyState = .connecting) :
    Socket.Sound { s with up, down, upLive, downLive, readyState } where
  greeted hnew := by
    obtain ⟨htexts, hbodies, hack⟩ := h.greeted hnew
    have htexts' : (texts up).Sublist (texts s.up) := hup.filterMap _
    have hbodies' : (bodies down).Sublist (bodies s.down) := hdown.filterMap _
    rw [htexts] at htexts'
    rw [hbodies] at hbodies'
    exact ⟨List.sublist_nil.mp htexts', List.sublist_nil.mp hbodies',
      fun ack hin => hack ack (hdown.subset hin)⟩
  hello received hin := by
    obtain ⟨hreader, hone⟩ := h.hello received (hup.subset hin)
    rw [hone] at hup
    refine ⟨hreader, (List.sublist_singleton.mp hup).resolve_left fun hnone => ?_⟩
    rw [hnone] at hin
    cases hin
  connecting hnew := by
    obtain ⟨hreader, hnone⟩ := h.connecting (hstate hnew)
    rw [hnone] at hup
    exact ⟨hreader, List.sublist_nil.mp hup⟩

/-- Once it is attached a socket may carry anything but a handshake. -/
theorem Socket.Sound.of_attached {s : Socket} (hattached : ¬ s.Unattached)
    (hhello : ∀ received, .hello received ∉ s.up) (hstate : s.readyState ≠ .connecting) : s.Sound :=
  ⟨fun hnew => absurd hnew hattached, fun received hin => absurd hin (hhello received),
    fun hnew => absurd hnew hstate⟩

theorem Socket.Sound.no_hello (h : s.Sound) (hattached : ¬ s.Unattached) (received : ℕ) :
    .hello received ∉ s.up :=
  fun hin => hattached (Or.inl (h.hello received hin).1)

theorem Socket.Sound.made (h : s.Sound) (hattached : ¬ s.Unattached) : s.readyState ≠ .connecting :=
  fun hnew => hattached (Or.inl (h.connecting hnew).1)

/-- What the server has done to a socket, short of attaching it. -/
structure Socket.Follows (s s' : Socket) : Prop where
  attached : ¬ s.Unattached → ¬ s'.Unattached
  waiting : s.reader = .waiting → s'.reader = .waiting
  running : ∀ gen, s'.reader = .running gen → s.reader = .running gen

theorem Socket.Follows.of_eq (h : s'.reader = s.reader) : s.Follows s' :=
  ⟨fun hattached => by rwa [Socket.Unattached, h], h.trans, fun _ hgen => h.symm.trans hgen⟩

theorem Socket.Follows.of_stopped (hwaiting : s.reader ≠ .waiting) (h : s'.reader = .stopped) :
    s.Follows s' := by
  refine ⟨fun _ => ?_, fun hother => absurd hother hwaiting, fun gen hgen => ?_⟩
  · rw [Socket.Unattached, h]
    exact fun hnew => hnew.elim nofun nofun
  · rw [h] at hgen
    cases hgen

theorem not_unattached_of_running {gen : ℕ} (h : s.reader = .running gen) : ¬ s.Unattached := by
  rintro (hstart | hwaiting)
  · rw [h] at hstart
    cases hstart
  · rw [h] at hwaiting
    cases hwaiting

end Sockets

section Placed

variable {w : World}

theorem World.set_self (w : World) (k : ℕ) (s : Socket) : (w.set k s).sockets k = s :=
  Function.update_self ..

theorem World.set_of_ne {j k : ℕ} (hjk : j ≠ k) (w : World) (s : Socket) :
    (w.set k s).sockets j = w.sockets j := Function.update_of_ne hjk ..

theorem World.Placed.set (h : w.Placed) {k : ℕ} {s : Socket} (hsound : s.Sound)
    (hfollows : (w.sockets k).Follows s) (hmade : w.next ≤ k → s.readyState = .connecting)
    (hquiet : w.client.closed = false → w.client.resuming = true → k = w.client.current →
      texts s.up = []) : (w.set k s).Placed := by
  have hkeeps {j : ℕ} (hj : ¬ (w.sockets j).Unattached) : ¬ ((w.set k s).sockets j).Unattached := by
    by_cases hjk : j = k
    · subst hjk
      rw [World.set_self]
      exact hfollows.attached hj
    · rwa [World.set_of_ne hjk]
  refine ⟨fun j => ?_, fun j hj => ?_, h.current, fun a ha => ?_, h.actions,
    fun hopen hsettled => hkeeps (h.settled hopen hsettled), fun hopen hresuming => ?_,
    hkeeps h.attached, fun j hj => hkeeps (h.conn j hj), fun j gen hgen => ?_, h.results⟩
  · by_cases hjk : j = k
    · subst hjk
      rwa [World.set_self]
    · rw [World.set_of_ne hjk]
      exact h.socket j
  · by_cases hjk : j = k
    · subst hjk
      rw [World.set_self]
      exact hmade hj
    · rw [World.set_of_ne hjk]
      exact h.unmade j hj
  · have hwaiting := h.action a ha
    by_cases hjk : a.conn = k
    · subst hjk
      rw [World.set_self]
      exact hfollows.waiting hwaiting
    · rw [World.set_of_ne hjk]
      exact hwaiting
  · change texts ((w.set k s).sockets w.client.current).up = []
    by_cases hjk : w.client.current = k
    · rw [hjk, World.set_self]
      exact hquiet hopen hresuming hjk.symm
    · rw [World.set_of_ne hjk]
      exact h.quiet hopen hresuming
  · by_cases hjk : j = k
    · subst hjk
      rw [World.set_self] at hgen
      exact h.gens j gen (hfollows.running gen hgen)
    · rw [World.set_of_ne hjk] at hgen
      exact h.gens j gen hgen

theorem World.Placed.gone (h : w.Placed) : World.Placed { w with client := w.client.gone } :=
  { h with
    settled := fun hopen => by cases hopen
    quiet := fun hopen => by cases hopen }

end Placed

/-! ## One socket changes -/

section Changes

variable {w : World} {written : List Bytes} {k : ℕ} {s : Socket}

theorem World.coming_running (h : (w.sockets w.server.attached).reader = .running w.server.gen) :
    w.coming = w.readTexts ++ texts (w.sockets w.server.attached).up := by
  rw [World.coming, if_pos h]

theorem World.Upward.set_of_ne (h : w.Upward) (hk : w.server.attached ≠ k) : (w.set k s).Upward := by
  have hsame : (w.set k s).sockets w.server.attached = w.sockets w.server.attached :=
    w.set_of_ne hk s
  have hcoming : (w.set k s).coming = w.coming := by
    change _ ++ (if ((w.set k s).sockets w.server.attached).reader = _ then
      texts ((w.set k s).sockets w.server.attached).up else []) = _
    rw [hsame]
    rfl
  refine ⟨h.log, h.received, hcoming ▸ h.within, fun hsends => ?_, fun hopen hresuming hcurrent => ?_⟩
  · rw [hcoming]
    exact h.complete ⟨hsends.closed, hsends.resuming, hsends.current, hsame ▸ hsends.reader,
      hsame ▸ hsends.readyState, hsame ▸ hsends.live⟩
  · obtain ⟨hread, hacks⟩ := h.resumed hopen hresuming hcurrent
    exact ⟨hread, fun ack hin => hacks ack (hsame ▸ hin)⟩

/-- To the server the socket carries what it carried or less. -/
theorem World.Upward.set (h : w.Upward)
    (hreader : s.reader = (w.sockets k).reader)
    (hup : texts s.up <+: texts (w.sockets k).up)
    (hlive : s.readyState = .opened → s.upLive = true →
      ((w.sockets k).readyState = .opened ∧ (w.sockets k).upLive = true) ∧
        texts s.up = texts (w.sockets k).up)
    (hdown : ∀ ack, .resumed ack ∈ s.down → .resumed ack ∈ (w.sockets k).down) :
    (w.set k s).Upward := by
  by_cases hk : w.server.attached = k
  · subst hk
    have hself : (w.set w.server.attached s).sockets w.server.attached = s := w.set_self ..
    refine ⟨h.log, h.received, ?_, fun hsends => ?_, fun hopen hresuming hcurrent => ?_⟩
    · refine List.IsPrefix.trans ?_ h.within
      refine (List.prefix_append_right_inj _).mpr ((List.prefix_append_right_inj _).mpr ?_)
      change (if ((w.set w.server.attached s).sockets w.server.attached).reader = .running w.server.gen
        then texts ((w.set w.server.attached s).sockets w.server.attached).up else []) <+: _
      rw [hself]
      rw [hreader]
      split
      · exact hup
      · exact List.nil_prefix
    · have hrunning := hsends.reader
      have hstate := hsends.readyState
      have hupLive := hsends.live
      change ((w.set w.server.attached s).sockets w.server.attached).reader = _ at hrunning
      change ((w.set w.server.attached s).sockets w.server.attached).readyState = _ at hstate
      change ((w.set w.server.attached s).sockets w.server.attached).upLive = _ at hupLive
      have hcoming := World.coming_running (w := w.set w.server.attached s) hrunning
      change _ = w.readTexts ++ texts ((w.set w.server.attached s).sockets w.server.attached).up
        at hcoming
      rw [hself] at hrunning hstate hupLive hcoming
      obtain ⟨⟨hstate', hupLive'⟩, htexts⟩ := hlive hstate hupLive
      have hrunning' : (w.sockets w.server.attached).reader = .running w.server.gen :=
        hreader.symm.trans hrunning
      have hbefore := h.complete
        ⟨hsends.closed, hsends.resuming, hsends.current, hrunning', hstate', hupLive'⟩
      rw [World.coming_running hrunning', ← htexts, ← hcoming] at hbefore
      exact hbefore
    · obtain ⟨hread, hacks⟩ := h.resumed hopen hresuming hcurrent
      refine ⟨hread, fun ack hin => hacks ack ?_⟩
      change _ ∈ ((w.set w.server.attached s).sockets w.server.attached).down at hin
      rw [hself] at hin
      exact hdown ack hin
  · exact h.set_of_ne hk

/-- Nothing comes over a socket that the present reader does not read. -/
theorem World.Upward.set_unread (h : w.Upward) (hunread : s.reader ≠ .running w.server.gen)
    (hdown : ∀ ack, .resumed ack ∈ s.down → .resumed ack ∈ (w.sockets k).down) :
    (w.set k s).Upward := by
  by_cases hk : w.server.attached = k
  · subst hk
    have hself : (w.set w.server.attached s).sockets w.server.attached = s := w.set_self ..
    refine ⟨h.log, h.received, ?_, fun hsends => ?_, fun hopen hresuming hcurrent => ?_⟩
    · change w.handled ++ (w.readTexts ++
        if ((w.set _ _).sockets w.server.attached).reader = .running w.server.gen then
          texts ((w.set _ _).sockets w.server.attached).up else []) <+: _
      rw [hself, if_neg hunread, List.append_nil]
      refine List.IsPrefix.trans ?_ h.within
      exact (List.prefix_append_right_inj _).mpr (List.prefix_append ..)
    · have hreader := hsends.reader
      change ((w.set _ _).sockets w.server.attached).reader = _ at hreader
      rw [hself] at hreader
      exact absurd hreader hunread
    · obtain ⟨hread, hacks⟩ := h.resumed hopen hresuming hcurrent
      refine ⟨hread, fun ack hin => hacks ack ?_⟩
      change _ ∈ ((w.set _ _).sockets w.server.attached).down at hin
      rw [hself] at hin
      exact hdown ack hin
  · exact h.set_of_ne hk

theorem World.Upward.gone (h : w.Upward) : World.Upward { w with client := w.client.gone } :=
  ⟨h.log, h.received, h.within, fun hsends => (by cases hsends.closed), fun hopen => (by cases hopen)⟩

/-- To the client the socket carries what it carried or less. -/
theorem World.Downward.set (h : w.Downward written)
    (hdown : bodies s.down <+: bodies (w.sockets k).down)
    (hlive : s.downLive = true →
      (w.sockets k).downLive = true ∧ bodies s.down = bodies (w.sockets k).down)
    (hhello : ∀ received, .hello received ∈ s.up → .hello received ∈ (w.sockets k).up) :
    (w.set k s).Downward written := by
  by_cases hk : w.client.current = k
  · subst hk
    have hself : (w.set w.client.current s).sockets w.client.current = s := w.set_self ..
    refine ⟨h.ring, h.queued, h.received, h.taken, fun hopen => ?_, fun hopen hconn hdownLive => ?_,
      fun hopen received hin => ?_, h.asked⟩
    · change w.processed ++ bodies ((w.set w.client.current s).sockets w.client.current).down <+: _
      rw [hself]
      exact ((List.prefix_append_right_inj _).mpr hdown).trans (h.within hopen)
    · change ((w.set w.client.current s).sockets w.client.current).downLive = true at hdownLive
      change w.processed ++ bodies ((w.set w.client.current s).sockets w.client.current).down = _
      rw [hself] at hdownLive ⊢
      obtain ⟨hbefore, hbodies⟩ := hlive hdownLive
      rw [hbodies]
      exact h.complete hopen hconn hbefore
    · change _ ∈ ((w.set w.client.current s).sockets w.client.current).up at hin
      rw [hself] at hin
      exact h.hello hopen received (hhello received hin)
  · have hsame : (w.set k s).sockets w.client.current = w.sockets w.client.current :=
      w.set_of_ne hk s
    refine ⟨h.ring, h.queued, h.received, h.taken, fun hopen => ?_, fun hopen hconn hdownLive => ?_,
      fun hopen received hin => ?_, h.asked⟩
    · change w.processed ++ bodies ((w.set k s).sockets w.client.current).down <+: _
      rw [hsame]
      exact h.within hopen
    · change w.processed ++ bodies ((w.set k s).sockets w.client.current).down = _
      rw [hsame]
      exact h.complete hopen hconn (hsame ▸ hdownLive)
    · exact h.hello hopen received (hsame ▸ hin)

theorem World.Downward.gone (h : w.Downward written) :
    World.Downward { w with client := w.client.gone } written :=
  ⟨h.ring, h.queued, h.received, h.taken, fun hopen => (by cases hopen),
    fun hopen => (by cases hopen), fun hopen => (by cases hopen), fun hopen => (by cases hopen)⟩

/-- The client does not act on what comes over the socket. -/
theorem World.Downward.set_ignored (h : w.Downward written)
    (hignored : w.client.closed = true ∨ k ≠ w.client.current) : (w.set k s).Downward written := by
  rcases hignored with hclosed | hk
  · have hopen : (w.set k s).client.closed = false → False := fun hopen => by
      change w.client.closed = false at hopen
      rw [hclosed] at hopen
      cases hopen
    exact ⟨h.ring, h.queued, h.received, h.taken, fun h => (hopen h).elim,
      fun h => (hopen h).elim, fun h => (hopen h).elim, fun h => (hopen h).elim⟩
  · have hsame : (w.set k s).sockets w.client.current = w.sockets w.client.current :=
      w.set_of_ne hk.symm s
    refine ⟨h.ring, h.queued, h.received, h.taken, fun hopen => ?_, fun hopen hconn hdownLive => ?_,
      fun hopen received hin => ?_, h.asked⟩
    · change w.processed ++ bodies ((w.set k s).sockets w.client.current).down <+: _
      rw [hsame]
      exact h.within hopen
    · change w.processed ++ bodies ((w.set k s).sockets w.client.current).down = _
      rw [hsame]
      exact h.complete hopen hconn (hsame ▸ hdownLive)
    · exact h.hello hopen received (hsame ▸ hin)

end Changes

/-! ## Every run -/

section Invariant

variable {w v : World} {written : List Bytes}

structure World.Inv (w : World) (written : List Bytes) : Prop where
  placed : w.Placed
  upward : w.Upward
  downward : w.Downward written

theorem World.Inv.gone (h : w.Inv written) : World.Inv { w with client := w.client.gone } written :=
  ⟨h.placed.gone, h.upward.gone, h.downward.gone⟩

/-- The end of what the socket carries is lost, or the client closes it. -/
theorem World.Inv.lose (h : w.Inv written) (k : ℕ) {up : List Up} {down : List Down}
    {upLive downLive : Bool} {readyState : ReadyState} (hup : up <+: (w.sockets k).up)
    (hdown : down <+: (w.sockets k).down)
    (hupLive : upLive = true → (w.sockets k).upLive = true ∧ up = (w.sockets k).up)
    (hdownLive : downLive = true → (w.sockets k).downLive = true ∧ down = (w.sockets k).down)
    (hstate : readyState = (w.sockets k).readyState ∨ k < w.next ∧ readyState = .closed) :
    (w.set k { w.sockets k with up, down, upLive, downLive, readyState }).Inv written := by
  refine ⟨h.placed.set ?_ (.of_eq rfl) (fun hk => ?_) fun hopen hresuming hk => ?_,
    h.upward.set rfl (hup.filterMap _) (fun hopened hlive => ?_)
      fun ack hin => hdown.subset hin,
    h.downward.set (hdown.filterMap _) (fun hlive => ?_) fun received hin => hup.subset hin⟩
  · refine (h.placed.socket k).lose hup.sublist hdown.sublist fun hnew => ?_
    rcases hstate with hsame | ⟨-, hclosed⟩
    · exact hsame.symm.trans hnew
    · rw [hclosed] at hnew
      cases hnew
  · rcases hstate with hsame | ⟨hmade, -⟩
    · exact hsame.trans (h.placed.unmade k hk)
    · omega
  · subst hk
    have htexts : texts up <+: texts (w.sockets w.client.current).up := hup.filterMap _
    rw [h.placed.quiet hopen hresuming] at htexts
    exact List.prefix_nil.mp htexts
  · obtain ⟨hbefore, rfl⟩ := hupLive hlive
    refine ⟨⟨?_, hbefore⟩, rfl⟩
    rcases hstate with hsame | ⟨-, hclosed⟩
    · exact hsame.symm.trans hopened
    · change readyState = .opened at hopened
      rw [hclosed] at hopened
      cases hopened
  · obtain ⟨hbefore, rfl⟩ := hdownLive hlive
    exact ⟨hbefore, rfl⟩

theorem World.Inv.close (h : w.Inv written) {k : ℕ} (hk : k < w.next) :
    (w.set k { w.sockets k with readyState := .closed }).Inv written :=
  h.lose k (List.prefix_refl _) (List.prefix_refl _) (fun hlive => ⟨hlive, rfl⟩)
    (fun hlive => ⟨hlive, rfl⟩) (Or.inr ⟨hk, rfl⟩)

theorem World.Inv.shut (h : w.Inv written) (conn : Option ℕ) : (w.shut conn).Inv written := by
  cases conn with
  | none => exact h
  | some k =>
      exact h.lose k (List.prefix_refl _) (List.prefix_refl _) nofun nofun (Or.inl rfl)

/-- The new socket carries nothing yet, and nobody but the client knows of it. -/
theorem World.Inv.resume (h : w.Inv written) (giveUp : Bool) : (w.resume giveUp).Inv written := by
  unfold World.resume
  dsimp only
  split
  · exact h
  have hold := h.close h.placed.current
  split
  · exact hold.gone
  rename_i hopen hstays
  generalize hv : w.set w.client.current
    { w.sockets w.client.current with readyState := .closed } = v at hold ⊢
  have hclient : v.client = w.client := by rw [← hv]; rfl
  have hnext : v.next = w.next := by rw [← hv]; rfl
  rw [← hnext, ← hclient]
  have hnew := (hold.placed.socket v.next).connecting (hold.placed.unmade v.next (Nat.le_refl _))
  have hunattached : (v.sockets v.next).Unattached := Or.inl hnew.1
  obtain ⟨-, hbodies, -⟩ := (hold.placed.socket v.next).greeted hunattached
  have hattached : v.next ≠ v.server.attached := fun heq =>
    hold.placed.attached (heq ▸ hunattached)
  refine ⟨⟨hold.placed.socket, fun k hk => hold.placed.unmade k (Nat.le_of_succ_le hk),
    Nat.lt_succ_self _, hold.placed.action, hold.placed.actions, fun _ hsettled => (by cases hsettled),
    fun _ _ => ?_, hold.placed.attached, hold.placed.conn, hold.placed.gens, hold.placed.results⟩,
    ⟨hold.upward.log, hold.upward.received, hold.upward.within,
      fun hsends => absurd hsends.current hattached,
      fun _ _ hcurrent => absurd hcurrent hattached⟩,
    ⟨hold.downward.ring, hold.downward.queued, hold.downward.received, hold.downward.taken,
      fun _ => ?_, fun _ hconn => ?_, fun _ received hin => ?_, fun _ a ha hconn => ?_⟩⟩
  · change texts (v.sockets v.next).up = []
    rw [hnew.2]
    rfl
  · change v.processed ++ bodies (v.sockets v.next).down <+: written
    rw [hbodies, List.append_nil]
    exact hold.downward.taken
  · exact absurd hunattached (hold.placed.conn _ hconn)
  · change _ ∈ (v.sockets v.next).up at hin
    rw [hnew.2] at hin
    cases hin
  · have hwaiting := hold.placed.action a ha
    change a.conn = v.next at hconn
    rw [hconn, hnew.1] at hwaiting
    cases hwaiting

theorem World.Inv.onclose (h : w.Inv written) {k code : ℕ} (hstep : w.onclose k code = some v) :
    v.Inv written := by
  unfold World.onclose at hstep
  dsimp only at hstep
  split at hstep
  · cases hstep
  rename_i hmade
  have hclosed := h.close (k := k) (by omega)
  generalize hu : w.set k { w.sockets k with readyState := .closed } = u at hclosed hstep
  have hclient : u.client = w.client := by rw [← hu]; rfl
  split at hstep
  · cases hstep
    exact hclosed
  split at hstep
  · cases hstep
    exact hclosed
  split at hstep
  · cases hstep
    exact hclosed.resume false
  · cases hstep
    rw [← hclient]
    exact hclosed.gone

/-- Messages go out on the client's socket. -/
theorem World.Placed.sent (h : w.Placed) (hopen : w.client.closed = false)
    (hresuming : w.client.resuming = false) {frames : List Up}
    (hframes : ∀ received, .hello received ∉ frames) :
    (w.set w.client.current ((w.sockets w.client.current).send frames)).Placed := by
  have hattached := h.settled hopen hresuming
  have hsocket := h.socket w.client.current
  have hquiet : w.client.closed = false → w.client.resuming = true →
      w.client.current = w.client.current →
        texts ((w.sockets w.client.current).send frames).up = [] := fun _ hother => by
    rw [hresuming] at hother
    cases hother
  rcases (w.sockets w.client.current).send_cases frames with ⟨hsame, -⟩ | ⟨hsent, -⟩
  · exact h.set (by rwa [hsame]) (.of_eq (by rw [hsame]))
      (fun hk => by rw [hsame]; exact h.unmade _ hk) hquiet
  · refine h.set ?_ (.of_eq (by rw [hsent])) (fun hk => absurd hk (Nat.not_le_of_lt h.current)) hquiet
    rw [hsent]
    refine Socket.Sound.of_attached hattached (fun received hin => ?_) (hsocket.made hattached)
    rcases List.mem_append.mp hin with hin | hin
    · exact hsocket.no_hello hattached received hin
    · exact hframes received hin

theorem World.Upward.sent (hlog : w.client.sentLog.Keeps List.length w.sentMessages)
    (hreceived : w.server.received = w.handled.length) (hwithin : w.handled ++ w.coming <+: w.sentMessages)
    (hopen : w.client.closed = false) (hresuming : w.client.resuming = false) {frames : List Up}
    (hall : w.Sends → w.handled ++ (w.coming ++ texts frames) = w.sentMessages) :
    (w.set w.client.current ((w.sockets w.client.current).send frames)).Upward := by
  have hsettled : w.client.resuming = true → False := fun hother => by
    rw [hresuming] at hother
    cases hother
  by_cases hcurrent : w.client.current = w.server.attached
  · rw [hcurrent]
    generalize hs : (w.sockets w.server.attached).send frames = s
    have hself : (w.set w.server.attached s).sockets w.server.attached = s := w.set_self ..
    have hsends (hsends : (w.set w.server.attached s).Sends) :
        s.reader = .running w.server.gen ∧ s.readyState = .opened ∧ s.upLive = true := by
      have hreader := hsends.reader
      have hstate := hsends.readyState
      have hlive := hsends.live
      change ((w.set w.server.attached s).sockets w.server.attached).reader = _ at hreader
      change ((w.set w.server.attached s).sockets w.server.attached).readyState = _ at hstate
      change ((w.set w.server.attached s).sockets w.server.attached).upLive = _ at hlive
      rw [hself] at hreader hstate hlive
      exact ⟨hreader, hstate, hlive⟩
    have hcoming : (w.set w.server.attached s).coming =
        w.readTexts ++ if s.reader = .running w.server.gen then texts s.up else [] := by
      change w.readTexts ++ (if ((w.set w.server.attached s).sockets w.server.attached).reader = _ then
        texts ((w.set w.server.attached s).sockets w.server.attached).up else []) = _
      rw [hself]
      rfl
    rcases (w.sockets w.server.attached).send_cases frames with ⟨hsame, hdead⟩ | ⟨hsent, hlive⟩
    · rw [hs] at hsame
      refine ⟨hlog, hreceived, ?_, fun h => ?_, fun _ hother => (hsettled hother).elim⟩
      · rw [hcoming, hsame]
        exact hwithin
      · obtain ⟨-, hstate, hlive⟩ := hsends h
        exact absurd ⟨hsame ▸ hstate, hsame ▸ hlive⟩ hdead
    · rw [hs] at hsent
      have htexts : texts s.up = texts (w.sockets w.server.attached).up ++ texts frames := by
        rw [hsent, ← texts_append]
      have heq (hreader : s.reader = .running w.server.gen) :
          w.handled ++ (w.set w.server.attached s).coming = w.sentMessages := by
        have hreader' : (w.sockets w.server.attached).reader = .running w.server.gen := by
          rw [hsent] at hreader
          exact hreader
        rw [hcoming, if_pos hreader, htexts, ← List.append_assoc w.readTexts,
          ← World.coming_running hreader']
        exact hall ⟨hopen, hresuming, hcurrent, hreader', hlive.1, hlive.2⟩
      refine ⟨hlog, hreceived, ?_, fun h => heq (hsends h).1, fun _ hother => (hsettled hother).elim⟩
      by_cases hreader : s.reader = .running w.server.gen
      · rw [show (w.set w.server.attached s).handled = w.handled from rfl, heq hreader]
        exact List.prefix_refl _
      · rw [hcoming, if_neg hreader]
        rw [World.coming, if_neg (by rwa [hsent] at hreader)] at hwithin
        exact hwithin
  · have hsame : (w.set w.client.current ((w.sockets w.client.current).send frames)).sockets
        w.server.attached = w.sockets w.server.attached := w.set_of_ne (Ne.symm hcurrent) _
    refine ⟨hlog, hreceived, ?_, fun h => absurd h.current hcurrent,
      fun _ hother => (hsettled hother).elim⟩
    change w.handled ++ (w.readTexts ++ if ((w.set _ _).sockets w.server.attached).reader = _ then
      texts ((w.set _ _).sockets w.server.attached).up else []) <+: _
    rw [hsame]
    exact hwithin

theorem World.Downward.sent (h : w.Downward written) {frames : List Up}
    (hframes : ∀ received, .hello received ∉ frames) :
    (w.set w.client.current ((w.sockets w.client.current).send frames)).Downward written := by
  rcases (w.sockets w.client.current).send_cases frames with ⟨hsame, -⟩ | ⟨hsent, -⟩
  · rw [hsame]
    exact h.set (List.prefix_refl _) (fun hlive => ⟨hlive, rfl⟩) fun _ hin => hin
  · rw [hsent]
    refine h.set (List.prefix_refl _) (fun hlive => ⟨hlive, rfl⟩) fun received hin => ?_
    rcases List.mem_append.mp hin with hin | hin
    · exact hin
    · exact absurd hin (hframes received)

/-- A message goes into the log, and out where the socket is open. -/
theorem World.Inv.send (h : w.Inv written) {text : Units} (hstep : w.send text = some v) :
    v.Inv written := by
  unfold World.send at hstep
  dsimp only at hstep
  split at hstep
  · cases hstep
  rename_i hopen
  obtain ⟨hopen, -⟩ := not_or.mp hopen
  have hopen : w.client.closed = false := Bool.eq_false_iff.mpr hopen
  have hlog := h.upward.log.push text
  have hmore : w.sentMessages <+: w.sentMessages ++ [text] := List.prefix_append ..
  generalize hu : ({ w with
      client := { w.client with sentLog := w.client.sentLog.push List.length text }
      sentMessages := w.sentMessages ++ [text] } : World) = u at hstep
  have hkept : w.client.resuming = true ∨ (w.sockets w.client.current).readyState ≠ .opened ∨
      (w.sockets w.client.current).upLive ≠ true → u.Inv written := fun hkept => by
    subst hu
    refine ⟨⟨h.placed.socket, h.placed.unmade, h.placed.current, h.placed.action, h.placed.actions,
      h.placed.settled, h.placed.quiet, h.placed.attached, h.placed.conn, h.placed.gens,
      h.placed.results⟩, ⟨hlog, h.upward.received, h.upward.within.trans hmore, fun hsends => ?_,
      h.upward.resumed⟩, ⟨h.downward.ring, h.downward.queued, h.downward.received,
      h.downward.taken, h.downward.within, h.downward.complete, h.downward.hello,
      h.downward.asked⟩⟩
    have hresuming : w.client.resuming = false := hsends.resuming
    have hcurrent : w.client.current = w.server.attached := hsends.current
    rcases hkept with hkept | hkept | hkept
    · rw [hresuming] at hkept
      cases hkept
    · exact absurd (hcurrent ▸ hsends.readyState) hkept
    · exact absurd (hcurrent ▸ hsends.live) hkept
  split at hstep
  · rename_i hkeeps
    cases hstep
    exact hkept (hkeeps.imp_right Or.inl)
  rename_i hkeeps
  obtain ⟨hresuming, hstate⟩ := not_or.mp hkeeps
  have hresuming : w.client.resuming = false := Bool.eq_false_iff.mpr hresuming
  have hsockets : u.sockets = w.sockets := by rw [← hu]
  have hcurrent : u.client.current = w.client.current := by rw [← hu]
  have hframes (number received : ℕ) : Up.hello received ∉ [Up.msg number text] := fun hin => by
    cases List.mem_singleton.mp hin
  cases hstep
  rw [← hsockets, ← hcurrent]
  refine ⟨.sent ?_ ?_ ?_ (hframes _), .sent ?_ ?_ ?_ ?_ ?_ fun hsends => ?_, .sent ?_ (hframes _)⟩
  all_goals subst hu
  · exact ⟨h.placed.socket, h.placed.unmade, h.placed.current, h.placed.action, h.placed.actions,
      h.placed.settled, h.placed.quiet, h.placed.attached, h.placed.conn, h.placed.gens,
      h.placed.results⟩
  · exact hopen
  · exact hresuming
  · exact hlog
  · exact h.upward.received
  · exact h.upward.within.trans hmore
  · exact hopen
  · exact hresuming
  · have hbefore := h.upward.complete ⟨hsends.closed, hsends.resuming, hsends.current,
      hsends.reader, hsends.readyState, hsends.live⟩
    rw [← List.append_assoc]
    exact congrArg (· ++ [text]) hbefore
  · exact ⟨h.downward.ring, h.downward.queued, h.downward.received, h.downward.taken,
      h.downward.within, h.downward.complete, h.downward.hello, h.downward.asked⟩

theorem World.Inv.onopen (h : w.Inv written) {k : ℕ} (hstep : w.onopen k = some v) :
    v.Inv written := by
  unfold World.onopen at hstep
  dsimp only at hstep
  split at hstep
  · cases hstep
  rename_i hnew
  obtain ⟨hmade, hconnecting⟩ := not_or.mp hnew
  have hsocket := h.placed.socket k
  obtain ⟨hreader, hnone⟩ := hsocket.connecting (not_not.mp hconnecting)
  obtain ⟨-, hbodies, hacks⟩ := hsocket.greeted (Or.inl hreader)
  have hattached : w.server.attached ≠ k := fun heq =>
    h.placed.attached (heq ▸ Or.inl hreader)
  have hplaced {up : List Up} (htexts : texts up = [])
      (hhello : ∀ received, .hello received ∈ up →
        (w.sockets k).reader = .start ∧ up = [.hello received]) :
      (w.set k { w.sockets k with up, readyState := .opened }).Placed :=
    h.placed.set ⟨fun _ => ⟨htexts, hbodies, hacks⟩, hhello, nofun⟩ (.of_eq rfl)
      (fun hk => absurd hk hmade) fun _ _ _ => htexts
  have hquiet : (w.set k { w.sockets k with readyState := .opened }).Inv written := by
    refine ⟨hplaced (by rw [hnone]; rfl) hsocket.hello, h.upward.set_of_ne hattached,
      h.downward.set (List.prefix_refl _) (fun hlive => ⟨hlive, rfl⟩) fun _ hin => hin⟩
  split at hstep
  · cases hstep
    exact hquiet
  rename_i hasks
  obtain ⟨-, hasks⟩ := not_or.mp hasks
  obtain ⟨hcurrent, -⟩ := not_or.mp hasks
  obtain rfl := not_not.mp hcurrent
  cases hstep
  generalize hs : ({ w.sockets w.client.current with readyState := .opened } : Socket) = s
  rcases s.send_cases [.hello w.client.received] with ⟨hsame, -⟩ | ⟨hsent, -⟩
  · rw [hsame, ← hs]
    exact hquiet
  · have hup : s.up = [] := by
      rw [← hs]
      exact hnone
    rw [hsent, hup, List.nil_append, ← hs]
    refine ⟨hplaced rfl fun received hin => ⟨hreader, by rw [List.mem_singleton.mp hin]⟩,
      h.upward.set_of_ne hattached, ?_⟩
    have hself := w.set_self w.client.current { w.sockets w.client.current with
      up := [.hello w.client.received], readyState := .opened }
    refine ⟨h.downward.ring, h.downward.queued, h.downward.received, h.downward.taken, fun hopen => ?_,
      fun hopen hconn hlive => ?_, fun hopen received hin => ?_, h.downward.asked⟩
    · change w.processed ++ bodies ((w.set _ _).sockets w.client.current).down <+: _
      rw [hself]
      exact h.downward.within hopen
    · exact absurd (Or.inl hreader) (h.placed.conn _ hconn)
    · change _ ∈ ((w.set _ _).sockets w.client.current).up at hin
      rw [hself] at hin
      cases List.mem_singleton.mp hin
      rfl

/-- The client's socket has one message less to bring. -/
theorem World.Inv.received (h : w.Inv written) (hopen : w.client.closed = false) {b : Bytes}
    {rest : List Down} (hdown : (w.sockets w.client.current).down = .msg b :: rest) :
    World.Inv { w.set w.client.current { w.sockets w.client.current with down := rest } with
      client := { w.client with received := w.client.received + 1 }
      processed := w.processed ++ [b] } written := by
  have hattached : ¬ (w.sockets w.client.current).Unattached := fun hnew => by
    have hbodies := ((h.placed.socket _).greeted hnew).2.1
    rw [hdown] at hbodies
    cases hbodies
  have hsub : rest.Sublist (w.sockets w.client.current).down := hdown ▸ List.sublist_cons_self ..
  have hplaced : (w.set w.client.current
      { w.sockets w.client.current with down := rest }).Placed :=
    h.placed.set ((h.placed.socket _).lose (List.Sublist.refl _) hsub id) (.of_eq rfl)
      (fun hk => h.placed.unmade _ hk) fun hopen hresuming _ => h.placed.quiet hopen hresuming
  have hupward : (w.set w.client.current
      { w.sockets w.client.current with down := rest }).Upward :=
    h.upward.set rfl (List.prefix_refl _) (fun hstate hlive => ⟨⟨hstate, hlive⟩, rfl⟩)
      fun _ hin => hsub.subset hin
  have hself := w.set_self w.client.current { w.sockets w.client.current with down := rest }
  have hmove : w.processed ++ bodies (w.sockets w.client.current).down =
      w.processed ++ [b] ++ bodies rest := by
    rw [hdown, bodies_msg, List.append_assoc]
    rfl
  refine ⟨⟨hplaced.socket, hplaced.unmade, hplaced.current, hplaced.action, hplaced.actions,
      hplaced.settled, hplaced.quiet, hplaced.attached, hplaced.conn, hplaced.gens,
      hplaced.results⟩,
    ⟨hupward.log, hupward.received, hupward.within, fun hsends => hupward.complete
      ⟨hsends.closed, hsends.resuming, hsends.current, hsends.reader, hsends.readyState,
        hsends.live⟩, hupward.resumed⟩,
    ⟨h.downward.ring, h.downward.queued, ?_, ?_, fun _ => ?_, fun _ hconn hlive => ?_,
      fun _ received hin => ?_, fun _ a ha hconn => ?_⟩⟩
  · rw [List.length_append, ← h.downward.received]
    rfl
  · refine List.IsPrefix.trans ?_ (h.downward.within hopen)
    rw [hmove]
    exact List.prefix_append ..
  · change w.processed ++ [b] ++ bodies ((w.set _ _).sockets w.client.current).down <+: _
    rw [hself, ← hmove]
    exact h.downward.within hopen
  · change ((w.set _ _).sockets w.client.current).downLive = true at hlive
    change w.processed ++ [b] ++ bodies ((w.set _ _).sockets w.client.current).down = _
    rw [hself] at hlive ⊢
    rw [← hmove]
    exact h.downward.complete hopen hconn hlive
  · change _ ∈ ((w.set _ _).sockets w.client.current).up at hin
    rw [hself] at hin
    exact absurd hin ((h.placed.socket _).no_hello hattached received)
  · have hwaiting := h.placed.action a ha
    change a.conn = w.client.current at hconn
    rw [hconn] at hwaiting
    exact absurd (Or.inr hwaiting) hattached

/-- What brings no message can be read without more ado. -/
theorem World.Inv.read_down (h : w.Inv written) (k : ℕ) {frame : Down} {rest : List Down}
    (hdown : (w.sockets k).down = frame :: rest)
    (hignored : (w.client.closed = true ∨ k ≠ w.client.current) ∨ bodies [frame] = []) :
    (w.set k { w.sockets k with down := rest }).Inv written := by
  have hsub : rest.Sublist (w.sockets k).down := hdown ▸ List.sublist_cons_self ..
  refine ⟨h.placed.set ((h.placed.socket k).lose (List.Sublist.refl _) hsub id) (.of_eq rfl)
      (fun hk => h.placed.unmade k hk) (fun hopen hresuming hk => ?_),
    h.upward.set rfl (List.prefix_refl _) (fun hstate hlive => ⟨⟨hstate, hlive⟩, rfl⟩)
      fun _ hin => hsub.subset hin, ?_⟩
  · subst hk
    exact h.placed.quiet hopen hresuming
  · rcases hignored with hignored | hnone
    · exact h.downward.set_ignored hignored
    · have hbodies : bodies rest = bodies (w.sockets k).down := by
        rw [hdown, ← List.singleton_append, bodies_append, hnone]
        rfl
      exact h.downward.set (hbodies ▸ List.prefix_refl _) (fun hlive => ⟨hlive, hbodies⟩)
        fun _ hin => hin

/-- The server's count says where the client has to go on. -/
theorem World.Inv.resumed (h : w.Inv written) (hopen : w.client.closed = false) {ack : ℕ}
    (hattached : ¬ (w.sockets w.client.current).Unattached)
    (hack : w.client.resuming = true → w.client.current = w.server.attached →
      w.readTexts = [] ∧ ack = w.server.received) :
    (w.gotMessage (.resumed ack)).Inv written := by
  unfold World.gotMessage
  dsimp only
  split
  · exact h
  rename_i hresuming
  have hresuming : w.client.resuming = true := Bool.not_eq_false _ ▸ hresuming
  split
  · exact (h.close h.placed.current).gone
  rename_i rest hrest
  have hframes (received : ℕ) : Up.hello received ∉
      (rest.zipIdx (ack + 1)).map fun (text, number) => Up.msg number text := fun hin => by
    obtain ⟨⟨text, number⟩, -, heq⟩ := List.mem_map.mp hin
    cases heq
  have htexts := texts_numbered rest (ack + 1)
  generalize (rest.zipIdx (ack + 1)).map (fun (text, number) => Up.msg number text) = frames
    at htexts hframes
  generalize hu : ({ w with client := { w.client with resuming := false } } : World) = u
  have hgoal : (u.set u.client.current ((u.sockets u.client.current).send frames)).Inv written := by
    refine ⟨.sent ?_ ?_ ?_ hframes, .sent ?_ ?_ ?_ ?_ ?_ fun hsends => ?_, .sent ?_ hframes⟩
    all_goals subst hu
    · exact ⟨h.placed.socket, h.placed.unmade, h.placed.current, h.placed.action, h.placed.actions,
        fun _ _ => hattached, nofun, h.placed.attached, h.placed.conn, h.placed.gens,
        h.placed.results⟩
    · exact hopen
    · rfl
    · exact h.upward.log
    · exact h.upward.received
    · exact h.upward.within
    · exact hopen
    · rfl
    · obtain ⟨hread, rfl⟩ := hack hresuming hsends.current
      have hcurrent : w.client.current = w.server.attached := hsends.current
      have hup : texts (w.sockets w.server.attached).up = [] :=
        hcurrent ▸ h.placed.quiet hopen hresuming
      have hcoming : w.coming = [] := by
        rw [World.coming, hread, hup, ite_self]
        rfl
      obtain ⟨-, rfl⟩ := h.upward.log.after hrest
      have hwithin := (List.prefix_append w.handled w.coming).trans h.upward.within
      change w.handled ++ (w.coming ++ texts frames) = w.sentMessages
      rw [hcoming, htexts, h.upward.received]
      exact List.prefix_iff_eq_append.mp hwithin
    · exact ⟨h.downward.ring, h.downward.queued, h.downward.received, h.downward.taken,
        h.downward.within, h.downward.complete, h.downward.hello, h.downward.asked⟩
  subst hu
  exact hgoal

theorem World.Inv.secret (h : w.Inv written) :
    World.Inv { w with client := { w.client with resumeSecret := true } } written :=
  ⟨⟨h.placed.socket, h.placed.unmade, h.placed.current, h.placed.action, h.placed.actions,
      h.placed.settled, h.placed.quiet, h.placed.attached, h.placed.conn, h.placed.gens,
      h.placed.results⟩,
    ⟨h.upward.log, h.upward.received, h.upward.within, fun hsends => h.upward.complete
      ⟨hsends.closed, hsends.resuming, hsends.current, hsends.reader, hsends.readyState,
        hsends.live⟩, h.upward.resumed⟩,
    ⟨h.downward.ring, h.downward.queued, h.downward.received, h.downward.taken,
      h.downward.within, h.downward.complete, h.downward.hello, h.downward.asked⟩⟩

theorem World.Inv.onmessage (h : w.Inv written) {k : ℕ} (hstep : w.onmessage k = some v) :
    v.Inv written := by
  unfold World.onmessage at hstep
  split at hstep
  · cases hstep
  rename_i frame rest hdown
  dsimp only at hstep
  split at hstep
  · rename_i hignored
    cases hstep
    exact h.read_down k hdown (Or.inl hignored)
  rename_i hcurrent
  obtain ⟨hopen, hcurrent⟩ := not_or.mp hcurrent
  have hopen : w.client.closed = false := Bool.eq_false_iff.mpr hopen
  obtain rfl := not_not.mp hcurrent
  cases hstep
  cases frame with
  | handshake => exact h.read_down _ hdown (Or.inr rfl)
  | network => exact h.read_down _ hdown (Or.inr rfl)
  | session =>
      exact (h.read_down _ hdown (Or.inr rfl)).secret
  | resumed ack =>
      have hread := h.read_down _ hdown (Or.inr rfl)
      have hin : Down.resumed ack ∈ (w.sockets w.client.current).down :=
        hdown ▸ List.mem_cons_self ..
      refine hread.resumed hopen ?_ fun hresuming hcurrent => ?_
      · change ¬ ((w.set _ _).sockets w.client.current).Unattached
        rw [World.set_self]
        exact fun hnew => ((h.placed.socket _).greeted hnew).2.2 ack hin
      · obtain ⟨hread, hacks⟩ := h.upward.resumed hopen hresuming hcurrent
        have hcurrent : w.client.current = w.server.attached := hcurrent
        exact ⟨hread, hacks ack (hcurrent ▸ hin)⟩
  | msg b => exact h.received hopen hdown

/-- The client's count comes with the request. -/
theorem World.Inv.serve (h : w.Inv written) {k : ℕ} {network ok : Bool}
    (hstep : w.serve k network ok = some v) : v.Inv written := by
  unfold World.serve at hstep
  dsimp only at hstep
  split at hstep
  · rename_i received rest hreader hup
    have hsocket := h.placed.socket k
    have hin : Up.hello received ∈ (w.sockets k).up := hup ▸ List.mem_cons_self ..
    obtain ⟨-, hone⟩ := hsocket.hello received hin
    have hrest : rest = [] := (List.cons.inj (hup.symm.trans hone)).2
    have hmade : w.next ≤ k → False := fun hk => by
      have hnone := (hsocket.connecting (h.placed.unmade k hk)).2
      rw [hnone] at hin
      cases hin
    have hattached : w.server.attached ≠ k := fun heq =>
      h.placed.attached (heq ▸ Or.inl hreader)
    obtain ⟨htexts, hbodies, hacks⟩ := hsocket.greeted (Or.inl hreader)
    have hconnecting : (w.sockets k).readyState ≠ .connecting := fun hnew => by
      rw [(hsocket.connecting hnew).2] at hin
      cases hin
    subst hrest
    split at hstep
    · cases hstep
      refine ⟨h.placed.set ⟨fun hnew => hnew.elim nofun nofun, nofun, fun hnew => absurd hnew hconnecting⟩
          (.of_stopped (by rw [hreader]; nofun) rfl) (fun hk => (hmade hk).elim) fun _ _ _ => rfl,
        h.upward.set_of_ne hattached,
        h.downward.set (List.prefix_refl _) (fun hlive => by cases hlive) fun _ hin => by cases hin⟩
    · cases hstep
      have hframes : bodies (.handshake :: if network then [.network] else []) = [] ∧
          ∀ ack, Down.resumed ack ∉ .handshake :: if network then [.network] else [] := by
        cases network <;> exact ⟨rfl, by simp⟩
      generalize (Down.handshake :: if network then [.network] else []) = frames at hframes ⊢
      obtain ⟨down, hs, hquiet, hacks'⟩ : ∃ down,
          Socket.write { w.sockets k with up := [] } frames = { w.sockets k with up := [], down } ∧
            bodies down = [] ∧ ∀ ack, .resumed ack ∉ down := by
        rcases Socket.write_cases { w.sockets k with up := [] } frames with ⟨hs, -⟩ | ⟨hs, -⟩
        · exact ⟨(w.sockets k).down, hs, hbodies, hacks⟩
        · refine ⟨(w.sockets k).down ++ frames, hs, ?_, fun ack hin => ?_⟩
          · rw [bodies_append, hbodies, hframes.1]
            rfl
          · exact (List.mem_append.mp hin).elim (hacks ack) (hframes.2 ack)
      rw [hs]
      have hplaced : (w.set k { w.sockets k with up := [], down, reader := .waiting }).Placed :=
        h.placed.set ⟨fun _ => ⟨rfl, hquiet, hacks'⟩, nofun, fun hnew => absurd hnew hconnecting⟩
          ⟨fun hold => absurd (Or.inl hreader) hold, fun _ => rfl, nofun⟩
          (fun hk => (hmade hk).elim) fun _ _ _ => rfl
      have hdownward : (w.set k { w.sockets k with up := [], down, reader := .waiting }).Downward
          written :=
        h.downward.set (by rw [hquiet]; exact List.nil_prefix)
          (fun hlive => ⟨hlive, hquiet.trans hbodies.symm⟩) fun _ hin => by cases hin
      have hself := w.set_self k { w.sockets k with up := [], down, reader := .waiting }
      have hupward := h.upward.set_of_ne (s := { w.sockets k with up := [], down, reader := .waiting })
        hattached
      refine ⟨⟨hplaced.socket, hplaced.unmade, hplaced.current, fun a ha => ?_, ?_, hplaced.settled,
          hplaced.quiet, hplaced.attached, hplaced.conn, hplaced.gens, hplaced.results⟩,
        ⟨hupward.log, hupward.received, hupward.within, fun hsends => hupward.complete
          ⟨hsends.closed, hsends.resuming, hsends.current, hsends.reader, hsends.readyState,
            hsends.live⟩, hupward.resumed⟩,
        ⟨hdownward.ring, hdownward.queued, hdownward.received, hdownward.taken, hdownward.within,
          hdownward.complete, hdownward.hello, fun hopen a ha hcurrent => ?_⟩⟩
      · rcases List.mem_append.mp ha with ha | ha
        · exact hplaced.action a ha
        · rw [List.mem_singleton.mp ha]
          exact congrArg Socket.reader hself
      · change ((w.server.actions ++ [(⟨k, received⟩ : ResumeAction)]).map (·.conn)).Nodup
        rw [List.map_append, List.map_singleton]
        refine List.nodup_append.mpr ⟨h.placed.actions, List.nodup_singleton _, ?_⟩
        intro j hj j' hj' heq
        obtain ⟨a, ha, rfl⟩ := List.mem_map.mp hj
        rw [List.mem_singleton.mp hj'] at heq
        have hwaiting := h.placed.action a ha
        rw [heq, hreader] at hwaiting
        cases hwaiting
      · rcases List.mem_append.mp ha with ha | ha
        · exact h.downward.asked hopen a ha hcurrent
        · rw [List.mem_singleton.mp ha] at hcurrent ⊢
          change k = w.client.current at hcurrent
          exact h.downward.hello hopen received (hcurrent ▸ hin)
  · cases hstep

theorem World.Upward.read (h : w.Upward) {r : ReadResult} (hr : r.text? w.server.gen = none) :
    World.Upward { w with server := { w.server with read := w.server.read ++ [r] } } := by
  have hread : World.readTexts
      { w with server := { w.server with read := w.server.read ++ [r] } } = w.readTexts := by
    change (w.server.read ++ [r]).filterMap (·.text? w.server.gen) = _
    rw [List.filterMap_append, List.filterMap_cons_none hr]
    exact List.append_nil _
  have hcoming : World.coming
      { w with server := { w.server with read := w.server.read ++ [r] } } = w.coming :=
    congrArg (· ++ _) hread
  refine ⟨h.log, h.received, hcoming ▸ h.within, fun hsends => ?_, fun hopen hresuming hcurrent => ?_⟩
  · rw [hcoming]
    exact h.complete ⟨hsends.closed, hsends.resuming, hsends.current, hsends.reader,
      hsends.readyState, hsends.live⟩
  · rw [hread]
    exact h.resumed hopen hresuming hcurrent

theorem World.Placed.read (h : w.Placed) {r : ReadResult} (hr : r.gen ≤ w.server.gen) :
    World.Placed { w with server := { w.server with read := w.server.read ++ [r] } } := by
  refine ⟨h.socket, h.unmade, h.current, h.action, h.actions, h.settled, h.quiet, h.attached, h.conn,
    h.gens, fun r' hr' => ?_⟩
  rcases List.mem_append.mp hr' with hr' | hr'
  · exact h.results r' hr'
  · rw [List.mem_singleton.mp hr']
    exact hr

theorem World.Downward.read (h : w.Downward written) (read : List ReadResult) :
    World.Downward { w with server := { w.server with read } } written :=
  ⟨h.ring, h.queued, h.received, h.taken, h.within, h.complete, h.hello, h.asked⟩

theorem World.Inv.read_more (h : w.Inv written) {r : ReadResult} (hr : r.gen ≤ w.server.gen)
    (hnone : r.text? w.server.gen = none) :
    World.Inv { w with server := { w.server with read := w.server.read ++ [r] } } written :=
  ⟨h.placed.read hr, h.upward.read hnone, h.downward.read _⟩

/-- The reader of a socket stops. -/
theorem World.Inv.stop (h : w.Inv written) {k gen : ℕ} (hreader : (w.sockets k).reader = .running gen)
    {up : List Up} (hup : up.Sublist (w.sockets k).up) (normal : Bool) :
    World.Inv { w.set k { w.sockets k with up, reader := .stopped } with
      server := { w.server with read := w.server.read ++ [⟨gen, .failed normal⟩] } } written := by
  have hattached := not_unattached_of_running hreader
  have hsocket := h.placed.socket k
  have hset : (w.set k { w.sockets k with up, reader := .stopped }).Inv written := by
    refine ⟨h.placed.set ?_ (.of_stopped (by rw [hreader]; nofun) rfl) (fun hk => ?_)
        fun hopen hresuming hk => ?_, h.upward.set_unread nofun fun _ hin => hin,
      h.downward.set (List.prefix_refl _) (fun hlive => ⟨hlive, rfl⟩) fun _ hin => hup.subset hin⟩
    · exact Socket.Sound.of_attached (fun hnew => hnew.elim nofun nofun)
        (fun received hin => hsocket.no_hello hattached received (hup.subset hin))
        (hsocket.made hattached)
    · exact absurd (h.placed.unmade k hk) (hsocket.made hattached)
    · subst hk
      have htexts : (texts up).Sublist (texts (w.sockets w.client.current).up) := hup.filterMap _
      rw [h.placed.quiet hopen hresuming] at htexts
      exact List.sublist_nil.mp htexts
  exact hset.read_more (h.placed.gens k gen hreader).1 (by simp [ReadResult.text?])

/-- A message goes from the socket to the loop. -/
theorem World.Upward.read_text (h : w.Upward) {k gen number : ℕ} {text : Units} {rest : List Up}
    (hgens : gen = w.server.gen → k = w.server.attached)
    (hquiet : w.client.closed = false → w.client.resuming = true → w.client.current ≠ k)
    (hreader : (w.sockets k).reader = .running gen)
    (hup : (w.sockets k).up = .msg number text :: rest) :
    World.Upward { w.set k { w.sockets k with up := rest } with
      server := { w.server with read := w.server.read ++ [⟨gen, .message text⟩] } } := by
  by_cases hgen : gen = w.server.gen
  · obtain rfl := hgens hgen
    subst hgen
    have hself := w.set_self w.server.attached { w.sockets w.server.attached with up := rest }
    have hread : World.readTexts { w.set w.server.attached { w.sockets w.server.attached with
        up := rest } with server := { w.server with
          read := w.server.read ++ [⟨w.server.gen, .message text⟩] } } = w.readTexts ++ [text] := by
      change (w.server.read ++ [_]).filterMap (ReadResult.text? w.server.gen) = _
      have htext : ReadResult.text? w.server.gen ⟨w.server.gen, .message text⟩ = some text :=
        if_pos rfl
      rw [List.filterMap_append, List.filterMap_cons_some htext]
      rfl
    have hcoming : World.coming { w.set w.server.attached { w.sockets w.server.attached with
        up := rest } with server := { w.server with
          read := w.server.read ++ [⟨w.server.gen, .message text⟩] } } = w.coming := by
      rw [World.coming_running hreader, hup, texts_msg, World.coming_running]
      · rw [hread, List.append_assoc]
        change _ ++ ([text] ++ texts ((w.set _ _).sockets w.server.attached).up) = _
        rw [hself]
        rfl
      · change ((w.set _ _).sockets w.server.attached).reader = _
        rw [hself]
        exact hreader
    refine ⟨h.log, h.received, hcoming ▸ h.within, fun hsends => ?_,
      fun hopen hresuming hcurrent => absurd hcurrent (hquiet hopen hresuming)⟩
    rw [hcoming]
    have hstate := hsends.readyState
    have hlive := hsends.live
    change ((w.set _ _).sockets w.server.attached).readyState = _ at hstate
    change ((w.set _ _).sockets w.server.attached).upLive = _ at hlive
    rw [hself] at hstate hlive
    exact h.complete ⟨hsends.closed, hsends.resuming, hsends.current, hreader, hstate, hlive⟩
  · have hunread : (w.set k { w.sockets k with up := rest }).Upward :=
      h.set_unread (by rw [hreader]; exact fun heq => hgen (Reading.running.inj heq)) fun _ hin => hin
    exact hunread.read (if_neg hgen)

/-- A message is read, or refused. -/
theorem World.Inv.read {decodes : Bytes → Bool} (h : w.Inv written) {k : ℕ}
    (hstep : w.read decodes k = some v) : v.Inv written := by
  unfold World.read at hstep
  dsimp only at hstep
  split at hstep
  · rename_i gen number text rest hreader hup
    have hsub : rest.Sublist (w.sockets k).up := hup ▸ List.sublist_cons_self ..
    have hquiet (hopen : w.client.closed = false) (hresuming : w.client.resuming = true) :
        w.client.current ≠ k := fun hk => by
      have hnone := h.placed.quiet hopen hresuming
      rw [hk, hup] at hnone
      cases hnone
    split at hstep
    · cases hstep
      have hplaced : (w.set k { w.sockets k with up := rest }).Placed :=
        h.placed.set ((h.placed.socket k).lose hsub (List.Sublist.refl _) id) (.of_eq rfl)
          (fun hk => h.placed.unmade k hk) fun hopen hresuming hk => (hquiet hopen hresuming hk.symm).elim
      have hdownward : (w.set k { w.sockets k with up := rest }).Downward written :=
        h.downward.set (List.prefix_refl _) (fun hlive => ⟨hlive, rfl⟩) fun _ hin => hsub.subset hin
      obtain ⟨hle, hgens⟩ := h.placed.gens k gen hreader
      exact ⟨hplaced.read hle, h.upward.read_text hgens hquiet hreader hup, hdownward.read _⟩
    · cases hstep
      have hstop := h.stop hreader hsub false
      exact ⟨⟨hstop.placed.socket, hstop.placed.unmade, hstop.placed.current, hstop.placed.action,
          hstop.placed.actions, hstop.placed.settled, hstop.placed.quiet, hstop.placed.attached,
          hstop.placed.conn, hstop.placed.gens, hstop.placed.results⟩,
        ⟨hstop.upward.log, hstop.upward.received, hstop.upward.within, fun hsends =>
          hstop.upward.complete ⟨hsends.closed, hsends.resuming, hsends.current, hsends.reader,
            hsends.readyState, hsends.live⟩, hstop.upward.resumed⟩,
        ⟨hstop.downward.ring, hstop.downward.queued, hstop.downward.received,
          hstop.downward.taken, hstop.downward.within, hstop.downward.complete,
          hstop.downward.hello, hstop.downward.asked⟩⟩
  · cases hstep

theorem World.Inv.fail (h : w.Inv written) {k : ℕ} {normal : Bool}
    (hstep : w.fail k normal = some v) : v.Inv written := by
  unfold World.fail at hstep
  dsimp only at hstep
  split at hstep
  · rename_i gen hreader
    cases hstep
    exact h.stop hreader (List.Sublist.refl _) normal
  · cases hstep

/-- `clientLoop` has taken the first result, which is no message of this generation's. -/
theorem World.Inv.handle_other (h : w.Inv written) {r : ReadResult} {rest : List ReadResult}
    (hread : w.server.read = r :: rest) (hnone : r.text? w.server.gen = none)
    {detached ended : Bool} :
    World.Inv { w with server := { w.server with read := rest, detached, ended } } written := by
  have htexts : World.readTexts
      { w with server := { w.server with read := rest, detached, ended } } = w.readTexts := by
    rw [World.readTexts, World.readTexts, hread, List.filterMap_cons_none hnone]
  have hcoming : World.coming
      { w with server := { w.server with read := rest, detached, ended } } = w.coming :=
    congrArg (· ++ _) htexts
  refine ⟨⟨h.placed.socket, h.placed.unmade, h.placed.current, h.placed.action, h.placed.actions,
      h.placed.settled, h.placed.quiet, h.placed.attached, h.placed.conn, h.placed.gens,
      fun r' hr' => h.placed.results r' (hread ▸ List.mem_cons_of_mem _ hr')⟩,
    ⟨h.upward.log, h.upward.received, hcoming ▸ h.upward.within, fun hsends => ?_,
      fun hopen hresuming hcurrent => ?_⟩,
    ⟨h.downward.ring, h.downward.queued, h.downward.received, h.downward.taken,
      h.downward.within, h.downward.complete, h.downward.hello, h.downward.asked⟩⟩
  · rw [hcoming]
    exact h.upward.complete ⟨hsends.closed, hsends.resuming, hsends.current, hsends.reader,
      hsends.readyState, hsends.live⟩
  · rw [htexts]
    exact h.upward.resumed hopen hresuming hcurrent

/-- The first message that comes is handled. -/
theorem World.Inv.handled (h : w.Inv written) {text : Units} {rest : List ReadResult}
    (hread : w.server.read = ⟨w.server.gen, .message text⟩ :: rest) :
    World.Inv { w with
      server := { w.server with read := rest, received := w.server.received + 1 }
      handled := w.handled ++ [text] } written := by
  generalize hv : ({ w with
      server := { w.server with read := rest, received := w.server.received + 1 }
      handled := w.handled ++ [text] } : World) = v
  have htexts : w.readTexts = text :: v.readTexts := by
    have htext : ReadResult.text? w.server.gen ⟨w.server.gen, .message text⟩ = some text := if_pos rfl
    rw [World.readTexts, hread, List.filterMap_cons_some htext, ← hv]
    rfl
  have hmove : v.handled ++ v.coming = w.handled ++ w.coming := by
    have hcoming : w.coming = text :: v.coming := by
      rw [World.coming, htexts, ← hv]
      rfl
    rw [hcoming, ← hv, List.append_assoc]
    rfl
  refine ⟨?_, ⟨?_, ?_, ?_, fun hsends => ?_, fun hopen hresuming hcurrent => ?_⟩, ?_⟩
  · subst hv
    exact ⟨h.placed.socket, h.placed.unmade, h.placed.current, h.placed.action, h.placed.actions,
      h.placed.settled, h.placed.quiet, h.placed.attached, h.placed.conn, h.placed.gens,
      fun r' hr' => h.placed.results r' (hread ▸ List.mem_cons_of_mem _ hr')⟩
  · subst hv
    exact h.upward.log
  · subst hv
    rw [List.length_append, ← h.upward.received]
    rfl
  · rw [hmove, ← hv]
    exact h.upward.within
  · rw [hmove]
    subst hv
    exact h.upward.complete ⟨hsends.closed, hsends.resuming, hsends.current, hsends.reader,
      hsends.readyState, hsends.live⟩
  · have hnone : w.readTexts = [] := by
      subst hv
      exact (h.upward.resumed hopen hresuming hcurrent).1
    rw [htexts] at hnone
    cases hnone
  · subst hv
    exact ⟨h.downward.ring, h.downward.queued, h.downward.received, h.downward.taken,
      h.downward.within, h.downward.complete, h.downward.hello, h.downward.asked⟩

theorem World.Inv.handle (h : w.Inv written) (hstep : w.handle = some v) : v.Inv written := by
  unfold World.handle at hstep
  split at hstep
  · cases hstep
  split at hstep
  · cases hstep
  rename_i r rest hread
  dsimp only at hstep
  split at hstep
  · rename_i hgen
    cases hstep
    exact h.handle_other hread (if_neg hgen)
  rename_i hgen
  obtain ⟨gen, outcome⟩ := r
  obtain rfl := not_not.mp hgen
  cases outcome with
  | failed normal =>
      have hnone : ReadResult.text? w.server.gen ⟨w.server.gen, .failed normal⟩ = none := if_pos rfl
      dsimp only at hstep
      split at hstep
      · cases hstep
        exact h.handle_other hread hnone
      · cases hstep
        exact h.handle_other hread hnone
  | message text =>
      cases hstep
      exact h.handled hread

/-- The next request's socket has carried nothing, and nobody else asks for it. -/
theorem World.Placed.requested (h : w.Placed) {a : ResumeAction} {actions : List ResumeAction}
    (hactions : w.server.actions = a :: actions) :
    (w.sockets a.conn).reader = .waiting ∧ (∀ a' ∈ actions, a'.conn ≠ a.conn) ∧
      (actions.map (·.conn)).Nodup ∧ ∀ a' ∈ actions, a' ∈ w.server.actions := by
  have hin : a ∈ w.server.actions := hactions ▸ List.mem_cons_self ..
  have hnodup := h.actions
  rw [hactions, List.map_cons, List.nodup_cons] at hnodup
  exact ⟨h.action a hin, fun a' ha' heq => hnodup.1 (heq ▸ List.mem_map_of_mem ha'), hnodup.2,
    fun a' ha' => hactions ▸ List.mem_cons_of_mem a ha'⟩

/-- The socket of a request is not one that waits any more. -/
theorem World.Placed.answered (h : w.Placed) {a : ResumeAction} {actions : List ResumeAction}
    (hactions : w.server.actions = a :: actions) {s : Socket} (hnew : ¬ s.Unattached)
    (hup : s.up = (w.sockets a.conn).up) (hstate : s.readyState = (w.sockets a.conn).readyState)
    {server : Server} (hserver : server.actions = actions)
    (hattached : ¬ ((w.set a.conn s).sockets server.attached).Unattached)
    (hconn : ∀ k ∈ server.conn, ¬ ((w.set a.conn s).sockets k).Unattached)
    (hgens : ∀ k gen, ((w.set a.conn s).sockets k).reader = .running gen →
      gen ≤ server.gen ∧ (gen = server.gen → k = server.attached))
    (hresults : ∀ r ∈ server.read, r.gen ≤ server.gen) :
    World.Placed { w.set a.conn s with server } := by
  obtain ⟨hwaiting, hothers, hnodup, hold⟩ := h.requested hactions
  have hsocket := h.socket a.conn
  have hself := w.set_self a.conn s
  have hother {j : ℕ} (hj : j ≠ a.conn) := w.set_of_ne hj s
  have hmade : (w.sockets a.conn).readyState ≠ .connecting := fun hconnecting => by
    have hstart := (hsocket.connecting hconnecting).1
    rw [hwaiting] at hstart
    cases hstart
  have hsound : s.Sound := by
    refine Socket.Sound.of_attached hnew (fun received hin => ?_) (hstate ▸ hmade)
    have hstart := (hsocket.hello received (hup ▸ hin)).1
    rw [hwaiting] at hstart
    cases hstart
  refine ⟨fun j => ?_, fun j hj => ?_, h.current, fun a' ha' => ?_, hserver ▸ hnodup,
    fun hopen hsettled => ?_, fun hopen hresuming => ?_, hattached, hconn, hgens, hresults⟩
  · change ((w.set a.conn s).sockets j).Sound
    by_cases hj : j = a.conn
    · rwa [hj, hself]
    · rw [hother hj]
      exact h.socket j
  · change ((w.set a.conn s).sockets j).readyState = _
    have hj' : j ≠ a.conn := fun heq => hmade (heq ▸ h.unmade j hj)
    rw [hother hj']
    exact h.unmade j hj
  · change ((w.set a.conn s).sockets a'.conn).reader = _
    have ha' : a' ∈ actions := hserver ▸ ha'
    rw [hother (hothers a' ha')]
    exact h.action a' (hold a' ha')
  · change ¬ ((w.set a.conn s).sockets w.client.current).Unattached
    by_cases hj : w.client.current = a.conn
    · rwa [hj, hself]
    · rw [hother hj]
      exact h.settled hopen hsettled
  · change texts ((w.set a.conn s).sockets w.client.current).up = []
    by_cases hj : w.client.current = a.conn
    · rw [hj, hself, hup]
      exact (hsocket.greeted (Or.inr hwaiting)).1
    · rw [hother hj]
      exact h.quiet hopen hresuming

/-- A request for messages that are no longer kept ends the session. -/
theorem World.Inv.refuse (h : w.Inv written) {a : ResumeAction} {actions : List ResumeAction}
    (hactions : w.server.actions = a :: actions) :
    World.Inv { w.set a.conn { (w.sockets a.conn).shut with reader := .stopped } with
      server := { w.server with actions, ended := true } } written := by
  obtain ⟨hwaiting, -, -, hold⟩ := h.placed.requested hactions
  have hne {j : ℕ} (hj : ¬ (w.sockets j).Unattached) : j ≠ a.conn := fun heq =>
    hj (heq ▸ Or.inr hwaiting)
  generalize hs : ({ (w.sockets a.conn).shut with reader := .stopped } : Socket) = s
  have hreader : s.reader = .stopped := by rw [← hs]
  have hother {j : ℕ} (hj : j ≠ a.conn) := w.set_of_ne hj s
  have hkeeps {j : ℕ} (hj : ¬ (w.sockets j).Unattached) : ¬ ((w.set a.conn s).sockets j).Unattached := by
    rwa [hother (hne hj)]
  have hupward : (w.set a.conn s).Upward := h.upward.set_of_ne (hne h.placed.attached)
  have hdownward : (w.set a.conn s).Downward written := by
    subst hs
    exact h.downward.set (List.prefix_refl _) nofun fun _ hin => hin
  refine ⟨h.placed.answered hactions (by rw [Socket.Unattached, hreader]; exact fun h => h.elim nofun nofun)
      (by rw [← hs]; rfl) (by rw [← hs]; rfl) rfl (hkeeps h.placed.attached)
      (fun k hk => hkeeps (h.placed.conn k hk)) (fun j gen hgen => ?_) h.placed.results,
    ⟨hupward.log, hupward.received, hupward.within, fun hsends => hupward.complete
      ⟨hsends.closed, hsends.resuming, hsends.current, hsends.reader, hsends.readyState,
        hsends.live⟩, hupward.resumed⟩,
    ⟨hdownward.ring, hdownward.queued, hdownward.received, hdownward.taken, hdownward.within,
      hdownward.complete, hdownward.hello, fun hopen a' ha' => hdownward.asked hopen a' (hold a' ha')⟩⟩
  by_cases hj : j = a.conn
  · rw [hj, w.set_self, hreader] at hgen
    cases hgen
  · rw [hother hj] at hgen
    exact h.placed.gens j gen hgen

/-- The reader and the writer go on with the new socket. -/
theorem World.Inv.attached (h : w.Inv written) {a : ResumeAction} {actions : List ResumeAction}
    (hactions : w.server.actions = a :: actions) {msgs : List Bytes}
    (hmsgs : w.server.ring.after a.received = some msgs) :
    World.Inv { w.set a.conn { (w.sockets a.conn).write
          (.resumed w.server.received :: msgs.map .msg) with
        reader := .running (w.server.gen + 1) } with
      server := { w.server with
        actions
        conn := some a.conn
        gen := w.server.gen + 1
        attached := a.conn
        detached := false } } written := by
  obtain ⟨hwaiting, -, -, hold⟩ := h.placed.requested hactions
  have hsocket := h.placed.socket a.conn
  obtain ⟨htexts, hbodies, hacks⟩ := hsocket.greeted (Or.inr hwaiting)
  have hasked (hopen : w.client.closed = false) (hcurrent : w.client.current = a.conn) :
      a.received = w.client.received :=
    h.downward.asked hopen a (hactions ▸ List.mem_cons_self ..) hcurrent.symm
  obtain ⟨-, rfl⟩ := h.downward.ring.after hmsgs
  have hcurrent (hopen : w.client.closed = false) (hsettled : w.client.resuming = false) :
      w.client.current ≠ a.conn := fun heq =>
    h.placed.settled hopen hsettled (heq ▸ Or.inr hwaiting)
  have hframes := bodies_msgs (written.drop a.received)
  have hmsg (ack : ℕ) : Down.resumed ack ∉ (written.drop a.received).map .msg := fun hin => by
    obtain ⟨b, -, hb⟩ := List.mem_map.mp hin
    cases hb
  generalize (written.drop a.received).map Down.msg = frames at hframes hmsg ⊢
  generalize hs : ({ (w.sockets a.conn).write (.resumed w.server.received :: frames) with
    reader := .running (w.server.gen + 1) } : Socket) = s
  have hdown : s.down = (w.sockets a.conn).down ∧ s.downLive ≠ true ∨
      s.down = (w.sockets a.conn).down ++ .resumed w.server.received :: frames := by
    rw [← hs]
    rcases Socket.write_cases (w.sockets a.conn) (.resumed w.server.received :: frames) with
      ⟨heq, hdead⟩ | ⟨heq, -⟩
    · exact Or.inl ⟨(congrArg Socket.down heq :), by rw [heq]; exact hdead⟩
    · exact Or.inr (congrArg Socket.down heq :)
  have hsame : s.up = (w.sockets a.conn).up ∧ s.readyState = (w.sockets a.conn).readyState := by
    rw [← hs]
    rcases Socket.write_cases (w.sockets a.conn) (.resumed w.server.received :: frames) with
      ⟨heq, -⟩ | ⟨heq, -⟩ <;> rw [heq] <;> exact ⟨rfl, rfl⟩
  have hreader : s.reader = .running (w.server.gen + 1) := by rw [← hs]
  have hself := w.set_self a.conn s
  have hother {j : ℕ} (hj : j ≠ a.conn) := w.set_of_ne hj s
  have hnew : ¬ ((w.set a.conn s).sockets a.conn).Unattached := by
    rw [hself]
    exact not_unattached_of_running hreader
  have hreplayed (hopen : w.client.closed = false) (hj : w.client.current = a.conn)
      (hdown : s.down = (w.sockets a.conn).down ++ .resumed w.server.received :: frames) :
      w.processed ++ bodies s.down = written := by
    have hrest : bodies (.resumed w.server.received :: frames) = written.drop w.processed.length := by
      rw [← h.downward.received, ← hasked hopen hj, ← hframes]
      rfl
    rw [hdown, bodies_append, hbodies, hrest]
    exact List.prefix_iff_eq_append.mp h.downward.taken
  have hread : w.server.read.filterMap (ReadResult.text? (w.server.gen + 1)) = [] := by
    refine List.filterMap_eq_nil_iff.mpr fun r hr => if_neg ?_
    have hle := h.placed.results r hr
    omega
  refine ⟨h.placed.answered hactions (not_unattached_of_running hreader) hsame.1 hsame.2 rfl hnew
      (fun k hk => Option.some.inj hk ▸ hnew) (fun j gen hgen => ?_)
      fun r hr => Nat.le_succ_of_le (h.placed.results r hr),
    ⟨h.upward.log, h.upward.received, ?_,
      fun hsends => absurd hsends.current (hcurrent hsends.closed hsends.resuming),
      fun hopen hresuming _ => ⟨hread, fun ack hin => ?_⟩⟩,
    ⟨h.downward.ring, h.downward.queued, h.downward.received, h.downward.taken,
      fun hopen => ?_, fun hopen hconn hlive => ?_, fun hopen received hin => ?_,
      fun hopen a' ha' => h.downward.asked hopen a' (hold a' ha')⟩⟩
  · by_cases hj : j = a.conn
    · rw [hj, hself, hreader] at hgen
      cases hgen
      exact ⟨Nat.le_refl _, fun _ => hj⟩
    · rw [hother hj] at hgen
      have hle := (h.placed.gens j gen hgen).1
      refine ⟨Nat.le_succ_of_le hle, fun heq => ?_⟩
      change gen = w.server.gen + 1 at heq
      omega
  · change w.handled ++ (w.server.read.filterMap (ReadResult.text? (w.server.gen + 1)) ++
      if ((w.set a.conn s).sockets a.conn).reader = .running (w.server.gen + 1) then
        texts ((w.set a.conn s).sockets a.conn).up else []) <+: w.sentMessages
    rw [hread, hself, hsame.1, htexts, ite_self, List.append_nil, List.append_nil]
    exact (List.prefix_append w.handled w.coming).trans h.upward.within
  · change _ ∈ ((w.set a.conn s).sockets a.conn).down at hin
    rw [hself] at hin
    rcases hdown with ⟨hdown, -⟩ | hdown
    · rw [hdown] at hin
      exact absurd hin (hacks ack)
    · rw [hdown] at hin
      rcases List.mem_append.mp hin with hin | hin
      · exact absurd hin (hacks ack)
      rcases List.mem_cons.mp hin with heq | hin
      · cases heq
        rfl
      · exact absurd hin (hmsg ack)
  · change w.processed ++ bodies ((w.set a.conn s).sockets w.client.current).down <+: _
    by_cases hj : w.client.current = a.conn
    · rw [hj, hself]
      rcases hdown with ⟨hdown, -⟩ | hdown
      · rw [hdown, hbodies, List.append_nil]
        exact h.downward.taken
      · exact ⟨[], (List.append_nil _).trans (hreplayed hopen hj hdown)⟩
    · rw [hother hj]
      exact h.downward.within hopen
  · have hj : w.client.current = a.conn := (Option.some.inj hconn).symm
    change ((w.set a.conn s).sockets w.client.current).downLive = true at hlive
    change w.processed ++ bodies ((w.set a.conn s).sockets w.client.current).down = _
    rw [hj, hself] at hlive ⊢
    rcases hdown with ⟨-, hdead⟩ | hdown
    · exact absurd hlive hdead
    · exact hreplayed hopen hj hdown
  · change _ ∈ ((w.set a.conn s).sockets w.client.current).up at hin
    by_cases hj : w.client.current = a.conn
    · rw [hj, hself, hsame.1, ← hj] at hin
      exact h.downward.hello hopen received hin
    · rw [hother hj] at hin
      exact h.downward.hello hopen received hin

theorem World.Inv.attach (h : w.Inv written) (hstep : w.attach = some v) : v.Inv written := by
  unfold World.attach at hstep
  split at hstep
  · cases hstep
  split at hstep
  · cases hstep
  rename_i a actions hactions
  dsimp only at hstep
  split at hstep
  · cases hstep
    exact h.refuse hactions
  · rename_i msgs hmsgs
    cases hstep
    have hshut := h.shut w.server.conn
    have hserver : (w.shut w.server.conn).server = w.server := by
      cases w.server.conn <;> rfl
    generalize w.shut w.server.conn = u at hshut hserver ⊢
    rw [← hserver] at hactions hmsgs ⊢
    exact hshut.attached hactions hmsgs

theorem World.Inv.queue (h : w.Inv written) {b : Bytes} (hstep : w.queue b = some v) :
    v.Inv written := by
  unfold World.queue at hstep
  split at hstep
  · cases hstep
  cases hstep
  refine ⟨⟨h.placed.socket, h.placed.unmade, h.placed.current, h.placed.action, h.placed.actions,
      h.placed.settled, h.placed.quiet, h.placed.attached, h.placed.conn, h.placed.gens,
      h.placed.results⟩,
    ⟨h.upward.log, h.upward.received, h.upward.within, fun hsends => h.upward.complete
      ⟨hsends.closed, hsends.resuming, hsends.current, hsends.reader, hsends.readyState,
        hsends.live⟩, h.upward.resumed⟩,
    ⟨h.downward.ring, ?_, h.downward.received, h.downward.taken, h.downward.within,
      h.downward.complete, h.downward.hello, h.downward.asked⟩⟩
  obtain ⟨hqueued, hacks⟩ := h.downward.queued
  refine ⟨?_, fun ack hin => ?_⟩
  · rw [bodies_append, ← List.append_assoc, ← hqueued]
    rfl
  · rcases List.mem_append.mp hin with hin | hin
    · exact hacks ack hin
    · cases List.mem_singleton.mp hin

/-- The writer takes a message, which nobody gets. -/
theorem World.Inv.kept (h : w.Inv written) {ring : ReplayRing Bytes} {written' : List Bytes}
    (hring : ring.Keeps List.length written') (hmore : written <+: written') {writeCh : List Down}
    (hqueued : w.queued = written' ++ bodies writeCh ∧ ∀ ack, .resumed ack ∉ writeCh) :
    World.Inv { w with server := { w.server with writeCh, ring, conn := none } } written' :=
  ⟨⟨h.placed.socket, h.placed.unmade, h.placed.current, h.placed.action, h.placed.actions,
      h.placed.settled, h.placed.quiet, h.placed.attached, nofun, h.placed.gens, h.placed.results⟩,
    ⟨h.upward.log, h.upward.received, h.upward.within, fun hsends => h.upward.complete
      ⟨hsends.closed, hsends.resuming, hsends.current, hsends.reader, hsends.readyState,
        hsends.live⟩, h.upward.resumed⟩,
    ⟨hring, hqueued, h.downward.received, h.downward.taken.trans hmore,
      fun hopen => (h.downward.within hopen).trans hmore, nofun, h.downward.hello,
      h.downward.asked⟩⟩

/-- The writer's socket takes it. -/
theorem World.Inv.wrote (h : w.Inv written) {k : ℕ} (hconn : w.server.conn = some k) {frame : Down}
    (hack : ∀ ack, frame ≠ .resumed ack) {ring : ReplayRing Bytes}
    (hring : ring.Keeps List.length (written ++ bodies [frame])) {writeCh : List Down}
    (hqueued : w.queued = written ++ bodies [frame] ++ bodies writeCh ∧
      ∀ ack, .resumed ack ∉ writeCh) :
    World.Inv { w.set k ((w.sockets k).write [frame]) with
      server := { w.server with writeCh, ring } } (written ++ bodies [frame]) := by
  have hattached := h.placed.conn k hconn
  have hsocket := h.placed.socket k
  have hmore : written <+: written ++ bodies [frame] := List.prefix_append ..
  generalize hs : (w.sockets k).write [frame] = s
  have hsame : s.reader = (w.sockets k).reader ∧ s.up = (w.sockets k).up ∧
      s.readyState = (w.sockets k).readyState ∧ s.upLive = (w.sockets k).upLive := by
    rw [← hs]
    rcases (w.sockets k).write_cases [frame] with ⟨heq, -⟩ | ⟨heq, -⟩ <;> rw [heq] <;>
      exact ⟨rfl, rfl, rfl, rfl⟩
  obtain ⟨hreader, hup, hstate, hlive⟩ := hsame
  have hdown : s.down = (w.sockets k).down ∧ s.downLive ≠ true ∨
      s.down = (w.sockets k).down ++ [frame] ∧ (w.sockets k).downLive = true := by
    rw [← hs]
    rcases (w.sockets k).write_cases [frame] with ⟨heq, hdead⟩ | ⟨heq, hdownLive⟩
    · exact Or.inl ⟨congrArg Socket.down heq, by rw [heq]; exact hdead⟩
    · exact Or.inr ⟨congrArg Socket.down heq, hdownLive⟩
  have hall (hopen : w.client.closed = false) (hk : w.client.current = k)
      (hdownLive : (w.sockets k).downLive = true) (hdown : s.down = (w.sockets k).down ++ [frame]) :
      w.processed ++ bodies s.down = written ++ bodies [frame] := by
    have hbefore := h.downward.complete hopen (hconn.trans (congrArg some hk.symm)) (hk ▸ hdownLive)
    rw [hdown, bodies_append, ← List.append_assoc, ← hbefore, hk]
  have hplaced : (w.set k s).Placed := by
    refine h.placed.set (.of_attached (by rwa [Socket.Unattached, hreader])
        (fun received hin => hsocket.no_hello hattached received (hup ▸ hin))
        (hstate ▸ hsocket.made hattached)) (.of_eq hreader)
      (fun hk => absurd (h.placed.unmade k hk) (hsocket.made hattached)) fun hopen hresuming hk => ?_
    rw [hup, hk]
    exact h.placed.quiet hopen hresuming
  have hupward : (w.set k s).Upward := by
    refine h.upward.set hreader (hup ▸ List.prefix_refl _)
      (fun hopened hupLive => ⟨⟨hstate ▸ hopened, hlive ▸ hupLive⟩, by rw [hup]⟩) fun ack hin => ?_
    rcases hdown with ⟨hdown, -⟩ | ⟨hdown, -⟩
    · rwa [hdown] at hin
    · rw [hdown] at hin
      exact (List.mem_append.mp hin).resolve_right fun hin =>
        hack ack (List.mem_singleton.mp hin).symm
  have hself := w.set_self k s
  refine ⟨⟨hplaced.socket, hplaced.unmade, hplaced.current, hplaced.action, hplaced.actions,
      hplaced.settled, hplaced.quiet, hplaced.attached, hplaced.conn, hplaced.gens,
      hplaced.results⟩,
    ⟨hupward.log, hupward.received, hupward.within, fun hsends => hupward.complete
      ⟨hsends.closed, hsends.resuming, hsends.current, hsends.reader, hsends.readyState,
        hsends.live⟩, hupward.resumed⟩,
    ⟨hring, hqueued, h.downward.received, h.downward.taken.trans hmore, fun hopen => ?_,
      fun hopen hconn' hdownLive => ?_, fun hopen received hin => ?_, h.downward.asked⟩⟩
  · change w.processed ++ bodies ((w.set k s).sockets w.client.current).down <+: _
    by_cases hk : w.client.current = k
    · rw [hk, hself]
      rcases hdown with ⟨hdown, -⟩ | ⟨hdown, hdownLive⟩
      · rw [hdown, ← hk]
        exact (h.downward.within hopen).trans hmore
      · exact ⟨[], (List.append_nil _).trans (hall hopen hk hdownLive hdown)⟩
    · rw [w.set_of_ne hk]
      exact (h.downward.within hopen).trans hmore
  · have hk : w.client.current = k := Option.some.inj (hconn'.symm.trans hconn)
    change ((w.set k s).sockets w.client.current).downLive = true at hdownLive
    change w.processed ++ bodies ((w.set k s).sockets w.client.current).down = _
    rw [hk, hself] at hdownLive ⊢
    rcases hdown with ⟨-, hdead⟩ | ⟨hdown, hdownLive⟩
    · exact absurd hdownLive hdead
    · exact hall hopen hk hdownLive hdown
  · change _ ∈ ((w.set k s).sockets w.client.current).up at hin
    by_cases hk : w.client.current = k
    · rw [hk, hself, hup, ← hk] at hin
      exact h.downward.hello hopen received hin
    · rw [w.set_of_ne hk] at hin
      exact h.downward.hello hopen received hin

theorem World.Inv.write (h : w.Inv written) {ok : Bool} (hstep : w.write ok = some v) :
    ∃ written', v.Inv written' := by
  unfold World.write at hstep
  split at hstep
  · cases hstep
  rename_i frame writeCh hwriteCh
  obtain ⟨hqueued, hacks⟩ := h.downward.queued
  rw [hwriteCh] at hqueued hacks
  have hqueued' : w.queued = written ++ bodies [frame] ++ bodies writeCh ∧
      ∀ ack, .resumed ack ∉ writeCh := by
    refine ⟨?_, fun ack hin => hacks ack (List.mem_cons_of_mem _ hin)⟩
    rw [hqueued, ← List.singleton_append, bodies_append, List.append_assoc]
  have hring : ReplayRing.Keeps List.length (match frame with
      | .msg b => w.server.ring.push List.length b
      | _ => w.server.ring) (written ++ bodies [frame]) := by
    cases frame with
    | msg b => exact h.downward.ring.push b
    | _ => exact (List.append_nil written).symm ▸ h.downward.ring
  refine ⟨written ++ bodies [frame], ?_⟩
  dsimp only at hstep
  split at hstep
  · rename_i hconn
    cases hstep
    have hkept := h.kept hring (List.prefix_append ..) hqueued'
    rw [← hconn] at hkept
    exact hkept
  · rename_i k hconn
    split at hstep
    · cases hstep
      exact h.wrote hconn (fun ack heq => hacks ack (heq ▸ List.mem_cons_self ..)) hring hqueued'
    · cases hstep
      exact (h.shut (some k)).kept hring (List.prefix_append ..) hqueued'

theorem World.Inv.expire (h : w.Inv written) :
    World.Inv { w with server := { w.server with ended := true } } written :=
  ⟨⟨h.placed.socket, h.placed.unmade, h.placed.current, h.placed.action, h.placed.actions,
      h.placed.settled, h.placed.quiet, h.placed.attached, h.placed.conn, h.placed.gens,
      h.placed.results⟩,
    ⟨h.upward.log, h.upward.received, h.upward.within, fun hsends => h.upward.complete
      ⟨hsends.closed, hsends.resuming, hsends.current, hsends.reader, hsends.readyState,
        hsends.live⟩, h.upward.resumed⟩,
    ⟨h.downward.ring, h.downward.queued, h.downward.received, h.downward.taken,
      h.downward.within, h.downward.complete, h.downward.hello, h.downward.asked⟩⟩

theorem World.Inv.step {decodes : Bytes → Bool} (h : w.Inv written) {a : Label}
    (hstep : Resume.step decodes w a = some v) : ∃ written', v.Inv written' := by
  cases a with
  | send text => exact ⟨written, h.send hstep⟩
  | resume giveUp =>
      simp only [Resume.step] at hstep
      split at hstep
      · cases hstep
        exact ⟨written, h.resume giveUp⟩
      · cases hstep
  | onopen k => exact ⟨written, h.onopen hstep⟩
  | onclose k code => exact ⟨written, h.onclose hstep⟩
  | onmessage k => exact ⟨written, h.onmessage hstep⟩
  | close =>
      cases hstep
      exact ⟨written, h.gone⟩
  | serve k network ok => exact ⟨written, h.serve hstep⟩
  | read k => exact ⟨written, h.read hstep⟩
  | fail k normal => exact ⟨written, h.fail hstep⟩
  | handle => exact ⟨written, h.handle hstep⟩
  | attach => exact ⟨written, h.attach hstep⟩
  | queue b => exact ⟨written, h.queue hstep⟩
  | write ok => exact h.write hstep
  | expire =>
      cases hstep
      exact ⟨written, h.expire⟩
  | loseUp k n =>
      cases hstep
      exact ⟨written, h.lose k (List.take_prefix ..) (List.prefix_refl _) nofun
        (fun hlive => ⟨hlive, rfl⟩) (Or.inl rfl)⟩
  | loseDown k n =>
      cases hstep
      exact ⟨written, h.lose k (List.prefix_refl _) (List.take_prefix ..)
        (fun hlive => ⟨hlive, rfl⟩) nofun (Or.inl rfl)⟩

theorem World.Inv.init (network : Bool) : (begun network).Inv [] := by
  have hzero : (begun network).sockets 0 = { readyState := .opened, reader := .running 0 } := rfl
  have hother {k : ℕ} (hk : k ≠ 0) : (begun network).sockets k = {} := if_neg hk
  have hattached : ¬ ((begun network).sockets 0).Unattached := not_unattached_of_running rfl
  refine ⟨⟨fun k => ?_, fun k hk => ?_, Nat.zero_lt_one, nofun, List.nodup_nil, fun _ _ => hattached,
      nofun, hattached, fun k hk => ?_, fun k gen hgen => ?_, nofun⟩,
    ⟨.empty, rfl, List.prefix_refl _, fun _ => rfl, nofun⟩,
    ⟨.empty, ?_, rfl, List.prefix_refl _, fun _ => List.prefix_refl _, fun _ _ _ => rfl, nofun, nofun⟩⟩
  · by_cases hk : k = 0
    · subst hk
      exact .of_attached hattached nofun nofun
    · rw [hother hk]
      exact ⟨fun _ => ⟨rfl, rfl, nofun⟩, nofun, fun _ => ⟨rfl, rfl⟩⟩
  · rw [hother (Nat.ne_of_gt hk)]
  · obtain rfl := Option.some.inj hk
    exact hattached
  · by_cases hk : k = 0
    · subst hk
      cases hgen
      exact ⟨Nat.le_refl _, fun _ => rfl⟩
    · rw [hother hk] at hgen
      cases hgen
  · cases network <;> exact ⟨rfl, by simp [begun]⟩

theorem inv_of_reachable {decodes : Bytes → Bool} (h : Reachable (session decodes) Always w) :
    ∃ written, w.Inv written := by
  induction h with
  | init hinit =>
      obtain ⟨network, rfl⟩ := hinit
      exact ⟨[], .init network⟩
  | step _ _ hstep ih =>
      obtain ⟨written, hinv⟩ := ih
      exact hinv.step hstep

/-- However often the session is resumed, and whatever comes late, the server has handled the first
of the messages that the client has sent, and the client has processed the first of those that the
server has queued. -/
theorem prefixes_of_reachable {decodes : Bytes → Bool} (h : Reachable (session decodes) Always w) :
    w.handled <+: w.sentMessages ∧ w.processed <+: w.queued := by
  obtain ⟨written, hinv⟩ := inv_of_reachable h
  refine ⟨(List.prefix_append w.handled w.coming).trans hinv.upward.within,
    hinv.downward.taken.trans ?_⟩
  rw [hinv.downward.queued.1]
  exact List.prefix_append ..

/-- The first socket dies with a message on it, and another one is queued meanwhile. -/
def lossy : List Label :=
  [.write true, .write true, .onmessage 0, .onmessage 0, .send [123, 125], .loseUp 0 0,
    .queue [123, 125], .onclose 0 1006, .write true, .onopen 1, .serve 1 false true, .attach,
    .onmessage 1, .onmessage 1, .onmessage 1, .read 1, .handle]

theorem prefixes_lossy : ∃ w,
    (session (· = [123, 125])).exec Always (begun false) lossy = some w ∧
      (w.handled = [[123, 125]] ∧ w.processed = [[123, 125]]) ∧
        w.handled <+: w.sentMessages ∧ w.processed <+: w.queued := by
  obtain ⟨w, hw, hhandled⟩ : ∃ w ∈ (session (· = [123, 125])).exec Always (begun false) lossy,
      w.handled = [[123, 125]] ∧ w.processed = [[123, 125]] := by decide +kernel
  exact ⟨w, hw, hhandled, prefixes_of_reachable (.exec (.init ⟨false, rfl⟩) hw)⟩

end Invariant

end Sozvon.Resume
