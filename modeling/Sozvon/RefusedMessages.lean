import Sozvon.ExactlyOnce

/-!
# Messages that no reader can read

A reader that is given a message longer than the limit, or one that it cannot decode,
fails as it does when the connection is lost. The session waits for the client to
resume it, and what the client then sends again begins with the same message.
-/
namespace Sozvon.Resume
open Runs Utf16

section Definitions

/-- Number and text of the messages on their way. -/
def offers (up : List Up) : List (ℕ × Units) := up.filterMap fun
  | .msg number text => some (number, text)
  | .hello _ => none

/-- The numbers of those that cannot be read. -/
def culprits (decodes : Bytes → Bool) (up : List Up) : List ℕ :=
  ((offers up).filter fun m => ¬ Readable decodes m.2).map Prod.fst

/-- No message is refused twice, and none that was refused is on its way to a reader again. -/
structure World.RefusedOnce (w : World) : Prop where
  once : (w.refused.map Prod.snd).Nodup
  dropped : ∀ r ∈ w.refused, ∀ k text, (r.2, text) ∉ offers (w.sockets k).up

/-- What the client sends again when it reads the next message of a socket, with the numbers. -/
def World.resent (w : World) (k : ℕ) : List (Units × ℕ) :=
  match (w.sockets k).down with
  | .resumed ack :: _ =>
      if w.client.closed = true ∨ k ≠ w.client.current ∨ w.client.resuming = false then []
      else ((w.client.sentLog.after ack).getD []).zipIdx (ack + 1)
  | _ => []

/-- No reader has refused the message, and it is on its way to none. -/
def World.Lost (w : World) (number : ℕ) : Prop :=
  number ∉ w.refused.map Prod.snd ∧
    ∀ k < w.next, number ∉ (offers (w.sockets k).up).map Prod.fst

/-- No message is sent again that cannot be read, unless it had been lost. -/
def Resends (decodes : Bytes → Bool) (w : World) : Label → Prop
  | .onmessage k => ∀ m ∈ w.resent k, Readable decodes m.1 ∨ w.Lost m.2
  | _ => True

structure World.Numbered (decodes : Bytes → Bool) (w : World) : Prop where
  number : ∀ k number text, (number, text) ∈ offers (w.sockets k).up →
    0 < number ∧ w.sentMessages[number - 1]? = some text
  nodup : ∀ k, (culprits decodes (w.sockets k).up).Nodup
  apart : ∀ j k number, number ∈ culprits decodes (w.sockets j).up →
    number ∈ culprits decodes (w.sockets k).up → j = k
  refused : ∀ r ∈ w.refused, (∃ text, w.sentMessages[r.2 - 1]? = some text ∧ ¬ Readable decodes text) ∧
    ∀ k, r.2 ∉ culprits decodes (w.sockets k).up
  once : (w.refused.map Prod.snd).Nodup

/-- The messages on their way are less than before, and none is refused. -/
structure World.Lessens (w v : World) : Prop where
  offers : ∀ k, (offers (v.sockets k).up).Sublist (offers (w.sockets k).up)
  refused : v.refused = w.refused
  sentMessages : v.sentMessages = w.sentMessages

end Definitions

section Theorems

variable {decodes : Bytes → Bool} {w v : World} {k : ℕ} {s : Socket}

theorem offers_append (a b : List Up) : offers (a ++ b) = offers a ++ offers b :=
  List.filterMap_append

theorem mem_offers_numbered {l : List Units} {n number : ℕ} {text : Units} :
    (number, text) ∈ offers ((l.zipIdx n).map fun (text, number) => Up.msg number text) ↔
      n ≤ number ∧ l[number - n]? = some text := by
  rw [← List.mk_mem_zipIdx_iff_le_and_getElem?_sub]
  simp [offers]

/-- Messages with numbers one after the other have different numbers. -/
theorem nodup_culprits_numbered (l : List Units) (n : ℕ) :
    (culprits decodes ((l.zipIdx n).map fun (text, number) => Up.msg number text)).Nodup := by
  have hoffers : offers ((l.zipIdx n).map fun (text, number) => Up.msg number text) =
      (l.zipIdx n).map fun m => (m.2, m.1) := by
    rw [offers, List.filterMap_map, ← List.filterMap_eq_map]
    rfl
  have hnumbers : ((l.zipIdx n).map fun m => (m.2, m.1)).map Prod.fst =
      List.range' n l.length := by
    rw [List.map_map]
    exact List.zipIdx_map_snd n l
  rw [culprits, hoffers]
  exact (hnumbers ▸ List.nodup_range').sublist (List.filter_sublist.map Prod.fst)

theorem culprits_append (a b : List Up) :
    culprits decodes (a ++ b) = culprits decodes a ++ culprits decodes b := by
  rw [culprits, offers_append, List.filter_append, List.map_append]
  rfl

theorem mem_culprits {up : List Up} {number : ℕ} :
    number ∈ culprits decodes up ↔
      ∃ text, (number, text) ∈ offers up ∧ ¬ Readable decodes text := by
  simp [culprits]

theorem culprits_sublist {a b : List Up} (h : (offers a).Sublist (offers b)) :
    (culprits decodes a).Sublist (culprits decodes b) := (h.filter _).map _

theorem World.Numbered.refusedOnce (h : w.Numbered decodes) : w.RefusedOnce := by
  refine ⟨h.once, fun r hr k text hin => ?_⟩
  obtain ⟨⟨refused, hrefused, hculprit⟩, habsent⟩ := h.refused r hr
  obtain ⟨-, htext⟩ := h.number k r.2 text hin
  obtain rfl := Option.some.inj (hrefused.symm.trans htext)
  exact habsent k (mem_culprits.mpr ⟨refused, hin, hculprit⟩)

theorem World.Numbered.lessen (h : w.Numbered decodes) (hv : w.Lessens v) : v.Numbered decodes := by
  have hsub (k : ℕ) : (culprits decodes (v.sockets k).up).Sublist
      (culprits decodes (w.sockets k).up) := culprits_sublist (hv.offers k)
  refine ⟨fun k number text hin => ?_, fun k => (h.nodup k).sublist (hsub k),
    fun j k number hj hk => h.apart j k number ((hsub j).subset hj) ((hsub k).subset hk),
    fun r hr => ?_, hv.refused ▸ h.once⟩
  · rw [hv.sentMessages]
    exact h.number k number text ((hv.offers k).subset hin)
  · rw [hv.sentMessages]
    obtain ⟨hrefused, habsent⟩ := h.refused r (hv.refused ▸ hr)
    exact ⟨hrefused, fun k hin => habsent k ((hsub k).subset hin)⟩

theorem World.Lessens.refl (w : World) : w.Lessens w := ⟨fun _ => List.Sublist.refl _, rfl, rfl⟩

theorem World.Lessens.trans {u : World} (h : w.Lessens v) (h' : v.Lessens u) : w.Lessens u :=
  ⟨fun k => (h'.offers k).trans (h.offers k), h'.refused.trans h.refused,
    h'.sentMessages.trans h.sentMessages⟩

theorem World.Lessens.set (h : (Resume.offers s.up).Sublist (Resume.offers (w.sockets k).up)) :
    w.Lessens (w.set k s) := by
  refine ⟨fun j => ?_, rfl, rfl⟩
  by_cases hj : j = k
  · rw [hj, w.set_self]
    exact h
  · rw [w.set_of_ne hj]

theorem World.Lessens.shut (w : World) (conn : Option ℕ) : w.Lessens (w.shut conn) := by
  cases conn with
  | none => exact .refl w
  | some k => exact .set (List.Sublist.refl _)

theorem World.Lessens.resume (w : World) (giveUp : Bool) : w.Lessens (w.resume giveUp) := by
  unfold World.resume
  dsimp only
  split
  · exact .refl w
  have hset : w.Lessens (w.set w.client.current
      { w.sockets w.client.current with readyState := .closed }) := .set (List.Sublist.refl _)
  split
  · exact ⟨hset.offers, hset.refused, hset.sentMessages⟩
  · exact ⟨hset.offers, hset.refused, hset.sentMessages⟩

theorem World.Lessens.onopen (h : w.onopen k = some v) : w.Lessens v := by
  unfold World.onopen at h
  dsimp only at h
  split at h
  · cases h
  split at h
  · cases h
    exact .set (List.Sublist.refl _)
  · cases h
    refine .set ?_
    rcases Socket.send_cases { w.sockets k with readyState := .opened }
      [.hello w.client.received] with ⟨hs, -⟩ | ⟨hs, -⟩
    · rw [hs]
    · rw [hs, offers_append]
      exact (List.append_nil _).symm ▸ List.Sublist.refl _

theorem World.Lessens.onclose {code : ℕ} (h : w.onclose k code = some v) : w.Lessens v := by
  unfold World.onclose at h
  dsimp only at h
  split at h
  · cases h
  have hset : w.Lessens (w.set k { w.sockets k with readyState := .closed }) :=
    .set (List.Sublist.refl _)
  split at h
  · cases h
    exact hset
  split at h
  · cases h
    exact hset
  split at h
  · cases h
    exact hset.trans (.resume _ false)
  · cases h
    exact ⟨hset.offers, hset.refused, hset.sentMessages⟩

theorem World.Lessens.serve {network written : Bool} (h : w.serve k network written = some v) :
    w.Lessens v := by
  unfold World.serve at h
  dsimp only at h
  split at h
  · rename_i received rest hreader hup
    have hrest : (Resume.offers rest).Sublist (Resume.offers (w.sockets k).up) := by
      rw [hup]
      exact List.Sublist.refl _
    split at h
    · cases h
      exact .set hrest
    · cases h
      have hset : w.Lessens (w.set k { Socket.write { w.sockets k with up := rest }
          (.handshake :: if network then [.network] else []) with reader := .waiting }) := by
        refine .set ?_
        rcases Socket.write_cases { w.sockets k with up := rest }
          (.handshake :: if network then [.network] else []) with ⟨hs, -⟩ | ⟨hs, -⟩ <;> rw [hs] <;>
          exact hrest
      exact ⟨hset.offers, hset.refused, hset.sentMessages⟩
  · cases h

theorem World.Lessens.fail {normal : Bool} (h : w.fail k normal = some v) : w.Lessens v := by
  unfold World.fail at h
  dsimp only at h
  split at h
  · cases h
    have hset : w.Lessens (w.set k { w.sockets k with reader := .stopped }) :=
      .set (List.Sublist.refl _)
    exact ⟨hset.offers, hset.refused, hset.sentMessages⟩
  · cases h

theorem World.Lessens.handle (h : w.handle = some v) : w.Lessens v := by
  have hsame := Lessens.refl w
  unfold World.handle at h
  split at h
  · cases h
  split at h
  · cases h
  dsimp only at h
  split at h
  · cases h
    exact ⟨hsame.offers, rfl, rfl⟩
  split at h
  · split at h <;> cases h <;> exact ⟨hsame.offers, rfl, rfl⟩
  · cases h
    exact ⟨hsame.offers, rfl, rfl⟩

theorem World.Lessens.attach (h : w.attach = some v) : w.Lessens v := by
  unfold World.attach at h
  split at h
  · cases h
  split at h
  · cases h
  rename_i a actions hactions
  dsimp only at h
  split at h
  · cases h
    have hset : w.Lessens (w.set a.conn { (w.sockets a.conn).shut with reader := .stopped }) :=
      .set (List.Sublist.refl _)
    exact ⟨hset.offers, hset.refused, hset.sentMessages⟩
  · rename_i msgs hmsgs
    cases h
    have hshut := Lessens.shut w w.server.conn
    generalize w.shut w.server.conn = u at hshut
    have hset : u.Lessens (u.set a.conn { (u.sockets a.conn).write
        (.resumed w.server.received :: msgs.map .msg) with
          reader := .running (w.server.gen + 1) }) := by
      refine .set ?_
      rcases (u.sockets a.conn).write_cases (.resumed w.server.received :: msgs.map .msg) with
        ⟨hs, -⟩ | ⟨hs, -⟩ <;> rw [hs]
    have hboth := hshut.trans hset
    exact ⟨hboth.offers, hboth.refused, hboth.sentMessages⟩

theorem World.Lessens.write {written : Bool} (h : w.write written = some v) : w.Lessens v := by
  have hsame := Lessens.refl w
  unfold World.write at h
  split at h
  · cases h
  rename_i frame writeCh hwriteCh
  dsimp only at h
  split at h
  · cases h
    exact ⟨hsame.offers, rfl, rfl⟩
  rename_i j hconn
  split at h
  · cases h
    have hset : w.Lessens (w.set j ((w.sockets j).write [frame])) := by
      refine .set ?_
      rcases (w.sockets j).write_cases [frame] with ⟨hs, -⟩ | ⟨hs, -⟩ <;> rw [hs]
    exact ⟨hset.offers, hset.refused, hset.sentMessages⟩
  · cases h
    have hshut := Lessens.shut w (some j)
    exact ⟨hshut.offers, hshut.refused, hshut.sentMessages⟩

/-! ## What goes out -/

theorem World.Numbered.extend (h : w.Numbered decodes) (hsockets : v.sockets = w.sockets)
    (hrefused : v.refused = w.refused) (hmore : w.sentMessages <+: v.sentMessages) :
    v.Numbered decodes := by
  have hkept {i : ℕ} {text : Units} (hi : w.sentMessages[i]? = some text) :
      v.sentMessages[i]? = some text := by
    obtain ⟨more, hv⟩ := hmore
    rw [← hv, List.getElem?_append_left (List.getElem?_eq_some_iff.mp hi).choose]
    exact hi
  refine ⟨fun k number text hin => ?_, hsockets ▸ h.nodup, hsockets ▸ h.apart, fun r hr => ?_,
    hrefused ▸ h.once⟩
  · obtain ⟨hpos, htext⟩ := h.number k number text (hsockets ▸ hin)
    exact ⟨hpos, hkept htext⟩
  · obtain ⟨⟨text, htext, hculprit⟩, habsent⟩ := h.refused r (hrefused ▸ hr)
    exact ⟨⟨text, hkept htext, hculprit⟩, hsockets ▸ habsent⟩

/-- The client sends, and what cannot be read is new. -/
theorem World.Numbered.sent (h : w.Numbered decodes) (k : ℕ) {frames : List Up}
    (hnumber : ∀ number text, (number, text) ∈ offers frames →
      0 < number ∧ w.sentMessages[number - 1]? = some text)
    (hnodup : (culprits decodes frames).Nodup)
    (hnew : ∀ number ∈ culprits decodes frames,
      (∀ j, number ∉ culprits decodes (w.sockets j).up) ∧ number ∉ w.refused.map Prod.snd) :
    (w.set k ((w.sockets k).send frames)).Numbered decodes := by
  rcases (w.sockets k).send_cases frames with ⟨hsame, -⟩ | ⟨hsent, -⟩
  · rw [hsame]
    exact h.lessen (.set (List.Sublist.refl _))
  rw [hsent]
  generalize hs : ({ w.sockets k with up := (w.sockets k).up ++ frames } : Socket) = s
  have hup : s.up = (w.sockets k).up ++ frames := by rw [← hs]
  have hself := w.set_self k s
  have hother {j : ℕ} (hj : j ≠ k) := w.set_of_ne hj s
  -- a culprit on a socket was there before, or it is new and on this one
  have hcases {j number : ℕ} (hin : number ∈ culprits decodes ((w.set k s).sockets j).up) :
      number ∈ culprits decodes (w.sockets j).up ∨ number ∈ culprits decodes frames ∧ j = k := by
    by_cases hj : j = k
    · rw [hj, hself, hup, culprits_append] at hin
      rcases List.mem_append.mp hin with hin | hin
      · exact Or.inl (hj ▸ hin)
      · exact Or.inr ⟨hin, hj⟩
    · rw [hother hj] at hin
      exact Or.inl hin
  refine ⟨fun j number text hin => ?_, fun j => ?_, fun i j number hi hj => ?_, fun r hr => ?_, h.once⟩
  · by_cases hj : j = k
    · rw [hj, hself, hup, offers_append] at hin
      rcases List.mem_append.mp hin with hin | hin
      · exact h.number k number text hin
      · exact hnumber number text hin
    · rw [hother hj] at hin
      exact h.number j number text hin
  · by_cases hj : j = k
    · rw [hj, hself, hup, culprits_append]
      refine List.nodup_append.mpr ⟨h.nodup k, hnodup, fun a ha b hb heq => ?_⟩
      exact (hnew b hb).1 k (heq ▸ ha)
    · rw [hother hj]
      exact h.nodup j
  · rcases hcases hi with hold | ⟨hfresh, rfl⟩
    · rcases hcases hj with hold' | ⟨hfresh, -⟩
      · exact h.apart i j number hold hold'
      · exact absurd hold ((hnew number hfresh).1 i)
    · rcases hcases hj with hold | ⟨-, rfl⟩
      · exact absurd hold ((hnew number hfresh).1 j)
      · rfl
  · obtain ⟨hrefused, habsent⟩ := h.refused r hr
    refine ⟨hrefused, fun j hin => ?_⟩
    rcases hcases hin with hold | ⟨hfresh, -⟩
    · exact habsent j hold
    · exact (hnew r.2 hfresh).2 (List.mem_map_of_mem hr)

theorem World.Numbered.lt_length (h : w.Numbered decodes) {number : ℕ}
    (hin : (∃ j, number ∈ culprits decodes (w.sockets j).up) ∨ number ∈ w.refused.map Prod.snd) :
    number - 1 < w.sentMessages.length := by
  rcases hin with ⟨j, hin⟩ | hin
  · obtain ⟨text, hoffer, -⟩ := mem_culprits.mp hin
    exact (List.getElem?_eq_some_iff.mp (h.number j number text hoffer).2).choose
  · obtain ⟨r, hr, rfl⟩ := List.mem_map.mp hin
    obtain ⟨⟨text, htext, -⟩, -⟩ := h.refused r hr
    exact (List.getElem?_eq_some_iff.mp htext).choose

theorem World.Numbered.send (h : w.Numbered decodes)
    (hcount : w.client.sentLog.count = w.sentMessages.length) {text : Units}
    (hstep : w.send text = some v) : v.Numbered decodes := by
  unfold World.send at hstep
  dsimp only at hstep
  split at hstep
  · cases hstep
  generalize hu : ({ w with
      client := { w.client with sentLog := w.client.sentLog.push List.length text }
      sentMessages := w.sentMessages ++ [text] } : World) = u at hstep
  have hsent : u.sentMessages = w.sentMessages ++ [text] := by rw [← hu]
  have hsockets : u.sockets = w.sockets := by rw [← hu]
  have hrefused : u.refused = w.refused := by rw [← hu]
  have hnumber : (w.client.sentLog.push List.length text).count = w.sentMessages.length + 1 :=
    congrArg (· + 1) hcount
  have hnumbered : u.Numbered decodes :=
    h.extend hsockets hrefused (hsent ▸ List.prefix_append ..)
  split at hstep
  · cases hstep
    exact hnumbered
  cases hstep
  rw [hnumber, ← hsockets]
  refine hnumbered.sent _ (fun number text' hin => ?_) ?_ fun number hin => ?_
  · cases List.mem_singleton.mp hin
    refine ⟨Nat.succ_pos _, ?_⟩
    rw [hsent, Nat.add_sub_cancel, List.getElem?_concat_length]
  · have hone : (culprits decodes [.msg (w.sentMessages.length + 1) text]).length ≤ 1 := by
      rw [culprits, List.length_map]
      exact List.length_filter_le ..
    match culprits decodes [.msg (w.sentMessages.length + 1) text], hone with
    | [], _ => exact List.nodup_nil
    | [number], _ => exact List.nodup_singleton number
  · obtain ⟨text', hoffer, -⟩ := mem_culprits.mp hin
    cases List.mem_singleton.mp hoffer
    have hlt {P : Prop} (hold : (∃ j, w.sentMessages.length + 1 ∈
        culprits decodes (w.sockets j).up) ∨
          w.sentMessages.length + 1 ∈ w.refused.map Prod.snd) : P := by
      have hlt := h.lt_length hold
      omega
    exact ⟨fun j hold => hlt (Or.inl ⟨j, hsockets ▸ hold⟩), fun hold => hlt (Or.inr (hrefused ▸ hold))⟩

theorem World.Numbered.onmessage (h : w.Numbered decodes)
    (hlog : w.client.sentLog.Keeps List.length w.sentMessages)
    (hunmade : ∀ j, w.next ≤ j → (w.sockets j).up = [])
    (hguard : ∀ m ∈ w.resent k, Readable decodes m.1 ∨ w.Lost m.2)
    (hstep : w.onmessage k = some v) : v.Numbered decodes := by
  unfold World.onmessage at hstep
  split at hstep
  · cases hstep
  rename_i frame rest hdown
  dsimp only at hstep
  have hset : w.Lessens (w.set k { w.sockets k with down := rest }) := .set (List.Sublist.refl _)
  split at hstep
  · cases hstep
    exact h.lessen hset
  rename_i hcurrent
  obtain ⟨hopen, hcurrent⟩ := not_or.mp hcurrent
  obtain rfl := not_not.mp hcurrent
  have hread := h.lessen hset
  cases hstep
  cases frame with
  | handshake => exact hread
  | network => exact hread
  | session => exact h.lessen ⟨hset.offers, hset.refused, hset.sentMessages⟩
  | msg b => exact h.lessen ⟨hset.offers, hset.refused, hset.sentMessages⟩
  | resumed ack =>
      simp only [World.gotMessage]
      split
      · exact hread
      rename_i hresuming
      split
      · have hclosed := hset.trans (.set (List.Sublist.refl _) :
          World.Lessens _ (World.set _ w.client.current
            { World.sockets _ w.client.current with readyState := .closed }))
        exact h.lessen ⟨hclosed.offers, hclosed.refused, hclosed.sentMessages⟩
      · rename_i again hagain
        obtain ⟨-, rfl⟩ := hlog.after hagain
        have hresent : w.resent w.client.current = (w.sentMessages.drop ack).zipIdx (ack + 1) := by
          have hagain : w.client.sentLog.after ack = some (w.sentMessages.drop ack) := hagain
          simp only [World.resent, hdown]
          rw [if_neg, hagain]
          · rfl
          · exact fun hor => hor.elim hopen fun hor => hor.elim (fun hne => hne rfl) hresuming
        have hnodup : (culprits decodes (((w.sentMessages.drop ack).zipIdx (ack + 1)).map
            fun (text, number) => Up.msg number text)).Nodup := nodup_culprits_numbered _ _
        have hframes (number : ℕ) (text : Units) :
            (number, text) ∈ offers (((w.sentMessages.drop ack).zipIdx (ack + 1)).map
              fun (text, number) => Up.msg number text) ↔ _ := mem_offers_numbered
        generalize ((w.sentMessages.drop ack).zipIdx (ack + 1)).map
          (fun (text, number) => Up.msg number text) = frames at hframes hnodup ⊢
        have hnumber (number : ℕ) (text : Units) (hin : (number, text) ∈ offers frames) :
            0 < number ∧ w.sentMessages[number - 1]? = some text := by
          obtain ⟨hle, htext⟩ := (hframes number text).mp hin
          refine ⟨by omega, ?_⟩
          rw [List.getElem?_drop] at htext
          rw [← htext]
          congr 1
          omega
        -- what cannot be read is on no other socket, as it had been lost
        have hlost (number : ℕ) (hculprit : number ∈ culprits decodes frames) : w.Lost number := by
          obtain ⟨text, hoffer, hunreadable⟩ := mem_culprits.mp hculprit
          refine (hguard (text, number) ?_).resolve_left hunreadable
          rw [hresent, List.mk_mem_zipIdx_iff_le_and_getElem?_sub]
          exact (hframes number text).mp hoffer
        have habsent (number : ℕ) (hculprit : number ∈ culprits decodes frames) (j : ℕ) :
            number ∉ culprits decodes (w.sockets j).up := fun hin => by
          obtain ⟨text, hoffer, -⟩ := mem_culprits.mp hin
          by_cases hj : j < w.next
          · exact (hlost number hculprit).2 j hj (List.mem_map_of_mem hoffer)
          · rw [hunmade j (Nat.le_of_not_lt hj)] at hoffer
            cases hoffer
        have hsent := hread.sent w.client.current hnumber hnodup fun number hculprit =>
          ⟨fun j hin => habsent number hculprit j
            ((culprits_sublist (hset.offers j)).subset hin), (hlost number hculprit).1⟩
        exact hsent.lessen ⟨fun _ => List.Sublist.refl _, rfl, rfl⟩

/-- A reader refuses a message for the first time. -/
theorem World.Numbered.read (h : w.Numbered decodes) (hstep : w.read decodes k = some v) :
    v.Numbered decodes := by
  unfold World.read at hstep
  dsimp only at hstep
  split at hstep
  · rename_i gen number text rest hreader hup
    have hsub : (offers rest).Sublist (offers (w.sockets k).up) := by
      rw [hup]
      exact List.sublist_cons_self ..
    split at hstep
    · cases hstep
      have hset : w.Lessens (w.set k { w.sockets k with up := rest }) := .set hsub
      exact h.lessen ⟨hset.offers, hset.refused, hset.sentMessages⟩
    · rename_i hunreadable
      cases hstep
      have hset := h.lessen (.set (s := { w.sockets k with up := rest, reader := .stopped }) hsub)
      have hoffer : (number, text) ∈ offers (w.sockets k).up := by
        rw [hup]
        exact List.mem_cons_self ..
      have hculprit : number ∈ culprits decodes (w.sockets k).up :=
        mem_culprits.mpr ⟨text, hoffer, hunreadable⟩
      have hfirst : number ∉ w.refused.map Prod.snd := fun hin => by
        obtain ⟨r, hr, rfl⟩ := List.mem_map.mp hin
        exact (h.refused r hr).2 k hculprit
      have hgone (j : ℕ) : number ∉ culprits decodes
          ((w.set k { w.sockets k with up := rest, reader := .stopped }).sockets j).up := fun hin => by
        by_cases hj : j = k
        · rw [hj, w.set_self] at hin
          have hnodup := h.nodup k
          have hcons : culprits decodes (w.sockets k).up = number :: culprits decodes rest := by
            rw [hup]
            simp [culprits, offers, hunreadable]
          rw [hcons] at hnodup
          exact (List.nodup_cons.mp hnodup).1 hin
        · rw [w.set_of_ne hj] at hin
          exact hj (h.apart j k number hin hculprit)
      refine ⟨hset.number, hset.nodup, hset.apart, fun r hr => ?_, ?_⟩
      · rcases List.mem_append.mp hr with hr | hr
        · exact hset.refused r hr
        · rw [List.mem_singleton.mp hr]
          exact ⟨⟨text, (h.number k number text hoffer).2, hunreadable⟩, hgone⟩
      · rw [List.map_append]
        refine List.nodup_append.mpr ⟨h.once, List.nodup_singleton _, fun a ha b hb heq => ?_⟩
        rw [List.mem_singleton.mp hb] at heq
        have heq : a = number := heq
        exact hfirst (heq ▸ ha)
  · cases hstep

theorem World.Numbered.step {written : List Bytes} (h : w.Numbered decodes) (hinv : w.Inv written)
    {a : Label} (hguard : Resends decodes w a) (hstep : Resume.step decodes w a = some v) :
    v.Numbered decodes := by
  have hsame := Lessens.refl w
  have hlog := hinv.upward.log
  cases a with
  | send text => exact h.send hlog.count hstep
  | resume giveUp =>
      simp only [Resume.step] at hstep
      split at hstep
      · cases hstep
        exact h.lessen (.resume w giveUp)
      · cases hstep
  | onopen k => exact h.lessen (.onopen hstep)
  | onclose k code => exact h.lessen (.onclose hstep)
  | onmessage k =>
      have hunmade (j : ℕ) (hj : w.next ≤ j) : (w.sockets j).up = [] :=
        ((hinv.placed.socket j).connecting (hinv.placed.unmade j hj)).2
      exact h.onmessage hlog hunmade hguard hstep
  | close =>
      cases hstep
      exact h.lessen ⟨hsame.offers, rfl, rfl⟩
  | serve k network ok => exact h.lessen (.serve hstep)
  | read k => exact h.read hstep
  | fail k normal => exact h.lessen (.fail hstep)
  | handle => exact h.lessen (.handle hstep)
  | attach => exact h.lessen (.attach hstep)
  | queue b =>
      simp only [Resume.step, World.queue] at hstep
      split at hstep
      · cases hstep
      · cases hstep
        exact h.lessen ⟨hsame.offers, rfl, rfl⟩
  | write ok => exact h.lessen (.write hstep)
  | expire =>
      cases hstep
      exact h.lessen ⟨hsame.offers, rfl, rfl⟩
  | loseUp k n =>
      cases hstep
      exact h.lessen (.set ((List.take_sublist ..).filterMap _))
  | loseDown k n =>
      cases hstep
      exact h.lessen (.set (List.Sublist.refl _))

theorem World.Numbered.init (network : Bool) : (begun network).Numbered decodes := by
  have hnone (k : ℕ) : ((begun network).sockets k).up = [] := by
    simp only [begun]
    split <;> rfl
  refine ⟨fun k number text hin => ?_, fun k => ?_, fun j k number hin => ?_,
    List.forall_mem_nil _, List.nodup_nil⟩
  · rw [hnone] at hin
    cases hin
  · rw [hnone]
    exact List.nodup_nil
  · rw [hnone] at hin
    cases hin

/-- Where nothing is sent again that cannot be read, unless it had been lost, nothing is refused
again. -/
theorem refusedOnce_of_reachable (h : Reachable (session decodes) (Resends decodes) w) :
    w.RefusedOnce := by
  suffices hnumbered : w.Numbered decodes from hnumbered.refusedOnce
  induction h with
  | init hinit =>
      obtain ⟨network, rfl⟩ := hinit
      exact .init network
  | step hbefore hguard hstep ih =>
      obtain ⟨written, hinv⟩ := inv_of_reachable (hbefore.mono fun _ _ _ => trivial)
      exact ih.step hinv hguard hstep

/-- What cannot be read is lost, and sent again; it is refused once, and the session ends. -/
def ending : List Label :=
  [.write true, .write true, .onmessage 0, .onmessage 0, .send [123, 125], .send [33], .loseUp 0 0,
    .onclose 0 1006, .onopen 1, .serve 1 false true, .attach, .onmessage 1, .onmessage 1,
    .read 1, .read 1, .handle, .handle, .expire]

instance (w : World) : (a : Label) → Decidable (Resends decodes w a)
  | .onmessage k => inferInstanceAs (Decidable (∀ m ∈ w.resent k, Readable decodes m.1 ∨ _ ∧ _))
  | .send _ | .resume _ | .onopen _ | .onclose _ _ | .close | .serve _ _ _ | .read _ | .fail _ _
  | .handle | .attach | .queue _ | .write _ | .expire | .loseUp _ _ | .loseDown _ _ =>
      .isTrue trivial

theorem refusedOnce_ending : ∃ w,
    (session (· = [123, 125])).exec (Resends (· = [123, 125])) (begun false) ending = some w ∧
      (w.handled = [[123, 125]] ∧ w.refused = [(1, 2)]) ∧ w.RefusedOnce := by
  obtain ⟨w, hw, hrefused⟩ : ∃ w ∈ (session (· = [123, 125])).exec (Resends (· = [123, 125]))
      (begun false) ending, w.handled = [[123, 125]] ∧ w.refused = [(1, 2)] := by decide +kernel
  exact ⟨w, hw, hrefused, refusedOnce_of_reachable (.exec (.init ⟨false, rfl⟩) hw)⟩

theorem read_refused {gen number : ℕ} {text : Units} {rest : List Up}
    (hreader : (w.sockets k).reader = .running gen)
    (hup : (w.sockets k).up = .msg number text :: rest) (hunreadable : ¬ Readable decodes text) :
    w.read decodes k = some { w.set k { w.sockets k with up := rest, reader := .stopped } with
      server := { w.server with read := w.server.read ++ [⟨gen, .failed false⟩] }
      refused := w.refused ++ [(k, number)] } := by
  simp only [World.read, hreader, hup, if_neg hunreadable]

/-- A first message that cannot be read is refused, the client resumes the session, and it is
refused again. -/
theorem refused_again {text : Units} (hunreadable : ¬ Readable decodes text) :
    ∃ w, Reachable (session decodes) Always w ∧ w.refused = [(0, 1), (1, 1)] := by
  obtain ⟨u, hu, hreader, hup, v, hv, hreader', hup', hrefused⟩ :
      ∃ u, Reachable (session decodes) Always u ∧
        (u.sockets 0).reader = .running 0 ∧ (u.sockets 0).up = [.msg 1 text] ∧
        ∃ v, (session decodes).exec Always
          { u.set 0 { u.sockets 0 with up := [], reader := .stopped } with
            server := { u.server with read := u.server.read ++ [⟨0, .failed false⟩] }
            refused := u.refused ++ [(0, 1)] }
          [.handle, .onclose 0 1009, .onopen 1, .serve 1 false true, .attach, .onmessage 1,
            .onmessage 1] = some v ∧
          (v.sockets 1).reader = .running 1 ∧ (v.sockets 1).up = [.msg 1 text] ∧
            v.refused = [(0, 1)] := by
    have hbegin : Reachable (session decodes) Always (begun false) := .init ⟨false, rfl⟩
    have hsent : (session decodes).exec Always (begun false)
        [.write true, .write true, .onmessage 0, .onmessage 0, .send text] = some _ := rfl
    exact ⟨_, hbegin.exec hsent, rfl, rfl, _, rfl, rfl, rfl, rfl⟩
  have hfirst : (session decodes).step u (.read 0) = some _ := read_refused hreader hup hunreadable
  have hagain : (session decodes).step v (.read 1) = some _ :=
    read_refused hreader' hup' hunreadable
  have hv' := Reachable.exec (.step hu trivial hfirst) hv
  exact ⟨_, .step hv' trivial hagain, congrArg (· ++ [(1, 1)]) hrefused⟩

/-- A message with a text of a megabyte. -/
def longChat : Units :=
  ofChars ("\x7b\"type\":\"chat\",\"value\":\"".toList ++
    (List.replicate maxWSMessageSize 'a' ++ "\"\x7d".toList))

theorem not_readable_longChat (decodes : Bytes → Bool) : ¬ Readable decodes longChat := by
  intro h
  have hlimit := h.1
  rw [longChat, encode, toChars_ofChars] at hlimit
  have hlength := Nat.le_trans (length_le_utf8 _) hlimit
  rw [List.length_append, List.length_append, List.length_replicate] at hlength
  have hend : "\"\x7d".toList.length = 2 := by decide
  omega

theorem not_refusedOnce : ¬ ∀ (decodes : Bytes → Bool) (w : World),
    Reachable (session decodes) Always w → w.RefusedOnce := by
  intro h
  obtain ⟨w, hw, hrefused⟩ := refused_again (not_readable_longChat (fun _ => true))
  have honce := (h _ w hw).once
  rw [hrefused] at honce
  exact absurd honce (by decide)

end Theorems

end Sozvon.Resume
