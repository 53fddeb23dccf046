import Sozvon.Runs
import Mathlib.Data.List.Basic

/-!
# File transfers

A file goes from one client to the other over a data channel of their own, in pieces. The
receiver counts bytes: with the piece that makes up the size it has the file, says so,
and gives the sender two seconds to close the channel. The sender waits for the word.

The count is looked at when a piece has come, and at no other time.
-/
namespace Sozvon.FileTransfer

open Runs

section Definitions

abbrev Bytes := List UInt8

inductive TransferredFileState where
  | unset
  | inviting
  | connecting
  | connected
  | done
  | cancelled
  | closed
deriving DecidableEq

/-- What an event carries. -/
inductive Detail where
  | nothing
  | blob (data : Bytes)
  | message (text : String)
deriving DecidableEq

/-- What the channel's `close` event does. -/
inductive OnClose where
  | cancel
  /-- It ends the wait after the final handshake. -/
  | resolve
  | null
deriving DecidableEq

/-- The handlers on a side's end of the channel. -/
structure Handlers where
  onmessage : Bool := true
  onclose : OnClose := .cancel
deriving DecidableEq

structure TransferredFile where
  up : Bool
  size : ℕ
  state : TransferredFileState := .connected
  dc : Option Handlers := some {}
  data : List Bytes := []
  datalen : ℕ := 0
  /-- The timer of the final handshake. -/
  timer : Bool := false
  /-- What `onevent` has been called with. -/
  events : List (TransferredFileState × Detail) := []

/-- What a side sends. -/
inductive Out where
  /-- A `cancel` message, by way of the server. -/
  | cancel (message : Option String)
  /-- `'done'` on the channel. -/
  | done

namespace TransferredFile

def event (f : TransferredFile) (state : TransferredFileState) (detail : Detail) :
    TransferredFile :=
  { f with state := state, events := f.events ++ [(state, detail)] }

def setOnmessage (f : TransferredFile) (onmessage : Bool) : TransferredFile :=
  { f with dc := f.dc.map fun handlers : Handlers => { handlers with onmessage := onmessage } }

def setOnclose (f : TransferredFile) (onclose : OnClose) : TransferredFile :=
  { f with dc := f.dc.map fun handlers : Handlers => { handlers with onclose := onclose } }

def close (f : TransferredFile) : TransferredFile :=
  if f.state = .closed then f
  else { f with dc := none, data := [], datalen := 0 }.event .closed .nothing

def detail (message : Option String) : Detail := message.elim .nothing .message

def cancel (f : TransferredFile) (message : Option String) : TransferredFile × List Out :=
  if f.state = .closed then (f, [])
  else
    let out := if f.state ≠ .unset ∧ f.state ≠ .done ∧ f.state ≠ .cancelled then
        [Out.cancel message]
      else []
    let f := if f.state ≠ .done ∧ f.state ≠ .cancelled then f.event .cancelled (detail message)
      else f
    (f.close, out)

def bufferData (f : TransferredFile) (data : Bytes) : Except String TransferredFile :=
  if f.up then .error "Error: buffering data in the wrong direction"
  else .ok { f with datalen := f.datalen + data.length, data := f.data ++ [data] }

def getBufferedData (f : TransferredFile) : Except String (Bytes × TransferredFile) :=
  if f.up then .error "Error: buffering data in wrong direction"
  else
    let blob := f.data.flatten
    if blob.length ≠ f.datalen then .error "Error: Inconsistent data size"
    else .ok (blob, { f with data := [], datalen := 0 })

/-- `receiveData`, and the `cancel` that its rejection ends in. -/
def receiveData (f : TransferredFile) (data : Bytes) : TransferredFile × List Out :=
  if f.up then f.cancel (some "Error: Receiving in wrong direction")
  else
    match f.bufferData data with
    | .error e => f.cancel (some e)
    | .ok f =>
        if f.datalen < f.size then (f.event .connected .nothing, [])
        else
          let f := f.setOnmessage false
          if f.datalen ≠ f.size then f.cancel (some "extra data at end of file")
          else
            match f.getBufferedData with
            | .error e => f.cancel (some e)
            | .ok (blob, f) =>
                if blob.length ≠ f.size then
                  f.cancel (some "inconsistent data size (this shouldn't happen)")
                else
                  let f := (f.event .done (.blob blob)).setOnclose .resolve
                  ({ f with timer := true }, [.done])

/-- The sender's `onmessage` -/
def onReply (f : TransferredFile) (data : String) : TransferredFile × List Out :=
  if data = "done" ∧ f.datalen = f.size then
    (((f.event .done .nothing).setOnclose .null).close, [])
  else f.cancel (some "Error: unexpected data from receiver")

def onclose (f : TransferredFile) : OnClose → TransferredFile × List Out
  | .cancel => f.cancel (some "remote peer closed connection")
  | .resolve => ({ f with timer := false }.close, [])
  | .null => (f, [])

/-- A `cancel` message finds the file under its id until it is closed. -/
def cancelMessage (f : TransferredFile) (message : Option String) : TransferredFile :=
  if f.state = .closed then f else (f.event .cancelled (detail message)).close

/-- The file is in a state, or has been. -/
def Has (f : TransferredFile) (state : TransferredFileState) : Prop :=
  f.state = state ∨ ∃ detail, (state, detail) ∈ f.events

end TransferredFile

def subarray (data : Bytes) (first last : ℕ) : Bytes := (data.take last).drop first

/-- The pieces of a chunk from an index on. -/
def pieces (data : Bytes) (i : ℕ) : List Bytes :=
  if i < data.length then
    subarray data i (min (i + 16384) data.length) :: pieces data (i + 16384)
  else []
termination_by data.length - i
decreasing_by omega

def chop (data : Bytes) : List Bytes :=
  if data.length ≤ 16384 then [data] else pieces data 0

def bufferedAmountLowThreshold : ℕ := 65536

/-- Where `send` is. -/
inductive Loop where
  | running
  /-- In `write`, for the channel to take what it has. -/
  | waiting
  /-- It has returned, or thrown. -/
  | ended
deriving DecidableEq

/-- The two sides and what is between them. -/
structure State where
  sender : TransferredFile
  receiver : TransferredFile
  /-- What the file's reader has not yielded. -/
  reader : List Bytes
  /-- What is not written of the chunk in hand. -/
  pending : List Bytes := []
  loop : Loop := .running
  bufferedAmount : ℕ := 0
  toReceiver : List Bytes := []
  toSender : List String := []
  cancelsToReceiver : List (Option String) := []
  cancelsToSender : List (Option String) := []

inductive Label where
  /-- The sender's loop reads a chunk or writes a piece. -/
  | turn
  /-- Some of what the channel has buffered goes out. -/
  | transport (n : ℕ)
  /-- A piece comes to the receiver. -/
  | deliver
  /-- A message comes to the sender. -/
  | reply
  /-- A channel that a side has closed drops what is on it. -/
  | drop
  /-- A side hears that the other one has closed the channel. -/
  | closed (up : Bool)
  /-- A `cancel` message comes to a side. -/
  | cancelMessage (up : Bool)
  | timeOut
  /-- The user of a side cancels. -/
  | cancel (up : Bool) (message : Option String)
  /-- The file cannot be read. -/
  | readFails (error : String)

namespace State

def file (s : State) (up : Bool) : TransferredFile := if up then s.sender else s.receiver

/-- A side's file is updated and what it sends is on its way. -/
def post (s : State) (up : Bool) (r : TransferredFile × List Out) : State :=
  let s := if up then { s with sender := r.1 } else { s with receiver := r.1 }
  r.2.foldl (fun s out =>
    match out with
    | .cancel message =>
        if up then { s with cancelsToReceiver := s.cancelsToReceiver ++ [message] }
        else { s with cancelsToSender := s.cancelsToSender ++ [message] }
    | .done => { s with toSender := s.toSender ++ ["done"] }) s

/-- One turn of `send`'s loop, or of the loop in `write`. -/
def turn (s : State) : Option State :=
  match s.loop with
  | .waiting | .ended => none
  | .running =>
      match s.pending with
      | [] =>
          match s.reader with
          | [] => some { s with loop := .ended }
          | data :: rest => some { s with reader := rest, pending := chop data }
      | a :: rest =>
          if s.sender.dc = none then
            some ({ s with loop := .ended }.post true
              (s.sender.cancel (some "TypeError")))
          else if s.bufferedAmount > bufferedAmountLowThreshold then
            some { s with loop := .waiting }
          else
            let f := { s.sender with datalen := s.sender.datalen + a.length }
            some { s with
              pending := rest
              toReceiver := s.toReceiver ++ [a]
              bufferedAmount := s.bufferedAmount + a.length
              sender := f.event .connected .nothing }

def transport (s : State) (n : ℕ) : Option State :=
  if s.sender.dc = none ∨ n = 0 ∨ s.bufferedAmount < n then none
  else
    let rest := s.bufferedAmount - n
    let low := s.bufferedAmount > bufferedAmountLowThreshold ∧ rest ≤ bufferedAmountLowThreshold
    some { s with
      bufferedAmount := rest
      loop := if low ∧ s.loop = .waiting then .running else s.loop }

def step (s : State) : Label → Option State
  | .turn => s.turn
  | .transport n => s.transport n
  | .deliver =>
      match s.toReceiver with
      | [] => none
      | data :: rest =>
          if s.receiver.dc.any Handlers.onmessage then
            some ({ s with toReceiver := rest }.post false (s.receiver.receiveData data))
          else some { s with toReceiver := rest }
  | .reply =>
      match s.toSender with
      | [] => none
      | data :: rest =>
          if s.sender.dc.any Handlers.onmessage then
            some ({ s with toSender := rest }.post true (s.sender.onReply data))
          else some { s with toSender := rest }
  | .drop =>
      if s.sender.dc = none ∨ s.receiver.dc = none then
        if s.toReceiver = [] ∧ s.toSender = [] then none
        else some { s with toReceiver := [], toSender := [] }
      else none
  | .closed up =>
      if (s.file (!up)).dc = none then
        (s.file up).dc.map fun handlers => s.post up ((s.file up).onclose handlers.onclose)
      else none
  | .cancelMessage up =>
      match if up then s.cancelsToSender else s.cancelsToReceiver with
      | [] => none
      | message :: rest =>
          let s := if up then { s with cancelsToSender := rest }
            else { s with cancelsToReceiver := rest }
          some (s.post up ((s.file up).cancelMessage message, []))
  | .timeOut =>
      if s.receiver.timer then
        some { s with receiver := { s.receiver with timer := false }.close }
      else none
  | .cancel up message => some (s.post up ((s.file up).cancel message))
  | .readFails error =>
      if s.loop = .running ∧ s.pending = [] then
        some ({ s with loop := .ended }.post true (s.sender.cancel (some error)))
      else none

end State

/-- Two honest sides with the channel open between them. -/
def start (chunks : List Bytes) : State where
  sender := { up := true, size := chunks.flatten.length }
  receiver := { up := false, size := chunks.flatten.length }
  reader := chunks

/-- The transfer of a file that its reader yields in some chunks. -/
def system (chunks : List Bytes) : System State Label where
  init s := s = start chunks
  step := State.step

/-- What takes no user and no fault to happen. -/
def Label.Internal : Label → Prop
  | .cancel .. | .readFails _ => False
  | _ => True

/-- Nothing is left to happen by itself. -/
def Quiescent (s : State) : Prop := ∀ l : Label, l.Internal → s.step l = none

/-- A side that is done knows that the receiver has assembled the file, and no other. -/
def Complete (file : Bytes) (s : State) : Prop :=
  s.sender.Has .done ∨ s.receiver.Has .done →
    (.done, .blob file) ∈ s.receiver.events ∧
      ∀ detail, (.done, detail) ∈ s.receiver.events → detail = .blob file

def Ends (f : TransferredFile) : Prop := f.Has .done ∨ f.Has .cancelled

end Definitions

/-! ## Pieces -/

section Pieces

variable {data : Bytes} {chunks : List Bytes}

theorem flatten_pieces (data : Bytes) (i : ℕ) : (pieces data i).flatten = data.drop i := by
  induction i using pieces.induct data with
  | case1 i hlt ih =>
      have hmin : min (i + 16384) data.length - i = min 16384 (data.length - i) := by omega
      have hdrop : data.drop (i + 16384) = (data.drop i).drop 16384 := by
        rw [List.drop_drop]
      have htake : (data.drop i).take (min 16384 (data.length - i)) =
          (data.drop i).take 16384 := by
        rw [← List.length_drop]
        exact List.take_eq_take_min.symm
      rw [pieces, if_pos hlt, List.flatten_cons, ih, subarray, List.drop_take, hmin, htake, hdrop,
        List.take_append_drop]
  | case2 i hlt =>
      rw [pieces, if_neg hlt, List.flatten_nil, List.drop_eq_nil_of_le (Nat.not_lt.mp hlt)]

theorem flatten_chop (data : Bytes) : (chop data).flatten = data := by
  unfold chop
  split_ifs
  · exact List.flatten_singleton
  · exact flatten_pieces data 0

/-- An empty chunk is a piece as well. -/
theorem chop_ne_nil (data : Bytes) : chop data ≠ [] := by
  unfold chop
  split_ifs with hshort
  · exact List.cons_ne_nil _ _
  · rw [pieces, if_pos (by omega)]
    exact List.cons_ne_nil _ _

theorem flatten_flatMap_chop (chunks : List Bytes) :
    (chunks.flatMap chop).flatten = chunks.flatten := by
  induction chunks with
  | nil => rfl
  | cons data chunks ih =>
      rw [List.flatMap_cons, List.flatten_append, List.flatten_cons, flatten_chop, ih]

theorem flatMap_chop_eq_nil : chunks.flatMap chop = [] ↔ chunks = [] := by
  cases chunks with
  | nil => simp
  | cons data chunks => simp [chop_ne_nil]

end Pieces

/-! ## One side -/

section Sides

variable {f g : TransferredFile} {message : Option String}

namespace TransferredFile

/-- The reports that a side is done. -/
def dones (f : TransferredFile) : List (TransferredFileState × Detail) :=
  f.events.filter fun e => e.1 = .done

/-- The transfer goes on. -/
def Open (f : TransferredFile) : Prop :=
  f.state = .connected ∧ f.dc = some {} ∧ f.timer = false

/-- The receiver has the file, has said so, and waits for the channel to close. -/
def Announced (f : TransferredFile) : Prop :=
  f.state = .done ∧ f.dc = some ⟨false, .resolve⟩ ∧ f.timer = true ∧ f.dones ≠ []

def Gone (f : TransferredFile) : Prop :=
  f.state = .closed ∧ f.dc = none ∧
    (f.dones ≠ [] ∨ ∃ detail, (.cancelled, detail) ∈ f.events)

def Staged (f : TransferredFile) : Prop := f.Open ∨ f.Announced ∨ f.Gone

/-- A side ends without a word more on whether it is done. -/
structure Leaves (f g : TransferredFile) : Prop where
  gone : g.Gone
  up : g.up = f.up
  size : g.size = f.size
  dones : g.dones = f.dones

theorem dones_event (f : TransferredFile) {state : TransferredFileState} (h : state ≠ .done)
    (detail : Detail) : (f.event state detail).dones = f.dones := by
  simp [dones, event, h]

theorem dones_event_done (f : TransferredFile) (detail : Detail) :
    (f.event .done detail).dones = f.dones ++ [(.done, detail)] := by
  simp [dones, event]

theorem leaves_close (h : f.state ≠ .closed)
    (hends : f.dones ≠ [] ∨ ∃ detail, (.cancelled, detail) ∈ f.events) : f.Leaves f.close := by
  have hclose : f.close = { f with dc := none, data := [], datalen := 0 }.event .closed .nothing :=
    if_neg h
  have hdones : f.close.dones = f.dones := by
    rw [hclose, dones_event _ (by decide)]
    rfl
  refine ⟨⟨by rw [hclose]; rfl, by rw [hclose]; rfl, ?_⟩, by rw [hclose]; rfl,
    by rw [hclose]; rfl, hdones⟩
  refine hends.imp (hdones ▸ ·) fun ⟨detail, hmem⟩ => ⟨detail, ?_⟩
  rw [hclose]
  exact List.mem_append_left _ hmem

theorem leaves_cancelled (f : TransferredFile) (detail : Detail) :
    f.Leaves (f.event .cancelled detail).close := by
  have hclose : (f.event .cancelled detail).Leaves (f.event .cancelled detail).close :=
    leaves_close (by simp [event]) (.inr ⟨detail, List.mem_append_right _ (List.mem_singleton_self _)⟩)
  exact ⟨hclose.gone, hclose.up, hclose.size, hclose.dones.trans (dones_event f (by decide) _)⟩

theorem ne_closed (h : f.Open ∨ f.Announced) : f.state ≠ .closed := by
  rcases h with h | h
  · rw [h.1]
    decide
  · rw [h.1]
    decide

theorem not_open (h : f.state ≠ .connected) : ¬ f.Open := fun ho => h ho.1

theorem Announced.not_open (h : f.Announced) : ¬ f.Open :=
  TransferredFile.not_open (by rw [h.1]; decide)

theorem Gone.not_open (h : f.Gone) : ¬ f.Open :=
  TransferredFile.not_open (by rw [h.1]; decide)

theorem Leaves.refl (h : f.Gone) : f.Leaves f := ⟨h, rfl, rfl, rfl⟩

theorem cancel_leaves (h : f.Staged) (message : Option String) :
    f.Leaves (f.cancel message).1 ∧
      ((f.cancel message).2 = [] ∨ ∃ m, (f.cancel message).2 = [.cancel m]) := by
  unfold cancel
  rcases h with h | h | h
  · have hcond : f.state ≠ .done ∧ f.state ≠ .cancelled := by rw [h.1]; decide
    have hsend : f.state ≠ .unset ∧ f.state ≠ .done ∧ f.state ≠ .cancelled := by
      rw [h.1]; decide
    rw [if_neg (ne_closed (.inl h)), if_pos hcond, if_pos hsend]
    exact ⟨leaves_cancelled f _, .inr ⟨message, rfl⟩⟩
  · have hcond : ¬ (f.state ≠ .done ∧ f.state ≠ .cancelled) := by rw [h.1]; decide
    have hsend : ¬ (f.state ≠ .unset ∧ f.state ≠ .done ∧ f.state ≠ .cancelled) := by
      rw [h.1]; decide
    rw [if_neg (ne_closed (.inr h)), if_neg hcond, if_neg hsend]
    exact ⟨leaves_close (ne_closed (.inr h)) (.inl h.2.2.2), .inl rfl⟩
  · rw [if_pos h.1]
    exact ⟨.refl h, .inl rfl⟩

theorem cancelMessage_leaves (h : f.Staged) (message : Option String) :
    f.Leaves (f.cancelMessage message) := by
  unfold cancelMessage
  rcases or_assoc.mpr h with h | h
  · rw [if_neg (ne_closed h)]
    exact leaves_cancelled f _
  · rw [if_pos h.1]
    exact .refl h

theorem timeOut_leaves (h : f.Staged) (hopen : ¬ f.Open) :
    f.Leaves { f with timer := false }.close := by
  rcases h with h | h | h
  · exact absurd h hopen
  · have hne : f.state ≠ .closed := ne_closed (.inr h)
    have hclose := leaves_close (f := { f with timer := false }) hne (.inl h.2.2.2)
    exact ⟨hclose.gone, hclose.up, hclose.size, hclose.dones⟩
  · have hclose : { f with timer := false }.close = { f with timer := false } := if_pos h.1
    rw [hclose]
    exact ⟨h, rfl, rfl, rfl⟩

theorem onclose_leaves {handlers : Handlers} (h : f.Staged) (hdc : f.dc = some handlers) :
    f.Leaves (f.onclose handlers.onclose).1 ∧
      ((f.onclose handlers.onclose).2 = [] ∨ ∃ m, (f.onclose handlers.onclose).2 = [.cancel m]) := by
  have hstaged := h
  rcases h with h | h | h
  · obtain rfl := Option.some.inj (h.2.1.symm.trans hdc)
    exact cancel_leaves hstaged _
  · obtain rfl := Option.some.inj (h.2.1.symm.trans hdc)
    exact ⟨timeOut_leaves hstaged h.not_open, .inl rfl⟩
  · exact absurd (h.2.1.symm.trans hdc) nofun

/-- A piece that is not the last one. -/
theorem receiveData_more {data : Bytes} (hup : f.up = false)
    (hlt : f.datalen + data.length < f.size) : f.receiveData data =
      ({ f with datalen := f.datalen + data.length, data := f.data ++ [data] }.event
        .connected .nothing, []) := by
  unfold receiveData bufferData
  rw [hup]
  simp only [Bool.false_eq_true, if_false]
  rw [if_pos hlt]

/-- The piece with which the receiver has as many bytes as the file. -/
theorem receiveData_last {data : Bytes} (h : f.Open) (hup : f.up = false)
    (hlen : f.datalen = f.data.flatten.length) (heq : f.datalen + data.length = f.size) :
    ∃ g, f.receiveData data = (g, [.done]) ∧ g.Announced ∧ g.up = f.up ∧ g.size = f.size ∧
      g.dones = f.dones ++ [(.done, .blob (f.data ++ [data]).flatten)] := by
  have hlast : (f.data ++ [data]).flatten.length = f.datalen + data.length := by
    rw [List.flatten_append, List.flatten_singleton, List.length_append, hlen]
  have hevent := dones_event_done f (.blob (f.data ++ [data]).flatten)
  have hreceive : f.receiveData data =
      ({ (({ f with data := [], datalen := 0 }.setOnmessage false).event .done
          (.blob (f.data ++ [data]).flatten)).setOnclose .resolve with timer := true },
        [.done]) := by
    unfold receiveData bufferData getBufferedData
    rw [hup]
    simp only [Bool.false_eq_true, if_false, setOnmessage, hlast, heq, Nat.lt_irrefl, ne_eq,
      not_true_eq_false]
  refine ⟨_, hreceive, ⟨rfl, ?_, rfl, ?_⟩, rfl, rfl, hevent⟩
  · simp [setOnclose, setOnmessage, event, h.2.1]
  · have hne : f.dones ++ [(.done, .blob (f.data ++ [data]).flatten)] ≠ [] := by simp
    exact hevent ▸ hne

/-- The word of the receiver, for a sender that has sent the whole file. -/
theorem onReply_done (hlen : f.datalen = f.size) :
    (f.onReply "done").2 = [] ∧ (f.onReply "done").1.Gone ∧
      (f.onReply "done").1.up = f.up ∧ (f.onReply "done").1.size = f.size := by
  unfold onReply
  rw [if_pos ⟨rfl, hlen⟩]
  have hdones : ((f.event .done .nothing).setOnclose .null).dones ≠ [] := by
    have hne : f.dones ++ [(.done, .nothing)] ≠ [] := by simp
    exact (dones_event_done f .nothing) ▸ hne
  have hclose := leaves_close (f := (f.event .done .nothing).setOnclose .null) (by
    simp [event, setOnclose]) (.inl hdones)
  exact ⟨rfl, hclose.gone, hclose.up, hclose.size⟩

end TransferredFile

end Sides

/-! ## Both sides -/

section Transfers

open TransferredFile

variable {chunks : List Bytes} {s t : State} {l : Label}

namespace State

/-- What the sender has not put on the channel. -/
def unsent (s : State) : List Bytes := s.pending ++ s.reader.flatMap chop

/-- What is true of every state. What the receiver has and what is on the channel are what has
been sent, until one of them leaves, and the word that it has the file comes after the last byte.
-/
structure Inv (chunks : List Bytes) (s : State) : Prop where
  up : s.sender.up = true ∧ s.receiver.up = false
  size : s.sender.size = chunks.flatten.length ∧ s.receiver.size = chunks.flatten.length
  sender : s.sender.Open ∨ s.sender.Gone
  receiver : s.receiver.Staged
  stream : s.receiver.Open → ∃ rest, s.receiver.data ++ s.toReceiver ++ rest = chunks.flatMap chop ∧
    (s.sender.Open → rest = s.unsent)
  counted : s.receiver.Open → s.receiver.datalen = s.receiver.data.flatten.length ∧
    (s.receiver.datalen < chunks.flatten.length ∨ s.receiver.data = [])
  sent : s.sender.Open → s.sender.datalen + s.unsent.flatten.length = chunks.flatten.length
  reply : ∀ m ∈ s.toSender, m = "done" ∧ s.receiver.dones ≠ [] ∧
    (s.sender.Open → s.sender.datalen = chunks.flatten.length)
  blobs : ∀ e ∈ s.receiver.dones, e = (.done, .blob chunks.flatten)
  told : s.sender.dones ≠ [] → s.receiver.dones ≠ []
  waiting : s.loop = .waiting → bufferedAmountLowThreshold < s.bufferedAmount
  ended : s.sender.Open → s.loop = .ended → s.unsent = []

theorem inv_start (chunks : List Bytes) : Inv chunks (start chunks) where
  up := ⟨rfl, rfl⟩
  size := ⟨rfl, rfl⟩
  sender := .inl ⟨rfl, rfl, rfl⟩
  receiver := .inl ⟨rfl, rfl, rfl⟩
  stream _ := ⟨_, rfl, fun _ => rfl⟩
  counted _ := ⟨rfl, .inr rfl⟩
  sent _ := by
    have hunsent : (start chunks).unsent = chunks.flatMap chop := rfl
    rw [hunsent, flatten_flatMap_chop]
    exact Nat.zero_add _
  reply := List.forall_mem_nil _
  blobs := List.forall_mem_nil _
  told := id
  waiting := nofun
  ended _ := nofun

/-- A sender that leaves, having said that it is done only if it has been told so. -/
theorem Inv.sender_gone (h : Inv chunks s) {f : TransferredFile} {loop : Loop} (hgone : f.Gone)
    (hup : f.up = s.sender.up) (hsize : f.size = s.sender.size)
    (hdones : f.dones = s.sender.dones ∨ s.receiver.dones ≠ [])
    (hloop : loop = s.loop ∨ loop = .ended) {toSender : List String}
    (hto : ∀ m ∈ toSender, m ∈ s.toSender) :
    Inv chunks { s with sender := f, loop := loop, toSender := toSender } where
  up := ⟨hup.trans h.up.1, h.up.2⟩
  size := ⟨hsize.trans h.size.1, h.size.2⟩
  sender := .inr hgone
  receiver := h.receiver
  stream hopen :=
    let ⟨rest, hrest, _⟩ := h.stream hopen
    ⟨rest, hrest, fun ho => absurd ho hgone.not_open⟩
  counted := h.counted
  sent ho := absurd ho hgone.not_open
  reply m hm :=
    ⟨(h.reply m (hto m hm)).1, (h.reply m (hto m hm)).2.1,
      fun ho => absurd ho hgone.not_open⟩
  blobs := h.blobs
  told hne := hdones.elim (fun hsame => h.told (hsame ▸ hne)) id
  waiting hw := hloop.elim (fun hsame => h.waiting (hsame.symm.trans hw)) fun hended =>
    absurd (hended.symm.trans hw) nofun
  ended ho := absurd ho hgone.not_open

/-- A receiver that leaves. What is on the channel to it no longer matters. -/
theorem Inv.receiver_gone (h : Inv chunks s) {f : TransferredFile} (hl : s.receiver.Leaves f)
    (toReceiver : List Bytes) :
    Inv chunks { s with receiver := f, toReceiver := toReceiver } where
  up := ⟨h.up.1, hl.up.trans h.up.2⟩
  size := ⟨h.size.1, hl.size.trans h.size.2⟩
  sender := h.sender
  receiver := .inr (.inr hl.gone)
  stream ho := absurd ho hl.gone.not_open
  counted ho := absurd ho hl.gone.not_open
  sent := h.sent
  reply m hm := ⟨(h.reply m hm).1, hl.dones ▸ (h.reply m hm).2.1, (h.reply m hm).2.2⟩
  blobs := hl.dones ▸ h.blobs
  told hne := hl.dones ▸ h.told hne
  waiting := h.waiting
  ended := h.ended

theorem Inv.cancels (h : Inv chunks s) (toReceiver toSender : List (Option String)) :
    Inv chunks { s with cancelsToReceiver := toReceiver, cancelsToSender := toSender } :=
  ⟨h.up, h.size, h.sender, h.receiver, h.stream, h.counted, h.sent, h.reply, h.blobs, h.told,
    h.waiting, h.ended⟩

theorem Inv.staged (h : Inv chunks s) (up : Bool) : (s.file up).Staged := by
  cases up with
  | true => exact h.sender.imp_right .inr
  | false => exact h.receiver

theorem post_eq (s : State) (up : Bool) {r : TransferredFile × List Out}
    (hout : r.2 = [] ∨ ∃ m, r.2 = [.cancel m]) :
    ∃ c c', s.post up r = { (if up then { s with sender := r.1 } else { s with receiver := r.1 }) with
      cancelsToReceiver := c, cancelsToSender := c' } := by
  unfold post
  rcases hout with hout | ⟨m, hout⟩
  · rw [hout]
    cases up with
    | true => exact ⟨_, _, rfl⟩
    | false => exact ⟨_, _, rfl⟩
  · rw [hout]
    cases up with
    | true => exact ⟨_, _, rfl⟩
    | false => exact ⟨_, _, rfl⟩

theorem Inv.post_sender (h : Inv chunks s) {r : TransferredFile × List Out} {loop : Loop}
    (hl : s.sender.Leaves r.1) (hout : r.2 = [] ∨ ∃ m, r.2 = [.cancel m])
    (hloop : loop = s.loop ∨ loop = .ended) :
    Inv chunks ({ s with loop := loop }.post true r) := by
  obtain ⟨c, c', hpost⟩ := post_eq { s with loop := loop } true hout
  rw [hpost]
  exact (h.sender_gone hl.gone hl.up hl.size (.inl hl.dones) hloop fun _ => id).cancels c c'

theorem Inv.post (h : Inv chunks s) (up : Bool) {r : TransferredFile × List Out}
    (hl : (s.file up).Leaves r.1) (hout : r.2 = [] ∨ ∃ m, r.2 = [.cancel m]) :
    Inv chunks (s.post up r) := by
  cases up with
  | true => exact h.post_sender hl hout (.inl rfl)
  | false =>
      obtain ⟨c, c', hpost⟩ := post_eq s false hout
      rw [hpost]
      exact (h.receiver_gone hl s.toReceiver).cancels c c'

/-- The loop goes on, with as much to send as before. -/
theorem Inv.looped (h : Inv chunks s) {reader pending : List Bytes} {loop : Loop}
    {bufferedAmount : ℕ} (hunsent : pending ++ reader.flatMap chop = s.unsent)
    (hwaiting : loop = .waiting → bufferedAmountLowThreshold < bufferedAmount)
    (hended : s.sender.Open → loop = .ended → s.unsent = []) :
    Inv chunks { s with
      reader := reader, pending := pending, loop := loop, bufferedAmount := bufferedAmount } where
  up := h.up
  size := h.size
  sender := h.sender
  receiver := h.receiver
  stream hopen :=
    let ⟨rest, hrest, hsame⟩ := h.stream hopen
    ⟨rest, hrest, fun ho => (hsame ho).trans hunsent.symm⟩
  counted := h.counted
  sent ho := (congrArg (s.sender.datalen + ·.flatten.length) hunsent).trans (h.sent ho)
  reply := h.reply
  blobs := h.blobs
  told := h.told
  waiting := hwaiting
  ended ho he := hunsent.trans (hended ho he)

theorem Inv.open_of_dc (h : Inv chunks s) (hdc : s.sender.dc ≠ none) : s.sender.Open :=
  h.sender.resolve_right fun hgone => hdc hgone.2.1

/-- A piece is put on the channel. -/
theorem Inv.write (h : Inv chunks s) (hopen : s.sender.Open) {a : Bytes} {rest : List Bytes}
    (hpending : s.pending = a :: rest) (hloop : s.loop = .running) :
    Inv chunks { s with
      pending := rest
      toReceiver := s.toReceiver ++ [a]
      bufferedAmount := s.bufferedAmount + a.length
      sender := { s.sender with datalen := s.sender.datalen + a.length }.event
        .connected .nothing } := by
  have hunsent : s.unsent = a :: (rest ++ s.reader.flatMap chop) := by
    rw [unsent, hpending, List.cons_append]
  have hsent := h.sent hopen
  rw [hunsent, List.flatten_cons, List.length_append] at hsent
  have hconnected : TransferredFileState.connected ≠ .done := by decide
  have hdones := dones_event { s.sender with datalen := s.sender.datalen + a.length }
    hconnected .nothing
  exact {
    up := h.up
    size := h.size
    sender := .inl ⟨rfl, hopen.2.1, hopen.2.2⟩
    receiver := h.receiver
    stream := fun hr => by
      obtain ⟨tail, htail, hsame⟩ := h.stream hr
      have hstream : s.receiver.data ++ (s.toReceiver ++ [a]) ++
          (rest ++ s.reader.flatMap chop) = chunks.flatMap chop := by
        rw [← htail, hsame hopen, hunsent]
        simp only [List.append_assoc, List.singleton_append]
      exact ⟨_, hstream, fun _ => rfl⟩
    counted := h.counted
    sent := fun _ => by
      have hgoal : s.sender.datalen + a.length + (rest ++ s.reader.flatMap chop).flatten.length =
          chunks.flatten.length := by omega
      exact hgoal
    reply := fun m hm => by
      obtain ⟨hdone, hne, hlen⟩ := h.reply m hm
      refine ⟨hdone, hne, fun _ => ?_⟩
      have hlen := hlen hopen
      have hgoal : s.sender.datalen + a.length = chunks.flatten.length := by omega
      exact hgoal
    blobs := h.blobs
    told := fun hne => h.told (hdones ▸ hne)
    waiting := fun hw => absurd (hloop.symm.trans hw) nofun
    ended := fun _ he => absurd (hloop.symm.trans he) nofun }

theorem Inv.turn (h : Inv chunks s) (ht : s.turn = some t) : Inv chunks t := by
  unfold State.turn at ht
  split at ht
  · cases ht
  · cases ht
  · rename_i hloop
    split at ht
    · rename_i hpending
      split at ht
      · rename_i hreader
        obtain rfl := Option.some.inj ht
        refine h.looped rfl nofun fun _ _ => ?_
        rw [unsent, hpending, hreader]
        rfl
      · rename_i data rest hreader
        obtain rfl := Option.some.inj ht
        have hunsent : chop data ++ rest.flatMap chop = s.unsent := by
          rw [unsent, hpending, hreader, List.flatMap_cons]
          rfl
        exact h.looped hunsent (fun hw => h.waiting hw) fun _ he =>
          absurd (hloop.symm.trans he) nofun
    · rename_i a rest hpending
      split_ifs at ht with hdc hfull
      · obtain rfl := Option.some.inj ht
        have hl := cancel_leaves (h.staged true) (some "TypeError")
        exact h.post_sender hl.1 hl.2 (.inr rfl)
      · obtain rfl := Option.some.inj ht
        exact h.looped rfl (fun _ => hfull) nofun
      · obtain rfl := Option.some.inj ht
        exact h.write (h.open_of_dc hdc) hpending hloop

theorem Inv.transport (h : Inv chunks s) {n : ℕ} (ht : s.transport n = some t) :
    Inv chunks t := by
  unfold State.transport at ht
  split_ifs at ht
  obtain rfl := Option.some.inj ht
  refine h.looped rfl (fun hw => ?_) fun ho he => ?_
  · split_ifs at hw with hlow
    · -- the event that the loop waits for has not come
      by_contra hle
      exact hlow ⟨⟨h.waiting hw, Nat.not_lt.mp hle⟩, hw⟩
  · split_ifs at he
    exact h.ended ho he

/-- What the receiver has with the piece that comes, what is behind it, and what is to follow
make up the file. -/
theorem Inv.arriving (h : Inv chunks s) (hopen : s.receiver.Open) {data : Bytes}
    {rest : List Bytes} (hto : s.toReceiver = data :: rest) :
    (s.receiver.data ++ [data]).flatten.length = s.receiver.datalen + data.length ∧
      ∃ tail, s.receiver.data ++ [data] ++ rest ++ tail = chunks.flatMap chop ∧
        (s.sender.Open → tail = s.unsent) ∧
        (s.receiver.data ++ [data]).flatten ++ (rest ++ tail).flatten = chunks.flatten := by
  obtain ⟨tail, htail, hsame⟩ := h.stream hopen
  have hstream : s.receiver.data ++ [data] ++ rest ++ tail = chunks.flatMap chop := by
    rw [← htail, hto, List.append_assoc s.receiver.data [data] rest]
    rfl
  refine ⟨?_, tail, hstream, hsame, ?_⟩
  · rw [List.flatten_append, List.flatten_singleton, List.length_append, (h.counted hopen).1]
  · rw [← List.flatten_append, ← List.append_assoc, hstream, flatten_flatMap_chop]

theorem Inv.received_more (h : Inv chunks s) (hopen : s.receiver.Open) {data : Bytes}
    {rest : List Bytes} (hto : s.toReceiver = data :: rest)
    (hlt : s.receiver.datalen + data.length < chunks.flatten.length) :
    Inv chunks ({ s with toReceiver := rest }.post false (s.receiver.receiveData data)) := by
  obtain ⟨hlast, tail, hstream, hsame, -⟩ := h.arriving hopen hto
  have hconnected : TransferredFileState.connected ≠ .done := by decide
  have hdones := dones_event { s.receiver with
    datalen := s.receiver.datalen + data.length, data := s.receiver.data ++ [data] }
    hconnected .nothing
  rw [receiveData_more h.up.2 (h.size.2 ▸ hlt)]
  exact {
    up := h.up
    size := h.size
    sender := h.sender
    receiver := .inl ⟨rfl, hopen.2.1, hopen.2.2⟩
    stream := fun _ => ⟨tail, hstream, hsame⟩
    counted := fun _ => ⟨hlast.symm, .inl hlt⟩
    sent := h.sent
    reply := fun m hm => ⟨(h.reply m hm).1, hdones ▸ (h.reply m hm).2.1, (h.reply m hm).2.2⟩
    blobs := hdones ▸ h.blobs
    told := fun hne => hdones ▸ h.told hne
    waiting := h.waiting
    ended := h.ended }

/-- With the last byte the receiver has the file and nothing but empty pieces is left to send. -/
theorem Inv.received_last (h : Inv chunks s) (hopen : s.receiver.Open) {data : Bytes}
    {rest : List Bytes} (hto : s.toReceiver = data :: rest)
    (heq : s.receiver.datalen + data.length = chunks.flatten.length) :
    Inv chunks ({ s with toReceiver := rest }.post false (s.receiver.receiveData data)) := by
  obtain ⟨hlast, tail, -, hsame, hfile⟩ := h.arriving hopen hto
  obtain ⟨g, hg, hannounced, hup, hsize, hdones⟩ := receiveData_last hopen h.up.2
    (h.counted hopen).1 (heq.trans h.size.2.symm)
  have hblob : (s.receiver.data ++ [data]).flatten = chunks.flatten :=
    List.IsPrefix.eq_of_length ⟨_, hfile⟩ (hlast.trans heq)
  have hne : g.dones ≠ [] := hannounced.2.2.2
  have hsent : s.sender.Open → s.sender.datalen = chunks.flatten.length := by
    intro ho
    have hsent := h.sent ho
    have htotal := congrArg List.length hfile
    rw [← hsame ho] at hsent
    rw [List.length_append, hlast, heq, List.flatten_append, List.length_append] at htotal
    omega
  rw [hg]
  exact {
    up := ⟨h.up.1, hup.trans h.up.2⟩
    size := ⟨h.size.1, hsize.trans h.size.2⟩
    sender := h.sender
    receiver := .inr (.inl hannounced)
    stream := fun ho => absurd ho hannounced.not_open
    counted := fun ho => absurd ho hannounced.not_open
    sent := h.sent
    reply := fun m hm => (List.mem_append.mp hm).elim
      (fun hm => ⟨(h.reply m hm).1, hne, (h.reply m hm).2.2⟩)
      fun hm => ⟨List.mem_singleton.mp hm, hne, hsent⟩
    blobs := fun e he => by
      have he : e ∈ g.dones := he
      rw [hdones, hblob] at he
      exact (List.mem_append.mp he).elim (h.blobs e) List.mem_singleton.mp
    told := fun _ => hne
    waiting := h.waiting
    ended := h.ended }

/-- A piece that comes to a receiver that takes it. -/
theorem Inv.received (h : Inv chunks s) (hopen : s.receiver.Open) {data : Bytes}
    {rest : List Bytes} (hto : s.toReceiver = data :: rest) :
    Inv chunks ({ s with toReceiver := rest }.post false (s.receiver.receiveData data)) := by
  obtain ⟨hlast, tail, -, -, hfile⟩ := h.arriving hopen hto
  have htotal := congrArg List.length hfile
  rw [List.length_append, hlast] at htotal
  rcases Nat.lt_or_ge (s.receiver.datalen + data.length) chunks.flatten.length with hlt | hge
  · exact h.received_more hopen hto hlt
  · exact h.received_last hopen hto (by omega)

/-- The word that the receiver has the file comes to a sender that has sent it all. -/
theorem Inv.replied (h : Inv chunks s) (hopen : s.sender.Open) {data : String}
    {rest : List String} (hto : s.toSender = data :: rest) :
    Inv chunks ({ s with toSender := rest }.post true (s.sender.onReply data)) := by
  obtain ⟨rfl, hne, hlen⟩ := h.reply data (hto ▸ List.mem_cons_self)
  obtain ⟨hout, hgone, hup, hsize⟩ := onReply_done (f := s.sender) ((hlen hopen).trans h.size.1.symm)
  obtain ⟨c, c', hpost⟩ := post_eq { s with toSender := rest } true (.inl hout)
  rw [hpost]
  exact (h.sender_gone hgone hup hsize (.inr hne) (.inl rfl) fun m hm =>
    hto ▸ List.mem_cons_of_mem _ hm).cancels c c'

/-- What a channel drops was going to a side that has left or from one. -/
theorem Inv.dropped (h : Inv chunks s) (hclosed : s.sender.dc = none ∨ s.receiver.dc = none) :
    Inv chunks { s with toReceiver := [], toSender := [] } :=
  ⟨h.up, h.size, h.sender, h.receiver, fun hopen => by
    obtain ⟨rest, hrest, -⟩ := h.stream hopen
    refine ⟨s.toReceiver ++ rest, ?_, fun ho => ?_⟩
    · rw [← hrest]
      simp only [List.append_nil, List.append_assoc]
    · rcases hclosed with hdc | hdc
      · exact absurd (ho.2.1.symm.trans hdc) nofun
      · exact absurd (hopen.2.1.symm.trans hdc) nofun,
    h.counted, h.sent, List.forall_mem_nil _, h.blobs, h.told, h.waiting, h.ended⟩

theorem Inv.step (h : Inv chunks s) (hstep : s.step l = some t) : Inv chunks t := by
  cases l with
  | turn => exact h.turn hstep
  | transport n => exact h.transport hstep
  | deliver =>
      simp only [State.step] at hstep
      split at hstep
      · cases hstep
      · rename_i data rest hto
        split_ifs at hstep with hdc
        · obtain rfl := Option.some.inj hstep
          have hopen : s.receiver.Open := by
            rcases h.receiver with ho | ha | hg
            · exact ho
            · rw [ha.2.1] at hdc
              cases hdc
            · rw [hg.2.1] at hdc
              cases hdc
          exact h.received hopen hto
        · obtain rfl := Option.some.inj hstep
          have hclosed : ¬ s.receiver.Open := fun ho => hdc (by rw [ho.2.1]; rfl)
          exact ⟨h.up, h.size, h.sender, h.receiver, fun ho => absurd ho hclosed, h.counted,
            h.sent, h.reply, h.blobs, h.told, h.waiting, h.ended⟩
  | reply =>
      simp only [State.step] at hstep
      split at hstep
      · cases hstep
      · rename_i data rest hto
        split_ifs at hstep with hdc
        · obtain rfl := Option.some.inj hstep
          exact h.replied (h.open_of_dc fun hnone => by rw [hnone] at hdc; cases hdc) hto
        · obtain rfl := Option.some.inj hstep
          exact ⟨h.up, h.size, h.sender, h.receiver, h.stream, h.counted, h.sent,
            fun m hm => h.reply m (hto ▸ List.mem_cons_of_mem _ hm), h.blobs, h.told, h.waiting,
            h.ended⟩
  | drop =>
      simp only [State.step] at hstep
      split_ifs at hstep with hclosed hempty
      obtain rfl := Option.some.inj hstep
      exact h.dropped hclosed
  | closed up =>
      simp only [State.step] at hstep
      split_ifs at hstep
      obtain ⟨handlers, hdc, rfl⟩ := Option.map_eq_some_iff.mp hstep
      have hl := onclose_leaves (h.staged up) hdc
      exact h.post up hl.1 hl.2
  | cancelMessage up =>
      simp only [State.step] at hstep
      split at hstep
      · cases hstep
      · rename_i message rest hto
        obtain rfl := Option.some.inj hstep
        cases up with
        | true =>
            exact (h.cancels s.cancelsToReceiver rest).post true
              (cancelMessage_leaves (h.staged true) message) (.inl rfl)
        | false =>
            exact (h.cancels rest s.cancelsToSender).post false
              (cancelMessage_leaves (h.staged false) message) (.inl rfl)
  | timeOut =>
      simp only [State.step] at hstep
      split_ifs at hstep with htimer
      obtain rfl := Option.some.inj hstep
      have hclosed : ¬ s.receiver.Open := fun ho => by
        rw [ho.2.2] at htimer
        cases htimer
      exact h.receiver_gone (timeOut_leaves h.receiver hclosed) s.toReceiver
  | cancel up message =>
      obtain rfl := Option.some.inj hstep
      have hl := cancel_leaves (h.staged up) message
      exact h.post up hl.1 hl.2
  | readFails error =>
      simp only [State.step] at hstep
      split_ifs at hstep
      obtain rfl := Option.some.inj hstep
      have hl := cancel_leaves (h.staged true) (some error)
      exact h.post_sender hl.1 hl.2 (.inr rfl)

end State

theorem exists_mem_of_dones_ne_nil {f : TransferredFile} (h : f.dones ≠ []) :
    ∃ detail, (.done, detail) ∈ f.events := by
  obtain ⟨⟨state, detail⟩, he⟩ := List.exists_mem_of_ne_nil _ h
  obtain ⟨hmem, hdone⟩ := List.mem_filter.mp he
  obtain rfl : state = .done := of_decide_eq_true hdone
  exact ⟨detail, hmem⟩

theorem mem_dones {f : TransferredFile} {detail : Detail} (h : (.done, detail) ∈ f.events) :
    (.done, detail) ∈ f.dones := List.mem_filter.mpr ⟨h, rfl⟩

theorem ends_of_gone {f : TransferredFile} (h : f.Gone) : Ends f :=
  h.2.2.imp (fun hne => .inr (exists_mem_of_dones_ne_nil hne)) .inr

theorem State.Inv.complete (h : State.Inv chunks s) : Complete chunks.flatten s := by
  intro hdone
  have hreceiver : s.receiver.dones ≠ [] := by
    rcases hdone with (hstate | ⟨detail, hmem⟩) | (hstate | ⟨detail, hmem⟩)
    · rcases h.sender with ho | hg
      · exact absurd (ho.1.symm.trans hstate) nofun
      · exact absurd (hg.1.symm.trans hstate) nofun
    · exact h.told (List.ne_nil_of_mem (mem_dones hmem))
    · rcases h.receiver with ho | ha | hg
      · exact absurd (ho.1.symm.trans hstate) nofun
      · exact ha.2.2.2
      · exact absurd (hg.1.symm.trans hstate) nofun
    · exact List.ne_nil_of_mem (mem_dones hmem)
  obtain ⟨detail, hmem⟩ := exists_mem_of_dones_ne_nil hreceiver
  have hblob : ∀ detail, (.done, detail) ∈ s.receiver.events → detail = .blob chunks.flatten :=
    fun detail hmem => congrArg Prod.snd (h.blobs _ (mem_dones hmem))
  exact ⟨hblob detail hmem ▸ hmem, hblob⟩

/-- While both sides go on, something is left to happen, unless there was nothing to send. -/
theorem State.Inv.eq_nil_of_quiescent (h : State.Inv chunks s) (hq : Quiescent s)
    (hs : s.sender.Open) (hr : s.receiver.Open) : chunks = [] := by
  have hdc : s.sender.dc ≠ none := by
    rw [hs.2.1]
    nofun
  have hended : s.loop = .ended := by
    cases hloop : s.loop with
    | ended => rfl
    | running =>
        have hnone : s.turn = none := hq .turn trivial
        unfold State.turn at hnone
        rw [hloop] at hnone
        dsimp only at hnone
        split at hnone
        · split at hnone <;> cases hnone
        · split_ifs at hnone
    | waiting =>
        have hwaiting := h.waiting hloop
        have hnone : s.transport s.bufferedAmount = none := hq (.transport _) trivial
        unfold State.transport at hnone
        split_ifs at hnone with hidle
        rcases hidle with hidle | hzero | hless
        · exact absurd hidle hdc
        · rw [hzero] at hwaiting
          cases hwaiting
        · exact absurd hless (Nat.lt_irrefl _)
  have hdelivered : s.toReceiver = [] := by
    cases hto : s.toReceiver with
    | nil => rfl
    | cons data rest =>
        have hnone : s.step .deliver = none := hq .deliver trivial
        simp only [State.step, hto] at hnone
        split_ifs at hnone
  obtain ⟨rest, hrest, hsame⟩ := h.stream hr
  rw [hdelivered, hsame hs, h.ended hs hended, List.append_nil, List.append_nil] at hrest
  obtain ⟨hlen, hlt | hnil⟩ := h.counted hr
  · rw [hlen, hrest, flatten_flatMap_chop] at hlt
    exact absurd hlt (Nat.lt_irrefl _)
  · exact flatMap_chop_eq_nil.mp (hrest.symm.trans hnil)

/-- A side that has left is heard of by the other one. -/
theorem State.Inv.ends (h : State.Inv chunks s) (hne : chunks ≠ []) (hq : Quiescent s) :
    Ends s.sender ∧ Ends s.receiver := by
  have hheard : ∀ up, (s.file (!up)).Gone → (s.file up).dc = none := by
    intro up hgone
    have hnone : s.step (.closed up) = none := hq (.closed up) trivial
    simp only [State.step] at hnone
    rw [if_pos hgone.2.1] at hnone
    exact Option.map_eq_none_iff.mp hnone
  rcases h.receiver with hr | hr | hr
  · rcases h.sender with hs | hs
    · exact absurd (h.eq_nil_of_quiescent hq hs hr) hne
    · exact absurd (hr.2.1.symm.trans (hheard false hs)) nofun
  · have hnone : s.step .timeOut = none := hq .timeOut trivial
    simp only [State.step] at hnone
    rw [if_pos hr.2.2.1] at hnone
    cases hnone
  · rcases h.sender with hs | hs
    · exact absurd (hs.2.1.symm.trans (hheard true hr)) nofun
    · exact ⟨ends_of_gone hs, ends_of_gone hr⟩

theorem inv_of_reachable (h : Reachable (system chunks) Always s) : State.Inv chunks s := by
  refine h.invariant (P := State.Inv chunks) ?_ fun s l t hs _ ht => hs.step ht
  rintro s rfl
  exact State.inv_start chunks

/-- The sender of a file without a chunk is through with it before it has sent anything. -/
theorem quiescent_of_nil : ∃ s, Reachable (system []) Always s ∧ Quiescent s ∧
    ¬ Ends s.sender ∧ ¬ Ends s.receiver := by
  obtain ⟨s, hs⟩ : ∃ s, (system []).exec Always (start []) [.turn] = some s := ⟨_, rfl⟩
  have hreachable := Reachable.exec (.init rfl) hs
  obtain rfl := Option.some.inj hs
  have hends : ∀ f : TransferredFile, f.state = .connected → f.events = [] → ¬ Ends f := by
    rintro f hstate hevents ((h | ⟨_, h⟩) | (h | ⟨_, h⟩))
    · exact absurd (hstate.symm.trans h) nofun
    · exact absurd (hevents ▸ h) List.not_mem_nil
    · exact absurd (hstate.symm.trans h) nofun
    · exact absurd (hevents ▸ h) List.not_mem_nil
  refine ⟨_, hreachable, fun l hl => ?_, hends _ rfl rfl, hends _ rfl rfl⟩
  cases l with
  | cancel _ _ => exact absurd hl id
  | readFails _ => exact absurd hl id
  | transport n =>
      have hidle : n = 0 ∨ 0 < n := n.eq_zero_or_pos
      exact if_pos (.inr hidle)
  | closed up => cases up <;> rfl
  | cancelMessage up => cases up <;> rfl
  | _ => rfl

/-- Who is done knows that the receiver has the file, whatever has happened, and for a transfer
to end whatever happens it takes a file of at least one chunk. -/
theorem completes_iff_chunk (chunks : List Bytes) :
    (∀ s, Reachable (system chunks) Always s → Complete chunks.flatten s) ∧
      ((∀ s, Reachable (system chunks) Always s → Quiescent s → Ends s.sender ∧ Ends s.receiver) ↔
        chunks ≠ []) := by
  refine ⟨fun s hs => (inv_of_reachable hs).complete, fun h => ?_, fun hne s hs hq =>
    (inv_of_reachable hs).ends hne hq⟩
  rintro rfl
  obtain ⟨s, hs, hq, hnot, -⟩ := quiescent_of_nil
  exact hnot (h s hs hq).1

/-- The empty file. -/
theorem not_completes : ¬ ∀ chunks s, Reachable (system chunks) Always s →
    Complete chunks.flatten s ∧ (Quiescent s → Ends s.sender ∧ Ends s.receiver) := by
  intro h
  obtain ⟨s, hs, hq, hnot, -⟩ := quiescent_of_nil
  exact hnot ((h [] s hs).2 hq).1

end Transfers

end Sozvon.FileTransfer
