import Sozvon.Streams
import Mathlib.Data.List.Nodup
import Mathlib.Data.List.Perm.Basic

/-!
# Routing

Which tracks of whose connections a client is sent, without the messages and the
negotiations by which this comes about. A step of the clients is a few operations on
these routes.
-/
namespace Sozvon.Streams

section Definitions

/-- A down connection, as far as the routes go. -/
structure Link where
  id : String
  remote : ℕ
  requested : Option (List String) := none
  tracks : List RtpUpTrack := []
deriving DecidableEq, Repr

structure Party where
  group : Option ℕ := none
  requested : List (String × List String) := []
  links : List Link := []
  actions : List Action := []
deriving DecidableEq, Repr

instance : Peer Party where
  group p := p.group
  put p a := { p with actions := p.actions ++ [a] }

abbrev Routes := Net Party

def RtpDownConnection.link (d : RtpDownConnection) : Link :=
  ⟨d.id, d.remote, d.requested, d.tracks.map (·.remote)⟩

def WebClient.party (c : WebClient) : Party :=
  ⟨c.group, c.requested, c.down.map (·.link), c.actions⟩

namespace Party

def link (p : Party) (id : String) : Option Link := p.links.find? (·.id = id)

def setLink (p : Party) (l : Link) : Party :=
  { p with links := p.links.map fun l' => if l'.id = l.id then l else l' }

def requestedOf (p : Party) (label : String) : List String :=
  (p.requested.lookup label).getD ((p.requested.lookup "").getD [])

/-- The ids of the connections of a client, with what they are connections of. -/
def conns (p : Party) : List (String × ℕ) := p.links.map fun l => (l.id, l.remote)

end Party

namespace Net

def routes (w : World) : Routes where
  clients n := (w.clients n).party
  ups := w.ups
  fresh := w.fresh
  rooms := w.rooms
  delayed := w.delayed

def Live {γ : Type} (w : Net γ) (r : ℕ) : Prop := r < w.fresh ∧ (w.ups r).closed = false

variable (R : Routes) (n : ℕ)

def enter (g : ℕ) : Routes :=
  { R.modify n ({ · with group := some g }) with
    rooms := Function.update R.rooms g (R.rooms g ++ [n]) }

/-- The next action of a client is taken from its queue. -/
def take : Routes := R.modify n fun p => { p with actions := p.actions.tail }

def cut (id : String) : Routes :=
  match (R.clients n).link id with
  | none => R
  | some l =>
      (R.modifyUp l.remote fun u => { u with locals := u.locals.erase n }).modify n fun p =>
        { p with links := p.links.filter (·.id ≠ id) }

def attach (r : ℕ) (tracks : List RtpUpTrack) : Routes :=
  (R.modifyUp r fun u => if n ∈ u.locals then u else { u with locals := u.locals ++ [n] }).modify n
    fun p => { p with links := p.links ++ [{ id := (R.ups r).id, remote := r, tracks }] }

def cutReplaced (replace : String) : Routes := if replace ≠ "" then R.cut n replace else R

/-- Everything of a member goes. -/
def exit (g : ℕ) : Routes :=
  let left := ((R.clients n).links.map (·.id)).foldl (fun R id => R.cut n id) R
  { left.modify n ({ · with group := none, requested := [] }) with
    rooms := Function.update left.rooms g ((left.rooms g).erase n) }

def leave (order : List ℕ) : Routes :=
  match (R.clients n).group with
  | none => R
  | some g => (R.delUpConns n order).exit n g

def asked (up : Option ℕ) (tracks : List RtpUpTrack) (replace : String) : List RtpUpTrack :=
  match up with
  | none => []
  | some r =>
      let p := R.clients n
      let old := p.link (if replace ≠ "" then replace else (R.ups r).id)
      (requestedTracks ((old.bind (·.requested)).getD (p.requestedOf (R.ups r).label)) tracks).1

end Net

/-- The tracks that a connection with some tracks ends up with when it is given others. -/
def merge (old new : List RtpUpTrack) : List RtpUpTrack :=
  old.filter (· ∈ new) ++ new.filter (· ∉ old)

end Definitions

section Outcomes

variable (R : Routes)

/-- The action is one that does nothing to the routes. -/
def Idle (n : ℕ) : Action → Prop
  | .pushConn g .. | .requestConns g .. => (R.clients n).group ≠ some g
  | .connectionFailed id => (R.clients n).link id = none
  | .permissionsChanged => True

/-- What may be left of the routes when the handler of a push fails. -/
inductive Broken (n r : ℕ) (replace : String) : Routes → Prop
  | early : Broken n r replace ((R.take n).cutReplaced n replace)
  | attach {S : Routes} : Broken n r replace S →
      R.getUpConn n (R.ups r).id = none → (S.clients n).link (R.ups r).id = none →
      (R.ups r).closed = false → Broken n r replace (S.attach n r [])
  | cut {S : Routes} (id : String) : Broken n r replace S → Broken n r replace (S.cut n id)

/-- What a step may do to the routes. -/
inductive Outcome : Label → Routes → Prop
  | same (l : Label) : Outcome l R
  | enter {n g : ℕ} {present : Bool} : (R.clients n).group = none →
      Outcome (.join n g present) (R.enter n g)
  | leave {n : ℕ} {order : List ℕ} (l : Label) : order.Perm (R.getUpConns n) →
      Outcome l (R.leave n order)
  | queue {n : ℕ} {a : Action} (l : Label) : a = .permissionsChanged ∨ (∃ id, a = .connectionFailed id) →
      Outcome l (R.action [n] a)
  | ask {n g : ℕ} {requested : List (String × List String)} (l : Label) :
      (R.clients n).group = some g →
      Outcome l ((R.modify n ({ · with requested })).action (R.getClients g n) (.requestConns g n ""))
  | askStream {n g : ℕ} {id : String} {requested : Option (List String)} {link : Link} {rtc : Rtc}
      {order : List ℕ} : (R.clients n).link id = some link → (R.clients n).group = some g →
      Outcome (.message n (.requestStream id requested) rtc order)
        ((R.modify n (·.setLink { link with requested })).action [(R.ups link.remote).client]
          (.requestConns g n (R.ups link.remote).id))
  | publish {n g : ℕ} {id label replace : String} {rtc : Rtc} {order : List ℕ} :
      (R.clients n).group = some g → (R.clients n).link id = none → R.getUpConn n id = none →
      Outcome (.message n (.offer id label replace) rtc order)
        ((R.newUpConn n id label).supersede n R.fresh replace)
  | again {n r : ℕ} {id label replace : String} {rtc : Rtc} {order : List ℕ} :
      R.getUpConn n id = some r →
      Outcome (.message n (.offer id label replace) rtc order) (R.supersede n r replace)
  | close {n : ℕ} {id : String} (l : Label) : Outcome l (R.delUpConn n id true)
  | answer {n : ℕ} {id : String} {rtc : Rtc} {order : List ℕ} :
      Outcome (.message n (.answer id) rtc order) (R.cut n id)
  | renegotiate {n : ℕ} {id : String} {rtc : Rtc} {order : List ℕ} :
      Outcome (.message n (.renegotiate id) rtc order) (R.cut n id)
  | abort {n : ℕ} {id : String} {rtc : Rtc} {order : List ℕ} :
      Outcome (.message n (.abort id) rtc order) (R.cut n id)
  | skip {n : ℕ} {a : Action} {rest : List Action} {rtc : Rtc} {order : List ℕ} :
      (R.clients n).actions = a :: rest → Idle R n a → Outcome (.action n rtc order) (R.take n)
  | deny {n : ℕ} {rest : List Action} {rtc : Rtc} {order : List ℕ} :
      (R.clients n).actions = .permissionsChanged :: rest → order.Perm (R.getUpConns n) →
      Outcome (.action n rtc order) ((R.take n).delUpConns n order)
  | reply {n g target : ℕ} {id : String} {rest : List Action} {rtc : Rtc} {order : List ℕ} :
      (R.clients n).actions = .requestConns g target id :: rest → (R.clients n).group = some g →
      order.Perm (R.getUpConns n) →
      Outcome (.action n rtc order) ((R.take n).requestConns target g id order)
  | drop {n g : ℕ} {id replace : String} {conn : Option ℕ} {tracks : List RtpUpTrack}
      {rest : List Action} {rtc : Rtc} {order : List ℕ} :
      (R.clients n).actions = .pushConn g id conn tracks replace :: rest →
      (R.clients n).group = some g → R.asked n conn tracks replace = [] →
      Outcome (.action n rtc order) (((R.take n).cutReplaced n replace).cut n id)
  | late {n g r : ℕ} {id replace : String} {tracks : List RtpUpTrack} {rest : List Action}
      {rtc : Rtc} {order : List ℕ} :
      (R.clients n).actions = .pushConn g id (some r) tracks replace :: rest →
      (R.clients n).group = some g → (R.ups r).closed = true →
      Outcome (.action n rtc order) ((R.take n).cutReplaced n replace)
  | attach {n g r : ℕ} {id replace : String} {tracks : List RtpUpTrack} {rest : List Action}
      {rtc : Rtc} {order : List ℕ} {S : Routes} :
      (R.clients n).actions = .pushConn g id (some r) tracks replace :: rest →
      (R.clients n).group = some g → R.asked n (some r) tracks replace ≠ [] →
      R.getUpConn n (R.ups r).id = none → S = (R.take n).cutReplaced n replace →
      (S.clients n).link (R.ups r).id = none → (R.ups r).closed = false →
      Outcome (.action n rtc order) (S.attach n r (R.asked n (some r) tracks replace))
  | update {n g r : ℕ} {id replace : String} {tracks : List RtpUpTrack} {rest : List Action}
      {rtc : Rtc} {order : List ℕ} {S : Routes} {l : Link} :
      (R.clients n).actions = .pushConn g id (some r) tracks replace :: rest →
      (R.clients n).group = some g → R.asked n (some r) tracks replace ≠ [] →
      S = (R.take n).cutReplaced n replace → (S.clients n).link (R.ups r).id = some l →
      Outcome (.action n rtc order)
        (S.modify n (·.setLink { l with tracks := merge l.tracks (R.asked n (some r) tracks replace) }))
  | echo {n g : ℕ} {id : String} {l : Link} {rest : List Action} {rtc : Rtc} {order : List ℕ} :
      (R.clients n).actions = .connectionFailed id :: rest → (R.clients n).group = some g →
      (R.clients n).link id = some l →
      Outcome (.action n rtc order) ((R.take n).action [n]
        (.pushConn g (R.ups l.remote).id (some l.remote) l.tracks ""))
  | broken {n g r : ℕ} {id replace : String} {tracks : List RtpUpTrack} {rest : List Action}
      {rtc : Rtc} {order : List ℕ} {S : Routes} :
      (R.clients n).actions = .pushConn g id (some r) tracks replace :: rest →
      (R.clients n).group = some g → order.Perm (R.getUpConns n) →
      Broken R n r replace S →
      Outcome (.action n rtc order) (S.leave n order)
  | failed {n : ℕ} {a : Action} {rest : List Action} {rtc : Rtc} {order : List ℕ} :
      (R.clients n).actions = a :: rest → order.Perm (R.getUpConns n) →
      Outcome (.action n rtc order) ((R.take n).leave n order)
  | onTrack {r : ℕ} {track : RtpUpTrack} : r < R.fresh →
      (R.clients (R.ups r).client).group ≠ none →
      Outcome (.onTrack r track)
        ((R.modifyUp r fun u => { u with tracks := u.tracks ++ [track] }).pushConn r)
  | wake {i : ℕ} {e : Delayed} {S : Routes} : R.delayed[i]? = some e →
      S = { R with delayed := R.delayed.eraseIdx i } →
      Outcome (.wake i) (if (R.ups e.up).pushed then S else S.pushConnNow e)

end Outcomes

section Tracks

variable {rtc : Rtc} {tracks tracks' : List RtpDownTrack} {remote : List RtpUpTrack}
  {limitSid changed : Bool}

theorem foldlM_delDownTrack {del : List RtpDownTrack}
    (h : del.foldlM (delDownTrack rtc) tracks = some tracks') : tracks' = del.foldl List.erase tracks := by
  induction del generalizing tracks with
  | nil => exact (Option.some.inj h).symm
  | cons t del ih =>
      obtain ⟨rest, hrest, h⟩ := Option.bind_eq_some_iff.mp h
      rw [delDownTrack] at hrest
      split_ifs at hrest with hrefused
      rw [ih h, ← Option.some.inj hrest]
      rfl

theorem foldlM_addDownTrack {add : List RtpUpTrack}
    (h : add.foldlM (addDownTrack rtc) tracks = some tracks') :
    tracks'.map (·.remote) = tracks.map (·.remote) ++ add := by
  induction add generalizing tracks with
  | nil => rw [← Option.some.inj h, List.append_nil]
  | cons t add ih =>
      obtain ⟨more, hmore, h⟩ := Option.bind_eq_some_iff.mp h
      rw [addDownTrack] at hmore
      split_ifs at hmore with hrefused
      rw [ih h, ← Option.some.inj hmore, List.map_append, List.append_assoc]
      rfl

theorem foldl_erase_filter {α : Type} [DecidableEq α] (p : α → Bool) (l : List α) :
    (l.filter p).foldl List.erase l = l.filter fun a => !p a := by
  have hskip : ∀ (a : α) (m l : List α), a ∉ m →
      m.foldl List.erase (a :: l) = a :: m.foldl List.erase l := by
    intro a m
    induction m with
    | nil => exact fun _ _ => rfl
    | cons b m ih =>
        intro l ha
        obtain ⟨hab, ham⟩ := not_or.mp (mt List.mem_cons.mpr ha)
        rw [List.foldl_cons, List.erase_cons_tail (by simpa using hab), ih _ ham]
        rfl
  induction l with
  | nil => rfl
  | cons a l ih =>
      cases hp : p a with
      | true =>
          rw [List.filter_cons_of_pos hp, List.foldl_cons, List.erase_cons_head, ih,
            List.filter_cons_of_neg (by simp [hp])]
      | false =>
          rw [List.filter_cons_of_neg (by simp [hp]), hskip, ih, List.filter_cons_of_pos (by simp [hp])]
          exact fun ha => by simp [hp] at ha

theorem merge_self_of_nil {old new : List RtpUpTrack} (hold : old.filter (· ∉ new) = [])
    (hnew : new.filter (· ∉ old) = []) : merge old new = old := by
  rw [merge, hnew, List.append_nil, List.filter_eq_self]
  intro a ha
  have := List.filter_eq_nil_iff.mp hold a ha
  simpa using this

/-- What a connection is left with does not depend on what WebRTC says as long as it
does not refuse. -/
theorem replaceTracks_merge (h : replaceTracks rtc tracks remote limitSid = some (tracks', changed)) :
    tracks'.map (·.remote) = merge (tracks.map (·.remote)) remote := by
  have hkept : (tracks.filter fun t => decide (t.remote ∈ remote)).map (·.remote) =
      (tracks.map (·.remote)).filter (· ∈ remote) := by
    rw [List.filter_map]
    rfl
  rw [replaceTracks] at h
  split_ifs at h with hsame
  · obtain ⟨rfl, rfl⟩ := Prod.mk.inj (Option.some.inj h)
    rw [List.map_map]
    refine (merge_self_of_nil ?_ hsame.2).symm
    rw [List.filter_map, List.map_eq_nil_iff]
    exact hsame.1
  · obtain ⟨kept, hdel, h⟩ := Option.bind_eq_some_iff.mp h
    obtain ⟨all, hadd, h⟩ := Option.bind_eq_some_iff.mp h
    obtain ⟨rfl, rfl⟩ := Prod.mk.inj (Option.some.inj h)
    rw [List.map_map]
    refine (foldlM_addDownTrack hadd).trans ?_
    rw [foldlM_delDownTrack hdel, foldl_erase_filter, merge, ← hkept]
    simp

/-- A connection is said to have changed unless it has the tracks already. -/
theorem replaceTracks_changed (h : replaceTracks rtc tracks remote limitSid = some (tracks', changed)) :
    changed = false → tracks'.map (·.remote) = tracks.map (·.remote) := by
  rw [replaceTracks] at h
  split_ifs at h with hsame
  · obtain ⟨rfl, rfl⟩ := Prod.mk.inj (Option.some.inj h)
    intro _
    rw [List.map_map]
    rfl
  · obtain ⟨kept, -, h⟩ := Option.bind_eq_some_iff.mp h
    obtain ⟨all, -, h⟩ := Option.bind_eq_some_iff.mp h
    obtain ⟨rfl, rfl⟩ := Prod.mk.inj (Option.some.inj h)
    exact fun h => absurd h (by decide)

theorem mem_find {ts : List RtpUpTrack} {kind : Kind} {last : Bool} {t : RtpUpTrack}
    (h : (find ts kind last).1 = some t) : t ∈ ts ∧ t.kind = kind := by
  have hmem : t ∈ ts.filter (·.kind = kind) := by
    cases last with
    | true => exact List.mem_of_getLast? h
    | false => exact List.mem_of_head? h
  simpa using hmem

end Tracks

section Simulation

variable {w : World} {n : ℕ} {R : Routes}

theorem routes_modify {f : WebClient → WebClient} {g : Party → Party}
    (h : (f (w.clients n)).party = g (w.clients n).party) :
    (w.modify n f).routes = w.routes.modify n g := by
  have hclients : (fun k => (Function.update w.clients n (f (w.clients n)) k).party) =
      Function.update (fun k => (w.clients k).party) n (g (w.clients n).party) := by
    funext k
    by_cases hk : k = n
    · subst hk
      rw [Function.update_self, Function.update_self, h]
    · rw [Function.update_of_ne hk, Function.update_of_ne hk]
  exact congrArg (fun clients => { w.routes with clients }) hclients

theorem modify_eq_self {f : Party → Party} (h : f (R.clients n) = R.clients n) : R.modify n f = R := by
  rw [Net.modify, h, Function.update_eq_self]

theorem routes_same {f : WebClient → WebClient} (h : (f (w.clients n)).party = (w.clients n).party) :
    (w.modify n f).routes = w.routes :=
  (routes_modify (g := id) h).trans (modify_eq_self rfl)

@[simp] theorem routes_write {m : Message} : (w.write n m).routes = w.routes := routes_same rfl

@[simp] theorem routes_error {message : String} : (w.error n message).routes = w.routes := by
  rw [Net.error]
  split_ifs
  · exact routes_write
  · rfl

@[simp] theorem routes_failUpConnection {id message : String} :
    (w.failUpConnection n id message).routes = w.routes := by
  rw [Net.failUpConnection, routes_error]
  split_ifs
  · exact routes_write
  · rfl

theorem routes_action {ks : List ℕ} {a : Action} :
    (w.action ks a).routes = w.routes.action ks a := by
  have hclients : (fun k => (if k ∈ ks then Peer.put (w.clients k) a else w.clients k).party) =
      fun k => if k ∈ ks then Peer.put (w.clients k).party a else (w.clients k).party := by
    funext k
    exact apply_ite WebClient.party _ _ _
  exact congrArg (fun clients => { w.routes with clients }) hclients

theorem pushConn_of_none {γ : Type} [Peer γ] {w : Net γ} {r : ℕ}
    (h : Peer.group (w.clients (w.ups r).client) = none) : w.pushConn r = w := by
  unfold Net.pushConn
  dsimp only
  rw [h]

theorem pushConn_of_some {γ : Type} [Peer γ] {w : Net γ} {r g : ℕ}
    (h : Peer.group (w.clients (w.ups r).client) = some g) :
    w.pushConn r = { w.modifyUp r ({ · with pushed := false }) with
      delayed := w.delayed ++ [⟨r, g, w.getClients g (w.ups r).client⟩] } := by
  unfold Net.pushConn
  dsimp only
  rw [h]

theorem action_singleton {a : Action} : R.action [n] a = R.modify n (Peer.put · a) := by
  have hclients : (fun k => if k ∈ [n] then Peer.put (R.clients k) a else R.clients k) =
      Function.update R.clients n (Peer.put (R.clients n) a) := by
    funext k
    by_cases hk : k = n
    · subst hk
      rw [if_pos (List.mem_singleton_self k), Function.update_self]
    · rw [if_neg (by simpa using hk), Function.update_of_ne hk]
  exact congrArg (fun clients => { R with clients }) hclients

theorem routes_pushConn {r : ℕ} : (w.pushConn r).routes = w.routes.pushConn r := by
  cases h : (w.clients (w.ups r).client).group with
  | none => rw [pushConn_of_none h, pushConn_of_none (w := w.routes) h]
  | some g =>
      rw [pushConn_of_some h, pushConn_of_some (w := w.routes) h]
      rfl

theorem routes_pushConnNow {e : Delayed} : (w.pushConnNow e).routes = w.routes.pushConnNow e :=
  routes_action

theorem routes_newUpConn {id label : String} :
    (w.newUpConn n id label).routes = w.routes.newUpConn n id label := routes_pushConn

theorem routes_delUpConn {id : String} {push : Bool} :
    (w.delUpConn n id push).routes = w.routes.delUpConn n id push := by
  have hup : w.routes.getUpConn n id = w.getUpConn n id := rfl
  have hgroup : Peer.group (w.routes.clients n) = Peer.group (w.clients n) := rfl
  unfold Net.delUpConn
  rw [hup, hgroup]
  cases w.getUpConn n id with
  | none => rfl
  | some r =>
      cases push with
      | false => rfl
      | true =>
          cases Peer.group (w.clients n) with
          | none => rfl
          | some g => exact routes_action

/-- What is gone through one after the other goes through the routes in the same way. -/
theorem routes_foldl {α : Type} {l : List α} {f : World → α → World} {g : Routes → α → Routes}
    (h : ∀ w a, (f w a).routes = g w.routes a) (w : World) :
    (l.foldl f w).routes = l.foldl g w.routes := by
  induction l generalizing w with
  | nil => rfl
  | cons a l ih => rw [List.foldl_cons, ih, h, List.foldl_cons]

theorem routes_delUpConns {order : List ℕ} :
    (w.delUpConns n order).routes = w.routes.delUpConns n order :=
  routes_foldl (fun _ _ => routes_delUpConn) w

theorem routes_supersede {r : ℕ} {replace : String} :
    (w.supersede n r replace).routes = w.routes.supersede n r replace := by
  unfold Net.supersede
  split_ifs
  · exact routes_delUpConn
  · rfl

theorem routes_requestConns {target g : ℕ} {id : String} {order : List ℕ} :
    (w.requestConns target g id order).routes = w.routes.requestConns target g id order := by
  refine routes_foldl (fun w r => ?_) w
  have hups : w.routes.ups = w.ups := rfl
  rw [hups]
  split_ifs
  · rfl
  · exact routes_action

theorem link_party {c : WebClient} {id : String} :
    c.party.link id = (c.getDownConn id).map (·.link) := List.find?_map ..

theorem party_setDownConn {c : WebClient} {d : RtpDownConnection} :
    (c.setDownConn d).party = c.party.setLink d.link := by
  have hmap : (c.down.map fun d' => if d'.id = d.id then d else d').map (·.link) =
      (c.down.map (·.link)).map fun l => if l.id = d.id then d.link else l := by
    rw [List.map_map, List.map_map]
    refine List.map_congr_left fun d' _ => ?_
    exact apply_ite RtpDownConnection.link _ _ _
  exact congrArg (fun links => { c.party with links }) hmap

theorem routes_delDownConn {id : String} : (w.delDownConn n id).routes = w.routes.cut n id := by
  have hlink : (w.routes.clients n).link id = ((w.clients n).getDownConn id).map (·.link) := link_party
  unfold Net.delDownConn Net.cut
  rw [hlink]
  cases (w.clients n).getDownConn id with
  | none => rfl
  | some d =>
      refine routes_modify (g := fun p => { p with links := p.links.filter (·.id ≠ id) }) ?_
      have hfilter : ((w.clients n).down.filter (·.id ≠ id)).map (·.link) =
          ((w.clients n).down.map (·.link)).filter (·.id ≠ id) := by
        rw [List.filter_map]
        rfl
      exact congrArg (fun links => { (w.clients n).party with links }) hfilter

@[simp] theorem routes_closeDownConn {id message : String} :
    (w.closeDownConn n id message).routes = w.routes.cut n id := by
  rw [Net.closeDownConn, routes_error, routes_write, routes_delDownConn]

theorem routes_leaveGroup {order : List ℕ} :
    (w.leaveGroup n order).routes = w.routes.leave n order := by
  have hgroup : (w.routes.clients n).group = (w.clients n).group := rfl
  unfold Net.leaveGroup Net.leave
  rw [hgroup]
  cases (w.clients n).group with
  | none => rfl
  | some g =>
      have hids : ((w.delUpConns n order).clients n).down.map (·.id) =
          ((w.routes.delUpConns n order).clients n).links.map (·.id) := by
        rw [← routes_delUpConns]
        change _ = List.map (fun l : Link => l.id)
          (((w.delUpConns n order).clients n).down.map RtpDownConnection.link)
        rw [List.map_map]
        rfl
      have hleft : ((((w.delUpConns n order).clients n).down.map (·.id)).foldl
          (fun w id => w.delDownConn n id) (w.delUpConns n order)).routes =
          (((w.routes.delUpConns n order).clients n).links.map (·.id)).foldl
            (fun R id => R.cut n id) (w.routes.delUpConns n order) := by
        rw [routes_foldl (g := fun R id => R.cut n id) (fun _ _ => routes_delDownConn),
          routes_delUpConns, hids]
      have hgone (v : World) : ({ v.modify n ({ · with group := none, present := false, requested := [] })
            with rooms := Function.update v.rooms g ((v.rooms g).erase n) } : World).routes =
          { v.routes.modify n ({ · with group := none, requested := [] }) with
            rooms := Function.update v.routes.rooms g ((v.routes.rooms g).erase n) } :=
        congrArg (fun S : Routes =>
          { S with rooms := Function.update v.rooms g ((v.rooms g).erase n) })
          (routes_modify (w := v) (n := n)
            (f := ({ · with group := none, present := false, requested := [] }))
            (g := ({ · with group := none, requested := [] })) rfl)
      refine (hgone _).trans ?_
      rw [hleft]
      rfl

end Simulation

section Steps

variable {w : World} {n : ℕ} {R S : Routes} {id replace : String} {rtc : Rtc} {l : Label}

theorem cut_of_none (h : (R.clients n).link id = none) : R.cut n id = R := by
  rw [Net.cut, h]

theorem link_filter {p : Party} : { p with links := p.links.filter (·.id ≠ id) }.link id = none := by
  refine List.find?_eq_none.mpr fun l hl => ?_
  have hne := (List.mem_filter.mp hl).2
  simpa using hne

theorem cut_clients_self : ((R.cut n id).clients n).link id = none := by
  unfold Net.cut
  cases h : (R.clients n).link id with
  | none => exact h
  | some l =>
      have hself : Party.link { R.clients n with links := (R.clients n).links.filter (·.id ≠ id) } id =
          none := link_filter
      exact (congrArg (Party.link · id) (Function.update_self ..)).trans hself

theorem link_cutReplaced (h : replace ≠ "") : ((R.cutReplaced n replace).clients n).link replace = none := by
  rw [Net.cutReplaced, if_pos h]
  exact cut_clients_self

theorem link_setLink {p : Party} {l : Link} : (p.setLink l).link id =
    (p.link id).map fun l' => if l'.id = l.id then l else l' := by
  unfold Party.setLink Party.link
  dsimp only
  rw [List.find?_map]
  have hsame : ((fun l' : Link => decide (l'.id = id)) ∘ fun l' => if l'.id = l.id then l else l') =
      fun l' => decide (l'.id = id) := by
    funext l'
    rw [Function.comp_apply]
    split_ifs with hid
    · rw [hid]
    · rfl
  rw [hsame]

theorem cut_setLink {l : Link} {tracks : List RtpUpTrack} (h : (R.clients n).link id = some l) :
    (R.modify n (·.setLink { l with tracks })).cut n id = R.cut n id := by
  have hid : l.id = id := by simpa using List.find?_some h
  have hlink : ((R.modify n (·.setLink { l with tracks })).clients n).link id = some { l with tracks } := by
    have hself : (R.modify n (·.setLink { l with tracks })).clients n =
        (R.clients n).setLink { l with tracks } := Function.update_self ..
    rw [hself, link_setLink, h, Option.map_some, if_pos rfl]
  have hfilter : ((R.clients n).setLink { l with tracks }).links.filter (·.id ≠ id) =
      (R.clients n).links.filter (·.id ≠ id) := by
    unfold Party.setLink
    dsimp only
    induction (R.clients n).links with
    | nil => rfl
    | cons l' links ih =>
        rw [List.map_cons, List.filter_cons, List.filter_cons, ih]
        by_cases hl' : l'.id = l.id
        · rw [if_pos hl', if_neg (by simpa using hid), if_neg (by simpa using hl'.trans hid)]
        · rw [if_neg hl']
  unfold Net.cut
  rw [hlink, h]
  have hclients : Function.update (Function.update R.clients n ((R.clients n).setLink { l with tracks })) n
      { (R.clients n).setLink { l with tracks } with
        links := ((R.clients n).setLink { l with tracks }).links.filter (·.id ≠ id) } =
      Function.update R.clients n { R.clients n with
        links := (R.clients n).links.filter (·.id ≠ id) } := by
    rw [Function.update_idem, hfilter]
    rfl
  unfold Net.modify Net.modifyUp
  dsimp only
  rw [Function.update_self]
  exact congrArg (fun clients => { R.modifyUp l.remote fun u =>
    { u with locals := u.locals.erase n } with clients }) hclients

theorem link_id {p : Party} {l : Link} (h : p.link id = some l) : l.id = id := by
  simpa using List.find?_some h

theorem setLink_self {p : Party} {l : Link} (hids : (p.conns.map Prod.fst).Nodup) (h : p.link id = some l) :
    p.setLink l = p := by
  have hinj : ∀ a ∈ p.links, ∀ b ∈ p.links, a.id = b.id → a = b := by
    have hnodup : (p.links.map (·.id)).Nodup := by
      rw [Party.conns, List.map_map] at hids
      exact hids
    exact fun a ha b hb hab => List.inj_on_of_nodup_map hnodup ha hb hab
  have hmap : (p.links.map fun l' => if l'.id = l.id then l else l') = p.links := by
    conv_rhs => rw [← List.map_id p.links]
    refine List.map_congr_left fun l' hl' => ?_
    split_ifs with hid
    · exact hinj l (List.mem_of_find?_eq_some h) l' hl' hid.symm
    · rfl
  rw [Party.setLink, hmap]

/-- A negotiation is not seen in the routes. -/
theorem party_negotiate {c c' : WebClient} {up : RtpUpConnection} {down : RtpDownConnection}
    {restartIce : Bool} (h : c.negotiate rtc up down restartIce replace = .ok c' ∨
      c.negotiate rtc up down restartIce replace = .error c') :
    c'.party = c.party.setLink down.link := by
  by_cases hoffer : down.signalingState = .haveLocalOffer
  · rw [WebClient.negotiate, if_pos hoffer] at h
    rw [← Except.ok.inj (h.resolve_right (by rintro ⟨⟩))]
    exact party_setDownConn
  · rw [WebClient.negotiate, if_neg hoffer] at h
    by_cases hoffers : rtc.offers
    · rw [if_pos hoffers] at h
      rw [← Except.ok.inj (h.resolve_right (by rintro ⟨⟩))]
      change (c.setDownConn { down with
        negotiationNeeded := .unneeded, signalingState := .haveLocalOffer }).party = _
      exact party_setDownConn
    · rw [if_neg hoffers] at h
      rw [← Except.error.inj (h.resolve_left (by rintro ⟨⟩))]
      exact party_setDownConn

theorem routes_negotiate {c : WebClient} {up : RtpUpConnection} {down : RtpDownConnection}
    {restartIce : Bool}
    (h : (w.clients n).negotiate rtc up down restartIce replace = .ok c ∨
      (w.clients n).negotiate rtc up down restartIce replace = .error c) :
    (w.modify n fun _ => c).routes = w.routes.modify n (·.setLink down.link) :=
  routes_modify (party_negotiate h)

/-- The negotiation of a connection that stays as it is. -/
theorem routes_renegotiate {c : WebClient} {up : RtpUpConnection} {down down' : RtpDownConnection}
    {restartIce : Bool} (hids : ((w.routes.clients n).conns.map Prod.fst).Nodup)
    (hdown : (w.clients n).getDownConn id = some down) (hlink : down'.link = down.link)
    (h : (w.clients n).negotiate rtc up down' restartIce replace = .ok c ∨
      (w.clients n).negotiate rtc up down' restartIce replace = .error c) :
    (w.modify n fun _ => c).routes = w.routes := by
  rw [routes_negotiate h, hlink]
  refine modify_eq_self (@setLink_self id _ _ hids ?_)
  exact link_party.trans (by rw [hdown]; rfl)

theorem routes_asked {up : Option ℕ} {tracks : List RtpUpTrack} :
    (w.wanted n up tracks replace).1 = w.routes.asked n up tracks replace := by
  cases up with
  | none => rfl
  | some r =>
      unfold Net.wanted Net.asked
      have hlink (id : String) : (w.routes.clients n).link id =
          ((w.clients n).getDownConn id).map (·.link) := link_party
      dsimp only
      rw [hlink, Option.bind_map]
      rfl

theorem routes_cutReplaced : (if replace ≠ "" then w.delDownConn n replace else w).routes =
    w.routes.cutReplaced n replace := by
  unfold Net.cutReplaced
  split_ifs
  · exact routes_delDownConn
  · rfl

theorem merge_nil (ts : List RtpUpTrack) : merge [] ts = ts := by
  rw [merge, List.filter_nil, List.nil_append]
  exact List.filter_eq_self.mpr fun _ _ => by simp

/-- What is left to be closed at the end has been closed before. -/
theorem routes_closeReplaced : (w.closeReplaced n replace).routes = w.routes.cutReplaced n replace := by
  unfold Net.closeReplaced Net.cutReplaced
  split_ifs
  · exact routes_closeDownConn
  · rfl

theorem cutReplaced_of_none (h : replace ≠ "" → (R.clients n).link replace = none) :
    R.cutReplaced n replace = R := by
  by_cases hreplace : replace ≠ ""
  · rw [Net.cutReplaced, if_pos hreplace, cut_of_none (h hreplace)]
  · rw [Net.cutReplaced, if_neg hreplace]

theorem Broken.cutReplaced {r : ℕ} (h : Broken R n r replace S) :
    Broken R n r replace (S.cutReplaced n replace) := by
  unfold Net.cutReplaced
  split_ifs
  · exact h.cut _
  · exact h

theorem ups_cut (r : ℕ) : ((R.cut n id).ups r).id = (R.ups r).id ∧
    ((R.cut n id).ups r).closed = (R.ups r).closed ∧
    ((R.cut n id).ups r).client = (R.ups r).client := by
  unfold Net.cut
  cases (R.clients n).link id with
  | none => exact ⟨rfl, rfl, rfl⟩
  | some l =>
      by_cases hr : r = l.remote
      · subst hr
        simp [Net.modify, Net.modifyUp]
      · simp [Net.modify, Net.modifyUp, Function.update_of_ne hr]

theorem getUpConn_cut : (R.cut n id).getUpConns = R.getUpConns ∧ (R.cut n id).getUpConn = R.getUpConn := by
  have hfresh : (R.cut n id).fresh = R.fresh := by
    unfold Net.cut
    cases (R.clients n).link id <;> rfl
  have hups : (R.cut n id).getUpConns = R.getUpConns := by
    funext k
    unfold Net.getUpConns
    rw [hfresh]
    refine List.filter_congr fun r _ => ?_
    obtain ⟨-, hclosed, hclient⟩ := @ups_cut n R id r
    rw [hclosed, hclient]
  refine ⟨hups, ?_⟩
  funext k i
  unfold Net.getUpConn
  rw [hups]
  exact congrArg (fun q => (R.getUpConns k).find? q)
    (funext fun r => by rw [(@ups_cut n R id r).1])

/-- A down connection that is new has no tracks yet. -/
def attached (w : World) (n r : ℕ) : World :=
  (w.modifyUp r fun u => if n ∈ u.locals then u else { u with locals := u.locals ++ [n] }).modify n
    fun c => { c with down := c.down ++ [{ id := (w.ups r).id, remote := r }] }

theorem addDownConn_ok {w' : World} {r : ℕ} (h : w.addDownConn n rtc r = .ok w') :
    w.getUpConn n (w.ups r).id = none ∧
      (((w.clients n).getDownConn (w.ups r).id).isSome ∧ w' = w ∨
        (w.clients n).getDownConn (w.ups r).id = none ∧ (w.ups r).closed = false ∧
          w' = attached w n r) := by
  unfold Net.addDownConn at h
  dsimp only at h
  split_ifs at h with hup hdown hconnects hclosed
  · exact ⟨Option.not_isSome_iff_eq_none.mp hup, .inl ⟨hdown, (Except.ok.inj h).symm⟩⟩
  · exact ⟨Option.not_isSome_iff_eq_none.mp hup, .inr ⟨Option.not_isSome_iff_eq_none.mp hdown,
      by simpa using hclosed, (Except.ok.inj h).symm⟩⟩

theorem addDownConn_closed {r : ℕ} (h : w.addDownConn n rtc r = .error .closed) :
    (w.ups r).closed = true := by
  unfold Net.addDownConn at h
  dsimp only at h
  split_ifs at h with hup hdown hconnects hclosed
  · cases h
  · exact hclosed
  · cases h

theorem routes_attached {r : ℕ} : (attached w n r).routes = w.routes.attach n r [] := by
  refine routes_modify (g := fun p => { p with links := p.links ++ [⟨(w.ups r).id, r, none, []⟩] }) ?_
  exact congrArg (fun links => { (w.clients n).party with links }) (List.map_append ..)

/-- The tracks of a connection that has just been attached. -/
theorem attach_setLink {r : ℕ} {ts : List RtpUpTrack} (h : (R.clients n).link (R.ups r).id = none) :
    (R.attach n r []).modify n (·.setLink ⟨(R.ups r).id, r, none, ts⟩) = R.attach n r ts := by
  have hold : ((R.clients n).links.map fun l => if l.id = (R.ups r).id then
      (⟨(R.ups r).id, r, none, ts⟩ : Link) else l) = (R.clients n).links := by
    conv_rhs => rw [← List.map_id (R.clients n).links]
    refine List.map_congr_left fun l hl => if_neg ?_
    simpa using List.find?_eq_none.mp h l hl
  unfold Net.attach Net.modify
  dsimp only
  rw [Function.update_self, Function.update_idem]
  have hparty : ({ R.clients n with links := (R.clients n).links ++ [⟨(R.ups r).id, r, none, []⟩] } :
      Party).setLink ⟨(R.ups r).id, r, none, ts⟩ =
      { R.clients n with links := (R.clients n).links ++ [⟨(R.ups r).id, r, none, ts⟩] } := by
    unfold Party.setLink
    dsimp only
    rw [List.map_append, hold]
    simp
  exact congrArg (fun p => { R.modifyUp r fun u =>
    if n ∈ u.locals then u else { u with locals := u.locals ++ [n] } with
    clients := Function.update R.clients n p }) hparty

theorem link_attach {r : ℕ} {ts : List RtpUpTrack} (h : (R.clients n).link (R.ups r).id = none) :
    ((R.attach n r ts).clients n).link (R.ups r).id = some ⟨(R.ups r).id, r, none, ts⟩ := by
  have hself : (R.attach n r ts).clients n =
      { R.clients n with links := (R.clients n).links ++ [⟨(R.ups r).id, r, none, ts⟩] } :=
    Function.update_self ..
  rw [hself]
  unfold Party.link at h ⊢
  rw [List.find?_append, h]
  simp

theorem cutReplaced_up (r : ℕ) : ((R.cutReplaced n replace).ups r).id = (R.ups r).id ∧
    ((R.cutReplaced n replace).ups r).closed = (R.ups r).closed ∧
    ((R.cutReplaced n replace).ups r).client = (R.ups r).client := by
  unfold Net.cutReplaced
  split_ifs
  · exact ups_cut r
  · exact ⟨rfl, rfl, rfl⟩

theorem getUpConn_cutReplaced : (R.cutReplaced n replace).getUpConn = R.getUpConn := by
  unfold Net.cutReplaced
  split_ifs
  · exact getUpConn_cut.2
  · rfl

/-- The end of the handler of a push that asks for something. -/
structure Offered (R : Routes) (n r : ℕ) (replace : String) (requested : List RtpUpTrack)
    (S : Routes) (result : Except World World) : Prop where
  ok : ∀ w, result = .ok w → (R.ups r).closed = true ∧ w.routes = S ∨
    (R.getUpConn n (R.ups r).id = none ∧ (S.clients n).link (R.ups r).id = none ∧
      (R.ups r).closed = false ∧ w.routes = S.attach n r requested) ∨
    ∃ l, (S.clients n).link (R.ups r).id = some l ∧
      w.routes = S.modify n (·.setLink { l with tracks := merge l.tracks requested })
  error : ∀ w, result = .error w → Broken R n r replace w.routes

/-- The link of a connection once it has the tracks that are wanted. -/
def given (down : RtpDownConnection) (requested : List RtpUpTrack) : Link :=
  { down.link with tracks := merge down.link.tracks requested }

theorem giveTracks_ok {w' : World} {down : RtpDownConnection} {requested : List RtpUpTrack}
    {limitSid : Bool} (h : w.giveTracks n rtc down requested limitSid replace = .ok w') :
    w'.routes = w.routes.modify n (·.setLink (given down requested)) ∨
      merge down.link.tracks requested = down.link.tracks ∧
        w'.routes = (w.routes.modify n (·.setLink (given down requested))).cutReplaced n replace := by
  unfold Net.giveTracks at h
  cases hreplaced : replaceTracks rtc down.tracks requested limitSid with
  | none =>
      rw [hreplaced] at h
      cases h
  | some result =>
      obtain ⟨tracks, changed⟩ := result
      have hlink : { down with tracks }.link = given down requested :=
        congrArg (fun ts => { down.link with tracks := ts }) (replaceTracks_merge hreplaced)
      rw [hreplaced] at h
      cases changed with
      | false =>
          refine .inr ⟨(replaceTracks_merge hreplaced).symm.trans (replaceTracks_changed hreplaced rfl), ?_⟩
          rw [← Except.ok.inj h, routes_closeReplaced, ← hlink]
          exact congrArg (·.cutReplaced n replace)
            (routes_modify (f := (·.setDownConn { down with tracks }))
              (g := (·.setLink { down with tracks }.link)) party_setDownConn)
      | true =>
          left
          dsimp only at h
          cases hnegotiated : (w.clients n).negotiate rtc (w.ups down.remote) { down with tracks }
              false replace with
          | ok c =>
              rw [hnegotiated] at h
              rw [← Except.ok.inj h, routes_negotiate (.inl hnegotiated), hlink]
          | error c =>
              rw [hnegotiated] at h
              cases h

theorem giveTracks_error {w' : World} {r : ℕ} {down : RtpDownConnection}
    {requested : List RtpUpTrack} {limitSid : Bool} (hbroken : Broken R n r replace w.routes)
    (hlink : (w.routes.clients n).link (R.ups r).id = some down.link)
    (h : w.giveTracks n rtc down requested limitSid replace = .error w') :
    Broken R n r replace w'.routes := by
  unfold Net.giveTracks at h
  cases hreplaced : replaceTracks rtc down.tracks requested limitSid with
  | none =>
      rw [hreplaced] at h
      rw [← Except.error.inj h, routes_closeReplaced]
      exact hbroken.cutReplaced
  | some result =>
      obtain ⟨tracks, changed⟩ := result
      rw [hreplaced] at h
      cases changed with
      | false => cases h
      | true =>
          dsimp only at h
          cases hnegotiated : (w.clients n).negotiate rtc (w.ups down.remote) { down with tracks }
              false replace with
          | ok c =>
              rw [hnegotiated] at h
              cases h
          | error c =>
              rw [hnegotiated] at h
              have hid : (R.ups r).id = down.id := (link_id hlink).symm
              rw [← Except.error.inj h, routes_closeReplaced, routes_closeDownConn,
                routes_negotiate (.inr hnegotiated)]
              refine Broken.cutReplaced (Eq.mpr (congrArg _ ?_) (hbroken.cut down.id))
              exact cut_setLink (l := down.link) (hid ▸ hlink)

theorem offerTracks_offered {r : ℕ} {requested : List RtpUpTrack} {limitSid : Bool}
    (hw : w.routes = (R.take n).cutReplaced n replace) (hrequested : requested ≠ []) :
    Offered R n r replace requested w.routes (w.offerTracks n rtc r requested limitSid replace) := by
  obtain ⟨hid, hclosed, -⟩ : (w.ups r).id = (R.ups r).id ∧ (w.ups r).closed = (R.ups r).closed ∧
      (w.ups r).client = (R.ups r).client := by
    have hups : w.ups = ((R.take n).cutReplaced n replace).ups := congrArg Net.ups hw
    rw [hups]
    exact cutReplaced_up r
  have hup (id : String) : w.getUpConn n id = R.getUpConn n id := by
    have hroutes : w.routes.getUpConn = (R.take n).getUpConn := by rw [hw, getUpConn_cutReplaced]
    exact congrFun (congrFun hroutes n) id
  have hnone (h : replace ≠ "") : (w.routes.clients n).link replace = none := by
    rw [hw]
    exact link_cutReplaced h
  have hbroken : Broken R n r replace w.routes := hw ▸ .early
  have hlink (v : World) (id : String) : (v.routes.clients n).link id =
      ((v.clients n).getDownConn id).map (·.link) := link_party
  unfold Net.offerTracks
  cases hadd : w.addDownConn n rtc r with
  | error e =>
      cases e with
      | closed =>
          refine ⟨fun w' h => .inl ⟨?_, ?_⟩, fun w' h => (by cases h)⟩
          · rw [← hclosed]
            exact addDownConn_closed hadd
          · rw [← Except.ok.inj h, routes_closeReplaced, cutReplaced_of_none hnone]
      | duplicate | failed =>
          refine ⟨fun w' h => (by cases h), fun w' h => ?_⟩
          rw [← Except.error.inj h, routes_closeReplaced]
          exact hbroken.cutReplaced
  | ok v =>
      obtain ⟨hfree, ⟨hsome, rfl⟩ | ⟨hnew, hopen, rfl⟩⟩ := addDownConn_ok hadd
      · obtain ⟨down, hdown⟩ := Option.isSome_iff_exists.mp hsome
        have hold : (v.routes.clients n).link (R.ups r).id = some down.link := by
          rw [hlink, ← hid, hdown]
          rfl
        dsimp only
        rw [hdown]
        refine ⟨fun w' h => .inr (.inr ⟨down.link, hold, ?_⟩), fun w' h => giveTracks_error hbroken hold h⟩
        rcases giveTracks_ok h with h | ⟨-, h⟩
        · exact h
        · refine h.trans (cutReplaced_of_none fun hreplace => ?_)
          have hself : (v.routes.modify n (·.setLink (given down requested))).clients n =
              (v.routes.clients n).setLink (given down requested) := Function.update_self ..
          rw [hself, link_setLink, hnone hreplace]
          rfl
      · have hnolink : (w.routes.clients n).link (w.routes.ups r).id = none := by
          rw [hlink]
          exact congrArg _ hnew
        have hlinked := @link_attach n w.routes r [] hnolink
        rw [← routes_attached, hlink] at hlinked
        obtain ⟨down, hdown, hdownlink⟩ := Option.map_eq_some_iff.mp hlinked
        have hgiven : given down requested = ⟨(w.routes.ups r).id, r, none, requested⟩ := by
          rw [given, hdownlink, merge_nil]
        have hids : ((attached w n r).ups r).id = (w.ups r).id := by
          unfold attached Net.modify Net.modifyUp
          dsimp only
          rw [Function.update_self]
          split_ifs <;> rfl
        dsimp only
        rw [hids]
        have hdown' : ((attached w n r).clients n).getDownConn (w.ups r).id = some down := hdown
        rw [hdown']
        have hroutesid : (w.routes.ups r).id = (R.ups r).id := hid
        refine ⟨fun w' h => .inr (.inl ⟨?_, ?_, ?_, ?_⟩), fun w' h => giveTracks_error ?_ ?_ h⟩
        · rw [← hup, ← hid]
          exact hfree
        · rw [← hroutesid]
          exact hnolink
        · rw [← hclosed]
          exact hopen
        · rcases giveTracks_ok h with h | ⟨hsame, -⟩
          · rw [h, hgiven, routes_attached, attach_setLink hnolink]
          · rw [hdownlink, merge_nil] at hsame
            exact absurd hsame hrequested
        · rw [routes_attached]
          exact hbroken.attach (by rw [← hup, ← hid]; exact hfree) (hroutesid ▸ hnolink)
            (hclosed ▸ hopen)
        · rw [hlink, ← hroutesid, hlinked, hdownlink]

section Handlers

variable {w' : World} {order : List ℕ} {a : Action} {rest : List Action}

theorem routes_take (hactions : (w.clients n).actions = a :: rest) :
    (w.modify n ({ · with actions := rest })).routes = w.routes.take n := by
  refine routes_modify (g := fun p => { p with actions := p.actions.tail }) ?_
  have htail : rest = (w.clients n).actions.tail := by rw [hactions]; rfl
  exact congrArg (fun actions => { (w.clients n).party with actions }) htail

theorem routes_finish_error :
    (Net.finish n order (.error w)).routes = w.routes.leave n order :=
  (routes_same (w := w.leaveGroup n order) (f := ({ · with ended := true })) rfl).trans
    routes_leaveGroup

theorem asked_take {up : Option ℕ} {tracks : List RtpUpTrack} :
    (R.take n).asked n up tracks replace = R.asked n up tracks replace := by
  have hself : (R.take n).clients n = { R.clients n with actions := (R.clients n).actions.tail } :=
    Function.update_self ..
  cases up with
  | none => rfl
  | some r =>
      unfold Net.asked
      rw [hself]
      rfl

theorem pushDownConn_outcome {g : ℕ} {id : String} {conn : Option ℕ} {tracks : List RtpUpTrack}
    (hactions : (R.clients n).actions = .pushConn g id conn tracks replace :: rest)
    (hgroup : (R.clients n).group = some g) (hperm : order.Perm (R.getUpConns n))
    (hw : w.routes = R.take n) :
    Outcome R (.action n rtc order)
      (Net.finish n order (w.pushDownConn n rtc id conn tracks replace)).routes := by
  have hreplaced : (if replace ≠ "" then w.delDownConn n replace else w).routes =
      (R.take n).cutReplaced n replace := by
    rw [routes_cutReplaced, hw]
  have hasked : (w.wanted n conn tracks replace).1 = R.asked n conn tracks replace := by
    rw [routes_asked, hw, asked_take]
  have hdrop (h : R.asked n conn tracks replace = []) : Outcome R (.action n rtc order)
      (((if replace ≠ "" then w.delDownConn n replace else w).closeDownConn n id "").closeReplaced n
        replace).routes := by
    rw [routes_closeReplaced, routes_closeDownConn, hreplaced, cutReplaced_of_none]
    · exact .drop hactions hgroup h
    · intro hreplace
      have hnone := link_cutReplaced (R := R.take n) (n := n) hreplace
      by_cases hcut : (((R.take n).cutReplaced n replace).clients n).link id = none
      · rw [cut_of_none hcut]
        exact hnone
      · obtain ⟨l, hl⟩ := Option.ne_none_iff_exists'.mp hcut
        unfold Net.cut
        rw [hl]
        have hself := Function.update_self n
          ({ (((R.take n).cutReplaced n replace).clients n) with
            links := (((R.take n).cutReplaced n replace).clients n).links.filter (·.id ≠ id) } : Party)
          ((R.take n).cutReplaced n replace).clients
        refine (congrArg (Party.link · replace) hself).trans ?_
        refine List.find?_eq_none.mpr fun l' hl' => ?_
        exact List.find?_eq_none.mp hnone l' (List.mem_filter.mp hl').1
  unfold Net.pushDownConn
  cases hwanted : w.wanted n conn tracks replace with
  | mk requested limitSid =>
      rw [hwanted] at hasked
      cases requested with
      | nil => exact hdrop hasked.symm
      | cons t ts =>
          cases conn with
          | none => exact hdrop rfl
          | some r =>
              have hoffered := @offerTracks_offered _ n R replace rtc r (t :: ts) limitSid hreplaced
                (List.cons_ne_nil t ts)
              replace hasked : t :: ts = R.asked n (some r) tracks replace := hasked
              have hne : R.asked n (some r) tracks replace ≠ [] := hasked ▸ List.cons_ne_nil t ts
              dsimp only
              cases hresult : Net.offerTracks (if replace ≠ "" then w.delDownConn n replace else w) n
                  rtc r (t :: ts) limitSid replace with
              | ok w' =>
                  change Outcome R _ w'.routes
                  rcases hoffered.ok w' hresult with
                    ⟨hclosed, h⟩ | ⟨hup, hlink, hopen, h⟩ | ⟨l, hlink, h⟩
                  · rw [h, hreplaced]
                    exact .late hactions hgroup hclosed
                  · rw [h, hreplaced, hasked]
                    rw [hreplaced] at hlink
                    exact .attach hactions hgroup hne hup rfl hlink hopen
                  · rw [h, hreplaced, hasked]
                    rw [hreplaced] at hlink
                    exact .update hactions hgroup hne rfl hlink
              | error w' =>
                  have hbroken := hoffered.error w' hresult
                  rw [routes_finish_error]
                  exact .broken hactions hgroup hperm hbroken

/-- What is known of a client in any case. -/
structure Party.WellFormed (p : Party) : Prop where
  ids : (p.conns.map Prod.fst).Nodup
  outside : p.group = none → p.links = []

theorem Party.WellFormed.group {p : Party} {l : Link} (h : p.WellFormed) (hl : p.link id = some l) :
    ∃ g, p.group = some g := by
  refine Option.ne_none_iff_exists'.mp fun hnone => ?_
  have hmem := List.mem_of_find?_eq_some hl
  rw [h.outside hnone] at hmem
  cases hmem

theorem handleAction_outcome {a : Action} (hwell : (R.clients n).WellFormed)
    (hactions : (R.clients n).actions = a :: rest) (hperm : order.Perm (R.getUpConns n))
    (hw : w.routes = R.take n) :
    Outcome R (.action n rtc order) (Net.finish n order (w.handleAction n rtc order a)).routes := by
  have hself : w.routes.clients n = { R.clients n with actions := (R.clients n).actions.tail } := by
    rw [hw]
    exact Function.update_self ..
  have hgroup : (w.clients n).group = (R.clients n).group := congrArg Party.group hself
  have hlink (id : String) : (R.clients n).link id = ((w.clients n).getDownConn id).map (·.link) := by
    rw [← link_party]
    exact (congrArg (Party.link · id) hself).symm
  have hids : ((w.routes.clients n).conns.map Prod.fst).Nodup := by
    rw [hself]
    exact hwell.ids
  have hups : w.ups = R.ups := congrArg Net.ups hw
  have hidle (hidle : Idle R n a) : Outcome R (.action n rtc order) w.routes :=
    hw ▸ .skip hactions hidle
  cases a with
  | pushConn g id conn tracks replace =>
      by_cases hg : (R.clients n).group ≠ some g
      · rw [Net.handleAction, if_pos (by rw [hgroup]; exact hg)]
        exact hidle hg
      · rw [Net.handleAction, if_neg (by rw [hgroup]; exact hg)]
        exact pushDownConn_outcome hactions (not_not.mp hg) hperm hw
  | requestConns g target id =>
      by_cases hg : (R.clients n).group ≠ some g
      · rw [Net.handleAction, if_pos (by rw [hgroup]; exact hg)]
        exact hidle hg
      · rw [Net.handleAction, if_neg (by rw [hgroup]; exact hg)]
        change Outcome R _ (w.requestConns target g id order).routes
        rw [routes_requestConns, hw]
        exact .reply hactions (not_not.mp hg) hperm
  | connectionFailed id =>
      rw [Net.handleAction]
      cases hdown : (w.clients n).getDownConn id with
      | none =>
          have hsame : (if (w.getUpConn n id).isSome then w.write n (.renegotiate id) else w).routes =
              w.routes := by
            split_ifs
            · exact routes_write
            · rfl
          dsimp only
          change Outcome R _ (if (w.getUpConn n id).isSome then w.write n (.renegotiate id) else w).routes
          rw [hsame]
          exact hidle ((hlink id).trans (by rw [hdown]; rfl))
      | some down =>
          have hl : (R.clients n).link id = some down.link := (hlink id).trans (by rw [hdown]; rfl)
          obtain ⟨g, hg⟩ := hwell.group hl
          dsimp only
          cases hnegotiated : (w.clients n).negotiate rtc (w.ups down.remote) down true "" with
          | error c =>
              dsimp only
              rw [routes_finish_error, routes_renegotiate hids hdown rfl (.inr hnegotiated), hw]
              exact .failed hactions hperm
          | ok c =>
              have hparty : c.group = some g := by
                have hroutes := routes_renegotiate hids hdown rfl (.inl hnegotiated)
                have hc : c.party = w.routes.clients n := by
                  rw [← hroutes]
                  exact (congrArg WebClient.party (Function.update_self ..)).symm
                exact (congrArg Party.group hc).trans (hgroup.trans hg)
              dsimp only
              rw [hparty]
              change Outcome R _ (((w.modify n fun _ => c).action [n] _).routes)
              rw [routes_action, routes_renegotiate hids hdown rfl (.inl hnegotiated), hw]
              have hecho := @Outcome.echo R n g id _ _ rtc order hactions hg hl
              rw [← hups] at hecho
              exact hecho
  | permissionsChanged =>
      rw [Net.handleAction]
      cases hg : (w.clients n).group with
      | none =>
          dsimp only
          rw [routes_finish_error, hw]
          exact .failed hactions hperm
      | some g =>
          dsimp only
          by_cases hpresent : (w.clients n).present
          · rw [if_pos hpresent]
            exact hidle trivial
          · rw [if_neg hpresent]
            have hdeny : (order.foldl (fun w r =>
                let id := (w.ups r).id
                if (w.getUpConn n id).isSome then
                  (w.delUpConn n id true).failUpConnection n id "permission denied"
                else w) w).routes = (R.take n).delUpConns n order := by
              rw [← hw]
              refine routes_foldl (fun v r => ?_) w
              dsimp only
              split_ifs with hup
              · exact routes_failUpConnection.trans routes_delUpConn
              · have hnone : v.routes.getUpConn n (v.routes.ups r).id = none :=
                  Option.not_isSome_iff_eq_none.mp hup
                rw [Net.delUpConn, hnone]
            change Outcome R _ (List.foldl _ w order).routes
            rw [hdeny]
            exact .deny hactions hperm

theorem gotOffer_outcome {g : ℕ} {id label replace : String} (hgroup : (w.clients n).group = some g) :
    Outcome w.routes (.message n (.offer id label replace) rtc order)
      (w.gotOffer n rtc id label replace).routes := by
  have hanswered (v : World) : (if rtc.accepts then v.write n (.answer id)
      else v.failUpConnection n id rtc.error).routes = v.routes := by
    split_ifs
    · exact routes_write
    · exact routes_failUpConnection
  unfold Net.gotOffer Net.addUpConn
  by_cases hdown : ((w.clients n).getDownConn id).isSome
  · rw [if_pos hdown]
    dsimp only
    rw [routes_failUpConnection]
    exact .same _
  · rw [if_neg hdown]
    have hlink : (w.routes.clients n).link id = none := by
      refine link_party.trans ?_
      rw [Option.not_isSome_iff_eq_none.mp hdown]
      rfl
    cases hup : w.getUpConn n id with
    | some r =>
        dsimp only
        rw [hanswered, routes_supersede]
        exact .again hup
    | none =>
        dsimp only
        by_cases hconnects : rtc.connects
        · rw [if_pos hconnects]
          dsimp only
          rw [hanswered, routes_supersede, routes_newUpConn]
          exact .publish hgroup hlink hup
        · rw [if_neg hconnects]
          dsimp only
          rw [routes_failUpConnection]
          exact .same _

/-- A client whose message is an error leaves. -/
theorem finish_error_outcome {m : ClientMessage} {v : World} (hperm : order.Perm (w.getUpConns n))
    (hv : v.routes = w.routes) : Outcome w.routes (.message n m rtc order)
      (Net.finish n order (.error v)).routes := by
  rw [routes_finish_error, hv]
  exact .leave _ hperm

theorem requestStream_outcome {id : String} {requested : Option (List String)}
    (hwell : (w.routes.clients n).WellFormed) :
    Outcome w.routes (.message n (.requestStream id requested) rtc order)
      (Net.finish n order (w.handleClientMessage n rtc (.requestStream id requested))).routes := by
  have hlink : (w.routes.clients n).link id = ((w.clients n).getDownConn id).map (·.link) :=
    link_party
  rw [Net.handleClientMessage]
  cases hdown : (w.clients n).getDownConn id with
  | none => exact .same _
  | some down =>
      have hl : (w.routes.clients n).link id = some down.link := hlink.trans (by rw [hdown]; rfl)
      obtain ⟨g, hg⟩ := hwell.group hl
      have hg' : (w.clients n).group = some g := hg
      dsimp only
      rw [hg']
      change Outcome _ _ (((w.modify n (·.setDownConn { down with requested })).action _ _).routes)
      rw [routes_action, routes_modify (g := (·.setLink { down.link with requested }))
        party_setDownConn]
      exact .askStream hl hg

theorem offer_outcome {id label replace : String} (hperm : order.Perm (w.getUpConns n))
    (hcrashes : w.crashes n (.offer id label replace) = false) :
    Outcome w.routes (.message n (.offer id label replace) rtc order)
      (Net.finish n order (w.handleClientMessage n rtc (.offer id label replace))).routes := by
  rw [Net.handleClientMessage]
  by_cases hid : id = ""
  · rw [if_pos hid]
    exact finish_error_outcome hperm rfl
  · rw [if_neg hid]
    by_cases hpresent : (w.clients n).present
    · rw [if_pos hpresent]
      rw [Net.crashes, hpresent, Bool.true_and] at hcrashes
      obtain ⟨g, hg⟩ := Option.isSome_iff_exists.mp (by simpa using hcrashes)
      exact gotOffer_outcome hg
    · rw [if_neg hpresent]
      change Outcome _ _ (((if replace ≠ "" then w.delUpConn n replace true else w).write n
        (.abort id)).error n "not authorised").routes
      rw [routes_error, routes_write]
      split_ifs
      · rw [routes_delUpConn]
        exact .close _
      · exact .same _

theorem answer_outcome {id : String} (hwell : (w.routes.clients n).WellFormed)
    (hperm : order.Perm (w.getUpConns n)) :
    Outcome w.routes (.message n (.answer id) rtc order)
      (Net.finish n order (w.handleClientMessage n rtc (.answer id))).routes := by
  have hlink : (w.routes.clients n).link id = ((w.clients n).getDownConn id).map (·.link) :=
    link_party
  rw [Net.handleClientMessage]
  by_cases hid : id = ""
  · rw [if_pos hid]
    exact finish_error_outcome hperm rfl
  · rw [if_neg hid]
    cases hdown : (w.clients n).getDownConn id with
    | none =>
        change Outcome _ _ (w.closeDownConn n id "").routes
        rw [routes_closeDownConn]
        exact .answer
    | some down =>
        dsimp only
        by_cases haccepted : rtc.accepts ∧ down.signalingState = .haveLocalOffer
        · rw [if_neg (not_not.mpr haccepted)]
          have hanswered : { down with signalingState := .stable }.link = down.link := rfl
          by_cases hneeded : down.negotiationNeeded = .unneeded
          · rw [if_pos hneeded]
            change Outcome _ _ (w.modify n (·.setDownConn
              { down with signalingState := .stable })).routes
            rw [routes_modify (g := (·.setLink down.link)) party_setDownConn, modify_eq_self]
            · exact .same _
            · exact setLink_self hwell.ids (hlink.trans (by rw [hdown]; rfl))
          · rw [if_neg hneeded]
            cases hnegotiated : (w.clients n).negotiate rtc (w.ups down.remote)
                { down with signalingState := .stable } (down.negotiationNeeded = .restartIce) "" with
            | ok c =>
                change Outcome _ _ (w.modify n fun _ => c).routes
                rw [routes_renegotiate hwell.ids hdown hanswered (.inl hnegotiated)]
                exact .same _
            | error c =>
                change Outcome _ _ ((w.modify n fun _ => c).closeDownConn n id rtc.error).routes
                rw [routes_closeDownConn,
                  routes_renegotiate hwell.ids hdown hanswered (.inr hnegotiated)]
                exact .answer
        · rw [if_pos haccepted]
          change Outcome _ _ (w.closeDownConn n id rtc.error).routes
          rw [routes_closeDownConn]
          exact .answer

theorem renegotiate_outcome {id : String} (hwell : (w.routes.clients n).WellFormed)
    (hperm : order.Perm (w.getUpConns n)) :
    Outcome w.routes (.message n (.renegotiate id) rtc order)
      (Net.finish n order (w.handleClientMessage n rtc (.renegotiate id))).routes := by
  rw [Net.handleClientMessage]
  by_cases hid : id = ""
  · rw [if_pos hid]
    exact finish_error_outcome hperm rfl
  · rw [if_neg hid]
    cases hdown : (w.clients n).getDownConn id with
    | none => exact .same _
    | some down =>
        dsimp only
        cases hnegotiated : (w.clients n).negotiate rtc (w.ups down.remote) down true "" with
        | ok c =>
            change Outcome _ _ (w.modify n fun _ => c).routes
            rw [routes_renegotiate hwell.ids hdown rfl (.inl hnegotiated)]
            exact .same _
        | error c =>
            change Outcome _ _ ((w.modify n fun _ => c).closeDownConn n id rtc.error).routes
            rw [routes_closeDownConn, routes_renegotiate hwell.ids hdown rfl (.inr hnegotiated)]
            exact .renegotiate

theorem handleClientMessage_outcome {m : ClientMessage} (hwell : (w.routes.clients n).WellFormed)
    (hperm : order.Perm (w.getUpConns n)) (hcrashes : w.crashes n m = false) :
    Outcome w.routes (.message n m rtc order)
      (Net.finish n order (w.handleClientMessage n rtc m)).routes := by
  cases m with
  | request requested =>
      rw [Net.handleClientMessage]
      cases hg : (w.clients n).group with
      | none => exact finish_error_outcome hperm rfl
      | some g =>
          change Outcome _ _ (((w.modify n ({ · with requested })).action _ _).routes)
          rw [routes_action, routes_modify (g := ({ · with requested })) rfl]
          exact .ask _ hg
  | requestStream id requested => exact requestStream_outcome hwell
  | offer id label replace => exact offer_outcome hperm hcrashes
  | answer id => exact answer_outcome hwell hperm
  | renegotiate id => exact renegotiate_outcome hwell hperm
  | close id =>
      rw [Net.handleClientMessage]
      by_cases hid : id = ""
      · rw [if_pos hid]
        exact finish_error_outcome hperm rfl
      · rw [if_neg hid]
        change Outcome _ _ (w.delUpConn n id true).routes
        rw [routes_delUpConn]
        exact .close _
  | abort id =>
      rw [Net.handleClientMessage]
      by_cases hid : id = ""
      · rw [if_pos hid]
        exact finish_error_outcome hperm rfl
      · rw [if_neg hid]
        change Outcome _ _ (w.closeDownConn n id "").routes
        rw [routes_closeDownConn]
        exact .abort

end Handlers

/-- A step of the clients, seen in the routes. -/
theorem step_outcome {w' : World} (hwell : ∀ n, (w.routes.clients n).WellFormed)
    (h : step w l = some w') : Outcome w.routes l w'.routes := by
  cases l with
  | join n g present =>
      rw [step] at h
      dsimp only at h
      split_ifs at h with hjoin
      obtain ⟨-, hgroup⟩ := not_or.mp hjoin
      rw [← Option.some.inj h]
      have hentered : ({ w.modify n fun c => { c with
            group := some g, present, stay := (w.clients n).stay + 1 } with
          rooms := Function.update w.rooms g (w.rooms g ++ [n]) } : World).routes =
          w.routes.enter n g :=
        congrArg (fun S : Routes => { S with rooms := Function.update w.rooms g (w.rooms g ++ [n]) })
          (routes_modify (w := w) (n := n)
            (f := fun c => { c with group := some g, present, stay := (w.clients n).stay + 1 })
            (g := ({ · with group := some g })) rfl)
      rw [hentered]
      exact .enter (not_not.mp hgroup)
  | leave n order =>
      rw [step] at h
      split_ifs at h with hleave
      obtain ⟨-, hperm⟩ := not_or.mp hleave
      rw [← Option.some.inj h, routes_leaveGroup]
      exact .leave _ (not_not.mp hperm)
  | lost n order =>
      rw [step] at h
      split_ifs at h with hlost
      obtain ⟨-, hperm⟩ := not_or.mp hlost
      rw [← Option.some.inj h, routes_finish_error]
      exact .leave _ (not_not.mp hperm)
  | permit n present =>
      rw [step] at h
      split_ifs at h with hended
      rw [← Option.some.inj h, routes_modify (g := (Peer.put · .permissionsChanged)) rfl,
        ← action_singleton]
      exact .queue _ (.inl rfl)
  | message n m rtc order =>
      rw [step] at h
      split_ifs at h with hmessage
      obtain ⟨-, hmessage⟩ := not_or.mp hmessage
      obtain ⟨hperm, hcrashes⟩ := not_or.mp hmessage
      rw [← Option.some.inj h]
      exact handleClientMessage_outcome (hwell n) (not_not.mp hperm) (by simpa using hcrashes)
  | action n rtc order =>
      rw [step] at h
      split_ifs at h with haction
      obtain ⟨-, hperm⟩ := not_or.mp haction
      cases hactions : (w.clients n).actions with
      | nil =>
          rw [hactions] at h
          cases h
      | cons a rest =>
          rw [hactions] at h
          rw [← Option.some.inj h]
          exact handleAction_outcome (hwell n) hactions (not_not.mp hperm) (routes_take hactions)
  | onTrack r track =>
      rw [step] at h
      split_ifs at h with htrack
      rw [← Option.some.inj h, routes_pushConn]
      exact .onTrack htrack.1 htrack.2
  | failed n id =>
      rw [← Option.some.inj h, routes_action]
      exact .queue _ (.inr ⟨id, rfl⟩)
  | wake i =>
      rw [step] at h
      cases he : w.delayed[i]? with
      | none =>
          rw [he] at h
          cases h
      | some e =>
          rw [he] at h
          rw [← Option.some.inj h]
          have hwoken := Outcome.wake (R := w.routes) he rfl
          have hroutes : (if (w.ups e.up).pushed then { w with delayed := w.delayed.eraseIdx i }
              else { w with delayed := w.delayed.eraseIdx i }.pushConnNow e : World).routes =
              if (w.ups e.up).pushed then { w.routes with delayed := w.delayed.eraseIdx i }
              else { w.routes with delayed := w.delayed.eraseIdx i }.pushConnNow e := by
            split_ifs
            · rfl
            · exact routes_pushConnNow
          exact hroutes ▸ hwoken

end Steps

end Sozvon.Streams
