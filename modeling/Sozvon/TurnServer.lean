import Sozvon.NetAddr
import Sozvon.Runs
import Mathlib.Data.Int.Notation
import Mathlib.Data.List.Nodup
import Mathlib.Algebra.Group.Nat.Defs

/-!
# The built-in TURN server

`Start` listens in two optional parts, in clear text and over TLS, and adds what
it listens on to the addresses that are advertised before it knows whether there
will be a server. Only one of its errors takes this back.

The system around it is given with each call, as a `World`: what the lookups
give, and which listens work. A listen on an address that is bound never works.
A socket is bound until it is closed; the sockets of a server are closed with
it, and those given to a server that cannot be made are closed too.
-/
namespace Sozvon.TurnServer
open NetAddr Runs

section Code

/-- The flags `-turn` and `-turn-tls`. -/
structure Config where
  address : Text := ascii "auto"
  tlsAddress : Text := []
deriving DecidableEq

inductive Network where
  | udp
  | tcp
deriving DecidableEq, Repr

/-- A socket: where it is bound, the address it relays from and, if TLS is spoken
on it, the host name it is known by. The IP address 0 stands for all of them. -/
structure Listener where
  network : Network
  ip : BitVec 32
  port : ℕ
  relay : BitVec 32
  host : Option Text := none
deriving DecidableEq, Repr

def Listener.endpoint (l : Listener) : Network × BitVec 32 × ℕ := (l.network, l.ip, l.port)

/-- An address that is advertised, a `net.UDPAddr`, a `net.TCPAddr` or a
`tlsAddr`. -/
inductive Address where
  | udp (ip : BitVec 32) (port : ℕ)
  | tcp (ip : BitVec 32) (port : ℕ)
  | tls (host : Text) (port : ℕ)
deriving DecidableEq, Repr

inductive Error where
  | disabled
  | rand
  | resolve
  | parseAddress
  | interfaces
  | noPublicAddresses
  | needsHostname
  | badPort
  | lookup
  | noIPv4
  | noListeners
  | newServer
  | close
deriving DecidableEq, Repr

/-- Whether the two listens on an address work. -/
structure Listens where
  udp : Bool := true
  tcp : Bool := true
deriving DecidableEq, Repr

structure UDPAddr where
  ip : Option Addr
  port : ℕ
deriving DecidableEq

/-- What the system does in a call: the text of the random password, the lookups,
and what works. -/
structure World where
  rand : Option Text := some []
  resolveUDPAddr : Text → Option UDPAddr
  interfaceAddrs : Option (List (Addr × Listens))
  listens : Listens := {}
  lookupIP : Text → Option (List Addr)
  tls : Bool := true
  newServer : Bool := true
  close : Bool := true

structure State where
  username : Text := []
  password : Text := []
  addresses : List Address := []
  server : Option (List Listener) := none
  auto : Bool := false
  bound : List Listener := []
deriving DecidableEq

def to4 (a : Addr) : Option (BitVec 32) :=
  match a.unmap with
  | .v4 bits => some bits
  | .v6 _ _ => none

def isUnspecified (a : Addr) : Bool := a.unmap = .v4 0 ∨ a.withoutZone = .v6 0 []

def octet (a : BitVec 32) (i : ℕ) : ℕ := (a.extractLsb' (24 - 8 * i) 8).toNat

def isGlobalUnicast (a : BitVec 32) : Bool :=
  a ≠ 0xffffffff#32 ∧ a ≠ 0 ∧ octet a 0 ≠ 127 ∧ ¬ (224 ≤ octet a 0 ∧ octet a 0 < 240) ∧
    ¬ (octet a 0 = 169 ∧ octet a 1 = 254)

def isPrivate (a : BitVec 32) : Bool :=
  octet a 0 = 10 ∨ octet a 0 = 172 ∧ 16 ≤ octet a 1 ∧ octet a 1 < 32 ∨
    octet a 0 = 192 ∧ octet a 1 = 168

/-- The addresses of the host that are reachable from everywhere, with what
comes of listening on them. -/
def publicAddresses (w : World) : Option (List (BitVec 32 × Listens)) :=
  w.interfaceAddrs.map fun addrs => addrs.filterMap fun (addr, listens) =>
    match to4 addr with
    | none => none
    | some a => if isGlobalUnicast a ∧ ¬ isPrivate a then some (a, listens) else none

/-- A listen that is tried and whether the system lets it work. -/
abbrev Attempt := Listener × Bool

def listener (listens : Listens) (ip : BitVec 32) (port : ℕ) (relay : BitVec 32) : List Attempt :=
  [(⟨.udp, ip, port, relay, none⟩, listens.udp), (⟨.tcp, ip, port, relay, none⟩, listens.tcp)]

/-- The listens one after the other, each on an address that is still free. -/
def listenAll (bound : List Listener) : List Attempt → List Listener
  | [] => []
  | (l, works) :: rest =>
      if works ∧ l.endpoint ∉ bound.map Listener.endpoint then
        l :: listenAll (bound ++ [l]) rest
      else listenAll bound rest

/-- `net.SplitHostPort` -/
def splitHostPort (s : Text) : Option (Text × Text) := do
  let (front, port) ← cutLast colon s
  let host ←
    if s.head? = some opening then
      if 2 ≤ front.length ∧ front.getLast? = some closing then some (front.drop 1).dropLast
      else none
    else if colon ∈ front then none
    else some front
  if opening ∈ host ++ port ∨ closing ∈ host ++ port then none else some (host, port)

/-- `strconv.Atoi` -/
def atoi (s : Text) : Option ℤ :=
  match s with
  | 0x2b :: s => (parseDecimal (2 ^ 63 - 1) s).map Int.ofNat
  | 0x2d :: s => (parseDecimal (2 ^ 63) s).map fun n => -Int.ofNat n
  | s => (parseDecimal (2 ^ 63 - 1) s).map Int.ofNat

def splitTLSAddress (a : Text) : Except Error (Text × ℕ) :=
  match splitHostPort a with
  | none => .ok (a, 5349)
  | some (host, port) =>
      if host = [] then .error .needsHostname
      else
        match atoi port with
        | none => .error .badPort
        | some p => if p ≤ 0 ∨ 65535 < p then .error .badPort else .ok (host, p.toNat)

def relayAddress (w : World) (host : Text) : Except Error (BitVec 32) :=
  match w.lookupIP host with
  | none => .error .lookup
  | some ips =>
      match ips.findSome? to4 with
      | some a => .ok a
      | none => .error .noIPv4

/-- The part of `Start` without TLS: the listens it tries. -/
def cleartext (cfg : Config) (w : World) (auto : Bool) : Except Error (List Attempt) :=
  if cfg.address ≠ [] ∧ (cfg.address ≠ ascii "auto" ∨ auto) then
    let ad := if cfg.address = ascii "auto" then ascii ":1194" else cfg.address
    match w.resolveUDPAddr ad with
    | none => .error .resolve
    | some addr =>
        match addr.ip.filter fun ip => ¬ isUnspecified ip with
        | some ip =>
            match to4 ip with
            | none => .error .parseAddress
            | some a => .ok (listener w.listens 0 addr.port a)
        | none =>
            match publicAddresses w with
            | none => .error .interfaces
            | some [] => .error .noPublicAddresses
            | some as => .ok (as.flatMap fun (a, listens) => listener listens a addr.port a)
  else .ok []

/-- The part of `Start` with TLS. -/
def tlsListener (cfg : Config) (w : World) : Except Error (List Attempt) :=
  if cfg.tlsAddress = [] then .ok []
  else do
    let (host, port) ← splitTLSAddress cfg.tlsAddress
    let relay ← relayAddress w host
    return [(⟨.tcp, 0, port, relay, some host⟩, w.tls)]

/-- The address that is appended for a socket. -/
def Listener.address (l : Listener) : Address :=
  match l.host, l.network with
  | some host, _ => .tls host l.port
  | none, .udp => .udp l.relay l.port
  | none, .tcp => .tcp l.relay l.port

/-- Sockets are bound and their addresses are advertised. -/
def State.add (s : State) (ls : List Listener) : State :=
  { s with addresses := s.addresses ++ ls.map Listener.address, bound := s.bound ++ ls }

def closeAll (bound ls : List Listener) : List Listener := bound.filter fun l => l ∉ ls

/-- `Start` from its listeners on. -/
def startListening (cfg : Config) (w : World) (s : State) : State × Except Error Unit :=
  match cleartext cfg w s.auto with
  | .error e => (s, .error e)
  | .ok attempts =>
      let clear := listenAll s.bound attempts
      let s := s.add clear
      match tlsListener cfg w with
      | .error e => (s, .error e)
      | .ok attempts =>
          let tls := listenAll s.bound attempts
          let s := s.add tls
          let listeners := clear ++ tls
          if listeners = [] then (s, .error .noListeners)
          else if w.newServer then ({ s with server := some listeners }, .ok ())
          else
            ({ s with addresses := [], bound := closeAll s.bound listeners }, .error .newServer)

def start (cfg : Config) (w : World) (s : State) : State × Except Error Unit :=
  if s.server.isSome then (s, .ok ())
  else if cfg.address = [] ∧ cfg.tlsAddress = [] then (s, .error .disabled)
  else
    match w.rand with
    | none => ({ s with username := ascii "galene" }, .error .rand)
    | some password => startListening cfg w { s with username := ascii "galene", password }

def stop (w : World) (s : State) : State × Except Error Unit :=
  match s.server with
  | none => ({ s with addresses := [] }, .ok ())
  | some listeners =>
      ({ s with addresses := [], server := none, bound := closeAll s.bound listeners },
        if w.close then .ok () else .error .close)

def startStop (cfg : Config) (w : World) (begin : Bool) (s : State) : State × Except Error Unit :=
  let s := { s with auto := begin }
  if cfg.tlsAddress ≠ [] then start cfg w s
  else if cfg.address = ascii "auto" then if begin then start cfg w s else stop w s
  else if cfg.address = [] then stop w s
  else start cfg w s

/-- `net.JoinHostPort` -/
def joinHostPort (host : Text) (port : ℕ) : Text :=
  if colon ∈ host then opening :: host ++ closing :: colon :: digits 10 port
  else host ++ colon :: digits 10 port

def Address.url : Address → Text
  | .udp ip port => ascii "turn:" ++ joinHostPort (writeIPv4 ip) port
  | .tcp ip port => ascii "turn:" ++ joinHostPort (writeIPv4 ip) port ++ ascii "?transport=tcp"
  | .tls host port => ascii "turns:" ++ joinHostPort host port ++ ascii "?transport=tcp"

structure ICEServer where
  urls : List Text
  username : Text
  credential : Text
deriving DecidableEq

def iceServers (s : State) : List ICEServer :=
  if s.addresses = [] then []
  else [{ urls := s.addresses.map Address.url, username := s.username, credential := s.password }]

inductive Call where
  | start (w : World)
  | stop (w : World)
  | startStop (w : World) (begin : Bool)

def step (cfg : Config) (s : State) : Call → Option State
  | .start w => some (start cfg w s).1
  | .stop w => some (stop w s).1
  | .startStop w begin => some (startStop cfg w begin s).1

def system (cfg : Config) : System State Call := { init := (· = {}), step := step cfg }

end Code

/-- A call of `Start` in which nothing fails: the lookups give the listens `as`
and `bs`, all of them on different addresses and allowed to work. -/
structure Works (cfg : Config) (w : World) (auto : Bool) (as bs : List Attempt) : Prop where
  rand : w.rand.isSome = true
  cleartext : cleartext cfg w auto = .ok as
  tls : tlsListener cfg w = .ok bs
  nonempty : as ++ bs ≠ []
  listens : ∀ a ∈ as ++ bs, a.2 = true
  free : ((as ++ bs).map fun a => a.1.endpoint).Nodup
  newServer : w.newServer = true

/-- What is advertised is what the running server listens on; without one nothing
is advertised and nothing bound, so that the next one gets all it asks for. -/
structure Sound (cfg : Config) (s : State) : Prop where
  nodup : s.addresses.Nodup
  running : ∀ held, s.server = some held →
    s.addresses = held.map Listener.address ∧ s.bound = held
  idle : s.server = none → s.addresses = [] ∧ s.bound = []
  urls : (iceServers s).flatMap ICEServer.urls =
    (s.server.getD []).map fun l => l.address.url
  restart : s.server = none → ∀ w as bs, Works cfg w s.auto as bs →
    (start cfg w s).1.server = some ((as ++ bs).map Prod.fst)

/-- Some listen of these is allowed to work. -/
def opens : Except Error (List Attempt) → Bool
  | .ok as => as.any fun a => a.2
  | .error _ => false

def fails : Except Error (List Attempt) → Bool
  | .ok _ => false
  | .error _ => true

/-- `Start` makes a server, gets a socket in clear text, and then has a TLS
address that is malformed or a host name that cannot be looked up. -/
def StartLeaks (cfg : Config) (w : World) (auto : Bool) (s : State) : Prop :=
  s.server = none ∧ w.rand.isSome = true ∧ opens (cleartext cfg w auto) = true ∧
    fails (tlsListener cfg w) = true

def Leaks (cfg : Config) (s : State) : Call → Prop
  | .start w => StartLeaks cfg w s.auto s
  | .stop _ => False
  | .startStop w begin => StartLeaks cfg w begin s

instance (cfg : Config) (s : State) : ∀ call, Decidable (Leaks cfg s call)
  | .start _ | .startStop _ _ => inferInstanceAs (Decidable (_ ∧ _))
  | .stop _ => inferInstanceAs (Decidable False)

def NoLeak (cfg : Config) (s : State) (call : Call) : Prop := ¬ Leaks cfg s call

instance (cfg : Config) (s : State) (call : Call) : Decidable (NoLeak cfg s call) :=
  inferInstanceAs (Decidable (¬ _))

section Listens

variable {bound : List Listener} {as bs : List Attempt}

theorem mem_listenAll {l : Listener} (h : l ∈ listenAll bound as) : l ∈ as.map Prod.fst := by
  induction as generalizing bound with
  | nil => exact h
  | cons a as ih =>
      rw [listenAll] at h
      split_ifs at h
      · rcases List.mem_cons.mp h with rfl | h
        · exact List.mem_cons_self ..
        · exact List.mem_cons_of_mem _ (ih h)
      · exact List.mem_cons_of_mem _ (ih h)

/-- Sockets that are open at a time have different endpoints. -/
theorem listenAll_nodup (bound : List Listener) (as : List Attempt)
    (h : (bound.map Listener.endpoint).Nodup) :
    ((bound ++ listenAll bound as).map Listener.endpoint).Nodup := by
  induction as generalizing bound with
  | nil => simpa [listenAll] using h
  | cons a as ih =>
      rw [listenAll]
      split_ifs with hopen
      · have hbound : ((bound ++ [a.1]).map Listener.endpoint).Nodup := by
          rw [List.map_append, List.nodup_append]
          refine ⟨h, List.nodup_singleton _, ?_⟩
          rintro e he e' he' rfl
          rw [List.map_singleton, List.mem_singleton] at he'
          exact hopen.2 (he' ▸ he)
        simpa using ih (bound ++ [a.1]) hbound
      · exact ih bound h

/-- The first listen that is allowed to work does so if nothing is bound. -/
theorem listenAll_ne_nil (h : (as.any fun a => a.2) = true) : listenAll [] as ≠ [] := by
  induction as with
  | nil => simp at h
  | cons a as ih =>
      rw [listenAll]
      split_ifs with hopen
      · exact List.cons_ne_nil _ _
      · have ha : a.2 = false := by simpa using hopen
        refine ih ?_
        simpa [ha] using h

theorem listenAll_nil (h : (as.any fun a => a.2) = false) : listenAll bound as = [] := by
  induction as with
  | nil => rfl
  | cons a as ih =>
      obtain ⟨ha, has⟩ := Bool.or_eq_false_iff.mp h
      rw [listenAll, if_neg fun hopen => by simp [ha] at hopen]
      exact ih has

/-- Where no listen is refused all of them are opened. -/
theorem listenAll_eq (hworks : ∀ a ∈ as, a.2 = true)
    (hfree : (bound.map Listener.endpoint ++ as.map fun a => a.1.endpoint).Nodup) :
    listenAll bound as = as.map Prod.fst := by
  induction as generalizing bound with
  | nil => rfl
  | cons a as ih =>
      have ha : a.1.endpoint ∉ bound.map Listener.endpoint := by
        intro hmem
        exact (List.nodup_append.mp hfree).2.2 _ hmem _ (List.mem_cons_self ..) rfl
      rw [listenAll, if_pos ⟨hworks a (List.mem_cons_self ..), ha⟩, List.map_cons,
        ih fun b hb => hworks b (List.mem_cons_of_mem _ hb)]
      simpa using hfree

end Listens

section Addresses

variable {cfg : Config} {w : World} {auto : Bool} {as : List Attempt}

theorem mem_listener {listens : Listens} {ip relay : BitVec 32} {port : ℕ} {l : Listener}
    (h : l ∈ (listener listens ip port relay).map Prod.fst) :
    ∃ network, l = ⟨network, ip, port, relay, none⟩ := by
  rcases List.mem_cons.mp h with h | h
  · exact ⟨.udp, h⟩
  · exact ⟨.tcp, List.mem_singleton.mp h⟩

/-- The listens in clear text, at one address for all or at each public one. -/
theorem cleartext_cases (h : cleartext cfg w auto = .ok as) :
    as = [] ∨ (∃ listens port a, as = listener listens 0 port a) ∨
      ∃ (port : ℕ) (addrs : List (BitVec 32 × Listens)), publicAddresses w = some addrs ∧
        addrs ≠ [] ∧ as = addrs.flatMap fun (a, listens) => listener listens a port a := by
  rw [cleartext] at h
  by_cases hclear : cfg.address ≠ [] ∧ (cfg.address ≠ ascii "auto" ∨ auto)
  · rw [if_pos hclear] at h
    simp only at h
    split at h
    · cases h
    · split at h
      · split at h
        · cases h
        · cases h
          exact .inr (.inl ⟨_, _, _, rfl⟩)
      · split at h
        · cases h
        · cases h
        · next addrs hne heq =>
            cases h
            exact .inr (.inr ⟨_, _, heq, fun hnil => hne hnil, rfl⟩)
  · rw [if_neg hclear] at h
    cases h
    exact .inl rfl

/-- In clear text an address tells the socket it is for. -/
theorem cleartext_address (h : cleartext cfg w auto = .ok as) :
    (∀ l ∈ as.map Prod.fst, l.host = none) ∧
      ∀ l ∈ as.map Prod.fst, ∀ l' ∈ as.map Prod.fst, l.address = l'.address →
        l.endpoint = l'.endpoint := by
  rcases cleartext_cases h with rfl | ⟨listens, port, a, rfl⟩ | ⟨port, addrs, -, -, rfl⟩
  · exact ⟨nofun, nofun⟩
  · refine ⟨fun l hl => ?_, fun l hl l' hl' heq => ?_⟩
    · obtain ⟨network, rfl⟩ := mem_listener hl
      rfl
    · obtain ⟨network, rfl⟩ := mem_listener hl
      obtain ⟨network', rfl⟩ := mem_listener hl'
      cases network <;> cases network' <;> first | rfl | cases heq
  · have hmem : ∀ l ∈ (addrs.flatMap fun (a, listens) => listener listens a port a).map Prod.fst,
        ∃ network a, l = ⟨network, a, port, a, none⟩ := by
      intro l hl
      rw [List.map_flatMap] at hl
      obtain ⟨⟨a, listens⟩, -, hl⟩ := List.mem_flatMap.mp hl
      obtain ⟨network, rfl⟩ := mem_listener hl
      exact ⟨network, a, rfl⟩
    refine ⟨fun l hl => ?_, fun l hl l' hl' heq => ?_⟩
    · obtain ⟨network, a, rfl⟩ := hmem l hl
      rfl
    · obtain ⟨network, a, rfl⟩ := hmem l hl
      obtain ⟨network', a', rfl⟩ := hmem l' hl'
      cases network <;> cases network' <;> cases heq <;> rfl

theorem tlsListener_address (h : tlsListener cfg w = .ok as) :
    as = [] ∨ ∃ port relay host, as = [(⟨.tcp, 0, port, relay, some host⟩, w.tls)] := by
  rw [tlsListener] at h
  split_ifs at h
  · cases h
    exact .inl rfl
  · cases hsplit : splitTLSAddress cfg.tlsAddress with
    | error e =>
        rw [hsplit] at h
        cases h
    | ok target =>
        rw [hsplit] at h
        cases hrelay : relayAddress w target.1 with
        | error e =>
            simp only [hrelay, bind, Except.bind] at h
            cases h
        | ok relay =>
            simp only [hrelay, bind, Except.bind] at h
            cases h
            exact .inr ⟨_, _, _, rfl⟩

theorem address_ne {l l' : Listener} (h : l.host = none) (h' : l'.host ≠ none) :
    l.address ≠ l'.address := by
  obtain ⟨host, hhost⟩ := Option.ne_none_iff_exists'.mp h'
  rw [Listener.address, Listener.address, h, hhost]
  cases l.network <;> nofun

/-- No two sockets that a start gets are advertised alike. -/
theorem addresses_nodup {bs : List Attempt} (hclear : cleartext cfg w auto = .ok as)
    (htls : tlsListener cfg w = .ok bs) {cs ts : List Listener}
    (hcs : ∀ l ∈ cs, l ∈ as.map Prod.fst) (hts : ∀ l ∈ ts, l ∈ bs.map Prod.fst)
    (hnodup : ((cs ++ ts).map Listener.endpoint).Nodup) :
    ((cs ++ ts).map Listener.address).Nodup := by
  obtain ⟨hhost, hinj⟩ := cleartext_address hclear
  have htls' : ∀ l ∈ ts, l.host ≠ none ∧ ∀ l' ∈ ts, l = l' := by
    intro l hl
    rcases tlsListener_address htls with rfl | ⟨port, relay, host, rfl⟩
    · exact absurd (hts l hl) List.not_mem_nil
    · have heq : ∀ l ∈ ts, l = ⟨.tcp, 0, port, relay, some host⟩ :=
        fun l hl => List.mem_singleton.mp (hts l hl)
      rw [heq l hl]
      exact ⟨nofun, fun l' hl' => (heq l' hl').symm⟩
  refine List.Nodup.map_on ?_ hnodup.of_map
  intro l hl l' hl' heq
  rcases List.mem_append.mp hl with hl₁ | hl₁ <;> rcases List.mem_append.mp hl' with hl₂ | hl₂
  · exact List.inj_on_of_nodup_map hnodup hl hl' (hinj l (hcs l hl₁) l' (hcs l' hl₂) heq)
  · exact (address_ne (hhost l (hcs l hl₁)) (htls' l' hl₂).1 heq).elim
  · exact (address_ne (hhost l' (hcs l' hl₂)) (htls' l hl₁).1 heq.symm).elim
  · exact (htls' l hl₁).2 l' hl₂

end Addresses

section Invariant

variable {cfg : Config} {s : State}

/-- The sockets of the server, or none, and what is advertised is theirs. -/
structure Tidy (s : State) : Prop where
  addresses : s.addresses = (s.server.getD []).map Listener.address
  bound : s.bound = s.server.getD []
  nodup : s.addresses.Nodup

theorem Tidy.setAuto (h : Tidy s) (auto : Bool) : Tidy { s with auto } :=
  ⟨h.addresses, h.bound, h.nodup⟩

theorem Tidy.idle (h : Tidy s) (hserver : s.server = none) :
    s.addresses = [] ∧ s.bound = [] := by
  have haddresses := h.addresses
  have hbound := h.bound
  rw [hserver] at haddresses hbound
  exact ⟨haddresses, hbound⟩

theorem closeAll_self (ls : List Listener) : closeAll ls ls = [] := by
  simp [closeAll]

theorem stop_server (w : World) (s : State) : (stop w s).1.server = none := by
  unfold stop
  split
  · assumption
  · rfl

theorem Tidy.stop (h : Tidy s) (w : World) : Tidy (stop w s).1 := by
  have haddresses : (TurnServer.stop w s).1.addresses = [] := by
    unfold TurnServer.stop
    split <;> rfl
  have hbound : (TurnServer.stop w s).1.bound = [] := by
    have hheld := h.bound
    unfold TurnServer.stop
    split
    · next hserver => exact (h.idle hserver).2
    · next held hserver =>
        rw [hserver] at hheld
        simp only [hheld]
        exact closeAll_self _
  constructor <;> simp only [haddresses, hbound, stop_server]
  · rfl
  · rfl
  · exact List.nodup_nil

/-- `Start` on a server that runs does nothing. -/
theorem start_running {w : World} (h : s.server ≠ none) : start cfg w s = (s, .ok ()) :=
  if_pos (Option.isSome_iff_ne_none.mpr h)

/-- What comes of a start where nothing is bound or advertised. -/
theorem startListening_cases (cfg : Config) (w : World) (haddresses : s.addresses = [])
    (hbound : s.bound = []) :
    (fails (cleartext cfg w s.auto) = true ∧ (startListening cfg w s).1 = s) ∨
    (∃ as, cleartext cfg w s.auto = .ok as ∧ fails (tlsListener cfg w) = true ∧
      (startListening cfg w s).1 = s.add (listenAll [] as)) ∨
    (∃ as bs, cleartext cfg w s.auto = .ok as ∧ tlsListener cfg w = .ok bs ∧
      let held := listenAll [] as ++ listenAll (listenAll [] as) bs
      (startListening cfg w s).1 =
        if held ≠ [] ∧ w.newServer then { s.add held with server := some held } else s) := by
  unfold startListening
  split
  · next e hclear => exact .inl ⟨by rw [hclear]; rfl, rfl⟩
  · next as hclear =>
      simp only
      split
      · next e htls => exact .inr (.inl ⟨as, hclear, by rw [htls]; rfl, by rw [hbound]⟩)
      · next bs htls =>
          refine .inr (.inr ⟨as, bs, hclear, htls, ?_⟩)
          have hs : ∀ ls : List Listener, ls = [] →
              { s with addresses := ls.map Listener.address, bound := ls } = s := by
            rintro _ rfl
            rw [List.map_nil, ← haddresses, ← hbound]
          simp only [hbound, State.add, List.nil_append, haddresses, ← List.map_append]
          by_cases hnil : listenAll [] as ++ listenAll (listenAll [] as) bs = []
          · rw [if_pos hnil, if_neg fun h => h.1 hnil]
            exact hs _ hnil
          · rw [if_neg hnil]
            by_cases hnew : w.newServer
            · rw [if_pos hnew, if_pos ⟨hnil, hnew⟩]
            · rw [if_neg hnew, if_neg fun h => hnew h.2, closeAll_self]
              exact hs [] rfl

/-- The addresses and sockets before a start, whatever the credentials are. -/
theorem start_eq {w : World} (hserver : s.server = none) (hrand : w.rand.isSome = true)
    (hset : ¬ (cfg.address = [] ∧ cfg.tlsAddress = [])) :
    start cfg w s = startListening cfg w
      { s with username := ascii "galene", password := w.rand.getD [] } := by
  obtain ⟨password, hpassword⟩ := Option.isSome_iff_exists.mp hrand
  rw [start, if_neg (by simp [hserver]), if_neg hset, hpassword]
  rfl

theorem Tidy.credentials (h : Tidy s) (username password : Text) :
    Tidy { s with username, password } :=
  ⟨h.addresses, h.bound, h.nodup⟩

theorem Tidy.startListening (h : Tidy s) (hserver : s.server = none) {w : World}
    (hleak : ¬ (opens (cleartext cfg w s.auto) = true ∧ fails (tlsListener cfg w) = true)) :
    Tidy (startListening cfg w s).1 := by
  obtain ⟨haddresses, hbound⟩ := h.idle hserver
  rcases startListening_cases cfg w haddresses hbound with
    ⟨-, hr⟩ | ⟨as, hclear, htls, hr⟩ | ⟨as, bs, hclear, htls, hr⟩
  · rwa [hr]
  · -- nothing was opened before the error
    have hnone : listenAll [] as = [] := by
      refine listenAll_nil ?_
      rw [hclear] at hleak
      simpa [opens, htls] using hleak
    rw [hr, hnone]
    exact ⟨by simpa [State.add] using h.addresses, by simpa [State.add] using h.bound,
      by simpa [State.add] using h.nodup⟩
  · rw [hr]
    split_ifs with hnew
    · have hfirst := listenAll_nodup [] as List.nodup_nil
      have hends := listenAll_nodup (listenAll [] as) bs hfirst
      have hnodup := addresses_nodup hclear htls (fun l => mem_listenAll)
        (fun l => mem_listenAll) hends
      constructor
      · change s.addresses ++ _ = _
        rw [haddresses, List.nil_append]
        rfl
      · change s.bound ++ _ = _
        rw [hbound, List.nil_append]
        rfl
      · change (s.addresses ++ _).Nodup
        rwa [haddresses, List.nil_append]
    · exact h

/-- Sockets that were opened before an error stay open. -/
theorem Tidy.startListening_leaks (h : Tidy s) (hserver : s.server = none) {w : World}
    (hopens : opens (cleartext cfg w s.auto) = true) (hfails : fails (tlsListener cfg w) = true) :
    (TurnServer.startListening cfg w s).1.server = none ∧
      (TurnServer.startListening cfg w s).1.bound ≠ [] := by
  obtain ⟨haddresses, hbound⟩ := h.idle hserver
  rcases startListening_cases cfg w haddresses hbound with
    ⟨hclear, -⟩ | ⟨as, hclear, -, hr⟩ | ⟨as, bs, -, htls, -⟩
  · cases hr : cleartext cfg w s.auto with
    | error e =>
        rw [hr] at hopens
        cases hopens
    | ok as =>
        rw [hr] at hclear
        cases hclear
  · rw [hr]
    refine ⟨hserver, ?_⟩
    change s.bound ++ _ ≠ _
    rw [hbound, List.nil_append]
    rw [hclear] at hopens
    exact listenAll_ne_nil hopens
  · rw [htls] at hfails
    cases hfails

theorem Tidy.start (h : Tidy s) {w : World} (hleak : ¬ StartLeaks cfg w s.auto s) :
    Tidy (start cfg w s).1 := by
  by_cases hserver : s.server = none
  swap
  · rwa [start_running hserver]
  by_cases hset : cfg.address = [] ∧ cfg.tlsAddress = []
  · rwa [TurnServer.start, if_neg (by simp [hserver]), if_pos hset]
  cases hrand : w.rand with
  | none =>
      rw [TurnServer.start, if_neg (by simp [hserver]), if_neg hset, hrand]
      exact h.credentials (ascii "galene") s.password
  | some password =>
      have hsome : w.rand.isSome = true := by rw [hrand]; rfl
      rw [start_eq hserver hsome hset]
      have hcred := h.credentials (ascii "galene") (w.rand.getD [])
      exact hcred.startListening hserver fun hl => hleak ⟨hserver, hsome, hl⟩

theorem Tidy.start_leaks (h : Tidy s) {w : World} (hleak : StartLeaks cfg w s.auto s) :
    (TurnServer.start cfg w s).1.server = none ∧ (TurnServer.start cfg w s).1.bound ≠ [] := by
  obtain ⟨hserver, hrand, hopens, hfails⟩ := hleak
  have hset : ¬ (cfg.address = [] ∧ cfg.tlsAddress = []) := by
    rintro ⟨-, htls⟩
    rw [tlsListener, if_pos htls] at hfails
    cases hfails
  rw [start_eq hserver hrand hset]
  have hcred := h.credentials (ascii "galene") (w.rand.getD [])
  exact hcred.startListening_leaks hserver hopens hfails

/-- A start in which nothing fails gets all it asks for. -/
theorem Tidy.start_works (h : Tidy s) (hserver : s.server = none) {w : World}
    {as bs : List Attempt} (hworks : Works cfg w s.auto as bs) :
    (TurnServer.start cfg w s).1.server = some ((as ++ bs).map Prod.fst) := by
  have hset : ¬ (cfg.address = [] ∧ cfg.tlsAddress = []) := by
    rintro ⟨haddress, htls⟩
    have hclear := hworks.cleartext
    have htls' := hworks.tls
    rw [TurnServer.cleartext, if_neg fun hne => hne.1 haddress] at hclear
    rw [tlsListener, if_pos htls] at htls'
    cases hclear
    cases htls'
    exact hworks.nonempty rfl
  obtain ⟨haddresses, hbound⟩ := h.idle hserver
  have hclear : listenAll [] as = as.map Prod.fst := by
    refine listenAll_eq (fun a ha => hworks.listens a (List.mem_append_left _ ha)) ?_
    have hfree := hworks.free
    rw [List.map_append] at hfree
    exact (List.nodup_append.mp hfree).1
  have htls : listenAll (listenAll [] as) bs = bs.map Prod.fst := by
    rw [hclear]
    refine listenAll_eq (fun b hb => hworks.listens b (List.mem_append_right _ hb)) ?_
    have hfree := hworks.free
    rw [List.map_append] at hfree
    rwa [List.map_map]
  rw [start_eq hserver hworks.rand hset]
  rcases startListening_cases cfg w
      (s := { s with username := ascii "galene", password := w.rand.getD [] })
      haddresses hbound with
    ⟨hfails, -⟩ | ⟨as', -, hfails, -⟩ | ⟨as', bs', has, hbs, hr⟩
  · rw [show cleartext cfg w _ = .ok as from hworks.cleartext] at hfails
    cases hfails
  · rw [hworks.tls] at hfails
    cases hfails
  · obtain rfl := Except.ok.inj (hworks.cleartext.symm.trans has)
    obtain rfl := Except.ok.inj (hworks.tls.symm.trans hbs)
    rw [hr]
    simp only [htls]
    rw [hclear, ← List.map_append, if_pos ⟨by simpa using hworks.nonempty, hworks.newServer⟩]

/-- What the addresses and sockets come to, seen from outside. -/
theorem Tidy.sound (h : Tidy s) : Sound cfg s where
  nodup := h.nodup
  running held hheld := by
    have haddresses := h.addresses
    have hbound := h.bound
    rw [hheld] at haddresses hbound
    exact ⟨haddresses, hbound⟩
  idle := h.idle
  urls := by
    have haddresses := h.addresses
    rw [iceServers]
    split_ifs with hnil
    · rw [hnil] at haddresses
      rw [List.map_eq_nil_iff.mp haddresses.symm]
      rfl
    · rw [List.flatMap_singleton, haddresses, List.map_map]
      rfl
  restart hserver _ _ _ hworks := h.start_works hserver hworks

end Invariant

section Runs

variable {cfg : Config} {s : State}

theorem tidy_of_reachable (h : Reachable (system cfg) (NoLeak cfg) s) :
    Tidy s := by
  refine h.invariant ?_ ?_
  · rintro s rfl
    exact ⟨rfl, rfl, List.nodup_nil⟩
  · intro s call t hs hleak hstep
    cases call with
    | start w =>
        obtain rfl := Option.some.inj hstep
        exact hs.start hleak
    | stop w =>
        obtain rfl := Option.some.inj hstep
        exact hs.stop w
    | startStop w begin =>
        obtain rfl := Option.some.inj hstep
        have hauto := hs.setAuto begin
        simp only [startStop]
        split_ifs
        · exact hauto.start hleak
        · exact hauto.start hleak
        · exact hauto.stop w
        · exact hauto.stop w
        · exact hauto.start hleak

/-- A call that leaks leaves sockets bound and no server. -/
theorem Tidy.leaks (h : Tidy s) {call : Call} (hleak : Leaks cfg s call) {t : State}
    (hstep : step cfg s call = some t) : t.server = none ∧ t.bound ≠ [] := by
  cases call with
  | start w =>
      obtain rfl := Option.some.inj hstep
      exact h.start_leaks hleak
  | stop w => exact hleak.elim
  | startStop w begin =>
      obtain rfl := Option.some.inj hstep
      have hauto := h.setAuto begin
      have htls : cfg.tlsAddress ≠ [] := by
        intro htls
        have hfails := hleak.2.2.2
        rw [tlsListener, if_pos htls] at hfails
        cases hfails
      simp only [startStop, if_pos htls]
      exact hauto.start_leaks hleak

theorem startListening_error {w : World} {e : Error} (hserver : s.server = none)
    (h : (startListening cfg w s).2 = .error e) : (startListening cfg w s).1.server = none := by
  unfold startListening at h ⊢
  cases hclear : cleartext cfg w s.auto with
  | error e => exact hserver
  | ok as =>
      cases htls : tlsListener cfg w with
      | error e => exact hserver
      | ok bs =>
          simp only [hclear, htls] at h ⊢
          split_ifs at h ⊢
          · exact hserver
          · exact hserver

/-- A start that returns an error leaves no server. -/
theorem start_error {w : World} {e : Error} (h : (start cfg w s).2 = .error e) :
    (start cfg w s).1.server = none := by
  by_cases hserver : s.server = none
  swap
  · rw [start_running hserver] at h
    cases h
  by_cases hset : cfg.address = [] ∧ cfg.tlsAddress = []
  · rwa [start, if_neg (by simp [hserver]), if_pos hset]
  cases hrand : w.rand with
  | none =>
      rw [start, if_neg (by simp [hserver]), if_neg hset, hrand]
      exact hserver
  | some password =>
      have hsome : w.rand.isSome = true := by rw [hrand]; rfl
      rw [start_eq hserver hsome hset] at h ⊢
      exact startListening_error hserver h

/-- Both parts are asked for. -/
def sampleConfig : Config := { tlsAddress := ascii "turn.example:443" }

/-- A host with one public address, on which names are found or not. -/
def sampleWorld (found : Bool) : World where
  resolveUDPAddr _ := some ⟨none, 1194⟩
  interfaceAddrs := some [(.v4 0x0a000001, {}), (.v4 0xc6336407, {})]
  lookupIP _ := if found then some [.v4 0xc6336407] else none

end Runs

end Sozvon.TurnServer
