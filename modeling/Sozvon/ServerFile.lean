import Sozvon.TurnServer

/-!
# The ICE server file and the built-in TURN server

`Update` reads the file of ICE servers and starts or stops the built-in server
with its presence. Under `-turn auto` the listeners in clear text are to stand
down while the file is there. With a TLS listener the server is never stopped,
and a server that runs is left as it is, so that the first call decides for all
that come after it.
-/
namespace Sozvon.ServerFile
open NetAddr TurnServer Runs

section Code

/-- What comes of reading the file: its servers, each with whether it is for
clients only. -/
inductive File where
  | absent
  | unreadable
  | readable (servers : List (ICEServer × Bool))
deriving DecidableEq

def File.servers : File → List (ICEServer × Bool)
  | .absent | .unreadable => []
  | .readable servers => servers

structure Configuration where
  iceServers : List ICEServer := []
  client : List ICEServer := []
deriving DecidableEq

def found (filename : Text) (file : File) : Bool := filename ≠ [] ∧ file ≠ .absent

def update (cfg : Config) (filename : Text) (w : World) (file : File)
    (turn : TurnServer.State) : TurnServer.State × Configuration :=
  let servers := if filename = [] then [] else file.servers
  let turn := (startStop cfg w (¬ found filename file) turn).1
  (turn,
    { iceServers := (servers.filter fun s => ¬ s.2).map Prod.fst ++ TurnServer.iceServers turn
      client := servers.map Prod.fst ++ TurnServer.iceServers turn })

/-- The built-in server, the last configuration, and whether the file was found,
for each call so far. -/
structure State where
  turn : TurnServer.State := {}
  conf : Configuration := {}
  found : List Bool := []
deriving DecidableEq

structure Call where
  w : World
  file : File

def step (cfg : Config) (filename : Text) (s : State) (call : Call) : Option State :=
  let r := update cfg filename call.w call.file s.turn
  some { turn := r.1, conf := r.2, found := s.found ++ [found filename call.file] }

def system (cfg : Config) (filename : Text) : System State Call :=
  { init := (· = {}), step := step cfg filename }

end Code

/-- No lookup and no listen fails. The port of `auto` is read as it is meant, and
the host has a public address. -/
structure Healthy (cfg : Config) (w : World) : Prop where
  rand : w.rand.isSome = true
  resolve : w.resolveUDPAddr (ascii ":1194") = some ⟨none, 1194⟩
  publicAddresses : ∃ addrs, publicAddresses w = some addrs ∧ addrs ≠ [] ∧
    ∀ a ∈ addrs, a.2.udp = true ∧ a.2.tcp = true
  lookup : ∀ host port, splitTLSAddress cfg.tlsAddress = .ok (host, port) →
    ∃ relay, relayAddress w host = .ok relay
  tls : w.tls = true
  newServer : w.newServer = true

def HealthyCall (cfg : Config) (_ : State) (call : Call) : Prop := Healthy cfg call.w

/-- The server listens in clear text, and says so, exactly if the file was not
found, and over TLS exactly if it is told to. -/
structure Follows (cfg : Config) (turn : TurnServer.State) (found : Bool) : Prop where
  cleartext : (∃ l ∈ turn.server.getD [], l.host = none) ↔ found = false
  advertised : (∃ a ∈ turn.addresses, ∀ host port, a ≠ .tls host port) ↔ found = false
  tls : (∃ l ∈ turn.server.getD [], l.host ≠ none) ↔ cfg.tlsAddress ≠ []

section Start

variable {cfg : Config} {w : World} {s : TurnServer.State}

theorem publicAddresses_ne_zero {addrs : List (BitVec 32 × Listens)}
    (h : TurnServer.publicAddresses w = some addrs) {a : BitVec 32 × Listens} (ha : a ∈ addrs) :
    a.1 ≠ 0 := by
  obtain ⟨ifs, -, rfl⟩ := Option.map_eq_some_iff.mp h
  obtain ⟨⟨addr, listens⟩, -, hb⟩ := List.mem_filterMap.mp ha
  simp only at hb
  split at hb
  · cases hb
  · split_ifs at hb with hpublic
    cases hb
    have hglobal := hpublic.1
    rw [isGlobalUnicast, decide_eq_true_iff] at hglobal
    exact hglobal.2.1

/-- What is tried in clear text under `auto`. -/
theorem Healthy.cleartext (h : Healthy cfg w) (hauto : cfg.address = ascii "auto")
    (auto : Bool) :
    ∃ as, cleartext cfg w auto = .ok as ∧ ((as.any fun a => a.2) = auto) ∧
      ∀ l ∈ as.map Prod.fst, l.host = none ∧ l.ip ≠ 0 := by
  have hne : cfg.address ≠ [] := by
    rw [hauto]
    decide
  cases auto with
  | false =>
      refine ⟨[], ?_, rfl, List.forall_mem_nil _⟩
      rw [TurnServer.cleartext, if_neg]
      simp [hauto]
  | true =>
      obtain ⟨addrs, haddrs, hnonempty, hworks⟩ := h.publicAddresses
      refine ⟨addrs.flatMap fun p => listener p.2 p.1 1194 p.1, ?_, ?_, ?_⟩
      · rw [TurnServer.cleartext, if_pos ⟨hne, .inr rfl⟩]
        cases addrs with
        | nil => exact (hnonempty rfl).elim
        | cons a as => simp only [hauto, if_true, h.resolve, Option.filter_none, haddrs]
      · cases addrs with
        | nil => exact (hnonempty rfl).elim
        | cons a as => simp [listener, (hworks a (List.mem_cons_self ..)).1]
      · intro l hl
        rw [List.map_flatMap] at hl
        obtain ⟨⟨a, listens⟩, ha, hl⟩ := List.mem_flatMap.mp hl
        obtain ⟨network, rfl⟩ := mem_listener hl
        exact ⟨rfl, publicAddresses_ne_zero haddrs ha⟩

theorem Healthy.tlsListener (h : Healthy cfg w) (htls : cfg.tlsAddress ≠ []) {host : Text}
    {port : ℕ} (hsplit : splitTLSAddress cfg.tlsAddress = .ok (host, port)) :
    ∃ relay, TurnServer.tlsListener cfg w = .ok [(⟨.tcp, 0, port, relay, some host⟩, true)] := by
  obtain ⟨relay, hrelay⟩ := h.lookup host port hsplit
  refine ⟨relay, ?_⟩
  rw [TurnServer.tlsListener, if_neg htls, hsplit, ← h.tls]
  simp only [bind, Except.bind, hrelay]
  rfl

/-- What a start comes to in which nothing fails, with a TLS address that is well
formed or none: a server, if any listener is asked for. -/
theorem Healthy.start (h : Healthy cfg w) (hauto : cfg.address = ascii "auto") (htidy : Tidy s)
    (hserver : s.server = none)
    (hsplit : cfg.tlsAddress = [] ∨ ∃ t, splitTLSAddress cfg.tlsAddress = .ok t) :
    ((∃ l ∈ (start cfg w s).1.server.getD [], l.host = none) ↔ s.auto = true) ∧
      ((∃ l ∈ (start cfg w s).1.server.getD [], l.host ≠ none) ↔ cfg.tlsAddress ≠ []) := by
  have hset : ¬ (cfg.address = [] ∧ cfg.tlsAddress = []) := by
    rintro ⟨haddress, -⟩
    rw [hauto] at haddress
    cases haddress
  obtain ⟨as, hclear, hany, has⟩ := h.cleartext hauto s.auto
  obtain ⟨bs, htls, hbs⟩ : ∃ bs, TurnServer.tlsListener cfg w = .ok bs ∧
      ((∃ l ∈ listenAll (listenAll [] as) bs, l.host ≠ none) ↔ cfg.tlsAddress ≠ []) ∧
      ∀ l ∈ listenAll (listenAll [] as) bs, l.host ≠ none := by
    by_cases hnone : cfg.tlsAddress = []
    · refine ⟨[], if_pos hnone, ⟨?_, fun hne => (hne hnone).elim⟩, nofun⟩
      rintro ⟨l, hl, -⟩
      exact absurd hl List.not_mem_nil
    · obtain ⟨⟨host, port⟩, ht⟩ := hsplit.resolve_left hnone
      obtain ⟨relay, htls⟩ := h.tlsListener hnone ht
      have hfree : (⟨.tcp, 0, port, relay, some host⟩ : Listener).endpoint ∉
          (listenAll [] as).map Listener.endpoint := by
        intro hmem
        obtain ⟨l, hl, heq⟩ := List.mem_map.mp hmem
        exact (has l (mem_listenAll hl)).2 (congrArg (fun e => e.2.1) heq)
      have hopen : listenAll (listenAll [] as) [(⟨.tcp, 0, port, relay, some host⟩, true)] =
          [⟨.tcp, 0, port, relay, some host⟩] := if_pos ⟨rfl, hfree⟩
      refine ⟨_, htls, ?_⟩
      rw [hopen]
      refine ⟨⟨fun _ => hnone, fun _ => ⟨_, List.mem_singleton_self _, nofun⟩⟩, fun l hl => ?_⟩
      rw [List.mem_singleton.mp hl]
      nofun
  obtain ⟨haddresses, hbound⟩ := htidy.idle hserver
  have hclear' : (∃ l ∈ listenAll [] as, l.host = none) ↔ s.auto = true := by
    rw [← hany]
    constructor
    · rintro ⟨l, hl, -⟩
      by_contra hnone
      rw [listenAll_nil (by simpa using hnone)] at hl
      exact absurd hl List.not_mem_nil
    · intro hopens
      obtain ⟨l, hl⟩ := List.exists_mem_of_ne_nil _ (listenAll_ne_nil hopens)
      exact ⟨l, hl, (has l (mem_listenAll hl)).1⟩
  have hheld : (TurnServer.start cfg w s).1.server.getD [] =
      listenAll [] as ++ listenAll (listenAll [] as) bs := by
    rw [start_eq hserver h.rand hset]
    rcases startListening_cases cfg w
        (s := { s with username := ascii "galene", password := w.rand.getD [] })
        haddresses hbound with
      ⟨hfails, -⟩ | ⟨as', -, hfails, -⟩ | ⟨as', bs', has', hbs', hr⟩
    · rw [show TurnServer.cleartext cfg w _ = .ok as from hclear] at hfails
      cases hfails
    · rw [htls] at hfails
      cases hfails
    · obtain rfl := Except.ok.inj (hclear.symm.trans has')
      obtain rfl := Except.ok.inj (htls.symm.trans hbs')
      rw [hr]
      simp only [h.newServer, and_true]
      split_ifs with hnil
      · rfl
      · rw [not_not.mp hnil]
        exact congrArg (Option.getD · []) hserver
  rw [hheld]
  constructor
  · rw [← hclear']
    constructor
    · rintro ⟨l, hl, hhost⟩
      rcases List.mem_append.mp hl with hl | hl
      · exact ⟨l, hl, hhost⟩
      · exact (hbs.2 l hl hhost).elim
    · rintro ⟨l, hl, hhost⟩
      exact ⟨l, List.mem_append_left _ hl, hhost⟩
  · rw [← hbs.1]
    constructor
    · rintro ⟨l, hl, hhost⟩
      rcases List.mem_append.mp hl with hl | hl
      · exact (hhost (has l (mem_listenAll hl)).1).elim
      · exact ⟨l, hl, hhost⟩
    · rintro ⟨l, hl, hhost⟩
      exact ⟨l, List.mem_append_right _ hl, hhost⟩

/-- What is advertised tells whether there are listeners in clear text. -/
theorem advertised_iff (h : Tidy s) : (∃ a ∈ s.addresses, ∀ host port, a ≠ .tls host port) ↔
    ∃ l ∈ s.server.getD [], l.host = none := by
  have haddress : ∀ l : Listener, (∀ host port, l.address ≠ .tls host port) ↔ l.host = none := by
    intro l
    rw [Listener.address]
    cases hhost : l.host with
    | none => cases l.network <;> simp
    | some host => simp
  rw [h.addresses]
  constructor
  · rintro ⟨a, ha, hclear⟩
    obtain ⟨l, hl, rfl⟩ := List.mem_map.mp ha
    exact ⟨l, hl, (haddress l).mp hclear⟩
  · rintro ⟨l, hl, hhost⟩
    exact ⟨_, List.mem_map_of_mem hl, (haddress l).mpr hhost⟩

/-- A start with a malformed TLS address makes no server. -/
theorem start_malformed (hserver : s.server = none) (htls : cfg.tlsAddress ≠ [])
    (hsplit : ∀ t, splitTLSAddress cfg.tlsAddress ≠ .ok t) :
    (TurnServer.start cfg w s).1.server = none := by
  have hset : ¬ (cfg.address = [] ∧ cfg.tlsAddress = []) := fun h => htls h.2
  obtain ⟨e, he⟩ : ∃ e, TurnServer.tlsListener cfg w = .error e := by
    cases hs : splitTLSAddress cfg.tlsAddress with
    | error e =>
        refine ⟨e, ?_⟩
        rw [TurnServer.tlsListener, if_neg htls, hs]
        rfl
    | ok t => exact (hsplit t hs).elim
  cases hrand : w.rand with
  | none =>
      rw [TurnServer.start, if_neg (by simp [hserver]), if_neg hset, hrand]
      exact hserver
  | some password =>
      rw [start_eq hserver (by rw [hrand]; rfl) hset, startListening]
      split
      · exact hserver
      · simp only [he]
        exact hserver

end Start

section Updates

variable {cfg : Config} {filename : Text} {s : State}

/-- Without a TLS listener, after each update. -/
structure InClear (s : State) : Prop where
  tidy : Tidy s.turn
  host : ¬ ∃ l ∈ s.turn.server.getD [], l.host ≠ none
  running : s.turn.server ≠ none → ∃ l ∈ s.turn.server.getD [], l.host = none
  last : ∀ last ∈ s.found.getLast?,
    (∃ l ∈ s.turn.server.getD [], l.host = none) ↔ last = false

theorem InClear.updated (h : InClear s) (hauto : cfg.address = ascii "auto")
    (htls : cfg.tlsAddress = []) {w : World} (hw : Healthy cfg w) (file : File) :
    InClear
      { turn := (update cfg filename w file s.turn).1
        conf := (update cfg filename w file s.turn).2
        found := s.found ++ [found filename file] } := by
  have hlast : ∀ last ∈ (s.found ++ [found filename file]).getLast?,
      last = found filename file := by simp
  cases hfound : found filename file with
  | true =>
      have hturn : (update cfg filename w file s.turn).1 =
          (stop w { s.turn with auto := false }).1 := by
        simp [update, startStop, htls, hauto, hfound]
      have hstop := stop_server w { s.turn with auto := false }
      rw [hturn]
      constructor
      case tidy => exact (h.tidy.setAuto false).stop w
      case host => simp [hstop]
      case running => exact fun hne => (hne hstop).elim
      case last =>
        intro last hmem
        rw [hlast last (hfound ▸ hmem)]
        simp [hstop, hfound]
  | false =>
      have hturn : (update cfg filename w file s.turn).1 =
          (start cfg w { s.turn with auto := true }).1 := by
        simp [update, startStop, htls, hauto, hfound]
      have htidy := h.tidy.setAuto true
      have hnoleak : ¬ StartLeaks cfg w true { s.turn with auto := true } := by
        rintro ⟨-, -, -, hfails⟩
        rw [tlsListener, if_pos htls] at hfails
        cases hfails
      obtain ⟨hclear, hhost⟩ : (∃ l ∈ (start cfg w { s.turn with auto := true }).1.server.getD [],
            l.host = none) ∧
          ¬ ∃ l ∈ (start cfg w { s.turn with auto := true }).1.server.getD [], l.host ≠ none := by
        by_cases hserver : s.turn.server = none
        · obtain ⟨hclear, hhost⟩ := hw.start hauto htidy hserver (.inl htls)
          exact ⟨hclear.mpr rfl, fun hex => hhost.mp hex htls⟩
        · have hsame : start cfg w { s.turn with auto := true } = (_, .ok ()) :=
            start_running hserver
          rw [hsame]
          exact ⟨h.running hserver, h.host⟩
      rw [hturn]
      refine ⟨htidy.start hnoleak, hhost, fun _ => hclear, fun last hmem => ?_⟩
      rw [hlast last (hfound ▸ hmem)]
      exact iff_of_true hclear hfound

theorem inClear_of_reachable (hauto : cfg.address = ascii "auto") (htls : cfg.tlsAddress = [])
    (h : Reachable (system cfg filename) (HealthyCall cfg) s) : InClear s := by
  refine h.invariant ?_ ?_
  · rintro s rfl
    exact ⟨⟨rfl, rfl, List.nodup_nil⟩, by simp, fun h => (h rfl).elim, by simp⟩
  · intro s call t hs hhealthy hstep
    obtain rfl := Option.some.inj hstep
    exact hs.updated hauto htls hhealthy call.file

/-- With one, the first update decides. -/
structure Decided (s : State) : Prop where
  tidy : Tidy s.turn
  fresh : s.found = [] → s.turn.server = none
  first : ∀ first ∈ s.found.head?,
    ((∃ l ∈ s.turn.server.getD [], l.host = none) ↔ first = false) ∧
      ∃ l ∈ s.turn.server.getD [], l.host ≠ none

theorem Decided.updated (h : Decided s) (hauto : cfg.address = ascii "auto")
    (htls : cfg.tlsAddress ≠ []) (hsplit : ∃ t, splitTLSAddress cfg.tlsAddress = .ok t)
    {w : World} (hw : Healthy cfg w) (file : File) :
    Decided
      { turn := (update cfg filename w file s.turn).1
        conf := (update cfg filename w file s.turn).2
        found := s.found ++ [found filename file] } := by
  have hturn : (update cfg filename w file s.turn).1 =
      (start cfg w { s.turn with auto := ¬ found filename file }).1 := by
    simp [update, startStop, htls]
  have htidy := h.tidy.setAuto (¬ found filename file)
  have hnoleak : ¬ StartLeaks cfg w (¬ found filename file)
      { s.turn with auto := ¬ found filename file } := by
    rintro ⟨-, -, -, hfails⟩
    obtain ⟨⟨host, port⟩, ht⟩ := hsplit
    obtain ⟨relay, htls'⟩ := hw.tlsListener htls ht
    rw [htls'] at hfails
    cases hfails
  rw [hturn]
  refine ⟨htidy.start hnoleak, fun hnil => by simp at hnil, fun first hmem => ?_⟩
  cases hf : s.found with
  | nil =>
      -- the first update
      obtain ⟨hclear, hhost⟩ := hw.start hauto htidy (h.fresh hf) (.inr hsplit)
      rw [hf] at hmem
      obtain rfl : found filename file = first := by simpa using hmem
      exact ⟨hclear.trans (by simp), hhost.mpr htls⟩
  | cons f fs =>
      have hfirst := h.first first (by simpa [hf] using hmem)
      obtain ⟨l, hl, -⟩ := hfirst.2
      have hserver : s.turn.server ≠ none := by
        intro hnone
        rw [hnone] at hl
        exact absurd hl List.not_mem_nil
      have hsame : start cfg w { s.turn with auto := ¬ found filename file } = (_, .ok ()) :=
        start_running hserver
      rw [hsame]
      exact hfirst

theorem decided_of_reachable (hauto : cfg.address = ascii "auto") (htls : cfg.tlsAddress ≠ [])
    (hsplit : ∃ t, splitTLSAddress cfg.tlsAddress = .ok t)
    (h : Reachable (system cfg filename) (HealthyCall cfg) s) : Decided s := by
  refine h.invariant ?_ ?_
  · rintro s rfl
    exact ⟨⟨rfl, rfl, List.nodup_nil⟩, fun _ => rfl, by simp⟩
  · intro s call t hs hhealthy hstep
    obtain rfl := Option.some.inj hstep
    exact hs.updated hauto htls hsplit hhealthy call.file

theorem malformed_of_reachable (htls : cfg.tlsAddress ≠ [])
    (hsplit : ∀ t, splitTLSAddress cfg.tlsAddress ≠ .ok t)
    (h : Reachable (system cfg filename) (HealthyCall cfg) s) : s.turn.server = none := by
  refine Reachable.invariant (P := fun s => s.turn.server = none) ?_ ?_ h
  · rintro s rfl
    rfl
  · intro s call t hs _ hstep
    obtain rfl := Option.some.inj hstep
    simp only [update, startStop, if_pos htls]
    exact start_malformed hs htls hsplit

/-- Under `-turn auto` the listeners in clear text follow the file, after each
update, if and only if there is no TLS listener, or its address is well formed
and the file is there now if it was at the first update. -/
theorem follows_of_reachable (hauto : cfg.address = ascii "auto")
    (h : Reachable (system cfg filename) (HealthyCall cfg) s) {first last : Bool}
    (hfirst : s.found.head? = some first) (hlast : s.found.getLast? = some last) :
    Follows cfg s.turn last ↔
      cfg.tlsAddress = [] ∨ (∃ t, splitTLSAddress cfg.tlsAddress = .ok t) ∧ last = first := by
  by_cases htls : cfg.tlsAddress = []
  · have hclear := inClear_of_reachable hauto htls h
    have hcleartext := hclear.last last hlast
    refine iff_of_true ⟨hcleartext, (advertised_iff hclear.tidy).trans hcleartext, ?_⟩ (.inl htls)
    exact iff_of_false hclear.host (not_not_intro htls)
  by_cases hsplit : ∃ t, splitTLSAddress cfg.tlsAddress = .ok t
  · have hdecided := decided_of_reachable hauto htls hsplit h
    obtain ⟨hcleartext, hhost⟩ := hdecided.first first hfirst
    constructor
    · intro hfollows
      have hsame := hcleartext.symm.trans hfollows.cleartext
      exact .inr ⟨hsplit, by revert hsame; cases first <;> cases last <;> simp⟩
    · rintro (hnone | ⟨-, rfl⟩)
      · exact (htls hnone).elim
      · exact ⟨hcleartext, (advertised_iff hdecided.tidy).trans hcleartext,
          iff_of_true hhost htls⟩
  · have hserver := malformed_of_reachable htls (fun t ht => hsplit ⟨t, ht⟩) h
    refine iff_of_false (fun hfollows => ?_) fun hor => hor.elim htls fun h => hsplit h.1
    obtain ⟨l, hl, -⟩ := hfollows.tls.mpr htls
    rw [hserver] at hl
    exact absurd hl List.not_mem_nil

theorem healthy_sample : Healthy sampleConfig (sampleWorld true) where
  rand := rfl
  resolve := rfl
  publicAddresses := ⟨[(0xc6336407#32, {})], by decide +kernel, by simp, by simp⟩
  lookup _ _ _ := ⟨_, rfl⟩
  tls := rfl
  newServer := rfl

def sampleFilename : Text := ascii "ice-servers.json"

/-- After two updates with the TLS listener, by what the file was at the second. -/
def sampleState (file : File) : State :=
  let s := (step sampleConfig sampleFilename {} ⟨sampleWorld true, .absent⟩).getD {}
  (step sampleConfig sampleFilename s ⟨sampleWorld true, file⟩).getD {}

theorem sampleState_reachable (file : File) :
    Reachable (system sampleConfig sampleFilename) (HealthyCall sampleConfig) (sampleState file) :=
  .step (.step (.init rfl) (a := ⟨sampleWorld true, .absent⟩) healthy_sample rfl)
    (a := ⟨sampleWorld true, file⟩) healthy_sample rfl

theorem follows_sample : Follows sampleConfig (sampleState .absent).turn false ↔
    sampleConfig.tlsAddress = [] ∨
      (∃ t, splitTLSAddress sampleConfig.tlsAddress = .ok t) ∧ false = false :=
  follows_of_reachable rfl (sampleState_reachable .absent) (by decide +kernel) (by decide +kernel)

/-- The file appears, and the listeners in clear text stay. -/
theorem not_follows : ¬ ∀ cfg filename s last, cfg.address = ascii "auto" →
    Reachable (system cfg filename) (HealthyCall cfg) s → s.found.getLast? = some last →
    Follows cfg s.turn last := by
  intro h
  have hfollows := h sampleConfig sampleFilename (sampleState (.readable [])) true rfl
    (sampleState_reachable (.readable [])) (by decide +kernel)
  have hclear : ∃ l ∈ (sampleState (.readable [])).turn.server.getD [], l.host = none := by
    decide +kernel
  exact absurd (hfollows.cleartext.mp hclear) (by decide)

end Updates

end Sozvon.ServerFile
