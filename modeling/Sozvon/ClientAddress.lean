import Sozvon.NetAddr

/-!
# Who a request is from

Behind trusted reverse proxies the address of a client is what they say in
`X-Forwarded-For`. Each of them adds where it has the request from; what was
there before is the client's own.
-/
namespace Sozvon.ClientAddress

open NetAddr

/-- Without the blank elements; one that cannot be read refuses the whole list. -/
def setTrustedProxies (list : Text) : Option (List Prefix) :=
  let parts := ((list.splitOn comma).map trimSpace).filter (· ≠ [])
  parts.mapM fun s => do
    let p ← if slash ∈ s then parsePrefix s else (parseAddr s).map fun a => .of a a.bitLen
    return p.masked

structure Request where
  remoteAddr : Text
  /-- The `X-Forwarded-For` header, line by line. -/
  forwardedFor : List Text

section Proxies

variable (trustedProxies : List Prefix)

def isTrustedProxy (a : Addr) : Bool := trustedProxies.any fun p => p.contains a.unmap

/-- The loop of `forwardedClient`, over the hops from the last one on. -/
def lastUntrusted : List Text → Option Addr
  | [] => none
  | hop :: hops =>
      match parseAddr (trimSpace hop) with
      -- garbage that nobody can vouch for
      | none => none
      | some a => if isTrustedProxy trustedProxies a.unmap then lastUntrusted hops else some a.unmap

def hops (headers : List Text) : List Text := headers.flatMap (·.splitOn comma)

def forwardedClient (headers : List Text) : Option Addr :=
  lastUntrusted trustedProxies (hops headers).reverse

def remoteAddr (r : Request) : Text :=
  match parseAddrPort r.remoteAddr with
  | none => r.remoteAddr
  | some peer =>
      if ¬ isTrustedProxy trustedProxies peer.addr then r.remoteAddr
      else match forwardedClient trustedProxies r.forwardedFor with
        | none => r.remoteAddr
        | some client => (AddrPort.mk client 0).write

end Proxies

/-! ## The way of a request -/

/-- A text that stands for the address. -/
def Names (text : Text) (a : Addr) : Prop :=
  comma ∉ text ∧ ∃ b, parseAddr (trimSpace text) = some b ∧ b.unmap = a.unmap

/-- The lines in one, with a comma and `k` spaces between them. -/
def joinLines (k : ℕ) (lines : List Text) : Text :=
  (comma :: List.replicate k 0x20).intercalate lines

/-- How a proxy appends a text to the header: as a line of its own, to the last line, or to all the
lines put into one. -/
inductive Appends (text : Text) : List Text → List Text → Prop
  | line (lines : List Text) : Appends text lines (lines ++ [text])
  | list (lines : List Text) (last : Text) :
      Appends text (lines ++ [last]) (lines ++ [last ++ comma :: text])
  | join (k : ℕ) (lines : List Text) : Appends text lines [joinLines k (lines ++ [text])]

/-- The request of a client that has sent these lines, after `n` trusted proxies: whom it comes
from now, and with what lines. -/
inductive Passed (trustedProxies : List Prefix) (client : Addr) (sent : List Text) :
    ℕ → Addr → List Text → Prop
  | sent : Passed trustedProxies client sent 0 client sent
  | forward {n : ℕ} {sender proxy : Addr} {lines lines' : List Text} {text : Text} :
      Passed trustedProxies client sent n sender lines → isTrustedProxy trustedProxies proxy →
      Names text sender → Appends text lines lines' →
      Passed trustedProxies client sent (n + 1) proxy lines'

/-! ## What is appended comes last -/

theorem splitOn_append (l text : Text) :
    (l ++ comma :: text).splitOn comma = l.splitOn comma ++ text.splitOn comma :=
  List.splitOn_append_cons_self l text

theorem hops_append (a b : List Text) : hops (a ++ b) = hops a ++ hops b :=
  List.flatMap_append

theorem hops_text {text : Text} (h : comma ∉ text) : hops [text] = [text] := by
  simp [hops, List.splitOn_eq_singleton h]

/-- Spaces in front of a line are not part of its first hop. -/
theorem trim_splitOn_spaces (k : ℕ) (l : Text) :
    ((List.replicate k 0x20 ++ l).splitOn comma).map trimSpace =
      (l.splitOn comma).map trimSpace := by
  induction k with
  | zero => rfl
  | succ k ih =>
      rw [List.replicate_succ, List.cons_append, List.splitOn_cons_eq_if_modifyHead,
        if_neg (by decide), ← ih]
      cases (List.replicate k 0x20 ++ l).splitOn comma with
      | nil => rfl
      | cons hop hops => simp [trimSpace_space]

theorem trim_joinLines (k : ℕ) (lines : List Text) (hne : lines ≠ []) :
    (hops [joinLines k lines]).map trimSpace = (hops lines).map trimSpace := by
  induction lines with
  | nil => exact absurd rfl hne
  | cons l lines ih =>
      cases lines with
      | nil => simp [joinLines, List.intercalate_singleton]
      | cons l' lines =>
          have hjoin : joinLines k (l :: l' :: lines) =
              l ++ comma :: (List.replicate k 0x20 ++ joinLines k (l' :: lines)) := by
            simp [joinLines, List.intercalate_cons_cons]
          have hrest := ih (by simp)
          rw [hjoin, ← List.singleton_append (l := l' :: lines), hops_append, List.map_append,
            ← hrest]
          simp only [hops, List.flatMap_singleton, splitOn_append, List.map_append,
            trim_splitOn_spaces]

/-- However it is appended, a text is the last hop of the list. -/
theorem Appends.hops_eq {text : Text} {lines lines' : List Text} (h : Appends text lines lines')
    (htext : comma ∉ text) :
    (hops lines').map trimSpace = (hops lines).map trimSpace ++ [trimSpace text] := by
  cases h with
  | line => rw [hops_append, hops_text htext, List.map_append, List.map_singleton]
  | list lines last =>
      have hlast : hops [last ++ comma :: text] = hops [last] ++ [text] := by
        rw [← hops_text htext]
        simp only [hops, List.flatMap_singleton, splitOn_append]
      rw [hops_append, hops_append, hlast, List.map_append, List.map_append, List.map_append,
        List.map_singleton, List.append_assoc]
  | join k => rw [trim_joinLines k _ (by simp), hops_append, hops_text htext, List.map_append,
      List.map_singleton]

/-! ## The walk from the right -/

section Walk

variable {trustedProxies : List Prefix} {client sender : Addr} {sent lines lines' : List Text}
  {text : Text} {n : ℕ}

theorem isTrustedProxy_unmap (a : Addr) :
    isTrustedProxy trustedProxies a.unmap = isTrustedProxy trustedProxies a := by
  unfold isTrustedProxy
  rw [a.unmap_unmap]

theorem lastUntrusted_congr (a b : List Text) (h : a.map trimSpace = b.map trimSpace) :
    lastUntrusted trustedProxies a = lastUntrusted trustedProxies b := by
  induction a generalizing b with
  | nil =>
      cases b with
      | nil => rfl
      | cons => simp at h
  | cons hop hops ih =>
      cases b with
      | nil => simp at h
      | cons hop' hops' =>
          obtain ⟨hhop, hhops⟩ := List.cons.inj h
          simp only [lastUntrusted]
          rw [hhop, ih hops' hhops]

theorem lastUntrusted_cons {a : Addr} (htext : Names text a) (hops : List Text) :
    lastUntrusted trustedProxies (text :: hops) =
      if isTrustedProxy trustedProxies a then lastUntrusted trustedProxies hops
      else some a.unmap := by
  obtain ⟨-, b, hb, hab⟩ := htext
  simp only [lastUntrusted, hb, hab, isTrustedProxy_unmap]

/-- What a proxy has appended is looked at first. -/
theorem forwardedClient_appends (htext : Names text sender) (h : Appends text lines lines') :
    forwardedClient trustedProxies lines' =
      if isTrustedProxy trustedProxies sender then forwardedClient trustedProxies lines
      else some sender.unmap := by
  have hhops : ((hops lines').reverse).map trimSpace =
      (text :: (hops lines).reverse).map trimSpace := by
    rw [List.map_reverse, h.hops_eq htext.1, List.reverse_append, List.map_cons, List.map_reverse]
    rfl
  unfold forwardedClient
  rw [lastUntrusted_congr _ _ hhops, lastUntrusted_cons htext]

/-- After the first proxy every next one is trusted, and the client is found behind them. -/
theorem Passed.forwardedClient_eq (h : Passed trustedProxies client sent n sender lines)
    (hclient : isTrustedProxy trustedProxies client = false) :
    (n = 0 ∧ sender = client) ∨ (isTrustedProxy trustedProxies sender = true ∧
      forwardedClient trustedProxies lines = some client.unmap) := by
  induction h with
  | sent => exact Or.inl ⟨rfl, rfl⟩
  | forward _ hproxy htext happends ih =>
      refine Or.inr ⟨hproxy, ?_⟩
      rw [forwardedClient_appends htext happends]
      rcases ih with ⟨-, rfl⟩ | ⟨htrusted, hfound⟩
      · rw [if_neg (by rw [hclient]; exact Bool.false_ne_true)]
      · rw [if_pos htrusted, hfound]

/-- A client behind one or more trusted proxies is known by the address that the first of them has
the request from, so that nothing it puts into the header makes a difference; a peer that is not
trusted is known by its own. -/
theorem remoteAddr_passed (hclient : isTrustedProxy trustedProxies client = false) :
    (∀ n sent peer lines remote port, Passed trustedProxies client sent (n + 1) peer lines →
      parseAddrPort remote = some ⟨peer, port⟩ →
      remoteAddr trustedProxies ⟨remote, lines⟩ = (AddrPort.mk client.unmap 0).write ∧
      ∀ sent' lines', Passed trustedProxies client sent' (n + 1) peer lines' →
        remoteAddr trustedProxies ⟨remote, lines'⟩ = remoteAddr trustedProxies ⟨remote, lines⟩) ∧
    ∀ remote lines, (∀ peer ∈ parseAddrPort remote,
      isTrustedProxy trustedProxies peer.addr = false) →
      remoteAddr trustedProxies ⟨remote, lines⟩ = remote := by
  have hfound : ∀ n sent peer lines remote port,
      Passed trustedProxies client sent (n + 1) peer lines →
      parseAddrPort remote = some ⟨peer, port⟩ →
      remoteAddr trustedProxies ⟨remote, lines⟩ = (AddrPort.mk client.unmap 0).write := by
    intro n sent peer lines remote port hpassed hremote
    rcases hpassed.forwardedClient_eq hclient with ⟨hzero, -⟩ | ⟨htrusted, hfound⟩
    · exact absurd hzero (Nat.succ_ne_zero n)
    · simp only [remoteAddr, hremote, htrusted, not_true_eq_false, if_false, hfound]
  refine ⟨fun n sent peer lines remote port hpassed hremote => ?_, fun remote lines hpeer => ?_⟩
  · have hself := hfound n sent peer lines remote port hpassed hremote
    refine ⟨hself, fun sent' lines' hpassed' => ?_⟩
    rw [hself, hfound n sent' peer lines' remote port hpassed' hremote]
  · cases hremote : parseAddrPort remote with
    | none => simp only [remoteAddr, hremote]
    | some peer =>
        have huntrusted := hpeer peer hremote
        simp [remoteAddr, hremote, huntrusted]

end Walk

/-! ## A forger behind two proxies -/

def trusted : List Prefix := (setTrustedProxies (ascii "192.0.2.0/24, 2001:db8::1")).getD []

/-- 198.51.100.7 -/
def forger : Addr := .v4 0xc6336407

/-- Two header lines, and what the proxies 192.0.2.9 and 2001:db8::1 make of them: the first writes
one line with an IPv4-mapped address, the second appends another line. -/
def forged : List Text := [ascii "203.0.113.5, 192.0.2.9", ascii "unknown"]

def received : List Text :=
  [joinLines 1 (forged ++ [ascii "::ffff:198.51.100.7"]), ascii "192.0.2.9"]

theorem remoteAddr_forged : remoteAddr trusted ⟨ascii "[2001:db8::1]:443", received⟩ =
    (AddrPort.mk forger.unmap 0).write ∧ (AddrPort.mk forger 0).write = ascii "198.51.100.7:0" ∧
    remoteAddr trusted ⟨ascii "198.51.100.7:4000", received⟩ = ascii "198.51.100.7:4000" := by
  have hmapped : Names (ascii "::ffff:198.51.100.7") forger :=
    ⟨by decide +kernel, .v6 0xffffc6336407 [], by decide +kernel, by decide +kernel⟩
  have hproxy : Names (ascii "192.0.2.9") (.v4 0xc0000209) :=
    ⟨by decide +kernel, .v4 0xc0000209, by decide +kernel, rfl⟩
  have hfirst : Passed trusted forger forged 1 (.v4 0xc0000209)
      [joinLines 1 (forged ++ [ascii "::ffff:198.51.100.7"])] :=
    .forward .sent (by decide +kernel) hmapped (.join 1 forged)
  have hsecond : Passed trusted forger forged 2 (.v6 0x20010db8000000000000000000000001 [])
      received :=
    .forward hfirst (by decide +kernel) hproxy (.line _)
  have hport : parseAddrPort (ascii "[2001:db8::1]:443") =
      some ⟨.v6 0x20010db8000000000000000000000001 [], 443⟩ := by decide +kernel
  have hclient : isTrustedProxy trusted forger = false := by decide +kernel
  have hpeer : ∀ peer ∈ parseAddrPort (ascii "198.51.100.7:4000"),
      isTrustedProxy trusted peer.addr = false := by decide +kernel
  exact ⟨((remoteAddr_passed hclient).1 _ _ _ _ _ _ hsecond hport).1, by decide +kernel,
    (remoteAddr_passed hclient).2 _ _ hpeer⟩

end Sozvon.ClientAddress
