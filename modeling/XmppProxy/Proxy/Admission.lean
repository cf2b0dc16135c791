import XmppProxy.Model.Sessions
import XmppProxy.Proxy.Carriage
import XmppProxy.Srv.Provenance

/-! Who is let through to a target: whatever transport a connection comes over, the target hears of it only
behind TLS, with a header of its direction, and of a server only when its certificate is that of the domain
in the header. -/

namespace XmppProxy

open Lib

def rawBytes (sent : List Sent) : Bytes :=
  sent.flatMap fun x =>
    match x with
    | .raw buf => buf
    | _ => []

theorem rawBytes_append (as bs : List Sent) : rawBytes (as ++ bs) = rawBytes as ++ rawBytes bs :=
  List.flatMap_append

theorem rawBytes_singleton (buf : Bytes) : rawBytes [.raw buf] = buf := List.append_nil buf

/-- A header with the declarations in front of it, and its direction. -/
inductive HeadedBy : Bytes → Bool → Prop where
  | mk {decls : List Bytes} {header : Bytes} : (∀ d ∈ decls, bytes "<?xml " <+: d) →
      bytes "<stream:stream " <+: header → HeadedBy (decls.flatten ++ header) (isC2sHeader header)

section

variable {Cert Verifier : Type} (env : Incoming Cert Verifier)

def Incoming.Vouched (streamOpen : Bytes) : Prop :=
  ∃ domain verifier cert chain, fromDomain streamOpen = .ok domain ∧
    env.getXmppConnections domain false = .ok verifier ∧ env.peerCertificates = some (cert :: chain) ∧
    env.verifyCert verifier cert chain = .ok ()

structure Incoming.Admits (streamOpen : Bytes) (isC2s : Bool) : Prop where
  headed : HeadedBy streamOpen isC2s
  target : ∃ target, (if isC2s then env.config.c2sTarget else env.config.s2sTarget) = some target ∧
    env.connect target = .ok ()
  vouched : isC2s = false → env.Vouched streamOpen

def Incoming.opening (streamOpen : Bytes) : Bytes := rawBytes (env.proxySent ++ [.raw streamOpen])

/-- The target hears nothing, or of a connection that is admitted, and first of all its header. -/
def Incoming.Guards (sent : List Sent) : Prop :=
  sent = [] ∨ ∃ streamOpen isC2s, env.Admits streamOpen isC2s ∧
    (rawBytes sent <+: env.opening streamOpen ∨ env.opening streamOpen <+: rawBytes sent)

def Held : Connection → Prop
  | .preamble p _ => ∃ (f : StanzaFilter) (decls : List Bytes), p = .reading f decls.flatten ∧
      ∀ d ∈ decls, bytes "<?xml " <+: d
  | .shuffle isC2s s => ∃ streamOpen, env.Admits streamOpen isC2s ∧
      env.opening streamOpen <+: rawBytes s.server.sent
  | .ended _ _ sent => sent = [] ∨ ∃ streamOpen isC2s, env.Admits streamOpen isC2s ∧
      rawBytes sent <+: env.opening streamOpen

variable {env}

theorem Held.guards {c : Connection} (h : Held env c) : env.Guards c.toServer := by
  cases c with
  | preamble => exact .inl rfl
  | shuffle isC2s s =>
    obtain ⟨streamOpen, hadmits, hsent⟩ := h
    exact .inr ⟨streamOpen, isC2s, hadmits, .inr hsent⟩
  | ended =>
    rcases h with h | ⟨streamOpen, isC2s, hadmits, hsent⟩
    · exact .inl h
    · exact .inr ⟨streamOpen, isC2s, hadmits, .inl hsent⟩

theorem Incoming.checkServer_eq_ok {streamOpen : Bytes} (h : env.checkServer streamOpen = .ok ()) :
    env.Vouched streamOpen := by
  simp only [checkServer, Outcome.bind_eq_ok] at h
  obtain ⟨d, hd, verifier, hverifier, h⟩ := h
  split at h
  · cases h
  · cases h
  next cert chain hcerts =>
    exact ⟨d, verifier, cert, chain, hd, hverifier, hcerts, h⟩

theorem transmit_rawBytes (buf : Bytes) (res : WriteResult) :
    rawBytes (transmit (some (.raw buf)) res).2 <+: buf := by
  cases res with
  | done => exact (rawBytes_singleton buf).symm ▸ List.prefix_rfl
  | cut taken => exact (rawBytes_singleton (buf.take taken)).symm ▸ List.take_prefix taken buf
  | flushFailed => exact (rawBytes_singleton buf).symm ▸ List.prefix_rfl

theorem Incoming.sendProxy_rawBytes (env : Incoming Cert Verifier) (f : StanzaFilter) :
    rawBytes (env.sendProxy f).2.2 <+: proxyLine env.clientAddr env.localAddr := by
  rw [sendProxy_eq]
  split_ifs
  · split
    · exact (rawBytes_singleton _).symm ▸ List.prefix_rfl
    next taken _ => exact (rawBytes_singleton _).symm ▸ List.take_prefix taken _
  · exact List.nil_prefix

/-- However `open_incoming` ends, the target has heard nothing but the beginning of PROXY line and header. -/
theorem Incoming.openIncoming_sent {streamOpen : Bytes} {isC2s : Bool} {f f' : StanzaFilter} {r : Outcome Unit}
    {sent : List Sent} (h : env.openIncoming streamOpen isC2s f = (r, f', sent)) :
    sent = [] ∨ (∃ target, (if isC2s then env.config.c2sTarget else env.config.s2sTarget) = some target ∧
      env.connect target = .ok ()) ∧ rawBytes sent <+: env.opening streamOpen := by
  have hopened := transmit_rawBytes streamOpen env.openRes
  unfold openIncoming at h
  split at h
  · exact .inl (Prod.mk.inj (Prod.mk.inj h).2).2.symm
  next target htarget =>
    split at h
    next hconnect =>
      refine .inr ⟨⟨target, htarget, hconnect⟩, ?_⟩
      unfold opening proxySent
      rw [rawBytes_append, rawBytes_singleton]
      by_cases hproxy : env.config.proxy = true
      · rw [if_pos hproxy] at h ⊢
        have hline := env.sendProxy_rawBytes f
        have hok := @sendProxy_ok _ _ env f
        generalize env.sendProxy f = x at h hline hok
        obtain ⟨r₀, g, sent₀⟩ := x
        rw [rawBytes_singleton]
        cases r₀ with
        | ok =>
          obtain ⟨rfl, -⟩ := hok rfl
          obtain rfl := (Prod.mk.inj (Prod.mk.inj h).2).2
          rw [rawBytes_append, rawBytes_singleton]
          exact (List.prefix_append_right_inj _).mpr hopened
        | err e =>
          obtain rfl := (Prod.mk.inj (Prod.mk.inj h).2).2
          exact hline.trans (List.prefix_append _ _)
        | panic =>
          obtain rfl := (Prod.mk.inj (Prod.mk.inj h).2).2
          exact hline.trans (List.prefix_append _ _)
      · rw [if_neg hproxy] at h ⊢
        obtain rfl := (Prod.mk.inj (Prod.mk.inj h).2).2
        exact hopened
    next => exact .inl (Prod.mk.inj (Prod.mk.inj h).2).2.symm

theorem held_accept {f : StanzaFilter} {decls : List Bytes} {header : Bytes} {toClient : List Sent}
    (hd : ∀ d ∈ decls, bytes "<?xml " <+: d) (hh : bytes "<stream:stream " <+: header) :
    Held env (Connection.accept env f (decls.flatten ++ header) (isC2sHeader header) toClient) := by
  have hadmits : (if isC2sHeader header then Outcome.ok () else
      env.checkServer (decls.flatten ++ header)) = .ok () →
      (∃ target, (if isC2sHeader header then env.config.c2sTarget else env.config.s2sTarget) = some target ∧
        env.connect target = .ok ()) →
      env.Admits (decls.flatten ++ header) (isC2sHeader header) := by
    intro hchecked htarget
    refine ⟨.mk hd hh, htarget, fun hs2s => ?_⟩
    rw [hs2s] at hchecked
    exact Incoming.checkServer_eq_ok hchecked
  unfold Connection.accept
  split
  next hchecked =>
    split
    next f' sent ho =>
      rcases Incoming.openIncoming_sent ho with hnone | ⟨htarget, -⟩
      · rw [(Incoming.openIncoming_ok ho).1] at hnone
        exact absurd hnone (by simp)
      · refine ⟨_, hadmits hchecked htarget, ?_⟩
        exact (Incoming.openIncoming_ok ho).1 ▸ List.prefix_rfl
    next r f' sent hne ho =>
      rcases Incoming.openIncoming_sent ho with hnone | ⟨htarget, hsent⟩
      · exact .inl hnone
      · exact .inr ⟨_, _, hadmits hchecked htarget, hsent⟩
  · exact .inl rfl
  · exact .inl rfl

theorem Shuffle.sent_isPrefix {c : ShuffleConfig} (s : Shuffle) (ev : Event c) (peer : Peer) :
    (peer.side s).sent <+: (peer.side (step c s ev).2).sent := by
  by_cases hp : ev.Polled s
  · obtain ⟨hme, sent, hother, -⟩ := (ev.branched s).answers
    rw [step_polled hp]
    rcases ev.peer.eq_or_other peer with rfl | rfl
    · rw [side_of, hme]
      exact List.prefix_append _ _
    · rw [other_side_of, hother]
      exact List.prefix_append _ _
  · rw [step_not_polled hp]

theorem rawBytes_isPrefix {as bs : List Sent} (h : as <+: bs) : rawBytes as <+: rawBytes bs := by
  obtain ⟨cs, rfl⟩ := h
  rw [rawBytes_append]
  exact List.prefix_append _ _

theorem Held.step {inRd : StanzaRead} {inWr : StanzaWrite} {c : Connection} (h : Held env c) (p : Poll inRd) :
    Held env (c.step env inRd inWr p).2 := by
  cases c with
  | preamble pre toClient =>
    obtain ⟨f, decls, rfl, hd⟩ := h
    cases p with
    | server poll res => exact ⟨f, decls, rfl, hd⟩
    | client poll res =>
      have hturn := preambleTurn inWr f decls.flatten poll res
      unfold Connection.step
      dsimp only
      generalize Preamble.step inRd inWr poll res (.reading f decls.flatten) = x at hturn
      obtain ⟨sent, pre⟩ := x
      cases hturn with
      | more => exact ⟨_, decls, rfl, hd⟩
      | @decl u _ _ hx =>
        refine ⟨(inRd.poll inWr f poll res).filter, decls ++ [u.1], ?_, fun d hd' => ?_⟩
        · rw [List.flatten_append, List.flatten_singleton]
        · rcases List.mem_append.mp hd' with hd' | hd'
          · exact hd d hd'
          · exact List.mem_singleton.mp hd' ▸ hx
      | header _ _ hs => exact held_accept hd hs
      | failed => exact .inl rfl
      | panicked => exact .inl rfl
  | shuffle isC2s s =>
    obtain ⟨streamOpen, hadmits, hsent⟩ := h
    exact ⟨streamOpen, hadmits, hsent.trans (rawBytes_isPrefix (Shuffle.sent_isPrefix s p.event .server))⟩
  | ended => exact h

theorem held_preamble (f : StanzaFilter) (toClient : List Sent) :
    Held env (.preamble (.reading f []) toClient) := ⟨f, [], rfl, fun _ hd => nomatch hd⟩

theorem held_run (env : Incoming Cert Verifier) (inRd : StanzaRead) (inWr : StanzaWrite) (f : StanzaFilter)
    (polls : List (Poll inRd)) :
    Held env ((shuffleRdWrFilter env inRd inWr).final (.preamble (.reading f []) []) polls) :=
  Machine.invariant (P := Held env) (fun _ p hc => Held.step hc p) (held_preamble f []) polls

def TcpConnection.toServer : TcpConnection → List Sent
  | .tls (.running c) => c.toServer
  | .webSocket c => c.toServer
  | _ => []

def HeldTcp (env : Incoming Cert Verifier) (done : Prop) : TcpConnection → Prop
  | .tls (.accepted _ _) => done
  | .tls (.websocket _ _) => done
  | .tls (.running c) => done ∧ Held env c
  | .webSocket c => done ∧ Held env c
  | _ => True

variable {done : Prop}

theorem heldTcp_plain {c : TlsConnection} (h : c.Plain) : HeldTcp env done (.tls c) := by
  cases c with
  | accepted f sent => exact h.elim
  | running c => exact h.elim
  | websocket f sent => exact h.elim
  | _ => trivial

theorem HeldTcp.mono {done' : Prop} (hdone : done → done') {c : TcpConnection} (h : HeldTcp env done c) :
    HeldTcp env done' c := by
  cases c with
  | tls c =>
    cases c with
    | accepted => exact hdone h
    | websocket => exact hdone h
    | running c => exact ⟨hdone h.1, h.2⟩
    | _ => trivial
  | webSocket c => exact ⟨hdone h.1, h.2⟩
  | ended => trivial

theorem heldTcp_tls {c : TlsConnection} (h : HeldTcp env done (.tls c)) (ev : TlsEvent)
    (hdone : ev = .accepted → done) : HeldTcp env done (.tls (c.step env ev).2) := by
  by_cases hplain : c.Plain
  · rcases hplain.step env ev with hstill | ⟨hev, f, sent, heq⟩
    · exact heldTcp_plain hstill
    · rw [heq]
      exact hdone hev
  cases c with
  | accepted f sent =>
    cases ev with
    | sniffed websocket =>
      cases websocket with
      | false => exact ⟨h, held_preamble f sent⟩
      | true => exact h
    | peekFailed => trivial
    | _ => exact h
  | running c =>
    cases ev with
    | poll p => exact ⟨h.1, h.2.step p⟩
    | _ => exact h
  | websocket f sent => exact h
  | _ => exact absurd trivial hplain

theorem HeldTcp.step {evs : List TcpEvent} {c : TcpConnection} (h : HeldTcp env (.tls .accepted ∈ evs) c)
    (ev : TcpEvent) : HeldTcp env (.tls .accepted ∈ evs ++ [ev]) (c.step env ev).2 := by
  have hlater : HeldTcp env (.tls .accepted ∈ evs ++ [ev]) c := h.mono (List.mem_append_left _)
  cases c with
  | tls c =>
    cases ev with
    | tls ev =>
      refine heldTcp_tls hlater ev fun hev => ?_
      rw [hev]
      exact List.mem_append_right _ (List.mem_singleton_self _)
    | upgraded =>
      cases c with
      | websocket f sent => exact ⟨hlater, held_preamble f sent⟩
      | _ => exact hlater
    | upgradeFailed e =>
      cases c with
      | websocket f sent => trivial
      | _ => exact hlater
    | poll p => cases c <;> exact hlater
  | webSocket c =>
    cases ev with
    | poll p => exact ⟨hlater.1, hlater.2.step p⟩
    | _ => exact hlater
  | ended r sent => cases ev <;> trivial

theorem heldTcp_run (env : Incoming Cert Verifier) (evs : List TcpEvent) :
    HeldTcp env (.tls .accepted ∈ evs) ((handleTcpConnection env).final (.accepted env.config) evs) := by
  induction evs using List.reverseRecOn with
  | nil => trivial
  | append_singleton evs ev ih =>
    rw [Machine.final_concat]
    exact ih.step ev

theorem HeldTcp.guards {c : TcpConnection} (h : HeldTcp env done c) :
    c.toServer = [] ∨ done ∧ env.Guards c.toServer := by
  cases c with
  | tls c =>
    cases c with
    | running c => exact .inr ⟨h.1, h.2.guards⟩
    | _ => exact .inl rfl
  | webSocket c => exact .inr ⟨h.1, h.2.guards⟩
  | ended => exact .inl rfl

end

section

variable {Cert ServerName : Type} (Uri : Type) [HttpUri Uri]

/-- What a certificate is accepted for: a pin of host-meta.json, POSH, or a chain that is valid for the name of
the domain or of a connection learned over HTTPS. -/
inductive Authentic (net : Network ServerName) (pki : Pki Cert ServerName) (now : Nat) (domain : Bytes)
    (isC2s : Bool) (endEntity : Cert) (intermediates : List Cert) : Prop where
  | pin {key : Bytes} : pki.anchorFromTrustedCert endEntity = some key →
      Pinned net domain (digest pki .sha256 ([48, 130, 1, 34] ++ key)) → Authentic ..
  | posh {posh : Posh} : net.collectPosh domain = .ok posh →
      posh.validCert pki (pki.asRef endEntity) = true → Authentic ..
  | chain {name : ServerName} : verifyIsValidTlsServerCert pki endEntity intermediates now = .ok () →
      pki.verifyIsValidForSubjectName endEntity name = true →
      (net.tryFrom domain = .ok name ∨ ∃ srv : XmppConnection Uri, srv.secure = true ∧
        Learned net domain isC2s srv ∧ net.tryFrom srv.target = .ok name) → Authentic ..

variable [DecidableEq ServerName] (env : Incoming Cert (XmppServerCertVerifier ServerName))
  (net : Network ServerName) (sort : SortBy) (pki : Pki Cert ServerName) (now : Nat)

/-- A connection that looks domains up with `get_xmpp_connections` and checks certificates with
`verify_cert`. -/
def Incoming.overNetwork : Incoming Cert (XmppServerCertVerifier ServerName) :=
  { env with
    getXmppConnections := fun domain isC2s =>
      let found : Outcome (List (XmppConnection Uri) × XmppServerCertVerifier ServerName) :=
        net.getXmppConnections sort domain isC2s
      do return (← found).2
    verifyCert := fun v endEntity intermediates => v.verifyCert pki endEntity intermediates now }

variable {Uri env net sort pki now}

theorem authentic_of_verified {domain : Bytes} {isC2s : Bool} {srvs : List (XmppConnection Uri)}
    {v : XmppServerCertVerifier ServerName} (hfound : net.getXmppConnections sort domain isC2s = .ok (srvs, v))
    {cert : Cert} {chain : List Cert} (hverified : v.verifyCert pki cert chain now = .ok ()) :
    Authentic Uri net pki now domain isC2s cert chain := by
  obtain ⟨-, -, -, -, -, -, -, -, hposh, hpins⟩ := getXmppConnections_eq_ok hfound
  rcases XmppServerCertVerifier.verifyCert_eq_ok hverified with ⟨key, hkey, hpin⟩ |
    ⟨posh, hsome, hvalid⟩ | ⟨hchain, name, hname, hvalid⟩
  · exact .pin hkey (hpins _ hpin)
  · exact .posh (hposh posh hsome) hvalid
  · refine .chain hchain hvalid ?_
    rcases name_of_getXmppConnections hfound name hname with hown | ⟨srv, -, hlearned⟩
    · exact .inl hown
    · exact .inr ⟨srv, hlearned⟩

end

def namePki : Pki Bytes Bytes where
  asRef := id
  hash _ := id
  base64 := id
  anchorFromTrustedCert _ := none
  endEntityCert _ := true
  verifyForUsage _ _ _ := true
  verifyIsValidForSubjectName cert name := cert = name

def serverTarget : Incoming Bytes (XmppServerCertVerifier Bytes) where
  config := ⟨64, some (.socketAddr ⟨.ofV4 127 0 0 1, 5269⟩), none, false⟩
  localAddr := ⟨.ofV4 10 0 0 1, 5269⟩
  clientAddr := ⟨.ofV4 10 0 0 2, 4000⟩
  peerCertificates := some [bytes "a.org"]
  getXmppConnections := fun _ _ => .err .net
  verifyCert := fun _ _ _ => .err .pki
  connect := fun _ => .ok ()
  proxyTaken := none
  openRes := .done
  trace := false

def serverRun : List TcpEvent :=
  [.tls (.hello 0x16 3 1), .tls .accepted, .tls (.sniffed false)] ++
    (bytes "<stream:stream from='a.org'>").map fun b => .tls (.poll (.client (.byte b) .done))

end XmppProxy
