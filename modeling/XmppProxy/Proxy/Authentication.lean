import XmppProxy.Proxy.Series

/-! Whom an outgoing connection reaches: the loop is entered only over the transport of the last attempt, and
that attempt has shown a certificate of the domain that the client's header names. -/

namespace XmppProxy

open Lib

theorem marked_bytes_append (n : Nat) (ps qs : List (BytePoll × WriteResult)) :
    marked (filterNextEoft.outputs (.new n) (bytesOf (ps ++ qs))) =
      marked (filterNextEoft.outputs (.new n) (bytesOf ps)) ++
        marked (filterNextEoft.outputs (filterNextEoft.final (.new n) (bytesOf ps)) (bytesOf qs)) := by
  have hbytes : bytesOf (ps ++ qs) = bytesOf ps ++ bytesOf qs := List.flatMap_append
  rw [hbytes, Machine.outputs_append, marked_append]

theorem texts_append (ps qs : List (MessagePoll × WriteResult)) : texts (ps ++ qs) = texts ps ++ texts qs :=
  List.filterMap_append

theorem arrived_append (n : Nat) (rd : StanzaRead) (ps qs : List (rd.Poll × WriteResult)) :
    ∃ rest, arrived n rd (ps ++ qs) = arrived n rd ps ++ rest := by
  cases rd with
  | asyncRead => exact ⟨_, marked_bytes_append n ps qs⟩
  | webSocketRead =>
    exact ⟨_, (congrArg (List.map fun t => (fromWs t, 0)) (texts_append ps qs)).trans List.map_append⟩

section

variable {Uri ServerName : Type} [HttpUri Uri] [DecidableEq ServerName] {env : OutgoingListener ServerName}
  {handsNew : Prop} {f₀ f : StanzaFilter} {ps qs first : List (AnyPoll × WriteResult)} {c : ShuffleConfig}
  {s : Shuffle} {conn : Connected} {serverResponse : Bytes} {decls : List (Bytes × Nat)} {header : Bytes × Nat}
  {done : List (Σ peer : Peer, (peer.rd c).Poll × WriteResult)}

theorem Met.arrived {inRd : StanzaRead} {inWr : StanzaWrite} {isC2s : Bool}
    (h : Met Uri env inRd inWr f₀ ps isC2s conn serverResponse decls header) :
    arrived env.maxStanzaSizeBytes inRd (pollsAt inRd ps) = decls ++ [header] := by
  have hbegun := (sameReading_next inRd inWr).outputs_eq h.same (pollsAt inRd ps)
  obtain ⟨hread, -⟩ := read_arrived h.matching (pollsAt inRd ps) fun r hr => by
    rw [← hbegun] at hr
    exact h.preceded.noPanic r hr
  rw [← hread, ← hbegun]
  exact h.preceded.reads

theorem LoopingOut.streamOpen
    (h : LoopingOut Uri env handsNew f₀ ps qs c s conn serverResponse first decls header f done) :
    (upToHeader ((arrived env.maxStanzaSizeBytes c.inRd (pollsAt c.inRd ps)).map Prod.fst)).flatten =
      unmark (decls ++ [header]) := by
  obtain ⟨rest, hrest⟩ := arrived_append env.maxStanzaSizeBytes c.inRd (pollsAt c.inRd first) (ofClient done)
  have hdecls : ∀ d ∈ decls.map Prod.fst, declTag <+: d := by
    intro d hd
    obtain ⟨u, hu, rfl⟩ := List.mem_map.mp hd
    exact h.met.preceded.decls u hu
  obtain ⟨hup, -⟩ := upToHeader_eq hdecls h.met.opens (rest.map Prod.fst)
  rw [h.client, hrest, h.met.arrived, List.append_assoc, List.map_append]
  change (upToHeader (decls.map Prod.fst ++ header.1 :: rest.map Prod.fst)).flatten = _
  rw [hup, unmark, List.map_append, List.map_singleton]

end

section

variable {Cert ServerName : Type} (Uri : Type) [HttpUri Uri] [DecidableEq ServerName]

/-- A TLS handshake succeeds only if the verifier it is made with has taken the certificate that the peer of this
attempt presented. -/
def OutgoingConfig.ChecksCertificates (config : OutgoingConfig ServerName) (pki : Pki Cert ServerName)
    (presented : Nat → Cert × List Cert) (now : Nat → Nat) : Prop :=
  ∀ v n, (config.answers v n).secured = true → v.verifyCert pki (presented n).1 (presented n).2 (now n) = .ok ()

def OutgoingListener.streamOpen (env : OutgoingListener ServerName) (inRd : StanzaRead)
    (evs : List OutgoingEvent) : Bytes :=
  let polls := ((handleOutgoingConnection Uri env).trace (.new env) evs).flatMap OutgoingConnection.clientPolls
  (upToHeader ((arrived env.maxStanzaSizeBytes inRd (pollsAt inRd polls)).map Prod.fst)).flatten

/-- Over any transports and in any order of polls, the loop runs over the transport of the last attempt to
connect to the domain in the header of the client. That attempt was made with the verifier which
`get_xmpp_connections` has made for the domain, so the certificate of its peer is one of the domain. -/
theorem outgoing_authenticated (env : OutgoingListener ServerName) (hid : env.outgoing.given = id)
    (evs : List OutgoingEvent) {c : ShuffleConfig} {s : Shuffle}
    (hrun : (handleOutgoingConnection Uri env).final (.new env) evs = .shuffle c s) {domain : Bytes}
    (hdomain : toDomain (env.streamOpen Uri c.inRd evs) = .ok domain)
    (pki : Pki Cert ServerName) (presented : Nat → Cert × List Cert) (now : Nat → Nat)
    (hchecks : env.outgoing.ChecksCertificates pki presented now) :
    ∃ (srvs : List (XmppConnection Uri)) (v : XmppServerCertVerifier ServerName) (srv : XmppConnection Uri)
      (conn : Connected) (serverResponse : Bytes) (f : StanzaFilter) (st : Dialing) (n : Nat),
      env.outgoing.net.getXmppConnections env.sort domain c.isC2s = .ok (srvs, v) ∧
      env.outgoing.srvConnect env.sort domain c.isC2s (env.streamOpen Uri c.inRd evs) f =
        (some (.ok (srv, conn, serverResponse)), st) ∧
      c.outRd = conn.rd ∧ c.outWr = conn.wr ∧ st.attempts = n + 1 ∧
      (env.outgoing.withCustomCertificateVerifier v).Attempted Uri n conn ∧
      Authentic Uri env.outgoing.net pki (now n) domain c.isC2s (presented n).1 (presented n).2 := by
  have hc := carriedOut_run Uri hid evs
  rw [hrun] at hc
  obtain ⟨f₀, conn, serverResponse, first, decls, header, f, done, hl⟩ := hc
  have hopen : env.streamOpen Uri c.inRd evs = unmark (decls ++ [header]) := hl.streamOpen
  obtain ⟨domain', srv, f', st, hdomain', hconnect⟩ := hl.met.connected
  rw [hopen] at hdomain ⊢
  obtain rfl := Outcome.ok.inj (hdomain.symm.trans hdomain')
  obtain ⟨srvs, v, hfound, n, hn, hattempted⟩ := last_srvConnect hconnect
  have hverified := hchecks v n hattempted.secured.2
  exact ⟨srvs, v, srv, conn, serverResponse, f', st, n, hfound, hconnect, hl.outRd, hl.outWr, hn, hattempted,
    authentic_of_verified hfound hverified⟩

end

def authenticatedRun : List OutgoingEvent := beforeLast ++ [clientByte gt]

/-- Every peer presents a certificate for `a.org`, and no handshake succeeds that does not take it. -/
def checkedListener : OutgoingListener Bytes :=
  { quicListener with
    outgoing :=
      { quicListener.outgoing with
        answers := fun v n =>
          { quicListener.outgoing.answers v n with
            secured := (v.verifyCert namePki (bytes "a.org") [] 0).isOk } } }

set_option maxRecDepth 16000 in
theorem outgoing_authenticated_quic :
    ∃ c s, (handleOutgoingConnection Empty checkedListener).final (.new checkedListener) authenticatedRun =
        .shuffle c s ∧
      ∃ (srvs : List (XmppConnection Empty)) (v : XmppServerCertVerifier Bytes) (srv : XmppConnection Empty)
        (conn : Connected) (serverResponse : Bytes) (f : StanzaFilter) (st : Dialing) (n : Nat),
        exampleNet.getXmppConnections insertionSortBy (bytes "a.org") c.isC2s = .ok (srvs, v) ∧
        checkedListener.outgoing.srvConnect insertionSortBy (bytes "a.org") c.isC2s
          (checkedListener.streamOpen Empty c.inRd authenticatedRun) f =
            (some (.ok (srv, conn, serverResponse)), st) ∧
        c.outRd = conn.rd ∧ c.outWr = conn.wr ∧ st.attempts = n + 1 ∧
        (checkedListener.outgoing.withCustomCertificateVerifier v).Attempted Empty n conn ∧
        Authentic Empty exampleNet namePki 0 (bytes "a.org") c.isC2s (bytes "a.org") [] := by
  refine ⟨_, _, rfl, ?_⟩
  have hchecks : checkedListener.outgoing.ChecksCertificates namePki (fun _ => (bytes "a.org", [])) fun _ => 0 :=
    fun v n h => Outcome.isOk_iff.mp h |>.elim fun _ h => h
  exact outgoing_authenticated Empty checkedListener rfl authenticatedRun rfl (by decide +kernel) namePki
    (fun _ => (bytes "a.org", [])) (fun _ => 0) hchecks

end XmppProxy
