import XmppProxy.Model.Outgoing
import XmppProxy.Srv.Candidates

/-! Where the connections to a domain come from, and what follows for the names that a certificate may be
valid for: a connection is secure when it was learned over HTTPS, and DNS adds no names. -/

namespace XmppProxy

open Lib

variable {Uri ServerName : Type} [HttpUri Uri]

def Link.isC2s : Link → Option Bool
  | webSocket _ _ | webTransport _ _ | directTLS _ _ | quic _ _ => some true
  | s2sWebSocket _ _ | s2sWebTransport _ _ | s2sDirectTLS _ _ | s2sQuic _ _ => some false
  | unknown => none

theorem wssToSrv_secure {url : Bytes} {secure : Bool} {srv : XmppConnection Uri}
    (h : wssToSrv url secure = some srv) : srv.secure = secure := by
  simp only [wssToSrv, Option.bind_eq_bind, Option.bind_eq_some_iff] at h
  obtain ⟨uri, -, serverName, -, h⟩ := h
  split at h <;>
  · obtain rfl := Option.some.inj h
    rfl

omit [HttpUri Uri] in
theorem LinkCommon.intoXmppConnection_eq_some {link : LinkCommon} {connType : XmppConnectionType Uri}
    {port : UInt16} {srv : XmppConnection Uri} (h : link.intoXmppConnection connType port = some srv) :
    srv.secure = true ∧ srv.target = link.sni ∧ srv.ips = link.ips := by
  unfold intoXmppConnection at h
  split at h
  · cases h
  · obtain rfl := Option.some.inj h
    exact ⟨rfl, rfl, rfl⟩

theorem Link.intoXmppConnection_secure {link : Link} {isC2s : Bool} {srv : XmppConnection Uri}
    (h : link.intoXmppConnection isC2s = some srv) : srv.secure = true ∧ link.isC2s = some isC2s := by
  -- A link of the other direction becomes nothing.
  cases isC2s <;> cases link <;>
    simp only [intoXmppConnection, ↓reduceIte, Bool.false_eq_true, reduceCtorEq, Option.bind_eq_bind,
      Option.bind_eq_some_iff] at h <;>
    refine ⟨?_, rfl⟩
  case true.webSocket href link =>
    obtain ⟨found, hfound, h⟩ := h
    cases link with
    | none => exact Option.some.inj h ▸ wssToSrv_secure hfound
    | some link => exact (LinkCommon.intoXmppConnection_eq_some h).1
  all_goals first
    | exact (LinkCommon.intoXmppConnection_eq_some h).1
    | obtain ⟨_, -, h⟩ := h
      exact (LinkCommon.intoXmppConnection_eq_some h).1

theorem mem_collect {hostMeta : HostMeta} {isC2s : Bool} {srv : XmppConnection Uri} :
    srv ∈ (hostMeta.collect isC2s : Collected Uri).ret ↔
      ∃ link ∈ hostMeta.links, link.intoXmppConnection isC2s = some srv := List.mem_filterMap

/-- Learned over HTTPS: a link of the direction in host-meta.json, or for clients a link of host-meta. -/
inductive Learned (net : Network ServerName) (domain : Bytes) (isC2s : Bool) : XmppConnection Uri → Prop
  | json {resp : Response} {body : Bytes} {hostMeta : HostMeta} {link : Link} {srv : XmppConnection Uri} :
      net.httpsGet (bytes "https://" ++ domain ++ bytes "/.well-known/host-meta.json") = .ok resp →
      resp.isSuccess = true → resp.body = .ok body → net.hostMeta body = .ok hostMeta → link ∈ hostMeta.links →
      link.isC2s = some isC2s → link.intoXmppConnection isC2s = some srv → Learned net domain isC2s srv
  | xml {resp : Response} {body host : Bytes} {hosts : List Bytes} {srv : XmppConnection Uri} :
      isC2s = true →
      net.httpsGet (bytes "https://" ++ domain ++ bytes "/.well-known/host-meta") = .ok resp →
      resp.isSuccess = true → resp.body = .ok body →
      parseHostMetaXml (bytes "urn:xmpp:alt-connections:websocket") body = .ok hosts → host ∈ hosts →
      wssToSrv host true = some srv → Learned net domain isC2s srv

/-- Told by a DNS record, or assumed for want of one. -/
inductive Told (net : Network ServerName) (domain : Bytes) (isC2s : Bool) : XmppConnection Uri → Prop
  | srv {name : DnsName} {records : List RData} {record : RData} {connType : XmppConnectionType Uri}
      {srv : XmppConnection Uri} :
      net.srvLookup name = .ok records → record ∈ records → srvConnection connType record = some srv →
      Told net domain isC2s srv
  | txt {name : DnsName} {records : List RData} {record : RData} {txt : Bytes} {srv : XmppConnection Uri} :
      net.txtLookup name = .ok records → record ∈ records → txt ∈ record.txtData →
      txtConnection isC2s txt = some srv → Told net domain isC2s srv
  | default {srv : XmppConnection Uri} : srv ∈ Network.defaults domain isC2s → Told net domain isC2s srv

/-- The `secure` flag tells the two apart. -/
def Attributed (net : Network ServerName) (domain : Bytes) (isC2s : Bool) (srv : XmppConnection Uri) :
    Prop :=
  srv.secure = true ∧ Learned net domain isC2s srv ∨ srv.secure = false ∧ Told net domain isC2s srv

section Collectors

variable {net : Network ServerName} {domain : Bytes} {isC2s : Bool} {srv : XmppConnection Uri}
  {ret : List (XmppConnection Uri)}

theorem collectHostMetaJson_learned {c : Collected Uri}
    (h : net.collectHostMetaJson domain isC2s = .ok c) (hsrv : srv ∈ c.ret) :
    srv.secure = true ∧ Learned net domain isC2s srv := by
  simp only [Network.collectHostMetaJson, Outcome.bind_eq_ok] at h
  obtain ⟨resp, hget, h⟩ := h
  split at h
  next hok =>
    obtain ⟨body, hbody, hostMeta, hjson, h⟩ := by simpa only [Outcome.bind_eq_ok] using h
    obtain rfl := Outcome.ok.inj h
    obtain ⟨link, hlink, hinto⟩ := List.mem_filterMap.mp hsrv
    obtain ⟨hsecure, hdir⟩ := Link.intoXmppConnection_secure hinto
    exact ⟨hsecure, .json hget hok hbody hjson hlink hdir hinto⟩
  next => cases h

theorem collectHostMetaXml_learned {xml : List (XmppConnection Uri)}
    (h : net.collectHostMetaXml domain isC2s = .ok xml) (hsrv : srv ∈ xml) :
    srv.secure = true ∧ Learned net domain isC2s srv := by
  unfold Network.collectHostMetaXml at h
  split at h
  next hc2s =>
    obtain ⟨resp, hget, h⟩ := Outcome.bind_eq_ok.mp h
    split at h
    next hok =>
      obtain ⟨body, hbody, hosts, hhosts, h⟩ := by simpa only [Outcome.bind_eq_ok] using h
      obtain rfl := Outcome.ok.inj h
      obtain ⟨host, hhost, hwss⟩ := List.mem_filterMap.mp hsrv
      exact ⟨wssToSrv_secure hwss, .xml hc2s hget hok hbody hhosts hhost hwss⟩
    next => cases h
  next => cases h

theorem collectHostMeta_learned {c : Collected Uri}
    (h : net.collectHostMeta domain isC2s = .ok c) (hsrv : srv ∈ c.ret) :
    srv.secure = true ∧ Learned net domain isC2s srv := by
  unfold Network.collectHostMeta at h
  split at h
  case h_3 hjson _ =>
    obtain rfl := Outcome.ok.inj h
    exact collectHostMetaJson_learned hjson hsrv
  case h_4 hjson hxml =>
    obtain rfl := Outcome.ok.inj h
    rcases List.mem_append.mp hsrv with hsrv | hsrv
    · exact collectHostMetaJson_learned hjson hsrv
    · exact collectHostMetaXml_learned hxml hsrv
  case h_5 hxml =>
    obtain rfl := Outcome.ok.inj h
    exact collectHostMetaXml_learned hxml hsrv
  case h_6 => exact collectHostMetaJson_learned h hsrv
  all_goals cases h

theorem collectSrvs_attributed {name : DnsName} {connType : XmppConnectionType Uri}
    (hret : ∀ srv ∈ ret, Attributed net domain isC2s srv) :
    ∀ srv ∈ collectSrvs ret (net.srvLookup name) connType, Attributed net domain isC2s srv := by
  unfold collectSrvs
  split
  next records hrecords =>
    intro srv hsrv
    rcases List.mem_append.mp hsrv with hsrv | hsrv
    · exact hret srv hsrv
    · obtain ⟨record, hrecord, hconn⟩ := List.mem_filterMap.mp hsrv
      refine .inr ⟨?_, .srv hrecords hrecord hconn⟩
      unfold srvConnection at hconn
      split at hconn
      · split at hconn
        · cases hconn
        · exact Option.some.inj hconn ▸ rfl
      · cases hconn
  next => exact hret

theorem txtConnection_secure {txt : Bytes} (h : txtConnection isC2s txt = some srv) :
    srv.secure = false := by
  unfold txtConnection at h
  split_ifs at h
  all_goals
    split at h
    · exact wssToSrv_secure h
    · cases h

theorem mem_collectTxt {txt : Bytes} (h : srv ∈ collectTxt isC2s ret txt) :
    srv ∈ ret ∨ txtConnection isC2s txt = some srv := by
  unfold collectTxt at h
  split at h
  next found hfound =>
    split at h
    · exact .inl h
    · rcases List.mem_append.mp h with h | h
      · exact .inl h
      · exact .inr (List.mem_singleton.mp h ▸ hfound)
  next => exact .inl h

theorem mem_foldl_collectTxt {txts : List Bytes} (h : srv ∈ txts.foldl (collectTxt isC2s) ret) :
    srv ∈ ret ∨ ∃ txt ∈ txts, txtConnection isC2s txt = some srv := by
  induction txts generalizing ret with
  | nil => exact .inl h
  | cons txt txts ih =>
    rcases ih h with hret | ⟨t, ht, hsrv⟩
    · rcases mem_collectTxt hret with hret | hsrv
      · exact .inl hret
      · exact .inr ⟨txt, List.mem_cons_self, hsrv⟩
    · exact .inr ⟨t, List.mem_cons_of_mem _ ht, hsrv⟩

theorem collectTxts_attributed {name : DnsName} (hret : ∀ srv ∈ ret, Attributed net domain isC2s srv) :
    ∀ srv ∈ collectTxts ret (net.txtLookup name) isC2s, Attributed net domain isC2s srv := by
  unfold collectTxts
  split
  next records hrecords =>
    intro srv hsrv
    rcases mem_foldl_collectTxt hsrv with hsrv | ⟨txt, htxt, hsrv⟩
    · exact hret srv hsrv
    · obtain ⟨record, hrecord, htxt⟩ := List.mem_flatMap.mp htxt
      exact .inr ⟨txtConnection_secure hsrv, .txt hrecords hrecord htxt hsrv⟩
  next => exact hret

end Collectors

def Pinned (net : Network ServerName) (domain pin : Bytes) : Prop :=
  ∃ resp body hostMeta xmpp,
    net.httpsGet (bytes "https://" ++ domain ++ bytes "/.well-known/host-meta.json") = .ok resp ∧
    resp.isSuccess = true ∧ resp.body = .ok body ∧ net.hostMeta body = .ok hostMeta ∧
    hostMeta.xmpp = some xmpp ∧ pin ∈ xmpp.publicKeyPinsSha256

theorem collectHostMetaJson_pinned {net : Network ServerName} {domain pin : Bytes} {isC2s : Bool}
    {c : Collected Uri} (h : net.collectHostMetaJson domain isC2s = .ok c)
    (hpin : pin ∈ c.sha256Pinnedpubkeys) : Pinned net domain pin := by
  simp only [Network.collectHostMetaJson, Outcome.bind_eq_ok] at h
  obtain ⟨resp, hget, h⟩ := h
  split at h
  next hok =>
    obtain ⟨body, hbody, hostMeta, hjson, h⟩ := by simpa only [Outcome.bind_eq_ok] using h
    obtain rfl := Outcome.ok.inj h
    unfold HostMeta.collect at hpin
    cases hxmpp : hostMeta.xmpp with
    | none => simp [hxmpp] at hpin
    | some xmpp =>
      refine ⟨resp, body, hostMeta, xmpp, hget, hok, hbody, hjson, hxmpp, ?_⟩
      simpa [hxmpp] using hpin
  next => cases h

theorem collectHostMeta_pinned {net : Network ServerName} {domain pin : Bytes} {isC2s : Bool}
    {c : Collected Uri} (h : net.collectHostMeta domain isC2s = .ok c)
    (hpin : pin ∈ c.sha256Pinnedpubkeys) : Pinned net domain pin := by
  unfold Network.collectHostMeta at h
  split at h
  case h_3 hjson _ =>
    obtain rfl := Outcome.ok.inj h
    exact collectHostMetaJson_pinned hjson hpin
  case h_4 hjson _ =>
    obtain rfl := Outcome.ok.inj h
    exact collectHostMetaJson_pinned hjson hpin
  case h_5 =>
    obtain rfl := Outcome.ok.inj h
    exact absurd hpin List.not_mem_nil
  case h_6 => exact collectHostMetaJson_pinned h hpin
  all_goals cases h

theorem XmppServerCertVerifier.verifyCert_eq_ok {Cert : Type} {v : XmppServerCertVerifier ServerName}
    {pki : Pki Cert ServerName} {endEntity : Cert} {intermediates : List Cert} {now : Nat}
    (h : v.verifyCert pki endEntity intermediates now = .ok ()) :
    (∃ key, pki.anchorFromTrustedCert endEntity = some key ∧
      digest pki .sha256 ([48, 130, 1, 34] ++ key) ∈ v.sha256Pinnedpubkeys) ∨
    (∃ posh, v.posh = some posh ∧ posh.validCert pki (pki.asRef endEntity) = true) ∨
    verifyIsValidTlsServerCert pki endEntity intermediates now = .ok () ∧
      ∃ name ∈ v.names, pki.verifyIsValidForSubjectName endEntity name = true := by
  simp only [verifyCert, Outcome.bind_eq_ok] at h
  obtain ⟨isPinned, hpinned, h⟩ := h
  split at h
  next htrue =>
    -- The pinned key.
    refine .inl ?_
    subst htrue
    unfold pinned at hpinned
    split at hpinned
    · cases hpinned
    · split at hpinned
      · cases hpinned
      next key hkey => exact ⟨key, hkey, by simpa using hpinned⟩
  next =>
    split at h
    next hposh =>
      obtain ⟨posh, hsome, hvalid⟩ := (Option.any_eq_true ..).mp hposh
      exact .inr (.inl ⟨posh, hsome, hvalid⟩)
    next =>
      obtain ⟨⟨⟩, hchain, h⟩ := Outcome.bind_eq_ok.mp h
      split at h
      next hnames =>
        obtain ⟨name, hname, hvalid⟩ := List.any_eq_true.mp hnames
        exact .inr (.inr ⟨hchain, name, hname, hvalid⟩)
      next => cases h

omit [HttpUri Uri] in
theorem mem_foldl_addName [DecidableEq ServerName] {net : Network ServerName} {name : ServerName}
    {srvs : List (XmppConnection Uri)} {names : List ServerName}
    (h : name ∈ srvs.foldl net.addName names) :
    name ∈ names ∨ ∃ srv ∈ srvs, srv.secure = true ∧ net.tryFrom srv.target = .ok name := by
  induction srvs generalizing names with
  | nil => exact .inl h
  | cons srv srvs ih =>
    rcases ih h with hmem | ⟨s, hs, hsecure, hname⟩
    · unfold Network.addName at hmem
      split_ifs at hmem with hsecure
      · split at hmem
        next target htarget =>
          split_ifs at hmem
          · exact .inl hmem
          · rcases List.mem_append.mp hmem with hmem | hmem
            · exact .inl hmem
            · exact .inr ⟨srv, List.mem_cons_self, hsecure, List.mem_singleton.mp hmem ▸ htarget⟩
        next => exact .inl hmem
      · exact .inl hmem
    · exact .inr ⟨s, List.mem_cons_of_mem _ hs, hsecure, hname⟩

/-- What `get_xmpp_connections` puts together: attributed connections, sorted, and in the verifier the
names of the secure ones, the POSH fingerprints and the pins. -/
theorem getXmppConnections_eq_ok [DecidableEq ServerName] {net : Network ServerName} {sort : SortBy}
    {domain : Bytes} {isC2s : Bool} {srvs : List (XmppConnection Uri)}
    {v : XmppServerCertVerifier ServerName}
    (h : net.getXmppConnections sort domain isC2s = .ok (srvs, v)) :
    ∃ name found ret, net.tryFrom domain = .ok name ∧
      (∀ srv ∈ found, Attributed net domain isC2s srv) ∧ sortDedup sort found = .ok ret ∧
      srvs = (if ret.isEmpty then Network.defaults domain isC2s else ret) ∧
      v.names = ret.foldl net.addName [name] ∧
      (∀ posh, v.posh = some posh → net.collectPosh domain = .ok posh) ∧
      ∀ pin ∈ v.sha256Pinnedpubkeys, Pinned net domain pin := by
  simp only [Network.getXmppConnections, Outcome.bind_eq_ok] at h
  obtain ⟨name, hname, starttls, -, directTls, -, quic, -, websocketTxt, -, collected, hcollected, ret,
    hret, h⟩ := h
  have hcases : net.collectHostMeta domain isC2s = .ok collected ∨ collected = ⟨[], [], none⟩ := by
    unfold Collected.orNothing at hcollected
    split at hcollected
    · exact .inr (Outcome.ok.inj hcollected).symm
    · exact .inl hcollected
  have hlearned : ∀ srv ∈ collected.ret, Attributed net domain isC2s srv := by
    intro srv hsrv
    rcases hcases with hok | rfl
    · exact .inl (collectHostMeta_learned hok hsrv)
    · exact absurd hsrv List.not_mem_nil
  have hpins : ∀ pin ∈ collected.sha256Pinnedpubkeys, Pinned net domain pin := by
    intro pin hpin
    rcases hcases with hok | rfl
    · exact collectHostMeta_pinned hok hpin
    · exact absurd hpin List.not_mem_nil
  obtain ⟨rfl, rfl⟩ := Prod.mk.inj (Outcome.ok.inj h)
  refine ⟨name, _, ret, hname, ?_, hret, rfl, rfl, ?_, hpins⟩
  · split_ifs
    · exact hlearned
    · exact collectSrvs_attributed (collectSrvs_attributed (collectSrvs_attributed
        (collectTxts_attributed hlearned)))
  · intro posh hposh
    split at hposh
    next hok => exact Option.some.inj hposh ▸ hok
    next => cases hposh

section Dials

variable {env : Outgoing ServerName} {srv : XmppConnection Uri} {streamOpen serverName domain : Bytes}
  {toAddr a : SocketAddr} {name : Bytes} {st : Dialing}

omit [HttpUri Uri]

theorem readPreTls_log (answer : Answer) (st : Dialing) :
    ∃ stanzas : List Bytes, (readPreTls answer st).2.log = st.log ++ stanzas.map .stanza := by
  refine ⟨(readProceed.outputs (.reading st.filter) answer.preTls).filterMap id, ?_⟩
  unfold readPreTls
  dsimp only
  split <;> rfl

theorem starttlsConnect_log (env : Outgoing ServerName) (answer : Answer) (serverName streamOpen : Bytes)
    (st : Dialing) : ∃ stanzas : List Bytes,
    (env.starttlsConnect answer serverName streamOpen st).2.log = st.log ++ stanzas.map .stanza := by
  have hnone : ∃ stanzas : List Bytes, st.log = st.log ++ stanzas.map .stanza :=
    ⟨[], (List.append_nil _).symm⟩
  unfold Outgoing.starttlsConnect
  split
  · exact hnone
  · exact hnone
  · split
    · split
      · exact readPreTls_log answer st
      · exact hnone
    · exact hnone

theorem attempt_log (env : Outgoing ServerName) (srv : XmppConnection Uri) (toAddr : SocketAddr)
    (serverName streamOpen : Bytes) (st : Dialing) : ∃ stanzas : List Bytes,
    (env.attempt srv toAddr serverName streamOpen st).2.log =
      st.log ++ .dial toAddr serverName :: stanzas.map .stanza := by
  unfold Outgoing.attempt
  dsimp only
  split
  · obtain ⟨stanzas, hlog⟩ := starttlsConnect_log env (env.answers env.certVerifier st.attempts) serverName streamOpen
      ⟨env.given st.filter, st.attempts + 1, st.log ++ [.dial toAddr serverName]⟩
    exact ⟨stanzas, by rw [hlog, List.append_assoc]; rfl⟩
  all_goals exact ⟨[], rfl⟩

theorem dial_of_attempt (h : .dial a name ∈ (env.attempt srv toAddr serverName streamOpen st).2.log) :
    .dial a name ∈ st.log ∨ name = serverName := by
  obtain ⟨stanzas, hlog⟩ := attempt_log env srv toAddr serverName streamOpen st
  rw [hlog] at h
  rcases List.mem_append.mp h with h | h
  · exact .inl h
  · rcases List.mem_cons.mp h with h | h
    · exact .inr (Contact.dial.inj h).2
    · obtain ⟨buf, -, hbuf⟩ := List.mem_map.mp h
      cases hbuf

theorem dial_of_tryIp (h : .dial a name ∈ (env.tryIp srv domain streamOpen toAddr st).2.log) :
    .dial a name ∈ st.log ∨ name = domain ∨ srv.secure = true ∧ name = srv.target := by
  have hfirst : ∀ {st : Dialing},
      .dial a name ∈ (env.attempt srv toAddr (if srv.secure then srv.target else domain) streamOpen st).2.log →
        .dial a name ∈ st.log ∨ name = domain ∨ srv.secure = true ∧ name = srv.target := by
    intro st h
    rcases dial_of_attempt h with h | h
    · exact .inl h
    · split_ifs at h with hsecure
      · exact .inr (.inr ⟨hsecure, h⟩)
      · exact .inr (.inl h)
  have hretry : ∀ {r : Option (Outcome Connected) × Dialing},
      r = env.attempt srv toAddr (if srv.secure then srv.target else domain) streamOpen st →
      .dial a name ∈ (env.attempt srv toAddr domain streamOpen r.2).2.log →
        .dial a name ∈ st.log ∨ name = domain ∨ srv.secure = true ∧ name = srv.target := by
    rintro r rfl h
    rcases dial_of_attempt h with h | h
    · exact hfirst h
    · exact .inr (.inl h)
  unfold Outgoing.tryIp at h
  dsimp only at h
  split at h
  case h_3 => exact hfirst h
  all_goals
    split at h
    next e st' heq =>
      split_ifs at h
      · exact hretry heq.symm h
      · exact hfirst (heq.symm ▸ h)
    next => exact hfirst h

theorem dial_of_tryIps {ips : List IpAddr}
    (h : .dial a name ∈ (env.tryIps srv domain streamOpen ips st).2.log) :
    .dial a name ∈ st.log ∨ name = domain ∨ srv.secure = true ∧ name = srv.target := by
  induction ips generalizing st with
  | nil => exact .inl h
  | cons ip ips ih =>
    unfold Outgoing.tryIps at h
    split at h
    next e st' heq =>
      have hst : (env.tryIp srv domain streamOpen ⟨ip, srv.port⟩ st).2 = st' := congrArg Prod.snd heq
      rcases ih h with h | h
      · exact dial_of_tryIp (hst ▸ h)
      · exact .inr h
    next => exact dial_of_tryIp h

theorem dial_of_connect (h : .dial a name ∈ (env.connect srv domain streamOpen st).2.log) :
    .dial a name ∈ st.log ∨ name = domain ∨ srv.secure = true ∧ name = srv.target := by
  unfold Outgoing.connect at h
  split at h
  · exact dial_of_tryIps h
  · exact .inl h
  · exact .inl h

theorem tryIp_log : ∃ log, (env.tryIp srv domain streamOpen toAddr st).2.log = st.log ++ log ∧
    ∃ name, .dial toAddr name ∈ log := by
  obtain ⟨stanzas, hlog⟩ := attempt_log env srv toAddr (if srv.secure then srv.target else domain) streamOpen st
  have hfirst : ∃ log, (env.attempt srv toAddr (if srv.secure then srv.target else domain) streamOpen st).2.log =
      st.log ++ log ∧ ∃ name, .dial toAddr name ∈ log := ⟨_, hlog, _, List.mem_cons_self ..⟩
  unfold Outgoing.tryIp
  dsimp only
  split
  case h_3 => exact hfirst
  all_goals
    split
    next e st' heq =>
      rw [heq] at hfirst
      split_ifs
      · obtain ⟨log, hst', name, hmem⟩ := hfirst
        obtain ⟨retried, hretry⟩ := attempt_log env srv toAddr domain streamOpen st'
        refine ⟨log ++ .dial toAddr domain :: retried.map .stanza, ?_, name, List.mem_append_left _ hmem⟩
        rw [hretry, hst', List.append_assoc]
      · exact hfirst
    next => exact hfirst

theorem tryIps_tries {ips : List IpAddr} {e : Error}
    (h : (env.tryIps srv domain streamOpen ips st).1 = some (.err e)) :
    ∃ log, (env.tryIps srv domain streamOpen ips st).2.log = st.log ++ log ∧
      ∀ ip ∈ ips, ∃ name, .dial ⟨ip, srv.port⟩ name ∈ log := by
  induction ips generalizing st with
  | nil => exact ⟨[], (List.append_nil _).symm, fun ip hip => absurd hip List.not_mem_nil⟩
  | cons ip ips ih =>
    have hip : ∃ log, (env.tryIp srv domain streamOpen ⟨ip, srv.port⟩ st).2.log = st.log ++ log ∧
        ∃ name, .dial ⟨ip, srv.port⟩ name ∈ log := tryIp_log
    unfold Outgoing.tryIps at h ⊢
    split at h
    next e' st' heq =>
      rw [heq] at hip
      obtain ⟨log, hlog, name, hname⟩ := hip
      obtain ⟨rest, hrest, hall⟩ := ih h
      refine ⟨log ++ rest, by rw [← List.append_assoc, ← hlog]; exact hrest, fun ip' hip' => ?_⟩
      rcases List.mem_cons.mp hip' with rfl | hip'
      · exact ⟨name, List.mem_append_left _ hname⟩
      · obtain ⟨name', hname'⟩ := hall ip' hip'
        exact ⟨name', List.mem_append_right _ hname'⟩
    next hnot =>
      -- an address at which no error comes ends the loop without one
      exact (hnot e _ (Prod.ext h rfl)).elim

theorem connect_tries {e : Error} (h : (env.connect srv domain streamOpen st).1 = some (.err e)) :
    ∃ log, (env.connect srv domain streamOpen st).2.log = st.log ++ log ∧
      ∀ ip ∈ srv.ips, ∃ name, .dial ⟨ip, srv.port⟩ name ∈ log := by
  unfold Outgoing.connect at h ⊢
  by_cases hips : srv.ips.isEmpty
  · have hnil : ∀ ip ∈ srv.ips, ∀ log : List Contact, ∃ name, .dial ⟨ip, srv.port⟩ name ∈ log := fun ip hip =>
      absurd hip (List.isEmpty_iff.mp hips ▸ List.not_mem_nil)
    rw [if_pos hips] at h ⊢
    cases hlookup : env.lookupIp srv.target with
    | ok ips =>
      rw [hlookup] at h
      obtain ⟨log, hlog, -⟩ := tryIps_tries h
      exact ⟨log, hlog, fun ip hip => hnil ip hip log⟩
    | err _ => exact ⟨[], (List.append_nil _).symm, fun ip hip => hnil ip hip []⟩
    | panic => exact ⟨[], (List.append_nil _).symm, fun ip hip => hnil ip hip []⟩
  · rw [if_neg hips] at h ⊢
    exact tryIps_tries h

end Dials

/-- Of every connection that host-meta.json gives, one with its type, port and target is kept, with the
addresses of the link that it comes from: an address is kept that every link of that key has. `connect` gives
up on it only after an attempt at each of its addresses. -/
theorem endpoints_kept [LawfulHttpUri Uri] (sort : SortBy) (hostMeta : HostMeta) (isC2s : Bool)
    (link : Link) (srv : XmppConnection Uri) (out : List (XmppConnection Uri))
    (hlink : link ∈ hostMeta.links) (hsrv : link.intoXmppConnection isC2s = some srv)
    (h : sortDedup sort (hostMeta.collect isC2s).ret = .ok out) :
    ∃ kept ∈ out, kept == srv ∧
      (∃ other ∈ hostMeta.links, other.intoXmppConnection isC2s = some kept) ∧
      (∀ ip ∈ srv.ips, (∀ other ∈ hostMeta.links, ∀ found : XmppConnection Uri,
        other.intoXmppConnection isC2s = some found → found == srv → ip ∈ found.ips) → ip ∈ kept.ips) ∧
      ∀ (env : Outgoing ServerName) (domain streamOpen : Bytes) (st : Dialing) (e : Error),
        (env.connect kept domain streamOpen st).1 = some (.err e) →
        ∃ log, (env.connect kept domain streamOpen st).2.log = st.log ++ log ∧
          ∀ ip ∈ kept.ips, ∃ name, .dial ⟨ip, kept.port⟩ name ∈ log := by
  obtain ⟨kept, hkept, heq⟩ := sortDedup_covers h (mem_collect.mpr ⟨link, hlink, hsrv⟩)
  obtain ⟨other, hother, hinto⟩ := mem_collect.mp ((sortDedup_subperm h).subset hkept)
  exact ⟨kept, hkept, heq, ⟨other, hother, hinto⟩, fun ip _ hall => hall other hother kept hinto heq,
    fun _ _ _ _ _ herr => connect_tries herr⟩

def exampleLink (host : UInt8) : Link :=
  .quic ⟨[.ofV4 192 0 2 host], 1, 1, bytes "a.org", none⟩ 443

def exampleQuic (host : UInt8) : XmppConnection Empty :=
  ⟨.quic, 1, 1, 443, bytes "a.org", true, [.ofV4 192 0 2 host], none⟩

/-- Two links with one name and port: the address of the second is not kept. -/
theorem endpoint_dropped :
    (exampleLink 2).intoXmppConnection true = some (exampleQuic 2) ∧
    sortDedup insertionSortBy
      (HostMeta.collect ⟨none, [exampleLink 1, exampleLink 2]⟩ true).ret = .ok [exampleQuic 1] ∧
    ∃ ip ∈ (exampleQuic 2).ips, ¬ ∃ kept ∈ [exampleQuic 1], kept == exampleQuic 2 ∧ ip ∈ kept.ips :=
  ⟨rfl, rfl, .ofV4 192 0 2 2, by decide, by decide⟩

theorem endpoints_kept_two :
    ∃ kept ∈ [exampleQuic 1], kept == exampleQuic 2 ∧
      (∃ other ∈ [exampleLink 1, exampleLink 2], other.intoXmppConnection true = some kept) ∧
      (∀ ip ∈ (exampleQuic 2).ips, (∀ other ∈ [exampleLink 1, exampleLink 2],
        ∀ found : XmppConnection Empty, other.intoXmppConnection true = some found →
          found == exampleQuic 2 → ip ∈ found.ips) → ip ∈ kept.ips) ∧
      ∀ (env : Outgoing Bytes) (domain streamOpen : Bytes) (st : Dialing) (e : Error),
        (env.connect kept domain streamOpen st).1 = some (.err e) →
        ∃ log, (env.connect kept domain streamOpen st).2.log = st.log ++ log ∧
          ∀ ip ∈ kept.ips, ∃ name, .dial ⟨ip, kept.port⟩ name ∈ log :=
  endpoints_kept insertionSortBy ⟨none, [exampleLink 1, exampleLink 2]⟩ true (exampleLink 2)
    (exampleQuic 2) [exampleQuic 1] (by simp) rfl rfl

theorem attributed_of_getXmppConnections [DecidableEq ServerName] {net : Network ServerName}
    {sort : SortBy} {domain : Bytes} {isC2s : Bool} {srvs : List (XmppConnection Uri)}
    {v : XmppServerCertVerifier ServerName}
    (h : net.getXmppConnections sort domain isC2s = .ok (srvs, v)) :
    ∀ srv ∈ srvs, Attributed net domain isC2s srv := by
  obtain ⟨name, found, ret, -, hfound, hret, hsrvs, -⟩ := getXmppConnections_eq_ok h
  intro srv hsrv
  rw [hsrvs] at hsrv
  split_ifs at hsrv
  · refine .inr ⟨?_, .default hsrv⟩
    simp only [Network.defaults, List.mem_cons, List.not_mem_nil, or_false] at hsrv
    rcases hsrv with rfl | rfl | rfl <;> rfl
  · exact hfound srv ((sortDedup_subperm hret).subset hsrv)

theorem name_of_getXmppConnections [DecidableEq ServerName] {net : Network ServerName}
    {sort : SortBy} {domain : Bytes} {isC2s : Bool} {srvs : List (XmppConnection Uri)}
    {v : XmppServerCertVerifier ServerName}
    (h : net.getXmppConnections sort domain isC2s = .ok (srvs, v)) :
    ∀ name ∈ v.names, net.tryFrom domain = .ok name ∨
      ∃ srv ∈ srvs, srv.secure = true ∧ Learned net domain isC2s srv ∧ net.tryFrom srv.target = .ok name := by
  have hattributed := attributed_of_getXmppConnections h
  obtain ⟨own, found, ret, hown, -, -, hsrvs, hnames, -⟩ := getXmppConnections_eq_ok h
  intro name hname
  rw [hnames] at hname
  rcases mem_foldl_addName hname with hname | ⟨srv, hsrv, hsecure, hname⟩
  · exact .inl (List.mem_singleton.mp hname ▸ hown)
  · have hmem : srv ∈ srvs := by
      rw [hsrvs, if_neg]
      · exact hsrv
      · intro hempty
        exact List.ne_nil_of_mem hsrv (List.isEmpty_iff.mp hempty)
    rcases hattributed srv hmem with ⟨-, hlearned⟩ | ⟨hinsecure, -⟩
    · exact .inr ⟨srv, hmem, hsecure, hlearned, hname⟩
    · exact absurd (hsecure.symm.trans hinsecure) (by decide)

/-- Whatever DNS answers, the verifier's names are that of the domain and those of connections learned
over HTTPS for the direction; a certificate passes by a pin of host-meta.json, by POSH, or by a chain
that is valid for one of these names; and a connection from DNS or by default is not secure and is
attempted under the domain only. -/
theorem dns_adds_no_name [DecidableEq ServerName] (net : Network ServerName) (sort : SortBy)
    (domain : Bytes) (isC2s : Bool) (srvs : List (XmppConnection Uri))
    (v : XmppServerCertVerifier ServerName)
    (h : net.getXmppConnections sort domain isC2s = .ok (srvs, v)) :
    (∀ name ∈ v.names, net.tryFrom domain = .ok name ∨
      ∃ srv ∈ srvs, srv.secure = true ∧ Learned net domain isC2s srv ∧ net.tryFrom srv.target = .ok name) ∧
    (∀ {Cert : Type} (pki : Pki Cert ServerName) (endEntity : Cert) (intermediates : List Cert) (now : Nat),
      v.verifyCert pki endEntity intermediates now = .ok () →
      (∃ key, pki.anchorFromTrustedCert endEntity = some key ∧
        Pinned net domain (digest pki .sha256 ([48, 130, 1, 34] ++ key))) ∨
      (∃ posh, net.collectPosh domain = .ok posh ∧ posh.validCert pki (pki.asRef endEntity) = true) ∨
      verifyIsValidTlsServerCert pki endEntity intermediates now = .ok () ∧
        ∃ name, pki.verifyIsValidForSubjectName endEntity name = true ∧
          (net.tryFrom domain = .ok name ∨ ∃ srv ∈ srvs, srv.secure = true ∧
            Learned net domain isC2s srv ∧ net.tryFrom srv.target = .ok name)) ∧
    ∀ srv ∈ srvs, srv.secure = true ∧ Learned net domain isC2s srv ∨
      srv.secure = false ∧ Told net domain isC2s srv ∧
        ∀ (env : Outgoing ServerName) (streamOpen : Bytes) (st : Dialing) (toAddr : SocketAddr)
          (name : Bytes), .dial toAddr name ∈ (env.connect srv domain streamOpen st).2.log →
            .dial toAddr name ∈ st.log ∨ name = domain := by
  have hnames := name_of_getXmppConnections h
  refine ⟨hnames, ?_, ?_⟩
  · intro Cert pki endEntity intermediates now hverified
    obtain ⟨-, -, -, -, -, -, -, -, hposh, hpins⟩ := getXmppConnections_eq_ok h
    rcases XmppServerCertVerifier.verifyCert_eq_ok hverified with ⟨key, hkey, hpin⟩ |
      ⟨posh, hsome, hvalid⟩ | ⟨hchain, name, hname, hvalid⟩
    · exact .inl ⟨key, hkey, hpins _ hpin⟩
    · exact .inr (.inl ⟨posh, hposh posh hsome, hvalid⟩)
    · exact .inr (.inr ⟨hchain, name, hvalid, hnames name hname⟩)
  · intro srv hsrv
    rcases attributed_of_getXmppConnections h srv hsrv with hlearned | ⟨hinsecure, htold⟩
    · exact .inl hlearned
    · refine .inr ⟨hinsecure, htold, fun env streamOpen st toAddr name hdial => ?_⟩
      rcases dial_of_connect hdial with hdial | hname | ⟨hsecure, -⟩
      · exact .inl hdial
      · exact .inr hname
      · exact absurd (hsecure.symm.trans hinsecure) (by decide)

/-- An entry of host-meta.json for QUIC, and a record that sends StartTLS elsewhere. -/
def exampleNet : Network Bytes where
  serverName := some
  intoName name := .ok ⟨false, name⟩
  srvLookup name :=
    if name.toAscii = bytes "_xmpp-client._tcp.a.org." then
      .ok [.srv 5 5 5222 ⟨false, bytes "evil.org."⟩]
    else .err .net
  txtLookup _ := .err .net
  httpsGet url :=
    if url = bytes "https://a.org/.well-known/host-meta.json" then .ok ⟨200, .ok (bytes "..")⟩
    else .ok ⟨404, .ok []⟩
  hostMeta _ :=
    .ok ⟨none, [.quic ⟨[.ofV4 192 0 2 1], 1, 1, bytes "b.org", none⟩ 443]⟩
  poshJson _ := .err .request

def exampleConnections : List (XmppConnection Empty) :=
  [⟨.quic, 1, 1, 443, bytes "b.org", true, [.ofV4 192 0 2 1], none⟩,
    ⟨.startTLS, 5, 5, 5222, bytes "evil.org.", false, [], none⟩]

theorem dns_adds_no_name_example :
    exampleNet.getXmppConnections insertionSortBy (bytes "a.org") true =
      .ok (exampleConnections, ⟨[bytes "a.org", bytes "b.org"], none, []⟩) ∧
    (exampleNet.tryFrom (bytes "a.org") = .ok (bytes "b.org") ∨
      ∃ srv ∈ exampleConnections, srv.secure = true ∧ Learned exampleNet (bytes "a.org") true srv ∧
        exampleNet.tryFrom srv.target = .ok (bytes "b.org")) :=
  ⟨rfl, (dns_adds_no_name exampleNet insertionSortBy (bytes "a.org") true exampleConnections
    ⟨[bytes "a.org", bytes "b.org"], none, []⟩ rfl).1 (bytes "b.org") (by decide)⟩

end XmppProxy
