import XmppProxy.Model.Common
import XmppProxy.Model.Srv

/-! Outgoing connections: every address of every candidate is tried in order, until one answers the
stream header. All of them are read with one filter. -/

namespace XmppProxy

open Lib

/-- What one attempt to connect meets: whether the transport is there, what is read in plain text and
how the writes go in front of STARTTLS, whether the TLS handshake succeeds, and then how the header is
taken and what is read in answer. -/
structure Answer where
  connected : Bool
  opened : WriteResult
  preTls : List (BytePoll × WriteResult)
  secured : Bool
  header : WriteResult
  preamble : (rd : StanzaRead) → List (rd.Poll × WriteResult)

/-- What happens on the way: attempts at an address under a server name, and stanzas that are read. -/
inductive Contact where
  | dial (toAddr : SocketAddr) (serverName : Bytes)
  | stanza (buf : Bytes)
  deriving DecidableEq, Repr

/-- How far the attempts have come: the filter that they share, how many there were, and what happened. -/
structure Dialing where
  filter : StanzaFilter
  attempts : Nat
  log : List Contact

/-- The attempts are answered one after the other, and the answers depend on the verifier that the certificates
are checked with. `given` makes the filter that an attempt reads with from the one that the attempts before
have left: in `srv_connect` it is that one. -/
structure OutgoingConfig (ServerName : Type) where
  net : Network ServerName
  lookupIp : Bytes → Outcome (List IpAddr)
  answers : XmppServerCertVerifier ServerName → Nat → Answer
  trace : Bool
  given : StanzaFilter → StanzaFilter := id

/-- `OutgoingVerifierConfig`: the connectors of all transports check certificates with one verifier. -/
structure Outgoing (ServerName : Type) extends OutgoingConfig ServerName where
  certVerifier : XmppServerCertVerifier ServerName

def OutgoingConfig.withCustomCertificateVerifier {ServerName : Type} (config : OutgoingConfig ServerName)
    (certVerifier : XmppServerCertVerifier ServerName) : Outgoing ServerName :=
  { config with certVerifier }

structure Connected where
  rd : StanzaRead
  wr : StanzaWrite
  toAddr : SocketAddr
  answer : Answer

def Outgoing.starttls : Bytes := bytes "<starttls xmlns='urn:ietf:params:xml:ns:xmpp-tls'/>"

inductive PreTls where
  | reading (filter : StanzaFilter)
  | proceeding (filter : StanzaFilter)
  | failed (filter : StanzaFilter) (e : Error)
  | panicked (filter : StanzaFilter)

namespace PreTls

def answer (f : StanzaFilter) (buf : Bytes) (res : WriteResult) : PreTls :=
  if bytes "<?xml " <+: buf ∨ bytes "<stream:stream " <+: buf then reading f
  else if bytes "<stream:features" <+: buf then
    match transmit (some (.raw Outgoing.starttls)) res with
    | (.ok (), _) => reading f
    | (.err e, _) => failed f e
    | (.panic, _) => panicked f
  else if bytes "<proceed " <+: buf then proceeding f
  else failed f (.badPreTls buf)

/-- One poll of `in_rd.next` in the loop, with the stanza that it reads. -/
def step (p : BytePoll) (res : WriteResult) : PreTls → Option Bytes × PreTls
  | reading f =>
    match StanzaRead.pollNext f p with
    | (none, f) => (none, reading f)
    | (some (.ok (some buf)), f) => (some buf, answer f buf res)
    | (some .panic, f) => (none, panicked f)
    -- `while let Ok(Some(..))` ends on an error as on the end of the stream
    | (some (.ok none), f) => (none, failed f .endedBeforeProceed)
    | (some (.err _), f) => (none, failed f .endedBeforeProceed)
  | s => (none, s)

end PreTls

def readProceed : Machine PreTls (BytePoll × WriteResult) (Option Bytes) :=
  ⟨fun s poll => s.step poll.1 poll.2⟩

/-- The loop and the handshake after it, or `none` while it waits for more. -/
def readPreTls (answer : Answer) (st : Dialing) : Option (Outcome Unit) × Dialing :=
  let stanzas := (readProceed.outputs (.reading st.filter) answer.preTls).filterMap id
  let log := st.log ++ stanzas.map .stanza
  match readProceed.final (.reading st.filter) answer.preTls with
  | .reading filter => (none, { st with filter, log })
  | .proceeding filter =>
    (some (if answer.secured then .ok () else .err .io), { st with filter, log })
  | .failed filter e => (some (.err e), { st with filter, log })
  | .panicked filter => (some .panic, { st with filter, log })

namespace Outgoing

variable {Uri ServerName : Type} [HttpUri Uri]

def starttlsConnect (env : Outgoing ServerName) (answer : Answer) (serverName streamOpen : Bytes)
    (st : Dialing) : Option (Outcome Unit) × Dialing :=
  match env.net.tryFrom serverName with
  | .err e => (some (.err e), st)
  | .panic => (some .panic, st)
  | .ok _ =>
    if answer.connected then
      match transmit (some (.raw streamOpen)) answer.opened with
      | (.ok (), _) => readPreTls answer st
      | (r, _) => (some r, st)
    else (some (.err .io), st)

/-- One attempt at an address: `starttls_connect`, or another transport that reads nothing yet. -/
def attempt (env : Outgoing ServerName) (srv : XmppConnection Uri) (toAddr : SocketAddr)
    (serverName streamOpen : Bytes) (st : Dialing) : Option (Outcome Connected) × Dialing :=
  let answer := env.answers env.certVerifier st.attempts
  let st : Dialing :=
    ⟨env.given st.filter, st.attempts + 1, st.log ++ [.dial toAddr serverName]⟩
  let connected rd wr : Outcome Connected :=
    if answer.connected ∧ answer.secured then .ok ⟨rd, wr, toAddr, answer⟩ else .err .io
  let named rd wr : Outcome Connected := do
    let _ ← env.net.tryFrom serverName
    connected rd wr
  match srv.connType with
  | .startTLS =>
    let (r, st) := env.starttlsConnect answer serverName streamOpen st
    (r.map fun r => do
      r
      return ⟨.asyncRead, .asyncWrite, toAddr, answer⟩, st)
  | .directTLS => (some (named .asyncRead .asyncWrite), st)
  | .quic => (some (connected .asyncRead .asyncWrite), st)
  | .webSocket _ _ => (some (named .webSocketRead .webSocketClientWrite), st)
  | .webTransport _ => (some (connected .asyncRead .asyncWrite), st)

/-- A secure WebSocket or WebTransport is tried again under the name of the domain. -/
def tryIp (env : Outgoing ServerName) (srv : XmppConnection Uri) (origDomain streamOpen : Bytes)
    (toAddr : SocketAddr) (st : Dialing) : Option (Outcome Connected) × Dialing :=
  let domain := if srv.secure then srv.target else origDomain
  match srv.connType with
  | .webSocket _ _ | .webTransport _ =>
    match env.attempt srv toAddr domain streamOpen st with
    | (some (.err e), st) =>
      if srv.secure ∧ srv.target ≠ origDomain then env.attempt srv toAddr origDomain streamOpen st
      else (some (.err e), st)
    | r => r
  | _ => env.attempt srv toAddr domain streamOpen st

def tryIps (env : Outgoing ServerName) (srv : XmppConnection Uri) (origDomain streamOpen : Bytes) :
    List IpAddr → Dialing → Option (Outcome Connected) × Dialing
  | [], st => (some (.err (.cannotConnect srv.target)), st)
  | ip :: ips, st =>
    match env.tryIp srv origDomain streamOpen ⟨ip, srv.port⟩ st with
    | (some (.err _), st) => env.tryIps srv origDomain streamOpen ips st
    | r => r

def connect (env : Outgoing ServerName) (srv : XmppConnection Uri) (domain streamOpen : Bytes)
    (st : Dialing) : Option (Outcome Connected) × Dialing :=
  match if srv.ips.isEmpty then env.lookupIp srv.target else .ok srv.ips with
  | .ok ips => env.tryIps srv domain streamOpen ips st
  | .err e => (some (.err e), st)
  | .panic => (some .panic, st)

/-- What `stream_preamble` reads: the stanzas of the polls in front of its end. -/
def preambleStanzas (rd : StanzaRead) (wrt : StanzaWrite) (p : Preamble)
    (polls : List (rd.Poll × WriteResult)) : List Bytes :=
  ((streamPreamble rd wrt).trace p polls).filterMap fun (p, poll, res) =>
    match p with
    | .reading f _ =>
      match (rd.poll wrt f poll res).result with
      | some (.ok (some (buf, _))) => some buf
      | _ => none
    | _ => none

/-- `stream_preamble` on a connection, or `none` while it waits for more. -/
def readPreamble (conn : Connected) (st : Dialing) : Option (Outcome Bytes) × Dialing :=
  let polls := conn.answer.preamble conn.rd
  let log := st.log ++ (preambleStanzas conn.rd conn.wr (.reading st.filter []) polls).map .stanza
  match (streamPreamble conn.rd conn.wr).final (.reading st.filter []) polls with
  | .reading filter _ => (none, { st with filter, log })
  | .accepted filter streamOpen _ => (some (.ok streamOpen), { st with filter, log })
  | .failed filter e => (some (.err e), { st with filter, log })
  | .panicked filter => (some .panic, { st with filter, log })

/-- The loop over the candidates. A connection that does not take the header ends it by `?`. -/
def tryCandidates (env : Outgoing ServerName) (domain : Bytes) (isC2s : Bool) (streamOpen : Bytes) :
    List (XmppConnection Uri) → Dialing → Option (Outcome (XmppConnection Uri × Connected × Bytes)) × Dialing
  | [], st => (some (.err .allFailed), st)
  | srv :: srvs, st =>
    match env.connect srv domain streamOpen st with
    | (none, st) => (none, st)
    | (some .panic, st) => (some .panic, st)
    | (some (.err _), st) => env.tryCandidates domain isC2s streamOpen srvs st
    | (some (.ok conn), st) =>
      match conn.wr.send env.trace isC2s streamOpen streamOpen.length conn.answer.header with
      | (.ok (), _) =>
        match readPreamble conn st with
        | (none, st) => (none, st)
        | (some .panic, st) => (some .panic, st)
        | (some (.err _), st) => env.tryCandidates domain isC2s streamOpen srvs st
        | (some (.ok serverResponse), st) => (some (.ok (srv, conn, serverResponse)), st)
      | (.err e, _) => (some (.err e), st)
      | (.panic, _) => (some .panic, st)

end Outgoing

/-- `srv_connect`: all attempts are made with the verifier that belongs to the candidates. -/
def OutgoingConfig.srvConnect {Uri ServerName : Type} [HttpUri Uri] [DecidableEq ServerName]
    (config : OutgoingConfig ServerName) (sort : SortBy) (domain : Bytes) (isC2s : Bool) (streamOpen : Bytes)
    (inFilter : StanzaFilter) : Option (Outcome (XmppConnection Uri × Connected × Bytes)) × Dialing :=
  match config.net.getXmppConnections sort domain isC2s with
  | .ok (srvs, certVerifier) =>
    (config.withCustomCertificateVerifier certVerifier).tryCandidates domain isC2s streamOpen srvs
      ⟨inFilter, 0, []⟩
  | .err e => (some (.err e), ⟨inFilter, 0, []⟩)
  | .panic => (some .panic, ⟨inFilter, 0, []⟩)

end XmppProxy
