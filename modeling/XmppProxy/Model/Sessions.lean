import XmppProxy.Model.TlsIncoming

/-! The callers of `shuffle_rd_wr_filter`: a TCP connection, whose bytes behind TLS may be a WebSocket, and
a QUIC connection, each stream of which is a connection of its own. -/

namespace XmppProxy

open Lib

variable {Cert Verifier : Type}

inductive TcpEvent where
  | tls (ev : TlsEvent)
  /-- How `incoming_websocket_connection` ends. -/
  | upgraded
  | upgradeFailed (e : Error)
  | poll (p : Poll .webSocketRead)

inductive TcpConnection where
  | tls (c : TlsConnection)
  | webSocket (c : Connection)
  | ended (r : Outcome Unit) (sent : List Sent)

namespace TcpConnection

def step (env : Incoming Cert Verifier) : TcpConnection → TcpEvent → Report × TcpConnection
  | tls c, .tls ev =>
    let (r, c) := c.step env ev
    (r, tls c)
  | tls (.websocket f sent), .upgraded => (.quiet, webSocket (.preamble (.reading f []) sent))
  | tls (.websocket _ sent), .upgradeFailed e => (.quiet, ended (.err e) sent)
  | webSocket c, .poll p =>
    let (r, c) := c.step env .webSocketRead .webSocketClientWrite p
    (r, webSocket c)
  | c, _ => (.quiet, c)

def accepted (config : IncomingConfig) : TcpConnection := tls (.sniffing (.new config.maxStanzaSizeBytes))

end TcpConnection

def handleTcpConnection (env : Incoming Cert Verifier) : Machine TcpConnection TcpEvent Report :=
  ⟨TcpConnection.step env⟩

/-- A QUIC connection: the protocol that was agreed on and the certificates of the client, which all its
streams share, and what each stream finds outside. -/
structure QuicIncoming (Cert Verifier : Type) where
  config : IncomingConfig
  webTransportAlpn : Bytes
  alpn : Option Bytes
  localAddr : SocketAddr
  clientAddr : SocketAddr
  peerCertificates : Option (List Cert)
  getXmppConnections : Nat → Bytes → Bool → Outcome Verifier
  verifyCert : Nat → Verifier → Cert → List Cert → Outcome Unit
  connect : Nat → SocketAddrPath → Outcome Unit
  proxyTaken : Nat → Option Nat
  openRes : Nat → WriteResult
  trace : Bool

def QuicIncoming.stream (env : QuicIncoming Cert Verifier) (i : Nat) : Incoming Cert Verifier where
  config := env.config
  localAddr := env.localAddr
  clientAddr := env.clientAddr
  peerCertificates := env.peerCertificates
  getXmppConnections := env.getXmppConnections i
  verifyCert := env.verifyCert i
  connect := env.connect i
  proxyTaken := env.proxyTaken i
  openRes := env.openRes i
  trace := env.trace

/-- A stream that is handed to `shuffle_rd_wr`, which makes the filter. -/
def shuffleRdWr (config : IncomingConfig) : Connection :=
  .preamble (.reading (.new config.maxStanzaSizeBytes) []) []

inductive SessionPhase where
  | connecting
  /-- In `Request::accept`. -/
  | requesting
  /-- In `request.ok()`. -/
  | answering
  /-- In `accept_bi`. -/
  | accepting
  | ended
  deriving DecidableEq, Repr

inductive SessionEvent where
  /-- What the session waits for is there: the connection, the request, the answer, or a stream. -/
  | succeeded
  | failed
  | stream (i : Nat) (p : Poll .asyncRead)

/-- The task of a session, and the tasks that it has spawned. -/
structure QuicSession where
  phase : SessionPhase
  streams : List Connection

namespace QuicSession

def succeeded (env : QuicIncoming Cert Verifier) (s : QuicSession) : QuicSession :=
  match s.phase with
  | .connecting =>
    { s with phase := if env.alpn = some env.webTransportAlpn then .requesting else .accepting }
  | .requesting => { s with phase := .answering }
  | .answering => { s with phase := .accepting }
  | .accepting => { s with streams := s.streams ++ [shuffleRdWr env.config] }
  | .ended => s

def step (env : QuicIncoming Cert Verifier) (s : QuicSession) : SessionEvent → Option (Nat × Report) × QuicSession
  | .succeeded => (none, s.succeeded env)
  | .failed => (none, { s with phase := .ended })
  | .stream i p =>
    match s.streams[i]? with
    | some c =>
      let (r, c) := c.step (env.stream i) .asyncRead .asyncWrite p
      (some (i, r), { s with streams := s.streams.set i c })
    | none => (none, s)

def new : QuicSession := ⟨.connecting, []⟩

end QuicSession

def handleQuicSession (env : QuicIncoming Cert Verifier) :
    Machine QuicSession SessionEvent (Option (Nat × Report)) := ⟨QuicSession.step env⟩

end XmppProxy
