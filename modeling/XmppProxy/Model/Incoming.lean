import XmppProxy.Model.Address
import XmppProxy.Model.Common

/-! An incoming connection behind TLS: the preamble, the check of the other server, the connection to
the backend, and the loop. What lies outside (the target, DNS, certificates) is its environment. -/

namespace XmppProxy

inductive SocketAddrPath where
  | socketAddr (sa : SocketAddr)
  | path (path : Bytes)
  deriving DecidableEq, Repr

structure IncomingConfig where
  maxStanzaSizeBytes : Nat
  s2sTarget : Option SocketAddrPath
  c2sTarget : Option SocketAddrPath
  proxy : Bool

/-- What `shuffle_rd_wr_filter` is handed or finds outside: the addresses, the client's certificates, the
lookup of a domain, the check of a certificate, and how the target takes the connection, the PROXY
line (all of it, or a part before it fails) and the stream header. -/
structure Incoming (Cert Verifier : Type) where
  config : IncomingConfig
  localAddr : SocketAddr
  clientAddr : SocketAddr
  peerCertificates : Option (List Cert)
  getXmppConnections : Bytes → Bool → Outcome Verifier
  verifyCert : Verifier → Cert → List Cert → Outcome Unit
  connect : SocketAddrPath → Outcome Unit
  proxyTaken : Option Nat
  openRes : WriteResult
  trace : Bool

def proxyLine (clientAddr localAddr : SocketAddr) : Bytes :=
  bytes "PROXY TCP" ++ [if clientAddr.ip.isIpv4 then 52 else 54] ++ 32 :: clientAddr.ip.display ++
    32 :: localAddr.ip.display ++ 32 :: decimal clientAddr.port.toNat ++
    32 :: decimal localAddr.port.toNat ++ [13, 10]

namespace Incoming

variable {Cert Verifier : Type}

/-- The PROXY line is put together in `in_filter.buf`: `write!` fails when it does not fit. -/
def sendProxy (env : Incoming Cert Verifier) (f : StanzaFilter) :
    Outcome Unit × StanzaFilter × List Sent :=
  let line := proxyLine env.clientAddr env.localAddr
  if h : line.length ≤ f.bufSize then
    let f := f.scratch line h
    match firstIndexOf f.buf [10] with
    | .ok idx =>
      let line := f.buf.take (idx + 1)
      match env.proxyTaken with
      | none => (.ok (), f, [.raw line])
      | some taken => (.err .io, f, [.raw (line.take taken)])
    | .err e => (.err e, f, [])
    | .panic => (.panic, f, [])
  else (.err .io, f, [])

def openIncoming (env : Incoming Cert Verifier) (streamOpen : Bytes) (isC2s : Bool) (f : StanzaFilter) :
    Outcome Unit × StanzaFilter × List Sent :=
  match if isC2s then env.config.c2sTarget else env.config.s2sTarget with
  | none => (.err (.noTarget isC2s), f, [])
  | some target =>
    match env.connect target with
    | .ok () =>
      let (r, f, sent) := if env.config.proxy then env.sendProxy f else (.ok (), f, [])
      match r with
      | .ok () =>
        let (r, opened) := transmit (some (.raw streamOpen)) env.openRes
        (r, f, sent ++ opened)
      | r => (r, f, sent)
    | r => (r, f, [])

def fromDomain (streamOpen : Bytes) : Outcome Bytes :=
  match extractBetween streamOpen (bytes " from='") (bytes "'") with
  | .err _ => do fromUtf8 (← extractBetween streamOpen (bytes " from=\"") (bytes "\""))
  | r => do fromUtf8 (← r)

/-- The check of the other server. -/
def checkServer (env : Incoming Cert Verifier) (streamOpen : Bytes) : Outcome Unit := do
  let domain ← fromDomain streamOpen
  let certVerifier ← env.getXmppConnections domain false
  match env.peerCertificates with
  | none => .err (.noClientCert domain)
  -- `certs[0]`
  | some [] => .panic
  | some (cert :: certs) => env.verifyCert certVerifier cert certs

def shuffleConfig (env : Incoming Cert Verifier) (inRd : StanzaRead) (inWr : StanzaWrite)
    (isC2s : Bool) : ShuffleConfig := ⟨inRd, inWr, .asyncRead, .asyncWrite, isC2s, env.trace⟩

end Incoming

inductive Connection where
  | preamble (p : Preamble) (toClient : List Sent)
  | shuffle (isC2s : Bool) (s : Shuffle)
  | ended (r : Outcome Unit) (toClient toServer : List Sent)

inductive Poll (inRd : StanzaRead) where
  | client (poll : inRd.Poll) (res : WriteResult)
  | server (poll : BytePoll) (res : WriteResult)

def Poll.event {Cert Verifier : Type} {env : Incoming Cert Verifier} {inRd : StanzaRead}
    {inWr : StanzaWrite} {isC2s : Bool} : Poll inRd → Event (env.shuffleConfig inRd inWr isC2s)
  | client poll res => .client poll res
  | server poll res => .server poll res

namespace Connection

variable {Cert Verifier : Type}

/-- From the end of `stream_preamble` to the loop. -/
def accept (env : Incoming Cert Verifier) (f : StanzaFilter) (streamOpen : Bytes) (isC2s : Bool)
    (toClient : List Sent) : Connection :=
  match if isC2s then .ok () else env.checkServer streamOpen with
  | .ok () =>
    match env.openIncoming streamOpen isC2s f with
    | (.ok (), f, sent) => shuffle isC2s (.start f env.config.maxStanzaSizeBytes toClient sent)
    | (r, _, sent) => ended r toClient sent
  | .err e => ended (.err e) toClient []
  | .panic => ended .panic toClient []

def step (env : Incoming Cert Verifier) (inRd : StanzaRead) (inWr : StanzaWrite) :
    Connection → Poll inRd → Report × Connection
  | preamble p toClient, .client poll res =>
    let (sent, p) := p.step inRd inWr poll res
    (.quiet,
      match p with
      | .accepted f streamOpen isC2s => accept env f streamOpen isC2s (toClient ++ sent)
      | .failed _ e => ended (.err e) (toClient ++ sent) []
      | .panicked _ => ended .panic (toClient ++ sent) []
      | p => preamble p (toClient ++ sent))
  | shuffle isC2s s, poll =>
    let (r, s) := s.step (env.shuffleConfig inRd inWr isC2s) poll.event
    (r, shuffle isC2s s)
  | c, _ => (.quiet, c)

end Connection

/-- `shuffle_rd_wr_filter`, as the connections it goes through; it reports what the loop does. -/
def shuffleRdWrFilter {Cert Verifier : Type} (env : Incoming Cert Verifier) (inRd : StanzaRead)
    (inWr : StanzaWrite) : Lib.Machine Connection (Poll inRd) Report :=
  ⟨Connection.step env inRd inWr⟩

end XmppProxy
