import XmppProxy.Model.Main
import XmppProxy.Model.OutgoingConnection
import XmppProxy.Model.Sessions

/-! The process behind `main`: its tasks accept connections, each of which is served by a task of its own, and
SIGHUP reloads the certificate. -/

namespace XmppProxy

open Lib

/-- What the connections find outside, each by its number. -/
structure Surroundings (Cert Verifier ServerName : Type) where
  incoming : Nat → Incoming Cert Verifier
  quic : Nat → QuicIncoming Cert Verifier
  outgoing : Nat → OutgoingListener ServerName

inductive Served where
  | tcp (listener : Listener) (c : TcpConnection)
  | quic (listener : UdpListener) (s : QuicSession)
  | outgoing (listener : Listener) (c : OutgoingConnection)

inductive ServedEvent where
  | tcp (ev : TcpEvent)
  | quic (ev : SessionEvent)
  | outgoing (ev : OutgoingEvent)

inductive ServedReport where
  | quiet
  | tcp (r : Report)
  | quic (r : Option (Nat × Report))
  | outgoing (r : Report)

/-- `127.0.0.1:0`, which stands for the address of a Unix socket. -/
def unixAddr : SocketAddr := ⟨.ofV4 127 0 0 1, 0⟩

section

variable {Cert Verifier ServerName Key : Type}

namespace Surroundings

/-- `accept` and `local_addr` of a Unix listener make addresses up. -/
def tcpEnv (env : Surroundings Cert Verifier ServerName) (config : Config) (i : Nat) (listener : Listener) :
    Incoming Cert Verifier :=
  match listener with
  | .tcp _ => { env.incoming i with config := config.getIncomingCfg }
  | .unix _ =>
    { env.incoming i with config := config.getIncomingCfg, localAddr := unixAddr, clientAddr := unixAddr }

def quicEnv (env : Surroundings Cert Verifier ServerName) (config : Config) (i : Nat) (listener : UdpListener) :
    QuicIncoming Cert Verifier :=
  match listener with
  | .udp _ => { env.quic i with config := config.getIncomingCfg }
  | .unix _ => { env.quic i with config := config.getIncomingCfg, localAddr := unixAddr }

def outgoingEnv (env : Surroundings Cert Verifier ServerName) (config : Config) (i : Nat) :
    OutgoingListener ServerName :=
  { env.outgoing i with maxStanzaSizeBytes := config.maxStanzaSizeBytes }

end Surroundings

variable (Uri : Type) [HttpUri Uri] [DecidableEq ServerName]

def Served.step (env : Surroundings Cert Verifier ServerName) (config : Config) (i : Nat) :
    Served → ServedEvent → ServedReport × Served
  | tcp listener c, .tcp ev =>
    let (r, c) := c.step (env.tcpEnv config i listener) ev
    (.tcp r, tcp listener c)
  | quic listener s, .quic ev =>
    let (r, s) := s.step (env.quicEnv config i listener) ev
    (.quic r, quic listener s)
  | outgoing listener c, .outgoing ev =>
    let (r, c) := c.step Uri (env.outgoingEnv config i) ev
    (.outgoing r, outgoing listener c)
  | c, _ => (.quiet, c)

inductive ProcessEvent (PrivateKey Key Cert : Type) where
  /-- The `task`-th task accepts a connection. -/
  | accepted (task : Nat)
  /-- `accept` or `local_addr` fails, which ends the task. -/
  | acceptFailed (task : Nat)
  | connection (i : Nat) (ev : ServedEvent)
  /-- rustls asks for the certificate. -/
  | handshake
  /-- SIGHUP, and the files that are found then. -/
  | hangup (files : Files PrivateKey Key Cert)

inductive ProcessReport (Key Cert : Type) where
  | quiet
  | connection (i : Nat) (r : ServedReport)
  | certificate (certKey : Option (CertifiedKey Key Cert))

structure Process (Key Cert : Type) where
  certsKey : CertsKey Key Cert
  ended : List Nat
  connections : List Served

namespace Process

/-- The connection that the task accepts. -/
def accept (env : Surroundings Cert Verifier ServerName) (started : Started Key Cert) (p : Process Key Cert)
    (task : Nat) : Option Served :=
  if task ∈ p.ended then none
  else
    match started.handles[task]? with
    | some (.tls listener) => some (.tcp listener (.accepted started.config.getIncomingCfg))
    | some (.quic listener) => some (.quic listener .new)
    | some (.outgoing listener) =>
      some (.outgoing listener (.new (env.outgoingEnv started.config p.connections.length)))
    | some .refresh => none
    | none => none

def step {PrivateKey : Type} (env : Surroundings Cert Verifier ServerName) (started : Started Key Cert)
    (p : Process Key Cert) : ProcessEvent PrivateKey Key Cert → ProcessReport Key Cert × Process Key Cert
  | .accepted task => (.quiet, { p with connections := p.connections ++ (p.accept env started task).toList })
  | .acceptFailed task => (.quiet, { p with ended := task :: p.ended })
  | .connection i ev =>
    match p.connections[i]? with
    | some c =>
      let (r, c) := c.step Uri env started.config i ev
      (.connection i r, { p with connections := p.connections.set i c })
    | none => (.quiet, p)
  | .handshake => (.certificate p.certsKey.resolve, p)
  | .hangup files =>
    (.quiet, if .refresh ∈ started.handles then { p with certsKey := p.certsKey.refresh files } else p)

def new (started : Started Key Cert) : Process Key Cert := ⟨started.certsKey, [], []⟩

end Process

def process (PrivateKey : Type) (env : Surroundings Cert Verifier ServerName) (started : Started Key Cert) :
    Machine (Process Key Cert) (ProcessEvent PrivateKey Key Cert) (ProcessReport Key Cert) :=
  ⟨Process.step Uri env started⟩

end

end XmppProxy
