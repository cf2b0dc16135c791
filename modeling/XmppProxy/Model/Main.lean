import XmppProxy.Model.Incoming
import XmppProxy.Model.Systemd

/-! `main` up to the tasks that it waits for: the configuration, the sockets that it binds or is passed, the
certificate and its reload. -/

namespace XmppProxy

/-- The keys of the configuration file that are there. -/
structure TomlConfig where
  tlsKey : Option Bytes
  tlsCert : Option Bytes
  incomingListen : Option (List SocketAddrPath)
  quicListen : Option (List SocketAddrPath)
  outgoingListen : Option (List SocketAddrPath)
  maxStanzaSizeBytes : Option Nat
  s2sTarget : Option SocketAddrPath
  c2sTarget : Option SocketAddrPath
  proxy : Option Bool

structure Config where
  tlsKey : Bytes
  tlsCert : Bytes
  incomingListen : List SocketAddrPath
  quicListen : List SocketAddrPath
  outgoingListen : List SocketAddrPath
  maxStanzaSizeBytes : Nat
  s2sTarget : Option SocketAddrPath
  c2sTarget : Option SocketAddrPath
  proxy : Bool

def defaultMaxStanzaSizeBytes : Nat := 262144

namespace Config

def deserialize (toml : TomlConfig) : Config where
  tlsKey := toml.tlsKey.getD []
  tlsCert := toml.tlsCert.getD []
  incomingListen := toml.incomingListen.getD []
  quicListen := toml.quicListen.getD []
  outgoingListen := toml.outgoingListen.getD []
  maxStanzaSizeBytes := toml.maxStanzaSizeBytes.getD defaultMaxStanzaSizeBytes
  s2sTarget := toml.s2sTarget
  c2sTarget := toml.c2sTarget
  proxy := toml.proxy.getD false

def getIncomingCfg (config : Config) : IncomingConfig :=
  ⟨config.maxStanzaSizeBytes, config.s2sTarget, config.c2sTarget, config.proxy⟩

def hasTarget (config : Config) : Bool := config.c2sTarget.isSome || config.s2sTarget.isSome

end Config

structure CertifiedKey (Key Cert : Type) where
  cert : List Cert
  key : Key

/-- What is in the files at one time: the items of a PEM file, if it can be opened, and the private keys that
the provider can load. -/
structure Files (PrivateKey Key Cert : Type) where
  parse : Except Error TomlConfig
  keys : Bytes → Except Error (List (Except Error PrivateKey))
  loadPrivateKey : PrivateKey → Except Error Key
  certs : Bytes → Except Error (List (Except Error Cert))

section

variable {PrivateKey Key Cert : Type}

/-- The first key that can be loaded, with all the certificates. -/
def readCertifiedKey (files : Files PrivateKey Key Cert) (tlsKey tlsCert : Bytes) :
    Except Error (CertifiedKey Key Cert) := do
  let items ← files.keys tlsKey
  let key ← match items.filterMap fun item => (item.bind files.loadPrivateKey).toOption with
    | key :: _ => .ok key
    -- "invalid key"
    | [] => .error .io
  let certs ← (← files.certs tlsCert).mapM id
  return ⟨certs, key⟩

def Files.config (files : Files PrivateKey Key Cert) : Except Error Config := files.parse.map Config.deserialize

def Config.certsKey (config : Config) (files : Files PrivateKey Key Cert) : Except Error (CertifiedKey Key Cert) :=
  readCertifiedKey files config.tlsKey config.tlsCert

structure CertsKey (Key Cert : Type) where
  inner : Except Error (CertifiedKey Key Cert)

namespace CertsKey

def resolve (certsKey : CertsKey Key Cert) : Option (CertifiedKey Key Cert) := certsKey.inner.toOption

def refresh (certsKey : CertsKey Key Cert) (files : Files PrivateKey Key Cert) : CertsKey Key Cert :=
  match files.config.bind fun config => config.certsKey files with
  | .ok certKey =>
    match certsKey.inner with
    | .ok _ => ⟨.ok certKey⟩
    | .error _ => certsKey
  | .error _ => certsKey

end CertsKey
end

/-- The `n`-th socket that is bound, or a descriptor of systemd's. -/
inductive Socket where
  | bound (n : Nat) (a : SocketAddrPath)
  | passed (rawFd : Int)
  deriving DecidableEq, Repr

inductive Listener where
  | tcp (socket : Socket)
  | unix (socket : Socket)
  deriving DecidableEq, Repr

inductive UdpListener where
  | udp (socket : Socket)
  | unix (socket : Socket)
  deriving DecidableEq, Repr

def SocketAddrPath.bind (n : Nat) : SocketAddrPath → Listener
  | socketAddr sa => .tcp (.bound n (socketAddr sa))
  | path p => .unix (.bound n (path p))

def SocketAddrPath.bindUdp (n : Nat) : SocketAddrPath → UdpListener
  | socketAddr sa => .udp (.bound n (socketAddr sa))
  | path p => .unix (.bound n (path p))

inductive Exit where
  /-- "Failed to parse config file {:?}: {}" -/
  | parse (e : Error)
  /-- "Failed to bind incoming_listen {}: {}" -/
  | incomingListen (a : SocketAddrPath) (e : Error)
  /-- "Failed to bind quic_listen {}: {}" -/
  | quicListen (a : SocketAddrPath) (e : Error)
  /-- "Failed to bind outgoing_listen {}: {}" -/
  | outgoingListen (a : SocketAddrPath) (e : Error)
  /-- "cannot open systemd TcpListener", or UnixListener -/
  | systemdOpen (unix : Bool)
  /-- "systemd TCP socket name must start with 'in' or 'out' but is '{}'", or Unix -/
  | systemdName (unix : Bool) (name : List Char)
  /-- "systemd TCP socket activation requires name that starts with 'in' or 'out'", or Unix -/
  | systemdUnnamed (unix : Bool)
  /-- "one of c2s_target/s2s_target must be defined if incoming_listen is non-empty", or quic_listen -/
  | noTarget (quic : Bool)
  /-- "invalid cert/key ?" -/
  | invalidCertKey
  /-- "invalid quick server config" -/
  | invalidQuicConfig
  /-- "cannot wrap unix udp socket", "cannot get local_addr for quic socket" or "cannot listen on
  port/interface" -/
  | quicListener (listener : UdpListener)
  /-- "all of incoming_listen, quic_listen, outgoing_listen empty, nothing to do, exiting..." -/
  | nothingToDo
  deriving DecidableEq, Repr

/-- What `main` finds outside: how the `n`-th bind ends, systemd's environment (an unset variable is the error
that it is reported as), the descriptors, and what becomes of a socket. -/
structure Outside where
  bind : Nat → SocketAddrPath → Except Error Unit
  listenPid : Except String String
  listenFds : Except String String
  listenFdnames : Except String String
  processId : Nat
  kernel : Systemd.Kernel
  fromStd : Int → Except Error Unit
  quicServerConfig : Except Error Unit
  quicListener : UdpListener → Except Error Unit

def bindAll {α : Type} (outside : Outside) (socket : Nat → SocketAddrPath → α)
    (failed : SocketAddrPath → Error → Exit) : Nat → List SocketAddrPath → Except Exit (List α)
  | _, [] => .ok []
  | n, a :: listen =>
    match outside.bind n a with
    | .ok () => do
      let rest ← bindAll outside socket failed (n + 1) listen
      return socket n a :: rest
    | .error e => .error (failed a e)

/-- `str::parse` of an unsigned integer of at most `max`, behind its sign. -/
def parseDigits (max : Nat) : Nat → List Char → Except String Nat
  | n, [] => .ok n
  | n, c :: cs =>
    if c.isDigit then
      if n * 10 + (c.toNat - 48) ≤ max then parseDigits max (n * 10 + (c.toNat - 48)) cs
      else .error "number too large to fit in target type"
    else .error "invalid digit found in string"

def parseUnsigned (max : Nat) (s : String) : Except String Nat :=
  match s.toList with
  | [] => .error "cannot parse integer from empty string"
  | ['+'] => .error "invalid digit found in string"
  | '+' :: cs => parseDigits max 0 cs
  | cs => parseDigits max 0 cs

def receiveDescriptorsWithNames (outside : Outside) : Except String (List Systemd.FileDescriptor) := do
  let pid ← outside.listenPid.mapError fun e => s!"failed to get LISTEN_PID: {e}"
  let pid ← (parseUnsigned 4294967295 pid).mapError fun e => s!"failed to parse LISTEN_PID: {e}"
  let fds ← outside.listenFds.mapError fun e => s!"failed to get LISTEN_FDS: {e}"
  let fds ← (parseUnsigned 18446744073709551615 fds).mapError fun e => s!"failed to parse LISTEN_FDS: {e}"
  if outside.processId ≠ pid then .error "PID mismatch"
  let names := match outside.listenFdnames with
    | .ok names => (names.toList.splitOn ':').map String.ofList
    | .error _ => []
  Systemd.socksFromFds outside.kernel fds names

structure Listeners where
  incoming : List Listener
  quic : List UdpListener
  outgoing : List Listener

namespace Listeners

/-- A stream socket goes where its name says, whatever its case. -/
def placeNamed (unix : Bool) (listener : Listener) (name : Option String) (ls : Listeners) :
    Except Exit Listeners :=
  match name.map fun name => name.toList.map Char.toLower with
  | some name =>
    if "in".toList <+: name then .ok { ls with incoming := ls.incoming ++ [listener] }
    else if "out".toList <+: name then .ok { ls with outgoing := ls.outgoing ++ [listener] }
    else .error (.systemdName unix name)
  | none => .error (.systemdUnnamed unix)

def place (outside : Outside) (ls : Listeners) (fd : Systemd.FileDescriptor) : Except Exit Listeners :=
  match fd.listener with
  | .tcp rawFd =>
    match outside.fromStd rawFd with
    | .ok () => ls.placeNamed false (.tcp (.passed rawFd)) fd.name
    | .error _ => .error (.systemdOpen false)
  | .unixListener rawFd =>
    match outside.fromStd rawFd with
    | .ok () => ls.placeNamed true (.unix (.passed rawFd)) fd.name
    | .error _ => .error (.systemdOpen true)
  | .udp rawFd => .ok { ls with quic := ls.quic ++ [.udp (.passed rawFd)] }
  | .unixDatagram rawFd => .ok { ls with quic := ls.quic ++ [.unix (.passed rawFd)] }

/-- A descriptor that systemd does not pass is none. -/
def placeAll (outside : Outside) (ls : Listeners) : Except Exit Listeners :=
  match receiveDescriptorsWithNames outside with
  | .ok fds => fds.foldlM (place outside) ls
  | .error _ => .ok ls

def bind (outside : Outside) (config : Config) : Except Exit Listeners := do
  let incoming ← bindAll outside SocketAddrPath.bind .incomingListen 0 config.incomingListen
  let quic ← bindAll outside SocketAddrPath.bindUdp .quicListen config.incomingListen.length config.quicListen
  let outgoing ← bindAll outside SocketAddrPath.bind .outgoingListen
    (config.incomingListen.length + config.quicListen.length) config.outgoingListen
  placeAll outside ⟨incoming, quic, outgoing⟩

end Listeners

inductive Task where
  | tls (listener : Listener)
  | quic (listener : UdpListener)
  | outgoing (listener : Listener)
  | refresh
  deriving DecidableEq, Repr

section

variable {PrivateKey Key Cert : Type}

def serverConfig (certsKey : CertsKey Key Cert) : Except Exit Unit :=
  match certsKey.inner with
  | .ok _ => .ok ()
  | .error _ => .error .invalidCertKey

def spawnIncoming (config : Config) (certsKey : CertsKey Key Cert) (listeners : List Listener) :
    Except Exit (List Task) :=
  if listeners = [] then .ok []
  else if config.hasTarget = false then .error (.noTarget false)
  else do
    serverConfig certsKey
    return listeners.map .tls

def spawnQuicListener (outside : Outside) (listener : UdpListener) : Except Exit Task :=
  match outside.quicListener listener with
  | .ok () => .ok (.quic listener)
  | .error _ => .error (.quicListener listener)

def spawnQuic (outside : Outside) (config : Config) (certsKey : CertsKey Key Cert)
    (listeners : List UdpListener) : Except Exit (List Task) :=
  if listeners = [] then .ok []
  else if config.hasTarget = false then .error (.noTarget true)
  else do
    serverConfig certsKey
    outside.quicServerConfig.mapError fun _ => Exit.invalidQuicConfig
    listeners.mapM (spawnQuicListener outside)

def spawnRefreshTask (certsKey : CertsKey Key Cert) : List Task :=
  match certsKey.inner with
  | .ok _ => [.refresh]
  | .error _ => []

structure Started (Key Cert : Type) where
  config : Config
  certsKey : CertsKey Key Cert
  handles : List Task

def main (outside : Outside) (files : Files PrivateKey Key Cert) : Except Exit (Started Key Cert) := do
  let config ← files.config.mapError Exit.parse
  let listeners ← Listeners.bind outside config
  let certsKey : CertsKey Key Cert := ⟨config.certsKey files⟩
  let incoming ← spawnIncoming config certsKey listeners.incoming
  let quic ← spawnQuic outside config certsKey listeners.quic
  let handles := incoming ++ quic ++ listeners.outgoing.map .outgoing
  if handles = [] then .error .nothingToDo
  return ⟨config, certsKey, handles ++ spawnRefreshTask certsKey⟩

end

end XmppProxy
