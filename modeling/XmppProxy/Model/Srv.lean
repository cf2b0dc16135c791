import XmppProxy.Model.Address
import XmppProxy.Model.SliceSubsequence
import XmppProxy.Model.StanzaFilter
import XmppProxy.Model.Verify
import XmppProxy.Model.Websocket

/-! Where a domain can be reached: what host-meta, SRV and TXT records say, sorted and without
repetitions, and the verifier of the certificates found there. -/

namespace XmppProxy

open Lib

/-- A `reqwest::Url`, which is compared by the text it was parsed into. -/
@[ext] structure Url where
  serialization : Bytes
  deriving DecidableEq, Repr

structure UriPort where
  asStr : Bytes
  asU16 : UInt16

/-- The parsers of URLs, that of `http` and that of `reqwest`. The URIs of `http` are compared without
regard to case where their grammar says so. -/
class HttpUri (Uri : Type) extends BEq Uri where
  tryFrom : Bytes → Option Uri
  host : Uri → Option Bytes
  port : Uri → Option UriPort
  toStr : Uri → Bytes
  parseUrl : Bytes → Option Url
  urlPort : Url → Option UInt16

inductive XmppConnectionType (Uri : Type) where
  | startTLS
  | directTLS
  | quic
  | webSocket (uri : Uri) (origin : Bytes)
  | webTransport (url : Url)

namespace XmppConnectionType

variable {Uri : Type} [HttpUri Uri]

def beq : XmppConnectionType Uri → XmppConnectionType Uri → Bool
  | startTLS, startTLS => true
  | directTLS, directTLS => true
  | quic, quic => true
  | webSocket uri origin, webSocket uri' origin' => uri == uri' && origin == origin'
  | webTransport url, webTransport url' => url == url'
  | _, _ => false

instance : BEq (XmppConnectionType Uri) := ⟨beq⟩

omit [HttpUri Uri] in
def idx : XmppConnectionType Uri → UInt8
  | quic => 0
  | webTransport _ => 1
  | directTLS => 2
  | startTLS => 3
  | webSocket _ _ => 4

def cmp (a b : XmppConnectionType Uri) : Ordering :=
  (compare a.idx b.idx).then
    (match a, b with
    | webSocket selfUri selfOrigin, webSocket otherUri otherOrigin =>
      (compare (HttpUri.toStr selfUri) (HttpUri.toStr otherUri)).then (compare selfOrigin otherOrigin)
    | webTransport selfUrl, webTransport otherUrl =>
      compare selfUrl.serialization otherUrl.serialization
    | _, _ => .eq)

instance : Ord (XmppConnectionType Uri) := ⟨cmp⟩

end XmppConnectionType

structure XmppConnection (Uri : Type) where
  connType : XmppConnectionType Uri
  priority : UInt16
  weight : UInt16
  port : UInt16
  target : Bytes
  secure : Bool
  ips : List IpAddr
  ech : Option Bytes

namespace XmppConnection

variable {Uri : Type} [HttpUri Uri]

instance : BEq (XmppConnection Uri) :=
  ⟨fun a b => a.connType == b.connType && a.port == b.port && a.target == b.target⟩

/-- The last comparison is between a weight and a priority. -/
def cmp (a b : XmppConnection Uri) : Ordering :=
  (a.connType.cmp b.connType).then <| (compare a.port b.port).then <|
    (compare a.target b.target).then <| (compare b.secure a.secure).then <|
    (compare a.priority b.priority).then <| compare b.weight a.priority

def cmpPriority (a b : XmppConnection Uri) : Ordering :=
  (compare a.priority b.priority).then <| (compare a.connType.idx b.connType.idx).then <|
    compare b.weight a.weight

end XmppConnection

def sortWith {α : Type} (sort : SortBy) (cmp : α → α → Ordering) (l : List α) : Outcome (List α) :=
  match sort.run cmp l with
  | some l => .ok l
  | none => .panic

variable {Uri ServerName : Type} [HttpUri Uri]

def sortDedup (sort : SortBy) (ret : List (XmppConnection Uri)) : Outcome (List (XmppConnection Uri)) := do
  let ret ← sortWith sort XmppConnection.cmp ret
  sortWith sort XmppConnection.cmpPriority (dedup ret)

structure DnsName where
  isRoot : Bool
  toAscii : Bytes

inductive RData where
  | srv (priority weight port : UInt16) (target : DnsName)
  | txt (txtData : List Bytes)
  | other

def srvConnection (connType : XmppConnectionType Uri) : RData → Option (XmppConnection Uri)
  | .srv priority weight port target =>
    if target.isRoot then none
    else some ⟨connType, priority, weight, port, target.toAscii, false, [], none⟩
  | _ => none

def collectSrvs (ret : List (XmppConnection Uri)) (srvRecords : Outcome (List RData))
    (connType : XmppConnectionType Uri) : List (XmppConnection Uri) :=
  match srvRecords with
  | .ok records => ret ++ records.filterMap (srvConnection connType)
  | _ => ret

def wssToSrv (url : Bytes) (secure : Bool) : Option (XmppConnection Uri) := do
  let url ← HttpUri.tryFrom url
  let serverName ← HttpUri.host url
  let origin := bytes "https://" ++ serverName
  match HttpUri.port url with
  | some port =>
    some ⟨.webSocket url (origin ++ 58 :: port.asStr), 65535, 0, port.asU16, serverName, secure, [], none⟩
  | none => some ⟨.webSocket url origin, 65535, 0, 443, serverName, secure, [], none⟩

def wtToSrv (url : Bytes) : Option (XmppConnectionType Uri × UInt16) := do
  let url ← HttpUri.parseUrl Uri url
  some (.webTransport url, (HttpUri.urlPort Uri url).getD 443)

def txtConnection (isC2s : Bool) (txt : Bytes) : Option (XmppConnection Uri) :=
  if (if isC2s then bytes "_xmpp-client-websocket=wss://" else bytes "_xmpp-server-websocket=wss://") <+:
      txt then
    match fromUtf8 (txt.drop 23) with
    | .ok url => wssToSrv url false
    | _ => none
  else none

def collectTxt (isC2s : Bool) (ret : List (XmppConnection Uri)) (txt : Bytes) :
    List (XmppConnection Uri) :=
  match txtConnection isC2s txt with
  | some srv => if ret.contains srv then ret else ret ++ [srv]
  | none => ret

def RData.txtData : RData → List Bytes
  | txt txtData => txtData
  | _ => []

def collectTxts (ret : List (XmppConnection Uri)) (txtRecords : Outcome (List RData)) (isC2s : Bool) :
    List (XmppConnection Uri) :=
  match txtRecords with
  | .ok records => (records.flatMap RData.txtData).foldl (collectTxt isC2s) ret
  | _ => ret

structure LinkCommon where
  ips : List IpAddr
  priority : UInt16
  weight : UInt16
  sni : Bytes
  ech : Option Bytes

inductive Link where
  | webSocket (href : Bytes) (link : Option LinkCommon)
  | webTransport (href : Bytes) (link : LinkCommon)
  | directTLS (link : LinkCommon) (port : UInt16)
  | quic (link : LinkCommon) (port : UInt16)
  | s2sWebTransport (href : Bytes) (link : LinkCommon)
  | s2sWebSocket (href : Bytes) (link : LinkCommon)
  | s2sDirectTLS (link : LinkCommon) (port : UInt16)
  | s2sQuic (link : LinkCommon) (port : UInt16)
  | unknown

structure HostMetaXmpp where
  ttl : UInt16
  publicKeyPinsSha256 : List Bytes

structure HostMeta where
  xmpp : Option HostMetaXmpp
  links : List Link

omit [HttpUri Uri] in
def LinkCommon.intoXmppConnection (link : LinkCommon) (connType : XmppConnectionType Uri) (port : UInt16) :
    Option (XmppConnection Uri) :=
  if link.ips.isEmpty then none
  else some ⟨connType, link.priority, link.weight, port, link.sni, true, link.ips, link.ech⟩

def Link.intoXmppConnection (isC2s : Bool) : Link → Option (XmppConnection Uri)
  | directTLS link port => if isC2s then link.intoXmppConnection .directTLS port else none
  | quic link port => if isC2s then link.intoXmppConnection .quic port else none
  | s2sDirectTLS link port => if isC2s then none else link.intoXmppConnection .directTLS port
  | s2sQuic link port => if isC2s then none else link.intoXmppConnection .quic port
  | webSocket href link =>
    if isC2s then do
      let srv ← wssToSrv href true
      match link with
      | some link => link.intoXmppConnection srv.connType srv.port
      | none => some srv
    else none
  | s2sWebSocket href link =>
    if isC2s then none
    else do
      let srv ← wssToSrv href true
      link.intoXmppConnection srv.connType srv.port
  | webTransport href link =>
    if isC2s then do
      let (connType, port) ← wtToSrv href
      link.intoXmppConnection connType port
    else none
  | s2sWebTransport href link =>
    if isC2s then none
    else do
      let (connType, port) ← wtToSrv href
      link.intoXmppConnection connType port
  | unknown => none

/-- What a collector adds to the connections and to the pinned keys, with the TTL if there is one. -/
structure Collected (Uri : Type) where
  ret : List (XmppConnection Uri)
  sha256Pinnedpubkeys : List Bytes
  ttl : Option UInt16

omit [HttpUri Uri] in
/-- An error leaves nothing behind. -/
def Collected.orNothing : Outcome (Collected Uri) → Outcome (Collected Uri)
  | .err _ => .ok ⟨[], [], none⟩
  | r => r

def HostMeta.collect (hostMeta : HostMeta) (isC2s : Bool) : Collected Uri where
  ret := hostMeta.links.filterMap (Link.intoXmppConnection isC2s)
  sha256Pinnedpubkeys := (hostMeta.xmpp.map HostMetaXmpp.publicKeyPinsSha256).getD []
  ttl := hostMeta.xmpp.map HostMetaXmpp.ttl

/-- The value behind `needle`, an `=` with a quote and the start of the URL. -/
def wssHref (stanza needle : Bytes) : Outcome (List Bytes) :=
  match firstIndexOf stanza needle with
  | .ok idx =>
    let stanza := stanza.drop (idx + 2)
    match firstIndexOf stanza ((needle.drop 1).take 1) with
    | .ok idx => do return [← fromUtf8 (stanza.take idx)]
    | .err _ => .ok []
    | .panic => .panic
  | .err _ => .ok []
  | .panic => .panic

def linkHrefs (rel stanza : Bytes) : Outcome (List Bytes) :=
  if containsSeq stanza rel then do
    return (← wssHref stanza (bytes "='wss://")) ++ (← wssHref stanza (bytes "=\"wss://"))
  else .ok []

/-- The loop over the links, which an error of the filter ends. -/
def parseLinks (rel : Bytes) : List (Outcome (Option Bytes)) → Outcome (List Bytes)
  | [] => .ok []
  | .ok none :: os => parseLinks rel os
  | .ok (some stanza) :: os => do return (← linkHrefs rel stanza) ++ (← parseLinks rel os)
  | .err _ :: _ => .ok []
  | .panic :: _ => .panic

def parseStanzas (rel : Bytes) : List (Outcome (Option (Bytes × Nat))) → Outcome (List Bytes)
  | [] => .ok []
  | .ok none :: os => parseStanzas rel os
  | .ok (some (stanza, eoft)) :: os =>
    if bytes "<XRD" <+: stanza ∨ bytes "<xrd" <+: stanza then
      -- `&stanza[eoft..]`
      if eoft ≤ stanza.length then do
        let hosts ← parseLinks rel (filterNext.outputs (.new 4096) (stanza.drop eoft))
        return hosts ++ (← parseStanzas rel os)
      else .panic
    else parseStanzas rel os
  | .err e :: _ => .err e
  | .panic :: _ => .panic

def parseHostMetaXml (rel bytes : Bytes) : Outcome (List Bytes) :=
  parseStanzas rel (filterNextEoft.outputs (.new 8192) bytes)

inductive PoshJson where
  | poshFingerprints (fingerprints : List Fingerprint) (expires : UInt64)
  | poshRedirect (url : Bytes) (expires : UInt64)

structure Response where
  status : UInt16
  body : Outcome Bytes

def Response.isSuccess (resp : Response) : Bool := 200 ≤ resp.status && resp.status < 300

/-- What is found outside: DNS and HTTPS, and the readers of names and of JSON. -/
structure Network (ServerName : Type) where
  serverName : Bytes → Option ServerName
  intoName : Bytes → Outcome DnsName
  srvLookup : DnsName → Outcome (List RData)
  txtLookup : DnsName → Outcome (List RData)
  httpsGet : Bytes → Outcome Response
  hostMeta : Bytes → Outcome HostMeta
  poshJson : Bytes → Outcome PoshJson

namespace Network

def tryFrom (net : Network ServerName) (name : Bytes) : Outcome ServerName :=
  match net.serverName name with
  | some name => .ok name
  | none => .err .invalidDnsName

def collectHostMetaJson (net : Network ServerName) (domain : Bytes) (isC2s : Bool) :
    Outcome (Collected Uri) := do
  let url := bytes "https://" ++ domain ++ bytes "/.well-known/host-meta.json"
  let resp ← net.httpsGet url
  if resp.isSuccess then return (← net.hostMeta (← resp.body)).collect isC2s
  else .err (.statusCode resp.status url)

def collectHostMetaXml (net : Network ServerName) (domain : Bytes) (isC2s : Bool) :
    Outcome (List (XmppConnection Uri)) :=
  if isC2s then do
    let url := bytes "https://" ++ domain ++ bytes "/.well-known/host-meta"
    let resp ← net.httpsGet url
    if resp.isSuccess then
      let hosts ← parseHostMetaXml (bytes "urn:xmpp:alt-connections:websocket") (← resp.body)
      return hosts.filterMap fun host => wssToSrv host true
    else .err (.statusCode resp.status url)
  else .err .hostMetaXmlS2s

/-- Both are asked at once: a panic of either ends both. -/
def collectHostMeta (net : Network ServerName) (domain : Bytes) (isC2s : Bool) :
    Outcome (Collected Uri) :=
  match net.collectHostMetaJson domain isC2s, net.collectHostMetaXml domain isC2s with
  | .panic, _ => .panic
  | _, .panic => .panic
  | .ok ⟨ret, pins, some ttl⟩, _ => .ok ⟨ret, pins, some ttl⟩
  | .ok ⟨ret, pins, none⟩, .ok xml => .ok ⟨ret ++ xml, pins, none⟩
  | .err _, .ok xml => .ok ⟨xml, [], none⟩
  | json, .err _ => json

def collectPoshService (net : Network ServerName) (domain serviceName : Bytes) : Outcome Posh := do
  let url := bytes "https://" ++ domain ++ bytes "/.well-known/posh/" ++ serviceName ++ bytes ".json"
  let resp ← net.httpsGet url
  if resp.isSuccess then
    match ← net.poshJson (← resp.body) with
    | .poshFingerprints fingerprints expires => Posh.new fingerprints expires
    | .poshRedirect url expires => do
      let resp ← net.httpsGet url
      match ← net.poshJson (← resp.body) with
      | .poshRedirect _ _ => .err .poshRedirect
      | .poshFingerprints fingerprints expires2 =>
        Posh.new fingerprints (if expires < expires2 then expires else expires2)
  else .err (.statusCode resp.status url)

def collectPosh (net : Network ServerName) (domain : Bytes) : Outcome Posh :=
  match net.collectPoshService domain (bytes "xmpp-client"),
    net.collectPoshService domain (bytes "xmpp-server") with
  | .ok client, .ok server => .ok (client.append server)
  | _, .ok server => .ok server
  | client, _ => client

/-- The names of the lookups: for StartTLS, direct TLS, QUIC and WebSocket. -/
def lookupNames (isC2s : Bool) : Bytes × Bytes × Bytes × Bytes :=
  if isC2s then
    (bytes "_xmpp-client._tcp", bytes "_xmpps-client._tcp", bytes "_xmppq-client._udp",
      bytes "_xmppconnect")
  else
    (bytes "_xmpp-server._tcp", bytes "_xmpps-server._tcp", bytes "_xmppq-server._udp",
      bytes "_xmppconnect-server")

def lookupName (net : Network ServerName) (service domain : Bytes) : Outcome DnsName :=
  net.intoName (service ++ 46 :: domain ++ [46])

omit [HttpUri Uri] in
def defaults (domain : Bytes) (isC2s : Bool) : List (XmppConnection Uri) :=
  [⟨.startTLS, 0, 0, if isC2s then 5222 else 5269, domain, false, [], none⟩,
    ⟨.directTLS, 0, 0, 443, domain, false, [], none⟩, ⟨.quic, 0, 0, 443, domain, false, [], none⟩]

omit [HttpUri Uri] in
def addName [DecidableEq ServerName] (net : Network ServerName) (names : List ServerName)
    (srv : XmppConnection Uri) : List ServerName :=
  if srv.secure then
    match net.tryFrom srv.target with
    | .ok target => if target ∈ names then names else names ++ [target]
    | _ => names
  else names

def getXmppConnections [DecidableEq ServerName] (net : Network ServerName) (sort : SortBy)
    (domain : Bytes) (isC2s : Bool) :
    Outcome (List (XmppConnection Uri) × XmppServerCertVerifier ServerName) := do
  let name ← net.tryFrom domain
  let (starttls, directTls, quic, websocketTxt) := lookupNames isC2s
  let starttls ← net.lookupName starttls domain
  let directTls ← net.lookupName directTls domain
  let quic ← net.lookupName quic domain
  let websocketTxt ← net.lookupName websocketTxt domain
  let collected : Collected Uri ← Collected.orNothing (net.collectHostMeta domain isC2s)
  let ret := if collected.ttl.isSome then collected.ret
    else
      let ret := collectTxts collected.ret (net.txtLookup websocketTxt) isC2s
      let ret := collectSrvs ret (net.srvLookup starttls) .startTLS
      let ret := collectSrvs ret (net.srvLookup directTls) .directTLS
      collectSrvs ret (net.srvLookup quic) .quic
  let ret ← sortDedup sort ret
  let names := ret.foldl net.addName [name]
  let posh := match net.collectPosh domain with
    | .ok posh => some posh
    | _ => none
  let ret := if ret.isEmpty then defaults domain isC2s else ret
  return (ret, ⟨names, posh, collected.sha256Pinnedpubkeys⟩)

end Network

end XmppProxy
