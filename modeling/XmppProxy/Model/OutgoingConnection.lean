import XmppProxy.Model.Outgoing

/-! `handle_outgoing_connection`: a client that names the domain it wants to reach, the server that
`srv_connect` finds there, and the loop between them. The filter that reads the client's header also
reads the servers on the way, and then the client again. -/

namespace XmppProxy

open Lib

structure OutgoingListener (ServerName : Type) where
  outgoing : OutgoingConfig ServerName
  sort : SortBy
  maxStanzaSizeBytes : Nat

inductive OutgoingEvent where
  /-- The first three bytes, seen by `first_bytes_match` and left in the stream. -/
  | first (b₀ b₁ b₂ : UInt8)
  | peekFailed
  /-- How the WebSocket handshake ends. -/
  | accepted
  | acceptFailed (e : Error)
  /-- One poll of the client's reader or of the server's, whatever transport it has. -/
  | client (poll : (rd : StanzaRead) → rd.Poll) (res : WriteResult)
  | server (poll : (rd : StanzaRead) → rd.Poll) (res : WriteResult)
  /-- How the client takes the response of the server. -/
  | answered (res : WriteResult)

inductive OutgoingConnection where
  | sniffing (f : StanzaFilter)
  | accepting (f : StanzaFilter)
  | preamble (inRd : StanzaRead) (inWr : StanzaWrite) (p : Preamble) (toClient : List Sent)
  /-- An attempt to connect that waits for more. -/
  | connecting (toClient : List Sent)
  | connected (inRd : StanzaRead) (inWr : StanzaWrite) (conn : Connected) (isC2s : Bool)
    (serverResponse : Bytes) (f : StanzaFilter) (toClient : List Sent)
  | shuffle (c : ShuffleConfig) (s : Shuffle)
  | ended (r : Outcome Unit) (toClient : List Sent)

def toDomain (streamOpen : Bytes) : Outcome Bytes :=
  match extractBetween streamOpen (bytes " to='") (bytes "'") with
  | .err _ => do fromUtf8 (← extractBetween streamOpen (bytes " to=\"") (bytes "\""))
  | r => do fromUtf8 (← r)

namespace OutgoingConnection

variable (Uri : Type) {ServerName : Type} [HttpUri Uri] [DecidableEq ServerName]

/-- From the end of the client's `stream_preamble` to that of `srv_connect`. -/
def accept (env : OutgoingListener ServerName) (inRd : StanzaRead) (inWr : StanzaWrite)
    (f : StanzaFilter) (streamOpen : Bytes) (isC2s : Bool) (toClient : List Sent) : OutgoingConnection :=
  match toDomain streamOpen with
  | .err e => ended (.err e) toClient
  | .panic => ended .panic toClient
  | .ok domain =>
    let found : Option (Outcome (XmppConnection Uri × Connected × Bytes)) × Dialing :=
      env.outgoing.srvConnect env.sort domain isC2s streamOpen f
    match found with
    | (none, _) => connecting toClient
    | (some (.ok (_, conn, serverResponse)), st) =>
      connected inRd inWr conn isC2s serverResponse st.filter toClient
    | (some (.err e), _) => ended (.err e) toClient
    | (some .panic, _) => ended .panic toClient

def step (env : OutgoingListener ServerName) : OutgoingConnection → OutgoingEvent → Report × OutgoingConnection
  | sniffing f, .first b₀ b₁ b₂ =>
    (.quiet,
      -- `in_filter.buf[0..3]`
      if h : [b₀, b₁, b₂].length ≤ f.bufSize then
        let f := f.scratch [b₀, b₁, b₂] h
        if [b₀, b₁, b₂] = bytes "GET" then accepting f
        else preamble .asyncRead .asyncWrite (.reading f []) []
      else ended .panic [])
  | sniffing f, .peekFailed =>
    (.quiet, ended (if 3 ≤ f.bufSize then .err .notEnoughBytes else .panic) [])
  | accepting f, .accepted =>
    (.quiet, preamble .webSocketRead .webSocketClientWrite (.reading f []) [])
  | accepting _, .acceptFailed e => (.quiet, ended (.err e) [])
  | preamble inRd inWr p toClient, .client poll res =>
    let (sent, p) := p.step inRd inWr (poll inRd) res
    (.quiet,
      match p with
      | .accepted f streamOpen isC2s => accept Uri env inRd inWr f streamOpen isC2s (toClient ++ sent)
      | .failed _ e => ended (.err e) (toClient ++ sent)
      | .panicked _ => ended .panic (toClient ++ sent)
      | p => preamble inRd inWr p (toClient ++ sent))
  | connected inRd inWr conn isC2s serverResponse f toClient, .answered res =>
    let (r, sent) := inWr.send env.outgoing.trace isC2s serverResponse 0 res
    (.quiet,
      match r with
      | .ok () =>
        shuffle ⟨inRd, inWr, conn.rd, conn.wr, isC2s, env.outgoing.trace⟩
          (.start f env.maxStanzaSizeBytes (toClient ++ sent) [])
      | r => ended r (toClient ++ sent))
  | shuffle c s, .client poll res =>
    let (r, s) := s.step c (.client (poll c.inRd) res)
    (r, shuffle c s)
  | shuffle c s, .server poll res =>
    let (r, s) := s.step c (.server (poll c.outRd) res)
    (r, shuffle c s)
  | c, _ => (.quiet, c)

def new (env : OutgoingListener ServerName) : OutgoingConnection := sniffing (.new env.maxStanzaSizeBytes)

end OutgoingConnection

def handleOutgoingConnection (Uri : Type) {ServerName : Type} [HttpUri Uri] [DecidableEq ServerName]
    (env : OutgoingListener ServerName) : Machine OutgoingConnection OutgoingEvent Report :=
  ⟨OutgoingConnection.step Uri env⟩

end XmppProxy
