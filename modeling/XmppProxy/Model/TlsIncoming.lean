import XmppProxy.Model.Incoming

/-! `handle_tls_connection`: plain text up to `<starttls`, or TLS from the first byte on, and then
`shuffle_rd_wr_filter` on the decrypted bytes, with the filter that has seen the plain text. -/

namespace XmppProxy

def streamFeatures : Bytes :=
  bytes ("<stream:features><starttls xmlns=\"urn:ietf:params:xml:ns:xmpp-tls\"><required/></starttls>" ++
    "</stream:features>")

def proceed : Bytes := bytes "<proceed xmlns=\"urn:ietf:params:xml:ns:xmpp-tls\" />"

/-- The stream header that answers `buf`: `to` and `from` change places, and there is an `id`. -/
def streamReply (buf : Bytes) : Bytes :=
  let swapped (buf from' : Bytes) :=
    replaceFirst (replaceFirst (replaceFirst buf (bytes " to=") (bytes " bla toblala="))
      (bytes " from=") (bytes " to=")) (bytes " bla toblala=") from'
  if containsSeq buf (bytes "id=") then
    swapped (replaceFirst (replaceFirst buf (bytes " id='") (bytes " id='xmpp-proxy"))
      (bytes " id=\"") (bytes " id=\"xmpp-proxy")) (bytes " from=")
  else swapped buf (bytes " id='xmpp-proxy' from=")

inductive TlsEvent where
  /-- The first three bytes, seen by `first_bytes_match` and left in the stream. -/
  | hello (b₀ b₁ b₂ : UInt8)
  | plain (poll : BytePoll) (res : WriteResult)
  /-- The next byte behind `<starttls`, seen in the same way. -/
  | next (b : UInt8)
  | peekFailed
  /-- How the handshake ends. -/
  | accepted
  | acceptFailed (e : Error)
  /-- Whether the decrypted bytes begin with `GET`. -/
  | sniffed (websocket : Bool)
  | poll (p : Poll .asyncRead)

inductive TlsConnection where
  | sniffing (f : StanzaFilter)
  | preTls (f : StanzaFilter) (sent : List Sent)
  | discarding (f : StanzaFilter) (sent : List Sent)
  | accepting (f : StanzaFilter) (sent : List Sent)
  | accepted (f : StanzaFilter) (sent : List Sent)
  | running (c : Connection)
  /-- Left to `handle_websocket_connection`. -/
  | websocket (f : StanzaFilter) (sent : List Sent)
  | ended (r : Outcome Unit) (sent : List Sent)

namespace TlsConnection

variable {Cert Verifier : Type}

/-- Writes `out` to the client and goes on as `k`. -/
def reply (sent : List Sent) (out : Bytes) (res : WriteResult) (k : List Sent → TlsConnection) :
    TlsConnection :=
  match transmit (some (.raw out)) res with
  | (.ok (), out) => k (sent ++ out)
  | (r, out) => ended r (sent ++ out)

/-- `first_bytes_match` puts the bytes that it sees at the start of `in_filter.buf`. -/
def peek (f : StanzaFilter) (sent : List Sent) (p : Bytes) (k : StanzaFilter → TlsConnection) :
    TlsConnection :=
  if h : p.length ≤ f.bufSize then k (f.scratch p h) else ended .panic sent

def preTlsStep (f : StanzaFilter) (sent : List Sent) (p : BytePoll) (res : WriteResult) :
    TlsConnection :=
  match StanzaRead.pollNext f p with
  | (none, f) => preTls f sent
  | (some (.ok (some buf)), f) =>
    if bytes "<?xml " <+: buf then reply sent buf res (preTls f)
    else if bytes "<stream:stream " <+: buf then
      reply sent (streamReply buf ++ streamFeatures) res (preTls f)
    else if bytes "<starttls " <+: buf then reply sent proceed res (discarding f)
    else ended (.err (.badPreTls buf)) sent
  | (some .panic, _) => ended .panic sent
  -- `while let Ok(Some(..))` ends without `<starttls`
  | (some (.ok none), _) => ended (.err .endedBeforeOpen) sent
  | (some (.err _), _) => ended (.err .endedBeforeOpen) sent

def step (env : Incoming Cert Verifier) : TlsConnection → TlsEvent → Report × TlsConnection
  | sniffing f, .hello b₀ b₁ b₂ =>
    (.quiet, peek f [] [b₀, b₁, b₂] fun f =>
      if b₀ = 0x16 ∧ b₁ = 0x03 ∧ b₂ ≤ 0x03 then accepting f [] else preTls f [])
  | sniffing f, .peekFailed =>
    (.quiet, ended (if 3 ≤ f.bufSize then .err .notEnoughBytes else .panic) [])
  | preTls f sent, .plain p res => (.quiet, preTlsStep f sent p res)
  | discarding f sent, .next b =>
    -- a byte that does not begin a handshake is read into the same place
    (.quiet, peek f sent [b] fun f => if b = 0x16 then accepting f sent else discarding f sent)
  | discarding f sent, .peekFailed =>
    (.quiet, ended (if 1 ≤ f.bufSize then .err .notEnoughBytes else .panic) sent)
  | accepting f sent, .accepted => (.quiet, accepted f sent)
  | accepting _ sent, .acceptFailed e => (.quiet, ended (.err e) sent)
  | accepted f sent, .sniffed false => (.quiet, running (.preamble (.reading f []) sent))
  | accepted f sent, .sniffed true => (.quiet, websocket f sent)
  | accepted _ sent, .peekFailed => (.quiet, ended (.err .io) sent)
  | running c, .poll p =>
    let (r, c) := c.step env .asyncRead .asyncWrite p
    (r, running c)
  | c, _ => (.quiet, c)

end TlsConnection

def handleTlsConnection {Cert Verifier : Type} (env : Incoming Cert Verifier) :
    Lib.Machine TlsConnection TlsEvent Report := ⟨TlsConnection.step env⟩

end XmppProxy
