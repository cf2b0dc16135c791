import XmppProxy.Model.StanzaFilter
import XmppProxy.Model.Websocket

/-! Readers and writers of stanzas, over a byte stream or over a WebSocket. A future is modelled poll
by poll: what one poll of the transport delivers is its input. -/

namespace XmppProxy

inductive StanzaWrite where
  | asyncWrite
  | webSocketClientWrite
  deriving DecidableEq, Repr

inductive StanzaRead where
  | asyncRead
  | webSocketRead
  deriving DecidableEq, Repr

inductive Message where
  | text (stanza : Bytes)
  | ping (data : Bytes)
  | pong
  | binary
  | close
  deriving DecidableEq, Repr

/-- What one poll of `read` on a buffer of one byte delivers. -/
inductive BytePoll where
  | pending
  | byte (b : UInt8)
  | eof
  | failed
  deriving DecidableEq, Repr

/-- What one poll of `try_next` delivers. -/
inductive MessagePoll where
  | pending
  | message (m : Message)
  | ended
  | failed
  deriving DecidableEq, Repr

/-- What reaches the transport: bytes of a stream, or a message. -/
inductive Sent where
  | raw (buf : Bytes)
  | text (stanza : Bytes)
  | pong (data : Bytes)
  deriving DecidableEq, Repr

/-- How the transport takes a write and the flush after it: a failed write of bytes may have taken
some of them. -/
inductive WriteResult where
  | done
  | cut (taken : Nat)
  | flushFailed
  deriving DecidableEq, Repr

def Sent.cut : Sent → Nat → List Sent
  | .raw buf, taken => [.raw (buf.take taken)]
  | _, _ => []

def transmit (data : Option Sent) (res : WriteResult) : Outcome Unit × List Sent :=
  match data, res with
  | data, .done => (.ok (), data.toList)
  | data, .flushFailed => (.err .io, data.toList)
  | some data, .cut taken => (.err .io, data.cut taken)
  | none, .cut _ => (.ok (), [])

namespace StanzaWrite

/-- `write_all` up to the transport. The skipped declaration is converted for the log, when that is
enabled. -/
def writeAll (wr : StanzaWrite) (trace isC2s : Bool) (buf : Bytes) (endOfFirstTag : Nat) :
    Outcome (Option Sent) :=
  match wr with
  | .asyncWrite => .ok (some (.raw buf))
  | .webSocketClientWrite =>
    if bytes "<?xml " <+: buf then
      let buf := buf.drop (bytes "<?xml ").length
      match firstIndexOf buf (bytes "<") with
      | .ok idx => do return some (.text (← toWsNew (buf.drop idx) endOfFirstTag isC2s))
      | _ => if trace then do let _ ← fromUtf8 buf; return none else .ok none
    else do return some (.text (← toWsNew buf endOfFirstTag isC2s))

def send (wr : StanzaWrite) (trace isC2s : Bool) (buf : Bytes) (endOfFirstTag : Nat)
    (res : WriteResult) : Outcome Unit × List Sent :=
  match wr.writeAll trace isC2s buf endOfFirstTag with
  | .ok data => transmit data res
  | .err e => (.err e, [])
  | .panic => (.panic, [])

end StanzaWrite

namespace StanzaRead

def Poll : StanzaRead → Type
  | asyncRead => BytePoll
  | webSocketRead => MessagePoll

/-- One poll of `next`: its result unless it is still pending, the filter, and the pongs sent. -/
structure Polled where
  result : Option (Outcome (Option (Bytes × Nat)))
  filter : StanzaFilter
  sent : List Sent

/-- `StanzaReader::next_eoft` holds nothing but the filter between two reads. -/
def pollBytes (f : StanzaFilter) : BytePoll → Polled
  | p =>
    -- `current_buf` is taken before the read
    if f.cnt < f.bufSize then
      match p with
      | .pending => ⟨none, f, []⟩
      | .byte b =>
        match f.nextEoft b with
        | (.ok none, f) => ⟨none, f, []⟩
        | (r, f) => ⟨some r, f, []⟩
      | .eof => ⟨some (.ok none), f, []⟩
      | .failed => ⟨some (.err .io), f, []⟩
    else ⟨some .panic, f, []⟩

/-- The same poll through `StanzaReader::next`. -/
def pollNext (f : StanzaFilter) (p : BytePoll) : Option (Outcome (Option Bytes)) × StanzaFilter :=
  if f.cnt < f.bufSize then
    match p with
    | .pending => (none, f)
    | .byte b =>
      match f.next b with
      | (.ok none, f) => (none, f)
      | (r, f) => (some r, f)
    | .eof => (some (.ok none), f)
    | .failed => (some (.err .io), f)
  else (some .panic, f)

def pollMessage (wrt : StanzaWrite) (f : StanzaFilter) (res : WriteResult) : MessagePoll → Polled
  | .pending => ⟨none, f, []⟩
  | .message (.text stanza) =>
    let stanza := fromWs stanza
    -- `&mut filter.buf[0..stanza.len()]`
    if h : stanza.length ≤ f.bufSize then ⟨some (.ok (some (stanza, 0))), f.scratch stanza h, []⟩
    else ⟨some .panic, f, []⟩
  | .message (.ping data) =>
    match wrt with
    | .asyncWrite => ⟨some (.err .programming), f, []⟩
    | .webSocketClientWrite =>
      match transmit (some (.pong data)) res with
      | (.ok (), sent) => ⟨none, f, sent⟩
      | (_, sent) => ⟨some (.err .io), f, sent⟩
  | .message .close => ⟨some (.err .webSocketClose), f, []⟩
  | .message .pong => ⟨some (.err .invalidWebSocketMessage), f, []⟩
  | .message .binary => ⟨some (.err .invalidWebSocketMessage), f, []⟩
  | .ended => ⟨some (.err .webSocketEnded), f, []⟩
  | .failed => ⟨some (.err .io), f, []⟩

def poll (rd : StanzaRead) (wrt : StanzaWrite) (f : StanzaFilter) (p : rd.Poll) (res : WriteResult) :
    Polled :=
  match rd, p with
  | .asyncRead, p => pollBytes f p
  | .webSocketRead, p => pollMessage wrt f res p

end StanzaRead
end XmppProxy
