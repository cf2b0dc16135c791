import XmppProxy.Model.InOut

/-! The stream preamble and the loop that shuffles stanzas between two peers. Both run poll by poll,
in any order of polls: a `next` that is dropped while it is pending leaves nothing behind but its
filter. -/

namespace XmppProxy

/-- How far `stream_preamble` has come: still reading, accepted, or ended. -/
inductive Preamble where
  | reading (filter : StanzaFilter) (streamOpen : Bytes)
  | accepted (filter : StanzaFilter) (streamOpen : Bytes) (isC2s : Bool)
  | failed (filter : StanzaFilter) (e : Error)
  | panicked (filter : StanzaFilter)

def isC2sHeader (buf : Bytes) : Bool :=
  containsSeq buf (bytes " xmlns=\"jabber:client\"") || containsSeq buf (bytes " xmlns='jabber:client'")

namespace Preamble

/-- One poll of `in_rd.next` in the loop of `stream_preamble`, with the pongs that are sent. -/
def step (rd : StanzaRead) (wrt : StanzaWrite) (p : rd.Poll) (res : WriteResult) :
    Preamble → List Sent × Preamble
  | reading f streamOpen =>
    let polled := rd.poll wrt f p res
    (polled.sent,
      match polled.result with
      | none => reading polled.filter streamOpen
      | some (.ok (some (buf, _))) =>
        if bytes "<?xml " <+: buf then reading polled.filter (streamOpen ++ buf)
        else if bytes "<stream:stream " <+: buf then
          accepted polled.filter (streamOpen ++ buf) (isC2sHeader buf)
        else failed polled.filter (.badPreStream buf)
      | some .panic => panicked polled.filter
      -- `while let Ok(Some(..))` ends on an error as on the end of the stream
      | some (.ok none) => failed polled.filter .endedBeforeOpen
      | some (.err _) => failed polled.filter .endedBeforeOpen)
  | p => ([], p)

end Preamble

def streamPreamble (rd : StanzaRead) (wrt : StanzaWrite) :
    Lib.Machine Preamble (rd.Poll × WriteResult) (List Sent) :=
  ⟨fun p poll => p.step rd wrt poll.1 poll.2⟩

structure ShuffleConfig where
  inRd : StanzaRead
  inWr : StanzaWrite
  outRd : StanzaRead
  outWr : StanzaWrite
  isC2s : Bool
  trace : Bool

inductive Status where
  | running
  /-- The loop was left by `break`. -/
  | disconnected
  | failed (e : Error)
  | panicked
  deriving DecidableEq, Repr

/-- One peer: the filter of its reader, whether its branch is disabled in this round of `select!`, and
what was sent to it. -/
structure Side where
  filter : StanzaFilter
  disabled : Bool
  sent : List Sent

structure Shuffle where
  client : Side
  server : Side
  status : Status

/-- One branch polled: what the transports deliver and how they take what is written. -/
inductive Event (c : ShuffleConfig) where
  | client (poll : c.inRd.Poll) (res : WriteResult)
  | server (poll : c.outRd.Poll) (res : WriteResult)

inductive Report where
  | quiet
  | forwarded (buf : Bytes) (endOfFirstTag : Nat)
  | rejected (e : Error)
  | closed
  | panicked
  deriving DecidableEq, Repr

namespace Shuffle

/-- One branch of the `select!`, with the side `me` that is read and the side `other` that is written
to. An error only disables the branch until the round is over. -/
def branch (rd : StanzaRead) (myWr otherWr : StanzaWrite) (trace isC2s : Bool) (me other : Side)
    (p : rd.Poll) (res : WriteResult) : Report × Side × Side × Status :=
  let polled := rd.poll myWr me.filter p res
  let me := { me with filter := polled.filter, sent := me.sent ++ polled.sent }
  match polled.result with
  | none => (.quiet, me, other, .running)
  | some .panic => (.panicked, me, other, .panicked)
  | some (.err e) =>
    -- `else => break` once no branch is left
    (.rejected e, { me with disabled := true }, other,
      if other.disabled then .disconnected else .running)
  | some (.ok none) => (.closed, me, other, .disconnected)
  | some (.ok (some (buf, endOfFirstTag))) =>
    let (r, sent) := otherWr.send trace isC2s buf endOfFirstTag res
    let other := { other with sent := other.sent ++ sent }
    match r with
    | .ok () =>
      (.forwarded buf endOfFirstTag, { me with disabled := false }, { other with disabled := false },
        .running)
    | .err e => (.forwarded buf endOfFirstTag, me, other, .failed e)
    | .panic => (.forwarded buf endOfFirstTag, me, other, .panicked)

def step (c : ShuffleConfig) (s : Shuffle) : Event c → Report × Shuffle
  | .client p res =>
    if s.status = .running ∧ s.client.disabled = false then
      let (r, client, server, status) :=
        branch c.inRd c.inWr c.outWr c.trace c.isC2s s.client s.server p res
      (r, { client, server, status })
    else (.quiet, s)
  | .server p res =>
    if s.status = .running ∧ s.server.disabled = false then
      let (r, server, client, status) :=
        branch c.outRd c.outWr c.inWr c.trace c.isC2s s.server s.client p res
      (r, { client, server, status })
    else (.quiet, s)

def start (inFilter : StanzaFilter) (maxStanzaSizeBytes : Nat) (toClient toServer : List Sent) :
    Shuffle where
  client := { filter := inFilter, disabled := false, sent := toClient }
  server := { filter := .new maxStanzaSizeBytes, disabled := false, sent := toServer }
  status := .running

end Shuffle

def shuffleRdWrFilterOnly (c : ShuffleConfig) : Lib.Machine Shuffle (Event c) Report := ⟨Shuffle.step c⟩

end XmppProxy
