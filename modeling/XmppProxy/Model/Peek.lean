import XmppProxy.Model.Bytes

/-! How a connection's first bytes are looked at. The loops run until a deadline: `turns` is the number of
turns that the clock allows after the first one. -/

namespace XmppProxy

inductive PeekError where
  /-- "not enough bytes" -/
  | notEnoughBytes
  /-- "less than {} bytes in 10 seconds, closed connection?" -/
  | lessThan (len : Nat)
  /-- "first_bytes_match_buf elapsed {:?} wtf????" -/
  | elapsed
  deriving DecidableEq, Repr

/-- A reader's internal buffer, and what the reads of the inner stream will return before its end. -/
structure BufReader where
  buffer : Bytes
  reads : List Bytes
  nonempty : ∀ chunk ∈ reads, chunk ≠ []

namespace BufReader

/-- The reader after `fill_buf`, whose buffer is what `fill_buf` returns: only an empty buffer is
filled, by one read. -/
def fillBuf : BufReader → BufReader
  | ⟨[], chunk :: reads, h⟩ => ⟨chunk, reads, fun c hc => h c (List.mem_cons_of_mem _ hc)⟩
  | r => r

/-- The loop of `peek_bytes` over a buffered reader. -/
def peek (len : Nat) : Nat → BufReader → Except PeekError Bytes × BufReader
  | turns, r =>
    let r := r.fillBuf
    if r.buffer.length ≥ len then (.ok (r.buffer.take len), r)
    else if r.buffer.isEmpty then (.error .notEnoughBytes, r)
    else
      match turns with
      | 0 => (.error (.lessThan len), r)
      | turns + 1 => peek len turns r

def peekBytes (r : BufReader) (len turns : Nat) : Except PeekError Bytes × BufReader := peek len turns r

end BufReader

structure BufStream where
  inner : BufReader

def BufStream.peekBytes (s : BufStream) (len turns : Nat) : Except PeekError Bytes × BufStream :=
  let (res, inner) := s.inner.peek len turns
  (res, ⟨inner⟩)

/-- `first_bytes_match` of the trait, given what `peek_bytes` came to. -/
def firstBytesMatch {Stream : Type} (peeked : Except PeekError Bytes × Stream) (matcher : Bytes → Bool) :
    Except PeekError Bool × Stream :=
  (peeked.1.map matcher, peeked.2)

/-- Unlike `peek_bytes`, the loop does not look for the end of the stream. -/
def firstBytesMatchBuf (len : Nat) (matcher : Bytes → Bool) : Nat → BufReader → Except PeekError Bool × BufReader
  | turns, r =>
    let r := r.fillBuf
    if r.buffer.length ≥ len then (.ok (matcher (r.buffer.take len)), r)
    else
      match turns with
      | 0 => (.error .elapsed, r)
      | turns + 1 => firstBytesMatchBuf len matcher turns r

/-- `peek_bytes` on a socket: the bytes that are queued when the first `peek` returns, and those that
come in before each further one. A `peek` leaves them in the queue. -/
def TcpStream.peekBytes (len : Nat) : List Bytes → Bytes → Except PeekError Bytes × Bytes
  | arrivals, queue =>
    let n := min queue.length len
    if n = len then (.ok (queue.take len), queue)
    else if n = 0 then (.error .notEnoughBytes, queue)
    else
      match arrivals with
      | [] => (.error (.lessThan len), queue)
      | more :: arrivals => peekBytes len arrivals (queue ++ more)

end XmppProxy
