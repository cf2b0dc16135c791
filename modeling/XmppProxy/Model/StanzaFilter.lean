import XmppProxy.Lib.Machine
import XmppProxy.Model.Bytes

/-! The streaming splitter: a fixed buffer, a write position, a depth counter and eleven states, fed
one byte at a time. The functions keep whatever they had assigned when they return an error, because
callers go on using the filter afterwards. -/

namespace XmppProxy

inductive StanzaState where
  | outsideStanza
  | stanzaFirstChar
  | insideTagFirstChar
  | insideTag
  | insideAttribute (quote : UInt8)
  | betweenTags
  | exclamationTag (idx : Nat)
  | insideCDATA
  | questionTag (idx : Nat)
  | insideXmlTag
  | endStream
  deriving DecidableEq, Repr

structure StanzaFilter where
  bufSize : Nat
  buf : Bytes
  endOfFirstTag : Nat
  cnt : Nat
  tagCnt : Nat
  state : StanzaState
  length_buf : buf.length = bufSize

def checkedSub (i s : Nat) : Except Error Nat :=
  if s > i then .error .invalidStanza else .ok (i - s)

namespace StanzaFilter

def new (bufSize : Nat) : StanzaFilter where
  bufSize := bufSize
  buf := List.replicate bufSize 0
  endOfFirstTag := 0
  cnt := 0
  tagCnt := 0
  state := .outsideStanza
  length_buf := List.length_replicate

/-- `self.buf[i] = b`, for an index in range. -/
def setBuf (f : StanzaFilter) (i : Nat) (b : UInt8) : StanzaFilter :=
  { f with buf := f.buf.set i b, length_buf := by rw [List.length_set, f.length_buf] }

/-- Writes `w` over the start of `buf`, as the callers do that use it as scratch space. -/
def scratch (f : StanzaFilter) (w : Bytes) (h : w.length ≤ f.bufSize) : StanzaFilter :=
  { f with
    buf := w ++ f.buf.drop w.length
    length_buf := by rw [List.length_append, List.length_drop, f.length_buf]; omega }

/-- How the `match` of `process_next_byte_idx` is left: past its end, or by a `return`. -/
inductive Move where
  | fall (f : StanzaFilter)
  | ret (r : Outcome (Option Nat)) (f : StanzaFilter)

def illegal (f : StanzaFilter) : Move :=
  .ret (.err (.illegalStanza (f.buf.take (f.cnt + 1)))) f

def stanzaEnd (f : StanzaFilter) : Move :=
  .ret (.ok (some (f.cnt + 1))) { f with tagCnt := 0, cnt := 0, state := .outsideStanza }

def lastNumBytes (f : StanzaFilter) (num : Nat) : Except Error Bytes :=
  if num - 1 ≤ f.cnt then .ok ((f.buf.take (f.cnt + 1)).drop (f.cnt - (num - 1)))
  else .error (.expectedBytes (num - 1) (f.cnt + 1))

def lastEquals (f : StanzaFilter) (needle : Bytes) : Except Error Bool :=
  (f.lastNumBytes needle.length).map (needle == ·)

/-- `self.tag_cnt = checked_sub(self.tag_cnt, n)?`, then `k`. -/
def subTagCnt (f : StanzaFilter) (n : Nat) (k : StanzaFilter → Move) : Move :=
  match checkedSub f.tagCnt n with
  | .ok d => k { f with tagCnt := d }
  | .error e => .ret (.err e) f

/-- `if self.last_equals(needle)? { yes } else { no }` -/
def ifLastEquals (f : StanzaFilter) (needle : Bytes) (yes no : Move) : Move :=
  match f.lastEquals needle with
  | .ok true => yes
  | .ok false => no
  | .error e => .ret (.err e) f

def markFirstTag (f : StanzaFilter) : StanzaFilter :=
  if f.endOfFirstTag = 0 then { f with endOfFirstTag := f.cnt } else f

/-- What follows the test for a self-closing tag when `InsideTag` reads a `>`. -/
def afterTag (f : StanzaFilter) : Move :=
  if f.tagCnt = 0 then f.stanzaEnd
  -- `<stream:stream ...>` is sent stand-alone
  else if f.tagCnt = 1 ∧ 15 ≤ f.buf.length ∧ bytes "<stream:stream " = f.buf.take 15 then f.stanzaEnd
  else .fall { f with state := .betweenTags }

/-- The `>` of `InsideTag`. The index `cnt - 1` underflows at zero. -/
def tagClosed (f : StanzaFilter) : Move :=
  let f := f.markFirstTag
  match f.cnt with
  | 0 => .ret .panic f
  | n + 1 =>
    if f.buf[n]? = some slash then f.subTagCnt 1 afterTag else f.afterTag

def dispatch (f : StanzaFilter) (b : UInt8) : Move :=
  match f.state with
  | .outsideStanza =>
    if b = lt then .fall { f with tagCnt := f.tagCnt + 1, state := .stanzaFirstChar }
    else .ret (.ok none) f
  | .betweenTags =>
    if b = lt then .fall { f with tagCnt := f.tagCnt + 1, state := .insideTagFirstChar }
    else .fall f
  | .stanzaFirstChar =>
    if b = slash then .fall { f with state := .endStream }
    else if b = bang ∨ b = gt ∨ b = apos ∨ b = quot then f.illegal
    else if b = quest then .fall { f with state := .questionTag (f.cnt + 4) }
    else .fall { f with state := .insideTag }
  | .insideTagFirstChar =>
    -- a `/` leaves the state as it is
    if b = slash then f.subTagCnt 2 .fall
    else if b = bang then .fall { f with state := .exclamationTag (f.cnt + 7) }
    else if b = quest ∨ b = gt ∨ b = apos ∨ b = quot then f.illegal
    else .fall { f with state := .insideTag }
  | .insideTag =>
    if b = gt then f.tagClosed
    else if b = apos ∨ b = quot then .fall { f with state := .insideAttribute b }
    else .fall f
  | .insideAttribute quote =>
    if b = quote then .fall { f with state := .insideTag } else .fall f
  | .questionTag idx =>
    if idx = f.cnt then
      f.ifLastEquals (bytes "xml ") (.fall { f with state := .insideXmlTag }) f.illegal
    else .fall f
  | .insideXmlTag => if b = gt then f.stanzaEnd else .fall f
  | .exclamationTag idx =>
    if idx = f.cnt then
      -- the state is assigned before `checked_sub` may fail
      f.ifLastEquals (bytes "[CDATA[") (({ f with state := .insideCDATA }).subTagCnt 1 .fall) f.illegal
    else .fall f
  | .insideCDATA =>
    if b = gt then f.ifLastEquals (bytes "]]>") (.fall { f with state := .betweenTags }) (.fall f)
    else .fall f
  | .endStream =>
    if b = gt then f.ifLastEquals (bytes "</stream:stream>") f.markFirstTag.stanzaEnd f.illegal
    else .fall f

/-- The end of `process_next_byte_idx`, reached when the `match` falls through. -/
def advance (f : StanzaFilter) : Outcome (Option Nat) × StanzaFilter :=
  let f := { f with cnt := f.cnt + 1 }
  if f.cnt = f.bufSize then (.err (.stanzaTooBig f.buf), f) else (.ok none, f)

def processNextByteIdx (f : StanzaFilter) : Outcome (Option Nat) × StanzaFilter :=
  match f.buf[f.cnt]? with
  | none => (.panic, f)
  | some b =>
    match f.dispatch b with
    | .ret r f' => (r, f')
    | .fall f' => f'.advance

/-- One turn of the loop of `StanzaReader::next` in which the read delivers `b`: `current_buf`
panics when `cnt` is past the end, and an emitted index becomes the slice `buf[0..idx]`. -/
def next (f : StanzaFilter) (b : UInt8) : Outcome (Option Bytes) × StanzaFilter :=
  if f.cnt < f.bufSize then
    let r := (f.setBuf f.cnt b).processNextByteIdx
    (do return (← r.1).map r.2.buf.take, r.2)
  else (.panic, f)

/-- The same turn of `StanzaReader::next_eoft`, which also hands out `end_of_first_tag` and clears
it. -/
def nextEoft (f : StanzaFilter) (b : UInt8) : Outcome (Option (Bytes × Nat)) × StanzaFilter :=
  match f.next b with
  | (.ok (some s), f') => (.ok (some (s, f'.endOfFirstTag)), { f' with endOfFirstTag := 0 })
  | (.ok none, f') => (.ok none, f')
  | (.err e, f') => (.err e, f')
  | (.panic, f') => (.panic, f')

end StanzaFilter

/-- The filter as a machine over the bytes read, through `next` and through `next_eoft`. -/
def filterNext : Lib.Machine StanzaFilter UInt8 (Outcome (Option Bytes)) := ⟨StanzaFilter.next⟩

def filterNextEoft : Lib.Machine StanzaFilter UInt8 (Outcome (Option (Bytes × Nat))) :=
  ⟨StanzaFilter.nextEoft⟩

end XmppProxy
