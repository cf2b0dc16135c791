import XmppProxy.Lib.Utf8
import XmppProxy.Model.SliceSubsequence

/-! The two directions of RFC 7395 framing. A `String` is the list of its UTF-8 bytes, in which
replacing an ASCII pattern is the same as replacing it character by character. -/

namespace XmppProxy

open Lib

structure WebSocketConfig where
  maxFrameSize : Option Nat
  maxMessageSize : Option Nat
  acceptUnmaskedFrames : Bool

def wsCfg (maxStanzaSizeBytes : Nat) : WebSocketConfig where
  maxFrameSize := some maxStanzaSizeBytes
  maxMessageSize := some (maxStanzaSizeBytes * 4)
  acceptUnmaskedFrames := true

/-- `str::from_utf8`, and `String::from_utf8` on a copy. -/
def fromUtf8 (buf : Bytes) : Outcome Bytes := if Utf8.Valid buf then .ok buf else .err .utf8

/-- The library puts together a Text message that arrives in these frames. -/
structure WebSocketConfig.Admits (cfg : WebSocketConfig) (frames : List Bytes) : Prop where
  frameSize : ∀ n ∈ cfg.maxFrameSize, ∀ frame ∈ frames, frame.length ≤ n
  messageSize : ∀ n ∈ cfg.maxMessageSize, frames.flatten.length ≤ n
  utf8 : Utf8.Valid frames.flatten

def fromWs (stanza : Bytes) : Bytes :=
  if bytes "<open " <+: stanza then
    let stanza := replaceAll (bytes "<open ") (bytes "<stream:stream ") stanza
    let stanza := replaceAll (bytes "urn:ietf:params:xml:ns:xmpp-framing-server")
      (bytes "jabber:server") stanza
    let stanza := replaceAll (bytes "urn:ietf:params:xml:ns:xmpp-framing") (bytes "jabber:client") stanza
    if bytes "xmlns:stream=" <:+: stanza then replaceAll (bytes "/>") (bytes ">") stanza
    else replaceAll (bytes "/>") (bytes " xmlns:stream=\"http://etherx.jabber.org/streams\">") stanza
  else if bytes "<close " <+: stanza then bytes "</stream:stream>"
  else stanza

def closeFrame : Bytes := bytes "<close xmlns=\"urn:ietf:params:xml:ns:xmpp-framing\" />"

/-- The end of `to_ws_new`: namespace declarations that are missing go in front of the end of the first
tag. -/
def addXmlns (buf : Bytes) (endOfFirstTag : Nat) (isC2s : Bool) : Outcome Bytes :=
  let firstTagBytes := buf.take endOfFirstTag
  let hasXmlns := containsSeq firstTagBytes (bytes " xmlns='") ||
    containsSeq firstTagBytes (bytes " xmlns=\"")
  let hasXmlnsStream := !containsSeq firstTagBytes (bytes "stream:") ||
    (containsSeq firstTagBytes (bytes " xmlns:stream='") ||
      containsSeq firstTagBytes (bytes " xmlns:stream=\""))
  if hasXmlns && hasXmlnsStream then fromUtf8 buf
  else do
    let head ← fromUtf8 firstTagBytes
    let tail ← fromUtf8 (buf.drop endOfFirstTag)
    let xmlns :=
      if hasXmlns then []
      else if isC2s then bytes " xmlns='jabber:client'" else bytes " xmlns='jabber:server'"
    let xmlnsStream :=
      if hasXmlnsStream then [] else bytes " xmlns:stream='http://etherx.jabber.org/streams'"
    return head ++ xmlns ++ xmlnsStream ++ tail

def toWsNew (buf : Bytes) (endOfFirstTag : Nat) (isC2s : Bool) : Outcome Bytes :=
  if bytes "<stream:stream " <+: buf then do
    let buf ← fromUtf8 buf
    let buf := replaceAll (bytes "<stream:stream ") (bytes "<open ") buf
    let buf := replaceAll (bytes "jabber:server") (bytes "urn:ietf:params:xml:ns:xmpp-framing-server") buf
    let buf := replaceAll (bytes "jabber:client") (bytes "urn:ietf:params:xml:ns:xmpp-framing") buf
    return replaceSymbol gt (bytes "/>") buf
  else if endOfFirstTag = 0 then fromUtf8 buf
  else if bytes "</stream:stream" <+: buf then .ok closeFrame
  else
    match buf[endOfFirstTag - 1]? with
    | none => .panic
    | some c => addXmlns buf (if c = slash then endOfFirstTag - 1 else endOfFirstTag) isC2s

end XmppProxy
