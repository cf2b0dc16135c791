import Mathlib.Data.Vector.Basic
import XmppProxy.Model.Bytes

/-! Addresses, as `Display` writes them. -/

namespace XmppProxy

inductive IpAddr where
  | v4 (octets : Vector UInt8 4)
  | v6 (segments : Vector UInt16 8)
  deriving DecidableEq, Repr

structure SocketAddr where
  ip : IpAddr
  port : UInt16
  deriving DecidableEq, Repr

def decimal (n : Nat) : Bytes := (Nat.toDigits 10 n).map Char.toUInt8

def hex (n : Nat) : Bytes := (Nat.toDigits 16 n).map Char.toUInt8

def joined (sep : UInt8) : List Bytes → Bytes
  | [] => []
  | [w] => w
  | w :: ws => w ++ sep :: joined sep ws

structure Span where
  start : Nat
  len : Nat

/-- The first of the longest runs of zeros. -/
def longestZeros (segments : List UInt16) : Span :=
  (segments.zipIdx.foldl (fun (longest, current) (segment, i) =>
    if segment = 0 then
      let current : Span := if current.len = 0 then ⟨i, 1⟩ else ⟨current.start, current.len + 1⟩
      (if current.len > longest.len then current else longest, current)
    else (longest, ⟨0, 0⟩)) ((⟨0, 0⟩ : Span), (⟨0, 0⟩ : Span))).1

def displayV4 (octets : List UInt8) : Bytes := joined 46 (octets.map fun o => decimal o.toNat)

def displaySegments (segments : List UInt16) : Bytes := joined 58 (segments.map fun s => hex s.toNat)

def displayV6 (segments : List UInt16) : Bytes :=
  match segments with
  -- `to_ipv4_mapped`
  | [0, 0, 0, 0, 0, 0xffff, ab, cd] =>
    bytes "::ffff:" ++ displayV4 [(ab >>> 8).toUInt8, ab.toUInt8, (cd >>> 8).toUInt8, cd.toUInt8]
  | segments =>
    let zeros := longestZeros segments
    if zeros.len > 1 then
      displaySegments (segments.take zeros.start) ++ bytes "::" ++
        displaySegments (segments.drop (zeros.start + zeros.len))
    else displaySegments segments

namespace IpAddr

def ofV4 (a b c d : UInt8) : IpAddr := v4 #v[a, b, c, d]

def isIpv4 : IpAddr → Bool
  | v4 _ => true
  | v6 _ => false

def display : IpAddr → Bytes
  | v4 octets => displayV4 octets.toList
  | v6 segments => displayV6 segments.toList

end IpAddr

end XmppProxy
