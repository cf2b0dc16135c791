import Mathlib.Data.Int.Notation
import Mathlib.Data.List.Basic

/-! The sockets that systemd passes, and what they are to `main`. -/

namespace XmppProxy

namespace Systemd

inductive SockType where
  | stream
  | datagram
  | seqPacket
  | raw
  | rdm
  deriving DecidableEq, Repr

inductive AddressFamily where
  | inet
  | inet6
  | unix
  /-- `AF_NETLINK`, `AF_VSOCK` and the others, by number. -/
  | other (family : Nat)
  deriving DecidableEq, Repr

/-- What the kernel knows of each descriptor; `none` where the call fails, as it does for a file. Only a
stream socket listens. -/
structure Kernel where
  acceptConn : Int → Option Bool
  sockType : Int → Option SockType
  family : Int → Option AddressFamily
  listens : ∀ fd, acceptConn fd = some true → sockType fd = some .stream

def SD_LISTEN_FDS_START : Int := 3

structure FileDescriptor where
  rawFd : Int
  tcpNotUdp : Bool
  inetNotUnix : Bool
  name : Option String
  deriving DecidableEq, Repr

inductive SystemdListener where
  | tcp (rawFd : Int)
  | udp (rawFd : Int)
  | unixListener (rawFd : Int)
  | unixDatagram (rawFd : Int)
  deriving DecidableEq, Repr

def FileDescriptor.listener (fd : FileDescriptor) : SystemdListener :=
  match fd.tcpNotUdp, fd.inetNotUnix with
  | true, true => .tcp fd.rawFd
  | false, true => .udp fd.rawFd
  | true, false => .unixListener fd.rawFd
  | false, false => .unixDatagram fd.rawFd

def asI32 (n : Nat) : Int := (n : Int).bmod 4294967296

def checkedAdd (a b : Int) : Option Int :=
  if -2147483648 ≤ a + b ∧ a + b ≤ 2147483647 then some (a + b) else none

def sockListening (kernel : Kernel) (rawFd : Int) : Bool := (kernel.acceptConn rawFd).getD false

def tcpNotUdp : Option SockType → Option Bool
  | some .stream => some true
  | some .datagram => some false
  | _ => none

def inetNotUnix : Option AddressFamily → Option Bool
  | some .inet => some true
  | some .inet6 => some true
  | some .unix => some false
  | _ => none

/-- The descriptor that one turn of the loop pushes, unless the turn ends in a `continue`. -/
def descriptor (kernel : Kernel) (rawFd : Int) (name : Option String) : Option FileDescriptor :=
  if sockListening kernel rawFd then do
    let tcpNotUdp ← tcpNotUdp (kernel.sockType rawFd)
    let inetNotUnix ← inetNotUnix (kernel.family rawFd)
    return { rawFd, tcpNotUdp, inetNotUnix, name }
  else none

/-- The loop over the offsets that are left, with the iterator over the names. -/
def socksFromOffsets (kernel : Kernel) (numFds : Nat) :
    List Nat → List String → List FileDescriptor → Except String (List FileDescriptor)
  | [], _, descriptors => .ok descriptors
  | fdOffset :: offsets, names, descriptors => do
    let rawFd ← (checkedAdd SD_LISTEN_FDS_START (asI32 fdOffset)).elim
      (.error s!"overlarge file descriptor index: {numFds}") .ok
    match descriptor kernel rawFd names.head? with
    | none => socksFromOffsets kernel numFds offsets names.tail descriptors
    | some fd => socksFromOffsets kernel numFds offsets names.tail (descriptors ++ [fd])

def socksFromFds (kernel : Kernel) (numFds : Nat) (names : List String) :
    Except String (List FileDescriptor) :=
  socksFromOffsets kernel numFds (List.range numFds) names []

end Systemd
end XmppProxy
