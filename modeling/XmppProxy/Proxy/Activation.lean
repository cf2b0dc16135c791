import Mathlib.Tactic.Cases
import XmppProxy.Model.Systemd

/-! Which of the sockets that systemd passes come back, and under which names: the offsets and the
names stay in step over any descriptors that are left out, but none that takes datagrams ever listens. -/

namespace XmppProxy.Systemd

variable {kernel : Kernel} {fd : Int} {name : Option String} {d : FileDescriptor}

def i32Max : Nat := 2147483647

def Kernel.Datagram (kernel : Kernel) (fd : Int) : Prop :=
  kernel.sockType fd = some .datagram ∧
    (kernel.family fd = some .inet ∨ kernel.family fd = some .inet6 ∨ kernel.family fd = some .unix)

def Kernel.ListeningStream (kernel : Kernel) (fd : Int) : Prop :=
  kernel.acceptConn fd = some true ∧ kernel.sockType fd = some .stream ∧
    (kernel.family fd = some .inet ∨ kernel.family fd = some .inet6 ∨ kernel.family fd = some .unix)

instance : Decidable (kernel.Datagram fd) := by
  unfold Kernel.Datagram
  infer_instance

instance : Decidable (kernel.ListeningStream fd) := by
  unfold Kernel.ListeningStream
  infer_instance

def Kernel.passed (kernel : Kernel) (names : List String) (i : Nat) : Option FileDescriptor :=
  if kernel.ListeningStream (3 + i) ∨ kernel.Datagram (3 + i) then
    some {
      rawFd := 3 + i
      tcpNotUdp := kernel.sockType (3 + i) = some .stream
      inetNotUnix := kernel.family (3 + i) ≠ some .unix
      name := names[i]? }
  else none

theorem checkedAdd_offset {i : Nat} (hi : i < i32Max - 3) :
    checkedAdd SD_LISTEN_FDS_START (asI32 i) = some (3 + (i : Int)) := by
  unfold i32Max at hi
  have hwrap : asI32 i = i := by
    unfold asI32
    rw [Int.bmod_eq_of_le] <;> omega
  rw [hwrap, checkedAdd, SD_LISTEN_FDS_START, if_pos ⟨by omega, by omega⟩]

theorem socksFromOffsets_cons {numFds i : Nat} {offsets : List Nat} {names : List String}
    {ds : List FileDescriptor} (hadd : checkedAdd SD_LISTEN_FDS_START (asI32 i) = some fd) :
    socksFromOffsets kernel numFds (i :: offsets) names ds =
      socksFromOffsets kernel numFds offsets names.tail (ds ++ (descriptor kernel fd names.head?).toList) := by
  rw [socksFromOffsets, hadd]
  simp only [Option.elim_some, bind, Except.bind]
  cases descriptor kernel fd names.head? with
  | none => rw [Option.toList_none, List.append_nil]
  | some d => rfl

theorem socksFromOffsets_eq {numFds start n limit : Nat} {names : List String} {ds : List FileDescriptor}
    (hadd : ∀ i < limit, checkedAdd SD_LISTEN_FDS_START (asI32 i) = some (3 + (i : Int)))
    (hn : start + n ≤ limit) :
    socksFromOffsets kernel numFds (List.range' start n) (names.drop start) ds =
      .ok (ds ++ (List.range' start n).filterMap fun i : Nat => descriptor kernel (3 + i) names[i]?) := by
  induction n generalizing start ds with
  | zero =>
    rw [List.range'_zero, List.filterMap_nil, List.append_nil]
    rfl
  | succ n ih =>
    -- the iterator over the names moves on, whatever becomes of the descriptor
    rw [List.range'_succ, socksFromOffsets_cons (hadd start (by omega)), List.tail_drop, ih (by omega),
      List.filterMap_cons, List.head?_drop, List.append_assoc]
    cases descriptor kernel (3 + start) names[start]? with
    | none => rfl
    | some d => rfl

theorem socksFromFds_eq {numFds : Nat} (hn : numFds ≤ i32Max - 3) (names : List String) :
    socksFromFds kernel numFds names =
      .ok ((List.range numFds).filterMap fun i : Nat => descriptor kernel (3 + i) names[i]?) := by
  unfold socksFromFds
  rw [List.range_eq_range', ← List.drop_zero (l := names)]
  exact socksFromOffsets_eq (fun _ => checkedAdd_offset) (by omega)

theorem descriptor_eq (fd : Int) (name : Option String) : descriptor kernel fd name =
    if kernel.ListeningStream fd then
      some { rawFd := fd, tcpNotUdp := true, inetNotUnix := kernel.family fd ≠ some .unix, name }
    else none := by
  unfold descriptor sockListening
  rcases hacc : kernel.acceptConn fd with _ | accepts
  · rw [if_neg fun hl : kernel.ListeningStream fd => by cases hacc.symm.trans hl.1]
    rfl
  cases accepts with
  | false =>
    rw [if_neg fun hl : kernel.ListeningStream fd => by cases hacc.symm.trans hl.1]
    rfl
  | true =>
    rw [Option.getD_some, if_pos rfl, kernel.listens fd hacc]
    rcases hfam : kernel.family fd with _ | family
    · exact (if_neg fun hl : kernel.ListeningStream fd => by simpa [hfam] using hl.2.2).symm
    cases family with
    | inet => exact (if_pos ⟨hacc, kernel.listens fd hacc, .inl hfam⟩).symm
    | inet6 => exact (if_pos ⟨hacc, kernel.listens fd hacc, .inr (.inl hfam)⟩).symm
    | unix => exact (if_pos ⟨hacc, kernel.listens fd hacc, .inr (.inr hfam)⟩).symm
    | other f => exact (if_neg fun hl : kernel.ListeningStream fd => by simpa [hfam] using hl.2.2).symm

theorem descriptor_stream (h : descriptor kernel fd name = some d) : d.tcpNotUdp = true := by
  rw [descriptor_eq] at h
  split_ifs at h
  obtain rfl := Option.some.inj h
  rfl

theorem passed_of_stream {names : List String} {i : Nat} (h : ¬ kernel.Datagram (3 + i)) :
    kernel.passed names i = descriptor kernel (3 + i) names[i]? := by
  rw [descriptor_eq, Kernel.passed]
  by_cases hl : kernel.ListeningStream (3 + i)
  · rw [if_pos (.inl hl), if_pos hl, hl.2.1]
    rfl
  · rw [if_neg (not_or.mpr ⟨hl, h⟩), if_neg hl]

theorem passed_of_datagram (names : List String) {i : Nat} (h : kernel.Datagram (3 + i)) :
    ∃ d, kernel.passed names i = some d ∧ d.tcpNotUdp = false := by
  rw [Kernel.passed, if_pos (.inr h), h.1]
  exact ⟨_, rfl, rfl⟩

theorem datagram_lost {numFds i : Nat} (hn : numFds ≤ i32Max - 3) {names : List String} (hi : i < numFds)
    (hd : kernel.Datagram (3 + i)) :
    socksFromFds kernel numFds names ≠ .ok ((List.range numFds).filterMap (kernel.passed names)) := by
  intro heq
  rw [socksFromFds_eq hn, Except.ok.injEq] at heq
  obtain ⟨d, hpassed, hudp⟩ := passed_of_datagram names hd
  have hmem : d ∈ (List.range numFds).filterMap (kernel.passed names) :=
    List.mem_filterMap.mpr ⟨i, List.mem_range.mpr hi, hpassed⟩
  rw [← heq] at hmem
  obtain ⟨j, -, hj⟩ := List.mem_filterMap.mp hmem
  cases hudp.symm.trans (descriptor_stream hj)

/-- What comes back is what should exactly where no socket that was passed takes datagrams. -/
theorem socks_from_fds_iff (kernel : Kernel) (numFds : Nat) (hn : numFds ≤ i32Max - 3) (names : List String) :
    socksFromFds kernel numFds names = .ok ((List.range numFds).filterMap (kernel.passed names)) ↔
      ∀ i : Nat, i < numFds → ¬ kernel.Datagram (3 + i) := by
  refine ⟨fun heq i hi hd => datagram_lost hn hi hd heq, fun hnone => ?_⟩
  rw [socksFromFds_eq hn]
  refine congrArg Except.ok (List.filterMap_congr fun i hi => ?_)
  exact (passed_of_stream (hnone i (List.mem_range.mp hi))).symm

/-- A listening TCP socket at each descriptor behind those that take UDP. -/
def udpThenTcp (udp : Nat) : Kernel where
  acceptConn fd := some (decide (3 + udp ≤ fd))
  sockType fd := some (if 3 + udp ≤ fd then .stream else .datagram)
  family _ := some .inet
  listens := by
    intro fd h
    rw [if_pos (of_decide_eq_true (Option.some.inj h))]

theorem socks_from_fds_tcp :
    socksFromFds (udpThenTcp 0) 2 ["in"] = .ok ((List.range 2).filterMap ((udpThenTcp 0).passed ["in"])) ↔
      ∀ i : Nat, i < 2 → ¬ (udpThenTcp 0).Datagram (3 + i) :=
  socks_from_fds_iff (udpThenTcp 0) 2 (by decide) ["in"]

/-- A UDP socket in front of a TCP socket is lost. -/
theorem socks_from_fds_udp_lost :
    ¬ ∀ kernel numFds, numFds ≤ i32Max - 3 → ∀ names,
      socksFromFds kernel numFds names = .ok ((List.range numFds).filterMap (kernel.passed names)) := by
  intro h
  have hudp : (udpThenTcp 1).Datagram (3 + (0 : Nat)) := by decide
  exact datagram_lost (by decide) (by decide) hudp (h (udpThenTcp 1) 2 (by decide) ["quic", "in"])

end XmppProxy.Systemd
