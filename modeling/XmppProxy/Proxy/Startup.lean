import XmppProxy.Model.Main
import XmppProxy.Proxy.Activation

/-! When `main` starts, and what it starts then: one task for each socket, in the place that the configuration
or the socket's name gives it. -/

namespace XmppProxy

open Systemd

theorem Except.bind_eq_ok {ε α β : Type} {x : Except ε α} {f : α → Except ε β} {b : β} :
    (x >>= f) = .ok b ↔ ∃ a, x = .ok a ∧ f a = .ok b := by
  cases x with
  | error e => exact ⟨fun h => (nomatch h), fun ⟨_, h, _⟩ => (nomatch h)⟩
  | ok a => exact ⟨fun h => ⟨a, rfl, h⟩, fun ⟨_, ha, h⟩ => Except.ok.inj ha ▸ h⟩

theorem Except.mapError_eq_ok {ε ε' α : Type} {x : Except ε α} {f : ε → ε'} {a : α} :
    x.mapError f = .ok a ↔ x = .ok a := by
  cases x with
  | error e => exact ⟨fun h => (nomatch h), fun h => (nomatch h)⟩
  | ok b => exact ⟨fun h => congrArg _ (Except.ok.inj h), fun h => congrArg _ (Except.ok.inj h)⟩

theorem Except.mapM_eq_ok {ε α β : Type} {f : α → Except ε β} {P : α → Prop} {g : α → β}
    (hf : ∀ a b, f a = .ok b ↔ P a ∧ b = g a) {as : List α} {bs : List β} :
    as.mapM f = .ok bs ↔ (∀ a ∈ as, P a) ∧ bs = as.map g := by
  induction as generalizing bs with
  | nil => exact ⟨fun h => ⟨fun _ ha => (nomatch ha), (Except.ok.inj h).symm⟩, fun ⟨_, h⟩ => congrArg Except.ok h.symm⟩
  | cons a as ih =>
    rw [List.mapM_cons, Except.bind_eq_ok, List.forall_mem_cons]
    constructor
    · rintro ⟨b, hb, hbs⟩
      obtain ⟨bs', hbs', h⟩ := Except.bind_eq_ok.mp hbs
      obtain ⟨ha, rfl⟩ := (hf a b).mp hb
      obtain ⟨has, rfl⟩ := ih.mp hbs'
      exact ⟨⟨ha, has⟩, (Except.ok.inj h).symm⟩
    · rintro ⟨⟨ha, has⟩, rfl⟩
      exact ⟨g a, (hf a (g a)).mpr ⟨ha, rfl⟩, Except.bind_eq_ok.mpr ⟨as.map g, ih.mpr ⟨has, rfl⟩, rfl⟩⟩

def boundFrom {α : Type} (socket : Nat → SocketAddrPath → α) (n : Nat) (listen : List SocketAddrPath) : List α :=
  (listen.zipIdx n).map fun x => socket x.2 x.1

theorem bindAll_eq_ok {α : Type} {outside : Outside} {socket : Nat → SocketAddrPath → α}
    {failed : SocketAddrPath → Error → Exit} {n : Nat} {listen : List SocketAddrPath} {ls : List α} :
    bindAll outside socket failed n listen = .ok ls ↔
      (∀ x ∈ listen.zipIdx n, outside.bind x.2 x.1 = .ok ()) ∧ ls = boundFrom socket n listen := by
  induction listen generalizing n ls with
  | nil =>
    rw [bindAll]
    exact ⟨fun h => ⟨fun _ hx => (nomatch hx), (Except.ok.inj h).symm⟩, fun ⟨_, h⟩ => congrArg Except.ok h.symm⟩
  | cons a listen ih =>
    rw [bindAll, List.zipIdx_cons, List.forall_mem_cons]
    cases hbind : outside.bind n a with
    | error e => exact ⟨fun h => (nomatch h), fun ⟨⟨h, _⟩, _⟩ => (nomatch h)⟩
    | ok u =>
      dsimp only
      rw [Except.bind_eq_ok]
      constructor
      · rintro ⟨rest, hrest, hls⟩
        obtain ⟨hall, rfl⟩ := ih.mp hrest
        exact ⟨⟨rfl, hall⟩, (Except.ok.inj hls).symm⟩
      · rintro ⟨⟨-, hall⟩, rfl⟩
        exact ⟨_, ih.mpr ⟨hall, rfl⟩, rfl⟩

def Systemd.FileDescriptor.named (word : String) (fd : FileDescriptor) : Bool :=
  fd.name.any fun name => word.toList <+: name.toList.map Char.toLower

def Systemd.FileDescriptor.stream (fd : FileDescriptor) : Listener :=
  if fd.inetNotUnix then .tcp (.passed fd.rawFd) else .unix (.passed fd.rawFd)

def receivedFor (word : String) (fds : List FileDescriptor) : List Listener :=
  (fds.filter fun fd => fd.named word).map FileDescriptor.stream

theorem not_named_out {fd : FileDescriptor} (h : fd.named "in" = true) : fd.named "out" = false := by
  unfold FileDescriptor.named at h ⊢
  cases hname : fd.name with
  | none => rfl
  | some name =>
    rw [hname] at h
    obtain ⟨u, hu⟩ := of_decide_eq_true h
    refine decide_eq_false ?_
    rintro ⟨v, hv⟩
    rw [← hu] at hv
    cases hv

/-- A stream socket can be placed when it can be opened and has a name for it. -/
def Outside.Placeable (outside : Outside) (fd : FileDescriptor) : Prop :=
  outside.fromStd fd.rawFd = .ok () ∧ (fd.named "in" = true ∨ fd.named "out" = true)

def Listeners.add (ls : Listeners) (fds : List FileDescriptor) : Listeners where
  incoming := ls.incoming ++ receivedFor "in" fds
  quic := ls.quic
  outgoing := ls.outgoing ++ receivedFor "out" fds

theorem Listeners.add_single (ls : Listeners) (fd : FileDescriptor) : ls.add [fd] =
    ⟨ls.incoming ++ (if fd.named "in" then [fd.stream] else []), ls.quic,
      ls.outgoing ++ (if fd.named "out" then [fd.stream] else [])⟩ := by
  unfold Listeners.add receivedFor
  congr 2
  · cases hin : fd.named "in" <;> simp [hin]
  · cases hout : fd.named "out" <;> simp [hout]

theorem placeNamed_eq_ok {unix : Bool} {fd : FileDescriptor} {ls ls' : Listeners} :
    ls.placeNamed unix fd.stream fd.name = .ok ls' ↔
      (fd.named "in" = true ∨ fd.named "out" = true) ∧ ls' = ls.add [fd] := by
  rw [Listeners.add_single]
  unfold Listeners.placeNamed
  cases hname : fd.name with
  | none =>
    have hnone (word : String) : fd.named word = false := by
      unfold FileDescriptor.named
      rw [hname]
      rfl
    rw [hnone, hnone]
    exact ⟨fun h => (nomatch h), fun ⟨h, _⟩ => absurd h (by decide)⟩
  | some name =>
    have hnamed (word : String) : fd.named word = decide (word.toList <+: name.toList.map Char.toLower) := by
      unfold FileDescriptor.named
      rw [hname]
      rfl
    dsimp only [Option.map_some]
    by_cases hin : "in".toList <+: name.toList.map Char.toLower
    · have hin' : fd.named "in" = true := (hnamed "in").trans (decide_eq_true hin)
      rw [if_pos hin, hin', not_named_out hin']
      exact ⟨fun h => ⟨.inl rfl, (Except.ok.inj h).symm.trans (by simp)⟩, fun ⟨_, h⟩ => by rw [h]; simp⟩
    · have hin' : fd.named "in" = false := (hnamed "in").trans (decide_eq_false hin)
      rw [if_neg hin, hin']
      by_cases hout : "out".toList <+: name.toList.map Char.toLower
      · have hout' : fd.named "out" = true := (hnamed "out").trans (decide_eq_true hout)
        rw [if_pos hout, hout']
        exact ⟨fun h => ⟨.inr rfl, (Except.ok.inj h).symm.trans (by simp)⟩, fun ⟨_, h⟩ => by rw [h]; simp⟩
      · rw [if_neg hout, (hnamed "out").trans (decide_eq_false hout)]
        exact ⟨fun h => (nomatch h), fun ⟨h, _⟩ => absurd h (by decide)⟩

theorem place_eq_ok {outside : Outside} {fd : FileDescriptor} (hstream : fd.tcpNotUdp = true) {ls ls' : Listeners} :
    ls.place outside fd = .ok ls' ↔ outside.Placeable fd ∧ ls' = ls.add [fd] := by
  unfold Outside.Placeable
  cases hopen : outside.fromStd fd.rawFd with
  | error e =>
    have hplaced : ∃ unix, ls.place outside fd = .error (.systemdOpen unix) := by
      unfold Listeners.place FileDescriptor.listener
      rw [hstream]
      cases fd.inetNotUnix with
      | true => exact ⟨false, by simp only [hopen]⟩
      | false => exact ⟨true, by simp only [hopen]⟩
    obtain ⟨unix, hplaced⟩ := hplaced
    rw [hplaced]
    exact ⟨fun h => (nomatch h), fun ⟨⟨h, _⟩, _⟩ => (nomatch h)⟩
  | ok u =>
    have hplaced : ∃ unix, ls.place outside fd = ls.placeNamed unix fd.stream fd.name := by
      unfold Listeners.place FileDescriptor.listener FileDescriptor.stream
      rw [hstream]
      cases fd.inetNotUnix with
      | true => exact ⟨false, by simp only [hopen, if_true]⟩
      | false => exact ⟨true, by simp only [hopen, reduceCtorEq, if_false]⟩
    obtain ⟨unix, hplaced⟩ := hplaced
    rw [hplaced]
    exact placeNamed_eq_ok.trans ⟨fun ⟨hn, h⟩ => ⟨⟨rfl, hn⟩, h⟩, fun ⟨⟨_, hn⟩, h⟩ => ⟨hn, h⟩⟩

theorem Listeners.add_add (ls : Listeners) (fds fds' : List FileDescriptor) :
    (ls.add fds).add fds' = ls.add (fds ++ fds') := by
  unfold Listeners.add receivedFor
  simp only [List.filter_append, List.map_append, List.append_assoc]

theorem foldlM_place_eq_ok {outside : Outside} {fds : List FileDescriptor}
    (hstream : ∀ fd ∈ fds, fd.tcpNotUdp = true) {ls ls' : Listeners} :
    fds.foldlM (Listeners.place outside) ls = .ok ls' ↔
      (∀ fd ∈ fds, outside.Placeable fd) ∧ ls' = ls.add fds := by
  induction fds generalizing ls with
  | nil =>
    have hadd : ls.add [] = ls := by simp [Listeners.add, receivedFor]
    rw [List.foldlM_nil, hadd]
    exact ⟨fun h => ⟨fun _ hx => (nomatch hx), (Except.ok.inj h).symm⟩, fun ⟨_, h⟩ => congrArg Except.ok h.symm⟩
  | cons fd fds ih =>
    rw [List.forall_mem_cons] at hstream
    have hcons : (ls.add [fd]).add fds = ls.add (fd :: fds) := ls.add_add [fd] fds
    rw [List.foldlM_cons, Except.bind_eq_ok, List.forall_mem_cons, ← hcons]
    constructor
    · rintro ⟨ls₁, hfd, hrest⟩
      obtain ⟨hplace, rfl⟩ := (place_eq_ok hstream.1).mp hfd
      obtain ⟨hall, rfl⟩ := (ih hstream.2).mp hrest
      exact ⟨⟨hplace, hall⟩, rfl⟩
    · rintro ⟨⟨hplace, hall⟩, rfl⟩
      exact ⟨_, (place_eq_ok hstream.1).mpr ⟨hplace, rfl⟩, (ih hstream.2).mpr ⟨hall, rfl⟩⟩

theorem socksFromOffsets_ok {kernel : Kernel} {numFds : Nat} {offsets : List Nat} {names : List String}
    {ds ds' : List FileDescriptor} (h : socksFromOffsets kernel numFds offsets names ds = .ok ds') :
    (∀ i ∈ offsets, checkedAdd SD_LISTEN_FDS_START (asI32 i) ≠ none) ∧
      ∃ rest, ds' = ds ++ rest ∧ (∀ d ∈ rest, d.tcpNotUdp = true) ∧
        List.Sublist (rest.map FileDescriptor.rawFd) (offsets.map fun i => SD_LISTEN_FDS_START + asI32 i) := by
  induction offsets generalizing names ds with
  | nil =>
    obtain rfl := Except.ok.inj h
    exact ⟨fun _ hi => (nomatch hi), [], (List.append_nil _).symm, fun _ hd => (nomatch hd), List.Sublist.slnil⟩
  | cons i offsets ih =>
    cases hadd : checkedAdd SD_LISTEN_FDS_START (asI32 i) with
    | none =>
      rw [socksFromOffsets, hadd] at h
      cases h
    | some fd =>
      have hfd : fd = SD_LISTEN_FDS_START + asI32 i := by
        unfold checkedAdd at hadd
        split_ifs at hadd
        exact (Option.some.inj hadd).symm
      rw [socksFromOffsets_cons hadd] at h
      obtain ⟨hsome, rest, rfl, hstream, hsub⟩ := ih h
      refine ⟨List.forall_mem_cons.mpr ⟨by rw [hadd]; exact Option.some_ne_none fd, hsome⟩,
        (descriptor kernel fd names.head?).toList ++ rest, List.append_assoc .., ?_, ?_⟩
      · intro d hd
        rcases List.mem_append.mp hd with hd | hd
        · exact descriptor_stream (Option.mem_toList.mp hd)
        · exact hstream d hd
      · rw [List.map_cons]
        cases hd : descriptor kernel fd names.head? with
        | none => exact hsub.cons _
        | some d =>
          have hraw : d.rawFd = SD_LISTEN_FDS_START + asI32 i := by
            rw [descriptor_eq] at hd
            split_ifs at hd
            rw [← Option.some.inj hd, ← hfd]
          rw [Option.toList_some, List.map_append, List.map_singleton, hraw]
          exact hsub.cons_cons _

theorem socksFromFds_ok {kernel : Kernel} {numFds : Nat} {names : List String} {ds : List FileDescriptor}
    (h : socksFromFds kernel numFds names = .ok ds) :
    (∀ d ∈ ds, d.tcpNotUdp = true) ∧ (ds.map FileDescriptor.rawFd).Nodup := by
  obtain ⟨hsome, rest, rfl, hstream, hsub⟩ := socksFromOffsets_ok h
  have hshort : numFds ≤ 2147483645 := by
    by_contra hlong
    exact hsome 2147483645 (List.mem_range.mpr (Nat.lt_of_not_le hlong)) (by decide)
  have hwrap {i : Nat} (hi : i ∈ List.range numFds) : asI32 i = i := by
    have hlt := List.mem_range.mp hi
    unfold asI32
    rw [Int.bmod_eq_of_le] <;> omega
  refine ⟨hstream, hsub.nodup (List.Nodup.map_on (fun i hi j hj heq => ?_) List.nodup_range)⟩
  rw [hwrap hi, hwrap hj] at heq
  omega

section

variable {PrivateKey Key Cert : Type} (outside : Outside) (files : Files PrivateKey Key Cert) (config : Config)

/-- The descriptors that `receive_descriptors_with_names` returns, or none where it fails. Of those that systemd
passes these are the stream sockets that listen: datagram sockets and all others are skipped. -/
def Outside.received : List FileDescriptor :=
  match receiveDescriptorsWithNames outside with
  | .ok fds => fds
  | .error _ => []

theorem Outside.received_ok : (∀ fd ∈ outside.received, fd.tcpNotUdp = true) ∧
    (outside.received.map FileDescriptor.rawFd).Nodup := by
  unfold Outside.received
  split
  next fds hfds =>
    unfold receiveDescriptorsWithNames at hfds
    simp only [Except.bind_eq_ok] at hfds
    obtain ⟨_, -, _, -, _, -, _, -, hfds⟩ := hfds
    split_ifs at hfds
    · obtain ⟨_, h, -⟩ := Except.bind_eq_ok.mp hfds
      cases h
    · exact socksFromFds_ok hfds
  · exact ⟨fun _ hd => (nomatch hd), List.nodup_nil⟩

def Config.incoming (outside : Outside) : List Listener :=
  boundFrom SocketAddrPath.bind 0 config.incomingListen ++ receivedFor "in" outside.received

def Config.quic : List UdpListener := boundFrom SocketAddrPath.bindUdp config.incomingListen.length config.quicListen

def Config.outgoing (outside : Outside) : List Listener :=
  boundFrom SocketAddrPath.bind (config.incomingListen.length + config.quicListen.length) config.outgoingListen ++
    receivedFor "out" outside.received

def Config.listen : List SocketAddrPath := config.incomingListen ++ config.quicListen ++ config.outgoingListen

/-- Every address can be bound and every stream socket that is received has a place; whoever takes connections
from outside has somewhere to send them and a certificate; and there is something to do. -/
structure Startable : Prop where
  binds : ∀ x ∈ config.listen.zipIdx, outside.bind x.2 x.1 = .ok ()
  places : ∀ fd ∈ outside.received, outside.Placeable fd
  serves : config.incoming outside ≠ [] ∨ config.quic ≠ [] → config.hasTarget = true ∧
    ∃ certKey, config.certsKey files = .ok certKey
  quic : config.quic ≠ [] → outside.quicServerConfig = .ok () ∧ ∀ l ∈ config.quic, outside.quicListener l = .ok ()
  busy : config.incoming outside ≠ [] ∨ config.quic ≠ [] ∨ config.outgoing outside ≠ []

def Config.tasks : List Task :=
  (config.incoming outside).map .tls ++ config.quic.map .quic ++ (config.outgoing outside).map .outgoing

theorem placeAll_eq_ok {ls ls' : Listeners} : ls.placeAll outside = .ok ls' ↔
    (∀ fd ∈ outside.received, outside.Placeable fd) ∧ ls' = ls.add outside.received := by
  have hstream := outside.received_ok.1
  unfold Listeners.placeAll
  unfold Outside.received at hstream ⊢
  cases hfds : receiveDescriptorsWithNames outside with
  | ok fds =>
    rw [hfds] at hstream
    exact foldlM_place_eq_ok hstream
  | error e =>
    have hadd : ls.add [] = ls := by simp [Listeners.add, receivedFor]
    dsimp only
    rw [hadd]
    exact ⟨fun h => ⟨fun _ hd => (nomatch hd), (Except.ok.inj h).symm⟩, fun ⟨_, h⟩ => congrArg Except.ok h.symm⟩

theorem bind_eq_ok {ls : Listeners} : Listeners.bind outside config = .ok ls ↔
    (∀ x ∈ config.listen.zipIdx, outside.bind x.2 x.1 = .ok ()) ∧ (∀ fd ∈ outside.received, outside.Placeable fd) ∧
      ls = ⟨config.incoming outside, config.quic, config.outgoing outside⟩ := by
  have hlisten : config.listen.zipIdx = config.incomingListen.zipIdx 0 ++
      config.quicListen.zipIdx config.incomingListen.length ++
      config.outgoingListen.zipIdx (config.incomingListen.length + config.quicListen.length) := by
    unfold Config.listen
    rw [List.zipIdx_append, List.zipIdx_append, Nat.zero_add, Nat.zero_add, List.length_append]
  unfold Listeners.bind
  simp only [Except.bind_eq_ok, bindAll_eq_ok, placeAll_eq_ok]
  rw [hlisten, List.forall_mem_append, List.forall_mem_append]
  constructor
  · rintro ⟨_, ⟨hin, rfl⟩, _, ⟨hquic, rfl⟩, _, ⟨hout, rfl⟩, hplace, rfl⟩
    exact ⟨⟨⟨hin, hquic⟩, hout⟩, hplace, rfl⟩
  · rintro ⟨⟨⟨hin, hquic⟩, hout⟩, hplace, rfl⟩
    exact ⟨_, ⟨hin, rfl⟩, _, ⟨hquic, rfl⟩, _, ⟨hout, rfl⟩, hplace, rfl⟩

variable {config} in
theorem spawnIncoming_eq_ok {certsKey : CertsKey Key Cert} {listeners : List Listener} {tasks : List Task} :
    spawnIncoming config certsKey listeners = .ok tasks ↔
      (listeners ≠ [] → config.hasTarget = true ∧ ∃ certKey, certsKey.inner = .ok certKey) ∧
        tasks = listeners.map .tls := by
  unfold spawnIncoming serverConfig
  split_ifs with hnil htarget
  · subst hnil
    exact ⟨fun h => ⟨fun hne => absurd rfl hne, (Except.ok.inj h).symm⟩, fun ⟨_, h⟩ => congrArg Except.ok h.symm⟩
  · exact ⟨fun h => (nomatch h), fun ⟨h, _⟩ => by rw [(h hnil).1] at htarget; cases htarget⟩
  · rw [Bool.not_eq_false] at htarget
    cases hkey : certsKey.inner with
    | error e => exact ⟨fun h => (nomatch h), fun ⟨h, _⟩ => (nomatch (h hnil).2)⟩
    | ok certKey =>
      exact ⟨fun h => ⟨fun _ => ⟨htarget, certKey, rfl⟩, (Except.ok.inj h).symm⟩,
        fun ⟨_, h⟩ => congrArg Except.ok h.symm⟩

variable {outside} in
theorem spawnQuicListener_eq_ok (l : UdpListener) (task : Task) :
    spawnQuicListener outside l = .ok task ↔ outside.quicListener l = .ok () ∧ task = .quic l := by
  unfold spawnQuicListener
  cases outside.quicListener l with
  | ok u => exact ⟨fun h => ⟨rfl, (Except.ok.inj h).symm⟩, fun ⟨_, h⟩ => congrArg Except.ok h.symm⟩
  | error e => exact ⟨fun h => (nomatch h), fun ⟨h, _⟩ => (nomatch h)⟩

variable {outside config} in
theorem spawnQuic_eq_ok {certsKey : CertsKey Key Cert} {listeners : List UdpListener} {tasks : List Task} :
    spawnQuic outside config certsKey listeners = .ok tasks ↔
      (listeners ≠ [] → (config.hasTarget = true ∧ ∃ certKey, certsKey.inner = .ok certKey) ∧
        outside.quicServerConfig = .ok () ∧ ∀ l ∈ listeners, outside.quicListener l = .ok ()) ∧
        tasks = listeners.map .quic := by
  unfold spawnQuic serverConfig
  split_ifs with hnil htarget
  · subst hnil
    exact ⟨fun h => ⟨fun hne => absurd rfl hne, (Except.ok.inj h).symm⟩, fun ⟨_, h⟩ => congrArg Except.ok h.symm⟩
  · exact ⟨fun h => (nomatch h), fun ⟨h, _⟩ => by rw [(h hnil).1.1] at htarget; cases htarget⟩
  · rw [Bool.not_eq_false] at htarget
    cases hkey : certsKey.inner with
    | error e => exact ⟨fun h => (nomatch h), fun ⟨h, _⟩ => (nomatch (h hnil).1.2)⟩
    | ok certKey =>
      simp only [Except.bind_eq_ok, Except.mapError_eq_ok, Except.mapM_eq_ok spawnQuicListener_eq_ok]
      constructor
      · rintro ⟨_, -, _, hconfig, hl, htasks⟩
        exact ⟨fun _ => ⟨⟨htarget, certKey, rfl⟩, hconfig, hl⟩, htasks⟩
      · rintro ⟨h, htasks⟩
        obtain ⟨-, hconfig, hl⟩ := h hnil
        exact ⟨(), trivial, (), hconfig, hl, htasks⟩

theorem main_eq_ok {started : Started Key Cert} : main outside files = .ok started ↔
    ∃ config, files.config = .ok config ∧ Startable outside files config ∧
      started = ⟨config, ⟨config.certsKey files⟩,
        config.tasks outside ++ spawnRefreshTask ⟨config.certsKey files⟩⟩ := by
  unfold main
  simp only [Except.bind_eq_ok, Except.mapError_eq_ok, bind_eq_ok, spawnIncoming_eq_ok, spawnQuic_eq_ok]
  have hbusy (config : Config) : config.tasks outside ≠ [] ↔
      config.incoming outside ≠ [] ∨ config.quic ≠ [] ∨ config.outgoing outside ≠ [] := by
    unfold Config.tasks
    simp only [Ne, List.append_eq_nil_iff, List.map_eq_nil_iff]
    tauto
  constructor
  · rintro ⟨config, hconfig, _, ⟨hbinds, hplaces, rfl⟩, _, ⟨hin, rfl⟩, _, ⟨hquic, rfl⟩, h⟩
    change (if config.tasks outside = [] then _ else _) = _ at h
    have hnone : config.tasks outside ≠ [] := by
      intro hnone
      rw [if_pos hnone] at h
      cases h
    rw [if_neg hnone] at h
    refine ⟨config, hconfig, ⟨hbinds, hplaces, ?_, fun hq => (hquic hq).2, (hbusy config).mp hnone⟩,
      (Except.ok.inj h).symm⟩
    rintro (hne | hne)
    · exact hin hne
    · exact (hquic hne).1
  · rintro ⟨config, hconfig, h, rfl⟩
    refine ⟨config, hconfig, _, ⟨h.binds, h.places, rfl⟩, _, ⟨fun hne => h.serves (.inl hne), rfl⟩, _,
      ⟨fun hne => ⟨h.serves (.inr hne), h.quic hne⟩, rfl⟩, ?_⟩
    exact if_neg ((hbusy config).mpr h.busy)

end

def Listener.socket : Listener → Socket
  | tcp socket => socket
  | unix socket => socket

def UdpListener.socket : UdpListener → Socket
  | udp socket => socket
  | unix socket => socket

def Task.socket : Task → Option Socket
  | tls listener => some listener.socket
  | quic listener => some listener.socket
  | outgoing listener => some listener.socket
  | refresh => none

/-- All that are bound, in order, and all that are received. -/
def Config.sockets (config : Config) (outside : Outside) : List Socket :=
  (config.listen.zipIdx.map fun x => .bound x.2 x.1) ++ outside.received.map fun fd => .passed fd.rawFd

def boundSockets (n : Nat) (listen : List SocketAddrPath) : List Socket :=
  (listen.zipIdx n).map fun x => .bound x.2 x.1

theorem map_socket_bound (n : Nat) (listen : List SocketAddrPath) :
    (boundFrom SocketAddrPath.bind n listen).map Listener.socket = boundSockets n listen := by
  unfold boundFrom boundSockets
  rw [List.map_map]
  refine List.map_congr_left fun x _ => ?_
  cases hx : x.1 <;> simp [SocketAddrPath.bind, Listener.socket, hx]

theorem map_socket_boundUdp (n : Nat) (listen : List SocketAddrPath) :
    (boundFrom SocketAddrPath.bindUdp n listen).map UdpListener.socket = boundSockets n listen := by
  unfold boundFrom boundSockets
  rw [List.map_map]
  refine List.map_congr_left fun x _ => ?_
  cases hx : x.1 <;> simp [SocketAddrPath.bindUdp, UdpListener.socket, hx]

theorem map_socket_received (word : String) (fds : List FileDescriptor) :
    (receivedFor word fds).map Listener.socket = (fds.filter fun fd => fd.named word).map fun fd => .passed fd.rawFd := by
  unfold receivedFor
  rw [List.map_map]
  refine List.map_congr_left fun fd _ => ?_
  cases hinet : fd.inetNotUnix <;> simp [FileDescriptor.stream, Listener.socket, hinet]

section

variable {outside : Outside} {config : Config}

theorem filterMap_tasks (config : Config) (outside : Outside) : (config.tasks outside).filterMap Task.socket =
    (config.incoming outside).map Listener.socket ++ config.quic.map UdpListener.socket ++
      (config.outgoing outside).map Listener.socket := by
  unfold Config.tasks
  rw [List.filterMap_append, List.filterMap_append, List.filterMap_map, List.filterMap_map, List.filterMap_map]
  have hsome {α : Type} (socket : α → Socket) (ls : List α) : ls.filterMap (fun l => some (socket l)) = ls.map socket :=
    congrFun List.filterMap_eq_map' ls
  exact congrArg₂ (· ++ ·) (congrArg₂ (· ++ ·) (hsome Listener.socket _) (hsome UdpListener.socket _))
    (hsome Listener.socket _)

theorem received_divided (hplaces : ∀ fd ∈ outside.received, outside.Placeable fd) :
    (outside.received.filter (fun fd => fd.named "in") ++ outside.received.filter fun fd => fd.named "out").Perm
      outside.received := by
  have hout : (outside.received.filter fun fd => fd.named "out") = outside.received.filter fun fd => !fd.named "in" := by
    refine List.filter_congr fun fd hfd => ?_
    rcases (hplaces fd hfd).2 with hin | hout
    · rw [hin, not_named_out hin]
      rfl
    · cases hin : fd.named "in" with
      | true => rw [not_named_out hin] at hout; cases hout
      | false => exact hout
  rw [hout]
  exact List.filter_append_perm _ _

theorem tasks_sockets (hplaces : ∀ fd ∈ outside.received, outside.Placeable fd) :
    ((config.tasks outside).filterMap Task.socket).Perm (config.sockets outside) := by
  have hbound : (config.listen.zipIdx.map fun x => Socket.bound x.2 x.1) = boundSockets 0 config.incomingListen ++
      boundSockets config.incomingListen.length config.quicListen ++
      boundSockets (config.incomingListen.length + config.quicListen.length) config.outgoingListen := by
    unfold Config.listen boundSockets
    rw [List.zipIdx_append, List.zipIdx_append, Nat.zero_add, Nat.zero_add, List.length_append, List.map_append,
      List.map_append]
  rw [filterMap_tasks]
  unfold Config.incoming Config.quic Config.outgoing Config.sockets
  rw [List.map_append, List.map_append, map_socket_bound, map_socket_bound, map_socket_boundUdp,
    map_socket_received, map_socket_received, hbound]
  have hpassed := (received_divided hplaces).map fun fd => Socket.passed fd.rawFd
  rw [List.map_append] at hpassed
  refine List.Perm.trans ?_ (hpassed.append_left _)
  generalize boundSockets 0 config.incomingListen = a
  generalize boundSockets config.incomingListen.length config.quicListen = b
  generalize boundSockets (config.incomingListen.length + config.quicListen.length) config.outgoingListen = c
  rw [List.perm_iff_count]
  intro socket
  simp only [List.count_append]
  omega

theorem sockets_nodup (config : Config) (outside : Outside) : (config.sockets outside).Nodup := by
  unfold Config.sockets
  have hzip : config.listen.zipIdx.Nodup := by
    refine List.Nodup.of_map Prod.snd ?_
    rw [List.zipIdx_map_snd]
    exact List.nodup_range'
  refine List.nodup_append.mpr ⟨hzip.map fun x y heq => ?_, ?_, ?_⟩
  · obtain ⟨hn, ha⟩ := Socket.bound.inj heq
    exact Prod.ext ha hn
  · have hraw := outside.received_ok.2
    have hcomp : (outside.received.map fun fd => Socket.passed fd.rawFd) =
        (outside.received.map FileDescriptor.rawFd).map Socket.passed := List.map_map.symm
    rw [hcomp]
    exact hraw.map fun x y heq => Socket.passed.inj heq
  · intro s hs s' hs' heq
    obtain ⟨x, -, rfl⟩ := List.mem_map.mp hs
    obtain ⟨fd, -, rfl⟩ := List.mem_map.mp hs'
    cases heq

variable {PrivateKey Key Cert : Type}

/-- `main` gets as far as its tasks exactly when it can, and then each socket, bound or received, is listened on
by one task, in the place that the configuration or its name gives it. -/
theorem main_starts (outside : Outside) (files : Files PrivateKey Key Cert) (started : Started Key Cert) :
    main outside files = .ok started ↔ ∃ config, files.config = .ok config ∧ Startable outside files config ∧
      started.config = config ∧ started.certsKey = ⟨config.certsKey files⟩ ∧
      started.handles = config.tasks outside ++ spawnRefreshTask started.certsKey ∧
      (started.handles.filterMap Task.socket).Perm (config.sockets outside) ∧
      (started.handles.filterMap Task.socket).Nodup := by
  rw [main_eq_ok]
  constructor
  · rintro ⟨config, hconfig, h, rfl⟩
    have hrefresh : (spawnRefreshTask (⟨config.certsKey files⟩ : CertsKey Key Cert)).filterMap Task.socket = [] := by
      unfold spawnRefreshTask
      split <;> rfl
    have hperm : ((config.tasks outside ++ spawnRefreshTask (⟨config.certsKey files⟩ : CertsKey Key Cert)).filterMap
        Task.socket).Perm (config.sockets outside) := by
      rw [List.filterMap_append, hrefresh, List.append_nil]
      exact tasks_sockets h.places
    exact ⟨config, hconfig, h, rfl, rfl, rfl, hperm, hperm.nodup_iff.mpr (sockets_nodup config outside)⟩
  · rintro ⟨config, hconfig, h, rfl, hkey, hhandles, -, -⟩
    obtain ⟨config, certsKey, handles⟩ := started
    dsimp only at hconfig h hkey hhandles
    subst hkey hhandles
    exact ⟨config, hconfig, h, rfl⟩

end

end XmppProxy
