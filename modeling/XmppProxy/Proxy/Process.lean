import XmppProxy.Model.Process
import XmppProxy.Proxy.Series
import XmppProxy.Proxy.Startup
import XmppProxy.Proxy.Streams

/-! The whole process: over every order of connections, of what happens to them and of reloads, each connection
is served as if it were alone, and every handshake is given the certificate that was loaded last. -/

namespace XmppProxy

open Lib

section

variable {PrivateKey Key Cert Verifier ServerName : Type} {Uri : Type} [HttpUri Uri] [DecidableEq ServerName]
  {env : Surroundings Cert Verifier ServerName} {started : Started Key Cert} {p : Process Key Cert}

def ProcessEvent.loaded : ProcessEvent PrivateKey Key Cert → Option (CertifiedKey Key Cert)
  | hangup files => (files.config.bind fun config => config.certsKey files).toOption
  | _ => none

theorem refresh_resolve (certsKey : CertsKey Key Cert) (files : Files PrivateKey Key Cert) :
    (certsKey.refresh files).resolve = certsKey.resolve.map fun old =>
      ((files.config.bind fun config => config.certsKey files).toOption).getD old := by
  unfold CertsKey.refresh CertsKey.resolve
  cases files.config.bind fun config => config.certsKey files with
  | error e =>
    cases certsKey.inner with
    | error e => rfl
    | ok old => rfl
  | ok new =>
    cases h : certsKey.inner with
    | error e => rw [h]; rfl
    | ok old => rfl

theorem step_certsKey (hrefresh : started.certsKey.resolve ≠ none → .refresh ∈ started.handles)
    (hresolve : started.certsKey.resolve = none → p.certsKey.resolve = none)
    (ev : ProcessEvent PrivateKey Key Cert) :
    (p.step Uri env started ev).2.certsKey.resolve = p.certsKey.resolve.map fun old => ev.loaded.getD old := by
  have hid : p.certsKey.resolve = p.certsKey.resolve.map fun old => (none : Option _).getD old := by
    cases p.certsKey.resolve <;> rfl
  cases ev with
  | accepted task => exact hid
  | acceptFailed task => exact hid
  | connection i ev =>
    unfold Process.step
    dsimp only
    cases p.connections[i]? <;> exact hid
  | handshake => exact hid
  | hangup files =>
    unfold Process.step
    dsimp only
    by_cases hmem : .refresh ∈ started.handles
    · rw [if_pos hmem]
      exact refresh_resolve p.certsKey files
    · have hnone : p.certsKey.resolve = none := hresolve (not_not.mp (mt hrefresh hmem))
      rw [if_neg hmem]
      rw [hnone]
      rfl

theorem resolve_run (hrefresh : started.certsKey.resolve ≠ none → .refresh ∈ started.handles)
    (evs : List (ProcessEvent PrivateKey Key Cert)) :
    ((process Uri PrivateKey env started).final (.new started) evs).certsKey.resolve =
      started.certsKey.resolve.map fun first => (evs.filterMap ProcessEvent.loaded).getLast?.getD first := by
  induction evs using List.reverseRecOn with
  | nil => exact Option.map_id'.symm
  | append_singleton evs ev ih =>
    rw [Machine.final_concat]
    change (Process.step Uri env started _ ev).2.certsKey.resolve = _
    rw [step_certsKey hrefresh (fun hnone => by rw [ih, hnone]; rfl), ih, Option.map_map]
    congr 1
    funext first
    rw [List.filterMap_append]
    cases hload : ev.loaded with
    | none => simp [hload]
    | some new => simp [hload]

end

section

variable {PrivateKey Key Cert Verifier ServerName : Type} (Uri : Type) [HttpUri Uri] [DecidableEq ServerName]
  (env : Surroundings Cert Verifier ServerName) (config : Config) (i : Nat)

variable (started : Started Key Cert)

end

section

variable {Cert ServerName : Type} (Uri : Type) [HttpUri Uri] [DecidableEq ServerName]
  (env : Surroundings Cert (XmppServerCertVerifier ServerName) ServerName) (net : Nat → Nat → Network ServerName)
  (sort : SortBy) (pki : Pki Cert ServerName) (now : Nat → Nat → Nat)

def Surroundings.overNetwork : Surroundings Cert (XmppServerCertVerifier ServerName) ServerName where
  incoming i := (env.incoming i).overNetwork Uri (net i 0) sort pki (now i 0)
  quic i := (env.quic i).overNetwork Uri (net i) sort pki (now i)
  outgoing := env.outgoing

variable {Uri env net sort pki now}

end

section

variable {PrivateKey Key Cert ServerName : Type} (Uri : Type) [HttpUri Uri] [DecidableEq ServerName]

def Task.isIncoming : Task → Bool
  | tls _ => true
  | quic _ => true
  | _ => false

variable {outside : Outside} {files : Files PrivateKey Key Cert} {started : Started Key Cert}

theorem started_incoming (hmain : main outside files = .ok started) {task : Task} (htask : task ∈ started.handles)
    (hin : task.isIncoming = true) : started.config.hasTarget = true ∧ started.certsKey.resolve ≠ none := by
  obtain ⟨config, -, h, rfl⟩ := (main_eq_ok outside files).mp hmain
  have hserves : config.incoming outside ≠ [] ∨ config.quic ≠ [] := by
    dsimp only at htask
    unfold Config.tasks at htask
    simp only [List.mem_append] at htask
    rcases htask with ((htask | htask) | htask) | htask
    · obtain ⟨l, hl, -⟩ := List.mem_map.mp htask
      exact .inl (List.ne_nil_of_mem hl)
    · obtain ⟨l, hl, -⟩ := List.mem_map.mp htask
      exact .inr (List.ne_nil_of_mem hl)
    · obtain ⟨l, -, rfl⟩ := List.mem_map.mp htask
      cases hin
    · unfold spawnRefreshTask at htask
      split at htask
      · obtain rfl := List.mem_singleton.mp htask
        cases hin
      · cases htask
  obtain ⟨htarget, certKey, hkey⟩ := h.serves hserves
  refine ⟨htarget, ?_⟩
  unfold CertsKey.resolve
  dsimp only
  rw [hkey]
  exact Option.some_ne_none certKey

theorem started_refresh (hmain : main outside files = .ok started) (hresolve : started.certsKey.resolve ≠ none) :
    .refresh ∈ started.handles := by
  obtain ⟨config, -, -, rfl⟩ := (main_eq_ok outside files).mp hmain
  refine List.mem_append_right _ ?_
  unfold spawnRefreshTask
  unfold CertsKey.resolve at hresolve
  cases hkey : config.certsKey files with
  | ok certKey => exact List.mem_singleton_self _
  | error e =>
    dsimp only at hresolve
    rw [hkey] at hresolve
    exact absurd rfl hresolve

/-- Every handshake is given the certificate that was loaded last, and one at that wherever connections come from
other hosts; without one at the beginning there is never any. -/
theorem handshake_certificate {Verifier : Type} (env : Surroundings Cert Verifier ServerName)
    (hmain : main outside files = .ok started) (evs : List (ProcessEvent PrivateKey Key Cert)) :
    ((process Uri PrivateKey env started).step ((process Uri PrivateKey env started).final (.new started) evs)
        .handshake).1 =
      .certificate ((started.config.certsKey files).toOption.map fun first =>
        (evs.filterMap ProcessEvent.loaded).getLast?.getD first) ∧
      ∀ task ∈ started.handles, task.isIncoming = true → (started.config.certsKey files).toOption ≠ none := by
  have hkey : (started.config.certsKey files).toOption = started.certsKey.resolve := by
    obtain ⟨config, -, -, rfl⟩ := (main_eq_ok outside files).mp hmain
    rfl
  rw [hkey]
  refine ⟨congrArg ProcessReport.certificate (resolve_run (started_refresh hmain) evs), fun task htask hin => ?_⟩
  exact (started_incoming hmain htask hin).2

end

/-- A configuration for servers, and for clients of this host, with a key that can be loaded. -/
def exampleFiles (key : Nat) : Files Unit Nat Bytes where
  parse := .ok {
    tlsKey := none
    tlsCert := none
    incomingListen := some [.socketAddr ⟨.ofV4 0 0 0 0, 5269⟩]
    quicListen := none
    outgoingListen := some [.path (bytes "/run/xmpp")]
    maxStanzaSizeBytes := some 64
    s2sTarget := some (.socketAddr ⟨.ofV4 127 0 0 1, 5269⟩)
    c2sTarget := none
    proxy := none }
  keys _ := .ok [.error .io, .ok ()]
  loadPrivateKey _ := .ok key
  certs _ := .ok []

/-- A host without systemd on which everything can be bound. -/
def exampleOutside : Outside where
  bind _ _ := .ok ()
  listenPid := .error "environment variable not found"
  listenFds := .error "environment variable not found"
  listenFdnames := .error "environment variable not found"
  processId := 1
  kernel := ⟨fun _ => none, fun _ => none, fun _ => none, fun _ h => nomatch h⟩
  fromStd _ := .error .io
  quicServerConfig := .ok ()
  quicListener _ := .ok ()

def exampleSurroundings : Surroundings Bytes (XmppServerCertVerifier Bytes) Bytes where
  incoming _ := serverTarget
  quic _ := serverSession
  outgoing _ := quicListener

def exampleStarted : Started Nat Bytes where
  config := {
    tlsKey := []
    tlsCert := []
    incomingListen := [.socketAddr ⟨.ofV4 0 0 0 0, 5269⟩]
    quicListen := []
    outgoingListen := [.path (bytes "/run/xmpp")]
    maxStanzaSizeBytes := 64
    s2sTarget := some (.socketAddr ⟨.ofV4 127 0 0 1, 5269⟩)
    c2sTarget := none
    proxy := false }
  certsKey := ⟨.ok ⟨[], 1⟩⟩
  handles := [.tls (.tcp (.bound 0 (.socketAddr ⟨.ofV4 0 0 0 0, 5269⟩))),
    .outgoing (.unix (.bound 1 (.path (bytes "/run/xmpp")))), .refresh]

def processRun : List (ProcessEvent Unit Nat Bytes) :=
  [.accepted 1, .accepted 0, .handshake, .connection 0 (.outgoing (.first 60 115 116)), .hangup (exampleFiles 2)] ++
    serverRun.map fun ev => .connection 1 (.tcp ev)

theorem handshake_certificate_reloaded :
    ((process Empty Unit exampleSurroundings exampleStarted).step
        ((process Empty Unit exampleSurroundings exampleStarted).final (.new exampleStarted) processRun)
        .handshake).1 = .certificate (some ⟨[], 2⟩) := by
  have hmain : main exampleOutside (exampleFiles 1) = .ok exampleStarted := rfl
  exact (handshake_certificate Empty exampleSurroundings hmain processRun).1.trans rfl

end XmppProxy
