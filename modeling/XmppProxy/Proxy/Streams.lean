import XmppProxy.Lib.Hosting
import XmppProxy.Proxy.Admission

/-! The streams of a QUIC or WebTransport session: each is served as if it were alone, whatever becomes of the
others, and all of them with the certificates of the session. -/

namespace XmppProxy

open Lib

section

variable {Cert Verifier : Type} {env : QuicIncoming Cert Verifier}

def streamPolls (i : Nat) (run : List (QuicSession × SessionEvent)) : List (Poll .asyncRead) :=
  run.filterMap fun x =>
    match x.2 with
    | .stream j p => if j = i ∧ i < x.1.streams.length then some p else none
    | _ => none

def streamReports (i : Nat) (reports : List (Option (Nat × Report))) : List Report :=
  reports.filterMap fun r => r.bind fun x => if x.1 = i then some x.2 else none

def serve (env : QuicIncoming Cert Verifier) (i : Nat) : Machine Connection (Poll .asyncRead) Report :=
  shuffleRdWrFilter (env.stream i) .asyncRead .asyncWrite

def QuicIncoming.hosting (env : QuicIncoming Cert Verifier) :
    Hosting QuicSession SessionEvent (Option (Nat × Report)) Connection (Poll .asyncRead) Report where
  guests := QuicSession.streams
  begun s ev :=
    match s.phase, ev with
    | .accepting, .succeeded => some (shuffleRdWr env.config)
    | _, _ => none
  sent
    | .stream i p => some (i, p)
    | _ => none
  answered r := r

theorem session_keeps (env : QuicIncoming Cert Verifier) :
    env.hosting.Keeps (handleQuicSession env) (serve env) where
  serve {s ev i p c} hsent hc := by
    cases ev with
    | stream j q =>
      obtain ⟨rfl, rfl⟩ := Prod.mk.inj (Option.some.inj hsent)
      have hstep : s.step env (.stream j q) = (some (j, (c.step (env.stream j) .asyncRead .asyncWrite q).1),
          { s with streams := s.streams.set j (c.step (env.stream j) .asyncRead .asyncWrite q).2 }) := by
        unfold QuicSession.step
        dsimp only
        rw [show s.streams[j]? = some c from hc]
      refine ⟨by cases hp : s.phase <;> simp [QuicIncoming.hosting, hp], ?_⟩
      change (s.step env (.stream j q)).1 = _ ∧ (s.step env (.stream j q)).2.streams = _
      rw [hstep]
      exact ⟨rfl, rfl⟩
    | succeeded => cases hsent
    | failed => cases hsent
  leave {s ev} hnone := by
    cases ev with
    | succeeded =>
      refine ⟨rfl, ?_⟩
      change (s.succeeded env).streams = _
      cases hp : s.phase <;> simp [QuicSession.succeeded, QuicIncoming.hosting, hp]
    | failed => cases hp : s.phase <;> simp [QuicIncoming.hosting, handleQuicSession, QuicSession.step, hp]
    | stream j q =>
      have hj : s.streams[j]? = none := hnone j q rfl
      cases hp : s.phase <;> simp [QuicIncoming.hosting, handleQuicSession, QuicSession.step, hp, hj]

theorem streamPolls_eq (env : QuicIncoming Cert Verifier) (i : Nat) (run : List (QuicSession × SessionEvent)) :
    streamPolls i run = env.hosting.inputs i run := by
  unfold streamPolls Hosting.inputs
  congr 1
  funext x
  obtain ⟨s, ev⟩ := x
  cases ev <;> rfl

theorem eq_of_births {env : QuicIncoming Cert Verifier} {run : List (QuicSession × SessionEvent)} {i : Nat}
    {c : Connection} (h : (env.hosting.births run)[i]? = some c) : c = shuffleRdWr env.config := by
  obtain ⟨⟨s, ev⟩, -, hbegun⟩ := List.mem_filterMap.mp (List.mem_of_getElem? h)
  unfold QuicIncoming.hosting at hbegun
  dsimp only at hbegun
  split at hbegun
  · exact (Option.some.inj hbegun).symm
  · cases hbegun

theorem stream_final (env : QuicIncoming Cert Verifier) (evs : List SessionEvent) {i : Nat} {c : Connection}
    (hc : ((handleQuicSession env).final .new evs).streams[i]? = some c) :
    c = (serve env i).final (shuffleRdWr env.config) (streamPolls i ((handleQuicSession env).trace .new evs)) ∧
      streamReports i ((handleQuicSession env).outputs .new evs) =
        (serve env i).outputs (shuffleRdWr env.config)
          (streamPolls i ((handleQuicSession env).trace .new evs)) := by
  have hnew : env.hosting.guests .new = [] := rfl
  have hkept := (session_keeps env).kept hnew evs
  have hi := (List.getElem?_eq_some_iff.mp hc).1
  have hborn := List.getElem?_eq_getElem (hkept.count.symm ▸ hi :
    i < (env.hosting.births ((handleQuicSession env).trace .new evs)).length)
  have hnow := hkept.state hborn
  have hreports := hkept.answers hborn
  rw [eq_of_births hborn, ← streamPolls_eq] at hnow hreports
  exact ⟨Option.some.inj (hc.symm.trans hnow), hreports⟩

def SessionEvent.isSuccess : SessionEvent → Bool
  | .succeeded => true
  | _ => false

def handshakes (env : QuicIncoming Cert Verifier) : Nat := if env.alpn = some env.webTransportAlpn then 3 else 1

/-- A session that has seen `n` successes. -/
def Established (env : QuicIncoming Cert Verifier) (n : Nat) (s : QuicSession) : Prop :=
  match s.phase with
  | .connecting => s.streams.length = 0
  | .requesting => s.streams.length = 0 ∧ handshakes env ≤ n + 2
  | .answering => s.streams.length = 0 ∧ handshakes env ≤ n + 1
  | .accepting => handshakes env + s.streams.length ≤ n
  | .ended => 0 < s.streams.length → handshakes env + s.streams.length ≤ n

theorem Established.streams {n : Nat} (h : Established env n s) (hpos : 0 < s.streams.length) :
    handshakes env + s.streams.length ≤ n := by
  obtain ⟨phase, streams⟩ := s
  cases phase with
  | connecting => exact absurd h (Nat.ne_of_gt hpos)
  | requesting => exact absurd h.1 (Nat.ne_of_gt hpos)
  | answering => exact absurd h.1 (Nat.ne_of_gt hpos)
  | accepting => exact h
  | ended => exact h hpos

theorem Established.succeeded {n : Nat} (h : Established env n s) : Established env (n + 1) (s.succeeded env) := by
  obtain ⟨phase, streams⟩ := s
  cases phase with
  | connecting =>
    have hnone : streams.length = 0 := h
    unfold QuicSession.succeeded Established handshakes
    dsimp only
    split_ifs with halpn
    · exact ⟨hnone, by omega⟩
    · dsimp only
      omega
  | requesting => exact ⟨h.1, h.2⟩
  | answering =>
    obtain ⟨hnone, hn⟩ := h
    change handshakes env + streams.length ≤ n + 1
    dsimp only at hnone
    omega
  | accepting =>
    have hn : handshakes env + streams.length ≤ n := h
    change handshakes env + (streams ++ [shuffleRdWr env.config]).length ≤ n + 1
    rw [List.length_append, List.length_singleton]
    omega
  | ended =>
    intro hpos
    exact (h hpos).trans (Nat.le_succ n)

theorem Established.step {n : Nat} (h : Established env n s) (ev : SessionEvent) :
    Established env (n + if ev.isSuccess then 1 else 0) (s.step env ev).2 := by
  cases ev with
  | succeeded => exact h.succeeded
  | failed => exact h.streams
  | stream i p =>
    unfold QuicSession.step
    dsimp only
    cases hc : s.streams[i]? with
    | none => exact h
    | some c =>
      unfold Established at h ⊢
      dsimp only
      simp only [List.length_set]
      exact h

end

section

variable {Cert ServerName Uri : Type} [HttpUri Uri] [DecidableEq ServerName]

variable (Uri) in
/-- A session whose streams look domains up, each on the network that it finds. -/
def QuicIncoming.overNetwork (env : QuicIncoming Cert (XmppServerCertVerifier ServerName))
    (net : Nat → Network ServerName) (sort : SortBy) (pki : Pki Cert ServerName) (now : Nat → Nat) :
    QuicIncoming Cert (XmppServerCertVerifier ServerName) :=
  { env with
    getXmppConnections := fun i => ((env.stream i).overNetwork Uri (net i) sort pki (now i)).getXmppConnections
    verifyCert := fun i => ((env.stream i).overNetwork Uri (net i) sort pki (now i)).verifyCert }

end

def serverSession : QuicIncoming Bytes (XmppServerCertVerifier Bytes) where
  config := serverTarget.config
  webTransportAlpn := bytes "h3"
  alpn := some (bytes "xmpp-server")
  localAddr := serverTarget.localAddr
  clientAddr := serverTarget.clientAddr
  peerCertificates := serverTarget.peerCertificates
  getXmppConnections := fun _ => serverTarget.getXmppConnections
  verifyCert := fun _ => serverTarget.verifyCert
  connect := fun _ => serverTarget.connect
  proxyTaken := fun _ => none
  openRes := fun _ => .done
  trace := false

end XmppProxy
