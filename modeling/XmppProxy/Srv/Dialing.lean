import XmppProxy.Proxy.Loop
import XmppProxy.Srv.Fallback

/-! What passes through all attempts to connect: what every byte and every scratch keeps of a filter, they
keep, and the connection that comes out of them reads and writes over one transport. -/

namespace XmppProxy

open Lib

/-- What nothing that a reader does takes from a filter. -/
structure Lasting (P : StanzaFilter → Prop) : Prop where
  next : ∀ f b, P f → P (f.next b).2
  cleared : ∀ f, P f → P { f with endOfFirstTag := 0 }
  scratch : ∀ f w h, P f → P (f.scratch w h)

namespace Lasting

variable {P : StanzaFilter → Prop} (hP : Lasting P) {f : StanzaFilter}
include hP

theorem nextEoft (h : P f) (b : UInt8) : P (f.nextEoft b).2 := by
  have hnext := hP.next f b h
  unfold StanzaFilter.nextEoft
  split <;> rename_i heq <;> rw [heq] at hnext
  · exact hP.cleared _ hnext
  · exact hnext
  · exact hnext
  · exact hnext

theorem pollBytes (h : P f) (p : BytePoll) : P (StanzaRead.pollBytes f p).filter := by
  have hnext : ∀ {b : UInt8} {r : Outcome (Option (Bytes × Nat))} {f' : StanzaFilter},
      f.nextEoft b = (r, f') → P f' := by
    intro b r f' hn
    have hnext := hP.nextEoft h b
    rwa [hn] at hnext
  have hp := bytesPolled f p
  generalize StanzaRead.pollBytes f p = polled at hp
  cases hp with
  | more _ hn => exact hnext hn
  | stanza _ hn => exact hnext hn
  | reject _ hn => exact hnext hn
  | panic _ hn => exact hnext hn
  | _ => exact h

theorem pollNext (h : P f) (p : BytePoll) : P (StanzaRead.pollNext f p).2 := by
  unfold StanzaRead.pollNext
  split
  · cases p with
    | byte b =>
      have hnext := hP.next f b h
      dsimp only
      split <;> rename_i heq <;> rw [heq] at hnext <;> exact hnext
    | _ => exact h
  · exact h

theorem pollMessage (h : P f) (wrt : StanzaWrite) (res : WriteResult) (p : MessagePoll) :
    P (StanzaRead.pollMessage wrt f res p).filter := by
  unfold StanzaRead.pollMessage
  split
  case h_2 =>
    dsimp only
    split
    next hlen => exact hP.scratch f _ hlen h
    next => exact h
  case h_3 =>
    split
    · exact h
    · split <;> exact h
  all_goals exact h

theorem poll (h : P f) (rd : StanzaRead) (wrt : StanzaWrite) (p : rd.Poll) (res : WriteResult) :
    P (rd.poll wrt f p res).filter := by
  cases rd with
  | asyncRead => exact hP.pollBytes h p
  | webSocketRead => exact hP.pollMessage h wrt res p

end Lasting

theorem lasting_size (n : Nat) : Lasting fun f => f.bufSize = n ∧ f.cnt ≤ n where
  next f b h := by
    obtain ⟨rfl, hle⟩ := h
    have hf := ((Stanza.refines_scanner hle).next b).2
    exact ⟨hf.size, hf.cnt_le⟩
  cleared _ h := h
  scratch _ _ _ h := h

def Preamble.filter : Preamble → StanzaFilter
  | reading f _ => f
  | accepted f _ _ => f
  | failed f _ => f
  | panicked f => f

def PreTls.filter : PreTls → StanzaFilter
  | reading f => f
  | proceeding f => f
  | failed f _ => f
  | panicked f => f

section

variable {Uri ServerName : Type} {env : Outgoing ServerName} {P : StanzaFilter → Prop} (hP : Lasting P)
  {st : Dialing}
include hP

theorem Lasting.preamble {rd : StanzaRead} {wrt : StanzaWrite} {p : Preamble} (h : P p.filter)
    (polls : List (rd.Poll × WriteResult)) : P ((streamPreamble rd wrt).final p polls).filter := by
  refine Machine.invariant (P := fun p : Preamble => P p.filter) (fun p poll hp => ?_) h polls
  cases p with
  | reading f streamOpen =>
    have hpoll : P (rd.poll wrt f poll.1 poll.2).filter := hP.poll hp rd wrt poll.1 poll.2
    change P (Preamble.step rd wrt poll.1 poll.2 (.reading f streamOpen)).2.filter
    unfold Preamble.step
    dsimp only
    generalize rd.poll wrt f poll.1 poll.2 = polled at hpoll
    obtain ⟨_ | (_ | ⟨buf, e⟩) | err | _, f', sent⟩ := polled
    · exact hpoll
    · exact hpoll
    · dsimp only
      split_ifs <;> exact hpoll
    · exact hpoll
    · exact hpoll
  | accepted => exact hp
  | failed => exact hp
  | panicked => exact hp

theorem Lasting.preTls {p : PreTls} (h : P p.filter) (polls : List (BytePoll × WriteResult)) :
    P (readProceed.final p polls).filter := by
  refine Machine.invariant (P := fun p : PreTls => P p.filter) (fun p poll hp => ?_) h polls
  cases p with
  | reading f =>
    have hpoll : P (StanzaRead.pollNext f poll.1).2 := hP.pollNext hp poll.1
    change P (PreTls.step poll.1 poll.2 (.reading f)).2.filter
    unfold PreTls.step
    dsimp only
    generalize StanzaRead.pollNext f poll.1 = polled at hpoll
    obtain ⟨_ | (_ | buf) | err | _, f'⟩ := polled
    · exact hpoll
    · exact hpoll
    · dsimp only
      unfold PreTls.answer
      split_ifs
      · exact hpoll
      · split <;> exact hpoll
      · exact hpoll
      · exact hpoll
    · exact hpoll
    · exact hpoll
  | proceeding => exact hp
  | failed => exact hp
  | panicked => exact hp

theorem Lasting.readPreTls (h : P st.filter) (answer : Answer) : P (readPreTls answer st).2.filter := by
  have hstart : P (PreTls.reading st.filter).filter := h
  have hfinal := hP.preTls hstart answer.preTls
  unfold XmppProxy.readPreTls
  dsimp only
  split <;> rename_i heq <;> rw [heq] at hfinal <;> exact hfinal

theorem Lasting.attempt (hid : env.given = id) (h : P st.filter) (srv : XmppConnection Uri)
    (toAddr : SocketAddr) (serverName streamOpen : Bytes) :
    P (env.attempt srv toAddr serverName streamOpen st).2.filter := by
  have hgiven : P (env.given st.filter) := by
    rw [hid]
    exact h
  unfold Outgoing.attempt
  dsimp only
  split
  · unfold Outgoing.starttlsConnect
    split
    · exact hgiven
    · exact hgiven
    · split
      · split
        · exact hP.readPreTls hgiven _
        · exact hgiven
      · exact hgiven
  all_goals exact hgiven

theorem Lasting.tryIp (hid : env.given = id) (h : P st.filter) (srv : XmppConnection Uri)
    (domain streamOpen : Bytes) (toAddr : SocketAddr) :
    P (env.tryIp srv domain streamOpen toAddr st).2.filter := by
  have hfirst := fun name => hP.attempt hid h srv toAddr name streamOpen
  have hretry : ∀ name {r : Option (Outcome Connected)} {st' : Dialing},
      env.attempt srv toAddr name streamOpen st = (r, st') →
      P (env.attempt srv toAddr domain streamOpen st').2.filter := by
    intro name r st' heq
    have hname := hfirst name
    rw [heq] at hname
    exact hP.attempt hid hname srv toAddr domain streamOpen
  unfold Outgoing.tryIp
  dsimp only
  split
  case h_3 => exact hfirst _
  all_goals
    split
    next heq =>
      split_ifs
      · exact hretry _ heq
      · have hname := hfirst (if srv.secure then srv.target else domain)
        rwa [heq] at hname
    next => exact hfirst _

theorem Lasting.connect (hid : env.given = id) (h : P st.filter) (srv : XmppConnection Uri)
    (domain streamOpen : Bytes) : P (env.connect srv domain streamOpen st).2.filter := by
  have hips : ∀ (ips : List IpAddr) {st : Dialing}, P st.filter →
      P (env.tryIps srv domain streamOpen ips st).2.filter := by
    intro ips
    induction ips with
    | nil => exact fun h => h
    | cons ip ips ih =>
      intro st h
      have hip := hP.tryIp hid h srv domain streamOpen ⟨ip, srv.port⟩
      unfold Outgoing.tryIps
      split
      next heq =>
        rw [heq] at hip
        exact ih hip
      next => exact hip
  unfold Outgoing.connect
  split
  · exact hips _ h
  · exact h
  · exact h

theorem Lasting.readPreamble (h : P st.filter) (conn : Connected) :
    P (Outgoing.readPreamble conn st).2.filter := by
  have hstart : P (Preamble.reading st.filter []).filter := h
  have hfinal : P ((streamPreamble conn.rd conn.wr).final _ (conn.answer.preamble conn.rd)).filter :=
    hP.preamble hstart _
  unfold Outgoing.readPreamble
  dsimp only
  split <;> rename_i heq <;> rw [heq] at hfinal <;> exact hfinal

theorem Lasting.tryCandidates (hid : env.given = id) (domain : Bytes) (isC2s : Bool) (streamOpen : Bytes)
    (srvs : List (XmppConnection Uri)) (h : P st.filter) :
    P (env.tryCandidates domain isC2s streamOpen srvs st).2.filter := by
  induction srvs generalizing st with
  | nil => exact h
  | cons srv srvs ih =>
    have hconnect := hP.connect hid h srv domain streamOpen
    unfold Outgoing.tryCandidates
    generalize env.connect srv domain streamOpen st = x at hconnect
    obtain ⟨_ | conn | e | _, st'⟩ := x
    · exact hconnect
    · have hread := hP.readPreamble hconnect conn
      dsimp only
      generalize Outgoing.readPreamble conn st' = y at hread
      split
      · obtain ⟨_ | r | e | _, st''⟩ := y
        · exact hread
        · exact hread
        · exact ih hread
        · exact hread
      · exact hconnect
      · exact hconnect
    · exact ih hconnect
    · exact hconnect

end

section

variable {Uri ServerName : Type} {env : Outgoing ServerName} {srv : XmppConnection Uri} {toAddr : SocketAddr}
  {serverName domain streamOpen : Bytes} {st : Dialing} {conn : Connected}

variable (Uri env) in
def Outgoing.Attempted (n : Nat) (conn : Connected) : Prop :=
  ∃ (srv : XmppConnection Uri) (toAddr : SocketAddr) (serverName streamOpen : Bytes) (st : Dialing),
    st.attempts = n ∧ (env.attempt srv toAddr serverName streamOpen st).1 = some (.ok conn)

variable (Uri env) in
def Outgoing.Last (st : Dialing) (conn : Connected) : Prop :=
  ∃ n, st.attempts = n + 1 ∧ env.Attempted Uri n conn

theorem readPreTls_attempts (answer : Answer) (st : Dialing) :
    (readPreTls answer st).2.attempts = st.attempts := by
  unfold readPreTls
  dsimp only
  split <;> rfl

theorem attempt_attempts (env : Outgoing ServerName) (srv : XmppConnection Uri) (toAddr : SocketAddr)
    (serverName streamOpen : Bytes) (st : Dialing) :
    (env.attempt srv toAddr serverName streamOpen st).2.attempts = st.attempts + 1 := by
  unfold Outgoing.attempt
  dsimp only
  split
  · unfold Outgoing.starttlsConnect
    split
    · rfl
    · rfl
    · split
      · split
        · exact readPreTls_attempts ..
        · rfl
      · rfl
  all_goals rfl

variable {st' : Dialing}

theorem last_attempt (h : env.attempt srv toAddr serverName streamOpen st = (some (.ok conn), st')) :
    env.Last Uri st' conn := by
  refine ⟨st.attempts, ?_, srv, toAddr, serverName, streamOpen, st, rfl, ?_⟩
  · rw [← attempt_attempts env srv toAddr serverName streamOpen st, h]
  · rw [h]

theorem last_tryIp (h : env.tryIp srv domain streamOpen toAddr st = (some (.ok conn), st')) :
    env.Last Uri st' conn := by
  unfold Outgoing.tryIp at h
  dsimp only at h
  split at h
  case h_3 => exact last_attempt h
  all_goals
    split at h
    · split_ifs at h
      · exact last_attempt h
      · cases h
    · exact last_attempt h

theorem last_tryIps (ips : List IpAddr) (h : env.tryIps srv domain streamOpen ips st = (some (.ok conn), st')) :
    env.Last Uri st' conn := by
  induction ips generalizing st with
  | nil => cases h
  | cons ip ips ih =>
    unfold Outgoing.tryIps at h
    split at h
    · exact ih h
    · exact last_tryIp h

theorem last_connect (h : env.connect srv domain streamOpen st = (some (.ok conn), st')) :
    env.Last Uri st' conn := by
  unfold Outgoing.connect at h
  split at h
  · exact last_tryIps _ h
  · cases h
  · cases h

theorem readPreamble_attempts (conn : Connected) (st : Dialing) :
    (Outgoing.readPreamble conn st).2.attempts = st.attempts := by
  unfold Outgoing.readPreamble
  dsimp only
  split <;> rfl

theorem last_tryCandidates {isC2s : Bool} {serverResponse : Bytes} (srvs : List (XmppConnection Uri))
    (h : env.tryCandidates domain isC2s streamOpen srvs st = (some (.ok (srv, conn, serverResponse)), st')) :
    env.Last Uri st' conn := by
  induction srvs generalizing st with
  | nil => cases h
  | cons srv' srvs ih =>
    unfold Outgoing.tryCandidates at h
    cases hconnect : env.connect srv' domain streamOpen st with
    | mk r st₁ =>
      rw [hconnect] at h
      obtain _ | conn' | e | _ := r
      · cases h
      · dsimp only at h
        have hattempts := readPreamble_attempts conn' st₁
        have hlast := fun conn heq => @last_connect _ _ env srv' domain streamOpen st conn st₁ (hconnect.trans heq)
        split at h
        · generalize Outgoing.readPreamble conn' st₁ = y at h hattempts
          obtain ⟨_ | r | e | _, st₂⟩ := y
          · cases h
          · obtain ⟨hr, rfl⟩ := Prod.mk.inj h
            obtain ⟨-, hr⟩ := Prod.mk.inj (Outcome.ok.inj (Option.some.inj hr))
            obtain ⟨rfl, -⟩ := Prod.mk.inj hr
            obtain ⟨n, hn, hattempted⟩ := hlast _ rfl
            exact ⟨n, hattempts.trans hn, hattempted⟩
          · exact ih h
          · cases h
        · cases h
        · cases h
      · exact ih h
      · cases h

inductive Matching : StanzaRead → StanzaWrite → Prop where
  | stream : Matching .asyncRead .asyncWrite
  | webSocket : Matching .webSocketRead .webSocketClientWrite

theorem readPreTls_secured {answer : Answer} (h : (readPreTls answer st).1 = some (.ok ())) :
    answer.secured = true := by
  unfold readPreTls at h
  dsimp only at h
  split at h
  · cases h
  · by_contra hnot
    rw [if_neg hnot] at h
    cases h
  · cases h
  · cases h

theorem starttlsConnect_secured {answer : Answer}
    (h : (env.starttlsConnect answer serverName streamOpen st).1 = some (.ok ())) : answer.secured = true := by
  unfold Outgoing.starttlsConnect at h
  split at h
  · cases h
  · cases h
  · split_ifs at h
    · split at h
      · exact readPreTls_secured h
      next hnot _ => exact (hnot (Option.some.inj h)).elim
    · cases h

/-- Over every transport, an attempt succeeds only with its handshake. -/
theorem Outgoing.Attempted.secured {n : Nat} (h : env.Attempted Uri n conn) :
    Matching conn.rd conn.wr ∧ (env.answers env.certVerifier n).secured = true := by
  obtain ⟨srv, toAddr, serverName, streamOpen, st, rfl, h⟩ := h
  have hconnected : ∀ {rd wr} {answer : Answer}, Matching rd wr →
      (if answer.connected ∧ answer.secured then Outcome.ok (⟨rd, wr, toAddr, answer⟩ : Connected)
        else .err .io) = .ok conn →
      Matching conn.rd conn.wr ∧ answer.secured = true := by
    intro rd wr answer hm h
    split_ifs at h with hboth
    obtain rfl := Outcome.ok.inj h
    exact ⟨hm, hboth.2⟩
  unfold Outgoing.attempt at h
  dsimp only at h
  split at h
  · obtain ⟨r, hstart, hr⟩ := Option.map_eq_some_iff.mp h
    obtain ⟨⟨⟩, rfl, hr⟩ := Outcome.bind_eq_ok.mp hr
    obtain rfl := Outcome.ok.inj hr
    exact ⟨.stream, starttlsConnect_secured hstart⟩
  · obtain ⟨-, -, hr⟩ := Outcome.bind_eq_ok.mp (Option.some.inj h)
    exact hconnected .stream hr
  · exact hconnected .stream (Option.some.inj h)
  · obtain ⟨-, -, hr⟩ := Outcome.bind_eq_ok.mp (Option.some.inj h)
    exact hconnected .webSocket hr
  · exact hconnected .stream (Option.some.inj h)

end

section

variable {Uri ServerName : Type} [HttpUri Uri] [DecidableEq ServerName] {env : OutgoingConfig ServerName}
  {P : StanzaFilter → Prop}

theorem last_srvConnect {sort : SortBy} {domain : Bytes} {isC2s : Bool} {streamOpen serverResponse : Bytes}
    {f : StanzaFilter} {srv : XmppConnection Uri} {conn : Connected} {st : Dialing}
    (h : env.srvConnect sort domain isC2s streamOpen f = (some (.ok (srv, conn, serverResponse)), st)) :
    ∃ (srvs : List (XmppConnection Uri)) (v : XmppServerCertVerifier ServerName),
      env.net.getXmppConnections sort domain isC2s = .ok (srvs, v) ∧
      (env.withCustomCertificateVerifier v).Last Uri st conn := by
  unfold OutgoingConfig.srvConnect at h
  split at h
  next srvs v hfound => exact ⟨srvs, v, hfound, last_tryCandidates _ h⟩
  · cases h
  · cases h

theorem matching_srvConnect {sort : SortBy} {domain : Bytes} {isC2s : Bool} {streamOpen serverResponse : Bytes}
    {f : StanzaFilter} {srv : XmppConnection Uri} {conn : Connected} {st : Dialing}
    (h : env.srvConnect sort domain isC2s streamOpen f = (some (.ok (srv, conn, serverResponse)), st)) :
    Matching conn.rd conn.wr := by
  obtain ⟨_, _, -, n, -, hn⟩ := last_srvConnect h
  exact hn.secured.1

theorem Lasting.srvConnect (hP : Lasting P) (hid : env.given = id) {f : StanzaFilter} (h : P f) (sort : SortBy)
    (domain : Bytes) (isC2s : Bool) (streamOpen : Bytes)
    {r : Option (Outcome (XmppConnection Uri × Connected × Bytes))} {st : Dialing}
    (hr : env.srvConnect sort domain isC2s streamOpen f = (r, st)) : P st.filter := by
  unfold OutgoingConfig.srvConnect at hr
  split at hr
  next srvs v _ =>
    have hall : P ((env.withCustomCertificateVerifier v).tryCandidates domain isC2s streamOpen srvs
        ⟨f, 0, []⟩).2.filter :=
      hP.tryCandidates hid domain isC2s streamOpen srvs h
    rwa [hr] at hall
  · obtain ⟨-, rfl⟩ := Prod.mk.inj hr
    exact h
  · obtain ⟨-, rfl⟩ := Prod.mk.inj hr
    exact h

end

end XmppProxy
