import XmppProxy.Model.OutgoingConnection
import XmppProxy.Proxy.Carryover
import XmppProxy.Proxy.Rejection
import XmppProxy.Srv.Fallback
import XmppProxy.Stanza.FirstTag

/-! The mark that the loop hands to the writers: what is read from a byte stream is marked where its first
tag ends, as long as `srv_connect` leaves no mark in the filter that the client is read with. -/

namespace XmppProxy

open Lib Stanza

section

variable {f : StanzaFilter} {p : BytePoll} {buf : Bytes} {e : Nat}

theorem marking_polled (h : Marking f) (p : BytePoll) : Marking (StanzaRead.pollBytes f p).filter ∧
    ∀ buf e, (StanzaRead.pollBytes f p).result = some (.ok (some (buf, e))) → RightMark buf e := by
  have hnext : ∀ {b : UInt8} {r : Outcome (Option (Bytes × Nat))} {f' : StanzaFilter},
      f.nextEoft b = (r, f') → Marking f' := by
    intro b r f' hn
    have hf := (h.next b).1
    rwa [hn] at hf
  have hp := bytesPolled f p
  generalize StanzaRead.pollBytes f p = polled at hp
  cases hp with
  | past => exact ⟨h, by simp⟩
  | pending => exact ⟨h, by simp⟩
  | eof => exact ⟨h, by simp⟩
  | failed => exact ⟨h, by simp⟩
  | more _ hn => exact ⟨hnext hn, by simp⟩
  | reject _ hn => exact ⟨hnext hn, by simp⟩
  | panic _ hn => exact ⟨hnext hn, by simp⟩
  | @stanza b buf e f' _ hn =>
    refine ⟨hnext hn, fun buf' e' heq => ?_⟩
    obtain ⟨rfl, rfl⟩ := Prod.mk.inj (Option.some.inj (Outcome.ok.inj (Option.some.inj heq)))
    exact (h.next b).2 buf e (congrArg Prod.fst hn)

theorem idle_of_polled (h : (StanzaRead.pollBytes f p).result = some (.ok (some (buf, e)))) :
    Refines f.bufSize (StanzaRead.pollBytes f p).filter (.idle 0) := by
  have hp := bytesPolled f p
  generalize StanzaRead.pollBytes f p = polled at hp h
  cases hp with
  | @stanza b buf e f' hlt hn =>
    have hidle := refines_idle_of_stanza (Nat.le_of_lt hlt) (b := b) (x := (buf, e))
    rw [hn] at hidle
    exact hidle rfl
  | _ => cases h

end

def MarkedLoop (c : ShuffleConfig) (s : Shuffle) : Prop :=
  ∀ peer : Peer, peer.rd c = .asyncRead → Marking (peer.side s).filter

theorem poll_marking {rd : StanzaRead} (hrd : rd = .asyncRead) {f : StanzaFilter} (h : Marking f)
    (wrt : StanzaWrite) (p : rd.Poll) (res : WriteResult) : Marking (rd.poll wrt f p res).filter ∧
      ∀ buf e, (rd.poll wrt f p res).result = some (.ok (some (buf, e))) → RightMark buf e := by
  subst hrd
  exact marking_polled h p

theorem poll_idle {rd : StanzaRead} (f : StanzaFilter) (wrt : StanzaWrite) (p : rd.Poll)
    (res : WriteResult) (hrd : rd = .asyncRead) {x : Bytes × Nat}
    (h : (rd.poll wrt f p res).result = some (.ok (some x))) :
    Refines f.bufSize (rd.poll wrt f p res).filter (.idle 0) := by
  subst hrd
  exact idle_of_polled h

section

variable {c : ShuffleConfig} {s : Shuffle}

theorem MarkedLoop.step (h : MarkedLoop c s) (ev : Event c) : MarkedLoop c (Shuffle.step c s ev).2 := by
  intro peer hrd
  by_cases hp : ev.Polled s
  swap
  · rw [Shuffle.step_not_polled hp]
    exact h peer hrd
  obtain ⟨hme, hother⟩ := (ev.branched s).filters
  rw [Shuffle.step_polled hp]
  rcases ev.peer.eq_or_other peer with rfl | rfl
  · rw [Shuffle.side_of, hme]
    exact (poll_marking hrd (h ev.peer hrd) _ ev.poll ev.res).1
  · rw [Shuffle.other_side_of, hother]
    exact h ev.peer.other hrd

theorem MarkedLoop.forwarded (h : MarkedLoop c s) (ev : Event c) (hrd : ev.peer.rd c = .asyncRead)
    {buf : Bytes} {e : Nat} (hf : (Shuffle.step c s ev).1 = .forwarded buf e) : RightMark buf e :=
  (poll_marking hrd (h ev.peer hrd) _ ev.poll ev.res).2 buf e (Shuffle.step_forwarded hf).1

theorem markedLoop_start {f : StanzaFilter} (hf : c.inRd = .asyncRead → Marking f) (n : Nat)
    (toClient toServer : List Sent) : MarkedLoop c (.start f n toClient toServer) := by
  intro peer hrd
  cases peer with
  | client => exact hf hrd
  | server => exact marking_new n

end

theorem RightMark.toWsNew {buf : Bytes} {e : Nat} (h : RightMark buf e) (isC2s : Bool) :
    toWsNew buf e isC2s ≠ .panic := toWsNew_ne_panic (Nat.le_of_lt h.inside) isC2s

/-- Over a byte stream nothing of the header is left in the filter. -/
def LeavesIdle (rd : StanzaRead) (f : StanzaFilter) : Prop :=
  rd = .asyncRead → ∃ n, Refines n f (.idle 0)

def ClearPreamble (rd : StanzaRead) : Preamble → Prop
  | .accepted f _ _ => LeavesIdle rd f
  | _ => True

theorem ClearPreamble.step {rd : StanzaRead} {p : Preamble} (h : ClearPreamble rd p) (wrt : StanzaWrite)
    (poll : rd.Poll) (res : WriteResult) : ClearPreamble rd (p.step rd wrt poll res).2 := by
  cases p with
  | accepted => exact h
  | failed => trivial
  | panicked => trivial
  | reading f streamOpen =>
    have hidle := fun hrd (x : Bytes × Nat) => poll_idle f wrt poll res hrd (x := x)
    unfold Preamble.step
    dsimp only
    generalize rd.poll wrt f poll res = polled at hidle
    obtain ⟨result, f', sent⟩ := polled
    obtain _ | (_ | ⟨buf, e⟩) | err | _ := result
    · trivial
    · trivial
    · dsimp only
      split_ifs
      · trivial
      · exact fun hrd => ⟨_, hidle hrd (buf, e) rfl⟩
      · trivial
    · trivial
    · trivial

theorem clearPreamble_final (rd : StanzaRead) (wrt : StanzaWrite) (f : StanzaFilter) (streamOpen : Bytes)
    (polls : List (rd.Poll × WriteResult)) :
    ClearPreamble rd ((streamPreamble rd wrt).final (.reading f streamOpen) polls) := by
  have hstart : ClearPreamble rd (.reading f streamOpen) := trivial
  exact Machine.invariant (P := ClearPreamble rd) (fun _ a h => h.step wrt a.1 a.2) hstart polls

theorem LeavesIdle.marking {rd : StanzaRead} {f : StanzaFilter} (h : LeavesIdle rd f)
    (hrd : rd = .asyncRead) : Marking f := by
  obtain ⟨n, hf⟩ := h hrd
  exact marking_idle hf

section

variable {Cert Verifier : Type} {env : Incoming Cert Verifier} {inRd : StanzaRead} {inWr : StanzaWrite}

def Poll.rd : Poll inRd → StanzaRead
  | .client _ _ => inRd
  | .server _ _ => .asyncRead

variable (env inRd inWr) in
def MarkedConnection : Connection → Prop
  | .preamble p _ => ClearPreamble inRd p
  | .shuffle isC2s s => MarkedLoop (env.shuffleConfig inRd inWr isC2s) s
  | .ended _ _ _ => True

variable (env) in
theorem LeavesIdle.openIncoming {f : StanzaFilter} (h : LeavesIdle inRd f) (streamOpen : Bytes)
    (isC2s : Bool) : LeavesIdle inRd (env.openIncoming streamOpen isC2s f).2.1 := by
  intro hrd
  obtain ⟨n, hf⟩ := h hrd
  obtain ⟨-, -, hopen, -⟩ := openIncoming_idle env hf hf streamOpen isC2s
  exact ⟨n, hopen⟩

theorem markedConnection_accept {f : StanzaFilter} (h : LeavesIdle inRd f) (streamOpen : Bytes)
    (isC2s : Bool) (toClient : List Sent) :
    MarkedConnection env inRd inWr (.accept env f streamOpen isC2s toClient) := by
  unfold Connection.accept
  cases (if isC2s then .ok () else env.checkServer streamOpen : Outcome Unit) with
  | err e => trivial
  | panic => trivial
  | ok =>
    dsimp only
    have hopen := h.openIncoming env streamOpen isC2s
    generalize env.openIncoming streamOpen isC2s f = x at hopen
    obtain ⟨r, f', sent⟩ := x
    cases r with
    | err e => trivial
    | panic => trivial
    | ok => exact markedLoop_start hopen.marking _ _ _

theorem MarkedConnection.step {c : Connection} (h : MarkedConnection env inRd inWr c) (p : Poll inRd) :
    MarkedConnection env inRd inWr (c.step env inRd inWr p).2 := by
  cases c with
  | ended r toClient toServer => trivial
  | shuffle isC2s s => exact MarkedLoop.step h p.event
  | preamble pre toClient =>
    cases p with
    | server poll res => exact h
    | client poll res =>
      have hpre := ClearPreamble.step h inWr poll res
      unfold Connection.step
      dsimp only
      generalize pre.step inRd inWr poll res = x at hpre
      obtain ⟨sent, _ | ⟨f, streamOpen, isC2s⟩ | _ | _⟩ := x
      · trivial
      · exact markedConnection_accept hpre _ _ _
      · trivial
      · trivial

theorem MarkedConnection.forwarded {c : Connection} (h : MarkedConnection env inRd inWr c) {p : Poll inRd}
    (hrd : p.rd = .asyncRead) {buf : Bytes} {e : Nat}
    (hf : (c.step env inRd inWr p).1 = .forwarded buf e) : RightMark buf e := by
  cases c with
  | preamble pre toClient => cases p <;> cases hf
  | ended r toClient toServer => cases hf
  | shuffle isC2s s =>
    refine MarkedLoop.forwarded h p.event ?_ hf
    cases p
    · exact hrd
    · rfl

end

section

variable {Cert Verifier : Type} {env : Incoming Cert Verifier} {sent : List Sent}

variable (env) in
def MarkedTls : TlsConnection → Prop
  | .running c => MarkedConnection env .asyncRead .asyncWrite c
  | _ => True

theorem MarkedTls.step (c : TlsConnection) (ev : TlsEvent) (h : MarkedTls env c) :
    MarkedTls env (c.step env ev).2 := by
  by_cases hplain : c.Plain
  · rcases hplain.step env ev with hstill | ⟨-, f, sent, heq⟩
    · generalize (c.step env ev).2 = d at hstill
      cases d with
      | running c => exact hstill.elim
      | _ => trivial
    · rw [heq]
      trivial
  cases c with
  | accepted f sent =>
    cases ev with
    | sniffed websocket => cases websocket <;> trivial
    | _ => trivial
  | running c =>
    cases ev with
    | poll p => exact MarkedConnection.step h p
    | _ => exact h
  | websocket f sent => trivial
  | _ => exact absurd trivial hplain

theorem MarkedTls.forwarded {c : TlsConnection} (h : MarkedTls env c) {ev : TlsEvent} {buf : Bytes}
    {e : Nat} (hf : (c.step env ev).1 = .forwarded buf e) : RightMark buf e := by
  unfold TlsConnection.step at hf
  split at hf
  case h_11 c p =>
    refine MarkedConnection.forwarded h (p := p) ?_ hf
    cases p <;> rfl
  all_goals cases hf

variable (env) in
theorem tls_marked (events : List TlsEvent) {buf : Bytes} {e : Nat}
    (h : .forwarded buf e ∈ (handleTlsConnection env).outputs (.new env) events) : RightMark buf e := by
  rw [Machine.outputs_eq_trace, List.mem_map] at h
  obtain ⟨⟨c, ev⟩, hmem, hf⟩ := h
  have hstart : MarkedTls env (.new env) := trivial
  have hc := Machine.trace_invariant (P := MarkedTls env) (Q := fun _ => True)
    (fun c ev _ h => MarkedTls.step c ev h) hstart (fun _ _ => trivial) _ hmem
  exact MarkedTls.forwarded hc hf

variable (env) in
theorem connection_marked {inRd : StanzaRead} {inWr : StanzaWrite} (f : StanzaFilter)
    (polls : List (Poll inRd)) {c : Connection} {p : Poll inRd}
    (hmem : (c, p) ∈ (shuffleRdWrFilter env inRd inWr).trace (.preamble (.reading f []) sent) polls)
    (hrd : p.rd = .asyncRead) {buf : Bytes} {e : Nat}
    (hf : (c.step env inRd inWr p).1 = .forwarded buf e) : RightMark buf e := by
  have hstart : MarkedConnection env inRd inWr (.preamble (.reading f []) sent) := trivial
  have hc := Machine.trace_invariant (P := MarkedConnection env inRd inWr) (Q := fun _ => True)
    (fun _ p _ h => h.step p) hstart (fun _ _ => trivial) _ hmem
  exact MarkedConnection.forwarded hc hrd hf

end

/-- A filter that is as a new one that has read its pending bytes. -/
def AsNew (f : StanzaFilter) : Prop :=
  let g := filterNextEoft.final (.new f.bufSize) (f.buf.take f.cnt)
  Alike f g ∧ f.endOfFirstTag = g.endOfFirstTag

theorem AsNew.marking {f : StanzaFilter} (h : AsNew f) : Marking f := by
  obtain ⟨halike, hmark⟩ := h
  obtain ⟨s, href, hs⟩ := marking_run (marking_new f.bufSize) (f.buf.take f.cnt)
  rw [← halike.size] at href hs
  refine ⟨s, ⟨rfl, ?_, ?_, ?_, ?_, ?_⟩, hs⟩
  · exact halike.cnt.trans href.cnt
  · exact halike.take.trans href.take
  · exact halike.tagCnt.trans href.tagCnt
  · exact hmark.trans href.eoft
  · exact halike.state.trans href.state

theorem asNew_iff {n : Nat} {f : StanzaFilter} (h : Idle n f) : AsNew f ↔ f.endOfFirstTag = 0 := by
  have hnew : filterNextEoft.final (.new f.bufSize) (f.buf.take f.cnt) = .new f.bufSize := by
    rw [h.cnt]
    rfl
  unfold AsNew
  rw [hnew]
  refine ⟨And.right, fun hmark => ⟨?_, hmark⟩⟩
  obtain rfl := h.size
  exact h.alike (idle_new f.bufSize)

section

variable {Uri ServerName : Type} {env : Outgoing ServerName}

theorem readPreamble_idle {conn : Connected} {st st' : Dialing} {r : Bytes}
    (h : Outgoing.readPreamble conn st = (some (.ok r), st')) : LeavesIdle conn.rd st'.filter := by
  have hfinal := clearPreamble_final conn.rd conn.wr st.filter [] (conn.answer.preamble conn.rd)
  unfold Outgoing.readPreamble at h
  dsimp only at h
  split at h
  · cases h
  next heq =>
    rw [heq] at hfinal
    cases h
    exact hfinal
  · cases h
  · cases h

theorem fate_idle {domain streamOpen r : Bytes} {isC2s : Bool} {srv : XmppConnection Uri}
    {st st' : Dialing} {conn : Connected}
    (h : env.fate domain isC2s streamOpen srv st = (.answered conn r, st')) :
    LeavesIdle conn.rd st'.filter := by
  unfold Outgoing.fate at h
  split at h
  · cases h
  · cases h
  · cases h
  · split at h
    · cases h
    · cases h
    · split at h
      · cases h
      · cases h
      · cases h
      next heq =>
        cases h
        exact readPreamble_idle heq

theorem tryCandidates_idle {domain streamOpen r : Bytes} {isC2s : Bool} {srvs : List (XmppConnection Uri)}
    {st st' : Dialing} {srv : XmppConnection Uri} {conn : Connected}
    (h : env.tryCandidates domain isC2s streamOpen srvs st = (some (.ok (srv, conn, r)), st')) :
    LeavesIdle conn.rd st'.filter := by
  induction srvs generalizing st with
  | nil => cases h
  | cons srv' srvs ih =>
    rw [Outgoing.tryCandidates_cons] at h
    cases hfate : env.fate domain isC2s streamOpen srv' st with
    | mk fate st₁ =>
      rw [hfate] at h
      cases fate with
      | notConnected e => exact ih h
      | notAnswered e => exact ih h
      | notSent e => cases h
      | answered conn' r' =>
        cases h
        exact fate_idle hfate
      | pending => cases h
      | panicked => cases h

end

/-- Behind a WebSocket, where no header was read through it, the filter goes to a client on a byte stream
as if new. -/
def HandsOver : OutgoingConnection → Prop
  | .connected .asyncRead _ conn _ _ f _ => conn.rd = .webSocketRead → AsNew f
  | _ => True

def OutgoingConnection.polled : OutgoingConnection → OutgoingEvent → Option StanzaRead
  | .shuffle c _, .client _ _ => some c.inRd
  | .shuffle c _, .server _ _ => some c.outRd
  | _, _ => none

def MarkedOutgoing : OutgoingConnection → Prop
  | .connected _ _ conn _ _ f _ => LeavesIdle conn.rd f
  | .shuffle c s => MarkedLoop c s
  | _ => True

section

variable {Uri ServerName : Type} [HttpUri Uri] [DecidableEq ServerName] {env : OutgoingListener ServerName}
  {c : OutgoingConnection}

theorem markedOutgoing_accept (inRd : StanzaRead) (inWr : StanzaWrite) (f : StanzaFilter)
    (streamOpen : Bytes) (isC2s : Bool) (toClient : List Sent) :
    MarkedOutgoing (.accept Uri env inRd inWr f streamOpen isC2s toClient) := by
  unfold OutgoingConnection.accept
  split
  · trivial
  · trivial
  next domain _ =>
    dsimp only
    split
    · trivial
    next srv conn serverResponse st heq =>
      unfold OutgoingConfig.srvConnect at heq
      split at heq
      · exact tryCandidates_idle heq
      · cases heq
      · cases heq
    · trivial
    · trivial

theorem markedOutgoing_shuffle {inRd : StanzaRead} {inWr : StanzaWrite} {conn : Connected} {isC2s : Bool}
    {serverResponse : Bytes} {f : StanzaFilter} {toClient : List Sent} (trace : Bool) (n : Nat)
    (sent : List Sent)
    (hover : HandsOver (.connected inRd inWr conn isC2s serverResponse f toClient))
    (h : LeavesIdle conn.rd f) :
    MarkedOutgoing (.shuffle ⟨inRd, inWr, conn.rd, conn.wr, isC2s, trace⟩ (.start f n sent [])) := by
  refine markedLoop_start (fun hrd => ?_) n sent []
  obtain rfl : inRd = .asyncRead := hrd
  cases hconn : conn.rd with
  | asyncRead => exact h.marking hconn
  | webSocketRead => exact (hover hconn).marking

variable (Uri env) in
theorem MarkedOutgoing.step (ev : OutgoingEvent) (hover : HandsOver c) (h : MarkedOutgoing c) :
    MarkedOutgoing (c.step Uri env ev).2 := by
  cases c with
  | sniffing f =>
    cases ev with
    | first b₀ b₁ b₂ =>
      unfold OutgoingConnection.step
      dsimp only
      split_ifs <;> trivial
    | _ => trivial
  | accepting f => cases ev <;> trivial
  | preamble inRd inWr p toClient =>
    cases ev with
    | client poll res =>
      unfold OutgoingConnection.step
      dsimp only
      generalize p.step inRd inWr (poll inRd) res = x
      obtain ⟨sent, _ | _ | _ | _⟩ := x
      · trivial
      · exact markedOutgoing_accept _ _ _ _ _ _
      · trivial
      · trivial
    | _ => trivial
  | connecting toClient => trivial
  | connected inRd inWr conn isC2s serverResponse f toClient =>
    cases ev with
    | answered res =>
      unfold OutgoingConnection.step
      dsimp only
      generalize inWr.send env.outgoing.trace isC2s serverResponse 0 res = x
      obtain ⟨_ | _ | _, sent⟩ := x
      · exact markedOutgoing_shuffle _ _ _ hover h
      · trivial
      · trivial
    | _ => exact h
  | shuffle cfg s =>
    cases ev with
    | client poll res => exact MarkedLoop.step h (.client (poll cfg.inRd) res)
    | server poll res => exact MarkedLoop.step h (.server (poll cfg.outRd) res)
    | _ => exact h
  | ended r toClient => trivial

theorem MarkedOutgoing.forwarded {ev : OutgoingEvent} (h : MarkedOutgoing c)
    (hrd : c.polled ev = some .asyncRead) {buf : Bytes} {e : Nat}
    (hf : (c.step Uri env ev).1 = .forwarded buf e) : RightMark buf e := by
  cases c with
  | shuffle cfg s =>
    cases ev with
    | client poll res => exact MarkedLoop.forwarded h (.client (poll cfg.inRd) res) (Option.some.inj hrd) hf
    | server poll res => exact MarkedLoop.forwarded h (.server (poll cfg.outRd) res) (Option.some.inj hrd) hf
    | _ => cases hrd
  | _ => cases hrd

theorem outgoing_marked {events : List OutgoingEvent}
    (hover : ∀ x ∈ (handleOutgoingConnection Uri env).trace (.new env) events, HandsOver x.1)
    {ev : OutgoingEvent} (hmem : (c, ev) ∈ (handleOutgoingConnection Uri env).trace (.new env) events)
    (hrd : c.polled ev = some .asyncRead) {buf : Bytes} {e : Nat}
    (hf : (c.step Uri env ev).1 = .forwarded buf e) : RightMark buf e := by
  have hstart : MarkedOutgoing (.new env) := trivial
  have hc := Machine.trace_invariant (P := MarkedOutgoing) (Q := HandsOver)
    (fun _ ev hover h => h.step Uri env ev hover) hstart hover _ hmem
  exact hc.forwarded hrd hf

end

/-- Whatever was read in plain text, what an incoming connection reads from a byte stream is marked where its
first tag ends, also behind an error of the filter. So it is in an outgoing one whose server is reached over a
byte stream, or that hands over a filter as if new: between stanzas no other one will do. -/
theorem end_of_first_tag {Cert Verifier ServerName : Type} (Uri : Type) [HttpUri Uri] [DecidableEq ServerName]
    (incoming : Incoming Cert Verifier) (outgoing : OutgoingListener ServerName) :
    (∀ (events : List TlsEvent) (buf : Bytes) (e : Nat),
      .forwarded buf e ∈ (handleTlsConnection incoming).outputs (.new incoming) events →
        RightMark buf e ∧ ∀ isC2s, toWsNew buf e isC2s ≠ .panic) ∧
    (∀ (inRd : StanzaRead) (inWr : StanzaWrite) (f : StanzaFilter) (sent : List Sent)
      (polls : List (Poll inRd)) (c : Connection) (p : Poll inRd) (buf : Bytes) (e : Nat),
      (c, p) ∈ (shuffleRdWrFilter incoming inRd inWr).trace (.preamble (.reading f []) sent) polls →
        p.rd = .asyncRead → (c.step incoming inRd inWr p).1 = .forwarded buf e →
          RightMark buf e ∧ ∀ isC2s, toWsNew buf e isC2s ≠ .panic) ∧
    (∀ (events : List OutgoingEvent) (c : OutgoingConnection) (ev : OutgoingEvent) (buf : Bytes) (e : Nat),
      (∀ x ∈ (handleOutgoingConnection Uri outgoing).trace (.new outgoing) events, HandsOver x.1) →
        (c, ev) ∈ (handleOutgoingConnection Uri outgoing).trace (.new outgoing) events →
        c.polled ev = some .asyncRead → (c.step Uri outgoing ev).1 = .forwarded buf e →
          RightMark buf e ∧ ∀ isC2s, toWsNew buf e isC2s ≠ .panic) ∧
    ∀ (n : Nat) (f : StanzaFilter), 7 ≤ n → Idle n f →
      (AsNew f ↔ ∀ bs buf e, .ok (some (buf, e)) ∈ filterNextEoft.outputs f bs → RightMark buf e) := by
  refine ⟨?_, ?_, ?_, ?_⟩
  · intro events buf e h
    have hmark := tls_marked incoming events h
    exact ⟨hmark, RightMark.toWsNew hmark⟩
  · intro inRd inWr f sent polls c p buf e hmem hrd hf
    have hmark := connection_marked incoming f polls hmem hrd hf
    exact ⟨hmark, RightMark.toWsNew hmark⟩
  · intro events c ev buf e hover hmem hrd hf
    have hmark := outgoing_marked hover hmem hrd hf
    exact ⟨hmark, RightMark.toWsNew hmark⟩
  · intro n f hn hf
    rw [asNew_iff hf]
    exact hf.marks_iff hn

instance : DecidablePred AsNew := fun f =>
  let g := filterNextEoft.final (.new f.bufSize) (f.buf.take f.cnt)
  decidable_of_iff ((f.bufSize = g.bufSize ∧ f.cnt = g.cnt ∧ g.cnt ≤ g.bufSize ∧
      f.buf.take f.cnt = g.buf.take g.cnt ∧ f.tagCnt = g.tagCnt ∧ f.state = g.state) ∧
      f.endOfFirstTag = g.endOfFirstTag)
    ⟨fun ⟨⟨hsize, hcnt, hle, htake, htag, hstate⟩, hmark⟩ => ⟨⟨hsize, hcnt, hle, htake, htag, hstate⟩, hmark⟩,
      fun ⟨⟨hsize, hcnt, hle, htake, htag, hstate⟩, hmark⟩ => ⟨⟨hsize, hcnt, hle, htake, htag, hstate⟩, hmark⟩⟩

instance : DecidablePred HandsOver
  | .connected .asyncRead _ conn _ _ f _ =>
    inferInstanceAs (Decidable (conn.rd = .webSocketRead → AsNew f))
  | .connected .webSocketRead _ _ _ _ _ _ => .isTrue trivial
  | .sniffing _ => .isTrue trivial
  | .accepting _ => .isTrue trivial
  | .preamble _ _ _ _ => .isTrue trivial
  | .connecting _ => .isTrue trivial
  | .shuffle _ _ => .isTrue trivial
  | .ended _ _ => .isTrue trivial

structure OneHost where
  text : Bytes
  deriving BEq

instance : HttpUri OneHost where
  tryFrom url := some ⟨url⟩
  host _ := some (bytes "a.org")
  port _ := none
  toStr := OneHost.text
  parseUrl _ := none
  urlPort _ := none

/-- A domain with a record for StartTLS and a WebSocket behind it. StartTLS, where it is `reachable`, proceeds
but does not come to TLS. -/
def lateWebSocket (reachable : Bool) : OutgoingListener Bytes where
  outgoing :=
    { net :=
        { exampleNet with
          txtLookup := fun _ => .ok [.txt [bytes "_xmpp-client-websocket=wss://a.org"]]
          httpsGet := fun _ => .ok ⟨404, .ok []⟩ }
      lookupIp := fun _ => .ok [.ofV4 192 0 2 2]
      answers := fun _ n =>
        { exampleAnswer .done with
          connected := if n = 0 then reachable else true
          secured := n != 0
          preamble := fun
            | .asyncRead => []
            | .webSocketRead => [(.message (.text (bytes "<open />")), .done)] }
      trace := false }
  sort := insertionSortBy
  maxStanzaSizeBytes := 128

def clientByte (b : UInt8) : OutgoingEvent :=
  .client
    (fun
      | .asyncRead => .byte b
      | .webSocketRead => .pending)
    .done

/-- A client on a byte stream that sends its header, and then all of `<a/>` but the `>`. -/
def beforeLast : List OutgoingEvent :=
  .first lt 115 116 :: (bytes "<stream:stream to='a.org' xmlns='jabber:client'>").map clientByte ++
    .answered .done :: (bytes "<a/").map clientByte

def lateConnection (reachable : Bool) : OutgoingConnection :=
  (handleOutgoingConnection OneHost (lateWebSocket reachable)).final (.new (lateWebSocket reachable)) beforeLast

/-- A client on a WebSocket that opens the stream, whose target answers with all of `</stream:stream>` but the
`>`. -/
def beforeClose : List (Poll .webSocketRead) :=
  .client (.message (.text (bytes "<open xmlns='urn:ietf:params:xml:ns:xmpp-framing'/>"))) .done ::
    (bytes "</stream:stream").map fun b => .server (.byte b) .done

set_option maxRecDepth 2000 in
theorem end_of_first_tag_runs :
    (RightMark (bytes "<a b='>'/>") 9 ∧ ∀ isC2s, toWsNew (bytes "<a b='>'/>") 9 isC2s ≠ .panic) ∧
    (RightMark (bytes "</stream:stream>") 15 ∧ ∀ isC2s, toWsNew (bytes "</stream:stream>") 15 isC2s ≠ .panic) ∧
    (RightMark (bytes "<a/>") 3 ∧ ∀ isC2s, toWsNew (bytes "<a/>") 3 isC2s ≠ .panic) ∧
    ∀ bs buf e, .ok (some (buf, e)) ∈ filterNextEoft.outputs (.new 16) bs → RightMark buf e :=
  have marked := end_of_first_tag OneHost tlsTarget (lateWebSocket false)
  ⟨marked.1 (directTls 1 ++ .sniffed false ::
        (bytes "<stream:stream xmlns='jabber:client'><a b='>'/>").map fun b => .poll (.client (.byte b) .done))
      _ _ (by decide +kernel),
    marked.2.1 .webSocketRead .webSocketClientWrite (.new 128) []
      (beforeClose ++ [.server (.byte gt) .done]) _ (.server (.byte gt) .done) _ _
      (Machine.mem_trace_concat _ _ _ _) rfl (by decide +kernel),
    marked.2.2.1 (beforeLast ++ [clientByte gt]) (lateConnection false)
      (clientByte gt) _ _ (by decide +kernel) (Machine.mem_trace_concat _ _ _ _) (by decide +kernel)
      (by decide +kernel),
    (marked.2.2.2 16 (.new 16) (by decide) (idle_new 16)).mp (by decide)⟩

/-- The mark of a `<proceed />` whose TLS failed is left to the client's first stanza, and the writer panics. -/
theorem end_of_first_tag_stale : ¬ ∀ {Uri ServerName : Type} [HttpUri Uri] [DecidableEq ServerName]
    (env : OutgoingListener ServerName) (events : List OutgoingEvent) (c : OutgoingConnection)
    (ev : OutgoingEvent) (buf : Bytes) (e : Nat),
    (∀ r ∈ (handleOutgoingConnection Uri env).outputs (.new env) events, ∀ err, r ≠ .rejected err) →
      (c, ev) ∈ (handleOutgoingConnection Uri env).trace (.new env) events →
      c.polled ev = some .asyncRead → (c.step Uri env ev).1 = .forwarded buf e →
        RightMark buf e ∧ ∀ isC2s, toWsNew buf e isC2s ≠ .panic := by
  intro h
  have hout : (handleOutgoingConnection OneHost (lateWebSocket true)).outputs (.new (lateWebSocket true))
      (beforeLast ++ [clientByte gt]) =
        List.replicate beforeLast.length .quiet ++ [.forwarded (bytes "<a/>") 10] := by decide +kernel
  have hclean : ∀ r ∈ (handleOutgoingConnection OneHost (lateWebSocket true)).outputs
      (.new (lateWebSocket true)) (beforeLast ++ [clientByte gt]), ∀ err, r ≠ .rejected err := by
    rw [hout]
    intro r hr err
    rcases List.mem_append.mp hr with hr | hr
    · rw [List.eq_of_mem_replicate hr]
      simp
    · rw [List.mem_singleton.mp hr]
      simp
  obtain ⟨hrd, hstep⟩ : (lateConnection true).polled (clientByte gt) = some .asyncRead ∧
      ((lateConnection true).step OneHost (lateWebSocket true) (clientByte gt)).1 =
        .forwarded (bytes "<a/>") 10 := by decide +kernel
  have hmark := (h (lateWebSocket true) (beforeLast ++ [clientByte gt]) (lateConnection true) (clientByte gt)
    (bytes "<a/>") 10 hclean (Machine.mem_trace_concat _ _ _ _) hrd hstep).1
  exact absurd hmark.inside (by decide)

end XmppProxy
