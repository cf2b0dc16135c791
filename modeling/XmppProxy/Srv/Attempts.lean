import XmppProxy.Proxy.Carryover
import XmppProxy.Srv.Fallback

/-! What an attempt that failed leaves for the next one. All attempts of `srv_connect` read with one
filter: the run is compared with one in which every attempt is given a new filter. -/

namespace XmppProxy

open Lib Stanza

/-- Filters that a reader does not tell apart. Over a WebSocket the filter is not fed, and what is in it
stays for the client's stream. -/
def Interchangeable : StanzaRead → StanzaFilter → StanzaFilter → Prop
  | .asyncRead, f, g => Alike f g
  | .webSocketRead, f, g => ∃ n, Refines n f (.idle 0) ∧ Refines n g (.idle 0)

theorem Interchangeable.size {rd : StanzaRead} {f g : StanzaFilter} (h : Interchangeable rd f g) :
    f.bufSize = g.bufSize := by
  cases rd with
  | asyncRead => exact Alike.size h
  | webSocketRead =>
    obtain ⟨n, hf, hg⟩ := h
    exact hf.size.trans hg.size.symm

/-- What two such readers make of a poll: the same, or the same stanza with another mark, and then nothing
of before is left. -/
inductive SameRead (rd : StanzaRead) : StanzaRead.Polled → StanzaRead.Polled → Prop where
  | same {f g : StanzaFilter} (r : Option (Outcome (Option (Bytes × Nat)))) (sent : List Sent) :
      (∀ x, r ≠ some (.ok (some x))) → Interchangeable rd f g → SameRead rd ⟨r, f, sent⟩ ⟨r, g, sent⟩
  | stanza {f g : StanzaFilter} {n : Nat} (buf : Bytes) (e e' : Nat) (sent : List Sent) :
      Interchangeable rd f g → Refines n f (.idle 0) → Refines n g (.idle 0) →
      SameRead rd ⟨some (.ok (some (buf, e))), f, sent⟩ ⟨some (.ok (some (buf, e'))), g, sent⟩

theorem Interchangeable.poll {rd : StanzaRead} {f g : StanzaFilter} (h : Interchangeable rd f g)
    (wrt : StanzaWrite) (p : rd.Poll) (res : WriteResult) :
    SameRead rd (rd.poll wrt f p res) (rd.poll wrt g p res) := by
  cases rd with
  | asyncRead =>
    have hpoll := XmppProxy.Alike.poll h p
    change SameRead .asyncRead (StanzaRead.pollBytes f p) (StanzaRead.pollBytes g p)
    generalize StanzaRead.pollBytes f p = x at hpoll
    generalize StanzaRead.pollBytes g p = y at hpoll
    cases hpoll with
    | same r hne hfg => exact .same r [] hne hfg
    | stanza buf e e' hfg hf hg => exact .stanza buf e e' [] hfg hf hg
  | webSocketRead =>
    have hsize := h.size
    obtain ⟨n, hf, hg⟩ := h
    have hpair : Interchangeable .webSocketRead f g := ⟨n, hf, hg⟩
    change SameRead .webSocketRead (StanzaRead.pollMessage wrt f res p) (StanzaRead.pollMessage wrt g res p)
    cases p with
    | pending => exact .same _ [] (fun x h => by cases h) hpair
    | ended => exact .same _ [] (fun x h => by cases h) hpair
    | failed => exact .same _ [] (fun x h => by cases h) hpair
    | message m =>
      cases m with
      | text stanza =>
        unfold StanzaRead.pollMessage
        dsimp only
        by_cases hlen : (fromWs stanza).length ≤ f.bufSize
        · rw [dif_pos hlen, dif_pos (hsize ▸ hlen)]
          have hf' := refines_scratch hf _ hlen
          have hg' := refines_scratch hg _ (hsize ▸ hlen)
          exact .stanza _ 0 0 [] ⟨n, hf', hg'⟩ hf' hg'
        · rw [dif_neg hlen, dif_neg (hsize ▸ hlen)]
          exact .same _ [] (fun x h => by cases h) hpair
      | ping data =>
        unfold StanzaRead.pollMessage
        cases wrt with
        | asyncWrite => exact .same _ [] (fun x h => by cases h) hpair
        | webSocketClientWrite =>
          dsimp only
          rcases transmit (some (.pong data)) res with ⟨_ | e | _, sent⟩
          · exact .same _ sent (fun x h => by cases h) hpair
          · exact .same _ sent (fun x h => by cases h) hpair
          · exact .same _ sent (fun x h => by cases h) hpair
      | close => exact .same _ [] (fun x h => by cases h) hpair
      | pong => exact .same _ [] (fun x h => by cases h) hpair
      | binary => exact .same _ [] (fun x h => by cases h) hpair

inductive SamePreamble (rd : StanzaRead) : Preamble → Preamble → Prop where
  | reading {f g : StanzaFilter} (streamOpen : Bytes) : Interchangeable rd f g →
      SamePreamble rd (.reading f streamOpen) (.reading g streamOpen)
  | accepted {f g : StanzaFilter} {n : Nat} (streamOpen : Bytes) (isC2s : Bool) :
      Refines n f (.idle 0) → Refines n g (.idle 0) →
      SamePreamble rd (.accepted f streamOpen isC2s) (.accepted g streamOpen isC2s)
  | failed {f g : StanzaFilter} (e : Error) : f.bufSize = g.bufSize →
      SamePreamble rd (.failed f e) (.failed g e)
  | panicked {f g : StanzaFilter} : f.bufSize = g.bufSize → SamePreamble rd (.panicked f) (.panicked g)

section

variable {rd : StanzaRead} {wrt : StanzaWrite}

def readAt (wrt : StanzaWrite) (p : Preamble) (poll : rd.Poll) (res : WriteResult) : Option Bytes :=
  match p with
  | .reading f _ =>
    match (rd.poll wrt f poll res).result with
    | some (.ok (some (buf, _))) => some buf
    | _ => none
  | _ => none

theorem preambleStanzas_eq (p : Preamble) (polls : List (rd.Poll × WriteResult)) :
    Outgoing.preambleStanzas rd wrt p polls =
      ((streamPreamble rd wrt).trace p polls).filterMap fun x => readAt wrt x.1 x.2.1 x.2.2 := rfl

theorem preambleStanzas_cons (p : Preamble) (poll : rd.Poll × WriteResult)
    (polls : List (rd.Poll × WriteResult)) :
    Outgoing.preambleStanzas rd wrt p (poll :: polls) =
      (readAt wrt p poll.1 poll.2).toList ++
        Outgoing.preambleStanzas rd wrt (p.step rd wrt poll.1 poll.2).2 polls := by
  rw [preambleStanzas_eq, preambleStanzas_eq, Machine.trace, List.filterMap_cons]
  dsimp only
  cases readAt wrt p poll.1 poll.2 with
  | none => rfl
  | some buf => rfl

variable (wrt) in
theorem SamePreamble.step {p q : Preamble} (h : SamePreamble rd p q) (poll : rd.Poll) (res : WriteResult) :
    readAt wrt p poll res = readAt wrt q poll res ∧
      SamePreamble rd (p.step rd wrt poll res).2 (q.step rd wrt poll res).2 := by
  cases h with
  | accepted streamOpen isC2s hf hg => exact ⟨rfl, .accepted streamOpen isC2s hf hg⟩
  | failed e hsize => exact ⟨rfl, .failed e hsize⟩
  | panicked hsize => exact ⟨rfl, .panicked hsize⟩
  | @reading f g streamOpen hfg =>
    have hpoll := hfg.poll wrt poll res
    unfold readAt Preamble.step
    dsimp only
    generalize rd.poll wrt f poll res = x at hpoll
    generalize rd.poll wrt g poll res = y at hpoll
    cases hpoll with
    | same r sent hne hfg' =>
      obtain _ | (_ | x) | err | _ := r
      · exact ⟨rfl, .reading streamOpen hfg'⟩
      · exact ⟨rfl, .failed _ hfg'.size⟩
      · exact absurd rfl (hne x)
      · exact ⟨rfl, .failed _ hfg'.size⟩
      · exact ⟨rfl, .panicked hfg'.size⟩
    | stanza buf e e' sent hfg' hf hg =>
      refine ⟨rfl, ?_⟩
      dsimp only
      by_cases hdecl : bytes "<?xml " <+: buf
      · rw [if_pos hdecl, if_pos hdecl]
        exact .reading _ hfg'
      rw [if_neg hdecl, if_neg hdecl]
      by_cases hh : bytes "<stream:stream " <+: buf
      · rw [if_pos hh, if_pos hh]
        exact .accepted _ _ hf hg
      · rw [if_neg hh, if_neg hh]
        exact .failed _ hfg'.size

variable (wrt) in
theorem SamePreamble.run {p q : Preamble} (h : SamePreamble rd p q) (polls : List (rd.Poll × WriteResult)) :
    Outgoing.preambleStanzas rd wrt p polls = Outgoing.preambleStanzas rd wrt q polls ∧
      SamePreamble rd ((streamPreamble rd wrt).final p polls) ((streamPreamble rd wrt).final q polls) := by
  induction polls generalizing p q with
  | nil => exact ⟨rfl, h⟩
  | cons poll polls ih =>
    obtain ⟨hread, hstep⟩ := h.step wrt poll.1 poll.2
    obtain ⟨hstanzas, hfinal⟩ := ih hstep
    refine ⟨?_, hfinal⟩
    rw [preambleStanzas_cons, preambleStanzas_cons, hread, hstanzas]

end

theorem Alike.pollNext {f g : StanzaFilter} (h : Alike f g) (p : BytePoll) :
    (StanzaRead.pollNext f p).1 = (StanzaRead.pollNext g p).1 ∧
      Alike (StanzaRead.pollNext f p).2 (StanzaRead.pollNext g p).2 := by
  unfold StanzaRead.pollNext
  rw [h.cnt, h.size]
  split_ifs
  swap
  · exact ⟨rfl, h⟩
  cases p with
  | pending => exact ⟨rfl, h⟩
  | eof => exact ⟨rfl, h⟩
  | failed => exact ⟨rfl, h⟩
  | byte b =>
    obtain ⟨hr, hfg⟩ := alike_next f g b h
    change (f.next b).1 = (g.next b).1 at hr
    change Alike (f.next b).2 (g.next b).2 at hfg
    dsimp only
    generalize f.next b = x at hr hfg
    generalize g.next b = y at hr hfg
    obtain ⟨r, f'⟩ := x
    obtain ⟨r', g'⟩ := y
    dsimp only at hr hfg
    subst hr
    obtain (_ | u) | e | _ := r
    · exact ⟨rfl, hfg⟩
    · exact ⟨rfl, hfg⟩
    · exact ⟨rfl, hfg⟩
    · exact ⟨rfl, hfg⟩

inductive SamePreTls : PreTls → PreTls → Prop where
  | reading {f g : StanzaFilter} : Alike f g → SamePreTls (.reading f) (.reading g)
  | proceeding {f g : StanzaFilter} : Alike f g → SamePreTls (.proceeding f) (.proceeding g)
  | failed {f g : StanzaFilter} (e : Error) : Alike f g → SamePreTls (.failed f e) (.failed g e)
  | panicked {f g : StanzaFilter} : Alike f g → SamePreTls (.panicked f) (.panicked g)

theorem samePreTls_answer {f g : StanzaFilter} (h : Alike f g) (buf : Bytes) (res : WriteResult) :
    SamePreTls (PreTls.answer f buf res) (PreTls.answer g buf res) := by
  unfold PreTls.answer
  split_ifs
  · exact .reading h
  · rcases transmit (some (.raw Outgoing.starttls)) res with ⟨_ | e | _, sent⟩
    · exact .reading h
    · exact .failed e h
    · exact .panicked h
  · exact .proceeding h
  · exact .failed _ h

theorem readProceed_same : readProceed.Simulates readProceed SamePreTls Eq := by
  rintro s t ⟨poll, res⟩ h
  change (s.step poll res).1 = (t.step poll res).1 ∧ SamePreTls (s.step poll res).2 (t.step poll res).2
  cases h with
  | proceeding h => exact ⟨rfl, .proceeding h⟩
  | failed e h => exact ⟨rfl, .failed e h⟩
  | panicked h => exact ⟨rfl, .panicked h⟩
  | @reading f g h =>
    obtain ⟨hr, hfg⟩ := XmppProxy.Alike.pollNext h poll
    unfold PreTls.step
    dsimp only
    generalize StanzaRead.pollNext f poll = x at hr hfg
    generalize StanzaRead.pollNext g poll = y at hr hfg
    obtain ⟨r, f'⟩ := x
    obtain ⟨r', g'⟩ := y
    dsimp only at hr hfg
    subst hr
    obtain _ | (_ | buf) | e | _ := r
    · exact ⟨rfl, .reading hfg⟩
    · exact ⟨rfl, .failed _ hfg⟩
    · exact ⟨rfl, samePreTls_answer hfg buf res⟩
    · exact ⟨rfl, .failed _ hfg⟩
    · exact ⟨rfl, .panicked hfg⟩

/-- Two runs that have come equally far: their filters may differ in all but the size. -/
structure SameDial (s t : Dialing) : Prop where
  attempts : s.attempts = t.attempts
  log : s.log = t.log
  size : s.filter.bufSize = t.filter.bufSize

theorem SameDial.refl (s : Dialing) : SameDial s s := ⟨rfl, rfl, rfl⟩

/-- An attempt comes to the same, and what it reads from then on it reads alike. -/
structure SameAttempt (x y : Option (Outcome Connected) × Dialing) : Prop where
  result : x.1 = y.1
  dial : SameDial x.2 y.2
  filter : ∀ conn, x.1 = some (.ok conn) → Interchangeable conn.rd x.2.filter y.2.filter

theorem readPreTls_same (answer : Answer) {s t : Dialing} (h : SameDial s t) (hfg : Alike s.filter t.filter) :
    (readPreTls answer s).1 = (readPreTls answer t).1 ∧
      SameDial (readPreTls answer s).2 (readPreTls answer t).2 ∧
      Alike (readPreTls answer s).2.filter (readPreTls answer t).2.filter := by
  have hstart : SamePreTls (.reading s.filter) (.reading t.filter) := .reading hfg
  have houts := readProceed_same.outputs_eq hstart answer.preTls
  have hfinal := readProceed_same.final hstart answer.preTls
  unfold readPreTls
  dsimp only
  rw [houts, h.log]
  generalize readProceed.final (.reading s.filter) answer.preTls = x at hfinal
  generalize readProceed.final (.reading t.filter) answer.preTls = y at hfinal
  cases hfinal with
  | reading h' => exact ⟨rfl, ⟨h.attempts, rfl, h'.size⟩, h'⟩
  | proceeding h' => exact ⟨rfl, ⟨h.attempts, rfl, h'.size⟩, h'⟩
  | failed e h' => exact ⟨rfl, ⟨h.attempts, rfl, h'.size⟩, h'⟩
  | panicked h' => exact ⟨rfl, ⟨h.attempts, rfl, h'.size⟩, h'⟩

variable {Uri ServerName : Type}

def OutgoingConfig.refreshed (config : OutgoingConfig ServerName) : OutgoingConfig ServerName :=
  { config with given := fun f => .new f.bufSize }

def Outgoing.refreshed (env : Outgoing ServerName) : Outgoing ServerName :=
  env.toOutgoingConfig.refreshed.withCustomCertificateVerifier env.certVerifier

def XmppConnection.overWebSocket (srv : XmppConnection Uri) : Bool :=
  match srv.connType with
  | .webSocket _ _ => true
  | _ => false

/-- An attempt begins outside of stanzas, and over a WebSocket also without a mark. -/
def Untouched (srv : XmppConnection Uri) (f : StanzaFilter) : Prop :=
  Idle f.bufSize f ∧ (srv.overWebSocket = true → f.endOfFirstTag = 0)

section

variable {env : Outgoing ServerName} {srv : XmppConnection Uri} {s t : Dialing}

variable (env) in
theorem starttlsConnect_same (answer : Answer) (serverName streamOpen : Bytes) (h : SameDial s t)
    (hfg : Alike s.filter t.filter) :
    (env.starttlsConnect answer serverName streamOpen s).1 =
        (env.refreshed.starttlsConnect answer serverName streamOpen t).1 ∧
      SameDial (env.starttlsConnect answer serverName streamOpen s).2
        (env.refreshed.starttlsConnect answer serverName streamOpen t).2 ∧
      Alike (env.starttlsConnect answer serverName streamOpen s).2.filter
        (env.refreshed.starttlsConnect answer serverName streamOpen t).2.filter := by
  have hnet : env.refreshed.net = env.net := rfl
  unfold Outgoing.starttlsConnect
  rw [hnet]
  cases env.net.tryFrom serverName with
  | err e => exact ⟨rfl, h, hfg⟩
  | panic => exact ⟨rfl, h, hfg⟩
  | ok name =>
    dsimp only
    split_ifs
    · rcases transmit (some (.raw streamOpen)) answer.opened with ⟨_ | e | _, sent⟩
      · exact readPreTls_same answer h hfg
      · exact ⟨rfl, h, hfg⟩
      · exact ⟨rfl, h, hfg⟩
    · exact ⟨rfl, h, hfg⟩

theorem connected_rd {answer : Answer} {toAddr : SocketAddr} {rd : StanzaRead} {wr : StanzaWrite}
    {conn : Connected}
    (h : (if answer.connected ∧ answer.secured then .ok ⟨rd, wr, toAddr, answer⟩ else .err .io :
      Outcome Connected) = .ok conn) : conn.rd = rd := by
  split_ifs at h
  rw [← Outcome.ok.inj h]

theorem named_rd {answer : Answer} {toAddr : SocketAddr} {serverName : Bytes} {rd : StanzaRead}
    {wr : StanzaWrite} {conn : Connected}
    (h : (do let _ ← env.net.tryFrom serverName
             if answer.connected ∧ answer.secured then .ok ⟨rd, wr, toAddr, answer⟩ else .err .io :
               Outcome Connected) = .ok conn) : conn.rd = rd := by
  obtain ⟨name, -, hconn⟩ := Outcome.bind_eq_ok.mp h
  exact connected_rd hconn

theorem attempt_same (hid : env.given = id) (toAddr : SocketAddr) (serverName streamOpen : Bytes)
    (h : SameDial s t) (hs : Untouched srv s.filter) :
    SameAttempt (env.attempt srv toAddr serverName streamOpen s)
      (env.refreshed.attempt srv toAddr serverName streamOpen t) := by
  have hnew : Idle s.filter.bufSize (.new t.filter.bufSize) := h.size ▸ idle_new _
  have halike : Alike s.filter (.new t.filter.bufSize) := hs.1.alike hnew
  have hdial : SameDial ⟨s.filter, s.attempts + 1, s.log ++ [.dial toAddr serverName]⟩
      ⟨.new t.filter.bufSize, t.attempts + 1, t.log ++ [.dial toAddr serverName]⟩ :=
    ⟨congrArg (· + 1) h.attempts, congrArg (· ++ _) h.log, h.size⟩
  -- the transports that read bytes, and nothing yet
  have hplain : ∀ r : Outcome Connected, (∀ conn, r = .ok conn → conn.rd = .asyncRead) →
      SameAttempt (some r, ⟨s.filter, s.attempts + 1, s.log ++ [.dial toAddr serverName]⟩)
        (some r, ⟨.new t.filter.bufSize, t.attempts + 1, t.log ++ [.dial toAddr serverName]⟩) := by
    intro r hr
    refine ⟨rfl, hdial, fun conn hconn => ?_⟩
    rw [hr conn (Option.some.inj hconn)]
    exact halike
  have hanswer : env.refreshed.answers env.refreshed.certVerifier t.attempts =
      env.answers env.certVerifier s.attempts := by
    rw [h.attempts]
    rfl
  have hnet : env.refreshed.net = env.net := rfl
  have hgiven : env.refreshed.given t.filter = .new t.filter.bufSize := rfl
  unfold Outgoing.attempt
  rw [hanswer, hid, hnet, hgiven]
  dsimp only [id]
  cases hconn : srv.connType with
  | startTLS =>
    obtain ⟨hr, hd, hf⟩ :=
      starttlsConnect_same env (env.answers env.certVerifier s.attempts) serverName streamOpen hdial halike
    generalize env.starttlsConnect (env.answers env.certVerifier s.attempts) serverName streamOpen _ = x at hr hd hf
    generalize env.refreshed.starttlsConnect (env.answers env.certVerifier s.attempts) serverName streamOpen _ = y at hr hd hf
    obtain ⟨r, s'⟩ := x
    obtain ⟨r', t'⟩ := y
    dsimp only at hr hd hf ⊢
    subst hr
    refine ⟨rfl, hd, fun conn hok => ?_⟩
    obtain ⟨r, -, hbind⟩ := Option.map_eq_some_iff.mp hok
    obtain ⟨-, -, hconn'⟩ := Outcome.bind_eq_ok.mp hbind
    obtain rfl := Outcome.ok.inj hconn'
    exact hf
  | directTLS => exact hplain _ fun _ h => named_rd h
  | quic => exact hplain _ fun _ h => connected_rd h
  | webTransport url => exact hplain _ fun _ h => connected_rd h
  | webSocket uri origin =>
    have hmark : s.filter.endOfFirstTag = 0 := hs.2 (by rw [XmppConnection.overWebSocket, hconn])
    refine ⟨rfl, hdial, fun conn hok => ?_⟩
    rw [named_rd (Option.some.inj hok)]
    -- the filter is not fed, but its mark is handed on to the client's stream
    have hf := hs.1.refines
    rw [hmark] at hf
    exact ⟨s.filter.bufSize, hf, h.size ▸ refines_new _⟩

theorem attempt_filter (hid : env.given = id) (toAddr : SocketAddr) (serverName streamOpen : Bytes)
    (hconn : srv.connType ≠ .startTLS) :
    (env.attempt srv toAddr serverName streamOpen s).2.filter = s.filter := by
  unfold Outgoing.attempt
  rw [hid]
  cases h : srv.connType with
  | startTLS => exact absurd h hconn
  | _ => rfl

end

namespace Outgoing

variable (env : Outgoing ServerName)

def ipStarts (srv : XmppConnection Uri) (origDomain streamOpen : Bytes) :
    List IpAddr → Dialing → List Dialing
  | [], _ => []
  | ip :: ips, st =>
    st :: match env.tryIp srv origDomain streamOpen ⟨ip, srv.port⟩ st with
      | (some (.err _), st) => ipStarts srv origDomain streamOpen ips st
      | _ => []

def connectStarts (srv : XmppConnection Uri) (domain streamOpen : Bytes) (st : Dialing) : List Dialing :=
  match if srv.ips.isEmpty then env.lookupIp srv.target else .ok srv.ips with
  | .ok ips => env.ipStarts srv domain streamOpen ips st
  | _ => []

/-- The states in which the attempts of the whole run begin, each with its candidate. -/
def starts (domain : Bytes) (isC2s : Bool) (streamOpen : Bytes) :
    List (XmppConnection Uri) → Dialing → List (XmppConnection Uri × Dialing)
  | [], _ => []
  | srv :: srvs, st =>
    (env.connectStarts srv domain streamOpen st).map (srv, ·) ++
      match env.fate domain isC2s streamOpen srv st with
      | (.notConnected _, st) => starts domain isC2s streamOpen srvs st
      | (.notAnswered _, st) => starts domain isC2s streamOpen srvs st
      | _ => []

end Outgoing

/-- A candidate meets the same fate, and an answer leaves nothing of before in either filter. -/
structure SameFate (x y : Fate × Dialing) : Prop where
  result : x.1 = y.1
  dial : SameDial x.2 y.2
  filter : ∀ conn serverResponse, x.1 = .answered conn serverResponse →
    ∃ n, Refines n x.2.filter (.idle 0) ∧ Refines n y.2.filter (.idle 0)

section

variable {env : Outgoing ServerName} {srv : XmppConnection Uri} {s t : Dialing} {domain streamOpen : Bytes}

variable (domain streamOpen) in
theorem tryIp_same (hid : env.given = id) (toAddr : SocketAddr) (h : SameDial s t)
    (hs : Untouched srv s.filter) :
    SameAttempt (env.tryIp srv domain streamOpen toAddr s) (env.refreshed.tryIp srv domain streamOpen toAddr t) := by
  have hfirst := attempt_same hid toAddr (if srv.secure then srv.target else domain) streamOpen h hs
  have hretry : srv.connType ≠ .startTLS → SameAttempt
      (match env.attempt srv toAddr (if srv.secure then srv.target else domain) streamOpen s with
        | (some (.err e), st) =>
          if srv.secure ∧ srv.target ≠ domain then env.attempt srv toAddr domain streamOpen st
          else (some (.err e), st)
        | r => r)
      (match env.refreshed.attempt srv toAddr (if srv.secure then srv.target else domain) streamOpen t with
        | (some (.err e), st) =>
          if srv.secure ∧ srv.target ≠ domain then env.refreshed.attempt srv toAddr domain streamOpen st
          else (some (.err e), st)
        | r => r) := by
    intro hconn
    have hfilter := attempt_filter (s := s) hid toAddr (if srv.secure then srv.target else domain) streamOpen
      hconn
    obtain ⟨hr, hd, hf⟩ := hfirst
    generalize env.attempt srv toAddr _ streamOpen s = x at hr hd hf hfilter
    generalize env.refreshed.attempt srv toAddr _ streamOpen t = y at hr hd hf
    obtain ⟨r, s'⟩ := x
    obtain ⟨r', t'⟩ := y
    dsimp only at hr hd hf hfilter
    subst hr
    obtain _ | conn | e | _ := r
    · exact ⟨rfl, hd, hf⟩
    · exact ⟨rfl, hd, hf⟩
    · dsimp only
      split_ifs
      · exact attempt_same hid toAddr domain streamOpen hd (hfilter ▸ hs)
      · exact ⟨rfl, hd, hf⟩
    · exact ⟨rfl, hd, hf⟩
  unfold Outgoing.tryIp
  dsimp only
  cases hconn : srv.connType with
  | webSocket uri origin => exact hretry (by rw [hconn]; simp)
  | webTransport url => exact hretry (by rw [hconn]; simp)
  | startTLS => exact hfirst
  | directTLS => exact hfirst
  | quic => exact hfirst

theorem tryIps_same (hid : env.given = id) (ips : List IpAddr) (h : SameDial s t)
    (hs : ∀ st ∈ env.ipStarts srv domain streamOpen ips s, Untouched srv st.filter) :
    SameAttempt (env.tryIps srv domain streamOpen ips s) (env.refreshed.tryIps srv domain streamOpen ips t) := by
  induction ips generalizing s t with
  | nil => exact ⟨rfl, h, fun conn hconn => by cases hconn⟩
  | cons ip ips ih =>
    obtain ⟨hr, hd, hf⟩ := tryIp_same domain streamOpen hid ⟨ip, srv.port⟩ h
      (hs s (List.mem_cons_self ..))
    rw [Outgoing.ipStarts] at hs
    rw [Outgoing.tryIps, Outgoing.tryIps]
    generalize env.tryIp srv domain streamOpen ⟨ip, srv.port⟩ s = x at hr hd hf hs
    generalize env.refreshed.tryIp srv domain streamOpen ⟨ip, srv.port⟩ t = y at hr hd hf
    obtain ⟨r, s'⟩ := x
    obtain ⟨r', t'⟩ := y
    dsimp only at hr hd hf
    subst hr
    obtain _ | conn | e | _ := r
    · exact ⟨rfl, hd, hf⟩
    · exact ⟨rfl, hd, hf⟩
    · exact ih hd fun st hst => hs st (List.mem_cons_of_mem _ hst)
    · exact ⟨rfl, hd, hf⟩

theorem connect_same (hid : env.given = id) (h : SameDial s t)
    (hs : ∀ st ∈ env.connectStarts srv domain streamOpen s, Untouched srv st.filter) :
    SameAttempt (env.connect srv domain streamOpen s) (env.refreshed.connect srv domain streamOpen t) := by
  have hlookup : env.refreshed.lookupIp = env.lookupIp := rfl
  unfold Outgoing.connectStarts at hs
  unfold Outgoing.connect
  rw [hlookup]
  generalize (if srv.ips.isEmpty then env.lookupIp srv.target else .ok srv.ips) = ips at hs
  cases ips with
  | ok ips => exact tryIps_same hid ips h hs
  | err e => exact ⟨rfl, h, fun conn hconn => by cases hconn⟩
  | panic => exact ⟨rfl, h, fun conn hconn => by cases hconn⟩

theorem readPreamble_same (conn : Connected) (h : SameDial s t)
    (hfg : Interchangeable conn.rd s.filter t.filter) :
    (Outgoing.readPreamble conn s).1 = (Outgoing.readPreamble conn t).1 ∧
      SameDial (Outgoing.readPreamble conn s).2 (Outgoing.readPreamble conn t).2 ∧
      ∀ serverResponse, (Outgoing.readPreamble conn s).1 = some (.ok serverResponse) →
        ∃ n, Refines n (Outgoing.readPreamble conn s).2.filter (.idle 0) ∧
          Refines n (Outgoing.readPreamble conn t).2.filter (.idle 0) := by
  have hstart : SamePreamble conn.rd (.reading s.filter []) (.reading t.filter []) := .reading [] hfg
  obtain ⟨hstanzas, hfinal⟩ := hstart.run conn.wr (conn.answer.preamble conn.rd)
  unfold Outgoing.readPreamble
  dsimp only
  rw [hstanzas, h.log]
  generalize (streamPreamble conn.rd conn.wr).final (.reading s.filter []) _ = p at hfinal
  generalize (streamPreamble conn.rd conn.wr).final (.reading t.filter []) _ = q at hfinal
  cases hfinal with
  | reading streamOpen hfg' => exact ⟨rfl, ⟨h.attempts, rfl, hfg'.size⟩, fun r hr => by cases hr⟩
  | accepted streamOpen isC2s hf hg =>
    exact ⟨rfl, ⟨h.attempts, rfl, hf.size.trans hg.size.symm⟩, fun r hr => ⟨_, hf, hg⟩⟩
  | failed e hsize => exact ⟨rfl, ⟨h.attempts, rfl, hsize⟩, fun r hr => by cases hr⟩
  | panicked hsize => exact ⟨rfl, ⟨h.attempts, rfl, hsize⟩, fun r hr => by cases hr⟩

theorem fate_same (hid : env.given = id) (isC2s : Bool) (h : SameDial s t)
    (hs : ∀ st ∈ env.connectStarts srv domain streamOpen s, Untouched srv st.filter) :
    SameFate (env.fate domain isC2s streamOpen srv s) (env.refreshed.fate domain isC2s streamOpen srv t) := by
  obtain ⟨hr, hd, hf⟩ := connect_same hid h hs
  have htrace : env.refreshed.trace = env.trace := rfl
  unfold Outgoing.fate
  rw [htrace]
  generalize env.connect srv domain streamOpen s = x at hr hd hf
  generalize env.refreshed.connect srv domain streamOpen t = y at hr hd hf
  obtain ⟨r, s'⟩ := x
  obtain ⟨r', t'⟩ := y
  dsimp only at hr hd hf
  subst hr
  obtain _ | conn | e | _ := r
  · exact ⟨rfl, hd, fun conn r h => by cases h⟩
  · dsimp only
    rcases conn.wr.send env.trace isC2s streamOpen streamOpen.length conn.answer.header with ⟨_ | e | _, sent⟩
    · obtain ⟨hr', hd', hf'⟩ := readPreamble_same conn hd (hf conn rfl)
      dsimp only
      generalize Outgoing.readPreamble conn s' = x at hr' hd' hf'
      generalize Outgoing.readPreamble conn t' = y at hr' hd' hf'
      obtain ⟨r, s''⟩ := x
      obtain ⟨r', t''⟩ := y
      dsimp only at hr' hd' hf'
      subst hr'
      obtain _ | r | e | _ := r
      · exact ⟨rfl, hd', fun conn r h => by cases h⟩
      · exact ⟨rfl, hd', fun _ _ _ => hf' r rfl⟩
      · exact ⟨rfl, hd', fun conn r h => by cases h⟩
      · exact ⟨rfl, hd', fun conn r h => by cases h⟩
    · exact ⟨rfl, hd, fun conn r h => by cases h⟩
    · exact ⟨rfl, hd, fun conn r h => by cases h⟩
  · exact ⟨rfl, hd, fun conn r h => by cases h⟩
  · exact ⟨rfl, hd, fun conn r h => by cases h⟩

theorem tryCandidates_same (hid : env.given = id) (isC2s : Bool) (srvs : List (XmppConnection Uri))
    (h : SameDial s t)
    (hs : ∀ x ∈ env.starts domain isC2s streamOpen srvs s, Untouched x.1 x.2.filter) :
    let x := env.tryCandidates domain isC2s streamOpen srvs s
    let y := env.refreshed.tryCandidates domain isC2s streamOpen srvs t
    x.1 = y.1 ∧ x.2.log = y.2.log ∧ ∀ found, x.1 = some (.ok found) →
      ∃ n, Refines n x.2.filter (.idle 0) ∧ Refines n y.2.filter (.idle 0) := by
  induction srvs generalizing s t with
  | nil => exact ⟨rfl, h.log, fun found hfound => by cases hfound⟩
  | cons srv srvs ih =>
    rw [Outgoing.starts] at hs
    obtain ⟨hr, hd, hf⟩ := fate_same hid isC2s h fun st hst =>
      hs (srv, st) (List.mem_append_left _ (List.mem_map_of_mem hst))
    have hrest := fun x hx => hs x (List.mem_append_right _ hx)
    rw [Outgoing.tryCandidates_cons, Outgoing.tryCandidates_cons]
    generalize env.fate domain isC2s streamOpen srv s = x at hr hd hf hrest
    generalize env.refreshed.fate domain isC2s streamOpen srv t = y at hr hd hf
    obtain ⟨fate, s'⟩ := x
    obtain ⟨fate', t'⟩ := y
    dsimp only at hr hd hf
    subst hr
    cases fate with
    | notConnected e => exact ih hd hrest
    | notAnswered e => exact ih hd hrest
    | notSent e => exact ⟨rfl, hd.log, fun found hfound => by cases hfound⟩
    | answered conn r => exact ⟨rfl, hd.log, fun _ _ => hf conn r rfl⟩
    | pending => exact ⟨rfl, hd.log, fun found hfound => by cases hfound⟩
    | panicked => exact ⟨rfl, hd.log, fun found hfound => by cases hfound⟩

end

/-- The result and the stanzas of the one run are those of the other one, and where it ends in an answer the
two filters parse what follows alike. -/
structure LeavesNoTrace (Uri : Type)
    (x y : Option (Outcome (XmppConnection Uri × Connected × Bytes)) × Dialing) : Prop where
  result : x.1 = y.1
  log : x.2.log = y.2.log
  filter : ∀ found, x.1 = some (.ok found) →
    ∀ bs, filterNextEoft.outputs x.2.filter bs = filterNextEoft.outputs y.2.filter bs

/-- Where every attempt begins with a filter that is outside of stanzas, and with no mark in it over a
WebSocket, all stanzas and the result are those of attempts with new filters, and so is what the client's
stream is parsed into. -/
theorem srvConnect_refreshed [HttpUri Uri] [DecidableEq ServerName] (env : OutgoingConfig ServerName)
    (hid : env.given = id) (sort : SortBy) (domain : Bytes) (isC2s : Bool) (streamOpen : Bytes)
    (inFilter : StanzaFilter) (srvs : List (XmppConnection Uri)) (v : XmppServerCertVerifier ServerName)
    (h : env.net.getXmppConnections sort domain isC2s = .ok (srvs, v))
    (hs : ∀ x ∈ (env.withCustomCertificateVerifier v).starts domain isC2s streamOpen srvs ⟨inFilter, 0, []⟩,
      Untouched x.1 x.2.filter) :
    LeavesNoTrace Uri (env.srvConnect sort domain isC2s streamOpen inFilter)
      (env.refreshed.srvConnect sort domain isC2s streamOpen inFilter) := by
  have hrun : ∀ env' : OutgoingConfig ServerName, env'.net = env.net →
      (env'.withCustomCertificateVerifier v).tryCandidates domain isC2s streamOpen srvs ⟨inFilter, 0, []⟩ =
        env'.srvConnect sort domain isC2s streamOpen inFilter := by
    intro env' hnet
    unfold OutgoingConfig.srvConnect
    rw [hnet, h]
  rw [← hrun env rfl, ← hrun env.refreshed rfl]
  have hgiven : (env.withCustomCertificateVerifier v).given = id := hid
  obtain ⟨hr, hlog, hf⟩ := tryCandidates_same hgiven isC2s srvs (SameDial.refl ⟨inFilter, 0, []⟩) hs
  refine ⟨hr, hlog, fun found hfound bs => ?_⟩
  obtain ⟨n, hx, hy⟩ := hf found hfound
  exact ((filterNextEoft_refines n).outputs_eq hx bs).trans ((filterNextEoft_refines n).outputs_eq hy bs).symm

instance (srv : XmppConnection Uri) (f : StanzaFilter) : Decidable (Untouched srv f) :=
  decidable_of_iff ((f.cnt = 0 ∧ f.tagCnt = 0 ∧ f.state = .outsideStanza) ∧
      (srv.overWebSocket = true → f.endOfFirstTag = 0))
    ⟨fun h => ⟨⟨rfl, h.1.1, h.1.2.1, h.1.2.2⟩, h.2⟩,
      fun h => ⟨⟨h.1.cnt, h.1.tagCnt, h.1.state⟩, h.2⟩⟩

/-- The first attempt is answered with `first`, and then closed; the next one is answered well. -/
def exampleRetry (first : Bytes) : OutgoingConfig Bytes where
  net := exampleNet
  lookupIp _ := .ok [.ofV4 192 0 2 2]
  answers _ n :=
    if n = 0 then
      { exampleAnswer .done with
        preamble
          | .asyncRead => arriving first ++ [(.eof, .done)]
          | .webSocketRead => [] }
    else exampleAnswer .done
  trace := false

theorem srvConnect_refreshed_example : LeavesNoTrace Empty
    ((exampleRetry (bytes "<b/>")).srvConnect insertionSortBy (bytes "a.org") true (bytes "<stream:stream >")
      (.new 64))
    ((exampleRetry (bytes "<b/>")).refreshed.srvConnect insertionSortBy (bytes "a.org") true
      (bytes "<stream:stream >") (.new 64)) :=
  srvConnect_refreshed (exampleRetry (bytes "<b/>")) rfl insertionSortBy (bytes "a.org") true
    (bytes "<stream:stream >") (.new 64) exampleConnections exampleVerifier rfl (by decide)

/-- A peer that closes in the middle of a stanza makes the next one fail as well, whose `<proceed />` is
read as the rest of it. -/
theorem srvConnect_traced : ¬ ∀ (env : OutgoingConfig Bytes) (sort : SortBy) (domain : Bytes) (isC2s : Bool)
    (streamOpen : Bytes) (n : Nat), env.given = id →
      LeavesNoTrace Empty (env.srvConnect sort domain isC2s streamOpen (.new n))
        (env.refreshed.srvConnect sort domain isC2s streamOpen (.new n)) := by
  intro h
  have hresult := (h (exampleRetry (bytes "<a")) insertionSortBy (bytes "a.org") true
    (bytes "<stream:stream >") 64 rfl).result
  have hfailed : ((exampleRetry (bytes "<a")).srvConnect insertionSortBy (bytes "a.org") true
      (bytes "<stream:stream >") (.new 64) :
        Option (Outcome (XmppConnection Empty × Connected × Bytes)) × Dialing).1 = some (.err .allFailed) := rfl
  have hfound : ∃ found, ((exampleRetry (bytes "<a")).refreshed.srvConnect insertionSortBy (bytes "a.org") true
      (bytes "<stream:stream >") (.new 64) :
        Option (Outcome (XmppConnection Empty × Connected × Bytes)) × Dialing).1 = some (.ok found) := ⟨_, rfl⟩
  obtain ⟨found, hfound⟩ := hfound
  cases hfailed.symm.trans (hresult.trans hfound)

end XmppProxy
