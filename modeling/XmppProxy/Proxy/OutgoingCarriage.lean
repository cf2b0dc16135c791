import XmppProxy.Proxy.Carriage
import XmppProxy.Proxy.Marking
import XmppProxy.Srv.Dialing

/-! An outgoing connection over any transports, from the first byte of the client on: the client is sent the
answer of the server that `srv_connect` found, and then each side the stanzas of the other. -/

namespace XmppProxy

open Lib Stanza

abbrev AnyPoll := (rd : StanzaRead) → rd.Poll

def pollsAt (rd : StanzaRead) (ps : List (AnyPoll × WriteResult)) : List (rd.Poll × WriteResult) :=
  ps.map fun p => (p.1 rd, p.2)

theorem pollsAt_append (rd : StanzaRead) (ps qs : List (AnyPoll × WriteResult)) :
    pollsAt rd (ps ++ qs) = pollsAt rd ps ++ pollsAt rd qs := List.map_append

/-- The stanzas that polls deliver: what a new filter splits off the bytes, or the texts, converted. -/
def arrived (n : Nat) : (rd : StanzaRead) → List (rd.Poll × WriteResult) → List (Bytes × Nat)
  | .asyncRead, ps => marked (filterNextEoft.outputs (.new n) (bytesOf ps))
  | .webSocketRead, ps => (texts ps).map fun t => (fromWs t, 0)

/-- The pongs for the pings that they deliver. -/
def pongsAt : (rd : StanzaRead) → List (rd.Poll × WriteResult) → List Sent
  | .asyncRead, _ => []
  | .webSocketRead, ps => pongsFor ps

theorem read_arrived {rd : StanzaRead} {wr : StanzaWrite} (hm : Matching rd wr) {n : Nat}
    (ps : List (rd.Poll × WriteResult))
    (h : ∀ r ∈ (rd.next wr).outputs (.new n) ps, r.1 ≠ some .panic) :
    read ((rd.next wr).outputs (.new n) ps) = arrived n rd ps ∧
      answered ((rd.next wr).outputs (.new n) ps) = pongsAt rd ps := by
  cases hm with
  | stream =>
    obtain ⟨hread, -, hanswered⟩ := read_bytes .asyncWrite ps (.new n)
    exact ⟨hread, hanswered⟩
  | webSocket =>
    obtain ⟨hread, -, hanswered⟩ := read_messages ps h
    exact ⟨hread, hanswered⟩

namespace OutgoingConnection

def clientPolls : OutgoingConnection × OutgoingEvent → List (AnyPoll × WriteResult)
  | (.preamble _ _ _ _, .client poll res) => [(poll, res)]
  | (.shuffle c s, .client poll res) =>
    if (.client (poll c.inRd) res : Event c).Polled s then [(poll, res)] else []
  | _ => []

def serverPolls : OutgoingConnection × OutgoingEvent → List (AnyPoll × WriteResult)
  | (.shuffle c s, .server poll res) =>
    if (.server (poll c.outRd) res : Event c).Polled s then [(poll, res)] else []
  | _ => []

end OutgoingConnection

section

variable {c : ShuffleConfig}

def ofClient (done : List (Σ peer : Peer, (peer.rd c).Poll × WriteResult)) : List (c.inRd.Poll × WriteResult) :=
  own Peer.client done

def ofServer (done : List (Σ peer : Peer, (peer.rd c).Poll × WriteResult)) : List (c.outRd.Poll × WriteResult) :=
  own Peer.server done

theorem ofClient_append (done done' : List (Σ peer : Peer, (peer.rd c).Poll × WriteResult)) :
    ofClient (done ++ done') = ofClient done ++ ofClient done' := own_append ..

theorem ofServer_append (done done' : List (Σ peer : Peer, (peer.rd c).Poll × WriteResult)) :
    ofServer (done ++ done') = ofServer done ++ ofServer done' := own_append ..

variable (s : Shuffle) (poll : AnyPoll) (res : WriteResult)

theorem client_polled : ofClient (polls [(s, (.client (poll c.inRd) res : Event c))]) =
      pollsAt c.inRd (OutgoingConnection.clientPolls (.shuffle c s, .client poll res)) ∧
    ofServer (polls [(s, (.client (poll c.inRd) res : Event c))]) = [] := by
  unfold OutgoingConnection.clientPolls
  dsimp only
  by_cases h : (.client (poll c.inRd) res : Event c).Polled s
  · rw [polls_polled h, if_pos h]
    exact ⟨own_cons_self .., own_cons_ne (by exact Peer.noConfusion) _⟩
  · rw [polls_not_polled h, if_neg h]
    exact ⟨rfl, rfl⟩

theorem server_polled : ofServer (polls [(s, (.server (poll c.outRd) res : Event c))]) =
      pollsAt c.outRd (OutgoingConnection.serverPolls (.shuffle c s, .server poll res)) ∧
    ofClient (polls [(s, (.server (poll c.outRd) res : Event c))]) = [] := by
  unfold OutgoingConnection.serverPolls
  dsimp only
  by_cases h : (.server (poll c.outRd) res : Event c).Polled s
  · rw [polls_polled h, if_pos h]
    exact ⟨own_cons_self .., own_cons_ne (by exact Peer.noConfusion) _⟩
  · rw [polls_not_polled h, if_neg h]
    exact ⟨rfl, rfl⟩

end

/-- Over a WebSocket to the server, where no answer has been read through it, the filter comes to a client on
a byte stream with nothing in it. -/
def HandsNew : OutgoingConnection → Prop
  | .connected inRd _ conn _ _ f _ => conn.rd = .webSocketRead → inRd = .asyncRead → Refines f.bufSize f (.idle 0)
  | _ => True

instance (n : Nat) (f : StanzaFilter) (s : Scanner) : Decidable (Refines n f s) :=
  decidable_of_iff (f.bufSize = n ∧ f.cnt = s.part.length ∧ f.buf.take f.cnt = s.part ∧ f.tagCnt = s.depth ∧
      f.endOfFirstTag = s.eoft ∧ f.state = s.mode.state)
    ⟨fun ⟨hsize, hcnt, htake, htag, hmark, hstate⟩ => ⟨hsize, hcnt, htake, htag, hmark, hstate⟩,
      fun ⟨hsize, hcnt, htake, htag, hmark, hstate⟩ => ⟨hsize, hcnt, htake, htag, hmark, hstate⟩⟩

instance : DecidablePred HandsNew
  | .connected inRd _ conn _ _ f _ =>
    inferInstanceAs (Decidable (conn.rd = .webSocketRead → inRd = .asyncRead → Refines f.bufSize f (.idle 0)))
  | .sniffing _ => .isTrue trivial
  | .accepting _ => .isTrue trivial
  | .preamble _ _ _ _ => .isTrue trivial
  | .connecting _ => .isTrue trivial
  | .shuffle _ _ => .isTrue trivial
  | .ended _ _ => .isTrue trivial

theorem LeavesIdle.sameReading {rd : StanzaRead} {f g : StanzaFilter} (hf : LeavesIdle rd f)
    (hg : LeavesIdle rd g) (hsize : f.bufSize = g.bufSize) : SameReading rd f g := by
  cases rd with
  | asyncRead =>
    obtain ⟨n, hf⟩ := hf rfl
    obtain ⟨m, hg⟩ := hg rfl
    obtain rfl : m = n := by rw [← hf.size, ← hg.size, hsize]
    exact ⟨_, _, hf, hg⟩
  | webSocketRead => exact hsize

section

variable (Uri : Type) {ServerName : Type} [HttpUri Uri] [DecidableEq ServerName]
  (env : OutgoingListener ServerName)

structure Begun (inRd : StanzaRead) (inWr : StanzaWrite) (f₀ : StanzaFilter) : Prop where
  matching : Matching inRd inWr
  same : SameReading inRd f₀ (.new env.maxStanzaSizeBytes)
  size : f₀.bufSize = env.maxStanzaSizeBytes ∧ f₀.cnt ≤ env.maxStanzaSizeBytes

/-- The polls `ps` have brought `decls` and `header`, and these the answer of `conn`. -/
structure Met (inRd : StanzaRead) (inWr : StanzaWrite) (f₀ : StanzaFilter) (ps : List (AnyPoll × WriteResult))
    (isC2s : Bool) (conn : Connected) (serverResponse : Bytes) (decls : List (Bytes × Nat))
    (header : Bytes × Nat) : Prop extends Begun env inRd inWr f₀ where
  preceded : Preceded ((inRd.next inWr).outputs f₀ (pollsAt inRd ps)) decls [header]
  opens : bytes "<stream:stream " <+: header.1
  classified : isC2s = isC2sHeader header.1
  idle : LeavesIdle inRd ((inRd.next inWr).final f₀ (pollsAt inRd ps))
  connected : ∃ (domain : Bytes) (srv : XmppConnection Uri) (f : StanzaFilter) (st : Dialing),
    toDomain (unmark (decls ++ [header])) = .ok domain ∧
    env.outgoing.srvConnect env.sort domain isC2s (unmark (decls ++ [header])) f =
      (some (.ok (srv, conn, serverResponse)), st)

/-- The loop `s`, of whose client's polls `first` have brought the header. Its filter is as that left it, behind a
WebSocket to the server when the connection `handsNew`. -/
structure LoopingOut (handsNew : Prop) (f₀ : StanzaFilter) (ps qs : List (AnyPoll × WriteResult)) (c : ShuffleConfig) (s : Shuffle)
    (conn : Connected) (serverResponse : Bytes) (first : List (AnyPoll × WriteResult))
    (decls : List (Bytes × Nat)) (header : Bytes × Nat) (f : StanzaFilter)
    (done : List (Σ peer : Peer, (peer.rd c).Poll × WriteResult)) : Prop where
  met : Met Uri env c.inRd c.inWr f₀ first c.isC2s conn serverResponse decls header
  outRd : c.outRd = conn.rd
  outWr : c.outWr = conn.wr
  filter : (c.outRd = .webSocketRead → handsNew) → SameReading c.inRd f ((c.inRd.next c.inWr).final f₀ (pollsAt c.inRd first))
  relays : Relays c (.start f env.maxStanzaSizeBytes
    (answered ((c.inRd.next c.inWr).outputs f₀ (pollsAt c.inRd first)) ++
      c.inWr.data c.trace c.isC2s (serverResponse, 0)) []) done s
  client : pollsAt c.inRd ps = pollsAt c.inRd first ++ ofClient done
  server : pollsAt c.outRd qs = ofServer done

/-- What a connection has come to, whose client's reader was polled by `ps` and the server's by `qs`. -/
def CarriedOut (handsNew : Prop) (ps qs : List (AnyPoll × WriteResult)) : OutgoingConnection → Prop
  | .sniffing f => f = .new env.maxStanzaSizeBytes ∧ ps = [] ∧ qs = []
  | .accepting f => (f.bufSize = env.maxStanzaSizeBytes ∧ f.cnt ≤ env.maxStanzaSizeBytes) ∧ ps = [] ∧ qs = []
  | .preamble inRd inWr p toClient => ∃ f₀ decls, Begun env inRd inWr f₀ ∧
      Preceded ((inRd.next inWr).outputs f₀ (pollsAt inRd ps)) decls [] ∧
      p = .reading ((inRd.next inWr).final f₀ (pollsAt inRd ps)) (unmark decls) ∧
      toClient = answered ((inRd.next inWr).outputs f₀ (pollsAt inRd ps)) ∧ qs = []
  | .connected inRd inWr conn isC2s serverResponse f toClient => ∃ f₀ decls header,
      Met Uri env inRd inWr f₀ ps isC2s conn serverResponse decls header ∧
      (f.bufSize = env.maxStanzaSizeBytes ∧ f.cnt ≤ env.maxStanzaSizeBytes) ∧ LeavesIdle conn.rd f ∧
      toClient = answered ((inRd.next inWr).outputs f₀ (pollsAt inRd ps)) ∧ qs = []
  | .shuffle c s => ∃ f₀ conn serverResponse first decls header f done,
      LoopingOut Uri env handsNew f₀ ps qs c s conn serverResponse first decls header f done
  | _ => True

variable {Uri env} {handsNew : Prop} {ps qs : List (AnyPoll × WriteResult)}

omit [DecidableEq ServerName] in
theorem Begun.final_size {inRd : StanzaRead} {inWr : StanzaWrite} {f₀ : StanzaFilter}
    (h : Begun env inRd inWr f₀) (polls : List (inRd.Poll × WriteResult)) :
    ((inRd.next inWr).final f₀ polls).bufSize = env.maxStanzaSizeBytes ∧
      ((inRd.next inWr).final f₀ polls).cnt ≤ env.maxStanzaSizeBytes :=
  Machine.invariant (m := inRd.next inWr)
    (P := fun f => f.bufSize = env.maxStanzaSizeBytes ∧ f.cnt ≤ env.maxStanzaSizeBytes)
    (fun _ p hf => (lasting_size _).poll hf inRd inWr p.1 p.2) h.size polls

omit [DecidableEq ServerName] in
theorem begun_stream {w : Bytes} (hw : w.length ≤ (StanzaFilter.new env.maxStanzaSizeBytes).bufSize) :
    Begun env .asyncRead .asyncWrite ((StanzaFilter.new env.maxStanzaSizeBytes).scratch w hw) where
  matching := .stream
  same := ⟨_, _, refines_scratch (refines_new _) w hw, refines_new _⟩
  size := ⟨rfl, Nat.zero_le _⟩

omit [DecidableEq ServerName] in
theorem begun_webSocket {f : StanzaFilter}
    (hf : f.bufSize = env.maxStanzaSizeBytes ∧ f.cnt ≤ env.maxStanzaSizeBytes) :
    Begun env .webSocketRead .webSocketClientWrite f where
  matching := .webSocket
  same := hf.1
  size := hf

variable {inRd : StanzaRead} {inWr : StanzaWrite} {f₀ : StanzaFilter}

theorem accept_carriedOut (hid : env.outgoing.given = id) (hb : Begun env inRd inWr f₀)
    {decls : List (Bytes × Nat)} {header : Bytes × Nat} {toClient : List Sent}
    (hp : Preceded ((inRd.next inWr).outputs f₀ (pollsAt inRd ps)) decls [header])
    (hh : bytes "<stream:stream " <+: header.1)
    (hidle : LeavesIdle inRd ((inRd.next inWr).final f₀ (pollsAt inRd ps)))
    (hc : toClient = answered ((inRd.next inWr).outputs f₀ (pollsAt inRd ps))) :
    CarriedOut Uri env handsNew ps [] (OutgoingConnection.accept Uri env inRd inWr
      ((inRd.next inWr).final f₀ (pollsAt inRd ps)) (unmark (decls ++ [header])) (isC2sHeader header.1)
      toClient) := by
  have hmarked : MarkedOutgoing (OutgoingConnection.accept Uri env inRd inWr
      ((inRd.next inWr).final f₀ (pollsAt inRd ps)) (unmark (decls ++ [header])) (isC2sHeader header.1) toClient) :=
    markedOutgoing_accept ..
  unfold OutgoingConnection.accept at hmarked ⊢
  split
  · trivial
  · trivial
  next domain hdomain =>
    rw [hdomain] at hmarked
    dsimp only at hmarked ⊢
    split
    · trivial
    next srv conn serverResponse st hconnect =>
      rw [hconnect] at hmarked
      exact ⟨f₀, decls, header,
        { toBegun := hb
          preceded := hp
          opens := hh
          classified := rfl
          idle := hidle
          connected := ⟨domain, srv, _, st, hdomain, hconnect⟩ },
        (lasting_size _).srvConnect hid (hb.final_size _) _ _ _ _ hconnect, hmarked, hc, rfl⟩
    · trivial
    · trivial

theorem preamble_carriedOut (hid : env.outgoing.given = id) (hb : Begun env inRd inWr f₀)
    {decls : List (Bytes × Nat)} (h : Preceded ((inRd.next inWr).outputs f₀ (pollsAt inRd ps)) decls [])
    (poll : AnyPoll) (res : WriteResult) :
    CarriedOut Uri env handsNew (ps ++ [(poll, res)]) [] (OutgoingConnection.step Uri env
      (.preamble inRd inWr (.reading ((inRd.next inWr).final f₀ (pollsAt inRd ps)) (unmark decls))
        (answered ((inRd.next inWr).outputs f₀ (pollsAt inRd ps)))) (.client poll res)).2 := by
  obtain ⟨hanswered, hadvanced⟩ := h.advance (poll inRd) res
  have hpolls : pollsAt inRd ps ++ [(poll inRd, res)] = pollsAt inRd (ps ++ [(poll, res)]) :=
    (pollsAt_append inRd ps [(poll, res)]).symm
  unfold OutgoingConnection.step
  dsimp only
  generalize Preamble.step inRd inWr (poll inRd) res
    (.reading ((inRd.next inWr).final f₀ (pollsAt inRd ps)) (unmark decls)) = stepped at hanswered hadvanced ⊢
  obtain ⟨sent, q⟩ := stepped
  rw [hpolls] at hanswered hadvanced
  cases hadvanced with
  | reading hpre => exact ⟨f₀, _, hb, hpre, rfl, hanswered, rfl⟩
  | accepted hpre hs hidle => exact accept_carriedOut hid hb hpre hs hidle hanswered
  | failed => trivial
  | panicked => trivial

theorem answered_carriedOut {conn : Connected} {isC2s : Bool} {serverResponse : Bytes} {f : StanzaFilter}
    {toClient : List Sent} (h : CarriedOut Uri env handsNew ps qs
      (.connected inRd inWr conn isC2s serverResponse f toClient))
    (hover : handsNew → HandsNew (.connected inRd inWr conn isC2s serverResponse f toClient)) (res : WriteResult) :
    CarriedOut Uri env handsNew ps qs (OutgoingConnection.step Uri env
      (.connected inRd inWr conn isC2s serverResponse f toClient) (.answered res)).2 := by
  obtain ⟨f₀, decls, header, hm, hsize, hleaves, rfl, rfl⟩ := h
  have hsend := sending inWr env.outgoing.trace isC2s serverResponse 0 res
  have hidle : (conn.rd = .webSocketRead → handsNew) → LeavesIdle inRd f := by
    rintro hnew rfl
    cases hrd : conn.rd with
    | asyncRead => exact hleaves hrd
    | webSocketRead => exact ⟨_, hover (hnew hrd) hrd rfl⟩
  unfold OutgoingConnection.step
  dsimp only
  generalize inWr.send env.outgoing.trace isC2s serverResponse 0 res = x at hsend
  obtain ⟨r, sent⟩ := x
  cases r with
  | err e => trivial
  | panic => trivial
  | ok =>
    obtain rfl := hsend.whole rfl
    exact ⟨f₀, conn, serverResponse, ps, decls, header, f, [], {
      met := hm
      outRd := rfl
      outWr := rfl
      filter := fun hnew => (hidle hnew).sameReading hm.idle (hsize.1.trans (hm.final_size _).1.symm)
      relays := relays_start _ _
      client := (List.append_nil _).symm
      server := rfl }⟩

theorem CarriedOut.mono {handsNew' : Prop} {c : OutgoingConnection} (h : CarriedOut Uri env handsNew ps qs c)
    (himp : handsNew' → handsNew) : CarriedOut Uri env handsNew' ps qs c := by
  cases c with
  | shuffle c s =>
    obtain ⟨f₀, conn, serverResponse, first, decls, header, f, done, hl⟩ := h
    exact ⟨f₀, conn, serverResponse, first, decls, header, f, done, { hl with
      filter := fun hnew => hl.filter fun hws => himp (hnew hws) }⟩
  | _ => exact h

theorem CarriedOut.step (hid : env.outgoing.given = id) {c : OutgoingConnection}
    (h : CarriedOut Uri env handsNew ps qs c) (hover : handsNew → HandsNew c) (ev : OutgoingEvent) :
    CarriedOut Uri env handsNew (ps ++ OutgoingConnection.clientPolls (c, ev))
      (qs ++ OutgoingConnection.serverPolls (c, ev)) (c.step Uri env ev).2 := by
  have hsame : OutgoingConnection.clientPolls (c, ev) = [] → OutgoingConnection.serverPolls (c, ev) = [] →
      CarriedOut Uri env handsNew ps qs (c.step Uri env ev).2 →
      CarriedOut Uri env handsNew (ps ++ OutgoingConnection.clientPolls (c, ev))
        (qs ++ OutgoingConnection.serverPolls (c, ev)) (c.step Uri env ev).2 := by
    intro hclient hserver hstep
    rw [hclient, hserver, List.append_nil, List.append_nil]
    exact hstep
  cases c with
  | sniffing f =>
    obtain ⟨rfl, rfl, rfl⟩ := h
    refine hsame (by cases ev <;> rfl) (by cases ev <;> rfl) ?_
    cases ev with
    | first b₀ b₁ b₂ =>
      unfold OutgoingConnection.step
      dsimp only
      split_ifs with hlen
      · exact ⟨⟨rfl, Nat.zero_le _⟩, rfl, rfl⟩
      · exact ⟨_, [], begun_stream hlen, .nil, rfl, rfl, rfl⟩
      · trivial
    | peekFailed => trivial
    | _ => exact ⟨rfl, rfl, rfl⟩
  | accepting f =>
    obtain ⟨hsize, rfl, rfl⟩ := h
    refine hsame (by cases ev <;> rfl) (by cases ev <;> rfl) ?_
    cases ev with
    | accepted => exact ⟨_, [], begun_webSocket hsize, .nil, rfl, rfl, rfl⟩
    | acceptFailed e => trivial
    | _ => exact ⟨hsize, rfl, rfl⟩
  | preamble inRd inWr p toClient =>
    obtain ⟨f₀, decls, hb, hp, rfl, rfl, rfl⟩ := h
    cases ev with
    | client poll res => exact preamble_carriedOut hid hb hp poll res
    | _ => exact hsame rfl rfl ⟨f₀, decls, hb, hp, rfl, rfl, rfl⟩
  | connecting toClient => trivial
  | connected inRd inWr conn isC2s serverResponse f toClient =>
    refine hsame (by cases ev <;> rfl) (by cases ev <;> rfl) ?_
    cases ev with
    | answered res => exact answered_carriedOut h hover res
    | _ => exact h
  | shuffle c s =>
    obtain ⟨f₀, conn, serverResponse, first, decls, header, f, done, hl⟩ := h
    cases ev with
    | client poll res =>
      obtain ⟨hclient, hserver⟩ := client_polled s poll res
      refine ⟨f₀, conn, serverResponse, first, decls, header, f, _, { hl with
        relays := hl.relays.step (.client (poll c.inRd) res)
        client := ?_
        server := ?_ }⟩
      · rw [pollsAt_append, hl.client, ofClient_append, hclient, List.append_assoc]
      · rw [ofServer_append, hserver, List.append_nil, ← hl.server]
        exact congrArg _ (List.append_nil _)
    | server poll res =>
      obtain ⟨hserver, hclient⟩ := server_polled s poll res
      refine ⟨f₀, conn, serverResponse, first, decls, header, f, _, { hl with
        relays := hl.relays.step (.server (poll c.outRd) res)
        client := ?_
        server := ?_ }⟩
      · rw [ofClient_append, hclient, List.append_nil, ← hl.client]
        exact congrArg _ (List.append_nil _)
      · rw [pollsAt_append, hl.server, ofServer_append, hserver]
    | _ => exact hsame rfl rfl ⟨f₀, conn, serverResponse, first, decls, header, f, done, hl⟩
  | ended r toClient => trivial

variable (Uri) in
theorem carriedOut_run (hid : env.outgoing.given = id) (evs : List OutgoingEvent) :
    CarriedOut Uri env (∀ x ∈ (handleOutgoingConnection Uri env).trace (.new env) evs, HandsNew x.1)
      (((handleOutgoingConnection Uri env).trace (.new env) evs).flatMap OutgoingConnection.clientPolls)
      (((handleOutgoingConnection Uri env).trace (.new env) evs).flatMap OutgoingConnection.serverPolls)
      ((handleOutgoingConnection Uri env).final (.new env) evs) := by
  induction evs using List.reverseRecOn with
  | nil => exact ⟨rfl, rfl, rfl⟩
  | append_singleton evs ev ih =>
    rw [Machine.trace_concat, Machine.final_concat, List.flatMap_append, List.flatMap_append,
      List.flatMap_singleton, List.flatMap_singleton]
    refine CarriedOut.step hid (ih.mono fun hnew x hx => hnew x (List.mem_append_left _ hx)) (fun hnew => ?_) ev
    exact hnew _ (List.mem_append_right _ (List.mem_singleton_self _))

section

variable {c : ShuffleConfig} {s : Shuffle} {conn : Connected} {serverResponse : Bytes}
  {first : List (AnyPoll × WriteResult)} {decls : List (Bytes × Nat)} {header : Bytes × Nat} {f : StanzaFilter}
  {done : List (Σ peer : Peer, (peer.rd c).Poll × WriteResult)}

variable (c) in
theorem opening_sent (polls : List (c.inRd.Poll × WriteResult)) (f₀ : StanzaFilter) (u : Bytes × Nat) :
    let sent := answered ((c.inRd.next c.inWr).outputs f₀ polls) ++ c.inWr.data c.trace c.isC2s u
    pongs sent = answered ((c.inRd.next c.inWr).outputs f₀ polls) ∧
      stanzasSent sent = c.inWr.data c.trace c.isC2s u := by
  intro sent
  obtain ⟨hpongs, hnone⟩ := pongs_of_all (answered_pong c.inWr polls f₀)
  have hall : ∀ d ∈ c.inWr.data c.trace c.isC2s u, d.isPong = false := data_not_pong u
  obtain ⟨hdata, hnone'⟩ := stanzasSent_of_none hall
  constructor
  · rw [pongs_append, hpongs, hnone', List.append_nil]
  · rw [stanzasSent_append, hnone, hdata, List.nil_append]

theorem LoopingOut.outputs (h : LoopingOut Uri env handsNew f₀ ps qs c s conn serverResponse first decls header f done)
    (hnew : c.outRd = .webSocketRead → handsNew) : (c.inRd.next c.inWr).outputs (.new env.maxStanzaSizeBytes) (pollsAt c.inRd ps) =
      (c.inRd.next c.inWr).outputs f₀ (pollsAt c.inRd first) ++
        (c.inRd.next c.inWr).outputs f (ofClient done) := by
  have hbegun := (sameReading_next c.inRd c.inWr).outputs_eq h.met.same (pollsAt c.inRd ps)
  have hafter := (sameReading_next c.inRd c.inWr).outputs_eq (h.filter hnew) (ofClient done)
  rw [← hbegun, h.client, Machine.outputs_append, hafter]

theorem LoopingOut.fromClient
    (h : LoopingOut Uri env handsNew f₀ ps qs c s conn serverResponse first decls header f done)
    (hnew : c.outRd = .webSocketRead → handsNew) (hst : s.status ≠ .panicked) :
    ∃ us, arrived env.maxStanzaSizeBytes c.inRd (pollsAt c.inRd ps) = decls ++ header :: us ∧
      Handed c.outWr c.trace c.isC2s [] us s.status (stanzasSent s.server.sent) ∧
      pongs s.client.sent = pongsAt c.inRd (pollsAt c.inRd ps) := by
  have hcarries := h.relays.carriesOver .client
  obtain ⟨hpongs, -⟩ := opening_sent c (pollsAt c.inRd first) f₀ (serverResponse, 0)
  obtain ⟨hread, hanswered⟩ := read_arrived h.met.matching (pollsAt c.inRd ps) fun r hr => by
    rw [h.outputs hnew] at hr
    rcases List.mem_append.mp hr with hr | hr
    · exact h.met.preceded.noPanic r hr
    · exact hcarries.noPanic hst r hr
  rw [h.outputs hnew] at hread hanswered
  refine ⟨read ((c.inRd.next c.inWr).outputs f (ofClient done)), ?_, hcarries.handed, ?_⟩
  · rw [← hread, read_append, h.met.preceded.reads, List.append_assoc]
    rfl
  · rw [← hanswered, answered_append, ← hpongs]
    exact hcarries.pongs

theorem LoopingOut.fromServer
    (h : LoopingOut Uri env handsNew f₀ ps qs c s conn serverResponse first decls header f done)
    (hst : s.status ≠ .panicked) :
    Handed c.inWr c.trace c.isC2s (c.inWr.data c.trace c.isC2s (serverResponse, 0))
        (arrived env.maxStanzaSizeBytes c.outRd (pollsAt c.outRd qs)) s.status (stanzasSent s.client.sent) ∧
      pongs s.server.sent = pongsAt c.outRd (pollsAt c.outRd qs) := by
  have hcarries := h.relays.carriesOver .server
  obtain ⟨-, hdata⟩ := opening_sent c (pollsAt c.inRd first) f₀ (serverResponse, 0)
  have hmatching : Matching c.outRd c.outWr := by
    obtain ⟨domain, srv, f, st, -, hconnect⟩ := h.met.connected
    rw [h.outRd, h.outWr]
    exact matching_srvConnect hconnect
  obtain ⟨hread, hanswered⟩ := read_arrived hmatching (ofServer done) (hcarries.noPanic hst)
  rw [h.server, ← hread, ← hanswered, ← hdata]
  exact ⟨hcarries.handed, hcarries.pongs⟩

end

end

/-- What the client of an outgoing connection sends, over any transport, is declarations, a header and stanzas.
The header names the domain that `srv_connect` looked up, and the server it found is sent each stanza behind
it; the client is sent the answer of that server, and then each of its stanzas. Either side gets a pong for
each of its pings. -/
theorem outgoing_carried (Uri : Type) {ServerName : Type} [HttpUri Uri] [DecidableEq ServerName]
    (env : OutgoingListener ServerName) (hid : env.outgoing.given = id) (evs : List OutgoingEvent)
    (hover : ∀ x ∈ (handleOutgoingConnection Uri env).trace (.new env) evs, HandsNew x.1)
    {c : ShuffleConfig} {s : Shuffle}
    (hrun : (handleOutgoingConnection Uri env).final (.new env) evs = .shuffle c s)
    (hst : s.status ≠ .panicked) :
    let states := (handleOutgoingConnection Uri env).trace (.new env) evs
    let fromClient := pollsAt c.inRd (states.flatMap OutgoingConnection.clientPolls)
    let fromServer := pollsAt c.outRd (states.flatMap OutgoingConnection.serverPolls)
    ∃ decls header us domain conn serverResponse,
      arrived env.maxStanzaSizeBytes c.inRd fromClient = decls ++ header :: us ∧
      (∀ d ∈ decls, bytes "<?xml " <+: d.1) ∧ bytes "<stream:stream " <+: header.1 ∧
      c.isC2s = isC2sHeader header.1 ∧ toDomain (unmark (decls ++ [header])) = .ok domain ∧
      (∃ (srv : XmppConnection Uri) (f : StanzaFilter) (st : Dialing),
        env.outgoing.srvConnect env.sort domain c.isC2s (unmark (decls ++ [header])) f =
          (some (.ok (srv, conn, serverResponse)), st)) ∧
      c.outRd = conn.rd ∧ c.outWr = conn.wr ∧
      Handed c.outWr c.trace c.isC2s [] us s.status (stanzasSent s.server.sent) ∧
      Handed c.inWr c.trace c.isC2s (c.inWr.data c.trace c.isC2s (serverResponse, 0))
        (arrived env.maxStanzaSizeBytes c.outRd fromServer) s.status (stanzasSent s.client.sent) ∧
      pongs s.client.sent = pongsAt c.inRd fromClient ∧ pongs s.server.sent = pongsAt c.outRd fromServer := by
  intro states fromClient fromServer
  have hc := carriedOut_run Uri hid evs
  rw [hrun] at hc
  obtain ⟨f₀, conn, serverResponse, first, decls, header, f, done, hl⟩ := hc
  obtain ⟨us, harrived, hserver, hclientPongs⟩ := hl.fromClient (fun _ => hover) hst
  obtain ⟨hclient, hserverPongs⟩ := hl.fromServer hst
  obtain ⟨domain, srv, f', st, hdomain, hconnect⟩ := hl.met.connected
  exact ⟨decls, header, us, domain, conn, serverResponse, harrived, hl.met.preceded.decls, hl.met.opens,
    hl.met.classified, hdomain, ⟨srv, f', st, hconnect⟩, hl.outRd, hl.outWr, hserver, hclient, hclientPongs,
    hserverPongs⟩

def serverText (t : Bytes) : OutgoingEvent :=
  .server
    (fun
      | .asyncRead => .pending
      | .webSocketRead => .message (.text t))
    .done

def lateRun : List OutgoingEvent := beforeLast ++ [clientByte gt, serverText (bytes "<b/>")]

set_option maxRecDepth 16000 in
theorem outgoing_carried_late :
    ∃ c s, (handleOutgoingConnection OneHost (lateWebSocket false)).final (.new (lateWebSocket false)) lateRun =
      .shuffle c s ∧
    let states := (handleOutgoingConnection OneHost (lateWebSocket false)).trace (.new (lateWebSocket false)) lateRun
    let fromClient := pollsAt c.inRd (states.flatMap OutgoingConnection.clientPolls)
    let fromServer := pollsAt c.outRd (states.flatMap OutgoingConnection.serverPolls)
    ∃ decls header us domain conn serverResponse,
      arrived 128 c.inRd fromClient = decls ++ header :: us ∧
      (∀ d ∈ decls, bytes "<?xml " <+: d.1) ∧ bytes "<stream:stream " <+: header.1 ∧
      c.isC2s = isC2sHeader header.1 ∧ toDomain (unmark (decls ++ [header])) = .ok domain ∧
      (∃ (srv : XmppConnection OneHost) (f : StanzaFilter) (st : Dialing),
        (lateWebSocket false).outgoing.srvConnect insertionSortBy domain c.isC2s (unmark (decls ++ [header])) f =
          (some (.ok (srv, conn, serverResponse)), st)) ∧
      c.outRd = conn.rd ∧ c.outWr = conn.wr ∧
      Handed c.outWr c.trace c.isC2s [] us s.status (stanzasSent s.server.sent) ∧
      Handed c.inWr c.trace c.isC2s (c.inWr.data c.trace c.isC2s (serverResponse, 0))
        (arrived 128 c.outRd fromServer) s.status (stanzasSent s.client.sent) ∧
      pongs s.client.sent = pongsAt c.inRd fromClient ∧ pongs s.server.sent = pongsAt c.outRd fromServer := by
  refine ⟨_, _, rfl, ?_⟩
  exact outgoing_carried OneHost (lateWebSocket false) rfl lateRun (by decide +kernel) rfl (by decide +kernel)

end XmppProxy
