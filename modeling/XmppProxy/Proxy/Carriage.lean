import XmppProxy.Proxy.Marking
import XmppProxy.Proxy.Readers
import XmppProxy.Proxy.Transparency

/-! An incoming connection over either kind of reader, from the preamble on: the target is sent the PROXY
line, the declarations and the header, and every stanza behind them; the client is sent the stanzas of the
target, converted, and its pongs. -/

namespace XmppProxy

open Lib Stanza

section

variable {rd : StanzaRead}

inductive PreambleTurn (polled : StanzaRead.Polled) (streamOpen : Bytes) : Preamble → Prop where
  | more : read [polled.turn] = [] → polled.result ≠ some .panic →
      PreambleTurn polled streamOpen (.reading polled.filter streamOpen)
  | decl {u : Bytes × Nat} : read [polled.turn] = [u] → polled.result = some (.ok (some u)) →
      bytes "<?xml " <+: u.1 → PreambleTurn polled streamOpen (.reading polled.filter (streamOpen ++ u.1))
  | header {u : Bytes × Nat} : read [polled.turn] = [u] → polled.result = some (.ok (some u)) →
      bytes "<stream:stream " <+: u.1 →
      PreambleTurn polled streamOpen (.accepted polled.filter (streamOpen ++ u.1) (isC2sHeader u.1))
  | failed {e : Error} : PreambleTurn polled streamOpen (.failed polled.filter e)
  | panicked : PreambleTurn polled streamOpen (.panicked polled.filter)

theorem preambleTurn (wrt : StanzaWrite) (f : StanzaFilter) (streamOpen : Bytes) (p : rd.Poll) (res : WriteResult) :
    PreambleTurn (rd.poll wrt f p res) streamOpen
      (Preamble.step rd wrt p res (.reading f streamOpen)).2 := by
  unfold Preamble.step
  dsimp only
  generalize rd.poll wrt f p res = polled
  obtain ⟨r, f', sent⟩ := polled
  obtain _ | (_ | ⟨buf, e⟩) | err | _ := r
  · exact .more rfl (by simp)
  · exact .failed
  · dsimp only
    split
    next hx => exact .decl (u := (buf, e)) rfl rfl hx
    next =>
      split
      next hs => exact .header (u := (buf, e)) rfl rfl hs
      next => exact .failed
  · exact .failed
  · exact .panicked

end

section

variable {Cert Verifier : Type} {env : Incoming Cert Verifier} {inRd : StanzaRead} {inWr : StanzaWrite}

def clientOf {isC2s : Bool}
    (done : List (Σ peer : Peer, (peer.rd (env.shuffleConfig inRd inWr isC2s)).Poll × WriteResult)) :
    List (inRd.Poll × WriteResult) := own Peer.client done

def targetOf {isC2s : Bool}
    (done : List (Σ peer : Peer, (peer.rd (env.shuffleConfig inRd inWr isC2s)).Poll × WriteResult)) :
    List (BytePoll × WriteResult) := own Peer.server done

namespace Connection

variable (env inWr)

def clientPolls : Connection × Poll inRd → List (inRd.Poll × WriteResult)
  | (.preamble _ _, .client poll res) => [(poll, res)]
  | (.shuffle isC2s s, poll) =>
    clientOf (polls [(s, (poll.event : Event (env.shuffleConfig inRd inWr isC2s)))])
  | _ => []

def targetPolls : Connection × Poll inRd → List (BytePoll × WriteResult)
  | (.shuffle isC2s s, poll) =>
    targetOf (polls [(s, (poll.event : Event (env.shuffleConfig inRd inWr isC2s)))])
  | _ => []

end Connection

structure Preceded (polled : List PollResult) (decls : List (Bytes × Nat)) (rest : List (Bytes × Nat)) : Prop where
  reads : read polled = decls ++ rest
  decls : ∀ d ∈ decls, bytes "<?xml " <+: d.1
  noPanic : ∀ r ∈ polled, r.1 ≠ some .panic

theorem Preceded.nil : Preceded [] [] [] := ⟨rfl, fun _ hd => (nomatch hd), fun _ hr => nomatch hr⟩

def unmark (us : List (Bytes × Nat)) : Bytes := (us.map Prod.fst).flatten

theorem unmark_append (us vs : List (Bytes × Nat)) : unmark (us ++ vs) = unmark us ++ unmark vs := by
  unfold unmark
  rw [List.map_append, List.flatten_append]

theorem unmark_singleton (u : Bytes × Nat) : unmark [u] = u.1 := List.flatten_singleton

variable (env inWr)

/-- The loop `s` behind the header, which the client's polls `first` have brought. -/
structure Looping (f₀ : StanzaFilter) (ps : List (inRd.Poll × WriteResult)) (qs : List (BytePoll × WriteResult))
    (isC2s : Bool) (s : Shuffle) (first : List (inRd.Poll × WriteResult)) (decls : List (Bytes × Nat))
    (header : Bytes × Nat) (f : StanzaFilter)
    (done : List (Σ peer : Peer, (peer.rd (env.shuffleConfig inRd inWr isC2s)).Poll × WriteResult)) : Prop where
  preceded : Preceded ((inRd.next inWr).outputs f₀ first) decls [header]
  opens : bytes "<stream:stream " <+: header.1
  classified : isC2s = isC2sHeader header.1
  checked : isC2s = false → env.checkServer (unmark (decls ++ [header])) = .ok ()
  filter : SameReading inRd f ((inRd.next inWr).final f₀ first)
  relays : Relays (env.shuffleConfig inRd inWr isC2s)
    (.start f env.config.maxStanzaSizeBytes (answered ((inRd.next inWr).outputs f₀ first))
      (env.proxySent ++ [.raw (unmark (decls ++ [header]))])) done s
  client : ps = first ++ clientOf done
  target : qs = targetOf done

/-- What a connection has come to, whose client's reader began with the filter `f₀` and was polled by `ps`,
and the target's by `qs`. -/
def Carried (f₀ : StanzaFilter) (ps : List (inRd.Poll × WriteResult)) (qs : List (BytePoll × WriteResult)) :
    Connection → Prop
  | .preamble p toClient => ∃ decls, Preceded ((inRd.next inWr).outputs f₀ ps) decls [] ∧
      p = .reading ((inRd.next inWr).final f₀ ps) (unmark decls) ∧
      toClient = answered ((inRd.next inWr).outputs f₀ ps) ∧ qs = []
  | .shuffle isC2s s => ∃ first decls header f done,
      Looping env inWr f₀ ps qs isC2s s first decls header f done
  | .ended _ _ _ => True

variable {env inWr} {f₀ : StanzaFilter} {ps : List (inRd.Poll × WriteResult)}
  {qs : List (BytePoll × WriteResult)}

theorem SameReading.scratched {f f' : StanzaFilter} (hs : Incoming.Scratched f f') (hf : LeavesIdle inRd f) :
    SameReading inRd f' f := by
  cases inRd with
  | asyncRead =>
    obtain ⟨n, hidle⟩ := hf rfl
    rcases hs with rfl | ⟨w, hw, rfl⟩
    · exact ⟨_, _, hidle, hidle⟩
    · exact ⟨_, _, refines_scratch hidle w hw, hidle⟩
  | webSocketRead =>
    rcases hs with rfl | ⟨w, hw, rfl⟩
    · rfl
    · rfl

theorem accept_carried {decls : List (Bytes × Nat)} {header : Bytes × Nat} {toClient : List Sent}
    (hp : Preceded ((inRd.next inWr).outputs f₀ ps) decls [header])
    (hh : bytes "<stream:stream " <+: header.1) (hf : LeavesIdle inRd ((inRd.next inWr).final f₀ ps))
    (hc : toClient = answered ((inRd.next inWr).outputs f₀ ps)) :
    Carried env inWr f₀ ps [] (Connection.accept env ((inRd.next inWr).final f₀ ps) (unmark (decls ++ [header]))
      (isC2sHeader header.1) toClient) := by
  subst hc
  unfold Connection.accept
  split
  next hchecked =>
    split
    next f sent ho =>
      obtain ⟨rfl, hscratch⟩ := Incoming.openIncoming_ok ho
      refine ⟨ps, decls, header, f, [], hp, hh, rfl, fun hs2s => ?_, .scratched hscratch hf,
        relays_start _ _, (List.append_nil _).symm, rfl⟩
      rwa [hs2s] at hchecked
    next => trivial
  · trivial
  · trivial

variable (inWr) in
theorem next_concat (ps : List (inRd.Poll × WriteResult)) (f : StanzaFilter) (p : inRd.Poll)
    (res : WriteResult) :
    (inRd.next inWr).outputs f (ps ++ [(p, res)]) =
        (inRd.next inWr).outputs f ps ++ [(inRd.poll inWr ((inRd.next inWr).final f ps) p res).turn] ∧
      (inRd.next inWr).final f (ps ++ [(p, res)]) =
        (inRd.poll inWr ((inRd.next inWr).final f ps) p res).filter := by
  rw [Machine.outputs_concat, Machine.final_concat]
  exact ⟨rfl, rfl⟩

theorem Preceded.concat {polled : List PollResult} {decls rest : List (Bytes × Nat)} {r : PollResult}
    (h : Preceded polled decls []) (hread : read [r] = rest) (hno : r.1 ≠ some .panic) :
    Preceded (polled ++ [r]) decls rest where
  reads := by rw [read_append, h.reads, hread, List.append_nil]
  decls := h.decls
  noPanic x hx := by
    rcases List.mem_append.mp hx with hx | hx
    · exact h.noPanic x hx
    · rw [List.mem_singleton.mp hx]
      exact hno

inductive Advanced (inWr : StanzaWrite) (f₀ : StanzaFilter) (ps : List (inRd.Poll × WriteResult)) : Preamble → Prop where
  | reading {decls : List (Bytes × Nat)} : Preceded ((inRd.next inWr).outputs f₀ ps) decls [] →
      Advanced inWr f₀ ps (.reading ((inRd.next inWr).final f₀ ps) (unmark decls))
  | accepted {decls : List (Bytes × Nat)} {header : Bytes × Nat} :
      Preceded ((inRd.next inWr).outputs f₀ ps) decls [header] → bytes "<stream:stream " <+: header.1 →
      LeavesIdle inRd ((inRd.next inWr).final f₀ ps) →
      Advanced inWr f₀ ps (.accepted ((inRd.next inWr).final f₀ ps) (unmark (decls ++ [header]))
        (isC2sHeader header.1))
  | failed {f : StanzaFilter} {e : Error} : Advanced inWr f₀ ps (.failed f e)
  | panicked {f : StanzaFilter} : Advanced inWr f₀ ps (.panicked f)

theorem Preceded.advance {decls : List (Bytes × Nat)}
    (h : Preceded ((inRd.next inWr).outputs f₀ ps) decls []) (p : inRd.Poll) (res : WriteResult) :
    let stepped := Preamble.step inRd inWr p res (.reading ((inRd.next inWr).final f₀ ps) (unmark decls))
    answered ((inRd.next inWr).outputs f₀ ps) ++ stepped.1 =
        answered ((inRd.next inWr).outputs f₀ (ps ++ [(p, res)])) ∧
      Advanced inWr f₀ (ps ++ [(p, res)]) stepped.2 := by
  intro stepped
  obtain ⟨houts, hfinal⟩ := next_concat inWr ps f₀ p res
  have hturn := preambleTurn inWr ((inRd.next inWr).final f₀ ps) (unmark decls) p res
  have hopen : ∀ u : Bytes × Nat, unmark decls ++ u.1 = unmark (decls ++ [u]) := by
    intro u
    rw [unmark_append, unmark_singleton]
  have hno : ∀ {u : Bytes × Nat},
      (inRd.poll inWr ((inRd.next inWr).final f₀ ps) p res).result = some (.ok (some u)) →
      (inRd.poll inWr ((inRd.next inWr).final f₀ ps) p res).turn.1 ≠ some .panic := by
    intro u hu
    rw [StanzaRead.Polled.turn, hu]
    simp
  refine ⟨?_, ?_⟩
  · rw [houts, answered_append]
    exact congrArg _ (List.flatMap_singleton ..).symm
  change PreambleTurn _ _ stepped.2 at hturn
  generalize stepped.2 = q at hturn ⊢
  cases hturn with
  | more hread hnone =>
    have hpre := h.concat hread hnone
    rw [← houts] at hpre
    rw [← hfinal]
    exact .reading hpre
  | @decl u hread hres hx =>
    obtain ⟨hr, -, hp⟩ := h.concat hread (hno hres)
    rw [← houts] at hr hp
    rw [← hfinal, hopen]
    refine .reading ⟨by rw [hr, List.append_nil], fun d hd => ?_, hp⟩
    rcases List.mem_append.mp hd with hd | hd
    · exact h.decls d hd
    · rw [List.mem_singleton.mp hd]
      exact hx
  | @header u hread hres hs =>
    have hpre := h.concat hread (hno hres)
    have hidle : LeavesIdle inRd (inRd.poll inWr ((inRd.next inWr).final f₀ ps) p res).filter :=
      fun hrd => ⟨_, poll_idle _ inWr p res hrd hres⟩
    rw [← houts] at hpre
    rw [← hfinal] at hidle
    rw [← hfinal, hopen]
    exact .accepted hpre hs hidle
  | failed => exact .failed
  | panicked => exact .panicked

theorem preamble_carried {decls : List (Bytes × Nat)}
    (h : Preceded ((inRd.next inWr).outputs f₀ ps) decls []) (p : inRd.Poll) (res : WriteResult) :
    Carried env inWr f₀ (ps ++ [(p, res)]) [] (Connection.step env inRd inWr
      (.preamble (.reading ((inRd.next inWr).final f₀ ps) (unmark decls))
        (answered ((inRd.next inWr).outputs f₀ ps))) (.client p res)).2 := by
  obtain ⟨hanswered, hadvanced⟩ := h.advance p res
  unfold Connection.step
  dsimp only
  generalize Preamble.step inRd inWr p res (.reading ((inRd.next inWr).final f₀ ps) (unmark decls)) = stepped
    at hanswered hadvanced ⊢
  obtain ⟨sent, q⟩ := stepped
  cases hadvanced with
  | reading hpre => exact ⟨_, hpre, rfl, hanswered, rfl⟩
  | accepted hpre hs hidle => exact accept_carried hpre hs hidle hanswered
  | failed => trivial
  | panicked => trivial

theorem Carried.step {c : Connection} (h : Carried env inWr f₀ ps qs c)
    (poll : Poll inRd) :
    Carried env inWr f₀ (ps ++ Connection.clientPolls env inWr (c, poll))
      (qs ++ Connection.targetPolls env inWr (c, poll)) (c.step env inRd inWr poll).2 := by
  cases c with
  | preamble p toClient =>
    obtain ⟨decls, hp, rfl, rfl, rfl⟩ := h
    cases poll with
    | server p res =>
      refine ⟨decls, ?_, ?_, ?_, rfl⟩ <;> simp only [Connection.clientPolls, List.append_nil]
      exact hp
    | client p res => exact preamble_carried hp p res
  | shuffle isC2s s =>
    obtain ⟨first, decls, header, f, done, hl⟩ := h
    refine ⟨first, decls, header, f, _, { hl with
      relays := hl.relays.step poll.event
      client := ?_
      target := ?_ }⟩
    · rw [hl.client, List.append_assoc]
      exact congrArg _ (own_append ..).symm
    · rw [hl.target]
      exact (own_append ..).symm
  | ended r toClient toServer => trivial

variable (env inWr) in
theorem carried_run (f₀ : StanzaFilter) (run : List (Poll inRd)) :
    Carried env inWr f₀
      (((shuffleRdWrFilter env inRd inWr).trace (.preamble (.reading f₀ []) []) run).flatMap
        (Connection.clientPolls env inWr))
      (((shuffleRdWrFilter env inRd inWr).trace (.preamble (.reading f₀ []) []) run).flatMap
        (Connection.targetPolls env inWr))
      ((shuffleRdWrFilter env inRd inWr).final (.preamble (.reading f₀ []) []) run) := by
  induction run using List.reverseRecOn with
  | nil => exact ⟨[], .nil, rfl, rfl, rfl⟩
  | append_singleton run poll ih =>
    rw [Machine.trace_concat, Machine.final_concat, List.flatMap_append, List.flatMap_append,
      List.flatMap_singleton, List.flatMap_singleton]
    exact ih.step poll

variable (inWr) in
theorem answered_pong (ps : List (inRd.Poll × WriteResult)) (f : StanzaFilter) :
    ∀ x ∈ answered ((inRd.next inWr).outputs f ps), x.isPong = true := by
  induction ps generalizing f with
  | nil => exact fun x hx => nomatch hx
  | cons p ps ih =>
    intro x hx
    rw [Machine.outputs_cons, answered, List.flatMap_cons, List.mem_append] at hx
    rcases hx with hx | hx
    · exact poll_sent inRd inWr f p.1 p.2 x hx
    · exact ih _ x hx

theorem Incoming.proxySent_not_pong (env : Incoming Cert Verifier) (header : Bytes) :
    ∀ x ∈ env.proxySent ++ [.raw header], x.isPong = false := by
  intro x hx
  unfold Incoming.proxySent at hx
  rcases List.mem_append.mp hx with hx | hx
  · split at hx
    · rw [List.mem_singleton.mp hx]
      rfl
    · cases hx
  · rw [List.mem_singleton.mp hx]
    rfl

theorem not_pong_of_pongs {sent : List Sent} (h : pongs sent = []) : stanzasSent sent = sent := by
  refine List.filter_eq_self.mpr fun x hx => ?_
  have hfalse := List.filter_eq_nil_iff.mp h x hx
  rw [Bool.eq_false_iff.mpr hfalse]
  rfl

variable (env inWr f₀ ps qs)

/-- A connection in the loop, whose client's reader has returned `decls`, `header` and `us` on its polls
`ps`, and whose target's reader was polled by `qs`. -/
structure Brought (isC2s : Bool) (s : Shuffle) (decls : List (Bytes × Nat)) (header : Bytes × Nat)
    (us : List (Bytes × Nat)) : Prop where
  reads : read ((inRd.next inWr).outputs f₀ ps) = decls ++ header :: us
  declared : ∀ d ∈ decls, bytes "<?xml " <+: d.1
  opens : bytes "<stream:stream " <+: header.1
  classified : isC2s = isC2sHeader header.1
  checked : isC2s = false → env.checkServer (unmark (decls ++ [header])) = .ok ()
  /-- The target has been sent the PROXY line, declarations and header in one write, and the stanzas. -/
  target : Handed .asyncWrite env.trace isC2s (env.proxySent ++ [.raw (unmark (decls ++ [header]))]) us
    s.status s.server.sent
  /-- The client has been sent the stanzas of the target. -/
  client : Handed inWr env.trace isC2s []
    (marked (filterNextEoft.outputs (.new env.config.maxStanzaSizeBytes) (bytesOf qs))) s.status
    (stanzasSent s.client.sent)
  pongs : pongs s.client.sent = answered ((inRd.next inWr).outputs f₀ ps)
  noPanic : s.status ≠ .panicked → ∀ r ∈ (inRd.next inWr).outputs f₀ ps, r.1 ≠ some .panic

variable {env inWr f₀ ps qs}

theorem Looping.brought {isC2s : Bool} {s : Shuffle} {first : List (inRd.Poll × WriteResult)}
    {decls : List (Bytes × Nat)} {header : Bytes × Nat} {f : StanzaFilter}
    {done : List (Σ peer : Peer, (peer.rd (env.shuffleConfig inRd inWr isC2s)).Poll × WriteResult)}
    (h : Looping env inWr f₀ ps qs isC2s s first decls header f done) :
    ∃ us, Brought env inWr f₀ ps qs isC2s s decls header us := by
  have hclient := h.relays.carriesOver .client
  have hserver := h.relays.carriesOver .server
  have hafter : (inRd.next inWr).outputs f (clientOf done) =
      (inRd.next inWr).outputs ((inRd.next inWr).final f₀ first) (clientOf done) :=
    (sameReading_next inRd inWr).outputs_eq h.filter _
  have houts : (inRd.next inWr).outputs f₀ ps =
      (inRd.next inWr).outputs f₀ first ++ (inRd.next inWr).outputs f (clientOf done) := by
    rw [h.client, Machine.outputs_append, hafter]
  have hbytes := read_bytes .asyncWrite (targetOf done) (.new env.config.maxStanzaSizeBytes)
  have hbase := stanzasSent_of_none (env.proxySent_not_pong (unmark (decls ++ [header])))
  have hpongs := pongs_of_all (answered_pong inWr first f₀)
  refine ⟨read ((inRd.next inWr).outputs f (clientOf done)), ?_, h.preceded.decls, h.opens, h.classified,
    h.checked, ?_, ?_, ?_, fun hst r hr => ?_⟩
  · rw [houts, read_append, h.preceded.reads, List.append_assoc]
    rfl
  · have hsent : XmppProxy.pongs s.server.sent = [] :=
      hserver.pongs.trans ((congrArg₂ _ hbase.2 hbytes.2.2).trans (List.append_nil _))
    have hh := hclient.handed
    change Handed _ _ _ (stanzasSent (env.proxySent ++ [.raw (unmark (decls ++ [header]))])) _ _
      (stanzasSent s.server.sent) at hh
    rw [hbase.1, not_pong_of_pongs hsent] at hh
    exact hh
  · have hh := hserver.handed
    change Handed _ _ _ (stanzasSent (answered ((inRd.next inWr).outputs f₀ first)))
      (read ((StanzaRead.asyncRead.next .asyncWrite).outputs (.new env.config.maxStanzaSizeBytes) (targetOf done)))
      _ (stanzasSent s.client.sent) at hh
    rw [hpongs.2, hbytes.1, ← h.target] at hh
    exact hh
  · rw [houts, answered_append]
    exact hclient.pongs.trans (congrArg (· ++ _) hpongs.1)
  · rw [houts] at hr
    rcases List.mem_append.mp hr with hr | hr
    · exact h.preceded.noPanic r hr
    · exact hclient.noPanic hst r hr

theorem brought_run (run : List (Poll inRd)) {isC2s : Bool} {s : Shuffle}
    (hrun : (shuffleRdWrFilter env inRd inWr).final (.preamble (.reading f₀ []) []) run = .shuffle isC2s s) :
    ∃ decls header us, Brought env inWr f₀
      (((shuffleRdWrFilter env inRd inWr).trace (.preamble (.reading f₀ []) []) run).flatMap
        (Connection.clientPolls env inWr))
      (((shuffleRdWrFilter env inRd inWr).trace (.preamble (.reading f₀ []) []) run).flatMap
        (Connection.targetPolls env inWr)) isC2s s decls header us := by
  have hc := carried_run env inWr f₀ run
  rw [hrun] at hc
  obtain ⟨first, decls, header, f, done, hl⟩ := hc
  obtain ⟨us, hb⟩ := hl.brought
  exact ⟨decls, header, us, hb⟩

theorem written_raw {trace isC2s : Bool} (us : List (Bytes × Nat)) :
    StanzaWrite.asyncWrite.written trace isC2s us = (us.map Prod.fst).map .raw := by
  induction us with
  | nil => rfl
  | cons u us ih => exact congrArg (.raw u.1 :: ·) ih

theorem Handed.relayed {trace isC2s : Bool} {base sent : List Sent} {us : List (Bytes × Nat)} {st : Status}
    (h : Handed .asyncWrite trace isC2s base us st sent) : Relayed base (us.map Prod.fst) st sent := by
  cases h with
  | all =>
    rw [written_raw]
    exact .all
  | @cut us' u d taken hus hd =>
    obtain rfl : Sent.raw u.1 = d := (List.cons.inj hd).1
    rw [written_raw]
    exact .cut taken (by rw [hus, List.map_append, List.map_singleton])

/-- A client over a WebSocket, whose task has not died: its texts, converted, are declarations, a header and
stanzas. The target was sent the PROXY line, declarations and header in one piece, and each stanza; the client
was sent what a new filter splits off the bytes of the target, framed, and a pong for each ping. Of a server,
the certificate has been checked. -/
theorem websocket_carried (env : Incoming Cert Verifier) (f : StanzaFilter)
    (run : List (Poll .webSocketRead)) {isC2s : Bool} {s : Shuffle}
    (hrun : (shuffleRdWrFilter env .webSocketRead .webSocketClientWrite).final
      (.preamble (.reading f []) []) run = .shuffle isC2s s) (hst : s.status ≠ .panicked) :
    let states := (shuffleRdWrFilter env .webSocketRead .webSocketClientWrite).trace
      (.preamble (.reading f []) []) run
    let fromClient := states.flatMap (Connection.clientPolls env .webSocketClientWrite)
    let fromTarget := states.flatMap (Connection.targetPolls env .webSocketClientWrite)
    ∃ decls header us, (texts fromClient).map fromWs = decls ++ header :: us ∧
      (∀ t ∈ texts fromClient, (fromWs t).length ≤ f.bufSize) ∧ (∀ d ∈ decls, bytes "<?xml " <+: d) ∧
      bytes "<stream:stream " <+: header ∧ isC2s = isC2sHeader header ∧
      (isC2s = false → env.checkServer (decls ++ [header]).flatten = .ok ()) ∧
      Relayed (env.proxySent ++ [.raw (decls ++ [header]).flatten]) us s.status s.server.sent ∧
      Handed .webSocketClientWrite env.trace isC2s []
        (marked (filterNextEoft.outputs (.new env.config.maxStanzaSizeBytes) (bytesOf fromTarget))) s.status
        (stanzasSent s.client.sent) ∧
      pongs s.client.sent = pongsFor fromClient := by
  intro states fromClient fromTarget
  obtain ⟨decls, header, us, hb⟩ := brought_run run hrun
  obtain ⟨hread, hfits, hanswered⟩ := read_messages fromClient (hb.noPanic hst)
  have hreads := congrArg (List.map Prod.fst) (hread.symm.trans hb.reads)
  rw [List.map_map, List.map_append, List.map_cons] at hreads
  have hopen : unmark (decls ++ [header]) = (decls.map Prod.fst ++ [header.1]).flatten := by
    rw [unmark, List.map_append, List.map_singleton]
  refine ⟨decls.map Prod.fst, header.1, us.map Prod.fst, hreads, hfits, ?_, hb.opens, hb.classified, ?_, ?_,
    hb.client, hb.pongs.trans hanswered⟩
  · intro d hd
    obtain ⟨u, hu, rfl⟩ := List.mem_map.mp hd
    exact hb.declared u hu
  · rw [← hopen]
    exact hb.checked
  · rw [← hopen]
    exact hb.target.relayed

end

def openOfClient : Bytes := bytes "<open xmlns='urn:ietf:params:xml:ns:xmpp-framing'/>"

def websocketRun : List (Poll .webSocketRead) :=
  [.client (.message (.text openOfClient)) .done, .client (.message (.ping [1])) .done,
    .client (.message (.text (bytes "<a/>"))) .done] ++
    (bytes "<b/>").map fun b => .server (.byte b) .done

def wideTarget : Incoming Unit Unit := { localTarget with config.maxStanzaSizeBytes := 100 }

set_option maxRecDepth 4000 in
theorem websocket_carried_run :
    ∃ s, (shuffleRdWrFilter wideTarget .webSocketRead .webSocketClientWrite).final
      (.preamble (.reading (.new 100) []) []) websocketRun = .shuffle true s ∧
    let states := (shuffleRdWrFilter wideTarget .webSocketRead .webSocketClientWrite).trace
      (.preamble (.reading (.new 100) []) []) websocketRun
    let fromClient := states.flatMap (Connection.clientPolls wideTarget .webSocketClientWrite)
    let fromTarget := states.flatMap (Connection.targetPolls wideTarget .webSocketClientWrite)
    ∃ decls header us, (texts fromClient).map fromWs = decls ++ header :: us ∧
      (∀ t ∈ texts fromClient, (fromWs t).length ≤ 100) ∧ (∀ d ∈ decls, bytes "<?xml " <+: d) ∧
      bytes "<stream:stream " <+: header ∧ true = isC2sHeader header ∧
      (true = false → wideTarget.checkServer (decls ++ [header]).flatten = .ok ()) ∧
      Relayed (wideTarget.proxySent ++ [.raw (decls ++ [header]).flatten]) us s.status s.server.sent ∧
      Handed .webSocketClientWrite false true []
        (marked (filterNextEoft.outputs (.new 100) (bytesOf fromTarget))) s.status
        (stanzasSent s.client.sent) ∧
      pongs s.client.sent = pongsFor fromClient := by
  refine ⟨_, rfl, ?_⟩
  exact websocket_carried wideTarget (.new 100) websocketRun rfl (by decide)

end XmppProxy
