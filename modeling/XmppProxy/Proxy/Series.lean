import XmppProxy.Proxy.Admission
import XmppProxy.Proxy.Framing
import XmppProxy.Proxy.Insertion
import XmppProxy.Proxy.OutgoingCarriage
import XmppProxy.Stanza.Partition

/-! Two proxies in series: what one filter has split without an error, another one that has room for as much
splits again, into the same stanzas. So a target hears through both proxies what the client has sent to the
first one. -/

namespace XmppProxy

open Lib Stanza

namespace Stanza

section

variable {limit : Nat} {s : Scanner}

/-- The pending bytes have been read, one after the other, from a new stanza on. -/
def Scanner.Fresh (s : Scanner) : Prop := Trace (.idle 0) s.part s

theorem Scanner.Fresh.next (h : s.Fresh) (b : UInt8) (hok : (s.nextEoft limit b).1.isOk) :
    (s.nextEoft limit b).2.Fresh ∧
      ∀ u e, (s.nextEoft limit b).1 = .ok (some (u, e)) → Replays u e ∧ u.length ≤ limit := by
  have ht := s.turn_next limit b
  unfold Scanner.nextEoft at hok ⊢
  generalize s.next limit b = x at ht hok
  obtain ⟨r, t⟩ := x
  dsimp only at ht
  cases ht with
  | skip => exact ⟨h, by simp⟩
  | @push t hd _ =>
    refine ⟨?_, by simp⟩
    have hpart : (t.push b).part = s.part ++ [b] := by rw [Scanner.push, Scanner.dispatch_part hd]
    dsimp only
    unfold Scanner.Fresh
    rw [hpart]
    exact h.concat hd
  | emit e _ hd hlen _ =>
    refine ⟨.nil, fun u e' heq => ?_⟩
    obtain ⟨rfl, rfl⟩ := Prod.mk.inj (Option.some.inj (Outcome.ok.inj heq))
    refine ⟨⟨s.part, b, s, rfl, h, hd⟩, ?_⟩
    rw [List.length_append, List.length_singleton]
    exact hlen
  | full => cases hok
  | reject => cases hok
  | panic => cases hok
  | past => cases hok

theorem Scanner.Fresh.outputs (h : s.Fresh) {bs : Bytes} (hok : ∀ r ∈ (scanNextEoft limit).outputs s bs, r.isOk) :
    ∀ x ∈ marked ((scanNextEoft limit).outputs s bs), Replays x.1 x.2 ∧ x.1.length ≤ limit := by
  induction bs generalizing s with
  | nil => exact fun x hx => nomatch hx
  | cons b bs ih =>
    have hstep : (scanNextEoft limit).step s b = s.nextEoft limit b := rfl
    rw [Machine.outputs_cons, hstep] at hok ⊢
    obtain ⟨hb, hrest⟩ := List.forall_mem_cons.mp hok
    obtain ⟨hnext, hemit⟩ := h.next b hb
    intro x hx
    obtain ⟨r, hr, hx⟩ := List.mem_filterMap.mp hx
    rcases List.mem_cons.mp hr with rfl | hr
    · generalize (s.nextEoft limit b).1 = r at hemit hx
      cases r with
      | ok u =>
        obtain rfl : u = some x := hx
        exact hemit x.1 x.2 rfl
      | err => cases hx
      | panic => cases hx
    · exact ih hnext hrest x (List.mem_filterMap.mpr ⟨r, hr, hx⟩)

theorem marked_quiet (k : Nat) (u : Bytes × Nat) :
    marked (List.replicate k (.ok none) ++ [.ok (some u)]) = [u] := by
  have hnone : marked (List.replicate k (.ok none)) = [] := by
    refine List.filterMap_eq_nil_iff.mpr fun r hr => ?_
    rw [List.eq_of_mem_replicate hr]
  rw [marked_append, hnone]
  rfl

theorem replays_run {us : List (Bytes × Nat)} (h : ∀ x ∈ us, Replays x.1 x.2 ∧ x.1.length ≤ limit) :
    marked ((scanNextEoft limit).outputs (.idle 0) (us.map Prod.fst).flatten) = us ∧
      ∀ r ∈ (scanNextEoft limit).outputs (.idle 0) (us.map Prod.fst).flatten, r.isOk := by
  induction us with
  | nil => exact ⟨rfl, fun r hr => nomatch hr⟩
  | cons u us ih =>
    obtain ⟨⟨hreplays, hlen⟩, hrest⟩ := List.forall_mem_cons.mp h
    obtain ⟨hmarked, hok⟩ := ih hrest
    obtain ⟨houts, hfinal⟩ := hreplays.run hlen
    rw [List.map_cons, List.flatten_cons, Machine.outputs_append, hfinal, houts, marked_append, marked_quiet,
      hmarked]
    refine ⟨rfl, fun r hr => ?_⟩
    rcases List.mem_append.mp hr with hr | hr
    · rcases List.mem_append.mp hr with hr | hr
      · rw [List.eq_of_mem_replicate hr]
        rfl
      · rw [List.mem_singleton.mp hr]
        rfl
    · exact hok r hr

end

end Stanza

section

variable {n m : Nat} {bs : Bytes}

theorem map_marked (os : List (Outcome (Option (Bytes × Nat)))) :
    (marked os).map Prod.fst = emitted (os.map unmarked) := by
  induction os with
  | nil => rfl
  | cons o os ih =>
    change (marked ([o] ++ os)).map Prod.fst = emitted ([unmarked o] ++ os.map unmarked)
    rw [marked_append, emitted_append, List.map_append, ih]
    refine congrArg (· ++ _) ?_
    obtain (_ | u) | e | _ := o <;> rfl

theorem map_marked_new (n : Nat) (bs : Bytes) :
    (marked (filterNextEoft.outputs (.new n) bs)).map Prod.fst = stanzas n bs := by
  rw [map_marked, nextEoft_outputs]
  rfl

theorem errorless_iff : Errorless n bs ↔ ∀ r ∈ (scanNextEoft n).outputs (.idle 0) bs, r.isOk := by
  unfold Errorless
  rw [← nextEoft_outputs, outputs_new, List.forall_mem_map]
  refine forall₂_congr fun r _ => ?_
  rw [unmarked_isOk]

/-- A filter that has room for the stanzas of another one splits them again. -/
theorem stanzas_again (h : Errorless n bs) (hle : n ≤ m) :
    stanzas m (stanzas n bs).flatten = stanzas n bs ∧ Errorless m (stanzas n bs).flatten := by
  have hfresh : (Scanner.idle 0).Fresh := .nil
  have hall := hfresh.outputs (errorless_iff.mp h)
  rw [← outputs_new] at hall
  obtain ⟨hmarked, hok⟩ := replays_run fun x hx => ⟨(hall x hx).1, (hall x hx).2.trans hle⟩
  rw [map_marked_new] at hmarked hok
  refine ⟨?_, errorless_iff.mpr hok⟩
  rw [← map_marked_new m, outputs_new, hmarked, map_marked_new]

theorem stanzas_part (h : Errorless n bs) (hle : n ≤ m) {bs' : Bytes} (hp : bs' <+: (stanzas n bs).flatten) :
    stanzas m bs' <+: stanzas n bs := by
  have hprefix := stanzas_isPrefix (n := m) hp
  rwa [(stanzas_again h hle).1] at hprefix

end

def upToHeader (us : List Bytes) : List Bytes :=
  us.takeWhile (fun u => decide (declTag <+: u)) ++ (us.dropWhile fun u => decide (declTag <+: u)).take 1

def behindHeader (us : List Bytes) : List Bytes := (us.dropWhile fun u => decide (declTag <+: u)).drop 1

theorem upToHeader_append (us : List Bytes) : upToHeader us ++ behindHeader us = us := by
  unfold upToHeader behindHeader
  rw [List.append_assoc, List.take_append_drop, List.takeWhile_append_dropWhile]

theorem upToHeader_eq {decls : List Bytes} {header : Bytes} (hd : ∀ d ∈ decls, declTag <+: d)
    (hh : streamTag <+: header) (us : List Bytes) :
    upToHeader (decls ++ header :: us) = decls ++ [header] ∧ behindHeader (decls ++ header :: us) = us := by
  have hdecls : ∀ d ∈ decls, decide (declTag <+: d) = true := fun d h => decide_eq_true (hd d h)
  have hheader : decide (declTag <+: header) = false := decide_eq_false (stream_not_decl hh)
  unfold upToHeader behindHeader
  rw [List.takeWhile_append_of_pos hdecls, List.dropWhile_append_of_pos hdecls, List.takeWhile_cons,
    List.dropWhile_cons, hheader]
  exact ⟨congrArg (· ++ [header]) (List.append_nil _), rfl⟩

theorem rawBytes_raw (us : List Bytes) : rawBytes (us.map .raw) = us.flatten := by
  unfold rawBytes
  rw [List.flatMap_map, List.flatMap_id']

theorem Handed.rawBytes {trace isC2s : Bool} {us : List (Bytes × Nat)} {st : Status} {sent : List Sent}
    (h : Handed .asyncWrite trace isC2s [] us st sent) :
    rawBytes sent <+: (us.map Prod.fst).flatten ∧
      (st ≠ .failed .io → XmppProxy.rawBytes sent = (us.map Prod.fst).flatten) := by
  cases h with
  | all =>
    rw [List.nil_append, written_raw, rawBytes_raw]
    exact ⟨List.prefix_rfl, fun _ => rfl⟩
  | @cut us' u d taken hus hd =>
    obtain rfl : Sent.raw u.1 = d := (List.cons.inj hd).1
    refine ⟨?_, fun hst => absurd rfl hst⟩
    rw [hus, List.nil_append, written_raw, rawBytes_append, rawBytes_raw, List.map_append, List.flatten_append,
      List.map_singleton, List.flatten_singleton]
    refine List.prefix_append_right_inj _ |>.mpr ?_
    change XmppProxy.rawBytes [.raw (u.1.take taken)] <+: u.1
    rw [rawBytes_singleton]
    exact List.take_prefix _ _

/-- What a stanza stream `bs` has brought: declarations, a header, and the stanzas behind it. -/
structure Split (n : Nat) (bs : Bytes) (isC2s : Bool) (decls : List Bytes) (header : Bytes) (us : List Bytes) :
    Prop where
  stanzas : stanzas n bs = decls ++ header :: us
  declared : ∀ d ∈ decls, declTag <+: d
  opens : streamTag <+: header
  classified : isC2s = isC2sHeader header

theorem Split.upToHeader {n : Nat} {bs : Bytes} {isC2s : Bool} {decls us : List Bytes} {header : Bytes}
    (h : Split n bs isC2s decls header us) : upToHeader (XmppProxy.stanzas n bs) = decls ++ [header] ∧
      behindHeader (XmppProxy.stanzas n bs) = us := by
  rw [h.stanzas]
  exact upToHeader_eq h.declared h.opens us

section

variable {Uri ServerName : Type} [HttpUri Uri] [DecidableEq ServerName] {env : OutgoingListener ServerName}

/-- Between two byte streams, what the server was sent in the loop is made of the stanzas of the client. -/
theorem outgoing_split (hid : env.outgoing.given = id) (evs : List OutgoingEvent)
    {c : ShuffleConfig} {s : Shuffle} (hin : c.inRd = .asyncRead) (hout : c.outRd = .asyncRead)
    (hrun : (handleOutgoingConnection Uri env).final (.new env) evs = .shuffle c s) (hst : s.status ≠ .panicked) :
    let fromClient := bytesOf (pollsAt .asyncRead
      (((handleOutgoingConnection Uri env).trace (.new env) evs).flatMap OutgoingConnection.clientPolls))
    ∃ decls header us, Split env.maxStanzaSizeBytes fromClient c.isC2s decls header us ∧
      rawBytes s.server.sent <+: us.flatten ∧ (s.status ≠ .failed .io → rawBytes s.server.sent = us.flatten) := by
  intro fromClient
  have hc := carriedOut_run Uri hid evs
  rw [hrun] at hc
  obtain ⟨f₀, conn, serverResponse, first, decls, header, f, done, hl⟩ := hc
  obtain ⟨us, harrived, hserver, -⟩ := hl.fromClient (fun hws => nomatch hout.symm.trans hws) hst
  obtain ⟨-, hpongs⟩ := hl.fromServer hst
  obtain ⟨domain, srv, f', st, -, hconnect⟩ := hl.met.connected
  have hmatching := matching_srvConnect hconnect
  rw [← hl.outRd, ← hl.outWr] at hmatching
  have hdecls := hl.met.preceded.decls
  have hopens := hl.met.opens
  have hclassified := hl.met.classified
  clear hl hrun
  obtain ⟨inRd, inWr, outRd, outWr, isC2s, trace⟩ := c
  dsimp only at hin hout hmatching hserver hpongs harrived hclassified ⊢
  subst hin
  subst hout
  cases hmatching
  rw [not_pong_of_pongs hpongs] at hserver
  refine ⟨decls.map Prod.fst, header.1, us.map Prod.fst, ⟨?_, fun d hd => ?_, hopens, hclassified⟩, hserver.rawBytes⟩
  · rw [← map_marked_new, ← List.map_cons, ← List.map_append, ← harrived]
    rfl
  · obtain ⟨u, hu, rfl⟩ := List.mem_map.mp hd
    exact hdecls u hu

end

section

variable {Cert Verifier : Type} {incoming : Incoming Cert Verifier}

def Incoming.received (incoming : Incoming Cert Verifier) (f : StanzaFilter) (polls : List (Poll .asyncRead)) : Bytes :=
  bytesOf (((shuffleRdWrFilter incoming .asyncRead .asyncWrite).trace (.preamble (.reading f []) [])
    polls).flatMap (Connection.clientPolls incoming .asyncWrite))

theorem incoming_split {n : Nat} {f : StanzaFilter} (hf : Refines n f (.idle 0)) (polls : List (Poll .asyncRead))
    {isC2s : Bool} {s : Shuffle} (hrun : (shuffleRdWrFilter incoming .asyncRead .asyncWrite).final
      (.preamble (.reading f []) []) polls = .shuffle isC2s s) :
    ∃ decls header us, Split n (incoming.received f polls) isC2s decls header us ∧
      Relayed (incoming.proxySent ++ [.raw (decls ++ [header]).flatten]) us s.status s.server.sent := by
  obtain ⟨decls, header, us, hb⟩ := brought_run polls hrun
  have hsame : SameReading .asyncRead f (.new n) := ⟨_, _, hf, refines_new n⟩
  have hreads := hb.reads
  rw [(sameReading_next .asyncRead .asyncWrite).outputs_eq hsame, (read_bytes .asyncWrite _ _).1] at hreads
  have htarget := hb.target.relayed
  rw [unmark, List.map_append, List.map_singleton] at htarget
  refine ⟨decls.map Prod.fst, header.1, us.map Prod.fst, ⟨?_, fun d hd => ?_, hb.opens, hb.classified⟩, htarget⟩
  · rw [← map_marked_new, ← List.map_cons, ← List.map_append, ← hreads]
    rfl
  · obtain ⟨u, hu, rfl⟩ := List.mem_map.mp hd
    exact hb.declared u hu

end

theorem Split.of_isPrefix {n m : Nat} {bs bs' : Bytes} {isC2s isC2s' : Bool} {decls decls' us us' : List Bytes}
    {header header' : Bytes} (h : Split n bs isC2s decls header us) (h' : Split m bs' isC2s' decls' header' us')
    (hp : XmppProxy.stanzas m bs' <+: XmppProxy.stanzas n bs) :
    isC2s' = isC2s ∧ decls' ++ [header'] = decls ++ [header] ∧ us' <+: us := by
  obtain ⟨r, hr⟩ := hp
  have hup := h.upToHeader
  rw [← hr, h'.stanzas, List.append_assoc] at hup
  obtain ⟨hup', hbehind⟩ := upToHeader_eq h'.declared h'.opens (us' ++ r)
  have hheaders : decls' ++ [header'] = decls ++ [header] := hup'.symm.trans hup.1
  refine ⟨?_, hheaders, r, hbehind.symm.trans hup.2⟩
  rw [h.classified, h'.classified, (List.append_inj' hheaders rfl).2 |> List.cons.inj |>.1]

/-- A client talks over a byte stream to one proxy, which has reached another one over a byte stream, that has
room for as much. The second proxy takes the direction that the first one took, and its target hears the PROXY
line, the declarations and the header, and then the stanzas that the client has sent; all of them when all that
the first one has written is there. -/
theorem proxies_in_series (Uri : Type) {ServerName Cert Verifier : Type} [HttpUri Uri] [DecidableEq ServerName]
    (env : OutgoingListener ServerName) (hid : env.outgoing.given = id) (evs : List OutgoingEvent)
    {c : ShuffleConfig} {s : Shuffle} (hin : c.inRd = .asyncRead) (hout : c.outRd = .asyncRead)
    (hrun : (handleOutgoingConnection Uri env).final (.new env) evs = .shuffle c s) (hst : s.status ≠ .panicked)
    (incoming : Incoming Cert Verifier) {n : Nat} (hle : env.maxStanzaSizeBytes ≤ n) {f : StanzaFilter}
    (hf : Refines n f (.idle 0)) (polls : List (Poll .asyncRead)) {isC2s : Bool} {t : Shuffle}
    (hrun' : (shuffleRdWrFilter incoming .asyncRead .asyncWrite).final (.preamble (.reading f []) []) polls =
      .shuffle isC2s t) :
    let sent := bytesOf (pollsAt .asyncRead
      (((handleOutgoingConnection Uri env).trace (.new env) evs).flatMap OutgoingConnection.clientPolls))
    let us := stanzas env.maxStanzaSizeBytes sent
    let written := (upToHeader us).flatten ++ rawBytes s.server.sent
    Errorless env.maxStanzaSizeBytes sent → incoming.received f polls <+: written →
    isC2s = c.isC2s ∧ ∃ us', us' <+: behindHeader us ∧
      Relayed (incoming.proxySent ++ [.raw (upToHeader us).flatten]) us' t.status t.server.sent ∧
      (incoming.received f polls = written → s.status ≠ .failed .io → us' = behindHeader us) := by
  intro sent us written hok hreceived
  obtain ⟨decls, header, rest, hs, hprefix, hwhole⟩ := outgoing_split hid evs hin hout hrun hst
  obtain ⟨decls', header', rest', hs', hrelayed⟩ := incoming_split hf polls hrun'
  obtain ⟨hup, hbehind⟩ := hs.upToHeader
  change upToHeader us = _ at hup
  change behindHeader us = _ at hbehind
  have hflat : (upToHeader us).flatten ++ rest.flatten = us.flatten := by
    rw [← hbehind, ← List.flatten_append, upToHeader_append]
  have hwritten : written <+: us.flatten := by
    rw [← hflat]
    exact (List.prefix_append_right_inj _).mpr hprefix
  have hsplit : stanzas n (incoming.received f polls) <+: us := stanzas_part hok hle (hreceived.trans hwritten)
  obtain ⟨hdirection, hheaders, hrest⟩ := hs.of_isPrefix hs' hsplit
  refine ⟨hdirection, rest', by rwa [hbehind], ?_, fun hall hio => ?_⟩
  · rwa [hup, ← hheaders]
  · have heq : incoming.received f polls = us.flatten := by
      rw [hall, ← hflat, ← hwhole hio]
    have hsame : decls' ++ header' :: rest' = us := by
      rw [← hs'.stanzas, heq]
      exact (stanzas_again hok hle).1
    rw [← hsame, (upToHeader_eq hs'.declared hs'.opens rest').2]

def quicListener : OutgoingListener Bytes where
  outgoing := exampleOutgoing .done
  sort := insertionSortBy
  maxStanzaSizeBytes := 100

def seriesPolls : List (Poll .asyncRead) :=
  (bytes "<stream:stream to='a.org' xmlns='jabber:client'><a").map fun b => .client (.byte b) .done

set_option maxRecDepth 16000 in
theorem proxies_in_series_part :
    ∃ c s t, (handleOutgoingConnection Empty quicListener).final (.new quicListener) (beforeLast ++ [clientByte gt]) =
        .shuffle c s ∧
      (shuffleRdWrFilter wideTarget .asyncRead .asyncWrite).final (.preamble (.reading (.new 100) []) [])
        seriesPolls = .shuffle true t ∧
      let sent := bytesOf (pollsAt .asyncRead (((handleOutgoingConnection Empty quicListener).trace
        (.new quicListener) (beforeLast ++ [clientByte gt])).flatMap OutgoingConnection.clientPolls))
      let us := stanzas 100 sent
      let written := (upToHeader us).flatten ++ rawBytes s.server.sent
      true = c.isC2s ∧ ∃ us', us' <+: behindHeader us ∧
        Relayed (wideTarget.proxySent ++ [.raw (upToHeader us).flatten]) us' t.status t.server.sent ∧
        (wideTarget.received (.new 100) seriesPolls = written → s.status ≠ .failed .io → us' = behindHeader us) := by
  refine ⟨_, _, _, rfl, rfl, ?_⟩
  exact proxies_in_series Empty quicListener rfl _ rfl rfl rfl (by decide +kernel) wideTarget
    (n := 100) (by decide) (refines_new 100) seriesPolls rfl (by unfold Errorless; decide +kernel)
    (by decide +kernel)

end XmppProxy
