import XmppProxy.Proxy.StartTls

/-! Two proxies come to the handshake with STARTTLS. The invariant says which units each of them has read and
answered; from it, neither of them ever waits for the other one, and over every interleaving the first byte of the
handshake is the first one that is left for it. -/

namespace XmppProxy

open Lib Stanza

theorem mem_stanzas {n : Nat} {bs u : Bytes} (h : u ∈ stanzas n bs) :
    ∃ e, .ok (some (u, e)) ∈ filterNextEoft.outputs (.new n) bs := by
  obtain ⟨r, hr, hu⟩ := List.mem_filterMap.mp h
  rw [← nextEoft_outputs] at hr
  obtain ⟨r', hr', rfl⟩ := List.mem_map.mp hr
  cases r' with
  | ok o =>
    cases o with
    | none => cases hu
    | some x =>
      obtain rfl : x.1 = u := Option.some.inj hu
      exact ⟨x.2, hr'⟩
  | err e => cases hu
  | panic => cases hu

theorem Split.preface {n : Nat} {bs : Bytes} {isC2s : Bool} {decls us : List Bytes} {header : Bytes}
    (h : Split n bs isC2s decls header us) : Preface decls header := by
  have hread : ∀ u ∈ decls ++ header :: us, (declTag <+: u → StanzaUnit u) ∧ (streamTag <+: u → HeaderTag u) := by
    intro u hu
    rw [← h.stanzas] at hu
    obtain ⟨e, he⟩ := mem_stanzas hu
    exact unit_or_headerTag he
  refine ⟨fun d hd => ⟨h.declared d hd, ?_⟩, ?_⟩
  · exact (hread d (List.mem_append_left _ hd)).1 (h.declared d hd)
  · exact (hread header (List.mem_append_right _ (List.mem_cons_self ..))).2 h.opens

/-- Where the server is in the units `us`: what it has read, and which of them it has answered. -/
inductive ServerAt (m : Nat) (us : List Bytes) : TlsConnection → Bytes → List Bytes → Prop where
  | sniffing {f : StanzaFilter} : Refines m f (.idle 0) → ServerAt m us (.sniffing f) [] []
  | reading {f : StanzaFilter} {sent : List Sent} {took : Bytes} {done : List Bytes} : Within m us f took done →
      ServerAt m us (.preTls f sent) took done
  | discarding {f : StanzaFilter} {sent : List Sent} : 1 ≤ f.bufSize →
      ServerAt m us (.discarding f sent) us.flatten us
  | accepting {f : StanzaFilter} {sent : List Sent} : ServerAt m us (.accepting f sent) us.flatten us

inductive ClientAt (n : Nat) (us : List Bytes) : PreTls → Bytes → List Bytes → Prop where
  | reading {f : StanzaFilter} {took : Bytes} {done : List Bytes} : Within n us f took done →
      ClientAt n us (.reading f) took done
  | proceeding {f : StanzaFilter} : ClientAt n us (.proceeding f) us.flatten us

theorem ServerAt.isPrefix {m : Nat} {us done : List Bytes} {c : TlsConnection} {took : Bytes}
    (h : ServerAt m us c took done) : done <+: us := by
  cases h with
  | sniffing _ => exact List.nil_prefix
  | reading h => exact h.isPrefix
  | discarding _ => exact List.prefix_rfl
  | accepting => exact List.prefix_rfl

theorem ClientAt.isPrefix {n : Nat} {us done : List Bytes} {c : PreTls} {took : Bytes}
    (h : ClientAt n us c took done) : done <+: us := by
  cases h with
  | reading h => exact h.isPrefix
  | proceeding => exact List.prefix_rfl

theorem ServerAt.whole {m : Nat} {us done front : List Bytes} {c : TlsConnection} {took : Bytes}
    (h : ServerAt m us c took done) (hs : ∀ f, c ≠ .sniffing f) (hf : front <+: us)
    (hlen : front.flatten.length ≤ took.length) : front <+: done := by
  cases h with
  | @sniffing f _ => exact absurd rfl (hs f)
  | reading h => exact h.whole hf hlen
  | discarding _ => exact hf
  | accepting => exact hf

theorem ServerAt.length_le {m : Nat} {us done : List Bytes} {c : TlsConnection} {took : Bytes}
    (h : ServerAt m us c took done) : took.length ≤ us.flatten.length := by
  cases h with
  | sniffing _ => exact Nat.zero_le _
  | reading h => exact h.length_lt.le
  | discarding _ => exact le_rfl
  | accepting => exact le_rfl

/-- Each has read a beginning of what the other has written, which is what it answers. -/
structure Negotiating (n m : Nat) (decls : List Bytes) (header hello : Bytes) (s : Negotiation) (took heard : Bytes)
    (done done' : List Bytes) : Prop where
  server : ServerAt m (asked decls header ++ [Outgoing.starttls]) s.server took done
  client : ClientAt n (offered decls header ++ [proceed]) s.client heard done'
  replied : rawBytes s.server.plain = done.flatMap serverReply
  written : s.written =
    (asked decls header).flatten ++ done'.flatMap clientReply ++ (if s.secured then hello else [])
  toServer : s.written = took ++ s.toServer ∧ s.taken = took.length
  toClient : rawBytes s.server.plain = heard ++ s.toClient ∧ s.heard = heard.length
  secured : s.secured = true → done' = offered decls header ++ [proceed]
  accepted : ∀ f sent, s.server = .accepting f sent → s.secured = true

/-- Both are at the handshake. What the client has written for it is all that is left for the server, which has
written nothing that the client has not read. -/
structure Agreed (hello : Bytes) (s : Negotiation) : Prop where
  client : ∃ f, s.client = .proceeding f
  server : ∃ f sent, s.server = .accepting f sent
  toServer : s.toServer = hello
  toClient : s.toClient = []

def TlsConnection.waits : TlsConnection → Nat
  | sniffing _ => 2
  | accepting _ _ => 0
  | _ => 1

def Negotiation.remaining (us us' : List Bytes) (s : Negotiation) : Nat :=
  (us.flatten.length - s.taken) + (us'.flatten.length - s.heard) + (if s.secured then 0 else 1) + s.server.waits

section

variable {Cert Verifier : Type} (env : Incoming Cert Verifier) {n m : Nat} {decls : List Bytes} {header hello : Bytes}
  {s : Negotiation} {took heard : Bytes} {done done' : List Bytes}

def Nearer (n m : Nat) (decls : List Bytes) (header hello : Bytes) (s s' : Negotiation) : Prop :=
  (∃ took heard done done', Negotiating n m decls header hello s' took heard done done') ∧
    s'.remaining (asked decls header ++ [Outgoing.starttls]) (offered decls header ++ [proceed]) <
      s.remaining (asked decls header ++ [Outgoing.starttls]) (offered decls header ++ [proceed])

theorem Negotiation.clientStep_nil (s : Negotiation) (h : s.toClient = []) : s.clientStep = s := by
  unfold Negotiation.clientStep
  rw [h]
  cases s.client <;> rfl

theorem Negotiation.serverStep_nil (s : Negotiation) (h : s.toServer = []) : s.serverStep env = s := by
  unfold Negotiation.serverStep
  rw [h]
  cases s.server <;> rfl

namespace Negotiating

variable (h : Negotiating n m decls header hello s took heard done done') (hp : Preface decls header)
include h hp

theorem written_isPrefix : s.written <+: (asked decls header ++ [Outgoing.starttls]).flatten ++ hello := by
  have hreplies : done'.flatMap clientReply <+: Outgoing.starttls := by
    rw [← hp.clientReply_all]
    obtain ⟨x, hx⟩ := h.client.isPrefix
    exact ⟨x.flatMap clientReply, by rw [← List.flatMap_append, hx]⟩
  have hsecured := h.secured
  rw [h.written, List.flatten_append, List.flatten_singleton]
  cases hs : s.secured with
  | false =>
    rw [if_neg (by decide), List.append_nil, List.append_assoc]
    exact (List.prefix_append_right_inj _).mpr (hreplies.trans (List.prefix_append _ _))
  | true =>
    rw [if_pos rfl, hsecured hs, hp.clientReply_all]

theorem replied_isPrefix : rawBytes s.server.plain <+: (offered decls header ++ [proceed]).flatten := by
  rw [h.replied, ← hp.serverReply_all]
  obtain ⟨x, hx⟩ := h.server.isPrefix
  exact ⟨x.flatMap serverReply, by rw [← List.flatMap_append, hx]⟩

theorem clientMoves (hs : s.secured = false) {b : UInt8} {rest w : Bytes} (hb : s.toClient = b :: rest) {c : PreTls}
    {done'' : List Bytes} (hc : ClientAt n (offered decls header ++ [proceed]) c (heard ++ [b]) done'')
    (hw : done''.flatMap clientReply = done'.flatMap clientReply ++ w) :
    Nearer n m decls header hello s { s with client := c, written := s.written ++ w, heard := s.heard + 1 } := by
  have hreplied := h.replied_isPrefix hp
  obtain ⟨hsent, hheard⟩ := h.toClient
  rw [hsent, hb] at hreplied
  have hlen := hreplied.length_le
  rw [List.length_append, List.length_cons] at hlen
  have hwritten := h.written
  rw [hs, if_neg (by decide), List.append_nil] at hwritten
  refine ⟨⟨took, heard ++ [b], done, done'', h.server, hc, h.replied, ?_, ?_, ?_, ?_, h.accepted⟩, ?_⟩
  · change s.written ++ w = _ ++ _ ++ if s.secured = true then hello else []
    rw [hs, if_neg (by decide), List.append_nil, hwritten, hw, List.append_assoc]
  · refine ⟨?_, h.toServer.2⟩
    change s.written ++ w = took ++ (s.written ++ w).drop s.taken
    rw [h.toServer.2, h.toServer.1, List.append_assoc, List.drop_left]
  · refine ⟨?_, by rw [List.length_append, hheard]; rfl⟩
    change rawBytes s.server.plain = heard ++ [b] ++ (rawBytes s.server.plain).drop (s.heard + 1)
    rw [hsent, hb, hheard, List.append_cons heard b rest]
    exact congrArg _ (List.drop_left' (by rw [List.length_append]; rfl)).symm
  · intro hsecured
    cases hs.symm.trans hsecured
  · unfold Negotiation.remaining
    dsimp only
    omega

theorem clientReads (hfit : Fit n (offered decls header ++ [proceed])) {f : StanzaFilter} (hc : s.client = .reading f)
    {b : UInt8} {rest : Bytes} (hb : s.toClient = b :: rest) : Nearer n m decls header hello s s.clientStep := by
  have hclient := h.client
  rw [hc] at hclient
  cases hclient with
  | reading hwithin =>
  have hunsecured : s.secured = false := by
    cases hs : s.secured with
    | false => rfl
    | true => exact absurd (h.secured hs) hwithin.ne
  have hnext : heard ++ [b] <+: (offered decls header ++ [proceed]).flatten := by
    refine List.IsPrefix.trans ⟨rest, ?_⟩ (h.replied_isPrefix hp)
    rw [h.toClient.1, hb, ← List.append_cons]
  unfold Negotiation.clientStep
  rw [hc, hb]
  dsimp only
  rcases hwithin.pollNext hfit hnext with ⟨f', hpoll, hwithin'⟩ | ⟨f', u, e, hpoll, hf', hu, hwhole, hmore⟩
  · rw [PreTls.step_quiet hpoll]
    exact h.clientMoves hp hunsecured hb (.reading hwithin') (List.append_nil _).symm
  · rw [PreTls.step_stanza hpoll]
    have hreply : (done' ++ [u]).flatMap clientReply = done'.flatMap clientReply ++ clientReply u := by
      rw [List.flatMap_append, List.flatMap_singleton]
    by_cases hlast : done' ++ [u] = offered decls header ++ [proceed]
    · obtain ⟨-, hu⟩ := List.append_inj' hlast rfl
      obtain rfl := (List.cons.inj hu).1
      rw [answer_proceed]
      refine h.clientMoves hp hunsecured hb ?_ hreply
      rw [hwhole, hlast]
      exact .proceeding
    · have hmem : u ∈ offered decls header := by
        have hprefix := (List.prefix_concat_iff.mp hu).resolve_left hlast
        exact hprefix.subset (List.mem_append_right _ (List.mem_singleton_self u))
      rw [hp.answer_offered hmem]
      exact h.clientMoves hp hunsecured hb (.reading (hmore hlast)) hreply

omit hp in
theorem serverMoves {v rest w : Bytes} (hv : s.toServer = v ++ rest) {c : TlsConnection} {done'' : List Bytes}
    (hc : ServerAt m (asked decls header ++ [Outgoing.starttls]) c (took ++ v) done'')
    (hplain : rawBytes c.plain = rawBytes s.server.plain ++ w)
    (hw : done''.flatMap serverReply = done.flatMap serverReply ++ w)
    (haccepting : ∀ f sent, c = .accepting f sent → s.secured = true)
    (hless : (asked decls header ++ [Outgoing.starttls]).flatten.length - (s.taken + v.length) + c.waits <
      (asked decls header ++ [Outgoing.starttls]).flatten.length - s.taken + s.server.waits) :
    Nearer n m decls header hello s { s with server := c, taken := s.taken + v.length } := by
  obtain ⟨hwritten, htaken⟩ := h.toServer
  obtain ⟨hsent, hheard⟩ := h.toClient
  refine ⟨⟨took ++ v, heard, done'', done', hc, h.client, ?_, h.written, ?_, ?_, h.secured, haccepting⟩, ?_⟩
  · change rawBytes c.plain = _
    rw [hplain, h.replied, hw]
  · refine ⟨?_, by rw [List.length_append, htaken]⟩
    change s.written = took ++ v ++ s.written.drop (s.taken + v.length)
    rw [hwritten, hv, htaken, ← List.length_append, ← List.append_assoc, List.drop_left]
  · refine ⟨?_, hheard⟩
    change rawBytes c.plain = heard ++ (rawBytes c.plain).drop s.heard
    rw [hplain, hsent, hheard, List.append_assoc, List.drop_left]
  · unfold Negotiation.remaining
    dsimp only
    omega

theorem hello_behind (htook : took = (asked decls header ++ [Outgoing.starttls]).flatten) {b : UInt8} {rest : Bytes}
    (hb : s.toServer = b :: rest) : s.secured = true ∧ hello.head? = some b := by
  have hwritten := h.toServer.1
  have hprefix := h.written_isPrefix hp
  rw [hwritten, hb, ← htook] at hprefix
  obtain ⟨x, hx⟩ := (List.prefix_append_right_inj _).mp hprefix
  refine ⟨?_, by rw [← hx]; rfl⟩
  cases hs : s.secured with
  | true => rfl
  | false =>
    exfalso
    have hreplies : (done'.flatMap clientReply).length ≤ Outgoing.starttls.length := by
      obtain ⟨y, hy⟩ := h.client.isPrefix
      rw [← hp.clientReply_all, ← hy, List.flatMap_append, List.length_append]
      exact Nat.le_add_right _ _
    have hlen := congrArg List.length (h.written.symm.trans hwritten)
    rw [hs, if_neg (by decide), List.append_nil, hb, htook] at hlen
    simp only [List.length_append, List.flatten_append, List.flatten_singleton, List.length_cons] at hlen
    omega

theorem serverSniffs (hfit : Fit m (asked decls header ++ [Outgoing.starttls])) {f : StanzaFilter}
    (hc : s.server = .sniffing f) : Nearer n m decls header hello s (s.serverStep env) := by
  have hserver := h.server
  have hwritten := h.toServer.1
  rw [hc] at hserver
  cases hserver with
  | sniffing hf =>
  obtain ⟨b₁, b₂, rest, hhead⟩ := hp.asked_head
  have hthree : ∃ rest, s.toServer = lt :: b₁ :: b₂ :: rest := by
    rw [List.nil_append, h.written, hhead] at hwritten
    exact ⟨_, hwritten.symm⟩
  obtain ⟨rest, hthree⟩ := hthree
  have hlen : [lt, b₁, b₂].length ≤ f.bufSize := by
    have hroom : header.length ≤ m := (hfit header (by unfold asked; simp)).2
    have hheader := hp.header.opens.length_le
    rw [hf.size]
    exact (show 3 ≤ 15 by decide).trans (hheader.trans hroom)
  have hstep : s.serverStep env = { s with server := .preTls (f.scratch [lt, b₁, b₂] hlen) [], taken := s.taken + 0 } := by
    unfold Negotiation.serverStep
    rw [hc, hthree]
    dsimp only
    rw [sniffing_text env hlen]
    rfl
  obtain ⟨u, us, hus⟩ := List.exists_cons_of_ne_nil (List.concat_ne_nil Outgoing.starttls (asked decls header))
  have hwithin : Within m (asked decls header ++ [Outgoing.starttls]) (f.scratch [lt, b₁, b₂] hlen) [] [] :=
    hfit.within hus (refines_scratch hf _ hlen)
  rw [hstep]
  refine h.serverMoves (v := []) rfl (.reading hwithin) ?_ (List.append_nil _).symm nofun ?_
  · rw [hc]
    rfl
  · rw [hc]
    exact Nat.lt_succ_self _

theorem serverReads (hfit : Fit m (asked decls header ++ [Outgoing.starttls])) {f : StanzaFilter} {sent : List Sent}
    (hc : s.server = .preTls f sent) {b : UInt8} {rest : Bytes} (hb : s.toServer = b :: rest) :
    Nearer n m decls header hello s (s.serverStep env) := by
  have hserver := h.server
  have hprefix := h.written_isPrefix hp
  obtain ⟨hwritten, htaken⟩ := h.toServer
  rw [hc] at hserver
  cases hserver with
  | reading hwithin =>
  have hlt := hwithin.length_lt
  have hnext : took ++ [b] <+: (asked decls header ++ [Outgoing.starttls]).flatten := by
    refine List.prefix_of_prefix_length_le (List.IsPrefix.trans ⟨rest, ?_⟩ hprefix) (List.prefix_append _ hello) ?_
    · rw [hwritten, hb, ← List.append_cons]
    · rw [List.length_append]
      exact hlt
  have hless : ∀ {c : TlsConnection}, c.waits = 1 →
      (asked decls header ++ [Outgoing.starttls]).flatten.length - (s.taken + [b].length) + c.waits <
        (asked decls header ++ [Outgoing.starttls]).flatten.length - s.taken + s.server.waits := by
    intro c hwaits
    rw [hwaits, hc, htaken]
    change _ < _ + 1
    rw [List.length_singleton]
    omega
  unfold Negotiation.serverStep
  rw [hc, hb]
  dsimp only [TlsConnection.step]
  rcases hwithin.pollNext hfit hnext with ⟨f', hpoll, hwithin'⟩ | ⟨f', u, e, hpoll, hf', hu, hwhole, hmore⟩
  · rw [preTlsStep_quiet hpoll]
    refine h.serverMoves (v := [b]) hb (.reading hwithin') ?_ (List.append_nil _).symm nofun (hless rfl)
    rw [hc]
    exact (List.append_nil _).symm
  · have hreply : (done ++ [u]).flatMap serverReply = done.flatMap serverReply ++ serverReply u := by
      rw [List.flatMap_append, List.flatMap_singleton]
    have hplain : rawBytes (sent ++ [.raw (serverReply u)]) = rawBytes s.server.plain ++ serverReply u := by
      rw [hc, rawBytes_append, rawBytes_singleton]
      rfl
    by_cases hlast : done ++ [u] = asked decls header ++ [Outgoing.starttls]
    · obtain ⟨-, hu⟩ := List.append_inj' hlast rfl
      obtain rfl := (List.cons.inj hu).1
      have hsize : 1 ≤ f'.bufSize := by
        rw [hf'.size]
        exact starttls_unit.pos.trans_le (hfit _ (List.mem_append_right _ (List.mem_singleton_self _))).2
      rw [preTlsStep_starttls hpoll]
      refine h.serverMoves (v := [b]) hb ?_ hplain hreply nofun (hless rfl)
      rw [hwhole, hlast]
      exact .discarding hsize
    · have hmem : u ∈ asked decls header := by
        have hbefore := (List.prefix_concat_iff.mp hu).resolve_left hlast
        exact hbefore.subset (List.mem_append_right _ (List.mem_singleton_self u))
      rw [preTlsStep_stanza hpoll (hp.asked_opens hmem)]
      exact h.serverMoves (v := [b]) hb (.reading (hmore hlast)) hplain hreply nofun (hless rfl)

theorem serverAccepts (hhello : hello.head? = some 0x16) {f : StanzaFilter} {sent : List Sent}
    (hc : s.server = .discarding f sent) {b : UInt8} {rest : Bytes} (hb : s.toServer = b :: rest) :
    Nearer n m decls header hello s (s.serverStep env) := by
  have hserver := h.server
  rw [hc] at hserver
  cases hserver with
  | discarding hsize =>
  obtain ⟨hsecured, hfirst⟩ := h.hello_behind hp rfl hb
  obtain rfl : b = 0x16 := Option.some.inj (hfirst.symm.trans hhello)
  have hstep : s.serverStep env = { s with server := .accepting (f.scratch [0x16] hsize) sent, taken := s.taken + 0 } := by
    unfold Negotiation.serverStep
    rw [hc, hb]
    dsimp only
    rw [discarding_hello env hsize]
    rfl
  rw [hstep]
  refine h.serverMoves (v := []) rfl ?_ ?_ (List.append_nil _).symm (fun _ _ _ => hsecured) ?_
  · rw [List.append_nil]
    exact .accepting
  · rw [hc]
    exact (List.append_nil _).symm
  · rw [hc]
    exact Nat.lt_succ_self _

omit hp in
theorem clientSecures {f : StanzaFilter} (hc : s.client = .proceeding f) (hs : s.secured = false) :
    Nearer n m decls header hello s (s.step env hello .clientHello) := by
  have hclient := h.client
  have hwritten := h.written
  have hstep : s.step env hello .clientHello = { s with written := s.written ++ hello, secured := true } := by
    unfold Negotiation.step
    rw [hc, hs]
    rfl
  rw [hstep]
  rw [hc] at hclient
  cases hclient with
  | proceeding =>
  rw [hs, if_neg (by decide), List.append_nil] at hwritten
  refine ⟨⟨took, _, done, _, h.server, ?_, h.replied, ?_, ?_, h.toClient, fun _ => rfl, fun _ _ _ => rfl⟩, ?_⟩
  · change ClientAt _ _ s.client _ _
    rw [hc]
    exact .proceeding
  · change s.written ++ hello = _ ++ _ ++ hello
    rw [hwritten]
  · refine ⟨?_, h.toServer.2⟩
    change s.written ++ hello = took ++ (s.written ++ hello).drop s.taken
    rw [h.toServer.2, h.toServer.1, List.append_assoc, List.drop_left]
  · unfold Negotiation.remaining
    rw [hs, if_pos rfl, if_neg (by decide)]
    dsimp only
    omega

theorem serverGoesOn (hfit : Fit m (asked decls header ++ [Outgoing.starttls])) (hhello : hello.head? = some 0x16)
    (hs : ∀ f sent, s.server ≠ .accepting f sent) (hmore : s.toServer ≠ []) :
    Nearer n m decls header hello s (s.serverStep env) := by
  obtain ⟨b, rest, hb⟩ := List.exists_cons_of_ne_nil hmore
  have hserver := h.server
  generalize hc : s.server = c at hserver
  cases hserver with
  | sniffing _ => exact h.serverSniffs env hp hfit hc
  | reading _ => exact h.serverReads env hp hfit hc hb
  | discarding _ => exact h.serverAccepts env hp hhello hc hb
  | accepting => exact absurd hc (hs _ _)

/-- Whoever goes on, nothing happens or there is less left. -/
theorem moves (hfit : Fit n (offered decls header ++ [proceed]))
    (hfit' : Fit m (asked decls header ++ [Outgoing.starttls])) (hhello : hello.head? = some 0x16)
    (ev : NegotiationEvent) :
    s.step env hello ev = s ∨ Nearer n m decls header hello s (s.step env hello ev) := by
  cases ev with
  | clientReads =>
    change s.clientStep = s ∨ Nearer n m decls header hello s s.clientStep
    cases hb : s.toClient with
    | nil => exact .inl (s.clientStep_nil hb)
    | cons b rest =>
      cases hc : s.client with
      | reading f => exact .inr (h.clientReads hp hfit hc hb)
      | _ =>
        refine .inl ?_
        unfold Negotiation.clientStep
        rw [hc]
  | serverReads =>
    change s.serverStep env = s ∨ Nearer n m decls header hello s (s.serverStep env)
    by_cases hb : s.toServer = []
    · exact .inl (s.serverStep_nil env hb)
    by_cases hs : ∃ f sent, s.server = .accepting f sent
    · obtain ⟨f, sent, hs⟩ := hs
      refine .inl ?_
      unfold Negotiation.serverStep
      rw [hs]
    · exact .inr (h.serverGoesOn env hp hfit' hhello (fun f sent hc => hs ⟨f, sent, hc⟩) hb)
  | clientHello =>
    cases hc : s.client with
    | proceeding f =>
      cases hs : s.secured with
      | true =>
        refine .inl ?_
        unfold Negotiation.step
        rw [hc, hs]
        rfl
      | false => exact .inr (h.clientSecures env hc hs)
    | _ =>
      refine .inl ?_
      unfold Negotiation.step
      rw [hc]

/-- Behind `<proceed ` there is nothing more for the client, and so nothing that its buffered reader could keep from
the handshake. -/
theorem toClient_nil {f : StanzaFilter} (hc : s.client = .proceeding f) : s.toClient = [] := by
  have hclient := h.client
  have hreplied := h.replied_isPrefix hp
  rw [h.toClient.1] at hreplied
  rw [hc] at hclient
  cases hclient with
  | proceeding =>
  have hlen := hreplied.length_le
  rw [List.length_append] at hlen
  exact List.length_eq_zero_iff.mp (by omega)

theorem agreed {f : StanzaFilter} {sent : List Sent} (hs : s.server = .accepting f sent) : Agreed hello s := by
  have hsecured := h.accepted f sent hs
  have hwhole := h.secured hsecured
  have hwritten := h.written
  have hserver := h.server
  have hclient := h.client
  have htook := h.toServer.1
  rw [hsecured, if_pos rfl, hwhole, hp.clientReply_all, ← List.flatten_singleton (l := Outgoing.starttls),
    ← List.flatten_append, htook] at hwritten
  rw [hs] at hserver
  cases hserver with
  | accepting =>
  have hproceeding : ∃ g, s.client = .proceeding g := by
    generalize s.client = c at hclient
    cases hclient with
    | reading hwithin => exact absurd hwhole hwithin.ne
    | @proceeding g => exact ⟨g, rfl⟩
  obtain ⟨g, hg⟩ := hproceeding
  exact ⟨⟨g, hg⟩, ⟨f, sent, hs⟩, List.append_cancel_left hwritten, h.toClient_nil hp hg⟩

theorem unsecured (hhello : hello ≠ []) (hs : s.toServer = []) : s.secured = false := by
  cases hsecured : s.secured with
  | false => rfl
  | true =>
    exfalso
    have hlen := congrArg List.length (h.toServer.1.symm.trans h.written)
    have hle := h.server.length_le
    have hpos := List.length_pos_iff.mpr hhello
    rw [hsecured, if_pos rfl, h.secured hsecured, hp.clientReply_all, hs] at hlen
    simp only [List.length_append, List.flatten_append, List.flatten_singleton, List.length_nil] at hlen hle
    omega

theorem not_waiting (hs : ∀ f, s.server ≠ .sniffing f) (hserver : s.toServer = []) {f : StanzaFilter}
    (hc : s.client = .reading f) : s.toClient ≠ [] := by
  intro hclient
  have hwithin := h.client
  have htook := h.toServer.1
  have hheard := h.toClient.1
  rw [hserver, List.append_nil] at htook
  rw [hclient, List.append_nil, h.replied] at hheard
  rw [hc] at hwithin
  cases hwithin with
  | reading hwithin =>
  have hlength := congrArg List.length (htook.symm.trans h.written)
  simp only [List.length_append] at hlength
  -- it has read the header, so that the client has read the features and has asked for TLS
  have hasked : asked decls header <+: done :=
    h.server.whole hs (List.prefix_append _ _) (by omega)
  have hoffered : offered decls header <+: done' := by
    refine hwithin.whole (List.prefix_append _ _) ?_
    obtain ⟨x, rfl⟩ := hasked
    rw [← hheard, ← hp.serverReply_asked, List.flatMap_append, List.length_append]
    exact Nat.le_add_right _ _
  have hstarttls : Outgoing.starttls.length ≤ (done'.flatMap clientReply).length := by
    obtain ⟨x, rfl⟩ := hoffered
    rw [← hp.clientReply_offered, List.flatMap_append, List.length_append]
    exact Nat.le_add_right _ _
  have hall : asked decls header ++ [Outgoing.starttls] <+: done := by
    refine h.server.whole hs List.prefix_rfl ?_
    rw [List.flatten_append, List.flatten_singleton, List.length_append]
    omega
  have hlt := hwithin.length_lt
  rw [← hheard, ← hp.serverReply_all] at hlt
  obtain ⟨x, rfl⟩ := hall
  rw [List.flatMap_append, List.length_append] at hlt
  omega

/-- Where nobody goes on, they have come to the handshake. -/
theorem stuck (hfit : Fit n (offered decls header ++ [proceed]))
    (hfit' : Fit m (asked decls header ++ [Outgoing.starttls])) (hhello : hello.head? = some 0x16)
    (hstuck : ∀ ev, s.step env hello ev = s) : Agreed hello s := by
  have hstill : ∀ ev, ¬ Nearer n m decls header hello s (s.step env hello ev) := by
    intro ev hnearer
    rw [hstuck ev] at hnearer
    exact lt_irrefl _ hnearer.2
  have hne : hello ≠ [] := by
    rintro rfl
    cases hhello
  by_cases hs : ∃ f sent, s.server = .accepting f sent
  · obtain ⟨f, sent, hs⟩ := hs
    exact h.agreed hp hs
  exfalso
  have hsniffing : ∀ f, s.server ≠ .sniffing f := fun f hc => hstill .serverReads (h.serverSniffs env hp hfit' hc)
  have hserver : s.toServer = [] := by
    by_contra hmore
    exact hstill .serverReads (h.serverGoesOn env hp hfit' hhello (fun f sent hc => hs ⟨f, sent, hc⟩) hmore)
  have hclient := h.client
  have hsecured := h.unsecured hp hne hserver
  generalize hc : s.client = c at hclient
  cases hclient with
  | reading _ =>
    obtain ⟨b, rest, hb⟩ := List.exists_cons_of_ne_nil (h.not_waiting hp hsniffing hserver hc)
    exact hstill .clientReads (h.clientReads hp hfit hc hb)
  | proceeding => exact hstill .clientHello (h.clientSecures env hc hsecured)

end Negotiating

end

def Negotiation.Alive (s : Negotiation) : Prop :=
  (∀ r sent, s.server ≠ .ended r sent) ∧ (∀ f e, s.client ≠ .failed f e) ∧ ∀ f, s.client ≠ .panicked f

theorem Negotiating.alive {n m : Nat} {decls : List Bytes} {header hello : Bytes} {s : Negotiation} {took heard : Bytes}
    {done done' : List Bytes} (h : Negotiating n m decls header hello s took heard done done') : s.Alive := by
  have hserver := h.server
  have hclient := h.client
  refine ⟨fun r sent hs => ?_, fun f e hc => ?_, fun f hc => ?_⟩
  · rw [hs] at hserver
    cases hserver
  · rw [hc] at hclient
    cases hclient
  · rw [hc] at hclient
    cases hclient

/-- The proxy that dials sends the declarations and the header that it has from its client, and each of the two has
room for every single thing that the other one says.
Whoever goes on, neither gives up; the one that dials has read all that was written in plain text when it begins the
handshake, and the other one begins at the first byte of it. In every schedule of enough rounds, in which each of the
two comes up, they come to that. -/
theorem starttls_agreed {Cert Verifier : Type} (env : Incoming Cert Verifier) {k : Nat} {fromClient : Bytes}
    {isC2s : Bool} {decls us : List Bytes} {header : Bytes} (hs : Split k fromClient isC2s decls header us) {n m : Nat}
    (hroom : ∀ u ∈ offered decls header ++ [proceed], u.length ≤ n)
    (hroom' : ∀ u ∈ asked decls header ++ [Outgoing.starttls], u.length ≤ m)
    {f f' : StanzaFilter} {e : Nat} (hf : Refines n f (.idle e)) (hf' : Refines m f' (.idle 0)) {hello : Bytes}
    (hhello : hello.head? = some 0x16) :
    let run := (negotiation env hello).final (.start f f' (asked decls header).flatten)
    (∀ evs, (run evs).Alive ∧ (∀ g, (run evs).client = .proceeding g → (run evs).toClient = []) ∧
      ∀ g sent, (run evs).server = .accepting g sent → Agreed hello (run evs)) ∧
    ∀ rounds : List (List NegotiationEvent), (∀ r ∈ rounds, ∀ ev, ev ∈ r) →
      (asked decls header ++ [Outgoing.starttls]).flatten.length +
        (offered decls header ++ [proceed]).flatten.length + 3 < rounds.length →
      Agreed hello (run rounds.flatten) := by
  intro run
  have hp := hs.preface
  have hfit := hp.fit_offered hroom
  have hfit' := hp.fit_asked hroom'
  let P : Negotiation → Prop := fun s => ∃ took heard done done', Negotiating n m decls header hello s took heard done done'
  have hstart : P (.start f f' (asked decls header).flatten) := by
    obtain ⟨u, us, hus⟩ := List.exists_cons_of_ne_nil (List.concat_ne_nil proceed (offered decls header))
    have hwithin : Within n (offered decls header ++ [proceed]) f [] [] := hfit.within hus hf
    refine ⟨[], [], [], [], .sniffing hf', .reading hwithin, rfl, ?_, ⟨rfl, rfl⟩, ⟨rfl, rfl⟩, nofun, nofun⟩
    exact (List.append_nil _).symm.trans (List.append_nil _).symm
  have hstep : ∀ s ev, P s → s.step env hello ev = s ∨ P (s.step env hello ev) ∧
      (s.step env hello ev).remaining (asked decls header ++ [Outgoing.starttls]) (offered decls header ++ [proceed]) <
        s.remaining (asked decls header ++ [Outgoing.starttls]) (offered decls header ++ [proceed]) := by
    rintro s ev ⟨_, _, _, _, h⟩
    exact h.moves env hp hfit hfit' hhello ev
  refine ⟨fun evs => ?_, fun rounds hall hlen => ?_⟩
  · have hrun : P (run evs) := by
      refine Machine.invariant (fun s ev hs => ?_) hstart evs
      rcases hstep s ev hs with hstay | hmove
      · change P (s.step env hello ev)
        rwa [hstay]
      · exact hmove.1
    obtain ⟨_, _, _, _, h⟩ := hrun
    exact ⟨h.alive, fun g hg => h.toClient_nil hp hg, fun g sent hg => h.agreed hp hg⟩
  · obtain ⟨⟨_, _, _, _, h⟩, hrest⟩ := Machine.comes_to_rest (m := negotiation env hello) hstep hstart hall hlen
    exact h.stuck env hp hfit hfit' hhello hrest

theorem starttls_agreed_header :
    Agreed [0x16, 0x03, 0x01] ((negotiation wideTarget [0x16, 0x03, 0x01]).final
      (.start (.new 200) (.new 100) (bytes "<?xml ?><stream:stream to='a.org' xmlns='jabber:client'>"))
      (List.replicate 500 [.clientReads, .clientHello, .serverReads]).flatten) := by
  have hs : Split 100 (bytes "<?xml ?><stream:stream to='a.org' xmlns='jabber:client'>") true [bytes "<?xml ?>"]
      (bytes "<stream:stream to='a.org' xmlns='jabber:client'>") [] :=
    ⟨by decide +kernel, by decide, by decide, by decide⟩
  refine (starttls_agreed wideTarget hs (by decide +kernel) (by decide) (refines_new 200) (refines_new 100)
    rfl).2 _ ?_ (by decide +kernel)
  intro r hr ev
  rw [List.eq_of_mem_replicate hr]
  cases ev <;> decide

end XmppProxy
