import XmppProxy.Proxy.Loop
import XmppProxy.Proxy.Opening

/-! An incoming byte stream reaches the target as it is: whatever the order of polls, each side is sent
the stanzas of the other, in order, as one new filter splits them. -/

namespace XmppProxy

open Lib Stanza

/-- The stanzas that a new filter emits when it is fed `bs`. -/
def stanzas (n : Nat) (bs : Bytes) : List Bytes := emitted (filterNext.outputs (.new n) bs)

/-- A new filter meets no error in `bs`. -/
def Errorless (n : Nat) (bs : Bytes) : Prop := ∀ r ∈ filterNext.outputs (.new n) bs, r.isOk

theorem stanzas_append (n : Nat) (bs bs' : Bytes) : stanzas n (bs ++ bs') =
    stanzas n bs ++ emitted (filterNext.outputs (filterNext.final (.new n) bs) bs') := by
  unfold stanzas
  rw [Machine.outputs_append, emitted_append]

theorem stanzas_isPrefix {n : Nat} {bs bs' : Bytes} (h : bs <+: bs') : stanzas n bs <+: stanzas n bs' := by
  obtain ⟨r, rfl⟩ := h
  rw [stanzas_append]
  exact List.prefix_append _ _

theorem Errorless.of_isPrefix {n : Nat} {bs bs' : Bytes} (h : Errorless n bs') (hp : bs <+: bs') :
    Errorless n bs := by
  obtain ⟨r, rfl⟩ := hp
  intro o ho
  apply h
  rw [Machine.outputs_append]
  exact List.mem_append_left _ ho

theorem Errorless.pos {n : Nat} {bs : Bytes} (h : Errorless n bs) (hne : bs ≠ []) : 0 < n := by
  obtain ⟨b, bs, rfl⟩ := List.exists_cons_of_ne_nil hne
  rcases Nat.eq_zero_or_pos n with rfl | hpos
  · have hanswer := h _ (List.mem_cons_self ..)
    cases hanswer
  · exact hpos

theorem Errorless.room {n : Nat} {bs : Bytes} (h : Errorless n bs) (hn : 0 < n) {f : StanzaFilter}
    (hf : Alike f (filterNext.final (.new n) bs)) : f.cnt < f.bufSize := by
  have href := (filterNext_refines n).final (refines_new n) bs
  unfold Errorless at h
  rw [(filterNext_refines n).outputs_eq (refines_new n)] at h
  rw [hf.cnt, hf.size, href.cnt, href.size]
  exact room_final hn hn h

def returned (polled : StanzaRead.Polled) : List Bytes :=
  match polled.result with
  | some (.ok (some (buf, _))) => [buf]
  | _ => []

/-- A reader whose filter is like a new one that has read `bs`. -/
structure InStep (n : Nat) (bs : Bytes) (polled : StanzaRead.Polled) (before : Bytes) : Prop where
  sent : polled.sent = []
  filter : Alike polled.filter (filterNext.final (.new n) bs)
  stanzas : stanzas n bs = stanzas n before ++ returned polled

section

variable {n : Nat} {bs : Bytes} {f : StanzaFilter}

theorem inStep_byte (h : Alike f (filterNext.final (.new n) bs)) {b : UInt8}
    {r : Outcome (Option (Bytes × Nat))} {f' : StanzaFilter} (hn : f.nextEoft b = (r, f'))
    {r' : Option (Outcome (Option (Bytes × Nat)))}
    (hr' : returned ⟨r', f', []⟩ = emitted [do return (← r).map Prod.fst]) :
    InStep n (bs ++ [b]) ⟨r', f', []⟩ bs := by
  obtain ⟨hr, hf⟩ := h.nextEoft b
  rw [hn] at hr hf
  refine ⟨rfl, ?_, ?_⟩
  · rw [Machine.final_concat]
    exact hf
  · rw [stanzas_append, hr']
    exact congrArg (fun o => stanzas n bs ++ emitted [o]) hr.symm

theorem Errorless.answer {b : UInt8} (hok : Errorless n (bs ++ [b])) :
    ((filterNext.final (.new n) bs).next b).1.isOk := by
  apply hok
  rw [Machine.outputs_concat]
  exact List.mem_append_right _ (List.mem_singleton_self _)

theorem inStep_poll (h : Alike f (filterNext.final (.new n) bs)) (p : BytePoll)
    (hok : Errorless n (bs ++ p.byte?.toList)) :
    InStep n (bs ++ p.byte?.toList) (StanzaRead.pollBytes f p) bs := by
  have hquiet : ∀ r, returned ⟨r, f, []⟩ = [] → InStep n (bs ++ []) ⟨r, f, []⟩ bs := by
    intro r hr
    rw [List.append_nil]
    exact ⟨rfl, h, by rw [hr, List.append_nil]⟩
  have hp := bytesPolled f p
  generalize StanzaRead.pollBytes f p = polled at hp
  cases hp with
  | past hle =>
    cases p with
    | byte b =>
      have hpanic : (filterNext.final (.new n) bs).next b = (.panic, filterNext.final (.new n) bs) :=
        if_neg (by rw [← h.cnt, ← h.size]; exact Nat.not_lt.mpr hle)
      have hanswer := Errorless.answer hok
      rw [hpanic] at hanswer
      cases hanswer
    | pending => exact hquiet _ rfl
    | eof => exact hquiet _ rfl
    | failed => exact hquiet _ rfl
  | pending => exact hquiet _ rfl
  | eof => exact hquiet _ rfl
  | failed => exact hquiet _ rfl
  | more _ hn => exact inStep_byte h hn rfl
  | stanza _ hn => exact inStep_byte h hn rfl
  | @reject b err f' _ hn =>
    have hanswer := Errorless.answer hok
    rw [← (h.nextEoft b).1, hn] at hanswer
    cases hanswer
  | @panic b f' _ hn =>
    have hanswer := Errorless.answer hok
    rw [← (h.nextEoft b).1, hn] at hanswer
    cases hanswer

end

/-- Of the stanzas `us` behind `base`, all are written, or a write that failed has cut the last one. -/
inductive Relayed (base : List Sent) (us : List Bytes) : Status → List Sent → Prop where
  | all {st : Status} : Relayed base us st (base ++ us.map .raw)
  | cut {us' : List Bytes} {u : Bytes} {err : Error} (taken : Nat) : us = us' ++ [u] →
      Relayed base us (.failed err) (base ++ us'.map .raw ++ [.raw (u.take taken)])

theorem Relayed.running {base sent : List Sent} {us : List Bytes} (h : Relayed base us .running sent) :
    sent = base ++ us.map .raw := by
  cases h
  rfl

/-- What one side has sent and the other side was sent of it, behind the stanzas `opened`. -/
structure Carries (n : Nat) (opened : List Bytes) (base : List Sent) (bs : Bytes) (f : StanzaFilter)
    (st : Status) (sent : List Sent) : Prop where
  filter : Alike f (filterNext.final (.new n) bs)
  relayed : ∃ us, stanzas n bs = opened ++ us ∧ Relayed base us st sent

theorem send_raw {trace isC2s : Bool} {buf : Bytes} {e : Nat} {res : WriteResult} {o : Outcome Unit}
    {sent : List Sent} (h : StanzaWrite.asyncWrite.send trace isC2s buf e res = (o, sent)) :
    (o = .ok () ∨ o = .err .io) ∧ sent = [.raw buf] ∨
      o = .err .io ∧ ∃ taken, sent = [.raw (buf.take taken)] := by
  change transmit (some (.raw buf)) res = _ at h
  cases res with
  | done =>
    obtain ⟨rfl, rfl⟩ := Prod.mk.inj h
    exact .inl ⟨.inl rfl, rfl⟩
  | cut taken =>
    obtain ⟨rfl, rfl⟩ := Prod.mk.inj h
    exact .inr ⟨rfl, taken, rfl⟩
  | flushFailed =>
    obtain ⟨rfl, rfl⟩ := Prod.mk.inj h
    exact .inl ⟨.inr rfl, rfl⟩

section

variable {c : ShuffleConfig} {n : Nat}

structure Plain (c : ShuffleConfig) : Prop where
  rd : ∀ peer : Peer, peer.rd c = .asyncRead
  wr : ∀ peer : Peer, peer.wr c = .asyncWrite

/-- The loop has read `bs` from each side, and carried it over to the other. -/
def Transparent (n : Nat) (opened : Peer → List Bytes) (base : Peer → List Sent) (bs : Peer → Bytes)
    (s : Shuffle) : Prop :=
  ∀ peer, Carries n (opened peer) (base peer) (bs peer) (peer.side s).filter s.status
    (peer.other.side s).sent

variable {opened : Peer → List Bytes} {base : Peer → List Sent} {bs : Peer → Bytes} {s : Shuffle}

theorem anyPoll_inStep {rd : StanzaRead} (hrd : rd = .asyncRead) {bs : Bytes} {f : StanzaFilter}
    (h : Alike f (filterNext.final (.new n) bs)) {p : rd.Poll}
    (hok : Errorless n (bs ++ (polledByte rd p).toList)) {wrt : StanzaWrite} {res : WriteResult} :
    InStep n (bs ++ (polledByte rd p).toList) (rd.poll wrt f p res) bs := by
  subst hrd
  exact inStep_poll h p hok

/-- The branch that reads from a side: what it returns is added to what the other side is sent. -/
theorem branch_carries {opened : List Bytes} {base : List Sent} {bs bs' : Bytes} {rd : StanzaRead}
    {myWr otherWr : StanzaWrite} {trace isC2s : Bool} {me other : Side} {p : rd.Poll}
    {res : WriteResult} {x : Report × Side × Side × Status}
    (h : Carries n opened base bs me.filter .running other.sent)
    (hin : InStep n bs' (rd.poll myWr me.filter p res) bs) (hwr : otherWr = .asyncWrite)
    (hb : Branched rd myWr otherWr trace isC2s me other p res x) :
    Carries n opened base bs' x.2.1.filter x.2.2.2 x.2.2.1.sent ∧ x.2.1.sent = me.sent := by
  subst hwr
  obtain ⟨us, hus, hrel⟩ := h.relayed
  have hall := hrel.running
  have hfilter := hb.filters.1
  have hquiet : ∀ st, returned (rd.poll myWr me.filter p res) = [] →
      Carries n opened base bs' (rd.poll myWr me.filter p res).filter st other.sent := by
    intro st hr
    refine ⟨hin.filter, us, ?_, ?_⟩
    · rw [hin.stanzas, hr, List.append_nil, hus]
    · rw [hall]
      exact .all
  have hsent : me.sent ++ (rd.poll myWr me.filter p res).sent = me.sent := by
    rw [hin.sent, List.append_nil]
  have hnext : ∀ {buf e}, (rd.poll myWr me.filter p res).result = some (.ok (some (buf, e))) →
      stanzas n bs' = opened ++ (us ++ [buf]) := by
    intro buf e hr
    rw [hin.stanzas, hus, ← List.append_assoc]
    unfold returned
    rw [hr]
  have hwhole : ∀ (st : Status) (buf : Bytes), Relayed base (us ++ [buf]) st (other.sent ++ [.raw buf]) := by
    intro st buf
    rw [hall, List.append_assoc, ← List.map_singleton (f := Sent.raw), ← List.map_append]
    exact .all
  cases hb with
  | quiet hr => exact ⟨hquiet _ (by unfold returned; rw [hr]), hsent⟩
  | panicked hr => exact ⟨hquiet _ (by unfold returned; rw [hr]), hsent⟩
  | rejected hr _ => exact ⟨hquiet _ (by unfold returned; rw [hr]), hsent⟩
  | closed hr => exact ⟨hquiet _ (by unfold returned; rw [hr]), hsent⟩
  | @forwarded buf e sent hr hs =>
    refine ⟨⟨hin.filter, us ++ [buf], hnext hr, ?_⟩, hsent⟩
    rcases send_raw hs with ⟨-, rfl⟩ | ⟨ho, -⟩
    · exact hwhole _ buf
    · cases ho
  | @failed buf e sent err hr hs =>
    refine ⟨⟨hin.filter, us ++ [buf], hnext hr, ?_⟩, hsent⟩
    rcases send_raw hs with ⟨-, rfl⟩ | ⟨-, taken, rfl⟩
    · exact hwhole _ buf
    · dsimp only
      rw [hall]
      exact .cut taken rfl
  | @crashed buf e sent hr hs =>
    rcases send_raw hs with ⟨ho | ho, -⟩ | ⟨ho, -⟩
    · cases ho
    · cases ho
    · cases ho

theorem Transparent.step (h : Transparent n opened base bs s) (hc : Plain c) (ev : Event c)
    (hok : ∀ peer, Errorless n (bs peer ++ delivered peer [(s, ev)])) :
    Transparent n opened base (fun peer => bs peer ++ delivered peer [(s, ev)])
      (Shuffle.step c s ev).2 := by
  by_cases hp : ev.Polled s
  swap
  · intro peer
    rw [Shuffle.step_not_polled hp]
    dsimp only
    rw [delivered_not_polled hp, List.append_nil]
    exact h peer
  have hin : InStep n (bs ev.peer ++ (polledByte _ ev.poll).toList)
      ((ev.peer.rd c).poll (ev.peer.wr c) (ev.peer.side s).filter ev.poll ev.res) (bs ev.peer) := by
    apply anyPoll_inStep (hc.rd _) (h _).filter
    have hok' := hok ev.peer
    rwa [delivered_polled hp] at hok'
  have hme := h ev.peer
  rw [hp.1] at hme
  obtain ⟨hcarry, hsent⟩ := branch_carries hme hin (hc.wr _) (ev.branched s)
  intro peer
  rw [Shuffle.step_polled hp]
  dsimp only
  rw [Shuffle.status_of]
  rcases ev.peer.eq_or_other peer with rfl | rfl
  · rw [Shuffle.side_of, Shuffle.other_side_of, delivered_polled hp]
    exact hcarry
  · have hother := h ev.peer.other
    rw [hp.1] at hother
    obtain ⟨hf, us, hus, hrel⟩ := hother
    have hall := hrel.running
    rw [ev.peer.other_other] at hall
    rw [ev.peer.other_other, Shuffle.side_of, Shuffle.other_side_of, delivered_other, List.append_nil,
      (ev.branched s).filters.2, hsent, hall]
    exact ⟨hf, us, hus, .all⟩

end

/-- The poll finds its peer there: the stream neither ends nor fails. -/
def stillOpen : (rd : StanzaRead) → rd.Poll → Prop
  | .asyncRead, p => p ≠ BytePoll.eof ∧ p ≠ .failed
  | .webSocketRead, p => p ≠ MessagePoll.ended ∧ p ≠ .failed

/-- The loop reads from both sides. -/
def Shuffle.Going (s : Shuffle) : Prop := s.status = .running ∧ ∀ peer : Peer, (peer.side s).disabled = false

theorem pollBytes_open {n : Nat} {bs : Bytes} {f : StanzaFilter} {p : BytePoll}
    (h : Alike f (filterNext.final (.new n) bs)) (hn : 0 < n) (hok : Errorless n (bs ++ p.byte?.toList))
    (hp : stillOpen .asyncRead p) : (StanzaRead.pollBytes f p).result = none ∨
      ∃ u, (StanzaRead.pollBytes f p).result = some (.ok (some u)) := by
  have hroom := (hok.of_isPrefix (List.prefix_append _ _)).room hn h
  have hpolled := bytesPolled f p
  generalize StanzaRead.pollBytes f p = polled at hpolled
  cases hpolled with
  | past hle => exact absurd hle (Nat.not_le.mpr hroom)
  | pending => exact .inl rfl
  | eof => exact absurd rfl hp.1
  | failed => exact absurd rfl hp.2
  | more => exact .inl rfl
  | stanza => exact .inr ⟨_, rfl⟩
  | @reject b err f' _ hnext =>
    have hanswer := Errorless.answer hok
    rw [← (h.nextEoft b).1, hnext] at hanswer
    cases hanswer
  | @panic b f' _ hnext =>
    have hanswer := Errorless.answer hok
    rw [← (h.nextEoft b).1, hnext] at hanswer
    cases hanswer

theorem anyPoll_open {rd : StanzaRead} (hrd : rd = .asyncRead) {n : Nat} {bs : Bytes} {f : StanzaFilter}
    (h : Alike f (filterNext.final (.new n) bs)) (hn : 0 < n) {p : rd.Poll}
    (hok : Errorless n (bs ++ (polledByte rd p).toList)) (hp : stillOpen rd p) {wrt : StanzaWrite}
    {res : WriteResult} : (rd.poll wrt f p res).result = none ∨
      ∃ u, (rd.poll wrt f p res).result = some (.ok (some u)) := by
  subst hrd
  exact pollBytes_open h hn hok hp

theorem branch_going {rd : StanzaRead} {myWr otherWr : StanzaWrite} {trace isC2s : Bool} {me other : Side}
    {p : rd.Poll} {x : Report × Side × Side × Status} (hme : me.disabled = false) (hother : other.disabled = false)
    (hpoll : (rd.poll myWr me.filter p .done).result = none ∨
      ∃ u, (rd.poll myWr me.filter p .done).result = some (.ok (some u))) (hwr : otherWr = .asyncWrite)
    (hb : Branched rd myWr otherWr trace isC2s me other p .done x) :
    x.2.2.2 = .running ∧ x.2.1.disabled = false ∧ x.2.2.1.disabled = false := by
  subst hwr
  have hwritten : ∀ {buf e o sent}, StanzaWrite.asyncWrite.send trace isC2s buf e .done = (o, sent) → o = .ok () :=
    fun h => (Prod.mk.inj h).1.symm
  cases hb with
  | quiet => exact ⟨rfl, hme, hother⟩
  | forwarded => exact ⟨rfl, rfl, rfl⟩
  | panicked hr => rw [hr] at hpoll; rcases hpoll with h | ⟨u, h⟩ <;> cases h
  | rejected hr => rw [hr] at hpoll; rcases hpoll with h | ⟨u, h⟩ <;> cases h
  | closed hr => rw [hr] at hpoll; rcases hpoll with h | ⟨u, h⟩ <;> cases h
  | failed _ hs => cases hwritten hs
  | crashed _ hs => cases hwritten hs

section

variable {c : ShuffleConfig} {n : Nat} {opened : Peer → List Bytes} {base : Peer → List Sent} {bs : Peer → Bytes}
  {s : Shuffle}

theorem Shuffle.Going.polled (h : s.Going) (ev : Event c) : ev.Polled s := ⟨h.1, h.2 ev.peer⟩

theorem Shuffle.Going.step (hg : s.Going) (h : Transparent n opened base bs s) (hc : Plain c) (hn : 0 < n)
    {ev : Event c} (hok : Errorless n (bs ev.peer ++ delivered ev.peer [(s, ev)]))
    (hopen : stillOpen (ev.peer.rd c) ev.poll) (hres : ev.res = .done) : (Shuffle.step c s ev).2.Going := by
  rw [delivered_polled (hg.polled ev)] at hok
  have hbranch := ev.branched s
  rw [hres] at hbranch
  obtain ⟨hst, hme, hother⟩ := branch_going (hg.2 _) (hg.2 _)
    (anyPoll_open (hc.rd _) (h ev.peer).filter hn hok hopen) (hc.wr _) hbranch
  rw [Shuffle.step_polled (hg.polled ev)]
  refine ⟨(Shuffle.status_of ..).trans hst, fun peer => ?_⟩
  rcases ev.peer.eq_or_other peer with rfl | rfl
  · rw [Shuffle.side_of]
    exact hme
  · rw [Shuffle.other_side_of]
    exact hother

end

section

variable {Cert Verifier : Type} (env : Incoming Cert Verifier)

def Connection.reads {inRd : StanzaRead} (inWr : StanzaWrite) (peer : Peer) :
    Connection × Poll inRd → Bytes
  | (.preamble _ _, .client p _) => if peer = .client then (polledByte inRd p).toList else []
  | (.shuffle isC2s s, poll) =>
    delivered peer [(s, (poll.event : Event (env.shuffleConfig inRd inWr isC2s)))]
  | _ => []

/-- The bytes that one poll of a connection brings from `peer`; there is no target before the loop. -/
def Connection.offers {inRd : StanzaRead} (peer : Peer) : Connection × Poll inRd → Bytes
  | (_, .client p _) => if peer = .client then (polledByte inRd p).toList else []
  | (.preamble _ _, .server _ _) => []
  | (_, .server p _) => if peer = .server then (polledByte .asyncRead p).toList else []

/-- The peer is there, and what is written goes through. -/
def Poll.Unbroken {inRd : StanzaRead} : Poll inRd → Prop
  | .client p res => stillOpen inRd p ∧ res = .done
  | .server p res => stillOpen .asyncRead p ∧ res = .done

def openedBy (decls : List Bytes) (header : Bytes) : Peer → List Bytes
  | .client => decls ++ [header]
  | .server => []

def openedAs (decls : List Bytes) (header : Bytes) : Peer → List Sent
  | .client => env.proxySent ++ [.raw (decls ++ [header]).flatten]
  | .server => []

/-- A connection that has read `bs` from each side: declarations only, or declarations and a header and
whatever the loop has carried over since. -/
def Faithful (n : Nat) (bs : Peer → Bytes) : Connection → Prop
  | .preamble p toClient => ∃ f decls, p = .reading f decls.flatten ∧
      Alike f (filterNext.final (.new n) (bs .client)) ∧ stanzas n (bs .client) = decls ∧
      (∀ d ∈ decls, bytes "<?xml " <+: d) ∧ toClient = [] ∧ bs .server = []
  | .shuffle _ s => ∃ decls header, (∀ d ∈ decls, bytes "<?xml " <+: d) ∧
      bytes "<stream:stream " <+: header ∧
      Transparent n (openedBy decls header) (openedAs env decls header) bs s
  | .ended _ _ _ => True

variable {env} {n : Nat} {bs : Peer → Bytes}

theorem accept_faithful {f : StanzaFilter} {decls : List Bytes} {header : Bytes} {isC2s : Bool}
    (hn : env.config.maxStanzaSizeBytes = n) (hf : Alike f (filterNext.final (.new n) (bs .client)))
    (hcnt : f.cnt = 0) (hs : stanzas n (bs .client) = decls ++ [header])
    (hd : ∀ d ∈ decls, bytes "<?xml " <+: d) (hh : bytes "<stream:stream " <+: header)
    (hserver : bs .server = []) :
    Faithful env n bs (Connection.accept env f (decls ++ [header]).flatten isC2s []) := by
  unfold Connection.accept
  split
  · split
    next f' sent ho =>
      obtain ⟨rfl, hscratch⟩ := Incoming.openIncoming_ok ho
      refine ⟨decls, header, hd, hh, fun peer => ?_⟩
      rw [hn]
      cases peer with
      | client =>
        refine ⟨?_, [], by rw [hs, openedBy, List.append_nil], ?_⟩
        · rcases hscratch with rfl | ⟨w, hw, rfl⟩
          · exact hf
          · exact hf.scratch hcnt w hw
        · have hall : Relayed (openedAs env decls header .client) [] .running
              (openedAs env decls header .client ++ [].map Sent.raw) := .all
          rwa [List.map_nil, List.append_nil] at hall
      | server =>
        refine ⟨?_, [], ?_, .all⟩
        · rw [hserver]
          exact Alike.refl (Nat.zero_le _)
        · rw [hserver]
          rfl
    next => trivial
  · trivial
  · trivial

theorem pollBytes_cnt {f : StanzaFilter} {p : BytePoll} {buf : Bytes} {e : Nat}
    (h : (StanzaRead.pollBytes f p).result = some (.ok (some (buf, e)))) :
    (StanzaRead.pollBytes f p).filter.cnt = 0 := by
  have hp := bytesPolled f p
  generalize StanzaRead.pollBytes f p = polled at h hp
  cases hp with
  | stanza hlt hn => exact (stanza_ends hlt hn).2.2
  | _ => cases h

theorem preamble_faithful {f : StanzaFilter} {p : BytePoll} {res : WriteResult} {read : Bytes}
    {decls : List Bytes} (hn : env.config.maxStanzaSizeBytes = n) (hd : ∀ d ∈ decls, bytes "<?xml " <+: d)
    (hin : InStep n (bs .client) (StanzaRead.pollBytes f p) read)
    (hcnt : ∀ {buf e}, (StanzaRead.pollBytes f p).result = some (.ok (some (buf, e))) →
      (StanzaRead.pollBytes f p).filter.cnt = 0)
    (hs : stanzas n read = decls) (hserver : bs .server = []) :
    Faithful env n bs (Connection.step env .asyncRead .asyncWrite
      (.preamble (.reading f decls.flatten) []) (.client p res)).2 := by
  obtain ⟨hsent, hfilter, hstanzas⟩ := hin
  unfold Connection.step Preamble.step
  dsimp only [StanzaRead.poll]
  generalize StanzaRead.pollBytes f p = polled at hsent hfilter hstanzas hcnt
  obtain ⟨r, f', sent⟩ := polled
  dsimp only at hsent hfilter hcnt ⊢
  subst hsent
  rw [hs] at hstanzas
  obtain _ | (_ | ⟨buf, e⟩) | err | _ := r
  · exact ⟨f', decls, rfl, hfilter, by rw [hstanzas]; exact List.append_nil _, hd, rfl, hserver⟩
  · trivial
  · have hstanzas' : stanzas n (bs .client) = decls ++ [buf] := hstanzas
    have hflat : decls.flatten ++ buf = (decls ++ [buf]).flatten := by
      rw [List.flatten_append, List.flatten_singleton]
    dsimp only
    by_cases hdecl : bytes "<?xml " <+: buf
    · rw [if_pos hdecl, hflat]
      refine ⟨f', _, rfl, hfilter, hstanzas', fun d hd' => ?_, rfl, hserver⟩
      rcases List.mem_append.mp hd' with hd' | hd'
      · exact hd d hd'
      · exact List.mem_singleton.mp hd' ▸ hdecl
    rw [if_neg hdecl]
    by_cases hh : bytes "<stream:stream " <+: buf
    · rw [if_pos hh, hflat]
      exact accept_faithful hn hfilter (hcnt rfl) hstanzas' hd hh hserver
    · rw [if_neg hh]
      trivial
  · trivial
  · trivial

theorem plain_shuffle {isC2s : Bool} : Plain (env.shuffleConfig .asyncRead .asyncWrite isC2s) :=
  ⟨fun peer => by cases peer <;> rfl, fun peer => by cases peer <;> rfl⟩

theorem reads_shuffle {isC2s : Bool} {s : Shuffle} {poll : Poll .asyncRead} (peer : Peer) :
    Connection.reads env .asyncWrite peer (.shuffle isC2s s, poll) =
      delivered peer [(s, (poll.event : Event (env.shuffleConfig .asyncRead .asyncWrite isC2s)))] := by
  cases poll <;> rfl

theorem offers_shuffle {isC2s : Bool} {s : Shuffle} (h : s.Going) (poll : Poll .asyncRead) (peer : Peer) :
    delivered peer [(s, (poll.event : Event (env.shuffleConfig .asyncRead .asyncWrite isC2s)))] =
      Connection.offers peer (.shuffle isC2s s, poll) := by
  have hpolled := h.polled (poll.event : Event (env.shuffleConfig .asyncRead .asyncWrite isC2s))
  unfold delivered
  rw [List.flatMap_singleton]
  cases poll <;> exact if_congr (by rw [and_iff_left hpolled]; exact eq_comm) rfl rfl

theorem Faithful.step (hn : env.config.maxStanzaSizeBytes = n) {c : Connection} (h : Faithful env n bs c)
    (poll : Poll .asyncRead)
    (hok : ∀ peer, Errorless n (bs peer ++ Connection.reads env .asyncWrite peer (c, poll))) :
    Faithful env n (fun peer => bs peer ++ Connection.reads env .asyncWrite peer (c, poll))
      (c.step env .asyncRead .asyncWrite poll).2 := by
  cases c with
  | preamble p toClient =>
    obtain ⟨f, decls, rfl, hf, hs, hd, rfl, hserver⟩ := h
    cases poll with
    | server poll res =>
      refine ⟨f, decls, rfl, ?_, ?_, hd, rfl, ?_⟩ <;> simpa [Connection.reads]
    | client poll res =>
      exact preamble_faithful hn hd (inStep_poll hf poll (hok .client)) (fun hr => pollBytes_cnt hr) hs
        (hserver.symm ▸ rfl)
  | shuffle isC2s s =>
    obtain ⟨decls, header, hd, hh, ht⟩ := h
    simp only [reads_shuffle] at hok ⊢
    exact ⟨decls, header, hd, hh, ht.step plain_shuffle _ hok⟩
  | ended r toClient toServer => trivial

/-- As long as the peers are there, the loop goes on and takes every byte. -/
def Flowing (bs offered : Peer → Bytes) : Connection → Prop
  | .preamble _ _ => bs = offered
  | .shuffle _ s => bs = offered ∧ s.Going
  | .ended _ _ _ => True

theorem Faithful.pos {isC2s : Bool} {s : Shuffle}
    (h : Faithful env n bs (.shuffle isC2s s)) (hok : Errorless n (bs .client)) : 0 < n := by
  obtain ⟨decls, header, -, -, ht⟩ := h
  obtain ⟨-, us, hus, -⟩ := ht .client
  refine hok.pos fun hnil => ?_
  rw [hnil] at hus
  have hlen := congrArg List.length hus
  rw [openedBy, List.length_append, List.length_append] at hlen
  exact absurd hlen (Nat.ne_of_lt (Nat.lt_of_lt_of_le (Nat.succ_pos _) (Nat.le_add_right _ _)))

theorem accept_flowing {f : StanzaFilter} {streamOpen : Bytes} {isC2s : Bool} {toClient : List Sent} :
    Flowing bs bs (Connection.accept env f streamOpen isC2s toClient) := by
  unfold Connection.accept
  split
  · split
    · exact ⟨rfl, rfl, fun peer => by cases peer <;> rfl⟩
    · trivial
  · trivial
  · trivial

theorem preamble_flowing (p : Preamble) (toClient : List Sent) (poll : Poll .asyncRead) :
    Flowing bs bs (Connection.step env .asyncRead .asyncWrite (.preamble p toClient) poll).2 := by
  cases poll with
  | server poll res => exact rfl
  | client poll res =>
    unfold Connection.step
    dsimp only
    generalize p.step .asyncRead .asyncWrite poll res = x
    obtain ⟨sent, _ | _ | _ | _⟩ := x
    · exact rfl
    · exact accept_flowing
    · trivial
    · trivial

theorem Flowing.step {offered : Peer → Bytes} {c : Connection} (hf : Flowing bs offered c)
    (h : Faithful env n bs c) (poll : Poll .asyncRead)
    (hok : ∀ peer, Errorless n (bs peer ++ Connection.reads env .asyncWrite peer (c, poll)))
    (hopen : poll.Unbroken) :
    Flowing (fun peer => bs peer ++ Connection.reads env .asyncWrite peer (c, poll))
      (fun peer => offered peer ++ Connection.offers peer (c, poll))
      (c.step env .asyncRead .asyncWrite poll).2 := by
  cases c with
  | ended r toClient toServer => trivial
  | preamble p toClient =>
    obtain rfl : bs = offered := hf
    cases poll with
    | server poll res => exact preamble_flowing p toClient _
    | client poll res => exact preamble_flowing p toClient _
  | shuffle isC2s s =>
    obtain ⟨rfl, hgoing⟩ := hf
    have hpos := Faithful.pos h ((hok .client).of_isPrefix (List.prefix_append _ _))
    obtain ⟨decls, header, hd, hh, ht⟩ := h
    simp only [reads_shuffle] at hok ⊢
    obtain ⟨hstill, hres⟩ : stillOpen _ (poll.event : Event (env.shuffleConfig .asyncRead .asyncWrite isC2s)).poll ∧
        (poll.event : Event (env.shuffleConfig .asyncRead .asyncWrite isC2s)).res = .done := by
      cases poll <;> exact hopen
    exact ⟨funext fun peer => congrArg (bs peer ++ ·) (offers_shuffle hgoing poll peer),
      hgoing.step ht plain_shuffle hpos (hok _) hstill hres⟩

def Connection.new (f : StanzaFilter) : Connection := .preamble (.reading f []) []

variable (env) in
/-- The bytes that a run reads from `peer`. -/
def readFrom (f : StanzaFilter) (peer : Peer) (polls : List (Poll .asyncRead)) : Bytes :=
  ((shuffleRdWrFilter env .asyncRead .asyncWrite).trace (.new f) polls).flatMap
    (Connection.reads env .asyncWrite peer)

variable (env) in
/-- The bytes that the polls of a run bring from `peer`. -/
def offeredFrom (f : StanzaFilter) (peer : Peer) (polls : List (Poll .asyncRead)) : Bytes :=
  ((shuffleRdWrFilter env .asyncRead .asyncWrite).trace (.new f) polls).flatMap (Connection.offers peer)

section

variable {f : StanzaFilter} (peer : Peer) (polls : List (Poll .asyncRead)) (poll : Poll .asyncRead)

theorem readFrom_concat : readFrom env f peer (polls ++ [poll]) = readFrom env f peer polls ++
    Connection.reads env .asyncWrite peer
      ((shuffleRdWrFilter env .asyncRead .asyncWrite).final (.new f) polls, poll) := by
  unfold readFrom
  rw [Machine.trace_concat, List.flatMap_append, List.flatMap_singleton]

theorem offeredFrom_concat : offeredFrom env f peer (polls ++ [poll]) = offeredFrom env f peer polls ++
    Connection.offers peer ((shuffleRdWrFilter env .asyncRead .asyncWrite).final (.new f) polls, poll) := by
  unfold offeredFrom
  rw [Machine.trace_concat, List.flatMap_append, List.flatMap_singleton]

end

theorem readFrom_errorless {f : StanzaFilter} {polls : List (Poll .asyncRead)} {poll : Poll .asyncRead}
    (hok : ∀ peer, Errorless n (readFrom env f peer (polls ++ [poll]))) (peer : Peer) :
    Errorless n (readFrom env f peer polls) := by
  apply (hok peer).of_isPrefix
  rw [readFrom_concat]
  exact List.prefix_append _ _

theorem faithful_run (hn : env.config.maxStanzaSizeBytes = n) {f : StanzaFilter} (hf : Idle n f)
    (polls : List (Poll .asyncRead)) (hok : ∀ peer, Errorless n (readFrom env f peer polls)) :
    Faithful env n (fun peer => readFrom env f peer polls)
      ((shuffleRdWrFilter env .asyncRead .asyncWrite).final (.new f) polls) := by
  induction polls using List.reverseRecOn with
  | nil => exact ⟨f, [], rfl, hf.alike (idle_new n), rfl, fun d hd => absurd hd List.not_mem_nil, rfl, rfl⟩
  | append_singleton polls poll ih =>
    have hbefore := ih (readFrom_errorless hok)
    simp only [readFrom_concat] at hok ⊢
    rw [Machine.final_concat]
    exact hbefore.step hn poll hok

theorem flowing_run (hn : env.config.maxStanzaSizeBytes = n) {f : StanzaFilter} (hf : Idle n f)
    (polls : List (Poll .asyncRead)) (hok : ∀ peer, Errorless n (readFrom env f peer polls))
    (hopen : ∀ poll ∈ polls, poll.Unbroken) :
    Flowing (fun peer => readFrom env f peer polls) (fun peer => offeredFrom env f peer polls)
      ((shuffleRdWrFilter env .asyncRead .asyncWrite).final (.new f) polls) := by
  induction polls using List.reverseRecOn with
  | nil => exact rfl
  | append_singleton polls poll ih =>
    have hbefore := readFrom_errorless hok
    have hfaithful := faithful_run hn hf polls hbefore
    have hflowing := ih hbefore fun p hp => hopen p (List.mem_append_left _ hp)
    simp only [readFrom_concat, offeredFrom_concat] at hok ⊢
    rw [Machine.final_concat]
    exact hflowing.step hfaithful poll hok (hopen poll (List.mem_append_right _ (List.mem_singleton_self _)))

/-- Once `open_incoming` has succeeded, the target has been sent the PROXY line, if there is one, the
declarations and the header of the client, and every further stanza that was read, in order; the client
has been sent every stanza that was read from the target. Only a write that fails may cut the last one.
While both peers are there and writes go through, the loop runs and reads every byte that comes. -/
theorem incoming_transparent (env : Incoming Cert Verifier) (f : StanzaFilter)
    (hf : Idle env.config.maxStanzaSizeBytes f) (polls : List (Poll .asyncRead))
    (ofClient ofServer : Bytes) {isC2s : Bool} {s : Shuffle}
    (hclient : Errorless env.config.maxStanzaSizeBytes ofClient)
    (hserver : Errorless env.config.maxStanzaSizeBytes ofServer)
    (hreadClient : readFrom env f .client polls <+: ofClient)
    (hreadServer : readFrom env f .server polls <+: ofServer)
    (hrun : (shuffleRdWrFilter env .asyncRead .asyncWrite).final (.new f) polls = .shuffle isC2s s) :
    (∃ decls header rest us vs,
      stanzas env.config.maxStanzaSizeBytes ofClient = decls ++ header :: rest ∧
      (∀ d ∈ decls, bytes "<?xml " <+: d) ∧ bytes "<stream:stream " <+: header ∧
      us <+: rest ∧ vs <+: stanzas env.config.maxStanzaSizeBytes ofServer ∧
      stanzas env.config.maxStanzaSizeBytes (readFrom env f .client polls) = decls ++ header :: us ∧
      stanzas env.config.maxStanzaSizeBytes (readFrom env f .server polls) = vs ∧
      Relayed (env.proxySent ++ [.raw (decls ++ [header]).flatten]) us s.status s.server.sent ∧
      Relayed [] vs s.status s.client.sent) ∧
    ((∀ poll ∈ polls, poll.Unbroken) → s.status = .running ∧ s.client.disabled = false ∧
      s.server.disabled = false ∧ ∀ peer, readFrom env f peer polls = offeredFrom env f peer polls) := by
  have hok : ∀ peer, Errorless env.config.maxStanzaSizeBytes (readFrom env f peer polls) := by
    intro peer
    cases peer with
    | client => exact hclient.of_isPrefix hreadClient
    | server => exact hserver.of_isPrefix hreadServer
  refine ⟨?_, fun hopen => ?_⟩
  · have hfaithful := faithful_run rfl hf polls hok
    rw [hrun] at hfaithful
    obtain ⟨decls, header, hd, hh, ht⟩ := hfaithful
    obtain ⟨-, us, hus, hrelUs⟩ := ht .client
    obtain ⟨-, vs, hvs, hrelVs⟩ := ht .server
    have hus' : stanzas env.config.maxStanzaSizeBytes (readFrom env f .client polls) =
        decls ++ header :: us := by
      rw [hus, openedBy, List.append_assoc]
      rfl
    -- bytes that have not been read yet only add stanzas behind these
    obtain ⟨more, hmore⟩ := stanzas_isPrefix hreadClient
    refine ⟨decls, header, us ++ more, us, vs, ?_, hd, hh, List.prefix_append _ _, ?_, hus', hvs,
      hrelUs, hrelVs⟩
    · rw [← hmore, hus', List.append_assoc]
      rfl
    · have hpre := stanzas_isPrefix (n := env.config.maxStanzaSizeBytes) hreadServer
      rwa [hvs] at hpre
  · have hflowing := flowing_run rfl hf polls hok hopen
    rw [hrun] at hflowing
    obtain ⟨hall, hrunning, hsides⟩ := hflowing
    exact ⟨hrunning, hsides .client, hsides .server, congrFun hall⟩

end

def localTarget : Incoming Unit Unit where
  config := ⟨64, none, some (.socketAddr ⟨.ofV4 127 0 0 1, 5222⟩), true⟩
  localAddr := ⟨.ofV4 10 0 0 1, 5223⟩
  clientAddr := ⟨.ofV4 10 0 0 2, 4000⟩
  peerCertificates := none
  getXmppConnections := fun _ _ => .ok ()
  verifyCert := fun _ _ _ => .ok ()
  connect := fun _ => .ok ()
  proxyTaken := none
  openRes := .done
  trace := false

def headerOfClient : Bytes := bytes "<stream:stream xmlns='jabber:client'>"

/-- The client's first stanza comes in two parts, between which the target speaks. -/
def crossingPolls : List (Poll .asyncRead) :=
  ((headerOfClient ++ bytes "<a").map fun b => .client (.byte b) .done) ++
    ((bytes "<b/>").map fun b => .server (.byte b) .done) ++
    (bytes "/>").map fun b => .client (.byte b) .done

def usedFilter : StanzaFilter :=
  { StanzaFilter.new 64 with
    buf := bytes "<starttls/>" ++ List.replicate 53 0
    endOfFirstTag := 10
    length_buf := by decide }

theorem incoming_transparent_crossing :
    ∃ s, (shuffleRdWrFilter localTarget .asyncRead .asyncWrite).final (.new usedFilter) crossingPolls =
        .shuffle true s ∧
      (∃ decls header rest us vs,
        stanzas 64 (headerOfClient ++ bytes "<a/>") = decls ++ header :: rest ∧
        (∀ d ∈ decls, bytes "<?xml " <+: d) ∧ bytes "<stream:stream " <+: header ∧
        us <+: rest ∧ vs <+: stanzas 64 (bytes "<b/>") ∧
        stanzas 64 (readFrom localTarget usedFilter .client crossingPolls) = decls ++ header :: us ∧
        stanzas 64 (readFrom localTarget usedFilter .server crossingPolls) = vs ∧
        Relayed (localTarget.proxySent ++ [.raw (decls ++ [header]).flatten]) us s.status s.server.sent ∧
        Relayed [] vs s.status s.client.sent) ∧
      s.status = .running ∧ s.client.disabled = false ∧ s.server.disabled = false ∧
      ∀ peer, readFrom localTarget usedFilter peer crossingPolls =
        offeredFrom localTarget usedFilter peer crossingPolls := by
  obtain ⟨s, hrun⟩ : ∃ s, (shuffleRdWrFilter localTarget .asyncRead .asyncWrite).final (.new usedFilter)
      crossingPolls = .shuffle true s := ⟨_, rfl⟩
  have hopen : ∀ poll ∈ crossingPolls, poll.Unbroken := by
    intro poll hpoll
    simp only [crossingPolls, List.mem_append, List.mem_map] at hpoll
    obtain (⟨b, -, rfl⟩ | ⟨b, -, rfl⟩) | ⟨b, -, rfl⟩ := hpoll
    all_goals exact ⟨⟨nofun, nofun⟩, rfl⟩
  obtain ⟨hcarried, hgoing⟩ := incoming_transparent localTarget usedFilter ⟨rfl, rfl, rfl, rfl⟩ crossingPolls
    (headerOfClient ++ bytes "<a/>") (bytes "<b/>") (by unfold Errorless; decide) (by unfold Errorless; decide)
    (by decide) (by decide) hrun
  exact ⟨s, hrun, hcarried, hgoing hopen⟩

end XmppProxy
