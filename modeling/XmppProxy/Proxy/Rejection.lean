import XmppProxy.Proxy.Loop
import XmppProxy.Stanza.Reading

/-! What follows a rejected stanza. A `next` that returns an error only disables its branch until the
other peer gets a stanza through: the reader may then be polled again, in the middle of what it
rejected. -/

namespace XmppProxy

open Lib Stanza

def polledText : (rd : StanzaRead) → rd.Poll → Option Bytes
  | .webSocketRead, .message (.text stanza) => some (fromWs stanza)
  | _, _ => none

structure ReadsOn (read : Bytes) (polled : StanzaRead.Polled) : Prop where
  sent : polled.sent = []
  noPanic : polled.result ≠ some .panic
  reading : (∀ err, polled.result = some (.err err) → ¬ FilterError err) → Reading read polled.filter
  stanza : ∀ {buf e}, polled.result = some (.ok (some (buf, e))) → buf <:+ read ∧ Placed buf e

theorem ReadsOn.quiet {read : Bytes} {f : StanzaFilter} {r : Option (Outcome (Option (Bytes × Nat)))}
    (h : Reading read f) (hr : r = none ∨ r = some (.ok none) ∨ r = some (.err .io)) :
    ReadsOn read ⟨r, f, []⟩ where
  sent := rfl
  noPanic := by rcases hr with rfl | rfl | rfl <;> simp
  reading := fun _ => h
  stanza := by
    intro buf e hb
    rcases hr with rfl | rfl | rfl
    · cases hb
    · cases hb
    · cases hb

theorem reading_poll {read : Bytes} {f : StanzaFilter} (h : Reading read f) (p : BytePoll) :
    ReadsOn (read ++ p.byte?.toList) (StanzaRead.pollBytes f p) := by
  have hsame : Reading (read ++ []) f := by rwa [List.append_nil]
  have hp := bytesPolled f p
  generalize StanzaRead.pollBytes f p = polled at hp
  cases hp with
  | past hle => exact absurd h.lt (Nat.not_lt.mpr hle)
  | pending _ => exact .quiet hsame (.inl rfl)
  | eof _ => exact .quiet hsame (.inr (.inl rfl))
  | failed _ => exact .quiet hsame (.inr (.inr rfl))
  | @more b f' _ hn =>
    have hnext := h.next b
    rw [hn] at hnext
    exact .quiet hnext (.inl rfl)
  | @stanza b buf e f' _ hn =>
    have hnext := h.next b
    rw [hn] at hnext
    refine ⟨rfl, by simp, fun _ => hnext.1, fun {buf' e'} hb => ?_⟩
    obtain ⟨rfl, rfl⟩ := Prod.mk.inj (Option.some.inj (Outcome.ok.inj (Option.some.inj hb)))
    exact hnext.2
  | @reject b err f' _ hn =>
    have hnext := h.next b
    rw [hn] at hnext
    refine ⟨rfl, by simp, fun herr => absurd hnext (herr err rfl), fun {buf e} hb => ?_⟩
    cases hb
  | @panic b f' _ hn =>
    have hnext := h.next b
    rw [hn] at hnext
    exact hnext.elim

theorem pollBytes_none {f : StanzaFilter} {p : BytePoll} (hlt : f.cnt < f.bufSize) (hp : p.byte? = none) :
    ∃ r, StanzaRead.pollBytes f p = ⟨r, f, []⟩ ∧
      (r = none ∨ r = some (.ok none) ∨ r = some (.err .io)) := by
  unfold StanzaRead.pollBytes
  rw [if_pos hlt]
  cases p with
  | pending => exact ⟨_, rfl, .inl rfl⟩
  | byte b => cases hp
  | eof => exact ⟨_, rfl, .inr (.inl rfl)⟩
  | failed => exact ⟨_, rfl, .inr (.inr rfl)⟩

theorem pollMessage_panic {wrt : StanzaWrite} {f : StanzaFilter} {res : WriteResult} {p : MessagePoll}
    (h : (StanzaRead.pollMessage wrt f res p).result = some .panic) :
    ∃ stanza, p = .message (.text stanza) ∧ f.bufSize < (fromWs stanza).length := by
  unfold StanzaRead.pollMessage at h
  split at h
  case h_2 stanza =>
    dsimp only at h
    split_ifs at h with hlen
    · cases h
    · exact ⟨stanza, rfl, Nat.lt_of_not_le hlen⟩
  case h_3 =>
    split at h
    · cases h
    · split at h <;> cases h
  all_goals cases h

theorem pollMessage_err {wrt : StanzaWrite} {f : StanzaFilter} {res : WriteResult} {p : MessagePoll}
    {err : Error} (h : (StanzaRead.pollMessage wrt f res p).result = some (.err err)) :
    ¬ FilterError err := by
  unfold StanzaRead.pollMessage at h
  split at h
  case h_2 =>
    dsimp only at h
    split_ifs at h <;> cases h
  case h_3 =>
    split at h
    · cases h
      exact id
    · split at h
      · cases h
      · cases h
        exact id
  all_goals
    cases h
    try exact id

theorem fromUtf8_ne_panic (buf : Bytes) : fromUtf8 buf ≠ .panic := by
  unfold fromUtf8
  split_ifs <;> simp

theorem addXmlns_ne_panic (buf : Bytes) (k : Nat) (isC2s : Bool) : addXmlns buf k isC2s ≠ .panic := by
  unfold addXmlns
  dsimp only
  split
  · exact fromUtf8_ne_panic _
  · exact Outcome.bind_ne_panic (fromUtf8_ne_panic _) fun _ => Outcome.bind_ne_panic (fromUtf8_ne_panic _) fun _ => by simp

theorem toWsNew_ne_panic {buf : Bytes} {e : Nat} (h : e ≤ buf.length) (isC2s : Bool) :
    toWsNew buf e isC2s ≠ .panic := by
  unfold toWsNew
  split_ifs with htag he hclose
  · exact Outcome.bind_ne_panic (fromUtf8_ne_panic _) fun _ => by simp
  · exact fromUtf8_ne_panic _
  · simp
  · rw [List.getElem?_eq_getElem (by omega)]
    exact addXmlns_ne_panic _ _ _

theorem writeAll_ne_panic {wr : StanzaWrite} {trace isC2s : Bool} {buf : Bytes} {e : Nat}
    (h : Placed buf e) : wr.writeAll trace isC2s buf e ≠ .panic := by
  unfold StanzaWrite.writeAll
  cases wr with
  | asyncWrite => simp
  | webSocketClientWrite =>
    have hconv : ∀ {w : Bytes}, e ≤ w.length →
        (do return some (.text (← toWsNew w e isC2s)) : Outcome (Option Sent)) ≠ .panic :=
      fun hw => Outcome.bind_ne_panic (toWsNew_ne_panic hw isC2s) fun _ => by simp
    dsimp only
    split_ifs with hd
    · obtain rfl := h.decl hd
      split
      · exact hconv (Nat.zero_le _)
      · exact Outcome.bind_ne_panic (fromUtf8_ne_panic _) fun _ => by simp
    · obtain rfl := h.decl hd
      split
      · exact hconv (Nat.zero_le _)
      · simp
    · exact hconv h.le

theorem send_ne_panic {wr : StanzaWrite} {trace isC2s : Bool} {buf : Bytes} {e : Nat}
    {res : WriteResult} (h : Placed buf e) : (wr.send trace isC2s buf e res).1 ≠ .panic := by
  have hw : wr.writeAll trace isC2s buf e ≠ .panic := writeAll_ne_panic h
  unfold StanzaWrite.send
  split
  next data _ =>
    unfold transmit
    split <;> simp
  next => simp
  next hp => exact absurd hp hw

section

variable {rd : StanzaRead} {wrt : StanzaWrite} {f : StanzaFilter} {p : rd.Poll} {res : WriteResult}

theorem reading_anyPoll {read : Bytes} (hrd : rd = .asyncRead) (h : Reading read f) :
    ReadsOn (read ++ (polledByte rd p).toList) (rd.poll wrt f p res) := by
  subst hrd
  exact reading_poll h p

theorem poll_none (hrd : rd = .asyncRead) (hlt : f.cnt < f.bufSize) (hp : polledByte rd p = none) :
    ∃ r, rd.poll wrt f p res = ⟨r, f, []⟩ ∧ (r = none ∨ r = some (.ok none) ∨ r = some (.err .io)) := by
  subst hrd
  exact pollBytes_none hlt hp

theorem poll_err {err : Error} (h : (rd.poll wrt f p res).result = some (.err err))
    (herr : FilterError err) : rd = .asyncRead := by
  cases rd with
  | asyncRead => rfl
  | webSocketRead => exact absurd herr (pollMessage_err h)

theorem poll_panic (hrd : rd ≠ .asyncRead) (h : (rd.poll wrt f p res).result = some .panic) :
    ∃ stanza ∈ polledText rd p, f.bufSize < stanza.length := by
  cases rd with
  | asyncRead => exact absurd rfl hrd
  | webSocketRead =>
    obtain ⟨stanza, rfl, hlen⟩ := pollMessage_panic h
    exact ⟨fromWs stanza, rfl, hlen⟩

theorem poll_placed (hrd : rd ≠ .asyncRead) {buf : Bytes} {e : Nat}
    (h : (rd.poll wrt f p res).result = some (.ok (some (buf, e)))) : Placed buf e := by
  cases rd with
  | asyncRead => exact absurd rfl hrd
  | webSocketRead =>
    obtain ⟨stanza, -, -, rfl⟩ := pollMessage_stanza h
    exact ⟨Nat.zero_le _, fun _ => rfl⟩

end

section

variable {c : ShuffleConfig}

def Rejects (s : Shuffle) (ev : Event c) : Prop :=
  ∃ err, (Shuffle.step c s ev).1 = .rejected err ∧ FilterError err

def TakesByte (s : Shuffle) (ev : Event c) : Prop :=
  ev.Polled s ∧ ((polledByte _ ev.poll).isSome ∨
    (ev.peer.side s).filter.bufSize ≤ (ev.peer.side s).filter.cnt)

def Oversized (s : Shuffle) (ev : Event c) : Prop :=
  ev.Polled s ∧ ∃ stanza ∈ polledText _ ev.poll, (ev.peer.side s).filter.bufSize < stanza.length

def Unsent (s : Shuffle) (ev : Event c) : Prop :=
  (ev.peer.other.side (Shuffle.step c s ev).2).sent = (ev.peer.other.side s).sent

/-- No reader that returned an error is fed any more, and every text fits. -/
structure Heeded (run : List (Shuffle × Event c)) : Prop where
  rejected : run.Pairwise fun x y => Rejects x.1 x.2 → y.2.peer = x.2.peer → ¬ TakesByte y.1 y.2
  fits : ∀ x ∈ run, ¬ Oversized x.1 x.2

/-- A rejection is final, nothing panics, and stanzas are cut from what their sender sent. -/
structure RejectionFinal (sent : Peer → Bytes) (run : List (Shuffle × Event c)) : Prop where
  silent : run.Pairwise fun x y => Rejects x.1 x.2 → y.2.peer = x.2.peer → Unsent y.1 y.2
  safe : ∀ x ∈ run, (Shuffle.step c x.1 x.2).2.status ≠ .panicked
  contiguous : ∀ xs x, xs ++ [x] <+: run → x.2.peer.rd c = .asyncRead →
    ∀ buf e, (Shuffle.step c x.1 x.2).1 = .forwarded buf e →
      buf <:+: sent x.2.peer ++ delivered x.2.peer (xs ++ [x])

/-- No reader but the `dead` ones has met an error so far. -/
structure Healthy (c : ShuffleConfig) (read : Peer → Bytes) (dead : Peer → Prop) (s : Shuffle) :
    Prop where
  safe : s.status ≠ .panicked
  bytes : ∀ peer, dead peer → peer.rd c = .asyncRead
  reading : ∀ peer, peer.rd c = .asyncRead → ¬ dead peer → Reading (read peer) (peer.side s).filter

variable {read : Peer → Bytes} {dead : Peer → Prop} {s : Shuffle}

theorem Healthy.dead_poll (h : Healthy c read dead s) {ev : Event c} (hdead : dead ev.peer)
    (hp : ev.Polled s) (htakes : ¬ TakesByte s ev) :
    ∃ r, (ev.peer.rd c).poll (ev.peer.wr c) (ev.peer.side s).filter ev.poll ev.res =
        ⟨r, (ev.peer.side s).filter, []⟩ ∧
      (r = none ∨ r = some (.ok none) ∨ r = some (.err .io)) := by
  have hnot : ¬ ((polledByte _ ev.poll).isSome ∨
      (ev.peer.side s).filter.bufSize ≤ (ev.peer.side s).filter.cnt) := fun h' => htakes ⟨hp, h'⟩
  obtain ⟨hnone, hlt⟩ := not_or.mp hnot
  exact poll_none (h.bytes _ hdead) (Nat.lt_of_not_le hlt) (Option.not_isSome_iff_eq_none.mp hnone)

theorem Healthy.poll (h : Healthy c read dead s) {ev : Event c} (hp : ev.Polled s)
    (htakes : dead ev.peer → ¬ TakesByte s ev) (hfits : ¬ Oversized s ev)
    {r : Option (Outcome (Option (Bytes × Nat)))}
    (hr : ((ev.peer.rd c).poll (ev.peer.wr c) (ev.peer.side s).filter ev.poll ev.res).result = r) :
    r ≠ some .panic ∧ ∀ buf e, r = some (.ok (some (buf, e))) → Placed buf e := by
  subst hr
  by_cases hrd : ev.peer.rd c = .asyncRead
  · by_cases hdead : dead ev.peer
    · obtain ⟨r, hr, hcases⟩ := h.dead_poll hdead hp (htakes hdead)
      rw [hr]
      rcases hcases with rfl | rfl | rfl
      · exact ⟨by simp, fun _ _ h => nomatch h⟩
      · exact ⟨by simp, fun _ _ h => nomatch h⟩
      · exact ⟨by simp, fun _ _ h => nomatch h⟩
    · have hreads : ReadsOn _ ((ev.peer.rd c).poll (ev.peer.wr c) (ev.peer.side s).filter ev.poll
          ev.res) := reading_anyPoll hrd (h.reading _ hrd hdead)
      exact ⟨hreads.noPanic, fun _ _ hb => (hreads.stanza hb).2⟩
  · exact ⟨fun h' => hfits ⟨hp, poll_panic hrd h'⟩, fun _ _ hb => poll_placed hrd hb⟩

theorem rejects_iff {ev : Event c} (hp : ev.Polled s) :
    Rejects s ev ↔ ∃ err, ((ev.peer.rd c).poll (ev.peer.wr c) (ev.peer.side s).filter ev.poll
      ev.res).result = some (.err err) ∧ FilterError err := by
  unfold Rejects
  rw [Shuffle.step_polled hp]
  exact exists_congr fun err => and_congr_left' (ev.branched s).rejects

theorem not_rejects {ev : Event c} (hp : ¬ ev.Polled s) : ¬ Rejects s ev := by
  rintro ⟨err, herr, -⟩
  rw [Shuffle.step_not_polled hp] at herr
  cases herr

theorem Healthy.status (h : Healthy c read dead s) {ev : Event c}
    (htakes : dead ev.peer → ¬ TakesByte s ev) (hfits : ¬ Oversized s ev) :
    (Shuffle.step c s ev).2.status ≠ .panicked := by
  by_cases hp : ev.Polled s
  swap
  · rw [Shuffle.step_not_polled hp]
    exact h.safe
  obtain ⟨hnopanic, hplaced⟩ := h.poll hp htakes hfits rfl
  have hb := ev.branched s
  rw [Shuffle.step_polled hp]
  dsimp only
  rw [Shuffle.status_of]
  generalize ev.branch s = x at hb
  cases hb with
  | panicked hr => exact absurd hr hnopanic
  | rejected _ hst => exact hst
  | crashed hr hs => exact absurd (congrArg Prod.fst hs) (send_ne_panic (hplaced _ _ hr))
  | _ => simp

theorem Healthy.filters (h : Healthy c read dead s) {ev : Event c} (hp : ev.Polled s) {peer : Peer}
    (hrd : peer.rd c = .asyncRead) (hdead : ¬ (dead peer ∨ Rejects s ev ∧ ev.peer = peer)) :
    Reading (read peer ++ delivered peer [(s, ev)]) (peer.side (Shuffle.step c s ev).2).filter := by
  obtain ⟨hlive, hrej⟩ := not_or.mp hdead
  obtain ⟨hfilter, hother⟩ := (ev.branched s).filters
  rw [Shuffle.step_polled hp]
  dsimp only
  rcases ev.peer.eq_or_other peer with rfl | rfl
  · have hreads : ReadsOn _ ((ev.peer.rd c).poll (ev.peer.wr c) (ev.peer.side s).filter ev.poll
        ev.res) := reading_anyPoll hrd (h.reading _ hrd hlive)
    rw [Shuffle.side_of, hfilter, delivered_polled hp]
    apply hreads.reading
    intro err herr hfe
    exact hrej ⟨(rejects_iff hp).mpr ⟨err, herr, hfe⟩, rfl⟩
  · rw [Shuffle.other_side_of, hother, delivered_other, List.append_nil]
    exact h.reading _ hrd hlive

theorem Healthy.step (h : Healthy c read dead s) {ev : Event c}
    (htakes : dead ev.peer → ¬ TakesByte s ev) (hfits : ¬ Oversized s ev) :
    Healthy c (fun peer => read peer ++ delivered peer [(s, ev)])
      (fun peer => dead peer ∨ Rejects s ev ∧ ev.peer = peer) (Shuffle.step c s ev).2 := by
  refine ⟨h.status htakes hfits, fun peer hd => ?_, fun peer hrd hd => ?_⟩
  · rcases hd with hd | ⟨hrej, rfl⟩
    · exact h.bytes peer hd
    · by_cases hp : ev.Polled s
      · obtain ⟨err, hr, hfe⟩ := (rejects_iff hp).mp hrej
        exact poll_err hr hfe
      · exact absurd hrej (not_rejects hp)
  · by_cases hp : ev.Polled s
    · exact h.filters hp hrd hd
    · rw [Shuffle.step_not_polled hp, delivered_not_polled hp, List.append_nil]
      exact h.reading peer hrd fun hd' => hd (.inl hd')

theorem Healthy.unsent (h : Healthy c read dead s) {ev : Event c} (hdead : dead ev.peer)
    (htakes : ¬ TakesByte s ev) : Unsent s ev := by
  unfold Unsent
  by_cases hp : ev.Polled s
  swap
  · rw [Shuffle.step_not_polled hp]
  obtain ⟨r, hr, hcases⟩ := h.dead_poll hdead hp htakes
  have hb := ev.branched s
  rw [Shuffle.step_polled hp]
  dsimp only
  rw [Shuffle.other_side_of]
  have hnone : ∀ buf e, r ≠ some (.ok (some (buf, e))) := by
    intro buf e hb'
    rcases hcases with rfl | rfl | rfl <;> cases hb'
  have hres := congrArg StanzaRead.Polled.result hr
  generalize ev.branch s = x at hb
  cases hb with
  | forwarded hr' _ => exact absurd (hres.symm.trans hr') (hnone _ _)
  | failed hr' _ => exact absurd (hres.symm.trans hr') (hnone _ _)
  | crashed hr' _ => exact absurd (hres.symm.trans hr') (hnone _ _)
  | _ => rfl

theorem Healthy.forwarded (h : Healthy c read dead s) {ev : Event c}
    (htakes : dead ev.peer → ¬ TakesByte s ev) (hrd : ev.peer.rd c = .asyncRead) {buf : Bytes}
    {e : Nat} (hf : (Shuffle.step c s ev).1 = .forwarded buf e) :
    buf <:+: read ev.peer ++ delivered ev.peer [(s, ev)] := by
  have hp : ev.Polled s := by
    by_contra hp
    rw [Shuffle.step_not_polled hp] at hf
    cases hf
  have hpoll := (Shuffle.step_forwarded hf).1
  by_cases hdead : dead ev.peer
  · obtain ⟨r, hr, hcases⟩ := h.dead_poll hdead hp (htakes hdead)
    rw [hr] at hpoll
    rcases hcases with rfl | rfl | rfl <;> cases hpoll
  · have hreads : ReadsOn _ ((ev.peer.rd c).poll (ev.peer.wr c) (ev.peer.side s).filter ev.poll
        ev.res) := reading_anyPoll hrd (h.reading _ hrd hdead)
    rw [delivered_polled hp]
    exact (hreads.stanza hpoll).1.isInfix

/-- Of a run from a healthy state: nothing more from the readers that are dead already, and whatever
is rejected in the run stays rejected. -/
theorem Healthy.run (h : Healthy c read dead s) (evs : List (Event c))
    (htakes : ∀ x ∈ (shuffleRdWrFilterOnly c).trace s evs, dead x.2.peer → ¬ TakesByte x.1 x.2)
    (hh : Heeded ((shuffleRdWrFilterOnly c).trace s evs)) :
    (∀ x ∈ (shuffleRdWrFilterOnly c).trace s evs, dead x.2.peer → Unsent x.1 x.2) ∧
      RejectionFinal read ((shuffleRdWrFilterOnly c).trace s evs) := by
  induction evs generalizing s read dead with
  | nil =>
    refine ⟨fun x hx => absurd hx List.not_mem_nil, .nil, fun x hx => absurd hx List.not_mem_nil, ?_⟩
    intro xs x hpre
    exact absurd (List.prefix_nil.mp hpre) (by simp)
  | cons ev evs ih =>
    have htrace : (shuffleRdWrFilterOnly c).trace s (ev :: evs) =
        (s, ev) :: (shuffleRdWrFilterOnly c).trace (Shuffle.step c s ev).2 evs := rfl
    rw [htrace] at htakes hh ⊢
    obtain ⟨hrej, hrest⟩ := List.pairwise_cons.mp hh.rejected
    have htakes₀ := htakes (s, ev) (List.mem_cons_self ..)
    have hfits₀ := hh.fits (s, ev) (List.mem_cons_self ..)
    -- the reader that is rejected here is one of the dead ones for the rest of the run
    have hnext := h.step htakes₀ hfits₀
    obtain ⟨hsilent, hfinal⟩ := ih hnext
      (fun x hx hd => by
        rcases hd with hd | ⟨hr, hpeer⟩
        · exact htakes x (List.mem_cons_of_mem _ hx) hd
        · exact hrej x hx hr hpeer.symm)
      ⟨hrest, fun x hx => hh.fits x (List.mem_cons_of_mem _ hx)⟩
    refine ⟨fun x hx hd => ?_, ?_, fun x hx => ?_, ?_⟩
    · rcases List.mem_cons.mp hx with rfl | hx
      · exact h.unsent hd (htakes₀ hd)
      · exact hsilent x hx (.inl hd)
    · exact List.pairwise_cons.mpr
        ⟨fun x hx hr hpeer => hsilent x hx (.inr ⟨hr, hpeer.symm⟩), hfinal.silent⟩
    · rcases List.mem_cons.mp hx with rfl | hx
      · exact h.status htakes₀ hfits₀
      · exact hfinal.safe x hx
    · intro xs x hpre hrd buf e hf
      cases xs with
      | nil =>
        obtain ⟨rfl, -⟩ := List.cons_prefix_cons.mp hpre
        exact h.forwarded htakes₀ hrd hf
      | cons y xs =>
        obtain ⟨rfl, hpre'⟩ := List.cons_prefix_cons.mp hpre
        have hc := hfinal.contiguous xs x hpre' hrd buf e hf
        rwa [List.append_assoc, ← delivered_cons] at hc

instance (s : Shuffle) (ev : Event c) : Decidable (Rejects s ev) :=
  match h : (Shuffle.step c s ev).1 with
  | .rejected err =>
    decidable_of_iff (FilterError err)
      ⟨fun he => ⟨err, h, he⟩, fun ⟨_, h', he⟩ => Report.rejected.inj (h.symm.trans h') ▸ he⟩
  | .quiet => .isFalse fun ⟨_, h', _⟩ => nomatch h.symm.trans h'
  | .forwarded _ _ => .isFalse fun ⟨_, h', _⟩ => nomatch h.symm.trans h'
  | .closed => .isFalse fun ⟨_, h', _⟩ => nomatch h.symm.trans h'
  | .panicked => .isFalse fun ⟨_, h', _⟩ => nomatch h.symm.trans h'

instance (s : Shuffle) (ev : Event c) : Decidable (TakesByte s ev) :=
  inferInstanceAs (Decidable (_ ∧ _))

instance (s : Shuffle) (ev : Event c) : Decidable (Unsent s ev) :=
  inferInstanceAs (Decidable (_ = _))

end

def pending (inFilter : StanzaFilter) : Peer → Bytes
  | .client => inFilter.buf.take inFilter.cnt
  | .server => []

/-- In a run of the loop in which no reader that returned an error is fed any more, a rejection is
final, nothing panics, and every stanza that is forwarded is cut from what its sender sent. -/
theorem rejection_final (c : ShuffleConfig) (inFilter : StanzaFilter) (n : Nat)
    (toClient toServer : List Sent) (evs : List (Event c)) (hn : 0 < n)
    (hin : c.inRd = .asyncRead → Reading (pending inFilter .client) inFilter)
    (hh : Heeded ((shuffleRdWrFilterOnly c).trace (.start inFilter n toClient toServer) evs)) :
    RejectionFinal (pending inFilter)
      ((shuffleRdWrFilterOnly c).trace (.start inFilter n toClient toServer) evs) := by
  have hstart : Healthy c (pending inFilter) (fun _ => False) (.start inFilter n toClient toServer) := by
    refine ⟨by simp [Shuffle.start], fun _ h => h.elim, fun peer hrd _ => ?_⟩
    cases peer with
    | client => exact hin hrd
    | server => exact reading_new hn []
  exact (hstart.run evs (fun _ _ h => h.elim) hh).2

def plainConfig : ShuffleConfig := ⟨.asyncRead, .asyncWrite, .asyncRead, .asyncWrite, true, false⟩

def fromClient (bs : Bytes) : List (Event plainConfig) := bs.map fun b => .client (.byte b) .done

def fromServer (bs : Bytes) : List (Event plainConfig) := bs.map fun b => .server (.byte b) .done

theorem rejection_final_client :
    RejectionFinal (pending (.new 16)) ((shuffleRdWrFilterOnly plainConfig).trace
      (.start (.new 16) 16 [] []) (fromClient (bytes "<!") ++ fromServer (bytes "<b/>"))) :=
  rejection_final plainConfig (.new 16) 16 [] [] _ (by decide)
    (fun _ => reading_new (by decide) _)
    ⟨by decide, by rintro ⟨s, _ | _⟩ - ⟨-, stanza, h, -⟩ <;> cases h⟩

/-- A stanza of the server gets the rejected client going again: `<!` was refused, and with `a/>` the
stanza `<a/>`, which the client never sent, goes out. -/
theorem rejection_not_final :
    ¬ ∀ evs : List (Event plainConfig), RejectionFinal (pending (.new 16))
      ((shuffleRdWrFilterOnly plainConfig).trace (.start (.new 16) 16 [] []) evs) := by
  intro h
  have hrun := h (fromClient (bytes "<!") ++ fromServer (bytes "<b/>") ++ fromClient (bytes "a/>"))
  exact absurd hrun.silent (by decide)

end XmppProxy
