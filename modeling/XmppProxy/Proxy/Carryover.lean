import XmppProxy.Model.TlsIncoming
import XmppProxy.Proxy.Loop
import XmppProxy.Proxy.Opening

/-! Plain text in front of TLS leaves no trace: two connections whose clients said different things
before the handshake, and the same after it, are the same to the target. -/

namespace XmppProxy

open Lib Stanza

def Twin (f g : StanzaFilter) : Prop := ∃ n s, Refines n f s ∧ Refines n g s

theorem Twin.refl {f : StanzaFilter} (h : f.cnt ≤ f.bufSize) : Twin f f :=
  ⟨_, _, refines_scanner h, refines_scanner h⟩

theorem Twin.size {f g : StanzaFilter} (h : Twin f g) : f.bufSize = g.bufSize := by
  obtain ⟨n, s, hf, hg⟩ := h
  exact hf.size.trans hg.size.symm

theorem Twin.cnt {f g : StanzaFilter} (h : Twin f g) : f.cnt = g.cnt := by
  obtain ⟨n, s, hf, hg⟩ := h
  exact hf.cnt.trans hg.cnt.symm

theorem Twin.nextEoft {f g : StanzaFilter} (h : Twin f g) (b : UInt8) :
    (f.nextEoft b).1 = (g.nextEoft b).1 ∧ Twin (f.nextEoft b).2 (g.nextEoft b).2 := by
  obtain ⟨n, s, hf, hg⟩ := h
  have hf' := hf.nextEoft b
  have hg' := hg.nextEoft b
  exact ⟨hf'.1.trans hg'.1.symm, _, _, hf'.2, hg'.2⟩

structure SamePoll (p q : StanzaRead.Polled) : Prop where
  result : p.result = q.result
  sent : p.sent = q.sent
  filter : Twin p.filter q.filter

theorem Twin.poll {f g : StanzaFilter} (h : Twin f g) (p : BytePoll) :
    SamePoll (StanzaRead.pollBytes f p) (StanzaRead.pollBytes g p) := by
  unfold StanzaRead.pollBytes
  rw [h.cnt, h.size]
  split_ifs
  swap
  · exact ⟨rfl, rfl, h⟩
  cases p with
  | pending => exact ⟨rfl, rfl, h⟩
  | eof => exact ⟨rfl, rfl, h⟩
  | failed => exact ⟨rfl, rfl, h⟩
  | byte b =>
    obtain ⟨hr, hf⟩ := h.nextEoft b
    dsimp only
    generalize f.nextEoft b = x at hr hf
    generalize g.nextEoft b = y at hr hf
    obtain ⟨r, f'⟩ := x
    obtain ⟨r', g'⟩ := y
    dsimp only at hr hf
    subst hr
    obtain (_ | u) | e | _ := r
    · exact ⟨rfl, rfl, hf⟩
    · exact ⟨rfl, rfl, hf⟩
    · exact ⟨rfl, rfl, hf⟩
    · exact ⟨rfl, rfl, hf⟩

theorem Twin.anyPoll {f g : StanzaFilter} (h : Twin f g) {rd : StanzaRead} (hrd : rd = .asyncRead)
    (wrt : StanzaWrite) (p : rd.Poll) (res : WriteResult) :
    SamePoll (rd.poll wrt f p res) (rd.poll wrt g p res) := by
  subst hrd
  exact h.poll p

structure Like (base base' : List Sent) (a b : Side) : Prop where
  filter : Twin a.filter b.filter
  disabled : a.disabled = b.disabled
  sent : ∃ t, a.sent = base ++ t ∧ b.sent = base' ++ t

theorem Like.send {base base' : List Sent} {a b : Side} (h : Like base base' a b) (disabled : Bool)
    (t : List Sent) :
    Like base base' { a with disabled := disabled, sent := a.sent ++ t }
      { b with disabled := disabled, sent := b.sent ++ t } := by
  obtain ⟨hf, -, u, ha, hb⟩ := h
  refine ⟨hf, rfl, u ++ t, ?_, ?_⟩
  · rw [ha, List.append_assoc]
  · rw [hb, List.append_assoc]

theorem branch_like {rd : StanzaRead} (myWr otherWr : StanzaWrite) (trace isC2s : Bool) (p : rd.Poll)
    (res : WriteResult) {me me' other other' : Side} {base base' mine mine' : List Sent}
    (hrd : rd = .asyncRead) (hme : Like mine mine' me me')
    (hother : Like base base' other other') :
    let x := Shuffle.branch rd myWr otherWr trace isC2s me other p res
    let y := Shuffle.branch rd myWr otherWr trace isC2s me' other' p res
    x.1 = y.1 ∧ Like mine mine' x.2.1 y.2.1 ∧ Like base base' x.2.2.1 y.2.2.1 ∧ x.2.2.2 = y.2.2.2 := by
  obtain ⟨hresult, hsent, hfilter⟩ := hme.filter.anyPoll hrd myWr p res
  have hread : ∀ disabled : Bool, Like mine mine'
      ⟨(rd.poll myWr me.filter p res).filter, disabled, me.sent ++ (rd.poll myWr me.filter p res).sent⟩
      ⟨(rd.poll myWr me'.filter p res).filter, disabled,
        me'.sent ++ (rd.poll myWr me'.filter p res).sent⟩ := by
    intro disabled
    obtain ⟨-, -, u, ha, hb⟩ := hme
    refine ⟨hfilter, rfl, u ++ (rd.poll myWr me.filter p res).sent, ?_, ?_⟩
    · rw [ha, List.append_assoc]
    · rw [hb, ← hsent, List.append_assoc]
  unfold Shuffle.branch
  dsimp only
  rw [← hresult]
  cases (rd.poll myWr me.filter p res).result with
  | none => exact ⟨rfl, hme.disabled ▸ hread _, hother, rfl⟩
  | some r =>
    obtain (_ | ⟨buf, e⟩) | err | _ := r
    · exact ⟨rfl, hme.disabled ▸ hread _, hother, rfl⟩
    · dsimp only
      generalize otherWr.send trace isC2s buf e res = out
      obtain ⟨_ | _ | _, sent⟩ := out
      · exact ⟨rfl, hread false, hother.send false sent, rfl⟩
      · exact ⟨rfl, hme.disabled ▸ hread _, hother.disabled ▸ hother.send _ sent, rfl⟩
      · exact ⟨rfl, hme.disabled ▸ hread _, hother.disabled ▸ hother.send _ sent, rfl⟩
    · exact ⟨rfl, hread true, hother, by rw [hother.disabled]⟩
    · exact ⟨rfl, hme.disabled ▸ hread _, hother, rfl⟩

/-- Two loops that differ in what their clients were sent before. -/
structure SameLoop (base base' : Peer → List Sent) (s t : Shuffle) : Prop where
  sides : ∀ peer, Like (base peer) (base' peer) (peer.side s) (peer.side t)
  status : s.status = t.status

theorem SameLoop.step {c : ShuffleConfig} (hc : ∀ peer : Peer, peer.rd c = .asyncRead)
    {base base' : Peer → List Sent} {s t : Shuffle} (h : SameLoop base base' s t) (ev : Event c) :
    (Shuffle.step c s ev).1 = (Shuffle.step c t ev).1 ∧
      SameLoop base base' (Shuffle.step c s ev).2 (Shuffle.step c t ev).2 := by
  have hme := h.sides ev.peer
  by_cases hp : ev.Polled s
  · have hp' : ev.Polled t := ⟨h.status ▸ hp.1, hme.disabled ▸ hp.2⟩
    obtain ⟨hr, hmine, hother, hst⟩ := branch_like (ev.peer.wr c) (ev.peer.other.wr c) c.trace c.isC2s
      ev.poll ev.res (hc ev.peer) hme (h.sides ev.peer.other)
    rw [Shuffle.step_polled hp, Shuffle.step_polled hp']
    refine ⟨hr, fun peer => ?_, ?_⟩
    · rcases ev.peer.eq_or_other peer with rfl | rfl
      · rw [Shuffle.side_of, Shuffle.side_of]
        exact hmine
      · rw [Shuffle.other_side_of, Shuffle.other_side_of]
        exact hother
    · rw [Shuffle.status_of, Shuffle.status_of]
      exact hst
  · have hp' : ¬ ev.Polled t := fun h' => hp ⟨h.status.symm ▸ h'.1, hme.disabled.symm ▸ h'.2⟩
    rw [Shuffle.step_not_polled hp, Shuffle.step_not_polled hp']
    exact ⟨rfl, h⟩

theorem Alike.of_common {f g k : StanzaFilter} (hf : Alike f k) (hg : Alike g k) : Alike f g where
  size := hf.size.trans hg.size.symm
  cnt := hf.cnt.trans hg.cnt.symm
  le := hg.le_left
  take := hf.take.trans hg.take.symm
  tagCnt := hf.tagCnt.trans hg.tagCnt.symm
  state := hf.state.trans hg.state.symm

theorem refines_idle_of_stanza {f : StanzaFilter} (h : f.cnt ≤ f.bufSize) {b : UInt8} {x : Bytes × Nat}
    (hx : (f.nextEoft b).1 = .ok (some x)) : Refines f.bufSize (f.nextEoft b).2 (.idle 0) := by
  obtain ⟨hr, hf⟩ := (refines_scanner h).nextEoft b
  rw [nextEoft_idle (hr.symm.trans hx)] at hf
  exact hf

theorem refines_scratch {n e : Nat} {f : StanzaFilter} (h : Refines n f (.idle e)) (w : Bytes)
    (hw : w.length ≤ f.bufSize) : Refines n (f.scratch w hw) (.idle e) where
  size := h.size
  cnt := h.cnt
  take := by
    change List.take f.cnt _ = _
    rw [h.cnt]
    rfl
  tagCnt := h.tagCnt
  eoft := h.eoft
  state := h.state

/-- What two alike readers make of a poll: the same, or the same stanza with another mark, and then
nothing of before is left. -/
inductive AlikePoll : StanzaRead.Polled → StanzaRead.Polled → Prop where
  | same {f g : StanzaFilter} (r : Option (Outcome (Option (Bytes × Nat)))) :
      (∀ x, r ≠ some (.ok (some x))) → Alike f g → AlikePoll ⟨r, f, []⟩ ⟨r, g, []⟩
  | stanza {f g : StanzaFilter} {n : Nat} (buf : Bytes) (e e' : Nat) : Alike f g →
      Refines n f (.idle 0) → Refines n g (.idle 0) →
      AlikePoll ⟨some (.ok (some (buf, e))), f, []⟩ ⟨some (.ok (some (buf, e'))), g, []⟩

theorem Alike.poll {f g : StanzaFilter} (h : Alike f g) (p : BytePoll) :
    AlikePoll (StanzaRead.pollBytes f p) (StanzaRead.pollBytes g p) := by
  unfold StanzaRead.pollBytes
  rw [h.cnt, h.size]
  split_ifs
  swap
  · exact .same _ (by simp) h
  cases p with
  | pending => exact .same _ (by simp) h
  | eof => exact .same _ (by simp) h
  | failed => exact .same _ (by simp) h
  | byte b =>
    obtain ⟨hr, hf⟩ := h.nextEoft b
    obtain ⟨hr', hg⟩ := (Alike.refl h.le).nextEoft b
    have hfg := Alike.of_common hf hg
    have heq := hr.trans hr'.symm
    have hidle := fun x => refines_idle_of_stanza h.le_left (b := b) (x := x)
    have hidle' := fun x => refines_idle_of_stanza h.le (b := b) (x := x)
    rw [h.size] at hidle
    dsimp only
    generalize f.nextEoft b = x at heq hfg hidle
    generalize g.nextEoft b = y at heq hfg hidle'
    obtain ⟨r, f'⟩ := x
    obtain ⟨r', g'⟩ := y
    dsimp only at heq hfg hidle hidle'
    obtain (_ | ⟨buf, e⟩) | err | _ := r <;> obtain (_ | ⟨buf', e'⟩) | err' | _ := r' <;>
      first
        | cases heq
          exact .same _ (by simp) hfg
        | cases heq
          exact .stanza buf e e' hfg (hidle _ rfl) (hidle' _ rfl)
        | cases heq

section

variable {Cert Verifier : Type} {env : Incoming Cert Verifier} {f g : StanzaFilter} {n : Nat}

variable (env) in
theorem sendProxy_idle (hf : Refines n f (.idle 0)) (hg : Refines n g (.idle 0)) :
    (env.sendProxy f).1 = (env.sendProxy g).1 ∧ (env.sendProxy f).2.2 = (env.sendProxy g).2.2 ∧
      Refines n (env.sendProxy f).2.1 (.idle 0) ∧ Refines n (env.sendProxy g).2.1 (.idle 0) := by
  have hsize : f.bufSize = g.bufSize := hf.size.trans hg.size.symm
  rw [env.sendProxy_eq f, env.sendProxy_eq g]
  by_cases hlen : (proxyLine env.clientAddr env.localAddr).length ≤ f.bufSize
  · rw [dif_pos hlen, dif_pos (hsize ▸ hlen)]
    cases env.proxyTaken with
    | none => exact ⟨rfl, rfl, refines_scratch hf _ hlen, refines_scratch hg _ (hsize ▸ hlen)⟩
    | some taken => exact ⟨rfl, rfl, refines_scratch hf _ hlen, refines_scratch hg _ (hsize ▸ hlen)⟩
  · rw [dif_neg hlen, dif_neg (hsize ▸ hlen)]
    exact ⟨rfl, rfl, hf, hg⟩

variable (env) in
theorem openIncoming_idle (hf : Refines n f (.idle 0)) (hg : Refines n g (.idle 0)) (streamOpen : Bytes)
    (isC2s : Bool) :
    let x := env.openIncoming streamOpen isC2s f
    let y := env.openIncoming streamOpen isC2s g
    x.1 = y.1 ∧ x.2.2 = y.2.2 ∧ Refines n x.2.1 (.idle 0) ∧ Refines n y.2.1 (.idle 0) := by
  obtain ⟨hr, hs, hf', hg'⟩ := sendProxy_idle env hf hg
  unfold Incoming.openIncoming
  cases if isC2s then env.config.c2sTarget else env.config.s2sTarget with
  | none => exact ⟨rfl, rfl, hf, hg⟩
  | some target =>
    dsimp only
    cases env.connect target with
    | err e => exact ⟨rfl, rfl, hf, hg⟩
    | panic => exact ⟨rfl, rfl, hf, hg⟩
    | ok =>
      dsimp only
      by_cases hproxy : env.config.proxy = true
      · rw [if_pos hproxy, if_pos hproxy]
        generalize env.sendProxy f = x at hr hs hf'
        generalize env.sendProxy g = y at hr hs hg'
        obtain ⟨r, f', sent⟩ := x
        obtain ⟨r', g', sent'⟩ := y
        dsimp only at hr hs hf' hg'
        subst hr
        subst hs
        obtain _ | _ | _ := r
        · exact ⟨rfl, rfl, hf', hg'⟩
        · exact ⟨rfl, rfl, hf', hg'⟩
        · exact ⟨rfl, rfl, hf', hg'⟩
      · rw [if_neg hproxy, if_neg hproxy]
        exact ⟨rfl, rfl, hf, hg⟩

end

def sentBefore (toClient : List Sent) : Peer → List Sent
  | .client => toClient
  | .server => []

inductive SameConn (base base' : List Sent) : Connection → Connection → Prop where
  | preamble {f g : StanzaFilter} (streamOpen : Bytes) : Alike f g →
      SameConn base base' (.preamble (.reading f streamOpen) base) (.preamble (.reading g streamOpen) base')
  | shuffle {s t : Shuffle} (isC2s : Bool) : SameLoop (sentBefore base) (sentBefore base') s t →
      SameConn base base' (.shuffle isC2s s) (.shuffle isC2s t)
  | ended (r : Outcome Unit) (toServer : List Sent) :
      SameConn base base' (.ended r base toServer) (.ended r base' toServer)

def Connection.toServer : Connection → List Sent
  | .preamble _ _ => []
  | .shuffle _ s => s.server.sent
  | .ended _ _ sent => sent

theorem SameConn.toServer {base base' : List Sent} {c d : Connection} (h : SameConn base base' c d) :
    c.toServer = d.toServer := by
  cases h with
  | preamble => rfl
  | ended => rfl
  | shuffle isC2s hs =>
    obtain ⟨-, -, t, hc, hd⟩ := hs.sides .server
    exact hc.trans hd.symm

section

variable {Cert Verifier : Type} {env : Incoming Cert Verifier} {f g : StanzaFilter} {n : Nat}
  {base base' : List Sent}

theorem sameConn_accept (hf : Refines n f (.idle 0)) (hg : Refines n g (.idle 0)) (streamOpen : Bytes)
    (isC2s : Bool) :
    SameConn base base' (.accept env f streamOpen isC2s base) (.accept env g streamOpen isC2s base') := by
  unfold Connection.accept
  cases (if isC2s then .ok () else env.checkServer streamOpen : Outcome Unit) with
  | err e => exact .ended _ _
  | panic => exact .ended _ _
  | ok =>
    dsimp only
    obtain ⟨hr, hs, hf', hg'⟩ := openIncoming_idle env hf hg streamOpen isC2s
    generalize env.openIncoming streamOpen isC2s f = x at hr hs hf'
    generalize env.openIncoming streamOpen isC2s g = y at hr hs hg'
    obtain ⟨r, f', sent⟩ := x
    obtain ⟨r', g', sent'⟩ := y
    dsimp only at hr hs hf' hg'
    subst hr
    subst hs
    cases r with
    | err e => exact .ended _ _
    | panic => exact .ended _ _
    | ok =>
      refine .shuffle isC2s ⟨fun peer => ?_, rfl⟩
      cases peer with
      | client => exact ⟨⟨n, _, hf', hg'⟩, rfl, [], (List.append_nil _).symm, (List.append_nil _).symm⟩
      | server => exact ⟨Twin.refl (Nat.zero_le _), rfl, sent, rfl, rfl⟩

theorem sameConn_step {c d : Connection} (h : SameConn base base' c d) (p : Poll .asyncRead) :
    (c.step env .asyncRead .asyncWrite p).1 = (d.step env .asyncRead .asyncWrite p).1 ∧
      SameConn base base' (c.step env .asyncRead .asyncWrite p).2
        (d.step env .asyncRead .asyncWrite p).2 := by
  cases h with
  | ended r toServer => exact ⟨rfl, .ended r toServer⟩
  | shuffle isC2s hs =>
    have hc : ∀ peer : Peer, peer.rd (env.shuffleConfig .asyncRead .asyncWrite isC2s) = .asyncRead := by
      intro peer
      cases peer <;> rfl
    obtain ⟨hr, hs'⟩ := hs.step hc p.event
    exact ⟨hr, .shuffle isC2s hs'⟩
  | @preamble f g streamOpen hfg =>
    cases p with
    | server poll res => exact ⟨rfl, .preamble streamOpen hfg⟩
    | client poll res =>
      refine ⟨rfl, ?_⟩
      have hpoll := XmppProxy.Alike.poll hfg poll
      unfold Connection.step Preamble.step
      dsimp only [StanzaRead.poll]
      generalize StanzaRead.pollBytes f poll = x at hpoll
      generalize StanzaRead.pollBytes g poll = y at hpoll
      cases hpoll with
      | @same f' g' r hne hfg' =>
        simp only [List.append_nil]
        obtain _ | (_ | x) | err | _ := r
        · exact .preamble streamOpen hfg'
        · exact .ended _ _
        · exact absurd rfl (hne x)
        · exact .ended _ _
        · exact .ended _ _
      | @stanza f' g' n buf e e' hfg' hf' hg' =>
        simp only [List.append_nil]
        by_cases hdecl : bytes "<?xml " <+: buf
        · rw [if_pos hdecl, if_pos hdecl]
          exact .preamble _ hfg'
        rw [if_neg hdecl, if_neg hdecl]
        by_cases hh : bytes "<stream:stream " <+: buf
        · rw [if_pos hh, if_pos hh]
          exact sameConn_accept hf' hg' _ _
        · rw [if_neg hh, if_neg hh]
          exact .ended _ _

end

section

variable {P : TlsConnection → Prop} {f : StanzaFilter} {sent : List Sent}

theorem TlsConnection.reply_keeps {out : Bytes} {res : WriteResult} {k : List Sent → TlsConnection}
    (hended : ∀ r sent, P (.ended r sent)) (hk : ∀ sent, P (k sent)) : P (reply sent out res k) := by
  unfold reply
  split
  · exact hk _
  · exact hended _ _

theorem TlsConnection.peek_keeps {p : Bytes} {k : StanzaFilter → TlsConnection}
    (hended : ∀ r sent, P (.ended r sent)) (hk : ∀ h : p.length ≤ f.bufSize, P (k (f.scratch p h))) :
    P (peek f sent p k) := by
  unfold peek
  split_ifs with h
  · exact hk h
  · exact hended _ _

end

/-- TLS is not there yet, or never will be. -/
def TlsConnection.Plain : TlsConnection → Prop
  | .accepted _ _ | .running _ | .websocket _ _ => False
  | _ => True

/-- Only the end of the handshake leads out of the plain text. -/
theorem TlsConnection.Plain.step {Cert Verifier : Type} (env : Incoming Cert Verifier) {c : TlsConnection}
    (h : c.Plain) (ev : TlsEvent) :
    (c.step env ev).2.Plain ∨ ev = .accepted ∧ ∃ f sent, (c.step env ev).2 = .accepted f sent := by
  cases c with
  | sniffing f =>
    refine .inl ?_
    cases ev with
    | hello b₀ b₁ b₂ =>
      unfold TlsConnection.step
      dsimp only
      refine peek_keeps (P := TlsConnection.Plain) (fun _ _ => trivial) fun _ => ?_
      split_ifs <;> trivial
    | _ => trivial
  | preTls f sent =>
    refine .inl ?_
    cases ev with
    | plain p res =>
      change (preTlsStep f sent p res).Plain
      unfold preTlsStep
      split
      · trivial
      · split_ifs
        · exact reply_keeps (fun _ _ => trivial) fun _ => trivial
        · exact reply_keeps (fun _ _ => trivial) fun _ => trivial
        · exact reply_keeps (fun _ _ => trivial) fun _ => trivial
        · trivial
      all_goals trivial
    | _ => trivial
  | discarding f sent =>
    refine .inl ?_
    cases ev with
    | next b =>
      unfold TlsConnection.step
      dsimp only
      refine peek_keeps (P := TlsConnection.Plain) (fun _ _ => trivial) fun _ => ?_
      split_ifs <;> trivial
    | _ => trivial
  | accepting f sent =>
    cases ev with
    | accepted => exact .inr ⟨rfl, f, sent, rfl⟩
    | _ => exact .inl trivial
  | ended r sent => exact .inl trivial
  | accepted f sent => exact h.elim
  | running c => exact h.elim
  | websocket f sent => exact h.elim

/-- Where a filter of size `n` stands outside of stanzas, and where it may stand inside of one. -/
def Settled (n : Nat) : TlsConnection → Prop
  | .sniffing f => Idle n f
  | .preTls f _ => 3 ≤ n ∧ f.bufSize = n ∧ f.cnt ≤ f.bufSize
  | .discarding f _ => 3 ≤ n ∧ Idle n f
  | .accepting f _ => 3 ≤ n ∧ Idle n f
  | .accepted f _ => 3 ≤ n ∧ Idle n f
  | _ => True

section

variable {n : Nat} {f : StanzaFilter} {sent : List Sent}

theorem settled_peek (h : Idle n f) (p : Bytes) {k : StanzaFilter → TlsConnection}
    (hk : ∀ f, Idle n f → p.length ≤ n → Settled n (k f)) :
    Settled n (TlsConnection.peek f sent p k) :=
  TlsConnection.peek_keeps (fun _ _ => trivial) fun hp => hk _ (h.scratch p hp) (h.size ▸ hp)

/-- A stanza that `next` returns leaves the filter outside of stanzas, an answer that is pending inside
of its buffer. -/
theorem settled_pollNext (hsize : f.bufSize = n) (hcnt : f.cnt ≤ f.bufSize) (p : BytePoll) :
    match StanzaRead.pollNext f p with
    | (none, f') => f'.bufSize = n ∧ f'.cnt ≤ f'.bufSize
    | (some (.ok (some _)), f') => Idle n f'
    | _ => True := by
  unfold StanzaRead.pollNext
  split_ifs
  swap
  · trivial
  cases p with
  | pending => exact ⟨hsize, hcnt⟩
  | eof => trivial
  | failed => trivial
  | byte b =>
    obtain ⟨hr, hf⟩ := (refines_scanner hcnt).next b
    have hturn := (scanner f).turn_next f.bufSize b
    rw [← hr] at hturn
    dsimp only
    generalize f.next b = x at hf hturn
    obtain ⟨r, f'⟩ := x
    obtain (_ | u) | e | _ := r
    · exact ⟨hf.size.trans hsize, hf.size ▸ hf.cnt_le⟩
    · dsimp only at hf hturn ⊢
      generalize ((scanner f).next f.bufSize b).2 = t at hf hturn
      cases hturn
      exact ⟨hf.size.trans hsize, hf.cnt, hf.tagCnt, hf.state⟩
    · trivial
    · trivial

theorem settled_preTlsStep (hn : 3 ≤ n) (hsize : f.bufSize = n) (hcnt : f.cnt ≤ f.bufSize)
    (p : BytePoll) (res : WriteResult) : Settled n (TlsConnection.preTlsStep f sent p res) := by
  have hp := settled_pollNext hsize hcnt p
  unfold TlsConnection.preTlsStep
  generalize StanzaRead.pollNext f p = x at hp
  obtain ⟨_ | (_ | buf) | e | _, f'⟩ := x
  · exact ⟨hn, hp⟩
  · trivial
  · have hinside : 3 ≤ n ∧ f'.bufSize = n ∧ f'.cnt ≤ f'.bufSize :=
      ⟨hn, hp.size, hp.cnt ▸ Nat.zero_le _⟩
    dsimp only
    split_ifs
    · exact TlsConnection.reply_keeps (fun _ _ => trivial) fun _ => hinside
    · exact TlsConnection.reply_keeps (fun _ _ => trivial) fun _ => hinside
    · exact TlsConnection.reply_keeps (fun _ _ => trivial) fun _ => ⟨hn, hp⟩
    · trivial
  · trivial
  · trivial

end

section

variable {Cert Verifier : Type} {env : Incoming Cert Verifier} {n : Nat}

theorem settled_step (c : TlsConnection) (ev : TlsEvent) (h : Settled n c) :
    Settled n (c.step env ev).2 := by
  cases c with
  | sniffing f =>
    cases ev with
    | hello b₀ b₁ b₂ =>
      unfold TlsConnection.step
      dsimp only
      apply settled_peek h
      intro f' hf hlen
      split_ifs
      · exact ⟨hlen, hf⟩
      · exact ⟨hlen, hf.size, hf.cnt ▸ Nat.zero_le _⟩
    | peekFailed => trivial
    | _ => exact h
  | preTls f sent =>
    cases ev with
    | plain p res => exact settled_preTlsStep h.1 h.2.1 h.2.2 p res
    | _ => exact h
  | discarding f sent =>
    cases ev with
    | next b =>
      unfold TlsConnection.step
      dsimp only
      apply settled_peek h.2
      intro f' hf _
      split_ifs
      · exact ⟨h.1, hf⟩
      · exact ⟨h.1, hf⟩
    | peekFailed => trivial
    | _ => exact h
  | accepting f sent =>
    cases ev with
    | accepted => exact h
    | acceptFailed e => trivial
    | _ => exact h
  | accepted f sent =>
    cases ev with
    | sniffed websocket => cases websocket <;> trivial
    | peekFailed => trivial
    | _ => exact h
  | running c => cases ev <;> trivial
  | websocket f sent => trivial
  | ended r sent => trivial

def TlsConnection.toServer : TlsConnection → List Sent
  | .running c => c.toServer
  | _ => []

theorem running_same {base base' : List Sent} (polls : List (Poll .asyncRead)) {c d : Connection}
    (h : SameConn base base' c d) :
    ((handleTlsConnection env).final (.running c) (polls.map .poll)).toServer =
      ((handleTlsConnection env).final (.running d) (polls.map .poll)).toServer := by
  induction polls generalizing c d with
  | nil => exact h.toServer
  | cons p polls ih =>
    rw [List.map_cons, Machine.final_cons, Machine.final_cons]
    exact ih (sameConn_step h p).2

variable (env) in
def TlsConnection.new : TlsConnection := .sniffing (.new env.config.maxStanzaSizeBytes)

variable (env) in
/-- What the client does up to the end of the handshake: direct TLS, or plain text, `<starttls` and what
follows it. -/
def Secures (ps : List TlsEvent) : Prop :=
  ∃ f sent, (handleTlsConnection env).final (.new env) ps = .accepted f sent

variable (env) in
/-- What the target is sent when `ps` goes before the handshake and `polls` behind it, on a byte stream. -/
def behindTls (ps : List TlsEvent) (polls : List (Poll .asyncRead)) : List Sent :=
  ((handleTlsConnection env).final (.new env) (ps ++ .sniffed false :: polls.map .poll)).toServer

def directTls (minor : UInt8) : List TlsEvent := [.hello 0x16 0x03 minor, .accepted]

theorem Secures.idle {ps : List TlsEvent} (h : Secures env ps) :
    ∃ f sent, (handleTlsConnection env).final (.new env) ps = .accepted f sent ∧
      3 ≤ env.config.maxStanzaSizeBytes ∧ Idle env.config.maxStanzaSizeBytes f := by
  obtain ⟨f, sent, hf⟩ := h
  have hnew : Settled env.config.maxStanzaSizeBytes (.new env) := idle_new _
  have hsettled : Settled env.config.maxStanzaSizeBytes
      ((handleTlsConnection env).final (.new env) ps) :=
    Machine.invariant (m := handleTlsConnection env) settled_step hnew ps
  rw [hf] at hsettled
  exact ⟨f, sent, hf, hsettled⟩

theorem secures_directTls (h : 3 ≤ env.config.maxStanzaSizeBytes) {minor : UInt8} (hm : minor ≤ 0x03) :
    Secures env (directTls minor) := by
  have hpeek : (TlsConnection.step env (.new env) (.hello 0x16 0x03 minor)).2 =
      .accepting ((StanzaFilter.new env.config.maxStanzaSizeBytes).scratch [0x16, 0x03, minor] h) [] := by
    unfold TlsConnection.new TlsConnection.step TlsConnection.peek
    dsimp only
    have hlen : [0x16, 0x03, minor].length ≤ (StanzaFilter.new env.config.maxStanzaSizeBytes).bufSize := h
    rw [dif_pos hlen, if_pos ⟨rfl, rfl, hm⟩]
  refine ⟨(StanzaFilter.new env.config.maxStanzaSizeBytes).scratch [0x16, 0x03, minor] h, [], ?_⟩
  unfold directTls handleTlsConnection
  rw [Machine.final_cons]
  dsimp only
  rw [hpeek]
  rfl

theorem behindTls_eq {ps ps' : List TlsEvent} (h : Secures env ps) (h' : Secures env ps')
    (polls : List (Poll .asyncRead)) : behindTls env ps polls = behindTls env ps' polls := by
  obtain ⟨f, sent, hf, -, hidle⟩ := h.idle
  obtain ⟨f', sent', hf', -, hidle'⟩ := h'.idle
  unfold behindTls
  rw [Machine.final_append, Machine.final_append, hf, hf', Machine.final_cons, Machine.final_cons]
  exact running_same polls (.preamble [] (hidle.alike hidle'))

/-- Nothing of the plain text carries over into TLS. -/
theorem no_carryover {ps ps' : List TlsEvent} (h : Secures env ps) (h' : Secures env ps')
    {minor : UInt8} (hm : minor ≤ 0x03) (polls : List (Poll .asyncRead)) :
    behindTls env ps polls = behindTls env ps' polls ∧
      behindTls env ps polls = behindTls env (directTls minor) polls := by
  obtain ⟨-, -, -, hsize, -⟩ := h.idle
  exact ⟨behindTls_eq h h' polls, behindTls_eq h (secures_directTls hsize hm) polls⟩

end

def tlsTarget : Incoming Unit Unit where
  config := ⟨64, none, some (.socketAddr ⟨.ofV4 127 0 0 1, 5222⟩), false⟩
  localAddr := ⟨.ofV4 10 0 0 1, 5222⟩
  clientAddr := ⟨.ofV4 10 0 0 2, 4000⟩
  peerCertificates := none
  getXmppConnections := fun _ _ => .ok ()
  verifyCert := fun _ _ _ => .ok ()
  connect := fun _ => .ok ()
  proxyTaken := none
  openRes := .done
  trace := false

def starttls (text : Bytes) : List TlsEvent :=
  .hello lt 115 116 :: (text ++ bytes "<starttls />").map (fun b => .plain (.byte b) .done) ++
    [.next 10, .next 0x16, .accepted]

theorem no_carryover_header :
    let polls : List (Poll .asyncRead) :=
      (bytes "<stream:stream xmlns='jabber:client'>").map fun b => .client (.byte b) .done
    behindTls tlsTarget (starttls (bytes "<stream:stream to='a'>")) polls =
        behindTls tlsTarget (starttls []) polls ∧
      behindTls tlsTarget (starttls (bytes "<stream:stream to='a'>")) polls =
        behindTls tlsTarget (directTls 1) polls := by
  intro polls
  refine no_carryover ?_ ?_ (by decide) polls
  · exact ⟨_, _, rfl⟩
  · exact ⟨_, _, rfl⟩

end XmppProxy
