import XmppProxy.Model.Common
import XmppProxy.Stanza.Emission

/-! What one poll of the shuffling loop can do. -/

namespace XmppProxy

open Lib Stanza

def BytePoll.byte? : BytePoll → Option UInt8
  | .byte b => some b
  | _ => none

def polledByte : (rd : StanzaRead) → rd.Poll → Option UInt8
  | .asyncRead, p => BytePoll.byte? p
  | .webSocketRead, _ => none

inductive BytesPolled (f : StanzaFilter) : BytePoll → StanzaRead.Polled → Prop where
  | past {p : BytePoll} : f.bufSize ≤ f.cnt → BytesPolled f p ⟨some .panic, f, []⟩
  | pending : f.cnt < f.bufSize → BytesPolled f .pending ⟨none, f, []⟩
  | eof : f.cnt < f.bufSize → BytesPolled f .eof ⟨some (.ok none), f, []⟩
  | failed : f.cnt < f.bufSize → BytesPolled f .failed ⟨some (.err .io), f, []⟩
  | more {b : UInt8} {f' : StanzaFilter} : f.cnt < f.bufSize → f.nextEoft b = (.ok none, f') →
      BytesPolled f (.byte b) ⟨none, f', []⟩
  | stanza {b : UInt8} {buf : Bytes} {e : Nat} {f' : StanzaFilter} : f.cnt < f.bufSize →
      f.nextEoft b = (.ok (some (buf, e)), f') →
      BytesPolled f (.byte b) ⟨some (.ok (some (buf, e))), f', []⟩
  | reject {b : UInt8} {err : Error} {f' : StanzaFilter} : f.cnt < f.bufSize →
      f.nextEoft b = (.err err, f') → BytesPolled f (.byte b) ⟨some (.err err), f', []⟩
  | panic {b : UInt8} {f' : StanzaFilter} : f.cnt < f.bufSize → f.nextEoft b = (.panic, f') →
      BytesPolled f (.byte b) ⟨some .panic, f', []⟩

theorem bytesPolled (f : StanzaFilter) (p : BytePoll) : BytesPolled f p (StanzaRead.pollBytes f p) := by
  unfold StanzaRead.pollBytes
  split_ifs with hlt
  swap
  · exact .past (Nat.le_of_not_lt hlt)
  cases p with
  | pending => exact .pending hlt
  | eof => exact .eof hlt
  | failed => exact .failed hlt
  | byte b =>
    dsimp only
    cases hn : f.nextEoft b with
    | mk r f' =>
      obtain (_ | ⟨buf, e⟩) | err | _ := r
      · exact .more hlt hn
      · exact .stanza hlt hn
      · exact .reject hlt hn
      · exact .panic hlt hn

theorem stanza_ends {f f' : StanzaFilter} {b : UInt8} {buf : Bytes} {e : Nat} (hlt : f.cnt < f.bufSize)
    (h : f.nextEoft b = (.ok (some (buf, e)), f')) :
    b = gt ∧ buf = f.buf.take f.cnt ++ [b] ∧ f'.cnt = 0 := by
  have href := (refines_scanner (Nat.le_of_lt hlt)).nextEoft b
  rw [h] at href
  obtain ⟨hpart, hd⟩ := nextEoft_eq_some href.1.symm
  have hl := Scanner.local_dispatch (scanner f) b
  rw [hd] at hl
  refine ⟨hl.1, hpart, ?_⟩
  have hidle := href.2.cnt
  have := nextEoft_idle href.1.symm
  rw [hidle, this]
  rfl

theorem pollMessage_stanza {wrt : StanzaWrite} {f : StanzaFilter} {res : WriteResult} {p : MessagePoll}
    {buf : Bytes} {e : Nat}
    (h : (StanzaRead.pollMessage wrt f res p).result = some (.ok (some (buf, e)))) :
    ∃ stanza, p = .message (.text stanza) ∧ buf = fromWs stanza ∧ e = 0 := by
  unfold StanzaRead.pollMessage at h
  split at h
  case h_2 stanza =>
    dsimp only at h
    split_ifs at h
    · obtain ⟨rfl, rfl⟩ := Prod.mk.inj (Option.some.inj (Outcome.ok.inj (Option.some.inj h)))
      exact ⟨stanza, rfl, rfl, rfl⟩
    · cases h
  case h_3 =>
    split at h
    · cases h
    · split at h <;> cases h
  all_goals cases h

def Side.read (me : Side) (polled : StanzaRead.Polled) : Side :=
  { me with filter := polled.filter, sent := me.sent ++ polled.sent }

section

variable (rd : StanzaRead) (myWr otherWr : StanzaWrite) (trace isC2s : Bool) (me other : Side)
  (p : rd.Poll) (res : WriteResult)

/-- What a branch can come to, by what its reader returns and how the write goes. -/
inductive Branched : Report × Side × Side × Status → Prop where
  | quiet : (rd.poll myWr me.filter p res).result = none →
      Branched (.quiet, me.read (rd.poll myWr me.filter p res), other, .running)
  | panicked : (rd.poll myWr me.filter p res).result = some .panic →
      Branched (.panicked, me.read (rd.poll myWr me.filter p res), other, .panicked)
  | rejected {err : Error} {st : Status} : (rd.poll myWr me.filter p res).result = some (.err err) →
      st ≠ .panicked →
      Branched (.rejected err, { me.read (rd.poll myWr me.filter p res) with disabled := true }, other, st)
  | closed : (rd.poll myWr me.filter p res).result = some (.ok none) →
      Branched (.closed, me.read (rd.poll myWr me.filter p res), other, .disconnected)
  | forwarded {buf : Bytes} {e : Nat} {sent : List Sent} :
      (rd.poll myWr me.filter p res).result = some (.ok (some (buf, e))) →
      otherWr.send trace isC2s buf e res = (.ok (), sent) →
      Branched (.forwarded buf e, { me.read (rd.poll myWr me.filter p res) with disabled := false },
        { other with disabled := false, sent := other.sent ++ sent }, .running)
  | failed {buf : Bytes} {e : Nat} {sent : List Sent} {err : Error} :
      (rd.poll myWr me.filter p res).result = some (.ok (some (buf, e))) →
      otherWr.send trace isC2s buf e res = (.err err, sent) →
      Branched (.forwarded buf e, me.read (rd.poll myWr me.filter p res),
        { other with sent := other.sent ++ sent }, .failed err)
  | crashed {buf : Bytes} {e : Nat} {sent : List Sent} :
      (rd.poll myWr me.filter p res).result = some (.ok (some (buf, e))) →
      otherWr.send trace isC2s buf e res = (.panic, sent) →
      Branched (.forwarded buf e, me.read (rd.poll myWr me.filter p res),
        { other with sent := other.sent ++ sent }, .panicked)

theorem Branched.filters {x : Report × Side × Side × Status}
    (h : Branched rd myWr otherWr trace isC2s me other p res x) :
    x.2.1.filter = (rd.poll myWr me.filter p res).filter ∧ x.2.2.1.filter = other.filter := by
  cases h <;> exact ⟨rfl, rfl⟩

theorem Branched.rejects {x : Report × Side × Side × Status}
    (h : Branched rd myWr otherWr trace isC2s me other p res x) {err : Error} :
    x.1 = .rejected err ↔ (rd.poll myWr me.filter p res).result = some (.err err) := by
  cases h with
  | rejected hr _ =>
    rw [hr]
    simp
  | quiet hr => simp [hr]
  | panicked hr => simp [hr]
  | closed hr => simp [hr]
  | forwarded hr _ => simp [hr]
  | failed hr _ => simp [hr]
  | crashed hr _ => simp [hr]

theorem branched : Branched rd myWr otherWr trace isC2s me other p res
    (Shuffle.branch rd myWr otherWr trace isC2s me other p res) := by
  unfold Shuffle.branch
  dsimp only
  cases hr : (rd.poll myWr me.filter p res).result with
  | none => exact .quiet hr
  | some r =>
    obtain (_ | ⟨buf, e⟩) | err | _ := r
    · exact .closed hr
    · dsimp only
      cases hs : otherWr.send trace isC2s buf e res with
      | mk o sent =>
        cases o with
        | ok => exact .forwarded hr hs
        | err err => exact .failed hr hs
        | panic => exact .crashed hr hs
    · refine .rejected hr ?_
      split_ifs
      · simp
      · simp
    · exact .panicked hr

end

section

variable {rd : StanzaRead} {myWr otherWr : StanzaWrite} {trace isC2s : Bool} {me other : Side}
  {p : rd.Poll} {res : WriteResult}

theorem branch_forwarded {buf : Bytes} {e : Nat}
    (h : (Shuffle.branch rd myWr otherWr trace isC2s me other p res).1 = .forwarded buf e) :
    (rd.poll myWr me.filter p res).result = some (.ok (some (buf, e))) ∧
      (Shuffle.branch rd myWr otherWr trace isC2s me other p res).2.2.1.sent =
        other.sent ++ (otherWr.send trace isC2s buf e res).2 ∧
      ((Shuffle.branch rd myWr otherWr trace isC2s me other p res).2.2.2 = .running →
        (otherWr.send trace isC2s buf e res).1 = .ok ()) := by
  have hb := branched rd myWr otherWr trace isC2s me other p res
  generalize Shuffle.branch rd myWr otherWr trace isC2s me other p res = x at h hb
  cases hb with
  | forwarded hr hs =>
    obtain ⟨rfl, rfl⟩ := Report.forwarded.inj h
    rw [hs]
    exact ⟨hr, rfl, fun _ => rfl⟩
  | failed hr hs =>
    obtain ⟨rfl, rfl⟩ := Report.forwarded.inj h
    rw [hs]
    exact ⟨hr, rfl, fun hrun => nomatch hrun⟩
  | crashed hr hs =>
    obtain ⟨rfl, rfl⟩ := Report.forwarded.inj h
    rw [hs]
    exact ⟨hr, rfl, fun hrun => nomatch hrun⟩
  | _ => cases h

end

inductive Peer where
  | client
  | server
  deriving DecidableEq, Repr

namespace Peer

def other : Peer → Peer
  | client => server
  | server => client

def rd (c : ShuffleConfig) : Peer → StanzaRead
  | client => c.inRd
  | server => c.outRd

def wr (c : ShuffleConfig) : Peer → StanzaWrite
  | client => c.inWr
  | server => c.outWr

def side (s : Shuffle) : Peer → Side
  | client => s.client
  | server => s.server

theorem eq_or_other (p q : Peer) : q = p ∨ q = p.other := by cases p <;> cases q <;> decide

theorem other_other (p : Peer) : p.other.other = p := by cases p <;> rfl

theorem other_ne (p : Peer) : p.other ≠ p := by cases p <;> decide

end Peer

namespace Event

variable {c : ShuffleConfig}

def peer : Event c → Peer
  | client _ _ => .client
  | server _ _ => .server

def poll : (ev : Event c) → (ev.peer.rd c).Poll
  | client p _ => p
  | server p _ => p

def res : Event c → WriteResult
  | client _ res => res
  | server _ res => res

def branch (ev : Event c) (s : Shuffle) : Report × Side × Side × Status :=
  Shuffle.branch (ev.peer.rd c) (ev.peer.wr c) (ev.peer.other.wr c) c.trace c.isC2s (ev.peer.side s)
    (ev.peer.other.side s) ev.poll ev.res

theorem branched (ev : Event c) (s : Shuffle) :
    Branched (ev.peer.rd c) (ev.peer.wr c) (ev.peer.other.wr c) c.trace c.isC2s (ev.peer.side s)
      (ev.peer.other.side s) ev.poll ev.res (ev.branch s) :=
  XmppProxy.branched ..

/-- The loop is running and the branch is enabled: the reader is polled. -/
def Polled (s : Shuffle) (ev : Event c) : Prop := s.status = .running ∧ (ev.peer.side s).disabled = false

instance (s : Shuffle) (ev : Event c) : Decidable (ev.Polled s) :=
  inferInstanceAs (Decidable (_ ∧ _))

end Event

namespace Shuffle

variable {c : ShuffleConfig}

def of (peer : Peer) (me other : Side) (status : Status) : Shuffle :=
  match peer with
  | .client => ⟨me, other, status⟩
  | .server => ⟨other, me, status⟩

@[simp] theorem side_of (peer : Peer) (me other : Side) (status : Status) :
    peer.side (of peer me other status) = me := by
  cases peer <;> rfl

@[simp] theorem other_side_of (peer : Peer) (me other : Side) (status : Status) :
    peer.other.side (of peer me other status) = other := by
  cases peer <;> rfl

@[simp] theorem status_of (peer : Peer) (me other : Side) (status : Status) :
    (of peer me other status).status = status := by
  cases peer <;> rfl

theorem step_eq (s : Shuffle) (ev : Event c) :
    step c s ev =
      if ev.Polled s then
        ((ev.branch s).1, of ev.peer (ev.branch s).2.1 (ev.branch s).2.2.1 (ev.branch s).2.2.2)
      else (.quiet, s) := by
  cases ev <;> rfl

theorem step_polled {s : Shuffle} {ev : Event c} (h : ev.Polled s) :
    step c s ev =
      ((ev.branch s).1, of ev.peer (ev.branch s).2.1 (ev.branch s).2.2.1 (ev.branch s).2.2.2) := by
  rw [step_eq, if_pos h]

theorem step_not_polled {s : Shuffle} {ev : Event c} (h : ¬ ev.Polled s) :
    step c s ev = (.quiet, s) := by
  rw [step_eq, if_neg h]

theorem step_forwarded {s : Shuffle} {ev : Event c} {buf : Bytes} {e : Nat}
    (h : (step c s ev).1 = .forwarded buf e) :
    ((ev.peer.rd c).poll (ev.peer.wr c) (ev.peer.side s).filter ev.poll ev.res).result =
        some (.ok (some (buf, e))) ∧
      (ev.peer.other.side (step c s ev).2).sent = (ev.peer.other.side s).sent ++
        ((ev.peer.other.wr c).send c.trace c.isC2s buf e ev.res).2 ∧
      ((step c s ev).2.status = .running →
        ((ev.peer.other.wr c).send c.trace c.isC2s buf e ev.res).1 = .ok ()) := by
  rw [step_eq] at h ⊢
  split_ifs at h ⊢
  rw [other_side_of, status_of]
  exact branch_forwarded h

end Shuffle

section

variable {c : ShuffleConfig} {s : Shuffle}

def delivered (peer : Peer) (run : List (Shuffle × Event c)) : Bytes :=
  run.flatMap fun x =>
    if x.2.peer = peer ∧ x.2.Polled x.1 then (polledByte _ x.2.poll).toList else []

theorem delivered_cons (peer : Peer) (x : Shuffle × Event c) (run : List (Shuffle × Event c)) :
    delivered peer (x :: run) = delivered peer [x] ++ delivered peer run := by
  unfold delivered
  rw [List.flatMap_cons, List.flatMap_singleton]

theorem delivered_polled {ev : Event c} (h : ev.Polled s) :
    delivered ev.peer [(s, ev)] = (polledByte _ ev.poll).toList := by
  unfold delivered
  rw [List.flatMap_singleton, if_pos ⟨rfl, h⟩]

theorem delivered_other {ev : Event c} : delivered ev.peer.other [(s, ev)] = [] := by
  unfold delivered
  rw [List.flatMap_singleton, if_neg fun h => ev.peer.other_ne h.1.symm]

theorem delivered_not_polled {ev : Event c} (h : ¬ ev.Polled s) (peer : Peer) :
    delivered peer [(s, ev)] = [] := by
  unfold delivered
  rw [List.flatMap_singleton, if_neg fun h' => h h'.2]

end

theorem send_text {wr : StanzaWrite} {trace isC2s : Bool} {buf t : Bytes} {e : Nat} {res : WriteResult}
    (h : (wr.send trace isC2s buf e res).2 = [.text t]) :
    wr.writeAll trace isC2s buf e = .ok (some (.text t)) := by
  unfold StanzaWrite.send at h
  cases hw : wr.writeAll trace isC2s buf e with
  | ok data =>
    rw [hw] at h
    obtain _ | data := data <;> cases res <;> simp only [transmit] at h
    · cases h
    · cases h
    · cases h
    · rw [(List.cons.inj h).1]
    · cases data <;> cases h
    · rw [(List.cons.inj h).1]
  | err err => rw [hw] at h; cases h
  | panic => rw [hw] at h; cases h

end XmppProxy
