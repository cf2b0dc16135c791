import Mathlib.Data.List.Induction
import XmppProxy.Lib.Interleave
import XmppProxy.Proxy.Loop

/-! The loop against two readers side by side: over any transports and in any order of polls, what a peer
is sent is what the reader of the other one returns on its own polls, converted and in order, and between
these the pongs for its own pings. -/

namespace XmppProxy

open Lib

/-- What one poll of `next` comes to: its result unless it is pending, and the pongs sent. -/
abbrev PollResult := Option (Outcome (Option (Bytes × Nat))) × List Sent

def StanzaRead.Polled.turn (polled : StanzaRead.Polled) : PollResult := (polled.result, polled.sent)

def StanzaRead.next (rd : StanzaRead) (wrt : StanzaWrite) :
    Machine StanzaFilter (rd.Poll × WriteResult) PollResult :=
  ⟨fun f p => ((rd.poll wrt f p.1 p.2).turn, (rd.poll wrt f p.1 p.2).filter)⟩

def PollResult.stanza? : PollResult → Option (Bytes × Nat)
  | (some (.ok (some x)), _) => some x
  | _ => none

def read (polled : List PollResult) : List (Bytes × Nat) := polled.filterMap PollResult.stanza?

def answered (polled : List PollResult) : List Sent := polled.flatMap Prod.snd

theorem read_append (as bs : List PollResult) : read (as ++ bs) = read as ++ read bs := List.filterMap_append

theorem answered_append (as bs : List PollResult) : answered (as ++ bs) = answered as ++ answered bs :=
  List.flatMap_append

def Sent.isPong : Sent → Bool
  | .pong _ => true
  | _ => false

def pongs (sent : List Sent) : List Sent := sent.filter Sent.isPong

def stanzasSent (sent : List Sent) : List Sent := sent.filter fun x => !x.isPong

theorem pongs_append (as bs : List Sent) : pongs (as ++ bs) = pongs as ++ pongs bs := List.filter_append ..

theorem stanzasSent_append (as bs : List Sent) :
    stanzasSent (as ++ bs) = stanzasSent as ++ stanzasSent bs := List.filter_append ..

/-- What reaches the transport for a stanza when the write does not fail. -/
def StanzaWrite.data (wr : StanzaWrite) (trace isC2s : Bool) (u : Bytes × Nat) : List Sent :=
  match wr.writeAll trace isC2s u.1 u.2 with
  | .ok data => data.toList
  | _ => []

def StanzaWrite.written (wr : StanzaWrite) (trace isC2s : Bool) (us : List (Bytes × Nat)) : List Sent :=
  us.flatMap (wr.data trace isC2s)

section

variable {wr : StanzaWrite} {trace isC2s : Bool}

theorem written_append (us vs : List (Bytes × Nat)) :
    wr.written trace isC2s (us ++ vs) = wr.written trace isC2s us ++ wr.written trace isC2s vs :=
  List.flatMap_append

theorem written_singleton (u : Bytes × Nat) : wr.written trace isC2s [u] = wr.data trace isC2s u :=
  List.flatMap_singleton ..

theorem writeAll_not_pong {buf : Bytes} {e : Nat} {d : Sent}
    (h : wr.writeAll trace isC2s buf e = .ok (some d)) : d.isPong = false := by
  have htext : ∀ {o : Outcome Bytes}, (do return some (.text (← o)) : Outcome (Option Sent)) = .ok (some d) →
      d.isPong = false := by
    intro o ho
    obtain ⟨t, -, ht⟩ := Outcome.bind_eq_ok.mp ho
    obtain rfl := Option.some.inj (Outcome.ok.inj ht)
    rfl
  unfold StanzaWrite.writeAll at h
  cases wr with
  | asyncWrite =>
    obtain rfl := Option.some.inj (Outcome.ok.inj h)
    rfl
  | webSocketClientWrite =>
    dsimp only at h
    split at h
    · split at h
      · exact htext h
      · split at h
        · obtain ⟨-, -, ht⟩ := Outcome.bind_eq_ok.mp h
          cases ht
        · cases h
    · exact htext h

theorem data_not_pong (u : Bytes × Nat) : ∀ d ∈ wr.data trace isC2s u, d.isPong = false := by
  intro d hd
  unfold StanzaWrite.data at hd
  split at hd
  next data hw =>
    cases data with
    | none => cases hd
    | some d' =>
      obtain rfl := List.mem_singleton.mp hd
      exact writeAll_not_pong hw
  next => cases hd

theorem Sent.cut_not_pong {d : Sent} (h : d.isPong = false) (taken : Nat) :
    ∀ x ∈ d.cut taken, x.isPong = false := by
  cases d with
  | raw buf =>
    intro x hx
    obtain rfl := List.mem_singleton.mp hx
    rfl
  | text stanza => exact fun x hx => nomatch hx
  | pong data => cases h

/-- How a write can go: all of it is there, or a part of it before an error. -/
inductive Sending (wr : StanzaWrite) (trace isC2s : Bool) (u : Bytes × Nat) : Outcome Unit → List Sent → Prop where
  | all {o : Outcome Unit} : Sending wr trace isC2s u o (wr.data trace isC2s u)
  | cut {d : Sent} (taken : Nat) : wr.data trace isC2s u = [d] → Sending wr trace isC2s u (.err .io) (d.cut taken)

theorem sending (wr : StanzaWrite) (trace isC2s : Bool) (buf : Bytes) (e : Nat) (res : WriteResult) :
    Sending wr trace isC2s (buf, e) (wr.send trace isC2s buf e res).1 (wr.send trace isC2s buf e res).2 := by
  have hall : ∀ {sent : List Sent} (o : Outcome Unit), wr.data trace isC2s (buf, e) = sent →
      Sending wr trace isC2s (buf, e) o sent := by
    rintro sent o rfl
    exact .all
  have hdata : ∀ r, wr.writeAll trace isC2s buf e = .ok r → wr.data trace isC2s (buf, e) = r.toList := by
    intro r hr
    unfold StanzaWrite.data
    rw [hr]
  unfold StanzaWrite.send
  cases hw : wr.writeAll trace isC2s buf e with
  | ok data =>
    cases res with
    | done => exact hall _ (hdata _ hw)
    | flushFailed => exact hall _ (hdata _ hw)
    | cut taken =>
      cases data with
      | none => exact hall _ (hdata _ hw)
      | some d => exact .cut taken (hdata _ hw)
  | err err =>
    apply hall
    unfold StanzaWrite.data
    rw [hw]
  | panic =>
    apply hall
    unfold StanzaWrite.data
    rw [hw]

theorem Sending.whole {u : Bytes × Nat} {o : Outcome Unit} {sent : List Sent}
    (h : Sending wr trace isC2s u o sent) (ho : o = .ok ()) : sent = wr.data trace isC2s u := by
  cases h with
  | all => rfl
  | cut => cases ho

theorem Sending.not_pong {u : Bytes × Nat} {o : Outcome Unit} {sent : List Sent}
    (h : Sending wr trace isC2s u o sent) : ∀ x ∈ sent, x.isPong = false := by
  cases h with
  | all => exact data_not_pong u
  | @cut d taken hd => exact d.cut_not_pong (data_not_pong u d (hd ▸ List.mem_singleton_self d)) taken

end

theorem poll_sent (rd : StanzaRead) (wrt : StanzaWrite) (f : StanzaFilter) (p : rd.Poll) (res : WriteResult) :
    ∀ x ∈ (rd.poll wrt f p res).sent, x.isPong = true := by
  have hnone : ∀ x ∈ ([] : List Sent), x.isPong = true := fun x hx => nomatch hx
  cases rd with
  | asyncRead =>
    have hp := bytesPolled f p
    change ∀ x ∈ (StanzaRead.pollBytes f p).sent, _
    generalize StanzaRead.pollBytes f p = polled at hp
    cases hp <;> exact hnone
  | webSocketRead =>
    change ∀ x ∈ (StanzaRead.pollMessage wrt f res p).sent, _
    unfold StanzaRead.pollMessage
    split
    case h_2 =>
      dsimp only
      split
      · exact hnone
      · exact hnone
    case h_3 data =>
      have hone : ∀ x ∈ [Sent.pong data], x.isPong = true := by
        intro x hx
        rw [List.mem_singleton.mp hx]
        rfl
      cases wrt with
      | asyncWrite => exact hnone
      | webSocketClientWrite =>
        cases res with
        | done => exact hone
        | cut taken => exact hnone
        | flushFailed => exact hone
    all_goals exact hnone

theorem pongs_of_all {sent : List Sent} (h : ∀ x ∈ sent, x.isPong = true) :
    pongs sent = sent ∧ stanzasSent sent = [] := by
  refine ⟨List.filter_eq_self.mpr h, List.filter_eq_nil_iff.mpr fun x hx => ?_⟩
  rw [h x hx]
  exact Bool.false_ne_true

theorem stanzasSent_of_none {sent : List Sent} (h : ∀ x ∈ sent, x.isPong = false) :
    stanzasSent sent = sent ∧ pongs sent = [] := by
  constructor
  · refine List.filter_eq_self.mpr fun x hx => ?_
    rw [h x hx]
    rfl
  · refine List.filter_eq_nil_iff.mpr fun x hx => ?_
    rw [h x hx]
    exact Bool.false_ne_true

/-- Of the stanzas `us` behind `base`, all are sent, or a write that failed has cut the last one. -/
inductive Handed (wr : StanzaWrite) (trace isC2s : Bool) (base : List Sent) (us : List (Bytes × Nat)) :
    Status → List Sent → Prop where
  | all {st : Status} : Handed wr trace isC2s base us st (base ++ wr.written trace isC2s us)
  | cut {us' : List (Bytes × Nat)} {u : Bytes × Nat} {d : Sent} (taken : Nat) : us = us' ++ [u] →
      wr.data trace isC2s u = [d] →
      Handed wr trace isC2s base us (.failed .io) (base ++ wr.written trace isC2s us' ++ d.cut taken)

section

variable {wr : StanzaWrite} {trace isC2s : Bool} {base sent : List Sent} {us : List (Bytes × Nat)}
  {st : Status}

theorem Handed.whole (h : Handed wr trace isC2s base us st sent) (hst : st ≠ .failed .io) :
    sent = base ++ wr.written trace isC2s us := by
  cases h with
  | all => rfl
  | cut => exact absurd rfl hst

theorem Handed.nil (st : Status) (base : List Sent) : Handed wr trace isC2s base [] st base := by
  have h : Handed wr trace isC2s base [] st (base ++ wr.written trace isC2s []) := .all
  rwa [show wr.written trace isC2s [] = [] from rfl, List.append_nil] at h

theorem Handed.quiet (h : Handed wr trace isC2s base us .running sent) (st : Status) :
    Handed wr trace isC2s base us st sent := by
  rw [h.whole (by simp)]
  exact .all

theorem Handed.send {u : Bytes × Nat} {o : Outcome Unit} {sent' : List Sent}
    (h : Handed wr trace isC2s base us .running sent) (hs : Sending wr trace isC2s u o sent')
    (hst : ∀ err, o = .err err → st = .failed err) :
    Handed wr trace isC2s base (us ++ [u]) st (sent ++ sent') := by
  rw [h.whole (by simp)]
  cases hs with
  | all =>
    rw [List.append_assoc, ← written_singleton, ← written_append]
    exact .all
  | cut taken hd =>
    rw [hst _ rfl]
    exact .cut taken rfl hd

end

section

variable {rd : StanzaRead} {myWr otherWr : StanzaWrite} {trace isC2s : Bool} {me other : Side}
  {p : rd.Poll} {res : WriteResult}

inductive Answers (wr : StanzaWrite) (trace isC2s : Bool) (turn : PollResult) (st : Status) :
    List Sent → Prop where
  | quiet : turn.stanza? = none → Answers wr trace isC2s turn st []
  | stanza {u : Bytes × Nat} {o : Outcome Unit} {sent : List Sent} : turn.stanza? = some u →
      Sending wr trace isC2s u o sent → (∀ err, o = .err err → st = .failed err) →
      Answers wr trace isC2s turn st sent

theorem Branched.answers {x : Report × Side × Side × Status}
    (h : Branched rd myWr otherWr trace isC2s me other p res x) :
    x.2.1.sent = me.sent ++ (rd.poll myWr me.filter p res).sent ∧
      ∃ sent, x.2.2.1.sent = other.sent ++ sent ∧
        Answers otherWr trace isC2s (rd.poll myWr me.filter p res).turn x.2.2.2 sent := by
  have hsending : ∀ {buf : Bytes} {e : Nat} {o : Outcome Unit} {sent : List Sent},
      otherWr.send trace isC2s buf e res = (o, sent) → Sending otherWr trace isC2s (buf, e) o sent := by
    intro buf e o sent hs
    have hall := sending otherWr trace isC2s buf e res
    rwa [hs] at hall
  have hturn : ∀ {r : Option (Outcome (Option (Bytes × Nat)))}, (rd.poll myWr me.filter p res).result = r →
      (rd.poll myWr me.filter p res).turn = (r, (rd.poll myWr me.filter p res).sent) := by
    rintro r rfl
    rfl
  cases h with
  | quiet hr => exact ⟨rfl, [], (List.append_nil _).symm, .quiet (by rw [hturn hr]; rfl)⟩
  | panicked hr => exact ⟨rfl, [], (List.append_nil _).symm, .quiet (by rw [hturn hr]; rfl)⟩
  | rejected hr _ => exact ⟨rfl, [], (List.append_nil _).symm, .quiet (by rw [hturn hr]; rfl)⟩
  | closed hr => exact ⟨rfl, [], (List.append_nil _).symm, .quiet (by rw [hturn hr]; rfl)⟩
  | forwarded hr hs =>
    exact ⟨rfl, _, rfl, .stanza (by rw [hturn hr]; rfl) (hsending hs) (by simp)⟩
  | failed hr hs =>
    refine ⟨rfl, _, rfl, .stanza (by rw [hturn hr]; rfl) (hsending hs) fun err' he => ?_⟩
    rw [Outcome.err.inj he]
  | crashed hr hs =>
    exact ⟨rfl, _, rfl, .stanza (by rw [hturn hr]; rfl) (hsending hs) (by simp)⟩

theorem Branched.noPanic {x : Report × Side × Side × Status}
    (h : Branched rd myWr otherWr trace isC2s me other p res x) (hst : x.2.2.2 ≠ .panicked) :
    (rd.poll myWr me.filter p res).result ≠ some .panic := by
  cases h with
  | panicked => exact absurd rfl hst
  | crashed => exact absurd rfl hst
  | quiet hr => simp [hr]
  | rejected hr _ => simp [hr]
  | closed hr => simp [hr]
  | forwarded hr _ => simp [hr]
  | failed hr _ => simp [hr]

theorem Answers.pongs {wr : StanzaWrite} {turn : PollResult} {st : Status} {sent : List Sent}
    (h : Answers wr trace isC2s turn st sent) : stanzasSent sent = sent ∧ XmppProxy.pongs sent = [] := by
  cases h with
  | quiet => exact ⟨rfl, rfl⟩
  | stanza _ hs _ => exact stanzasSent_of_none hs.not_pong

theorem Answers.handed {wr : StanzaWrite} {turn : PollResult} {st : Status} {base sent sent' : List Sent}
    {us : List (Bytes × Nat)} (h : Answers wr trace isC2s turn st sent')
    (hs : Handed wr trace isC2s base us .running sent) :
    Handed wr trace isC2s base (us ++ read [turn]) st (sent ++ sent') := by
  cases h with
  | quiet hnone =>
    have hread : read [turn] = [] := by rw [read, List.filterMap_cons, hnone, List.filterMap_nil]
    rw [hread, List.append_nil, List.append_nil]
    exact hs.quiet st
  | @stanza u o _ hu hsend hst =>
    have hread : read [turn] = [u] := by rw [read, List.filterMap_cons, hu, List.filterMap_nil]
    rw [hread]
    exact hs.send hsend hst

end

section

variable {c : ShuffleConfig}

def readers (c : ShuffleConfig) :
    Machine (Peer → StanzaFilter) (Σ peer : Peer, (peer.rd c).Poll × WriteResult) (Σ _ : Peer, PollResult) :=
  Machine.sideBySide fun peer => (peer.rd c).next (peer.wr c)

def Shuffle.filters (s : Shuffle) (peer : Peer) : StanzaFilter := (peer.side s).filter

def polls (run : List (Shuffle × Event c)) : List (Σ peer : Peer, (peer.rd c).Poll × WriteResult) :=
  run.filterMap fun x => if x.2.Polled x.1 then some ⟨x.2.peer, x.2.poll, x.2.res⟩ else none

theorem polls_append (xs ys : List (Shuffle × Event c)) : polls (xs ++ ys) = polls xs ++ polls ys :=
  List.filterMap_append

theorem polls_polled {s : Shuffle} {ev : Event c} (h : ev.Polled s) :
    polls [(s, ev)] = [⟨ev.peer, ev.poll, ev.res⟩] := by
  unfold polls
  rw [List.filterMap_cons, if_pos h]
  rfl

theorem polls_not_polled {s : Shuffle} {ev : Event c} (h : ¬ ev.Polled s) : polls [(s, ev)] = [] := by
  unfold polls
  rw [List.filterMap_cons, if_neg h]
  rfl

/-- The loop `s` that began as `s₀`, against the readers after the polls `done`. -/
structure Relays (c : ShuffleConfig) (s₀ : Shuffle)
    (done : List (Σ peer : Peer, (peer.rd c).Poll × WriteResult)) (s : Shuffle) : Prop where
  filters : s.filters = (readers c).final s₀.filters done
  handed : ∀ peer : Peer, Handed (peer.other.wr c) c.trace c.isC2s (stanzasSent (peer.other.side s₀).sent)
    (read (own peer ((readers c).outputs s₀.filters done))) s.status (stanzasSent (peer.other.side s).sent)
  pongs : ∀ peer : Peer, pongs (peer.side s).sent = pongs (peer.side s₀).sent ++
    answered (own peer ((readers c).outputs s₀.filters done))
  noPanic : s.status ≠ .panicked →
    ∀ peer : Peer, ∀ r ∈ own peer ((readers c).outputs s₀.filters done), r.1 ≠ some .panic

theorem relays_start (c : ShuffleConfig) (s₀ : Shuffle) : Relays c s₀ [] s₀ where
  filters := rfl
  handed _ := .nil _ _
  pongs _ := (List.append_nil _).symm
  noPanic _ _ _ hr := nomatch hr

variable {s₀ s : Shuffle} {done : List (Σ peer : Peer, (peer.rd c).Poll × WriteResult)}

theorem readers_step (f : Peer → StanzaFilter) (ev : Event c) :
    (readers c).step f ⟨ev.peer, ev.poll, ev.res⟩ =
      (⟨ev.peer, ((ev.peer.rd c).poll (ev.peer.wr c) (f ev.peer) ev.poll ev.res).turn⟩,
        Function.update f ev.peer ((ev.peer.rd c).poll (ev.peer.wr c) (f ev.peer) ev.poll ev.res).filter) :=
  rfl

theorem Relays.step (h : Relays c s₀ done s) (ev : Event c) :
    Relays c s₀ (done ++ polls [(s, ev)]) (Shuffle.step c s ev).2 := by
  by_cases hp : ev.Polled s
  swap
  · rw [Shuffle.step_not_polled hp, polls_not_polled hp, List.append_nil]
    exact h
  have hb := ev.branched s
  obtain ⟨hme, sent, hother, hanswers⟩ := hb.answers
  obtain ⟨hpongs, hstanzas⟩ := pongs_of_all
    (poll_sent (ev.peer.rd c) (ev.peer.wr c) (ev.peer.side s).filter ev.poll ev.res)
  have houts : (readers c).outputs s₀.filters (done ++ [⟨ev.peer, ev.poll, ev.res⟩]) =
      (readers c).outputs s₀.filters done ++
        [⟨ev.peer, ((ev.peer.rd c).poll (ev.peer.wr c) (ev.peer.side s).filter ev.poll ev.res).turn⟩] := by
    rw [Machine.outputs_concat, ← h.filters, readers_step]
    rfl
  rw [Shuffle.step_polled hp, polls_polled hp]
  refine ⟨?_, fun peer => ?_, fun peer => ?_, fun hst peer r hr => ?_⟩
  · rw [Machine.final_concat, ← h.filters, readers_step]
    funext peer
    dsimp only [Shuffle.filters]
    rcases ev.peer.eq_or_other peer with rfl | rfl
    · rw [Function.update_self, Shuffle.side_of]
      exact hb.filters.1
    · rw [Function.update_of_ne ev.peer.other_ne, Shuffle.other_side_of]
      exact hb.filters.2
  · have hrun := h.handed peer
    rw [hp.1] at hrun
    rw [houts, own_append, read_append, Shuffle.status_of]
    rcases ev.peer.eq_or_other peer with rfl | rfl
    · rw [own_cons_self, own_nil, Shuffle.other_side_of, hother, stanzasSent_append, hanswers.pongs.1]
      exact hanswers.handed hrun
    · rw [own_cons_ne ev.peer.other_ne.symm, own_nil, Peer.other_other, Shuffle.side_of, hme,
        stanzasSent_append, hstanzas, List.append_nil]
      rw [Peer.other_other] at hrun
      exact (List.append_nil _).symm ▸ hrun.quiet _
  · rw [houts, own_append, answered_append, ← List.append_assoc, ← h.pongs peer]
    rcases ev.peer.eq_or_other peer with rfl | rfl
    · rw [own_cons_self, own_nil, Shuffle.side_of, hme, pongs_append, hpongs]
      exact congrArg _ (List.flatMap_singleton ..).symm
    · rw [own_cons_ne ev.peer.other_ne.symm, own_nil, Shuffle.other_side_of, hother, pongs_append,
        hanswers.pongs.2]
      rfl
  · rw [houts, own_append] at hr
    have hbefore := h.noPanic (by rw [hp.1]; simp) peer
    rcases List.mem_append.mp hr with hr | hr
    · exact hbefore r hr
    · rcases ev.peer.eq_or_other peer with rfl | rfl
      · rw [own_cons_self, own_nil, List.mem_singleton] at hr
        rw [hr]
        rw [Shuffle.status_of] at hst
        exact hb.noPanic hst
      · rw [own_cons_ne ev.peer.other_ne.symm, own_nil] at hr
        cases hr

theorem relays_run (c : ShuffleConfig) (s₀ : Shuffle) (evs : List (Event c)) :
    Relays c s₀ (polls ((shuffleRdWrFilterOnly c).trace s₀ evs)) ((shuffleRdWrFilterOnly c).final s₀ evs) := by
  induction evs using List.reverseRecOn with
  | nil => exact relays_start c s₀
  | append_singleton evs ev ih =>
    rw [Machine.trace_concat, Machine.final_concat, polls_append]
    exact ih.step ev

/-- What the loop `s` that began as `s₀` has made of the polls `ps` of the reader of `peer`. -/
structure CarriesOver (c : ShuffleConfig) (s₀ s : Shuffle) (peer : Peer)
    (ps : List ((peer.rd c).Poll × WriteResult)) : Prop where
  /-- The other peer is sent the stanzas that the reader returns by itself, as the writer converts them. -/
  handed : Handed (peer.other.wr c) c.trace c.isC2s (stanzasSent (peer.other.side s₀).sent)
    (read (((peer.rd c).next (peer.wr c)).outputs (peer.side s₀).filter ps)) s.status
    (stanzasSent (peer.other.side s).sent)
  /-- The peer itself is sent the pongs. -/
  pongs : pongs (peer.side s).sent = pongs (peer.side s₀).sent ++
    answered (((peer.rd c).next (peer.wr c)).outputs (peer.side s₀).filter ps)
  noPanic : s.status ≠ .panicked →
    ∀ r ∈ ((peer.rd c).next (peer.wr c)).outputs (peer.side s₀).filter ps, r.1 ≠ some .panic
  filter : (peer.side s).filter = ((peer.rd c).next (peer.wr c)).final (peer.side s₀).filter ps

theorem Relays.carriesOver (h : Relays c s₀ done s) (peer : Peer) :
    CarriesOver c s₀ s peer (own peer done) := by
  have houts := Machine.outputs_sideBySide (fun peer : Peer => (peer.rd c).next (peer.wr c)) done
    s₀.filters peer
  have hfinal := Machine.final_sideBySide (fun peer : Peer => (peer.rd c).next (peer.wr c)) done
    s₀.filters peer
  obtain ⟨hfilters, hhanded, hpongs, hno⟩ := h
  refine ⟨?_, ?_, fun hst => ?_, (congrFun hfilters peer).trans hfinal⟩
  · have hh := hhanded peer
    rw [readers, houts] at hh
    exact hh
  · have hh := hpongs peer
    rw [readers, houts] at hh
    exact hh
  · have hh := hno hst peer
    rw [readers, houts] at hh
    exact hh

/-- Over any transports and in any order of polls, a peer is sent the stanzas that the reader of the other
one returns when it runs by itself on the polls that reach it, as the writer converts them, in order, and
the pongs that its own reader sends; only a write that fails may cut the last stanza. -/
theorem shuffle_relays (c : ShuffleConfig) (s₀ : Shuffle) (evs : List (Event c)) (peer : Peer) :
    CarriesOver c s₀ ((shuffleRdWrFilterOnly c).final s₀ evs) peer
      (own peer (polls ((shuffleRdWrFilterOnly c).trace s₀ evs))) :=
  (relays_run c s₀ evs).carriesOver peer

end

end XmppProxy
