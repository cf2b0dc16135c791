import XmppProxy.Proxy.Carryover
import XmppProxy.Proxy.Relay

/-! What the two kinds of reader return by themselves: the stanzas of a byte stream with their marks, or the
texts of a WebSocket, converted. -/

namespace XmppProxy

open Lib Stanza

/-- Over a WebSocket the filter is scratch space. -/
def SameReading : StanzaRead → StanzaFilter → StanzaFilter → Prop
  | .asyncRead, f, g => Twin f g
  | .webSocketRead, f, g => f.bufSize = g.bufSize

theorem pollMessage_sameReading {f g : StanzaFilter} (h : f.bufSize = g.bufSize) (wrt : StanzaWrite)
    (res : WriteResult) (p : MessagePoll) :
    (StanzaRead.pollMessage wrt f res p).turn = (StanzaRead.pollMessage wrt g res p).turn ∧
      (StanzaRead.pollMessage wrt f res p).filter.bufSize =
        (StanzaRead.pollMessage wrt g res p).filter.bufSize := by
  cases p with
  | pending => exact ⟨rfl, h⟩
  | ended => exact ⟨rfl, h⟩
  | failed => exact ⟨rfl, h⟩
  | message m =>
    cases m with
    | text stanza =>
      unfold StanzaRead.pollMessage
      dsimp only
      by_cases hlen : (fromWs stanza).length ≤ f.bufSize
      · rw [dif_pos hlen, dif_pos (h ▸ hlen)]
        exact ⟨rfl, h⟩
      · rw [dif_neg hlen, dif_neg (h ▸ hlen)]
        exact ⟨rfl, h⟩
    | ping data =>
      unfold StanzaRead.pollMessage
      cases wrt with
      | asyncWrite => exact ⟨rfl, h⟩
      | webSocketClientWrite => cases res <;> exact ⟨rfl, h⟩
    | close => exact ⟨rfl, h⟩
    | pong => exact ⟨rfl, h⟩
    | binary => exact ⟨rfl, h⟩

theorem sameReading_next (rd : StanzaRead) (wrt : StanzaWrite) :
    (rd.next wrt).Simulates (rd.next wrt) (SameReading rd) Eq := by
  rintro f g ⟨p, res⟩ h
  cases rd with
  | asyncRead =>
    have hp := Twin.poll h p
    exact ⟨Prod.ext hp.result hp.sent, hp.filter⟩
  | webSocketRead => exact pollMessage_sameReading h wrt res p

def bytesNext : Machine StanzaFilter (BytePoll × WriteResult) PollResult :=
  ⟨fun f p => ((StanzaRead.pollBytes f p.1).turn, (StanzaRead.pollBytes f p.1).filter)⟩

def bytesOf (ps : List (BytePoll × WriteResult)) : Bytes := ps.flatMap fun p => p.1.byte?.toList

def marked (os : List (Outcome (Option (Bytes × Nat)))) : List (Bytes × Nat) :=
  os.filterMap fun o =>
    match o with
    | .ok u => u
    | _ => none

theorem marked_append (as bs : List (Outcome (Option (Bytes × Nat)))) :
    marked (as ++ bs) = marked as ++ marked bs := List.filterMap_append

theorem pollBytes_byte (f : StanzaFilter) (b : UInt8) :
    read [(StanzaRead.pollBytes f (.byte b)).turn] = marked [(f.nextEoft b).1] ∧
      (StanzaRead.pollBytes f (.byte b)).filter = (f.nextEoft b).2 := by
  by_cases hlt : f.cnt < f.bufSize
  · unfold StanzaRead.pollBytes
    rw [if_pos hlt]
    dsimp only
    generalize f.nextEoft b = x
    obtain ⟨(_ | u) | e | _, f'⟩ := x <;> exact ⟨rfl, rfl⟩
  · unfold StanzaRead.pollBytes StanzaFilter.nextEoft StanzaFilter.next
    rw [if_neg hlt, if_neg hlt]
    exact ⟨rfl, rfl⟩

theorem pollBytes_other (f : StanzaFilter) {p : BytePoll} (hp : p.byte? = none) :
    read [(StanzaRead.pollBytes f p).turn] = [] ∧ (StanzaRead.pollBytes f p).filter = f := by
  unfold StanzaRead.pollBytes
  cases p with
  | byte b => cases hp
  | pending => split <;> exact ⟨rfl, rfl⟩
  | eof => split <;> exact ⟨rfl, rfl⟩
  | failed => split <;> exact ⟨rfl, rfl⟩

theorem read_cons (r : PollResult) (rs : List PollResult) : read (r :: rs) = read [r] ++ read rs :=
  read_append [r] rs

theorem bytesNext_eq (ps : List (BytePoll × WriteResult)) (f : StanzaFilter) :
    read (bytesNext.outputs f ps) = marked (filterNextEoft.outputs f (bytesOf ps)) ∧
      bytesNext.final f ps = filterNextEoft.final f (bytesOf ps) ∧ answered (bytesNext.outputs f ps) = [] := by
  induction ps generalizing f with
  | nil => exact ⟨rfl, rfl, rfl⟩
  | cons p ps ih =>
    obtain ⟨poll, res⟩ := p
    have hstep : bytesNext.step f (poll, res) =
        ((StanzaRead.pollBytes f poll).turn, (StanzaRead.pollBytes f poll).filter) := rfl
    have hbytes : bytesOf ((poll, res) :: ps) = poll.byte?.toList ++ bytesOf ps := List.flatMap_cons
    have hsent : (StanzaRead.pollBytes f poll).turn.2 = [] := by
      have hp := bytesPolled f poll
      generalize StanzaRead.pollBytes f poll = polled at hp
      cases hp <;> rfl
    have hanswered : answered ((StanzaRead.pollBytes f poll).turn ::
        bytesNext.outputs (StanzaRead.pollBytes f poll).filter ps) = [] := by
      rw [answered, List.flatMap_cons, hsent]
      exact (ih _).2.2
    rw [Machine.outputs_cons, Machine.final_cons, hstep, read_cons, hbytes]
    cases hp : poll.byte? with
    | none =>
      obtain ⟨hread, hfilter⟩ := pollBytes_other f hp
      dsimp only
      rw [hfilter] at hanswered ⊢
      rw [hread]
      exact ⟨(ih f).1, (ih f).2.1, hanswered⟩
    | some b =>
      obtain rfl : poll = .byte b := by
        cases poll <;> cases hp
        rfl
      obtain ⟨hread, hfilter⟩ := pollBytes_byte f b
      obtain ⟨hrest, hfinal, -⟩ := ih (f.nextEoft b).2
      dsimp only
      rw [hfilter] at hanswered ⊢
      rw [hread, hrest, hfinal]
      exact ⟨(marked_append [_] _).symm, rfl, hanswered⟩

theorem read_bytes (wrt : StanzaWrite) (ps : List (StanzaRead.asyncRead.Poll × WriteResult)) (f : StanzaFilter) :
    read ((StanzaRead.asyncRead.next wrt).outputs f ps) = marked (filterNextEoft.outputs f (bytesOf ps)) ∧
      (StanzaRead.asyncRead.next wrt).final f ps = filterNextEoft.final f (bytesOf ps) ∧
      answered ((StanzaRead.asyncRead.next wrt).outputs f ps) = [] :=
  bytesNext_eq ps f

def MessagePoll.text? : MessagePoll → Option Bytes
  | .message (.text stanza) => some stanza
  | _ => none

def MessagePoll.ping? : MessagePoll → Option Bytes
  | .message (.ping data) => some data
  | _ => none

def messagesNext : Machine StanzaFilter (MessagePoll × WriteResult) PollResult :=
  ⟨fun f p => ((StanzaRead.pollMessage .webSocketClientWrite f p.2 p.1).turn,
    (StanzaRead.pollMessage .webSocketClientWrite f p.2 p.1).filter)⟩

def texts (ps : List (MessagePoll × WriteResult)) : List Bytes := ps.filterMap fun p => p.1.text?

def pongsFor (ps : List (MessagePoll × WriteResult)) : List Sent :=
  ps.flatMap fun p => p.1.ping?.toList.flatMap fun data => (transmit (some (.pong data)) p.2).2

theorem message_text {f : StanzaFilter} {wrt : StanzaWrite} {res : WriteResult} {t : Bytes}
    (h : (StanzaRead.pollMessage wrt f res (.message (.text t))).turn.1 ≠ some .panic) :
    (fromWs t).length ≤ f.bufSize ∧
      (StanzaRead.pollMessage wrt f res (.message (.text t))).turn = (some (.ok (some (fromWs t, 0))), []) := by
  unfold StanzaRead.pollMessage at h ⊢
  dsimp only at h ⊢
  by_cases hlen : (fromWs t).length ≤ f.bufSize
  · rw [dif_pos hlen]
    exact ⟨hlen, rfl⟩
  · rw [dif_neg hlen] at h
    exact absurd rfl h

theorem message_ping (f : StanzaFilter) (res : WriteResult) (data : Bytes) :
    read [(StanzaRead.pollMessage .webSocketClientWrite f res (.message (.ping data))).turn] = [] ∧
      (StanzaRead.pollMessage .webSocketClientWrite f res (.message (.ping data))).sent =
        (transmit (some (.pong data)) res).2 ∧
      (StanzaRead.pollMessage .webSocketClientWrite f res (.message (.ping data))).filter = f := by
  cases res <;> exact ⟨rfl, rfl, rfl⟩

theorem message_other (f : StanzaFilter) (res : WriteResult) {p : MessagePoll} (ht : p.text? = none)
    (hp : p.ping? = none) :
    read [(StanzaRead.pollMessage .webSocketClientWrite f res p).turn] = [] ∧
      (StanzaRead.pollMessage .webSocketClientWrite f res p).sent = [] ∧
      (StanzaRead.pollMessage .webSocketClientWrite f res p).filter = f := by
  cases p with
  | pending => exact ⟨rfl, rfl, rfl⟩
  | ended => exact ⟨rfl, rfl, rfl⟩
  | failed => exact ⟨rfl, rfl, rfl⟩
  | message m =>
    cases m with
    | text t => cases ht
    | ping data => cases hp
    | close => exact ⟨rfl, rfl, rfl⟩
    | pong => exact ⟨rfl, rfl, rfl⟩
    | binary => exact ⟨rfl, rfl, rfl⟩

theorem message_size (wrt : StanzaWrite) (f : StanzaFilter) (res : WriteResult) (p : MessagePoll) :
    (StanzaRead.pollMessage wrt f res p).filter.bufSize = f.bufSize ∧
      (StanzaRead.pollMessage wrt f res p).filter.cnt = f.cnt := by
  unfold StanzaRead.pollMessage
  split
  case h_2 =>
    dsimp only
    split
    · exact ⟨rfl, rfl⟩
    · exact ⟨rfl, rfl⟩
  case h_3 =>
    cases wrt with
    | asyncWrite => exact ⟨rfl, rfl⟩
    | webSocketClientWrite => cases res <;> exact ⟨rfl, rfl⟩
  all_goals exact ⟨rfl, rfl⟩

/-- A message reader that does not panic returns every text, converted and with the mark zero, each of
which fits the buffer, and answers the pings. -/
theorem messagesNext_eq (ps : List (MessagePoll × WriteResult)) {f : StanzaFilter}
    (h : ∀ r ∈ messagesNext.outputs f ps, r.1 ≠ some .panic) :
    read (messagesNext.outputs f ps) = (texts ps).map (fun t => (fromWs t, 0)) ∧
      (∀ t ∈ texts ps, (fromWs t).length ≤ f.bufSize) ∧ answered (messagesNext.outputs f ps) = pongsFor ps := by
  induction ps generalizing f with
  | nil => exact ⟨rfl, fun t ht => absurd ht List.not_mem_nil, rfl⟩
  | cons p ps ih =>
    obtain ⟨poll, res⟩ := p
    have hstep : messagesNext.step f (poll, res) =
        ((StanzaRead.pollMessage .webSocketClientWrite f res poll).turn,
          (StanzaRead.pollMessage .webSocketClientWrite f res poll).filter) := rfl
    rw [Machine.outputs_cons, hstep] at h ⊢
    obtain ⟨hfirst, hrest⟩ := List.forall_mem_cons.mp h
    obtain ⟨hread, hfits, hanswered⟩ := ih hrest
    dsimp only at hfirst hread hfits hanswered ⊢
    rw [(message_size ..).1] at hfits
    have hpongs : pongsFor ((poll, res) :: ps) =
        (poll.ping?.toList.flatMap fun data => (transmit (some (.pong data)) res).2) ++ pongsFor ps :=
      List.flatMap_cons
    have htexts : texts ((poll, res) :: ps) = poll.text?.toList ++ texts ps := by
      unfold texts
      rw [List.filterMap_cons]
      cases poll.text? <;> rfl
    have hturn : ∀ rs : List PollResult,
        answered ((StanzaRead.pollMessage .webSocketClientWrite f res poll).turn :: rs) =
          (StanzaRead.pollMessage .webSocketClientWrite f res poll).sent ++ answered rs :=
      fun rs => List.flatMap_cons
    rw [read_cons, hread, hturn, hanswered, hpongs, htexts]
    cases ht : poll.text? with
    | some t =>
      obtain rfl : poll = .message (.text t) := by
        cases poll with
        | message m => cases m <;> cases ht; rfl
        | _ => cases ht
      obtain ⟨hlen, hturn'⟩ := message_text hfirst
      have hsent : (StanzaRead.pollMessage .webSocketClientWrite f res (.message (.text t))).sent = [] :=
        congrArg Prod.snd hturn'
      rw [hturn', hsent]
      refine ⟨rfl, fun t' ht' => ?_, rfl⟩
      rcases List.mem_cons.mp ht' with rfl | ht'
      · exact hlen
      · exact hfits t' ht'
    | none =>
      cases hp : poll.ping? with
      | some data =>
        obtain rfl : poll = .message (.ping data) := by
          cases poll with
          | message m => cases m <;> cases hp; rfl
          | _ => cases hp
        obtain ⟨hnone, hsent, -⟩ := message_ping f res data
        rw [hnone, hsent, Option.toList_some, List.flatMap_singleton]
        exact ⟨rfl, hfits, rfl⟩
      | none =>
        obtain ⟨hnone, hsent, -⟩ := message_other f res ht hp
        rw [hnone, hsent]
        exact ⟨rfl, hfits, rfl⟩

theorem read_messages (ps : List (StanzaRead.webSocketRead.Poll × WriteResult)) {f : StanzaFilter}
    (h : ∀ r ∈ (StanzaRead.webSocketRead.next .webSocketClientWrite).outputs f ps, r.1 ≠ some .panic) :
    read ((StanzaRead.webSocketRead.next .webSocketClientWrite).outputs f ps) =
        (texts ps).map (fun t => (fromWs t, 0)) ∧
      (∀ t ∈ texts ps, (fromWs t).length ≤ f.bufSize) ∧
      answered ((StanzaRead.webSocketRead.next .webSocketClientWrite).outputs f ps) = pongsFor ps :=
  messagesNext_eq ps h

end XmppProxy
