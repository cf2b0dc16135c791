import XmppProxy.Lib.Occurrences
import XmppProxy.Proxy.Framing

/-! Which stream headers, as `stream_preamble` puts them together, `write_all` can send over a WebSocket:
it skips up to the second `<` only, whatever declarations there are. -/

namespace XmppProxy

open Lib Stanza

def Accumulated : Preamble → Prop
  | .reading _ streamOpen => ∃ decls : List Bytes, streamOpen = decls.flatten ∧ ∀ d ∈ decls, declTag <+: d
  | .accepted _ streamOpen _ => ∃ (decls : List Bytes) (header : Bytes),
      streamOpen = decls.flatten ++ header ∧ (∀ d ∈ decls, declTag <+: d) ∧ streamTag <+: header
  | _ => True

theorem accumulated_step {rd : StanzaRead} {wrt : StanzaWrite} (p : Preamble)
    (poll : rd.Poll × WriteResult) (h : Accumulated p) :
    Accumulated (p.step rd wrt poll.1 poll.2).2 := by
  cases p with
  | accepted f streamOpen isC2s => exact h
  | failed f e => exact h
  | panicked f => exact h
  | reading f streamOpen =>
    obtain ⟨decls, rfl, hd⟩ := h
    unfold Preamble.step
    dsimp only
    generalize rd.poll wrt f poll.1 poll.2 = polled
    obtain ⟨_ | (_ | ⟨buf, e⟩) | err | _, f', sent⟩ := polled
    · exact ⟨decls, rfl, hd⟩
    · trivial
    · dsimp only
      by_cases hdecl : declTag <+: buf
      · rw [if_pos hdecl]
        refine ⟨decls ++ [buf], ?_, fun d hd' => ?_⟩
        · rw [List.flatten_append, List.flatten_singleton]
        · rcases List.mem_append.mp hd' with hd' | hd'
          · exact hd d hd'
          · exact List.mem_singleton.mp hd' ▸ hdecl
      rw [if_neg hdecl]
      by_cases hh : streamTag <+: buf
      · rw [if_pos hh]
        exact ⟨decls, buf, rfl, hd, hh⟩
      · rw [if_neg hh]
        trivial
    · trivial
    · trivial

theorem accumulated_run {rd : StanzaRead} (wrt : StanzaWrite) (f : StanzaFilter)
    (polls : List (rd.Poll × WriteResult)) :
    Accumulated ((streamPreamble rd wrt).final (.reading f []) polls) := by
  have hstart : Accumulated (.reading f []) := ⟨[], rfl, fun _ hd => absurd hd List.not_mem_nil⟩
  exact Machine.invariant (m := streamPreamble rd wrt) accumulated_step hstart polls

/-- Without declarations `v` is all there is. Otherwise the first one has no `<` in front of `v`. -/
def Skipped (streamOpen v : Bytes) : Prop :=
  streamOpen = v ∨ ∃ w, streamOpen = declTag ++ w ++ v ∧ lt ∉ w

/-- The stream tag alone, or behind one declaration: `v` starts the stream, and holds no declaration. -/
def Sendable (streamOpen : Bytes) : Prop :=
  ∃ v, Skipped streamOpen v ∧ streamTag <+: v ∧ ¬ declTag <:+: v

def SendsOpen (r : Outcome (Option Sent)) : Prop :=
  ∃ t, r = .ok (some (.text t)) ∧ openTag <+: t ∧ ¬ declTag <:+: t

theorem declTag_openFrame {v : Bytes} : declTag <:+: openFrame v ↔ declTag <:+: v := by
  unfold openFrame
  rw [infix_replaceSymbol_iff (by decide) (by decide) (by decide),
    infix_replaceAll_iff (by decide) (by decide) (by decide),
    infix_replaceAll_iff (by decide) (by decide) (by decide),
    infix_replaceAll_iff (by decide) (by decide) (by decide)]

section

variable {trace isC2s : Bool} {v streamOpen : Bytes} {e : Nat}

theorem toWsNew_header (hv : Utf8.Valid v) (htag : streamTag <+: v) :
    toWsNew v e isC2s = .ok (openFrame v) := by
  unfold toWsNew
  rw [if_pos htag, fromUtf8_of_valid hv]
  rfl

theorem sendsOpen_header (hv : Utf8.Valid v) (htag : streamTag <+: v) :
    SendsOpen (do return some (.text (← toWsNew v e isC2s))) ↔ ¬ declTag <:+: v := by
  rw [toWsNew_header hv htag]
  constructor
  · rintro ⟨t, ht, -, hdecl⟩
    obtain rfl := Sent.text.inj (Option.some.inj (Outcome.ok.inj ht))
    rwa [declTag_openFrame] at hdecl
  · intro hdecl
    exact ⟨_, rfl, openFrame_isPrefix htag, mt declTag_openFrame.mp hdecl⟩

theorem not_sendsOpen (htag : ¬ streamTag <+: v) (he : v.length < e) :
    ¬ SendsOpen (do return some (.text (← toWsNew v e isC2s))) := by
  rintro ⟨t, ht, hopen, -⟩
  unfold toWsNew at ht
  rw [if_neg htag, if_neg (Nat.ne_of_gt (Nat.zero_lt_of_lt he))] at ht
  by_cases hclose : bytes "</stream:stream" <+: v
  · rw [if_pos hclose] at ht
    obtain rfl := Sent.text.inj (Option.some.inj (Outcome.ok.inj ht))
    exact absurd hopen (by decide)
  · have hout : v[e - 1]? = none := List.getElem?_eq_none (by omega)
    rw [if_neg hclose, hout] at ht
    cases ht

theorem writeAll_plain (hd : ¬ declTag <+: streamOpen) :
    StanzaWrite.webSocketClientWrite.writeAll trace isC2s streamOpen e =
      (do return some (.text (← toWsNew streamOpen e isC2s))) := if_neg hd

theorem writeAll_skipped {w : Bytes} (hw : lt ∉ w) (hv : v.head? = some lt) :
    StanzaWrite.webSocketClientWrite.writeAll trace isC2s (declTag ++ w ++ v) e =
      (do return some (.text (← toWsNew v e isC2s))) := by
  obtain ⟨v, rfl⟩ := List.head?_eq_some_iff.mp hv
  have hfirst : firstIndexOf (w ++ lt :: v) (bytes "<") = .ok w.length :=
    firstIndexOf_eq_ok.mpr (leftmost_singleton hw v)
  have hpre : declTag <+: declTag ++ w ++ lt :: v := by
    rw [List.append_assoc]
    exact List.prefix_append _ _
  unfold StanzaWrite.writeAll
  dsimp only
  rw [if_pos hpre, List.append_assoc, List.drop_left, hfirst]
  dsimp only
  rw [List.drop_left]

theorem skipped_unique {w w' v v' : Bytes} (hw : lt ∉ w) (hw' : lt ∉ w') (hv : v.head? = some lt)
    (hv' : v'.head? = some lt) (h : w ++ v = w' ++ v') : v = v' := by
  obtain ⟨v, rfl⟩ := List.head?_eq_some_iff.mp hv
  obtain ⟨v', rfl⟩ := List.head?_eq_some_iff.mp hv'
  have hfirst := firstIndexOf_eq_ok.mpr (leftmost_singleton hw v)
  have hfirst' := firstIndexOf_eq_ok.mpr (leftmost_singleton hw' v')
  rw [h, hfirst'] at hfirst
  exact (List.append_inj h (Outcome.ok.inj hfirst).symm).2

theorem head_of_streamTag (h : streamTag <+: v) : v.head? = some lt := by
  obtain ⟨r, rfl⟩ := h
  rfl

/-- Behind a declaration, the text from the next `<` on decides. -/
theorem sendsOpen_declared {w : Bytes} (hw : lt ∉ w) (hv : v.head? = some lt) (hutf8 : Utf8.Valid v) :
    (SendsOpen (StanzaWrite.webSocketClientWrite.writeAll trace isC2s (declTag ++ w ++ v)
        (declTag ++ w ++ v).length) ∧
      SendsOpen (StanzaWrite.webSocketClientWrite.writeAll trace isC2s (declTag ++ w ++ v) 0)) ↔
    streamTag <+: v ∧ ¬ declTag <:+: v := by
  rw [writeAll_skipped hw hv, writeAll_skipped hw hv]
  by_cases htag : streamTag <+: v
  · rw [sendsOpen_header hutf8 htag, sendsOpen_header hutf8 htag]
    exact ⟨fun h => ⟨htag, h.1⟩, fun h => ⟨h.2, h.2⟩⟩
  · refine ⟨fun h => absurd h.1 (not_sendsOpen htag ?_), fun h => absurd h.1 htag⟩
    have hdecl : 0 < declTag.length := by decide
    rw [List.length_append, List.length_append]
    omega

theorem sendable_declared {w : Bytes} (hw : lt ∉ w) (hv : v.head? = some lt) :
    Sendable (declTag ++ w ++ v) ↔ streamTag <+: v ∧ ¬ declTag <:+: v := by
  constructor
  · rintro ⟨v', rfl | ⟨w', h, hw'⟩, htag, hdecl⟩
    · rw [List.append_assoc] at htag
      exact absurd (List.prefix_append _ _) (stream_not_decl htag)
    · rw [List.append_assoc, List.append_assoc] at h
      obtain rfl := skipped_unique hw hw' hv (head_of_streamTag htag) (List.append_cancel_left h)
      exact ⟨htag, hdecl⟩
  · rintro ⟨htag, hdecl⟩
    exact ⟨v, .inr ⟨w, rfl, hw⟩, htag, hdecl⟩

end

/-- A header that the preamble has accepted is sent as one `<open` without a declaration, with its mark
or without one, exactly when the text behind the declaration that it may begin with starts the stream at
its first `<` and holds no further declaration. -/
theorem header_sent_iff (wrt : StanzaWrite) (f : StanzaFilter) {f' : StanzaFilter}
    {streamOpen : Bytes} {isC2s : Bool} (polls : List (StanzaRead.asyncRead.Poll × WriteResult)) (trace : Bool)
    (hrun : (streamPreamble .asyncRead wrt).final (.reading f []) polls = .accepted f' streamOpen isC2s)
    (hutf8 : Utf8.Valid streamOpen) :
    (SendsOpen (StanzaWrite.webSocketClientWrite.writeAll trace isC2s streamOpen streamOpen.length) ∧
      SendsOpen (StanzaWrite.webSocketClientWrite.writeAll trace isC2s streamOpen 0)) ↔
    Sendable streamOpen := by
  have hacc := accumulated_run wrt f polls
  rw [hrun] at hacc
  obtain ⟨decls, header, rfl, hdecls, htag⟩ := hacc
  cases decls with
  | nil =>
    rw [List.flatten_nil, List.nil_append] at hutf8 ⊢
    have hplain := stream_not_decl htag
    rw [writeAll_plain hplain, writeAll_plain hplain, sendsOpen_header hutf8 htag,
      sendsOpen_header hutf8 htag]
    constructor
    · exact fun h => ⟨header, .inl rfl, htag, h.1⟩
    · rintro ⟨v, rfl | ⟨w, rfl, -⟩, -, hdecl⟩
      · exact ⟨hdecl, hdecl⟩
      · rw [List.append_assoc] at hplain
        exact absurd (List.prefix_append _ _) hplain
  | cons d ds =>
    obtain ⟨d', rfl⟩ := hdecls d (List.mem_cons_self ..)
    have hmem : lt ∈ d' ++ (ds.flatten ++ header) := by
      obtain ⟨r, rfl⟩ := htag
      exact List.mem_append_right _ (List.mem_append_right _ (List.mem_cons_self ..))
    obtain ⟨w, v, hsplit, hw⟩ := List.eq_append_cons_of_mem hmem
    have hopen : ((declTag ++ d') :: ds).flatten ++ header = declTag ++ w ++ lt :: v := by
      rw [List.flatten_cons, List.append_assoc, List.append_assoc, hsplit, List.append_assoc]
    rw [hopen] at hutf8 ⊢
    rw [sendsOpen_declared hw rfl (hutf8.cut (by decide)).2, sendable_declared hw rfl]

def arriving (bs : Bytes) : List (StanzaRead.asyncRead.Poll × WriteResult) :=
  bs.map fun b => (.byte b, .done)

theorem header_sent_plain :
    (SendsOpen (StanzaWrite.webSocketClientWrite.writeAll false true
        (bytes "<?xml ?><stream:stream xmlns='jabber:client'>") 45) ∧
      SendsOpen (StanzaWrite.webSocketClientWrite.writeAll false true
        (bytes "<?xml ?><stream:stream xmlns='jabber:client'>") 0)) ↔
    Sendable (bytes "<?xml ?><stream:stream xmlns='jabber:client'>") :=
  header_sent_iff .asyncWrite (.new 64)
    (arriving (bytes "<?xml ?><stream:stream xmlns='jabber:client'>")) false rfl (by decide)

/-- Two declarations are accepted; the mark then lies behind what is left of the header. -/
theorem header_panics :
    ¬ ∀ (n : Nat) (bs : Bytes) f streamOpen isC2s,
      (streamPreamble .asyncRead .asyncWrite).final (.reading (.new n) []) (arriving bs) =
          .accepted f streamOpen isC2s → Utf8.Valid streamOpen →
        SendsOpen (StanzaWrite.webSocketClientWrite.writeAll false isC2s streamOpen
          streamOpen.length) := by
  intro h
  have hpanic : StanzaWrite.webSocketClientWrite.writeAll false false
      (bytes "<?xml ?><?xml ?><stream:stream >") 32 = .panic := by decide
  obtain ⟨t, ht, -⟩ := h 64 (bytes "<?xml ?><?xml ?><stream:stream >") _
    (bytes "<?xml ?><?xml ?><stream:stream >") false rfl (by decide)
  cases hpanic.symm.trans ht

end XmppProxy
