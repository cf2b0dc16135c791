import XmppProxy.Proxy.Loop
import XmppProxy.Proxy.RoundTrip

/-! Which stanzas keep the framing discipline of a WebSocket when they are forwarded to one. -/

namespace XmppProxy

open Lib Stanza

abbrev declTag : Bytes := bytes "<?xml "
abbrev streamName : Bytes := bytes "<stream:stream"
abbrev streamCloseName : Bytes := bytes "</stream:stream"

def IsFrame (name t : Bytes) : Prop := lt :: name <+: t ∧ rootName t = name ∧ [slash, gt] <:+ t

/-- RFC 7395 on the text sent for a stanza that opens or closes a stream, or neither. -/
structure Disciplined (opens closes : Prop) (t : Bytes) : Prop where
  noDecl : ¬ declTag <+: t
  noOpen : ¬ streamName <+: t
  noClose : ¬ streamCloseName <+: t
  opened : opens → IsFrame (bytes "open") t
  closed : closes → IsFrame (bytes "close") t

def Opens : (rd : StanzaRead) → rd.Poll → Bytes → Prop
  | .asyncRead, _, buf => streamTag <+: buf
  | .webSocketRead, .message (.text stanza), _ => IsFrame (bytes "open") stanza
  | .webSocketRead, _, _ => False

def Closes : (rd : StanzaRead) → rd.Poll → Bytes → Prop
  | .asyncRead, _, buf => buf = streamClose
  | .webSocketRead, .message (.text stanza), _ => IsFrame (bytes "close") stanza
  | .webSocketRead, _, _ => False

/-- What `write_all` leaves of a stanza that begins with a declaration, if anything. -/
def skipDeclaration (buf : Bytes) : Option Bytes :=
  if declTag <+: buf then
    match firstIndexOf (buf.drop declTag.length) (bytes "<") with
    | .ok idx => some ((buf.drop declTag.length).drop idx)
    | _ => none
  else some buf

def firstTagBytes (buf : Bytes) (e : Nat) : Bytes := buf.take (if buf[e - 1]? = some slash then e - 1 else e)

/-- `to_ws_new` passes on the beginning of `w`, and it is one that must not be sent. -/
def Leaks (w : Bytes) (e : Nat) : Prop :=
  ¬ streamTag <+: w ∧
    if e = 0 then declTag <+: w ∨ streamName <+: w ∨ streamCloseName <+: w
    else ¬ streamCloseName <+: w ∧
      (declTag <+: firstTagBytes w e ++ [32] ∨ streamName <+: firstTagBytes w e)

instance (w : Bytes) (e : Nat) : Decidable (Leaks w e) := by
  unfold Leaks
  infer_instance

theorem toWsNew_cases {w t : Bytes} {e : Nat} {isC2s : Bool} (h : toWsNew w e isC2s = .ok t) :
    streamTag <+: w ∧ t = openFrame w ∨ ¬ streamTag <+: w ∧ (e = 0 ∧ t = w ∨
      e ≠ 0 ∧ streamCloseName <+: w ∧ t = closeFrame ∨
      e ≠ 0 ∧ ¬ streamCloseName <+: w ∧ ∃ ins rest, NsDeclarations ins ∧ w = firstTagBytes w e ++ rest ∧
        t = firstTagBytes w e ++ ins ++ rest ∧ (ins = [] → 32 ∈ firstTagBytes w e)) := by
  unfold toWsNew at h
  by_cases htag : streamTag <+: w
  · rw [if_pos htag] at h
    obtain ⟨b, hb, ht⟩ := Outcome.bind_eq_ok.mp h
    rw [fromUtf8_eq_ok hb] at ht
    exact .inl ⟨htag, (Outcome.ok.inj ht).symm⟩
  refine .inr ⟨htag, ?_⟩
  rw [if_neg htag] at h
  by_cases he : e = 0
  · rw [if_pos he] at h
    exact .inl ⟨he, fromUtf8_eq_ok h⟩
  rw [if_neg he] at h
  by_cases hclose : streamCloseName <+: w
  · rw [if_pos hclose] at h
    exact .inr (.inl ⟨he, hclose, (Outcome.ok.inj h).symm⟩)
  rw [if_neg hclose] at h
  refine .inr (.inr ⟨he, hclose, ?_⟩)
  cases hc : w[e - 1]? with
  | none =>
    rw [hc] at h
    cases h
  | some c =>
    rw [hc] at h
    have hk : addXmlns w (if w[e - 1]? = some slash then e - 1 else e) isC2s = .ok t := by
      simpa only [hc, Option.some.injEq] using h
    exact ⟨_, _, missing_declarations _ _, (List.take_append_drop _ w).symm, addXmlns_eq_ok hk,
      blank_of_missing⟩

section

variable {p f ins rest : Bytes}

theorem inserted_word (hp : 32 ∉ p) (hins : NsDeclarations ins) (hblank : ins = [] → 32 ∈ f) :
    p <+: f ++ ins ++ rest ↔ p <+: f := by
  constructor
  swap
  · intro h
    rw [List.append_assoc]
    exact h.trans (List.prefix_append _ _)
  intro h
  rw [List.append_assoc] at h
  rcases List.prefix_or_prefix_of_prefix h (List.prefix_append f (ins ++ rest)) with h' | ⟨q, rfl⟩
  · exact h'
  have hq := (List.prefix_append_right_inj f).mp h
  rcases hins.head with rfl | ⟨ins, rfl⟩
  · exact absurd (List.mem_append_left q (hblank rfl)) hp
  · cases q with
    | nil => rw [List.append_nil]
    | cons b q =>
      obtain ⟨rfl, -⟩ := List.cons_prefix_cons.mp hq
      exact absurd (List.mem_append_right f (List.mem_cons_self ..)) hp

theorem inserted_blank (hp : 32 ∉ p) (hins : NsDeclarations ins) (hblank : ins = [] → 32 ∈ f) :
    p ++ [32] <+: f ++ ins ++ rest ↔ p ++ [32] <+: f ++ [32] := by
  by_cases hf : 32 ∈ f
  · -- the blank in `f` is at or behind the one of the word
    have hlong : ∀ {r : Bytes}, p ++ [32] <+: f ++ r → p ++ [32] <+: f := by
      intro r h
      rcases List.prefix_or_prefix_of_prefix h (List.prefix_append f r) with h' | h'
      · exact h'
      · rcases List.prefix_concat_iff.mp h' with rfl | h''
        · exact List.prefix_rfl
        · exact absurd (h''.subset hf) hp
    constructor
    · intro h
      rw [List.append_assoc] at h
      exact (hlong h).trans (List.prefix_append _ _)
    · intro h
      rw [List.append_assoc]
      exact (hlong h).trans (List.prefix_append _ _)
  · obtain ⟨ins, rfl⟩ := hins.head.resolve_left fun h => hf (hblank h)
    have hsplit : f ++ 32 :: ins ++ rest = f ++ [32] ++ (ins ++ rest) := by simp
    rw [hsplit]
    constructor
    · intro h
      rcases List.prefix_or_prefix_of_prefix h (List.prefix_append (f ++ [32]) (ins ++ rest)) with h' | h'
      · exact h'
      · rcases List.prefix_concat_iff.mp h' with heq | h''
        · rw [heq]
        · exact absurd (h''.subset (List.mem_append_right f (List.mem_singleton_self 32))) hp
    · exact fun h => h.trans (List.prefix_append _ _)

end

theorem openFrame_frame {w : Bytes} (htag : streamTag <+: w) (hend : [gt] <:+ w) :
    IsFrame (bytes "open") (openFrame w) := by
  have hopen := openFrame_isPrefix htag
  refine ⟨(by decide : lt :: bytes "open" <+: openTag).trans hopen, ?_, ?_⟩
  · obtain ⟨r, hr⟩ := hopen
    rw [← hr]
    exact rootName_append (p := bytes "<open") (by decide) (c := 32) (by decide) r
  · obtain ⟨u, rfl⟩ := hend
    unfold openFrame
    rw [replaceAll_concat (by decide) (by decide), replaceAll_concat (by decide) (by decide),
      replaceAll_concat (by decide) (by decide), replaceSymbol_append]
    exact List.suffix_append _ _

theorem openFrame_disciplined {w : Bytes} (htag : streamTag <+: w) :
    ¬ declTag <+: openFrame w ∧ ¬ streamName <+: openFrame w ∧ ¬ streamCloseName <+: openFrame w := by
  obtain ⟨r, hr⟩ := openFrame_isPrefix htag
  rw [← hr]
  refine ⟨?_, ?_, ?_⟩
  all_goals
    intro h
    exact absurd (List.cons_prefix_cons.mp (List.cons_prefix_cons.mp h).2).1 (by decide)

theorem IsFrame.not_stream {name w : Bytes} (h : IsFrame name w) (hname : name ≠ bytes "stream:stream") :
    ¬ streamTag <+: w := by
  rintro ⟨r, rfl⟩
  have hroot := rootName_append (p := bytes "<stream:stream") (c := 32) (by decide) (by decide) r
  exact hname (h.2.1.symm.trans (hroot.trans (by decide)))

section

variable {w : Bytes} {e : Nat} {opens closes : Prop}

theorem disciplined_openFrame (htag : streamTag <+: w)
    (hopens : opens → streamTag <+: w ∧ [gt] <:+ w ∨ e = 0 ∧ IsFrame (bytes "open") w)
    (hcloses : closes → w = streamClose ∨ e = 0 ∧ IsFrame (bytes "close") w) :
    Disciplined opens closes (openFrame w) := by
  obtain ⟨h1, h2, h3⟩ := openFrame_disciplined htag
  refine ⟨h1, h2, h3, fun ho => ?_, fun hc => ?_⟩
  · rcases hopens ho with ⟨-, hend⟩ | ⟨-, hf⟩
    · exact openFrame_frame htag hend
    · exact absurd htag (hf.not_stream (by decide))
  · rcases hcloses hc with rfl | ⟨-, hf⟩
    · exact absurd htag (by decide)
    · exact absurd htag (hf.not_stream (by decide))

theorem disciplined_self_iff (htag : ¬ streamTag <+: w)
    (hopens : opens → IsFrame (bytes "open") w)
    (hcloses : closes → w = streamClose ∨ IsFrame (bytes "close") w) :
    Disciplined opens closes w ↔ ¬ Leaks w 0 := by
  constructor
  · rintro hd ⟨-, hl⟩
    rw [if_pos rfl] at hl
    rcases hl with hl | hl | hl
    · exact hd.noDecl hl
    · exact hd.noOpen hl
    · exact hd.noClose hl
  · intro hl
    have hnot : ¬ (declTag <+: w ∨ streamName <+: w ∨ streamCloseName <+: w) :=
      fun h => hl ⟨htag, (if_pos rfl).mpr h⟩
    simp only [not_or] at hnot
    refine ⟨hnot.1, hnot.2.1, hnot.2.2, hopens, fun hc => ?_⟩
    rcases hcloses hc with rfl | hf
    · exact absurd (by decide) hnot.2.2
    · exact hf

theorem disciplined_closeFrame (hopens : ¬ opens) : Disciplined opens closes closeFrame :=
  ⟨by decide, by decide, by decide, fun ho => absurd ho hopens,
    fun _ => ⟨by decide, by decide, by decide⟩⟩

theorem disciplined_insert_iff {ins rest : Bytes} (htag : ¬ streamTag <+: w) (he : e ≠ 0)
    (hclose : ¬ streamCloseName <+: w) (hins : NsDeclarations ins)
    (hblank : ins = [] → 32 ∈ firstTagBytes w e) (hopens : ¬ opens) (hcloses : ¬ closes) :
    Disciplined opens closes (firstTagBytes w e ++ ins ++ rest) ↔ ¬ Leaks w e := by
  have hdecl : declTag <+: firstTagBytes w e ++ ins ++ rest ↔ declTag <+: firstTagBytes w e ++ [32] :=
    inserted_blank (p := bytes "<?xml") (by decide) hins hblank
  have hopen : streamName <+: firstTagBytes w e ++ ins ++ rest ↔ streamName <+: firstTagBytes w e :=
    inserted_word (by decide) hins hblank
  have hstop : ¬ streamCloseName <+: firstTagBytes w e ++ ins ++ rest := by
    intro h
    have hf := (inserted_word (by decide) hins hblank).mp h
    exact hclose (hf.trans (List.take_prefix _ _))
  constructor
  · rintro hd ⟨-, hl⟩
    rw [if_neg he] at hl
    rcases hl.2 with hl | hl
    · exact hd.noDecl (hdecl.mpr hl)
    · exact hd.noOpen (hopen.mpr hl)
  · intro hl
    refine ⟨fun h => ?_, fun h => ?_, hstop, fun ho => absurd ho hopens, fun hc => absurd hc hcloses⟩
    · exact hl ⟨htag, (if_neg he).mpr ⟨hclose, .inl (hdecl.mp h)⟩⟩
    · exact hl ⟨htag, (if_neg he).mpr ⟨hclose, .inr (hopen.mp h)⟩⟩

/-- Of a stanza that opens or closes a stream, `w` is what reaches `to_ws_new`. -/
theorem disciplined_iff {t : Bytes} {isC2s : Bool} (h : toWsNew w e isC2s = .ok t)
    (hopens : opens → streamTag <+: w ∧ [gt] <:+ w ∨ e = 0 ∧ IsFrame (bytes "open") w)
    (hcloses : closes → w = streamClose ∨ e = 0 ∧ IsFrame (bytes "close") w) :
    Disciplined opens closes t ↔ ¬ Leaks w e := by
  rcases toWsNew_cases h with ⟨htag, rfl⟩ | ⟨htag, hrest⟩
  · exact ⟨fun _ hl => hl.1 htag, fun _ => disciplined_openFrame htag hopens hcloses⟩
  -- with a mark, what opens a stream is a stream header, and that is `openFrame`
  have hopens' : opens → e = 0 ∧ IsFrame (bytes "open") w :=
    fun ho => (hopens ho).resolve_left fun h' => htag h'.1
  rcases hrest with ⟨rfl, rfl⟩ | ⟨he, hclose, rfl⟩ | ⟨he, hclose, ins, rest, hins, -, rfl, hblank⟩
  · exact disciplined_self_iff htag (fun ho => (hopens' ho).2)
      fun hc => (hcloses hc).imp_right And.right
  · refine ⟨fun _ hl => ?_, fun _ => disciplined_closeFrame fun ho => he (hopens' ho).1⟩
    have hl' := hl.2
    rw [if_neg he] at hl'
    exact hl'.1 hclose
  · refine disciplined_insert_iff htag he hclose hins hblank (fun ho => he (hopens' ho).1) fun hc => ?_
    rcases hcloses hc with rfl | ⟨he', -⟩
    · exact absurd (by decide) hclose
    · exact absurd he' he

end

theorem fromWs_open {m : Bytes} (htag : openTag <+: m) (hend : [slash, gt] <:+ m) :
    streamTag <+: fromWs m ∧ [gt] <:+ fromWs m := by
  obtain ⟨r, rfl⟩ := htag
  have hlast : ∃ v, openTag ++ r = v ++ [slash] ++ [gt] := by
    obtain ⟨v, hv⟩ := hend
    exact ⟨v, by rw [← hv, List.append_assoc]; rfl⟩
  have hhead : ∃ x, replaceAll framing jabberClient (replaceAll framingServer jabberServer
      (replaceAll openTag streamTag (openTag ++ r))) = streamTag ++ x := by
    rw [replaceAll_hit (by decide), replaceAll_append (by decide), replaceAll_append (by decide)]
    exact ⟨_, rfl⟩
  have htail : bytes "/>" <:+ replaceAll framing jabberClient (replaceAll framingServer jabberServer
      (replaceAll openTag streamTag (openTag ++ r))) := by
    obtain ⟨v, hv⟩ := hlast
    rw [hv]
    iterate 3 rw [replaceAll_concat (by decide) (by decide), replaceAll_concat (by decide) (by decide)]
    rw [List.append_assoc]
    exact List.suffix_append _ _
  unfold fromWs
  rw [if_pos (List.prefix_append openTag r)]
  dsimp only
  generalize replaceAll framing jabberClient (replaceAll framingServer jabberServer
    (replaceAll openTag streamTag (openTag ++ r))) = w at hhead htail
  obtain ⟨x, rfl⟩ := hhead
  have hgt : ∀ {q : Bytes}, [gt] <:+ q → streamTag <+: replaceAll (bytes "/>") q (streamTag ++ x) ∧
      [gt] <:+ replaceAll (bytes "/>") q (streamTag ++ x) := by
    intro q hq
    refine ⟨?_, hq.trans (suffix_replaceAll (by decide) (by decide) htail q)⟩
    rw [replaceAll_append (by decide)]
    exact List.prefix_append _ _
  split_ifs
  · exact hgt (by decide)
  · exact hgt (by decide)

theorem skipDeclaration_of_not {buf : Bytes} (h : ¬ declTag <+: buf) : skipDeclaration buf = some buf :=
  if_neg h

theorem stream_not_decl {buf : Bytes} (h : streamTag <+: buf) : ¬ declTag <+: buf := by
  obtain ⟨r, rfl⟩ := h
  intro h
  exact absurd (List.cons_prefix_cons.mp (List.cons_prefix_cons.mp h).2).1 (by decide)

theorem IsFrame.not_decl {name m : Bytes} (h : IsFrame name m) (hname : ¬ [quest] <+: name) :
    ¬ declTag <+: m := by
  rintro hd
  obtain ⟨r, rfl⟩ := hd
  have hroot := rootName_append (p := bytes "<?xml") (c := 32) (by decide) (by decide) r
  have heq : name = bytes "?xml" := h.2.1.symm.trans (hroot.trans (by decide))
  exact hname (heq ▸ (by decide))

section

variable {rd : StanzaRead} {wrt : StanzaWrite} {f : StanzaFilter} {p : rd.Poll} {res : WriteResult}
  {buf w : Bytes} {e : Nat}

theorem Opens.reaches (h : (rd.poll wrt f p res).result = some (.ok (some (buf, e))))
    (ho : Opens rd p buf) :
    ¬ declTag <+: buf ∧
      (streamTag <+: buf ∧ [gt] <:+ buf ∨ e = 0 ∧ IsFrame (bytes "open") buf) := by
  cases rd with
  | asyncRead =>
    change (StanzaRead.pollBytes f p).result = _ at h
    have hp := bytesPolled f p
    generalize StanzaRead.pollBytes f p = polled at h hp
    cases hp with
    | stanza hlt hn =>
      obtain ⟨rfl, rfl⟩ := Prod.mk.inj (Option.some.inj (Outcome.ok.inj (Option.some.inj h)))
      obtain ⟨rfl, hbuf, -⟩ := stanza_ends hlt hn
      exact ⟨stream_not_decl ho, .inl ⟨ho, by rw [hbuf]; exact List.suffix_append _ _⟩⟩
    | _ => cases h
  | webSocketRead =>
    obtain ⟨m, rfl, rfl, rfl⟩ := pollMessage_stanza h
    have hframe : IsFrame (bytes "open") m := ho
    by_cases htag : openTag <+: m
    · have hw := fromWs_open htag hframe.2.2
      exact ⟨stream_not_decl hw.1, .inl hw⟩
    · have hsame : fromWs m = m := by
        have hclose : ¬ bytes "<close " <+: m := by
          intro hc
          have := List.prefix_of_prefix_length_le hframe.1 hc (by decide)
          exact absurd this (by decide)
        unfold fromWs
        rw [if_neg htag, if_neg hclose]
      rw [hsame]
      exact ⟨hframe.not_decl (by decide), .inr ⟨rfl, hframe⟩⟩

theorem Closes.reaches (h : (rd.poll wrt f p res).result = some (.ok (some (buf, e))))
    (hc : Closes rd p buf) :
    ¬ declTag <+: buf ∧ (buf = streamClose ∨ e = 0 ∧ IsFrame (bytes "close") buf) := by
  cases rd with
  | asyncRead =>
    obtain rfl : buf = streamClose := hc
    exact ⟨by decide, .inl rfl⟩
  | webSocketRead =>
    obtain ⟨m, rfl, rfl, rfl⟩ := pollMessage_stanza h
    have hframe : IsFrame (bytes "close") m := hc
    have hopen : ¬ bytes "<open " <+: m := by
      intro ho
      have := List.prefix_of_prefix_length_le ho hframe.1 (by decide)
      exact absurd this (by decide)
    unfold fromWs
    rw [if_neg hopen]
    split_ifs with htag
    · exact ⟨by decide, .inl rfl⟩
    · exact ⟨hframe.not_decl (by decide), .inr ⟨rfl, hframe⟩⟩

end

theorem writeAll_inv {trace isC2s : Bool} {buf t : Bytes} {e : Nat}
    (h : StanzaWrite.webSocketClientWrite.writeAll trace isC2s buf e = .ok (some (.text t))) :
    ∃ w, skipDeclaration buf = some w ∧ toWsNew w e isC2s = .ok t := by
  have hconv : ∀ {w : Bytes}, (do return some (.text (← toWsNew w e isC2s)) : Outcome (Option Sent)) =
      .ok (some (.text t)) → toWsNew w e isC2s = .ok t := by
    intro w hw
    obtain ⟨t', ht, heq⟩ := Outcome.bind_eq_ok.mp hw
    rw [ht, Sent.text.inj (Option.some.inj (Outcome.ok.inj heq))]
  have hnone : ∀ {w : Bytes}, (if trace then do let _ ← fromUtf8 w; return none else .ok none :
      Outcome (Option Sent)) ≠ .ok (some (.text t)) := by
    intro w hw
    split_ifs at hw
    · obtain ⟨_, -, heq⟩ := Outcome.bind_eq_ok.mp hw
      cases heq
    · cases hw
  unfold StanzaWrite.writeAll at h
  unfold skipDeclaration
  dsimp only at h
  by_cases hd : declTag <+: buf
  · rw [if_pos hd] at h ⊢
    cases hi : firstIndexOf (buf.drop declTag.length) (bytes "<") with
    | ok idx =>
      rw [hi] at h
      exact ⟨_, rfl, hconv h⟩
    | err err =>
      rw [hi] at h
      exact absurd h hnone
    | panic =>
      rw [hi] at h
      exact absurd h hnone
  · rw [if_neg hd] at h ⊢
    exact ⟨buf, rfl, hconv h⟩

theorem send_sent {trace isC2s : Bool} {buf : Bytes} {e : Nat} {res : WriteResult}
    (hd : ¬ declTag <+: buf)
    (h : (StanzaWrite.webSocketClientWrite.send trace isC2s buf e res).1 = .ok ()) :
    ∃ t, (StanzaWrite.webSocketClientWrite.send trace isC2s buf e res).2 = [.text t] := by
  have hw : StanzaWrite.webSocketClientWrite.writeAll trace isC2s buf e =
      (do return some (.text (← toWsNew buf e isC2s))) := if_neg hd
  unfold StanzaWrite.send at h ⊢
  rw [hw] at h ⊢
  cases ht : toWsNew buf e isC2s with
  | ok t =>
    rw [ht] at h
    cases res with
    | done => exact ⟨t, rfl⟩
    | cut taken => cases h
    | flushFailed => cases h
  | err err => rw [ht] at h; cases h
  | panic => rw [ht] at h; cases h

/-- Behind a declaration that is skipped, no beginning is left that `to_ws_new` passes on. -/
def Conforming (buf : Bytes) (e : Nat) : Prop := ∀ w ∈ skipDeclaration buf, ¬ Leaks w e

/-- The text sent to a WebSocket for a stanza keeps the discipline exactly when the stanza conforms, and
a stanza that opens or closes a stream is sent unless sending fails. -/
theorem forwarded_disciplined {c : ShuffleConfig} {s : Shuffle} {ev : Event c}
    (hwr : ev.peer.other.wr c = .webSocketClientWrite) {buf : Bytes} {e : Nat}
    (hf : (Shuffle.step c s ev).1 = .forwarded buf e) :
    (∀ t, (ev.peer.other.side (Shuffle.step c s ev).2).sent =
        (ev.peer.other.side s).sent ++ [.text t] →
      (Disciplined (Opens (ev.peer.rd c) ev.poll buf) (Closes (ev.peer.rd c) ev.poll buf) t ↔
        Conforming buf e)) ∧
    (Opens (ev.peer.rd c) ev.poll buf ∨ Closes (ev.peer.rd c) ev.poll buf →
      (Shuffle.step c s ev).2.status = .running →
      ∃ t, (ev.peer.other.side (Shuffle.step c s ev).2).sent =
        (ev.peer.other.side s).sent ++ [.text t]) := by
  obtain ⟨hpoll, hsent, hrun⟩ := Shuffle.step_forwarded hf
  rw [hwr] at hsent hrun
  rw [hsent]
  constructor
  · intro t ht
    have htext := send_text (List.append_cancel_left ht)
    obtain ⟨w, hskip, hconv⟩ := writeAll_inv htext
    have hsame : ¬ declTag <+: buf → w = buf := by
      intro hd
      rw [skipDeclaration_of_not hd] at hskip
      exact (Option.some.inj hskip).symm
    have hiff : Conforming buf e ↔ ¬ Leaks w e := by
      unfold Conforming
      rw [hskip]
      exact ⟨fun h => h w rfl, fun h w' hw' => Option.some.inj hw' ▸ h⟩
    rw [hiff]
    apply disciplined_iff hconv
    · intro ho
      obtain ⟨hd, h⟩ := ho.reaches hpoll
      rwa [hsame hd]
    · intro hc
      obtain ⟨hd, h⟩ := hc.reaches hpoll
      rwa [hsame hd]
  · intro hkind hstatus
    have hd : ¬ declTag <+: buf := by
      rcases hkind with ho | hc
      · exact (ho.reaches hpoll).1
      · exact (hc.reaches hpoll).1
    obtain ⟨t, ht⟩ := send_sent hd (hrun hstatus)
    exact ⟨t, by rw [ht]⟩

section

variable {c : ShuffleConfig}

/-- For the stanza `(buf, e)` that `ev` forwards in `s`, the text `t` is sent to a WebSocket. -/
structure SentAsText (s : Shuffle) (ev : Event c) (buf : Bytes) (e : Nat) (t : Bytes) : Prop where
  sink : ev.peer.other.wr c = .webSocketClientWrite
  forwarded : (Shuffle.step c s ev).1 = .forwarded buf e
  sent : (ev.peer.other.side (Shuffle.step c s ev).2).sent =
    (ev.peer.other.side s).sent ++ [.text t]

/-- RFC 7395 on what `ev` sends to a WebSocket for a stanza. -/
structure Framed (s : Shuffle) (ev : Event c) : Prop where
  text : ∀ {buf e t}, SentAsText s ev buf e t →
    Disciplined (Opens (ev.peer.rd c) ev.poll buf) (Closes (ev.peer.rd c) ev.poll buf) t
  streams : ∀ {buf e}, ev.peer.other.wr c = .webSocketClientWrite →
    (Shuffle.step c s ev).1 = .forwarded buf e →
    Opens (ev.peer.rd c) ev.poll buf ∨ Closes (ev.peer.rd c) ev.poll buf →
    (Shuffle.step c s ev).2.status = .running → ∃ t, SentAsText s ev buf e t

theorem framed_iff (s : Shuffle) (ev : Event c) :
    Framed s ev ↔ ∀ buf e t, SentAsText s ev buf e t → Conforming buf e := by
  constructor
  · intro h buf e t ht
    exact ((forwarded_disciplined ht.sink ht.forwarded).1 t ht.sent).mp (h.text ht)
  · intro h
    constructor
    · intro buf e t ht
      exact ((forwarded_disciplined ht.sink ht.forwarded).1 t ht.sent).mpr (h buf e t ht)
    · intro buf e hwr hf hkind hrun
      obtain ⟨t, ht⟩ := (forwarded_disciplined hwr hf).2 hkind hrun
      exact ⟨t, hwr, hf, ht⟩

end

/-- In any run, from any state of the loop and between any two kinds of transports, everything that is
sent to a WebSocket keeps the discipline exactly when the stanzas sent there conform. -/
theorem run_framed_iff (c : ShuffleConfig) (s : Shuffle) (evs : List (Event c)) :
    (∀ x ∈ (shuffleRdWrFilterOnly c).trace s evs, Framed x.1 x.2) ↔
      ∀ x ∈ (shuffleRdWrFilterOnly c).trace s evs,
        ∀ buf e t, SentAsText x.1 x.2 buf e t → Conforming buf e :=
  forall₂_congr fun x _ => framed_iff x.1 x.2

/-- Between two WebSockets `<close .../>` is sent on as `</stream:stream>`. -/
theorem close_not_framed :
    let c : ShuffleConfig := ⟨.webSocketRead, .webSocketClientWrite, .webSocketRead,
      .webSocketClientWrite, true, false⟩
    let ev : Event c := .client (.message (.text closeFrame)) .done
    IsFrame (bytes "close") closeFrame ∧
      SentAsText (Shuffle.start (.new 64) 64 [] []) ev streamClose 0 streamClose ∧
      ¬ ∀ x ∈ (shuffleRdWrFilterOnly c).trace (Shuffle.start (.new 64) 64 [] []) [ev],
        Framed x.1 x.2 := by
  intro c ev
  have hsent : SentAsText (Shuffle.start (.new 64) 64 [] []) ev streamClose 0 streamClose :=
    ⟨rfl, by decide, by decide⟩
  refine ⟨⟨by decide, by decide, by decide⟩, hsent, fun h => ?_⟩
  exact ((h _ (List.mem_singleton_self _)).text hsent).noClose (by decide)

end XmppProxy
