import XmppProxy.Lib.XmlTag
import XmppProxy.Proxy.Insertion

/-! The first tag of what `to_ws_new` makes of an element, as an XML parser reads it: which namespaces are
declared in it, and whether they are declared once. -/

namespace XmppProxy

open Lib Stanza

theorem body_start {n : UInt8} {w : Bytes} (hn : NameStart n) (hw : Body w) : Body (lt :: n :: w) := by
  have hlt : ¬ IsQuote lt := by
    unfold IsQuote
    decide
  exact .byte (by decide) hlt (.byte hn.2.2.2.1 hn.2.2.2.2 hw)

theorem Stanza.Body.concat_slash {w : Bytes} (hw : Body w) : Body (w ++ [slash]) := by
  have hslash : ¬ IsQuote slash := by
    unfold IsQuote
    decide
  exact hw.concat (by decide) hslash

theorem isQuote_iff {b : UInt8} : Xml.isQuote b ↔ IsQuote b := by
  simp [Xml.isQuote, IsQuote]

theorem plain_of_nameByte {b : UInt8} (h : Xml.isNameByte b) : b ≠ gt ∧ ¬ IsQuote b := by
  refine ⟨?_, fun hq => Xml.not_quote_of_nameByte h (isQuote_iff.mpr hq)⟩
  rintro rfl
  exact absurd h (by decide)

theorem plain_of_space {b : UInt8} (h : Xml.isSpace b) : b ≠ gt ∧ ¬ IsQuote b := by
  refine ⟨?_, fun hq => Xml.not_quote_of_space h (isQuote_iff.mpr hq)⟩
  rintro rfl
  exact absurd h (by decide)

theorem Lib.Xml.Attr.body (a : Xml.Attr) : Body a.text := by
  have hspace := a.spaces
  have hname := body_of_plain fun b hb => plain_of_nameByte (a.name_bytes b hb)
  have hfront := ((body_of_plain fun b hb => plain_of_space (hspace.1 b hb)).append hname).append
    (body_of_plain fun b hb => plain_of_space (hspace.2.1 b hb))
  have hequal : ¬ IsQuote 61 := by
    unfold IsQuote
    decide
  have hvalue : Body (a.quote :: (a.raw ++ [a.quote])) :=
    .quoted (isQuote_iff.mp a.quote_ok) a.quote_not_mem_raw .nil
  have hafter : Body (61 :: (a.after ++ a.quote :: (a.raw ++ [a.quote]))) :=
    .byte (by decide) hequal ((body_of_plain fun b hb => plain_of_space (hspace.2.2 b hb)).append hvalue)
  have htext : a.text = a.space ++ a.name ++ a.before ++ 61 :: (a.after ++ a.quote :: (a.raw ++ [a.quote])) := by
    simp only [Xml.Attr.text, Xml.Attr.front, List.append_assoc, List.cons_append, List.nil_append]
  rw [htext]
  exact hfront.append hafter

namespace Lib.Xml.Tag

variable (t : Xml.Tag)

theorem cut : ∃ n w, t.head = lt :: n :: w ∧ NameStart n ∧ Body w := by
  obtain ⟨n, r, hn, hstart, hall⟩ := Xml.isName_iff.mp t.name_ok
  have hname : Body r := body_of_plain fun b hb => plain_of_nameByte (hall b (hn ▸ List.mem_cons_of_mem n hb))
  have hattrs : ∀ as : List Xml.Attr, Body (as.flatMap Xml.Attr.text) := by
    intro as
    induction as with
    | nil => exact .nil
    | cons a as ih => exact a.body.append ih
  have htrailing := body_of_plain fun b hb => plain_of_space (List.all_eq_true.mp t.trailing_ok b hb)
  refine ⟨n, r ++ t.attrs.flatMap Xml.Attr.text ++ t.trailing, ?_, ⟨?_, ?_, ?_, ?_⟩, ?_⟩
  · rw [Xml.Tag.head, hn]
    rfl
  · rintro rfl
    exact absurd hstart (by decide)
  · rintro rfl
    exact absurd hstart (by decide)
  · rintro rfl
    exact absurd hstart (by decide)
  · exact plain_of_nameByte (hall n (hn ▸ List.mem_cons_self ..))
  · exact (hname.append (hattrs t.attrs)).append htrailing

theorem head_last : t.head.getLast? ≠ some slash := by
  have hlast : ∀ {u w : Bytes}, w ≠ [] → (∀ b ∈ w.getLast?, b ≠ slash) → (u ++ w).getLast? ≠ some slash := by
    intro u w hne hw h
    rw [List.getLast?_append_of_ne_nil u hne] at h
    exact hw slash h rfl
  have hspace : ∀ {b : UInt8}, Xml.isSpace b → b ≠ slash := by
    rintro b hb rfl
    exact absurd hb (by decide)
  rw [head]
  by_cases htr : t.trailing = []
  swap
  · exact hlast htr fun b hb => hspace (List.all_eq_true.mp t.trailing_ok b (List.mem_of_getLast? hb))
  rw [htr, List.append_nil]
  obtain hnil | ⟨as, a, has⟩ := List.eq_nil_or_concat' t.attrs
  · rw [hnil, List.flatMap_nil, List.append_nil]
    obtain ⟨n, r, hn, -, hall⟩ := Xml.isName_iff.mp t.name_ok
    refine hlast (u := [lt]) (hn ▸ List.cons_ne_nil n r) fun b hb => ?_
    rintro rfl
    exact absurd (hall _ (List.mem_of_getLast? hb)) (by decide)
  · rw [has, List.flatMap_append, ← List.append_assoc, List.flatMap_cons, List.flatMap_nil, List.append_nil,
      Xml.Attr.text, ← List.append_assoc]
    refine hlast (List.cons_ne_nil a.quote []) fun b hb => ?_
    obtain rfl := Option.some.inj hb
    intro he
    have hquote : a.quote = slash := he
    have hq := a.quote_ok
    rw [hquote] at hq
    exact absurd hq (by decide)

theorem stops {n : UInt8} {w : Bytes} (h : t.head = lt :: n :: w) : Stops n w t.stop := by
  have hl := t.head_last
  rw [h, List.getLast?_cons_cons] at hl
  unfold Xml.Tag.stop
  cases t.empty
  · exact .inr ⟨rfl, hl⟩
  · exact .inl rfl

theorem body_head : Body t.head := by
  obtain ⟨n, w, hhead, hn, hw⟩ := t.cut
  rw [hhead]
  exact body_start hn hw

theorem body : ∃ w, Body w ∧ t.text = w ++ [gt] := by
  rw [Xml.Tag.text, Xml.Tag.stop]
  cases t.empty
  · exact ⟨t.head, t.body_head, rfl⟩
  · refine ⟨t.head ++ [slash], t.body_head.concat_slash, ?_⟩
    rw [List.append_assoc]
    rfl

end Lib.Xml.Tag

theorem first_unique {t : Xml.Tag} {first x y : Bytes} (hf : EmptyTag first ∨ OpenTag first)
    (h : t.text ++ x = first ++ y) : t.text = first := by
  obtain ⟨w, hw, ht⟩ := t.body
  obtain ⟨n, v, stop, hn, hv, rfl, hstop⟩ := tag_cut hf
  obtain ⟨w', hw', hfirst⟩ : ∃ w', Body w' ∧ lt :: n :: v ++ stop = w' ++ [gt] := by
    rcases hstop with ⟨rfl, -⟩ | ⟨rfl, -⟩
    · exact ⟨_, (body_start hn hv).concat_slash, by simp⟩
    · exact ⟨_, body_start hn hv, rfl⟩
  rw [hfirst, ht] at h ⊢
  rw [List.append_assoc, List.append_assoc] at h
  rw [hw.unique hw' h]

/-- An element that is emitted is marked at the end of its first tag. Only one that is closed in this tag
may look like a stream header. -/
theorem Emits.first {n e : Nat} {bs rest : Bytes} {t : Xml.Tag} (h : Emits n bs (t.text ++ rest) e)
    (hs : ¬ StreamOpen (t.text ++ rest)) :
    e = t.text.length - 1 ∧ (streamTag <+: t.text ++ rest → t.empty = true ∧ rest = []) := by
  obtain ⟨m, w, hhead, hm, hw⟩ := t.cut
  have hopen : ∀ {first x : Bytes}, t.text ++ rest = first ++ x → RootTag first →
      t.text = first ∧ ¬ streamTag <+: t.text ++ rest := fun heq hroot =>
    ⟨first_unique (.inr hroot.tag) heq, heq ▸ hroot.tag.not_stream hroot.plain⟩
  rcases replays_or_cracked h with ⟨hre, -⟩ | hcracked
  · have hsecond : (t.text ++ rest)[1]? = some m := by
      rw [Xml.Tag.text, hhead]
      rfl
    have hclose : (t.text ++ rest)[1]? ≠ some slash := fun h => hm.1 (Option.some.inj (hsecond.symm.trans h))
    have hdecl : (t.text ++ rest)[1]? ≠ some quest := fun h =>
      hm.2.2.1 (Option.some.inj (hsecond.symm.trans h))
    obtain ⟨first, x, heq, rfl, ⟨hempty, rfl⟩ | ⟨hroot, -⟩⟩ := hre.retag hclose hdecl hs
    · have hfirst := first_unique (.inl hempty) heq
      refine ⟨by rw [hfirst], fun _ => ⟨?_, ?_⟩⟩
      · by_contra hne
        have htag := (t.stops hhead).tag hm hw
        rw [← hhead, ← Xml.Tag.text, Xml.Tag.stop, if_neg hne, hfirst] at htag
        rcases htag with ⟨h, -⟩ | ⟨-, h⟩
        · cases h
        · exact hempty.not_open h
      · rw [hfirst] at heq
        exact List.append_cancel_left heq
    · obtain ⟨hfirst, hnot⟩ := hopen heq hroot
      exact ⟨by rw [hfirst], fun hp => absurd hp hnot⟩
  · obtain ⟨first, x, heq, rfl, hroot, -⟩ := hcracked.retag
    obtain ⟨hfirst, hnot⟩ := hopen heq hroot
    exact ⟨by rw [hfirst], fun hp => absurd hp hnot⟩

theorem Stanza.Body.drop {u w : Bytes} (hu : ∀ b ∈ u, ¬ IsQuote b) (h : Body (u ++ w)) : Body w := by
  induction u with
  | nil => exact h
  | cons b u ih =>
    rw [List.cons_append] at h
    generalize hx : u ++ w = x at h
    cases h with
    | byte _ _ hrest => exact ih (fun c hc => hu c (List.mem_cons_of_mem _ hc)) (hx ▸ hrest)
    | quoted hq _ _ => exact absurd hq (hu b (List.mem_cons_self ..))

def InValue (q : UInt8) (w : Bytes) : Prop := ∃ v x, w = v ++ q :: x ∧ q ∉ v ∧ Body x

theorem InValue.drop {q : UInt8} {u w : Bytes} (hu : q ∉ u) (h : InValue q (u ++ w)) : InValue q w := by
  obtain ⟨v, x, heq, hv, hx⟩ := h
  rcases List.append_eq_append_iff.mp heq with ⟨v', rfl, rfl⟩ | ⟨k, rfl, hk⟩
  · exact ⟨v', x, rfl, fun h => hv (List.mem_append_right _ h), hx⟩
  · cases k with
    | nil => exact ⟨[], x, hk.symm, List.not_mem_nil, hx⟩
    | cons d k =>
      rw [(List.cons.inj hk).1] at hu
      exact absurd (List.mem_append_right v (List.mem_cons_self ..)) hu

theorem InValue.append {q : UInt8} {u w : Bytes} (hu : q ∉ u) (h : InValue q w) : InValue q (u ++ w) := by
  obtain ⟨v, x, rfl, hv, hx⟩ := h
  exact ⟨u ++ v, x, (List.append_assoc _ _ _).symm, List.not_mem_append hu hv, hx⟩

theorem Stanza.Body.replaceAll {p r w : Bytes} (hp : p ≠ []) (hpq : ∀ b ∈ p, ¬ IsQuote b)
    (hr : ∀ b ∈ r, b ≠ gt ∧ ¬ IsQuote b) (h : Body w) : Body (replaceAll p r w) := by
  have key : (Body w → Body (Lib.replaceAll p r w)) ∧
      ∀ q, IsQuote q → InValue q w → InValue q (Lib.replaceAll p r w) := by
    clear h
    induction w using words_induction hp with
    | nil => exact ⟨fun h => h, fun q _ h => h⟩
    | hit s ih =>
      rw [replaceAll_hit hp]
      exact ⟨fun h => (body_of_plain hr).append (ih.1 (h.drop hpq)), fun q hq h =>
        (ih.2 q hq (h.drop fun hm => hpq q hm hq)).append fun hm => (hr q hm).2 hq⟩
    | miss a s hnot ih =>
      rw [replaceAll_miss hnot]
      refine ⟨fun h => ?_, fun q hq h => ?_⟩
      · cases h with
        | byte ha hnq hs => exact .byte ha hnq (ih.1 hs)
        | quoted hq hv hs =>
          obtain ⟨v, x, heq, hv', hx⟩ := ih.2 a hq ⟨_, _, rfl, hv, hs⟩
          rw [heq]
          exact .quoted hq hv' hx
      · obtain ⟨v, x, heq, hv, hx⟩ := h
        cases v with
        | nil =>
          obtain ⟨rfl, rfl⟩ := List.cons.inj heq
          exact ⟨[], _, rfl, List.not_mem_nil, ih.1 hx⟩
        | cons b v =>
          obtain ⟨rfl, rfl⟩ := List.cons.inj heq
          have hs := ih.2 q hq ⟨v, x, rfl, fun hm => hv (List.mem_cons_of_mem _ hm), hx⟩
          exact hs.append (u := [a]) fun hm => hv (List.mem_singleton.mp hm ▸ List.mem_cons_self ..)
  exact key.1 h

theorem Stanza.Body.replaceSymbol {w : Bytes} (h : Body w) : Body (replaceSymbol gt (bytes "/>") w) := by
  induction h with
  | nil => exact .nil
  | @byte b w hb hq _ ih =>
    rw [replaceSymbol_cons, if_neg hb]
    exact .byte hb hq ih
  | @quoted q v w hq hv _ ih =>
    have hne : q ≠ gt ∧ q ∉ bytes "/>" := by
      rcases hq with rfl | rfl <;> decide
    rw [replaceSymbol_cons, if_neg hne.1, replaceSymbol_append, replaceSymbol_cons, if_neg hne.1]
    refine .quoted hq (fun hm => ?_) ih
    obtain ⟨b, hb, hm⟩ := List.mem_flatMap.mp hm
    split_ifs at hm
    · exact hne.2 hm
    · exact hv (List.mem_singleton.mp hm ▸ hb)

theorem openFrame_closed {u : Bytes} (hu : Body u) :
    ∃ w, Body w ∧ openFrame (u ++ [slash, gt]) = w ++ [slash, slash, gt] := by
  have hword : ∀ {p r v : Bytes}, p ≠ [] → slash ∉ p → gt ∉ p → replaceAll p r (v ++ [slash, gt]) =
      replaceAll p r v ++ [slash, gt] := by
    intro p r v hp hs hg
    have hsplit : v ++ [slash, gt] = v ++ [slash] ++ [gt] := (List.append_assoc v [slash] [gt]).symm
    rw [hsplit, replaceAll_concat hp hg, replaceAll_concat hp hs, List.append_assoc]
    rfl
  have hplain : (∀ b ∈ streamTag ++ jabberServer ++ jabberClient, ¬ IsQuote b) ∧
      ∀ b ∈ openTag ++ framingServer ++ framing, b ≠ gt ∧ ¬ IsQuote b := by
    unfold IsQuote
    decide
  simp only [List.mem_append] at hplain
  have hstream := hu.replaceAll (p := streamTag) (r := openTag) (by decide)
    (fun b hb => hplain.1 b (.inl (.inl hb))) fun b hb => hplain.2 b (.inl (.inl hb))
  have hserver := hstream.replaceAll (p := jabberServer) (r := framingServer) (by decide)
    (fun b hb => hplain.1 b (.inl (.inr hb))) fun b hb => hplain.2 b (.inl (.inr hb))
  have hclient := hserver.replaceAll (p := jabberClient) (r := framing) (by decide)
    (fun b hb => hplain.1 b (.inr hb)) fun b hb => hplain.2 b (.inr hb)
  refine ⟨_, hclient.replaceSymbol, ?_⟩
  rw [openFrame, hword (by decide) (by decide) (by decide), hword (by decide) (by decide) (by decide),
    hword (by decide) (by decide) (by decide), replaceSymbol_append]
  rfl

/-- It ends in `//>`, which ends no tag. -/
theorem openFrame_broken {t t' : Xml.Tag} (h : t.empty = true) (rest : Bytes) :
    openFrame t.text ≠ t'.text ++ rest := by
  intro heq
  obtain ⟨w, hw, hframe⟩ := openFrame_closed t.body_head
  obtain ⟨w', hw', ht'⟩ := t'.body
  have htext : t.text = t.head ++ [slash, gt] := by rw [Xml.Tag.text, Xml.Tag.stop, if_pos h]
  have hsame : (w ++ [slash] ++ [slash]) ++ gt :: [] = w' ++ gt :: rest := by
    rw [htext, hframe, ht'] at heq
    simpa using heq
  have htag : t'.head ++ t'.stop = w ++ [slash] ++ [slash] ++ [gt] := by
    rw [hw.concat_slash.concat_slash.unique hw' hsame, ← ht', Xml.Tag.text]
  apply t'.head_last
  unfold Xml.Tag.stop at htag
  split_ifs at htag
  · have hsplit : t'.head ++ [slash, gt] = (w ++ [slash]) ++ [slash, gt] := by simpa using htag
    rw [(List.append_inj' hsplit rfl).1, List.getLast?_concat]
  · rw [(List.append_inj' htag rfl).1, List.getLast?_concat]

/-- An attribute is spelled ` name='` or ` name="`, behind a blank and without white space around the `=`,
or a value holds this. -/
def Finds (t : Xml.Tag) (name : Bytes) : Prop := t.Shows name apos ∨ t.Shows name quot

theorem containsSeq_head {t : Xml.Tag} {name : Bytes} {q : UInt8} (hname : Xml.isName name)
    (hq : Xml.isQuote q) : containsSeq t.head (Xml.opening name q) ↔ t.Shows name q :=
  containsSeq_iff.trans (Xml.Tag.opening_head hname hq)

theorem hasXmlns_iff (t : Xml.Tag) : hasXmlns t.head ↔ Finds t (bytes "xmlns") := by
  unfold hasXmlns Finds
  rw [Bool.or_eq_true, ← containsSeq_head (by decide) (by decide), ← containsSeq_head (by decide) (by decide)]
  rfl

theorem hasXmlnsStream_iff (t : Xml.Tag) :
    hasXmlnsStream t.head ↔ (bytes "stream:" <:+: t.head → Finds t (bytes "xmlns:stream")) := by
  unfold hasXmlnsStream Finds
  rw [Bool.or_eq_true, Bool.or_eq_true, Bool.not_eq_true', ← containsSeq_head (by decide) (by decide),
    ← containsSeq_head (by decide) (by decide), ← containsSeq_iff, imp_iff_not_or, Bool.not_eq_true]
  rfl

def namespaceOf (isC2s : Bool) : Bytes := if isC2s then jabberClient else jabberServer

theorem plain_namespace (isC2s : Bool) : Xml.Tag.Plain (bytes "xmlns") (namespaceOf isC2s) := by
  cases isC2s
  · exact ⟨by decide, by decide, by decide, by decide⟩
  · exact ⟨by decide, by decide, by decide, by decide⟩

theorem plain_streams :
    Xml.Tag.Plain (bytes "xmlns:stream") (bytes "http://etherx.jabber.org/streams") :=
  ⟨by decide, by decide, by decide, by decide⟩

/-- The tag with what `addXmlns` finds missing. -/
def completed (t : Xml.Tag) (isC2s : Bool) : Xml.Tag :=
  let withXmlns := if hasXmlns t.head then t else t.add _ _ (plain_namespace isC2s)
  if hasXmlnsStream t.head then withXmlns else withXmlns.add _ _ plain_streams

section

variable (t : Xml.Tag) (isC2s : Bool)

theorem completed_text : (completed t isC2s).text = t.head ++ missing t.head isC2s ++ t.stop := by
  have hadd : ∀ (t : Xml.Tag) {name v : Bytes} (h : Xml.Tag.Plain name v),
      (t.add name v h).text = t.head ++ (Xml.opening name 39 ++ (v ++ [39])) ++ t.stop := fun t name v h => by
    rw [Xml.Tag.text, Xml.Tag.head_add]
    rfl
  unfold completed missing
  dsimp only
  by_cases hx : hasXmlns t.head = true
  · rw [if_pos hx, if_pos hx]
    by_cases hstream : hasXmlnsStream t.head = true
    · rw [if_pos hstream, if_pos hstream, List.append_nil, List.append_nil]
      rfl
    · rw [if_neg hstream, if_neg hstream, hadd]
      rfl
  · have hns : Xml.opening (bytes "xmlns") 39 ++ (namespaceOf isC2s ++ [39]) =
        if isC2s then bytes " xmlns='jabber:client'" else bytes " xmlns='jabber:server'" := by
      cases isC2s <;> decide
    rw [if_neg hx, if_neg hx, ← hns]
    by_cases hstream : hasXmlnsStream t.head = true
    · rw [if_pos hstream, if_pos hstream, hadd, List.append_nil]
    · rw [if_neg hstream, if_neg hstream, hadd, Xml.Tag.head_add]
      simp only [List.append_assoc]
      rfl

theorem completed_declares :
    ((completed t isC2s).Declares (bytes "xmlns") ↔ t.Declares (bytes "xmlns") ∨ ¬ hasXmlns t.head) ∧
      ((completed t isC2s).Declares (bytes "xmlns:stream") ↔
        t.Declares (bytes "xmlns:stream") ∨ ¬ hasXmlnsStream t.head) := by
  have hne : bytes "xmlns" ≠ bytes "xmlns:stream" := by decide
  unfold completed
  dsimp only
  by_cases hx : hasXmlns t.head = true <;> by_cases hstream : hasXmlnsStream t.head = true <;>
    simp [hx, hstream, Xml.Tag.declares_add, hne, hne.symm]

theorem completed_wellFormed (hw : t.WellFormed) : (completed t isC2s).WellFormed ↔
    (t.Declares (bytes "xmlns") → hasXmlns t.head) ∧
      (t.Declares (bytes "xmlns:stream") → hasXmlnsStream t.head) := by
  have hne : bytes "xmlns:stream" ≠ bytes "xmlns" := by decide
  unfold completed
  dsimp only
  by_cases hx : hasXmlns t.head = true <;> by_cases hstream : hasXmlnsStream t.head = true <;>
    simp [hx, hstream, hw, Xml.Tag.wellFormed_add, Xml.Tag.declares_add, hne]

theorem completed_reads {name v : Bytes} (h : t.Reads name v) : (completed t isC2s).Reads name v := by
  have hfirst : (if hasXmlns t.head then t else t.add _ _ (plain_namespace isC2s)).Reads name v := by
    split_ifs
    · exact h
    · exact Xml.Tag.Reads.add _ h
  unfold completed
  dsimp only
  by_cases hstream : hasXmlnsStream t.head = true
  · rw [if_pos hstream]
    exact hfirst
  · rw [if_neg hstream]
    exact Xml.Tag.Reads.add _ hfirst

theorem completed_namespace (h : ¬ hasXmlns t.head = true) :
    (completed t isC2s).Reads (bytes "xmlns") (namespaceOf isC2s) := by
  unfold completed
  dsimp only
  rw [if_neg h]
  split_ifs
  · exact Xml.Tag.reads_add _
  · exact Xml.Tag.Reads.add _ (Xml.Tag.reads_add _)

end

/-- What `to_ws_new` makes of `s` begins with a well-formed tag that declares the default namespace as `t`
does, or as the kind of the connection has it, and the namespace of the prefix of its name. -/
def Qualified (t : Xml.Tag) (s : Bytes) (e : Nat) (isC2s : Bool) : Prop :=
  ∃ (t' : Xml.Tag) (rest : Bytes), toWsNew s e isC2s = .ok (t'.text ++ rest) ∧ t'.WellFormed ∧
    (∀ v, t.Reads (bytes "xmlns") v → t'.Reads (bytes "xmlns") v) ∧
    (¬ t.Declares (bytes "xmlns") → t'.Reads (bytes "xmlns") (namespaceOf isC2s)) ∧
    (bytes "stream:" <+: t.name → t'.Declares (bytes "xmlns:stream"))

/-- What is looked for is found in the tag where it is declared. -/
structure PlainlyDeclared (t : Xml.Tag) : Prop where
  default : t.Declares (bytes "xmlns") ↔ Finds t (bytes "xmlns")
  stream : bytes "stream:" <:+: t.head → t.Declares (bytes "xmlns:stream") → Finds t (bytes "xmlns:stream")
  prefixed : bytes "stream:" <+: t.name → Finds t (bytes "xmlns:stream") → t.Declares (bytes "xmlns:stream")

theorem toWsNew_first {t : Xml.Tag} {rest : Bytes} (h : ¬ streamTag <+: t.text ++ rest)
    (hv : Utf8.Valid (t.text ++ rest)) (isC2s : Bool) :
    toWsNew (t.text ++ rest) (t.text.length - 1) isC2s = .ok ((completed t isC2s).text ++ rest) := by
  obtain ⟨n, w, hhead, hn, -⟩ := t.cut
  have hstops := t.stops hhead
  rw [completed_text]
  rw [Xml.Tag.text, hhead] at h hv ⊢
  rw [List.append_assoc] at h hv ⊢
  have hcut : Utf8.Valid (lt :: n :: w) ∧ Utf8.Valid (t.stop ++ rest) := by
    obtain ⟨c, r, -, hasc, hstop⟩ := hstops.head
    rw [hstop] at hv ⊢
    exact hv.cut hasc
  rw [toWsNew_tag hn hstops h, addXmlns_valid hcut.1 hcut.2]
  simp only [List.append_assoc]

theorem declares_congr {t t' : Xml.Tag} (h : t.attrs.map Xml.Attr.name = t'.attrs.map Xml.Attr.name) :
    (t.WellFormed ↔ t'.WellFormed) ∧ ∀ name, t.Declares name ↔ t'.Declares name := by
  refine ⟨?_, fun name => ?_⟩
  · rw [Xml.Tag.WellFormed, h]
    rfl
  · rw [Xml.Tag.declares_iff, h, ← Xml.Tag.declares_iff]

theorem completed_iff (t : Xml.Tag) (hw : t.WellFormed) (isC2s : Bool) :
    (completed t isC2s).WellFormed ∧ ((completed t isC2s).Declares (bytes "xmlns")) ∧
      (bytes "stream:" <+: t.name → (completed t isC2s).Declares (bytes "xmlns:stream")) ↔
    PlainlyDeclared t := by
  obtain ⟨hdefault, hstream⟩ := completed_declares t isC2s
  have hname : bytes "stream:" <+: t.name → bytes "stream:" <:+: t.head := by
    intro hp
    refine hp.isInfix.trans ⟨[lt], t.attrs.flatMap Xml.Attr.text ++ t.trailing, ?_⟩
    rw [Xml.Tag.head]
    simp only [List.append_assoc, List.cons_append, List.nil_append]
  rw [completed_wellFormed t isC2s hw, hdefault, hstream, hasXmlns_iff, hasXmlnsStream_iff]
  constructor
  · rintro ⟨⟨hd, hs⟩, hx, hp⟩
    refine ⟨⟨hd, fun hf => hx.resolve_right fun h => h hf⟩, fun hin hdecl => hs hdecl hin, fun hpre hf => ?_⟩
    exact (hp hpre).resolve_right fun h => h fun _ => hf
  · rintro ⟨hd, hs, hp⟩
    refine ⟨⟨hd.mp, fun hdecl hin => hs hin hdecl⟩, ?_, fun hpre => ?_⟩
    · by_cases hf : Finds t (bytes "xmlns")
      · exact .inl (hd.mpr hf)
      · exact .inr hf
    · by_cases hf : Finds t (bytes "xmlns:stream")
      · exact .inl (hp hpre hf)
      · exact .inr fun h => hf (h (hname hpre))

/-- An element that is emitted is sent with its namespaces declared once exactly when they are spelled as
they are looked for, and it does not look like a stream header. -/
theorem qualified_iff (n : Nat) (bs : Bytes) (t : Xml.Tag) (rest : Bytes) (e : Nat) (isC2s : Bool)
    (h : Emits n bs (t.text ++ rest) e) (hs : ¬ StreamOpen (t.text ++ rest)) (hw : t.WellFormed)
    (hv : Utf8.Valid (t.text ++ rest)) :
    Qualified t (t.text ++ rest) e isC2s ↔ ¬ streamTag <+: t.text ++ rest ∧ PlainlyDeclared t := by
  obtain ⟨rfl, hclosed⟩ := h.first hs
  -- such a tag is closed in itself, and what it is framed as ends no tag
  by_cases htag : streamTag <+: t.text ++ rest
  · refine iff_of_false ?_ fun hp => hp.1 htag
    rintro ⟨t', rest', hto, -⟩
    obtain ⟨hempty, rfl⟩ := hclosed htag
    unfold toWsNew at hto
    rw [if_pos htag, fromUtf8_of_valid hv] at hto
    have hframe := Outcome.ok.inj hto
    rw [List.append_nil] at hframe
    exact openFrame_broken hempty rest' hframe
  have hto := toWsNew_first htag hv isC2s
  rw [← completed_iff t hw isC2s]
  constructor
  -- a text is a tag in one way only: its names tell what is declared
  · rintro ⟨t', rest', hto', hw', hreads, hns, hstream⟩
    obtain ⟨-, hnames⟩ := Xml.Tag.text_unique (Outcome.ok.inj (hto.symm.trans hto'))
    obtain ⟨hwell, hdecl⟩ := declares_congr hnames
    refine ⟨htag, hwell.mpr hw', (hdecl _).mpr ?_, fun hp => (hdecl _).mpr (hstream hp)⟩
    by_cases hd : t.Declares (bytes "xmlns")
    · obtain ⟨a, ha, hname⟩ := hd
      exact (hreads a.read ⟨a, ha, hname, rfl⟩).declares
    · exact (hns hd).declares
  · rintro ⟨-, hwell, hdecl, hstream⟩
    refine ⟨_, rest, hto, hwell, fun v hr => completed_reads t isC2s hr, fun hd => ?_, hstream⟩
    have hx := ((completed_declares t isC2s).1.mp hdecl).resolve_left hd
    exact completed_namespace t isC2s hx

/-- `<a b='c'/>` -/
def bareTag : Xml.Tag := .ofPlain (bytes "a") [⟨[32], bytes "b", apos, bytes "c"⟩] true (by decide)

/-- `<a xmlns='x'/>` with a tab for the blank -/
def tabTag : Xml.Tag := .ofPlain (bytes "a") [⟨[9], bytes "xmlns", apos, bytes "x"⟩] true (by decide)

theorem qualified_iff_bare : Qualified bareTag (bareTag.text ++ []) 9 true ↔
    ¬ streamTag <+: bareTag.text ++ [] ∧ PlainlyDeclared bareTag :=
  qualified_iff 16 (bytes " <a b='c'/>") bareTag [] 9 true (by unfold Emits; decide)
    (fun h => absurd h.2 (by decide)) (by decide) (by decide)

/-- Behind a tab the declaration is not found, and a second one is put in. -/
theorem not_qualified : ¬ ∀ n bs t rest e isC2s, Emits n bs (t.text ++ rest) e →
    ¬ StreamOpen (t.text ++ rest) → t.WellFormed → Utf8.Valid (t.text ++ rest) →
      Qualified t (t.text ++ rest) e isC2s := by
  intro h
  obtain ⟨t', rest', hto, hw, -⟩ := h 16 tabTag.text tabTag [] 13 true (by unfold Emits; decide)
    (fun h => absurd h.2 (by decide)) (by decide) (by decide)
  have hto' : toWsNew (tabTag.text ++ []) 13 true = .ok ((completed tabTag true).text ++ []) := by decide
  obtain ⟨-, hnames⟩ := Xml.Tag.text_unique (Outcome.ok.inj (hto'.symm.trans hto))
  exact absurd ((declares_congr hnames).1.mpr hw) (by decide)

end XmppProxy
