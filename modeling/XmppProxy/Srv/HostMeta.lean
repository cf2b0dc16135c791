import XmppProxy.Lib.XmlTree
import XmppProxy.Model.Srv
import XmppProxy.Proxy.Qualification

/-! Which links a host-meta document in XML is read to have. The root goes through the filter as one stanza,
and what follows its first tag through another one, up to the end tag, at which that one fails. -/

namespace XmppProxy

open Lib Stanza

theorem tag_shape (t : Xml.Tag) : t.empty = true ∧ EmptyTag t.text ∨ t.empty = false ∧ OpenTag t.text := by
  obtain ⟨n, w, hhead, hn, hw⟩ := t.cut
  rw [Xml.Tag.text, hhead]
  rcases (t.stops hhead).tag hn hw with ⟨hstop, htag⟩ | ⟨hstop, htag⟩
  · refine .inl ⟨?_, htag⟩
    cases he : t.empty
    · rw [Xml.Tag.stop, he] at hstop
      cases hstop
    · rfl
  · refine .inr ⟨?_, htag⟩
    cases he : t.empty
    · rfl
    · rw [Xml.Tag.stop, he] at hstop
      cases hstop

theorem tag_shape_empty {t : Xml.Tag} (h : t.empty = true) : EmptyTag t.text :=
  ((tag_shape t).resolve_right fun ho => by cases h.symm.trans ho.1).2

theorem tag_shape_open {t : Xml.Tag} (h : t.empty = false) : OpenTag t.text :=
  ((tag_shape t).resolve_left fun he => by cases h.symm.trans he.1).2

theorem closeTag_shape {name space : Bytes} (hname : Xml.isName name) (hspace : space.all Xml.isSpace) :
    CloseTag (Xml.closeTag name space) := by
  obtain ⟨m, r, rfl, -, hall⟩ := Xml.isName_iff.mp hname
  have hspaces := List.all_eq_true.mp hspace
  have hslash : ∀ b ∈ m :: r ++ space, b ≠ slash := by
    rintro b hb rfl
    rcases List.mem_append.mp hb with hb | hb
    · exact absurd (hall _ hb) (by decide)
    · exact absurd (hspaces _ hb) (by decide)
  have hstart : NameStart m := by
    obtain ⟨b, r', heq, hb, -⟩ := Xml.isName_iff.mp hname
    obtain ⟨rfl, rfl⟩ := List.cons.inj heq
    refine ⟨?_, ?_, ?_, plain_of_nameByte (hall m (List.mem_cons_self ..))⟩
    · exact hslash m (List.mem_cons_self ..)
    · rintro rfl
      exact absurd hb (by decide)
    · rintro rfl
      exact absurd hb (by decide)
  have hrest : Body r := body_of_plain fun b hb => plain_of_nameByte (hall b (List.mem_cons_of_mem _ hb))
  have hbody : Body (r ++ space) := hrest.append (body_of_plain fun b hb => plain_of_space (hspaces b hb))
  have hclose : CloseTag (lt :: slash :: m :: (r ++ space ++ [gt])) :=
    .mk hstart hbody fun hlast => hslash slash (List.mem_of_getLast? hlast) rfl
  rw [List.append_assoc] at hclose
  exact hclose

theorem content_shape (c : Xml.Content) : Content c.text := by
  induction c with
  | nil => exact .nil
  | byte b rest plain ih => exact .text plain ih
  | empty t rest closed ih => exact .empty (tag_shape_empty closed) ih
  | element t inner space rest opened spaces ihinner ihrest =>
    exact .node (tag_shape_open opened) ihinner (closeTag_shape t.name_ok spaces) ihrest

theorem element_shape (e : Xml.Element) : Element e.tag.text e.text := by
  unfold Xml.Element.text
  split_ifs with h
  · exact .empty (tag_shape_empty h)
  · exact .node (tag_shape_open (Bool.eq_false_iff.mpr h)) (content_shape _) (closeTag_shape e.tag.name_ok e.spaces)

/-- The filter hands such a tag out by itself, unless it is an empty element. -/
def StreamTag (t : Xml.Tag) : Prop := bytes "<stream:stream " <+: t.text

instance (t : Xml.Tag) : Decidable (StreamTag t) := inferInstanceAs (Decidable (_ <+: _))

theorem streamOpen_iff {t : Xml.Tag} : StreamOpen t.text ↔ t.empty = false ∧ StreamTag t := by
  constructor
  · rintro ⟨ho, hs⟩
    refine ⟨?_, hs⟩
    rcases tag_shape t with ⟨-, he⟩ | ⟨h, -⟩
    · exact absurd ho he.not_open
    · exact h
  · rintro ⟨h, hs⟩
    exact ⟨tag_shape_open h, hs⟩

theorem StreamTag.name {t : Xml.Tag} (h : StreamTag t) : t.name = bytes "stream:stream" := by
  obtain ⟨x, hx⟩ := h
  have hn : ∀ b ∈ bytes "stream:stream", Xml.isNameByte b := by decide
  exact Xml.Tag.name_of_text hn hx

/-- What is found in the bytes `w` from a state between stanzas. -/
def linksFrom (rel : Bytes) (e : Nat) (w : Bytes) : Outcome (List Bytes) :=
  parseLinks rel ((scanNext 4096).outputs (.idle e) w)

section

variable {rel u w x : Bytes} {e e' : Nat}

theorem parse_silence {α β : Type} (parse : List (Outcome (Option α)) → β)
    (h : ∀ os, parse (.ok none :: os) = parse os) (k : Nat) (os : List (Outcome (Option α))) :
    parse (List.replicate k (.ok none) ++ os) = parse os := by
  induction k with
  | zero => rfl
  | succ k ih => exact (h _).trans ih

theorem linksFrom_gap (hw : lt ∉ w) : linksFrom rel e (w ++ x) = linksFrom rel e x := by
  obtain ⟨ho, hf⟩ := gap_run (e := e) (show 0 < 4096 by decide) hw
  unfold linksFrom
  rw [Machine.outputs_append, ho, hf, parse_silence (parseLinks rel) fun _ => rfl]

theorem linksFrom_unit (h : Scans e u e') (hlen : u.length ≤ 4096) : linksFrom rel e (u ++ x) =
    (do return (← linkHrefs rel u) ++ (← linksFrom rel e' x)) := by
  obtain ⟨ho, hf⟩ := h.run hlen
  unfold linksFrom
  rw [Machine.outputs_append, ho, hf, List.append_assoc, parse_silence (parseLinks rel) fun _ => rfl]
  rfl

theorem endStream_refused {p : Bytes} (hp : p.length < 4096) (hw : gt ∉ w)
    (hno : ¬ bytes "</stream:stream>" <:+ p ++ w ++ [gt]) :
    parseLinks rel ((scanNext 4096).outputs ⟨p, 1, e, .endStream⟩ (w ++ gt :: x)) = .ok [] := by
  induction w generalizing p with
  | nil =>
    obtain ⟨err, t, hstep⟩ : ∃ err t, (scanNext 4096).step ⟨p, 1, e, .endStream⟩ gt = (.err err, t) := by
      rw [List.append_nil] at hno
      change ∃ err t, (⟨p, 1, e, .endStream⟩ : Scanner).next 4096 gt = (.err err, t)
      unfold Scanner.next
      rw [if_pos hp]
      simp only [Scanner.dispatch, if_pos, Scanner.ifLastEquals]
      by_cases hlen : (bytes "</stream:stream>").length - 1 ≤ p.length
      · rw [if_pos hlen, if_neg hno]
        exact ⟨_, _, rfl⟩
      · rw [if_neg hlen]
        exact ⟨_, _, rfl⟩
    rw [List.nil_append, Machine.outputs_cons, hstep]
    rfl
  | cons a w ih =>
    obtain ⟨ha, hw⟩ := not_or.mp (mt List.mem_cons.mpr hw)
    rw [List.cons_append, Machine.outputs_cons]
    have hnext : (scanNext 4096).step ⟨p, 1, e, .endStream⟩ a =
        Scanner.advance 4096 ⟨p, 1, e, .endStream⟩ a := by
      change (⟨p, 1, e, .endStream⟩ : Scanner).next 4096 a = _
      unfold Scanner.next
      rw [if_pos hp]
      simp only [Scanner.dispatch, if_neg (Ne.symm ha)]
    rw [hnext]
    unfold Scanner.advance
    split_ifs with hfull
    · rfl
    · have hlt : (p ++ [a]).length < 4096 := by
        change ¬ (p ++ [a]).length = 4096 at hfull
        rw [List.length_append, List.length_singleton] at hfull ⊢
        omega
      have hno' : ¬ bytes "</stream:stream>" <:+ p ++ [a] ++ w ++ [gt] := by
        rwa [List.append_assoc p, List.singleton_append]
      exact ih hlt hw hno'

/-- An end tag outside of a stanza ends the loop, but for that of a stream. -/
theorem linksFrom_refused {name space : Bytes} (hname : Xml.isName name) (hspace : space.all Xml.isSpace)
    (h : name ≠ bytes "stream:stream" ∨ space ≠ []) :
    linksFrom rel e (Xml.closeTag name space ++ x) = .ok [] := by
  obtain ⟨b, r, hb, -, hall⟩ := Xml.isName_iff.mp hname
  have hplain : ∀ c ∈ name ++ space, c ≠ gt ∧ c ≠ lt := by
    intro c hc
    rcases List.mem_append.mp hc with hc | hc
    · refine ⟨(plain_of_nameByte (hall c hc)).1, ?_⟩
      rintro rfl
      exact absurd (hall _ hc) (by decide)
    · refine ⟨(plain_of_space (List.all_eq_true.mp hspace c hc)).1, ?_⟩
      rintro rfl
      exact absurd (List.all_eq_true.mp hspace _ hc) (by decide)
  have hgt : gt ∉ name ++ space := fun hmem => (hplain gt hmem).1 rfl
  have hlt : lt ∉ name ++ space := fun hmem => (hplain lt hmem).2 rfl
  have hno : ¬ bytes "</stream:stream>" <:+ [lt, slash] ++ (name ++ space) ++ [gt] := by
    rintro ⟨y, hy⟩
    -- the only `<` is the first byte
    have hwhole : y = [] ∧ bytes "/stream:stream>" = slash :: (name ++ space) ++ [gt] := by
      have hrest : lt ∉ slash :: (name ++ space) ++ [gt] := by
        simp only [List.cons_append, List.mem_cons, List.mem_append, not_or]
        exact ⟨by decide, not_or.mp (mt List.mem_append.mpr hlt), by decide, by simp⟩
      cases y with
      | nil => exact ⟨rfl, (List.cons.inj hy).2⟩
      | cons c y =>
        refine absurd ?_ hrest
        have htail : y ++ bytes "</stream:stream>" = slash :: (name ++ space) ++ [gt] := (List.cons.inj hy).2
        rw [← htail]
        exact List.mem_append_right _ (List.mem_cons_self ..)
    have hbody : bytes "stream:stream" = name ++ space :=
      List.append_cancel_right (show _ ++ [gt] = _ ++ [gt] from (List.cons.inj hwhole.2).2)
    have hbehind : ∀ b ∈ space.head?, ¬ Xml.isNameByte b := fun b hb hc =>
      Xml.not_space_of_nameByte hc (List.all_eq_true.mp hspace b (List.mem_of_head? hb))
    obtain ⟨hn, hs⟩ := Xml.split_name (by decide) hall (fun b hb => by cases hb) hbehind
      ((List.append_nil _).trans hbody)
    rcases h with h | h
    · exact h hn.symm
    · exact h hs.symm
  have hopen : Reads (.idle e) [lt, slash] ⟨[lt, slash], 1, e, .endStream⟩ :=
    .cons id rfl <| .cons id rfl .nil
  obtain ⟨ho, hf⟩ := hopen.run (show 0 + 2 < 4096 by decide)
  have hsplit : Xml.closeTag name space ++ x = [lt, slash] ++ ((name ++ space) ++ gt :: x) := by
    simp only [Xml.closeTag, List.append_assoc, List.cons_append, List.nil_append]
  unfold linksFrom
  rw [hsplit, Machine.outputs_append, ho, hf, parse_silence (parseLinks rel) fun _ => rfl]
  exact endStream_refused (by decide) hgt hno

end

/-- The URL that the link gives under `rel`, as an XML parser reads both attributes. -/
def hrefs (rel : Bytes) (t : Xml.Tag) : List Bytes :=
  if (t.find (bytes "rel")).map Xml.Attr.read = some rel then
    ((t.find (bytes "href")).map Xml.Attr.read).toList.filter (bytes "wss://" <+: ·)
  else []

/-- What the filter hands out at first: the tag of a stream, and any other element as a whole. -/
def handed (e : Xml.Element) : Bytes :=
  if e.tag.empty = false ∧ StreamTag e.tag then e.tag.text else e.text

theorem tag_isPrefix_handed (e : Xml.Element) : e.tag.text <+: handed e := by
  unfold handed
  split_ifs
  · exact List.prefix_rfl
  · exact e.tag_isPrefix

theorem handed_isPrefix (e : Xml.Element) : handed e <+: e.text := by
  unfold handed
  split_ifs
  · exact e.tag_isPrefix
  · exact List.prefix_rfl

/-- The quote of the `href` follows its `=`, and its value is written as it is read; and `rel` occurs in the tag of
a stream, which is handed out without what it contains. -/
structure LinkPlain (rel : Bytes) (e : Xml.Element) : Prop where
  href : ∀ a, e.tag.find (bytes "href") = some a → a.after = [] ∧ a.raw = a.read
  rel : e.tag.empty = false → StreamTag e.tag → rel <:+: e.tag.text

abbrev wss (quote : UInt8) : Bytes := 61 :: quote :: bytes "wss://"

/-- An element in which `rel` and the start of a URL stand nowhere else than in its own attributes of these
names; an element has one of a name at most. -/
structure WssLink (rel : Bytes) (e : Xml.Element) : Prop where
  small : e.text.length ≤ 4096
  wellFormed : e.tag.WellFormed
  rel_iff : rel <:+: e.text ↔ (e.tag.find (bytes "rel")).map Xml.Attr.read = some rel
  href : ∀ quote, Xml.isQuote quote → ∀ u v, e.text = u ++ wss quote ++ v → e.tag.EqualsAt (bytes "href") u

section

variable {rel p : Bytes} {e : Xml.Element} {a : Xml.Attr} {quote : UInt8}

theorem firstIndexOf_split {s needle : Bytes} {i : Nat} (h : firstIndexOf s needle = .ok i) :
    ∃ u v, s = u ++ needle ++ v ∧ u.length = i := by
  have hl := firstIndexOf_eq_ok.mp h
  have hle := hl.le
  obtain ⟨v, hv⟩ := hl.1
  refine ⟨s.take i, v, ?_, List.length_take_of_le (by omega)⟩
  rw [List.append_assoc, hv, List.take_append_drop]

theorem isPrefix_of_append {w r v y : Bytes} (hw : quote ∉ w) (h : w ++ v = r ++ quote :: y) : w <+: r := by
  rcases List.append_eq_append_iff.mp h with ⟨c, rfl, -⟩ | ⟨c, rfl, hc⟩
  · exact List.prefix_append _ _
  · cases c with
    | nil =>
      rw [List.append_nil]
    | cons b c =>
      obtain rfl := (List.cons.inj hc).1
      exact absurd (List.mem_append_right _ (List.mem_cons_self ..)) hw

theorem wss_quote (hq : Xml.isQuote quote) : quote ∉ bytes "wss://" := by
  intro h
  have hplain : ∀ b ∈ bytes "wss://", ¬ Xml.isQuote b := by decide
  exact hplain quote h hq

theorem wssHref_value {s u raw tail : Bytes} (hs : s = u ++ 61 :: quote :: (raw ++ quote :: tail))
    (hi : firstIndexOf s (wss quote) = .ok u.length) (hraw : quote ∉ raw) (hv : Utf8.Valid raw) :
    wssHref s (wss quote) = .ok [raw] := by
  have hdrop : s.drop (u.length + 2) = raw ++ quote :: tail := by
    rw [hs, List.drop_length_add_append]
    rfl
  have hend : firstIndexOf (raw ++ quote :: tail) [quote] = .ok raw.length :=
    firstIndexOf_eq_ok.mpr (leftmost_singleton hraw _)
  unfold wssHref
  rw [hi]
  dsimp only
  rw [hdrop]
  have hneedle : ((wss quote).drop 1).take 1 = [quote] := rfl
  rw [hneedle, hend]
  dsimp only
  rw [List.take_left, fromUtf8, if_pos hv]
  rfl

theorem WssLink.href_value (h : WssLink rel e) (hq : Xml.isQuote quote) {u v y z : Bytes}
    (hz : e.tag.text ++ y ++ z = e.text) (hsplit : e.tag.text ++ y = u ++ wss quote ++ v) :
    ∃ a tail, e.tag.find (bytes "href") = some a ∧ a.after = [] ∧ a.quote = quote ∧
      bytes "wss://" <+: a.raw ∧ e.tag.text ++ y = u ++ 61 :: quote :: (a.raw ++ quote :: tail) := by
  obtain ⟨as, a, bs, heq, hname, hu⟩ :=
    h.href quote hq u (v ++ z) (by rw [← hz, ← List.append_assoc, ← hsplit])
  have htext := Xml.Tag.text_at heq
  rw [← hu] at htext
  rw [htext, List.append_assoc, List.append_assoc] at hsplit
  have hrest := List.append_cancel_left hsplit
  simp only [List.cons_append, List.append_assoc] at hrest
  have hvalue := (List.cons.inj hrest).2
  have hafter : a.after = [] := by
    cases hc : a.after with
    | nil => rfl
    | cons c w =>
      rw [hc] at hvalue
      obtain rfl := (List.cons.inj hvalue).1
      exact absurd (a.spaces.2.2 c (hc ▸ List.mem_cons_self ..)) (Xml.not_space_of_quote hq)
  rw [hafter, List.nil_append] at hvalue
  obtain ⟨hquote, hraw⟩ := List.cons.inj hvalue
  refine ⟨a, bs.flatMap Xml.Attr.text ++ (e.tag.trailing ++ (e.tag.stop ++ y)), ?_, hafter, hquote, ?_, ?_⟩
  · exact hname ▸ Xml.Tag.find_unique h.wellFormed heq
  · exact isPrefix_of_append (hquote ▸ wss_quote hq) hraw.symm
  · rw [htext, hafter, hquote]
    simp only [List.cons_append, List.nil_append, List.append_assoc]

theorem wssHref_cases (h : WssLink rel e) (hv : ∀ a ∈ e.tag.attrs, Utf8.Valid a.raw) (hq : Xml.isQuote quote) :
    (∃ a, e.tag.find (bytes "href") = some a ∧ a.after = [] ∧ a.quote = quote ∧ bytes "wss://" <+: a.raw ∧
      wssHref (handed e) (wss quote) = .ok [a.raw]) ∨
    (wssHref (handed e) (wss quote) = .ok [] ∧ ∀ a, e.tag.find (bytes "href") = some a → a.after = [] →
      a.quote = quote → ¬ bytes "wss://" <+: a.raw) := by
  obtain ⟨y, hy⟩ := tag_isPrefix_handed e
  obtain ⟨z, hz⟩ := handed_isPrefix e
  rw [← hy] at hz ⊢
  rcases firstIndexOf_cases (e.tag.text ++ y) (wss quote) with ⟨i, hi⟩ | hnone
  · obtain ⟨u, v, hsplit, rfl⟩ := firstIndexOf_split hi
    obtain ⟨a, tail, hfind, hafter, hquote, hwss, htext⟩ := h.href_value hq hz hsplit
    obtain ⟨as, bs, heq, -⟩ := Xml.Tag.find_eq_some hfind
    have hmem : a ∈ e.tag.attrs := heq ▸ List.mem_append_right _ (List.mem_cons_self ..)
    refine .inl ⟨a, hfind, hafter, hquote, hwss, ?_⟩
    exact wssHref_value htext hi (hquote ▸ a.quote_not_mem_raw) (hv a hmem)
  · refine .inr ⟨?_, ?_⟩
    · unfold wssHref
      rw [hnone]
    · intro a ha hafter hquote hwss
      obtain ⟨as, bs, heq, -⟩ := Xml.Tag.find_eq_some ha
      obtain ⟨v, hv'⟩ := hwss
      have hin : wss quote <:+: e.tag.text ++ y := by
        rw [Xml.Tag.text_at heq, hafter, hquote, ← hv']
        refine ⟨60 :: e.tag.name ++ as.flatMap Xml.Attr.text ++ a.space ++ a.name ++ a.before,
          v ++ quote :: (bs.flatMap Xml.Attr.text ++ (e.tag.trailing ++ e.tag.stop)) ++ y, ?_⟩
        simp only [List.append_assoc, List.cons_append, List.nil_append]
      obtain ⟨j, hj⟩ := exists_leftmost hin
      cases hnone.symm.trans (firstIndexOf_eq_ok.mpr hj)

/-- What is pushed for the link: the bytes of its URL, if `rel` and the start of the URL are seen. -/
def pushed (rel : Bytes) (e : Xml.Element) : List Bytes :=
  if containsSeq (handed e) rel then
    match e.tag.find (bytes "href") with
    | some a => if a.after = [] ∧ bytes "wss://" <+: a.raw then [a.raw] else []
    | none => []
  else []

theorem linkHrefs_eq (h : WssLink rel e) (hv : ∀ a ∈ e.tag.attrs, Utf8.Valid a.raw) :
    linkHrefs rel (handed e) = .ok (pushed rel e) := by
  unfold linkHrefs pushed
  split_ifs
  swap
  · rfl
  have hsingle := wssHref_cases h hv (show Xml.isQuote apos from rfl)
  have hdouble := wssHref_cases h hv (show Xml.isQuote quot from rfl)
  change (do return (← wssHref (handed e) (wss apos)) ++ (← wssHref (handed e) (wss quot))) = _
  cases hfind : e.tag.find (bytes "href") with
  | none =>
    rw [hfind] at hsingle hdouble
    obtain ⟨a, ha, -⟩ | ⟨hs, -⟩ := hsingle
    · cases ha
    obtain ⟨a, ha, -⟩ | ⟨hd, -⟩ := hdouble
    · cases ha
    rw [hs, hd]
    rfl
  | some a =>
    rw [hfind] at hsingle hdouble
    have hquote : a.quote = apos ∨ a.quote = quot := isQuote_iff.mp a.quote_ok
    dsimp only
    obtain ⟨a', ha, hafter, hs, hwss, hres⟩ | ⟨hres, hs⟩ := hsingle
    · obtain rfl := Option.some.inj ha
      obtain ⟨a', ha, -, hd, -⟩ | ⟨hres', -⟩ := hdouble
      · obtain rfl := Option.some.inj ha
        cases hs.symm.trans hd
      · rw [hres, hres', if_pos ⟨hafter, hwss⟩]
        rfl
    obtain ⟨a', ha, hafter, hd, hwss, hres'⟩ | ⟨hres', hd⟩ := hdouble
    · obtain rfl := Option.some.inj ha
      rw [hres, hres', if_pos ⟨hafter, hwss⟩]
      rfl
    · rw [hres, hres', if_neg]
      · rfl
      · rintro ⟨hafter, hwss⟩
        rcases hquote with hq | hq
        · exact hs a rfl hafter hq hwss
        · exact hd a rfl hafter hq hwss

theorem linkHrefs_free (h : ∀ quote, Xml.isQuote quote → ¬ wss quote <:+: p) : linkHrefs rel p = .ok [] := by
  have hnone : ∀ quote, Xml.isQuote quote → wssHref p (wss quote) = .ok [] := by
    intro quote hq
    unfold wssHref
    rcases firstIndexOf_cases p (wss quote) with ⟨i, hi⟩ | hnone
    · exact absurd (firstIndexOf_eq_ok.mp hi).isInfix (h quote hq)
    · rw [hnone]
  unfold linkHrefs
  split_ifs
  · change (do return (← wssHref p (wss apos)) ++ (← wssHref p (wss quot))) = _
    rw [hnone apos rfl, hnone quot rfl]
    rfl
  · rfl

theorem WssLink.inner_free (h : WssLink rel e) {y : Bytes} (hy : e.text = e.tag.text ++ y) (hq : Xml.isQuote quote) :
    ¬ wss quote <:+: y := by
  rintro ⟨u, v, huv⟩
  obtain ⟨as, a, bs, heq, -, hu⟩ := h.href quote hq (e.tag.text ++ u) v (by rw [hy, ← huv]; simp)
  have hlen := congrArg List.length (Xml.Tag.text_at heq)
  rw [← hu] at hlen
  simp only [List.length_append, List.length_cons] at hlen
  omega

end

/-- The filter reads on past the content, which it cuts up itself where an element is a stream: the end tag
of such an element has no white space. -/
def Passes : Xml.Content → Prop
  | .nil => True
  | .byte _ rest _ => Passes rest
  | .empty _ rest _ => Passes rest
  | .element t inner space rest _ _ => (StreamTag t → Passes inner ∧ space = []) ∧ Passes rest

def ElementPasses (e : Xml.Element) : Prop := StreamTag e.tag → Passes e.inner ∧ e.space = []

instance decidablePasses : (c : Xml.Content) → Decidable (Passes c)
  | .nil => isTrue trivial
  | .byte _ rest _ => decidablePasses rest
  | .empty _ rest _ => decidablePasses rest
  | .element t inner space rest _ _ =>
    have := decidablePasses inner
    have := decidablePasses rest
    inferInstanceAs (Decidable ((StreamTag t → Passes inner ∧ space = []) ∧ Passes rest))

instance (e : Xml.Element) : Decidable (ElementPasses e) :=
  inferInstanceAs (Decidable (StreamTag e.tag → Passes e.inner ∧ e.space = []))

section

variable {rel : Bytes} {found : List Bytes} {el : Xml.Element}

/-- The loop goes on behind `w` with what it has found there, or it ends in `w`. -/
def GoesOn (rel : Bytes) (found : List Bytes) (w : Bytes) (on : Prop) : Prop :=
  ∀ e x, (on → ∃ e', linksFrom rel e (w ++ x) = (do return found ++ (← linksFrom rel e' x))) ∧
    (¬ on → linksFrom rel e (w ++ x) = .ok found)

theorem return_nil (r : Outcome (List Bytes)) : (do return [] ++ (← r)) = r := by
  cases r <;> rfl

theorem linkHrefs_streamClose (rel : Bytes) : linkHrefs rel (bytes "</stream:stream>") = .ok [] := by
  refine linkHrefs_free fun quote _ h => ?_
  have hmem : (61 : UInt8) ∈ bytes "</stream:stream>" := h.subset (List.mem_cons_self ..)
  revert hmem
  decide

theorem goesOn_element {el : Xml.Element} (hlen : el.text.length ≤ 4096)
    (hfound : linkHrefs rel (handed el) = .ok found)
    (hinner : el.tag.empty = false → GoesOn rel [] el.inner.text (Passes el.inner)) :
    GoesOn rel found el.text (ElementPasses el) := by
  intro e x
  by_cases ho : StreamOpen el.tag.text
  · obtain ⟨hempty, hstream⟩ := streamOpen_iff.mp ho
    have htext : el.text = el.tag.text ++ (el.inner.text ++ Xml.closeTag el.tag.name el.space) :=
      if_neg (by rw [hempty]; exact Bool.false_ne_true)
    have hfirst : linkHrefs rel el.tag.text = .ok found := by rwa [handed, if_pos ⟨hempty, hstream⟩] at hfound
    have htag : el.tag.text.length ≤ 4096 := Nat.le_trans el.tag_isPrefix.length_le hlen
    rw [htext, List.append_assoc, List.append_assoc, linksFrom_unit (scans_streamOpen ho e) htag, hfirst,
      Outcome.ok_bind]
    obtain ⟨hon, hoff⟩ := hinner hempty (markAt e (el.tag.text.length - 1))
      (Xml.closeTag el.tag.name el.space ++ x)
    by_cases hpass : Passes el.inner
    · obtain ⟨e', he'⟩ := hon hpass
      rw [he', return_nil]
      by_cases hspace : el.space = []
      · refine ⟨fun _ => ⟨markAt e' 15, ?_⟩, fun hnot => absurd (fun _ => ⟨hpass, hspace⟩) hnot⟩
        have hclose : Xml.closeTag el.tag.name el.space = bytes "</stream:stream>" := by
          rw [hstream.name, hspace]
          rfl
        rw [hclose, linksFrom_unit (scans_streamClose e') (by decide), linkHrefs_streamClose, Outcome.ok_bind,
          return_nil]
      · refine ⟨fun hon => absurd (hon hstream).2 hspace, fun _ => ?_⟩
        rw [linksFrom_refused el.tag.name_ok el.spaces (.inr hspace), Outcome.ok_bind, List.append_nil]
        rfl
    · refine ⟨fun hon => absurd (hon hstream).1 hpass, fun _ => ?_⟩
      rw [hoff hpass, Outcome.ok_bind, List.append_nil]
      rfl
  · have hon : ElementPasses el := by
      intro hstream
      have hempty : el.tag.empty = true := by
        cases he : el.tag.empty
        · exact absurd (streamOpen_iff.mpr ⟨he, hstream⟩) ho
        · rfl
      obtain ⟨hnil, hspace⟩ := el.leaf hempty
      rw [hnil]
      exact ⟨trivial, hspace⟩
    refine ⟨fun _ => ⟨markAt e (el.tag.text.length - 1), ?_⟩, fun hnot => absurd hon hnot⟩
    rw [handed, if_neg fun h => ho (streamOpen_iff.mpr h)] at hfound
    rw [linksFrom_unit (scans_element (element_shape el) ho e) hlen, hfound]
    rfl

theorem GoesOn.append {on on' : Prop} {w w' : Bytes} (h : GoesOn rel [] w on) (h' : GoesOn rel [] w' on') :
    GoesOn rel [] (w ++ w') (on ∧ on') := by
  intro e x
  rw [List.append_assoc]
  obtain ⟨hon, hoff⟩ := h e (w' ++ x)
  constructor
  · rintro ⟨h₁, h₂⟩
    obtain ⟨e₁, he₁⟩ := hon h₁
    rw [he₁, return_nil]
    exact (h' e₁ x).1 h₂
  · intro hnot
    by_cases h₁ : on
    · obtain ⟨e₁, he₁⟩ := hon h₁
      rw [he₁, return_nil]
      exact (h' e₁ x).2 fun h₂ => hnot ⟨h₁, h₂⟩
    · exact hoff h₁

theorem GoesOn.congr {on on' : Prop} {w : Bytes} (h : GoesOn rel found w on) (hiff : on ↔ on') :
    GoesOn rel found w on' := propext hiff ▸ h

theorem GoesOn.byte {on : Prop} {b : UInt8} {w : Bytes} (hb : b ≠ lt) (h : GoesOn rel found w on) :
    GoesOn rel found (b :: w) on := by
  intro e x
  have hgap : linksFrom rel e (b :: w ++ x) = linksFrom rel e (w ++ x) :=
    linksFrom_gap (w := [b]) fun hmem => hb (List.mem_singleton.mp hmem).symm
  rw [hgap]
  exact h e x

theorem goesOn_content {c : Xml.Content} (hlen : c.text.length ≤ 4096)
    (hfree : ∀ quote, Xml.isQuote quote → ¬ wss quote <:+: c.text) : GoesOn rel [] c.text (Passes c) := by
  -- a part of the content is as short, and no URL begins in it
  have hpart : ∀ {w p : Bytes}, w <:+: c.text → p <+: w → linkHrefs rel p = .ok [] := fun hw hp =>
    linkHrefs_free fun quote hq h => hfree quote hq (h.trans (hp.isInfix.trans hw))
  induction c with
  | nil => exact fun e x => ⟨fun _ => ⟨e, (return_nil _).symm⟩, fun hnot => absurd trivial hnot⟩
  | byte b rest plain ih =>
    have hrest : rest.text <:+: (Xml.Content.byte b rest plain).text := (List.suffix_cons b rest.text).isInfix
    exact (ih (Nat.le_trans hrest.length_le hlen) (fun quote hq h => hfree quote hq (h.trans hrest))
      fun hw => hpart (hw.trans hrest)).byte plain
  | empty t rest closed ih =>
    have hfirst : t.text <:+: (Xml.Content.empty t rest closed).text := (List.prefix_append _ _).isInfix
    have hrest : rest.text <:+: (Xml.Content.empty t rest closed).text := (List.suffix_append _ _).isInfix
    have hel : GoesOn rel [] (Xml.Element.ofEmpty t).text (ElementPasses (.ofEmpty t)) := by
      refine goesOn_element ?_ (hpart ?_ (handed_isPrefix _)) fun hopen => by cases closed.symm.trans hopen
      · rw [Xml.Element.text_ofEmpty closed]
        exact Nat.le_trans hfirst.length_le hlen
      · rw [Xml.Element.text_ofEmpty closed]
        exact hfirst
    have hon : ElementPasses (.ofEmpty t) := fun _ => ⟨trivial, rfl⟩
    have hih := ih (Nat.le_trans hrest.length_le hlen) (fun quote hq h => hfree quote hq (h.trans hrest))
      fun hw => hpart (hw.trans hrest)
    have happend := hel.append hih
    rw [Xml.Element.text_ofEmpty closed] at happend
    exact happend.congr (and_iff_right hon)
  | element t inner space rest opened spaces ihinner ihrest =>
    have htext : (Xml.Content.element t inner space rest opened spaces).text =
        (Xml.Element.ofOpen t inner space opened spaces).text ++ rest.text := by
      rw [Xml.Element.text_ofOpen]
      simp only [Xml.Content.text, List.append_assoc]
    rw [htext] at hlen hfree hpart ⊢
    have hfirst : (Xml.Element.ofOpen t inner space opened spaces).text <:+:
        (Xml.Element.ofOpen t inner space opened spaces).text ++ rest.text := (List.prefix_append _ _).isInfix
    have hrest := (List.suffix_append (Xml.Element.ofOpen t inner space opened spaces).text rest.text).isInfix
    have hinside : inner.text <:+: (Xml.Element.ofOpen t inner space opened spaces).text := by
      rw [Xml.Element.text_ofOpen]
      exact ⟨t.text, Xml.closeTag t.name space, List.append_assoc _ _ _⟩
    have hin := hinside.trans hfirst
    have hel := goesOn_element (Nat.le_trans hfirst.length_le hlen) (hpart hfirst (handed_isPrefix _)) fun _ =>
      ihinner (Nat.le_trans hin.length_le hlen) (fun quote hq h => hfree quote hq (h.trans hin)) fun hw =>
        hpart (hw.trans hin)
    exact hel.append (ihrest (Nat.le_trans hrest.length_le hlen)
      (fun quote hq h => hfree quote hq (h.trans hrest)) fun hw => hpart (hw.trans hrest))

theorem goesOn_link {el : Xml.Element} (h : WssLink rel el) (hv : ∀ a ∈ el.tag.attrs, Utf8.Valid a.raw) :
    GoesOn rel (pushed rel el) el.text (ElementPasses el) := by
  refine goesOn_element h.small (linkHrefs_eq h hv) fun hopen => ?_
  have htext : el.text = el.tag.text ++ (el.inner.text ++ Xml.closeTag el.tag.name el.space) :=
    if_neg (by rw [hopen]; exact Bool.false_ne_true)
  have hin : el.inner.text <:+: el.text := by
    rw [htext]
    exact ⟨el.tag.text, Xml.closeTag el.tag.name el.space, List.append_assoc _ _ _⟩
  exact goesOn_content (Nat.le_trans hin.length_le h.small) fun quote hq hsub =>
    h.inner_free htext hq (hsub.trans (List.prefix_append _ _).isInfix)

def collected (rel : Bytes) : List Xml.Element → List Bytes
  | [] => []
  | el :: els => pushed rel el ++ if ElementPasses el then collected rel els else []

theorem collected_cons (rel : Bytes) (el : Xml.Element) (els : List Xml.Element) : collected rel (el :: els) =
    pushed rel el ++ if ElementPasses el then collected rel els else [] := rfl

theorem GoesOn.collect {el : Xml.Element} {els : List Xml.Element} {w x : Bytes}
    (h : GoesOn rel (pushed rel el) w (ElementPasses el))
    (hx : ∀ e, linksFrom rel e x = .ok (collected rel els)) (e : Nat) :
    linksFrom rel e (w ++ x) = .ok (collected rel (el :: els)) := by
  obtain ⟨hon, hoff⟩ := h e x
  rw [collected_cons]
  by_cases hpass : ElementPasses el
  · obtain ⟨e', he'⟩ := hon hpass
    rw [he', hx, if_pos hpass]
    rfl
  · rw [hoff hpass, if_neg hpass, List.append_nil]

theorem linksFrom_content {c : Xml.Content} {x : Bytes}
    (hc : ∀ el ∈ c.children, WssLink rel el ∧ ∀ a ∈ el.tag.attrs, Utf8.Valid a.raw)
    (hx : ∀ e, linksFrom rel e x = .ok []) (e : Nat) :
    linksFrom rel e (c.text ++ x) = .ok (collected rel c.children) := by
  induction c generalizing e with
  | nil => exact hx e
  | byte b rest plain ih =>
    have hgap : linksFrom rel e (b :: (rest.text ++ x)) = linksFrom rel e (rest.text ++ x) :=
      linksFrom_gap (w := [b]) fun hmem => plain (List.mem_singleton.mp hmem).symm
    exact hgap.trans (ih hc e)
  | empty t rest closed ih =>
    obtain ⟨hlink, hv⟩ := hc (.ofEmpty t) (List.mem_cons_self ..)
    have hrest := ih fun el hel => hc el (List.mem_cons_of_mem _ hel)
    have hall := (goesOn_link hlink hv).collect hrest e
    rwa [Xml.Element.text_ofEmpty closed, ← List.append_assoc] at hall
  | element t inner space rest opened spaces _ ih =>
    obtain ⟨hlink, hv⟩ := hc (.ofOpen t inner space opened spaces) (List.mem_cons_self ..)
    have hrest := ih fun el hel => hc el (List.mem_cons_of_mem _ hel)
    have hall := (goesOn_link hlink hv).collect hrest e
    rw [Xml.Element.text_ofOpen] at hall
    have htext : (Xml.Content.element t inner space rest opened spaces).text ++ x =
        t.text ++ (inner.text ++ Xml.closeTag t.name space) ++ (rest.text ++ x) := by
      simp only [Xml.Content.text, List.append_assoc]
    rw [htext]
    exact hall

theorem wss_read {a : Xml.Attr} (hwss : bytes "wss://" <+: a.raw) : bytes "wss://" <+: a.read :=
  Xml.Attr.isPrefix_read (by decide) hwss

theorem WssLink.pushed_length (h : WssLink rel el) : (pushed rel el).length ≤ (hrefs rel el.tag).length := by
  unfold pushed hrefs
  split
  swap
  · exact Nat.zero_le _
  next hrel =>
    rw [if_pos (h.rel_iff.mp ((containsSeq_iff.mp hrel).trans (handed_isPrefix el).isInfix))]
    cases el.tag.find (bytes "href") with
    | none => exact Nat.zero_le _
    | some a =>
      dsimp only
      split_ifs with hseen
      · rw [Option.map_some, Option.toList_some, List.filter_singleton, decide_eq_true (wss_read hseen.2)]
        exact Nat.le_refl _
      · exact Nat.zero_le _

/-- The URL is pushed as it is read exactly where it is plain. -/
theorem WssLink.pushed_eq_iff (h : WssLink rel el) :
    pushed rel el = hrefs rel el.tag ↔ (hrefs rel el.tag ≠ [] → LinkPlain rel el) := by
  have hlen := h.pushed_length
  by_cases hnil : hrefs rel el.tag = []
  · rw [hnil, List.length_nil, Nat.le_zero, List.length_eq_zero_iff] at hlen
    exact iff_of_true (hlen.trans hnil.symm) fun hne => absurd hnil hne
  rw [forall_prop_of_true hnil]
  unfold hrefs at hnil ⊢
  split_ifs at hnil ⊢ with hrel
  swap
  · exact absurd rfl hnil
  obtain ⟨a, hfind⟩ : ∃ a, el.tag.find (bytes "href") = some a := by
    cases hc : el.tag.find (bytes "href") with
    | none => exact absurd (by rw [hc]; rfl) hnil
    | some a => exact ⟨a, rfl⟩
  rw [hfind, Option.map_some, Option.toList_some, List.filter_singleton] at hnil ⊢
  have hread : bytes "wss://" <+: a.read := by
    by_contra hno
    rw [decide_eq_false hno] at hnil
    exact hnil rfl
  rw [decide_eq_true hread, cond_true, pushed, hfind]
  dsimp only
  constructor
  · intro heq
    obtain ⟨hseen, hurl⟩ : containsSeq (handed el) rel = true ∧ a.after = [] ∧ bytes "wss://" <+: a.raw := by
      split_ifs at heq with hseen hurl
      exact ⟨hseen, hurl⟩
    rw [if_pos hseen, if_pos hurl] at heq
    refine ⟨fun a' ha' => ?_, fun hempty hstream => ?_⟩
    · obtain rfl := Option.some.inj (hfind.symm.trans ha')
      exact ⟨hurl.1, (List.cons.inj heq).1⟩
    · rw [handed, if_pos ⟨hempty, hstream⟩] at hseen
      exact containsSeq_iff.mp hseen
  · intro hplain
    obtain ⟨hafter, hraw⟩ := hplain.href a hfind
    have hseen : containsSeq (handed el) rel = true := by
      rw [containsSeq_iff, handed]
      split_ifs with hstream
      · exact hplain.rel hstream.1 hstream.2
      · exact h.rel_iff.mpr hrel
    rw [if_pos hseen, if_pos ⟨hafter, hraw ▸ hread⟩, hraw]

/-- The links that have to be found, and behind which others. -/
def AllFound (rel : Bytes) (els : List Xml.Element) : Prop :=
  ∀ before el behind, els = before ++ el :: behind → hrefs rel el.tag ≠ [] →
    (∀ el' ∈ before, ElementPasses el') ∧ LinkPlain rel el

theorem allFound_cons {el : Xml.Element} {els : List Xml.Element} : AllFound rel (el :: els) ↔
    (hrefs rel el.tag ≠ [] → LinkPlain rel el) ∧
      (els.flatMap (fun el => hrefs rel el.tag) ≠ [] → ElementPasses el) ∧ AllFound rel els := by
  constructor
  · intro h
    refine ⟨fun hne => (h [] el els rfl hne).2, fun hne => ?_, fun before el' behind heq hne => ?_⟩
    · obtain ⟨url, hurl⟩ := List.exists_mem_of_ne_nil _ hne
      obtain ⟨el', hel', hmem⟩ := List.mem_flatMap.mp hurl
      obtain ⟨before, behind, rfl⟩ := List.append_of_mem hel'
      exact (h (el :: before) el' behind rfl (List.ne_nil_of_mem hmem)).1 el (List.mem_cons_self ..)
    · obtain ⟨hpass, hplain⟩ := h (el :: before) el' behind (by rw [heq]; rfl) hne
      exact ⟨fun el'' hmem => hpass el'' (List.mem_cons_of_mem _ hmem), hplain⟩
  · rintro ⟨hplain, hpass, hrest⟩ before el' behind heq hne
    cases before with
    | nil =>
      obtain ⟨rfl, -⟩ := List.cons.inj heq
      exact ⟨fun _ hmem => absurd hmem List.not_mem_nil, hplain hne⟩
    | cons c before =>
      obtain ⟨rfl, rfl⟩ := List.cons.inj heq
      obtain ⟨hall, hplain'⟩ := hrest before el' behind rfl hne
      have hflat : (before ++ el' :: behind).flatMap (fun el => hrefs rel el.tag) ≠ [] := by
        obtain ⟨url, hurl⟩ := List.exists_mem_of_ne_nil _ hne
        exact List.ne_nil_of_mem
          (List.mem_flatMap.mpr ⟨el', List.mem_append_right _ (List.mem_cons_self ..), hurl⟩)
      refine ⟨fun el'' hmem => ?_, hplain'⟩
      rcases List.mem_cons.mp hmem with rfl | hmem
      · exact hpass hflat
      · exact hall el'' hmem

theorem collected_length {els : List Xml.Element} (h : ∀ el ∈ els, WssLink rel el) :
    (collected rel els).length ≤ (els.flatMap fun el => hrefs rel el.tag).length := by
  induction els with
  | nil => exact Nat.le_refl _
  | cons el els ih =>
    have hpushed := (h el (List.mem_cons_self ..)).pushed_length
    have hrest := ih fun el hel => h el (List.mem_cons_of_mem _ hel)
    rw [collected_cons, List.flatMap_cons, List.length_append, List.length_append]
    split_ifs
    · omega
    · rw [List.length_nil]
      omega

theorem collected_eq_iff {els : List Xml.Element} (h : ∀ el ∈ els, WssLink rel el) :
    collected rel els = els.flatMap (fun el => hrefs rel el.tag) ↔ AllFound rel els := by
  induction els with
  | nil => exact iff_of_true rfl fun before el behind h => by simp at h
  | cons el els ih =>
    have hlink := h el (List.mem_cons_self ..)
    have hrest := fun el hel => h el (List.mem_cons_of_mem _ hel)
    have hpushed := hlink.pushed_length
    have hcollected := collected_length hrest
    rw [allFound_cons, ← ih hrest, ← hlink.pushed_eq_iff, collected_cons, List.flatMap_cons]
    constructor
    · intro heq
      -- each link pushes one URL at most, so that both parts agree
      have hlen := congrArg List.length heq
      rw [List.length_append, List.length_append] at hlen
      by_cases hpass : ElementPasses el
      · rw [if_pos hpass] at heq hlen
        obtain ⟨hfirst, hbehind⟩ := List.append_inj heq (by omega)
        exact ⟨hfirst, fun _ => hpass, hbehind⟩
      · rw [if_neg hpass] at heq hlen
        rw [List.length_nil] at hlen
        obtain ⟨hfirst, hbehind⟩ := List.append_inj heq (by omega)
        have hnil : collected rel els = [] := List.eq_nil_of_length_eq_zero (by omega)
        exact ⟨hfirst, fun hne => absurd hbehind.symm hne, hnil.trans hbehind⟩
    · rintro ⟨hfirst, hpass, hbehind⟩
      rw [hfirst]
      split_ifs with hpasses
      · rw [hbehind]
      · rw [eq_comm, List.append_cancel_left_eq]
        by_contra hne
        exact hpasses (hpass hne)

end

/-- A declaration, if there is one, a root element, and no markup besides. -/
structure Document where
  declaration : Option Bytes
  gap : Bytes
  root : Xml.Element
  trailing : Bytes
  declaration_ok : ∀ w ∈ declaration, gt ∉ w
  gap_ok : lt ∉ gap
  trailing_ok : lt ∉ trailing

namespace Document

def declarationText (d : Document) : Bytes :=
  match d.declaration with
  | some w => bytes "<?xml " ++ (w ++ [gt])
  | none => []

def text (d : Document) : Bytes := d.declarationText ++ (d.gap ++ (d.root.text ++ d.trailing))

end Document

def stanzasFrom (rel w : Bytes) : Outcome (List Bytes) :=
  parseStanzas rel ((scanNextEoft 8192).outputs (.idle 0) w)

section

variable {rel u w x : Bytes} {e : Nat}

theorem stanzasFrom_gap (hw : lt ∉ w) : stanzasFrom rel (w ++ x) = stanzasFrom rel x := by
  induction w with
  | nil => rfl
  | cons b w ih =>
    obtain ⟨hb, hw⟩ := not_or.mp (mt List.mem_cons.mpr hw)
    have hstep : (scanNextEoft 8192).step (.idle 0) b = (.ok none, .idle 0) := by
      change (Scanner.idle 0).nextEoft 8192 b = _
      unfold Scanner.nextEoft Scanner.next
      rw [if_pos (show (Scanner.idle 0).part.length < 8192 by decide)]
      simp only [Scanner.dispatch, Scanner.idle, if_neg (Ne.symm hb)]
    unfold stanzasFrom at ih ⊢
    rw [List.cons_append, Machine.outputs_cons, hstep]
    exact ih hw

theorem stanzasFrom_unit (h : Replays u e) (hlen : u.length ≤ 8192) : stanzasFrom rel (u ++ x) =
    parseStanzas rel (.ok (some (u, e)) :: (scanNextEoft 8192).outputs (.idle 0) x) := by
  obtain ⟨ho, hf⟩ := h.run hlen
  unfold stanzasFrom
  rw [Machine.outputs_append, ho, hf, List.append_assoc, parse_silence (parseStanzas rel) fun _ => rfl]
  rfl

theorem xmlTag_full {p : Bytes} (hp : p.length < 8192) (hw : gt ∉ w) (hlen : 8192 ≤ p.length + w.length) :
    ∃ err, parseStanzas rel ((scanNextEoft 8192).outputs ⟨p, 1, 0, .xmlTag⟩ (w ++ x)) = .err err := by
  induction w generalizing p with
  | nil =>
    rw [List.length_nil] at hlen
    omega
  | cons a w ih =>
    obtain ⟨ha, hw⟩ := not_or.mp (mt List.mem_cons.mpr hw)
    have hnext : (⟨p, 1, 0, .xmlTag⟩ : Scanner).next 8192 a = Scanner.advance 8192 ⟨p, 1, 0, .xmlTag⟩ a := by
      unfold Scanner.next
      rw [if_pos hp]
      simp only [Scanner.dispatch, if_neg (Ne.symm ha)]
    rw [List.cons_append, Machine.outputs_cons]
    change ∃ err, parseStanzas rel (((⟨p, 1, 0, .xmlTag⟩ : Scanner).nextEoft 8192 a).1 ::
      (scanNextEoft 8192).outputs ((⟨p, 1, 0, .xmlTag⟩ : Scanner).nextEoft 8192 a).2 (w ++ x)) = .err err
    unfold Scanner.nextEoft
    rw [hnext]
    unfold Scanner.advance
    split_ifs with hfull
    · exact ⟨_, rfl⟩
    · change ¬ (p ++ [a]).length = 8192 at hfull
      have hadd : (p ++ [a]).length = p.length + 1 := List.length_append
      rw [List.length_cons] at hlen
      exact ih (p := p ++ [a]) (by omega) hw (by omega)

theorem declaration_long (hw : gt ∉ w) (hlen : 8192 < (bytes "<?xml " ++ (w ++ [gt])).length) :
    ∃ err, stanzasFrom rel (bytes "<?xml " ++ (w ++ [gt]) ++ x) = .err err := by
  have hopen : Trace (.idle 0) (bytes "<?xml ") ⟨bytes "<?xml ", 1, 0, .xmlTag⟩ :=
    .cons rfl <| .cons rfl <| .cons rfl <| .cons rfl <| .cons rfl <| .cons rfl .nil
  obtain ⟨ho, hf⟩ := hopen.run (show 0 + 6 < 8192 by decide)
  have hsix : (bytes "<?xml ").length = 6 := by decide
  rw [List.length_append, List.length_append, List.length_singleton, hsix] at hlen
  unfold stanzasFrom
  rw [List.append_assoc, List.append_assoc, Machine.outputs_append, ho, hf, parse_silence (parseStanzas rel) fun _ => rfl]
  exact xmlTag_full (by decide) hw (by omega)

end

/-- `parse_host_meta_xml` takes the root for the list of links. -/
def XrdRoot (d : Document) : Prop := bytes "<XRD" <+: d.root.text ∨ bytes "<xrd" <+: d.root.text

section

variable {rel x : Bytes} {d : Document}

theorem XrdRoot.not_stream (h : XrdRoot d) : d.root.tag.name ≠ bytes "stream:stream" := by
  intro hname
  obtain ⟨y, hy⟩ := d.root.tag_isPrefix
  have hstream : bytes "<s" <+: d.root.text := by
    rw [← hy, Xml.Tag.text, Xml.Tag.head, hname]
    exact ⟨_, rfl⟩
  rcases h with h | h
  · exact absurd (List.prefix_of_prefix_length_le hstream h (by decide)) (by decide)
  · exact absurd (List.prefix_of_prefix_length_le hstream h (by decide)) (by decide)

/-- The inner reader begins at the `>` of the root's first tag. -/
theorem root_drop (e : Xml.Element) : e.text.drop (e.tag.text.length - 1) =
    if e.tag.empty then [gt] else gt :: (e.inner.text ++ Xml.closeTag e.tag.name e.space) := by
  obtain ⟨w, -, hw⟩ := e.tag.body
  unfold Xml.Element.text
  rw [hw, List.length_append, List.length_singleton, Nat.add_sub_cancel]
  split_ifs
  · rw [List.drop_left]
  · rw [List.append_assoc, List.drop_left]
    rfl

theorem root_links (hxrd : XrdRoot d)
    (hlinks : ∀ el ∈ d.root.inner.children, WssLink rel el ∧ ∀ a ∈ el.tag.attrs, Utf8.Valid a.raw) :
    parseLinks rel (filterNext.outputs (.new 4096) (d.root.text.drop (d.root.tag.text.length - 1))) =
      .ok (collected rel d.root.inner.children) := by
  rw [(filterNext_refines 4096).outputs_eq (refines_new 4096)]
  change linksFrom rel 0 _ = _
  rw [root_drop]
  have hskip : ∀ w, linksFrom rel 0 (gt :: w) = linksFrom rel 0 w := fun w =>
    linksFrom_gap (w := [gt]) (by decide)
  split_ifs with hempty
  · rw [hskip, (d.root.leaf hempty).1]
    rfl
  · rw [hskip]
    have hend : ∀ e, linksFrom rel e (Xml.closeTag d.root.tag.name d.root.space) = .ok [] := by
      intro e
      have h : linksFrom rel e (Xml.closeTag d.root.tag.name d.root.space ++ []) = .ok [] :=
        linksFrom_refused d.root.tag.name_ok d.root.spaces (.inl hxrd.not_stream)
      rwa [List.append_nil] at h
    exact linksFrom_content hlinks hend 0

theorem stanzasFrom_root (hxrd : XrdRoot d) (hsize : d.root.text.length ≤ 8192)
    (hlinks : ∀ el ∈ d.root.inner.children, WssLink rel el ∧ ∀ a ∈ el.tag.attrs, Utf8.Valid a.raw) :
    stanzasFrom rel (d.root.text ++ d.trailing) = .ok (collected rel d.root.inner.children) := by
  have hstream : ¬ StreamOpen d.root.tag.text := fun h => hxrd.not_stream (streamOpen_iff.mp h).2.name
  have hreplays := (scans_element (element_shape d.root) hstream 0).replays
  have hmark : markAt 0 (d.root.tag.text.length - 1) = d.root.tag.text.length - 1 := if_pos rfl
  have hle : d.root.tag.text.length - 1 ≤ d.root.text.length :=
    Nat.le_trans (Nat.sub_le _ _) d.root.tag_isPrefix.length_le
  have htrailing : stanzasFrom rel (d.trailing ++ []) = .ok [] := stanzasFrom_gap d.trailing_ok
  rw [List.append_nil] at htrailing
  have hx : bytes "<XRD" <+: d.root.text ∨ bytes "<xrd" <+: d.root.text := hxrd
  rw [stanzasFrom_unit hreplays hsize, hmark, parseStanzas, if_pos hx, if_pos hle, root_links hxrd hlinks]
  change (do return _ ++ (← stanzasFrom rel d.trailing)) = _
  rw [htrailing]
  change Outcome.ok (_ ++ []) = _
  rw [List.append_nil]

theorem parseHostMetaXml_from (rel w : Bytes) : parseHostMetaXml rel w = stanzasFrom rel w := by
  unfold parseHostMetaXml
  rw [(filterNextEoft_refines 8192).outputs_eq (refines_new 8192)]
  rfl

theorem parseHostMetaXml_fits (hxrd : XrdRoot d) (hsize : d.root.text.length ≤ 8192)
    (hlinks : ∀ el ∈ d.root.inner.children, WssLink rel el ∧ ∀ a ∈ el.tag.attrs, Utf8.Valid a.raw)
    (hfits : d.declarationText.length ≤ 8192) :
    parseHostMetaXml rel d.text = .ok (collected rel d.root.inner.children) := by
  have hroot := stanzasFrom_root hxrd hsize hlinks
  rw [parseHostMetaXml_from, ← hroot]
  unfold Document.text
  cases hdecl : d.declaration with
  | none =>
    rw [Document.declarationText, hdecl]
    exact stanzasFrom_gap d.gap_ok
  | some w =>
    rw [Document.declarationText, hdecl] at hfits ⊢
    have hw := d.declaration_ok w (by rw [hdecl]; rfl)
    rw [stanzasFrom_unit (scans_xmlDecl hw 0).replays hfits, parseStanzas, if_neg]
    · exact stanzasFrom_gap d.gap_ok
    · rintro (⟨y, hy⟩ | ⟨y, hy⟩)
      · cases (List.cons.inj (List.cons.inj hy).2).1
      · cases (List.cons.inj (List.cons.inj hy).2).1

theorem parseHostMetaXml_long (hlong : ¬ d.declarationText.length ≤ 8192) :
    ∃ err, parseHostMetaXml rel d.text = .err err := by
  rw [parseHostMetaXml_from]
  unfold Document.text
  cases hdecl : d.declaration with
  | none =>
    rw [Document.declarationText, hdecl] at hlong
    exact absurd (Nat.zero_le _) hlong
  | some w =>
    rw [Document.declarationText, hdecl] at hlong ⊢
    exact declaration_long (d.declaration_ok w (by rw [hdecl]; rfl)) (Nat.lt_of_not_le hlong)

theorem link_values (hutf8 : Utf8.Valid d.text) {el : Xml.Element} (hel : el ∈ d.root.inner.children) :
    ∀ a ∈ el.tag.attrs, Utf8.Valid a.raw := by
  intro a ha
  have hinner : el.text <:+: d.root.text := by
    refine (Xml.Content.children_isInfix hel).trans ?_
    unfold Xml.Element.text
    split_ifs with hempty
    · rw [(d.root.leaf hempty).1]
      exact List.nil_infix
    · exact ⟨d.root.tag.text, Xml.closeTag d.root.tag.name d.root.space, List.append_assoc _ _ _⟩
  have hdoc : d.root.text <:+: d.text :=
    ⟨d.declarationText ++ d.gap, d.trailing, by simp only [Document.text, List.append_assoc]⟩
  have htext : a.text <:+: el.text := (Xml.Tag.infix_of_attr ha).trans
    ((List.prefix_append _ _).isInfix.trans el.tag_isPrefix.isInfix)
  obtain ⟨u, v, huv⟩ := htext.trans (hinner.trans hdoc)
  obtain ⟨y, hfront, -, -⟩ := a.front_eq
  have hquote : a.quote < 0x80 := by
    rcases isQuote_iff.mp a.quote_ok with h | h
    · rw [h]
      decide
    · rw [h]
      decide
  rw [← huv, Xml.Attr.text, hfront] at hutf8
  refine Utf8.Valid.between (u := u ++ y) (w := v) hquote hquote ?_
  simpa only [List.append_assoc, List.cons_append, List.nil_append] using hutf8

end

/-- The links with `rel` are found, in the order of the document and no others, exactly where the declaration
fits into the filter, and every link that gives a URL gives it plainly and stands behind no element in which
the loop ends. -/
theorem host_meta_xml_iff (rel : Bytes) (d : Document) (hutf8 : Utf8.Valid d.text) (hxrd : XrdRoot d)
    (hsize : d.root.text.length ≤ 8192) (hlinks : ∀ el ∈ d.root.inner.children, WssLink rel el) :
    parseHostMetaXml rel d.text = .ok (d.root.inner.children.flatMap fun el => hrefs rel el.tag) ↔
      d.declarationText.length ≤ 8192 ∧ AllFound rel d.root.inner.children := by
  by_cases hfits : d.declarationText.length ≤ 8192
  · rw [parseHostMetaXml_fits hxrd hsize (fun el hel => ⟨hlinks el hel, link_values hutf8 hel⟩) hfits,
      Outcome.ok.injEq, collected_eq_iff hlinks, and_iff_right hfits]
  · have hlong : ∃ err, parseHostMetaXml rel d.text = .err err := parseHostMetaXml_long hfits
    obtain ⟨err, herr⟩ := hlong
    rw [herr]
    exact iff_of_false (fun h => by cases h) fun h => hfits h.1

/-- `<Link rel='r' href='wss://h'/>`, with white space behind the second `=`. -/
def linkTag (after : Bytes) (hafter : after.all Xml.isSpace) : Xml.Tag where
  name := bytes "Link"
  attrs := [Xml.PlainAttr.attr ⟨[32], bytes "rel", apos, bytes "r"⟩ (by decide),
    { Xml.PlainAttr.attr ⟨[32], bytes "href", apos, bytes "wss://h"⟩ (by decide) with
      after := after
      allSpace := hafter }]
  trailing := []
  empty := true
  name_ok := by decide
  trailing_ok := List.all_nil

/-- `<XRD><Link .../></XRD>` -/
def linkDocument (after : Bytes) (hafter : after.all Xml.isSpace) : Document where
  declaration := none
  gap := []
  root := .ofOpen (.ofPlain (bytes "XRD") [] false (by decide)) (.empty (linkTag after hafter) .nil rfl) [] rfl
    List.all_nil
  trailing := []
  declaration_ok := fun w hw => by cases hw
  gap_ok := by decide
  trailing_ok := by decide

theorem wssLink_of_places {rel : Bytes} {e : Xml.Element} (hsmall : e.text.length ≤ 4096)
    (hwf : e.tag.WellFormed) (hrel : rel <:+: e.text ↔ (e.tag.find (bytes "rel")).map Xml.Attr.read = some rel)
    (hplaces : ∀ quote ∈ [apos, quot], ∀ i < e.text.length, wss quote <+: e.text.drop i →
      e.tag.EqualsAt (bytes "href") (e.text.take i)) : WssLink rel e where
  small := hsmall
  wellFormed := hwf
  rel_iff := hrel
  href := by
    intro quote hq u v huv
    have hmem : quote ∈ [apos, quot] := by
      rcases isQuote_iff.mp hq with h | h
      · rw [h]
        exact List.mem_cons_self ..
      · rw [h]
        exact List.mem_cons_of_mem _ (List.mem_singleton_self _)
    have hlen : u.length < e.text.length := by
      rw [huv, List.length_append, List.length_append, List.length_cons]
      omega
    have hat : wss quote <+: e.text.drop u.length := by
      rw [huv, List.append_assoc, List.drop_left]
      exact List.prefix_append _ _
    have htake : e.text.take u.length = u := by rw [huv, List.append_assoc, List.take_left]
    exact htake ▸ hplaces quote hmem u.length hlen hat

theorem linkDocument_plain : ∀ el ∈ (linkDocument [] rfl).root.inner.children, WssLink (bytes "r") el := by
  intro el hel
  obtain rfl := List.mem_singleton.mp hel
  refine wssLink_of_places (by decide) (by decide) (by decide) fun quote hq i hi hat => ?_
  have hplace : ∀ quote ∈ [apos, quot], ∀ i < (Xml.Element.ofEmpty (linkTag [] rfl)).text.length,
      wss quote <+: (Xml.Element.ofEmpty (linkTag [] rfl)).text.drop i → i = 18 := by decide
  obtain rfl := hplace quote hq i hi hat
  exact ⟨(linkTag [] rfl).attrs.take 1, _, [], rfl, rfl, by decide⟩

theorem linkDocument_space : ∀ el ∈ (linkDocument [32] rfl).root.inner.children, WssLink (bytes "r") el := by
  intro el hel
  obtain rfl := List.mem_singleton.mp hel
  refine wssLink_of_places (by decide) (by decide) (by decide) fun quote hq i hi hat => ?_
  have hplace : ∀ quote ∈ [apos, quot], ∀ i < (Xml.Element.ofEmpty (linkTag [32] rfl)).text.length,
      ¬ wss quote <+: (Xml.Element.ofEmpty (linkTag [32] rfl)).text.drop i := by decide
  exact absurd hat (hplace quote hq i hi)

theorem host_meta_xml_plain : parseHostMetaXml (bytes "r") (linkDocument [] rfl).text =
      .ok ((linkDocument [] rfl).root.inner.children.flatMap fun el => hrefs (bytes "r") el.tag) ↔
    (linkDocument [] rfl).declarationText.length ≤ 8192 ∧
      AllFound (bytes "r") (linkDocument [] rfl).root.inner.children :=
  host_meta_xml_iff (bytes "r") (linkDocument [] rfl) (by decide) (.inl (by decide)) (by decide)
    linkDocument_plain

/-- The URL behind a blank is missed. -/
theorem host_meta_xml_space :
    ¬ ∀ rel (d : Document), Utf8.Valid d.text → XrdRoot d → d.root.text.length ≤ 8192 →
      (∀ el ∈ d.root.inner.children, WssLink rel el) →
        parseHostMetaXml rel d.text = .ok (d.root.inner.children.flatMap fun el => hrefs rel el.tag) := by
  intro h
  have hutf8 : Utf8.Valid (linkDocument [32] rfl).text := by decide
  have hxrd : XrdRoot (linkDocument [32] rfl) := .inl (by decide)
  have hall := h (bytes "r") (linkDocument [32] rfl) hutf8 hxrd (by decide) linkDocument_space
  rw [parseHostMetaXml_fits hxrd (by decide)
    (fun el hel => ⟨linkDocument_space el hel, link_values hutf8 hel⟩) (by decide)] at hall
  revert hall
  decide

end XmppProxy
