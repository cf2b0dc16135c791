import Mathlib.GroupTheory.Perm.Basic
import XmppProxy.Lib.Fields
import XmppProxy.Model.TlsIncoming
import XmppProxy.Proxy.Search

/-! The stream header that is sent back before TLS. The chain of replacements is an edit of the attributes:
`to` and `from` change their names, the value of `id` is extended, or an `id` is put in. -/

namespace XmppProxy.StreamReply

open Lib Lib.Xml

/-- ` n=` stands in the field only where `n` is its whole word. -/
structure Findable (n : Bytes) (f : Field) : Prop where
  value : ¬ 32 :: n ++ [61] <:+: f.value
  word : ¬ 32 :: n <:+ f.word

namespace Findable

variable {f : Field} {n m w v : Bytes} {c : UInt8}

theorem blank_unmarked (hn : Unmarked n) : Unmarked (32 :: n) := by
  intro b hb
  rcases List.mem_cons.mp hb with rfl | hb
  · decide
  · exact hn b hb

theorem free (h : Findable n f) (hn : Unmarked n) (hne : f.word ≠ n) : Free f.text (32 :: n ++ [61]) :=
  Field.needle_free (blank_unmarked hn) h.value fun hs => hne ((Field.whole_word h.word).mp hs)

theorem quoted_free (h : Findable n f) (hn : Unmarked n) (hc : isQuote c)
    (hne : ¬ (f.word = n ∧ f.after = [] ∧ f.quote = c)) : Free f.text (32 :: n ++ [61, c]) :=
  Field.quoted_free (blank_unmarked hn) hc h.value fun hs => hne ⟨(Field.whole_word h.word).mp hs.1, hs.2⟩

theorem rename (h : Findable n f) (hw : Unmarked w) (hword : ¬ 32 :: n <:+ w) : Findable n (f.rename w hw) :=
  ⟨h.value, hword⟩

theorem extend (h : Findable n f) (hv : Free v (32 :: n ++ [61])) : Findable n (f.extend v) :=
  ⟨fun hin => h.value (infix_of_append hv hin), h.word⟩

end Findable

def exchange (n w : Bytes) (hw : Unmarked w) (f : Field) : Field := if f.word = n then f.rename w hw else f

theorem exchange_word (n w : Bytes) (hw : Unmarked w) (f : Field) :
    (exchange n w hw f).word = if f.word = n then w else f.word := by
  unfold exchange
  split_ifs <;> rfl

theorem Findable.exchange {f : Field} {m n w : Bytes} (h : Findable m f) (hw : Unmarked w) (hword : ¬ 32 :: m <:+ w) :
    Findable m (StreamReply.exchange n w hw f) := by
  unfold StreamReply.exchange
  split_ifs
  · exact h.rename hw hword
  · exact h

section Replacements

variable {fs : List Field} {tail n w : Bytes}

theorem not_infix_tail (htail : 61 ∉ tail) {q : Bytes} (hq : 61 ∈ q) : ¬ q <:+: tail := fun h => htail (h.subset hq)

theorem replaceFirst_word (new : List Field) (hn : Unmarked n) (hw : Unmarked w) (hfind : ∀ f ∈ fs, Findable n f)
    (hone : fs.Pairwise fun f g => ¬ (f.word = n ∧ g.word = n)) (htail : 61 ∉ tail) :
    replaceFirst (fs.flatMap Field.text ++ tail) (32 :: n ++ [61]) (new.flatMap Field.text ++ (32 :: w ++ [61])) =
      (fs.flatMap fun f => if f.word = n then new ++ [f.rename w hw] else [f]).flatMap Field.text ++ tail := by
  have hhit : ∀ f ∈ fs, f.word = n → ∃ v, f.text = 32 :: n ++ [61] ++ v ∧
      new.flatMap Field.text ++ (f.rename w hw).text = new.flatMap Field.text ++ (32 :: w ++ [61]) ++ v := by
    intro f _ hf
    refine ⟨f.behind, ?_, ?_⟩
    · rw [Field.text, hf]
      simp
    · simp [Field.text, Field.rename, Field.behind]
  have hmiss : ∀ f ∈ fs, ¬ f.word = n → Free f.text (32 :: n ++ [61]) :=
    fun f hf hne => (hfind f hf).free hn hne
  rw [replaceFirst_flatMap (fun f => f.word = n) (fun f => new.flatMap Field.text ++ (f.rename w hw).text)
    hhit hmiss hone (not_infix_tail htail (by simp)), List.flatMap_assoc]
  refine congrArg (· ++ tail) (List.flatMap_congr fun f _ => ?_)
  split_ifs <;> simp

theorem replaceFirst_name (hn : Unmarked n) (hw : Unmarked w) (hfind : ∀ f ∈ fs, Findable n f)
    (hone : fs.Pairwise fun f g => ¬ (f.word = n ∧ g.word = n)) (htail : 61 ∉ tail) :
    replaceFirst (fs.flatMap Field.text ++ tail) (32 :: n ++ [61]) (32 :: w ++ [61]) =
      (fs.map (exchange n w hw)).flatMap Field.text ++ tail := by
  have h := replaceFirst_word [] hn hw hfind hone htail
  rw [List.flatMap_nil, List.nil_append] at h
  rw [h, List.map_eq_flatMap]
  refine congrArg (·.flatMap Field.text ++ tail) (List.flatMap_congr fun f _ => ?_)
  unfold exchange
  split_ifs <;> rfl

theorem replaceFirst_value (v : Bytes) {c : UInt8} (hn : Unmarked n) (hc : isQuote c)
    (hfind : ∀ f ∈ fs, Findable n f) (hone : fs.Pairwise fun f g => ¬ (f.word = n ∧ g.word = n)) (htail : 61 ∉ tail) :
    replaceFirst (fs.flatMap Field.text ++ tail) (32 :: n ++ [61, c]) (32 :: n ++ [61, c] ++ v) =
      (fs.map fun f => if f.word = n ∧ f.after = [] ∧ f.quote = c then f.extend v else f).flatMap Field.text ++
        tail := by
  have hhit : ∀ f ∈ fs, f.word = n ∧ f.after = [] ∧ f.quote = c → ∃ u, f.text = 32 :: n ++ [61, c] ++ u ∧
      (f.extend v).text = 32 :: n ++ [61, c] ++ v ++ u := by
    rintro f - ⟨hword, hafter, hquote⟩
    refine ⟨f.value ++ [f.quote], ?_, ?_⟩
    · simp [Field.text, Field.behind, hword, hafter, hquote]
    · simp [Field.text, Field.behind, Field.extend, hword, hafter, hquote]
  have hmiss : ∀ f ∈ fs, ¬ (f.word = n ∧ f.after = [] ∧ f.quote = c) → Free f.text (32 :: n ++ [61, c]) :=
    fun f hf hne => (hfind f hf).quoted_free hn hc hne
  rw [replaceFirst_flatMap (fun f => f.word = n ∧ f.after = [] ∧ f.quote = c) (fun f => (f.extend v).text) hhit
    hmiss (hone.imp fun h hboth => h ⟨hboth.1.1, hboth.2.1⟩) (not_infix_tail htail (by simp)), List.flatMap_map]
  refine congrArg (· ++ tail) (List.flatMap_congr fun f _ => ?_)
  split_ifs <;> rfl

end Replacements

def toName : Bytes := bytes "to"

def fromName : Bytes := bytes "from"

def idName : Bytes := bytes "id"

def placeholder : Bytes := bytes "bla toblala"

def proxyId : Bytes := bytes "xmpp-proxy"

theorem names_unmarked : Unmarked toName ∧ Unmarked fromName ∧ Unmarked idName ∧ Unmarked placeholder :=
  ⟨by decide, by decide, by decide, by decide⟩

structure Searchable (f : Field) : Prop where
  findTo : Findable toName f
  findFrom : Findable fromName f
  findPlaceholder : Findable placeholder f
  word_ne : f.word ≠ placeholder

/-- What the three replacements make of a field. -/
def swapped (new : List Field) (f : Field) : List Field :=
  if f.word = toName then new ++ [f.rename fromName names_unmarked.2.1]
  else if f.word = fromName then [f.rename toName names_unmarked.1] else [f]

def identified (f : Field) : Field := if f.word = idName ∧ f.after = [] then f.extend proxyId else f

theorem identified_word (f : Field) : (identified f).word = f.word := by
  unfold identified
  split_ifs <;> rfl

theorem Searchable.identified {f : Field} (h : Searchable f) : Searchable (identified f) := by
  unfold StreamReply.identified
  split_ifs
  · exact ⟨h.findTo.extend (by decide), h.findFrom.extend (by decide), h.findPlaceholder.extend (by decide),
      h.word_ne⟩
  · exact h

section Chain

variable {fs : List Field} {tail : Bytes}

/-- The first two replacements on one field. -/
def parted (f : Field) : Field :=
  exchange fromName toName names_unmarked.1 (exchange toName placeholder names_unmarked.2.2.2 f)

theorem parted_word {f : Field} (hne : f.word ≠ placeholder) : (parted f).word = placeholder ↔ f.word = toName := by
  rw [parted, exchange_word, exchange_word]
  by_cases hto : f.word = toName
  · rw [if_pos hto, if_neg (by decide)]
    exact iff_of_true rfl hto
  · rw [if_neg hto]
    refine iff_of_false (fun h => ?_) hto
    split_ifs at h
    · exact absurd h (by decide)
    · exact hne h

/-- The third replacement ends what the first two began. -/
theorem parted_swapped (new : List Field) {f : Field} (hne : f.word ≠ placeholder) :
    (if (parted f).word = placeholder then new ++ [(parted f).rename fromName names_unmarked.2.1] else [parted f]) =
      swapped new f := by
  unfold swapped
  by_cases hto : f.word = toName
  · rw [if_pos ((parted_word hne).mpr hto), if_pos hto]
    have hfirst : exchange toName placeholder names_unmarked.2.2.2 f = f.rename placeholder names_unmarked.2.2.2 :=
      if_pos hto
    have hplaceholder : placeholder ≠ fromName := by decide
    have hsecond : parted f = f.rename placeholder names_unmarked.2.2.2 := by
      rw [parted, hfirst]
      exact if_neg hplaceholder
    rw [hsecond]
    rfl
  · rw [if_neg fun h => hto ((parted_word hne).mp h), if_neg hto]
    have hfirst : exchange toName placeholder names_unmarked.2.2.2 f = f := if_neg hto
    rw [parted, hfirst]
    unfold exchange
    split_ifs <;> rfl

theorem swap_chain (new : List Field) (hs : ∀ f ∈ fs, Searchable f) (hone : fs.Pairwise fun f g => f.word ≠ g.word)
    (htail : 61 ∉ tail) :
    replaceFirst (replaceFirst (replaceFirst (fs.flatMap Field.text ++ tail)
      (32 :: toName ++ [61]) (32 :: placeholder ++ [61])) (32 :: fromName ++ [61]) (32 :: toName ++ [61]))
      (32 :: placeholder ++ [61]) (new.flatMap Field.text ++ (32 :: fromName ++ [61])) =
      (fs.flatMap (swapped new)).flatMap Field.text ++ tail := by
  obtain ⟨hto, hfrom, -, hbla⟩ := names_unmarked
  let hidden := exchange toName placeholder hbla
  have hparted : (fs.map hidden).map (exchange fromName toName hto) = fs.map parted := List.map_map
  have hword : ∀ f, (hidden f).word = fromName → f.word = fromName := by
    intro f hf
    rw [exchange_word] at hf
    split_ifs at hf with h
    · exact absurd hf (by decide)
    · exact hf
  -- each of the three needles stands at one field at most
  have hone₁ : fs.Pairwise fun f g => ¬ (f.word = toName ∧ g.word = toName) :=
    hone.imp fun hne h => hne (h.1.trans h.2.symm)
  have hone₂ : (fs.map hidden).Pairwise fun f g => ¬ (f.word = fromName ∧ g.word = fromName) :=
    List.pairwise_map.mpr (hone.imp fun hne h => hne ((hword _ h.1).trans (hword _ h.2).symm))
  have hone₃ : (fs.map parted).Pairwise fun f g => ¬ (f.word = placeholder ∧ g.word = placeholder) := by
    refine List.pairwise_map.mpr (hone₁.imp_of_mem fun hf hg hne h => hne ?_)
    exact ⟨(parted_word (hs _ hf).word_ne).mp h.1, (parted_word (hs _ hg).word_ne).mp h.2⟩
  have hfind₂ : ∀ f ∈ fs.map hidden, Findable fromName f := by
    intro f hf
    obtain ⟨f, hmem, rfl⟩ := List.mem_map.mp hf
    exact (hs f hmem).findFrom.exchange hbla (by decide)
  have hfind₃ : ∀ f ∈ fs.map parted, Findable placeholder f := by
    intro f hf
    obtain ⟨f, hmem, rfl⟩ := List.mem_map.mp hf
    exact ((hs f hmem).findPlaceholder.exchange hbla (by decide)).exchange hto (by decide)
  rw [replaceFirst_name hto hbla (fun f hf => (hs f hf).findTo) hone₁ htail,
    replaceFirst_name hfrom hto hfind₂ hone₂ htail, hparted, replaceFirst_word new hbla hfrom hfind₃ hone₃ htail,
    List.flatMap_map]
  refine congrArg (fun fs : List Field => fs.flatMap Field.text ++ tail) (List.flatMap_congr fun f hf => ?_)
  exact parted_swapped new (hs f hf).word_ne

def identifiedIn (c : UInt8) (f : Field) : Field :=
  if f.word = idName ∧ f.after = [] ∧ f.quote = c then f.extend proxyId else f

theorem identifiedIn_word (c : UInt8) (f : Field) : (identifiedIn c f).word = f.word := by
  unfold identifiedIn
  split_ifs <;> rfl

theorem identifiedIn_quote (c : UInt8) (f : Field) : (identifiedIn c f).quote = f.quote := by
  unfold identifiedIn
  split_ifs <;> rfl

theorem Findable.identifiedIn {f : Field} (h : Findable idName f) (c : UInt8) :
    Findable idName (identifiedIn c f) := by
  unfold StreamReply.identifiedIn
  split_ifs
  · exact h.extend (by decide)
  · exact h

theorem identifiedIn_same {c : UInt8} {f : Field} (hq : f.quote = c) : identifiedIn c f = identified f := by
  unfold identifiedIn identified
  simp only [hq, and_true]

theorem identifiedIn_other {c : UInt8} {f : Field} (hq : f.quote ≠ c) : identifiedIn c f = f :=
  if_neg fun h => hq h.2.2

theorem identifiedIn_both (f : Field) : identifiedIn quot (identifiedIn apos f) = identified f := by
  have hquote : f.quote = apos ∨ f.quote = quot := by
    have h := f.quote_ok
    simpa [isQuote] using h
  rcases hquote with hq | hq
  · have hne : (identifiedIn apos f).quote ≠ quot := by
      rw [identifiedIn_quote, hq]
      decide
    rw [identifiedIn_other hne, identifiedIn_same hq]
  · have hne : f.quote ≠ apos := by
      rw [hq]
      decide
    rw [identifiedIn_other hne, identifiedIn_same hq]

theorem id_chain (hfind : ∀ f ∈ fs, Findable idName f) (hone : fs.Pairwise fun f g => f.word ≠ g.word)
    (htail : 61 ∉ tail) :
    replaceFirst (replaceFirst (fs.flatMap Field.text ++ tail)
      (32 :: idName ++ [61, apos]) (32 :: idName ++ [61, apos] ++ proxyId))
      (32 :: idName ++ [61, quot]) (32 :: idName ++ [61, quot] ++ proxyId) =
      (fs.map identified).flatMap Field.text ++ tail := by
  obtain ⟨-, -, hid, -⟩ := names_unmarked
  have hfind' : ∀ f ∈ fs.map (identifiedIn apos), Findable idName f := by
    intro f hf
    obtain ⟨f, hmem, rfl⟩ := List.mem_map.mp hf
    exact (hfind f hmem).identifiedIn apos
  have hone' : fs.Pairwise fun f g => ¬ (f.word = idName ∧ g.word = idName) :=
    hone.imp fun hne h => hne (h.1.trans h.2.symm)
  have hone'' : (fs.map (identifiedIn apos)).Pairwise fun f g => ¬ (f.word = idName ∧ g.word = idName) := by
    refine List.pairwise_map.mpr (hone'.imp fun hne h => hne ?_)
    rwa [identifiedIn_word, identifiedIn_word] at h
  have hfirst := replaceFirst_value proxyId hid (by decide) hfind hone' htail (c := apos)
  have hsecond := replaceFirst_value proxyId hid (by decide) hfind' hone'' htail (c := quot)
  refine (congrArg (replaceFirst · _ _) hfirst).trans (hsecond.trans ?_)
  rw [List.map_map]
  exact congrArg (·.flatMap Field.text ++ tail) (List.map_congr_left fun f _ => identifiedIn_both f)

end Chain

/-- A header whose attributes stand behind one blank each, with none of the words that are searched for in
their values. -/
structure PlainHeader (t : Tag) : Prop where
  opens : bytes "<stream:stream " <+: t.text
  left_open : t.empty = false
  wellFormed : t.WellFormed
  space : ∀ a ∈ t.attrs, a.space = [32]
  values : ∀ a ∈ t.attrs, ∀ w ∈ [bytes " to=", bytes " from=", bytes "id=", bytes " bla toblala="], ¬ w <:+: a.raw

/-- An attribute whose name ends in `id`, with the `=` behind it. -/
def MentionsId (t : Tag) : Prop := ∃ a ∈ t.attrs, a.before = [] ∧ idName <:+ a.name

instance (t : Tag) : Decidable (MentionsId t) := inferInstanceAs (Decidable (∃ a ∈ t.attrs, _))

def idAttr : Attr := ⟨[32], idName, [], [], apos, plain proxyId, by decide, by decide, by decide, by decide, by decide⟩

theorem names_ok : isName toName ∧ isName fromName ∧ (plain proxyId).all (Piece.ok apos) ∧
    (plain proxyId).all (Piece.ok quot) := by decide

def editAttr (new : List Attr) (a : Attr) : List Attr :=
  if a.name = toName ∧ a.before = [] then new ++ [{ a with name := fromName, name_ok := names_ok.2.1 }]
  else if a.name = fromName ∧ a.before = [] then [{ a with name := toName, name_ok := names_ok.1 }]
  else if a.name = idName ∧ a.before = [] ∧ a.after = [] then
    [{ a with
      value := plain proxyId ++ a.value
      value_ok := by
        have hquote : a.quote = apos ∨ a.quote = quot := by simpa [isQuote] using a.quote_ok
        rw [List.all_append, a.value_ok, Bool.and_true]
        rcases hquote with hq | hq <;> rw [hq] <;> decide }]
  else [a]

def newAttrs (t : Tag) : List Attr := if MentionsId t then [] else [idAttr]

def answer (t : Tag) : Tag := { t with attrs := t.attrs.flatMap (editAttr (newAttrs t)) }

namespace PlainHeader

variable {t : Tag} {a : Attr}

theorem name (h : PlainHeader t) : t.name = bytes "stream:stream" := by
  obtain ⟨x, hx⟩ := h.opens
  have hn : ∀ b ∈ bytes "stream:stream", isNameByte b := by decide
  exact Tag.name_of_text hn hx

theorem searchable (h : PlainHeader t) (ha : a ∈ t.attrs) : Searchable a.field ∧ Findable idName a.field := by
  have hv := h.values a ha
  have hid : ¬ bytes "id=" <:+: a.raw := hv _ (by simp)
  refine ⟨⟨⟨hv (bytes " to=") (by simp), ?_⟩, ⟨hv (bytes " from=") (by simp), ?_⟩,
    ⟨hv (bytes " bla toblala=") (by simp), ?_⟩, fun hword => ?_⟩, ⟨fun hin => hid (List.IsInfix.trans ?_ hin), ?_⟩⟩
  · exact Attr.field_whole (n := bytes "t") (by decide)
  · exact Attr.field_whole (n := bytes "fro") (by decide)
  · exact Attr.field_whole (n := bytes "bla toblal") (by decide)
  · have hsuffix : 32 :: bytes "toblala" <:+ a.field.word := by
      rw [hword]
      decide
    exact Attr.field_whole (n := bytes "toblal") (by decide) hsuffix
  · exact ⟨[32], [], by decide⟩
  · exact Attr.field_whole (n := bytes "i") (by decide)

theorem words_differ (h : PlainHeader t) : (t.attrs.map Attr.field).Pairwise fun f g => f.word ≠ g.word := by
  have hbefore : ∀ a : Attr, ∀ b ∈ a.before.head?, ¬ isNameByte b := fun a b hb hname =>
    not_space_of_nameByte hname (a.spaces.2.1 b (List.mem_of_mem_head? hb))
  refine List.pairwise_map.mpr ((List.pairwise_map.mp h.wellFormed).imp fun {a b} hne hword => hne ?_)
  exact (split_name a.name_bytes b.name_bytes (hbefore a) (hbefore b) hword).1

theorem not_marked_tail (t : Tag) : 61 ∉ t.trailing ++ [gt] := by
  intro hmem
  rcases List.mem_append.mp hmem with hmem | hmem
  · exact absurd (isSpace_of_all t.trailing_ok 61 hmem) (by decide)
  · exact absurd (List.mem_singleton.mp hmem) (by decide)

theorem header_text (hname : t.name = bytes "stream:stream") (hopen : t.empty = false) :
    t.text = bytes "<stream:stream" ++ (t.attrs.flatMap Attr.text ++ (t.trailing ++ [gt])) := by
  rw [Tag.text, Tag.head, Tag.stop, hname, hopen]
  simp only [List.append_assoc]
  rfl

theorem text_fields (h : PlainHeader t) :
    t.text = bytes "<stream:stream" ++ ((t.attrs.map Attr.field).flatMap Field.text ++ (t.trailing ++ [gt])) := by
  have hattrs : (t.attrs.map Attr.field).flatMap Field.text = t.attrs.flatMap Attr.text := by
    rw [List.flatMap_map]
    exact List.flatMap_congr fun a ha => Attr.field_text (h.space a ha)
  rw [hattrs, header_text h.name h.left_open]

theorem contains_id (h : PlainHeader t) : containsSeq t.text (bytes "id=") = true ↔ MentionsId t := by
  have hword : ∀ a : Attr, idName <:+ 32 :: a.field.word ↔ a.before = [] ∧ idName <:+ a.name := by
    intro a
    rw [List.suffix_cons_iff]
    refine (or_iff_right fun he => ?_).trans (Attr.suffix_field (n := bytes "i") (by decide))
    exact absurd (List.cons.inj he).1 (by decide)
  have hvalue : ∀ a ∈ t.attrs, ¬ idName ++ [61] <:+: a.field.value := fun a ha =>
    h.values a ha (bytes "id=") (by simp)
  have hid := names_unmarked.2.2.1
  rw [containsSeq_iff, h.text_fields]
  constructor
  · intro hin
    by_contra hnone
    have hfree : ∀ a ∈ t.attrs, Free a.field.text (idName ++ [61]) := fun a ha =>
      Field.needle_free hid (hvalue a ha) fun hs => hnone ⟨a, ha, (hword a).mp hs⟩
    have hbehind : ∀ as : List Attr, (∀ a ∈ as, Free a.field.text (idName ++ [61])) →
        ¬ idName ++ [61] <:+: (as.map Attr.field).flatMap Field.text ++ (t.trailing ++ [gt]) := by
      intro as has hin
      induction as with
      | nil => exact not_marked_tail t (hin.subset (by decide))
      | cons a as ih =>
        rw [List.map_cons, List.flatMap_cons, List.append_assoc] at hin
        exact ih (fun b hb => has b (List.mem_cons_of_mem a hb))
          (infix_of_append (has a (List.mem_cons_self ..)) hin)
    exact hbehind t.attrs hfree (infix_of_append (by decide) hin)
  · rintro ⟨a, ha, hcase⟩
    have hin := (Field.needle_within hid (hvalue a ha)).mpr ((hword a).mpr hcase)
    obtain ⟨as, bs, heq⟩ := List.append_of_mem ha
    rw [heq, List.map_append, List.map_cons, List.flatMap_append, List.flatMap_cons]
    refine hin.trans ⟨bytes "<stream:stream" ++ (as.map Attr.field).flatMap Field.text,
      (bs.map Attr.field).flatMap Field.text ++ (t.trailing ++ [gt]), ?_⟩
    simp only [List.append_assoc]

end PlainHeader

/-- The edit of an attribute is the chain on its field. -/
theorem editAttr_text {new : List Attr} (hnew : ∀ a ∈ new, a.space = [32]) {a : Attr} (ha : a.space = [32]) :
    (editAttr new a).flatMap Attr.text =
      (swapped (new.map Attr.field) (identified a.field)).flatMap Field.text := by
  have hto : a.field.word = toName ↔ a.name = toName ∧ a.before = [] :=
    Attr.field_word (n := bytes "t") (by decide)
  have hfrom : a.field.word = fromName ↔ a.name = fromName ∧ a.before = [] :=
    Attr.field_word (n := bytes "fro") (by decide)
  have hid : a.field.word = idName ↔ a.name = idName ∧ a.before = [] :=
    Attr.field_word (n := bytes "i") (by decide)
  have hnot : ∀ {n : Bytes}, n ≠ idName → a.field.word = n → identified a.field = a.field := fun hne hw =>
    if_neg fun hc => hne (hw.symm.trans hc.1)
  have hnews : (new.map Attr.field).flatMap Field.text = new.flatMap Attr.text := by
    rw [List.flatMap_map]
    exact List.flatMap_congr fun b hb => Attr.field_text (hnew b hb)
  unfold swapped editAttr
  rw [identified_word]
  simp only [hto, hfrom]
  split_ifs with h₁ h₂ h₃
  · rw [hnot (by decide) (hto.mpr h₁), List.flatMap_append, List.flatMap_append, hnews]
    refine congrArg (new.flatMap Attr.text ++ ·) ?_
    simp [Attr.text, Attr.front, Attr.raw, Attr.field, Field.text, Field.behind, Field.rename, ha, h₁.2]
  · rw [hnot (by decide) (hfrom.mpr h₂)]
    simp [Attr.text, Attr.front, Attr.raw, Attr.field, Field.text, Field.behind, Field.rename, ha, h₂.2]
  · have hstep : identified a.field = a.field.extend proxyId := if_pos ⟨hid.mpr ⟨h₃.1, h₃.2.1⟩, h₃.2.2⟩
    have hraw : (plain proxyId ++ a.value).flatMap Piece.text = proxyId ++ a.raw := by
      rw [List.flatMap_append, Tag.flatMap_plain]
      rfl
    rw [hstep, List.flatMap_singleton, List.flatMap_singleton, Attr.text, Attr.raw, hraw]
    simp [Attr.front, Attr.field, Field.text, Field.behind, Field.extend, ha]
  · have hstep : identified a.field = a.field := if_neg fun hc => h₃ ⟨(hid.mp hc.1).1, (hid.mp hc.1).2, hc.2⟩
    rw [hstep, List.flatMap_singleton, List.flatMap_singleton, Attr.field_text ha]

theorem swap_header (new : List Field) (r : Bytes) {fs : List Field} {tail : Bytes}
    (hr : r = new.flatMap Field.text ++ bytes " from=") (hs : ∀ f ∈ fs, Searchable f)
    (hone : fs.Pairwise fun f g => f.word ≠ g.word) (htail : 61 ∉ tail) :
    replaceFirst (replaceFirst (replaceFirst (bytes "<stream:stream" ++ (fs.flatMap Field.text ++ tail))
      (bytes " to=") (bytes " bla toblala=")) (bytes " from=") (bytes " to=")) (bytes " bla toblala=") r =
      bytes "<stream:stream" ++ ((fs.flatMap (swapped new)).flatMap Field.text ++ tail) := by
  rw [replaceFirst_append (by decide), replaceFirst_append (by decide), replaceFirst_append (by decide), hr]
  exact congrArg _ (swap_chain new hs hone htail)

theorem reply_text {t : Tag} (h : PlainHeader t) : streamReply t.text = (answer t).text := by
  have hfind : ∀ f ∈ t.attrs.map Attr.field, Searchable f ∧ Findable idName f := by
    intro f hf
    obtain ⟨a, ha, rfl⟩ := List.mem_map.mp hf
    exact h.searchable ha
  have hanswer : ∀ new : List Attr, (∀ a ∈ new, a.space = [32]) →
      (((t.attrs.map Attr.field).map identified).flatMap (swapped (new.map Attr.field))).flatMap Field.text =
        (t.attrs.flatMap (editAttr new)).flatMap Attr.text := by
    intro new hnew
    rw [List.flatMap_map, List.flatMap_map, List.flatMap_assoc, List.flatMap_assoc]
    exact List.flatMap_congr fun a ha => (editAttr_text hnew (h.space a ha)).symm
  have htail := PlainHeader.not_marked_tail t
  have htext := PlainHeader.header_text (t := answer t) h.name h.left_open
  unfold streamReply
  dsimp only
  rw [htext]
  by_cases hid : MentionsId t
  · have hmapped : ∀ f ∈ (t.attrs.map Attr.field).map identified, Searchable f := by
      intro f hf
      obtain ⟨f, hmem, rfl⟩ := List.mem_map.mp hf
      exact (hfind f hmem).1.identified
    have hdiffer : ((t.attrs.map Attr.field).map identified).Pairwise fun f g => f.word ≠ g.word := by
      refine List.pairwise_map.mpr (h.words_differ.imp fun hne => ?_)
      rwa [identified_word, identified_word]
    have hchain := id_chain (fun f hf => (hfind f hf).2) h.words_differ htail
    rw [if_pos (h.contains_id.mpr hid), h.text_fields, replaceFirst_append (by decide), replaceFirst_append (by decide)]
    refine (congrArg (fun s => replaceFirst (replaceFirst (replaceFirst (bytes "<stream:stream" ++ s) _ _) _ _) _ _)
      hchain).trans ?_
    rw [swap_header [] (bytes " from=") rfl hmapped hdiffer htail, answer, newAttrs, if_pos hid]
    exact congrArg (fun s => _ ++ (s ++ _)) (hanswer [] (by simp))
  · have hsame : (t.attrs.map Attr.field).map identified = t.attrs.map Attr.field := by
      rw [List.map_map]
      refine List.map_congr_left fun a ha => if_neg fun hc => hid ⟨a, ha, ?_⟩
      obtain ⟨hname, hbefore⟩ := (Attr.field_word (n := bytes "i") (by decide)).mp hc.1
      exact ⟨hbefore, by rw [hname]; exact List.suffix_rfl⟩
    rw [if_neg (fun hc => hid (h.contains_id.mp hc)), h.text_fields,
      swap_header [idAttr.field] (bytes " id='xmpp-proxy' from=") rfl (fun f hf => (hfind f hf).1) h.words_differ
        htail, answer, newAttrs, if_neg hid]
    have hnew := hanswer [idAttr] (by simp [idAttr])
    rw [hsame] at hnew
    exact congrArg (fun s => _ ++ (s ++ _)) hnew

def moved (a : Attr) : Bytes := if a.before = [] then Equiv.swap toName fromName a.name else a.name

def worth (a : Attr) : Bytes :=
  if a.name = idName ∧ a.before = [] ∧ a.after = [] then proxyId ++ a.raw else a.raw

def Inserts (t : Tag) : Prop := ¬ MentionsId t ∧ ∃ a ∈ t.attrs, a.name = toName ∧ a.before = []

instance (t : Tag) : Decidable (Inserts t) :=
  inferInstanceAs (Decidable (¬ MentionsId t ∧ ∃ a ∈ t.attrs, _))

theorem moved_eq {a : Attr} {n : Bytes} (hto : n ≠ toName) (hfrom : n ≠ fromName) : moved a = n ↔ a.name = n := by
  unfold moved
  split_ifs
  · rw [Equiv.swap_apply_eq_iff, Equiv.swap_apply_of_ne_of_ne hto hfrom]
  · rfl

theorem worth_eq {a : Attr} (h : a.name ≠ idName) : worth a = a.raw := if_neg fun hc => h hc.1

theorem editAttr_written (new : List Attr) (a : Attr) : (editAttr new a).map Attr.written =
    (if a.name = toName ∧ a.before = [] then new.map Attr.written else []) ++ [(moved a, worth a)] := by
  have hid : idName ≠ toName ∧ idName ≠ fromName := by decide
  unfold editAttr
  by_cases hto : a.name = toName ∧ a.before = []
  · have hmoved : moved a = fromName := by rw [moved, if_pos hto.2, hto.1, Equiv.swap_apply_left]
    rw [if_pos hto, if_pos hto, hmoved, worth_eq (by rw [hto.1]; exact hid.1.symm), List.map_append]
    rfl
  rw [if_neg hto, if_neg hto, List.nil_append]
  by_cases hfrom : a.name = fromName ∧ a.before = []
  · have hmoved : moved a = toName := by rw [moved, if_pos hfrom.2, hfrom.1, Equiv.swap_apply_right]
    rw [if_pos hfrom, hmoved, worth_eq (by rw [hfrom.1]; exact hid.2.symm)]
    rfl
  have hmoved : moved a = a.name := by
    unfold moved
    split_ifs with hbefore
    · exact Equiv.swap_apply_of_ne_of_ne (fun h => hto ⟨h, hbefore⟩) fun h => hfrom ⟨h, hbefore⟩
    · rfl
  rw [if_neg hfrom, hmoved, worth]
  split_ifs
  · rw [List.map_singleton, Attr.written, Attr.raw, List.flatMap_append, Tag.flatMap_plain]
    rfl
  · rfl

theorem answer_written (t : Tag) : (answer t).attrs.map Attr.written = t.attrs.flatMap fun a =>
    (if a.name = toName ∧ a.before = [] then (newAttrs t).map Attr.written else []) ++ [(moved a, worth a)] := by
  rw [answer, List.map_flatMap]
  exact List.flatMap_congr fun a _ => editAttr_written _ a

theorem answer_writes {t : Tag} {n v : Bytes} : (answer t).Writes n v ↔
    (∃ a ∈ t.attrs, moved a = n ∧ worth a = v) ∨ Inserts t ∧ n = idName ∧ v = proxyId := by
  have hnew : ∀ x, x ∈ (newAttrs t).map Attr.written ↔ ¬ MentionsId t ∧ x = (idName, proxyId) := by
    intro x
    unfold newAttrs
    split_ifs with h
    · simp [h]
    · rw [List.map_singleton, List.mem_singleton]
      exact (and_iff_right h).symm
  rw [Tag.writes_iff, answer_written, List.mem_flatMap]
  constructor
  · rintro ⟨a, ha, hmem⟩
    rcases List.mem_append.mp hmem with hmem | hmem
    · split_ifs at hmem with hto
      · obtain ⟨hid, hx⟩ := (hnew _).mp hmem
        exact .inr ⟨⟨hid, a, ha, hto⟩, Prod.ext_iff.mp hx⟩
      · exact absurd hmem List.not_mem_nil
    · have hx := Prod.ext_iff.mp (List.mem_singleton.mp hmem)
      exact .inl ⟨a, ha, hx.1.symm, hx.2.symm⟩
  · rintro (⟨a, ha, rfl, rfl⟩ | ⟨⟨hid, a, ha, hto⟩, rfl, rfl⟩)
    · exact ⟨a, ha, List.mem_append_right _ (List.mem_singleton_self _)⟩
    · refine ⟨a, ha, List.mem_append_left _ ?_⟩
      rw [if_pos hto]
      exact (hnew _).mpr ⟨hid, rfl⟩

def namesOf (t : Tag) (a : Attr) : List Bytes :=
  ((if a.name = toName ∧ a.before = [] then (newAttrs t).map Attr.written else []) ++ [(moved a, worth a)]).map Prod.fst

theorem answer_namesOf (t : Tag) : (answer t).attrs.map Attr.name = t.attrs.flatMap (namesOf t) := by
  rw [← map_fst_written, answer_written, List.map_flatMap]
  rfl

theorem namesOf_kept {t : Tag} {as : List Attr}
    (has : ∀ a ∈ as, ¬ (¬ MentionsId t ∧ a.name = toName ∧ a.before = [])) :
    as.flatMap (namesOf t) = as.map moved := by
  rw [List.map_eq_flatMap]
  refine List.flatMap_congr fun a ha => ?_
  have hpre : (if a.name = toName ∧ a.before = [] then (newAttrs t).map Attr.written else []) = [] := by
    split_ifs with hto
    · rw [newAttrs, if_pos (not_not.mp fun hid => has a ha ⟨hid, hto⟩), List.map_nil]
    · rfl
  rw [namesOf, hpre]
  rfl

theorem namesOf_inserted {t : Tag} {a : Attr} (hid : ¬ MentionsId t) (hto : a.name = toName ∧ a.before = []) :
    namesOf t a = [idName, moved a] := by
  rw [namesOf, if_pos hto, newAttrs, if_neg hid]
  rfl

theorem answer_names {t : Tag} (h : t.WellFormed) : ((answer t).attrs.map Attr.name).Perm
    ((if Inserts t then [idName] else []) ++ t.attrs.map moved) := by
  rw [answer_namesOf]
  split_ifs with hins
  · obtain ⟨hid, a, ha, hto⟩ := hins
    obtain ⟨as, bs, heq⟩ := List.append_of_mem ha
    have hother : ∀ b ∈ as ++ bs, b.name ≠ toName := by
      intro b hb hname
      have hnodup := h
      rw [Tag.WellFormed, heq, List.map_append, List.map_cons, List.nodup_middle, ← List.map_append] at hnodup
      rw [hto.1, ← hname] at hnodup
      exact (List.nodup_cons.mp hnodup).1 (List.mem_map_of_mem hb)
    have has : as.flatMap (namesOf t) = as.map moved :=
      namesOf_kept fun b hb hc => hother b (List.mem_append_left bs hb) hc.2.1
    have hbs : bs.flatMap (namesOf t) = bs.map moved :=
      namesOf_kept fun b hb hc => hother b (List.mem_append_right as hb) hc.2.1
    rw [heq, List.flatMap_append, List.flatMap_cons, List.map_append, List.map_cons, namesOf_inserted hid hto,
      has, hbs]
    exact List.perm_middle
  · rw [List.nil_append, namesOf_kept fun a ha hc => hins ⟨hc.1, a, ha, hc.2⟩]

theorem answer_wellFormed {t : Tag} (h : t.WellFormed) : (answer t).WellFormed ↔
    (t.attrs.map moved).Nodup ∧ (Inserts t → ¬ t.Declares idName) := by
  have hid : idName ∈ t.attrs.map moved ↔ t.Declares idName := by
    rw [List.mem_map]
    exact exists_congr fun a => and_congr_right' (moved_eq (by decide) (by decide))
  rw [Tag.WellFormed, (answer_names h).nodup_iff]
  split_ifs with hins
  · rw [List.singleton_append, List.nodup_cons, hid, and_comm]
    exact and_congr_right' (by simp [hins])
  · simp [hins]

def AnswersId (t : Tag) (v : Bytes) : Prop :=
  (∃ w, t.Writes idName w ∧ v = proxyId ++ w) ∨ ¬ t.Declares idName ∧ v = proxyId

/-- The attributes of `t` with the values of `to` and `from` exchanged, and an `id` that begins with
`xmpp-proxy`. -/
structure Exchanged (t t' : Tag) : Prop where
  wellFormed : t'.WellFormed
  name : t'.name = t.name
  writesTo : ∀ v, t'.Writes toName v ↔ t.Writes fromName v
  writesFrom : ∀ v, t'.Writes fromName v ↔ t.Writes toName v
  writesId : ∀ v, t'.Writes idName v ↔ AnswersId t v
  others : ∀ n v, n ≠ toName → n ≠ fromName → n ≠ idName → (t'.Writes n v ↔ t.Writes n v)

/-- There is an `id` without white space around its `=`, or neither an `id` nor another name that ends so,
and a `to` that one can be put behind. -/
def IdInReach (t : Tag) : Prop :=
  (∃ a ∈ t.attrs, a.name = idName ∧ a.before = [] ∧ a.after = []) ∨
    ¬ MentionsId t ∧ ¬ t.Declares idName ∧ ∃ a ∈ t.attrs, a.name = toName ∧ a.before = []

/-- There is no white space in front of the `=` of `to` and `from`, or there is in both, and their values
are the same. -/
def SwapInReach (t : Tag) : Prop :=
  (∀ a ∈ t.attrs, a.name = toName ∨ a.name = fromName → a.before = []) ∨
    ∃ a ∈ t.attrs, ∃ b ∈ t.attrs, a.name = toName ∧ b.name = fromName ∧ a.before ≠ [] ∧ b.before ≠ [] ∧
      a.raw = b.raw

section Conditions

variable {t : Tag}

theorem answer_writes_id {v : Bytes} : (answer t).Writes idName v ↔
    (∃ a ∈ t.attrs, a.name = idName ∧ worth a = v) ∨ Inserts t ∧ v = proxyId := by
  have hid : ∀ a, moved a = idName ↔ a.name = idName := fun a => moved_eq (by decide) (by decide)
  rw [answer_writes]
  simp only [hid, true_and]

theorem id_iff (h : t.WellFormed) :
    (∀ v, (answer t).Writes idName v ↔ AnswersId t v) ∧ (Inserts t → ¬ t.Declares idName) ↔ IdInReach t := by
  constructor
  · rintro ⟨hwrites, hfresh⟩
    by_cases hdecl : t.Declares idName
    · obtain ⟨a, ha, hname⟩ := hdecl
      have hanswer : AnswersId t (proxyId ++ a.raw) := .inl ⟨a.raw, ⟨a, ha, hname, rfl⟩, rfl⟩
      rcases answer_writes_id.mp ((hwrites _).mpr hanswer) with ⟨b, hb, hname', hworth⟩ | ⟨hins, -⟩
      · obtain rfl := h.attr_inj hb ha (hname'.trans hname.symm)
        unfold worth at hworth
        split_ifs at hworth with hreach
        · exact .inl ⟨b, hb, hreach⟩
        · exact absurd (List.append_left_eq_self.mp hworth.symm) (by decide)
      · exact absurd ⟨a, ha, hname⟩ (hfresh hins)
    · rcases answer_writes_id.mp ((hwrites proxyId).mpr (.inr ⟨hdecl, rfl⟩)) with ⟨b, hb, hname, -⟩ | ⟨hins, -⟩
      · exact absurd ⟨b, hb, hname⟩ hdecl
      · exact .inr ⟨hins.1, hdecl, hins.2⟩
  · rintro (⟨a, ha, hname, hbefore, hafter⟩ | ⟨hid, hdecl, hto⟩)
    · have hins : ¬ Inserts t := fun hins => hins.1 ⟨a, ha, hbefore, hname ▸ List.suffix_rfl⟩
      have hworth : worth a = proxyId ++ a.raw := if_pos ⟨hname, hbefore, hafter⟩
      refine ⟨fun v => ?_, fun hc => absurd hc hins⟩
      rw [answer_writes_id]
      constructor
      · rintro (⟨b, hb, hname', rfl⟩ | ⟨hc, -⟩)
        · obtain rfl := h.attr_inj hb ha (hname'.trans hname.symm)
          exact .inl ⟨b.raw, ⟨b, hb, hname', rfl⟩, hworth⟩
        · exact absurd hc hins
      · rintro (⟨w, ⟨b, hb, hname', rfl⟩, rfl⟩ | ⟨hc, -⟩)
        · obtain rfl := h.attr_inj hb ha (hname'.trans hname.symm)
          exact .inl ⟨b, hb, hname', hworth⟩
        · exact absurd ⟨a, ha, hname⟩ hc
    · refine ⟨fun v => ?_, fun _ => hdecl⟩
      rw [answer_writes_id]
      constructor
      · rintro (⟨b, hb, hname, -⟩ | ⟨-, hv⟩)
        · exact absurd ⟨b, hb, hname⟩ hdecl
        · exact .inr ⟨hdecl, hv⟩
      · rintro (⟨w, hw, -⟩ | ⟨-, hv⟩)
        · exact absurd hw.declares hdecl
        · exact .inr ⟨⟨hid, hto⟩, hv⟩

theorem answer_writes_other {n v : Bytes} (hn : n ≠ idName) : (answer t).Writes n v ↔
    ∃ a ∈ t.attrs, moved a = n ∧ a.raw = v := by
  have hworth : ∀ a, moved a = n → worth a = a.raw := fun a hm => worth_eq fun hname =>
    hn (hm.symm.trans ((moved_eq (by decide) (by decide)).mpr hname))
  rw [answer_writes]
  constructor
  · rintro (⟨a, ha, hm, hv⟩ | ⟨-, hid, -⟩)
    · exact ⟨a, ha, hm, (hworth a hm).symm.trans hv⟩
    · exact absurd hid hn
  · rintro ⟨a, ha, hm, hv⟩
    exact .inl ⟨a, ha, hm, (hworth a hm).trans hv⟩

theorem partner {n m : Bytes} (hnm : n ≠ m) (hid : n ≠ idName) (hswap : Equiv.swap toName fromName m = n)
    (hinj : (t.attrs.map moved).Nodup) (hwrites : ∀ v, (answer t).Writes n v ↔ t.Writes m v) {a : Attr}
    (ha : a ∈ t.attrs) (hname : a.name = n) (hbefore : a.before ≠ []) :
    ∃ b ∈ t.attrs, b.name = m ∧ b.before ≠ [] ∧ a.raw = b.raw := by
  have hmoved : moved a = n := (if_neg hbefore).trans hname
  obtain ⟨b, hb, hname', hraw⟩ := (hwrites a.raw).mp ((answer_writes_other hid).mpr ⟨a, ha, hmoved, rfl⟩)
  refine ⟨b, hb, hname', fun hbefore' => ?_, hraw.symm⟩
  have hmoved' : moved b = n := by rw [moved, if_pos hbefore', hname', hswap]
  obtain rfl := List.inj_on_of_nodup_map hinj ha hb (hmoved.trans hmoved'.symm)
  exact hnm (hname.symm.trans hname')

theorem SwapInReach.of_answer (hinj : (t.attrs.map moved).Nodup)
    (hto : ∀ v, (answer t).Writes toName v ↔ t.Writes fromName v)
    (hfrom : ∀ v, (answer t).Writes fromName v ↔ t.Writes toName v) : SwapInReach t := by
  by_contra hnot
  obtain ⟨hleft, hright⟩ := not_or.mp hnot
  refine hleft fun a ha hname => ?_
  by_contra hbefore
  rcases hname with hname | hname
  · obtain ⟨b, hb, hname', hbefore', hraw⟩ := partner (by decide) (by decide) (Equiv.swap_apply_right _ _) hinj hto
      ha hname hbefore
    exact hright ⟨a, ha, b, hb, hname, hname', hbefore, hbefore', hraw⟩
  · obtain ⟨b, hb, hname', hbefore', hraw⟩ := partner (by decide) (by decide) (Equiv.swap_apply_left _ _) hinj hfrom
      ha hname hbefore
    exact hright ⟨b, hb, a, ha, hname', hname, hbefore', hbefore, hraw.symm⟩

/-- Either all of the names are exchanged, or none is. -/
theorem SwapInReach.perm (h : t.WellFormed) (hs : SwapInReach t) :
    (∀ a ∈ t.attrs, moved a = Equiv.swap toName fromName a.name) ∨
      (∀ a ∈ t.attrs, moved a = a.name) ∧ ∀ v, t.Writes toName v ↔ t.Writes fromName v := by
  rcases hs with hs | ⟨a, ha, b, hb, hto, hfrom, ha', hb', hraw⟩
  · refine .inl fun a ha => ?_
    unfold moved
    split_ifs with hbefore
    · rfl
    · have hnot := not_or.mp fun hname => hbefore (hs a ha hname)
      exact (Equiv.swap_apply_of_ne_of_ne hnot.1 hnot.2).symm
  · refine .inr ⟨fun c hc => ?_, fun v => ?_⟩
    · unfold moved
      split_ifs with hbefore
      · refine Equiv.swap_apply_of_ne_of_ne (fun hname => ?_) fun hname => ?_
        · exact ha' (h.attr_inj hc ha (hname.trans hto.symm) ▸ hbefore)
        · exact hb' (h.attr_inj hc hb (hname.trans hfrom.symm) ▸ hbefore)
      · rfl
    · constructor
      · rintro ⟨c, hc, hname, rfl⟩
        obtain rfl := h.attr_inj hc ha (hname.trans hto.symm)
        exact ⟨b, hb, hfrom, hraw.symm⟩
      · rintro ⟨c, hc, hname, rfl⟩
        obtain rfl := h.attr_inj hc hb (hname.trans hfrom.symm)
        exact ⟨a, ha, hto, hraw⟩

theorem names_moved {σ : Equiv.Perm Bytes} (h : t.WellFormed) (hσ : ∀ a ∈ t.attrs, moved a = σ a.name) :
    (t.attrs.map moved).Nodup ∧
      ∀ n v, σ n ≠ idName → ((answer t).Writes (σ n) v ↔ t.Writes n v) := by
  constructor
  · have hmap : t.attrs.map moved = (t.attrs.map Attr.name).map σ := by
      rw [List.map_map]
      exact List.map_congr_left hσ
    rw [hmap]
    exact List.Nodup.map σ.injective h
  · intro n v hn
    rw [answer_writes_other hn]
    refine exists_congr fun a => and_congr_right fun ha => and_congr_left' ?_
    rw [hσ a ha, σ.injective.eq_iff]

theorem exchanged_iff (h : PlainHeader t) : Exchanged t (answer t) ↔ IdInReach t ∧ SwapInReach t := by
  have hwell := answer_wellFormed h.wellFormed
  constructor
  · intro he
    obtain ⟨hinj, hfresh⟩ := hwell.mp he.wellFormed
    exact ⟨(id_iff h.wellFormed).mp ⟨he.writesId, hfresh⟩, .of_answer hinj he.writesTo he.writesFrom⟩
  · rintro ⟨hid, hswap⟩
    obtain ⟨hwrites, hfresh⟩ := (id_iff h.wellFormed).mpr hid
    rcases hswap.perm h.wellFormed with hmoved | ⟨hmoved, hsame⟩
    · obtain ⟨hinj, hnames⟩ := names_moved h.wellFormed hmoved
      have hto := fun v => hnames fromName v
      have hfrom := fun v => hnames toName v
      rw [Equiv.swap_apply_right] at hto
      rw [Equiv.swap_apply_left] at hfrom
      refine ⟨hwell.mpr ⟨hinj, hfresh⟩, rfl, fun v => hto v (by decide), fun v => hfrom v (by decide), hwrites,
        fun n v hnt hnf hni => ?_⟩
      have hn := hnames n v
      rw [Equiv.swap_apply_of_ne_of_ne hnt hnf] at hn
      exact hn hni
    · obtain ⟨hinj, hnames⟩ := names_moved (σ := Equiv.refl Bytes) h.wellFormed hmoved
      exact ⟨hwell.mpr ⟨hinj, hfresh⟩, rfl, fun v => (hnames toName v (by decide)).trans (hsame v),
        fun v => (hnames fromName v (by decide)).trans (hsame v).symm, hwrites, fun n v _ _ hni => hnames n v hni⟩

end Conditions

section Sent

variable {t t' : Tag} {f f' : StanzaFilter} {p : BytePoll}

theorem preTls_header (h : bytes "<stream:stream " <+: t.text)
    (hemit : StanzaRead.pollNext f p = (some (.ok (some t.text)), f')) (sent : List Sent) :
    TlsConnection.preTlsStep f sent p .done = .preTls f' (sent ++ [.raw (streamReply t.text ++ streamFeatures)]) := by
  have hxml : ¬ bytes "<?xml " <+: t.text := by
    intro hx
    rcases List.prefix_or_prefix_of_prefix hx h with hp | hp
    · exact absurd hp (by decide)
    · exact absurd hp (by decide)
  unfold TlsConnection.preTlsStep
  rw [hemit]
  dsimp only
  rw [if_neg hxml, if_pos h]
  rfl

theorem Exchanged.of_text {t₁ : Tag} (he : Exchanged t t') (htext : t'.text = t₁.text) : Exchanged t t₁ := by
  have heq : t'.text ++ [] = t₁.text ++ [] := by rw [htext]
  obtain ⟨hname, hwritten⟩ := Tag.text_written heq
  have hwrites : ∀ {n v}, t₁.Writes n v ↔ t'.Writes n v := by
    intro n v
    rw [Tag.writes_iff, Tag.writes_iff, hwritten]
  exact ⟨(Tag.WellFormed.written hwritten).mp he.wellFormed, hname.symm.trans he.name,
    fun v => hwrites.trans (he.writesTo v), fun v => hwrites.trans (he.writesFrom v),
    fun v => hwrites.trans (he.writesId v), fun n v hto hfrom hid => hwrites.trans (he.others n v hto hfrom hid)⟩

theorem Exchanged.of_sent (h : PlainHeader t) (hemit : StanzaRead.pollNext f p = (some (.ok (some t.text)), f'))
    {sent : List Sent} (he : Exchanged t t')
    (hsent : TlsConnection.preTlsStep f sent p .done = .preTls f' (sent ++ [.raw (t'.text ++ streamFeatures)])) :
    Exchanged t (answer t) := by
  rw [preTls_header h.opens hemit, reply_text h] at hsent
  exact he.of_text (by simpa using hsent.symm)

end Sent

/-- A header is answered with its own attributes, the values of `to` and `from` exchanged and `xmpp-proxy` in
front of that of `id`, exactly where the replacements reach the three of them. -/
theorem stream_reply_iff {t : Tag} (h : PlainHeader t) {f f' : StanzaFilter} {p : BytePoll}
    (hemit : StanzaRead.pollNext f p = (some (.ok (some t.text)), f')) (sent : List Sent) :
    (∃ t', Exchanged t t' ∧ TlsConnection.preTlsStep f sent p .done =
      .preTls f' (sent ++ [.raw (t'.text ++ streamFeatures)])) ↔ IdInReach t ∧ SwapInReach t := by
  rw [← exchanged_iff h]
  constructor
  · rintro ⟨t', he, hsent⟩
    exact he.of_sent h hemit hsent
  · intro he
    refine ⟨answer t, he, ?_⟩
    rw [preTls_header h.opens hemit, reply_text h]

/-- `<stream:stream id="7" to='b'>` -/
def lonelyHeader : Tag :=
  .ofPlain (bytes "stream:stream") [⟨[32], idName, quot, bytes "7"⟩, ⟨[32], toName, apos, bytes "b"⟩] false
    (by decide)

/-- `<stream:stream xmlns='c'>` -/
def serverlessHeader : Tag :=
  .ofPlain (bytes "stream:stream") [⟨[32], bytes "xmlns", apos, bytes "c"⟩] false (by decide)

set_option maxRecDepth 2000 in
theorem stream_reply_lonely :
    (∃ t', Exchanged lonelyHeader t' ∧
      TlsConnection.preTlsStep (filterNext.final (.new 64) lonelyHeader.head) [] (.byte gt) .done =
        .preTls (filterNext.final (.new 64) lonelyHeader.text) [.raw (t'.text ++ streamFeatures)]) ↔
      IdInReach lonelyHeader ∧ SwapInReach lonelyHeader :=
  stream_reply_iff ⟨by decide, rfl, by decide, by decide, by decide⟩ rfl []

set_option maxRecDepth 2000 in
/-- Without a `to` there is no `id` in the answer. -/
theorem stream_reply_serverless :
    ¬ ∀ (t : Tag) (f f' : StanzaFilter) (p : BytePoll) (sent : List Sent), PlainHeader t →
      StanzaRead.pollNext f p = (some (.ok (some t.text)), f') →
      ∃ t', Exchanged t t' ∧ TlsConnection.preTlsStep f sent p .done =
        .preTls f' (sent ++ [.raw (t'.text ++ streamFeatures)]) := by
  intro h
  have hplain : PlainHeader serverlessHeader := ⟨by decide, rfl, by decide, by decide, by decide⟩
  have hemit : StanzaRead.pollNext (filterNext.final (.new 64) serverlessHeader.head) (.byte gt) =
      (some (.ok (some serverlessHeader.text)), filterNext.final (.new 64) serverlessHeader.text) := rfl
  obtain ⟨t', he, hsent⟩ := h _ _ _ _ [] hplain hemit
  obtain ⟨hid, -⟩ := (exchanged_iff hplain).mp (he.of_sent hplain hemit hsent)
  rcases hid with hid | ⟨-, -, hto⟩
  · exact absurd hid (by decide)
  · exact absurd hto (by decide)

end XmppProxy.StreamReply
