import XmppProxy.Stanza.Complete

/-! Without a fault, whatever the scanner has read is a beginning of a unit of the grammar, and what
it emits is a unit. -/

namespace XmppProxy.Stanza

/-- `Open o d p`: the bytes `p` begin with the tag `o` and leave `d` elements open. -/
inductive Open (o : Bytes) : Nat → Bytes → Prop where
  | root {c : Bytes} : Content c → Open o 1 (o ++ c)
  | nest {d : Nat} {p t c : Bytes} : Open o d p → OpenTag t → Content c → Open o (d + 1) (p ++ (t ++ c))

theorem Open.append {o p c : Bytes} {d : Nat} (h : Open o d p) (hc : Content c) :
    Open o d (p ++ c) := by
  cases h with
  | root h =>
    rw [List.append_assoc]
    exact .root (h.append hc)
  | nest h ht hc' =>
    simp only [List.append_assoc]
    exact .nest h ht (hc'.append hc)

theorem Open.pos {o p : Bytes} {d : Nat} (h : Open o d p) : d ≠ 0 := by
  cases h <;> omega

theorem Open.isPrefix {o p : Bytes} {d : Nat} (h : Open o d p) : o <+: p := by
  induction h with
  | root _ => exact List.prefix_append _ _
  | nest _ _ _ ih => exact ih.trans (List.prefix_append _ _)

theorem Open.push {o p t : Bytes} {d : Nat} (h : Open o d p) (ht : OpenTag t) :
    Open o (d + 1) (p ++ t) := by
  simpa using h.nest ht .nil

theorem Open.pop {o p t : Bytes} {d : Nat} (h : Open o (d + 2) p) (ht : CloseTag t) :
    Open o (d + 1) (p ++ t) := by
  cases h with
  | nest h ho hc =>
    simp only [List.append_assoc]
    exact h.append (.of_node ho hc ht)

theorem Open.close {o p t : Bytes} (ho : OpenTag o) (h : Open o 1 p) (ht : CloseTag t) :
    Element o (p ++ t) := by
  cases h with
  | root hc =>
    rw [List.append_assoc]
    exact .node ho hc ht
  | nest h _ _ => exact absurd rfl h.pos

/-- A prefix `p` of an element with `d` open levels, where `end_of_first_tag` went from `e₀` to
`e`. -/
def Inside (e₀ d e : Nat) (p : Bytes) : Prop :=
  ∃ o, OpenTag o ∧ ¬ StreamOpen o ∧ Open o d p ∧ e = markAt e₀ (o.length - 1)

/-- A tag read up to here: an opening one after `p`, which is empty for the first tag, or a closing
one. -/
def InTag (e₀ d e : Nat) (p : Bytes) : Bool → Prop
  | false => ∃ q n w, NameStart n ∧ Body w ∧ p = q ++ lt :: n :: w ∧
      (q = [] ∧ d = 1 ∧ e = e₀ ∨ ∃ k, d = k + 1 ∧ Inside e₀ k e q)
  | true => ∃ q m w, NameStart m ∧ Body w ∧ p = q ++ lt :: slash :: m :: w ∧ Inside e₀ (d + 1) e q

/-- What the scanner has read in each mode. -/
def Shape (e₀ : Nat) (s : Scanner) : Prop :=
  match s.mode with
  | .outside => s = .idle e₀
  | .stanzaFirst => s.part = [lt] ∧ s.depth = 1 ∧ s.eoft = e₀
  | .tagFirst false => ∃ p d, s.part = p ++ [lt] ∧ s.depth = d + 1 ∧ Inside e₀ d s.eoft p
  | .tagFirst true => ∃ p, s.part = p ++ [lt, slash] ∧ Inside e₀ (s.depth + 1) s.eoft p
  | .tag closing => InTag e₀ s.depth s.eoft s.part closing
  | .quoted closing q => ∃ p v, s.part = p ++ q :: v ∧ IsQuote q ∧ q ∉ v ∧
      InTag e₀ s.depth s.eoft p closing
  | .between => Inside e₀ s.depth s.eoft s.part
  | .exclamation idx => ∃ p w d, s.part = p ++ lt :: bang :: w ∧ idx = p.length + 8 ∧
      w.length ≤ 6 ∧ s.depth = d + 1 ∧ Inside e₀ d s.eoft p
  | .cdata => ∃ p w, s.part = p ++ (bytes "<![CDATA[" ++ w) ∧ (∀ q, ¬ q ++ bytes "]]>" <+: w) ∧
      Inside e₀ s.depth s.eoft p
  | .question idx => ∃ w, s.part = lt :: quest :: w ∧ idx = 5 ∧ w.length ≤ 3 ∧ s.eoft = e₀
  | .xmlTag => ∃ w, s.part = bytes "<?xml " ++ w ∧ gt ∉ w ∧ s.eoft = e₀
  | .endStream => s.eoft = e₀ ∧ [lt, slash] <+: s.part

/-- What a branch may do to a scanner of that shape. -/
def Sound (e₀ : Nat) (b : UInt8) : Scanner.Move → Prop
  | .fall s => Shape e₀ (s.push b)
  | .ret (.ok (some u)) s => ∃ e', Marks e₀ u e' ∧ s = .idle e'
  | .ret (.ok none) s => Shape e₀ s
  | .ret (.err _) _ => True
  | .ret .panic _ => False

theorem Inside.eoft_ne {e₀ d e : Nat} {p : Bytes} (h : Inside e₀ d e p) : e ≠ 0 := by
  obtain ⟨o, ho, -, -, rfl⟩ := h
  exact markAt_ne_zero (by have := ho.length_pos; omega)

theorem Inside.depth_ne {e₀ d e : Nat} {p : Bytes} (h : Inside e₀ d e p) : d ≠ 0 := by
  obtain ⟨o, -, -, ho, -⟩ := h
  exact ho.pos

theorem Inside.append {e₀ d e : Nat} {p c : Bytes} (h : Inside e₀ d e p) (hc : Content c) :
    Inside e₀ d e (p ++ c) := by
  obtain ⟨o, ho, hs, hp, he⟩ := h
  exact ⟨o, ho, hs, hp.append hc, he⟩

theorem Inside.push {e₀ d e : Nat} {p t : Bytes} (h : Inside e₀ d e p) (ht : OpenTag t) :
    Inside e₀ (d + 1) e (p ++ t) := by
  obtain ⟨o, ho, hs, hp, he⟩ := h
  exact ⟨o, ho, hs, hp.push ht, he⟩

theorem Inside.pop {e₀ d e : Nat} {p t : Bytes} (h : Inside e₀ (d + 2) e p) (ht : CloseTag t) :
    Inside e₀ (d + 1) e (p ++ t) := by
  obtain ⟨o, ho, hs, hp, he⟩ := h
  exact ⟨o, ho, hs, hp.pop ht, he⟩

theorem Inside.close {e₀ e : Nat} {p t : Bytes} (h : Inside e₀ 1 e p) (ht : CloseTag t) :
    Marks e₀ (p ++ t) e := by
  obtain ⟨o, ho, hs, hp, rfl⟩ := h
  exact .element (hp.close ho ht) hs

theorem Inside.not_stream {e₀ d e : Nat} {p x : Bytes} (h : Inside e₀ d e p) :
    ¬ bytes "<stream:stream " <+: p ++ x := by
  obtain ⟨o, ho, hs, hp, -⟩ := h
  obtain ⟨r, rfl⟩ := hp.isPrefix
  rw [List.append_assoc]
  exact ho.not_stream hs

theorem Body.of_concat_slash {w : Bytes} (h : Body (w ++ [slash])) : Body w := by
  generalize hx : w ++ [slash] = x at h
  induction h generalizing w with
  | nil => exact absurd hx (by simp)
  | @byte b y hb hq _ ih =>
    cases w with
    | nil => exact .nil
    | cons a w =>
      obtain ⟨rfl, rfl⟩ := List.cons.inj hx
      exact .byte hb hq (ih rfl)
  | @quoted q v y hq hv _ ih =>
    obtain rfl | ⟨y', z, rfl⟩ := List.eq_nil_or_concat' y
    · have hx' : w ++ [slash] = (q :: v) ++ [q] := hx.trans (by simp)
      have hlast := (List.append_inj' hx' rfl).2
      rw [← (List.cons.inj hlast).1] at hq
      exact absurd hq (by unfold IsQuote; decide)
    · have hx' : w ++ [slash] = (q :: (v ++ q :: y')) ++ [z] := hx.trans (by simp)
      obtain ⟨hw, hz⟩ := List.append_inj' hx' rfl
      rw [hw]
      exact .quoted hq hv (ih (by rw [hz]))

theorem EmptyTag.not_open {t : Bytes} (h : EmptyTag t) : ¬ OpenTag t := by
  intro ho
  obtain ⟨_, _⟩ := h
  rename_i n w _ _
  generalize hx : lt :: n :: (w ++ [slash, gt]) = x at ho
  obtain ⟨_, _, hl⟩ := ho
  rename_i n' w' _ _
  have hw : (w ++ [slash]) ++ [gt] = w' ++ [gt] := by
    simpa using (List.cons.inj (List.cons.inj hx).2).2
  rw [← List.append_cancel_right hw, ← List.cons_append] at hl
  exact hl List.getLast?_concat

theorem EmptyTag.not_stream {t : Bytes} (h : EmptyTag t) : ¬ StreamOpen t := fun hs => h.not_open hs.1

theorem emptyTag_of_last {n : UInt8} {w : Bytes} (hn : NameStart n) (hw : Body w)
    (hl : (n :: w).getLast? = some slash) : EmptyTag (lt :: n :: (w ++ [gt])) := by
  obtain rfl | ⟨w', x, rfl⟩ := List.eq_nil_or_concat' w
  · exact absurd (Option.some.inj hl) hn.1
  · rw [← List.cons_append, List.getLast?_append_cons, List.getLast?_singleton] at hl
    rw [Option.some.inj hl] at hw ⊢
    simpa using EmptyTag.mk hn hw.of_concat_slash

section

variable {e₀ d e : Nat} {p : Bytes} {m : Mode}

theorem sound_inside (h : Inside e₀ d e (p ++ [gt])) :
    Sound e₀ gt (Scanner.afterTag ⟨p, d, e, m⟩ gt) := by
  rw [afterTag_between h.depth_ne fun _ => List.append_nil (p ++ [gt]) ▸ h.not_stream]
  exact h

theorem sound_open (h : InTag e₀ d e p false) {x : UInt8} (hl : p.getLast? = some x)
    (hx : x ≠ slash) : Sound e₀ gt (Scanner.afterTag ⟨p, d, markAt e p.length, m⟩ gt) := by
  obtain ⟨q, n, w, hn, hw, rfl, hq⟩ := h
  rw [getLast?_tag] at hl
  have ht : OpenTag (lt :: n :: (w ++ [gt])) :=
    .mk hn hw fun h => hx (Option.some.inj (hl.symm.trans h))
  rcases hq with ⟨rfl, rfl, rfl⟩ | ⟨k, rfl, hin⟩
  · by_cases hs : StreamOpen (lt :: n :: (w ++ [gt]))
    · rw [afterTag_emit (.inr ⟨rfl, hs.2⟩)]
      refine ⟨_, .streamOpen hs, ?_⟩
      simp
    · refine sound_inside ⟨_, ht, hs, ?_, ?_⟩
      · simpa using Open.root (o := lt :: n :: (w ++ [gt])) .nil
      · simp
  · rw [markAt_of_ne hin.eoft_ne]
    exact sound_inside (by simpa using hin.push ht)

theorem sound_empty (h : InTag e₀ (d + 1) e p false) (hl : p.getLast? = some slash) :
    Sound e₀ gt (Scanner.afterTag ⟨p, d, markAt e p.length, m⟩ gt) := by
  obtain ⟨q, n, w, hn, hw, rfl, hq⟩ := h
  rw [getLast?_tag] at hl
  have ht := emptyTag_of_last hn hw hl
  rcases hq with ⟨rfl, hd, rfl⟩ | ⟨k, hk, hin⟩
  · rw [afterTag_emit (.inl (by omega))]
    refine ⟨_, .element (.empty ht) ht.not_stream, ?_⟩
    simp
  · obtain rfl : d = k := by omega
    rw [markAt_of_ne hin.eoft_ne]
    exact sound_inside (by simpa using hin.append (.of_empty ht))

theorem sound_close (h : InTag e₀ d e p true) {x : UInt8} (hl : p.getLast? = some x)
    (hx : x ≠ slash) : Sound e₀ gt (Scanner.afterTag ⟨p, d, markAt e p.length, m⟩ gt) := by
  obtain ⟨q, n, w, hn, hw, rfl, hin⟩ := h
  rw [getLast?_tag, List.getLast?_cons_cons] at hl
  have ht : CloseTag (lt :: slash :: n :: (w ++ [gt])) :=
    .mk hn hw fun h => hx (Option.some.inj (hl.symm.trans h))
  rw [markAt_of_ne hin.eoft_ne]
  cases d with
  | zero =>
    rw [afterTag_emit (.inl rfl)]
    exact ⟨e, by simpa using hin.close ht, rfl⟩
  | succ d => exact sound_inside (by simpa using hin.pop ht)

end

theorem sound_subDepth {e₀ : Nat} {b : UInt8} {s : Scanner} {n : Nat} {k : Scanner → Scanner.Move}
    (hk : ∀ d, s.depth = d + n → Sound e₀ b (k { s with depth := d })) :
    Sound e₀ b (s.subDepth n k) := by
  unfold Scanner.subDepth checkedSub
  by_cases h : n > s.depth
  · rw [if_pos h]
    trivial
  · rw [if_neg h]
    exact hk _ (by omega)

theorem sound_ifLastEquals {e₀ : Nat} {b : UInt8} {s : Scanner} {needle : Bytes}
    {yes no : Scanner.Move} (hyes : needle <:+ s.part ++ [b] → Sound e₀ b yes)
    (hno : ¬ needle <:+ s.part ++ [b] → needle.length - 1 ≤ s.part.length → Sound e₀ b no) :
    Sound e₀ b (s.ifLastEquals b needle yes no) := by
  unfold Scanner.ifLastEquals
  split_ifs with hl hs
  · exact hyes hs
  · exact hno hs hl
  · trivial

theorem InTag.ne_nil {e₀ d e : Nat} {p : Bytes} {c : Bool} (h : InTag e₀ d e p c) : p ≠ [] := by
  cases c <;> obtain ⟨q, n, w, -, -, rfl, -⟩ := h <;> simp

theorem InTag.append {e₀ d e : Nat} {p u : Bytes} {c : Bool} (h : InTag e₀ d e p c)
    (hu : ∀ {w}, Body w → Body (w ++ u)) : InTag e₀ d e (p ++ u) c := by
  cases c <;> obtain ⟨q, n, w, hn, hw, rfl, hq⟩ := h
  · exact ⟨q, n, w ++ u, hn, hu hw, by simp, hq⟩
  · exact ⟨q, n, w ++ u, hn, hu hw, by simp, hq⟩

theorem sound_tagClosed {e₀ : Nat} {s : Scanner} {c : Bool}
    (h : InTag e₀ s.depth s.eoft s.part c) (hf : c = true → s.part.getLast? ≠ some slash) :
    Sound e₀ gt (s.tagClosed gt) := by
  obtain ⟨p, d, e, m⟩ := s
  have hlast := List.getLast?_eq_getLast_of_ne_nil h.ne_nil
  generalize p.getLast h.ne_nil = x at hlast
  unfold Scanner.tagClosed
  simp only [hlast, markFirstTag_eq]
  by_cases hx : x = slash
  · rw [if_pos hx]
    subst hx
    cases c with
    | true => exact absurd hlast (hf rfl)
    | false =>
      refine sound_subDepth fun k hk => ?_
      dsimp only at hk h
      subst hk
      exact sound_empty h hlast
  · rw [if_neg hx]
    cases c with
    | true => exact sound_close h hlast hx
    | false => exact sound_open h hlast hx

theorem nameStart_of {b : UInt8} (h1 : b ≠ slash) (h2 : b ≠ bang)
    (h3 : ¬ (b = quest ∨ b = gt ∨ b = apos ∨ b = quot)) : NameStart b :=
  ⟨h1, h2, fun h => h3 (.inl h), fun h => h3 (.inr (.inl h)), fun h => h3 (.inr (.inr h))⟩

theorem eq_of_suffix {l w needle : Bytes} (h : needle <:+ l ++ w) (hl : w.length = needle.length) :
    w = needle := by
  obtain ⟨x, hx⟩ := h
  exact (List.append_inj' hx hl.symm).2.symm

section

variable {e₀ d e : Nat} {p : Bytes} {b : UInt8} {c : Bool}

theorem shape_root (hb : NameStart b) : Shape e₀ ⟨[lt, b], 1, e₀, .tag false⟩ :=
  ⟨[], b, [], hb, .nil, rfl, .inl ⟨rfl, rfl, rfl⟩⟩

theorem shape_tag (h : InTag e₀ d e p c) (hgt : b ≠ gt) (hq : ¬ IsQuote b) :
    Shape e₀ ⟨p ++ [b], d, e, .tag c⟩ := h.append fun hw => hw.concat hgt hq

theorem shape_quote (h : InTag e₀ d e p c) (hq : IsQuote b) :
    Shape e₀ ⟨p ++ [b], d, e, .quoted c b⟩ := ⟨p, [], rfl, hq, by simp, h⟩

theorem shape_quoted {q : UInt8} (h : Shape e₀ ⟨p, d, e, .quoted c q⟩) (hb : b ≠ q) :
    Shape e₀ ⟨p ++ [b], d, e, .quoted c q⟩ := by
  obtain ⟨x, v, hp, hq, hv, hin⟩ := h
  dsimp only at hp
  subst hp
  refine ⟨x, v ++ [b], by simp, hq, ?_, hin⟩
  simp only [List.mem_append, List.mem_singleton, not_or]
  exact ⟨hv, fun h => hb h.symm⟩

theorem shape_unquote {q : UInt8} (h : Shape e₀ ⟨p, d, e, .quoted c q⟩) :
    Shape e₀ ⟨p ++ [q], d, e, .tag c⟩ := by
  obtain ⟨x, v, hp, hq, hv, hin⟩ := h
  dsimp only at hp
  subst hp
  have := hin.append (u := q :: v ++ [q]) fun hw => by simpa using hw.close hq hv
  simpa [Shape] using this

theorem shape_question {idx : Nat} (h : Shape e₀ ⟨p, d, e, .question idx⟩) (hi : idx ≠ p.length) :
    Shape e₀ ⟨p ++ [b], d, e, .question idx⟩ := by
  obtain ⟨w, hp, hidx, hw, he⟩ := h
  dsimp only at hp
  subst hp hidx
  simp only [List.length_cons] at hi
  refine ⟨w ++ [b], rfl, rfl, ?_, he⟩
  rw [List.length_append, List.length_singleton]
  omega

/-- The look-back at `idx` sees all that follows `<?`. -/
theorem shape_declaration (h : Shape e₀ ⟨p, d, e, .question p.length⟩)
    (hs : bytes "xml " <:+ p ++ [b]) : Shape e₀ ⟨p ++ [b], d, e, .xmlTag⟩ := by
  obtain ⟨w, hp, hidx, hw, he⟩ := h
  dsimp only at hp hidx
  subst hp
  simp only [List.length_cons] at hidx
  have hwb : w ++ [b] = bytes "xml " :=
    eq_of_suffix (l := [lt, quest]) (by simpa using hs)
      (by rw [List.length_append, List.length_singleton]; change _ = 4; omega)
  have : lt :: quest :: w ++ [b] = [lt, quest] ++ (w ++ [b]) := rfl
  rw [this, hwb]
  exact ⟨[], rfl, by simp, he⟩

theorem shape_xmlTag (h : Shape e₀ ⟨p, d, e, .xmlTag⟩) (hb : b ≠ gt) :
    Shape e₀ ⟨p ++ [b], d, e, .xmlTag⟩ := by
  obtain ⟨w, hp, hw, he⟩ := h
  dsimp only at hp
  subst hp
  refine ⟨w ++ [b], by simp, ?_, he⟩
  simp only [List.mem_append, List.mem_singleton, not_or]
  exact ⟨hw, fun h => hb h.symm⟩

theorem shape_exclamation {idx : Nat} (h : Shape e₀ ⟨p, d, e, .exclamation idx⟩)
    (hi : idx ≠ p.length) : Shape e₀ ⟨p ++ [b], d, e, .exclamation idx⟩ := by
  obtain ⟨q, w, k, hp, hidx, hw, hd, hin⟩ := h
  dsimp only at hp
  subst hp hidx
  simp only [List.length_append, List.length_cons] at hi
  refine ⟨q, w ++ [b], k, by simp, rfl, ?_, hd, hin⟩
  rw [List.length_append, List.length_singleton]
  omega

/-- So does the one behind `<!`, which is no tag: the depth goes back to the one in front of it. -/
theorem shape_section {k : Nat} (h : Shape e₀ ⟨p, k + 1, e, .exclamation p.length⟩)
    (hs : bytes "[CDATA[" <:+ p ++ [b]) : Shape e₀ ⟨p ++ [b], k, e, .cdata⟩ := by
  obtain ⟨q, w, d, hp, hidx, hw, hd, hin⟩ := h
  dsimp only at hp hidx hd hin
  subst hp
  obtain rfl : k = d := by omega
  simp only [List.length_append, List.length_cons] at hidx
  have hwb : w ++ [b] = bytes "[CDATA[" :=
    eq_of_suffix (l := q ++ [lt, bang]) (by simpa using hs)
      (by rw [List.length_append, List.length_singleton]; change _ = 7; omega)
  have : q ++ lt :: bang :: w ++ [b] = q ++ ([lt, bang] ++ (w ++ [b])) := by simp
  rw [this, hwb]
  exact ⟨q, [], rfl, by simp [bytes], hin⟩

theorem shape_cdata (h : Shape e₀ ⟨p, d, e, .cdata⟩) (hb : ¬ bytes "]]>" <:+ p ++ [b]) :
    Shape e₀ ⟨p ++ [b], d, e, .cdata⟩ := by
  obtain ⟨q, w, hp, hw, hin⟩ := h
  dsimp only at hp
  subst hp
  refine ⟨q, w ++ [b], by simp, fun y hy => ?_, hin⟩
  rcases List.prefix_concat_iff.mp hy with h | h
  · refine hb ⟨q ++ (bytes "<![CDATA[" ++ y), ?_⟩
    have := congrArg (fun l => q ++ (bytes "<![CDATA[" ++ l)) h
    simpa using this
  · exact hw y h

/-- The first `]]>` behind the marker ends the section: it does not overlap with the marker. -/
theorem shape_sectionEnd (h : Shape e₀ ⟨p, d, e, .cdata⟩) (hs : bytes "]]>" <:+ p ++ [gt]) :
    Shape e₀ ⟨p ++ [gt], d, e, .between⟩ := by
  obtain ⟨q, w, hp, hw, hin⟩ := h
  dsimp only at hp
  subst hp
  obtain ⟨x, hx⟩ := section_suffix (p := q) (s := w) (by simpa using hs)
  have hc : CData (bytes "<![CDATA[" ++ (x ++ bytes "]]>")) := by
    refine .mk fun y hy => ?_
    rw [hx] at hy
    rcases List.prefix_concat_iff.mp hy with h | h
    · exact List.append_cancel_right (h.trans hx.symm)
    · exact absurd h (hw y)
  have := hin.append (.of_cdata hc)
  rw [hx] at this
  simpa [Shape] using this

end

theorem not_suffix_of_ne_gt {p : Bytes} {b : UInt8} (hb : b ≠ gt) : ¬ bytes "]]>" <:+ p ++ [b] := by
  rintro ⟨x, hx⟩
  have hx' : (x ++ bytes "]]") ++ [gt] = p ++ [b] := (List.append_assoc ..).trans hx
  exact hb (List.cons.inj (List.append_inj' hx' rfl).2).1.symm

/-- A step without fault keeps the shape, and emits units only. -/
theorem sound_dispatch {e₀ : Nat} {s : Scanner} (h : Shape e₀ s) {b : UInt8} (hf : ¬ s.Fault b) :
    Sound e₀ b (s.dispatch b) := by
  obtain ⟨p, d, e, m⟩ := s
  unfold Scanner.dispatch
  cases m
  case outside =>
    dsimp only [Shape] at h ⊢
    obtain ⟨rfl, rfl, rfl, -⟩ := Scanner.mk.injEq .. ▸ h
    split_ifs with hb
    · subst hb
      exact ⟨rfl, rfl, rfl⟩
    · exact rfl
  case stanzaFirst =>
    obtain ⟨rfl, rfl, rfl⟩ := h
    dsimp only
    split_ifs with h1 h2 h3
    · subst h1
      exact ⟨rfl, List.prefix_rfl⟩
    · trivial
    · subst h3
      exact ⟨[], rfl, rfl, by simp, rfl⟩
    · exact shape_root (nameStart_of h1 (fun h => h2 (.inl h)) fun h => h.elim h3 fun h => h2 (.inr h))
  case tagFirst closing =>
    cases closing <;> dsimp only [Shape] at h ⊢
    · obtain ⟨q, k, rfl, rfl, hin⟩ := h
      split_ifs with h1 h2 h3
      · refine sound_subDepth fun k' hk => ?_
        subst h1
        dsimp only at hk
        obtain rfl : k = k' + 1 := by omega
        exact ⟨q, by simp [Scanner.push], hin⟩
      · subst h2
        exact ⟨q, [], k, by simp [Scanner.push], by simp, by simp, rfl, hin⟩
      · trivial
      · exact ⟨q, b, [], nameStart_of h1 h2 h3, .nil, by simp [Scanner.push], .inr ⟨k, rfl, hin⟩⟩
    · obtain ⟨q, rfl, hin⟩ := h
      split_ifs with h1 h2 h3
      · exact absurd ⟨rfl, .inl h1⟩ hf
      · exact absurd ⟨rfl, .inr h2⟩ hf
      · trivial
      · exact ⟨q, b, [], nameStart_of h1 h2 h3, .nil, by simp [Scanner.push], hin⟩
  case tag closing =>
    dsimp only
    split_ifs with h1 h2
    · subst h1
      exact sound_tagClosed h fun hc hl => hf ⟨hc, rfl, hl⟩
    · exact shape_quote h h2
    · exact shape_tag h h1 h2
  case quoted closing q =>
    dsimp only
    split_ifs with h1
    · subst h1
      exact shape_unquote h
    · exact shape_quoted h h1
  case between =>
    dsimp only
    split_ifs with h1
    · subst h1
      exact ⟨p, d, rfl, rfl, h⟩
    · exact Inside.append h (.text h1 .nil)
  case exclamation idx =>
    dsimp only
    split_ifs with hi
    · subst hi
      refine sound_ifLastEquals (fun hs => sound_subDepth fun k hk => ?_) fun _ _ => trivial
      dsimp only at hk
      subst hk
      exact shape_section h hs
    · exact shape_exclamation h hi
  case cdata =>
    dsimp only
    split_ifs with h1
    · subst h1
      exact sound_ifLastEquals (shape_sectionEnd h) fun hs _ => shape_cdata h hs
    · exact shape_cdata h (not_suffix_of_ne_gt h1)
  case question idx =>
    dsimp only
    split_ifs with hi
    · subst hi
      exact sound_ifLastEquals (shape_declaration h) fun _ _ => trivial
    · exact shape_question h hi
  case xmlTag =>
    dsimp only
    split_ifs with h1
    · subst h1
      obtain ⟨w, rfl, hw, rfl⟩ := h
      refine ⟨e, ?_, rfl⟩
      simpa using Marks.xmlDecl hw
    · exact shape_xmlTag h h1
  case endStream =>
    obtain ⟨rfl, hpre⟩ := h
    dsimp only at hpre ⊢
    split_ifs with h1
    · subst h1
      -- the look-back alone would accept any junk in front: that is the fault
      have hp : p = bytes "</stream:stream" := by
        by_contra hne
        exact hf ⟨rfl, hne⟩
      subst hp
      refine sound_ifLastEquals (fun _ => ?_) fun _ _ => trivial
      rw [markFirstTag_eq]
      exact ⟨_, .streamClose, rfl⟩
    · exact ⟨rfl, hpre.trans (List.prefix_append _ _)⟩

end XmppProxy.Stanza
