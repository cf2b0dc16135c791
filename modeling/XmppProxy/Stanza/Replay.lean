import XmppProxy.Stanza.Emission

/-! A stanza that is read again, by itself. What follows the first tag is read in the same way behind
any other first tag, so that a stanza changed within its first tag is cut where it was cut before.
Only an error between the bytes of a stanza may leave it unreadable: the one that assigns a state
before it fails. -/

namespace XmppProxy.Stanza

open Lib

def behind (o : Bytes) : Scanner := ⟨o, 1, o.length - 1, .between⟩

/-- The modes of a scanner that has left the first tag of an element behind. -/
def Mode.Inner : Mode → Prop
  | .tagFirst _ | .tag _ | .quoted _ _ | .between | .exclamation _ | .cdata => True
  | _ => False

structure Nested (s : Scanner) : Prop where
  eoft : s.eoft ≠ 0
  mode : s.mode.Inner

/-- The `[` of `<![CDATA[` is due, and there is no tag left to take off. -/
def Stuck (s : Scanner) : Prop := s.mode = .exclamation s.part.length ∧ s.depth = 0

theorem Stuck.dispatch {s : Scanner} (h : Stuck s) (b : UInt8) :
    ∃ e t, s.dispatch b = .ret (.err e) t := by
  have hsub : checkedSub 0 1 = .error .invalidStanza := rfl
  simp only [Scanner.dispatch, h.1, if_pos, Scanner.ifLastEquals, Scanner.subDepth, h.2, hsub]
  split_ifs
  · exact ⟨_, _, rfl⟩
  · exact ⟨_, _, rfl⟩
  · exact ⟨_, _, rfl⟩

/-- What a branch makes of a nested scanner `s` that reads `b`. -/
def Scanner.Move.Stays (s : Scanner) (b : UInt8) : Scanner.Move → Prop
  | .fall t => (Nested t ∧ t.eoft = s.eoft) ∧ (Loose s → b < 0x80 ∧ EndsAscii s.part)
  | .ret (.ok (some _)) t => t = .idle s.eoft ∧ b < 0x80 ∧ ¬ Loose s
  | .ret (.ok none) _ => False
  | .ret (.err _) t => t = s ∧ (b < 0x80 ∨ Loose s) ∨ Stuck s ∧ Nested t ∧ t.part = s.part ∧ t.eoft = s.eoft
  | .ret .panic _ => True

section

variable {s : Scanner} {b : UInt8}

theorem Nested.with_mode (h : Nested s) {m : Mode} (hm : m.Inner) (d : Nat) :
    Nested { s with depth := d, mode := m } := ⟨h.eoft, hm⟩

theorem Nested.not_loose (h : Nested s) (hm : ∀ i, s.mode ≠ .exclamation i) : ¬ Loose s := by
  have hmode := h.mode
  rintro (ho | ho | ho)
  · rw [ho] at hmode
    exact hmode
  · rw [ho] at hmode
    exact hmode
  · exact hm _ ho

theorem stays_fall (h : Nested s) (hl : ¬ Loose s) (d : Nat) {m : Mode} (hm : m.Inner) :
    (Scanner.Move.fall { s with depth := d, mode := m }).Stays s b :=
  ⟨⟨h.with_mode hm d, rfl⟩, fun h => absurd h hl⟩

theorem stays_subDepth (hb : b < 0x80) {n : Nat} {k : Scanner → Scanner.Move}
    (hk : ∀ d, (k { s with depth := d }).Stays s b) : (s.subDepth n k).Stays s b := by
  unfold Scanner.subDepth
  split
  · exact hk _
  · exact .inl ⟨rfl, .inl hb⟩

theorem stays_ifLastEquals {needle : Bytes} {yes no : Scanner.Move} (hb : b < 0x80 ∨ Loose s)
    (hyes : needle <:+ s.part ++ [b] → yes.Stays s b) (hno : no.Stays s b) :
    (s.ifLastEquals b needle yes no).Stays s b := by
  unfold Scanner.ifLastEquals
  split_ifs with _ h
  · exact hyes h
  · exact hno
  · exact .inl ⟨rfl, hb⟩

theorem stays_tagClosed (h : Nested s) (hl : ¬ Loose s) : (s.tagClosed gt).Stays s gt := by
  have hgt : gt < 0x80 := by decide
  have hmark : s.markFirstTag = s := if_neg h.eoft
  have hafter : ∀ d, (Scanner.afterTag { s with depth := d } gt).Stays s gt := by
    intro d
    unfold Scanner.afterTag
    split_ifs
    · exact ⟨rfl, hgt, hl⟩
    · exact ⟨rfl, hgt, hl⟩
    · exact stays_fall h hl d trivial
  unfold Scanner.tagClosed
  rw [hmark]
  split
  · trivial
  · split_ifs
    · exact stays_subDepth hgt hafter
    · exact hafter s.depth

theorem Nested.stays (h : Nested s) (b : UInt8) : (s.dispatch b).Stays s b := by
  obtain ⟨p, d, e, m⟩ := s
  have hmode := h.mode
  unfold Scanner.dispatch
  cases m <;> dsimp only [Mode.Inner] at hmode ⊢
  case between =>
    have hl := h.not_loose (by simp)
    split_ifs
    · exact stays_fall h hl _ trivial
    · exact stays_fall h hl d trivial
  case tagFirst =>
    have hl := h.not_loose (by simp)
    split_ifs with h1 h2 h3
    · exact stays_subDepth (ascii_byte (by tauto)) fun d => stays_fall h hl d trivial
    · exact stays_fall h hl d trivial
    · exact .inl ⟨rfl, .inl (ascii_byte (by tauto))⟩
    · exact stays_fall h hl d trivial
  case tag =>
    have hl := h.not_loose (by simp)
    split_ifs with h1
    · subst h1
      exact stays_tagClosed h hl
    · exact stays_fall h hl d trivial
    · exact stays_fall h hl d trivial
  case quoted =>
    have hl := h.not_loose (by simp)
    split_ifs
    · exact stays_fall h hl d trivial
    · exact stays_fall h hl d trivial
  case exclamation idx =>
    split_ifs with hi
    · subst hi
      have hloose : Loose ⟨p, d, e, .exclamation p.length⟩ := .inr (.inr rfl)
      refine stays_ifLastEquals (.inr hloose) (fun hs => ?_) (.inl ⟨rfl, .inr hloose⟩)
      have hasc : b < 0x80 ∧ EndsAscii p :=
        ascii_of_suffix (n := bytes "[CDATA") (x := 91) hs (by decide) ⟨65, rfl, by decide⟩
      cases d with
      | zero => exact .inr ⟨⟨rfl, rfl⟩, ⟨h.eoft, trivial⟩, rfl, rfl⟩
      | succ d => exact ⟨⟨⟨h.eoft, trivial⟩, rfl⟩, fun _ => hasc⟩
    · refine stays_fall h ?_ d trivial
      rintro (ho | ho | ho)
      · cases ho
      · cases ho
      · exact hi (Mode.exclamation.inj ho)
  case cdata =>
    have hl := h.not_loose (by simp)
    split_ifs with hb
    · exact stays_ifLastEquals (.inl (ascii_byte (by tauto))) (fun _ => stays_fall h hl d trivial)
        (stays_fall h hl d trivial)
    · exact stays_fall h hl d trivial

end

def Opening (s : Scanner) : Prop := Shape 0 s ∧ s.eoft = 0

theorem opening_idle : Opening (.idle 0) := ⟨rfl, rfl⟩

theorem Inside.not_opening {d : Nat} {p : Bytes} {P : Prop} (h : Inside 0 d 0 p) : P :=
  absurd rfl h.eoft_ne

theorem InTag.opening {d : Nat} {p : Bytes} {c : Bool} (h : InTag 0 d 0 p c) :
    c = false ∧ d = 1 ∧ ∃ n w, NameStart n ∧ Body w ∧ p = lt :: n :: w := by
  cases c <;> obtain ⟨q, n, w, hn, hw, rfl, hq⟩ := h
  · rcases hq with ⟨rfl, hd, -⟩ | ⟨k, -, hin⟩
    · exact ⟨rfl, hd, n, w, hn, hw, rfl⟩
    · exact hin.not_opening
  · exact hq.not_opening

/-- The first tag of an element with content. -/
structure RootTag (o : Bytes) : Prop where
  tag : OpenTag o
  plain : ¬ StreamOpen o

theorem Opening.tag_of_inner {s : Scanner} (h : Opening s) (hm : s.mode.Inner) :
    ∃ n w, NameStart n ∧ s.part = lt :: n :: w ∧
      ((∃ c, s.mode = .tag c) ∨ ∃ c q, s.mode = .quoted c q) := by
  obtain ⟨p, d, e, m⟩ := s
  obtain ⟨h, he⟩ := h
  dsimp only at he hm
  subst he
  cases m <;> dsimp only [Shape, Mode.Inner] at h hm
  case tag c =>
    obtain ⟨-, -, n, w, hn, -, rfl⟩ := h.opening
    exact ⟨n, w, hn, rfl, .inl ⟨c, rfl⟩⟩
  case quoted c q =>
    obtain ⟨x, v, rfl, -, -, hin⟩ := h
    obtain ⟨-, -, n, w, hn, -, rfl⟩ := hin.opening
    exact ⟨n, w ++ q :: v, hn, rfl, .inr ⟨c, q, rfl⟩⟩
  case between => exact h.not_opening
  case tagFirst c =>
    cases c <;> dsimp only at h
    · obtain ⟨q, k, -, -, hin⟩ := h
      exact hin.not_opening
    · obtain ⟨q, -, hin⟩ := h
      exact hin.not_opening
  case exclamation =>
    obtain ⟨q, w, k, -, -, -, -, hin⟩ := h
    exact hin.not_opening
  case cdata =>
    obtain ⟨q, w, -, -, hin⟩ := h
    exact hin.not_opening

/-- A stanza that is over with its first tag, and where that is marked. -/
def Short (u : Bytes) (e : Nat) : Prop :=
  u[1]? = some slash ∨ u[1]? = some quest ∨ StreamOpen u ∨ EmptyTag u ∧ e = u.length - 1

/-- What a branch makes of an opening scanner `s` that reads `b`. -/
def Scanner.Move.Opens (s : Scanner) (b : UInt8) : Scanner.Move → Prop
  | .fall t => Opening (t.push b) ∨ ∃ o, RootTag o ∧ t.push b = behind o
  | .ret (.ok (some u)) t => Short u t.eoft
  | .ret (.ok none) _ => True
  | .ret (.err _) t => t = s
  | .ret .panic _ => True

section

variable {s : Scanner} {b : UInt8}

theorem opens_ifLastEquals {needle : Bytes} {yes no : Scanner.Move}
    (hyes : needle <:+ s.part ++ [b] → yes.Opens s b)
    (hno : ¬ needle <:+ s.part ++ [b] → needle.length - 1 ≤ s.part.length → no.Opens s b) :
    (s.ifLastEquals b needle yes no).Opens s b := by
  unfold Scanner.ifLastEquals
  split_ifs with hl hs
  · exact hyes hs
  · exact hno hs hl
  · exact rfl

theorem opens_tagClosed {n : UInt8} {w : Bytes} (hn : NameStart n) (hw : Body w) :
    (Scanner.tagClosed ⟨lt :: n :: w, 1, 0, .tag false⟩ gt).Opens s gt := by
  have hlast := List.getLast?_eq_getLast_of_ne_nil (List.cons_ne_nil n w)
  generalize (n :: w).getLast (List.cons_ne_nil n w) = x at hlast
  have hmark : markAt 0 (lt :: n :: w).length = (lt :: n :: w).length := if_pos rfl
  have hlen : (lt :: n :: w).length = (lt :: n :: w ++ [gt]).length - 1 := by
    rw [List.length_append, List.length_singleton, Nat.add_sub_cancel]
  unfold Scanner.tagClosed
  rw [List.getLast?_cons_cons, hlast, markFirstTag_eq, hmark]
  dsimp only
  by_cases hx : x = slash
  · rw [if_pos hx]
    subst hx
    have hsub : checkedSub 1 1 = .ok 0 := rfl
    rw [Scanner.subDepth, hsub]
    dsimp only
    rw [afterTag_emit (.inl rfl)]
    exact .inr (.inr (.inr ⟨emptyTag_of_last hn hw hlast, hlen⟩))
  · rw [if_neg hx]
    have ht : OpenTag (lt :: n :: (w ++ [gt])) :=
      .mk hn hw fun h => hx (Option.some.inj (hlast.symm.trans h))
    by_cases hs : StreamOpen (lt :: n :: (w ++ [gt]))
    · rw [afterTag_emit (.inr ⟨rfl, hs.2⟩)]
      exact .inr (.inr (.inl hs))
    · rw [afterTag_between (by decide) fun _ h => hs ⟨ht, h⟩]
      refine .inr ⟨_, ⟨ht, hs⟩, ?_⟩
      unfold behind Scanner.push
      rw [hlen]
      rfl

theorem Opening.opens (h : Opening s) (b : UInt8) : (s.dispatch b).Opens s b := by
  have hinner := h.tag_of_inner
  obtain ⟨p, d, e, m⟩ := s
  obtain ⟨h, he⟩ := h
  dsimp only at he
  subst he
  unfold Scanner.dispatch
  cases m
  case outside =>
    dsimp only [Shape] at h ⊢
    obtain ⟨rfl, rfl, -, -⟩ := Scanner.mk.injEq .. ▸ h
    split_ifs with hb
    · subst hb
      exact .inl ⟨⟨rfl, rfl, rfl⟩, rfl⟩
    · trivial
  case stanzaFirst =>
    obtain ⟨rfl, rfl, -⟩ := h
    dsimp only
    split_ifs with h1 h2 h3
    · subst h1
      exact .inl ⟨⟨rfl, List.prefix_rfl⟩, rfl⟩
    · exact rfl
    · subst h3
      exact .inl ⟨⟨[], rfl, rfl, by simp, rfl⟩, rfl⟩
    · have hn : NameStart b :=
        nameStart_of h1 (fun h => h2 (.inl h)) fun h => h.elim h3 fun h => h2 (.inr h)
      exact .inl ⟨shape_root hn, rfl⟩
  case tag closing =>
    have htag : InTag 0 d 0 p closing := h
    obtain ⟨rfl, rfl, n, w, hn, hw, rfl⟩ := htag.opening
    dsimp only
    split_ifs with h1 h2
    · subst h1
      exact opens_tagClosed hn hw
    · exact .inl ⟨shape_quote htag h2, rfl⟩
    · exact .inl ⟨shape_tag htag h1 h2, rfl⟩
  case quoted closing q =>
    dsimp only
    split_ifs with h1
    · subst h1
      exact .inl ⟨shape_unquote h, rfl⟩
    · exact .inl ⟨shape_quoted h h1, rfl⟩
  case question idx =>
    dsimp only
    split_ifs with hi
    · subst hi
      exact opens_ifLastEquals (fun hs => .inl ⟨shape_declaration h hs, rfl⟩) fun _ _ => rfl
    · exact .inl ⟨shape_question h hi, rfl⟩
  case xmlTag =>
    dsimp only
    split_ifs with h1
    · obtain ⟨w, rfl, -, -⟩ := h
      exact .inr (.inl rfl)
    · exact .inl ⟨shape_xmlTag h h1, rfl⟩
  case endStream =>
    obtain ⟨-, r, rfl⟩ := h
    dsimp only
    split_ifs with h1
    · exact opens_ifLastEquals (fun _ => .inl rfl) fun _ _ => rfl
    · exact .inl ⟨⟨rfl, r ++ [b], by simp [Scanner.push]⟩, rfl⟩
  -- the other modes are met behind the first tag
  all_goals
    obtain ⟨-, -, -, -, ⟨c, hm⟩ | ⟨c, q, hm⟩⟩ := hinner trivial
    · cases hm
    · cases hm

end

theorem Nested.push {s t : Scanner} {b : UInt8} (h : Nested s) (hd : s.dispatch b = .fall t) :
    Nested (t.push b) ∧ (t.push b).eoft = s.eoft := by
  have hs := h.stays b
  rw [hd] at hs
  exact ⟨⟨hs.1.1.eoft, hs.1.1.mode⟩, hs.1.2⟩

theorem Trace.nested {s t : Scanner} {w : Bytes} (h : Trace s w t) (hs : Nested s) :
    Nested t ∧ t.eoft = s.eoft := by
  induction h with
  | nil => exact ⟨hs, rfl⟩
  | cons hd _ ih =>
    obtain ⟨hn, he⟩ := hs.push hd
    obtain ⟨ht, he'⟩ := ih hn
    exact ⟨ht, he'.trans he⟩

/-- `w` was read behind the first tag `o`. -/
structure After (o w : Bytes) (s : Scanner) : Prop extends RootTag o where
  trace : Trace (behind o) w s

theorem OpenTag.nested {o : Bytes} (h : OpenTag o) : Nested (behind o) :=
  ⟨by have := h.length_pos; change o.length - 1 ≠ 0; omega, trivial⟩

section

variable {o w u : Bytes} {e : Nat} {s t : Scanner} {b : UInt8}

theorem After.part (h : After o w s) : s.part = o ++ w := h.trace.part

theorem After.nested (h : After o w s) : Nested s := (h.trace.nested h.tag.nested).1

theorem After.eoft (h : After o w s) : s.eoft = o.length - 1 := (h.trace.nested h.tag.nested).2

theorem After.push (h : After o w s) (hd : s.dispatch b = .fall t) : After o (w ++ [b]) (t.push b) :=
  ⟨h.toRootTag, h.trace.concat hd⟩

/-- A scanner in the first tag, or behind it. -/
def Early (s : Scanner) : Prop := Opening s ∨ ∃ o w, After o w s

theorem Early.push (h : Early s) (hd : s.dispatch b = .fall t) : Early (t.push b) := by
  rcases h with h | ⟨o, w, h⟩
  · have ho := h.opens b
    rw [hd] at ho
    rcases ho with ho | ⟨o, ho, heq⟩
    · exact .inl ho
    · exact .inr ⟨o, [], ho, heq ▸ .nil⟩
  · exact .inr ⟨o, _, h.push hd⟩

theorem Trace.early (h : Trace s w t) (hs : Early s) : Early t := by
  induction h with
  | nil => exact hs
  | cons hd _ ih => exact ih (hs.push hd)

theorem early_of_trace (h : Trace (.idle 0) w s) : Early s := h.early (.inl opening_idle)

theorem Early.fall (h : Early s) (hd : s.dispatch b = .fall t) : Loose s → b < 0x80 ∧ EndsAscii s.part := by
  rcases h with h | ⟨o, w, h⟩
  · have htame := tame_dispatch (b := b) h.1
    rw [hd] at htame
    exact htame
  · have hs := h.nested.stays b
    rw [hd] at hs
    exact hs.2

/-- The only error that leaves something behind is met by a scanner that cannot go on. -/
theorem Early.reject {err : Error} (h : Early s) (hd : s.dispatch b = .ret (.err err) t) :
    t = s ∧ (b < 0x80 ∨ Loose s) ∨
      Stuck s ∧ Nested t ∧ t.part = s.part ∧ t.eoft = s.eoft ∧ ∃ o w, After o w s := by
  rcases h with h | ⟨o, w, h⟩
  · have htame := tame_dispatch (b := b) h.1
    rw [hd] at htame
    exact .inl htame
  · have hs := h.nested.stays b
    rw [hd] at hs
    rcases hs with hs | ⟨hs, hn, hp, he⟩
    · exact .inl hs
    · exact .inr ⟨hs, hn, hp, he, o, w, h⟩

theorem Early.emit (h : Early s) (hd : s.dispatch b = .ret (.ok (some u)) (.idle e)) :
    (b < 0x80 ∧ ¬ Loose s) ∧ (Short u e ∨ ∃ o w, After o w s ∧ e = o.length - 1) := by
  rcases h with h | ⟨o, w, h⟩
  · have htame := tame_dispatch (b := b) h.1
    have ho := h.opens b
    rw [hd] at htame ho
    exact ⟨htame, .inl ho⟩
  · have hs := h.nested.stays b
    rw [hd] at hs
    obtain ⟨heq, hasc⟩ := hs
    exact ⟨hasc, .inr ⟨o, w, h, (congrArg Scanner.eoft heq).trans h.eoft⟩⟩

end

/-- What is pending is read again in the same way; it ends where the stream does inside of a
character, up to the bytes dropped, as long as the stream is UTF-8. -/
structure Whole (limit : Nat) (c : Option Utf8) (s : Scanner) : Prop where
  trace : Trace (.idle 0) s.part s
  sync : ∀ d ∈ c, s.part.length < limit → ∃ q, Utf8.run .boundary s.part = some q ∧ (q = d ∨ Loose s)

/-- A scanner that reads `u` again gets stuck before its end. -/
def Cracked (u : Bytes) (e : Nat) : Prop :=
  ∃ o w b w' t, After o w t ∧ Stuck t ∧ u = o ++ w ++ b :: w' ∧ e = o.length - 1

/-- Whatever is read next, what was read gets stuck when it is read again. -/
structure Broken (s : Scanner) : Prop where
  nested : Nested s
  cracked : ∀ b, Cracked (s.part ++ [b]) s.eoft

theorem whole_idle (limit : Nat) (c : Option Utf8) : Whole limit c (.idle 0) :=
  ⟨.nil, fun _ _ _ => ⟨.boundary, rfl, .inr (.inl rfl)⟩⟩

theorem Cracked.append {u : Bytes} {e : Nat} (h : Cracked u e) (v : Bytes) : Cracked (u ++ v) e := by
  obtain ⟨o, w, b, w', t, ht, hs, rfl, he⟩ := h
  exact ⟨o, w, b, w' ++ v, t, ht, hs, List.append_assoc _ _ _, he⟩

section

variable {limit : Nat} {c : Option Utf8} {s t : Scanner} {b : UInt8}

theorem Whole.early (h : Whole limit c s) : Early s := early_of_trace h.trace

theorem Whole.push (h : Whole limit c s) (hd : s.dispatch b = .fall t) :
    Whole limit (c.bind (·.step b)) (t.push b) := by
  have hpart : (t.push b).part = s.part ++ [b] := by rw [Scanner.push, Scanner.dispatch_part hd]
  refine ⟨hpart ▸ h.trace.concat hd, fun d' hd' hlt => ?_⟩
  obtain ⟨d, hc, hb⟩ := Option.bind_eq_some_iff.mp hd'
  rw [hpart, List.length_append] at hlt
  obtain ⟨q, hq, hsync⟩ := h.sync d hc (Nat.lt_of_le_of_lt (Nat.le_add_right _ _) hlt)
  rw [hpart]
  refine ⟨d', run_concat hq ?_, .inl rfl⟩
  rcases hsync with rfl | hloose
  · exact hb
  · obtain ⟨hasc, hends⟩ := h.early.fall hd hloose
    rw [run_boundary hq hends]
    obtain ⟨rfl, -⟩ := Utf8.step_ascii hasc hb
    exact hb

theorem Whole.reject {e : Error} (h : Whole limit c s) (hd : s.dispatch b = .ret (.err e) t) :
    Whole limit (c.bind (·.step b)) t ∨ Broken t := by
  rcases h.early.reject hd with ⟨rfl, hasc⟩ | ⟨hs, hn, hp, he, o, w, ha⟩
  · refine .inl ⟨h.trace, fun d' hd' hlt => ?_⟩
    obtain ⟨d, hc, hb⟩ := Option.bind_eq_some_iff.mp hd'
    obtain ⟨q, hq, hsync⟩ := h.sync d hc hlt
    rcases hasc with hasc | hloose
    · obtain ⟨rfl, rfl⟩ := Utf8.step_ascii hasc hb
      exact ⟨q, hq, hsync⟩
    · exact ⟨q, hq, .inr hloose⟩
  · refine .inr ⟨hn, fun b' => ⟨o, w, b', [], s, ha, hs, ?_, ?_⟩⟩
    · rw [hp, ha.part]
    · rw [he, ha.eoft]

theorem Broken.push (h : Broken s) (hd : s.dispatch b = .fall t) : Broken (t.push b) := by
  obtain ⟨hn, he⟩ := h.nested.push hd
  refine ⟨hn, ?_⟩
  intro b'
  rw [he, Scanner.push, Scanner.dispatch_part hd]
  exact (h.cracked b).append [b']

theorem Broken.reject {e : Error} (h : Broken s) (hd : s.dispatch b = .ret (.err e) t) : Broken t := by
  have hs := h.nested.stays b
  rw [hd] at hs
  rcases hs with ⟨rfl, -⟩ | ⟨-, hn, hp, he⟩
  · exact h
  · refine ⟨hn, ?_⟩
    rw [hp, he]
    exact h.cracked

/-- What a run keeps, whatever errors are among its answers. -/
def Tracked (limit : Nat) (c : Option Utf8) (s : Scanner) : Prop := Whole limit c s ∨ Broken s

theorem Tracked.next (h : Tracked limit c s) (b : UInt8) :
    Tracked limit (c.bind (·.step b)) (s.nextEoft limit b).2 := by
  refine nextEoft_cases (.inl (whole_idle limit _)) fun r t ht hr => ?_
  cases ht with
  | skip hm _ =>
    rcases h with h | h
    · refine .inl ⟨h.trace, fun d' hd' hlt => ?_⟩
      obtain ⟨d, hc, -⟩ := Option.bind_eq_some_iff.mp hd'
      obtain ⟨q, hq, -⟩ := h.sync d hc hlt
      exact ⟨q, hq, .inr (.inl hm)⟩
    · exact .inr h
  | push hd _ => exact h.imp (·.push hd) (·.push hd)
  | emit => exact absurd rfl (hr _)
  | full hd _ => exact h.imp (·.push hd) (·.push hd)
  | reject e hd _ _ => exact h.elim (·.reject hd) fun h => .inr (h.reject hd)
  | panic hp hm =>
    exfalso
    rcases h with h | h
    · have htr := h.trace
      rw [hp] at htr
      cases htr
      exact hm rfl
    · obtain ⟨o, w, b', w', t, ha, -, heq, -⟩ := h.cracked b
      have hlen := congrArg List.length heq
      have := ha.tag.length_pos
      rw [hp] at hlen
      simp only [List.length_append, List.length_cons, List.length_nil] at hlen
      omega
  | past hle =>
    rcases h with h | h
    · exact .inl ⟨h.trace, fun _ _ hlt => absurd hlt (by omega)⟩
    · exact .inr h

end

/-- From the idle state the bytes of `u` are read, and answered, at the last one, with `u` and the
mark `e`. -/
def Replays (u : Bytes) (e : Nat) : Prop :=
  ∃ w b s, u = w ++ [b] ∧ Trace (.idle 0) w s ∧ s.dispatch b = .ret (.ok (some u)) (.idle e)

/-- A stanza is read again as it was read, or gets stuck on the way. -/
theorem Tracked.emit {limit : Nat} {c : Option Utf8} {s : Scanner} {b : UInt8} {u : Bytes} {e : Nat}
    (h : Tracked limit c s) (hu : (s.nextEoft limit b).1 = .ok (some (u, e))) :
    Replays u e ∧ ((c.bind (·.step b)).isSome → Utf8.Valid u) ∨ Cracked u e := by
  have hlt := nextEoft_lt hu
  obtain ⟨rfl, hd⟩ := nextEoft_eq_some hu
  rcases h with h | h
  · refine .inl ⟨⟨s.part, b, s, rfl, h.trace, hd⟩, fun hsome => ?_⟩
    obtain ⟨d', hd'⟩ := Option.isSome_iff_exists.mp hsome
    obtain ⟨d, hc, hb⟩ := Option.bind_eq_some_iff.mp hd'
    obtain ⟨q, hq, hsync⟩ := h.sync d hc hlt
    obtain ⟨⟨hasc, hloose⟩, -⟩ := h.early.emit hd
    obtain rfl := hsync.resolve_right hloose
    obtain ⟨rfl, rfl⟩ := Utf8.step_ascii hasc hb
    exact run_concat hq hb
  · have hs := h.nested.stays b
    rw [hd] at hs
    have he : e = s.eoft := congrArg Scanner.eoft hs.1
    rw [he]
    exact .inr (h.cracked b)

theorem mem_outputs_tracked {limit : Nat} {bs : Bytes} {c : Option Utf8} {s : Scanner} {u : Bytes} {e : Nat}
    (h : Tracked limit c s) (hu : .ok (some (u, e)) ∈ (scanNextEoft limit).outputs s bs) :
    Replays u e ∧ ((c.bind (Utf8.run · bs)).isSome → Utf8.Valid u) ∨ Cracked u e := by
  induction bs generalizing c s with
  | nil => exact absurd hu List.not_mem_nil
  | cons b bs ih =>
    have hrun : c.bind (Utf8.run · (b :: bs)) = (c.bind (·.step b)).bind (Utf8.run · bs) := by
      cases c <;> rfl
    rw [hrun]
    rcases List.mem_cons.mp hu with hu | hu
    · refine (h.emit hu.symm).imp_left (And.imp_right fun hv hsome => hv ?_)
      obtain ⟨d, hd⟩ := Option.isSome_iff_exists.mp hsome
      obtain ⟨d', hd', -⟩ := Option.bind_eq_some_iff.mp hd
      exact Option.isSome_iff_exists.mpr ⟨d', hd'⟩
    · exact ih (h.next b) hu

/-- What a new filter emits in any run: UTF-8, if the stream is. -/
theorem replays_or_cracked {n : Nat} {bs u : Bytes} {e : Nat}
    (h : .ok (some (u, e)) ∈ filterNextEoft.outputs (.new n) bs) :
    Replays u e ∧ (Utf8.Valid bs → Utf8.Valid u) ∨ Cracked u e := by
  rw [(filterNextEoft_refines n).outputs_eq (refines_new n)] at h
  refine (mem_outputs_tracked (.inl (whole_idle n (some .boundary))) h).imp_left
    (And.imp_right fun hv hbs => hv ?_)
  rw [Option.bind_some, hbs]
  rfl

theorem Trace.run {limit : Nat} {s t : Scanner} {w : Bytes} (h : Trace s w t)
    (hlen : s.part.length + w.length < limit) :
    (scanNextEoft limit).outputs s w = List.replicate w.length (.ok none) ∧
      (scanNextEoft limit).final s w = t := by
  induction h with
  | nil => exact ⟨rfl, rfl⟩
  | @cons s s' t b w hd _ ih =>
    rw [List.length_cons] at hlen
    have hpush : (s'.push b).part.length = s.part.length + 1 := by
      rw [← Scanner.dispatch_part hd]
      exact List.length_append
    have hstep : (scanNextEoft limit).step s b = (.ok none, s'.push b) := by
      change s.nextEoft limit b = _
      unfold Scanner.nextEoft Scanner.next
      rw [if_pos (by omega), hd]
      dsimp only
      rw [Scanner.advance, if_neg (by omega)]
    obtain ⟨ho, hf⟩ := ih (by omega)
    rw [Machine.outputs_cons, Machine.final_cons, hstep, ho, hf]
    exact ⟨rfl, rfl⟩

theorem Replays.run {limit e : Nat} {u : Bytes} (h : Replays u e) (hlen : u.length ≤ limit) :
    (scanNextEoft limit).outputs (.idle 0) u =
        List.replicate (u.length - 1) (.ok none) ++ [.ok (some (u, e))] ∧
      (scanNextEoft limit).final (.idle 0) u = .idle 0 := by
  obtain ⟨w, b, s, rfl, htr, hd⟩ := h
  rw [List.length_append, List.length_singleton] at hlen
  have hlt : (Scanner.idle 0).part.length + w.length < limit := by
    rw [Scanner.idle, List.length_nil]
    omega
  obtain ⟨ho, hf⟩ := htr.run hlt
  have hpart : s.part = w := htr.part
  have hstep : (scanNextEoft limit).step s b = (.ok (some (w ++ [b], e)), .idle 0) := by
    change s.nextEoft limit b = _
    unfold Scanner.nextEoft Scanner.next
    rw [if_pos (by rw [hpart]; omega), hd]
    rfl
  rw [Machine.outputs_concat, Machine.final_concat, hf, ho, hstep, List.length_append,
    List.length_singleton, Nat.add_sub_cancel]
  exact ⟨rfl, rfl⟩

theorem Stuck.refused {limit : Nat} {s t : Scanner} {w w' : Bytes} {b : UInt8} (h : Trace s w t)
    (hs : Stuck t) (hlen : s.part.length + w.length < limit) :
    ∃ err, .err err ∈ (scanNextEoft limit).outputs s (w ++ b :: w') := by
  obtain ⟨-, hf⟩ := h.run hlen
  obtain ⟨err, t', hd⟩ := hs.dispatch b
  refine ⟨err, ?_⟩
  rw [Machine.outputs_append, Machine.outputs_cons, hf]
  refine List.mem_append_right _ (List.mem_cons.mpr (.inl ?_))
  have hlt : t.part.length < limit := by
    rw [h.part, List.length_append]
    exact hlen
  change _ = (t.nextEoft limit b).1
  unfold Scanner.nextEoft Scanner.next
  rw [if_pos hlt, hd]

end XmppProxy.Stanza
