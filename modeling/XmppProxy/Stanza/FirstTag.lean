import XmppProxy.Stanza.Replay

/-! Where the first tag of a stanza ends, and that `next_eoft` marks it in any run of a filter that
starts with a clear mark. -/

namespace XmppProxy.Stanza

open Lib

/-- The index of the first `>` outside of quoted values, behind the quote `q` when one is open. -/
def firstTagEnd : Option UInt8 → Bytes → Option Nat
  | _, [] => none
  | some q, b :: w => (firstTagEnd (if b = q then none else some q) w).map (· + 1)
  | none, b :: w =>
    if b = gt then some 0
    else (firstTagEnd (if b = apos ∨ b = quot then some b else none) w).map (· + 1)

theorem firstTagEnd_quoted {q : UInt8} {v : Bytes} (hv : q ∉ v) (x : Bytes) :
    firstTagEnd (some q) (v ++ q :: x) = (firstTagEnd none x).map (· + (v.length + 1)) := by
  induction v with
  | nil =>
    rw [List.nil_append, firstTagEnd, if_pos rfl]
    rfl
  | cons b v ih =>
    obtain ⟨hb, hv⟩ := List.ne_and_not_mem_of_not_mem_cons hv
    rw [List.cons_append, firstTagEnd, if_neg (Ne.symm hb), ih hv, Option.map_map, List.length_cons]
    rfl

theorem firstTagEnd_body {w : Bytes} (hw : Body w) (x : Bytes) :
    firstTagEnd none (w ++ gt :: x) = some w.length := by
  induction hw with
  | nil => rfl
  | @byte b w hb hq _ ih =>
    have hplain : ¬ (b = apos ∨ b = quot) := hq
    rw [List.cons_append, firstTagEnd, if_neg hb, if_neg hplain, ih]
    rfl
  | @quoted q v w hq hv _ ih =>
    have hquote : q = apos ∨ q = quot := hq
    have hgt : q ≠ gt := by
      rintro rfl
      exact absurd hquote (by decide)
    rw [List.cons_append, List.append_assoc, List.cons_append, firstTagEnd, if_neg hgt, if_pos hquote,
      firstTagEnd_quoted hv, ih, Option.map_some, Option.map_some, List.length_cons,
      List.length_append, List.length_cons]
    exact congrArg some (by omega)

example : firstTagEnd none (bytes "<a b='>'><c/></a>") = some 8 := by decide

/-- Where `end_of_first_tag` belongs in a stanza: at the end of its first tag, or nowhere. -/
structure RightMark (buf : Bytes) (e : Nat) : Prop where
  declaration : bytes "<?" <+: buf → e = 0
  firstTag : ¬ bytes "<?" <+: buf → (bytes "</" <+: buf → buf = bytes "</stream:stream>") →
    firstTagEnd none buf = some e
  inside : e < buf.length

section

variable {n : UInt8} {w o x u : Bytes} {s t : Scanner} {b : UInt8} {e : Nat}

theorem rightMark_tag (hn : NameStart n) (hw : Body w) (x : Bytes) :
    RightMark (lt :: n :: w ++ gt :: x) (w.length + 2) where
  declaration h := by
    obtain ⟨y, hy⟩ := h
    exact absurd (List.cons.inj (List.cons.inj hy).2).1.symm hn.2.2.1
  firstTag _ _ := by
    have hlt : ¬ IsQuote lt := by
      unfold IsQuote
      decide
    exact firstTagEnd_body (.byte (by decide) hlt (.byte hn.2.2.2.1 hn.2.2.2.2 hw)) x
  inside := by
    rw [List.length_append, List.length_cons, List.length_cons, List.length_cons]
    omega

theorem OpenTag.rightMark (ho : OpenTag o) (x : Bytes) : RightMark (o ++ x) (o.length - 1) := by
  obtain ⟨hn, hw, -⟩ := ho
  have h := rightMark_tag hn hw x
  simpa using h

theorem rightMark_close (r : Bytes) : RightMark (lt :: slash :: r ++ [gt]) (r.length + 2) where
  declaration h := by
    obtain ⟨y, hy⟩ := h
    exact absurd (List.cons.inj (List.cons.inj hy).2).1 (by decide)
  firstTag _ hclose := by
    have heq := hclose ⟨r ++ [gt], rfl⟩
    have hlen : r.length = 13 := by
      have h := congrArg List.length heq
      have hclose : (bytes "</stream:stream>").length = 16 := by decide
      rw [List.length_append, List.length_cons, List.length_cons, List.length_singleton, hclose] at h
      omega
    rw [heq, hlen]
    decide
  inside := by
    rw [List.length_append, List.length_cons, List.length_cons]
    exact Nat.lt_succ_self _

theorem tagClosed_emit (h : s.tagClosed b = .ret (.ok (some u)) t) :
    u = s.part ++ [b] ∧ t.eoft = s.markFirstTag.eoft := by
  have hafter : ∀ {r : Scanner}, r.part = s.part → r.afterTag b = .ret (.ok (some u)) t →
      u = s.part ++ [b] ∧ t.eoft = r.eoft := by
    intro r hr h
    unfold Scanner.afterTag Scanner.emit at h
    rw [← hr]
    split_ifs at h
    · cases h
      exact ⟨rfl, rfl⟩
    · cases h
      exact ⟨rfl, rfl⟩
  unfold Scanner.tagClosed Scanner.subDepth at h
  split at h
  · cases h
  · split_ifs at h
    · split at h
      · obtain ⟨hu, he⟩ := hafter (by exact s.markFirstTag_part) h
        exact ⟨hu, he⟩
      · cases h
    · exact hafter (by simp) h

theorem Opening.mark (h : Opening s) (hd : s.dispatch b = .ret (.ok (some u)) t) :
    RightMark u t.eoft := by
  have hinner := h.tag_of_inner
  obtain ⟨p, d, e, m⟩ := s
  obtain ⟨h, he⟩ := h
  dsimp only at he
  subst he
  unfold Scanner.dispatch Scanner.ifLastEquals Scanner.illegal at hd
  cases m <;> dsimp only at hd
  case outside =>
    split_ifs at hd
    cases hd
  case stanzaFirst =>
    split_ifs at hd
    cases hd
  case tag closing =>
    have htag : InTag 0 d 0 p closing := h
    obtain ⟨rfl, rfl, n, w, hn, hw, rfl⟩ := htag.opening
    split_ifs at hd with hb
    subst hb
    obtain ⟨rfl, hmark⟩ := tagClosed_emit hd
    rw [hmark, markFirstTag_eq]
    exact rightMark_tag hn hw []
  case quoted => split_ifs at hd
  case question =>
    split_ifs at hd
    · cases hd
    · cases hd
  case xmlTag =>
    split_ifs at hd
    cases hd
    obtain ⟨w, rfl, -, -⟩ := h
    refine ⟨fun _ => rfl, fun hdecl _ => ?_, ?_⟩
    · exact absurd ⟨bytes "xml " ++ w ++ [b], rfl⟩ hdecl
    · rw [List.length_append]
      exact Nat.succ_pos _
  case endStream =>
    obtain ⟨-, r, rfl⟩ := h
    split_ifs at hd with hb hlen hs
    · subst hb
      cases hd
      rw [markFirstTag_eq]
      exact rightMark_close r
    · cases hd
    · cases hd
  -- the other modes are met behind the first tag
  all_goals
    obtain ⟨-, -, -, -, ⟨c, hm⟩ | ⟨c, q, hm⟩⟩ := hinner trivial
    · cases hm
    · cases hm

theorem After.rightMark (h : After o w s) (x : Bytes) : RightMark (s.part ++ x) s.eoft := by
  rw [h.part, h.eoft, List.append_assoc]
  exact h.tag.rightMark (w ++ x)

theorem Early.mark (h : Early s) (hd : s.dispatch b = .ret (.ok (some u)) (.idle e)) : RightMark u e := by
  rcases h with h | ⟨o, w, h⟩
  · exact h.mark hd
  · have hs := h.nested.stays b
    have hl := Scanner.local_dispatch s b
    rw [hd] at hs hl
    have he : e = s.eoft := congrArg Scanner.eoft hs.1
    obtain ⟨-, rfl, -⟩ := hl
    rw [he]
    exact h.rightMark [b]

theorem Replays.rightMark (h : Replays u e) : RightMark u e := by
  obtain ⟨w, b, s, -, htr, hd⟩ := h
  exact (early_of_trace htr).mark hd

theorem Cracked.rightMark (h : Cracked u e) : RightMark u e := by
  obtain ⟨o, w, b, w', t, ha, -, rfl, rfl⟩ := h
  rw [List.append_assoc]
  exact ha.tag.rightMark (w ++ b :: w')

end

/-- A filter that reads as one whose mark was clear in front of its stanza. -/
def Marking (f : StanzaFilter) : Prop := ∃ s, Refines f.bufSize f s ∧ Tracked f.bufSize none s

theorem marking_idle {n : Nat} {f : StanzaFilter} (h : Refines n f (.idle 0)) : Marking f := by
  obtain rfl := h.size
  exact ⟨_, h, .inl (whole_idle f.bufSize none)⟩

theorem marking_new (n : Nat) : Marking (.new n) := marking_idle (refines_new n)

theorem Marking.next {f : StanzaFilter} (h : Marking f) (b : UInt8) :
    Marking (f.nextEoft b).2 ∧
      ∀ u e, (f.nextEoft b).1 = .ok (some (u, e)) → RightMark u e := by
  obtain ⟨s, href, htracked⟩ := h
  obtain ⟨hr, hf⟩ := href.nextEoft b
  have hsize : (f.nextEoft b).2.bufSize = f.bufSize := hf.size
  refine ⟨⟨(s.nextEoft f.bufSize b).2, ?_, ?_⟩, fun u e hu => ?_⟩
  · rw [hsize]
    exact hf
  · rw [hsize]
    exact htracked.next b
  · rcases htracked.emit (hr.symm.trans hu) with ⟨h, -⟩ | h
    · exact h.rightMark
    · exact h.rightMark

theorem marking_run {f : StanzaFilter} (h : Marking f) (bs : Bytes) : Marking (filterNextEoft.final f bs) :=
  Machine.invariant (P := Marking) (fun _ b h => (h.next b).1) h bs

theorem Marking.outputs {f : StanzaFilter} (h : Marking f) {bs u : Bytes} {e : Nat}
    (hu : .ok (some (u, e)) ∈ filterNextEoft.outputs f bs) : RightMark u e := by
  rw [Machine.outputs_eq_trace, List.mem_map] at hu
  obtain ⟨⟨f', b⟩, hmem, hstep⟩ := hu
  have hf := Machine.trace_invariant (P := Marking) (Q := fun _ => True) (fun _ b _ h => (h.next b).1) h
    (fun _ _ => trivial) _ hmem
  exact (hf.next b).2 u e hstep

theorem Trace.emits {limit : Nat} {s t : Scanner} {w u : Bytes} {b : UInt8} {e : Nat} (h : Trace s w t)
    (hd : t.dispatch b = .ret (.ok (some u)) (.idle e)) (hlen : s.part.length + w.length < limit) :
    .ok (some (u, e)) ∈ (scanNextEoft limit).outputs s (w ++ [b]) := by
  obtain ⟨-, hf⟩ := h.run hlen
  have hlt : t.part.length < limit := by
    rw [h.part, List.length_append]
    exact hlen
  rw [Machine.outputs_concat, hf]
  refine List.mem_append_right _ (List.mem_singleton.mpr ?_)
  change _ = (t.nextEoft limit b).1
  unfold Scanner.nextEoft Scanner.next
  rw [if_pos hlt, hd]
  rfl

/-- Outside of stanzas a mark that is left over goes wrong, as soon as a declaration is read. -/
theorem Idle.marks_iff {n : Nat} {f : StanzaFilter} (h : Idle n f) (hn : 7 ≤ n) : f.endOfFirstTag = 0 ↔
    ∀ bs u e, .ok (some (u, e)) ∈ filterNextEoft.outputs f bs → RightMark u e := by
  have href := h.refines
  constructor
  · intro hmark bs u e hu
    rw [hmark] at href
    exact (marking_idle href).outputs hu
  · intro hall
    obtain ⟨w, b, s, heq, hr, -, hd⟩ := scans_xmlDecl (w := []) List.not_mem_nil f.endOfFirstTag
    have hlen : (Scanner.idle f.endOfFirstTag).part.length + w.length < n := by
      have hdecl : (bytes "<?xml " ++ ([] ++ [gt])).length = 7 := by decide
      rw [heq, List.length_append, List.length_singleton] at hdecl
      rw [Scanner.idle, List.length_nil]
      omega
    have hu := hr.trace.emits hd hlen
    rw [← (filterNextEoft_refines n).outputs_eq href] at hu
    exact (hall _ _ _ hu).declaration ⟨bytes "xml >", rfl⟩

end XmppProxy.Stanza
