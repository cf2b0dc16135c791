import XmppProxy.Stanza.Emission

/-! A filter between two errors: what it hands out is the end of what it has read, and it stays clear of
every panic. -/

namespace XmppProxy.Stanza

open Lib

theorem Trace.eoft_le {s t : Scanner} {w : Bytes} (h : Trace s w t) (hs : s.eoft ≤ s.part.length) :
    t.eoft ≤ t.part.length := by
  induction h with
  | nil => exact hs
  | @cons s s' t b w hd _ ih =>
    apply ih
    have hl := Scanner.local_dispatch s b
    rw [hd] at hl
    have hlen : (s'.push b).part.length = s.part.length + 1 := by
      rw [← hl.1]
      exact List.length_append
    rw [hlen]
    change s'.eoft ≤ _
    rcases hl.2.2 with he | he
    · omega
    · omega

theorem Trace.inside {s t : Scanner} {w : Bytes} (h : Trace s w t) : w = [] ∧ t = s ∨ t.mode ≠ .outside := by
  induction h with
  | nil => exact .inl ⟨rfl, rfl⟩
  | @cons s s' t b w hd _ ih =>
    have hl := Scanner.local_dispatch s b
    rw [hd] at hl
    rcases ih with ⟨-, rfl⟩ | hm
    · exact .inr hl.2.1
    · exact .inr hm

def InDeclaration (s : Scanner) : Prop := s.eoft = 0 ∧ (s.mode = .xmlTag ∨ ∃ idx, s.mode = .question idx)

theorem InDeclaration.dispatch {s : Scanner} (h : InDeclaration s) (b : UInt8) :
    match s.dispatch b with
    | .fall t => InDeclaration t
    | .ret (.ok (some _)) t => t = .idle 0
    | _ => True := by
  obtain ⟨p, d, e, m⟩ := s
  obtain ⟨rfl, rfl | ⟨idx, rfl⟩⟩ : e = 0 ∧ (m = .xmlTag ∨ ∃ idx, m = .question idx) := h
  · unfold Scanner.dispatch
    dsimp only
    by_cases hb : b = gt
    · rw [if_pos hb]
      rfl
    · rw [if_neg hb]
      exact ⟨rfl, .inl rfl⟩
  · unfold Scanner.dispatch
    dsimp only
    by_cases hi : idx = p.length
    · rw [if_pos hi]
      unfold Scanner.ifLastEquals
      by_cases hlen : (bytes "xml ").length - 1 ≤ p.length
      · rw [if_pos hlen]
        by_cases hs : bytes "xml " <:+ p ++ [b]
        · rw [if_pos hs]
          exact ⟨rfl, .inl rfl⟩
        · rw [if_neg hs]
          trivial
      · rw [if_neg hlen]
        trivial
    · rw [if_neg hi]
      exact ⟨rfl, .inr ⟨idx, rfl⟩⟩

theorem Trace.inDeclaration {s t : Scanner} {w : Bytes} (h : Trace s w t) (hs : InDeclaration s) :
    InDeclaration t := by
  induction h with
  | nil => exact hs
  | @cons s s' t b w hd _ ih =>
    have hstep := hs.dispatch b
    rw [hd] at hstep
    exact ih hstep

theorem Trace.of_declaration {s : Scanner} {w : Bytes} (h : Trace (.idle 0) (lt :: quest :: w) s) :
    InDeclaration s := by
  cases h with
  | cons hd h =>
    obtain rfl := Scanner.Move.fall.inj hd
    cases h with
    | cons hd h =>
      obtain rfl := Scanner.Move.fall.inj hd
      exact h.inDeclaration ⟨rfl, .inr ⟨_, rfl⟩⟩

/-- The mark that goes with a stanza lies in the stanza, and a declaration has none. -/
structure Placed (buf : Bytes) (e : Nat) : Prop where
  le : e ≤ buf.length
  decl : bytes "<?xml " <+: buf → e = 0

theorem Trace.placed {s : Scanner} {b : UInt8} {e : Nat} (h : Trace (.idle 0) s.part s)
    (hd : s.dispatch b = .ret (.ok (some (s.part ++ [b]))) (.idle e)) (hb : b = gt)
    (hm : s.Marked e) : Placed (s.part ++ [b]) e := by
  constructor
  · rw [List.length_append]
    have hle := h.eoft_le (Nat.le_refl 0)
    rcases hm with rfl | rfl
    · exact Nat.le_trans hle (Nat.le_add_right _ _)
    · exact Nat.le_add_right _ _
  · intro hdecl
    have hpart : ∃ w, s.part = lt :: quest :: w := by
      have hp := (by decide : [lt, quest] <+: bytes "<?xml ").trans hdecl
      rcases List.prefix_concat_iff.mp hp with heq | ⟨w, hw⟩
      · have hlast : [lt] ++ [quest] = s.part ++ [b] := heq
        have hq := (List.cons.inj (List.append_inj_right' hlast rfl)).1
        exact absurd (hq.trans hb) (by decide)
      · exact ⟨w, hw.symm⟩
    obtain ⟨w, hw⟩ := hpart
    rw [hw] at h
    have hstep := h.of_declaration.dispatch b
    rw [hd] at hstep
    exact congrArg Scanner.eoft hstep

/-- Of what it was given, `f` keeps the bytes of a stanza that none of them spoilt. -/
def Reading (read : Bytes) (f : StanzaFilter) : Prop :=
  ∃ s, Refines f.bufSize f s ∧ Trace (.idle 0) s.part s ∧ s.part.length < f.bufSize ∧ s.part <:+ read

theorem reading_idle {n : Nat} (hn : 0 < n) {f : StanzaFilter} (h : Idle n f)
    (he : f.endOfFirstTag = 0) (read : Bytes) : Reading read f := by
  refine ⟨.idle 0, ?_, .nil, ?_, List.nil_suffix⟩
  · have href := h.refines
    rwa [he, ← h.size] at href
  · rw [h.size]
    exact hn

theorem reading_new {n : Nat} (hn : 0 < n) (read : Bytes) : Reading read (.new n) :=
  reading_idle hn (idle_new n) rfl read

theorem Reading.lt {read : Bytes} {f : StanzaFilter} (h : Reading read f) : f.cnt < f.bufSize := by
  obtain ⟨s, href, -, hlt, -⟩ := h
  rwa [href.cnt]

theorem nextEoft_bufSize (f : StanzaFilter) (b : UInt8) (h : f.cnt ≤ f.bufSize) :
    (f.nextEoft b).2.bufSize = f.bufSize := ((refines_scanner h).nextEoft b).2.size

/-- How a filter that has read `read` may answer the last byte. -/
def Answer (read : Bytes) (f : StanzaFilter) : Outcome (Option (Bytes × Nat)) → Prop
  | .ok none => Reading read f
  | .ok (some (buf, e)) => Reading read f ∧ buf <:+ read ∧ Placed buf e
  | .err err => FilterError err
  | .panic => False

theorem Reading.next {read : Bytes} {f : StanzaFilter} (h : Reading read f) (b : UInt8) :
    Answer (read ++ [b]) (f.nextEoft b).2 (f.nextEoft b).1 := by
  obtain ⟨s, href, htrace, hlt, hread⟩ := h
  have hsize := nextEoft_bufSize f b href.cnt_le
  obtain ⟨hr, hf'⟩ := href.nextEoft b
  generalize (f.nextEoft b).2 = f' at hsize hf'
  have hsuffix : s.part ++ [b] <:+ read ++ [b] := by
    obtain ⟨u, rfl⟩ := hread
    exact ⟨u, (List.append_assoc _ _ _).symm⟩
  have ht := s.turn_next f.bufSize b
  rw [hr]
  unfold Scanner.nextEoft at hf' ⊢
  generalize s.next f.bufSize b = y at ht hf'
  obtain ⟨o, t⟩ := y
  dsimp only at ht
  cases ht with
  | skip hm hb =>
    have hpart : s.part = [] := (htrace.inside.resolve_right fun h => h hm).1
    refine ⟨s, hsize ▸ hf', htrace, hsize ▸ hlt, ?_⟩
    rw [hpart]
    exact List.nil_suffix
  | @push t hd hlen =>
    have hpart : (t.push b).part = s.part ++ [b] := by rw [Scanner.push, Scanner.dispatch_part hd]
    refine ⟨t.push b, hsize ▸ hf', ?_, hsize ▸ hlen, hpart ▸ hsuffix⟩
    rw [hpart]
    exact htrace.concat hd
  | emit e hb hd _ hm =>
    refine ⟨⟨.idle 0, hsize ▸ hf', .nil, ?_, List.nil_suffix⟩, hsuffix, htrace.placed hd hb hm⟩
    rw [hsize]
    exact Nat.lt_of_le_of_lt (Nat.zero_le _) hlt
  | full => trivial
  | reject e _ _ he => exact he
  | panic hp hm =>
    rw [hp] at htrace
    cases htrace
    exact absurd rfl hm
  | past hle => exact absurd hlt (by omega)

end XmppProxy.Stanza
