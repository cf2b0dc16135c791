import XmppProxy.Stanza.Replay

/-! Two scanners that read the same bytes behind different first tags go side by side. What follows
the first tag cannot tell the tags apart: a look-back that reaches into one finds its `>` there. -/

namespace XmppProxy.Stanza

open Lib

/-- The same bytes `w` are read behind the tags `o` and `o'`. -/
structure Beside (o o' w : Bytes) (s s' : Scanner) : Prop where
  part : s.part = o ++ w
  part' : s'.part = o' ++ w
  eoft : s.eoft = o.length - 1
  eoft' : s'.eoft = o'.length - 1
  depth : s.depth = s'.depth
  mode : s.mode = s'.mode ∧ s.mode.Inner ∧ (∀ i, s.mode ≠ .exclamation i) ∨
    ∃ i, 7 ≤ i ∧ s.mode = .exclamation (o.length + i) ∧ s'.mode = .exclamation (o'.length + i)

inductive Abreast (o o' w : Bytes) (b : UInt8) : Scanner.Move → Scanner.Move → Prop where
  | fall {t t' : Scanner} : Beside o o' w t t' → Abreast o o' w b (.fall t) (.fall t')
  | emit : Abreast o o' w b (.ret (.ok (some (o ++ w ++ [b]))) (.idle (o.length - 1)))
      (.ret (.ok (some (o' ++ w ++ [b]))) (.idle (o'.length - 1)))
  | reject {e e' : Error} {t t' : Scanner} : Abreast o o' w b (.ret (.err e) t) (.ret (.err e') t')

theorem suffix_behind {o v needle : Bytes} (ho : o.getLast? = some gt) (hv : v ≠ [])
    (hn : gt ∉ needle.dropLast) : needle <:+ o ++ v ↔ needle <:+ v := by
  refine ⟨fun h => ?_, fun h => h.trans (List.suffix_append o v)⟩
  rcases List.suffix_or_suffix_of_suffix h (List.suffix_append o v) with h' | ⟨y, rfl⟩
  · exact h'
  obtain rfl | ⟨y, c, rfl⟩ := List.eq_nil_or_concat' y
  · exact List.suffix_rfl
  obtain ⟨x, hx⟩ := h
  have hox : x ++ (y ++ [c]) = o := by
    rw [← List.append_assoc] at hx
    exact List.append_cancel_right hx
  rw [← hox, ← List.append_assoc, List.getLast?_concat] at ho
  rw [List.dropLast_append_of_ne_nil hv, Option.some.inj ho] at hn
  exact absurd (List.mem_append_left _ (List.mem_append_right _ (List.mem_singleton_self gt))) hn

theorem OpenTag.last {o : Bytes} (h : OpenTag o) : o.getLast? = some gt := by
  obtain ⟨-, -, -⟩ := h
  rw [← List.cons_append, ← List.cons_append, List.getLast?_concat]

section

variable {o o' w : Bytes} {s s' : Scanner} {b : UInt8}

theorem RootTag.eoft_ne (ho : RootTag o) : o.length - 1 ≠ 0 := by
  have := ho.tag.length_pos
  omega

theorem Beside.enter (h : Beside o o' w s s') {d d' : Nat} (hd : d = d') {m : Mode} (hm : m.Inner)
    (hne : ∀ i, m ≠ .exclamation i) :
    Abreast o o' w b (.fall { s with depth := d, mode := m }) (.fall { s' with depth := d', mode := m }) :=
  .fall ⟨h.part, h.part', h.eoft, h.eoft', hd, .inl ⟨rfl, hm, hne⟩⟩

theorem Beside.subDepth (h : Beside o o' w s s') {n : Nat} {k k' : Scanner → Scanner.Move}
    (hk : ∀ d, Abreast o o' w b (k { s with depth := d }) (k' { s' with depth := d })) :
    Abreast o o' w b (s.subDepth n k) (s'.subDepth n k') := by
  unfold Scanner.subDepth
  rw [h.depth]
  cases checkedSub s'.depth n with
  | ok d => exact hk d
  | error e => exact .reject

theorem Beside.ifLastEquals (ho : RootTag o) (ho' : RootTag o') (h : Beside o o' w s s')
    {needle : Bytes} {yes no yes' no' : Scanner.Move} (hn : gt ∉ needle.dropLast)
    (hlen : needle.length - 1 ≤ 2 ∨ needle.length - 1 ≤ w.length) (hyes : Abreast o o' w b yes yes')
    (hno : Abreast o o' w b no no') :
    Abreast o o' w b (s.ifLastEquals b needle yes no) (s'.ifLastEquals b needle yes' no') := by
  have hlong : needle.length - 1 ≤ (o ++ w).length ∧ needle.length - 1 ≤ (o' ++ w).length := by
    have := ho.tag.length_pos
    have := ho'.tag.length_pos
    rw [List.length_append, List.length_append]
    omega
  have hsuf : needle <:+ o ++ w ++ [b] ↔ needle <:+ o' ++ w ++ [b] := by
    rw [List.append_assoc, List.append_assoc, suffix_behind ho.tag.last (by simp) hn,
      suffix_behind ho'.tag.last (by simp) hn]
  unfold Scanner.ifLastEquals
  rw [h.part, h.part', if_pos hlong.1, if_pos hlong.2]
  simp only [hsuf]
  split_ifs
  · exact hyes
  · exact hno

theorem Beside.afterTag (ho : RootTag o) (ho' : RootTag o') (h : Beside o o' w s s') :
    Abreast o o' w b (s.afterTag b) (s'.afterTag b) := by
  have hstream : ∀ {o : Bytes}, RootTag o → ¬ bytes "<stream:stream " <+: o ++ w ++ [b] := by
    intro o ho
    rw [List.append_assoc]
    exact ho.tag.not_stream ho.plain
  unfold Scanner.afterTag
  rw [h.depth]
  by_cases hd : s'.depth = 0
  · rw [if_pos hd, if_pos hd, Scanner.emit, Scanner.emit, h.part, h.part', h.eoft, h.eoft']
    exact .emit
  · have hno : ¬ (s'.depth = 1 ∧ bytes "<stream:stream " <+: s.part ++ [b]) :=
      fun hp => hstream ho (h.part ▸ hp.2)
    have hno' : ¬ (s'.depth = 1 ∧ bytes "<stream:stream " <+: s'.part ++ [b]) :=
      fun hp => hstream ho' (h.part' ▸ hp.2)
    rw [if_neg hd, if_neg hd, if_neg hno, if_neg hno']
    exact h.enter rfl trivial (by simp)

theorem Beside.tagClosed (ho : RootTag o) (ho' : RootTag o') (h : Beside o o' w s s') :
    Abreast o o' w b (s.tagClosed b) (s'.tagClosed b) := by
  have hlast : s.part.getLast? = s'.part.getLast? := by
    rw [h.part, h.part', List.getLast?_append, List.getLast?_append, ho.tag.last, ho'.tag.last]
  have hmark : s.markFirstTag = s := if_neg (by rw [h.eoft]; exact ho.eoft_ne)
  have hmark' : s'.markFirstTag = s' := if_neg (by rw [h.eoft']; exact ho'.eoft_ne)
  obtain ⟨c, hc⟩ : ∃ c, s'.part.getLast? = some c := by
    rw [h.part', List.getLast?_append, ho'.tag.last]
    cases w.getLast? <;> exact ⟨_, rfl⟩
  unfold Scanner.tagClosed
  rw [hlast, hmark, hmark', hc]
  dsimp only
  split_ifs
  · exact h.subDepth fun d => Beside.afterTag ho ho' { h with depth := rfl }
  · exact h.afterTag ho ho'

theorem Beside.dispatch (ho : RootTag o) (ho' : RootTag o') (h : Beside o o' w s s') (b : UInt8) :
    Abreast o o' w b (s.dispatch b) (s'.dispatch b) := by
  unfold Scanner.dispatch
  rcases h.mode with ⟨hm, hinner, hne⟩ | ⟨i, hi, hm, hm'⟩
  · rw [← hm]
    have hstay : Abreast o o' w b (.fall s) (.fall s') := .fall h
    cases hmode : s.mode <;> rw [hmode] at hinner hne <;> dsimp only
    case between =>
      split_ifs
      · exact h.enter (congrArg (· + 1) h.depth) trivial (by simp)
      · exact hstay
    case tagFirst =>
      split_ifs
      · exact h.subDepth fun d => h.enter rfl trivial (by simp)
      · refine .fall ⟨h.part, h.part', h.eoft, h.eoft', h.depth, .inr ⟨w.length + 7, by omega, ?_, ?_⟩⟩
        · rw [h.part, List.length_append, Nat.add_assoc]
        · rw [h.part', List.length_append, Nat.add_assoc]
      · exact .reject
      · exact h.enter h.depth trivial (by simp)
    case tag =>
      split_ifs
      · exact h.tagClosed ho ho'
      · exact h.enter h.depth trivial (by simp)
      · exact hstay
    case quoted =>
      split_ifs
      · exact h.enter h.depth trivial (by simp)
      · exact hstay
    case exclamation i => exact absurd rfl (hne i)
    case cdata =>
      split_ifs
      · exact h.ifLastEquals ho ho' (by decide) (.inl (by decide)) (h.enter h.depth trivial (by simp)) hstay
      · exact hstay
    all_goals exact hinner.elim
  · rw [hm, hm']
    dsimp only
    have hat : ∀ {o v : Bytes}, v = o ++ w → (o.length + i = v.length ↔ i = w.length) := by
      rintro o v rfl
      rw [List.length_append]
      omega
    simp only [hat h.part, hat h.part']
    split_ifs with hiw
    · refine h.ifLastEquals ho ho' (by decide) (.inr ?_) ?_ .reject
      · rw [← hiw]
        exact Nat.le_trans (by decide) hi
      · unfold Scanner.subDepth
        dsimp only
        rw [h.depth]
        cases checkedSub s'.depth 1 with
        | ok d => exact h.enter rfl trivial (by simp)
        | error e => exact .reject
    · exact .fall h

end

section

variable {o o' w u : Bytes} {s t : Scanner} {e : Nat}

theorem Beside.push {t' : Scanner} {b : UInt8} (h : Beside o o' w t t') :
    Beside o o' (w ++ [b]) (t.push b) (t'.push b) := by
  refine ⟨?_, ?_, h.eoft, h.eoft', h.depth, h.mode⟩
  · rw [← List.append_assoc, ← h.part]
    rfl
  · rw [← List.append_assoc, ← h.part']
    rfl

theorem Trace.beside {v : Bytes} {s' : Scanner} (ho : RootTag o) (ho' : RootTag o')
    (h : Trace s w t) (hs : Beside o o' v s s') :
    ∃ t', Trace s' w t' ∧ Beside o o' (v ++ w) t t' := by
  induction h generalizing v s' with
  | nil => exact ⟨s', .nil, by rwa [List.append_nil]⟩
  | @cons s s₁ t b w hd _ ih =>
    have hab := hs.dispatch ho ho' b
    rw [hd] at hab
    generalize hd' : s'.dispatch b = m' at hab
    cases hab with
    | fall hnext =>
      obtain ⟨t', htr, ht⟩ := ih (hnext.push (b := b))
      exact ⟨t', .cons hd' htr, by simpa using ht⟩

theorem After.beside (h : After o w s) (ho' : RootTag o') : ∃ s', After o' w s' ∧ Beside o o' w s s' := by
  have hstart : Beside o o' [] (behind o) (behind o') :=
    ⟨(List.append_nil o).symm, (List.append_nil o').symm, rfl, rfl, rfl, .inl ⟨rfl, trivial, by simp [behind]⟩⟩
  obtain ⟨s', htr, hs⟩ := h.trace.beside h.toRootTag ho' hstart
  exact ⟨s', ⟨ho', htr⟩, hs⟩

theorem Beside.stuck {s' : Scanner} (h : Beside o o' w s s') (hs : Stuck s) : Stuck s' := by
  obtain ⟨hm, hd⟩ := hs
  rcases h.mode with ⟨-, -, hne⟩ | ⟨i, -, hi, hi'⟩
  · exact absurd hm (hne _)
  · have hlen := Mode.exclamation.inj (hi.symm.trans hm)
    rw [h.part, List.length_append] at hlen
    refine ⟨?_, h.depth ▸ hd⟩
    rw [hi', h.part', List.length_append]
    exact congrArg Mode.exclamation (by omega)

theorem RootTag.trace (ho : RootTag o) : Trace (.idle 0) o (behind o) := by
  have hmark : markAt 0 (o.length - 1) = o.length - 1 := if_pos rfl
  have hr := reads_root ho.tag ho.plain 0
  rw [hmark] at hr
  exact hr.trace

theorem Trace.append {r : Scanner} {v : Bytes} (h : Trace s w t) (h' : Trace t v r) :
    Trace s (w ++ v) r := by
  induction h with
  | nil => exact h'
  | cons hd _ ih => exact .cons hd (ih h')

theorem After.whole (h : After o w s) : Trace (.idle 0) (o ++ w) s := h.toRootTag.trace.append h.trace

theorem Cracked.retag (h : Cracked u e) : ∃ first rest, u = first ++ rest ∧ e = first.length - 1 ∧
    RootTag first ∧ ∀ first', RootTag first' → Cracked (first' ++ rest) (first'.length - 1) := by
  obtain ⟨o, w, b, w', t, ha, ht, rfl, rfl⟩ := h
  refine ⟨o, w ++ b :: w', List.append_assoc _ _ _, rfl, ha.toRootTag, fun o' ho' => ?_⟩
  obtain ⟨t', ha', hb⟩ := ha.beside ho'
  exact ⟨o', w, b, w', t', ha', hb.stuck ht, (List.append_assoc _ _ _).symm, rfl⟩

theorem Cracked.refused {limit : Nat} (h : Cracked u e) (hlen : u.length ≤ limit) :
    ∃ err, .err err ∈ (scanNextEoft limit).outputs (.idle 0) u := by
  obtain ⟨o, w, b, w', t, ha, ht, rfl, -⟩ := h
  refine ht.refused ha.whole ?_
  generalize o ++ w = v at hlen
  rw [List.length_append, List.length_cons] at hlen
  rw [Scanner.idle, List.length_nil]
  omega

theorem Scans.replays (h : Scans 0 u e) : Replays u e := by
  obtain ⟨w, b, s, rfl, hr, -, hd⟩ := h
  exact ⟨w, b, s, rfl, hr.trace, hd⟩

theorem EmptyTag.replays (h : EmptyTag u) : Replays u (u.length - 1) := by
  have hmark : markAt 0 (u.length - 1) = u.length - 1 := if_pos rfl
  exact (hmark ▸ scans_element (.empty h) h.not_stream 0).replays

theorem Replays.retag (h : Replays u e) (hclose : u[1]? ≠ some slash) (hdecl : u[1]? ≠ some quest)
    (hs : ¬ StreamOpen u) : ∃ first rest, u = first ++ rest ∧ e = first.length - 1 ∧
      (EmptyTag first ∧ rest = [] ∨
        RootTag first ∧ ∀ first', RootTag first' → Replays (first' ++ rest) (first'.length - 1)) := by
  obtain ⟨w, b, s, rfl, htr, hd⟩ := h
  obtain ⟨-, hshort | ⟨o, v, ha, rfl⟩⟩ := (early_of_trace htr).emit hd
  · rcases hshort with h | h | h | ⟨h, rfl⟩
    · exact absurd h hclose
    · exact absurd h hdecl
    · exact absurd h hs
    · exact ⟨w ++ [b], [], (List.append_nil _).symm, rfl, .inl ⟨h, rfl⟩⟩
  · obtain rfl : w = o ++ v := htr.part.symm.trans ha.part
    refine ⟨o, v ++ [b], List.append_assoc _ _ _, rfl, .inr ⟨ha.toRootTag, fun o' ho' => ?_⟩⟩
    obtain ⟨s', ha', hb⟩ := ha.beside ho'
    have hab := hb.dispatch ha.toRootTag ho' b
    rw [hd] at hab
    generalize hd' : s'.dispatch b = m' at hab
    cases hab with
    | emit =>
      rw [← List.append_assoc]
      exact ⟨o' ++ v, b, s', rfl, ha'.whole, hd'⟩

end

end XmppProxy.Stanza
