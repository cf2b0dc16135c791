import XmppProxy.Stanza.Scanner

/-! The filter refines the scanner: with equal pending bytes, whatever stands in the buffer beyond
them, both answer every byte alike. -/

namespace XmppProxy.Stanza

open StanzaFilter (Move)

/-- The filter holds the scanner's pending bytes in `buf[0..cnt]`; the rest of `buf` is free. -/
structure Refines (n : Nat) (f : StanzaFilter) (s : Scanner) : Prop where
  size : f.bufSize = n
  cnt : f.cnt = s.part.length
  take : f.buf.take f.cnt = s.part
  tagCnt : f.tagCnt = s.depth
  eoft : f.endOfFirstTag = s.eoft
  state : f.state = s.mode.state

/-- The same with the byte `b` written at `buf[cnt]` and not yet counted. -/
structure Holds (n : Nat) (b : UInt8) (f : StanzaFilter) (s : Scanner) : Prop extends Refines n f s where
  lt : f.cnt < f.buf.length
  next : f.buf[f.cnt]? = some b

theorem Refines.cnt_le {n : Nat} {f : StanzaFilter} {s : Scanner} (h : Refines n f s) : f.cnt ≤ n := by
  have hl := congrArg List.length h.take
  rw [List.length_take, f.length_buf, h.size, ← h.cnt] at hl
  omega

theorem Holds.take_succ {n : Nat} {b : UInt8} {f : StanzaFilter} {s : Scanner}
    (h : Holds n b f s) :
    f.buf.take (f.cnt + 1) = s.part ++ [b] := by
  rw [List.take_add_one, h.take, h.next]
  rfl

theorem refines_new (n : Nat) : Refines n (.new n) (.idle 0) where
  size := rfl
  cnt := rfl
  take := rfl
  tagCnt := rfl
  eoft := rfl
  state := rfl

theorem Refines.setBuf {n : Nat} {f : StanzaFilter} {s : Scanner} (h : Refines n f s)
    (hlt : f.cnt < n) (b : UInt8) : Holds n b (f.setBuf f.cnt b) s where
  size := h.size
  cnt := h.cnt
  take := (List.take_set_of_le (Nat.le_refl f.cnt)).trans h.take
  tagCnt := h.tagCnt
  eoft := h.eoft
  state := h.state
  lt := by simpa [StanzaFilter.setBuf, f.length_buf, h.size] using hlt
  next := List.getElem?_set_self (by rw [f.length_buf, h.size]; exact hlt)

/-- Two ways out of the `match` that agree on a stanza, an error or a panic, and on the state. -/
def SameMove (n : Nat) (b : UInt8) : Move → Scanner.Move → Prop
  | .fall f, .fall s => Holds n b f s
  | .ret r f, .ret r' s => (do return (← r).map f.buf.take) = r' ∧ Refines n f s
  | _, _ => False

section

variable {n : Nat} {b : UInt8} {f : StanzaFilter} {s : Scanner}

theorem Holds.update (h : Holds n b f s) {d : Nat} {st : StanzaState} {m : Mode} (hm : m.state = st) :
    Holds n b { f with tagCnt := d, state := st } { s with depth := d, mode := m } where
  size := h.size
  cnt := h.cnt
  take := h.take
  tagCnt := rfl
  eoft := h.eoft
  state := hm.symm
  lt := h.lt
  next := h.next

theorem Holds.fall (h : Holds n b f s) {d : Nat} {st : StanzaState} {m : Mode} (hm : m.state = st) :
    SameMove n b (.fall { f with tagCnt := d, state := st })
      (.fall { s with depth := d, mode := m }) := h.update hm

theorem Holds.fall_mode (h : Holds n b f s) {st : StanzaState} {m : Mode} (hm : m.state = st) :
    SameMove n b (.fall { f with state := st }) (.fall { s with mode := m }) where
  __ := h
  state := hm.symm

theorem Holds.illegal (h : Holds n b f s) : SameMove n b f.illegal (s.illegal b) := by
  refine ⟨?_, h.toRefines⟩
  rw [h.take_succ]
  rfl

theorem Holds.emit (h : Holds n b f s) : SameMove n b f.stanzaEnd (s.emit b) := by
  refine ⟨?_, ⟨h.size, rfl, rfl, rfl, h.eoft, rfl⟩⟩
  change Outcome.ok (some (f.buf.take (f.cnt + 1))) = _
  rw [h.take_succ]

theorem Holds.sub (h : Holds n b f s) {i : Nat} {k : StanzaFilter → Move}
    {k' : Scanner → Scanner.Move}
    (hk : ∀ d, SameMove n b (k { f with tagCnt := d }) (k' { s with depth := d })) :
    SameMove n b (f.subTagCnt i k) (s.subDepth i k') := by
  unfold StanzaFilter.subTagCnt Scanner.subDepth
  rw [h.tagCnt]
  cases checkedSub s.depth i with
  | ok d => exact hk d
  | error e => exact ⟨rfl, h.toRefines⟩

theorem Holds.lastEquals (h : Holds n b f s) {needle : Bytes} (hn : needle ≠ []) :
    f.lastEquals needle = if needle.length - 1 ≤ s.part.length
      then .ok (decide (needle <:+ s.part ++ [b]))
      else .error (.expectedBytes (needle.length - 1) (s.part.length + 1)) := by
  unfold StanzaFilter.lastEquals StanzaFilter.lastNumBytes
  rw [h.take_succ, h.cnt]
  have hpos := List.length_pos_iff.mpr hn
  split
  next hle =>
    simp only [Except.map, Except.ok.injEq]
    rw [Bool.eq_iff_iff, beq_iff_eq, decide_eq_true_iff, List.suffix_iff_eq_drop]
    have : s.part.length - (needle.length - 1) = (s.part ++ [b]).length - needle.length := by
      rw [List.length_append, List.length_singleton]
      omega
    rw [this]
  next => rfl

theorem Holds.ifLastEquals (h : Holds n b f s) {needle : Bytes} (hn : needle ≠ []) {yes no : Move}
    {yes' no' : Scanner.Move} (hyes : SameMove n b yes yes') (hno : SameMove n b no no') :
    SameMove n b (f.ifLastEquals needle yes no) (s.ifLastEquals b needle yes' no') := by
  unfold StanzaFilter.ifLastEquals Scanner.ifLastEquals
  rw [h.lastEquals hn]
  by_cases hl : needle.length - 1 ≤ s.part.length
  · by_cases hs : needle <:+ s.part ++ [b]
    · simpa [hl, hs] using hyes
    · simpa [hl, hs] using hno
  · simp only [if_neg hl]
    exact ⟨rfl, h.toRefines⟩

theorem Holds.markFirstTag (h : Holds n b f s) : Holds n b f.markFirstTag s.markFirstTag := by
  unfold StanzaFilter.markFirstTag Scanner.markFirstTag
  rw [h.eoft]
  split
  · exact { h with eoft := h.cnt }
  · exact h

/-- The fixed comparison of `buf[0..15]` never sees a stale byte: the `>` just written is not in the
needle. -/
theorem Holds.stream_isPrefix (h : Holds n gt f s) :
    (15 ≤ f.buf.length ∧ bytes "<stream:stream " = f.buf.take 15) ↔
      bytes "<stream:stream " <+: s.part ++ [gt] := by
  have hbuf : s.part ++ [gt] <+: f.buf := h.take_succ ▸ List.take_prefix _ _
  constructor
  · rintro ⟨-, he⟩
    have hneedle : bytes "<stream:stream " <+: f.buf := he ▸ List.take_prefix _ _
    rcases List.prefix_or_prefix_of_prefix hneedle hbuf with hp | hp
    · exact hp
    · exact absurd (hp.subset (List.mem_append_right _ (List.mem_singleton_self gt))) (by decide)
  · intro hp
    have hneedle := hp.trans hbuf
    exact ⟨hneedle.length_le, List.prefix_iff_eq_take.mp hneedle⟩

theorem Holds.afterTag (h : Holds n gt f s) : SameMove n gt f.afterTag (s.afterTag gt) := by
  unfold StanzaFilter.afterTag Scanner.afterTag
  simp only [h.stream_isPrefix, h.tagCnt]
  split_ifs
  · exact h.emit
  · exact h.emit
  · exact { h with tagCnt := rfl, state := rfl }

theorem Holds.tagClosed (h : Holds n gt f s) : SameMove n gt f.tagClosed (s.tagClosed gt) := by
  unfold StanzaFilter.tagClosed Scanner.tagClosed
  have hm := h.markFirstTag
  have hcnt : f.markFirstTag.cnt = s.part.length := by
    rw [hm.cnt]
    unfold Scanner.markFirstTag
    split <;> rfl
  have hpart : s.markFirstTag.part = s.part := by unfold Scanner.markFirstTag; split <;> rfl
  dsimp only
  generalize f.markFirstTag = g at hm hcnt
  split
  next he =>
    have hnil : s.part = [] := List.length_eq_zero_iff.mp (hcnt.symm.trans he)
    rw [hnil]
    exact ⟨rfl, hm.toRefines⟩
  next i he =>
    have hlast : s.part.getLast? = g.buf[i]? := by
      rw [List.getLast?_eq_getElem?, ← hpart, ← hm.take, List.length_take,
        List.getElem?_take_of_lt (by have := hm.lt; omega)]
      congr 1
      have := hm.lt
      omega
    have hsome : ∃ c, g.buf[i]? = some c :=
      ⟨_, List.getElem?_eq_getElem (by have := hm.lt; omega)⟩
    obtain ⟨c, hc⟩ := hsome
    rw [hlast, hc]
    simp only [Option.some.injEq]
    split_ifs
    · refine hm.sub fun d => Holds.afterTag ?_
      exact { hm with tagCnt := rfl }
    · exact hm.afterTag

theorem Holds.dispatch (h : Holds n b f s) : SameMove n b (f.dispatch b) (s.dispatch b) := by
  have hst := h.state
  unfold StanzaFilter.dispatch Scanner.dispatch
  cases hm : s.mode <;> rw [hm] at hst <;> simp only [Mode.state] at hst <;> rw [hst] <;> dsimp only
  case outside =>
    split_ifs
    · rw [h.tagCnt]
      exact h.fall rfl
    · exact ⟨rfl, h.toRefines⟩
  case between =>
    split_ifs
    · rw [h.tagCnt]
      exact h.fall rfl
    · exact h
  case stanzaFirst =>
    split_ifs
    · exact h.fall_mode rfl
    · exact h.illegal
    · exact h.fall_mode (by rw [h.cnt, Mode.state])
    · exact h.fall_mode rfl
  case tagFirst closing =>
    split_ifs
    · exact h.sub fun d => { h with tagCnt := rfl, state := hst }
    · exact h.fall_mode (by rw [h.cnt, Mode.state])
    · exact h.illegal
    · exact h.fall_mode rfl
  case tag closing =>
    split_ifs with hb
    · subst hb
      exact h.tagClosed
    · exact h.fall_mode rfl
    · exact h
  case quoted closing quote =>
    split_ifs
    · exact h.fall_mode rfl
    · exact h
  case question idx =>
    by_cases hi : idx = s.part.length
    · rw [if_pos (hi.trans h.cnt.symm), if_pos hi]
      exact h.ifLastEquals (by decide) (h.fall_mode rfl) h.illegal
    · rw [if_neg (h.cnt ▸ hi), if_neg hi]
      exact h
  case xmlTag =>
    split_ifs
    · exact h.emit
    · exact h
  case exclamation idx =>
    by_cases hi : idx = s.part.length
    · rw [if_pos (hi.trans h.cnt.symm), if_pos hi]
      refine h.ifLastEquals (by decide) ?_ h.illegal
      have h' : Holds n b { f with state := .insideCDATA } { s with mode := .cdata } :=
        { h with state := rfl }
      exact h'.sub fun d => { h' with tagCnt := rfl }
    · rw [if_neg (h.cnt ▸ hi), if_neg hi]
      exact h
  case cdata =>
    split_ifs
    · exact h.ifLastEquals (by decide) (h.fall_mode rfl) h
    · exact h
  case endStream =>
    split_ifs
    · exact h.ifLastEquals (by decide) h.markFirstTag.emit h.illegal
    · exact h

theorem Holds.push (h : Holds n b f s) : Refines n { f with cnt := f.cnt + 1 } (s.push b) where
  size := h.size
  cnt := by simp [Scanner.push, h.cnt]
  take := h.take_succ
  tagCnt := h.tagCnt
  eoft := h.eoft
  state := h.state

theorem Holds.advance (h : Holds n b f s) :
    (do return (← f.advance.1).map f.advance.2.buf.take) = (s.advance n b).1 ∧
      Refines n f.advance.2 (s.advance n b).2 := by
  have hpush := h.push
  unfold StanzaFilter.advance Scanner.advance
  have hiff : f.cnt + 1 = f.bufSize ↔ (s.push b).part.length = n := by
    rw [show (s.push b).part.length = f.cnt + 1 from hpush.cnt.symm, h.size]
  by_cases hfull : f.cnt + 1 = f.bufSize
  · have hbuf : f.buf = (s.push b).part := by
      refine (List.take_of_length_le ?_).symm.trans hpush.take
      exact Nat.le_of_eq (f.length_buf.trans hfull.symm)
    rw [if_pos hfull, if_pos (hiff.mp hfull), ← hbuf]
    exact ⟨rfl, hpush⟩
  · rw [if_neg hfull, if_neg (mt hiff.mpr hfull)]
    exact ⟨rfl, hpush⟩

end

theorem Refines.next {n : Nat} {f : StanzaFilter} {s : Scanner} (h : Refines n f s) (b : UInt8) :
    (f.next b).1 = (s.next n b).1 ∧ Refines n (f.next b).2 (s.next n b).2 := by
  unfold StanzaFilter.next Scanner.next
  rw [h.size, ← h.cnt]
  by_cases hlt : f.cnt < n
  swap
  · rw [if_neg hlt, if_neg hlt]
    exact ⟨rfl, h⟩
  rw [if_pos hlt, if_pos hlt]
  have hb := h.setBuf hlt b
  have hmove := hb.dispatch
  unfold StanzaFilter.processNextByteIdx
  rw [show (f.setBuf f.cnt b).buf[(f.setBuf f.cnt b).cnt]? = some b from hb.next]
  dsimp only
  cases hf : (f.setBuf f.cnt b).dispatch b with
  | ret r f' =>
    cases hs : s.dispatch b with
    | ret r' s' =>
      rw [hf, hs] at hmove
      exact hmove
    | fall s' => rw [hf, hs] at hmove; exact hmove.elim
  | fall f' =>
    cases hs : s.dispatch b with
    | ret r' s' => rw [hf, hs] at hmove; exact hmove.elim
    | fall s' =>
      rw [hf, hs] at hmove
      exact hmove.advance

theorem filterNext_refines (n : Nat) :
    (filterNext).Simulates (scanNext n) (Refines n) Eq := fun _ _ b h => h.next b

end XmppProxy.Stanza
