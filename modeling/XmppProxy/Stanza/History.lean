import XmppProxy.Stanza.Sound

/-! What a filter does depends on the bytes of the stanza in progress alone: neither the rest of the
buffer nor a stale `end_of_first_tag` changes an answer. -/

namespace XmppProxy.Stanza

/-- The same scanner up to `end_of_first_tag`. -/
structure SameBut (s t : Scanner) : Prop where
  part : s.part = t.part
  depth : s.depth = t.depth
  mode : s.mode = t.mode

theorem SameBut.refl (s : Scanner) : SameBut s s := ⟨rfl, rfl, rfl⟩

theorem SameBut.push {s t : Scanner} (h : SameBut s t) (b : UInt8) : SameBut (s.push b) (t.push b) :=
  ⟨congrArg (· ++ [b]) h.part, h.depth, h.mode⟩

theorem sameBut_idle (e e' : Nat) : SameBut (.idle e) (.idle e') := ⟨rfl, rfl, rfl⟩

theorem SameBut.fault {s t : Scanner} (h : SameBut s t) {b : UInt8} : s.Fault b ↔ t.Fault b := by
  unfold Scanner.Fault
  rw [h.part, h.mode]

def AlikeMove : Scanner.Move → Scanner.Move → Prop
  | .fall s, .fall t => SameBut s t
  | .ret r s, .ret r' t => r = r' ∧ SameBut s t
  | _, _ => False

section

variable {s t : Scanner} {b : UInt8}

theorem SameBut.illegal (h : SameBut s t) : AlikeMove (s.illegal b) (t.illegal b) :=
  ⟨by rw [h.part], h⟩

theorem SameBut.emit (h : SameBut s t) : AlikeMove (s.emit b) (t.emit b) :=
  ⟨by rw [h.part], sameBut_idle _ _⟩

theorem SameBut.markFirstTag (h : SameBut s t) : SameBut s.markFirstTag t.markFirstTag := by
  unfold Scanner.markFirstTag
  split_ifs
  all_goals exact ⟨h.part, h.depth, h.mode⟩

theorem SameBut.subDepth (h : SameBut s t) {n : Nat} {k k' : Scanner → Scanner.Move}
    (hk : ∀ d, AlikeMove (k { s with depth := d }) (k' { t with depth := d })) :
    AlikeMove (s.subDepth n k) (t.subDepth n k') := by
  unfold Scanner.subDepth
  rw [h.depth]
  cases checkedSub t.depth n with
  | ok d => exact hk d
  | error e => exact ⟨rfl, h⟩

theorem SameBut.ifLastEquals (h : SameBut s t) {needle : Bytes} {yes no yes' no' : Scanner.Move}
    (hyes : AlikeMove yes yes') (hno : AlikeMove no no') :
    AlikeMove (s.ifLastEquals b needle yes no) (t.ifLastEquals b needle yes' no') := by
  unfold Scanner.ifLastEquals
  rw [h.part]
  split_ifs
  · exact hyes
  · exact hno
  · exact ⟨rfl, h⟩

theorem SameBut.afterTag (h : SameBut s t) : AlikeMove (s.afterTag b) (t.afterTag b) := by
  have ⟨hp, hd, _⟩ := h
  unfold Scanner.afterTag
  simp only [hp, hd]
  split_ifs
  · exact h.emit
  · exact h.emit
  · exact ⟨rfl, rfl, rfl⟩

theorem SameBut.tagClosed (h : SameBut s t) : AlikeMove (s.tagClosed b) (t.tagClosed b) := by
  have hm := h.markFirstTag
  unfold Scanner.tagClosed
  rw [h.part]
  cases t.part.getLast? with
  | none => exact ⟨rfl, hm⟩
  | some c =>
    dsimp only
    split_ifs
    · exact hm.subDepth fun d => SameBut.afterTag ⟨hm.part, rfl, hm.mode⟩
    · exact hm.afterTag

theorem SameBut.dispatch (h : SameBut s t) (b : UInt8) : AlikeMove (s.dispatch b) (t.dispatch b) := by
  unfold Scanner.dispatch
  rw [h.mode]
  cases t.mode <;> dsimp only
  case outside =>
    split_ifs
    · exact ⟨h.part, by rw [h.depth], rfl⟩
    · exact ⟨rfl, h⟩
  case between =>
    split_ifs
    · exact ⟨h.part, by rw [h.depth], rfl⟩
    · exact h
  case stanzaFirst =>
    split_ifs
    · exact ⟨h.part, h.depth, rfl⟩
    · exact h.illegal
    · exact ⟨h.part, h.depth, by rw [h.part]⟩
    · exact ⟨h.part, h.depth, rfl⟩
  case tagFirst =>
    split_ifs
    · exact h.subDepth fun d => ⟨h.part, rfl, rfl⟩
    · exact ⟨h.part, h.depth, by rw [h.part]⟩
    · exact h.illegal
    · exact ⟨h.part, h.depth, rfl⟩
  case tag =>
    split_ifs
    · exact h.tagClosed
    · exact ⟨h.part, h.depth, rfl⟩
    · exact h
  case quoted =>
    split_ifs
    · exact ⟨h.part, h.depth, rfl⟩
    · exact h
  case question idx =>
    by_cases hi : idx = t.part.length
    · rw [if_pos (by rw [h.part, hi]), if_pos hi]
      exact h.ifLastEquals ⟨h.part, h.depth, rfl⟩ h.illegal
    · rw [if_neg (by rw [h.part]; exact hi), if_neg hi]
      exact h
  case xmlTag =>
    split_ifs
    · exact h.emit
    · exact h
  case exclamation idx =>
    by_cases hi : idx = t.part.length
    · rw [if_pos (by rw [h.part, hi]), if_pos hi]
      have h' : SameBut { s with mode := .cdata } { t with mode := .cdata } := ⟨h.part, h.depth, rfl⟩
      exact h.ifLastEquals (h'.subDepth fun d => ⟨h.part, rfl, rfl⟩) h.illegal
    · rw [if_neg (by rw [h.part]; exact hi), if_neg hi]
      exact h
  case cdata =>
    split_ifs
    · exact h.ifLastEquals ⟨h.part, h.depth, rfl⟩ h
    · exact h
  case endStream =>
    split_ifs
    · exact h.ifLastEquals h.markFirstTag.emit h.illegal
    · exact h

end

theorem sameBut_next (n : Nat) : (scanNext n).Simulates (scanNext n) SameBut Eq := by
  intro s t b h
  change (s.next n b).1 = (t.next n b).1 ∧ SameBut (s.next n b).2 (t.next n b).2
  unfold Scanner.next
  rw [h.part]
  split_ifs
  swap
  · exact ⟨rfl, h⟩
  have hd := h.dispatch b
  cases hs : s.dispatch b <;> cases ht : t.dispatch b <;> rw [hs, ht] at hd
  case fall.fall s' t' =>
    have hp := hd.push b
    dsimp only
    unfold Scanner.advance
    rw [hp.part]
    split_ifs
    · exact ⟨rfl, hp⟩
    · exact ⟨rfl, hp⟩
  case ret.ret => exact hd
  all_goals exact hd.elim

/-- The same filter up to stale buffer contents and `end_of_first_tag`. -/
structure Alike (f g : StanzaFilter) : Prop where
  size : f.bufSize = g.bufSize
  cnt : f.cnt = g.cnt
  le : g.cnt ≤ g.bufSize
  take : f.buf.take f.cnt = g.buf.take g.cnt
  tagCnt : f.tagCnt = g.tagCnt
  state : f.state = g.state

/-- A filter outside of stanzas, whatever its buffer holds. -/
structure Idle (n : Nat) (f : StanzaFilter) : Prop where
  size : f.bufSize = n
  cnt : f.cnt = 0
  tagCnt : f.tagCnt = 0
  state : f.state = .outsideStanza

theorem idle_new (n : Nat) : Idle n (.new n) := ⟨rfl, rfl, rfl, rfl⟩

theorem Idle.alike {n : Nat} {f g : StanzaFilter} (hf : Idle n f) (hg : Idle n g) : Alike f g where
  size := hf.size.trans hg.size.symm
  cnt := hf.cnt.trans hg.cnt.symm
  le := by rw [hg.cnt]; exact Nat.zero_le _
  take := by rw [hf.cnt, hg.cnt]; rfl
  tagCnt := hf.tagCnt.trans hg.tagCnt.symm
  state := hf.state.trans hg.state.symm

theorem Idle.refines {n : Nat} {f : StanzaFilter} (h : Idle n f) :
    Refines n f (.idle f.endOfFirstTag) where
  size := h.size
  cnt := h.cnt
  take := by rw [h.cnt]; rfl
  tagCnt := h.tagCnt
  eoft := rfl
  state := h.state

theorem Idle.scratch {n : Nat} {f : StanzaFilter} (h : Idle n f) (w : Bytes)
    (hw : w.length ≤ f.bufSize) : Idle n (f.scratch w hw) := ⟨h.size, h.cnt, h.tagCnt, h.state⟩

def modeOf : StanzaState → Mode
  | .outsideStanza => .outside
  | .stanzaFirstChar => .stanzaFirst
  | .insideTagFirstChar => .tagFirst false
  | .insideTag => .tag false
  | .insideAttribute q => .quoted false q
  | .betweenTags => .between
  | .exclamationTag idx => .exclamation idx
  | .insideCDATA => .cdata
  | .questionTag idx => .question idx
  | .insideXmlTag => .xmlTag
  | .endStream => .endStream

theorem modeOf_state (st : StanzaState) : (modeOf st).state = st := by cases st <;> rfl

def scanner (f : StanzaFilter) : Scanner := ⟨f.buf.take f.cnt, f.tagCnt, f.endOfFirstTag, modeOf f.state⟩

theorem refines_scanner {f : StanzaFilter} (h : f.cnt ≤ f.bufSize) :
    Refines f.bufSize f (scanner f) where
  size := rfl
  cnt := by
    change f.cnt = (f.buf.take f.cnt).length
    rw [List.length_take, f.length_buf, Nat.min_eq_left h]
  take := rfl
  tagCnt := rfl
  eoft := rfl
  state := (modeOf_state f.state).symm

theorem Alike.le_left {f g : StanzaFilter} (h : Alike f g) : f.cnt ≤ f.bufSize := by
  rw [h.cnt, h.size]
  exact h.le

theorem Alike.sameBut {f g : StanzaFilter} (h : Alike f g) : SameBut (scanner f) (scanner g) :=
  ⟨h.take, h.tagCnt, congrArg modeOf h.state⟩

theorem Alike.of_refines {n : Nat} {f g : StanzaFilter} {s t : Scanner} (hf : Refines n f s)
    (hg : Refines n g t) (h : SameBut s t) : Alike f g where
  size := hf.size.trans hg.size.symm
  cnt := by rw [hf.cnt, hg.cnt, h.part]
  le := hg.size ▸ hg.cnt_le
  take := by rw [hf.take, hg.take, h.part]
  tagCnt := by rw [hf.tagCnt, hg.tagCnt, h.depth]
  state := by rw [hf.state, hg.state, h.mode]

theorem Alike.refl {f : StanzaFilter} (h : f.cnt ≤ f.bufSize) : Alike f f :=
  .of_refines (refines_scanner h) (refines_scanner h) (.refl _)

/-- Neither stale bytes nor a stale `end_of_first_tag` change what `next` answers. -/
theorem alike_next : filterNext.Simulates filterNext Alike Eq := by
  intro f g b h
  have hf := (refines_scanner h.le_left).next b
  have hg := (refines_scanner h.le).next b
  rw [h.size] at hf
  have hs := sameBut_next g.bufSize _ _ b h.sameBut
  exact ⟨hf.1.trans (hs.1.trans hg.1.symm), .of_refines hf.2 hg.2 hs.2⟩

theorem Alike.nextEoft {f g : StanzaFilter} (h : Alike f g) (b : UInt8) :
    (do return (← (f.nextEoft b).1).map Prod.fst) = (g.next b).1 ∧
      Alike (f.nextEoft b).2 (g.next b).2 := by
  obtain ⟨hr, hf⟩ := alike_next f g b h
  change (f.next b).1 = (g.next b).1 at hr
  change Alike (f.next b).2 (g.next b).2 at hf
  unfold StanzaFilter.nextEoft
  generalize f.next b = x at hr hf
  obtain ⟨r, f'⟩ := x
  dsimp only at hr hf
  rw [← hr]
  obtain (_ | u) | e | _ := r
  · exact ⟨rfl, hf⟩
  · exact ⟨rfl, { hf with }⟩
  · exact ⟨rfl, hf⟩
  · exact ⟨rfl, hf⟩

theorem Alike.scratch {f g : StanzaFilter} (h : Alike f g) (hcnt : f.cnt = 0) (w : Bytes)
    (hw : w.length ≤ f.bufSize) : Alike (f.scratch w hw) g where
  size := h.size
  cnt := h.cnt
  le := h.le
  take := by
    change List.take f.cnt _ = _
    rw [hcnt, ← h.cnt, hcnt]
    rfl
  tagCnt := h.tagCnt
  state := h.state

end XmppProxy.Stanza
