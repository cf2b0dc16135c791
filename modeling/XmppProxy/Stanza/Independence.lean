import XmppProxy.Stanza.Emission
import XmppProxy.Stanza.History

/-! A filter outside of stanzas is a new one, whatever was read through it, rejected by it or written over
its buffer before. -/

namespace XmppProxy.Stanza

def Scanner.Move.FailsInside : Scanner.Move → Prop
  | .ret (.err _) t => t.mode ≠ .outside
  | .ret .panic t => t.mode ≠ .outside
  | _ => True

section

variable {s : Scanner} {b : UInt8}

theorem failsInside_subDepth (hs : s.mode ≠ .outside) {n : Nat} {k : Scanner → Scanner.Move}
    (hk : ∀ d, (k { s with depth := d }).FailsInside) : (s.subDepth n k).FailsInside := by
  unfold Scanner.subDepth
  split
  · exact hk _
  · exact hs

theorem failsInside_ifLastEquals (hs : s.mode ≠ .outside) {needle : Bytes} {yes no : Scanner.Move}
    (hyes : yes.FailsInside) (hno : no.FailsInside) : (s.ifLastEquals b needle yes no).FailsInside := by
  unfold Scanner.ifLastEquals
  split_ifs
  · exact hyes
  · exact hno
  · exact hs

theorem failsInside_afterTag (s : Scanner) (b : UInt8) : (s.afterTag b).FailsInside := by
  unfold Scanner.afterTag
  split_ifs <;> trivial

theorem failsInside_tagClosed (hs : s.mode ≠ .outside) : (s.tagClosed b).FailsInside := by
  have hm : s.markFirstTag.mode ≠ .outside := by rwa [Scanner.markFirstTag_mode]
  unfold Scanner.tagClosed
  split
  · exact hm
  · split_ifs
    · exact failsInside_subDepth hm fun d => failsInside_afterTag _ b
    · exact failsInside_afterTag _ b

theorem failsInside_dispatch (s : Scanner) (b : UInt8) : (s.dispatch b).FailsInside := by
  have hill : s.mode ≠ .outside → (s.illegal b).FailsInside := id
  unfold Scanner.dispatch
  cases hm : s.mode <;> dsimp only <;> rw [hm] at hill
  case outside => split_ifs <;> trivial
  case stanzaFirst =>
    split_ifs
    · trivial
    · exact hill (by simp)
    · trivial
    · trivial
  case tagFirst =>
    split_ifs
    · exact failsInside_subDepth (by simp [hm]) fun d => trivial
    · trivial
    · exact hill (by simp)
    · trivial
  case tag =>
    split_ifs
    · exact failsInside_tagClosed (by simp [hm])
    · trivial
    · trivial
  case question =>
    split_ifs
    · exact failsInside_ifLastEquals (by simp [hm]) trivial (hill (by simp))
    · trivial
  case exclamation =>
    split_ifs
    · exact failsInside_ifLastEquals (by simp [hm]) (failsInside_subDepth (by simp) fun d => trivial)
        (hill (by simp))
    · trivial
  case cdata =>
    split_ifs
    · exact failsInside_ifLastEquals (by simp [hm]) trivial trivial
    · trivial
  case endStream =>
    split_ifs
    · exact failsInside_ifLastEquals (by simp [hm]) trivial (hill (by simp))
    · trivial
  all_goals split_ifs <;> trivial

end

/-- The scanner is outside of stanzas only with nothing read and nothing open. -/
def Tidy (s : Scanner) : Prop := s.mode = .outside → s.part = [] ∧ s.depth = 0

theorem tidy_of_ne {s : Scanner} (h : s.mode ≠ .outside) : Tidy s := fun h' => absurd h' h

theorem Tidy.next {s : Scanner} (h : Tidy s) (n : Nat) (b : UInt8) : Tidy (s.next n b).2 := by
  have hl := Scanner.local_dispatch s b
  have hf := failsInside_dispatch s b
  unfold Scanner.next
  split_ifs
  swap
  · exact h
  cases hd : s.dispatch b with
  | fall t =>
    rw [hd] at hl
    have ht : Tidy (t.push b) := tidy_of_ne hl.2.1
    dsimp only [Scanner.advance]
    split_ifs <;> exact ht
  | ret r t =>
    rw [hd] at hl hf
    obtain (_ | u) | e | _ := r
    · obtain ⟨rfl, -, -⟩ := hl
      exact h
    · obtain ⟨-, -, e, rfl, -⟩ := hl
      exact fun _ => ⟨rfl, rfl⟩
    · exact tidy_of_ne hf
    · exact tidy_of_ne hf

/-- Whatever has been done to a filter: bytes read through either reader, errors or not, and anything
written over its buffer at any time. -/
inductive Reached (n : Nat) : StanzaFilter → Prop where
  | new : Reached n (.new n)
  | next {f : StanzaFilter} (b : UInt8) : Reached n f → Reached n (f.next b).2
  | nextEoft {f : StanzaFilter} (b : UInt8) : Reached n f → Reached n (f.nextEoft b).2
  | overwritten {f : StanzaFilter} (buf : Bytes) (h : buf.length = f.bufSize) :
      Reached n f → Reached n { f with buf := buf, length_buf := h }

/-- A filter with its counters in range, both of them at zero outside of stanzas. -/
structure TidyFilter (n : Nat) (f : StanzaFilter) : Prop where
  size : f.bufSize = n
  le : f.cnt ≤ f.bufSize
  idle : f.state = .outsideStanza → f.cnt = 0 ∧ f.tagCnt = 0

section

variable {n : Nat} {f : StanzaFilter}

theorem Refines.tidyFilter {s : Scanner} (h : Refines n f s) (hs : Tidy s) : TidyFilter n f where
  size := h.size
  le := h.size ▸ h.cnt_le
  idle hout := by
    have hm : s.mode = .outside := by
      have hstate := h.state
      rw [hout] at hstate
      cases hmode : s.mode <;> rw [hmode] at hstate <;> first | rfl | cases hstate
    obtain ⟨hp, hd⟩ := hs hm
    exact ⟨by rw [h.cnt, hp]; rfl, h.tagCnt.trans hd⟩

theorem TidyFilter.scanner (h : TidyFilter n f) : Refines n f (scanner f) ∧ Tidy (scanner f) := by
  refine ⟨h.size ▸ refines_scanner h.le, fun hout => ?_⟩
  have hstate := congrArg Mode.state hout
  change (modeOf f.state).state = _ at hstate
  rw [modeOf_state] at hstate
  obtain ⟨hcnt, htag⟩ := h.idle hstate
  refine ⟨?_, htag⟩
  change f.buf.take f.cnt = []
  rw [hcnt]
  rfl

theorem TidyFilter.next (h : TidyFilter n f) (b : UInt8) : TidyFilter n (f.next b).2 := by
  obtain ⟨hf, hs⟩ := h.scanner
  exact (hf.next b).2.tidyFilter (hs.next n b)

theorem TidyFilter.nextEoft (h : TidyFilter n f) (b : UInt8) : TidyFilter n (f.nextEoft b).2 := by
  have hn := h.next b
  unfold StanzaFilter.nextEoft
  generalize f.next b = x at hn
  obtain ⟨r, f'⟩ := x
  obtain (_ | u) | e | _ := r
  · exact hn
  · exact ⟨hn.size, hn.le, hn.idle⟩
  · exact hn
  · exact hn

theorem Reached.tidy (h : Reached n f) : TidyFilter n f := by
  induction h with
  | new => exact ⟨rfl, Nat.zero_le _, fun _ => ⟨rfl, rfl⟩⟩
  | next b _ ih => exact ih.next b
  | nextEoft b _ ih => exact ih.nextEoft b
  | overwritten buf hbuf _ ih => exact ⟨ih.size, ih.le, ih.idle⟩

end

theorem Reached.idle {n : Nat} {f : StanzaFilter} (h : Reached n f) (hout : f.state = .outsideStanza) :
    Idle n f :=
  ⟨h.tidy.size, (h.tidy.idle hout).1, (h.tidy.idle hout).2, hout⟩

/-- Outside of stanzas a filter with any past answers every further input as a new one does: the same
stanzas and the same errors on the same bytes, and the same marks if none is left over. -/
theorem history_independent {n : Nat} {f : StanzaFilter} (h : Reached n f)
    (hout : f.state = .outsideStanza) (bs : Bytes) :
    filterNext.outputs f bs = filterNext.outputs (.new n) bs ∧
      (f.endOfFirstTag = 0 → filterNextEoft.outputs f bs = filterNextEoft.outputs (.new n) bs) := by
  have hidle := h.idle hout
  refine ⟨alike_next.outputs_eq (hidle.alike (idle_new n)) bs, fun hmark => ?_⟩
  have hf := hidle.refines
  rw [hmark] at hf
  exact ((filterNextEoft_refines n).outputs_eq hf bs).trans
    ((filterNextEoft_refines n).outputs_eq (refines_new n) bs).symm

theorem reached_run {n : Nat} (bs : Bytes) {f : StanzaFilter} (h : Reached n f) :
    Reached n (filterNextEoft.final f bs) := by
  induction bs generalizing f with
  | nil => exact h
  | cons b bs ih => exact ih (h.nextEoft b)

def usedFilter : StanzaFilter :=
  { filterNextEoft.final (.new 16) (bytes "<a>x</a>") with
    buf := bytes "<stream:stream  "
    length_buf := rfl }

theorem history_independent_used :
    filterNext.outputs usedFilter (bytes "<b/>") = filterNext.outputs (.new 16) (bytes "<b/>") ∧
      filterNextEoft.outputs usedFilter (bytes "<b/>") = filterNextEoft.outputs (.new 16) (bytes "<b/>") := by
  have h := history_independent (.overwritten _ rfl (reached_run (bytes "<a>x</a>") .new))
    (show usedFilter.state = _ by decide) (bytes "<b/>")
  exact ⟨h.1, h.2 (by decide)⟩

end XmppProxy.Stanza
