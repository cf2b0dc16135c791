import XmppProxy.Stanza.Independence

/-! Up to its first error the filter stays within its buffer: what each state may rely on about the
counters, the stored offsets and the bytes read, and which error is met where. -/

namespace XmppProxy.Stanza

/-- What a mode may rely on when `len` bytes of the stanza have been read. -/
def Mode.InRange (len : Nat) : Mode → Prop
  | outside => len = 0
  | question idx => len ≤ idx ∧ 4 ≤ idx ∧ idx ≤ len + 4
  | exclamation idx => len ≤ idx ∧ 7 ≤ idx ∧ idx ≤ len + 7
  | cdata => 7 ≤ len
  | _ => 0 < len

structure Sane (s : Scanner) : Prop where
  mode : s.mode.InRange s.part.length
  depth : s.depth ≤ s.part.length

/-- What a branch may do to a sane scanner. -/
def Scanner.Move.Safe (s : Scanner) (b : UInt8) : Scanner.Move → Prop
  | .fall t => Sane (t.push b)
  | .ret (.ok _) t => Sane t
  | .ret (.err e) _ => ∀ k m, e = .expectedBytes k m → s.mode = .endStream
  | .ret .panic _ => False

section

variable {s : Scanner} {b : UInt8}

theorem sane_idle (e : Nat) : Sane (.idle e) := ⟨rfl, Nat.le_refl 0⟩

theorem safe_fall {d : Nat} {m : Mode} (hm : m.InRange (s.part.length + 1)) (hd : d ≤ s.part.length + 1) :
    (Scanner.Move.fall { s with depth := d, mode := m }).Safe s b := by
  constructor
  · change m.InRange (s.part ++ [b]).length
    rwa [List.length_append]
  · change d ≤ (s.part ++ [b]).length
    rwa [List.length_append]

theorem safe_stay (hm : s.mode.InRange (s.part.length + 1)) (hd : s.depth ≤ s.part.length + 1) :
    (Scanner.Move.fall s).Safe s b := safe_fall hm hd

theorem safe_illegal (s : Scanner) (b : UInt8) : (s.illegal b).Safe s b := fun _ _ h => by cases h

theorem safe_subDepth {t : Scanner} {n : Nat} {k : Scanner → Scanner.Move}
    (hk : ∀ d, d ≤ t.depth → (k { t with depth := d }).Safe s b) : (t.subDepth n k).Safe s b := by
  unfold Scanner.subDepth checkedSub
  split_ifs
  · exact fun _ _ h => by cases h
  · exact hk _ (Nat.sub_le _ _)

theorem safe_ifLastEquals {needle : Bytes} {yes no : Scanner.Move}
    (hlen : needle.length - 1 ≤ s.part.length ∨ s.mode = .endStream) (hyes : yes.Safe s b)
    (hno : no.Safe s b) : (s.ifLastEquals b needle yes no).Safe s b := by
  unfold Scanner.ifLastEquals
  split_ifs with h
  · exact hyes
  · exact hno
  · exact fun _ _ _ => hlen.resolve_left h

theorem safe_afterTag {t : Scanner} (hpart : t.part = s.part) (hd : t.depth ≤ s.part.length) :
    (t.afterTag b).Safe s b := by
  unfold Scanner.afterTag
  split_ifs
  · exact sane_idle _
  · exact sane_idle _
  · have hfall := safe_fall (s := t) (b := b) (d := t.depth) (m := .between) (Nat.succ_pos _)
      (by rw [hpart]; omega)
    exact hfall

theorem safe_tagClosed (hs : 0 < s.part.length) (hd : s.depth ≤ s.part.length) :
    (s.tagClosed b).Safe s b := by
  have hpart := s.markFirstTag_part
  have hdepth := s.markFirstTag_depth
  unfold Scanner.tagClosed
  split
  next hnone =>
    rw [List.getLast?_eq_none_iff.mp hnone] at hs
    exact absurd hs (by simp)
  next =>
    split_ifs
    · refine safe_subDepth fun d hle => safe_afterTag hpart ?_
      rw [hdepth] at hle
      exact Nat.le_trans hle hd
    · exact safe_afterTag hpart (by rw [hdepth]; exact hd)

theorem Sane.dispatch (h : Sane s) (b : UInt8) : (s.dispatch b).Safe s b := by
  have hm := h.mode
  have hd : s.depth ≤ s.part.length + 1 := Nat.le_succ_of_le h.depth
  have hstay : s.mode.InRange (s.part.length + 1) → (Scanner.Move.fall s).Safe s b := (safe_stay · hd)
  unfold Scanner.dispatch
  cases hmode : s.mode <;> rw [hmode] at hm hstay <;> dsimp only [Mode.InRange] at hm hstay ⊢
  case outside =>
    split_ifs
    · exact safe_fall (Nat.succ_pos _) (Nat.succ_le_succ h.depth)
    · exact h
  case between =>
    split_ifs
    · exact safe_fall (Nat.succ_pos _) (Nat.succ_le_succ h.depth)
    · exact hstay (Nat.succ_pos _)
  case stanzaFirst =>
    split_ifs
    · exact safe_fall (Nat.succ_pos _) hd
    · exact safe_illegal s b
    · exact safe_fall ⟨by omega, by omega, by omega⟩ hd
    · exact safe_fall (Nat.succ_pos _) hd
  case tagFirst =>
    split_ifs
    · exact safe_subDepth fun d hle => safe_fall (Nat.succ_pos _) (Nat.le_trans hle hd)
    · exact safe_fall ⟨by omega, by omega, by omega⟩ hd
    · exact safe_illegal s b
    · exact safe_fall (Nat.succ_pos _) hd
  case tag =>
    split_ifs
    · exact safe_tagClosed hm h.depth
    · exact safe_fall (Nat.succ_pos _) hd
    · exact hstay (Nat.succ_pos _)
  case quoted =>
    split_ifs
    · exact safe_fall (Nat.succ_pos _) hd
    · exact hstay (Nat.succ_pos _)
  case question idx =>
    split_ifs with hi
    · have hlen : (bytes "xml ").length - 1 ≤ s.part.length := by
        change 3 ≤ _
        omega
      exact safe_ifLastEquals (.inl hlen) (safe_fall (Nat.succ_pos _) hd) (safe_illegal s b)
    · exact hstay ⟨by omega, by omega, by omega⟩
  case xmlTag =>
    split_ifs
    · exact sane_idle _
    · exact hstay (Nat.succ_pos _)
  case exclamation idx =>
    split_ifs with hi
    · have hlen : (bytes "[CDATA[").length - 1 ≤ s.part.length := by
        change 6 ≤ _
        omega
      refine safe_ifLastEquals (.inl hlen) (safe_subDepth fun d hle => ?_) (safe_illegal s b)
      exact safe_fall (m := .cdata) (by change 7 ≤ _; omega) (Nat.le_trans hle hd)
    · exact hstay ⟨by omega, by omega, by omega⟩
  case cdata =>
    have hcdata : (Scanner.Move.fall s).Safe s b := hstay (by omega)
    split_ifs
    · have hlen : (bytes "]]>").length - 1 ≤ s.part.length := by
        change 2 ≤ _
        omega
      exact safe_ifLastEquals (.inl hlen) (safe_fall (Nat.succ_pos _) hd) hcdata
    · exact hcdata
  case endStream =>
    split_ifs
    · exact safe_ifLastEquals (.inr hmode) (sane_idle _) (safe_illegal s b)
    · exact hstay (Nat.succ_pos _)

theorem Sane.next {limit : Nat} (h : Sane s) {o : Option Bytes} (hok : (s.next limit b).1 = .ok o) :
    Sane (s.next limit b).2 := by
  have hs := h.dispatch b
  unfold Scanner.next at hok ⊢
  split_ifs at hok ⊢
  cases hd : s.dispatch b with
  | fall t =>
    rw [hd] at hs
    dsimp only [Scanner.advance]
    split_ifs <;> exact hs
  | ret r t =>
    rw [hd] at hs hok
    obtain rfl : r = .ok o := hok
    exact hs

theorem sane_final {limit : Nat} {bs : Bytes} (h : Sane s)
    (hok : ∀ r ∈ (scanNext limit).outputs s bs, r.isOk) : Sane ((scanNext limit).final s bs) := by
  induction bs generalizing s with
  | nil => exact h
  | cons b bs ih =>
    obtain ⟨o, ho⟩ := Outcome.isOk_iff.mp (hok _ (List.mem_cons_self ..))
    exact ih (h.next ho) fun r hr => hok r (List.mem_cons_of_mem _ hr)

end

/-- Somewhere `</` is directly followed by `/` or `!`, or a closing tag ends in `/>`. -/
def Faulty (u : Bytes) : Prop :=
  [lt, slash, slash] <:+: u ∨ [lt, slash, bang] <:+: u ∨
    ∃ m w, NameStart m ∧ Body w ∧ lt :: slash :: m :: (w ++ [slash, gt]) <:+: u

theorem Faulty.append {u : Bytes} (h : Faulty u) (v : Bytes) : Faulty (u ++ v) := by
  have happ : ∀ {x : Bytes}, x <:+: u → x <:+: u ++ v := fun hx => hx.trans (List.prefix_append u v).isInfix
  rcases h with h | h | ⟨m, w, hm, hw, h⟩
  · exact .inl (happ h)
  · exact .inr (.inl (happ h))
  · exact .inr (.inr ⟨m, w, hm, hw, happ h⟩)

/-- A branch does not fail by a subtraction. -/
def Scanner.Move.Subtracts : Scanner.Move → Prop
  | .ret (.err e) _ => e ≠ .invalidStanza
  | _ => True

section

variable {e : Nat} {s : Scanner} {b : UInt8}

theorem subtracts_subDepth {n : Nat} {k : Scanner → Scanner.Move} (hn : n ≤ s.depth)
    (hk : ∀ d, (k { s with depth := d }).Subtracts) : (s.subDepth n k).Subtracts := by
  unfold Scanner.subDepth checkedSub
  rw [if_neg (Nat.not_lt.mpr hn)]
  exact hk _

theorem subtracts_ifLastEquals {needle : Bytes} {yes no : Scanner.Move} (hyes : yes.Subtracts)
    (hno : no.Subtracts) : (s.ifLastEquals b needle yes no).Subtracts := by
  unfold Scanner.ifLastEquals
  split_ifs
  · exact hyes
  · exact hno
  · exact fun h => by cases h

theorem subtracts_illegal (s : Scanner) (b : UInt8) : (s.illegal b).Subtracts := fun h => by cases h

theorem subtracts_afterTag (s : Scanner) (b : UInt8) : (s.afterTag b).Subtracts := by
  unfold Scanner.afterTag
  split_ifs <;> trivial

theorem subtracts_tagClosed (hd : s.part.getLast? = some slash → 1 ≤ s.depth) :
    (s.tagClosed b).Subtracts := by
  have hdepth := s.markFirstTag_depth
  unfold Scanner.tagClosed
  split
  · trivial
  next c hc =>
    split_ifs with hslash
    · subst hslash
      exact subtracts_subDepth (hdepth ▸ hd hc) fun d => subtracts_afterTag _ b
    · exact subtracts_afterTag _ b

theorem InTag.depth_pos {d e' : Nat} {p : Bytes} (h : InTag e d e' p false) : 1 ≤ d := by
  obtain ⟨q, n, w, -, -, -, ⟨-, rfl, -⟩ | ⟨k, rfl, -⟩⟩ := h
  · exact Nat.le_refl 1
  · exact Nat.succ_pos k

theorem Shape.subtracts (h : Shape e s) (hf : ¬ s.Fault b) : (s.dispatch b).Subtracts := by
  obtain ⟨p, d, e', m⟩ := s
  unfold Scanner.dispatch
  cases m <;> dsimp only [Shape] at h ⊢
  case stanzaFirst =>
    split_ifs
    · trivial
    · exact subtracts_illegal _ b
    · trivial
    · trivial
  case tagFirst closing =>
    split_ifs with h1
    · refine subtracts_subDepth ?_ fun d => trivial
      cases closing <;> dsimp only at h ⊢
      · obtain ⟨q, k, -, rfl, hin⟩ := h
        have := hin.depth_ne
        omega
      · exact absurd ⟨rfl, .inl h1⟩ hf
    · trivial
    · exact subtracts_illegal _ b
    · trivial
  case tag closing =>
    split_ifs with h1
    · refine subtracts_tagClosed fun hl => ?_
      cases closing with
      | false => exact InTag.depth_pos h
      | true => exact absurd ⟨rfl, h1, hl⟩ hf
    · trivial
    · trivial
  case question =>
    split_ifs
    · exact subtracts_ifLastEquals trivial (subtracts_illegal _ b)
    · trivial
  case exclamation =>
    obtain ⟨q, w, k, -, -, -, rfl, -⟩ := h
    split_ifs
    · exact subtracts_ifLastEquals (subtracts_subDepth (Nat.succ_pos k) fun d => trivial)
        (subtracts_illegal _ b)
    · trivial
  case cdata =>
    split_ifs
    · exact subtracts_ifLastEquals trivial trivial
    · trivial
  case endStream =>
    split_ifs
    · exact subtracts_ifLastEquals trivial (subtracts_illegal _ b)
    · trivial
  all_goals split_ifs <;> trivial

theorem endStream_gt (h : s.mode = .endStream) : (s.dispatch gt).Subtracts ∧ ∀ t, s.dispatch gt ≠ .fall t := by
  have hd : s.dispatch gt = s.ifLastEquals gt (bytes "</stream:stream>") (s.markFirstTag.emit gt) (s.illegal gt) := by
    unfold Scanner.dispatch
    rw [h]
    rfl
  rw [hd]
  refine ⟨subtracts_ifLastEquals trivial (subtracts_illegal s gt), fun t ht => ?_⟩
  unfold Scanner.ifLastEquals Scanner.emit Scanner.illegal at ht
  split_ifs at ht

theorem Shape.faulty (h : Shape e s) (hf : s.Fault b) (hend : s.mode ≠ .endStream) :
    Faulty (s.part ++ [b]) := by
  obtain ⟨p, d, e', m⟩ := s
  cases m <;> dsimp only [Scanner.Fault] at hf
  case tagFirst =>
    obtain ⟨rfl, hb⟩ := hf
    obtain ⟨q, hp, -⟩ := h
    dsimp only at hp
    subst hp
    have hsuffix : ∀ c : UInt8, [lt, slash, c] <:+: (q ++ [lt, slash]) ++ [c] :=
      fun c => ⟨q, [], by simp⟩
    rcases hb with rfl | rfl
    · exact .inl (hsuffix slash)
    · exact .inr (.inl (hsuffix bang))
  case tag =>
    obtain ⟨rfl, rfl, hl⟩ := hf
    obtain ⟨q, n, w, hn, hw, hp, -⟩ := h
    dsimp only at hp hl
    subst hp
    rw [getLast?_tag, List.getLast?_cons_cons] at hl
    obtain rfl | ⟨w, c, rfl⟩ := List.eq_nil_or_concat' w
    · exact absurd (Option.some.inj hl) hn.1
    · rw [← List.cons_append, List.getLast?_concat] at hl
      obtain rfl := Option.some.inj hl
      exact .inr (.inr ⟨n, w, hn, hw.of_concat_slash, q, [], by simp⟩)
  case endStream => exact absurd rfl hend

theorem Trace.shape_or_faulty {t : Scanner} {w : Bytes} (h : Trace s w t) (hs : Shape e s) :
    Shape e t ∨ Faulty t.part := by
  induction h with
  | nil => exact .inl hs
  | @cons s s' t b w hd htr ih =>
    by_cases hf : s.Fault b
    · right
      have hend : s.mode ≠ .endStream := by
        intro hm
        have hgt : b = gt := by
          unfold Scanner.Fault at hf
          rw [hm] at hf
          exact hf.1
        subst hgt
        exact (endStream_gt hm).2 s' hd
      rw [htr.part]
      have hpart : (s'.push b).part = s.part ++ [b] := by rw [Scanner.push, Scanner.dispatch_part hd]
      rw [hpart]
      exact (hs.faulty hf hend).append w
    · have hstep := sound_dispatch hs hf
      rw [hd] at hstep
      exact ih hstep

theorem Traced.subtracts (h : Traced s) {t : Scanner} (hd : s.dispatch b = .ret (.err .invalidStanza) t) :
    Faulty (s.part ++ [b]) := by
  obtain ⟨e, htr⟩ := h
  rcases htr.shape_or_faulty (e := e) rfl with hs | hfaulty
  · by_cases hf : s.Fault b
    · refine hs.faulty hf fun hm => ?_
      have hgt : b = gt := by
        unfold Scanner.Fault at hf
        rw [hm] at hf
        exact hf.1
      subst hgt
      have hsub := (endStream_gt hm).1
      rw [hd] at hsub
      exact hsub rfl
    · have hsub := hs.subtracts hf
      rw [hd] at hsub
      exact absurd rfl hsub
  · exact hfaulty.append [b]

end

/-- The counters and the offsets of a filter that has not failed yet. -/
structure InRange (f : StanzaFilter) : Prop where
  cnt_lt : f.cnt < f.buf.length
  insideTag : f.state = .insideTag → 1 ≤ f.cnt
  questionTag : ∀ idx, f.state = .questionTag idx → f.cnt ≤ idx ∧ idx ≤ f.cnt + 4
  exclamationTag : ∀ idx, f.state = .exclamationTag idx → f.cnt ≤ idx ∧ idx ≤ f.cnt + 7
  tagCnt_le : f.tagCnt ≤ f.cnt + 1

/-- What the next byte may meet in it. -/
structure MeetsOnly (f : StanzaFilter) (b : UInt8) : Prop where
  no_panic : (f.next b).1 ≠ .panic
  lastNumBytes : ∀ num w, 1 ≤ num → (f.setBuf f.cnt b).lastNumBytes num = .ok w → w.length = num
  expectedBytes : ∀ num got, (f.next b).1 = .err (.expectedBytes num got) → f.state = .endStream
  checkedSub : (f.next b).1 = .err .invalidStanza → Faulty (f.buf.take f.cnt ++ [b])

section

variable {n : Nat} {f : StanzaFilter} {s : Scanner}

theorem Refines.inRange (h : Refines n f s) (hs : Sane s) (hlt : s.part.length < n) : InRange f := by
  have hm := hs.mode
  have hstate := h.state
  constructor
  · rw [f.length_buf, h.size, h.cnt]
    exact hlt
  · intro hst
    rw [hst] at hstate
    rw [h.cnt]
    cases hmode : s.mode <;> rw [hmode] at hstate hm <;> cases hstate
    exact hm
  · intro idx hst
    rw [hst] at hstate
    rw [h.cnt]
    cases hmode : s.mode <;> rw [hmode] at hstate hm <;> cases hstate
    exact ⟨hm.1, hm.2.2⟩
  · intro idx hst
    rw [hst] at hstate
    rw [h.cnt]
    cases hmode : s.mode <;> rw [hmode] at hstate hm <;> cases hstate
    exact ⟨hm.1, hm.2.2⟩
  · rw [h.tagCnt, h.cnt]
    exact Nat.le_succ_of_le hs.depth

theorem lastNumBytes_length {num : Nat} {w : Bytes} (hlt : f.cnt < f.buf.length) (hnum : 1 ≤ num)
    (h : f.lastNumBytes num = .ok w) : w.length = num := by
  unfold StanzaFilter.lastNumBytes at h
  split_ifs at h
  obtain rfl := Except.ok.inj h
  rw [List.length_drop, List.length_take]
  omega

theorem Refines.meetsOnly (h : Refines n f s) (hs : Sane s) (ht : Traced s) (hlt : s.part.length < n)
    (b : UInt8) : MeetsOnly f b := by
  have hnext := (h.next b).1
  have hsafe := hs.dispatch b
  have hsub : ∀ t, s.dispatch b = .ret (.err .invalidStanza) t → Faulty (s.part ++ [b]) :=
    fun t => ht.subtracts
  have hanswer : (s.next n b).1 ≠ .panic ∧
      (∀ k m, (s.next n b).1 = .err (.expectedBytes k m) → s.mode = .endStream) ∧
      ((s.next n b).1 = .err .invalidStanza → Faulty (s.part ++ [b])) := by
    unfold Scanner.next
    rw [if_pos hlt]
    cases hd : s.dispatch b with
    | fall t =>
      dsimp only [Scanner.advance]
      split_ifs
      · exact ⟨by simp, fun k m h' => by simp at h', fun h' => by simp at h'⟩
      · exact ⟨by simp, fun k m h' => by simp at h', fun h' => by simp at h'⟩
    | ret r t =>
      rw [hd] at hsafe hsub
      obtain o | e | _ := r
      · exact ⟨by simp, fun k m h' => by simp at h', fun h' => by simp at h'⟩
      · refine ⟨by simp, fun k m h' => hsafe k m (Outcome.err.inj h'), fun h' => ?_⟩
        exact hsub t (by rw [Outcome.err.inj h'])
      · exact hsafe.elim
  rw [← hnext] at hanswer
  obtain ⟨hpanic, hexpected, hinvalid⟩ := hanswer
  refine ⟨hpanic, fun num w hnum => lastNumBytes_length ?_ hnum, fun k m h' => ?_, fun h' => ?_⟩
  · change f.cnt < (f.buf.set f.cnt b).length
    rw [List.length_set, f.length_buf, h.size, h.cnt]
    exact hlt
  · rw [h.state, hexpected k m h']
    rfl
  · rw [h.take]
    exact hinvalid h'

end

/-- In every state that a new filter reaches without an error, and for every next byte: nothing is
indexed out of range, and what fails is known. -/
theorem safe_until_error (n : Nat) (hn : 1 ≤ n) (bs : Bytes)
    (hok : ∀ r ∈ filterNext.outputs (.new n) bs, r.isOk) :
    InRange (filterNext.final (.new n) bs) ∧ ∀ b, MeetsOnly (filterNext.final (.new n) bs) b := by
  have href := (filterNext_refines n).final (refines_new n) bs
  rw [(filterNext_refines n).outputs_eq (refines_new n)] at hok
  have hs : Sane ((scanNext n).final (.idle 0) bs) := sane_final (sane_idle 0) hok
  have ht : Traced ((scanNext n).final (.idle 0) bs) := traced_final ⟨0, .nil⟩ hok
  have hlt := room_final hn (show (Scanner.idle 0).part.length < n from hn) hok
  exact ⟨href.inRange hs hlt, href.meetsOnly hs ht hlt⟩

theorem safe_until_error_four :
    InRange (filterNext.final (.new 4) (bytes "x<a")) ∧
      ∀ b, MeetsOnly (filterNext.final (.new 4) (bytes "x<a")) b :=
  safe_until_error 4 (by decide) (bytes "x<a") (by decide)

end XmppProxy.Stanza
