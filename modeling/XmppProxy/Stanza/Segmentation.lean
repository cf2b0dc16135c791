import XmppProxy.Stanza.History

/-! Segmentation: the filter cuts a stream of units into exactly these units, and what it emits from
any stream is a unit exactly when no close tag in the bytes since the last one is misread. -/

namespace XmppProxy.Stanza

open Lib

theorem StanzaUnit.pos {u : Bytes} (h : StanzaUnit u) : 0 < u.length := by
  obtain ⟨e, hm⟩ := h.marks 0
  obtain ⟨w, b, _, rfl, -⟩ := hm.scans
  rw [List.length_append, List.length_singleton]
  exact Nat.succ_pos _

theorem gap_run {limit e : Nat} (hl : 0 < limit) {w : Bytes} (hw : lt ∉ w) :
    (scanNext limit).outputs (.idle e) w = List.replicate w.length (.ok none) ∧
      (scanNext limit).final (.idle e) w = .idle e := by
  induction w with
  | nil => exact ⟨rfl, rfl⟩
  | cons b w ih =>
    obtain ⟨hb, hw⟩ := not_or.mp (mt List.mem_cons.mpr hw)
    have hstep : (scanNext limit).step (.idle e) b = (.ok none, .idle e) := by
      change (Scanner.idle e).next limit b = _
      unfold Scanner.next
      rw [if_pos (show (Scanner.idle e).part.length < limit from hl)]
      simp only [Scanner.dispatch, Scanner.idle, if_neg (Ne.symm hb)]
    obtain ⟨ho, hf⟩ := ih hw
    rw [Machine.outputs_cons, Machine.final_cons, hstep, ho, hf]
    exact ⟨rfl, rfl⟩

def answers (u : Bytes × Bytes) : List (Outcome (Option Bytes)) :=
  List.replicate (u.1.length - 1) (.ok none) ++ .ok (some u.1) :: List.replicate u.2.length (.ok none)

theorem units_run {limit : Nat} :
    ∀ {us : List (Bytes × Bytes)} {e : Nat},
      (∀ u ∈ us, StanzaUnit u.1 ∧ u.1.length ≤ limit ∧ lt ∉ u.2) →
      (scanNext limit).outputs (.idle e) (us.flatMap fun u => u.1 ++ u.2) = us.flatMap answers ∧
        ∃ e', (scanNext limit).final (.idle e) (us.flatMap fun u => u.1 ++ u.2) = .idle e' := by
  intro us
  induction us with
  | nil => intro e _; exact ⟨rfl, e, rfl⟩
  | cons u us ih =>
    intro e hus
    obtain ⟨hunit, hlen, hgap⟩ := hus u (List.mem_cons_self ..)
    obtain ⟨e₁, hmarks⟩ := hunit.marks e
    have hpos : 0 < limit := Nat.lt_of_lt_of_le hunit.pos hlen
    obtain ⟨ho, hf⟩ := hmarks.scans.run hlen
    obtain ⟨ho', hf'⟩ := gap_run (e := e₁) hpos hgap
    obtain ⟨ho'', e₂, hf''⟩ := ih (e := e₁) fun v hv => hus v (List.mem_cons_of_mem _ hv)
    rw [List.flatMap_cons, List.flatMap_cons]
    refine ⟨?_, e₂, ?_⟩
    · rw [Machine.outputs_append, Machine.outputs_append, Machine.final_append, hf, hf', ho, ho', ho'']
      simp [answers]
    · rw [Machine.final_append, Machine.final_append, hf, hf', hf'']

def emitted (os : List (Outcome (Option Bytes))) : List Bytes :=
  os.filterMap fun
    | .ok o => o
    | _ => none

theorem emitted_append (os os' : List (Outcome (Option Bytes))) :
    emitted (os ++ os') = emitted os ++ emitted os' := List.filterMap_append

theorem emitted_silence (k : Nat) : emitted (List.replicate k (.ok none)) = [] := by
  induction k with
  | zero => rfl
  | succ k ih => exact ih

theorem emitted_answers (us : List (Bytes × Bytes)) :
    emitted (us.flatMap answers) = us.map Prod.fst := by
  induction us with
  | nil => rfl
  | cons u us ih =>
    rw [List.flatMap_cons, emitted_append, ih, answers, emitted_append, emitted_silence]
    change u.1 :: emitted (List.replicate u.2.length (.ok none)) ++ _ = _
    rw [emitted_silence]
    rfl

/-- Units of at most `n` bytes, each followed by bytes outside of stanzas, are answered on their last
bytes and nowhere else. A filter without a buffer cannot even skip the bytes of `lead`. -/
theorem units_segmented (n : Nat) (lead : Bytes) (us : List (Bytes × Bytes))
    (hlead : lt ∉ lead) (hn : lead = [] ∨ us ≠ [] ∨ 0 < n)
    (hus : ∀ u ∈ us, StanzaUnit u.1 ∧ u.1.length ≤ n ∧ lt ∉ u.2) :
    let os := filterNext.outputs (.new n) (lead ++ us.flatMap fun u => u.1 ++ u.2)
    os = List.replicate lead.length (.ok none) ++ us.flatMap answers ∧
      emitted os = us.map Prod.fst := by
  have hlead' : (scanNext n).outputs (.idle 0) lead = List.replicate lead.length (.ok none) ∧
      (scanNext n).final (.idle 0) lead = .idle 0 := by
    rcases hn with rfl | hne | hpos
    · exact ⟨rfl, rfl⟩
    · obtain ⟨u, us, rfl⟩ := List.exists_cons_of_ne_nil hne
      obtain ⟨hunit, hlen, -⟩ := hus u (List.mem_cons_self ..)
      exact gap_run (Nat.lt_of_lt_of_le hunit.pos hlen) hlead
    · exact gap_run hpos hlead
  have hos : filterNext.outputs (.new n) (lead ++ us.flatMap fun u => u.1 ++ u.2) =
      List.replicate lead.length (.ok none) ++ us.flatMap answers := by
    rw [(filterNext_refines n).outputs_eq (refines_new n), Machine.outputs_append, hlead'.1, hlead'.2,
      (units_run hus).1]
  refine ⟨hos, ?_⟩
  rw [hos, emitted_append, emitted_silence, emitted_answers]
  rfl

theorem units_segmented_two :
    let os := filterNext.outputs (.new 11) (bytes " <?xml ?>\n<a b='/>'/>x")
    os = List.replicate 1 (.ok none) ++
        (answers (bytes "<?xml ?>", [10]) ++ answers (bytes "<a b='/>'/>", [120])) ∧
      emitted os = [bytes "<?xml ?>", bytes "<a b='/>'/>"] := by
  have hx : StanzaUnit (bytes "<?xml ?>") := .xmlDecl (w := [quest]) (by decide)
  have hname : NameStart 97 := ⟨by decide, by decide, by decide, by decide, by unfold IsQuote; decide⟩
  have hbyte : ∀ b ∈ bytes " b=", b ≠ gt ∧ ¬ IsQuote b := by unfold IsQuote; decide
  have hbody : Body (bytes " b='/>'") :=
    .byte (hbyte _ (by decide)).1 (hbyte _ (by decide)).2 <|
    .byte (hbyte _ (by decide)).1 (hbyte _ (by decide)).2 <|
    .byte (hbyte _ (by decide)).1 (hbyte _ (by decide)).2 <|
    .quoted (v := [slash, gt]) (.inl rfl) (by decide) .nil
  have htag : EmptyTag (bytes "<a b='/>'/>") := .mk hname hbody
  have ha : StanzaUnit (bytes "<a b='/>'/>") := .element (.empty htag) htag.not_stream
  refine units_segmented 11 [32] [(bytes "<?xml ?>", [10]), (bytes "<a b='/>'/>", [120])] (by decide)
    (.inr (.inr (by decide))) ?_
  intro u hu
  rcases List.mem_cons.mp hu with rfl | hu
  · exact ⟨hx, by decide, by decide⟩
  · obtain rfl := List.mem_singleton.mp hu
    exact ⟨ha, by decide, by decide⟩

/-- The bytes are read from `s` on without a fault, up to the end of the stanza. -/
def Scanner.Clean : Scanner → Bytes → Prop
  | _, [] => True
  | s, b :: w => ¬ s.Fault b ∧
    match s.dispatch b with
    | .fall t => (t.push b).Clean w
    | .ret _ _ => True

instance Scanner.decidableClean : ∀ (s : Scanner) (w : Bytes), Decidable (s.Clean w)
  | _, [] => inferInstanceAs (Decidable True)
  | s, b :: w =>
    have : Decidable (match s.dispatch b with
      | .fall t => (t.push b).Clean w
      | .ret _ _ => True) :=
      match s.dispatch b with
      | .fall t => decidableClean (t.push b) w
      | .ret _ _ => inferInstanceAs (Decidable True)
    inferInstanceAs (Decidable (_ ∧ _))

/-- `Trace s w t`: the bytes `w`, read from `s`, fall through to `t` whether or not a fault is among
them. -/
inductive Trace : Scanner → Bytes → Scanner → Prop where
  | nil {s : Scanner} : Trace s [] s
  | cons {s s' t : Scanner} {b : UInt8} {w : Bytes} : s.dispatch b = .fall s' →
      Trace (s'.push b) w t → Trace s (b :: w) t

theorem Trace.concat {s t t' : Scanner} {w : Bytes} {b : UInt8} (h : Trace s w t)
    (hd : t.dispatch b = .fall t') : Trace s (w ++ [b]) (t'.push b) := by
  induction h with
  | nil => exact .cons hd .nil
  | cons hd' _ ih => exact .cons hd' (ih hd)

theorem Trace.part {s t : Scanner} {w : Bytes} (h : Trace s w t) : t.part = s.part ++ w := by
  induction h with
  | nil => simp
  | cons hd _ ih =>
    rw [ih, Scanner.push, Scanner.dispatch_part hd, List.append_assoc]
    rfl

theorem Trace.clean_concat {s t : Scanner} {w : Bytes} (h : Trace s w t) {b : UInt8} :
    s.Clean (w ++ [b]) ↔ s.Clean w ∧ ¬ t.Fault b := by
  induction h with
  | nil =>
    refine ⟨fun h => ⟨trivial, h.1⟩, fun h => ⟨h.2, ?_⟩⟩
    split <;> trivial
  | cons hd _ ih =>
    rw [List.cons_append, Scanner.Clean, Scanner.Clean, hd]
    dsimp only
    rw [ih, and_assoc]

theorem Trace.shape {e : Nat} {s t : Scanner} {w : Bytes} (h : Trace s w t) (hs : Shape e s)
    (hc : s.Clean w) : Shape e t := by
  induction h with
  | nil => exact hs
  | cons hd _ ih =>
    obtain ⟨hf, hrest⟩ := hc
    have hstep := sound_dispatch hs hf
    rw [hd] at hstep hrest
    exact ih hstep hrest

theorem Reads.clean {s t : Scanner} {w : Bytes} (h : Reads s w t) {b : UInt8} (hb : ¬ t.Fault b)
    (hend : ∀ t', t.dispatch b ≠ .fall t') : s.Clean (w ++ [b]) := by
  induction h with
  | nil =>
    refine ⟨hb, ?_⟩
    split
    next hd => exact absurd hd (hend _)
    next => trivial
  | cons hf hd _ ih =>
    refine ⟨hf, ?_⟩
    rw [hd]
    exact ih hb hend

theorem Scans.clean {e e' : Nat} {u : Bytes} (h : Scans e u e') : (Scanner.idle e).Clean u := by
  obtain ⟨w, b, s, rfl, hr, hf, hd⟩ := h
  refine hr.clean hf fun t' ht => ?_
  rw [hd] at ht
  exact absurd ht (by simp)

theorem SameBut.clean {s t : Scanner} (h : SameBut s t) {w : Bytes} : s.Clean w → t.Clean w := by
  induction w generalizing s t with
  | nil => exact id
  | cons b w ih =>
    rintro ⟨hf, hrest⟩
    refine ⟨mt h.fault.mpr hf, ?_⟩
    have hd := h.dispatch b
    cases hs : s.dispatch b <;> cases ht : t.dispatch b <;> rw [hs, ht] at hd <;> rw [hs] at hrest
    case fall.fall s' t' => exact ih (hd.push b) hrest
    case ret.ret => trivial
    all_goals exact hd.elim

def Traced (s : Scanner) : Prop := ∃ e, Trace (.idle e) s.part s

theorem Traced.next {limit : Nat} {s : Scanner} {b : UInt8} {o : Option Bytes} (h : Traced s)
    (hok : (s.next limit b).1 = .ok o) : Traced (s.next limit b).2 := by
  have ht := Scanner.turn_next limit s b
  generalize (s.next limit b).1 = r at hok ht
  generalize (s.next limit b).2 = t at ht
  subst hok
  cases ht with
  | skip => exact h
  | @push t hd _ =>
    obtain ⟨e, he⟩ := h
    refine ⟨e, ?_⟩
    have := he.concat hd
    rwa [← show (t.push b).part = s.part ++ [b] by
      rw [Scanner.push, Scanner.dispatch_part hd]] at this
  | emit e => exact ⟨e, .nil⟩

theorem traced_final {limit : Nat} {bs : Bytes} {s : Scanner} (h : Traced s)
    (hok : ∀ r ∈ (scanNext limit).outputs s bs, r.isOk) :
    Traced ((scanNext limit).final s bs) := by
  induction bs generalizing s with
  | nil => exact h
  | cons b bs ih =>
    obtain ⟨o, ho⟩ := Outcome.isOk_iff.mp (hok _ (List.mem_cons_self ..))
    exact ih (h.next ho) fun r hr => hok r (List.mem_cons_of_mem _ hr)

theorem room_final {limit : Nat} {s : Scanner} {bs : Bytes} (hl : 0 < limit) (hs : s.part.length < limit)
    (hok : ∀ r ∈ (scanNext limit).outputs s bs, r.isOk) :
    ((scanNext limit).final s bs).part.length < limit := by
  induction bs generalizing s with
  | nil => exact hs
  | cons b bs ih =>
    refine ih ?_ fun r hr => hok r (List.mem_cons_of_mem _ hr)
    have hturn := s.turn_next limit b
    obtain ⟨o, ho⟩ := Outcome.isOk_iff.mp (hok _ (List.mem_cons_self ..))
    change (s.next limit b).1 = .ok o at ho
    change (s.next limit b).2.part.length < limit
    rw [ho] at hturn
    generalize (s.next limit b).2 = t at hturn
    cases hturn with
    | skip => exact hs
    | push _ hlt => exact hlt
    | emit => exact hl

theorem StanzaUnit.clean {u : Bytes} (h : StanzaUnit u) : (Scanner.idle 0).Clean u := by
  obtain ⟨e, hm⟩ := h.marks 0
  exact hm.scans.clean

/-- Bytes that come to a close tag which the code miscounts. What is in front of it begins an element and leaves
some elements open: there `</` is followed by `/` or `!`, or the close tag ends in `/>`. A `</` that is in front
of everything belongs to the end of the stream. -/
inductive Misread : Bytes → Prop where
  | slashed {o p r : Bytes} {d : Nat} {x : UInt8} : OpenTag o → ¬ StreamOpen o → Open o d p →
      x = slash ∨ x = bang → Misread (p ++ lt :: slash :: x :: r)
  | selfClosed {o p w r : Bytes} {d : Nat} {m : UInt8} : OpenTag o → ¬ StreamOpen o → Open o d p →
      NameStart m → Body w → Misread (p ++ lt :: slash :: m :: (w ++ slash :: gt :: r))
  | junk {r : Bytes} : lt :: slash :: r ≠ bytes "</stream:stream>" → Misread (lt :: slash :: r)

theorem Open.reads {o p : Bytes} {d : Nat} (h : Open o d p) (ho : OpenTag o) (hs : ¬ StreamOpen o) (e : Nat) :
    Reads (.idle e) p ⟨p, d, markAt e (o.length - 1), .between⟩ := by
  have hnot : NotStream o := fun _ => ho.not_stream hs
  have he : markAt e (o.length - 1) ≠ 0 := markAt_ne_zero (by have := ho.length_pos; omega)
  induction h with
  | root hc => exact (reads_root ho hs e).append (reads_content hc he (by decide) hnot)
  | @nest d p t c hp ht hc ih =>
    have hnot' : NotStream (p ++ t) := by
      obtain ⟨x, rfl⟩ := hp.isPrefix
      exact (hnot.append x).append t
    have hinner := reads_content hc he (d := d + 1) (by omega) hnot'
    rw [List.append_assoc] at hinner
    exact ih.append ((reads_open ht hp.pos he).append hinner)

theorem Reads.clean_rest {s t : Scanner} {w r : Bytes} (h : Reads s w t) (hc : s.Clean (w ++ r)) : t.Clean r := by
  induction h with
  | nil => exact hc
  | cons _ hd _ ih =>
    obtain ⟨-, hrest⟩ := hc
    rw [hd] at hrest
    exact ih hrest

theorem StanzaUnit.eq_of_close {r : Bytes} (h : StanzaUnit (lt :: slash :: r)) :
    lt :: slash :: r = bytes "</stream:stream>" := by
  generalize hu : lt :: slash :: r = u at h
  have hopen : ∀ {t x : Bytes}, OpenTag t → lt :: slash :: r ≠ t ++ x := by
    rintro _ x ⟨hn, -, -⟩ he
    exact hn.1 (List.cons.inj (List.cons.inj he).2).1.symm
  cases h with
  | xmlDecl _ => exact absurd (List.cons.inj (List.cons.inj hu).2).1 (by decide)
  | streamOpen h => exact absurd (hu.trans (List.append_nil _).symm) (hopen h.1)
  | streamClose => rfl
  | element h _ =>
    cases h with
    | empty ht =>
      obtain ⟨hn, -⟩ := ht
      exact absurd (List.cons.inj (List.cons.inj hu).2).1.symm hn.1
    | node ho _ _ => exact absurd hu (hopen ho)

theorem StanzaUnit.not_misread {u : Bytes} (h : StanzaUnit u) : ¬ Misread u := by
  intro hm
  have hclean := h.clean
  cases hm with
  | @slashed o p r d x ho hs hp hx =>
    obtain ⟨d, rfl⟩ := Nat.exists_eq_succ_of_ne_zero hp.pos
    have hreads := ((hp.reads ho hs 0).append reads_lt).append reads_slash
    have hrest : p ++ lt :: slash :: x :: r = p ++ [lt] ++ [slash] ++ x :: r := by simp
    obtain ⟨hf, -⟩ := hreads.clean_rest (hrest ▸ hclean)
    exact hf ⟨rfl, hx⟩
  | @selfClosed o p w r d m ho hs hp hname hw =>
    obtain ⟨d, rfl⟩ := Nat.exists_eq_succ_of_ne_zero hp.pos
    have hbody : Body (w ++ [slash]) := hw.concat (by decide) (by unfold IsQuote; decide)
    have hreads := (hp.reads ho hs 0).append (reads_closeTag hname hbody)
    have hrest : p ++ lt :: slash :: m :: (w ++ slash :: gt :: r) =
        p ++ (lt :: slash :: m :: (w ++ [slash])) ++ gt :: r := by simp
    obtain ⟨hf, -⟩ := hreads.clean_rest (hrest ▸ hclean)
    refine hf ⟨rfl, rfl, ?_⟩
    rw [getLast?_tag, List.getLast?_cons_cons, ← List.cons_append, List.getLast?_concat]
  | junk hne => exact hne h.eq_of_close

/-- A fault is a close tag that is misread, wherever the bytes go on. -/
theorem Shape.misread {e : Nat} {s : Scanner} (h : Shape e s) {b : UInt8} (hf : s.Fault b) (r : Bytes) :
    Misread (s.part ++ b :: r) := by
  obtain ⟨p, d, e', m⟩ := s
  cases m <;> dsimp only [Scanner.Fault] at hf
  case tagFirst =>
    obtain ⟨rfl, hb⟩ := hf
    obtain ⟨q, rfl, o, ho, hs, hq, -⟩ := h
    simpa using Misread.slashed (r := r) ho hs hq hb
  case tag =>
    obtain ⟨rfl, rfl, hl⟩ := hf
    obtain ⟨q, n, w, hn, hw, rfl, o, ho, hs, hq, -⟩ := h
    rw [getLast?_tag, List.getLast?_cons_cons] at hl
    obtain rfl | ⟨w, c, rfl⟩ := List.eq_nil_or_concat' w
    · exact absurd (Option.some.inj hl) hn.1
    · rw [← List.cons_append, List.getLast?_concat] at hl
      obtain rfl := Option.some.inj hl
      simpa using Misread.selfClosed (r := r) ho hs hq hn hw.of_concat_slash
  case endStream =>
    obtain ⟨rfl, hne⟩ := hf
    obtain ⟨-, w, rfl⟩ := h
    refine .junk (r := w ++ gt :: r) fun he => hne ?_
    have hrest : w ++ gt :: r = bytes "stream:stream" ++ [gt] := (List.cons.inj (List.cons.inj he).2).2
    have hw : w ++ [gt] <+: bytes "stream:stream" ++ [gt] := ⟨r, by rw [List.append_assoc]; exact hrest⟩
    rcases List.prefix_concat_iff.mp hw with h | h
    · rw [List.append_cancel_right h]
      rfl
    · exact absurd (h.subset (List.mem_append_right w (List.mem_singleton_self gt))) (by decide)

theorem Shape.misread_of_not_clean {e : Nat} {w : Bytes} :
    ∀ {s : Scanner}, Shape e s → ¬ s.Clean w → Misread (s.part ++ w) := by
  induction w with
  | nil => exact fun _ hc => absurd trivial hc
  | cons b w ih =>
    intro s hs hc
    by_cases hf : s.Fault b
    · exact hs.misread hf w
    have hstep := sound_dispatch hs hf
    cases hd : s.dispatch b with
    | ret r t => exact absurd ⟨hf, by rw [hd]; trivial⟩ hc
    | fall t =>
      rw [hd] at hstep
      have hrest : ¬ (t.push b).Clean w := fun h => hc ⟨hf, by rw [hd]; exact h⟩
      have hpart : (t.push b).part = s.part ++ [b] := by rw [Scanner.push, Scanner.dispatch_part hd]
      simpa [hpart] using ih hstep hrest

/-- What a traced scanner emits is a unit exactly when no close tag in it is misread. -/
theorem Traced.unit_iff {limit : Nat} {s : Scanner} {b : UInt8} {u : Bytes} (h : Traced s)
    (hu : (s.next limit b).1 = .ok (some u)) : StanzaUnit u ↔ ¬ Misread (s.part ++ [b]) := by
  have ht := Scanner.turn_next limit s b
  generalize (s.next limit b).2 = t at ht
  rw [hu] at ht
  cases ht with
  | emit e' _ hd _ _ =>
    refine ⟨StanzaUnit.not_misread, fun hm => ?_⟩
    have hc : (Scanner.idle 0).Clean (s.part ++ [b]) := by
      by_contra hc
      have hidle : Shape 0 (.idle 0) := rfl
      exact hm (hidle.misread_of_not_clean hc)
    obtain ⟨e, htr⟩ := h
    obtain ⟨hc', hf⟩ := htr.clean_concat.mp ((sameBut_idle 0 e).clean hc)
    have hsound := sound_dispatch (htr.shape (e := e) rfl hc') hf
    rw [hd] at hsound
    obtain ⟨e'', hm, -⟩ := hsound
    exact hm.unit

/-- What a new filter emits before an error is a unit exactly when none of the close tags in the bytes since the
last stanza is misread. -/
theorem emitted_unit_iff (n : Nat) (bs : Bytes) (b : UInt8) (u : Bytes)
    (hok : ∀ r ∈ filterNext.outputs (.new n) bs, r.isOk)
    (hu : ((filterNext.final (.new n) bs).next b).1 = .ok (some u)) :
    StanzaUnit u ↔
      ¬ Misread ((filterNext.final (.new n) bs).buf.take (filterNext.final (.new n) bs).cnt ++ [b]) := by
  have href := (filterNext_refines n).final (refines_new n) bs
  rw [(filterNext_refines n).outputs_eq (refines_new n)] at hok
  rw [href.take]
  apply Traced.unit_iff
  · exact traced_final ⟨0, .nil⟩ hok
  · exact (href.next b).1.symm.trans hu

theorem emitted_unit_iff_empty :
    StanzaUnit (bytes "<a/>") ↔ ¬ Misread (bytes "<a/>") :=
  emitted_unit_iff 8 (bytes " <a/") gt (bytes "<a/>") (by decide) (by decide)

/-- Not every stanza that is emitted is a unit: the `/` of the closing tag closes `a` as well. -/
theorem emits_truncated :
    ¬ ∀ n bs b u, (∀ r ∈ filterNext.outputs (.new n) bs, r.isOk) →
      ((filterNext.final (.new n) bs).next b).1 = .ok (some u) → StanzaUnit u := by
  intro h
  have hu := h 32 (bytes "<a><b></c/") gt (bytes "<a><b></c/>") (by decide) (by decide)
  exact absurd hu.clean (by decide)

end XmppProxy.Stanza
