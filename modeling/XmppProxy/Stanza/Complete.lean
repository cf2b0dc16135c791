import XmppProxy.Stanza.Refinement
import XmppProxy.Stanza.Grammar

/-! The scanner reads every unit of the grammar to its last byte, and answers there with the unit.
The induction over nested content carries the depth. -/

namespace XmppProxy.Stanza

/-- A branch in which the code's bookkeeping leaves the grammar: `</` directly followed by `/` or
`!`, a closing tag that ends in `/>`, and a close tag in front of a stanza that is more than
`</stream:stream>`. -/
def Scanner.Fault (s : Scanner) (b : UInt8) : Prop :=
  match s.mode with
  | .tagFirst closing => closing = true ∧ (b = slash ∨ b = bang)
  | .tag closing => closing = true ∧ b = gt ∧ s.part.getLast? = some slash
  | .endStream => b = gt ∧ s.part ≠ bytes "</stream:stream"
  | _ => False

instance (s : Scanner) (b : UInt8) : Decidable (s.Fault b) := by
  unfold Scanner.Fault
  split <;> infer_instance

/-- `Reads s w t`: from `s`, the bytes `w` lead to `t` inside one stanza, on branches without
fault. -/
inductive Reads : Scanner → Bytes → Scanner → Prop where
  | nil {s : Scanner} : Reads s [] s
  | cons {s s' t : Scanner} {b : UInt8} {w : Bytes} : ¬ s.Fault b → s.dispatch b = .fall s' →
      Reads (s'.push b) w t → Reads s (b :: w) t

/-- `Scans e u e'`: from the idle state the bytes `u` are read and answered, at the last one, with
`u`. -/
def Scans (e : Nat) (u : Bytes) (e' : Nat) : Prop :=
  ∃ w b s, u = w ++ [b] ∧ Reads (.idle e) w s ∧ ¬ s.Fault b ∧
    s.dispatch b = .ret (.ok (some u)) (.idle e')

theorem Reads.append {s t r : Scanner} {u w : Bytes} (h : Reads s u t) (h' : Reads t w r) :
    Reads s (u ++ w) r := by
  induction h with
  | nil => exact h'
  | cons hf hd _ ih => exact .cons hf hd (ih h')

theorem reads_byte {p : Bytes} {d e d' e' : Nat} {m m' : Mode} {b : UInt8}
    (hf : ¬ (⟨p, d, e, m⟩ : Scanner).Fault b)
    (hd : (⟨p, d, e, m⟩ : Scanner).dispatch b = .fall ⟨p, d', e', m'⟩) :
    Reads ⟨p, d, e, m⟩ [b] ⟨p ++ [b], d', e', m'⟩ := .cons hf hd .nil

section

variable {p : Bytes} {d e : Nat}

theorem reads_lt : Reads ⟨p, d, e, .between⟩ [lt] ⟨p ++ [lt], d + 1, e, .tagFirst false⟩ :=
  reads_byte id rfl

theorem reads_text {b : UInt8} (h : b ≠ lt) :
    Reads ⟨p, d, e, .between⟩ [b] ⟨p ++ [b], d, e, .between⟩ := reads_byte id (if_neg h)

theorem reads_slash :
    Reads ⟨p, d + 2, e, .tagFirst false⟩ [slash] ⟨p ++ [slash], d, e, .tagFirst true⟩ := by
  refine reads_byte (by simp [Scanner.Fault]) ?_
  have hsub : checkedSub (d + 2) 2 = .ok d := if_neg (by omega)
  simp only [Scanner.dispatch, Scanner.subDepth, if_pos, hsub]

theorem reads_name {c : Bool} {n : UInt8} (h : NameStart n) :
    Reads ⟨p, d, e, .tagFirst c⟩ [n] ⟨p ++ [n], d, e, .tag c⟩ := by
  obtain ⟨h1, h2, h3, h4, h5⟩ := h
  have hq : ¬ (n = quest ∨ n = gt ∨ n = apos ∨ n = quot) := by
    rintro (h | h | h)
    · exact h3 h
    · exact h4 h
    · exact h5 h
  refine reads_byte (by simp [Scanner.Fault, h1, h2]) ?_
  simp only [Scanner.dispatch, if_neg h1, if_neg h2, if_neg hq]

theorem reads_body {c : Bool} {w : Bytes} (hw : Body w) (p : Bytes) :
    Reads ⟨p, d, e, .tag c⟩ w ⟨p ++ w, d, e, .tag c⟩ := by
  induction hw generalizing p with
  | nil => simpa using Reads.nil
  | @byte b w h hq _ ih =>
    have hb : Reads ⟨p, d, e, .tag c⟩ [b] ⟨p ++ [b], d, e, .tag c⟩ :=
      reads_byte (by simp [Scanner.Fault, h]) (by simp only [Scanner.dispatch, if_neg h]; exact if_neg hq)
    simpa using hb.append (ih (p ++ [b]))
  | @quoted q v w hq hv _ ih =>
    have hgt : q ≠ gt := by rcases hq with rfl | rfl <;> decide
    have hopen : Reads ⟨p, d, e, .tag c⟩ [q] ⟨p ++ [q], d, e, .quoted c q⟩ :=
      reads_byte (by simp [Scanner.Fault, hgt])
        (by simp only [Scanner.dispatch, if_neg hgt]; exact if_pos hq)
    have hin : ∀ (v : Bytes) (p : Bytes), q ∉ v →
        Reads ⟨p, d, e, .quoted c q⟩ v ⟨p ++ v, d, e, .quoted c q⟩ := by
      intro v
      induction v with
      | nil => intro p _; simpa using Reads.nil
      | cons a v ihv =>
        intro p hv
        have ha : a ≠ q := fun h => hv (h ▸ List.mem_cons_self ..)
        have h1 : Reads ⟨p, d, e, .quoted c q⟩ [a] ⟨p ++ [a], d, e, .quoted c q⟩ :=
          reads_byte id (if_neg ha)
        simpa using h1.append (ihv (p ++ [a]) fun h => hv (List.mem_cons_of_mem _ h))
    have hclose : Reads ⟨p ++ [q] ++ v, d, e, .quoted c q⟩ [q] ⟨p ++ [q] ++ v ++ [q], d, e, .tag c⟩ :=
      reads_byte id (if_pos rfl)
    simpa using ((hopen.append (hin v _ hv)).append hclose).append (ih _)

theorem reads_openTag {n : UInt8} {w : Bytes} (hn : NameStart n) (hw : Body w) :
    Reads ⟨p, d, e, .between⟩ (lt :: n :: w) ⟨p ++ lt :: n :: w, d + 1, e, .tag false⟩ := by
  simpa using (reads_lt.append (reads_name hn)).append (reads_body hw _)

theorem reads_closeTag {m : UInt8} {w : Bytes} (hm : NameStart m) (hw : Body w) :
    Reads ⟨p, d + 1, e, .between⟩ (lt :: slash :: m :: w)
      ⟨p ++ lt :: slash :: m :: w, d, e, .tag true⟩ := by
  simpa using ((reads_lt.append reads_slash).append (reads_name hm)).append (reads_body hw _)

theorem reads_rootTag {n : UInt8} {w : Bytes} (hn : NameStart n) (hw : Body w) :
    Reads (.idle e) (lt :: n :: w) ⟨lt :: n :: w, 1, e, .tag false⟩ := by
  obtain ⟨h1, h2, h3, h4, h5⟩ := hn
  have hq : ¬ (n = bang ∨ n = gt ∨ n = apos ∨ n = quot) := by
    rintro (h | h | h)
    · exact h2 h
    · exact h4 h
    · exact h5 h
  have hlt : Reads (.idle e) [lt] ⟨[lt], 1, e, .stanzaFirst⟩ := reads_byte id rfl
  have hname : Reads ⟨[lt], 1, e, .stanzaFirst⟩ [n] ⟨[lt, n], 1, e, .tag false⟩ :=
    reads_byte id (by simp only [Scanner.dispatch, if_neg h1, if_neg hq, if_neg h3])
  simpa using (hlt.append hname).append (reads_body hw _)

theorem markFirstTag_eq (m : Mode) :
    (⟨p, d, e, m⟩ : Scanner).markFirstTag = ⟨p, d, markAt e p.length, m⟩ := by
  unfold Scanner.markFirstTag markAt
  split <;> rfl

theorem dispatch_gt {c : Bool} {x : UInt8} (hl : p.getLast? = some x) (hx : x ≠ slash) :
    (⟨p, d, e, .tag c⟩ : Scanner).dispatch gt =
      Scanner.afterTag ⟨p, d, markAt e p.length, .tag c⟩ gt := by
  simp only [Scanner.dispatch, if_pos, Scanner.tagClosed, hl, if_neg hx, markFirstTag_eq]

theorem dispatch_gt_slash {c : Bool} (hl : p.getLast? = some slash) :
    (⟨p, d + 1, e, .tag c⟩ : Scanner).dispatch gt =
      Scanner.afterTag ⟨p, d, markAt e p.length, .tag c⟩ gt := by
  have hsub : checkedSub (d + 1) 1 = .ok d := if_neg (by omega)
  simp only [Scanner.dispatch, if_pos, Scanner.tagClosed, hl, markFirstTag_eq, Scanner.subDepth, hsub]

theorem afterTag_between {m : Mode} (hd : d ≠ 0)
    (hs : d = 1 → ¬ bytes "<stream:stream " <+: p ++ [gt]) :
    Scanner.afterTag ⟨p, d, e, m⟩ gt = .fall ⟨p, d, e, .between⟩ := by
  unfold Scanner.afterTag
  rw [if_neg hd, if_neg fun h => hs h.1 h.2]

theorem afterTag_emit {m : Mode} (h : d = 0 ∨ d = 1 ∧ bytes "<stream:stream " <+: p ++ [gt]) :
    Scanner.afterTag ⟨p, d, e, m⟩ gt = .ret (.ok (some (p ++ [gt]))) (.idle e) := by
  unfold Scanner.afterTag Scanner.emit
  split_ifs with h1 h2
  · rfl
  · rfl
  · exact absurd h (by simp only [h1, false_or]; exact h2)

theorem getLast?_tag (a n : UInt8) (w : Bytes) : (p ++ a :: n :: w).getLast? = (n :: w).getLast? := by
  rw [List.getLast?_append_cons, List.getLast?_cons_cons]

theorem exists_last {n : UInt8} {w : Bytes} (h : (n :: w).getLast? ≠ some slash) :
    ∃ x, (n :: w).getLast? = some x ∧ x ≠ slash := by
  refine ⟨(n :: w).getLast (List.cons_ne_nil _ _), List.getLast?_eq_getLast_of_ne_nil _, ?_⟩
  intro hx
  exact h (hx ▸ List.getLast?_eq_getLast_of_ne_nil _)

/-- The first tag is over and no stream header: no continuation makes it one. -/
def NotStream (p : Bytes) : Prop := ∀ x, ¬ bytes "<stream:stream " <+: p ++ x

theorem NotStream.append {p : Bytes} (h : NotStream p) (w : Bytes) : NotStream (p ++ w) := by
  intro x
  rw [List.append_assoc]
  exact h _

theorem reads_open {t : Bytes} (ht : OpenTag t) (hd : d ≠ 0) (he : e ≠ 0) :
    Reads ⟨p, d, e, .between⟩ t ⟨p ++ t, d + 1, e, .between⟩ := by
  obtain ⟨hn, hw, hl⟩ := ht
  rename_i n w
  obtain ⟨x, hx, hxs⟩ := exists_last hl
  have hgt : Reads ⟨p ++ lt :: n :: w, d + 1, e, .tag false⟩ [gt]
      ⟨p ++ lt :: n :: w ++ [gt], d + 1, e, .between⟩ := by
    refine reads_byte (by simp [Scanner.Fault]) ?_
    rw [dispatch_gt ((getLast?_tag lt n w).trans hx) hxs, markAt_of_ne he]
    exact afterTag_between (by omega) (by omega)
  simpa using (reads_openTag hn hw).append hgt

theorem reads_empty {t : Bytes} (ht : EmptyTag t) (hd : d ≠ 0) (he : e ≠ 0) (hp : NotStream p) :
    Reads ⟨p, d, e, .between⟩ t ⟨p ++ t, d, e, .between⟩ := by
  obtain ⟨hn, hw⟩ := ht
  rename_i n w
  have hbody : Body (w ++ [slash]) := hw.concat (by decide) (by unfold IsQuote; decide)
  have hl : (p ++ lt :: n :: (w ++ [slash])).getLast? = some slash := by
    rw [getLast?_tag, ← List.cons_append, List.getLast?_append_cons, List.getLast?_singleton]
  have hgt : Reads ⟨p ++ lt :: n :: (w ++ [slash]), d + 1, e, .tag false⟩ [gt]
      ⟨p ++ lt :: n :: (w ++ [slash]) ++ [gt], d, e, .between⟩ := by
    refine reads_byte (by simp [Scanner.Fault]) ?_
    rw [dispatch_gt_slash hl, markAt_of_ne he]
    exact afterTag_between hd fun _ => by simpa using hp (lt :: n :: (w ++ [slash]) ++ [gt])
  simpa using (reads_openTag hn hbody).append hgt

theorem reads_close {t : Bytes} (ht : CloseTag t) (hd : d ≠ 0) (he : e ≠ 0) (hp : NotStream p) :
    Reads ⟨p, d + 1, e, .between⟩ t ⟨p ++ t, d, e, .between⟩ := by
  obtain ⟨hm, hw, hl⟩ := ht
  rename_i m w
  obtain ⟨x, hx, hxs⟩ := exists_last hl
  have hlast : (p ++ lt :: slash :: m :: w).getLast? = some x := by
    rw [getLast?_tag, List.getLast?_cons_cons, hx]
  have hgt : Reads ⟨p ++ lt :: slash :: m :: w, d, e, .tag true⟩ [gt]
      ⟨p ++ lt :: slash :: m :: w ++ [gt], d, e, .between⟩ := by
    refine reads_byte (by simp [Scanner.Fault, hlast, hxs]) ?_
    rw [dispatch_gt hlast hxs, markAt_of_ne he]
    exact afterTag_between hd fun _ => by simpa using hp (lt :: slash :: m :: w ++ [gt])
  simpa using (reads_closeTag hm hw).append hgt

theorem reads_exclamation {i : Nat} (w : Bytes) :
    ∀ {p : Bytes}, p.length + w.length ≤ i →
      Reads ⟨p, d, e, .exclamation i⟩ w ⟨p ++ w, d, e, .exclamation i⟩ := by
  induction w with
  | nil => intro p _; simpa using Reads.nil
  | cons a w ih =>
    intro p hle
    rw [List.length_cons] at hle
    have ha : Reads ⟨p, d, e, .exclamation i⟩ [a] ⟨p ++ [a], d, e, .exclamation i⟩ :=
      reads_byte id (if_neg (show ¬ i = p.length by omega))
    simpa using ha.append (ih (p := p ++ [a]) (by
      rw [List.length_append, List.length_singleton]
      omega))

theorem reads_marker :
    Reads ⟨p, d, e, .between⟩ (bytes "<![CDATA[") ⟨p ++ bytes "<![CDATA[", d, e, .cdata⟩ := by
  have hbang : Reads ⟨p ++ [lt], d + 1, e, .tagFirst false⟩ [bang]
      ⟨p ++ [lt] ++ [bang], d + 1, e, .exclamation ((p ++ [lt]).length + 7)⟩ :=
    reads_byte (by simp [Scanner.Fault]) rfl
  have hskip := reads_exclamation (d := d + 1) (e := e) (i := (p ++ [lt]).length + 7)
    (bytes "[CDATA") (p := p ++ [lt] ++ [bang]) (by simp [bytes])
  have hlast : Reads
      ⟨p ++ [lt] ++ [bang] ++ bytes "[CDATA", d + 1, e, .exclamation ((p ++ [lt]).length + 7)⟩ [91]
      ⟨p ++ [lt] ++ [bang] ++ bytes "[CDATA" ++ [91], d, e, .cdata⟩ := by
    refine reads_byte id ?_
    have hidx : (p ++ [lt]).length + 7 = (p ++ [lt] ++ [bang] ++ bytes "[CDATA").length := by
      simp [bytes]
    have hlen : (bytes "[CDATA[").length - 1 ≤ (p ++ [lt] ++ [bang] ++ bytes "[CDATA").length := by
      simp [bytes]
    have hsuf : bytes "[CDATA[" <:+ p ++ [lt] ++ [bang] ++ bytes "[CDATA" ++ [91] :=
      ⟨p ++ [lt] ++ [bang], by rw [List.append_assoc _ (bytes "[CDATA")]; rfl⟩
    have hsub : checkedSub (d + 1) 1 = .ok d := if_neg (by omega)
    simp only [Scanner.dispatch, if_pos hidx, Scanner.ifLastEquals, if_pos hlen, if_pos hsuf,
      Scanner.subDepth, hsub]
  have heq : bytes "<![CDATA[" = [lt] ++ [bang] ++ bytes "[CDATA" ++ [91] := rfl
  simpa only [heq, List.append_assoc] using ((reads_lt.append hbang).append hskip).append hlast

theorem section_suffix {p s : Bytes} (h : bytes "]]>" <:+ p ++ bytes "<![CDATA[" ++ s ++ [gt]) :
    bytes "]]>" <:+ s ++ [gt] := by
  have hs : 91 :: (s ++ [gt]) <:+ p ++ bytes "<![CDATA[" ++ s ++ [gt] := by
    refine ⟨p ++ bytes "<![CDATA", ?_⟩
    rw [show bytes "<![CDATA[" = bytes "<![CDATA" ++ [91] from rfl]
    simp only [List.append_assoc, List.cons_append, List.nil_append]
  rcases List.suffix_or_suffix_of_suffix h hs with h' | h'
  · rcases List.suffix_cons_iff.mp h' with he | h''
    · exact absurd (List.cons.inj he).1 (by decide)
    · exact h''
  · exact absurd (h'.subset (List.mem_cons_self ..)) (by decide)

theorem reads_section (w : Bytes) :
    ∀ {s : Bytes}, (∀ q, ¬ q ++ bytes "]]>" <+: s ++ w) →
      Reads ⟨p ++ bytes "<![CDATA[" ++ s, d, e, .cdata⟩ w
        ⟨p ++ bytes "<![CDATA[" ++ s ++ w, d, e, .cdata⟩ := by
  induction w with
  | nil => intro s _; simpa using Reads.nil
  | cons a w ih =>
    intro s hs
    have hstep : (⟨p ++ bytes "<![CDATA[" ++ s, d, e, .cdata⟩ : Scanner).dispatch a =
        .fall ⟨p ++ bytes "<![CDATA[" ++ s, d, e, .cdata⟩ := by
      by_cases ha : a = gt
      · subst ha
        have hno : ¬ bytes "]]>" <:+ p ++ bytes "<![CDATA[" ++ s ++ [gt] := by
          intro h
          obtain ⟨q, hq⟩ := section_suffix h
          exact hs q (hq ▸ ⟨w, by simp⟩)
        simp only [Scanner.dispatch, if_pos, Scanner.ifLastEquals, if_neg hno]
        rw [if_pos]
        have hmark : (bytes "<![CDATA[").length = 9 := rfl
        simp only [List.length_append, hmark]
        exact Nat.le_trans (show 2 ≤ 9 by decide) (by omega)
      · exact if_neg ha
    have ha := reads_byte id hstep
    rw [List.append_assoc _ s] at ha
    simpa using ha.append (ih (s := s ++ [a]) fun q => by simpa using hs q)

theorem reads_cdata {t : Bytes} (ht : CData t) :
    Reads ⟨p, d, e, .between⟩ t ⟨p ++ t, d, e, .between⟩ := by
  obtain ⟨hfirst⟩ := ht
  rename_i s
  have hend : bytes "]]>" = bytes "]]" ++ [gt] := rfl
  have hs : ∀ q, ¬ q ++ bytes "]]>" <+: [] ++ (s ++ bytes "]]") := by
    intro q hq
    have hq' : q ++ bytes "]]>" <+: s ++ bytes "]]>" := hq.trans ⟨[gt], by simp [hend]⟩
    have hlen := hq.length_le
    rw [hfirst q hq', hend, List.nil_append, List.length_append, List.length_append,
      List.length_append, List.length_singleton] at hlen
    omega
  have hsection := reads_section (p := p) (d := d) (e := e) _ hs
  rw [List.append_nil] at hsection
  have hgt : Reads ⟨p ++ bytes "<![CDATA[" ++ (s ++ bytes "]]"), d, e, .cdata⟩ [gt]
      ⟨p ++ bytes "<![CDATA[" ++ (s ++ bytes "]]") ++ [gt], d, e, .between⟩ := by
    refine reads_byte id ?_
    have hsuf : bytes "]]>" <:+ p ++ bytes "<![CDATA[" ++ (s ++ bytes "]]") ++ [gt] :=
      ⟨p ++ bytes "<![CDATA[" ++ s, by simp only [hend, List.append_assoc]⟩
    have hlen : (bytes "]]>").length - 1 ≤ (p ++ bytes "<![CDATA[" ++ (s ++ bytes "]]")).length := by
      have hmark : (bytes "<![CDATA[").length = 9 := rfl
      simp only [List.length_append, hmark]
      exact Nat.le_trans (show 2 ≤ 9 by decide) (by omega)
    simp only [Scanner.dispatch, if_pos, Scanner.ifLastEquals, if_pos hlen, if_pos hsuf]
  simpa only [hend, List.append_assoc] using (reads_marker.append hsection).append hgt

theorem reads_content {c : Bytes} (hc : Content c) (he : e ≠ 0) :
    ∀ {p : Bytes} {d : Nat}, d ≠ 0 → NotStream p →
      Reads ⟨p, d, e, .between⟩ c ⟨p ++ c, d, e, .between⟩ := by
  induction hc with
  | nil => intro p d _ _; simpa using Reads.nil
  | text hb _ ih => intro p d hd hp; simpa using (reads_text hb).append (ih hd (hp.append _))
  | cdata ht _ ih => intro p d hd hp; simpa using (reads_cdata ht).append (ih hd (hp.append _))
  | empty ht _ ih =>
    intro p d hd hp
    simpa using (reads_empty ht hd he hp).append (ih hd (hp.append _))
  | @node o c _ w ho _ hcl _ ihc ihw =>
    intro p d hd hp
    have hinner := ihc (p := p ++ o) (d := d + 1) (by omega) (hp.append _)
    have hclose := reads_close hcl hd he ((hp.append o).append c)
    simpa using (((reads_open ho hd he).append hinner).append hclose).append
      (ihw hd (((hp.append _).append _).append _))

end

theorem reads_root {o : Bytes} (ho : OpenTag o) (hs : ¬ StreamOpen o) (e : Nat) :
    Reads (.idle e) o ⟨o, 1, markAt e (o.length - 1), .between⟩ := by
  have hs' : ¬ bytes "<stream:stream " <+: o := by simpa using ho.not_stream hs (x := [])
  obtain ⟨hn, hw, hl⟩ := ho
  rename_i n w
  obtain ⟨x, hx, hxs⟩ := exists_last hl
  have hgt : Reads ⟨lt :: n :: w, 1, e, .tag false⟩ [gt]
      ⟨lt :: n :: w ++ [gt], 1, markAt e (lt :: n :: w).length, .between⟩ := by
    refine reads_byte (by simp [Scanner.Fault]) ?_
    rw [dispatch_gt ((List.getLast?_cons_cons).trans hx) hxs]
    exact afterTag_between (by decide) fun _ => hs'
  simpa using (reads_rootTag hn hw).append hgt

theorem scans_element {first u : Bytes} (h : Element first u) (hs : ¬ StreamOpen first) (e : Nat) :
    Scans e u (markAt e (first.length - 1)) := by
  cases h with
  | empty ht =>
    obtain ⟨hn, hw⟩ := ht
    rename_i n w
    have hbody : Body (w ++ [slash]) := hw.concat (by decide) (by unfold IsQuote; decide)
    have hl : (lt :: n :: (w ++ [slash])).getLast? = some slash := by
      rw [← List.cons_append, ← List.cons_append, List.getLast?_append_cons, List.getLast?_singleton]
    refine ⟨lt :: n :: (w ++ [slash]), gt, _, by simp, reads_rootTag hn hbody,
      by simp [Scanner.Fault], ?_⟩
    rw [dispatch_gt_slash hl, afterTag_emit (.inl rfl)]
    simp
  | @node c cl ho hc hcl =>
    have hlen := ho.length_pos
    have hnot : NotStream first := fun _ => ho.not_stream hs
    obtain ⟨hm, hwm, hlm⟩ := hcl
    rename_i m wm
    obtain ⟨y, hy, hys⟩ := exists_last hlm
    have hroot := reads_root ho hs e
    have he : markAt e (first.length - 1) ≠ 0 := markAt_ne_zero (by omega)
    have hcontent := reads_content hc he (d := 1) (by decide) hnot
    have hclose := reads_closeTag (p := first ++ c) (d := 0) (e := markAt e (first.length - 1)) hm hwm
    have hlast : (first ++ c ++ lt :: slash :: m :: wm).getLast? = some y := by
      rw [getLast?_tag, List.getLast?_cons_cons, hy]
    refine ⟨_, gt, _, by simp, (hroot.append hcontent).append hclose, ?_, ?_⟩
    · exact fun h => hys (Option.some.inj (hlast.symm.trans h.2.2))
    rw [dispatch_gt hlast hys, markAt_of_ne he, afterTag_emit (.inl rfl)]
    simp

theorem scans_streamOpen {t : Bytes} (h : StreamOpen t) (e : Nat) :
    Scans e t (markAt e (t.length - 1)) := by
  obtain ⟨⟨hn, hw, hl⟩, hs⟩ := h
  rename_i n w
  obtain ⟨x, hx, hxs⟩ := exists_last hl
  refine ⟨lt :: n :: w, gt, _, rfl, reads_rootTag hn hw, by simp [Scanner.Fault], ?_⟩
  rw [dispatch_gt ((List.getLast?_cons_cons).trans hx) hxs, afterTag_emit (.inr ⟨rfl, hs⟩)]
  simp

theorem reads_xmlTag {e : Nat} {w : Bytes} :
    ∀ {p : Bytes}, gt ∉ w → Reads ⟨p, 1, e, .xmlTag⟩ w ⟨p ++ w, 1, e, .xmlTag⟩ := by
  induction w with
  | nil => intro p _; simpa using Reads.nil
  | cons a w ih =>
    intro p hw
    have ha : a ≠ gt := fun h => hw (h ▸ List.mem_cons_self ..)
    have h1 : Reads ⟨p, 1, e, .xmlTag⟩ [a] ⟨p ++ [a], 1, e, .xmlTag⟩ := reads_byte id (if_neg ha)
    simpa using h1.append (ih fun h => hw (List.mem_cons_of_mem _ h))

theorem scans_xmlDecl {w : Bytes} (hw : gt ∉ w) (e : Nat) :
    Scans e (bytes "<?xml " ++ (w ++ [gt])) e := by
  have hopen : Reads (.idle e) (bytes "<?xml ") ⟨bytes "<?xml ", 1, e, .xmlTag⟩ :=
    .cons id rfl <| .cons id rfl <| .cons id rfl <| .cons id rfl <| .cons id rfl <| .cons id rfl .nil
  refine ⟨bytes "<?xml " ++ w, gt, _, by simp, hopen.append (reads_xmlTag hw), id, ?_⟩
  simp [Scanner.dispatch, Scanner.emit]

theorem reads_endStream {e : Nat} {w : Bytes} :
    ∀ {p : Bytes}, gt ∉ w → Reads ⟨p, 1, e, .endStream⟩ w ⟨p ++ w, 1, e, .endStream⟩ := by
  induction w with
  | nil => intro p _; simpa using Reads.nil
  | cons a w ih =>
    intro p hw
    have ha : a ≠ gt := fun h => hw (h ▸ List.mem_cons_self ..)
    have h1 : Reads ⟨p, 1, e, .endStream⟩ [a] ⟨p ++ [a], 1, e, .endStream⟩ :=
      reads_byte (fun h => ha h.1) (if_neg ha)
    simpa using h1.append (ih fun h => hw (List.mem_cons_of_mem _ h))

theorem scans_streamClose (e : Nat) : Scans e (bytes "</stream:stream>") (markAt e 15) := by
  have hopen : Reads (.idle e) [lt, slash] ⟨[lt, slash], 1, e, .endStream⟩ :=
    .cons id rfl <| .cons id rfl .nil
  have hrest := reads_endStream (e := e) (p := [lt, slash]) (w := bytes "stream:stream") (by decide)
  refine ⟨bytes "</stream:stream", gt, _, rfl, hopen.append hrest, ?_, ?_⟩
  · rintro ⟨-, h⟩
    exact h rfl
  · have hsuf : bytes "</stream:stream>" <:+ [lt, slash] ++ bytes "stream:stream" ++ [gt] := ⟨[], rfl⟩
    have hlen : (bytes "</stream:stream>").length - 1 ≤ ([lt, slash] ++ bytes "stream:stream").length := by
      decide
    simp only [Scanner.dispatch, if_pos, Scanner.ifLastEquals, if_pos hlen, if_pos hsuf, markFirstTag_eq]
    rfl

theorem Marks.scans {e e' : Nat} {u : Bytes} (h : Marks e u e') : Scans e u e' := by
  cases h with
  | xmlDecl hw => exact scans_xmlDecl hw e
  | streamOpen h => exact scans_streamOpen h e
  | streamClose => exact scans_streamClose e
  | element h hs => exact scans_element h hs e

theorem Reads.run {limit : Nat} {s t : Scanner} {w : Bytes} (h : Reads s w t)
    (hlen : s.part.length + w.length < limit) :
    (scanNext limit).outputs s w = List.replicate w.length (.ok none) ∧
      (scanNext limit).final s w = t := by
  induction h with
  | nil => exact ⟨rfl, rfl⟩
  | @cons s s' t b w _ hd _ ih =>
    rw [List.length_cons] at hlen
    have hpush : (s'.push b).part.length = s.part.length + 1 := by
      rw [← Scanner.dispatch_part hd]
      exact List.length_append
    have hstep : (scanNext limit).step s b = (.ok none, s'.push b) := by
      change s.next limit b = _
      unfold Scanner.next
      rw [if_pos (by omega), hd]
      exact if_neg (by omega)
    obtain ⟨ho, hf⟩ := ih (by omega)
    rw [Lib.Machine.outputs_cons, Lib.Machine.final_cons, hstep, ho, hf]
    exact ⟨rfl, rfl⟩

theorem Reads.append_part {s t : Scanner} {w : Bytes} (h : Reads s w t) : t.part = s.part ++ w := by
  induction h with
  | nil => simp
  | cons _ hd _ ih =>
    rw [ih, Scanner.push, Scanner.dispatch_part hd, List.append_assoc]
    rfl

theorem Reads.part {e : Nat} {t : Scanner} {w : Bytes} (h : Reads (.idle e) w t) : t.part = w :=
  h.append_part

/-- A unit that fits is answered on its last byte and nowhere before. -/
theorem Scans.run {limit e e' : Nat} {u : Bytes} (h : Scans e u e') (hlen : u.length ≤ limit) :
    (scanNext limit).outputs (.idle e) u =
        List.replicate (u.length - 1) (.ok none) ++ [.ok (some u)] ∧
      (scanNext limit).final (.idle e) u = .idle e' := by
  obtain ⟨w, b, s, rfl, hr, -, hd⟩ := h
  rw [List.length_append, List.length_singleton] at hlen
  have hlt : (Scanner.idle e).part.length + w.length < limit := by
    rw [Scanner.idle, List.length_nil]
    omega
  obtain ⟨ho, hf⟩ := hr.run hlt
  have hpart : s.part = w := hr.part
  have hstep : (scanNext limit).step s b = (.ok (some (w ++ [b])), .idle e') := by
    change s.next limit b = _
    unfold Scanner.next
    rw [if_pos (by rw [hpart]; omega), hd]
  rw [Lib.Machine.outputs_concat, Lib.Machine.final_concat, hf, ho, hstep, List.length_append,
    List.length_singleton, Nat.add_sub_cancel]
  exact ⟨rfl, rfl⟩

end XmppProxy.Stanza
