import XmppProxy.Lib.Words
import XmppProxy.Model.Bytes

/-! What a stanza is: tags whose quoted values are opaque, character data sections, elements nested
to any depth whose names need not match, and the three stand-alone units of a stream. -/

namespace XmppProxy.Stanza

def IsQuote (b : UInt8) : Prop := b = apos ∨ b = quot

/-- The inside of a tag: bytes other than `>` and quotes, and complete quoted strings. -/
inductive Body : Bytes → Prop where
  | nil : Body []
  | byte {b : UInt8} {w : Bytes} : b ≠ gt → ¬ IsQuote b → Body w → Body (b :: w)
  | quoted {q : UInt8} {v w : Bytes} : IsQuote q → q ∉ v → Body w → Body (q :: (v ++ q :: w))

def NameStart (b : UInt8) : Prop :=
  b ≠ slash ∧ b ≠ bang ∧ b ≠ quest ∧ b ≠ gt ∧ ¬ IsQuote b

inductive OpenTag : Bytes → Prop where
  | mk {n : UInt8} {w : Bytes} : NameStart n → Body w → (n :: w).getLast? ≠ some slash →
      OpenTag (lt :: n :: (w ++ [gt]))

inductive EmptyTag : Bytes → Prop where
  | mk {n : UInt8} {w : Bytes} : NameStart n → Body w → EmptyTag (lt :: n :: (w ++ [slash, gt]))

inductive CloseTag : Bytes → Prop where
  | mk {m : UInt8} {w : Bytes} : NameStart m → Body w → (m :: w).getLast? ≠ some slash →
      CloseTag (lt :: slash :: m :: (w ++ [gt]))

/-- The section ends at the first `]]>`. -/
inductive CData : Bytes → Prop where
  | mk {d : Bytes} : (∀ p, p ++ bytes "]]>" <+: d ++ bytes "]]>" → p = d) →
      CData (bytes "<![CDATA[" ++ (d ++ bytes "]]>"))

inductive Content : Bytes → Prop where
  | nil : Content []
  | text {b : UInt8} {w : Bytes} : b ≠ lt → Content w → Content (b :: w)
  | cdata {d w : Bytes} : CData d → Content w → Content (d ++ w)
  | empty {t w : Bytes} : EmptyTag t → Content w → Content (t ++ w)
  | node {o c e w : Bytes} : OpenTag o → Content c → CloseTag e → Content w →
      Content (o ++ (c ++ (e ++ w)))

/-- `Element first s`: the element `s` begins with the tag `first`. -/
inductive Element : Bytes → Bytes → Prop where
  | empty {t : Bytes} : EmptyTag t → Element t t
  | node {o c e : Bytes} : OpenTag o → Content c → CloseTag e → Element o (o ++ (c ++ e))

/-- A `<stream:stream ...>` tag that is not self-closing. -/
def StreamOpen (t : Bytes) : Prop := OpenTag t ∧ bytes "<stream:stream " <+: t

inductive StanzaUnit : Bytes → Prop where
  | xmlDecl {w : Bytes} : gt ∉ w → StanzaUnit (bytes "<?xml " ++ (w ++ [gt]))
  | streamOpen {t : Bytes} : StreamOpen t → StanzaUnit t
  | streamClose : StanzaUnit (bytes "</stream:stream>")
  | element {first s : Bytes} : Element first s → ¬ StreamOpen first → StanzaUnit s

/-- `end_of_first_tag` after a `>` at index `n`: only the first one is kept. -/
def markAt (e n : Nat) : Nat := if e = 0 then n else e

theorem markAt_of_ne {e n : Nat} (h : e ≠ 0) : markAt e n = e := if_neg h

theorem markAt_ne_zero {e n : Nat} (h : n ≠ 0) : markAt e n ≠ 0 := by
  unfold markAt
  split_ifs with he
  · exact h
  · exact he

/-- `Marks e u e'`: reading the unit `u` with `e` in `end_of_first_tag` leaves `e'` there. -/
inductive Marks (e : Nat) : Bytes → Nat → Prop where
  | xmlDecl {w : Bytes} : gt ∉ w → Marks e (bytes "<?xml " ++ (w ++ [gt])) e
  | streamOpen {t : Bytes} : StreamOpen t → Marks e t (markAt e (t.length - 1))
  | streamClose : Marks e (bytes "</stream:stream>") (markAt e 15)
  | element {first s : Bytes} : Element first s → ¬ StreamOpen first →
      Marks e s (markAt e (first.length - 1))

theorem StanzaUnit.marks {u : Bytes} (h : StanzaUnit u) (e : Nat) : ∃ e', Marks e u e' := by
  cases h with
  | xmlDecl hw => exact ⟨_, .xmlDecl hw⟩
  | streamOpen h => exact ⟨_, .streamOpen h⟩
  | streamClose => exact ⟨_, .streamClose⟩
  | element h hs => exact ⟨_, .element h hs⟩

theorem Marks.unit {e e' : Nat} {u : Bytes} (h : Marks e u e') : StanzaUnit u := by
  cases h with
  | xmlDecl hw => exact .xmlDecl hw
  | streamOpen h => exact .streamOpen h
  | streamClose => exact .streamClose
  | element h hs => exact .element h hs

theorem Body.append {u w : Bytes} (hu : Body u) (hw : Body w) : Body (u ++ w) := by
  induction hu with
  | nil => exact hw
  | byte h hq _ ih => exact .byte h hq ih
  | quoted hq hv _ ih =>
    rw [List.cons_append, List.append_assoc, List.cons_append]
    exact .quoted hq hv ih

theorem Body.concat {w : Bytes} {b : UInt8} (hw : Body w) (h : b ≠ gt) (hq : ¬ IsQuote b) :
    Body (w ++ [b]) := hw.append (.byte h hq .nil)

theorem Body.close {w v : Bytes} {q : UInt8} (hw : Body w) (hq : IsQuote q) (hv : q ∉ v) :
    Body (w ++ q :: v ++ [q]) := by
  rw [List.append_assoc]
  exact hw.append (.quoted hq hv .nil)

theorem body_of_plain {w : Bytes} (h : ∀ b ∈ w, b ≠ gt ∧ ¬ IsQuote b) : Body w := by
  induction w with
  | nil => exact .nil
  | cons b w ih =>
    have hb := h b (List.mem_cons_self ..)
    exact .byte hb.1 hb.2 (ih fun c hc => h c (List.mem_cons_of_mem _ hc))

theorem Body.unique {w w' x x' : Bytes} (hw : Body w) (hw' : Body w')
    (h : w ++ gt :: x = w' ++ gt :: x') : w = w' := by
  have hgt : ¬ IsQuote gt := by
    unfold IsQuote
    decide
  induction hw generalizing w' with
  | nil =>
    cases hw' with
    | nil => rfl
    | byte hb _ _ => exact absurd (List.cons.inj h).1.symm hb
    | quoted hq _ _ => exact absurd ((List.cons.inj h).1 ▸ hq) hgt
  | @byte b w hb hnq _ ih =>
    cases hw' with
    | nil => exact absurd (List.cons.inj h).1 hb
    | byte _ _ hw' =>
      obtain ⟨rfl, hrest⟩ := List.cons.inj h
      rw [ih hw' hrest]
    | quoted hq _ _ => exact absurd ((List.cons.inj h).1 ▸ hq) hnq
  | @quoted q v w hq hv _ ih =>
    cases hw' with
    | nil => exact absurd ((List.cons.inj h).1 ▸ hq) hgt
    | byte _ hnq _ => exact absurd ((List.cons.inj h).1 ▸ hq) hnq
    | @quoted q' v' w' _ hv' hw' =>
      rw [List.cons_append, List.cons_append, List.append_assoc, List.append_assoc] at h
      obtain ⟨rfl, hrest⟩ := List.cons.inj h
      have hne : ∀ {u : Bytes}, q ∉ u → ∀ c ∈ u, c ≠ q := fun hu c hc he => hu (he ▸ hc)
      obtain ⟨rfl, hbehind⟩ := Lib.split_run (p := (· ≠ q)) (hne hv) (hne hv') (by simp) (by simp) hrest
      rw [ih hw' (List.cons.inj hbehind).2]

theorem Content.append {u w : Bytes} (hu : Content u) (hw : Content w) : Content (u ++ w) := by
  induction hu with
  | nil => exact hw
  | text h _ ih => exact .text h ih
  | cdata hd _ ih => rw [List.append_assoc]; exact .cdata hd ih
  | empty ht _ ih => rw [List.append_assoc]; exact .empty ht ih
  | node ho hc he _ _ ih =>
    simp only [List.append_assoc]
    exact .node ho hc he ih

theorem Content.of_cdata {d : Bytes} (h : CData d) : Content d := by
  simpa using Content.cdata h .nil

theorem Content.of_empty {t : Bytes} (h : EmptyTag t) : Content t := by
  simpa using Content.empty h .nil

theorem Content.of_node {o c e : Bytes} (ho : OpenTag o) (hc : Content c) (he : CloseTag e) :
    Content (o ++ (c ++ e)) := by
  simpa using Content.node ho hc he .nil

theorem OpenTag.length_pos {t : Bytes} (h : OpenTag t) : 2 < t.length := by
  cases h
  simp only [List.length_cons, List.length_append, List.length_nil]
  omega

theorem OpenTag.gt_mem {t : Bytes} (h : OpenTag t) : gt ∈ t := by
  cases h
  simp

theorem Element.first_length {first s : Bytes} (h : Element first s) : 2 < first.length := by
  cases h with
  | empty ht => cases ht; simp only [List.length_cons, List.length_append, List.length_nil]; omega
  | node ho _ _ => exact ho.length_pos

theorem Element.first_isPrefix {first s : Bytes} (h : Element first s) : first <+: s := by
  cases h with
  | empty _ => exact List.prefix_rfl
  | node _ _ _ => exact List.prefix_append _ _

theorem OpenTag.not_stream {o x : Bytes} (ho : OpenTag o) (h : ¬ StreamOpen o) :
    ¬ bytes "<stream:stream " <+: o ++ x := by
  intro hp
  rcases List.prefix_or_prefix_of_prefix hp (List.prefix_append o x) with h' | h'
  · exact h ⟨ho, h'⟩
  · exact absurd (h'.subset ho.gt_mem) (by decide)

end XmppProxy.Stanza
