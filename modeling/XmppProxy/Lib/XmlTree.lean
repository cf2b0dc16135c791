import XmppProxy.Lib.XmlTag

/-! Elements with their content: text without markup, and elements nested to any depth. -/

namespace XmppProxy.Lib.Xml

/-- What stands between a start tag and its end tag, from the first byte or element on. -/
inductive Content where
  | nil
  | byte (b : UInt8) (rest : Content) (plain : b ≠ 60)
  | empty (t : Tag) (rest : Content) (closed : t.empty = true)
  | element (t : Tag) (inner : Content) (space : List UInt8) (rest : Content) (opened : t.empty = false)
      (spaces : space.all isSpace)

def closeTag (name space : List UInt8) : List UInt8 := 60 :: 47 :: (name ++ (space ++ [62]))

def Content.text : Content → List UInt8
  | nil => []
  | byte b rest _ => b :: rest.text
  | empty t rest _ => t.text ++ rest.text
  | element t inner space rest _ _ => t.text ++ (inner.text ++ (closeTag t.name space ++ rest.text))

structure Element where
  tag : Tag
  inner : Content
  space : List UInt8
  spaces : space.all isSpace
  leaf : tag.empty = true → inner = .nil ∧ space = []

def Element.text (e : Element) : List UInt8 :=
  if e.tag.empty then e.tag.text else e.tag.text ++ (e.inner.text ++ closeTag e.tag.name e.space)

def Element.ofEmpty (t : Tag) : Element where
  tag := t
  inner := .nil
  space := []
  spaces := List.all_nil
  leaf := fun _ => ⟨rfl, rfl⟩

def Element.ofOpen (t : Tag) (inner : Content) (space : List UInt8) (opened : t.empty = false)
    (spaces : space.all isSpace) : Element where
  tag := t
  inner := inner
  space := space
  spaces := spaces
  leaf := fun h => by cases opened.symm.trans h

def Content.children : Content → List Element
  | nil => []
  | byte _ rest _ => rest.children
  | empty t rest _ => .ofEmpty t :: rest.children
  | element t inner space rest opened spaces => .ofOpen t inner space opened spaces :: rest.children

theorem Element.text_ofEmpty {t : Tag} (closed : t.empty = true) : (Element.ofEmpty t).text = t.text := if_pos closed

theorem Element.text_ofOpen {t : Tag} {inner : Content} {space : List UInt8} (opened : t.empty = false)
    (spaces : space.all isSpace) :
    (Element.ofOpen t inner space opened spaces).text = t.text ++ (inner.text ++ closeTag t.name space) :=
  if_neg (by rw [Element.ofOpen, opened]; exact Bool.false_ne_true)

theorem Element.tag_isPrefix (e : Element) : e.tag.text <+: e.text := by
  unfold Element.text
  split_ifs
  · exact List.prefix_rfl
  · exact List.prefix_append _ _

theorem Content.children_isInfix {c : Content} {e : Element} (h : e ∈ c.children) : e.text <:+: c.text := by
  induction c with
  | nil => cases h
  | byte b rest plain ih => exact (ih h).trans (List.suffix_cons b rest.text).isInfix
  | empty t rest closed ih =>
    rcases List.mem_cons.mp h with rfl | h
    · rw [Element.text_ofEmpty closed]
      exact (List.prefix_append t.text rest.text).isInfix
    · exact (ih h).trans (List.suffix_append t.text rest.text).isInfix
  | element t inner space rest opened spaces _ ih =>
    have htext : (element t inner space rest opened spaces).text =
        (Element.ofOpen t inner space opened spaces).text ++ rest.text := by
      rw [Element.text_ofOpen]
      simp only [text, List.append_assoc]
    rw [htext]
    rcases List.mem_cons.mp h with rfl | h
    · exact (List.prefix_append _ _).isInfix
    · exact (ih h).trans (List.suffix_append _ _).isInfix

def Tag.EqualsAt (t : Tag) (name u : List UInt8) : Prop :=
  ∃ as a bs, t.attrs = as ++ a :: bs ∧ a.name = name ∧
    u = 60 :: t.name ++ as.flatMap Attr.text ++ a.space ++ a.name ++ a.before

theorem Tag.text_at {t : Tag} {as bs : List Attr} {a : Attr} (h : t.attrs = as ++ a :: bs) :
    t.text = (60 :: t.name ++ as.flatMap Attr.text ++ a.space ++ a.name ++ a.before) ++
      61 :: (a.after ++ a.quote :: (a.raw ++ a.quote :: (bs.flatMap Attr.text ++ (t.trailing ++ t.stop)))) := by
  unfold Tag.text Tag.head
  rw [h]
  simp only [List.flatMap_append, List.flatMap_cons, Attr.text, Attr.front, List.append_assoc, List.cons_append,
    List.nil_append]

def Tag.find (t : Tag) (name : List UInt8) : Option Attr := t.attrs.find? fun a => a.name = name

theorem Tag.find_eq_some {t : Tag} {name : List UInt8} {a : Attr} (h : t.find name = some a) :
    ∃ as bs, t.attrs = as ++ a :: bs ∧ a.name = name := by
  obtain ⟨hname, as, bs, heq, -⟩ := List.find?_eq_some_iff_append.mp h
  exact ⟨as, bs, heq, of_decide_eq_true hname⟩

theorem Tag.find_unique {t : Tag} (ht : t.WellFormed) {as bs : List Attr} {a : Attr}
    (h : t.attrs = as ++ a :: bs) : t.find a.name = some a := by
  have hsome : (t.find a.name).isSome := by
    unfold Tag.find
    rw [List.find?_isSome, h]
    exact ⟨a, List.mem_append_right _ (List.mem_cons_self ..), decide_eq_true rfl⟩
  obtain ⟨c, hc⟩ := Option.isSome_iff_exists.mp hsome
  obtain ⟨as', bs', heq, hname⟩ := Tag.find_eq_some hc
  have ha : a ∈ t.attrs := h ▸ List.mem_append_right _ (List.mem_cons_self ..)
  have hmem : c ∈ t.attrs := heq ▸ List.mem_append_right _ (List.mem_cons_self ..)
  rw [hc, ht.attr_inj hmem ha hname]

end XmppProxy.Lib.Xml
