import Mathlib.Data.List.Nodup
import XmppProxy.Lib.Words

/-! Start tags of XML, as bytes: attributes behind any white space, in either quote, with references in
their values. A tag is read in one way only, and a word that begins an attribute stands in it either
where an attribute is spelled so or inside of a value. -/

namespace XmppProxy.Lib.Xml

def isSpace (b : UInt8) : Bool := b = 32 || b = 9 || b = 10 || b = 13

def isNameStart (b : UInt8) : Bool :=
  (65 ≤ b && b ≤ 90) || (97 ≤ b && b ≤ 122) || b = 95 || b = 58 || 0x80 ≤ b

def isNameByte (b : UInt8) : Bool := isNameStart b || (48 ≤ b && b ≤ 57) || b = 45 || b = 46

def isQuote (b : UInt8) : Bool := b = 39 || b = 34

def isName : List UInt8 → Bool
  | [] => false
  | b :: w => isNameStart b && w.all isNameByte

def digit (base : Nat) (b : UInt8) : Option Nat :=
  if 48 ≤ b ∧ b ≤ 57 then some (b.toNat - 48)
  else if base = 16 ∧ 97 ≤ b ∧ b ≤ 102 then some (b.toNat - 87)
  else if base = 16 ∧ 65 ≤ b ∧ b ≤ 70 then some (b.toNat - 55)
  else none

def number (base : Nat) : List UInt8 → Option Nat
  | [] => none
  | b :: w => (b :: w).foldlM (fun n b => do return n * base + (← digit base b)) 0

def isChar (n : Nat) : Bool :=
  n = 9 || n = 10 || n = 13 || (32 ≤ n && n ≤ 0xD7FF) || (0xE000 ≤ n && n ≤ 0xFFFD) ||
    (0x10000 ≤ n && n ≤ 0x10FFFF)

def charText (n : Nat) : Option (List UInt8) :=
  if isChar n then some (String.utf8EncodeChar (Char.ofNat n)) else none

/-- What `&body;` stands for: a character by its number, or one of the five predefined entities. -/
def resolve : List UInt8 → Option (List UInt8)
  | 35 :: 120 :: w => (number 16 w).bind charText
  | 35 :: w => (number 10 w).bind charText
  | [108, 116] => some [60]
  | [103, 116] => some [62]
  | [97, 109, 112] => some [38]
  | [97, 112, 111, 115] => some [39]
  | [113, 117, 111, 116] => some [34]
  | _ => none

inductive Piece where
  | byte (b : UInt8)
  | reference (body : List UInt8)
  deriving DecidableEq, Repr

def Piece.text : Piece → List UInt8
  | byte b => [b]
  | reference body => 38 :: (body ++ [59])

def Piece.ok (quote : UInt8) : Piece → Bool
  | byte b => b ≠ quote && b ≠ 60 && b ≠ 38
  | reference body => body.all (fun b => isNameByte b || b = 35) && (resolve body).isSome

def plain (v : List UInt8) : List Piece := v.map .byte

/-- The value as it is read: white space is read as a blank, a line end of two bytes as one. -/
def readValue : List Piece → List UInt8
  | [] => []
  | .byte 13 :: .byte 10 :: ps => 32 :: readValue ps
  | .byte b :: ps => (if isSpace b then 32 else b) :: readValue ps
  | .reference body :: ps => (resolve body).getD [] ++ readValue ps

structure Attr where
  space : List UInt8
  name : List UInt8
  before : List UInt8
  after : List UInt8
  quote : UInt8
  value : List Piece
  space_ne : space ≠ []
  allSpace : (space ++ before ++ after).all isSpace
  name_ok : isName name
  quote_ok : isQuote quote
  value_ok : value.all (Piece.ok quote)

namespace Attr

def raw (a : Attr) : List UInt8 := a.value.flatMap Piece.text

def front (a : Attr) : List UInt8 :=
  a.space ++ a.name ++ a.before ++ 61 :: a.after ++ [a.quote]

def text (a : Attr) : List UInt8 := a.front ++ a.raw ++ [a.quote]

def read (a : Attr) : List UInt8 := readValue a.value

def written (a : Attr) : List UInt8 × List UInt8 := (a.name, a.raw)

end Attr

structure Tag where
  name : List UInt8
  attrs : List Attr
  trailing : List UInt8
  empty : Bool
  name_ok : isName name
  trailing_ok : trailing.all isSpace

namespace Tag

def head (t : Tag) : List UInt8 := 60 :: t.name ++ t.attrs.flatMap Attr.text ++ t.trailing

def stop (t : Tag) : List UInt8 := if t.empty then [47, 62] else [62]

def text (t : Tag) : List UInt8 := t.head ++ t.stop

def WellFormed (t : Tag) : Prop := (t.attrs.map Attr.name).Nodup

instance (t : Tag) : Decidable t.WellFormed := inferInstanceAs (Decidable (List.Nodup _))

def Declares (t : Tag) (name : List UInt8) : Prop := ∃ a ∈ t.attrs, a.name = name

def Reads (t : Tag) (name v : List UInt8) : Prop := ∃ a ∈ t.attrs, a.name = name ∧ a.read = v

def Writes (t : Tag) (name v : List UInt8) : Prop := ∃ a ∈ t.attrs, a.name = name ∧ a.raw = v

instance (t : Tag) (name : List UInt8) : Decidable (t.Declares name) :=
  inferInstanceAs (Decidable (∃ a ∈ t.attrs, _))

instance (t : Tag) (name v : List UInt8) : Decidable (t.Reads name v) :=
  inferInstanceAs (Decidable (∃ a ∈ t.attrs, _))

instance (t : Tag) (name v : List UInt8) : Decidable (t.Writes name v) :=
  inferInstanceAs (Decidable (∃ a ∈ t.attrs, _))

end Tag

theorem not_space_of_nameByte {b : UInt8} (h : isNameByte b) : ¬ isSpace b := by
  intro hs
  simp only [isSpace, Bool.or_eq_true, decide_eq_true_eq] at hs
  rcases hs with ((rfl | rfl) | rfl) | rfl <;> exact absurd h (by decide)

theorem not_quote_of_nameByte {b : UInt8} (h : isNameByte b) : ¬ isQuote b := by
  intro hs
  simp only [isQuote, Bool.or_eq_true, decide_eq_true_eq] at hs
  rcases hs with rfl | rfl <;> exact absurd h (by decide)

theorem not_quote_of_space {b : UInt8} (h : isSpace b) : ¬ isQuote b := by
  intro hs
  simp only [isQuote, Bool.or_eq_true, decide_eq_true_eq] at hs
  rcases hs with rfl | rfl <;> exact absurd h (by decide)

theorem isName_iff {w : List UInt8} :
    isName w ↔ ∃ b r, w = b :: r ∧ isNameStart b ∧ ∀ c ∈ w, isNameByte c := by
  cases w with
  | nil => simp [isName]
  | cons b w =>
    have hstart : isNameStart b = true → isNameByte b = true := fun h => by simp [isNameByte, h]
    simp only [isName, Bool.and_eq_true, List.all_eq_true, List.cons.injEq, List.mem_cons]
    constructor
    · rintro ⟨hb, hw⟩
      exact ⟨b, w, ⟨rfl, rfl⟩, hb, fun c hc => hc.elim (fun h => h ▸ hstart hb) (hw c)⟩
    · rintro ⟨b', r, ⟨rfl, rfl⟩, hb, hall⟩
      exact ⟨hb, fun c hc => hall c (.inr hc)⟩

theorem Piece.ok_text {q : UInt8} (hq : isQuote q) {p : Piece} (h : p.ok q) : q ∉ p.text ∧ 60 ∉ p.text := by
  cases p with
  | byte b =>
    simp only [Piece.ok, Bool.and_eq_true, decide_eq_true_eq] at h
    simp only [Piece.text, List.mem_singleton]
    exact ⟨fun he => h.1.1 he.symm, fun he => h.1.2 he.symm⟩
  | reference body =>
    simp only [Piece.ok, Bool.and_eq_true, List.all_eq_true, Bool.or_eq_true, decide_eq_true_eq] at h
    have hbody : ∀ {c : UInt8}, ¬ isNameByte c → c ≠ 35 → c ∉ body := fun hc hne hmem =>
      (h.1 _ hmem).elim hc hne
    have hquote : ¬ isNameByte q = true := fun hn => not_quote_of_nameByte hn hq
    simp only [Piece.text, List.mem_cons, List.mem_append, List.not_mem_nil, or_false, not_or]
    simp only [isQuote, Bool.or_eq_true, decide_eq_true_eq] at hq
    have hne : q ≠ 38 ∧ q ≠ 35 ∧ q ≠ 59 := by
      rcases hq with rfl | rfl <;> decide
    exact ⟨⟨hne.1, hbody hquote hne.2.1, hne.2.2⟩, by decide, hbody (by decide) (by decide), by decide⟩

namespace Attr

variable {a : Attr}

theorem quote_not_mem_raw (a : Attr) : a.quote ∉ a.raw := by
  intro h
  obtain ⟨p, hp, hmem⟩ := List.mem_flatMap.mp h
  exact (Piece.ok_text a.quote_ok (List.all_eq_true.mp a.value_ok p hp)).1 hmem

theorem readValue_byte {b : UInt8} {ps : List Piece} (hb : ¬ isSpace b) :
    readValue (.byte b :: ps) = b :: readValue ps := by
  have h13 : b ≠ 13 := by
    rintro rfl
    exact hb (by decide)
  rw [readValue, if_neg hb]
  exact fun _ _ => h13

theorem read_eq_raw (hamp : 38 ∉ a.raw) (hspace : ∀ b ∈ a.raw, ¬ isSpace b) : a.read = a.raw := by
  have key : ∀ ps : List Piece, 38 ∉ ps.flatMap Piece.text →
      (∀ b ∈ ps.flatMap Piece.text, ¬ isSpace b) → readValue ps = ps.flatMap Piece.text := by
    intro ps
    induction ps with
    | nil => exact fun _ _ => rfl
    | cons p ps ih =>
      intro hamp hspace
      rw [List.flatMap_cons] at hamp hspace ⊢
      have hrest := ih (fun h => hamp (List.mem_append_right _ h))
        fun b hb => hspace b (List.mem_append_right _ hb)
      cases p with
      | reference body => exact absurd (List.mem_append_left _ (List.mem_cons_self ..)) hamp
      | byte b =>
        have hb : ¬ isSpace b := hspace b (List.mem_append_left _ (List.mem_singleton_self b))
        rw [readValue_byte hb, hrest]
        rfl
  exact key a.value hamp hspace

theorem isPrefix_read {w : List UInt8} (hw : ∀ b ∈ w, b ≠ 38 ∧ ¬ isSpace b) (h : w <+: a.raw) : w <+: a.read := by
  have key : ∀ ps : List Piece, w <+: ps.flatMap Piece.text → w <+: readValue ps := by
    clear h
    induction w with
    | nil => exact fun _ _ => List.nil_prefix
    | cons b w ih =>
      intro ps h
      obtain ⟨hb, hspace⟩ := hw b (List.mem_cons_self ..)
      obtain _ | ⟨⟨c⟩ | body, ps⟩ := ps
      · exact absurd (List.prefix_nil.mp h) (List.cons_ne_nil b w)
      · obtain ⟨rfl, hrest⟩ := List.cons_prefix_cons.mp h
        rw [readValue_byte hspace]
        exact List.cons_prefix_cons.mpr ⟨rfl, ih (fun x hx => hw x (List.mem_cons_of_mem _ hx)) ps hrest⟩
      · exact absurd (List.cons_prefix_cons.mp h).1 hb
  exact key a.value h

theorem front_eq (a : Attr) : ∃ w, a.front = w ++ [a.quote] ∧ (∀ b ∈ w, ¬ isQuote b) ∧
    w = a.space ++ a.name ++ a.before ++ 61 :: a.after := by
  refine ⟨_, rfl, fun b hb => ?_, rfl⟩
  have hspace : ∀ {b}, b ∈ a.space ++ a.before ++ a.after → ¬ isQuote b := fun hb =>
    not_quote_of_space (List.all_eq_true.mp a.allSpace _ hb)
  have hname : ∀ {b}, b ∈ a.name → ¬ isQuote b := fun hb => by
    obtain ⟨-, -, -, -, hall⟩ := isName_iff.mp a.name_ok
    exact not_quote_of_nameByte (hall _ hb)
  simp only [List.mem_append, List.mem_cons] at hb hspace
  rcases hb with ((hb | hb) | hb) | rfl | hb
  · exact hspace (.inl (.inl hb))
  · exact hname hb
  · exact hspace (.inl (.inr hb))
  · decide
  · exact hspace (.inr hb)

theorem name_bytes (a : Attr) : ∀ b ∈ a.name, isNameByte b := by
  obtain ⟨-, -, -, -, hall⟩ := isName_iff.mp a.name_ok
  exact hall

theorem spaces (a : Attr) : (∀ b ∈ a.space, isSpace b) ∧ (∀ b ∈ a.before, isSpace b) ∧
    ∀ b ∈ a.after, isSpace b := by
  have h := a.allSpace
  rw [List.all_append, List.all_append, Bool.and_eq_true, Bool.and_eq_true, List.all_eq_true,
    List.all_eq_true, List.all_eq_true] at h
  exact ⟨h.1.1, h.1.2, h.2⟩

end Attr

def opening (name : List UInt8) (quote : UInt8) : List UInt8 := 32 :: name ++ [61, quote]

/-- The attribute begins with `opening name quote`, up to white space in front of the blank. -/
structure Attr.Spells (a : Attr) (name : List UInt8) (quote : UInt8) : Prop where
  name : a.name = name
  space : a.space.getLast? = some 32
  before : a.before = []
  after : a.after = []
  quote : a.quote = quote

theorem Attr.Spells.front_eq {a : Attr} {name : List UInt8} {quote : UInt8} (h : a.Spells name quote) :
    ∃ w, a.front = w ++ opening name quote := by
  obtain ⟨w, d, hd⟩ := (List.eq_nil_or_concat' a.space).resolve_left a.space_ne
  have hlast := h.space
  rw [hd, List.getLast?_concat] at hlast
  refine ⟨w, ?_⟩
  rw [Attr.front, hd, Option.some.inj hlast, h.name, h.before, h.after, h.quote, opening]
  simp only [List.append_assoc, List.cons_append, List.nil_append]

theorem Attr.spells_of_front {a : Attr} {name u p : List UInt8} (hname : name ≠ [])
    (hbytes : ∀ b ∈ name, isNameByte b)
    (h : p ++ (a.space ++ a.name ++ a.before ++ 61 :: a.after) = u ++ (32 :: name ++ [61])) :
    a.Spells name a.quote ∧ u = p ++ a.space.dropLast := by
  have hspace : ∀ {b : UInt8}, isSpace b → b ≠ 61 := by
    rintro b hb rfl
    exact absurd hb (by decide)
  have heq : (p ++ a.space ++ a.name ++ a.before) ++ 61 :: a.after = (u ++ 32 :: name) ++ 61 :: [] := by
    simpa only [List.append_assoc] using h
  obtain ⟨hfront, -, hafter⟩ := split_last (p := (· = 61)) rfl rfl
    (fun b hb => hspace (a.spaces.2.2 b hb)) (fun b hb => absurd hb List.not_mem_nil) heq
  have hnot : ∀ b ∈ name, ¬ isSpace b = true := fun b hb => not_space_of_nameByte (hbytes b hb)
  have hbefore : a.before = [] := by
    obtain hnil | ⟨w, d, hd⟩ := List.eq_nil_or_concat' a.before
    · exact hnil
    · have hdspace : isSpace d := a.spaces.2.1 d (hd ▸ List.mem_append_right w (List.mem_singleton_self d))
      rw [hd, ← List.append_assoc] at hfront
      obtain ⟨-, -, hnil⟩ := split_last (p := (isSpace · = true)) hdspace (by decide)
        (fun b hb => absurd hb List.not_mem_nil) hnot hfront
      exact absurd hnil.symm hname
  rw [hbefore, List.append_nil] at hfront
  obtain ⟨w, d, hd⟩ := (List.eq_nil_or_concat' a.space).resolve_left a.space_ne
  have hdspace : isSpace d := a.spaces.1 d (hd ▸ List.mem_append_right w (List.mem_singleton_self d))
  have hlast : (p ++ w) ++ d :: a.name = u ++ 32 :: name := by
    rw [← hfront, hd]
    simp only [List.append_assoc, List.cons_append, List.nil_append]
  obtain ⟨hu, rfl, hn⟩ := split_last (p := (isSpace · = true)) hdspace (by decide)
    (fun b hb => not_space_of_nameByte (a.name_bytes b hb)) hnot hlast
  refine ⟨⟨hn, by rw [hd, List.getLast?_concat], hbefore, hafter, rfl⟩, ?_⟩
  rw [← hu, hd, List.dropLast_concat]

/-- Where `opening name quote` stands among attributes with `u` in front and `v` behind it: in front of
a value, or in a value with the quote that ends it. -/
def Stands (name : List UInt8) (quote : UInt8) (u v p : List UInt8) (attrs : List Attr)
    (tail : List UInt8) : Prop :=
  ∃ as a bs, attrs = as ++ a :: bs ∧
    (a.Spells name quote ∧ u = p ++ as.flatMap Attr.text ++ a.space.dropLast ∧
        v = a.raw ++ quote :: (bs.flatMap Attr.text ++ tail) ∨
      ∃ x y, a.raw ++ [a.quote] = x ++ opening name quote ++ y ∧
        u = p ++ as.flatMap Attr.text ++ a.front ++ x ∧ v = y ++ (bs.flatMap Attr.text ++ tail))

theorem Stands.cons {name : List UInt8} {quote : UInt8} {u v p : List UInt8} {attrs : List Attr}
    {tail : List UInt8} (a : Attr) (h : Stands name quote u v [] attrs tail) :
    Stands name quote (p ++ a.text ++ u) v p (a :: attrs) tail := by
  obtain ⟨as, c, bs, rfl, ⟨hs, rfl, rfl⟩ | ⟨x, y, hr, rfl, rfl⟩⟩ := h
  · refine ⟨a :: as, c, bs, rfl, .inl ⟨hs, ?_, rfl⟩⟩
    simp only [List.flatMap_cons, List.append_assoc, List.nil_append]
  · refine ⟨a :: as, c, bs, rfl, .inr ⟨x, y, hr, ?_, rfl⟩⟩
    simp only [List.flatMap_cons, List.append_assoc, List.nil_append]

theorem quote_not_mem_word {name : List UInt8} (hbytes : ∀ b ∈ name, isNameByte b) {c : UInt8}
    (hc : isQuote c) : c ∉ 32 :: name ++ [61] := by
  intro hmem
  rcases List.mem_append.mp hmem with hmem | hmem
  · rcases List.mem_cons.mp hmem with rfl | hmem
    · exact absurd hc (by decide)
    · exact not_quote_of_nameByte (hbytes c hmem) hc
  · rw [List.mem_singleton.mp hmem] at hc
    exact absurd hc (by decide)

theorem opening_stands {name : List UInt8} {quote : UInt8} (hname : isName name) (hquote : isQuote quote)
    {attrs : List Attr} {tail : List UInt8} (htail : ∀ b ∈ tail, ¬ isQuote b) :
    ∀ {u v p : List UInt8}, (∀ b ∈ p, ¬ isQuote b) →
      u ++ opening name quote ++ v = p ++ attrs.flatMap Attr.text ++ tail →
      Stands name quote u v p attrs tail := by
  obtain ⟨-, -, -, -, hbytes⟩ := isName_iff.mp hname
  have hne : name ≠ [] := by
    rintro rfl
    cases hname
  -- `p` is what is left in front of the attributes that have not been passed yet
  induction attrs with
  | nil =>
    intro u v p hp h
    have hmem : quote ∈ p ++ [].flatMap Attr.text ++ tail := by
      rw [← h, opening]
      simp
    rw [List.flatMap_nil, List.append_nil] at hmem
    rcases List.mem_append.mp hmem with hmem | hmem
    · exact absurd hquote (hp quote hmem)
    · exact absurd hquote (htail quote hmem)
  | cons a attrs ih =>
    intro u v p hp h
    obtain ⟨w, hfront, hw, hweq⟩ := a.front_eq
    generalize hrest : attrs.flatMap Attr.text ++ tail = rest
    have heq : (u ++ (32 :: name ++ [61])) ++ quote :: v = (p ++ w) ++ a.quote :: (a.raw ++ a.quote :: rest) := by
      rw [List.flatMap_cons, Attr.text, hfront, opening] at h
      simpa [← hrest] using h
    rcases split_order heq with ⟨y, hy, hv⟩ | ⟨x, hx, hv⟩
    · -- the word ends where the value begins
      obtain rfl | ⟨y, c, rfl⟩ := List.eq_nil_or_concat' y
      · obtain ⟨hpw, hq⟩ := List.append_inj' hy rfl
        rw [hweq] at hpw
        obtain ⟨hs, hpos⟩ := Attr.spells_of_front hne hbytes hpw
        have hq' : a.quote = quote := (List.cons.inj hq).1
        refine ⟨[], a, attrs, rfl, .inl ⟨hq' ▸ hs, ?_, ?_⟩⟩
        · rw [hpos, List.flatMap_nil, List.append_nil]
        · rw [hv, hrest, hq', List.nil_append]
      · rw [← List.cons_append, ← List.append_assoc] at hy
        have hmem : quote ∈ p ++ w := by
          rw [(List.append_inj' hy rfl).1]
          exact List.mem_append_right _ (List.mem_cons_self ..)
        exact absurd hquote ((List.mem_append.mp hmem).elim (hp quote) (hw quote))
    obtain ⟨x, rfl, hu⟩ := append_eq_behind (quote_not_mem_word hbytes a.quote_ok) hx
    rcases split_order hv.symm with ⟨y, hy, hv'⟩ | ⟨k, hk, hv'⟩
    · -- it ends in the value, or with it
      refine ⟨[], a, attrs, rfl, .inr ⟨x, y, ?_, ?_, by rw [hv', hrest]⟩⟩
      · rw [hy, opening]
        simp only [List.append_assoc, List.cons_append, List.nil_append]
      · rw [hu, hfront, List.flatMap_nil]
        simp only [List.append_assoc, List.append_nil, List.cons_append, List.nil_append]
    · -- it stands behind the attribute
      obtain ⟨y, rfl, rfl⟩ := append_eq_behind (quote_not_mem_word hbytes a.quote_ok) hk
      have hnext : y ++ opening name quote ++ v = [] ++ attrs.flatMap Attr.text ++ tail := by
        rw [List.nil_append, hrest, hv', opening]
        simp only [List.append_assoc, List.cons_append, List.nil_append]
      have hpos : u = p ++ a.text ++ y := by
        rw [hu, Attr.text, hfront]
        simp only [List.append_assoc, List.cons_append, List.nil_append]
      rw [hpos]
      exact (ih (fun b hb => absurd hb List.not_mem_nil) hnext).cons a

theorem Attr.infix_raw (a : Attr) {name v x y z rest : List UInt8} {quote : UInt8}
    (hv : ∀ b ∈ v, ¬ isQuote b) (hraw : a.raw = x ++ opening name quote ++ y)
    (h : v ++ quote :: z = y ++ a.quote :: rest) :
    opening name quote ++ (v ++ [quote]) <:+: a.raw := by
  have hne : a.quote ≠ quote := by
    intro he
    apply a.quote_not_mem_raw
    rw [he, hraw, opening]
    simp
  have hlast : a.quote ∉ v ++ [quote] := by
    rw [List.mem_append, List.mem_singleton, not_or]
    exact ⟨fun h => hv _ h a.quote_ok, hne⟩
  rcases split_order h with ⟨k, hk, -⟩ | ⟨k, hk, -⟩
  · obtain rfl | ⟨k, d, rfl⟩ := List.eq_nil_or_concat' k
    · exact absurd (List.cons.inj (List.append_inj' hk rfl).2).1 hne
    · rw [← List.cons_append, ← List.append_assoc] at hk
      refine ⟨x, k, ?_⟩
      rw [hraw, (List.append_inj' hk rfl).1]
      simp only [List.append_assoc, List.cons_append, List.nil_append]
  · rw [hk] at hlast
    exact absurd (List.mem_append_left _ (List.mem_append_right y (List.mem_cons_self ..))) hlast

namespace Tag

variable {t : Tag} {name v : List UInt8} {quote : UInt8}

theorem not_quote (t : Tag) : (∀ b ∈ 60 :: t.name, ¬ isQuote b) ∧ (∀ b ∈ t.trailing, ¬ isQuote b) ∧
    ∀ b ∈ t.stop, ¬ isQuote b := by
  refine ⟨fun b hb => ?_, fun b hb => not_quote_of_space (List.all_eq_true.mp t.trailing_ok b hb), ?_⟩
  · rcases List.mem_cons.mp hb with rfl | hb
    · decide
    · obtain ⟨-, -, -, -, hall⟩ := isName_iff.mp t.name_ok
      exact not_quote_of_nameByte (hall b hb)
  · unfold stop
    cases t.empty <;> simp [isQuote]

/-- An attribute is spelled with this beginning, or a value holds it, with the quote behind the value. -/
def Shows (t : Tag) (name : List UInt8) (quote : UInt8) : Prop :=
  ∃ a ∈ t.attrs, a.Spells name quote ∨ opening name quote <:+: a.raw ++ [a.quote]

theorem infix_of_attr {a : Attr} (h : a ∈ t.attrs) : a.text <:+: t.head := by
  obtain ⟨as, bs, heq⟩ := List.append_of_mem h
  refine ⟨60 :: t.name ++ as.flatMap Attr.text, bs.flatMap Attr.text ++ t.trailing, ?_⟩
  rw [head, heq]
  simp only [List.flatMap_append, List.flatMap_cons, List.append_assoc]

theorem opening_head (hname : isName name) (hquote : isQuote quote) :
    opening name quote <:+: t.head ↔ t.Shows name quote := by
  constructor
  · rintro ⟨u, v, h⟩
    obtain ⟨as, a, bs, heq, hcase⟩ := opening_stands hname hquote t.not_quote.2.1 t.not_quote.1 h
    have hmem : a ∈ t.attrs := heq ▸ List.mem_append_right as (List.mem_cons_self ..)
    rcases hcase with ⟨hs, -⟩ | ⟨x, y, hr, -⟩
    · exact ⟨a, hmem, .inl hs⟩
    · exact ⟨a, hmem, .inr ⟨x, y, hr.symm⟩⟩
  · rintro ⟨a, hmem, hcase⟩
    refine List.IsInfix.trans ?_ (infix_of_attr hmem)
    rcases hcase with hs | hin
    · obtain ⟨w, hfront⟩ := hs.front_eq
      refine ⟨w, a.raw ++ [a.quote], ?_⟩
      rw [Attr.text, hfront]
      simp only [List.append_assoc]
    · refine hin.trans ⟨a.front, [], ?_⟩
      rw [List.append_nil, Attr.text, List.append_assoc]

theorem head_behind (bs : List Attr) {b : UInt8}
    (hb : (bs.flatMap Attr.text ++ (t.trailing ++ t.stop)).head? = some b) : ¬ isNameByte b := by
  have hspace : ∀ {w r : List UInt8}, w ≠ [] → (∀ c ∈ w, isSpace c) → (w ++ r).head? = some b →
      ¬ isNameByte b := by
    intro w r hne hw h
    obtain ⟨c, w, rfl⟩ := List.exists_cons_of_ne_nil hne
    obtain rfl := Option.some.inj h
    exact fun hn => not_space_of_nameByte hn (hw c (List.mem_cons_self ..))
  cases bs with
  | nil =>
    by_cases htr : t.trailing = []
    · rw [htr] at hb
      have hstop : t.stop.head? = some b := hb
      unfold stop at hstop
      cases hempty : t.empty <;> rw [hempty] at hstop <;> obtain rfl := Option.some.inj hstop <;> decide
    · exact hspace htr (List.all_eq_true.mp t.trailing_ok) hb
  | cons a bs =>
    rw [List.flatMap_cons, Attr.text, Attr.front] at hb
    simp only [List.append_assoc] at hb
    exact hspace a.space_ne a.spaces.1 hb

/-- A whole attribute, spelled with one blank and without white space around the `=`, stands in a tag as
such or in a value. -/
theorem attribute_text (hname : isName name) (hquote : isQuote quote) (hv : ∀ b ∈ v, ¬ isQuote b)
    (hfirst : ∃ b r, v = b :: r ∧ isNameByte b) :
    opening name quote ++ (v ++ [quote]) <:+: t.text ↔
      ∃ a ∈ t.attrs, a.Spells name quote ∧ a.raw = v ∨ opening name quote ++ (v ++ [quote]) <:+: a.raw := by
  have hqv : quote ∉ v := fun h => hv quote h hquote
  constructor
  · rintro ⟨u, z, h⟩
    have htail : ∀ b ∈ t.trailing ++ t.stop, ¬ isQuote b := fun b hb =>
      (List.mem_append.mp hb).elim (t.not_quote.2.1 b) (t.not_quote.2.2 b)
    have heq : u ++ opening name quote ++ (v ++ quote :: z) =
        60 :: t.name ++ t.attrs.flatMap Attr.text ++ (t.trailing ++ t.stop) := by
      rw [← List.append_assoc _ t.trailing]
      refine Eq.trans ?_ h
      simp only [List.append_assoc, List.cons_append, List.nil_append]
    obtain ⟨as, a, bs, hattrs, hcase⟩ := opening_stands hname hquote htail t.not_quote.1 heq
    refine ⟨a, hattrs ▸ List.mem_append_right as (List.mem_cons_self ..), ?_⟩
    rcases hcase with ⟨hs, -, hz⟩ | ⟨x, y, hr, -, hz⟩
    · have hraw : quote ∉ a.raw := hs.quote ▸ a.quote_not_mem_raw
      obtain ⟨hval, -⟩ := split_run (p := (· ≠ quote)) (fun b hb h => hqv (h ▸ hb))
        (fun b hb h => hraw (h ▸ hb)) (by simp) (by simp) hz
      exact .inl ⟨hs, hval.symm⟩
    · -- the name would have to begin with what ends a value, unless the quotes are of the other kind
      obtain rfl | ⟨y, c, rfl⟩ := List.eq_nil_or_concat' y
      · obtain ⟨b, r, rfl, hb⟩ := hfirst
        rw [List.nil_append] at hz
        exact absurd hb (head_behind (t := t) bs (by rw [← hz]; rfl))
      · rw [← List.append_assoc] at hr
        obtain ⟨hraw, hc⟩ := List.append_inj' hr rfl
        obtain rfl := (List.cons.inj hc).1
        have hz' : v ++ quote :: z = y ++ a.quote :: (bs.flatMap Attr.text ++ (t.trailing ++ t.stop)) := by
          rw [hz, List.append_assoc]
          rfl
        exact .inr (a.infix_raw hv hraw hz')
  · rintro ⟨a, hmem, hcase⟩
    have htext : a.text <:+: t.text := (infix_of_attr hmem).trans (List.prefix_append _ _).isInfix
    refine List.IsInfix.trans ?_ htext
    rcases hcase with ⟨hs, hraw⟩ | hin
    · obtain ⟨w, hfront⟩ := hs.front_eq
      refine ⟨w, [], ?_⟩
      rw [Attr.text, hfront, hraw, hs.quote]
      simp only [List.append_assoc, List.append_nil]
    · exact hin.trans ⟨a.front, [a.quote], rfl⟩

end Tag

theorem isSpace_of_all {w : List UInt8} (h : w.all isSpace) : ∀ b ∈ w, isSpace b := List.all_eq_true.mp h

theorem split_space {u v s t : List UInt8} (hu : ∀ b ∈ u, isSpace b) (hv : ∀ b ∈ v, isSpace b) {b c : UInt8}
    (hb : ¬ isSpace b) (hc : ¬ isSpace c) (h : u ++ b :: s = v ++ c :: t) : b = c ∧ s = t := by
  obtain ⟨-, hrest⟩ := split_run (p := (isSpace · = true)) hu hv (by simpa using hb) (by simpa using hc) h
  exact List.cons.inj hrest

theorem split_name {u v s t : List UInt8} (hu : ∀ b ∈ u, isNameByte b) (hv : ∀ b ∈ v, isNameByte b)
    (hs : ∀ b ∈ s.head?, ¬ isNameByte b) (ht : ∀ b ∈ t.head?, ¬ isNameByte b) (h : u ++ s = v ++ t) :
    u = v ∧ s = t := split_run (p := (isNameByte · = true)) hu hv hs ht h

theorem Attr.behind_name (a : Attr) (s : List UInt8) :
    ∀ b ∈ (a.before ++ 61 :: s).head?, ¬ isNameByte b := by
  intro b hb
  have hspace := a.spaces.2.1
  generalize a.before = w at hb hspace
  cases w with
  | nil =>
    obtain rfl := Option.some.inj hb
    decide
  | cons c w =>
    obtain rfl := Option.some.inj hb
    exact fun hn => not_space_of_nameByte hn (hspace c (List.mem_cons_self ..))

theorem not_space_of_quote {b : UInt8} (h : isQuote b) : ¬ isSpace b := fun hs => not_quote_of_space hs h

theorem Attr.text_unique {a a' : Attr} {s s' : List UInt8} (h : a.text ++ s = a'.text ++ s') :
    a.written = a'.written ∧ s = s' := by
  obtain ⟨b, r, hb, hstart, -⟩ := isName_iff.mp a.name_ok
  obtain ⟨b', r', hb', hstart', -⟩ := isName_iff.mp a'.name_ok
  have hnot : ∀ {c : UInt8}, isNameStart c → ¬ isSpace c := fun hc =>
    not_space_of_nameByte (by simp [isNameByte, hc])
  have htext : ∀ (a : Attr) (s : List UInt8), a.text ++ s =
      a.space ++ (a.name ++ (a.before ++ 61 :: (a.after ++ a.quote :: (a.raw ++ a.quote :: s)))) := by
    intro a s
    simp only [Attr.text, Attr.front, List.append_assoc, List.cons_append, List.nil_append]
  rw [htext, htext] at h
  have hname : a.name ++ (a.before ++ 61 :: (a.after ++ a.quote :: (a.raw ++ a.quote :: s))) =
      a'.name ++ (a'.before ++ 61 :: (a'.after ++ a'.quote :: (a'.raw ++ a'.quote :: s'))) := by
    rw [hb, hb'] at h ⊢
    obtain ⟨rfl, hrest⟩ := split_space a.spaces.1 a'.spaces.1 (hnot hstart) (hnot hstart') h
    exact congrArg (b :: ·) hrest
  obtain ⟨heq, hbehind⟩ := split_name a.name_bytes a'.name_bytes (a.behind_name _) (a'.behind_name _) hname
  obtain ⟨-, hafter⟩ := split_space a.spaces.2.1 a'.spaces.2.1 (by decide) (by decide) hbehind
  obtain ⟨hq, hvalue⟩ := split_space a.spaces.2.2 a'.spaces.2.2 (not_space_of_quote a.quote_ok)
    (not_space_of_quote a'.quote_ok) hafter
  rw [hq] at hvalue
  have hne : ∀ {w : List UInt8}, a'.quote ∉ w → ∀ c ∈ w, c ≠ a'.quote := fun hw c hc he => hw (he ▸ hc)
  obtain ⟨hraw, hrest⟩ := split_run (p := (· ≠ a'.quote)) (hne (hq ▸ a.quote_not_mem_raw))
    (hne a'.quote_not_mem_raw) (by simp) (by simp) hvalue
  exact ⟨Prod.ext heq hraw, (List.cons.inj hrest).2⟩

theorem Tag.attrs_over {t : Tag} {a : Attr} {x y : List UInt8} :
    t.trailing ++ (t.stop ++ x) ≠ a.text ++ y := by
  intro h
  obtain ⟨b, r, hb, hstart, -⟩ := isName_iff.mp a.name_ok
  have hbyte : isNameByte b := by simp [isNameByte, hstart]
  obtain ⟨c, w, hstop, hc⟩ : ∃ c w, t.stop = c :: w ∧ (c = 47 ∨ c = 62) := by
    unfold Tag.stop
    cases t.empty
    · exact ⟨62, [], rfl, .inr rfl⟩
    · exact ⟨47, [62], rfl, .inl rfl⟩
  rw [hstop, Attr.text, Attr.front, hb] at h
  simp only [List.append_assoc, List.cons_append] at h
  have hspace : ¬ isSpace c := by rcases hc with rfl | rfl <;> decide
  obtain ⟨rfl, -⟩ := split_space (isSpace_of_all t.trailing_ok) a.spaces.1 hspace
    (not_space_of_nameByte hbyte) h
  rcases hc with rfl | rfl <;> exact absurd hbyte (by decide)

theorem Tag.attrs_unique {t t' : Tag} {as as' : List Attr} {x x' : List UInt8}
    (h : as.flatMap Attr.text ++ (t.trailing ++ (t.stop ++ x)) =
      as'.flatMap Attr.text ++ (t'.trailing ++ (t'.stop ++ x'))) :
    as.map Attr.written = as'.map Attr.written := by
  induction as generalizing as' with
  | nil =>
    cases as' with
    | nil => rfl
    | cons a' as' =>
      rw [List.flatMap_nil, List.nil_append, List.flatMap_cons, List.append_assoc] at h
      exact absurd h Tag.attrs_over
  | cons a as ih =>
    cases as' with
    | nil =>
      rw [List.flatMap_nil, List.nil_append, List.flatMap_cons, List.append_assoc] at h
      exact absurd h.symm Tag.attrs_over
    | cons a' as' =>
      rw [List.flatMap_cons, List.flatMap_cons, List.append_assoc, List.append_assoc] at h
      obtain ⟨ha, hrest⟩ := Attr.text_unique h
      rw [List.map_cons, List.map_cons, ha, ih hrest]

theorem Tag.text_written {t t' : Tag} {x x' : List UInt8} (h : t.text ++ x = t'.text ++ x') :
    t.name = t'.name ∧ t.attrs.map Attr.written = t'.attrs.map Attr.written := by
  have htext : ∀ (t : Tag) (x : List UInt8), t.text ++ x =
      60 :: (t.name ++ (t.attrs.flatMap Attr.text ++ (t.trailing ++ (t.stop ++ x)))) := by
    intro t x
    simp only [Tag.text, Tag.head, List.append_assoc, List.cons_append]
  have hname : ∀ t : Tag, ∀ b ∈ t.name, isNameByte b := fun t => by
    obtain ⟨-, -, -, -, hall⟩ := isName_iff.mp t.name_ok
    exact hall
  -- behind the name come an attribute, white space or the end of the tag
  have hbehind : ∀ (t : Tag) (x : List UInt8), ∀ b ∈ (t.attrs.flatMap Attr.text ++
      (t.trailing ++ (t.stop ++ x))).head?, ¬ isNameByte b := by
    intro t x b hb
    rw [← List.append_assoc t.trailing, ← List.append_assoc] at hb
    refine Tag.head_behind (t := t) t.attrs ?_
    have hne : t.attrs.flatMap Attr.text ++ (t.trailing ++ t.stop) ≠ [] := by
      unfold Tag.stop
      cases t.empty <;> simp
    obtain ⟨c, w, hw⟩ := List.exists_cons_of_ne_nil hne
    rw [hw] at hb ⊢
    exact hb
  rw [htext, htext] at h
  obtain ⟨hn, hrest⟩ := split_name (hname t) (hname t') (hbehind t x) (hbehind t' x') (List.cons.inj h).2
  exact ⟨hn, Tag.attrs_unique hrest⟩

theorem Tag.name_of_text {t : Tag} {n x : List UInt8} (hn : ∀ b ∈ n, isNameByte b)
    (h : 60 :: (n ++ 32 :: x) = t.text) : t.name = n := by
  obtain ⟨-, -, -, -, hall⟩ := isName_iff.mp t.name_ok
  have htext : t.text = 60 :: (t.name ++ (t.attrs.flatMap Attr.text ++ (t.trailing ++ t.stop))) := by
    simp only [Tag.text, Tag.head, List.append_assoc, List.cons_append]
  refine (split_name hn hall ?_ (fun b hb => Tag.head_behind t.attrs hb) (List.cons.inj (h.trans htext)).2).1.symm
  rintro b hb
  obtain rfl := Option.some.inj hb
  decide

theorem map_fst_written (as : List Attr) : (as.map Attr.written).map Prod.fst = as.map Attr.name := List.map_map

theorem Tag.text_unique {t t' : Tag} {x x' : List UInt8} (h : t.text ++ x = t'.text ++ x') :
    t.name = t'.name ∧ t.attrs.map Attr.name = t'.attrs.map Attr.name := by
  obtain ⟨hn, hw⟩ := Tag.text_written h
  rw [← map_fst_written, ← map_fst_written, hw]
  exact ⟨hn, rfl⟩

namespace Tag

theorem writes_iff {t : Tag} {name v : List UInt8} : t.Writes name v ↔ (name, v) ∈ t.attrs.map Attr.written := by
  simp only [Writes, List.mem_map, Attr.written, Prod.mk.injEq]

theorem Writes.declares {t : Tag} {name v : List UInt8} (h : t.Writes name v) : t.Declares name := by
  obtain ⟨a, ha, hname, -⟩ := h
  exact ⟨a, ha, hname⟩

theorem WellFormed.attr_inj {t : Tag} (h : t.WellFormed) {a b : Attr} (ha : a ∈ t.attrs) (hb : b ∈ t.attrs)
    (hname : a.name = b.name) : a = b := List.inj_on_of_nodup_map h ha hb hname

theorem WellFormed.written {t t' : Tag} (h : t.attrs.map Attr.written = t'.attrs.map Attr.written) :
    t.WellFormed ↔ t'.WellFormed := by
  rw [WellFormed, WellFormed, ← map_fst_written, ← map_fst_written, h]

theorem declares_iff {t : Tag} {name : List UInt8} : t.Declares name ↔ name ∈ t.attrs.map Attr.name :=
  List.mem_map.symm

theorem Reads.declares {t : Tag} {name v : List UInt8} (h : t.Reads name v) : t.Declares name := by
  obtain ⟨a, ha, hname, -⟩ := h
  exact ⟨a, ha, hname⟩

structure Plain (name v : List UInt8) : Prop where
  name_ok : isName name
  value_ok : (plain v).all (Piece.ok 39)
  amp : 38 ∉ v
  space : ∀ b ∈ v, ¬ isSpace b

def add (t : Tag) (name v : List UInt8) (h : Plain name v) : Tag where
  name := t.name
  attrs := t.attrs ++ [{
    space := t.trailing ++ [32], name, before := [], after := [], quote := 39, value := plain v
    space_ne := List.append_ne_nil_of_right_ne_nil _ (List.cons_ne_nil 32 [])
    allSpace := by
      rw [List.append_nil, List.append_nil, List.all_append, t.trailing_ok]
      rfl
    name_ok := h.name_ok
    quote_ok := rfl
    value_ok := h.value_ok }]
  trailing := []
  empty := t.empty
  name_ok := t.name_ok
  trailing_ok := rfl

variable {t : Tag} {name v : List UInt8} (h : Plain name v)

theorem flatMap_plain (v : List UInt8) : (plain v).flatMap Piece.text = v := by
  induction v with
  | nil => rfl
  | cons b v ih => exact congrArg (b :: ·) ih

theorem head_add : (t.add name v h).head = t.head ++ (opening name 39 ++ (v ++ [39])) := by
  have hattr : (t.add name v h).attrs.flatMap Attr.text =
      t.attrs.flatMap Attr.text ++ (t.trailing ++ (opening name 39 ++ (v ++ [39]))) := by
    rw [add, List.flatMap_append, List.flatMap_cons, List.flatMap_nil, List.append_nil, Attr.text, Attr.front,
      Attr.raw]
    dsimp only
    rw [flatMap_plain, opening]
    simp only [List.append_assoc, List.cons_append, List.nil_append]
  rw [head, head, hattr]
  simp only [add, List.append_assoc, List.append_nil, List.cons_append]

theorem names_add : (t.add name v h).attrs.map Attr.name = t.attrs.map Attr.name ++ [name] := by
  rw [add, List.map_append, List.map_cons, List.map_nil]

theorem wellFormed_add : (t.add name v h).WellFormed ↔ t.WellFormed ∧ ¬ t.Declares name := by
  rw [WellFormed, names_add, WellFormed, declares_iff, List.nodup_append]
  constructor
  · rintro ⟨ht, -, hd⟩
    exact ⟨ht, fun hmem => hd name hmem name (List.mem_singleton_self name) rfl⟩
  · rintro ⟨ht, hd⟩
    refine ⟨ht, List.nodup_singleton name, fun a ha b hb hab => ?_⟩
    rw [List.mem_singleton.mp hb] at hab
    exact hd (hab ▸ ha)

theorem declares_add {other : List UInt8} :
    (t.add name v h).Declares other ↔ t.Declares other ∨ other = name := by
  rw [declares_iff, names_add, declares_iff, List.mem_append, List.mem_singleton]

theorem Reads.add {other u : List UInt8} (hr : t.Reads other u) : (t.add name v h).Reads other u := by
  obtain ⟨a, ha, hname, hread⟩ := hr
  exact ⟨a, List.mem_append_left _ ha, hname, hread⟩

theorem reads_add : (t.add name v h).Reads name v := by
  refine ⟨_, List.mem_append_right _ (List.mem_singleton_self _), rfl, ?_⟩
  have hraw := flatMap_plain v
  exact (Attr.read_eq_raw (by rw [Attr.raw, hraw]; exact h.amp)
    (by rw [Attr.raw, hraw]; exact h.space)).trans hraw

end Tag

structure PlainAttr where
  space : List UInt8
  name : List UInt8
  quote : UInt8
  value : List UInt8

namespace PlainAttr

def ok (a : PlainAttr) : Bool :=
  !a.space.isEmpty && (a.space.all isSpace && (isName a.name && (isQuote a.quote &&
    (plain a.value).all (Piece.ok a.quote))))

theorem ok_iff {a : PlainAttr} : a.ok ↔ a.space ≠ [] ∧ a.space.all isSpace ∧ isName a.name ∧ isQuote a.quote ∧
    (plain a.value).all (Piece.ok a.quote) := by
  simp only [ok, Bool.and_eq_true, Bool.not_eq_true', List.isEmpty_eq_false_iff]

def attr (a : PlainAttr) (h : a.ok) : Attr where
  space := a.space
  name := a.name
  before := []
  after := []
  quote := a.quote
  value := plain a.value
  space_ne := (ok_iff.mp h).1
  allSpace := by
    rw [List.append_nil, List.append_nil]
    exact (ok_iff.mp h).2.1
  name_ok := (ok_iff.mp h).2.2.1
  quote_ok := (ok_iff.mp h).2.2.2.1
  value_ok := (ok_iff.mp h).2.2.2.2

end PlainAttr

def Tag.ofPlain (name : List UInt8) (attrs : List PlainAttr) (empty : Bool)
    (h : isName name && attrs.all PlainAttr.ok) : Tag where
  name := name
  attrs := attrs.pmap PlainAttr.attr (List.all_eq_true.mp (Bool.and_eq_true_iff.mp h).2)
  trailing := []
  empty := empty
  name_ok := (Bool.and_eq_true_iff.mp h).1
  trailing_ok := List.all_nil

end XmppProxy.Lib.Xml
