import XmppProxy.Lib.XmlTag

/-! Attributes as a search for bytes sees them: a blank, a word, `=`, and a value in quotes. A needle that
ends with the `=`, and is not in a value, stands where a word ends with it. -/

namespace XmppProxy.Lib.Xml

def Unmarked (w : List UInt8) : Prop := ∀ b ∈ w, b ≠ 61 ∧ ¬ isQuote b

instance (w : List UInt8) : Decidable (Unmarked w) := List.decidableBAll (fun b => b ≠ 61 ∧ ¬ isQuote b) w

structure Field where
  word : List UInt8
  after : List UInt8
  quote : UInt8
  value : List UInt8
  word_ok : Unmarked word
  after_ok : Unmarked after
  quote_ok : isQuote quote

namespace Field

variable {f : Field} {m n q u v w : List UInt8}

def behind (f : Field) : List UInt8 := f.after ++ f.quote :: (f.value ++ [f.quote])

def text (f : Field) : List UInt8 := 32 :: f.word ++ 61 :: f.behind

def rename (f : Field) (w : List UInt8) (hw : Unmarked w) : Field := { f with word := w, word_ok := hw }

def extend (f : Field) (v : List UInt8) : Field := { f with value := v ++ f.value }

theorem not_mem_of_unmarked (hm : Unmarked m) : 61 ∉ m ∧ f.quote ∉ m :=
  ⟨fun h => (hm _ h).1 rfl, fun h => (hm _ h).2 f.quote_ok⟩

theorem infix_behind (hm : Unmarked m) (h : m ++ [61] <:+: f.behind) : m ++ [61] <:+: f.value := by
  have hquote : f.quote ∉ m ++ [61] := by
    rw [List.mem_append, List.mem_singleton, not_or]
    refine ⟨(not_mem_of_unmarked hm).2, fun he => ?_⟩
    have hq := f.quote_ok
    rw [he] at hq
    exact absurd hq (by decide)
  have hend : 61 ∈ m ++ [61] := List.mem_append_right m (List.mem_singleton_self 61)
  rcases infix_split hquote h with h | h
  · exact absurd rfl (f.after_ok 61 (h.subset hend)).1
  · rcases infix_split hquote h with h | h
    · exact h
    · exact absurd (h.subset hend) List.not_mem_nil

theorem needle_at (hm : Unmarked m) (hvalue : ¬ m ++ [61] <:+: f.value) (h : u ++ (m ++ 61 :: v) = f.text) :
    u ++ m = 32 :: f.word ∧ v = f.behind := by
  have hword : 61 ∉ 32 :: f.word := by
    intro hmem
    rcases List.mem_cons.mp hmem with hmem | hmem
    · exact absurd hmem (by decide)
    · exact (f.word_ok 61 hmem).1 rfl
  rw [text, ← List.append_assoc] at h
  rcases split_order h with ⟨y, hy, hv⟩ | ⟨y, hy, hbehind⟩
  · obtain rfl | ⟨y, d, rfl⟩ := List.eq_nil_or_concat' y
    · exact ⟨(List.append_inj' hy rfl).1.symm, hv⟩
    · rw [← List.cons_append, ← List.append_assoc] at hy
      rw [(List.append_inj' hy rfl).1] at hword
      exact absurd (List.mem_append_right _ (List.mem_cons_self ..)) hword
  · -- behind the `=` it would stand in the value
    obtain ⟨z, rfl, -⟩ := append_eq_behind (not_mem_of_unmarked (f := f) hm).1 hy
    refine absurd (infix_behind hm ⟨z, v, ?_⟩) hvalue
    rw [hbehind]
    simp only [List.append_assoc, List.cons_append, List.nil_append]

theorem needle_within (hm : Unmarked m) (hvalue : ¬ m ++ [61] <:+: f.value) :
    m ++ [61] <:+: f.text ↔ m <:+ 32 :: f.word := by
  constructor
  · rintro ⟨u, v, h⟩
    rw [List.append_assoc, List.append_assoc] at h
    exact ⟨u, (needle_at hm hvalue h).1⟩
  · rintro ⟨u, hu⟩
    refine ⟨u, f.behind, ?_⟩
    rw [text, ← hu]
    simp only [List.append_assoc, List.cons_append, List.nil_append]

theorem quoted_within {c : UInt8} (hm : Unmarked m) (hc : isQuote c) (hvalue : ¬ m ++ [61] <:+: f.value)
    (h : m ++ [61, c] <:+: f.text) : m <:+ 32 :: f.word ∧ f.after = [] ∧ f.quote = c := by
  obtain ⟨u, v, h⟩ := h
  obtain ⟨hword, hbehind⟩ := needle_at (u := u) (v := c :: v) hm hvalue (by rw [← h]; simp)
  refine ⟨⟨u, hword⟩, ?_⟩
  rw [behind] at hbehind
  cases hafter : f.after with
  | nil =>
    rw [hafter] at hbehind
    exact ⟨rfl, (List.cons.inj hbehind).1.symm⟩
  | cons b w =>
    rw [hafter] at hbehind
    have hb := (f.after_ok b (by rw [hafter]; exact List.mem_cons_self ..)).2
    exact absurd ((List.cons.inj hbehind).1 ▸ hc) hb

theorem free (hq : f.quote ∉ q.dropLast) (h : ¬ q <:+: f.text) : Free f.text q := by
  have htext : f.text = (32 :: f.word ++ 61 :: (f.after ++ f.quote :: f.value)) ++ [f.quote] := by
    rw [text, behind]
    simp only [List.append_assoc, List.cons_append]
  rw [htext] at h ⊢
  exact free_concat hq h

theorem needle_free (hm : Unmarked m) (hvalue : ¬ m ++ [61] <:+: f.value) (hword : ¬ m <:+ 32 :: f.word) :
    Free f.text (m ++ [61]) := by
  refine free ?_ fun h => hword ((needle_within hm hvalue).mp h)
  rw [List.dropLast_concat]
  exact (not_mem_of_unmarked hm).2

theorem quoted_free {c : UInt8} (hm : Unmarked m) (hc : isQuote c) (hvalue : ¬ m ++ [61] <:+: f.value)
    (hword : ¬ (m <:+ 32 :: f.word ∧ f.after = [] ∧ f.quote = c)) : Free f.text (m ++ [61, c]) := by
  refine free ?_ fun h => hword (quoted_within hm hc hvalue h)
  have hlast : m ++ [61, c] = (m ++ [61]) ++ [c] := by rw [List.append_assoc]; rfl
  rw [hlast, List.dropLast_concat, List.mem_append, List.mem_singleton, not_or]
  refine ⟨(not_mem_of_unmarked hm).2, fun he => ?_⟩
  have hq := f.quote_ok
  rw [he] at hq
  exact absurd hq (by decide)

theorem whole_word (hwhole : ¬ 32 :: n <:+ f.word) : 32 :: n <:+ 32 :: f.word ↔ f.word = n := by
  rw [List.suffix_cons_iff, List.cons.injEq]
  constructor
  · rintro (⟨-, h⟩ | h)
    · exact h.symm
    · exact absurd h hwhole
  · rintro rfl
    exact .inl ⟨rfl, rfl⟩

end Field

namespace Attr

variable {a : Attr} {n : List UInt8}

theorem unmarked (a : Attr) : Unmarked (a.name ++ a.before) ∧ Unmarked a.after := by
  have hspace : ∀ {b : UInt8}, isSpace b → b ≠ 61 ∧ ¬ isQuote b := fun h =>
    ⟨by rintro rfl; exact absurd h (by decide), not_quote_of_space h⟩
  have hname : ∀ {b : UInt8}, isNameByte b → b ≠ 61 ∧ ¬ isQuote b := fun h =>
    ⟨by rintro rfl; exact absurd h (by decide), not_quote_of_nameByte h⟩
  refine ⟨fun b hb => ?_, fun b hb => hspace (a.spaces.2.2 b hb)⟩
  rcases List.mem_append.mp hb with hb | hb
  · exact hname (a.name_bytes b hb)
  · exact hspace (a.spaces.2.1 b hb)

def field (a : Attr) : Field where
  word := a.name ++ a.before
  after := a.after
  quote := a.quote
  value := a.raw
  word_ok := a.unmarked.1
  after_ok := a.unmarked.2
  quote_ok := a.quote_ok

theorem word_field (a : Attr) : a.field.word = a.name ++ a.before := rfl

theorem field_text (h : a.space = [32]) : a.field.text = a.text := by
  rw [Field.text, Field.behind, Attr.text, front, h]
  simp only [field, List.append_assoc, List.cons_append, List.nil_append]

theorem suffix_field {b : UInt8} (hb : ¬ isSpace b) :
    n ++ [b] <:+ a.field.word ↔ a.before = [] ∧ n ++ [b] <:+ a.name := by
  constructor
  · rintro ⟨u, hu⟩
    rw [← List.append_assoc] at hu
    obtain hnil | ⟨w, c, hw⟩ := List.eq_nil_or_concat' a.before
    · refine ⟨hnil, u, ?_⟩
      rw [← List.append_assoc, hu, word_field, hnil, List.append_nil]
    · rw [word_field, hw, ← List.append_assoc] at hu
      have hc : isSpace c := a.spaces.2.1 c (by rw [hw]; exact List.mem_append_right w (List.mem_singleton_self c))
      exact absurd ((List.cons.inj (List.append_inj' hu rfl).2).1 ▸ hc) hb
  · rintro ⟨hnil, h⟩
    rwa [word_field, hnil, List.append_nil]

theorem field_word {b : UInt8} (hb : ¬ isSpace b) : a.field.word = n ++ [b] ↔ a.name = n ++ [b] ∧ a.before = [] := by
  constructor
  · intro h
    have hsuffix : n ++ [b] <:+ a.field.word := by rw [h]
    obtain ⟨hnil, -⟩ := (suffix_field hb).mp hsuffix
    rw [word_field, hnil, List.append_nil] at h
    exact ⟨h, hnil⟩
  · rintro ⟨h, hnil⟩
    rw [word_field, hnil, List.append_nil, h]

theorem field_whole {b : UInt8} (hb : ¬ isSpace b) : ¬ 32 :: (n ++ [b]) <:+ a.field.word := by
  intro h
  obtain ⟨-, hname⟩ := (suffix_field (n := 32 :: n) hb).mp h
  exact not_space_of_nameByte (a.name_bytes 32 (hname.subset (List.mem_cons_self ..))) (by decide)

end Attr
end XmppProxy.Lib.Xml
