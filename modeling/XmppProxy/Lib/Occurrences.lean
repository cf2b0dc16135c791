import XmppProxy.Lib.Words

/-! How often one word stands in another, and what replacements make of that and of the length. -/

namespace XmppProxy.Lib

variable {α : Type*} [DecidableEq α] {p q r t u w s : List α} {a c : α}

def occurrences (p : List α) : List α → Nat
  | [] => 0
  | a :: s => (if p <+: a :: s then 1 else 0) + occurrences p s

@[simp] theorem occurrences_nil (p : List α) : occurrences p [] = 0 := rfl

theorem occurrences_hit (h : p <+: a :: s) : occurrences p (a :: s) = 1 + occurrences p s := by
  rw [occurrences, if_pos h]

theorem occurrences_miss (h : ¬ p <+: a :: s) : occurrences p (a :: s) = occurrences p s := by
  rw [occurrences, if_neg h, Nat.zero_add]

theorem occurrences_append (h : Free u p) (s : List α) : occurrences p (u ++ s) = occurrences p s := by
  induction u with
  | nil => rfl
  | cons a u ih =>
    have hmiss : ¬ p <+: a :: (u ++ s) := h.not_isPrefix (List.cons_ne_nil a u) s
    rw [List.cons_append, occurrences_miss hmiss, ih (h.suffix (List.suffix_cons a u))]

theorem occurrences_first (hp : p ≠ []) (hpq : p <+: q) (hfree : Free q.tail p) (s : List α) :
    occurrences p (q ++ s) = 1 + occurrences p s := by
  obtain ⟨a, q, rfl⟩ := List.exists_cons_of_ne_nil fun hq => hp (List.prefix_nil.mp (hq ▸ hpq))
  have hhit : p <+: a :: (q ++ s) := hpq.trans (List.prefix_append (a :: q) s)
  have hfree' : Free q p := hfree
  rw [List.cons_append, occurrences_hit hhit, occurrences_append hfree']

theorem occurrences_pos (hp : p ≠ []) : 0 < occurrences p s ↔ p <:+: s := by
  induction s with
  | nil => exact ⟨fun h => absurd h (Nat.lt_irrefl 0), fun h => absurd (List.infix_nil.mp h) hp⟩
  | cons a s ih =>
    rw [List.infix_cons_iff]
    by_cases h : p <+: a :: s
    · rw [occurrences_hit h]
      exact ⟨fun _ => .inl h, fun _ => by omega⟩
    · rw [occurrences_miss h, ih]
      exact ⟨.inr, fun h' => h'.resolve_left h⟩

theorem replaceAll_length (hp : p ≠ []) (hself : Free p.tail p) (r s : List α) :
    (replaceAll p r s).length + occurrences p s * p.length = s.length + occurrences p s * r.length := by
  induction s using words_induction hp with
  | nil => rw [replaceAll_nil, occurrences_nil, Nat.zero_mul, Nat.zero_mul]
  | hit s ih =>
    rw [replaceAll_hit hp, occurrences_first hp List.prefix_rfl hself, List.length_append,
      List.length_append, Nat.add_mul, Nat.add_mul]
    omega
  | miss a s hmiss ih =>
    rw [replaceAll_miss hmiss, occurrences_miss hmiss, List.length_cons, List.length_cons]
    omega

/-- Two words that do not overlap, neither with the other one nor with what is put in for it. -/
structure Separate (q t w : List α) : Prop where
  found : Free q w
  put : Free t w
  tailFound : Free w.tail q
  tailPut : Free w.tail t

instance (q t w : List α) : Decidable (Separate q t w) :=
  decidable_of_iff (Free q w ∧ Free t w ∧ Free w.tail q ∧ Free w.tail t)
    ⟨fun h => ⟨h.1, h.2.1, h.2.2.1, h.2.2.2⟩, fun h => ⟨h.found, h.put, h.tailFound, h.tailPut⟩⟩

theorem prefix_cons_replaceAll (hq : q ≠ []) (hfound : Free w.tail q) (hput : Free w.tail t) :
    w <+: a :: replaceAll q t s ↔ w <+: a :: s := by
  refine ⟨prefix_cons_of_replaceAll hq hput, fun h => ?_⟩
  cases w with
  | nil => exact List.nil_prefix
  | cons b w =>
    obtain ⟨rfl, s, rfl⟩ := List.cons_prefix_cons.mp h
    have hfound' : Free w q := hfound
    rw [replaceAll_append hfound']
    exact List.cons_prefix_cons.mpr ⟨rfl, List.prefix_append _ _⟩

theorem occurrences_replaceAll (hq : q ≠ []) (h : Separate q t w) (s : List α) :
    occurrences w (replaceAll q t s) = occurrences w s := by
  induction s using words_induction hq with
  | nil => rfl
  | hit s ih => rw [replaceAll_hit hq, occurrences_append h.put, occurrences_append h.found, ih]
  | miss a s hmiss ih =>
    rw [replaceAll_miss hmiss, occurrences, occurrences, ih]
    simp only [prefix_cons_replaceAll hq h.tailFound h.tailPut]

theorem occurrences_longer (hw : w ≠ []) (hwq : w <+: q) (hfound : Free q.tail w) (hself : Free q.tail q)
    (hput : Free t w) (htail : Free w.tail q) (htail' : Free w.tail t) (s : List α) :
    occurrences w (replaceAll q t s) + occurrences q s = occurrences w s := by
  have hq : q ≠ [] := fun hq => hw (List.prefix_nil.mp (hq ▸ hwq))
  induction s using words_induction hq with
  | nil => rfl
  | hit s ih =>
    rw [replaceAll_hit hq, occurrences_append hput, occurrences_first hw hwq hfound,
      occurrences_first hq List.prefix_rfl hself]
    omega
  | miss a s hmiss ih =>
    rw [replaceAll_miss hmiss, occurrences_miss hmiss, occurrences, occurrences.eq_2 w a s, ← ih,
      Nat.add_assoc]
    simp only [prefix_cons_replaceAll hq htail htail']

theorem infix_replaceAll_iff (hq : q ≠ []) (hw : w ≠ []) (h : Separate q t w) :
    w <:+: replaceAll q t s ↔ w <:+: s := by
  rw [← occurrences_pos hw, ← occurrences_pos hw, occurrences_replaceAll hq h]

theorem infix_replaceSymbol_iff (hc : c ∉ w) (hw : ∀ a ∈ w, a ∉ r) (hr : r ≠ []) :
    w <:+: replaceSymbol c r s ↔ w <:+: s := by
  refine ⟨fun h => ?_, infix_replaceSymbol hc⟩
  induction s with
  | nil => exact h
  | cons a s ih =>
    rw [replaceSymbol_cons] at h
    by_cases ha : a = c
    · rw [if_pos ha] at h
      have hwne : w = [] ∨ w ≠ [] := Decidable.em _
      rcases hwne with rfl | hwne
      · exact List.nil_infix
      · exact List.infix_cons_iff.mpr
          (.inr (ih (infix_of_append (free_of_disjoint hwne fun b hb hb' => hw b hb' hb) h)))
    · rw [if_neg ha, List.singleton_append] at h
      rcases List.infix_cons_iff.mp h with h | h
      · have hpre : w <+: replaceSymbol c r (a :: s) := by
          rw [replaceSymbol_cons, if_neg ha]
          exact h
        exact (prefix_of_replaceSymbol hw hr hpre).isInfix
      · exact List.infix_cons_iff.mpr (.inr (ih h))

end XmppProxy.Lib
