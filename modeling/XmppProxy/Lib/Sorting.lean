import Mathlib.Data.List.Sort
import Mathlib.Data.List.Destutter

/-! Sorting by a comparator that need not be an order, and the removal of consecutive repetitions.
What is kept of a class of equal elements is the first of them in the list; that nothing is kept twice
is a matter of whether equal elements stand together. -/

namespace XmppProxy.Lib

section Order

variable {α : Type*} {cmp : α → α → Ordering} {l : List α} {a b : α}

/-- The comparator orders the elements of a list, up to ties. -/
structure OrderOn (cmp : α → α → Ordering) (l : List α) : Prop where
  refl : ∀ a ∈ l, cmp a a = .eq
  swap : ∀ a ∈ l, ∀ b ∈ l, cmp b a = (cmp a b).swap
  trans : ∀ a ∈ l, ∀ b ∈ l, ∀ c ∈ l, cmp a b ≠ .gt → cmp b c ≠ .gt → cmp a c ≠ .gt

def Ascending (cmp : α → α → Ordering) (l : List α) : Prop := l.Pairwise fun a b => cmp a b ≠ .gt

theorem OrderOn.of_transCmp (cmp : α → α → Ordering) [Std.TransCmp cmp] (l : List α) : OrderOn cmp l :=
  ⟨fun _ _ => Std.ReflCmp.compare_self, fun a _ b _ => Std.OrientedCmp.eq_swap,
    fun a _ b _ c _ hab hbc => by
      have hle : (cmp a c).isLE :=
        Std.TransCmp.isLE_trans (Ordering.isLE_iff_ne_gt.mpr hab) (Ordering.isLE_iff_ne_gt.mpr hbc)
      exact Ordering.isLE_iff_ne_gt.mp hle⟩

theorem OrderOn.congr {cmp' : α → α → Ordering} (h : OrderOn cmp l)
    (heq : ∀ a ∈ l, ∀ b ∈ l, cmp' a b = cmp a b) : OrderOn cmp' l where
  refl a ha := by rw [heq a ha a ha, h.refl a ha]
  swap a ha b hb := by rw [heq a ha b hb, heq b hb a ha, h.swap a ha b hb]
  trans a ha b hb c hc := by
    rw [heq a ha b hb, heq b hb c hc, heq a ha c hc]
    exact h.trans a ha b hb c hc

theorem OrderOn.total (h : OrderOn cmp l) (ha : a ∈ l) (hb : b ∈ l) : cmp a b ≠ .gt ∨ cmp b a ≠ .gt := by
  rw [h.swap a ha b hb]
  cases cmp a b <;> simp

theorem OrderOn.lt_of_ne_eq (h : OrderOn cmp l) (ha : a ∈ l) (hb : b ∈ l) (hab : cmp a b ≠ .gt)
    (hne : cmp a b ≠ .eq) : cmp b a = .gt := by
  rw [h.swap a ha b hb]
  cases hc : cmp a b with
  | lt => rfl
  | eq => exact absurd hc hne
  | gt => exact absurd hc hab

theorem OrderOn.antisymm (h : OrderOn cmp l) (ha : a ∈ l) (hb : b ∈ l) (hab : cmp a b ≠ .gt)
    (hba : cmp b a ≠ .gt) : cmp a b = .eq := by
  by_contra hne
  exact hba (h.lt_of_ne_eq ha hb hab hne)

end Order

/-- What a standard library's sort does: it leaves a permutation whatever the comparator, unless it
panics (`none`), and puts the elements in order when the comparator orders them. -/
structure SortBy where
  run : {α : Type} → (α → α → Ordering) → List α → Option (List α)
  perm : ∀ {α : Type} {cmp : α → α → Ordering} {l out : List α}, run cmp l = some out → out.Perm l
  sorted : ∀ {α : Type} {cmp : α → α → Ordering} {l : List α}, OrderOn cmp l →
    ∃ out, run cmp l = some out ∧ Ascending cmp out

section Insertion

variable {α : Type} (cmp : α → α → Ordering) (l : List α)

/-- Insertion from the left: an element passes those that are greater, and no others. -/
def insertLeft (l : List α) : List α := (l.reverse.insertionSort fun a b => cmp a b ≠ .lt).reverse

theorem insertLeft_perm : (insertLeft cmp l).Perm l :=
  (List.reverse_perm _).trans ((List.perm_insertionSort _ _).trans (List.reverse_perm _))

variable {cmp l}

theorem insertLeft_sorted (h : OrderOn cmp l) : Ascending cmp (insertLeft cmp l) := by
  -- Mathlib's sort asks for a total order of the whole type: it sorts the type of the list's elements.
  let r : {a // a ∈ l} → {a // a ∈ l} → Prop := fun a b => cmp a.1 b.1 ≠ .lt
  have hflip : ∀ a b, r a b ↔ cmp b.1 a.1 ≠ .gt := by
    intro a b
    show cmp a.1 b.1 ≠ .lt ↔ _
    rw [h.swap a.1 a.2 b.1 b.2]
    cases cmp a.1 b.1 <;> simp
  have : Std.Total r := ⟨fun a b => by
    rw [hflip, hflip]
    exact h.total b.2 a.2⟩
  have : IsTrans _ r := ⟨fun a b c hab hbc => by
    rw [hflip] at hab hbc ⊢
    exact h.trans _ c.2 _ b.2 _ a.2 hbc hab⟩
  have hmap : (l.attach.reverse.insertionSort r).map Subtype.val =
      l.reverse.insertionSort fun a b => cmp a b ≠ .lt := by
    rw [List.map_insertionSort r (fun a b => cmp a b ≠ .lt) Subtype.val _ (fun _ _ _ _ => Iff.rfl),
      List.map_reverse, List.attach_map_subtype_val]
  have hs : (l.attach.reverse.insertionSort r).Pairwise r := List.pairwise_insertionSort r _
  rw [Ascending, insertLeft, List.pairwise_reverse, ← hmap, List.pairwise_map]
  exact hs.imp fun {a b} hab => (hflip a b).mp hab

end Insertion

/-- The sort that Rust's library uses on short slices. -/
def insertionSortBy : SortBy where
  run cmp l := some (insertLeft cmp l)
  perm h := by
    cases h
    exact insertLeft_perm _ _
  sorted h := ⟨_, rfl, insertLeft_sorted h⟩

section Dedup

variable {α : Type*} [BEq α]

def Differs (kept a : α) : Prop := ¬ a == kept

instance : DecidableRel (Differs (α := α)) := fun kept a => inferInstanceAs (Decidable (¬ a == kept))

/-- `Vec::dedup`: an element goes when it is equal to the one that was kept last. -/
def dedup (l : List α) : List α := l.destutter Differs

def Grouped (l : List α) : Prop := ∀ a x b, List.Sublist [a, x, b] l → a == b → a == x

theorem dedup_sublist (l : List α) : (dedup l).Sublist l := List.destutter_sublist _ l

theorem dedup_nil : dedup ([] : List α) = [] := rfl

theorem dedup_singleton (a : α) : dedup [a] = [a] := rfl

theorem dedup_same {a b : α} (h : b == a) (l : List α) : dedup (a :: b :: l) = dedup (a :: l) := by
  show List.destutter' Differs a (b :: l) = List.destutter' Differs a l
  exact List.destutter'_cons_neg l (not_not.mpr h)

theorem dedup_other {a b : α} (h : ¬ b == a) (l : List α) :
    dedup (a :: b :: l) = a :: dedup (b :: l) := by
  show List.destutter' Differs a (b :: l) = a :: List.destutter' Differs b l
  exact List.destutter'_cons_pos l h

theorem head_mem_dedup (a : α) (l : List α) : a ∈ dedup (a :: l) :=
  List.mem_destutter' l Differs a

/-- An induction that follows what `dedup` compares: the element kept last with the next one. -/
theorem dedup_induction {P : List α → Prop} (nil : P []) (singleton : ∀ a, P [a])
    (same : ∀ a b l, b == a → P (a :: l) → P (a :: b :: l))
    (other : ∀ a b l, ¬ b == a → P (b :: l) → P (a :: b :: l)) (l : List α) : P l := by
  cases l with
  | nil => exact nil
  | cons a l =>
    induction l generalizing a with
    | nil => exact singleton a
    | cons b l ih =>
      by_cases h : b == a
      · exact same a b l h (ih a)
      · exact other a b l h (ih b)

variable [EquivBEq α]

theorem distinct_perm_iff {l l' : List α} (h : l.Perm l') :
    (l.Pairwise fun a b => ¬ a == b) ↔ l'.Pairwise fun a b => ¬ a == b :=
  h.pairwise_iff fun hab hba => hab (BEq.symm hba)

theorem eq_of_distinct {l : List α} {a b : α} (h : l.Pairwise fun a b => ¬ a == b) (ha : a ∈ l)
    (hb : b ∈ l) (hab : a == b) : a = b := by
  by_contra hne
  have : Std.Symm fun a b : α => ¬ a == b := ⟨fun a b hab hba => hab (BEq.symm hba)⟩
  exact h.forall ha hb hne hab

theorem dedup_first {r : α → α → Prop} (l : List α) (hr : l.Pairwise r) (hrefl : ∀ a ∈ l, r a a) :
    ∀ a ∈ l, ∃ b ∈ dedup l, b == a ∧ ∀ c ∈ l, c == a → r b c := by
  induction l using dedup_induction with
  | nil => simp
  | singleton a =>
    intro x hx
    obtain rfl := List.mem_singleton.mp hx
    exact ⟨x, head_mem_dedup x [], BEq.rfl, fun c hc _ => List.mem_singleton.mp hc ▸ hrefl x hx⟩
  | same a b l h ih =>
    have hr' : (a :: l).Pairwise r := hr.sublist (.cons_cons a (List.sublist_cons_self b l))
    have hrefl' : ∀ x ∈ a :: l, r x x := fun x hx => hrefl x (by
      rcases List.mem_cons.mp hx with rfl | hx
      · exact List.mem_cons_self
      · exact List.mem_cons_of_mem _ (List.mem_cons_of_mem _ hx))
    intro x hx
    rw [dedup_same h]
    by_cases hxa : a == x
    · -- The head itself is the first of its class.
      refine ⟨a, head_mem_dedup a l, hxa, fun c hc _ => ?_⟩
      rcases List.mem_cons.mp hc with rfl | hc
      · exact hrefl c List.mem_cons_self
      · exact List.rel_of_pairwise_cons hr hc
    · have hxl : x ∈ a :: l := by
        rcases List.mem_cons.mp hx with rfl | hx
        · exact List.mem_cons_self
        · rcases List.mem_cons.mp hx with rfl | hx
          · exact absurd (BEq.symm h) hxa
          · exact List.mem_cons_of_mem _ hx
      obtain ⟨y, hy, hyx, hfirst⟩ := ih hr' hrefl' x hxl
      refine ⟨y, hy, hyx, fun c hc hcx => ?_⟩
      rcases List.mem_cons.mp hc with rfl | hc
      · exact absurd hcx hxa
      · rcases List.mem_cons.mp hc with rfl | hc
        · exact absurd (BEq.trans (BEq.symm h) hcx) hxa
        · exact hfirst c (List.mem_cons_of_mem _ hc) hcx
  | other a b l h ih =>
    intro x hx
    rw [dedup_other h]
    by_cases hxa : a == x
    · refine ⟨a, List.mem_cons_self, hxa, fun c hc _ => ?_⟩
      rcases List.mem_cons.mp hc with rfl | hc
      · exact hrefl c List.mem_cons_self
      · exact List.rel_of_pairwise_cons hr hc
    · have hxl : x ∈ b :: l := (List.mem_cons.mp hx).resolve_left fun heq => hxa (heq ▸ BEq.rfl)
      obtain ⟨y, hy, hyx, hfirst⟩ :=
        ih hr.of_cons (fun z hz => hrefl z (List.mem_cons_of_mem _ hz)) x hxl
      refine ⟨y, List.mem_cons_of_mem _ hy, hyx, fun c hc hcx => ?_⟩
      rcases List.mem_cons.mp hc with rfl | hc
      · exact absurd hcx hxa
      · exact hfirst c hc hcx

theorem mem_dedup {l : List α} {a : α} (ha : a ∈ l) : ∃ b ∈ dedup l, b == a := by
  obtain ⟨b, hb, hba, -⟩ := dedup_first (r := fun _ _ => True) l
    (List.pairwise_of_forall fun _ _ => trivial) (fun _ _ => trivial) a ha
  exact ⟨b, hb, hba⟩

theorem grouped_same {a b : α} {l : List α} (h : b == a) : Grouped (a :: b :: l) ↔ Grouped (a :: l) := by
  constructor
  · intro hg x y z hs
    exact hg x y z (hs.trans (.cons_cons a (List.sublist_cons_self b l)))
  · intro hg x y z hs hxz
    -- The second element may be read as the first: they are equal.
    cases hs with
    | cons _ hs =>
      cases hs with
      | cons _ hs => exact hg x y z (hs.trans (List.sublist_cons_self a l)) hxz
      | cons_cons _ hs => exact BEq.trans h (hg a y z (.cons_cons a hs) (BEq.trans (BEq.symm h) hxz))
    | cons_cons _ hs =>
      cases hs with
      | cons _ hs => exact hg a y z (.cons_cons a hs) hxz
      | cons_cons _ hs => exact BEq.symm h

theorem grouped_other {a b : α} {l : List α} (h : ¬ b == a) :
    Grouped (a :: b :: l) ↔ Grouped (b :: l) ∧ ∀ c ∈ b :: l, ¬ a == c := by
  constructor
  · intro hg
    refine ⟨fun x y z hs => hg x y z (.cons a hs), fun c hc hac => ?_⟩
    rcases List.mem_cons.mp hc with rfl | hc
    · exact h (BEq.symm hac)
    · have hs : List.Sublist [a, b, c] (a :: b :: l) :=
        .cons_cons a (.cons_cons b (List.singleton_sublist.mpr hc))
      exact h (BEq.symm (hg a b c hs hac))
  · rintro ⟨hg, hne⟩ x y z hs hxz
    cases hs with
    | cons _ hs => exact hg x y z hs hxz
    | cons_cons _ hs =>
      have hz : z ∈ b :: l := hs.subset (List.mem_cons_of_mem _ List.mem_cons_self)
      exact absurd hxz (hne z hz)

/-- No two equal elements are kept exactly when equal elements stand together. -/
theorem dedup_distinct_iff (l : List α) :
    ((dedup l).Pairwise fun a b => ¬ a == b) ↔ Grouped l := by
  induction l using dedup_induction with
  | nil => simp [dedup_nil, Grouped]
  | singleton a =>
    have hg : Grouped [a] := fun x y z hs => absurd hs.length_le (by simp)
    simp [dedup_singleton, hg]
  | same a b l h ih => rw [dedup_same h, ih, grouped_same h]
  | other a b l h ih =>
    have hmem : (∀ c ∈ dedup (b :: l), ¬ a == c) ↔ ∀ c ∈ b :: l, ¬ a == c := by
      constructor
      · intro hne c hc hac
        obtain ⟨d, hd, hdc⟩ := mem_dedup hc
        exact hne d hd (BEq.trans hac (BEq.symm hdc))
      · exact fun hne c hc => hne c ((dedup_sublist _).subset hc)
    rw [dedup_other h, List.pairwise_cons, hmem, ih, grouped_other h, and_comm]

/-- In a sorted list equal elements stand together exactly when nothing else is between them in the
order. -/
theorem grouped_iff {cmp : α → α → Ordering} {l : List α} (ho : OrderOn cmp l) (hs : Ascending cmp l)
    (htie : ∀ a ∈ l, ∀ b ∈ l, cmp a b = .eq → a == b) :
    Grouped l ↔ ∀ a ∈ l, ∀ x ∈ l, ∀ b ∈ l, a == b → cmp a x ≠ .gt → cmp x b ≠ .gt → a == x := by
  constructor
  · intro hg a ha x hx b hb hab hax hxb
    by_contra hne
    -- Then `a` comes before `x`, and `b` after it.
    have hgax : cmp x a = .gt := ho.lt_of_ne_eq ha hx hax fun he => hne (htie a ha x hx he)
    have hgxb : cmp b x = .gt := ho.lt_of_ne_eq hx hb hxb fun he =>
      hne (BEq.trans hab (BEq.symm (htie x hx b hb he)))
    obtain ⟨u, v, rfl⟩ := List.append_of_mem hx
    obtain ⟨-, hxv, huv⟩ := List.pairwise_append.mp hs
    have hau : a ∈ u := by
      rcases List.mem_append.mp ha with ha | ha
      · exact ha
      · rcases List.mem_cons.mp ha with rfl | ha
        · exact absurd BEq.rfl hne
        · exact absurd hgax (List.rel_of_pairwise_cons hxv ha)
    have hbv : b ∈ v := by
      rcases List.mem_append.mp hb with hb | hb
      · exact absurd hgxb (huv b hb x List.mem_cons_self)
      · exact (List.mem_cons.mp hb).resolve_left fun he => hne (he ▸ hab)
    have hsub : List.Sublist ([a] ++ [x, b]) (u ++ x :: v) :=
      (List.singleton_sublist.mpr hau).append (.cons_cons x (List.singleton_sublist.mpr hbv))
    exact hne (hg a x b hsub hab)
  · intro h a x b hsub hab
    obtain ⟨⟨hax, -⟩, hxb⟩ : (cmp a x ≠ .gt ∧ cmp a b ≠ .gt) ∧ cmp x b ≠ .gt := by
      simpa using hs.sublist hsub
    have hmem := hsub.subset
    exact h a (hmem (by simp)) x (hmem (by simp)) b (hmem (by simp)) hab hax hxb

end Dedup
end XmppProxy.Lib
