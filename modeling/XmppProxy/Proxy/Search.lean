import XmppProxy.Model.SliceSubsequence

/-! The searches in slices against their reference: the least place where the needle stands, with no range
ever left, what a replacement there makes of the rest, and what lies between two needles. -/

namespace XmppProxy

open Lib

variable {α : Type} [DecidableEq α] {h n r p q : List α} {i : Nat}

def OccursAt (h n : List α) (i : Nat) : Prop := ∃ p q, h = p ++ n ++ q ∧ p.length = i

def FirstAt (h n : List α) (i : Nat) : Prop := OccursAt h n i ∧ ∀ j < i, ¬ OccursAt h n j

omit [DecidableEq α] in
theorem occursAt_iff : OccursAt h n i ↔ i ≤ h.length ∧ n <+: h.drop i := by
  constructor
  · rintro ⟨p, q, rfl, rfl⟩
    refine ⟨by simp, q, ?_⟩
    rw [List.append_assoc, List.drop_left]
  · rintro ⟨hi, q, hq⟩
    refine ⟨h.take i, q, ?_, List.length_take_of_le hi⟩
    rw [List.append_assoc, hq, List.take_append_drop]

omit [DecidableEq α] in
theorem firstAt_iff : FirstAt h n i ↔ Leftmost h n i := by
  constructor
  · rintro ⟨hat, hbefore⟩
    obtain ⟨hi, hp⟩ := occursAt_iff.mp hat
    exact ⟨hp, fun j hj hp' => hbefore j hj (occursAt_iff.mpr ⟨by omega, hp'⟩)⟩
  · intro hl
    have hle := hl.le
    exact ⟨occursAt_iff.mpr ⟨by omega, hl.1⟩, fun j hj hat => hl.2 j hj (occursAt_iff.mp hat).2⟩

omit [DecidableEq α] in
theorem exists_firstAt (hin : n <:+: h) : ∃ p q, h = p ++ n ++ q ∧ FirstAt h n p.length := by
  obtain ⟨i, hi⟩ := exists_leftmost hin
  have hat := firstAt_iff.mpr hi
  obtain ⟨p, q, hpq, rfl⟩ := hat.1
  exact ⟨p, q, hpq, hat⟩

theorem firstIndexOf_first : firstIndexOf h n = .ok i ↔ FirstAt h n i :=
  firstIndexOf_eq_ok.trans firstAt_iff.symm

omit [DecidableEq α] in
theorem slice_ok {s : List α} {j : Nat} (hij : i ≤ j) (hj : j ≤ s.length) :
    slice s i j = .ok ((s.drop i).take (j - i)) := by
  rw [slice, if_pos ⟨hij, hj⟩, List.drop_take]

/-- Indices that leave room for the needle are never out of range. -/
theorem search_eq {s needle : List α} {is : List Nat} (his : ∀ i ∈ is, i + needle.length ≤ s.length) :
    Slice.search s needle is =
      match is.find? fun i => (s.drop i).take needle.length = needle with
      | some i => .ok i
      | none => .err .notFound := by
  induction is with
  | nil => rfl
  | cons i is ih =>
    have hrest := ih fun j hj => his j (List.mem_cons_of_mem _ hj)
    rw [Slice.search, slice_ok (Nat.le_add_right _ _) (his i (List.mem_cons_self ..)), Nat.add_sub_cancel_left,
      Outcome.ok_bind, List.find?_cons]
    by_cases heq : (s.drop i).take needle.length = needle
    · rw [if_pos heq, decide_eq_true heq]
    · rw [if_neg heq, decide_eq_false heq]
      exact hrest

theorem Slice.firstIndexOf_eq (s needle : List α) :
    Slice.firstIndexOf s needle = XmppProxy.firstIndexOf s needle := by
  unfold Slice.firstIndexOf XmppProxy.firstIndexOf
  by_cases hlen : needle.length ≤ s.length
  · rw [if_pos hlen, if_pos hlen]
    refine search_eq fun i hi => ?_
    have := List.mem_range.mp hi
    omega
  · rw [if_neg hlen, if_neg hlen]

theorem Slice.replaceFirst_eq (s needle replacement : List α) :
    Slice.replaceFirst s needle replacement = .ok (XmppProxy.replaceFirst s needle replacement) := by
  unfold Slice.replaceFirst Vec.replaceFirst Vec.firstIndexOf XmppProxy.replaceFirst
  rw [Slice.firstIndexOf_eq]
  rcases firstIndexOf_cases s needle with ⟨i, hi⟩ | hnone
  · have hle := (firstIndexOf_eq_ok.mp hi).le
    rw [hi]
    dsimp only
    rw [slice_ok hle (Nat.le_refl _), slice_ok (Nat.zero_le i) (by omega)]
    simp only [Outcome.ok_bind, Outcome.pure_eq, List.drop_zero, Nat.sub_zero]
    rw [← List.length_drop, List.take_length]
  · rw [hnone]

theorem replaceFirst_at (hat : FirstAt (p ++ n ++ q) n p.length) :
    replaceFirst (p ++ n ++ q) n r = p ++ r ++ q := by
  unfold replaceFirst
  rw [firstIndexOf_first.mpr hat]
  dsimp only
  rw [← List.length_append, List.drop_left, List.append_assoc p n, List.take_left]

theorem replaceFirst_none (hnone : ∀ i, ¬ OccursAt h n i) : replaceFirst h n r = h := by
  unfold replaceFirst
  rcases firstIndexOf_cases h n with ⟨i, hi⟩ | herr
  · exact absurd (firstIndexOf_first.mp hi).1 (hnone i)
  · rw [herr]

theorem replaceFirst_hit (n r s : List α) : replaceFirst (n ++ s) n r = r ++ s := by
  have hat : FirstAt ([] ++ n ++ s) n ([] : List α).length := ⟨⟨[], s, rfl, rfl⟩, fun j hj => absurd hj (by simp)⟩
  exact replaceFirst_at hat

theorem replaceFirst_miss {a : α} (hmiss : ¬ n <+: a :: h) (r : List α) :
    replaceFirst (a :: h) n r = a :: replaceFirst h n r := by
  unfold replaceFirst
  rcases firstIndexOf_cases h n with ⟨i, hi⟩ | hnone
  · have hl := firstIndexOf_eq_ok.mp hi
    have hnext : Leftmost (a :: h) n (i + 1) := by
      refine ⟨hl.1, fun j hj => ?_⟩
      cases j with
      | zero => exact hmiss
      | succ j => exact hl.2 j (by omega)
    rw [hi, firstIndexOf_eq_ok.mpr hnext]
    dsimp only
    rw [List.take_succ_cons, Nat.add_right_comm, List.drop_succ_cons]
    rfl
  · have hnone' : firstIndexOf (a :: h) n = .err .notFound := by
      refine (firstIndexOf_cases (a :: h) n).resolve_left fun ⟨i, hi⟩ => ?_
      rcases List.infix_cons_iff.mp (firstIndexOf_eq_ok.mp hi).isInfix with hin | hin
      · exact hmiss hin
      · obtain ⟨j, hj⟩ := exists_leftmost hin
        cases hnone.symm.trans (firstIndexOf_eq_ok.mpr hj)
    rw [hnone, hnone']

theorem replaceFirst_append {u : List α} (hu : Free u n) (r s : List α) :
    replaceFirst (u ++ s) n r = u ++ replaceFirst s n r := by
  induction u with
  | nil => rfl
  | cons a u ih =>
    have hmiss : ¬ n <+: a :: (u ++ s) := hu.not_isPrefix (List.cons_ne_nil a u) s
    rw [List.cons_append, replaceFirst_miss hmiss, ih (hu.suffix (List.suffix_cons a u))]
    rfl

/-- In a text put together from parts, of which one at most begins with the needle, and the others do not
overlap with it. -/
theorem replaceFirst_flatMap {ι : Type} {text : ι → List α} (hit : ι → Prop) [DecidablePred hit] (new : ι → List α)
    {is : List ι} {s : List α} (hhit : ∀ i ∈ is, hit i → ∃ w, text i = n ++ w ∧ new i = r ++ w)
    (hmiss : ∀ i ∈ is, ¬ hit i → Free (text i) n) (hone : is.Pairwise fun i j => ¬ (hit i ∧ hit j))
    (hs : ¬ n <:+: s) :
    replaceFirst (is.flatMap text ++ s) n r = (is.flatMap fun i => if hit i then new i else text i) ++ s := by
  induction is with
  | nil =>
    refine replaceFirst_none fun i hat => hs ?_
    exact (occursAt_iff.mp hat).2.isInfix.trans (List.drop_suffix i s).isInfix
  | cons i is ih =>
    obtain ⟨hother, hone⟩ := List.pairwise_cons.mp hone
    rw [List.flatMap_cons, List.flatMap_cons, List.append_assoc]
    by_cases hi : hit i
    · obtain ⟨w, htext, hnew⟩ := hhit i (List.mem_cons_self ..) hi
      have hrest : (is.flatMap fun i => if hit i then new i else text i) = is.flatMap text := by
        refine List.flatMap_congr fun j hj => if_neg fun hj' => hother j hj ⟨hi, hj'⟩
      rw [if_pos hi, hrest, htext, hnew, List.append_assoc, replaceFirst_hit, List.append_assoc, List.append_assoc]
    · rw [if_neg hi, replaceFirst_append (hmiss i (List.mem_cons_self ..) hi),
        ih (fun j hj => hhit j (List.mem_cons_of_mem i hj)) (fun j hj => hmiss j (List.mem_cons_of_mem i hj)) hone,
        List.append_assoc]

theorem firstIndexOf_err : (∃ e, firstIndexOf h n = .err e) ↔ ∀ i, ¬ OccursAt h n i := by
  rw [Outcome.exists_err_iff (firstIndexOf_ne_panic h n)]
  constructor
  · rintro hnone i ⟨p, q, hpq, -⟩
    obtain ⟨p₁, -, -, hat⟩ := exists_firstAt ⟨p, q, hpq.symm⟩
    exact hnone ⟨_, firstIndexOf_first.mpr hat⟩
  · rintro hnone ⟨i, hi⟩
    exact hnone i (firstIndexOf_first.mp hi).1

/-- Both implementations find the least place, replace what stands there, and nothing is out of range; a
replacement is undone by the one in the other direction if what was put in does not stand further in front. -/
theorem search_and_replace (h n r : List α) :
    (∀ i, Slice.firstIndexOf h n = .ok i ↔ FirstAt h n i) ∧
    ((∃ e, Slice.firstIndexOf h n = .err e) ↔ ∀ i, ¬ OccursAt h n i) ∧
    Slice.firstIndexOf h n ≠ .panic ∧
    Vec.firstIndexOf h n = Slice.firstIndexOf h n ∧
    Vec.replaceFirst h n r = Slice.replaceFirst h n r ∧
    (∀ p q, h = p ++ n ++ q → FirstAt h n p.length →
      Slice.replaceFirst h n r = .ok (p ++ r ++ q) ∧
        ((∀ i < p.length, ¬ OccursAt (p ++ r ++ q) r i) → Slice.replaceFirst (p ++ r ++ q) r n = .ok h)) ∧
    ((∀ i, ¬ OccursAt h n i) → Slice.replaceFirst h n r = .ok h) := by
  rw [Slice.firstIndexOf_eq]
  refine ⟨fun i => firstIndexOf_first, firstIndexOf_err, firstIndexOf_ne_panic h n, ?_, rfl, ?_, fun hnone => ?_⟩
  · exact Slice.firstIndexOf_eq h n
  · rintro p q rfl hat
    rw [Slice.replaceFirst_eq, replaceFirst_at hat]
    refine ⟨rfl, fun hbefore => ?_⟩
    rw [Slice.replaceFirst_eq, replaceFirst_at ⟨⟨p, q, rfl, rfl⟩, hbefore⟩]
  · rw [Slice.replaceFirst_eq, replaceFirst_none hnone]

variable {before after m x : List α}

def Between (h before after m : List α) : Prop :=
  ∃ p q, h = p ++ before ++ (m ++ after ++ q) ∧ FirstAt h before p.length ∧
    FirstAt (m ++ after ++ q) after m.length

omit [DecidableEq α] in
theorem exists_between_iff :
    (∃ m, Between h before after m) ↔ ∃ p m q, h = p ++ before ++ (m ++ after ++ q) := by
  constructor
  · rintro ⟨m, p, q, heq, -, -⟩
    exact ⟨p, m, q, heq⟩
  · rintro ⟨p, m, q, heq⟩
    obtain ⟨p₁, rest, hfirst, hat⟩ := exists_firstAt (h := h) ⟨p, m ++ after ++ q, heq.symm⟩
    have hle : p₁.length ≤ p.length := by
      by_contra hlt
      exact hat.2 p.length (by omega) ⟨p, _, heq, rfl⟩
    have hbehind : m ++ after ++ q <:+ rest := by
      refine List.suffix_of_suffix_length_le ⟨_, heq.symm⟩ ⟨_, hfirst.symm⟩ ?_
      have hlen := congrArg List.length (heq.symm.trans hfirst)
      simp only [List.length_append] at hlen ⊢
      omega
    obtain ⟨m₁, q₁, hrest, hat₁⟩ := exists_firstAt (List.IsInfix.trans ⟨m, q, rfl⟩ hbehind.isInfix)
    exact ⟨m₁, p₁, q₁, hrest ▸ hfirst, hat, hrest ▸ hat₁⟩

omit [DecidableEq α] in
theorem take_dropLast (hne : after ≠ []) :
    (m ++ after ++ q).take (m.length + after.length - 1) = m ++ after.dropLast := by
  have hpos := List.length_pos_iff.mpr hne
  rw [List.append_assoc, Nat.add_sub_assoc hpos, List.take_length_add_append,
    List.take_append_of_le_length (by omega), List.dropLast_eq_take]

theorem extractBetween_eq_ok (hne : after ≠ []) :
    extractBetween h before after = .ok x ↔ ∃ m, Between h before after m ∧ x = m ++ after.dropLast := by
  unfold extractBetween
  constructor
  · intro heq
    obtain ⟨i, hi, heq⟩ := Outcome.bind_eq_ok.mp heq
    obtain ⟨k, hk, heq⟩ := Outcome.bind_eq_ok.mp heq
    have hat := firstIndexOf_first.mp hi
    obtain ⟨p, rest, rfl, rfl⟩ := hat.1
    rw [← List.length_append, List.drop_left] at hk heq
    have hat₁ := firstIndexOf_first.mp hk
    obtain ⟨m, q, rfl, rfl⟩ := hat₁.1
    rw [take_dropLast hne] at heq
    exact ⟨m, ⟨p, q, rfl, hat, hat₁⟩, (Outcome.ok.inj heq).symm⟩
  · rintro ⟨m, ⟨p, q, rfl, hat, hat₁⟩, rfl⟩
    rw [firstIndexOf_first.mpr hat, Outcome.ok_bind, ← List.length_append, List.drop_left]
    dsimp only
    rw [firstIndexOf_first.mpr hat₁, Outcome.ok_bind, take_dropLast hne]
    rfl

theorem extractBetween_ne_panic (h before after : List α) : extractBetween h before after ≠ .panic := by
  unfold extractBetween
  exact Outcome.bind_ne_panic (firstIndexOf_ne_panic _ _) fun _ =>
    Outcome.bind_ne_panic (firstIndexOf_ne_panic _ _) fun _ => by simp

theorem Slice.extractBetween_eq (h before : List α) (hne : after ≠ []) :
    Slice.extractBetween h before after = XmppProxy.extractBetween h before after := by
  have hpos := List.length_pos_iff.mpr hne
  unfold Slice.extractBetween XmppProxy.extractBetween
  rw [Slice.firstIndexOf_eq]
  rcases firstIndexOf_cases h before with ⟨i, hi⟩ | hi
  · have hle := (firstIndexOf_eq_ok.mp hi).le
    rw [hi]
    simp only [Outcome.ok_bind]
    rw [slice_ok hle (Nat.le_refl _), ← List.length_drop, List.take_length]
    simp only [Outcome.ok_bind]
    rw [Slice.firstIndexOf_eq]
    rcases firstIndexOf_cases (h.drop (i + before.length)) after with ⟨k, hk⟩ | hk
    · have hle := (firstIndexOf_eq_ok.mp hk).le
      rw [hk]
      simp only [Outcome.ok_bind]
      rw [usizeDec, if_pos (by omega), Outcome.ok_bind, slice_ok (Nat.zero_le _) (by omega)]
      rfl
    · rw [hk]
      rfl
  · rw [hi]
    rfl

theorem Slice.extractBetween_eq_ok (hne : after ≠ []) :
    Slice.extractBetween h before after = .ok x ↔ ∃ m, Between h before after m ∧ x = m ++ after.dropLast := by
  rw [Slice.extractBetween_eq h before hne, XmppProxy.extractBetween_eq_ok hne]

theorem Slice.extractBetween_ne_panic (h before : List α) (hne : after ≠ []) :
    Slice.extractBetween h before after ≠ .panic := by
  rw [Slice.extractBetween_eq h before hne]
  exact XmppProxy.extractBetween_ne_panic h before after

theorem Slice.extractBetween_err (hne : after ≠ []) :
    (∃ e, Slice.extractBetween h before after = .err e) ↔ ¬ ∃ m, Between h before after m := by
  rw [Outcome.exists_err_iff (Slice.extractBetween_ne_panic h before hne)]
  refine not_congr ⟨?_, ?_⟩
  · rintro ⟨x, hx⟩
    obtain ⟨m, hm, -⟩ := (Slice.extractBetween_eq_ok hne).mp hx
    exact ⟨m, hm⟩
  · rintro ⟨m, hm⟩
    exact ⟨_, (Slice.extractBetween_eq_ok hne).mpr ⟨m, hm, rfl⟩⟩

/-- Both implementations return what lies between, and an error if nothing does. -/
structure ExtractsBetween (h before after : List α) : Prop where
  ok : ∀ m, Slice.extractBetween h before after = .ok m ↔ Between h before after m
  err : (∃ e, Slice.extractBetween h before after = .err e) ↔ ¬ ∃ m, Between h before after m
  inRange : Slice.extractBetween h before after ≠ .panic
  agree : Vec.extractBetween h before after = Slice.extractBetween h before after

/-- An `after` of one element is left out of the result, and a longer one is returned with it, up to its last
element. -/
theorem extract_between_iff (before after : List α) (hne : after ≠ []) :
    (∀ h, ExtractsBetween h before after ↔
      after.length = 1 ∨ ¬ ∃ p m q, h = p ++ before ++ (m ++ after ++ q)) ∧
    ((∀ h, ExtractsBetween h before after) ↔ after.length = 1) := by
  have hpos := List.length_pos_iff.mpr hne
  have hone : after.dropLast = [] ↔ after.length = 1 := by
    rw [← List.length_eq_zero_iff, List.length_dropLast]
    omega
  have heach : ∀ h, ExtractsBetween h before after ↔
      after.length = 1 ∨ ¬ ∃ p m q, h = p ++ before ++ (m ++ after ++ q) := by
    intro h
    rw [← exists_between_iff, ← hone]
    constructor
    · intro hx
      refine or_iff_not_imp_right.mpr fun hsome => ?_
      obtain ⟨m, hm⟩ := not_not.mp hsome
      have hok := (Slice.extractBetween_eq_ok hne).mpr ⟨m, hm, rfl⟩
      exact List.append_right_eq_self.mp (Outcome.ok.inj (hok.symm.trans ((hx.ok m).mpr hm)))
    · intro hcase
      refine ⟨fun m => ?_, Slice.extractBetween_err hne, Slice.extractBetween_ne_panic h before hne, rfl⟩
      rw [Slice.extractBetween_eq_ok hne]
      rcases hcase with hlast | hnone
      · simp only [hlast, List.append_nil, exists_eq_right']
      · exact iff_of_false (fun ⟨m, hm, _⟩ => hnone ⟨m, hm⟩) fun hm => hnone ⟨m, hm⟩
  refine ⟨heach, fun hall => ?_, fun hlen h => (heach h).mpr (.inl hlen)⟩
  refine ((heach (before ++ after)).mp (hall _)).resolve_right fun hnone => hnone ⟨[], [], [], ?_⟩
  rw [List.nil_append, List.nil_append, List.append_nil]

/-- What the tests of the source expect. -/
theorem extract_between_quote :
    Between (bytes "bla to='tsnhaou' bla2") (bytes " to='") (bytes "'") (bytes "tsnhaou") ∧
    ∀ h, ExtractsBetween h (bytes " to='") (bytes "'") :=
  have hall := (extract_between_iff (bytes " to='") (bytes "'") (by decide)).2.mpr rfl
  ⟨((hall (bytes "bla to='tsnhaou' bla2")).ok _).mp (by decide), hall⟩

/-- Of the `>>` behind it one `>` is returned. -/
theorem extract_between_two : ¬ ∀ h before after : Bytes, after ≠ [] → ExtractsBetween h before after := by
  intro h
  have hbetween : Between (bytes "a<<b>>c") (bytes "<<") (bytes ">>") (bytes "b") :=
    ⟨bytes "a", bytes "c", rfl, firstAt_iff.mpr (by unfold Leftmost; decide),
      firstAt_iff.mpr (by unfold Leftmost; decide)⟩
  have hok := ((h (bytes "a<<b>>c") (bytes "<<") (bytes ">>") (by decide)).ok (bytes "b")).mpr hbetween
  exact absurd hok (by decide)

end XmppProxy
