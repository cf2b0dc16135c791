import Mathlib.Data.List.Infix
import Mathlib.Data.Nat.Find

/-! Occurrences of one word in another: the leftmost one, and all of them. All occurrences of a word,
leftmost first and without overlap, are replaced by another one; which replacements undo each other or
commute is a question of how the words can overlap. -/

namespace XmppProxy.Lib

variable {α : Type*} {p q r t u v w s : List α} {a c : α}

/-- `p` stands at `i` in `s`, and nowhere before. -/
def Leftmost (s p : List α) (i : Nat) : Prop := p <+: s.drop i ∧ ∀ j < i, ¬ p <+: s.drop j

theorem Leftmost.le {i : Nat} (h : Leftmost s p i) : i + p.length ≤ s.length := by
  have hlen := h.1.length_le
  rw [List.length_drop] at hlen
  by_cases hi : i ≤ s.length
  · omega
  · have hnil : p = [] := List.length_eq_zero_iff.mp (by omega)
    exact absurd (hnil ▸ List.nil_prefix) (h.2 0 (by omega))

theorem exists_leftmost (h : p <:+: s) : ∃ i, Leftmost s p i := by
  classical
  have hex : ∃ i, p <+: s.drop i := by
    obtain ⟨u, v, rfl⟩ := h
    exact ⟨u.length, v, by rw [List.append_assoc, List.drop_left]⟩
  exact ⟨Nat.find hex, Nat.find_spec hex, fun j hj => Nat.find_min hex hj⟩

theorem Leftmost.isInfix {i : Nat} (h : Leftmost s p i) : p <:+: s :=
  h.1.isInfix.trans (List.drop_suffix i s).isInfix

theorem leftmost_singleton (h : a ∉ u) (v : List α) : Leftmost (u ++ a :: v) [a] u.length := by
  constructor
  · rw [List.drop_left]
    exact ⟨v, rfl⟩
  · intro j hj hp
    rw [List.drop_append_of_le_length (Nat.le_of_lt hj), List.drop_eq_getElem_cons hj] at hp
    exact h ((List.cons_prefix_cons.mp hp).1 ▸ List.getElem_mem hj)

/-- No occurrence of `q` begins inside of `p`, whatever follows `p`. -/
def Free (p q : List α) : Prop := ∀ w ∈ p.tails, w ≠ [] → ¬ w <+: q ∧ ¬ q <+: w

instance [DecidableEq α] (p q : List α) : Decidable (Free p q) :=
  inferInstanceAs (Decidable (∀ w ∈ p.tails, w ≠ [] → ¬ w <+: q ∧ ¬ q <+: w))

theorem Free.suffix (h : Free p q) (hw : w <:+ p) : Free w q := by
  intro v hv
  exact h v ((List.mem_tails _ _).mpr (((List.mem_tails _ _).mp hv).trans hw))

theorem Free.not_isPrefix (h : Free p q) (hp : p ≠ []) (s : List α) : ¬ q <+: p ++ s := by
  intro hq
  have hself := h p ((List.mem_tails _ _).mpr List.suffix_rfl) hp
  rcases List.prefix_or_prefix_of_prefix hq (List.prefix_append p s) with h' | h'
  · exact hself.2 h'
  · exact hself.1 h'

theorem free_of_disjoint (hq : q ≠ []) (h : ∀ a ∈ p, a ∉ q) : Free p q := by
  intro w hw hne
  obtain ⟨a, w, rfl⟩ := List.exists_cons_of_ne_nil hne
  obtain ⟨b, q, rfl⟩ := List.exists_cons_of_ne_nil hq
  have ha : a ∉ b :: q := h a (((List.mem_tails _ _).mp hw).subset (List.mem_cons_self ..))
  have hab : a ≠ b := fun h => ha (h ▸ List.mem_cons_self ..)
  constructor
  · rintro ⟨_, hx⟩
    exact hab (List.cons.inj hx).1
  · rintro ⟨_, hx⟩
    exact hab (List.cons.inj hx).1.symm

theorem free_concat (hc : c ∉ q.dropLast) (h : ¬ q <:+: p ++ [c]) : Free (p ++ [c]) q := by
  intro w hw hne
  have hsuffix := (List.mem_tails _ _).mp hw
  refine ⟨fun hwq => ?_, fun hqw => h (hqw.isInfix.trans hsuffix.isInfix)⟩
  obtain ⟨w', d, rfl⟩ := (List.eq_nil_or_concat' w).resolve_left hne
  obtain rfl : d = c := by
    obtain ⟨x, hx⟩ := hsuffix
    rw [← List.append_assoc] at hx
    exact (List.cons.inj (List.append_inj' hx rfl).2).1
  obtain ⟨y, rfl⟩ := hwq
  obtain rfl | hy := eq_or_ne y []
  · rw [List.append_nil] at h
    exact h hsuffix.isInfix
  · rw [List.dropLast_append_of_ne_nil hy, List.append_assoc] at hc
    exact hc (List.mem_append_right w' (List.mem_cons_self ..))

theorem infix_of_append (h : Free u w) (hw : w <:+: u ++ s) : w <:+: s := by
  induction u with
  | nil => exact hw
  | cons a u ih =>
    rcases List.infix_cons_iff.mp hw with h' | h'
    · exact absurd h' (h.not_isPrefix (List.cons_ne_nil a u) s)
    · exact ih (h.suffix (List.suffix_cons a u)) h'

theorem infix_split (ha : a ∉ w) (h : w <:+: u ++ a :: s) : w <:+: u ∨ w <:+: s := by
  have hpre : ∀ {u : List α}, w <+: u ++ a :: s → w <+: u := by
    intro u hw
    rcases List.prefix_or_prefix_of_prefix hw (List.prefix_append u (a :: s)) with h' | ⟨q, rfl⟩
    · exact h'
    · rcases List.prefix_cons_iff.mp ((List.prefix_append_right_inj u).mp hw) with rfl | ⟨q, rfl, -⟩
      · rw [List.append_nil]
      · exact absurd (List.mem_append_right u (List.mem_cons_self ..)) ha
  induction u with
  | nil =>
    rcases List.infix_cons_iff.mp h with h' | h'
    · exact .inl (hpre (u := []) h').isInfix
    · exact .inr h'
  | cons b u ih =>
    rcases List.infix_cons_iff.mp h with h' | h'
    · exact .inl (hpre (u := b :: u) h').isInfix
    · exact (ih h').imp_left fun h => List.infix_cons_iff.mpr (.inr h)

theorem split_run {p : α → Prop} {v t : List α} (hu : ∀ a ∈ u, p a) (hv : ∀ a ∈ v, p a)
    (hs : ∀ a ∈ s.head?, ¬ p a) (ht : ∀ a ∈ t.head?, ¬ p a) (h : u ++ s = v ++ t) : u = v ∧ s = t := by
  induction u generalizing v with
  | nil =>
    cases v with
    | nil => exact ⟨rfl, h⟩
    | cons b v =>
      have hs' := hs b (by rw [← List.nil_append s, h]; rfl)
      exact absurd (hv b (List.mem_cons_self ..)) hs'
  | cons a u ih =>
    cases v with
    | nil =>
      have ht' := ht a (by rw [← List.nil_append t, ← h]; rfl)
      exact absurd (hu a (List.mem_cons_self ..)) ht'
    | cons b v =>
      obtain ⟨rfl, hrest⟩ := List.cons.inj h
      obtain ⟨rfl, hst⟩ := ih (fun c hc => hu c (List.mem_cons_of_mem _ hc))
        (fun c hc => hv c (List.mem_cons_of_mem _ hc)) hrest
      exact ⟨rfl, hst⟩

theorem split_last {p : α → Prop} {x y m n : List α} {c d : α} (hc : p c) (hd : p d)
    (hm : ∀ a ∈ m, ¬ p a) (hn : ∀ a ∈ n, ¬ p a) (h : x ++ c :: m = y ++ d :: n) :
    x = y ∧ c = d ∧ m = n := by
  have hrev : m.reverse ++ c :: x.reverse = n.reverse ++ d :: y.reverse := by
    simpa using congrArg List.reverse h
  obtain ⟨hmn, hrest⟩ := split_run (p := fun a => ¬ p a) (fun a ha => hm a (List.mem_reverse.mp ha))
    (fun a ha => hn a (List.mem_reverse.mp ha)) (by simpa using hc) (by simpa using hd) hrev
  obtain ⟨rfl, hxy⟩ := List.cons.inj hrest
  exact ⟨List.reverse_injective hxy, rfl, List.reverse_injective hmn⟩

theorem split_order {x m n : List α} {b c : α} (h : x ++ b :: v = m ++ c :: n) :
    (∃ y, m ++ [c] = x ++ b :: y ∧ v = y ++ n) ∨ ∃ y, x = m ++ c :: y ∧ n = y ++ b :: v := by
  rcases List.append_eq_append_iff.mp h with ⟨k, hm, hk⟩ | ⟨k, hx, hk⟩
  · cases k with
    | nil =>
      obtain ⟨hb, hv⟩ := List.cons.inj hk
      exact .inl ⟨[], by rw [hm, hb, List.append_nil], hv⟩
    | cons d k =>
      obtain ⟨hb, hv⟩ := List.cons.inj hk
      refine .inl ⟨k ++ [c], ?_, by rw [hv, List.append_assoc]; rfl⟩
      rw [hm, hb, List.append_assoc]
      rfl
  · cases k with
    | nil =>
      obtain ⟨hc, hn⟩ := List.cons.inj hk
      exact .inl ⟨[], by rw [hx, hc, List.append_nil], hn.symm⟩
    | cons d k =>
      obtain ⟨hc, hn⟩ := List.cons.inj hk
      exact .inr ⟨k, hc ▸ hx, hn⟩

theorem append_eq_behind {c : α} {x m : List α} (hc : c ∉ w) (h : x ++ w = u ++ c :: m) :
    ∃ y, m = y ++ w ∧ x = u ++ c :: y := by
  rcases List.append_eq_append_iff.mp h with ⟨k, hu, hw⟩ | ⟨k, hx, hm⟩
  · rw [hw] at hc
    exact absurd (List.mem_append_right k (List.mem_cons_self ..)) hc
  · cases k with
    | nil =>
      rw [List.nil_append] at hm
      rw [← hm] at hc
      exact absurd (List.mem_cons_self ..) hc
    | cons b k =>
      obtain ⟨hcb, hrest⟩ := List.cons.inj hm
      exact ⟨k, hrest, hcb ▸ hx⟩

variable [DecidableEq α]

/-- The replacement of `p` by `r`, with `k` symbols of the last occurrence still to be skipped. -/
def replaceFrom (p r : List α) : Nat → List α → List α
  | _, [] => []
  | k + 1, _ :: s => replaceFrom p r k s
  | 0, a :: s =>
    if p <+: a :: s then r ++ replaceFrom p r (p.length - 1) s else a :: replaceFrom p r 0 s

def replaceAll (p r s : List α) : List α := replaceFrom p r 0 s

def replaceSymbol (c : α) (r s : List α) : List α := s.flatMap fun a => if a = c then r else [a]

@[simp] theorem replaceAll_nil (p r : List α) : replaceAll p r [] = [] := rfl

theorem replaceFrom_append (p r u s : List α) : replaceFrom p r u.length (u ++ s) = replaceAll p r s := by
  induction u with
  | nil => rfl
  | cons a u ih => exact ih

theorem replaceAll_hit (hp : p ≠ []) (r s : List α) :
    replaceAll p r (p ++ s) = r ++ replaceAll p r s := by
  obtain ⟨a, p, rfl⟩ := List.exists_cons_of_ne_nil hp
  unfold replaceAll
  rw [List.cons_append, replaceFrom, ← List.cons_append, if_pos (List.prefix_append _ _)]
  exact congrArg _ (replaceFrom_append (a :: p) r p s)

theorem replaceAll_miss (h : ¬ p <+: a :: s) (r : List α) :
    replaceAll p r (a :: s) = a :: replaceAll p r s := if_neg h

/-- A text is empty, begins with one of two words, or begins with a symbol that starts neither. -/
@[elab_as_elim]
theorem words_induction₂ {P : List α → Prop} (hp : p ≠ []) (hq : q ≠ []) (nil : P [])
    (hit : ∀ s, P s → P (p ++ s)) (hit' : ∀ s, P s → P (q ++ s))
    (miss : ∀ a s, ¬ p <+: a :: s → ¬ q <+: a :: s → P s → P (a :: s)) (s : List α) : P s := by
  induction hn : s.length using Nat.strong_induction_on generalizing s with
  | _ n ih =>
    have drop : ∀ {w : List α}, w ≠ [] → w <+: s → ∃ s', w ++ s' = s ∧ P s' := by
      rintro w hw ⟨s', hs'⟩
      have hpos := List.length_pos_iff.mpr hw
      rw [← hs', List.length_append] at hn
      exact ⟨s', hs', ih _ (by omega) s' rfl⟩
    by_cases h : p <+: s
    · obtain ⟨s', rfl, hs'⟩ := drop hp h
      exact hit s' hs'
    by_cases h' : q <+: s
    · obtain ⟨s', rfl, hs'⟩ := drop hq h'
      exact hit' s' hs'
    cases s with
    | nil => exact nil
    | cons a s =>
      rw [List.length_cons] at hn
      exact miss a s h h' (ih _ (by omega) s rfl)

@[elab_as_elim]
theorem words_induction {P : List α → Prop} (hp : p ≠ []) (nil : P [])
    (hit : ∀ s, P s → P (p ++ s)) (miss : ∀ a s, ¬ p <+: a :: s → P s → P (a :: s))
    (s : List α) : P s :=
  words_induction₂ hp hp nil hit hit (fun a s h _ => miss a s h) s

theorem replaceAll_append (h : Free u q) (t s : List α) :
    replaceAll q t (u ++ s) = u ++ replaceAll q t s := by
  induction u with
  | nil => rfl
  | cons a u ih =>
    have hmiss : ¬ q <+: a :: (u ++ s) := h.not_isPrefix (List.cons_ne_nil a u) s
    rw [List.cons_append, replaceAll_miss hmiss, ih (h.suffix (List.suffix_cons a u))]
    rfl

theorem replaceAll_concat (hp : p ≠ []) (hc : c ∉ p) (r s : List α) :
    replaceAll p r (s ++ [c]) = replaceAll p r s ++ [c] := by
  induction s using words_induction hp with
  | nil =>
    refine replaceAll_miss (fun h => ?_) r
    obtain ⟨a, p, rfl⟩ := List.exists_cons_of_ne_nil hp
    exact hc ((List.cons_prefix_cons.mp h).1 ▸ List.mem_cons_self ..)
  | hit s ih => rw [List.append_assoc, replaceAll_hit hp, replaceAll_hit hp, ih, List.append_assoc]
  | miss a s hmiss ih =>
    have hmiss' : ¬ p <+: a :: (s ++ [c]) := by
      intro h
      rw [← List.cons_append] at h
      rcases List.prefix_concat_iff.mp h with rfl | h'
      · exact hc (List.mem_append_right _ (List.mem_singleton_self c))
      · exact hmiss h'
    rw [List.cons_append, replaceAll_miss hmiss', replaceAll_miss hmiss, ih]
    rfl

theorem suffix_replaceAll (hp : p ≠ []) (hself : Free p.tail p) (h : p <:+ s) (r : List α) :
    r <:+ replaceAll p r s := by
  induction s using words_induction hp with
  | nil => exact absurd (List.suffix_nil.mp h) hp
  | hit s ih =>
    rw [replaceAll_hit hp]
    by_cases hs : p <:+ s
    · exact (ih hs).trans (List.suffix_append _ _)
    cases s with
    | nil => rw [replaceAll_nil, List.append_nil]
    | cons b s =>
      -- otherwise `p` ends in a word that it begins with
      obtain ⟨v, hv⟩ := (List.suffix_or_suffix_of_suffix h (List.suffix_append p _)).resolve_left hs
      have hne : v ≠ [] := by
        rintro rfl
        exact hs ⟨[], hv.symm⟩
      obtain ⟨u, hu⟩ := h
      have huv : u ++ v = p := by
        rw [← hv, ← List.append_assoc, List.append_left_inj] at hu
        rw [hu, hv]
      have hlen := congrArg List.length (huv.trans hv.symm)
      obtain ⟨c, u, rfl⟩ : ∃ c u', u = c :: u' := by
        cases u with
        | nil => simp at hlen
        | cons c u => exact ⟨c, u, rfl⟩
      have htail : v <:+ p.tail := ⟨u, by rw [← huv]; rfl⟩
      exact absurd ⟨b :: s, hv⟩ (hself v ((List.mem_tails _ _).mpr htail) hne).1
  | miss a s hmiss ih =>
    rw [replaceAll_miss hmiss]
    rcases List.suffix_cons_iff.mp h with rfl | hs
    · exact absurd List.prefix_rfl hmiss
    · exact (ih hs).trans (List.suffix_cons _ _)

/-- A replacement does not create a word in front that the new word does not overlap with. -/
theorem prefix_of_replaceAll (hq : q ≠ []) :
    ∀ {w : List α}, Free w t → w <+: replaceAll q t s → w <+: s := by
  induction s using words_induction hq with
  | nil => exact fun _ hp => hp
  | hit s _ =>
    intro w hw hp
    by_cases hne : w = []
    · rw [hne]
      exact List.nil_prefix
    rw [replaceAll_hit hq] at hp
    have hself := hw w ((List.mem_tails _ _).mpr List.suffix_rfl) hne
    rcases List.prefix_or_prefix_of_prefix hp (List.prefix_append t _) with h | h
    · exact absurd h hself.1
    · exact absurd h hself.2
  | miss a s hmiss ih =>
    intro w hw hp
    rw [replaceAll_miss hmiss] at hp
    cases w with
    | nil => exact List.nil_prefix
    | cons b w =>
      obtain ⟨rfl, hp'⟩ := List.cons_prefix_cons.mp hp
      exact List.cons_prefix_cons.mpr ⟨rfl, ih (hw.suffix (List.suffix_cons b w)) hp'⟩

theorem prefix_cons_of_replaceAll (hq : q ≠ []) (hw : Free w.tail t)
    (h : w <+: a :: replaceAll q t s) : w <+: a :: s := by
  cases w with
  | nil => exact List.nil_prefix
  | cons b w =>
    obtain ⟨rfl, h'⟩ := List.cons_prefix_cons.mp h
    exact List.cons_prefix_cons.mpr ⟨rfl, prefix_of_replaceAll hq hw h'⟩

theorem infix_of_replaceAll (hq : q ≠ []) (hw : Free w.tail t) (ht : Free t w)
    (h : w <:+: replaceAll q t s) : w <:+: s := by
  induction s using words_induction hq with
  | nil => exact h
  | hit s ih =>
    rw [replaceAll_hit hq] at h
    exact (ih (infix_of_append ht h)).trans (List.suffix_append q s).isInfix
  | miss a s hmiss ih =>
    rw [replaceAll_miss hmiss] at h
    rcases List.infix_cons_iff.mp h with h' | h'
    · exact (prefix_cons_of_replaceAll hq hw h').isInfix
    · exact List.infix_cons_iff.mpr (.inr (ih h'))

/-- The words `r` that the replacement put in are found again, if they do not overlap themselves and
the text had none. -/
theorem replaceAll_inv (hp : p ≠ []) (hr : r ≠ []) (hself : Free r.tail r) (h : ¬ r <:+: s) :
    replaceAll r p (replaceAll p r s) = s := by
  induction s using words_induction hp with
  | nil => rfl
  | hit s ih =>
    have hs : ¬ r <:+: s := fun h' => h (h'.trans (List.suffix_append p s).isInfix)
    rw [replaceAll_hit hp, replaceAll_hit hr, ih hs]
  | miss a s hmiss ih =>
    have hs : ¬ r <:+: s := fun h' => h (List.infix_cons_iff.mpr (.inr h'))
    have hmiss' : ¬ r <+: a :: replaceAll p r s :=
      fun h' => h (prefix_cons_of_replaceAll hp hself h').isInfix
    rw [replaceAll_miss hmiss, replaceAll_miss hmiss', ih hs]

/-- Two replacements commute when neither pattern overlaps the other one or what is put in for it.
Only `p` may begin with the whole of `t`, as long as the text never completes it. -/
theorem replaceAll_comm (hp : p ≠ []) (hq : q ≠ []) (hpq : Free p q) (hqp : Free q p)
    (hrq : Free r q) (hpt : Free p.tail t) (hqr : Free q.tail r) (htp : Free t.tail p)
    (ht : t ≠ []) (hs : ∀ s', q ++ s' <:+ s → ¬ p <+: t ++ replaceAll q t s') :
    replaceAll p r (replaceAll q t s) = replaceAll q t (replaceAll p r s) := by
  induction s using words_induction₂ hp hq with
  | nil => rfl
  | hit s ih =>
    have hs' := ih fun s' h => hs s' (h.trans (List.suffix_append p s))
    rw [replaceAll_append hpq, replaceAll_hit hp, replaceAll_hit hp, replaceAll_append hrq, hs']
  | hit' s ih =>
    have hs' := ih fun s' h => hs s' (h.trans (List.suffix_append q s))
    have hmiss := hs s List.suffix_rfl
    rw [replaceAll_hit hq, replaceAll_append hqp, replaceAll_hit hq, ← hs']
    obtain ⟨c, t, rfl⟩ := List.exists_cons_of_ne_nil ht
    exact (replaceAll_miss hmiss r).trans (congrArg (c :: ·) (replaceAll_append htp r _))
  | miss a s hmissp hmissq ih =>
    have hs' := ih fun s' h => hs s' (h.trans (List.suffix_cons a s))
    have hp' : ¬ p <+: a :: replaceAll q t s := fun h => hmissp (prefix_cons_of_replaceAll hq hpt h)
    have hq' : ¬ q <+: a :: replaceAll p r s := fun h => hmissq (prefix_cons_of_replaceAll hp hqr h)
    rw [replaceAll_miss hmissq, replaceAll_miss hp', replaceAll_miss hmissp, replaceAll_miss hq', hs']

theorem replaceSymbol_cons (c : α) (r : List α) (a : α) (s : List α) :
    replaceSymbol c r (a :: s) = (if a = c then r else [a]) ++ replaceSymbol c r s := List.flatMap_cons

theorem replaceSymbol_append (c : α) (r u s : List α) :
    replaceSymbol c r (u ++ s) = replaceSymbol c r u ++ replaceSymbol c r s := List.flatMap_append

theorem replaceSymbol_of_not_mem (h : c ∉ s) : replaceSymbol c r s = s := by
  induction s with
  | nil => rfl
  | cons a s ih =>
    obtain ⟨hc, hs⟩ := not_or.mp (mt List.mem_cons.mpr h)
    rw [replaceSymbol_cons, if_neg (Ne.symm hc), ih hs]
    rfl

theorem infix_replaceSymbol (hw : c ∉ w) (h : w <:+: s) : w <:+: replaceSymbol c r s := by
  obtain ⟨u, v, rfl⟩ := h
  rw [replaceSymbol_append, replaceSymbol_append, replaceSymbol_of_not_mem hw]
  exact ⟨_, _, rfl⟩

theorem prefix_of_replaceSymbol (hw : ∀ a ∈ w, a ∉ r) (hr : r ≠ [])
    (h : w <+: replaceSymbol c r s) : w <+: s := by
  induction s generalizing w with
  | nil => exact h
  | cons a s ih =>
    cases w with
    | nil => exact List.nil_prefix
    | cons b w =>
      rw [replaceSymbol_cons] at h
      by_cases ha : a = c
      · obtain ⟨d, r, rfl⟩ := List.exists_cons_of_ne_nil hr
        rw [if_pos ha, List.cons_append] at h
        have hbd := (List.cons_prefix_cons.mp h).1
        exact absurd (hbd ▸ List.mem_cons_self ..) (hw b (List.mem_cons_self ..))
      · rw [if_neg ha] at h
        obtain ⟨rfl, h'⟩ := List.cons_prefix_cons.mp h
        exact List.cons_prefix_cons.mpr ⟨rfl, ih (fun a h => hw a (List.mem_cons_of_mem _ h)) h'⟩

theorem replaceAll_symbol (hp : p ≠ []) (hr : r ≠ []) (hpr : ∀ a ∈ p, a ∉ r) (hcp : c ∉ p)
    (hcq : c ∉ q) :
    replaceAll p q (replaceSymbol c r s) = replaceSymbol c r (replaceAll p q s) := by
  induction s using words_induction hp with
  | nil => rfl
  | hit s ih =>
    rw [replaceSymbol_append, replaceSymbol_of_not_mem hcp, replaceAll_hit hp, replaceAll_hit hp,
      replaceSymbol_append, replaceSymbol_of_not_mem hcq, ih]
  | miss a s hmiss ih =>
    rw [replaceAll_miss hmiss, replaceSymbol_cons, replaceSymbol_cons, ← ih]
    by_cases ha : a = c
    · rw [if_pos ha]
      exact replaceAll_append (free_of_disjoint hp fun b hb hb' => hpr b hb' hb) _ _
    · rw [if_neg ha]
      refine replaceAll_miss (fun h => hmiss ?_) _
      cases p with
      | nil => exact List.nil_prefix
      | cons b p =>
        obtain ⟨rfl, h'⟩ := List.cons_prefix_cons.mp h
        refine List.cons_prefix_cons.mpr ⟨rfl, prefix_of_replaceSymbol ?_ hr h'⟩
        exact fun d hd => hpr d (List.mem_cons_of_mem _ hd)

theorem replaceAll_mark {x : α} (hx : x ≠ c) :
    replaceAll [x, c] [c] (replaceSymbol c [x, c] s) = s := by
  have hhead : ∀ s : List α, ¬ [c] <+: replaceSymbol c [x, c] s := by
    intro s h
    cases s with
    | nil => exact absurd (List.prefix_nil.mp h) (List.cons_ne_nil _ _)
    | cons a s =>
      rw [replaceSymbol_cons] at h
      split_ifs at h with ha
      · exact hx (List.cons_prefix_cons.mp h).1.symm
      · exact ha (List.cons_prefix_cons.mp h).1.symm
  induction s with
  | nil => rfl
  | cons a s ih =>
    rw [replaceSymbol_cons]
    by_cases ha : a = c
    · rw [if_pos ha, replaceAll_hit (List.cons_ne_nil _ _), ih, ha]
      rfl
    · rw [if_neg ha]
      have hmiss : ¬ [x, c] <+: a :: replaceSymbol c [x, c] s :=
        fun h => hhead s (List.cons_prefix_cons.mp h).2
      exact (replaceAll_miss hmiss _).trans (congrArg (a :: ·) ih)

end XmppProxy.Lib
