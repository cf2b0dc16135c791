import Mathlib.Data.List.Infix
import XmppProxy.Stanza.Partition

/-! The size limit is exact: a filter of `n` bytes reads like one that never fills up, until a stanza
that is not over has `n` bytes. -/

namespace XmppProxy.Stanza

open Lib

section

variable {n m : Nat} {s : Scanner} {b : UInt8}

theorem ret_part {r : Outcome (Option Bytes)} {t : Scanner} (hd : s.dispatch b = .ret r t) :
    t.part = s.part ∧ (∀ u, r ≠ .ok (some u)) ∨ t.part = [] ∧ r = .ok (some (s.part ++ [b])) := by
  have hl := Scanner.local_dispatch s b
  rw [hd] at hl
  obtain (_ | u) | e | _ := r
  · exact .inl ⟨congrArg Scanner.part hl.1, by simp⟩
  · obtain ⟨-, rfl, e, rfl, -⟩ := hl
    exact .inr ⟨rfl, rfl⟩
  · exact .inl ⟨hl.1, by simp⟩
  · exact .inl ⟨hl.1, by simp⟩

theorem ret_length {r : Outcome (Option Bytes)} {t : Scanner} (hd : s.dispatch b = .ret r t) :
    t.part.length ≤ s.part.length := by
  rcases ret_part hd with ⟨hp, -⟩ | ⟨hp, -⟩
  · exact Nat.le_of_eq (congrArg List.length hp)
  · rw [hp]
    exact Nat.zero_le _

theorem next_length (hm : s.part.length + 1 < m) :
    (s.next m b).2.part.length ≤ s.part.length + 1 := by
  unfold Scanner.next
  rw [if_pos (Nat.lt_of_succ_lt hm)]
  cases hd : s.dispatch b with
  | ret r t => exact Nat.le_succ_of_le (ret_length hd)
  | fall t =>
    have hlen : (t.push b).part.length = s.part.length + 1 := by
      rw [Scanner.push, Scanner.dispatch_part hd, List.length_append]
      rfl
    dsimp only [Scanner.advance]
    split_ifs
    · exact Nat.le_of_eq hlen
    · exact Nat.le_of_eq hlen

theorem next_grows (hs : ∀ u, (s.next m b).1 ≠ .ok (some u)) :
    s.part.length ≤ (s.next m b).2.part.length := by
  unfold Scanner.next at hs ⊢
  split_ifs at hs ⊢
  swap
  · exact Nat.le_refl _
  cases hd : s.dispatch b with
  | ret r t =>
    rw [hd] at hs
    rcases ret_part hd with ⟨hp, -⟩ | ⟨-, hr⟩
    · exact Nat.le_of_eq (congrArg List.length hp.symm)
    · exact absurd hr (hs _)
  | fall t =>
    have hle : s.part.length ≤ (t.push b).part.length := by
      rw [Scanner.push, Scanner.dispatch_part hd, List.length_append]
      exact Nat.le_add_right _ _
    dsimp only [Scanner.advance]
    split_ifs
    · exact hle
    · exact hle

/-- A byte is read the same by both filters, unless it is the last one that the smaller one has room
for and does not end the stanza. -/
theorem next_within (hn : s.part.length < n) (hm : s.part.length + 1 < m) :
    (s.next m b).2.part.length < n ∧ s.next n b = s.next m b ∨
      (s.next m b).2.part.length = n ∧ (s.next m b).2.part = s.part ++ [b] ∧
        s.next m b = (.ok none, (s.next m b).2) ∧
        s.next n b = (.err (.stanzaTooBig (s.next m b).2.part), (s.next m b).2) := by
  unfold Scanner.next
  rw [if_pos hn, if_pos (Nat.lt_of_succ_lt hm)]
  cases hd : s.dispatch b with
  | ret r t => exact .inl ⟨Nat.lt_of_le_of_lt (ret_length hd) hn, rfl⟩
  | fall t =>
    have hpart : (t.push b).part = s.part ++ [b] := by rw [Scanner.push, Scanner.dispatch_part hd]
    have hlen : (t.push b).part.length = s.part.length + 1 := by
      rw [hpart, List.length_append]
      rfl
    have hroom : (t.push b).part.length ≠ m := by omega
    dsimp only [Scanner.advance]
    rw [if_neg hroom]
    by_cases hfull : (t.push b).part.length = n
    · rw [if_pos hfull]
      exact .inr ⟨hfull, hpart, rfl, rfl⟩
    · rw [if_neg hfull]
      refine .inl ⟨?_, rfl⟩
      dsimp only
      omega

end

/-- While it reads `bs`, the filter of size `m` never holds `n` bytes. -/
def Fits (n m : Nat) (bs : Bytes) : Prop :=
  ∀ v, v <+: bs → (pending (filterNext.final (.new m) v)).length < n

instance (n m : Nat) (bs : Bytes) : Decidable (Fits n m bs) :=
  decidable_of_iff (∀ v ∈ bs.inits, (pending (filterNext.final (.new m) v)).length < n)
    (forall_congr' fun v => by rw [List.mem_inits])

theorem Fits.of_isPrefix {n m : Nat} {bs bs' : Bytes} (h : Fits n m bs') (hp : bs <+: bs') :
    Fits n m bs := fun v hv => h v (hv.trans hp)

theorem fits_concat {n m : Nat} {bs : Bytes} {b : UInt8} : Fits n m (bs ++ [b]) ↔
    Fits n m bs ∧ (pending (filterNext.final (.new m) (bs ++ [b]))).length < n := by
  refine ⟨fun h => ⟨h.of_isPrefix (List.prefix_append _ _), h _ List.prefix_rfl⟩, fun h v hv => ?_⟩
  rcases List.prefix_concat_iff.mp hv with rfl | hv
  · exact h.2
  · exact h.1 v hv

section

variable {n m : Nat} {bs : Bytes}

theorem final_part (m : Nat) (bs : Bytes) :
    pending (filterNext.final (.new m) bs) = ((scanNext m).final (.idle 0) bs).part :=
  ((filterNext_refines m).final (refines_new m) bs).take

theorem final_length (hm : bs.length < m) : ((scanNext m).final (.idle 0) bs).part.length ≤ bs.length := by
  induction bs using List.reverseRecOn with
  | nil => exact Nat.le_refl 0
  | append_singleton bs b ih =>
    rw [List.length_append, List.length_singleton] at hm ⊢
    rw [Machine.final_concat]
    have hle := ih (Nat.lt_of_succ_lt hm)
    have hnext := next_length (s := (scanNext m).final (.idle 0) bs) (b := b) (m := m) (by omega)
    exact Nat.le_trans hnext (Nat.succ_le_succ hle)

theorem fits_run (hm : bs.length < m) (h : Fits n m bs) :
    (scanNext n).outputs (.idle 0) bs = (scanNext m).outputs (.idle 0) bs ∧
      (scanNext n).final (.idle 0) bs = (scanNext m).final (.idle 0) bs := by
  induction bs using List.reverseRecOn with
  | nil => exact ⟨rfl, rfl⟩
  | append_singleton bs b ih =>
    obtain ⟨h, hnext⟩ := fits_concat.mp h
    rw [List.length_append, List.length_singleton] at hm
    obtain ⟨ho, hf⟩ := ih (Nat.lt_of_succ_lt hm) h
    have hn := h bs List.prefix_rfl
    rw [final_part] at hn hnext
    rw [Machine.final_concat] at hnext
    have hle := final_length (Nat.lt_of_succ_lt hm)
    rcases next_within (b := b) hn (by omega : _ < m) with ⟨-, hsame⟩ | ⟨hfull, -⟩
    · simp only [Machine.outputs_concat, Machine.final_concat, ho, hf]
      change _ ++ [(Scanner.next n _ b).1] = _ ++ [(Scanner.next m _ b).1] ∧
        (Scanner.next n _ b).2 = (Scanner.next m _ b).2
      rw [hsame]
      exact ⟨rfl, rfl⟩
    · exact absurd hfull (Nat.ne_of_lt hnext)

theorem full_run {b : UInt8} (hm : (bs ++ [b]).length < m) (h : Fits n m bs) (hfull : ¬ Fits n m (bs ++ [b])) :
    (pending (filterNext.final (.new m) (bs ++ [b]))).length = n ∧
      (scanNext m).outputs (.idle 0) (bs ++ [b]) = (scanNext m).outputs (.idle 0) bs ++ [.ok none] ∧
      (scanNext n).outputs (.idle 0) (bs ++ [b]) = (scanNext m).outputs (.idle 0) bs ++
        [.err (.stanzaTooBig (pending (filterNext.final (.new m) (bs ++ [b]))))] := by
  rw [List.length_append, List.length_singleton] at hm
  obtain ⟨ho, hf⟩ := fits_run (Nat.lt_of_succ_lt hm) h
  have hnext := fun hlt => hfull (fits_concat.mpr ⟨h, hlt⟩)
  have hn := h bs List.prefix_rfl
  have hle := final_length (Nat.lt_of_succ_lt hm)
  rw [final_part] at hn hnext ⊢
  rw [Machine.outputs_concat, Machine.outputs_concat, Machine.final_concat, ho, hf]
  rw [Machine.final_concat] at hnext
  change ¬ (Scanner.next m _ b).2.part.length < n at hnext
  change (Scanner.next m _ b).2.part.length = n ∧ _ ++ [(Scanner.next m _ b).1] = _ ∧
    _ ++ [(Scanner.next n _ b).1] = _ ++ [.err (.stanzaTooBig (Scanner.next m _ b).2.part)]
  rcases next_within (b := b) hn (by omega : _ < m) with ⟨hlt, -⟩ | ⟨hlen, -, hlarge, hsmall⟩
  · exact absurd hlt hnext
  · exact ⟨hlen, by rw [hlarge], by rw [hsmall]⟩

theorem first_full (h : Fits n m []) (hfull : ¬ Fits n m bs) :
    ∃ u b, u ++ [b] <+: bs ∧ Fits n m u ∧ ¬ Fits n m (u ++ [b]) := by
  induction bs using List.reverseRecOn with
  | nil => exact absurd h hfull
  | append_singleton bs b ih =>
    by_cases hbs : Fits n m bs
    · exact ⟨bs, b, List.prefix_rfl, hbs, hfull⟩
    · obtain ⟨u, c, hp, hu⟩ := ih hbs
      exact ⟨u, c, hp.trans (List.prefix_append _ _), hu⟩

theorem outputs_isPrefix {m : Nat} {u bs : Bytes} (h : u <+: bs) {s : Scanner} :
    (scanNext m).outputs s u = ((scanNext m).outputs s bs).take u.length := by
  obtain ⟨r, rfl⟩ := h
  rw [Machine.outputs_append, List.take_left']
  exact Machine.length_outputs _ _ _

theorem grows_run {s : Scanner} {v w : Bytes} (hq : emitted ((scanNext m).outputs s w) = [])
    (hp : v <+: w) : ((scanNext m).final s v).part.length ≤ ((scanNext m).final s w).part.length := by
  induction w using List.reverseRecOn with
  | nil =>
    obtain rfl := List.prefix_nil.mp hp
    exact Nat.le_refl _
  | append_singleton w b ih =>
    rcases List.prefix_concat_iff.mp hp with rfl | hp
    · exact Nat.le_refl _
    rw [Machine.outputs_concat, emitted_append, List.append_eq_nil_iff] at hq
    refine Nat.le_trans (ih hq.1 hp) ?_
    rw [Machine.final_concat]
    apply next_grows
    intro u hu
    have hlast := hq.2
    change emitted [(Scanner.next m _ b).1] = [] at hlast
    rw [hu] at hlast
    cases hlast

/-- Up to where the smaller filter has not failed, the next stanza is read the same exactly when it is
not too long. -/
theorem stanza_run {v u : Bytes} {b : UInt8} (hm : (bs ++ v ++ [b]).length < m) (h : Fits n m bs)
    (hq : emitted ((scanNext m).outputs ((scanNext m).final (.idle 0) bs) v) = [])
    (hu : (((scanNext m).final (.idle 0) (bs ++ v)).next m b).1 = .ok (some u)) :
    (scanNext n).outputs (.idle 0) (bs ++ v ++ [b]) = (scanNext m).outputs (.idle 0) (bs ++ v ++ [b]) ↔
      u.length ≤ n := by
  have hturn := ((scanNext m).final (.idle 0) (bs ++ v)).turn_next m b
  rw [hu] at hturn
  have hlen : u.length = ((scanNext m).final (.idle 0) (bs ++ v)).part.length + 1 ∧
      ((scanNext m).final (.idle 0) (bs ++ v ++ [b])).part = [] := by
    rw [Machine.final_concat _ (bs ++ v)]
    change _ ∧ (Scanner.next m _ b).2.part = []
    generalize (((scanNext m).final (.idle 0) (bs ++ v)).next m b).2 = t at hturn
    cases hturn
    exact ⟨List.length_append, rfl⟩
  have hzero : 0 < n := Nat.lt_of_le_of_lt (Nat.zero_le _) (h [] List.nil_prefix)
  -- the most is pending in front of the last byte, which empties the buffer
  have hiff : Fits n m (bs ++ v ++ [b]) ↔ u.length ≤ n := by
    rw [fits_concat, final_part, hlen.2]
    refine ⟨fun hfit => ?_, fun hle => ⟨fun w hw => ?_, hzero⟩⟩
    · have hbefore := hfit.1 _ List.prefix_rfl
      rw [final_part] at hbefore
      rw [hlen.1]
      exact hbefore
    · rw [final_part]
      rcases List.prefix_or_prefix_of_prefix hw (List.prefix_append bs v) with hw' | ⟨w', rfl⟩
      · rw [← final_part]
        exact h w hw'
      · have hw' : w' <+: v := (List.prefix_append_right_inj bs).mp hw
        have hgrows := grows_run hq hw'
        rw [← Machine.final_append, ← Machine.final_append] at hgrows
        omega
  rw [← hiff]
  refine ⟨fun heq => ?_, fun hfit => (fits_run hm hfit).1⟩
  by_contra hfull
  -- at the byte that fills it, the smaller filter fails
  obtain ⟨w, c, hp, hw, hwfull⟩ := first_full (h.of_isPrefix List.nil_prefix) hfull
  have hshort : (w ++ [c]).length < m := Nat.lt_of_le_of_lt hp.length_le hm
  obtain ⟨-, hlarge, hsmall⟩ := full_run hshort hw hwfull
  have hsame : (scanNext n).outputs (.idle 0) (w ++ [c]) = (scanNext m).outputs (.idle 0) (w ++ [c]) := by
    rw [outputs_isPrefix hp, outputs_isPrefix hp, heq]
  rw [hlarge, hsmall] at hsame
  cases List.append_cancel_left hsame

end

/-- The filter of size `n` answers like one of a size that the input cannot fill, as long as that one
never holds `n` bytes. On the byte that makes it hold `n` bytes, which ends no stanza, it answers that
the stanza is too big. A stanza in front of which it has not failed is thus accepted exactly when it
has at most `n` bytes, whatever stands before it. -/
theorem limit_exact {n m : Nat} (bs : Bytes) (hm : bs.length < m) :
    (Fits n m bs → filterNext.outputs (.new n) bs = filterNext.outputs (.new m) bs) ∧
    (∀ u b, u ++ [b] <+: bs → Fits n m u → ¬ Fits n m (u ++ [b]) →
      (pending (filterNext.final (.new m) (u ++ [b]))).length = n ∧
      filterNext.outputs (.new m) (u ++ [b]) = filterNext.outputs (.new m) u ++ [.ok none] ∧
      filterNext.outputs (.new n) (u ++ [b]) = filterNext.outputs (.new m) u ++
        [.err (.stanzaTooBig (pending (filterNext.final (.new m) (u ++ [b]))))]) ∧
    (∀ u v b s, u ++ v ++ [b] <+: bs → Fits n m u →
      emitted (filterNext.outputs (filterNext.final (.new m) u) v) = [] →
      ((filterNext.final (.new m) (u ++ v)).next b).1 = .ok (some s) →
      (filterNext.outputs (.new n) (u ++ v ++ [b]) = filterNext.outputs (.new m) (u ++ v ++ [b]) ↔
        s.length ≤ n)) := by
  have hout : ∀ k w, filterNext.outputs (.new k) w = (scanNext k).outputs (.idle 0) w :=
    fun k w => (filterNext_refines k).outputs_eq (refines_new k) w
  have hrefines := fun w => (filterNext_refines m).final (refines_new m) w
  simp only [hout]
  refine ⟨fun h => (fits_run hm h).1, fun u b hp h hfull => ?_, fun u v b s hp h hq hs => ?_⟩
  · exact full_run (Nat.lt_of_le_of_lt hp.length_le hm) h hfull
  · rw [(filterNext_refines m).outputs_eq (hrefines u)] at hq
    rw [((hrefines (u ++ v)).next b).1] at hs
    exact stanza_run (Nat.lt_of_le_of_lt hp.length_le hm) h hq hs

theorem limit_exact_four :
    filterNext.outputs (.new 4) (bytes "xx<a/>") = filterNext.outputs (.new 99) (bytes "xx<a/>") ∧
      filterNext.outputs (.new 4) (bytes "<a/><bc/") = filterNext.outputs (.new 99) (bytes "<a/><bc") ++
        [.err (.stanzaTooBig (bytes "<bc/"))] ∧
      filterNext.outputs (.new 4) (bytes "<bc/>") ≠ filterNext.outputs (.new 99) (bytes "<bc/>") := by
  refine ⟨(limit_exact (bytes "xx<a/>") (by decide)).1 (by decide), ?_, fun h => ?_⟩
  · have hfull := (limit_exact (n := 4) (m := 99) (bytes "<a/><bc/") (by decide)).2.1
    exact (hfull (bytes "<a/><bc") slash (by decide) (by decide) (by decide)).2.2
  · have hlong := (limit_exact (n := 4) (m := 99) (bytes "<bc/>") (by decide)).2.2
    have hle := (hlong [] (bytes "<bc/") gt (bytes "<bc/>") (by decide) (by decide) (by decide)
      (by decide)).mp h
    exact absurd hle (by decide)

end XmppProxy.Stanza
