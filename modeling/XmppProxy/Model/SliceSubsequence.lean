import XmppProxy.Lib.Words
import XmppProxy.Model.Bytes

/-! Search and replacement in slices, for any type of elements. -/

namespace XmppProxy

variable {α : Type} [DecidableEq α]

def firstIndexOf (s needle : List α) : Outcome Nat :=
  if needle.length ≤ s.length then
    match (List.range (s.length - needle.length + 1)).find?
      fun i => (s.drop i).take needle.length = needle with
    | some i => .ok i
    | none => .err .notFound
  else .err .notFound

def containsSeq (s needle : List α) : Bool := (firstIndexOf s needle).isOk

def replaceFirst (s needle replacement : List α) : List α :=
  match firstIndexOf s needle with
  | .ok idx => s.take idx ++ replacement ++ s.drop (idx + needle.length)
  | _ => s

def extractBetween (s before after : List α) : Outcome (List α) := do
  let first := s.drop ((← firstIndexOf s before) + before.length)
  return first.take ((← firstIndexOf first after) + after.length - 1)

open Lib

theorem firstIndexOf_eq_ok {s needle : List α} {i : Nat} :
    firstIndexOf s needle = .ok i ↔ Leftmost s needle i := by
  have htake : ∀ i, (s.drop i).take needle.length = needle ↔ needle <+: s.drop i :=
    fun i => eq_comm.trans List.prefix_iff_eq_take.symm
  have hfind : (List.range (s.length - needle.length + 1)).find?
      (fun i => (s.drop i).take needle.length = needle) = some i ↔
        i ≤ s.length - needle.length ∧ Leftmost s needle i := by
    rw [List.find?_range_eq_some]
    simp only [decide_eq_true_eq, htake, List.mem_range, Leftmost, Bool.not_eq_true',
      decide_eq_false_iff_not]
    constructor
    · rintro ⟨hp, hi, hbefore⟩
      exact ⟨by omega, hp, hbefore⟩
    · rintro ⟨hi, hp, hbefore⟩
      exact ⟨hp, by omega, hbefore⟩
  unfold firstIndexOf
  constructor
  · intro h
    split_ifs at h
    split at h
    next k hk =>
      obtain rfl := Outcome.ok.inj h
      exact (hfind.mp hk).2
    next => cases h
  · intro h
    have hle := h.le
    rw [if_pos (by omega), hfind.mpr ⟨by omega, h⟩]

theorem firstIndexOf_cases (s needle : List α) :
    (∃ i, firstIndexOf s needle = .ok i) ∨ firstIndexOf s needle = .err .notFound := by
  unfold firstIndexOf
  split_ifs
  · split
    · exact .inl ⟨_, rfl⟩
    · exact .inr rfl
  · exact .inr rfl

theorem firstIndexOf_ne_panic (s needle : List α) : firstIndexOf s needle ≠ .panic := by
  rcases firstIndexOf_cases s needle with ⟨i, hi⟩ | hnone
  · simp [hi]
  · simp [hnone]

theorem containsSeq_iff {s needle : List α} : containsSeq s needle ↔ needle <:+: s := by
  unfold containsSeq
  rw [Outcome.isOk_iff]
  constructor
  · rintro ⟨i, hi⟩
    exact (firstIndexOf_eq_ok.mp hi).isInfix
  · intro h
    obtain ⟨i, hi⟩ := exists_leftmost h
    exact ⟨i, firstIndexOf_eq_ok.mpr hi⟩

def slice (s : List α) (i j : Nat) : Outcome (List α) :=
  if i ≤ j ∧ j ≤ s.length then .ok ((s.take j).drop i) else .panic

namespace Slice

def search (s needle : List α) : List Nat → Outcome Nat
  | [] => .err .notFound
  | i :: is => do
    if (← slice s i (i + needle.length)) = needle then .ok i else search s needle is

def firstIndexOf (s needle : List α) : Outcome Nat :=
  if s.length ≥ needle.length then search s needle (List.range (s.length - needle.length + 1))
  else .err .notFound

end Slice

namespace Vec

def firstIndexOf (s needle : List α) : Outcome Nat := Slice.firstIndexOf s needle

def replaceFirst (s needle replacement : List α) : Outcome (List α) :=
  match firstIndexOf s needle with
  | .ok idx => do
    let second ← slice s (idx + needle.length) s.length
    return (← slice s 0 idx) ++ replacement ++ second
  | .err _ => .ok s
  | .panic => .panic

end Vec

def Slice.replaceFirst (s needle replacement : List α) : Outcome (List α) :=
  Vec.replaceFirst s needle replacement

/-- `n - 1`. Where it wraps instead, the range behind it does not fit the slice. -/
def usizeDec (n : Nat) : Outcome Nat := if 1 ≤ n then .ok (n - 1) else .panic

def Slice.extractBetween (s before after : List α) : Outcome (List α) := do
  let first ← slice s ((← Slice.firstIndexOf s before) + before.length) s.length
  slice first 0 (← usizeDec ((← Slice.firstIndexOf first after) + after.length))

def Vec.extractBetween (s before after : List α) : Outcome (List α) := do
  let first ← slice s ((← Vec.firstIndexOf s before) + before.length) s.length
  slice first 0 (← usizeDec ((← Slice.firstIndexOf first after) + after.length))

end XmppProxy
