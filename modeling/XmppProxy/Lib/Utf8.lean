import Mathlib.Data.UInt

/-! Well-formed UTF-8 as an automaton over bytes. An ASCII byte is read between characters only, so a
text may be cut at one. -/

namespace XmppProxy.Lib

/-- Between characters, or inside of one: the next byte lies between `lo` and `hi`, and `more` follow
it. -/
inductive Utf8 where
  | boundary
  | inside (lo hi : UInt8) (more : Nat)
  deriving DecidableEq

namespace Utf8

/-- The bounds on the second byte exclude overlong forms, surrogates and what lies past U+10FFFF. -/
def lead (b : UInt8) : Option Utf8 :=
  if b < 0x80 then some boundary
  else if 0xC2 ≤ b ∧ b ≤ 0xDF then some (inside 0x80 0xBF 0)
  else if 0xE0 ≤ b ∧ b ≤ 0xEF then
    some (inside (if b = 0xE0 then 0xA0 else 0x80) (if b = 0xED then 0x9F else 0xBF) 1)
  else if 0xF0 ≤ b ∧ b ≤ 0xF4 then
    some (inside (if b = 0xF0 then 0x90 else 0x80) (if b = 0xF4 then 0x8F else 0xBF) 2)
  else none

def step : Utf8 → UInt8 → Option Utf8
  | boundary, b => lead b
  | inside lo hi more, b =>
    if 0x80 ≤ b ∧ lo ≤ b ∧ b ≤ hi then
      match more with
      | 0 => some boundary
      | k + 1 => some (inside 0x80 0xBF k)
    else none

def run : Utf8 → List UInt8 → Option Utf8
  | s, [] => some s
  | s, b :: bs => (s.step b).bind fun s => run s bs

theorem run_append (u v : List UInt8) (s : Utf8) : run s (u ++ v) = (run s u).bind fun s => run s v := by
  induction u generalizing s with
  | nil => rfl
  | cons b u ih =>
    cases h : s.step b with
    | none => simp only [List.cons_append, run, h, Option.bind_none]
    | some s' => simp only [List.cons_append, run, h, Option.bind_some, ih]

def Valid (bs : List UInt8) : Prop := run boundary bs = some boundary

instance (bs : List UInt8) : Decidable (Valid bs) := inferInstanceAs (Decidable (_ = _))

theorem step_ascii {s t : Utf8} {b : UInt8} (hb : b < 0x80) (h : s.step b = some t) :
    s = boundary ∧ t = boundary := by
  cases s with
  | boundary =>
    rw [step, lead, if_pos hb] at h
    exact ⟨rfl, (Option.some.inj h).symm⟩
  | inside lo hi more =>
    have hnone : (inside lo hi more).step b = none := if_neg fun hc => UInt8.not_le.mpr hb hc.1
    exact absurd (hnone.symm.trans h) (by simp)

theorem Valid.append {u v : List UInt8} (hu : Valid u) (hv : Valid v) : Valid (u ++ v) := by
  unfold Valid
  rw [run_append, hu]
  exact hv

theorem Valid.of_append {u v : List UInt8} (hu : Valid u) (h : Valid (u ++ v)) : Valid v := by
  unfold Valid at h
  rw [run_append, hu] at h
  exact h

theorem Valid.cut {u v : List UInt8} {b : UInt8} (hb : b < 0x80) (h : Valid (u ++ b :: v)) :
    Valid u ∧ Valid (b :: v) := by
  have hu : Valid u := by
    unfold Valid at h
    rw [run_append] at h
    obtain ⟨s, hs, hrest⟩ := Option.bind_eq_some_iff.mp h
    obtain ⟨t, ht, -⟩ := Option.bind_eq_some_iff.mp hrest
    obtain ⟨rfl, -⟩ := step_ascii hb ht
    exact hs
  exact ⟨hu, hu.of_append h⟩

theorem Valid.between {u v w : List UInt8} {b c : UInt8} (hb : b < 0x80) (hc : c < 0x80)
    (h : Valid (u ++ b :: (v ++ c :: w))) : Valid v := by
  have hsingle : Valid [b] := by
    unfold Valid
    rw [run, step, lead, if_pos hb]
    rfl
  exact (Valid.cut hc (hsingle.of_append (h.cut hb).2)).1

end Utf8
end XmppProxy.Lib
