import Mathlib.Data.List.Induction
import XmppProxy.Lib.Machine

/-! A machine that keeps guests, which are machines too: a symbol begins a new guest, is for one of them by
its number, or is for none. Whatever the order in which the symbols come, each guest goes through the run that
it has on its own symbols. -/

namespace XmppProxy.Lib

/-- How the guests are seen from outside: where they stand, which one a symbol begins, which one it is for, and
which one has answered. -/
structure Hosting (σ ι ο τ α β : Type*) where
  guests : σ → List τ
  begun : σ → ι → Option τ
  sent : ι → Option (Nat × α)
  answered : ο → Option (Nat × β)

namespace Hosting

variable {σ ι ο τ α β : Type*} (h : Hosting σ ι ο τ α β)

def inputAt (i : Nat) (s : σ) (a : ι) : Option α :=
  (h.sent a).bind fun x => if x.1 = i ∧ i < (h.guests s).length then some x.2 else none

def inputs (i : Nat) (run : List (σ × ι)) : List α := run.filterMap fun x => h.inputAt i x.1 x.2

def births (run : List (σ × ι)) : List τ := run.filterMap fun x => h.begun x.1 x.2

def answers (i : Nat) (os : List ο) : List β :=
  os.filterMap fun o => (h.answered o).bind fun x => if x.1 = i then some x.2 else none

/-- The host lets the guest take the step, or begins a guest, or leaves the guests alone. -/
structure Keeps (m : Machine σ ι ο) (guest : Nat → Machine τ α β) : Prop where
  serve {s : σ} {a : ι} {i : Nat} {x : α} {t : τ} : h.sent a = some (i, x) → (h.guests s)[i]? = some t →
    h.begun s a = none ∧ h.answered (m.step s a).1 = some (i, ((guest i).step t x).1) ∧
      h.guests (m.step s a).2 = (h.guests s).set i ((guest i).step t x).2
  leave {s : σ} {a : ι} : (∀ i x, h.sent a = some (i, x) → (h.guests s)[i]? = none) →
    h.answered (m.step s a).1 = none ∧ h.guests (m.step s a).2 = h.guests s ++ (h.begun s a).toList

/-- Each guest is where its own symbols have brought it, and has answered as on these. -/
structure Kept (guest : Nat → Machine τ α β) (run : List (σ × ι)) (os : List ο) (s : σ) : Prop where
  count : (h.births run).length = (h.guests s).length
  state {i : Nat} {t : τ} : (h.births run)[i]? = some t →
    (h.guests s)[i]? = some ((guest i).final t (h.inputs i run))
  answers {i : Nat} {t : τ} : (h.births run)[i]? = some t →
    h.answers i os = (guest i).outputs t (h.inputs i run)
  unborn {i : Nat} : (h.guests s).length ≤ i → h.inputs i run = [] ∧ h.answers i os = []

variable {h} {m : Machine σ ι ο} {guest : Nat → Machine τ α β} {run : List (σ × ι)} {os : List ο} {s : σ}

theorem inputs_concat (i : Nat) (run : List (σ × ι)) (s : σ) (a : ι) :
    h.inputs i (run ++ [(s, a)]) = h.inputs i run ++ (h.inputAt i s a).toList := by
  unfold inputs
  rw [List.filterMap_append]
  rfl

theorem births_concat (run : List (σ × ι)) (s : σ) (a : ι) :
    h.births (run ++ [(s, a)]) = h.births run ++ (h.begun s a).toList := by
  unfold births
  rw [List.filterMap_append]
  rfl

theorem answers_concat (i : Nat) (os : List ο) (o : ο) : h.answers i (os ++ [o]) =
    h.answers i os ++ ((h.answered o).bind fun x => if x.1 = i then some x.2 else none).toList := by
  unfold answers
  rw [List.filterMap_append]
  rfl

theorem kept_nil (hs : h.guests s = []) : h.Kept guest [] [] s where
  count := by rw [hs]; rfl
  state hb := nomatch hb
  answers hb := nomatch hb
  unborn _ := ⟨rfl, rfl⟩

theorem Kept.serve (hk : h.Kept guest run os s) (hm : h.Keeps m guest) {a : ι} {i : Nat} {x : α} {t : τ}
    (hsent : h.sent a = some (i, x)) (ht : (h.guests s)[i]? = some t) :
    h.Kept guest (run ++ [(s, a)]) (os ++ [(m.step s a).1]) (m.step s a).2 := by
  obtain ⟨hbegun, hanswer, hguests⟩ := hm.serve hsent ht
  have hi : i < (h.guests s).length := (List.getElem?_eq_some_iff.mp ht).1
  have hme : h.inputAt i s a = some x := by
    unfold inputAt
    rw [hsent]
    exact if_pos ⟨rfl, hi⟩
  have hother {j : Nat} (hj : j ≠ i) : h.inputAt j s a = none := by
    unfold inputAt
    rw [hsent]
    exact if_neg fun heq => hj heq.1.symm
  have hbirths : h.births (run ++ [(s, a)]) = h.births run := by
    rw [births_concat, hbegun]
    exact List.append_nil _
  refine ⟨?_, fun {j u} hu => ?_, fun {j u} hu => ?_, fun {j} hj => ?_⟩
  · rw [hbirths, hguests, List.length_set]
    exact hk.count
  · rw [hbirths] at hu
    have hnow := hk.state hu
    rw [hguests, inputs_concat]
    by_cases hj : j = i
    · subst hj
      obtain rfl := Option.some.inj (ht.symm.trans hnow)
      rw [List.getElem?_set_self hi, hme, Option.toList_some, Machine.final_concat]
    · rw [List.getElem?_set_ne (Ne.symm hj), hother hj, Option.toList_none, List.append_nil]
      exact hnow
  · rw [hbirths] at hu
    have hnow := hk.state hu
    rw [answers_concat, inputs_concat, hk.answers hu, hanswer, Option.bind_some]
    by_cases hj : j = i
    · subst hj
      obtain rfl := Option.some.inj (ht.symm.trans hnow)
      rw [if_pos rfl, hme, Option.toList_some, Option.toList_some, Machine.outputs_concat]
    · rw [if_neg (Ne.symm hj), hother hj, Option.toList_none, Option.toList_none, List.append_nil,
        List.append_nil]
  · rw [hguests, List.length_set] at hj
    have hji : j ≠ i := fun heq => Nat.not_lt.mpr hj (heq ▸ hi)
    obtain ⟨hin, hout⟩ := hk.unborn hj
    rw [inputs_concat, answers_concat, hin, hout, hother hji, hanswer, Option.bind_some, if_neg (Ne.symm hji)]
    exact ⟨rfl, rfl⟩

theorem Kept.leave (hk : h.Kept guest run os s) (hm : h.Keeps m guest) {a : ι}
    (hnone : ∀ i x, h.sent a = some (i, x) → (h.guests s)[i]? = none) :
    h.Kept guest (run ++ [(s, a)]) (os ++ [(m.step s a).1]) (m.step s a).2 := by
  obtain ⟨hanswer, hguests⟩ := hm.leave hnone
  have hin (j : Nat) : h.inputAt j s a = none := by
    unfold inputAt
    cases hsent : h.sent a with
    | none => rfl
    | some x =>
      refine if_neg fun hx => ?_
      have hlen := List.getElem?_eq_none_iff.mp (hnone x.1 x.2 hsent)
      exact Nat.not_lt.mpr hlen (hx.1 ▸ hx.2)
  have hinputs (j : Nat) : h.inputs j (run ++ [(s, a)]) = h.inputs j run := by
    rw [inputs_concat, hin]
    exact List.append_nil _
  have hanswers (j : Nat) : h.answers j (os ++ [(m.step s a).1]) = h.answers j os := by
    rw [answers_concat, hanswer]
    exact List.append_nil _
  refine ⟨?_, fun {j u} hu => ?_, fun {j u} hu => ?_, fun {j} hj => ?_⟩
  · rw [births_concat, hguests, List.length_append, List.length_append, hk.count]
  · rw [births_concat] at hu
    rw [hguests, hinputs]
    rcases Nat.lt_or_ge j (h.births run).length with hlt | hge
    · rw [List.getElem?_append_left hlt] at hu
      rw [List.getElem?_append_left (hk.count ▸ hlt)]
      exact hk.state hu
    · rw [List.getElem?_append_right hge, hk.count] at hu
      rw [List.getElem?_append_right (hk.count ▸ hge), (hk.unborn (hk.count ▸ hge)).1]
      exact hu
  · rw [births_concat] at hu
    rw [hanswers, hinputs]
    rcases Nat.lt_or_ge j (h.births run).length with hlt | hge
    · rw [List.getElem?_append_left hlt] at hu
      exact hk.answers hu
    · obtain ⟨hin, hout⟩ := hk.unborn (hk.count ▸ hge)
      rw [hin, hout]
      rfl
  · rw [hguests, List.length_append] at hj
    rw [hinputs, hanswers]
    exact hk.unborn (Nat.le_of_add_right_le hj)

/-- In every run, every guest is as it would be alone. -/
theorem Keeps.kept (hm : h.Keeps m guest) (hs : h.guests s = []) (as : List ι) :
    h.Kept guest (m.trace s as) (m.outputs s as) (m.final s as) := by
  induction as using List.reverseRecOn with
  | nil => exact kept_nil hs
  | append_singleton as a ih =>
    rw [Machine.trace_concat, Machine.outputs_concat, Machine.final_concat]
    by_cases hfor : ∃ i x t, h.sent a = some (i, x) ∧ (h.guests (m.final s as))[i]? = some t
    · obtain ⟨i, x, t, hsent, ht⟩ := hfor
      exact ih.serve hm hsent ht
    · refine ih.leave hm fun i x hsent => ?_
      cases ht : (h.guests (m.final s as))[i]? with
      | none => rfl
      | some t => exact absurd ⟨i, x, t, hsent, ht⟩ hfor

end Hosting
end XmppProxy.Lib
