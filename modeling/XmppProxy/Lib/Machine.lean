import Mathlib.Data.List.Forall2

/-! Deterministic machines that answer every input symbol with one output. Runs compose over
concatenation, invariants pass from one step to a whole run, and a simulation between two machines
carries the answers of one over to the other. Where every step lowers a rank or does nothing, runs come to rest. -/

namespace XmppProxy.Lib

structure Machine (σ ι ο : Type*) where
  step : σ → ι → ο × σ

namespace Machine

variable {σ τ ι ο π : Type*}

def outputs (m : Machine σ ι ο) : σ → List ι → List ο
  | _, [] => []
  | s, a :: as => (m.step s a).1 :: outputs m (m.step s a).2 as

def final (m : Machine σ ι ο) : σ → List ι → σ
  | s, [] => s
  | s, a :: as => final m (m.step s a).2 as

def trace (m : Machine σ ι ο) : σ → List ι → List (σ × ι)
  | _, [] => []
  | s, a :: as => (s, a) :: trace m (m.step s a).2 as

@[simp] theorem outputs_nil (m : Machine σ ι ο) (s : σ) : m.outputs s [] = [] := rfl

@[simp] theorem final_nil (m : Machine σ ι ο) (s : σ) : m.final s [] = s := rfl

theorem outputs_cons (m : Machine σ ι ο) (s : σ) (a : ι) (as : List ι) :
    m.outputs s (a :: as) = (m.step s a).1 :: m.outputs (m.step s a).2 as := rfl

theorem final_cons (m : Machine σ ι ο) (s : σ) (a : ι) (as : List ι) :
    m.final s (a :: as) = m.final (m.step s a).2 as := rfl

theorem outputs_append (m : Machine σ ι ο) (as bs : List ι) (s : σ) :
    m.outputs s (as ++ bs) = m.outputs s as ++ m.outputs (m.final s as) bs := by
  induction as generalizing s with
  | nil => rfl
  | cons a as ih => simp only [List.cons_append, outputs_cons, final_cons, ih]

theorem final_append (m : Machine σ ι ο) (as bs : List ι) (s : σ) :
    m.final s (as ++ bs) = m.final (m.final s as) bs := by
  induction as generalizing s with
  | nil => rfl
  | cons a as ih => simp only [List.cons_append, final_cons, ih]

theorem outputs_concat (m : Machine σ ι ο) (as : List ι) (a : ι) (s : σ) :
    m.outputs s (as ++ [a]) = m.outputs s as ++ [(m.step (m.final s as) a).1] := by
  rw [outputs_append]
  rfl

theorem final_concat (m : Machine σ ι ο) (as : List ι) (a : ι) (s : σ) :
    m.final s (as ++ [a]) = (m.step (m.final s as) a).2 := by
  rw [final_append]
  rfl

theorem trace_concat (m : Machine σ ι ο) (as : List ι) (a : ι) (s : σ) :
    m.trace s (as ++ [a]) = m.trace s as ++ [(m.final s as, a)] := by
  induction as generalizing s with
  | nil => rfl
  | cons b as ih => exact congrArg (_ :: ·) (ih _)

theorem mem_trace_concat (m : Machine σ ι ο) (as : List ι) (a : ι) (s : σ) :
    (m.final s as, a) ∈ m.trace s (as ++ [a]) := by
  rw [trace_concat]
  exact List.mem_append_right _ (List.mem_singleton_self _)

@[simp] theorem length_outputs (m : Machine σ ι ο) (as : List ι) (s : σ) :
    (m.outputs s as).length = as.length := by
  induction as generalizing s with
  | nil => rfl
  | cons a as ih => simp only [outputs_cons, List.length_cons, ih]

theorem invariant {m : Machine σ ι ο} {P : σ → Prop} (hstep : ∀ s a, P s → P (m.step s a).2)
    {s : σ} (hs : P s) (as : List ι) : P (m.final s as) := by
  induction as generalizing s with
  | nil => exact hs
  | cons a as ih => exact ih (hstep s a hs)

theorem outputs_eq_trace (m : Machine σ ι ο) (as : List ι) (s : σ) :
    m.outputs s as = (m.trace s as).map fun x => (m.step x.1 x.2).1 := by
  induction as generalizing s with
  | nil => rfl
  | cons a as ih => exact congrArg (_ :: ·) (ih _)

theorem trace_invariant {m : Machine σ ι ο} {P Q : σ → Prop}
    (hstep : ∀ s a, Q s → P s → P (m.step s a).2) {s : σ} (hs : P s) {as : List ι}
    (hq : ∀ x ∈ m.trace s as, Q x.1) : ∀ x ∈ m.trace s as, P x.1 := by
  induction as generalizing s with
  | nil =>
    intro x hx
    cases hx
  | cons a as ih =>
    rw [trace, List.forall_mem_cons] at hq ⊢
    exact ⟨hs, ih (hstep s a hq.1 hs) hq.2⟩

/-- `R` relates the states, `Q` the answers, of two machines that read the same symbols. -/
def Simulates (m : Machine σ ι ο) (n : Machine τ ι π) (R : σ → τ → Prop) (Q : ο → π → Prop) : Prop :=
  ∀ s t a, R s t → Q (m.step s a).1 (n.step t a).1 ∧ R (m.step s a).2 (n.step t a).2

theorem Simulates.final {m : Machine σ ι ο} {n : Machine τ ι π} {R : σ → τ → Prop}
    {Q : ο → π → Prop} (h : Simulates m n R Q) {s : σ} {t : τ} (hst : R s t) (as : List ι) :
    R (m.final s as) (n.final t as) := by
  induction as generalizing s t with
  | nil => exact hst
  | cons a as ih => exact ih (h s t a hst).2

theorem Simulates.outputs {m : Machine σ ι ο} {n : Machine τ ι π} {R : σ → τ → Prop}
    {Q : ο → π → Prop} (h : Simulates m n R Q) {s : σ} {t : τ} (hst : R s t) (as : List ι) :
    List.Forall₂ Q (m.outputs s as) (n.outputs t as) := by
  induction as generalizing s t with
  | nil => exact List.Forall₂.nil
  | cons a as ih => exact List.Forall₂.cons (h s t a hst).1 (ih (h s t a hst).2)

theorem Simulates.outputs_eq {m : Machine σ ι ο} {n : Machine τ ι ο} {R : σ → τ → Prop}
    (h : Simulates m n R Eq) {s : σ} {t : τ} (hst : R s t) (as : List ι) :
    m.outputs s as = n.outputs t as :=
  List.forall₂_eq_eq_eq ▸ h.outputs hst as

section

variable {m : Machine σ ι ο} {P : σ → Prop} {rank : σ → Nat}

theorem final_of_stays {s : σ} {as : List ι} (h : ∀ a ∈ as, (m.step s a).2 = s) : m.final s as = s := by
  induction as with
  | nil => rfl
  | cons a as ih =>
    rw [final_cons, h a (List.mem_cons_self ..)]
    exact ih fun b hb => h b (List.mem_cons_of_mem _ hb)

variable (hstep : ∀ s a, P s → (m.step s a).2 = s ∨ P (m.step s a).2 ∧ rank (m.step s a).2 < rank s)
include hstep

theorem stays_or_lowers {s : σ} (hs : P s) (as : List ι) :
    (∀ a ∈ as, (m.step s a).2 = s) ∨ P (m.final s as) ∧ rank (m.final s as) < rank s := by
  induction as generalizing s with
  | nil => exact .inl nofun
  | cons a as ih =>
    rw [final_cons]
    rcases hstep s a hs with hstay | ⟨hP, hlt⟩
    · rw [hstay, List.forall_mem_cons]
      exact (ih hs).imp_left fun hstays => ⟨hstay, hstays⟩
    · refine .inr ?_
      rcases ih hP with hstays | ⟨hP', hlt'⟩
      · rw [final_of_stays hstays]
        exact ⟨hP, hlt⟩
      · exact ⟨hP', Nat.lt_trans hlt' hlt⟩

/-- In rounds that have every symbol, in any order, a run comes to a state that no symbol moves. The rank bounds
how many rounds it takes. -/
theorem comes_to_rest {s : σ} (hs : P s) {rounds : List (List ι)} (hall : ∀ r ∈ rounds, ∀ a, a ∈ r)
    (hlen : rank s < rounds.length) :
    P (m.final s rounds.flatten) ∧ ∀ a, (m.step (m.final s rounds.flatten) a).2 = m.final s rounds.flatten := by
  induction rounds generalizing s with
  | nil => exact absurd hlen (Nat.not_lt_zero _)
  | cons r rounds ih =>
    obtain ⟨hr, hrounds⟩ := List.forall_mem_cons.mp hall
    rw [List.length_cons] at hlen
    rcases stays_or_lowers hstep hs r with hstays | ⟨hP, hlt⟩
    · have hrest : ∀ a, (m.step s a).2 = s := fun a => hstays a (hr a)
      rw [final_of_stays fun a _ => hrest a]
      exact ⟨hs, hrest⟩
    · rw [List.flatten_cons, final_append]
      exact ih hP hrounds (by omega)

end

end Machine
end XmppProxy.Lib
