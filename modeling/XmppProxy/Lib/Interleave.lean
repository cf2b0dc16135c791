import Mathlib.Logic.Function.Basic
import XmppProxy.Lib.Machine

/-! Machines side by side: each symbol is for one of them, which alone takes a step. Whatever the order in
which the symbols come, each machine goes through the run that it has on its own symbols. -/

namespace XmppProxy.Lib

def own {κ : Type*} [DecidableEq κ] {α : κ → Type*} (k : κ) (as : List (Σ k, α k)) : List (α k) :=
  as.filterMap fun a => if h : a.1 = k then some (h ▸ a.2) else none

section

variable {κ : Type*} [DecidableEq κ] {α : κ → Type*}

@[simp] theorem own_nil (k : κ) : own k ([] : List (Σ k, α k)) = [] := rfl

theorem own_cons_self (k : κ) (a : α k) (as : List (Σ k, α k)) : own k (⟨k, a⟩ :: as) = a :: own k as := by
  unfold own
  rw [List.filterMap_cons, dif_pos rfl]

theorem own_cons_ne {k : κ} {a : Σ k, α k} (h : a.1 ≠ k) (as : List (Σ k, α k)) :
    own k (a :: as) = own k as := by
  unfold own
  rw [List.filterMap_cons, dif_neg h]

theorem own_append (k : κ) (as bs : List (Σ k, α k)) : own k (as ++ bs) = own k as ++ own k bs :=
  List.filterMap_append

end

namespace Machine

variable {κ : Type*} [DecidableEq κ] {σ ι ο : κ → Type*}

def sideBySide (m : ∀ k, Machine (σ k) (ι k) (ο k)) : Machine (∀ k, σ k) (Σ k, ι k) (Σ k, ο k) :=
  ⟨fun s a => (⟨a.1, ((m a.1).step (s a.1) a.2).1⟩, Function.update s a.1 ((m a.1).step (s a.1) a.2).2)⟩

variable (m : ∀ k, Machine (σ k) (ι k) (ο k))

theorem final_sideBySide (as : List (Σ k, ι k)) (s : ∀ k, σ k) (k : κ) :
    (sideBySide m).final s as k = (m k).final (s k) (own k as) := by
  induction as generalizing s with
  | nil => rfl
  | cons a as ih =>
    rw [final_cons, ih]
    obtain ⟨j, a⟩ := a
    by_cases h : j = k
    · subst h
      rw [own_cons_self, final_cons]
      exact congrArg (fun t => (m j).final t _) (Function.update_self ..)
    · rw [own_cons_ne h]
      exact congrArg (fun t => (m k).final t _) (Function.update_of_ne (Ne.symm h) ..)

theorem outputs_sideBySide (as : List (Σ k, ι k)) (s : ∀ k, σ k) (k : κ) :
    own k ((sideBySide m).outputs s as) = (m k).outputs (s k) (own k as) := by
  induction as generalizing s with
  | nil => rfl
  | cons a as ih =>
    rw [outputs_cons]
    obtain ⟨j, a⟩ := a
    by_cases h : j = k
    · subst h
      rw [own_cons_self, outputs_cons]
      change own j (⟨j, ((m j).step (s j) a).1⟩ :: _) = _
      rw [own_cons_self, ih]
      exact congrArg (fun t => _ :: (m j).outputs t _) (Function.update_self ..)
    · rw [own_cons_ne h, own_cons_ne h, ih]
      exact congrArg (fun t => (m k).outputs t _) (Function.update_of_ne (Ne.symm h) ..)

end Machine
end XmppProxy.Lib
