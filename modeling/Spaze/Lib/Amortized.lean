import Mathlib.Algebra.BigOperators.Group.List.Basic
import Mathlib.Algebra.Ring.Nat
import Mathlib.Data.Nat.Basic
import Mathlib.Order.Monotone.Defs
import Spaze.Lib.Runs

/-! Costs along runs, and the potential method. -/
namespace Amortized

open Runs

variable {σ Λ : Type*} {M : System σ Λ} {s t : σ} {a : Λ} {tr : List (σ × Λ)}

/-- What a quantity adds up to over the steps of a run. -/
def total (f : σ → Λ → ℕ) (tr : List (σ × Λ)) : ℕ := (tr.map fun x => f x.1 x.2).sum

@[simp] theorem total_nil (f : σ → Λ → ℕ) : total f [] = 0 := rfl

@[simp] theorem total_snoc (f : σ → Λ → ℕ) :
    total f (tr ++ [(s, a)]) = total f tr + f s a := by
  simp [total]

theorem total_mul (c : ℕ) (f : σ → Λ → ℕ) :
    total (fun s a => c * f s a) tr = c * total f tr := by
  induction tr with
  | nil => rfl
  | cons x tr ih =>
    simp only [total, List.map_cons, List.sum_cons] at ih ⊢
    rw [ih, Nat.mul_add]

/-- The potential method: what every step costs is paid from its budget and from the potential,
so a run costs what its budgets and the potential at its start add up to at most. -/
theorem amortized {I : σ → Prop} (cost budget : σ → Λ → ℕ) (potential : σ → ℕ)
    (h : M.Run s tr t)
    (hstep : ∀ s a t, I s → M.step s a t →
      I t ∧ cost s a + potential t ≤ budget s a + potential s) (hs : I s) :
    I t ∧ total cost tr + potential t ≤ total budget tr + potential s := by
  induction h with
  | nil => exact ⟨hs, by simp⟩
  | snoc _ ha ih =>
    obtain ⟨hi, hle⟩ := ih
    obtain ⟨hi', hpaid⟩ := hstep _ _ _ hi ha
    refine ⟨hi', ?_⟩
    rw [total_snoc, total_snoc]
    omega

/-- The overhead rule: a quantity that only grows under a monotone bound of another one stays
under that bound of the other's peak. -/
theorem le_peak {I : σ → Prop} {f g : σ → ℕ} {bound : ℕ → ℕ} (hbound : Monotone bound)
    (h : M.Run s tr t)
    (hstep : ∀ s a t, I s → M.step s a t → I t ∧ (f t ≤ f s ∨ f t ≤ bound (g t))) (hs : I s)
    (hstart : f s ≤ bound (g s)) : I t ∧ f t ≤ bound (peak g tr t) := by
  induction h with
  | nil => exact ⟨hs, by rwa [peak_nil]⟩
  | snoc _ ha ih =>
    obtain ⟨hi, hle⟩ := ih
    obtain ⟨hi', hkeep⟩ := hstep _ _ _ hi ha
    refine ⟨hi', ?_⟩
    rw [peak_snoc]
    rcases hkeep with hkeep | hkeep
    · exact hkeep.trans (hle.trans (hbound (Nat.le_max_left _ _)))
    · exact hkeep.trans (hbound (Nat.le_max_right _ _))

/-- The largest value that a quantity has over the steps of a run. -/
def highest (f : σ → Λ → ℕ) (tr : List (σ × Λ)) : ℕ :=
  (tr.map fun x => f x.1 x.2).foldr max 0

theorem highest_snoc (f : σ → Λ → ℕ) :
    highest f (tr ++ [(s, a)]) = max (highest f tr) (f s a) := by
  induction tr with
  | nil => simp [highest]
  | cons x tr ih =>
    simp only [highest, List.cons_append, List.map_cons, List.foldr_cons] at ih ⊢
    rw [ih, Nat.max_assoc]

/-- The same for a bound of what a step needs. -/
theorem le_highest {f : σ → ℕ} {need : σ → Λ → ℕ} {bound : ℕ → ℕ} (hbound : Monotone bound)
    (h : M.Run s tr t)
    (hstep : ∀ s a t, M.step s a t → f t ≤ f s ∨ f t ≤ bound (need s a)) :
    f t ≤ max (f s) (bound (highest need tr)) := by
  induction h with
  | nil => exact Nat.le_max_left _ _
  | @snoc u v tr b hrun ha ih =>
    rw [highest_snoc]
    have hold := hbound (Nat.le_max_left (highest need tr) (need u b))
    have hnew := hbound (Nat.le_max_right (highest need tr) (need u b))
    rcases hstep _ _ _ ha with hkeep | hkeep <;> omega

end Amortized
