import Mathlib.Logic.Function.Basic

/-! A ledger of elements in use: each is at one place, and moves from one place to another. -/
namespace Ledger

variable {α P : Type*}

/-- Where the elements are; those that are not in use are at no place. -/
abbrev Places (α P : Type*) := α → Option P

/-- An element comes to a place, from another one or into use. -/
def move [DecidableEq α] (places : Places α P) (a : α) (p : P) : Places α P :=
  Function.update places a (some p)

/-- All elements at a place go to another one. -/
def moveAll [DecidableEq P] (places : Places α P) (p q : P) : Places α P :=
  fun a => if places a = some p then some q else places a

variable {places : Places α P} {a b : α} {p q r : P}

theorem move_eq_some [DecidableEq α] :
    move places a p b = some q ↔ b = a ∧ p = q ∨ b ≠ a ∧ places b = some q := by
  by_cases h : b = a <;> simp [move, h]

theorem move_ne_none [DecidableEq α] : move places a p b ≠ none ↔ b = a ∨ places b ≠ none := by
  by_cases h : b = a <;> simp [move, h]

/-- A move of an element in use brings none into use. -/
theorem move_used [DecidableEq α] (h : places a ≠ none) :
    move places a p b ≠ none ↔ places b ≠ none := by
  rw [move_ne_none]
  exact or_iff_right_of_imp fun he => he ▸ h

theorem moveAll_eq_some [DecidableEq P] : moveAll places p q a = some r ↔
    places a = some p ∧ q = r ∨ places a ≠ some p ∧ places a = some r := by
  by_cases h : places a = some p <;> simp [moveAll, h]

theorem moveAll_ne_none [DecidableEq P] : moveAll places p q a ≠ none ↔ places a ≠ none := by
  by_cases h : places a = some p <;> simp [moveAll, h]

end Ledger
