import Mathlib.Data.Nat.Notation

/-! The declarations of common.h that the other files share. -/
namespace Spaze

/-- `usize_t`, the unsigned integer of the pointer width; common.h allows 32 and 64 bits. -/
abbrev UsizeT (w : ℕ) := BitVec w

/-- Why a call does not return: a failed assertion panics, a loop runs out of the steps
it was given, memory outside a live block is read or written, or mi_malloc aborts. -/
inductive Stop
  | panic
  | fuel
  | fault
  | abort
  deriving DecidableEq

/-- The `assert` macro. -/
def assert (expr : Bool) : Except Stop Unit :=
  if expr then .ok () else .error .panic

@[simp] theorem assert_true : assert true = .ok () := rfl

@[simp] theorem assert_eq_ok {expr : Bool} {u : Unit} : assert expr = .ok u ↔ expr = true := by
  cases expr <;> simp [assert]

/-- A sequence of calls returns when the first one does and the rest does after it. -/
theorem bind_eq_ok {α β : Type} {x : Except Stop α} {f : α → Except Stop β} {b : β} :
    x >>= f = .ok b ↔ ∃ a, x = .ok a ∧ f a = .ok b := by
  cases x with
  | error e => simp [Bind.bind, Except.bind]
  | ok a => simp [Bind.bind, Except.bind]

/-- It stops when the first one does, or when the rest does after it. -/
theorem bind_eq_error {α β : Type} {x : Except Stop α} {f : α → Except Stop β} {e : Stop} :
    x >>= f = .error e ↔ x = .error e ∨ ∃ a, x = .ok a ∧ f a = .error e := by
  cases x with
  | error e => simp [Bind.bind, Except.bind]
  | ok a => simp [Bind.bind, Except.bind]

/-- A reason for which no call of a sequence stops is none for the sequence. -/
theorem bind_ne_error {α β : Type} {x : Except Stop α} {f : α → Except Stop β} {e : Stop}
    (hx : x ≠ .error e) (hf : ∀ a, x = .ok a → f a ≠ .error e) : x >>= f ≠ .error e := by
  intro h
  rcases bind_eq_error.mp h with h | ⟨a, ha, h⟩
  · exact hx h
  · exact hf a ha h

end Spaze
