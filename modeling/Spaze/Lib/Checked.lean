import Mathlib.Data.Nat.Notation
import Mathlib.Algebra.Group.Nat.Defs

/-! Computations on words that stop where a sum or a product would wrap. -/
namespace Checked

variable {ε α β : Type} {w : ℕ} {a b : BitVec w}

/-- Why a checked computation ends early: a word wraps, or for a reason of its own. -/
inductive Halt (ε : Type)
  | wraps
  | stops (why : ε)
  deriving DecidableEq

/-- A computation in which no word can wrap. -/
def lift : Except ε α → Except (Halt ε) α
  | .ok a => .ok a
  | .error why => .error (.stops why)

def checkedAdd (a b : BitVec w) : Except (Halt ε) (BitVec w) :=
  if a.toNat + b.toNat < 2 ^ w then .ok (a + b) else .error .wraps

def checkedMul (a b : BitVec w) : Except (Halt ε) (BitVec w) :=
  if a.toNat * b.toNat < 2 ^ w then .ok (a * b) else .error .wraps

/-- No word wraps. -/
def Exact (x : Except (Halt ε) α) : Prop := x ≠ .error .wraps

/-- The first computation is the second one, checked: it differs only by stopping where a word
wraps. -/
def Twin (x : Except (Halt ε) α) (y : Except ε α) : Prop := x = .error .wraps ∨ x = lift y

variable {x : Except (Halt ε) α} {y : Except ε α} {z : Except ε β} {f : α → Except (Halt ε) β}
  {g : α → Except ε β} {v : α}

theorem exact_ok (v : α) : Exact (.ok v : Except (Halt ε) α) := nofun

theorem exact_lift (y : Except ε α) : Exact (lift y) := by
  cases y <;> exact nofun

theorem exact_add (h : a.toNat + b.toNat < 2 ^ w) :
    Exact (checkedAdd a b : Except (Halt ε) (BitVec w)) := by
  rw [checkedAdd, if_pos h]
  exact exact_ok _

theorem exact_mul (h : a.toNat * b.toNat < 2 ^ w) :
    Exact (checkedMul a b : Except (Halt ε) (BitVec w)) := by
  rw [checkedMul, if_pos h]
  exact exact_ok _

/-- No word wraps in a sequence if none does in its parts. -/
theorem Exact.bind (hx : Exact x) (hf : ∀ a, x = .ok a → Exact (f a)) : Exact (x >>= f) := by
  cases x with
  | ok a => exact hf a rfl
  | error e =>
    intro h
    exact hx (congrArg Except.error (Except.error.inj h))

theorem twin_lift (y : Except ε α) : Twin (lift y) y := Or.inr rfl

theorem twin_ok (v : α) : Twin (.ok v : Except (Halt ε) α) (.ok v) := Or.inr rfl

theorem twin_add : Twin (checkedAdd a b : Except (Halt ε) (BitVec w)) (.ok (a + b)) := by
  rw [checkedAdd]
  split
  · exact Or.inr rfl
  · exact Or.inl rfl

theorem twin_mul : Twin (checkedMul a b : Except (Halt ε) (BitVec w)) (.ok (a * b)) := by
  rw [checkedMul]
  split
  · exact Or.inr rfl
  · exact Or.inl rfl

theorem Twin.bind (h : Twin x y) (hf : ∀ a, Twin (f a) (g a)) : Twin (x >>= f) (y >>= g) := by
  rcases h with rfl | rfl
  · exact Or.inl rfl
  · cases y with
    | ok a => exact hf a
    | error e => exact Or.inr rfl

/-- A checked value that a computation goes on with. -/
theorem Twin.value (h : Twin x (.ok v)) (hf : Twin (f v) z) : Twin (x >>= f) z := by
  rcases h with rfl | rfl
  · exact Or.inl rfl
  · exact hf

/-- Where no word wraps, a computation and its checked twin are the same. -/
theorem Twin.eq_of_exact (h : Twin x y) (hx : Exact x) : x = lift y := h.resolve_left hx

/-- What a checked computation returns is what the other one returns. -/
theorem Twin.ok (h : Twin x y) (hx : x = .ok v) : y = .ok v := by
  have heq := h.eq_of_exact (by rw [hx]; exact exact_ok v)
  cases y with
  | ok u =>
    rw [heq] at hx
    rw [Except.ok.inj hx]
  | error e => cases heq.symm.trans hx

end Checked
