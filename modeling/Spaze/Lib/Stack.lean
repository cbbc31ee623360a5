import Mathlib.Data.Nat.Notation

/-! Pushes and pops of a stack, and what it means that the pops are last in first out. -/
namespace Stacks

variable {α : Type*}

/-- A push, or a pop with what it returned. -/
inductive Call (α : Type*)
  | push (a : α)
  | pop (result : Option α)

/-- The contents after a call, newest first. -/
def after (contents : List α) : Call α → List α
  | .push a => a :: contents
  | .pop _ => contents.tail

/-- Every pop returns the newest element pushed and not yet popped, and nothing exactly when
there is none. -/
def Lifo : List α → List (Call α) → Prop
  | _, [] => True
  | contents, .push a :: cs => Lifo (a :: contents) cs
  | contents, .pop result :: cs => result = contents.head? ∧ Lifo contents.tail cs

/-- The elements pushed, oldest first. -/
def pushed (cs : List (Call α)) : List α :=
  cs.filterMap fun
    | .push a => some a
    | .pop _ => none

/-- The elements that pops returned, in order. -/
def returned (cs : List (Call α)) : List α :=
  cs.filterMap fun
    | .push _ => none
    | .pop result => result

variable {contents above below : List α} {cs cs' : List (Call α)} {a : α} {r : Option α}

@[simp] theorem returned_nil : returned ([] : List (Call α)) = [] := rfl

@[simp] theorem returned_cons_push : returned (.push a :: cs) = returned cs := rfl

@[simp] theorem returned_cons_pop : returned (.pop r :: cs) = r.toList ++ returned cs := by
  cases r <;> rfl

theorem lifo_append :
    Lifo contents (cs ++ cs') ↔ Lifo contents cs ∧ Lifo (cs.foldl after contents) cs' := by
  induction cs generalizing contents with
  | nil => simp [Lifo]
  | cons c cs ih =>
    cases c with
    | push a => simp [Lifo, after, ih]
    | pop result => simp [Lifo, after, ih, and_assoc]

theorem foldl_after_push {as : List α} :
    (as.map Call.push).foldl after contents = as.reverse ++ contents := by
  induction as generalizing contents with
  | nil => rfl
  | cons a as ih => simp [after, ih]

theorem lifo_map_push {as : List α} : Lifo contents (as.map .push) := by
  induction as generalizing contents with
  | nil => trivial
  | cons a as ih => exact ih

/-- While nothing that satisfies `p` is pushed above `a`, the first such element to be
returned is `a`, and a pop that returns nothing comes after it. -/
theorem Lifo.first_returned {p : α → Bool} (h : Lifo (above ++ a :: below) cs) (ha : p a = true)
    (habove : ∀ b ∈ above, p b = false) (hpush : ∀ b, .push b ∈ cs → p b = false) :
    (∀ b, (returned cs).find? p = some b → b = a) ∧
      (.pop none ∈ cs → (returned cs).find? p = some a) := by
  induction cs generalizing above with
  | nil => simp
  | cons c cs ih =>
    have hpush' : ∀ b, .push b ∈ cs → p b = false := fun b hb => hpush b (List.mem_cons_of_mem _ hb)
    cases c with
    | push b =>
      -- `b` joins the elements above
      have hb : ∀ x ∈ b :: above, p x = false := by
        simpa [hpush b (by simp)] using habove
      have h' : Lifo ((b :: above) ++ a :: below) cs := h
      simpa using ih h' hb hpush'
    | pop r =>
      obtain ⟨hr, hcs⟩ := h
      cases above with
      | nil =>
        obtain rfl : r = some a := hr
        simp [ha, eq_comm]
      | cons b above =>
        obtain rfl : r = some b := hr
        have hrest := ih hcs (fun x hx => habove x (List.mem_cons_of_mem _ hx)) hpush'
        simpa [habove b (by simp)] using hrest

end Stacks
