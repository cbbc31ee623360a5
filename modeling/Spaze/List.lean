import Mathlib.Logic.Function.Basic
import Spaze.Common

/-!
The intrusive doubly linked list of list.h and list.c.

A node is named by its address; its two words live in a memory that every list
shares, and stay there when the node leaves a list. A NULL pointer is `none`.
-/
namespace Spaze

/-- `struct link_s`. -/
structure LinkS (α : Type*) where
  next : Option α
  prev : Option α
  deriving DecidableEq

/-- `struct list_s`. -/
structure ListS (α : Type*) where
  head : Option α
  tail : Option α
  deriving DecidableEq

/-- The empty list, `(struct list_s){0}`. -/
def ListS.zero {α : Type*} : ListS α := ⟨none, none⟩

/-- The memory of link words. -/
abbrev Links (α : Type*) := α → LinkS α

variable {α : Type*} [DecidableEq α]

/-- The assignment `link->next = v`. -/
def Links.setNext (m : Links α) (link : α) (v : Option α) : Links α :=
  Function.update m link { m link with next := v }

/-- The assignment `link->prev = v`. -/
def Links.setPrev (m : Links α) (link : α) (v : Option α) : Links α :=
  Function.update m link { m link with prev := v }

/-- `list_insert_after`. -/
def listInsertAfter (m : Links α) (list : ListS α) (link newLink : α) : Links α × ListS α :=
  let m := m.setNext newLink (m link).next
  let m := m.setPrev newLink (some link)
  let (m, list) :=
    match (m link).next with
    | some n => (m.setPrev n (some newLink), list)
    | none => (m, { list with tail := some newLink })
  (m.setNext link (some newLink), list)

/-- `list_push`. Into an empty list the words of the new node are not written. -/
def listPush (m : Links α) (list : ListS α) (newLink : α) : Links α × ListS α :=
  match list.tail with
  | none => (m, { head := some newLink, tail := some newLink })
  | some tail => listInsertAfter m list tail newLink

/-- `list_remove`. The words of the removed node are not written. -/
def listRemove (m : Links α) (list : ListS α) (link : α) : Links α × ListS α :=
  let (m, list) :=
    match (m link).prev with
    | some p => (m.setNext p (m link).next, list)
    | none => (m, { list with head := (m link).next })
  match (m link).next with
  | some n => (m.setPrev n (m link).prev, list)
  | none => (m, { list with tail := (m link).prev })

/-- `list_pop_front`. -/
def listPopFront (m : Links α) (list : ListS α) : (Links α × ListS α) × Option α :=
  match list.head with
  | none => ((m, list), none)
  | some front => (listRemove m list front, some front)

/-- The expression `link ? link->next : NULL`, or `prev`, with the read as `advance`. -/
def linkAfter {α σ : Type} (advance : σ → α → Except Stop (Option α)) (s : σ) :
    Option α → Except Stop (Option α)
  | some link => advance s link
  | none => .ok none

/--
The loops `list_for_each` and `list_for_each_reversed`: the link to go to next is
read before the body runs. A body that answers `some r` leaves the loop, as a
`return` in it does.
-/
def listForEachFrom {α σ β : Type} (advance : σ → α → Except Stop (Option α))
    (body : σ → α → Except Stop (σ × Option β)) :
    ℕ → σ → Option α → Option α → Except Stop (σ × Option β)
  | 0, _, _, _ => .error .fuel
  | _ + 1, s, none, _ => .ok (s, none)
  | fuel + 1, s, some link, linkNext => do
    let (s, r) ← body s link
    match r with
    | some r => return (s, some r)
    | none =>
      let linkNext' ← linkAfter advance s linkNext
      listForEachFrom advance body fuel s linkNext linkNext'

/-- A loop from its first link on. -/
def listForEach {α σ β : Type} (advance : σ → α → Except Stop (Option α))
    (body : σ → α → Except Stop (σ × Option β)) (fuel : ℕ) (s : σ) (first : Option α) :
    Except Stop (σ × Option β) := do
  let linkNext ← linkAfter advance s first
  listForEachFrom advance body fuel s first linkNext

@[simp] theorem setNext_next (m : Links α) (a b : α) (v : Option α) :
    (m.setNext a v b).next = if b = a then v else (m b).next := by
  by_cases h : b = a <;> simp [Links.setNext, h]

@[simp] theorem setNext_prev (m : Links α) (a b : α) (v : Option α) :
    (m.setNext a v b).prev = (m b).prev := by
  by_cases h : b = a <;> simp [Links.setNext, h]

@[simp] theorem setPrev_next (m : Links α) (a b : α) (v : Option α) :
    (m.setPrev a v b).next = (m b).next := by
  by_cases h : b = a <;> simp [Links.setPrev, h]

@[simp] theorem setPrev_prev (m : Links α) (a b : α) (v : Option α) :
    (m.setPrev a v b).prev = if b = a then v else (m b).prev := by
  by_cases h : b = a <;> simp [Links.setPrev, h]

end Spaze
