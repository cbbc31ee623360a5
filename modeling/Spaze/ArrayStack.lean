import Spaze.Lib.Runs
import Spaze.Array

/-! The byte array refines a stack, over runs of pushes, pops and deinits. -/
namespace Spaze

open Runs

variable {w : ℕ} {α : Type}

/-- A push with its element, a pop with what it copied out, or a deinit. -/
inductive ArrayCall (α : Type)
  | push (elem : α)
  | pop (result : Option α)
  | deinit
  deriving DecidableEq

/-! ## The stack -/

/-- A step of a stack of elements, the newest first. -/
inductive StackStep : List α → ArrayCall α → List α → Prop
  | push (elems : List α) (elem : α) : StackStep elems (.push elem) (elem :: elems)
  | pop (elems : List α) : StackStep elems (.pop elems.head?) elems.tail
  | deinit (elems : List α) : StackStep elems .deinit []

def stackSystem (α : Type) : System (List α) (ArrayCall α) where
  initial elems := elems = []
  step := StackStep

/-! ## The array -/

/-- One completed call. Every call of mi_malloc finds bytes of its own. -/
inductive ArrayStep : ArrayS w → ArrayCall (List Byte) → ArrayS w → Prop
  | push {s t : ArrayS w} {mem : Malloc} {elem : List Byte}
      (he : elem.length = s.elemSize.toNat) (h : arrayPush mem s elem = .ok t) :
      ArrayStep s (.push elem) t
  | pop {s t : ArrayS w} {result : Option (List Byte)} (h : arrayPop s = .ok (t, result)) :
      ArrayStep s (.pop result) t
  | deinit {s : ArrayS w} : ArrayStep s .deinit (arrayDeinit s)

def arraySystem (elemSize : UsizeT w) : System (ArrayS w) (ArrayCall (List Byte)) where
  initial s := s = arrayInit elemSize
  step := ArrayStep

/-- No size that the call computes wraps. -/
def NoWrap (s : ArrayS w) : ArrayCall (List Byte) → Prop
  | .push _ => PushFits s
  | .pop _ => True
  | .deinit => True

/-- The array is the stack of these elements, the newest first. -/
structure Refines (elemSize : UsizeT w) (arr : ArrayS w) (elems : List (List Byte)) : Prop where
  elemSize : arr.elemSize = elemSize
  stores : Stores (2 ^ w - 1) arr elems.reverse

variable {elemSize : UsizeT w} {s t arr : ArrayS w} {elems : List (List Byte)}
  {a : ArrayCall (List Byte)} {e bytes : List Byte} {tr : List (ArrayS w × ArrayCall (List Byte))}
  {mem : Malloc} {limit i : ℕ}

theorem range_lt : 2 ^ w - 1 < 2 ^ w := by
  have hpos := Nat.two_pow_pos w
  omega

theorem Refines.pop (h : Refines elemSize s elems) : ∃ t,
    arrayPop s = .ok (t, elems.head?) ∧ Refines elemSize t elems.tail := by
  obtain ⟨hsize, hstores⟩ := h
  cases elems with
  | nil => exact ⟨s, hstores.pop_nil, hsize, hstores⟩
  | cons e elems =>
    rw [List.reverse_cons] at hstores
    obtain ⟨t, hpop, htail, helem⟩ := hstores.pop range_lt
    exact ⟨t, hpop, helem.trans hsize, htail⟩

/-- A push returns, with its element on top, or mi_malloc has aborted. -/
theorem Refines.push (h : Refines elemSize s elems) (hpos : 0 < elemSize.toNat)
    (hfit : PushFits s) (he : e.length = elemSize.toNat) :
    arrayPush mem s e = .error .abort ∨
      ∃ t, arrayPush mem s e = .ok t ∧ Refines elemSize t (e :: elems) := by
  obtain ⟨hsize, hstores⟩ := h
  have hserve : ∀ size : UsizeT w, size.toNat ≤ mem.limit → size.toNat ≤ 2 ^ w - 1 :=
    fun size _ => Nat.le_sub_one_of_lt size.isLt
  rw [← hsize] at hpos he
  rcases hstores.push_cases range_lt hpos hfit hserve he with habort | ⟨t, hok, hpushed, helem⟩
  · exact Or.inl habort
  · exact Or.inr ⟨t, hok, helem.trans hsize, by simpa using hpushed⟩

theorem refines_step (hpos : 0 < elemSize.toNat) (h : Refines elemSize s elems)
    (hfit : NoWrap s a) (hs : (arraySystem elemSize).step s a t) :
    ∃ elems', (stackSystem (List Byte)).step elems a elems' ∧ Refines elemSize t elems' := by
  cases hs with
  | push he hp =>
    rw [h.elemSize] at he
    rcases h.push hpos hfit he with habort | ⟨t', hok, hpushed⟩
    · cases hp.symm.trans habort
    · cases hp.symm.trans hok
      exact ⟨_, .push elems _, hpushed⟩
  | pop hp =>
    obtain ⟨t', hpop, htail⟩ := h.pop
    cases hp.symm.trans hpop
    exact ⟨_, .pop elems, htail⟩
  | deinit =>
    refine ⟨[], .deinit elems, ?_⟩
    rw [h.stores.deinit, h.elemSize]
    exact ⟨rfl, stores_init _⟩

/-! ## What an array that stores elements looks like -/

/-- The array as a client sees it: these elements, the newest first. -/
structure Shows (arr : ArrayS w) (elems : List (List Byte)) : Prop where
  length : arr.length.toNat = elems.length
  room : arr.length ≤ arr.capacity
  null : arr.ptr = none ↔ arr.capacity = 0
  element : ∀ i e, elems.reverse[i]? = some e →
    (arr.bytes.drop (i * arr.elemSize.toNat)).take arr.elemSize.toNat = e

theorem Refines.shows (h : Refines elemSize arr elems) : Shows arr elems := by
  have hlength := h.stores.length
  have hroom := h.stores.room
  rw [List.length_reverse] at hlength hroom
  refine ⟨hlength, ?_, h.stores.null, ?_⟩
  · rw [BitVec.le_def]
    omega
  · intro i e he
    obtain ⟨hi, rfl⟩ := List.getElem?_eq_some_iff.mp he
    have hstores := h.stores
    rw [← List.take_append_drop i elems.reverse, List.drop_eq_getElem_cons hi] at hstores
    have helement := hstores.element
    rwa [List.length_take_of_le (by omega)] at helement

/-- In every run whose sizes do not wrap the array does what a stack does: each pop copies out
the newest element pushed and not yet popped since the last deinit, or returns NULL if there is
none. A pop always returns, and a push unless mi_malloc aborts. -/
theorem array_refines_stack (hpos : 0 < elemSize.toNat) (h : (arraySystem elemSize).Trace tr t)
    (hfit : ∀ x ∈ tr, NoWrap x.1 x.2) :
    ∃ tr' elems, (stackSystem (List Byte)).Trace tr' elems ∧ labels tr' = labels tr ∧
      Shows t elems ∧ t.elemSize = elemSize ∧
      (∃ u, arrayPop t = .ok (u, elems.head?)) ∧
      ∀ mem e, e.length = elemSize.toNat → PushFits t →
        arrayPush mem t e = .error .abort ∨ ∃ u, arrayPush mem t e = .ok u := by
  obtain ⟨s, rfl, hr⟩ := h
  have hstart : Refines elemSize (arrayInit elemSize) [] := ⟨rfl, stores_init _⟩
  obtain ⟨tr', elems, hrun, hall, href⟩ :=
    hr.simulate (N := stackSystem (List Byte)) (R := Refines elemSize) hfit
      (fun _ _ _ _ h hfit hs => refines_step hpos h hfit hs) hstart
  obtain ⟨u, hpop, _⟩ := href.pop
  refine ⟨tr', elems, ⟨[], rfl, hrun⟩, labels_eq_of_simulate hall, href.shows, href.elemSize,
    ⟨u, hpop⟩, ?_⟩
  intro mem e he hfit
  exact (href.push hpos hfit he).imp_right fun ⟨u, hok, _⟩ => ⟨u, hok⟩

/-! ## A run -/

instance (s : ArrayS w) (a : ArrayCall (List Byte)) : Decidable (NoWrap s a) :=
  match a with
  | .push _ => decidable_of_iff (s.length.toNat + 1 < 2 ^ w ∧ (arrayNeedsResize s 1 = true →
      exactNewCapacity s * s.elemSize.toNat < 2 ^ w)) ⟨fun h => ⟨h.1, h.2⟩, fun h => ⟨h.1, h.2⟩⟩
  | .pop _ | .deinit => isTrue trivial

/-- Carries out a call, if it returns. -/
def arrayExec (mem : Malloc) (s : ArrayS 64) :
    ArrayCall (List Byte) → Option (ArrayS 64 × ArrayCall (List Byte))
  | .push elem =>
    if elem.length = s.elemSize.toNat then
      match arrayPush mem s elem with
      | .ok t => some (t, .push elem)
      | .error _ => none
    else none
  | .pop _ =>
    match arrayPop s with
    | .ok (t, result) => some (t, .pop result)
    | .error _ => none
  | .deinit => some (arrayDeinit s, .deinit)

theorem arrayExec_cases {mem : Malloc} {s t : ArrayS 64} {o a : ArrayCall (List Byte)}
    (h : arrayExec mem s o = some (t, a)) :
    (∃ elem, a = .push elem ∧ elem.length = s.elemSize.toNat ∧ arrayPush mem s elem = .ok t) ∨
      (∃ result, a = .pop result ∧ arrayPop s = .ok (t, result)) ∨
      a = .deinit ∧ t = arrayDeinit s := by
  cases o with
  | push elem =>
    simp only [arrayExec] at h
    split at h
    · split at h
      · cases h
        exact Or.inl ⟨elem, rfl, by assumption, by assumption⟩
      · cases h
    · cases h
  | pop result =>
    simp only [arrayExec] at h
    split at h
    · cases h
      exact Or.inr (Or.inl ⟨_, rfl, by assumption⟩)
    · cases h
  | deinit =>
    cases h
    exact Or.inr (Or.inr ⟨rfl, rfl⟩)

theorem arrayExec_step {elemSize : UsizeT 64} (mem : Malloc) (s : ArrayS 64)
    (o : ArrayCall (List Byte)) (t : ArrayS 64) (a : ArrayCall (List Byte))
    (h : arrayExec mem s o = some (t, a)) : (arraySystem elemSize).step s a t := by
  rcases arrayExec_cases h with ⟨elem, rfl, he, hp⟩ | ⟨result, rfl, hp⟩ | ⟨rfl, rfl⟩
  · exact .push he hp
  · exact .pop hp
  · exact .deinit

/-- Five elements of two bytes, for which the array grows, a pop, and a deinit. -/
theorem array_refines_stack_grown : ∃ tr t tr' elems,
    (arraySystem 2#64).Trace tr t ∧ (stackSystem (List Byte)).Trace tr' elems ∧
    labels tr' = labels tr ∧ labels tr = [.push [1, 1], .push [2, 2], .push [3, 3], .push [4, 4],
      .push [5, 5], .pop (some [5, 5]), .deinit, .push [6, 6], .pop (some [6, 6]), .pop none] := by
  obtain ⟨tr, t, hr, hp⟩ := execute_any (M := arraySystem 2#64)
    (p := fun tr _ => (tr.all fun x => decide (NoWrap x.1 x.2)) && decide (labels tr =
      [.push [1, 1], .push [2, 2], .push [3, 3], .push [4, 4], .push [5, 5],
        .pop (some [5, 5]), .deinit, .push [6, 6], .pop (some [6, 6]), .pop none]))
    (arrayExec_step ⟨2 ^ 63 - 1, fun _ => 7⟩) (show ((execute _ (arrayInit 2#64)
      [.push [1, 1], .push [2, 2], .push [3, 3], .push [4, 4], .push [5, 5], .pop none, .deinit,
        .push [6, 6], .pop none, .pop none]).any _) = true by decide +kernel)
  simp only [Bool.and_eq_true, List.all_eq_true, decide_eq_true_eq] at hp
  obtain ⟨tr', elems, hstack, hlabels, _⟩ :=
    array_refines_stack (by decide) ⟨_, rfl, hr⟩ hp.1
  exact ⟨tr, t, tr', elems, ⟨_, rfl, hr⟩, hstack, hlabels, hp.2⟩

end Spaze
