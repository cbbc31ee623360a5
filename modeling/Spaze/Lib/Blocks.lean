import Mathlib.Logic.Equiv.Defs
import Mathlib.Logic.Function.Basic

/-! Blocks of a heap, each with one owner. -/
namespace Blocks

variable {A B ι : Type*} [DecidableEq A]

/-- The block that a pointer leads to; a null pointer leads to none. -/
def content (heap : A → Option B) (p : Option A) : Option B := p.bind heap

/-- The heap without a block; without a null pointer it is the same. -/
def release (heap : A → Option B) : Option A → A → Option B
  | none => heap
  | some a => Function.update heap a none

/-- Each block in use is that of one owner, and each owner's pointer is null or leads to one. -/
structure Owned (heap : A → Option B) (ptrs : ι → Option A) : Prop where
  used_iff : ∀ a, heap a ≠ none ↔ ∃ k, ptrs k = some a
  unique : ∀ j k a, ptrs j = some a → ptrs k = some a → j = k

variable {heap : A → Option B} {ptrs : ι → Option A} {j k : ι} {a c : A} {b : B} {p : Option A}

theorem release_of_ne (h : p ≠ some c) : release heap p c = heap c := by
  cases p with
  | none => rfl
  | some a =>
    have hca : c ≠ a := fun he => h (congrArg some he.symm)
    rw [release, Function.update_of_ne hca]

theorem release_self (heap : A → Option B) (a : A) : release heap (some a) a = none := by
  rw [release, Function.update_self]

omit [DecidableEq A] in
theorem owned_empty : Owned (fun _ => none : A → Option B) fun _ : ι => none :=
  ⟨by simp, by simp⟩

omit [DecidableEq A] in
theorem Owned.used (h : Owned heap ptrs) (hk : ptrs k = some a) : ∃ b, heap a = some b :=
  Option.ne_none_iff_exists'.mp ((h.used_iff a).mpr ⟨k, hk⟩)

omit [DecidableEq A] in
theorem Owned.ne_fresh (h : Owned heap ptrs) (hfresh : heap a = none) (k : ι) :
    ptrs k ≠ some a := by
  intro hk
  obtain ⟨b, hb⟩ := h.used hk
  rw [hfresh] at hb
  cases hb

omit [DecidableEq A] in
/-- The blocks do not care what their owners are called. -/
theorem Owned.relabel {κ : Type*} (h : Owned heap ptrs) (e : κ ≃ ι) :
    Owned heap fun j => ptrs (e j) := by
  refine ⟨fun a => ?_, fun i j a hi hj => e.injective (h.unique _ _ a hi hj)⟩
  rw [h.used_iff]
  exact e.surjective.exists

/-- A write into a block leaves the others. -/
theorem Owned.write (h : Owned heap ptrs) (hk : ptrs k = some a) (b : B) :
    Owned (Function.update heap a (some b)) ptrs ∧
      ∀ j, j ≠ k → content (Function.update heap a (some b)) (ptrs j) = content heap (ptrs j) := by
  constructor
  · refine ⟨fun c => ?_, h.unique⟩
    by_cases hc : c = a
    · subst c
      rw [Function.update_self]
      exact iff_of_true nofun ⟨k, hk⟩
    · rw [Function.update_of_ne hc]
      exact h.used_iff c
  · intro j hj
    cases hp : ptrs j with
    | none => rfl
    | some c =>
      have hc : c ≠ a := by
        rintro rfl
        exact hj (h.unique j k c hp hk)
      exact Function.update_of_ne hc _ heap

variable [DecidableEq ι]

/-- An owner gives its block back. -/
theorem Owned.release (h : Owned heap ptrs) (k : ι) :
    Owned (release heap (ptrs k)) (Function.update ptrs k none) ∧
      ∀ j, j ≠ k → content (release heap (ptrs k)) (ptrs j) = content heap (ptrs j) := by
  have hother : ∀ j c, j ≠ k → ptrs j = some c → ptrs k ≠ some c := fun j c hj hp hk =>
    hj (h.unique j k c hp hk)
  constructor
  · constructor
    · intro c
      by_cases hc : ptrs k = some c
      · rw [hc, release_self]
        refine iff_of_false (fun hne => hne rfl) ?_
        rintro ⟨j, hj⟩
        by_cases hjk : j = k
        · subst j
          simp at hj
        · rw [Function.update_of_ne hjk] at hj
          exact hother j c hjk hj hc
      · rw [release_of_ne hc, h.used_iff]
        constructor
        · rintro ⟨j, hj⟩
          have hjk : j ≠ k := by
            rintro rfl
            exact hc hj
          exact ⟨j, by rwa [Function.update_of_ne hjk]⟩
        · rintro ⟨j, hj⟩
          by_cases hjk : j = k
          · subst j
            simp at hj
          · exact ⟨j, by rwa [Function.update_of_ne hjk] at hj⟩
    · intro i j c hi hj
      by_cases hik : i = k
      · subst i
        simp at hi
      · by_cases hjk : j = k
        · subst j
          simp at hj
        · rw [Function.update_of_ne hik] at hi
          rw [Function.update_of_ne hjk] at hj
          exact h.unique i j c hi hj
  · intro j hj
    cases hp : ptrs j with
    | none => rfl
    | some c => exact release_of_ne (hother j c hj hp)

/-- An owner without a block takes a fresh one. -/
theorem Owned.take (h : Owned heap ptrs) (hk : ptrs k = none) (hfresh : heap a = none) (b : B) :
    Owned (Function.update heap a (some b)) (Function.update ptrs k (some a)) ∧
      ∀ j, j ≠ k → content (Function.update heap a (some b)) (ptrs j) = content heap (ptrs j) := by
  have hne := h.ne_fresh hfresh
  constructor
  · constructor
    · intro c
      by_cases hc : c = a
      · subst c
        rw [Function.update_self]
        exact iff_of_true nofun ⟨k, by rw [Function.update_self]⟩
      · rw [Function.update_of_ne hc, h.used_iff]
        refine exists_congr fun j => ?_
        by_cases hjk : j = k
        · subst j
          rw [hk, Function.update_self]
          exact iff_of_false nofun fun he => hc (Option.some.inj he).symm
        · rw [Function.update_of_ne hjk]
    · intro i j c hi hj
      by_cases hik : i = k <;> by_cases hjk : j = k
      · rw [hik, hjk]
      · subst i
        rw [Function.update_self] at hi
        rw [Function.update_of_ne hjk] at hj
        exact absurd (hj.trans hi.symm) (hne j)
      · subst j
        rw [Function.update_of_ne hik] at hi
        rw [Function.update_self] at hj
        exact absurd (hi.trans hj.symm) (hne i)
      · rw [Function.update_of_ne hik] at hi
        rw [Function.update_of_ne hjk] at hj
        exact h.unique i j c hi hj
  · intro j hj
    cases hp : ptrs j with
    | none => rfl
    | some c =>
      have hc : c ≠ a := by
        rintro rfl
        exact hne j hp
      exact Function.update_of_ne hc _ heap

omit [DecidableEq ι] in
theorem release_fresh (h : p ≠ some a) (b : Option B) :
    Blocks.release (Function.update heap a b) p = Function.update (Blocks.release heap p) a b := by
  cases p with
  | none => rfl
  | some c =>
    have hca : c ≠ a := fun he => h (congrArg some he)
    exact (Function.update_comm hca none b heap).symm

/-- An owner gives its block up for a fresh one. -/
theorem Owned.replace (h : Owned heap ptrs) (hfresh : heap a = none) (k : ι) (b : B) :
    Owned (Function.update (Blocks.release heap (ptrs k)) a (some b))
        (Function.update ptrs k (some a)) ∧
      ∀ j, j ≠ k → content (Function.update (Blocks.release heap (ptrs k)) a (some b)) (ptrs j) =
        content heap (ptrs j) := by
  obtain ⟨hreleased, hkeep⟩ := h.release k
  have hfree : Blocks.release heap (ptrs k) a = none := by
    rw [release_of_ne (h.ne_fresh hfresh k)]
    exact hfresh
  have hnone : Function.update ptrs k none k = none := Function.update_self k none ptrs
  obtain ⟨htaken, hkeep'⟩ := hreleased.take hnone hfree b
  rw [Function.update_idem] at htaken
  refine ⟨htaken, fun j hj => ?_⟩
  have hlast := hkeep' j hj
  rw [Function.update_of_ne hj] at hlast
  exact hlast.trans (hkeep j hj)

end Blocks
