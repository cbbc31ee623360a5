import Mathlib.Data.Finset.Basic

/-! Who has the elements in use: a store, or a holder who takes them out and puts them back. -/
namespace Ownership

variable {α : Type*} {stored stored' : Set α} {held held' live : Finset α} {a : α}

/-- No element is both stored and held, and all of both are in use. -/
structure Split (stored : Set α) (held live : Finset α) : Prop where
  apart : ∀ b ∈ stored, b ∉ held
  storedLive : ∀ b ∈ stored, b ∈ live
  heldLive : ∀ b ∈ held, b ∈ live

theorem Split.mono (h : Split stored held live) (hs : ∀ b ∈ stored', b ∈ stored) :
    Split stored' held live :=
  ⟨fun b hb => h.apart b (hs b hb), fun b hb => h.storedLive b (hs b hb), h.heldLive⟩

/-- An element leaves the store, and may be held from then on. -/
theorem Split.take (h : Split stored held live) (ha : a ∈ stored)
    (hs : ∀ b ∈ stored', b ∈ stored ∧ b ≠ a) (hh : ∀ b ∈ held', b = a ∨ b ∈ held) :
    Split stored' held' live := by
  refine ⟨fun b hb hb' => ?_, fun b hb => h.storedLive b (hs b hb).1, fun b hb => ?_⟩
  · exact (hh b hb').elim (hs b hb).2 (h.apart b (hs b hb).1)
  · rcases hh b hb with rfl | hb
    · exact h.storedLive _ ha
    · exact h.heldLive b hb

variable [DecidableEq α]

/-- The holder puts an element into the store. -/
theorem Split.store (h : Split stored held live) (ha : a ∈ held)
    (hs : ∀ b ∈ stored', b ∈ stored ∨ b = a) : Split stored' (held.erase a) live := by
  refine ⟨fun b hb hb' => ?_, fun b hb => ?_, fun b hb => h.heldLive b (Finset.mem_of_mem_erase hb)⟩
  · obtain ⟨hne, hb'⟩ := Finset.mem_erase.mp hb'
    exact (hs b hb).elim (fun hb => h.apart b hb hb') hne
  · rcases hs b hb with hb | rfl
    · exact h.storedLive b hb
    · exact h.heldLive _ ha

/-- An element that was not in use comes to be held. -/
theorem Split.create (h : Split stored held live) (ha : a ∉ live) :
    Split stored (insert a held) (insert a live) := by
  refine ⟨fun b hb => ?_, fun b hb => Finset.mem_insert_of_mem (h.storedLive b hb), ?_⟩
  · rw [Finset.mem_insert, not_or]
    exact ⟨ne_of_mem_of_not_mem (h.storedLive b hb) ha, h.apart b hb⟩
  · exact Finset.insert_subset_insert a h.heldLive

end Ownership
