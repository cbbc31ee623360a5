import Spaze.ListRep

/-! Inserting a node behind another and removing one again, at any place of a list. -/
namespace Spaze

open Linked

variable {α : Type*} {m m' : Links α} {l l' : ListS α} {xs ys : List α} {x y z : α}

/-- The words of the nodes, the head and the tail are those the sequence asks for. -/
theorem ListRep.links_eq (h : ListRep m l xs) (h' : ListRep m' l' xs) (hz : z ∈ xs) :
    m' z = m z := by
  obtain ⟨xs, ys, rfl⟩ := List.append_of_mem hz
  apply links_ext
  · exact h'.next_mid.trans h.next_mid.symm
  · exact h'.prev_mid.trans h.prev_mid.symm

theorem ListRep.list_eq (h : ListRep m l xs) (h' : ListRep m' l' xs) : l' = l := by
  obtain ⟨head, tail⟩ := l
  obtain ⟨head', tail'⟩ := l'
  have hhead : head' = head := h'.head.trans h.head.symm
  have htail : tail' = tail := h'.tail.trans h.tail.symm
  rw [hhead, htail]

variable [DecidableEq α]

/-- An insertion writes the new node and nodes of the list, nothing else. -/
theorem ListRep.insertAfter_frame (h : ListRep m l (xs ++ x :: ys)) (hy : y ∉ xs ++ x :: ys)
    (hz : z ∉ xs ++ x :: ys) (hzy : z ≠ y) : (listInsertAfter m l x y).1 z = m z := by
  have hxy : x ≠ y := by
    rintro rfl
    simp at hy
  have hzx : z ≠ x := by
    rintro rfl
    simp at hz
  have hnext : nexts m x ≠ some z := by
    intro hh
    rw [nexts, h.next_mid] at hh
    exact hz (by simp [List.mem_of_mem_head? hh])
  apply links_ext
  · rw [listInsertAfter_nexts hxy, insertNext, if_neg hzx, if_neg hzy]
  · rw [listInsertAfter_prevs hxy, insertPrev, if_neg hnext, if_neg hzy]

/-- Removing the node just inserted leaves the list as it was, and so every word but those of
the node itself. -/
theorem ListRep.insert_remove (h : ListRep m l (xs ++ x :: ys)) (hy : y ∉ xs ++ x :: ys)
    {m₁ m₂ : Links α} {l₁ l₂ : ListS α} (hi : listInsertAfter m l x y = (m₁, l₁))
    (hr : listRemove m₁ l₁ y = (m₂, l₂)) : l₂ = l ∧ ∀ z, z ≠ y → m₂ z = m z := by
  have hinsert : ListRep m₁ l₁ ((xs ++ [x]) ++ y :: ys) := by
    simpa [hi] using h.insertAfter hy
  have hremove : ListRep m₂ l₂ (xs ++ x :: ys) := by
    simpa [hr] using hinsert.remove
  refine ⟨h.list_eq hremove, fun z hzy => ?_⟩
  by_cases hz : z ∈ xs ++ x :: ys
  · exact h.links_eq hremove hz
  · have hz' : z ∉ (xs ++ [x]) ++ ys := by simpa using hz
    have hkeep := hinsert.remove_frame hz'
    have hkeep' := h.insertAfter_frame hy hz hzy
    rw [hr] at hkeep
    rw [hi] at hkeep'
    exact hkeep.trans hkeep'

/-- `list_insert_after` puts the new node right after another, `list_remove` takes one node
out, neither writes a node that is outside, and a removal undoes an insertion. -/
theorem spliced_in_place (h : ListRep m l (xs ++ x :: ys)) (hy : y ∉ xs ++ x :: ys) :
    (ListRep (listInsertAfter m l x y).1 (listInsertAfter m l x y).2 (xs ++ x :: y :: ys) ∧
        ∀ z ∉ xs ++ x :: ys, z ≠ y → (listInsertAfter m l x y).1 z = m z) ∧
      (ListRep (listRemove m l x).1 (listRemove m l x).2 (xs ++ ys) ∧
        (xs = [] → ys = [] → (listRemove m l x).2 = ListS.zero) ∧
        ∀ z ∉ xs ++ x :: ys, (listRemove m l x).1 z = m z) ∧
      ∀ m₁ l₁ m₂ l₂, listInsertAfter m l x y = (m₁, l₁) → listRemove m₁ l₁ y = (m₂, l₂) →
        l₂ = l ∧ ∀ z, z ≠ y → m₂ z = m z := by
  refine ⟨⟨h.insertAfter hy, fun z hz hzy => h.insertAfter_frame hy hz hzy⟩,
    ⟨h.remove, ?_, ?_⟩, fun m₁ l₁ m₂ l₂ hi hr => h.insert_remove hy hi hr⟩
  · rintro rfl rfl
    exact (listRep_zero m).list_eq h.remove
  · intro z hz
    refine h.remove_frame fun hm => hz ?_
    exact ((List.sublist_cons_self x ys).append_left xs).subset hm

/-- The nodes 0 and 1 are a list, and node 2 has words that name both. -/
def twoAndStray : Links ℕ
  | 0 => ⟨some 1, none⟩
  | 1 => ⟨none, some 0⟩
  | _ => ⟨some 0, some 1⟩

theorem listRep_twoAndStray : ListRep twoAndStray ⟨some 0, some 1⟩ ([0] ++ 1 :: []) :=
  ⟨⟨rfl, rfl, rfl, rfl, trivial⟩, rfl, rfl⟩

/-- Node 2 goes behind the tail; taking out the tail leaves the head alone. -/
theorem spliced_in_place_tail :
    ListRep (listInsertAfter twoAndStray ⟨some 0, some 1⟩ 1 2).1 ⟨some 0, some 2⟩ [0, 1, 2] ∧
      ListRep (listRemove twoAndStray ⟨some 0, some 1⟩ 1).1 ⟨some 0, some 0⟩ [0] := by
  obtain ⟨⟨hinsert, _⟩, ⟨hremove, _⟩, _⟩ :=
    spliced_in_place listRep_twoAndStray (by decide : 2 ∉ [0] ++ 1 :: [])
  exact ⟨hinsert, hremove⟩

end Spaze
