import Mathlib.Data.List.Basic

/-! Ranges of offset and length laid one after another. -/
namespace Tiling

/-- The ranges are consecutive, start at `lo` and end at `hi`. -/
def Tiles : ℕ → List (ℕ × ℕ) → ℕ → Prop
  | lo, [], hi => lo = hi
  | lo, r :: rs, hi => r.1 = lo ∧ Tiles (lo + r.2) rs hi

variable {lo hi n : ℕ} {rs : List (ℕ × ℕ)}

theorem Tiles.le (h : Tiles lo rs hi) : lo ≤ hi := by
  induction rs generalizing lo with
  | nil => exact Nat.le_of_eq h
  | cons r rs ih =>
    have := ih h.2
    omega

/-- The next range goes where the last one ends. -/
theorem Tiles.snoc (h : Tiles lo rs hi) (n : ℕ) : Tiles lo (rs ++ [(hi, n)]) (hi + n) := by
  induction rs generalizing lo with
  | nil =>
    obtain rfl : lo = hi := h
    exact ⟨rfl, rfl⟩
  | cons r rs ih => exact ⟨h.1, ih h.2⟩

theorem Tiles.bounds (h : Tiles lo rs hi) : ∀ r ∈ rs, lo ≤ r.1 ∧ r.1 + r.2 ≤ hi := by
  induction rs generalizing lo with
  | nil => simp
  | cons r rs ih =>
    obtain ⟨hr, ht⟩ := h
    have hle := ht.le
    intro x hx
    rcases List.mem_cons.mp hx with rfl | hx
    · omega
    · have := ih ht x hx
      omega

theorem Tiles.disjoint (h : Tiles lo rs hi) : rs.Pairwise fun r r' => r.1 + r.2 ≤ r'.1 := by
  induction rs generalizing lo with
  | nil => exact .nil
  | cons r rs ih =>
    obtain ⟨hr, ht⟩ := h
    refine .cons (fun x hx => ?_) (ih ht)
    have := ht.bounds x hx
    omega

/-- Every place between the two ends is in one of the ranges. -/
theorem Tiles.cover (h : Tiles lo rs hi) (hlo : lo ≤ n) (hhi : n < hi) :
    ∃ r ∈ rs, r.1 ≤ n ∧ n < r.1 + r.2 := by
  induction rs generalizing lo with
  | nil =>
    obtain rfl : lo = hi := h
    omega
  | cons r rs ih =>
    obtain ⟨hr, ht⟩ := h
    by_cases hn : n < lo + r.2
    · exact ⟨r, by simp, by omega, by omega⟩
    · obtain ⟨x, hx, hb⟩ := ih ht (by omega)
      exact ⟨x, by simp [hx], hb⟩

end Tiling
