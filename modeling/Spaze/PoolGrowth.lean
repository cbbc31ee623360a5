import Spaze.Lib.Amortized
import Spaze.PoolViews

/-! How often a pool grows over a whole run, and how large it gets. -/
namespace Spaze

open Amortized Runs

variable {w : ℕ} {fuel a k m : ℕ} {ans : Answers} {g g' : Gfx w} {s t : PoolState w}
  {call : PoolCall w} {r : Option Addr} {err : ShmPoolErrorE}
  {width height stride size target capacity : UsizeT w} {tr : List (PoolState w × PoolCall w)}

/-! ## Doublings that wrap -/

/-- `shm_pool_new_capacity`, in arithmetic that wraps. -/
theorem shmPoolNewCapacity_mod (size : UsizeT w) :
    (shmPoolNewCapacity size).toNat = size.toNat * 2 % 2 ^ w := by
  rw [shmPoolNewCapacity, BitVec.toNat_mul, BitVec.ofNat_eq_ofNat, BitVec.toNat_ofNat,
    Nat.mul_mod_mod]

theorem search_mod (h : shmPoolCapacitySearch target fuel size = .ok capacity) :
    ∃ k, capacity.toNat = size.toNat * 2 ^ k % 2 ^ w := by
  induction fuel generalizing size with
  | zero => cases h
  | succ fuel ih =>
    rw [shmPoolCapacitySearch] at h
    split at h
    · obtain ⟨k, hk⟩ := ih h
      refine ⟨k + 1, ?_⟩
      rw [hk, shmPoolNewCapacity_mod, Nat.mod_mul_mod, Nat.pow_succ, Nat.mul_assoc,
        Nat.mul_comm 2]
    · cases h
      exact ⟨0, by rw [Nat.pow_zero, Nat.mul_one, Nat.mod_eq_of_lt capacity.isLt]⟩

/-- The search does not go past twice what it looks for. -/
theorem search_lt (h : shmPoolCapacitySearch target fuel size = .ok capacity)
    (hsize : size.toNat ≤ 2 * target.toNat) : capacity.toNat ≤ 2 * target.toNat := by
  induction fuel generalizing size with
  | zero => cases h
  | succ fuel ih =>
    rw [shmPoolCapacitySearch] at h
    split at h
    · rename_i hlt
      apply ih h
      have hle := Nat.mod_le (size.toNat * 2) (2 ^ w)
      rw [BitVec.lt_def] at hlt
      rw [shmPoolNewCapacity_mod]
      omega
    · cases h
      exact hsize

/-- A growth takes over at least one more factor of two, even if the doublings wrap. -/
theorem SearchedCapacity.dvd (h : SearchedCapacity g size capacity)
    (hgrow : shmPoolNeedsGrow g.pool size = true) (hdvd : 2 ^ m ∣ g.pool.poolCapacity.toNat) :
    2 ^ (m + 1) ∣ capacity.toNat := by
  have hgt := BitVec.lt_def.mp (h.gt hgrow)
  obtain ⟨fuel, h⟩ := h
  obtain ⟨k, hk⟩ := search_mod h
  rw [shmPoolNewCapacity_mod, Nat.mod_mul_mod, Nat.mul_assoc, ← Nat.pow_succ'] at hk
  have hfactor : 2 ^ (m + 1) ∣ g.pool.poolCapacity.toNat * 2 ^ (k + 1) := by
    rw [Nat.pow_succ, Nat.pow_succ]
    exact Nat.mul_dvd_mul hdvd (Nat.dvd_mul_left 2 (2 ^ k))
  rcases Nat.lt_or_ge w (m + 1) with hout | hin
  · -- the doublings have wrapped to 0, which is larger than no capacity
    have hzero : 2 ^ w ∣ g.pool.poolCapacity.toNat * 2 ^ (k + 1) :=
      (Nat.pow_dvd_pow 2 (by omega)).trans hfactor
    rw [Nat.mod_eq_zero_of_dvd hzero] at hk
    omega
  · rw [hk, Nat.dvd_mod_iff (Nat.pow_dvd_pow 2 hin)]
    exact hfactor

theorem SearchedCapacity.le (h : SearchedCapacity g size capacity)
    (hgrow : shmPoolNeedsGrow g.pool size = true) :
    capacity.toNat ≤ 2 * (g.pool.poolUsed + size).toNat := by
  obtain ⟨fuel, h⟩ := h
  simp only [shmPoolNeedsGrow, gt_iff_lt, decide_eq_true_eq, BitVec.lt_def] at hgrow
  apply search_lt h
  have hle := Nat.mod_le (g.pool.poolCapacity.toNat * 2) (2 ^ w)
  rw [shmPoolNewCapacity_mod]
  omega

/-! ## The growths of a run -/

/-- What a call does to the sizes: nothing, or one growth, of which the compositor is told. -/
def Resized (g : Gfx w) (size : UsizeT w) (g' : Gfx w) : Prop :=
  g'.pool.poolCapacity = g.pool.poolCapacity ∧
      poolSizes g'.os.requests = poolSizes g.os.requests ∨
    shmPoolNeedsGrow g.pool size = true ∧ SearchedCapacity g size g'.pool.poolCapacity ∧
      poolSizes g'.os.requests = poolSizes g.os.requests ++ [g'.pool.poolCapacity]

theorem MadeRoom.resized (h : MadeRoom ans g size g' err) : Resized g size g' := by
  cases h with
  | enough | truncateFailed | mmapFailed => exact Or.inl ⟨rfl, rfl⟩
  | grown hgrow hcap ht hm =>
    refine Or.inr ⟨hgrow, hcap, ?_⟩
    simp only [Os.send, shmPoolGrow_requests, poolSizes_snoc, Request.poolSize,
      Option.toList_some]

theorem Allocated.resized (h : Allocated ans g width height stride g' r) :
    Resized g (stride * height) g' := by
  cases h with
  | reused => exact Or.inl ⟨rfl, rfl⟩
  | refused _ hroom => exact hroom.resized
  | @created _ g₁ _ hroom =>
    have hsame := shmPoolCreateBuffer_sizes ans g₁ g.pool.poolUsed (stride * height) width height
      stride
    rcases hroom.resized with ⟨hcapacity, hsizes⟩ | ⟨hgrow, hcap, hsizes⟩
    · exact Or.inl ⟨hsame.poolCapacity.trans hcapacity, hsame.asked.trans hsizes⟩
    · refine Or.inr ⟨hgrow, ?_, ?_⟩
      · rw [hsame.poolCapacity]
        exact hcap
      · rw [hsame.asked, hsame.poolCapacity]
        exact hsizes

/-- The bytes that a call needs the pool to have, as the code computes them. -/
def demand (s : PoolState w) : PoolCall w → ℕ
  | .allocate _ _ height stride _ => (s.gfx.pool.poolUsed + stride * height).toNat
  | .deallocate _ => 0

theorem demand_step (hs : (poolSystem w).step s call t) :
    t.gfx.pool.poolCapacity.toNat ≤ s.gfx.pool.poolCapacity.toNat ∨
      t.gfx.pool.poolCapacity.toNat ≤ 2 * demand s call := by
  cases hs with
  | deallocate => exact Or.inl (Nat.le_refl _)
  | allocate hfresh hcall =>
    rcases (shmPoolAllocate_cases hcall).resized with ⟨hcapacity, _⟩ | ⟨hgrow, hcap, _⟩
    · exact Or.inl (Nat.le_of_eq (congrArg BitVec.toNat hcapacity))
    · exact Or.inr (hcap.le hgrow)

/-- Each size asked for takes over one more factor of two. -/
structure Factored (a : ℕ) (g : Gfx w) : Prop where
  pos : 0 < g.pool.poolCapacity.toNat
  asked : ∃ n, (poolSizes g.os.requests).length = n + 1 ∧
    2 ^ (a + n) ∣ g.pool.poolCapacity.toNat

theorem factored_step (h : Factored a s.gfx) (hs : (poolSystem w).step s call t) :
    Factored a t.gfx := by
  cases hs with
  | deallocate => exact ⟨h.pos, h.asked⟩
  | allocate hfresh hcall =>
    obtain ⟨hpos, n, hlength, hdvd⟩ := h
    rcases (shmPoolAllocate_cases hcall).resized with ⟨hcapacity, hsizes⟩ |
      ⟨hgrow, hcap, hsizes⟩
    · exact ⟨by rw [hcapacity]; exact hpos, n, by rw [hsizes]; exact hlength,
        by rw [hcapacity]; exact hdvd⟩
    · have hgt := BitVec.lt_def.mp (hcap.gt hgrow)
      refine ⟨Nat.zero_lt_of_lt hgt, n + 1, ?_, hcap.dvd hgrow hdvd⟩
      rw [hsizes, List.length_append, hlength, List.length_singleton]

theorem factored_initial {capacity : UsizeT w} (h : PoolInitial capacity s)
    (ha : 2 ^ a ∣ capacity.toNat) : Factored a s.gfx := by
  have hstart := h.started
  obtain ⟨ptr, _, hos⟩ := hstart.os
  refine ⟨?_, 0, ?_, ?_⟩
  · rw [hstart.capacity]
    exact BitVec.lt_def.mp hstart.pos
  · rw [hos]
    rfl
  · rw [hstart.capacity]
    exact ha

theorem Factored.few (h : Factored a g) : (poolSizes g.os.requests).length + a ≤ w := by
  obtain ⟨hpos, n, hlength, hdvd⟩ := h
  have hle := Nat.le_of_dvd hpos hdvd
  have hlt : 2 ^ (a + n) < 2 ^ w := Nat.lt_of_le_of_lt hle g.pool.poolCapacity.isLt
  have hexp := (Nat.pow_lt_pow_iff_right (by decide)).mp hlt
  omega

/-- Over a whole run the compositor is told fewer sizes of the pool than `usize_t` has bits, the
trailing zeros of the first size not counted. The pool is never larger than twice what one call
has needed, or than it was at the start. -/
theorem pool_grows_seldom {capacity : UsizeT w} (hs : PoolInitial capacity s)
    (h : (poolSystem w).Run s tr t) (ha : 2 ^ a ∣ capacity.toNat) :
    (poolSizes t.gfx.os.requests).length + a ≤ w ∧
    t.gfx.pool.poolCapacity.toNat ≤ max capacity.toNat (2 * highest demand tr) := by
  have hfactored := h.invariant (I := fun s => Factored a s.gfx) (fun _ _ _ => factored_step)
    (factored_initial hs ha)
  have hmono : Monotone fun n => 2 * n := by
    intro m n hmn
    dsimp only
    omega
  have hroom := le_highest (f := fun s : PoolState w => s.gfx.pool.poolCapacity.toNat) hmono h
    fun _ _ _ => demand_step
  rw [hs.started.capacity] at hroom
  exact ⟨hfactored.few, hroom⟩

/-- A pool of one page grows twice. -/
theorem pool_grows_seldom_page : ∃ tr t, (poolSystem 64).Run (startedPool 64 4096) tr t ∧
    (poolSizes t.gfx.os.requests).length = 3 ∧ 3 + 12 ≤ 64 ∧
    t.gfx.pool.poolCapacity.toNat ≤ max (4096#64).toNat (2 * highest demand tr) := by
  obtain ⟨tr, t, hr, hp⟩ := executed_run 4096
    [.allocate (answersAt 0) 64 64 256, .allocate (answersAt 1) 64 64 256]
    (fun _ t => decide ((poolSizes t.gfx.os.requests).length = 3)) (by decide)
  rw [decide_eq_true_eq] at hp
  obtain ⟨hfew, hroom⟩ := pool_grows_seldom (startedPool_initial (by decide)) hr
    (a := 12) (by decide)
  rw [hp] at hfew
  exact ⟨tr, t, hr, hp, hfew, hroom⟩

end Spaze
