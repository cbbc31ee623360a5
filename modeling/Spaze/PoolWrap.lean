import Mathlib.Algebra.Group.Nat.Defs
import Mathlib.Logic.Function.Iterate
import Mathlib.Order.Bounds.Defs
import Spaze.PoolWire

/-! What the sizes of `shm_pool_allocate` come to when they wrap around. -/
namespace Spaze

open Runs

variable {w : ℕ} {fuel n : ℕ} {ans : Answers} {g g' : Gfx w} {r : Option Addr}
  {width height stride size target capacity : UsizeT w}

/-! ## Where the capacity search ends -/

/-- The search ends when some doubling, as the code computes it, is not below the target. -/
theorem search_never_ends (h : ∀ i, shmPoolNewCapacity^[i] size < target) (fuel : ℕ) :
    shmPoolCapacitySearch target fuel size = .error .fuel := by
  induction fuel generalizing size with
  | zero => rfl
  | succ fuel ih =>
    have hlt : size < target := h 0
    rw [shmPoolCapacitySearch, if_pos hlt]
    exact ih fun i => h (i + 1)

/-- It ends when a doubling that is large enough is in range. -/
theorem search_ends {k : ℕ} (hk : target.toNat ≤ size.toNat * 2 ^ k)
    (hw : size.toNat * 2 ^ k < 2 ^ w) : ∃ capacity j,
      shmPoolCapacitySearch target (k + 1) size = .ok capacity ∧
        capacity.toNat = size.toNat * 2 ^ j := by
  induction k generalizing size with
  | zero =>
    have hnot : ¬ size < target := by
      rw [BitVec.lt_def]
      simpa using hk
    exact ⟨size, 0, by rw [shmPoolCapacitySearch, if_neg hnot], by simp⟩
  | succ k ih =>
    rw [shmPoolCapacitySearch]
    split
    · have hpow := mul_two_mul_pow size.toNat
      have hle := Nat.le_mul_of_pos_right (size.toNat * 2) (Nat.two_pow_pos k)
      rw [hpow] at hle
      have hnew : (shmPoolNewCapacity size).toNat = size.toNat * 2 :=
        shmPoolNewCapacity_toNat (by omega)
      rw [← hpow, ← hnew] at hk hw
      obtain ⟨capacity, j, hsearch, hj⟩ := ih hk hw
      exact ⟨capacity, j + 1, hsearch, by rw [hj, hnew, hpow]⟩
    · exact ⟨size, 0, rfl, by simp⟩

/-- The doublings of the capacity that hold `n` bytes, with their exact values. -/
def doublings (g : Gfx w) (n : ℕ) : Set ℕ :=
  {m | ∃ k ≥ 1, m = g.pool.poolCapacity.toNat * 2 ^ k ∧ n ≤ m}

/-- The capacity search for `size` bytes more ends, at the least doubling that holds `n` bytes. -/
def LeastDoubling (g : Gfx w) (size : UsizeT w) (n : ℕ) : Prop :=
  ∃ capacity, SearchedCapacity g size capacity ∧ IsLeast (doublings g n) capacity.toNat

theorem leastDoubling_iff (hn : n < 2 ^ w → n = (g.pool.poolUsed + size).toNat) :
    LeastDoubling g size n ↔ ∃ m ∈ doublings g n, m < 2 ^ w := by
  constructor
  · rintro ⟨capacity, _, hleast⟩
    exact ⟨_, hleast.1, capacity.isLt⟩
  · rintro ⟨m, ⟨k, hk, rfl, hle⟩, hlt⟩
    obtain ⟨k, rfl⟩ := Nat.exists_eq_add_of_le' hk
    have hnt := hn (Nat.lt_of_le_of_lt hle hlt)
    have hpow := mul_two_mul_pow g.pool.poolCapacity.toNat
    have hfirst : (shmPoolNewCapacity g.pool.poolCapacity).toNat =
        g.pool.poolCapacity.toNat * 2 := by
      have hdouble := Nat.le_mul_of_pos_right (g.pool.poolCapacity.toNat * 2) (Nat.two_pow_pos k)
      rw [hpow] at hdouble
      exact shmPoolNewCapacity_toNat (by omega)
    have hreach := hle
    rw [hnt, ← hpow, ← hfirst] at hreach
    obtain ⟨capacity, j, hsearch, hj⟩ := search_ends hreach (by rw [hfirst, hpow]; exact hlt)
    rw [hfirst, hpow] at hj
    have hfits := BitVec.le_def.mp (shmPoolCapacitySearch_ge hsearch)
    refine ⟨capacity, ⟨_, hsearch⟩, ⟨j + 1, by omega, hj, by omega⟩, ?_⟩
    rintro _ ⟨i, hi, rfl, hle'⟩
    obtain ⟨i, rfl⟩ := Nat.exists_eq_add_of_le' hi
    -- a doubling out of range is above every capacity
    rcases Nat.lt_or_ge (g.pool.poolCapacity.toNat * 2 ^ (i + 1)) (2 ^ w) with hin | hout
    · have hsmall := search_le hsearch (k := i) (by rw [hfirst, hpow, ← hnt]; exact hle')
        (by rw [hfirst, hpow]; exact hin)
      rwa [hfirst, hpow] at hsmall
    · exact Nat.le_trans (Nat.le_of_lt capacity.isLt) hout

theorem toNat_add_mul_of_lt (h : size.toNat + stride.toNat * height.toNat < 2 ^ w) :
    size.toNat + stride.toNat * height.toNat = (size + stride * height).toNat :=
  (toNat_add_mul (Nat.lt_of_le_of_lt (Nat.le_add_left _ _) h) h).symm

/-- The growth loop ends at the least doubling that is large enough exactly when a doubling
that is large enough is in range, whether the bytes needed are counted exactly or as the code
computes them. -/
theorem capacity_search_iff (g : Gfx w) (stride height : UsizeT w) :
    (LeastDoubling g (stride * height)
        (g.pool.poolUsed.toNat + stride.toNat * height.toNat) ↔
      ∃ m ∈ doublings g (g.pool.poolUsed.toNat + stride.toNat * height.toNat), m < 2 ^ w) ∧
    (LeastDoubling g (stride * height) (g.pool.poolUsed + stride * height).toNat ↔
      ∃ m ∈ doublings g (g.pool.poolUsed + stride * height).toNat, m < 2 ^ w) :=
  ⟨leastDoubling_iff toNat_add_mul_of_lt, leastDoubling_iff fun _ => rfl⟩

/-- From 20 MiB the doublings of the code pass `0xB000000000000000` and come to 0. -/
theorem doublings_pass (i : ℕ) :
    shmPoolNewCapacity^[i] (shmPoolNewCapacity 20971520#64) < 0xB000000000000000 := by
  rcases Nat.lt_or_ge i 42 with hi | hi
  · revert i
    decide
  · obtain ⟨i, rfl⟩ := Nat.exists_eq_add_of_le' hi
    rw [Function.iterate_add_apply]
    have hzero : shmPoolNewCapacity^[42] (shmPoolNewCapacity 20971520#64) = 0 := by decide
    rw [hzero, Function.iterate_fixed (by decide)]
    decide

theorem capacity_search_fails : ¬ ∀ (g : Gfx 64) (stride height : UsizeT 64),
    0 < g.pool.poolCapacity → g.pool.poolUsed ≤ g.pool.poolCapacity →
    shmPoolNeedsGrow g.pool (stride * height) = true →
    ∃ capacity, SearchedCapacity g (stride * height) capacity := by
  intro hf
  obtain ⟨capacity, fuel, hsearch⟩ := hf (startedPool 64 20971520).gfx 0xB000000000000000 1
    (by decide) (by decide) (by decide)
  have hnever := search_never_ends doublings_pass fuel
  cases hsearch.symm.trans hnever

/-! ## What a new block is given -/

/-- The state before a call and its answers under which it makes a new block: no free block
has the shape, a growth that is needed succeeds, and the compositor makes the buffer. -/
structure Creating (ans : Answers) (g : Gfx w) (width height stride : UsizeT w) : Prop where
  miss : ∀ b, FreeBlock g b → ¬ Shaped g width height stride b
  grows : shmPoolNeedsGrow g.pool (stride * height) = true →
    ans.ftruncate = true ∧ ans.mmap ≠ none
  buffer : ans.createBuffer ≠ none

/-- The call has taken one more block into use. -/
def MakesBlock (g g' : Gfx w) : Prop := ∃ b ∈ g'.live, b ∉ g.live

theorem MadeRoom.err_iff {err : ShmPoolErrorE} (h : MadeRoom ans g size g' err) : err = .ok ↔
    (shmPoolNeedsGrow g.pool size = true → ans.ftruncate = true ∧ ans.mmap ≠ none) := by
  cases h with
  | enough hfit => simp [hfit]
  | truncateFailed hgrow ht => simp [hgrow, ht]
  | mmapFailed hgrow _ hm => simp [hgrow, hm]
  | grown hgrow _ ht hm => simp [ht, hm]

/-- A new block is made under exactly these conditions, and takes `stride * height` bytes. -/
theorem Allocated.makesBlock (hfresh : ans.malloc ∉ g.live)
    (h : Allocated ans g width height stride g' r) :
    (¬ MakesBlock g g' ∧ ¬ Creating ans g width height stride) ∨
      (MakesBlock g g' ∧ Creating ans g width height stride ∧
        g'.pool.poolUsed = g.pool.poolUsed + stride * height ∧
        g.pool.poolUsed + stride * height ≤ g'.pool.poolCapacity) := by
  cases h with
  | reused hfound =>
    refine Or.inl ⟨fun ⟨b, hb, hn⟩ => hn hb, fun hc => ?_⟩
    cases (shmPoolReuse_none_iff hfound).mpr hc.miss
  | refused _ hroom herr =>
    refine Or.inl ⟨?_, fun hc => herr (hroom.err_iff.mpr hc.grows)⟩
    rintro ⟨b, hb, hn⟩
    rw [hroom.sameBlocks.live] at hb
    exact hn hb
  | created hmiss hroom =>
    have hsame := hroom.sameBlocks
    unfold shmPoolCreateBuffer
    cases hb : ans.createBuffer with
    | none =>
      refine Or.inl ⟨?_, fun hc => hc.buffer hb⟩
      rintro ⟨b, hlive, hn⟩
      exact hn (hsame.live ▸ hlive)
    | some buffer =>
      refine Or.inr ⟨⟨ans.malloc, Finset.mem_insert_self _ _, hfresh⟩, ⟨?_, ?_, by simp [hb]⟩,
        ?_, hroom.fits⟩
      · exact (shmPoolReuse_none_iff hmiss).mp rfl
      · exact hroom.err_iff.mp rfl
      · simp only [hsame.poolUsed]

/-- A call that returns gives a new block the bytes it needs, inside the pool and counted
exactly, unless it makes one although their exact sum is out of range. -/
theorem created_fits_iff (hfresh : ans.malloc ∉ g.live)
    (hcall : shmPoolAllocate fuel ans g width height stride = .ok (g', r)) :
    (MakesBlock g g' →
      g.pool.poolUsed.toNat + stride.toNat * height.toNat ≤ g'.pool.poolCapacity.toNat ∧
        g'.pool.poolUsed.toNat = g.pool.poolUsed.toNat + stride.toNat * height.toNat) ↔
      (Creating ans g width height stride →
        g.pool.poolUsed.toNat + stride.toNat * height.toNat < 2 ^ w) := by
  rcases (shmPoolAllocate_cases hcall).makesBlock hfresh with
    ⟨hmakes, hcreating⟩ | ⟨hmakes, hcreating, hused, hfits⟩
  · exact ⟨fun _ hc => absurd hc hcreating, fun _ hm => absurd hm hmakes⟩
  · constructor
    · intro hexact _
      have hlt := g'.pool.poolUsed.isLt
      rwa [(hexact hmakes).2] at hlt
    · intro hlt _
      rw [hused, toNat_add_mul_of_lt (hlt hcreating)]
      exact ⟨BitVec.le_def.mp hfits, rfl⟩

/-- The first block of a fresh pool of 64 bytes takes 96. -/
theorem created_fits_first : ∃ g' r,
    shmPoolAllocate 1 (answersAt 0) (startedPool 64 64).gfx 8 3 32 = .ok (g', r) ∧
      MakesBlock (startedPool 64 64).gfx g' ∧ g'.pool.poolUsed.toNat = 96 := by
  have hcall : shmPoolAllocate 1 (answersAt 0) (startedPool 64 64).gfx 8 3 32 = .ok (_, _) := rfl
  have hfits := (created_fits_iff (by decide) hcall).mpr fun _ => by decide
  exact ⟨_, _, hcall, ⟨0, by decide, by decide⟩, (hfits ⟨0, by decide, by decide⟩).2⟩

/-- The product of 2^32 and 2^32 wraps to 0, for which there always is room. -/
theorem created_fits_fails : ¬ ∀ tr (s : PoolState 64) fuel ans (width height stride : UsizeT 64)
    g r, (poolSystem 64).Trace tr s → s.gfx.pool.poolUsed ≤ s.gfx.pool.poolCapacity →
    ans.malloc ∉ s.gfx.live →
    shmPoolAllocate fuel ans s.gfx width height stride = .ok (g, r) → MakesBlock s.gfx g →
    s.gfx.pool.poolUsed.toNat + stride.toNat * height.toNat ≤ g.pool.poolCapacity.toNat ∧
      g.pool.poolUsed.toNat = s.gfx.pool.poolUsed.toNat + stride.toNat * height.toNat := by
  intro hf
  have hfits := hf [] (startedPool 64 4096) 1 (answersAt 0) 1 0x100000000 0x100000000 _ _
    ⟨_, ⟨_, startedPool_initial (by decide)⟩, .nil _⟩ (by decide) (by decide) rfl
    ⟨0, by decide, by decide⟩
  exact absurd hfits.1 (by decide)

end Spaze
