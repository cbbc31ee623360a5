import Mathlib.Algebra.Group.Nat.Defs
import Spaze.Lib.Tiling
import Spaze.PoolRuns

/-! The sizes of a pool: where its buffers lie, and how the file, the mapping, the structure
and the compositor agree on its capacity. -/
namespace Spaze

open Runs Tiling

variable {w : ℕ} {ans : Answers} {g g' : Gfx w} {s t : PoolState w} {a : PoolCall w}
  {r : Option Addr} {width height stride size : UsizeT w} {err : ShmPoolErrorE}

/-! ## What making room does to the sizes -/

/-- The capacity only grows, and when room was made the request fits under it. -/
theorem MadeRoom.capacity_le (h : MadeRoom ans g size g' err) :
    g.pool.poolCapacity ≤ g'.pool.poolCapacity := by
  cases h with
  | enough | truncateFailed | mmapFailed => exact BitVec.le_refl _
  | grown hgrow hcap ht hm => exact BitVec.le_of_lt (hcap.gt hgrow)

theorem MadeRoom.fits (h : MadeRoom ans g size g' .ok) :
    g.pool.poolUsed + size ≤ g'.pool.poolCapacity := by
  cases h with
  | enough hfit => simpa [shmPoolNeedsGrow] using hfit
  | grown hgrow hcap ht hm => exact hcap.fits

theorem shmPoolGrow_requests (os : Os w) (fd : Fd) (old size : UsizeT w) (data : Option Addr)
    (ptr : Addr) : (shmPoolGrow true (some ptr) os fd old data size).1.requests = os.requests := by
  simp only [shmPoolGrow, if_true]
  split <;> rfl

/-- The only request of a growth is for the new capacity. -/
theorem MadeRoom.requests (h : MadeRoom ans g size g' err) :
    g'.os.requests = g.os.requests ∨
      g'.os.requests = g.os.requests ++ [.wlShmPoolResize g.pool.pool g'.pool.poolCapacity] ∧
        g.pool.poolCapacity < g'.pool.poolCapacity := by
  cases h with
  | enough | truncateFailed | mmapFailed => exact Or.inl rfl
  | grown hgrow hcap ht hm =>
    refine Or.inr ⟨?_, hcap.gt hgrow⟩
    simp only [Os.send, shmPoolGrow_requests]

/-! ## The buffers tile the used part -/

/-- Where the buffer of a successful request lies: its offset and its exact length. -/
def Request.bufferRange : Request w → Option (ℕ × ℕ)
  | .wlShmPoolCreateBuffer _ offset _ height stride (some _) =>
    some (offset.toNat, stride.toNat * height.toNat)
  | _ => none

/-- The ranges of the buffers made so far, in the order they were made. -/
def bufferRanges (requests : List (Request w)) : List (ℕ × ℕ) :=
  requests.filterMap Request.bufferRange

theorem bufferRanges_snoc (rs : List (Request w)) (q : Request w) :
    bufferRanges (rs ++ [q]) = bufferRanges rs ++ q.bufferRange.toList := by
  cases hq : q.bufferRange <;> simp [bufferRanges, List.filterMap_append, hq]

/-- Neither the exact size of a request nor its exact end exceeds the `usize_t` range. -/
def NoOverflow (s : PoolState w) : PoolCall w → Prop
  | .allocate _ _ height stride _ => stride.toNat * height.toNat < 2 ^ w ∧
    s.gfx.pool.poolUsed.toNat + stride.toNat * height.toNat < 2 ^ w
  | .deallocate _ => True

/-- The buffers tile the used part of the pool, which is inside its capacity. -/
structure Tiled (g : Gfx w) : Prop where
  tiles : Tiles 0 (bufferRanges g.os.requests) g.pool.poolUsed.toNat
  used : g.pool.poolUsed ≤ g.pool.poolCapacity

theorem MadeRoom.bufferRanges (h : MadeRoom ans g size g' err) :
    bufferRanges g'.os.requests = bufferRanges g.os.requests := by
  rcases h.requests with hr | ⟨hr, _⟩ <;> simp [hr, bufferRanges_snoc, Request.bufferRange]

theorem Tiled.madeRoom (hg : Tiled g) (h : MadeRoom ans g size g' err) : Tiled g' := by
  constructor
  · rw [h.bufferRanges, h.sameBlocks.poolUsed]
    exact hg.tiles
  · rw [h.sameBlocks.poolUsed]
    exact BitVec.le_trans hg.used h.capacity_le

theorem toNat_add_mul (hm : stride.toNat * height.toNat < 2 ^ w)
    (ha : size.toNat + stride.toNat * height.toNat < 2 ^ w) :
    (size + stride * height).toNat = size.toNat + stride.toNat * height.toNat := by
  rw [BitVec.toNat_add, BitVec.toNat_mul, Nat.mod_eq_of_lt hm, Nat.mod_eq_of_lt ha]

theorem Tiled.allocated (hg : Tiled g) (h : Allocated ans g width height stride g' r)
    (hm : stride.toNat * height.toNat < 2 ^ w)
    (ha : g.pool.poolUsed.toNat + stride.toNat * height.toNat < 2 ^ w) : Tiled g' := by
  cases h with
  | reused => exact ⟨hg.tiles, hg.used⟩
  | refused _ hroom => exact hg.madeRoom hroom
  | @created _ g₁ _ hroom =>
    have hg₁ := hg.madeRoom hroom
    have hused := hroom.sameBlocks.poolUsed
    unfold shmPoolCreateBuffer
    cases hb : ans.createBuffer with
    | none =>
      refine ⟨?_, hg₁.used⟩
      simpa [Os.send, bufferRanges_snoc, Request.bufferRange] using hg₁.tiles
    | some buffer =>
      constructor
      · have htiles := hg₁.tiles.snoc (stride.toNat * height.toNat)
        simp only [hused, toNat_add_mul hm ha]
        simpa [Os.send, bufferRanges_snoc, Request.bufferRange, hused] using htiles
      · simpa only [hused] using hroom.fits

theorem tiled_step (hg : Tiled s.gfx) (hno : NoOverflow s a) (hs : (poolSystem w).step s a t) :
    Tiled t.gfx := by
  cases hs with
  | deallocate => exact ⟨hg.tiles, hg.used⟩
  | allocate _ hcall => exact hg.allocated (shmPoolAllocate_cases hcall) hno.1 hno.2

theorem tiled_initial (h : (poolSystem w).initial s) : Tiled s.gfx := by
  obtain ⟨size, h⟩ := h
  have hs := h.started
  obtain ⟨ptr, _, hos⟩ := hs.os
  constructor
  · rw [hos, hs.used]
    exact rfl
  · rw [hs.used, hs.capacity]
    exact BitVec.le_of_lt hs.pos

/-- In every state of every run without overflow, the buffers made so far tile the used part
of the pool in the order they were made; so no two overlap, and all lie inside the pool. -/
theorem buffers_tile {tr : List (PoolState w × PoolCall w)} (h : (poolSystem w).Trace tr t)
    (hno : ∀ x ∈ tr, NoOverflow x.1 x.2) :
    Tiles 0 (bufferRanges t.gfx.os.requests) t.gfx.pool.poolUsed.toNat ∧
      (∀ n < t.gfx.pool.poolUsed.toNat,
        ∃ r ∈ bufferRanges t.gfx.os.requests, r.1 ≤ n ∧ n < r.1 + r.2) ∧
      (bufferRanges t.gfx.os.requests).Pairwise (fun r r' => r.1 + r.2 ≤ r'.1) ∧
      ∀ r ∈ bufferRanges t.gfx.os.requests, r.1 + r.2 ≤ t.gfx.pool.poolCapacity.toNat := by
  obtain ⟨s, hi, hr⟩ := h
  have hg : Tiled t.gfx := hr.invariant_of hno (I := fun s => Tiled s.gfx)
    (fun _ _ _ => tiled_step) (tiled_initial hi)
  refine ⟨hg.tiles, fun n hn => hg.tiles.cover (Nat.zero_le n) hn, hg.tiles.disjoint, ?_⟩
  intro r hr
  exact Nat.le_trans (hg.tiles.bounds r hr).2 hg.used

instance (s : PoolState w) (a : PoolCall w) : Decidable (NoOverflow s a) :=
  match a with
  | .allocate _ _ height stride _ => inferInstanceAs (Decidable
      (stride.toNat * height.toNat < 2 ^ w ∧
        s.gfx.pool.poolUsed.toNat + stride.toNat * height.toNat < 2 ^ w))
  | .deallocate _ => isTrue trivial

/-- A pool of 64 bytes grows for its second buffer, and the first one is reused. -/
theorem buffers_tile_grown : ∃ tr t, (poolSystem 64).Trace tr t ∧
    bufferRanges (t.gfx.os.requests) = [(0, 64), (64, 96)] ∧
    Tiles 0 (bufferRanges t.gfx.os.requests) t.gfx.pool.poolUsed.toNat := by
  obtain ⟨tr, t, htr, hp⟩ := executed_trace 64
    [.allocate (answersAt 0) 4 4 16, .allocate (answersAt 1) 8 3 32, .deallocate 0,
      .allocate (answersAt 2) 4 4 16]
    (fun tr t => (tr.all fun x => decide (NoOverflow x.1 x.2)) &&
      decide (bufferRanges t.gfx.os.requests = [(0, 64), (64, 96)])) (by decide) (by decide)
  simp only [Bool.and_eq_true, List.all_eq_true, decide_eq_true_eq] at hp
  exact ⟨tr, t, htr, hp.2, (buffers_tile htr hp.1).1⟩

end Spaze
