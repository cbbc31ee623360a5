import Spaze.Allocate

/-! The reuse search of `shm_pool_allocate`: which block it finds, and what it leaves. -/
namespace Spaze

variable {w : ℕ} {fuel : ℕ} {ans : Answers} {g g' : Gfx w} {r : Option Addr}
  {width height stride : UsizeT w} {free xs ys : List Addr} {b : Addr}

theorem lastOfShape_eq_none_iff : lastOfShape g free width height stride = none ↔
    ∀ b ∈ free, ¬ Shaped g width height stride b := by
  simp [lastOfShape, Shaped]

/-- The last block of the shape, wherever it is. -/
theorem lastOfShape_append (hb : Shaped g width height stride b)
    (hys : ∀ y ∈ ys, ¬ Shaped g width height stride y) :
    lastOfShape g (xs ++ b :: ys) width height stride = some b := by
  refine List.find?_eq_some_iff_append.mpr ⟨hb, ys.reverse, xs.reverse, by simp, ?_⟩
  intro y hy
  simpa [Shaped] using hys y (List.mem_reverse.mp hy)

theorem shmPoolAllocate_found (halive : g.pool.alive = true)
    (hfound : shmPoolReuse fuel g width height stride = .ok (g', some b)) :
    shmPoolAllocate fuel ans g width height stride = .ok (g', some b) := by
  simp [shmPoolAllocate, halive, hfound, Bind.bind, Except.bind, Pure.pure, Except.pure]

/-- With fuel for the whole list the call returns the last block of the shape, unlinked. -/
theorem ListRep.allocate_found (h : ListRep g.links g.pool.freeBlocks (xs ++ b :: ys))
    (halive : g.pool.alive = true) (hb : Shaped g width height stride b)
    (hys : ∀ y ∈ ys, ¬ Shaped g width height stride y)
    (hfuel : (xs ++ b :: ys).length < fuel) :
    shmPoolAllocate fuel ans g width height stride = .ok (g.removeFree b, some b) := by
  refine shmPoolAllocate_found halive ?_
  rw [shmPoolReuse_rep width height stride h hfuel, lastOfShape_append hb hys]

/-- A call that returns has searched the whole list, or found the last block of the shape. -/
theorem ListRep.allocate_cases (h : ListRep g.links g.pool.freeBlocks free)
    (hcall : shmPoolAllocate fuel ans g width height stride = .ok (g', r)) :
    (∃ b, lastOfShape g free width height stride = some b ∧ r = some b ∧ g' = g.removeFree b) ∨
      (lastOfShape g free width height stride = none ∧
        ((r = none ∧ SameBlocks g g') ∨
          (r = some ans.malloc ∧ Created ans g width height stride g'))) := by
  cases shmPoolAllocate_cases hcall with
  | reused hfound => exact Or.inl ⟨_, (h.reuse hfound).symm, rfl, rfl⟩
  | refused hmiss hroom => exact Or.inr ⟨(h.reuse hmiss).symm, Or.inl ⟨rfl, hroom.sameBlocks⟩⟩
  | created hmiss hroom =>
    have hnone := (h.reuse hmiss).symm
    rcases (shmPoolAllocate_cases hcall).effect with hsame | ⟨_, b, _, _, hfound⟩ | ⟨hr, hnew, _⟩
    · exact Or.inr ⟨hnone, Or.inl hsame⟩
    · rw [← h.reuse hfound] at hnone
      cases hnone
    · exact Or.inr ⟨hnone, Or.inr ⟨hr, hnew⟩⟩

/-- What a call leaves that found the free block `b` between `xs` and `ys`. -/
structure Reused (g : Gfx w) (xs : List Addr) (b : Addr) (ys : List Addr) (g' : Gfx w) :
    Prop where
  os : g'.os = g.os
  rep : ListRep g'.links g'.pool.freeBlocks (xs ++ ys)
  poolUsed : g'.pool.poolUsed = g.pool.poolUsed
  poolCapacity : g'.pool.poolCapacity = g.pool.poolCapacity
  poolData : g'.pool.poolData = g.pool.poolData

theorem ListRep.reused (h : ListRep g.links g.pool.freeBlocks (xs ++ b :: ys)) :
    Reused g xs b ys (g.removeFree b) :=
  ⟨rfl, h.remove, rfl, rfl, rfl⟩

/-- A free block of the shape is split off at the last one. -/
theorem exists_last_shaped (h : ∃ b ∈ free, Shaped g width height stride b) :
    ∃ xs b ys, free = xs ++ b :: ys ∧ Shaped g width height stride b ∧
      ∀ y ∈ ys, ¬ Shaped g width height stride y := by
  cases hl : lastOfShape g free width height stride with
  | none =>
    obtain ⟨b, hb, hs⟩ := h
    exact absurd hs (lastOfShape_eq_none_iff.mp hl b hb)
  | some b =>
    obtain ⟨xs, ys, hfree, hb, hys⟩ := lastOfShape_eq_some hl
    exact ⟨xs, b, ys, hfree, hb, fun y hy => by simp [Shaped, hys y hy]⟩

/-- What a call leaves that finds no free block of the shape: the free list as it was, and a
block it returns is new and has the shape. -/
structure Missed (g : Gfx w) (free : List Addr) (width height stride : UsizeT w) (g' : Gfx w)
    (r : Option Addr) : Prop where
  freeBlocks : g'.pool.freeBlocks = g.pool.freeBlocks
  rep : ListRep g'.links g'.pool.freeBlocks free
  new : ∀ b, r = some b → b ∉ g.live ∧
    ∃ buffer, g'.blocks b = ⟨buffer, width, height, stride, false⟩

theorem ListRep.allocate_missed (h : ListRep g.links g.pool.freeBlocks free)
    (hlive : ∀ b ∈ free, b ∈ g.live) (hfresh : ans.malloc ∉ g.live)
    (hnone : ∀ b ∈ free, ¬ Shaped g width height stride b)
    (hcall : shmPoolAllocate fuel ans g width height stride = .ok (g', r)) :
    Missed g free width height stride g' r := by
  rcases h.allocate_cases hcall with ⟨b, hfound, _⟩ | ⟨_, ⟨rfl, hsame⟩ | ⟨rfl, hnew⟩⟩
  · rw [lastOfShape_eq_none_iff.mpr hnone] at hfound
    cases hfound
  · refine ⟨hsame.freeBlocks, ?_, nofun⟩
    rw [hsame.links, hsame.freeBlocks]
    exact h
  · refine ⟨hnew.freeBlocks, ?_, ?_⟩
    · rw [hnew.links, hnew.freeBlocks]
      refine h.congr fun c hc => Function.update_of_ne ?_ _ _
      exact ne_of_mem_of_not_mem (hlive c hc) hfresh
    · rintro b ⟨⟩
      obtain ⟨buffer, hblocks⟩ := hnew.blocks
      exact ⟨hfresh, buffer, by simp [hblocks]⟩

/-- `shm_pool_allocate` serves a request from the free list, without any call outside the
process, exactly when a free block has the shape. It then takes the last such block out of
the list; else it leaves the list alone and returns a new block, or NULL. -/
theorem allocate_reuses_iff (h : ListRep g.links g.pool.freeBlocks free)
    (halive : g.pool.alive = true) (hlive : ∀ b ∈ free, b ∈ g.live)
    (hfresh : ans.malloc ∉ g.live) (width height stride : UsizeT w) :
    ((∃ fuel g' b, shmPoolAllocate fuel ans g width height stride = .ok (g', some b) ∧
        g'.os = g.os ∧ b ∈ free) ↔ ∃ b ∈ free, Shaped g width height stride b) ∧
      (∀ xs b ys, free = xs ++ b :: ys → Shaped g width height stride b →
        (∀ y ∈ ys, ¬ Shaped g width height stride y) →
        (∀ fuel, free.length < fuel →
          ∃ g', shmPoolAllocate fuel ans g width height stride = .ok (g', some b)) ∧
        ∀ fuel g' r, shmPoolAllocate fuel ans g width height stride = .ok (g', r) →
          r = some b ∧ Reused g xs b ys g') ∧
      ((∀ b ∈ free, ¬ Shaped g width height stride b) →
        ∀ fuel g' r, shmPoolAllocate fuel ans g width height stride = .ok (g', r) →
          Missed g free width height stride g' r) := by
  refine ⟨⟨?_, ?_⟩, ?_, fun hnone _ _ _ => h.allocate_missed hlive hfresh hnone⟩
  · rintro ⟨fuel, g', b, hcall, _, hb⟩
    by_contra hnone
    have hmissed := h.allocate_missed hlive hfresh (by simpa using hnone) hcall
    exact (hmissed.new b rfl).1 (hlive b hb)
  · intro hex
    obtain ⟨xs, b, ys, rfl, hb, hys⟩ := exists_last_shaped hex
    exact ⟨_, _, b, h.allocate_found halive hb hys (Nat.lt_succ_self _), rfl, by simp⟩
  · rintro xs b ys rfl hb hys
    refine ⟨fun fuel hfuel => ⟨_, h.allocate_found halive hb hys hfuel⟩, fun fuel g' r hcall => ?_⟩
    rcases h.allocate_cases hcall with ⟨c, hfound, rfl, rfl⟩ | ⟨hnone, _⟩
    · rw [lastOfShape_append hb hys] at hfound
      obtain rfl := Option.some.inj hfound
      exact ⟨rfl, h.reused⟩
    · rw [lastOfShape_append hb hys] at hnone
      cases hnone

/-- Three free blocks, of which the first and the last are alike. -/
def threeFree : Gfx 64 where
  pool := { ShmPoolS.zero 64 with freeBlocks := ⟨some 0, some 2⟩, alive := true }
  links b := if b = 0 then ⟨some 1, none⟩ else if b = 1 then ⟨some 2, some 0⟩ else ⟨none, some 1⟩
  blocks b := if b = 1 then ⟨1, 8, 8, 32, false⟩ else ⟨b, 4, 4, 16, false⟩
  live := {0, 1, 2}
  os := ⟨fun _ => none, [], []⟩

theorem threeFree_rep : ListRep threeFree.links threeFree.pool.freeBlocks [0, 1, 2] :=
  ⟨⟨rfl, rfl, rfl, rfl, rfl, rfl, trivial⟩, rfl, rfl⟩

/-- The block in the middle is found behind the tail of another shape and unlinked. -/
theorem allocate_reuses_middle : ∃ fuel g' b,
    shmPoolAllocate fuel ⟨false, none, none, 3, ⟨none, none⟩⟩ threeFree 8 8 32 =
      .ok (g', some b) ∧ g'.os = threeFree.os ∧ b ∈ [0, 1, 2] :=
  (allocate_reuses_iff threeFree_rep rfl (by decide) (by decide) 8 8 32).1.mpr
    ⟨1, by decide, rfl⟩

end Spaze
