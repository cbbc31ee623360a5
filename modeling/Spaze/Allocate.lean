import Spaze.ListLoop
import Spaze.ListRep
import Spaze.Gfx

/-! Everything one `shm_pool_allocate` can do, said once. -/
namespace Spaze

open Linked

variable {w : ℕ} {fuel : ℕ} {ans : Answers} {g g' : Gfx w} {r : Option Addr}
  {width height stride size target capacity : UsizeT w} {err : ShmPoolErrorE}

/-! ## The reuse loop -/

theorem reuseFrom_cases {link linkNext : Option Addr}
    (h : listForEachFrom Gfx.linkPrev (reuseBlock width height stride) fuel g link linkNext =
      .ok (g', r)) :
    (r = none ∧ g' = g) ∨
      ∃ b, r = some b ∧ (g.blocks b).hasShape width height stride = true ∧
        g' = g.removeFree b := by
  induction fuel generalizing link linkNext with
  | zero => cases h
  | succ fuel ih =>
    cases link with
    | none =>
      cases h
      exact Or.inl ⟨rfl, rfl⟩
    | some link =>
      simp only [listForEachFrom, bind_eq_ok] at h
      obtain ⟨⟨g₁, r₁⟩, hb, h⟩ := h
      unfold reuseBlock at hb
      split at hb
      · cases hb
        cases h
        exact Or.inr ⟨link, rfl, by assumption, rfl⟩
      · cases hb
        simp only [bind_eq_ok] at h
        obtain ⟨l, _, h⟩ := h
        exact ih h

/-- The loop either finds nothing and changes nothing, or unlinks a block of the shape. -/
theorem shmPoolReuse_cases (h : shmPoolReuse fuel g width height stride = .ok (g', r)) :
    (r = none ∧ g' = g) ∨
      ∃ b, r = some b ∧ (g.blocks b).hasShape width height stride = true ∧
        g' = g.removeFree b := by
  simp only [shmPoolReuse, listForEach, bind_eq_ok] at h
  obtain ⟨l, _, h⟩ := h
  exact reuseFrom_cases h

theorem linkAfter_linkPrev (g : Gfx w) (link : Option Addr) :
    linkAfter Gfx.linkPrev g link = .ok (link.bind (prevs g.links)) := by
  cases link <;> rfl

/-- A block of the shape an allocation asks for. -/
def Shaped (g : Gfx w) (width height stride : UsizeT w) (b : Addr) : Prop :=
  (g.blocks b).hasShape width height stride = true

/-- The blocks met from the tail of the free list back along the `prev` words. -/
def FreeBlock (g : Gfx w) (b : Addr) : Prop :=
  Reach (prevs g.links) g.pool.freeBlocks.tail b

/-- The first of these blocks that has the shape. -/
def FirstFree (g : Gfx w) (width height stride : UsizeT w) (b : Addr) : Prop :=
  First (prevs g.links) (Shaped g width height stride) g.pool.freeBlocks.tail b

theorem reuseFrom_first {link : Option Addr} {b : Addr}
    (h : listForEachFrom Gfx.linkPrev (reuseBlock width height stride) fuel g link
      (link.bind (prevs g.links)) = .ok (g', r)) :
    r = some b ↔ First (prevs g.links) (Shaped g width height stride) link b := by
  induction fuel generalizing link with
  | zero => cases h
  | succ fuel ih =>
    cases link with
    | none =>
      cases h
      exact ⟨nofun, nofun⟩
    | some link =>
      simp only [listForEachFrom, reuseBlock, linkAfter_linkPrev] at h
      by_cases hs : Shaped g width height stride link
      · simp only [show (g.blocks link).hasShape width height stride = true from hs, if_true] at h
        cases h
        constructor
        · rintro ⟨⟩
          exact .here hs
        · rintro (_ | ⟨hn, _⟩)
          · rfl
          · exact absurd hs hn
      · have hf : (g.blocks link).hasShape width height stride = false := by
          simpa [Shaped] using hs
        simp only [hf] at h
        rw [ih h]
        constructor
        · exact fun hb => .there hs hb
        · rintro (ha | ⟨_, hb⟩)
          · exact absurd ha hs
          · exact hb

/-- A reuse loop that returns has answered with the first free block of the shape, whatever
the links look like. -/
theorem shmPoolReuse_first {b : Addr} (h : shmPoolReuse fuel g width height stride = .ok (g', r)) :
    r = some b ↔ FirstFree g width height stride b := by
  simp only [shmPoolReuse, listForEach, linkAfter_linkPrev] at h
  exact reuseFrom_first h

theorem shmPoolReuse_none_iff (h : shmPoolReuse fuel g width height stride = .ok (g', r)) :
    r = none ↔ ∀ b, FreeBlock g b → ¬ Shaped g width height stride b := by
  have hex : (∃ b, r = some b) ↔ ∃ b, FreeBlock g b ∧ Shaped g width height stride b := by
    simp only [shmPoolReuse_first h]
    exact exists_first_iff
  constructor
  · rintro rfl b hb hs
    obtain ⟨b, hb⟩ := hex.mpr ⟨b, hb, hs⟩
    cases hb
  · intro hnone
    cases r with
    | none => rfl
    | some b =>
      obtain ⟨b, hb, hs⟩ := hex.mp ⟨b, rfl⟩
      exact absurd hs (hnone b hb)

/-- The free block the loop stops at: the last one of the shape. -/
def lastOfShape (g : Gfx w) (free : List Addr) (width height stride : UsizeT w) : Option Addr :=
  free.reverse.find? fun b => (g.blocks b).hasShape width height stride

theorem lastOfShape_concat (g : Gfx w) (free : List Addr) (b : Addr) :
    lastOfShape g (free ++ [b]) width height stride =
      if (g.blocks b).hasShape width height stride then some b
      else lastOfShape g free width height stride := by
  simp only [lastOfShape, List.reverse_concat, List.find?_cons]
  split <;> simp_all

theorem lastOfShape_eq_some {free : List Addr} {b : Addr}
    (h : lastOfShape g free width height stride = some b) :
    ∃ xs ys, free = xs ++ b :: ys ∧ (g.blocks b).hasShape width height stride = true ∧
      ∀ y ∈ ys, (g.blocks y).hasShape width height stride = false := by
  obtain ⟨hb, ys, xs, hfree, hys⟩ := List.find?_eq_some_iff_append.mp h
  refine ⟨xs.reverse, ys.reverse, ?_, hb, ?_⟩
  · have hr := congrArg List.reverse hfree
    simpa using hr
  · intro y hy
    simpa using hys y (by simpa using hy)

/-- Over a well formed free list the loop ends, at the last block of the shape. -/
theorem reuseFrom_rep {free : List Addr} {q : Option Addr} (width height stride : UsizeT w)
    (h : Linked.Seg (nexts g.links) (prevs g.links) none free q) (hfuel : free.length < fuel) :
    listForEachFrom Gfx.linkPrev (reuseBlock width height stride) fuel g free.getLast?
        (free.getLast?.bind (prevs g.links)) =
      match lastOfShape g free width height stride with
      | some b => .ok (g.removeFree b, some b)
      | none => .ok (g, none) := by
  induction free using List.reverseRecOn generalizing fuel q with
  | nil =>
    obtain ⟨fuel, rfl⟩ : ∃ k, fuel = k + 1 := ⟨fuel - 1, by simp at hfuel; omega⟩
    rfl
  | append_singleton free z ih =>
    obtain ⟨hs, hp, _⟩ := Linked.seg_concat.mp h
    simp only [List.length_append, List.length_singleton] at hfuel
    obtain ⟨fuel, rfl⟩ : ∃ k, fuel = k + 1 := ⟨fuel - 1, by omega⟩
    rw [lastOfShape_concat, List.getLast?_concat, Option.bind_some, hp, Option.or_none]
    by_cases hz : (g.blocks z).hasShape width height stride = true
    · simp [listForEachFrom, reuseBlock, hz, Bind.bind, Except.bind, Pure.pure, Except.pure]
    · have hrest := ih hs (by omega : free.length < fuel)
      simpa [listForEachFrom, reuseBlock, hz, Bind.bind, Except.bind, linkAfter_linkPrev]
        using hrest

theorem shmPoolReuse_rep {free : List Addr} (width height stride : UsizeT w)
    (h : ListRep g.links g.pool.freeBlocks free) (hfuel : free.length < fuel) :
    shmPoolReuse fuel g width height stride =
      match lastOfShape g free width height stride with
      | some b => .ok (g.removeFree b, some b)
      | none => .ok (g, none) := by
  simp only [shmPoolReuse, listForEach, h.tail, linkAfter_linkPrev, Bind.bind, Except.bind]
  exact reuseFrom_rep width height stride h.seg hfuel

/-- Whatever fuel it was given, a loop that returns has answered with the last block of
the shape. -/
theorem ListRep.reuse {free : List Addr} (h : ListRep g.links g.pool.freeBlocks free)
    (hr : shmPoolReuse fuel g width height stride = .ok (g', r)) :
    r = lastOfShape g free width height stride := by
  have hm := shmPoolReuse_rep width height stride h
    (by omega : free.length < fuel + free.length + 1)
  have hr' := listForEach_mono (by omega : fuel ≤ fuel + free.length + 1) hr
  rw [shmPoolReuse] at hm
  rw [hm] at hr'
  cases hl : lastOfShape g free width height stride with
  | none =>
    rw [hl] at hr'
    cases hr'
    rfl
  | some b =>
    rw [hl] at hr'
    cases hr'
    rfl

/-! ## The capacity search -/

theorem shmPoolCapacitySearch_ge (h : shmPoolCapacitySearch target fuel size = .ok capacity) :
    target ≤ capacity := by
  induction fuel generalizing size with
  | zero => cases h
  | succ fuel ih =>
    rw [shmPoolCapacitySearch] at h
    split at h
    · exact ih h
    · cases h
      exact BitVec.not_lt.mp (by assumption)

/-- The capacity the search of `shm_pool_allocate` ends with. -/
def SearchedCapacity (g : Gfx w) (size capacity : UsizeT w) : Prop :=
  ∃ fuel, shmPoolCapacitySearch (g.pool.poolUsed + size) fuel
    (shmPoolNewCapacity g.pool.poolCapacity) = .ok capacity

theorem SearchedCapacity.fits (h : SearchedCapacity g size capacity) :
    g.pool.poolUsed + size ≤ capacity := by
  obtain ⟨fuel, h⟩ := h
  exact shmPoolCapacitySearch_ge h

/-- The assertion of `shm_pool_do_grow` holds, wrapped arithmetic included: the sum compared
with the new capacity is the one that did not fit into the old capacity. -/
theorem SearchedCapacity.gt (h : SearchedCapacity g size capacity)
    (hgrow : shmPoolNeedsGrow g.pool size = true) : g.pool.poolCapacity < capacity := by
  have hf := h.fits
  simp only [shmPoolNeedsGrow, gt_iff_lt, decide_eq_true_eq] at hgrow
  exact BitVec.lt_def.mpr (Nat.lt_of_lt_of_le (BitVec.lt_def.mp hgrow) (BitVec.le_def.mp hf))

/-! ## Making room -/

/-- What `shmPoolMakeRoom` leaves, for each way it can end. -/
inductive MadeRoom (ans : Answers) (g : Gfx w) (size : UsizeT w) :
    Gfx w → ShmPoolErrorE → Prop
  | enough (hfit : shmPoolNeedsGrow g.pool size = false) : MadeRoom ans g size g .ok
  | truncateFailed (hgrow : shmPoolNeedsGrow g.pool size = true) (ht : ans.ftruncate = false) :
      MadeRoom ans g size g .truncateFailed
  | mmapFailed {capacity : UsizeT w} (hgrow : shmPoolNeedsGrow g.pool size = true)
      (hcap : SearchedCapacity g size capacity) (hm : ans.mmap = none) :
      MadeRoom ans g size { g with os := g.os.ftruncate g.pool.fd capacity } .mmapFailed
  | grown {capacity : UsizeT w} {ptr : Addr} (hgrow : shmPoolNeedsGrow g.pool size = true)
      (hcap : SearchedCapacity g size capacity) (ht : ans.ftruncate = true)
      (hm : ans.mmap = some ptr) :
      MadeRoom ans g size
        { g with
          os := (shmPoolGrow true (some ptr) g.os g.pool.fd g.pool.poolCapacity g.pool.poolData
            capacity).1.send (.wlShmPoolResize g.pool.pool capacity)
          pool := { g.pool with poolData := some ptr, poolCapacity := capacity } } .ok

theorem shmPoolMakeRoom_cases
    (h : shmPoolMakeRoom fuel ans g g.pool.poolUsed size = .ok (g', err)) :
    MadeRoom ans g size g' err := by
  unfold shmPoolMakeRoom at h
  split at h
  · rename_i hgrow
    simp only [bind_eq_ok] at h
    obtain ⟨capacity, hsearch, h⟩ := h
    have hcap : SearchedCapacity g size capacity := ⟨fuel, hsearch⟩
    simp only [shmPoolDoGrow, bind_eq_ok] at h
    obtain ⟨_, _, h⟩ := h
    cases ht : ans.ftruncate with
    | false =>
      rw [ht] at h
      cases h
      exact .truncateFailed hgrow ht
    | true =>
      cases hm : ans.mmap with
      | none =>
        rw [ht, hm] at h
        cases h
        exact .mmapFailed hgrow hcap hm
      | some ptr =>
        rw [ht, hm] at h
        cases h
        exact .grown hgrow hcap ht hm
  · cases h
    exact .enough (by simp_all)

/-- What a growth leaves alone: the blocks, their links, the free list and `pool_used`. -/
structure SameBlocks (g g' : Gfx w) : Prop where
  links : g'.links = g.links
  blocks : g'.blocks = g.blocks
  live : g'.live = g.live
  freeBlocks : g'.pool.freeBlocks = g.pool.freeBlocks
  poolUsed : g'.pool.poolUsed = g.pool.poolUsed
  alive : g'.pool.alive = g.pool.alive

theorem MadeRoom.sameBlocks (h : MadeRoom ans g size g' err) : SameBlocks g g' := by
  cases h <;> exact ⟨rfl, rfl, rfl, rfl, rfl, rfl⟩

theorem shmPoolCapacitySearch_ne_panic :
    shmPoolCapacitySearch target fuel size ≠ .error .panic := by
  induction fuel generalizing size with
  | zero => simp [shmPoolCapacitySearch]
  | succ fuel ih =>
    rw [shmPoolCapacitySearch]
    split
    · exact ih
    · simp

/-- The assertion of `shm_pool_do_grow` never fires. -/
theorem shmPoolMakeRoom_ne_panic :
    shmPoolMakeRoom fuel ans g g.pool.poolUsed size ≠ .error .panic := by
  unfold shmPoolMakeRoom
  split
  · rename_i hgrow
    refine bind_ne_error shmPoolCapacitySearch_ne_panic fun capacity hs => ?_
    have hgt := SearchedCapacity.gt ⟨fuel, hs⟩ hgrow
    refine bind_ne_error (by simp [hgt]) fun _ _ => ?_
    split <;> exact nofun
  · exact nofun

/-! ## The whole call -/

/-- What `shm_pool_allocate` leaves and returns, for each way it can end. -/
inductive Allocated (ans : Answers) (g : Gfx w) (width height stride : UsizeT w) :
    Gfx w → Option Addr → Prop
  | reused {fuel : ℕ} {b : Addr}
      (hfound : shmPoolReuse fuel g width height stride = .ok (g.removeFree b, some b))
      (hshape : (g.blocks b).hasShape width height stride = true) :
      Allocated ans g width height stride (g.removeFree b) (some b)
  | refused {fuel : ℕ} {g₁ : Gfx w} {err : ShmPoolErrorE}
      (hmiss : shmPoolReuse fuel g width height stride = .ok (g, none))
      (hroom : MadeRoom ans g (stride * height) g₁ err) (herr : err ≠ .ok) :
      Allocated ans g width height stride g₁ none
  | created {fuel : ℕ} {g₁ : Gfx w}
      (hmiss : shmPoolReuse fuel g width height stride = .ok (g, none))
      (hroom : MadeRoom ans g (stride * height) g₁ .ok) :
      Allocated ans g width height stride
        (shmPoolCreateBuffer ans g₁ g.pool.poolUsed (stride * height) width height stride).1
        (shmPoolCreateBuffer ans g₁ g.pool.poolUsed (stride * height) width height stride).2

theorem shmPoolAllocate_cases
    (h : shmPoolAllocate fuel ans g width height stride = .ok (g', r)) :
    Allocated ans g width height stride g' r := by
  simp only [shmPoolAllocate, bind_eq_ok] at h
  obtain ⟨_, _, ⟨g₁, reused⟩, hreuse, h⟩ := h
  rcases shmPoolReuse_cases hreuse with ⟨rfl, rfl⟩ | ⟨b, rfl, hshape, rfl⟩
  · simp only [bind_eq_ok] at h
    obtain ⟨⟨g₂, err⟩, hroom, h⟩ := h
    have hm := shmPoolMakeRoom_cases hroom
    split at h
    · cases h
      exact .refused hreuse hm (by assumption)
    · have he : err = .ok := by simpa using ‹¬ err ≠ .ok›
      subst he
      have hout := Except.ok.inj h
      have hg := congrArg Prod.fst hout
      have hr := congrArg Prod.snd hout
      subst hg hr
      exact .created hreuse hm
  · cases h
    exact .reused hreuse hshape

/-- What a fresh block changes of the blocks: nothing but the memory it was given. -/
structure Created (ans : Answers) (g : Gfx w) (width height stride : UsizeT w) (g' : Gfx w) :
    Prop where
  links : g'.links = Function.update g.links ans.malloc ans.words
  blocks : ∃ buffer, g'.blocks = Function.update g.blocks ans.malloc
    ⟨buffer, width, height, stride, false⟩
  live : g'.live = insert ans.malloc g.live
  freeBlocks : g'.pool.freeBlocks = g.pool.freeBlocks
  poolUsed : g'.pool.poolUsed = g.pool.poolUsed + stride * height
  alive : g'.pool.alive = g.pool.alive

/-- From the label `create_buffer` on, nothing is done to the blocks, or a fresh one is made. -/
theorem shmPoolCreateBuffer_cases {g₁ : Gfx w} {offset : UsizeT w} (hs : SameBlocks g g₁) {out}
    (h : shmPoolCreateBuffer ans g₁ offset (stride * height) width height stride = out) :
    (ans.createBuffer = none ∧ out.2 = none ∧ SameBlocks g out.1) ∨
      (ans.createBuffer ≠ none ∧ out.2 = some ans.malloc ∧
        Created ans g width height stride out.1) := by
  subst h
  unfold shmPoolCreateBuffer
  cases hb : ans.createBuffer with
  | none =>
    exact Or.inl ⟨rfl, rfl, hs.links, hs.blocks, hs.live, hs.freeBlocks, hs.poolUsed, hs.alive⟩
  | some buffer =>
    refine Or.inr ⟨by simp, rfl, ?_, ⟨buffer, ?_⟩, ?_, hs.freeBlocks, ?_, hs.alive⟩
    · simp only [hs.links]
    · simp only [hs.blocks]
    · simp only [hs.live]
    · simp only [hs.poolUsed]

/-- The blocks are left alone, or a free block is unlinked, or a fresh block is made. -/
theorem Allocated.effect (h : Allocated ans g width height stride g' r) :
    (r = none ∧ SameBlocks g g') ∨
    (∃ fuel b, r = some b ∧ g' = g.removeFree b ∧
      shmPoolReuse fuel g width height stride = .ok (g.removeFree b, some b)) ∨
    (r = some ans.malloc ∧ Created ans g width height stride g' ∧
      ∃ fuel, shmPoolReuse fuel g width height stride = .ok (g, none)) := by
  cases h with
  | reused hfound hshape => exact Or.inr (Or.inl ⟨_, _, rfl, rfl, hfound⟩)
  | refused hmiss hroom herr => exact Or.inl ⟨rfl, hroom.sameBlocks⟩
  | created hmiss hroom =>
    rcases shmPoolCreateBuffer_cases hroom.sameBlocks rfl with ⟨_, hr, hsame⟩ | ⟨_, hr, hnew⟩
    · exact Or.inl ⟨hr, hsame⟩
    · exact Or.inr (Or.inr ⟨hr, hnew, _, hmiss⟩)

/-- An allocation that returns NULL leaves `pool_used`, the free list and the blocks alone. -/
theorem Allocated.of_null (h : Allocated ans g width height stride g' none) : SameBlocks g g' := by
  rcases h.effect with ⟨_, hs⟩ | ⟨_, _, hr, _⟩ | ⟨hr, _⟩
  · exact hs
  · cases hr
  · cases hr

end Spaze
