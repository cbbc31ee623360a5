import Mathlib.Data.List.Chain
import Spaze.PoolSizes
import Spaze.SwapchainReturn

/-! The four views of a pool's size: the file, the mapping, the structure and the compositor. -/
namespace Spaze

open Runs

variable {w : ℕ} {fuel : ℕ} {ans : Answers} {g g' : Gfx w} {s t : PoolState w} {a : PoolCall w}
  {r : Option Addr} {width height stride size : UsizeT w} {err : ShmPoolErrorE}

/-- The pool size a request asks the compositor for, before its conversion to int32. -/
def Request.poolSize : Request w → Option (UsizeT w)
  | .wlShmCreatePool _ size => some size
  | .wlShmPoolResize _ size => some size
  | _ => none

/-- The pool sizes asked for so far, oldest first. -/
def poolSizes (requests : List (Request w)) : List (UsizeT w) :=
  requests.filterMap Request.poolSize

theorem poolSizes_snoc (rs : List (Request w)) (q : Request w) :
    poolSizes (rs ++ [q]) = poolSizes rs ++ q.poolSize.toList := by
  cases hq : q.poolSize <;> simp [poolSizes, List.filterMap_append, hq]

/-- A live pool has one mapping, at its data and of its capacity, over an open file at least
as large; the compositor was asked for that capacity last, and for less each time before. -/
structure Views (g : Gfx w) : Prop where
  alive : g.pool.alive = true
  pos : 0 < g.pool.poolCapacity
  mapped : ∃ ptr, g.pool.poolData = some ptr ∧ g.os.mappings = [(ptr, g.pool.poolCapacity)]
  file : ∃ n, g.os.file g.pool.fd = some n ∧ g.pool.poolCapacity.toNat ≤ n
  closed : ∀ fd, fd ≠ g.pool.fd → g.os.file fd = none
  asked : (poolSizes g.os.requests).getLast? = some g.pool.poolCapacity
  growing : (poolSizes g.os.requests).IsChain (· < ·)

/-- What a call leaves alone that does not touch the sizes. -/
structure SameSizes (g g' : Gfx w) : Prop where
  alive : g'.pool.alive = g.pool.alive
  poolCapacity : g'.pool.poolCapacity = g.pool.poolCapacity
  poolData : g'.pool.poolData = g.pool.poolData
  fd : g'.pool.fd = g.pool.fd
  file : g'.os.file = g.os.file
  mappings : g'.os.mappings = g.os.mappings
  asked : poolSizes g'.os.requests = poolSizes g.os.requests

theorem Views.congr (hg : Views g) (h : SameSizes g g') : Views g' := by
  constructor
  · rw [h.alive]
    exact hg.alive
  · rw [h.poolCapacity]
    exact hg.pos
  · rw [h.poolData, h.mappings, h.poolCapacity]
    exact hg.mapped
  · rw [h.file, h.fd, h.poolCapacity]
    exact hg.file
  · rw [h.file, h.fd]
    exact hg.closed
  · rw [h.asked, h.poolCapacity]
    exact hg.asked
  · rw [h.asked]
    exact hg.growing

/-! ## Growing -/

/-- A growth whose mmap fails leaves the file larger than the pool. -/
theorem Views.truncated (hg : Views g) {capacity : UsizeT w}
    (hgt : g.pool.poolCapacity < capacity) :
    Views { g with os := g.os.ftruncate g.pool.fd capacity } := by
  obtain ⟨n, hfile, _⟩ := hg.file
  refine ⟨hg.alive, hg.pos, hg.mapped, ⟨capacity.toNat, ?_, ?_⟩, ?_, hg.asked, hg.growing⟩
  · simp [Os.ftruncate, hfile]
  · exact Nat.le_of_lt (BitVec.lt_def.mp hgt)
  · intro fd hfd
    simpa [Os.ftruncate, hfd] using hg.closed fd hfd

theorem shmPoolGrow_replaces (os : Os w) (fd : Fd) (old ptr : Addr) (capacity : UsizeT w)
    (hpos : 0 < size) : (shmPoolGrow true (some ptr) os fd size (some old) capacity).1 =
      ((os.ftruncate fd capacity).mmap ptr capacity).munmap (some old) size := by
  have hcond : (some old : Option Addr) ≠ none ∧ size > 0 := ⟨nofun, hpos⟩
  simp only [shmPoolGrow, if_true, if_pos hcond]

/-- A growth replaces the mapping, whose length changes, and asks for more than before. -/
theorem Views.grown (hg : Views g) {capacity : UsizeT w} {ptr : Addr}
    (hgt : g.pool.poolCapacity < capacity) :
    Views { g with
      os := (shmPoolGrow true (some ptr) g.os g.pool.fd g.pool.poolCapacity g.pool.poolData
        capacity).1.send (.wlShmPoolResize g.pool.pool capacity)
      pool := { g.pool with poolData := some ptr, poolCapacity := capacity } } := by
  obtain ⟨old, hdata, hmap⟩ := hg.mapped
  obtain ⟨n, hfile, _⟩ := hg.file
  have hpos := hg.pos
  have hne : ¬ g.pool.poolCapacity = capacity := fun he => by simp [he] at hgt
  have hlt := BitVec.lt_def.mp hgt
  have hcap : 0 < capacity := by
    have hz := BitVec.lt_def.mp hpos
    exact BitVec.lt_def.mpr (by omega)
  have hgrow := shmPoolGrow_replaces g.os g.pool.fd old ptr capacity hpos
  constructor
  · exact hg.alive
  · exact hcap
  · refine ⟨ptr, rfl, ?_⟩
    simp [hdata, hgrow, Os.send, Os.munmap, Os.mmap, Os.ftruncate, hmap, hne]
  · refine ⟨capacity.toNat, ?_, Nat.le_refl _⟩
    simp [hdata, hgrow, Os.send, Os.munmap, Os.mmap, Os.ftruncate, hfile]
  · intro fd hfd
    have hfd' : fd ≠ g.pool.fd := hfd
    simpa [hdata, hgrow, Os.send, Os.munmap, Os.mmap, Os.ftruncate, hfd'] using
      hg.closed fd hfd'
  · simp [Os.send, poolSizes_snoc, Request.poolSize]
  · simp only [Os.send, shmPoolGrow_requests, poolSizes_snoc, List.isChain_append]
    refine ⟨hg.growing, by simp [Request.poolSize], ?_⟩
    intro x hx y hy
    rw [hg.asked] at hx
    simp only [Option.mem_def, Option.some.injEq, Request.poolSize, Option.toList_some,
      List.head?_cons] at hx hy
    subst hx hy
    exact hgt

theorem Views.madeRoom (hg : Views g) (h : MadeRoom ans g size g' err) : Views g' := by
  cases h with
  | enough | truncateFailed => exact hg
  | mmapFailed hgrow hcap hm => exact hg.truncated (hcap.gt hgrow)
  | grown hgrow hcap ht hm => exact hg.grown (hcap.gt hgrow)

theorem shmPoolCreateBuffer_sizes (ans : Answers) (g : Gfx w)
    (offset reqSize width height stride : UsizeT w) :
    SameSizes g (shmPoolCreateBuffer ans g offset reqSize width height stride).1 := by
  unfold shmPoolCreateBuffer
  cases ans.createBuffer <;>
    exact ⟨rfl, rfl, rfl, rfl, rfl, rfl, by simp [Os.send, poolSizes_snoc, Request.poolSize]⟩

theorem Views.allocated (hg : Views g) (h : Allocated ans g width height stride g' r) :
    Views g' := by
  cases h with
  | reused => exact hg.congr ⟨rfl, rfl, rfl, rfl, rfl, rfl, rfl⟩
  | refused _ hroom => exact hg.madeRoom hroom
  | created _ hroom => exact (hg.madeRoom hroom).congr (shmPoolCreateBuffer_sizes _ _ _ _ _ _ _)

theorem views_step (hg : Views s.gfx) (hs : (poolSystem w).step s a t) : Views t.gfx := by
  cases hs with
  | deallocate => exact hg.congr ⟨rfl, rfl, rfl, rfl, rfl, rfl, rfl⟩
  | allocate _ hcall => exact hg.allocated (shmPoolAllocate_cases hcall)

theorem views_initial (h : (poolSystem w).initial s) : Views s.gfx := by
  obtain ⟨size, h⟩ := h
  have hs := h.started
  obtain ⟨ptr, hdata, hos⟩ := hs.os
  constructor
  · exact hs.alive
  · rw [hs.capacity]
    exact hs.pos
  · refine ⟨ptr, hdata, ?_⟩
    simp [hos, hs.capacity, Os.send, Os.mmap, Os.ftruncate, Os.shmOpen, Os.start]
  · refine ⟨size.toNat, ?_, by rw [hs.capacity]⟩
    simp [hos, Os.send, Os.mmap, Os.ftruncate, Os.shmOpen]
  · intro fd hfd
    simp [hos, Os.send, Os.mmap, Os.ftruncate, Os.shmOpen, Os.start, hfd]
  · simp [hos, hs.capacity, Os.send, Os.mmap, Os.ftruncate, Os.shmOpen, Os.start, poolSizes,
      Request.poolSize]
  · simp [hos, Os.send, Os.mmap, Os.ftruncate, Os.shmOpen, Os.start, poolSizes, Request.poolSize]

theorem views_run {tr : List (PoolState w × PoolCall w)} (h : (poolSystem w).Trace tr t) :
    Views t.gfx := by
  obtain ⟨s, hi, hr⟩ := h
  exact hr.invariant (I := fun s => Views s.gfx) (fun _ _ _ => views_step) (views_initial hi)

/-! ## Ending -/

/-- Nothing is mapped, no descriptor is open and the structure is zero. -/
structure Released (g : Gfx w) : Prop where
  mappings : g.os.mappings = []
  closed : ∀ fd, g.os.file fd = none
  pool : g.pool = ShmPoolS.zero w

theorem Views.deinit (hg : Views g) (h : shmPoolDeinit fuel g = .ok g') : Released g' := by
  simp only [shmPoolDeinit, hg.alive, Bool.not_true, Bool.false_eq_true, if_false,
    bind_eq_ok] at h
  obtain ⟨⟨g₁, r⟩, hloop, h⟩ := h
  have hsame : g₁.pool = g.pool ∧ g₁.os.file = g.os.file ∧ g₁.os.mappings = g.os.mappings := by
    refine listForEach_invariant
      (I := fun s => s.pool = g.pool ∧ s.os.file = g.os.file ∧ s.os.mappings = g.os.mappings)
      ?_ ⟨rfl, rfl, rfl⟩ hloop
    intro s x s' r hs hb
    unfold shmPoolDestroyBlock at hb
    split at hb
    · cases hb
      exact hs
    · cases hb
  obtain ⟨hpool, hfile, hmappings⟩ := hsame
  obtain ⟨ptr, hdata, hmap⟩ := hg.mapped
  cases h
  constructor
  · simp [Os.close, Os.munmap, Os.send, hpool, hmappings, hdata, hmap]
  · intro fd
    by_cases hfd : fd = g.pool.fd
    · simp [Os.close, hpool, hfd]
    · simpa [Os.close, Os.munmap, Os.send, hpool, hfile, hfd] using hg.closed fd hfd
  · rfl

/-- Every failure exit of `shm_pool_init` gives back what it took. -/
theorem released_of_failed {ians : InitAnswers} (hos : g.os = Os.start w)
    (h : shmPoolInit ians g size = .ok (g', err)) (herr : err ≠ .ok) : Released g' := by
  rcases shmPoolInit_cases h with ⟨hok, _⟩ | ⟨_, hfail, hpool⟩
  · exact absurd hok herr
  · rw [hos] at hfail
    have hout : g'.os.mappings = [] ∧ ∀ fd, g'.os.file fd = none := by
      generalize g'.os = os at hfail
      cases hfail <;> simp [Os.close, Os.munmap, Os.send, Os.mmap, Os.ftruncate, Os.shmOpen,
        Os.start]
    exact ⟨hout.1, hout.2, hpool⟩

theorem shmPoolReuse_ne_panic : shmPoolReuse fuel g width height stride ≠ .error .panic := by
  unfold shmPoolReuse
  apply listForEach_ne_error
  · exact nofun
  · intro g b
    simp [Gfx.linkPrev]
  · intro g b
    unfold reuseBlock
    split <;> exact nofun

/-- The assertions of `shm_pool_allocate` and `shm_pool_do_grow` never fire on a live pool. -/
theorem shmPoolAllocate_ne_panic (halive : g.pool.alive = true) :
    shmPoolAllocate fuel ans g width height stride ≠ .error .panic := by
  refine bind_ne_error (by simp [halive]) fun _ _ => ?_
  refine bind_ne_error shmPoolReuse_ne_panic fun ⟨g₁, reused⟩ hreuse => ?_
  cases reused with
  | some block => exact nofun
  | none =>
    rcases shmPoolReuse_cases hreuse with ⟨_, rfl⟩ | ⟨_, hr, _⟩
    · refine bind_ne_error shmPoolMakeRoom_ne_panic fun ⟨g₂, err⟩ _ => ?_
      dsimp only
      split <;> exact nofun
    · cases hr

/-! ## The whole law -/

/-- In every state of every run the four views agree; no later allocation panics, one that
returns NULL leaves the blocks alone, and `shm_pool_deinit` gives back everything if it returns,
which it does over a well formed free list of live blocks. So does a `shm_pool_init` that
fails. -/
theorem views_agree {tr : List (PoolState w × PoolCall w)} (h : (poolSystem w).Trace tr t) :
    Views t.gfx ∧
      (∀ fuel ans width height stride,
        shmPoolAllocate fuel ans t.gfx width height stride ≠ .error .panic) ∧
      (∀ fuel ans width height stride g,
        shmPoolAllocate fuel ans t.gfx width height stride = .ok (g, none) →
          SameBlocks t.gfx g) ∧
      (∀ fuel g, shmPoolDeinit fuel t.gfx = .ok g → Released g) ∧
      (∀ fuel free, ListRep t.gfx.links t.gfx.pool.freeBlocks free →
        (∀ b ∈ free, b ∈ t.gfx.live) → free.length < fuel →
          ∃ g, shmPoolDeinit fuel t.gfx = .ok g ∧ Released g) ∧
      ∀ ans g size g' err, g.os = Os.start w → shmPoolInit ans g size = .ok (g', err) →
        err ≠ .ok → Released g' := by
  have hg := views_run h
  refine ⟨hg, ?_, ?_, ?_, ?_, ?_⟩
  · exact fun _ _ _ _ _ => shmPoolAllocate_ne_panic hg.alive
  · exact fun _ _ _ _ _ _ hcall => (shmPoolAllocate_cases hcall).of_null
  · exact fun _ _ hdeinit => hg.deinit hdeinit
  · intro fuel free hfree hlive hfuel
    obtain ⟨g, hdeinit, _⟩ := shmPoolDeinit_eq hg.alive hfree hlive hfuel
    exact ⟨g, hdeinit, hg.deinit hdeinit⟩
  · exact fun _ _ _ _ _ hos hinit herr => released_of_failed hos hinit herr

/-- A growth to 1024 bytes fails in mmap and leaves the file that large; a growth to 128
bytes succeeds after it and shrinks the file. With the block given back the pool is deinited. An
initialisation after it fails in `wl_shm_create_pool`. -/
theorem views_agree_shrunk : ∃ tr t g, (poolSystem 64).Trace tr t ∧
    (t.gfx.pool.poolCapacity = 128 ∧ t.gfx.os.file t.gfx.pool.fd = some 128 ∧ Views t.gfx) ∧
    (shmPoolDeinit 2 t.gfx = .ok g ∧ Released g) ∧
    ∃ g', shmPoolInit ⟨some 3, true, some 4096, none⟩ { g with os := Os.start 64 } 4096 =
      .ok (g', .shmemOpenFailed) ∧ Released g' := by
  obtain ⟨tr, t, htr, hp⟩ := executed_trace 64
    [.allocate { answersAt 0 with mmap := none } 16 16 64, .allocate (answersAt 0) 8 3 32,
      .deallocate 0]
    (fun _ t => decide ((t.gfx.pool.poolCapacity = 128 ∧
      t.gfx.os.file t.gfx.pool.fd = some 128) ∧ t.gfx.pool.freeBlocks = ⟨some 0, some 0⟩ ∧
      t.gfx.links 0 = ⟨none, none⟩ ∧ 0 ∈ t.gfx.live)) (by decide) (by decide)
  simp only [decide_eq_true_eq] at hp
  obtain ⟨⟨hcapacity, hfile⟩, hblocks, hlink, hlive⟩ := hp
  have hfree : ListRep t.gfx.links t.gfx.pool.freeBlocks [0] := by
    rw [hblocks]
    exact ⟨⟨by simp [prevs, hlink], by simp [nexts, hlink], trivial⟩, rfl, rfl⟩
  obtain ⟨hviews, _, _, _, hdeinit, hinit⟩ := views_agree htr
  obtain ⟨g, hg, hreleased⟩ := hdeinit 2 [0] hfree (by simpa using hlive) (by decide)
  obtain ⟨g', hfailed⟩ : ∃ g', shmPoolInit ⟨some 3, true, some 4096, none⟩
      { g with os := Os.start 64 } 4096 = .ok (g', .shmemOpenFailed) := ⟨_, rfl⟩
  exact ⟨tr, t, g, htr, ⟨hcapacity, hfile, hviews⟩, ⟨hg, hreleased⟩, g', hfailed,
    hinit _ _ _ _ _ rfl hfailed (by simp)⟩

end Spaze
