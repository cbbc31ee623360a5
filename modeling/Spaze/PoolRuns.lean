import Spaze.Lib.Ownership
import Spaze.Lib.Runs
import Spaze.Allocate

/-! Runs of one pool: `shm_pool_init`, then allocations and deallocations in any order. -/
namespace Spaze

open Ownership Runs

variable {w : ℕ}

/-- The pool's memory, with the blocks the caller holds: those an allocation returned and
no deallocation has taken back since. -/
structure PoolState (w : ℕ) where
  gfx : Gfx w
  held : Finset Addr

/-- A call, the answers it got and what it returned. -/
inductive PoolCall (w : ℕ)
  | allocate (ans : Answers) (width height stride : UsizeT w) (result : Option Addr)
  | deallocate (block : Addr)

/-- The caller's blocks after an allocation. -/
def receive (held : Finset Addr) : Option Addr → Finset Addr
  | some block => insert block held
  | none => held

/-- One completed call; mi_malloc returns memory that is not in use. -/
inductive PoolStep : PoolState w → PoolCall w → PoolState w → Prop
  | allocate {s : PoolState w} {fuel : ℕ} {ans : Answers} {width height stride : UsizeT w}
      {g : Gfx w} {r : Option Addr} (hfresh : ans.malloc ∉ s.gfx.live)
      (h : shmPoolAllocate fuel ans s.gfx width height stride = .ok (g, r)) :
      PoolStep s (.allocate ans width height stride r) ⟨g, receive s.held r⟩
  | deallocate {s : PoolState w} {block : Addr} :
      PoolStep s (.deallocate block) ⟨shmPoolDeallocate s.gfx block, s.held.erase block⟩

/-- Nothing open, mapped or requested yet. -/
def Os.start (w : ℕ) : Os w where
  file _ := none
  mappings := []
  requests := []

/-- The state after `shm_pool_init` with this capacity returned `shm_pool_error_ok`. -/
def PoolInitial (capacity : UsizeT w) (s : PoolState w) : Prop :=
  s.held = ∅ ∧ ∃ ans g, g.os = Os.start w ∧ shmPoolInit ans g capacity = .ok (s.gfx, .ok)

def poolSystem (w : ℕ) : System (PoolState w) (PoolCall w) where
  initial s := ∃ capacity, PoolInitial capacity s
  step := PoolStep

/-! ## `shm_pool_init` -/

/-- A successful `shm_pool_init` leaves an empty pool over one mapping. -/
structure PoolStarted (size : UsizeT w) (os : Os w) (g : Gfx w) : Prop where
  pos : 0 < size
  capacity : g.pool.poolCapacity = size
  used : g.pool.poolUsed = 0
  freeBlocks : g.pool.freeBlocks = ListS.zero
  alive : g.pool.alive = true
  os : ∃ ptr, g.pool.poolData = some ptr ∧
    g.os = (((os.shmOpen g.pool.fd).ftruncate g.pool.fd size).mmap ptr size).send
      (.wlShmCreatePool g.pool.fd size)

/-- A failed `shm_pool_init` has closed the descriptor it opened, if any, and removed the
mapping it made, if any. -/
inductive PoolFailed (size : UsizeT w) (os : Os w) : Os w → Prop
  | shmOpen : PoolFailed size os os
  | ftruncate (fd : Fd) : PoolFailed size os ((os.shmOpen fd).close fd)
  | mmap (fd : Fd) : PoolFailed size os (((os.shmOpen fd).ftruncate fd size).close fd)
  | createPool (fd : Fd) (ptr : Addr) : PoolFailed size os
      ((((((os.shmOpen fd).ftruncate fd size).mmap ptr size).send
        (.wlShmCreatePool fd size)).munmap (some ptr) size).close fd)

theorem shmPoolInit_cases {ans : InitAnswers} {g g' : Gfx w} {size : UsizeT w}
    {err : ShmPoolErrorE} (h : shmPoolInit ans g size = .ok (g', err)) :
    (err = .ok ∧ PoolStarted size g.os g' ∧ ans.shmOpen = some g'.pool.fd) ∨
      (err ≠ .ok ∧ PoolFailed size g.os g'.os ∧ g'.pool = ShmPoolS.zero w) := by
  simp only [shmPoolInit, bind_eq_ok, assert_eq_ok, decide_eq_true_eq] at h
  obtain ⟨_, hpos, h⟩ := h
  cases hfd : ans.shmOpen with
  | none =>
    rw [hfd] at h
    cases h
    exact Or.inr ⟨by decide, .shmOpen, rfl⟩
  | some fd =>
    cases ht : ans.ftruncate with
    | false =>
      rw [hfd, ht] at h
      cases h
      exact Or.inr ⟨by decide, .ftruncate fd, rfl⟩
    | true =>
      cases hm : ans.mmap with
      | none =>
        rw [hfd, ht, hm] at h
        cases h
        exact Or.inr ⟨by decide, .mmap fd, rfl⟩
      | some ptr =>
        cases hp : ans.createPool with
        | none =>
          rw [hfd, ht, hm, hp] at h
          cases h
          exact Or.inr ⟨by decide, .createPool fd ptr, rfl⟩
        | some pool =>
          rw [hfd, ht, hm, hp] at h
          cases h
          exact Or.inl ⟨rfl, ⟨hpos, rfl, rfl, rfl, rfl, ptr, rfl, rfl⟩, rfl⟩

theorem PoolInitial.started {size : UsizeT w} {s : PoolState w} (h : PoolInitial size s) :
    PoolStarted size (Os.start w) s.gfx := by
  obtain ⟨_, ans, g, hos, h⟩ := h
  rcases shmPoolInit_cases h with ⟨_, hs, _⟩ | ⟨he, _⟩
  · rwa [hos] at hs
  · exact absurd rfl he

/-! ## Exclusive ownership -/

/-- The block an allocation returns is not one that the caller holds. -/
def ExclusiveCall (s : PoolState w) : PoolCall w → Prop
  | .allocate _ _ _ _ (some block) => block ∉ s.held
  | .allocate _ _ _ _ none => True
  | .deallocate _ => True

/-- Only blocks that the caller holds are deallocated. -/
def HeldDeallocate (s : PoolState w) : PoolCall w → Prop
  | .allocate _ _ _ _ _ => True
  | .deallocate block => block ∈ s.held

/-- A block deallocated into an empty free list has NULL in both its link words. -/
def CleanDeallocate (s : PoolState w) : PoolCall w → Prop
  | .allocate _ _ _ _ _ => True
  | .deallocate block => s.gfx.pool.freeBlocks.tail = none → Unlinked s.gfx.links block

/-- The free list is a well formed list of blocks nobody holds, and no block in use is one
that mi_malloc could return again. -/
structure Owned (s : PoolState w) (free : List Addr) : Prop where
  rep : ListRep s.gfx.links s.gfx.pool.freeBlocks free
  notHeld : ∀ b ∈ free, b ∉ s.held
  freeLive : ∀ b ∈ free, b ∈ s.gfx.live
  heldLive : ∀ b ∈ s.held, b ∈ s.gfx.live

variable {s t : PoolState w} {free xs ys : List Addr} {block : Addr} {a : PoolCall w} {g : Gfx w}

theorem owned_initial (h : (poolSystem w).initial s) : Owned s [] := by
  obtain ⟨size, h⟩ := h
  have hs := h.started
  refine ⟨?_, by simp, by simp, by simp [h.1]⟩
  rw [hs.freeBlocks]
  exact listRep_zero _

/-- The blocks in the free list and those the caller holds. -/
theorem Owned.split (h : Owned s free) : Split {b | b ∈ free} s.held s.gfx.live :=
  ⟨h.notHeld, h.freeLive, h.heldLive⟩

theorem owned_of_split (hrep : ListRep s.gfx.links s.gfx.pool.freeBlocks free)
    (h : Split {b | b ∈ free} s.held s.gfx.live) : Owned s free :=
  ⟨hrep, h.apart, h.storedLive, h.heldLive⟩

theorem Owned.deallocate (h : Owned s free) (hb : block ∈ s.held)
    (hc : CleanDeallocate s (.deallocate block)) :
    Owned ⟨shmPoolDeallocate s.gfx block, s.held.erase block⟩ (free ++ [block]) := by
  have hbfree : block ∉ free := fun hm => h.notHeld block hm hb
  refine owned_of_split (h.rep.push hbfree hc) (h.split.store hb fun b hm => ?_)
  simpa using hm

theorem Owned.sameBlocks (h : Owned s free) (hg : SameBlocks s.gfx g) :
    Owned ⟨g, s.held⟩ free := by
  obtain ⟨hrep, hnot, hfree, hheld⟩ := h
  refine ⟨?_, hnot, ?_, ?_⟩
  · simpa only [hg.links, hg.freeBlocks] using hrep
  · simpa only [hg.live] using hfree
  · simpa only [hg.live] using hheld

theorem Owned.reuse (h : Owned s (xs ++ block :: ys)) :
    Owned ⟨s.gfx.removeFree block, insert block s.held⟩ (xs ++ ys) := by
  have hn := h.rep.nodup
  rw [List.nodup_middle, List.nodup_cons] at hn
  have hmem : block ∈ xs ++ block :: ys := by simp
  refine owned_of_split h.rep.remove
    (h.split.take hmem (fun b hm => ⟨?_, ne_of_mem_of_not_mem hm hn.1⟩) fun b hm => ?_)
  · exact ((List.sublist_cons_self block ys).append_left xs).subset hm
  · exact Finset.mem_insert.mp hm

theorem Owned.create {ans : Answers} {width height stride : UsizeT w} (h : Owned s free)
    (hfresh : ans.malloc ∉ s.gfx.live) (hg : Created ans s.gfx width height stride g) :
    Owned ⟨g, insert ans.malloc s.held⟩ free := by
  refine owned_of_split ?_ ?_
  · simp only [hg.links, hg.freeBlocks]
    refine h.rep.congr fun b hb => Function.update_of_ne ?_ _ _
    exact ne_of_mem_of_not_mem (h.freeLive b hb) hfresh
  · simpa only [hg.live] using h.split.create hfresh

theorem owned_step (h : Owned s free) (hs : (poolSystem w).step s a t)
    (hheld : HeldDeallocate s a) (hc : CleanDeallocate s a) :
    ExclusiveCall s a ∧ ∃ free', Owned t free' := by
  cases hs with
  | deallocate => exact ⟨trivial, _, h.deallocate hheld hc⟩
  | @allocate _ ans _ _ _ _ _ hfresh hcall =>
    rcases (shmPoolAllocate_cases hcall).effect with
      ⟨rfl, hg⟩ | ⟨_, b, rfl, rfl, hfound⟩ | ⟨rfl, hg, _⟩
    · exact ⟨trivial, free, h.sameBlocks hg⟩
    · obtain ⟨xs, ys, rfl, _, _⟩ := lastOfShape_eq_some (h.rep.reuse hfound).symm
      exact ⟨h.notHeld b (by simp), xs ++ ys, h.reuse⟩
    · exact ⟨fun hm => hfresh (h.heldLive _ hm), free, h.create hfresh hg⟩

/-- In every run whose deallocations into an empty free list are of blocks with NULL link
words, no allocation returns a block that the caller holds. -/
theorem allocate_exclusive {tr : List (PoolState w × PoolCall w)}
    (h : (poolSystem w).Trace tr t) (hheld : ∀ x ∈ tr, HeldDeallocate x.1 x.2)
    (hc : ∀ x ∈ tr, CleanDeallocate x.1 x.2) : ∀ x ∈ tr, ExclusiveCall x.1 x.2 := by
  obtain ⟨s, hi, hr⟩ := h
  intro x hx
  have hok : ∀ y ∈ tr, HeldDeallocate y.1 y.2 ∧ CleanDeallocate y.1 y.2 :=
    fun y hy => ⟨hheld y hy, hc y hy⟩
  have hstep : ∀ s a t, (∃ free, Owned s free) → HeldDeallocate s a ∧ CleanDeallocate s a →
      (poolSystem w).step s a t → ∃ free, Owned t free :=
    fun _ _ _ ⟨_, hf⟩ hc hs => (owned_step hf hs hc.1 hc.2).2
  obtain ⟨⟨free, howned⟩, v, hs⟩ := hr.invariant_mem hok hstep ⟨[], owned_initial hi⟩ hx
  exact (owned_step howned hs (hok x hx).1 (hok x hx).2).1

/-! ## Runs that are carried out -/

/-- A call before it is answered. -/
inductive PoolOp (w : ℕ)
  | allocate (ans : Answers) (width height stride : UsizeT w)
  | deallocate (block : Addr)

/-- Carries out a call, if it is one that a run may make and it returns. -/
def poolExec (fuel : ℕ) (s : PoolState w) : PoolOp w → Option (PoolState w × PoolCall w)
  | .allocate ans width height stride =>
    if ans.malloc ∈ s.gfx.live then none
    else match shmPoolAllocate fuel ans s.gfx width height stride with
      | .ok (g, r) => some (⟨g, receive s.held r⟩, .allocate ans width height stride r)
      | .error _ => none
  | .deallocate block =>
    some (⟨shmPoolDeallocate s.gfx block, s.held.erase block⟩, .deallocate block)

theorem poolExec_step {fuel : ℕ} (s : PoolState w) (o : PoolOp w) (t : PoolState w)
    (a : PoolCall w) (h : poolExec fuel s o = some (t, a)) : (poolSystem w).step s a t := by
  cases o with
  | allocate ans width height stride =>
    simp only [poolExec] at h
    split at h
    · cases h
    · split at h
      · cases h
        exact .allocate (by assumption) (by assumption)
      · cases h
  | deallocate block =>
    cases h
    exact .deallocate

/-- The state after a successful `shm_pool_init`, over a heap whose link words are all NULL. -/
def startedPool (w : ℕ) (size : UsizeT w) : PoolState w where
  gfx := {
    pool := { ShmPoolS.zero w with
      poolData := some 4096, pool := some 1, poolCapacity := size, fd := 3, alive := true }
    links := fun _ => ⟨none, none⟩
    blocks := fun _ => ⟨0, 0, 0, 0, false⟩
    live := ∅
    os := (((Os.start w).shmOpen 3).ftruncate 3 size |>.mmap 4096 size).send
      (.wlShmCreatePool 3 size) }
  held := ∅

theorem startedPool_initial {size : UsizeT w} (hsize : 0 < size) :
    PoolInitial size (startedPool w size) := by
  refine ⟨rfl, ⟨some 3, true, some 4096, some 1⟩,
    { (startedPool w size).gfx with os := Os.start w }, rfl, ?_⟩
  have hpos : assert (decide (size > 0)) = .ok () :=
    assert_eq_ok.mpr (decide_eq_true hsize)
  simp only [shmPoolInit, hpos]
  rfl

/-- Answers under which every call succeeds, with fresh link words NULL. -/
def answersAt (block : Addr) : Answers where
  ftruncate := true
  mmap := some (8192 + block)
  createBuffer := some (10 + block)
  malloc := block
  words := ⟨none, none⟩

/-- Two blocks go out, back and out again, the second one goes back into the now empty free
list with a `prev` word that names the first, and is unlinked through it. -/
def staleOps : List (PoolOp 64) :=
  [.allocate (answersAt 0) 4 4 16, .allocate (answersAt 1) 4 4 16, .deallocate 0,
    .deallocate 1, .allocate (answersAt 2) 4 4 16, .allocate (answersAt 2) 4 4 16,
    .deallocate 1, .allocate (answersAt 2) 4 4 16, .allocate (answersAt 2) 4 4 16]

instance (s : PoolState w) (a : PoolCall w) : Decidable (ExclusiveCall s a) :=
  match a with
  | .allocate _ _ _ _ (some block) => inferInstanceAs (Decidable (block ∉ s.held))
  | .allocate _ _ _ _ none => isTrue trivial
  | .deallocate _ => isTrue trivial

instance (s : PoolState w) (a : PoolCall w) : Decidable (CleanDeallocate s a) :=
  match a with
  | .allocate _ _ _ _ _ => isTrue trivial
  | .deallocate block => inferInstanceAs (Decidable
      (s.gfx.pool.freeBlocks.tail = none → s.gfx.links block = ⟨none, none⟩))

instance (s : PoolState w) (a : PoolCall w) : Decidable (HeldDeallocate s a) :=
  match a with
  | .allocate _ _ _ _ _ => isTrue trivial
  | .deallocate block => inferInstanceAs (Decidable (block ∈ s.held))

/-- Carrying out calls from a started pool, with a check of what came of them, gives a run. -/
theorem executed_run (size : UsizeT 64) (ops : List (PoolOp 64))
    (p : List (PoolState 64 × PoolCall 64) → PoolState 64 → Bool)
    (h : ((execute (poolExec 9) (startedPool 64 size) ops).any fun out => p out.2 out.1) = true) :
    ∃ tr t, (poolSystem 64).Run (startedPool 64 size) tr t ∧ p tr t = true :=
  execute_any poolExec_step h

theorem executed_trace (size : UsizeT 64) (ops : List (PoolOp 64))
    (p : List (PoolState 64 × PoolCall 64) → PoolState 64 → Bool) (hsize : 0 < size)
    (h : ((execute (poolExec 9) (startedPool 64 size) ops).any fun out => p out.2 out.1) = true) :
    ∃ tr t, (poolSystem 64).Trace tr t ∧ p tr t = true := by
  obtain ⟨tr, t, hr, hp⟩ := executed_run size ops p h
  exact ⟨tr, t, ⟨_, ⟨size, startedPool_initial hsize⟩, hr⟩, hp⟩

/-- The first five calls of `staleOps` reuse a block and are clean. -/
theorem allocate_exclusive_reuse : ∃ tr t, (poolSystem 64).Trace tr t ∧ tr.length = 5 ∧
    ∀ x ∈ tr, ExclusiveCall x.1 x.2 := by
  obtain ⟨tr, t, htr, hp⟩ := executed_trace 4096 (staleOps.take 5)
    (fun tr _ => tr.length == 5 && tr.all fun x =>
      decide (HeldDeallocate x.1 x.2 ∧ CleanDeallocate x.1 x.2)) (by decide) (by decide)
  simp only [Bool.and_eq_true, beq_iff_eq, List.all_eq_true, decide_eq_true_eq] at hp
  exact ⟨tr, t, htr, hp.1, allocate_exclusive htr (fun x hx => (hp.2 x hx).1)
    fun x hx => (hp.2 x hx).2⟩

theorem allocate_exclusive_fails : ¬ ∀ tr (t : PoolState 64), (poolSystem 64).Trace tr t →
    (∀ x ∈ tr, HeldDeallocate x.1 x.2) → ∀ x ∈ tr, ExclusiveCall x.1 x.2 := by
  intro hf
  obtain ⟨tr, t, htr, hp⟩ := executed_trace 4096 staleOps
    (fun tr _ => (tr.all fun x => decide (HeldDeallocate x.1 x.2)) &&
      tr.any fun x => !decide (ExclusiveCall x.1 x.2)) (by decide) (by decide)
  simp only [Bool.and_eq_true, List.all_eq_true, decide_eq_true_eq, List.any_eq_true] at hp
  obtain ⟨hheld, x, hx, hbad⟩ := hp
  simp [hf tr t htr hheld x hx] at hbad

end Spaze
