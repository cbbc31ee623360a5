import Spaze.ListLoop
import Spaze.ListRep
import Spaze.Gfx

/-! The loops that hand the blocks of a chain back to the pool, and the one that frees them. -/
namespace Spaze

open Linked

variable {w : ℕ} {fuel : ℕ} {g g' : Gfx w} {sc sc' : SwapchainS w} {free xs chain : List Addr}
  {b : Addr} {newWidth newHeight : UsizeT w}

/-! ## Pushing while walking -/

/-- A push writes the `next` words of the new node and of the tail only. -/
theorem listPush_next {α : Type} [DecidableEq α] {m : Links α} {l : ListS α} {a b : α}
    (hba : b ≠ a) (hb : l.tail ≠ some b) : ((listPush m l a).1 b).next = (m b).next := by
  cases ht : l.tail with
  | none => simp [listPush, ht]
  | some t =>
    have hbt : b ≠ t := fun he => hb (by rw [ht, he])
    simp only [listPush, ht, listInsertAfter]
    split <;> simp [hba, hbt]

theorem listPush_tail {α : Type} [DecidableEq α] (m : Links α) (l : ListS α) (a : α) :
    (listPush m l a).2.tail = some a ∨ (listPush m l a).2.tail = l.tail := by
  cases ht : l.tail with
  | none => exact Or.inl (by simp [listPush, ht])
  | some t =>
    simp only [listPush, ht, listInsertAfter]
    split
    · exact Or.inr ht
    · exact Or.inl rfl

/-- `shm_pool_deallocate` of several blocks, one after another. -/
def deallocateAll (g : Gfx w) (blocks : List Addr) : Gfx w := blocks.foldl shmPoolDeallocate g

@[simp] theorem deallocateAll_nil : deallocateAll g [] = g := rfl

@[simp] theorem deallocateAll_cons :
    deallocateAll g (b :: xs) = deallocateAll (shmPoolDeallocate g b) xs := rfl

/-- Handing blocks back changes the links and the free list, nothing else. -/
theorem deallocateAll_eq (g : Gfx w) (xs : List Addr) : deallocateAll g xs =
    { g with
      links := (deallocateAll g xs).links
      pool := { g.pool with freeBlocks := (deallocateAll g xs).pool.freeBlocks } } := by
  induction xs generalizing g with
  | nil => rfl
  | cons x xs ih => exact ih (shmPoolDeallocate g x)

/-- The nodes ahead of a walk: linked in order up to NULL, no two the same, and none of them
one that the rounds so far may have touched. -/
structure Ahead {α : Type} (m : Links α) (Safe : α → Prop) (xs : List α) : Prop where
  linked : ∃ prev p, Seg (nexts m) prev p xs none
  nodup : xs.Nodup
  safe : ∀ x ∈ xs, Safe x

section Ahead

variable {α : Type} {m m' : Links α} {l : ListS α} {Safe Safe' : α → Prop} {x : α} {xs : List α}

theorem Ahead.of_listRep (h : ListRep m l xs) (hs : ∀ x ∈ xs, Safe x) : Ahead m Safe xs :=
  ⟨⟨_, _, h.seg⟩, h.nodup, hs⟩

theorem Ahead.next (h : Ahead m Safe (x :: xs)) : (m x).next = xs.head? := by
  obtain ⟨_, _, _, hx, _⟩ := h.linked
  simpa [nexts] using hx

/-- A round that only writes behind the nodes ahead leaves the rest of them ahead. -/
theorem Ahead.rest (h : Ahead m Safe (x :: xs))
    (hkeep : ∀ y, y ≠ x → Safe y → (m' y).next = (m y).next)
    (hsafe : ∀ y, y ≠ x → Safe y → Safe' y) : Ahead m' Safe' xs := by
  obtain ⟨prev, p, _, _, hrest⟩ := h.linked
  obtain ⟨hx, hn⟩ := List.nodup_cons.mp h.nodup
  have hne : ∀ y ∈ xs, y ≠ x := fun y hy => ne_of_mem_of_not_mem hy hx
  have hs : ∀ y ∈ xs, Safe y := fun y hy => h.safe y (List.mem_cons_of_mem x hy)
  refine ⟨⟨prev, some x, hrest.congr ?_ fun _ _ => rfl⟩, hn, ?_⟩
  · exact fun y hy => hkeep y (hne y hy) (hs y hy)
  · exact fun y hy => hsafe y (hne y hy) (hs y hy)

end Ahead

/-- What is ahead of the loop of `swapchain_resize` and `swapchain_deinit`: no push writes to
a block that is not the tail of the free list yet. -/
abbrev PushAhead (g : Gfx w) : List Addr → Prop :=
  Ahead g.links fun b => g.pool.freeBlocks.tail ≠ some b

theorem PushAhead.deallocate (h : PushAhead g (b :: xs)) :
    PushAhead (shmPoolDeallocate g b) xs := by
  apply h.rest
  · exact fun y hy ht => listPush_next hy ht
  · intro y hy ht he
    rcases listPush_tail g.links g.pool.freeBlocks b with hnew | hold
    · rw [shmPoolDeallocate, hnew] at he
      exact hy (Option.some.inj he).symm
    · rw [shmPoolDeallocate, hold] at he
      exact ht he

/-- The chain is ahead of the loop at its start, as the free list's tail is not in it. -/
theorem pushAhead_chain (hfree : ListRep g.links g.pool.freeBlocks free)
    (hchain : ListRep g.links sc.chain chain) (hd : free.Disjoint chain) : PushAhead g chain := by
  refine Ahead.of_listRep hchain fun b hb ht => ?_
  exact hd (List.mem_of_mem_getLast? (by rw [← hfree.tail, ht]; rfl)) hb

theorem linkNext_ahead {Safe : Addr → Prop} (h : Ahead g.links Safe (b :: xs)) :
    g.linkNext b = .ok xs.head? := by
  rw [Gfx.linkNext, h.next]

/-- Over a well formed chain the loop of `swapchain_resize` and `swapchain_deinit` ends after
one round for each block, and hands the blocks back in order. -/
theorem deallocateChain_walk (hfree : ListRep g.links g.pool.freeBlocks free)
    (hchain : ListRep g.links sc.chain chain) (hd : free.Disjoint chain) :
    deallocateChain fuel g sc.chain =
      if chain.length < fuel then .ok (deallocateAll g chain, none) else .error .fuel := by
  rw [deallocateChain, hchain.head]
  exact listForEach_walk (I := PushAhead) (fun _ _ _ => linkNext_ahead)
    (fun _ _ _ h => ⟨rfl, h.deallocate⟩) (pushAhead_chain hfree hchain hd)

theorem deallocateChain_eq (hfree : ListRep g.links g.pool.freeBlocks free)
    (hchain : ListRep g.links sc.chain chain) (hd : free.Disjoint chain)
    (hfuel : chain.length < fuel) :
    deallocateChain fuel g sc.chain = .ok (deallocateAll g chain, none) := by
  rw [deallocateChain_walk hfree hchain hd, if_pos hfuel]

theorem deallocateChain_ok {out : Gfx w × Option Unit}
    (hfree : ListRep g.links g.pool.freeBlocks free)
    (hchain : ListRep g.links sc.chain chain) (hd : free.Disjoint chain)
    (h : deallocateChain fuel g sc.chain = .ok out) : out = (deallocateAll g chain, none) := by
  rw [deallocateChain_walk hfree hchain hd] at h
  split at h
  · exact (Except.ok.inj h).symm
  · cases h

/-- A chain whose first block is clean, or that goes behind other free blocks, is appended
to the free list. -/
theorem ListRep.deallocateAll (h : ListRep g.links g.pool.freeBlocks free)
    (hn : (free ++ xs).Nodup)
    (hclean : free = [] → ∀ x, xs.head? = some x → Unlinked g.links x) :
    ListRep (deallocateAll g xs).links (deallocateAll g xs).pool.freeBlocks (free ++ xs) ∧
      ∀ x ∉ free ++ xs, (deallocateAll g xs).links x = g.links x := by
  induction xs generalizing g free with
  | nil => simpa using h
  | cons x xs ih =>
    have hn' : ((free ++ [x]) ++ xs).Nodup := by simpa using hn
    have hx : x ∉ free := fun hm => (List.nodup_append.mp hn).2.2 x hm x (by simp) rfl
    have hpush := h.push hx fun ht => hclean (h.tail_eq_none_iff.mp ht) x rfl
    obtain ⟨hrep, hframe⟩ := ih (g := shmPoolDeallocate g x) hpush hn' (by simp)
    refine ⟨by simpa using hrep, fun y hy => ?_⟩
    simp only [List.mem_append, List.mem_cons, not_or] at hy
    refine (hframe y ?_).trans (h.push_frame hy.1 hy.2.1)
    simp [hy]

/-- A stale tail: pushes go behind it for ever, as its `next` word is not NULL. -/
def StaleTail (g : Gfx w) (b : Addr) : Prop :=
  g.pool.freeBlocks.tail = some b ∧ (g.links b).next ≠ none

theorem StaleTail.deallocate (h : StaleTail g b) (x : Addr) :
    StaleTail (shmPoolDeallocate g x) b := by
  obtain ⟨ht, hn⟩ := h
  cases hb : (g.links b).next with
  | none => exact absurd hb hn
  | some n =>
    by_cases hx : b = x
    · subst x
      simp [StaleTail, shmPoolDeallocate, listPush, listInsertAfter, ht, hb]
    · simp [StaleTail, shmPoolDeallocate, listPush, listInsertAfter, ht, hb, hx]

theorem StaleTail.deallocateAll (h : StaleTail g b) (xs : List Addr) :
    StaleTail (deallocateAll g xs) b := by
  induction xs generalizing g with
  | nil => exact h
  | cons x xs ih => exact ih (h.deallocate x)

/-- A chain of two blocks or more that goes into an empty free list leaves no list of them:
the first block stays the tail. -/
theorem not_listRep_of_stale {a : Addr} (hfree : g.pool.freeBlocks.tail = none)
    (hchain : ListRep g.links sc.chain (a :: b :: xs)) :
    ¬ ListRep (deallocateAll g (a :: b :: xs)).links
      (deallocateAll g (a :: b :: xs)).pool.freeBlocks (a :: b :: xs) := by
  intro h
  have hmid : ListRep g.links sc.chain ([] ++ a :: b :: xs) := hchain
  have hnext : (g.links a).next = some b := hmid.next_mid
  have hstale : StaleTail (shmPoolDeallocate g a) a := by
    simp [StaleTail, shmPoolDeallocate, listPush, hfree, hnext]
  have htail := (hstale.deallocateAll (b :: xs)).1
  rw [← deallocateAll_cons, h.tail, List.getLast?_cons_cons] at htail
  have hn := h.nodup
  exact (List.nodup_cons.mp hn).1 (List.mem_of_mem_getLast? htail)

/-! ## Freeing while walking -/

/-- One round of the loop of `shm_pool_deinit`, over a block that is live. -/
def destroyBlock (g : Gfx w) (block : Addr) : Gfx w :=
  { g with
    os := g.os.send (.wlBufferDestroy (g.blocks block).buffer)
    live := g.live.erase block }

/-- Every block of the list destroyed and freed, once and in order. -/
def destroyAll (g : Gfx w) (blocks : List Addr) : Gfx w := blocks.foldl destroyBlock g

theorem destroyAll_eq (g : Gfx w) (xs : List Addr) : destroyAll g xs =
    { g with
      os := { g.os with requests :=
        g.os.requests ++ xs.map fun b => .wlBufferDestroy (g.blocks b).buffer }
      live := g.live.filter (· ∉ xs) } := by
  induction xs generalizing g with
  | nil => simp [destroyAll]
  | cons x xs ih =>
    change destroyAll (destroyBlock g x) xs = _
    rw [ih]
    simp only [destroyBlock, Os.send, List.map_cons, List.append_assoc, List.singleton_append]
    congr 1
    ext y
    simp only [Finset.mem_filter, Finset.mem_erase, List.mem_cons, not_or]
    tauto

/-- What is ahead of the loop of `shm_pool_deinit`: no round frees a block it has not come to. -/
abbrev LiveAhead (g : Gfx w) : List Addr → Prop := Ahead g.links fun b => b ∈ g.live

theorem LiveAhead.destroy (h : LiveAhead g (b :: xs)) : LiveAhead (destroyBlock g b) xs :=
  h.rest (fun _ _ _ => rfl) fun _ hy hlive => Finset.mem_erase.mpr ⟨hy, hlive⟩

theorem LiveAhead.liveNext (h : LiveAhead g (b :: xs)) : g.liveNext b = .ok xs.head? := by
  rw [Gfx.liveNext, if_pos (h.safe b List.mem_cons_self), linkNext_ahead h]

theorem LiveAhead.destroyBlock_ok (h : LiveAhead g (b :: xs)) :
    shmPoolDestroyBlock g b = .ok (destroyBlock g b, none) := by
  rw [shmPoolDestroyBlock, if_pos (h.safe b List.mem_cons_self)]
  rfl

/-- The loop of `shm_pool_deinit` reads and frees every block once, and none after it has
been freed. -/
theorem destroyChain_walk (hfree : ListRep g.links g.pool.freeBlocks free)
    (hlive : ∀ b ∈ free, b ∈ g.live) :
    listForEach Gfx.liveNext shmPoolDestroyBlock fuel g g.pool.freeBlocks.head =
      if free.length < fuel then .ok (destroyAll g free, none) else .error .fuel := by
  rw [hfree.head]
  exact listForEach_walk (I := LiveAhead) (fun _ _ _ h => h.liveNext)
    (fun _ _ _ h => ⟨h.destroyBlock_ok, h.destroy⟩) (Ahead.of_listRep hfree hlive)

/-- What `shm_pool_deinit` does to a pool whose free list is well formed. -/
theorem shmPoolDeinit_eq (halive : g.pool.alive = true)
    (hfree : ListRep g.links g.pool.freeBlocks free) (hlive : ∀ b ∈ free, b ∈ g.live)
    (hfuel : free.length < fuel) : ∃ g', shmPoolDeinit fuel g = .ok g' ∧
      g'.os.requests = g.os.requests ++
        free.map (fun b => .wlBufferDestroy (g.blocks b).buffer) ++
        [.wlShmPoolDestroy g.pool.pool] ∧
      g'.live = g.live.filter (· ∉ free) := by
  simp only [shmPoolDeinit, halive, destroyChain_walk hfree hlive, if_pos hfuel, Bind.bind,
    Except.bind]
  refine ⟨_, rfl, ?_, ?_⟩ <;> simp [destroyAll_eq, Os.send, Os.close, Os.munmap]

/-! ## Resizing and deinitialising a swapchain -/

/-- The blocks of the chain are behind the free ones, the chain is empty, and a following
`shm_pool_deinit` ends and destroys and frees each of the blocks once. -/
structure HandedBack (free chain : List Addr) (g' : Gfx w) (sc' : SwapchainS w) : Prop where
  rep : ListRep g'.links g'.pool.freeBlocks (free ++ chain)
  emptied : sc'.chain = ListS.zero
  deinit : ∃ fuel g'', shmPoolDeinit fuel g' = .ok g'' ∧
    g''.os.requests = g'.os.requests ++
      (free ++ chain).map (fun b => .wlBufferDestroy (g'.blocks b).buffer) ++
      [.wlShmPoolDestroy g'.pool.pool] ∧
    g''.live = g'.live.filter (· ∉ free ++ chain)

/-- A live pool and a live swapchain with well formed lists that share no block. -/
structure Ready (g : Gfx w) (sc : SwapchainS w) (free chain : List Addr) : Prop where
  freeRep : ListRep g.links g.pool.freeBlocks free
  chainRep : ListRep g.links sc.chain chain
  disjoint : free.Disjoint chain
  poolAlive : g.pool.alive = true
  alive : sc.alive = true
  live : ∀ b ∈ free ++ chain, b ∈ g.live

theorem Ready.deallocateAll_iff (h : Ready g sc free chain) (sc' : SwapchainS w)
    (hz : sc'.chain = ListS.zero) :
    HandedBack free chain (deallocateAll g chain) sc' ↔ free ≠ [] ∨ chain.length ≤ 1 := by
  constructor
  · intro hb
    by_contra hc
    simp only [ne_eq, not_or, not_not, not_le] at hc
    obtain ⟨rfl, hlen⟩ := hc
    have ht := h.freeRep.tail_eq_none_iff.mpr rfl
    rcases chain with _ | ⟨a, _ | ⟨b, rest⟩⟩
    · cases hlen
    · exact absurd hlen (Nat.lt_irrefl 1)
    · exact not_listRep_of_stale ht h.chainRep hb.rep
  · intro hc
    have hn : (free ++ chain).Nodup :=
      List.nodup_append.mpr ⟨h.freeRep.nodup, h.chainRep.nodup, fun a ha b hb he =>
        h.disjoint ha (he ▸ hb)⟩
    have hclean : free = [] → ∀ x, chain.head? = some x → Unlinked g.links x := by
      intro hfree x hx
      rcases hc with hc | hc
      · exact absurd hfree hc
      · obtain ⟨rest, rfl⟩ := List.head?_eq_some_iff.mp hx
        obtain rfl : rest = [] := by simpa using hc
        exact h.chainRep.unlinked
    have hrep := (h.freeRep.deallocateAll hn hclean).1
    have heq := deallocateAll_eq g chain
    have halive : (deallocateAll g chain).pool.alive = true := by
      rw [heq]
      exact h.poolAlive
    have hlive : ∀ b ∈ free ++ chain, b ∈ (deallocateAll g chain).live := by
      rw [heq]
      exact h.live
    obtain ⟨g'', hd⟩ := shmPoolDeinit_eq halive hrep hlive (Nat.lt_succ_self _)
    exact ⟨hrep, hz, _, g'', hd⟩

/-- What `swapchain_resize` to another size does. -/
theorem swapchainResize_ok (hfree : ListRep g.links g.pool.freeBlocks free)
    (hchain : ListRep g.links sc.chain chain) (hd : free.Disjoint chain)
    (hsize : ¬ (sc.width = newWidth ∧ sc.height = newHeight))
    (h : swapchainResize fuel g sc newWidth newHeight = .ok (g', sc')) :
    g' = deallocateAll g chain ∧
      sc' = { sc with chain := ListS.zero, width := newWidth, height := newHeight } := by
  simp only [swapchainResize, bind_eq_ok, if_neg hsize] at h
  obtain ⟨_, _, out, hloop, h⟩ := h
  rw [deallocateChain_ok hfree hchain hd hloop] at h
  cases h
  exact ⟨rfl, rfl⟩

theorem swapchainDeinit_ok (hfree : ListRep g.links g.pool.freeBlocks free)
    (hchain : ListRep g.links sc.chain chain) (hd : free.Disjoint chain) (halive : sc.alive = true)
    (h : swapchainDeinit fuel g sc = .ok (g', sc')) :
    g' = deallocateAll g chain ∧ sc' = { sc with chain := ListS.zero, alive := false } := by
  simp only [swapchainDeinit, halive, Bool.not_true, Bool.false_eq_true, if_false, bind_eq_ok] at h
  obtain ⟨out, hloop, h⟩ := h
  rw [deallocateChain_ok hfree hchain hd hloop] at h
  cases h
  exact ⟨rfl, rfl⟩

/-- `swapchain_resize` to another size and `swapchain_deinit` hand the chain back exactly
when the free list is not empty or the chain has at most one block. -/
theorem handedBack_iff (h : Ready g sc free chain)
    (hsize : ¬ (sc.width = newWidth ∧ sc.height = newHeight)) :
    ((∃ fuel g' sc', swapchainResize fuel g sc newWidth newHeight = .ok (g', sc') ∧
        HandedBack free chain g' sc') ↔ free ≠ [] ∨ chain.length ≤ 1) ∧
      ((∃ fuel g' sc', swapchainDeinit fuel g sc = .ok (g', sc') ∧
        HandedBack free chain g' sc') ↔ free ≠ [] ∨ chain.length ≤ 1) := by
  have hloop := deallocateChain_eq h.freeRep h.chainRep h.disjoint (Nat.lt_succ_self _)
  constructor
  · constructor
    · rintro ⟨fuel, g', sc', hcall, hb⟩
      obtain ⟨rfl, rfl⟩ := swapchainResize_ok h.freeRep h.chainRep h.disjoint hsize hcall
      exact (h.deallocateAll_iff _ rfl).mp hb
    · intro hc
      have hb := (h.deallocateAll_iff { sc with
        chain := ListS.zero, width := newWidth, height := newHeight } rfl).mpr hc
      refine ⟨chain.length + 1, _, _, ?_, hb⟩
      simp only [swapchainResize, h.alive, if_neg hsize, hloop]
      rfl
  · constructor
    · rintro ⟨fuel, g', sc', hcall, hb⟩
      obtain ⟨rfl, rfl⟩ := swapchainDeinit_ok h.freeRep h.chainRep h.disjoint h.alive hcall
      exact (h.deallocateAll_iff _ rfl).mp hb
    · intro hc
      have hb := (h.deallocateAll_iff { sc with chain := ListS.zero, alive := false } rfl).mpr hc
      refine ⟨chain.length + 1, _, _, ?_, hb⟩
      simp only [swapchainDeinit, h.alive, hloop]
      rfl

/-- A live pool with this free list, and the blocks 1 and 2 linked to a chain. -/
def twoInChain (freeBlocks : ListS Addr) : Gfx 64 where
  pool := { ShmPoolS.zero 64 with freeBlocks := freeBlocks, alive := true }
  links b := if b = 1 then ⟨some 2, none⟩ else if b = 2 then ⟨none, some 1⟩ else ⟨none, none⟩
  blocks b := ⟨b, 4, 4, 16, false⟩
  live := {0, 1, 2}
  os := ⟨fun _ => none, [], []⟩

def twoChain : SwapchainS 64 := ⟨4, 4, ⟨some 1, some 2⟩, true⟩

theorem ready_twoInChain {l : ListS Addr} (h : ListRep (twoInChain l).links l free)
    (hfree : ∀ b ∈ free, b = 0) : Ready (twoInChain l) twoChain free [1, 2] := by
  refine ⟨h, ⟨⟨rfl, rfl, rfl, rfl, trivial⟩, rfl, rfl⟩, ?_, rfl, rfl, ?_⟩
  · intro b hb hc
    rw [hfree b hb] at hc
    simp at hc
  · intro b hb
    rcases List.mem_append.mp hb with hb | hb
    · simp [twoInChain, hfree b hb]
    · simp only [List.mem_cons, List.not_mem_nil, or_false] at hb
      rcases hb with rfl | rfl <;> simp [twoInChain]

/-- Behind the free block 0 both blocks of the chain are appended. -/
theorem handedBack_behind : ∃ fuel g' sc',
    swapchainResize fuel (twoInChain ⟨some 0, some 0⟩) twoChain 8 8 = .ok (g', sc') ∧
      HandedBack [0] [1, 2] g' sc' := by
  have hfree : ListRep (twoInChain ⟨some 0, some 0⟩).links ⟨some 0, some 0⟩ [0] :=
    ⟨⟨rfl, rfl, trivial⟩, rfl, rfl⟩
  exact (handedBack_iff (ready_twoInChain hfree (by simp)) (by decide)).1.mpr (Or.inl (by simp))

/-- Into the empty free list the chain of two does not go back as a list. -/
theorem handedBack_fails : ¬ ∀ (g : Gfx 64) sc free chain newWidth newHeight,
    Ready g sc free chain → ¬ (sc.width = newWidth ∧ sc.height = newHeight) →
    ∃ fuel g' sc', swapchainResize fuel g sc newWidth newHeight = .ok (g', sc') ∧
      HandedBack free chain g' sc' := by
  intro hf
  have hready := ready_twoInChain (listRep_zero _) (by simp)
  have hsize : ¬ (twoChain.width = 8 ∧ twoChain.height = 8) := by decide
  obtain ⟨fuel, g', sc', hcall, hb⟩ := hf _ _ _ _ 8 8 hready hsize
  obtain ⟨rfl, _⟩ := swapchainResize_ok hready.freeRep hready.chainRep hready.disjoint hsize hcall
  exact not_listRep_of_stale rfl hready.chainRep hb.rep

end Spaze
