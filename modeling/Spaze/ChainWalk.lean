import Spaze.SwapchainReturn

/-! The loops that relink and free the blocks they walk over: what they visit, write and read. -/
namespace Spaze

variable {w : ℕ} {fuel : ℕ} {g g' : Gfx w} {sc : SwapchainS w} {free chain xs ys : List Addr}
  {b : Addr} {newWidth newHeight : UsizeT w}

/-! ## Handing back -/

/-- The loop of `swapchain_resize` and `swapchain_deinit`, with a log of the blocks that
`shm_pool_deallocate` is called with. -/
def deallocateChainLogged (fuel : ℕ) (g : Gfx w) (chain : ListS Addr) :
    Except Stop ((Gfx w × List Addr) × Option Unit) :=
  listForEachLogged Gfx.linkNext (fun g block => .ok (shmPoolDeallocate g block, none)) fuel g
    chain.head

theorem deallocateChainLogged_unlogged (l : ListS Addr) :
    unlogged (deallocateChainLogged fuel g l) = deallocateChain fuel g l :=
  listForEachLogged_unlogged l.head

/-- The log is the chain: one call for each block, in chain order. -/
theorem deallocateChainLogged_walk (hfree : ListRep g.links g.pool.freeBlocks free)
    (hchain : ListRep g.links sc.chain chain) (hd : free.Disjoint chain) :
    deallocateChainLogged fuel g sc.chain =
      if chain.length < fuel then .ok ((deallocateAll g chain, chain), none)
      else .error .fuel := by
  rw [deallocateChainLogged, hchain.head]
  exact listForEachLogged_walk (I := PushAhead) (fun _ _ _ => linkNext_ahead)
    (fun _ _ _ h => ⟨rfl, h.deallocate⟩) (pushAhead_chain hfree hchain hd)

/-- A push writes the words of the new node, of the tail and of the node behind the tail. -/
theorem listPush_words {α : Type} [DecidableEq α] {m : Links α} {l : ListS α} {a b : α}
    (ha : l.tail ≠ some a) (hba : b ≠ a) (hb : l.tail ≠ some b)
    (hn : ∀ t, l.tail = some t → (m t).next ≠ some b) : (listPush m l a).1 b = m b := by
  cases ht : l.tail with
  | none => simp [listPush, ht]
  | some t =>
    have hta : t ≠ a := fun he => ha (by rw [ht, he])
    have hbt : b ≠ t := fun he => hb (by rw [ht, he])
    cases hnext : (m t).next with
    | none =>
      simp [listPush, listInsertAfter, Links.setNext, Links.setPrev, ht, hnext, hta, hba, hbt]
    | some n =>
      have hbn : b ≠ n := fun he => hn t ht (by rw [hnext, he])
      simp [listPush, listInsertAfter, Links.setNext, Links.setPrev, ht, hnext, hta, hba, hbt, hbn]

/-- Behind the tail of a list is, after a push, NULL, the new node, or what a stale word of
the new node led to before. -/
theorem listPush_tail_next {α : Type} [DecidableEq α] {m : Links α} {l : ListS α} {a t n : α}
    (ha : l.tail ≠ some a) (ht : (listPush m l a).2.tail = some t)
    (hn : ((listPush m l a).1 t).next = some n) : n = a ∨ (m a).next = some n := by
  cases hold : l.tail with
  | none =>
    simp only [listPush, hold, Option.some.injEq] at ht hn
    subst t
    exact Or.inr hn
  | some t' =>
    have hta : t' ≠ a := fun he => ha (by rw [hold, he])
    cases hnext : (m t').next with
    | none =>
      simp only [listPush, listInsertAfter, hold, hnext, setPrev_next, setNext_next, if_neg hta,
        Option.some.injEq] at ht hn
      subst t
      simp [hta.symm] at hn
    | some n' =>
      simp only [listPush, listInsertAfter, hold, hnext, setPrev_next, setNext_next, if_neg hta,
        Option.some.injEq] at ht hn
      subst t
      exact Or.inl (by simpa using hn.symm)

/-- The free list's tail leads to no block ahead of the walk but the one it comes to next. -/
def TailBehind (g : Gfx w) (xs : List Addr) : Prop :=
  ∀ t n, g.pool.freeBlocks.tail = some t → (g.links t).next = some n → n ∉ xs.tail

theorem PushAhead.words (h : PushAhead g (b :: xs)) (hb : TailBehind g (b :: xs)) :
    ∀ x ∈ xs, (shmPoolDeallocate g b).links x = g.links x := by
  intro x hx
  have hne : x ≠ b := ne_of_mem_of_not_mem hx (List.nodup_cons.mp h.nodup).1
  have hsafe := h.safe x (List.mem_cons_of_mem b hx)
  exact listPush_words (h.safe b List.mem_cons_self) hne hsafe fun t ht hn => hb t x ht hn hx

theorem TailBehind.deallocate (h : PushAhead g (b :: xs)) :
    TailBehind (shmPoolDeallocate g b) xs := by
  intro t n ht hn hmem
  obtain ⟨hbx, hnodup⟩ := List.nodup_cons.mp h.nodup
  rcases listPush_tail_next (h.safe b List.mem_cons_self) ht hn with rfl | hstale
  · exact hbx (List.mem_of_mem_tail hmem)
  · rw [h.next] at hstale
    obtain ⟨ys, rfl⟩ := List.head?_eq_some_iff.mp hstale
    exact (List.nodup_cons.mp hnodup).1 hmem

/-- No push writes a word of a block that the loop has not come to. -/
theorem deallocateAll_words (h : PushAhead g (xs ++ ys)) (hb : TailBehind g (xs ++ ys)) :
    ∀ y ∈ ys, (deallocateAll g xs).links y = g.links y := by
  induction xs generalizing g with
  | nil => exact fun _ _ => rfl
  | cons x xs ih =>
    intro y hy
    rw [deallocateAll_cons, ih h.deallocate (TailBehind.deallocate h) y hy]
    exact h.words hb y (List.mem_append_right xs hy)

theorem ListRep.tailBehind (h : ListRep g.links g.pool.freeBlocks free) (xs : List Addr) :
    TailBehind g xs := by
  intro t n ht hn
  obtain ⟨ys, rfl⟩ := h.concat_of_tail ht
  rw [h.next_last] at hn
  cases hn

/-- `swapchain_resize` to another size, whatever the fuel of its loop. -/
theorem swapchainResize_walk (hfree : ListRep g.links g.pool.freeBlocks free)
    (hchain : ListRep g.links sc.chain chain) (hd : free.Disjoint chain) (halive : sc.alive = true)
    (hsize : ¬ (sc.width = newWidth ∧ sc.height = newHeight)) :
    swapchainResize fuel g sc newWidth newHeight =
      if chain.length < fuel then .ok (deallocateAll g chain,
        { sc with chain := ListS.zero, width := newWidth, height := newHeight })
      else .error .fuel := by
  simp only [swapchainResize, halive, if_neg hsize, deallocateChain_walk hfree hchain hd]
  split <;> rfl

theorem swapchainDeinit_walk (hfree : ListRep g.links g.pool.freeBlocks free)
    (hchain : ListRep g.links sc.chain chain) (hd : free.Disjoint chain)
    (halive : sc.alive = true) : swapchainDeinit fuel g sc =
      if chain.length < fuel then
        .ok (deallocateAll g chain, { sc with chain := ListS.zero, alive := false })
      else .error .fuel := by
  simp only [swapchainDeinit, halive, Bool.not_true, Bool.false_eq_true, if_false,
    deallocateChain_walk hfree hchain hd]
  split <;> rfl

/-! ## Freeing -/

/-- The read `link->next`, with the blocks freed so far: of one of them it is a fault. -/
def freedNext (s : Gfx w × List Addr) (link : Addr) : Except Stop (Option Addr) :=
  if link ∈ s.2 then .error .fault else s.1.linkNext link

/-- The body of the loop of `shm_pool_deinit`, with the blocks freed so far: it reads the
block, unless that is one of them, and frees it. -/
def destroyUnfreed (s : Gfx w × List Addr) (block : Addr) :
    Except Stop ((Gfx w × List Addr) × Option Unit) :=
  if block ∈ s.2 then .error .fault else .ok ((destroyBlock s.1 block, s.2 ++ [block]), none)

/-- The loop of `shm_pool_deinit`, which only asks that no block is read after it freed it. -/
def destroyChainFreed (fuel : ℕ) (g : Gfx w) :
    Except Stop ((Gfx w × List Addr) × Option Unit) :=
  listForEach freedNext destroyUnfreed fuel (g, []) g.pool.freeBlocks.head

/-- What is ahead of that loop: blocks that it has not freed. -/
abbrev UnfreedAhead (s : Gfx w × List Addr) : List Addr → Prop :=
  Ahead s.1.links fun b => b ∉ s.2

variable {s : Gfx w × List Addr}

theorem UnfreedAhead.freedNext (h : UnfreedAhead s (b :: xs)) : freedNext s b = .ok xs.head? := by
  rw [Spaze.freedNext, if_neg (h.safe b List.mem_cons_self), linkNext_ahead h]

theorem UnfreedAhead.destroy (h : UnfreedAhead s (b :: xs)) :
    UnfreedAhead (destroyBlock s.1 b, s.2 ++ [b]) xs := by
  refine h.rest (fun _ _ _ => rfl) fun y hy hs => ?_
  simp [hs, hy]

theorem UnfreedAhead.destroyUnfreed_ok (h : UnfreedAhead s (b :: xs)) :
    destroyUnfreed s b = .ok ((destroyBlock s.1 b, s.2 ++ [b]), none) := by
  rw [destroyUnfreed, if_neg (h.safe b List.mem_cons_self)]

/-- Over a well formed free list the loop reads no block after it has freed it. -/
theorem destroyChainFreed_walk (hfree : ListRep g.links g.pool.freeBlocks free) :
    destroyChainFreed fuel g =
      if free.length < fuel then .ok ((destroyAll g free, free), none) else .error .fuel := by
  have hahead : UnfreedAhead (g, []) free := Ahead.of_listRep hfree (by simp)
  rw [destroyChainFreed, hfree.head, listForEach_walk (I := UnfreedAhead)
    (fun _ _ _ h => h.freedNext) (fun _ _ _ h => ⟨h.destroyUnfreed_ok, h.destroy⟩) hahead,
    foldl_logged, List.nil_append, destroyAll]

/-- Over a free list of live blocks `shm_pool_deinit` reads and frees live blocks only. -/
theorem shmPoolDeinit_ne_fault (hfree : ListRep g.links g.pool.freeBlocks free)
    (hlive : ∀ b ∈ free, b ∈ g.live) : shmPoolDeinit fuel g ≠ .error .fault := by
  intro h
  rw [shmPoolDeinit] at h
  split at h
  · cases h
  · rw [destroyChain_walk hfree hlive] at h
    split at h <;> cases h

/-! ## Both loops -/

/-- Over a well formed chain and free list without a common block, the loops of
`swapchain_resize` and `swapchain_deinit` end after one round for each block of the chain, and
hand each back once, in chain order. No round writes to a block that is still ahead. The loop
of `shm_pool_deinit` reads no block after it has freed it. -/
theorem chain_walked_once (hfree : ListRep g.links g.pool.freeBlocks free)
    (hchain : ListRep g.links sc.chain chain) (hd : free.Disjoint chain) (fuel : ℕ)
    (newWidth newHeight : UsizeT w) :
    (chain.Nodup ∧
      unlogged (deallocateChainLogged fuel g sc.chain) = deallocateChain fuel g sc.chain ∧
      deallocateChainLogged fuel g sc.chain =
        (if chain.length < fuel then .ok ((deallocateAll g chain, chain), none)
        else .error .fuel) ∧
      ∀ visited ahead, chain = visited ++ ahead →
        ∀ b ∈ ahead, (deallocateAll g visited).links b = g.links b) ∧
    (sc.alive = true → ¬ (sc.width = newWidth ∧ sc.height = newHeight) →
      swapchainResize fuel g sc newWidth newHeight =
        if chain.length < fuel then .ok (deallocateAll g chain,
          { sc with chain := ListS.zero, width := newWidth, height := newHeight })
        else .error .fuel) ∧
    (sc.alive = true → swapchainDeinit fuel g sc =
      if chain.length < fuel then
        .ok (deallocateAll g chain, { sc with chain := ListS.zero, alive := false })
      else .error .fuel) ∧
    destroyChainFreed fuel g =
      (if free.length < fuel then .ok ((destroyAll g free, free), none) else .error .fuel) ∧
    ((∀ b ∈ free, b ∈ g.live) → shmPoolDeinit fuel g ≠ .error .fault) := by
  have hahead := pushAhead_chain hfree hchain hd
  refine ⟨⟨hchain.nodup, deallocateChainLogged_unlogged _,
    deallocateChainLogged_walk hfree hchain hd, ?_⟩,
    swapchainResize_walk hfree hchain hd, swapchainDeinit_walk hfree hchain hd,
    destroyChainFreed_walk hfree, shmPoolDeinit_ne_fault hfree⟩
  rintro visited ahead rfl
  exact deallocateAll_words hahead (hfree.tailBehind _)

/-- Two blocks go into an empty free list, where the first of them is a tail that still leads
to the second, and behind a free block. -/
theorem chain_walked_stale :
    (deallocateChainLogged 3 (twoInChain ListS.zero) twoChain.chain =
        .ok ((deallocateAll (twoInChain ListS.zero) [1, 2], [1, 2]), none) ∧
      swapchainResize 3 (twoInChain ListS.zero) twoChain 8 8 =
        .ok (deallocateAll (twoInChain ListS.zero) [1, 2], ⟨8, 8, ListS.zero, true⟩)) ∧
    swapchainDeinit 3 (twoInChain ⟨some 0, some 0⟩) twoChain =
        .ok (deallocateAll (twoInChain ⟨some 0, some 0⟩) [1, 2], ⟨4, 4, ListS.zero, false⟩) ∧
    destroyChainFreed 3 (twoInChain ⟨some 0, some 0⟩) =
        .ok ((destroyAll (twoInChain ⟨some 0, some 0⟩) [0], [0]), none) := by
  have hfree : ListRep (twoInChain ⟨some 0, some 0⟩).links ⟨some 0, some 0⟩ [0] :=
    ⟨⟨rfl, rfl, trivial⟩, rfl, rfl⟩
  have hempty := ready_twoInChain (listRep_zero _) (by simp)
  have hbehind := ready_twoInChain hfree (by simp)
  obtain ⟨⟨_, _, hlog, _⟩, hresize, _⟩ :=
    chain_walked_once hempty.freeRep hempty.chainRep hempty.disjoint 3 8 8
  obtain ⟨_, _, hdeinit, hfreed, _⟩ :=
    chain_walked_once hbehind.freeRep hbehind.chainRep hbehind.disjoint 3 8 8
  exact ⟨⟨hlog, hresize rfl (by decide)⟩, hdeinit rfl, hfreed⟩

end Spaze
