import Mathlib.Data.List.Chain
import Spaze.BlockLeaks
import Spaze.ListSplice

/-!
Deinit of swapchains and then of the pool. A chain of two blocks or more that goes into an empty
free list leaves a list that leads back into itself.
-/
namespace Spaze

open Linked Runs

variable {w : ℕ} {ι : Type} [DecidableEq ι]

/-- `swapchain_deinit` of these swapchains, one after another. -/
def swapchainDeinits (fuel : ℕ) (s : SwapState ι w) : List ι → Except Stop (SwapState ι w)
  | [] => .ok s
  | k :: ks => do
    let (g, sc) ← swapchainDeinit fuel s.gfx (s.swapchains k)
    let s := { s with gfx := g, swapchains := Function.update s.swapchains k sc }
    swapchainDeinits fuel s ks

/-- These swapchains are deinited, and then the pool. -/
def teardown (fuel : ℕ) (s : SwapState ι w) (ks : List ι) : Except Stop (Gfx w) := do
  let s ← swapchainDeinits fuel s ks
  shmPoolDeinit fuel s.gfx

/-- A swapchain that has blocks to hand back. -/
def Hands (s : SwapState ι w) (k : ι) : Bool :=
  (s.swapchains k).alive && (s.swapchains k).chain.head.isSome

/-- The free list is empty, and the first of the swapchains that hands blocks back has two or
more of them. -/
def Stranded (s : SwapState ι w) (ks : List ι) : Prop :=
  s.gfx.pool.freeBlocks.head = none ∧
    ∃ k ∈ ks.find? (Hands s), (s.swapchains k).chain.head ≠ (s.swapchains k).chain.tail

/-! ## A loop that comes to a node it cannot read -/

section Stop

variable {α σ β : Type} {advance : σ → α → Except Stop (Option α)}
  {body : σ → α → Except Stop (σ × Option β)} {I : σ → List α → Prop} {step : σ → α → σ}
  {s : σ} {x y : α} {xs : List α} {fuel : ℕ} {e : Stop}

/-- The last node of the sequence leads to one that cannot be read once the others have been
visited. -/
theorem listForEachFrom_stops
    (hnext : ∀ s x xs, I s (x :: xs) → advance s x = .ok (xs.head?.or (some y)))
    (hbody : ∀ s x xs, I s (x :: xs) → body s x = .ok (step s x, none) ∧ I (step s x) xs)
    (hstop : ∀ s, I s [] → advance s y = .error e) (h : I s (x :: xs)) :
    listForEachFrom advance body fuel s (some x) (xs.head?.or (some y)) =
      if xs.length < fuel then .error e else .error .fuel := by
  induction xs generalizing s x fuel with
  | nil =>
    cases fuel with
    | zero => rfl
    | succ fuel =>
      obtain ⟨hround, hrest⟩ := hbody s x [] h
      simp only [List.head?_nil, Option.none_or, listForEachFrom, hround, Bind.bind, Except.bind,
        linkAfter, hstop _ hrest, List.length_nil, Nat.zero_lt_succ, if_true]
  | cons z zs ih =>
    cases fuel with
    | zero => rfl
    | succ fuel =>
      obtain ⟨hround, hrest⟩ := hbody s x (z :: zs) h
      simp only [List.head?_cons, Option.some_or, listForEachFrom, hround, Bind.bind, Except.bind,
        linkAfter, hnext _ _ _ hrest, List.length_cons, Nat.add_lt_add_iff_right]
      exact ih hrest

theorem listForEach_stops
    (hnext : ∀ s x xs, I s (x :: xs) → advance s x = .ok (xs.head?.or (some y)))
    (hbody : ∀ s x xs, I s (x :: xs) → body s x = .ok (step s x, none) ∧ I (step s x) xs)
    (hstop : ∀ s, I s [] → advance s y = .error e) (h : I s (x :: xs)) :
    listForEach advance body fuel s (some x) =
      if xs.length < fuel then .error e else .error .fuel := by
  rw [listForEach, linkAfter, hnext s x xs h]
  exact listForEachFrom_stops hnext hbody hstop h

end Stop

/-! ## The list that leads back into itself -/

variable {g : Gfx w} {a b x : Addr} {xs ys : List Addr} {fuel : ℕ}

/-- The `next` words lead from each block of the sequence to the one behind it. -/
abbrev NextChain (m : Links Addr) (xs : List Addr) : Prop :=
  xs.IsChain fun x y => (m x).next = some y

/-- The head and the tail are `a`, from which the `next` words lead along `ys` to `b`, and from
`b` to itself. -/
structure Looped (g : Gfx w) (a b : Addr) (ys : List Addr) : Prop where
  list : g.pool.freeBlocks = ⟨some a, some a⟩
  chain : NextChain g.links (a :: ys ++ [b])
  loop : (g.links b).next = some b

/-- A push behind a tail that already leads on goes between the two, and leaves the list. -/
theorem listPush_between {m : Links Addr} {l : ListS Addr} {n : Addr} (ht : l.tail = some a)
    (hn : (m a).next = some n) (hx : x ≠ a) : (listPush m l x).2 = l ∧ ∀ y,
      ((listPush m l x).1 y).next =
        if y = a then some x else if y = x then some n else (m y).next := by
  have ha : a ≠ x := hx.symm
  simp [listPush, listInsertAfter, ht, hn, ha]

/-- The first two blocks that go into the empty list make the loop. -/
theorem looped_second (hfree : g.pool.freeBlocks = ListS.zero)
    (hnext : (g.links a).next = some b) (hab : b ≠ a) :
    Looped (shmPoolDeallocate (shmPoolDeallocate g a) b) a b [] := by
  have hfirst : listPush g.links g.pool.freeBlocks a = (g.links, ⟨some a, some a⟩) := by
    rw [hfree]
    rfl
  obtain ⟨hlist, hwords⟩ := listPush_between (l := ⟨some a, some a⟩) rfl hnext hab
  constructor
  · simp only [shmPoolDeallocate, hfirst, hlist]
  · simp [shmPoolDeallocate, hfirst, hwords]
  · simp [shmPoolDeallocate, hfirst, hwords, hab]

/-- The others go between `a` and those that went in before. -/
theorem Looped.deallocate (h : Looped g a b ys) (hx : x ∉ a :: ys ++ [b])
    (ha : a ∉ ys ++ [b]) : Looped (shmPoolDeallocate g x) a b (x :: ys) := by
  obtain ⟨hlist, hchain, hloop⟩ := h
  obtain ⟨n, zs, hzs⟩ : ∃ n zs, ys ++ [b] = n :: zs := List.exists_cons_of_ne_nil (by simp)
  have hmem : ∀ y ∈ ys ++ [b], y ≠ a ∧ y ≠ x := by
    intro y hy
    refine ⟨ne_of_mem_of_not_mem hy ha, ne_of_mem_of_not_mem hy fun hm => hx ?_⟩
    simp only [List.cons_append, List.mem_cons]
    exact Or.inr hm
  have hxa : x ≠ a := fun he => hx (by simp [he])
  rw [List.cons_append, hzs, NextChain, List.isChain_cons_cons] at hchain
  obtain ⟨hlist', hwords⟩ := listPush_between (l := g.pool.freeBlocks) (by rw [hlist])
    hchain.1 hxa
  constructor
  · exact hlist'.trans hlist
  · simp only [NextChain, List.cons_append, hzs, List.isChain_cons_cons]
    refine ⟨?_, ?_, ?_⟩
    · simp [shmPoolDeallocate, hwords]
    · simp [shmPoolDeallocate, hwords, hxa]
    · apply hchain.2.imp_of_mem_imp
      intro y z hy _ hyz
      obtain ⟨hya, hyx⟩ := hmem y (hzs ▸ hy)
      simpa [shmPoolDeallocate, hwords, hya, hyx] using hyz
  · obtain ⟨hba, hbx⟩ := hmem b (by simp)
    simpa [shmPoolDeallocate, hwords, hba, hbx] using hloop

theorem Looped.deallocateAll (h : Looped g a b ys) (hn : (a :: ys ++ [b] ++ xs).Nodup) :
    Looped (deallocateAll g xs) a b (xs.reverse ++ ys) := by
  induction xs generalizing g ys with
  | nil => exact h
  | cons x xs ih =>
    have hx : x ∉ a :: ys ++ [b] := fun hm =>
      (List.nodup_append.mp hn).2.2 x hm x List.mem_cons_self rfl
    have ha : a ∉ ys ++ [b] := by
      have hfront := (List.nodup_append.mp hn).1
      exact (List.nodup_cons.mp hfront).1
    have hperm : (a :: ys ++ [b] ++ x :: xs).Perm (a :: (x :: ys) ++ [b] ++ xs) :=
      List.perm_middle.trans (List.Perm.swap a x (ys ++ [b] ++ xs))
    have hnext := ih (h.deallocate hx ha) (hperm.nodup hn)
    simpa using hnext

/-! ## Freeing along the loop -/

/-- What is ahead of the loop of `shm_pool_deinit`, which ends at `b`. -/
structure LoopAhead (b : Addr) (g : Gfx w) (xs : List Addr) : Prop where
  chain : NextChain g.links (xs ++ [b])
  nodup : xs.Nodup
  live : ∀ x ∈ xs, x ∈ g.live
  last : xs = [] → b ∉ g.live
  ends : xs ≠ [] → xs.getLast? = some b

theorem LoopAhead.liveNext (h : LoopAhead b g (x :: xs)) :
    g.liveNext x = .ok (xs.head?.or (some b)) := by
  rw [Gfx.liveNext, if_pos (h.live x List.mem_cons_self), Gfx.linkNext]
  have hchain := h.chain
  cases xs with
  | nil =>
    simp only [List.nil_append, List.cons_append, List.isChain_cons_cons] at hchain
    rw [hchain.1]
    rfl
  | cons y ys =>
    simp only [List.cons_append, List.isChain_cons_cons] at hchain
    rw [hchain.1]
    rfl

theorem LoopAhead.destroy (h : LoopAhead b g (x :: xs)) :
    shmPoolDestroyBlock g x = .ok (destroyBlock g x, none) ∧
      LoopAhead b (destroyBlock g x) xs := by
  obtain ⟨hx, hn⟩ := List.nodup_cons.mp h.nodup
  have hends := h.ends (List.cons_ne_nil x xs)
  refine ⟨?_, ?_, hn, ?_, ?_, ?_⟩
  · rw [shmPoolDestroyBlock, if_pos (h.live x List.mem_cons_self)]
    rfl
  · exact (List.isChain_cons.mp h.chain).2
  · intro y hy
    exact Finset.mem_erase.mpr ⟨ne_of_mem_of_not_mem hy hx, h.live y (List.mem_cons_of_mem x hy)⟩
  · rintro rfl
    obtain rfl : x = b := by simpa using hends
    exact Finset.notMem_erase x g.live
  · intro hne
    obtain ⟨y, ys, rfl⟩ := List.exists_cons_of_ne_nil hne
    rwa [List.getLast?_cons_cons] at hends

/-- The loop of `shm_pool_deinit` frees all the blocks and then reads the last of them. -/
theorem Looped.deinit (h : Looped g a b ys) (hn : (a :: ys ++ [b]).Nodup)
    (hlive : ∀ x ∈ a :: ys ++ [b], x ∈ g.live) (halive : g.pool.alive = true)
    (hfuel : ys.length + 1 < fuel) : shmPoolDeinit fuel g = .error .fault := by
  have hahead : LoopAhead b g (a :: (ys ++ [b])) := by
    refine ⟨?_, hn, hlive, nofun, fun _ => ?_⟩
    · have hchain := h.chain
      refine hchain.append (List.isChain_singleton b) fun x hx y hy => ?_
      rw [List.getLast?_concat] at hx
      cases hx
      cases hy
      exact h.loop
    · rw [← List.cons_append, List.getLast?_concat]
  have hstop : ∀ s : Gfx w, LoopAhead b s [] → s.liveNext b = .error .fault := by
    intro s hs
    rw [Gfx.liveNext, if_neg (hs.last rfl)]
  have hloop := @listForEach_stops _ _ _ _ _ _ _ _ _ _ _ fuel _
    (fun _ _ _ => LoopAhead.liveNext) (fun _ _ _ => LoopAhead.destroy) hstop hahead
  rw [List.length_append, List.length_singleton, if_pos hfuel] at hloop
  have hhead : g.pool.freeBlocks.head = some a := by rw [h.list]
  simp only [shmPoolDeinit, halive, hhead, hloop, Bind.bind, Except.bind]
  rfl

/-! ## The blocks that are handed back -/

variable {alive : ι → Bool} {chains : ι → List Addr} {k : ι} {ks : List ι}

/-- The chains of the swapchains that are alive, each once and in this order. -/
def handed (alive : ι → Bool) (chains : ι → List Addr) : List ι → List Addr
  | [] => []
  | k :: ks =>
    if alive k then chains k ++ handed (Function.update alive k false) chains ks
    else handed alive chains ks

theorem alive_update {j : ι} (h : Function.update alive j false k = true) :
    k ≠ j ∧ alive k = true := by
  have hne : k ≠ j := by
    rintro rfl
    simp at h
  exact ⟨hne, by rwa [Function.update_of_ne hne] at h⟩

theorem mem_handed : x ∈ handed alive chains ks ↔ ∃ k ∈ ks, alive k = true ∧ x ∈ chains k := by
  induction ks generalizing alive with
  | nil => simp [handed]
  | cons j ks ih =>
    rw [handed]
    split
    · rename_i hj
      rw [List.mem_append, ih]
      constructor
      · rintro (hx | ⟨k, hk, halive, hx⟩)
        · exact ⟨j, List.mem_cons_self, hj, hx⟩
        · exact ⟨k, List.mem_cons_of_mem j hk, (alive_update halive).2, hx⟩
      · rintro ⟨k, hk, halive, hx⟩
        by_cases hkj : k = j
        · subst k
          exact Or.inl hx
        · refine Or.inr ⟨k, (List.mem_cons.mp hk).resolve_left hkj, ?_, hx⟩
          rwa [Function.update_of_ne hkj]
    · rename_i hj
      rw [ih]
      constructor
      · rintro ⟨k, hk, halive, hx⟩
        exact ⟨k, List.mem_cons_of_mem j hk, halive, hx⟩
      · rintro ⟨k, hk, halive, hx⟩
        refine ⟨k, (List.mem_cons.mp hk).resolve_left ?_, halive, hx⟩
        rintro rfl
        exact hj halive

theorem nodup_handed (hn : ∀ k, (chains k).Nodup)
    (hd : ∀ j k, j ≠ k → (chains j).Disjoint (chains k)) : (handed alive chains ks).Nodup := by
  induction ks generalizing alive with
  | nil => exact List.nodup_nil
  | cons j ks ih =>
    rw [handed]
    split
    · refine List.nodup_append.mpr ⟨hn j, ih, fun x hx y hy he => ?_⟩
      subst y
      obtain ⟨k, _, halive, hy⟩ := mem_handed.mp hy
      exact hd j k (alive_update halive).1.symm hx hy
    · exact ih

/-- They begin with the chain of the first swapchain that has blocks to hand back. -/
theorem handed_first :
    match ks.find? fun k => alive k && !(chains k).isEmpty with
    | some k => ∃ rest, handed alive chains ks = chains k ++ rest
    | none => handed alive chains ks = [] := by
  induction ks generalizing alive with
  | nil => rfl
  | cons j ks ih =>
    rw [handed, List.find?_cons]
    cases hj : alive j with
    | false => exact ih
    | true =>
      cases hc : chains j with
      | nil =>
        have hsame : (fun k => Function.update alive j false k && !(chains k).isEmpty) =
            fun k => alive k && !(chains k).isEmpty := by
          funext k
          by_cases hkj : k = j
          · subst k
            simp [hc]
          · rw [Function.update_of_ne hkj]
        have hrest := @ih (Function.update alive j false)
        rw [hsame] at hrest
        exact hrest
      | cons x xs => exact ⟨_, by rw [hc]; rfl⟩

/-! ## Several deinits -/

variable {s t : SwapState ι w} {get : Option Addr → Option Addr}
  {tr : List (SwapState ι w × BlockCall ι w)}

/-- A push of another block leaves what is ahead of a loop. -/
theorem PushAhead.elsewhere (h : PushAhead g xs) (hx : x ∉ xs) :
    PushAhead (shmPoolDeallocate g x) xs := by
  obtain ⟨⟨prev, p, hseg⟩, hn, hsafe⟩ := h
  have hne : ∀ y ∈ xs, y ≠ x := fun y hy => ne_of_mem_of_not_mem hy hx
  refine ⟨⟨prev, p, hseg.congr (fun y hy => ?_) fun _ _ => rfl⟩, hn, fun y hy he => ?_⟩
  · exact listPush_next (hne y hy) (hsafe y hy)
  · rcases listPush_tail g.links g.pool.freeBlocks x with hnew | hold
    · rw [shmPoolDeallocate, hnew] at he
      exact hne y hy (Option.some.inj he).symm
    · rw [shmPoolDeallocate, hold] at he
      exact hsafe y hy he

theorem PushAhead.elsewheres (h : PushAhead g xs) (hd : ys.Disjoint xs) :
    PushAhead (deallocateAll g ys) xs := by
  induction ys generalizing g with
  | nil => exact h
  | cons y ys ih =>
    rw [List.disjoint_cons_left] at hd
    exact ih (h.elsewhere hd.1) hd.2

/-- The chains that are handed back are ahead of the loops. -/
structure Handing (s : SwapState ι w) (chains : ι → List Addr) : Prop where
  head : ∀ k, (s.swapchains k).alive = true → (s.swapchains k).chain.head = (chains k).head?
  ahead : ∀ k, (s.swapchains k).alive = true → PushAhead s.gfx (chains k)
  disjoint : ∀ j k, j ≠ k → (chains j).Disjoint (chains k)

omit [DecidableEq ι] in
theorem Handing.deinit (h : Handing s chains) (halive : (s.swapchains k).alive = true)
    (hfuel : (chains k).length < fuel) :
    swapchainDeinit fuel s.gfx (s.swapchains k) = .ok (deallocateAll s.gfx (chains k),
      { s.swapchains k with chain := ListS.zero, alive := false }) := by
  have hloop : deallocateChain fuel s.gfx (s.swapchains k).chain =
      .ok (deallocateAll s.gfx (chains k), none) := by
    rw [deallocateChain, h.head k halive]
    refine (listForEach_walk (I := PushAhead) (fun _ _ _ => linkNext_ahead)
      (fun _ _ _ hahead => ⟨rfl, hahead.deallocate⟩) (h.ahead k halive)).trans ?_
    rw [if_pos hfuel]
    rfl
  simp only [swapchainDeinit, halive, hloop]
  rfl

theorem Handing.rest {sc : SwapchainS w} (h : Handing s chains) (hsc : sc.alive = false) :
    Handing { s with
      gfx := deallocateAll s.gfx (chains k)
      swapchains := Function.update s.swapchains k sc } chains := by
  have hother : ∀ j, (Function.update s.swapchains k sc j).alive = true →
      j ≠ k ∧ (s.swapchains j).alive = true := by
    intro j hj
    have hne : j ≠ k := by
      rintro rfl
      simp [hsc] at hj
    exact ⟨hne, by rwa [Function.update_of_ne hne] at hj⟩
  refine ⟨fun j hj => ?_, fun j hj => ?_, h.disjoint⟩
  · obtain ⟨hne, halive⟩ := hother j hj
    simp only [Function.update_of_ne hne]
    exact h.head j halive
  · obtain ⟨hne, halive⟩ := hother j hj
    exact (h.ahead j halive).elsewheres (h.disjoint k j hne.symm)

/-- The chains go to the free list one behind the other, whether or not it stays a list. -/
theorem Handing.deinits (h : Handing s chains) (ks : List ι)
    (hfuel : ∀ k, (chains k).length < fuel) :
    ∃ t, swapchainDeinits fuel s ks = .ok t ∧ t.gfx =
      deallocateAll s.gfx (handed (fun k => (s.swapchains k).alive) chains ks) := by
  induction ks generalizing s with
  | nil => exact ⟨s, rfl, rfl⟩
  | cons k ks ih =>
    cases halive : (s.swapchains k).alive with
    | true =>
      let sc : SwapchainS w := { s.swapchains k with chain := ListS.zero, alive := false }
      have hnext : (fun j => (Function.update s.swapchains k sc j).alive) =
          Function.update (fun j => (s.swapchains j).alive) k false := by
        funext j
        by_cases hjk : j = k
        · subst j
          simp [sc]
        · simp [hjk]
      have hrest : Handing { s with
          gfx := deallocateAll s.gfx (chains k)
          swapchains := Function.update s.swapchains k sc } chains := h.rest rfl
      obtain ⟨t, ht, hg⟩ := ih hrest
      refine ⟨t, ?_, hg.trans ?_⟩
      · simp only [swapchainDeinits, h.deinit halive (hfuel k), Bind.bind, Except.bind]
        exact ht
      · simp only [handed, halive, if_true, hnext, Spaze.deallocateAll, List.foldl_append]
    | false =>
      obtain ⟨t, ht, hg⟩ := ih h
      refine ⟨t, ?_, hg.trans ?_⟩
      · have hsame : swapchainDeinit fuel s.gfx (s.swapchains k) =
            .ok (s.gfx, s.swapchains k) := by
          simp only [swapchainDeinit, halive]
          rfl
        simp only [swapchainDeinits, hsame, Bind.bind, Except.bind, Function.update_eq_self]
        exact ht
      · simp only [handed, halive, Bool.false_eq_true, if_false]

/-! ## The deinit of the pool behind them -/

variable {seqs : Option ι → List Addr}

/-- The blocks of the swapchains that are alive, in the order they are handed back. -/
def handedBlocks (s : SwapState ι w) (seqs : Option ι → List Addr) (ks : List ι) : List Addr :=
  handed (fun k => (s.swapchains k).alive) (fun k => seqs (some k)) ks

omit [DecidableEq ι] in
theorem Shelves.handing (h : Shelves s seqs) : Handing s fun k => seqs (some k) := by
  have hchain : ∀ k, ListRep s.gfx.links (s.swapchains k).chain (seqs (some k)) := fun k =>
    h.lists.rep (some k)
  refine ⟨fun k _ => (hchain k).head, fun k _ => ?_, fun j k hjk => ?_⟩
  · exact pushAhead_chain (h.lists.rep none) (hchain k) (h.apart k)
  · exact h.lists.disjoint _ _ fun he => hjk (Option.some.inj he)

theorem Shelves.handedBlocks_nodup (h : Shelves s seqs) (ks : List ι) :
    (seqs none ++ handedBlocks s seqs ks).Nodup := by
  refine List.nodup_append.mpr ⟨(h.lists.rep none).nodup, ?_, fun x hx y hy he => ?_⟩
  · exact nodup_handed (fun k => (h.lists.rep (some k)).nodup) fun j k hjk =>
      h.lists.disjoint _ _ fun he => hjk (Option.some.inj he)
  · subst y
    obtain ⟨k, _, _, hy⟩ := mem_handed.mp hy
    exact h.apart k hx hy

theorem Shelves.handedBlocks_live (h : Shelves s seqs) :
    ∀ b ∈ seqs none ++ handedBlocks s seqs ks, b ∈ s.gfx.live := by
  intro b hb
  rcases List.mem_append.mp hb with hb | hb
  · exact h.listLive none b hb
  · obtain ⟨k, _, _, hb⟩ := mem_handed.mp hb
    exact h.listLive (some k) b hb

/-- Behind a free block, or behind one that is clean, the chains make a list. -/
theorem Shelves.teardown_ok (h : Shelves s seqs) (halive : s.gfx.pool.alive = true)
    (hclean : seqs none = [] → ∀ x, (handedBlocks s seqs ks).head? = some x →
      Unlinked s.gfx.links x)
    (hfuel : s.gfx.live.card < fuel) : ∃ g, teardown fuel s ks = .ok g ∧
      g.live = s.gfx.live.filter (· ∉ seqs none ++ handedBlocks s seqs ks) := by
  obtain ⟨t, ht, hg⟩ := h.handing.deinits ks fun k => h.length_lt hfuel (some k)
  have hframe := deallocateAll_eq s.gfx (handedBlocks s seqs ks)
  obtain ⟨hrep, _⟩ := (h.lists.rep none).deallocateAll (h.handedBlocks_nodup ks) hclean
  have hlive : (deallocateAll s.gfx (handedBlocks s seqs ks)).live = s.gfx.live := by
    rw [hframe]
  have hpool : (deallocateAll s.gfx (handedBlocks s seqs ks)).pool.alive = true := by
    rw [hframe]
    exact halive
  have hlength : (seqs none ++ handedBlocks s seqs ks).length < fuel :=
    length_lt_of_live (h.handedBlocks_nodup ks) h.handedBlocks_live hfuel
  obtain ⟨g, hd, _, hleft⟩ := shmPoolDeinit_eq hpool hrep
    (fun b hb => hlive ▸ h.handedBlocks_live b hb) hlength
  refine ⟨g, ?_, by rw [hleft, hlive]⟩
  simp only [teardown, ht, Bind.bind, Except.bind]
  rwa [hg]

/-- A chain of two blocks or more that goes first into the empty free list makes the loop. -/
theorem Shelves.teardown_fault {rest : List Addr} (h : Shelves s seqs)
    (halive : s.gfx.pool.alive = true) (hfree : s.gfx.pool.freeBlocks = ListS.zero)
    (hblocks : handedBlocks s seqs ks = a :: b :: rest) (hnext : (s.gfx.links a).next = some b)
    (hfuel : s.gfx.live.card < fuel) : teardown fuel s ks = .error .fault := by
  obtain ⟨t, ht, hg⟩ := h.handing.deinits ks fun k => h.length_lt hfuel (some k)
  have hn := (List.nodup_append.mp (h.handedBlocks_nodup ks)).2.1
  have hlive : ∀ x ∈ a :: b :: rest, x ∈ s.gfx.live := fun x hx =>
    h.handedBlocks_live x (List.mem_append_right _ (hblocks ▸ hx))
  rw [hblocks] at hn
  have hba : b ≠ a := by
    rintro rfl
    simp at hn
  have hlooped : Looped (deallocateAll s.gfx (a :: b :: rest)) a b rest.reverse := by
    have hfirst := looped_second hfree hnext hba
    rw [← List.append_nil rest.reverse]
    exact hfirst.deallocateAll hn
  have hperm : (a :: rest.reverse ++ [b]).Perm (a :: b :: rest) := by
    apply List.Perm.cons
    exact List.perm_append_comm.trans ((List.reverse_perm rest).cons b)
  have hlength := length_lt_of_live hn hlive hfuel
  have hframe := deallocateAll_eq s.gfx (a :: b :: rest)
  have hfault : shmPoolDeinit fuel (deallocateAll s.gfx (a :: b :: rest)) = .error .fault := by
    apply hlooped.deinit (hperm.nodup_iff.mpr hn)
    · intro x hx
      rw [hframe]
      exact hlive x (hperm.subset hx)
    · rw [hframe]
      exact halive
    · simp only [List.length_cons] at hlength
      simp only [List.length_reverse]
      omega
  have hlast : t.gfx = deallocateAll s.gfx (a :: b :: rest) := hblocks ▸ hg
  simp only [teardown, ht, Bind.bind, Except.bind, hlast]
  exact hfault

/-- The first of the chains that is not empty comes first. -/
theorem Shelves.first_chain (h : Shelves s seqs) (ks : List ι) :
    match ks.find? (Hands s) with
    | some k => seqs (some k) ≠ [] ∧
        ∃ rest, handedBlocks s seqs ks = seqs (some k) ++ rest
    | none => handedBlocks s seqs ks = [] := by
  have hhands : Hands s = fun k => (s.swapchains k).alive && !(seqs (some k)).isEmpty := by
    funext k
    have hrep : ListRep s.gfx.links (s.swapchains k).chain (seqs (some k)) :=
      h.lists.rep (some k)
    cases hseq : seqs (some k) <;> simp [Hands, hrep.head, hseq]
  have hfirst := @handed_first _ _ (fun k => (s.swapchains k).alive)
    (fun k => seqs (some k)) ks
  rw [← hhands] at hfirst
  cases hf : ks.find? (Hands s) with
  | none =>
    rw [hf] at hfirst
    exact hfirst
  | some k =>
    rw [hf] at hfirst
    have hk := List.find?_some hf
    rw [hhands] at hk
    refine ⟨?_, hfirst⟩
    rintro he
    simp [he] at hk

/-- The condition on the words of the lists, as one on what they stand for. -/
theorem Shelves.stranded_iff (h : Shelves s seqs) : Stranded s ks ↔ seqs none = [] ∧
    ∃ k, ks.find? (Hands s) = some k ∧ ∃ a b rest, seqs (some k) = a :: b :: rest := by
  have hfree : ListRep s.gfx.links s.gfx.pool.freeBlocks (seqs none) := h.lists.rep none
  refine and_congr ?_ (exists_congr fun k => and_congr_right fun hf => ?_)
  · rw [hfree.head, List.head?_eq_none_iff]
  · have hrep : ListRep s.gfx.links (s.swapchains k).chain (seqs (some k)) :=
      h.lists.rep (some k)
    have hn := hrep.nodup
    have hfirst := h.first_chain ks
    rw [hf] at hfirst
    obtain ⟨hne, _⟩ := hfirst
    rw [hrep.head, hrep.tail]
    match hseq : seqs (some k) with
    | [] => exact absurd hseq hne
    | [a] => simp
    | a :: b :: rest =>
      refine iff_of_true (fun he => ?_) ⟨a, b, rest, rfl⟩
      rw [hseq] at hn
      rw [List.head?_cons, List.getLast?_cons_cons] at he
      exact (List.nodup_cons.mp hn).1 (List.mem_of_mem_getLast? he.symm)

/-- Otherwise the block that goes first into the empty free list is clean. -/
theorem Shelves.clean_first (h : Shelves s seqs) (hs : ¬ Stranded s ks)
    (hfree : seqs none = []) (hx : (handedBlocks s seqs ks).head? = some x) :
    Unlinked s.gfx.links x := by
  have hfirst := h.first_chain ks
  rw [h.stranded_iff] at hs
  cases hf : ks.find? (Hands s) with
  | none =>
    rw [hf] at hfirst
    rw [hfirst] at hx
    cases hx
  | some k =>
    rw [hf] at hfirst
    obtain ⟨hne, rest, hblocks⟩ := hfirst
    have hrep : ListRep s.gfx.links (s.swapchains k).chain (seqs (some k)) :=
      h.lists.rep (some k)
    match hseq : seqs (some k) with
    | [] => exact absurd hseq hne
    | [a] =>
      rw [hblocks, hseq] at hx
      obtain rfl : a = x := Option.some.inj hx
      exact (hseq ▸ hrep).unlinked
    | a :: b :: rest => exact absurd ⟨hfree, k, hf, a, b, rest, hseq⟩ hs

/-- After a tidy run, deinit of some swapchains and then of the pool reads a block that it has
freed exactly if the free list was empty and the first chain handed back has two blocks or more.
Otherwise it returns, and has freed the free blocks and those of the chains. -/
theorem teardown_faults_iff (hget : ShmBlockGet get)
    (h : (blockSystem get ι w).Trace tr t) (htidy : ∀ x ∈ tr, TidyCall x.1 x.2)
    (hfuel : t.gfx.live.card < fuel) (ks : List ι) :
    (teardown fuel t ks = .error .fault ↔ Stranded t ks) ∧
    (¬ Stranded t ks → ∃ g, teardown fuel t ks = .ok g ∧ ∀ b, b ∈ g.live ↔
      ∃ place, At tr t b place ∧ place ≠ .shelf none ∧
        ∀ k ∈ ks, (t.swapchains k).alive = true → place ≠ .shelf (some k)) := by
  obtain ⟨seqs, places, hi⟩ := accounted_run hget h htidy
  have hshelves := hi.shelves
  have halive := (balanced_run h).2
  by_cases hs : Stranded t ks
  · refine ⟨iff_of_true ?_ hs, fun hnot => absurd hs hnot⟩
    obtain ⟨hfree, k, hf, a, b, rest, hseq⟩ := hshelves.stranded_iff.mp hs
    have hfirst := hshelves.first_chain ks
    rw [hf] at hfirst
    obtain ⟨_, rest', hblocks⟩ := hfirst
    rw [hseq] at hblocks
    have hzero : t.gfx.pool.freeBlocks = ListS.zero := by
      have hrep : ListRep t.gfx.links t.gfx.pool.freeBlocks (seqs none) :=
        hshelves.lists.rep none
      rw [hfree] at hrep
      exact (listRep_zero t.gfx.links).list_eq hrep
    have hchain : ListRep t.gfx.links (t.swapchains k).chain (seqs (some k)) :=
      hshelves.lists.rep (some k)
    have hmid : ListRep t.gfx.links (t.swapchains k).chain ([] ++ a :: b :: rest) := hseq ▸ hchain
    exact hshelves.teardown_fault halive hzero hblocks hmid.next_mid hfuel
  · obtain ⟨g, hg, hlive⟩ := hshelves.teardown_ok halive
      (fun hfree x => hshelves.clean_first hs hfree) hfuel
    refine ⟨iff_of_false (fun hfault => ?_) hs, fun _ => ⟨g, hg, fun b => ?_⟩⟩
    · cases hg.symm.trans hfault
    · rw [hlive, Finset.mem_filter, hi.live, Option.ne_none_iff_exists', List.mem_append, not_or,
        hi.shelf, handedBlocks, mem_handed]
      simp only [hi.shelf, hi.at_iff]
      constructor
      · rintro ⟨⟨place, hp⟩, hnone, hchains⟩
        refine ⟨place, hp, fun he => hnone (he ▸ hp), fun k hk halive he => ?_⟩
        exact hchains ⟨k, hk, halive, he ▸ hp⟩
      · rintro ⟨place, hp, hnone, hchains⟩
        refine ⟨⟨place, hp⟩, fun he => hnone ?_, ?_⟩
        · exact Option.some.inj (hp.symm.trans he)
        · rintro ⟨k, hk, halive, he⟩
          exact hchains k hk halive (Option.some.inj (hp.symm.trans he))

instance (s : SwapState ι w) (ks : List ι) : Decidable (Stranded s ks) :=
  inferInstanceAs (Decidable (s.gfx.pool.freeBlocks.head = none ∧
    ∃ k ∈ ks.find? (Hands s), (s.swapchains k).chain.head ≠ (s.swapchains k).chain.tail))

/-- Two blocks that were reclaimed are enough. -/
theorem teardown_faults_two : ∃ tr t, (blockSystem id Unit 64).Trace tr t ∧ tr.length = 5 ∧
    teardown 9 t [()] = .error .fault := by
  obtain ⟨tr, t, htr, hp⟩ := executed_block
    [.swap (.init () 4 4), .swap (.allocate (answersAt 0) 4 4 16 none),
      .swap (.allocate (answersAt 1) 4 4 16 none), .swap (.reclaim () 0), .swap (.reclaim () 1)]
    (fun tr t => tr.length == 5 && decide (t.gfx.live.card < 9 ∧ Stranded t [()]) &&
      tr.all fun x => decide (TidyCall x.1 x.2)) (by decide)
  simp only [Bool.and_eq_true, beq_iff_eq, List.all_eq_true, decide_eq_true_eq] at hp
  obtain ⟨⟨hlength, hfuel, hstranded⟩, htidy⟩ := hp
  exact ⟨tr, t, htr, hlength,
    (teardown_faults_iff shmBlockGet_id htr htidy hfuel [()]).1.mpr hstranded⟩

end Spaze
