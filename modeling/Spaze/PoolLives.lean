import Spaze.BlockLeaks

/-! The lives of a pool, from one `shm_pool_init` to the next, and the blocks made in each. -/
namespace Spaze

open Linked Runs

variable {w : ℕ} {ι : Type*} [DecidableEq ι]

/-- The pool with its swapchains and the client. As history, the blocks that were made since the
pool was last initialised or deinitialised. -/
structure LivesState (ι : Type*) (w : ℕ) where
  swap : SwapState ι w
  made : Finset Addr

/-- A call on the pool or a swapchain, or an event. -/
inductive LivesCall (ι : Type*) (w : ℕ)
  | block (a : BlockCall ι w)
  | poolInit (capacity : UsizeT w) (result : ShmPoolErrorE)
  | poolDeinit

inductive LivesStep (get : Option Addr → Option Addr) :
    LivesState ι w → LivesCall ι w → LivesState ι w → Prop
  | block {s : LivesState ι w} {a : BlockCall ι w} {t : SwapState ι w}
      (h : BlockStep get s.swap a t) :
      LivesStep get s (.block a) ⟨t, s.made ∪ t.gfx.live \ s.swap.gfx.live⟩
  | poolInit {s : LivesState ι w} {ans : InitAnswers} {capacity : UsizeT w} {g : Gfx w}
      {err : ShmPoolErrorE} (h : shmPoolInit ans s.swap.gfx capacity = .ok (g, err)) :
      LivesStep get s (.poolInit capacity err) ⟨{ s.swap with gfx := g }, ∅⟩
  | poolDeinit {s : LivesState ι w} {fuel : ℕ} {g : Gfx w}
      (h : shmPoolDeinit fuel s.swap.gfx = .ok g) :
      LivesStep get s .poolDeinit
        ⟨{ s.swap with gfx := g }, if s.swap.gfx.pool.alive then ∅ else s.made⟩

/-- The pool and the swapchains start zeroed, and no block is allocated. -/
def livesSystem (get : Option Addr → Option Addr) (ι : Type*) [DecidableEq ι] (w : ℕ) :
    System (LivesState ι w) (LivesCall ι w) where
  initial s := s.swap.gfx.pool = ShmPoolS.zero w ∧ (∀ k, s.swap.swapchains k = SwapchainS.zero w) ∧
    s.swap.held = ∅ ∧ s.swap.gfx.live = ∅ ∧ s.made = ∅
  step := LivesStep get

/-- The calls on a swapchain and on the blocks are tidy. -/
def TidyLife (s : LivesState ι w) : LivesCall ι w → Prop
  | .block a => TidyCall s.swap a
  | _ => True

/-- Every block of the chain was made in this life of the pool. -/
def ChainOwn (s : LivesState ι w) (k : ι) : Prop :=
  ∀ b, Reach (nexts s.swap.gfx.links) (s.swap.swapchains k).chain.head b → b ∈ s.made

/-- Every free block was made in this life of the pool. -/
def FreeOwn (s : LivesState ι w) : Prop :=
  ∀ b, Reach (nexts s.swap.gfx.links) s.swap.gfx.pool.freeBlocks.head b → b ∈ s.made

/-- What goes back to the pool was made in this life of it. -/
def OwnCall (s : LivesState ι w) : LivesCall ι w → Prop
  | .block (.swap (.deallocate block)) => block ∈ s.made
  | .block (.swap (.resize k width height)) => Resizes s.swap k width height → ChainOwn s k
  | .block (.deinit k) => (s.swap.swapchains k).alive = true → ChainOwn s k
  | _ => True

variable {get : Option Addr → Option Addr} {s t : LivesState ι w} {a : LivesCall ι w}
  {seqs : Option ι → List Addr} {g g' : Gfx w} {fuel : ℕ} {b : Addr}

/-! ## The sequences -/

/-- What a call does to the sequences of blocks. -/
def livesSeqs (s : LivesState ι w) (seqs : Option ι → List Addr) :
    LivesCall ι w → Option ι → List Addr
  | .block a => blockSeqs s.swap seqs a
  | .poolInit _ _ => Function.update seqs none []
  | .poolDeinit => if s.swap.gfx.pool.alive then Function.update seqs none [] else seqs

/-- `shm_pool_init` writes no block and forgets the free ones. -/
theorem shmPoolInit_memory {ans : InitAnswers} {size : UsizeT w} {err : ShmPoolErrorE}
    (h : shmPoolInit ans g size = .ok (g', err)) :
    g'.links = g.links ∧ g'.live = g.live ∧ g'.pool.freeBlocks = ListS.zero := by
  obtain ⟨_, _, h⟩ := bind_eq_ok.mp h
  cases hfd : ans.shmOpen with
  | none =>
    rw [hfd] at h
    cases h
    exact ⟨rfl, rfl, rfl⟩
  | some fd =>
    rw [hfd] at h
    dsimp only at h
    split at h
    · split at h <;> cases h <;> exact ⟨rfl, rfl, rfl⟩
    · cases h
      exact ⟨rfl, rfl, rfl⟩

/-- The free list is given up; the chains and the client keep their blocks. -/
theorem Shelves.emptied {p : SwapState ι w} (h : Shelves p seqs)
    (hlinks : g.links = p.gfx.links) (hfree : g.pool.freeBlocks = ListS.zero)
    (hlive : ∀ b ∈ p.gfx.live, b ∉ seqs none → b ∈ g.live) :
    Shelves { p with gfx := g } (Function.update seqs none []) := by
  have hmem : ∀ j b, b ∈ Function.update seqs none [] j → b ∈ seqs j ∧ b ∉ seqs none := by
    intro j b hb
    by_cases hj : j = none
    · subst j
      simp at hb
    · rw [Function.update_of_ne hj] at hb
      exact ⟨hb, h.lists.notMem (Ne.symm hj) hb⟩
  refine ⟨?_, ?_, ?_, ?_⟩
  · rw [heads_pool, hlinks, hfree]
    exact h.lists.clear none
  · intro j b hb
    exact h.notHeld j b (hmem j b hb).1
  · intro j b hb
    obtain ⟨hb, hnot⟩ := hmem j b hb
    exact hlive b (h.listLive j b hb) hnot
  · intro b hb
    exact hlive b (h.heldLive b hb) fun hm => h.notHeld none b hm hb

theorem shmPoolDeinit_dead (h : g.pool.alive = false) : shmPoolDeinit fuel g = .ok g := by
  simp only [shmPoolDeinit, h]
  rfl

/-- A `shm_pool_deinit` that returns has freed the free blocks and no others. -/
theorem Shelves.poolDeinit {p : SwapState ι w} (h : Shelves p seqs)
    (hcall : shmPoolDeinit fuel p.gfx = .ok g) : Shelves { p with gfx := g }
      (if p.gfx.pool.alive then Function.update seqs none [] else seqs) := by
  by_cases halive : p.gfx.pool.alive = true
  · have hrep : ListRep p.gfx.links p.gfx.pool.freeBlocks (seqs none) := h.lists.rep none
    simp only [shmPoolDeinit, halive, Bool.not_true, Bool.false_eq_true, if_false,
      destroyChain_walk hrep (h.listLive none)] at hcall
    rw [if_pos halive]
    by_cases hfuel : (seqs none).length < fuel
    · rw [if_pos hfuel] at hcall
      cases hcall
      refine h.emptied ?_ rfl ?_
      · simp only [destroyAll_eq]
      · intro b hb hnot
        simp only [destroyAll_eq, Finset.mem_filter]
        exact ⟨hb, hnot⟩
    · rw [if_neg hfuel] at hcall
      cases hcall
  · rw [if_neg halive]
    rw [Bool.not_eq_true] at halive
    cases (shmPoolDeinit_dead halive).symm.trans hcall
    exact h

theorem livesShelves_step (h : Shelves s.swap seqs) (hget : ShmBlockGet get)
    (htidy : TidyLife s a) (hs : LivesStep get s a t) : Shelves t.swap (livesSeqs s seqs a) := by
  cases hs with
  | block hs => exact blockShelves_step h hget htidy hs
  | poolInit hcall =>
    obtain ⟨hlinks, hlive, hfree⟩ := shmPoolInit_memory hcall
    exact h.emptied hlinks hfree fun b hb _ => hlive ▸ hb
  | poolDeinit hcall => exact h.poolDeinit hcall

/-! ## The blocks of this life -/

omit [DecidableEq ι] in
theorem freeOwn_iff (h : Shelves s.swap seqs) : FreeOwn s ↔ ∀ b ∈ seqs none, b ∈ s.made :=
  forall_congr' fun _ => imp_congr_left (h.reach_iff (j := none))

omit [DecidableEq ι] in
theorem chainOwn_iff (h : Shelves s.swap seqs) {k : ι} :
    ChainOwn s k ↔ ∀ b ∈ seqs (some k), b ∈ s.made :=
  forall_congr' fun _ => imp_congr_left (h.reach_iff (j := some k))

/-- The blocks that a call gives back to the pool. -/
def givenBack (s : LivesState ι w) (seqs : Option ι → List Addr) : LivesCall ι w → List Addr
  | .block (.swap (.deallocate block)) => [block]
  | .block (.swap (.resize k width height)) =>
    if (s.swap.swapchains k).width = width ∧ (s.swap.swapchains k).height = height then []
    else seqs (some k)
  | .block (.deinit k) => if (s.swap.swapchains k).alive then seqs (some k) else []
  | _ => []

omit [DecidableEq ι] in
theorem ownCall_iff (h : Shelves s.swap seqs) :
    OwnCall s a ↔ ∀ b ∈ givenBack s seqs a, b ∈ s.made := by
  match a with
  | .block (.swap (.deallocate block)) => simp [OwnCall, givenBack]
  | .block (.swap (.resize k width height)) =>
    simp only [OwnCall, givenBack, chainOwn_iff h, Resizes]
    split <;> rename_i hsize
    · simp [hsize]
    · exact forall_prop_of_true hsize
  | .block (.deinit k) =>
    simp only [OwnCall, givenBack, chainOwn_iff h]
    split <;> rename_i halive
    · exact forall_prop_of_true halive
    · simp [halive]
  | .block (.swap (.init ..)) | .block (.swap (.allocate ..)) | .block (.swap (.reclaim ..))
  | .block (.swap (.acquire ..)) | .block (.swap (.attach ..)) | .block (.swap (.release ..))
  | .poolInit .. | .poolDeinit => simp [OwnCall, givenBack]

/-- The free blocks after a call are some of those before it, and those given back. -/
theorem mem_livesSeqs (hb : b ∈ livesSeqs s seqs a none) :
    b ∈ seqs none ∨ b ∈ givenBack s seqs a := by
  match a with
  | .block (.swap (.deallocate block)) =>
    simpa [livesSeqs, blockSeqs, nextSeqs, givenBack] using hb
  | .block (.swap (.resize k width height)) =>
    simp only [livesSeqs, blockSeqs, nextSeqs] at hb
    simp only [givenBack]
    split at hb <;> rename_i hsize
    · exact Or.inl hb
    · rw [if_neg hsize]
      simpa using hb
  | .block (.deinit k) =>
    simp only [livesSeqs, blockSeqs] at hb
    simp only [givenBack]
    split at hb <;> rename_i halive
    · rw [if_pos halive]
      simpa using hb
    · exact Or.inl hb
  | .block (.swap (.allocate _ _ _ _ (some block))) =>
    have hb' : b ∈ (seqs none).erase block := by
      simpa [livesSeqs, blockSeqs, nextSeqs] using hb
    exact Or.inl (List.mem_of_mem_erase hb')
  | .poolDeinit =>
    simp only [livesSeqs] at hb
    split at hb
    · simp at hb
    · exact Or.inl hb
  | .poolInit .. => simp [livesSeqs] at hb
  | .block (.swap (.init ..)) | .block (.swap (.allocate _ _ _ _ none))
  | .block (.swap (.reclaim ..)) | .block (.swap (.acquire ..)) | .block (.swap (.attach ..))
  | .block (.swap (.release ..)) =>
    exact Or.inl (by simpa [livesSeqs, blockSeqs, nextSeqs] using hb)

theorem mem_givenBack (hb : b ∈ givenBack s seqs a) : b ∈ livesSeqs s seqs a none := by
  match a with
  | .block (.swap (.deallocate block)) =>
    obtain rfl : b = block := by simpa [givenBack] using hb
    simp [livesSeqs, blockSeqs, nextSeqs]
  | .block (.swap (.resize k width height)) =>
    simp only [givenBack] at hb
    split at hb <;> rename_i hsize
    · cases hb
    · simp [livesSeqs, blockSeqs, nextSeqs, hsize, hb]
  | .block (.deinit k) =>
    simp only [givenBack] at hb
    split at hb <;> rename_i halive
    · simp [livesSeqs, blockSeqs, halive, hb]
    · cases hb

omit [DecidableEq ι] in
/-- What is given back was in use. -/
theorem givenBack_live (h : Shelves s.swap seqs) (htidy : TidyLife s a)
    (hb : b ∈ givenBack s seqs a) : b ∈ s.swap.gfx.live := by
  match a with
  | .block (.swap (.deallocate block)) =>
    obtain rfl : b = block := by simpa [givenBack] using hb
    exact h.heldLive b htidy.1
  | .block (.swap (.resize k width height)) =>
    simp only [givenBack] at hb
    split at hb
    · cases hb
    · exact h.listLive (some k) b hb
  | .block (.deinit k) =>
    simp only [givenBack] at hb
    split at hb
    · exact h.listLive (some k) b hb
    · cases hb

/-- The free blocks stay blocks of this life exactly if those given back are. -/
theorem freeOwn_step (h : Shelves s.swap seqs) (hget : ShmBlockGet get) (hfree : FreeOwn s)
    (htidy : TidyLife s a) (hs : LivesStep get s a t) : FreeOwn t ↔ OwnCall s a := by
  have ht := livesShelves_step h hget htidy hs
  rw [freeOwn_iff h] at hfree
  rw [freeOwn_iff ht, ownCall_iff h]
  cases hs with
  | block hs =>
    constructor
    · intro hown b hb
      have hlive := givenBack_live h htidy hb
      have hmade := hown b (mem_givenBack hb)
      rw [Finset.mem_union, Finset.mem_sdiff] at hmade
      exact hmade.resolve_right fun hnew => hnew.2 hlive
    · intro hown b hb
      apply Finset.mem_union_left
      rcases mem_livesSeqs hb with hb | hb
      · exact hfree b hb
      · exact hown b hb
  | poolInit => simp [livesSeqs, givenBack]
  | poolDeinit =>
    simp only [livesSeqs, givenBack, List.not_mem_nil, false_imp_iff, implies_true, iff_true]
    split
    · simp
    · exact hfree

/-- The block that a call hands out of the pool. -/
def handedOut : LivesCall ι w → Option Addr
  | .block (.swap (.allocate _ _ _ _ result)) => result
  | _ => none

/-- A block that is handed out was made in this life of the pool, or is made now. -/
def HandsOutOwn (s : LivesState ι w) (a : LivesCall ι w) : Prop :=
  ∀ b ∈ handedOut a, b ∈ s.made ∨ b ∉ s.swap.gfx.live

theorem handsOutOwn (h : Shelves s.swap seqs) (hfree : FreeOwn s) (hs : LivesStep get s a t) :
    HandsOutOwn s a := by
  intro b hb
  match a with
  | .block (.swap (.allocate ans width height stride result)) =>
    obtain rfl : result = some b := hb
    cases hs with
    | block hs =>
      cases hs with
      | swap hs =>
        cases hs with
        | allocate hfresh hcall =>
          rcases (shmPoolAllocate_cases hcall).effect with
            ⟨hr, _⟩ | ⟨_, c, hr, _, hfound⟩ | ⟨hr, _, _⟩
          · cases hr
          · obtain rfl : b = c := Option.some.inj hr
            have hrep : ListRep s.swap.gfx.links s.swap.gfx.pool.freeBlocks (seqs none) :=
              h.lists.rep none
            have hreach := ((shmPoolReuse_first hfound).mp rfl).reach.1
            have hfound' : b ∈ seqs none := hrep.seg.reach_prev (hrep.tail ▸ hreach)
            exact Or.inl ((freeOwn_iff h).mp hfree b hfound')
          · obtain rfl : b = ans.malloc := Option.some.inj hr
            exact Or.inr hfresh
  | .block (.swap (.init ..)) | .block (.swap (.deallocate ..)) | .block (.swap (.reclaim ..))
  | .block (.swap (.acquire ..)) | .block (.swap (.resize ..)) | .block (.swap (.attach ..))
  | .block (.swap (.release ..)) | .block (.deinit ..) | .poolInit .. | .poolDeinit =>
    simp [handedOut] at hb

/-! ## Whole runs -/

/-- A `shm_pool_deinit` now would return, and leave the blocks of the chains and of the
client in use. -/
def DeinitSpares (s : LivesState ι w) : Prop :=
  ∀ fuel, s.swap.gfx.live.card < fuel → ∃ g, shmPoolDeinit fuel s.swap.gfx = .ok g ∧
    (∀ b ∈ s.swap.held, b ∈ g.live) ∧
    ∀ k b, Reach (nexts s.swap.gfx.links) (s.swap.swapchains k).chain.head b → b ∈ g.live

theorem deinitSpares (h : Shelves s.swap seqs) : DeinitSpares s := by
  intro fuel hfuel
  obtain ⟨g, hcall⟩ : ∃ g, shmPoolDeinit fuel s.swap.gfx = .ok g := by
    by_cases halive : s.swap.gfx.pool.alive = true
    · obtain ⟨g, hcall, _⟩ := shmPoolDeinit_eq halive (h.lists.rep none) (h.listLive none)
        (h.length_lt hfuel none)
      exact ⟨g, hcall⟩
    · rw [Bool.not_eq_true] at halive
      exact ⟨_, shmPoolDeinit_dead halive⟩
  have hleft := h.poolDeinit hcall
  refine ⟨g, hcall, hleft.heldLive, fun k b hb => ?_⟩
  have hchain : b ∈ seqs (some k) := (h.reach_iff (j := some k)).mp hb
  apply hleft.listLive (some k)
  split
  · simpa using hchain
  · exact hchain

theorem lives_initial (h : (livesSystem get ι w).initial s) :
    Shelves s.swap (fun _ => []) ∧ FreeOwn s := by
  obtain ⟨hpool, hswapchains, hheld, hlive, _⟩ := h
  have hheads : s.swap.heads = fun _ => ListS.zero := by
    funext j
    cases j with
    | none => simp [SwapState.heads, hpool, ShmPoolS.zero]
    | some k => simp [SwapState.heads, hswapchains, SwapchainS.zero]
  have hshelves : Shelves s.swap fun _ => [] := by
    refine ⟨⟨fun j => ?_, fun _ _ _ => List.disjoint_nil_left _⟩, ?_, ?_, ?_⟩
    · rw [hheads]
      exact listRep_zero _
    · simp
    · simp
    · simp [hheld]
  exact ⟨hshelves, (freeOwn_iff hshelves).mpr (by simp)⟩

/-- Over any number of lives of the pool, one could be ended at any time without a block that is
in a chain or with the client. The free blocks are all along ones made in the pool's current
life exactly if every block given back is, and then so is every block handed out. -/
theorem lives_apart_iff {tr : List (LivesState ι w × LivesCall ι w)} (hget : ShmBlockGet get)
    (h : (livesSystem get ι w).Trace tr t) (htidy : ∀ x ∈ tr, TidyLife x.1 x.2) :
    DeinitSpares t ∧ ((∀ x ∈ tr, FreeOwn x.1) ∧ FreeOwn t ↔ ∀ x ∈ tr, OwnCall x.1 x.2) ∧
      ((∀ x ∈ tr, OwnCall x.1 x.2) → ∀ x ∈ tr, HandsOutOwn x.1 x.2) := by
  obtain ⟨s, hs, hrun⟩ := h
  obtain ⟨hshelves, hfree⟩ := lives_initial hs
  have hkeep : ∀ (s : LivesState ι w) (a : LivesCall ι w) t, (∃ seqs, Shelves s.swap seqs) →
      TidyLife s a → LivesStep get s a t → ∃ seqs, Shelves t.swap seqs := by
    rintro s a t ⟨seqs, hs⟩ htidy hstep
    exact ⟨_, livesShelves_step hs hget htidy hstep⟩
  have hfreeStep : ∀ (s : LivesState ι w) (a : LivesCall ι w) t, (∃ seqs, Shelves s.swap seqs) →
      FreeOwn s → TidyLife s a → LivesStep get s a t → (FreeOwn t ↔ OwnCall s a) := by
    rintro s a t ⟨seqs, hs⟩ hfree htidy hstep
    exact freeOwn_step hs hget hfree htidy hstep
  have hiff := hrun.invariant_iff htidy hkeep hfreeStep ⟨_, hshelves⟩ hfree
  obtain ⟨_, hlast⟩ := hrun.invariant_of htidy hkeep ⟨_, hshelves⟩
  refine ⟨deinitSpares hlast, hiff, fun hown x hx => ?_⟩
  obtain ⟨⟨seqs, hx'⟩, _, hstep⟩ := hrun.invariant_mem htidy hkeep ⟨_, hshelves⟩ hx
  exact handsOutOwn hx' ((hiff.mpr hown).1 x hx) hstep

/-! ## Runs that are carried out -/

/-- A call, with the answers that it gets. -/
inductive LivesOp (ι : Type*) (w : ℕ)
  | block (a : BlockCall ι w)
  | poolInit (ans : InitAnswers) (capacity : UsizeT w)
  | poolDeinit

/-- Carries out a call, if it is one that a run may make and it returns. -/
def livesExec (fuel : ℕ) (s : LivesState ι w) :
    LivesOp ι w → Option (LivesState ι w × LivesCall ι w)
  | .block a =>
    match blockExec fuel s.swap a with
    | some (t, a) => some (⟨t, s.made ∪ t.gfx.live \ s.swap.gfx.live⟩, .block a)
    | none => none
  | .poolInit ans capacity =>
    match shmPoolInit ans s.swap.gfx capacity with
    | .ok (g, err) => some (⟨{ s.swap with gfx := g }, ∅⟩, .poolInit capacity err)
    | .error _ => none
  | .poolDeinit =>
    match shmPoolDeinit fuel s.swap.gfx with
    | .ok g =>
      some (⟨{ s.swap with gfx := g }, if s.swap.gfx.pool.alive then ∅ else s.made⟩, .poolDeinit)
    | .error _ => none

theorem livesExec_step {fuel : ℕ} (s : LivesState ι w) (o : LivesOp ι w) (t : LivesState ι w)
    (a : LivesCall ι w) (h : livesExec fuel s o = some (t, a)) :
    (livesSystem id ι w).step s a t := by
  cases o with
  | block o =>
    simp only [livesExec] at h
    split at h
    · rename_i u b hexec
      cases h
      exact .block (blockExec_step s.swap o u b hexec)
    · cases h
  | poolInit ans capacity =>
    simp only [livesExec] at h
    split at h
    · cases h
      exact .poolInit (by assumption)
    · cases h
  | poolDeinit =>
    simp only [livesExec] at h
    split at h
    · cases h
      exact .poolDeinit (by assumption)
    · cases h

instance (s : LivesState ι w) (a : LivesCall ι w) : Decidable (TidyLife s a) :=
  match a with
  | .block a => inferInstanceAs (Decidable (TidyCall s.swap a))
  | .poolInit .. => .isTrue trivial
  | .poolDeinit => .isTrue trivial

instance (s : LivesState ι w) (a : LivesCall ι w) : Decidable (HandsOutOwn s a) :=
  inferInstanceAs (Decidable (∀ b ∈ handedOut a, b ∈ s.made ∨ b ∉ s.swap.gfx.live))

/-- One swapchain over a pool, neither of them initialised. -/
def zeroedLives : LivesState Unit 64 where
  swap := {
    gfx := {
      pool := ShmPoolS.zero 64
      links := fun _ => ⟨none, none⟩
      blocks := fun _ => ⟨0, 0, 0, 0, false⟩
      live := ∅
      os := Os.start 64 }
    swapchains := fun _ => SwapchainS.zero 64
    held := ∅ }
  made := ∅

/-- A swapchain outlives the pool, and hands its block to the pool's next life. -/
def outlivingOps : List (LivesOp Unit 64) :=
  [.poolInit ⟨some 3, true, some 4096, some 1⟩ 4096, .block (.swap (.init () 4 4)),
    .block (.swap (.allocate (answersAt 0) 4 4 16 none)), .block (.swap (.reclaim () 0)),
    .poolDeinit, .poolInit ⟨some 3, true, some 4096, some 1⟩ 4096, .block (.deinit ()),
    .block (.swap (.allocate (answersAt 1) 4 4 16 none))]

theorem executed_lives (ops : List (LivesOp Unit 64))
    (p : List (LivesState Unit 64 × LivesCall Unit 64) → LivesState Unit 64 → Bool)
    (h : ((execute (livesExec 9) zeroedLives ops).any fun out => p out.2 out.1) = true) :
    ∃ tr t, (livesSystem id Unit 64).Trace tr t ∧ p tr t = true := by
  obtain ⟨tr, t, hrun, hp⟩ := execute_any livesExec_step h
  exact ⟨tr, t, ⟨_, ⟨rfl, fun _ => rfl, rfl, rfl, rfl⟩, hrun⟩, hp⟩

/-- The last allocation hands out a block of the life before. -/
theorem lives_apart_outlived : ∃ tr t, (livesSystem id Unit 64).Trace tr t ∧
    (∃ x ∈ tr, ¬ HandsOutOwn x.1 x.2) ∧ DeinitSpares t ∧
      ((∀ x ∈ tr, FreeOwn x.1) ∧ FreeOwn t ↔ ∀ x ∈ tr, OwnCall x.1 x.2) ∧
      ((∀ x ∈ tr, OwnCall x.1 x.2) → ∀ x ∈ tr, HandsOutOwn x.1 x.2) := by
  obtain ⟨tr, t, htr, hp⟩ := executed_lives outlivingOps
    (fun tr _ => (tr.any fun x => !decide (HandsOutOwn x.1 x.2)) &&
      tr.all fun x => decide (TidyLife x.1 x.2)) (by decide)
  simp only [Bool.and_eq_true, List.any_eq_true, List.all_eq_true, decide_eq_true_eq,
    Bool.not_eq_true', decide_eq_false_iff_not] at hp
  exact ⟨tr, t, htr, hp.1, lives_apart_iff shmBlockGet_id htr hp.2⟩

end Spaze
