import Spaze.SwapchainRuns

/-! Blocks whose buffer the compositor still uses, and the two paths that hand blocks out. -/
namespace Spaze

open Runs Linked

variable {w : ℕ} {ι : Type*} [DecidableEq ι] {get : Option Addr → Option Addr}
  {s t : SwapState ι w} {a : SwapCall ι w} {b : Addr}
  {seqs : Option ι → List Addr} {tr : List (SwapState ι w × SwapCall ι w)}

/-- The block is not busy. -/
def Idle (s : SwapState ι w) (b : Addr) : Prop := (s.gfx.blocks b).busy = false

/-- The block a call returned is not busy when it is returned. -/
def IdleResult (t : SwapState ι w) : SwapCall ι w → Prop
  | .allocate _ _ _ _ (some block) => Idle t block
  | .acquire _ (some block) => Idle t block
  | _ => True

/-- The free block of the shape that is nearest to the tail is not busy, if there is one. -/
def IdleReuse (s : SwapState ι w) : SwapCall ι w → Prop
  | .allocate _ width height stride _ => ∀ b, FirstFree s.gfx width height stride b → Idle s b
  | _ => True

/-- The blocks that go into the free list are not busy. -/
def IdleReturn (s : SwapState ι w) : SwapCall ι w → Prop
  | .deallocate block => Idle s block
  | .resize k width height => Resizes s k width height →
    ∀ b, Reach (nexts s.gfx.links) (s.swapchains k).chain.head b → Idle s b
  | _ => True

/-- `swapchain_acquire` tests what it returns. -/
theorem swapchainAcquire_idle {g g' : Gfx w} {sc sc' : SwapchainS w}
    (h : swapchainAcquire get g sc = .ok (g', sc', some b)) : (g'.blocks b).busy = false := by
  simp only [swapchainAcquire, bind_eq_ok] at h
  obtain ⟨_, _, h⟩ := h
  split at h
  · cases h
  · split at h
    · cases h
    · rename_i hbusy
      cases h
      exact Bool.eq_false_iff.mpr hbusy

/-- `shm_pool_allocate` does not test what it finds in the free list. -/
theorem idleResult_iff (hs : (swapSystem get ι w).step s a t) :
    IdleResult t a ↔ IdleReuse s a := by
  cases hs with
  | init | deallocate | reclaim | resize | attach | release => exact Iff.rfl
  | @acquire k g sc r hcall =>
    cases r with
    | none => exact Iff.rfl
    | some b => exact iff_of_true (swapchainAcquire_idle hcall) trivial
  | @allocate _ ans width height stride g r hfresh hcall =>
    have hmiss : ∀ {fuel}, shmPoolReuse fuel s.gfx width height stride = .ok (s.gfx, none) →
        IdleReuse s (.allocate ans width height stride r) := by
      intro fuel hreuse b hb
      cases (shmPoolReuse_first hreuse).mpr hb
    cases shmPoolAllocate_cases hcall with
    | @reused _ b hfound =>
      constructor
      · intro hidle c hc
        obtain rfl := Option.some.inj ((shmPoolReuse_first hfound).mpr hc)
        exact hidle
      · exact fun hidle => hidle b ((shmPoolReuse_first hfound).mp rfl)
    | refused hnone => exact iff_of_true trivial (hmiss hnone)
    | created hnone hroom =>
      refine iff_of_true ?_ (hmiss hnone)
      unfold shmPoolCreateBuffer
      cases ans.createBuffer with
      | none => trivial
      | some buffer => simp [IdleResult, Idle]

/-! ## A client that gives back idle blocks -/

/-- The lists are well formed and no free block is busy. -/
def IdleFree (s : SwapState ι w) : Prop :=
  ∃ seqs, Shelves s seqs ∧ ∀ b ∈ seqs none, Idle s b

omit [DecidableEq ι] in
theorem IdleFree.reuse (h : IdleFree s) (a : SwapCall ι w) : IdleReuse s a := by
  obtain ⟨seqs, hs, hidle⟩ := h
  cases a with
  | allocate ans width height stride r =>
    intro b hb
    have hrep := hs.lists.rep none
    exact hidle b (hrep.seg.reach_prev (hrep.tail ▸ hb.reach.1))
  | init | deallocate | reclaim | acquire | resize | attach | release => trivial

theorem idleFree_step (h : IdleFree s) (hget : ShmBlockGet get) (hheld : HeldCall s a)
    (hclean : CleanCall s a) (hidle : IdleReturn s a) (hs : (swapSystem get ι w).step s a t) :
    IdleFree t := by
  obtain ⟨seqs, hshelf, hfree⟩ := h
  refine ⟨_, shelves_step hshelf hget hheld hclean hs, ?_⟩
  cases hs with
  | init | reclaim => exact fun b hb => hfree b (by simpa [nextSeqs] using hb)
  | acquire hcall =>
    intro b hb
    rw [Idle, (hshelf.acquire hget hcall).2.1]
    exact hfree b (by simpa [nextSeqs] using hb)
  | deallocate block =>
    intro b hb
    simp only [nextSeqs, Function.update_self, List.mem_append, List.mem_singleton] at hb
    rcases hb with hb | rfl
    · exact hfree b hb
    · exact hidle
  | @resize k _ width height _ _ hcall =>
    have hblocks := (hshelf.resize hclean hcall).1
    intro b hb
    rw [Idle, hblocks]
    simp only [nextSeqs] at hb
    split at hb
    · exact hfree b hb
    · rename_i hsize
      have hrep := hshelf.lists.rep (some k)
      have hne := (Option.some_ne_none k).symm
      rw [Function.update_of_ne hne, Function.update_self, List.mem_append] at hb
      rcases hb with hb | hb
      · exact hfree b hb
      · exact hidle hsize b (hrep.head ▸ hrep.seg.reach_next hb)
  | attach hblock =>
    intro b hb
    have hne : b ≠ _ := fun he => hshelf.notHeld none b hb (he ▸ hblock)
    simpa [Idle, attachBlock, hne] using hfree b hb
  | release block =>
    intro b hb
    by_cases hb' : b = block
    · simp [Idle, bufferRelease, hb']
    · simpa [Idle, bufferRelease, hb'] using hfree b hb
  | allocate hfresh hcall =>
    intro b hb
    have hb' : b ∈ seqs none := mem_seqs_of_allocate hb
    rw [Idle, hshelf.allocate_blocks hfresh (shmPoolAllocate_cases hcall) hb']
    exact hfree b hb'

/-- While only idle blocks go into the free list, every block handed out is idle. Whatever the
client gives back, they are idle exactly when at each allocation the free block of the shape
nearest to the tail is. -/
theorem handed_out_idle (hget : ShmBlockGet get) (h : (swapSystem get ι w).Trace tr t) :
    ((∀ x ∈ tr, HeldCall x.1 x.2 ∧ CleanCall x.1 x.2 ∧ IdleReturn x.1 x.2) →
        ∀ x ∈ tr, ∀ u, (swapSystem get ι w).step x.1 x.2 u → IdleResult u x.2) ∧
      ((∀ x ∈ tr, ∀ u, (swapSystem get ι w).step x.1 x.2 u → IdleResult u x.2) ↔
        ∀ x ∈ tr, IdleReuse x.1 x.2) := by
  obtain ⟨s, hi, hr⟩ := h
  constructor
  · intro hok x hx u hs
    have hstart : IdleFree s := ⟨_, shelves_initial hi, by simp⟩
    have hstep : ∀ s a t, IdleFree s → HeldCall s a ∧ CleanCall s a ∧ IdleReturn s a →
        (swapSystem get ι w).step s a t → IdleFree t :=
      fun _ _ _ h ⟨hheld, hclean, hidle⟩ hs => idleFree_step h hget hheld hclean hidle hs
    obtain ⟨hfree, _⟩ := hr.invariant_mem hok hstep hstart hx
    exact (idleResult_iff hs).mpr (hfree.reuse x.2)
  · constructor
    · intro hidle x hx
      obtain ⟨l, r, rfl⟩ := List.append_of_mem hx
      obtain ⟨v, _, hs, _⟩ := hr.split
      exact (idleResult_iff hs).mp (hidle x hx v hs)
    · exact fun hidle x hx u hs => (idleResult_iff hs).mpr (hidle x hx)

/-! ## Two runs -/

instance (s : SwapState ι w) (b : Addr) : Decidable (Idle s b) :=
  inferInstanceAs (Decidable ((s.gfx.blocks b).busy = false))

instance (t : SwapState ι w) (a : SwapCall ι w) : Decidable (IdleResult t a) :=
  match a with
  | .allocate _ _ _ _ (some block) => inferInstanceAs (Decidable (Idle t block))
  | .acquire _ (some block) => inferInstanceAs (Decidable (Idle t block))
  | .allocate _ _ _ _ none | .acquire _ none => isTrue trivial
  | .init .. | .deallocate _ | .reclaim .. | .resize .. | .attach _ | .release _ => isTrue trivial

/-- Calls that are no resize of a chain and give back idle blocks only. -/
def quietCall (s : SwapState ι w) : SwapCall ι w → Bool
  | .deallocate block => decide (Idle s block)
  | .resize .. => false
  | _ => true

omit [DecidableEq ι] in
theorem idleReturn_of_quiet (h : quietCall s a = true) : IdleReturn s a := by
  cases a with
  | deallocate block =>
    have hidle : Idle s block := of_decide_eq_true h
    exact hidle
  | resize => cases h
  | init | allocate | reclaim | acquire | attach | release => trivial

/-- A block is attached, released, given back and handed out again. -/
theorem handed_out_released : ∃ tr t, (swapSystem id Unit 64).Trace tr t ∧ tr.length = 5 ∧
    ∀ x ∈ tr, ∀ u, (swapSystem id Unit 64).step x.1 x.2 u → IdleResult u x.2 := by
  obtain ⟨tr, t, hr, hp⟩ := executed_swap startedSwap
    [.allocate (answersAt 0) 4 4 16 none, .attach 0, .release 0, .deallocate 0,
      .allocate (answersAt 1) 4 4 16 none]
    (fun tr _ => tr.length == 5 && tr.all fun x =>
      decide (HeldCall x.1 x.2) && decide (CleanCall x.1 x.2) && quietCall x.1 x.2) (by decide)
  simp only [Bool.and_eq_true, beq_iff_eq, List.all_eq_true, decide_eq_true_eq] at hp
  have htr : (swapSystem id Unit 64).Trace tr t := ⟨_, startedSwap_initial, hr⟩
  refine ⟨tr, t, htr, hp.1, (handed_out_idle shmBlockGet_id htr).1 fun x hx => ?_⟩
  obtain ⟨⟨hheld, hclean⟩, hquiet⟩ := hp.2 x hx
  exact ⟨hheld, hclean, idleReturn_of_quiet hquiet⟩

/-- A block that is given back while the compositor uses it is handed out at once. -/
theorem handed_out_busy : ¬ ∀ tr (t : SwapState Unit 64), (swapSystem id Unit 64).Trace tr t →
    (∀ x ∈ tr, HeldCall x.1 x.2) →
    ∀ x ∈ tr, ∀ u, (swapSystem id Unit 64).step x.1 x.2 u → IdleResult u x.2 := by
  intro hf
  obtain ⟨tr, t, hr, hp⟩ := executed_swap startedSwap
    [.allocate (answersAt 0) 4 4 16 none, .attach 0, .deallocate 0,
      .allocate (answersAt 1) 4 4 16 none]
    (fun tr t => (tr.all fun x => decide (HeldCall x.1 x.2)) &&
      tr.getLast?.any fun x => !decide (IdleResult t x.2)) (by decide)
  simp only [Bool.and_eq_true, List.all_eq_true, decide_eq_true_eq, Option.any_eq_true] at hp
  obtain ⟨hheld, x, hx, hbad⟩ := hp
  have hidle := hf tr t ⟨_, startedSwap_initial, hr⟩ hheld x (List.mem_of_getLast? hx) t
    (hr.last hx)
  simp [hidle] at hbad

end Spaze
