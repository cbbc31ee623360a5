import Spaze.SwapchainRuns

/-! The sizes of the blocks that a swapchain hands out. -/
namespace Spaze

open Runs

variable {w : ℕ} {ι : Type*} [DecidableEq ι] {get : Option Addr → Option Addr}
  {s t : SwapState ι w} {a : SwapCall ι w} {b : Addr} {k : ι}
  {seqs : Option ι → List Addr} {tr : List (SwapState ι w × SwapCall ι w)}

/-- The block has the width and height the swapchain has now. -/
def FitsChain (s : SwapState ι w) (k : ι) (b : Addr) : Prop :=
  (s.gfx.blocks b).width = (s.swapchains k).width ∧
    (s.gfx.blocks b).height = (s.swapchains k).height

/-- The block an acquire returns has the size of the swapchain. -/
def SizedResult (s : SwapState ι w) : SwapCall ι w → Prop
  | .acquire k (some block) => FitsChain s k block
  | _ => True

/-- A block that is reclaimed has the size the swapchain has then. -/
def SizedReclaim (s : SwapState ι w) : SwapCall ι w → Prop
  | .reclaim k block => FitsChain s k block
  | _ => True

/-- The lists are well formed and every chain holds blocks of its swapchain's size. -/
def Sized (s : SwapState ι w) : Prop :=
  ∃ seqs, Shelves s seqs ∧ ∀ k, ∀ b ∈ seqs (some k), FitsChain s k b

omit [DecidableEq ι] in
theorem FitsChain.of_eq (h : FitsChain s k b)
    (hwidth : (t.gfx.blocks b).width = (s.gfx.blocks b).width)
    (hheight : (t.gfx.blocks b).height = (s.gfx.blocks b).height)
    (hchain : (t.swapchains k).width = (s.swapchains k).width ∧
      (t.swapchains k).height = (s.swapchains k).height) : FitsChain t k b := by
  obtain ⟨hw, hh⟩ := h
  exact ⟨by rw [hwidth, hw, hchain.1], by rw [hheight, hh, hchain.2]⟩

omit [DecidableEq ι] in
/-- Calls that leave the sizes of the swapchains, and of the blocks in their chains, alone. -/
theorem fits_of_sub {seqs' : Option ι → List Addr}
    (hfits : ∀ i, ∀ b ∈ seqs (some i), FitsChain s i b)
    (hsub : ∀ i, ∀ b ∈ seqs' (some i), b ∈ seqs (some i))
    (hwidth : ∀ i, ∀ b ∈ seqs (some i), (t.gfx.blocks b).width = (s.gfx.blocks b).width)
    (hheight : ∀ i, ∀ b ∈ seqs (some i), (t.gfx.blocks b).height = (s.gfx.blocks b).height)
    (hchains : t.swapchains = s.swapchains) :
    ∀ i, ∀ b ∈ seqs' (some i), FitsChain t i b := by
  intro i b hb
  have hb' := hsub i b hb
  exact (hfits i b hb').of_eq (hwidth i b hb') (hheight i b hb') (by simp [hchains])

/-- Calls on one swapchain that leave the blocks alone. -/
theorem fits_of_update {seqs' : Option ι → List Addr} {g : Gfx w} {sc : SwapchainS w}
    {held : Finset Addr} (hfits : ∀ i, ∀ b ∈ seqs (some i), FitsChain s i b)
    (hblocks : g.blocks = s.gfx.blocks) (hother : ∀ i ≠ k, seqs' (some i) = seqs (some i))
    (hk : ∀ b ∈ seqs' (some k),
      (s.gfx.blocks b).width = sc.width ∧ (s.gfx.blocks b).height = sc.height) :
    ∀ i, ∀ b ∈ seqs' (some i),
      FitsChain ⟨g, Function.update s.swapchains k sc, held⟩ i b := by
  intro i b hb
  by_cases hi : i = k
  · subst i
    simpa [FitsChain, hblocks] using hk b hb
  · rw [hother i hi] at hb
    exact (hfits i b hb).of_eq (by rw [hblocks]) (by rw [hblocks]) (by simp [hi])

theorem sized_step (h : Sized s) (hget : ShmBlockGet get) (hheld : HeldCall s a)
    (hclean : CleanCall s a) (hsize : SizedReclaim s a) (hs : (swapSystem get ι w).step s a t) :
    Sized t := by
  obtain ⟨seqs, hshelf, hfits⟩ := h
  refine ⟨_, shelves_step hshelf hget hheld hclean hs, ?_⟩
  cases hs with
  | init k width height =>
    exact fits_of_update hfits rfl (fun i hi => by simp [nextSeqs, hi]) (by simp [nextSeqs])
  | deallocate block =>
    exact fits_of_sub hfits (fun i b hb => by simpa [nextSeqs] using hb) (fun _ _ _ => rfl)
      (fun _ _ _ => rfl) rfl
  | reclaim k block =>
    refine fits_of_update hfits rfl (fun i hi => by simp [nextSeqs, hi]) fun b hb => ?_
    simp only [nextSeqs, Function.update_self, List.mem_append, List.mem_singleton] at hb
    rcases hb with hb | rfl
    · exact hfits k b hb
    · exact hsize
  | @acquire k g sc r hcall =>
    obtain ⟨_, hblocks, hwidth, hheight, _⟩ := hshelf.acquire hget hcall
    refine fits_of_update hfits hblocks (fun i hi => by simp [nextSeqs, hi]) fun b hb => ?_
    simp only [nextSeqs, Function.update_self] at hb
    rw [hwidth, hheight]
    exact hfits k b (List.mem_of_mem_tail hb)
  | @resize k _ width height g sc hcall =>
    obtain ⟨hblocks, hwidth, hheight, _⟩ := hshelf.resize hclean hcall
    refine fits_of_update hfits hblocks (fun i hi => ?_) fun b hb => ?_
    · simp only [nextSeqs]
      split <;> simp [hi]
    · simp only [nextSeqs] at hb
      split at hb
      · rename_i hsame
        rw [hwidth, hheight, ← hsame.1, ← hsame.2]
        exact hfits k b hb
      · simp at hb
  | attach hblock =>
    have hne : ∀ i, ∀ b ∈ seqs (some i), b ≠ _ := fun i b hb he =>
      hshelf.notHeld (some i) b hb (he ▸ hblock)
    exact fits_of_sub hfits (fun _ _ hb => hb) (fun i b hb => by simp [attachBlock, hne i b hb])
      (fun i b hb => by simp [attachBlock, hne i b hb]) rfl
  | release block =>
    refine fits_of_sub hfits (fun _ _ hb => hb) (fun i b _ => ?_) (fun i b _ => ?_) rfl <;>
      by_cases hb : b = block <;> simp [bufferRelease, hb]
  | @allocate _ ans width height stride g r hfresh hcall =>
    have hblocks : ∀ i, ∀ b ∈ seqs (some i), g.blocks b = s.gfx.blocks b :=
      fun _ _ hb => hshelf.allocate_blocks hfresh (shmPoolAllocate_cases hcall) hb
    exact fits_of_sub hfits (fun _ _ hb => mem_seqs_of_allocate hb)
      (fun i b hb => by rw [hblocks i b hb]) (fun i b hb => by rw [hblocks i b hb]) rfl

theorem Sized.result (h : Sized s) (hget : ShmBlockGet get)
    (hs : (swapSystem get ι w).step s a t) : SizedResult s a := by
  obtain ⟨seqs, hshelf, hfits⟩ := h
  cases hs with
  | @acquire k g sc r hcall =>
    cases r with
    | none => trivial
    | some b => exact hfits k b ((hshelf.acquire hget hcall).1 b rfl)
  | init | allocate | deallocate | reclaim | resize | attach | release => trivial

/-- In every run whose reclaimed blocks have the swapchain's size at that moment, and where
no stale block goes into an empty list, every block acquired has the swapchain's size. -/
theorem acquired_size (hget : ShmBlockGet get) (h : (swapSystem get ι w).Trace tr t)
    (hheld : ∀ x ∈ tr, HeldCall x.1 x.2) (hclean : ∀ x ∈ tr, CleanCall x.1 x.2)
    (hsize : ∀ x ∈ tr, SizedReclaim x.1 x.2) : ∀ x ∈ tr, SizedResult x.1 x.2 := by
  obtain ⟨s, hi, hr⟩ := h
  intro x hx
  have hok : ∀ x ∈ tr, HeldCall x.1 x.2 ∧ CleanCall x.1 x.2 ∧ SizedReclaim x.1 x.2 :=
    fun x hx => ⟨hheld x hx, hclean x hx, hsize x hx⟩
  have hstart : Sized s := ⟨_, shelves_initial hi, by simp⟩
  have hstep : ∀ s a t, Sized s → HeldCall s a ∧ CleanCall s a ∧ SizedReclaim s a →
      (swapSystem get ι w).step s a t → Sized t :=
    fun _ _ _ h ⟨hheld, hclean, hsize⟩ hs => sized_step h hget hheld hclean hsize hs
  obtain ⟨hsized, v, hs⟩ := hr.invariant_mem hok hstep hstart hx
  exact hsized.result hget hs

/-! ## Two runs -/

instance (s : SwapState ι w) (k : ι) (b : Addr) : Decidable (FitsChain s k b) :=
  inferInstanceAs (Decidable (_ ∧ _))

instance (s : SwapState ι w) (a : SwapCall ι w) : Decidable (SizedResult s a) :=
  match a with
  | .acquire k (some block) => inferInstanceAs (Decidable (FitsChain s k block))
  | .acquire _ none => isTrue trivial
  | .init .. | .allocate .. | .deallocate _ | .reclaim .. | .resize .. | .attach _
  | .release _ => isTrue trivial

instance (s : SwapState ι w) (a : SwapCall ι w) : Decidable (SizedReclaim s a) :=
  match a with
  | .reclaim k block => inferInstanceAs (Decidable (FitsChain s k block))
  | .init .. | .allocate .. | .deallocate _ | .acquire .. | .resize .. | .attach _
  | .release _ => isTrue trivial

/-- A block is allocated at the size of the swapchain, goes through its chain, is flushed by a
resize, and a block of the new size follows it. -/
theorem acquired_size_resized : ∃ tr t, (swapSystem id Unit 64).Trace tr t ∧ tr.length = 7 ∧
    ∀ x ∈ tr, SizedResult x.1 x.2 := by
  obtain ⟨tr, t, hr, hp⟩ := executed_swap startedSwap
    [.init () 4 4, .allocate (answersAt 0) 4 4 16 none, .reclaim () 0, .resize () 8 8,
      .allocate (answersAt 1) 8 8 32 none, .reclaim () 1, .acquire () none]
    (fun tr _ => tr.length == 7 && tr.all fun x => decide (HeldCall x.1 x.2) &&
      decide (CleanCall x.1 x.2) && decide (SizedReclaim x.1 x.2)) (by decide)
  simp only [Bool.and_eq_true, beq_iff_eq, List.all_eq_true, decide_eq_true_eq] at hp
  have htr : (swapSystem id Unit 64).Trace tr t := ⟨_, startedSwap_initial, hr⟩
  exact ⟨tr, t, htr, hp.1, acquired_size shmBlockGet_id htr (fun x hx => (hp.2 x hx).1.1)
    (fun x hx => (hp.2 x hx).1.2) fun x hx => (hp.2 x hx).2⟩

/-- The call handed out the block: an acquire from the swapchain, or an allocation with the
size the swapchain has in `s`. -/
def gives (s : SwapState ι w) (k : ι) (block : Addr) : SwapCall ι w → Bool
  | .acquire k' (some b) => k' = k && b = block
  | .allocate _ width height _ (some b) =>
    b = block && width = (s.swapchains k).width && height = (s.swapchains k).height
  | _ => false

/-- Every block reclaimed was handed out by an earlier call. -/
def sourcedFrom (past : List (SwapCall ι w)) : List (SwapState ι w × SwapCall ι w) → Bool
  | [] => true
  | (s, .reclaim k block) :: rest =>
    past.any (gives s k block) && sourcedFrom (past ++ [.reclaim k block]) rest
  | (_, a) :: rest => sourcedFrom (past ++ [a]) rest

/-- A block that the client keeps across a resize comes back into the chain at its old size. -/
theorem acquired_size_fails : ¬ ∀ tr (t : SwapState Unit 64),
    (swapSystem id Unit 64).Trace tr t → (∀ x ∈ tr, HeldCall x.1 x.2) →
    sourcedFrom [] tr = true → ∀ x ∈ tr, SizedResult x.1 x.2 := by
  intro hf
  obtain ⟨tr, t, hr, hp⟩ := executed_swap startedSwap
    [.init () 4 4, .allocate (answersAt 0) 4 4 16 none, .reclaim () 0, .acquire () none,
      .resize () 8 8, .reclaim () 0, .acquire () none]
    (fun tr _ => (tr.all fun x => decide (HeldCall x.1 x.2)) && sourcedFrom [] tr &&
      tr.any fun x => !decide (SizedResult x.1 x.2)) (by decide)
  simp only [Bool.and_eq_true, List.all_eq_true, decide_eq_true_eq, List.any_eq_true] at hp
  obtain ⟨⟨hheld, hsourced⟩, x, hx, hbad⟩ := hp
  simp [hf tr t ⟨_, startedSwap_initial, hr⟩ hheld hsourced x hx] at hbad

end Spaze
