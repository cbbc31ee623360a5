import Mathlib.Data.Set.Card
import Spaze.BlockStore
import Spaze.PoolPeaks

/-! How many blocks a store makes, and so how many buffers the pool does for its swapchains. -/
namespace Spaze

open Linked Runs

variable {w : ℕ} {ι : Type*} [DecidableEq ι]

/-- The blocks of the shape made so far. -/
def stockOf (c : Shape w) (p : BlockStore ι w) : ℕ :=
  (p.made.filter fun b => (p.blocks b).shape = c).card

/-- Those of them that are not free: in a chain, with the client, or dropped. -/
def outOf (c : Shape w) (p : BlockStore ι w) : ℕ :=
  (p.made.filter fun b => (p.blocks b).shape = c ∧ b ∉ p.shelf none).card

/-- The block is on a shelf or with the client. -/
def BlockStore.Has (p : BlockStore ι w) (b : Addr) : Prop := (∃ j, b ∈ p.shelf j) ∨ b ∈ p.held

/-- What the store has was made. -/
def BlockStore.Sound (p : BlockStore ι w) : Prop := ∀ b, p.Has b → b ∈ p.made

variable {p q : BlockStore ι w} {a : BlockCall ι w} {c : Shape w} {b block : Addr} {k : ι}
  {j : Option ι} {xs : List Addr} {tr : List (BlockStore ι w × BlockCall ι w)}

omit [DecidableEq ι] in
theorem BlockStore.find_eq_some {width height stride : UsizeT w}
    (h : p.find width height stride = some b) : b ∈ p.shelf none :=
  List.mem_reverse.mp (List.mem_of_find?_eq_some h)

omit [DecidableEq ι] in
theorem BlockStore.find_eq_none {width height stride : UsizeT w}
    (h : p.find width height stride = none) (hb : b ∈ p.shelf none) :
    (p.blocks b).shape ≠ ⟨width, height, stride⟩ := by
  intro hshape
  have hnot := List.find?_eq_none.mp h b (List.mem_reverse.mpr hb)
  simp only [ShmBlockS.shape, Shape.mk.injEq] at hshape
  simp [ShmBlockS.hasShape, hshape] at hnot

/-- A call leaves what is made and its shapes, or makes a block of a shape that is not free. -/
structure Makes (p q : BlockStore ι w) (block : Addr) : Prop where
  made : q.made = insert block p.made
  new : block ∉ p.made
  shelf : q.shelf = p.shelf
  others : ∀ b, b ≠ block → q.blocks b = p.blocks b
  missing : ∀ b ∈ p.shelf none, (p.blocks b).shape ≠ (q.blocks block).shape

omit [DecidableEq ι] in
theorem BlockStore.Has.held (h : b ∈ p.held) : p.Has b := Or.inr h

omit [DecidableEq ι] in
theorem BlockStore.Has.shelf (h : b ∈ p.shelf j) : p.Has b := Or.inl ⟨j, h⟩

theorem BlockStore.Has.of_update (h : q.Has b) (hshelf : q.shelf = Function.update p.shelf j xs)
    (hxs : ∀ b ∈ xs, p.Has b) (hheld : ∀ b ∈ q.held, p.Has b) : p.Has b := by
  rcases h with ⟨i, hi⟩ | hb
  · rw [hshelf, Function.update_apply] at hi
    split at hi
    · exact hxs b hi
    · exact .shelf hi
  · exact hheld b hb

theorem BlockStore.Has.of_handBack (h : (p.handBack k).Has b) : p.Has b := by
  rcases h with ⟨i, hi⟩ | hb
  · rcases (mem_handBack hi).2 with hi | ⟨_, hi⟩ <;> exact .shelf hi
  · exact .held hb

theorem BlockStore.Has.of_put (h : (p.put j block).Has b) (hblock : block ∈ p.held) : p.Has b := by
  refine h.of_update rfl (fun c hc => ?_) fun c hc => .held (Finset.mem_of_mem_erase hc)
  rcases List.mem_append.mp hc with hc | hc
  · exact .shelf hc
  · rw [List.mem_singleton.mp hc]
    exact .held hblock

omit [DecidableEq ι] in
theorem BlockStore.mark_shape (busy : Bool) (b : Addr) :
    ((p.mark block busy).blocks b).shape = (p.blocks b).shape := by
  by_cases hb : b = block
  · subst b
    simp [BlockStore.mark, ShmBlockS.shape]
  · simp [BlockStore.mark, hb]

theorem store_step_makes (h : StoreStep p a q) : (q.made = p.made ∧
    (∀ b, (q.blocks b).shape = (p.blocks b).shape) ∧ ∀ b, q.Has b → p.Has b) ∨
      ∃ block, Makes p q block ∧ ∀ b, q.Has b → b = block ∨ p.Has b := by
  cases h with
  | init => exact Or.inl ⟨rfl, fun _ => rfl, fun b hb => hb.of_update rfl (by simp) fun _ => Or.inr⟩
  | reuse hfind =>
    refine Or.inl ⟨rfl, fun _ => rfl, fun b hb => hb.of_update rfl ?_ fun c hc => ?_⟩
    · exact fun c hc => .shelf (List.mem_of_mem_erase hc)
    · rcases Finset.mem_insert.mp hc with rfl | hc
      · exact .shelf (p.find_eq_some hfind)
      · exact .held hc
  | @create ans width height stride buffer hfind hfresh =>
    refine Or.inr ⟨ans.malloc, ⟨rfl, hfresh, rfl, fun b hb => ?_, fun b hb => ?_⟩, fun b hb => ?_⟩
    · exact Function.update_of_ne hb _ _
    · simp only [Function.update_self]
      exact p.find_eq_none hfind hb
    · rcases hb with ⟨i, hi⟩ | hb
      · exact Or.inr (.shelf hi)
      · exact (Finset.mem_insert.mp hb).imp_right .held
  | refuse | keep | idle => exact Or.inl ⟨rfl, fun _ => rfl, fun _ => id⟩
  | deallocate hheld => exact Or.inl ⟨rfl, fun _ => rfl, fun _ hb => hb.of_put hheld⟩
  | reclaim hheld => exact Or.inl ⟨rfl, fun _ => rfl, fun _ hb => hb.of_put hheld⟩
  | @present k block rest _ hchain =>
    have hmem : ∀ c ∈ block :: rest, p.Has c := fun c hc => .shelf (hchain ▸ hc)
    refine Or.inl ⟨rfl, fun _ => rfl, fun b hb => hb.of_update rfl ?_ fun c hc => ?_⟩
    · exact fun c hc => hmem c (List.mem_cons_of_mem _ hc)
    · rcases Finset.mem_insert.mp hc with rfl | hc
      · exact hmem _ List.mem_cons_self
      · exact .held hc
  | @drop k block rest _ hchain =>
    have hmem : ∀ c ∈ block :: rest, p.Has c := fun c hc => .shelf (hchain ▸ hc)
    refine Or.inl ⟨rfl, fun _ => rfl, fun b hb => hb.of_update rfl ?_ fun _ => Or.inr⟩
    exact fun c hc => hmem c (List.mem_cons_of_mem _ hc)
  | resize | deinit => exact Or.inl ⟨rfl, fun _ => rfl, fun b hb => BlockStore.Has.of_handBack hb⟩
  | attach | release => exact Or.inl ⟨rfl, fun b => p.mark_shape _ b, fun _ => id⟩

omit [DecidableEq ι] in
theorem Makes.stock (h : Makes p q block) :
    stockOf c q = stockOf c p + if (q.blocks block).shape = c then 1 else 0 := by
  have hold : (p.made.filter fun b => (q.blocks b).shape = c) =
      p.made.filter fun b => (p.blocks b).shape = c := by
    apply Finset.filter_congr
    intro b hb
    rw [h.others b (ne_of_mem_of_not_mem hb h.new)]
  rw [stockOf, h.made, card_filter_insert h.new, hold, stockOf]

omit [DecidableEq ι] in
/-- No block of the shape is free when one is made. -/
theorem Makes.out (h : Makes p q block) (hp : p.Sound) (hshape : (q.blocks block).shape = c) :
    outOf c q = stockOf c q := by
  rw [outOf, stockOf]
  congr 1
  apply Finset.filter_congr
  intro b _
  refine and_iff_left_of_imp fun hb hfree => ?_
  rw [h.shelf] at hfree
  by_cases hblock : b = block
  · subst b
    exact h.new (hp block (.shelf hfree))
  · rw [h.others b hblock] at hb
    exact h.missing b hfree (hb.trans hshape.symm)

theorem stock_step (h : p.Sound) (hs : StoreStep p a q) : q.Sound ∧
    (stockOf c q = stockOf c p ∨ stockOf c p < stockOf c q ∧ stockOf c q = outOf c q) := by
  rcases store_step_makes hs with ⟨hmade, hshape, hhas⟩ | ⟨block, hmakes, hhas⟩
  · refine ⟨fun b hb => ?_, Or.inl ?_⟩
    · rw [hmade]
      exact h b (hhas b hb)
    · simp only [stockOf, hmade, hshape]
  · refine ⟨fun b hb => ?_, ?_⟩
    · rw [hmakes.made, Finset.mem_insert]
      exact (hhas b hb).imp_right (h b)
    · have hstock := hmakes.stock (c := c)
      by_cases hshape : (q.blocks block).shape = c
      · rw [if_pos hshape] at hstock
        exact Or.inr ⟨by omega, (hmakes.out h hshape).symm⟩
      · rw [if_neg hshape] at hstock
        exact Or.inl hstock

/-- A store has made as many blocks of each shape as were ever out at the same time. -/
theorem stock_peak (h : (storeSystem ι w).Trace tr q) (c : Shape w) :
    stockOf c q = peak (outOf c) tr q := by
  obtain ⟨p, ⟨hshelf, hheld, hmade, _⟩, hr⟩ := h
  have hsound : p.Sound := by
    rintro b (⟨j, hb⟩ | hb)
    · rw [hshelf j] at hb
      cases hb
    · rw [hheld] at hb
      exact absurd hb (Finset.notMem_empty b)
  have hle : ∀ p : BlockStore ι w, outOf c p ≤ stockOf c p := by
    intro p
    apply Finset.card_le_card
    intro b hb
    rw [Finset.mem_filter] at hb ⊢
    exact ⟨hb.1, hb.2.1⟩
  have hstart : stockOf c p = outOf c p := by simp [stockOf, outOf, hmade]
  exact (@System.Run.peak_eq _ _ _ _ _ _ BlockStore.Sound (fun _ _ => True) (stockOf c) (outOf c)
    hr (fun _ _ => trivial) (fun _ _ _ hp _ ha => stock_step hp ha) (fun p _ => hle p) hsound
    hstart).2

/-! ## The pool and its swapchains -/

/-- The blocks of the shape that are in use and not in the free list. -/
noncomputable def outside (c : Shape w) (s : SwapState ι w) : ℕ :=
  {b | b ∈ s.gfx.live ∧ (s.gfx.blocks b).shape = c ∧
    ¬ Reach (nexts s.gfx.links) s.gfx.pool.freeBlocks.head b}.ncard

variable {get : Option Addr → Option Addr} {s t : SwapState ι w}
  {tr : List (SwapState ι w × BlockCall ι w)}

omit [DecidableEq ι] in
theorem Stands.outside_eq (h : Stands s p) : outside c s = outOf c p := by
  obtain ⟨seqs, hshelves, rfl⟩ := h
  have hfree : ∀ b, Reach (nexts s.gfx.links) s.gfx.pool.freeBlocks.head b ↔ b ∈ seqs none :=
    fun b => hshelves.reach_iff (j := none)
  rw [outside, outOf, ← Set.ncard_coe_finset]
  congr 1
  ext b
  rw [Finset.mem_coe, Finset.mem_filter, Set.mem_ofPred_eq, hfree]
  exact Iff.rfl

/-- In every tidy run there are as many blocks of each shape as were ever out of the free list at
the same time, in chains, with the client or dropped. -/
theorem blocks_out_peak (hget : ShmBlockGet get) (h : (blockSystem get ι w).Trace tr t)
    (htidy : ∀ x ∈ tr, TidyCall x.1 x.2) (c : Shape w) :
    (t.gfx.live.filter fun b => (t.gfx.blocks b).shape = c).card = peak (outside c) tr t := by
  obtain ⟨tr', p, hrun, hall, hp⟩ := store_run hget h htidy
  have hpeak : peak (outside c) tr t = peak (outOf c) tr' p :=
    peak_eq_of_simulate hall hp fun _ _ hstands => hstands.outside_eq
  rw [hpeak, ← stock_peak hrun c]
  obtain ⟨_, _, rfl⟩ := hp
  rfl

/-- Three allocations of one shape, for which two blocks do: one of them was free in between. -/
theorem blocks_out_peak_reused : ∃ tr t, (blockSystem id Unit 64).Trace tr t ∧ tr.length = 6 ∧
    peak (outside ⟨4, 4, 16⟩) tr t = 2 := by
  obtain ⟨tr, t, htr, hp⟩ := executed_block
    [.swap (.init () 4 4), .swap (.allocate (answersAt 0) 4 4 16 none),
      .swap (.allocate (answersAt 1) 4 4 16 none), .swap (.reclaim () 0),
      .swap (.deallocate 1), .swap (.allocate (answersAt 2) 4 4 16 none)]
    (fun tr t => decide (tr.length = 6 ∧
      (t.gfx.live.filter fun b => (t.gfx.blocks b).shape = ⟨4, 4, 16⟩).card = 2) &&
      tr.all fun x => decide (TidyCall x.1 x.2)) (by decide)
  simp only [Bool.and_eq_true, List.all_eq_true, decide_eq_true_eq] at hp
  obtain ⟨⟨hlength, hmade⟩, htidy⟩ := hp
  have hpeak := blocks_out_peak shmBlockGet_id htr htidy ⟨4, 4, 16⟩
  exact ⟨tr, t, htr, hlength, hpeak.symm.trans hmade⟩

end Spaze
