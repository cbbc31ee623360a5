import Mathlib.Algebra.BigOperators.Group.Finset.Basic
import Mathlib.Algebra.Ring.Nat
import Mathlib.Data.List.Count
import Spaze.PoolSizes
import Spaze.ReuseSearch

/-!
How much of a pool a run uses up.

The law is about the pool over the sequence that its free list is meant to be. The pool over
the list in memory does the same as long as no block with a stale link word goes into the
empty list.
-/
namespace Spaze

open Ownership Runs

variable {w : ℕ}

/-! ## The pool over a sequence -/

/-- The pool with the free blocks as a sequence; the list in its memory is not used. -/
structure SeqState (w : ℕ) where
  gfx : Gfx w
  free : List Addr
  held : Finset Addr

/-- `shm_pool_allocate`, taking the last free block of the shape out of the sequence. -/
def seqAllocate (fuel : ℕ) (ans : Answers) (g : Gfx w) (free : List Addr)
    (width height stride : UsizeT w) : Except Stop (Gfx w × List Addr × Option Addr) := do
  assert g.pool.alive
  let reqSize := stride * height
  match lastOfShape g free width height stride with
  | some block => return (g, free.erase block, some block)
  | none =>
    let offset := g.pool.poolUsed
    let (g, err) ← shmPoolMakeRoom fuel ans g offset reqSize
    if err ≠ .ok then return (g, free, none)
    let (g, block) := shmPoolCreateBuffer ans g offset reqSize width height stride
    return (g, free, block)

/-- One completed call; `shm_pool_deallocate` appends to the sequence. -/
inductive SeqStep : SeqState w → PoolCall w → SeqState w → Prop
  | allocate {s : SeqState w} {fuel : ℕ} {ans : Answers} {width height stride : UsizeT w}
      {g : Gfx w} {free : List Addr} {r : Option Addr} (hfresh : ans.malloc ∉ s.gfx.live)
      (h : seqAllocate fuel ans s.gfx s.free width height stride = .ok (g, free, r)) :
      SeqStep s (.allocate ans width height stride r) ⟨g, free, receive s.held r⟩
  | deallocate {s : SeqState w} {block : Addr} :
      SeqStep s (.deallocate block) ⟨s.gfx, s.free ++ [block], s.held.erase block⟩

def seqSystem (w : ℕ) : System (SeqState w) (PoolCall w) where
  initial s := s.free = [] ∧ ∃ capacity, PoolInitial capacity ⟨s.gfx, s.held⟩
  step := SeqStep

/-! ## Counting blocks -/

/-- The shape of a block. -/
structure Shape (w : ℕ) where
  width : UsizeT w
  height : UsizeT w
  stride : UsizeT w
  deriving DecidableEq

/-- The exact number of bytes that a block of the shape takes. -/
def Shape.bytes (k : Shape w) : ℕ := k.stride.toNat * k.height.toNat

def ShmBlockS.shape (block : ShmBlockS w) : Shape w := ⟨block.width, block.height, block.stride⟩

/-- The shape of the block that a request made a buffer for. -/
def Request.shapeMade : Request w → Option (Shape w)
  | .wlShmPoolCreateBuffer _ _ width height stride (some _) => some ⟨width, height, stride⟩
  | _ => none

/-- The shapes of the blocks made so far. -/
def shapesMade (requests : List (Request w)) : List (Shape w) :=
  requests.filterMap Request.shapeMade

/-- The number of blocks of the shape made so far. -/
def madeOf (k : Shape w) (g : Gfx w) : ℕ := (shapesMade g.os.requests).count k

/-- The number of blocks of the shape that the caller holds. -/
def heldOf (k : Shape w) (g : Gfx w) (held : Finset Addr) : ℕ :=
  (held.filter fun b => (g.blocks b).shape = k).card

/-- The number of free blocks of the shape. -/
def freeOf (k : Shape w) (g : Gfx w) (free : List Addr) : ℕ :=
  free.countP fun b => (g.blocks b).shape = k

/-- Only blocks that the caller holds are deallocated, and the size of a new block, added to
`pool_used`, does not exceed the `usize_t` range. -/
def SeqFits (s : SeqState w) : PoolCall w → Prop
  | .allocate _ width height stride _ =>
    lastOfShape s.gfx s.free width height stride = none →
      s.gfx.pool.poolUsed.toNat + stride.toNat * height.toNat < 2 ^ w
  | .deallocate block => block ∈ s.held

/-- Each block made is held or free, and `pool_used` is what they all take. -/
structure Stocked (s : SeqState w) : Prop where
  nodup : s.free.Nodup
  split : Split {b | b ∈ s.free} s.held s.gfx.live
  made : ∀ k, madeOf k s.gfx = heldOf k s.gfx s.held + freeOf k s.gfx s.free
  used : s.gfx.pool.poolUsed.toNat = ((shapesMade s.gfx.os.requests).map Shape.bytes).sum

variable {s t : SeqState w} {a : PoolCall w} {g g' : Gfx w} {free free' : List Addr}
  {held : Finset Addr} {r : Option Addr} {ans : Answers} {fuel : ℕ} {b : Addr} {k : Shape w}
  {width height stride size : UsizeT w} {err : ShmPoolErrorE}

theorem shaped_iff : Shaped g width height stride b ↔
    (g.blocks b).shape = ⟨width, height, stride⟩ := by
  simp [Shaped, ShmBlockS.hasShape, ShmBlockS.shape, and_assoc]

theorem card_filter_insert {p : Addr → Prop} [DecidablePred p] (hb : b ∉ held) :
    ((insert b held).filter p).card = (held.filter p).card + if p b then 1 else 0 := by
  rw [Finset.filter_insert]
  split
  · exact Finset.card_insert_of_notMem fun hm => hb (Finset.mem_filter.mp hm).1
  · rfl

theorem free_countP_erase {p : Addr → Prop} [DecidablePred p] (hb : b ∈ free) :
    (free.erase b).countP (fun c => p c) + (if p b then 1 else 0) =
      free.countP fun c => p c := by
  rw [(List.perm_cons_erase hb).countP_eq, List.countP_cons]
  simp

theorem shapesMade_snoc (rs : List (Request w)) (q : Request w) :
    shapesMade (rs ++ [q]) = shapesMade rs ++ q.shapeMade.toList := by
  cases hq : q.shapeMade <;> simp [shapesMade, List.filterMap_append, hq]

theorem MadeRoom.shapesMade (h : MadeRoom ans g size g' err) :
    shapesMade g'.os.requests = shapesMade g.os.requests := by
  rcases h.requests with hr | ⟨hr, _⟩ <;> simp [hr, shapesMade_snoc, Request.shapeMade]

theorem shmPoolCreateBuffer_shapesMade {offset : UsizeT w} {out}
    (h : shmPoolCreateBuffer ans g offset size width height stride = out) :
    shapesMade out.1.os.requests = shapesMade g.os.requests ++
      if ans.createBuffer = none then [] else [⟨width, height, stride⟩] := by
  subst h
  unfold shmPoolCreateBuffer
  cases hb : ans.createBuffer <;> simp [Os.send, shapesMade_snoc, Request.shapeMade]

/-- A call takes the last free block of the shape, or makes one, or returns NULL. -/
theorem seqAllocate_cases
    (h : seqAllocate fuel ans g free width height stride = .ok (g', free', r)) :
    (∃ b, lastOfShape g free width height stride = some b ∧
        r = some b ∧ g' = g ∧ free' = free.erase b) ∨
      (lastOfShape g free width height stride = none ∧ free' = free ∧
        ((r = none ∧ SameBlocks g g' ∧
            shapesMade g'.os.requests = shapesMade g.os.requests) ∨
          (r = some ans.malloc ∧ Created ans g width height stride g' ∧
            shapesMade g'.os.requests =
              shapesMade g.os.requests ++ [⟨width, height, stride⟩]))) := by
  simp only [seqAllocate, bind_eq_ok] at h
  obtain ⟨_, _, h⟩ := h
  cases hl : lastOfShape g free width height stride with
  | some b =>
    rw [hl] at h
    cases h
    exact Or.inl ⟨b, rfl, rfl, rfl, rfl⟩
  | none =>
    rw [hl] at h
    simp only [bind_eq_ok] at h
    obtain ⟨⟨g₁, err⟩, hroom, h⟩ := h
    have hm := shmPoolMakeRoom_cases hroom
    have hsame := hm.sameBlocks
    have hmade := hm.shapesMade
    refine Or.inr ⟨rfl, ?_⟩
    split at h
    · cases h
      exact ⟨rfl, Or.inl ⟨rfl, hsame, hmade⟩⟩
    · generalize hout : shmPoolCreateBuffer ans g₁ g.pool.poolUsed (stride * height) width height
        stride = out at h
      cases h
      have hshapes := shmPoolCreateBuffer_shapesMade hout
      rcases shmPoolCreateBuffer_cases hsame hout with ⟨hb, hr, hsame⟩ | ⟨hb, hr, hnew⟩
      · rw [if_pos hb, List.append_nil, hmade] at hshapes
        exact ⟨rfl, Or.inl ⟨hr, hsame, hshapes⟩⟩
      · rw [if_neg hb, hmade] at hshapes
        exact ⟨rfl, Or.inr ⟨hr, hnew, hshapes⟩⟩

/-! ## What a call does to the counts -/

theorem Stocked.deallocate (h : Stocked s) (hb : b ∈ s.held) :
    Stocked ⟨s.gfx, s.free ++ [b], s.held.erase b⟩ := by
  have hbfree : b ∉ s.free := fun hm => h.split.apart b hm hb
  refine ⟨?_, h.split.store hb ?_, ?_, h.used⟩
  · rw [List.nodup_append]
    refine ⟨h.nodup, List.nodup_singleton b, fun x hx y hy he => ?_⟩
    rw [List.mem_singleton.mp hy] at he
    exact hbfree (he ▸ hx)
  · intro c hc
    exact (List.mem_append.mp hc).imp_right List.mem_singleton.mp
  · intro k
    have hmade := h.made k
    have hheld := card_filter_insert (p := fun c => (s.gfx.blocks c).shape = k)
      (Finset.notMem_erase b s.held)
    rw [Finset.insert_erase hb] at hheld
    simp only [heldOf, freeOf, List.countP_append, List.countP_singleton,
      decide_eq_true_eq] at hmade ⊢
    omega

theorem Stocked.reuse (h : Stocked s) (hb : b ∈ s.free) :
    Stocked ⟨s.gfx, s.free.erase b, insert b s.held⟩ := by
  have hheld : b ∉ s.held := h.split.apart b hb
  refine ⟨h.nodup.erase b, h.split.take hb ?_ ?_, ?_, h.used⟩
  · intro c hc
    obtain ⟨hne, hc⟩ := h.nodup.mem_erase_iff.mp hc
    exact ⟨hc, hne⟩
  · exact fun c hc => Finset.mem_insert.mp hc
  · intro k
    have hmade := h.made k
    have hinsert := card_filter_insert (p := fun c => (s.gfx.blocks c).shape = k) hheld
    have herase := free_countP_erase (p := fun c => (s.gfx.blocks c).shape = k) hb
    simp only [heldOf, freeOf] at hmade hinsert herase ⊢
    omega

theorem Stocked.refused (h : Stocked s) (hsame : SameBlocks s.gfx g)
    (hshapes : shapesMade g.os.requests = shapesMade s.gfx.os.requests) :
    Stocked ⟨g, s.free, s.held⟩ ∧ ∀ k, madeOf k g = madeOf k s.gfx := by
  refine ⟨⟨h.nodup, ?_, ?_, ?_⟩, fun k => ?_⟩
  · rw [hsame.live]
    exact h.split
  · intro k
    simp only [madeOf, heldOf, freeOf, hshapes, hsame.blocks]
    exact h.made k
  · rw [hsame.poolUsed, hshapes]
    exact h.used
  · rw [madeOf, hshapes, madeOf]

/-- A fresh block counts for its own shape, and leaves the counts of the others. -/
theorem Stocked.create_counts (h : Stocked s) (hfresh : ans.malloc ∉ s.gfx.live)
    (hnew : Created ans s.gfx width height stride g)
    (hshapes : shapesMade g.os.requests =
      shapesMade s.gfx.os.requests ++ [⟨width, height, stride⟩]) (k : Shape w) :
    let one := if (⟨width, height, stride⟩ : Shape w) = k then 1 else 0
    madeOf k g = madeOf k s.gfx + one ∧
      heldOf k g (insert ans.malloc s.held) = heldOf k s.gfx s.held + one ∧
      freeOf k g s.free = freeOf k s.gfx s.free := by
  obtain ⟨buffer, hblocks⟩ := hnew.blocks
  have hself : (g.blocks ans.malloc).shape = ⟨width, height, stride⟩ := by
    simp [hblocks, ShmBlockS.shape]
  have hother : ∀ b ∈ s.gfx.live, (g.blocks b).shape = (s.gfx.blocks b).shape := by
    intro b hb
    rw [hblocks, Function.update_of_ne (ne_of_mem_of_not_mem hb hfresh)]
  have hnot : ans.malloc ∉ s.held := fun hm => hfresh (h.split.heldLive _ hm)
  refine ⟨?_, ?_, ?_⟩
  · simp only [madeOf, hshapes, List.count_append, List.count_singleton, beq_iff_eq]
  · simp only [heldOf]
    rw [card_filter_insert hnot, hself]
    congr 2
    apply Finset.filter_congr
    intro b hb
    rw [hother b (h.split.heldLive b hb)]
  · apply List.countP_congr
    intro b hb
    rw [hother b (h.split.storedLive b hb)]

/-- A block is only made when none of its shape is free: then all of them are held. -/
theorem Stocked.create (h : Stocked s) (hfresh : ans.malloc ∉ s.gfx.live)
    (hnone : ∀ b ∈ s.free, ¬ Shaped s.gfx width height stride b)
    (hfits : s.gfx.pool.poolUsed.toNat + stride.toNat * height.toNat < 2 ^ w)
    (hnew : Created ans s.gfx width height stride g)
    (hshapes : shapesMade g.os.requests =
      shapesMade s.gfx.os.requests ++ [⟨width, height, stride⟩]) :
    Stocked ⟨g, s.free, insert ans.malloc s.held⟩ ∧
      ∀ k, madeOf k g = madeOf k s.gfx ∨ madeOf k s.gfx < madeOf k g ∧
        madeOf k g = heldOf k g (insert ans.malloc s.held) := by
  have hcounts := h.create_counts hfresh hnew hshapes
  have hmul : stride.toNat * height.toNat < 2 ^ w := by omega
  refine ⟨⟨h.nodup, ?_, ?_, ?_⟩, fun k => ?_⟩
  · rw [hnew.live]
    exact h.split.create hfresh
  · intro k
    obtain ⟨hmade, hheld, hfree⟩ := hcounts k
    rw [hmade, hheld, hfree, h.made k]
    omega
  · rw [hnew.poolUsed, toNat_add_mul hmul hfits, hshapes, List.map_append, List.sum_append,
      ← h.used]
    simp [Shape.bytes]
  · obtain ⟨hmade, hheld, _⟩ := hcounts k
    have hsum := h.made k
    by_cases hk : (⟨width, height, stride⟩ : Shape w) = k
    · have hzero : freeOf k s.gfx s.free = 0 := by
        apply List.countP_eq_zero.mpr
        intro b hb hb'
        exact hnone b hb (shaped_iff.mpr ((of_decide_eq_true hb').trans hk.symm))
      rw [if_pos hk] at hmade hheld
      omega
    · rw [if_neg hk] at hmade
      omega

/-! ## The law -/

theorem stocked_step (h : Stocked s) (hfits : SeqFits s a) (hs : (seqSystem w).step s a t) :
    Stocked t ∧ ∀ k, madeOf k t.gfx = madeOf k s.gfx ∨
      madeOf k s.gfx < madeOf k t.gfx ∧ madeOf k t.gfx = heldOf k t.gfx t.held := by
  cases hs with
  | deallocate => exact ⟨h.deallocate hfits, fun k => Or.inl rfl⟩
  | allocate hfresh hcall =>
    rcases seqAllocate_cases hcall with
      ⟨b, hfound, rfl, rfl, rfl⟩ | ⟨hnone, rfl, ⟨rfl, hsame, hshapes⟩ | ⟨rfl, hnew, hshapes⟩⟩
    · obtain ⟨xs, ys, hfree, _⟩ := lastOfShape_eq_some hfound
      have hb : b ∈ s.free := by simp [hfree]
      exact ⟨h.reuse hb, fun k => Or.inl rfl⟩
    · obtain ⟨hstocked, hmade⟩ := h.refused hsame hshapes
      exact ⟨hstocked, fun k => Or.inl (hmade k)⟩
    · exact h.create hfresh (lastOfShape_eq_none_iff.mp hnone) (hfits hnone) hnew hshapes

theorem stocked_initial (h : (seqSystem w).initial s) :
    Stocked s ∧ ∀ k, madeOf k s.gfx = heldOf k s.gfx s.held := by
  obtain ⟨hfree, capacity, hpool⟩ := h
  have hs := hpool.started
  obtain ⟨ptr, _, hos⟩ := hs.os
  have hheld : s.held = ∅ := hpool.1
  have hnone : shapesMade s.gfx.os.requests = [] := by
    rw [show s.gfx.os = _ from hos]
    rfl
  have hused : s.gfx.pool.poolUsed = 0 := hs.used
  have hzero : ∀ k, madeOf k s.gfx = 0 ∧ heldOf k s.gfx s.held = 0 ∧
      freeOf k s.gfx s.free = 0 := by
    intro k
    simp [madeOf, heldOf, freeOf, hnone, hheld, hfree]
  refine ⟨⟨?_, ⟨?_, ?_, ?_⟩, ?_, ?_⟩, ?_⟩
  · simp [hfree]
  · simp [hfree]
  · simp [hfree]
  · simp [hheld]
  · intro k
    obtain ⟨hmade, hheld, hfree⟩ := hzero k
    omega
  · simp [hnone, hused]
  · intro k
    obtain ⟨hmade, hheld, _⟩ := hzero k
    omega

/-- What is made so far is the largest number held at once. -/
theorem seq_peak {tr : List (SeqState w × PoolCall w)} (h : (seqSystem w).Trace tr t)
    (hfits : ∀ x ∈ tr, SeqFits x.1 x.2) (k : Shape w) :
    Stocked t ∧ madeOf k t.gfx = peak (fun s => heldOf k s.gfx s.held) tr t := by
  obtain ⟨s, hi, hr⟩ := h
  obtain ⟨hstart, hzero⟩ := stocked_initial hi
  refine hr.peak_eq (I := Stocked) (f := fun s => madeOf k s.gfx)
    (g := fun s => heldOf k s.gfx s.held) hfits ?_ ?_ hstart (hzero k)
  · intro s a t h hfits hs
    obtain ⟨hstocked, hmade⟩ := stocked_step h hfits hs
    exact ⟨hstocked, hmade k⟩
  · intro s h
    have hmade := h.made k
    omega

/-- The blocks made take what their shapes take. -/
theorem Stocked.used_eq (h : Stocked t) {f : Shape w → ℕ} (hf : ∀ k, madeOf k t.gfx = f k) :
    t.gfx.pool.poolUsed.toNat =
      ∑ k ∈ (shapesMade t.gfx.os.requests).toFinset, f k * k.bytes := by
  rw [h.used, Finset.sum_list_map_count]
  apply Finset.sum_congr rfl
  intro k _
  rw [← hf, Nat.nsmul_eq_mul, madeOf]

/-- In a run of the pool over a sequence, as many blocks of each shape have been made as were
ever held at the same time, and `pool_used` is what these take. -/
theorem blocks_made_peak {tr : List (SeqState w × PoolCall w)} (h : (seqSystem w).Trace tr t)
    (hfits : ∀ x ∈ tr, SeqFits x.1 x.2) :
    (∀ k, madeOf k t.gfx = peak (fun s => heldOf k s.gfx s.held) tr t) ∧
      t.gfx.pool.poolUsed.toNat = ∑ k ∈ (shapesMade t.gfx.os.requests).toFinset,
        peak (fun s => heldOf k s.gfx s.held) tr t * k.bytes := by
  have hpeak := seq_peak h hfits
  exact ⟨fun k => (hpeak k).2, (hpeak ⟨0, 0, 0⟩).1.used_eq fun k => (hpeak k).2⟩

/-! ## The pool over the list in memory -/

/-- The state with another list of free blocks in memory. -/
def Gfx.withList (g : Gfx w) (links : Links Addr) (freeBlocks : ListS Addr) : Gfx w :=
  { g with links := links, pool := { g.pool with freeBlocks := freeBlocks } }

variable {links : Links Addr} {freeBlocks : ListS Addr} {offset : UsizeT w}

theorem shmPoolDoGrow_withList {capacity : UsizeT w}
    (h : shmPoolDoGrow ans g capacity = .ok (g', err)) :
    shmPoolDoGrow ans (g.withList links freeBlocks) capacity =
      .ok (g'.withList links freeBlocks, err) := by
  obtain ⟨_, hassert, h⟩ := bind_eq_ok.mp h
  refine bind_eq_ok.mpr ⟨(), hassert, ?_⟩
  cases ht : ans.ftruncate with
  | false =>
    rw [ht] at h
    cases h
    rfl
  | true =>
    cases hm : ans.mmap <;> rw [ht, hm] at h <;> cases h <;> rfl

theorem shmPoolMakeRoom_withList
    (h : shmPoolMakeRoom fuel ans g offset size = .ok (g', err)) :
    shmPoolMakeRoom fuel ans (g.withList links freeBlocks) offset size =
      .ok (g'.withList links freeBlocks, err) := by
  unfold shmPoolMakeRoom at h ⊢
  by_cases hgrow : shmPoolNeedsGrow g.pool size = true
  · have hgrow' : shmPoolNeedsGrow (g.withList links freeBlocks).pool size = true := hgrow
    rw [if_pos hgrow] at h
    rw [if_pos hgrow']
    obtain ⟨capacity, hsearch, h⟩ := bind_eq_ok.mp h
    exact bind_eq_ok.mpr ⟨capacity, hsearch, shmPoolDoGrow_withList h⟩
  · have hgrow' : ¬ shmPoolNeedsGrow (g.withList links freeBlocks).pool size = true := hgrow
    rw [if_neg hgrow] at h
    rw [if_neg hgrow']
    cases h
    rfl

theorem Gfx.createBuffer_withList (g : Gfx w) (ans : Answers) (links : Links Addr)
    (freeBlocks : ListS Addr) (offset size width height stride : UsizeT w) : ∃ links',
    shmPoolCreateBuffer ans (g.withList links freeBlocks) offset size width height stride =
      ((shmPoolCreateBuffer ans g offset size width height stride).1.withList links' freeBlocks,
        (shmPoolCreateBuffer ans g offset size width height stride).2) := by
  unfold shmPoolCreateBuffer
  cases ans.createBuffer with
  | none => exact ⟨links, rfl⟩
  | some buffer => exact ⟨Function.update links ans.malloc ans.words, rfl⟩

theorem seqAllocate_hit (halive : g.pool.alive = true)
    (hlast : lastOfShape g free width height stride = some b) :
    seqAllocate fuel ans g free width height stride = .ok (g, free.erase b, some b) := by
  simp [seqAllocate, halive, hlast, Bind.bind, Except.bind, Pure.pure, Except.pure]

theorem seqAllocate_miss (halive : g.pool.alive = true)
    (hlast : lastOfShape g free width height stride = none)
    (hroom : shmPoolMakeRoom fuel ans g g.pool.poolUsed (stride * height) = .ok (g', err)) :
    seqAllocate fuel ans g free width height stride =
      if err ≠ .ok then .ok (g', free, none)
      else
        let out := shmPoolCreateBuffer ans g' g.pool.poolUsed (stride * height) width height stride
        .ok (out.1, free, out.2) := by
  simp only [seqAllocate, halive, hlast, hroom, assert_true, Bind.bind, Except.bind, Pure.pure,
    Except.pure]

/-- The pool over the sequence is where the pool over the list in memory is. -/
structure Follows (s : PoolState w) (q : SeqState w) : Prop where
  owned : Owned s q.free
  held : q.held = s.held
  gfx : ∃ links freeBlocks, q.gfx = s.gfx.withList links freeBlocks

variable {p p' : PoolState w}

/-- The block that is reused is the one taken out of the sequence. -/
theorem Follows.reuse (h : Follows p s) (hfresh : ans.malloc ∉ p.gfx.live)
    (halive : p.gfx.pool.alive = true)
    (hlast : lastOfShape s.gfx s.free width height stride = some b) :
    ∃ t, (seqSystem w).step s (.allocate ans width height stride (some b)) t ∧
      Follows ⟨p.gfx.removeFree b, receive p.held (some b)⟩ t := by
  obtain ⟨q, free, held⟩ := s
  obtain ⟨howned, hheld, links, freeBlocks, hgfx⟩ := h
  dsimp only at howned hheld hgfx hlast
  subst q held
  obtain ⟨xs, ys, rfl, _⟩ := lastOfShape_eq_some hlast
  have hseq : seqAllocate 0 ans (p.gfx.withList links freeBlocks) (xs ++ b :: ys) width height
      stride = _ := seqAllocate_hit halive hlast
  refine ⟨_, .allocate hfresh hseq, ?_, rfl, links, freeBlocks, rfl⟩
  rw [howned.rep.erase_mid]
  exact howned.reuse

/-- When no free block has the shape, the free list plays no part in the call. -/
theorem Follows.miss (h : Follows p s) (hfresh : ans.malloc ∉ p.gfx.live)
    (halive : p.gfx.pool.alive = true)
    (hlast : lastOfShape s.gfx s.free width height stride = none)
    (hroom : shmPoolMakeRoom fuel ans p.gfx p.gfx.pool.poolUsed (stride * height) =
      .ok (g', err))
    (hcall : (if err ≠ .ok then .ok (g', none)
      else .ok (shmPoolCreateBuffer ans g' p.gfx.pool.poolUsed (stride * height)
        width height stride) : Except Stop (Gfx w × Option Addr)) = .ok (g, r)) :
    ∃ t, (seqSystem w).step s (.allocate ans width height stride r) t ∧
      Follows ⟨g, receive p.held r⟩ t := by
  obtain ⟨q, free, held⟩ := s
  obtain ⟨howned, hheld, links, freeBlocks, hgfx⟩ := h
  dsimp only at howned hheld hgfx hlast
  subst q held
  have hsame := (shmPoolMakeRoom_cases hroom).sameBlocks
  have halive' : (p.gfx.withList links freeBlocks).pool.alive = true := halive
  have hseq := seqAllocate_miss halive' hlast (shmPoolMakeRoom_withList hroom)
  by_cases herr : err ≠ .ok
  · rw [if_pos herr] at hseq hcall
    cases hcall
    exact ⟨_, .allocate hfresh hseq, howned.sameBlocks hsame, rfl, links, freeBlocks, rfl⟩
  · rw [if_neg herr] at hseq hcall
    have hout := Except.ok.inj hcall
    obtain ⟨links', hbuffer⟩ := g'.createBuffer_withList ans links freeBlocks
      p.gfx.pool.poolUsed (stride * height) width height stride
    rw [hout] at hbuffer
    have hseq' : seqAllocate fuel ans (p.gfx.withList links freeBlocks) free width height stride =
        .ok (g.withList links' freeBlocks, free, r) := by
      rw [hseq]
      exact congrArg (fun out => Except.ok (out.1, free, out.2)) hbuffer
    refine ⟨_, .allocate hfresh hseq', ?_, rfl, links', freeBlocks, rfl⟩
    rcases shmPoolCreateBuffer_cases hsame hout with ⟨_, rfl, hkept⟩ | ⟨_, rfl, hnew⟩
    · exact howned.sameBlocks hkept
    · exact howned.create hfresh hnew

/-- An allocation does over a well formed free list what it does over the sequence. -/
theorem Follows.allocate (h : Follows p s) (hfresh : ans.malloc ∉ p.gfx.live)
    (hcall : shmPoolAllocate fuel ans p.gfx width height stride = .ok (g, r)) :
    ∃ t, (seqSystem w).step s (.allocate ans width height stride r) t ∧
      Follows ⟨g, receive p.held r⟩ t := by
  obtain ⟨_, hassert, hcall⟩ := bind_eq_ok.mp hcall
  have halive : p.gfx.pool.alive = true := assert_eq_ok.mp hassert
  obtain ⟨⟨g₁, reused⟩, hreuse, hcall⟩ := bind_eq_ok.mp hcall
  have hlast : lastOfShape s.gfx s.free width height stride = reused := by
    obtain ⟨howned, _, links, freeBlocks, hgfx⟩ := h
    rw [hgfx]
    exact (howned.rep.reuse hreuse).symm
  rcases shmPoolReuse_cases hreuse with ⟨rfl, rfl⟩ | ⟨b, rfl, _, rfl⟩
  · obtain ⟨⟨g₂, err⟩, hroom, hcall⟩ := bind_eq_ok.mp hcall
    exact h.miss hfresh halive hlast hroom hcall
  · cases hcall
    exact h.reuse hfresh halive hlast

theorem follows_step (h : Follows p s) (hheld : HeldDeallocate p a) (hclean : CleanDeallocate p a)
    (hs : (poolSystem w).step p a p') : ∃ t, (seqSystem w).step s a t ∧ Follows p' t := by
  cases hs with
  | allocate hfresh hcall => exact h.allocate hfresh hcall
  | deallocate =>
    refine ⟨_, .deallocate, h.owned.deallocate hheld hclean, ?_, h.gfx⟩
    rw [h.held]

theorem follows_initial (h : (poolSystem w).initial p) :
    (seqSystem w).initial ⟨p.gfx, [], p.held⟩ ∧ Follows p ⟨p.gfx, [], p.held⟩ :=
  ⟨⟨rfl, h⟩, owned_initial h, rfl, p.gfx.links, p.gfx.pool.freeBlocks, rfl⟩

theorem Follows.fits (h : Follows p s) (hheld : HeldDeallocate p a) (hno : NoOverflow p a) :
    SeqFits s a := by
  obtain ⟨_, hheld', links, freeBlocks, hgfx⟩ := h
  cases a with
  | allocate =>
    intro _
    rw [hgfx]
    exact hno.2
  | deallocate block =>
    have hblock : block ∈ p.held := hheld
    rw [← hheld'] at hblock
    exact hblock

/-- A run of the pool over the list in memory, in which no block with a stale link word goes
into the empty list, is a run of the pool over a sequence. -/
theorem seq_trace_of_pool {tr : List (PoolState w × PoolCall w)}
    (h : (poolSystem w).Trace tr p) (hheld : ∀ x ∈ tr, HeldDeallocate x.1 x.2)
    (hclean : ∀ x ∈ tr, CleanDeallocate x.1 x.2) (hno : ∀ x ∈ tr, NoOverflow x.1 x.2) :
    ∃ tr' q, (seqSystem w).Trace tr' q ∧ (∀ y ∈ tr', SeqFits y.1 y.2) ∧ Follows p q ∧
      List.Forall₂ (fun x y => Follows x.1 y.1 ∧ x.2 = y.2) tr tr' := by
  obtain ⟨s, hi, hr⟩ := h
  obtain ⟨hseq, hfollows⟩ := follows_initial hi
  have hok : ∀ x ∈ tr, HeldDeallocate x.1 x.2 ∧ CleanDeallocate x.1 x.2 :=
    fun x hx => ⟨hheld x hx, hclean x hx⟩
  have hstep : ∀ p a p' s, Follows p s → HeldDeallocate p a ∧ CleanDeallocate p a →
      (poolSystem w).step p a p' → ∃ t, (seqSystem w).step s a t ∧ Follows p' t :=
    fun _ _ _ _ hf hok hs => follows_step hf hok.1 hok.2 hs
  obtain ⟨tr', q, hrun, hall, hq⟩ := hr.simulate hok hstep hfollows
  refine ⟨tr', q, ⟨_, hseq, hrun⟩, ?_, hq, hall⟩
  intro y hy
  obtain ⟨x, hx, hxy, hlabel⟩ := mem_of_simulate hall hy
  rw [← hlabel]
  exact hxy.fits (hheld x hx) (hno x hx)

/-- So the law holds of such a run too. -/
theorem pool_made_peak {tr : List (PoolState w × PoolCall w)}
    (h : (poolSystem w).Trace tr p) (hheld : ∀ x ∈ tr, HeldDeallocate x.1 x.2)
    (hclean : ∀ x ∈ tr, CleanDeallocate x.1 x.2) (hno : ∀ x ∈ tr, NoOverflow x.1 x.2) :
    (∀ k, madeOf k p.gfx = peak (fun s => heldOf k s.gfx s.held) tr p) ∧
      p.gfx.pool.poolUsed.toNat = ∑ k ∈ (shapesMade p.gfx.os.requests).toFinset,
        peak (fun s => heldOf k s.gfx s.held) tr p * k.bytes := by
  obtain ⟨tr', q, htr, hfits, hq, hall⟩ := seq_trace_of_pool h hheld hclean hno
  have hpeak := seq_peak htr hfits
  have hmade : ∀ k, madeOf k q.gfx = peak (fun s => heldOf k s.gfx s.held) tr p := by
    intro k
    rw [(hpeak k).2]
    refine (peak_eq_of_simulate hall hq ?_).symm
    rintro s p ⟨_, hheld, links, freeBlocks, hgfx⟩
    rw [hheld, hgfx]
    rfl
  have hused := (hpeak ⟨0, 0, 0⟩).1.used_eq hmade
  obtain ⟨_, _, links, freeBlocks, hgfx⟩ := hq
  rw [hgfx] at hmade hused
  exact ⟨hmade, hused⟩

/-- Two blocks of 64 bytes and one of 96; one goes back and out again, and the compositor
refuses another. -/
theorem blocks_made_peak_reused : ∃ tr t, (seqSystem 64).Trace tr t ∧
    t.gfx.pool.poolUsed.toNat = 224 ∧
    ∀ k, madeOf k t.gfx = peak (fun s => heldOf k s.gfx s.held) tr t := by
  obtain ⟨tr, t, htr, hp⟩ := executed_trace 64
    [.allocate (answersAt 0) 4 4 16, .allocate (answersAt 1) 8 3 32,
      .allocate (answersAt 2) 4 4 16, .deallocate 0,
      .allocate { answersAt 3 with createBuffer := none } 9 9 64,
      .allocate (answersAt 3) 4 4 16]
    (fun tr t => (tr.all fun x => decide (HeldDeallocate x.1 x.2 ∧ CleanDeallocate x.1 x.2 ∧
      NoOverflow x.1 x.2)) && decide (t.gfx.pool.poolUsed.toNat = 224)) (by decide) (by decide)
  simp only [Bool.and_eq_true, List.all_eq_true, decide_eq_true_eq] at hp
  obtain ⟨hok, hused⟩ := hp
  obtain ⟨tr', q, htr', hfits, ⟨_, _, links, freeBlocks, hgfx⟩, _⟩ := seq_trace_of_pool htr
    (fun x hx => (hok x hx).1) (fun x hx => (hok x hx).2.1) fun x hx => (hok x hx).2.2
  refine ⟨tr', q, htr', ?_, (blocks_made_peak htr' hfits).1⟩
  rw [hgfx]
  exact hused

end Spaze
