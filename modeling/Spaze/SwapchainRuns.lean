import Spaze.PoolRuns
import Spaze.SwapchainReturn

/-!
Runs of any number of swapchains over one pool, with a client that holds blocks.

The lists in memory refine one sequence of blocks for the pool and one for each
swapchain, as long as no block with a stale link word goes into an empty list.
-/
namespace Spaze

open Linked Ownership Runs

variable {w : ℕ} {ι : Type*} [DecidableEq ι]

/-- A swapchain before its `swapchain_init`. -/
def SwapchainS.zero (w : ℕ) : SwapchainS w where
  width := 0
  height := 0
  chain := ListS.zero
  alive := false

/-- The memory, the swapchains, and the blocks the client got and has not given back. -/
structure SwapState (ι : Type*) (w : ℕ) where
  gfx : Gfx w
  swapchains : ι → SwapchainS w
  held : Finset Addr

/-- A call with what it returned, or an event. -/
inductive SwapCall (ι : Type*) (w : ℕ)
  | init (k : ι) (width height : UsizeT w)
  | allocate (ans : Answers) (width height stride : UsizeT w) (result : Option Addr)
  | deallocate (block : Addr)
  | reclaim (k : ι) (block : Addr)
  | acquire (k : ι) (result : Option Addr)
  | resize (k : ι) (width height : UsizeT w)
  | attach (block : Addr)
  | release (block : Addr)

/-- `block->busy = true`, which the client does when it attaches the buffer. -/
def attachBlock (g : Gfx w) (block : Addr) : Gfx w :=
  { g with blocks := Function.update g.blocks block { g.blocks block with busy := true } }

/-- One completed call, or one event. `get` is `shm_block_get`. -/
inductive SwapStep (get : Option Addr → Option Addr) :
    SwapState ι w → SwapCall ι w → SwapState ι w → Prop
  | init {s : SwapState ι w} (k : ι) (width height : UsizeT w) :
      SwapStep get s (.init k width height)
        { s with swapchains := Function.update s.swapchains k (swapchainInit width height) }
  | allocate {s : SwapState ι w} {fuel : ℕ} {ans : Answers} {width height stride : UsizeT w}
      {g : Gfx w} {r : Option Addr} (hfresh : ans.malloc ∉ s.gfx.live)
      (h : shmPoolAllocate fuel ans s.gfx width height stride = .ok (g, r)) :
      SwapStep get s (.allocate ans width height stride r)
        { s with gfx := g, held := receive s.held r }
  | deallocate {s : SwapState ι w} (block : Addr) :
      SwapStep get s (.deallocate block)
        { s with gfx := shmPoolDeallocate s.gfx block, held := s.held.erase block }
  | reclaim {s : SwapState ι w} (k : ι) (block : Addr) :
      SwapStep get s (.reclaim k block)
        { gfx := (swapchainReclaim s.gfx (s.swapchains k) block).1
          swapchains := Function.update s.swapchains k
            (swapchainReclaim s.gfx (s.swapchains k) block).2
          held := s.held.erase block }
  | acquire {s : SwapState ι w} {k : ι} {g : Gfx w} {sc : SwapchainS w} {r : Option Addr}
      (h : swapchainAcquire get s.gfx (s.swapchains k) = .ok (g, sc, r)) :
      SwapStep get s (.acquire k r)
        { gfx := g
          swapchains := Function.update s.swapchains k sc
          held := receive s.held r }
  | resize {s : SwapState ι w} {k : ι} {fuel : ℕ} {width height : UsizeT w} {g : Gfx w}
      {sc : SwapchainS w}
      (h : swapchainResize fuel s.gfx (s.swapchains k) width height = .ok (g, sc)) :
      SwapStep get s (.resize k width height)
        { s with gfx := g, swapchains := Function.update s.swapchains k sc }
  | attach {s : SwapState ι w} {block : Addr} (hheld : block ∈ s.held) :
      SwapStep get s (.attach block) { s with gfx := attachBlock s.gfx block }
  | release {s : SwapState ι w} (block : Addr) :
      SwapStep get s (.release block) { s with gfx := bufferRelease s.gfx block }

/-- The run starts at a successful `shm_pool_init`, with no swapchain initialised. -/
def swapSystem (get : Option Addr → Option Addr) (ι : Type*) [DecidableEq ι] (w : ℕ) :
    System (SwapState ι w) (SwapCall ι w) where
  initial s := (∃ capacity, PoolInitial capacity ⟨s.gfx, s.held⟩) ∧
    ∀ k, s.swapchains k = SwapchainS.zero w
  step := SwapStep get

/-- What gfx.h makes of `shm_block_get`: a link is inside its block, and NULL is in none. -/
structure ShmBlockGet (get : Option Addr → Option Addr) : Prop where
  ofLink : ∀ b, get (some b) = some b
  ofNull : get none = none

/-- The client gives back blocks that it holds. -/
def HeldCall (s : SwapState ι w) : SwapCall ι w → Prop
  | .deallocate block => block ∈ s.held
  | .reclaim _ block => block ∈ s.held
  | _ => True

/-- A resize that does not return at once. -/
def Resizes (s : SwapState ι w) (k : ι) (width height : UsizeT w) : Prop :=
  ¬ ((s.swapchains k).width = width ∧ (s.swapchains k).height = height)

/-- A block that goes into an empty list has NULL in both its link words. -/
def CleanCall (s : SwapState ι w) : SwapCall ι w → Prop
  | .deallocate block => s.gfx.pool.freeBlocks.tail = none → Unlinked s.gfx.links block
  | .reclaim k block => (s.swapchains k).chain.tail = none → Unlinked s.gfx.links block
  | .resize k width height => Resizes s k width height → s.gfx.pool.freeBlocks.tail = none →
    ∀ b ∈ (s.swapchains k).chain.head, Unlinked s.gfx.links b
  | _ => True

/-! ## The sequences -/

/-- The list heads: the pool's free list, and the chain of each swapchain. -/
def SwapState.heads (s : SwapState ι w) : Option ι → ListS Addr
  | none => s.gfx.pool.freeBlocks
  | some k => (s.swapchains k).chain

/-- What a call does to the sequences of blocks the lists stand for. -/
def nextSeqs (s : SwapState ι w) (seqs : Option ι → List Addr) :
    SwapCall ι w → Option ι → List Addr
  | .init k _ _ => Function.update seqs (some k) []
  | .allocate _ _ _ _ (some block) => Function.update seqs none ((seqs none).erase block)
  | .allocate _ _ _ _ none => seqs
  | .deallocate block => Function.update seqs none (seqs none ++ [block])
  | .reclaim k block => Function.update seqs (some k) (seqs (some k) ++ [block])
  | .acquire k _ => Function.update seqs (some k) (seqs (some k)).tail
  | .resize k width height =>
    if (s.swapchains k).width = width ∧ (s.swapchains k).height = height then seqs
    else Function.update (Function.update seqs none (seqs none ++ seqs (some k))) (some k) []
  | .attach _ => seqs
  | .release _ => seqs

/-- The lists hold the sequences, of blocks nobody holds; no block in use is one that
mi_malloc could return again. -/
structure Shelves (s : SwapState ι w) (seqs : Option ι → List Addr) : Prop where
  lists : Lists s.gfx.links s.heads seqs
  notHeld : ∀ j, ∀ b ∈ seqs j, b ∉ s.held
  listLive : ∀ j, ∀ b ∈ seqs j, b ∈ s.gfx.live
  heldLive : ∀ b ∈ s.held, b ∈ s.gfx.live

variable {get : Option Addr → Option Addr} {s t : SwapState ι w} {a : SwapCall ι w}
  {seqs : Option ι → List Addr} {k : ι} {block : Addr} {xs ys : List Addr} {j : Option ι}

theorem heads_update (s : SwapState ι w) (k : ι) (g : Gfx w) (held : Finset Addr)
    (sc : SwapchainS w) (hg : g.pool.freeBlocks = s.gfx.pool.freeBlocks) :
    SwapState.heads ⟨g, Function.update s.swapchains k sc, held⟩ =
      Function.update s.heads (some k) sc.chain := by
  funext j
  cases j with
  | none => simpa [SwapState.heads] using hg
  | some i => by_cases hi : i = k <;> simp [SwapState.heads, hi]

theorem heads_pool (s : SwapState ι w) (g : Gfx w) (held : Finset Addr) :
    SwapState.heads ⟨g, s.swapchains, held⟩ = Function.update s.heads none g.pool.freeBlocks := by
  funext j
  cases j <;> simp [SwapState.heads]

omit [DecidableEq ι] in
/-- The blocks in the lists and those the client holds. -/
theorem Shelves.split (h : Shelves s seqs) :
    Split {b | ∃ j, b ∈ seqs j} s.held s.gfx.live :=
  ⟨fun b ⟨j, hb⟩ => h.notHeld j b hb, fun b ⟨j, hb⟩ => h.listLive j b hb, h.heldLive⟩

omit [DecidableEq ι] in
theorem shelves_of_split (hl : Lists s.gfx.links s.heads seqs)
    (h : Split {b | ∃ j, b ∈ seqs j} s.held s.gfx.live) : Shelves s seqs :=
  ⟨hl, fun j b hb => h.apart b ⟨j, hb⟩, fun j b hb => h.storedLive b ⟨j, hb⟩, h.heldLive⟩

omit [DecidableEq ι] in
/-- What leaves the lists, the blocks held and the memory in use alone. -/
theorem Shelves.same (h : Shelves s seqs) (hlinks : t.gfx.links = s.gfx.links)
    (hheads : t.heads = s.heads) (hheld : t.held = s.held) (hlive : t.gfx.live = s.gfx.live) :
    Shelves t seqs := by
  refine shelves_of_split ?_ ?_
  · rw [hlinks, hheads]
    exact h.lists
  · rw [hheld, hlive]
    exact h.split

/-- A block the client holds goes to the end of a list. -/
theorem Shelves.push (h : Shelves s seqs) (hb : block ∈ s.held)
    (hclean : (s.heads j).tail = none → Unlinked s.gfx.links block)
    (hlinks : t.gfx.links = (listPush s.gfx.links (s.heads j) block).1)
    (hheads : t.heads = Function.update s.heads j (listPush s.gfx.links (s.heads j) block).2)
    (hheld : t.held = s.held.erase block) (hlive : t.gfx.live = s.gfx.live) :
    Shelves t (Function.update seqs j (seqs j ++ [block])) := by
  refine shelves_of_split ?_ ?_
  · rw [hlinks, hheads]
    exact h.lists.push (fun i hm => h.notHeld i block hm hb) hclean
  · rw [hheld, hlive]
    refine h.split.store hb ?_
    rintro b ⟨i, hm⟩
    rw [Function.update_apply] at hm
    split at hm
    · rcases List.mem_append.mp hm with hm | hm
      · exact Or.inl ⟨j, hm⟩
      · exact Or.inr (List.mem_singleton.mp hm)
    · exact Or.inl ⟨i, hm⟩

/-- A block leaves a list, and the client may now hold it. -/
theorem Shelves.take (h : Shelves s seqs) (hj : seqs j = xs ++ block :: ys)
    (hlinks : t.gfx.links = (listRemove s.gfx.links (s.heads j) block).1)
    (hheads : t.heads = Function.update s.heads j (listRemove s.gfx.links (s.heads j) block).2)
    (hheld : ∀ b ∈ t.held, b = block ∨ b ∈ s.held) (hlive : t.gfx.live = s.gfx.live) :
    Shelves t (Function.update seqs j (xs ++ ys)) := by
  have hb : block ∈ seqs j := by simp [hj]
  have hn : (xs ++ block :: ys).Nodup := hj ▸ (h.lists.rep j).nodup
  rw [List.nodup_middle, List.nodup_cons] at hn
  refine shelves_of_split ?_ ?_
  · rw [hlinks, hheads]
    exact h.lists.remove hj
  · rw [hlive]
    refine h.split.take (a := block) ⟨j, hb⟩ ?_ hheld
    rintro b ⟨i, hm⟩
    rw [Function.update_apply] at hm
    split at hm
    · refine ⟨⟨j, ?_⟩, ne_of_mem_of_not_mem hm hn.1⟩
      rw [hj]
      exact ((List.sublist_cons_self block ys).append_left xs).subset hm
    · refine ⟨⟨i, hm⟩, ?_⟩
      rintro rfl
      exact h.lists.notMem (by assumption) hb hm

theorem mem_receive {held : Finset Addr} {b c : Addr} (h : b ∈ receive held (some c)) :
    b = c ∨ b ∈ held := Finset.mem_insert.mp h

omit [DecidableEq ι] in
/-- A fresh block is in no list, and the client may now hold it. -/
theorem Shelves.fresh (h : Shelves s seqs) (hb : block ∉ s.gfx.live)
    (hlinks : ∀ b, b ≠ block → t.gfx.links b = s.gfx.links b) (hheads : t.heads = s.heads)
    (hheld : t.held = insert block s.held) (hlive : t.gfx.live = insert block s.gfx.live) :
    Shelves t seqs := by
  refine shelves_of_split ?_ ?_
  · rw [hheads]
    exact h.lists.congr fun i b hm => hlinks b (ne_of_mem_of_not_mem (h.listLive i b hm) hb)
  · rw [hheld, hlive]
    exact h.split.create hb

theorem mem_update_nil {i : Option ι} {b : Addr} (hm : b ∈ Function.update seqs j [] i) :
    b ∈ seqs i := by
  rw [Function.update_apply] at hm
  split at hm
  · cases hm
  · exact hm

theorem Shelves.init (h : Shelves s seqs) (k : ι) (width height : UsizeT w) :
    Shelves { s with swapchains := Function.update s.swapchains k (swapchainInit width height) }
      (Function.update seqs (some k) []) := by
  refine shelves_of_split ?_ (h.split.mono ?_)
  · rw [heads_update s k s.gfx s.held _ rfl]
    exact h.lists.clear (some k)
  · rintro b ⟨i, hm⟩
    exact ⟨i, mem_update_nil hm⟩

/-- The sequences after a chain went behind the free blocks. -/
theorem mem_handBack {i : Option ι} {b : Addr} (hm : b ∈ Function.update
    (Function.update seqs none (seqs none ++ seqs (some k))) (some k) [] i) :
    i ≠ some k ∧ (b ∈ seqs i ∨ i = none ∧ b ∈ seqs (some k)) := by
  by_cases hi : i = some k
  · simp [hi] at hm
  · refine ⟨hi, ?_⟩
    rw [Function.update_of_ne hi, Function.update_apply] at hm
    split at hm
    · subst i
      simpa using hm
    · exact Or.inl hm

/-- The lists after a chain went behind the free blocks: only words of those two were written. -/
theorem Shelves.handBack_lists (h : Shelves s seqs) (k : ι) (sc : SwapchainS w)
    (hsc : sc.chain = ListS.zero)
    (hclean : s.gfx.pool.freeBlocks.tail = none →
      ∀ b, (s.swapchains k).chain.head = some b → Unlinked s.gfx.links b) :
    Lists (deallocateAll s.gfx (seqs (some k))).links
      (SwapState.heads ⟨deallocateAll s.gfx (seqs (some k)),
        Function.update s.swapchains k sc, s.held⟩)
      (Function.update (Function.update seqs none (seqs none ++ seqs (some k))) (some k) []) := by
  have hfree := h.lists.rep none
  have hchain := h.lists.rep (some k)
  have hd : (seqs none).Disjoint (seqs (some k)) :=
    h.lists.disjoint _ _ (Option.some_ne_none k).symm
  have hn : (seqs none ++ seqs (some k)).Nodup :=
    List.nodup_append.mpr ⟨hfree.nodup, hchain.nodup, fun x hx y hy he => hd hx (he ▸ hy)⟩
  obtain ⟨hrep, hframe⟩ := ListRep.deallocateAll hfree hn fun hnil x hx =>
    hclean (hfree.tail_eq_none_iff.mpr hnil) x (hchain.head.trans hx)
  have hother : ∀ i ≠ k, ∀ b ∈ seqs (some i), b ∉ seqs none ++ seqs (some k) := by
    intro i hi b hm
    have hfree' := (Option.some_ne_none i).symm
    have hchain' : some k ≠ some i := fun he => hi (Option.some.inj he).symm
    rw [List.mem_append, not_or]
    exact ⟨h.lists.notMem hfree' hm, h.lists.notMem hchain' hm⟩
  constructor
  · rintro (_ | i)
    · simpa [SwapState.heads] using hrep
    · by_cases hi : i = k
      · subst i
        simpa [SwapState.heads, hsc] using listRep_zero _
      · simpa [SwapState.heads, hi] using
          (h.lists.rep (some i)).congr fun x hx => hframe x (hother i hi x hx)
  · intro i j hij x hx hy
    obtain ⟨hi, hx' | ⟨rfl, hx'⟩⟩ := mem_handBack hx
    · obtain ⟨hj, hy' | ⟨rfl, hy'⟩⟩ := mem_handBack hy
      · exact h.lists.disjoint i j hij hx' hy'
      · exact h.lists.disjoint i (some k) hi hx' hy'
    · obtain ⟨hj, hy' | ⟨rfl, _⟩⟩ := mem_handBack hy
      · exact h.lists.disjoint (some k) j (Ne.symm hj) hx' hy'
      · exact hij rfl

/-- A chain goes behind the free blocks. -/
theorem Shelves.handBack (h : Shelves s seqs) (k : ι) (sc : SwapchainS w)
    (hsc : sc.chain = ListS.zero)
    (hclean : s.gfx.pool.freeBlocks.tail = none →
      ∀ b, (s.swapchains k).chain.head = some b → Unlinked s.gfx.links b) :
    Shelves { s with
        gfx := deallocateAll s.gfx (seqs (some k))
        swapchains := Function.update s.swapchains k sc }
      (Function.update (Function.update seqs none (seqs none ++ seqs (some k))) (some k) []) := by
  refine shelves_of_split (h.handBack_lists k sc hsc hclean) ?_
  dsimp only
  rw [deallocateAll_eq]
  refine h.split.mono ?_
  rintro b ⟨i, hm⟩
  rcases (mem_handBack hm).2 with hm | ⟨_, hm⟩
  · exact ⟨i, hm⟩
  · exact ⟨some k, hm⟩

theorem Shelves.allocate {ans : Answers} {width height stride : UsizeT w} {g : Gfx w}
    {r : Option Addr} (h : Shelves s seqs) (hfresh : ans.malloc ∉ s.gfx.live)
    (hcall : Allocated ans s.gfx width height stride g r) :
    Shelves { s with gfx := g, held := receive s.held r }
      (nextSeqs s seqs (.allocate ans width height stride r)) := by
  rcases hcall.effect with ⟨rfl, hsame⟩ | ⟨fuel, b, rfl, rfl, hfound⟩ | ⟨rfl, hnew, _⟩
  · refine h.same hsame.links ?_ rfl hsame.live
    funext i
    cases i <;> simp [SwapState.heads, hsame.freeBlocks]
  · have hrep := h.lists.rep none
    have hreach := ((shmPoolReuse_first hfound).mp rfl).reach.1
    have hb : b ∈ seqs none := hrep.seg.reach_prev (hrep.tail ▸ hreach)
    obtain ⟨xs, ys, hxs⟩ := List.append_of_mem hb
    have herase : (seqs none).erase b = xs ++ ys := by
      rw [hxs] at hrep ⊢
      exact hrep.erase_mid
    have htake := h.take (t := { s with gfx := s.gfx.removeFree b, held := insert b s.held })
      hxs rfl (heads_pool s _ _) (fun c hc => mem_receive hc) rfl
    simpa [nextSeqs, receive, herase] using htake
  · have hnot : ans.malloc ∉ seqs none := fun hm => hfresh (h.listLive none _ hm)
    have hkeep := h.fresh (t := { s with gfx := g, held := insert ans.malloc s.held }) hfresh
      (fun b hb => by simp [hnew.links, hb])
      (by funext i; cases i <;> simp [SwapState.heads, hnew.freeBlocks]) rfl hnew.live
    simpa [nextSeqs, receive, List.erase_of_not_mem hnot] using hkeep

omit [DecidableEq ι] in
/-- An allocation leaves the blocks in the lists alone, and adds none to them. -/
theorem Shelves.allocate_blocks {ans : Answers} {width height stride : UsizeT w} {g : Gfx w}
    {r : Option Addr} {b : Addr} (h : Shelves s seqs) (hfresh : ans.malloc ∉ s.gfx.live)
    (hcall : Allocated ans s.gfx width height stride g r) (hb : b ∈ seqs j) :
    g.blocks b = s.gfx.blocks b := by
  rcases hcall.effect with ⟨_, hsame⟩ | ⟨_, c, _, rfl, _⟩ | ⟨_, hnew, _⟩
  · rw [hsame.blocks]
  · rfl
  · have hne : b ≠ ans.malloc := ne_of_mem_of_not_mem (h.listLive j b hb) hfresh
    obtain ⟨buffer, hblocks⟩ := hnew.blocks
    simp [hblocks, hne]

theorem mem_seqs_of_allocate {ans : Answers} {width height stride : UsizeT w} {r : Option Addr}
    {b : Addr} (hb : b ∈ nextSeqs s seqs (.allocate ans width height stride r) j) :
    b ∈ seqs j := by
  cases r with
  | none => exact hb
  | some c =>
    simp only [nextSeqs, Function.update_apply] at hb
    split at hb
    · subst j
      exact List.mem_of_mem_erase hb
    · exact hb

/-- A `swapchain_acquire` that popped this block. -/
structure Acquired (g : Gfx w) (sc : SwapchainS w) (b : Addr) (g' : Gfx w) (sc' : SwapchainS w)
    (r : Option Addr) : Prop where
  gfx : g' = { g with links := (listRemove g.links sc.chain b).1 }
  swapchain : sc' = { sc with chain := (listRemove g.links sc.chain b).2 }
  result : r = if (g.blocks b).busy then none else some b

/-- A `swapchain_acquire` that returns has popped the front of the chain. -/
theorem ListRep.acquired {g g' : Gfx w} {sc sc' : SwapchainS w} {r : Option Addr}
    (h : ListRep g.links sc.chain xs) (hget : ShmBlockGet get)
    (hcall : swapchainAcquire get g sc = .ok (g', sc', r)) :
    ∃ b ys, xs = b :: ys ∧ Acquired g sc b g' sc' r := by
  obtain ⟨_, _, hcall⟩ := bind_eq_ok.mp hcall
  cases xs with
  | nil =>
    rw [h.popFront_nil] at hcall
    simp only [hget.ofNull] at hcall
    cases hcall
  | cons b ys =>
    rw [h.popFront_cons] at hcall
    simp only [hget.ofLink] at hcall
    refine ⟨b, ys, rfl, ?_⟩
    split at hcall
    · rename_i hbusy
      cases hcall
      exact ⟨rfl, rfl, (if_pos hbusy).symm⟩
    · rename_i hidle
      cases hcall
      exact ⟨rfl, rfl, (if_neg hidle).symm⟩

theorem Acquired.mem_receive {g g' : Gfx w} {sc sc' : SwapchainS w} {b c : Addr}
    {r : Option Addr} {held : Finset Addr} (h : Acquired g sc b g' sc' r)
    (hc : c ∈ receive held r) : c = b ∨ c ∈ held := by
  have hresult := h.result
  split at hresult
  · rw [hresult] at hc
    exact Or.inr hc
  · rw [hresult] at hc
    exact Spaze.mem_receive hc

/-- An acquire hands out a block of the chain or none, and writes no block. -/
theorem Shelves.acquire {g : Gfx w} {sc : SwapchainS w} {r : Option Addr}
    (h : Shelves s seqs) (hget : ShmBlockGet get)
    (hcall : swapchainAcquire get s.gfx (s.swapchains k) = .ok (g, sc, r)) :
    (∀ b, r = some b → b ∈ seqs (some k)) ∧ g.blocks = s.gfx.blocks ∧
      sc.width = (s.swapchains k).width ∧ sc.height = (s.swapchains k).height ∧
      Shelves ⟨g, Function.update s.swapchains k sc, receive s.held r⟩
        (nextSeqs s seqs (.acquire k r)) := by
  have hrep : ListRep s.gfx.links (s.swapchains k).chain (seqs (some k)) := h.lists.rep (some k)
  obtain ⟨b, ys, hseq, hacquired⟩ := hrep.acquired hget hcall
  have hheld : ∀ c ∈ receive s.held r, c = b ∨ c ∈ s.held := fun _ hc => hacquired.mem_receive hc
  obtain ⟨hg, hsc, hresult⟩ := hacquired
  refine ⟨?_, by rw [hg], by rw [hsc], by rw [hsc], ?_⟩
  · intro c hc
    rw [hc] at hresult
    split at hresult
    · cases hresult
    · rw [Option.some.inj hresult, hseq]
      exact List.mem_cons_self
  · have hfront : seqs (some k) = [] ++ b :: ys := hseq
    have hheads := heads_update s k g (receive s.held r) sc (by rw [hg])
    rw [hsc] at hheads
    have htake := h.take hfront (by rw [hg]; rfl) hheads hheld (by rw [hg])
    simpa [nextSeqs, hseq, hsc] using htake

theorem Shelves.resize {fuel : ℕ} {width height : UsizeT w} {g : Gfx w} {sc : SwapchainS w}
    (h : Shelves s seqs) (hclean : CleanCall s (.resize k width height))
    (hcall : swapchainResize fuel s.gfx (s.swapchains k) width height = .ok (g, sc)) :
    g.blocks = s.gfx.blocks ∧ sc.width = width ∧ sc.height = height ∧
      Shelves { s with gfx := g, swapchains := Function.update s.swapchains k sc }
        (nextSeqs s seqs (.resize k width height)) := by
  by_cases hsize : (s.swapchains k).width = width ∧ (s.swapchains k).height = height
  · simp only [swapchainResize, bind_eq_ok, if_pos hsize] at hcall
    obtain ⟨_, _, hcall⟩ := hcall
    cases hcall
    simpa [nextSeqs, hsize] using h
  · have hd : (seqs none).Disjoint (seqs (some k)) :=
      h.lists.disjoint _ _ (Option.some_ne_none k).symm
    obtain ⟨rfl, rfl⟩ := swapchainResize_ok (h.lists.rep none) (h.lists.rep (some k)) hd hsize
      hcall
    have hback := h.handBack k { s.swapchains k with
      chain := ListS.zero, width := width, height := height } rfl (hclean hsize)
    rw [nextSeqs, if_neg hsize]
    exact ⟨by rw [deallocateAll_eq], rfl, rfl, hback⟩

/-- The lists in memory do what the sequences do. -/
theorem shelves_step (h : Shelves s seqs) (hget : ShmBlockGet get) (hheld : HeldCall s a)
    (hclean : CleanCall s a) (hs : SwapStep get s a t) : Shelves t (nextSeqs s seqs a) := by
  cases hs with
  | init k width height => exact h.init k width height
  | allocate hfresh hcall => exact h.allocate hfresh (shmPoolAllocate_cases hcall)
  | deallocate => exact h.push hheld hclean rfl (heads_pool s _ _) rfl rfl
  | reclaim k => exact h.push hheld hclean rfl (heads_update s k _ _ _ rfl) rfl rfl
  | acquire hcall => exact (h.acquire hget hcall).2.2.2.2
  | resize hcall => exact (h.resize hclean hcall).2.2.2
  | attach => exact h.same rfl rfl rfl rfl
  | release => exact h.same rfl rfl rfl rfl

theorem shelves_initial (h : (swapSystem get ι w).initial s) : Shelves s fun _ => [] := by
  obtain ⟨⟨capacity, hpool⟩, hzero⟩ := h
  have hstart := hpool.started
  have hheads : s.heads = fun _ => ListS.zero := by
    funext i
    cases i with
    | none => exact hstart.freeBlocks
    | some k => simp [SwapState.heads, hzero, SwapchainS.zero]
  refine ⟨⟨?_, ?_⟩, by simp, by simp, ?_⟩
  · intro i
    rw [hheads]
    exact listRep_zero _
  · simp
  · simp [show s.held = ∅ from hpool.1]

/-! ## Runs that are carried out -/

/-- Carries out a call, if it is one that a run may make and it returns. The result it is
written with does not matter. -/
def swapExec (fuel : ℕ) (s : SwapState ι w) : SwapCall ι w → Option (SwapState ι w × SwapCall ι w)
  | .init k width height =>
    some ({ s with swapchains := Function.update s.swapchains k (swapchainInit width height) },
      .init k width height)
  | .allocate ans width height stride _ =>
    if ans.malloc ∈ s.gfx.live then none
    else match shmPoolAllocate fuel ans s.gfx width height stride with
      | .ok (g, r) => some ({ s with gfx := g, held := receive s.held r },
          .allocate ans width height stride r)
      | .error _ => none
  | .deallocate block =>
    some ({ s with gfx := shmPoolDeallocate s.gfx block, held := s.held.erase block },
      .deallocate block)
  | .reclaim k block =>
    some (⟨(swapchainReclaim s.gfx (s.swapchains k) block).1,
      Function.update s.swapchains k (swapchainReclaim s.gfx (s.swapchains k) block).2,
      s.held.erase block⟩, .reclaim k block)
  | .acquire k _ =>
    match swapchainAcquire id s.gfx (s.swapchains k) with
    | .ok (g, sc, r) =>
      some (⟨g, Function.update s.swapchains k sc, receive s.held r⟩, .acquire k r)
    | .error _ => none
  | .resize k width height =>
    match swapchainResize fuel s.gfx (s.swapchains k) width height with
    | .ok (g, sc) => some ({ s with gfx := g, swapchains := Function.update s.swapchains k sc },
        .resize k width height)
    | .error _ => none
  | .attach block =>
    if block ∈ s.held then some ({ s with gfx := attachBlock s.gfx block }, .attach block)
    else none
  | .release block => some ({ s with gfx := bufferRelease s.gfx block }, .release block)

theorem swapExec_step {fuel : ℕ} (s : SwapState ι w) (o : SwapCall ι w) (t : SwapState ι w)
    (a : SwapCall ι w) (h : swapExec fuel s o = some (t, a)) :
    (swapSystem id ι w).step s a t := by
  cases o with
  | init k width height =>
    cases h
    exact .init k width height
  | allocate ans width height stride r =>
    simp only [swapExec] at h
    split at h
    · cases h
    · split at h
      · cases h
        exact .allocate (by assumption) (by assumption)
      · cases h
  | deallocate block =>
    cases h
    exact .deallocate block
  | reclaim k block =>
    cases h
    exact .reclaim k block
  | acquire k r =>
    simp only [swapExec] at h
    split at h
    · cases h
      exact .acquire (by assumption)
    · cases h
  | resize k width height =>
    simp only [swapExec] at h
    split at h
    · cases h
      exact .resize (by assumption)
    · cases h
  | attach block =>
    simp only [swapExec] at h
    split at h
    · cases h
      exact .attach (by assumption)
    · cases h
  | release block =>
    cases h
    exact .release block

theorem shmBlockGet_id : ShmBlockGet id := ⟨fun _ => rfl, rfl⟩

/-- One swapchain over a pool of 4096 bytes, before its `swapchain_init`. -/
def startedSwap : SwapState Unit 64 where
  gfx := (startedPool 64 4096).gfx
  swapchains _ := SwapchainS.zero 64
  held := ∅

theorem startedSwap_initial : (swapSystem id Unit 64).initial startedSwap :=
  ⟨⟨4096, startedPool_initial (by decide)⟩, fun _ => rfl⟩

theorem executed_swap (s : SwapState Unit 64) (ops : List (SwapCall Unit 64))
    (p : List (SwapState Unit 64 × SwapCall Unit 64) → SwapState Unit 64 → Bool)
    (h : ((execute (swapExec 9) s ops).any fun out => p out.2 out.1) = true) :
    ∃ tr t, (swapSystem id Unit 64).Run s tr t ∧ p tr t = true :=
  execute_any swapExec_step h

instance (s : SwapState ι w) (a : SwapCall ι w) : Decidable (HeldCall s a) :=
  match a with
  | .deallocate block => inferInstanceAs (Decidable (block ∈ s.held))
  | .reclaim _ block => inferInstanceAs (Decidable (block ∈ s.held))
  | .init .. | .allocate .. | .acquire .. | .resize .. | .attach _ | .release _ => isTrue trivial

instance (s : SwapState ι w) (a : SwapCall ι w) : Decidable (CleanCall s a) :=
  match a with
  | .deallocate block => inferInstanceAs (Decidable
      (s.gfx.pool.freeBlocks.tail = none → s.gfx.links block = ⟨none, none⟩))
  | .reclaim k block => inferInstanceAs (Decidable
      ((s.swapchains k).chain.tail = none → s.gfx.links block = ⟨none, none⟩))
  | .resize k width height => inferInstanceAs (Decidable
      (¬ ((s.swapchains k).width = width ∧ (s.swapchains k).height = height) →
        s.gfx.pool.freeBlocks.tail = none →
        ∀ b ∈ (s.swapchains k).chain.head, s.gfx.links b = ⟨none, none⟩))
  | .init .. | .allocate .. | .acquire .. | .attach _ | .release _ => isTrue trivial

end Spaze
