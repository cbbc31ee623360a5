import Spaze.BlockPlaces
import Spaze.ReuseSearch

/-!
What the pool and its swapchains are for: a store of blocks, in which the free blocks and the
chains are sequences. The code goes through its states.
-/
namespace Spaze

open Linked Runs

variable {w : ℕ} {ι : Type*} [DecidableEq ι]

/-! ## The store -/

/-- The blocks. `shelf none` is the sequence of the free ones, and the others are the chains. -/
structure BlockStore (ι : Type*) (w : ℕ) where
  shelf : Option ι → List Addr
  held : Finset Addr
  made : Finset Addr
  blocks : Addr → ShmBlockS w
  size : ι → UsizeT w × UsizeT w
  alive : ι → Bool

/-- The last of some blocks that has this shape. -/
def BlockStore.find (p : BlockStore ι w) (width height stride : UsizeT w) : Option Addr :=
  (p.shelf none).reverse.find? fun b => (p.blocks b).hasShape width height stride

/-- A chain goes behind the free blocks. -/
def BlockStore.handBack (p : BlockStore ι w) (k : ι) : BlockStore ι w :=
  { p with
    shelf := Function.update (Function.update p.shelf none (p.shelf none ++ p.shelf (some k)))
      (some k) [] }

theorem BlockStore.handBack_none (p : BlockStore ι w) (k : ι) :
    (p.handBack k).shelf none = p.shelf none ++ p.shelf (some k) := by
  simp [BlockStore.handBack]

/-- A held block goes to the end of a shelf. -/
def BlockStore.put (p : BlockStore ι w) (j : Option ι) (block : Addr) : BlockStore ι w :=
  { p with
    shelf := Function.update p.shelf j (p.shelf j ++ [block])
    held := p.held.erase block }

/-- A block is busy or not. -/
def BlockStore.mark (p : BlockStore ι w) (block : Addr) (busy : Bool) : BlockStore ι w :=
  { p with blocks := Function.update p.blocks block { p.blocks block with busy := busy } }

/-- One call on the store. Whether there is room for a new block is up to the system. -/
inductive StoreStep : BlockStore ι w → BlockCall ι w → BlockStore ι w → Prop
  | init {p : BlockStore ι w} {k : ι} {width height : UsizeT w} :
      StoreStep p (.swap (.init k width height))
        { p with
          shelf := Function.update p.shelf (some k) []
          size := Function.update p.size k (width, height)
          alive := Function.update p.alive k true }
  | reuse {p : BlockStore ι w} {ans : Answers} {width height stride : UsizeT w} {b : Addr}
      (hfind : p.find width height stride = some b) :
      StoreStep p (.swap (.allocate ans width height stride (some b)))
        { p with
          shelf := Function.update p.shelf none ((p.shelf none).erase b)
          held := insert b p.held }
  | create {p : BlockStore ι w} {ans : Answers} {width height stride : UsizeT w} {buffer : Proxy}
      (hfind : p.find width height stride = none) (hfresh : ans.malloc ∉ p.made) :
      StoreStep p (.swap (.allocate ans width height stride (some ans.malloc)))
        { p with
          held := insert ans.malloc p.held
          made := insert ans.malloc p.made
          blocks := Function.update p.blocks ans.malloc ⟨buffer, width, height, stride, false⟩ }
  | refuse {p : BlockStore ι w} {ans : Answers} {width height stride : UsizeT w}
      (hfind : p.find width height stride = none) :
      StoreStep p (.swap (.allocate ans width height stride none)) p
  | deallocate {p : BlockStore ι w} {block : Addr} (hheld : block ∈ p.held) :
      StoreStep p (.swap (.deallocate block)) (p.put none block)
  | reclaim {p : BlockStore ι w} {k : ι} {block : Addr} (hheld : block ∈ p.held) :
      StoreStep p (.swap (.reclaim k block)) (p.put (some k) block)
  | present {p : BlockStore ι w} {k : ι} {block : Addr} {rest : List Addr}
      (halive : p.alive k = true) (hchain : p.shelf (some k) = block :: rest)
      (hidle : (p.blocks block).busy = false) :
      StoreStep p (.swap (.acquire k (some block)))
        { p with
          shelf := Function.update p.shelf (some k) rest
          held := insert block p.held }
  | drop {p : BlockStore ι w} {k : ι} {block : Addr} {rest : List Addr}
      (halive : p.alive k = true) (hchain : p.shelf (some k) = block :: rest)
      (hbusy : (p.blocks block).busy = true) :
      StoreStep p (.swap (.acquire k none))
        { p with shelf := Function.update p.shelf (some k) rest }
  | keep {p : BlockStore ι w} {k : ι} {width height : UsizeT w} (halive : p.alive k = true)
      (hsize : p.size k = (width, height)) : StoreStep p (.swap (.resize k width height)) p
  | resize {p : BlockStore ι w} {k : ι} {width height : UsizeT w} (halive : p.alive k = true)
      (hsize : p.size k ≠ (width, height)) :
      StoreStep p (.swap (.resize k width height))
        { p.handBack k with size := Function.update p.size k (width, height) }
  | attach {p : BlockStore ι w} {block : Addr} (hheld : block ∈ p.held) :
      StoreStep p (.swap (.attach block)) (p.mark block true)
  | release {p : BlockStore ι w} {block : Addr} :
      StoreStep p (.swap (.release block)) (p.mark block false)
  | deinit {p : BlockStore ι w} {k : ι} (halive : p.alive k = true) :
      StoreStep p (.deinit k) { p.handBack k with alive := Function.update p.alive k false }
  | idle {p : BlockStore ι w} {k : ι} (hdead : p.alive k = false) : StoreStep p (.deinit k) p

/-- There are no blocks yet, and no swapchain is in use. -/
def storeSystem (ι : Type*) [DecidableEq ι] (w : ℕ) : System (BlockStore ι w) (BlockCall ι w) where
  initial p := (∀ j, p.shelf j = []) ∧ p.held = ∅ ∧ p.made = ∅ ∧ ∀ k, p.alive k = false
  step := StoreStep

/-- The size of the blocks that a swapchain is for. -/
def SwapchainS.size (sc : SwapchainS w) : UsizeT w × UsizeT w := (sc.width, sc.height)

/-- The store that the memory stands for, if the lists stand for these sequences. -/
def storeOf (s : SwapState ι w) (seqs : Option ι → List Addr) : BlockStore ι w where
  shelf := seqs
  held := s.held
  made := s.gfx.live
  blocks := s.gfx.blocks
  size := SwapchainS.size ∘ s.swapchains
  alive := SwapchainS.alive ∘ s.swapchains

/-- The memory stands for the store. -/
def Stands (s : SwapState ι w) (p : BlockStore ι w) : Prop :=
  ∃ seqs, Shelves s seqs ∧ p = storeOf s seqs

variable {get : Option Addr → Option Addr} {s t : SwapState ι w} {a : BlockCall ι w}
  {seqs seqs' : Option ι → List Addr} {p q : BlockStore ι w} {k : ι} {g : Gfx w}
  {tr : List (SwapState ι w × BlockCall ι w)}

/-! ## A call does to the store what it is for -/

theorem storeOf_update (held : Finset Addr) (sc : SwapchainS w) :
    storeOf ⟨g, Function.update s.swapchains k sc, held⟩ seqs =
      { shelf := seqs
        held := held
        made := g.live
        blocks := g.blocks
        size := Function.update (SwapchainS.size ∘ s.swapchains) k sc.size
        alive := Function.update (SwapchainS.alive ∘ s.swapchains) k sc.alive } := by
  simp only [storeOf, Function.comp_update]

/-- A change of a swapchain that keeps its size and life. -/
theorem storeOf_chain (held : Finset Addr) {sc : SwapchainS w}
    (hsize : sc.size = (s.swapchains k).size) (halive : sc.alive = (s.swapchains k).alive) :
    storeOf ⟨g, Function.update s.swapchains k sc, held⟩ seqs =
      { storeOf s seqs with held := held, made := g.live, blocks := g.blocks } := by
  have hsizes : Function.update (SwapchainS.size ∘ s.swapchains) k sc.size =
      SwapchainS.size ∘ s.swapchains := by
    rw [hsize]
    exact Function.update_eq_self k (SwapchainS.size ∘ s.swapchains)
  have halives : Function.update (SwapchainS.alive ∘ s.swapchains) k sc.alive =
      SwapchainS.alive ∘ s.swapchains := by
    rw [halive]
    exact Function.update_eq_self k (SwapchainS.alive ∘ s.swapchains)
  simp only [storeOf, Function.comp_update, hsizes, halives]

/-- An allocation takes a free block of the shape, makes one, or is refused. -/
theorem store_allocate {fuel : ℕ} {ans : Answers} {width height stride : UsizeT w}
    {r : Option Addr} (h : Shelves s seqs) (hfresh : ans.malloc ∉ s.gfx.live)
    (hcall : shmPoolAllocate fuel ans s.gfx width height stride = .ok (g, r)) :
    StoreStep (storeOf s seqs) (.swap (.allocate ans width height stride r))
      (storeOf { s with gfx := g, held := receive s.held r }
        (nextSeqs s seqs (.allocate ans width height stride r))) := by
  have hrep : ListRep s.gfx.links s.gfx.pool.freeBlocks (seqs none) := h.lists.rep none
  rcases hrep.allocate_cases hcall with ⟨b, hfound, rfl, rfl⟩ | ⟨hnone, ⟨rfl, hsame⟩ | ⟨rfl, hnew⟩⟩
  · exact .reuse hfound
  · have hstays : storeOf { s with gfx := g, held := receive s.held none } seqs =
        storeOf s seqs := by
      simp only [storeOf, hsame.live, hsame.blocks, receive]
    rw [nextSeqs, hstays]
    exact .refuse hnone
  · obtain ⟨buffer, hblocks⟩ := hnew.blocks
    have hnot : ans.malloc ∉ seqs none := fun hm => hfresh (h.listLive none _ hm)
    have hmade := @StoreStep.create _ _ _ (storeOf s seqs) ans _ _ _ buffer hnone hfresh
    have hshelf : nextSeqs s seqs (.allocate ans width height stride (some ans.malloc)) = seqs := by
      rw [nextSeqs, List.erase_of_not_mem hnot, Function.update_eq_self]
    rw [hshelf]
    simpa only [storeOf, hnew.live, hblocks, receive] using hmade

theorem store_acquire {sc : SwapchainS w} {r : Option Addr} (h : Shelves s seqs)
    (hget : ShmBlockGet get)
    (hcall : swapchainAcquire get s.gfx (s.swapchains k) = .ok (g, sc, r)) :
    StoreStep (storeOf s seqs) (.swap (.acquire k r))
      (storeOf ⟨g, Function.update s.swapchains k sc, receive s.held r⟩
        (nextSeqs s seqs (.acquire k r))) := by
  have hrep : ListRep s.gfx.links (s.swapchains k).chain (seqs (some k)) := h.lists.rep (some k)
  obtain ⟨block, rest, hchain, hacquired⟩ := hrep.acquired hget hcall
  have halive : (s.swapchains k).alive = true := by
    obtain ⟨_, hassert, _⟩ := bind_eq_ok.mp hcall
    exact assert_eq_ok.mp hassert
  have hsize : sc.size = (s.swapchains k).size := by
    rw [hacquired.swapchain]
    rfl
  have hlife : sc.alive = (s.swapchains k).alive := by rw [hacquired.swapchain]
  have hlive : g.live = s.gfx.live := by rw [hacquired.gfx]
  have hblocks : g.blocks = s.gfx.blocks := by rw [hacquired.gfx]
  rw [storeOf_chain _ hsize hlife, hlive, hblocks, nextSeqs, hchain, List.tail_cons]
  have hresult := hacquired.result
  split at hresult
  · rename_i hbusy
    rw [hresult]
    exact .drop halive hchain hbusy
  · rename_i hidle
    rw [hresult]
    exact .present halive hchain (Bool.eq_false_of_not_eq_true hidle)

theorem storeOf_handBack (k : ι) (sc : SwapchainS w) :
    storeOf { s with
        gfx := deallocateAll s.gfx (seqs (some k))
        swapchains := Function.update s.swapchains k sc }
      (Function.update (Function.update seqs none (seqs none ++ seqs (some k))) (some k) []) =
      { (storeOf s seqs).handBack k with
        size := Function.update (storeOf s seqs).size k sc.size
        alive := Function.update (storeOf s seqs).alive k sc.alive } := by
  rw [storeOf_update, deallocateAll_eq]
  rfl

/-- A resize to another size hands the chain back. -/
theorem store_resize {fuel : ℕ} {width height : UsizeT w} {sc : SwapchainS w}
    (h : Shelves s seqs)
    (hcall : swapchainResize fuel s.gfx (s.swapchains k) width height = .ok (g, sc)) :
    StoreStep (storeOf s seqs) (.swap (.resize k width height))
      (storeOf { s with gfx := g, swapchains := Function.update s.swapchains k sc }
        (nextSeqs s seqs (.resize k width height))) := by
  have halive : (s.swapchains k).alive = true := by
    obtain ⟨_, hassert, _⟩ := bind_eq_ok.mp hcall
    exact assert_eq_ok.mp hassert
  by_cases hsize : (s.swapchains k).width = width ∧ (s.swapchains k).height = height
  · simp only [swapchainResize, bind_eq_ok, if_pos hsize] at hcall
    obtain ⟨_, _, hcall⟩ := hcall
    cases hcall
    rw [storeOf_chain _ rfl rfl, nextSeqs, if_pos hsize]
    exact .keep halive (Prod.ext hsize.1 hsize.2)
  · obtain ⟨rfl, rfl⟩ := h.resized hsize hcall
    have hlife : Function.update (storeOf s seqs).alive k (s.swapchains k).alive =
        (storeOf s seqs).alive := Function.update_eq_self k (storeOf s seqs).alive
    rw [nextSeqs, if_neg hsize, storeOf_handBack, hlife]
    exact .resize halive fun he => hsize (Prod.ext_iff.mp he)

/-- A deinit of a swapchain that is alive hands the chain back. -/
theorem store_deinit {fuel : ℕ} {sc : SwapchainS w} (h : Shelves s seqs)
    (hcall : swapchainDeinit fuel s.gfx (s.swapchains k) = .ok (g, sc)) :
    StoreStep (storeOf s seqs) (.deinit k)
      (storeOf { s with gfx := g, swapchains := Function.update s.swapchains k sc }
        (blockSeqs s seqs (.deinit k))) := by
  by_cases halive : (s.swapchains k).alive = true
  · obtain ⟨rfl, rfl⟩ := h.deinited halive hcall
    have hsize : Function.update (storeOf s seqs).size k (s.swapchains k).size =
        (storeOf s seqs).size := Function.update_eq_self k (storeOf s seqs).size
    rw [blockSeqs, if_pos halive, storeOf_handBack]
    change StoreStep _ _ { (storeOf s seqs).handBack k with
      size := Function.update (storeOf s seqs).size k (s.swapchains k).size
      alive := Function.update (storeOf s seqs).alive k false }
    rw [hsize]
    exact .deinit halive
  · rw [Bool.not_eq_true] at halive
    simp only [swapchainDeinit, halive] at hcall
    cases hcall
    rw [storeOf_chain _ rfl rfl, blockSeqs, halive]
    exact .idle halive

/-- Each tidy call does to the store what it is for. -/
theorem stands_step (hget : ShmBlockGet get) (h : Stands s p) (htidy : TidyCall s a)
    (hs : BlockStep get s a t) : ∃ q, StoreStep p a q ∧ Stands t q := by
  obtain ⟨seqs, hshelves, rfl⟩ := h
  refine ⟨storeOf t (blockSeqs s seqs a), ?_, _, blockShelves_step hshelves hget htidy hs, rfl⟩
  cases hs with
  | swap hs =>
    cases hs with
    | init k width height =>
      rw [storeOf_update]
      exact .init
    | allocate hfresh hcall => exact store_allocate hshelves hfresh hcall
    | deallocate block => exact .deallocate htidy.1
    | reclaim k block =>
      have hsize : (swapchainReclaim s.gfx (s.swapchains k) block).2.size =
          (s.swapchains k).size := rfl
      rw [storeOf_chain _ hsize rfl]
      exact .reclaim htidy.1
    | acquire hcall => exact store_acquire hshelves hget hcall
    | resize hcall => exact store_resize hshelves hcall
    | attach hheld => exact .attach hheld
    | release block => exact .release
  | deinit hcall => exact store_deinit hshelves hcall

/-! ## Only tidy calls do -/

omit [DecidableEq ι] in
/-- A chain that goes into the empty free list makes a list only if it has one block. -/
theorem Shelves.clean_of_handBack (h : Shelves s seqs) (hfree : s.gfx.pool.freeBlocks.tail = none)
    (hrep : ListRep (deallocateAll s.gfx (seqs (some k))).links
      (deallocateAll s.gfx (seqs (some k))).pool.freeBlocks (seqs none ++ seqs (some k))) :
    ∀ b ∈ (s.swapchains k).chain.head, Unlinked s.gfx.links b := by
  have hnone : ListRep s.gfx.links s.gfx.pool.freeBlocks (seqs none) := h.lists.rep none
  have hchain : ListRep s.gfx.links (s.swapchains k).chain (seqs (some k)) := h.lists.rep (some k)
  rw [hnone.tail_eq_none_iff.mp hfree, List.nil_append] at hrep
  intro b hb
  have hhead := hchain.head.symm.trans hb
  match hseq : seqs (some k) with
  | [] =>
    rw [hseq] at hhead
    cases hhead
  | [a] =>
    rw [hseq] at hhead hchain
    cases hhead
    exact hchain.unlinked
  | a :: c :: rest =>
    rw [hseq] at hchain hrep
    exact absurd hrep (not_listRep_of_stale hfree hchain)

theorem tidy_of_stands (h : Stands s p) (h' : Stands t q) (hs : BlockStep get s a t)
    (ha : StoreStep p a q) : TidyCall s a := by
  obtain ⟨seqs, hshelves, hp⟩ := h
  obtain ⟨seqs', hshelves', hq⟩ := h'
  have hshelf : p.shelf = seqs := by
    rw [hp]
    rfl
  have hheld : ∀ {b}, b ∈ p.held → b ∈ s.held := by
    rw [hp]
    exact id
  have hrep : ∀ j, ListRep t.gfx.links (t.heads j) (q.shelf j) := by
    rw [hq]
    exact hshelves'.lists.rep
  cases ha with
  | init | reuse | create | refuse | present | drop | attach | release => exact ⟨trivial, trivial⟩
  | deallocate hb =>
    refine ⟨hheld hb, ?_⟩
    cases hs with
    | swap hs =>
      cases hs
      exact (hrep none).of_push_first
  | @reclaim k _ hb =>
    refine ⟨hheld hb, ?_⟩
    cases hs with
    | swap hs =>
      cases hs
      have hpushed := hrep (some k)
      simp only [SwapState.heads, Function.update_self] at hpushed
      exact hpushed.of_push_first
  | keep halive hsize =>
    rw [hp] at hsize
    exact ⟨trivial, fun hresizes => absurd (Prod.ext_iff.mp hsize) hresizes⟩
  | @resize k width height halive hsize =>
    refine ⟨trivial, fun hresizes hfree => hshelves.clean_of_handBack hfree ?_⟩
    have hnone := hrep none
    rw [p.handBack_none, hshelf] at hnone
    cases hs with
    | swap hs =>
      cases hs with
      | resize hcall =>
        obtain ⟨rfl, rfl⟩ := hshelves.resized hresizes hcall
        exact hnone
  | @deinit k halive =>
    intro hlife hfree
    refine hshelves.clean_of_handBack hfree ?_
    have hnone := hrep none
    rw [p.handBack_none, hshelf] at hnone
    cases hs with
    | deinit hcall =>
      obtain ⟨rfl, rfl⟩ := hshelves.deinited hlife hcall
      exact hnone
  | @idle k hdead =>
    rw [hp] at hdead
    intro hlife
    cases hlife.symm.trans hdead

theorem stands_initial (h : (blockSystem get ι w).initial s) :
    ∃ p, (storeSystem ι w).initial p ∧ Stands s p := by
  obtain ⟨hinitial, hlive⟩ := h
  have hshelves := shelves_initial hinitial
  obtain ⟨⟨capacity, hheld, _⟩, hswapchains⟩ := hinitial
  refine ⟨_, ⟨fun _ => rfl, hheld, hlive, fun k => ?_⟩, _, hshelves, rfl⟩
  change (s.swapchains k).alive = false
  rw [hswapchains k]
  rfl

theorem store_run (hget : ShmBlockGet get) (h : (blockSystem get ι w).Trace tr t)
    (htidy : ∀ x ∈ tr, TidyCall x.1 x.2) : ∃ tr' p, (storeSystem ι w).Trace tr' p ∧
      List.Forall₂ (fun x y => Stands x.1 y.1 ∧ x.2 = y.2) tr tr' ∧ Stands t p := by
  obtain ⟨s, hs, hr⟩ := h
  obtain ⟨p, hp, hstands⟩ := stands_initial hs
  obtain ⟨tr', q, hrun, hall, hq⟩ := hr.simulate (N := storeSystem ι w) htidy
    (fun _ _ _ _ hp ht ha => stands_step hget hp ht ha) hstands
  exact ⟨tr', q, ⟨p, hp, hrun⟩, hall, hq⟩

/-- Whatever is called, in any order and on any number of swapchains, the memory goes through the
states of a store, with the same results, exactly if every call is tidy. -/
theorem store_refines_iff (hget : ShmBlockGet get) (h : (blockSystem get ι w).Trace tr t) :
    (∀ x ∈ tr, TidyCall x.1 x.2) ↔ ∃ tr' p, (storeSystem ι w).Trace tr' p ∧
      List.Forall₂ (fun x y => Stands x.1 y.1 ∧ x.2 = y.2) tr tr' ∧ Stands t p := by
  constructor
  · exact store_run hget h
  · rintro ⟨tr', q, ⟨p, _, hrun⟩, hall, hq⟩
    obtain ⟨s, _, hr⟩ := h
    exact hr.ok_of_simulate hrun hall hq fun _ _ _ _ _ hp hq ha hb => tidy_of_stands hp hq ha hb

/-- Block 0 stays with the client, block 1 is dropped, and block 2 is handed back. -/
theorem store_refines_refused : ∃ tr t tr' p, (blockSystem id Unit 64).Trace tr t ∧
    (storeSystem Unit 64).Trace tr' p ∧ tr.length = 9 ∧
    List.Forall₂ (fun x y => Stands x.1 y.1 ∧ x.2 = y.2) tr tr' ∧ p.held = {0} ∧
    p.made = {0, 1, 2} := by
  obtain ⟨tr, t, htr, hp⟩ := executed_block refusedOps
    (fun tr t => decide (tr.length = 9 ∧ t.held = {0} ∧ t.gfx.live = {0, 1, 2}) &&
      tr.all fun x => decide (TidyCall x.1 x.2)) (by decide)
  simp only [Bool.and_eq_true, List.all_eq_true, decide_eq_true_eq] at hp
  obtain ⟨⟨hlength, hheld, hlive⟩, htidy⟩ := hp
  obtain ⟨tr', p, htr', hall, seqs, _, rfl⟩ := (store_refines_iff shmBlockGet_id htr).mp htidy
  exact ⟨tr, t, tr', _, htr, htr', hlength, hall, hheld, hlive⟩

/-! ## The order of the blocks of a chain -/

/-- The call empties the chain. -/
def Empties (k : ι) (s : SwapState ι w) : BlockCall ι w → Prop
  | .swap (.init j _ _) => j = k
  | .swap (.resize j width height) => j = k ∧ Resizes s k width height
  | .deinit j => j = k ∧ (s.swapchains k).alive = true
  | _ => False

instance (k : ι) (s : SwapState ι w) (a : BlockCall ι w) : Decidable (Empties k s a) :=
  match a with
  | .swap (.init j _ _) => inferInstanceAs (Decidable (j = k))
  | .swap (.resize j width height) => inferInstanceAs (Decidable (j = k ∧
      ¬ ((s.swapchains k).width = width ∧ (s.swapchains k).height = height)))
  | .deinit j => inferInstanceAs (Decidable (j = k ∧ (s.swapchains k).alive = true))
  | .swap (.allocate ..) | .swap (.deallocate _) | .swap (.reclaim ..) | .swap (.acquire ..)
  | .swap (.attach _) | .swap (.release _) => isFalse id

/-- The block that a call gives the swapchain. -/
def givenTo (k : ι) (_ : SwapState ι w) : BlockCall ι w → List Addr
  | .swap (.reclaim j block) => if j = k then [block] else []
  | _ => []

/-- The block that a call takes out of the chain, returned or not. -/
def takenFrom (k : ι) (s : SwapState ι w) : BlockCall ι w → List Addr
  | .swap (.acquire j _) => if j = k then (s.swapchains k).chain.head.toList else []
  | _ => []

/-- What the calls since the chain was last emptied come to. -/
def sinceEmptied (k : ι) (f : SwapState ι w → BlockCall ι w → List Addr)
    (tr : List (SwapState ι w × BlockCall ι w)) : List Addr :=
  tr.foldl (fun xs x => if Empties k x.1 x.2 then [] else xs ++ f x.1 x.2) []

theorem sinceEmptied_snoc (f : SwapState ι w → BlockCall ι w → List Addr) :
    sinceEmptied k f (tr ++ [(s, a)]) =
      if Empties k s a then [] else sinceEmptied k f tr ++ f s a := by
  rw [sinceEmptied, List.foldl_append]
  rfl

theorem chain_emptied (h : Empties k s a) : blockSeqs s seqs a (some k) = [] := by
  match a with
  | .swap (.init j _ _) =>
    obtain rfl : j = k := h
    exact Function.update_self _ _ _
  | .swap (.resize j width height) =>
    obtain ⟨rfl, hresizes⟩ := h
    rw [blockSeqs, nextSeqs, if_neg hresizes, Function.update_self]
  | .deinit j =>
    obtain ⟨rfl, halive⟩ := h
    rw [blockSeqs, if_pos halive, Function.update_self]

theorem handBack_other {j : ι} (hj : j ≠ k) : Function.update (Function.update seqs none
    (seqs none ++ seqs (some j))) (some j) [] (some k) = seqs (some k) := by
  have hne : some k ≠ some j := fun he => hj (Option.some.inj he).symm
  rw [Function.update_of_ne hne, Function.update_of_ne (Option.some_ne_none k)]

/-- Otherwise blocks come in at its end and go out at its front. -/
theorem chain_shifted (h : Shelves s seqs) (hkeeps : ¬ Empties k s a) :
    seqs (some k) ++ givenTo k s a = takenFrom k s a ++ blockSeqs s seqs a (some k) := by
  match a with
  | .swap (.init j _ _) =>
    have hj : some k ≠ some j := fun he => hkeeps (Option.some.inj he).symm
    simp [givenTo, takenFrom, blockSeqs, nextSeqs, hj]
  | .swap (.allocate _ _ _ _ r) => cases r <;> simp [givenTo, takenFrom, blockSeqs, nextSeqs]
  | .swap (.deallocate _) => simp [givenTo, takenFrom, blockSeqs, nextSeqs]
  | .swap (.reclaim j block) =>
    by_cases hj : j = k
    · subst j
      simp [givenTo, takenFrom, blockSeqs, nextSeqs]
    · have hne : some k ≠ some j := fun he => hj (Option.some.inj he).symm
      simp [givenTo, takenFrom, blockSeqs, nextSeqs, hj, hne]
  | .swap (.acquire j r) =>
    by_cases hj : j = k
    · subst j
      have hchain : ListRep s.gfx.links (s.swapchains k).chain (seqs (some k)) :=
        h.lists.rep (some k)
      cases hseq : seqs (some k) <;>
        simp [givenTo, takenFrom, blockSeqs, nextSeqs, hchain.head, hseq]
    · have hne : some k ≠ some j := fun he => hj (Option.some.inj he).symm
      simp [givenTo, takenFrom, blockSeqs, nextSeqs, hj, hne]
  | .swap (.resize j width height) =>
    simp only [givenTo, takenFrom, List.append_nil, List.nil_append, blockSeqs, nextSeqs]
    split
    · rfl
    · rename_i hresizes
      exact (handBack_other fun hj => hkeeps ⟨hj, hj ▸ hresizes⟩).symm
  | .swap (.attach _) | .swap (.release _) => simp [givenTo, takenFrom, blockSeqs, nextSeqs]
  | .deinit j =>
    simp only [givenTo, takenFrom, List.append_nil, List.nil_append, blockSeqs]
    split
    · rename_i halive
      exact (handBack_other fun hj => hkeeps ⟨hj, hj ▸ halive⟩).symm
    · rfl

/-- The blocks given to the swapchain are those taken out of it and those still in the chain. -/
def InOrder (k : ι) (tr : List (SwapState ι w × BlockCall ι w)) (seqs : Option ι → List Addr) :
    Prop :=
  sinceEmptied k (givenTo k) tr = sinceEmptied k (takenFrom k) tr ++ seqs (some k)

theorem inOrder_step (h : Shelves s seqs) (ho : InOrder k tr seqs) :
    InOrder k (tr ++ [(s, a)]) (blockSeqs s seqs a) := by
  rw [InOrder, sinceEmptied_snoc, sinceEmptied_snoc]
  split
  · rename_i hempties
    rw [chain_emptied hempties, List.append_nil]
  · rename_i hkeeps
    rw [ho, List.append_assoc, chain_shifted h hkeeps, List.append_assoc]

/-- An acquire that returns a block returns the one it takes out. -/
theorem takenFrom_acquire {b : Addr} (hget : ShmBlockGet get) (h : Shelves s seqs)
    (hs : BlockStep get s (.swap (.acquire k (some b))) t) :
    takenFrom k s (.swap (.acquire k (some b))) = [b] := by
  have hchain : ListRep s.gfx.links (s.swapchains k).chain (seqs (some k)) := h.lists.rep (some k)
  cases hs with
  | swap hs =>
    cases hs with
    | acquire hcall =>
      obtain ⟨c, rest, hseq, hacquired⟩ := hchain.acquired hget hcall
      have hresult := hacquired.result
      split at hresult
      · cases hresult
      · cases hresult
        simp [takenFrom, hchain.head, hseq]

theorem inOrder_run (hget : ShmBlockGet get) (h : (blockSystem get ι w).Trace tr t)
    (htidy : ∀ x ∈ tr, TidyCall x.1 x.2) (k : ι) :
    (∃ seqs, Shelves t seqs ∧ InOrder k tr seqs) ∧
      ∀ x ∈ tr, ∀ b, x.2 = .swap (.acquire k (some b)) → takenFrom k x.1 x.2 = [b] := by
  obtain ⟨s, hs, hr⟩ := h
  induction hr with
  | nil => exact ⟨⟨_, shelves_initial hs.1, rfl⟩, by simp⟩
  | snoc _ ha ih =>
    obtain ⟨⟨seqs, hshelves, horder⟩, htaken⟩ := ih fun x hx => htidy x (by simp [hx])
    have hnext := blockShelves_step hshelves hget (htidy (_, _) (by simp)) ha
    refine ⟨⟨_, hnext, inOrder_step hshelves horder⟩, fun x hx b hb => ?_⟩
    rcases List.mem_append.mp hx with hx | hx
    · exact htaken x hx b hb
    · obtain rfl := List.mem_singleton.mp hx
      cases hb
      exact takenFrom_acquire hget hshelves ha

/-- In every tidy run the blocks that a swapchain was given since its chain was last emptied are,
in order, those that acquires have taken out and then those in the chain. An acquire that returns
a block returns the one it takes out. -/
theorem acquired_in_order (hget : ShmBlockGet get) (h : (blockSystem get ι w).Trace tr t)
    (htidy : ∀ x ∈ tr, TidyCall x.1 x.2) (k : ι) :
    (∃ xs, ListRep t.gfx.links (t.swapchains k).chain xs ∧
      sinceEmptied k (givenTo k) tr = sinceEmptied k (takenFrom k) tr ++ xs) ∧
    ∀ x ∈ tr, ∀ b, x.2 = .swap (.acquire k (some b)) → takenFrom k x.1 x.2 = [b] := by
  obtain ⟨⟨seqs, hshelves, horder⟩, htaken⟩ := inOrder_run hget h htidy k
  exact ⟨⟨_, hshelves.lists.rep (some k), horder⟩, htaken⟩

/-- Three blocks, of which the first is taken out and given again, and the second is refused. -/
theorem acquired_in_order_turned : ∃ tr t, (blockSystem id Unit 64).Trace tr t ∧
    sinceEmptied () (givenTo ()) tr = [0, 1, 2, 0] ∧
    sinceEmptied () (takenFrom ()) tr = [0, 1] ∧
    ListRep t.gfx.links (t.swapchains ()).chain [2, 0] := by
  obtain ⟨tr, t, htr, hp⟩ := executed_block
    [.swap (.init () 4 4), .swap (.allocate (answersAt 0) 4 4 16 none),
      .swap (.allocate (answersAt 1) 4 4 16 none), .swap (.allocate (answersAt 2) 4 4 16 none),
      .swap (.attach 1), .swap (.reclaim () 0), .swap (.reclaim () 1), .swap (.reclaim () 2),
      .swap (.acquire () none), .swap (.reclaim () 0), .swap (.acquire () none)]
    (fun tr _ => decide (sinceEmptied () (givenTo ()) tr = [0, 1, 2, 0] ∧
      sinceEmptied () (takenFrom ()) tr = [0, 1]) &&
      tr.all fun x => decide (TidyCall x.1 x.2)) (by decide)
  simp only [Bool.and_eq_true, List.all_eq_true, decide_eq_true_eq] at hp
  obtain ⟨⟨hgiven, htaken⟩, htidy⟩ := hp
  obtain ⟨⟨xs, hrep, horder⟩, _⟩ := acquired_in_order shmBlockGet_id htr htidy ()
  rw [hgiven, htaken] at horder
  have hsplit : [0, 1] ++ [2, 0] = [0, 1] ++ xs := horder
  obtain rfl := List.append_cancel_left hsplit
  exact ⟨tr, t, htr, hgiven, htaken, hrep⟩

end Spaze
