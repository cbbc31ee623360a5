import Mathlib.Data.Finset.Card
import Spaze.Lib.Ledger
import Spaze.SwapchainRuns

/-!
Where the blocks of a pool are, over whole lives of swapchains: free, in a chain, with the
client, or dropped.
-/
namespace Spaze

open Ledger Linked Runs

variable {w : ℕ} {ι : Type*} [DecidableEq ι]

/-- A call on the pool and its swapchains, `swapchain_deinit` among them, or an event. -/
inductive BlockCall (ι : Type*) (w : ℕ)
  | swap (a : SwapCall ι w)
  | deinit (k : ι)

inductive BlockStep (get : Option Addr → Option Addr) :
    SwapState ι w → BlockCall ι w → SwapState ι w → Prop
  | swap {s t : SwapState ι w} {a : SwapCall ι w} (h : SwapStep get s a t) :
      BlockStep get s (.swap a) t
  | deinit {s : SwapState ι w} {k : ι} {fuel : ℕ} {g : Gfx w} {sc : SwapchainS w}
      (h : swapchainDeinit fuel s.gfx (s.swapchains k) = .ok (g, sc)) :
      BlockStep get s (.deinit k)
        { s with gfx := g, swapchains := Function.update s.swapchains k sc }

/-- No block is allocated when the run starts. -/
def blockSystem (get : Option Addr → Option Addr) (ι : Type*) [DecidableEq ι] (w : ℕ) :
    System (SwapState ι w) (BlockCall ι w) where
  initial s := (swapSystem get ι w).initial s ∧ s.gfx.live = ∅
  step := BlockStep get

/-- The client gives back blocks that it holds, and a block that goes into an empty list has
NULL in both its link words. -/
def TidyCall (s : SwapState ι w) : BlockCall ι w → Prop
  | .swap a => HeldCall s a ∧ CleanCall s a
  | .deinit k => (s.swapchains k).alive = true → s.gfx.pool.freeBlocks.tail = none →
    ∀ b ∈ (s.swapchains k).chain.head, Unlinked s.gfx.links b

/-- The blocks that a call drops: the front of the chain, if it is refused, and the whole chain
of a swapchain that is initialised over it. -/
def Drops (s : SwapState ι w) : BlockCall ι w → Addr → Prop
  | .swap (.acquire k none), b => (s.swapchains k).chain.head = some b
  | .swap (.init k _ _), b => Reach (nexts s.gfx.links) (s.swapchains k).chain.head b
  | _, _ => False

/-- Where a block in use is. `shelf none` is the free list, and the others are the chains. -/
inductive Place (ι : Type*)
  | shelf (j : Option ι)
  | held
  | dropped
  deriving DecidableEq

/-- The block is at this place after the run. -/
def At (tr : List (SwapState ι w × BlockCall ι w)) (t : SwapState ι w) (b : Addr) :
    Place ι → Prop
  | .shelf j => Reach (nexts t.gfx.links) (t.heads j).head b
  | .held => b ∈ t.held
  | .dropped => ∃ x ∈ tr, Drops x.1 x.2 b

/-! ## The sequences and the ledger -/

/-- What a call does to the sequences of blocks. -/
def blockSeqs (s : SwapState ι w) (seqs : Option ι → List Addr) :
    BlockCall ι w → Option ι → List Addr
  | .swap a => nextSeqs s seqs a
  | .deinit k =>
    if (s.swapchains k).alive then
      Function.update (Function.update seqs none (seqs none ++ seqs (some k))) (some k) []
    else seqs

/-- What a call does to the ledger. -/
def nextPlaces (s : SwapState ι w) (places : Places Addr (Place ι)) :
    BlockCall ι w → Places Addr (Place ι)
  | .swap (.init k _ _) => moveAll places (.shelf (some k)) .dropped
  | .swap (.allocate _ _ _ _ (some block)) => move places block .held
  | .swap (.deallocate block) => move places block (.shelf none)
  | .swap (.reclaim k block) => move places block (.shelf (some k))
  | .swap (.acquire _ (some block)) => move places block .held
  | .swap (.acquire k none) =>
    match (s.swapchains k).chain.head with
    | some block => move places block .dropped
    | none => places
  | .swap (.resize k width height) =>
    if (s.swapchains k).width = width ∧ (s.swapchains k).height = height then places
    else moveAll places (.shelf (some k)) (.shelf none)
  | .deinit k =>
    if (s.swapchains k).alive then moveAll places (.shelf (some k)) (.shelf none) else places
  | _ => places

/-- The ledger says where the blocks are. -/
structure Accounted (tr : List (SwapState ι w × BlockCall ι w)) (s : SwapState ι w)
    (seqs : Option ι → List Addr) (places : Places Addr (Place ι)) : Prop where
  shelves : Shelves s seqs
  shelf : ∀ j b, b ∈ seqs j ↔ places b = some (.shelf j)
  held : ∀ b, b ∈ s.held ↔ places b = some .held
  dropped : ∀ b, (∃ x ∈ tr, Drops x.1 x.2 b) ↔ places b = some .dropped
  live : ∀ b, b ∈ s.gfx.live ↔ places b ≠ none

variable {get : Option Addr → Option Addr} {s t : SwapState ι w} {a : BlockCall ι w}
  {seqs : Option ι → List Addr} {places : Places Addr (Place ι)}
  {tr : List (SwapState ι w × BlockCall ι w)} {k : ι} {b : Addr}

omit [DecidableEq ι] in
theorem Shelves.apart (h : Shelves s seqs) (k : ι) : (seqs none).Disjoint (seqs (some k)) :=
  h.lists.disjoint _ _ (Option.some_ne_none k).symm

omit [DecidableEq ι] in
theorem Shelves.resized {fuel : ℕ} {width height : UsizeT w} {g : Gfx w} {sc : SwapchainS w}
    (h : Shelves s seqs)
    (hsize : ¬ ((s.swapchains k).width = width ∧ (s.swapchains k).height = height))
    (hcall : swapchainResize fuel s.gfx (s.swapchains k) width height = .ok (g, sc)) :
    g = deallocateAll s.gfx (seqs (some k)) ∧ sc = { s.swapchains k with
      chain := ListS.zero, width := width, height := height } :=
  swapchainResize_ok (h.lists.rep none) (h.lists.rep (some k)) (h.apart k) hsize hcall

omit [DecidableEq ι] in
theorem Shelves.deinited {fuel : ℕ} {g : Gfx w} {sc : SwapchainS w} (h : Shelves s seqs)
    (halive : (s.swapchains k).alive = true)
    (hcall : swapchainDeinit fuel s.gfx (s.swapchains k) = .ok (g, sc)) :
    g = deallocateAll s.gfx (seqs (some k)) ∧
      sc = { s.swapchains k with chain := ListS.zero, alive := false } :=
  swapchainDeinit_ok (h.lists.rep none) (h.lists.rep (some k)) (h.apart k) halive hcall

theorem blockShelves_step (h : Shelves s seqs) (hget : ShmBlockGet get) (htidy : TidyCall s a)
    (hs : BlockStep get s a t) : Shelves t (blockSeqs s seqs a) := by
  cases hs with
  | swap hs => exact shelves_step h hget htidy.1 htidy.2 hs
  | @deinit k _ _ _ hcall =>
    rw [blockSeqs]
    by_cases halive : (s.swapchains k).alive = true
    · obtain ⟨rfl, rfl⟩ := h.deinited halive hcall
      rw [if_pos halive]
      exact h.handBack k _ rfl (htidy halive)
    · rw [Bool.not_eq_true] at halive
      simp only [swapchainDeinit, halive] at hcall
      cases hcall
      simpa [halive] using h

/-! ## Moves in the ledger -/

variable {j : Option ι} {block : Addr} {seqs' : Option ι → List Addr}

omit [DecidableEq ι] in
theorem dropped_snoc : (∃ x ∈ tr ++ [(s, a)], Drops x.1 x.2 b) ↔
    (∃ x ∈ tr, Drops x.1 x.2 b) ∨ Drops s a b := by
  simp [or_and_right, exists_or]

omit [DecidableEq ι] in
/-- Nothing moves. -/
theorem Accounted.stay (h : Accounted tr s seqs places) (ht : Shelves t seqs)
    (hheld : t.held = s.held) (hlive : t.gfx.live = s.gfx.live) (hnone : ∀ b, ¬ Drops s a b) :
    Accounted (tr ++ [(s, a)]) t seqs places := by
  refine ⟨ht, h.shelf, ?_, fun b => ?_, ?_⟩
  · rw [hheld]
    exact h.held
  · rw [dropped_snoc, h.dropped, or_iff_left (hnone b)]
  · rw [hlive]
    exact h.live

/-- A block that the client holds goes to a list. -/
theorem Accounted.store (h : Accounted tr s seqs places) (hb : block ∈ s.held)
    (ht : Shelves t (Function.update seqs j (seqs j ++ [block])))
    (hheld : t.held = s.held.erase block) (hlive : t.gfx.live = s.gfx.live)
    (hnone : ∀ b, ¬ Drops s a b) :
    Accounted (tr ++ [(s, a)]) t (Function.update seqs j (seqs j ++ [block]))
      (move places block (.shelf j)) := by
  have hplace := (h.held block).mp hb
  refine ⟨ht, fun i b => ?_, fun b => ?_, fun b => ?_, fun b => ?_⟩
  · rw [move_eq_some, ← h.shelf, Function.update_apply]
    have hnot : b = block → b ∉ seqs i := fun he hm => by
      cases he
      cases hplace.symm.trans ((h.shelf i _).mp hm)
    split
    · subst i
      simp only [List.mem_append, List.mem_singleton]
      tauto
    · rename_i hi
      have hne : ¬ Place.shelf j = Place.shelf i := fun he => hi (Place.shelf.inj he).symm
      tauto
  · rw [hheld, Finset.mem_erase, h.held, move_eq_some]
    simp
  · rw [dropped_snoc, or_iff_left (hnone b), h.dropped, move_eq_some]
    have hne : places b = some .dropped → b ≠ block := fun hd he => by
      cases he
      cases hplace.symm.trans hd
    simp only [reduceCtorEq, and_false, false_or]
    tauto
  · rw [hlive, h.live, move_used (by simp [hplace])]

omit [DecidableEq ι] in
/-- A free block, one of a chain or a fresh one goes to the client. -/
theorem Accounted.take (h : Accounted tr s seqs places)
    (hplace : places block = none ∨ ∃ j, places block = some (.shelf j)) (ht : Shelves t seqs')
    (hseqs : ∀ i b, b ∈ seqs' i ↔ b ∈ seqs i ∧ b ≠ block)
    (hheld : t.held = insert block s.held) (hlive : t.gfx.live = insert block s.gfx.live)
    (hnone : ∀ b, ¬ Drops s a b) :
    Accounted (tr ++ [(s, a)]) t seqs' (move places block .held) := by
  refine ⟨ht, fun i b => ?_, fun b => ?_, fun b => ?_, fun b => ?_⟩
  · rw [hseqs, h.shelf, move_eq_some]
    simp [and_comm]
  · rw [hheld, Finset.mem_insert, h.held, move_eq_some]
    simp only [and_true]
    tauto
  · rw [dropped_snoc, or_iff_left (hnone b), h.dropped, move_eq_some]
    have hne : places b = some .dropped → b ≠ block := fun hd he => by
      cases he
      rcases hplace with hp | ⟨j, hp⟩ <;> cases hp.symm.trans hd
    simp only [reduceCtorEq, and_false, false_or]
    tauto
  · rw [hlive, Finset.mem_insert, h.live, move_ne_none]

omit [DecidableEq ι] in
/-- A block of a chain is dropped. -/
theorem Accounted.drop (h : Accounted tr s seqs places) (hplace : places block = some (.shelf j))
    (ht : Shelves t seqs') (hseqs : ∀ i b, b ∈ seqs' i ↔ b ∈ seqs i ∧ b ≠ block)
    (hheld : t.held = s.held) (hlive : t.gfx.live = s.gfx.live)
    (hdrops : ∀ b, Drops s a b ↔ b = block) :
    Accounted (tr ++ [(s, a)]) t seqs' (move places block .dropped) := by
  refine ⟨ht, fun i b => ?_, fun b => ?_, fun b => ?_, fun b => ?_⟩
  · rw [hseqs, h.shelf, move_eq_some]
    simp [and_comm]
  · rw [hheld, h.held, move_eq_some]
    have hne : places b = some .held → b ≠ block := fun hd he => by
      cases he
      cases hplace.symm.trans hd
    simp only [reduceCtorEq, and_false, false_or]
    tauto
  · rw [dropped_snoc, hdrops, h.dropped, move_eq_some]
    simp only [and_true]
    tauto
  · rw [hlive, h.live, move_used (by simp [hplace])]

/-- A chain goes to the free list, or is dropped. -/
theorem Accounted.shift {p : Place ι} (h : Accounted tr s seqs places) (ht : Shelves t seqs')
    (hseqs : ∀ i b, b ∈ seqs' i ↔ i ≠ some k ∧ (b ∈ seqs i ∨ p = .shelf i ∧ b ∈ seqs (some k)))
    (hp : p = .dropped ∨ p = .shelf none) (hheld : t.held = s.held)
    (hlive : t.gfx.live = s.gfx.live)
    (hdrops : ∀ b, Drops s a b ↔ p = .dropped ∧ b ∈ seqs (some k)) :
    Accounted (tr ++ [(s, a)]) t seqs' (moveAll places (.shelf (some k)) p) := by
  refine ⟨ht, fun i b => ?_, fun b => ?_, fun b => ?_, fun b => ?_⟩
  · rw [hseqs, h.shelf, h.shelf, moveAll_eq_some]
    by_cases hi : i = some k
    · subst i
      rcases hp with rfl | rfl <;> simp
    · have hne : places b = some (.shelf i) → places b ≠ some (.shelf (some k)) := by
        intro hb hk
        rw [hb] at hk
        exact hi (Place.shelf.inj (Option.some.inj hk))
      tauto
  · rw [hheld, h.held, moveAll_eq_some]
    have hne : places b = some .held → places b ≠ some (.shelf (some k)) := by
      intro hb hk
      cases hb.symm.trans hk
    rcases hp with rfl | rfl <;> simp only [reduceCtorEq, and_false, false_or] <;> tauto
  · rw [dropped_snoc, hdrops, h.dropped, h.shelf, moveAll_eq_some]
    have hne : places b = some .dropped → places b ≠ some (.shelf (some k)) := by
      intro hb hk
      cases hb.symm.trans hk
    tauto
  · rw [hlive, h.live, moveAll_ne_none]

/-! ## One call -/

/-- There are no more blocks in a sequence than in use. -/
theorem length_lt_of_live {g : Gfx w} {xs : List Addr} {fuel : ℕ} (hn : xs.Nodup)
    (hlive : ∀ b ∈ xs, b ∈ g.live) (hfuel : g.live.card < fuel) : xs.length < fuel := by
  have hle : xs.toFinset.card ≤ g.live.card :=
    Finset.card_le_card fun b hb => hlive b (List.mem_toFinset.mp hb)
  rw [List.toFinset_card_of_nodup hn] at hle
  omega

omit [DecidableEq ι] in
theorem Shelves.length_lt {fuel : ℕ} (h : Shelves s seqs) (hfuel : s.gfx.live.card < fuel)
    (j : Option ι) : (seqs j).length < fuel :=
  length_lt_of_live (h.lists.rep j).nodup (h.listLive j) hfuel

omit [DecidableEq ι] in
/-- The blocks of a list are those a walk along it comes to. -/
theorem Shelves.reach_iff (h : Shelves s seqs) :
    Reach (nexts s.gfx.links) (s.heads j).head b ↔ b ∈ seqs j := (h.lists.rep j).reach_iff

/-- A block leaves one list. -/
theorem mem_without (hb : ∀ i ≠ j, block ∉ seqs i) {xs : List Addr}
    (hxs : ∀ b, b ∈ xs ↔ b ∈ seqs j ∧ b ≠ block) (i : Option ι) (b : Addr) :
    b ∈ Function.update seqs j xs i ↔ b ∈ seqs i ∧ b ≠ block := by
  rw [Function.update_apply]
  split
  · subst i
    exact hxs b
  · rename_i hi
    exact ⟨fun hm => ⟨hm, fun he => hb i hi (he ▸ hm)⟩, fun hm => hm.1⟩

theorem Accounted.allocate (h : Accounted tr s seqs places) {ans : Answers}
    {width height stride : UsizeT w} {g : Gfx w} {r : Option Addr}
    (hfresh : ans.malloc ∉ s.gfx.live) (hcall : Allocated ans s.gfx width height stride g r)
    (ht : Shelves { s with gfx := g, held := receive s.held r }
      (nextSeqs s seqs (.allocate ans width height stride r))) :
    Accounted (tr ++ [(s, .swap (.allocate ans width height stride r))])
      { s with gfx := g, held := receive s.held r }
      (nextSeqs s seqs (.allocate ans width height stride r))
      (nextPlaces s places (.swap (.allocate ans width height stride r))) := by
  have hnodup := (h.shelves.lists.rep none).nodup
  rcases hcall.effect with ⟨rfl, hsame⟩ | ⟨fuel, c, rfl, rfl, hfound⟩ | ⟨rfl, hnew, _⟩
  · exact h.stay ht rfl hsame.live fun _ => id
  · have hrep := h.shelves.lists.rep none
    have hreach := ((shmPoolReuse_first hfound).mp rfl).reach.1
    have hc : c ∈ seqs none := hrep.seg.reach_prev (hrep.tail ▸ hreach)
    refine h.take (Or.inr ⟨none, (h.shelf none c).mp hc⟩) ht ?_ rfl ?_ fun _ => id
    · refine mem_without (fun i hi => h.shelves.lists.notMem hi hc) fun b => ?_
      rw [hnodup.mem_erase_iff, and_comm]
    · exact (Finset.insert_eq_of_mem (h.shelves.listLive none c hc)).symm
  · have hnot : ∀ i, ans.malloc ∉ seqs i := fun i hm => hfresh (h.shelves.listLive i _ hm)
    have hplace : places ans.malloc = none := by
      by_contra hne
      exact hfresh ((h.live _).mpr hne)
    refine h.take (Or.inl hplace) ht ?_ rfl hnew.live fun _ => id
    refine mem_without (fun i _ => hnot i) fun b => ?_
    rw [hnodup.mem_erase_iff, and_comm]

theorem Accounted.acquire (h : Accounted tr s seqs places) {g : Gfx w} {sc : SwapchainS w}
    {r : Option Addr} (hget : ShmBlockGet get)
    (hcall : swapchainAcquire get s.gfx (s.swapchains k) = .ok (g, sc, r))
    (ht : Shelves ⟨g, Function.update s.swapchains k sc, receive s.held r⟩
      (nextSeqs s seqs (.acquire k r))) :
    Accounted (tr ++ [(s, .swap (.acquire k r))])
      ⟨g, Function.update s.swapchains k sc, receive s.held r⟩
      (nextSeqs s seqs (.acquire k r)) (nextPlaces s places (.swap (.acquire k r))) := by
  have hrep : ListRep s.gfx.links (s.swapchains k).chain (seqs (some k)) :=
    h.shelves.lists.rep (some k)
  obtain ⟨c, ys, hseq, hacquired⟩ := hrep.acquired hget hcall
  have hc : c ∈ seqs (some k) := by simp [hseq]
  have hplace := (h.shelf (some k) c).mp hc
  have hhead : (s.swapchains k).chain.head = some c := by simp [hrep.head, hseq]
  have hnodup := hrep.nodup
  rw [hseq, List.nodup_cons] at hnodup
  have hseqs : ∀ i b, b ∈ nextSeqs s seqs (.acquire k r) i ↔ b ∈ seqs i ∧ b ≠ c := by
    refine mem_without (fun i hi => h.shelves.lists.notMem hi hc) fun b => ?_
    rw [hseq, List.tail_cons, List.mem_cons]
    constructor
    · exact fun hb => ⟨Or.inr hb, fun he => hnodup.1 (he ▸ hb)⟩
    · exact fun ⟨hb, hne⟩ => hb.resolve_left hne
  have hlive : g.live = s.gfx.live := by rw [hacquired.gfx]
  have hresult := hacquired.result
  split at hresult
  · subst hresult
    have hmoved := h.drop hplace ht hseqs rfl hlive
      (a := .swap (.acquire k none)) fun b => by simp [Drops, hhead, eq_comm]
    simpa [nextPlaces, hhead] using hmoved
  · subst hresult
    refine h.take (Or.inr ⟨some k, hplace⟩) ht hseqs rfl ?_ fun _ => id
    exact hlive.trans (Finset.insert_eq_of_mem (h.shelves.listLive _ c hc)).symm

/-- A chain goes behind the free blocks. -/
theorem Accounted.handBack (h : Accounted tr s seqs places)
    (ht : Shelves t (Function.update (Function.update seqs none (seqs none ++ seqs (some k)))
      (some k) [])) (hheld : t.held = s.held) (hlive : t.gfx.live = s.gfx.live)
    (hnone : ∀ b, ¬ Drops s a b) :
    Accounted (tr ++ [(s, a)]) t
      (Function.update (Function.update seqs none (seqs none ++ seqs (some k))) (some k) [])
      (moveAll places (.shelf (some k)) (.shelf none)) := by
  refine h.shift ht (fun i b => ?_) (Or.inr rfl) hheld hlive fun b => ?_
  · constructor
    · intro hm
      obtain ⟨hi, hm⟩ := mem_handBack hm
      exact ⟨hi, hm.imp_right fun ⟨hnone, hm⟩ => ⟨by rw [hnone], hm⟩⟩
    · rintro ⟨hi, hm | ⟨hp, hm⟩⟩
      · rw [Function.update_of_ne hi, Function.update_apply]
        split
        · subst i
          exact List.mem_append_left _ hm
        · exact hm
      · obtain rfl : none = i := Place.shelf.inj hp
        simpa using Or.inr hm
  · exact iff_of_false (hnone b) nofun

theorem accounted_step (h : Accounted tr s seqs places) (hget : ShmBlockGet get)
    (htidy : TidyCall s a) (hs : BlockStep get s a t) :
    Accounted (tr ++ [(s, a)]) t (blockSeqs s seqs a) (nextPlaces s places a) := by
  have ht := blockShelves_step h.shelves hget htidy hs
  cases hs with
  | swap hs =>
    cases hs with
    | init k width height =>
      refine h.shift ht (fun i b => ?_) (Or.inl rfl) rfl rfl fun b => ?_
      · by_cases hi : i = some k <;> simp [blockSeqs, nextSeqs, hi]
      · have hreach : Drops s (.swap (.init k width height)) b ↔ b ∈ seqs (some k) :=
          h.shelves.reach_iff (j := some k)
        rw [hreach, and_iff_right rfl]
    | allocate hfresh hcall => exact h.allocate hfresh (shmPoolAllocate_cases hcall) ht
    | deallocate => exact h.store htidy.1 ht rfl rfl fun _ => id
    | reclaim k => exact h.store htidy.1 ht rfl rfl fun _ => id
    | acquire hcall => exact h.acquire hget hcall ht
    | @resize k _ width height g sc hcall =>
      by_cases hsize : (s.swapchains k).width = width ∧ (s.swapchains k).height = height
      · simp only [blockSeqs, nextSeqs, nextPlaces, if_pos hsize] at ht ⊢
        simp only [swapchainResize, bind_eq_ok, if_pos hsize] at hcall
        obtain ⟨_, _, hcall⟩ := hcall
        cases hcall
        exact h.stay ht rfl rfl fun _ => id
      · obtain ⟨rfl, _⟩ := h.shelves.resized hsize hcall
        simp only [blockSeqs, nextSeqs, nextPlaces, if_neg hsize] at ht ⊢
        exact h.handBack ht rfl (by rw [deallocateAll_eq]) fun _ => id
    | attach => exact h.stay ht rfl rfl fun _ => id
    | release => exact h.stay ht rfl rfl fun _ => id
  | @deinit k _ g sc hcall =>
    by_cases halive : (s.swapchains k).alive = true
    · obtain ⟨rfl, _⟩ := h.shelves.deinited halive hcall
      simp only [blockSeqs, nextPlaces, if_pos halive] at ht ⊢
      exact h.handBack ht rfl (by rw [deallocateAll_eq]) fun _ => id
    · simp only [blockSeqs, nextPlaces, if_neg halive] at ht ⊢
      simp only [swapchainDeinit, Bool.not_eq_true _ ▸ halive] at hcall
      cases hcall
      exact h.stay ht rfl rfl fun _ => id

theorem accounted_initial (h : (blockSystem get ι w).initial s) :
    Accounted [] s (fun _ => []) fun _ => none := by
  obtain ⟨hinitial, hlive⟩ := h
  have hshelves := shelves_initial hinitial
  obtain ⟨⟨capacity, hheld, _⟩, _⟩ := hinitial
  have hheld' : s.held = ∅ := hheld
  exact ⟨hshelves, by simp, by simp [hheld'], by simp, by simp [hlive]⟩

theorem accounted_run (hget : ShmBlockGet get) (h : (blockSystem get ι w).Trace tr t)
    (htidy : ∀ x ∈ tr, TidyCall x.1 x.2) : ∃ seqs places, Accounted tr t seqs places := by
  obtain ⟨s, hs, hrun⟩ := h
  induction hrun with
  | nil => exact ⟨_, _, accounted_initial hs⟩
  | snoc _ ha ih =>
    obtain ⟨seqs, places, hi⟩ := ih fun x hx => htidy x (by simp [hx])
    exact ⟨_, _, accounted_step hi hget (htidy (_, _) (by simp)) ha⟩

omit [DecidableEq ι] in
/-- The ledger agrees with the memory. -/
theorem Accounted.at_iff (h : Accounted tr t seqs places) (b : Addr) (p : Place ι) :
    At tr t b p ↔ places b = some p := by
  cases p with
  | shelf j => exact h.shelves.reach_iff.trans (h.shelf j b)
  | held => exact h.held b
  | dropped => exact h.dropped b

/-- In every state of a tidy run each block in use is at exactly one place: in the free list,
in one chain, with the client, or dropped. Nothing else is in use. -/
theorem blocks_accounted (hget : ShmBlockGet get) (h : (blockSystem get ι w).Trace tr t)
    (htidy : ∀ x ∈ tr, TidyCall x.1 x.2) (b : Addr) :
    (b ∈ t.gfx.live ↔ ∃ place, At tr t b place) ∧
      ∀ p q, At tr t b p → At tr t b q → p = q := by
  obtain ⟨seqs, places, hi⟩ := accounted_run hget h htidy
  refine ⟨?_, fun p q hp hq => ?_⟩
  · rw [hi.live, Option.ne_none_iff_exists']
    exact exists_congr fun p => (hi.at_iff b p).symm
  · rw [hi.at_iff] at hp hq
    exact Option.some.inj (hp.symm.trans hq)

/-! ## Runs that are carried out -/

/-- Carries out a call, if it is one that a run may make and it returns. -/
def blockExec (fuel : ℕ) (s : SwapState ι w) :
    BlockCall ι w → Option (SwapState ι w × BlockCall ι w)
  | .swap a => (swapExec fuel s a).map fun out => (out.1, .swap out.2)
  | .deinit k =>
    match swapchainDeinit fuel s.gfx (s.swapchains k) with
    | .ok (g, sc) =>
      some ({ s with gfx := g, swapchains := Function.update s.swapchains k sc }, .deinit k)
    | .error _ => none

theorem blockExec_step {fuel : ℕ} (s : SwapState ι w) (o : BlockCall ι w) (t : SwapState ι w)
    (a : BlockCall ι w) (h : blockExec fuel s o = some (t, a)) :
    (blockSystem id ι w).step s a t := by
  cases o with
  | swap o =>
    obtain ⟨⟨u, b⟩, hu, he⟩ := Option.map_eq_some_iff.mp h
    cases he
    exact .swap (swapExec_step s o u b hu)
  | deinit k =>
    simp only [blockExec] at h
    split at h
    · cases h
      exact .deinit (by assumption)
    · cases h

theorem executed_block (ops : List (BlockCall Unit 64))
    (p : List (SwapState Unit 64 × BlockCall Unit 64) → SwapState Unit 64 → Bool)
    (h : ((execute (blockExec 9) startedSwap ops).any fun out => p out.2 out.1) = true) :
    ∃ tr t, (blockSystem id Unit 64).Trace tr t ∧ p tr t = true := by
  obtain ⟨tr, t, hr, hp⟩ := execute_any blockExec_step h
  exact ⟨tr, t, ⟨_, ⟨startedSwap_initial, rfl⟩, hr⟩, hp⟩

instance (s : SwapState ι w) (a : BlockCall ι w) : Decidable (TidyCall s a) :=
  match a with
  | .swap a => inferInstanceAs (Decidable (HeldCall s a ∧ CleanCall s a))
  | .deinit k => inferInstanceAs (Decidable ((s.swapchains k).alive = true →
      s.gfx.pool.freeBlocks.tail = none →
      ∀ b ∈ (s.swapchains k).chain.head, s.gfx.links b = ⟨none, none⟩))

/-- The client holds block 0, block 1 is refused and dropped, and block 2 is handed back by
`swapchain_deinit`. -/
def refusedOps : List (BlockCall Unit 64) :=
  [.swap (.init () 4 4), .swap (.allocate (answersAt 0) 4 4 16 none),
    .swap (.allocate (answersAt 1) 8 8 32 none), .swap (.attach 1), .swap (.reclaim () 1),
    .swap (.acquire () none), .swap (.allocate (answersAt 2) 4 4 16 none),
    .swap (.reclaim () 2), .deinit ()]

theorem blocks_accounted_refused : ∃ tr t, (blockSystem id Unit 64).Trace tr t ∧
    t.gfx.live = {0, 1, 2} ∧ t.held = {0} ∧ ∀ b, (b ∈ t.gfx.live ↔ ∃ place, At tr t b place) ∧
      ∀ p q, At tr t b p → At tr t b q → p = q := by
  obtain ⟨tr, t, htr, hp⟩ := executed_block refusedOps
    (fun tr t => decide (t.gfx.live = {0, 1, 2}) && decide (t.held = {0}) &&
      tr.all fun x => decide (TidyCall x.1 x.2)) (by decide)
  simp only [Bool.and_eq_true, List.all_eq_true, decide_eq_true_eq] at hp
  exact ⟨tr, t, htr, hp.1.1, hp.1.2, fun b => blocks_accounted shmBlockGet_id htr hp.2 b⟩

end Spaze
