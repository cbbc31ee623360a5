import Mathlib.Data.Multiset.AddSub
import Spaze.BlockPlaces
import Spaze.PoolSizes

/-! The buffers that `shm_pool_deinit` destroys, and those that leak. -/
namespace Spaze

open Runs

variable {w : ℕ} {ι : Type*} [DecidableEq ι]

/-- The buffer that a request made, if it succeeded. -/
def Request.bufferMade : Request w → Option Proxy
  | .wlShmPoolCreateBuffer _ _ _ _ _ buffer => buffer
  | _ => none

def Request.bufferDestroyed : Request w → Option Proxy
  | .wlBufferDestroy buffer => some buffer
  | _ => none

/-- The buffers made so far, in order. -/
def buffersMade (requests : List (Request w)) : List Proxy :=
  requests.filterMap Request.bufferMade

/-- The buffers destroyed so far, in order. -/
def buffersDestroyed (requests : List (Request w)) : List Proxy :=
  requests.filterMap Request.bufferDestroyed

/-- The buffers of the blocks in use. -/
def buffersLive (g : Gfx w) : Multiset Proxy := g.live.val.map fun b => (g.blocks b).buffer

/-- Every buffer made is destroyed or belongs to a block in use, as often as it was made. -/
def Balanced (g : Gfx w) : Prop :=
  (buffersMade g.os.requests : Multiset Proxy) =
    buffersDestroyed g.os.requests + buffersLive g

variable {g g' : Gfx w} {ans : Answers} {width height stride size : UsizeT w} {r : Option Addr}
  {err : ShmPoolErrorE} {fuel : ℕ} {b : Addr} {get : Option Addr → Option Addr}
  {s t : SwapState ι w} {a : BlockCall ι w} {tr : List (SwapState ι w × BlockCall ι w)}

theorem buffersMade_snoc (rs : List (Request w)) (q : Request w) :
    buffersMade (rs ++ [q]) = buffersMade rs ++ q.bufferMade.toList := by
  cases hq : q.bufferMade <;> simp [buffersMade, List.filterMap_append, hq]

theorem buffersDestroyed_snoc (rs : List (Request w)) (q : Request w) :
    buffersDestroyed (rs ++ [q]) = buffersDestroyed rs ++ q.bufferDestroyed.toList := by
  cases hq : q.bufferDestroyed <;> simp [buffersDestroyed, List.filterMap_append, hq]

/-- What neither makes nor destroys a buffer. -/
structure SameBuffers (g g' : Gfx w) : Prop where
  made : buffersMade g'.os.requests = buffersMade g.os.requests
  destroyed : buffersDestroyed g'.os.requests = buffersDestroyed g.os.requests
  live : g'.live = g.live
  buffer : ∀ b, (g'.blocks b).buffer = (g.blocks b).buffer

theorem Balanced.same (h : Balanced g) (hs : SameBuffers g g') : Balanced g' := by
  rw [Balanced, buffersLive, hs.made, hs.destroyed, hs.live,
    Multiset.map_congr rfl fun b _ => hs.buffer b]
  exact h

theorem MadeRoom.sameBuffers (h : MadeRoom ans g size g' err) : SameBuffers g g' := by
  have hsame := h.sameBlocks
  refine ⟨?_, ?_, hsame.live, fun b => by rw [hsame.blocks]⟩
  · rcases h.requests with hr | ⟨hr, _⟩ <;> simp [hr, buffersMade_snoc, Request.bufferMade]
  · rcases h.requests with hr | ⟨hr, _⟩ <;> simp [hr, buffersDestroyed_snoc,
      Request.bufferDestroyed]

theorem Balanced.createBuffer (h : Balanced g) (hfresh : ans.malloc ∉ g.live)
    (offset : UsizeT w) :
    Balanced (shmPoolCreateBuffer ans g offset size width height stride).1 := by
  unfold shmPoolCreateBuffer
  cases hb : ans.createBuffer with
  | none =>
    refine h.same ⟨?_, ?_, rfl, fun _ => rfl⟩
    · simp [Os.send, buffersMade_snoc, Request.bufferMade]
    · simp [Os.send, buffersDestroyed_snoc, Request.bufferDestroyed]
  | some buffer =>
    have hkeep : ∀ b ∈ g.live.val, (Function.update g.blocks ans.malloc
        ⟨buffer, width, height, stride, false⟩ b).buffer = (g.blocks b).buffer := by
      intro b hm
      rw [Function.update_of_ne (ne_of_mem_of_not_mem hm hfresh)]
    simp only [Balanced, buffersLive, Os.send, buffersMade_snoc, buffersDestroyed_snoc,
      Request.bufferMade, Request.bufferDestroyed, Option.toList_some, Option.toList_none,
      List.append_nil, Finset.insert_val_of_notMem hfresh, Multiset.map_cons,
      Function.update_self, Multiset.map_congr rfl hkeep]
    rw [← Multiset.coe_add, h, Multiset.coe_singleton, Multiset.add_assoc,
      Multiset.add_comm _ {buffer}, Multiset.singleton_add, buffersLive]

theorem Balanced.allocated (h : Balanced g) (hfresh : ans.malloc ∉ g.live)
    (hcall : Allocated ans g width height stride g' r) : Balanced g' := by
  cases hcall with
  | reused => exact h.same ⟨rfl, rfl, rfl, fun _ => rfl⟩
  | refused _ hroom => exact h.same hroom.sameBuffers
  | created _ hroom =>
    refine (h.same hroom.sameBuffers).createBuffer ?_ _
    rw [hroom.sameBlocks.live]
    exact hfresh

/-- What the loop of a resize or deinit does, whatever the chain is linked to. -/
theorem sameBuffers_deallocateChain {chain : ListS Addr} {r : Option Unit}
    (h : deallocateChain fuel g chain = .ok (g', r)) :
    SameBuffers g g' ∧ g'.pool.alive = g.pool.alive := by
  refine listForEach_invariant
    (I := fun s => SameBuffers g s ∧ s.pool.alive = g.pool.alive) ?_
    ⟨⟨rfl, rfl, rfl, fun _ => rfl⟩, rfl⟩ h
  rintro s x s' r ⟨hs, halive⟩ hb
  cases hb
  exact ⟨⟨hs.made, hs.destroyed, hs.live, hs.buffer⟩, halive⟩

theorem sameBuffers_acquire {sc sc' : SwapchainS w}
    (h : swapchainAcquire get g sc = .ok (g', sc', r)) :
    SameBuffers g g' ∧ g'.pool.alive = g.pool.alive := by
  obtain ⟨_, _, h⟩ := bind_eq_ok.mp h
  dsimp only at h
  split at h
  · cases h
  · split at h <;> cases h <;> exact ⟨⟨rfl, rfl, rfl, fun _ => rfl⟩, rfl⟩

theorem sameBuffers_resize {sc sc' : SwapchainS w}
    (h : swapchainResize fuel g sc width height = .ok (g', sc')) :
    SameBuffers g g' ∧ g'.pool.alive = g.pool.alive := by
  obtain ⟨_, _, h⟩ := bind_eq_ok.mp h
  split at h
  · cases h
    exact ⟨⟨rfl, rfl, rfl, fun _ => rfl⟩, rfl⟩
  · obtain ⟨⟨g₁, r⟩, hloop, h⟩ := bind_eq_ok.mp h
    cases h
    exact sameBuffers_deallocateChain hloop

theorem sameBuffers_deinit {sc sc' : SwapchainS w}
    (h : swapchainDeinit fuel g sc = .ok (g', sc')) :
    SameBuffers g g' ∧ g'.pool.alive = g.pool.alive := by
  unfold swapchainDeinit at h
  split at h
  · cases h
    exact ⟨⟨rfl, rfl, rfl, fun _ => rfl⟩, rfl⟩
  · obtain ⟨⟨g₁, r⟩, hloop, h⟩ := bind_eq_ok.mp h
    cases h
    exact sameBuffers_deallocateChain hloop

theorem bufferUpdate (g : Gfx w) (b : Addr) (busy : Bool) (c : Addr) :
    (Function.update g.blocks b { g.blocks b with busy := busy } c).buffer =
      (g.blocks c).buffer := by
  by_cases hc : c = b <;> simp [hc]

/-- Every call on a live pool keeps it alive and balanced. -/
theorem balanced_step (hg : Balanced s.gfx ∧ s.gfx.pool.alive = true)
    (hs : (blockSystem get ι w).step s a t) : Balanced t.gfx ∧ t.gfx.pool.alive = true := by
  obtain ⟨hb, halive⟩ := hg
  cases hs with
  | swap hs =>
    cases hs with
    | init | deallocate | reclaim => exact ⟨hb.same ⟨rfl, rfl, rfl, fun _ => rfl⟩, halive⟩
    | allocate hfresh hcall =>
      have hallocated := shmPoolAllocate_cases hcall
      refine ⟨hb.allocated hfresh hallocated, ?_⟩
      rcases hallocated.effect with ⟨_, hsame⟩ | ⟨_, c, _, rfl, _⟩ | ⟨_, hnew, _⟩
      · exact hsame.alive.trans halive
      · exact halive
      · exact hnew.alive.trans halive
    | acquire hcall =>
      obtain ⟨hsame, hkeep⟩ := sameBuffers_acquire hcall
      exact ⟨hb.same hsame, hkeep.trans halive⟩
    | resize hcall =>
      obtain ⟨hsame, hkeep⟩ := sameBuffers_resize hcall
      exact ⟨hb.same hsame, hkeep.trans halive⟩
    | attach => exact ⟨hb.same ⟨rfl, rfl, rfl, bufferUpdate _ _ _⟩, halive⟩
    | release => exact ⟨hb.same ⟨rfl, rfl, rfl, bufferUpdate _ _ _⟩, halive⟩
  | deinit hcall =>
    obtain ⟨hsame, hkeep⟩ := sameBuffers_deinit hcall
    exact ⟨hb.same hsame, hkeep.trans halive⟩

theorem balanced_initial (h : (blockSystem get ι w).initial s) :
    Balanced s.gfx ∧ s.gfx.pool.alive = true := by
  obtain ⟨⟨⟨capacity, hpool⟩, _⟩, hlive⟩ := h
  have hstart := hpool.started
  obtain ⟨ptr, _, hos⟩ := hstart.os
  obtain ⟨fd, hrequests⟩ : ∃ fd, s.gfx.os.requests = [.wlShmCreatePool fd capacity] :=
    ⟨_, congrArg Os.requests hos⟩
  refine ⟨?_, hstart.alive⟩
  rw [Balanced, buffersLive, hrequests, hlive]
  rfl

theorem balanced_run (h : (blockSystem get ι w).Trace tr t) :
    Balanced t.gfx ∧ t.gfx.pool.alive = true := by
  obtain ⟨s, hs, hrun⟩ := h
  exact hrun.invariant (I := fun s => Balanced s.gfx ∧ s.gfx.pool.alive = true)
    (fun _ _ _ => balanced_step) (balanced_initial hs)

/-! ## `shm_pool_deinit` -/

/-- A block that is destroyed and freed takes its buffer with it. -/
theorem Balanced.destroyBlock (h : Balanced g) (hb : b ∈ g.live) :
    Balanced (destroyBlock g b) := by
  have hval : g.live.val = b ::ₘ (g.live.erase b).val := by
    rw [Finset.erase_val, Multiset.cons_erase hb]
  rw [Balanced, buffersLive, hval, Multiset.map_cons] at h
  simp only [Balanced, buffersLive, Spaze.destroyBlock, Os.send, buffersMade_snoc,
    buffersDestroyed_snoc, Request.bufferMade, Request.bufferDestroyed, Option.toList_none,
    Option.toList_some, List.append_nil]
  rw [h, ← Multiset.coe_add, Multiset.coe_singleton, Multiset.add_assoc, Multiset.singleton_add]

theorem shmPoolDeinit_balanced (h : Balanced g) (hd : shmPoolDeinit fuel g = .ok g') :
    Balanced g' := by
  unfold shmPoolDeinit at hd
  split at hd
  · cases hd
    exact h
  · obtain ⟨⟨g₁, r⟩, hloop, hd⟩ := bind_eq_ok.mp hd
    have hg₁ : Balanced g₁ := by
      refine listForEach_invariant (I := Balanced) ?_ h hloop
      intro s x s' r hs hb
      unfold shmPoolDestroyBlock at hb
      split at hb
      · rename_i hx
        cases hb
        exact hs.destroyBlock hx
      · cases hb
    cases hd
    refine hg₁.same ⟨?_, ?_, rfl, fun _ => rfl⟩
    · simp [Os.send, Os.munmap, Os.close, buffersMade_snoc, Request.bufferMade]
    · simp [Os.send, Os.munmap, Os.close, buffersDestroyed_snoc, Request.bufferDestroyed]

theorem multiset_add_eq_self {m n : Multiset Proxy} : m + n = m ↔ n = 0 := by
  rw [← Multiset.add_right_inj (s := m) (t := n), Multiset.add_zero]

/-- A `shm_pool_deinit` after a tidy run returns and frees the free blocks, no others, and
destroys their buffers. So every buffer made has been destroyed, once, exactly if every block
had been handed back: those in chains, with the client and dropped leak. -/
theorem deinit_settles (hget : ShmBlockGet get) (h : (blockSystem get ι w).Trace tr t)
    (htidy : ∀ x ∈ tr, TidyCall x.1 x.2) (hfuel : t.gfx.live.card < fuel) :
    ∃ g, shmPoolDeinit fuel t.gfx = .ok g ∧
      (∀ b, b ∈ g.live ↔ ∃ place, place ≠ .shelf none ∧ At tr t b place) ∧
      (buffersMade g.os.requests : Multiset Proxy) =
        buffersDestroyed g.os.requests + buffersLive g ∧
      ((buffersMade g.os.requests).Perm (buffersDestroyed g.os.requests) ↔
        ∀ b place, At tr t b place → place = .shelf none) := by
  obtain ⟨seqs, places, hi⟩ := accounted_run hget h htidy
  obtain ⟨hbalanced, halive⟩ := balanced_run h
  have hat := hi.at_iff
  have hrep := hi.shelves.lists.rep none
  obtain ⟨g, hd, _, hlive⟩ := shmPoolDeinit_eq halive hrep (hi.shelves.listLive none)
    (hi.shelves.length_lt hfuel none)
  have hbalanced' := shmPoolDeinit_balanced hbalanced hd
  have hleft : ∀ b, b ∈ g.live ↔ ∃ place, place ≠ .shelf none ∧ At tr t b place := by
    intro b
    rw [hlive, Finset.mem_filter, hi.live, hi.shelf, Option.ne_none_iff_exists']
    simp only [hat]
    constructor
    · rintro ⟨⟨place, hp⟩, hne⟩
      exact ⟨place, fun he => hne (he ▸ hp), hp⟩
    · rintro ⟨place, hne, hp⟩
      exact ⟨⟨place, hp⟩, fun he => hne (Option.some.inj (hp.symm.trans he))⟩
  refine ⟨g, hd, hleft, hbalanced', ?_⟩
  have hempty : buffersLive g = 0 ↔ ∀ b, b ∉ g.live := by
    rw [buffersLive, Multiset.map_eq_zero, Finset.val_eq_zero, Finset.eq_empty_iff_forall_notMem]
  rw [← Multiset.coe_eq_coe, hbalanced', multiset_add_eq_self, hempty]
  simp only [hleft, not_exists, not_and, not_imp_not]

theorem deinit_settles_refused : ∃ tr t, (blockSystem id Unit 64).Trace tr t ∧ tr.length = 9 ∧
    ∃ g, shmPoolDeinit 9 t.gfx = .ok g ∧
      (∀ b, b ∈ g.live ↔ ∃ place, place ≠ .shelf none ∧ At tr t b place) ∧
      (buffersMade g.os.requests : Multiset Proxy) =
        buffersDestroyed g.os.requests + buffersLive g ∧
      ((buffersMade g.os.requests).Perm (buffersDestroyed g.os.requests) ↔
        ∀ b place, At tr t b place → place = .shelf none) := by
  obtain ⟨tr, t, htr, hp⟩ := executed_block refusedOps
    (fun tr t => tr.length == 9 && decide (t.gfx.live.card < 9) &&
      tr.all fun x => decide (TidyCall x.1 x.2)) (by decide)
  simp only [Bool.and_eq_true, beq_iff_eq, List.all_eq_true, decide_eq_true_eq] at hp
  exact ⟨tr, t, htr, hp.1.1, deinit_settles shmBlockGet_id htr hp.2 hp.1.2⟩

end Spaze
