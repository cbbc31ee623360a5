import Mathlib.Logic.Equiv.Basic
import Spaze.Lib.Blocks
import Spaze.PoolViews

/-! Pools that share a process: who has its open descriptors and its mappings. -/
namespace Spaze

open Blocks Runs

variable {w : ℕ} {os os' : Os w} {fd : Fd} {a ptr : Addr} {n size : UsizeT w}

/-! ## The mappings by their address -/

/-- The length of the mapping at an address. -/
def Os.mapping (os : Os w) (a : Addr) : Option (UsizeT w) := os.mappings.lookup a

/-- No two mappings are at one address. -/
def Os.Distinct (os : Os w) : Prop := (os.mappings.map Prod.fst).Nodup

theorem Os.mapping_eq_none : os.mapping a = none ↔ ∀ m ∈ os.mappings, m.1 ≠ a := by
  simp only [Os.mapping, List.lookup_eq_none_iff, ne_eq, bne_iff_ne, eq_comm (a := a)]

theorem Os.Distinct.mapping_eq_some (h : os.Distinct) :
    os.mapping a = some n ↔ (a, n) ∈ os.mappings := by
  rw [Os.mapping, List.lookup_eq_some_iff]
  constructor
  · rintro ⟨xs, ys, hsplit, _⟩
    simp [hsplit]
  · intro hm
    obtain ⟨xs, ys, hsplit⟩ := List.append_of_mem hm
    refine ⟨xs, ys, hsplit, fun m hm => ?_⟩
    rw [Os.Distinct, hsplit, List.map_append, List.nodup_append] at h
    have hne := h.2.2 m.1 (List.mem_map_of_mem hm) a (by simp)
    simpa using hne.symm

theorem Os.Distinct.mmap (h : os.Distinct) (hfree : os.mapping ptr = none) :
    (os.mmap ptr n).Distinct := by
  rw [Os.mapping_eq_none] at hfree
  simp only [Os.Distinct, Os.mmap, List.map_append, List.nodup_append]
  refine ⟨h, by simp, ?_⟩
  intro c hc d hd
  obtain ⟨m, hm, rfl⟩ := List.mem_map.mp hc
  obtain rfl : d = ptr := by simpa using hd
  exact hfree m hm

theorem Os.mapping_mmap (hfree : os.mapping ptr = none) :
    (os.mmap ptr n).mapping = Function.update os.mapping ptr (some n) := by
  funext c
  rw [Os.mapping, Os.mmap, List.lookup_append]
  by_cases hc : c = ptr
  · subst c
    rw [Function.update_self, show os.mappings.lookup ptr = none from hfree]
    simp
  · rw [Function.update_of_ne hc]
    have hne : (c == ptr) = false := by simpa using hc
    simp [Os.mapping, List.lookup_cons, hne]

theorem Os.Distinct.munmap (h : os.Distinct) (p : Option Addr) (n : UsizeT w) :
    (os.munmap p n).Distinct :=
  h.sublist (List.filter_sublist.map Prod.fst)

theorem Os.munmap_mmap (hfree : os.mapping ptr = none) :
    ((os.mmap ptr n).munmap (some ptr) n).mappings = os.mappings := by
  rw [Os.mapping_eq_none] at hfree
  simp only [Os.munmap, Os.mmap, List.filter_append]
  rw [List.filter_eq_self.mpr fun m hm => by simp [(hfree m hm).symm]]
  simp

/-- Who gives the address and the length of a mapping removes it, and no other. -/
theorem Os.Distinct.mapping_munmap (h : os.Distinct) (hp : os.mapping ptr = some n) :
    (os.munmap (some ptr) n).mapping = release os.mapping (some ptr) := by
  rw [h.mapping_eq_some] at hp
  funext c
  apply Option.ext
  intro b
  have hmem : (c, b) ∈ (os.munmap (some ptr) n).mappings ↔
      (c, b) ∈ os.mappings ∧ ¬ (ptr = c ∧ n = b) := by
    simp [Os.munmap, imp_iff_not_or]
  rw [(h.munmap _ _).mapping_eq_some, hmem]
  by_cases hc : c = ptr
  · subst c
    rw [release_self]
    refine iff_of_false ?_ (by simp)
    rintro ⟨hm, hne⟩
    have hsame := (h.mapping_eq_some.mpr hp).symm.trans (h.mapping_eq_some.mpr hm)
    exact hne ⟨rfl, Option.some.inj hsame⟩
  · rw [release_of_ne fun he => hc (Option.some.inj he).symm, h.mapping_eq_some]
    exact and_iff_left fun he => hc he.1.symm

/-! ## What a pool has -/

/-- What a live pool has of its process: a descriptor, and a mapping of its capacity. -/
structure Holding (w : ℕ) where
  fd : Fd
  data : Option Addr
  capacity : UsizeT w

def ShmPoolS.holding (pool : ShmPoolS w) : Option (Holding w) :=
  if pool.alive then some ⟨pool.fd, pool.poolData, pool.poolCapacity⟩ else none

theorem ShmPoolS.holding_alive {pool : ShmPoolS w} (h : pool.alive = true) :
    pool.holding = some ⟨pool.fd, pool.poolData, pool.poolCapacity⟩ := by
  rw [holding, if_pos h]

/-- The mapping is there, and an open file at least as large. -/
structure Backed (os : Os w) (x : Holding w) : Prop where
  pos : 0 < x.capacity
  mapped : content os.mapping x.data = some x.capacity
  file : ∃ n, os.file x.fd = some n ∧ x.capacity.toNat ≤ n

variable {O : Type*}

/-- The owners' descriptors. -/
def fds (owner : O → Option (Holding w)) (o : O) : Option Fd := (owner o).map Holding.fd

/-- The owners' pointers to their mappings. -/
def regions (owner : O → Option (Holding w)) (o : O) : Option Addr := (owner o).bind Holding.data

/-- Each open descriptor and each mapping is that of one owner, and no owner misses its own. -/
structure OsHeld (os : Os w) (owner : O → Option (Holding w)) : Prop where
  distinct : os.Distinct
  files : Blocks.Owned os.file (fds owner)
  maps : Blocks.Owned os.mapping (regions owner)
  backed : ∀ o x, owner o = some x → Backed os x

variable {owner : O → Option (Holding w)} {o : O} {x y : Holding w}

theorem Os.mapping_congr (h : os'.mappings = os.mappings) : os'.mapping = os.mapping := by
  funext c
  rw [Os.mapping, h, Os.mapping]

theorem Backed.congr (h : Backed os x) (hfile : os'.file x.fd = os.file x.fd)
    (hmap : content os'.mapping x.data = content os.mapping x.data) : Backed os' x := by
  refine ⟨h.pos, hmap.trans h.mapped, ?_⟩
  rw [hfile]
  exact h.file

theorem Backed.data (h : Backed os x) :
    ∃ ptr, x.data = some ptr ∧ os.mapping ptr = some x.capacity := by
  have hmapped := h.mapped
  cases hx : x.data with
  | none => simp [content, hx] at hmapped
  | some ptr => exact ⟨ptr, rfl, by simpa [content, hx] using hmapped⟩

theorem OsHeld.congr (h : OsHeld os owner) (hfile : os'.file = os.file)
    (hmappings : os'.mappings = os.mappings) : OsHeld os' owner := by
  have hmap := Os.mapping_congr hmappings
  refine ⟨?_, ?_, ?_, fun o x ho => ?_⟩
  · rw [Os.Distinct, hmappings]
    exact h.distinct
  · rw [hfile]
    exact h.files
  · rw [hmap]
    exact h.maps
  · exact (h.backed o x ho).congr (by rw [hfile]) (by rw [hmap])

theorem OsHeld.relabel {O' : Type*} (h : OsHeld os owner) (e : O' ≃ O) :
    OsHeld os fun o => owner (e o) :=
  ⟨h.distinct, h.files.relabel e, h.maps.relabel e, fun o => h.backed (e o)⟩

variable [DecidableEq O] {r : Option (Holding w)}

theorem fds_update : fds (Function.update owner o r) =
    Function.update (fds owner) o (r.map Holding.fd) :=
  Function.comp_update (Option.map Holding.fd) owner o r

theorem regions_update : regions (Function.update owner o r) =
    Function.update (regions owner) o (r.bind Holding.data) :=
  Function.comp_update (fun x => Option.bind x Holding.data) owner o r

theorem OsHeld.kept (h : OsHeld os owner) (ho : owner o = r) :
    OsHeld os (Function.update owner o r) := by
  rw [← ho, Function.update_eq_self]
  exact h

/-- One owner comes to have something else, and the others keep what they have. -/
theorem OsHeld.update (h : OsHeld os owner) (hd : os'.Distinct)
    (hfiles : Blocks.Owned os'.file (Function.update (fds owner) o (r.map Holding.fd)) ∧
      ∀ j, j ≠ o → content os'.file (fds owner j) = content os.file (fds owner j))
    (hmaps : Blocks.Owned os'.mapping (Function.update (regions owner) o (r.bind Holding.data)) ∧
      ∀ j, j ≠ o → content os'.mapping (regions owner j) = content os.mapping (regions owner j))
    (hr : ∀ x, r = some x → Backed os' x) : OsHeld os' (Function.update owner o r) := by
  refine ⟨hd, ?_, ?_, fun j x hj => ?_⟩
  · rw [fds_update]
    exact hfiles.1
  · rw [regions_update]
    exact hmaps.1
  · by_cases hjo : j = o
    · subst j
      rw [Function.update_self] at hj
      exact hr x hj
    · rw [Function.update_of_ne hjo] at hj
      have hfile := hfiles.2 j hjo
      have hmap := hmaps.2 j hjo
      simp only [fds, regions, hj] at hfile hmap
      exact (h.backed j x hj).congr hfile hmap

/-! ## What the calls do to it -/

theorem OsHeld.opened (h : OsHeld os owner) (ho : owner o = none) (hpos : 0 < size)
    (hfd : os.file fd = none) (hfree : os.mapping ptr = none)
    (hfile : os'.file = Function.update os.file fd (some size.toNat))
    (hmappings : os'.mappings = (os.mmap ptr size).mappings) :
    OsHeld os' (Function.update owner o (some ⟨fd, some ptr, size⟩)) := by
  have hmap : os'.mapping = Function.update os.mapping ptr (some size) :=
    (Os.mapping_congr hmappings).trans (Os.mapping_mmap hfree)
  refine h.update ?_ ?_ ?_ ?_
  · rw [Os.Distinct, hmappings]
    exact h.distinct.mmap hfree
  · rw [hfile]
    exact h.files.take (by simp [fds, ho]) hfd _
  · rw [hmap]
    exact h.maps.take (by simp [regions, ho]) hfree _
  · rintro x ⟨⟩
    refine ⟨hpos, ?_, size.toNat, ?_, Nat.le_refl _⟩
    · simp [content, hmap]
    · simp [hfile]

theorem OsHeld.closed (h : OsHeld os owner) (ho : owner o = some x)
    (hfile : os'.file = Function.update os.file x.fd none)
    (hmappings : os'.mappings = (os.munmap x.data x.capacity).mappings) :
    OsHeld os' (Function.update owner o none) := by
  obtain ⟨ptr, hdata, hmapped⟩ := (h.backed o x ho).data
  have hmap : os'.mapping = release os.mapping (some ptr) := by
    rw [Os.mapping_congr hmappings, hdata]
    exact h.distinct.mapping_munmap hmapped
  refine h.update ?_ ?_ ?_ nofun
  · rw [Os.Distinct, hmappings]
    exact h.distinct.munmap _ _
  · have hout := h.files.release o
    simp only [fds, ho, Option.map_some] at hout
    rw [hfile]
    exact hout
  · have hout := h.maps.release o
    simp only [regions, ho, Option.bind_some, hdata] at hout
    rw [hmap]
    exact hout

omit [DecidableEq O] in
theorem OsHeld.resized (h : OsHeld os owner) (ho : owner o = some x) (size : UsizeT w) :
    (os.ftruncate x.fd size).file = Function.update os.file x.fd (some size.toNat) ∧
      Blocks.Owned (os.ftruncate x.fd size).file (fds owner) ∧
      ∀ j, j ≠ o → content (os.ftruncate x.fd size).file (fds owner j) =
        content os.file (fds owner j) := by
  obtain ⟨n, hfile, _⟩ := (h.backed o x ho).file
  have hsize : (os.ftruncate x.fd size).file = Function.update os.file x.fd (some size.toNat) := by
    simp [Os.ftruncate, hfile]
  rw [hsize]
  exact ⟨rfl, h.files.write (by simp [fds, ho]) size.toNat⟩

/-- A growth whose mmap fails leaves a larger file. -/
theorem OsHeld.truncated (h : OsHeld os owner) (ho : owner o = some x) (hgt : x.capacity < size) :
    OsHeld (os.ftruncate x.fd size) owner := by
  obtain ⟨hsize, hfiles, hkeep⟩ := h.resized ho size
  refine ⟨h.distinct, hfiles, h.maps, fun j y hj => ?_⟩
  have hy := h.backed j y hj
  by_cases hjo : j = o
  · subst j
    obtain rfl : x = y := Option.some.inj (ho.symm.trans hj)
    refine ⟨hy.pos, hy.mapped, size.toNat, by simp [hsize], ?_⟩
    exact Nat.le_of_lt (BitVec.lt_def.mp hgt)
  · have hfile := hkeep j hjo
    simp only [fds, hj] at hfile
    exact hy.congr hfile rfl

/-- A growth enlarges the file and replaces the mapping. -/
theorem OsHeld.grown (h : OsHeld os owner) (ho : owner o = some x) (hgt : x.capacity < size)
    (hfree : os.mapping ptr = none) (hfile : os'.file = (os.ftruncate x.fd size).file)
    (hmappings : os'.mappings = ((os.mmap ptr size).munmap x.data x.capacity).mappings) :
    OsHeld os' (Function.update owner o (some ⟨x.fd, some ptr, size⟩)) := by
  obtain ⟨hsize, hfiles, hkeep⟩ := h.resized ho size
  obtain ⟨old, hdata, hmapped⟩ := (h.backed o x ho).data
  have hne : some old ≠ some ptr := by
    intro he
    rw [Option.some.inj he, hfree] at hmapped
    cases hmapped
  have hmapped' : (os.mmap ptr size).mapping old = some x.capacity := by
    rw [Os.mapping_mmap hfree, Function.update_of_ne fun he => hne (congrArg some he)]
    exact hmapped
  have hmap : os'.mapping =
      Function.update (release os.mapping (some old)) ptr (some size) := by
    rw [Os.mapping_congr hmappings, hdata, (h.distinct.mmap hfree).mapping_munmap hmapped',
      Os.mapping_mmap hfree, release_fresh hne]
  refine h.update ?_ ?_ ?_ ?_
  · rw [Os.Distinct, hmappings]
    exact (h.distinct.mmap hfree).munmap _ _
  · have hsame : some x.fd = fds owner o := by simp [fds, ho]
    rw [hfile, Option.map_some, hsame, Function.update_eq_self]
    exact ⟨hfiles, hkeep⟩
  · have hout := h.maps.replace hfree o size
    simp only [regions, ho, Option.bind_some, hdata] at hout
    rw [hmap]
    exact hout
  · rintro y ⟨⟩
    have hpos := BitVec.lt_def.mp (h.backed o x ho).pos
    have hlt := BitVec.lt_def.mp hgt
    refine ⟨BitVec.lt_def.mpr (hpos.trans hlt), ?_, size.toNat, ?_, Nat.le_refl _⟩
    · simp [content, hmap]
    · simp [hfile, hsize]

/-! ## The calls -/

variable {fuel : ℕ} {ans : Answers} {g g' : Gfx w} {err : ShmPoolErrorE}
  {width height stride : UsizeT w} {res : Option Addr}

/-- Whether it fails or not, `shm_pool_init` leaves outside what the pool then has. -/
theorem OsHeld.init {ians : InitAnswers} (h : OsHeld g.os owner) (ho : owner o = none)
    (hfd : ∀ fd, ians.shmOpen = some fd → g.os.file fd = none)
    (hmap : ∀ ptr, ians.mmap = some ptr → g.os.mapping ptr = none)
    (hcall : shmPoolInit ians g size = .ok (g', err)) :
    OsHeld g'.os (Function.update owner o g'.pool.holding) := by
  have hfailed : ∀ os', os'.file = g.os.file → os'.mappings = g.os.mappings →
      OsHeld os' (Function.update owner o (ShmPoolS.zero w).holding) := by
    intro os' hfile hmappings
    exact (h.congr hfile hmappings).kept ho
  simp only [shmPoolInit, bind_eq_ok, assert_eq_ok, decide_eq_true_eq] at hcall
  obtain ⟨_, hpos, hcall⟩ := hcall
  cases hopen : ians.shmOpen with
  | none =>
    rw [hopen] at hcall
    cases hcall
    exact hfailed _ rfl rfl
  | some fd =>
    have hclosed := hfd fd hopen
    have hrestored : Function.update g.os.file fd none = g.os.file := by
      rw [← hclosed, Function.update_eq_self]
    cases ht : ians.ftruncate with
    | false =>
      rw [hopen, ht] at hcall
      cases hcall
      exact hfailed _ (by simpa [Os.close, Os.shmOpen] using hrestored) rfl
    | true =>
      cases hm : ians.mmap with
      | none =>
        rw [hopen, ht, hm] at hcall
        cases hcall
        exact hfailed _ (by simpa [Os.close, Os.ftruncate, Os.shmOpen] using hrestored) rfl
      | some ptr =>
        have hfree := hmap ptr hm
        cases hp : ians.createPool with
        | none =>
          rw [hopen, ht, hm, hp] at hcall
          cases hcall
          refine hfailed _ ?_ (Os.munmap_mmap hfree)
          simpa [Os.close, Os.munmap, Os.send, Os.mmap, Os.ftruncate, Os.shmOpen] using hrestored
        | some pool =>
          rw [hopen, ht, hm, hp] at hcall
          cases hcall
          refine h.opened ho hpos hclosed hfree ?_ rfl
          simp [Os.send, Os.mmap, Os.ftruncate, Os.shmOpen]

theorem OsHeld.madeRoom (h : OsHeld g.os owner) (halive : g.pool.alive = true)
    (ho : owner o = g.pool.holding) (hmap : ∀ ptr, ans.mmap = some ptr → g.os.mapping ptr = none)
    (hroom : MadeRoom ans g size g' err) :
    OsHeld g'.os (Function.update owner o g'.pool.holding) ∧ g'.pool.alive = true := by
  have hholding := ho.trans (ShmPoolS.holding_alive halive)
  cases hroom with
  | enough | truncateFailed => exact ⟨h.kept ho, halive⟩
  | mmapFailed hgrow hcap =>
    exact ⟨(h.truncated hholding (hcap.gt hgrow)).kept ho, halive⟩
  | @grown capacity ptr hgrow hcap ht hm =>
    obtain ⟨old, hdata, _⟩ := (h.backed o _ hholding).data
    have hpos := (h.backed o _ hholding).pos
    have hreplaced : (shmPoolGrow true (some ptr) g.os g.pool.fd g.pool.poolCapacity g.pool.poolData
        capacity).1 = ((g.os.ftruncate g.pool.fd capacity).mmap ptr capacity).munmap
          g.pool.poolData g.pool.poolCapacity := by
      have hpool : g.pool.poolData = some old := hdata
      rw [hpool]
      exact shmPoolGrow_replaces g.os g.pool.fd old ptr capacity hpos
    rw [hreplaced]
    have hout : OsHeld ((((g.os.ftruncate g.pool.fd capacity).mmap ptr capacity).munmap
        g.pool.poolData g.pool.poolCapacity).send (.wlShmPoolResize g.pool.pool capacity))
        (Function.update owner o (some ⟨g.pool.fd, some ptr, capacity⟩)) :=
      h.grown hholding (hcap.gt hgrow) (hmap ptr hm) rfl rfl
    refine ⟨?_, halive⟩
    simpa [ShmPoolS.holding, halive] using hout

theorem SameSizes.holding (h : SameSizes g g') : g'.pool.holding = g.pool.holding := by
  rw [ShmPoolS.holding, h.alive, h.fd, h.poolData, h.poolCapacity, ShmPoolS.holding]

theorem OsHeld.allocate (h : OsHeld g.os owner) (ho : owner o = g.pool.holding)
    (hmap : ∀ ptr, ans.mmap = some ptr → g.os.mapping ptr = none)
    (hcall : shmPoolAllocate fuel ans g width height stride = .ok (g', res)) :
    OsHeld g'.os (Function.update owner o g'.pool.holding) := by
  have halive : g.pool.alive = true := by
    simp only [shmPoolAllocate, bind_eq_ok, assert_eq_ok] at hcall
    obtain ⟨_, halive, _⟩ := hcall
    exact halive
  cases shmPoolAllocate_cases hcall with
  | reused => exact h.kept ho
  | refused _ hroom => exact (h.madeRoom halive ho hmap hroom).1
  | @created _ g₁ _ hroom =>
    have hout := (h.madeRoom halive ho hmap hroom).1
    have hsame := shmPoolCreateBuffer_sizes ans g₁ g.pool.poolUsed (stride * height) width height
      stride
    rw [hsame.holding]
    exact hout.congr hsame.file hsame.mappings

theorem destroyLoop_sizes {r : Option Unit}
    (h : listForEach Gfx.liveNext shmPoolDestroyBlock fuel g g.pool.freeBlocks.head =
      .ok (g', r)) : SameSizes g g' := by
  refine listForEach_invariant (I := SameSizes g) ?_ ⟨rfl, rfl, rfl, rfl, rfl, rfl, rfl⟩ h
  intro s b s' _ hs hb
  unfold shmPoolDestroyBlock at hb
  split at hb
  · cases hb
    refine ⟨hs.alive, hs.poolCapacity, hs.poolData, hs.fd, hs.file, hs.mappings, ?_⟩
    simpa [Os.send, poolSizes_snoc, Request.poolSize] using hs.asked
  · cases hb

theorem OsHeld.deinit (h : OsHeld g.os owner) (ho : owner o = g.pool.holding)
    (hcall : shmPoolDeinit fuel g = .ok g') :
    OsHeld g'.os (Function.update owner o g'.pool.holding) := by
  by_cases halive : g.pool.alive = true
  · simp only [shmPoolDeinit, halive, Bool.not_true, Bool.false_eq_true, if_false,
      bind_eq_ok] at hcall
    obtain ⟨⟨g₁, r⟩, hloop, hcall⟩ := hcall
    have hsame : SameSizes g g₁ := destroyLoop_sizes hloop
    cases hcall
    refine h.closed (ho.trans (ShmPoolS.holding_alive halive)) ?_ ?_
    · simp only [Os.close, Os.munmap, Os.send, hsame.file, hsame.fd]
    · simp only [Os.close, Os.munmap, Os.send, hsame.mappings, hsame.poolData, hsame.poolCapacity]
  · rw [Bool.not_eq_true] at halive
    simp only [shmPoolDeinit, halive] at hcall
    cases hcall
    exact h.kept ho

/-! ## Runs of a process -/

variable {κ : Type*} [DecidableEq κ]

/-- The pools of a process, the memory they share and what is outside. -/
structure Pools (κ : Type*) (w : ℕ) where
  pools : κ → ShmPoolS w
  links : Links Addr
  blocks : Addr → ShmBlockS w
  live : Finset Addr
  os : Os w

/-- What a call on one pool sees. -/
def Pools.gfx (s : Pools κ w) (k : κ) : Gfx w :=
  ⟨s.pools k, s.links, s.blocks, s.live, s.os⟩

/-- What it leaves. -/
def Pools.set (s : Pools κ w) (k : κ) (g : Gfx w) : Pools κ w :=
  ⟨Function.update s.pools k g.pool, g.links, g.blocks, g.live, g.os⟩

/-- A call and what it returned. -/
inductive PoolsCall (κ : Type*) (w : ℕ)
  | init (k : κ) (capacity : UsizeT w) (result : ShmPoolErrorE)
  | allocate (k : κ) (width height stride : UsizeT w) (result : Option Addr)
  | deallocate (k : κ) (block : Addr)
  | deinit (k : κ)

/-- One completed call. A descriptor that is opened is not open, and mmap maps nothing over a
mapping. -/
inductive PoolsStep : Pools κ w → PoolsCall κ w → Pools κ w → Prop
  | init {s : Pools κ w} {k : κ} {ans : InitAnswers} {capacity : UsizeT w} {g : Gfx w}
      {err : ShmPoolErrorE} (hfd : ∀ fd, ans.shmOpen = some fd → s.os.file fd = none)
      (hmap : ∀ ptr, ans.mmap = some ptr → s.os.mapping ptr = none)
      (h : shmPoolInit ans (s.gfx k) capacity = .ok (g, err)) :
      PoolsStep s (.init k capacity err) (s.set k g)
  | allocate {s : Pools κ w} {k : κ} {fuel : ℕ} {ans : Answers}
      {width height stride : UsizeT w} {g : Gfx w} {r : Option Addr}
      (hfresh : ans.malloc ∉ s.live) (hmap : ∀ ptr, ans.mmap = some ptr → s.os.mapping ptr = none)
      (h : shmPoolAllocate fuel ans (s.gfx k) width height stride = .ok (g, r)) :
      PoolsStep s (.allocate k width height stride r) (s.set k g)
  | deallocate {s : Pools κ w} (k : κ) (block : Addr) :
      PoolsStep s (.deallocate k block) (s.set k (shmPoolDeallocate (s.gfx k) block))
  | deinit {s : Pools κ w} {k : κ} {fuel : ℕ} {g : Gfx w}
      (h : shmPoolDeinit fuel (s.gfx k) = .ok g) : PoolsStep s (.deinit k) (s.set k g)

/-- Every pool starts zeroed, and nothing is open or mapped. -/
def poolsSystem (κ : Type*) [DecidableEq κ] (w : ℕ) : System (Pools κ w) (PoolsCall κ w) where
  initial s := (∀ k, s.pools k = ShmPoolS.zero w) ∧ s.os = Os.start w
  step := PoolsStep

/-- What a call abandons: what a live pool has that is initialised again. -/
def abandonedBy (s : Pools κ w) : PoolsCall κ w → Option (Holding w)
  | .init k _ _ => (s.pools k).holding
  | _ => none

/-- What the run has abandoned, oldest first. -/
def abandoned (tr : List (Pools κ w × PoolsCall κ w)) : List (Holding w) :=
  tr.filterMap fun x => abandonedBy x.1 x.2

/-- What each pool has, and what each initialisation of a live one has left behind. -/
def owners (tr : List (Pools κ w × PoolsCall κ w)) (s : Pools κ w) :
    κ ⊕ ℕ → Option (Holding w)
  | .inl k => (s.pools k).holding
  | .inr n => (abandoned tr)[n]?

variable {s t : Pools κ w} {c : PoolsCall κ w} {k : κ}
  {tr : List (Pools κ w × PoolsCall κ w)}

theorem owners_kept (hnone : abandonedBy s c = none) :
    owners (tr ++ [(s, c)]) (s.set k g) =
      Function.update (owners tr s) (.inl k) g.pool.holding := by
  funext o
  cases o with
  | inl j =>
    by_cases hj : j = k
    · subst j
      simp [owners, Pools.set]
    · rw [Function.update_of_ne (by simpa using hj)]
      simp [owners, Pools.set, hj]
  | inr n => simp [owners, abandoned, hnone]

/-- What an initialised pool had becomes that of the next owner left behind. -/
theorem owners_abandoned {capacity : UsizeT w} (hx : (s.pools k).holding = some x) :
    owners (tr ++ [(s, .init k capacity err)]) (s.set k g) =
      Function.update (fun o => owners tr s (Equiv.swap (.inl k) (.inr (abandoned tr).length) o))
        (.inl k) g.pool.holding := by
  have hlist : abandoned (tr ++ [(s, .init k capacity err)]) = abandoned tr ++ [x] := by
    simp [abandoned, abandonedBy, hx]
  funext o
  cases o with
  | inl j =>
    by_cases hj : j = k
    · subst j
      simp [owners, Pools.set]
    · have hne : (Sum.inl j : κ ⊕ ℕ) ≠ .inl k := by simpa using hj
      rw [Function.update_of_ne hne, Equiv.swap_apply_of_ne_of_ne hne Sum.inl_ne_inr]
      simp [owners, Pools.set, hj]
  | inr n =>
    rw [Function.update_of_ne Sum.inr_ne_inl]
    by_cases hn : n = (abandoned tr).length
    · subst n
      simp [owners, hlist, hx]
    · have hne : (Sum.inr n : κ ⊕ ℕ) ≠ .inr (abandoned tr).length := by simpa using hn
      rw [Equiv.swap_apply_of_ne_of_ne Sum.inr_ne_inl hne]
      simp only [owners, hlist, List.getElem?_append]
      split
      · rfl
      · rename_i hlt
        have hold : (abandoned tr)[n]? = none := List.getElem?_eq_none (by omega)
        have hnew : [x][n - (abandoned tr).length]? = none := by
          apply List.getElem?_eq_none
          rw [List.length_singleton]
          omega
        rw [hold, hnew]

theorem osHeld_step (h : OsHeld s.os (owners tr s)) (hs : PoolsStep s c t) :
    OsHeld t.os (owners (tr ++ [(s, c)]) t) := by
  cases hs with
  | @init k _ capacity g err hfd hmap hcall =>
    cases hx : (s.pools k).holding with
    | none =>
      rw [owners_kept (c := .init k capacity err) hx]
      exact OsHeld.init (g := s.gfx k) h hx hfd hmap hcall
    | some x =>
      rw [owners_abandoned hx]
      refine OsHeld.init (g := s.gfx k) (h.relabel _) ?_ hfd hmap hcall
      simp [owners, abandoned]
  | @allocate k _ _ _ _ _ _ _ _ hmap hcall =>
    rw [owners_kept rfl]
    exact OsHeld.allocate (g := s.gfx k) h rfl hmap hcall
  | deallocate k block =>
    rw [owners_kept rfl]
    exact h.kept rfl
  | @deinit k _ _ hcall =>
    rw [owners_kept rfl]
    exact OsHeld.deinit (g := s.gfx k) h rfl hcall

theorem osHeld_initial (h : (poolsSystem κ w).initial s) : OsHeld s.os (owners [] s) := by
  obtain ⟨hzero, hos⟩ := h
  have hnone : owners [] s = fun _ => none := by
    funext o
    cases o with
    | inl k =>
      simp [owners, hzero, ShmPoolS.holding, ShmPoolS.zero]
    | inr n => rfl
  rw [hnone, hos]
  exact ⟨by simp [Os.Distinct, Os.start], owned_empty, owned_empty, nofun⟩

theorem osHeld_run (h : (poolsSystem κ w).Trace tr t) : OsHeld t.os (owners tr t) := by
  obtain ⟨s, hs, hrun⟩ := h
  exact hrun.history (I := fun tr s => OsHeld s.os (owners tr s)) (fun _ _ _ _ => osHeld_step)
    (osHeld_initial hs)

omit [DecidableEq O] in
/-- Nothing is open or mapped if and only if nobody has anything. -/
theorem OsHeld.empty_iff (h : OsHeld os owner) :
    (os.mappings = [] ∧ ∀ fd, os.file fd = none) ↔ ∀ o, owner o = none := by
  constructor
  · rintro ⟨_, hclosed⟩ o
    cases ho : owner o with
    | none => rfl
    | some x =>
      obtain ⟨n, hfile, _⟩ := (h.backed o x ho).file
      cases (hclosed x.fd).symm.trans hfile
  · intro hnone
    constructor
    · rw [List.eq_nil_iff_forall_not_mem]
      intro m hm
      have hused : os.mapping m.1 ≠ none := fun hfree => Os.mapping_eq_none.mp hfree m hm rfl
      obtain ⟨o, ho⟩ := (h.maps.used_iff m.1).mp hused
      simp [regions, hnone] at ho
    · intro fd
      by_contra hused
      obtain ⟨o, ho⟩ := (h.files.used_iff fd).mp hused
      simp [fds, hnone] at ho

omit [DecidableEq κ] in
theorem owners_none_iff : (∀ o, owners tr t o = none) ↔
    (∀ k, (t.pools k).alive = false) ∧ ∀ x ∈ tr, abandonedBy x.1 x.2 = none := by
  rw [Sum.forall]
  refine and_congr (forall_congr' fun k => ?_) ?_
  · simp [owners, ShmPoolS.holding]
  · rw [← List.filterMap_eq_nil_iff]
    constructor
    · intro hnone
      have hlength := List.getElem?_eq_none_iff.mp (hnone 0)
      exact List.eq_nil_of_length_eq_zero (Nat.le_zero.mp hlength)
    · intro hnil n
      simp only [owners, abandoned, hnil, List.getElem?_nil]

/-- In every state of every run each open descriptor and each mapping is that of one live pool,
or was that of one which has been initialised again, and none of these misses its own; so
nothing is open or mapped exactly if no pool is live and none has been. -/
theorem pools_accounted (h : (poolsSystem κ w).Trace tr t) :
    OsHeld t.os (owners tr t) ∧ ((t.os.mappings = [] ∧ ∀ fd, t.os.file fd = none) ↔
      (∀ k, (t.pools k).alive = false) ∧ ∀ x ∈ tr, abandonedBy x.1 x.2 = none) := by
  have hheld := osHeld_run h
  exact ⟨hheld, hheld.empty_iff.trans owners_none_iff⟩

/-! ## Runs that are carried out -/

/-- A call, with the answers that it gets. -/
inductive PoolsOp (κ : Type*) (w : ℕ)
  | init (k : κ) (ans : InitAnswers) (capacity : UsizeT w)
  | allocate (k : κ) (ans : Answers) (width height stride : UsizeT w)
  | deallocate (k : κ) (block : Addr)
  | deinit (k : κ)

/-- Carries out a call, if its answers are possible and it returns. -/
def poolsExec (fuel : ℕ) (s : Pools κ w) : PoolsOp κ w → Option (Pools κ w × PoolsCall κ w)
  | .init k ans capacity =>
    if (∀ fd ∈ ans.shmOpen, s.os.file fd = none) ∧ ∀ ptr ∈ ans.mmap, s.os.mapping ptr = none then
      match shmPoolInit ans (s.gfx k) capacity with
      | .ok (g, err) => some (s.set k g, .init k capacity err)
      | .error _ => none
    else none
  | .allocate k ans width height stride =>
    if ans.malloc ∉ s.live ∧ ∀ ptr ∈ ans.mmap, s.os.mapping ptr = none then
      match shmPoolAllocate fuel ans (s.gfx k) width height stride with
      | .ok (g, r) => some (s.set k g, .allocate k width height stride r)
      | .error _ => none
    else none
  | .deallocate k block => some (s.set k (shmPoolDeallocate (s.gfx k) block), .deallocate k block)
  | .deinit k =>
    match shmPoolDeinit fuel (s.gfx k) with
    | .ok g => some (s.set k g, .deinit k)
    | .error _ => none

theorem poolsExec_step {fuel : ℕ} (s : Pools κ w) (o : PoolsOp κ w) (t : Pools κ w)
    (c : PoolsCall κ w) (h : poolsExec fuel s o = some (t, c)) : (poolsSystem κ w).step s c t := by
  cases o with
  | init k ans capacity =>
    simp only [poolsExec] at h
    split at h
    · rename_i hfree
      split at h
      · cases h
        exact .init hfree.1 hfree.2 (by assumption)
      · cases h
    · cases h
  | allocate k ans width height stride =>
    simp only [poolsExec] at h
    split at h
    · rename_i hfree
      split at h
      · cases h
        exact .allocate hfree.1 hfree.2 (by assumption)
      · cases h
    · cases h
  | deallocate k block =>
    cases h
    exact .deallocate k block
  | deinit k =>
    simp only [poolsExec] at h
    split at h
    · cases h
      exact .deinit (by assumption)
    · cases h

/-- Two pools that are not initialised, over a heap whose link words are all NULL. -/
def zeroedPools : Pools Bool 64 where
  pools _ := ShmPoolS.zero 64
  links _ := ⟨none, none⟩
  blocks _ := ⟨0, 0, 0, 0, false⟩
  live := ∅
  os := Os.start 64

theorem executed_pools (ops : List (PoolsOp Bool 64))
    (p : List (Pools Bool 64 × PoolsCall Bool 64) → Pools Bool 64 → Bool)
    (h : ((execute (poolsExec 9) zeroedPools ops).any fun out => p out.2 out.1) = true) :
    ∃ tr t, (poolsSystem Bool 64).Trace tr t ∧ p tr t = true := by
  obtain ⟨tr, t, hrun, hp⟩ := execute_any poolsExec_step h
  exact ⟨tr, t, ⟨_, ⟨fun _ => rfl, rfl⟩, hrun⟩, hp⟩

/-- Both pools are initialised, the first grows, the second is initialised again while it is
live, and the first is deinitialised. -/
def twoPoolsOps : List (PoolsOp Bool 64) :=
  [.init false ⟨some 3, true, some 4096, some 1⟩ 64,
    .init true ⟨some 4, true, some 8192, some 2⟩ 64,
    .allocate false { answersAt 0 with mmap := some 12288 } 8 8 32,
    .init true ⟨some 5, true, none, none⟩ 64, .deinit false]

theorem pools_accounted_again : ∃ tr t, (poolsSystem Bool 64).Trace tr t ∧
    t.os.mappings = [(8192, 64)] ∧ t.os.file 4 = some 64 ∧ OsHeld t.os (owners tr t) ∧
      ((t.os.mappings = [] ∧ ∀ fd, t.os.file fd = none) ↔
        (∀ k, (t.pools k).alive = false) ∧ ∀ x ∈ tr, abandonedBy x.1 x.2 = none) := by
  obtain ⟨tr, t, htr, hp⟩ := executed_pools twoPoolsOps
    (fun _ t => decide (t.os.mappings = [(8192, 64)] ∧ t.os.file 4 = some 64)) (by decide)
  rw [decide_eq_true_eq] at hp
  exact ⟨tr, t, htr, hp.1, hp.2, pools_accounted htr⟩

end Spaze
