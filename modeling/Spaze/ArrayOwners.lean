import Spaze.ArrayCosts
import Spaze.ArrayHeap

/-! Arrays that share a heap: each owns one block, and is the array of its own bytes. -/
namespace Spaze

open Blocks Runs

variable {w : ℕ} {mem : Malloc} {fresh offset n : ℕ} {heap heap' : Heap}
  {arr arr' : HeapArrayS w} {capacity : UsizeT w} {e src : List Byte} {elem : Elem}

/-- The pointer is NULL or leads to a block. -/
def Leads (heap : Heap) (p : Option ℕ) : Prop := ∀ a, p = some a → ∃ block, heap a = some block

/-! ## The memory that one array uses -/

theorem heapRead_view (h : Leads heap arr.ptr) :
    heapRead heap arr.ptr offset n = memRead (arr.view heap).bytes offset n := by
  cases hp : arr.ptr with
  | none => simp [heapRead, HeapArrayS.view, content, ArrayS.bytes, hp]
  | some a =>
    obtain ⟨block, hblock⟩ := h a hp
    simp [heapRead, HeapArrayS.view, content, ArrayS.bytes, hp, hblock]

/-- What a write behind the pointer of an array leaves. -/
def stored (heap : Heap) (p : Option ℕ) (block : List Byte) : Heap :=
  match p with
  | none => heap
  | some a => Function.update heap a (some block)

theorem heapWrite_view (h : Leads heap arr.ptr) : heapWrite heap arr.ptr offset src =
    (memWrite (arr.view heap).bytes offset src).map (stored heap arr.ptr) := by
  cases hp : arr.ptr with
  | none =>
    simp only [heapWrite, HeapArrayS.view, content, ArrayS.bytes, hp, Option.bind_none,
      Option.getD_none]
    cases memWrite [] offset src <;> rfl
  | some a =>
    obtain ⟨block, hblock⟩ := h a hp
    simp only [heapWrite, HeapArrayS.view, content, ArrayS.bytes, hp, hblock, Option.bind_some,
      Option.getD_some]
    cases memWrite block offset src <;> rfl

theorem heapFree_leads (h : Leads heap arr.ptr) :
    heapFree heap arr.ptr = .ok (release heap arr.ptr) := by
  cases hp : arr.ptr with
  | none => rfl
  | some a =>
    obtain ⟨block, hblock⟩ := h a hp
    simp [heapFree, hblock]

/-- What a call does to the heap: it writes the block of the array, or replaces it. -/
inductive Replaced (fresh : ℕ) (heap : Heap) (arr : HeapArrayS w) : Heap → HeapArrayS w → Prop
  | kept {arr' : HeapArrayS w} {block : List Byte} (hptr : arr'.ptr = arr.ptr) :
      Replaced fresh heap arr (stored heap arr.ptr block) arr'
  | renewed {arr' : HeapArrayS w} {block : List Byte} (hptr : arr'.ptr = some fresh) :
      Replaced fresh heap arr (Function.update (release heap arr.ptr) fresh (some block)) arr'

theorem Leads.ne_fresh (h : Leads heap arr.ptr) (hfresh : heap fresh = none) :
    arr.ptr ≠ some fresh := by
  intro hp
  obtain ⟨block, hblock⟩ := h fresh hp
  cases hfresh.symm.trans hblock

theorem Leads.update (h : Leads heap arr.ptr) (a : ℕ) (block : List Byte) :
    Leads (Function.update heap a (some block)) arr.ptr := by
  intro c hc
  by_cases hca : c = a
  · subst c
    exact ⟨block, Function.update_self a _ heap⟩
  · rw [Function.update_of_ne hca]
    exact h c hc

theorem view_update (hne : arr.ptr ≠ some fresh) (b : Option (List Byte)) :
    arr.view (Function.update heap fresh b) = arr.view heap := by
  have hsame : content (Function.update heap fresh b) arr.ptr = content heap arr.ptr := by
    cases hp : arr.ptr with
    | none => rfl
    | some a =>
      have hne' : a ≠ fresh := fun he => hne (by rw [hp, he])
      exact Function.update_of_ne hne' b heap
  rw [HeapArrayS.view, hsame, HeapArrayS.view]

theorem bind_map_congr {ε α β γ : Type} {x : Except ε α} {f : α → Except ε β}
    {g : α → Except ε γ} {h : γ → β} (hfg : ∀ a, x = .ok a → f a = (g a).map h) :
    (x >>= f) = (x >>= g).map h := by
  cases x with
  | error why => rfl
  | ok a => exact hfg a rfl

/-- `array_resize` does to the array what it does to the array of its own bytes. -/
theorem heapResize_eq (h : Leads heap arr.ptr) (hfresh : heap fresh = none) :
    heapResize mem fresh heap arr capacity =
      (arrayResize mem (arr.view heap) capacity).map fun v =>
        (Function.update (release heap arr.ptr) fresh v.ptr,
          ⟨some fresh, v.length, v.capacity, v.elemSize⟩) := by
  have hne := h.ne_fresh hfresh
  refine bind_map_congr fun _ _ => ?_
  simp only [heapMalloc, bind_assoc, pure_bind]
  refine bind_map_congr fun block _ => ?_
  rw [heapRead_view (h.update fresh block), view_update hne]
  refine bind_map_congr fun old _ => ?_
  simp only [heapWrite, Function.update_self, bind_assoc, pure_bind, Function.update_idem]
  refine bind_map_congr fun bytes _ => ?_
  rw [heapFree_leads (h.update fresh bytes), release_fresh hne]
  rfl

theorem heapReserve_cases (mem : Malloc) (h : Leads heap arr.ptr) (hfresh : heap fresh = none) :
    (∃ why, heapReserve mem fresh heap arr = .error why ∧
        arrayReserve mem (arr.view heap) = .error why) ∨
      ∃ heap' arr', heapReserve mem fresh heap arr = .ok (heap', arr') ∧
        arrayReserve mem (arr.view heap) = .ok (arr'.view heap') ∧
        (heap' = heap ∧ arr' = arr ∧ arrayNeedsResize (arr.view heap) 1 = false ∨
          (∃ block, heap' = Function.update (release heap arr.ptr) fresh (some block)) ∧
            arr'.ptr = some fresh ∧ arrayNeedsResize (arr.view heap) 1 = true) := by
  unfold heapReserve arrayReserve
  split
  · rename_i hneeds
    rw [heapResize_eq h hfresh]
    cases hr : arrayResize mem (arr.view heap) (arrayNewCapacity (arr.view heap)) with
    | error why => exact Or.inl ⟨why, rfl, rfl⟩
    | ok v =>
      obtain ⟨block, hblock⟩ : ∃ block, v.ptr = some block := by
        simp only [arrayResize, bind_eq_ok] at hr
        obtain ⟨_, _, _, _, _, _, bytes, _, hr⟩ := hr
        cases hr
        exact ⟨bytes, rfl⟩
      refine Or.inr ⟨_, _, rfl, ?_, Or.inr ⟨⟨block, by rw [hblock]⟩, rfl, hneeds⟩⟩
      simp [HeapArrayS.view, content]
  · rename_i hneeds
    exact Or.inr ⟨heap, arr, rfl, rfl, Or.inl ⟨rfl, rfl, by simpa using hneeds⟩⟩

theorem stored_view (h : Leads heap arr.ptr) (block : List Byte) :
    content (stored heap arr.ptr block) arr.ptr = (content heap arr.ptr).map fun _ => block := by
  cases hp : arr.ptr with
  | none => rfl
  | some a =>
    obtain ⟨old, hold⟩ := h a hp
    simp [content, stored, hold]

/-- A push of an element that can still be read once there is room for it. -/
theorem heapPush_cases (mem : Malloc) (h : Leads heap arr.ptr) (hfresh : heap fresh = none)
    (hread : ∀ heap' arr', heapReserve mem fresh heap arr = .ok (heap', arr') →
      elem.read heap' arr'.elemSize.toNat = memRead e 0 arr'.elemSize.toNat) :
    (∃ why, heapPush mem fresh heap arr elem = .error why ∧
        arrayPush mem (arr.view heap) e = .error why) ∨
      ∃ heap' arr', heapPush mem fresh heap arr elem = .ok (heap', arr') ∧
        arrayPush mem (arr.view heap) e = .ok (arr'.view heap') ∧
        Replaced fresh heap arr heap' arr' := by
  unfold heapPush arrayPush
  rcases heapReserve_cases mem h hfresh with
    ⟨why, hheap, hview⟩ | ⟨heap₁, arr₁, hheap, hview, hmoved⟩
  · rw [hheap, hview]
    exact Or.inl ⟨why, rfl, rfl⟩
  · have hleads : Leads heap₁ arr₁.ptr := by
      rcases hmoved with ⟨rfl, rfl, _⟩ | ⟨⟨block, rfl⟩, hptr, _⟩
      · exact h
      · intro a ha
        obtain rfl : fresh = a := Option.some.inj (hptr.symm.trans ha)
        exact ⟨block, Function.update_self fresh _ _⟩
    have hsource := hread heap₁ arr₁ hheap
    rw [hheap, hview]
    simp only [Bind.bind, Except.bind, hsource]
    have hsize : (arr₁.view heap₁).elemSize = arr₁.elemSize := rfl
    have hlength : (arr₁.view heap₁).length = arr₁.length := rfl
    rw [hsize, hlength]
    cases memRead e 0 arr₁.elemSize.toNat with
    | error why => exact Or.inl ⟨why, rfl, rfl⟩
    | ok src =>
      dsimp only
      rw [heapWrite_view hleads]
      cases memWrite (arr₁.view heap₁).bytes (arrayElemPtr (arr₁.view heap₁) arr₁.length) src with
      | error why => exact Or.inl ⟨why, rfl, rfl⟩
      | ok bytes =>
        refine Or.inr ⟨_, _, rfl, ?_, ?_⟩
        · simp only [HeapArrayS.view, stored_view hleads]
          rfl
        · rcases hmoved with ⟨rfl, rfl, _⟩ | ⟨⟨block, rfl⟩, hptr, _⟩
          · exact .kept rfl
          · have hlast : stored (Function.update (release heap arr.ptr) fresh (some block))
                arr₁.ptr bytes = Function.update (release heap arr.ptr) fresh (some bytes) := by
              rw [hptr, stored, Function.update_idem]
            rw [hlast]
            exact .renewed hptr

theorem heapPop_eq (h : Leads heap arr.ptr) : heapPop heap arr =
    (arrayPop (arr.view heap)).map fun out => ({ arr with length := out.1.length }, out.2) := by
  unfold heapPop arrayPop
  have hlength : (arr.view heap).length = arr.length := rfl
  rw [hlength]
  split
  · rfl
  · have hread : ∀ offset n, heapRead heap arr.ptr offset n =
        memRead (arr.view heap).bytes offset n := fun _ _ => heapRead_view h
    simp only [hread]
    exact bind_map_congr fun _ _ => rfl

theorem arrayPop_keeps {s t : ArrayS w} {result : Option (List Byte)}
    (h : arrayPop s = .ok (t, result)) : t = { s with length := t.length } := by
  unfold arrayPop at h
  split at h
  · cases h
    rfl
  · obtain ⟨_, _, h⟩ := bind_eq_ok.mp h
    cases h
    rfl

theorem heapPop_ok {result : Option (List Byte)} (h : Leads heap arr.ptr)
    (hp : heapPop heap arr = .ok (arr', result)) :
    arrayPop (arr.view heap) = .ok (arr'.view heap, result) ∧ arr'.ptr = arr.ptr := by
  rw [heapPop_eq h] at hp
  cases hv : arrayPop (arr.view heap) with
  | error why =>
    rw [hv] at hp
    cases hp
  | ok out =>
    obtain ⟨v, r⟩ := out
    rw [hv] at hp
    cases hp
    refine ⟨?_, rfl⟩
    rw [arrayPop_keeps hv]
    rfl

theorem heapDeinit_eq (h : Leads heap arr.ptr) : ∃ arr',
    heapDeinit heap arr = .ok (release heap arr.ptr, arr') ∧ arr'.ptr = none ∧
      arr'.view (release heap arr.ptr) = arrayDeinit (arr.view heap) := by
  unfold heapDeinit arrayDeinit
  cases hp : arr.ptr with
  | none =>
    refine ⟨arr, rfl, hp, ?_⟩
    simp [HeapArrayS.view, content, hp, release]
  | some a =>
    obtain ⟨block, hblock⟩ := h a hp
    refine ⟨{ arr with ptr := none, length := 0, capacity := 0 }, ?_, rfl, ?_⟩
    · simp only [heapFree, hblock]
      rfl
    · simp [HeapArrayS.view, content, hp, hblock]

/-! ## Where the element is -/

/-- The element is in the block that the pointer leads to. -/
def Elem.Within (p : Option ℕ) : Elem → Prop
  | .outside _ => False
  | .inside q _ => q = p

theorem arrayReserve_elemSize {s t : ArrayS w} (h : arrayReserve mem s = .ok t) :
    t.elemSize = s.elemSize := by
  unfold arrayReserve at h
  split at h
  · simp only [arrayResize, bind_eq_ok] at h
    obtain ⟨_, _, _, _, _, _, _, _, h⟩ := h
    cases h
    rfl
  · cases h
    rfl

theorem memRead_all (h : e.length = n) : memRead e 0 n = .ok e := by
  rw [memRead_eq_ok (by omega), List.drop_zero, ← h, List.take_length]

/-- A growth leaves an element that is not in its own block. -/
theorem Elem.read_replaced {block : List Byte} (hfresh : heap fresh = none)
    (hread : elem.read heap n = .ok e) (hout : ¬ elem.Within arr.ptr) :
    elem.read (Function.update (release heap arr.ptr) fresh (some block)) n = .ok e := by
  match elem with
  | .outside bytes => exact hread
  | .inside none offset => exact hread
  | .inside (some a) offset =>
    have hptr : arr.ptr ≠ some a := fun he => hout he.symm
    have ha : a ≠ fresh := by
      rintro rfl
      simp [Elem.read, heapRead, hfresh] at hread
    simp only [Elem.read, heapRead] at hread ⊢
    rwa [Function.update_of_ne ha, release_of_ne hptr]

/-- A push of an element that is elsewhere, or for which there is room, is a push of its
bytes. -/
theorem heapPush_apart (mem : Malloc) (h : Leads heap arr.ptr) (hfresh : heap fresh = none)
    (he : e.length = arr.elemSize.toNat) (hread : elem.read heap arr.elemSize.toNat = .ok e)
    (hapart : elem.Within arr.ptr → arrayNeedsResize (arr.view heap) 1 = false) :
    (∃ why, heapPush mem fresh heap arr elem = .error why ∧
        arrayPush mem (arr.view heap) e = .error why) ∨
      ∃ heap' arr', heapPush mem fresh heap arr elem = .ok (heap', arr') ∧
        arrayPush mem (arr.view heap) e = .ok (arr'.view heap') ∧
        Replaced fresh heap arr heap' arr' := by
  refine heapPush_cases mem h hfresh fun heap' arr' hreserve => ?_
  rcases heapReserve_cases mem h hfresh with ⟨why, hheap, _⟩ | ⟨_, _, hheap, hview, hmoved⟩
  · cases hreserve.symm.trans hheap
  · cases hreserve.symm.trans hheap
    have hsize : arr'.elemSize = arr.elemSize := arrayReserve_elemSize hview
    rw [hsize, memRead_all he]
    rcases hmoved with ⟨rfl, _, _⟩ | ⟨⟨block, rfl⟩, _, hneeds⟩
    · exact hread
    · refine Elem.read_replaced hfresh hread fun hin => ?_
      rw [hapart hin] at hneeds
      cases hneeds

/-- A push of an element of its own block reads that block after it has been freed. -/
theorem heapPush_own (mem : Malloc) (h : Leads heap arr.ptr) (hfresh : heap fresh = none)
    (hptr : arr.ptr ≠ none) (hneeds : arrayNeedsResize (arr.view heap) 1 = true) :
    heapPush mem fresh heap arr (.inside arr.ptr offset) =
      match arrayReserve mem (arr.view heap) with
      | .ok _ => .error .fault
      | .error why => .error why := by
  obtain ⟨a, ha⟩ := Option.ne_none_iff_exists'.mp hptr
  unfold heapPush
  rcases heapReserve_cases mem h hfresh with
    ⟨why, hheap, hview⟩ | ⟨heap', arr', hheap, hview, hmoved⟩
  · rw [hheap, hview]
    rfl
  · rw [hheap, hview]
    rcases hmoved with ⟨_, _, hroom⟩ | ⟨⟨block, rfl⟩, _, _⟩
    · rw [hneeds] at hroom
      cases hroom
    · have hne : a ≠ fresh := fun he => h.ne_fresh hfresh (ha.trans (congrArg some he))
      have hfreed : heapRead (Function.update (release heap arr.ptr) fresh (some block)) arr.ptr
          offset arr'.elemSize.toNat = .error .fault := by
        simp only [heapRead, ha, Function.update_of_ne hne, release_self]
      simp only [Bind.bind, Except.bind, Elem.read, hfreed]

/-! ## Runs of several arrays -/

variable {ι : Type} [DecidableEq ι]

/-- The heap and the arrays over it. -/
structure HeapArrays (ι : Type) (w : ℕ) where
  heap : Heap
  arrays : ι → HeapArrayS w

/-- The arrays' pointers. -/
def HeapArrays.ptrs (s : HeapArrays ι w) (k : ι) : Option ℕ := (s.arrays k).ptr

/-- An array, as the array of its own bytes. -/
def HeapArrays.view (s : HeapArrays ι w) (k : ι) : ArrayS w := (s.arrays k).view s.heap

/-- One completed call on one of the arrays. What is pushed may be anywhere, in the block of
another array or of the same one too. -/
inductive HeapStep : HeapArrays ι w → ι × ArrayCall (List Byte) → HeapArrays ι w → Prop
  | push {s : HeapArrays ι w} {k : ι} {mem : Malloc} {fresh : ℕ} {elem : Elem} {e : List Byte}
      {heap : Heap} {arr : HeapArrayS w} (hm : mem.limit ≤ mallocMax w)
      (hfresh : s.heap fresh = none) (he : e.length = (s.arrays k).elemSize.toNat)
      (hread : elem.read s.heap (s.arrays k).elemSize.toNat = .ok e)
      (h : heapPush mem fresh s.heap (s.arrays k) elem = .ok (heap, arr)) :
      HeapStep s (k, .push e) ⟨heap, Function.update s.arrays k arr⟩
  | pop {s : HeapArrays ι w} {k : ι} {arr : HeapArrayS w} {result : Option (List Byte)}
      (h : heapPop s.heap (s.arrays k) = .ok (arr, result)) :
      HeapStep s (k, .pop result) { s with arrays := Function.update s.arrays k arr }
  | deinit {s : HeapArrays ι w} {k : ι} {heap : Heap} {arr : HeapArrayS w}
      (h : heapDeinit s.heap (s.arrays k) = .ok (heap, arr)) :
      HeapStep s (k, .deinit) ⟨heap, Function.update s.arrays k arr⟩

/-- Every array is as `array_init` makes it, and the heap is empty. -/
def heapSystem (elemSize : ι → UsizeT w) :
    System (HeapArrays ι w) (ι × ArrayCall (List Byte)) where
  initial s := s.heap = (fun _ => none) ∧ ∀ k, s.arrays k = ⟨none, 0, 0, elemSize k⟩
  step := HeapStep

/-- The sizes of the elements are ones that a growth does not wrap for. -/
def SizesFit (elemSize : ι → UsizeT w) : Prop :=
  ∀ k, 1 ≤ (elemSize k).toNat ∧ 4 * (elemSize k).toNat < 2 ^ w

/-- Each array owns its block, and nothing else is in use. -/
structure Housed (elemSize : ι → UsizeT w) (s : HeapArrays ι w) : Prop where
  owns : Owned s.heap s.ptrs
  grown : ∀ k, Grown (elemSize k) (s.view k)

variable {elemSize : ι → UsizeT w} {s t : HeapArrays ι w} {k : ι} {a : ArrayCall (List Byte)}
  {tr : List (HeapArrays ι w × (ι × ArrayCall (List Byte)))}

omit [DecidableEq ι] in
theorem Housed.leads (h : Housed elemSize s) (k : ι) : Leads s.heap (s.arrays k).ptr :=
  fun _ hp => h.owns.used (k := k) hp

theorem ptrs_update (heap : Heap) (s : HeapArrays ι w) (k : ι) (arr : HeapArrayS w) :
    HeapArrays.ptrs ⟨heap, Function.update s.arrays k arr⟩ =
      Function.update s.ptrs k arr.ptr := by
  funext j
  by_cases hj : j = k
  · subst j
    simp [HeapArrays.ptrs]
  · simp [HeapArrays.ptrs, hj]

/-- One array changed, and the blocks of the others did not. -/
theorem Housed.step {heap : Heap} {arr : HeapArrayS w} (h : Housed elemSize s)
    (howns : Owned heap (Function.update s.ptrs k arr.ptr))
    (hkeep : ∀ j, j ≠ k → content heap (s.ptrs j) = content s.heap (s.ptrs j))
    (hgrown : Grown (elemSize k) (arr.view heap)) :
    Housed elemSize ⟨heap, Function.update s.arrays k arr⟩ ∧ ∀ j, j ≠ k →
      HeapArrays.view ⟨heap, Function.update s.arrays k arr⟩ j = s.view j := by
  have hothers : ∀ j, j ≠ k →
      HeapArrays.view ⟨heap, Function.update s.arrays k arr⟩ j = s.view j := by
    intro j hj
    simp only [HeapArrays.view, HeapArrayS.view, Function.update_of_ne hj]
    have hsame := hkeep j hj
    simp only [HeapArrays.ptrs] at hsame
    rw [hsame]
  refine ⟨⟨?_, fun j => ?_⟩, hothers⟩
  · rw [ptrs_update]
    exact howns
  · by_cases hj : j = k
    · subst j
      simpa [HeapArrays.view] using hgrown
    · rw [hothers j hj]
      exact h.grown j

/-- The block of one array is written or replaced. -/
theorem Replaced.owns {heap : Heap} {arr : HeapArrayS w} (h : Owned s.heap s.ptrs)
    (hfresh : s.heap fresh = none) (hmoved : Replaced fresh s.heap (s.arrays k) heap arr) :
    Owned heap (Function.update s.ptrs k arr.ptr) ∧
      ∀ j, j ≠ k → content heap (s.ptrs j) = content s.heap (s.ptrs j) := by
  cases hmoved with
  | @kept _ block hptr =>
    have hsame : Function.update s.ptrs k arr.ptr = s.ptrs := by
      rw [hptr]
      exact Function.update_eq_self k s.ptrs
    rw [hsame]
    cases hp : (s.arrays k).ptr with
    | none => exact ⟨h, fun _ _ => rfl⟩
    | some a => exact h.write (k := k) hp block
  | @renewed _ block hptr =>
    rw [hptr]
    exact h.replace hfresh k block

/-- A push of an element of its own block returns only where there is room for it. -/
theorem Elem.room_of_push {arr' : HeapArrayS w} (h : Leads heap arr.ptr)
    (hfresh : heap fresh = none) (hpos : 1 ≤ arr.elemSize.toNat)
    (hread : elem.read heap arr.elemSize.toNat = .ok e)
    (hcall : heapPush mem fresh heap arr elem = .ok (heap', arr')) (hin : elem.Within arr.ptr) :
    arrayNeedsResize (arr.view heap) 1 = false := by
  match elem, hin with
  | .inside _ offset, rfl =>
    have hptr : arr.ptr ≠ none := by
      intro hnone
      have hout : ¬ offset + arr.elemSize.toNat ≤ ([] : List Byte).length := by
        rw [List.length_nil]
        omega
      rw [Elem.read, hnone, heapRead, memRead, if_neg hout] at hread
      cases hread
    by_contra hneeds
    rw [Bool.not_eq_false] at hneeds
    rw [heapPush_own _ h hfresh hptr hneeds] at hcall
    split at hcall <;> cases hcall

/-- A call on one array is a call on the array of its own bytes, and leaves the others. -/
theorem housed_step (hsized : SizesFit elemSize) (h : Housed elemSize s)
    (hs : (heapSystem elemSize).step s (k, a) t) :
    Housed elemSize t ∧ (growthSystem (elemSize k)).step (s.view k) a (t.view k) ∧
      ∀ j, j ≠ k → t.view j = s.view j := by
  have hb := arrayBounds_mallocMax (hsized k).1 (hsized k).2
  have hleads := h.leads k
  cases hs with
  | @push _ mem fresh elem e heap arr hm hfresh he hread hcall =>
    have hpos : 1 ≤ (s.arrays k).elemSize.toNat := by
      have hsize : (s.arrays k).elemSize = elemSize k := (h.grown k).elemSize
      rw [hsize]
      exact (hsized k).1
    have hapart := Elem.room_of_push hleads hfresh hpos hread hcall
    rcases heapPush_apart mem hleads hfresh he hread hapart with
      ⟨why, hheap, _⟩ | ⟨heap', arr', hheap, hpush, hmoved⟩
    · cases hcall.symm.trans hheap
    · cases hcall.symm.trans hheap
      have hstep : (growthSystem (elemSize k)).step (s.view k) (.push e) (arr.view heap) :=
        .push hm he hpush
      obtain ⟨howns, hkeep⟩ := hmoved.owns h.owns hfresh
      obtain ⟨hhoused, hothers⟩ := h.step howns hkeep (grown_step hb (h.grown k) hstep).2
      refine ⟨hhoused, ?_, hothers⟩
      simpa [HeapArrays.view] using hstep
  | @pop _ arr result hcall =>
    obtain ⟨hpop, hptr⟩ := heapPop_ok hleads hcall
    have hstep : (growthSystem (elemSize k)).step (s.view k) (.pop result) (arr.view s.heap) :=
      .pop hpop
    have hsame : Function.update s.ptrs k arr.ptr = s.ptrs := by
      rw [hptr]
      exact Function.update_eq_self k s.ptrs
    obtain ⟨hhoused, hothers⟩ := h.step (by rw [hsame]; exact h.owns) (fun _ _ => rfl)
      (grown_step hb (h.grown k) hstep).2
    refine ⟨hhoused, ?_, hothers⟩
    simpa [HeapArrays.view] using hstep
  | @deinit _ heap arr hcall =>
    obtain ⟨arr', hheap, hptr, hview⟩ := heapDeinit_eq hleads
    cases hcall.symm.trans hheap
    have hstep : (growthSystem (elemSize k)).step (s.view k) .deinit
        (arr.view (release s.heap (s.arrays k).ptr)) := by
      rw [hview]
      exact .deinit
    obtain ⟨howns, hkeep⟩ := h.owns.release k
    obtain ⟨hhoused, hothers⟩ := h.step (by rw [hptr]; exact howns) hkeep
      (grown_step hb (h.grown k) hstep).2
    refine ⟨hhoused, ?_, hothers⟩
    simpa [HeapArrays.view] using hstep

theorem housed_initial (hs : (heapSystem elemSize).initial s) : Housed elemSize s := by
  obtain ⟨hheap, harrays⟩ := hs
  have hptrs : s.ptrs = fun _ => none := by
    funext k
    rw [HeapArrays.ptrs, harrays k]
  refine ⟨?_, fun k => ?_⟩
  · rw [hheap, hptrs]
    exact owned_empty
  · have hview : s.view k = arrayInit (elemSize k) := by
      rw [HeapArrays.view, harrays k]
      rfl
    rw [hview]
    exact ⟨rfl, [], stores_init _⟩

theorem housed_run (hsized : SizesFit elemSize) (h : (heapSystem elemSize).Trace tr t) (k : ι) :
    Housed elemSize t ∧ ∃ trk, (growthSystem (elemSize k)).Trace trk (t.view k) ∧
      labels trk = labelsOf k tr := by
  obtain ⟨s, hs, hr⟩ := h
  obtain ⟨hhoused, trk, hrun, hlabels⟩ := hr.component (v := HeapArrays.view)
    (fun _ _ _ _ hi ha => housed_step hsized hi ha) (housed_initial hs) k
  refine ⟨hhoused, trk, ⟨s.view k, ?_, hrun⟩, hlabels⟩
  rw [HeapArrays.view, hs.2 k]
  rfl

omit [DecidableEq ι] in
/-- The next calls on an array that owns its block: none reads or writes a block that is not in
use, and only mi_malloc can stop one. -/
theorem Housed.calls (hsized : SizesFit elemSize) (h : Housed elemSize t) (k : ι) :
    (∃ out, heapPop t.heap (t.arrays k) = .ok out) ∧
    (∃ out, heapDeinit t.heap (t.arrays k) = .ok out) ∧
    ∀ mem fresh elem e, mem.limit ≤ mallocMax w → t.heap fresh = none →
      e.length = (elemSize k).toNat → elem.read t.heap (elemSize k).toNat = .ok e →
      ¬ elem.Within (t.ptrs k) → heapPush mem fresh t.heap (t.arrays k) elem = .error .abort ∨
        ∃ out, heapPush mem fresh t.heap (t.arrays k) elem = .ok out := by
  have hb := arrayBounds_mallocMax (hsized k).1 (hsized k).2
  have hleads := h.leads k
  have hsize : (t.arrays k).elemSize = elemSize k := (h.grown k).elemSize
  obtain ⟨elems, hstores⟩ := (h.grown k).stores
  have hb' := (h.grown k).bounds hb
  refine ⟨?_, ?_, ?_⟩
  · rw [heapPop_eq hleads]
    change ∃ out, Except.map _ (arrayPop (t.view k)) = .ok out
    rcases List.eq_nil_or_concat elems with rfl | ⟨elems, e, rfl⟩
    · rw [hstores.pop_nil]
      exact ⟨_, rfl⟩
    · rw [List.concat_eq_append] at hstores
      obtain ⟨arr, hok, _⟩ := hstores.pop hb.limit_lt
      rw [hok]
      exact ⟨_, rfl⟩
  · obtain ⟨arr, hok, _⟩ := heapDeinit_eq hleads
    exact ⟨_, hok⟩
  · intro mem fresh elem e hm hfresh he hread hout
    rw [← hsize] at he hread
    rcases heapPush_apart mem hleads hfresh he hread (fun hin => absurd hin hout) with
      ⟨why, hheap, hview⟩ | ⟨heap', arr', hheap, _⟩
    · rcases hstores.push_cases hb.limit_lt hb'.pos (hstores.pushFits hb')
        (fun _ hs => Nat.le_trans hs hm) he with habort | ⟨_, hok, _⟩
      · cases hview.symm.trans habort
        exact Or.inl hheap
      · cases hview.symm.trans hok
    · exact Or.inr ⟨_, hheap⟩

/-- A call to carry out: an array and, for a push, a free block and the element. -/
inductive HeapOp (ι : Type)
  | push (k : ι) (fresh : ℕ) (elem : Elem)
  | pop (k : ι)
  | deinit (k : ι)

/-- Carries out a call, if it returns. -/
def heapExec (mem : Malloc) (s : HeapArrays ι w) :
    HeapOp ι → Option (HeapArrays ι w × (ι × ArrayCall (List Byte)))
  | .push k fresh elem =>
    match elem.read s.heap (s.arrays k).elemSize.toNat with
    | .error _ => none
    | .ok e =>
      if s.heap fresh = none ∧ e.length = (s.arrays k).elemSize.toNat then
        match heapPush mem fresh s.heap (s.arrays k) elem with
        | .ok (heap, arr) => some (⟨heap, Function.update s.arrays k arr⟩, (k, .push e))
        | .error _ => none
      else none
  | .pop k =>
    match heapPop s.heap (s.arrays k) with
    | .ok (arr, result) =>
      some ({ s with arrays := Function.update s.arrays k arr }, (k, .pop result))
    | .error _ => none
  | .deinit k =>
    match heapDeinit s.heap (s.arrays k) with
    | .ok (heap, arr) => some (⟨heap, Function.update s.arrays k arr⟩, (k, .deinit))
    | .error _ => none

theorem heapExec_step (hm : mem.limit ≤ mallocMax w) (s : HeapArrays ι w) (o : HeapOp ι)
    (t : HeapArrays ι w) (a : ι × ArrayCall (List Byte)) (h : heapExec mem s o = some (t, a)) :
    (heapSystem elemSize).step s a t := by
  unfold heapExec at h
  split at h
  · split at h
    · cases h
    · rename_i e hread
      split at h
      · rename_i hready
        split at h
        · rename_i hcall
          cases h
          exact .push hm hready.1 hready.2 hread hcall
        · cases h
      · cases h
  · split at h
    · rename_i hcall
      cases h
      exact .pop hcall
    · cases h
  · split at h
    · rename_i hcall
      cases h
      exact .deinit hcall
    · cases h

/-- Two arrays with elements of two bytes, over an empty heap. -/
def twoArrays : HeapArrays (Fin 2) 64 := ⟨fun _ => none, fun _ => ⟨none, 0, 0, 2⟩⟩

/-- Over every run of calls on any number of arrays that share a heap, where a push may also take
its element from the block of another array: the blocks in use are those of the arrays, one each,
every array goes through a run of its own bytes, and none of its next calls touches a block that
is not in use. -/
theorem arrays_apart (hsized : SizesFit elemSize) (h : (heapSystem elemSize).Trace tr t) (k : ι) :
    Owned t.heap t.ptrs ∧
    (∃ trk, (growthSystem (elemSize k)).Trace trk (t.view k) ∧ labels trk = labelsOf k tr) ∧
    (∃ out, heapPop t.heap (t.arrays k) = .ok out) ∧
    (∃ out, heapDeinit t.heap (t.arrays k) = .ok out) ∧
    ∀ mem fresh elem e, mem.limit ≤ mallocMax w → t.heap fresh = none →
      e.length = (elemSize k).toNat → elem.read t.heap (elemSize k).toNat = .ok e →
      ¬ elem.Within (t.ptrs k) → heapPush mem fresh t.heap (t.arrays k) elem = .error .abort ∨
        ∃ out, heapPush mem fresh t.heap (t.arrays k) elem = .ok out := by
  obtain ⟨hhoused, hrun⟩ := housed_run hsized h k
  exact ⟨hhoused.owns, hrun, hhoused.calls hsized k⟩

/-- One array takes its elements from the other one's block, which is then freed. -/
theorem arrays_apart_moved : ∃ (tr : _) (t : HeapArrays (Fin 2) 64),
    (heapSystem fun _ => 2#64).Trace tr t ∧ Owned t.heap t.ptrs ∧ t.ptrs 0 = none ∧
    t.ptrs 1 = some 9 ∧ ∃ trk, (growthSystem 2#64).Trace trk (t.view 1) ∧
      labels trk = [.push [1, 2], .push [3, 4], .pop (some [3, 4])] := by
  have hm : (⟨2 ^ 63 - 1, fun _ => 7⟩ : Malloc).limit ≤ mallocMax 64 := by decide
  obtain ⟨tr, t, hr, hp⟩ := execute_any (M := heapSystem fun _ : Fin 2 => 2#64)
    (p := fun tr t => decide (t.ptrs 0 = none ∧ t.ptrs 1 = some 9 ∧
      labelsOf 1 tr = [.push [1, 2], .push [3, 4], .pop (some [3, 4])]))
    (heapExec_step hm) (show ((execute _ twoArrays [.push 0 5 (.outside [1, 2]),
      .push 0 9 (.outside [3, 4]), .push 1 9 (.inside (some 5) 0), .push 1 3 (.inside (some 5) 2),
      .pop 1, .deinit 0]).any _) = true by decide +kernel)
  obtain ⟨hfirst, hsecond, hlabels⟩ := of_decide_eq_true hp
  have htrace : (heapSystem fun _ => 2#64).Trace tr t := ⟨_, ⟨rfl, fun _ => rfl⟩, hr⟩
  obtain ⟨howns, ⟨trk, hrun, hk⟩, _⟩ := arrays_apart (fun _ => by decide) htrace 1
  exact ⟨tr, t, htrace, howns, hfirst, hsecond, trk, hrun, hk.trans hlabels⟩

/-! ## A push of an array's own element -/

/-- `array_push(arr, array_elem_ptr(arr, index))`. -/
def pushOwn (mem : Malloc) (fresh : ℕ) (s : HeapArrays ι w) (k : ι) (index : UsizeT w) :
    Except Stop (Heap × HeapArrayS w) :=
  heapPush mem fresh s.heap (s.arrays k) (.inside (s.ptrs k) (arrayElemPtr (s.view k) index))

/-- Where there is no room, the push grows the block, unless mi_malloc aborts. -/
theorem Stores.reserve_full {limit : ℕ} {s : ArrayS w} {elems : List (List Byte)}
    (h : Stores limit s elems) (hb : ArrayBounds limit s.elemSize) (hm : mem.limit ≤ limit)
    (hneeds : arrayNeedsResize s 1 = true) :
    (exactNewCapacity s * s.elemSize.toNat ≤ mem.limit → ∃ s', arrayReserve mem s = .ok s') ∧
    (mem.limit < exactNewCapacity s * s.elemSize.toNat →
      arrayReserve mem s = .error .abort) := by
  have hgrow := h.growth_fits hb
  have hle := Nat.le_mul_of_pos_right (exactNewCapacity s) hb.pos
  obtain ⟨hlt, hbytes⟩ := newCapacity_fits hb.pos hgrow
  rw [newCapacity_toNat (by omega)] at hbytes
  rw [arrayReserve, if_pos hneeds]
  constructor
  · intro hserved
    have hmalloc : miMalloc mem (arrayNewCapacity s * s.elemSize) = .ok _ :=
      if_pos (by rwa [hbytes])
    obtain ⟨s', hok, _⟩ := h.resize hb.limit_lt hb.pos hgrow hmalloc (by omega)
    exact ⟨s', hok⟩
  · intro hrefused
    have habort : miMalloc mem (arrayNewCapacity s * s.elemSize) = .error .abort :=
      if_neg (by rw [hbytes]; omega)
    refine bind_eq_error.mpr (Or.inr ⟨(), assert_eq_ok.mpr (decide_eq_true hlt), ?_⟩)
    exact bind_eq_error.mpr (Or.inl habort)

/-- Where there is room, the push does not ask mi_malloc for a block. -/
theorem Stores.push_room {limit : ℕ} {s : ArrayS w} {elems : List (List Byte)}
    (h : Stores limit s elems) (mem : Malloc) (hb : ArrayBounds limit s.elemSize)
    (he : e.length = s.elemSize.toNat) (hneeds : arrayNeedsResize s 1 = false) :
    ∃ s', arrayPush mem s e = .ok s' := by
  have hfree := mt (h.needsResize_iff hb).mpr (by rw [hneeds]; exact Bool.false_ne_true)
  have hlength := h.length
  obtain ⟨block, hwrite, _⟩ := h.append hb.limit_lt (h.pushFits hb).length (by omega) he
  have hreserve : arrayReserve mem s = .ok s := by
    rw [arrayReserve, hneeds]
    rfl
  simp only [arrayPush, bind_eq_ok]
  exact ⟨_, s, hreserve, e, memRead_all he, block, hwrite, rfl⟩

theorem Stores.read_element {limit : ℕ} {s : ArrayS w} {elems : List (List Byte)} {i : UsizeT w}
    (h : Stores limit s elems) (hlim : limit < 2 ^ w) (hi : i < s.length) :
    ∃ e, memRead s.bytes (arrayElemPtr s i) s.elemSize.toNat = .ok e ∧
      e.length = s.elemSize.toNat := by
  obtain ⟨hused, _⟩ := h.used hlim
  have hbelow : (i.toNat + 1) * s.elemSize.toNat ≤ elems.length * s.elemSize.toNat := by
    apply Nat.mul_le_mul_right
    rw [← h.length]
    exact BitVec.lt_def.mp hi
  rw [Nat.succ_mul] at hbelow
  have hblock := h.block
  have hserved := h.served
  have hoffset : arrayElemPtr s i = i.toNat * s.elemSize.toNat := toNat_mul_of_lt (by omega)
  rw [hoffset, memRead_eq_ok (by omega)]
  refine ⟨_, rfl, ?_⟩
  rw [List.length_take, List.length_drop]
  omega

/-- In every run, a push of one of the array's own elements appends a copy of it while there is
room. When the array is full, mi_malloc serves the larger block, the elements move there, and the
push then reads the element in the block that it has freed. -/
theorem push_own_copies_iff (mem : Malloc) {fresh : ℕ} {i : UsizeT w} (hsized : SizesFit elemSize)
    (h : (heapSystem elemSize).Trace tr t) (hm : mem.limit ≤ mallocMax w)
    (hfresh : t.heap fresh = none) (hi : i < (t.arrays k).length) :
    ((t.arrays k).length < (t.arrays k).capacity → ∃ heap arr e,
      pushOwn mem fresh t k i = .ok (heap, arr) ∧ arrayPush mem (t.view k) e = .ok (arr.view heap) ∧
      memRead (t.view k).bytes (arrayElemPtr (t.view k) i) (elemSize k).toNat = .ok e) ∧
    (¬ (t.arrays k).length < (t.arrays k).capacity → pushOwn mem fresh t k i =
      .error (if 2 * (t.arrays k).capacity.toNat * (elemSize k).toNat ≤ mem.limit then .fault
        else .abort)) := by
  obtain ⟨hhoused, _⟩ := housed_run hsized h k
  have hb := arrayBounds_mallocMax (hsized k).1 (hsized k).2
  have hleads := hhoused.leads k
  have hsize : (t.view k).elemSize = elemSize k := (hhoused.grown k).elemSize
  obtain ⟨elems, hstores⟩ := (hhoused.grown k).stores
  have hb' := (hhoused.grown k).bounds hb
  have hneeds := hstores.needsResize_iff hb'
  obtain ⟨e, hread, he⟩ := hstores.read_element hb.limit_lt (i := i) hi
  constructor
  · intro hroom
    have hlt : (t.view k).length.toNat < (t.view k).capacity.toNat := BitVec.lt_def.mp hroom
    have hfits : arrayNeedsResize (t.view k) 1 = false := by
      rw [← Bool.not_eq_true, hneeds]
      omega
    have hinside : (Elem.inside (t.ptrs k) (arrayElemPtr (t.view k) i)).read t.heap
        (t.arrays k).elemSize.toNat = .ok e := by
      rw [Elem.read]
      exact (heapRead_view hleads).trans hread
    rcases heapPush_apart mem hleads hfresh he hinside (fun _ => hfits) with
      ⟨why, _, hview⟩ | ⟨heap, arr, hheap, hview, _⟩
    · obtain ⟨s', hok⟩ := hstores.push_room mem hb' he hfits
      cases hview.symm.trans hok
    · rw [hsize] at hread
      exact ⟨heap, arr, e, hheap, hview, hread⟩
  · intro hfull
    have hge : ¬ (t.view k).length.toNat < (t.view k).capacity.toNat := fun hlt =>
      hfull (BitVec.lt_def.mpr hlt)
    have hpos : 0 < (t.view k).length.toNat := Nat.zero_lt_of_lt (BitVec.lt_def.mp hi)
    have hgrows := hneeds.mpr (by omega)
    have hroom := hstores.room
    have hlength := hstores.length
    have hptr : (t.arrays k).ptr ≠ none := by
      intro hnone
      have hview : (t.view k).ptr = none := by
        simp [HeapArrays.view, HeapArrayS.view, content, hnone]
      have hz := usize_eq_zero_iff.mp (hstores.null.mp hview)
      omega
    have hnew : exactNewCapacity (t.view k) * (t.view k).elemSize.toNat =
        2 * (t.arrays k).capacity.toNat * (elemSize k).toNat := by
      rw [hsize]
      rcases exactNewCapacity_cases (t.view k) with ⟨hz, _⟩ | ⟨_, hdouble⟩
      · omega
      · rw [hdouble, Nat.mul_comm _ 2]
        rfl
    obtain ⟨hserved, hrefused⟩ := hstores.reserve_full hb' hm hgrows
    rw [hnew] at hserved hrefused
    have hown : pushOwn mem fresh t k i = match arrayReserve mem (t.view k) with
        | .ok _ => Except.error .fault
        | .error why => .error why := heapPush_own mem hleads hfresh hptr hgrows
    rw [hown]
    by_cases hle : 2 * (t.arrays k).capacity.toNat * (elemSize k).toNat ≤ mem.limit
    · obtain ⟨s', hok⟩ := hserved hle
      rw [hok, if_pos hle]
    · rw [hrefused (by omega), if_neg hle]

/-- The fifth push takes the first of four elements, and faults. -/
theorem push_own_copies_full : ∃ (tr : _) (t : HeapArrays (Fin 2) 64),
    (heapSystem fun _ => 2#64).Trace tr t ∧ (t.arrays 0).length = 4 ∧
    pushOwn ⟨16, fun _ => 7⟩ 9 t 0 0 = .error .fault ∧
    pushOwn ⟨15, fun _ => 7⟩ 9 t 0 0 = .error .abort := by
  have hm : (⟨16, fun _ => 7⟩ : Malloc).limit ≤ mallocMax 64 := by decide
  obtain ⟨tr, t, hr, hp⟩ := execute_any (M := heapSystem fun _ : Fin 2 => 2#64)
    (p := fun _ t => decide (t.heap 9 = none ∧ (t.arrays 0).length = 4 ∧
      (t.arrays 0).capacity = 4))
    (heapExec_step hm) (show ((execute _ twoArrays [.push 0 5 (.outside [1, 2]),
      .push 0 9 (.outside [3, 4]), .push 0 9 (.outside [5, 6]),
      .push 0 9 (.outside [7, 8])]).any _) = true by decide +kernel)
  obtain ⟨hfresh, hlength, hcapacity⟩ := of_decide_eq_true hp
  have htrace : (heapSystem fun _ => 2#64).Trace tr t := ⟨_, ⟨rfl, fun _ => rfl⟩, hr⟩
  have hfirst : (0 : UsizeT 64) < (t.arrays 0).length := by
    rw [hlength]
    decide
  have hfull : ¬ (t.arrays 0).length < (t.arrays 0).capacity := by
    rw [hlength, hcapacity]
    decide
  obtain ⟨_, hserved⟩ := push_own_copies_iff ⟨16, fun _ => 7⟩ (fun _ => by decide) htrace
    (by decide) hfresh hfirst
  obtain ⟨_, hrefused⟩ := push_own_copies_iff ⟨15, fun _ => 7⟩ (fun _ => by decide) htrace
    (by decide) hfresh hfirst
  refine ⟨tr, t, htrace, hlength, ?_, ?_⟩
  · rw [hserved hfull, hcapacity]
    rfl
  · rw [hrefused hfull, hcapacity]
    rfl

end Spaze
