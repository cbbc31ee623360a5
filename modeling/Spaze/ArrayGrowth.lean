import Spaze.Lib.Checked
import Spaze.ArrayStack

/-! The sizes that the array computes, checked, over runs of pushes, pops and deinits. -/
namespace Spaze

open Runs Checked

variable {w : ℕ}

/-! ## The array with checked sizes -/

/-- `array_needs_resize`. -/
def checkedNeedsResize (arr : ArrayS w) (newElems : UsizeT w) : Except (Halt Stop) Bool := do
  let needed ← checkedAdd arr.length newElems
  return needed > arr.capacity

/-- `array_new_capacity`. -/
def checkedNewCapacity (arr : ArrayS w) : Except (Halt Stop) (UsizeT w) :=
  if arr.capacity = 0 then .ok 4 else checkedMul arr.capacity 2

/-- `array_elem_ptr`. -/
def checkedElemPtr (arr : ArrayS w) (index : UsizeT w) : Except (Halt Stop) ℕ := do
  let offset ← checkedMul index arr.elemSize
  return offset.toNat

/-- `array_resize`. -/
def checkedResize (mem : Malloc) (arr : ArrayS w) (newCapacity : UsizeT w) :
    Except (Halt Stop) (ArrayS w) := do
  lift (assert (decide (newCapacity > arr.capacity)))
  let size ← checkedMul newCapacity arr.elemSize
  let newPtr ← lift (miMalloc mem size)
  let used ← checkedMul arr.length arr.elemSize
  let old ← lift (memRead arr.bytes 0 used.toNat)
  let newPtr ← lift (memWrite newPtr 0 old)
  return { arr with ptr := some newPtr, capacity := newCapacity }

/-- `array_push`, up to the copy of the element. -/
def checkedReserve (mem : Malloc) (arr : ArrayS w) : Except (Halt Stop) (ArrayS w) := do
  if ← checkedNeedsResize arr 1 then
    let newCapacity ← checkedNewCapacity arr
    checkedResize mem arr newCapacity
  else return arr

/-- `array_push`. -/
def checkedPush (mem : Malloc) (arr : ArrayS w) (elem : List Byte) :
    Except (Halt Stop) (ArrayS w) := do
  let arr ← checkedReserve mem arr
  let src ← lift (memRead elem 0 arr.elemSize.toNat)
  let dest ← checkedElemPtr arr arr.length
  let bytes ← lift (memWrite arr.bytes dest src)
  let length ← checkedAdd arr.length 1
  return { arr with ptr := arr.ptr.map fun _ => bytes, length := length }

/-- `array_pop`. -/
def checkedPop (arr : ArrayS w) : Except (Halt Stop) (ArrayS w × Option (List Byte)) := do
  if arr.length = 0 then return (arr, none)
  let arr := { arr with length := arr.length - 1 }
  let src ← checkedElemPtr arr arr.length
  let out ← lift (memRead arr.bytes src arr.elemSize.toNat)
  return (arr, some out)

variable {arr s t : ArrayS w} {mem : Malloc} {e : List Byte} {elems : List (List Byte)}
  {limit : ℕ} {elemSize : UsizeT w}

theorem needsResize_twin (newElems : UsizeT w) :
    Twin (checkedNeedsResize arr newElems) (.ok (arrayNeedsResize arr newElems)) :=
  twin_add.value (twin_ok _)

theorem newCapacity_twin : Twin (checkedNewCapacity arr) (.ok (arrayNewCapacity arr)) := by
  unfold checkedNewCapacity arrayNewCapacity
  split
  · exact twin_ok 4
  · exact twin_mul

theorem elemPtr_twin (index : UsizeT w) :
    Twin (checkedElemPtr arr index) (.ok (arrayElemPtr arr index)) :=
  twin_mul.value (twin_ok _)

theorem resize_twin (newCapacity : UsizeT w) :
    Twin (checkedResize mem arr newCapacity) (arrayResize mem arr newCapacity) := by
  refine (twin_lift _).bind fun _ => twin_mul.value ?_
  refine (twin_lift _).bind fun newPtr => twin_mul.value ?_
  exact (twin_lift _).bind fun old => (twin_lift _).bind fun _ => twin_ok _

theorem reserve_twin : Twin (checkedReserve mem arr) (arrayReserve mem arr) := by
  refine (needsResize_twin 1).value ?_
  unfold arrayReserve
  split
  · exact newCapacity_twin.value (resize_twin _)
  · exact twin_ok arr

theorem push_twin : Twin (checkedPush mem arr e) (arrayPush mem arr e) := by
  refine reserve_twin.bind fun arr => (twin_lift _).bind fun src => ?_
  refine (elemPtr_twin _).value ((twin_lift _).bind fun bytes => ?_)
  exact twin_add.value (twin_ok _)

theorem pop_twin : Twin (checkedPop arr) (arrayPop arr) := by
  unfold checkedPop arrayPop
  split
  · exact twin_ok _
  · exact (elemPtr_twin _).value ((twin_lift _).bind fun _ => twin_ok _)

/-! ## No size wraps -/

theorem toNat_ofNat_le (k : ℕ) : (BitVec.ofNat w k).toNat ≤ k := by
  rw [BitVec.toNat_ofNat]
  exact Nat.mod_le k _

theorem Stores.length_exact (h : Stores limit arr elems) (hb : ArrayBounds limit arr.elemSize) :
    Exact (checkedAdd arr.length 1 : Except (Halt Stop) (UsizeT w)) := by
  have hlength := (h.pushFits hb).length
  have hone : (1 : UsizeT w).toNat ≤ 1 := toNat_ofNat_le 1
  exact exact_add (by omega)

/-- An index up to the length is the offset of a byte of the block, or of its end. -/
theorem Stores.offset_exact (h : Stores limit arr elems) (hlim : limit < 2 ^ w)
    {index : UsizeT w} (hi : index.toNat ≤ arr.length.toNat) :
    Exact (checkedMul index arr.elemSize : Except (Halt Stop) (UsizeT w)) := by
  have hle : index.toNat * arr.elemSize.toNat ≤ arr.capacity.toNat * arr.elemSize.toNat := by
    apply Nat.mul_le_mul_right
    rw [h.length] at hi
    exact Nat.le_trans hi h.room
  have hserved := h.served
  exact exact_mul (by omega)

theorem Stores.newCapacity_exact (h : Stores limit arr elems)
    (hb : ArrayBounds limit arr.elemSize) : Exact (checkedNewCapacity arr) := by
  have hgrow := h.growth_fits hb
  have hle := Nat.le_mul_of_pos_right (exactNewCapacity arr) hb.pos
  unfold exactNewCapacity at hgrow hle
  unfold checkedNewCapacity
  split
  · exact exact_ok 4
  · next hz =>
    rw [if_neg hz] at hgrow hle
    have htwo : (2 : UsizeT w).toNat ≤ 2 := toNat_ofNat_le 2
    have hdouble := Nat.mul_le_mul_left arr.capacity.toNat htwo
    exact exact_mul (by omega)

theorem Stores.resize_exact (h : Stores limit arr elems) (hb : ArrayBounds limit arr.elemSize) :
    Exact (checkedResize mem arr (arrayNewCapacity arr)) := by
  have hsize := (newCapacity_fits hb.pos (h.growth_fits hb)).2
  have hlt := (arrayNewCapacity arr * arr.elemSize).isLt
  rw [hsize] at hlt
  refine (exact_lift _).bind fun _ _ => (exact_mul hlt).bind fun size _ => ?_
  refine (exact_lift _).bind fun newPtr _ => ?_
  refine (h.offset_exact hb.limit_lt (Nat.le_refl _)).bind fun used _ => ?_
  refine (exact_lift _).bind fun old _ => (exact_lift _).bind fun _ _ => exact_ok _

theorem Stores.reserve_exact (h : Stores limit arr elems) (hb : ArrayBounds limit arr.elemSize) :
    Exact (checkedReserve mem arr) := by
  refine Exact.bind ((h.length_exact hb).bind fun _ _ => exact_ok _) fun needs _ => ?_
  split
  · refine (h.newCapacity_exact hb).bind fun newCapacity hnew => ?_
    cases newCapacity_twin.ok hnew
    exact h.resize_exact hb
  · exact exact_ok arr

/-- No size of a push wraps, also where the push copies the elements to a larger block. -/
theorem Stores.push_exact (h : Stores limit arr elems) (hb : ArrayBounds limit arr.elemSize)
    (hm : mem.limit ≤ limit) : Exact (checkedPush mem arr e) := by
  refine (h.reserve_exact hb).bind fun arr₁ hreserve => ?_
  have hserve : ∀ size : UsizeT w, size.toNat ≤ mem.limit → size.toNat ≤ limit :=
    fun size hs => Nat.le_trans hs hm
  rcases h.reserve hb.limit_lt hb.pos (h.pushFits hb) hserve with habort | ⟨_, hok, h₁, hsize, _⟩
  · cases habort.symm.trans (reserve_twin.ok hreserve)
  · cases hok.symm.trans (reserve_twin.ok hreserve)
    rw [← hsize] at hb
    refine (exact_lift _).bind fun src _ => ?_
    refine Exact.bind ?_ fun dest _ => (exact_lift _).bind fun bytes _ => ?_
    · exact (h₁.offset_exact hb.limit_lt (Nat.le_refl _)).bind fun _ _ => exact_ok _
    · exact (h₁.length_exact hb).bind fun _ _ => exact_ok _

theorem Stores.pop_exact (h : Stores limit arr elems) (hlim : limit < 2 ^ w) :
    Exact (checkedPop arr) := by
  unfold checkedPop
  split
  · exact exact_ok _
  · next hz =>
    have hone : (1 : UsizeT w).toNat ≤ 1 := toNat_ofNat_le 1
    have hz' : ¬ arr.length.toNat = 0 := fun he => hz (usize_eq_zero_iff.mpr he)
    have hpred : (arr.length - 1).toNat ≤ arr.length.toNat := by
      rw [BitVec.toNat_sub_of_le (by rw [BitVec.le_def]; omega)]
      exact Nat.sub_le _ _
    refine Exact.bind ?_ fun src _ => (exact_lift _).bind fun _ _ => exact_ok _
    exact (h.offset_exact hlim hpred).bind fun _ _ => exact_ok _

theorem miMalloc_ne_panic (size : UsizeT w) : miMalloc mem size ≠ .error .panic := by
  unfold miMalloc
  split <;> exact nofun

theorem memRead_ne_panic (src : List Byte) (offset n : ℕ) :
    memRead src offset n ≠ .error .panic := by
  unfold memRead
  split <;> exact nofun

theorem memWrite_ne_panic (dest src : List Byte) (offset : ℕ) :
    memWrite dest offset src ≠ .error .panic := by
  unfold memWrite
  split <;> exact nofun

/-- The assertion of `array_resize` holds. -/
theorem Stores.push_ne_panic (h : Stores limit arr elems) (hb : ArrayBounds limit arr.elemSize) :
    arrayPush mem arr e ≠ .error .panic := by
  refine bind_ne_error ?_ fun arr₁ _ => bind_ne_error (memRead_ne_panic _ _ _) fun src _ => ?_
  · unfold arrayReserve
    split
    · have hlt := (newCapacity_fits hb.pos (h.growth_fits hb)).1
      refine bind_ne_error (by simp [hlt]) fun _ _ => ?_
      refine bind_ne_error (miMalloc_ne_panic _) fun newPtr _ => ?_
      refine bind_ne_error (memRead_ne_panic _ _ _) fun old _ => ?_
      exact bind_ne_error (memWrite_ne_panic _ _ _) fun _ _ => nofun
    · exact nofun
  · exact bind_ne_error (memWrite_ne_panic _ _ _) fun bytes _ => nofun

/-! ## Runs -/

/-- The largest request that mi_malloc ever serves: half the range of `usize_t`, less a byte. -/
def mallocMax (w : ℕ) : ℕ := 2 ^ (w - 1) - 1

/-- One completed call, in arithmetic that wraps. -/
inductive GrowthStep : ArrayS w → ArrayCall (List Byte) → ArrayS w → Prop
  | push {s t : ArrayS w} {mem : Malloc} {elem : List Byte} (hm : mem.limit ≤ mallocMax w)
      (he : elem.length = s.elemSize.toNat) (h : arrayPush mem s elem = .ok t) :
      GrowthStep s (.push elem) t
  | pop {s t : ArrayS w} {result : Option (List Byte)} (h : arrayPop s = .ok (t, result)) :
      GrowthStep s (.pop result) t
  | deinit {s : ArrayS w} : GrowthStep s .deinit (arrayDeinit s)

/-- One completed call, with every size checked. -/
inductive ExactStep : ArrayS w → ArrayCall (List Byte) → ArrayS w → Prop
  | push {s t : ArrayS w} {mem : Malloc} {elem : List Byte} (hm : mem.limit ≤ mallocMax w)
      (he : elem.length = s.elemSize.toNat) (h : checkedPush mem s elem = .ok t) :
      ExactStep s (.push elem) t
  | pop {s t : ArrayS w} {result : Option (List Byte)} (h : checkedPop s = .ok (t, result)) :
      ExactStep s (.pop result) t
  | deinit {s : ArrayS w} : ExactStep s .deinit (arrayDeinit s)

def growthSystem (elemSize : UsizeT w) : System (ArrayS w) (ArrayCall (List Byte)) where
  initial s := s = arrayInit elemSize
  step := GrowthStep

def exactSystem (elemSize : UsizeT w) : System (ArrayS w) (ArrayCall (List Byte)) where
  initial s := s = arrayInit elemSize
  step := ExactStep

/-- The array stores some elements, in a block that mi_malloc may have served. -/
structure Grown (elemSize : UsizeT w) (arr : ArrayS w) : Prop where
  elemSize : arr.elemSize = elemSize
  stores : ∃ elems, Stores (mallocMax w) arr elems

variable {a : ArrayCall (List Byte)} {tr : List (ArrayS w × ArrayCall (List Byte))}

theorem arrayBounds_mallocMax (hpos : 1 ≤ elemSize.toNat) (hinit : 4 * elemSize.toNat < 2 ^ w) :
    ArrayBounds (mallocMax w) elemSize := by
  obtain ⟨k, rfl⟩ : ∃ k, w = k + 1 := by
    cases w with
    | zero => omega
    | succ k => exact ⟨k, rfl⟩
  have hk := Nat.two_pow_pos k
  refine ⟨hpos, hinit, ?_⟩
  rw [mallocMax, Nat.add_sub_cancel, Nat.pow_succ]
  omega

theorem Grown.bounds (h : Grown elemSize s) (hb : ArrayBounds (mallocMax w) elemSize) :
    ArrayBounds (mallocMax w) s.elemSize := h.elemSize ▸ hb

theorem Grown.push_eq (h : Grown elemSize s) (hb : ArrayBounds (mallocMax w) elemSize)
    (hm : mem.limit ≤ mallocMax w) : checkedPush mem s e = lift (arrayPush mem s e) := by
  obtain ⟨elems, hstores⟩ := h.stores
  exact push_twin.eq_of_exact (hstores.push_exact (h.bounds hb) hm)

theorem Grown.pop_eq (h : Grown elemSize s) (hb : ArrayBounds (mallocMax w) elemSize) :
    checkedPop s = lift (arrayPop s) := by
  obtain ⟨elems, hstores⟩ := h.stores
  exact pop_twin.eq_of_exact (hstores.pop_exact hb.limit_lt)

theorem Grown.push_ne_panic (h : Grown elemSize s) (hb : ArrayBounds (mallocMax w) elemSize) :
    arrayPush mem s e ≠ .error .panic := by
  obtain ⟨elems, hstores⟩ := h.stores
  exact hstores.push_ne_panic (h.bounds hb)

theorem Grown.push (h : Grown elemSize s) (hb : ArrayBounds (mallocMax w) elemSize)
    (hm : mem.limit ≤ mallocMax w) (he : e.length = s.elemSize.toNat)
    (hp : arrayPush mem s e = .ok t) : Grown elemSize t := by
  obtain ⟨elems, hstores⟩ := h.stores
  obtain ⟨hpushed, helem⟩ := hstores.push (h.bounds hb) hm he hp
  exact ⟨helem.trans h.elemSize, _, hpushed⟩

theorem Grown.pop {result : Option (List Byte)} (h : Grown elemSize s)
    (hb : ArrayBounds (mallocMax w) elemSize) (hp : arrayPop s = .ok (t, result)) :
    Grown elemSize t := by
  obtain ⟨elems, hstores⟩ := h.stores
  rcases List.eq_nil_or_concat elems with rfl | ⟨elems, e, rfl⟩
  · cases hp.symm.trans hstores.pop_nil
    exact h
  · rw [List.concat_eq_append] at hstores
    obtain ⟨t', hok, htail, helem⟩ := hstores.pop hb.limit_lt
    cases hp.symm.trans hok
    exact ⟨helem.trans h.elemSize, _, htail⟩

theorem Grown.deinit (h : Grown elemSize s) : Grown elemSize (arrayDeinit s) := by
  obtain ⟨elems, hstores⟩ := h.stores
  rw [hstores.deinit, h.elemSize]
  exact ⟨rfl, [], stores_init _⟩

/-- Every call is a call without a wrap, and leaves the block below half the range. -/
theorem grown_step (hb : ArrayBounds (mallocMax w) elemSize) (h : Grown elemSize s)
    (hs : (growthSystem elemSize).step s a t) :
    (exactSystem elemSize).step s a t ∧ Grown elemSize t := by
  cases hs with
  | push hm he hp =>
    exact ⟨.push hm he (by rw [h.push_eq hb hm, hp]; rfl), h.push hb hm he hp⟩
  | pop hp => exact ⟨.pop (by rw [h.pop_eq hb, hp]; rfl), h.pop hb hp⟩
  | deinit => exact ⟨.deinit, h.deinit⟩

/-- If mi_malloc serves requests of less than half the range only, no size that the array
computes wraps, in any run from `array_init`: the run is one of checked sizes, and the next push
or pop does what it does with checked sizes. The assertion of `array_resize` holds. -/
theorem growth_never_wraps (hpos : 1 ≤ elemSize.toNat) (hinit : 4 * elemSize.toNat < 2 ^ w)
    (h : (growthSystem elemSize).Trace tr t) :
    (exactSystem elemSize).Trace tr t ∧
    (∀ mem e, mem.limit ≤ 2 ^ (w - 1) - 1 →
      checkedPush mem t e = lift (arrayPush mem t e) ∧ arrayPush mem t e ≠ .error .panic) ∧
    checkedPop t = lift (arrayPop t) := by
  have hb := arrayBounds_mallocMax hpos hinit
  obtain ⟨s, rfl, hr⟩ := h
  have hstart : Grown elemSize (arrayInit elemSize) := ⟨rfl, [], stores_init _⟩
  obtain ⟨hrun, hgrown⟩ := hr.transfer (fun _ _ _ h hs => grown_step hb h hs) hstart
  refine ⟨⟨_, rfl, hrun⟩, fun mem e hm => ?_, hgrown.pop_eq hb⟩
  exact ⟨hgrown.push_eq hb hm, hgrown.push_ne_panic hb⟩

/-! ## A run -/

theorem arrayExec_growth {elemSize : UsizeT 64} (mem : Malloc) (hm : mem.limit ≤ mallocMax 64)
    (s : ArrayS 64) (o : ArrayCall (List Byte)) (t : ArrayS 64) (a : ArrayCall (List Byte))
    (h : arrayExec mem s o = some (t, a)) : (growthSystem elemSize).step s a t := by
  rcases arrayExec_cases h with ⟨elem, rfl, he, hp⟩ | ⟨result, rfl, hp⟩ | ⟨rfl, rfl⟩
  · exact .push hm he hp
  · exact .pop hp
  · exact .deinit

/-- Five elements of two bytes, for which the array grows, and another one after a deinit. -/
theorem growth_never_wraps_reused : ∃ tr t,
    (growthSystem 2#64).Trace tr t ∧ (exactSystem 2#64).Trace tr t ∧
    checkedPop t = lift (arrayPop t) ∧ labels tr = [.push [1, 1], .push [2, 2], .push [3, 3],
      .push [4, 4], .push [5, 5], .pop (some [5, 5]), .deinit, .push [6, 6]] := by
  obtain ⟨tr, t, hr, hp⟩ := execute_any (M := growthSystem 2#64)
    (p := fun tr _ => decide (labels tr = [.push [1, 1], .push [2, 2], .push [3, 3],
      .push [4, 4], .push [5, 5], .pop (some [5, 5]), .deinit, .push [6, 6]]))
    (arrayExec_growth ⟨2 ^ 63 - 1, fun _ => 7⟩ (by decide)) (show ((execute _
      (arrayInit 2#64) [.push [1, 1], .push [2, 2], .push [3, 3], .push [4, 4], .push [5, 5],
        .pop none, .deinit, .push [6, 6]]).any _) = true by decide +kernel)
  obtain ⟨hexact, _, hpop⟩ := growth_never_wraps (by decide) (by decide) ⟨_, rfl, hr⟩
  exact ⟨tr, t, ⟨_, rfl, hr⟩, hexact, hpop, of_decide_eq_true hp⟩

end Spaze
