import Mathlib.Algebra.Group.Nat.Defs
import Mathlib.Data.List.Basic
import Spaze.Common

/-!
The growable array of array.h and array.c, which stores elements as bytes.

A block of memory is the list of its bytes, so that `ptr` is the block itself.
Reading or writing outside a block is a fault.
-/
namespace Spaze

abbrev Byte := BitVec 8

/-- `struct array_s`. -/
structure ArrayS (w : ℕ) where
  ptr : Option (List Byte)
  length : UsizeT w
  capacity : UsizeT w
  elemSize : UsizeT w

/-- mi_malloc, built to abort when it cannot serve a request: the largest request it
serves, and the bytes found in the block it returns. -/
structure Malloc where
  limit : ℕ
  bytes : ℕ → Byte

variable {w : ℕ}

def miMalloc (mem : Malloc) (size : UsizeT w) : Except Stop (List Byte) :=
  if size.toNat ≤ mem.limit then .ok ((List.range size.toNat).map mem.bytes) else .error .abort

/-- The bytes that `memcpy` reads. -/
def memRead (src : List Byte) (offset n : ℕ) : Except Stop (List Byte) :=
  if offset + n ≤ src.length then .ok ((src.drop offset).take n) else .error .fault

/-- The bytes that `memcpy` writes. -/
def memWrite (dest : List Byte) (offset : ℕ) (src : List Byte) : Except Stop (List Byte) :=
  if offset + src.length ≤ dest.length then
    .ok (dest.take offset ++ src ++ dest.drop (offset + src.length))
  else .error .fault

/-- `array_init`. -/
def arrayInit (elemSize : UsizeT w) : ArrayS w where
  ptr := none
  length := 0
  capacity := 0
  elemSize := elemSize

/-- `array_is_empty`. -/
def arrayIsEmpty (arr : ArrayS w) : Bool := arr.length == 0

/-- `array_needs_resize`. -/
def arrayNeedsResize (arr : ArrayS w) (newElems : UsizeT w) : Bool :=
  arr.length + newElems > arr.capacity

/-- `array_new_capacity`, with `ARRAY_INITIAL` 4 and `ARRAY_GROWTH` 2. -/
def arrayNewCapacity (arr : ArrayS w) : UsizeT w :=
  if arr.capacity = 0 then 4 else arr.capacity * 2

/-- The block `ptr` points to; NULL points to no bytes. -/
def ArrayS.bytes (arr : ArrayS w) : List Byte := arr.ptr.getD []

/-- `array_elem_ptr`, as an offset from `ptr`. -/
def arrayElemPtr (arr : ArrayS w) (index : UsizeT w) : ℕ := (index * arr.elemSize).toNat

/-- `array_resize`. -/
def arrayResize (mem : Malloc) (arr : ArrayS w) (newCapacity : UsizeT w) :
    Except Stop (ArrayS w) := do
  assert (decide (newCapacity > arr.capacity))
  let newPtr ← miMalloc mem (newCapacity * arr.elemSize)
  let old ← memRead arr.bytes 0 (arr.length * arr.elemSize).toNat
  let newPtr ← memWrite newPtr 0 old
  return { arr with ptr := some newPtr, capacity := newCapacity }

/-- `array_push`, up to the copy of the element. -/
def arrayReserve (mem : Malloc) (arr : ArrayS w) : Except Stop (ArrayS w) :=
  if arrayNeedsResize arr 1 then arrayResize mem arr (arrayNewCapacity arr) else .ok arr

/-- `array_push`. -/
def arrayPush (mem : Malloc) (arr : ArrayS w) (elem : List Byte) : Except Stop (ArrayS w) := do
  let arr ← arrayReserve mem arr
  let src ← memRead elem 0 arr.elemSize.toNat
  let bytes ← memWrite arr.bytes (arrayElemPtr arr arr.length) src
  return { arr with ptr := arr.ptr.map fun _ => bytes, length := arr.length + 1 }

/-- `array_pop`. -/
def arrayPop (arr : ArrayS w) : Except Stop (ArrayS w × Option (List Byte)) := do
  if arr.length = 0 then return (arr, none)
  let arr := { arr with length := arr.length - 1 }
  let out ← memRead arr.bytes (arrayElemPtr arr arr.length) arr.elemSize.toNat
  return (arr, some out)

/-- `array_deinit`. -/
def arrayDeinit (arr : ArrayS w) : ArrayS w :=
  match arr.ptr with
  | none => arr
  | some _ => { arr with ptr := none, length := 0, capacity := 0 }

/-! ## The elements an array stores -/

/-- The array stores these elements, oldest first, in a block of a size that was served. -/
structure Stores (limit : ℕ) (arr : ArrayS w) (elems : List (List Byte)) : Prop where
  size : ∀ e ∈ elems, e.length = arr.elemSize.toNat
  length : arr.length.toNat = elems.length
  room : elems.length ≤ arr.capacity.toNat
  null : arr.ptr = none ↔ arr.capacity = 0
  block : arr.bytes.length = arr.capacity.toNat * arr.elemSize.toNat
  served : arr.capacity.toNat * arr.elemSize.toNat ≤ limit
  stored : arr.bytes.take (elems.length * arr.elemSize.toNat) = elems.flatten

/-- Elements of at least one byte, four of which fit `usize_t`; mi_malloc serves at most half
of the range of `usize_t`. -/
structure ArrayBounds (limit : ℕ) (elemSize : UsizeT w) : Prop where
  pos : 0 < elemSize.toNat
  initial : 4 * elemSize.toNat < 2 ^ w
  limit : 2 * limit + 2 ≤ 2 ^ w

variable {limit : ℕ} {mem : Malloc} {arr arr' : ArrayS w} {elems : List (List Byte)}
  {e bytes : List Byte} {offset n : ℕ}

theorem memRead_eq_ok (h : offset + n ≤ bytes.length) :
    memRead bytes offset n = .ok ((bytes.drop offset).take n) := if_pos h

theorem memWrite_eq_ok (h : offset + e.length ≤ bytes.length) : memWrite bytes offset e =
    .ok (bytes.take offset ++ e ++ bytes.drop (offset + e.length)) := if_pos h

theorem toNat_add_of_lt {a b : UsizeT w} (h : a.toNat + b.toNat < 2 ^ w) :
    (a + b).toNat = a.toNat + b.toNat := by
  rw [BitVec.toNat_add, Nat.mod_eq_of_lt h]

theorem toNat_mul_of_lt {a b : UsizeT w} (h : a.toNat * b.toNat < 2 ^ w) :
    (a * b).toNat = a.toNat * b.toNat := by
  rw [BitVec.toNat_mul, Nat.mod_eq_of_lt h]

theorem toNat_ofNat_of_lt {k : ℕ} (h : k < 2 ^ w) : (BitVec.ofNat w k).toNat = k := by
  rw [BitVec.toNat_ofNat, Nat.mod_eq_of_lt h]

theorem toNat_succ_of_lt {a : UsizeT w} (h : a.toNat + 1 < 2 ^ w) :
    (a + 1).toNat = a.toNat + 1 := by
  have hone : (1 : UsizeT w).toNat = 1 := toNat_ofNat_of_lt (k := 1) (by omega)
  rw [toNat_add_of_lt (by omega), hone]

theorem length_flatten_eq {m : ℕ} (h : ∀ x ∈ elems, x.length = m) :
    elems.flatten.length = elems.length * m := by
  induction elems with
  | nil => simp
  | cons x xs ih =>
    have hx := h x (by simp)
    have hxs := ih fun y hy => h y (by simp [hy])
    rw [List.flatten_cons, List.length_append, hx, hxs, List.length_cons, Nat.succ_mul]
    omega

/-- The next capacity, counted exactly. -/
def exactNewCapacity (arr : ArrayS w) : ℕ :=
  if arr.capacity = 0 then 4 else arr.capacity.toNat * 2

/-- No size that a push computes wraps. -/
structure PushFits (arr : ArrayS w) : Prop where
  length : arr.length.toNat + 1 < 2 ^ w
  growth : arrayNeedsResize arr 1 = true → exactNewCapacity arr * arr.elemSize.toNat < 2 ^ w

theorem usize_eq_zero_iff {a : UsizeT w} : a = 0 ↔ a.toNat = 0 := by
  constructor
  · intro hz
    simp [hz]
  · exact fun hz => BitVec.eq_of_toNat_eq (by simpa using hz)

/-- An array whose `ptr` is a block stores what the first bytes of the block are. -/
theorem stores_block {length capacity elemSize : UsizeT w} {block : List Byte}
    (hsize : ∀ e ∈ elems, e.length = elemSize.toNat) (hlen : length.toNat = elems.length)
    (hroom : elems.length ≤ capacity.toNat) (hpos : 0 < capacity.toNat)
    (hblock : block.length = capacity.toNat * elemSize.toNat)
    (hserved : capacity.toNat * elemSize.toNat ≤ limit)
    (hstored : block.take (elems.length * elemSize.toNat) = elems.flatten) :
    Stores limit ⟨some block, length, capacity, elemSize⟩ elems := by
  refine ⟨hsize, hlen, hroom, ⟨nofun, fun hz => ?_⟩, hblock, hserved, hstored⟩
  have hz' := usize_eq_zero_iff.mp hz
  dsimp only at hz'
  omega

theorem lt_exactNewCapacity (arr : ArrayS w) : arr.capacity.toNat < exactNewCapacity arr := by
  unfold exactNewCapacity
  split
  · next hz =>
    rw [usize_eq_zero_iff] at hz
    omega
  · next hz =>
    rw [usize_eq_zero_iff] at hz
    omega

/-- The next capacity does not wrap. -/
theorem newCapacity_toNat (hgrow : exactNewCapacity arr < 2 ^ w) :
    (arrayNewCapacity arr).toNat = exactNewCapacity arr := by
  unfold exactNewCapacity at hgrow ⊢
  unfold arrayNewCapacity
  split
  · next hz =>
    rw [if_pos hz] at hgrow
    exact toNat_ofNat_of_lt (k := 4) hgrow
  · next hz =>
    rw [if_neg hz] at hgrow
    rw [usize_eq_zero_iff] at hz
    have htwo : (2 : UsizeT w).toNat = 2 := toNat_ofNat_of_lt (k := 2) (by omega)
    rw [toNat_mul_of_lt (by rwa [htwo]), htwo]

/-- The next capacity is larger, and neither it nor its size in bytes wraps. -/
theorem newCapacity_fits (hpos : 0 < arr.elemSize.toNat)
    (hgrow : exactNewCapacity arr * arr.elemSize.toNat < 2 ^ w) :
    arr.capacity < arrayNewCapacity arr ∧
      (arrayNewCapacity arr * arr.elemSize).toNat =
        (arrayNewCapacity arr).toNat * arr.elemSize.toNat := by
  have hle := Nat.le_mul_of_pos_right (exactNewCapacity arr) hpos
  have hexact := newCapacity_toNat (Nat.lt_of_le_of_lt hle hgrow)
  constructor
  · rw [BitVec.lt_def, hexact]
    exact lt_exactNewCapacity arr
  · exact toNat_mul_of_lt (by rwa [hexact])

theorem miMalloc_eq_ok {size : UsizeT w} (h : miMalloc mem size = .ok bytes) :
    size.toNat ≤ mem.limit ∧ bytes.length = size.toNat := by
  unfold miMalloc at h
  split at h
  · cases h
    exact ⟨by assumption, by simp⟩
  · cases h

/-- The bytes in use are those of the elements. -/
theorem Stores.used (h : Stores limit arr elems) (hlim : limit < 2 ^ w) :
    elems.length * arr.elemSize.toNat ≤ arr.bytes.length ∧
      (arr.length * arr.elemSize).toNat = elems.length * arr.elemSize.toNat := by
  have hle : elems.length * arr.elemSize.toNat ≤ arr.capacity.toNat * arr.elemSize.toNat :=
    Nat.mul_le_mul_right _ h.room
  have hserved := h.served
  constructor
  · rw [h.block]
    exact hle
  · rw [toNat_mul_of_lt (by rw [h.length]; omega), h.length]

/-- Resizing moves the elements to a block of the next capacity, if mi_malloc serves it. -/
theorem Stores.resize (h : Stores limit arr elems) (hlim : limit < 2 ^ w)
    (hpos : 0 < arr.elemSize.toNat) (hgrow : exactNewCapacity arr * arr.elemSize.toNat < 2 ^ w)
    {block : List Byte} (hmalloc : miMalloc mem (arrayNewCapacity arr * arr.elemSize) = .ok block)
    (hserve : (arrayNewCapacity arr * arr.elemSize).toNat ≤ limit) :
    ∃ arr', arrayResize mem arr (arrayNewCapacity arr) = .ok arr' ∧ Stores limit arr' elems ∧
      arr'.elemSize = arr.elemSize ∧ elems.length + 1 ≤ arr'.capacity.toNat := by
  obtain ⟨hlt, hbytes⟩ := newCapacity_fits hpos hgrow
  obtain ⟨hused, hlen⟩ := h.used hlim
  have hlt' := BitVec.lt_def.mp hlt
  have hroom := h.room
  have hold := length_flatten_eq h.size
  have hblock := (miMalloc_eq_ok hmalloc).2
  have hfit : elems.flatten.length ≤ block.length := by
    rw [hold, hblock, hbytes]
    exact Nat.mul_le_mul_right _ (by omega)
  have hread : memRead arr.bytes 0 (arr.length * arr.elemSize).toNat = .ok elems.flatten := by
    rw [hlen, memRead_eq_ok (by omega), List.drop_zero, h.stored]
  have hwrite : memWrite block 0 elems.flatten =
      .ok (elems.flatten ++ block.drop elems.flatten.length) := by
    rw [memWrite_eq_ok (by omega), List.take_zero, List.nil_append, Nat.zero_add]
  have hstores : Stores limit ⟨some (elems.flatten ++ block.drop elems.flatten.length), arr.length,
      arrayNewCapacity arr, arr.elemSize⟩ elems := by
    apply stores_block h.size h.length (by omega) (by omega)
    · simp only [List.length_append, List.length_drop]
      omega
    · rw [← hbytes]
      exact hserve
    · simp [← hold]
  refine ⟨_, ?_, hstores, rfl, Nat.succ_le_of_lt (Nat.lt_of_le_of_lt hroom hlt')⟩
  simp only [arrayResize, bind_eq_ok]
  exact ⟨(), assert_eq_ok.mpr (decide_eq_true hlt), block, hmalloc, _, hread, _, hwrite, rfl⟩

/-- Reserving room leaves the elements, and room for one more. -/
theorem Stores.reserve (h : Stores limit arr elems) (hlim : limit < 2 ^ w)
    (hpos : 0 < arr.elemSize.toNat) (hfit : PushFits arr)
    (hserve : ∀ size : UsizeT w, size.toNat ≤ mem.limit → size.toNat ≤ limit) :
    arrayReserve mem arr = .error .abort ∨ ∃ arr', arrayReserve mem arr = .ok arr' ∧
      Stores limit arr' elems ∧ arr'.elemSize = arr.elemSize ∧
      elems.length + 1 ≤ arr'.capacity.toNat := by
  unfold arrayReserve
  split
  · rename_i hneeds
    have hgrow := hfit.growth hneeds
    by_cases hserved : (arrayNewCapacity arr * arr.elemSize).toNat ≤ mem.limit
    · exact Or.inr (h.resize hlim hpos hgrow (if_pos hserved) (hserve _ hserved))
    · have hassert : assert (decide (arrayNewCapacity arr > arr.capacity)) = .ok () :=
        assert_eq_ok.mpr (decide_eq_true (newCapacity_fits hpos hgrow).1)
      have habort : miMalloc mem (arrayNewCapacity arr * arr.elemSize) = .error .abort :=
        if_neg hserved
      refine Or.inl (bind_eq_error.mpr (Or.inr ⟨(), hassert, ?_⟩))
      exact bind_eq_error.mpr (Or.inl habort)
  · rename_i hneeds
    simp only [arrayNeedsResize, gt_iff_lt, decide_eq_true_eq, BitVec.lt_def,
      toNat_succ_of_lt hfit.length, h.length] at hneeds
    exact Or.inr ⟨arr, rfl, h, rfl, by omega⟩

/-- Where there is room for one more, its bytes go right behind the elements. -/
theorem Stores.append (h : Stores limit arr elems) (hlim : limit < 2 ^ w)
    (hlength : arr.length.toNat + 1 < 2 ^ w) (hroom : elems.length + 1 ≤ arr.capacity.toNat)
    (he : e.length = arr.elemSize.toNat) :
    ∃ block, memWrite arr.bytes (arrayElemPtr arr arr.length) e = .ok block ∧
      Stores limit ⟨some block, arr.length + 1, arr.capacity, arr.elemSize⟩ (elems ++ [e]) := by
  obtain ⟨hused, hoffset⟩ := h.used hlim
  have hblock := h.block
  have hbytes : (elems.length + 1) * arr.elemSize.toNat ≤ arr.bytes.length := by
    rw [hblock]
    exact Nat.mul_le_mul_right _ hroom
  rw [Nat.succ_mul] at hbytes
  have hflat := length_flatten_eq h.size
  have hwrite : memWrite arr.bytes (arrayElemPtr arr arr.length) e = .ok (elems.flatten ++ e ++
      arr.bytes.drop (elems.length * arr.elemSize.toNat + e.length)) := by
    rw [arrayElemPtr, hoffset, memWrite_eq_ok (by omega), h.stored]
  have hadd : (arr.length + 1).toNat = (elems ++ [e]).length := by
    rw [toNat_succ_of_lt hlength, h.length, List.length_append, List.length_singleton]
  have hroom' : (elems ++ [e]).length ≤ arr.capacity.toNat := by
    rwa [List.length_append, List.length_singleton]
  refine ⟨_, hwrite, stores_block ?_ hadd hroom' (by omega) ?_ h.served ?_⟩
  · intro x hx
    rcases List.mem_append.mp hx with hx | hx
    · exact h.size x hx
    · rw [List.mem_singleton.mp hx]
      exact he
  · simp only [List.length_append, List.length_drop, hflat]
    omega
  · have htake : (elems ++ [e]).length * arr.elemSize.toNat = (elems.flatten ++ e).length := by
      simp [hflat, he, Nat.succ_mul]
    rw [htake, List.take_left' rfl]
    simp

/-- A push appends its element, if mi_malloc does not abort. -/
theorem Stores.push_cases (h : Stores limit arr elems) (hlim : limit < 2 ^ w)
    (hpos : 0 < arr.elemSize.toNat) (hfit : PushFits arr)
    (hserve : ∀ size : UsizeT w, size.toNat ≤ mem.limit → size.toNat ≤ limit)
    (he : e.length = arr.elemSize.toNat) :
    arrayPush mem arr e = .error .abort ∨ ∃ arr', arrayPush mem arr e = .ok arr' ∧
      Stores limit arr' (elems ++ [e]) ∧ arr'.elemSize = arr.elemSize := by
  rcases h.reserve hlim hpos hfit hserve with habort | ⟨arr₁, hr, h₁, hsize, hroom⟩
  · exact Or.inl (bind_eq_error.mpr (Or.inl habort))
  · have hlength := hfit.length
    rw [h.length, ← h₁.length] at hlength
    rw [← hsize] at he
    obtain ⟨block, hwrite, hstores⟩ := h₁.append hlim hlength hroom he
    have hread : memRead e 0 arr₁.elemSize.toNat = .ok e := by
      rw [memRead_eq_ok (by omega), List.drop_zero, ← he, List.take_length]
    refine Or.inr ⟨_, ?_, hstores, hsize⟩
    cases hptr : arr₁.ptr with
    | none =>
      have hz := usize_eq_zero_iff.mp (h₁.null.mp hptr)
      omega
    | some _ =>
      simp only [arrayPush, bind_eq_ok]
      exact ⟨arr₁, hr, e, hread, block, hwrite, by rw [hptr]; rfl⟩

/-- The bytes of an element, between those of the elements below it and above it. -/
theorem Stores.element {xs ys : List (List Byte)}
    (h : Stores limit arr (xs ++ e :: ys)) :
    (arr.bytes.drop (xs.length * arr.elemSize.toNat)).take arr.elemSize.toNat = e := by
  have hxs := length_flatten_eq fun x hx => h.size x (List.mem_append_left _ hx)
  have he : e.length = arr.elemSize.toNat := h.size e (by simp)
  have hroom : xs.length * arr.elemSize.toNat + arr.elemSize.toNat ≤
      (xs ++ e :: ys).length * arr.elemSize.toNat := by
    rw [← Nat.succ_mul]
    apply Nat.mul_le_mul_right
    simp only [List.length_append, List.length_cons]
    omega
  have hstored := congrArg
    (fun bytes => (bytes.drop (xs.length * arr.elemSize.toNat)).take arr.elemSize.toNat) h.stored
  simp only [List.flatten_append, List.flatten_cons, List.drop_left' hxs, List.take_left' he,
    List.drop_take, List.take_take] at hstored
  rwa [Nat.min_eq_left (by omega)] at hstored

/-- A pop of an array that is not empty copies out its newest element. -/
theorem Stores.pop (h : Stores limit arr (elems ++ [e])) (hlim : limit < 2 ^ w) :
    ∃ arr', arrayPop arr = .ok (arr', some e) ∧ Stores limit arr' elems ∧
      arr'.elemSize = arr.elemSize := by
  obtain ⟨hused, _⟩ := h.used hlim
  have hlength := h.length
  have hroom := h.room
  have hserved := h.served
  have hsize : ∀ x ∈ elems, x.length = arr.elemSize.toNat := fun x hx => h.size x (by simp [hx])
  simp only [List.length_append, List.length_singleton, Nat.succ_mul] at hused hlength hroom
  have hz : ¬ arr.length = 0 := fun hz => by
    have := usize_eq_zero_iff.mp hz
    omega
  have hlt := arr.length.isLt
  have hone : (1 : UsizeT w).toNat = 1 := toNat_ofNat_of_lt (k := 1) (by omega)
  have hpred : (arr.length - 1).toNat = elems.length := by
    rw [BitVec.toNat_sub_of_le (by rw [BitVec.le_def, hone]; omega), hone, hlength]
    omega
  have hbelow : elems.length * arr.elemSize.toNat ≤ limit :=
    Nat.le_trans (Nat.mul_le_mul_right _ (by omega)) hserved
  have hoffset : arrayElemPtr arr (arr.length - 1) = elems.length * arr.elemSize.toNat := by
    rw [arrayElemPtr, toNat_mul_of_lt (by rw [hpred]; omega), hpred]
  have hread : memRead arr.bytes (arrayElemPtr arr (arr.length - 1)) arr.elemSize.toNat =
      .ok e := by
    rw [hoffset, memRead_eq_ok hused, h.element]
  refine ⟨{ arr with length := arr.length - 1 }, ?_, ?_, rfl⟩
  · simp only [arrayPop, if_neg hz, bind_eq_ok]
    exact ⟨e, hread, rfl⟩
  · refine ⟨hsize, hpred, by dsimp only; omega, h.null, h.block, hserved, ?_⟩
    have htake := congrArg (List.take (elems.length * arr.elemSize.toNat)) h.stored
    rw [List.take_take, Nat.min_eq_left (Nat.mul_le_mul_right _ (by simp)), List.flatten_append,
      List.take_left' (length_flatten_eq hsize)] at htake
    exact htake

theorem Stores.pop_nil (h : Stores limit arr []) : arrayPop arr = .ok (arr, none) := by
  have hz : arr.length = 0 := usize_eq_zero_iff.mpr h.length
  simp [arrayPop, hz, Pure.pure, Except.pure]

theorem Stores.isEmpty_iff (h : Stores limit arr elems) : arrayIsEmpty arr = true ↔ elems = [] := by
  rw [arrayIsEmpty, beq_iff_eq, usize_eq_zero_iff, h.length, List.length_eq_zero_iff]

theorem stores_init (elemSize : UsizeT w) : Stores limit (arrayInit elemSize) [] := by
  constructor <;> simp [arrayInit, ArrayS.bytes]

/-- `array_deinit` leaves an array as `array_init` does. -/
theorem Stores.deinit (h : Stores limit arr elems) : arrayDeinit arr = arrayInit arr.elemSize := by
  obtain ⟨ptr, length, capacity, elemSize⟩ := arr
  cases ptr with
  | none =>
    have hcap : capacity = 0 := h.null.mp rfl
    have hroom := h.room
    have hlen := h.length
    rw [usize_eq_zero_iff] at hcap
    have hzero : length = 0 := usize_eq_zero_iff.mpr (by dsimp only at *; omega)
    simp [arrayDeinit, arrayInit, hzero, usize_eq_zero_iff.mpr hcap]
  | some block => rfl

/-! ## Arrays whose blocks are at most half the range -/

theorem ArrayBounds.limit_lt {elemSize : UsizeT w} (hb : ArrayBounds limit elemSize) :
    limit < 2 ^ w := by
  have := hb.limit
  omega

/-- A block of at most half the range can be doubled. -/
theorem Stores.growth_fits (h : Stores limit arr elems) (hb : ArrayBounds limit arr.elemSize) :
    exactNewCapacity arr * arr.elemSize.toNat < 2 ^ w := by
  have hserved := h.served
  have hlim := hb.limit
  unfold exactNewCapacity
  split
  · exact hb.initial
  · rw [Nat.mul_comm arr.capacity.toNat 2, Nat.mul_assoc]
    omega

/-- The sizes of a push do not wrap: each element takes a byte at least. -/
theorem Stores.pushFits (h : Stores limit arr elems) (hb : ArrayBounds limit arr.elemSize) :
    PushFits arr := by
  have hle := Nat.le_mul_of_pos_right arr.capacity.toNat hb.pos
  have hserved := h.served
  have hroom := h.room
  have hlength := h.length
  have hlim := hb.limit
  exact ⟨by omega, fun _ => h.growth_fits hb⟩

/-- A push that returns has appended its element. -/
theorem Stores.push (h : Stores limit arr elems) (hb : ArrayBounds limit arr.elemSize)
    (hm : mem.limit ≤ limit) (he : e.length = arr.elemSize.toNat)
    (hp : arrayPush mem arr e = .ok arr') :
    Stores limit arr' (elems ++ [e]) ∧ arr'.elemSize = arr.elemSize := by
  rcases h.push_cases hb.limit_lt hb.pos (h.pushFits hb) (fun _ hs => Nat.le_trans hs hm) he with
    habort | ⟨_, hok, hpushed⟩
  · cases hp.symm.trans habort
  · cases hp.symm.trans hok
    exact hpushed

end Spaze
