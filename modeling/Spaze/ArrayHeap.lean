import Spaze.ArrayGrowth
import Spaze.Lib.Blocks

/-!
The growable array over a heap that other arrays use too. A pointer is the address of a block,
and to read, write or free a block that is not in use is a fault.
-/
namespace Spaze

open Blocks

variable {w : ℕ}

/-- The blocks that mi_malloc has served and mi_free has not taken back. -/
abbrev Heap := ℕ → Option (List Byte)

/-- `struct array_s`, with `ptr` as an address. -/
structure HeapArrayS (w : ℕ) where
  ptr : Option ℕ
  length : UsizeT w
  capacity : UsizeT w
  elemSize : UsizeT w

/-- The array with its block in place of the pointer. -/
def HeapArrayS.view (heap : Heap) (arr : HeapArrayS w) : ArrayS w where
  ptr := content heap arr.ptr
  length := arr.length
  capacity := arr.capacity
  elemSize := arr.elemSize

/-- mi_malloc returns a pointer to a block that was not in use. -/
def heapMalloc (mem : Malloc) (heap : Heap) (fresh : ℕ) (size : UsizeT w) : Except Stop Heap := do
  let block ← miMalloc mem size
  return Function.update heap fresh (some block)

/-- The bytes that `memcpy` reads behind a pointer. From NULL it reads none. -/
def heapRead (heap : Heap) (p : Option ℕ) (offset n : ℕ) : Except Stop (List Byte) :=
  match p with
  | none => memRead [] offset n
  | some a =>
    match heap a with
    | none => .error .fault
    | some block => memRead block offset n

/-- The bytes that `memcpy` writes behind a pointer. -/
def heapWrite (heap : Heap) (p : Option ℕ) (offset : ℕ) (src : List Byte) : Except Stop Heap :=
  match p with
  | none => do
    let _ ← memWrite [] offset src
    return heap
  | some a =>
    match heap a with
    | none => .error .fault
    | some block => do
      let block ← memWrite block offset src
      return Function.update heap a (some block)

/-- mi_free, which ignores NULL. -/
def heapFree (heap : Heap) (p : Option ℕ) : Except Stop Heap :=
  match p with
  | none => .ok heap
  | some a => if heap a = none then .error .fault else .ok (release heap (some a))

/-- Where the element is that a push copies: at the caller, or in a block of the heap. -/
inductive Elem
  | outside (bytes : List Byte)
  | inside (p : Option ℕ) (offset : ℕ)

/-- The bytes of the element. -/
def Elem.read (heap : Heap) (n : ℕ) : Elem → Except Stop (List Byte)
  | .outside bytes => memRead bytes 0 n
  | .inside p offset => heapRead heap p offset n

/-- `array_resize`. -/
def heapResize (mem : Malloc) (fresh : ℕ) (heap : Heap) (arr : HeapArrayS w)
    (newCapacity : UsizeT w) : Except Stop (Heap × HeapArrayS w) := do
  assert (decide (newCapacity > arr.capacity))
  let heap ← heapMalloc mem heap fresh (newCapacity * arr.elemSize)
  let old ← heapRead heap arr.ptr 0 (arr.length * arr.elemSize).toNat
  let heap ← heapWrite heap (some fresh) 0 old
  let heap ← heapFree heap arr.ptr
  return (heap, { arr with ptr := some fresh, capacity := newCapacity })

/-- `array_push`, up to the copy of the element. -/
def heapReserve (mem : Malloc) (fresh : ℕ) (heap : Heap) (arr : HeapArrayS w) :
    Except Stop (Heap × HeapArrayS w) :=
  if arrayNeedsResize (arr.view heap) 1 then
    heapResize mem fresh heap arr (arrayNewCapacity (arr.view heap))
  else .ok (heap, arr)

/-- `array_push`. -/
def heapPush (mem : Malloc) (fresh : ℕ) (heap : Heap) (arr : HeapArrayS w) (elem : Elem) :
    Except Stop (Heap × HeapArrayS w) := do
  let (heap, arr) ← heapReserve mem fresh heap arr
  let src ← elem.read heap arr.elemSize.toNat
  let heap ← heapWrite heap arr.ptr (arrayElemPtr (arr.view heap) arr.length) src
  return (heap, { arr with length := arr.length + 1 })

/-- `array_pop`. -/
def heapPop (heap : Heap) (arr : HeapArrayS w) :
    Except Stop (HeapArrayS w × Option (List Byte)) := do
  if arr.length = 0 then return (arr, none)
  let arr := { arr with length := arr.length - 1 }
  let out ← heapRead heap arr.ptr (arrayElemPtr (arr.view heap) arr.length) arr.elemSize.toNat
  return (arr, some out)

/-- `array_deinit`. -/
def heapDeinit (heap : Heap) (arr : HeapArrayS w) : Except Stop (Heap × HeapArrayS w) :=
  match arr.ptr with
  | none => .ok (heap, arr)
  | some a => do
    let heap ← heapFree heap (some a)
    return (heap, { arr with ptr := none, length := 0, capacity := 0 })

end Spaze
