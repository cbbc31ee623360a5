import Mathlib.Data.Finset.Basic
import Spaze.List

/-!
The shared memory pool and the swapchain of gfx.c.

gfx.h is not in the tree: the structures have the fields gfx.c uses. A block and
the `link` inside it share an address, so `container_of` is the identity. What the
kernel, the compositor and mi_malloc answer to a call is an argument of the model.
-/
namespace Spaze

/-- Addresses of blocks and of mappings. -/
abbrev Addr := ℕ

/-- Wayland objects on the client side: `wl_shm_pool` and `wl_buffer`. -/
abbrev Proxy := ℕ

/-- File descriptors. -/
abbrev Fd := ℕ

/-- `struct shm_block_s`, less its `link`, which is in the memory of link words. -/
structure ShmBlockS (w : ℕ) where
  buffer : Proxy
  width : UsizeT w
  height : UsizeT w
  stride : UsizeT w
  busy : Bool
  deriving DecidableEq

/-- `struct shm_pool_s`. -/
structure ShmPoolS (w : ℕ) where
  poolData : Option Addr
  pool : Option Proxy
  poolCapacity : UsizeT w
  poolUsed : UsizeT w
  fd : Fd
  freeBlocks : ListS Addr
  alive : Bool
  deriving DecidableEq

/-- The pool after `memset(shm_pool, 0, sizeof(*shm_pool))`. -/
def ShmPoolS.zero (w : ℕ) : ShmPoolS w where
  poolData := none
  pool := none
  poolCapacity := 0
  poolUsed := 0
  fd := 0
  freeBlocks := ListS.zero
  alive := false

/-- `struct swapchain_s`; its `shm_pool` is the pool of the state. -/
structure SwapchainS (w : ℕ) where
  width : UsizeT w
  height : UsizeT w
  chain : ListS Addr
  alive : Bool
  deriving DecidableEq

/-- `enum shm_pool_error_e`. -/
inductive ShmPoolErrorE
  | ok
  | shmemOpenFailed
  | truncateFailed
  | mmapFailed
  deriving DecidableEq

/-- The requests gfx.c sends to the compositor, with the sizes as the caller has them.
`GFX_FORMAT`, a constant of gfx.h, is left out of a buffer's request. -/
inductive Request (w : ℕ)
  | wlShmCreatePool (fd : Fd) (size : UsizeT w)
  | wlShmPoolResize (pool : Option Proxy) (size : UsizeT w)
  | wlShmPoolCreateBuffer (pool : Option Proxy) (offset width height stride : UsizeT w)
      (buffer : Option Proxy)
  | wlShmPoolDestroy (pool : Option Proxy)
  | wlBufferDestroy (buffer : Proxy)
  deriving DecidableEq

/-- What the calls of gfx.c change outside the process: the size of the object behind each
open descriptor, the live mappings, and the requests sent so far, oldest first. -/
structure Os (w : ℕ) where
  file : Fd → Option ℕ
  mappings : List (Addr × UsizeT w)
  requests : List (Request w)

variable {w : ℕ}

def Os.send (os : Os w) (r : Request w) : Os w :=
  { os with requests := os.requests ++ [r] }

/-- A successful `ftruncate`: the size of an open file becomes exactly `length`. -/
def Os.ftruncate (os : Os w) (fd : Fd) (length : UsizeT w) : Os w :=
  { os with file := Function.update os.file fd ((os.file fd).map fun _ => length.toNat) }

/-- A successful `mmap` at `addr`. -/
def Os.mmap (os : Os w) (addr : Addr) (length : UsizeT w) : Os w :=
  { os with mappings := os.mappings ++ [(addr, length)] }

/-- `munmap`, which removes the mapping only if both its address and its length agree. -/
def Os.munmap (os : Os w) (addr : Option Addr) (length : UsizeT w) : Os w :=
  { os with mappings := os.mappings.filter fun m => !(addr == some m.1 && length == m.2) }

/-- A successful `shm_open` with `O_CREAT | O_EXCL`: a new object of size 0. -/
def Os.shmOpen (os : Os w) (fd : Fd) : Os w :=
  { os with file := Function.update os.file fd (some 0) }

def Os.close (os : Os w) (fd : Fd) : Os w :=
  { os with file := Function.update os.file fd none }

/-- The pool, the memory of the blocks and of their links, the blocks mi_malloc has handed
out and mi_free has not taken back, and what is outside the process. -/
structure Gfx (w : ℕ) where
  pool : ShmPoolS w
  links : Links Addr
  blocks : Addr → ShmBlockS w
  live : Finset Addr
  os : Os w

/-- The answers to the calls of one `shm_pool_allocate`: whether ftruncate succeeds, where
mmap puts the mapping, the buffer made, the address mi_malloc returns and the link words
found there. -/
structure Answers where
  ftruncate : Bool
  mmap : Option Addr
  createBuffer : Option Proxy
  malloc : Addr
  words : LinkS Addr
  deriving DecidableEq

/-- The answers to the calls of one `shm_pool_init`. -/
structure InitAnswers where
  shmOpen : Option Fd
  ftruncate : Bool
  mmap : Option Addr
  createPool : Option Proxy
  deriving DecidableEq

/-- `buffer_release`, the listener every buffer is given with its block as data. -/
def bufferRelease (g : Gfx w) (block : Addr) : Gfx w :=
  { g with blocks := Function.update g.blocks block { g.blocks block with busy := false } }

/-- `shm_pool_grow`. -/
def shmPoolGrow (truncates : Bool) (mapped : Option Addr) (os : Os w) (fd : Fd)
    (oldCapacity : UsizeT w) (oldData : Option Addr) (newCapacity : UsizeT w) :
    Os w × ShmPoolErrorE × Option Addr :=
  if truncates then
    let os := os.ftruncate fd newCapacity
    match mapped with
    | none => (os, .mmapFailed, none)
    | some ptr =>
      let os := os.mmap ptr newCapacity
      let os := if oldData ≠ none ∧ oldCapacity > 0 then os.munmap oldData oldCapacity else os
      (os, .ok, some ptr)
  else (os, .truncateFailed, none)

/-- `shm_pool_init`. -/
def shmPoolInit (ans : InitAnswers) (g : Gfx w) (capacity : UsizeT w) :
    Except Stop (Gfx w × ShmPoolErrorE) := do
  assert (decide (capacity > 0))
  let g := { g with pool := ShmPoolS.zero w }
  match ans.shmOpen with
  | none => return (g, .shmemOpenFailed)
  | some fd =>
    let os := g.os.shmOpen fd
    match shmPoolGrow ans.ftruncate ans.mmap os fd 0 none capacity with
    | (os, .ok, poolData) =>
      let os := os.send (.wlShmCreatePool fd capacity)
      match ans.createPool with
      | none => return ({ g with os := (os.munmap poolData capacity).close fd }, .shmemOpenFailed)
      | some pool =>
        return ({ g with
          os := os
          pool := { g.pool with
            poolData := poolData
            pool := some pool
            poolCapacity := capacity
            fd := fd
            alive := true } }, .ok)
    | (os, err, _) => return ({ g with os := os.close fd }, err)

/-- `shm_pool_needs_grow`. -/
def shmPoolNeedsGrow (pool : ShmPoolS w) (size : UsizeT w) : Bool :=
  pool.poolUsed + size > pool.poolCapacity

/-- `shm_pool_new_capacity`, with `SHM_GROWTH` 2. -/
def shmPoolNewCapacity (oldCapacity : UsizeT w) : UsizeT w := oldCapacity * 2

/-- `shm_pool_do_grow`. -/
def shmPoolDoGrow (ans : Answers) (g : Gfx w) (newCapacity : UsizeT w) :
    Except Stop (Gfx w × ShmPoolErrorE) := do
  assert (decide (newCapacity > g.pool.poolCapacity))
  match shmPoolGrow ans.ftruncate ans.mmap g.os g.pool.fd g.pool.poolCapacity g.pool.poolData
      newCapacity with
  | (os, .ok, newData) =>
    return ({ g with
      os := os.send (.wlShmPoolResize g.pool.pool newCapacity)
      pool := { g.pool with poolData := newData, poolCapacity := newCapacity } }, .ok)
  | (os, err, _) => return ({ g with os := os }, err)

/-- The shape test of the reuse loop. -/
def ShmBlockS.hasShape (block : ShmBlockS w) (width height stride : UsizeT w) : Bool :=
  block.width == width && block.height == height && block.stride == stride

/-- `list_remove(&shm_pool->free_blocks, &block->link)`. -/
def Gfx.removeFree (g : Gfx w) (block : Addr) : Gfx w :=
  let (links, freeBlocks) := listRemove g.links g.pool.freeBlocks block
  { g with links := links, pool := { g.pool with freeBlocks := freeBlocks } }

/-- The read `link->prev` of `list_for_each_reversed`. -/
def Gfx.linkPrev (g : Gfx w) (link : Addr) : Except Stop (Option Addr) :=
  .ok (g.links link).prev

/-- The read `link->next` of `list_for_each`. -/
def Gfx.linkNext (g : Gfx w) (link : Addr) : Except Stop (Option Addr) :=
  .ok (g.links link).next

/-- The body of the reuse loop of `shm_pool_allocate`. -/
def reuseBlock (width height stride : UsizeT w) (g : Gfx w) (block : Addr) :
    Except Stop (Gfx w × Option Addr) :=
  if (g.blocks block).hasShape width height stride then .ok (g.removeFree block, some block)
  else .ok (g, none)

/-- The reuse loop of `shm_pool_allocate`, over the free blocks from the last one back. -/
def shmPoolReuse (fuel : ℕ) (g : Gfx w) (width height stride : UsizeT w) :
    Except Stop (Gfx w × Option Addr) :=
  listForEach Gfx.linkPrev (reuseBlock width height stride) fuel g g.pool.freeBlocks.tail

/-- The loop `while (new_capacity < offset + req_size)`. -/
def shmPoolCapacitySearch (target : UsizeT w) : ℕ → UsizeT w → Except Stop (UsizeT w)
  | 0, _ => .error .fuel
  | fuel + 1, newCapacity =>
    if newCapacity < target then
      shmPoolCapacitySearch target fuel (shmPoolNewCapacity newCapacity)
    else .ok newCapacity

/-- The growth of `shm_pool_allocate`, up to the label `create_buffer`. -/
def shmPoolMakeRoom (fuel : ℕ) (ans : Answers) (g : Gfx w) (offset reqSize : UsizeT w) :
    Except Stop (Gfx w × ShmPoolErrorE) := do
  if shmPoolNeedsGrow g.pool reqSize then
    let newCapacity ← shmPoolCapacitySearch (offset + reqSize) fuel
      (shmPoolNewCapacity g.pool.poolCapacity)
    shmPoolDoGrow ans g newCapacity
  else return (g, .ok)

/-- `shm_pool_allocate` from the label `create_buffer` on. -/
def shmPoolCreateBuffer (ans : Answers) (g : Gfx w)
    (offset reqSize width height stride : UsizeT w) : Gfx w × Option Addr :=
  let os := g.os.send
    (.wlShmPoolCreateBuffer g.pool.pool offset width height stride ans.createBuffer)
  match ans.createBuffer with
  | none => ({ g with os := os }, none)
  | some buffer =>
    let block : ShmBlockS w :=
      { buffer := buffer, width := width, height := height, stride := stride, busy := false }
    ({ g with
      os := os
      pool := { g.pool with poolUsed := g.pool.poolUsed + reqSize }
      live := insert ans.malloc g.live
      links := Function.update g.links ans.malloc ans.words
      blocks := Function.update g.blocks ans.malloc block }, some ans.malloc)

/-- `shm_pool_allocate`. -/
def shmPoolAllocate (fuel : ℕ) (ans : Answers) (g : Gfx w) (width height stride : UsizeT w) :
    Except Stop (Gfx w × Option Addr) := do
  assert g.pool.alive
  let reqSize := stride * height
  let (g, reused) ← shmPoolReuse fuel g width height stride
  match reused with
  | some block => return (g, some block)
  | none =>
    let offset := g.pool.poolUsed
    let (g, err) ← shmPoolMakeRoom fuel ans g offset reqSize
    if err ≠ .ok then return (g, none)
    return shmPoolCreateBuffer ans g offset reqSize width height stride

/-- `shm_pool_deallocate`. -/
def shmPoolDeallocate (g : Gfx w) (block : Addr) : Gfx w :=
  let (links, freeBlocks) := listPush g.links g.pool.freeBlocks block
  { g with links := links, pool := { g.pool with freeBlocks := freeBlocks } }

/-- The read `link->next` of a loop that frees blocks: of a freed block it is a fault. -/
def Gfx.liveNext (g : Gfx w) (link : Addr) : Except Stop (Option Addr) :=
  if link ∈ g.live then g.linkNext link else .error .fault

/-- The body of the loop of `shm_pool_deinit`: reading or freeing a freed block is a fault. -/
def shmPoolDestroyBlock (g : Gfx w) (block : Addr) : Except Stop (Gfx w × Option Unit) :=
  if block ∈ g.live then
    .ok ({ g with
      os := g.os.send (.wlBufferDestroy (g.blocks block).buffer)
      live := g.live.erase block }, none)
  else .error .fault

/-- `shm_pool_deinit`. Its loop frees blocks, so it reads the links of live blocks only. -/
def shmPoolDeinit (fuel : ℕ) (g : Gfx w) : Except Stop (Gfx w) := do
  if !g.pool.alive then return g
  let (g, _) ← listForEach Gfx.liveNext shmPoolDestroyBlock fuel g g.pool.freeBlocks.head
  let os := g.os.send (.wlShmPoolDestroy g.pool.pool)
  let os := os.munmap g.pool.poolData g.pool.poolCapacity
  let os := os.close g.pool.fd
  return { g with os := os, pool := ShmPoolS.zero w }

/-- `swapchain_init`, which always succeeds. -/
def swapchainInit (width height : UsizeT w) : SwapchainS w where
  width := width
  height := height
  chain := ListS.zero
  alive := true

/-- The loop of `swapchain_resize` and of `swapchain_deinit` over the blocks of a chain. -/
def deallocateChain (fuel : ℕ) (g : Gfx w) (chain : ListS Addr) :
    Except Stop (Gfx w × Option Unit) :=
  listForEach Gfx.linkNext (fun g block => .ok (shmPoolDeallocate g block, none)) fuel g
    chain.head

/-- `swapchain_resize`. -/
def swapchainResize (fuel : ℕ) (g : Gfx w) (swapchain : SwapchainS w)
    (newWidth newHeight : UsizeT w) : Except Stop (Gfx w × SwapchainS w) := do
  assert swapchain.alive
  if swapchain.width = newWidth ∧ swapchain.height = newHeight then return (g, swapchain)
  let (g, _) ← deallocateChain fuel g swapchain.chain
  return (g, { swapchain with chain := ListS.zero, width := newWidth, height := newHeight })

/-- `swapchain_acquire`. `shm_block_get` is a function of gfx.h and a parameter here. -/
def swapchainAcquire (shmBlockGet : Option Addr → Option Addr) (g : Gfx w)
    (swapchain : SwapchainS w) : Except Stop (Gfx w × SwapchainS w × Option Addr) := do
  assert swapchain.alive
  let ((links, chain), link) := listPopFront g.links swapchain.chain
  let g := { g with links := links }
  let swapchain := { swapchain with chain := chain }
  match shmBlockGet link with
  | none => .error .panic
  | some block =>
    if (g.blocks block).busy then return (g, swapchain, none)
    return (g, swapchain, some block)

/-- `swapchain_reclaim`. -/
def swapchainReclaim (g : Gfx w) (swapchain : SwapchainS w) (block : Addr) :
    Gfx w × SwapchainS w :=
  let (links, chain) := listPush g.links swapchain.chain block
  ({ g with links := links }, { swapchain with chain := chain })

/-- `swapchain_deinit`. -/
def swapchainDeinit (fuel : ℕ) (g : Gfx w) (swapchain : SwapchainS w) :
    Except Stop (Gfx w × SwapchainS w) := do
  if !swapchain.alive then return (g, swapchain)
  let (g, _) ← deallocateChain fuel g swapchain.chain
  return (g, { swapchain with chain := ListS.zero, alive := false })

end Spaze
