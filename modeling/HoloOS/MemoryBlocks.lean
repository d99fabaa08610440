import HoloOS.MemoryWindow

/-! `sysMalloc` and `sysFree` of `kernel/memory.c`. Descriptors, arena headers and the links of the
free lists are words in memory, at the offsets of their structs, and the code reaches them through
the MMU of the running thread. `kBlockDescs` is the address of that array in the kernel. -/

namespace HoloOS

open Function Paging

namespace Memory

/-- A `struct list` at `list`: `prev` and `next` of the head, then of the tail. -/
def listInit (list : Word) (s : Memory) : Except Trap Memory := do
  let s ← s.store list 0
  let s ← s.store (list + 4) (list + 8)
  let s ← s.store (list + 8) list
  s.store (list + 12) 0

def listInsert (before node : Word) (s : Memory) : Except Trap Memory := do
  let prev ← s.load before
  let s ← s.store (prev + 4) node
  let prev ← s.load before
  let s ← s.store node prev
  let s ← s.store (node + 4) before
  s.store before node

def listAppend (list node : Word) (s : Memory) : Except Trap Memory :=
  s.listInsert (list + 8) node

def listRemove (node : Word) (s : Memory) : Except Trap Memory := do
  let prev ← s.load node
  let next ← s.load (node + 4)
  let s ← s.store (prev + 4) next
  let next ← s.load (node + 4)
  let prev ← s.load node
  s.store next prev

def listEmpty (list : Word) (s : Memory) : Except Trap Bool := do
  let next ← s.load (list + 4)
  return next = list + 8

/-- The result `NULL` of an empty list is the address 0. -/
def listPop (list : Word) (s : Memory) : Except Trap (Word × Memory) := do
  if ← s.listEmpty list then return (0, s)
  else
    let node ← s.load (list + 4)
    let s ← s.listRemove node
    return (node, s)

/-- The loop of `listExist` from `cur`. A walk longer than there are addresses does not end. -/
def existLoop (tail node : Word) : Nat → Word → Memory → Except Trap Bool
  | 0, _, _ => .error .loops
  | fuel + 1, cur, s =>
      if cur = tail then .ok false
      else if cur = node then .ok true
      else do
        let next ← s.load (cur + 4)
        existLoop tail node fuel next s

def listExist (list node : Word) (s : Memory) : Except Trap Bool := do
  let cur ← s.load (list + 4)
  existLoop (list + 8) node (2 ^ 32) cur s

end Memory

/-- The loop of `blockDescInit` over `n` descriptors. -/
def blockDescLoop : Nat → Word → Word → Memory → Except Trap Memory
  | 0, _, _, s => .ok s
  | n + 1, desc, blockSize, s => do
      let s ← s.store desc blockSize
      let s ← s.store (desc + 4) ((4096 - 12) / blockSize)
      let s ← s.listInit (desc + 8)
      blockDescLoop n (desc + 24) (blockSize + blockSize) s

def blockDescInit (descArr : Word) (s : Memory) : Except Trap Memory := blockDescLoop 7 descArr 16 s

/-- A `struct arena` holds `desc`, `cnt` and `large`, and its blocks follow. -/
def arena2block (a idx : Word) (s : Memory) : Except Trap Word := do
  let desc ← s.load a
  let blockSize ← s.load desc
  return a + 12 + idx * blockSize

def block2arena (b : Word) : Word := b &&& 0xfffff000#32

/-- `uBlockDesc` of the running thread. -/
def Memory.uBlockDesc (s : Memory) : Word := BitVec.ofNat 32 s.cur + 68

/-- The case `size > 1024`; the pool's lock is held. -/
def pagesMalloc (pf : PoolFlags) (size : Word) (s : Memory) : Except Trap (Option Word × Memory) := do
  let pageCnt := (size + 12 + 4096 - 1) / 4096
  let (a, s) ← mallocPage pf pageCnt.toNat s
  match a with
  | none =>
      let s ← lockRelease pf s
      return (none, s)
  | some a =>
      let s ← memset a 0 (pageCnt * 4096).toNat s
      let s ← s.store a 0
      let s ← s.store (a + 4) pageCnt
      let s ← s.storeByte (a + 8) 1
      let s ← lockRelease pf s
      return (some (a + 12), s)

/-- The address of the first descriptor from `desc` on, of `n`, whose blocks are large enough. -/
def findDesc (size : Word) : Nat → Word → Memory → Except Trap Word
  | 0, desc, _ => .ok desc
  | n + 1, desc, s => do
      let blockSize ← s.load desc
      if size ≤ blockSize then return desc
      else findDesc size n (desc + 24) s

/-- The loop that puts the blocks of a new arena on the free list. -/
def splitArena (desc a : Word) : Nat → Word → Memory → Except Trap Memory
  | 0, _, _ => .error .loops
  | fuel + 1, blockIdx, s => do
      let blocksPerArena ← s.load (desc + 4)
      if blocksPerArena ≤ blockIdx then return s
      else
        let b ← arena2block a blockIdx s
        let aDesc ← s.load a
        let exist ← s.listExist (aDesc + 8) b
        massert (!exist) .freeNode
        let aDesc ← s.load a
        let s ← s.listAppend (aDesc + 8) b
        splitArena desc a fuel (blockIdx + 1) s

/-- A new arena for a descriptor; `false` when there is no page. -/
def newArena (pf : PoolFlags) (desc : Word) (s : Memory) : Except Trap (Bool × Memory) := do
  let (a, s) ← mallocPage pf 1 s
  match a with
  | none => return (false, s)
  | some a =>
      let s ← memset a 0 4096 s
      let s ← s.store a desc
      let s ← s.storeByte (a + 8) 0
      let blocksPerArena ← s.load (desc + 4)
      let s ← s.store (a + 4) blocksPerArena
      let s ← splitArena desc a (2 ^ 32) 0 s
      return (true, s)

/-- The first block of the free list. -/
def takeBlock (pf : PoolFlags) (desc : Word) (s : Memory) : Except Trap (Option Word × Memory) := do
  let (b, s) ← s.listPop (desc + 8)
  let blockSize ← s.load desc
  let s ← memset b 0 blockSize.toNat s
  let a := block2arena b
  let cnt ← s.load (a + 4)
  let s ← s.store (a + 4) (cnt - 1)
  let s ← lockRelease pf s
  return (some b, s)

/-- The case `size ≤ 1024`; the pool's lock is held. -/
def blockMalloc (pf : PoolFlags) (descs size : Word) (s : Memory) :
    Except Trap (Option Word × Memory) := do
  let desc ← findDesc size 7 descs s
  if ← s.listEmpty (desc + 8) then
    let (done, s) ← newArena pf desc s
    if done then takeBlock pf desc s
    else
      let s ← lockRelease pf s
      return (none, s)
  else takeBlock pf desc s

/-- The pool that serves the running thread. -/
def Memory.threadPool (s : Memory) : PoolFlags := if (s.task s.cur).pageDir = 0 then .kernel else .user

/-- `none` is the result `NULL`. -/
def sysMalloc (kBlockDescs size : Word) (s : Memory) : Except Trap (Option Word × Memory) := do
  let pf := s.threadPool
  let poolSize := (s.pool pf).poolSize
  let descs := match pf with
    | .kernel => kBlockDescs
    | .user => s.uBlockDesc
  if size = 0 ∨ poolSize ≤ size then return (none, s)
  else
    let s ← lockAcquire pf s
    if 1024 < size then pagesMalloc pf size s
    else blockMalloc pf descs size s

/-- The loop that takes the blocks of an arena off the free list. -/
def unlinkArena (a : Word) : Nat → Word → Memory → Except Trap Memory
  | 0, _, _ => .error .loops
  | fuel + 1, idx, s => do
      let desc ← s.load a
      let blocksPerArena ← s.load (desc + 4)
      if blocksPerArena ≤ idx then return s
      else
        let b ← arena2block a idx s
        let desc ← s.load a
        let exist ← s.listExist (desc + 8) b
        massert exist .listExist
        let s ← s.listRemove b
        unlinkArena a fuel (idx + 1) s

/-- The case of a block of at most 1024 bytes. -/
def blockFree (pf : PoolFlags) (a b : Word) (s : Memory) : Except Trap Memory := do
  let desc ← s.load a
  let s ← s.listAppend (desc + 8) b
  let cnt ← s.load (a + 4)
  let s ← s.store (a + 4) (cnt + 1)
  let cnt ← s.load (a + 4)
  let desc ← s.load a
  let blocksPerArena ← s.load (desc + 4)
  if cnt = blocksPerArena then
    let s ← unlinkArena a (2 ^ 32) 0 s
    mfreePage pf a 1 s
  else return s

def sysFree (ptr : Word) (s : Memory) : Except Trap Memory := do
  massert (ptr ≠ 0) .ptr
  let pf := s.threadPool
  massert (pf = .user ∨ 0xc0100000#32 ≤ ptr) .kernelPtr
  let s ← lockAcquire pf s
  let a := block2arena ptr
  let large ← s.loadByte (a + 8)
  massert (large = 0 ∨ large = 1) .large
  let desc ← s.load a
  let s ← if desc = 0 ∧ large = 1 then do
      let cnt ← s.load (a + 4)
      mfreePage pf a cnt.toNat s
    else blockFree pf a ptr s
  lockRelease pf s

end HoloOS
