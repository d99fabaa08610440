import HoloOS.BasePaging
import HoloOS.MemoryBitmap
import HoloOS.ThreadKernel

/-! The page allocator of `kernel/memory.c`. Page tables are words in physical memory, and the code
reaches them as the CPU does, through the last directory entry, which points to the directory
itself. The bitmaps and the fields of `struct pool` and `struct virtualAddr` are records of their
own. A function is one state transformer: the callers hold the lock of the pool. -/

namespace HoloOS

open Function Paging

inductive PoolFlags where
  | kernel
  | user
  deriving DecidableEq

structure Pool where
  poolBitmap : Bitmap
  paddrStart : Word
  poolSize : Word

structure VirtualAddr where
  vaddrBitmap : Bitmap
  vaddrStart : Word

/-- The fields of a `taskStruct` that the allocator reads. -/
structure TaskSpace where
  pageDir : Word
  userVaddr : VirtualAddr

/-- The conditions of the `ASSERT`s, and the `PANIC` of `getPage`. -/
inductive Assertion where
  | dst
  | pgCnt
  | vaddrStart
  | pageCnt
  | pagePhyAddr
  | userFrame
  | kernelFrame
  | pte
  | bitIdx
  | getPage
  | holder
  | ptr
  | kernelPtr
  | large
  | freeNode
  | listExist
  | pthread
  deriving DecidableEq

/-- Why a call does not return: `panicSpin`, an access to a page that is not present, a lock that is
held, a loop that does not end. -/
inductive Trap where
  | panic (condition : Assertion)
  | pageFault (vaddr : Word)
  | waits (pf : PoolFlags)
  | loops
  deriving DecidableEq

/-- Physical memory, the MMU and the statics of `kernel/memory.c`; `cur` is the running thread and
`tlb` what the CPU has cached, by virtual page. It is a ghost: loads and stores go by the page tables. -/
structure Memory where
  mem : Mem
  cr3 : Nat
  tlb : Nat → Option Nat
  kernelPool : Pool
  userPool : Pool
  kernelVaddr : VirtualAddr
  task : Tid → TaskSpace
  cur : Tid
  holder : PoolFlags → Option Tid

def massert (condition : Bool) (name : Assertion) : Except Trap Unit :=
  if condition then .ok () else .error (.panic name)

namespace Memory

def pool (s : Memory) : PoolFlags → Pool
  | .kernel => s.kernelPool
  | .user => s.userPool

def setPool (s : Memory) (pf : PoolFlags) (pool : Pool) : Memory :=
  match pf with
  | .kernel => { s with kernelPool := pool }
  | .user => { s with userPool := pool }

/-- The virtual addresses that the flag stands for. -/
def vaddr (s : Memory) : PoolFlags → VirtualAddr
  | .kernel => s.kernelVaddr
  | .user => (s.task s.cur).userVaddr

def setVaddrBitmap (s : Memory) (pf : PoolFlags) (bmap : Bitmap) : Memory :=
  match pf with
  | .kernel => { s with kernelVaddr := { s.kernelVaddr with vaddrBitmap := bmap } }
  | .user =>
      let task := s.task s.cur
      let task := { task with userVaddr := { task.userVaddr with vaddrBitmap := bmap } }
      { s with task := update s.task s.cur task }

/-- The physical address of a byte, by the tables of the current directory. -/
def walk (s : Memory) (vaddr : Word) : Option Nat :=
  (mapped s.mem s.cr3 (vaddr.toNat / 4096)).map (· + vaddr.toNat % 4096)

def phys (s : Memory) (vaddr : Word) : Except Trap Nat :=
  match s.walk vaddr with
  | some a => .ok a
  | none => .error (.pageFault vaddr)

/-- The address of byte `k` of a word of which `n` bytes lie in the page of `a`, and the others in that
of `b`. -/
def crossing (a b n k : Nat) : Nat := if k < n then a + k else b + k - 3

def readCrossing (m : Mem) (a b n : Nat) : Word :=
  m (crossing a b n 3) ++ m (crossing a b n 2) ++ m (crossing a b n 1) ++ m (crossing a b n 0)

def writeCrossing (m : Mem) (a b n : Nat) (w : Word) : Mem :=
  let m := update m (crossing a b n 0) (w.extractLsb' 0 8)
  let m := update m (crossing a b n 1) (w.extractLsb' 8 8)
  let m := update m (crossing a b n 2) (w.extractLsb' 16 8)
  update m (crossing a b n 3) (w.extractLsb' 24 8)

def load (vaddr : Word) (s : Memory) : Except Trap Word := do
  let a ← s.phys vaddr
  if vaddr.toNat % 4096 ≤ 4092 then return read s.mem a
  else
    let b ← s.phys (vaddr + 3)
    return readCrossing s.mem a b (4096 - vaddr.toNat % 4096)

def store (vaddr w : Word) (s : Memory) : Except Trap Memory := do
  let a ← s.phys vaddr
  if vaddr.toNat % 4096 ≤ 4092 then return { s with mem := write s.mem a w }
  else
    let b ← s.phys (vaddr + 3)
    return { s with mem := writeCrossing s.mem a b (4096 - vaddr.toNat % 4096) w }

def loadByte (vaddr : Word) (s : Memory) : Except Trap (BitVec 8) := do
  let a ← s.phys vaddr
  return s.mem a

def storeByte (vaddr : Word) (val : BitVec 8) (s : Memory) : Except Trap Memory := do
  let a ← s.phys vaddr
  return { s with mem := update s.mem a val }

/-- Loading `cr3`. -/
def loadCr3 (dir : Nat) (s : Memory) : Memory := { s with cr3 := dir, tlb := fun _ => none }

/-- `invlpg` with an operand in memory drops the page of the operand. -/
def invlpg (operand : Nat) (s : Memory) : Memory :=
  { s with tlb := update s.tlb (operand / 4096) none }

end Memory

/-- The bytes of one page are written through one translation. -/
def memsetLoop (val : BitVec 8) : Nat → Word → Nat → Memory → Except Trap Memory
  | 0, _, _, s => .ok s
  | fuel + 1, dst, size, s =>
      if size = 0 then .ok s
      else do
        let chunk := min size (4096 - dst.toNat % 4096)
        let a ← s.phys dst
        memsetLoop val fuel (dst + BitVec.ofNat 32 chunk) (size - chunk)
          { s with mem := fill s.mem a chunk val }

def memset (dst : Word) (val : BitVec 8) (size : Nat) (s : Memory) : Except Trap Memory := do
  massert (dst ≠ 0) .dst
  memsetLoop val (size / 4096 + 2) dst size s

/-- `lockAcquire` and `lockRelease` on the lock of a pool. -/
def lockAcquire (pf : PoolFlags) (s : Memory) : Except Trap Memory :=
  match s.holder pf with
  | none => .ok { s with holder := update s.holder pf (some s.cur) }
  | some _ => .error (.waits pf)

def lockRelease (pf : PoolFlags) (s : Memory) : Except Trap Memory := do
  massert (s.holder pf = some s.cur) .holder
  return { s with holder := update s.holder pf none }

/-- `none` is the result `NULL`. -/
def vaddrGet (pf : PoolFlags) (pgCnt : Nat) (s : Memory) : Except Trap (Option Word × Memory) :=
  match bitmapScan (s.vaddr pf).vaddrBitmap pgCnt with
  | none => .ok (none, s)
  | some bitIdxStart => do
      let s' := s.setVaddrBitmap pf
        (bitmapSetRun (s.vaddr pf).vaddrBitmap bitIdxStart true pgCnt)
      let vaddrStart := (s.vaddr pf).vaddrStart + BitVec.ofNat 32 (bitIdxStart * 4096)
      -- the page below 0xc0000000 is kept for the stack of a user process
      massert (pf = .kernel ∨ vaddrStart < 0xc0000000#32 - 4096#32) .vaddrStart
      return (some vaddrStart, s')

def pdeIdx (addr : Word) : Word := (addr &&& 0xffc00000#32) >>> 22

def pteIdx (addr : Word) : Word := (addr &&& 0x003ff000#32) >>> 12

def pdePtr (vaddr : Word) : Word := 0xfffff000#32 + pdeIdx vaddr * 4#32

def ptePtr (vaddr : Word) : Word :=
  0xffc00000#32 + ((vaddr &&& 0xffc00000#32) >>> 10) + pteIdx vaddr * 4#32

/-- `none` is the result `NULL`. -/
def palloc (memPool : Pool) : Option Word × Pool :=
  match bitmapScan memPool.poolBitmap 1 with
  | none => (none, memPool)
  | some bitIdx =>
      (some (BitVec.ofNat 32 (bitIdx * 4096) + memPool.paddrStart),
        { memPool with poolBitmap := bitmapSet memPool.poolBitmap bitIdx true })

/-- The pool of a frame, by its address. -/
def poolOf (pagePhyAddr : Word) (s : Memory) : PoolFlags :=
  if s.userPool.paddrStart ≤ pagePhyAddr then .user else .kernel

def pfree (pagePhyAddr : Word) (s : Memory) : Memory :=
  let pf := poolOf pagePhyAddr s
  let memPool := s.pool pf
  let bitIdx := ((pagePhyAddr - memPool.paddrStart) / 4096).toNat
  s.setPool pf { memPool with poolBitmap := bitmapSet memPool.poolBitmap bitIdx false }

/-- The operand of `invlpg` is the parameter `vaddr`, which lies on the stack of the running thread,
in the page of its `taskStruct`. -/
def pageTablePteRemove (vaddr : Word) (s : Memory) : Except Trap Memory := do
  let pte ← s.load (ptePtr vaddr)
  let s ← s.store (ptePtr vaddr) (pte &&& ~~~1#32)
  return s.invlpg s.cur

def vaddrRemove (pf : PoolFlags) (vaddr : Word) (pageCnt : Nat) (s : Memory) : Memory :=
  let bitIdxStart := ((vaddr - (s.vaddr pf).vaddrStart) / 4096).toNat
  s.setVaddrBitmap pf (bitmapSetRun (s.vaddr pf).vaddrBitmap bitIdxStart false pageCnt)

def v2p (vaddr : Word) (s : Memory) : Except Trap Word := do
  let pte ← s.load (ptePtr vaddr)
  return (pte &&& 0xfffff000#32) + (vaddr &&& 0x00000fff#32)

/-- The two loops of `mfreePage`; `pf` is the pool that the first frame belongs to. -/
def mfreeLoop (pf : PoolFlags) : Nat → Word → Memory → Except Trap Memory
  | 0, _, s => .ok s
  | n + 1, vaddr, s => do
      let pagePhyAddr ← v2p vaddr s
      match pf with
      | .user => massert (pagePhyAddr % 4096 = 0 ∧ s.userPool.paddrStart ≤ pagePhyAddr) .userFrame
      | .kernel => massert (pagePhyAddr % 4096 = 0 ∧ pagePhyAddr < s.userPool.paddrStart ∧
          s.kernelPool.paddrStart ≤ pagePhyAddr) .kernelFrame
      let s ← pageTablePteRemove vaddr (pfree pagePhyAddr s)
      mfreeLoop pf n (vaddr + 4096) s

def mfreePage (pf : PoolFlags) (vaddr : Word) (pageCnt : Nat) (s : Memory) : Except Trap Memory := do
  massert (1 ≤ pageCnt ∧ vaddr % 4096 = 0) .pageCnt
  let pagePhyAddr ← v2p vaddr s
  massert (pagePhyAddr % 4096 = 0 ∧ 0x102000#32 ≤ pagePhyAddr) .pagePhyAddr
  let s ← mfreeLoop (poolOf pagePhyAddr s) pageCnt vaddr s
  return vaddrRemove pf vaddr pageCnt s

/-- A result `NULL` of `palloc` is taken for the address 0. -/
def pageTableAdd (vaddr pagePhyAddr : Word) (s : Memory) : Except Trap Memory := do
  let pde ← s.load (pdePtr vaddr)
  let s ← if present pde then pure s
    else do
      let (pdePhyAddr, memPool) := palloc s.kernelPool
      let s ← { s with kernelPool := memPool }.store (pdePtr vaddr) (pdePhyAddr.getD 0 ||| 7#32)
      memset (ptePtr vaddr &&& 0xfffff000#32) 0 4096 s
  let pte ← s.load (ptePtr vaddr)
  massert (!present pte) .pte
  s.store (ptePtr vaddr) (pagePhyAddr ||| 7#32)

/-- The loop of `mallocPage`; `false` when no frame is left. -/
def mallocLoop (pf : PoolFlags) : Nat → Word → Memory → Except Trap (Bool × Memory)
  | 0, _, s => .ok (true, s)
  | n + 1, vaddr, s =>
      match palloc (s.pool pf) with
      | (none, _) => .ok (false, s)
      | (some pagePhyAddr, memPool) => do
          let s ← pageTableAdd vaddr pagePhyAddr (s.setPool pf memPool)
          mallocLoop pf n (vaddr + 4096) s

/-- `none` is the result `NULL`. -/
def mallocPage (pf : PoolFlags) (pgCnt : Nat) (s : Memory) : Except Trap (Option Word × Memory) := do
  massert (0 < pgCnt ∧ pgCnt < 3840) .pgCnt
  let (vaddrStart, s) ← vaddrGet pf pgCnt s
  match vaddrStart with
  | none => return (none, s)
  | some vaddrStart =>
      let (done, s) ← mallocLoop pf pgCnt vaddrStart s
      return (if done then some vaddrStart else none, s)

def getKernelPages (pgCnt : Nat) (s : Memory) : Except Trap (Option Word × Memory) := do
  let (vaddr, s) ← mallocPage .kernel pgCnt s
  match vaddr with
  | none => return (none, s)
  | some vaddr =>
      let s ← memset vaddr 0 (pgCnt * 4096) s
      return (some vaddr, s)

/-- The flag fits the caller: a user process asks for user pages, a kernel thread for kernel pages. -/
def Memory.Serves (s : Memory) (pf : PoolFlags) : Prop :=
  ((s.task s.cur).pageDir ≠ 0 ∧ pf = .user) ∨ ((s.task s.cur).pageDir = 0 ∧ pf = .kernel)

instance (s : Memory) (pf : PoolFlags) : Decidable (s.Serves pf) :=
  inferInstanceAs (Decidable (_ ∨ _))

/-- On its way out with `NULL` the code keeps the lock. -/
def getPage (pf : PoolFlags) (vaddr : Word) (s : Memory) : Except Trap (Option Word × Memory) := do
  let s ← lockAcquire pf s
  massert (s.Serves pf) .getPage
  let bitIdx := ((vaddr - (s.vaddr pf).vaddrStart) / 4096).toNat
  massert (0 < bitIdx) .bitIdx
  let s := s.setVaddrBitmap pf (bitmapSet (s.vaddr pf).vaddrBitmap bitIdx true)
  match palloc (s.pool pf) with
  | (none, _) => return (none, s)
  | (some pagePhyAddr, memPool) =>
      let s ← pageTableAdd vaddr pagePhyAddr (s.setPool pf memPool)
      let s ← lockRelease pf s
      return (some vaddr, s)

def memPoolInit (memCapacity : Word) (s : Memory) : Memory :=
  let pageTableSize : Word := 4096 * 256
  let usedMemory : Word := 0x100000 + pageTableSize
  let freeMemory := memCapacity - usedMemory
  let allFreePages : BitVec 16 := (freeMemory / 4096).setWidth 16
  let kernelFreePages : BitVec 16 := allFreePages / 2
  let userFreePages : BitVec 16 := allFreePages - kernelFreePages
  let kbmLength := kernelFreePages.toNat / 8
  let ubmLength := userFreePages.toNat / 8
  let kPhyStart := usedMemory
  let uPhyStart := kPhyStart + kernelFreePages.setWidth 32 * 4096
  { s with
    holder := fun _ => none
    kernelPool :=
      { paddrStart := kPhyStart
        poolSize := kernelFreePages.setWidth 32 * 4096
        poolBitmap := bitmapInit { s.kernelPool.poolBitmap with size := kbmLength } }
    userPool :=
      { paddrStart := uPhyStart
        poolSize := userFreePages.setWidth 32 * 4096
        poolBitmap := bitmapInit { s.userPool.poolBitmap with size := ubmLength } }
    kernelVaddr :=
      { vaddrStart := 0xc0100000
        vaddrBitmap := bitmapInit { s.kernelVaddr.vaddrBitmap with size := kbmLength } } }

end HoloOS
