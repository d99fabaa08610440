import HoloOS.MemoryBoot

/-! What `memPoolInit` computes from the installed memory: the frames of the two pools, the bytes of the
three bitmaps and the pages of the kernel heap, for every capacity. -/

namespace HoloOS

open Function Paging

/-- The local variables of `memPoolInit` and the fields it sets, with the addresses of the bitmaps. -/
structure PoolLayout where
  usedMemory : Word
  freeMemory : Word
  allFreePages : BitVec 16
  kernelFreePages : BitVec 16
  userFreePages : BitVec 16
  kbmLength : Word
  ubmLength : Word
  kPhyStart : Word
  uPhyStart : Word
  kernelPoolSize : Word
  userPoolSize : Word
  kernelBits : Word
  userBits : Word
  vaddrBits : Word

def memBitmapBase : Word := 0xc009a000

def poolLayout (memCapacity : Word) : PoolLayout :=
  let pageTableSize : Word := 4096 * 256
  let usedMemory : Word := 0x100000 + pageTableSize
  let freeMemory := memCapacity - usedMemory
  let allFreePages : BitVec 16 := (freeMemory / 4096).setWidth 16
  let kernelFreePages : BitVec 16 := allFreePages / 2
  let userFreePages : BitVec 16 := allFreePages - kernelFreePages
  let kbmLength : Word := (kernelFreePages / 8).setWidth 32
  let ubmLength : Word := (userFreePages / 8).setWidth 32
  let kPhyStart := usedMemory
  let uPhyStart := kPhyStart + kernelFreePages.setWidth 32 * 4096
  { usedMemory, freeMemory, allFreePages, kernelFreePages, userFreePages, kbmLength, ubmLength, kPhyStart
    uPhyStart
    kernelPoolSize := kernelFreePages.setWidth 32 * 4096
    userPoolSize := userFreePages.setWidth 32 * 4096
    kernelBits := memBitmapBase
    userBits := memBitmapBase + kbmLength
    vaddrBits := memBitmapBase + kbmLength + ubmLength }

variable {memCapacity : Word} {s : Memory}

/-- The pools of `memPoolInit` are those of the layout. -/
theorem memPoolInit_eq (memCapacity : Word) (s : Memory) :
    (memPoolInit memCapacity s).kernelPool.paddrStart = (poolLayout memCapacity).kPhyStart ∧
      (memPoolInit memCapacity s).userPool.paddrStart = (poolLayout memCapacity).uPhyStart ∧
      (memPoolInit memCapacity s).kernelPool.poolBitmap.size = (poolLayout memCapacity).kbmLength.toNat ∧
      (memPoolInit memCapacity s).userPool.poolBitmap.size = (poolLayout memCapacity).ubmLength.toNat ∧
      (memPoolInit memCapacity s).kernelVaddr.vaddrBitmap.size = (poolLayout memCapacity).kbmLength.toNat := by
  have hlength : ∀ pages : BitVec 16, ((pages / 8).setWidth 32).toNat = pages.toNat / 8 := by
    intro pages
    have hlt := pages.isLt
    rw [BitVec.toNat_setWidth, BitVec.toNat_udiv, show (8 : BitVec 16).toNat = 8 from rfl]
    omega
  refine ⟨rfl, rfl, ?_, ?_, ?_⟩
  · exact (hlength _).symm
  · exact (hlength _).symm
  · exact (hlength _).symm

/-- The counts of pages, as numbers. -/
structure PageCounts (memCapacity : Word) : Prop where
  all : (poolLayout memCapacity).allFreePages.toNat = (memCapacity.toNat - 0x200000) / 4096 % 2 ^ 16
  kernel : (poolLayout memCapacity).kernelFreePages.toNat = (poolLayout memCapacity).allFreePages.toNat / 2
  user : (poolLayout memCapacity).userFreePages.toNat =
    (poolLayout memCapacity).allFreePages.toNat - (poolLayout memCapacity).kernelFreePages.toNat
  kbm : (poolLayout memCapacity).kbmLength.toNat = (poolLayout memCapacity).kernelFreePages.toNat / 8
  ubm : (poolLayout memCapacity).ubmLength.toNat = (poolLayout memCapacity).userFreePages.toNat / 8

theorem pageCounts (h : 0x200000 ≤ memCapacity.toNat) : PageCounts memCapacity := by
  have hlength : ∀ pages : BitVec 16, ((pages / 8).setWidth 32).toNat = pages.toNat / 8 := by
    intro pages
    have hlt := pages.isLt
    rw [BitVec.toNat_setWidth, BitVec.toNat_udiv, show (8 : BitVec 16).toNat = 8 from rfl]
    omega
  have hhalf : ∀ pages : BitVec 16, (pages / 2).toNat = pages.toNat / 2 := by
    intro pages
    rw [BitVec.toNat_udiv]
    rfl
  refine ⟨?_, hhalf _, ?_, hlength _, hlength _⟩
  · change (((memCapacity - 0x200000) / 4096 : Word).setWidth 16).toNat = _
    have hle : (0x200000 : Word) ≤ memCapacity := BitVec.le_def.2 h
    rw [BitVec.toNat_setWidth, BitVec.toNat_udiv, BitVec.toNat_sub_of_le hle]
    rfl
  · change ((poolLayout memCapacity).allFreePages - (poolLayout memCapacity).allFreePages / 2).toNat = _
    rw [BitVec.toNat_sub_of_le]
    · rfl
    · rw [BitVec.le_def, hhalf]
      omega

/-- No addition and no multiplication of `memPoolInit` wraps. -/
structure NoWrap (memCapacity : Word) : Prop where
  usedMemory : (poolLayout memCapacity).usedMemory.toNat = 0x100000 + 4096 * 256
  uPhyStart : (poolLayout memCapacity).uPhyStart.toNat =
    (poolLayout memCapacity).kPhyStart.toNat + (poolLayout memCapacity).kernelFreePages.toNat * 4096
  kernelPoolSize : (poolLayout memCapacity).kernelPoolSize.toNat =
    (poolLayout memCapacity).kernelFreePages.toNat * 4096
  userPoolSize : (poolLayout memCapacity).userPoolSize.toNat =
    (poolLayout memCapacity).userFreePages.toNat * 4096
  userBits : (poolLayout memCapacity).userBits.toNat =
    (poolLayout memCapacity).kernelBits.toNat + (poolLayout memCapacity).kbmLength.toNat
  vaddrBits : (poolLayout memCapacity).vaddrBits.toNat =
    (poolLayout memCapacity).userBits.toNat + (poolLayout memCapacity).ubmLength.toNat

theorem PageCounts.noWrap (h : PageCounts memCapacity) : NoWrap memCapacity := by
  obtain ⟨hall, hkernel, huser, hkbm, hubm⟩ := h
  have hlt := (poolLayout memCapacity).allFreePages.isLt
  have hbytes : ∀ pages : BitVec 16, (pages.setWidth 32 * 4096 : Word).toNat = pages.toNat * 4096 := by
    intro pages
    have hpages := pages.isLt
    rw [BitVec.toNat_mul, BitVec.toNat_setWidth, show (4096 : Word).toNat = 4096 from rfl]
    omega
  have hbase : memBitmapBase.toNat = 0xc009a000 := rfl
  have huserBits : (poolLayout memCapacity).userBits.toNat =
      memBitmapBase.toNat + (poolLayout memCapacity).kbmLength.toNat := by
    change (memBitmapBase + (poolLayout memCapacity).kbmLength).toNat = _
    rw [BitVec.toNat_add]
    omega
  refine ⟨rfl, ?_, hbytes _, hbytes _, huserBits, ?_⟩
  · change ((0x200000 : Word) + (poolLayout memCapacity).kernelFreePages.setWidth 32 * 4096).toNat =
      0x200000 + _
    rw [BitVec.toNat_add, hbytes, show (0x200000 : Word).toNat = 0x200000 from rfl]
    omega
  · change ((poolLayout memCapacity).userBits + (poolLayout memCapacity).ubmLength).toNat = _
    rw [BitVec.toNat_add]
    omega

/-- The frame of bit `i`. -/
def Pool.frameAt (pool : Pool) (i : Nat) : Nat := pool.paddrStart.toNat + 4096 * i

/-- What the rest of the allocator relies on. -/
structure LayoutSafe (memCapacity : Word) (s : Memory) : Prop where
  kernelFrames : ∀ i < s.kernelPool.poolBitmap.size * 8, 0x200000 ≤ s.kernelPool.frameAt i ∧
    s.kernelPool.frameAt i + 4096 ≤ s.userPool.paddrStart.toNat
  userFrames : ∀ i < s.userPool.poolBitmap.size * 8, s.userPool.paddrStart.toNat ≤ s.userPool.frameAt i ∧
    s.userPool.frameAt i + 4096 ≤ memCapacity.toNat
  inside : s.userPool.paddrStart.toNat ≤ memCapacity.toNat
  poolOf : ∀ pf, ∀ i < (s.pool pf).poolBitmap.size * 8,
    poolOf (BitVec.ofNat 32 ((s.pool pf).frameAt i)) s = pf
  bitmaps : 0xc009a000 ≤ (poolLayout memCapacity).kernelBits.toNat ∧
    (poolLayout memCapacity).kernelBits.toNat + s.kernelPool.poolBitmap.size ≤
      (poolLayout memCapacity).userBits.toNat ∧
    (poolLayout memCapacity).userBits.toNat + s.userPool.poolBitmap.size ≤
      (poolLayout memCapacity).vaddrBits.toNat ∧
    (poolLayout memCapacity).vaddrBits.toNat + s.kernelVaddr.vaddrBitmap.size ≤ 0xc009e000
  heap : s.kernelVaddr.vaddrStart.toNat + s.kernelVaddr.vaddrBitmap.size * 8 * 4096 ≤ 0xffc00000
  noWrap : NoWrap memCapacity

/-- For every capacity from 2 MB on. -/
theorem memPoolInit_safe (s : Memory) (h : 0x200000 ≤ memCapacity.toNat) :
    LayoutSafe memCapacity (memPoolInit memCapacity s) := by
  have hcounts := pageCounts h
  have hwrap := hcounts.noWrap
  obtain ⟨hkstart, hustart, hksize, husize, hvsize⟩ := memPoolInit_eq memCapacity s
  obtain ⟨hall, hkernel, huser, hkbm, hubm⟩ := hcounts
  have hlt := (poolLayout memCapacity).allFreePages.isLt
  have hk : (memPoolInit memCapacity s).kernelPool.paddrStart.toNat = 0x200000 := rfl
  have hu : (memPoolInit memCapacity s).userPool.paddrStart.toNat =
      0x200000 + (poolLayout memCapacity).kernelFreePages.toNat * 4096 := by
    rw [hustart]
    exact hwrap.uPhyStart
  have hcapacity := memCapacity.isLt
  refine ⟨fun i hi => ?_, fun i hi => ?_, ?_, fun pf i hi => ?_, ?_, ?_, hwrap⟩
  · rw [hksize] at hi
    rw [Pool.frameAt, hk, hu]
    omega
  · rw [husize] at hi
    rw [Pool.frameAt, hu]
    omega
  · rw [hu]
    omega
  · unfold HoloOS.poolOf
    cases pf with
    | kernel =>
        change i < (memPoolInit memCapacity s).kernelPool.poolBitmap.size * 8 at hi
        change (if (memPoolInit memCapacity s).userPool.paddrStart ≤
          BitVec.ofNat 32 ((memPoolInit memCapacity s).kernelPool.frameAt i) then _ else _) = _
        rw [if_neg]
        rw [BitVec.le_def, BitVec.toNat_ofNat, Pool.frameAt, hk, hu]
        omega
    | user =>
        change i < (memPoolInit memCapacity s).userPool.poolBitmap.size * 8 at hi
        change (if (memPoolInit memCapacity s).userPool.paddrStart ≤
          BitVec.ofNat 32 ((memPoolInit memCapacity s).userPool.frameAt i) then _ else _) = _
        rw [if_pos]
        rw [BitVec.le_def, BitVec.toNat_ofNat, Pool.frameAt, hu]
        omega
  · have huserBits := hwrap.userBits
    have hvaddrBits := hwrap.vaddrBits
    have hbits : (poolLayout memCapacity).kernelBits.toNat = 0xc009a000 := rfl
    rw [hksize, husize, hvsize]
    omega
  · rw [hvsize]
    change 0xc0100000 + (poolLayout memCapacity).kbmLength.toNat * 8 * 4096 ≤ 0xffc00000
    omega

theorem memPoolInit_safe_32MB : LayoutSafe 0x2000000 (Memory.boot (fun _ => 0) 0x2000000) :=
  memPoolInit_safe _ (by decide)

/-- The whole frames above the first 2 MB. -/
def freeFrames (memCapacity : Word) : Nat := (memCapacity.toNat - 0x200000) / 4096

/-- Each pool loses at most 7 frames to whole bytes, and they are of the same size but for 8 frames. -/
def PoolsCover (memCapacity : Word) (s : Memory) : Prop :=
  freeFrames memCapacity ≤ s.kernelPool.poolBitmap.size * 8 + s.userPool.poolBitmap.size * 8 + 14 ∧
    s.kernelPool.poolBitmap.size * 8 ≤ s.userPool.poolBitmap.size * 8 + 8 ∧
    s.userPool.poolBitmap.size * 8 ≤ s.kernelPool.poolBitmap.size * 8 + 8

/-- Up to 512 MB, the pools cover the memory exactly when the number of frames fits in 16 bits. -/
theorem memPoolInit_covers_iff (s : Memory) (hlo : 0x200000 ≤ memCapacity.toNat)
    (hhi : memCapacity.toNat ≤ 512 * 2 ^ 20) :
    PoolsCover memCapacity (memPoolInit memCapacity s) ↔ memCapacity.toNat < 0x200000 + 2 ^ 16 * 4096 := by
  obtain ⟨-, -, hksize, husize, -⟩ := memPoolInit_eq memCapacity s
  obtain ⟨hall, hkernel, huser, hkbm, hubm⟩ := pageCounts hlo
  have hframes : freeFrames memCapacity < 2 * 2 ^ 16 := by
    unfold freeFrames
    omega
  unfold PoolsCover
  rw [hksize, husize]
  change _ = freeFrames memCapacity % 2 ^ 16 at hall
  have hiff : memCapacity.toNat < 0x200000 + 2 ^ 16 * 4096 ↔ freeFrames memCapacity < 2 ^ 16 := by
    unfold freeFrames
    omega
  rw [hiff]
  constructor
  · rintro ⟨hcover, -, -⟩
    by_contra hbig
    omega
  · intro hsmall
    rw [Nat.mod_eq_of_lt hsmall] at hall
    exact ⟨by omega, by omega, by omega⟩

theorem memPoolInit_covers_32MB : PoolsCover 0x2000000 (Memory.boot (fun _ => 0) 0x2000000) :=
  (memPoolInit_covers_iff _ (by decide) (by decide)).2 (by decide)

/-- With 258 MB the count of frames is 2 ^ 16, and none is left of it. -/
theorem memPoolInit_not_covers :
    freeFrames 0x10200000 = 65536 ∧ (Memory.boot (fun _ => 0) 0x10200000).kernelPool.poolBitmap.size = 0 ∧
      (Memory.boot (fun _ => 0) 0x10200000).userPool.poolBitmap.size = 0 ∧
      ¬PoolsCover 0x10200000 (Memory.boot (fun _ => 0) 0x10200000) := by
  have hframes : freeFrames 0x10200000 = 65536 := by decide
  have hkernel : (Memory.boot (fun _ => 0) 0x10200000).kernelPool.poolBitmap.size = 0 := by decide
  have huser : (Memory.boot (fun _ => 0) 0x10200000).userPool.poolBitmap.size = 0 := by decide
  refine ⟨hframes, hkernel, huser, fun hcover => ?_⟩
  have hle := hcover.1
  rw [hframes, hkernel, huser] at hle
  omega

end HoloOS
