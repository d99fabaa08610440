import HoloOS.MemoryContents

/-! The state in which the kernel starts: the directory and the page table that `pageSetup`
(`boot/loader.S`) writes with paging off, and the pools that `memPoolInit` makes of a memory
capacity. -/

namespace HoloOS

open Function Paging

/-- `n` stores of a word from `a` on, `inc` being added to the word each time. -/
def storeLoop (inc : Word) : Nat → Nat → Word → Mem → Mem
  | 0, _, _, m => m
  | n + 1, a, w, m => storeLoop inc n (a + 4) (w + inc) (write m a w)

def pageSetup (m : Mem) : Mem :=
  let m := storeLoop 0 1024 0x100000 0 m
  let eax : Word := (0x100000 + 0x1000) ||| 7#32
  let m := write m 0x100000 eax
  let m := write m (0x100000 + 0x300 * 4) eax
  let m := storeLoop 0x1000 256 (0x100000 + 0x1000) (0 ||| 7#32) m
  let m := storeLoop 0 768 (0x100000 + 0x1000 + 1024) 0 m
  -- the offset of the entries of the kernel is 0x301, not 0x301 * 4
  let m := storeLoop 0x1000 0xfe (0x100000 + 0x301) ((0x100000 + 0x2000) ||| 7#32) m
  let m := storeLoop 0 (254 * 1024) (0x100000 + 0x1000 + 0x2000) 0 m
  write m (0x100000 + 0x3ff * 4) (0x100000 ||| 7#32)

theorem storeLoop_outside (inc : Word) (n : Nat) {a b : Nat} (w : Word) (m : Mem)
    (h : b < a ∨ a + 4 * n ≤ b) : storeLoop inc n a w m b = m b := by
  induction n generalizing a w m with
  | zero => rfl
  | succ n ih =>
      rw [storeLoop, ih _ _ (by omega), write, if_neg (by omega)]

/-- The bytes that the loop writes. -/
theorem storeLoop_inside (inc : Word) (n : Nat) {a k j : Nat} (w : Word) (m : Mem) (hk : k < n)
    (hj : j < 4) : storeLoop inc n a w m (a + 4 * k + j) =
      (w + BitVec.ofNat 32 k * inc).extractLsb' (8 * j) 8 := by
  induction n generalizing a k w m with
  | zero => omega
  | succ n ih =>
      rw [storeLoop]
      cases k with
      | zero =>
          rw [storeLoop_outside inc n _ _ (by omega), write, if_pos ⟨by omega, by omega⟩]
          simp [show a + j - a = j by omega]
      | succ k =>
          rw [show a + 4 * (k + 1) + j = a + 4 + 4 * k + j by omega, ih _ _ (by omega)]
          congr 1
          rw [BitVec.ofNat_add, BitVec.add_mul, BitVec.add_assoc, BitVec.add_comm (BitVec.ofNat 32 k * inc)]
          simp

theorem storeLoop_read (inc : Word) (n : Nat) {a k : Nat} (w : Word) (m : Mem) (hk : k < n) :
    read (storeLoop inc n a w m) (a + 4 * k) = w + BitVec.ofNat 32 k * inc := by
  have hbyte := fun j (hj : j < 4) => storeLoop_inside inc n (a := a) w m hk hj
  rw [← read_write_self m (a + 4 * k) (w + BitVec.ofNat 32 k * inc)]
  apply read_congr
  intro b hb hlt
  have hj := hbyte (b - (a + 4 * k)) (by omega)
  rw [show a + 4 * k + (b - (a + 4 * k)) = b by omega] at hj
  rw [hj, write, if_pos ⟨hb, hlt⟩]

theorem storeLoop_read_apart (inc : Word) (n : Nat) {a b : Nat} (w : Word) (m : Mem)
    (h : b + 4 ≤ a ∨ a + 4 * n ≤ b) : read (storeLoop inc n a w m) b = read m b := by
  apply read_congr
  intro c hc hlt
  exact storeLoop_outside inc n w m (by omega)

/-- The page tables at the start of the kernel: the first 1 MB is mapped at 0 and at 0xc0000000. -/
structure BootPages (m : Mem) : Prop where
  first : entry m kernelDir 768 = some firstTable
  self : entry m kernelDir 1023 = some kernelDir
  absent : ∀ i, 0 < i → i < 1023 → i ≠ 768 → entry m kernelDir i = none
  low : ∀ j < 256, entry m firstTable j = some (j * 4096)
  high : ∀ j, 256 ≤ j → j < 1024 → entry m firstTable j = none

theorem entry_of_present {m : Mem} {base i : Nat} (h : present (read m (base + 4 * i)) = false) :
    entry m base i = none := by
  rw [entry, h]
  rfl

/-- The entries that `pageSetup` leaves, in the order in which it writes them. -/
theorem pageSetup_bootPages (m : Mem) : BootPages (pageSetup m) := by
  rw [pageSetup]
  set m₁ := storeLoop 0 1024 0x100000 0 m with hm₁
  set m₂ := write m₁ 0x100000 ((0x100000 + 0x1000) ||| 7#32) with hm₂
  set m₃ := write m₂ (0x100000 + 0x300 * 4) ((0x100000 + 0x1000) ||| 7#32) with hm₃
  set m₄ := storeLoop 0x1000 256 (0x100000 + 0x1000) (0 ||| 7#32) m₃ with hm₄
  set m₅ := storeLoop 0 768 (0x100000 + 0x1000 + 1024) 0 m₄ with hm₅
  set m₆ := storeLoop 0x1000 0xfe (0x100000 + 0x301) ((0x100000 + 0x2000) ||| 7#32) m₅ with hm₆
  set m₇ := storeLoop 0 (254 * 1024) (0x100000 + 0x1000 + 0x2000) 0 m₆ with hm₇
  set m₈ := write m₇ (0x100000 + 0x3ff * 4) (0x100000 ||| 7#32) with hm₈
  have hzero : ∀ i, 0 < i → i < 1024 → i ≠ 768 → read m₅ (kernelDir + 4 * i) = 0 := by
    intro i hpos hlt hne
    unfold kernelDir
    rw [hm₅, storeLoop_read_apart _ _ _ _ (by omega), hm₄, storeLoop_read_apart _ _ _ _ (by omega),
      hm₃, read_write_apart _ _ (by omega), hm₂, read_write_apart _ _ (by omega), hm₁,
      storeLoop_read _ _ _ _ hlt]
    simp
  -- a store at an odd offset puts the high byte of its word, which is 0, on the P bit
  have habsent : ∀ i, 0 < i → i < 1024 → i ≠ 768 → present (read m₆ (kernelDir + 4 * i)) = false := by
    intro i hpos hlt hne
    have hold := congrArg present (hzero i hpos hlt hne)
    rw [present_read] at hold ⊢
    unfold kernelDir at hold ⊢
    by_cases hin : 193 ≤ i ∧ i < 447
    · have haddr : 0x100000 + 4 * i = 0x100000 + 0x301 + 4 * (i - 193) + 3 := by omega
      rw [haddr, hm₆, storeLoop_inside _ _ _ _ (by omega) (by omega)]
      have hall : ∀ k < 254, BitVec.getLsbD (BitVec.extractLsb' (8 * 3) 8
          ((((0x100000 + 0x2000) ||| 7#32) : Word) + BitVec.ofNat 32 k * 0x1000)) 0 = false := by
        decide +kernel
      exact hall _ (by omega)
    · rw [hm₆, storeLoop_outside _ _ _ _ (by omega)]
      exact hold
  have hdir : ∀ i, 0 < i → i < 1023 → i ≠ 768 → entry m₈ kernelDir i = none := by
    intro i hpos hlt hne
    have hread : read m₈ (kernelDir + 4 * i) = read m₆ (kernelDir + 4 * i) := by
      unfold kernelDir
      rw [hm₈, read_write_apart _ _ (by omega), hm₇, storeLoop_read_apart _ _ _ _ (by omega)]
    apply entry_of_present
    rw [hread]
    exact habsent i hpos (by omega) hne
  have hword : ((0x100000 + 0x1000) ||| 7#32 : Word) = (0x101000#32 : Word) ||| 7#32 := rfl
  have hlast : ∀ b, 0x101000 ≤ b → b < 0x102000 → read m₈ b = read m₅ b ∨ b + 4 > 0x102000 := by
    intro b hb hlt
    by_cases hfit : b + 4 ≤ 0x102000
    · left
      rw [hm₈, read_write_apart _ _ (by omega), hm₇, storeLoop_read_apart _ _ _ _ (by omega), hm₆,
        storeLoop_read_apart _ _ _ _ (by omega)]
    · exact Or.inr (by omega)
  refine ⟨?_, ?_, hdir, ?_, ?_⟩
  · refine entry_of_read (p := 0x101000#32) rfl ?_
    unfold kernelDir
    rw [hm₈, read_write_apart _ _ (by omega), hm₇, storeLoop_read_apart _ _ _ _ (by omega), hm₆,
      storeLoop_read_apart _ _ _ _ (by omega), hm₅, storeLoop_read_apart _ _ _ _ (by omega), hm₄,
      storeLoop_read_apart _ _ _ _ (by omega), hm₃]
    exact read_write_self m₂ _ _
  · exact entry_of_read (p := 0x100000#32) rfl (read_write_self m₇ _ _)
  · intro j hj
    have hread : read m₈ (firstTable + 4 * j) = BitVec.ofNat 32 (j * 4096) ||| 7#32 := by
      unfold firstTable
      rcases hlast (0x101000 + 4 * j) (by omega) (by omega) with he | he
      · rw [he, hm₅, storeLoop_read_apart _ _ _ _ (by omega), hm₄, storeLoop_read _ _ _ _ hj]
        have hall : ∀ k < 256, (0 ||| 7#32 : Word) + BitVec.ofNat 32 k * 0x1000 =
            BitVec.ofNat 32 (k * 4096) ||| 7#32 := by
          decide +kernel
        exact hall j hj
      · omega
    have hnat : (BitVec.ofNat 32 (j * 4096)).toNat = j * 4096 := by
      rw [BitVec.toNat_ofNat]
      omega
    rw [entry_of_read (by rw [hnat]; omega) hread, hnat]
  · intro j hj hlt
    apply entry_of_read_zero
    unfold firstTable
    rcases hlast (0x101000 + 4 * j) (by omega) (by omega) with he | he
    · have haddr : 0x101000 + 4 * j = 0x100000 + 0x1000 + 1024 + 4 * (j - 256) := by omega
      rw [he, haddr, hm₅, storeLoop_read _ _ _ _ (by omega)]
      simp
    · omega

/-- The entry of the first 4 MB points to the page table that is also the kernel's. -/
theorem pageSetup_zero (m : Mem) : entry (pageSetup m) kernelDir 0 = some firstTable := by
  refine entry_of_read (p := 0x101000#32) rfl ?_
  unfold kernelDir pageSetup
  rw [read_write_apart _ _ (by omega), storeLoop_read_apart _ _ _ _ (by omega),
    storeLoop_read_apart _ _ _ _ (by omega), storeLoop_read_apart _ _ _ _ (by omega),
    storeLoop_read_apart _ _ _ _ (by omega), read_write_apart _ _ (by omega)]
  exact read_write_self _ _ _

/-- Memory with the directory and the first page table of `pageSetup`, whatever else has been loaded. -/
def Loaded (m : Mem) : Prop :=
  ∃ m₀, ∀ b, 0x100000 ≤ b → b < 0x102000 → m b = pageSetup m₀ b

theorem Loaded.bootPages {m : Mem} (h : Loaded m) : BootPages m := by
  obtain ⟨m₀, hsame⟩ := h
  have hdir : ∀ i < 1024, entry m kernelDir i = entry (pageSetup m₀) kernelDir i := by
    intro i hi
    exact entry_congr hi fun b hb hlt => hsame b hb (by unfold kernelDir at hlt; omega)
  have htable : ∀ i < 1024, entry m firstTable i = entry (pageSetup m₀) firstTable i := by
    intro i hi
    exact entry_congr hi fun b hb hlt => hsame b (by unfold firstTable at hb; omega) hlt
  have hboot := pageSetup_bootPages m₀
  exact ⟨(hdir 768 (by decide)).trans hboot.first, (hdir 1023 (by decide)).trans hboot.self,
    fun i hpos hlt hne => (hdir i (by omega)).trans (hboot.absent i hpos hlt hne),
    fun j hj => (htable j (by omega)).trans (hboot.low j hj),
    fun j hj hlt => (htable j hlt).trans (hboot.high j hj hlt)⟩

theorem Loaded.zero {m : Mem} (h : Loaded m) : entry m kernelDir 0 = some firstTable := by
  obtain ⟨m₀, hsame⟩ := h
  rw [← pageSetup_zero m₀]
  exact entry_congr (by decide) fun b hb hlt => hsame b hb (by unfold kernelDir at hlt; omega)

/-- The address of the `taskStruct` of the main thread. -/
def mainTask : Tid := 0xc009e000

/-- The main thread after `memInit`, with a memory of `memCapacity` bytes. -/
def Memory.boot (m : Mem) (memCapacity : Word) : Memory :=
  memPoolInit memCapacity
    { mem := m
      cr3 := kernelDir
      tlb := fun _ => none
      kernelPool := ⟨⟨fun _ => 0, 0⟩, 0, 0⟩
      userPool := ⟨⟨fun _ => 0, 0⟩, 0, 0⟩
      kernelVaddr := ⟨⟨fun _ => 0, 0⟩, 0⟩
      task := fun _ => ⟨0, ⟨⟨fun _ => 0, 0⟩, 0⟩⟩
      cur := mainTask
      holder := fun _ => none }

/-- The pages of a pool, as `memPoolInit` divides the capacity. -/
def kernelFreePages (memCapacity : Word) : BitVec 16 :=
  ((memCapacity - (0x100000 + 4096 * 256)) / 4096).setWidth 16 / 2

def userFreePages (memCapacity : Word) : BitVec 16 :=
  ((memCapacity - (0x100000 + 4096 * 256)) / 4096).setWidth 16 - kernelFreePages memCapacity

theorem boot_layout (m : Mem) (memCapacity : Word) : Layout (Memory.boot m memCapacity) := by
  set kfp := kernelFreePages memCapacity with hkfp
  set ufp := userFreePages memCapacity with hufp
  have hk := kfp.isLt
  have hu := ufp.isLt
  have hhalf : 2 * kfp.toNat < 2 ^ 16 := by
    have hall := (((memCapacity - (0x100000 + 4096 * 256)) / 4096).setWidth 16).isLt
    rw [hkfp, kernelFreePages, BitVec.toNat_udiv, show (2 : BitVec 16).toNat = 2 from rfl]
    omega
  have hsum : kfp.toNat + ufp.toNat < 2 ^ 16 := by
    have hall := (((memCapacity - (0x100000 + 4096 * 256)) / 4096).setWidth 16).isLt
    have hle : kfp ≤ ((memCapacity - (0x100000 + 4096 * 256)) / 4096).setWidth 16 := by
      rw [BitVec.le_def, hkfp, kernelFreePages, BitVec.toNat_udiv]
      exact Nat.div_le_self _ _
    rw [hufp, userFreePages, BitVec.toNat_sub_of_le hle]
    rw [BitVec.le_def] at hle
    omega
  have hstart : (Memory.boot m memCapacity).userPool.paddrStart.toNat = 0x200000 + kfp.toNat * 4096 := by
    change ((0x200000 : Word) + kfp.setWidth 32 * 4096).toNat = _
    rw [BitVec.toNat_add, BitVec.toNat_mul, BitVec.toNat_setWidth]
    have hword : (4096 : Word).toNat = 4096 := rfl
    have hword' : (0x200000 : Word).toNat = 0x200000 := rfl
    rw [hword, hword']
    omega
  have hksize : (Memory.boot m memCapacity).kernelPool.poolBitmap.size = kfp.toNat / 8 := rfl
  have husize : (Memory.boot m memCapacity).userPool.poolBitmap.size = ufp.toNat / 8 := rfl
  have hvsize : (Memory.boot m memCapacity).kernelVaddr.vaddrBitmap.size = kfp.toNat / 8 := rfl
  have hkstart : (Memory.boot m memCapacity).kernelPool.paddrStart.toNat = 0x200000 := rfl
  refine ⟨hkstart, ?_, by omega, ?_, rfl, by omega, fun t ht => absurd rfl ht⟩
  · rw [Pool.stop, hkstart, hksize, hstart]
    omega
  · rw [Pool.stop, hstart, husize]
    omega

/-- No page of the heap is mapped at the start. -/
theorem boot_unmapped {m : Mem} (h : BootPages m) {n : Nat} (hlo : 0xc0100 ≤ n) (hhi : n < 0xffc00) :
    mapped m kernelDir n = none := by
  rw [mapped]
  by_cases he : n / 1024 = 768
  · rw [he, h.first]
    exact h.high _ (by omega) (by omega)
  · rw [h.absent _ (by omega) (by omega) he]
    rfl

theorem boot_tables {m : Mem} (h : BootPages m) (memCapacity : Word) :
    Tables (Memory.boot m memCapacity) fun _ => kernelDir := by
  have hlayout := boot_layout m memCapacity
  have hnone : ∀ t, ¬(Memory.boot m memCapacity).IsProcess t := fun t ht => ht rfl
  have hpage : ∀ sp n, Space.Heap (Memory.boot m memCapacity) sp n →
      mapped (Memory.boot m memCapacity).mem kernelDir n = none := by
    intro sp n hn
    cases sp with
    | process t => exact absurd hn.1 (hnone t)
    | kernel =>
        have hfit := hlayout.vfit
        exact boot_unmapped h hn.1 (by have := hn.2; omega)
  have hframe : ∀ o : Owner, o.Valid (Memory.boot m memCapacity) →
      o.frame (Memory.boot m memCapacity).mem (fun _ => kernelDir) = none := by
    intro o ho
    cases o with
    | page sp n => exact hpage sp n ho
    | table sp i =>
        cases sp with
        | process t => exact absurd ho.1 (hnone t)
        | kernel =>
            obtain ⟨hlo, hhi⟩ := ho
            exact h.absent i (by omega) hhi (by omega)
  refine { hlayout with
    dir_kernel := rfl, first := h.first, cr3 := rfl, self := ?_, dir_heap := ?_, dir_inj := ?_
    shared := ?_, used := ?_, inj := ?_, clear := ?_ }
  · intro sp hsp
    cases sp with
    | kernel => exact h.self
    | process t => exact absurd hsp (hnone t)
  · exact fun t ht => absurd ht (hnone t)
  · exact fun t u ht => absurd ht (hnone t)
  · exact fun t i ht => absurd ht (hnone t)
  · intro o f ho hf
    rw [hframe o ho] at hf
    cases hf
  · intro o o' f ho ho' hf
    rw [hframe o ho] at hf
    cases hf
  · exact fun sp n hn _ => hpage sp n hn

end HoloOS
