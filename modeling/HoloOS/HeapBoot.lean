import HoloOS.HeapRuns
import HoloOS.MemoryPacked

/-! The first heap: after `memInit` the kernel has descriptors and empty free lists, and there is no other space. -/

namespace HoloOS

open Function Paging

variable {s : Memory} {dir : Space → Nat} {K v : Word}

/-- The words of the first megabyte can be written by the threads of the kernel. -/
theorem Low.access (h : Spaces s dir) (hv : Low v) (haligned : v.toNat % 4 = 0) : Access s dir .kernel v := by
  have hmapped := hv.mapped h
  unfold Low at hv
  refine ⟨⟨⟨haligned, .inl hv⟩, (vpage v - 0xc0000) * 4096 + v.toNat % 4096, ?_, .inl ?_⟩, ?_⟩
  · rw [place_eq_some, home_kernel]
    exact ⟨_, hmapped, rfl⟩
  · unfold vpage
    omega
  · unfold Sees
    rw [home_kernel]

theorem boot_spaces {m : Mem} (hm : Loaded m) (memCapacity : Word) :
    Spaces (Memory.boot m memCapacity) fun _ => kernelDir where
  toTables := boot_tables hm.bootPages memCapacity
  low n hle hlt := by
    have hboot := hm.bootPages
    change mapped m kernelDir n = _
    rw [mapped, show n / 1024 = 768 by omega, hboot.first, Option.bind_some, hboot.low _ (by omega),
      show n % 1024 = n - 0xc0000 by omega]

theorem boot_poolSize (m : Mem) (memCapacity : Word) (pf : PoolFlags) :
    ((Memory.boot m memCapacity).pool pf).poolSize.toNat ≤ 0x8000000 := by
  have hword : (4096 : Word).toNat = 4096 := rfl
  have hall := (((memCapacity - (0x100000 + 4096 * 256)) / 4096).setWidth 16).isLt
  have hkernel : (kernelFreePages memCapacity).toNat =
      (((memCapacity - (0x100000 + 4096 * 256)) / 4096).setWidth 16).toNat / 2 := BitVec.toNat_udiv ..
  cases pf with
  | kernel =>
      change ((kernelFreePages memCapacity).setWidth 32 * 4096).toNat ≤ _
      rw [BitVec.toNat_mul, BitVec.toNat_setWidth, hword]
      omega
  | user =>
      change ((userFreePages memCapacity).setWidth 32 * 4096).toNat ≤ _
      have huser : (userFreePages memCapacity).toNat =
          (((memCapacity - (0x100000 + 4096 * 256)) / 4096).setWidth 16).toNat -
            (kernelFreePages memCapacity).toNat :=
        BitVec.toNat_sub_of_le (BitVec.le_def.2 (by omega))
      rw [BitVec.toNat_mul, BitVec.toNat_setWidth, hword]
      omega

/-- The array of descriptors lies in the kernel, below the page of the main thread. -/
def KernelDescs (K : Word) : Prop := K.toNat % 4 = 0 ∧ 0xc0000000 ≤ K.toNat ∧ K.toNat + 168 ≤ mainTask

/-- After `memInit` there is an empty heap. -/
theorem heaps_boot {m : Mem} (hm : Loaded m) (memCapacity : Word) (hK : KernelDescs K) :
    ∃ s, blockDescInit K (Memory.boot m memCapacity) = .ok s ∧
      HeapsInv K ⟨s, fun _ => [], [mainTask]⟩ (fun _ => kernelDir) fun _ => Arenas.empty := by
  obtain ⟨hmod, hlow, hhigh⟩ := hK
  have hmain : mainTask = 0xc009e000 := rfl
  rw [hmain] at hhigh
  have h := boot_spaces hm memCapacity
  have hfit : DescsFit K := by
    unfold DescsFit
    omega
  obtain ⟨s, W, hcall, hw, -, hheap⟩ := HeapAt.empty h hfit hmod fun v hle hlt haligned =>
    Low.access h (v := v) ⟨by omega, by omega⟩ haligned
  have hkernel : ∀ sp, Space.Exists s sp → sp = .kernel := by
    intro sp hsp
    cases sp with
    | kernel => rfl
    | process t =>
        rw [hw.pokes.exists_iff] at hsp
        exact absurd rfl hsp
  refine ⟨s, hcall, hw.spaces h, fun t ht => ?_, fun sp hsp => ?_, fun _ => busy_empty, fun _ => rfl,
    fun sp sp' v hsp hsp' hne => absurd ((hkernel sp hsp).trans (hkernel sp' hsp').symm) hne, fun pf => ?_,
      fun pf => ?_, ?_,
    fun t ht => absurd (hkernel (.process t) ht) (by simp), fun p hp => ?_, fun p hp v hv => ?_⟩
  · exact absurd (hkernel (.process t) ht) (by simp)
  · rw [hkernel sp hsp]
    exact hheap
  · change s.holder pf = none
    rw [hw.pokes.same]
    rfl
  · change (s.pool pf).poolSize.toNat ≤ _
    rw [hw.pokes.pool]
    exact boot_poolSize m memCapacity pf
  · change s.cur ∈ _
    rw [hw.pokes.same]
    exact List.mem_singleton_self _
  · have hp : p.toNat = 0xc009e000 := List.mem_singleton.1 hp
    omega
  · have hp : p.toNat = 0xc009e000 := List.mem_singleton.1 hp
    have hpage := hv.page
    unfold vpage at hpage
    have hlow : Low v := ⟨by omega, by omega⟩
    refine ⟨Low.access (hw.spaces h) hlow hv.aligned, fun sp hsp _ hzone => ?_⟩
    rw [hkernel sp hsp] at hzone
    rcases hzone with ⟨hle, hlt⟩ | hpage
    · have hle : K.toNat ≤ v.toNat := hle
      have hlt : v.toNat < K.toNat + 168 := hlt
      omega
    · rw [allPages_empty] at hpage
      exact absurd hpage List.not_mem_nil

/-- A small request needs one page at most. -/
theorem HeapFits.small {size : Word} (hfits : MallocFits s.space.flag 1 s) (hsmall : size.toNat ≤ 1024) :
    HeapFits K size s := ⟨fun hlarge => absurd hlarge (Nat.not_lt.2 hsmall), fun _ _ _ _ => hfits⟩

/-- A kernel thread gets memory while there are pages. -/
theorem HeapsInv.kernel_malloc {x : Heaps} {arenas : Space → Arenas} {size : Word} {i : Nat}
    (h : HeapsInv K x dir arenas)
    (hsp : x.s.space = .kernel) (hp : Packed x.s i) (hi : i < 768)
    (hroom : i + 1 ≤ x.s.kernelVaddr.vaddrBitmap.size * 8)
    (hcount : 1 ≤ x.s.kernelPool.freeCount) (hasked : ¬Refused x.s size) (hsmall : size.toNat ≤ 1024) :
    MallocFits x.s.space.flag 1 (x.s.locked x.s.space.flag) ∧ ∃ p s', sysMalloc K size x.s = .ok (some p, s') := by
  have hl : Spaces (x.s.locked x.s.space.flag) dir := h.spaces.withHolder _
  have hneeded := hl.toTables.kernelNeeded_first (i := i) (n := 1) (by omega)
  obtain ⟨hfits₁, v, s₁, -, hcall, -⟩ := hl.toTables.mallocPage_packed (n := 1) hsp hp (by decide) hroom
    (Nat.le_trans (Nat.le_of_eq hneeded) hcount)
  have hflag : x.s.space.flag = .kernel := by
    rw [hsp]
    rfl
  rw [hflag] at hfits₁ hcall ⊢
  refine ⟨hfits₁, ?_⟩
  rw [← hflag] at hfits₁
  have hout := h.malloc_outcome (HeapFits.small hfits₁ hsmall)
  generalize sysMalloc K size x.s = r at hout ⊢
  cases hout with
  | refused hsize => exact absurd hsize hasked
  | tooMany _ hcnt =>
      unfold pageCount at hcnt
      omega
  | noStack _ hstack =>
      rw [hsp] at hstack
      cases hstack.1
  | full _ hn hfull =>
      rw [if_neg (Nat.not_lt.2 hsmall)] at hn
      subst hn
      rw [hflag, hcall] at hfull
      cases hfull
  | served => exact ⟨_, _, rfl⟩

/-- The main thread of a machine with 32 MB asks for 16 bytes. -/
theorem first_malloc : ∃ s p s', blockDescInit 0xc0010000 (Memory.boot (pageSetup fun _ => 0) 0x2000000) = .ok s ∧
    s.space = .kernel ∧ MallocFits s.space.flag 1 (s.locked s.space.flag) ∧
    sysMalloc 0xc0010000 16 s = .ok (some p, s') := by
  have hm : Loaded (pageSetup fun _ => 0) := ⟨fun _ => 0, fun _ _ _ => rfl⟩
  obtain ⟨s, hinit, h⟩ := heaps_boot hm 0x2000000 (K := 0xc0010000) ⟨by decide, by decide, by decide⟩
  obtain ⟨m, rfl⟩ := blockDescLoop_mem hinit
  have hsize := boot_vaddrSize (pageSetup fun _ => 0) 0x2000000
  have hfree := (boot_freeCount (pageSetup fun _ => 0) 0x2000000).1
  have hasked : ¬((16 : Word) = 0 ∨ (kernelFreePages 0x2000000).setWidth 32 * 4096 ≤ (16 : Word)) := by decide
  obtain ⟨hfits, p, s', hcall⟩ := h.kernel_malloc rfl (boot_packed _ _) (by decide)
    (by rw [hsize]; decide) (hfree.symm ▸ (by decide)) hasked (by decide)
  exact ⟨_, p, s', hinit, rfl, hfits, hcall⟩

end HoloOS
