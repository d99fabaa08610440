import HoloOS.MemoryCount
import HoloOS.MemoryRuns

/-! The kernel heap before its first free: the pages in use are the first ones, and their number and
that of the free frames say what the next allocation returns. -/

namespace HoloOS

open Function Paging

variable {s s₁ s' : Memory} {dir : Space → Nat} {pf : PoolFlags} {v : Word} {i j n : Nat}

/-- The marked pages of the kernel heap are the first `i`. -/
def Packed (s : Memory) (i : Nat) : Prop :=
  ∀ k < s.kernelVaddr.vaddrBitmap.size * 8, bitmapTest s.kernelVaddr.vaddrBitmap k = decide (k < i)

theorem Packed.scan (hp : Packed s i) (hn : 0 < n) (hroom : i + n ≤ s.kernelVaddr.vaddrBitmap.size * 8) :
    bitmapScan s.kernelVaddr.vaddrBitmap n = some i := by
  have hrun : ClearRun s.kernelVaddr.vaddrBitmap n i := by
    refine ⟨hroom, fun j hj hlt => ?_⟩
    rw [hp j (by omega)]
    exact decide_eq_false (by omega)
  cases hscan : bitmapScan s.kernelVaddr.vaddrBitmap n with
  | none => exact absurd hrun (bitmapScan_none hn hscan i)
  | some j =>
      obtain ⟨⟨hfit, hclear⟩, hbefore⟩ := bitmapScan_some hn hscan
      have hle : j ≤ i := Nat.le_of_not_lt fun hlt => hbefore i hlt hrun
      have hge : i ≤ j := by
        by_contra hlt
        have hbit := hclear j (Nat.le_refl j) (by omega)
        rw [hp j (by omega), decide_eq_true (by omega)] at hbit
        cases hbit
      rw [Nat.le_antisymm hle hge]

/-- No run is left that is longer than the rest. -/
theorem Packed.scan_none (hp : Packed s i) (hn : 0 < n) (hfull : s.kernelVaddr.vaddrBitmap.size * 8 < i + n) :
    bitmapScan s.kernelVaddr.vaddrBitmap n = none := by
  cases hscan : bitmapScan s.kernelVaddr.vaddrBitmap n with
  | none => rfl
  | some j =>
      obtain ⟨⟨hfit, hclear⟩, -⟩ := bitmapScan_some hn hscan
      have hbit := hclear j (Nat.le_refl j) (by omega)
      rw [hp j (by omega), decide_eq_true (by omega)] at hbit
      cases hbit

theorem Malloced.kernelSize {done : Bool} (hm : Malloced s s' dir v n done) :
    s'.kernelVaddr.vaddrBitmap.size = s.kernelVaddr.vaddrBitmap.size := by
  obtain ⟨s₁, hr, hg⟩ := hm.reserved
  rw [hg.same]
  exact hr.marks.same.kernelSize

theorem Packed.malloced (hp : Packed s i) (hm : Malloced s s' dir v n true) (hsp : s.space = .kernel)
    (hv : vpage v = 0xc0100 + i) : Packed s' (i + n) := by
  intro k hk
  rw [hm.kernelSize] at hk
  have hbit := hm.bit .kernel (0xc0100 + k)
  have hold := hp k hk
  simp only [Space.bit, Space.first, Space.vaddr, Nat.le_add_right, decide_true, Bool.true_and,
    Nat.add_sub_cancel_left, hsp, true_and] at hbit
  rw [hbit, hold]
  by_cases hin : i ≤ k ∧ k < i + n
  · rw [if_pos (by omega), decide_eq_true (by omega)]
  · rw [if_neg (by omega)]
    congr 1
    apply propext
    omega

/-- An allocation from the pages that are left. -/
theorem Tables.mallocPage_packed (h : Tables s dir) (hsp : s.space = .kernel) (hp : Packed s i)
    (hn : 0 < n ∧ n < 3840) (hroom : i + n ≤ s.kernelVaddr.vaddrBitmap.size * 8)
    (hcount : kernelNeeded .kernel s.mem kernelDir (0xc0100 + i) n ≤ s.kernelPool.freeCount) :
    MallocFits .kernel n s ∧ ∃ v s', vpage v = 0xc0100 + i ∧
      HoloOS.mallocPage .kernel n s = .ok (some v, s') ∧ Tables s' dir ∧ Malloced s s' dir v n true ∧
      Packed s' (i + n) ∧ s'.kernelPool.freeCount +
        kernelNeeded .kernel s.mem kernelDir (0xc0100 + i) n = s.kernelPool.freeCount := by
  have hpf : PoolFlags.kernel = s.space.flag := by rw [hsp]; rfl
  have hscan : bitmapScan (s.vaddr .kernel).vaddrBitmap n = some i := hp.scan hn.1 hroom
  have hfits : MallocFits .kernel n s := by
    refine h.mallocFits hpf hn.1 fun j hj => ?_
    rw [hscan] at hj
    cases hj
    rw [hsp, h.dir_kernel]
    exact tablesFit_of_le hcount
  refine ⟨hfits, ?_⟩
  obtain ⟨v, done, s', hv, hcall, h', hm, hiff, hleft⟩ :=
    h.mallocPage_count hpf hn hfits hscan (fun hs => PoolFlags.noConfusion hs.1)
  rw [hsp, Space.first] at hv
  rw [hsp, h.dir_kernel, hv] at hiff hleft
  have hdone : done = true := hiff.2 hcount
  subst hdone
  exact ⟨v, s', hv, hcall, h', hm, hp.malloced hm hsp hv, hleft rfl⟩

/-- An allocation leaves the entries of the kernel's directory alone that the pages of a kernel thread do not
lie behind. -/
theorem Malloced.other_entry {v : Word} {done : Bool} (hm : Malloced s s' dir v n done) (h : Tables s dir)
    (hi : i < 1024) (hout : s.space = .kernel → ∀ k < n, i ≠ (vpage v + k) / 1024) :
    entry s'.mem kernelDir i = entry s.mem kernelDir i := by
  obtain ⟨s₁, hr, hg⟩ := hm.reserved
  have hother := hg.other .kernel i trivial hi fun k hk hk' hin => by
    refine hout (hr.marks.same.space.symm.trans hin.1.symm) (k - vpage v) (by omega) ?_
    rw [hin.2, show vpage v + (k - vpage v) = k by omega]
  rw [h.dir_kernel, hr.marks.same.mem] at hother
  exact hother

/-- Zeroed pages from those that are left. -/
theorem Tables.getKernelPages_packed (h : Tables s dir) (hsp : s.space = .kernel) (hp : Packed s i)
    (hn : 0 < n ∧ n < 3840) (hroom : i + n ≤ s.kernelVaddr.vaddrBitmap.size * 8)
    (hcount : kernelNeeded .kernel s.mem kernelDir (0xc0100 + i) n ≤ s.kernelPool.freeCount) :
    MallocFits .kernel n s ∧ ∃ v s', vpage v = 0xc0100 + i ∧
      HoloOS.getKernelPages n s = .ok (some v, s') ∧ Tables s' dir ∧ Malloced s s' dir v n true ∧
      Packed s' (i + n) ∧ s'.kernelPool.freeCount +
        kernelNeeded .kernel s.mem kernelDir (0xc0100 + i) n = s.kernelPool.freeCount := by
  obtain ⟨hfits, v, s₁, hv, hcall, h₁, hm, hp₁, hleft⟩ := h.mallocPage_packed hsp hp hn hroom hcount
  obtain ⟨s₀, hr, -⟩ := id hm.reserved
  obtain ⟨m, hmemset, -, hscribbled⟩ := h₁.memset 0 hr.aligned hr.ne_zero (hm.dataPage h h₁)
  refine ⟨hfits, v, { s₁ with mem := m }, hv, ?_, h₁.scribbled hscribbled, hm.scribbled h₁ hscribbled, hp₁, hleft⟩
  rw [HoloOS.getKernelPages, hcall, ok_bind]
  change (HoloOS.memset v 0 (n * 4096) s₁ >>= fun s => pure (some v, s)) = _
  rw [hmemset]
  rfl

theorem boot_packed (m : Mem) (memCapacity : Word) : Packed (Memory.boot m memCapacity) 0 := by
  intro k hk
  rw [decide_eq_false (Nat.not_lt_zero k)]
  exact bitmapTest_bitmapInit _ hk

theorem freeCount_of_clear {pool : Pool}
    (h : ∀ k < pool.poolBitmap.size * 8, bitmapTest pool.poolBitmap k = false) :
    pool.freeCount = pool.poolBitmap.size * 8 := by
  unfold Pool.freeCount
  rw [List.countP_eq_length.2, List.length_range]
  intro k hk
  rw [h k (List.mem_range.1 hk)]
  rfl

theorem boot_freeCount (m : Mem) (memCapacity : Word) :
    (Memory.boot m memCapacity).kernelPool.freeCount = (kernelFreePages memCapacity).toNat / 8 * 8 ∧
      (Memory.boot m memCapacity).userPool.freeCount = (userFreePages memCapacity).toNat / 8 * 8 :=
  ⟨freeCount_of_clear fun _ hk => bitmapTest_bitmapInit _ hk,
    freeCount_of_clear fun _ hk => bitmapTest_bitmapInit _ hk⟩

theorem boot_vaddrSize (m : Mem) (memCapacity : Word) :
    (Memory.boot m memCapacity).kernelVaddr.vaddrBitmap.size = (kernelFreePages memCapacity).toNat / 8 := rfl

/-- Pages below 0xc0400000 need no further page table. -/
theorem Tables.kernelNeeded_first (h : Tables s dir) (hlow : i + n ≤ 768) :
    kernelNeeded .kernel s.mem kernelDir (0xc0100 + i) n = n := by
  unfold kernelNeeded tableCount
  dsimp only
  rw [List.countP_eq_zero.2, Nat.add_zero]
  intro k hk hneed
  have hlt := List.mem_range.1 hk
  obtain ⟨-, hnone⟩ := of_decide_eq_true hneed
  rw [show (0xc0100 + i + k) / 1024 = 768 by omega, h.first] at hnone
  cases hnone

variable {a : Allocator}

/-- A kernel thread takes the next `n` pages. -/
theorem AllocInv.allocate (h : AllocInv a dir) (hsp : a.s.space = .kernel) (hp : Packed a.s i)
    (hn : 0 < n ∧ n < 3840) (hroom : i + n ≤ a.s.kernelVaddr.vaddrBitmap.size * 8)
    (hfree : kernelNeeded .kernel a.s.mem kernelDir (0xc0100 + i) n ≤ a.s.kernelPool.freeCount) :
    ∃ s', AllocStep a (.mallocPage .kernel n)
        { a with s := s', live := a.live ++ [⟨.kernel, 0xc0100 + i, n, false⟩] } ∧
      Fits (.mallocPage .kernel n) a.s ∧ s'.space = .kernel ∧ Packed s' (i + n) ∧
      s'.kernelVaddr.vaddrBitmap.size = a.s.kernelVaddr.vaddrBitmap.size ∧
      s'.holder = a.s.holder ∧ s'.kernelPool.freeCount +
        kernelNeeded .kernel a.s.mem kernelDir (0xc0100 + i) n = a.s.kernelPool.freeCount := by
  obtain ⟨hfits, v, s', hv, hcall, -, hm, hp', hleft⟩ := h.tables.mallocPage_packed hsp hp hn hroom hfree
  have hstep := AllocStep.mallocPage (serves_iff.2 (show PoolFlags.kernel = a.s.space.flag by rw [hsp]; rfl))
    hcall
  rw [Range.ofResult, hv, hsp] at hstep
  exact ⟨s', hstep, hfits, hm.tables_same.1.trans hsp, hp', hm.kernelSize, hm.tables_same.2.2.2.2.1, hleft⟩

theorem Scribbles.kernel (hs : Scribbles s s' dir) :
    s'.kernelVaddr = s.kernelVaddr ∧ s'.kernelPool = s.kernelPool := by
  rw [hs.same]
  exact ⟨rfl, rfl⟩

/-- A process that is created with the next 25 pages of the first page table. -/
theorem AllocInv.create (h : AllocInv a dir) (hsp : a.s.space = .kernel) (hp : Packed a.s i)
    (hroom : i + 25 ≤ a.s.kernelVaddr.vaddrBitmap.size * 8) (hfirst : i + 25 ≤ 768)
    (hfree : 25 ≤ a.s.kernelPool.freeCount) :
    ∃ (t : Tid) (a' : Allocator), AllocStep a .processExecute a' ∧ Fits .processExecute a.s ∧ a'.s.IsProcess t ∧
      a'.s.space = .kernel ∧ Packed a'.s (i + 25) ∧
      a'.s.kernelVaddr.vaddrBitmap.size = a.s.kernelVaddr.vaddrBitmap.size ∧
      a'.s.kernelPool.freeCount + 25 = a.s.kernelPool.freeCount ∧
      ∀ j < 1024, entry a'.s.mem kernelDir j = entry a.s.mem kernelDir j := by
  obtain ⟨hfits₁, v, s₁, hv, hpages₁, h₁, hm₁, hp₁, hleft₁⟩ := h.tables.getKernelPages_packed (n := 1) hsp hp
    ⟨by omega, by omega⟩ (by omega) (by rw [h.tables.kernelNeeded_first (by omega)]; omega)
  rw [h.tables.kernelNeeded_first (by omega)] at hleft₁
  have hrun₁ := hm₁.newRun hsp
  have hsize₁ := hm₁.kernelSize
  have hsp₁ : s₁.space = .kernel := hm₁.tables_same.1.trans hsp
  have hv₀ : v.toNat ≠ 0 := by
    unfold vpage at hv
    omega
  have hfresh := h.fresh_task (hrun₁.heap 0 (by omega)) (hrun₁.clear 0 (by omega))
  have hproc₁ : ¬s₁.IsProcess v.toNat := fun hp => hfresh (h.processes _ (hm₁.process _ hp))
  have hpcb : HoloOS.newTask a.s = .ok (v.toNat, s₁) := by
    rw [newTask_of_some hpages₁, setPageDir_zero hproc₁]
  obtain ⟨hfits₂, b, s₂, hb, hpages₂, h₂, hm₂, hp₂, hleft₂⟩ := h₁.getKernelPages_packed (n := 23) hsp₁ hp₁
    ⟨by omega, by omega⟩ (by rw [hsize₁]; omega) (by rw [h₁.kernelNeeded_first (by omega)]; omega)
  rw [h₁.kernelNeeded_first (by omega)] at hleft₂
  have hcreate := createUserVaddrBitmap_some v.toNat hpages₂
  have hproc₂ : ¬s₂.IsProcess v.toNat := fun hp => hproc₁ (hm₂.process _ hp)
  obtain ⟨h₃, hkept₃⟩ := h₂.setUserVaddr hproc₂ ⟨userBitmap, 0x8048000⟩
  set s₃ := s₂.setUserVaddr v.toNat ⟨userBitmap, 0x8048000⟩ with hs₃
  have hsp₃ : s₃.space = .kernel := hkept₃.space.trans (hm₂.tables_same.1.trans hsp₁)
  obtain ⟨hfits₃, d, s₄, hd, hpages₃, h₄, hm₄, hp₄, hleft₄⟩ := h₃.getKernelPages_packed (n := 1) hsp₃
    (show Packed s₃ (i + 1 + 23) from hp₂) ⟨by omega, by omega⟩
    (by rw [show s₃.kernelVaddr = s₂.kernelVaddr from rfl, hm₂.kernelSize, hsize₁]; omega)
    (by rw [h₃.kernelNeeded_first (by omega)]; change 1 ≤ s₂.kernelPool.freeCount; omega)
  have hcur : v.toNat ≠ s₁.cur := by
    rw [hm₁.tables_same.2.1]
    exact fun he => hfresh (he ▸ h.cur)
  have hpage : DataPage s₁ dir (vpage v) := by
    have hp := hm₁.dataPage h.tables h₁ 0 (by omega)
    rw [Nat.add_zero] at hp
    exact hp
  have hspace : SpaceFits v.toNat s₁ := by
    refine ⟨hfits₂, fun s' hs' => ?_⟩
    rw [hcreate] at hs'
    cases hs'
    exact hfits₃
  rcases h₁.processSpace hsp₁ rfl hrun₁.aligned hproc₁ hcur hpage hspace with
    ⟨-, s₅, hnull⟩ | ⟨s₅, -, -, s₆, s₇, hcreate', hnull⟩ | ⟨b', s₅, d', f, s', hbits, hcall, hc, s₆, hst⟩
  · rw [hpages₂] at hnull
    cases hnull
  · rw [hcreate] at hcreate'
    cases hcreate'
    rw [hpages₃] at hnull
    cases hnull
  · rw [hpages₂] at hbits
    cases hbits
    obtain ⟨s₇, hpages, hcopied⟩ := hst.pages
    rw [hpages₃] at hpages
    cases hpages
    have hproc : s'.IsProcess v.toNat := (hc.isProcess _).2 (Or.inl rfl)
    have hvaddr : s'.kernelVaddr = s₄.kernelVaddr := hst.descs.kernel.1.trans hcopied.kernel.1
    have hpool : s'.kernelPool = s₄.kernelPool := hst.descs.kernel.2.trans hcopied.kernel.2
    refine ⟨v.toNat, _, AllocStep.processExecute hsp hv₀ hpcb hpages₂ hcall hproc, ⟨hfits₁, fun t s₈ hnew => ?_⟩,
      hproc, hc.kept.space.trans hsp₁, ?_, ?_, ?_, fun j hj => ?_⟩
    · rw [hpcb] at hnew
      cases hnew
      exact hspace
    · unfold Packed
      change ∀ k < s'.kernelVaddr.vaddrBitmap.size * 8, bitmapTest s'.kernelVaddr.vaddrBitmap k = _
      rw [hvaddr]
      exact hp₄
    · change s'.kernelVaddr.vaddrBitmap.size = _
      rw [hvaddr, hm₄.kernelSize]
      exact hm₂.kernelSize.trans hsize₁
    · change s'.kernelPool.freeCount + 25 = _
      rw [h₃.kernelNeeded_first (by omega)] at hleft₄
      change s₄.kernelPool.freeCount + 1 = s₂.kernelPool.freeCount at hleft₄
      rw [hpool]
      omega
    · by_cases hfirst : j = 768
      · rw [hfirst, h.tables.first]
        exact hc.tables.first
      · have hdescs := hst.adopted.dir_scribbled hst.descs.inside (show Space.kernel.Exists _ from trivial) hj
        rw [hst.adopted.dir_kernel] at hdescs
        refine hdescs.trans ?_
        change entry s₆.mem kernelDir j = _
        rw [hst.dirPage.other_entry h₃ hj fun _ k hk => by omega]
        change entry s₂.mem kernelDir j = _
        rw [hm₂.other_entry h₁ hj fun _ k hk => by omega, hm₁.other_entry h.tables hj fun _ k hk => by omega]

/-- A main thread takes its first pages on a machine with `memCapacity` bytes. -/
theorem start_allocate {m : Mem} (hm : Loaded m) (memCapacity : Word) (hn : 0 < n ∧ n < 3840)
    (hroom : n ≤ (kernelFreePages memCapacity).toNat / 8 * 8)
    (hfree : kernelNeeded .kernel m kernelDir 0xc0100 n ≤ (kernelFreePages memCapacity).toNat / 8 * 8) :
    ∃ s', AllocStep (Allocator.start m memCapacity) (.mallocPage .kernel n)
        ⟨s', [⟨.kernel, 0xc0100, n, false⟩], [mainTask]⟩ ∧
      Fits (.mallocPage .kernel n) (Memory.boot m memCapacity) ∧ s'.space = .kernel ∧ Packed s' n ∧
      s'.kernelVaddr.vaddrBitmap.size = (kernelFreePages memCapacity).toNat / 8 ∧
      (∀ pf, s'.holder pf = none) ∧ s'.kernelPool.freeCount + kernelNeeded .kernel m kernelDir 0xc0100 n =
        (kernelFreePages memCapacity).toNat / 8 * 8 := by
  have hcount := (boot_freeCount m memCapacity).1
  have hroom' : 0 + n ≤ (Memory.boot m memCapacity).kernelVaddr.vaddrBitmap.size * 8 := by
    rw [boot_vaddrSize, Nat.zero_add]
    exact hroom
  obtain ⟨s', hstep, hfits, hsp, hp, hsize, hholder, hleft⟩ := (start_inv hm memCapacity).allocate rfl
    (boot_packed m memCapacity) hn hroom' (Nat.le_trans hfree (Nat.le_of_eq hcount.symm))
  rw [Nat.zero_add] at hp
  exact ⟨s', hstep, hfits, hsp, hp, hsize, fun pf => by rw [hholder]; rfl, hleft.trans hcount⟩

end HoloOS
