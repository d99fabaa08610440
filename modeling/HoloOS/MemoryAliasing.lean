import HoloOS.MemoryPacked

/-! No aliasing in the page allocator: in every state that a run of its callers reaches, the live
ranges are apart, clear pages are not mapped, and each live page has a frame of its own, taken from the
pool of its flag. -/

namespace HoloOS

open Function Paging

variable {a a' : Allocator} {s s' : Memory} {dir : Space → Nat} {pf : PoolFlags} {vaddr : Word} {n : Nat}

/-- The physical address of the page directory of a space. -/
def Memory.directory (s : Memory) : Space → Nat
  | .kernel => kernelDir
  | .process t => (mapped s.mem kernelDir (vpage (s.task t).pageDir)).getD 0

theorem Tables.directory_eq (h : Tables s dir) {sp : Space} (hsp : sp.Exists s) :
    s.directory sp = dir sp := by
  cases sp with
  | kernel => exact h.dir_kernel.symm
  | process t => rw [Memory.directory, (h.dir_heap t hsp).2, Option.getD_some]

/-- The frame that a page of a space is mapped to. -/
def Memory.frameOf (s : Memory) (sp : Space) (n : Nat) : Option Nat := mapped s.mem (s.directory sp) n

/-- What the bitmaps, the page tables and the pools say about the live ranges. -/
structure NoAliasing (a : Allocator) : Prop where
  inside : ∀ r ∈ a.live, ∀ n, r.Contains r.space n → r.space.first ≤ n ∧ r.space.Heap a.s n
  apart : a.live.Pairwise Range.Apart
  clear : ∀ sp n, Space.Heap a.s sp n → Space.bit a.s sp n = false → a.s.frameOf sp n = none
  backed : ∀ r ∈ a.live, ∀ n, r.Contains r.space n →
    ∃ f, a.s.frameOf r.space n = some f ∧ (a.s.pool r.space.flag).Used f
  single : ∀ r ∈ a.live, ∀ r' ∈ a.live, ∀ n n' f, r.Contains r.space n → r'.Contains r'.space n' →
    a.s.frameOf r.space n = some f → a.s.frameOf r'.space n' = some f → r.space = r'.space ∧ n = n'
  tables : ∀ r ∈ a.live, ∀ n sp i f, r.Contains r.space n → sp.Own a.s i →
    a.s.frameOf r.space n = some f → entry a.s.mem (a.s.directory sp) i ≠ some f

theorem LiveRange.contains {r : Range} (h : LiveRange s dir r) (hn : r.Contains r.space n) :
    r.space.Heap s n ∧ ∃ f, Paging.mapped s.mem (dir r.space) n = some f := by
  obtain ⟨-, hle, hlt⟩ := hn
  have hheap := h.heap (n - r.page) (by omega)
  have hmapped := h.mapped (n - r.page) (by omega)
  rw [show r.page + (n - r.page) = n by omega] at hheap hmapped
  exact ⟨hheap, hmapped⟩

theorem AllocInv.noAliasing (h : AllocInv a dir) : NoAliasing a := by
  have hframe : ∀ r ∈ a.live, ∀ n, a.s.frameOf r.space n = mapped a.s.mem (dir r.space) n := by
    intro r hr n
    rw [Memory.frameOf, h.tables.directory_eq (h.ranges r hr).exists_]
  refine ⟨?_, h.apart, ?_, ?_, ?_, ?_⟩
  · intro r hr n hn
    exact ⟨Nat.le_trans (h.ranges r hr).first hn.2.1, ((h.ranges r hr).contains hn).1⟩
  · intro sp n hn hbit
    rw [Memory.frameOf, h.tables.directory_eq hn.exists]
    exact h.tables.clear sp n hn hbit
  · intro r hr n hn
    obtain ⟨hheap, f, hf⟩ := (h.ranges r hr).contains hn
    exact ⟨f, (hframe r hr n).trans hf, h.tables.used (.page r.space n) f hheap hf⟩
  · intro r hr r' hr' n n' f hn hn' hf hf'
    rw [hframe r hr] at hf
    rw [hframe r' hr'] at hf'
    have hheap := ((h.ranges r hr).contains hn).1
    have hheap' := ((h.ranges r' hr').contains hn').1
    exact Owner.page.inj (h.tables.inj (.page r.space n) (.page r'.space n') f hheap hheap' hf hf')
  · intro r hr n sp i f hn hown hf htable
    rw [hframe r hr] at hf
    rw [h.tables.directory_eq hown.exists] at htable
    have hheap := ((h.ranges r hr).contains hn).1
    exact Owner.noConfusion (h.tables.inj (.page r.space n) (.table sp i) f hheap hown hf htable)

/-- A page that is taken is not present, so the `ASSERT` of `pageTableAdd` holds. -/
theorem AllocInv.mallocPage_pte (h : AllocInv a dir) (hserves : a.s.Serves pf) (hfits : MallocFits pf n a.s) :
    HoloOS.mallocPage pf n a.s ≠ .error (.panic .pte) := by
  intro hcall
  by_cases hn : 0 < n ∧ n < 3840
  · rcases h.tables.mallocPage (serves_iff.1 hserves) hn hfits with
      ⟨-, -, -, hpanic⟩ | ⟨-, hnone⟩ | ⟨done, v, s', -, hok, -, -⟩
    · rw [hpanic] at hcall
      cases hcall
    · rw [hnone] at hcall
      cases hcall
    · rw [hok] at hcall
      cases hcall
  · rw [HoloOS.mallocPage, massert, if_neg (by simpa using hn)] at hcall
    cases hcall

theorem AllocInv.getPage_pte (h : AllocInv a dir) (hserves : a.s.Serves pf) (haligned : vaddr.toNat % 4096 = 0)
    (hindex : a.s.space.first < vpage vaddr) (hheap : a.s.space.Heap a.s (vpage vaddr))
    (hclear : a.s.space.bit a.s (vpage vaddr) = false) (hfits : GetFits pf vaddr a.s) :
    HoloOS.getPage pf vaddr a.s ≠ .error (.panic .pte) := by
  intro hcall
  cases hlock : a.s.holder pf with
  | some t =>
      rw [HoloOS.getPage, lockAcquire, hlock] at hcall
      cases hcall
  | none =>
      obtain ⟨s₁, -, hout⟩ :=
        h.tables.getPage (serves_iff.1 hserves) hlock haligned hindex hheap hclear hfits
      rcases hout with ⟨-, hnone⟩ | ⟨p, s', hok, -, -, -, -⟩
      · rw [hnone] at hcall
        cases hcall
      · rw [hok] at hcall
        cases hcall

/-- Every run in which the kernel pool has a frame left whenever `pageTableAdd` needs one. -/
theorem runs_noAliasing {m : Mem} (hm : Loaded m) {memCapacity : Word}
    (hrun : Runs (fun e b => Fits e b.s) (Allocator.start m memCapacity) a) :
    NoAliasing a ∧
      (∀ pf n, a.s.Serves pf → MallocFits pf n a.s → mallocPage pf n a.s ≠ .error (.panic .pte)) ∧
      ∀ pf vaddr, a.s.Serves pf → vaddr.toNat % 4096 = 0 → a.s.space.first < vpage vaddr →
        a.s.space.Heap a.s (vpage vaddr) → a.s.space.bit a.s (vpage vaddr) = false →
        GetFits pf vaddr a.s → getPage pf vaddr a.s ≠ .error (.panic .pte) := by
  obtain ⟨dir, h⟩ := runs_inv hm (fun _ _ hfits => hfits) hrun
  exact ⟨h.noAliasing, fun _ _ => h.mallocPage_pte, fun _ _ => h.getPage_pte⟩

/-- A kernel thread takes three pages and then two of a machine with 32 MB. -/
theorem runs_noAliasing_ranges :
    ∃ a, a.live = [⟨.kernel, 0xc0100, 3, false⟩, ⟨.kernel, 0xc0103, 2, false⟩] ∧ NoAliasing a := by
  have hm : Loaded (pageSetup fun _ => 0) := ⟨fun _ => 0, fun _ _ _ => rfl⟩
  have hneeded := (boot_tables hm.bootPages 0x2000000).kernelNeeded_first (i := 0) (n := 3) (by omega)
  have hcount : (kernelFreePages 0x2000000).toNat / 8 * 8 = 3840 := by decide
  obtain ⟨s₁, hstep₁, hfits₁, hsp, hp, hsize, -, hleft⟩ := start_allocate hm 0x2000000 ⟨by omega, by omega⟩
    (show 3 ≤ _ by decide) (Nat.le_trans (Nat.le_of_eq hneeded) (by decide))
  have hrun : Runs (fun e b => Fits e b.s) (Allocator.start (pageSetup fun _ => 0) 0x2000000)
      ⟨s₁, [⟨.kernel, 0xc0100, 3, false⟩], [mainTask]⟩ := .single ⟨_, hfits₁, hstep₁⟩
  obtain ⟨dir, h₁⟩ := runs_inv hm (fun _ _ hfits => hfits) hrun
  have hroom : 3 + 2 ≤ s₁.kernelVaddr.vaddrBitmap.size * 8 := by
    rw [hsize]
    decide
  have hfree : kernelNeeded .kernel s₁.mem kernelDir (0xc0100 + 3) 2 ≤ s₁.kernelPool.freeCount := by
    rw [h₁.tables.kernelNeeded_first (by omega)]
    rw [hcount, show kernelNeeded .kernel (pageSetup fun _ => 0) kernelDir 0xc0100 3 = 3 from hneeded] at hleft
    omega
  obtain ⟨s₂, hstep₂, hfits₂, -⟩ := h₁.allocate hsp hp ⟨by omega, by omega⟩ hroom hfree
  exact ⟨_, rfl, (runs_noAliasing hm (hrun.tail ⟨_, hfits₂, hstep₂⟩)).1⟩

end HoloOS
