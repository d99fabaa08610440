import HoloOS.MemoryAliasing

/-! Allocations that find no frame. `mallocPage` returns `NULL` with the run reserved and a part of it
mapped; `getPage` returns `NULL` with the bit set and the lock held. -/

namespace HoloOS

open Function Paging

variable {a : Allocator} {s s' : Memory} {dir : Space → Nat} {pf : PoolFlags} {vaddr : Word} {i n : Nat}

/-- The state before a call, but for page tables made on the way. -/
structure Untouched (s s' : Memory) (pf : PoolFlags) : Prop where
  bits : ∀ k, bitmapTest (s'.vaddr pf).vaddrBitmap k = bitmapTest (s.vaddr pf).vaddrBitmap k
  user : ∀ b, s'.userPool.Used b ↔ s.userPool.Used b
  kernel : ∀ b, s'.kernelPool.Used b ↔ s.kernelPool.Used b ∨
    ∃ i < 1023, entry s.mem s.cr3 i = none ∧ entry s'.mem s.cr3 i = some b
  pages : ∀ k < 0xffc00, (mapped s'.mem s.cr3 k).isSome = (mapped s.mem s.cr3 k).isSome

theorem Untouched.refl (s : Memory) (pf : PoolFlags) : Untouched s s pf := by
  refine ⟨fun _ => rfl, fun _ => Iff.rfl, fun b => ⟨Or.inl, fun hor => ?_⟩, fun _ _ => rfl⟩
  rcases hor with hused | ⟨i, -, hnone, hsome⟩
  · exact hused
  · rw [hnone] at hsome
    cases hsome

/-- A call that returns `NULL` leaves the state as it was. -/
def AllOrNothing (pf : PoolFlags) (pgCnt : Nat) (s : Memory) : Prop :=
  ∀ s', mallocPage pf pgCnt s = .ok (none, s') → Untouched s s' pf

/-- The first run of clear pages can be mapped to its end, unless it lies on the page that is kept for
the stack. -/
def Suffices (pf : PoolFlags) (pgCnt : Nat) (s : Memory) : Prop :=
  ∀ i, bitmapScan (s.vaddr pf).vaddrBitmap pgCnt = some i → StackPage pf (s.space.first + i) ∨
    framesNeeded pf s.mem s.cr3 (s.space.first + i) pgCnt ≤ (s.pool pf).freeCount

theorem Malloced.not_untouched {v : Word} {done : Bool} (hm : Malloced s s' dir v n done)
    (hpf : pf = s.space.flag) (hn : 0 < n) : ¬Untouched s s' pf := by
  intro hu
  obtain ⟨s₁, hr, -⟩ := id hm.reserved
  have hbit := hm.bit s.space (vpage v)
  have hclear := hr.clear 0 hn
  rw [if_pos ⟨rfl, Nat.le_refl _, Nat.lt_add_of_pos_right hn⟩] at hbit
  have hpf' : pf = s'.space.flag := by rw [hm.tables_same.1]; exact hpf
  have hsame := hu.bits (vpage v - s.space.first)
  rw [vaddr_eq hpf, vaddr_eq hpf', hm.tables_same.1] at hsame
  rw [Nat.add_zero, Space.bit] at hclear
  rw [Space.bit, hsame, hclear] at hbit
  cases hbit

theorem Tables.allOrNothing_iff (h : Tables s dir) (hpf : pf = s.space.flag) (hn : 0 < n ∧ n < 3840)
    (hfits : MallocFits pf n s) : AllOrNothing pf n s ↔ Suffices pf n s := by
  constructor
  · intro hall i hscan
    by_cases hstack : StackPage pf (s.space.first + i)
    · exact Or.inl hstack
    right
    obtain ⟨v, done, s', hv, hcall, -, hm, hiff, -⟩ := h.mallocPage_count hpf hn hfits hscan hstack
    rw [h.cr3, ← hv]
    cases done with
    | true => exact hiff.1 rfl
    | false => exact absurd (hall s' hcall) (hm.not_untouched hpf hn.1)
  · intro hsuff s' hcall
    rcases h.mallocPage hpf hn hfits with ⟨v, -, -, hpanic⟩ | ⟨-, hnone⟩ | ⟨done₁, v, s₂, ⟨hscan, hstack⟩, -, -, hm⟩
    · rw [hpanic] at hcall
      cases hcall
    · rw [hnone] at hcall
      cases hcall
      exact .refl s pf
    · obtain ⟨s₁, hr, -⟩ := id hm.reserved
      have hpage : s.space.first + (vpage v - s.space.first) = vpage v := by
        have hfirst := hr.first
        omega
      obtain ⟨w, done, s'', hw, hcall', -, -, hiff, -⟩ :=
        h.mallocPage_count hpf hn hfits hscan (by rw [hpage]; exact hstack)
      have hfree := (hsuff _ hscan).resolve_left (by rw [hpage]; exact hstack)
      rw [h.cr3, ← hw] at hfree
      rw [hcall', hiff.2 hfree] at hcall
      cases hcall

/-- In every state that is reached, a call is all or nothing exactly when the frames suffice. -/
theorem runs_allOrNothing_iff {m : Mem} (hm : Loaded m) {memCapacity : Word}
    (hrun : Runs (fun e b => Fits e b.s) (Allocator.start m memCapacity) a) (hserves : a.s.Serves pf)
    (hn : 0 < n ∧ n < 3840) (hfits : MallocFits pf n a.s) :
    AllOrNothing pf n a.s ↔ Suffices pf n a.s := by
  obtain ⟨dir, h⟩ := runs_inv hm (fun _ _ hfits => hfits) hrun
  exact h.tables.allOrNothing_iff (serves_iff.1 hserves) hn hfits

/-- On a machine with 8 MB and 64 KB, 700 of the 776 pages are taken: the call that asks for 100 more returns `NULL`
and leaves everything as it was. -/
theorem runs_allOrNothing_null : ∃ a s',
    Runs (fun e b => Fits e b.s) (Allocator.start (pageSetup fun _ => 0) 0x810000) a ∧
    a.live = [⟨.kernel, 0xc0100, 700, false⟩] ∧ mallocPage .kernel 100 a.s = .ok (none, s') ∧
    AllOrNothing .kernel 100 a.s ∧ Untouched a.s s' .kernel := by
  have hm : Loaded (pageSetup fun _ => 0) := ⟨fun _ => 0, fun _ _ _ => rfl⟩
  generalize pageSetup (fun _ => 0) = m at hm ⊢
  have hneeded := (boot_tables hm.bootPages 0x810000).kernelNeeded_first (i := 0) (n := 700) (by omega)
  have hsize : (kernelFreePages 0x810000).toNat / 8 = 97 := by decide
  obtain ⟨s, hstep, hfits, hsp, hp, hsize', -⟩ := start_allocate hm 0x810000 (n := 700) ⟨by omega, by omega⟩
    (by rw [hsize]; omega) (Nat.le_trans (Nat.le_of_eq hneeded) (by rw [hsize]; omega))
  rw [hsize] at hsize'
  have hrun : Runs (fun e b => Fits e b.s) (Allocator.start m 0x810000)
      ⟨s, [⟨.kernel, 0xc0100, 700, false⟩], [mainTask]⟩ := .single ⟨_, hfits, hstep⟩
  obtain ⟨dir, h⟩ := runs_inv hm (fun _ _ hfits => hfits) hrun
  have hpf : PoolFlags.kernel = s.space.flag := by rw [hsp]; rfl
  have hscan : bitmapScan (s.vaddr .kernel).vaddrBitmap 100 = none :=
    hp.scan_none (by omega) (by omega)
  have hmalloc : MallocFits .kernel 100 s := by
    refine h.tables.mallocFits hpf (by omega) fun i hi => ?_
    rw [hscan] at hi
    cases hi
  have hall : AllOrNothing .kernel 100 s := by
    refine (runs_allOrNothing_iff hm hrun (serves_iff.2 hpf) ⟨by omega, by omega⟩ hmalloc).2 fun i hi => ?_
    rw [hscan] at hi
    cases hi
  rcases h.tables.mallocPage hpf ⟨by omega, by omega⟩ hmalloc with
    ⟨v, hscanned, -, -⟩ | ⟨-, hnull⟩ | ⟨done, v, s', ⟨hscanned, -⟩, -⟩
  · exact absurd (hscan.symm.trans hscanned) (Option.some_ne_none _).symm
  · exact ⟨_, s, hrun, rfl, hnull, hall, hall s hnull⟩
  · exact absurd (hscan.symm.trans hscanned) (Option.some_ne_none _).symm

/-- At the start, the pages up to 0xc0500000 need one more table, that for 0xc0400000. -/
theorem boot_tableCount {m : Mem} (hm : BootPages m) (hn : n ≤ 1024) :
    tableCount m kernelDir 0xc0100 n = if 768 < n then 1 else 0 := by
  have hsame : tableCount m kernelDir 0xc0100 n = (List.range n).count 768 := by
    unfold tableCount
    rw [List.count_eq_countP]
    apply List.countP_congr
    intro k hk
    have hlt := List.mem_range.1 hk
    simp only [decide_eq_true_eq, beq_iff_eq]
    constructor
    · rintro ⟨hstart, hnone⟩
      by_contra hne
      rw [show (0xc0100 + k) / 1024 = 768 by omega, hm.first] at hnone
      cases hnone
    · rintro rfl
      exact ⟨Or.inr rfl, hm.absent 769 (by omega) (by omega) (by omega)⟩
  rw [hsame, List.nodup_range.count]
  simp only [List.mem_range]

theorem boot_kernelNeeded {m : Mem} (hm : BootPages m) (hlo : 768 < n) (hn : n ≤ 1024) :
    kernelNeeded .kernel m kernelDir 0xc0100 n = n + 1 := by
  unfold kernelNeeded
  dsimp only
  rw [boot_tableCount hm hn, if_pos hlo]

/-- The 776 frames of the kernel pool of a machine with 8 MB and 64 KB are one too few for its 776
pages, and the 776 bits stay set. -/
theorem mallocPage_not_allOrNothing : ∃ s',
    mallocPage .kernel 776 (Memory.boot (pageSetup fun _ => 0) 0x810000) = .ok (none, s') ∧
      ¬Untouched (Memory.boot (pageSetup fun _ => 0) 0x810000) s' .kernel := by
  set m := pageSetup fun _ => 0 with hm
  have hboot : BootPages m := pageSetup_bootPages _
  have h := boot_tables hboot 0x810000
  have hfree := (boot_freeCount m 0x810000).1
  have hscan := (boot_packed m 0x810000).scan (n := 776) (by omega) (by rw [boot_vaddrSize]; decide)
  rw [show (kernelFreePages 0x810000).toNat / 8 * 8 = 776 by decide] at hfree
  have hfits : MallocFits .kernel 776 (Memory.boot m 0x810000) := by
    refine h.mallocFits rfl (by omega) fun i hi => ?_
    cases hscan.symm.trans hi
    intro k hk hstart hnone
    have hpage : 768 ≤ k := by
      by_contra hlt
      rw [show ((Memory.boot m 0x810000).space.first + 0 + k) / 1024 = 768 from
        (show (0xc0100 + 0 + k) / 1024 = 768 by omega)] at hnone
      rw [show (Memory.boot m 0x810000).mem = m from rfl, hboot.first] at hnone
      cases hnone
    change k = 0 ∨ (0xc0100 + 0 + k) % 1024 = 0 at hstart
    obtain rfl : k = 768 := by omega
    change 769 + tableCount m kernelDir 0xc0100 769 ≤ _
    rw [boot_tableCount hboot (by omega), hfree]
    decide
  obtain ⟨v, done, s', hv, hcall, -, hmalloced, hiff, -⟩ :=
    h.mallocPage_count rfl ⟨by omega, by omega⟩ hfits hscan (fun hs => by cases hs.1)
  cases done with
  | false => exact ⟨s', hcall, hmalloced.not_untouched rfl (by omega)⟩
  | true =>
      have hle := hiff.1 rfl
      rw [hv] at hle
      change 776 + tableCount m kernelDir 0xc0100 776 ≤ _ at hle
      rw [boot_tableCount hboot (by omega)] at hle
      change 777 ≤ (Memory.boot m 0x810000).kernelPool.freeCount at hle
      omega

/-- Page `n` has been given a frame that was free, and nothing else has changed but for a page table that
has been made for it. -/
structure PageGiven (s s' : Memory) (pf : PoolFlags) (n : Nat) : Prop where
  bits : ∀ sp k, Space.bit s' sp k = if sp = s.space ∧ k = n then true else Space.bit s sp k
  page : ∃ f, s'.frameOf s.space n = some f ∧ (s.pool pf).Free f
  pages : ∀ sp k, Space.Heap s sp k → ¬(sp = s.space ∧ k = n) → s'.frameOf sp k = s.frameOf sp k
  frames : ∀ pf' b, (s'.pool pf').Used b ↔ (s.pool pf').Used b ∨
    (pf' = pf ∧ s'.frameOf s.space n = some b) ∨
    (pf' = .kernel ∧ entry s.mem s.cr3 (n / 1024) = none ∧ entry s'.mem s.cr3 (n / 1024) = some b)

/-- No bit and no mapping has changed. -/
structure NothingTaken (s s' : Memory) : Prop where
  bits : ∀ sp k, Space.bit s' sp k = Space.bit s sp k
  pages : ∀ sp k, Space.Heap s sp k → s'.frameOf sp k = s.frameOf sp k
  frames : ∀ pf b, (s'.pool pf).Used b ↔ (s.pool pf).Used b

/-- What a call of `getPage` should do: it returns with the lock free, and has given the page or changed
nothing. -/
def GetPageContract (pf : PoolFlags) (vaddr : Word) (s : Memory) : Prop :=
  ∃ v s', getPage pf vaddr s = .ok (v, s') ∧ s'.holder pf ≠ some s.cur ∧
    ((v = some vaddr ∧ PageGiven s s' pf (vpage vaddr)) ∨ (v = none ∧ NothingTaken s s'))

theorem Keeps.frameOf (hk : Keeps s s' dir dir) (h : Tables s dir) (h' : Tables s' dir) {sp : Space}
    (hsp : sp.Exists s) (k : Nat) :
    s.frameOf sp k = mapped s.mem (dir sp) k ∧ s'.frameOf sp k = mapped s'.mem (dir sp) k := by
  rw [Memory.frameOf, Memory.frameOf, h.directory_eq hsp, h'.directory_eq (hk.spaces sp hsp)]
  exact ⟨rfl, rfl⟩

theorem Malloced.one_page {v : Word} (hm : Malloced s s' dir v 1 true) (h : Tables s dir)
    (h' : Tables s' dir) (hpf : pf = s.space.flag) : PageGiven s s' pf (vpage v) := by
  obtain ⟨s₁, hr, hg⟩ := id hm.reserved
  have hsame := hr.marks.same
  have hframeOf := fun {sp : Space} (hsp : sp.Exists s) k => hm.kept.frameOf h h' hsp k
  have hheap : s.space.Heap s (vpage v) := hr.heap 0 Nat.one_pos
  obtain ⟨f, hf⟩ := hm.mapped rfl 0 Nat.one_pos
  have hnone := h.clear _ _ hheap (hr.clear 0 Nat.one_pos)
  have hnone₁ : (Owner.page s.space (vpage v)).frame s₁.mem dir = none := by
    rw [Owner.frame_page, hsame.mem]
    exact hnone
  have hvalid₁ : ∀ o, Owner.Valid s o → Owner.Valid s₁ o := fun o => (hsame.valid_iff o).2
  have hsp := s.space_exists
  refine ⟨fun sp k => ?_, ⟨f, (hframeOf hsp _).2.trans hf, ?_⟩, fun sp k hk hne => ?_, fun pf' b => ?_⟩
  · rw [hm.bit]
    congr 1
    apply propext
    constructor
    · rintro ⟨he, hle, hlt⟩
      exact ⟨he, by omega⟩
    · rintro ⟨he, rfl⟩
      exact ⟨he, Nat.le_refl _, Nat.lt_succ_self _⟩
  · have hborn := hg.born _ f (hvalid₁ (.page s.space (vpage v)) hheap) hnone₁ hf
    rw [hsame.pool] at hborn
    rw [hpf]
    exact hborn
  · rw [(hframeOf hk.exists k).1, (hframeOf hk.exists k).2]
    cases hold : Paging.mapped s.mem (dir sp) k with
    | some g => exact hm.keeps (o := .page sp k) hk hold
    | none =>
        cases hnew : Paging.mapped s'.mem (dir sp) k with
        | none => rfl
        | some g =>
            rcases hg.fresh (.page sp k) g (hvalid₁ (.page sp k) hk) hnew with hg' | ⟨j, hj, hj', he | he⟩
            · rw [Owner.frame_page, hsame.mem, hold] at hg'
              cases hg'
            · obtain ⟨rfl, rfl⟩ := Owner.page.inj he
              exact absurd ⟨hsame.space, by omega⟩ hne
            · cases he
  · rw [(hframeOf hsp _).2, h.cr3]
    constructor
    · intro hused
      rcases hg.spent pf' b hused with hold | ⟨o, ho, hflag, hn, hb⟩
      · rw [hsame.pool] at hold
        exact Or.inl hold
      · right
        rcases hg.fresh o b ho hb with hold | ⟨j, hj, hj', he | he⟩
        · rw [hn] at hold
          cases hold
        · obtain rfl : j = vpage v := by omega
          rw [he, hsame.space] at hb hflag
          exact Or.inl ⟨hflag.symm.trans hpf.symm, hb⟩
        · obtain rfl : j = vpage v := by omega
          rw [he, hsame.space] at hb hflag hn
          rw [Owner.frame_table, hsame.mem] at hn
          exact Or.inr ⟨hflag.symm, hn, hb⟩
    · rintro (hold | ⟨rfl, hb⟩ | ⟨rfl, hn, hb⟩)
      · refine hg.used pf' b ?_
        rw [hsame.pool]
        exact hold
      · rw [hpf]
        exact h'.used (.page s.space (vpage v)) b ((hm.valid _).2 hheap) hb
      · have hown : s.space.Own s (vpage v / 1024) := by
          rcases h.region hheap with hown | ⟨he, hi⟩
          · exact hown
          · rw [he, hi, h.dir_kernel, h.first] at hn
            cases hn
        exact h'.used (.table s.space _) b ((hm.valid (.table s.space _)).2 hown) hb

/-- When the contract holds, for a page that is not allocated. -/
theorem Tables.getPage_contract_iff (h : Tables s dir) (hpf : pf = s.space.flag)
    (haligned : vaddr.toNat % 4096 = 0) (hfirst : s.space.first ≤ vpage vaddr)
    (hheap : s.space.Heap s (vpage vaddr)) (hclear : s.space.bit s (vpage vaddr) = false)
    (hfits : GetFits pf vaddr s) : GetPageContract pf vaddr s ↔
      s.holder pf = none ∧ vpage vaddr ≠ s.space.first ∧ ∃ b, (s.pool pf).Free b := by
  constructor
  · rintro ⟨v, s', hcall, hlock, -⟩
    have hnone : s.holder pf = none := getPage_lock hcall
    have hindex : vpage vaddr ≠ s.space.first := by
      intro he
      have hserves : decide (Memory.Serves { s with holder := update s.holder pf (some s.cur) } pf) = true :=
        decide_eq_true (serves_iff.2 hpf)
      have hzero : ¬decide (0 < ((vaddr - (s.vaddr pf).vaddrStart) / 4096).toNat) = true := by
        rw [h.toLayout.page_index hpf hfirst, he, Nat.sub_self]
        decide
      rw [HoloOS.getPage, lockAcquire, hnone] at hcall
      dsimp only at hcall
      rw [ok_bind, massert_bind hserves] at hcall
      have hvaddr : Memory.vaddr { s with holder := update s.holder pf (some s.cur) } pf = s.vaddr pf := by
        cases pf <;> rfl
      rw [hvaddr, massert, if_neg hzero] at hcall
      cases hcall
    refine ⟨hnone, hindex, ?_⟩
    obtain ⟨s₁, -, hout⟩ := h.getPage hpf hnone haligned (by omega) hheap hclear hfits
    rcases hout with ⟨hno, hnull⟩ | ⟨p, s₂, -, -, -, -, hfree⟩
    · rw [hnull] at hcall
      cases hcall
      exact absurd (update_self _ _ _) hlock
    · exact ⟨p, hfree⟩
  · rintro ⟨hnone, hindex, b, hb⟩
    obtain ⟨s₁, hr, hout⟩ := h.getPage hpf hnone haligned (by omega) hheap hclear hfits
    rcases hout with ⟨hno, -⟩ | ⟨p, s', hok, h', hg, hmapped, hfree⟩
    · exact absurd hb (hno b)
    · have hm : Malloced s s' dir vaddr 1 true := by
        refine ⟨⟨s₁, hr, hg⟩, fun _ k hk => ?_, fun hdone => by cases hdone⟩
        rw [show vpage vaddr + k = vpage vaddr by omega]
        exact ⟨p, hmapped⟩
      refine ⟨some vaddr, s', hok, ?_, Or.inl ⟨rfl, hm.one_page h h' hpf⟩⟩
      rw [hm.tables_same.2.2.2.2.1, hnone]
      exact (Option.some_ne_none _).symm

/-- In every state that is reached, the contract holds exactly when the lock is free, the page is not the
first one and the pool has a frame left. -/
theorem runs_getPage_contract_iff {m : Mem} (hm : Loaded m) {memCapacity : Word}
    (hrun : Runs (fun e b => Fits e b.s) (Allocator.start m memCapacity) a) (hserves : a.s.Serves pf)
    (haligned : vaddr.toNat % 4096 = 0) (hfirst : a.s.space.first ≤ vpage vaddr)
    (hheap : a.s.space.Heap a.s (vpage vaddr)) (hclear : a.s.space.bit a.s (vpage vaddr) = false)
    (hfits : GetFits pf vaddr a.s) : GetPageContract pf vaddr a.s ↔
      a.s.holder pf = none ∧ vpage vaddr ≠ a.s.space.first ∧ ∃ b, (a.s.pool pf).Free b := by
  obtain ⟨dir, h⟩ := runs_inv hm (fun _ _ hfits => hfits) hrun
  exact h.tables.getPage_contract_iff (serves_iff.1 hserves) haligned hfirst hheap hclear hfits

/-- Where the page table is there, none is needed. -/
theorem Tables.getFits (h : Tables s dir) (htable : entry s.mem (dir s.space) (vpage vaddr / 1024) ≠ none) :
    GetFits pf vaddr s := by
  intro p memPool hpalloc
  obtain ⟨h₁, -, -, -, kpool, upool, hstate, -⟩ := h.palloc hpalloc
  refine tableFits_of_count h₁ ?_
  rw [hstate]
  change tableNeed s.mem (dir s.space) (vpage vaddr) ≤ kpool.freeCount
  unfold tableNeed
  rw [if_neg htable]
  exact Nat.zero_le _

/-- The second page of the heap of a machine with 32 MB. -/
theorem runs_getPage_contract_second :
    GetPageContract .kernel 0xc0101000 (Memory.boot (pageSetup fun _ => 0) 0x2000000) := by
  have hm : Loaded (pageSetup fun _ => 0) := ⟨fun _ => 0, fun _ _ _ => rfl⟩
  generalize pageSetup (fun _ => 0) = m at hm ⊢
  have h := boot_tables hm.bootPages 0x2000000
  have hrun : Runs (fun e b => Fits e b.s) (Allocator.start m 0x2000000) (Allocator.start m 0x2000000) :=
    .refl
  have hsp : (Allocator.start m 0x2000000).s.space = .kernel := rfl
  have hpage : vpage 0xc0101000 = 0xc0101 := by decide
  have hsize := boot_vaddrSize m 0x2000000
  rw [show (kernelFreePages 0x2000000).toNat / 8 = 480 by decide] at hsize
  have hheap : Space.kernel.Heap (Memory.boot m 0x2000000) 0xc0101 := by
    rw [Space.Heap, hsize]
    omega
  have hbit : Space.kernel.bit (Memory.boot m 0x2000000) 0xc0101 = false := by
    have hclear := boot_packed m 0x2000000 1 (by rw [hsize]; omega)
    rw [Space.bit, Space.first, show 0xc0101 - 0xc0100 = 1 from rfl, Space.vaddr, hclear]
    decide
  have htable : entry m kernelDir (vpage 0xc0101000 / 1024) ≠ none := by
    rw [hpage, show 0xc0101 / 1024 = 768 from rfl, hm.bootPages.first]
    exact Option.some_ne_none _
  have hfree : ∃ b, ((Memory.boot m 0x2000000).pool .kernel).Free b := by
    refine Pool.freeCount_pos.1 ?_
    change 0 < (Memory.boot m 0x2000000).kernelPool.freeCount
    rw [(boot_freeCount m 0x2000000).1]
    decide
  refine (runs_getPage_contract_iff hm hrun (Or.inr ⟨rfl, rfl⟩) (by decide) ?_ ?_ ?_ (h.getFits htable)).2
    ⟨rfl, ?_, hfree⟩
  · rw [hsp, hpage, Space.first]
    omega
  · rw [hsp, hpage]
    exact hheap
  · rw [hsp, hpage]
    exact hbit
  · rw [hsp, hpage, Space.first]
    omega

/-- On a machine with 8 MB and 64 KB, 775 pages and the table that they need take all 776 frames; then
`getPage` of the last page returns `NULL` and keeps the lock. -/
theorem getPage_not_contract : ∃ a, Runs (fun e b => Fits e b.s)
      (Allocator.start (pageSetup fun _ => 0) 0x810000) a ∧ a.s.Serves .kernel ∧
    Space.kernel.Heap a.s (vpage 0xc0407000) ∧ Space.kernel.bit a.s (vpage 0xc0407000) = false ∧
    (∃ s', getPage .kernel 0xc0407000 a.s = .ok (none, s') ∧ s'.holder .kernel = some a.s.cur) ∧
    ¬GetPageContract .kernel 0xc0407000 a.s := by
  have hm : Loaded (pageSetup fun _ => 0) := ⟨fun _ => 0, fun _ _ _ => rfl⟩
  generalize pageSetup (fun _ => 0) = m at hm ⊢
  have hneeded := boot_kernelNeeded (n := 775) hm.bootPages (by decide) (by decide)
  have hsize : (kernelFreePages 0x810000).toNat / 8 = 97 := by decide
  obtain ⟨s', hstep, hfits, hsp, hp, hsize', hholder, hleft⟩ := start_allocate hm 0x810000 (n := 775)
    ⟨by omega, by omega⟩ (by rw [hsize]; omega) (Nat.le_of_eq (by rw [hsize, hneeded]))
  rw [hneeded, hsize] at hleft
  rw [hsize] at hsize'
  have hrun : Runs (fun e b => Fits e b.s) (Allocator.start m 0x810000)
      ⟨s', [⟨.kernel, 0xc0100, 775, false⟩], [mainTask]⟩ := .single ⟨_, hfits, hstep⟩
  obtain ⟨dir, h⟩ := runs_inv hm (fun _ _ hfits => hfits) hrun
  have hpage : vpage 0xc0407000 = 0xc0407 := by decide
  have hbit : Space.kernel.bit s' (vpage 0xc0407000) = false := by
    rw [hpage, Space.bit]
    change (true && bitmapTest s'.kernelVaddr.vaddrBitmap 775) = false
    rw [hp 775 (by omega)]
    decide
  have hheap : Space.kernel.Heap s' (vpage 0xc0407000) := by
    rw [hpage, Space.Heap, hsize']
    omega
  have hno : ∀ b, ¬(s'.pool .kernel).Free b := by
    intro b hb
    have hpos := Pool.freeCount_pos.2 ⟨b, hb⟩
    change 0 < s'.kernelPool.freeCount at hpos
    omega
  have hpf : PoolFlags.kernel = s'.space.flag := by rw [hsp]; rfl
  have hfirst : s'.space.first < vpage 0xc0407000 := by
    rw [hsp, hpage, Space.first]
    omega
  have hfits' : GetFits .kernel 0xc0407000 s' := by
    intro p memPool hpalloc
    exact absurd (palloc_eq_none_iff.2 hno) (by rw [hpalloc]; exact Option.some_ne_none p)
  have hheap' : s'.space.Heap s' (vpage 0xc0407000) := by rw [hsp]; exact hheap
  have hbit' : s'.space.bit s' (vpage 0xc0407000) = false := by rw [hsp]; exact hbit
  obtain ⟨s₁, hr, hout⟩ := h.tables.getPage hpf (hholder .kernel) (by decide) hfirst hheap' hbit' hfits'
  rcases hout with ⟨-, hnull⟩ | ⟨p, s₂, -, -, -, -, hfree⟩
  · refine ⟨_, hrun, serves_iff.2 hpf, hheap, hbit, ⟨_, hnull, ?_⟩, fun hcontract => ?_⟩
    · change update s'.holder .kernel (some s'.cur) .kernel = some s'.cur
      exact update_self _ _ _
    obtain ⟨-, -, b, hb⟩ :=
      (h.tables.getPage_contract_iff hpf (by decide) (Nat.le_of_lt hfirst) hheap' hbit' hfits').1 hcontract
    exact hno b hb
  · exact absurd hfree (hno p)

end HoloOS
