import HoloOS.MemoryTableFrames

/-! Kernel space in all address spaces. `createPageDir` copies the kernel's directory entries, and a page
table that the kernel makes later stands behind its own directory only. So kernel space is the same
everywhere as long as no page table of the kernel is made once there is a process. -/

namespace HoloOS

open Function Paging

variable {a a' : Allocator} {s s₁ s' : Memory} {dir dir' : Space → Nat} {pf : PoolFlags} {vaddr v : Word}
  {i j n : Nat}

/-- Every page of kernel space below the recursive window has the same translation in each process as in the
kernel. -/
def SameKernelSpace (s : Memory) : Prop :=
  ∀ t, s.IsProcess t → ∀ n, 0xc0000 ≤ n → n < 0xffc00 → s.frameOf (.process t) n = s.frameOf .kernel n

/-- The directory of each process has the kernel's entries for kernel space. -/
def SameEntries (s : Memory) (dir : Space → Nat) : Prop :=
  ∀ t, s.IsProcess t → ∀ i, 768 ≤ i → i < 1023 → entry s.mem (dir (.process t)) i = entry s.mem kernelDir i

theorem Tables.sameKernelSpace (h : Tables s dir) (hsame : SameEntries s dir) : SameKernelSpace s := by
  intro t ht n hlo hhi
  have hexists : (Space.process t).Exists s := ht
  rw [Memory.frameOf, Memory.frameOf, h.directory_eq hexists, Memory.directory, mapped, mapped,
    hsame t ht (n / 1024) (by omega) (by omega)]

/-- The first `n` pages that are clear in the bitmap of the kernel, as far as there are frames for them, lie
behind directory entries that are present. -/
def NoNewTable (n : Nat) (s : Memory) : Prop :=
  ∀ i, bitmapScan s.kernelVaddr.vaddrBitmap n = some i → ∀ k < n, k < s.kernelPool.freeCount →
    entry s.mem kernelDir ((0xc0100 + i + k) / 1024) ≠ none

/-- The kernel needs no further page table for the event. -/
def FindsTables : AllocEvent → Memory → Prop
  | .mallocPage .kernel n, s => NoNewTable n s
  | .getPage .kernel vaddr, s =>
      0 < s.kernelPool.freeCount → entry s.mem kernelDir (vpage vaddr / 1024) ≠ none
  | .threadStart, s => NoNewTable 1 s
  | .processExecute, s => NoNewTable 1 s ∧ ∀ t s₁, newTask s = .ok (t, s₁) → NoNewTable 23 s₁ ∧
      ∀ s₂, createUserVaddrBitmap t s₁ = .ok s₂ → NoNewTable 1 s₂
  | _, _ => True

theorem Tables.tableFits_of_entry (h : Tables s dir)
    (htable : entry s.mem (dir s.space) (vpage vaddr / 1024) ≠ none) : TableFits vaddr s :=
  tableFits_of_count h (by unfold tableNeed; rw [if_neg htable]; exact Nat.zero_le _)

/-- The next page of a kernel thread, behind an entry that is present. -/
theorem Tables.nextPresent (h : Tables s dir) (hsp : s.space = .kernel)
    (hmap : ∀ k < n + 1, Mappable s dir (vpage vaddr + k)) {p : Word} {memPool : Pool}
    (hpalloc : HoloOS.palloc (s.pool .kernel) = (some p, memPool))
    (hfirst : entry s.mem kernelDir (vpage vaddr / 1024) ≠ none) :
    ∃ s', HoloOS.pageTableAdd vaddr p (s.setPool .kernel memPool) = .ok s' ∧ Tables s' dir ∧ s'.space = .kernel ∧
      (∀ i < 1024, entry s'.mem kernelDir i = entry s.mem kernelDir i) ∧
      s'.kernelPool.freeCount + 1 = s.kernelPool.freeCount ∧ vpage (vaddr + 4096) = vpage vaddr + 1 ∧
      ∀ k < n, Mappable s' dir (vpage (vaddr + 4096) + k) := by
  have hpf : PoolFlags.kernel = s.space.flag := by rw [hsp]; rfl
  have hfit : TableFits vaddr (s.setPool .kernel memPool) := by
    refine (h.palloc hpalloc).1.tableFits_of_entry ?_
    change entry s.mem (dir s.space) _ ≠ none
    rw [hsp, h.dir_kernel]
    exact hfirst
  obtain ⟨s', hadd, h', hspace, hcounted, hnext, hmap', -⟩ := h.next hpf hmap hpalloc hfit
  obtain ⟨s₁, hadd₁, -, hg, -⟩ := h.mapOne hpf (hmap 0 (Nat.succ_pos n)) hpalloc hfit
  rw [hadd] at hadd₁
  cases hadd₁
  refine ⟨s', hadd, h', hspace.trans hsp, fun i hi => ?_, ?_, hnext, hmap'⟩
  · have hother := hcounted.other i
    have hkeep := hg.dirs .kernel i
    rw [hsp, h.dir_kernel] at hother
    rw [h.dir_kernel] at hkeep
    by_cases he : i = vpage vaddr / 1024
    · obtain ⟨f, hf⟩ := Option.ne_none_iff_exists'.1 hfirst
      rw [← he] at hf
      rw [hkeep f trivial hi hf, hf]
    · exact hother he hi
  · have hkernel := hcounted.kernel
    unfold tableNeed at hkernel
    rw [if_pos rfl, hsp, h.dir_kernel, if_neg hfirst] at hkernel
    exact hkernel

/-- The loop of `mallocPage` makes no page table where those of its pages exist. -/
theorem Tables.mallocLoop_entries (h : Tables s dir) (hsp : s.space = .kernel) (n : Nat)
    (hmap : ∀ k < n, Mappable s dir (vpage vaddr + k))
    (hexist : ∀ k < n, k < s.kernelPool.freeCount → entry s.mem kernelDir ((vpage vaddr + k) / 1024) ≠ none)
    {done : Bool} (hloop : HoloOS.mallocLoop .kernel n vaddr s = .ok (done, s')) (hi : i < 1024) :
    entry s'.mem kernelDir i = entry s.mem kernelDir i := by
  induction n generalizing vaddr s with
  | zero =>
      cases hloop
      rfl
  | succ n ih =>
      cases hpalloc : HoloOS.palloc (s.pool .kernel) with
      | mk r memPool =>
      rw [HoloOS.mallocLoop, hpalloc] at hloop
      cases r with
      | none =>
          cases hloop
          rfl
      | some p =>
          have hcount := h.palloc_count hpalloc .kernel
          rw [if_pos rfl] at hcount
          have hfirst := hexist 0 (Nat.succ_pos n) (by change 0 < (s.pool .kernel).freeCount; omega)
          obtain ⟨s₂, hadd, h₂, hsp₂, hsame, hfree, hnext, hmap₂⟩ := h.nextPresent hsp hmap hpalloc hfirst
          dsimp only at hloop
          rw [hadd, ok_bind] at hloop
          rw [ih h₂ hsp₂ hmap₂ (fun k hk hlt => ?_) hloop, hsame i hi]
          have hlast := ((hmap (k + 1) (by omega)).heap).lt h.toLayout
          rw [hnext, Nat.add_assoc, Nat.add_comm 1 k, hsame _ (by omega)]
          exact hexist (k + 1) (by omega) (by omega)

theorem Tables.mallocPage_entries (h : Tables s dir) (hsp : s.space = .kernel) (hexist : NoNewTable n s)
    {v : Option Word} (hcall : HoloOS.mallocPage .kernel n s = .ok (v, s')) (hi : i < 1024) :
    entry s'.mem kernelDir i = entry s.mem kernelDir i := by
  have hpf : PoolFlags.kernel = s.space.flag := by rw [hsp]; rfl
  have hn := mallocPage_pgCnt hcall
  rw [HoloOS.mallocPage, massert_bind (decide_eq_true hn)] at hcall
  rcases h.vaddrGet hpf hn.1 with ⟨-, hnone⟩ | ⟨w, s₁, hr, hscanned, ⟨-, hget⟩ | ⟨-, hpanic⟩⟩
  · rw [hnone] at hcall
    cases hcall
    rfl
  · rw [hget, ok_bind] at hcall
    obtain ⟨⟨done, s₂⟩, hloop, hcall⟩ := bind_ok hcall
    cases hcall
    have hsame := hr.marks.same
    have hpage := hscanned.page hr hscanned
    have hw : vpage w = 0xc0100 + (vpage w - s.space.first) := by
      rw [hsp, Space.first] at hpage ⊢
      exact hpage
    rw [← hsame.mem]
    refine (hr.marks.tables h).mallocLoop_entries (hsame.space.trans hsp) n (hr.mappable h) ?_ hloop hi
    intro k hk hlt
    rw [hsame.kernelPool] at hlt
    rw [hsame.mem, hw]
    exact hexist _ hscanned k hk hlt
  · rw [hpanic] at hcall
    cases hcall

/-- The pages that `getKernelPages` returns lie behind entries that were present. -/
theorem Tables.getKernelPages_present (h : Tables s dir) (hsp : s.space = .kernel) (hfits : MallocFits .kernel n s)
    (hexist : NoNewTable n s) (hcall : HoloOS.getKernelPages n s = .ok (some v, s')) :
    ∀ k < n, entry s.mem kernelDir ((vpage v + k) / 1024) ≠ none := by
  have hpf : PoolFlags.kernel = s.space.flag := by rw [hsp]; rfl
  obtain ⟨⟨w, s₁⟩, hpages, hcall⟩ := bind_ok hcall
  cases w with
  | none => cases hcall
  | some w =>
      obtain ⟨s₂, -, hcall⟩ := bind_ok hcall
      cases hcall
      intro k hk
      rcases h.mallocPage hpf (mallocPage_pgCnt hpages) hfits with
        ⟨-, -, ⟨hflag, -⟩, -⟩ | ⟨-, hnone⟩ | ⟨done, w, s₃, -, hok, -, hm⟩
      · cases hflag
      · rw [hnone] at hpages
        cases hpages
      · have hlast : vpage w + k < 2 ^ 20 := by
          obtain ⟨s₄, hr, -⟩ := hm.reserved
          have hlt := (hr.heap k hk).lt h.toLayout
          omega
        rw [hpages] at hok
        cases done with
        | false => cases hok
        | true =>
            cases hok
            obtain ⟨f, hf⟩ := hm.mapped rfl k hk
            obtain ⟨table, htable, -⟩ := mapped_eq_some.1 hf
            rw [hsp, h.dir_kernel] at htable
            rw [← h.mallocPage_entries hsp hexist hpages (by omega), htable]
            exact Option.some_ne_none _

/-- An allocation behind entries that are present leaves the kernel's directory as it was. -/
theorem Malloced.entries (hm : Malloced s s' dir v n true) (h : Tables s dir)
    (hpresent : s.space = .kernel → ∀ k < n, entry s.mem kernelDir ((vpage v + k) / 1024) ≠ none) (hi : i < 1024) :
    entry s'.mem kernelDir i = entry s.mem kernelDir i := by
  by_cases hin : s.space = .kernel ∧ ∃ k < n, i = (vpage v + k) / 1024
  · obtain ⟨hsp, k, hk, rfl⟩ := hin
    obtain ⟨f, hf⟩ := Option.ne_none_iff_exists'.1 (hpresent hsp k hk)
    obtain ⟨s₁, hr, hg⟩ := hm.reserved
    have hkeep := hg.dirs .kernel _ f trivial hi
    rw [h.dir_kernel, hr.marks.same.mem] at hkeep
    rw [hkeep hf, hf]
  · exact hm.other_entry h hi fun hsp k hk he => hin ⟨hsp, k, hk, he⟩

/-- The pool had a frame for the first page. -/
theorem Malloced.free_pos (hm : Malloced s s' dir v n true) (h : Tables s dir) (hn : 0 < n) :
    0 < (s.pool s.space.flag).freeCount := by
  obtain ⟨s₁, hr, hg⟩ := id hm.reserved
  obtain ⟨f, hf⟩ := hm.mapped rfl 0 hn
  have hheap := hr.heap 0 hn
  have hnone := h.clear s.space _ hheap (hr.clear 0 hn)
  rw [← hr.marks.same.mem] at hnone
  have hborn := hg.born (.page s.space (vpage v + 0)) f (hr.marks.same.heap_iff.2 hheap) hnone hf
  rw [hr.marks.same.pool] at hborn
  exact Pool.freeCount_pos.2 ⟨f, hborn⟩

/-- An allocation leaves the entries of a process for kernel space alone. -/
theorem Malloced.process_entry {done : Bool} (hm : Malloced s s' dir v n done) {t : Tid} (ht : s.IsProcess t)
    (hlo : 768 ≤ i) (hi : i < 1024) :
    entry s'.mem (dir (.process t)) i = entry s.mem (dir (.process t)) i := by
  obtain ⟨s₁, hr, hg⟩ := hm.reserved
  have hexists : Space.Exists s₁ (.process t) := hr.marks.same.exists_iff.2 ht
  have hother := hg.other (.process t) i hexists hi fun k hk hk' hin => by
    have hheap := hr.heap (k - vpage v) (by omega)
    rw [← hr.marks.same.space, ← hin.1, show vpage v + (k - vpage v) = k by omega] at hheap
    have hlt := hheap.2
    omega
  rw [hr.marks.same.mem] at hother
  exact hother

theorem SameEntries.malloced (hs : SameEntries s dir) {done : Bool} (hm : Malloced s s' dir v n done)
    (hkernel : (∃ t, s.IsProcess t) → ∀ i < 1024, entry s'.mem kernelDir i = entry s.mem kernelDir i) :
    SameEntries s' dir := by
  intro t ht i hlo hhi
  have ht₀ := hm.process t ht
  rw [hm.process_entry ht₀ hlo (by omega), hkernel ⟨t, ht₀⟩ i (by omega)]
  exact hs t ht₀ i hlo hhi

theorem SameEntries.congr (hs : SameEntries s dir) (hproc : ∀ t, s'.IsProcess t → s.IsProcess t)
    (hentry : ∀ sp : Space, sp.Exists s → ∀ i < 1024, entry s'.mem (dir sp) i = entry s.mem (dir sp) i)
    (h : Tables s dir) : SameEntries s' dir := by
  intro t ht i hlo hhi
  have hkernel := hentry .kernel trivial i (by omega)
  rw [h.dir_kernel] at hkernel
  rw [hentry (.process t) (hproc t ht) i (by omega), hkernel]
  exact hs t (hproc t ht) i hlo hhi

/-- A new page for a kernel thread. -/
theorem SameEntries.pages (hs : SameEntries s dir) (h : Tables s dir) (hsp : s.space = .kernel)
    (hfits : MallocFits .kernel n s) (hfinds : (∃ t, s.IsProcess t) → NoNewTable n s)
    (hm : Malloced s s' dir v n true) (hcall : HoloOS.getKernelPages n s = .ok (some v, s₁)) : SameEntries s' dir :=
  hs.malloced hm fun hproc _ hi =>
    hm.entries h (fun _ => h.getKernelPages_present hsp hfits (hfinds hproc) hcall) hi

theorem newTask_pages {t : Tid} (ht : t ≠ 0) (hcall : newTask s = .ok (t, s')) :
    ∃ v s₁, getKernelPages 1 s = .ok (some v, s₁) ∧ v.toNat = t := by
  obtain ⟨⟨w, s₁⟩, hpages, hcall⟩ := bind_ok hcall
  cases w with
  | none =>
      cases hcall
      exact absurd rfl ht
  | some w =>
      cases hcall
      exact ⟨w, s₁, hpages, rfl⟩

theorem SameEntries.newTask (hs : SameEntries a.s dir) (h : AllocInv a dir) (hkernel : a.s.space = .kernel)
    (hfits : MallocFits .kernel 1 a.s) (hfinds : (∃ t, a.s.IsProcess t) → NoNewTable 1 a.s) {t : Tid} (ht : t ≠ 0)
    (hcall : HoloOS.newTask a.s = .ok (t, s')) : SameEntries s' dir := by
  obtain ⟨w, hw, -, hm, -⟩ := h.newTask hkernel hfits ht hcall
  obtain ⟨v, s₁, hpages, hv⟩ := newTask_pages ht hcall
  obtain rfl : v = w := BitVec.eq_of_toNat_eq (hv.trans hw.symm)
  exact hs.pages h.tables hkernel hfits hfinds hm hpages

/-- The new directory has the kernel's entries. -/
theorem SameEntries.stages {s₂ : Memory} {t : Tid} {b d : Word} {f : Nat} (hs : SameEntries s dir) (h : Tables s dir)
    (hsp : s.space = .kernel) (hfits : SpaceFits t s) (hbits : getKernelPages 23 s = .ok (some b, s₁))
    (hfinds : (∃ t, s.IsProcess t) → NoNewTable 23 s ∧ ∀ s₂, createUserVaddrBitmap t s = .ok s₂ → NoNewTable 1 s₂)
    (hst : Stages s s₁ s₂ s' dir t b d f) : SameEntries s' (update dir (.process t) f) := by
  have hs₁ := hs.pages h hsp hfits.1 (fun hproc => (hfinds hproc).1) hst.bitmap hbits
  have hcreate := createUserVaddrBitmap_some t hbits
  set s₀ := s₁.setUserVaddr t ⟨userBitmap, 0x8048000⟩ with hs₀
  have hproc₀ : ∀ u, s₀.IsProcess u ↔ s₁.IsProcess u := by
    intro u
    unfold Memory.IsProcess
    rw [hs₀, setUserVaddr_pageDir]
  have hsame₀ : SameEntries s₀ dir := fun u hu i hlo hhi => hs₁ u ((hproc₀ u).1 hu) i hlo hhi
  have hsp₀ : s₀.space = .kernel :=
    (if_congr (hproc₀ s₁.cur) rfl rfl).trans (hst.bitmap.tables_same.1.trans hsp)
  obtain ⟨s₃, hpages, -⟩ := hst.pages
  have hs₂ : SameEntries s₂ dir := by
    refine hsame₀.pages hst.cleared hsp₀ (hfits.2 _ hcreate) (fun hproc => ?_) hst.dirPage hpages
    obtain ⟨u, hu⟩ := hproc
    exact (hfinds ⟨u, hst.bitmap.process u ((hproc₀ u).1 hu)⟩).2 _ hcreate
  obtain ⟨s₄, hr, -⟩ := id hst.dirPage.reserved
  have hd : d ≠ 0 := hr.ne_zero
  have hs₃ : SameEntries (s₂.setPageDir t d) (update dir (.process t) f) := by
    intro u hu i hlo hhi
    by_cases he : u = t
    · rw [he, update_self]
      exact hst.copied.copied i hlo hhi
    · rw [update_of_ne (fun hsame => he (Space.process.inj hsame))]
      exact hs₂ u (((setPageDir_isProcess hd u).1 hu).resolve_left he) i hlo hhi
  refine hs₃.congr (fun u hu => ?_) (fun sp hexists i hi => ?_) hst.adopted
  · unfold Memory.IsProcess at hu ⊢
    rw [hst.descs.same] at hu
    exact hu
  · exact hst.adopted.dir_scribbled hst.descs.inside hexists hi

theorem SameEntries.step (hs : SameEntries a.s dir) (h : AllocInv a dir) {e : AllocEvent} (hfits : Fits e a.s)
    (hfinds : (∃ t, a.s.IsProcess t) → FindsTables e a.s) (hstep : AllocStep a e a') :
    ∃ dir', AllocInv a' dir' ∧ SameEntries a'.s dir' := by
  cases hstep with
  | @mallocPage pf n v s' hserves hcall =>
      refine ⟨dir, h.mallocPage hserves hfits hcall, ?_⟩
      rcases h.mallocPage_outcome hserves hfits hcall with ⟨-, rfl⟩ | ⟨done, w, -, ht, hm⟩
      · exact hs
      · refine hs.malloced hm fun hproc i hi => ?_
        cases pf with
        | kernel =>
            rcases space_of_flag (serves_iff.1 hserves) with ⟨-, hsp⟩ | ⟨hflag, -⟩
            · exact h.tables.mallocPage_entries hsp (hfinds hproc) hcall hi
            · cases hflag
        | user =>
            refine hm.other_entry h.tables hi fun hsp => ?_
            have hflag := serves_iff.1 hserves
            rw [hsp] at hflag
            cases hflag
  | mfreePage hlive hheld hspace hcall =>
      obtain ⟨s₁, s₂, hfree, hshrank, hm, hinv⟩ := h.mfreePage hlive hheld hspace
      rw [hfree] at hcall
      cases hcall
      refine ⟨dir, hinv, hs.congr (fun t ht => ?_) (fun sp hsp i hi => ?_) h.tables⟩
      · exact (hshrank.isProcess t).1 ((hm.same.isProcess t).1 ht)
      · rw [← hshrank.dirs sp i hsp hi]
        exact congrArg (fun m => entry m (dir sp) i) hm.same.mem
  | @getPage pf vaddr v s' hserves haligned hindex hin hclear hcall =>
      refine ⟨dir, h.getPage hserves haligned hindex hin hclear hfits hcall, ?_⟩
      rcases h.getPage_outcome hserves haligned hindex hin hclear hfits hcall with
        ⟨-, s₁, hr, rfl⟩ | ⟨-, -, hm⟩
      · refine hs.congr (fun t ht => (hr.marks.same.isProcess t).1 ht) (fun sp _ i _ => ?_) h.tables
        exact congrArg (fun m => entry m (dir sp) i) hr.marks.same.mem
      · refine hs.malloced hm fun hproc i hi => ?_
        cases pf with
        | kernel =>
            have hfree := hm.free_pos h.tables Nat.one_pos
            refine hm.entries h.tables (fun hsp k hk => ?_) hi
            rw [hsp] at hfree
            rw [show vpage vaddr + k = vpage vaddr by omega]
            exact hfinds hproc hfree
        | user =>
            refine hm.other_entry h.tables hi fun hsp => ?_
            have hflag := serves_iff.1 hserves
            rw [hsp] at hflag
            cases hflag
  | threadStart hkernel ht hcall =>
      exact ⟨dir, h.threadStart hkernel hfits ht hcall, hs.newTask h hkernel hfits hfinds ht hcall⟩
  | processExecute hkernel ht hpcb hbits hcall hdir =>
      obtain ⟨v, -, h₁, hm, -⟩ := h.newTask hkernel hfits.1 ht hpcb
      obtain ⟨f, s₃, -, hstages, hinv⟩ :=
        h.processExecute hkernel hfits.1 ht hpcb (hfits.2 _ _ hpcb) hbits hcall hdir
      refine ⟨_, hinv, ?_⟩
      refine (hs.newTask h hkernel hfits.1 (fun hproc => (hfinds hproc).1) ht hpcb).stages h₁
        (hm.tables_same.1.trans hkernel) (hfits.2 _ _ hpcb) hbits (fun hproc => ?_) hstages
      obtain ⟨u, hu⟩ := hproc
      exact (hfinds ⟨u, hm.process u hu⟩).2 _ _ hpcb
  | processActivate htask hcall =>
      refine ⟨dir, h.processActivate htask hcall, ?_⟩
      rw [h.activated hcall]
      exact hs
  | write hlive hheld hpage hcall =>
      have hscribbles := h.write_scribbles hlive hheld hpage hcall
      refine ⟨dir, h.write hlive hheld hpage hcall, hs.congr (fun t ht => ?_) (fun sp hsp i hi => ?_) h.tables⟩
      · unfold Memory.IsProcess at ht ⊢
        rw [hscribbles.same] at ht
        exact ht
      · exact h.tables.dir_scribbled hscribbles.inside hsp hi
  | access hpage => exact ⟨dir, h.cached _, hs⟩

/-- The page that the loop of `mallocPage` reaches when all earlier ones have their tables. -/
theorem Tables.mallocLoop_mapped (h : Tables s dir) (hsp : s.space = .kernel) {k : Nat} (hk : k < n)
    (hmap : ∀ j < n, Mappable s dir (vpage vaddr + j)) (hfits : LoopFits .kernel n vaddr s)
    (hfree : k < s.kernelPool.freeCount)
    (hbefore : ∀ j < k, entry s.mem kernelDir ((vpage vaddr + j) / 1024) ≠ none) {done : Bool}
    (hloop : HoloOS.mallocLoop .kernel n vaddr s = .ok (done, s')) :
    mapped s'.mem kernelDir (vpage vaddr + k) ≠ none := by
  induction k generalizing vaddr s n with
  | zero =>
      obtain ⟨n, rfl⟩ := Nat.exists_eq_add_one_of_ne_zero (Nat.ne_of_gt hk)
      have hpf : PoolFlags.kernel = s.space.flag := by rw [hsp]; rfl
      have hfirst := hmap 0 (Nat.succ_pos n)
      cases hpalloc : HoloOS.palloc (s.pool .kernel) with
      | mk r memPool =>
      rw [HoloOS.mallocLoop, hpalloc] at hloop
      cases r with
      | none =>
          obtain ⟨f, hf⟩ := Pool.freeCount_pos.1 hfree
          exact absurd hf (palloc_eq_none_iff.1 (show (HoloOS.palloc (s.pool .kernel)).1 = none by rw [hpalloc]) f)
      | some p =>
          obtain ⟨hfit, hrest⟩ := hfits p memPool hpalloc
          obtain ⟨s₁, hadd, h₁, hg, hpage, -⟩ := h.mapOne hpf hfirst hpalloc hfit
          obtain ⟨s₂, hadd₂, -, hspace, -, hnext, hmap₁, -⟩ := h.next hpf hmap hpalloc hfit
          rw [hadd] at hadd₂
          cases hadd₂
          dsimp only at hloop
          rw [hadd, ok_bind] at hloop
          obtain ⟨done', s₂, hloop', -, hg', -, -⟩ := h₁.mallocLoop (by rw [hspace]; exact hpf) n hmap₁ (hrest s₁ hadd)
          rw [hloop] at hloop'
          cases hloop'
          have hvalid : (Owner.page s.space (vpage vaddr)).Valid s₁ := (hg.valid _).2 hfirst.heap
          have hkept := hg'.keeps (.page s.space (vpage vaddr)) _ hvalid hpage
          rw [Owner.frame_page, hsp, h.dir_kernel] at hkept
          rw [Nat.add_zero, hkept]
          exact Option.some_ne_none _
  | succ k ih =>
      obtain ⟨n, rfl⟩ := Nat.exists_eq_add_one_of_ne_zero (Nat.ne_of_gt (Nat.zero_lt_of_lt hk))
      cases hpalloc : HoloOS.palloc (s.pool .kernel) with
      | mk r memPool =>
      rw [HoloOS.mallocLoop, hpalloc] at hloop
      cases r with
      | none =>
          obtain ⟨f, hf⟩ := Pool.freeCount_pos.1 (Nat.zero_lt_of_lt hfree)
          exact absurd hf (palloc_eq_none_iff.1 (show (HoloOS.palloc (s.pool .kernel)).1 = none by rw [hpalloc]) f)
      | some p =>
          obtain ⟨-, hrest⟩ := hfits p memPool hpalloc
          have hfirst := hbefore 0 (Nat.succ_pos k)
          obtain ⟨s₁, hadd, h₁, hsp₁, hsame, hcount, hnext, hmap₁⟩ := h.nextPresent hsp hmap hpalloc hfirst
          dsimp only at hloop
          rw [hadd, ok_bind] at hloop
          have hpage := ih h₁ hsp₁ (Nat.lt_of_succ_lt_succ hk) hmap₁ (hrest s₁ hadd) (by omega)
            (fun j hj => ?_) hloop
          · rw [hnext, Nat.add_assoc, Nat.add_comm 1 k] at hpage
            exact hpage
          · have hlast := ((hmap (j + 1) (by omega)).heap).lt h.toLayout
            rw [hnext, Nat.add_assoc, Nat.add_comm 1 j, hsame _ (by omega)]
            exact hbefore (j + 1) (by omega)

/-- A page table that is made when there is a process is missing in that process. -/
theorem SameEntries.noNewTable (hs : SameEntries a.s dir) (h : AllocInv a dir)
    (hfits : MallocFits .kernel n a.s) (hserves : a.s.Serves .kernel) {w : Option Word}
    (hcall : HoloOS.mallocPage .kernel n a.s = .ok (w, s')) (hsame : SameKernelSpace s')
    (hproc : ∃ t, a.s.IsProcess t) : NoNewTable n a.s := by
  obtain ⟨t, ht⟩ := hproc
  have hpf := serves_iff.1 hserves
  have hsp : a.s.space = .kernel := (space_of_flag hpf).elim And.right fun hor => by cases hor.1
  have hinv := h.mallocPage hserves hfits hcall
  have hn := mallocPage_pgCnt hcall
  have hkept : s'.IsProcess t ∧ ∀ j, 768 ≤ j → j < 1024 →
      entry s'.mem (dir (.process t)) j = entry a.s.mem (dir (.process t)) j := by
    rcases h.mallocPage_outcome hserves hfits hcall with ⟨-, rfl⟩ | ⟨done, w, -, -, hm⟩
    · exact ⟨ht, fun _ _ _ => rfl⟩
    · exact ⟨hm.kept.spaces (.process t) ht, fun j hlo hj => hm.process_entry ht hlo hj⟩
  intro i hscan
  rw [HoloOS.mallocPage, massert_bind (decide_eq_true hn)] at hcall
  rcases h.tables.vaddrGet hpf hn.1 with ⟨hnone, -⟩ | ⟨v, s₁, hr, hscanned, ⟨-, hget⟩ | ⟨-, hpanic⟩⟩
  · rw [show (a.s.vaddr .kernel).vaddrBitmap = a.s.kernelVaddr.vaddrBitmap from rfl, hscan] at hnone
    cases hnone
  · rw [hget, ok_bind] at hcall
    obtain ⟨⟨done, s₂⟩, hloop, hcall⟩ := bind_ok hcall
    cases hcall
    have hpage : vpage v = 0xc0100 + i := by
      rw [hscanned.page hr hscan, hsp]
      rfl
    have hmarks := hr.marks.same
    intro k
    induction k using Nat.strongRecOn with
    | ind k ih =>
    intro hk hfree habsent
    have hheap := hr.heap k hk
    rw [hsp, hpage] at hheap
    have hbound := h.tables.vfit
    have hmapped := (hr.marks.tables h.tables).mallocLoop_mapped (hmarks.space.trans hsp) hk (hr.mappable h.tables)
      (hfits v s₁ hget) (by rw [hmarks.kernelPool]; exact hfree) (fun j hj => ?_) hloop
    · have hexists : (Space.process t).Exists s' := hkept.1
      have hpages := hsame t hkept.1 (vpage v + k) (by omega) (by have := hheap.2; omega)
      rw [Memory.frameOf, Memory.frameOf, hinv.tables.directory_eq hexists, mapped,
        hkept.2 _ (by omega) (by have := hheap.2; omega), hs t ht _ (by omega) (by have := hheap.2; omega), hpage,
        habsent] at hpages
      rw [hpage] at hmapped
      exact hmapped hpages.symm
    · rw [hmarks.mem, hpage]
      exact ih j hj (by omega) (by omega)
  · rw [hpanic] at hcall
    cases hcall

theorem AllocStep.mallocPage_call (hstep : AllocStep a (.mallocPage pf n) a') :
    a.s.Serves pf ∧ ∃ v, HoloOS.mallocPage pf n a.s = .ok (v, a'.s) := by
  cases hstep with
  | mallocPage hserves hcall => exact ⟨hserves, _, hcall⟩

theorem start_sameEntries (m : Mem) (memCapacity : Word) :
    SameEntries (Allocator.start m memCapacity).s fun _ => kernelDir :=
  fun _ ht => absurd rfl ht

/-- In every run in which the kernel makes no page table once there is a process, kernel space is the same in
all address spaces; a further allocation keeps it so exactly then. -/
theorem runs_sameKernelSpace {m : Mem} (hm : Loaded m) {memCapacity : Word}
    (hrun : Runs (fun e b => Fits e b.s ∧ ((∃ t, b.s.IsProcess t) → FindsTables e b.s))
      (Allocator.start m memCapacity) a) :
    SameKernelSpace a.s ∧ ∀ n a', AllocStep a (.mallocPage .kernel n) a' → Fits (.mallocPage .kernel n) a.s →
      (SameKernelSpace a'.s ↔ ((∃ t, a.s.IsProcess t) → NoNewTable n a.s)) := by
  have hinv : ∃ dir, AllocInv a dir ∧ SameEntries a.s dir := by
    induction hrun with
    | refl => exact ⟨_, start_inv hm memCapacity, start_sameEntries m memCapacity⟩
    | tail _ hstep ih =>
        obtain ⟨dir, h, hs⟩ := ih
        obtain ⟨e, ⟨hfits, hfinds⟩, hstep⟩ := hstep
        exact hs.step h hfits hfinds hstep
  obtain ⟨dir, h, hs⟩ := hinv
  refine ⟨h.tables.sameKernelSpace hs, fun n a' hstep hfits => ⟨fun hsame hproc => ?_, fun hfinds => ?_⟩⟩
  · obtain ⟨hserves, v, hcall⟩ := hstep.mallocPage_call
    exact hs.noNewTable h hfits hserves hcall hsame hproc
  · obtain ⟨dir', h', hs'⟩ := hs.step h hfits hfinds hstep
    exact h'.tables.sameKernelSpace hs'

/-- The main thread of a machine with 32 MB creates a process. -/
theorem start_create : ∃ (t : Tid) (a : Allocator),
    AllocStep (Allocator.start (pageSetup fun _ => 0) 0x2000000) .processExecute a ∧
      Fits .processExecute (Memory.boot (pageSetup fun _ => 0) 0x2000000) ∧ a.s.IsProcess t ∧
      a.s.space = .kernel ∧ Packed a.s 25 ∧ a.s.kernelVaddr.vaddrBitmap.size = 480 ∧
      a.s.kernelPool.freeCount = 3815 ∧ entry a.s.mem kernelDir 769 = none := by
  have hm : Loaded (pageSetup fun _ => 0) := ⟨fun _ => 0, fun _ _ _ => rfl⟩
  have hcount : (Memory.boot (pageSetup fun _ => 0) 0x2000000).kernelPool.freeCount = 3840 :=
    (boot_freeCount _ _).1.trans (by decide)
  have hsize : (Memory.boot (pageSetup fun _ => 0) 0x2000000).kernelVaddr.vaddrBitmap.size = 480 := by
    rw [boot_vaddrSize]
    decide
  obtain ⟨t, a, hstep, hfits, hproc, hsp, hpacked, hkept, hleft, hentries⟩ := (start_inv hm 0x2000000).create rfl
    (boot_packed _ _) (by change _ ≤ (Memory.boot _ _).kernelVaddr.vaddrBitmap.size * 8; rw [hsize]; decide)
    (by decide) (by change 25 ≤ (Memory.boot _ _).kernelPool.freeCount; rw [hcount]; decide)
  refine ⟨t, a, hstep, hfits, hproc, hsp, hpacked, hkept.trans hsize, ?_, ?_⟩
  · change _ = (Memory.boot _ _).kernelPool.freeCount at hleft
    omega
  · rw [hentries 769 (by decide)]
    exact hm.bootPages.absent 769 (by decide) (by decide) (by decide)

theorem runs_sameKernelSpace_process : ∃ (t : Tid) (a : Allocator), a.s.IsProcess t ∧ SameKernelSpace a.s := by
  have hm : Loaded (pageSetup fun _ => 0) := ⟨fun _ => 0, fun _ _ _ => rfl⟩
  obtain ⟨t, a, hstep, hfits, hproc, -⟩ := start_create
  have hnone : (∃ u, (Allocator.start (pageSetup fun _ => 0) 0x2000000).s.IsProcess u) → FindsTables .processExecute
      (Allocator.start (pageSetup fun _ => 0) 0x2000000).s := fun ⟨_, hu⟩ => absurd rfl hu
  exact ⟨t, a, hproc, (runs_sameKernelSpace hm (Relation.ReflTransGen.single ⟨_, ⟨hfits, hnone⟩, hstep⟩)).1⟩

/-- A kernel thread then takes the other pages of the first page table and one more, which lies behind a
directory entry that the process does not have. -/
theorem mallocPage_kernelSpace_differs : ∃ a a',
    AllocStep (Allocator.start (pageSetup fun _ => 0) 0x2000000) .processExecute a ∧
      AllocStep a (.mallocPage .kernel 744) a' ∧ ¬SameKernelSpace a'.s := by
  have hm : Loaded (pageSetup fun _ => 0) := ⟨fun _ => 0, fun _ _ _ => rfl⟩
  obtain ⟨t, a, hstep, hfits, hproc, hsp, hpacked, hsize, hcount, habsent⟩ := start_create
  obtain ⟨dir, h, hs⟩ := (start_sameEntries _ _).step (start_inv hm 0x2000000) hfits
    (fun ⟨_, hu⟩ => absurd rfl hu) hstep
  have htables : tableCount a.s.mem kernelDir (0xc0100 + 25) 744 ≤ 744 := by
    unfold tableCount
    exact Nat.le_trans List.countP_le_length (Nat.le_of_eq List.length_range)
  obtain ⟨s', hmalloc, hfits', -⟩ := h.allocate (n := 744) hsp hpacked ⟨by decide, by decide⟩
    (by rw [hsize]; decide) (by unfold kernelNeeded; dsimp only; omega)
  refine ⟨a, _, hstep, hmalloc, fun hsame => ?_⟩
  obtain ⟨hserves, v, hcall⟩ := hmalloc.mallocPage_call
  have hfinds := hs.noNewTable h hfits' hserves hcall hsame ⟨t, hproc⟩
  exact hfinds 25 (hpacked.scan (by decide) (by rw [hsize]; decide)) 743 (by decide) (by omega) habsent

end HoloOS
