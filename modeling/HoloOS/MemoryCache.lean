import HoloOS.MemoryAliasing

/-! Cached translations over the runs of the allocator. Only `mfreePage` and a load of `cr3` drop any, and
`mfreePage` drops that of the page in which its own variable lies, so a range must not be cached when it
is freed. -/

namespace HoloOS

open Function Paging

variable {a a' : Allocator} {s s' s'' : Memory} {dir dir' : Space → Nat} {pf : PoolFlags} {vaddr : Word} {n : Nat}

/-- The cached translations and the size of the kernel's bitmap are as they were. -/
structure Quiet (s s' : Memory) : Prop where
  tlb : s'.tlb = s.tlb
  size : s'.kernelVaddr.vaddrBitmap.size = s.kernelVaddr.vaddrBitmap.size

theorem Quiet.refl (s : Memory) : Quiet s s := ⟨rfl, rfl⟩

theorem Quiet.trans (h : Quiet s s') (h' : Quiet s' s'') : Quiet s s'' :=
  ⟨h'.tlb.trans h.tlb, h'.size.trans h.size⟩

theorem Malloced.quiet {v : Word} {done : Bool} (hm : Malloced s s' dir v n done) : Quiet s s' :=
  ⟨hm.tables_same.2.2.2.1, hm.kernelSize⟩

theorem Scribbles.quiet (hs : Scribbles s s' dir) : Quiet s s' := by
  rw [hs.same]
  exact ⟨rfl, rfl⟩

theorem Stages.quiet {s₁ s₂ : Memory} {t : Tid} {b d : Word} {f : Nat} (h : Stages s s₁ s₂ s' dir t b d f) :
    Quiet s s' := by
  have hbitmap : Quiet s (s₁.setUserVaddr t ⟨userBitmap, 0x8048000⟩) := h.bitmap.quiet.trans ⟨rfl, rfl⟩
  have hdir : Quiet s (s₂.setPageDir t d) := (hbitmap.trans h.dirPage.quiet).trans ⟨rfl, rfl⟩
  exact hdir.trans h.descs.quiet

/-- The pages of the kernel's heap and of the running thread's space. -/
def Memory.HeapPage (s : Memory) (n : Nat) : Prop := Space.kernel.Heap s n ∨ s.space.Heap s n

/-- Every cached translation of a heap page is that of the current page table. -/
def Coherent (s : Memory) : Prop := ∀ n f, s.HeapPage n → s.tlb n = some f → mapped s.mem s.cr3 n = some f

/-- No page of the range is cached. -/
def Uncached (s : Memory) (r : Range) : Prop := ∀ n, r.Contains s.space n → s.tlb n = none

/-- A range is freed when none of its pages is cached. -/
def FreesUncached : AllocEvent → Memory → Prop
  | .mfreePage r, s => Uncached s r
  | _, _ => True

/-- A table that a directory names behind the kernel's entries is the kernel's. -/
theorem Tables.entry_kernel (h : Tables s dir) {sp : Space} (hsp : sp.Exists s) {i : Nat} (hlo : 768 ≤ i)
    (hhi : i < 1023) {f : Nat} (hf : entry s.mem (dir sp) i = some f) :
    entry s.mem (dir .kernel) i = some f := by
  cases sp with
  | kernel => exact hf
  | process t =>
      rw [h.dir_kernel]
      rcases h.shared t i hsp hlo hhi with hnone | hsame
      · rw [hnone] at hf
        cases hf
      · rw [← hsame]
        exact hf

/-- A translation stays when the tables of the page keep it. -/
theorem Tables.mapped_kept (h : Tables s dir) (h' : Tables s' dir') (hspace : s'.space = s.space)
    (hn : s.HeapPage n) {f : Nat}
    (hframe : ∀ sp, sp = .kernel ∨ sp = s.space → sp.Heap s n → mapped s.mem (dir sp) n = some f →
      mapped s'.mem (dir' sp) n = some f)
    (hdirs : s.space ≠ .kernel → ∀ table, entry s.mem (dir s.space) (n / 1024) = some table →
      entry s'.mem (dir' s.space) (n / 1024) = some table)
    (hf : mapped s.mem s.cr3 n = some f) : mapped s'.mem s'.cr3 n = some f := by
  rw [h.cr3] at hf
  rw [h'.cr3, hspace]
  by_cases hown : s.space.Heap s n
  · exact hframe s.space (Or.inr rfl) hown hf
  have hkernel := hn.resolve_right hown
  have hprocess : s.space ≠ .kernel := by
    intro he
    rw [he] at hown
    exact hown hkernel
  obtain ⟨table, htable, hpage⟩ := mapped_eq_some.1 hf
  have hregion := (h.toLayout.region hkernel).lt
  have hlow : 768 ≤ n / 1024 := by
    have := hkernel.1
    omega
  have hf₀ := mapped_eq_some.2 ⟨table, h.entry_kernel s.space_exists hlow hregion htable, hpage⟩
  have htable' := hdirs hprocess table htable
  have hexists := s'.space_exists
  rw [hspace] at hexists
  obtain ⟨table', hkernel', hpage'⟩ := mapped_eq_some.1 (hframe .kernel (Or.inl rfl) hkernel hf₀)
  rw [h'.entry_kernel hexists hlow hregion htable'] at hkernel'
  cases hkernel'
  exact mapped_eq_some.2 ⟨table, htable', hpage'⟩

theorem Quiet.heapPage (hq : Quiet s s') (hspace : s'.space = s.space) (hn : s'.HeapPage n) : s.HeapPage n := by
  unfold Memory.HeapPage at *
  rw [hspace] at hn
  have hexists := s.space_exists
  have hkernel : Space.kernel.Heap s' n → Space.kernel.Heap s n := by
    intro h
    unfold Space.Heap at h ⊢
    rw [← hq.size]
    exact h
  refine hn.imp hkernel fun hown => ?_
  cases hsp : s.space with
  | kernel =>
      rw [hsp] at hown
      exact hkernel hown
  | process t =>
      rw [hsp] at hown hexists
      exact ⟨hexists, hown.2⟩

theorem Tables.heapPage_lt (h : Tables s dir) (hn : s.HeapPage n) : n / 1024 < 1024 := by
  rcases hn with hk | hk
  · exact Nat.lt_trans (h.toLayout.region hk).lt (by decide)
  · exact Nat.lt_trans (h.toLayout.region hk).lt (by decide)

/-- What takes nothing away keeps the translations that are cached. -/
theorem Coherent.kept (hc : Coherent s) (h : Tables s dir) (h' : Tables s' dir') (hk : Keeps s s' dir dir')
    (hq : Quiet s s') (hdirs : s.space ≠ .kernel → ∀ i table, i < 1024 →
      entry s.mem (dir s.space) i = some table → entry s'.mem (dir' s.space) i = some table) :
    Coherent s' := by
  intro n f hn hcached
  have hn₀ := hq.heapPage hk.space hn
  rw [hq.tlb] at hcached
  refine h.mapped_kept h' hk.space hn₀ (fun sp _ hsp hf => hk.frame (.page sp n) f hsp hf) ?_ (hc n f hn₀ hcached)
  exact fun hprocess table htable => hdirs hprocess _ table (h.heapPage_lt hn₀) htable

theorem Coherent.malloced (hc : Coherent s) (h : Tables s dir) (h' : Tables s' dir) {v : Word} {done : Bool}
    (hm : Malloced s s' dir v n done) : Coherent s' := by
  refine hc.kept h h' hm.kept hm.quiet fun _ i table hi htable => ?_
  obtain ⟨s₁, hr, hg⟩ := hm.reserved
  refine hg.dirs s.space i table (hr.marks.same.exists_iff.2 s.space_exists) hi ?_
  rw [hr.marks.same.mem]
  exact htable

theorem Coherent.mallocPage (hc : Coherent a.s) (h : AllocInv a dir) (hserves : a.s.Serves pf)
    (hfits : MallocFits pf n a.s) {v : Option Word} (hcall : HoloOS.mallocPage pf n a.s = .ok (v, s')) :
    Coherent s' := by
  rcases h.mallocPage_outcome hserves hfits hcall with ⟨-, rfl⟩ | ⟨done, w, -, ht, hm⟩
  · exact hc
  · exact hc.malloced h.tables ht hm

theorem Coherent.getPage (hc : Coherent a.s) (h : AllocInv a dir) (hserves : a.s.Serves pf)
    (haligned : vaddr.toNat % 4096 = 0) (hindex : a.s.space.first < vpage vaddr)
    (hfits : vpage vaddr < a.s.space.first + (a.s.vaddr pf).vaddrBitmap.size * 8)
    (hclear : a.s.space.bit a.s (vpage vaddr) = false) (htable : GetFits pf vaddr a.s)
    {v : Option Word} (hcall : HoloOS.getPage pf vaddr a.s = .ok (v, s')) : Coherent s' := by
  rcases h.getPage_outcome hserves haligned hindex hfits hclear htable hcall with
    ⟨-, s₁, hr, rfl⟩ | ⟨-, ht, hm⟩
  · have hsame := hr.marks.same
    intro k f hk hcached
    have hq : Quiet a.s s₁ := ⟨hr.marks.tlb, hsame.kernelSize⟩
    have hk₀ := hq.heapPage hsame.space hk
    have hcached₀ : a.s.tlb k = some f := by rw [← hr.marks.tlb]; exact hcached
    change mapped s₁.mem s₁.cr3 k = some f
    rw [hsame.mem, hsame.cr3]
    exact hc k f hk₀ hcached₀
  · exact hc.malloced h.tables ht hm

/-- The `taskStruct` of the running thread is in no range that can be freed. -/
theorem AllocInv.cur_page (h : AllocInv a dir) {r : Range} (hlive : r ∈ a.live) (hheld : r.held = false)
    (hpage : r.Contains a.s.space n) : n ≠ a.s.cur / 4096 := by
  rintro rfl
  have hheap : a.s.space.Heap a.s (a.s.cur / 4096) := (h.dataPage hlive hheld hpage).heap
  rcases h.pcbs _ h.cur with hmain | ⟨r', hlive', hheld', hcontains⟩
  · rw [hmain] at hheap
    cases hsp : a.s.space with
    | kernel =>
        rw [hsp] at hheap
        exact absurd hheap.1 (by decide)
    | process t =>
        rw [hsp] at hheap
        exact absurd hheap.2 (by decide)
  · have hne : r' ≠ r := by
      rintro rfl
      rw [hheld] at hheld'
      cases hheld'
    cases hsp : a.s.space with
    | kernel =>
        rw [hsp] at hpage
        exact h.apart.forall hlive' hlive hne .kernel _ ⟨hcontains, hpage⟩
    | process t =>
        rw [hsp] at hheap
        have hlow := Nat.le_trans (h.ranges r' hlive').first hcontains.2.1
        rw [← hcontains.1] at hlow
        exact absurd hheap.2 (Nat.not_lt.2 (Nat.le_trans (by decide) hlow))

/-- A free leaves no stale translation exactly when no page of the range is cached. -/
theorem AllocInv.mfreePage_coherent_iff (h : AllocInv a dir) (hc : Coherent a.s) {r : Range} (hlive : r ∈ a.live)
    (hheld : r.held = false) (hspace : r.space = a.s.space)
    (hcall : HoloOS.mfreePage r.space.flag (BitVec.ofNat 32 (r.page * 4096)) r.cnt a.s = .ok s') :
    Coherent s' ↔ Uncached a.s r := by
  obtain ⟨s₁, s₂, hfree, hs, hm, hinv⟩ := h.mfreePage hlive hheld hspace
  rw [hfree] at hcall
  cases hcall
  have h₂ : Tables s' dir := hinv.tables
  have hsp : s'.space = a.s.space := hm.same.space.trans hs.space
  have htlb : s'.tlb = s₁.tlb := hm.tlb
  constructor
  · intro hc' n hn
    have hdata := h.dataPage hlive hheld hn
    by_contra hcached
    obtain ⟨f, hf⟩ := Option.ne_none_iff_exists'.1 hcached
    -- the page that `invlpg` drops is another one
    have hkeep : s'.tlb n = some f := by
      rw [htlb, ← hf]
      exact (hs.tlb n).resolve_right fun hdrop => h.cur_page hlive hheld hn hdrop.2
    have hpage : s'.HeapPage n := by
      refine Or.inr ?_
      rw [hsp]
      exact hm.same.heap_iff.2 ((hs.valid (.page a.s.space n)).2 hdata.heap)
    have hgone := hc' n f hpage hkeep
    rw [h₂.cr3, hsp, hm.same.mem, hs.gone n hn.2.1 hn.2.2] at hgone
    cases hgone
  · intro hun n f hn hcached
    have hcached₀ : a.s.tlb n = some f := by
      rw [htlb] at hcached
      rcases hs.tlb n with he | ⟨hnone, -⟩
      · rw [← he]
        exact hcached
      · rw [hnone] at hcached
        cases hcached
    have hn₀ : a.s.HeapPage n := by
      unfold Memory.HeapPage at *
      rw [hsp] at hn
      have hback : ∀ sp : Space, sp.Heap s' n → sp.Heap a.s n := fun sp hk =>
        (hs.valid (.page sp n)).1 (show sp.Heap s₁ n from hm.same.heap_iff.1 hk)
      exact hn.imp (hback _) (hback _)
    refine h.tables.mapped_kept h₂ hsp hn₀ (fun sp _ hheap hf => ?_) (fun _ table htable => ?_) (hc n f hn₀ hcached₀)
    · rw [hm.same.mem]
      refine (hs.others (.page sp n) hheap fun k hk hk' he => ?_).trans hf
      have hinj := Owner.page.inj he
      rw [hun n ⟨hspace.symm, by omega, by omega⟩] at hcached₀
      cases hcached₀
    · rw [hm.same.mem, hs.dirs _ _ a.s.space_exists (h.tables.heapPage_lt hn₀)]
      exact htable

theorem Coherent.write (hc : Coherent a.s) (h : AllocInv a dir) {r : Range} (hlive : r ∈ a.live)
    (hheld : r.held = false) {val : BitVec 8} (hpage : r.Contains a.s.space (vpage vaddr))
    (hcall : a.s.storeByte vaddr val = .ok s') : Coherent s' := by
  obtain ⟨b, -, hstore⟩ := bind_ok hcall
  have hq : Quiet a.s s' := by
    cases hstore
    exact ⟨rfl, rfl⟩
  have hs := h.write_scribbles hlive hheld hpage hcall
  refine hc.kept h.tables (hs.tables h.tables) (hs.kept h.tables) hq fun _ i table hi htable => ?_
  rw [h.tables.dir_scribbled hs.inside a.s.space_exists hi]
  exact htable

/-- One step keeps the translations current, and a free does so exactly under its condition. -/
theorem Coherent.step (hc : Coherent a.s) (h : AllocInv a dir) {e : AllocEvent} (hfits : Fits e a.s)
    (hfrees : FreesUncached e a.s) (hstep : AllocStep a e a') : Coherent a'.s := by
  cases hstep with
  | mallocPage hserves hcall => exact hc.mallocPage h hserves hfits hcall
  | mfreePage hlive hheld hspace hcall => exact (h.mfreePage_coherent_iff hc hlive hheld hspace hcall).2 hfrees
  | getPage hserves haligned hindex hin hclear hcall =>
      exact hc.getPage h hserves haligned hindex hin hclear hfits hcall
  | threadStart hkernel ht hcall =>
      obtain ⟨v, -, h', hm, -⟩ := h.newTask hkernel hfits ht hcall
      exact hc.malloced h.tables h' hm
  | processExecute hkernel ht hpcb hbits hcall hdir =>
      obtain ⟨v, -, h₁, hm, -⟩ := h.newTask hkernel hfits.1 ht hpcb
      obtain ⟨f, s₃, hcreated, hstages, -⟩ :=
        h.processExecute hkernel hfits.1 ht hpcb (hfits.2 _ _ hpcb) hbits hcall hdir
      refine (hc.malloced h.tables h₁ hm).kept h₁ hcreated.tables hcreated.kept hstages.quiet ?_
      exact fun hprocess => absurd (hm.tables_same.1.trans hkernel) hprocess
  | processActivate htask hcall =>
      rw [h.activated hcall]
      intro n f _ hcached
      cases hcached
  | write hlive hheld hpage hcall => exact hc.write h hlive hheld hpage hcall
  | @access vaddr f hpage =>
      intro n g hn hcached
      by_cases he : n = vpage vaddr
      · subst he
        change update a.s.tlb (vpage vaddr) (some f) (vpage vaddr) = some g at hcached
        rw [update_self] at hcached
        cases hcached
        exact hpage
      · change update a.s.tlb (vpage vaddr) (some f) n = some g at hcached
        rw [update_of_ne he] at hcached
        exact hc n g hn hcached

theorem start_coherent (m : Mem) (memCapacity : Word) : Coherent (Allocator.start m memCapacity).s := by
  intro n f _ hcached
  cases hcached

/-- In every run in which page tables find their frames and no freed page is cached, all cached translations
of heap pages are current, and a further free keeps them so exactly when its range is not cached. -/
theorem runs_coherent {m : Mem} (hm : Loaded m) {memCapacity : Word}
    (hrun : Runs (fun e b => Fits e b.s ∧ FreesUncached e b.s) (Allocator.start m memCapacity) a) :
    Coherent a.s ∧ ∀ r a', AllocStep a (.mfreePage r) a' → (Coherent a'.s ↔ Uncached a.s r) := by
  have hinv : ∃ dir, AllocInv a dir := runs_inv hm (fun _ _ hcond => hcond.1) hrun
  have hcoherent : Coherent a.s := by
    induction hrun with
    | refl => exact start_coherent m memCapacity
    | tail hprev hstep ih =>
        obtain ⟨dir, h⟩ := runs_inv hm (fun _ _ hcond => hcond.1) hprev
        obtain ⟨e, ⟨hfits, hfrees⟩, hstep⟩ := hstep
        exact (ih ⟨dir, h⟩).step h hfits hfrees hstep
  obtain ⟨dir, h⟩ := hinv
  refine ⟨hcoherent, fun r a' hstep => ?_⟩
  cases hstep with
  | mfreePage hlive hheld hspace hcall => exact h.mfreePage_coherent_iff hcoherent hlive hheld hspace hcall

/-- A kernel thread takes a page of a machine with 32 MB and reads it. -/
theorem start_access : ∃ (s₁ : Memory) (f : Nat),
    AllocStep (Allocator.start (pageSetup fun _ => 0) 0x2000000) (.mallocPage .kernel 1)
      ⟨s₁, [⟨.kernel, 0xc0100, 1, false⟩], [mainTask]⟩ ∧
    Fits (.mallocPage .kernel 1) (Memory.boot (pageSetup fun _ => 0) 0x2000000) ∧ s₁.space = .kernel ∧
    AllocStep ⟨s₁, [⟨.kernel, 0xc0100, 1, false⟩], [mainTask]⟩ (.access 0xc0100000)
      ⟨{ s₁ with tlb := update s₁.tlb 0xc0100 (some f) }, [⟨.kernel, 0xc0100, 1, false⟩], [mainTask]⟩ := by
  have hm : Loaded (pageSetup fun _ => 0) := ⟨fun _ => 0, fun _ _ _ => rfl⟩
  have hneeded := (boot_tables hm.bootPages 0x2000000).kernelNeeded_first (i := 0) (n := 1) (by omega)
  obtain ⟨s₁, hstep, hfits, hsp, -⟩ := start_allocate hm 0x2000000 ⟨by omega, by omega⟩
    (show 1 ≤ _ by decide) (Nat.le_trans (Nat.le_of_eq hneeded) (by decide))
  obtain ⟨dir, h⟩ := (start_inv hm 0x2000000).step hfits hstep
  obtain ⟨f, hf⟩ := (h.ranges _ (List.mem_singleton_self _)).mapped 0 Nat.one_pos
  refine ⟨s₁, f, hstep, hfits, hsp, AllocStep.access ?_⟩
  rw [show s₁.cr3 = dir s₁.space from h.tables.cr3, hsp]
  exact hf

theorem runs_coherent_access : ∃ (a : Allocator) (f : Nat), a.s.tlb 0xc0100 = some f ∧ Coherent a.s := by
  have hm : Loaded (pageSetup fun _ => 0) := ⟨fun _ => 0, fun _ _ _ => rfl⟩
  obtain ⟨s₁, f, hstep, hfits, -, haccess⟩ := start_access
  have hkeep : Fits (.access 0xc0100000) s₁ ∧ FreesUncached (.access 0xc0100000) s₁ := ⟨trivial, trivial⟩
  have hrun : Runs (fun e b => Fits e b.s ∧ FreesUncached e b.s)
      (Allocator.start (pageSetup fun _ => 0) 0x2000000) _ :=
    (Relation.ReflTransGen.single ⟨_, ⟨hfits, trivial⟩, hstep⟩).tail ⟨_, hkeep, haccess⟩
  have hcached : update s₁.tlb 0xc0100 (some f) 0xc0100 = some f := update_self _ _ _
  exact ⟨_, f, hcached, (runs_coherent hm hrun).1⟩

/-- Once the page is freed, its translation is stale. -/
theorem mfreePage_stale : ∃ a a', Runs (fun e b => Fits e b.s) (Allocator.start (pageSetup fun _ => 0) 0x2000000) a ∧
    AllocStep a (.mfreePage ⟨.kernel, 0xc0100, 1, false⟩) a' ∧ ¬Coherent a'.s := by
  have hm : Loaded (pageSetup fun _ => 0) := ⟨fun _ => 0, fun _ _ _ => rfl⟩
  obtain ⟨s₁, f, hstep, hfits, hsp, haccess⟩ := start_access
  obtain ⟨dir, h⟩ := (start_inv hm 0x2000000).step hfits hstep
  have hc := (start_coherent (pageSetup fun _ => 0) 0x2000000).step (start_inv hm 0x2000000) hfits trivial hstep
  have hkeep : Fits (.access 0xc0100000) s₁ := trivial
  have hc' := hc.step h hkeep trivial haccess
  obtain ⟨dir', h'⟩ := h.step hkeep haccess
  have hlive : (⟨.kernel, 0xc0100, 1, false⟩ : Range) ∈ [(⟨.kernel, 0xc0100, 1, false⟩ : Range)] :=
    List.mem_singleton_self _
  obtain ⟨-, s', hcall, -⟩ := h'.mfreePage hlive rfl hsp.symm
  refine ⟨_, _, (Relation.ReflTransGen.single ⟨_, hfits, hstep⟩).tail ⟨_, hkeep, haccess⟩,
    AllocStep.mfreePage hlive rfl hsp.symm hcall, fun hcoherent => ?_⟩
  have huncached := (h'.mfreePage_coherent_iff hc' hlive rfl hsp.symm hcall).1 hcoherent 0xc0100
    ⟨hsp, Nat.le_refl _, Nat.lt_succ_self _⟩
  change update s₁.tlb 0xc0100 (some f) 0xc0100 = none at huncached
  rw [update_self] at huncached
  cases huncached

end HoloOS
