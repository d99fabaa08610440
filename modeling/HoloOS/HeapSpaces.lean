import HoloOS.HeapInit
import HoloOS.MemoryCache

/-! A new thread or process among the heaps. Its pages are new, so every word that a thread could reach before has its
contents, and the descriptors in the page of the `taskStruct` are the empty heap of the new process. -/

namespace HoloOS

open Function Paging

variable {s s₁ s₂ s' : Memory} {dir dir' : Space → Nat} {sp : Space} {D a d v : Word} {n f : Nat} {t : Tid}
  {H : Arenas}

/-- What `getKernelPages` does that returns pages. -/
structure KernelPages (s s' : Memory) (dir : Space → Nat) (v : Word) (n : Nat) : Prop where
  malloced : Malloced s s' dir v n true
  spaces : Spaces s' dir
  keeps : KeepsWords s s' dir fun _ _ => True
  sizes : SameSizes s s'

theorem Spaces.getKernelPages (h : Spaces s dir) (hsp : s.space = .kernel) (hfits : MallocFits .kernel n s)
    (hcall : HoloOS.getKernelPages n s = .ok (some v, s')) : KernelPages s s' dir v n := by
  obtain ⟨⟨w, s₁⟩, hpages, hset⟩ := bind_ok hcall
  have hcnt := mallocPage_pgCnt hpages
  have hpf : PoolFlags.kernel = s.space.flag := by rw [hsp]; rfl
  cases w with
  | none => cases hset
  | some w =>
      obtain ⟨s₂, hset, hret⟩ := bind_ok hset
      cases hret
      have hmalloced : Malloced s s' dir v n true := by
        rcases h.toTables.getKernelPages hsp hcnt hfits with ⟨-, hnone⟩ | ⟨w, s₃, hnone, -⟩ | ⟨w, s₃, hsome, -, hm, -⟩
        · rw [hcall] at hnone
          cases hnone
        · rw [hcall] at hnone
          cases hnone
        · rw [hcall] at hsome
          cases hsome
          exact hm
      rcases h.mallocPage hpf hcnt hfits with ⟨w, -, -, hpanic⟩ | ⟨-, hnone⟩ | ⟨done, w, s₃, -, hdone, h₁, hm⟩
      · rw [hpages] at hpanic
        cases hpanic
      · rw [hpages] at hnone
        cases hnone
      · rw [hpages] at hdone
        cases done with
        | false => cases hdone
        | true =>
            cases hdone
            obtain ⟨s₀, hr, -⟩ := id hm.reserved
            have hsizes := mallocPage_sizes hpages
            obtain ⟨hspaces, hkeep⟩ := hm.words h h₁ fun b hb => h.mallocPage_kept hpf hcnt.1 hfits hpages hb
            obtain ⟨s₃, hmemset, hw⟩ := hspaces.memset hr.aligned hr.ne_zero (hm.dataPage h.toTables h₁)
            rw [hset] at hmemset
            cases hmemset
            refine ⟨hmalloced, hw.spaces hspaces, ?_, hsizes.trans (.of_mem hw.pokes.same)⟩
            refine (hm.keeps_wrote h hspaces hkeep (hm.shape hsizes) hw (P := fun _ => True) fun u _ hout => ?_).mono
              fun _ _ _ _ => trivial
            exact clearPages_of_ne hout

theorem copy_outside (m : Mem) (dst src : Nat) {n b : Nat} (hb : ¬(dst ≤ b ∧ b < dst + n)) :
    copy m dst src n b = m b := by
  induction n with
  | zero => rfl
  | succ n ih =>
      rw [copy, update_of_ne (by omega)]
      exact ih (by omega)

theorem walk_of_phys {a : Nat} (h : s.phys v = .ok a) : s.walk v = some a := by
  unfold Memory.phys at h
  cases hwalk : s.walk v with
  | none =>
      rw [hwalk] at h
      cases h
  | some b =>
      rw [hwalk] at h
      cases h
      rfl

/-- A copy within pages. -/
theorem memcpy_within {dst src : Word} {size : Nat} (hpos : 0 < size) (hd : dst.toNat % 4096 + size ≤ 4096)
    (hs : src.toNat % 4096 + size ≤ 4096) (hcall : memcpy dst src size s = .ok s') :
    ∃ a m, s.walk dst = some a ∧ s' = { s with mem := m } ∧ ∀ b, ¬(a ≤ b ∧ b < a + size) → m b = s.mem b := by
  obtain ⟨_, hassert, hloop⟩ := bind_ok hcall
  have hne : dst ≠ 0 ∧ src ≠ 0 := by
    by_contra hno
    have hfalse : decide (dst ≠ 0 ∧ src ≠ 0) = false := decide_eq_false hno
    rw [hfalse] at hassert
    cases hassert
  rw [memcpyLoop, if_neg (by omega)] at hloop
  obtain ⟨b, hb, hloop⟩ := bind_ok hloop
  obtain ⟨a, ha, -⟩ := bind_ok hloop
  have hcopy := memcpy_page hne.1 hne.2 hpos hd hs (walk_of_phys ha) (walk_of_phys hb)
  rw [hcall] at hcopy
  cases hcopy
  exact ⟨a, _, walk_of_phys ha, rfl, fun _ hout => copy_outside _ _ _ hout⟩

theorem store_within {w : Word} {a : Nat} (hfit : v.toNat % 4096 ≤ 4092) (hwalk : s.walk v = some a)
    (hcall : s.store v w = .ok s') :
    ∃ m, s' = { s with mem := m } ∧ ∀ b, ¬(a ≤ b ∧ b < a + 4) → m b = s.mem b := by
  rw [store_of_walk hfit hwalk] at hcall
  cases hcall
  exact ⟨_, rfl, fun b hb => if_neg hb⟩

/-- After the allocation of the new directory only its page is written. -/
structure DirPage (s s₁ s' : Memory) (dir : Space → Nat) (d : Word) (f : Nat) : Prop where
  paged : KernelPages s s₁ dir d 1
  mapped : mapped s₁.mem (dir .kernel) (vpage d) = some f
  pokes : Pokes s₁ s' dir
  inside : ∀ b, ¬(f ≤ b ∧ b < f + 4096) → s'.mem b = s₁.mem b

theorem Spaces.createPageDir (h : Spaces s dir) (hsp : s.space = .kernel) (hfits : MallocFits .kernel 1 s)
    (hcall : HoloOS.createPageDir s = .ok (some d, s')) : ∃ s₁ f, DirPage s s₁ s' dir d f := by
  obtain ⟨⟨w, s₁⟩, hpages, hcall⟩ := bind_ok hcall
  cases w with
  | none => cases hcall
  | some w =>
      obtain ⟨s₂, hcopy, hcall⟩ := bind_ok hcall
      obtain ⟨p, -, hcall⟩ := bind_ok hcall
      obtain ⟨s₃, hstore, hret⟩ := bind_ok hcall
      cases hret
      have hp := h.getKernelPages hsp hfits hpages
      obtain ⟨s₀, hr, -⟩ := id hp.malloced.reserved
      have hmod := hr.aligned
      have hsp₁ : s₁.space = .kernel := hp.malloced.tables_same.1.trans hsp
      have hdata := hp.malloced.dataPage h.toTables hp.spaces.toTables 0 Nat.one_pos
      rw [Nat.add_zero] at hdata
      obtain ⟨f, hf, hframe⟩ := hdata.data
      have hbounds := (hp.spaces.dataFrame_mod hframe).1
      have hcr3 : ∀ m : Mem, Memory.cr3 { s₁ with mem := m } = dir s₁.space := fun _ => hp.spaces.cr3
      have hlt := d.isLt
      have hdst : (d + 0x300 * 4).toNat = d.toNat + 0xc00 := by
        have hword : (0x300 * 4 : Word).toNat = 0xc00 := rfl
        rw [BitVec.toNat_add, hword]
        omega
      have hlast : (d + 1023 * 4).toNat = d.toNat + 4092 := by
        have hword : (1023 * 4 : Word).toNat = 4092 := rfl
        rw [BitVec.toNat_add, hword]
        omega
      have hwalk : ∀ (m : Mem) (u : Word), Paging.mapped m (dir s₁.space) (vpage d) = some f → vpage u = vpage d →
          Memory.walk { s₁ with mem := m } u = some (f + u.toNat % 4096) := by
        intro m u hm hu
        refine walk_eq ?_
        rw [hcr3, hu]
        exact hm
      obtain ⟨a, m, ha, rfl, hm⟩ := memcpy_within (by omega) (by omega) (by decide) hcopy
      have hsame : Memory.walk s₁ (d + 0x300 * 4) = some (f + (d + 0x300 * 4).toNat % 4096) :=
        hwalk s₁.mem _ hf (by unfold vpage; omega)
      have hplace : f ≤ a ∧ a + 1020 ≤ f + 4096 := by
        have he : a = f + (d + 0x300 * 4).toNat % 4096 := Option.some.inj (ha.symm.trans hsame)
        omega
      have hpokes : Pokes s₁ { s₁ with mem := m } dir := by
        refine ⟨rfl, fun b' hne => .inr ⟨f, hframe, ?_⟩⟩
        by_contra hout
        exact hne (hm _ (by omega))
      have hf₂ := (hpokes.frame hp.spaces.toTables (o := .page s₁.space (vpage d)) hdata.heap).trans hf
      obtain ⟨m', rfl, hm'⟩ :=
        store_within (by omega) (hwalk m (d + 1023 * 4) hf₂ (by unfold vpage; omega)) hstore
      have hinside : ∀ b', ¬(f ≤ b' ∧ b' < f + 4096) → m' b' = s₁.mem b' := fun b' hb' =>
        (hm' _ (by omega)).trans (hm _ (by omega))
      refine ⟨s₁, f, hp, ?_, ⟨rfl, fun b' hne => .inr ⟨f, hframe, ?_⟩⟩, hinside⟩
      · rw [← hsp₁]
        exact hf
      · by_contra hout
        exact hne (hinside b' hout)

/-- A write in one page keeps the words of the others. -/
theorem Pokes.keeps_page {sp' : Space} {k : Nat} (hp : Pokes s s' dir) (h : Spaces s dir) (hn : sp'.Heap s k)
    (hf : mapped s.mem (dir sp') k = some f) (hin : ∀ b, ¬(f ≤ b ∧ b < f + 4096) → s'.mem b = s.mem b) :
    KeepsWords s s' dir fun sp v => ¬(home sp v = sp' ∧ vpage v = k) := by
  intro sp v hout hsp hacc
  refine ⟨hp.access h hsp hacc, hp.word_same h fun a hc ha j hj => hin _ fun hb => hout ?_⟩
  have hmod := h.place_mod h.low hc ha
  have halign := hc.aligned
  have hbounds := h.frame_bounds (h.used (.page sp' k) f hn hf)
  exact h.page_of_frame hn hf hc ha (by omega) (by omega)

theorem setUserVaddr_keeps (h : Spaces s dir) (ht : ¬s.IsProcess t) (x : VirtualAddr) :
    Spaces (s.setUserVaddr t x) dir ∧ KeepsWords s (s.setUserVaddr t x) dir fun _ _ => True := by
  obtain ⟨h', hkept⟩ := h.setUserVaddr ht x
  refine ⟨{ h' with low := h.low }, fun sp v _ hsp hacc => hacc.keeps h ?_ rfl (fun a ha => ?_) hacc.sees fun _ _ =>
    rfl⟩
  · exact ⟨hacc.cell.aligned, hacc.cell.page.imp_right (hkept.valid (.page (home sp v) (vpage v)))⟩
  · obtain ⟨a', ha', hopen⟩ := hacc.reach
    obtain rfl : a = a' := Option.some.inj (ha.symm.trans ha')
    refine hopen.imp_right fun ⟨g, hg, hin⟩ => ⟨g, ⟨?_, fun u hu => hg.keep u ?_⟩, hin⟩
    · obtain ⟨sp', k, hk, hm⟩ := hg.page
      exact ⟨sp', k, hkept.valid (.page sp' k) hk, hm⟩
    · unfold Memory.IsProcess at hu ⊢
      rw [← setUserVaddr_pageDir s t u x]
      exact hu

/-- The words of the spaces there were, outside of the new directory, when a thread gets that directory. -/
theorem setPageDir_keeps (h : Spaces s dir) (ht : ¬s.IsProcess t) (hcur : t ≠ s.cur) (hd : d ≠ 0)
    (hheap : Space.kernel.Heap s (vpage d)) (hf : mapped s.mem (dir .kernel) (vpage d) = some f)
    (hsp : sp.Exists s) (hout : ¬(home sp v = .kernel ∧ vpage v = vpage d)) (hacc : Access s dir sp v) :
    Access (s.setPageDir t d) (update dir (.process t) f) sp v ∧
      word (s.setPageDir t d) (update dir (.process t) f) sp v = word s dir sp v := by
  have hkept : Keeps s (s.setPageDir t d) dir (update dir (.process t) f) := adopt_kept ht hcur hd
  have hcell : Cell (s.setPageDir t d) sp v :=
    ⟨hacc.cell.aligned, hacc.cell.page.imp_right (hkept.valid (.page (home sp v) (vpage v)))⟩
  obtain ⟨a, ha, hopen⟩ := hacc.reach
  have hplace : place (s.setPageDir t d) (update dir (.process t) f) sp v = some a := by
    rw [← ha, place, place, adopt_dir ht (home_exists hsp v)]
    rfl
  refine ⟨⟨⟨hcell, a, hplace, hopen.imp_right ?_⟩, ?_⟩, ?_⟩
  · rintro ⟨g, hg, hle, hlt⟩
    refine ⟨g, ⟨?_, fun u hu he => ?_⟩, hle, hlt⟩
    · obtain ⟨sp', k, hk, hm⟩ := hg.page
      refine ⟨sp', k, hkept.valid (.page sp' k) hk, ?_⟩
      rw [adopt_dir ht (Space.Heap.exists hk)]
      exact hm
    · rcases (setPageDir_isProcess hd u).1 hu with rfl | hu'
      · rw [update_self] at he
        rw [← he] at hle hlt
        exact hout (h.page_of_frame hheap hf hacc.cell ha hle hlt)
      · rw [adopt_dir ht (show (Space.process u).Exists s from hu')] at he
        exact hg.keep u hu' he
  · unfold Sees
    rw [adopt_dir ht hsp, adopt_dir ht (home_exists hsp v)]
    exact hacc.sees
  · rw [word_of_place hcell hplace, word_of_place hacc.cell ha]
    rfl

theorem blockDescLoop_mem {desc blockSize : Word} (hcall : HoloOS.blockDescLoop n desc blockSize s = .ok s') :
    ∃ m, s' = { s with mem := m } := by
  induction n generalizing s desc blockSize with
  | zero =>
      cases hcall
      exact ⟨_, rfl⟩
  | succ n ih =>
      obtain ⟨s₁, h₁, hcall⟩ := bind_ok hcall
      obtain ⟨s₂, h₂, hcall⟩ := bind_ok hcall
      obtain ⟨s₆, hlist, hcall⟩ := bind_ok hcall
      obtain ⟨s₃, h₃, hlist⟩ := bind_ok hlist
      obtain ⟨s₄, h₄, hlist⟩ := bind_ok hlist
      obtain ⟨s₅, h₅, h₆⟩ := bind_ok hlist
      obtain ⟨m, rfl⟩ := ih hcall
      obtain ⟨m₆, rfl⟩ := store_mem h₆
      obtain ⟨m₅, rfl⟩ := store_mem h₅
      obtain ⟨m₄, rfl⟩ := store_mem h₄
      obtain ⟨m₃, rfl⟩ := store_mem h₃
      obtain ⟨m₂, rfl⟩ := store_mem h₂
      obtain ⟨m₁, rfl⟩ := store_mem h₁
      exact ⟨m, rfl⟩

/-- An empty heap of the kernel is also that of a space whose directory leads to its descriptors. -/
theorem HeapAt.viewed (hh : HeapAt s dir .kernel D Arenas.empty) (hlow : 0xc0000000 ≤ D.toNat)
    (hsees : ∀ v : Word, D.toNat ≤ v.toNat → v.toNat < D.toNat + 168 → Sees s dir sp v) :
    HeapAt s dir sp D Arenas.empty := by
  have hzone : ∀ v, Zone D Arenas.empty v → D.toNat ≤ v.toNat ∧ v.toNat < D.toNat + 168 := by
    rintro v (hdesc | hpage)
    · exact hdesc
    · rw [allPages_empty] at hpage
      exact absurd hpage List.not_mem_nil
  have hhome : ∀ v : Word, D.toNat ≤ v.toNat → home sp v = home .kernel v := fun v hv => by
    rw [home_high (by omega), home_kernel]
  refine ⟨hh.wf, ?_, ⟨hh.mounted.1, fun v hv haligned => ?_⟩, fun n hn => ?_⟩
  · obtain ⟨cnt, hr, hcount⟩ := hh.words
    exact ⟨cnt, hr.zone hh.wf.toPlaced fun v hv => word_home (hhome v (hzone v hv).1), hcount⟩
  · obtain ⟨hle, hlt⟩ := hzone v hv
    have hacc := hh.mounted.2 v hv haligned
    obtain ⟨a, ha, hopen⟩ := hacc.reach
    exact ⟨⟨hacc.cell.of_home (hhome v hle).symm, a, (place_home (hhome v hle)).trans ha, hopen⟩, hsees v hle hlt⟩
  · rw [allPages_empty] at hn
    exact absurd hn List.not_mem_nil

theorem Pokes.kept (hp : Pokes s s' dir) (h : Tables s dir) : Keeps s s' dir dir where
  spaces sp hsp := (hp.exists_iff sp).2 hsp
  valid o ho := (hp.valid o).2 ho
  frame o f ho hf := (hp.frame h ho).trans hf
  bit sp n _ hbit := (hp.bit sp n).trans hbit
  pageDir t _ := by rw [hp.same]
  space := hp.space
  cur := by rw [hp.same]

/-- A process has been added to the spaces. -/
structure Joined (s s' : Memory) (dir : Space → Nat) (t : Tid) (f : Nat) : Prop where
  spaces : Spaces s' (update dir (.process t) f)
  kept : Keeps s s' dir (update dir (.process t) f)
  holder : s'.holder = s.holder
  sizes : SameSizes s s'
  quiet : Quiet s s'
  isProcess : ∀ u, s'.IsProcess u ↔ u = t ∨ s.IsProcess u
  aligned : (s'.task t).pageDir.toNat % 4096 = 0
  keeps : ∀ sp v, sp.Exists s → Access s dir sp v →
    ¬(home sp v = .kernel ∧ t + 68 ≤ v.toNat ∧ v.toNat < t + 236) →
    Access s' (update dir (.process t) f) sp v ∧ word s' (update dir (.process t) f) sp v = word s dir sp v
  heap : HeapAt s' (update dir (.process t) f) (.process t) (BitVec.ofNat 32 t + 68) Arenas.empty

/-- A step of the creation before the thread has its directory. -/
structure Staged (s s' : Memory) (dir : Space → Nat) : Prop where
  spaces : Spaces s' dir
  kept : Keeps s s' dir dir
  keeps : KeepsWords s s' dir fun _ _ => True
  holder : s'.holder = s.holder
  sizes : SameSizes s s'
  quiet : Quiet s s'
  pageDir : ∀ u, (s'.task u).pageDir = (s.task u).pageDir

theorem Staged.trans (h : Staged s s₁ dir) (h' : Staged s₁ s' dir) : Staged s s' dir where
  spaces := h'.spaces
  kept := h.kept.trans h'.kept
  keeps sp v _ hsp hacc := by
    obtain ⟨hacc₁, hword₁⟩ := h.keeps sp v trivial hsp hacc
    obtain ⟨hacc₂, hword₂⟩ := h'.keeps sp v trivial (h.kept.spaces sp hsp) hacc₁
    exact ⟨hacc₂, hword₂.trans hword₁⟩
  holder := h'.holder.trans h.holder
  sizes := h.sizes.trans h'.sizes
  quiet := h.quiet.trans h'.quiet
  pageDir u := (h'.pageDir u).trans (h.pageDir u)

theorem Staged.isProcess (h : Staged s s' dir) (u : Tid) : s'.IsProcess u ↔ s.IsProcess u := by
  unfold Memory.IsProcess
  rw [h.pageDir]

theorem KernelPages.staged (hp : KernelPages s s' dir v n) : Staged s s' dir where
  spaces := hp.spaces
  kept := hp.malloced.kept
  keeps := hp.keeps
  holder := hp.malloced.tables_same.2.2.2.2.1
  sizes := hp.sizes
  quiet := hp.malloced.quiet
  pageDir := hp.malloced.tables_same.2.2.2.2.2

theorem Spaces.userBitmap (h : Spaces s dir) (hsp : s.space = .kernel) (ht : ¬s.IsProcess t)
    (hfits : MallocFits .kernel 23 s) (hcall : createUserVaddrBitmap t s = .ok s') :
    Staged s s' dir ∧ (s'.task t).userVaddr = ⟨HoloOS.userBitmap, 0x8048000⟩ := by
  obtain ⟨⟨bits, s₁⟩, hbits, -⟩ := bind_ok hcall
  cases bits with
  | none =>
      rw [createUserVaddrBitmap_none t hbits] at hcall
      cases hcall
  | some b =>
      rw [createUserVaddrBitmap_some t hbits] at hcall
      have hp := h.getKernelPages hsp hfits hbits
      have ht₁ : ¬s₁.IsProcess t := fun hproc => ht (hp.malloced.process t hproc)
      obtain ⟨hspaces, hkeep⟩ := setUserVaddr_keeps hp.spaces ht₁ ⟨HoloOS.userBitmap, 0x8048000⟩
      have hstaged : Staged s₁ (s₁.setUserVaddr t ⟨HoloOS.userBitmap, 0x8048000⟩) dir :=
        ⟨hspaces, (hp.spaces.setUserVaddr ht₁ _).2, hkeep, rfl, fun pf => by cases pf <;> rfl, ⟨rfl, rfl⟩,
          fun u => setUserVaddr_pageDir s₁ t u _⟩
      cases hcall
      refine ⟨hp.staged.trans hstaged, ?_⟩
      rw [setUserVaddr_userVaddr, if_pos rfl]

/-- The new directory before it is that of the thread. -/
structure NewDirectory (s s' : Memory) (dir : Space → Nat) (d : Word) (f : Nat) : Prop extends Staged s s' dir where
  heap : Space.kernel.Heap s' (vpage d)
  mapped : mapped s'.mem kernelDir (vpage d) = some f
  data : DataFrame s' dir f
  copied : NewDir s'.mem f
  aligned : d.toNat % 4096 = 0
  ne_zero : d ≠ 0
  unseen : ∀ sp v, Access s dir sp v → ¬(home sp v = .kernel ∧ vpage v = vpage d)
  user : ∀ u, (s'.task u).userVaddr.vaddrStart = (s.task u).userVaddr.vaddrStart ∧
    (s'.task u).userVaddr.vaddrBitmap.size = (s.task u).userVaddr.vaddrBitmap.size

theorem Spaces.newDirectory (h : Spaces s dir) (hsp : s.space = .kernel) (hfits : MallocFits .kernel 1 s)
    (hcall : HoloOS.createPageDir s = .ok (some d, s')) : ∃ f, NewDirectory s s' dir d f := by
  obtain ⟨s₁, f₁, hd⟩ := h.createPageDir hsp hfits hcall
  rcases h.toTables.createPageDir hsp hfits with ⟨s₂, hnone, -⟩ | ⟨d', s₂, f, hsome, ht, hm, hf, hnew, hdata, -⟩
  · rw [hcall] at hnone
    cases hnone
  · rw [hcall] at hsome
    cases hsome
    have hspaces := hd.pokes.spaces hd.paged.spaces
    obtain ⟨s₀, hr, -⟩ := id hm.reserved
    have hheap : Space.kernel.Heap s₁ (vpage d) := by
      have hfirst := (hd.paged.malloced.first Nat.one_pos).2.1
      rw [hsp, Nat.add_zero] at hfirst
      exact (hd.paged.malloced.kernelHeap _).2 hfirst
    have hunseen : ∀ sp v, Access s dir sp v → ¬(home sp v = .kernel ∧ vpage v = vpage d) := by
      rintro sp v hacc ⟨hhome, hpage⟩
      have hhome' : home sp v = home s.space v := by
        rw [hsp, home_kernel]
        exact hhome
      exact hm.unseen h hacc hhome' ⟨by omega, by omega⟩
    have hkeep := hd.pokes.keeps_page hd.paged.spaces hheap hd.mapped hd.inside
    refine ⟨f, ⟨hspaces, hm.kept, fun sp v _ hexists hacc => ?_, ?_, ?_, hm.quiet, hm.tables_same.2.2.2.2.2⟩, ?_, hf,
      hdata, hnew, hr.aligned, hr.ne_zero, hunseen, hm.userVaddr⟩
    · obtain ⟨hacc₁, hword₁⟩ := hd.paged.keeps sp v trivial hexists hacc
      obtain ⟨hacc₂, hword₂⟩ := hkeep sp v (hunseen sp v hacc) ((hd.paged.malloced.exists_iff sp).2 hexists) hacc₁
      exact ⟨hacc₂, hword₂.trans hword₁⟩
    · exact hm.tables_same.2.2.2.2.1
    · exact hd.paged.sizes.trans (.of_mem hd.pokes.same)
    · exact (hd.pokes.valid (.page .kernel (vpage d))).2 hheap

/-- A thread becomes a process. -/
theorem NewDirectory.adopt (hd : NewDirectory s s' dir d f) (ht : ¬s.IsProcess t) (hcur : t ≠ s.cur)
    (huser : (s.task t).userVaddr = ⟨HoloOS.userBitmap, 0x8048000⟩) :
    Spaces (s'.setPageDir t d) (update dir (.process t) f) ∧ Keeps s (s'.setPageDir t d) dir
      (update dir (.process t) f) ∧
      ∀ sp v, sp.Exists s → Access s dir sp v → Access (s'.setPageDir t d) (update dir (.process t) f) sp v ∧
        word (s'.setPageDir t d) (update dir (.process t) f) sp v = word s dir sp v := by
  have ht' : ¬s'.IsProcess t := fun hproc => ht ((hd.isProcess t).1 hproc)
  have hcur' : t ≠ s'.cur := by
    rw [hd.kept.cur]
    exact hcur
  have huser' : (s'.task t).userVaddr.vaddrStart = 0x8048000 ∧ (s'.task t).userVaddr.vaddrBitmap.size = 94199 := by
    obtain ⟨hstart, hsize⟩ := hd.user t
    rw [hstart, hsize, huser]
    exact ⟨rfl, rfl⟩
  have hkernel : update dir (.process t) f .kernel = dir .kernel := update_of_ne (by simp) _ _
  have hf : Paging.mapped s'.mem (dir .kernel) (vpage d) = some f := by
    rw [hd.spaces.dir_kernel]
    exact hd.mapped
  refine ⟨{ hd.spaces.adopt ht' hcur' hd.heap hd.mapped hd.data hd.copied huser' with low := hd.spaces.low }, ?_, ?_⟩
  · exact hd.kept.trans (adopt_kept ht' hcur' hd.ne_zero)
  · intro sp v hexists hacc
    obtain ⟨hacc₁, hword₁⟩ := hd.keeps sp v trivial hexists hacc
    obtain ⟨hacc₂, hword₂⟩ := setPageDir_keeps hd.spaces ht' hcur' hd.ne_zero hd.heap hf (hd.kept.spaces sp hexists)
      (hd.unseen sp v hacc) hacc₁
    exact ⟨hacc₂, hword₂.trans hword₁⟩

/-- The descriptors lie in the page of the `taskStruct`. -/
theorem Spaces.pcb_descs {p : Word} (h : Spaces s dir) (hp : p.toNat = t) (hmod : p.toNat % 4096 = 0)
    (hheap : Space.kernel.Heap s (vpage p)) : (BitVec.ofNat 32 t + 68).toNat = p.toNat + 68 ∧
      DescsFit (BitVec.ofNat 32 t + 68) ∧
      ∀ v : Word, p.toNat + 68 ≤ v.toNat → v.toNat < p.toNat + 68 + 168 → vpage v = vpage p := by
  have hbound := hheap.lt h.toLayout
  have hnat : (BitVec.ofNat 32 t + 68).toNat = p.toNat + 68 := by
    have hword : (68 : Word).toNat = 68 := rfl
    rw [BitVec.toNat_add, BitVec.toNat_ofNat, hword]
    unfold vpage at hbound
    omega
  refine ⟨hnat, ?_, fun v hle hlt => ?_⟩
  · unfold DescsFit
    unfold vpage at hbound
    omega
  · unfold vpage
    omega

/-- A new directory shows the kernel's words where the kernel sees them. -/
theorem NewDirectory.sees (hd : NewDirectory s s' dir d f) (h : Spaces s dir) (hhigh : 0xc0000000 ≤ v.toNat)
    (hlo : 768 ≤ vpage v / 1024) (hhi : vpage v / 1024 < 1023) :
    Sees (s'.setPageDir t d) (update dir (.process t) f) (.process t) v := by
  have hkernel : update dir (.process t) f .kernel = dir .kernel := update_of_ne (by simp) _ _
  unfold Sees
  rw [home_high hhigh, hkernel, h.dir_kernel, update_self]
  exact hd.copied.copied _ hlo hhi

/-- `processSpace` that makes a process of a thread whose page has been allocated. -/
theorem Spaces.processSpace {p : Word} (h : Spaces s dir) (hsp : s.space = .kernel) (hp : p.toNat = t)
    (hmod : p.toNat % 4096 = 0) (ht : ¬s.IsProcess t) (hcur : t ≠ s.cur) (hpcb : DataPage s dir (vpage p))
    (hfits : SpaceFits t s) (hcall : HoloOS.processSpace t s = .ok s') (hdir : s'.IsProcess t) :
    ∃ f, Joined s s' dir t f := by
  obtain ⟨s₁, hcreate, hcall⟩ := bind_ok hcall
  obtain ⟨⟨pd, s₂⟩, hpage, hinit⟩ := bind_ok hcall
  obtain ⟨hstaged, huser⟩ := h.userBitmap hsp ht hfits.1 hcreate
  have hsp₁ : s₁.space = .kernel := hstaged.kept.space.trans hsp
  have ht₁ : ¬s₁.IsProcess t := fun hproc => ht ((hstaged.isProcess t).1 hproc)
  have hcur₁ : t ≠ s₁.cur := by
    rw [hstaged.kept.cur]
    exact hcur
  cases pd with
  | none =>
      obtain ⟨m, rfl⟩ := blockDescLoop_mem hinit
      refine absurd ?_ hdir
      change ((s₂.setPageDir t 0).task t).pageDir = 0
      rw [setPageDir_pageDir, if_pos rfl]
  | some d =>
      obtain ⟨f, hd⟩ := hstaged.spaces.newDirectory hsp₁ (hfits.2 s₁ hcreate) hpage
      obtain ⟨h₃, hkept₃, hkeep₃⟩ := hd.adopt ht₁ hcur₁ huser
      have hsp₃ : (s₂.setPageDir t d).space = .kernel := hkept₃.space.trans hsp₁
      have hkeep : ∀ sp v, sp.Exists s → Access s dir sp v → Access (s₂.setPageDir t d)
        (update dir (.process t) f) sp v ∧
          word (s₂.setPageDir t d) (update dir (.process t) f) sp v = word s dir sp v := by
        intro sp v hexists hacc
        obtain ⟨hacc₁, hword₁⟩ := hstaged.keeps sp v trivial hexists hacc
        obtain ⟨hacc₂, hword₂⟩ := hkeep₃ sp v (hstaged.kept.spaces sp hexists) hacc₁
        exact ⟨hacc₂, hword₂.trans hword₁⟩
      have hheap : Space.kernel.Heap s (vpage p) := by
        have hheap := hpcb.heap
        rw [hsp] at hheap
        exact hheap
      obtain ⟨hnat, hfit, hpg⟩ := h.pcb_descs hp hmod hheap
      have hacc : ∀ v : Word, (BitVec.ofNat 32 t + 68).toNat ≤ v.toNat → v.toNat <
        (BitVec.ofNat 32 t + 68).toNat + 168 →
          v.toNat % 4 = 0 → Writable (s₂.setPageDir t d) (update dir (.process t) f) v := by
        intro v hle hlt haligned
        rw [hnat] at hle hlt
        have hv := DataPage.access ((hpg v hle hlt).symm ▸ hpcb) haligned
        rw [hsp] at hv
        have hv' := (hkeep .kernel v trivial hv).1
        rw [← hsp₃] at hv'
        exact hv'
      obtain ⟨s₄, W, hcall₄, hw, hframe, hheap₄⟩ := HeapAt.empty h₃ hfit (by omega) hacc
      have hcall₄' : HoloOS.blockDescInit (BitVec.ofNat 32 t + 68) (s₂.setPageDir t d) = .ok s' := hinit
      rw [hcall₄] at hcall₄'
      cases hcall₄'
      have hproc : ∀ u, s'.IsProcess u ↔ u = t ∨ s.IsProcess u := by
        intro u
        rw [← hstaged.isProcess, ← hd.isProcess, ← setPageDir_isProcess hd.ne_zero]
        unfold Memory.IsProcess
        rw [hw.pokes.same]
      have hnew : (s₂.setPageDir t d).IsProcess t := (setPageDir_isProcess hd.ne_zero t).2 (.inl rfl)
      refine ⟨f, hw.spaces h₃, (hstaged.kept.trans hkept₃).trans (hw.pokes.kept h₃.toTables), ?_, ?_, ?_, hproc, ?_,
        ?_, ?_⟩
      · rw [hw.pokes.same]
        exact hd.holder.trans hstaged.holder
      · exact ((hstaged.sizes.trans hd.sizes).trans fun pf => by cases pf <;> rfl).trans (.of_mem hw.pokes.same)
      · have hset : Quiet s₂ (s₂.setPageDir t d) := ⟨rfl, rfl⟩
        refine ((hstaged.quiet.trans hd.quiet).trans hset).trans ?_
        rw [hw.pokes.same]
        exact ⟨rfl, rfl⟩
      · rw [hw.pokes.same]
        change ((s₂.setPageDir t d).task t).pageDir.toNat % 4096 = 0
        rw [setPageDir_pageDir, if_pos rfl]
        exact hd.aligned
      · intro sp v hexists hv hout
        obtain ⟨hv₃, hword₃⟩ := hkeep sp v hexists hv
        have hspared : home sp v = home (s₂.setPageDir t d).space v →
            ¬((BitVec.ofNat 32 t + 68).toNat ≤ v.toNat ∧ v.toNat < (BitVec.ofNat 32 t + 68).toNat + 168) := by
          rintro hhome ⟨hle, hlt⟩
          rw [hsp₃, home_kernel] at hhome
          rw [hnat, hp] at hle hlt
          exact hout ⟨hhome, hle, hlt⟩
        obtain ⟨hv', hword'⟩ := (hw.keeps h₃ hframe) sp v hspared ((hstaged.kept.trans hkept₃).spaces sp hexists) hv₃
        exact ⟨hv', hword'.trans hword₃⟩
      · rw [hsp₃] at hheap₄
        have hfirst : 0xc0100 ≤ vpage p := hheap.1
        have hregion := h.toLayout.region hheap
        have hbase : 0xc0100000 ≤ p.toNat := by
          unfold vpage at hfirst
          omega
        refine hheap₄.viewed (by omega) fun v hle hlt => hw.pokes.sees h₃ hnew ?_
        rw [hnat] at hle hlt
        have hv := hpg v hle hlt
        exact hd.sees hstaged.spaces (by omega) (by rw [hv]; omega) (by rw [hv]; exact hregion.lt)

/-- `newTask` that gets a page. No process has its `taskStruct` there. -/
theorem Spaces.newTask (h : Spaces s dir) (hsp : s.space = .kernel) (hfits : MallocFits .kernel 1 s)
    (hpcb : ∀ v : Word, v.toNat % 4 = 0 → s.IsProcess v.toNat → Access s dir .kernel v) (ht : t ≠ 0)
    (hcall : HoloOS.newTask s = .ok (t, s')) : ∃ p : Word, p.toNat = t ∧ KernelPages s s' dir p 1 := by
  obtain ⟨⟨task, s₁⟩, hpages, -⟩ := bind_ok hcall
  cases task with
  | none =>
      rw [newTask_of_none hpages] at hcall
      cases hcall
      exact absurd rfl ht
  | some p =>
      have hp := h.getKernelPages hsp hfits hpages
      obtain ⟨s₀, hr, -⟩ := id hp.malloced.reserved
      have hmod := hr.aligned
      have hproc : ¬s₁.IsProcess p.toNat := by
        rw [hp.staged.isProcess]
        intro hproc
        refine hp.malloced.unseen h (hpcb p (by omega) hproc) ?_ ⟨Nat.le_refl _, Nat.lt_succ_self _⟩
        rw [hsp]
      rw [newTask_of_some hpages, setPageDir_zero hproc] at hcall
      cases hcall
      exact ⟨p, rfl, hp⟩

end HoloOS
