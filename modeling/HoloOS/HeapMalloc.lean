import HoloOS.HeapStates

/-! `sysMalloc` on the heap of the running thread. It takes the first free block of the class, or makes an arena of
a new page for it, or takes pages of its own, and in each case the memory it returns is zero. -/

namespace HoloOS

open Function Paging

variable {s s₁ s' : Memory} {dir : Space → Nat} {sp : Space} {D K a p v size : Word} {c : Fin 7} {H : Arenas}
  {pf : PoolFlags} {n : Nat} {rest : List Word} {done : Bool}

/-- Nobody has seen a page before it is allocated. -/
theorem Malloced.unseen (hm : Malloced s s₁ dir a n done) (h : Spaces s dir) (hv : Access s dir sp v)
    (hhome : home sp v = home s.space v) : ¬(vpage a ≤ vpage v ∧ vpage v < vpage a + n) := by
  rintro ⟨hle, hlt⟩
  obtain ⟨s₂, hr, -⟩ := hm.reserved
  have hheap := hr.heap (vpage v - vpage a) (by omega)
  have hclear := hr.clear (vpage v - vpage a) (by omega)
  rw [show vpage a + (vpage v - vpage a) = vpage v by omega] at hheap hclear
  obtain ⟨b, hb, -⟩ := hv.reach
  obtain ⟨f, hf, -⟩ := place_eq_some.1 hb
  rw [hhome, home_of_heap hheap, h.clear _ _ hheap hclear] at hf
  cases hf

/-- Pages are allocated, and then memory is written. -/
theorem Malloced.keeps_wrote {W : Word → Word} {P : Word → Prop} (hm : Malloced s s₁ dir a n done) (h : Spaces s dir)
    (h₁ : Spaces s₁ dir) (hkeep : KeepsWords s s₁ dir fun _ _ => True) (hshape : SameShape s s₁)
    (hw : Wrote s₁ s' dir W)
    (hsame : ∀ v, P v → ¬(vpage a ≤ vpage v ∧ vpage v < vpage a + n) → W v = word s₁ dir s₁.space v) :
    KeepsWords s s' dir fun sp v => home sp v = home s.space v → P v := by
  intro sp v hv hsp hacc
  obtain ⟨hacc₁, hword₁⟩ := hkeep sp v trivial hsp hacc
  have hwrote := hw.keeps h₁ (fun v (hv : P v ∧ _) => hsame v hv.1 hv.2)
  have hout : home sp v = home s₁.space v → P v ∧ ¬(vpage a ≤ vpage v ∧ vpage v < vpage a + n) := by
    intro hhome
    rw [hshape.space] at hhome
    exact ⟨hv hhome, hm.unseen h hacc hhome⟩
  obtain ⟨hacc₂, hword₂⟩ := hwrote sp v hout ((hshape.exists_iff sp).2 hsp) hacc₁
  exact ⟨hacc₂, hword₂.trans hword₁⟩

theorem Malloced.first {n : Nat} (hm : Malloced s s₁ dir a n done) {k : Nat} (hk : k < n) :
    s.space.first ≤ vpage a + k ∧ s.space.Heap s (vpage a + k) ∧ s.space.bit s (vpage a + k) = false := by
  obtain ⟨s₂, hr, -⟩ := hm.reserved
  have hfirst := hr.first
  exact ⟨by omega, hr.heap k hk, hr.clear k hk⟩

/-- What is true of new pages of a heap. -/
theorem HeapAt.new_page (hh : HeapAt s dir s.space D H) (hm : Malloced s s₁ dir a n done) {k : Nat} (hk : k < n) :
    vpage a + k ∉ H.allPages := by
  intro hin
  have hset := (hh.pages _ hin).2.2
  rw [(hm.first hk).2.2] at hset
  cases hset

theorem Malloced.fresh_new {H' : Arenas} (hm : Malloced s s₁ dir a n done)
    (hpages : ∀ k ∈ H'.allPages, k ∈ H.allPages ∨ ∃ i < n, k = vpage a + i) :
    ∀ k ∈ H'.allPages, k ∉ H.allPages → s.space.bit s k = false := by
  intro k hk hno
  obtain ⟨i, hi, rfl⟩ := (hpages k hk).resolve_left hno
  exact (hm.first hi).2.2

theorem HeapAt.new_far (h : Spaces s dir) (hh : HeapAt s dir s.space D H) (hm : Malloced s s₁ dir a n done) {k : Nat}
    (hk : k < n) : Far D (vpage a + k) := by
  obtain ⟨-, hheap, hclear⟩ := hm.first hk
  exact hh.mounted.far h hheap (h.clear _ _ hheap hclear)

/-- The heap after an allocation of pages, for which it has no use yet. -/
theorem HeapAt.malloced (hh : HeapAt s dir s.space D H) (hm : Malloced s s₁ dir a n done)
    (hkeep : KeepsWords s s₁ dir fun _ _ => True) : HeapAt s₁ dir s.space D H := by
  refine hh.kept (fun v _ hacc => hkeep _ v trivial s.space_exists hacc) fun k _ hheap hbit => ?_
  refine ⟨(hm.valid (.page s.space k)).2 hheap, ?_⟩
  rw [hm.bit, hbit]
  simp

/-- The words of the heap with new pages. -/
theorem HeapAt.mounted_new {H' : Arenas} (h : Spaces s dir) (h₁ : Spaces s₁ dir) (hh₁ : HeapAt s₁ dir s.space D H)
    (hm : Malloced s s₁ dir a n true) (hpages : ∀ k ∈ H'.allPages, k ∈ H.allPages ∨ ∃ i < n, k = vpage a + i) :
    Mounted s₁ dir s₁.space D H' := by
  have hspace := hm.tables_same.1
  rw [hspace]
  refine ⟨hh₁.mounted.1, fun v hv haligned => ?_⟩
  rcases hv with hdesc | hpage
  · exact hh₁.mounted.2 v (.inl hdesc) haligned
  · rcases hpages _ hpage with hold | ⟨i, hi, he⟩
    · exact hh₁.mounted.2 v (.inr hold) haligned
    · have hdata := hm.dataPage h.toTables h₁.toTables i hi
      rw [← he] at hdata
      have hacc := hdata.access haligned
      rw [hspace] at hacc
      exact hacc

/-- The sizes that `sysMalloc` turns down. -/
abbrev Refused (s : Memory) (size : Word) : Prop := size = 0 ∨ (s.pool s.space.flag).poolSize ≤ size

/-- What `sysMalloc` may return. -/
inductive MallocOutcome (s : Memory) (dir : Space → Nat) (D size : Word) (H : Arenas) :
    Except Trap (Option Word × Memory) → Prop
  | refused (hsize : Refused s size) : MallocOutcome s dir D size H (.ok (none, s))
  | tooMany (hasked : ¬Refused s size) (hcnt : 3840 ≤ pageCount size) :
      MallocOutcome s dir D size H (.error (.panic .pgCnt))
  | noStack (hcnt : pageCount size < 3840) (hstack : s.space.flag = .user ∧ s.space.bit s 0xbffff = false) :
      MallocOutcome s dir D size H (.error (.panic .vaddrStart))
  | full {n : Nat} {s₁ s' : Memory} (hcnt : pageCount size < 3840)
    (hn : n = if 1024 < size.toNat then pageCount size else 1)
      (hfull : mallocPage s.space.flag n (s.locked s.space.flag) = .ok (none, s₁))
      (haround : Around s s' dir fun _ _ => True) (hheap : HeapAt s' dir s.space D H) :
      MallocOutcome s dir D size H (.ok (none, s'))
  | served {p : Word} {H' : Arenas} {s' : Memory} (hasked : ¬Refused s size) (hcnt : pageCount size < 3840)
      (hmalloc : H.Malloc D size p H')
      (hstep : HeapStep s s' dir D H H' H.live)
      (hzero : ∀ v, Alloc.Holds ⟨p, size⟩ v → word s' dir s.space v = 0) :
      MallocOutcome s dir D size H (.ok (some p, s'))

/-- Without its stack page a process may be given it. -/
theorem Tables.stack_clear (h : Tables s dir) (hpf : pf = s.space.flag) (hn : 0 < n) (hscan : Scanned s pf n v)
    (hstack : StackPage pf (vpage v)) : s.space.flag = .user ∧ s.space.bit s 0xbffff = false := by
  rcases h.vaddrGet hpf hn with ⟨hnone, -⟩ | ⟨w, s₁, hr, hscan', -⟩
  · rw [Scanned, hnone] at hscan
    cases hscan
  · have hfirst := hr.first
    have hclear := hr.clear 0 hn
    have he := Option.some.inj (hscan.symm.trans hscan')
    obtain ⟨huser, hpage⟩ := hstack
    have hle : s.space.first ≤ vpage v := by
      rw [hpage]
      cases hsp : s.space with
      | kernel =>
          rw [hpf, hsp] at huser
          cases huser
      | process t => exact (by decide : 0x8048 ≤ 0xbffff)
    rw [show vpage w + 0 = 0xbffff by omega] at hclear
    exact ⟨hpf ▸ huser, hclear⟩

/-- The page count that the code computes. -/
theorem pageCnt_eq (hfit : size.toNat + 4107 < 2 ^ 32) :
    (size + 12 + 4096 - 1) / 4096 = BitVec.ofNat 32 (pageCount size) := by
  apply BitVec.eq_of_toNat_eq
  have hword₁ : (12 : Word).toNat = 12 := rfl
  have hword₂ : (4096 : Word).toNat = 4096 := rfl
  have hword₃ : (1 : Word).toNat = 1 := rfl
  rw [BitVec.toNat_udiv, BitVec.toNat_sub, BitVec.toNat_add, BitVec.toNat_add, BitVec.toNat_ofNat, hword₁, hword₂,
    hword₃]
  unfold pageCount
  omega

section Locked

variable (h : Spaces s dir) (hh : HeapAt s dir s.space D H) (hpf : pf = s.space.flag)
include h hh hpf

/-- What `mallocPage` does to a heap before the pages are put to use. -/
theorem HeapAt.mallocPage (hn : 0 < n) (hcnt : n < 3840) (hfits : MallocFits pf n s) :
    (HoloOS.mallocPage pf n s = .error (.panic .vaddrStart) ∧ s.space.flag = .user ∧ s.space.bit s 0xbffff = false) ∨
    (∃ s₁, HoloOS.mallocPage pf n s = .ok (none, s₁) ∧ Around s s₁ dir (fun _ _ => True) ∧
      HeapAt s₁ dir s.space D H) ∨
    ∃ a s₁, HoloOS.mallocPage pf n s = .ok (some a, s₁) ∧ Malloced s s₁ dir a n true ∧ Spaces s₁ dir ∧
      KeepsWords s s₁ dir (fun _ _ => True) ∧ SameShape s s₁ ∧ SameSizes s s₁ := by
  rcases h.mallocPage hpf ⟨hn, hcnt⟩ hfits with ⟨v, hscan, hstack, hpanic⟩ | ⟨-, hnone⟩ |
    ⟨done, a, s₁, -, hcall, h₁, hm⟩
  · exact .inl ⟨hpanic, h.stack_clear hpf hn hscan hstack⟩
  · refine .inr (.inl ⟨s, hnone, ⟨h, ?_, fun _ _ _ => rfl, rfl, fun _ _ _ _ hacc => ⟨hacc, rfl⟩, ?_⟩, hh⟩)
    · exact ⟨rfl, fun _ => rfl, fun _ => Iff.rfl, .refl s⟩
    · exact ⟨fun sp n f g _ _ hf hg => Option.some.inj (hf.symm.trans hg), fun _ _ hf => hf⟩
  · have hsizes := mallocPage_sizes hcall
    obtain ⟨hspaces, hkeep⟩ := hm.words h h₁ fun b hb => h.mallocPage_kept hpf hn hfits hcall hb
    have hshape := hm.shape hsizes
    cases done with
    | true => exact .inr (.inr ⟨a, s₁, hcall, hm, hspaces, hkeep, hshape, hsizes⟩)
    | false =>
        refine .inr (.inl ⟨s₁, hcall,
          ⟨hspaces, hshape, fun sp k hne => ?_, hm.tables_same.2.2.2.2.1, hkeep, hm.frames⟩, hh.malloced hm hkeep⟩)
        rw [hm.bit, if_neg fun hin => hne hin.1]

omit hpf in
variable (pf) in
/-- A block is taken from the free list. -/
theorem HeapAt.takeBlock (hc : InClass size c) (hfree : H.free c = p :: rest) :
    ∃ s₁, HoloOS.takeBlock pf (descAt D c) s = (lockRelease pf s₁ >>= fun s => pure (some p, s)) ∧
      HeapStep s s₁ dir D H (H.take c ⟨p, size⟩) H.live ∧ ∀ v, Alloc.Holds ⟨p, size⟩ v →
        word s₁ dir s.space v = 0 := by
  obtain ⟨cnt, hr, hcount⟩ := hh.words
  have hpin : p ∈ H.free c := by
    rw [hfree]
    exact List.mem_cons_self
  obtain ⟨a, ha, hblock⟩ := hh.wf.mem_free hpin
  have hpage : vpage p = vpage a := (hh.wf.inArena ha hblock).page
  obtain ⟨n, hn⟩ : ∃ n, cnt a = n + 1 := by
    refine ⟨cnt a - 1, ?_⟩
    rw [hcount c a ha, hfree, freeIn_cons, if_pos hpage]
    omega
  obtain ⟨s₁, W, hw, hcall, hr₁, hzero, hframe⟩ :=
    (Wrote.refl s dir).takeBlock h hh.mounted hr pf hh.wf hc hfree ha hblock hn
  have hmalloc : H.Malloc D size p (H.take c ⟨p, size⟩) := .reuse hc hfree
  have hlarge : (H.take c ⟨p, size⟩).large = H.large := large_cons.trans (if_neg (InClass.not_large hc))
  have hall : (H.take c ⟨p, size⟩).allPages = H.allPages := by
    unfold Arenas.allPages
    rw [hlarge]
    rfl
  refine ⟨s₁, hcall, ⟨?_, by rw [hw.pokes.same], ?_, ?_, fun n hn hno => ?_⟩, fun v hv => ?_⟩
  · rw [hall]
    exact (hw.pokes.pageStep h).congr (fun n => by simp) fun n => by simp
  · refine HeapAt.wrote h hw (hh.wf.malloc hmalloc) hr₁
      (hcount.take hh.wf.toPlaced hfree ha hpage hn) ?_ ?_
    · refine ⟨hh.mounted.1, fun v hv => hh.mounted.2 v ?_⟩
      unfold Zone at hv ⊢
      rw [hall] at hv
      exact hv
    · rw [hall]
      exact hh.pages
  · exact hw.keeps h fun v hv => hframe v (hh.wf.spared (fun _ hb => hb) hv)
  · rw [hall] at hn
    exact absurd hn hno
  · have hview := hw.view
    rw [hw.pokes.space] at hview
    rw [hview]
    have hsize := hc.1
    unfold Alloc.Holds at hv
    exact hzero v ⟨hv.1, by dsimp only at hv; omega⟩

end Locked

theorem mem_allPages_build (hc : n ∈ (H.build c a).allPages) : n = vpage a ∨ n ∈ H.allPages := by
  have hpages : (H.build c a).allPages.Perm (vpage a :: H.allPages) :=
    allPages_cons (List.Perm.refl _) (List.Perm.refl _) rfl
  exact List.mem_cons.1 (hpages.mem_iff.1 hc)

theorem allPages_build (H : Arenas) (c : Fin 7) (a : Word) : (H.build c a).allPages.Perm (vpage a :: H.allPages) :=
  allPages_cons (List.Perm.refl _) (List.Perm.refl _) rfl

section Taken

variable (h : Spaces s dir) (hh : HeapAt s dir s.space D H) (hm : Malloced s s₁ dir a n true) (h₁ : Spaces s₁ dir)
  (hkeep : KeepsWords s s₁ dir fun _ _ => True) (hshape : SameShape s s₁) (hsizes : SameSizes s s₁)
include h hh hm h₁ hkeep hshape hsizes

omit h h₁ hsizes in
/-- New pages of a heap are in use. -/
theorem HeapAt.pages_new {H' : Arenas} (hpages : ∀ k ∈ H'.allPages, k ∈ H.allPages ∨ ∃ i < n, k = vpage a + i) :
    ∀ k ∈ H'.allPages, s₁.space.first ≤ k ∧ s₁.space.Heap s₁ k ∧ s₁.space.bit s₁ k = true := by
  intro k hk
  rw [hshape.space]
  rcases hpages k hk with hold | ⟨i, hi, rfl⟩
  · exact (hh.malloced hm hkeep).pages k hold
  · obtain ⟨hfirst, hheap, -⟩ := hm.first hi
    refine ⟨hfirst, hshape.heap_iff.2 hheap, ?_⟩
    rw [hm.bit, if_pos ⟨rfl, by omega, by omega⟩]

omit hkeep hshape in
/-- The pages of a heap that has new ones. -/
theorem HeapAt.pageStep_new {W : Word → Word} {H' : Arenas} (hw : Wrote s₁ s' dir W)
    (hpages : ∀ k, k ∈ H'.allPages ↔ k ∈ H.allPages ∨ ∃ i < n, k = vpage a + i) :
    PageStep s s' dir (fun k => k ∈ H.allPages ∧ k ∉ H'.allPages) fun k => k ∈ H'.allPages ∧ k ∉ H.allPages := by
  refine ((hm.pageStep h.toTables h₁ hsizes).trans (hw.pokes.pageStep h₁)).congr (fun k => ?_) fun k => ?_
  · rw [hpages]
    tauto
  · rw [hpages]
    constructor
    · rintro (hfalse | ⟨⟨hle, hlt⟩, -⟩)
      · exact hfalse.elim
      · have hnew := hh.new_page hm (k := k - vpage a) (by omega)
        rw [show vpage a + (k - vpage a) = k by omega] at hnew
        exact ⟨.inr ⟨k - vpage a, by omega, by omega⟩, hnew⟩
    · rintro ⟨hold | ⟨i, hi, rfl⟩, hno⟩
      · exact absurd hold hno
      · exact .inr ⟨⟨by omega, by omega⟩, not_false⟩

end Taken

section Fresh

variable (h : Spaces s dir) (hh : HeapAt s dir s.space D H) (hm : Malloced s s₁ dir a 1 true) (h₁ : Spaces s₁ dir)
  (hkeep : KeepsWords s s₁ dir fun _ _ => True) (hshape : SameShape s s₁) (hsizes : SameSizes s s₁)
include h hh hm h₁ hkeep hshape hsizes

/-- A new page becomes an arena. -/
theorem HeapAt.buildArena (hfree : H.free c = []) :
    ∃ s₂, (do
        let s ← memset a 0 4096 s₁
        let s ← s.store a (descAt D c)
        let s ← s.storeByte (a + 8) 0
        let blocksPerArena ← s.load (descAt D c + 4)
        let s ← s.store (a + 4) blocksPerArena
        let s ← splitArena (descAt D c) a (2 ^ 32) 0 s
        return (true, s) : Except Trap (Bool × Memory)) = .ok (true, s₂) ∧
      PageAligned a ∧ vpage a ∉ H.allPages ∧ Far D (vpage a) ∧
      HeapStep s s₂ dir D H (H.build c a) H.live := by
  obtain ⟨s₀, hr₀, -⟩ := hm.reserved
  have haligned : PageAligned a := hr₀.aligned
  have hnew : vpage a ∉ H.allPages := by
    have hpage := hh.new_page hm (k := 0) Nat.one_pos
    rw [Nat.add_zero] at hpage
    exact hpage
  have hfar : Far D (vpage a) := by
    have hpage := hh.new_far h hm (k := 0) Nat.one_pos
    rw [Nat.add_zero] at hpage
    exact hpage
  have hh₁ := hh.malloced hm hkeep
  have hspace := hshape.space
  obtain ⟨cnt, hr, hcount⟩ := hh₁.words
  have hbuild := hh.wf.build hfree haligned hnew hfar
  have hperm := allPages_build H c a
  have hpages : ∀ k, k ∈ (H.build c a).allPages ↔ k ∈ H.allPages ∨ ∃ i < 1, k = vpage a + i := by
    intro k
    rw [hperm.mem_iff, List.mem_cons]
    constructor
    · rintro (rfl | hold)
      · exact .inr ⟨0, Nat.one_pos, rfl⟩
      · exact .inl hold
    · rintro (hold | ⟨i, hi, rfl⟩)
      · exact .inr hold
      · left
        omega
  have hmount := HeapAt.mounted_new h h₁ hh₁ hm fun k hk => (hpages k).1 hk
  have hdata : DataPage s₁ dir (vpage a) := hm.dataPage h.toTables h₁.toTables 0 Nat.one_pos
  rw [← hspace] at hr
  obtain ⟨s₂, W, hcall, hw, hr₂, hframe⟩ := h₁.buildArena hmount hbuild.toPlaced hh.wf.toPlaced hr hdata haligned
    hr₀.ne_zero hnew hfree
  refine ⟨s₂, hcall, haligned, hnew, hfar, ?_, ?_, ?_, ?_, hm.fresh_new fun k hk => (hpages k).1 hk⟩
  · exact hh.pageStep_new h hm h₁ hsizes hw hpages
  · rw [hw.pokes.same]
    exact hm.tables_same.2.2.2.2.1
  · have hheap := HeapAt.wrote h₁ hw hbuild hr₂ (hcount.build hbuild.toPlaced hfree hnew) hmount
      (hh.pages_new hm hkeep hshape fun k hk => (hpages k).1 hk)
    rw [hspace] at hheap
    exact hheap
  · refine hm.keeps_wrote h h₁ hkeep hshape hw fun v hv hout => hframe v ?_ ?_
    · exact hh.wf.spared (fun _ hb => hb) hv
    · omega

omit hh h₁ hkeep hshape hsizes in
/-- What nobody has seen was spared. -/
theorem Malloced.spared_build {live : List Alloc} (hv : Access s dir sp v) (hhome : home sp v = home s.space v)
    (hspared : Spared D H live v) : Spared D (H.build c a) live v := by
  rcases hspared with hout | hheld
  · left
    rintro (hdesc | hpage)
    · exact hout (.inl hdesc)
    · rcases mem_allPages_build hpage with he | hold
      · exact hm.unseen h hv hhome ⟨by omega, by omega⟩
      · exact hout (.inr hold)
  · exact .inr hheld

end Fresh

section Large

variable (h : Spaces s dir) (hh : HeapAt s dir s.space D H) (hm : Malloced s s₁ dir a (pageCount size) true)
  (h₁ : Spaces s₁ dir) (hkeep : KeepsWords s s₁ dir fun _ _ => True) (hshape : SameShape s s₁)
  (hsizes : SameSizes s s₁)
include h hh hm h₁ hkeep hshape hsizes

/-- New pages become a large allocation. -/
theorem HeapAt.buildLarge (hsize : 1024 < size.toNat) (f : Memory → Except Trap (Option Word × Memory)) :
    ∃ s₂, (do
        let s ← memset a 0 (pageCount size * 4096) s₁
        let s ← s.store a 0
        let s ← s.store (a + 4) (BitVec.ofNat 32 (pageCount size))
        let s ← s.storeByte (a + 8) 1
        f s : Except Trap (Option Word × Memory)) = f s₂ ∧ H.Malloc D size (a + 12) (H.addLarge ⟨a + 12, size⟩) ∧
      HeapStep s s₂ dir D H (H.addLarge ⟨a + 12, size⟩) H.live ∧
      ∀ v, Alloc.Holds ⟨a + 12, size⟩ v → word s₂ dir s.space v = 0 := by
  obtain ⟨s₀, hr₀, -⟩ := hm.reserved
  have haligned : PageAligned a := hr₀.aligned
  obtain ⟨hnat, hpage, -⟩ := payload_toNat haligned
  have hnew : ∀ k < pageCount size, vpage a + k ∉ H.allPages := fun k hk => hh.new_page hm hk
  have hfar : ∀ k < pageCount size, Far D (vpage a + k) := fun k hk => hh.new_far h hm hk
  have hmalloc : H.Malloc D size (a + 12) (H.addLarge ⟨a + 12, size⟩) := .large hsize haligned hnew hfar
  have hh₁ := hh.malloced hm hkeep
  have hspace := hshape.space
  obtain ⟨cnt, hr, hcount⟩ := hh₁.words
  have hwf := hh.wf.malloc hmalloc
  have hlarge : Alloc.Large ⟨a + 12, size⟩ := hsize
  have hperm := allPages_addLarge (H := H) hlarge
  have hpages : ∀ k, k ∈ (H.addLarge ⟨a + 12, size⟩).allPages ↔
      k ∈ H.allPages ∨ ∃ i < pageCount size, k = vpage a + i := by
    intro k
    rw [hperm.mem_iff, List.mem_append, Alloc.pages, List.mem_map]
    dsimp only
    rw [hpage]
    constructor
    · rintro (⟨i, hi, rfl⟩ | hold)
      · exact .inr ⟨i, List.mem_range.1 hi, rfl⟩
      · exact .inl hold
    · rintro (hold | ⟨i, hi, rfl⟩)
      · exact .inr hold
      · exact .inl ⟨i, List.mem_range.2 hi, rfl⟩
  have hmount := HeapAt.mounted_new h h₁ hh₁ hm fun k hk => (hpages k).1 hk
  have hdata := hm.dataPage h.toTables h₁.toTables
  rw [← hspace] at hr
  obtain ⟨s₂, W, hcall, hw, hr₂, hzero, hframe⟩ :=
    h₁.buildLarge hmount hwf.toPlaced hh.wf.toPlaced hr hsize hdata haligned
    hr₀.ne_zero hnew (f := f)
  refine ⟨s₂, hcall, hmalloc, ⟨?_, ?_, ?_, ?_, hm.fresh_new fun k hk => (hpages k).1 hk⟩,
    fun v hv => ?_⟩
  · exact hh.pageStep_new h hm h₁ hsizes hw hpages
  · rw [hw.pokes.same]
    exact hm.tables_same.2.2.2.2.1
  · have hheap := HeapAt.wrote h₁ hw hwf hr₂ hcount hmount
      (hh.pages_new hm hkeep hshape fun k hk => (hpages k).1 hk)
    rw [hspace] at hheap
    exact hheap
  · exact hm.keeps_wrote h h₁ hkeep hshape hw fun v _ hout => hframe v hout
  · have hview := hw.view
    rw [hw.pokes.space, hspace] at hview
    rw [hview]
    unfold Alloc.Holds at hv
    dsimp only at hv
    refine hzero v (by omega) ?_
    unfold pageCount
    omega

end Large

/-- The kernel pool has a frame left whenever the call needs a page table. -/
def HeapFits (K size : Word) (s : Memory) : Prop :=
  (1024 < size.toNat → MallocFits s.space.flag (pageCount size) s) ∧
  (size.toNat ≤ 1024 → ∀ desc, findDesc size 7 (descsOf K s.space) s = .ok desc →
    s.listEmpty (desc + 8) = .ok true → MallocFits s.space.flag 1 s)

/-- The pool and the descriptors are those of the running thread's space. -/
theorem sysMalloc_eq (K size : Word) (s : Memory) : sysMalloc K size s =
    (if size = 0 ∨ (s.pool s.space.flag).poolSize ≤ size then .ok (none, s)
    else do
      let s' ← lockAcquire s.space.flag s
      if 1024 < size then pagesMalloc s.space.flag size s'
      else blockMalloc s.space.flag (descsOf K s.space) size s' : Except Trap (Option Word × Memory)) := by
  have hpf : s.space.flag = s.space.flag := rfl
  rw [sysMalloc, threadPool_eq]
  rcases space_of_flag hpf with ⟨hflag, hsp⟩ | ⟨hflag, hsp⟩
  · rw [hflag, hsp]
    rfl
  · rw [hflag, hsp]
    rfl

theorem sysMalloc_refused (hguard : Refused s size) :
    sysMalloc K size s = .ok (none, s) := by
  rw [sysMalloc_eq, if_pos hguard]

theorem pageCount_lt (size : Word) : pageCount size < 2 ^ 32 := by
  have := size.isLt
  unfold pageCount
  omega

section Outcome

variable (h : Spaces s dir) (hh : HeapAt s dir s.space D H) (hfree : s.holder s.space.flag = none)
  (hasked : ¬Refused s size)
include h hh hfree hasked

/-- The case `size > 1024`. -/
theorem HeapAt.pagesMalloc (hlarge : 1024 < size.toNat) (hsize : size.toNat + 4107 < 2 ^ 32)
    (hfits : MallocFits s.space.flag (pageCount size) (s.locked s.space.flag)) :
    MallocOutcome s dir D size H (HoloOS.pagesMalloc s.space.flag size (s.locked s.space.flag)) := by
  have hl : Spaces (s.locked s.space.flag) dir := h.withHolder _
  have hhl : HeapAt (s.locked s.space.flag) dir (s.locked s.space.flag).space D H := hh.withHolder _
  have hpf : s.space.flag = (s.locked s.space.flag).space.flag := rfl
  have hcount := pageCnt_eq hsize
  have hnat : (BitVec.ofNat 32 (pageCount size)).toNat = pageCount size := by
    rw [BitVec.toNat_ofNat, Nat.mod_eq_of_lt (pageCount_lt size)]
  rw [HoloOS.pagesMalloc]
  dsimp only
  rw [hcount, hnat]
  by_cases hcnt : pageCount size < 3840
  · have hbytes : (BitVec.ofNat 32 (pageCount size) * 4096).toNat = pageCount size * 4096 := by
      have hword : (4096 : Word).toNat = 4096 := rfl
      rw [BitVec.toNat_mul, hnat, hword, Nat.mod_eq_of_lt (by omega)]
    rcases HeapAt.mallocPage hl hhl hpf (pageCount_pos size) hcnt hfits with
      ⟨hpanic, hstack⟩ | ⟨s₁, hcall, haround, hheap⟩ | ⟨a, s₁, hcall, hm, h₁, hkeep, hshape, hsizes⟩
    · rw [hpanic]
      exact .noStack hcnt hstack
    · rw [hcall, ok_bind]
      obtain ⟨s', hrelease, haround', hheap'⟩ := haround.unlock h hfree hheap
      dsimp only
      rw [hrelease]
      exact .full hcnt (if_pos hlarge).symm hcall haround' hheap'
    · rw [hcall, ok_bind]
      obtain ⟨s₂, hbuild, hmalloc, hstep, hzero⟩ := hhl.buildLarge hl hm h₁ hkeep hshape hsizes hlarge
        fun s' => lockRelease s.space.flag s' >>= fun s' => pure (some (a + 12), s')
      obtain ⟨s', hrelease, hstep', hword⟩ := hstep.unlock h hfree
      dsimp only
      rw [hbytes, hbuild, hrelease]
      exact .served hasked hcnt hmalloc hstep' fun v hv => (hword s.space v).trans (hzero v hv)
  · rw [HoloOS.mallocPage, massert, if_neg (by simpa using fun _ => Nat.le_of_not_lt hcnt)]
    exact .tooMany hasked (Nat.le_of_not_lt hcnt)

/-- The case `size ≤ 1024`. -/
theorem HeapAt.blockMalloc (hc : InClass size c)
    (hfits : ∀ desc, findDesc size 7 D (s.locked s.space.flag) = .ok desc →
    (s.locked s.space.flag).listEmpty (desc + 8) = .ok true → MallocFits s.space.flag 1 (s.locked s.space.flag)) :
    MallocOutcome s dir D size H (HoloOS.blockMalloc s.space.flag D size (s.locked s.space.flag)) := by
  have hl : Spaces (s.locked s.space.flag) dir := h.withHolder _
  have hhl : HeapAt (s.locked s.space.flag) dir (s.locked s.space.flag).space D H := hh.withHolder _
  have hpf : s.space.flag = (s.locked s.space.flag).space.flag := rfl
  obtain ⟨cnt, hr, hcount⟩ := hhl.words
  have hw := Wrote.refl (s.locked s.space.flag) dir
  have hsmall : size.toNat ≤ 1024 := Nat.not_lt.1 (InClass.not_large (b := ⟨0, size⟩) hc)
  have hcnt : pageCount size < 3840 := by
    unfold pageCount
    omega
  have hdesc : findDesc size 7 D (s.locked s.space.flag) = .ok (descAt D c) := by
    have hfind := hw.findDesc hl hhl.mounted hhl.wf.toPlaced hr hc c.val 0 (Nat.zero_add _)
    rw [Nat.mul_zero, Nat.sub_zero, BitVec.add_zero] at hfind
    exact hfind
  obtain ⟨hnodes, hacc⟩ := hhl.mounted.nodes hhl.wf.toPlaced hr
  have hempty := hw.empty hl hr.lists hnodes hacc c
  rw [HoloOS.blockMalloc, hdesc, ok_bind, show descAt D c + 8 = freeListAt D c from rfl, hempty, ok_bind]
  cases hlist : H.free c with
  | nil =>
      rw [hlist, decide_eq_true rfl] at hempty
      rw [decide_eq_true rfl, if_pos rfl, newArena]
      rcases HeapAt.mallocPage hl hhl hpf Nat.one_pos (by decide) (hfits _ hdesc hempty) with
        ⟨hpanic, hstack⟩ | ⟨s₁, hcall, haround, hheap⟩ | ⟨a, s₁, hcall, hm, h₁, hkeep, hshape, hsizes⟩
      · rw [hpanic]
        exact .noStack hcnt hstack
      · rw [hcall]
        obtain ⟨s', hrelease, haround', hheap'⟩ := haround.unlock h hfree hheap
        change MallocOutcome s dir D size H (lockRelease s.space.flag s₁ >>= fun s => pure (none, s))
        rw [hrelease]
        exact .full hcnt (if_neg (Nat.not_lt.2 hsmall)).symm hcall haround' hheap'
      · obtain ⟨s₂, hbuild, haligned, hnew, hfar, hstep⟩ := hhl.buildArena hl hm h₁ hkeep hshape hsizes hlist
        obtain ⟨rest, hrest⟩ := blocks_cons a c
        have hheap₂ := hstep.heap
        rw [← hstep.pages.shape.space] at hheap₂
        obtain ⟨s₃, htake, hstep₂, hzero⟩ := hheap₂.takeBlock s.space.flag hstep.pages.spaces hc
          ((build_free H c a).trans hrest)
        have hmalloc : H.Malloc D size (blockAt a c 0) ((H.build c a).take c ⟨blockAt a c 0, size⟩) :=
          .fresh hc hlist haligned hnew hfar
        have hall := hstep.trans hstep₂ (fun n => ?_) fun sp v hv hhome hspared => hm.spared_build hl hv hhome hspared
        · obtain ⟨s', hrelease, hstep', hword⟩ := hall.unlock h hfree
          rw [hcall, ok_bind]
          dsimp only
          rw [hbuild, ok_bind]
          dsimp only
          rw [if_pos rfl, htake, hrelease]
          refine .served hasked hcnt hmalloc hstep' fun v hv => (hword s.space v).trans ?_
          have hz := hzero v hv
          rw [hstep.pages.shape.space] at hz
          exact hz
        · have hsame : ((H.build c a).take c ⟨blockAt a c 0, size⟩).large = (H.build c a).large :=
            large_cons.trans (if_neg (InClass.not_large hc))
          unfold Arenas.allPages
          rw [hsame]
          exact Iff.rfl
  | cons p rest =>
      rw [decide_eq_false (List.cons_ne_nil p rest), if_neg Bool.false_ne_true]
      obtain ⟨s₁, htake, hstep, hzero⟩ := hhl.takeBlock s.space.flag hl hc hlist
      obtain ⟨s', hrelease, hstep', hword⟩ := hstep.unlock h hfree
      rw [htake, hrelease]
      exact .served hasked hcnt (.reuse hc hlist) hstep' fun v hv => (hword s.space v).trans (hzero v hv)

end Outcome

/-- Every call of `sysMalloc` on a heap. -/
theorem HeapAt.sysMalloc (h : Spaces s dir) (hh : HeapAt s dir s.space (descsOf K s.space) H)
    (hfree : s.holder s.space.flag = none) (hpool : (s.pool s.space.flag).poolSize.toNat ≤ 0x8000000)
    (hfits : HeapFits K size (s.locked s.space.flag)) :
    MallocOutcome s dir (descsOf K s.space) size H (HoloOS.sysMalloc K size s) := by
  rw [sysMalloc_eq]
  by_cases hguard : Refused s size
  · rw [if_pos hguard]
    exact .refused hguard
  · rw [if_neg hguard, lockAcquire_free hfree, ok_bind]
    have hlt : ¬(s.pool s.space.flag).poolSize ≤ size := fun hle => hguard (.inr hle)
    rw [BitVec.le_def] at hlt
    by_cases hlarge : 1024 < size
    · rw [if_pos hlarge]
      have hnat : 1024 < size.toNat := BitVec.lt_def.1 hlarge
      exact hh.pagesMalloc h hfree hguard hnat (by omega) (hfits.1 hnat)
    · rw [if_neg hlarge]
      have hnat : size.toNat ≤ 1024 := Nat.le_of_not_lt fun hlt => hlarge (BitVec.lt_def.2 hlt)
      obtain ⟨c, hc⟩ := exists_inClass hnat
      exact hh.blockMalloc h hfree hguard hc (hfits.2 hnat)

end HoloOS
