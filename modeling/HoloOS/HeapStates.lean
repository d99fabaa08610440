import HoloOS.HeapCalls
import HoloOS.HeapPages
import HoloOS.HeapSteps

/-! The heap of an address space in memory: descriptors, free lists and headers are what its words say, every page
of it is marked and can be written, and the calls of other spaces leave it alone. -/

namespace HoloOS

open Function Paging

variable {s s₁ s' : Memory} {dir : Space → Nat} {sp sp' : Space} {D K v : Word} {H H' : Arenas} {pf : PoolFlags}
  {b lo n : Nat} {gone new gone' new' : Nat → Prop}

/-- Where the descriptors of a space are. -/
def descsOf (K : Word) : Space → Word
  | .kernel => K
  | .process t => BitVec.ofNat 32 t + 68

structure HeapAt (s : Memory) (dir : Space → Nat) (sp : Space) (D : Word) (H : Arenas) : Prop where
  wf : HeapWf D H
  words : ∃ cnt, HeapRepr (word s dir sp) D H cnt ∧ Counts H cnt
  mounted : Mounted s dir sp D H
  pages : ∀ n ∈ H.allPages, sp.first ≤ n ∧ sp.Heap s n ∧ sp.bit s n = true

/-- The running thread, the address spaces and the sizes of the pools. -/
structure SameShape (s s' : Memory) : Prop where
  cur : s'.cur = s.cur
  pageDir : ∀ t, (s'.task t).pageDir = (s.task t).pageDir
  valid : ∀ o : Owner, o.Valid s' ↔ o.Valid s
  sizes : SameSizes s s'

namespace SameShape

theorem isProcess (h : SameShape s s') (t : Tid) : s'.IsProcess t ↔ s.IsProcess t := by
  unfold Memory.IsProcess
  rw [h.pageDir]

theorem exists_iff (h : SameShape s s') (sp : Space) : sp.Exists s' ↔ sp.Exists s := by
  cases sp with
  | kernel => exact Iff.rfl
  | process t => exact h.isProcess t

theorem space (h : SameShape s s') : s'.space = s.space := by
  unfold Memory.space
  rw [h.cur]
  exact if_congr (h.isProcess _) rfl rfl

theorem heap_iff (h : SameShape s s') : sp.Heap s' n ↔ sp.Heap s n := h.valid (.page sp n)

theorem trans (h : SameShape s s₁) (h' : SameShape s₁ s') : SameShape s s' :=
  ⟨h'.cur.trans h.cur, fun t => (h'.pageDir t).trans (h.pageDir t), fun o => (h'.valid o).trans (h.valid o),
    h.sizes.trans h'.sizes⟩

end SameShape

theorem Pokes.shape (hp : Pokes s s' dir) : SameShape s s' where
  cur := by rw [hp.same]
  pageDir t := by rw [hp.same]
  valid := hp.valid
  sizes := .of_mem hp.same

theorem SameTables.shape (hs : SameTables s s') : SameShape s s' where
  cur := hs.cur
  pageDir := hs.pageDir
  valid := hs.valid_iff
  sizes pf := by rw [hs.pool]

theorem Malloced.shape {done : Bool} (hm : Malloced s s' dir v n done) (hsizes : SameSizes s s') :
    SameShape s s' where
  cur := hm.tables_same.2.1
  pageDir := hm.tables_same.2.2.2.2.2
  valid := hm.valid
  sizes := hsizes

theorem Shrank.shape {hi : Nat} (hs : Shrank s s₁ dir lo hi) (hm : Marks s₁ s' false lo n) (hsizes : SameSizes s s') :
    SameShape s s' where
  cur := hm.same.cur.trans hs.task.2.1
  pageDir t := by rw [hm.same.pageDir, hs.task.1]
  valid o := (hm.same.valid_iff o).trans (hs.valid o)
  sizes := hsizes

/-- A frame that is taken and that nobody uses. -/
def Stray (s : Memory) (dir : Space → Nat) (pf : PoolFlags) (a : Nat) : Prop :=
  (s.pool pf).Used a ∧ ∀ o, Owner.Valid s o → o.frame s.mem dir ≠ some a

/-- Pages of the running thread's space have been given back, and others taken. No frame has been lost, and the pages
that stay have theirs. -/
structure PageStep (s s' : Memory) (dir : Space → Nat) (gone new : Nat → Prop) : Prop where
  spaces : Spaces s' dir
  shape : SameShape s s'
  bits : ∀ sp n, sp ≠ s.space → Space.bit s' sp n = Space.bit s sp n
  bit : ∀ n, s.space.bit s' n = true ↔ new n ∨ (s.space.bit s n = true ∧ ¬gone n)
  frames : ∀ sp n, sp ≠ s.space → Space.Heap s sp n → mapped s'.mem (dir sp) n = mapped s.mem (dir sp) n
  frame : ∀ n, s.space.Heap s n → ((∃ f, mapped s'.mem (dir s.space) n = some f) ↔
    new n ∨ ((∃ f, mapped s.mem (dir s.space) n = some f) ∧ ¬gone n))
  stray : ∀ pf a, Stray s' dir pf a ↔ Stray s dir pf a
  kept : ∀ n f, s.space.Heap s n → ¬gone n → mapped s.mem (dir s.space) n = some f →
    mapped s'.mem (dir s.space) n = some f
  tlb : ∀ n f, s'.tlb n = some f → s.tlb n = some f

namespace PageStep

theorem congr (h : PageStep s s' dir gone new) (hgone : ∀ n, gone n ↔ gone' n) (hnew : ∀ n, new n ↔ new' n) :
    PageStep s s' dir gone' new' := by
  obtain rfl : gone = gone' := funext fun n => propext (hgone n)
  obtain rfl : new = new' := funext fun n => propext (hnew n)
  exact h

theorem trans (h : PageStep s s₁ dir gone new) (h' : PageStep s₁ s' dir gone' new') :
    PageStep s s' dir (fun n => gone n ∨ gone' n) fun n => new' n ∨ (new n ∧ ¬gone' n) where
  spaces := h'.spaces
  shape := h.shape.trans h'.shape
  bits sp n hne := (h'.bits sp n (by rw [h.shape.space]; exact hne)).trans (h.bits sp n hne)
  bit n := by
    have hbit := h'.bit n
    rw [h.shape.space] at hbit
    rw [hbit, h.bit n]
    tauto
  frames sp n hne hn := by
    rw [h'.frames sp n (by rw [h.shape.space]; exact hne) (h.shape.heap_iff.2 hn), h.frames sp n hne hn]
  frame n hn := by
    have hframe := h'.frame n (by rw [h.shape.space]; exact h.shape.heap_iff.2 hn)
    rw [h.shape.space] at hframe
    rw [hframe, h.frame n hn]
    tauto
  stray pf a := (h'.stray pf a).trans (h.stray pf a)
  kept n f hn hno hf := by
    obtain ⟨hgone, hgone'⟩ := not_or.1 hno
    have hkept := h'.kept n f
    rw [h.shape.space] at hkept
    exact hkept (h.shape.heap_iff.2 hn) hgone' (h.kept n f hn hgone hf)
  tlb n f hf := h.tlb n f (h'.tlb n f hf)

/-- A step that neither takes nor gives back a page. -/
theorem of_frames (hs : Spaces s' dir) (hshape : SameShape s s') (hbit : ∀ sp n, Space.bit s' sp n = Space.bit s sp n)
    (hframe : ∀ o, Owner.Valid s o → o.frame s'.mem dir = o.frame s.mem dir) (hpool : ∀ pf, s'.pool pf = s.pool pf)
    (htlb : s'.tlb = s.tlb) : PageStep s s' dir (fun _ => False) fun _ => False where
  spaces := hs
  shape := hshape
  bits sp n _ := hbit sp n
  bit n := by
    rw [hbit]
    simp
  frames sp n _ hn := hframe (.page sp n) hn
  frame n hn := by
    have hsame : mapped s'.mem (dir s.space) n = mapped s.mem (dir s.space) n := hframe (.page s.space n) hn
    rw [hsame]
    simp
  stray pf a := by
    unfold Stray
    rw [hpool]
    refine and_congr_right fun _ => forall_congr' fun o => ?_
    constructor
    · intro ho hvalid
      rw [← hframe o hvalid]
      exact ho ((hshape.valid o).2 hvalid)
    · intro ho hvalid
      have hvalid' := (hshape.valid o).1 hvalid
      rw [hframe o hvalid']
      exact ho hvalid'
  kept n f hn _ hf := (hframe (.page s.space n) hn).trans hf
  tlb n f hf := by
    rw [← htlb]
    exact hf

end PageStep

theorem Pokes.pageStep (hp : Pokes s s' dir) (h : Spaces s dir) : PageStep s s' dir (fun _ => False) fun _ => False :=
  .of_frames (hp.spaces h) hp.shape hp.bit (fun _ ho => hp.frame h.toTables ho) hp.pool (by rw [hp.same])

theorem SameTables.pageStep (hs : SameTables s s') (hspaces : Spaces s' dir)
    (hbit : ∀ sp n, Space.bit s' sp n = Space.bit s sp n) (htlb : s'.tlb = s.tlb) :
    PageStep s s' dir (fun _ => False) fun _ => False :=
  .of_frames hspaces hs.shape hbit (fun _ _ => by rw [hs.mem]) hs.pool htlb

/-- A frame belongs to one pool. -/
theorem Layout.pools_apart (h : Layout s) {pf pf' : PoolFlags} {val val' : Bool} {a : Nat}
    (ha : (s.pool pf).Marked val a) (ha' : (s.pool pf').Marked val' a) : pf = pf' := by
  have hkfit := h.kfit
  have hbounds := ha.bounds
  have hbounds' := ha'.bounds
  cases pf <;> cases pf' <;> first | rfl | (simp only [Memory.pool] at hbounds hbounds'; omega)

/-- An allocation takes its pages. -/
theorem Malloced.pageStep (hm : Malloced s s' dir v n true) (h : Tables s dir) (hs : Spaces s' dir)
    (hsizes : SameSizes s s') : PageStep s s' dir (fun _ => False) fun k => vpage v ≤ k ∧ k < vpage v + n := by
  have hshape := hm.shape hsizes
  obtain ⟨s₁, hr, hg⟩ := id hm.reserved
  have hvalid₁ : ∀ o : Owner, o.Valid s → o.Valid s₁ := fun o ho => (hr.marks.same.valid_iff o).2 ho
  have hfresh : ∀ o f, Owner.Valid s o → o.frame s'.mem dir = some f → o.frame s.mem dir = some f ∨
      ∃ k, vpage v ≤ k ∧ k < vpage v + n ∧ (o = .page s.space k ∨ o = .table s.space (k / 1024)) := by
    intro o f ho hf
    have hcases := hg.fresh o f (hvalid₁ o ho) hf
    rw [hr.marks.same.mem, hr.marks.same.space] at hcases
    exact hcases
  refine ⟨hs, hshape, fun sp k hne => ?_, fun k => ?_, fun sp k hne hk => ?_, fun k hk => ?_, fun pf a => ?_,
    fun k f hk _ hf => hm.keeps (o := .page s.space k) hk hf, fun k f hf => ?_⟩
  · rw [hm.bit, if_neg fun hin => hne hin.1]
  · rw [hm.bit]
    by_cases hin : vpage v ≤ k ∧ k < vpage v + n
    · rw [if_pos ⟨rfl, hin⟩]
      exact iff_of_true rfl (.inl hin)
    · rw [if_neg fun hb => hin hb.2]
      simp [hin]
  · cases hf : Paging.mapped s.mem (dir sp) k with
    | some f => exact hm.keeps (o := .page sp k) hk hf
    | none =>
        by_contra hsome
        obtain ⟨f, hf'⟩ := Option.ne_none_iff_exists'.1 hsome
        rcases hfresh (.page sp k) f hk hf' with hold | ⟨k', -, -, he | he⟩
        · rw [Owner.frame_page, hf] at hold
          cases hold
        · exact hne (Owner.page.inj he).1
        · cases he
  · constructor
    · rintro ⟨f, hf⟩
      rcases hfresh (.page s.space k) f hk hf with hold | ⟨k', hle, hlt, he | he⟩
      · exact .inr ⟨⟨f, hold⟩, not_false⟩
      · obtain ⟨-, rfl⟩ := Owner.page.inj he
        exact .inl ⟨hle, hlt⟩
      · cases he
    · rintro (hin | ⟨⟨f, hf⟩, -⟩)
      · obtain ⟨f, hf⟩ := hm.mapped rfl (k - vpage v) (by omega)
        rw [show vpage v + (k - vpage v) = k by omega] at hf
        exact ⟨f, hf⟩
      · exact ⟨f, hm.keeps (o := .page s.space k) hk hf⟩
  · have hspent := hg.spent pf a
    have hborn : ∀ o f, Owner.Valid s o → o.frame s.mem dir = none → o.frame s'.mem dir = some f →
        (s.pool o.flag).Free f := by
      intro o f ho hnone hf
      have hfree := hg.born o f (hvalid₁ o ho) (by rw [hr.marks.same.mem]; exact hnone) hf
      rw [hr.marks.same.pool] at hfree
      exact hfree
    have hused := hg.used pf a
    rw [hr.marks.same.pool, hr.marks.same.mem] at hspent
    rw [hr.marks.same.pool] at hused
    constructor
    · rintro ⟨hu, hno⟩
      refine ⟨(hspent hu).resolve_right ?_, fun o ho hf => hno o ((hshape.valid o).2 ho) (hm.keeps ho hf)⟩
      rintro ⟨o, ho, -, -, hf⟩
      exact hno o ((hshape.valid o).2 ((hr.marks.same.valid_iff o).1 ho)) hf
    · rintro ⟨hu, hno⟩
      refine ⟨hused hu, fun o ho hf => ?_⟩
      have ho' := (hshape.valid o).1 ho
      cases hframe : o.frame s.mem dir with
      | some f =>
          have hkept := hm.keeps ho' hframe
          rw [hf] at hkept
          rw [← Option.some.inj hkept] at hframe
          exact hno o ho' hframe
      | none =>
          have hfree := hborn o a ho' hframe hf
          obtain rfl : o.flag = pf := h.pools_apart hfree hu
          exact Pool.Used.not_free hu hfree
  · rw [← hm.tables_same.2.2.2.1]
    exact hf

/-- A free gives its pages back. -/
theorem Shrank.pageStep (hs : Shrank s s₁ dir lo (lo + n)) (hm : Marks s₁ s' false lo n) (h : Tables s dir)
    (hspaces : Spaces s' dir) (hsizes : SameSizes s s') (hheap : ∀ k, lo ≤ k → k < lo + n → s.space.Heap s k)
    (hused : ∀ pf a, (s'.pool pf).Used a ↔ (s.pool pf).Used a ∧
      ∀ k < n, ¬(pf = s.space.flag ∧ mapped s.mem (dir s.space) (lo + k) = some a)) :
    PageStep s s' dir (fun k => lo ≤ k ∧ k < lo + n) fun _ => False := by
  have hshape := hs.shape hm hsizes
  have hothers : ∀ o, Owner.Valid s o → (∀ k, lo ≤ k → k < lo + n → o ≠ .page s.space k) →
      o.frame s'.mem dir = o.frame s.mem dir := by
    intro o ho hno
    rw [hm.same.mem]
    exact hs.others o ho hno
  have hgone : ∀ k, lo ≤ k → k < lo + n → mapped s'.mem (dir s.space) k = none := by
    intro k hle hlt
    rw [hm.same.mem]
    exact hs.gone k hle hlt
  refine ⟨hspaces, hshape, fun sp k hne => ?_, fun k => ?_, fun sp k hne hk => ?_, fun k hk => ?_, fun pf a => ?_,
    fun k f hk hin hf => ?_, fun k f hf => ?_⟩
  · rw [hm.bit, hs.space, if_neg fun hin => hne hin.1, hs.bit]
  · rw [hm.bit, hs.space, hs.bit]
    by_cases hin : lo ≤ k ∧ k < lo + n
    · simp [hin]
    · rw [if_neg fun hb => hin hb.2]
      simp [hin]
  · refine hothers (.page sp k) hk fun k' _ _ he => hne (Owner.page.inj he).1
  · by_cases hin : lo ≤ k ∧ k < lo + n
    · rw [hgone k hin.1 hin.2]
      simp [hin]
    · have hsame : mapped s'.mem (dir s.space) k = mapped s.mem (dir s.space) k := by
        refine hothers (.page s.space k) hk ?_
        intro k' hle hlt he
        obtain ⟨-, rfl⟩ := Owner.page.inj he
        exact hin ⟨hle, hlt⟩
      rw [hsame]
      simp [hin]
  · constructor
    · rintro ⟨hu, hno⟩
      obtain ⟨hold, hlost⟩ := (hused pf a).1 hu
      refine ⟨hold, fun o ho hf => ?_⟩
      by_cases hin : ∃ k, lo ≤ k ∧ k < lo + n ∧ o = .page s.space k
      · obtain ⟨k, hle, hlt, rfl⟩ := hin
        have hflag := h.pools_apart (h.used _ a ho hf) hold
        refine hlost (k - lo) (by omega) ⟨hflag.symm, ?_⟩
        rw [show lo + (k - lo) = k by omega]
        exact hf
      · refine hno o ((hshape.valid o).2 ho) ((hothers o ho ?_).trans hf)
        intro k hle hlt he
        exact hin ⟨k, hle, hlt, he⟩
    · rintro ⟨hu, hno⟩
      refine ⟨(hused pf a).2 ⟨hu, fun k hk hb => hno (.page s.space (lo + k)) (hheap _ (by omega) (by omega)) hb.2⟩,
        ?_⟩
      intro o ho hf
      have ho' := (hshape.valid o).1 ho
      by_cases hin : ∃ k, lo ≤ k ∧ k < lo + n ∧ o = .page s.space k
      · obtain ⟨k, hle, hlt, rfl⟩ := hin
        rw [Owner.frame_page, hgone k hle hlt] at hf
        cases hf
      · refine hno o ho' ((hothers o ho' ?_).symm.trans hf)
        intro k hle hlt he
        exact hin ⟨k, hle, hlt, he⟩
  · refine (hothers (.page s.space k) hk fun k' hle hlt he => ?_).trans hf
    obtain ⟨-, rfl⟩ := Owner.page.inj he
    exact hin ⟨hle, hlt⟩
  · rw [hm.tlb] at hf
    rcases hs.tlb k with he | ⟨hnone, -⟩
    · rw [← he]
      exact hf
    · rw [hnone] at hf
      cases hf

theorem word_unaligned (hv : v.toNat % 4 ≠ 0) : word s dir sp v = 0 := if_neg fun hc => hv hc.aligned

theorem Space.Heap.not_low (hn : sp.Heap s (vpage v)) : ¬Low v := by
  rintro ⟨hle, hlt⟩
  unfold vpage at hn
  cases sp with
  | kernel =>
      have := hn.1
      omega
  | process t =>
      have := hn.2
      omega

/-- The words of a page of data can be written. -/
theorem DataPage.access (hp : DataPage s dir (vpage v)) (haligned : v.toNat % 4 = 0) :
    Access s dir s.space v := by
  have hhome : home s.space v = s.space := home_of_heap hp.heap
  obtain ⟨f, hf, hdata⟩ := hp.data
  refine ⟨⟨⟨haligned, .inr (by rw [hhome]; exact hp.heap)⟩, f + v.toNat % 4096, ?_, .inr ⟨f, hdata, ?_, ?_⟩⟩, ?_⟩
  · rw [place_eq_some, hhome]
    exact ⟨f, hf, rfl⟩
  · omega
  · omega
  · unfold Sees
    rw [hhome]

theorem Access.dataPage (h : Spaces s dir) (hv : Access s dir s.space v) (hn : s.space.Heap s (vpage v)) :
    DataPage s dir (vpage v) := by
  have hhome : home s.space v = s.space := home_of_heap hn
  obtain ⟨a, ha, hopen⟩ := hv.reach
  rcases h.place_cases h.low hv.cell ha with ⟨hlow, -⟩ | ⟨f, hheap, hf, hplace, hmod, hge⟩
  · exact absurd hlow hn.not_low
  · rw [hhome] at hf
    refine ⟨hn, f, hf, ?_⟩
    rcases hopen with hlow | ⟨g, hg, hle, hlt⟩
    · omega
    · have := (h.dataFrame_mod hg).1
      obtain rfl : g = f := by omega
      exact hg

/-- A page of data is no page directory. -/
theorem DataPage.freeable (h : Tables s dir) (hp : DataPage s dir n) : Freeable s dir n := by
  obtain ⟨f, hf, hdata⟩ := hp.data
  refine ⟨hp.heap, ⟨f, hf⟩, fun t ht he => hdata.keep t ht ?_⟩
  obtain ⟨-, hframe⟩ := h.dir_page ht
  rw [he, Owner.frame_page, hf] at hframe
  exact (Option.some.inj hframe).symm

theorem KeepsWords.mono {P Q : Space → Word → Prop} (h : KeepsWords s s' dir Q) (hP : ∀ sp v, P sp v → Q sp v) :
    KeepsWords s s' dir P := fun sp v hv hsp hacc => h sp v (hP sp v hv) hsp hacc

theorem KeepsWords.trans {P : Space → Word → Prop} (h : KeepsWords s s₁ dir P) (h' : KeepsWords s₁ s' dir P)
    (hshape : SameShape s s₁) : KeepsWords s s' dir P := by
  intro sp v hv hsp hacc
  obtain ⟨hacc₁, hword₁⟩ := h sp v hv hsp hacc
  obtain ⟨hacc₂, hword₂⟩ := h' sp v hv ((hshape.exists_iff sp).2 hsp) hacc₁
  exact ⟨hacc₂, hword₂.trans hword₁⟩

theorem SameTables.keeps (hs : SameTables s s') : KeepsWords s s' dir fun _ _ => True :=
  fun _ _ _ _ hacc => ⟨hs.access hacc, hs.word⟩

theorem Wrote.keeps {W : Word → Word} {P : Word → Prop} (h : Spaces s dir) (hw : Wrote s s' dir W)
    (hsame : ∀ v, P v → W v = HoloOS.word s dir s.space v) :
    KeepsWords s s' dir fun sp v => home sp v = home s.space v → P v :=
  fun _ v hv hsp hacc => ⟨hw.pokes.access h hsp hacc, hw.word fun hhome => hsame v (hv hhome)⟩

/-- A page that is not mapped is apart from the descriptors. -/
theorem Mounted.far (h : Spaces s dir) (hm : Mounted s dir sp D H) (hn : sp.Heap s n)
    (hnone : mapped s.mem (dir sp) n = none) : Far D n := by
  have hlt := hn.lt h.toLayout
  have hno : ∀ v, Zone D H v → v.toNat % 4 = 0 → vpage v ≠ n := by
    rintro v hv haligned rfl
    obtain ⟨a, ha, -⟩ := (hm.2 v hv haligned).reach
    obtain ⟨f, hf, -⟩ := place_eq_some.1 ha
    rw [home_of_heap hn, hnone] at hf
    cases hf
  have hD := hm.1
  unfold Far
  by_contra hfar
  rw [not_or, not_le, not_le] at hfar
  by_cases hle : n * 4096 ≤ D.toNat
  · refine hno D (.inl ⟨Nat.le_refl _, by omega⟩) hD ?_
    unfold vpage
    omega
  · have hnat : (BitVec.ofNat 32 (n * 4096)).toNat = n * 4096 := by
      rw [BitVec.toNat_ofNat]
      omega
    refine hno (BitVec.ofNat 32 (n * 4096)) (.inl ⟨by omega, by omega⟩) (by omega) ?_
    rw [vpage, hnat]
    omega

/-- A heap of which every word is kept. -/
theorem HeapAt.kept {dir' : Space → Nat} (h : HeapAt s dir sp D H)
    (hkeep : ∀ v, Zone D H v → Access s dir sp v → Access s' dir' sp v ∧ word s' dir' sp v = word s dir sp v)
    (hpages : ∀ n ∈ H.allPages, sp.Heap s n → sp.bit s n = true → sp.Heap s' n ∧ sp.bit s' n = true) :
    HeapAt s' dir' sp D H where
  wf := h.wf
  words := by
    obtain ⟨cnt, hr, hcount⟩ := h.words
    refine ⟨cnt, hr.zone h.wf.toPlaced fun v hv => ?_, hcount⟩
    by_cases haligned : v.toNat % 4 = 0
    · exact (hkeep v hv (h.mounted.2 v hv haligned)).2
    · rw [word_unaligned haligned, word_unaligned haligned]
  mounted := ⟨h.mounted.1, fun v hv haligned => (hkeep v hv (h.mounted.2 v hv haligned)).1⟩
  pages n hn := by
    obtain ⟨hfirst, hheap, hbit⟩ := h.pages n hn
    exact ⟨hfirst, hpages n hn hheap hbit⟩

theorem HeapAt.dataPage (h : Spaces s dir) (hh : HeapAt s dir s.space D H) (hn : n ∈ H.allPages) :
    DataPage s dir n := by
  obtain ⟨-, hheap, -⟩ := hh.pages n hn
  have hlt := hheap.lt h.toLayout
  have hnat : (BitVec.ofNat 32 (n * 4096)).toNat = n * 4096 := by
    rw [BitVec.toNat_ofNat]
    omega
  have hpage : vpage (BitVec.ofNat 32 (n * 4096)) = n := by
    rw [vpage, hnat]
    omega
  have hacc := hh.mounted.2 (BitVec.ofNat 32 (n * 4096)) (.inr (by rw [hpage]; exact hn)) (by omega)
  have hdata := hacc.dataPage h (by rw [hpage]; exact hheap)
  rw [hpage] at hdata
  exact hdata

/-- Writes of the running thread that leave a heap. -/
theorem HeapAt.wrote {W : Word → Word} {cnt : Word → Nat} (h : Spaces s dir) (hw : Wrote s s' dir W)
    (hwf : HeapWf D H)
    (hr : HeapRepr W D H cnt) (hcount : Counts H cnt) (hm : Mounted s dir s.space D H)
    (hpages : ∀ n ∈ H.allPages, s.space.first ≤ n ∧ s.space.Heap s n ∧ s.space.bit s n = true) :
    HeapAt s' dir s.space D H where
  wf := hwf
  words := by
    refine ⟨cnt, ?_, hcount⟩
    have hview := hw.view
    rw [hw.pokes.space] at hview
    rw [hview]
    exact hr
  mounted := ⟨hm.1, fun v hv haligned => hw.pokes.access h s.space_exists (hm.2 v hv haligned)⟩
  pages n hn := by
    obtain ⟨hfirst, hheap, hbit⟩ := hpages n hn
    refine ⟨hfirst, (hw.pokes.valid (.page s.space n)).2 hheap, ?_⟩
    rw [hw.pokes.bit]
    exact hbit

/-- The pages that stay mapped have their frames, and nothing new is cached. -/
structure SameFrames (s s' : Memory) (dir dir' : Space → Nat) : Prop where
  frame : ∀ sp n f g, sp.Exists s → sp.Heap s n → mapped s.mem (dir sp) n = some f →
    mapped s'.mem (dir' sp) n = some g → f = g
  tlb : ∀ n f, s'.tlb n = some f → s.tlb n = some f

theorem Keeps.frames {dir' : Space → Nat} (hk : Keeps s s' dir dir') (htlb : s'.tlb = s.tlb) :
    SameFrames s s' dir dir' where
  frame sp n f g _ hn hf hg := Option.some.inj ((hk.frame (.page sp n) f hn hf).symm.trans hg)
  tlb n f hf := by
    rw [← htlb]
    exact hf

theorem Malloced.frames {done : Bool} (hm : Malloced s s' dir v n done) : SameFrames s s' dir dir :=
  hm.kept.frames hm.tables_same.2.2.2.1

/-- What a call leaves around the heap of the running thread. -/
structure Around (s s' : Memory) (dir : Space → Nat) (P : Space → Word → Prop) : Prop where
  spaces : Spaces s' dir
  shape : SameShape s s'
  bits : ∀ sp n, sp ≠ s.space → Space.bit s' sp n = Space.bit s sp n
  holder : s'.holder = s.holder
  keeps : KeepsWords s s' dir P
  frames : SameFrames s s' dir dir

/-- What a call of the running thread does to its heap. -/
structure HeapStep (s s' : Memory) (dir : Space → Nat) (D : Word) (H H' : Arenas) (live : List Alloc) : Prop where
  pages : PageStep s s' dir (fun n => n ∈ H.allPages ∧ n ∉ H'.allPages) fun n => n ∈ H'.allPages ∧ n ∉ H.allPages
  holder : s'.holder = s.holder
  heap : HeapAt s' dir s.space D H'
  keeps : KeepsWords s s' dir fun sp v => home sp v = home s.space v → Spared D H live v
  fresh : ∀ n ∈ H'.allPages, n ∉ H.allPages → s.space.bit s n = false

/-- Nobody has seen the new pages before. -/
theorem HeapStep.unseen {live : List Alloc} (hstep : HeapStep s s' dir D H H' live) (h : Spaces s dir)
    (hv : Access s dir sp v) (hhome : home sp v = home s.space v) (hpage : vpage v ∈ H'.allPages) :
    vpage v ∈ H.allPages := by
  by_contra hnew
  have hheap := hstep.pages.shape.heap_iff.1 (hstep.heap.pages _ hpage).2.1
  obtain ⟨a, ha, -⟩ := hv.reach
  obtain ⟨f, hf, -⟩ := place_eq_some.1 ha
  rw [hhome, home_of_heap hheap, h.clear _ _ hheap (hstep.fresh _ hpage hnew)] at hf
  cases hf

theorem HeapStep.frames {live : List Alloc} (h : HeapStep s s' dir D H H' live) : SameFrames s s' dir dir where
  frame sp n f g _ hn hf hg := by
    by_cases he : sp = s.space
    · subst he
      have hin : n ∈ H'.allPages ∧ n ∉ H.allPages ∨ (∃ f, mapped s.mem (dir s.space) n = some f) ∧
          ¬(n ∈ H.allPages ∧ n ∉ H'.allPages) := (h.pages.frame n hn).1 ⟨g, hg⟩
      have hkept := h.pages.kept n f hn (by tauto) hf
      exact Option.some.inj (hkept.symm.trans hg)
    · rw [h.pages.frames sp n he hn, hf] at hg
      exact Option.some.inj hg
  tlb := h.pages.tlb

theorem HeapStep.around {live : List Alloc} (h : HeapStep s s' dir D H H' live) :
    Around s s' dir fun sp v => home sp v = home s.space v → Spared D H live v :=
  ⟨h.pages.spaces, h.pages.shape, h.pages.bits, h.holder, h.keeps, h.frames⟩

/-- Two steps, of which the second takes and gives back no page. -/
theorem HeapStep.trans {H₁ : Arenas} {live live₁ : List Alloc} (h : HeapStep s s₁ dir D H H₁ live)
    (h' : HeapStep s₁ s' dir D H₁ H' live₁) (hsame : ∀ n, n ∈ H'.allPages ↔ n ∈ H₁.allPages)
    (hspared : ∀ sp v, Access s dir sp v → home sp v = home s.space v → Spared D H live v → Spared D H₁ live₁ v) :
    HeapStep s s' dir D H H' live where
  pages := by
    refine (h.pages.trans h'.pages).congr (fun n => ?_) fun n => ?_
    · rw [hsame]
      tauto
    · rw [hsame]
      tauto
  holder := h'.holder.trans h.holder
  heap := by
    have hheap := h'.heap
    rw [h.pages.shape.space] at hheap
    exact hheap
  keeps := by
    intro sp v hv hsp hacc
    obtain ⟨hacc₁, hword₁⟩ := h.keeps sp v hv hsp hacc
    have hv₁ : home sp v = home s₁.space v → Spared D H₁ live₁ v := by
      intro hhome
      rw [h.pages.shape.space] at hhome
      exact hspared sp v hacc hhome (hv hhome)
    obtain ⟨hacc₂, hword₂⟩ := h'.keeps sp v hv₁ ((h.pages.shape.exists_iff sp).2 hsp) hacc₁
    exact ⟨hacc₂, hword₂.trans hword₁⟩
  fresh n hn := h.fresh n ((hsame n).1 hn)

/-- The lock of a pool is taken. -/
def Memory.locked (s : Memory) (pf : PoolFlags) : Memory := { s with holder := update s.holder pf (some s.cur) }

theorem lockAcquire_free (hfree : s.holder pf = none) : lockAcquire pf s = .ok (s.locked pf) := by
  rw [lockAcquire, hfree]
  rfl

theorem sameTables_holder (s : Memory) (holder : PoolFlags → Option Tid) : SameTables s { s with holder := holder } :=
  ⟨rfl, rfl, rfl, rfl, rfl, fun _ => rfl, rfl, rfl, fun _ => rfl, fun _ => rfl⟩

theorem Spaces.withHolder (h : Spaces s dir) (holder : PoolFlags → Option Tid) :
    Spaces { s with holder := holder } dir :=
  (sameTables_holder s holder).spaces h (h.toTables.withHolder holder)

theorem bit_holder (holder : PoolFlags → Option Tid) (sp : Space) (n : Nat) :
    sp.bit { s with holder := holder } n = sp.bit s n := by
  cases sp <;> rfl

theorem HeapAt.withHolder (h : HeapAt s dir sp D H) (holder : PoolFlags → Option Tid) :
    HeapAt { s with holder := holder } dir sp D H := by
  have hs := sameTables_holder s holder
  refine h.kept (fun v _ hacc => ⟨hs.access hacc, hs.word⟩) fun n _ hheap hbit => ⟨hs.heap_iff.2 hheap, ?_⟩
  rw [bit_holder]
  exact hbit

theorem holder_pageStep (h : Spaces s dir) (holder : PoolFlags → Option Tid) :
    PageStep s { s with holder := holder } dir (fun _ => False) fun _ => False :=
  (sameTables_holder s holder).pageStep (h.withHolder holder) (bit_holder holder) rfl

theorem lockRelease_held (hfree : s.holder pf = none) (hholder : s₁.holder = (s.locked pf).holder)
    (hcur : s₁.cur = s.cur) :
    lockRelease pf s₁ = .ok { s₁ with holder := s.holder } := by
  have hset : s₁.holder pf = some s₁.cur := by
    rw [hholder, hcur]
    exact update_self _ _ _
  have hback : update s₁.holder pf none = s.holder := by
    rw [hholder]
    change update (update s.holder pf (some s.cur)) pf none = s.holder
    rw [update_idem, ← hfree, update_eq_self]
  rw [lockRelease, massert_bind (by simpa using hset), hback]
  rfl

/-- A call with the lock taken before and released after it. -/
theorem HeapStep.unlock {live : List Alloc} (h : Spaces s dir) (hfree : s.holder pf = none)
    (hstep : HeapStep (s.locked pf) s₁ dir D H H' live) :
    ∃ s', lockRelease pf s₁ = .ok s' ∧ HeapStep s s' dir D H H' live ∧ ∀ sp v,
      word s' dir sp v = word s₁ dir sp v := by
  have hspace : (s.locked pf).space = s.space := rfl
  have hlock := holder_pageStep h (s.locked pf).holder
  have hback := holder_pageStep hstep.pages.spaces s.holder
  refine ⟨_, lockRelease_held hfree hstep.holder hstep.pages.shape.cur, ⟨?_, rfl, ?_, ?_, fun n hn hno => ?_⟩,
    fun sp v => ?_⟩
  · refine ((hlock.trans hstep.pages).trans hback).congr (fun n => ?_) fun n => ?_ <;> simp
  · exact hstep.heap.withHolder s.holder
  · refine KeepsWords.trans ?_ (KeepsWords.trans hstep.keeps ?_ hstep.pages.shape) hlock.shape
    · exact (sameTables_holder s _).keeps.mono fun _ _ _ => trivial
    · exact (sameTables_holder s₁ _).keeps.mono fun _ _ _ => trivial
  · have hbit := hstep.fresh n hn hno
    rw [← bit_holder (s.locked pf).holder]
    exact hbit
  · exact (sameTables_holder s₁ s.holder).word

theorem Around.unlock {P : Space → Word → Prop} (h : Spaces s dir) (hfree : s.holder pf = none)
    (haround : Around (s.locked pf) s₁ dir P) (hheap : HeapAt s₁ dir sp D H) :
    ∃ s', lockRelease pf s₁ = .ok s' ∧ Around s s' dir P ∧ HeapAt s' dir sp D H := by
  have hlock := holder_pageStep h (s.locked pf).holder
  have hback := holder_pageStep haround.spaces s.holder
  refine ⟨_, lockRelease_held hfree haround.holder haround.shape.cur,
    ⟨hback.spaces, ?_, fun sp n hne => ?_, rfl, ?_, ⟨haround.frames.frame, haround.frames.tlb⟩⟩,
    hheap.withHolder s.holder⟩
  · exact (hlock.shape.trans haround.shape).trans hback.shape
  · rw [bit_holder, haround.bits sp n hne]
    exact bit_holder _ sp n
  · refine KeepsWords.trans ?_ (KeepsWords.trans haround.keeps ?_ haround.shape) hlock.shape
    · exact (sameTables_holder s _).keeps.mono fun _ _ _ => trivial
    · exact (sameTables_holder s₁ _).keeps.mono fun _ _ _ => trivial

theorem threadPool_eq (s : Memory) : s.threadPool = s.space.flag := by
  unfold Memory.threadPool Memory.space
  by_cases hp : s.IsProcess s.cur
  · rw [if_pos hp, if_neg (show ¬(s.task s.cur).pageDir = 0 from hp)]
    rfl
  · rw [if_neg hp, if_pos (show (s.task s.cur).pageDir = 0 from not_not.1 hp)]
    rfl

end HoloOS
