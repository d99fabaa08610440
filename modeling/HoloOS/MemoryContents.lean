import HoloOS.MemoryFree

/-! Writes to the contents of mapped pages. Page tables and directories lie in frames of their own, so
bytes written to other pages change no mapping; `memset` over a range of mapped pages is such a
write. -/

namespace HoloOS

open Function Paging

variable {s s₁ s' : Memory} {dir : Space → Nat} {pf : PoolFlags} {vaddr : Word} {m : Mem} {n lo hi : Nat}

/-- A frame that is mapped at a page and is not the directory of a process. -/
structure DataFrame (s : Memory) (dir : Space → Nat) (f : Nat) : Prop where
  page : ∃ sp n, Space.Heap s sp n ∧ mapped s.mem (dir sp) n = some f
  keep : ∀ t, s.IsProcess t → dir (.process t) ≠ f

/-- Only bytes in frames of data are written. -/
def Scribbled (s : Memory) (dir : Space → Nat) (m : Mem) : Prop :=
  ∀ b, m b ≠ s.mem b → ∃ f, DataFrame s dir f ∧ f ≤ b ∧ b < f + 4096

theorem Tables.dataFrame_mod (h : Tables s dir) {f : Nat} (hf : DataFrame s dir f) :
    f % 4096 = 0 ∧ 0x200000 ≤ f := by
  obtain ⟨⟨sp, n, hn, hmapped⟩, -⟩ := hf
  have hbounds := h.owner_bounds (o := .page sp n) hn hmapped
  exact ⟨hbounds.1, hbounds.2.1⟩

/-- A page that is no frame of data keeps its entries. -/
theorem Tables.entry_scribbled (h : Tables s dir) (hm : Scribbled s dir m) {base i : Nat}
    (hbase : base % 4096 = 0) (hi : i < 1024) (hno : ¬DataFrame s dir base) :
    entry m base i = entry s.mem base i := by
  apply entry_congr hi
  intro b hb hlt
  by_contra hne
  obtain ⟨f, hf, hfb, hbf⟩ := hm b hne
  have hmod := (h.dataFrame_mod hf).1
  have he : f = base := by omega
  rw [he] at hf
  exact hno hf

theorem Tables.dir_not_dataFrame (h : Tables s dir) {sp : Space} (hsp : sp.Exists s) :
    ¬DataFrame s dir (dir sp) := by
  intro hf
  cases sp with
  | kernel =>
      have hlow := (h.dataFrame_mod hf).2
      rw [h.dir_kernel, kernelDir] at hlow
      omega
  | process t => exact hf.keep t hsp rfl

theorem Tables.table_not_dataFrame (h : Tables s dir) {sp : Space} {i T : Nat} (hreg : sp.Region s i)
    (hT : entry s.mem (dir sp) i = some T) : ¬DataFrame s dir T := by
  intro hf
  obtain ⟨⟨sp', n', hn', hmapped⟩, -⟩ := id hf
  rcases h.table_cases hreg hT with ⟨hown, hframe⟩ | ⟨-, -, he⟩
  · have := h.inj (.page sp' n') (.table sp i) T hn' hown hmapped hframe
    cases this
  · have hlow := (h.dataFrame_mod hf).2
    rw [he, firstTable] at hlow
    omega

/-- Memory in which every directory entry and every frame is the same. -/
theorem Tables.congr_mem (h : Tables s dir)
    (hdir : ∀ sp : Space, sp.Exists s → ∀ i < 1024, entry m (dir sp) i = entry s.mem (dir sp) i)
    (hframe : ∀ o : Owner, o.Valid s → o.frame m dir = o.frame s.mem dir) : Tables { s with mem := m } dir := by
  have hkernel : ∀ i < 1024, entry m kernelDir i = entry s.mem kernelDir i := by
    intro i hi
    rw [← h.dir_kernel]
    exact hdir .kernel trivial i hi
  refine { h.toLayout with
    dir_kernel := h.dir_kernel, dir_inj := h.dir_inj, cr3 := h.cr3
    first := (hkernel 768 (by decide)).trans h.first, self := ?_, dir_heap := ?_, shared := ?_
    used := ?_, inj := ?_, clear := ?_ }
  · intro sp hsp
    exact (hdir sp hsp 1023 (by decide)).trans (h.self sp hsp)
  · intro t ht
    obtain ⟨hvalid, hdirt⟩ := h.dir_page ht
    refine ⟨hvalid, ?_⟩
    rw [← hframe _ hvalid, Owner.frame_page, h.dir_kernel] at hdirt
    exact hdirt
  · intro t i ht hle hlt
    change entry m (dir (.process t)) i = none ∨ entry m (dir (.process t)) i = entry m kernelDir i
    rw [hdir (.process t) ht i (by omega), hkernel i (by omega)]
    exact h.shared t i ht hle hlt
  · intro o f ho hf
    change o.frame m dir = some f at hf
    rw [hframe o ho] at hf
    exact h.used o f ho hf
  · intro o o' f ho ho' hf hf'
    change o.frame m dir = some f at hf
    change o'.frame m dir = some f at hf'
    rw [hframe o ho] at hf
    rw [hframe o' ho'] at hf'
    exact h.inj o o' f ho ho' hf hf'
  · intro sp n hn hbit
    exact (hframe (.page sp n) hn).trans (h.clear sp n hn hbit)

section Scribbled

variable (h : Tables s dir) (hm : Scribbled s dir m)
include h hm

theorem Tables.dir_scribbled {sp : Space} (hsp : sp.Exists s) {i : Nat} (hi : i < 1024) :
    entry m (dir sp) i = entry s.mem (dir sp) i :=
  h.entry_scribbled hm (h.dir_mod hsp) hi (h.dir_not_dataFrame hsp)

theorem Tables.frame_scribbled {o : Owner} (ho : o.Valid s) : o.frame m dir = o.frame s.mem dir := by
  cases o with
  | table sp i =>
      have hlt : i < 1023 := Space.Region.lt (Or.inl ho)
      exact h.dir_scribbled hm (Space.Own.exists ho) (by omega)
  | page sp n =>
      have hreg := h.region (show sp.Heap s n from ho)
      have hlt := hreg.lt
      rw [Owner.frame_page, Owner.frame_page, mapped, mapped,
        h.dir_scribbled hm hreg.exists (by omega : n / 1024 < 1024)]
      cases hT : entry s.mem (dir sp) (n / 1024) with
      | none => rfl
      | some T =>
          exact h.entry_scribbled hm (h.table_mod hreg hT) (Nat.mod_lt _ (by omega))
            (h.table_not_dataFrame hreg hT)

theorem Tables.scribbled : Tables { s with mem := m } dir :=
  h.congr_mem (fun _ hsp _ hi => h.dir_scribbled hm hsp hi) fun _ ho => h.frame_scribbled hm ho

end Scribbled

/-- What an allocation has done is not undone by writes to data. -/
theorem Grew.scribbled (hg : Grew s s' dir lo hi) (h' : Tables s' dir) (hm : Scribbled s' dir m) :
    Grew s { s' with mem := m } dir lo hi where
  same := by rw [hg.same]
  keeps := by
    intro o f ho hf
    change o.frame m dir = some f
    rw [h'.frame_scribbled hm ((hg.valid o).2 ho)]
    exact hg.keeps o f ho hf
  fresh := by
    intro o f ho hf
    change o.frame m dir = some f at hf
    rw [h'.frame_scribbled hm ((hg.valid o).2 ho)] at hf
    exact hg.fresh o f ho hf
  dirs := by
    intro sp i f hsp hi hf
    exact (h'.dir_scribbled hm ((hg.exists_iff sp).2 hsp) hi).trans (hg.dirs sp i f hsp hi hf)
  other := by
    intro sp i hsp hi hno
    exact (h'.dir_scribbled hm ((hg.exists_iff sp).2 hsp) hi).trans (hg.other sp i hsp hi hno)
  taken pf a ha := hg.taken pf a (by cases pf <;> exact ha)
  born := by
    intro o f ho hn hf
    change o.frame m dir = some f at hf
    rw [h'.frame_scribbled hm ((hg.valid o).2 ho)] at hf
    exact hg.born o f ho hn hf
  used pf a ha := by
    have hused := hg.used pf a ha
    cases pf <;> exact hused
  spent pf a ha := by
    rcases hg.spent pf a (by cases pf <;> exact ha) with hold | ⟨o, ho, hflag, hn, hf⟩
    · exact Or.inl hold
    · exact Or.inr ⟨o, ho, hflag, hn, (h'.frame_scribbled hm ((hg.valid o).2 ho)).trans hf⟩

/-- The pages from `vaddr` on hold data, and `m` is memory with `val` in all of their bytes. -/
structure Filled (s : Memory) (dir : Space → Nat) (val : BitVec 8) (lo n : Nat) (m : Mem) : Prop where
  inside : ∀ k < n, ∀ f, mapped s.mem (dir s.space) (lo + k) = some f → ∀ b, f ≤ b → b < f + 4096 →
    m b = val
  outside : ∀ b, (∀ k < n, ∀ f, mapped s.mem (dir s.space) (lo + k) = some f →
    b < f ∨ f + 4096 ≤ b) → m b = s.mem b

/-- A page of data in the running thread's space. -/
structure DataPage (s : Memory) (dir : Space → Nat) (n : Nat) : Prop where
  heap : s.space.Heap s n
  data : ∃ f, mapped s.mem (dir s.space) n = some f ∧ DataFrame s dir f

theorem Filled.scribbled {val : BitVec 8} (hfill : Filled s dir val lo n m)
    (hpage : ∀ k < n, DataPage s dir (lo + k)) : Scribbled s dir m := by
  intro b hne
  by_contra hno
  apply hne
  apply hfill.outside
  intro k hk f hf
  obtain ⟨g, hg, hdata⟩ := (hpage k hk).data
  rw [hf] at hg
  by_contra hin
  exact hno ⟨g, hdata, by rw [← Option.some.inj hg]; omega, by rw [← Option.some.inj hg]; omega⟩

theorem Tables.walk_page (h : Tables s dir) {f : Nat} (haligned : vaddr.toNat % 4096 = 0)
    (hf : mapped s.mem (dir s.space) (vpage vaddr) = some f) : s.phys vaddr = .ok f := by
  have hwalk : s.walk vaddr = some (f + vaddr.toNat % 4096) := walk_eq (by rw [h.cr3]; exact hf)
  rw [haligned, Nat.add_zero] at hwalk
  exact phys_eq hwalk

/-- The loop of `memset` over whole pages. -/
theorem Tables.memsetLoop (h : Tables s dir) (val : BitVec 8) (haligned : vaddr.toNat % 4096 = 0)
    (n fuel : Nat) (hfuel : n < fuel) (hpage : ∀ k < n, DataPage s dir (vpage vaddr + k)) :
    ∃ m, HoloOS.memsetLoop val fuel vaddr (n * 4096) s = .ok { s with mem := m } ∧
      Filled s dir val (vpage vaddr) n m := by
  induction n generalizing vaddr s fuel with
  | zero =>
      cases fuel with
      | zero => omega
      | succ fuel =>
          refine ⟨s.mem, by rw [Nat.zero_mul, HoloOS.memsetLoop, if_pos rfl], ?_, fun _ _ => rfl⟩
          exact fun k hk => absurd hk (Nat.not_lt_zero k)
  | succ n ih =>
      cases fuel with
      | zero => omega
      | succ fuel =>
          have hfirst : DataPage s dir (vpage vaddr) := hpage 0 (Nat.succ_pos n)
          obtain ⟨f, hf, hdata⟩ := hfirst.data
          set m₁ := fill s.mem f 4096 val with hm₁
          have hout : ∀ b, b < f ∨ f + 4096 ≤ b → m₁ b = s.mem b := by
            intro b hb
            rw [hm₁, fill, if_neg (by omega)]
          have hin : ∀ b, f ≤ b → b < f + 4096 → m₁ b = val := by
            intro b hb hlt
            rw [hm₁, fill, if_pos ⟨hb, hlt⟩]
          have hscribbled : Scribbled s dir m₁ := by
            intro b hne
            refine ⟨f, hdata, ?_, ?_⟩
            · by_contra hlt
              exact hne (hout b (Or.inl (by omega)))
            · by_contra hlt
              exact hne (hout b (Or.inr (by omega)))
          have h₁ := h.scribbled hscribbled
          have hnext : vpage (vaddr + 4096) = vpage vaddr + 1 := vpage_add (hfirst.heap.lt h.toLayout)
          have hsame : ∀ k < n + 1, mapped m₁ (dir s.space) (vpage vaddr + k) =
              mapped s.mem (dir s.space) (vpage vaddr + k) := by
            intro k hk
            exact h.frame_scribbled hscribbled (o := .page s.space (vpage vaddr + k)) (hpage k hk).heap
          have hpage₁ : ∀ k < n, DataPage { s with mem := m₁ } dir (vpage (vaddr + 4096) + k) := by
            intro k hk
            rw [hnext, Nat.add_assoc, Nat.add_comm 1 k]
            have hk' := hpage (k + 1) (by omega)
            obtain ⟨g, hg, ⟨⟨sp, j, hj, hmapped⟩, hkeep⟩⟩ := hk'.data
            refine ⟨hk'.heap, g, (hsame (k + 1) (by omega)).trans hg, ⟨sp, j, hj, ?_⟩, hkeep⟩
            exact (h.frame_scribbled hscribbled (o := .page sp j) hj).trans hmapped
          obtain ⟨m, hloop, hfill⟩ := ih h₁ (add_page_mod haligned) fuel (by omega) hpage₁
          rw [hnext] at hfill
          refine ⟨m, ?_, ?_, ?_⟩
          · have hsize : ¬(n + 1) * 4096 = 0 := by omega
            have hchunk : min ((n + 1) * 4096) (4096 - vaddr.toNat % 4096) = 4096 := by omega
            have hrest : (n + 1) * 4096 - 4096 = n * 4096 := by omega
            rw [HoloOS.memsetLoop, if_neg hsize]
            dsimp only
            rw [hchunk, h.walk_page haligned hf, ok_bind, hrest]
            exact hloop
          · intro k hk g hg b hb hlt
            by_cases hcover : ∃ j < n, ∃ g', mapped m₁ (dir s.space) (vpage vaddr + 1 + j) = some g' ∧
                g' ≤ b ∧ b < g' + 4096
            · obtain ⟨j, hj, g', hg', hle, hlt'⟩ := hcover
              exact hfill.inside j hj g' hg' b hle hlt'
            · have hkeep : m b = m₁ b := by
                apply hfill.outside
                intro j hj g' hg'
                by_contra hno
                exact hcover ⟨j, hj, g', hg', by omega, by omega⟩
              rw [hkeep]
              cases k with
              | zero =>
                  rw [Nat.add_zero] at hg
                  rw [hf] at hg
                  rw [← Option.some.inj hg] at hb hlt
                  exact hin b hb hlt
              | succ k =>
                  refine absurd ⟨k, by omega, g, ?_, hb, hlt⟩ hcover
                  rw [show vpage vaddr + 1 + k = vpage vaddr + (k + 1) by omega, hsame (k + 1) hk]
                  exact hg
          · intro b hno
            have hb := hno 0 (Nat.succ_pos n) f hf
            refine (hfill.outside b fun j hj g hg => ?_).trans (hout b hb)
            refine hno (j + 1) (by omega) g ?_
            rw [← hsame (j + 1) (by omega), show vpage vaddr + (j + 1) = vpage vaddr + 1 + j by omega]
            exact hg

/-- `memset` over whole pages. -/
theorem Tables.memset (h : Tables s dir) (val : BitVec 8) (haligned : vaddr.toNat % 4096 = 0)
    (hne : vaddr ≠ 0) (hpage : ∀ k < n, DataPage s dir (vpage vaddr + k)) :
    ∃ m, HoloOS.memset vaddr val (n * 4096) s = .ok { s with mem := m } ∧
      Filled s dir val (vpage vaddr) n m ∧ Scribbled s dir m := by
  obtain ⟨m, hloop, hfill⟩ := h.memsetLoop val haligned n (n * 4096 / 4096 + 2) (by omega) hpage
  refine ⟨m, ?_, hfill, hfill.scribbled hpage⟩
  rw [HoloOS.memset, massert_bind (decide_eq_true hne)]
  exact hloop

theorem Malloced.tables_same {v : Word} {done : Bool} (hm : Malloced s s' dir v n done) :
    s'.space = s.space ∧ s'.cur = s.cur ∧ s'.cr3 = s.cr3 ∧ s'.tlb = s.tlb ∧ s'.holder = s.holder ∧
      (∀ t, (s'.task t).pageDir = (s.task t).pageDir) := by
  obtain ⟨s₁, hr, hg⟩ := hm.reserved
  have hsame := hr.marks.same
  refine ⟨hg.space.trans hsame.space, ?_, ?_, ?_, ?_, ?_⟩
  · rw [hg.same]; exact hsame.cur
  · rw [hg.same]; exact hsame.cr3
  · rw [hg.same]; exact hr.marks.tlb
  · rw [hg.same]; exact hr.marks.holder
  · rw [hg.same]; exact hsame.pageDir

theorem Malloced.valid {v : Word} {done : Bool} (hm : Malloced s s' dir v n done) (o : Owner) :
    o.Valid s' ↔ o.Valid s := by
  obtain ⟨s₁, hr, hg⟩ := hm.reserved
  exact (hg.valid o).trans (hr.marks.same.valid_iff o)

theorem Malloced.exists_iff {v : Word} {done : Bool} (hm : Malloced s s' dir v n done) (sp : Space) :
    sp.Exists s' ↔ sp.Exists s := by
  obtain ⟨s₁, hr, hg⟩ := hm.reserved
  exact (hg.exists_iff sp).trans hr.marks.same.exists_iff

theorem Malloced.keeps {v : Word} {done : Bool} (hm : Malloced s s' dir v n done) {o : Owner} {f : Nat}
    (ho : o.Valid s) (hf : o.frame s.mem dir = some f) : o.frame s'.mem dir = some f := by
  obtain ⟨s₁, hr, hg⟩ := hm.reserved
  refine hg.keeps o f ((hr.marks.same.valid_iff o).2 ho) ?_
  rw [hr.marks.same.mem]
  exact hf

/-- The bits after an allocation. -/
theorem Malloced.bit {v : Word} {done : Bool} (hm : Malloced s s' dir v n done) (sp : Space) (k : Nat) :
    sp.bit s' k = if sp = s.space ∧ vpage v ≤ k ∧ k < vpage v + n then true else sp.bit s k := by
  obtain ⟨s₁, hr, hg⟩ := hm.reserved
  exact (hg.bit sp k).trans (hr.marks.bit sp k)

/-- The pages of a new range hold data. -/
theorem Malloced.dataPage {v : Word} (hm : Malloced s s' dir v n true) (h : Tables s dir)
    (h' : Tables s' dir) : ∀ k < n, DataPage s' dir (vpage v + k) := by
  obtain ⟨s₁, hr, hg⟩ := id hm.reserved
  obtain ⟨hspace, -, -, -, -, hpageDir⟩ := hm.tables_same
  intro k hk
  obtain ⟨f, hf⟩ := hm.mapped rfl k hk
  have hheap : s.space.Heap s' (vpage v + k) :=
    (hm.valid (.page s.space (vpage v + k))).2 (hr.heap k hk)
  refine ⟨by rw [hspace]; exact hheap, f, by rw [hspace]; exact hf, ⟨_, _, hheap, hf⟩, fun t ht he => ?_⟩
  have ht' : s.IsProcess t := by
    unfold Memory.IsProcess at ht ⊢
    rw [← hpageDir]
    exact ht
  obtain ⟨hvalid, hdirt⟩ := h.dir_page ht'
  have hdirt' := hm.keeps hvalid hdirt
  rw [he] at hdirt'
  have hpage := h'.inj _ (.page s.space (vpage v + k)) f ((hm.valid _).2 hvalid) hheap hdirt' hf
  rw [hpage, Owner.frame_page, h.clear _ _ (hr.heap k hk) (hr.clear k hk)] at hdirt
  cases hdirt

/-- What an allocation has done is not undone by writes to data. -/
theorem Malloced.scribbled {v : Word} {done : Bool} (hm : Malloced s s' dir v n done)
    (h' : Tables s' dir) (hscribbled : Scribbled s' dir m) :
    Malloced s { s' with mem := m } dir v n done := by
  obtain ⟨s₁, hr, hg⟩ := id hm.reserved
  refine ⟨⟨s₁, hr, hg.scribbled h' hscribbled⟩, fun hdone k hk => ?_, fun hdone a ha => ?_⟩
  · obtain ⟨f, hf⟩ := hm.mapped hdone k hk
    have hvalid : (Owner.page s.space (vpage v + k)).Valid s' := (hm.valid _).2 (hr.heap k hk)
    exact ⟨f, (h'.frame_scribbled hscribbled hvalid).trans hf⟩
  · refine hm.out hdone a ?_
    cases hflag : s.space.flag <;> rw [hflag] at ha <;> exact ha

theorem Reserved.ne_zero {v : Word} (hr : Reserved s s₁ v n) : v ≠ 0 := by
  intro he
  have hfirst := hr.first
  rw [he, show vpage 0 = 0 from rfl] at hfirst
  cases hsp : s.space with
  | kernel =>
      rw [hsp, Space.first] at hfirst
      omega
  | process t =>
      rw [hsp, Space.first] at hfirst
      omega

/-- All bytes of the pages from `lo` on are zero. -/
def Zeroed (s : Memory) (dir : Space → Nat) (lo n : Nat) : Prop :=
  ∀ k < n, ∀ f, mapped s.mem (dir s.space) (lo + k) = some f → ∀ b, f ≤ b → b < f + 4096 → s.mem b = 0

theorem Tables.getKernelPages (h : Tables s dir) (hsp : s.space = .kernel) (hn : 0 < n ∧ n < 3840)
    (hfits : MallocFits .kernel n s) :
    (bitmapScan s.kernelVaddr.vaddrBitmap n = none ∧ HoloOS.getKernelPages n s = .ok (none, s)) ∨
    (∃ v s', HoloOS.getKernelPages n s = .ok (none, s') ∧ Tables s' dir ∧ Malloced s s' dir v n false) ∨
    ∃ v s', HoloOS.getKernelPages n s = .ok (some v, s') ∧ Tables s' dir ∧ Malloced s s' dir v n true ∧
      Zeroed s' dir (vpage v) n := by
  have hpf : PoolFlags.kernel = s.space.flag := by rw [hsp]; rfl
  rcases h.mallocPage hpf hn hfits with ⟨-, -, ⟨hflag, -⟩, -⟩ | ⟨hscan, hcall⟩ | ⟨done, v, s', -, hcall, h', hm⟩
  · cases hflag
  · left
    refine ⟨hscan, ?_⟩
    rw [HoloOS.getKernelPages, hcall]
    rfl
  · right
    cases done with
    | false =>
        left
        refine ⟨v, s', ?_, h', hm⟩
        rw [HoloOS.getKernelPages, hcall]
        rfl
    | true =>
        right
        obtain ⟨s₁, hr, -⟩ := id hm.reserved
        have hdata := hm.dataPage h h'
        obtain ⟨m, hmemset, hfill, hscribbled⟩ := h'.memset 0 hr.aligned hr.ne_zero hdata
        have hm' := hm.scribbled h' hscribbled
        refine ⟨v, { s' with mem := m }, ?_, h'.scribbled hscribbled, hm', ?_⟩
        · rw [HoloOS.getKernelPages, hcall, ok_bind]
          change (HoloOS.memset v 0 (n * 4096) s' >>= fun s => pure (some v, s)) = _
          rw [hmemset]
          rfl
        · intro k hk f hf
          have hsame := h'.frame_scribbled hscribbled (o := .page s'.space (vpage v + k)) (hdata k hk).heap
          exact hfill.inside k hk f (hsame.symm.trans hf)

/-- Only bytes of data have been written. -/
structure Scribbles (s s' : Memory) (dir : Space → Nat) : Prop where
  same : s' = { s with mem := s'.mem }
  inside : Scribbled s dir s'.mem

theorem Scribbles.refl (s : Memory) (dir : Space → Nat) : Scribbles s s dir :=
  ⟨rfl, fun _ hne => absurd rfl hne⟩

theorem Scribbles.tables (hs : Scribbles s s' dir) (h : Tables s dir) : Tables s' dir := by
  rw [hs.same]
  exact h.scribbled hs.inside

theorem Scribbles.space (hs : Scribbles s s' dir) : s'.space = s.space := by
  rw [hs.same]
  rfl

theorem Scribbles.valid (hs : Scribbles s s' dir) (o : Owner) : o.Valid s' ↔ o.Valid s := by
  rw [hs.same]
  cases o with
  | table sp i => cases sp <;> exact Iff.rfl
  | page sp n => cases sp <;> exact Iff.rfl

theorem Scribbles.frame (hs : Scribbles s s' dir) (h : Tables s dir) {o : Owner} (ho : o.Valid s) :
    o.frame s'.mem dir = o.frame s.mem dir := h.frame_scribbled hs.inside ho

theorem Scribbles.dataFrame_iff (hs : Scribbles s s' dir) (h : Tables s dir) {f : Nat} :
    DataFrame s' dir f ↔ DataFrame s dir f := by
  have hproc : ∀ t, s'.IsProcess t ↔ s.IsProcess t := by
    intro t
    rw [hs.same]
    exact Iff.rfl
  constructor
  · rintro ⟨⟨sp, n, hn, hf⟩, hkeep⟩
    have hn' : (Owner.page sp n).Valid s := (hs.valid (.page sp n)).1 hn
    exact ⟨⟨sp, n, hn', (hs.frame h hn').symm.trans hf⟩, fun t ht => hkeep t ((hproc t).2 ht)⟩
  · rintro ⟨⟨sp, n, hn, hf⟩, hkeep⟩
    exact ⟨⟨sp, n, (hs.valid (.page sp n)).2 hn, (hs.frame h (o := .page sp n) hn).trans hf⟩,
      fun t ht => hkeep t ((hproc t).1 ht)⟩

theorem Scribbles.trans {s'' : Memory} (hs : Scribbles s s' dir) (hs' : Scribbles s' s'' dir)
    (h : Tables s dir) : Scribbles s s'' dir where
  same := by rw [hs'.same, hs.same]
  inside := by
    intro b hne
    by_cases hb : s''.mem b = s'.mem b
    · rw [hb] at hne
      exact hs.inside b hne
    · obtain ⟨f, hf, hin⟩ := hs'.inside b hb
      exact ⟨f, (hs.dataFrame_iff h).1 hf, hin⟩

theorem DataPage.scribbles {k : Nat} (hp : DataPage s dir k) (hs : Scribbles s s' dir) (h : Tables s dir) :
    DataPage s' dir k := by
  obtain ⟨f, hf, hdata⟩ := hp.data
  refine ⟨?_, f, ?_, (hs.dataFrame_iff h).2 hdata⟩
  · rw [hs.space]
    exact (hs.valid (.page s.space k)).2 hp.heap
  · rw [hs.space]
    exact (hs.frame h (o := .page s.space k) hp.heap).trans hf

/-- A store to a page of data. -/
theorem Tables.store (h : Tables s dir) (w : Word) (hfit : vaddr.toNat % 4096 ≤ 4092)
    (hpage : DataPage s dir (vpage vaddr)) :
    ∃ s', s.store vaddr w = .ok s' ∧ Scribbles s s' dir := by
  obtain ⟨f, hf, hdata⟩ := hpage.data
  have hwalk : s.walk vaddr = some (f + vaddr.toNat % 4096) := walk_eq (by rw [h.cr3]; exact hf)
  refine ⟨_, store_of_walk hfit hwalk w, rfl, fun b hne => ⟨f, hdata, ?_⟩⟩
  by_contra hout
  refine hne (if_neg ?_)
  omega

end HoloOS
