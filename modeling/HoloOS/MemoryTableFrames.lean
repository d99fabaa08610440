import HoloOS.MemoryCache

/-! The frames of page tables. `pageTableAdd` takes one from the kernel pool when a directory entry is
absent, and takes the result `NULL` for frame 0. As long as the pool has a frame left each table has one
of its own. -/

namespace HoloOS

open Function Paging

variable {a a' : Allocator} {s s₁ s' : Memory} {dir : Space → Nat} {pf : PoolFlags} {vaddr p : Word} {i n : Nat}

/-- The call `pageTableAdd(vaddr, p)` in `s`, while a thread is in an event of the allocator that began in
`a`. The earlier calls of the event found their tables. -/
inductive TableCall (a : Memory) : AllocEvent → Word → Word → Memory → Prop
  | mallocPage {pf : PoolFlags} {pgCnt k : Nat} {v p : Word} {s₁ s : Memory} {memPool : Pool}
      (hserves : a.Serves pf) (hcnt : 0 < pgCnt) (hget : vaddrGet pf pgCnt a = .ok (some v, s₁)) (hk : k < pgCnt)
      (hloop : mallocLoop pf k v s₁ = .ok (true, s)) (hbefore : LoopFits pf k v s₁)
      (hpalloc : palloc (s.pool pf) = (some p, memPool)) :
      TableCall a (.mallocPage pf pgCnt) (v + BitVec.ofNat 32 (k * 4096)) p (s.setPool pf memPool)
  | getPage {pf : PoolFlags} {vaddr p : Word} {memPool : Pool} (hserves : a.Serves pf)
      (haligned : vaddr.toNat % 4096 = 0) (hindex : a.space.first < vpage vaddr)
      (hfits : vpage vaddr < a.space.first + (a.vaddr pf).vaddrBitmap.size * 8)
      (hclear : a.space.bit a (vpage vaddr) = false) (hpalloc : palloc (a.pool pf) = (some p, memPool)) :
      TableCall a (.getPage pf vaddr) vaddr p
        (({ a with holder := update a.holder pf (some a.cur) }.setVaddrBitmap pf
          (bitmapSet (a.vaddr pf).vaddrBitmap ((vaddr - (a.vaddr pf).vaddrStart) / 4096).toNat true)).setPool
            pf memPool)

/-- A directory entry that the call makes present names a frame of the kernel pool that was free before and
is taken after. -/
def RealTable (vaddr p : Word) (s : Memory) : Prop :=
  ∀ s' i f, pageTableAdd vaddr p s = .ok s' → i < 1024 → entry s.mem s.cr3 i = none →
    entry s'.mem s.cr3 i = some f → s.kernelPool.Free f ∧ s'.kernelPool.Used f

theorem Tables.dir_pos (h : Tables s dir) {sp : Space} (hsp : sp.Exists s) : 0 < dir sp := by
  cases sp with
  | kernel =>
      rw [h.dir_kernel]
      decide
  | process t =>
      obtain ⟨hvalid, hframe⟩ := h.dir_page hsp
      have hbounds := h.owner_bounds hvalid hframe
      omega

/-- Without a frame, frame 0 becomes the page table. -/
theorem Tables.null_table (h : Tables s dir) (hn : s.space.Heap s (vpage vaddr))
    (hnone : entry s.mem (dir s.space) (vpage vaddr / 1024) = none) (hout : (HoloOS.palloc s.kernelPool).1 = none) :
    ∃ s', HoloOS.pageTableAdd vaddr p s = .ok s' ∧
      entry s'.mem (dir s.space) (vpage vaddr / 1024) = some 0 := by
  have hreg := (h.region hn).lt
  have hd := h.dir_mod s.space_exists
  have hpos := h.dir_pos s.space_exists
  have hpalloc : HoloOS.palloc s.kernelPool = (none, (HoloOS.palloc s.kernelPool).2) := by rw [← hout]
  refine ⟨_, pageTableAdd_new h.windowed p (f := 0) hnone (Nat.ne_of_lt hreg) hpalloc rfl rfl (Nat.ne_of_lt hpos), ?_⟩
  have hpde : entry (write s.mem (dir s.space + 4 * (vpage vaddr / 1024)) (0 ||| 7#32)) (dir s.space)
      (vpage vaddr / 1024) = some 0 := entry_write_self 0 rfl
  change entry (withTable s.mem (dir s.space) 0 (vpage vaddr) _ _) _ _ = _
  rw [withTable, entry_write_of_ne _ hd rfl (by omega) (by omega) (Or.inl (Nat.ne_of_gt hpos)),
    entry_fill_of_ne hd rfl (by omega) (Nat.ne_of_gt hpos)]
  exact hpde

/-- A page table is real exactly when it exists or the pool has a frame left. -/
theorem Tables.realTable_iff (h : Tables s dir) (hpf : pf = s.space.flag) (hmap : Mappable s dir (vpage vaddr))
    {memPool : Pool} (hpalloc : HoloOS.palloc (s.pool pf) = (some p, memPool)) :
    RealTable vaddr p (s.setPool pf memPool) ↔ TableFits vaddr (s.setPool pf memPool) := by
  obtain ⟨h₁, hfresh, hused, hfree, kpool, upool, hstate, hmono⟩ := h.palloc hpalloc
  rw [hstate] at h₁ hfresh hused ⊢
  set s₁ : Memory := { s with kernelPool := kpool, userPool := upool } with hs₁
  have hused₁ : (s₁.pool s₁.space.flag).Used p.toNat := by
    rw [← show pf = s₁.space.flag from hpf]
    exact hused
  constructor
  · intro hreal pde hload
    rw [h₁.windowed.load_pde vaddr] at hload
    cases hload
    by_contra hno
    obtain ⟨habsent, hout⟩ := not_or.1 hno
    have hnone := entry_of_present (Bool.eq_false_iff.2 habsent)
    obtain ⟨s', hadd, hzero⟩ := h₁.null_table (p := p) hmap.heap hnone (not_not.1 hout)
    have hreg := (h₁.region hmap.heap).lt
    obtain ⟨⟨k, -, hk, -⟩, -⟩ := hreal s' (vpage vaddr / 1024) 0 hadd (by omega)
      (by rw [h₁.cr3]; exact hnone) (by rw [h₁.cr3]; exact hzero)
    have hstart := h₁.kstart
    omega
  · intro hfits s' i f hadd hi hnone hsome
    obtain ⟨s₂, hadd', -, hadded⟩ := h₁.pageTableAdd hmap.heap hmap.bit hmap.unmapped hfresh hused₁
      (fun hnone => h₁.free_of_fits hfits hnone)
    rw [hadd] at hadd'
    cases hadd'
    rw [h₁.cr3] at hnone hsome
    by_cases he : i = vpage vaddr / 1024
    · subst he
      obtain ⟨k, hk, hclear, hpool, hmade⟩ := hadded.made hnone
      rw [hsome] at hmade
      cases hmade
      rw [hpool]
      exact ⟨⟨k, hk, rfl, hclear⟩, Pool.marked_setBit hk⟩
    · rw [hadded.dirs s₁.space i s₁.space_exists hi fun hor => he hor.2, hnone] at hsome
      cases hsome

theorem add_pages (vaddr : Word) (k : Nat) :
    vaddr + 4096 + BitVec.ofNat 32 (k * 4096) = vaddr + BitVec.ofNat 32 ((k + 1) * 4096) := by
  rw [Nat.add_mul, BitVec.ofNat_add, BitVec.add_assoc, BitVec.add_comm 4096]
  rfl

/-- The state in which the loop of `mallocPage` is after `k` of its pages. -/
theorem Tables.mallocLoop_reach (h : Tables s dir) (hpf : pf = s.space.flag) {k : Nat} (hk : k < n)
    (hmap : ∀ j < n, Mappable s dir (vpage vaddr + j)) (hbefore : LoopFits pf k vaddr s)
    (hloop : HoloOS.mallocLoop pf k vaddr s = .ok (true, s₁)) :
    Tables s₁ dir ∧ s₁.space = s.space ∧ Mappable s₁ dir (vpage (vaddr + BitVec.ofNat 32 (k * 4096))) := by
  induction k generalizing vaddr s n with
  | zero =>
      cases hloop
      have hfirst := hmap 0 hk
      rw [Nat.zero_mul, show vaddr + BitVec.ofNat 32 0 = vaddr from BitVec.add_zero vaddr]
      exact ⟨h, rfl, hfirst⟩
  | succ k ih =>
      obtain ⟨n, rfl⟩ := Nat.exists_eq_add_one_of_ne_zero (Nat.ne_of_gt (Nat.zero_lt_of_lt hk))
      cases hpalloc : HoloOS.palloc (s.pool pf) with
      | mk r memPool =>
      rw [HoloOS.mallocLoop, hpalloc] at hloop
      cases r with
      | none => cases hloop
      | some p =>
          obtain ⟨hfit, hrest⟩ := hbefore p memPool hpalloc
          obtain ⟨s₂, hadd, h₂, hspace, -, -, hmap₂, -⟩ := h.next hpf hmap hpalloc hfit
          dsimp only at hloop
          rw [hadd, ok_bind] at hloop
          obtain ⟨h₁, hspace₁, hpage⟩ := ih h₂ (by rw [hspace]; exact hpf) (Nat.lt_of_succ_lt_succ hk) hmap₂
            (hrest s₂ hadd) hloop
          rw [add_pages] at hpage
          exact ⟨h₁, hspace₁.trans hspace, hpage⟩

/-- Every call of `pageTableAdd` makes a real page table exactly when it needs none or the pool has a frame
left. -/
theorem Tables.tableCall (h : Tables s dir) {e : AllocEvent} (hcall : TableCall s e vaddr p s₁) :
    RealTable vaddr p s₁ ↔ TableFits vaddr s₁ := by
  cases hcall with
  | mallocPage hserves hcnt hget hk hloop hbefore hpalloc =>
      have hpf := serves_iff.1 hserves
      rcases h.vaddrGet hpf hcnt with ⟨-, hnone⟩ | ⟨w, s₂, hr, -, ⟨-, hsome⟩ | ⟨-, hpanic⟩⟩
      · rw [hnone] at hget
        cases hget
      · rw [hsome] at hget
        cases hget
        have hspace := hr.marks.same.space
        obtain ⟨h₃, hspace₃, hmap⟩ := (hr.marks.tables h).mallocLoop_reach (by rw [hspace]; exact hpf) hk
          (hr.mappable h) hbefore hloop
        exact h₃.realTable_iff (by rw [hspace₃, hspace]; exact hpf) hmap hpalloc
      · rw [hpanic] at hget
        cases hget
  | @getPage pf _ _ memPool hserves haligned hindex hfits hclear hpalloc =>
      have hpf := serves_iff.1 hserves
      have hheap := h.toLayout.heap_of_index hpf (Nat.le_of_lt hindex) hfits
      have hr := reserve_page hpf haligned (Nat.le_of_lt hindex) hheap hclear
      have hmap := hr.mappable h 0 Nat.one_pos
      have h₂ := (hr.marks.tables h).withHolder (update s.holder pf (some s.cur))
      rw [h.toLayout.page_index hpf (Nat.le_of_lt hindex)]
      have hstate : { s with holder := update s.holder pf (some s.cur) }.setVaddrBitmap pf
          (bitmapSet (s.vaddr pf).vaddrBitmap (vpage vaddr - s.space.first) true) =
          { s.setVaddrBitmap pf (bitmapSetRun (s.vaddr pf).vaddrBitmap (vpage vaddr - s.space.first) true 1)
            with holder := update s.holder pf (some s.cur) } := by
        cases pf <;> rfl
      rw [hstate]
      refine h₂.realTable_iff ?_ ⟨hmap.heap, hmap.bit, hmap.unmapped⟩ ?_
      · exact hpf.trans (congrArg Space.flag hr.marks.same.space.symm)
      · rw [← hpalloc, ← hr.marks.same.pool]
        cases pf <;> rfl

/-- The entries of the kernel's directory below kernel space name the table of the loader or none. -/
def LowEntries (m : Mem) : Prop := ∀ i < 768, ∀ f, entry m kernelDir i = some f → f = firstTable

/-- Two entries of a directory name one page table only if it is that of the loader. -/
def OwnTables (s : Memory) : Prop :=
  ∀ sp : Space, sp.Exists s → ∀ i j f, i < 1024 → j < 1024 → entry s.mem (s.directory sp) i = some f →
    entry s.mem (s.directory sp) j = some f → i = j ∨ f = firstTable

/-- What an entry of a directory names: a frame of its own, the loader's table, or the directory. -/
theorem Tables.entry_cases (h : Tables s dir) (hlow : LowEntries s.mem) {sp : Space} (hsp : sp.Exists s)
    {f : Nat} (hi : i < 1024) (hf : entry s.mem (dir sp) i = some f) :
    (∃ sp', sp'.Own s i ∧ (Owner.table sp' i).frame s.mem dir = some f) ∨ f = firstTable ∨
      (i = 1023 ∧ f = dir sp) := by
  by_cases hlast : i = 1023
  · subst hlast
    rw [h.self sp hsp] at hf
    exact Or.inr (Or.inr ⟨rfl, (Option.some.inj hf).symm⟩)
  by_cases hkernel : 768 ≤ i
  · have hshared := h.entry_kernel hsp hkernel (by omega) hf
    by_cases hfirst : i = 768
    · subst hfirst
      rw [h.dir_kernel, h.first] at hshared
      exact Or.inr (Or.inl (Option.some.inj hshared).symm)
    · exact Or.inl ⟨.kernel, ⟨by omega, by omega⟩, hshared⟩
  · cases sp with
    | kernel =>
        rw [h.dir_kernel] at hf
        exact Or.inr (Or.inl (hlow i (by omega) f hf))
    | process t => exact Or.inl ⟨.process t, ⟨hsp, by omega⟩, hf⟩

theorem Tables.ownTables (h : Tables s dir) (hlow : LowEntries s.mem) : OwnTables s := by
  intro sp hsp i j f hi hj hfi hfj
  rw [h.directory_eq hsp] at hfi hfj
  have hapart : ∀ sp' k, sp'.Own s k → (Owner.table sp' k).frame s.mem dir ≠ some (dir sp) := by
    intro sp' k hown hframe
    cases sp with
    | kernel =>
        have hbounds := h.owner_bounds (o := .table sp' k) hown hframe
        rw [h.dir_kernel, kernelDir] at hbounds
        omega
    | process t =>
        obtain ⟨hvalid, hpage⟩ := h.dir_page hsp
        exact Owner.noConfusion (h.inj _ _ _ (show (Owner.table sp' k).Valid s from hown) hvalid hframe hpage)
  rcases h.entry_cases hlow hsp hi hfi with ⟨sp₁, hown₁, hframe₁⟩ | hloader | ⟨rfl, rfl⟩
  · rcases h.entry_cases hlow hsp hj hfj with ⟨sp₂, hown₂, hframe₂⟩ | hloader | ⟨rfl, rfl⟩
    · exact Or.inl (Owner.table.inj (h.inj (.table sp₁ i) (.table sp₂ j) f hown₁ hown₂ hframe₁ hframe₂)).2
    · exact Or.inr hloader
    · exact absurd hframe₁ (hapart sp₁ i hown₁)
  · exact Or.inr hloader
  · rcases h.entry_cases hlow hsp hj hfj with ⟨sp₂, hown₂, hframe₂⟩ | hloader | ⟨rfl, -⟩
    · exact absurd hframe₂ (hapart sp₂ j hown₂)
    · exact Or.inr hloader
    · exact Or.inl rfl

theorem LowEntries.congr {m m' : Mem} (hlow : LowEntries m)
    (h : ∀ i < 768, entry m' kernelDir i = entry m kernelDir i) : LowEntries m' := by
  intro i hi f hf
  rw [h i hi] at hf
  exact hlow i hi f hf

theorem LowEntries.malloced (hlow : LowEntries s.mem) (h : Tables s dir) {v : Word} {done : Bool}
    (hm : Malloced s s' dir v n done) : LowEntries s'.mem := by
  refine hlow.congr fun i hi => hm.other_entry h (by omega) fun hkernel k hk => ?_
  obtain ⟨s₁, hr, -⟩ := hm.reserved
  have hheap := hr.heap k hk
  rw [hkernel] at hheap
  have hle := hheap.1
  omega

theorem LowEntries.scribbles (hlow : LowEntries s.mem) (h : Tables s dir) (hs : Scribbles s s' dir) :
    LowEntries s'.mem := by
  refine hlow.congr fun i hi => ?_
  have hsame := h.dir_scribbled hs.inside (show Space.kernel.Exists s from trivial) (show i < 1024 by omega)
  rw [h.dir_kernel] at hsame
  exact hsame

theorem LowEntries.step (hlow : LowEntries a.s.mem) (h : AllocInv a dir) {e : AllocEvent} (hfits : Fits e a.s)
    (hstep : AllocStep a e a') : LowEntries a'.s.mem := by
  cases hstep with
  | mallocPage hserves hcall =>
      rcases h.mallocPage_outcome hserves hfits hcall with ⟨-, rfl⟩ | ⟨done, w, -, -, hm⟩
      · exact hlow
      · exact hlow.malloced h.tables hm
  | mfreePage hlive hheld hspace hcall =>
      obtain ⟨s₁, s₂, hfree, hs, hm, -⟩ := h.mfreePage hlive hheld hspace
      rw [hfree] at hcall
      cases hcall
      refine hlow.congr fun i hi => ?_
      have hsame := hs.dirs .kernel i trivial (by omega)
      rw [h.tables.dir_kernel, ← hm.same.mem] at hsame
      exact hsame
  | getPage hserves haligned hindex hin hclear hcall =>
      rcases h.getPage_outcome hserves haligned hindex hin hclear hfits hcall with
        ⟨-, s₁, hr, rfl⟩ | ⟨-, -, hm⟩
      · exact hlow.congr fun i _ => by rw [← hr.marks.same.mem]
      · exact hlow.malloced h.tables hm
  | threadStart hkernel ht hcall =>
      obtain ⟨v, -, -, hm, -⟩ := h.newTask hkernel hfits ht hcall
      exact hlow.malloced h.tables hm
  | processExecute hkernel ht hpcb hbits hcall hdir =>
      obtain ⟨v, -, h₁, hm, -⟩ := h.newTask hkernel hfits.1 ht hpcb
      obtain ⟨f, s₃, -, hstages, -⟩ :=
        h.processExecute hkernel hfits.1 ht hpcb (hfits.2 _ _ hpcb) hbits hcall hdir
      have hlow₂ := (hlow.malloced h.tables hm).malloced h₁ hstages.bitmap
      have hlow₃ : LowEntries s₃.mem := by
        refine LowEntries.malloced ?_ hstages.cleared hstages.dirPage
        exact hlow₂
      refine LowEntries.scribbles ?_ hstages.adopted hstages.descs
      exact hlow₃
  | processActivate htask hcall =>
      rw [h.activated hcall]
      exact hlow
  | write hlive hheld hpage hcall => exact hlow.scribbles h.tables (h.write_scribbles hlive hheld hpage hcall)
  | access hpage => exact hlow

/-- In every run in which the kernel pool has a frame left whenever a page table is needed, the tables that
`pageTableAdd` makes are real, and no two entries of a directory name one of them. -/
theorem runs_realTable {m : Mem} (hm : Loaded m) {memCapacity : Word}
    (hrun : Runs (fun e b => Fits e b.s) (Allocator.start m memCapacity) a) :
    OwnTables a.s ∧ ∀ e vaddr p s, TableCall a.s e vaddr p s → (RealTable vaddr p s ↔ TableFits vaddr s) := by
  have hinv : ∃ dir, AllocInv a dir := runs_inv hm (fun _ _ hfits => hfits) hrun
  have hlow : LowEntries a.s.mem := by
    induction hrun with
    | refl =>
        intro i hi f hf
        by_cases hzero : i = 0
        · rw [hzero] at hf
          exact Option.some.inj (hf.symm.trans hm.zero)
        · have hnone := hm.bootPages.absent i (by omega) (by omega) (by omega)
          exact absurd (hf.symm.trans hnone) (Option.some_ne_none f)
    | tail hprev hstep ih =>
        obtain ⟨dir, h⟩ := runs_inv hm (fun _ _ hfits => hfits) hprev
        obtain ⟨e, hfits, hstep⟩ := hstep
        exact (ih ⟨dir, h⟩).step h hfits hstep
  obtain ⟨dir, h⟩ := hinv
  exact ⟨h.tables.ownTables hlow, fun e vaddr p s hcall => h.tables.tableCall hcall⟩

/-- A kernel thread has taken the first `i` pages of the heap, one after another, of `total` frames. -/
structure Packing (a : Allocator) (dir : Space → Nat) (total i : Nat) : Prop where
  inv : AllocInv a dir
  space : a.s.space = .kernel
  packed : Packed a.s i
  size : a.s.kernelVaddr.vaddrBitmap.size * 8 = total
  absent : ∀ j, 769 ≤ j → j < 1023 → (entry a.s.mem kernelDir j = none ↔ (0xc00ff + i) / 1024 < j)
  left : a.s.kernelPool.freeCount + i + ((0xc00ff + i) / 1024 - 768) = total

theorem start_packing {m : Mem} (hm : Loaded m) (memCapacity : Word) :
    Packing (Allocator.start m memCapacity) (fun _ => kernelDir) ((kernelFreePages memCapacity).toNat / 8 * 8) 0 where
  inv := start_inv hm memCapacity
  space := rfl
  packed := boot_packed m memCapacity
  size := by
    change (Memory.boot m memCapacity).kernelVaddr.vaddrBitmap.size * 8 = _
    rw [boot_vaddrSize]
  absent j hj hlt := by
    have hnone := hm.bootPages.absent j (by omega) (by omega) (by omega)
    exact ⟨fun _ => hj, fun _ => hnone⟩
  left := (boot_freeCount m memCapacity).1

/-- The frames that the next page takes. -/
theorem Packing.needed {total : Nat} (h : Packing a dir total i) (hi : i < 0x3fb00) :
    kernelNeeded .kernel a.s.mem kernelDir (0xc0100 + i) 1 =
      1 + ((0xc0100 + i) / 1024 - (0xc00ff + i) / 1024) := by
  have hcount : tableCount a.s.mem kernelDir (0xc0100 + i) 1 =
      if entry a.s.mem kernelDir ((0xc0100 + i) / 1024) = none then 1 else 0 := by
    unfold tableCount
    simp [List.range_succ, List.countP_cons]
  unfold kernelNeeded
  dsimp only
  rw [hcount]
  by_cases hfirst : (0xc0100 + i) / 1024 = 768
  · rw [hfirst, h.inv.tables.first, if_neg (Option.some_ne_none _)]
    omega
  · have hiff := h.absent ((0xc0100 + i) / 1024) (by omega) (by omega)
    split
    next hnone =>
      have := hiff.1 hnone
      omega
    next hsome =>
      have := mt hiff.2 hsome
      omega

theorem Packing.next {total : Nat} (h : Packing a dir total i) (hroom : i + 1 ≤ total) (htotal : total < 0x3fb00)
    (hleft : 2 ≤ a.s.kernelPool.freeCount) :
    ∃ a', AllocStep a (.mallocPage .kernel 1) a' ∧ Fits (.mallocPage .kernel 1) a.s ∧
      Packing a' dir total (i + 1) := by
  have hneed := h.needed (by omega)
  have hpf : PoolFlags.kernel = a.s.space.flag := by rw [h.space]; rfl
  obtain ⟨hfits, v, s', hv, hcall, h', hm, hpacked, hcount⟩ := h.inv.tables.mallocPage_packed h.space h.packed
    ⟨Nat.one_pos, by omega⟩ (by rw [h.size]; exact hroom) (by omega)
  have hinv := h.inv.malloced Nat.one_pos hm h'
  refine ⟨_, AllocStep.mallocPage (serves_iff.2 hpf) hcall, hfits, hinv, hm.tables_same.1.trans h.space, hpacked,
    by rw [hm.kernelSize, h.size], fun j hj hlt => ?_, ?_⟩
  · change entry s'.mem kernelDir j = none ↔ _
    by_cases he : j = (0xc0100 + i) / 1024
    · obtain ⟨f, hf⟩ := hm.mapped rfl 0 Nat.one_pos
      obtain ⟨table, htable, -⟩ := mapped_eq_some.1 hf
      rw [h.space, h.inv.tables.dir_kernel, hv, Nat.add_zero, ← he] at htable
      rw [htable]
      exact ⟨fun hnone => absurd hnone (Option.some_ne_none _), fun hlt => by omega⟩
    · rw [hm.other_entry h.inv.tables (by omega) fun _ k hk => by omega, h.absent j hj hlt]
      omega
  · change s'.kernelPool.freeCount + _ + _ = _
    have hold := h.left
    omega

/-- The pages that such a thread can take, one at a time. -/
theorem Packing.reach {m : Mem} (hm : Loaded m) {memCapacity : Word} {total : Nat}
    (htotal : (kernelFreePages memCapacity).toNat / 8 * 8 = total) (hsmall : total < 0x3fb00)
    (hfit : i + ((0xc00ff + i) / 1024 - 768) < total) :
    ∃ a dir, Runs (fun e b => Fits e b.s) (Allocator.start m memCapacity) a ∧ Packing a dir total i := by
  induction i with
  | zero => exact ⟨_, _, Relation.ReflTransGen.refl, htotal ▸ start_packing hm memCapacity⟩
  | succ i ih =>
      obtain ⟨a, dir, hrun, h⟩ := ih (by omega)
      have hleft := h.left
      obtain ⟨a', hstep, hfits, h'⟩ := h.next (by omega) hsmall (by omega)
      exact ⟨a', dir, hrun.tail ⟨_, hfits, hstep⟩, h'⟩

/-- The call of `pageTableAdd` for the next page. -/
theorem Packing.call {total : Nat} (h : Packing a dir total i) (hroom : i + 1 ≤ total)
    (hpos : 0 < a.s.kernelPool.freeCount) :
    ∃ vaddr p s, TableCall a.s (.mallocPage .kernel 1) vaddr p s ∧ Tables s dir ∧
      s.kernelPool.freeCount + 1 = a.s.kernelPool.freeCount ∧ vpage vaddr = 0xc0100 + i ∧ s.space = .kernel ∧
      s.mem = a.s.mem := by
  have hpf : PoolFlags.kernel = a.s.space.flag := by rw [h.space]; rfl
  have hscan : bitmapScan (a.s.vaddr .kernel).vaddrBitmap 1 = some i :=
    h.packed.scan Nat.one_pos (by rw [h.size]; exact hroom)
  rcases h.inv.tables.vaddrGet hpf Nat.one_pos with ⟨hnone, -⟩ | ⟨v, s₁, hr, hscanned, ⟨-, hget⟩ | ⟨hstack, -⟩⟩
  · rw [hscan] at hnone
    cases hnone
  · have hsame := hr.marks.same
    have hv := hscanned.page hr hscan
    rw [h.space, Space.first] at hv
    have h₁ := hr.marks.tables h.inv.tables
    obtain ⟨f, hf⟩ := Pool.freeCount_pos.1 (show 0 < s₁.kernelPool.freeCount by rw [hsame.kernelPool]; exact hpos)
    cases hpalloc : palloc (s₁.pool .kernel) with
    | mk r memPool =>
    cases r with
    | none =>
        exact absurd hf (palloc_eq_none_iff.1 (show (palloc (s₁.pool .kernel)).1 = none by rw [hpalloc]) f)
    | some p =>
        have hleft := h₁.palloc_count hpalloc .kernel
        rw [if_pos rfl, hsame.pool] at hleft
        have hcall := TableCall.mallocPage (k := 0) (serves_iff.2 hpf) Nat.one_pos hget Nat.one_pos rfl trivial
          hpalloc
        refine ⟨_, p, _, hcall, (h₁.palloc hpalloc).1, hleft, ?_, hsame.space.trans h.space, hsame.mem⟩
        change vpage (v + 0) = _
        rw [show v + 0 = v from BitVec.add_zero v, hv]
  · exact absurd hstack.1 (by decide)

/-- The first page behind a new directory entry, on a machine with 32 MB. -/
theorem runs_realTable_new : ∃ (a : Allocator) (vaddr p : Word) (s : Memory),
    TableCall a.s (.mallocPage .kernel 1) vaddr p s ∧ entry s.mem kernelDir (vpage vaddr / 1024) = none ∧
      RealTable vaddr p s := by
  have hm : Loaded (pageSetup fun _ => 0) := ⟨fun _ => 0, fun _ _ _ => rfl⟩
  have htotal : (kernelFreePages 0x2000000).toNat / 8 * 8 = 3840 := by decide
  obtain ⟨a, dir, hrun, h⟩ := Packing.reach (i := 768) hm htotal (by decide) (by decide)
  have hleft := h.left
  obtain ⟨vaddr, p, s, hcall, hs, hcount, hpage, -, hmem⟩ := h.call (by decide) (by omega)
  have hfits : TableFits vaddr s := by
    refine tableFits_of_count hs (Nat.le_trans (m := 1) ?_ (by omega))
    unfold tableNeed
    split <;> decide
  refine ⟨a, vaddr, p, s, hcall, ?_, ((runs_realTable hm hrun).2 _ _ _ _ hcall).2 hfits⟩
  rw [hpage, hmem]
  exact (h.absent 769 (by decide) (by decide)).2 (by decide)

/-- A kernel thread has taken 7936 pages of a machine with 64 MB and 64 KB, and asks for one more: the last
frame of the pool goes to the page, and none is left for its page table. -/
theorem mallocPage_null_table : ∃ (a : Allocator) (vaddr p : Word) (s : Memory),
    Runs (fun e b => Fits e b.s) (Allocator.start (pageSetup fun _ => 0) 0x4010000) a ∧
      TableCall a.s (.mallocPage .kernel 1) vaddr p s ∧ ¬RealTable vaddr p s := by
  have hm : Loaded (pageSetup fun _ => 0) := ⟨fun _ => 0, fun _ _ _ => rfl⟩
  have htotal : (kernelFreePages 0x4010000).toNat / 8 * 8 = 7944 := by decide
  obtain ⟨a, dir, hrun, h⟩ := Packing.reach (i := 7936) hm htotal (by decide) (by decide)
  have hleft := h.left
  obtain ⟨vaddr, p, s, hcall, hs, hcount, hpage, hspace, hmem⟩ := h.call (by decide) (by omega)
  refine ⟨a, vaddr, p, s, hrun, hcall, fun hreal => ?_⟩
  have hnone : entry s.mem (dir s.space) (vpage vaddr / 1024) = none := by
    rw [hpage, hspace, hmem, hs.dir_kernel]
    exact (h.absent 776 (by decide) (by decide)).2 (by decide)
  obtain ⟨f, hf⟩ := hs.free_of_fits ((h.inv.tables.tableCall hcall).1 hreal) hnone
  have hpos := Pool.freeCount_pos.2 ⟨f, hf⟩
  omega

end HoloOS
