import HoloOS.MemoryWindow

/-! Who uses which page frame. Every frame taken from a pool is the page table behind one directory
entry or is mapped at one page of one address space. `Tables` states this for the kernel's directory
and those of the processes, and `pageTableAdd` on a fresh frame keeps it, as does taking one page out
again. -/

namespace HoloOS

open Function Paging

namespace Pool

/-- Where the frames of the pool end. -/
def stop (pool : Pool) : Nat := pool.paddrStart.toNat + pool.poolBitmap.size * 8 * 4096

/-- The frame at `a` belongs to the pool, and its bit is `val`. -/
def Marked (pool : Pool) (val : Bool) (a : Nat) : Prop :=
  ∃ i < pool.poolBitmap.size * 8, a = pool.paddrStart.toNat + i * 4096 ∧
    bitmapTest pool.poolBitmap i = val

/-- A frame that is taken. -/
abbrev Used (pool : Pool) (a : Nat) : Prop := pool.Marked true a

/-- A frame that is left. -/
abbrev Free (pool : Pool) (a : Nat) : Prop := pool.Marked false a

/-- The pool with bit `i` set to `val`. -/
def setBit (pool : Pool) (i : Nat) (val : Bool) : Pool :=
  { pool with poolBitmap := bitmapSet pool.poolBitmap i val }

variable {pool : Pool} {a : Nat} {val : Bool}

theorem Marked.bounds (h : pool.Marked val a) : pool.paddrStart.toNat ≤ a ∧ a + 4096 ≤ pool.stop := by
  obtain ⟨i, hi, rfl, -⟩ := h
  unfold stop
  omega

theorem Used.not_free (h : pool.Used a) : ¬pool.Free a := by
  rintro ⟨j, -, hj, hbit⟩
  obtain ⟨i, -, hi, hbit'⟩ := h
  obtain rfl : i = j := by omega
  rw [hbit] at hbit'
  cases hbit'

theorem marked_setBit {i : Nat} (hi : i < pool.poolBitmap.size * 8) :
    (pool.setBit i val).Marked val (pool.paddrStart.toNat + i * 4096) :=
  ⟨i, hi, rfl, by simp [setBit, bitmapTest_bitmapSet]⟩

theorem Marked.setBit (h : pool.Marked val a) {i : Nat} {val' : Bool}
    (hne : val = val' ∨ a ≠ pool.paddrStart.toNat + i * 4096) : (pool.setBit i val').Marked val a := by
  obtain ⟨j, hj, rfl, hbit⟩ := h
  refine ⟨j, hj, rfl, ?_⟩
  rw [Pool.setBit, bitmapTest_bitmapSet]
  by_cases he : j = i
  · rw [if_pos he]
    rcases hne with h | h
    · exact h.symm
    · exact absurd (by rw [he]) h
  · rw [if_neg he]
    exact hbit

theorem marked_setBit_iff {i : Nat} {val' : Bool} (hne : a ≠ pool.paddrStart.toNat + i * 4096) :
    (pool.setBit i val').Marked val a ↔ pool.Marked val a := by
  refine ⟨?_, fun h => h.setBit (Or.inr hne)⟩
  rintro ⟨j, hj, rfl, hbit⟩
  refine ⟨j, hj, rfl, ?_⟩
  have hji : j ≠ i := fun e => hne (by rw [e]; rfl)
  rwa [Pool.setBit, bitmapTest_bitmapSet, if_neg hji] at hbit

/-- Taking a frame frees none. -/
theorem free_of_setBit {i : Nat} (hi : i < pool.poolBitmap.size * 8)
    (h : (pool.setBit i true).Free a) : pool.Free a := by
  by_cases hne : a = pool.paddrStart.toNat + i * 4096
  · rw [hne] at h
    exact absurd h (Used.not_free (marked_setBit hi))
  · exact (marked_setBit_iff hne).1 h

/-- How many frames are left. -/
def freeCount (pool : Pool) : Nat :=
  (List.range (pool.poolBitmap.size * 8)).countP fun i => !bitmapTest pool.poolBitmap i

theorem freeCount_pos : 0 < pool.freeCount ↔ ∃ a, pool.Free a := by
  rw [freeCount, List.countP_pos_iff]
  constructor
  · rintro ⟨i, hi, hclear⟩
    exact ⟨_, i, List.mem_range.1 hi, rfl, by simpa using hclear⟩
  · rintro ⟨a, i, hi, -, hclear⟩
    exact ⟨i, List.mem_range.2 hi, by simpa using hclear⟩

/-- One index less satisfies the predicate. -/
theorem countP_range_of_ne {p q : Nat → Bool} {i : Nat} (hp : p i = false) (hq : q i = true)
    (hsame : ∀ j, j ≠ i → p j = q j) (N : Nat) :
    (List.range N).countP p + (if i < N then 1 else 0) = (List.range N).countP q := by
  induction N with
  | zero => rfl
  | succ N ih =>
      rw [List.range_succ, List.countP_append, List.countP_append, List.countP_singleton,
        List.countP_singleton]
      by_cases he : N = i
      · subst he
        rw [if_neg (Nat.lt_irrefl N)] at ih
        rw [if_pos (Nat.lt_succ_self N), hp, hq, if_neg Bool.false_ne_true, if_pos rfl]
        omega
      · rw [hsame N he]
        have hiff : i < N + 1 ↔ i < N := by omega
        simp only [hiff]
        omega

theorem freeCount_take {i : Nat} (hi : i < pool.poolBitmap.size * 8)
    (hclear : bitmapTest pool.poolBitmap i = false) :
    (pool.setBit i true).freeCount + 1 = pool.freeCount := by
  have hcount := countP_range_of_ne (p := fun j => !bitmapTest (pool.setBit i true).poolBitmap j)
    (q := fun j => !bitmapTest pool.poolBitmap j) (i := i) (by simp [setBit, bitmapTest_bitmapSet])
    (by simp [hclear]) (fun j hj => by simp [setBit, bitmapTest_bitmapSet, hj]) (pool.poolBitmap.size * 8)
  rw [if_pos hi] at hcount
  exact hcount

end Pool

/-- `palloc` returns the first free frame. -/
theorem palloc_some {pool pool' : Pool} {w : Word} (hfit : pool.stop ≤ 2 ^ 32)
    (h : palloc pool = (some w, pool')) : ∃ i < pool.poolBitmap.size * 8,
      bitmapTest pool.poolBitmap i = false ∧ w.toNat = pool.paddrStart.toNat + i * 4096 ∧
      pool' = pool.setBit i true := by
  unfold palloc at h
  cases hscan : bitmapScan pool.poolBitmap 1 with
  | none => rw [hscan] at h; cases h
  | some i =>
      rw [hscan] at h
      cases h
      obtain ⟨⟨hfits, hclear⟩, -⟩ := bitmapScan_some (by omega) hscan
      refine ⟨i, by omega, hclear i (by omega) (by omega), ?_, rfl⟩
      unfold Pool.stop at hfit
      rw [BitVec.toNat_add, BitVec.toNat_ofNat]
      omega

theorem palloc_none {pool pool' : Pool} (h : palloc pool = (none, pool')) :
    pool' = pool ∧ ∀ i < pool.poolBitmap.size * 8, bitmapTest pool.poolBitmap i = true := by
  unfold palloc at h
  cases hscan : bitmapScan pool.poolBitmap 1 with
  | some i => rw [hscan] at h; cases h
  | none =>
      rw [hscan] at h
      cases h
      refine ⟨rfl, fun i hi => ?_⟩
      by_contra hbit
      refine (bitmapScan_none (by omega) hscan i) ⟨by omega, fun j hj hlt => ?_⟩
      obtain rfl : j = i := by omega
      simpa using hbit

/-- `palloc` fails exactly when no frame is free. -/
theorem palloc_eq_none_iff {pool : Pool} : (palloc pool).1 = none ↔ ∀ a, ¬pool.Free a := by
  constructor
  · intro h a
    have hnone : palloc pool = (none, (palloc pool).2) := by rw [← h]
    obtain ⟨-, hset⟩ := palloc_none hnone
    rintro ⟨i, hi, -, hbit⟩
    rw [hset i hi] at hbit
    cases hbit
  · intro h
    unfold palloc
    cases hscan : bitmapScan pool.poolBitmap 1 with
    | none => rfl
    | some i =>
        obtain ⟨⟨hfits, hclear⟩, -⟩ := bitmapScan_some (by omega) hscan
        exact absurd ⟨i, by omega, rfl, hclear i (by omega) (by omega)⟩ (h _)

/-- The address space of the kernel threads, and one for each process. -/
inductive Space where
  | kernel
  | process (t : Tid)
  deriving DecidableEq

namespace Memory

/-- A thread with a page directory of its own. -/
def IsProcess (s : Memory) (t : Tid) : Prop := (s.task t).pageDir ≠ 0

instance (s : Memory) (t : Tid) : Decidable (s.IsProcess t) :=
  inferInstanceAs (Decidable (_ ≠ _))

/-- The address space of the running thread. -/
def space (s : Memory) : Space := if s.IsProcess s.cur then .process s.cur else .kernel

end Memory

/-- The physical address of the kernel's page directory, and of the page table behind the first
4 MB of kernel space. -/
def kernelDir : Nat := 0x100000
def firstTable : Nat := 0x101000

namespace Space

def Exists (s : Memory) : Space → Prop
  | kernel => True
  | process t => s.IsProcess t

/-- The pool that the pages of a space come from. -/
def flag : Space → PoolFlags
  | kernel => .kernel
  | process _ => .user

/-- The virtual addresses of a space. -/
def vaddr (s : Memory) : Space → VirtualAddr
  | kernel => s.kernelVaddr
  | process t => (s.task t).userVaddr

/-- The first page of the range that the bitmap covers. -/
def first : Space → Nat
  | kernel => 0xc0100
  | process _ => 0x8048

/-- The pages that a space may map: those of the bitmap, and the lower ones of a process. -/
def Heap (s : Memory) : Space → Nat → Prop
  | kernel, n => 0xc0100 ≤ n ∧ n < 0xc0100 + s.kernelVaddr.vaddrBitmap.size * 8
  | process t, n => s.IsProcess t ∧ n < 0xc0000

/-- The bit of a page. -/
def bit (s : Memory) (sp : Space) (n : Nat) : Bool :=
  decide (sp.first ≤ n) && bitmapTest (sp.vaddr s).vaddrBitmap (n - sp.first)

/-- The directory entries behind which the pages of a space have tables of their own. -/
def Own (s : Memory) : Space → Nat → Prop
  | kernel, i => 769 ≤ i ∧ i < 1023
  | process t, i => s.IsProcess t ∧ i < 768

/-- The directory entries behind which pages of the space lie. -/
def Region (s : Memory) (sp : Space) (i : Nat) : Prop := sp.Own s i ∨ (sp = kernel ∧ i = 768)

end Space

/-- What a frame of a pool is used for. -/
inductive Owner where
  | table (sp : Space) (i : Nat)
  | page (sp : Space) (n : Nat)
  deriving DecidableEq

namespace Owner

def frame (m : Mem) (dir : Space → Nat) : Owner → Option Nat
  | table sp i => entry m (dir sp) i
  | page sp n => mapped m (dir sp) n

@[simp] theorem frame_table (m : Mem) (dir : Space → Nat) (sp : Space) (i : Nat) :
    (table sp i).frame m dir = entry m (dir sp) i := rfl

@[simp] theorem frame_page (m : Mem) (dir : Space → Nat) (sp : Space) (n : Nat) :
    (page sp n).frame m dir = mapped m (dir sp) n := rfl

def Valid (s : Memory) : Owner → Prop
  | table sp i => sp.Own s i
  | page sp n => sp.Heap s n

def flag : Owner → PoolFlags
  | table _ _ => .kernel
  | page sp _ => sp.flag

end Owner

/-- What stays as `memPoolInit` and `createUserVaddrBitmap` set it up. -/
structure Layout (s : Memory) : Prop where
  kstart : s.kernelPool.paddrStart.toNat = 0x200000
  kfit : s.kernelPool.stop ≤ s.userPool.paddrStart.toNat
  ualigned : s.userPool.paddrStart.toNat % 4096 = 0
  ufit : s.userPool.stop ≤ 2 ^ 32
  vstart : s.kernelVaddr.vaddrStart = 0xc0100000
  vfit : s.kernelVaddr.vaddrBitmap.size * 8 ≤ 0x8000
  user : ∀ t, s.IsProcess t → (s.task t).userVaddr.vaddrStart = 0x8048000 ∧
    (s.task t).userVaddr.vaddrBitmap.size = 94199

/-- The page tables of all address spaces; `dir` says where their directories are. -/
structure Tables (s : Memory) (dir : Space → Nat) : Prop extends Layout s where
  dir_kernel : dir .kernel = kernelDir
  first : entry s.mem kernelDir 768 = some firstTable
  self : ∀ sp, Space.Exists s sp → entry s.mem (dir sp) 1023 = some (dir sp)
  dir_heap : ∀ t, s.IsProcess t → Space.kernel.Heap s (vpage (s.task t).pageDir) ∧
    mapped s.mem kernelDir (vpage (s.task t).pageDir) = some (dir (.process t))
  dir_inj : ∀ t u, s.IsProcess t → s.IsProcess u →
    vpage (s.task t).pageDir = vpage (s.task u).pageDir → t = u
  shared : ∀ t i, s.IsProcess t → 768 ≤ i → i < 1023 →
    entry s.mem (dir (.process t)) i = none ∨
      entry s.mem (dir (.process t)) i = entry s.mem kernelDir i
  used : ∀ o f, Owner.Valid s o → o.frame s.mem dir = some f → (s.pool o.flag).Used f
  inj : ∀ o o' f, Owner.Valid s o → Owner.Valid s o' → o.frame s.mem dir = some f →
    o'.frame s.mem dir = some f → o = o'
  clear : ∀ sp n, Space.Heap s sp n → Space.bit s sp n = false → mapped s.mem (dir sp) n = none
  cr3 : s.cr3 = dir s.space

variable {s : Memory} {dir : Space → Nat} {sp sp' : Space} {i i' n f : Nat}

theorem Space.Own.exists (h : sp.Own s i) : sp.Exists s := by
  cases sp with
  | kernel => trivial
  | process t => exact h.1

theorem Space.Heap.exists (h : sp.Heap s n) : sp.Exists s := by
  cases sp with
  | kernel => trivial
  | process t => exact h.1

theorem Space.Region.exists (h : sp.Region s i) : sp.Exists s := by
  rcases h with h | ⟨rfl, -⟩
  · exact h.exists
  · trivial

theorem Space.Region.lt (h : sp.Region s i) : i < 1023 := by
  rcases h with h | ⟨-, rfl⟩
  · cases sp with
    | kernel => exact h.2
    | process t => exact Nat.lt_trans h.2 (by decide)
  · decide

/-- The page lies behind a directory entry of its space. -/
theorem Layout.region (h : Layout s) (hn : sp.Heap s n) : sp.Region s (n / 1024) := by
  cases sp with
  | kernel =>
      have hfit := h.vfit
      obtain ⟨hle, hlt⟩ := hn
      by_cases he : n / 1024 = 768
      · exact Or.inr ⟨rfl, he⟩
      · exact Or.inl ⟨by omega, by omega⟩
  | process t => exact Or.inl ⟨hn.1, by have := hn.2; omega⟩

namespace Tables

theorem frame_bounds (h : Tables s dir) {pf : PoolFlags} {val : Bool} (hf : (s.pool pf).Marked val f) :
    f % 4096 = 0 ∧ 0x200000 ≤ f ∧ f + 4096 ≤ 2 ^ 32 := by
  obtain ⟨k, hk, rfl, -⟩ := id hf
  obtain ⟨hlow, hhigh⟩ := hf.bounds
  have hkstart := h.kstart
  have hkfit := h.kfit
  have hufit := h.ufit
  have hualigned := h.ualigned
  unfold Pool.stop at *
  cases pf with
  | kernel =>
      simp only [Memory.pool] at hlow hhigh ⊢
      omega
  | user =>
      simp only [Memory.pool] at hlow hhigh ⊢
      omega

theorem owner_bounds (h : Tables s dir) {o : Owner} (ho : o.Valid s)
    (hf : o.frame s.mem dir = some f) : f % 4096 = 0 ∧ 0x200000 ≤ f ∧ f + 4096 ≤ 2 ^ 32 :=
  h.frame_bounds (h.used o f ho hf)

/-- A process's directory is a page of the kernel heap. -/
theorem dir_page (h : Tables s dir) {t : Tid} (ht : s.IsProcess t) :
    (Owner.page .kernel (vpage (s.task t).pageDir)).Valid s ∧
      (Owner.page .kernel (vpage (s.task t).pageDir)).frame s.mem dir = some (dir (.process t)) := by
  obtain ⟨hheap, hmapped⟩ := h.dir_heap t ht
  refine ⟨hheap, ?_⟩
  rw [Owner.frame, h.dir_kernel]
  exact hmapped

theorem dir_mod (h : Tables s dir) (hsp : sp.Exists s) : dir sp % 4096 = 0 := by
  cases sp with
  | kernel => rw [h.dir_kernel]; rfl
  | process t =>
      obtain ⟨hvalid, hframe⟩ := h.dir_page hsp
      exact (h.owner_bounds hvalid hframe).1

theorem dir_injective (h : Tables s dir) (hsp : sp.Exists s) (hsp' : sp'.Exists s)
    (he : dir sp = dir sp') : sp = sp' := by
  have hlow : ∀ t, s.IsProcess t → dir .kernel ≠ dir (.process t) := by
    intro t ht he
    obtain ⟨hvalid, hframe⟩ := h.dir_page ht
    have hbounds := h.owner_bounds hvalid hframe
    rw [← he, h.dir_kernel, kernelDir] at hbounds
    omega
  cases sp with
  | kernel =>
      cases sp' with
      | kernel => rfl
      | process u => exact absurd he (hlow u hsp')
  | process t =>
      cases sp' with
      | kernel => exact absurd he.symm (hlow t hsp)
      | process u =>
          obtain ⟨hvalid, hframe⟩ := h.dir_page hsp
          obtain ⟨hvalid', hframe'⟩ := h.dir_page hsp'
          rw [he] at hframe
          have hpage := h.inj _ _ _ hvalid hvalid' hframe hframe'
          rw [h.dir_inj t u hsp hsp' (Owner.page.inj hpage).2]

/-- A page table is where its owner says, or the first one. -/
theorem table_cases (h : Tables s dir) (hreg : sp.Region s i)
    (htable : entry s.mem (dir sp) i = some f) :
    (sp.Own s i ∧ (Owner.table sp i).frame s.mem dir = some f) ∨
      (sp = .kernel ∧ i = 768 ∧ f = firstTable) := by
  rcases hreg with hown | ⟨rfl, rfl⟩
  · exact Or.inl ⟨hown, htable⟩
  · rw [h.dir_kernel, h.first] at htable
    exact Or.inr ⟨rfl, rfl, (Option.some.inj htable).symm⟩

theorem table_mod (h : Tables s dir) (hreg : sp.Region s i)
    (htable : entry s.mem (dir sp) i = some f) : f % 4096 = 0 := by
  rcases h.table_cases hreg htable with ⟨hown, hframe⟩ | ⟨-, -, rfl⟩
  · exact (h.owner_bounds (o := .table sp i) hown hframe).1
  · rfl

theorem dir_ne_table (h : Tables s dir) (hsp : sp'.Exists s) (hreg : sp.Region s i)
    (htable : entry s.mem (dir sp) i = some f) : dir sp' ≠ f := by
  intro he
  rcases h.table_cases hreg htable with ⟨hown, hframe⟩ | ⟨-, -, rfl⟩
  · have hbounds := h.owner_bounds (o := .table sp i) hown hframe
    cases sp' with
    | kernel =>
        rw [← he, h.dir_kernel, kernelDir] at hbounds
        omega
    | process t =>
        obtain ⟨hvalid, hdir⟩ := h.dir_page hsp
        rw [he] at hdir
        cases h.inj _ _ _ hvalid (show (Owner.table sp i).Valid s from hown) hdir hframe
  · cases sp' with
    | kernel =>
        rw [h.dir_kernel] at he
        exact absurd he (by decide)
    | process t =>
        obtain ⟨hvalid, hdir⟩ := h.dir_page hsp
        have hbounds := h.owner_bounds hvalid hdir
        rw [he, firstTable] at hbounds
        omega

theorem table_injective (h : Tables s dir) (hreg : sp.Region s i) (hreg' : sp'.Region s i')
    (htable : entry s.mem (dir sp) i = some f) (htable' : entry s.mem (dir sp') i' = some f) :
    sp = sp' ∧ i = i' := by
  rcases h.table_cases hreg htable with ⟨hown, hframe⟩ | ⟨rfl, rfl, rfl⟩
  · rcases h.table_cases hreg' htable' with ⟨hown', hframe'⟩ | ⟨-, -, rfl⟩
    · exact Owner.table.inj (h.inj _ _ _ hown hown' hframe hframe')
    · have hbounds := h.owner_bounds (o := .table sp i) hown hframe
      rw [firstTable] at hbounds
      omega
  · rcases h.table_cases hreg' htable' with ⟨hown', hframe'⟩ | ⟨rfl, rfl, -⟩
    · have hbounds := h.owner_bounds (o := .table sp' i') hown' hframe'
      rw [firstTable] at hbounds
      omega
    · exact ⟨rfl, rfl⟩

/-- Every other page has its table elsewhere or its entry elsewhere in the table. -/
theorem table_apart (h : Tables s dir) {sp sp' : Space} {n n' T T' : Nat} (hn : sp.Heap s n)
    (hn' : sp'.Heap s n') (hne : ¬(sp' = sp ∧ n' = n)) (hT : entry s.mem (dir sp) (n / 1024) = some T)
    (hT' : entry s.mem (dir sp') (n' / 1024) = some T') : T' ≠ T ∨ n' % 1024 ≠ n % 1024 := by
  by_contra hboth
  simp only [not_or, not_not] at hboth
  obtain ⟨rfl, hmod⟩ := hboth
  obtain ⟨hsp, hi⟩ := h.table_injective (h.region hn') (h.region hn) hT' hT
  exact hne ⟨hsp, by omega⟩

/-- A free frame is used for nothing. -/
theorem free_ne (h : Tables s dir) {pf : PoolFlags} (hfree : (s.pool pf).Free f) {o : Owner}
    (ho : o.Valid s) : o.frame s.mem dir ≠ some f := by
  intro hframe
  have hused := h.used o f ho hframe
  have hk := h.kfit
  cases pf with
  | kernel =>
      cases hflag : o.flag with
      | kernel =>
          rw [hflag] at hused
          exact hused.not_free hfree
      | user =>
          rw [hflag] at hused
          have hlow := hused.bounds.1
          have hhigh := hfree.bounds.2
          simp only [Memory.pool] at hlow hhigh
          omega
  | user =>
      cases hflag : o.flag with
      | user =>
          rw [hflag] at hused
          exact hused.not_free hfree
      | kernel =>
          rw [hflag] at hused
          have hhigh := hused.bounds.2
          have hlow := hfree.bounds.1
          simp only [Memory.pool] at hlow hhigh
          omega

end Tables

/-- A frame of a pool that is used for nothing. -/
structure Fresh (s : Memory) (dir : Space → Nat) (f : Nat) : Prop where
  aligned : f % 4096 = 0
  low : 0x200000 ≤ f
  unused : ∀ o, Owner.Valid s o → o.frame s.mem dir ≠ some f

namespace Tables

theorem fresh (h : Tables s dir) {pf : PoolFlags} (hfree : (s.pool pf).Free f) : Fresh s dir f :=
  ⟨(h.frame_bounds hfree).1, (h.frame_bounds hfree).2.1, fun _ ho => h.free_ne hfree ho⟩

theorem fresh_ne_dir (h : Tables s dir) (hf : Fresh s dir f) (hsp : sp.Exists s) : dir sp ≠ f := by
  rintro rfl
  cases sp with
  | kernel =>
      have hlow := hf.low
      rw [h.dir_kernel, kernelDir] at hlow
      omega
  | process t =>
      obtain ⟨hvalid, hframe⟩ := h.dir_page hsp
      exact hf.unused _ hvalid hframe

theorem fresh_ne_table (h : Tables s dir) (hf : Fresh s dir f) (hreg : sp.Region s i) {T : Nat}
    (hT : entry s.mem (dir sp) i = some T) : T ≠ f := by
  rintro rfl
  rcases h.table_cases hreg hT with ⟨hown, hframe⟩ | ⟨-, -, rfl⟩
  · exact hf.unused (.table sp i) hown hframe
  · have hlow := hf.low
    rw [firstTable] at hlow
    omega

/-- The page table of a page of `sp`. -/
structure At (s : Memory) (dir : Space → Nat) (sp : Space) (n T : Nat) : Prop where
  heap : sp.Heap s n
  table : entry s.mem (dir sp) (n / 1024) = some T

section Entry

variable {T : Nat} {w : Word}

theorem entry_dir_write (h : Tables s dir) (hat : At s dir sp n T) (hsp : sp'.Exists s) (hi : i < 1024) :
    entry (write s.mem (T + 4 * (n % 1024)) w) (dir sp') i = entry s.mem (dir sp') i := by
  have hreg := h.region hat.heap
  exact entry_write_of_ne w (h.dir_mod hsp) (h.table_mod hreg hat.table) hi (by omega)
    (Or.inl (h.dir_ne_table hsp hreg hat.table))

/-- Writing the entry of one page leaves every other page and table alone. -/
theorem frame_write (h : Tables s dir) (hat : At s dir sp n T) {o : Owner} (ho : o.Valid s)
    (hne : o ≠ .page sp n) :
    o.frame (write s.mem (T + 4 * (n % 1024)) w) dir = o.frame s.mem dir := by
  cases o with
  | table sp' i =>
      have hlt : i < 1023 := Space.Region.lt (Or.inl ho)
      exact h.entry_dir_write hat (Space.Own.exists ho) (by omega)
  | page sp' n' =>
      have hreg := h.region hat.heap
      have hreg' := h.region (show sp'.Heap s n' from ho)
      have hdir := h.entry_dir_write (w := w) hat hreg'.exists (Nat.lt_succ_of_lt hreg'.lt)
      rw [Owner.frame_page, Owner.frame_page, mapped, mapped, hdir]
      cases hT' : entry s.mem (dir sp') (n' / 1024) with
      | none => rfl
      | some T' =>
          have hapart := h.table_apart hat.heap ho (fun he => hne (by rw [he.1, he.2])) hat.table hT'
          exact entry_write_of_ne w (h.table_mod hreg' hT') (h.table_mod hreg hat.table) (by omega)
            (by omega) hapart

theorem mapped_write (h : Tables s dir) (hat : At s dir sp n T) :
    mapped (write s.mem (T + 4 * (n % 1024)) w) (dir sp) n =
      entry (write s.mem (T + 4 * (n % 1024)) w) T (n % 1024) := by
  have hreg := h.region hat.heap
  have hdir := h.entry_dir_write (w := w) hat hreg.exists (Nat.lt_succ_of_lt hreg.lt)
  rw [mapped, hdir, hat.table]
  rfl

/-- After the edit of one page's entry that leaves it unmapped or maps it to a fresh frame. -/
theorem edit (h : Tables s dir) (hat : At s dir sp n T) (kpool upool : Pool)
    (hlayout : Layout { s with kernelPool := kpool, userPool := upool })
    (hpage : ∀ f, mapped (write s.mem (T + 4 * (n % 1024)) w) (dir sp) n = some f →
      Fresh s dir f ∧ sp.bit s n = true ∧
        (Memory.pool { s with kernelPool := kpool, userPool := upool } sp.flag).Used f)
    (hpool : ∀ o f, Owner.Valid s o → o ≠ .page sp n → o.frame s.mem dir = some f →
      (Memory.pool { s with kernelPool := kpool, userPool := upool } o.flag).Used f)
    (hkeep : ∀ t, s.IsProcess t → Owner.page .kernel (vpage (s.task t).pageDir) ≠ .page sp n) :
    Tables { s with
      kernelPool := kpool
      userPool := upool
      mem := write s.mem (T + 4 * (n % 1024)) w } dir := by
  have hreg := h.region hat.heap
  have hdir : ∀ sp' : Space, sp'.Exists s → ∀ i < 1024,
      entry (write s.mem (T + 4 * (n % 1024)) w) (dir sp') i = entry s.mem (dir sp') i :=
    fun sp' hsp' i hi => h.entry_dir_write hat hsp' hi
  have hkernel : ∀ i < 1024,
      entry (write s.mem (T + 4 * (n % 1024)) w) kernelDir i = entry s.mem kernelDir i := by
    intro i hi
    rw [← h.dir_kernel]
    exact hdir .kernel trivial i hi
  have hframe : ∀ o f, Owner.Valid s o →
      o.frame (write s.mem (T + 4 * (n % 1024)) w) dir = some f →
        (o = .page sp n ∧ Fresh s dir f) ∨ (o ≠ .page sp n ∧ o.frame s.mem dir = some f) := by
    intro o f ho hf
    by_cases he : o = .page sp n
    · subst he
      exact Or.inl ⟨rfl, (hpage f hf).1⟩
    · rw [h.frame_write hat ho he] at hf
      exact Or.inr ⟨he, hf⟩
  refine { hlayout with
    dir_kernel := h.dir_kernel, first := (hkernel 768 (by decide)).trans h.first, dir_inj := h.dir_inj
    cr3 := h.cr3, self := ?_, dir_heap := ?_, shared := ?_, used := ?_, inj := ?_, clear := ?_ }
  · intro sp' hsp'
    exact (hdir sp' hsp' 1023 (by decide)).trans (h.self sp' hsp')
  · intro t ht
    obtain ⟨hvalid, hdirt⟩ := h.dir_page ht
    refine ⟨hvalid, ?_⟩
    rw [← h.frame_write (w := w) hat hvalid (hkeep t ht), Owner.frame, h.dir_kernel] at hdirt
    exact hdirt
  · intro t i ht hle hlt
    rw [hdir (.process t) ht i (by omega), hkernel i (by omega)]
    exact h.shared t i ht hle hlt
  · intro o f ho hf
    rcases hframe o f ho hf with ⟨rfl, -⟩ | ⟨hne, hf'⟩
    · exact (hpage f hf).2.2
    · exact hpool o f ho hne hf'
  · intro o o' f ho ho' hf hf'
    rcases hframe o f ho hf with ⟨rfl, hfresh⟩ | ⟨-, hold⟩
    · rcases hframe o' f ho' hf' with ⟨rfl, -⟩ | ⟨-, hold'⟩
      · rfl
      · exact absurd hold' (hfresh.unused o' ho')
    · rcases hframe o' f ho' hf' with ⟨rfl, hfresh⟩ | ⟨-, hold'⟩
      · exact absurd hold (hfresh.unused o ho)
      · exact h.inj o o' f ho ho' hold hold'
  · intro sp' n' hn' hbit
    by_cases he : Owner.page sp' n' = .page sp n
    · obtain ⟨rfl, rfl⟩ := Owner.page.inj he
      change mapped (write s.mem (T + 4 * (n' % 1024)) w) (dir sp') n' = none
      cases hf : mapped (write s.mem (T + 4 * (n' % 1024)) w) (dir sp') n' with
      | none => rfl
      | some f =>
          have hset := (hpage f hf).2.1
          have hbit' : sp'.bit s n' = false := hbit
          rw [hbit'] at hset
          cases hset
    · have hsame := h.frame_write (w := w) hat (o := .page sp' n') hn' he
      exact hsame.trans (h.clear sp' n' hn' hbit)

end Entry

end Tables

end HoloOS
