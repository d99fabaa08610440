import HoloOS.MemoryFrames

/-! The steps of the allocator on `Tables`: taking a frame, making a page table of one, mapping a page
and unmapping it, setting and clearing bits of a bitmap. Each says what it does to the frames of all
owners. -/

namespace HoloOS

open Function Paging

namespace Tables

variable {s s' : Memory} {dir : Space → Nat} {sp sp' : Space} {i i' n f k : Nat}

/-- Memory in which the frame at `f` is a cleared page table. -/
def tableMem (m : Mem) (d i : Nat) (f : Word) : Mem := fill (write m (d + 4 * i) (f ||| 7#32)) f.toNat 4096 0

section NewTable

variable {f : Word}

theorem entry_dir_newTable (h : Tables s dir) (hown : sp.Own s i) (hf : Fresh s dir f.toNat)
    (hsp : sp'.Exists s) (hi' : i' < 1024) (hne : ¬(sp' = sp ∧ i' = i)) :
    entry (tableMem s.mem (dir sp) i f) (dir sp') i' = entry s.mem (dir sp') i' := by
  have hi : i < 1023 := Space.Region.lt (Or.inl hown)
  have hmod := h.dir_mod hown.exists
  have hmod' := h.dir_mod hsp
  have hapart : dir sp' ≠ dir sp ∨ i' ≠ i := by
    by_contra hboth
    simp only [not_or, not_not] at hboth
    exact hne ⟨h.dir_injective hsp hown.exists hboth.1, hboth.2⟩
  rw [tableMem, entry_fill_of_ne hmod' hf.aligned hi' (h.fresh_ne_dir hf hsp),
    entry_write_of_ne _ hmod' hmod hi' (by omega) hapart]

theorem entry_newTable_self (h : Tables s dir) (hown : sp.Own s i) (hf : Fresh s dir f.toNat) :
    entry (tableMem s.mem (dir sp) i f) (dir sp) i = some f.toNat := by
  have hi : i < 1023 := Space.Region.lt (Or.inl hown)
  rw [tableMem, entry_fill_of_ne (h.dir_mod hown.exists) hf.aligned (by omega)
    (h.fresh_ne_dir hf hown.exists)]
  exact entry_write_self f hf.aligned

/-- The pages behind a new table are unmapped, as they were without it. -/
theorem frame_newTable (h : Tables s dir) (hown : sp.Own s i) (hnone : entry s.mem (dir sp) i = none)
    (hf : Fresh s dir f.toNat) {o : Owner} (ho : o.Valid s) (hne : o ≠ .table sp i) :
    o.frame (tableMem s.mem (dir sp) i f) dir = o.frame s.mem dir := by
  have hi : i < 1023 := Space.Region.lt (Or.inl hown)
  cases o with
  | table sp' i' =>
      have hlt : i' < 1023 := Space.Region.lt (Or.inl ho)
      exact h.entry_dir_newTable hown hf (Space.Own.exists ho) (by omega)
        fun he => hne (by rw [he.1, he.2])
  | page sp' n' =>
      have hreg := h.region (show sp'.Heap s n' from ho)
      have hlt := hreg.lt
      rw [Owner.frame_page, Owner.frame_page, mapped, mapped]
      by_cases he : sp' = sp ∧ n' / 1024 = i
      · obtain ⟨rfl, rfl⟩ := he
        rw [h.entry_newTable_self hown hf, hnone]
        exact entry_fill_self (by omega)
      · rw [h.entry_dir_newTable hown hf hreg.exists (by omega) he]
        cases hT : entry s.mem (dir sp') (n' / 1024) with
        | none => rfl
        | some T =>
            have hmod := h.table_mod hreg hT
            change entry (tableMem s.mem (dir sp) i f) T (n' % 1024) = entry s.mem T (n' % 1024)
            rw [tableMem, entry_fill_of_ne hmod hf.aligned (by omega) (h.fresh_ne_table hf hreg hT),
              entry_write_of_ne _ hmod (h.dir_mod hown.exists) (by omega) (by omega)
                (Or.inl (h.dir_ne_table hown.exists hreg hT).symm)]

/-- A free frame becomes a page table. -/
theorem newTable (h : Tables s dir) (hown : sp.Own s i) (hnone : entry s.mem (dir sp) i = none)
    (hk : k < s.kernelPool.poolBitmap.size * 8) (hbit : bitmapTest s.kernelPool.poolBitmap k = false)
    (hfk : f.toNat = s.kernelPool.paddrStart.toNat + k * 4096) :
    Tables { s with
      kernelPool := s.kernelPool.setBit k true
      mem := tableMem s.mem (dir sp) i f } dir := by
  have hfree : (s.pool .kernel).Free f.toNat := ⟨k, hk, hfk, hbit⟩
  have hf := h.fresh hfree
  have hi : i < 1023 := Space.Region.lt (Or.inl hown)
  have hdir : ∀ sp' : Space, sp'.Exists s → ∀ i' < 1024, ¬(sp' = sp ∧ i' = i) →
      entry (tableMem s.mem (dir sp) i f) (dir sp') i' = entry s.mem (dir sp') i' :=
    fun sp' hsp' i' hi' hne => h.entry_dir_newTable hown hf hsp' hi' hne
  have hframe : ∀ o f', Owner.Valid s o → o.frame (tableMem s.mem (dir sp) i f) dir = some f' →
      (o = .table sp i ∧ f' = f.toNat) ∨ (o ≠ .table sp i ∧ o.frame s.mem dir = some f') := by
    intro o f' ho hf'
    by_cases he : o = .table sp i
    · subst he
      rw [Owner.frame_table, h.entry_newTable_self hown hf] at hf'
      exact Or.inl ⟨rfl, (Option.some.inj hf').symm⟩
    · rw [h.frame_newTable hown hnone hf ho he] at hf'
      exact Or.inr ⟨he, hf'⟩
  refine { h.toLayout with
    dir_kernel := h.dir_kernel, dir_inj := h.dir_inj, cr3 := h.cr3, first := ?_, self := ?_
    dir_heap := ?_, shared := ?_, used := ?_, inj := ?_, clear := ?_ }
  · have hsame := hdir .kernel trivial 768 (by decide) ?_
    · rw [h.dir_kernel] at hsame
      exact hsame.trans h.first
    · rintro ⟨rfl, rfl⟩
      exact absurd hown.1 (by decide)
  · intro sp' hsp'
    exact (hdir sp' hsp' 1023 (by decide) (fun he => by omega)).trans (h.self sp' hsp')
  · intro t ht
    obtain ⟨hvalid, hdirt⟩ := h.dir_page ht
    refine ⟨hvalid, ?_⟩
    rw [← h.frame_newTable hown hnone hf hvalid (by simp), Owner.frame_page, h.dir_kernel] at hdirt
    exact hdirt
  · intro t i' ht hle hlt
    have hown' : ¬(Space.process t = sp ∧ i' = i) := by
      rintro ⟨rfl, rfl⟩
      have := hown.2
      omega
    have hproc := hdir (.process t) ht i' (by omega) hown'
    change entry (tableMem s.mem (dir sp) i f) (dir (.process t)) i' = none ∨
      entry (tableMem s.mem (dir sp) i f) (dir (.process t)) i' =
        entry (tableMem s.mem (dir sp) i f) kernelDir i'
    rw [hproc]
    by_cases he : Space.kernel = sp ∧ i' = i
    · -- the kernel's entry is new, and a process has none there
      obtain ⟨rfl, rfl⟩ := he
      rw [h.dir_kernel] at hnone
      rcases h.shared t i' ht hle hlt with hn | hn
      · exact Or.inl hn
      · exact Or.inl (hn.trans hnone)
    · have hsame := hdir .kernel trivial i' (by omega) he
      rw [h.dir_kernel] at hsame
      rw [hsame]
      exact h.shared t i' ht hle hlt
  · intro o f' ho hf'
    rcases hframe o f' ho hf' with ⟨rfl, rfl⟩ | ⟨-, hold⟩
    · rw [hfk]
      exact Pool.marked_setBit hk
    · have hused := h.used o f' ho hold
      cases hflag : o.flag with
      | kernel =>
          rw [hflag] at hused
          exact Pool.Marked.setBit hused (Or.inl rfl)
      | user =>
          rw [hflag] at hused
          exact hused
  · intro o o' f' ho ho' hf₁ hf₂
    rcases hframe o f' ho hf₁ with ⟨rfl, rfl⟩ | ⟨-, hold⟩
    · rcases hframe o' _ ho' hf₂ with ⟨rfl, -⟩ | ⟨-, hold'⟩
      · rfl
      · exact absurd hold' (hf.unused o' ho')
    · rcases hframe o' f' ho' hf₂ with ⟨rfl, rfl⟩ | ⟨-, hold'⟩
      · exact absurd hold (hf.unused o ho)
      · exact h.inj o o' f' ho ho' hold hold'
  · intro sp' n' hn' hclear
    have hsame := h.frame_newTable hown hnone hf (o := .page sp' n') hn' (by simp)
    exact hsame.trans (h.clear sp' n' hn' hclear)

end NewTable

/-- Other bits in the pools, with every frame in use still taken. -/
theorem withPools (h : Tables s dir) (kpool upool : Pool)
    (hlayout : Layout { s with kernelPool := kpool, userPool := upool })
    (hused : ∀ o f, Owner.Valid s o → o.frame s.mem dir = some f →
      (Memory.pool { s with kernelPool := kpool, userPool := upool } o.flag).Used f) :
    Tables { s with kernelPool := kpool, userPool := upool } dir :=
  { hlayout with
    dir_kernel := h.dir_kernel, first := h.first, self := h.self, dir_heap := h.dir_heap
    dir_inj := h.dir_inj, shared := h.shared, used := hused, inj := h.inj, clear := h.clear, cr3 := h.cr3 }

/-- `palloc` takes a frame. -/
theorem take (h : Tables s dir) (pf : PoolFlags) (k : Nat) :
    Tables (s.setPool pf ((s.pool pf).setBit k true)) dir := by
  cases pf with
  | kernel =>
      refine h.withPools _ s.userPool { h.toLayout with } fun o f ho hf => ?_
      have hused := h.used o f ho hf
      cases hflag : o.flag with
      | kernel => rw [hflag] at hused; exact Pool.Marked.setBit hused (Or.inl rfl)
      | user => rw [hflag] at hused; exact hused
  | user =>
      refine h.withPools s.kernelPool _ { h.toLayout with } fun o f ho hf => ?_
      have hused := h.used o f ho hf
      cases hflag : o.flag with
      | kernel => rw [hflag] at hused; exact hused
      | user => rw [hflag] at hused; exact Pool.Marked.setBit hused (Or.inl rfl)

end Tables

/-- The states differ in the bits of the virtual bitmaps, in the cache and in the locks. -/
structure SameTables (s s' : Memory) : Prop where
  mem : s'.mem = s.mem
  cr3 : s'.cr3 = s.cr3
  cur : s'.cur = s.cur
  kernelPool : s'.kernelPool = s.kernelPool
  userPool : s'.userPool = s.userPool
  pageDir : ∀ t, (s'.task t).pageDir = (s.task t).pageDir
  kernelStart : s'.kernelVaddr.vaddrStart = s.kernelVaddr.vaddrStart
  kernelSize : s'.kernelVaddr.vaddrBitmap.size = s.kernelVaddr.vaddrBitmap.size
  userStart : ∀ t, (s'.task t).userVaddr.vaddrStart = (s.task t).userVaddr.vaddrStart
  userSize : ∀ t, (s'.task t).userVaddr.vaddrBitmap.size = (s.task t).userVaddr.vaddrBitmap.size

theorem sameTables_invlpg (s : Memory) (operand : Nat) : SameTables s (s.invlpg operand) :=
  ⟨rfl, rfl, rfl, rfl, rfl, fun _ => rfl, rfl, rfl, fun _ => rfl, fun _ => rfl⟩

namespace SameTables

variable {s s' : Memory} {sp : Space} {n : Nat}

theorem isProcess (h : SameTables s s') (t : Tid) : s'.IsProcess t ↔ s.IsProcess t := by
  unfold Memory.IsProcess
  rw [h.pageDir]

theorem space (h : SameTables s s') : s'.space = s.space := by
  unfold Memory.space
  rw [h.cur]
  by_cases hp : s.IsProcess s.cur
  · rw [if_pos hp, if_pos ((h.isProcess _).2 hp)]
  · rw [if_neg hp, if_neg fun he => hp ((h.isProcess _).1 he)]

theorem exists_iff (h : SameTables s s') : sp.Exists s' ↔ sp.Exists s := by
  cases sp with
  | kernel => exact Iff.rfl
  | process t => exact h.isProcess t

theorem heap_iff (h : SameTables s s') : sp.Heap s' n ↔ sp.Heap s n := by
  cases sp with
  | kernel => unfold Space.Heap; rw [h.kernelSize]
  | process t => exact and_congr_left fun _ => h.isProcess t

theorem valid_iff (h : SameTables s s') (o : Owner) : o.Valid s' ↔ o.Valid s := by
  cases o with
  | table sp i =>
      cases sp with
      | kernel => exact Iff.rfl
      | process t => exact and_congr_left fun _ => h.isProcess t
  | page sp n => exact h.heap_iff

theorem pool (h : SameTables s s') (pf : PoolFlags) : s'.pool pf = s.pool pf := by
  cases pf with
  | kernel => exact h.kernelPool
  | user => exact h.userPool

/-- `Tables` as long as the clear bits are those of unmapped pages. -/
theorem tables (h : SameTables s s') {dir : Space → Nat} (ht : Tables s dir)
    (hclear : ∀ sp n, Space.Heap s sp n → Space.bit s' sp n = false → mapped s.mem (dir sp) n = none) :
    Tables s' dir where
  kstart := by rw [h.kernelPool]; exact ht.kstart
  kfit := by rw [h.kernelPool, h.userPool]; exact ht.kfit
  ualigned := by rw [h.userPool]; exact ht.ualigned
  ufit := by rw [h.userPool]; exact ht.ufit
  vstart := h.kernelStart.trans ht.vstart
  vfit := by rw [h.kernelSize]; exact ht.vfit
  user t hp := by
    rw [h.userStart, h.userSize]
    exact ht.user t ((h.isProcess t).1 hp)
  dir_kernel := ht.dir_kernel
  first := by rw [h.mem]; exact ht.first
  self sp hsp := by rw [h.mem]; exact ht.self sp (h.exists_iff.1 hsp)
  dir_heap t hp := by
    rw [h.pageDir, h.mem, h.heap_iff]
    exact ht.dir_heap t ((h.isProcess t).1 hp)
  dir_inj t u hp hp' := by
    rw [h.pageDir, h.pageDir]
    exact ht.dir_inj t u ((h.isProcess t).1 hp) ((h.isProcess u).1 hp')
  shared t i hp hle hlt := by
    rw [h.mem]
    exact ht.shared t i ((h.isProcess t).1 hp) hle hlt
  used o f ho hf := by
    rw [h.mem] at hf
    rw [h.pool]
    exact ht.used o f ((h.valid_iff o).1 ho) hf
  inj o o' f ho ho' hf hf' := by
    rw [h.mem] at hf hf'
    exact ht.inj o o' f ((h.valid_iff o).1 ho) ((h.valid_iff o').1 ho') hf hf'
  clear sp n hn hbit := by
    rw [h.mem]
    exact hclear sp n (h.heap_iff.1 hn) hbit
  cr3 := by rw [h.cr3, h.space]; exact ht.cr3

end SameTables

variable {s s' : Memory} {dir : Space → Nat} {n f : Nat} {vaddr : Word}

/-- Page `n` of the running thread's space has been mapped to `f`, perhaps behind a new table. -/
structure Added (s s' : Memory) (dir : Space → Nat) (n f : Nat) : Prop where
  same : s' = { s with mem := s'.mem, kernelPool := s'.kernelPool }
  page : mapped s'.mem (dir s.space) n = some f
  others : ∀ o, Owner.Valid s o → o ≠ .page s.space n → o ≠ .table s.space (n / 1024) →
    o.frame s'.mem dir = o.frame s.mem dir
  dirs : ∀ sp i, Space.Exists s sp → i < 1024 → ¬(sp = s.space ∧ i = n / 1024) →
    entry s'.mem (dir sp) i = entry s.mem (dir sp) i
  kept : entry s.mem (dir s.space) (n / 1024) ≠ none →
    entry s'.mem (dir s.space) (n / 1024) = entry s.mem (dir s.space) (n / 1024) ∧
      s'.kernelPool = s.kernelPool
  made : entry s.mem (dir s.space) (n / 1024) = none → ∃ k < s.kernelPool.poolBitmap.size * 8,
    bitmapTest s.kernelPool.poolBitmap k = false ∧ s'.kernelPool = s.kernelPool.setBit k true ∧
      entry s'.mem (dir s.space) (n / 1024) = some (s.kernelPool.paddrStart.toNat + k * 4096)

theorem Tables.windowed (h : Tables s dir) : Windowed s (dir s.space) := by
  have hexists : s.space.Exists s := by
    unfold Memory.space
    split
    next hp => exact hp
    next => trivial
  exact ⟨h.cr3, h.dir_mod hexists, h.self _ hexists⟩

theorem Memory.space_exists (s : Memory) : s.space.Exists s := by
  unfold Memory.space
  split
  next hp => exact hp
  next => trivial

section Add

variable {p : Word} (h : Tables s dir) (hn : s.space.Heap s (vpage vaddr))
  (hbit : s.space.bit s (vpage vaddr) = true) (hnone : mapped s.mem (dir s.space) (vpage vaddr) = none)
  (hp : Fresh s dir p.toNat) (hused : (s.pool s.space.flag).Used p.toNat)
include h hnone

/-- A page that is not mapped is no directory's. -/
theorem Tables.dir_page_ne {t : Tid} (ht : s.IsProcess t) :
    Owner.page .kernel (vpage (s.task t).pageDir) ≠ .page s.space (vpage vaddr) := by
  intro he
  obtain ⟨-, hframe⟩ := h.dir_page ht
  rw [he, Owner.frame_page, hnone] at hframe
  cases hframe

include hn hbit hp hused

/-- A fresh frame is mapped behind a table. -/
theorem Tables.pageTableAdd_present {T : Nat} (hT : entry s.mem (dir s.space) (vpage vaddr / 1024) = some T) :
    ∃ s', HoloOS.pageTableAdd vaddr p s = .ok s' ∧ Tables s' dir ∧ Added s s' dir (vpage vaddr) p.toNat := by
  have hreg := h.region hn
  have hat : Tables.At s dir s.space (vpage vaddr) T := ⟨hn, hT⟩
  have hfree : entry s.mem T (vpage vaddr % 1024) = none := by
    rw [mapped, hT] at hnone
    exact hnone
  have hnew : entry (write s.mem (T + 4 * (vpage vaddr % 1024)) (p ||| 7#32)) T (vpage vaddr % 1024) =
      some p.toNat := entry_write_self p hp.aligned
  have hpage := (h.mapped_write (w := p ||| 7#32) hat).trans hnew
  refine ⟨_, pageTableAdd_table h.windowed p hT hfree, ?_, ?_⟩
  · refine h.edit hat s.kernelPool s.userPool h.toLayout ?_ ?_ fun t ht => h.dir_page_ne hnone ht
    · intro f hf
      rw [hpage] at hf
      obtain rfl := Option.some.inj hf
      exact ⟨hp, hbit, hused⟩
    · exact fun o f ho _ hf => h.used o f ho hf
  · exact ⟨rfl, hpage, fun o ho hne _ => h.frame_write hat ho hne,
      fun sp' i hsp' hi _ => h.entry_dir_write hat hsp' hi,
      fun _ => ⟨h.entry_dir_write hat s.space_exists (by have := hreg.lt; omega), rfl⟩,
      fun he => by rw [hT] at he; cases he⟩

omit hnone hn hbit hp in
/-- A frame in use is not the free one that becomes a table. -/
theorem Tables.used_ne_free {F : Nat} (hF : s.kernelPool.Free F) : p.toNat ≠ F := by
  intro he
  cases hflag : s.space.flag with
  | kernel =>
      rw [hflag, he] at hused
      exact hused.not_free hF
  | user =>
      rw [hflag, he] at hused
      have hlow := hused.bounds.1
      have hhigh := hF.bounds.2
      have hkfit := h.kfit
      simp only [Memory.pool] at hlow hhigh
      omega

/-- A fresh frame is mapped behind a new table. -/
theorem Tables.pageTableAdd_absent (hT : entry s.mem (dir s.space) (vpage vaddr / 1024) = none)
    (htable : ∃ a, s.kernelPool.Free a) :
    ∃ s', HoloOS.pageTableAdd vaddr p s = .ok s' ∧ Tables s' dir ∧ Added s s' dir (vpage vaddr) p.toNat := by
  obtain ⟨a, hfree⟩ := htable
  set sp := s.space with hsp
  set n := vpage vaddr with hn'
  have hreg := h.region hn
  have hlt := hreg.lt
  have hown : sp.Own s (n / 1024) := by
    rcases hreg with hown | ⟨he, hi⟩
    · exact hown
    · rw [he, hi, h.dir_kernel, h.first] at hT
      cases hT
  cases hpalloc : palloc s.kernelPool with
  | mk r memPool =>
  cases r with
  | none =>
      have hno := palloc_eq_none_iff.1 (show (palloc s.kernelPool).1 = none by rw [hpalloc])
      exact absurd hfree (hno a)
  | some F =>
      have hstop : s.kernelPool.stop ≤ 2 ^ 32 := by
        have hk := h.kfit
        have hlt := s.userPool.paddrStart.isLt
        omega
      obtain ⟨k, hk, hclear, hF, rfl⟩ := palloc_some hstop hpalloc
      have hfreeF : (s.pool .kernel).Free F.toNat := ⟨k, hk, hF, hclear⟩
      have hfresh := h.fresh hfreeF
      have hne : F.toNat ≠ dir sp := (h.fresh_ne_dir hfresh s.space_exists).symm
      have hneP : p.toNat ≠ F.toNat := h.used_ne_free hused hfreeF
      have h₁ := h.newTable (f := F) hown hT hk hclear hF
      set m₁ := Tables.tableMem s.mem (dir sp) (n / 1024) F with hm₁
      set s₁ : Memory := { s with kernelPool := s.kernelPool.setBit k true, mem := m₁ } with hs₁
      have hself : entry m₁ (dir sp) (n / 1024) = some F.toNat := h.entry_newTable_self hown hfresh
      have hat : Tables.At s₁ dir sp n F.toNat := ⟨hn, hself⟩
      have hfresh₁ : Fresh s₁ dir p.toNat := by
        refine ⟨hp.aligned, hp.low, fun o ho => ?_⟩
        by_cases he : o = .table sp (n / 1024)
        · rw [he, Owner.frame_table]
          intro hf
          exact hneP (Option.some.inj (hf.symm.trans hself))
        · intro hf
          have hsame := h.frame_newTable hown hT hfresh ho he
          exact hp.unused o ho (hsame.symm.trans hf)
      have hnew : entry (write m₁ (F.toNat + 4 * (n % 1024)) (p ||| 7#32)) F.toNat (n % 1024) =
          some p.toNat := entry_write_self p hp.aligned
      have hpage := (h₁.mapped_write (w := p ||| 7#32) hat).trans hnew
      refine ⟨_, pageTableAdd_new h.windowed p hT (by omega) hpalloc rfl hfresh.aligned hne, ?_, ?_⟩
      · refine h₁.edit hat s₁.kernelPool s₁.userPool h₁.toLayout ?_ ?_ fun t ht => h.dir_page_ne hnone ht
        · intro f hf
          rw [hpage] at hf
          obtain rfl := Option.some.inj hf
          refine ⟨hfresh₁, hbit, ?_⟩
          cases hflag : sp.flag with
          | kernel =>
              rw [hflag] at hused
              exact Pool.Marked.setBit hused (Or.inl rfl)
          | user =>
              rw [hflag] at hused
              exact hused
        · exact fun o f ho _ hf => h₁.used o f ho hf
      · refine ⟨rfl, hpage, ?_, ?_, fun he => absurd hT he, fun _ => ⟨k, hk, hclear, rfl, ?_⟩⟩
        · intro o ho hne hne'
          exact (h₁.frame_write hat (show o.Valid s₁ from ho) hne).trans
            (h.frame_newTable hown hT hfresh ho hne')
        · intro sp' i hsp' hi hne
          exact (h₁.entry_dir_write hat hsp' hi).trans
            (h.entry_dir_newTable hown hfresh hsp' hi hne)
        · rw [← hF]
          exact (h₁.entry_dir_write hat s.space_exists (by omega)).trans hself

/-- A fresh frame is mapped, when a frame is left for a page table that is needed. -/
theorem Tables.pageTableAdd
    (htable : entry s.mem (dir s.space) (vpage vaddr / 1024) = none → ∃ a, s.kernelPool.Free a) :
    ∃ s', HoloOS.pageTableAdd vaddr p s = .ok s' ∧ Tables s' dir ∧ Added s s' dir (vpage vaddr) p.toNat := by
  cases hT : entry s.mem (dir s.space) (vpage vaddr / 1024) with
  | some T => exact h.pageTableAdd_present hn hbit hnone hp hused hT
  | none => exact h.pageTableAdd_absent hn hbit hnone hp hused hT (htable hT)

end Add

/-- Page `n` of the running thread's space has been unmapped and its frame `f` given back. -/
structure Removed (s s' : Memory) (dir : Space → Nat) (n f : Nat) : Prop where
  same : ∃ pool, s' = { s.setPool s.space.flag pool with mem := s'.mem, tlb := s'.tlb }
  page : mapped s'.mem (dir s.space) n = none
  others : ∀ o, Owner.Valid s o → o ≠ .page s.space n → o.frame s'.mem dir = o.frame s.mem dir
  dirs : ∀ sp i, Space.Exists s sp → i < 1024 →
    entry s'.mem (dir sp) i = entry s.mem (dir sp) i
  freed : (s'.pool s.space.flag).Free f
  rest : ∀ a val, a ≠ f → ((s'.pool s.space.flag).Marked val a ↔ (s.pool s.space.flag).Marked val a)
  tlb : s'.tlb = update s.tlb (s.cur / 4096) none

theorem Tables.poolOf_eq (h : Tables s dir) {pf : PoolFlags} {p : Word} {val : Bool}
    (hp : (s.pool pf).Marked val p.toNat) : poolOf p s = pf := by
  have hkfit := h.kfit
  have hlow := hp.bounds.1
  have hhigh := hp.bounds.2
  unfold poolOf
  cases pf with
  | kernel =>
      simp only [Memory.pool] at hlow hhigh
      rw [if_neg]
      rw [BitVec.le_def]
      omega
  | user =>
      simp only [Memory.pool] at hlow
      rw [if_pos (BitVec.le_def.2 hlow)]

/-- One bit of one pool changes. -/
theorem Layout.setBit (h : Layout s) (pf : PoolFlags) (k : Nat) (val : Bool) :
    ∃ kpool upool, s.setPool pf ((s.pool pf).setBit k val) =
        { s with kernelPool := kpool, userPool := upool } ∧
      Layout { s with kernelPool := kpool, userPool := upool } ∧
      ∀ pf', Memory.pool { s with kernelPool := kpool, userPool := upool } pf' =
        if pf' = pf then (s.pool pf).setBit k val else s.pool pf' := by
  cases pf with
  | kernel =>
      refine ⟨s.kernelPool.setBit k val, s.userPool, rfl, { h with }, fun pf' => ?_⟩
      cases pf' <;> rfl
  | user =>
      refine ⟨s.kernelPool, s.userPool.setBit k val, rfl, { h with }, fun pf' => ?_⟩
      cases pf' <;> rfl

/-- Giving back the frame of a page and taking it out of its table. -/
theorem Tables.unmap (h : Tables s dir) {p : Word} (hn : s.space.Heap s (vpage vaddr))
    (hpage : mapped s.mem (dir s.space) (vpage vaddr) = some p.toNat)
    (hkeep : ∀ t, s.IsProcess t → Owner.page .kernel (vpage (s.task t).pageDir) ≠
      .page s.space (vpage vaddr)) :
    ∃ s', pageTablePteRemove vaddr (pfree p s) = .ok s' ∧ Tables s' dir ∧
      Removed s s' dir (vpage vaddr) p.toNat := by
  generalize hn' : vpage vaddr = n at *
  have hvalid : (Owner.page s.space n).Valid s := hn
  have hused : (s.pool s.space.flag).Used p.toNat := h.used (.page s.space n) p.toNat hvalid hpage
  have hpoolOf : poolOf p s = s.space.flag := h.poolOf_eq hused
  obtain ⟨k, hk, hpk, hset⟩ := hused
  have hidx : ((p - (s.pool s.space.flag).paddrStart) / 4096).toNat = k := by
    have hlow : (s.pool s.space.flag).paddrStart.toNat ≤ p.toNat := by omega
    have hsub : (p - (s.pool s.space.flag).paddrStart).toNat = k * 4096 := by
      rw [BitVec.toNat_sub_of_le (BitVec.le_def.2 hlow), hpk]
      omega
    rw [BitVec.toNat_udiv, hsub]
    simp
  obtain ⟨kpool, upool, hstate, hlayout, hpool⟩ := h.toLayout.setBit s.space.flag k false
  have hfree : pfree p s = { s with kernelPool := kpool, userPool := upool } := by
    rw [← hstate]
    unfold pfree
    rw [hpoolOf]
    dsimp only
    rw [hidx]
    rfl
  obtain ⟨T, hT, hentry⟩ := mapped_eq_some.1 hpage
  have hat : Tables.At s dir s.space n T := ⟨hn, hT⟩
  have hwin : Windowed { s with kernelPool := kpool, userPool := upool } (dir s.space) :=
    ⟨h.windowed.cr3, h.windowed.aligned, h.windowed.self⟩
  have hT' : entry s.mem (dir s.space) (vpage vaddr / 1024) = some T := hn' ▸ hT
  obtain ⟨w, hw, hremove⟩ := pageTablePteRemove_eq hwin hT'
  rw [hn'] at hremove
  have hnone : mapped (write s.mem (T + 4 * (n % 1024)) w) (dir s.space) n = none := by
    rw [h.mapped_write hat, entry, read_write_self, hw]
    rfl
  have hrest : ∀ a val, a ≠ p.toNat → (((s.pool s.space.flag).setBit k false).Marked val a ↔
      (s.pool s.space.flag).Marked val a) := by
    intro a val hne
    exact Pool.marked_setBit_iff (by rw [← hpk]; exact hne)
  have hother : ∀ o f, Owner.Valid s o → o ≠ .page s.space n → o.frame s.mem dir = some f →
      (Memory.pool { s with kernelPool := kpool, userPool := upool } o.flag).Used f := by
    intro o f ho hne hf
    have hne' : f ≠ p.toNat := by
      rintro rfl
      exact hne (h.inj _ _ _ ho hvalid hf hpage)
    have hold := h.used o f ho hf
    rw [hpool]
    split
    next he =>
      rw [he] at hold
      exact (hrest f true hne').2 hold
    next => exact hold
  have hedit := h.edit (w := w) hat kpool upool hlayout (fun f hf => by rw [hnone] at hf; cases hf) hother hkeep
  have hpool₁ := hpool s.space.flag
  rw [if_pos rfl] at hpool₁
  rw [hfree, hremove]
  refine ⟨_, rfl, ?_, ⟨(s.pool s.space.flag).setBit k false, ?_⟩, hnone, ?_, ?_, ?_, ?_, rfl⟩
  · exact (sameTables_invlpg _ _).tables hedit hedit.clear
  · rw [hstate]
    rfl
  · intro o ho hne
    exact h.frame_write hat ho hne
  · intro sp i hsp hi
    exact h.entry_dir_write hat hsp hi
  · have hfreed : ((s.pool s.space.flag).setBit k false).Free _ := Pool.marked_setBit hk
    rw [← hpk, ← hpool₁] at hfreed
    exact hfreed
  · intro a val hne
    have hsame := hrest a val hne
    rw [← hpool₁] at hsame
    exact hsame

end HoloOS
