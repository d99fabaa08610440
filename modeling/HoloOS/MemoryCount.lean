import HoloOS.MemoryAlloc

/-! How many frames an allocation takes: one a page from the pool of its flag, and one from the kernel
pool for each directory entry that is absent. So the counts of free frames before the call decide
whether the loop of `mallocPage` runs to its end. -/

namespace HoloOS

open Function Paging

variable {s s₁ s' : Memory} {dir : Space → Nat} {pf : PoolFlags} {vaddr : Word} {m m' : Mem}
  {d lo n : Nat}

/-- The page tables that a page needs. -/
def tableNeed (m : Mem) (d page : Nat) : Nat := if entry m d (page / 1024) = none then 1 else 0

/-- The page tables that `n` pages from `lo` on need, one for each absent entry. -/
def tableCount (m : Mem) (d lo n : Nat) : Nat :=
  (List.range n).countP fun k =>
    decide ((k = 0 ∨ (lo + k) % 1024 = 0) ∧ entry m d ((lo + k) / 1024) = none)

/-- When the first page has its table, the others are left. -/
theorem tableCount_succ (hself : entry m' d (lo / 1024) ≠ none)
    (hsame : ∀ i, i ≠ lo / 1024 → i < 1024 → entry m' d i = entry m d i) (hfit : lo + n < 2 ^ 20) :
    tableCount m d lo (n + 1) = tableNeed m d lo + tableCount m' d (lo + 1) n := by
  unfold tableCount tableNeed
  rw [List.range_succ_eq_map, List.countP_cons, List.countP_map, Nat.add_comm]
  congr 1
  · simp
  · apply List.countP_congr
    intro k hk
    have hlt := List.mem_range.1 hk
    simp only [Function.comp_apply, decide_eq_true_eq]
    rw [show lo + (k + 1) = lo + 1 + k by omega]
    by_cases he : (lo + 1 + k) / 1024 = lo / 1024
    · rw [he]
      constructor
      · rintro ⟨hor, -⟩
        omega
      · rintro ⟨-, hnone⟩
        exact absurd hnone hself
    · rw [hsame _ he (by omega)]
      constructor
      · rintro ⟨hor, hnone⟩
        exact ⟨by omega, hnone⟩
      · rintro ⟨hor, hnone⟩
        exact ⟨by omega, hnone⟩

theorem Added.count {f : Nat} (h : Added s s' dir n f) : s'.userPool = s.userPool ∧
    s'.kernelPool.freeCount + tableNeed s.mem (dir s.space) n = s.kernelPool.freeCount := by
  refine ⟨by rw [h.same], ?_⟩
  unfold tableNeed
  by_cases hnone : entry s.mem (dir s.space) (n / 1024) = none
  · obtain ⟨k, hk, hclear, hpool, -⟩ := h.made hnone
    rw [if_pos hnone, hpool]
    exact Pool.freeCount_take hk hclear
  · rw [if_neg hnone, (h.kept hnone).2]
    rfl

theorem Added.tables {f : Nat} (h : Added s s' dir n f) :
    entry s'.mem (dir s.space) (n / 1024) ≠ none ∧
      ∀ i, i ≠ n / 1024 → i < 1024 → entry s'.mem (dir s.space) i = entry s.mem (dir s.space) i := by
  constructor
  · by_cases hnone : entry s.mem (dir s.space) (n / 1024) = none
    · obtain ⟨k, -, -, -, hmade⟩ := h.made hnone
      rw [hmade]
      exact Option.some_ne_none _
    · rw [(h.kept hnone).1]
      exact hnone
  · intro i hne hi
    exact h.dirs s.space i s.space_exists hi fun he => hne he.2

/-- What `palloc` leaves in the pools. -/
theorem Tables.palloc_count (h : Tables s dir) {p : Word} {memPool : Pool}
    (hpalloc : HoloOS.palloc (s.pool pf) = (some p, memPool)) (pf' : PoolFlags) :
    ((s.setPool pf memPool).pool pf').freeCount + (if pf' = pf then 1 else 0) = (s.pool pf').freeCount := by
  obtain ⟨k, hk, hclear, -, rfl⟩ := palloc_some (h.pool_stop pf) hpalloc
  have htake := Pool.freeCount_take hk hclear
  cases pf <;> cases pf' <;> first | exact htake | rfl

/-- The directory and the pools after one page. -/
structure Counted (s s' : Memory) (dir : Space → Nat) (pf : PoolFlags) (n : Nat) : Prop where
  user : s'.userPool.freeCount + (if pf = .user then 1 else 0) = s.userPool.freeCount
  kernel : s'.kernelPool.freeCount + (if pf = .kernel then 1 else 0) + tableNeed s.mem (dir s.space) n =
    s.kernelPool.freeCount
  table : entry s'.mem (dir s.space) (n / 1024) ≠ none
  other : ∀ i, i ≠ n / 1024 → i < 1024 → entry s'.mem (dir s.space) i = entry s.mem (dir s.space) i

theorem Tables.mapOne_count (h : Tables s dir) (hpf : pf = s.space.flag)
    (hmap : Mappable s dir (vpage vaddr)) {p : Word} {memPool : Pool}
    (hpalloc : HoloOS.palloc (s.pool pf) = (some p, memPool))
    (hfits : TableFits vaddr (s.setPool pf memPool))
    (hadd : HoloOS.pageTableAdd vaddr p (s.setPool pf memPool) = .ok s') :
    Counted s s' dir pf (vpage vaddr) := by
  have hkernel := h.palloc_count hpalloc .kernel
  have huser := h.palloc_count hpalloc .user
  obtain ⟨h₁, hfresh, hused, hfree, kpool, upool, hstate, hmono⟩ := h.palloc hpalloc
  rw [hstate] at h₁ hfresh hused hfits hkernel huser hadd
  have hflag : (Memory.pool { s with kernelPool := kpool, userPool := upool } s.space.flag).Used
      p.toNat := by
    rw [← hpf]
    exact hused
  obtain ⟨s'', hadd', h', hadded⟩ := h₁.pageTableAdd hmap.heap hmap.bit hmap.unmapped hfresh hflag
    (fun hnone => h₁.free_of_fits hfits hnone)
  rw [hadd] at hadd'
  cases hadd'
  obtain ⟨hsame, hcount⟩ := hadded.count
  obtain ⟨htable, hother⟩ := hadded.tables
  simp only [Memory.pool, eq_comm (a := PoolFlags.kernel), eq_comm (a := PoolFlags.user)] at hkernel huser
  refine ⟨?_, ?_, htable, hother⟩
  · rw [hsame]
    exact huser
  · rw [← hkernel, ← hcount]
    change s'.kernelPool.freeCount + _ + tableNeed s.mem (dir s.space) (vpage vaddr) =
      s'.kernelPool.freeCount + tableNeed s.mem (dir s.space) (vpage vaddr) + _
    omega

/-- The frames of its own pool that an allocation takes. -/
def framesNeeded (pf : PoolFlags) (m : Mem) (d lo n : Nat) : Nat :=
  match pf with
  | .user => n
  | .kernel => n + tableCount m d lo n

/-- The frames of the kernel pool that an allocation takes. -/
def kernelNeeded (pf : PoolFlags) (m : Mem) (d lo n : Nat) : Nat :=
  match pf with
  | .user => tableCount m d lo n
  | .kernel => n + tableCount m d lo n

theorem tableFits_of_count (h : Tables s dir)
    (hcount : tableNeed s.mem (dir s.space) (vpage vaddr) ≤ s.kernelPool.freeCount) : TableFits vaddr s := by
  intro pde hload
  rw [h.windowed.load_pde vaddr] at hload
  cases hload
  unfold tableNeed at hcount
  by_cases hnone : entry s.mem (dir s.space) (vpage vaddr / 1024) = none
  · right
    rw [if_pos hnone] at hcount
    obtain ⟨a, ha⟩ := Pool.freeCount_pos.1 hcount
    exact fun hp => palloc_eq_none_iff.1 hp a ha
  · obtain ⟨table, htable⟩ := Option.ne_none_iff_exists'.1 hnone
    exact Or.inl (present_of_entry htable)

/-- The next page of a loop: where it is, and that the rest can be mapped. -/
theorem Tables.next (h : Tables s dir) (hpf : pf = s.space.flag)
    (hmap : ∀ k < n + 1, Mappable s dir (vpage vaddr + k)) {p : Word} {memPool : Pool}
    (hpalloc : HoloOS.palloc (s.pool pf) = (some p, memPool))
    (hfits : TableFits vaddr (s.setPool pf memPool)) :
    ∃ s', HoloOS.pageTableAdd vaddr p (s.setPool pf memPool) = .ok s' ∧ Tables s' dir ∧
      s'.space = s.space ∧ Counted s s' dir pf (vpage vaddr) ∧ vpage (vaddr + 4096) = vpage vaddr + 1 ∧
      (∀ k < n, Mappable s' dir (vpage (vaddr + 4096) + k)) ∧
      ∀ k ≤ n, tableCount s.mem (dir s.space) (vpage vaddr) (k + 1) =
        tableNeed s.mem (dir s.space) (vpage vaddr) +
          tableCount s'.mem (dir s.space) (vpage (vaddr + 4096)) k := by
  have hfirst : Mappable s dir (vpage vaddr) := hmap 0 (Nat.succ_pos n)
  have hlast := ((hmap n (Nat.lt_succ_self n)).heap).lt h.toLayout
  obtain ⟨s', hadd, h', hg, -, -, -⟩ := h.mapOne hpf hfirst hpalloc hfits
  have hcount := h.mapOne_count hpf hfirst hpalloc hfits hadd
  have hnext : vpage (vaddr + 4096) = vpage vaddr + 1 := vpage_add (hfirst.heap.lt h.toLayout)
  refine ⟨s', hadd, h', hg.space, hcount, hnext, fun k hk => ?_, fun k hk => ?_⟩
  · rw [hnext, Nat.add_assoc, Nat.add_comm 1 k]
    exact (hmap (k + 1) (by omega)).grew hg (by omega)
  · rw [hnext]
    exact tableCount_succ hcount.table hcount.other (by omega)

/-- Frames enough at each page that is the first behind its directory entry. -/
def TablesFit (pf : PoolFlags) (n : Nat) (m : Mem) (d lo free : Nat) : Prop :=
  ∀ k < n, (k = 0 ∨ (lo + k) % 1024 = 0) → entry m d ((lo + k) / 1024) = none →
    kernelNeeded pf m d lo (k + 1) ≤ free

theorem tablesFit_of_le {m : Mem} {d lo free : Nat} (h : kernelNeeded pf m d lo n ≤ free) :
    TablesFit pf n m d lo free := by
  intro k hk _ _
  have hmono : tableCount m d lo (k + 1) ≤ tableCount m d lo n := by
    unfold tableCount
    exact (List.range_sublist.2 hk).countP_le
  unfold kernelNeeded at h ⊢
  cases pf with
  | kernel =>
      dsimp only at h ⊢
      omega
  | user => exact Nat.le_trans hmono h

theorem TablesFit.first {m : Mem} {d lo free : Nat} (h : TablesFit pf (n + 1) m d lo free) :
    tableNeed m d lo + (if pf = .kernel then tableNeed m d lo else 0) ≤ free := by
  unfold tableNeed
  by_cases hnone : entry m d (lo / 1024) = none
  · have hone := h 0 (Nat.succ_pos n) (Or.inl rfl) hnone
    have hcount : tableCount m d lo 1 = 1 := by
      unfold tableCount
      rw [show List.range 1 = [0] from rfl, List.countP_cons_of_pos]
      · rfl
      · exact decide_eq_true ⟨Or.inl rfl, hnone⟩
    unfold kernelNeeded at hone
    rw [Nat.zero_add, hcount] at hone
    rw [if_pos hnone]
    cases pf with
    | kernel =>
        rw [if_pos rfl]
        dsimp only at hone
        omega
    | user =>
        rw [if_neg PoolFlags.noConfusion]
        dsimp only at hone
        omega
  · rw [if_neg hnone, ite_self]
    exact Nat.zero_le _

/-- Enough frames for the tables. -/
theorem Tables.loopFits (h : Tables s dir) (hpf : pf = s.space.flag) (n : Nat)
    (hmap : ∀ k < n, Mappable s dir (vpage vaddr + k))
    (hcount : TablesFit pf n s.mem (dir s.space) (vpage vaddr) s.kernelPool.freeCount) :
    LoopFits pf n vaddr s := by
  induction n generalizing vaddr s with
  | zero => trivial
  | succ n ih =>
      intro p memPool hpalloc
      obtain ⟨h₁, -, -, -, kpool, upool, hstate, -⟩ := h.palloc hpalloc
      have hleft := h.palloc_count hpalloc .kernel
      have hlast := ((hmap n (Nat.lt_succ_self n)).heap).lt h.toLayout
      have hneed := hcount.first
      have hone : tableNeed s.mem (dir s.space) (vpage vaddr) ≤ 1 := by
        unfold tableNeed
        split <;> omega
      have hfits : TableFits vaddr (s.setPool pf memPool) := by
        refine tableFits_of_count h₁ ?_
        rw [hstate] at hleft ⊢
        change tableNeed s.mem (dir s.space) (vpage vaddr) ≤ kpool.freeCount
        change kpool.freeCount + _ = s.kernelPool.freeCount at hleft
        cases pf with
        | kernel =>
            rw [if_pos rfl] at hleft hneed
            omega
        | user =>
            rw [if_neg PoolFlags.noConfusion] at hleft hneed
            omega
      refine ⟨hfits, fun s' hadd => ?_⟩
      obtain ⟨s₁, hadd₁, h', hsp, hcounted, hnext, hmap', hsucc⟩ := h.next hpf hmap hpalloc hfits
      rw [hadd] at hadd₁
      cases hadd₁
      refine ih h' (by rw [hsp]; exact hpf) hmap' ?_
      intro k hk hstart hnone
      rw [hsp] at hnone ⊢
      have hregion : (vpage (vaddr + 4096) + k) / 1024 ≠ vpage vaddr / 1024 := by
        intro he
        rw [he] at hnone
        exact hcounted.table hnone
      rw [hnext] at hnone hregion hstart
      rw [hcounted.other _ hregion (by omega)] at hnone
      rw [Nat.add_assoc, Nat.add_comm 1 k] at hnone
      have hrest := hcount (k + 1) (by omega) (by omega) hnone
      have hkernel := hcounted.kernel
      have hsplit := hsucc (k + 1) hk
      unfold kernelNeeded at hrest ⊢
      cases pf with
      | kernel =>
          rw [if_pos rfl] at hkernel
          dsimp only at hrest ⊢
          omega
      | user =>
          rw [if_neg PoolFlags.noConfusion] at hkernel
          dsimp only at hrest ⊢
          omega

/-- The loop ends without a frame exactly when there are too few before. -/
theorem Tables.mallocLoop_count (h : Tables s dir) (hpf : pf = s.space.flag) (n : Nat)
    (hmap : ∀ k < n, Mappable s dir (vpage vaddr + k)) (hfits : LoopFits pf n vaddr s) {done : Bool}
    (hloop : HoloOS.mallocLoop pf n vaddr s = .ok (done, s')) :
    (done = true ↔ framesNeeded pf s.mem (dir s.space) (vpage vaddr) n ≤ (s.pool pf).freeCount) ∧
      (done = true → s'.kernelPool.freeCount + kernelNeeded pf s.mem (dir s.space) (vpage vaddr) n =
        s.kernelPool.freeCount) := by
  induction n generalizing vaddr s with
  | zero =>
      rw [HoloOS.mallocLoop] at hloop
      cases hloop
      have hzero : framesNeeded pf s'.mem (dir s'.space) (vpage vaddr) 0 = 0 := by cases pf <;> rfl
      have hzero' : kernelNeeded pf s'.mem (dir s'.space) (vpage vaddr) 0 = 0 := by cases pf <;> rfl
      rw [hzero, hzero']
      exact ⟨⟨fun _ => Nat.zero_le _, fun _ => rfl⟩, fun _ => rfl⟩
  | succ n ih =>
      cases hpalloc : HoloOS.palloc (s.pool pf) with
      | mk r memPool =>
      cases r with
      | none =>
          rw [HoloOS.mallocLoop, hpalloc] at hloop
          cases hloop
          have hnone : ¬0 < (s'.pool pf).freeCount := by
            intro hpos
            obtain ⟨a, ha⟩ := Pool.freeCount_pos.1 hpos
            exact palloc_eq_none_iff.1 (show (HoloOS.palloc (s'.pool pf)).1 = none by rw [hpalloc]) a ha
          refine ⟨⟨fun hdone => (by cases hdone), fun hle => ?_⟩, fun hdone => (by cases hdone)⟩
          unfold framesNeeded at hle
          cases pf <;> simp only at hle <;> omega
      | some p =>
          obtain ⟨hfit, hrest⟩ := hfits p memPool hpalloc
          obtain ⟨s₁, hadd, h', hsp, hcounted, hnext, hmap', hsucc⟩ := h.next hpf hmap hpalloc hfit
          rw [HoloOS.mallocLoop, hpalloc] at hloop
          dsimp only at hloop
          rw [hadd, ok_bind] at hloop
          obtain ⟨hiff, hleft⟩ := ih h' (by rw [hsp]; exact hpf) hmap' (hrest s₁ hadd) hloop
          rw [hsp] at hiff hleft
          have hkernel := hcounted.kernel
          have huser := hcounted.user
          have hsplit := hsucc n (Nat.le_refl n)
          rw [hiff]
          rw [hiff] at hleft
          unfold framesNeeded kernelNeeded at *
          cases pf with
          | kernel =>
              rw [if_pos rfl] at hkernel
              dsimp only [Memory.pool] at *
              omega
          | user =>
              rw [if_pos rfl] at huser
              rw [if_neg PoolFlags.noConfusion] at hkernel
              dsimp only [Memory.pool] at *
              omega

theorem Scanned.page {v : Word} (h : Scanned s pf n v) (hr : Reserved s s₁ v n) {i : Nat}
    (hscan : bitmapScan (s.vaddr pf).vaddrBitmap n = some i) : vpage v = s.space.first + i := by
  have hfirst := hr.first
  have he := Option.some.inj (hscan.symm.trans h)
  omega

/-- Enough frames for the tables of the first run of clear pages. -/
theorem Tables.mallocFits (h : Tables s dir) (hpf : pf = s.space.flag) (hn : 0 < n)
    (hcount : ∀ i, bitmapScan (s.vaddr pf).vaddrBitmap n = some i →
      TablesFit pf n s.mem (dir s.space) (s.space.first + i) s.kernelPool.freeCount) :
    MallocFits pf n s := by
  intro v s₁ hget
  rcases h.vaddrGet hpf hn with ⟨-, hnone⟩ | ⟨w, s₂, hr, hscan, ⟨-, hsome⟩ | ⟨-, hpanic⟩⟩
  · rw [hnone] at hget
    cases hget
  · rw [hsome] at hget
    cases hget
    have hsame := hr.marks.same
    refine (hr.marks.tables h).loopFits (by rw [hsame.space]; exact hpf) n (hr.mappable h) ?_
    rw [hsame.mem, hsame.space, hsame.kernelPool, hscan.page hr hscan]
    exact hcount _ hscan
  · rw [hpanic] at hget
    cases hget

/-- What `mallocPage` returns, by the number of free frames. -/
theorem Tables.mallocPage_count (h : Tables s dir) (hpf : pf = s.space.flag) (hn : 0 < n ∧ n < 3840)
    (hfits : MallocFits pf n s) {i : Nat} (hscan : bitmapScan (s.vaddr pf).vaddrBitmap n = some i)
    (hstack : ¬StackPage pf (s.space.first + i)) :
    ∃ v done s', vpage v = s.space.first + i ∧
      HoloOS.mallocPage pf n s = .ok (if done then some v else none, s') ∧ Tables s' dir ∧
      Malloced s s' dir v n done ∧
      (done = true ↔ framesNeeded pf s.mem (dir s.space) (vpage v) n ≤ (s.pool pf).freeCount) ∧
      (done = true → s'.kernelPool.freeCount + kernelNeeded pf s.mem (dir s.space) (vpage v) n =
        s.kernelPool.freeCount) := by
  rcases h.vaddrGet hpf hn.1 with ⟨hnone, -⟩ | ⟨v, s₁, hr, hscanned, ⟨-, hget⟩ | ⟨hpage, -⟩⟩
  · rw [hnone] at hscan
    cases hscan
  · have hsame := hr.marks.same
    have h₁ := hr.marks.tables h
    have hpf₁ : pf = s₁.space.flag := by rw [hsame.space]; exact hpf
    have hloopFits := hfits v s₁ hget
    obtain ⟨done, s', hloop, h', hg, hdone, hout⟩ := h₁.mallocLoop hpf₁ n (hr.mappable h) hloopFits
    obtain ⟨hiff, hleft⟩ := h₁.mallocLoop_count hpf₁ n (hr.mappable h) hloopFits hloop
    rw [hsame.mem, hsame.space, hsame.pool] at hiff
    rw [hsame.mem, hsame.space, hsame.kernelPool] at hleft
    rw [hsame.space] at hdone
    refine ⟨v, done, s', hscanned.page hr hscan, ?_, h', ⟨⟨s₁, hr, hg⟩, hdone, ?_⟩, hiff, hleft⟩
    · rw [HoloOS.mallocPage, massert_bind (decide_eq_true hn), hget, ok_bind]
      dsimp only
      rw [hloop]
      rfl
    · rw [← hpf]
      exact hout
  · rw [hscanned.page hr hscan] at hpage
    exact absurd hpage hstack

end HoloOS
