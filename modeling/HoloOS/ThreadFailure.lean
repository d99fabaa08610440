import HoloOS.ThreadPids

/-! What becomes of a creation for which `getKernelPages` has no page. `threadStart` does not check the
page of its `taskStruct` and enters a task at address 0; `processExecute` stops in `bitmapInit` without
that page or the bitmap's, but enters a thread without page directory. -/

namespace HoloOS

open Function Linked Paging

/-- `none`: the system stops, with a `PANIC`, a fault or a spin lock that stays occupied. -/
def Threads.threadStart (priority : Nat) (a : Threads) : Option (Tid × Threads) := do
  let (task, s) ← (newTask a.s).toOption
  let k ← (HoloOS.threadStart task priority a.k).toOption
  return (task, ⟨s, k⟩)

def Threads.processExecute (a : Threads) : Option (Tid × Threads) := do
  let (thread, s) ← (newTask a.s).toOption
  let s ← (processSpace thread s).toOption
  let k ← (HoloOS.processExecute thread a.k).toOption
  return (thread, ⟨s, k⟩)

/-- `getKernelPages` returns `NULL` for the `taskStruct`. -/
def PcbNull (s : Memory) : Prop := ∃ s', getKernelPages 1 s = .ok (none, s')

/-- It does for the user bitmap. -/
def BitsNull (s : Memory) : Prop := ∃ t s₁ s₂, newTask s = .ok (t, s₁) ∧ getKernelPages 23 s₁ = .ok (none, s₂)

/-- It does for the page directory of thread `t`. -/
def DirNull (s : Memory) (t : Tid) (s' : Memory) : Prop := ∃ s₁ s₂, newTask s = .ok (t, s₁) ∧
  createUserVaddrBitmap t s₁ = .ok s₂ ∧ getKernelPages 1 s₂ = .ok (none, s')

/-- Nothing has been entered into `threadReadyList` and `threadAllList`. -/
def AddsNothing (k k' : Kernel) : Prop := ∀ list xs, list = .ready ∨ list = .all →
  Holds k.heap (klist list) xs → Holds k'.heap (klist list) xs

def StartFailsCleanly (priority : Nat) (a : Threads) : Prop :=
  PcbNull a.s → ∀ t b, a.threadStart priority = some (t, b) → AddsNothing a.k b.k

def ExecuteFailsCleanly (a : Threads) : Prop :=
  (PcbNull a.s ∨ BitsNull a.s ∨ ∃ t s', DirNull a.s t s') →
    ∀ t b, a.processExecute = some (t, b) → AddsNothing a.k b.k

variable {a b : Threads} {k k' : Kernel} {s s₁ s' : Memory} {t : Tid} {priority : Nat} {ready : List Tid}

theorem not_addsNothing (h : SchedInv k ready) (h' : SchedInv k' (ready ++ [t])) : ¬AddsNothing k k' := by
  intro hadds
  have hold := hadds .ready _ (.inl rfl) h.ready_holds
  have hsame := congrArg List.length (Seq.unique hold h'.ready_holds)
  simp [generalTags] at hsame

/-- A node that is on the list is not entered again. -/
theorem enlist_of_mem {spin : Spin} {list : ListId} {tag : Node} {xs : List Node}
    (hl : Holds k.heap (klist list) xs) (hlen : xs.length ≤ k.tasks.length) (hmem : tag ∈ xs) :
    enlist spin list tag k ≠ .ok k' := by
  intro hrun
  obtain ⟨k₁, hacquire, hrest⟩ := bind_ok hrun
  obtain ⟨-, rfl⟩ := spinlockAcquire_ok hacquire
  obtain ⟨_, hassert, -⟩ := bind_ok hrest
  rw [assertNotExist, listExist_eq hl (Nat.lt_succ_of_le hlen)] at hassert
  have habsent := kassert_ok hassert
  rw [decide_eq_true hmem] at habsent
  cases habsent

/-- A task there is is not entered again. -/
theorem enlistThread_of_mem (h : SchedInv k ready) (hmem : t ∈ k.tasks) {intr : Bool} :
    enlistThread t { (k.handOut t).inited t priority with intr := intr } ≠ .ok k' := by
  intro hrun
  obtain ⟨k₁, hready, hall⟩ := bind_ok hrun
  have hlen := h.length_ready_le
  by_cases hon : t ∈ ready
  · refine enlist_of_mem (k := { (k.handOut t).inited t priority with intr := intr }) h.ready_holds ?_ ?_ hready
    · change (generalTags ready).length ≤ (k.tasks ++ [t]).length
      simp only [generalTags, List.length_map, List.length_append]
      omega
    · exact generalTag_mem_generalTags.2 hon
  · obtain ⟨-, rfl⟩ := enlist_ok hready
    have hother := holds_listAppend_of_apart h.ready_holds h.all_holds
      (general_apart_all (by decide) ready k.tasks) (generalTag_outside_all t k.tasks)
    refine enlist_of_mem hother ?_ (allListTag_mem_allListTags.2 hmem) hall
    change (allListTags k.tasks).length ≤ (k.tasks ++ [t]).length
    simp only [allListTags, List.length_map, List.length_append]
    omega

theorem threadStart_iff (h : SchedInv k ready) :
    (∃ k', HoloOS.threadStart t priority k = .ok k') ↔ t ∉ k.tasks := by
  constructor
  · rintro ⟨k', hrun⟩ hmem
    obtain ⟨k₁, hinit, hlists⟩ := bind_ok hrun
    rw [threadInit_ok hinit] at hlists
    exact enlistThread_of_mem h hmem hlists
  · intro hnew
    obtain ⟨k', hrun, -, -⟩ := threadStart_inv h hnew priority
    exact ⟨k', hrun⟩

theorem processExecute_iff (h : SchedInv k ready) :
    (∃ k', HoloOS.processExecute t k = .ok k') ↔ t ∉ k.tasks := by
  constructor
  · rintro ⟨k', hrun⟩ hmem
    obtain ⟨k₁, hinit, hrun⟩ := bind_ok hrun
    obtain ⟨k₂, hlists, -⟩ := bind_ok hrun
    rw [threadInit_ok hinit] at hlists
    exact enlistThread_of_mem h hmem hlists
  · intro hnew
    obtain ⟨k', hrun, -, -⟩ := processExecute_inv h hnew
    exact ⟨k', hrun⟩

/-- The kernel has no page of its heap left, or no frame. -/
def Starved (s : Memory) : Prop :=
  bitmapScan s.kernelVaddr.vaddrBitmap 1 = none ∨ (palloc s.kernelPool).1 = none

theorem bitmapScan_none_of_one {bmap : Bitmap} {n : Nat} (hn : 0 < n) (h : bitmapScan bmap 1 = none) :
    bitmapScan bmap n = none := by
  cases hscan : bitmapScan bmap n with
  | none => rfl
  | some i =>
      obtain ⟨⟨hfits, hclear⟩, -⟩ := bitmapScan_some hn hscan
      refine absurd ⟨by omega, fun j hj hlt => ?_⟩ (bitmapScan_none Nat.one_pos h i)
      exact hclear j hj (by omega)

theorem mallocLoop_starved {n : Nat} {v : Word} (hn : 0 < n) (h : (palloc s.kernelPool).1 = none) :
    mallocLoop .kernel n v s = .ok (false, s) := by
  obtain ⟨n, rfl⟩ := Nat.exists_eq_add_one_of_ne_zero (Nat.ne_of_gt hn)
  have hpool : palloc (s.pool .kernel) = (none, (palloc s.kernelPool).2) := Prod.ext h rfl
  rw [mallocLoop, hpool]

theorem vaddrGet_kernel_none {n : Nat} (h : bitmapScan s.kernelVaddr.vaddrBitmap n = none) :
    vaddrGet .kernel n s = .ok (none, s) := by
  have hscan : bitmapScan (s.vaddr .kernel).vaddrBitmap n = none := h
  unfold vaddrGet
  rw [hscan]

theorem vaddrGet_kernel_some {n i : Nat} (h : bitmapScan s.kernelVaddr.vaddrBitmap n = some i) :
    vaddrGet .kernel n s = .ok (some (s.kernelVaddr.vaddrStart + BitVec.ofNat 32 (i * 4096)),
      s.setVaddrBitmap .kernel (bitmapSetRun s.kernelVaddr.vaddrBitmap i true n)) := by
  have hscan : bitmapScan (s.vaddr .kernel).vaddrBitmap n = some i := h
  unfold vaddrGet
  rw [hscan]
  rfl

/-- Then no call has pages, and it stays so. -/
theorem Starved.getKernelPages (h : Starved s) {n : Nat} (hn : 0 < n ∧ n < 3840) :
    ∃ s', HoloOS.getKernelPages n s = .ok (none, s') ∧ Starved s' := by
  have hguard : massert (decide (0 < n ∧ n < 3840)) .pgCnt = .ok () := by rw [massert, if_pos (decide_eq_true hn)]
  rw [HoloOS.getKernelPages, mallocPage, massert_bind (decide_eq_true hn)]
  cases hscan : bitmapScan s.kernelVaddr.vaddrBitmap n with
  | none =>
      rw [vaddrGet_kernel_none hscan]
      exact ⟨s, rfl, h⟩
  | some i =>
      have hpool : (palloc s.kernelPool).1 = none := by
        refine h.resolve_left fun hone => ?_
        rw [bitmapScan_none_of_one hn.1 hone] at hscan
        cases hscan
      set s₁ := s.setVaddrBitmap .kernel (bitmapSetRun s.kernelVaddr.vaddrBitmap i true n)
      have hpool₁ : (palloc s₁.kernelPool).1 = none := hpool
      refine ⟨s₁, ?_, .inr hpool₁⟩
      rw [vaddrGet_kernel_some hscan, ok_bind]
      dsimp only
      rw [mallocLoop_starved hn.1 hpool₁]
      rfl

/-- A call for one page fails for no other reason. -/
theorem starved_of_null (h : getKernelPages 1 s = .ok (none, s')) : Starved s' := by
  obtain ⟨⟨r, s₁⟩, hmalloc, h⟩ := bind_ok h
  cases r with
  | some p =>
      obtain ⟨s₂, -, h⟩ := bind_ok h
      cases h
  | none =>
      cases h
      obtain ⟨-, -, hmalloc⟩ := bind_ok hmalloc
      obtain ⟨⟨p, s₂⟩, hget, hmalloc⟩ := bind_ok hmalloc
      cases hscan : bitmapScan s.kernelVaddr.vaddrBitmap 1 with
      | none =>
          cases (vaddrGet_kernel_none hscan).symm.trans hget
          cases hmalloc
          exact .inl hscan
      | some i =>
          cases (vaddrGet_kernel_some hscan).symm.trans hget
          obtain ⟨⟨done, s₃⟩, hloop, hmalloc⟩ := bind_ok hmalloc
          have hstep : mallocLoop .kernel 1 _ _ = _ := hloop
          rw [mallocLoop] at hstep
          split at hstep
          next hpalloc =>
            cases hstep
            cases hmalloc
            exact .inr (congrArg Prod.fst hpalloc)
          next hpalloc =>
            obtain ⟨s₄, -, hstep⟩ := bind_ok hstep
            cases hstep
            cases hmalloc

theorem newTask_null (h : getKernelPages 1 s = .ok (none, s')) : newTask s = .ok (0, s'.setPageDir 0 0) := by
  rw [newTask, h]
  rfl

/-- Without a page for the `taskStruct` there is none for the bitmap. -/
theorem processSpace_of_pcbNull (h : PcbNull s) {s₁ : Memory} (hnew : newTask s = .ok (t, s₁)) :
    processSpace t s₁ ≠ .ok s' := by
  obtain ⟨s₂, hpages⟩ := h
  cases (newTask_null hpages).symm.trans hnew
  have hstarved : Starved s₂ := starved_of_null hpages
  obtain ⟨s₃, hbits, -⟩ := Starved.getKernelPages (s := s₂.setPageDir 0 0) hstarved (n := 23) (by decide)
  intro hspace
  obtain ⟨s₄, hbitmap, -⟩ := bind_ok hspace
  rw [createUserVaddrBitmap_none 0 hbits] at hbitmap
  cases hbitmap

theorem processSpace_of_bitsNull (h : BitsNull s) {s₁ : Memory} (hnew : newTask s = .ok (t, s₁)) :
    processSpace t s₁ ≠ .ok s' := by
  obtain ⟨u, s₂, s₃, hnew', hbits⟩ := h
  cases hnew'.symm.trans hnew
  intro hspace
  obtain ⟨s₄, hbitmap, -⟩ := bind_ok hspace
  rw [createUserVaddrBitmap_none t hbits] at hbitmap
  cases hbitmap

/-- Without a page for the directory the thread gets `NULL`, and its descriptors are set up. -/
theorem processSpace_of_dirNull (h : DirNull s t s₁) {s₂ : Memory} (hnew : newTask s = .ok (t, s₂)) :
    processSpace t s₂ = blockDescInit (BitVec.ofNat 32 t + 68) (s₁.setPageDir t 0) := by
  obtain ⟨s₃, s₄, hnew', hbitmap, hpages⟩ := h
  cases hnew'.symm.trans hnew
  rw [processSpace, hbitmap, ok_bind, createPageDir, hpages]
  rfl

theorem toOption_eq_some {ε α : Type} {x : Except ε α} {y : α} (h : x.toOption = some y) : x = .ok y := by
  cases x with
  | error e => cases h
  | ok z => exact congrArg _ (Option.some.inj h)

theorem Threads.threadStart_some (h : a.threadStart priority = some (t, b)) :
    newTask a.s = .ok (t, b.s) ∧ HoloOS.threadStart t priority a.k = .ok b.k := by
  obtain ⟨⟨u, s⟩, hnew, h⟩ := Option.bind_eq_some_iff.1 h
  obtain ⟨k, hstart, h⟩ := Option.bind_eq_some_iff.1 h
  cases h
  exact ⟨toOption_eq_some hnew, toOption_eq_some hstart⟩

theorem Threads.processExecute_some (h : a.processExecute = some (t, b)) : ∃ s₁, newTask a.s = .ok (t, s₁) ∧
    processSpace t s₁ = .ok b.s ∧ HoloOS.processExecute t a.k = .ok b.k := by
  obtain ⟨⟨u, s⟩, hnew, h⟩ := Option.bind_eq_some_iff.1 h
  obtain ⟨s₁, hspace, h⟩ := Option.bind_eq_some_iff.1 h
  obtain ⟨k, hexecute, h⟩ := Option.bind_eq_some_iff.1 h
  cases h
  exact ⟨s, toOption_eq_some hnew, toOption_eq_some hspace, toOption_eq_some hexecute⟩

theorem startFailsCleanly_iff (h : SchedInv a.k ready) :
    StartFailsCleanly priority a ↔ ¬(PcbNull a.s ∧ 0 ∉ a.k.tasks) := by
  constructor
  · rintro hclean ⟨hnull, hnew⟩
    obtain ⟨s', hpages⟩ := id hnull
    obtain ⟨k', hrun, -, hinv⟩ := threadStart_inv h hnew priority
    refine not_addsNothing h hinv (hclean hnull 0 ⟨s'.setPageDir 0 0, k'⟩ ?_)
    rw [Threads.threadStart, newTask_null hpages]
    change ((HoloOS.threadStart 0 priority a.k).toOption.bind fun k => some _) = _
    rw [hrun]
    rfl
  · intro hno hnull t b hrun
    obtain ⟨s', hpages⟩ := id hnull
    obtain ⟨hnew, hstart⟩ := Threads.threadStart_some hrun
    obtain rfl : 0 = t := congrArg Prod.fst (Except.ok.inj ((newTask_null hpages).symm.trans hnew))
    exact absurd ⟨hnull, (threadStart_iff h).1 ⟨_, hstart⟩⟩ hno

theorem executeFailsCleanly_iff (h : SchedInv a.k ready) :
    ExecuteFailsCleanly a ↔ ¬∃ t s₁ s₂, DirNull a.s t s₁ ∧
      blockDescInit (BitVec.ofNat 32 t + 68) (s₁.setPageDir t 0) = .ok s₂ ∧ t ∉ a.k.tasks := by
  constructor
  · rintro hclean ⟨t, s₁, s₂, hdir, hdescs, hnew⟩
    obtain ⟨s₃, s₄, hpcb, -, -⟩ := id hdir
    obtain ⟨k', hrun, -, hinv⟩ := processExecute_inv h hnew
    refine not_addsNothing h hinv (hclean (.inr (.inr ⟨t, s₁, hdir⟩)) t ⟨s₂, k'⟩ ?_)
    rw [Threads.processExecute, hpcb]
    change ((processSpace t s₃).toOption.bind fun s => (HoloOS.processExecute t a.k).toOption.bind _) = _
    rw [processSpace_of_dirNull hdir hpcb, hdescs, hrun]
    rfl
  · intro hno hnull t b hrun
    obtain ⟨s₁, hpcb, hspace, hexecute⟩ := Threads.processExecute_some hrun
    rcases hnull with hnull | hnull | ⟨u, s₂, hdir⟩
    · exact absurd hspace (processSpace_of_pcbNull hnull hpcb)
    · exact absurd hspace (processSpace_of_bitsNull hnull hpcb)
    · obtain ⟨s₃, s₄, hpcb', -, -⟩ := id hdir
      cases hpcb'.symm.trans hpcb
      rw [processSpace_of_dirNull hdir hpcb] at hspace
      exact absurd ⟨_, _, _, hdir, hspace, (processExecute_iff h).1 ⟨_, hexecute⟩⟩ hno

/-- When a call returns `NULL`, `threadStart` enters a task all the same unless one is at address 0 already, and
`processExecute` does when the call was that for the page directory and the thread is a new one. -/
theorem creation_failsCleanly_iff (priority : Nat) (h : SchedReachable a.k) :
    (StartFailsCleanly priority a ↔ ¬(PcbNull a.s ∧ 0 ∉ a.k.tasks)) ∧
    (ExecuteFailsCleanly a ↔ ¬∃ t s₁ s₂, DirNull a.s t s₁ ∧
      blockDescInit (BitVec.ofNat 32 t + 68) (s₁.setPageDir t 0) = .ok s₂ ∧ t ∉ a.k.tasks) := by
  obtain ⟨ready, hinv⟩ := schedReachable_inv h
  exact ⟨startFailsCleanly_iff hinv, executeFailsCleanly_iff hinv⟩

/-- 2 MB of memory leave the pools empty. -/
def emptyPools : Memory := Memory.boot (fun _ => 0) 0x200000

theorem emptyPools_null : getKernelPages 1 emptyPools = .ok (none, emptyPools) := rfl

/-- The kernel after `threadSupportInit`. -/
def supportedKernel : Kernel := ((bootKernel.supported mainTask).inited mainTask 31).append .all (.allListTag mainTask)

theorem supportedKernel_reachable : SchedReachable supportedKernel :=
  ⟨mainTask, bootKernel, supportedKernel, threadSupportInit_eq mainTask bootKernel, .refl⟩

theorem emptyPools_noBitmap :
    getKernelPages 23 (emptyPools.setPageDir 0 0) = .ok (none, emptyPools.setPageDir 0 0) := rfl

/-- `threadStart` enters a task at address 0; `processExecute` stops. -/
theorem creation_failsCleanly_empty : ¬StartFailsCleanly 16 ⟨emptyPools, supportedKernel⟩ ∧
    ExecuteFailsCleanly ⟨emptyPools, supportedKernel⟩ := by
  obtain ⟨hstart, hexecute⟩ := creation_failsCleanly_iff (a := ⟨emptyPools, supportedKernel⟩) 16
    supportedKernel_reachable
  refine ⟨fun hclean => hstart.1 hclean ⟨⟨_, emptyPools_null⟩, by decide⟩, hexecute.2 ?_⟩
  rintro ⟨t, s₁, s₂, ⟨s₃, s₄, hpcb, hbitmap, -⟩, -⟩
  cases (newTask_null emptyPools_null).symm.trans hpcb
  rw [createUserVaddrBitmap_none 0 emptyPools_noBitmap] at hbitmap
  cases hbitmap

/-- The task at address 0 is on the ready list. -/
theorem threadStart_enters_null : PcbNull emptyPools ∧ SchedReachable supportedKernel ∧
    ∃ b, Threads.threadStart 16 ⟨emptyPools, supportedKernel⟩ = some (0, b) ∧
      Holds b.k.heap (klist .ready) [.generalTag 0] ∧ ¬AddsNothing supportedKernel b.k := by
  obtain ⟨k, hk, hinv⟩ := threadSupportInit_inv mainTask bootKernel
  obtain rfl : supportedKernel = k := Except.ok.inj ((threadSupportInit_eq mainTask bootKernel).symm.trans hk)
  obtain ⟨k', hrun, -, hinv'⟩ := threadStart_inv hinv (show 0 ∉ supportedKernel.tasks by decide) 16
  refine ⟨⟨_, emptyPools_null⟩, supportedKernel_reachable, ⟨emptyPools.setPageDir 0 0, k'⟩, ?_,
    hinv'.ready_holds, not_addsNothing hinv hinv'⟩
  rw [Threads.threadStart, newTask_null emptyPools_null]
  change ((HoloOS.threadStart 0 16 supportedKernel).toOption.bind fun k =>
    some ((0 : Tid), Threads.mk (emptyPools.setPageDir 0 0) k)) = _
  rw [hrun]
  rfl

end HoloOS
