import HoloOS.MemoryKernelSpace
import HoloOS.ThreadScheduler
import Mathlib.Data.List.Perm.Subperm

/-! Process identifiers. `allocatePid` counts with 16 bits and nothing in it keeps the count from going round. Every
thread keeps a page of the kernel heap for its `taskStruct`, and `memPoolInit` never makes a heap of 2 ^ 16 - 1
pages, since it counts the free pages with 16 bits and gives half of them to the kernel. -/

namespace HoloOS

open Function Paging

/-- Pages of the kernel heap that are taken in `s` are taken in `s'`. -/
structure Grows (s s' : Memory) : Prop where
  start : s'.kernelVaddr.vaddrStart = s.kernelVaddr.vaddrStart
  size : s'.kernelVaddr.vaddrBitmap.size = s.kernelVaddr.vaddrBitmap.size
  taken : ∀ i, bitmapTest s.kernelVaddr.vaddrBitmap i = true → bitmapTest s'.kernelVaddr.vaddrBitmap i = true

variable {s s' s₁ : Memory} {n : Nat} {v w : Word} {t : Tid}

theorem Grows.refl (s : Memory) : Grows s s := ⟨rfl, rfl, fun _ h => h⟩

theorem Grows.trans (h : Grows s s₁) (h' : Grows s₁ s') : Grows s s' :=
  ⟨h'.start.trans h.start, h'.size.trans h.size, fun i hi => h'.taken i (h.taken i hi)⟩

theorem grows_of_eq (h : s'.kernelVaddr = s.kernelVaddr) : Grows s s' := by
  refine ⟨?_, ?_, fun i hi => ?_⟩ <;> rw [h]
  exact hi

theorem store_kernelVaddr (h : s.store v w = .ok s') : s'.kernelVaddr = s.kernelVaddr := by
  obtain ⟨a, -, h⟩ := bind_ok h
  split at h
  · cases h
    rfl
  · obtain ⟨b, -, h⟩ := bind_ok h
    cases h
    rfl

theorem memsetLoop_kernelVaddr {val : BitVec 8} {fuel : Nat} (h : memsetLoop val fuel v n s = .ok s') :
    s'.kernelVaddr = s.kernelVaddr := by
  induction fuel generalizing v n s with
  | zero =>
      cases h
      rfl
  | succ fuel ih =>
      rw [memsetLoop] at h
      split at h
      · cases h
        rfl
      · obtain ⟨a, -, h⟩ := bind_ok h
        exact (ih h).trans rfl

theorem memset_kernelVaddr {val : BitVec 8} (h : memset v val n s = .ok s') : s'.kernelVaddr = s.kernelVaddr := by
  obtain ⟨-, -, h⟩ := bind_ok h
  exact memsetLoop_kernelVaddr h

theorem memcpyLoop_kernelVaddr {fuel : Nat} (h : memcpyLoop fuel v w n s = .ok s') :
    s'.kernelVaddr = s.kernelVaddr := by
  induction fuel generalizing v w n s with
  | zero =>
      cases h
      rfl
  | succ fuel ih =>
      rw [memcpyLoop] at h
      split at h
      · cases h
        rfl
      · obtain ⟨b, -, h⟩ := bind_ok h
        obtain ⟨a, -, h⟩ := bind_ok h
        exact (ih h).trans rfl

theorem memcpy_kernelVaddr (h : memcpy v w n s = .ok s') : s'.kernelVaddr = s.kernelVaddr := by
  obtain ⟨-, -, h⟩ := bind_ok h
  exact memcpyLoop_kernelVaddr h

theorem pageTableAdd_kernelVaddr (h : pageTableAdd v w s = .ok s') : s'.kernelVaddr = s.kernelVaddr := by
  have hlast : ∀ s₁ : Memory, (do
      let pte ← s₁.load (ptePtr v)
      massert (!present pte) .pte
      s₁.store (ptePtr v) (w ||| 7#32)) = .ok s' → s'.kernelVaddr = s₁.kernelVaddr := by
    intro s₁ h
    obtain ⟨pte, -, h⟩ := bind_ok h
    obtain ⟨-, -, h⟩ := bind_ok h
    exact store_kernelVaddr h
  obtain ⟨pde, -, h⟩ := bind_ok h
  dsimp only at h
  split at h
  · exact hlast s h
  · obtain ⟨s₂, hstore, h⟩ := bind_ok h
    obtain ⟨s₃, hclear, h⟩ := bind_ok h
    have hentry : s₂.kernelVaddr = s.kernelVaddr := (store_kernelVaddr hstore).trans rfl
    exact (hlast s₃ h).trans ((memset_kernelVaddr hclear).trans hentry)

theorem mallocLoop_kernelVaddr {pf : PoolFlags} {done : Bool} (h : mallocLoop pf n v s = .ok (done, s')) :
    s'.kernelVaddr = s.kernelVaddr := by
  induction n generalizing v s with
  | zero =>
      cases h
      rfl
  | succ n ih =>
      rw [mallocLoop] at h
      split at h
      · cases h
        rfl
      · obtain ⟨s₁, hadd, h⟩ := bind_ok h
        refine (ih h).trans ((pageTableAdd_kernelVaddr hadd).trans ?_)
        cases pf <;> rfl

/-- What `vaddrGet` takes of the kernel heap. -/
structure Takes (s s' : Memory) (n : Nat) (p : Word) (i : Nat) : Prop where
  fits : i + n ≤ s.kernelVaddr.vaddrBitmap.size * 8
  address : p = s.kernelVaddr.vaddrStart + BitVec.ofNat 32 (i * 4096)
  free : ∀ k < n, bitmapTest s.kernelVaddr.vaddrBitmap (i + k) = false
  taken : ∀ k < n, bitmapTest s'.kernelVaddr.vaddrBitmap (i + k) = true

theorem vaddrGet_grows {r : Option Word} (hn : 0 < n) (h : vaddrGet .kernel n s = .ok (r, s')) :
    Grows s s' ∧ ∀ p, r = some p → ∃ i, Takes s s' n p i := by
  unfold vaddrGet at h
  split at h
  · cases h
    exact ⟨Grows.refl s, fun p hp => by cases hp⟩
  · rename_i i hscan
    obtain ⟨⟨hfits, hclear⟩, -⟩ := bitmapScan_some hn hscan
    obtain ⟨-, -, h⟩ := bind_ok h
    cases h
    have htest : ∀ j, bitmapTest (s.setVaddrBitmap .kernel
        (bitmapSetRun (s.vaddr .kernel).vaddrBitmap i true n)).kernelVaddr.vaddrBitmap j =
          if i ≤ j ∧ j < i + n then true else bitmapTest s.kernelVaddr.vaddrBitmap j :=
      fun j => bitmapTest_bitmapSetRun s.kernelVaddr.vaddrBitmap i n j true
    refine ⟨⟨rfl, bitmapSetRun_size _ _ _ _, fun j hj => ?_⟩, fun p hp => ⟨i, hfits, (Option.some.inj hp).symm, ?_, ?_⟩⟩
    · rw [htest, hj, ite_self]
    · exact fun k hk => hclear (i + k) (Nat.le_add_right _ _) (by omega)
    · exact fun k hk => by rw [htest, if_pos ⟨Nat.le_add_right _ _, by omega⟩]

/-- A call of `getKernelPages` that returns pages has taken pages that were free. -/
theorem getKernelPages_grows {r : Option Word} (hn : 0 < n) (h : getKernelPages n s = .ok (r, s')) :
    Grows s s' ∧ ∀ p, r = some p → ∃ i, Takes s s' n p i := by
  obtain ⟨⟨r₁, s₁⟩, hmalloc, h⟩ := bind_ok h
  have hpages : Grows s s₁ ∧ ∀ p, r₁ = some p → ∃ i, Takes s s₁ n p i := by
    obtain ⟨-, -, hmalloc⟩ := bind_ok hmalloc
    obtain ⟨⟨r₂, s₂⟩, hget, hmalloc⟩ := bind_ok hmalloc
    obtain ⟨hgrows, htakes⟩ := vaddrGet_grows hn hget
    cases r₂ with
    | none =>
        cases hmalloc
        exact ⟨hgrows, htakes⟩
    | some p =>
        obtain ⟨⟨done, s₃⟩, hloop, hmalloc⟩ := bind_ok hmalloc
        cases hmalloc
        have hsame := mallocLoop_kernelVaddr hloop
        refine ⟨hgrows.trans (grows_of_eq hsame), fun q hq => ?_⟩
        obtain rfl : p = q := by
          split at hq
          · exact Option.some.inj hq
          · cases hq
        obtain ⟨i, hi⟩ := htakes p rfl
        exact ⟨i, hi.fits, hi.address, hi.free, fun k hk => by rw [hsame]; exact hi.taken k hk⟩
  cases r₁ with
  | none =>
      cases h
      exact hpages
  | some p =>
      obtain ⟨s₂, hclear, h⟩ := bind_ok h
      cases h
      have hsame := memset_kernelVaddr hclear
      refine ⟨hpages.1.trans (grows_of_eq hsame), fun q hq => ?_⟩
      obtain ⟨i, hi⟩ := hpages.2 q hq
      exact ⟨i, hi.fits, hi.address, hi.free, fun k hk => by rw [hsame]; exact hi.taken k hk⟩

theorem listInit_kernelVaddr (h : s.listInit v = .ok s') : s'.kernelVaddr = s.kernelVaddr := by
  obtain ⟨s₁, h₁, h⟩ := bind_ok h
  obtain ⟨s₂, h₂, h⟩ := bind_ok h
  obtain ⟨s₃, h₃, h⟩ := bind_ok h
  exact (store_kernelVaddr h).trans ((store_kernelVaddr h₃).trans ((store_kernelVaddr h₂).trans (store_kernelVaddr h₁)))

theorem blockDescLoop_kernelVaddr (h : blockDescLoop n v w s = .ok s') : s'.kernelVaddr = s.kernelVaddr := by
  induction n generalizing v w s with
  | zero =>
      cases h
      rfl
  | succ n ih =>
      obtain ⟨s₁, hsize, h⟩ := bind_ok h
      obtain ⟨s₂, hcount, h⟩ := bind_ok h
      obtain ⟨s₃, hlist, h⟩ := bind_ok h
      exact (ih h).trans ((listInit_kernelVaddr hlist).trans
        ((store_kernelVaddr hcount).trans (store_kernelVaddr hsize)))

theorem createUserVaddrBitmap_grows (h : createUserVaddrBitmap t s = .ok s') : Grows s s' := by
  obtain ⟨⟨bits, s₁⟩, hpages, h⟩ := bind_ok h
  obtain ⟨-, -, h⟩ := bind_ok h
  cases h
  exact (getKernelPages_grows (by decide) hpages).1.trans (grows_of_eq rfl)

theorem createPageDir_grows {r : Option Word} (h : createPageDir s = .ok (r, s')) : Grows s s' := by
  obtain ⟨⟨p, s₁⟩, hpages, h⟩ := bind_ok h
  have hgrows := (getKernelPages_grows Nat.one_pos hpages).1
  cases p with
  | none =>
      cases h
      exact hgrows
  | some p =>
      obtain ⟨s₂, hcopy, h⟩ := bind_ok h
      obtain ⟨a, -, h⟩ := bind_ok h
      obtain ⟨s₃, hself, h⟩ := bind_ok h
      cases h
      exact hgrows.trans (grows_of_eq ((store_kernelVaddr hself).trans (memcpy_kernelVaddr hcopy)))

theorem processSpace_grows (h : processSpace t s = .ok s') : Grows s s' := by
  obtain ⟨s₁, hbitmap, h⟩ := bind_ok h
  obtain ⟨⟨dir, s₂⟩, hdir, h⟩ := bind_ok h
  have hdescs : s'.kernelVaddr = s₂.kernelVaddr := (blockDescLoop_kernelVaddr h).trans rfl
  exact (createUserVaddrBitmap_grows hbitmap).trans ((createPageDir_grows hdir).trans (grows_of_eq hdescs))

/-- A `taskStruct` gets a page of its own. -/
theorem newTask_grows (h : newTask s = .ok (t, s')) (ht : t ≠ 0) :
    Grows s s' ∧ ∃ p i, p.toNat = t ∧ Takes s s' 1 p i := by
  obtain ⟨⟨p, s₁⟩, hpages, h⟩ := bind_ok h
  cases h
  obtain ⟨hgrows, htakes⟩ := getKernelPages_grows Nat.one_pos hpages
  cases p with
  | none => exact absurd rfl ht
  | some p =>
      obtain ⟨i, hi⟩ := htakes p rfl
      exact ⟨hgrows.trans (grows_of_eq rfl), p, i, rfl, hi.fits, hi.address, hi.free, hi.taken⟩

/-- `task` has been given the next pid; no other pid has changed. -/
structure Registers (k k' : Kernel) (task : Tid) : Prop where
  tasks : k'.tasks = k.tasks ++ [task]
  nextPid : k'.nextPid = (k.nextPid + 1) % 2 ^ 16
  pid : ∀ t, (k'.task t).pid = if t = task then (k.nextPid + 1) % 2 ^ 16 else (k.task t).pid

variable {k k' : Kernel} {task : Tid} {priority : Nat}

theorem inited_pid (k : Kernel) (task t : Tid) (priority : Nat) :
    ((k.inited task priority).task t).pid = if t = task then (k.nextPid + 1) % 2 ^ 16 else (k.task t).pid := by
  by_cases ht : t = task
  · subst ht
    simp [Kernel.inited, initSlice, allocatePid, initStatus, Kernel.setTask, Kernel.setStatus]
  · simp [Kernel.inited, initSlice, allocatePid, initStatus, Kernel.setTask, Kernel.setStatus, ht]

theorem threadStart_registers (h : threadStart task priority k = .ok k') : Registers k k' task := by
  obtain ⟨k₁, hinit, hlists⟩ := bind_ok h
  rw [enlistThread_ok hlists, threadInit_ok hinit]
  exact ⟨rfl, rfl, fun t => inited_pid (k.handOut task) task t priority⟩

theorem processExecute_registers (h : processExecute task k = .ok k') : Registers k k' task := by
  obtain ⟨k₁, hinit, h⟩ := bind_ok h
  obtain ⟨k₂, hlists, h⟩ := bind_ok h
  cases h
  rw [enlistThread_ok hlists, threadInit_ok hinit]
  exact ⟨rfl, rfl, fun t => inited_pid (k.handOut task) task t defaultPrio⟩

/-- The memory and the thread layer. -/
structure Threads where
  s : Memory
  k : Kernel

/-- What other code does: it frees no page of a `taskStruct` and writes no pid. -/
structure Elsewhere (a b : Threads) : Prop where
  start : b.s.kernelVaddr.vaddrStart = a.s.kernelVaddr.vaddrStart
  size : b.s.kernelVaddr.vaddrBitmap.size = a.s.kernelVaddr.vaddrBitmap.size
  taken : ∀ i, 0xc0100000 + i * 4096 ∈ a.k.tasks → bitmapTest a.s.kernelVaddr.vaddrBitmap i = true →
    bitmapTest b.s.kernelVaddr.vaddrBitmap i = true
  tasks : b.k.tasks = a.k.tasks
  nextPid : b.k.nextPid = a.k.nextPid
  pid : ∀ t ∈ a.k.tasks, (b.k.task t).pid = (a.k.task t).pid

/-- A call of `threadStart` or of `processExecute` whose page allocations succeed, or a step of other code. -/
inductive Threads.Step (a : Threads) : Threads → Prop
  | threadStart {t : Tid} {priority : Nat} {s' : Memory} {k' : Kernel} (ht : t ≠ 0)
      (hpage : newTask a.s = .ok (t, s')) (hcall : threadStart t priority a.k = .ok k') : Step a ⟨s', k'⟩
  | processExecute {t : Tid} {b : Word} {s₁ s₂ s' : Memory} {k' : Kernel} (ht : t ≠ 0)
      (hpage : newTask a.s = .ok (t, s₁)) (hbits : getKernelPages 23 s₁ = .ok (some b, s₂))
      (hspace : processSpace t s₁ = .ok s') (hdir : s'.IsProcess t)
      (hcall : processExecute t a.k = .ok k') : Step a ⟨s', k'⟩
  | other {b : Threads} (h : Elsewhere a b) : Step a b

/-- The main thread after `threadSupportInit` and `memInit`. The static `nextPid` starts at 0. -/
def Threads.Started (memCapacity : Word) (a : Threads) : Prop :=
  (∃ m, a.s = Memory.boot m memCapacity) ∧ ∃ k : Kernel, k.nextPid = 0 ∧ threadSupportInit mainTask k = .ok a.k

def Threads.Reached (memCapacity : Word) (a : Threads) : Prop :=
  ∃ a₀ : Threads, a₀.Started memCapacity ∧ Relation.ReflTransGen Threads.Step a₀ a

/-- The pid of a thread is its number, and every thread but the main one has a page of the kernel heap. -/
structure Numbered (memCapacity : Word) (a : Threads) : Prop where
  start : a.s.kernelVaddr.vaddrStart = 0xc0100000
  size : a.s.kernelVaddr.vaddrBitmap.size = (kernelFreePages memCapacity).toNat / 8
  nodup : a.k.tasks.Nodup
  pages : ∀ t ∈ a.k.tasks, t ≠ mainTask → ∃ i < a.s.kernelVaddr.vaddrBitmap.size * 8, t = 0xc0100000 + i * 4096 ∧
    bitmapTest a.s.kernelVaddr.vaddrBitmap i = true
  pids : a.k.tasks.map (fun t => (a.k.task t).pid) = List.range' 1 a.k.tasks.length
  nextPid : a.k.nextPid = a.k.tasks.length

variable {a b : Threads} {memCapacity : Word}

theorem kernelFreePages_half (memCapacity : Word) : (kernelFreePages memCapacity).toNat < 2 ^ 15 := by
  have hall := (((memCapacity - (0x100000 + 4096 * 256)) / 4096).setWidth 16).isLt
  rw [kernelFreePages, BitVec.toNat_udiv, show (2 : BitVec 16).toNat = 2 from rfl]
  omega

/-- There are no more threads than pages of the kernel heap and the main thread. -/
theorem Numbered.length_le (h : Numbered memCapacity a) :
    a.k.tasks.length ≤ (kernelFreePages memCapacity).toNat + 1 := by
  have hsub : a.k.tasks ⊆ mainTask ::
      (List.range (a.s.kernelVaddr.vaddrBitmap.size * 8)).map fun i => 0xc0100000 + i * 4096 := by
    intro t ht
    by_cases hmain : t = mainTask
    · rw [hmain]
      exact List.mem_cons_self
    · obtain ⟨i, hi, rfl, -⟩ := h.pages t ht hmain
      exact List.mem_cons_of_mem _ (List.mem_map.2 ⟨i, List.mem_range.2 hi, rfl⟩)
  have hlen := (h.nodup.subperm hsub).length_le
  rw [List.length_cons, List.length_map, List.length_range, h.size] at hlen
  omega

/-- A page that is taken lies in the kernel heap, above the page of the main thread. -/
theorem Numbered.address (h : Numbered memCapacity a) {p : Word} {i : Nat} (htakes : Takes a.s s₁ 1 p i) :
    p.toNat = 0xc0100000 + i * 4096 ∧ p.toNat ≠ mainTask := by
  have hfits := htakes.fits
  have hhalf := kernelFreePages_half memCapacity
  have hsize := h.size
  have haddr : p.toNat = 0xc0100000 + i * 4096 := by
    rw [htakes.address, h.start, BitVec.toNat_add, BitVec.toNat_ofNat,
      show (0xc0100000 : Word).toNat = 0xc0100000 from rfl]
    omega
  refine ⟨haddr, ?_⟩
  unfold mainTask
  omega

/-- A thread gets a page that no thread has, and the next number. -/
theorem Numbered.create (h : Numbered memCapacity a) {p : Word} {i : Nat} (hp : p.toNat = t)
    (htakes : Takes a.s s₁ 1 p i) (hgrows : Grows a.s s₁) (hafter : Grows s₁ b.s) (hreg : Registers a.k b.k t) :
    Numbered memCapacity b := by
  subst hp
  obtain ⟨haddr, hmain⟩ := h.address htakes
  have hall := hgrows.trans hafter
  have hhalf := kernelFreePages_half memCapacity
  have hnew : p.toNat ∉ a.k.tasks := by
    intro ht
    obtain ⟨j, -, hj, htaken⟩ := h.pages p.toNat ht hmain
    obtain rfl : i = j := by
      have hsum : 0xc0100000 + i * 4096 = 0xc0100000 + j * 4096 := haddr.symm.trans hj
      omega
    have hclear := htakes.free 0 Nat.one_pos
    rw [Nat.add_zero, htaken] at hclear
    cases hclear
  have hnext : (a.k.nextPid + 1) % 2 ^ 16 = a.k.tasks.length + 1 := by
    have hlen := h.length_le
    rw [h.nextPid]
    exact Nat.mod_eq_of_lt (by omega)
  refine ⟨hall.start.trans h.start, hall.size.trans h.size, ?_, ?_, ?_, ?_⟩
  · rw [hreg.tasks]
    refine List.nodup_append.2 ⟨h.nodup, List.nodup_singleton _, fun u hu w hw hne => hnew ?_⟩
    rw [← List.mem_singleton.1 hw, ← hne]
    exact hu
  · intro u hu hne
    rw [hreg.tasks] at hu
    rw [hall.size]
    rcases List.mem_append.1 hu with hu | hu
    · obtain ⟨j, hj, haddr', htaken⟩ := h.pages u hu hne
      exact ⟨j, hj, haddr', hall.taken j htaken⟩
    · obtain rfl := List.mem_singleton.1 hu
      exact ⟨i, htakes.fits, haddr, hafter.taken i (htakes.taken 0 Nat.one_pos)⟩
  · have hold : a.k.tasks.map (fun u => (b.k.task u).pid) = a.k.tasks.map fun u => (a.k.task u).pid := by
      refine List.map_congr_left fun u hu => ?_
      have hne : u ≠ p.toNat := fun he => hnew (by rw [← he]; exact hu)
      rw [hreg.pid, if_neg hne]
    rw [hreg.tasks, List.map_append, hold, h.pids, List.map_singleton, hreg.pid, if_pos rfl, hnext,
      List.length_append, List.length_singleton, List.range'_concat, Nat.one_mul, Nat.add_comm 1]
  · rw [hreg.nextPid, hreg.tasks, hnext, List.length_append, List.length_singleton]

theorem Numbered.elsewhere (h : Numbered memCapacity a) (hstep : Elsewhere a b) : Numbered memCapacity b := by
  refine ⟨hstep.start.trans h.start, hstep.size.trans h.size, ?_, ?_, ?_, ?_⟩
  · rw [hstep.tasks]
    exact h.nodup
  · intro t ht hne
    rw [hstep.tasks] at ht
    obtain ⟨i, hi, rfl, htaken⟩ := h.pages t ht hne
    exact ⟨i, by rw [hstep.size]; exact hi, rfl, hstep.taken i ht htaken⟩
  · rw [hstep.tasks, ← h.pids]
    exact List.map_congr_left hstep.pid
  · rw [hstep.nextPid, hstep.tasks]
    exact h.nextPid

theorem Numbered.step (h : Numbered memCapacity a) (hstep : Threads.Step a b) : Numbered memCapacity b := by
  cases hstep with
  | threadStart ht hpage hcall =>
      obtain ⟨hgrows, p, i, hp, htakes⟩ := newTask_grows hpage ht
      exact h.create hp htakes hgrows (Grows.refl _) (threadStart_registers hcall)
  | processExecute ht hpage _ hspace _ hcall =>
      obtain ⟨hgrows, p, i, hp, htakes⟩ := newTask_grows hpage ht
      exact h.create hp htakes hgrows (processSpace_grows hspace) (processExecute_registers hcall)
  | other hother => exact h.elsewhere hother

theorem Threads.Started.numbered (h : a.Started memCapacity) : Numbered memCapacity a := by
  obtain ⟨⟨m, hs⟩, k, hpid, hk⟩ := h
  rw [threadSupportInit_eq] at hk
  have hk := Except.ok.inj hk
  refine ⟨by rw [hs]; rfl, by rw [hs]; exact boot_vaddrSize m memCapacity, ?_, ?_, ?_, ?_⟩
  · rw [← hk]
    exact List.nodup_singleton mainTask
  · intro t ht hne
    rw [← hk] at ht
    exact absurd (List.mem_singleton.1 ht) hne
  · rw [← hk]
    change [(((k.supported mainTask).inited mainTask 31).task mainTask).pid] = [1]
    rw [inited_pid, if_pos rfl, show (k.supported mainTask).nextPid = 0 from hpid, Nat.zero_add]
    rfl
  · rw [← hk]
    change (k.nextPid + 1) % 2 ^ 16 = 1
    rw [hpid, Nat.zero_add]
    rfl

theorem Threads.Reached.numbered (h : a.Reached memCapacity) : Numbered memCapacity a := by
  obtain ⟨a₀, hstart, hrun⟩ := h
  induction hrun with
  | refl => exact hstart.numbered
  | tail _ hstep ih => exact ih.step hstep

/-- All threads ever created have different pids that are not 0: `nextPid` is their number, and the kernel pool has
no frame for the `taskStruct` of a further one long before it goes round. -/
theorem pids_unique (h : a.Reached memCapacity) :
    a.k.tasks.Nodup ∧ (a.k.tasks.map fun t => (a.k.task t).pid).Nodup ∧ (∀ t ∈ a.k.tasks, (a.k.task t).pid ≠ 0) ∧
      a.k.nextPid = a.k.tasks.length ∧ a.k.tasks.length ≤ (kernelFreePages memCapacity).toNat + 1 := by
  have hnum := h.numbered
  refine ⟨hnum.nodup, ?_, fun t ht => ?_, hnum.nextPid, hnum.length_le⟩
  · rw [hnum.pids]
    exact List.nodup_range'
  · have hmem : (a.k.task t).pid ∈ List.range' 1 a.k.tasks.length := by
      rw [← hnum.pids]
      exact List.mem_map.2 ⟨t, ht, rfl⟩
    exact Nat.ne_of_gt (List.mem_range'_1.1 hmem).1

/-- The main thread and one process. -/
theorem pids_unique_process : ∃ (t : Tid) (a : Threads), a.k.tasks = [mainTask, t] ∧
    (a.k.tasks.map fun t => (a.k.task t).pid).Nodup ∧ ∀ t ∈ a.k.tasks, (a.k.task t).pid ≠ 0 := by
  obtain ⟨-, alloc, hstep, -⟩ := start_create
  obtain ⟨k, hk, hinv⟩ := threadSupportInit_inv mainTask bootKernel
  have htasks : k.tasks = [mainTask] := by
    rw [threadSupportInit_eq] at hk
    rw [← Except.ok.inj hk]
    rfl
  cases hstep with
  | @processExecute t b s₁ s₂ s' _ ht hpcb hbits hspace hdir =>
      obtain ⟨-, p, i, rfl, htakes⟩ := newTask_grows hpcb ht
      have hstart : Threads.Started 0x2000000 ⟨Memory.boot (pageSetup fun _ => 0) 0x2000000, k⟩ :=
        ⟨⟨_, rfl⟩, _, rfl, hk⟩
      have hnew : p.toNat ∉ k.tasks := by
        rw [htasks]
        exact fun hmem => (hstart.numbered.address htakes).2 (List.mem_singleton.1 hmem)
      obtain ⟨k', hcall, htasks', -⟩ := processExecute_inv hinv hnew
      have hrun : Threads.Reached 0x2000000 ⟨s', k'⟩ :=
        ⟨_, hstart, .single (.processExecute ht hpcb hbits hspace hdir hcall)⟩
      obtain ⟨-, hdistinct, hnonzero, -⟩ := pids_unique hrun
      exact ⟨p.toNat, ⟨s', k'⟩, htasks'.trans (by rw [htasks]; rfl), hdistinct, hnonzero⟩

end HoloOS
