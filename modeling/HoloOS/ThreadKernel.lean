import HoloOS.ListHeap
import Mathlib.Algebra.Group.Nat.Defs

/-! The thread layer of the kernel: `kernel/thread.c`, the list part of `processExecute`
(`kernel/process.c`) and the timer handler (`device/timer.c`). Code that runs with interrupts off
cannot be interleaved on the single CPU, so such a function is one state transformer. A run of
the code that cannot go on ends in a `Halt`. -/

namespace HoloOS

open Function

/-- A thread is named by the address of its `struct taskStruct`. -/
abbrev Tid := Nat

inductive TaskStatus where
  | running
  | ready
  | blocked
  | waiting
  | hanging
  | died
  deriving DecidableEq

inductive LockId where
  | named (n : Nat)
  | sem (n : Nat)
  | console
  | kernelPool
  | userPool
  deriving DecidableEq

inductive CondId where
  | named (n : Nat)
  | sem (n : Nat)
  deriving DecidableEq

/-- Every `struct list` of the thread layer. -/
inductive ListId where
  | ready
  | all
  | waiters (lock : LockId)
  | cond (cond : CondId)
  deriving DecidableEq

/-- The list nodes: two sentinels a list, two tags a thread. -/
inductive Node where
  | null
  | head (list : ListId)
  | tail (list : ListId)
  | generalTag (t : Tid)
  | allListTag (t : Tid)
  deriving DecidableEq

inductive Spin where
  | readyList
  | allList
  | threadTag
  | pid
  | waiters (lock : LockId)
  deriving DecidableEq

/-- Why the CPU makes no further progress: `panicSpin`, a spin lock that stays occupied with
interrupts off, a list walk that never meets the tail, a pointer to no thread. -/
inductive Halt where
  | panic
  | spin (lock : Spin)
  | loop
  | wild
  deriving DecidableEq

structure TaskStruct where
  status : TaskStatus
  pid : Nat
  priority : Nat
  ticks : Nat
  elapsedTicks : Nat

/-- The shared state of the thread layer. `tasks` are the pages handed out as `taskStruct`s; it
bounds the list walks. -/
structure Kernel where
  task : Tid → TaskStruct
  heap : ListHeap Node
  cur : Tid
  mainThread : Tid
  intr : Bool
  occupied : Spin → Bool
  threadTag : Node
  ticks : Nat
  nextPid : Nat
  tasks : List Tid

def klist (list : ListId) : KList Node := ⟨.head list, .tail list⟩

@[simp] theorem klist_head (list : ListId) : (klist list).head = .head list := rfl

@[simp] theorem klist_tail (list : ListId) : (klist list).tail = .tail list := rfl

/-- `ASSERT`, which is active in this build. -/
def kassert (condition : Bool) : Except Halt Unit :=
  if condition then .ok () else .error .panic

/-- `elem2entry(struct taskStruct, generalTag, node)`. -/
def elem2entry : Node → Except Halt Tid
  | .generalTag t => .ok t
  | _ => .error .wild

namespace Kernel

def setTask (k : Kernel) (t : Tid) (task : TaskStruct) : Kernel :=
  { k with task := update k.task t task }

def setStatus (k : Kernel) (t : Tid) (status : TaskStatus) : Kernel :=
  k.setTask t { k.task t with status := status }

def append (k : Kernel) (list : ListId) (node : Node) : Kernel :=
  { k with heap := listAppend k.heap (klist list) node }

def push (k : Kernel) (list : ListId) (node : Node) : Kernel :=
  { k with heap := listPush k.heap (klist list) node }

def remove (k : Kernel) (node : Node) : Kernel :=
  { k with heap := listRemove k.heap node }

end Kernel

/-- `spinlockAcquire` with interrupts off: it returns at once or never. -/
def spinlockAcquire (lock : Spin) (k : Kernel) : Except Halt Kernel :=
  if k.occupied lock then .error (.spin lock)
  else .ok { k with occupied := update k.occupied lock true }

def spinlockRelease (lock : Spin) (k : Kernel) : Kernel :=
  { k with occupied := update k.occupied lock false }

/-- `ASSERT(!listExist(list, node))`. -/
def assertNotExist (k : Kernel) (list : ListId) (node : Node) : Except Halt Unit :=
  match listExist (k.tasks.length + 1) k.heap (klist list) node with
  | none => .error .loop
  | some found => kassert (!found)

/-- `getKernelPages(1)`, called for a `taskStruct`, returns the page `task`. -/
def Kernel.handOut (k : Kernel) (task : Tid) : Kernel := { k with tasks := k.tasks ++ [task] }

/-- The assignments of `threadInit` before `allocatePid`. -/
def initStatus (task : Tid) (k : Kernel) : Kernel :=
  k.setStatus task (if task = k.mainThread then .running else .ready)

/-- The body of `allocatePid` between its spin lock calls: a 16-bit `++nextPid`. -/
def allocatePid (task : Tid) (k : Kernel) : Kernel :=
  { k with nextPid := (k.nextPid + 1) % 2 ^ 16 }.setTask task
    { k.task task with pid := (k.nextPid + 1) % 2 ^ 16 }

/-- The assignments of `threadInit` after `allocatePid`; `priority` and `ticks` are `uint8`. -/
def initSlice (task : Tid) (priority : Nat) (k : Kernel) : Kernel :=
  k.setTask task
    { k.task task with priority := priority % 2 ^ 8, ticks := priority % 2 ^ 8, elapsedTicks := 0 }

def threadInit (task : Tid) (priority : Nat) (k : Kernel) : Except Halt Kernel := do
  let k := initStatus task k
  let k ← spinlockAcquire .pid k
  let k := spinlockRelease .pid (allocatePid task k)
  return initSlice task priority k

/-- The section under `spin` in which a new thread's tag goes onto a list. -/
def enlist (spin : Spin) (list : ListId) (tag : Node) (k : Kernel) : Except Halt Kernel := do
  let k ← spinlockAcquire spin k
  assertNotExist k list tag
  return spinlockRelease spin (k.append list tag)

/-- The two sections at the end of `threadStart` and of `processExecute`. -/
def enlistThread (task : Tid) (k : Kernel) : Except Halt Kernel := do
  let k ← enlist .readyList .ready (.generalTag task) k
  enlist .allList .all (.allListTag task) k

/-- `threadStart`, `task` being the page that `getKernelPages(1)` returned. -/
def threadStart (task : Tid) (priority : Nat) (k : Kernel) : Except Halt Kernel := do
  let k ← threadInit task priority (k.handOut task)
  enlistThread task k

def defaultPrio : Nat := 16

/-- `processExecute`, all of its page allocations succeeding. -/
def processExecute (task : Tid) (k : Kernel) : Except Halt Kernel := do
  let k ← threadInit task defaultPrio (k.handOut task)
  let oldStatus := k.intr
  let k ← enlistThread task { k with intr := false }
  return { k with intr := oldStatus }

/-- The case of `schedule` in which the ticks of the current thread have run out. -/
def requeue (k : Kernel) : Except Halt Kernel :=
  if (k.task k.cur).status = .running then do
    let k ← enlist .readyList .ready (.generalTag k.cur) k
    let task := k.task k.cur
    return k.setTask k.cur { task with ticks := task.priority, status := .ready }
  else return k

/-- The rest of `schedule`: the first ready thread becomes the current one. -/
def dispatch (k : Kernel) : Except Halt Kernel := do
  let k ← spinlockAcquire .readyList k
  kassert (!listEmpty k.heap (klist .ready))
  let (tag, heap) := listPop k.heap (klist .ready)
  let k := spinlockRelease .readyList { k with heap := heap }
  let k ← spinlockAcquire .threadTag k
  let k := spinlockRelease .threadTag { k with threadTag := tag.getD .null }
  let next ← elem2entry k.threadTag
  return { k.setStatus next .running with cur := next }

def schedule (k : Kernel) : Except Halt Kernel := do
  kassert (!k.intr)
  let k ← requeue k
  dispatch k

/-- `threadBlock` up to the switch; the flag is restored when the thread runs again. -/
def threadBlock (status : TaskStatus) (k : Kernel) : Except Halt Kernel := do
  kassert (status = .blocked ∨ status = .running ∨ status = .hanging)
  let k := { k with intr := false }
  schedule (k.setStatus k.cur status)

/-- The section of `threadUnblock` under `threadReadyListLock`. -/
def wake (pthread : Tid) (k : Kernel) : Except Halt Kernel := do
  let k ← spinlockAcquire .readyList k
  if (k.task pthread).status ≠ .ready then
    assertNotExist k .ready (.generalTag pthread)
    return spinlockRelease .readyList
      ((k.push .ready (.generalTag pthread)).setStatus pthread .ready)
  else return spinlockRelease .readyList k

def threadUnblock (pthread : Tid) (k : Kernel) : Except Halt Kernel := do
  let oldStatus := k.intr
  let status := (k.task pthread).status
  kassert (status = .blocked ∨ status = .waiting ∨ status = .hanging)
  let k ← wake pthread { k with intr := false }
  return { k with intr := oldStatus }

/-- The assignments of `threadSupportInit`, with the thread that runs it as the main thread. -/
def Kernel.supported (k : Kernel) (main : Tid) : Kernel :=
  { k with heap := listInit .null (listInit .null k.heap (klist .ready)) (klist .all),
           mainThread := main, cur := main, tasks := [main], occupied := fun _ => false }

/-- `threadSupportInit` and `makeMainThread`; `MAIN_PRIO` is 31. -/
def threadSupportInit (main : Tid) (k : Kernel) : Except Halt Kernel := do
  let k ← threadInit main 31 (k.supported main)
  enlist .allList .all (.allListTag main) k

/-- `intrTimerHandler`, entered with interrupts off; `ticks` is a `uint8`. Its `ASSERT` on `stackMagic`, which nothing
else reads, is left out. -/
def intrTimerHandler (k : Kernel) : Except Halt Kernel :=
  let task := k.task k.cur
  let left := (task.ticks + 255) % 2 ^ 8
  let k := { k with ticks := (k.ticks + 1) % 2 ^ 32 }.setTask k.cur
    { task with elapsedTicks := (task.elapsedTicks + 1) % 2 ^ 32, ticks := left }
  if left = 0 then schedule k else .ok k

theorem spinlockAcquire_of_free {lock : Spin} {k : Kernel} (hfree : k.occupied lock = false) :
    spinlockAcquire lock k = .ok { k with occupied := update k.occupied lock true } := by
  rw [spinlockAcquire, hfree]
  rfl

/-- A section entered on a free spin lock leaves every spin lock as it was. -/
theorem update_update_free {occupied : Spin → Bool} {lock : Spin}
    (hfree : occupied lock = false) :
    update (update occupied lock true) lock false = occupied := by
  rw [update_idem, ← hfree, update_eq_self]

theorem assertNotExist_of_notMem {k : Kernel} {list : ListId} {node : Node} {xs : List Node}
    (hl : Holds k.heap (klist list) xs) (hlen : xs.length ≤ k.tasks.length) (hnot : node ∉ xs) :
    assertNotExist k list node = .ok () := by
  rw [assertNotExist, listExist_eq hl (by omega)]
  simp [hnot, kassert]

theorem enlist_of_notMem {k : Kernel} {spin : Spin} {list : ListId} {tag : Node} {xs : List Node}
    (hfree : k.occupied spin = false) (hl : Holds k.heap (klist list) xs)
    (hlen : xs.length ≤ k.tasks.length) (hnot : tag ∉ xs) :
    enlist spin list tag k = .ok (k.append list tag) := by
  have hassert : assertNotExist { k with occupied := update k.occupied spin true } list tag =
      .ok () := assertNotExist_of_notMem hl hlen hnot
  simp only [enlist, spinlockAcquire_of_free hfree, bind, Except.bind, hassert]
  simp only [spinlockRelease, Kernel.append, update_update_free hfree]
  rfl

/-- The state after `threadInit` with `pidLock` free. -/
def Kernel.inited (k : Kernel) (task : Tid) (priority : Nat) : Kernel :=
  initSlice task priority (allocatePid task (initStatus task k))

theorem threadInit_of_free {k : Kernel} (task : Tid) (priority : Nat)
    (hfree : k.occupied .pid = false) : threadInit task priority k = .ok (k.inited task priority) := by
  have hk : (initStatus task k).occupied .pid = false := hfree
  simp only [threadInit, spinlockAcquire_of_free hk, bind, Except.bind]
  simp only [pure, Except.pure, Kernel.inited, initSlice, allocatePid, spinlockRelease,
    Kernel.setTask, update_update_free hk]

theorem inited_status (k : Kernel) (task t : Tid) (priority : Nat) :
    ((k.inited task priority).task t).status =
      if t = task then (if task = k.mainThread then .running else .ready)
      else (k.task t).status := by
  by_cases ht : t = task
  · subst ht
    simp [Kernel.inited, initSlice, allocatePid, initStatus, Kernel.setTask, Kernel.setStatus]
  · simp [Kernel.inited, initSlice, allocatePid, initStatus, Kernel.setTask, Kernel.setStatus, ht]

theorem threadSupportInit_eq (main : Tid) (k : Kernel) : threadSupportInit main k =
    .ok (((k.supported main).inited main 31).append .all (.allListTag main)) := by
  have hall : Holds (k.supported main).heap (klist .all) [] := holds_listInit _ _ (by simp)
  have henlist : enlist .allList .all (.allListTag main) ((k.supported main).inited main 31) =
      .ok (((k.supported main).inited main 31).append .all (.allListTag main)) :=
    enlist_of_notMem rfl hall (by simp) (by simp)
  simp only [threadSupportInit, threadInit_of_free (k := k.supported main) main 31 rfl, bind,
    Except.bind]
  exact henlist

namespace Kernel

/-- The state after the first part of `schedule` on a running thread. -/
def requeued (k : Kernel) : Kernel :=
  (k.append .ready (.generalTag k.cur)).setTask k.cur
    { k.task k.cur with ticks := (k.task k.cur).priority, status := .ready }

/-- The state after `schedule` has switched to `next`, taken off the ready list. -/
def dispatched (k : Kernel) (next : Tid) : Kernel :=
  { (k.remove (.generalTag next)).setStatus next .running with
    threadTag := .generalTag next, cur := next }

end Kernel

theorem requeue_of_running {k : Kernel} {xs : List Node}
    (hrun : (k.task k.cur).status = .running) (hfree : k.occupied .readyList = false)
    (hl : Holds k.heap (klist .ready) xs) (hlen : xs.length ≤ k.tasks.length)
    (hnot : Node.generalTag k.cur ∉ xs) : requeue k = .ok k.requeued := by
  rw [requeue, if_pos hrun, enlist_of_notMem hfree hl hlen hnot]
  rfl

theorem requeue_of_not_running {k : Kernel} (hrun : (k.task k.cur).status ≠ .running) :
    requeue k = .ok k := if_neg hrun

theorem dispatch_cons {k : Kernel} {next : Tid} {xs : List Node}
    (hready : k.occupied .readyList = false) (htag : k.occupied .threadTag = false)
    (hl : Holds k.heap (klist .ready) (.generalTag next :: xs)) :
    dispatch k = .ok (k.dispatched next) := by
  have hne : listEmpty k.heap (klist .ready) = false := by
    rw [Bool.eq_false_iff]
    intro he
    simpa using (listEmpty_iff hl).1 he
  simp only [dispatch, spinlockAcquire, hready, bind, Except.bind, hne, Bool.not_false, kassert,
    if_true, Bool.false_eq_true, if_false, listPop_cons hl, spinlockRelease, Option.getD_some,
    update_update_free hready, htag, update_update_free htag, elem2entry]
  rfl

theorem dispatch_nil {k : Kernel} (hready : k.occupied .readyList = false)
    (hl : Holds k.heap (klist .ready) []) : dispatch k = .error .panic := by
  have he : listEmpty k.heap (klist .ready) = true := (listEmpty_iff hl).2 rfl
  simp only [dispatch, spinlockAcquire_of_free hready, bind, Except.bind, he, kassert,
    Bool.not_true, Bool.false_eq_true, if_false]

theorem dispatch_of_occupied {k : Kernel} {next : Tid} {xs : List Node}
    (hready : k.occupied .readyList = false) (htag : k.occupied .threadTag = true)
    (hl : Holds k.heap (klist .ready) (.generalTag next :: xs)) :
    dispatch k = .error (.spin .threadTag) := by
  have hne : listEmpty k.heap (klist .ready) = false := by
    rw [Bool.eq_false_iff]
    intro he
    simpa using (listEmpty_iff hl).1 he
  simp only [dispatch, spinlockAcquire, hready, bind, Except.bind, hne, Bool.not_false, kassert,
    if_true, Bool.false_eq_true, if_false, listPop_cons hl, spinlockRelease,
    update_update_free hready, htag]

/-- The state after `threadUnblock` of a thread that was off the ready list. -/
def Kernel.woken (k : Kernel) (pthread : Tid) : Kernel :=
  (k.push .ready (.generalTag pthread)).setStatus pthread .ready

theorem threadUnblock_of_blocked {k : Kernel} {pthread : Tid} {xs : List Node}
    (hstatus : (k.task pthread).status = .blocked ∨ (k.task pthread).status = .hanging)
    (hfree : k.occupied .readyList = false) (hl : Holds k.heap (klist .ready) xs)
    (hlen : xs.length ≤ k.tasks.length) (hnot : Node.generalTag pthread ∉ xs) :
    threadUnblock pthread k = .ok (k.woken pthread) := by
  have hassert : assertNotExist
      { k with intr := false, occupied := update k.occupied .readyList true } .ready
      (.generalTag pthread) = .ok () := assertNotExist_of_notMem hl hlen hnot
  rcases hstatus with hs | hs
  all_goals
    simp only [threadUnblock, wake, spinlockAcquire, hfree, bind, Except.bind, hs, kassert, hassert,
      Bool.false_eq_true, if_false, decide_true, if_true, true_or, or_true, reduceCtorEq, ne_eq,
      not_false_eq_true, spinlockRelease]
    simp only [pure, Except.pure, Kernel.push, Kernel.setStatus, Kernel.setTask, Kernel.woken,
      update_update_free hfree]

/-- The counters after a timer interrupt. -/
def Kernel.ticked (k : Kernel) : Kernel :=
  { k with ticks := (k.ticks + 1) % 2 ^ 32 }.setTask k.cur
    { k.task k.cur with elapsedTicks := ((k.task k.cur).elapsedTicks + 1) % 2 ^ 32,
                        ticks := ((k.task k.cur).ticks + 255) % 2 ^ 8 }

theorem intrTimerHandler_eq (k : Kernel) : intrTimerHandler k =
    if ((k.task k.cur).ticks + 255) % 2 ^ 8 = 0 then schedule k.ticked else .ok k.ticked := rfl

theorem bind_ok {ε α β : Type} {x : Except ε α} {f : α → Except ε β} {b : β}
    (h : x >>= f = .ok b) : ∃ a, x = .ok a ∧ f a = .ok b := by
  cases x with
  | error e => cases h
  | ok a => exact ⟨a, rfl, h⟩

theorem kassert_ok {condition : Bool} {u : Unit} (h : kassert condition = .ok u) :
    condition = true := by
  cases condition with
  | true => rfl
  | false => cases h

theorem spinlockAcquire_ok {lock : Spin} {k k' : Kernel} (h : spinlockAcquire lock k = .ok k') :
    k.occupied lock = false ∧ k' = { k with occupied := update k.occupied lock true } := by
  rw [spinlockAcquire] at h
  cases hfree : k.occupied lock with
  | true => rw [hfree] at h; cases h
  | false => rw [hfree] at h; cases h; exact ⟨rfl, rfl⟩

theorem enlist_ok {spin : Spin} {list : ListId} {tag : Node} {k k' : Kernel}
    (h : enlist spin list tag k = .ok k') :
    k.occupied spin = false ∧ k' = k.append list tag := by
  obtain ⟨k₁, hacq, h⟩ := bind_ok h
  obtain ⟨hfree, rfl⟩ := spinlockAcquire_ok hacq
  obtain ⟨_, -, h⟩ := bind_ok h
  cases h
  refine ⟨hfree, ?_⟩
  simp only [spinlockRelease, Kernel.append, update_update_free hfree]

theorem threadInit_ok {task : Tid} {priority : Nat} {k k' : Kernel}
    (h : threadInit task priority k = .ok k') : k' = k.inited task priority := by
  obtain ⟨k₁, hacq, -⟩ := bind_ok h
  obtain ⟨hfree, -⟩ := spinlockAcquire_ok hacq
  rw [threadInit_of_free (k := k) task priority hfree] at h
  exact (Except.ok.inj h).symm

theorem enlistThread_ok {task : Tid} {k k' : Kernel} (h : enlistThread task k = .ok k') :
    k' = (k.append .ready (.generalTag task)).append .all (.allListTag task) := by
  obtain ⟨k₁, hready, hall⟩ := bind_ok h
  rw [(enlist_ok hall).2, (enlist_ok hready).2]

theorem requeue_ok {k k' : Kernel} (h : requeue k = .ok k') :
    ((k.task k.cur).status = .running ∧ k.occupied .readyList = false ∧ k' = k.requeued) ∨
    ((k.task k.cur).status ≠ .running ∧ k' = k) := by
  rw [requeue] at h
  split at h
  case isTrue hrun =>
    obtain ⟨k₁, henlist, h⟩ := bind_ok h
    obtain ⟨hfree, rfl⟩ := enlist_ok henlist
    cases h
    exact Or.inl ⟨hrun, hfree, rfl⟩
  case isFalse hrun =>
    cases h
    exact Or.inr ⟨hrun, rfl⟩

theorem dispatch_fields {k k' : Kernel} (h : dispatch k = .ok k') : ∃ next heap tag,
    k' = { k.setStatus next .running with heap := heap, threadTag := tag, cur := next } := by
  obtain ⟨k₁, hacq, h⟩ := bind_ok h
  obtain ⟨hready, rfl⟩ := spinlockAcquire_ok hacq
  obtain ⟨_, -, h⟩ := bind_ok h
  obtain ⟨k₂, hacq, h⟩ := bind_ok h
  obtain ⟨htag, rfl⟩ := spinlockAcquire_ok hacq
  obtain ⟨next, -, h⟩ := bind_ok h
  have hocc : update (update (update (update k.occupied .readyList true) .readyList false)
      .threadTag true) .threadTag false = k.occupied :=
    (update_update_free htag).trans (update_update_free hready)
  cases h
  refine ⟨next, (listPop k.heap (klist .ready)).2,
    (listPop k.heap (klist .ready)).1.getD .null, ?_⟩
  exact congrArg (fun occupied => ({ k.setStatus next .running with
    heap := (listPop k.heap (klist .ready)).2, occupied := occupied, cur := next,
    threadTag := (listPop k.heap (klist .ready)).1.getD .null } : Kernel)) hocc

theorem schedule_ok {k k' : Kernel} (h : schedule k = .ok k') :
    k.intr = false ∧ ∃ k₁, requeue k = .ok k₁ ∧ dispatch k₁ = .ok k' := by
  obtain ⟨_, hassert, h⟩ := bind_ok h
  obtain ⟨k₁, hreq, h⟩ := bind_ok h
  exact ⟨by simpa using kassert_ok hassert, k₁, hreq, h⟩

/-- What `schedule` does outside of the lists: the next thread gets `TASK_RUNNING`, the current one
`TASK_READY` if it was running. -/
structure Switched (k k' : Kernel) : Prop where
  intr : k'.intr = false
  occupied : k'.occupied = k.occupied
  next : (k'.task k'.cur).status = .running
  cur : k.cur ≠ k'.cur → (k.task k.cur).status ≠ .running →
    (k'.task k.cur).status = (k.task k.cur).status
  others : ∀ t, t ≠ k.cur → t ≠ k'.cur → (k'.task t).status = (k.task t).status

theorem schedule_switched {k k' : Kernel} (h : schedule k = .ok k') : Switched k k' := by
  obtain ⟨hintr, k₁, hreq, hdispatch⟩ := schedule_ok h
  obtain ⟨next, heap, tag, rfl⟩ := dispatch_fields hdispatch
  rcases requeue_ok hreq with ⟨hrun, -, rfl⟩ | ⟨-, rfl⟩
  · refine ⟨hintr, rfl, ?_, fun _ hne => absurd hrun hne, fun t ht ht' => ?_⟩
    · simp [Kernel.setStatus, Kernel.setTask]
    · have ht'' : t ≠ next := ht'
      simp [Kernel.setStatus, Kernel.setTask, Kernel.requeued, Kernel.append, ht, ht'']
  · refine ⟨hintr, rfl, ?_, fun hne _ => ?_, fun t _ ht' => ?_⟩
    · simp [Kernel.setStatus, Kernel.setTask]
    · have hne' : k₁.cur ≠ next := hne
      simp [Kernel.setStatus, Kernel.setTask, hne']
    · have ht'' : t ≠ next := ht'
      simp [Kernel.setStatus, Kernel.setTask, ht'']

theorem threadUnblock_ok {pthread : Tid} {k k' : Kernel} (h : threadUnblock pthread k = .ok k') :
    (k.task pthread).status ≠ .ready ∧ k.occupied .readyList = false ∧ k' = k.woken pthread := by
  obtain ⟨_, hassert, h⟩ := bind_ok h
  have hstatus := kassert_ok hassert
  have hne : (k.task pthread).status ≠ .ready := by
    intro he
    simp [he] at hstatus
  obtain ⟨k₁, hwake, h⟩ := bind_ok h
  obtain ⟨k₂, hacq, hwake⟩ := bind_ok hwake
  obtain ⟨hfree, rfl⟩ := spinlockAcquire_ok hacq
  rw [if_pos hne] at hwake
  obtain ⟨_, -, hwake⟩ := bind_ok hwake
  cases hwake
  cases h
  refine ⟨hne, hfree, ?_⟩
  simp only [Kernel.push, Kernel.setStatus, Kernel.setTask, Kernel.woken, spinlockRelease,
    update_update_free hfree]

theorem bind_error {ε α β : Type} {x : Except ε α} {f : α → Except ε β} {e : ε}
    (h : x >>= f = .error e) : x = .error e ∨ ∃ a, x = .ok a ∧ f a = .error e := by
  cases x with
  | error e' => exact Or.inl (by cases h; rfl)
  | ok a => exact Or.inr ⟨a, rfl, h⟩

theorem kassert_ne_spin {condition : Bool} {s : Spin} : kassert condition ≠ .error (.spin s) := by
  cases condition <;> simp [kassert]

theorem assertNotExist_ne_spin {k : Kernel} {list : ListId} {node : Node} {s : Spin} :
    assertNotExist k list node ≠ .error (.spin s) := by
  rw [assertNotExist]
  split
  · simp
  · exact kassert_ne_spin

theorem elem2entry_ne_spin {node : Node} {s : Spin} : elem2entry node ≠ .error (.spin s) := by
  cases node <;> simp [elem2entry]

theorem spinlockAcquire_spin {lock s : Spin} {k : Kernel}
    (h : spinlockAcquire lock k = .error (.spin s)) : k.occupied s = true := by
  rw [spinlockAcquire] at h
  split at h
  case isTrue hocc =>
    cases h
    exact hocc
  case isFalse => cases h

theorem enlist_spin {spin s : Spin} {list : ListId} {tag : Node} {k : Kernel}
    (h : enlist spin list tag k = .error (.spin s)) : k.occupied s = true := by
  rcases bind_error h with hacq | ⟨k₁, -, h⟩
  · exact spinlockAcquire_spin hacq
  · rcases bind_error h with hassert | ⟨_, -, h⟩
    · exact absurd hassert assertNotExist_ne_spin
    · cases h

theorem requeue_spin {k : Kernel} {s : Spin} (h : requeue k = .error (.spin s)) :
    k.occupied s = true := by
  rw [requeue] at h
  split at h
  case isTrue =>
    rcases bind_error h with henlist | ⟨k₁, -, h⟩
    · exact enlist_spin henlist
    · cases h
  case isFalse => cases h

theorem dispatch_spin {k : Kernel} {s : Spin} (h : dispatch k = .error (.spin s)) :
    k.occupied s = true := by
  rcases bind_error h with hacq | ⟨k₁, hacq, h⟩
  · exact spinlockAcquire_spin hacq
  obtain ⟨hfree, rfl⟩ := spinlockAcquire_ok hacq
  rcases bind_error h with hassert | ⟨_, -, h⟩
  · exact absurd hassert kassert_ne_spin
  rcases bind_error h with htag | ⟨k₂, -, h⟩
  · have hocc := spinlockAcquire_spin htag
    simpa only [spinlockRelease, update_update_free hfree] using hocc
  rcases bind_error h with hentry | ⟨next, -, h⟩
  · exact absurd hentry elem2entry_ne_spin
  · cases h

/-- `schedule` spins only on a lock that was occupied when it was called. -/
theorem schedule_spin {k : Kernel} {s : Spin} (h : schedule k = .error (.spin s)) :
    k.occupied s = true := by
  rcases bind_error h with hassert | ⟨_, -, h⟩
  · exact absurd hassert kassert_ne_spin
  rcases bind_error h with hreq | ⟨k₁, hreq, h⟩
  · exact requeue_spin hreq
  have hocc := dispatch_spin h
  rcases requeue_ok hreq with ⟨-, -, rfl⟩ | ⟨-, rfl⟩
  · exact hocc
  · exact hocc

theorem threadUnblock_spin {pthread : Tid} {k : Kernel} {s : Spin}
    (h : threadUnblock pthread k = .error (.spin s)) : k.occupied s = true := by
  rcases bind_error h with hassert | ⟨_, -, h⟩
  · exact absurd hassert kassert_ne_spin
  rcases bind_error h with hwake | ⟨k₁, -, h⟩
  · rcases bind_error hwake with hacq | ⟨k₂, -, hwake⟩
    · exact (spinlockAcquire_spin hacq :)
    · split at hwake
      case isTrue =>
        rcases bind_error hwake with hassert | ⟨_, -, hwake⟩
        · exact absurd hassert assertNotExist_ne_spin
        · cases hwake
      case isFalse => cases hwake
  · cases h

end HoloOS
