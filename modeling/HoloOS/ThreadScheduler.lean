import HoloOS.ThreadKernel
import Mathlib.Logic.Relation
import Mathlib.Data.List.Perm.Subperm

/-! Scheduling operations taken as one step each. The invariant ties the two lists to the status
fields: the ready list holds the ready threads, the all-thread list every page handed out as a
`taskStruct`, and the current thread is the running one. -/

namespace HoloOS

open Function Linked

inductive SchedOp where
  | start (task : Tid) (priority : Nat)
  | execute (task : Tid)
  | block (status : TaskStatus)
  | unblock (pthread : Tid)
  | tick

def schedStep (k : Kernel) : SchedOp → Except Halt Kernel
  | .start task priority => threadStart task priority k
  | .execute task => processExecute task k
  | .block status => threadBlock status k
  | .unblock pthread => threadUnblock pthread k
  | .tick => intrTimerHandler { k with intr := false }

/-- A new thread's page is none in use; a thread that blocks leaves another one ready; only a
blocked or hanging thread is woken. -/
def SchedOp.Allowed (k : Kernel) : SchedOp → Prop
  | .start task _ => task ∉ k.tasks
  | .execute task => task ∉ k.tasks
  | .block status => (status = .blocked ∨ status = .running ∨ status = .hanging) ∧
      (status ≠ .running → listEmpty k.heap (klist .ready) = false)
  | .unblock pthread => pthread ∈ k.tasks ∧
      ((k.task pthread).status = .blocked ∨ (k.task pthread).status = .hanging)
  | .tick => True

/-- One allowed operation that ends. -/
def SchedStep (k k' : Kernel) : Prop := ∃ op, op.Allowed k ∧ schedStep k op = .ok k'

/-- The states reached from the end of `threadSupportInit`. -/
def SchedReachable (k : Kernel) : Prop :=
  ∃ main k₀ k₁, threadSupportInit main k₀ = .ok k₁ ∧ Relation.ReflTransGen SchedStep k₁ k

def generalTags (ts : List Tid) : List Node := ts.map .generalTag

def allListTags (ts : List Tid) : List Node := ts.map .allListTag

/-- The part that holds inside `schedule` too. -/
structure SchedLists (k : Kernel) (ready : List Tid) : Prop where
  ready_holds : Holds k.heap (klist .ready) (generalTags ready)
  all_holds : Holds k.heap (klist .all) (allListTags k.tasks)
  ready_iff : ∀ t, t ∈ ready ↔ t ∈ k.tasks ∧ (k.task t).status = .ready
  cur_mem : k.cur ∈ k.tasks
  main_mem : k.mainThread ∈ k.tasks
  free : ∀ lock, k.occupied lock = false

structure SchedInv (k : Kernel) (ready : List Tid) : Prop extends SchedLists k ready where
  running_iff : ∀ t ∈ k.tasks, (k.task t).status = .running ↔ t = k.cur

/-- Inside `schedule`, the old thread given up and the new one not yet chosen. -/
structure Switching (k : Kernel) (ready : List Tid) : Prop extends SchedLists k ready where
  none_running : ∀ t ∈ k.tasks, (k.task t).status ≠ .running

@[simp] theorem generalTag_mem_generalTags {t : Tid} {ts : List Tid} :
    Node.generalTag t ∈ generalTags ts ↔ t ∈ ts := by
  simp [generalTags]

@[simp] theorem allListTag_mem_allListTags {t : Tid} {ts : List Tid} :
    Node.allListTag t ∈ allListTags ts ↔ t ∈ ts := by
  simp [allListTags]

@[simp] theorem length_generalTags (ts : List Tid) : (generalTags ts).length = ts.length := by
  simp [generalTags]

@[simp] theorem length_allListTags (ts : List Tid) : (allListTags ts).length = ts.length := by
  simp [allListTags]

theorem generalTag_outside (list : ListId) {t : Tid} {ts : List Tid} (hnot : t ∉ ts) :
    Outside (klist list) (generalTags ts) (.generalTag t) := by
  simp [Outside, hnot]

theorem allListTag_outside (list : ListId) {t : Tid} {ts : List Tid} (hnot : t ∉ ts) :
    Outside (klist list) (allListTags ts) (.allListTag t) := by
  simp [Outside, hnot]

theorem generalTag_outside_all {list : ListId} (t : Tid) (ts : List Tid) :
    Outside (klist list) (allListTags ts) (.generalTag t) := by
  simp [Outside, allListTags]

theorem allListTag_outside_general {list : ListId} (t : Tid) (ts : List Tid) :
    Outside (klist list) (generalTags ts) (.allListTag t) := by
  simp [Outside, generalTags]

theorem general_apart_all {list other : ListId} (hne : list ≠ other) (ts us : List Tid) :
    Apart (klist list) (generalTags ts) (klist other) (allListTags us) where
  head := by simp [hne, allListTags]
  tail := by simp [hne, allListTags]
  members := by
    intro x hx
    obtain ⟨t, -, rfl⟩ := List.mem_map.1 hx
    exact generalTag_outside_all t us

theorem all_apart_general {list other : ListId} (hne : list ≠ other) (ts us : List Tid) :
    Apart (klist list) (allListTags ts) (klist other) (generalTags us) where
  head := by simp [hne, generalTags]
  tail := by simp [hne, generalTags]
  members := by
    intro x hx
    obtain ⟨t, -, rfl⟩ := List.mem_map.1 hx
    exact allListTag_outside_general t us

namespace SchedLists

variable {k : Kernel} {ready : List Tid}

theorem ready_nodup (h : SchedLists k ready) : ready.Nodup :=
  List.Nodup.of_map _ h.ready_holds.nodup_members

theorem tasks_nodup (h : SchedLists k ready) : k.tasks.Nodup :=
  List.Nodup.of_map _ h.all_holds.nodup_members

theorem ready_subset (h : SchedLists k ready) : ready ⊆ k.tasks :=
  fun t ht => ((h.ready_iff t).1 ht).1

theorem length_ready_le (h : SchedLists k ready) : ready.length ≤ k.tasks.length :=
  (List.Nodup.subperm h.ready_nodup h.ready_subset).length_le

/-- The ready list is the same after a change that keeps lists, statuses and spin locks. -/
theorem congr (h : SchedLists k ready) {k' : Kernel} (hheap : k'.heap = k.heap)
    (htasks : k'.tasks = k.tasks) (hcur : k'.cur = k.cur) (hmain : k'.mainThread = k.mainThread)
    (hspin : k'.occupied = k.occupied) (hstatus : ∀ t, (k'.task t).status = (k.task t).status) :
    SchedLists k' ready where
  ready_holds := hheap ▸ h.ready_holds
  all_holds := by rw [hheap, htasks]; exact h.all_holds
  ready_iff := by
    intro t
    rw [hstatus, htasks]
    exact h.ready_iff t
  cur_mem := by rw [hcur, htasks]; exact h.cur_mem
  main_mem := by rw [hmain, htasks]; exact h.main_mem
  free := by rw [hspin]; exact h.free

end SchedLists

namespace SchedInv

variable {k : Kernel} {ready : List Tid}

theorem congr (h : SchedInv k ready) {k' : Kernel} (hheap : k'.heap = k.heap)
    (htasks : k'.tasks = k.tasks) (hcur : k'.cur = k.cur) (hmain : k'.mainThread = k.mainThread)
    (hspin : k'.occupied = k.occupied) (hstatus : ∀ t, (k'.task t).status = (k.task t).status) :
    SchedInv k' ready where
  toSchedLists := h.toSchedLists.congr hheap htasks hcur hmain hspin hstatus
  running_iff := by
    rw [htasks, hcur]
    intro t ht
    rw [hstatus]
    exact h.running_iff t ht

theorem cur_running (h : SchedInv k ready) : (k.task k.cur).status = .running :=
  (h.running_iff k.cur h.cur_mem).2 rfl

theorem cur_notMem (h : SchedInv k ready) : k.cur ∉ ready := by
  intro hm
  have := ((h.ready_iff _).1 hm).2
  rw [h.cur_running] at this
  cases this

end SchedInv

theorem enlistThread_eq {k : Kernel} {ready old : List Tid} {task : Tid}
    (hready : Holds k.heap (klist .ready) (generalTags ready))
    (hall : Holds k.heap (klist .all) (allListTags old))
    (htasks : k.tasks = old ++ [task]) (hlen : ready.length ≤ old.length)
    (hnotready : task ∉ ready) (hnotold : task ∉ old) (hfree : ∀ lock, k.occupied lock = false) :
    enlistThread task k =
      .ok ((k.append .ready (.generalTag task)).append .all (.allListTag task)) := by
  have hother : Holds (k.append .ready (.generalTag task)).heap (klist .all) (allListTags old) :=
    holds_listAppend_of_apart hready hall (general_apart_all (by decide) _ _)
      (generalTag_outside_all task old)
  rw [enlistThread,
    enlist_of_notMem (hfree _) hready (by rw [htasks]; simp; omega) (by simpa using hnotready)]
  exact enlist_of_notMem (hfree _) hother (by simp [Kernel.append, htasks]) (by simpa using hnotold)

/-- Both lists after a new thread was entered. -/
theorem holds_enlisted {k : Kernel} {ready old : List Tid} {task : Tid}
    (hready : Holds k.heap (klist .ready) (generalTags ready))
    (hall : Holds k.heap (klist .all) (allListTags old))
    (hnotready : task ∉ ready) (hnotold : task ∉ old) :
    Holds ((k.append .ready (.generalTag task)).append .all (.allListTag task)).heap
      (klist .ready) (generalTags (ready ++ [task])) ∧
    Holds ((k.append .ready (.generalTag task)).append .all (.allListTag task)).heap
      (klist .all) (allListTags (old ++ [task])) := by
  have hfirst : Holds (k.append .ready (.generalTag task)).heap (klist .ready)
      (generalTags (ready ++ [task])) := by
    simpa [generalTags, Kernel.append] using
      holds_listAppend hready (generalTag_outside .ready hnotready)
  have hother : Holds (k.append .ready (.generalTag task)).heap (klist .all) (allListTags old) :=
    holds_listAppend_of_apart hready hall (general_apart_all (by decide) _ _)
      (generalTag_outside_all task old)
  constructor
  · exact holds_listAppend_of_apart hother hfirst (all_apart_general (by decide) _ _)
      (allListTag_outside_general task _)
  · simpa [allListTags, Kernel.append] using
      holds_listAppend hother (allListTag_outside .all hnotold)

/-- A new thread goes to the end of both lists. -/
theorem inited_enlisted {k : Kernel} {ready : List Tid} (h : SchedInv k ready) {task : Tid}
    (hnew : task ∉ k.tasks) (priority : Nat) (intr : Bool) :
    ∃ k', enlistThread task { (k.handOut task).inited task priority with intr := intr } = .ok k' ∧
      k'.tasks = k.tasks ++ [task] ∧ SchedInv k' (ready ++ [task]) := by
  have hnotready : task ∉ ready := fun hm => hnew (h.ready_subset hm)
  have hmain : task ≠ k.mainThread := fun he => hnew (he ▸ h.main_mem)
  have hcur : task ≠ k.cur := fun he => hnew (he ▸ h.cur_mem)
  have hstatus : ∀ t, (((k.handOut task).inited task priority).task t).status =
      if t = task then .ready else (k.task t).status := by
    intro t
    rw [inited_status]
    simp [Kernel.handOut, hmain]
  obtain ⟨hready, hall⟩ := holds_enlisted
    (k := { (k.handOut task).inited task priority with intr := intr })
    h.ready_holds h.all_holds hnotready hnew
  refine ⟨_, enlistThread_eq
    (k := { (k.handOut task).inited task priority with intr := intr }) h.ready_holds
    h.all_holds rfl h.length_ready_le hnotready hnew h.free, rfl, ⟨hready, hall, ?_,
    List.mem_append_left _ h.cur_mem, List.mem_append_left _ h.main_mem, h.free⟩, ?_⟩
  · intro t
    change t ∈ ready ++ [task] ↔
      t ∈ k.tasks ++ [task] ∧ (((k.handOut task).inited task priority).task t).status = _
    rw [hstatus, List.mem_append, List.mem_append, h.ready_iff, List.mem_singleton]
    by_cases ht : t = task <;> simp [ht]
  · intro t ht
    change (((k.handOut task).inited task priority).task t).status = _ ↔ t = k.cur
    rw [hstatus]
    by_cases he : t = task
    · rw [he, if_pos rfl]
      exact ⟨fun hs => absurd hs (by decide), fun hs => absurd hs hcur⟩
    · rw [if_neg he]
      exact h.running_iff t ((List.mem_append.1 ht).resolve_right (by simpa using he))

theorem threadStart_inv {k : Kernel} {ready : List Tid} (h : SchedInv k ready) {task : Tid}
    (hnew : task ∉ k.tasks) (priority : Nat) :
    ∃ k', threadStart task priority k = .ok k' ∧ k'.tasks = k.tasks ++ [task] ∧
      SchedInv k' (ready ++ [task]) := by
  obtain ⟨k', hrun, htasks, hinv⟩ := inited_enlisted h hnew priority k.intr
  refine ⟨k', ?_, htasks, hinv⟩
  rw [threadStart, threadInit_of_free (k := k.handOut task) task priority (h.free _)]
  exact hrun

theorem processExecute_inv {k : Kernel} {ready : List Tid} (h : SchedInv k ready) {task : Tid}
    (hnew : task ∉ k.tasks) :
    ∃ k', processExecute task k = .ok k' ∧ k'.tasks = k.tasks ++ [task] ∧
      SchedInv k' (ready ++ [task]) := by
  obtain ⟨k', hrun, htasks, hinv⟩ := inited_enlisted h hnew defaultPrio false
  refine ⟨{ k' with intr := k.intr }, ?_, htasks, hinv.congr rfl rfl rfl rfl rfl fun _ => rfl⟩
  simp only [processExecute, threadInit_of_free (k := k.handOut task) task defaultPrio (h.free _), bind, Except.bind,
    hrun]
  rfl

section Switch

variable {k : Kernel} {ready rest : List Tid} {next : Tid}

/-- Adding the current thread at the end of the ready list. -/
theorem SchedInv.requeued (h : SchedInv k ready) : Switching k.requeued (ready ++ [k.cur]) := by
  have hstatus : ∀ t, (k.requeued.task t).status =
      if t = k.cur then .ready else (k.task t).status := by
    intro t
    by_cases ht : t = k.cur
    · simp [Kernel.requeued, Kernel.setTask, ht]
    · simp [Kernel.requeued, Kernel.setTask, Kernel.append, ht]
  refine ⟨⟨?_, ?_, ?_, h.cur_mem, h.main_mem, h.free⟩, ?_⟩
  · simpa [generalTags, Kernel.requeued, Kernel.append, Kernel.setTask] using
      holds_listAppend h.ready_holds (generalTag_outside .ready h.cur_notMem)
  · exact holds_listAppend_of_apart h.ready_holds h.all_holds (general_apart_all (by decide) _ _)
      (generalTag_outside_all k.cur _)
  · intro t
    rw [hstatus, List.mem_append, List.mem_singleton, h.ready_iff]
    by_cases ht : t = k.cur
    · simp [ht, Kernel.requeued, Kernel.append, Kernel.setTask, h.cur_mem]
    · simp [ht, Kernel.requeued, Kernel.append, Kernel.setTask]
  · intro t ht
    rw [hstatus]
    by_cases he : t = k.cur
    · rw [if_pos he]
      decide
    · rw [if_neg he]
      exact fun hs => he ((h.running_iff t ht).1 hs)

/-- A blocking thread gives up the CPU without entering the ready list. -/
theorem SchedInv.blocking (h : SchedInv k ready) {status : TaskStatus}
    (hstatus : status = .blocked ∨ status = .hanging) :
    Switching (k.setStatus k.cur status) ready := by
  have hset : ∀ t, ((k.setStatus k.cur status).task t).status =
      if t = k.cur then status else (k.task t).status := by
    intro t
    by_cases ht : t = k.cur
    · simp [Kernel.setStatus, Kernel.setTask, ht]
    · simp [Kernel.setStatus, Kernel.setTask, ht]
  refine ⟨⟨h.ready_holds, h.all_holds, ?_, h.cur_mem, h.main_mem, h.free⟩, ?_⟩
  · intro t
    rw [hset, h.ready_iff]
    by_cases ht : t = k.cur
    · rcases hstatus with rfl | rfl
      all_goals simp [ht, h.cur_running]
    · rw [if_neg ht]
      rfl
  · intro t ht
    rw [hset]
    by_cases he : t = k.cur
    · rw [if_pos he]
      rcases hstatus with rfl | rfl
      all_goals decide
    · rw [if_neg he]
      exact fun hs => he ((h.running_iff t ht).1 hs)

/-- The first ready thread is taken off the list and runs. -/
theorem Switching.dispatched (h : Switching k (next :: rest)) :
    dispatch k = .ok (k.dispatched next) ∧ SchedInv (k.dispatched next) rest := by
  have hnext := (h.ready_iff next).1 List.mem_cons_self
  have hnot := (List.nodup_cons.1 h.ready_nodup).1
  have hset : ∀ t, ((k.dispatched next).task t).status =
      if t = next then .running else (k.task t).status := by
    intro t
    by_cases ht : t = next
    · simp [Kernel.dispatched, Kernel.setStatus, Kernel.setTask, ht]
    · simp [Kernel.dispatched, Kernel.setStatus, Kernel.setTask, Kernel.remove, ht]
  refine ⟨dispatch_cons (h.free _) (h.free _) h.ready_holds,
    ⟨?_, ?_, ?_, hnext.1, h.main_mem, h.free⟩, ?_⟩
  · exact holds_listRemove_first h.ready_holds
  · exact holds_listRemove_first_of_apart h.ready_holds h.all_holds
      (general_apart_all (by decide) (next :: rest) _)
  · intro t
    rw [hset]
    change _ ↔ t ∈ k.tasks ∧ _
    by_cases ht : t = next
    · simp [ht, hnot]
    · rw [if_neg ht, ← h.ready_iff, List.mem_cons]
      simp [ht]
  · intro t htmem
    rw [hset]
    by_cases ht : t = next
    · simp [ht, Kernel.dispatched]
    · rw [if_neg ht]
      simp only [Kernel.dispatched, ht, iff_false]
      exact h.none_running t htmem

/-- `schedule` by a running thread: it goes to the end of the list, and the first of the list runs. -/
theorem schedule_rotates (h : SchedInv k ready) (hintr : k.intr = false) :
    ∃ next rest, ready ++ [k.cur] = next :: rest ∧ schedule k = .ok (k.requeued.dispatched next) ∧
      SchedInv (k.requeued.dispatched next) rest := by
  obtain ⟨next, rest, hcons⟩ : ∃ next rest, ready ++ [k.cur] = next :: rest :=
    List.exists_cons_of_ne_nil (by simp)
  have hsw := h.requeued
  rw [hcons] at hsw
  refine ⟨next, rest, hcons, ?_, hsw.dispatched.2⟩
  have hreq := requeue_of_running h.cur_running (h.free _) h.ready_holds
    (by simpa using h.length_ready_le) (by simpa using h.cur_notMem)
  simp only [schedule, hintr, kassert, Bool.not_false, if_true, bind, Except.bind, hreq,
    hsw.dispatched.1]

theorem schedule_running (h : SchedInv k ready) (hintr : k.intr = false) :
    ∃ k' ready', schedule k = .ok k' ∧ k'.tasks = k.tasks ∧ SchedInv k' ready' := by
  obtain ⟨next, rest, -, hschedule, hinv⟩ := schedule_rotates h hintr
  exact ⟨_, rest, hschedule, rfl, hinv⟩

theorem SchedInv.ticked (h : SchedInv k ready) : SchedInv k.ticked ready := by
  refine h.congr rfl rfl rfl rfl rfl fun t => ?_
  by_cases ht : t = k.cur
  · simp [Kernel.ticked, Kernel.setTask, ht]
  · simp [Kernel.ticked, Kernel.setTask, ht]

theorem intrTimerHandler_inv (h : SchedInv k ready) (hintr : k.intr = false) :
    ∃ k' ready', intrTimerHandler k = .ok k' ∧ k'.tasks = k.tasks ∧ SchedInv k' ready' := by
  rw [intrTimerHandler_eq]
  split
  · exact schedule_running h.ticked hintr
  · exact ⟨k.ticked, ready, rfl, rfl, h.ticked⟩

theorem threadBlock_inv (h : SchedInv k ready) {status : TaskStatus}
    (hallowed : (SchedOp.block status).Allowed k) :
    ∃ k' ready', threadBlock status k = .ok k' ∧ k'.tasks = k.tasks ∧ SchedInv k' ready' := by
  obtain ⟨hstatus, hother⟩ := hallowed
  have hblock : threadBlock status k =
      schedule (Kernel.setStatus { k with intr := false } k.cur status) := by
    simp [threadBlock, kassert, hstatus, bind, Except.bind]
  have hoff : SchedInv { k with intr := false } ready := h.congr rfl rfl rfl rfl rfl fun _ => rfl
  rw [hblock]
  by_cases hrun : status = .running
  · refine schedule_running (hoff.congr rfl rfl rfl rfl rfl ?_) rfl
    intro t
    by_cases ht : t = k.cur
    · simp [Kernel.setStatus, Kernel.setTask, ht, hrun, h.cur_running]
    · simp [Kernel.setStatus, Kernel.setTask, ht]
  · have hgive : status = .blocked ∨ status = .hanging := by tauto
    have hsw := hoff.blocking hgive
    cases ready with
    | nil => simp [(listEmpty_iff h.ready_holds).2 rfl] at hother; exact absurd hother hrun
    | cons next rest =>
        refine ⟨(Kernel.setStatus { k with intr := false } k.cur status).dispatched next, rest, ?_,
          rfl, hsw.dispatched.2⟩
        have hreq := requeue_of_not_running
          (k := Kernel.setStatus { k with intr := false } k.cur status)
          (by simpa [Kernel.setStatus, Kernel.setTask] using hrun)
        simp only [schedule, kassert, bind, Except.bind]
        rw [if_pos (by rfl)]
        simp only [hreq]
        exact hsw.dispatched.1

/-- A woken thread goes to the front of the ready list. -/
theorem threadUnblock_inv (h : SchedInv k ready) {pthread : Tid}
    (hallowed : (SchedOp.unblock pthread).Allowed k) :
    ∃ k', threadUnblock pthread k = .ok k' ∧ k'.tasks = k.tasks ∧
      SchedInv k' (pthread :: ready) := by
  obtain ⟨hmem, hstatus⟩ := hallowed
  have hnot : pthread ∉ ready := by
    intro hm
    rw [((h.ready_iff _).1 hm).2] at hstatus
    exact hstatus.elim (by decide) (by decide)
  have hset : ∀ t, ((k.woken pthread).task t).status =
      if t = pthread then .ready else (k.task t).status := by
    intro t
    by_cases ht : t = pthread
    · simp [Kernel.woken, Kernel.setStatus, Kernel.setTask, ht]
    · simp [Kernel.woken, Kernel.setStatus, Kernel.setTask, Kernel.push, ht]
  refine ⟨_, threadUnblock_of_blocked hstatus (h.free _) h.ready_holds
    (by simpa using h.length_ready_le) (by simpa using hnot), rfl,
    ⟨?_, ?_, ?_, h.cur_mem, h.main_mem, h.free⟩, ?_⟩
  · exact holds_listPush h.ready_holds (generalTag_outside .ready hnot)
  · exact holds_listPush_of_apart h.ready_holds h.all_holds (general_apart_all (by decide) _ _)
      (generalTag_outside_all pthread _)
  · intro t
    rw [hset, List.mem_cons, h.ready_iff]
    change _ ↔ t ∈ k.tasks ∧ _
    by_cases ht : t = pthread
    · simp [ht, hmem]
    · simp [ht]
  · intro t htmem
    rw [hset]
    change _ ↔ t = k.cur
    by_cases ht : t = pthread
    · subst ht
      refine ⟨fun hs => absurd hs (by simp), fun he => ?_⟩
      rw [he, h.cur_running] at hstatus
      exact absurd hstatus (by decide)
    · rw [if_neg ht]
      exact h.running_iff t htmem

end Switch

/-- The threads an operation creates. -/
def SchedOp.created : SchedOp → List Tid
  | .start task _ => [task]
  | .execute task => [task]
  | _ => []

/-- An allowed operation ends, and the invariant holds after it. -/
theorem schedStep_inv {k : Kernel} {ready : List Tid} (h : SchedInv k ready) {op : SchedOp}
    (hallowed : op.Allowed k) :
    ∃ k' ready', schedStep k op = .ok k' ∧ k'.tasks = k.tasks ++ op.created ∧
      SchedInv k' ready' := by
  cases op with
  | start task priority =>
      obtain ⟨k', hrun, htasks, hinv⟩ := threadStart_inv h hallowed priority
      exact ⟨k', _, hrun, htasks, hinv⟩
  | execute task =>
      obtain ⟨k', hrun, htasks, hinv⟩ := processExecute_inv h hallowed
      exact ⟨k', _, hrun, htasks, hinv⟩
  | block status =>
      obtain ⟨k', ready', hrun, htasks, hinv⟩ := threadBlock_inv h hallowed
      exact ⟨k', ready', hrun, by simpa [SchedOp.created] using htasks, hinv⟩
  | unblock pthread =>
      obtain ⟨k', hrun, htasks, hinv⟩ := threadUnblock_inv h hallowed
      exact ⟨k', _, hrun, by simpa [SchedOp.created] using htasks, hinv⟩
  | tick =>
      have hoff : SchedInv { k with intr := false } ready :=
        h.congr rfl rfl rfl rfl rfl fun _ => rfl
      obtain ⟨k', ready', hrun, htasks, hinv⟩ := intrTimerHandler_inv hoff rfl
      exact ⟨k', ready', hrun, by simpa [SchedOp.created] using htasks, hinv⟩

theorem threadSupportInit_inv (main : Tid) (k : Kernel) :
    ∃ k', threadSupportInit main k = .ok k' ∧ SchedInv k' [] := by
  have hreadyInit : Holds (listInit Node.null k.heap (klist .ready)) (klist .ready) [] :=
    holds_listInit _ _ (by simp)
  have hready : Holds (k.supported main).heap (klist .ready) [] :=
    holds_listInit_of_outside Node.null hreadyInit (by simp [Outside]) (by simp [Outside])
  have hall : Holds (k.supported main).heap (klist .all) [] := holds_listInit _ _ (by simp)
  refine ⟨_, threadSupportInit_eq main k, ⟨?_, ?_, ?_, ?_, ?_, ?_⟩, ?_⟩
  · exact holds_listAppend_of_apart hall hready (all_apart_general (by decide) [] [])
      (allListTag_outside_general main [])
  · exact holds_listAppend hall (allListTag_outside .all List.not_mem_nil)
  · intro t
    change t ∈ [] ↔ t ∈ [main] ∧ (((k.supported main).inited main 31).task t).status = _
    rw [inited_status]
    by_cases ht : t = main
    · simp [ht, Kernel.supported]
    · simp [ht]
  · exact List.mem_singleton.2 rfl
  · exact List.mem_singleton.2 rfl
  · exact fun _ => rfl
  · intro t ht
    obtain rfl : t = main := List.mem_singleton.1 ht
    change (((k.supported t).inited t 31).task t).status = _ ↔ t = t
    simp [inited_status, Kernel.supported]

theorem schedReachable_inv {k : Kernel} (h : SchedReachable k) : ∃ ready, SchedInv k ready := by
  obtain ⟨main, k₀, k₁, hinit, hrun⟩ := h
  induction hrun with
  | refl =>
      obtain ⟨k', hk', hinv⟩ := threadSupportInit_inv main k₀
      obtain rfl : k' = k₁ := Except.ok.inj (hk'.symm.trans hinit)
      exact ⟨[], hinv⟩
  | tail _ hstep ih =>
      obtain ⟨ready, hinv⟩ := ih
      obtain ⟨op, hallowed, hop⟩ := hstep
      obtain ⟨k', ready', hk', -, hinv'⟩ := schedStep_inv hinv hallowed
      obtain rfl := Except.ok.inj (hk'.symm.trans hop)
      exact ⟨ready', hinv'⟩

/-- In every reachable state the current thread is the one running thread, the ready list holds
the ready threads and the all-thread list every thread created, each once; no operation halts. -/
theorem scheduler_state {k : Kernel} (h : SchedReachable k) :
    (k.cur ∈ k.tasks ∧ ∀ t ∈ k.tasks, (k.task t).status = .running ↔ t = k.cur) ∧
    (∃ ready : List Tid, ready.Nodup ∧ Holds k.heap (klist .ready) (generalTags ready) ∧
      ∀ t, t ∈ ready ↔ t ∈ k.tasks ∧ (k.task t).status = .ready) ∧
    (k.tasks.Nodup ∧ Holds k.heap (klist .all) (allListTags k.tasks)) ∧
    ∀ op : SchedOp, op.Allowed k →
      ∃ k', schedStep k op = .ok k' ∧ k'.tasks = k.tasks ++ op.created := by
  obtain ⟨ready, hinv⟩ := schedReachable_inv h
  refine ⟨⟨hinv.cur_mem, hinv.running_iff⟩, ⟨ready, hinv.ready_nodup, hinv.ready_holds,
    hinv.ready_iff⟩, ⟨hinv.tasks_nodup, hinv.all_holds⟩, fun op hallowed => ?_⟩
  obtain ⟨k', -, hk', htasks, -⟩ := schedStep_inv hinv hallowed
  exact ⟨k', hk', htasks⟩

/-- The memory before `threadSupportInit`. -/
def bootKernel : Kernel where
  task _ := ⟨.running, 0, 0, 0, 0⟩
  heap := ⟨fun _ => .null, fun _ => .null⟩
  cur := 0
  mainThread := 0
  intr := false
  occupied _ := false
  threadTag := .null
  ticks := 0
  nextPid := 0
  tasks := []

/-- A run in which a created thread is scheduled after the main thread has blocked. -/
theorem scheduler_state_run : ∃ k, SchedReachable k ∧ k.tasks = [1, 2] ∧ k.cur = 2 ∧
    (k.cur ∈ k.tasks ∧ ∀ t ∈ k.tasks, (k.task t).status = .running ↔ t = k.cur) := by
  have hnew : (2 : Nat) ∉ [1] := by decide
  have hreach : SchedReachable
      (match threadSupportInit 1 bootKernel >>= threadStart 2 16 >>= threadBlock .blocked with
        | .ok k => k
        | .error _ => bootKernel) :=
    ⟨1, bootKernel, _, rfl, .tail (.tail .refl ⟨.start 2 16, hnew, rfl⟩)
      ⟨.block .blocked, ⟨.inl rfl, fun _ => rfl⟩, rfl⟩⟩
  exact ⟨_, hreach, rfl, rfl, (scheduler_state hreach).1⟩

end HoloOS
