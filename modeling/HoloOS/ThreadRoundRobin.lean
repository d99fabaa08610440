import HoloOS.ThreadScheduler
import Mathlib.Algebra.BigOperators.Group.List.Basic
import Mathlib.Algebra.GroupWithZero.Nat

/-! Time slices: without blocking, waking and creation, the timer runs the current thread and the ready ones
in turn, each for as many ticks as its priority; in every reachable state the slice left is between 1 and the
priority, and the ticks charged to threads add up to the ticks counted. -/

namespace HoloOS

open Function Linked

/-- The thread has the slice and the charged ticks it had. -/
def SameSlice (task task' : TaskStruct) : Prop :=
  task'.priority = task.priority ∧ task'.ticks = task.ticks ∧ task'.elapsedTicks = task.elapsedTicks

theorem SameSlice.refl (task : TaskStruct) : SameSlice task task := ⟨rfl, rfl, rfl⟩

theorem SameSlice.trans {a b c : TaskStruct} (h : SameSlice a b) (h' : SameSlice b c) : SameSlice a c :=
  ⟨h'.1.trans h.1, h'.2.1.trans h.2.1, h'.2.2.trans h.2.2⟩

/-- The timer interrupt from its entry on, with interrupts off. -/
def timerTick (k : Kernel) : Except Halt Kernel := intrTimerHandler { k with intr := false }

/-- `n` timer interrupts, with the threads they are charged to. -/
def timerRun : Nat → Kernel → Except Halt (List Tid × Kernel)
  | 0, k => .ok ([], k)
  | n + 1, k => do
      let k' ← timerTick k
      let rest ← timerRun n k'
      return (k.cur :: rest.1, rest.2)

variable {k k' : Kernel} {ready : List Tid}

/-- What a number of ticks charged to the current thread leaves of its slice, and the other threads. -/
structure Charged (k k' : Kernel) (charged left : Nat) : Prop where
  priority : (k'.task k.cur).priority = (k.task k.cur).priority
  ticks : (k'.task k.cur).ticks = left
  elapsed : (k'.task k.cur).elapsedTicks = ((k.task k.cur).elapsedTicks + charged) % 2 ^ 32
  others : ∀ t, t ≠ k.cur → SameSlice (k.task t) (k'.task t)

/-- A tick that is not the last of the slice. -/
theorem timerTick_more (h : SchedInv k ready) {n : Nat} (hticks : (k.task k.cur).ticks = n + 2)
    (hlt : n + 2 < 2 ^ 8) : ∃ k', timerTick k = .ok k' ∧ k'.cur = k.cur ∧ SchedInv k' ready ∧
      Charged k k' 1 (n + 1) := by
  have hoff : SchedInv { k with intr := false } ready := h.congr rfl rfl rfl rfl rfl fun _ => rfl
  have hleft : ((k.task k.cur).ticks + 255) % 2 ^ 8 = n + 1 := by omega
  refine ⟨Kernel.ticked { k with intr := false }, ?_, rfl, hoff.ticked, ?_⟩
  · rw [timerTick, intrTimerHandler_eq]
    dsimp only
    rw [hleft]
    exact if_neg (by omega)
  · refine ⟨?_, ?_, ?_, fun t ht => ?_⟩
    · simp [Kernel.ticked, Kernel.setTask]
    · simpa [Kernel.ticked, Kernel.setTask] using hleft
    · simp [Kernel.ticked, Kernel.setTask]
    · simp [SameSlice, Kernel.ticked, Kernel.setTask, ht]

/-- The last tick of a slice: the next thread runs, and the slice is filled again. -/
theorem timerTick_last (h : SchedInv k ready) (hticks : (k.task k.cur).ticks = 1) :
    ∃ k' ready', timerTick k = .ok k' ∧ k'.cur :: ready' = ready ++ [k.cur] ∧ SchedInv k' ready' ∧
      Charged k k' 1 (k.task k.cur).priority := by
  have hoff : SchedInv { k with intr := false } ready := h.congr rfl rfl rfl rfl rfl fun _ => rfl
  obtain ⟨next, rest, hcons, hschedule, hinv⟩ := schedule_rotates hoff.ticked rfl
  refine ⟨_, rest, ?_, hcons.symm, hinv, ?_⟩
  · rw [timerTick, intrTimerHandler_eq]
    dsimp only
    rw [hticks, if_pos (by decide)]
    exact hschedule
  · have hset : ∀ t, SameSlice ((Kernel.ticked { k with intr := false }).requeued.task t)
        (((Kernel.ticked { k with intr := false }).requeued.dispatched next).task t) := by
      intro t
      by_cases ht : t = next
      · simp [SameSlice, Kernel.dispatched, Kernel.setStatus, Kernel.setTask, Kernel.remove, ht]
      · simp [SameSlice, Kernel.dispatched, Kernel.setStatus, Kernel.setTask, Kernel.remove, ht]
    refine ⟨(hset _).1.trans ?_, (hset _).2.1.trans ?_, (hset _).2.2.trans ?_, fun t ht => .trans ?_ (hset t)⟩
    · simp [Kernel.requeued, Kernel.ticked, Kernel.setTask, Kernel.append]
    · simp [Kernel.requeued, Kernel.ticked, Kernel.setTask, Kernel.append]
    · simp [Kernel.requeued, Kernel.ticked, Kernel.setTask, Kernel.append]
    · simp [SameSlice, Kernel.requeued, Kernel.ticked, Kernel.setTask, Kernel.append, ht]

theorem timerRun_succ {n : Nat} {ts : List Tid} {k'' : Kernel} (htick : timerTick k = .ok k')
    (hrun : timerRun n k' = .ok (ts, k'')) : timerRun (n + 1) k = .ok (k.cur :: ts, k'') := by
  rw [timerRun, htick]
  change (timerRun n k' >>= _) = _
  rw [hrun]
  rfl

theorem timerRun_add {n n' : Nat} {ts ts' : List Tid} {k'' : Kernel} (hrun : timerRun n k = .ok (ts, k'))
    (hrun' : timerRun n' k' = .ok (ts', k'')) : timerRun (n + n') k = .ok (ts ++ ts', k'') := by
  induction n generalizing k ts with
  | zero =>
      cases hrun
      rw [Nat.zero_add]
      exact hrun'
  | succ n ih =>
      rw [timerRun] at hrun
      obtain ⟨k₁, htick, hrun⟩ := bind_ok hrun
      obtain ⟨rest, hrest, hrun⟩ := bind_ok hrun
      cases hrun
      rw [show n + 1 + n' = n + n' + 1 by omega]
      exact timerRun_succ htick (ih hrest)

/-- A slice: as many ticks as are left of it. -/
theorem timerRun_slice (h : SchedInv k ready) {n : Nat} (hticks : (k.task k.cur).ticks = n + 1)
    (hlt : n + 1 < 2 ^ 8) : ∃ k' ready', timerRun (n + 1) k = .ok (List.replicate (n + 1) k.cur, k') ∧
      k'.cur :: ready' = ready ++ [k.cur] ∧ SchedInv k' ready' ∧
      Charged k k' (n + 1) (k.task k.cur).priority := by
  induction n generalizing k with
  | zero =>
      obtain ⟨k', ready', htick, hqueue, hinv, hcharged⟩ := timerTick_last h hticks
      exact ⟨k', ready', timerRun_succ htick rfl, hqueue, hinv, hcharged⟩
  | succ n ih =>
      obtain ⟨k₁, htick, hcur, hinv₁, hcharged₁⟩ := timerTick_more h hticks hlt
      obtain ⟨k', ready', hrun, hqueue, hinv, hcharged⟩ :=
        ih hinv₁ (by rw [hcur]; exact hcharged₁.ticks) (by omega)
      rw [hcur] at hrun hqueue
      refine ⟨k', ready', ?_, hqueue, hinv, ?_⟩
      · rw [List.replicate_succ]
        exact timerRun_succ htick hrun
      · obtain ⟨hpriority, hleft, helapsed, hothers⟩ := hcharged
        rw [hcur] at hpriority hleft helapsed
        refine ⟨hpriority.trans hcharged₁.priority, hleft.trans hcharged₁.priority, ?_, fun t ht => ?_⟩
        · rw [helapsed, hcharged₁.elapsed]
          omega
        · exact (hcharged₁.others t ht).trans (hothers t (hcur ▸ ht))

/-- The threads in the order in which they run, each as often as its priority. -/
def slices (k : Kernel) (queue : List Tid) : List Tid :=
  queue.flatMap fun t => List.replicate (k.task t).priority t

def totalPriority (k : Kernel) (queue : List Tid) : Nat := (queue.map fun t => (k.task t).priority).sum

theorem slices_congr {queue : List Tid} (h : ∀ t ∈ queue, (k'.task t).priority = (k.task t).priority) :
    slices k' queue = slices k queue ∧ totalPriority k' queue = totalPriority k queue := by
  refine ⟨List.flatMap_congr fun t ht => ?_, congrArg List.sum (List.map_congr_left h)⟩
  rw [h t ht]

/-- Part of a round: the threads of `queue` have run and stand behind the others. -/
theorem timerRun_queue (queue done : List Tid) (h : SchedInv k ready) (hqueue : k.cur :: ready = queue ++ done)
    (hfull : ∀ t ∈ queue, 1 ≤ (k.task t).priority ∧ (k.task t).priority ≤ 255 ∧
      (k.task t).ticks = (k.task t).priority) :
    ∃ k' ready', timerRun (totalPriority k queue) k = .ok (slices k queue, k') ∧
      k'.cur :: ready' = done ++ queue ∧ SchedInv k' ready' ∧
      (∀ t, (k'.task t).priority = (k.task t).priority ∧ (k'.task t).ticks = (k.task t).ticks) ∧
      (∀ t ∈ queue, (k'.task t).elapsedTicks = ((k.task t).elapsedTicks + (k.task t).priority) % 2 ^ 32) ∧
      ∀ t, t ∉ queue → (k'.task t).elapsedTicks = (k.task t).elapsedTicks := by
  induction queue generalizing k ready done with
  | nil =>
      refine ⟨k, ready, rfl, ?_, h, fun t => ⟨rfl, rfl⟩, fun t ht => absurd ht List.not_mem_nil, fun t _ => rfl⟩
      rw [hqueue, List.nil_append, List.append_nil]
  | cons x queue ih =>
      rw [List.cons_append] at hqueue
      obtain ⟨rfl, rfl⟩ := List.cons.inj hqueue
      obtain ⟨hpos, hle, hticks⟩ := hfull _ List.mem_cons_self
      obtain ⟨n, hn⟩ : ∃ n, (k.task k.cur).priority = n + 1 := ⟨(k.task k.cur).priority - 1, by omega⟩
      obtain ⟨k₁, ready₁, hrun₁, hqueue₁, hinv₁, hcharged⟩ :=
        timerRun_slice h (hticks.trans hn) (by omega)
      have hnodup : k.cur ∉ queue := fun hm => h.cur_notMem (List.mem_append_left _ hm)
      have hsame : ∀ t ∈ queue, SameSlice (k.task t) (k₁.task t) :=
        fun t ht => hcharged.others t fun he => hnodup (he ▸ ht)
      rw [List.append_assoc] at hqueue₁
      obtain ⟨k', ready', hrun', hqueue', hinv', hkeep, hran, hnot⟩ := ih (done ++ [k.cur]) hinv₁ hqueue₁
        fun t ht => by
          obtain ⟨hpriority, hleft, -⟩ := hsame t ht
          rw [hpriority, hleft]
          exact hfull t (List.mem_cons_of_mem _ ht)
      obtain ⟨hslices, htotal⟩ := slices_congr fun t ht => (hsame t ht).1
      rw [hslices, htotal] at hrun'
      refine ⟨k', ready', ?_, ?_, hinv', fun t => ?_, fun t ht => ?_, fun t ht => ?_⟩
      · have hsum : totalPriority k (k.cur :: queue) = n + 1 + totalPriority k queue := by
          rw [totalPriority, List.map_cons, List.sum_cons, hn]
          rfl
        have hfirst : slices k (k.cur :: queue) = List.replicate (n + 1) k.cur ++ slices k queue := by
          rw [slices, List.flatMap_cons, hn]
          rfl
        rw [hsum, hfirst]
        exact timerRun_add hrun₁ hrun'
      · rw [hqueue', List.append_assoc]
        rfl
      · rw [(hkeep t).1, (hkeep t).2]
        by_cases he : t = k.cur
        · rw [he, hcharged.priority, hcharged.ticks, hticks]
          exact ⟨rfl, rfl⟩
        · exact ⟨(hcharged.others t he).1, (hcharged.others t he).2.1⟩
      · rcases List.mem_cons.1 ht with he | hm
        · rw [he, hnot _ hnodup, hcharged.elapsed, hn]
        · rw [hran t hm, (hsame t hm).1, (hsame t hm).2.2]
      · have hne : t ≠ k.cur := fun he => ht (he ▸ List.mem_cons_self)
        rw [hnot t fun hm => ht (List.mem_cons_of_mem _ hm)]
        exact (hcharged.others t hne).2.2

/-- New threads have a priority that fits in 8 bits and is not 0. -/
def SchedOp.Prioritized : SchedOp → Prop
  | .start _ priority => 1 ≤ priority ∧ priority ≤ 255
  | _ => True

def SliceStep (k k' : Kernel) : Prop := ∃ op, op.Allowed k ∧ op.Prioritized ∧ schedStep k op = .ok k'

/-- The states reached from the end of `threadSupportInit`, no tick having been counted before. -/
def SliceReachable (k : Kernel) : Prop :=
  ∃ main k₀ k₁, k₀.ticks = 0 ∧ threadSupportInit main k₀ = .ok k₁ ∧ Relation.ReflTransGen SliceStep k₁ k

/-- The ticks charged to all threads. -/
def charged (k : Kernel) : Nat := (k.tasks.map fun t => (k.task t).elapsedTicks).sum

/-- Every thread has part of its slice left, and every tick was charged to one thread. -/
structure Sliced (k : Kernel) : Prop where
  slice : ∀ t ∈ k.tasks, 1 ≤ (k.task t).ticks ∧ (k.task t).ticks ≤ (k.task t).priority ∧
    (k.task t).priority ≤ 255
  sum : charged k % 2 ^ 32 = k.ticks

theorem Sliced.keep (h : Sliced k) (htasks : k'.tasks = k.tasks) (hticks : k'.ticks = k.ticks)
    (hsame : ∀ t, SameSlice (k.task t) (k'.task t)) : Sliced k' := by
  constructor
  · intro t ht
    obtain ⟨hpriority, hleft, -⟩ := hsame t
    rw [hpriority, hleft]
    exact h.slice t (htasks ▸ ht)
  · have hcharged : charged k' = charged k := by
      rw [charged, charged, htasks, List.map_congr_left fun t _ => (hsame t).2.2]
    rw [hcharged, hticks]
    exact h.sum

/-- A new thread starts with a full slice and no ticks charged. -/
theorem Sliced.create (h : Sliced k) {task : Tid} (hnew : task ∉ k.tasks)
    (htasks : k'.tasks = k.tasks ++ [task]) (hticks : k'.ticks = k.ticks)
    (hold : ∀ t, t ≠ task → SameSlice (k.task t) (k'.task t)) {priority : Nat}
    (hpriority : 1 ≤ priority ∧ priority ≤ 255)
    (htask : (k'.task task).priority = priority ∧ (k'.task task).ticks = priority ∧
      (k'.task task).elapsedTicks = 0) : Sliced k' := by
  have hne : ∀ t ∈ k.tasks, t ≠ task := fun t ht he => hnew (he ▸ ht)
  constructor
  · intro t ht
    rw [htasks, List.mem_append, List.mem_singleton] at ht
    rcases ht with ht | he
    · obtain ⟨hp, hl, -⟩ := hold t (hne t ht)
      rw [hp, hl]
      exact h.slice t ht
    · rw [he, htask.1, htask.2.1]
      exact ⟨hpriority.1, Nat.le_refl _, hpriority.2⟩
  · have hcharged : charged k' = charged k := by
      rw [charged, charged, htasks, List.map_append, List.sum_append, List.map_singleton,
        List.sum_singleton, htask.2.2, Nat.add_zero,
        List.map_congr_left fun t ht => (hold t (hne t ht)).2.2]
    rw [hcharged, hticks]
    exact h.sum

/-- A tick is charged to the thread that it is counted for. -/
theorem charged_tick (hmem : k.cur ∈ k.tasks) (hnodup : k.tasks.Nodup) (htasks : k'.tasks = k.tasks)
    (helapsed : (k'.task k.cur).elapsedTicks = ((k.task k.cur).elapsedTicks + 1) % 2 ^ 32)
    (hothers : ∀ t, t ≠ k.cur → (k'.task t).elapsedTicks = (k.task t).elapsedTicks) :
    charged k' % 2 ^ 32 = (charged k + 1) % 2 ^ 32 := by
  have hsplit : ∀ j : Kernel, j.tasks = k.tasks → charged j =
      (j.task k.cur).elapsedTicks + ((k.tasks.erase k.cur).map fun t => (j.task t).elapsedTicks).sum := by
    intro j hj
    rw [charged, hj, ((List.perm_cons_erase hmem).map _).sum_eq, List.map_cons, List.sum_cons]
  have hrest : (k.tasks.erase k.cur).map (fun t => (k'.task t).elapsedTicks) =
      (k.tasks.erase k.cur).map fun t => (k.task t).elapsedTicks := by
    apply List.map_congr_left
    intro t ht
    exact hothers t (hnodup.mem_erase_iff.1 ht).1
  rw [hsplit k' htasks, hsplit k rfl, hrest, helapsed]
  omega

theorem enlistThread_slices {task : Tid} (h : enlistThread task k = .ok k') :
    k'.task = k.task ∧ k'.tasks = k.tasks ∧ k'.ticks = k.ticks := by
  obtain ⟨k₁, hready, h⟩ := bind_ok h
  obtain ⟨-, rfl⟩ := enlist_ok hready
  obtain ⟨-, rfl⟩ := enlist_ok h
  exact ⟨rfl, rfl, rfl⟩

theorem inited_slice (k : Kernel) (task : Tid) (priority : Nat) :
    ((k.inited task priority).task task).priority = priority % 2 ^ 8 ∧
      ((k.inited task priority).task task).ticks = priority % 2 ^ 8 ∧
      ((k.inited task priority).task task).elapsedTicks = 0 := by
  simp [Kernel.inited, initSlice, Kernel.setTask]

theorem inited_sameSlice (k : Kernel) {task t : Tid} (priority : Nat) (ht : t ≠ task) :
    SameSlice (k.task t) ((k.inited task priority).task t) := by
  simp [SameSlice, Kernel.inited, initSlice, allocatePid, initStatus, Kernel.setTask, Kernel.setStatus, ht]

theorem Sliced.inited (h : Sliced k) {task : Tid} (hnew : task ∉ k.tasks) {priority : Nat}
    (hpriority : 1 ≤ priority ∧ priority ≤ 255) (intr : Bool)
    (hrun : enlistThread task { (k.handOut task).inited task priority with intr := intr } = .ok k') :
    Sliced k' := by
  obtain ⟨htask, htasks, hticks⟩ := enlistThread_slices hrun
  refine h.create hnew htasks hticks (fun t ht => ?_) hpriority ?_
  · rw [htask]
    exact inited_sameSlice (k.handOut task) priority ht
  · have hslice := inited_slice (k.handOut task) task priority
    rw [Nat.mod_eq_of_lt (by omega)] at hslice
    rw [htask]
    exact hslice

/-- `schedule` fills the slice of a thread that goes back to the ready list. -/
theorem schedule_slices (h : schedule k = .ok k') : k'.tasks = k.tasks ∧ k'.ticks = k.ticks ∧
    (∀ t, t ≠ k.cur → SameSlice (k.task t) (k'.task t)) ∧
    (k'.task k.cur).priority = (k.task k.cur).priority ∧
    (k'.task k.cur).elapsedTicks = (k.task k.cur).elapsedTicks ∧
    (k'.task k.cur).ticks = if (k.task k.cur).status = .running then (k.task k.cur).priority
      else (k.task k.cur).ticks := by
  obtain ⟨-, k₁, hreq, hdispatch⟩ := schedule_ok h
  obtain ⟨next, heap, tag, rfl⟩ := dispatch_fields hdispatch
  have hset : ∀ t, SameSlice (k₁.task t) ((k₁.setStatus next .running).task t) := by
    intro t
    by_cases ht : t = next
    · simp [SameSlice, Kernel.setStatus, Kernel.setTask, ht]
    · simp [SameSlice, Kernel.setStatus, Kernel.setTask, ht]
  rcases requeue_ok hreq with ⟨hstatus, -, rfl⟩ | ⟨hstatus, rfl⟩
  · rw [if_pos hstatus]
    refine ⟨rfl, rfl, fun t ht => .trans ?_ (hset t), (hset _).1.trans ?_, (hset _).2.2.trans ?_,
      (hset _).2.1.trans ?_⟩
    · simp [SameSlice, Kernel.requeued, Kernel.setTask, Kernel.append, ht]
    · simp [Kernel.requeued, Kernel.setTask]
    · simp [Kernel.requeued, Kernel.setTask]
    · simp [Kernel.requeued, Kernel.setTask]
  · rw [if_neg hstatus]
    exact ⟨rfl, rfl, fun t _ => hset t, (hset _).1, (hset _).2.2, (hset _).2.1⟩

theorem schedule_charged (h : schedule k = .ok k') : charged k' = charged k := by
  obtain ⟨htasks, -, hothers, -, helapsed, -⟩ := schedule_slices h
  rw [charged, charged, htasks]
  apply congrArg List.sum
  apply List.map_congr_left
  intro t _
  by_cases he : t = k.cur
  · rw [he, helapsed]
  · exact (hothers t he).2.2

theorem setStatus_sameSlice (k : Kernel) (t u : Tid) (status : TaskStatus) :
    SameSlice (k.task u) ((k.setStatus t status).task u) := by
  by_cases hu : u = t
  · simp [SameSlice, Kernel.setStatus, Kernel.setTask, hu]
  · simp [SameSlice, Kernel.setStatus, Kernel.setTask, hu]

theorem Sliced.schedule (h : Sliced k) (hmem : k.cur ∈ k.tasks) (hrun : HoloOS.schedule k = .ok k') :
    Sliced k' := by
  obtain ⟨htasks, hticks, hothers, hpriority, -, hleft⟩ := schedule_slices hrun
  have hcur := h.slice k.cur hmem
  constructor
  · intro t ht
    rw [htasks] at ht
    by_cases he : t = k.cur
    · rw [he, hpriority, hleft]
      split
      · omega
      · exact hcur
    · obtain ⟨hp, hl, -⟩ := hothers t he
      rw [hp, hl]
      exact h.slice t ht
  · rw [schedule_charged hrun, hticks]
    exact h.sum

/-- A timer interrupt; the slice that runs out is the running thread's, and it is filled again. -/
theorem Sliced.tick (h : Sliced k) (hinv : SchedInv k ready) (hrun : timerTick k = .ok k') : Sliced k' := by
  have hcur := h.slice k.cur hinv.cur_mem
  have hsum := h.sum
  have hleft : ((k.task k.cur).ticks + 255) % 2 ^ 8 = (k.task k.cur).ticks - 1 := by omega
  set j := Kernel.ticked { k with intr := false } with hj
  have htask : ∀ t, (j.task t).priority = (k.task t).priority ∧
      (j.task t).ticks = if t = k.cur then (k.task k.cur).ticks - 1 else (k.task t).ticks := by
    intro t
    by_cases ht : t = k.cur
    · rw [if_pos ht, ← hleft]
      simp [hj, Kernel.ticked, Kernel.setTask, ht]
    · simp [hj, Kernel.ticked, Kernel.setTask, ht]
  have hcharged : charged j % 2 ^ 32 = (charged k + 1) % 2 ^ 32 := by
    refine charged_tick hinv.cur_mem hinv.tasks_nodup rfl ?_ fun t ht => ?_
    · simp [hj, Kernel.ticked, Kernel.setTask]
    · simp [hj, Kernel.ticked, Kernel.setTask, ht]
  have hticks : j.ticks = (k.ticks + 1) % 2 ^ 32 := rfl
  have hrunning : (j.task j.cur).status = .running :=
    (SchedInv.ticked (hinv.congr rfl rfl rfl rfl rfl fun _ => rfl)).cur_running
  rw [timerTick, intrTimerHandler_eq] at hrun
  split at hrun
  next hends =>
    obtain ⟨htasks', hticks', hothers', hpriority', -, hleft'⟩ := schedule_slices hrun
    have hjcur : j.cur = k.cur := rfl
    rw [if_pos hrunning, hjcur] at hleft'
    rw [hjcur] at hothers' hpriority'
    constructor
    · intro t ht
      rw [htasks'] at ht
      by_cases he : t = k.cur
      · rw [he, hpriority', hleft', (htask k.cur).1]
        exact ⟨by omega, Nat.le_refl _, hcur.2.2⟩
      · obtain ⟨hp, hl, -⟩ := hothers' t he
        rw [hp, hl, (htask t).1, (htask t).2, if_neg he]
        exact h.slice t ht
    · rw [schedule_charged hrun, hticks', hcharged, hticks]
      omega
  next hends =>
    cases hrun
    have hmore : (k.task k.cur).ticks - 1 ≠ 0 := fun he => hends (hleft.trans he)
    constructor
    · intro t ht
      rw [(htask t).1, (htask t).2]
      split
      next he =>
        rw [he]
        omega
      next => exact h.slice t ht
    · rw [hcharged, hticks]
      omega

theorem Sliced.step (h : Sliced k) (hinv : SchedInv k ready) {op : SchedOp} (hallowed : op.Allowed k)
    (hpriority : op.Prioritized) (hrun : schedStep k op = .ok k') : Sliced k' := by
  cases op with
  | start task priority =>
      rw [schedStep, threadStart, threadInit_of_free (k := k.handOut task) task priority (hinv.free _)] at hrun
      exact h.inited hallowed hpriority k.intr hrun
  | execute task =>
      rw [schedStep, processExecute,
        threadInit_of_free (k := k.handOut task) task defaultPrio (hinv.free _)] at hrun
      obtain ⟨j, hj, hrun⟩ := bind_ok hrun
      cases hj
      obtain ⟨k₁, hk₁, hrun⟩ := bind_ok hrun
      cases hrun
      exact (h.inited hallowed (by decide) false hk₁).keep rfl rfl fun t => .refl _
  | block status =>
      obtain ⟨_, -, hrun⟩ := bind_ok hrun
      have hset : Sliced (Kernel.setStatus { k with intr := false } k.cur status) :=
        h.keep rfl rfl fun t => setStatus_sameSlice _ _ _ _
      exact hset.schedule hinv.cur_mem hrun
  | unblock pthread =>
      obtain ⟨-, -, rfl⟩ := threadUnblock_ok hrun
      exact h.keep rfl rfl fun t => setStatus_sameSlice _ _ _ _
  | tick => exact h.tick hinv hrun

theorem threadSupportInit_sliced {main : Tid} {k₀ : Kernel} (hzero : k₀.ticks = 0)
    (hinit : threadSupportInit main k₀ = .ok k) : Sliced k := by
  rw [threadSupportInit_eq] at hinit
  cases hinit
  have hslice := inited_slice (k₀.supported main) main 31
  have htasks : (((k₀.supported main).inited main 31).append .all (.allListTag main)).tasks = [main] := rfl
  constructor
  · intro t ht
    obtain rfl : t = main := List.mem_singleton.1 ht
    exact ⟨hslice.2.1.symm ▸ by decide, hslice.1.symm ▸ hslice.2.1.symm ▸ by decide, hslice.1.symm ▸ by decide⟩
  · rw [charged, htasks, List.map_singleton, List.sum_singleton]
    exact (congrArg (· % 2 ^ 32) hslice.2.2).trans hzero.symm

theorem sliceReachable_inv (h : SliceReachable k) : (∃ ready, SchedInv k ready) ∧ Sliced k := by
  obtain ⟨main, k₀, k₁, hzero, hinit, hrun⟩ := h
  induction hrun with
  | refl =>
      obtain ⟨k', hk', hinv⟩ := threadSupportInit_inv main k₀
      obtain rfl : k' = k₁ := Except.ok.inj (hk'.symm.trans hinit)
      exact ⟨⟨[], hinv⟩, threadSupportInit_sliced hzero hinit⟩
  | tail _ hstep ih =>
      obtain ⟨⟨ready, hinv⟩, hsliced⟩ := ih
      obtain ⟨op, hallowed, hpriority, hop⟩ := hstep
      obtain ⟨k', ready', hk', -, hinv'⟩ := schedStep_inv hinv hallowed
      obtain rfl := Except.ok.inj (hk'.symm.trans hop)
      exact ⟨⟨ready', hinv'⟩, hsliced.step hinv hallowed hpriority hop⟩

/-- After as many timer interrupts as the priorities add up to, each thread has run for its slice in the order
of the queue, and the queue and the slices are as before. -/
structure FullRound (k : Kernel) (ready : List Tid) (k' : Kernel) : Prop where
  run : timerRun (totalPriority k (k.cur :: ready)) k = .ok (slices k (k.cur :: ready), k')
  cur : k'.cur = k.cur
  inv : SchedInv k' ready
  ticks : ∀ t, (k'.task t).ticks = (k.task t).ticks
  elapsed : ∀ t ∈ k.cur :: ready,
    (k'.task t).elapsedTicks = ((k.task t).elapsedTicks + (k.task t).priority) % 2 ^ 32

/-- The timer is a round robin, in every state with full slices; in every reachable state each slice is between
1 and the priority, and all ticks have been charged. -/
theorem round_robin :
    (∀ k ready, SchedInv k ready →
      (∀ t ∈ k.cur :: ready, 1 ≤ (k.task t).priority ∧ (k.task t).priority ≤ 255 ∧
        (k.task t).ticks = (k.task t).priority) → ∃ k', FullRound k ready k') ∧
      ∀ k, SliceReachable k → Sliced k := by
  constructor
  · intro k ready hinv hfull
    obtain ⟨k', ready', hrun, hqueue, hinv', hkeep, helapsed, -⟩ :=
      timerRun_queue (k.cur :: ready) [] hinv (List.append_nil _).symm hfull
    obtain ⟨hcur, rfl⟩ := List.cons.inj hqueue
    exact ⟨k', hrun, hcur, hinv', fun t => (hkeep t).2, helapsed⟩
  · intro k hreach
    exact (sliceReachable_inv hreach).2

/-- The main thread and one of priority 3. -/
theorem round_robin_two : ∃ k, threadSupportInit 1 bootKernel >>= threadStart 2 3 = .ok k ∧
    (∃ k', FullRound k [2] k') ∧ Sliced k := by
  obtain ⟨k₁, hk₁, hinv₁⟩ := threadSupportInit_inv 1 bootKernel
  have hsliced₁ := threadSupportInit_sliced rfl hk₁
  have hnew : (2 : Nat) ∉ k₁.tasks := by
    rw [threadSupportInit_eq] at hk₁
    cases hk₁
    decide
  obtain ⟨k, hk, htasks, hinv⟩ := threadStart_inv hinv₁ hnew 3
  have hreach : SliceReachable k :=
    ⟨1, bootKernel, k₁, rfl, hk₁, .tail .refl ⟨.start 2 3, hnew, ⟨by decide, by decide⟩, hk⟩⟩
  refine ⟨k, by rw [hk₁]; exact hk, round_robin.1 k [2] hinv ?_, round_robin.2 k hreach⟩
  rw [threadSupportInit_eq] at hk₁
  cases hk₁
  cases hk
  intro t ht
  rcases List.mem_cons.1 ht with rfl | ht
  · decide
  · obtain rfl := List.mem_singleton.1 ht
    decide

end HoloOS
