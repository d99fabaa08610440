import HoloOS.ThreadKernel
import Mathlib.Logic.Relation

/-! Threads that execute `kernel/sync.c`, `threadStart` and `processExecute` statement by statement
on one CPU. What a thread still has to execute is a list of statements, the rest of the innermost
call first; local variables that are read again stand in the statements themselves. A timer
interrupt may come between any two statements executed with interrupts on. Functions that run with
interrupts off from beginning to end are one statement. -/

namespace HoloOS

open Function

/-- The calls a thread can be in. `underLock` is a function that works under one lock and touches
nothing else of the thread layer: `consolePuts`, `sysMalloc`, `sysFree`. -/
inductive Fn where
  | lockAcquire (lock : LockId)
  | lockRelease (lock : LockId)
  | conditionWait (cond : CondId) (lock : LockId)
  | conditionSignal (cond : CondId)
  | semaphoreDown (sem : Nat)
  | semaphoreUp (sem : Nat)
  | threadBlock (status : TaskStatus)
  | threadStart (task : Tid) (priority : Nat)
  | processExecute (task : Tid)
  | underLock (lock : LockId)
  deriving DecidableEq

/-- What a function does after its `intrDisable`. -/
inductive OffPart where
  | lockAcquire (lock : LockId)
  | conditionWait (cond : CondId) (lock : LockId)
  | threadBlock (status : TaskStatus)
  | processExecute (task : Tid)
  deriving DecidableEq

/-- Why `schedule` is called: after linking the own tag into a list, or by `threadBlock`. -/
inductive Site where
  | wait (list : ListId)
  | block (status : TaskStatus)
  deriving DecidableEq

/-- The statements. The popped thread of `lockRelease` and `conditionSignal` is carried by
`ifBlocked` and `unblock`, the saved interrupt flag by `intrSetStatus` and `iret`. -/
inductive Instr where
  | call (f : Fn)
  | ret (f : Fn)
  | whileCas (lock : LockId)
  | ifCas (lock : LockId)
  | spinlockAcquire (lock : Spin)
  | spinlockRelease (lock : Spin)
  | appendSelf (list : ListId)
  | removeSelf (lock : LockId)
  | intrDisable (part : OffPart)
  | intrSetStatus (status : Bool)
  | intrEnable
  | iret (flag : Bool)
  | setStatus (status : TaskStatus)
  | schedule (site : Site)
  | assertHolder (lock : LockId)
  | clearHolder (lock : LockId)
  | ifWaiters (lock : LockId)
  | popWaiter (lock : LockId)
  | ifBlocked (thread : Tid)
  | unblock (thread : Tid)
  | ifSleepers (cond : CondId)
  | popSleeper (cond : CondId)
  | whileZero (sem : Nat)
  | decrement (sem : Nat)
  | increment (sem : Nat)
  | assertBlock (status : TaskStatus)
  | initStatus (task : Tid)
  | allocatePid (task : Tid)
  | initSlice (task : Tid) (priority : Nat)
  | threadCreate (task : Tid)
  | assertNew (list : ListId) (task : Tid)
  | enlist (list : ListId) (task : Tid)
  deriving DecidableEq

/-- The tag with which a thread is linked into a list. -/
def tagFor : ListId → Tid → Node
  | .all => .allListTag
  | _ => .generalTag

/-- `threadInit` and `threadCreate`. -/
def threadInitCode (task : Tid) (priority : Nat) : List Instr :=
  [.initStatus task, .spinlockAcquire .pid, .allocatePid task, .spinlockRelease .pid,
   .initSlice task priority, .threadCreate task]

/-- The sections that enter a new thread into both lists. -/
def enlistCode (task : Tid) : List Instr :=
  [.spinlockAcquire .readyList, .assertNew .ready task, .enlist .ready task,
   .spinlockRelease .readyList, .spinlockAcquire .allList, .assertNew .all task, .enlist .all task,
   .spinlockRelease .allList]

namespace Fn

def body : Fn → List Instr
  | lockAcquire lock => [.whileCas lock]
  | lockRelease lock =>
      [.assertHolder lock, .clearHolder lock, .spinlockAcquire (.waiters lock), .ifWaiters lock]
  | conditionWait cond lock => [.intrDisable (.conditionWait cond lock)]
  | conditionSignal cond => [.ifSleepers cond]
  | semaphoreDown sem =>
      [.call (lockAcquire (.sem sem)), .whileZero sem, .decrement sem, .call (lockRelease (.sem sem))]
  | semaphoreUp sem =>
      [.call (lockAcquire (.sem sem)), .increment sem, .call (conditionSignal (.sem sem)),
       .call (lockRelease (.sem sem))]
  | threadBlock status => [.assertBlock status, .intrDisable (.threadBlock status)]
  | threadStart task priority => threadInitCode task priority ++ enlistCode task
  | processExecute task =>
      threadInitCode task defaultPrio ++ [.intrDisable (.processExecute task)]
  | underLock lock => [.call (lockAcquire lock), .call (lockRelease lock)]

/-- The page a function takes for a new `taskStruct`. -/
def page : Fn → List Tid
  | threadStart task _ => [task]
  | processExecute task => [task]
  | _ => []

end Fn

/-- The rest of a function after its `intrDisable`, which returned `old`. -/
def OffPart.code : OffPart → Bool → List Instr
  | lockAcquire lock, old =>
      [.setStatus .blocked, .spinlockRelease (.waiters lock), .schedule (.wait (.waiters lock)),
       .intrSetStatus old, .whileCas lock]
  | conditionWait cond lock, old =>
      [.appendSelf (.cond cond), .setStatus .blocked, .call (.lockRelease lock),
       .schedule (.wait (.cond cond)), .call (.lockAcquire lock), .intrSetStatus old]
  | threadBlock status, old => [.setStatus status, .schedule (.block status), .intrSetStatus old]
  | processExecute task, old => enlistCode task ++ [.intrSetStatus old]

/-- The thread layer, the locks and semaphores, and what each thread has left to execute. `owns`
records history: the thread has returned from `lockAcquire` and not yet called `lockRelease`. -/
structure Machine where
  k : Kernel
  holder : LockId → Option Tid
  value : Nat → Int
  code : Tid → List Instr
  owns : Tid → LockId → Bool

namespace Machine

def cur (m : Machine) : Tid := m.k.cur

def setCode (m : Machine) (t : Tid) (code : List Instr) : Machine :=
  { m with code := update m.code t code }

/-- The running thread is to execute `code` before the rest. -/
def push (m : Machine) (code : List Instr) : Machine := m.setCode m.cur (code ++ m.code m.cur)

def setHolder (m : Machine) (lock : LockId) (holder : Option Tid) : Machine :=
  { m with holder := update m.holder lock holder }

def setOwns (m : Machine) (lock : LockId) (owns : Bool) : Machine :=
  { m with owns := update m.owns m.cur (update (m.owns m.cur) lock owns) }

/-- Entering a call; a `lockRelease` ends the ownership. -/
def enter (m : Machine) (f : Fn) : Machine :=
  match f with
  | .lockRelease lock => (m.setOwns lock false).push (f.body ++ [.ret f])
  | _ => m.push (f.body ++ [.ret f])

end Machine

/-- `listPop` and `elem2entry` on the result. -/
def popThread (list : ListId) (k : Kernel) : Except Halt (Tid × Kernel) := do
  let (node, heap) := listPop k.heap (klist list)
  let thread ← elem2entry (node.getD .null)
  return (thread, { k with heap := heap })

/-- One statement of the running thread, already taken off its code. -/
def exec (m : Machine) : Instr → Except Halt Machine
  | .call f => .ok (m.enter f)
  | .ret (.lockAcquire lock) => .ok (m.setOwns lock true)
  | .ret _ => .ok m
  | .whileCas lock =>
      match m.holder lock with
      | none => .ok (m.setHolder lock (some m.cur))
      | some _ => .ok (m.push
          [.spinlockAcquire (.waiters lock), .appendSelf (.waiters lock), .ifCas lock])
  | .ifCas lock =>
      match m.holder lock with
      | none => .ok ((m.setHolder lock (some m.cur)).push
          [.removeSelf lock, .spinlockRelease (.waiters lock)])
      | some _ => .ok (m.push [.intrDisable (.lockAcquire lock)])
  | .spinlockAcquire lock =>
      if m.k.occupied lock then
        -- with interrupts on the loop goes on until some interrupt; with interrupts off for ever
        if m.k.intr then .ok (m.push [.spinlockAcquire lock]) else .error (.spin lock)
      else .ok { m with k := { m.k with occupied := update m.k.occupied lock true } }
  | .spinlockRelease lock => .ok { m with k := spinlockRelease lock m.k }
  | .appendSelf list => .ok { m with k := m.k.append list (.generalTag m.cur) }
  | .removeSelf _ => .ok { m with k := m.k.remove (.generalTag m.cur) }
  | .intrDisable part => .ok ({ m with k := { m.k with intr := false } }.push (part.code m.k.intr))
  | .intrSetStatus status => .ok { m with k := { m.k with intr := status } }
  | .intrEnable => .ok { m with k := { m.k with intr := true } }
  | .iret flag => .ok { m with k := { m.k with intr := flag } }
  | .setStatus status => .ok { m with k := m.k.setStatus m.cur status }
  | .schedule _ => do
      let k ← schedule m.k
      return { m with k := k }
  | .assertHolder lock => do
      kassert (m.holder lock = some m.cur)
      return m
  | .clearHolder lock => .ok (m.setHolder lock none)
  | .ifWaiters lock =>
      if listEmpty m.k.heap (klist (.waiters lock)) then
        .ok (m.push [.spinlockRelease (.waiters lock)])
      else .ok (m.push [.popWaiter lock])
  | .popWaiter lock => do
      let (thread, k) ← popThread (.waiters lock) m.k
      return { m with k := k }.push [.spinlockRelease (.waiters lock), .ifBlocked thread]
  | .ifBlocked thread =>
      if (m.k.task thread).status = .blocked then .ok (m.push [.unblock thread]) else .ok m
  | .unblock thread => do
      let k ← threadUnblock thread m.k
      return { m with k := k }
  | .ifSleepers cond =>
      if listEmpty m.k.heap (klist (.cond cond)) then .ok m else .ok (m.push [.popSleeper cond])
  | .popSleeper cond => do
      let (thread, k) ← popThread (.cond cond) m.k
      return { m with k := k }.push [.unblock thread]
  | .whileZero sem =>
      if m.value sem = 0 then
        .ok (m.push [.call (.conditionWait (.sem sem) (.sem sem)), .whileZero sem])
      else .ok m
  | .decrement sem =>
      .ok { m with value := update m.value sem ((m.value sem - 1).bmod (2 ^ 32)) }
  | .increment sem =>
      .ok { m with value := update m.value sem ((m.value sem + 1).bmod (2 ^ 32)) }
  | .assertBlock status => do
      kassert (status = .blocked ∨ status = .running ∨ status = .hanging)
      return m
  | .initStatus task => .ok { m with k := initStatus task m.k }
  | .allocatePid task => .ok { m with k := allocatePid task m.k }
  | .initSlice task priority => .ok { m with k := initSlice task priority m.k }
  | .threadCreate task => .ok (m.setCode task [.intrEnable])
  | .assertNew list task => do
      assertNotExist m.k list (tagFor list task)
      return m
  | .enlist list task => .ok { m with k := m.k.append list (tagFor list task) }

theorem popThread_fields {list : ListId} {k k' : Kernel} {t : Tid}
    (h : popThread list k = .ok (t, k')) : k' = { k with heap := (listPop k.heap (klist list)).2 } := by
  obtain ⟨thread, -, h⟩ := bind_ok h
  cases h
  rfl

namespace Machine

@[simp] theorem setCode_cur (m : Machine) (t : Tid) (code : List Instr) :
    (m.setCode t code).cur = m.cur := rfl

@[simp] theorem push_cur (m : Machine) (code : List Instr) : (m.push code).cur = m.cur := rfl

theorem push_code_of_ne (m : Machine) (code : List Instr) {t : Tid} (ht : t ≠ m.cur) :
    (m.push code).code t = m.code t := update_of_ne ht _ _

theorem enter_cur (m : Machine) (f : Fn) : (m.enter f).cur = m.cur := by
  cases f <;> rfl

theorem enter_code_of_ne (m : Machine) (f : Fn) {t : Tid} (ht : t ≠ m.cur) :
    (m.enter f).code t = m.code t := by
  cases f <;> exact push_code_of_ne _ _ ht

end Machine

/-- Only `schedule` changes the running thread. -/
theorem exec_cur {m m' : Machine} {i : Instr} (h : exec m i = .ok m')
    (hi : ∀ site, i ≠ .schedule site) : m'.cur = m.cur := by
  cases i with
  | call f =>
      cases h
      exact m.enter_cur f
  | ret f => cases f <;> (cases h; rfl)
  | whileCas lock => rw [exec] at h; split at h <;> (cases h; rfl)
  | ifCas lock => rw [exec] at h; split at h <;> (cases h; rfl)
  | spinlockAcquire lock =>
      rw [exec] at h
      split at h
      · split at h <;> cases h
        rfl
      · cases h
        rfl
  | schedule site => exact absurd rfl (hi site)
  | assertHolder lock =>
      obtain ⟨_, -, h⟩ := bind_ok h
      cases h
      rfl
  | ifWaiters lock => rw [exec] at h; split at h <;> (cases h; rfl)
  | popWaiter lock =>
      obtain ⟨⟨thread, k⟩, hpop, h⟩ := bind_ok h
      obtain rfl := popThread_fields hpop
      cases h
      rfl
  | ifBlocked thread => rw [exec] at h; split at h <;> (cases h; rfl)
  | unblock thread =>
      obtain ⟨k, hunblock, h⟩ := bind_ok h
      obtain ⟨-, -, rfl⟩ := threadUnblock_ok hunblock
      cases h
      rfl
  | ifSleepers cond => rw [exec] at h; split at h <;> (cases h; rfl)
  | popSleeper cond =>
      obtain ⟨⟨thread, k⟩, hpop, h⟩ := bind_ok h
      obtain rfl := popThread_fields hpop
      cases h
      rfl
  | whileZero sem => rw [exec] at h; split at h <;> (cases h; rfl)
  | assertBlock status =>
      obtain ⟨_, -, h⟩ := bind_ok h
      cases h
      rfl
  | assertNew list task =>
      obtain ⟨_, -, h⟩ := bind_ok h
      cases h
      rfl
  | _ =>
      cases h
      rfl

/-- A statement changes no code but that of the running thread and of a thread it creates. -/
theorem exec_code {m m' : Machine} {i : Instr} (h : exec m i = .ok m') {t : Tid} (ht : t ≠ m.cur) :
    m'.code t = m.code t ∨ i = .threadCreate t ∧ m'.code t = [.intrEnable] := by
  have hpush : ∀ (n : Machine) code, n.cur = m.cur → (n.push code).code t = n.code t :=
    fun n code hn => n.push_code_of_ne code (hn ▸ ht)
  cases i with
  | call f =>
      cases h
      exact Or.inl (m.enter_code_of_ne f ht)
  | ret f => cases f <;> (cases h; exact Or.inl rfl)
  | whileCas lock =>
      rw [exec] at h
      split at h <;> cases h
      · exact Or.inl rfl
      · exact Or.inl (hpush _ _ rfl)
  | ifCas lock => rw [exec] at h; split at h <;> (cases h; exact Or.inl (hpush _ _ rfl))
  | spinlockAcquire lock =>
      rw [exec] at h
      split at h
      · split at h <;> cases h
        exact Or.inl (hpush _ _ rfl)
      · cases h
        exact Or.inl rfl
  | intrDisable part =>
      cases h
      exact Or.inl (hpush _ _ rfl)
  | schedule site =>
      obtain ⟨k, -, h⟩ := bind_ok h
      cases h
      exact Or.inl rfl
  | assertHolder lock =>
      obtain ⟨_, -, h⟩ := bind_ok h
      cases h
      exact Or.inl rfl
  | ifWaiters lock => rw [exec] at h; split at h <;> (cases h; exact Or.inl (hpush _ _ rfl))
  | popWaiter lock =>
      obtain ⟨⟨thread, k⟩, hpop, h⟩ := bind_ok h
      obtain rfl := popThread_fields hpop
      cases h
      exact Or.inl (hpush _ _ rfl)
  | ifBlocked thread =>
      rw [exec] at h
      split at h <;> cases h
      · exact Or.inl (hpush _ _ rfl)
      · exact Or.inl rfl
  | unblock thread =>
      obtain ⟨k, hunblock, h⟩ := bind_ok h
      cases h
      exact Or.inl rfl
  | ifSleepers cond =>
      rw [exec] at h
      split at h <;> cases h
      · exact Or.inl rfl
      · exact Or.inl (hpush _ _ rfl)
  | popSleeper cond =>
      obtain ⟨⟨thread, k⟩, hpop, h⟩ := bind_ok h
      obtain rfl := popThread_fields hpop
      cases h
      exact Or.inl (hpush _ _ rfl)
  | whileZero sem =>
      rw [exec] at h
      split at h <;> cases h
      · exact Or.inl (hpush _ _ rfl)
      · exact Or.inl rfl
  | assertBlock status =>
      obtain ⟨_, -, h⟩ := bind_ok h
      cases h
      exact Or.inl rfl
  | assertNew list task =>
      obtain ⟨_, -, h⟩ := bind_ok h
      cases h
      exact Or.inl rfl
  | threadCreate task =>
      cases h
      by_cases htask : t = task
      · rw [htask]
        exact Or.inr ⟨rfl, update_self _ _ _⟩
      · exact Or.inl (update_of_ne htask _ _)
  | _ =>
      cases h
      exact Or.inl rfl

/-- What can happen next: the running thread executes a statement; a timer interrupt comes; the
running thread, outside of any call, calls a function, makes a system call or changes the flag; a
ready thread is taken to the front, so that any ready thread may be dispatched next. -/
inductive Event where
  | step
  | tick
  | call (f : Fn)
  | int80 (lock : LockId)
  | setIntr (status : Bool)
  | promote (t : Tid)
  deriving DecidableEq

def Event.Enabled (m : Machine) : Event → Prop
  | .step => m.code m.cur ≠ []
  | .tick => m.k.intr = true
  | .call f => m.code m.cur = [] ∧ ∀ task ∈ f.page, task ∉ m.k.tasks
  | .int80 _ => m.code m.cur = []
  | .setIntr _ => m.code m.cur = []
  | .promote t =>
      listExist (m.k.tasks.length + 1) m.k.heap (klist .ready) (.generalTag t) = some true

/-- `int 0x80` goes through an interrupt gate. -/
def Event.run (m : Machine) : Event → Except Halt Machine
  | .step =>
      match m.code m.cur with
      | [] => .ok m
      | i :: rest => exec (m.setCode m.cur rest) i
  | .tick => do
      let m := { m with k := { m.k with intr := false } }.push [.iret true]
      let k ← intrTimerHandler m.k
      return { m with k := k }
  | .call f => .ok (({ m with k := { m.k with tasks := m.k.tasks ++ f.page } }).enter f)
  | .int80 lock =>
      .ok ((({ m with k := { m.k with intr := false } }).push [.iret m.k.intr]).enter
        (.underLock lock))
  | .setIntr status => .ok { m with k := { m.k with intr := status } }
  | .promote t =>
      .ok { m with k := (m.k.remove (.generalTag t)).push .ready (.generalTag t) }

/-- Why an event does not end. -/
def Event.halt (m : Machine) (e : Event) : Option Halt :=
  match e.run m with
  | .ok _ => none
  | .error halt => some halt

theorem Event.halt_eq {m : Machine} {e : Event} {halt : Halt} :
    e.halt m = some halt ↔ e.run m = .error halt := by
  rw [Event.halt]
  cases e.run m <;> simp

instance enabledDecidable (m : Machine) : (e : Event) → Decidable (e.Enabled m)
  | .step => inferInstanceAs (Decidable (m.code m.cur ≠ []))
  | .tick => inferInstanceAs (Decidable (m.k.intr = true))
  | .call f => inferInstanceAs (Decidable (m.code m.cur = [] ∧ ∀ task ∈ f.page, task ∉ m.k.tasks))
  | .int80 _ => inferInstanceAs (Decidable (m.code m.cur = []))
  | .setIntr _ => inferInstanceAs (Decidable (m.code m.cur = []))
  | .promote _ => inferInstanceAs (Decidable (listExist _ _ _ _ = some true))

/-- An event that ends, under a condition on the state before it. -/
def Machine.Step (allowed : Machine → Event → Prop) (m m' : Machine) : Prop :=
  ∃ e : Event, e.Enabled m ∧ allowed m e ∧ e.run m = .ok m'

/-- Every list of the thread layer after its `listInit`. -/
def initHeap : ListHeap Node where
  next
    | .head list => .tail list
    | _ => .null
  prev
    | .tail list => .head list
    | _ => .null

/-- The boot state: `threadSupportInit` has made `main` a thread, every lock, condition and
semaphore is set up, and interrupts are off. -/
def Booted (m : Machine) : Prop :=
  ∃ (main : Tid) (k : Kernel), threadSupportInit main { k with heap := initHeap, intr := false } = .ok m.k ∧
    (∀ lock, m.holder lock = none) ∧ (∀ t, m.code t = []) ∧ ∀ t lock, m.owns t lock = false

def Reached (allowed : Machine → Event → Prop) (m : Machine) : Prop :=
  ∃ m₀, Booted m₀ ∧ Relation.ReflTransGen (Machine.Step allowed) m₀ m

theorem Reached.mono {allowed allowed' : Machine → Event → Prop}
    (himp : ∀ m e, allowed m e → allowed' m e) {m : Machine} (h : Reached allowed m) :
    Reached allowed' m := by
  obtain ⟨m₀, hboot, hrun⟩ := h
  refine ⟨m₀, hboot, Relation.ReflTransGen.mono ?_ _ _ hrun⟩
  rintro a b ⟨e, henabled, hallowed, he⟩
  exact ⟨e, henabled, himp a e hallowed, he⟩

/-- The timer interrupt that finds one tick left ends the slice. -/
def Machine.SliceEnds (m : Machine) : Prop := ((m.k.task m.cur).ticks + 255) % 2 ^ 8 = 0

/-- An invariant of the boot states that every allowed event keeps holds in every reached state. -/
theorem Reached.induct {allowed : Machine → Event → Prop} {P : Machine → Prop}
    (hboot : ∀ m, Booted m → P m)
    (hstep : ∀ m e m', P m → e.Enabled m → allowed m e → e.run m = .ok m' → P m') {m : Machine}
    (h : Reached allowed m) : P m := by
  obtain ⟨m₀, h₀, hrun⟩ := h
  induction hrun with
  | refl => exact hboot m₀ h₀
  | tail _ hlast ih =>
      obtain ⟨e, henabled, hallowed, he⟩ := hlast
      exact hstep _ e _ ih henabled hallowed he

/-- The state after a list of events, if each is enabled, passes the check and ends. -/
def play (check : Machine → Event → Bool) : List Event → Machine → Option Machine
  | [], m => some m
  | e :: es, m =>
      if e.Enabled m ∧ check m e then
        match e.run m with
        | .ok m' => play check es m'
        | .error _ => none
      else none

/-- No condition on the events. -/
def anyEvent (_ : Machine) (_ : Event) : Prop := True

theorem play_steps {allowed : Machine → Event → Prop} {check : Machine → Event → Bool}
    (hcheck : ∀ m e, check m e = true → allowed m e) {es : List Event} {m m' : Machine}
    (h : play check es m = some m') : Relation.ReflTransGen (Machine.Step allowed) m m' := by
  induction es generalizing m with
  | nil =>
      cases h
      exact .refl
  | cons e es ih =>
      rw [play] at h
      split at h
      case isTrue henabled =>
        split at h
        case h_1 m₁ hrun =>
          exact .head ⟨e, henabled.1, hcheck m e henabled.2, hrun⟩ (ih h)
        case h_2 => cases h
      case isFalse => cases h

/-- A check that lets no timer interrupt pass. -/
def untimed (_ : Machine) (e : Event) : Bool := e ≠ .tick

end HoloOS
