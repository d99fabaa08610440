import HoloOS.SyncEvents

/-! Where a thread is in `lockAcquire` or `lockRelease` when these are called with interrupts off. A
position stands for what is left of the two functions; everything after it is code of the callers,
which touches no lock, no waiters and no thread in one of the two functions. -/

namespace HoloOS

open Function

/-- The positions in `lockAcquire` and `lockRelease`, in the order of the source. The way out of
`lockAcquire` through `listRemove` is missing: with interrupts off nobody releases the lock between
its two attempts. -/
inductive Position where
  | outside
  | trying (lock : LockId)
  | locking (lock : LockId)
  | linking (lock : LockId)
  | retrying (lock : LockId)
  | disabling (lock : LockId)
  | blocking (lock : LockId)
  | unlocking (lock : LockId)
  | sleeping (lock : LockId)
  | resuming (lock : LockId)
  | winning (lock : LockId)
  | asserting (lock : LockId)
  | clearing (lock : LockId)
  | searching (lock : LockId)
  | testing (lock : LockId)
  | closing (lock : LockId)
  | popping (lock : LockId)
  | popped (lock : LockId) (thread : Tid)
  | checking (lock : LockId) (thread : Tid)
  | waking (lock : LockId) (thread : Tid)
  | leaving (lock : LockId)
  deriving DecidableEq

namespace Position

/-- What is left of the function. -/
@[simp] def code : Position → List Instr
  | outside => []
  | trying lock => [.whileCas lock, .ret (.lockAcquire lock)]
  | locking lock =>
      [.spinlockAcquire (.waiters lock), .appendSelf (.waiters lock), .ifCas lock,
       .ret (.lockAcquire lock)]
  | linking lock => [.appendSelf (.waiters lock), .ifCas lock, .ret (.lockAcquire lock)]
  | retrying lock => [.ifCas lock, .ret (.lockAcquire lock)]
  | disabling lock => [.intrDisable (.lockAcquire lock), .ret (.lockAcquire lock)]
  | blocking lock =>
      [.setStatus .blocked, .spinlockRelease (.waiters lock), .schedule (.wait (.waiters lock)),
       .intrSetStatus false, .whileCas lock, .ret (.lockAcquire lock)]
  | unlocking lock =>
      [.spinlockRelease (.waiters lock), .schedule (.wait (.waiters lock)), .intrSetStatus false,
       .whileCas lock, .ret (.lockAcquire lock)]
  | sleeping lock =>
      [.schedule (.wait (.waiters lock)), .intrSetStatus false, .whileCas lock,
       .ret (.lockAcquire lock)]
  | resuming lock => [.intrSetStatus false, .whileCas lock, .ret (.lockAcquire lock)]
  | winning lock => [.ret (.lockAcquire lock)]
  | asserting lock =>
      [.assertHolder lock, .clearHolder lock, .spinlockAcquire (.waiters lock), .ifWaiters lock,
       .ret (.lockRelease lock)]
  | clearing lock =>
      [.clearHolder lock, .spinlockAcquire (.waiters lock), .ifWaiters lock,
       .ret (.lockRelease lock)]
  | searching lock => [.spinlockAcquire (.waiters lock), .ifWaiters lock, .ret (.lockRelease lock)]
  | testing lock => [.ifWaiters lock, .ret (.lockRelease lock)]
  | closing lock => [.spinlockRelease (.waiters lock), .ret (.lockRelease lock)]
  | popping lock => [.popWaiter lock, .ret (.lockRelease lock)]
  | popped lock thread =>
      [.spinlockRelease (.waiters lock), .ifBlocked thread, .ret (.lockRelease lock)]
  | checking lock thread => [.ifBlocked thread, .ret (.lockRelease lock)]
  | waking lock thread => [.unblock thread, .ret (.lockRelease lock)]
  | leaving lock => [.ret (.lockRelease lock)]

/-- The lock that is being acquired. -/
@[simp] def acquires : Position → Option LockId
  | trying lock | locking lock | linking lock | retrying lock | disabling lock | blocking lock
  | unlocking lock | sleeping lock | resuming lock | winning lock => some lock
  | _ => none

/-- The lock that is being released. -/
@[simp] def releases : Position → Option LockId
  | asserting lock | clearing lock | searching lock | testing lock | closing lock | popping lock
  | popped lock _ | checking lock _ | waking lock _ | leaving lock => some lock
  | _ => none

/-- The lock into whose waiters the own tag is linked. -/
@[simp] def linked : Position → Option LockId
  | retrying lock | disabling lock | blocking lock | unlocking lock | sleeping lock => some lock
  | _ => none

/-- The lock one of whose waiters is still going to be made ready. -/
@[simp] def wakes : Position → Option LockId
  | searching lock | testing lock | popping lock | popped lock _ | checking lock _
  | waking lock _ => some lock
  | _ => none

/-- The thread taken off the waiters and not yet made ready. -/
@[simp] def thread : Position → Option Tid
  | popped _ thread | checking _ thread | waking _ thread => some thread
  | _ => none

/-- The lock that is going to be tried next. -/
@[simp] def tries : Position → Option LockId
  | trying lock | resuming lock => some lock
  | _ => none

end Position

/-- A statement of a function other than `lockAcquire` and `lockRelease`; the flag that
`intrSetStatus` restores was off. -/
def Instr.Outer : Instr → Prop
  | ret (.lockAcquire _) => False
  | ret (.lockRelease _) => False
  | whileCas _ => False
  | ifCas _ => False
  | spinlockAcquire (.waiters _) => False
  | spinlockRelease (.waiters _) => False
  | appendSelf (.cond _) => True
  | appendSelf _ => False
  | removeSelf _ => False
  | intrDisable (.lockAcquire _) => False
  | intrSetStatus status => status = false
  | schedule (.wait (.cond _)) => True
  | schedule (.wait _) => False
  | assertHolder _ => False
  | clearHolder _ => False
  | ifWaiters _ => False
  | popWaiter _ => False
  | ifBlocked _ => False
  | enlist (.waiters _) _ => False
  | _ => True

/-- The statements with which interrupts come on. -/
def Instr.Last : Instr → Prop
  | intrEnable => True
  | iret _ => True
  | _ => False

/-- Code of the callers, in which interrupts come on with the last statement only. -/
def CallerCode : List Instr → Prop
  | [] => True
  | i :: rest => i.Outer ∧ (i.Last → rest = []) ∧ CallerCode rest

@[simp] theorem callerCode_nil : CallerCode [] := trivial

@[simp] theorem callerCode_cons {i : Instr} {rest : List Instr} :
    CallerCode (i :: rest) ↔ i.Outer ∧ (i.Last → rest = []) ∧ CallerCode rest := Iff.rfl

theorem CallerCode.outer {code : List Instr} (h : CallerCode code) {i : Instr} (hi : i ∈ code) :
    i.Outer := by
  induction code with
  | nil => cases hi
  | cons j rest ih =>
      rcases List.mem_cons.1 hi with rfl | hi
      · exact h.1
      · exact ih h.2.2 hi

/-- A thread at a position, with code of the callers after it. -/
def At (p : Position) (code : List Instr) : Prop := ∃ far, code = p.code ++ far ∧ CallerCode far

theorem at_outside {code : List Instr} : At .outside code ↔ CallerCode code := by
  constructor
  · rintro ⟨far, rfl, hfar⟩
    exact hfar
  · exact fun h => ⟨code, rfl, h⟩

theorem At.outside_of_nil {p : Position} (h : At p []) : p = .outside := by
  obtain ⟨far, hcode, -⟩ := h
  cases p <;> first | rfl | simp at hcode

/-- Being inside `lockAcquire` shows in the position. -/
theorem At.ret_lockAcquire {p : Position} {code : List Instr} (h : At p code) {lock : LockId} :
    .ret (.lockAcquire lock) ∈ code ↔ p.acquires = some lock := by
  obtain ⟨far, rfl, hfar⟩ := h
  have hnot : .ret (.lockAcquire lock) ∉ far := fun hm => hfar.outer hm
  cases p <;> simp [hnot, eq_comm]

theorem At.ret_lockRelease {p : Position} {code : List Instr} (h : At p code) {lock : LockId} :
    .ret (.lockRelease lock) ∈ code ↔ p.releases = some lock := by
  obtain ⟨far, rfl, hfar⟩ := h
  have hnot : .ret (.lockRelease lock) ∉ far := fun hm => hfar.outer hm
  cases p <;> simp [hnot, eq_comm]

/-- A thread that is going to try a lock has the compare-and-swap in its code. -/
theorem At.whileCas {p : Position} {code : List Instr} (h : At p code) {lock : LockId}
    (htries : p.tries = some lock) : .whileCas lock ∈ code := by
  obtain ⟨far, rfl, -⟩ := h
  cases p <;> simp_all

/-- Functions other than the two consist of code of the callers. -/
theorem callerCode_body {f : Fn} (hacquire : ∀ lock, f ≠ .lockAcquire lock)
    (hrelease : ∀ lock, f ≠ .lockRelease lock) {rest : List Instr} (hrest : CallerCode rest) :
    CallerCode (f.body ++ .ret f :: rest) := by
  cases f with
  | lockAcquire lock => exact absurd rfl (hacquire lock)
  | lockRelease lock => exact absurd rfl (hrelease lock)
  | _ => simpa [Fn.body, threadInitCode, enlistCode, Instr.Outer, Instr.Last] using hrest

theorem callerCode_offPart {part : OffPart} (hpart : (Instr.intrDisable part).Outer)
    {rest : List Instr} (hrest : CallerCode rest) : CallerCode (part.code false ++ rest) := by
  cases part with
  | lockAcquire lock => exact hpart.elim
  | _ => simpa [OffPart.code, enlistCode, Instr.Outer, Instr.Last] using hrest

/-- What a statement of a caller leaves alone. -/
structure Undisturbed (m m' : Machine) (i : Instr) : Prop where
  holder : m'.holder = m.holder
  owns : m'.owns = m.owns
  code : CallerCode (m'.code m.cur)
  intr : m'.k.intr = true → m'.code m.cur = []
  status : ∀ t, t ≠ m.cur → (m'.k.task t).status = (m.k.task t).status ∨
    (i = .unblock t ∨ i = .initStatus t) ∧
      ((m'.k.task t).status = .ready ∨ (m'.k.task t).status = .running)

variable {m m' : Machine}

/-- Statements that leave the threads' statuses and the locks alone. -/
theorem Undisturbed.of_code {i : Instr} (hintr : m.k.intr = false) (hholder : m'.holder = m.holder)
    (howns : m'.owns = m.owns) (hcode : CallerCode (m'.code m.cur))
    (hintr' : m'.k.intr = m.k.intr)
    (hstatus : ∀ t, t ≠ m.cur → (m'.k.task t).status = (m.k.task t).status) :
    Undisturbed m m' i where
  holder := hholder
  owns := howns
  code := hcode
  intr he := absurd (he.symm.trans (hintr'.trans hintr)) (by simp)
  status t ht := Or.inl (hstatus t ht)

theorem callerCode_push {code : List Instr} (hcode : CallerCode (code ++ m.code m.cur)) :
    CallerCode ((m.push code).code m.cur) := by
  simpa [Machine.push, Machine.setCode] using hcode

theorem allocatePid_status (k : Kernel) (task t : Tid) :
    ((allocatePid task k).task t).status = (k.task t).status := by
  by_cases ht : t = task
  · simp [allocatePid, Kernel.setTask, ht]
  · simp [allocatePid, Kernel.setTask, ht]

theorem initSlice_status (k : Kernel) (task t : Tid) (priority : Nat) :
    ((initSlice task priority k).task t).status = (k.task t).status := by
  by_cases ht : t = task
  · simp [initSlice, Kernel.setTask, ht]
  · simp [initSlice, Kernel.setTask, ht]

theorem initStatus_status (k : Kernel) (task t : Tid) : ((initStatus task k).task t).status =
    if t = task then (if task = k.mainThread then .running else .ready) else (k.task t).status := by
  by_cases ht : t = task
  · simp [initStatus, Kernel.setStatus, Kernel.setTask, ht]
  · simp [initStatus, Kernel.setStatus, Kernel.setTask, ht]

theorem woken_status (k : Kernel) (thread t : Tid) :
    ((k.woken thread).task t).status = if t = thread then .ready else (k.task t).status := by
  by_cases ht : t = thread
  · simp [Kernel.woken, Kernel.setStatus, Kernel.setTask, ht]
  · simp [Kernel.woken, Kernel.setStatus, Kernel.setTask, Kernel.push, ht]

section Statement

variable (hintr : m.k.intr = false) (hrest : CallerCode (m.code m.cur))
include hintr hrest

theorem Undisturbed.refl (i : Instr) : Undisturbed m m i :=
  .of_code hintr rfl rfl hrest rfl fun _ _ => rfl

/-- A thread is woken. -/
theorem unblock_undisturbed {thread : Tid} (hexec : exec m (.unblock thread) = .ok m') :
    Undisturbed m m' (.unblock thread) := by
  obtain ⟨k', hunblock, hm'⟩ := bind_ok hexec
  obtain ⟨-, -, rfl⟩ := threadUnblock_ok hunblock
  cases hm'
  refine ⟨rfl, rfl, hrest, fun he => absurd (he.symm.trans hintr) (by simp), fun t _ => ?_⟩
  have hstatus := woken_status m.k thread t
  by_cases ht : t = thread
  · rw [if_pos ht] at hstatus
    exact Or.inr ⟨Or.inl (by rw [ht]), Or.inl hstatus⟩
  · rw [if_neg ht] at hstatus
    exact Or.inl hstatus

/-- A new thread is ready, and the main thread runs. -/
theorem initStatus_undisturbed {task : Tid} (hexec : exec m (.initStatus task) = .ok m') :
    Undisturbed m m' (.initStatus task) := by
  cases hexec
  refine ⟨rfl, rfl, hrest, fun he => absurd (he.symm.trans hintr) (by simp), fun t _ => ?_⟩
  have hstatus := initStatus_status m.k task t
  by_cases ht : t = task
  · rw [if_pos ht] at hstatus
    refine Or.inr ⟨Or.inr (by rw [ht]), ?_⟩
    by_cases hmain : task = m.k.mainThread
    · rw [if_pos hmain] at hstatus
      exact Or.inr hstatus
    · rw [if_neg hmain] at hstatus
      exact Or.inl hstatus
  · rw [if_neg ht] at hstatus
    exact Or.inl hstatus

/-- The code that a new thread gets is not the code of the running one. -/
theorem threadCreate_undisturbed {task : Tid} (hne : task ≠ m.cur) (hexec : exec m (.threadCreate task) = .ok m') :
    Undisturbed m m' (.threadCreate task) := by
  cases hexec
  refine .of_code hintr rfl rfl ?_ rfl fun _ _ => rfl
  have hsame : (m.setCode task [.intrEnable]).code m.cur = m.code m.cur := update_of_ne (Ne.symm hne) _ _
  rw [hsame]
  exact hrest

theorem popSleeper_undisturbed {cond : CondId} (hexec : exec m (.popSleeper cond) = .ok m') :
    Undisturbed m m' (.popSleeper cond) := by
  obtain ⟨⟨thread, k⟩, hpop, hm'⟩ := bind_ok hexec
  obtain rfl := popThread_fields hpop
  cases hm'
  exact .of_code hintr rfl rfl (callerCode_push (m := { m with k := _ }) ⟨trivial, False.elim, hrest⟩) rfl
    fun _ _ => rfl

theorem intrDisable_undisturbed {part : OffPart} (hi : (Instr.intrDisable part).Outer)
    (hexec : exec m (.intrDisable part) = .ok m') : Undisturbed m m' (.intrDisable part) := by
  cases hexec
  refine .of_code hintr rfl rfl ?_ hintr.symm fun _ _ => rfl
  rw [hintr]
  exact callerCode_push (m := { m with k := { m.k with intr := false } }) (callerCode_offPart hi hrest)

/-- A statement of a caller other than a call or a switch. -/
theorem exec_undisturbed {i : Instr} (hi : i.Outer) (hlast : i.Last → m.code m.cur = [])
    (hcall : ∀ f, i ≠ .call f) (hsched : ∀ site, i ≠ .schedule site)
    (hpre : ∀ task, i = .threadCreate task → task ≠ m.cur) (hexec : exec m i = .ok m') : Undisturbed m m' i := by
  cases i with
  | call f => exact absurd rfl (hcall f)
  | schedule site => exact absurd rfl (hsched site)
  | ret f => cases f <;> first | exact hi.elim | (cases hexec; exact .refl hintr hrest _)
  | spinlockAcquire lock =>
      rw [exec] at hexec
      split at hexec
      · rw [if_neg (by simp [hintr])] at hexec
        cases hexec
      · cases hexec
        exact .of_code hintr rfl rfl hrest rfl fun _ _ => rfl
  | spinlockRelease lock =>
      cases hexec
      exact .of_code hintr rfl rfl hrest rfl fun _ _ => rfl
  | appendSelf list =>
      cases hexec
      exact .of_code hintr rfl rfl hrest rfl fun _ _ => rfl
  | intrDisable part => exact intrDisable_undisturbed hintr hrest hi hexec
  | intrSetStatus status =>
      obtain rfl : status = false := hi
      cases hexec
      exact .of_code hintr rfl rfl hrest hintr.symm fun _ _ => rfl
  | intrEnable =>
      cases hexec
      exact ⟨rfl, rfl, hrest, fun _ => hlast trivial, fun _ _ => Or.inl rfl⟩
  | iret flag =>
      cases hexec
      exact ⟨rfl, rfl, hrest, fun _ => hlast trivial, fun _ _ => Or.inl rfl⟩
  | setStatus status =>
      cases hexec
      refine .of_code hintr rfl rfl hrest rfl fun t ht => ?_
      have ht' : t ≠ m.k.cur := ht
      simp [Kernel.setStatus, Kernel.setTask, Machine.cur, ht']
  | unblock thread => exact unblock_undisturbed hintr hrest hexec
  | ifSleepers cond =>
      rw [exec] at hexec
      split at hexec <;> cases hexec
      · exact .refl hintr hrest _
      · exact .of_code hintr rfl rfl (callerCode_push ⟨trivial, False.elim, hrest⟩) rfl fun _ _ => rfl
  | popSleeper cond => exact popSleeper_undisturbed hintr hrest hexec
  | whileZero sem =>
      rw [exec] at hexec
      split at hexec <;> cases hexec
      · exact .of_code hintr rfl rfl
          (callerCode_push ⟨trivial, False.elim, trivial, False.elim, hrest⟩) rfl fun _ _ => rfl
      · exact .refl hintr hrest _
  | decrement sem =>
      cases hexec
      exact .of_code hintr rfl rfl hrest rfl fun _ _ => rfl
  | increment sem =>
      cases hexec
      exact .of_code hintr rfl rfl hrest rfl fun _ _ => rfl
  | assertBlock status =>
      obtain ⟨_, -, hm'⟩ := bind_ok hexec
      cases hm'
      exact .refl hintr hrest _
  | initStatus task => exact initStatus_undisturbed hintr hrest hexec
  | allocatePid task =>
      cases hexec
      exact .of_code hintr rfl rfl hrest rfl fun t _ => allocatePid_status m.k task t
  | initSlice task priority =>
      cases hexec
      exact .of_code hintr rfl rfl hrest rfl fun t _ => initSlice_status m.k task t priority
  | threadCreate task => exact threadCreate_undisturbed hintr hrest (hpre task rfl) hexec
  | assertNew list task =>
      obtain ⟨_, -, hm'⟩ := bind_ok hexec
      cases hm'
      exact .refl hintr hrest _
  | enlist list task =>
      cases hexec
      exact .of_code hintr rfl rfl hrest rfl fun _ _ => rfl
  | _ => exact hi.elim

end Statement

end HoloOS
