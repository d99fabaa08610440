import HoloOS.DeviceIoqueue
import HoloOS.SyncFlag

/-! The keyboard interrupt on the statement machine. `intrKeyboardHandler` runs on whatever thread is
running, with interrupts off, and puts a character into `keyboardBuf` with the same
`ioqueuePutchar` that threads use. Its calls are executed statement by statement until it returns,
comes to a `schedule` or makes no further progress. -/

namespace HoloOS

open Function

structure Keyboard where
  ctrlStatus : Bool
  shiftStatus : Bool
  altStatus : Bool
  capslockStatus : Bool
  extScancode : Bool
  deriving DecidableEq

/-- Make codes of control characters. -/
def shiftLMake : Nat := 0x2a
def shiftRMake : Nat := 0x36
def altLMake : Nat := 0x38
def altRMake : Nat := 0xe038
def ctrlLMake : Nat := 0x1d
def ctrlRMake : Nat := 0xe01d
def capsLockMake : Nat := 0x3a

/-- The characters of a make code, without and with shift; 0 is `CHAR_INVISIBLE`. -/
def keymap : List (Nat × Nat) :=
  [(0, 0), (27, 27), (49, 33), (50, 64), (51, 35), (52, 36), (53, 37), (54, 94), (55, 38), (56, 42),
   (57, 40), (48, 41), (45, 95), (61, 43), (8, 8), (9, 9), (113, 81), (119, 87), (101, 69), (114, 82),
   (116, 84), (121, 89), (117, 85), (105, 73), (111, 79), (112, 80), (91, 123), (93, 125), (13, 13),
   (0, 0), (97, 65), (115, 83), (100, 68), (102, 70), (103, 71), (104, 72), (106, 74), (107, 75),
   (108, 76), (59, 58), (39, 34), (96, 126), (0, 0), (92, 124), (122, 90), (120, 88), (99, 67),
   (118, 86), (98, 66), (110, 78), (109, 77), (44, 60), (46, 62), (47, 63), (0, 0), (42, 42), (0, 0),
   (32, 32), (0, 0)]

/-- The two `switch` statements, for a key that goes down or up. -/
def setModifier (kbd : Keyboard) (code : Nat) (down : Bool) : Keyboard :=
  if code = ctrlLMake ∨ code = ctrlRMake then { kbd with ctrlStatus := down }
  else if code = shiftLMake ∨ code = shiftRMake then { kbd with shiftStatus := down }
  else if code = altLMake ∨ code = altRMake then { kbd with altStatus := down }
  else if code = capsLockMake ∧ down then { kbd with capslockStatus := !kbd.capslockStatus }
  else kbd

/-- The codes whose second character takes shift alone. -/
def shiftOnly (code : Nat) : Bool :=
  code ≤ 0x0d ∨ code ∈ [0x29, 0x1a, 0x1b, 0x2b, 0x27, 0x28, 0x33, 0x34, 0x35]

/-- `intrKeyboardHandler` up to its call of `ioqueuePutchar`: the modifiers and the character, if
there is one to put. -/
def scan (kbd : Keyboard) (byte : BitVec 8) : Keyboard × Option (BitVec 8) :=
  if byte = 0xe0 then ({ kbd with extScancode := true }, none)
  else
    let scancode := if kbd.extScancode then byte.toNat ||| 0xe000 else byte.toNat
    let kbd := { kbd with extScancode := false }
    if scancode &&& 0x0080 ≠ 0 then (setModifier kbd (scancode &&& 0xff7f) false, none)
    else if 0x01 ≤ scancode ∧ scancode ≤ 0x3a then
      let shift := if shiftOnly scancode then kbd.shiftStatus
        else xor kbd.shiftStatus kbd.capslockStatus
      let idx := scancode &&& 0x00ff
      let chars := keymap.getD idx (0, 0)
      let ch := if shift then chars.2 else chars.1
      if ch ≠ 0 then (kbd, some (BitVec.ofNat 8 ch)) else (setModifier kbd idx true, none)
    else (kbd, none)

def keyboardLock : LockId := .named 0

def condNotEmpty : CondId := .named 0

def condNotFull : CondId := .named 1

/-- The statements of `ioqueueGetchar` and `ioqueuePutchar` on `keyboardBuf`. -/
inductive IoqStmt where
  | call (f : Fn)
  | whileEmpty
  | whileFull
  | get
  | put (ch : BitVec 8)
  deriving DecidableEq

def getcharCode : List IoqStmt :=
  [.call (.lockAcquire keyboardLock), .whileEmpty, .get, .call (.conditionSignal condNotFull),
   .call (.lockRelease keyboardLock)]

def putcharCode (ch : BitVec 8) : List IoqStmt :=
  [.call (.lockAcquire keyboardLock), .whileFull, .put ch, .call (.conditionSignal condNotEmpty),
   .call (.lockRelease keyboardLock)]

/-- The machine, the queue, and what is left of a queue operation of the running thread. -/
structure Handling where
  m : Machine
  ioq : Ioqueue
  prog : List IoqStmt

/-- One statement, already taken off the program. -/
def IoqStmt.run (c : Handling) : IoqStmt → Handling
  | .call f => { c with m := c.m.enter f }
  | .whileEmpty =>
      if ioqueueEmpty c.ioq then
        { c with prog := .call (.conditionWait condNotEmpty keyboardLock) :: .whileEmpty :: c.prog }
      else c
  | .whileFull =>
      if ioqueueFull c.ioq then
        { c with prog := .call (.conditionWait condNotFull keyboardLock) :: .whileFull :: c.prog }
      else c
  | .get => { c with ioq := ioqAct .ioqueueGetchar c.ioq }
  | .put ch => { c with ioq := ioqAct (.ioqueuePutchar ch) c.ioq }

/-- How a queue operation in an interrupt handler goes on. -/
inductive Outcome where
  | returned (m : Machine) (ioq : Ioqueue)
  | schedules (m : Machine) (ioq : Ioqueue)
  | halts (halt : Halt)

/-- One statement of a handler that interrupted the code `base`. -/
def Handling.next (base : List Instr) (c : Handling) : Handling ⊕ Outcome :=
  if c.m.code c.m.cur = base then
    match c.prog with
    | [] => .inr (.returned c.m c.ioq)
    | stmt :: prog => .inl (stmt.run { c with prog := prog })
  else if (c.m.code c.m.cur).head?.any Instr.isSchedule then .inr (.schedules c.m c.ioq)
  else
    match Event.step.run c.m with
    | .ok m => .inl { c with m := m }
    | .error halt => .inr (.halts halt)

/-- The handler goes on to that outcome. -/
inductive Ends (base : List Instr) : Handling → Outcome → Prop where
  | stop {c : Handling} {o : Outcome} (h : c.next base = .inr o) : Ends base c o
  | step {c c' : Handling} {o : Outcome} (h : c.next base = .inl c') (h' : Ends base c' o) :
      Ends base c o

/-- The statement machine with `keyboardBuf`, the modifiers, and what is left of the queue operation
each thread is in. -/
structure Keyed where
  m : Machine
  ioq : Ioqueue
  kbd : Keyboard
  prog : Tid → List IoqStmt

/-- The interrupt gate. -/
def Machine.gate (m : Machine) : Machine :=
  { m with k := { m.k with intr := false } }.push [.iret true]

/-- The handler at its call of `ioqueuePutchar`, or at its end. -/
def Keyed.handling (s : Keyed) (byte : BitVec 8) : Handling :=
  ⟨s.m.gate, s.ioq, ((scan s.kbd byte).2.map putcharCode).getD []⟩

def Keyed.base (s : Keyed) : List Instr := .iret true :: s.m.code s.m.cur

/-- `intrKeyboardHandler` runs to its end. -/
def Keyed.Returns (s : Keyed) (byte : BitVec 8) (m : Machine) (ioq : Ioqueue) : Prop :=
  Ends s.base (s.handling byte) (.returned m ioq)

inductive KeyEvent where
  | base (e : Event)
  | getchar
  | stmt
  | key (byte : BitVec 8)

/-- Between two statements of a queue operation a thread makes no call of its own. -/
def KeyEvent.Enabled (s : Keyed) : KeyEvent → Prop
  | .base e => e.Enabled s.m ∧ (s.prog s.m.cur = [] ∨ e = .step ∨ e = .tick ∨ ∃ t, e = .promote t)
  | .getchar => s.m.code s.m.cur = [] ∧ s.prog s.m.cur = []
  | .stmt => s.m.code s.m.cur = [] ∧ s.prog s.m.cur ≠ []
  | .key _ => s.m.k.intr = true

/-- The state after an event; a keyboard interrupt is followed as long as its handler returns. -/
inductive KeyEvent.Run (s : Keyed) : KeyEvent → Keyed → Prop where
  | base {e : Event} {m' : Machine} (h : e.run s.m = .ok m') : Run s (.base e) { s with m := m' }
  | getchar : Run s .getchar { s with prog := update s.prog s.m.cur getcharCode }
  | stmt {i : IoqStmt} {rest : List IoqStmt} {c : Handling} (h : s.prog s.m.cur = i :: rest)
      (hc : i.run ⟨s.m, s.ioq, rest⟩ = c) :
      Run s .stmt { s with m := c.m, ioq := c.ioq, prog := update s.prog s.m.cur c.prog }
  | key {byte : BitVec 8} {m' : Machine} {ioq' : Ioqueue} (h : s.Returns byte m' ioq') :
      Run s (.key byte) { s with m := m', ioq := ioq', kbd := (scan s.kbd byte).1 }

def Keyed.Step (allowed : Keyed → KeyEvent → Prop) (s s' : Keyed) : Prop :=
  ∃ e : KeyEvent, e.Enabled s ∧ allowed s e ∧ e.Run s s'

/-- A run from boot, with an empty `keyboardBuf`. -/
def Keyed.Reached (allowed : Keyed → KeyEvent → Prop) (s : Keyed) : Prop :=
  ∃ s₀ : Keyed, Booted s₀.m ∧ (∃ buf, s₀.ioq = ioqueueInit buf) ∧ (∀ t, s₀.prog t = []) ∧
    Relation.ReflTransGen (Keyed.Step allowed) s₀ s

variable {base : List Instr} {m m' : Machine} {ioq : Ioqueue} {prog : List IoqStmt} {o o' : Outcome}

theorem ends_of_inl {c c' : Handling} (h : c.next base = .inl c') : Ends base c o ↔ Ends base c' o := by
  constructor
  · intro hends
    cases hends with
    | stop hstop => rw [h] at hstop; cases hstop
    | step hstep hrest =>
        rw [h] at hstep
        cases hstep
        exact hrest
  · exact Ends.step h

theorem ends_of_inr {c : Handling} (h : c.next base = .inr o') : Ends base c o ↔ o = o' := by
  constructor
  · intro hends
    cases hends with
    | stop hstop =>
        rw [h] at hstop
        exact (Sum.inr.inj hstop).symm
    | step hstep hrest => rw [h] at hstep; cases hstep
  · rintro rfl
    exact .stop h

theorem ends_nil (hbase : m.code m.cur = base) :
    Ends base ⟨m, ioq, []⟩ o ↔ o = .returned m ioq := by
  apply ends_of_inr
  rw [Handling.next, if_pos hbase]

theorem ends_stmt (hbase : m.code m.cur = base) (stmt : IoqStmt) :
    Ends base ⟨m, ioq, stmt :: prog⟩ o ↔ Ends base (stmt.run ⟨m, ioq, prog⟩) o := by
  apply ends_of_inl
  rw [Handling.next, if_pos hbase]

/-- Code above `base` is not `base`. -/
theorem code_ne_base {i : Instr} {above : List Instr} (hcode : m.code m.cur = i :: above ++ base) :
    m.code m.cur ≠ base := by
  intro he
  have hlen := congrArg List.length (hcode.symm.trans he)
  simp only [List.cons_append, List.length_cons, List.length_append] at hlen
  omega

theorem ends_ok {i : Instr} {above : List Instr} (hcode : m.code m.cur = i :: above ++ base)
    (hi : i.isSchedule = false) (hexec : exec (m.setCode m.cur (above ++ base)) i = .ok m') :
    Ends base ⟨m, ioq, prog⟩ o ↔ Ends base ⟨m', ioq, prog⟩ o := by
  apply ends_of_inl
  rw [Handling.next, if_neg (code_ne_base hcode), hcode]
  simp [hi, Event.run, hcode, hexec]

theorem ends_error {i : Instr} {above : List Instr} {halt : Halt}
    (hcode : m.code m.cur = i :: above ++ base) (hi : i.isSchedule = false)
    (hexec : exec (m.setCode m.cur (above ++ base)) i = .error halt) :
    Ends base ⟨m, ioq, prog⟩ o ↔ o = .halts halt := by
  apply ends_of_inr
  rw [Handling.next, if_neg (code_ne_base hcode), hcode]
  simp [hi, Event.run, hcode, hexec]

/-- What `conditionSignal` does to the kernel. -/
def signalKernel (cond : CondId) (k : Kernel) : Except Halt Kernel :=
  if listEmpty k.heap (klist (.cond cond)) then .ok k
  else do
    let (thread, k) ← popThread (.cond cond) k
    threadUnblock thread k

/-- What `lockRelease` by the holder, with interrupts off, does to the kernel. -/
def releaseKernel (lock : LockId) (k : Kernel) : Except Halt Kernel :=
  if k.occupied (.waiters lock) then .error (.spin (.waiters lock))
  else if listEmpty k.heap (klist (.waiters lock)) then .ok k
  else do
    let (thread, k) ← popThread (.waiters lock) k
    if (k.task thread).status = .blocked then threadUnblock thread k else .ok k

theorem signalKernel_cur {cond : CondId} {k k' : Kernel} (h : signalKernel cond k = .ok k') :
    k'.cur = k.cur := by
  rw [signalKernel] at h
  split at h
  · cases h
    rfl
  · obtain ⟨⟨thread, k₁⟩, hpop, hunblock⟩ := bind_ok h
    obtain ⟨-, -, rfl⟩ := threadUnblock_ok hunblock
    rw [popThread_fields hpop]
    rfl

theorem releaseKernel_cur {lock : LockId} {k k' : Kernel} (h : releaseKernel lock k = .ok k') :
    k'.cur = k.cur := by
  rw [releaseKernel] at h
  split at h
  · cases h
  split at h
  · cases h
    rfl
  · obtain ⟨⟨thread, k₁⟩, hpop, h⟩ := bind_ok h
    have hcur : k₁.cur = k.cur := by rw [popThread_fields hpop]
    dsimp only at h
    by_cases hblocked : (k₁.task thread).status = .blocked
    · rw [if_pos hblocked] at h
      obtain ⟨-, -, rfl⟩ := threadUnblock_ok h
      exact hcur
    · rw [if_neg hblocked] at h
      cases h
      exact hcur

theorem signalKernel_intr {cond : CondId} {k k' : Kernel} (h : signalKernel cond k = .ok k') :
    k'.intr = k.intr := by
  rw [signalKernel] at h
  split at h
  · cases h
    rfl
  · obtain ⟨⟨thread, k₁⟩, hpop, hunblock⟩ := bind_ok h
    obtain ⟨-, -, rfl⟩ := threadUnblock_ok hunblock
    rw [popThread_fields hpop]
    rfl

/-- The running thread has `code` left and the kernel is `k`. -/
def Machine.with (m : Machine) (k : Kernel) (code : List Instr) : Machine :=
  { m with k := k, code := update m.code m.cur code }

section Calls

variable {above code : List Instr} {k : Kernel}

theorem with_code (hcur : k.cur = m.cur) : (m.with k code).code (m.with k code).cur = code := by
  rw [show (m.with k code).cur = m.cur from hcur]
  exact update_self _ _ _

theorem with_setCode (hcur : k.cur = m.cur) (code' : List Instr) :
    (m.with k code).setCode (m.with k code).cur code' = m.with k code' := by
  rw [show (m.with k code).cur = m.cur from hcur, Machine.setCode, Machine.with, Machine.with]
  simp only [update_idem]

theorem with_push (hcur : k.cur = m.cur) (code' : List Instr) :
    (m.with k code).push code' = m.with k (code' ++ code) := by
  rw [Machine.push, with_code hcur, with_setCode hcur]

theorem with_same (hcode : m.code m.cur = base) : m.with m.k base = m := by
  rw [Machine.with, ← hcode, update_eq_self]

theorem ends_with_ok {i : Instr} {n : Machine} (hcur : k.cur = m.cur) (hi : i.isSchedule = false)
    (hexec : exec (m.with k (above ++ base)) i = .ok n) :
    Ends base ⟨m.with k (i :: above ++ base), ioq, prog⟩ o ↔ Ends base ⟨n, ioq, prog⟩ o := by
  apply ends_ok (with_code hcur) hi
  rw [with_setCode hcur]
  exact hexec

theorem ends_with_error {i : Instr} {halt : Halt} (hcur : k.cur = m.cur) (hi : i.isSchedule = false)
    (hexec : exec (m.with k (above ++ base)) i = .error halt) :
    Ends base ⟨m.with k (i :: above ++ base), ioq, prog⟩ o ↔ o = .halts halt := by
  apply ends_error (with_code hcur) hi
  rw [with_setCode hcur]
  exact hexec

/-- A `schedule` above the interrupted code ends the handler. -/
theorem ends_with_schedule (hcur : k.cur = m.cur) (site : Site) :
    Ends base ⟨m.with k (.schedule site :: above ++ base), ioq, prog⟩ o ↔
      o = .schedules (m.with k (.schedule site :: above ++ base)) ioq := by
  apply ends_of_inr
  set n := m.with k (.schedule site :: above ++ base) with hn
  have hcode : n.code n.cur = .schedule site :: above ++ base := with_code hcur
  rw [Handling.next, if_neg (code_ne_base hcode), hcode]
  rfl

theorem ends_unblock (hcur : k.cur = m.cur) (thread : Tid) :
    Ends base ⟨m.with k (.unblock thread :: above ++ base), ioq, prog⟩ o ↔
      (∃ halt, threadUnblock thread k = .error halt ∧ o = .halts halt) ∨
      ∃ k', threadUnblock thread k = .ok k' ∧ Ends base ⟨m.with k' (above ++ base), ioq, prog⟩ o := by
  cases hunblock : threadUnblock thread k with
  | error halt =>
      have hexec : exec (m.with k (above ++ base)) (.unblock thread) = .error halt := by
        change (threadUnblock thread k >>= fun k' => pure _) = _
        rw [hunblock]
        rfl
      rw [ends_with_error hcur rfl hexec]
      simp
  | ok k' =>
      have hexec : exec (m.with k (above ++ base)) (.unblock thread) =
          .ok (m.with k' (above ++ base)) := by
        change (threadUnblock thread k >>= fun k' => pure _) = _
        rw [hunblock]
        rfl
      rw [ends_with_ok hcur rfl hexec]
      simp

theorem ends_signal {cond : CondId} (hcode : m.code m.cur = base) :
    Ends base ⟨m, ioq, .call (.conditionSignal cond) :: prog⟩ o ↔
      (∃ halt, signalKernel cond m.k = .error halt ∧ o = .halts halt) ∨
      ∃ k, signalKernel cond m.k = .ok k ∧ Ends base ⟨m.with k base, ioq, prog⟩ o := by
  have hret : ∀ k : Kernel, k.cur = m.cur →
      (Ends base ⟨m.with k ([.ret (.conditionSignal cond)] ++ base), ioq, prog⟩ o ↔
        Ends base ⟨m.with k base, ioq, prog⟩ o) :=
    fun k hcur => ends_with_ok hcur rfl rfl
  have henter : m.enter (.conditionSignal cond) =
      m.with m.k (.ifSleepers cond :: [.ret (.conditionSignal cond)] ++ base) := by
    rw [← hcode]
    rfl
  rw [ends_stmt hcode, IoqStmt.run, henter]
  by_cases hempty : listEmpty m.k.heap (klist (.cond cond)) = true
  · have hexec : exec (m.with m.k ([.ret (.conditionSignal cond)] ++ base)) (.ifSleepers cond) =
        .ok (m.with m.k ([.ret (.conditionSignal cond)] ++ base)) := if_pos hempty
    rw [ends_with_ok rfl rfl hexec, hret m.k rfl, signalKernel, if_pos hempty]
    simp
  · have hexec : exec (m.with m.k ([.ret (.conditionSignal cond)] ++ base)) (.ifSleepers cond) =
        .ok (m.with m.k (.popSleeper cond :: [.ret (.conditionSignal cond)] ++ base)) :=
      (if_neg hempty).trans (congrArg Except.ok (with_push rfl _))
    rw [ends_with_ok rfl rfl hexec, signalKernel, if_neg hempty]
    cases hpop : popThread (.cond cond) m.k with
    | error halt =>
        have hexec : exec (m.with m.k ([.ret (.conditionSignal cond)] ++ base)) (.popSleeper cond) =
            .error halt := by
          change (popThread (.cond cond) m.k >>= _) = _
          rw [hpop]
          rfl
        rw [ends_with_error rfl rfl hexec]
        simp [bind, Except.bind]
    | ok p =>
        obtain ⟨thread, k⟩ := p
        have hcur : k.cur = m.cur := by rw [popThread_fields hpop]; rfl
        have hexec : exec (m.with m.k ([.ret (.conditionSignal cond)] ++ base)) (.popSleeper cond) =
            .ok (m.with k (.unblock thread :: [.ret (.conditionSignal cond)] ++ base)) := by
          change (popThread (.cond cond) m.k >>= _) = _
          rw [hpop]
          exact congrArg Except.ok (with_push hcur _)
        rw [ends_with_ok rfl rfl hexec, ends_unblock hcur]
        refine or_congr Iff.rfl (exists_congr fun k' => and_congr_right fun hunblock => ?_)
        obtain ⟨-, -, rfl⟩ := threadUnblock_ok hunblock
        exact hret _ hcur

/-- `popThread` reads the heap only. -/
theorem popThread_occupied (list : ListId) (k : Kernel) (occupied : Spin → Bool) :
    popThread list { k with occupied := occupied } =
      (popThread list k).map (Prod.map id fun k => { k with occupied := occupied }) := by
  unfold popThread
  cases helem : elem2entry ((listPop k.heap (klist list)).1.getD .null) with
  | error halt => simp [helem, bind, Except.bind, Except.map]
  | ok thread => simp [helem, bind, Except.bind, Except.map, pure, Except.pure]

/-- The rest of `lockRelease` from its first statement on. -/
def releaseCode (lock : LockId) (code : List Instr) : List Instr :=
  (Fn.lockRelease lock).body ++ .ret (.lockRelease lock) :: code

/-- The thread in hand is woken if it still waits. -/
theorem ends_ifBlocked {lock : LockId} (hcur : k.cur = m.cur) (thread : Tid) :
    Ends base ⟨m.with k (.ifBlocked thread :: .ret (.lockRelease lock) :: above ++ base), ioq, prog⟩ o ↔
      (∃ halt, (if (k.task thread).status = .blocked then threadUnblock thread k else .ok k) = .error halt ∧
        o = .halts halt) ∨
      ∃ k', (if (k.task thread).status = .blocked then threadUnblock thread k else .ok k) = .ok k' ∧
        Ends base ⟨m.with k' (above ++ base), ioq, prog⟩ o := by
  set rest := .ret (.lockRelease lock) :: above with hrest
  have hret : ∀ k : Kernel, k.cur = m.cur →
      (Ends base ⟨m.with k (rest ++ base), ioq, prog⟩ o ↔ Ends base ⟨m.with k (above ++ base), ioq, prog⟩ o) :=
    fun k hcur => ends_with_ok hcur rfl rfl
  by_cases hblocked : (k.task thread).status = .blocked
  · have hif : exec (m.with k (rest ++ base)) (.ifBlocked thread) =
        .ok (m.with k (.unblock thread :: rest ++ base)) :=
      (if_pos hblocked).trans (congrArg Except.ok (with_push hcur _))
    rw [ends_with_ok hcur rfl hif, ends_unblock hcur, if_pos hblocked]
    refine or_congr Iff.rfl (exists_congr fun k' => and_congr_right fun hunblock => ?_)
    obtain ⟨-, -, rfl⟩ := threadUnblock_ok hunblock
    exact hret _ hcur
  · have hif : exec (m.with k (rest ++ base)) (.ifBlocked thread) = .ok (m.with k (rest ++ base)) :=
      if_neg hblocked
    rw [ends_with_ok hcur rfl hif, hret k hcur, if_neg hblocked]
    simp

theorem release_occupied {lock : LockId} {occupied : Spin → Bool} (hfree : occupied (.waiters lock) = false)
    (hocc : k.occupied = occupied) :
    spinlockRelease (.waiters lock) { k with occupied := update occupied (.waiters lock) true } = k := by
  subst hocc
  rw [spinlockRelease, update_update_free hfree]

/-- The first waiter is taken off the list, and the spin lock is released. -/
theorem ends_popWaiter {lock : LockId} (hcur : k.cur = m.cur) (hfree : k.occupied (.waiters lock) = false) :
    Ends base ⟨m.with { k with occupied := update k.occupied (.waiters lock) true }
        (.popWaiter lock :: above ++ base), ioq, prog⟩ o ↔
      (∃ halt, popThread (.waiters lock) k = .error halt ∧ o = .halts halt) ∨
      ∃ thread k', popThread (.waiters lock) k = .ok (thread, k') ∧
        Ends base ⟨m.with k' (.ifBlocked thread :: above ++ base), ioq, prog⟩ o := by
  set k₁ : Kernel := { k with occupied := update k.occupied (.waiters lock) true } with hk₁
  have hcur₁ : k₁.cur = m.cur := hcur
  have hpop₁ : popThread (.waiters lock) k₁ = _ :=
    popThread_occupied (.waiters lock) k (update k.occupied (.waiters lock) true)
  cases hpop : popThread (.waiters lock) k with
  | error halt =>
      rw [hpop] at hpop₁
      have hexec : exec (m.with k₁ (above ++ base)) (.popWaiter lock) = .error halt := by
        change (popThread (.waiters lock) k₁ >>= _) = _
        rw [hpop₁]
        rfl
      rw [ends_with_error hcur₁ rfl hexec]
      simp
  | ok p =>
      obtain ⟨thread, k₂⟩ := p
      have hfields := popThread_fields hpop
      have hcur₂ : k₂.cur = m.cur := by rw [hfields]; exact hcur
      have hocc₂ : k₂.occupied = k.occupied := by rw [hfields]
      rw [hpop] at hpop₁
      set k₃ : Kernel := { k₂ with occupied := update k.occupied (.waiters lock) true } with hk₃
      have hcur₃ : k₃.cur = m.cur := hcur₂
      have hpopped : exec (m.with k₁ (above ++ base)) (.popWaiter lock) =
          .ok (m.with k₃ (.spinlockRelease (.waiters lock) :: (.ifBlocked thread :: above) ++ base)) := by
        change (popThread (.waiters lock) k₁ >>= _) = _
        rw [hpop₁]
        exact congrArg Except.ok (with_push hcur₃ _)
      have hrelease : exec (m.with k₃ (.ifBlocked thread :: above ++ base)) (.spinlockRelease (.waiters lock)) =
          .ok (m.with k₂ (.ifBlocked thread :: above ++ base)) :=
        congrArg (fun k => Except.ok (m.with k (.ifBlocked thread :: above ++ base)))
          (release_occupied hfree hocc₂)
      rw [ends_with_ok hcur₁ rfl hpopped, ends_with_ok hcur₃ rfl hrelease]
      simp

theorem ends_release {lock : LockId} (hcur : k.cur = m.cur) (hholder : m.holder lock = some m.cur)
    (hintr : k.intr = false) :
    Ends base ⟨m.with k (releaseCode lock above ++ base), ioq, prog⟩ o ↔
      (∃ halt, releaseKernel lock k = .error halt ∧ o = .halts halt) ∨
      ∃ k', releaseKernel lock k = .ok k' ∧
        Ends base ⟨(m.setHolder lock none).with k' (above ++ base), ioq, prog⟩ o := by
  set n := m.setHolder lock none with hn
  set rest := .ret (.lockRelease lock) :: above with hrest
  have hassert : exec (m.with k (.clearHolder lock :: .spinlockAcquire (.waiters lock) ::
      .ifWaiters lock :: rest ++ base)) (.assertHolder lock) =
      .ok (m.with k (.clearHolder lock :: .spinlockAcquire (.waiters lock) ::
        .ifWaiters lock :: rest ++ base)) := by
    change (kassert (m.holder lock = some k.cur) >>= fun _ => pure _) = _
    rw [hcur, kassert, if_pos (by simpa using hholder)]
    rfl
  change Ends base ⟨m.with k (.assertHolder lock :: (.clearHolder lock ::
    .spinlockAcquire (.waiters lock) :: .ifWaiters lock :: rest) ++ base), ioq, prog⟩ o ↔ _
  rw [ends_with_ok hcur rfl hassert]
  rw [ends_with_ok (n := n.with k (.spinlockAcquire (.waiters lock) ::
    (.ifWaiters lock :: rest) ++ base)) hcur rfl rfl, releaseKernel]
  by_cases hocc : k.occupied (.waiters lock) = true
  · have hexec : exec (n.with k (.ifWaiters lock :: rest ++ base)) (.spinlockAcquire (.waiters lock)) =
        .error (.spin (.waiters lock)) := by
      have hocc' : (n.with k (.ifWaiters lock :: rest ++ base)).k.occupied (.waiters lock) = true := hocc
      have hintr' : ¬(n.with k (.ifWaiters lock :: rest ++ base)).k.intr = true := by
        change ¬k.intr = true
        simp [hintr]
      rw [exec, if_pos hocc', if_neg hintr']
    rw [ends_with_error (m := n) hcur rfl hexec, if_pos hocc]
    simp
  · have hfree : k.occupied (.waiters lock) = false := by simpa using hocc
    set k₁ : Kernel := { k with occupied := update k.occupied (.waiters lock) true } with hk₁
    have hcur₁ : k₁.cur = n.cur := hcur
    have hexec : exec (n.with k (.ifWaiters lock :: rest ++ base)) (.spinlockAcquire (.waiters lock)) =
        .ok (n.with k₁ (.ifWaiters lock :: rest ++ base)) := if_neg hocc
    rw [ends_with_ok (m := n) hcur rfl hexec, if_neg hocc]
    by_cases hempty : listEmpty k.heap (klist (.waiters lock)) = true
    · have hif : exec (n.with k₁ (rest ++ base)) (.ifWaiters lock) =
          .ok (n.with k₁ (.spinlockRelease (.waiters lock) :: rest ++ base)) :=
        (if_pos hempty).trans (congrArg Except.ok (with_push hcur₁ _))
      have hrelease : exec (n.with k₁ (rest ++ base)) (.spinlockRelease (.waiters lock)) =
          .ok (n.with k (rest ++ base)) :=
        congrArg (fun k => Except.ok (n.with k (rest ++ base))) (release_occupied hfree rfl)
      have hret : Ends base ⟨n.with k (rest ++ base), ioq, prog⟩ o ↔
          Ends base ⟨n.with k (above ++ base), ioq, prog⟩ o := ends_with_ok (m := n) hcur rfl rfl
      rw [ends_with_ok hcur₁ rfl hif, ends_with_ok hcur₁ rfl hrelease, hret, if_pos hempty]
      simp
    · have hif : exec (n.with k₁ (rest ++ base)) (.ifWaiters lock) =
          .ok (n.with k₁ (.popWaiter lock :: rest ++ base)) :=
        (if_neg hempty).trans (congrArg Except.ok (with_push hcur₁ _))
      rw [ends_with_ok hcur₁ rfl hif, if_neg hempty, ends_popWaiter (m := n) hcur hfree]
      cases hpop : popThread (.waiters lock) k with
      | error halt => simp [bind, Except.bind]
      | ok p =>
          obtain ⟨thread, k₂⟩ := p
          have hcur₂ : k₂.cur = n.cur := by rw [popThread_fields hpop]; exact hcur
          have hwoken : Ends base ⟨n.with k₂ (.ifBlocked thread :: rest ++ base), ioq, prog⟩ o ↔ _ :=
            ends_ifBlocked (m := n) hcur₂ thread
          simpa [bind, Except.bind] using hwoken

theorem ends_acquire_free {lock : LockId} (hcode : m.code m.cur = base)
    (hfree : m.holder lock = none) :
    Ends base ⟨m, ioq, .call (.lockAcquire lock) :: prog⟩ o ↔
      Ends base ⟨(m.setHolder lock (some m.cur)).setOwns lock true, ioq, prog⟩ o := by
  have henter : m.enter (.lockAcquire lock) =
      m.with m.k (.whileCas lock :: [.ret (.lockAcquire lock)] ++ base) := by
    rw [← hcode]
    rfl
  have hcas : exec (m.with m.k ([.ret (.lockAcquire lock)] ++ base)) (.whileCas lock) =
      .ok ((m.setHolder lock (some m.cur)).with m.k ([.ret (.lockAcquire lock)] ++ base)) := by
    have hfree' : (m.with m.k ([.ret (.lockAcquire lock)] ++ base)).holder lock = none := hfree
    rw [exec, hfree']
    rfl
  have hret : exec ((m.setHolder lock (some m.cur)).with m.k ([] ++ base)) (.ret (.lockAcquire lock)) =
      .ok ((m.setHolder lock (some m.cur)).setOwns lock true) := by
    have hsame := with_same (m := (m.setHolder lock (some m.cur)).setOwns lock true) hcode
    rw [← hsame]
    rfl
  rw [ends_stmt hcode, IoqStmt.run, henter, ends_with_ok rfl rfl hcas]
  exact ends_with_ok (m := m.setHolder lock (some m.cur)) rfl rfl hret

/-- A lock that is held sends the interrupted thread to sleep on it, whoever holds it. -/
theorem ends_acquire_held {lock : LockId} {holder : Tid} (hcode : m.code m.cur = base)
    (hintr : m.k.intr = false) (hheld : m.holder lock = some holder)
    (hends : Ends base ⟨m, ioq, .call (.lockAcquire lock) :: prog⟩ o) :
    o = .halts (.spin (.waiters lock)) ∨ ∃ m', o = .schedules m' ioq ∧ m'.holder = m.holder ∧
      m'.k.heap = (m.k.append (.waiters lock) (.generalTag m.cur)).heap ∧
      (m'.k.task m.cur).status = .blocked := by
  set rest : List Instr := [.ret (.lockAcquire lock)] with hrest
  have henter : m.enter (.lockAcquire lock) = m.with m.k (.whileCas lock :: rest ++ base) := by
    rw [← hcode]
    rfl
  have hcas : exec (m.with m.k (rest ++ base)) (.whileCas lock) =
      .ok (m.with m.k (.spinlockAcquire (.waiters lock) ::
        (.appendSelf (.waiters lock) :: .ifCas lock :: rest) ++ base)) := by
    have hheld' : (m.with m.k (rest ++ base)).holder lock = some holder := hheld
    rw [exec, hheld']
    exact congrArg Except.ok (with_push rfl _)
  rw [ends_stmt hcode, IoqStmt.run, henter, ends_with_ok rfl rfl hcas] at hends
  by_cases hocc : m.k.occupied (.waiters lock) = true
  · have hexec : exec (m.with m.k ((.appendSelf (.waiters lock) :: .ifCas lock :: rest) ++ base))
        (.spinlockAcquire (.waiters lock)) = .error (.spin (.waiters lock)) := by
      have hintr' : ¬m.k.intr = true := by simp [hintr]
      exact (if_pos hocc).trans (if_neg hintr')
    rw [ends_with_error rfl rfl hexec] at hends
    exact Or.inl hends
  · set k₁ : Kernel := { m.k with occupied := update m.k.occupied (.waiters lock) true } with hk₁
    have hcur₁ : k₁.cur = m.cur := rfl
    have hexec : exec (m.with m.k ((.appendSelf (.waiters lock) :: .ifCas lock :: rest) ++ base))
        (.spinlockAcquire (.waiters lock)) =
        .ok (m.with k₁ (.appendSelf (.waiters lock) :: (.ifCas lock :: rest) ++ base)) := if_neg hocc
    set k₂ := k₁.append (.waiters lock) (.generalTag m.cur) with hk₂
    have hcur₂ : k₂.cur = m.cur := rfl
    have hcas₂ : exec (m.with k₂ (rest ++ base)) (.ifCas lock) =
        .ok (m.with k₂ (.intrDisable (.lockAcquire lock) :: rest ++ base)) := by
      have hheld' : (m.with k₂ (rest ++ base)).holder lock = some holder := hheld
      rw [exec, hheld']
      exact congrArg Except.ok (with_push hcur₂ _)
    set k₃ : Kernel := { k₂ with intr := false } with hk₃
    have hcur₃ : k₃.cur = m.cur := rfl
    have hoff : exec (m.with k₂ (rest ++ base)) (.intrDisable (.lockAcquire lock)) =
        .ok (m.with k₃ (.setStatus .blocked :: (.spinlockRelease (.waiters lock) ::
          .schedule (.wait (.waiters lock)) :: .intrSetStatus k₂.intr :: .whileCas lock :: rest) ++
            base)) := congrArg Except.ok (with_push (k := k₃) hcur₃ _)
    set k₄ := k₃.setStatus m.cur .blocked with hk₄
    have hcur₄ : k₄.cur = m.cur := rfl
    set k₅ := spinlockRelease (.waiters lock) k₄ with hk₅
    have hcur₅ : k₅.cur = m.cur := rfl
    rw [ends_with_ok rfl rfl hexec, ends_with_ok (n := m.with k₂ (.ifCas lock :: rest ++ base)) hcur₁
      rfl rfl, ends_with_ok hcur₂ rfl hcas₂, ends_with_ok hcur₂ rfl hoff,
      ends_with_ok (n := m.with k₄ (.spinlockRelease (.waiters lock) ::
        (.schedule (.wait (.waiters lock)) :: .intrSetStatus k₂.intr :: .whileCas lock :: rest) ++
          base)) hcur₃ rfl rfl,
      ends_with_ok (n := m.with k₅ (.schedule (.wait (.waiters lock)) ::
        (.intrSetStatus k₂.intr :: .whileCas lock :: rest) ++ base)) hcur₄ rfl rfl,
      ends_with_schedule hcur₅] at hends
    refine Or.inr ⟨_, hends, rfl, rfl, ?_⟩
    change (k₄.task m.cur).status = .blocked
    rw [hk₄]
    simp [Kernel.setStatus, Kernel.setTask]

/-- A full buffer sends the interrupted thread to sleep. -/
theorem wait_ne_returned {cond : CondId} {lock : LockId} (hcode : m.code m.cur = base)
    (hholder : m.holder lock = some m.cur)
    (hends : Ends base ⟨m, ioq, .call (.conditionWait cond lock) :: prog⟩ o) (n : Machine)
    (ioq' : Ioqueue) : o ≠ .returned n ioq' := by
  set rest : List Instr := [.ret (.conditionWait cond lock)] with hrest
  have henter : m.enter (.conditionWait cond lock) =
      m.with m.k (.intrDisable (.conditionWait cond lock) :: rest ++ base) := by
    rw [← hcode]
    rfl
  set after : List Instr := .schedule (.wait (.cond cond)) :: .call (.lockAcquire lock) ::
    .intrSetStatus m.k.intr :: rest with hafter
  set k₁ : Kernel := { m.k with intr := false } with hk₁
  have hcur₁ : k₁.cur = m.cur := rfl
  have hoff : exec (m.with m.k (rest ++ base)) (.intrDisable (.conditionWait cond lock)) =
      .ok (m.with k₁ (.appendSelf (.cond cond) ::
        (.setStatus .blocked :: .call (.lockRelease lock) :: after) ++ base)) :=
    congrArg Except.ok (with_push (k := k₁) hcur₁ _)
  set k₂ := k₁.append (.cond cond) (.generalTag m.cur) with hk₂
  have hcur₂ : k₂.cur = m.cur := rfl
  set k₃ := k₂.setStatus m.cur .blocked with hk₃
  have hcur₃ : k₃.cur = m.cur := rfl
  set n₁ := m.setOwns lock false with hn₁
  have hcall : exec (m.with k₃ (after ++ base)) (.call (.lockRelease lock)) =
      .ok (n₁.with k₃ (releaseCode lock after ++ base)) := by
    change Except.ok ((n₁.with k₃ (after ++ base)).push _) = _
    rw [with_push (m := n₁) hcur₃]
    simp [releaseCode]
  rw [ends_stmt hcode, IoqStmt.run, henter, ends_with_ok rfl rfl hoff,
    ends_with_ok (n := m.with k₂ (.setStatus .blocked :: (.call (.lockRelease lock) :: after) ++ base))
      hcur₁ rfl rfl,
    ends_with_ok (n := m.with k₃ (.call (.lockRelease lock) :: after ++ base)) hcur₂ rfl rfl,
    ends_with_ok hcur₃ rfl hcall, ends_release (m := n₁) hcur₃ hholder rfl] at hends
  rcases hends with ⟨halt, -, rfl⟩ | ⟨k', hrelease, hends⟩
  · exact Outcome.noConfusion
  · have hcur' : k'.cur = (n₁.setHolder lock none).cur := (releaseKernel_cur hrelease).trans hcur₃
    rw [hafter, List.cons_append] at hends
    rw [(ends_with_schedule hcur' (.wait (.cond cond))).1 hends]
    exact Outcome.noConfusion

theorem ends_release_call {lock : LockId} (hcode : m.code m.cur = base)
    (hholder : m.holder lock = some m.cur) (hintr : m.k.intr = false) :
    Ends base ⟨m, ioq, .call (.lockRelease lock) :: prog⟩ o ↔
      (∃ halt, releaseKernel lock m.k = .error halt ∧ o = .halts halt) ∨
      ∃ k, releaseKernel lock m.k = .ok k ∧
        Ends base ⟨((m.setOwns lock false).setHolder lock none).with k base, ioq, prog⟩ o := by
  have henter : m.enter (.lockRelease lock) =
      (m.setOwns lock false).with m.k (releaseCode lock [] ++ base) := by
    rw [← hcode]
    rfl
  rw [ends_stmt hcode, IoqStmt.run, henter]
  exact ends_release (m := m.setOwns lock false) rfl hholder hintr

/-- What a put that goes through does to the kernel. -/
def putKernel (k : Kernel) : Except Halt Kernel := do
  let k ← signalKernel condNotEmpty k
  releaseKernel keyboardLock k

/-- The machine after it: the lock is free again. -/
def Machine.afterPut (m : Machine) (k : Kernel) : Machine :=
  { m with k := k, owns := update m.owns m.cur (update (m.owns m.cur) keyboardLock false) }

theorem ends_putchar {ch : BitVec 8} (hcode : m.code m.cur = base) (hintr : m.k.intr = false)
    (hfree : m.holder keyboardLock = none) (hfull : ioqueueFull ioq = false) :
    Ends base ⟨m, ioq, putcharCode ch⟩ o ↔
      (∃ halt, putKernel m.k = .error halt ∧ o = .halts halt) ∨
      ∃ k, putKernel m.k = .ok k ∧ o = .returned (m.afterPut k) (ioqAct (.ioqueuePutchar ch) ioq) := by
  set n := (m.setHolder keyboardLock (some m.cur)).setOwns keyboardLock true with hn
  have hcoden : n.code n.cur = base := hcode
  have hpass : IoqStmt.run ⟨n, ioq, [.put ch, .call (.conditionSignal condNotEmpty),
      .call (.lockRelease keyboardLock)]⟩ .whileFull =
      ⟨n, ioq, [.put ch, .call (.conditionSignal condNotEmpty), .call (.lockRelease keyboardLock)]⟩ := by
    have hfull' : ¬ioqueueFull ioq = true := by simp [hfull]
    exact if_neg hfull'
  rw [putcharCode, ends_acquire_free hcode hfree, ends_stmt hcoden, hpass, ends_stmt hcoden,
    IoqStmt.run, ends_signal hcoden, putKernel]
  change (∃ halt, signalKernel condNotEmpty m.k = .error halt ∧ _) ∨
    (∃ k, signalKernel condNotEmpty m.k = .ok k ∧ _) ↔ _
  cases hsignal : signalKernel condNotEmpty m.k with
  | error halt => simp [bind, Except.bind]
  | ok k =>
      have hcur : k.cur = m.cur := signalKernel_cur hsignal
      have hintrk : k.intr = false := (signalKernel_intr hsignal).trans hintr
      have hholder : (n.with k base).holder keyboardLock = some (n.with k base).cur := by
        rw [show (n.with k base).cur = m.cur from hcur]
        exact update_self keyboardLock (some m.cur) m.holder
      have hlast : ∀ k' : Kernel,
          (((n.with k base).setOwns keyboardLock false).setHolder keyboardLock none).with k' base =
            m.afterPut k' := by
        intro k'
        have hcur' : k.cur = m.k.cur := hcur
        have hback : update m.holder keyboardLock none = m.holder := by
          rw [← hfree, update_eq_self]
        have hcode' : update m.code m.k.cur base = m.code := by
          rw [← hcode]
          exact update_eq_self _ _
        simp only [Machine.with, Machine.setHolder, Machine.setOwns, Machine.afterPut, Machine.cur, hn,
          hcur', update_idem, update_self, hback, hcode']
      have hreturned : ∀ k' : Kernel, k'.cur = m.cur →
          (Ends base ⟨(((n.with k base).setOwns keyboardLock false).setHolder keyboardLock none).with
            k' base, ioqAct (.ioqueuePutchar ch) ioq, []⟩ o ↔
            o = .returned (m.afterPut k') (ioqAct (.ioqueuePutchar ch) ioq)) := by
        intro k' hcur'
        rw [hlast]
        apply ends_nil
        rw [show (m.afterPut k').cur = m.cur from hcur']
        exact hcode
      have hbind : (do
          let k ← Except.ok k
          releaseKernel keyboardLock k) = releaseKernel keyboardLock k := rfl
      simp only [reduceCtorEq, false_and, exists_false, Except.ok.injEq, exists_eq_left', false_or]
      rw [ends_release_call (with_code (m := n) hcur) hholder hintrk, hbind]
      refine or_congr Iff.rfl (exists_congr fun k' => and_congr_right fun hrelease => ?_)
      exact hreturned k' ((releaseKernel_cur hrelease).trans hcur)

end Calls

end HoloOS
