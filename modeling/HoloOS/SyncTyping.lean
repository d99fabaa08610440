import HoloOS.SyncMachine

/-! What the position of a thread says about the thread. A `Mode` records which spin lock section
the thread is in, where its tag is linked, the status it has set, whether interrupts are known to be
off, the lock it is acquiring or has won, and the thread whose tag it is about to link. Every
statement has a mode before it and one after it; a code is typed when these fit together. -/

namespace HoloOS

@[ext] structure Mode where
  spin : Option Spin := none
  link : Option ListId := none
  status : TaskStatus := .running
  off : Bool := false
  acq : Option LockId := none
  won : Option LockId := none
  carry : Option Tid := none
  carryAll : Option Tid := none
  deriving DecidableEq

namespace Mode

/-- Outside of everything. -/
def Idle (M : Mode) : Prop := M = { off := M.off }

/-- A linked tag or a changed status goes with interrupts off. -/
def Settled (M : Mode) : Prop :=
  (M.link ≠ none → M.off = true) ∧ (M.status ≠ .running → M.off = true)

/-- A mode in which `lockRelease` may be called: the own tag may be linked into a condition. -/
def Calm (M : Mode) : Prop :=
  M.spin = none ∧ M.acq = none ∧ M.won = none ∧ M.carry = none ∧ M.carryAll = none ∧
    (∀ lock, M.link ≠ some (.waiters lock)) ∧ M.Settled

/-- Inside `lockAcquire` with the own tag linked. -/
@[simp] def inWaiters (lock : LockId) (off : Bool) : Mode :=
  { spin := some (.waiters lock), link := some (.waiters lock), acq := some lock, off := off }

/-- Creating a thread whose tags are not linked yet. -/
@[simp] def creating (task : Tid) (off : Bool) : Mode :=
  { carry := some task, carryAll := some task, off := off }

end Mode

/-- The lock whose waiters a list holds. -/
def ListId.lock : ListId → Option LockId
  | .waiters lock => some lock
  | _ => none

/-- The lists of threads that sleep. -/
def ListId.Sleeps : ListId → Prop
  | .waiters _ => True
  | .cond _ => True
  | _ => False

namespace Instr

def Pre : Instr → Mode → Prop
  | call (.lockRelease _), M => M.Calm
  | call (.threadStart _ _), _ => False
  | call (.processExecute _), _ => False
  | call _, M => M.Idle
  | ret (.lockAcquire lock), M => M = { off := M.off, acq := some lock, won := some lock }
  | ret (.lockRelease _), M => M.Calm
  | ret _, M => M.Idle
  | whileCas lock, M => M = { off := M.off, acq := some lock }
  | ifCas lock, M => M = .inWaiters lock M.off
  | spinlockAcquire _, M => M.spin = none ∧ M.Settled
  | spinlockRelease lock, M => M.spin = some lock ∧ M.Settled
  | appendSelf (.waiters lock), M =>
      M = { off := M.off, spin := some (.waiters lock), acq := some lock }
  | appendSelf (.cond _), M => M = { off := true }
  | appendSelf _, _ => False
  | removeSelf lock, M => M = { Mode.inWaiters lock M.off with won := some lock }
  | intrDisable (.lockAcquire lock), M => M = .inWaiters lock M.off
  | intrDisable (.processExecute task), M => M = .creating task M.off
  | intrDisable _, M => M.Idle
  | intrSetStatus _, M => M = { off := M.off, acq := M.acq }
  | intrEnable, M => M.Idle
  | iret _, M => M.Settled ∧ M.status = .running
  | setStatus _, M => M.off = true ∧ M.status = .running ∧ M.won = none ∧ M.carry = none ∧
      M.carryAll = none
  | schedule (.wait list), M => list.Sleeps ∧
      M = { off := true, link := some list, status := .blocked, acq := list.lock }
  | schedule (.block status), M => M = { off := true, status := status }
  | assertHolder _, M => M.Calm
  | clearHolder lock, M => M.won = some lock ∧ Mode.Calm { M with won := none }
  | ifWaiters lock, M => M.spin = some (.waiters lock) ∧ Mode.Calm { M with spin := none }
  | popWaiter lock, M => M.spin = some (.waiters lock) ∧ Mode.Calm { M with spin := none }
  | ifBlocked thread, M => M.carry = some thread ∧ Mode.Calm { M with carry := none }
  | unblock thread, M => M.carry = some thread ∧ Mode.Calm { M with carry := none }
  | ifSleepers _, M => M.Idle
  | popSleeper _, M => M.Idle
  | whileZero _, M => M.Idle
  | decrement _, M => M.Idle
  | increment _, M => M.Idle
  | assertBlock _, M => M.Idle
  | initStatus task, M => M = .creating task M.off
  | allocatePid task, M => M = { Mode.creating task M.off with spin := some .pid }
  | initSlice task _, M => M = .creating task M.off
  | threadCreate task, M => M = .creating task M.off
  | assertNew _ _, M => M.Settled
  | enlist .ready task, M => M = { Mode.creating task M.off with spin := some .readyList }
  | enlist .all task, M => M = { off := M.off, spin := some .allList, carryAll := some task }
  | enlist _ _, _ => False

def post : Instr → Mode → Mode
  | call (.lockRelease _), M => M
  | call _, _ => {}
  | ret (.lockAcquire _), M => { M with acq := none, won := none }
  | whileCas lock, _ => { acq := some lock, won := some lock }
  | ifCas lock, _ => { acq := some lock, won := some lock }
  | spinlockAcquire lock, M => { M with spin := some lock }
  | spinlockRelease _, M => { M with spin := none }
  | appendSelf list, M => { M with link := some list }
  | removeSelf _, M => { M with link := none }
  | intrDisable (.lockAcquire lock), _ => { acq := some lock, won := some lock }
  | intrDisable _, _ => {}
  | intrSetStatus _, M => { M with off := false }
  | intrEnable, _ => {}
  | iret _, M => { M with off := false }
  | setStatus status, M => { M with status := status }
  | schedule (.wait list), _ => { acq := list.lock }
  | schedule (.block _), _ => {}
  | assertHolder lock, M => { M with won := some lock }
  | clearHolder _, M => { M with won := none }
  | ifWaiters _, M => { M with spin := none }
  | popWaiter _, M => { M with spin := none }
  | ifBlocked _, M => { M with carry := none }
  | unblock _, M => { M with carry := none }
  | whileZero _, _ => {}
  | enlist .ready _, M => { M with carry := none }
  | enlist .all _, M => { M with carryAll := none }
  | _, M => M

end Instr

/-- The modes of the statements fit together, and the last one leaves the thread idle. -/
def Typed : Mode → List Instr → Prop
  | M, [] => M.Idle
  | M, i :: rest => i.Pre M ∧ Typed (i.post M) rest

@[simp] theorem typed_nil {M : Mode} : Typed M [] ↔ M.Idle := Iff.rfl

@[simp] theorem typed_cons {M : Mode} {i : Instr} {rest : List Instr} :
    Typed M (i :: rest) ↔ i.Pre M ∧ Typed (i.post M) rest := Iff.rfl

/-- Between `listAppend` on a lock's waiters and the `listRemove` or `intrDisable` after it. -/
def InWindow : List Instr → Prop
  | .ifCas _ :: _ => True
  | .removeSelf _ :: _ => True
  | .intrDisable (.lockAcquire _) :: _ => True
  | _ => False

theorem Mode.Idle.calm {M : Mode} (h : M.Idle) : M.Calm := by
  rw [h]
  simp [Mode.Calm, Mode.Settled]

theorem Mode.Calm.settled {M : Mode} (h : M.Calm) : M.Settled := h.2.2.2.2.2.2

/-- Outside the window a linked tag or a changed status goes with interrupts off. -/
theorem Instr.Pre.settled {M : Mode} {i : Instr} {rest : List Instr} (h : i.Pre M)
    (hw : ¬InWindow (i :: rest)) : M.Settled := by
  cases i with
  | ifCas lock => exact absurd trivial hw
  | removeSelf lock => exact absurd trivial hw
  | intrDisable part =>
      cases part with
      | lockAcquire lock => exact absurd trivial hw
      | conditionWait cond lock => exact h.calm.settled
      | threadBlock status => exact h.calm.settled
      | processExecute task => rw [h]; simp [Mode.Settled]
  | call f =>
      cases f <;> first | exact h.elim | exact h.calm.settled | exact Mode.Calm.settled h
  | ret f =>
      cases f <;> first | exact h.calm.settled | exact Mode.Calm.settled h |
        (rw [show M = _ from h]; simp [Mode.Settled])
  | appendSelf list =>
      cases list <;> first | exact h.elim | (rw [h]; simp [Mode.Settled])
  | schedule site =>
      cases site with
      | wait list => rw [h.2]; simp [Mode.Settled]
      | block status => rw [h]; simp [Mode.Settled]
  | enlist list task =>
      cases list <;> first | exact h.elim | (rw [h]; simp [Mode.Settled])
  | setStatus status => exact ⟨fun _ => h.1, fun _ => h.1⟩
  | spinlockAcquire lock => exact h.2
  | spinlockRelease lock => exact h.2
  | iret flag => exact h.1
  | assertNew list task => exact h
  | assertHolder lock => exact Mode.Calm.settled h
  | clearHolder lock => exact h.2.settled
  | ifWaiters lock => exact h.2.settled
  | popWaiter lock => exact h.2.settled
  | ifBlocked thread => exact h.2.settled
  | unblock thread => exact h.2.settled
  | whileCas lock => rw [h]; simp [Mode.Settled]
  | intrSetStatus status => rw [h]; simp [Mode.Settled]
  | initStatus task => rw [h]; simp [Mode.Settled]
  | allocatePid task => rw [h]; simp [Mode.Settled]
  | initSlice task priority => rw [h]; simp [Mode.Settled]
  | threadCreate task => rw [h]; simp [Mode.Settled]
  | _ => exact h.calm.settled

theorem Typed.settled {M : Mode} {code : List Instr} (h : Typed M code) (hw : ¬InWindow code) :
    M.Settled := by
  cases code with
  | nil => exact (show M.Idle from h).calm.settled
  | cons i rest => exact h.1.settled hw

/-- The mode in which the body of a function other than `lockRelease` starts. -/
def Fn.mode : Fn → Mode
  | lockAcquire lock => { acq := some lock }
  | threadStart task _ => .creating task false
  | processExecute task => .creating task false
  | _ => {}

theorem typed_lockRelease {M : Mode} (hM : M.Calm) {lock : LockId} {rest : List Instr}
    (hrest : Typed M rest) :
    Typed M ((Fn.lockRelease lock).body ++ .ret (.lockRelease lock) :: rest) := by
  obtain ⟨spin, link, status, off, acq, won, carry, carryAll⟩ := M
  obtain ⟨rfl, rfl, rfl, rfl, rfl, hlink, hsettled⟩ := hM
  simp only [Mode.Settled] at hlink hsettled
  simpa [Fn.body, Instr.Pre, Instr.post, Mode.Calm, Mode.Settled, hlink] using And.intro hsettled hrest

/-- After the `listPop` of `lockRelease`, which has taken `thread` off the waiters. -/
theorem typed_popped {M : Mode} {lock : LockId} {rest : List Instr}
    (hpre : (Instr.popWaiter lock).Pre M) (hrest : Typed ((Instr.popWaiter lock).post M) rest)
    (thread : Tid) :
    Typed { M with carry := some thread }
      ([.spinlockRelease (.waiters lock), .ifBlocked thread] ++ rest) := by
  obtain ⟨spin, link, status, off, acq, won, carry, carryAll⟩ := M
  obtain ⟨rfl, -, rfl, rfl, rfl, rfl, hlink, hsettled⟩ := hpre
  simp only [Mode.Settled] at hlink hsettled
  simpa [Instr.Pre, Instr.post, Mode.Calm, Mode.Settled, hlink] using And.intro hsettled hrest

theorem typed_body {f : Fn} (hf : ∀ lock, f ≠ .lockRelease lock) {rest : List Instr}
    (hrest : Typed {} rest) : Typed f.mode (f.body ++ .ret f :: rest) := by
  cases f with
  | lockRelease lock => exact absurd rfl (hf lock)
  | _ =>
      simpa [Fn.body, Fn.mode, threadInitCode, enlistCode, Instr.Pre, Instr.post, Mode.Calm,
        Mode.Settled, Mode.Idle] using hrest

theorem typed_offPart {part : OffPart} {M : Mode} (hpre : (Instr.intrDisable part).Pre M)
    {rest : List Instr} (hrest : Typed ((Instr.intrDisable part).post M) rest) (old : Bool) :
    Typed { M with off := true } (part.code old ++ rest) := by
  cases part with
  | processExecute task =>
      rw [hpre]
      simpa [OffPart.code, enlistCode, Instr.Pre, Instr.post, Mode.Settled] using hrest
  | lockAcquire lock =>
      rw [hpre]
      simpa [OffPart.code, Instr.Pre, Instr.post, Mode.Settled, ListId.Sleeps, ListId.lock]
        using hrest
  | conditionWait cond lock =>
      rw [hpre]
      simpa [OffPart.code, Instr.Pre, Instr.post, Mode.Settled, Mode.Calm, Mode.Idle,
        ListId.Sleeps, ListId.lock] using hrest
  | threadBlock status =>
      rw [hpre]
      simpa [OffPart.code, Instr.Pre, Instr.post, Mode.Settled] using hrest

/-- The same position, interrupts known to be off or not. -/
def Mode.Alike (M M' : Mode) : Prop := { M with off := false } = { M' with off := false }

theorem Mode.Alike.field {α : Type} {M M' : Mode} (h : M.Alike M') (f : Mode → α)
    (hf : ∀ M, f { M with off := false } = f M) : f M = f M' := by
  rw [← hf M, ← hf M']
  exact congrArg f h

theorem Instr.Pre.alike {i : Instr} {M M' : Mode} (h : i.Pre M) (h' : i.Pre M')
    (hpost : (i.post M).Alike (i.post M')) : M.Alike M' := by
  -- a field that `post` overwrites is fixed by `Pre`
  obtain ⟨spin, link, status, off, acq, won, carry, carryAll⟩ := M
  obtain ⟨spin', link', status', off', acq', won', carry', carryAll'⟩ := M'
  cases i with
  | call f => cases f <;> simp_all [Instr.Pre, Instr.post, Mode.Alike, Mode.Idle]
  | ret f => cases f <;> simp_all [Instr.Pre, Instr.post, Mode.Alike, Mode.Idle]
  | appendSelf list => cases list <;> simp_all [Instr.Pre, Instr.post, Mode.Alike]
  | intrDisable part => cases part <;> simp_all [Instr.Pre, Instr.post, Mode.Alike, Mode.Idle]
  | schedule site => cases site <;> simp_all [Instr.Pre, Instr.post, Mode.Alike]
  | enlist list task => cases list <;> simp_all [Instr.Pre, Instr.post, Mode.Alike]
  | _ => simp_all [Instr.Pre, Instr.post, Mode.Alike, Mode.Idle, Mode.Calm]

/-- Two modes in which a code is typed differ in `off` at most. -/
theorem Typed.alike {code : List Instr} {M M' : Mode} (h : Typed M code) (h' : Typed M' code) :
    M.Alike M' := by
  induction code generalizing M M' with
  | nil =>
      have hM : M = { off := M.off } := h
      have hM' : M' = { off := M'.off } := h'
      rw [Mode.Alike, hM, hM']
  | cons i rest ih => exact h.1.alike h'.1 (ih h.2 h'.2)

end HoloOS
