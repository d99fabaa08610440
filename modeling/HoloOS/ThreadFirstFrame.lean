import HoloOS.ThreadScheduler

/-! The kernel stack of a new process. `selfKStack` is the first field of a `taskStruct`: `threadCreate` stores the
lower end of the room that it reserves there, `switchTo` the stack pointer of a thread that is switched out, and
`startProcess` takes what it finds for the former. Each thread's stack grows down from the end of the page of its
`taskStruct`; compiled code moves the stack pointer as it likes, but not above where it was entered. -/

namespace HoloOS

open Function

def sizeofIntrStack : Nat := 19 * 4

def sizeofThreadStack : Nat := 8 * 4

/-- Where the code of a thread is. -/
inductive Place where
  /-- `threadCreate` has built the frame that the thread starts from. -/
  | threadStack (process : Bool)
  /-- In `kernelThread`, before `intrEnable`. -/
  | kernelThread (process : Bool)
  /-- A process after it, before `startProcess` loads `selfKStack`. -/
  | enabled
  /-- `startProcess` has loaded that value to add to it. -/
  | loaded (value : Nat)
  /-- It has stored the sum back. -/
  | stored (value : Nat)
  /-- It has read `procStack`, with the stack pointer there. -/
  | startProcess (value procStack esp : Nat)
  | other
  deriving DecidableEq

/-- The scheduler, `selfKStack` of each thread, and the stack pointer. -/
structure Stacks where
  k : Kernel
  selfKStack : Tid → Nat
  esp : Nat
  place : Tid → Place

/-- What `threadInit` and `threadCreate` do to `selfKStack`, a pointer to `uint32`. -/
def threadCreate (task : Tid) (process : Bool) (s : Stacks) : Stacks :=
  { s with
    selfKStack := update s.selfKStack task (task + 4096 - 4 * sizeofIntrStack - 4 * sizeofThreadStack)
    place := update s.place task (.threadStack process) }

/-- The `ret` of `switchTo` goes into `kernelThread` the first time. -/
def Place.dispatched : Place → Place
  | .threadStack process => .kernelThread process
  | place => place

/-- `switchTo` to the thread that is current in `k`; `used` bytes lie above the four registers that it pushes. -/
def switchTo (k : Kernel) (used : Nat) (s : Stacks) : Stacks :=
  let selfKStack := update s.selfKStack s.k.cur (s.esp - used - 16)
  { k := k
    selfKStack := selfKStack
    esp := selfKStack k.cur + 16 + 4
    place := update s.place k.cur (s.place k.cur).dispatched }

/-- The load of `cur->selfKStack += sizeof(struct threadStack)`. -/
def startProcessLoad (s : Stacks) : Stacks :=
  { s with place := update s.place s.k.cur (.loaded (s.selfKStack s.k.cur)) }

/-- Its store. -/
def startProcessStore (value : Nat) (s : Stacks) : Stacks :=
  { s with
    selfKStack := update s.selfKStack s.k.cur (value + 4 * sizeofThreadStack)
    place := update s.place s.k.cur (.stored value) }

/-- `procStack = cur->selfKStack` -/
def startProcessRead (value : Nat) (s : Stacks) : Stacks :=
  { s with place := update s.place s.k.cur (.startProcess value (s.selfKStack s.k.cur) s.esp) }

/-- `intrSet` is also an `iretd`; `stack` is what the running code does to the stack pointer. -/
inductive StackEvent where
  | sched (op : SchedOp) (used : Nat)
  | intrEnable
  | intrSet (flag : Bool)
  | stack (esp : Nat)
  | load
  | store (value : Nat)
  | read (value : Nat)

/-- The operations that call `schedule`. -/
def SchedOp.switches (k : Kernel) : SchedOp → Bool
  | .block _ => true
  | .tick => ((k.task k.cur).ticks + 255) % 2 ^ 8 = 0
  | _ => false

/-- What an operation does to the stacks. -/
def SchedOp.stacks (k : Kernel) (used : Nat) (s : Stacks) : SchedOp → Stacks
  | .start task _ => threadCreate task false { s with k := k }
  | .execute task => threadCreate task true { s with k := k }
  | .unblock _ => { s with k := k }
  | .block _ => switchTo k used s
  -- a tick that does not switch ends with `iretd`
  | .tick => if (SchedOp.tick).switches s.k then switchTo k used s else { s with k := { k with intr := true } }

def StackEvent.run (s : Stacks) : StackEvent → Except Halt Stacks
  | .sched op used => do
      let k ← schedStep s.k op
      return op.stacks k used s
  | .intrEnable =>
      .ok { s with
        k := { s.k with intr := true }
        place := update s.place s.k.cur
          (if s.place s.k.cur = .kernelThread true then .enabled else .other) }
  | .intrSet flag => .ok { s with k := { s.k with intr := flag } }
  | .stack esp => .ok { s with esp := esp }
  | .load => .ok (startProcessLoad s)
  | .store value => .ok (startProcessStore value s)
  | .read value => .ok (startProcessRead value s)

/-- The lower end of the room that `threadCreate` reserves. -/
def reserved (task : Nat) : Nat := task + 4096 - 4 * sizeofIntrStack - 4 * sizeofThreadStack

/-- What an interrupt pushes: the CPU `eflags`, `cs` and `eip`, the entry an error code, four segments, eight
registers, the vector and a return address. -/
def interruptFrame : Nat := 3 * 4 + 4 + 4 * 4 + 8 * 4 + 4 + 4

/-- Code of a new process before it has `procStack`: `kernelThread` and what it calls. -/
def Place.early : Place → Bool
  | .kernelThread _ => true
  | .enabled => true
  | .loaded _ => true
  | .stored _ => true
  | _ => false

/-- With interrupts on, what `startProcess` does next with `selfKStack` is to load it. -/
def Place.loads : Place → Bool
  | .enabled => true
  | .stored _ => true
  | _ => false

/-- A new thread has a page of its own. `kernelThread` calls nothing but `intrEnable` and the function of the thread,
and before it has `procStack` a process is switched out by an interrupt handler only. -/
def StackEvent.Enabled (s : Stacks) : StackEvent → Prop
  | .sched op used =>
      (∀ t ∈ op.created, t ∉ s.k.tasks ∧ t ≠ s.k.cur) ∧
      (op = .tick → s.k.intr = true) ∧ (op ≠ .tick → ∀ process, s.place s.k.cur ≠ .kernelThread process) ∧
      (op.switches s.k = true →
        used + 16 + s.k.cur ≤ s.esp ∧ ((s.place s.k.cur).early = true → interruptFrame ≤ used))
  | .intrEnable => ∃ process, s.place s.k.cur = .kernelThread process
  | .intrSet _ => ∀ process, s.place s.k.cur ≠ .kernelThread process
  | .stack esp => s.k.cur ≤ esp ∧ ((s.place s.k.cur).early = true → esp ≤ reserved s.k.cur + 20)
  | .load => s.place s.k.cur = .enabled
  | .store value => s.place s.k.cur = .loaded value
  | .read value => s.place s.k.cur = .stored value

/-- A run with the states and events it consists of. -/
inductive Plays (s₀ : Stacks) : List (Stacks × StackEvent) → Stacks → Prop
  | refl : Plays s₀ [] s₀
  | step {tr : List (Stacks × StackEvent)} {s s' : Stacks} {e : StackEvent} (h : Plays s₀ tr s) (he : e.Enabled s)
      (hrun : e.run s = .ok s') : Plays s₀ (tr ++ [(s, e)]) s'

/-- The main thread after `threadSupportInit`. -/
def Stacks.Started (s : Stacks) : Prop :=
  (∃ main k, threadSupportInit main k = .ok s.k) ∧ ∀ t, s.place t = .other

/-- The event switches out a process that goes on with a load of `selfKStack`. -/
def StackEvent.SwitchesOut (s : Stacks) (t : Tid) : StackEvent → Prop
  | .sched op _ => op.switches s.k = true ∧ s.k.cur = t ∧ (s.place t).loads = true
  | _ => False

def NeverOut (tr : List (Stacks × StackEvent)) (t : Tid) : Prop := ∀ p ∈ tr, ¬p.2.SwitchesOut p.1 t

/-- The value that `startProcess` has loaded is the lower end of the room, and the `struct intrStack` at `procStack`
lies in the room, above the live stack. -/
structure FirstFrame (t : Tid) (value procStack esp : Nat) : Prop where
  slot : value = reserved t
  room : reserved t ≤ procStack ∧ procStack + sizeofIntrStack ≤ t + 4096
  above : esp ≤ procStack

variable {s s' s₀ : Stacks} {tr : List (Stacks × StackEvent)} {t task : Tid} {k k' : Kernel} {op : SchedOp}
  {e : StackEvent} {used value procStack esp : Nat}

theorem schedule_tasks (h : schedule k = .ok k') : k'.tasks = k.tasks := by
  obtain ⟨-, k₁, hreq, hdispatch⟩ := schedule_ok h
  obtain ⟨next, heap, tag, rfl⟩ := dispatch_fields hdispatch
  rcases requeue_ok hreq with ⟨-, -, rfl⟩ | ⟨-, rfl⟩
  · rfl
  · rfl

/-- What an operation does that concerns the stacks. -/
theorem schedStep_ok (h : schedStep k op = .ok k') : k'.tasks = k.tasks ++ op.created ∧
    (op.switches k = false → k'.cur = k.cur) ∧ (op.switches k = true → k'.intr = false) := by
  cases op with
  | start task priority =>
      obtain ⟨k₁, hinit, hlists⟩ := bind_ok h
      rw [enlistThread_ok hlists, threadInit_ok hinit]
      exact ⟨rfl, fun _ => rfl, fun hs => absurd hs Bool.false_ne_true⟩
  | execute task =>
      obtain ⟨k₁, hinit, h⟩ := bind_ok h
      obtain ⟨k₂, hlists, h⟩ := bind_ok h
      cases h
      rw [enlistThread_ok hlists, threadInit_ok hinit]
      exact ⟨rfl, fun _ => rfl, fun hs => absurd hs Bool.false_ne_true⟩
  | unblock pthread =>
      obtain ⟨-, -, rfl⟩ := threadUnblock_ok h
      exact ⟨(List.append_nil _).symm, fun _ => rfl, fun hs => absurd hs Bool.false_ne_true⟩
  | block status =>
      obtain ⟨-, -, h⟩ := bind_ok h
      exact ⟨(schedule_tasks h).trans (List.append_nil _).symm, fun hs => Bool.noConfusion hs,
        fun _ => (schedule_switched h).intr⟩
  | tick =>
      change (if ((k.task k.cur).ticks + 255) % 2 ^ 8 = 0 then _ else _) = _ at h
      by_cases hleft : ((k.task k.cur).ticks + 255) % 2 ^ 8 = 0
      · rw [if_pos hleft] at h
        refine ⟨(schedule_tasks h).trans (List.append_nil _).symm, fun hs => ?_, fun _ => (schedule_switched h).intr⟩
        exact absurd hleft (of_decide_eq_false hs)
      · rw [if_neg hleft] at h
        cases h
        exact ⟨(List.append_nil _).symm, fun _ => rfl, fun hs => absurd (of_decide_eq_true hs) hleft⟩

/-- What the first field of the `taskStruct` holds when the thread is at that place. -/
def Place.Consistent (tr : List (Stacks × StackEvent)) (t : Tid) (saved : Nat) : Place → Prop
  | .threadStack _ => saved = reserved t ∧ NeverOut tr t
  | .kernelThread _ => saved = reserved t ∧ NeverOut tr t
  | .enabled => saved = reserved t ↔ NeverOut tr t
  | .loaded value => value = reserved t ↔ NeverOut tr t
  | .stored value => (saved = value + 4 * sizeofThreadStack ∨ saved < reserved t) ∧
      (value = reserved t ∧ saved = value + 4 * sizeofThreadStack ↔ NeverOut tr t)
  | .startProcess value procStack esp => FirstFrame t value procStack esp ↔ NeverOut tr t
  | .other => True

structure StackInv (tr : List (Stacks × StackEvent)) (s : Stacks) : Prop where
  known : ∀ t, s.place t ≠ .other → t ∈ s.k.tasks
  out : ∀ t, ¬NeverOut tr t → t ∈ s.k.tasks
  started : ∀ process, s.place s.k.cur ≠ .threadStack process
  off : ∀ process, s.place s.k.cur = .kernelThread process → s.k.intr = false
  waiting : ∀ t process, t ≠ s.k.cur → s.place t ≠ .kernelThread process
  stack : (s.place s.k.cur).early = true → s.esp ≤ reserved s.k.cur + 20
  resting : ∀ t, t ≠ s.k.cur → (s.place t).dispatched.early = true → s.selfKStack t ≤ reserved t
  places : ∀ t, (s.place t).Consistent tr t (s.selfKStack t)

theorem neverOut_append : NeverOut (tr ++ [(s, e)]) t ↔ NeverOut tr t ∧ ¬e.SwitchesOut s t := by
  unfold NeverOut
  constructor
  · exact fun h => ⟨fun p hp => h p (List.mem_append_left _ hp), h (s, e) (List.mem_append_right _ (by simp))⟩
  · rintro ⟨hold, hnew⟩ p hp
    rcases List.mem_append.1 hp with hp | hp
    · exact hold p hp
    · rw [List.mem_singleton.1 hp]
      exact hnew

theorem Place.Consistent.congr {tr' : List (Stacks × StackEvent)} {saved : Nat} {place : Place}
    (h : place.Consistent tr t saved) (hsame : NeverOut tr' t ↔ NeverOut tr t) : place.Consistent tr' t saved := by
  cases place with
  | threadStack process => exact ⟨h.1, hsame.2 h.2⟩
  | kernelThread process => exact ⟨h.1, hsame.2 h.2⟩
  | enabled => exact Iff.trans h hsame.symm
  | loaded value => exact Iff.trans h hsame.symm
  | stored value => exact ⟨h.1, h.2.trans hsame.symm⟩
  | startProcess value procStack esp => exact Iff.trans h hsame.symm
  | other => trivial

/-- An event that switches out no process before a load. -/
theorem StackInv.append (h : StackInv tr s') (hno : ∀ t, ¬e.SwitchesOut s t) : StackInv (tr ++ [(s, e)]) s' := by
  have hsame : ∀ t, NeverOut (tr ++ [(s, e)]) t ↔ NeverOut tr t :=
    fun t => neverOut_append.trans (and_iff_left (hno t))
  exact ⟨h.known, fun t ht => h.out t fun hn => ht ((hsame t).2 hn), h.started, h.off, h.waiting, h.stack,
    h.resting, fun t => (h.places t).congr (hsame t)⟩

/-- The scheduler's state changes, but not the current thread. -/
theorem StackInv.keep (h : StackInv tr s) (hcur : k'.cur = s.k.cur) (htasks : ∀ t ∈ s.k.tasks, t ∈ k'.tasks)
    (hplace : ∀ process, s.place s.k.cur ≠ .kernelThread process) : StackInv tr { s with k := k' } where
  known t ht := htasks t (h.known t ht)
  out t ht := htasks t (h.out t ht)
  started process := by
    change s.place k'.cur ≠ _
    rw [hcur]
    exact h.started process
  off process hp := by
    change s.place k'.cur = _ at hp
    rw [hcur] at hp
    exact absurd hp (hplace process)
  waiting t process hne := h.waiting t process (by rw [← hcur]; exact hne)
  stack := by
    change (s.place k'.cur).early = true → s.esp ≤ reserved k'.cur + 20
    rw [hcur]
    exact h.stack
  resting t hne := h.resting t (by rw [← hcur]; exact hne)
  places := h.places

theorem StackInv.create (h : StackInv tr s) (hne : t ≠ s.k.cur) (ht : t ∈ s.k.tasks) (hnever : NeverOut tr t)
    (process : Bool) : StackInv tr (threadCreate t process s) := by
  have hplace : ∀ u, (threadCreate t process s).place u = if u = t then .threadStack process else s.place u := by
    intro u
    exact update_apply _ _ _ _
  have hsaved : ∀ u, (threadCreate t process s).selfKStack u = if u = t then reserved t else s.selfKStack u := by
    intro u
    exact update_apply _ _ _ _
  have hcur : (threadCreate t process s).place s.k.cur = s.place s.k.cur := by rw [hplace, if_neg (Ne.symm hne)]
  refine ⟨fun u hu => ?_, h.out, fun p => ?_, fun p hp => ?_, fun u p hu => ?_, fun hearly => ?_,
    fun u hu hearly => ?_, fun u => ?_⟩
  · rw [hplace] at hu
    by_cases he : u = t
    · rw [he]
      exact ht
    · rw [if_neg he] at hu
      exact h.known u hu
  · exact fun he => h.started p (hcur.symm.trans he)
  · exact h.off p (hcur.symm.trans hp)
  · rw [hplace]
    split
    · exact Place.noConfusion
    · exact h.waiting u p hu
  · refine h.stack ?_
    rw [← hcur]
    exact hearly
  · rw [hplace] at hearly
    rw [hsaved]
    by_cases he : u = t
    · exact Nat.le_of_eq (by rw [if_pos he, he])
    · rw [if_neg he] at hearly ⊢
      exact h.resting u hu hearly
  · rw [hplace, hsaved]
    by_cases he : u = t
    · rw [if_pos he, if_pos he, he]
      exact ⟨rfl, hnever⟩
    · rw [if_neg he, if_neg he]
      exact h.places u

theorem dispatched_ne (place : Place) (process : Bool) : place.dispatched ≠ .threadStack process := by
  cases place <;> exact Place.noConfusion

/-- A thread that is switched to finds what was saved. -/
theorem Place.Consistent.dispatched {saved : Nat} {place : Place} (h : place.Consistent tr t saved) :
    place.dispatched.Consistent tr t saved := by
  cases place <;> exact h

/-- What is saved of a process that is switched out before it has `procStack` lies below its room. -/
theorem StackInv.saved_lt (h : StackInv tr s) (hearly : (s.place s.k.cur).early = true)
    (hframe : interruptFrame ≤ used) (hpage : used + 16 + s.k.cur ≤ s.esp) :
    s.esp - used - 16 < reserved s.k.cur := by
  have hesp := h.stack hearly
  unfold reserved sizeofIntrStack sizeofThreadStack at hesp ⊢
  unfold interruptFrame at hframe
  omega

/-- The stack pointer that is saved for the current thread, which is out from here on if it was about to load. -/
theorem StackInv.saved_consistent (h : StackInv tr s) (hplace : ∀ process, s.place s.k.cur ≠ .kernelThread process)
    (hpage : used + 16 + s.k.cur ≤ s.esp) (hframe : (s.place s.k.cur).early = true → interruptFrame ≤ used)
    (hnever : NeverOut (tr ++ [(s, e)]) s.k.cur ↔ NeverOut tr s.k.cur ∧ ¬(s.place s.k.cur).loads = true) :
    (s.place s.k.cur).Consistent (tr ++ [(s, e)]) s.k.cur (s.esp - used - 16) := by
  have hold := h.places s.k.cur
  have hspared : (s.place s.k.cur).loads = false → (NeverOut (tr ++ [(s, e)]) s.k.cur ↔ NeverOut tr s.k.cur) :=
    fun hno => hnever.trans (and_iff_left fun hloads => Bool.false_ne_true (hno.symm.trans hloads))
  have hgone : (s.place s.k.cur).loads = true → ¬NeverOut (tr ++ [(s, e)]) s.k.cur :=
    fun hloads hn => (hnever.1 hn).2 hloads
  have hlt : (s.place s.k.cur).early = true → s.esp - used - 16 < reserved s.k.cur :=
    fun hearly => h.saved_lt hearly (hframe hearly) hpage
  cases hp : s.place s.k.cur with
  | threadStack process => exact absurd hp (h.started process)
  | kernelThread process => exact absurd hp (hplace process)
  | enabled =>
      rw [hp] at hgone hlt
      exact iff_of_false (Nat.ne_of_lt (hlt rfl)) (hgone rfl)
  | loaded value =>
      rw [hp] at hold hspared
      exact Iff.trans hold (hspared rfl).symm
  | stored value =>
      rw [hp] at hgone hlt
      have hbelow := hlt rfl
      refine ⟨.inr hbelow, iff_of_false (fun hn => ?_) (hgone rfl)⟩
      omega
  | startProcess value procStack esp =>
      rw [hp] at hold hspared
      exact Iff.trans hold (hspared rfl).symm
  | other => trivial

theorem StackInv.saved_resting (h : StackInv tr s) (hpage : used + 16 + s.k.cur ≤ s.esp)
    (hframe : (s.place s.k.cur).early = true → interruptFrame ≤ used)
    (hearly : (s.place t).dispatched.early = true) :
    update s.selfKStack s.k.cur (s.esp - used - 16) t ≤ reserved t := by
  by_cases hcur : t = s.k.cur
  · rw [hcur] at hearly ⊢
    rw [update_self]
    have hsame : (s.place s.k.cur).dispatched = s.place s.k.cur := by
      cases hp : s.place s.k.cur with
      | threadStack process => exact absurd hp (h.started process)
      | _ => rfl
    rw [hsame] at hearly
    exact Nat.le_of_lt (h.saved_lt hearly (hframe hearly) hpage)
  · rw [update_of_ne hcur]
    exact h.resting t hcur hearly

theorem StackInv.switch (h : StackInv tr s) (htasks : k'.tasks = s.k.tasks) (hoff : k'.intr = false)
    (hplace : ∀ process, s.place s.k.cur ≠ .kernelThread process) (hpage : used + 16 + s.k.cur ≤ s.esp)
    (hframe : (s.place s.k.cur).early = true → interruptFrame ≤ used)
    (hout : ∀ t, e.SwitchesOut s t ↔ s.k.cur = t ∧ (s.place t).loads = true) :
    StackInv (tr ++ [(s, e)]) (switchTo k' used s) := by
  have hnever : ∀ t, NeverOut (tr ++ [(s, e)]) t ↔ NeverOut tr t ∧ ¬(s.k.cur = t ∧ (s.place t).loads = true) :=
    fun t => neverOut_append.trans (and_congr Iff.rfl (not_congr (hout t)))
  have hsaved : ∀ t, (s.place t).Consistent (tr ++ [(s, e)]) t
      (update s.selfKStack s.k.cur (s.esp - used - 16) t) := by
    intro t
    by_cases hcur : t = s.k.cur
    · rw [hcur, update_self]
      refine h.saved_consistent hplace hpage hframe ((hnever _).trans ?_)
      rw [eq_self_iff_true, true_and]
    · rw [update_of_ne hcur]
      exact (h.places t).congr ((hnever t).trans (and_iff_left fun hn => hcur hn.1.symm))
  have hresting : ∀ t, (s.place t).dispatched.early = true →
      update s.selfKStack s.k.cur (s.esp - used - 16) t ≤ reserved t :=
    fun t hearly => h.saved_resting hpage hframe hearly
  have hat : ∀ t, (switchTo k' used s).place t =
      if t = k'.cur then (s.place k'.cur).dispatched else s.place t := fun t => update_apply _ _ _ _
  have hnext : (switchTo k' used s).place k'.cur = (s.place k'.cur).dispatched := by rw [hat, if_pos rfl]
  have hknown : ∀ t, s.place t ≠ .other → t ∈ k'.tasks := by
    rw [htasks]
    exact h.known
  refine ⟨fun t ht => ?_, fun t ht => ?_, fun p => ?_, fun p _ => hoff, fun t p hne => ?_, fun hearly => ?_,
    fun t hne hearly => ?_, fun t => ?_⟩
  · refine hknown t fun ho => ht ?_
    rw [hat]
    split
    next he =>
      rw [← he, ho]
      rfl
    next => exact ho
  · by_cases hold : NeverOut tr t
    · refine hknown t fun ho => ht ((hnever t).2 ⟨hold, fun hn => ?_⟩)
      rw [ho] at hn
      cases hn.2
    · change t ∈ k'.tasks
      rw [htasks]
      exact h.out t hold
  · intro he
    exact dispatched_ne _ p (hnext.symm.trans he)
  · have hother : t ≠ k'.cur := hne
    rw [hat, if_neg hother]
    by_cases hcur : t = s.k.cur
    · rw [hcur]
      exact hplace p
    · exact h.waiting t p hcur
  · have hearly : (s.place k'.cur).dispatched.early = true := by
      rw [← hnext]
      exact hearly
    exact Nat.add_le_add_right (hresting k'.cur hearly) 20
  · have hother : t ≠ k'.cur := hne
    rw [hat, if_neg hother] at hearly
    exact hresting t hearly
  · rw [hat]
    split
    next he =>
      rw [he]
      exact (hsaved k'.cur).dispatched
    next => exact hsaved t

theorem stackInv_start (h : s.Started) : StackInv [] s := by
  have hplace : ∀ t place, s.place t = place → place = .other := fun t place hp => hp.symm.trans (h.2 t)
  refine ⟨fun t ht => absurd (h.2 t) ht, fun t ht => absurd (fun p hp => absurd hp List.not_mem_nil) ht, ?_, ?_, ?_,
    fun hearly => ?_, fun t _ hearly => ?_, fun t => ?_⟩
  · exact fun p he => Place.noConfusion (hplace _ _ he)
  · exact fun p he => Place.noConfusion (hplace _ _ he)
  · exact fun t p _ he => Place.noConfusion (hplace _ _ he)
  · rw [h.2] at hearly
    exact absurd hearly Bool.false_ne_true
  · rw [h.2] at hearly
    exact absurd hearly Bool.false_ne_true
  · rw [h.2]
    trivial

theorem StackInv.sched (h : StackInv tr s) (he : (StackEvent.sched op used).Enabled s)
    (hstep : schedStep s.k op = .ok k') : StackInv (tr ++ [(s, .sched op used)]) (op.stacks k' used s) := by
  obtain ⟨hfresh, htick, hcall, hswitch⟩ := he
  obtain ⟨htasks, hcur, hoff⟩ := schedStep_ok hstep
  have hplace : ∀ process, s.place s.k.cur ≠ .kernelThread process := by
    intro process hp
    by_cases hop : op = .tick
    · have hon := htick hop
      rw [h.off process hp] at hon
      cases hon
    · exact hcall hop process hp
  have hgrow : ∀ t ∈ s.k.tasks, t ∈ k'.tasks := by
    rw [htasks]
    exact fun t ht => List.mem_append_left _ ht
  have hno : op.switches s.k = false → ∀ t, ¬(StackEvent.sched op used).SwitchesOut s t := by
    exact fun hs t hout => Bool.false_ne_true (hs.symm.trans hout.1)
  have hcreate : ∀ task process, op.created = [task] → op.switches s.k = false →
      StackInv (tr ++ [(s, .sched op used)]) (threadCreate task process { s with k := k' }) := by
    intro task process hop hs
    obtain ⟨hnew, hne⟩ := hfresh task (by rw [hop]; exact List.mem_singleton.2 rfl)
    have hkept := (h.keep (hcur hs) hgrow hplace).append (hno hs)
    refine hkept.create ?_ ?_ ?_ process
    · change task ≠ k'.cur
      rw [hcur hs]
      exact hne
    · change task ∈ k'.tasks
      rw [htasks, hop]
      exact List.mem_append_right _ (List.mem_singleton.2 rfl)
    · exact neverOut_append.2 ⟨not_not.1 fun hn => hnew (h.out task hn), hno hs task⟩
  have hswitched : op.switches s.k = true →
      StackInv (tr ++ [(s, .sched op used)]) (switchTo k' used s) := by
    intro hs
    obtain ⟨hpage, hframe⟩ := hswitch hs
    have hnone : op.created = [] := by
      cases op with
      | start task priority => exact absurd hs Bool.false_ne_true
      | execute task => exact absurd hs Bool.false_ne_true
      | unblock pthread => rfl
      | block status => rfl
      | tick => rfl
    rw [hnone, List.append_nil] at htasks
    exact h.switch htasks (hoff hs) hplace hpage hframe fun t => and_iff_right hs
  cases op with
  | start task priority => exact hcreate task false rfl rfl
  | execute task => exact hcreate task true rfl rfl
  | unblock pthread => exact (h.keep (hcur rfl) hgrow hplace).append (hno rfl)
  | block status => exact hswitched rfl
  | tick =>
      unfold SchedOp.stacks
      by_cases hs : SchedOp.tick.switches s.k = true
      · rw [if_pos hs]
        exact hswitched hs
      · have hstays : SchedOp.tick.switches s.k = false := by simpa using hs
        rw [if_neg hs]
        have hkept : StackInv tr { s with k := { k' with intr := true } } := h.keep (hcur hstays) hgrow hplace
        exact hkept.append (hno hstays)

/-- The current thread goes on to another place of its code. -/
theorem StackInv.move (h : StackInv tr s) {place : Place} {selfKStack : Tid → Nat} (hold : s.place s.k.cur ≠ .other)
    (hstarted : ∀ process, place ≠ .threadStack process) (hoff : ∀ process, place ≠ .kernelThread process)
    (hstack : place.early = true → s.esp ≤ reserved s.k.cur + 20)
    (hkept : ∀ t, t ≠ s.k.cur → selfKStack t = s.selfKStack t)
    (hplace : place.Consistent tr s.k.cur (selfKStack s.k.cur)) :
    StackInv tr { s with selfKStack := selfKStack, place := update s.place s.k.cur place } := by
  refine ⟨fun t ht => ?_, h.out, fun p => ?_, fun p hp => ?_, fun t p hne => ?_, fun hearly => ?_,
    fun t hne hearly => ?_, fun t => ?_⟩
  · by_cases hcur : t = s.k.cur
    · rw [hcur]
      exact h.known _ hold
    · refine h.known t fun ho => ht ?_
      exact (update_of_ne hcur _ _).trans ho
  · exact fun he => hstarted p ((update_self _ _ _).symm.trans he)
  · exact absurd ((update_self _ _ _).symm.trans hp) (hoff p)
  · exact fun he => h.waiting t p hne ((update_of_ne hne _ _).symm.trans he)
  · refine hstack ?_
    rw [← hearly]
    exact congrArg Place.early (update_self s.k.cur place s.place).symm
  · have hother : (update s.place s.k.cur place t).dispatched.early = true := hearly
    rw [update_of_ne hne] at hother
    change selfKStack t ≤ reserved t
    rw [hkept t hne]
    exact h.resting t hne hother
  · by_cases hcur : t = s.k.cur
    · rw [hcur]
      change (update s.place s.k.cur place s.k.cur).Consistent tr _ _
      rw [update_self]
      exact hplace
    · change (update s.place s.k.cur place t).Consistent tr t (selfKStack t)
      rw [update_of_ne hcur, hkept t hcur]
      exact h.places t

theorem StackInv.enable (h : StackInv tr s) {process : Bool} (hp : s.place s.k.cur = .kernelThread process) :
    StackInv tr { s with
      k := { s.k with intr := true }
      place := update s.place s.k.cur (if s.place s.k.cur = .kernelThread true then .enabled else .other) } := by
  have hold := h.places s.k.cur
  rw [hp] at hold
  have hmoved : StackInv tr { s with
      place := update s.place s.k.cur (if s.place s.k.cur = .kernelThread true then .enabled else .other) } := by
    refine h.move (by rw [hp]; exact Place.noConfusion) (fun q => ?_) (fun q => ?_) (fun _ => ?_) (fun _ _ => rfl) ?_
    · split <;> exact Place.noConfusion
    · split <;> exact Place.noConfusion
    · exact h.stack (by rw [hp]; rfl)
    · split
      · exact iff_of_true hold.1 hold.2
      · trivial
  refine hmoved.keep ?_ ?_ fun q he => ?_
  · rfl
  · exact fun t ht => ht
  have hself : (if s.place s.k.cur = .kernelThread true then Place.enabled else .other) = .kernelThread q :=
    (update_self _ _ _).symm.trans he
  split at hself <;> exact Place.noConfusion hself

theorem firstFrame_of_slot (hslot : value = reserved t) (hstack : procStack = value + 4 * sizeofThreadStack)
    (hesp : esp ≤ reserved t + 20) : FirstFrame t value procStack esp := by
  have hroom : reserved t + 4 * sizeofThreadStack + sizeofIntrStack ≤ t + 4096 := by
    unfold reserved sizeofIntrStack sizeofThreadStack
    omega
  have habove : esp ≤ reserved t + 4 * sizeofThreadStack := Nat.le_trans hesp (Nat.add_le_add_left (by decide) _)
  have hlow : reserved t ≤ reserved t + 4 * sizeofThreadStack := Nat.le_add_right _ _
  rw [hslot] at hstack
  rw [← hstack] at hroom habove hlow
  exact ⟨hslot, ⟨hlow, hroom⟩, habove⟩

theorem StackInv.load (h : StackInv tr s) (hp : s.place s.k.cur = .enabled) : StackInv tr (startProcessLoad s) := by
  have hold := h.places s.k.cur
  rw [hp] at hold
  exact h.move (by rw [hp]; exact Place.noConfusion) (fun q => Place.noConfusion) (fun q => Place.noConfusion)
    (fun _ => h.stack (by rw [hp]; rfl)) (fun _ _ => rfl) hold

theorem StackInv.store (h : StackInv tr s) (hp : s.place s.k.cur = .loaded value) :
    StackInv tr (startProcessStore value s) := by
  have hold := h.places s.k.cur
  rw [hp] at hold
  refine h.move (by rw [hp]; exact Place.noConfusion) (fun q => Place.noConfusion) (fun q => Place.noConfusion)
    (fun _ => h.stack (by rw [hp]; rfl)) (fun t ht => update_of_ne ht _ _) ?_
  rw [update_self]
  exact ⟨.inl rfl, (and_iff_left rfl).trans hold⟩

theorem StackInv.read (h : StackInv tr s) (hp : s.place s.k.cur = .stored value) :
    StackInv tr (startProcessRead value s) := by
  have hold := h.places s.k.cur
  rw [hp] at hold
  have hesp := h.stack (by rw [hp]; rfl)
  refine h.move (by rw [hp]; exact Place.noConfusion) (fun q => Place.noConfusion) (fun q => Place.noConfusion)
    (fun he => absurd he Bool.false_ne_true) (fun _ _ => rfl) ?_
  refine Iff.trans ⟨fun hframe => ⟨hframe.slot, hold.1.resolve_right ?_⟩,
    fun hn => firstFrame_of_slot hn.1 hn.2 hesp⟩ hold.2
  exact Nat.not_lt.2 hframe.room.1

theorem StackInv.event (h : StackInv tr s) (he : e.Enabled s) (hrun : e.run s = .ok s') :
    StackInv (tr ++ [(s, e)]) s' := by
  cases e with
  | sched op used =>
      obtain ⟨k', hstep, hrun⟩ := bind_ok hrun
      cases hrun
      exact h.sched he hstep
  | intrEnable =>
      cases hrun
      obtain ⟨process, hp⟩ := he
      exact (h.enable hp).append fun t => id
  | intrSet flag =>
      cases hrun
      have hkept : StackInv tr { s with k := { s.k with intr := flag } } := h.keep rfl (fun t ht => ht) he
      exact hkept.append fun t => id
  | stack esp =>
      cases hrun
      have hmoved : StackInv tr { s with esp := esp } :=
        ⟨h.known, h.out, h.started, h.off, h.waiting, he.2, h.resting, h.places⟩
      exact hmoved.append fun t => id
  | load =>
      cases hrun
      exact (h.load he).append fun t => id
  | store value =>
      cases hrun
      exact (h.store he).append fun t => id
  | read value =>
      cases hrun
      exact (h.read he).append fun t => id

theorem plays_inv (hstart : s₀.Started) (hrun : Plays s₀ tr s) : StackInv tr s := by
  induction hrun with
  | refl => exact stackInv_start hstart
  | step _ he hrun ih => exact ih.event he hrun

/-- In every run, `startProcess` of a process loads the lower end of the room that `threadCreate` reserved and fills a
frame in that room and above the live stack, exactly when the process has not been switched out before it loads
`selfKStack` to add to it, nor between the store of the sum and the read of `procStack`. -/
theorem firstFrame_iff (hstart : s₀.Started) (hrun : Plays s₀ tr s)
    (hread : s.place t = .startProcess value procStack esp) : FirstFrame t value procStack esp ↔ NeverOut tr t := by
  have hplace := (plays_inv hstart hrun).places t
  rw [hread] at hplace
  exact hplace

deriving instance DecidableEq for SchedOp

instance (s : Stacks) (e : StackEvent) : Decidable (e.Enabled s) :=
  match e with
  | .sched _ _ => inferInstanceAs (Decidable (_ ∧ _ ∧ _ ∧ _))
  | .intrEnable => inferInstanceAs (Decidable (∃ _ : Bool, _))
  | .intrSet _ => inferInstanceAs (Decidable (∀ _ : Bool, _))
  | .stack _ => inferInstanceAs (Decidable (_ ∧ _))
  | .load => inferInstanceAs (Decidable (_ = _))
  | .store _ => inferInstanceAs (Decidable (_ = _))
  | .read _ => inferInstanceAs (Decidable (_ = _))

/-- The run with these events, if each can happen. -/
def playStacks (s : Stacks) : List StackEvent → Option (List (Stacks × StackEvent) × Stacks)
  | [] => some ([], s)
  | e :: es =>
      if e.Enabled s then
        match e.run s with
        | .ok s' => (playStacks s' es).map fun r => ((s, e) :: r.1, r.2)
        | .error _ => none
      else none

theorem play_plays {es : List StackEvent} {done : List (Stacks × StackEvent)} (hdone : Plays s₀ done s)
    (h : playStacks s es = some (tr, s')) : Plays s₀ (done ++ tr) s' := by
  induction es generalizing s done tr with
  | nil =>
      cases h
      rw [List.append_nil]
      exact hdone
  | cons e es ih =>
      rw [playStacks] at h
      split at h
      next he =>
        split at h
        next s₁ hrun =>
          obtain ⟨r, hr, hlast⟩ := Option.map_eq_some_iff.1 h
          cases hlast
          have hrest := ih (hdone.step he hrun) hr
          rw [List.append_assoc] at hrest
          exact hrest
        next => cases h
      next => cases h

/-- The page of the main thread and that of the first process. -/
def bootTask : Tid := 0xc009e000

def firstProcess : Tid := 0xc0100000

def bootStacks : Stacks where
  k := ((bootKernel.supported bootTask).inited bootTask 31).append .all (.allListTag bootTask)
  selfKStack _ := 0
  esp := 0xc009f000
  place _ := .other

theorem bootStacks_started : bootStacks.Started := ⟨⟨_, _, threadSupportInit_eq bootTask bootKernel⟩, fun _ => rfl⟩

/-- What the events lead to. -/
theorem play_reads (es : List StackEvent) (place : Place)
    (h : ((playStacks bootStacks es).map fun r => r.2.place firstProcess) = some place) :
    ∃ tr s, Plays bootStacks tr s ∧ s.place firstProcess = place := by
  obtain ⟨⟨tr, s⟩, hplay, hplace⟩ := Option.map_eq_some_iff.1 h
  exact ⟨tr, s, play_plays .refl hplay, hplace⟩

/-- The main thread creates a process and gives up the CPU; the process goes on at once. -/
theorem firstFrame_iff_atOnce : ∃ tr s, Plays bootStacks tr s ∧
    s.place firstProcess = .startProcess (firstProcess + 3664) (firstProcess + 3792) (firstProcess + 3684) ∧
    (FirstFrame firstProcess (firstProcess + 3664) (firstProcess + 3792) (firstProcess + 3684) ↔
      NeverOut tr firstProcess) := by
  obtain ⟨tr, s, hrun, hread⟩ := play_reads
    [.sched (.execute firstProcess) 0, .sched (.block .running) 12, .intrEnable, .load, .store (firstProcess + 3664),
      .read (firstProcess + 3664)]
    (.startProcess (firstProcess + 3664) (firstProcess + 3792) (firstProcess + 3684)) (by decide)
  exact ⟨tr, s, hrun, hread, firstFrame_iff bootStacks_started hrun hread⟩

/-- In between, a key is pressed and the handler of the keyboard has to wait. -/
theorem firstFrame_misses : ∃ tr s, bootStacks.Started ∧ Plays bootStacks tr s ∧
    s.place firstProcess = .startProcess (firstProcess + 3568) (firstProcess + 3696) (firstProcess + 3588) ∧
    ¬FirstFrame firstProcess (firstProcess + 3568) (firstProcess + 3696) (firstProcess + 3588) := by
  obtain ⟨tr, s, hrun, hread⟩ := play_reads
    [.sched (.execute firstProcess) 0, .sched (.block .running) 12, .intrEnable, .sched (.block .blocked) 100,
      .sched (.unblock firstProcess) 0, .sched (.block .running) 12, .intrSet true, .load,
      .store (firstProcess + 3568), .read (firstProcess + 3568)]
    (.startProcess (firstProcess + 3568) (firstProcess + 3696) (firstProcess + 3588)) (by decide)
  exact ⟨tr, s, bootStacks_started, hrun, hread, fun h => absurd h.slot (by decide)⟩

/-- A switch between the load and the store is harmless. -/
example : ((playStacks bootStacks [.sched (.execute firstProcess) 0, .sched (.block .running) 12, .intrEnable, .load,
    .sched (.block .blocked) 100, .sched (.unblock firstProcess) 0, .sched (.block .running) 12, .intrSet true,
    .store (firstProcess + 3664), .read (firstProcess + 3664)]).map fun r => r.2.place firstProcess) =
      some (.startProcess (firstProcess + 3664) (firstProcess + 3792) (firstProcess + 3588)) := by
  decide

end HoloOS
