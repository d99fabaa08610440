import HoloOS.SyncEvents

/-! The statement machine with the list operations split into their assignments. A timer interrupt may come between
two assignments of a `listAppend`, `listRemove` or `listPop` that is executed with interrupts on. When none of these
ends a slice, every operation is one step of the machine that executes it whole. -/

namespace HoloOS

open Function Linked

/-- The assignments of `listInsert` and of `listRemove`. -/
inductive Assign where
  | prevNext (before node : Node)
  | nodePrev (before node : Node)
  | nodeNext (before node : Node)
  | beforePrev (before node : Node)
  | removeNext (node : Node)
  | removePrev (node : Node)
  deriving DecidableEq

def Assign.run (h : ListHeap Node) : Assign → ListHeap Node
  | prevNext before node => h.setNext (h.prev before) node
  | nodePrev before node => h.setPrev node (h.prev before)
  | nodeNext before node => h.setNext node before
  | beforePrev before node => h.setPrev before node
  | removeNext node => h.setNext (h.prev node) (h.next node)
  | removePrev node => h.setPrev (h.next node) (h.prev node)

def insertAssigns (before node : Node) : List Assign :=
  [.prevNext before node, .nodePrev before node, .nodeNext before node, .beforePrev before node]

def removeAssigns (node : Node) : List Assign := [.removeNext node, .removePrev node]

/-- `listPop` reads the first node before it removes it. -/
def popAssigns (h : ListHeap Node) (list : KList Node) : List Assign :=
  if listEmpty h list then [] else removeAssigns (h.next list.head)

/-- The assignments of the list operation that the statement is. -/
def Instr.assigns (m : Machine) : Instr → List Assign
  | .appendSelf list => insertAssigns (klist list).tail (.generalTag m.cur)
  | .removeSelf _ => removeAssigns (.generalTag m.cur)
  | .popWaiter lock => popAssigns m.k.heap (klist (.waiters lock))
  | .popSleeper cond => popAssigns m.k.heap (klist (.cond cond))
  | .enlist list task => insertAssigns (klist list).tail (tagFor list task)
  | _ => []

namespace Machine

def setHeap (m : Machine) (heap : ListHeap Node) : Machine := { m with k := { m.k with heap := heap } }

/-- The assignments of the list operation that the running thread executes next with interrupts on. -/
def splits (m : Machine) : List Assign :=
  if m.k.intr then
    match m.code m.cur with
    | [] => []
    | i :: _ => i.assigns m
  else []

end Machine

/-- The machine, and what is left of the list operation that a thread is in. The code of such a thread is what follows
the operation, after the `iret` of an interrupt in it. -/
structure Split where
  m : Machine
  todo : Tid → List Assign

inductive SplitEvent where
  | event (e : Event)
  | assign
  deriving DecidableEq

/-- A thread in a list operation goes on with it when interrupts are on, and with them off it leaves the handler. -/
def SplitEvent.Enabled (s : Split) : SplitEvent → Prop
  | .event .step => Event.Enabled s.m .step ∧ (s.todo s.m.cur = [] ∨ s.m.k.intr = false)
  | .event .tick => Event.Enabled s.m .tick
  | .event e => e.Enabled s.m ∧ s.todo s.m.cur = []
  | .assign => s.todo s.m.cur ≠ [] ∧ s.m.k.intr = true

/-- The statement of a list operation is taken off the code, and the heap stays for its assignments. -/
def SplitEvent.run (s : Split) : SplitEvent → Except Halt Split
  | .event .step => do
      let m ← Event.run s.m .step
      match s.m.splits with
      | [] => return { s with m := m }
      | a :: rest => return { m := m.setHeap s.m.k.heap, todo := update s.todo s.m.cur (a :: rest) }
  | .event e => do
      let m ← e.run s.m
      return { s with m := m }
  | .assign =>
      match s.todo s.m.cur with
      | [] => .ok s
      | a :: rest => .ok { m := s.m.setHeap (a.run s.m.k.heap), todo := update s.todo s.m.cur rest }

instance splitEnabledDecidable (s : Split) : (e : SplitEvent) → Decidable (e.Enabled s)
  | .event .step => inferInstanceAs (Decidable (_ ∧ (_ ∨ _)))
  | .event .tick => inferInstanceAs (Decidable (Event.Enabled s.m .tick))
  | .event (.call f) => inferInstanceAs (Decidable (Event.Enabled s.m (.call f) ∧ _))
  | .event (.int80 lock) => inferInstanceAs (Decidable (Event.Enabled s.m (.int80 lock) ∧ _))
  | .event (.setIntr status) => inferInstanceAs (Decidable (Event.Enabled s.m (.setIntr status) ∧ _))
  | .event (.promote t) => inferInstanceAs (Decidable (Event.Enabled s.m (.promote t) ∧ _))
  | .assign => inferInstanceAs (Decidable (_ ∧ _))

def Split.Step (allowed : Split → SplitEvent → Prop) (s s' : Split) : Prop :=
  ∃ e : SplitEvent, e.Enabled s ∧ allowed s e ∧ e.run s = .ok s'

def SplitReached (allowed : Split → SplitEvent → Prop) (s : Split) : Prop :=
  ∃ m, Booted m ∧ Relation.ReflTransGen (Split.Step allowed) ⟨m, fun _ => []⟩ s

/-- No timer interrupt ends the slice of a thread in a list operation, nor after the `listAppend` of `lockAcquire` and
before the `listRemove` or `intrDisable` that follows. -/
def SplitSpared (s : Split) (e : SplitEvent) : Prop :=
  e = .event .tick → s.m.SliceEnds → s.todo s.m.cur = [] ∧ ¬InWindow (s.m.code s.m.cur)

/-- The machine once the running thread has ended the list operation that it is in. -/
def Split.settled (s : Split) : Machine := s.m.setHeap ((s.todo s.m.cur).foldl Assign.run s.m.k.heap)

variable {m m' : Machine} {s s' : Split} {i : Instr} {rest : List Instr}

theorem foldl_insertAssigns (h : ListHeap Node) (before node : Node) :
    (insertAssigns before node).foldl Assign.run h = listInsert h before node := rfl

theorem foldl_removeAssigns (h : ListHeap Node) (node : Node) :
    (removeAssigns node).foldl Assign.run h = listRemove h node := rfl

theorem foldl_popAssigns (h : ListHeap Node) (list : KList Node) :
    (popAssigns h list).foldl Assign.run h = (listPop h list).2 := by
  unfold popAssigns listPop
  split
  · rfl
  · rfl

/-- The assignments of a statement do to the heap what the statement does. -/
theorem exec_assigns (hexec : exec m i = .ok m') (hne : i.assigns m ≠ []) :
    m'.k.heap = (i.assigns m).foldl Assign.run m.k.heap ∧ m'.cur = m.cur ∧ m'.k.intr = m.k.intr := by
  cases i with
  | appendSelf list =>
      cases hexec
      exact ⟨(foldl_insertAssigns _ _ _).symm, rfl, rfl⟩
  | removeSelf lock =>
      cases hexec
      exact ⟨(foldl_removeAssigns _ _).symm, rfl, rfl⟩
  | popWaiter lock =>
      obtain ⟨⟨thread, k⟩, hpop, hpush⟩ := bind_ok hexec
      obtain rfl := popThread_fields hpop
      cases hpush
      exact ⟨(foldl_popAssigns _ _).symm, rfl, rfl⟩
  | popSleeper cond =>
      obtain ⟨⟨thread, k⟩, hpop, hpush⟩ := bind_ok hexec
      obtain rfl := popThread_fields hpop
      cases hpush
      exact ⟨(foldl_popAssigns _ _).symm, rfl, rfl⟩
  | enlist list task =>
      cases hexec
      exact ⟨(foldl_insertAssigns _ _ _).symm, rfl, rfl⟩
  | _ => exact absurd rfl hne

theorem step_splits (hrun : Event.run m .step = .ok m') (hne : m.splits ≠ []) :
    m'.k.heap = m.splits.foldl Assign.run m.k.heap ∧ m'.cur = m.cur ∧ m'.k.intr = true := by
  unfold Machine.splits at hne ⊢
  by_cases hintr : m.k.intr = true
  · rw [if_pos hintr] at hne ⊢
    cases hcode : m.code m.cur with
    | nil =>
        rw [hcode] at hne
        exact absurd rfl hne
    | cons i rest =>
        simp only [hcode] at hne ⊢
        simp only [Event.run, hcode] at hrun
        obtain ⟨hheap, hcur, hflag⟩ := exec_assigns hrun hne
        exact ⟨hheap, hcur, hflag.trans hintr⟩
  · rw [if_neg hintr] at hne
    exact absurd rfl hne

theorem settled_of_nil (h : s.todo s.m.cur = []) : s.settled = s.m := by
  rw [Split.settled, h]
  rfl

/-- Where the machine that executes operations whole is reached when the running thread has ended its own. -/
structure Settles (s : Split) : Prop where
  reached : Reached WindowSpared s.settled
  others : ∀ t, t ≠ s.m.cur → s.todo t = []
  leaves : s.todo s.m.cur ≠ [] → s.m.k.intr = false → ∃ rest, s.m.code s.m.cur = .iret true :: rest

theorem Reached.snoc {allowed : Machine → Event → Prop} {e : Event} (h : Reached allowed m) (henabled : e.Enabled m)
    (hallowed : allowed m e) (hrun : e.run m = .ok m') : Reached allowed m' := by
  obtain ⟨m₀, hboot, hsteps⟩ := h
  exact ⟨m₀, hboot, hsteps.tail ⟨e, henabled, hallowed, hrun⟩⟩

theorem Reached.step (h : Reached WindowSpared m) (hcode : m.code m.cur ≠ []) (hrun : Event.run m .step = .ok m') :
    Reached WindowSpared m' := h.snoc (e := .step) hcode (fun htick => by cases htick) hrun

theorem tick_lasts (hlasts : ¬m.SliceEnds) : Event.run m .tick = .ok m.interrupted := by
  have hhandler : intrTimerHandler { m.k with intr := false } = .ok (Kernel.ticked { m.k with intr := false }) :=
    if_neg hlasts
  change (intrTimerHandler { m.k with intr := false } >>= fun k => _) = _
  rw [hhandler]
  rfl

namespace Settles

theorem todo_nil (h : Settles s) (hcur : s.todo s.m.cur = []) (t : Tid) : s.todo t = [] := by
  by_cases ht : t = s.m.cur
  · rw [ht]
    exact hcur
  · exact h.others t ht

/-- An event outside of all list operations. -/
theorem whole {e : Event} (h : Settles s) (hcur : s.todo s.m.cur = []) (henabled : e.Enabled s.m)
    (hspared : WindowSpared s.m e) (hrun : e.run s.m = .ok m) : Settles { s with m := m } := by
  have hnil := h.todo_nil hcur
  have hreached := h.reached
  rw [settled_of_nil hcur] at hreached
  have hsettled : Split.settled { s with m := m } = m := settled_of_nil (hnil m.cur)
  refine ⟨?_, fun t _ => hnil t, fun hne => absurd (hnil _) hne⟩
  rw [hsettled]
  exact hreached.snoc henabled hspared hrun

/-- The running thread begins a list operation. -/
theorem begins (h : Settles s) (hcode : s.m.code s.m.cur ≠ []) (hcur : s.todo s.m.cur = [])
    (hrun : Event.run s.m .step = .ok m) (hne : s.m.splits ≠ []) :
    Settles { m := m.setHeap s.m.k.heap, todo := update s.todo s.m.cur s.m.splits } := by
  obtain ⟨hheap, hsame, hintr⟩ := step_splits hrun hne
  have hreached := h.reached
  rw [settled_of_nil hcur] at hreached
  have hsettled : Split.settled { m := m.setHeap s.m.k.heap, todo := update s.todo s.m.cur s.m.splits } = m := by
    change m.setHeap ((update s.todo s.m.cur s.m.splits m.cur).foldl Assign.run s.m.k.heap) = m
    rw [hsame, update_self, ← hheap]
    rfl
  refine ⟨?_, fun t ht => ?_, fun _ hoff => ?_⟩
  · rw [hsettled]
    exact hreached.step hcode hrun
  · change t ≠ m.cur at ht
    rw [hsame] at ht
    exact (update_of_ne ht _ _).trans (h.others t ht)
  · change m.k.intr = false at hoff
    rw [hintr] at hoff
    cases hoff

/-- The next assignment of the running thread. -/
theorem assign {a : Assign} {l : List Assign} (h : Settles s) (htodo : s.todo s.m.cur = a :: l)
    (hintr : s.m.k.intr = true) :
    Settles { m := s.m.setHeap (a.run s.m.k.heap), todo := update s.todo s.m.cur l } := by
  have hsettled : Split.settled { m := s.m.setHeap (a.run s.m.k.heap), todo := update s.todo s.m.cur l } =
      s.settled := by
    change s.m.setHeap ((update s.todo s.m.cur l s.m.cur).foldl Assign.run (a.run s.m.k.heap)) = _
    rw [update_self, Split.settled, htodo]
    rfl
  refine ⟨?_, fun t ht => ?_, fun _ hoff => ?_⟩
  · rw [hsettled]
    exact h.reached
  · exact (update_of_ne ht _ _).trans (h.others t ht)
  · change s.m.k.intr = false at hoff
    rw [hintr] at hoff
    cases hoff

/-- The handler of an interrupt in a list operation returns. -/
theorem returns (h : Settles s) (hne : s.todo s.m.cur ≠ []) (hoff : s.m.k.intr = false)
    (hrun : Event.run s.m .step = .ok m) : Settles { s with m := m } := by
  obtain ⟨rest, hcode⟩ := h.leaves hne hoff
  simp only [Event.run, hcode] at hrun
  cases hrun
  refine ⟨?_, h.others, fun _ hflag => by cases hflag⟩
  refine h.reached.step (m := s.settled) ?_ ?_
  · change s.m.code s.m.cur ≠ []
    rw [hcode]
    exact List.cons_ne_nil _ _
  · have hcode' : s.settled.code s.settled.cur = .iret true :: rest := hcode
    simp only [Event.run, hcode']
    rfl

/-- An interrupt in a list operation that does not end the slice. -/
theorem ticks (h : Settles s) (hintr : s.m.k.intr = true) (hlasts : ¬s.m.SliceEnds)
    (hrun : Event.run s.m .tick = .ok m) : Settles { s with m := m } := by
  rw [tick_lasts hlasts] at hrun
  cases hrun
  refine ⟨?_, h.others, fun _ _ => ⟨s.m.code s.m.cur, update_self _ _ _⟩⟩
  exact h.reached.snoc (e := .tick) hintr (fun _ hends => absurd hends hlasts) (tick_lasts (m := s.settled) hlasts)

/-- Every allowed event. -/
theorem event (h : Settles s) {e : SplitEvent} (henabled : e.Enabled s) (hspared : SplitSpared s e)
    (hrun : e.run s = .ok s') : Settles s' := by
  cases e with
  | assign =>
      obtain ⟨hne, hintr⟩ := henabled
      cases htodo : s.todo s.m.cur with
      | nil => exact absurd htodo hne
      | cons a l =>
          simp only [SplitEvent.run, htodo] at hrun
          cases hrun
          exact h.assign htodo hintr
  | event e =>
      cases e with
      | step =>
          obtain ⟨hcode, htodo⟩ := henabled
          obtain ⟨m, hstep, hrun⟩ := bind_ok hrun
          by_cases hcur : s.todo s.m.cur = []
          · cases hsplits : s.m.splits with
            | nil =>
                simp only [hsplits] at hrun
                cases hrun
                exact h.whole hcur hcode (fun htick => by cases htick) hstep
            | cons a l =>
                simp only [hsplits] at hrun
                cases hrun
                have hbegins := h.begins hcode hcur hstep (by rw [hsplits]; exact List.cons_ne_nil _ _)
                rw [hsplits] at hbegins
                exact hbegins
          · have hoff := htodo.resolve_left hcur
            have hsplits : s.m.splits = [] := by
              rw [Machine.splits, hoff]
              rfl
            simp only [hsplits] at hrun
            cases hrun
            exact h.returns hcur hoff hstep
      | tick =>
          obtain ⟨m, htick, hrun⟩ := bind_ok hrun
          cases hrun
          by_cases hcur : s.todo s.m.cur = []
          · exact h.whole (e := .tick) hcur henabled (fun _ hends => (hspared rfl hends).2) htick
          · exact h.ticks henabled (fun hends => hcur (hspared rfl hends).1) htick
      | _ =>
          obtain ⟨henabled, hcur⟩ := henabled
          obtain ⟨m, hevent, hrun⟩ := bind_ok hrun
          cases hrun
          exact h.whole hcur henabled (fun htick => by cases htick) hevent

end Settles

/-- In a run without the spared interrupts a thread is in a list operation only while it runs, and the machine is
reached by whole operations. -/
theorem SplitReached.settles (h : SplitReached SplitSpared s) : Settles s := by
  obtain ⟨m, hboot, hsteps⟩ := h
  induction hsteps with
  | refl => exact ⟨⟨m, hboot, .refl⟩, fun _ _ => rfl, fun hne => absurd rfl hne⟩
  | tail _ hlast ih =>
      obtain ⟨e, henabled, hspared, hrun⟩ := hlast
      exact ih.event henabled hspared hrun

/-- The state after a list of events, if each is enabled, passes the check and ends. -/
def playSplit (check : Split → SplitEvent → Bool) : List SplitEvent → Split → Option Split
  | [], s => some s
  | e :: es, s =>
      if e.Enabled s ∧ check s e then
        match e.run s with
        | .ok s' => playSplit check es s'
        | .error _ => none
      else none

theorem playSplit_steps {allowed : Split → SplitEvent → Prop} {check : Split → SplitEvent → Bool}
    (hcheck : ∀ s e, check s e = true → allowed s e) {es : List SplitEvent} (h : playSplit check es s = some s') :
    Relation.ReflTransGen (Split.Step allowed) s s' := by
  induction es generalizing s with
  | nil =>
      cases h
      exact .refl
  | cons e es ih =>
      rw [playSplit] at h
      split at h
      case isTrue henabled =>
        split at h
        case h_1 s₁ hrun =>
          exact .head ⟨e, henabled.1, hcheck s e henabled.2, hrun⟩ (ih h)
        case h_2 => cases h
      case isFalse => cases h

end HoloOS
