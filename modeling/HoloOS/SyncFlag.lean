import HoloOS.SyncTagSafety

/-! The interrupt flag is one bit of the CPU, `switchTo` does not save it, and every function that
turns it off keeps its own copy of the old value. Beside the machine runs a record of the calls each
thread is in, with the flag at each call. The code of a thread fits its record: at the `ret` of a
call the flag will have the recorded value, whatever ran in between, since a thread leaves the CPU
and gets it back with interrupts off. -/

namespace HoloOS

open Function

/-- The machine, and for each thread the calls it is in, each with the flag it was made with. -/
structure Traced where
  m : Machine
  calls : Tid → List (Fn × Bool)

/-- What a statement executed with the flag `flag` does to the record of its thread. -/
def Instr.record (flag : Bool) : Instr → List (Fn × Bool) → List (Fn × Bool)
  | .call f, calls => (f, flag) :: calls
  | .ret _, calls => calls.tail
  | _, calls => calls

/-- The gate of `int 0x80` has turned interrupts off before its handler is called. -/
def Event.record (m : Machine) : Event → List (Fn × Bool) → List (Fn × Bool)
  | .step, calls => ((m.code m.cur).head?.map (Instr.record m.k.intr)).getD id calls
  | .call f, calls => (f, m.k.intr) :: calls
  | .int80 lock, calls => (.underLock lock, false) :: calls
  | _, calls => calls

def Traced.Step (s s' : Traced) : Prop :=
  ∃ e : Event, e.Enabled s.m ∧ e.run s.m = .ok s'.m ∧
    s'.calls = update s.calls s.m.cur (e.record s.m (s.calls s.m.cur))

/-- Any run from boot, in which no thread is in a call yet. -/
def Traced.Reached (s : Traced) : Prop :=
  ∃ s₀ : Traced, Booted s₀.m ∧ Relation.ReflTransGen Traced.Step s₀ s

/-- With the flag `flag` when the first statement is executed, every call of the record returns with
the flag it was made with, and `schedule` is entered with interrupts off. A statement that turns
interrupts off is followed by the one that restores them, so both count as leaving the flag alone. -/
def FlagsFit : List Instr → List (Fn × Bool) → Bool → Prop
  | [], _, _ => True
  | .ret f :: code, calls, flag => calls.head? = some (f, flag) ∧ FlagsFit code calls.tail flag
  | .schedule _ :: code, calls, flag => flag = false ∧ FlagsFit code calls false
  | .intrSetStatus status :: code, calls, _ => FlagsFit code calls status
  | .iret status :: code, calls, _ => FlagsFit code calls status
  | .intrEnable :: code, calls, _ => FlagsFit code calls true
  | _ :: code, calls, flag => FlagsFit code calls flag

/-- The running thread fits with the present flag, every other one with interrupts off. -/
structure FlagInv (m : Machine) (calls : Tid → List (Fn × Bool)) : Prop where
  cur : FlagsFit (m.code m.cur) (calls m.cur) m.k.intr
  others : ∀ t, t ≠ m.cur → FlagsFit (m.code t) (calls t) false

variable {m m' : Machine} {calls : Tid → List (Fn × Bool)}

/-- A call of `schedule`. -/
def Instr.isSchedule : Instr → Bool
  | .schedule _ => true
  | _ => false

/-- The body of a call leaves the flag as it found it. -/
theorem flagsFit_body (f : Fn) (code : List Instr) (st : List (Fn × Bool)) (flag : Bool) :
    FlagsFit (f.body ++ [.ret f] ++ code) ((f, flag) :: st) flag ↔ FlagsFit code st flag := by
  have hret : FlagsFit (.ret f :: code) ((f, flag) :: st) flag ↔ FlagsFit code st flag := by
    simp [FlagsFit]
  cases f <;> exact hret

/-- What follows an `intrDisable` brings the old flag back. -/
theorem flagsFit_offPart (part : OffPart) (code : List Instr) (st : List (Fn × Bool)) (old : Bool) :
    FlagsFit (part.code old ++ code) st false ↔ FlagsFit code st old := by
  have hback : (false = false ∧ FlagsFit code st old) ↔ FlagsFit code st old := by simp
  cases part with
  | processExecute task => exact Iff.rfl
  | _ => exact hback

theorem enter_code_cur (m : Machine) (f : Fn) :
    (m.enter f).code m.cur = f.body ++ [.ret f] ++ m.code m.cur := by
  cases f <;> exact update_self _ _ _

/-- A statement other than `schedule` makes the code fit the new record and the new flag. -/
theorem exec_flagsFit {i : Instr} {st : List (Fn × Bool)} (hi : ∀ site, i ≠ .schedule site)
    (h : exec m i = .ok m') (hfit : FlagsFit (i :: m.code m.cur) st m.k.intr) :
    FlagsFit (m'.code m.cur) (i.record m.k.intr st) m'.k.intr := by
  have hpush : ∀ (n : Machine) {code calls flag}, n.cur = m.cur → n.code = m.code →
      FlagsFit (code ++ m.code m.cur) calls flag →
      FlagsFit ((n.push code).code m.cur) calls flag := by
    intro n code calls flag hn hcode hfit
    have hnew : (n.push code).code m.cur = code ++ m.code m.cur := by
      rw [← hn, ← hcode]
      exact update_self _ _ _
    rw [hnew]
    exact hfit
  cases i with
  | call f =>
      cases h
      rw [enter_code_cur, enter_k]
      exact (flagsFit_body f _ st _).2 hfit
  | ret f =>
      obtain ⟨-, hrest⟩ := hfit
      cases f <;> (cases h; exact hrest)
  | whileCas lock =>
      rw [exec] at h
      split at h <;> cases h
      · exact hfit
      · exact hpush _ rfl rfl hfit
  | ifCas lock =>
      rw [exec] at h
      split at h <;> cases h
      · exact hpush _ rfl rfl hfit
      · exact hpush _ rfl rfl hfit
  | spinlockAcquire lock =>
      rw [exec] at h
      split at h
      · split at h <;> cases h
        exact hpush _ rfl rfl hfit
      · cases h
        exact hfit
  | intrDisable part =>
      cases h
      exact hpush _ rfl rfl ((flagsFit_offPart part _ st _).2 hfit)
  | schedule site => exact absurd rfl (hi site)
  | assertHolder lock =>
      obtain ⟨_, -, h⟩ := bind_ok h
      cases h
      exact hfit
  | ifWaiters lock =>
      rw [exec] at h
      split at h <;> (cases h; exact hpush m rfl rfl hfit)
  | popWaiter lock =>
      obtain ⟨⟨thread, k⟩, hpop, h⟩ := bind_ok h
      obtain rfl := popThread_fields hpop
      cases h
      exact hpush _ rfl rfl hfit
  | ifBlocked thread =>
      rw [exec] at h
      split at h <;> cases h
      · exact hpush _ rfl rfl hfit
      · exact hfit
  | unblock thread =>
      obtain ⟨k, hunblock, h⟩ := bind_ok h
      obtain ⟨-, -, rfl⟩ := threadUnblock_ok hunblock
      cases h
      exact hfit
  | ifSleepers cond =>
      rw [exec] at h
      split at h <;> cases h
      · exact hfit
      · exact hpush _ rfl rfl hfit
  | popSleeper cond =>
      obtain ⟨⟨thread, k⟩, hpop, h⟩ := bind_ok h
      obtain rfl := popThread_fields hpop
      cases h
      exact hpush _ rfl rfl hfit
  | whileZero sem =>
      rw [exec] at h
      split at h <;> cases h
      · exact hpush _ rfl rfl hfit
      · exact hfit
  | assertBlock status =>
      obtain ⟨_, -, h⟩ := bind_ok h
      cases h
      exact hfit
  | assertNew list task =>
      obtain ⟨_, -, h⟩ := bind_ok h
      cases h
      exact hfit
  | threadCreate task =>
      cases h
      by_cases htask : m.cur = task
      · -- the thread would overwrite its own code; what is left fits any record
        rw [← htask]
        change FlagsFit (update m.code m.cur [.intrEnable] m.cur) st m.k.intr
        rw [update_self]
        trivial
      · change FlagsFit (update m.code task [.intrEnable] m.cur) st m.k.intr
        rw [update_of_ne htask]
        exact hfit
  | _ =>
      cases h
      exact hfit

/-- A switch is made with interrupts off on both sides. -/
theorem FlagInv.switch (h : FlagInv m calls) (hoff : m.k.intr = false) {k' : Kernel}
    (hoff' : k'.intr = false) : FlagInv { m with k := k' } calls := by
  have hall : ∀ t, FlagsFit (m.code t) (calls t) false := by
    intro t
    by_cases ht : t = m.cur
    · rw [ht, ← hoff]
      exact h.cur
    · exact h.others t ht
  refine ⟨?_, fun t _ => hall t⟩
  rw [hoff']
  exact hall _

theorem FlagInv.step (h : FlagInv m calls) {i : Instr} {rest : List Instr}
    (hcode : m.code m.cur = i :: rest) (hrun : exec (m.setCode m.cur rest) i = .ok m') :
    FlagInv m' (update calls m.cur (i.record m.k.intr (calls m.cur))) := by
  have hcur := h.cur
  rw [hcode] at hcur
  have hrest : (m.setCode m.cur rest).code m.cur = rest := update_self _ _ _
  by_cases hsched : ∃ site, i = .schedule site
  · obtain ⟨site, rfl⟩ := hsched
    obtain ⟨hoff, hfit⟩ := hcur
    obtain ⟨k', hschedule, hm'⟩ := bind_ok hrun
    cases hm'
    have hsame : update calls m.cur (Instr.record m.k.intr (.schedule site) (calls m.cur)) = calls :=
      update_eq_self _ _
    rw [hsame]
    suffices hset : FlagInv (m.setCode m.cur rest) calls from
      hset.switch hoff (schedule_switched hschedule).intr
    refine ⟨?_, fun t ht => ?_⟩
    · change FlagsFit ((m.setCode m.cur rest).code m.cur) (calls m.cur) m.k.intr
      rw [hrest, hoff]
      exact hfit
    · rw [show (m.setCode m.cur rest).code t = m.code t from update_of_ne ht _ _]
      exact h.others t ht
  · have hi : ∀ site, i ≠ .schedule site := fun site he => hsched ⟨site, he⟩
    have hcur' : m'.cur = m.cur := exec_cur (m := m.setCode m.cur rest) hrun hi
    refine ⟨?_, fun t ht => ?_⟩
    · rw [hcur', update_self]
      apply exec_flagsFit hi hrun
      rw [show (m.setCode m.cur rest).code (m.setCode m.cur rest).cur = rest from hrest]
      exact hcur
    · rw [hcur'] at ht
      rw [update_of_ne ht]
      rcases exec_code hrun (t := t) ht with hsame | ⟨-, hnew⟩
      · rw [hsame, show (m.setCode m.cur rest).code t = m.code t from update_of_ne ht _ _]
        exact h.others t ht
      · rw [hnew]
        trivial

theorem FlagInv.tick (h : FlagInv m calls) (hintr : m.k.intr = true)
    (hrun : Event.run m .tick = .ok m') : FlagInv m' calls := by
  have hstart : FlagInv m.interrupted calls := by
    refine ⟨?_, fun t ht => ?_⟩
    · rw [interrupted_code]
      change FlagsFit (update m.code m.cur (.iret true :: m.code m.cur) m.cur) (calls m.cur) false
      rw [update_self]
      have hcur := h.cur
      rw [hintr] at hcur
      exact hcur
    · have ht' : t ≠ m.cur := ht
      rw [interrupted_code, update_of_ne ht']
      exact h.others t ht
  obtain ⟨k', hhandler, hm'⟩ := bind_ok hrun
  cases hm'
  rw [intrTimerHandler_eq] at hhandler
  split at hhandler
  case isTrue => exact hstart.switch rfl (schedule_switched hhandler).intr
  case isFalse =>
    cases hhandler
    exact hstart

/-- A thread outside of any call starts one. -/
theorem FlagInv.enter (h : FlagInv m calls) {f : Fn} {flag : Bool} {above : List Instr} {n : Machine}
    (hcur : n.cur = m.cur) (hcode : n.code = update m.code m.cur above) (hintr : n.k.intr = flag)
    (hfit : FlagsFit above (calls m.cur) flag) :
    FlagInv (n.enter f) (update calls m.cur ((f, flag) :: calls m.cur)) := by
  have hcur' : (n.enter f).cur = m.cur := (n.enter_cur f).trans hcur
  have habove : n.code n.cur = above := by
    rw [hcode, hcur, update_self]
  refine ⟨?_, fun t ht => ?_⟩
  · have hnew : (n.enter f).code m.cur = f.body ++ [.ret f] ++ above := by
      rw [← habove, ← hcur, enter_code_cur]
    rw [hcur', update_self, hnew, enter_k, hintr]
    exact (flagsFit_body f _ _ _).2 hfit
  · rw [hcur'] at ht
    rw [update_of_ne ht, n.enter_code_of_ne f (hcur ▸ ht), hcode, update_of_ne ht]
    exact h.others t ht

theorem FlagInv.event (h : FlagInv m calls) {e : Event} (henabled : e.Enabled m)
    (hrun : e.run m = .ok m') : FlagInv m' (update calls m.cur (e.record m (calls m.cur))) := by
  have hquiet : update calls m.cur (calls m.cur) = calls := update_eq_self _ _
  cases e with
  | step =>
      cases hcode : m.code m.cur with
      | nil => exact absurd hcode henabled
      | cons i rest =>
          simp only [Event.run, hcode] at hrun
          simpa [Event.record, hcode] using h.step hcode hrun
  | tick =>
      change FlagInv _ (update calls m.cur (calls m.cur))
      rw [hquiet]
      exact h.tick henabled hrun
  | call f =>
      cases hrun
      refine h.enter rfl (update_eq_self _ _).symm rfl ?_
      rw [henabled.1]
      trivial
  | int80 lock =>
      cases hrun
      refine h.enter (n := ({ m with k := { m.k with intr := false } }).push [.iret m.k.intr]) rfl rfl
        rfl ?_
      change FlagsFit ([.iret m.k.intr] ++ m.code m.cur) _ _
      rw [show m.code m.cur = [] from henabled]
      trivial
  | setIntr status =>
      cases hrun
      change FlagInv _ (update calls m.cur (calls m.cur))
      rw [hquiet]
      refine ⟨?_, h.others⟩
      change FlagsFit (m.code m.cur) _ _
      rw [show m.code m.cur = [] from henabled]
      trivial
  | promote t =>
      cases hrun
      change FlagInv _ (update calls m.cur (calls m.cur))
      rw [hquiet]
      exact ⟨h.cur, h.others⟩

theorem Traced.Reached.inv {s : Traced} (h : s.Reached) : FlagInv s.m s.calls := by
  obtain ⟨s₀, ⟨main, k, -, -, hcode, -⟩, hrun⟩ := h
  induction hrun with
  | refl =>
      refine ⟨?_, fun t _ => ?_⟩
      · rw [hcode]
        trivial
      · rw [hcode]
        trivial
  | tail _ hstep ih =>
      obtain ⟨e, henabled, hrun, hcalls⟩ := hstep
      rw [hcalls]
      exact ih.event henabled hrun

/-- The states of the traced runs are those of all runs. -/
theorem reached_iff_traced : Reached anyEvent m ↔ ∃ calls, Traced.Reached ⟨m, calls⟩ := by
  constructor
  · rintro ⟨m₀, hboot, hrun⟩
    induction hrun with
    | refl => exact ⟨fun _ => [], ⟨m₀, fun _ => []⟩, hboot, .refl⟩
    | tail _ hstep ih =>
        obtain ⟨calls, s₀, hboot₀, hrun₀⟩ := ih
        obtain ⟨e, henabled, -, he⟩ := hstep
        exact ⟨_, s₀, hboot₀, .tail hrun₀ ⟨e, henabled, he, rfl⟩⟩
  · rintro ⟨calls, s₀, hboot, hrun⟩
    refine ⟨s₀.m, hboot, ?_⟩
    refine hrun.lift Traced.m ?_
    rintro a b ⟨e, henabled, he, -⟩
    exact ⟨e, henabled, trivial, he⟩

instance (m : Machine) : Decidable m.SliceEnds := inferInstanceAs (Decidable (_ = 0))

/-- The kernel state in which an event enters `schedule`, if it does. -/
def Event.entersSchedule (m : Machine) : Event → Option Kernel
  | .step => if (m.code m.cur).head?.any Instr.isSchedule then some m.k else none
  | .tick => if m.SliceEnds then some m.interrupted.k else none
  | _ => none

/-- Every call returns with the flag it was made with, and so does `threadUnblock`, one statement
here; `schedule` is entered with interrupts off. -/
theorem flag_restored {s : Traced} (h : s.Reached) :
    (∀ f rest, s.m.code s.m.cur = .ret f :: rest →
      (s.calls s.m.cur).head? = some (f, s.m.k.intr)) ∧
    (∀ thread rest m', s.m.code s.m.cur = .unblock thread :: rest → Event.step.run s.m = .ok m' →
      m'.k.intr = s.m.k.intr) ∧
    (∀ e k, e.Enabled s.m → Event.entersSchedule s.m e = some k → k.intr = false) := by
  have hinv := h.inv
  refine ⟨?_, ?_, ?_⟩
  · intro f rest hcode
    have hcur := hinv.cur
    rw [hcode] at hcur
    exact hcur.1
  · intro thread rest m' hcode hrun
    simp only [Event.run, hcode] at hrun
    obtain ⟨k, hunblock, hm'⟩ := bind_ok hrun
    obtain ⟨-, -, rfl⟩ := threadUnblock_ok hunblock
    cases hm'
    rfl
  · intro e k henabled henters
    cases e with
    | step =>
        cases hcode : s.m.code s.m.cur with
        | nil => exact absurd hcode henabled
        | cons i rest =>
            have hcur := hinv.cur
            rw [hcode] at hcur
            simp only [Event.entersSchedule, hcode] at henters
            cases i with
            | schedule site =>
                cases henters
                exact hcur.1
            | _ => cases henters
    | tick =>
        rw [Event.entersSchedule] at henters
        split at henters
        · cases henters
          rfl
        · cases henters
    | _ => cases henters

/-- The state after a list of events, if each is enabled and ends. -/
def Traced.after : List Event → Traced → Option Traced
  | [], s => some s
  | e :: es, s =>
      if e.Enabled s.m then
        match e.run s.m with
        | .ok m' => after es ⟨m', update s.calls s.m.cur (e.record s.m (s.calls s.m.cur))⟩
        | .error _ => none
      else none

theorem Traced.after_steps {es : List Event} {s s' : Traced} (h : s.after es = some s') :
    Relation.ReflTransGen Traced.Step s s' := by
  induction es generalizing s with
  | nil =>
      cases h
      exact .refl
  | cons e es ih =>
      rw [Traced.after] at h
      split at h
      case isTrue henabled =>
        split at h
        case h_1 m₁ hrun => exact .head ⟨e, henabled, hrun, rfl⟩ (ih h)
        case h_2 => cases h
      case isFalse => cases h

/-- While the main thread sleeps in `semaphoreDown`, called with interrupts off, the second thread
calls `semaphoreUp` and `threadBlock` with interrupts on; the main thread comes to the end of its
`conditionWait`. -/
def upWhileDown : List Event :=
  secondRuns [] ++ .call (.semaphoreUp 0) :: List.replicate 17 .step ++
    .call (.threadBlock .blocked) :: List.replicate 8 .step

/-- The main thread has its own flag again. -/
theorem flag_restored_run : ∃ s : Traced,
    (Traced.mk (bootMachine 1 bootKernel) fun _ => []).after upWhileDown = some s ∧ s.m.cur = 1 ∧
    s.m.k.intr = false ∧
    (s.calls 1).head? = some (.conditionWait (.sem 0) (.sem 0), s.m.k.intr) := by
  have hend : ((Traced.mk (bootMachine 1 bootKernel) fun _ => []).after upWhileDown).map (fun s =>
      (s.m.cur, s.m.k.intr, (s.m.code s.m.cur).head?)) =
      some (1, false, some (.ret (.conditionWait (.sem 0) (.sem 0)))) := by
    decide +kernel
  obtain ⟨s, hs, hfacts⟩ := Option.map_eq_some_iff.1 hend
  obtain ⟨hcur, hfacts⟩ := Prod.mk.inj hfacts
  obtain ⟨hintr, hhead⟩ := Prod.mk.inj hfacts
  obtain ⟨rest, hcode⟩ := List.head?_eq_some_iff.1 hhead
  have hreached : s.Reached := ⟨_, booted_bootMachine 1 bootKernel, Traced.after_steps hs⟩
  have hflag := (flag_restored hreached).1 _ rest hcode
  rw [hcur] at hflag
  exact ⟨s, hs, hcur, hintr, hflag⟩

end HoloOS
