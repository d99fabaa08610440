import HoloOS.SyncTagSafety

/-! A thread that calls `spinlockAcquire` with interrupts off finds the lock free in every run in
which no timer interrupt ends the slice of a thread inside a spin lock section: then no section is
left by a switch, so that only the running thread can be inside one, and it enters no second one. A
slice that ends inside a section of `threadStart` stops the machine. -/

namespace HoloOS

open Function

/-- No timer interrupt ends a slice while a spin lock is occupied. -/
def SectionSpared (m : Machine) (e : Event) : Prop :=
  e = .tick → m.SliceEnds → ∀ s, m.k.occupied s = false

/-- With nobody but the running thread inside a section. -/
structure SpinInv (m : Machine) (μ : Tid → Mode) (q : ListId → List Tid) : Prop extends
    SyncInv m μ q where
  inside : ∀ t s, (μ t).spin = some s → t = m.cur

variable {m m' : Machine} {μ μ' : Tid → Mode} {q q' : ListId → List Tid}

/-- In the window of `lockAcquire` the lock on the waiters is held. -/
theorem Typed.spin_of_inWindow {M : Mode} {code : List Instr} (h : Typed M code)
    (hw : InWindow code) : ∃ lock, M.spin = some (.waiters lock) := by
  cases code with
  | nil => exact hw.elim
  | cons i rest =>
      have hpre := h.1
      cases i with
      | ifCas lock => exact ⟨lock, congrArg Mode.spin hpre⟩
      | removeSelf lock => exact ⟨lock, congrArg Mode.spin hpre⟩
      | intrDisable part =>
          cases part with
          | lockAcquire lock => exact ⟨lock, congrArg Mode.spin hpre⟩
          | _ => exact hw.elim
      | _ => exact hw.elim

theorem SyncInv.windowSpared (h : SyncInv m μ q) {e : Event} (hspared : SectionSpared m e) :
    WindowSpared m e := by
  intro he hends hw
  obtain ⟨lock, hspin⟩ := (h.typed m.cur).spin_of_inWindow hw
  have hocc := (h.spins.occupied_iff _).2 ⟨m.cur, hspin⟩
  rw [hspared he hends] at hocc
  cases hocc

/-- The running thread outside of every section: every spin lock is free. -/
theorem SpinInv.free (h : SpinInv m μ q) (hspin : (μ m.cur).spin = none) (s : Spin) :
    m.k.occupied s = false := by
  rw [Bool.eq_false_iff]
  intro hocc
  obtain ⟨t, ht⟩ := (h.spins.occupied_iff s).1 hocc
  rw [h.inside t s ht, hspin] at ht
  cases ht

/-- After a switch with every lock free nobody is in a section. -/
theorem SyncInv.spinInv_of_free (h : SyncInv m μ q) (hfree : ∀ s, m.k.occupied s = false) :
    SpinInv m μ q := by
  refine ⟨h, fun t s ht => ?_⟩
  have hocc := (h.spins.occupied_iff s).2 ⟨t, ht⟩
  rw [hfree] at hocc
  cases hocc

/-- A thread whose code is the same is in the same section. -/
theorem SyncInv.spin_eq (h : SyncInv m μ q) (h' : SyncInv m' μ' q') {t : Tid}
    (hcode : m'.code t = m.code t) : (μ' t).spin = (μ t).spin := by
  have ht := h.typed t
  have ht' := h'.typed t
  rw [hcode] at ht'
  exact (ht'.alike ht).field Mode.spin fun _ => rfl

theorem SyncInv.spin_of_new (h : SyncInv m μ q) {t : Tid} (hcode : m.code t = [.intrEnable]) :
    (μ t).spin = none := by
  have ht := h.typed t
  rw [hcode] at ht
  exact congrArg Mode.spin ht.1

/-- Without a switch the other threads stay outside of every section. -/
theorem SpinInv.stay (h : SpinInv m μ q) (h' : SyncInv m' μ' q') (hcur : m'.cur = m.cur)
    (hcode : ∀ t, t ≠ m.cur → m'.code t = m.code t ∨ m'.code t = [.intrEnable]) :
    SpinInv m' μ' q' := by
  refine ⟨h', fun t s ht => ?_⟩
  rw [hcur]
  by_contra hne
  rcases hcode t hne with hc | hc
  · rw [h.toSyncInv.spin_eq h' hc] at ht
    exact hne (h.inside t s ht)
  · rw [h'.spin_of_new hc] at ht
    cases ht

/-- A statement spins for ever on an occupied lock only, in one of three places. -/
theorem exec_spin {i : Instr} {s : Spin} (h : exec m i = .error (.spin s)) :
    m.k.occupied s = true ∧
      (i = .spinlockAcquire s ∨ (∃ site, i = .schedule site) ∨ ∃ t, i = .unblock t) := by
  have hpop : ∀ x, popThread x m.k ≠ .error (.spin s) := by
    intro x he
    rcases bind_error he with hentry | ⟨thread, -, he⟩
    · exact elem2entry_ne_spin hentry
    · cases he
  have hassert : ∀ (u : Except Halt Unit), u ≠ .error (.spin s) →
      (do u; return m) ≠ (.error (.spin s) : Except Halt Machine) := by
    intro u hu he
    rcases bind_error he with hcond | ⟨_, -, he⟩
    · exact hu hcond
    · cases he
  cases i with
  | ret f => cases f <;> cases h
  | whileCas lock => rw [exec] at h; split at h <;> cases h
  | ifCas lock => rw [exec] at h; split at h <;> cases h
  | spinlockAcquire lock =>
      rw [exec] at h
      split at h
      case isTrue hocc =>
        split at h
        · cases h
        · cases h
          exact ⟨hocc, Or.inl rfl⟩
      case isFalse => cases h
  | schedule site =>
      rcases bind_error h with hsched | ⟨k, -, h⟩
      · exact ⟨schedule_spin hsched, Or.inr (Or.inl ⟨site, rfl⟩)⟩
      · cases h
  | unblock t =>
      rcases bind_error h with hunblock | ⟨k, -, h⟩
      · exact ⟨threadUnblock_spin hunblock, Or.inr (Or.inr ⟨t, rfl⟩)⟩
      · cases h
  | assertHolder lock => exact absurd h (hassert _ kassert_ne_spin)
  | assertBlock status => exact absurd h (hassert _ kassert_ne_spin)
  | assertNew list task => exact absurd h (hassert _ assertNotExist_ne_spin)
  | ifWaiters lock => rw [exec] at h; split at h <;> cases h
  | popWaiter lock =>
      rcases bind_error h with he | ⟨_, -, h⟩
      · exact absurd he (hpop _)
      · cases h
  | ifBlocked thread => rw [exec] at h; split at h <;> cases h
  | ifSleepers cond => rw [exec] at h; split at h <;> cases h
  | popSleeper cond =>
      rcases bind_error h with he | ⟨_, -, h⟩
      · exact absurd he (hpop _)
      · cases h
  | whileZero sem => rw [exec] at h; split at h <;> cases h
  | _ => cases h

/-- The three places are outside of every section. -/
theorem Instr.Pre.spin_none {i : Instr} {M : Mode} (h : i.Pre M) {s : Spin}
    (hi : i = .spinlockAcquire s ∨ (∃ site, i = .schedule site) ∨ ∃ t, i = .unblock t) :
    M.spin = none := by
  rcases hi with rfl | ⟨site, rfl⟩ | ⟨t, rfl⟩
  · exact h.1
  · cases site with
    | wait list => exact congrArg Mode.spin h.2
    | block status => exact congrArg Mode.spin h
  · exact h.2.1

theorem SpinInv.exec_ne_spin (h : SpinInv m μ q) {i : Instr} {rest : List Instr}
    (hcode : m.code m.cur = i :: rest) {s : Spin} :
    exec (m.setCode m.cur rest) i ≠ .error (.spin s) := by
  intro he
  obtain ⟨hocc, hi⟩ := exec_spin he
  have hfree := h.free ((h.toSyncInv.typed_cur hcode).1.spin_none hi) s
  exact absurd (hocc.symm.trans hfree) (by simp)

theorem SpinInv.exec (h : SpinInv m μ q) {i : Instr} {rest : List Instr}
    (hcode : m.code m.cur = i :: rest) (hexec : HoloOS.exec (m.setCode m.cur rest) i = .ok m') :
    ∃ μ' q', SpinInv m' μ' q' := by
  obtain ⟨μ', q', h', -⟩ := h.toSyncInv.exec hcode hexec
  refine ⟨μ', q', ?_⟩
  by_cases hi : ∃ site, i = .schedule site
  · obtain ⟨site, rfl⟩ := hi
    have hspin := (h.toSyncInv.typed_cur hcode).1.spin_none (Or.inr (Or.inl ⟨site, rfl⟩)) (s := .pid)
    obtain ⟨k', hsched, hm'⟩ := bind_ok hexec
    cases hm'
    refine h'.spinInv_of_free fun s => ?_
    exact (congrFun (schedule_switched hsched).occupied s).trans (h.free hspin s)
  · refine h.stay h' (exec_cur (m := m.setCode m.cur rest) hexec fun site he => hi ⟨site, he⟩) fun t ht => ?_
    rcases exec_code (m := m.setCode m.cur rest) hexec ht with hc | ⟨-, hc⟩
    · exact Or.inl (hc.trans (update_of_ne ht _ _))
    · exact Or.inr hc

/-- An allowed event spins on nothing. -/
theorem SpinInv.ne_spin (h : SpinInv m μ q) {e : Event} (hspared : SectionSpared m e) (s : Spin) :
    e.run m ≠ .error (.spin s) := by
  intro he
  cases e with
  | step =>
      cases hcode : m.code m.cur with
      | nil => simp [Event.run, hcode] at he
      | cons i rest =>
          simp only [Event.run, hcode] at he
          exact h.exec_ne_spin hcode he
  | tick =>
      rcases bind_error he with hhandler | ⟨k, -, he⟩
      · rw [intrTimerHandler_eq] at hhandler
        split at hhandler
        case isTrue hends =>
          exact absurd ((schedule_spin hhandler).symm.trans (hspared rfl hends s)) (by simp)
        case isFalse => cases hhandler
      · cases he
  | call f => cases he
  | int80 lock => cases he
  | setIntr status => cases he
  | promote t => cases he

theorem SpinInv.event (h : SpinInv m μ q) {e : Event} (henabled : e.Enabled m)
    (hspared : SectionSpared m e) (hrun : e.run m = .ok m') : ∃ μ' q', SpinInv m' μ' q' := by
  cases e with
  | step =>
      cases hcode : m.code m.cur with
      | nil => exact absurd hcode henabled
      | cons i rest =>
          simp only [Event.run, hcode] at hrun
          exact h.exec hcode hrun
  | tick =>
      obtain ⟨μ', q', h', -⟩ := h.toSyncInv.event henabled (h.toSyncInv.windowSpared hspared) hrun
      refine ⟨μ', q', ?_⟩
      obtain ⟨k', hhandler, hm'⟩ := bind_ok hrun
      cases hm'
      rw [intrTimerHandler_eq] at hhandler
      split at hhandler
      case isTrue hends =>
        refine h'.spinInv_of_free fun s => ?_
        exact (congrFun (schedule_switched hhandler).occupied s).trans (hspared rfl hends s)
      case isFalse =>
        cases hhandler
        exact h.stay h' rfl fun t ht => Or.inl (update_of_ne ht _ _)
  | call f =>
      obtain ⟨μ', q', h', -⟩ := h.toSyncInv.event henabled (h.toSyncInv.windowSpared hspared) hrun
      cases hrun
      exact ⟨μ', q', h.stay h' (Machine.enter_cur _ f) fun t ht =>
        Or.inl (Machine.enter_code_of_ne _ f ht)⟩
  | int80 lock =>
      obtain ⟨μ', q', h', -⟩ := h.toSyncInv.event henabled (h.toSyncInv.windowSpared hspared) hrun
      cases hrun
      refine ⟨μ', q', h.stay h' (Machine.enter_cur _ _) fun t ht => Or.inl ?_⟩
      refine (Machine.enter_code_of_ne _ _ ?_).trans (Machine.push_code_of_ne _ _ ?_)
      · exact ht
      · exact ht
  | setIntr status =>
      obtain ⟨μ', q', h', -⟩ := h.toSyncInv.event henabled (h.toSyncInv.windowSpared hspared) hrun
      cases hrun
      exact ⟨μ', q', h.stay h' rfl fun t _ => Or.inl rfl⟩
  | promote t =>
      obtain ⟨μ', q', h', -⟩ := h.toSyncInv.event henabled (h.toSyncInv.windowSpared hspared) hrun
      cases hrun
      exact ⟨μ', q', h.stay h' rfl fun t _ => Or.inl rfl⟩

theorem reached_spinInv (h : Reached SectionSpared m) : ∃ μ q, SpinInv m μ q := by
  refine h.induct (P := fun m => ∃ μ q, SpinInv m μ q) ?_ ?_
  · intro m hboot
    obtain ⟨q, hinv⟩ := booted_inv hboot
    exact ⟨_, q, hinv, fun t s ht => by cases ht⟩
  · rintro m e m' ⟨μ, q, hinv⟩ henabled hspared hrun
    exact hinv.event henabled hspared hrun

/-- With the sections spared nobody spins with interrupts off. -/
theorem no_spin_of_spared (h : Reached SectionSpared m) {e : Event} (hspared : SectionSpared m e)
    (s : Spin) : e.run m ≠ .error (.spin s) := by
  obtain ⟨μ, q, hinv⟩ := reached_spinInv h
  exact hinv.ne_spin hspared s

/-- The second thread creates a third one and is inside the section that links it. -/
def insideReadyList : List Event :=
  secondRuns [] ++ .call (.threadStart 3 1) :: List.replicate 7 .step

/-- The third thread can be linked: the section is reached and spins on nothing. -/
theorem no_spin_of_spared_run : ∃ m, play untimed insideReadyList (bootMachine 1 bootKernel) = some m ∧
    m.k.occupied .readyList = true ∧ ∀ s, Event.step.run m ≠ .error (.spin s) := by
  have hend : (play untimed insideReadyList (bootMachine 1 bootKernel)).map (fun m =>
      m.k.occupied .readyList) = some true := by
    decide +kernel
  obtain ⟨m, hm, hocc⟩ := Option.map_eq_some_iff.1 hend
  have hspared : ∀ m e, untimed m e = true → SectionSpared m e :=
    fun m e hcheck htick => absurd htick (of_decide_eq_true hcheck)
  refine ⟨m, hm, hocc, fun s => ?_⟩
  exact no_spin_of_spared ⟨_, booted_bootMachine 1 bootKernel, play_steps hspared hm⟩
    (fun he => by cases he) s

/-- When the slice of the second thread ends there, `schedule` waits for the thread it preempts. -/
theorem no_spin_broken : ¬∀ m, Reached anyEvent m → ∀ e : Event, e.Enabled m → ∀ s,
    e.run m ≠ .error (.spin s) := by
  intro hall
  have hend : (play untimed insideReadyList (bootMachine 1 bootKernel)).map (fun m =>
      (decide (Event.tick.Enabled m), Event.tick.halt m)) = some (true, some (.spin .readyList)) := by
    decide +kernel
  obtain ⟨m, hm, hspin⟩ := Option.map_eq_some_iff.1 hend
  have hreached := play_steps (fun _ _ _ => (trivial : anyEvent _ _)) hm
  exact hall m ⟨_, booted_bootMachine _ _, hreached⟩ .tick
    (of_decide_eq_true (congrArg Prod.fst hspin)) .readyList
    (Event.halt_eq.1 (congrArg Prod.snd hspin))

end HoloOS
