import Mathlib.Data.Set.Card
import Mathlib.Logic.Relation

/-! Monitors whose conditions only hint: a signalled thread goes back to the lock and tests again,
and newcomers may pass it. A critical section is one step, from taking the lock to giving it up or
to falling asleep on a condition. For a condition with a number of units to hand out, `covered_step`
bounds the units by the threads on their way to test again, as long as some thread sleeps. -/

namespace Monitor

open Function

variable {T σ O C : Type*}

/-- The operations of a monitor: the test of the waiting loop with the condition waited on, the
change made to the shared state once the test passes, and the condition signalled afterwards. An
operation waits on one condition only. -/
structure Spec (σ O C : Type*) where
  wait : O → σ → Option C
  act : O → σ → σ
  signal : O → Option C
  one_cond : ∀ op x y c d, wait op x = some c → wait op y = some d → c = d

/-- Where a thread is in its current operation. -/
inductive Phase (O C : Type*) where
  | idle
  | entering (op : O)
  | waiting (op : O) (cond : C)
  | woken (op : O) (cond : C)
  deriving DecidableEq

structure State (T σ O C : Type*) where
  shared : σ
  waiters : C → List T
  phase : T → Phase O C

/-- The threads taken off a condition that have not tested again. -/
def State.woken (s : State T σ O C) (cond : C) : Set T := {t | ∃ op, s.phase t = .woken op cond}

/-- The thread is before the test of `op`, inside the call or woken from its condition. -/
def Phase.Tests (op : O) : Phase O C → Prop
  | .entering op' => op' = op
  | .woken op' _ => op' = op
  | _ => False

def init (shared : σ) : State T σ O C := ⟨shared, fun _ => [], fun _ => .idle⟩

@[simp] theorem mem_woken {s : State T σ O C} {cond : C} {t : T} :
    t ∈ s.woken cond ↔ ∃ op, s.phase t = .woken op cond := Iff.rfl

theorem Phase.Tests.cases {op : O} {phase : Phase O C} (h : phase.Tests op) :
    phase = .entering op ∨ ∃ cond, phase = .woken op cond := by
  cases phase with
  | entering op' => exact Or.inl (congrArg _ h)
  | woken op' cond => exact Or.inr ⟨cond, by rw [show op' = op from h]⟩
  | idle => exact h.elim
  | waiting op' cond => exact h.elim

theorem Phase.Tests.not_waiting {op : O} {phase : Phase O C} (h : phase.Tests op) (op' : O)
    (cond : C) : phase ≠ .waiting op' cond := by
  rintro rfl
  exact h.elim

/-- The queues hold the sleeping threads, and finitely many threads are on their way back. -/
structure Wf (m : Spec σ O C) (s : State T σ O C) : Prop where
  mem_waiters : ∀ cond t, t ∈ s.waiters cond ↔ ∃ op, s.phase t = .waiting op cond
  nodup : ∀ cond, (s.waiters cond).Nodup
  finite : ∀ cond, (s.woken cond).Finite
  waited : ∀ t op cond, s.phase t = .waiting op cond ∨ s.phase t = .woken op cond →
    ∃ shared, m.wait op shared = some cond

/-- As long as a thread sleeps on the condition, every unit has a woken thread. -/
def Covered (units : σ → ℕ) (cond : C) (s : State T σ O C) : Prop :=
  s.waiters cond ≠ [] → units s.shared ≤ (s.woken cond).ncard

theorem wf_init (m : Spec σ O C) (shared : σ) : Wf m (init shared : State T σ O C) where
  mem_waiters := by simp [init]
  nodup := by simp [init]
  finite := by simp [State.woken, init]
  waited := by simp [init]

/-- A woken thread tests the operation it sleeps in. -/
theorem Wf.waited_of_mem {m : Spec σ O C} {s : State T σ O C} {cond : C} (h : Wf m s) {t : T} {op : O}
    (htests : (s.phase t).Tests op)
    (hm : t ∈ s.woken cond) : ∃ shared, m.wait op shared = some cond := by
  obtain ⟨op', hop'⟩ := hm
  rw [hop'] at htests
  obtain rfl : op' = op := htests
  exact h.waited t op' cond (Or.inr hop')

variable [DecidableEq T]

def State.leave (s : State T σ O C) (t : T) (shared : σ) : State T σ O C :=
  { s with shared := shared, phase := update s.phase t .idle }

/-- A thread that was not woken from the condition leaves or falls asleep. -/
theorem woken_update {s : State T σ O C} {cond : C} {t : T} {phase : Phase O C} (hold : t ∉ s.woken cond)
    (hnew : ∀ op, phase ≠ .woken op cond) (shared : σ) (waiters : C → List T) :
    State.woken ⟨shared, waiters, update s.phase t phase⟩ cond = s.woken cond := by
  ext u
  by_cases hu : u = t
  · simp only [mem_woken, not_exists] at hold
    simp [hu, hold, hnew]
  · simp [hu]

theorem ncard_leave {m : Spec σ O C} {s : State T σ O C} (cond : C) (h : Wf m s) (t : T) (shared : σ) :
    (s.woken cond).ncard ≤ ((s.leave t shared).woken cond).ncard + 1 := by
  have hset : (s.leave t shared).woken cond = s.woken cond \ {t} := by
    ext u
    by_cases hu : u = t
    · simp [State.leave, hu]
    · simp [State.leave, hu]
  rw [hset]
  by_cases hm : t ∈ s.woken cond
  · exact (Set.ncard_sdiff_singleton_add_one hm (h.finite cond)).ge
  · rw [Set.sdiff_singleton_eq_self hm]
    omega

/-- A thread outside every queue moves to a phase outside every queue. -/
theorem Wf.move {m : Spec σ O C} {s : State T σ O C} (h : Wf m s) {t : T} {phase : Phase O C} (shared : σ)
    (hold : ∀ op cond, s.phase t ≠ .waiting op cond) (hnew : ∀ op cond, phase ≠ .waiting op cond)
    (hwoken : ∀ op cond, phase ≠ .woken op cond) :
    Wf m { s with shared := shared, phase := update s.phase t phase } := by
  refine ⟨?_, h.nodup, ?_, ?_⟩
  · intro cond u
    by_cases hu : u = t
    · subst hu
      simp [h.mem_waiters, hold, hnew]
    · simp only [update_of_ne hu]
      exact h.mem_waiters cond u
  · intro cond
    refine (h.finite cond).subset ?_
    rintro u ⟨op, hu⟩
    by_cases he : u = t
    · simp only [he, update_self] at hu
      exact absurd hu (hwoken op cond)
    · simp only [update_of_ne he] at hu
      exact ⟨op, hu⟩
  · intro u op cond hu
    by_cases he : u = t
    · simp only [he, update_self] at hu
      exact hu.elim (fun hu => absurd hu (hnew op cond)) (fun hu => absurd hu (hwoken op cond))
    · simp only [update_of_ne he] at hu
      exact h.waited u op cond hu

variable [DecidableEq C]

def Phase.wake (cond : C) : Phase O C → Phase O C
  | .waiting op _ => .woken op cond
  | phase => phase

/-- The first sleeper leaves the condition, if there is one. -/
def State.wake (s : State T σ O C) (cond : C) : State T σ O C :=
  match s.waiters cond with
  | [] => s
  | t :: rest =>
      { s with waiters := update s.waiters cond rest,
               phase := update s.phase t ((s.phase t).wake cond) }

def State.signal (s : State T σ O C) : Option C → State T σ O C
  | none => s
  | some cond => s.wake cond

def State.sleep (s : State T σ O C) (t : T) (op : O) (cond : C) : State T σ O C :=
  { s with waiters := update s.waiters cond (s.waiters cond ++ [t]),
           phase := update s.phase t (.waiting op cond) }

/-- The critical section of `op` run by `t`. -/
def Spec.enter (m : Spec σ O C) (s : State T σ O C) (t : T) (op : O) : State T σ O C :=
  match m.wait op s.shared with
  | some cond => s.sleep t op cond
  | none => (s.leave t (m.act op s.shared)).signal (m.signal op)

inductive Step (m : Spec σ O C) (s : State T σ O C) : State T σ O C → Prop where
  | call (t : T) (op : O) (hidle : s.phase t = .idle) :
      Step m s { s with phase := update s.phase t (.entering op) }
  | enter (t : T) (op : O) (htests : (s.phase t).Tests op) : Step m s (m.enter s t op)

def Reachable (m : Spec σ O C) (shared : σ) (s : State T σ O C) : Prop :=
  Relation.ReflTransGen (Step m) (init shared) s

@[simp] theorem wake_shared (s : State T σ O C) (cond : C) : (s.wake cond).shared = s.shared := by
  unfold State.wake
  split <;> rfl

@[simp] theorem signal_shared (s : State T σ O C) (cond : Option C) :
    (s.signal cond).shared = s.shared := by
  cases cond with
  | none => rfl
  | some cond => exact wake_shared s cond

variable {m : Spec σ O C} {s s' : State T σ O C}

theorem wake_cons {cond : C} {t : T} {rest : List T} (hw : s.waiters cond = t :: rest) :
    s.wake cond = { s with waiters := update s.waiters cond rest,
                           phase := update s.phase t ((s.phase t).wake cond) } := by
  unfold State.wake
  rw [hw]

theorem wake_nil {cond : C} (hw : s.waiters cond = []) : s.wake cond = s := by
  unfold State.wake
  rw [hw]

/-- Waking turns the first sleeper into a woken thread and changes nothing else. -/
theorem Wf.wake (h : Wf m s) (cond : C) : Wf m (s.wake cond) := by
  cases hw : s.waiters cond with
  | nil => rwa [wake_nil hw]
  | cons t rest =>
      obtain ⟨op, ht⟩ := (h.mem_waiters cond t).1 (by rw [hw]; exact List.mem_cons_self)
      have hnodup := h.nodup cond
      rw [hw, List.nodup_cons] at hnodup
      rw [wake_cons hw, ht]
      refine ⟨?_, ?_, ?_, ?_⟩
      · intro c u
        by_cases hu : u = t
        · subst hu
          by_cases hc : c = cond
          · subst hc
            simp [hnodup.1, Phase.wake]
          · have hnot : u ∉ s.waiters c := by
              intro hm
              obtain ⟨op', hop'⟩ := (h.mem_waiters c u).1 hm
              rw [ht] at hop'
              exact hc (Phase.waiting.inj hop').2.symm
            simp [hc, hnot, Phase.wake]
        · have hiff := h.mem_waiters c u
          by_cases hc : c = cond
          · subst hc
            rw [hw] at hiff
            simpa [hu] using hiff
          · simpa [hc, hu] using hiff
      · intro c
        by_cases hc : c = cond
        · subst hc
          simpa using hnodup.2
        · simpa [hc] using h.nodup c
      · intro c
        refine ((h.finite c).insert t).subset ?_
        rintro u ⟨op', hu⟩
        by_cases he : u = t
        · exact Or.inl he
        · simp only [update_of_ne he] at hu
          exact Or.inr ⟨op', hu⟩
      · intro u op' c hu
        by_cases he : u = t
        · subst he
          simp only [update_self] at hu
          obtain ⟨rfl, rfl⟩ : op = op' ∧ cond = c := by simpa [Phase.wake] using hu
          exact h.waited u op cond (Or.inl ht)
        · simp only [update_of_ne he] at hu
          exact h.waited u op' c hu

theorem Wf.signal (h : Wf m s) (cond : Option C) : Wf m (s.signal cond) := by
  cases cond with
  | none => exact h
  | some cond => exact h.wake cond

theorem Wf.sleep (h : Wf m s) {t : T} {op : O} {cond : C}
    (hold : ∀ op cond, s.phase t ≠ .waiting op cond) (hwait : m.wait op s.shared = some cond) :
    Wf m (s.sleep t op cond) := by
  have hnot : ∀ c, t ∉ s.waiters c := by
    intro c hm
    obtain ⟨op', hop'⟩ := (h.mem_waiters c t).1 hm
    exact hold op' c hop'
  refine ⟨?_, ?_, ?_, ?_⟩
  · intro c u
    by_cases hu : u = t
    · subst hu
      by_cases hc : c = cond
      · subst hc
        simp [State.sleep]
      · simp [State.sleep, hc, hnot, Ne.symm hc]
    · by_cases hc : c = cond
      · subst hc
        simp [State.sleep, hu, h.mem_waiters]
      · simp [State.sleep, hu, hc, h.mem_waiters]
  · intro c
    by_cases hc : c = cond
    · subst hc
      simpa [State.sleep, List.nodup_append] using ⟨h.nodup c, fun a ha he => hnot c (he ▸ ha)⟩
    · simpa [State.sleep, hc] using h.nodup c
  · intro c
    refine (h.finite c).subset ?_
    rintro u ⟨op', hu⟩
    by_cases he : u = t
    · simp [State.sleep, he] at hu
    · simp only [State.sleep, update_of_ne he] at hu
      exact ⟨op', hu⟩
  · intro u op' c hu
    by_cases he : u = t
    · subst he
      obtain ⟨rfl, rfl⟩ : op = op' ∧ cond = c := by simpa [State.sleep] using hu
      exact ⟨s.shared, hwait⟩
    · simp only [State.sleep, update_of_ne he] at hu
      exact h.waited u op' c hu

theorem Wf.enter (h : Wf m s) {t : T} {op : O} (htests : (s.phase t).Tests op) :
    Wf m (m.enter s t op) := by
  unfold Spec.enter
  cases hwait : m.wait op s.shared with
  | some cond => exact h.sleep htests.not_waiting hwait
  | none => exact (h.move _ htests.not_waiting (by simp) (by simp)).signal _

theorem Wf.step (h : Wf m s) (hstep : Step m s s') : Wf m s' := by
  cases hstep with
  | call t op hidle => exact h.move s.shared (by simp [hidle]) (by simp) (by simp)
  | enter t op htests => exact h.enter htests

theorem Reachable.wf {shared : σ} (h : Reachable m shared s) : Wf m s := by
  induction h with
  | refl => exact wf_init m shared
  | tail _ hstep ih => exact ih.step hstep

/-- A call that finds the lock free goes through its first critical section. -/
theorem Reachable.call_enter {shared : σ} (h : Reachable m shared s) (t : T) (op : O)
    (hidle : s.phase t = .idle) :
    Reachable m shared (m.enter { s with phase := update s.phase t (.entering op) } t op) :=
  .tail (.tail h (.call t op hidle)) (.enter t op (by simp [Phase.Tests]))

/-- A step leaves the shared state alone or acts on it after a passed test. -/
theorem Step.shared (hstep : Step m s s') :
    s'.shared = s.shared ∨
      ∃ op, m.wait op s.shared = none ∧ s'.shared = m.act op s.shared := by
  cases hstep with
  | call t op hidle => exact Or.inl rfl
  | enter t op htests =>
      unfold Spec.enter
      cases hwait : m.wait op s.shared with
      | some cond => exact Or.inl rfl
      | none => exact Or.inr ⟨op, hwait, by simp [State.leave]⟩

section Units

variable {units : σ → ℕ} {cond : C}

/-- Waking adds one to the woken threads, if a thread sleeps. -/
theorem ncard_wake (h : Wf m s) {t : T} {rest : List T} (hw : s.waiters cond = t :: rest) :
    ((s.wake cond).woken cond).ncard = (s.woken cond).ncard + 1 := by
  obtain ⟨op, ht⟩ := (h.mem_waiters cond t).1 (by rw [hw]; exact List.mem_cons_self)
  have hset : (s.wake cond).woken cond = insert t (s.woken cond) := by
    ext u
    rw [wake_cons hw, ht]
    by_cases hu : u = t
    · simp [hu, Phase.wake]
    · simp [hu]
  rw [hset, Set.ncard_insert_of_notMem (by simp [ht]) (h.finite cond)]

/-- A signal of another condition moves no thread of this one. -/
theorem woken_wake_of_ne (h : Wf m s) {other : C} (hne : other ≠ cond) :
    (s.wake other).waiters cond = s.waiters cond ∧ (s.wake other).woken cond = s.woken cond := by
  cases hw : s.waiters other with
  | nil => rw [wake_nil hw]; exact ⟨rfl, rfl⟩
  | cons t rest =>
      obtain ⟨op, ht⟩ := (h.mem_waiters other t).1 (by rw [hw]; exact List.mem_cons_self)
      rw [wake_cons hw]
      refine ⟨update_of_ne hne.symm _ _, ?_⟩
      ext u
      by_cases hu : u = t
      · simp [hu, ht, Phase.wake, hne]
      · simp [hu]

/-- The signal pays for one unit. -/
theorem Covered.signal (h : Wf m s) (cond' : Option C)
    (hcov : s.waiters cond ≠ [] →
      units s.shared ≤ (s.woken cond).ncard + if cond' = some cond then 1 else 0) :
    Covered units cond (s.signal cond') := by
  intro hne
  rw [signal_shared]
  cases cond' with
  | none => exact hcov hne
  | some other =>
      by_cases hc : other = cond
      · subst hc
        cases hw : s.waiters other with
        | nil =>
            simp only [State.signal, wake_nil hw] at hne
            exact absurd hw hne
        | cons t rest =>
            have := hcov (by simp [hw])
            simpa [State.signal, ncard_wake h hw] using this
      · obtain ⟨hwaiters, hwoken⟩ := woken_wake_of_ne h hc
        simp only [State.signal, hwaiters, hwoken] at hne ⊢
        simpa [hc] using hcov hne

/-- One step keeps the cover, if waiting finds no unit, an operation adds at most the unit it
signals, and an operation that waits on the condition takes a unit once its test passes. -/
theorem covered_step (h : Wf m s) (hstep : Step m s s')
    (hwait : ∀ op, m.wait op s.shared = some cond → units s.shared = 0)
    (hact : ∀ op, m.wait op s.shared = none →
      units (m.act op s.shared) ≤ units s.shared + if m.signal op = some cond then 1 else 0)
    (htake : ∀ op shared, m.wait op shared = some cond → m.wait op s.shared = none →
      units (m.act op s.shared) + 1 ≤ units s.shared + if m.signal op = some cond then 1 else 0)
    (hcov : Covered units cond s) : Covered units cond s' := by
  cases hstep with
  | call t op hidle =>
      intro hne
      rw [woken_update (by simp [hidle]) (by simp)]
      exact hcov hne
  | enter t op htests =>
      unfold Spec.enter
      cases htest : m.wait op s.shared with
      | some other =>
          intro hne
          by_cases hc : other = cond
          · subst hc
            simp [State.sleep, hwait op htest]
          · have hnot : t ∉ s.woken cond := by
              intro hm
              obtain ⟨shared, hs⟩ := h.waited_of_mem htests hm
              exact hc (m.one_cond op _ _ _ _ htest hs)
            simp only [State.sleep, update_of_ne (Ne.symm hc)] at hne ⊢
            rw [woken_update hnot (by simp)]
            exact hcov hne
      | none =>
          refine Covered.signal (h.move _ htests.not_waiting (by simp) (by simp)) _ ?_
          intro hne
          have hcov := hcov hne
          change units (m.act op s.shared) ≤ _
          by_cases hm : t ∈ s.woken cond
          · obtain ⟨shared, hs⟩ := h.waited_of_mem htests hm
            have htake := htake op shared hs htest
            have hleave := ncard_leave cond h t (m.act op s.shared)
            unfold State.leave at hleave
            omega
          · have hact := hact op htest
            rw [woken_update hm (by simp)]
            omega

end Units

end Monitor
