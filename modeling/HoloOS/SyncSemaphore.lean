import HoloOS.BaseMonitor
import HoloOS.ThreadKernel

/-! The semaphore of `kernel/sync.c` as a monitor: its lock makes the critical sections of
`semaphoreDown` and `semaphoreUp` single steps, and `conditionSignal` only hints. -/

namespace HoloOS

open Monitor

inductive SemOp where
  | semaphoreDown
  | semaphoreUp
  deriving DecidableEq

/-- `struct semaphore` without its lock and its queue; `ups` and `downs` count the increments and
decrements done. -/
structure Semaphore where
  value : Int
  ups : Nat
  downs : Nat

/-- The value of a C `int` after an addition. -/
def int32 (value : Int) : Int := value.bmod (2 ^ 32)

def semaphoreInit (value : Int) : Semaphore := ⟨value, 0, 0⟩

/-- The `while` test of `semaphoreDown`. -/
def semWait : SemOp → Semaphore → Option Unit
  | .semaphoreDown, sem => if sem.value = 0 then some () else none
  | .semaphoreUp, _ => none

def semAct : SemOp → Semaphore → Semaphore
  | .semaphoreDown, sem => { sem with value := int32 (sem.value - 1), downs := sem.downs + 1 }
  | .semaphoreUp, sem => { sem with value := int32 (sem.value + 1), ups := sem.ups + 1 }

def semSignal : SemOp → Option Unit
  | .semaphoreDown => none
  | .semaphoreUp => some ()

def semaphore : Spec Semaphore SemOp Unit where
  wait := semWait
  act := semAct
  signal := semSignal
  one_cond := by
    intro op x y c d hc hd
    cases op with
    | semaphoreDown =>
        simp only [semWait] at hc hd
        split at hc <;> split at hd <;> simp_all
    | semaphoreUp => simp [semWait] at hc

/-- The counting law of a semaphore that started at `v`. -/
def SemLaw (v : Int) (sem : Semaphore) : Prop := sem.value = v + sem.ups - sem.downs ∧ 0 ≤ sem.value

theorem int32_of_range {value : Int} (hlo : -2 ^ 31 ≤ value) (hhi : value < 2 ^ 31) :
    int32 value = value := by
  unfold int32
  rw [Int.bmod_eq_of_le] <;> omega

theorem int32_le (value : Int) (hlo : 0 ≤ value) : int32 value ≤ value := by
  unfold int32
  rw [Int.bmod_def]
  have hmod : value % 2 ^ 32 ≤ value := by omega
  split <;> omega

/-- A step of an operation whose test has passed, below the bound on the increments. -/
theorem semAct_law {v : Int} {sem : Semaphore} {op : SemOp} (hlaw : SemLaw v sem)
    (hpass : semWait op sem = none) (hups : ((semAct op sem).ups : Int) < 2 ^ 31 - v) :
    SemLaw v (semAct op sem) ∧ (semAct op sem).value =
      match op with
      | .semaphoreDown => sem.value - 1
      | .semaphoreUp => sem.value + 1 := by
  obtain ⟨hvalue, hnonneg⟩ := hlaw
  cases op with
  | semaphoreDown =>
      have hne : sem.value ≠ 0 := by
        intro he
        simp [semWait, he] at hpass
      simp only [semAct] at hups ⊢
      have hint : int32 (sem.value - 1) = sem.value - 1 := int32_of_range (by omega) (by omega)
      refine ⟨⟨?_, ?_⟩, hint⟩
      · simp only [hint]
        push_cast
        omega
      · simp only [hint]
        omega
  | semaphoreUp =>
      simp only [semAct] at hups ⊢
      push_cast at hups
      have hint : int32 (sem.value + 1) = sem.value + 1 := int32_of_range (by omega) (by omega)
      refine ⟨⟨?_, ?_⟩, hint⟩
      · simp only [hint]
        push_cast
        omega
      · simp only [hint]
        omega

/-- The increments never decrease. -/
theorem ups_le_semAct (op : SemOp) (sem : Semaphore) : sem.ups ≤ (semAct op sem).ups := by
  cases op with
  | semaphoreDown => exact le_rfl
  | semaphoreUp => exact Nat.le_succ _

theorem ups_le_step {s s' : State Tid Semaphore SemOp Unit} (hstep : Step semaphore s s') :
    s.shared.ups ≤ s'.shared.ups := by
  rcases hstep.shared with he | ⟨op, -, he⟩
  · rw [he]
  · rw [he]
    exact ups_le_semAct op s.shared

/-- What holds of a semaphore as long as its value cannot overflow. -/
structure SemInv (v : Int) (s : State Tid Semaphore SemOp Unit) : Prop where
  law : SemLaw v s.shared
  covered : Covered (fun sem => sem.value.toNat) () s

theorem semInv_step {v : Int} {s s' : State Tid Semaphore SemOp Unit} (hwf : Wf semaphore s)
    (hstep : Step semaphore s s') (hups : (s'.shared.ups : Int) < 2 ^ 31 - v) (h : SemInv v s) :
    SemInv v s' := by
  have hmono : (s.shared.ups : Int) ≤ s'.shared.ups := by exact_mod_cast ups_le_step hstep
  obtain ⟨hvalue, hnonneg⟩ := h.law
  constructor
  · rcases hstep.shared with he | ⟨op, hpass, he⟩
    · rw [he]
      exact h.law
    · rw [he] at hups ⊢
      exact (semAct_law h.law hpass hups).1
  · refine covered_step hwf hstep ?_ ?_ ?_ h.covered
    · intro op hwait
      cases op with
      | semaphoreDown =>
          have hzero : s.shared.value = 0 := by simpa [semaphore, semWait] using hwait
          simp [hzero]
      | semaphoreUp => simp [semaphore, semWait] at hwait
    · intro op hpass
      cases op with
      | semaphoreDown =>
          have hdown := int32_le (s.shared.value - 1)
          have hne : s.shared.value ≠ 0 := by simpa [semaphore, semWait] using hpass
          simp only [semaphore, semAct, semSignal]
          have := hdown (by omega)
          omega
      | semaphoreUp =>
          have := int32_le (s.shared.value + 1) (by omega)
          simp only [semaphore, semAct, semSignal, if_true]
          omega
    · intro op shared hsleep hpass
      cases op with
      | semaphoreDown =>
          have hne : s.shared.value ≠ 0 := by simpa [semaphore, semWait] using hpass
          have := int32_le (s.shared.value - 1) (by omega)
          simp only [semaphore, semAct, semSignal]
          omega
      | semaphoreUp => simp [semaphore, semWait] at hsleep

theorem reachable_semInv {v : Int} (hv : 0 ≤ v) {s : State Tid Semaphore SemOp Unit}
    (h : Reachable semaphore (semaphoreInit v) s) (hups : (s.shared.ups : Int) < 2 ^ 31 - v) :
    SemInv v s := by
  induction h with
  | refl => exact ⟨⟨by simp [init, semaphoreInit], hv⟩, fun hne => absurd rfl hne⟩
  | tail hrun hstep ih =>
      have hmono := ups_le_step hstep
      exact semInv_step (Reachable.wf hrun) hstep hups (ih (by omega))

/-- The value counts the increments and decrements and is never negative, and as long as a thread
sleeps on the condition there are at least as many woken threads still to test as there are units. -/
theorem semaphore_units {v : Int} (hv : 0 ≤ v) {s : State Tid Semaphore SemOp Unit}
    (h : Reachable semaphore (semaphoreInit v) s) (hups : (s.shared.ups : Int) < 2 ^ 31 - v) :
    s.shared.value = v + s.shared.ups - s.shared.downs ∧ 0 ≤ s.shared.value ∧
    (s.woken ()).Finite ∧ (s.waiters () ≠ [] → s.shared.value ≤ (s.woken ()).ncard) := by
  have hinv := reachable_semInv hv h hups
  refine ⟨hinv.law.1, hinv.law.2, (Reachable.wf h).finite (), fun hne => ?_⟩
  have hcovered : s.shared.value.toNat ≤ (s.woken ()).ncard := hinv.covered hne
  omega

/-- Two threads sleep on an empty semaphore, and an increment wakes the first of them. -/
theorem semaphore_units_run : ∃ s : State Tid Semaphore SemOp Unit,
    Reachable semaphore (semaphoreInit 0) s ∧ s.waiters () = [2] ∧ s.shared.value = 1 ∧
    (s.waiters () ≠ [] → s.shared.value ≤ (s.woken ()).ncard) := by
  have hstart : Reachable semaphore (semaphoreInit 0) (init (semaphoreInit 0) : State Tid _ _ _) :=
    .refl
  have hreach := ((hstart.call_enter 1 .semaphoreDown rfl).call_enter 2 .semaphoreDown rfl).call_enter
    3 .semaphoreUp rfl
  exact ⟨_, hreach, rfl, rfl, (semaphore_units le_rfl hreach (by decide)).2.2.2⟩

end HoloOS
