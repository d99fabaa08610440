import HoloOS.SyncPosition
import HoloOS.SyncSpin

/-! The lock protocol for threads that call with interrupts off. The holder is the thread that has
returned from `lockAcquire` and not yet called `lockRelease`; the waiters are the threads blocked in
`lockAcquire`; and a free lock with waiters has somebody who is going to try it: the lock is not
handed over, so that the thread that was woken may find it taken again, but then somebody else has
it and will release it. -/

namespace HoloOS

open Function

/-- Functions are called with interrupts off, or by `int 0x80`, which turns them off. -/
def CallsOff (m : Machine) (e : Event) : Prop := ∀ f, e = .call f → m.k.intr = false

/-- What holds of the running thread at a position. -/
def Position.Fact (m : Machine) (pos : Tid → Position) : Position → Prop
  | locking lock | linking lock | retrying lock | disabling lock | blocking lock | unlocking lock
  | sleeping lock => m.holder lock ≠ none
  | winning lock | clearing lock => m.holder lock = some m.cur ∧ m.owns m.cur lock = false
  | asserting lock => m.owns m.cur lock = false
  | popped lock thread | checking lock thread | waking lock thread =>
      pos thread = .resuming lock ∧ (m.k.task thread).status = .blocked
  | _ => True

def Active (m : Machine) (t : Tid) : Prop :=
  (m.k.task t).status = .ready ∨ (m.k.task t).status = .running

structure LockInv (m : Machine) (pos : Tid → Position) (w : LockId → List Tid) : Prop where
  at_pos : ∀ t, At (pos t) (m.code t)
  resting : ∀ t, t ≠ m.cur → pos t = .outside ∨ ∃ lock, pos t = .resuming lock
  calls_off : m.k.intr = true → m.code m.cur = []
  owned : ∀ t lock, m.owns t lock = true → m.holder lock = some t
  fact : (pos m.cur).Fact m pos
  waiting : ∀ lock t, t ≠ m.cur → (t ∈ w lock ↔
    pos t = .resuming lock ∧ (m.k.task t).status = .blocked ∧ (pos m.cur).thread ≠ some t)
  cur_waiting : ∀ lock, m.cur ∈ w lock ↔ (pos m.cur).linked = some lock
  wakeup : ∀ lock, m.holder lock = none → w lock ≠ [] →
    (pos m.cur).wakes = some lock ∨ ∃ t, (pos t).tries = some lock ∧ Active m t

variable {m m' : Machine} {pos : Tid → Position} {w w' : LockId → List Tid}

theorem LockInv.intr_off (h : LockInv m pos w) (hcode : m.code m.cur ≠ []) : m.k.intr = false := by
  rw [Bool.eq_false_iff]
  exact fun hintr => hcode (h.calls_off hintr)

/-- The facts about other threads stay when only the running one moves. -/
theorem Position.Fact.congr {p : Position} {pos' : Tid → Position} (h : p.Fact m pos)
    (hcur : m'.cur = m.cur) (hholder : m'.holder = m.holder) (howns : m'.owns = m.owns)
    (hthread : ∀ t, p.thread = some t → pos' t = pos t ∧
      (m'.k.task t).status = (m.k.task t).status) : p.Fact m' pos' := by
  cases p with
  | popped lock thread =>
      obtain ⟨hpos, hstatus⟩ := hthread thread rfl
      exact ⟨hpos.trans h.1, hstatus.trans h.2⟩
  | checking lock thread =>
      obtain ⟨hpos, hstatus⟩ := hthread thread rfl
      exact ⟨hpos.trans h.1, hstatus.trans h.2⟩
  | waking lock thread =>
      obtain ⟨hpos, hstatus⟩ := hthread thread rfl
      exact ⟨hpos.trans h.1, hstatus.trans h.2⟩
  | _ =>
      simp only [Position.Fact, hcur, hholder, howns] at h ⊢
      try exact h

/-- What a step that leaves the running thread running has to show. -/
theorem LockInv.move (h : LockInv m pos w) (p : Position) (hcur : m'.cur = m.cur)
    (hat : At p (m'.code m.cur))
    (hcode : ∀ t, t ≠ m.cur → m'.code t = m.code t ∨ m'.code t = [.intrEnable] ∧ pos t = .outside)
    (hintr : m'.k.intr = true → m'.code m.cur = [])
    (howned : ∀ t lock, m'.owns t lock = true → m'.holder lock = some t)
    (hfact : p.Fact m' (update pos m.cur p))
    (hwaiting : ∀ lock t, t ≠ m.cur → (t ∈ w' lock ↔
      pos t = .resuming lock ∧ (m'.k.task t).status = .blocked ∧ p.thread ≠ some t))
    (hlinked : ∀ lock, m.cur ∈ w' lock ↔ p.linked = some lock)
    (hwakeup : ∀ lock, m'.holder lock = none → w' lock ≠ [] → p.wakes = some lock ∨
      (p.tries = some lock ∧ Active m' m.cur) ∨
      ∃ t, t ≠ m.cur ∧ (pos t).tries = some lock ∧ Active m' t) :
    LockInv m' (update pos m.cur p) w' := by
  refine ⟨?_, ?_, ?_, howned, ?_, ?_, ?_, ?_⟩
  · intro t
    by_cases ht : t = m.cur
    · rw [ht, update_self]
      exact hat
    · rw [update_of_ne ht]
      rcases hcode t ht with hc | ⟨hc, hp⟩
      · rw [hc]
        exact h.at_pos t
      · rw [hc, hp]
        exact at_outside.2 ⟨trivial, fun _ => rfl, trivial⟩
  · intro t ht
    rw [hcur] at ht
    rw [update_of_ne ht]
    exact h.resting t ht
  · rw [hcur]
    exact hintr
  · rw [hcur, update_self]
    exact hfact
  · intro lock t ht
    rw [hcur] at ht
    rw [hcur, update_self, update_of_ne ht]
    exact hwaiting lock t ht
  · intro lock
    rw [hcur, update_self]
    exact hlinked lock
  · intro lock hholder hw
    rw [hcur, update_self]
    rcases hwakeup lock hholder hw with hp | ⟨hp, hactive⟩ | ⟨t, ht, hp, hactive⟩
    · exact Or.inl hp
    · exact Or.inr ⟨m.cur, by rw [update_self]; exact hp, hactive⟩
    · exact Or.inr ⟨t, by rw [update_of_ne ht]; exact hp, hactive⟩

/-- A step that changes no holder and no waiters. -/
theorem LockInv.advance (h : LockInv m pos w) (p : Position) (hcur : m'.cur = m.cur)
    (hat : At p (m'.code m.cur))
    (hcode : ∀ t, t ≠ m.cur → m'.code t = m.code t ∨ m'.code t = [.intrEnable] ∧ pos t = .outside)
    (hintr : m'.k.intr = true → m'.code m.cur = []) (hholder : m'.holder = m.holder)
    (howned : ∀ t lock, m'.owns t lock = true → m.owns t lock = true ∨ m.holder lock = some t)
    (hfact : p.Fact m' (update pos m.cur p)) (hthread : p.thread = (pos m.cur).thread)
    (hlinked : p.linked = (pos m.cur).linked)
    (hstatus : ∀ t, t ≠ m.cur → (m'.k.task t).status = (m.k.task t).status ∨
      (∀ lock, t ∉ w lock) ∧ Active m' t)
    (hwakes : ∀ lock, m.holder lock = none → w lock ≠ [] → (pos m.cur).wakes = some lock →
      p.wakes = some lock)
    (htries : ∀ lock, m.holder lock = none → (pos m.cur).tries = some lock →
      p.tries = some lock ∧ Active m' m.cur) : LockInv m' (update pos m.cur p) w := by
  refine h.move p hcur hat hcode hintr ?_ hfact ?_ (fun lock => hlinked ▸ h.cur_waiting lock) ?_
  · intro t lock ho
    rw [hholder]
    exact (howned t lock ho).elim (h.owned t lock) id
  · intro lock t ht
    rcases hstatus t ht with hs | ⟨hnot, hactive⟩
    · rw [hs, hthread]
      exact h.waiting lock t ht
    · refine iff_of_false (hnot lock) ?_
      rintro ⟨-, hblocked, -⟩
      rcases hactive with hs | hs
      · rw [hs] at hblocked
        cases hblocked
      · rw [hs] at hblocked
        cases hblocked
  · intro lock hfree hw
    rw [hholder] at hfree
    rcases h.wakeup lock hfree hw with hp | ⟨t, hp, hactive⟩
    · exact Or.inl (hwakes lock hfree hw hp)
    · by_cases ht : t = m.cur
      · subst ht
        exact Or.inr (Or.inl (htries lock hfree hp))
      · refine Or.inr (Or.inr ⟨t, ht, hp, ?_⟩)
        rcases hstatus t ht with hs | ⟨-, hnew⟩
        · rwa [Active, hs]
        · exact hnew

/-- A thread taken off the waiters is not the running one. -/
theorem LockInv.thread_ne (h : LockInv m pos w) {t : Tid} (ht : (pos m.cur).thread = some t) :
    t ≠ m.cur := by
  have hfact := h.fact
  rintro rfl
  cases hp : pos m.cur <;> simp_all [Position.Fact]

/-- A statement of the two functions that changes neither locks nor waiters nor the other threads. -/
theorem LockInv.quiet (h : LockInv m pos w) {p₀ : Position} (hp : pos m.cur = p₀) (p : Position)
    {code : List Instr} (hcode : m'.code = update m.code m.cur code) (hat : At p code)
    (hcur : m'.cur = m.cur) (hintr : m'.k.intr = false) (hholder : m'.holder = m.holder)
    (howns : m'.owns = m.owns)
    (hstatus : ∀ t, t ≠ m.cur → (m'.k.task t).status = (m.k.task t).status) (hfact : p.Fact m pos)
    (hthread : p.thread = p₀.thread) (hlinked : p.linked = p₀.linked)
    (hwakes : ∀ lock, w lock ≠ [] → p₀.wakes = some lock → p.wakes = some lock)
    (htries : ∀ lock, m.holder lock = none → p₀.tries = some lock →
      p.tries = some lock ∧ Active m' m.cur) : LockInv m' (update pos m.cur p) w := by
  subst hp
  refine h.advance p hcur ?_ ?_ ?_ hholder ?_ ?_ hthread hlinked ?_ (fun lock _ => hwakes lock) htries
  · rw [hcode, update_self]
    exact hat
  · intro t ht
    rw [hcode, update_of_ne ht]
    exact Or.inl rfl
  · intro he
    rw [hintr] at he
    cases he
  · rw [howns]
    exact fun t lock ho => Or.inl ho
  · refine hfact.congr hcur hholder howns fun t ht => ?_
    have hne := h.thread_ne (hthread.symm.trans ht)
    exact ⟨update_of_ne hne _ _, hstatus t hne⟩
  · exact fun t ht => Or.inl (hstatus t ht)

section Acquire

variable {μ : Tid → Mode} {q : ListId → List Tid} {lock : LockId} {far : List Instr}

/-- The waiters of every lock. -/
abbrev waitersOf (q : ListId → List Tid) : LockId → List Tid := fun lock => q (.waiters lock)

theorem setCode_push_code (m : Machine) (rest code : List Instr) :
    ((m.setCode m.cur rest).push code).code = update m.code m.cur (code ++ rest) := by
  simp [Machine.push, Machine.setCode, Machine.cur]

theorem LockInv.trying (h : LockInv m pos w) (hp : pos m.cur = .trying lock)
    (hcode : m.code m.cur = .whileCas lock :: .ret (.lockAcquire lock) :: far)
    (hfar : CallerCode far)
    (hexec : exec (m.setCode m.cur (.ret (.lockAcquire lock) :: far)) (.whileCas lock) = .ok m') :
    ∃ p, LockInv m' (update pos m.cur p) w := by
  have hintr := h.intr_off (by simp [hcode])
  cases hholder : m.holder lock with
  | none =>
      have hm' : m' = (m.setCode m.cur (.ret (.lockAcquire lock) :: far)).setHolder lock
          (some m.cur) := by
        simpa [exec, Machine.setCode, Machine.cur, hholder, eq_comm] using hexec
      have hfree : ∀ t, m.owns t lock = false := by
        intro t
        rw [Bool.eq_false_iff]
        intro ho
        have hown := h.owned t lock ho
        rw [hholder] at hown
        cases hown
      have hwin : m'.holder lock = some m.cur := by rw [hm']; exact update_self _ _ _
      have hother : ∀ lock', lock' ≠ lock → m'.holder lock' = m.holder lock' := by
        intro lock' hne
        rw [hm']
        exact update_of_ne hne _ _
      refine ⟨.winning lock, h.move _ ?_ ⟨far, ?_, hfar⟩ ?_ ?_ ?_ ?_ ?_ ?_ ?_⟩
      · rw [hm']
        rfl
      · rw [hm']
        exact update_self _ _ _
      · intro t ht
        rw [hm']
        exact Or.inl (update_of_ne ht _ _)
      · intro he
        rw [hm'] at he
        exact absurd (he.symm.trans hintr) (by simp)
      · intro t lock' ho
        have ho' : m.owns t lock' = true := by rwa [hm'] at ho
        have hne : lock' ≠ lock := by
          rintro rfl
          rw [hfree t] at ho'
          cases ho'
        rw [hother lock' hne]
        exact h.owned t lock' ho'
      · rw [hm'] at hwin ⊢
        exact ⟨hwin, hfree _⟩
      · intro lock' t ht
        have hw := h.waiting lock' t ht
        rw [hp] at hw
        rw [hm']
        exact hw
      · intro lock'
        have hw := h.cur_waiting lock'
        rw [hp] at hw
        exact hw
      · intro lock' hfree' hw
        have hne : lock' ≠ lock := by
          rintro rfl
          rw [hwin] at hfree'
          cases hfree'
        rw [hother lock' hne] at hfree'
        rcases h.wakeup lock' hfree' hw with hwake | ⟨t, htries, hactive⟩
        · rw [hp] at hwake
          cases hwake
        · refine Or.inr (Or.inr ⟨t, ?_, htries, ?_⟩)
          · rintro rfl
            rw [hp] at htries
            exact hne (Option.some.inj htries).symm
          · rw [hm']
            exact hactive
  | some u =>
      have hm' : m' = (m.setCode m.cur (.ret (.lockAcquire lock) :: far)).push
          [.spinlockAcquire (.waiters lock), .appendSelf (.waiters lock), .ifCas lock] := by
        simpa [exec, Machine.setCode, Machine.cur, hholder, eq_comm] using hexec
      subst hm'
      refine ⟨.locking lock, h.quiet hp _ (setCode_push_code _ _ _) ⟨far, rfl, hfar⟩ rfl hintr rfl
        rfl (fun _ _ => rfl) ?_ rfl rfl (by simp) ?_⟩
      · simp [Position.Fact, hholder]
      · intro lock' hfree htries
        obtain rfl : lock = lock' := by simpa using htries
        rw [hholder] at hfree
        cases hfree

/-- With interrupts off `spinlockAcquire` ends only when the lock is free. -/
theorem exec_spinlockAcquire {s : Spin} (hintr : m.k.intr = false)
    (hexec : exec m (.spinlockAcquire s) = .ok m') :
    m' = { m with k := { m.k with occupied := update m.k.occupied s true } } := by
  rw [exec] at hexec
  split at hexec
  · rw [if_neg (by simp [hintr])] at hexec
    cases hexec
  · cases hexec
    rfl

theorem LockInv.locking (h : LockInv m pos w) (hp : pos m.cur = .locking lock)
    (hcode : m.code m.cur = .spinlockAcquire (.waiters lock) :: ((Position.linking lock).code ++ far))
    (hfar : CallerCode far)
    (hexec : exec (m.setCode m.cur ((Position.linking lock).code ++ far))
      (.spinlockAcquire (.waiters lock)) = .ok m') : ∃ p, LockInv m' (update pos m.cur p) w := by
  have hintr := h.intr_off (by simp [hcode])
  have hfact := h.fact
  rw [hp] at hfact
  obtain rfl := exec_spinlockAcquire (m := m.setCode _ _) hintr hexec
  exact ⟨.linking lock, h.quiet hp _ rfl ⟨far, rfl, hfar⟩ rfl hintr rfl rfl (fun _ _ => rfl) hfact
    rfl rfl (by simp) (by simp)⟩

theorem LockInv.linking (h : LockInv m pos (waitersOf q)) (hp : pos m.cur = .linking lock)
    (hcode : m.code m.cur = .appendSelf (.waiters lock) :: ((Position.retrying lock).code ++ far))
    (hfar : CallerCode far)
    (hexec : exec (m.setCode m.cur ((Position.retrying lock).code ++ far))
      (.appendSelf (.waiters lock)) = .ok m') :
    ∃ p, LockInv m' (update pos m.cur p)
      (waitersOf (update q (.waiters lock) (q (.waiters lock) ++ [m.cur]))) := by
  have hintr := h.intr_off (by simp [hcode])
  have hholder : m.holder lock ≠ none := by
    have hfact := h.fact
    rwa [hp] at hfact
  have hself : waitersOf (update q (.waiters lock) (q (.waiters lock) ++ [m.cur])) lock =
      q (.waiters lock) ++ [m.cur] := update_self _ _ _
  have hother : ∀ lock', lock' ≠ lock →
      waitersOf (update q (.waiters lock) (q (.waiters lock) ++ [m.cur])) lock' =
        q (.waiters lock') := fun lock' hne => update_of_ne (by simpa using hne) _ _
  cases hexec
  refine ⟨.retrying lock, h.move _ rfl ⟨far, update_self _ _ _, hfar⟩
    (fun t ht => Or.inl (update_of_ne ht _ _)) ?_ h.owned hholder ?_ ?_ ?_⟩
  · intro he
    exact absurd (he.symm.trans hintr) (by simp)
  · intro lock' t ht
    have hw := h.waiting lock' t ht
    rw [hp] at hw
    by_cases hne : lock' = lock
    · subst hne
      rw [hself, List.mem_append, List.mem_singleton, or_iff_left ht]
      exact hw
    · rw [hother lock' hne]
      exact hw
  · intro lock'
    have hw := h.cur_waiting lock'
    rw [hp] at hw
    by_cases hne : lock' = lock
    · subst hne
      simp
    · rw [hother lock' hne, hw]
      simp [Ne.symm hne]
  · intro lock' hfree hw
    have hne : lock' ≠ lock := fun he => hholder (he ▸ hfree)
    rw [hother lock' hne] at hw
    rcases h.wakeup lock' hfree hw with hwake | ⟨t, htries, hactive⟩
    · rw [hp] at hwake
      cases hwake
    · refine Or.inr (Or.inr ⟨t, ?_, htries, hactive⟩)
      rintro rfl
      rw [hp] at htries
      cases htries

theorem LockInv.retrying (h : LockInv m pos w) (hp : pos m.cur = .retrying lock)
    (hcode : m.code m.cur = .ifCas lock :: .ret (.lockAcquire lock) :: far)
    (hfar : CallerCode far)
    (hexec : exec (m.setCode m.cur (.ret (.lockAcquire lock) :: far)) (.ifCas lock) = .ok m') :
    ∃ p, LockInv m' (update pos m.cur p) w := by
  have hintr := h.intr_off (by simp [hcode])
  have hfact := h.fact
  rw [hp] at hfact
  obtain ⟨u, hholder⟩ := Option.ne_none_iff_exists'.1 (show m.holder lock ≠ none from hfact)
  have hm' : m' = (m.setCode m.cur (.ret (.lockAcquire lock) :: far)).push
      [.intrDisable (.lockAcquire lock)] := by
    simpa [exec, Machine.setCode, Machine.cur, hholder, eq_comm] using hexec
  subst hm'
  exact ⟨.disabling lock, h.quiet hp _ (setCode_push_code _ _ _) ⟨far, rfl, hfar⟩ rfl hintr rfl rfl
    (fun _ _ => rfl) hfact rfl rfl (by simp) (by simp)⟩

theorem LockInv.disabling (h : LockInv m pos w) (hp : pos m.cur = .disabling lock)
    (hcode : m.code m.cur = .intrDisable (.lockAcquire lock) :: .ret (.lockAcquire lock) :: far)
    (hfar : CallerCode far)
    (hexec : exec (m.setCode m.cur (.ret (.lockAcquire lock) :: far))
      (.intrDisable (.lockAcquire lock)) = .ok m') : ∃ p, LockInv m' (update pos m.cur p) w := by
  have hintr := h.intr_off (by simp [hcode])
  have hfact := h.fact
  rw [hp] at hfact
  cases hexec
  refine ⟨.blocking lock, h.quiet hp _ (setCode_push_code _ _ _) ⟨far, ?_, hfar⟩ rfl rfl rfl rfl
    (fun _ _ => rfl) hfact rfl rfl (by simp) (by simp)⟩
  have hintr' : (m.setCode m.cur (.ret (.lockAcquire lock) :: far)).k.intr = false := hintr
  rw [hintr']
  rfl

theorem LockInv.blocking (h : LockInv m pos w) (hp : pos m.cur = .blocking lock)
    (hcode : m.code m.cur = .setStatus .blocked :: ((Position.unlocking lock).code ++ far))
    (hfar : CallerCode far)
    (hexec : exec (m.setCode m.cur ((Position.unlocking lock).code ++ far))
      (.setStatus .blocked) = .ok m') : ∃ p, LockInv m' (update pos m.cur p) w := by
  have hintr := h.intr_off (by simp [hcode])
  have hfact := h.fact
  rw [hp] at hfact
  cases hexec
  refine ⟨.unlocking lock, h.quiet hp _ rfl ⟨far, rfl, hfar⟩ rfl hintr rfl rfl ?_ hfact rfl rfl
    (by simp) (by simp)⟩
  intro t ht
  have ht' : t ≠ m.k.cur := ht
  simp [Kernel.setStatus, Kernel.setTask, Machine.setCode, Machine.cur, ht']

theorem LockInv.unlocking (h : LockInv m pos w) (hp : pos m.cur = .unlocking lock)
    (hcode : m.code m.cur = .spinlockRelease (.waiters lock) :: ((Position.sleeping lock).code ++ far))
    (hfar : CallerCode far)
    (hexec : exec (m.setCode m.cur ((Position.sleeping lock).code ++ far))
      (.spinlockRelease (.waiters lock)) = .ok m') : ∃ p, LockInv m' (update pos m.cur p) w := by
  have hintr := h.intr_off (by simp [hcode])
  have hfact := h.fact
  rw [hp] at hfact
  cases hexec
  exact ⟨.sleeping lock, h.quiet hp _ rfl ⟨far, rfl, hfar⟩ rfl hintr rfl rfl (fun _ _ => rfl) hfact
    rfl rfl (by simp) (by simp)⟩

/-- Awake again, the thread goes back to the compare-and-swap. -/
theorem LockInv.resuming (h : LockInv m pos w) (hp : pos m.cur = .resuming lock)
    (hrun : (m.k.task m.cur).status = .running) (hfar : CallerCode far)
    (hexec : exec (m.setCode m.cur ((Position.trying lock).code ++ far))
      (.intrSetStatus false) = .ok m') : ∃ p, LockInv m' (update pos m.cur p) w := by
  cases hexec
  exact ⟨.trying lock, h.quiet hp _ rfl ⟨far, rfl, hfar⟩ rfl rfl rfl rfl (fun _ _ => rfl) trivial
    rfl rfl (by simp) (fun lock' _ htries => ⟨htries, Or.inr hrun⟩)⟩

/-- The return from `lockAcquire`. -/
theorem LockInv.winning (h : LockInv m pos w) (hp : pos m.cur = .winning lock)
    (hcode : m.code m.cur = .ret (.lockAcquire lock) :: far) (hfar : CallerCode far)
    (hexec : exec (m.setCode m.cur far) (.ret (.lockAcquire lock)) = .ok m') :
    ∃ p, LockInv m' (update pos m.cur p) w := by
  have hintr := h.intr_off (by simp [hcode])
  have hfact := h.fact
  rw [hp] at hfact
  cases hexec
  refine ⟨.outside, h.advance _ rfl (at_outside.2 ?_) (fun t ht => Or.inl (update_of_ne ht _ _)) ?_
    rfl ?_ trivial (by rw [hp]; rfl) (by rw [hp]; rfl) (fun _ _ => Or.inl rfl) (by rw [hp]; simp)
    (by rw [hp]; simp)⟩
  · change CallerCode (update m.code m.cur far m.cur)
    rwa [update_self]
  · intro he
    exact absurd (he.symm.trans hintr) (by simp)
  · intro t lock' ho
    by_cases ht : t = m.cur
    · subst ht
      by_cases hne : lock' = lock
      · subst hne
        exact Or.inr hfact.1
      · refine Or.inl ?_
        simpa [Machine.setOwns, Machine.setCode, Machine.cur, hne] using ho
    · refine Or.inl ?_
      have ht' : t ≠ m.k.cur := ht
      simpa [Machine.setOwns, Machine.setCode, Machine.cur, ht'] using ho

end Acquire

section Release

variable {q : ListId → List Tid} {lock : LockId} {far : List Instr} {thread : Tid}

theorem LockInv.asserting (h : LockInv m pos w) (hp : pos m.cur = .asserting lock)
    (hcode : m.code m.cur = .assertHolder lock :: ((Position.clearing lock).code ++ far))
    (hfar : CallerCode far)
    (hexec : exec (m.setCode m.cur ((Position.clearing lock).code ++ far))
      (.assertHolder lock) = .ok m') : ∃ p, LockInv m' (update pos m.cur p) w := by
  have hintr := h.intr_off (by simp [hcode])
  have hfact := h.fact
  rw [hp] at hfact
  obtain ⟨_, hassert, hm'⟩ := bind_ok hexec
  have hholder : m.holder lock = some m.cur := of_decide_eq_true (kassert_ok hassert)
  cases hm'
  exact ⟨.clearing lock, h.quiet hp _ rfl ⟨far, rfl, hfar⟩ rfl hintr rfl rfl (fun _ _ => rfl)
    ⟨hholder, hfact⟩ rfl rfl (by simp) (by simp)⟩

theorem LockInv.clearing (h : LockInv m pos w) (hp : pos m.cur = .clearing lock)
    (hcode : m.code m.cur = .clearHolder lock :: ((Position.searching lock).code ++ far))
    (hfar : CallerCode far)
    (hexec : exec (m.setCode m.cur ((Position.searching lock).code ++ far))
      (.clearHolder lock) = .ok m') : ∃ p, LockInv m' (update pos m.cur p) w := by
  have hintr := h.intr_off (by simp [hcode])
  obtain ⟨hholder, howns⟩ : m.holder lock = some m.cur ∧ m.owns m.cur lock = false := by
    have hfact := h.fact
    rwa [hp] at hfact
  have hother : ∀ lock', lock' ≠ lock → update m.holder lock none lock' = m.holder lock' :=
    fun lock' hne => update_of_ne hne _ _
  cases hexec
  refine ⟨.searching lock, h.move _ rfl ⟨far, update_self _ _ _, hfar⟩
    (fun t ht => Or.inl (update_of_ne ht _ _)) ?_ ?_ trivial ?_ ?_ ?_⟩
  · intro he
    exact absurd (he.symm.trans hintr) (by simp)
  · intro t lock' ho
    have hown := h.owned t lock' ho
    have hne : lock' ≠ lock := by
      rintro rfl
      obtain rfl : m.cur = t := Option.some.inj (hholder.symm.trans hown)
      exact absurd (ho.symm.trans howns) (by simp)
    exact (hother lock' hne).trans hown
  · intro lock' t ht
    have hw := h.waiting lock' t ht
    rw [hp] at hw
    exact hw
  · intro lock'
    have hw := h.cur_waiting lock'
    rw [hp] at hw
    exact hw
  · intro lock' hfree hw
    by_cases hne : lock' = lock
    · exact Or.inl (congrArg some hne.symm)
    · rcases h.wakeup lock' ((hother lock' hne).symm.trans hfree) hw with hwake | ⟨t, htries, hactive⟩
      · rw [hp] at hwake
        cases hwake
      · refine Or.inr (Or.inr ⟨t, ?_, htries, hactive⟩)
        rintro rfl
        rw [hp] at htries
        cases htries

theorem LockInv.searching (h : LockInv m pos w) (hp : pos m.cur = .searching lock)
    (hcode : m.code m.cur = .spinlockAcquire (.waiters lock) :: ((Position.testing lock).code ++ far))
    (hfar : CallerCode far)
    (hexec : exec (m.setCode m.cur ((Position.testing lock).code ++ far))
      (.spinlockAcquire (.waiters lock)) = .ok m') : ∃ p, LockInv m' (update pos m.cur p) w := by
  have hintr := h.intr_off (by simp [hcode])
  obtain rfl := exec_spinlockAcquire (m := m.setCode _ _) hintr hexec
  exact ⟨.testing lock, h.quiet hp _ rfl ⟨far, rfl, hfar⟩ rfl hintr rfl rfl (fun _ _ => rfl) trivial
    rfl rfl (by simp) (by simp)⟩

theorem LockInv.testing (h : LockInv m pos (waitersOf q)) (hq : TagLists m.k.heap q)
    (hp : pos m.cur = .testing lock)
    (hcode : m.code m.cur = .ifWaiters lock :: .ret (.lockRelease lock) :: far)
    (hfar : CallerCode far)
    (hexec : exec (m.setCode m.cur (.ret (.lockRelease lock) :: far)) (.ifWaiters lock) = .ok m') :
    ∃ p, LockInv m' (update pos m.cur p) (waitersOf q) := by
  have hintr := h.intr_off (by simp [hcode])
  rw [exec] at hexec
  split at hexec
  case isTrue hempty =>
    have hnil : q (.waiters lock) = [] := hq.listEmpty_eq.1 hempty
    cases hexec
    refine ⟨.closing lock, h.quiet hp _ (setCode_push_code _ _ _) ⟨far, rfl, hfar⟩ rfl hintr rfl rfl
      (fun _ _ => rfl) trivial rfl rfl ?_ (by simp)⟩
    intro lock' hw hwakes
    obtain rfl : lock = lock' := by simpa using hwakes
    exact absurd hnil hw
  case isFalse =>
    cases hexec
    exact ⟨.popping lock, h.quiet hp _ (setCode_push_code _ _ _) ⟨far, rfl, hfar⟩ rfl hintr rfl rfl
      (fun _ _ => rfl) trivial rfl rfl (by simp) (by simp)⟩

theorem LockInv.closing (h : LockInv m pos w) (hp : pos m.cur = .closing lock)
    (hcode : m.code m.cur = .spinlockRelease (.waiters lock) :: .ret (.lockRelease lock) :: far)
    (hfar : CallerCode far)
    (hexec : exec (m.setCode m.cur (.ret (.lockRelease lock) :: far))
      (.spinlockRelease (.waiters lock)) = .ok m') : ∃ p, LockInv m' (update pos m.cur p) w := by
  have hintr := h.intr_off (by simp [hcode])
  cases hexec
  exact ⟨.leaving lock, h.quiet hp _ rfl ⟨far, rfl, hfar⟩ rfl hintr rfl rfl (fun _ _ => rfl) trivial
    rfl rfl (by simp) (by simp)⟩

/-- The first waiter is taken off the list: it is blocked in `lockAcquire`. -/
theorem LockInv.popping (h : LockInv m pos (waitersOf q)) (hp : pos m.cur = .popping lock)
    (hnodup : (q (.waiters lock)).Nodup)
    (hdisjoint : ∀ lock', thread ∈ q (.waiters lock') → lock' = lock) {right : List Tid}
    (hq : q (.waiters lock) = thread :: right) (hcode : m'.code = update m.code m.cur
      ([.spinlockRelease (.waiters lock), .ifBlocked thread] ++ .ret (.lockRelease lock) :: far))
    (hfar : CallerCode far) (hcur : m'.cur = m.cur) (hintr : m'.k.intr = false)
    (hholder : m'.holder = m.holder) (howns : m'.owns = m.owns)
    (hstatus : ∀ t, (m'.k.task t).status = (m.k.task t).status) :
    ∃ p, LockInv m' (update pos m.cur p) (waitersOf (update q (.waiters lock) right)) := by
  have hself : waitersOf (update q (.waiters lock) right) lock = right := update_self _ _ _
  have hother : ∀ lock', lock' ≠ lock →
      waitersOf (update q (.waiters lock) right) lock' = q (.waiters lock') :=
    fun lock' hne => update_of_ne (by simpa using hne) _ _
  have hmem : thread ∈ waitersOf q lock := by
    rw [show waitersOf q lock = _ from hq]
    exact List.mem_cons_self
  have hne : thread ≠ m.cur := by
    rintro rfl
    have hlinked := (h.cur_waiting lock).1 hmem
    rw [hp] at hlinked
    cases hlinked
  obtain ⟨hresuming, hblocked, -⟩ := (h.waiting lock thread hne).1 hmem
  have hnotMem : thread ∉ right := by
    rw [hq] at hnodup
    exact (List.nodup_cons.1 hnodup).1
  have hactive : ∀ t, Active m t → Active m' t := by
    intro t ht
    rwa [Active, hstatus]
  refine ⟨.popped lock thread, h.move _ hcur ⟨far, ?_, hfar⟩ ?_ ?_ ?_ ?_ ?_ ?_ ?_⟩
  · rw [hcode]
    exact update_self _ _ _
  · intro t ht
    rw [hcode]
    exact Or.inl (update_of_ne ht _ _)
  · intro he
    rw [hintr] at he
    cases he
  · rw [howns, hholder]
    exact h.owned
  · exact ⟨(update_of_ne hne _ _).trans hresuming, (hstatus thread).trans hblocked⟩
  · intro lock' t ht
    rw [hstatus]
    have hw := h.waiting lock' t ht
    rw [hp] at hw
    have hsplit : t ∈ waitersOf (update q (.waiters lock) right) lock' ↔
        t ∈ waitersOf q lock' ∧ thread ≠ t := by
      by_cases hl : lock' = lock
      · subst hl
        rw [hself, show waitersOf q lock' = _ from hq, List.mem_cons]
        constructor
        · rintro hr
          exact ⟨Or.inr hr, fun he => hnotMem (he ▸ hr)⟩
        · rintro ⟨rfl | hr, hn⟩
          · exact absurd rfl hn
          · exact hr
      · rw [hother lock' hl]
        refine ⟨fun hm => ⟨hm, ?_⟩, fun hm => hm.1⟩
        rintro rfl
        exact hl (hdisjoint lock' hm)
    rw [hsplit, hw]
    simp [and_assoc]
  · intro lock'
    have hw := h.cur_waiting lock'
    rw [hp] at hw
    by_cases hl : lock' = lock
    · subst hl
      rw [hself]
      rw [show waitersOf q lock' = _ from hq] at hw
      refine ⟨fun hm => ?_, fun hm => by cases hm⟩
      exact absurd (hw.1 (List.mem_cons_of_mem _ hm)) (by simp)
    · rw [hother lock' hl]
      exact hw
  · intro lock' hfree hw
    by_cases hl : lock' = lock
    · exact Or.inl (congrArg some hl.symm)
    · rw [hholder] at hfree
      rw [hother lock' hl] at hw
      rcases h.wakeup lock' hfree hw with hwake | ⟨t, htries, ht⟩
      · rw [hp] at hwake
        exact absurd (Option.some.inj hwake).symm hl
      · refine Or.inr (Or.inr ⟨t, ?_, htries, hactive t ht⟩)
        rintro rfl
        rw [hp] at htries
        cases htries

theorem LockInv.popped (h : LockInv m pos w) (hp : pos m.cur = .popped lock thread)
    (hcode : m.code m.cur =
      .spinlockRelease (.waiters lock) :: ((Position.checking lock thread).code ++ far))
    (hfar : CallerCode far)
    (hexec : exec (m.setCode m.cur ((Position.checking lock thread).code ++ far))
      (.spinlockRelease (.waiters lock)) = .ok m') : ∃ p, LockInv m' (update pos m.cur p) w := by
  have hintr := h.intr_off (by simp [hcode])
  have hfact := h.fact
  rw [hp] at hfact
  cases hexec
  exact ⟨.checking lock thread, h.quiet hp _ rfl ⟨far, rfl, hfar⟩ rfl hintr rfl rfl
    (fun _ _ => rfl) hfact rfl rfl (by simp) (by simp)⟩

theorem LockInv.checking (h : LockInv m pos w) (hp : pos m.cur = .checking lock thread)
    (hcode : m.code m.cur = .ifBlocked thread :: .ret (.lockRelease lock) :: far)
    (hfar : CallerCode far)
    (hexec : exec (m.setCode m.cur (.ret (.lockRelease lock) :: far)) (.ifBlocked thread) = .ok m') :
    ∃ p, LockInv m' (update pos m.cur p) w := by
  have hintr := h.intr_off (by simp [hcode])
  have hfact := h.fact
  rw [hp] at hfact
  have hblocked : ((m.setCode m.cur (.ret (.lockRelease lock) :: far)).k.task thread).status =
      .blocked := hfact.2
  rw [exec, if_pos hblocked] at hexec
  cases hexec
  exact ⟨.waking lock thread, h.quiet hp _ (setCode_push_code _ _ _) ⟨far, rfl, hfar⟩ rfl hintr rfl
    rfl (fun _ _ => rfl) hfact rfl rfl (by simp) (by simp)⟩

/-- The woken thread is ready and will try the lock. -/
theorem LockInv.waking (h : LockInv m pos w) (hp : pos m.cur = .waking lock thread)
    (hcode : m.code m.cur = .unblock thread :: .ret (.lockRelease lock) :: far)
    (hfar : CallerCode far)
    (hexec : exec (m.setCode m.cur (.ret (.lockRelease lock) :: far)) (.unblock thread) = .ok m') :
    ∃ p, LockInv m' (update pos m.cur p) w := by
  have hintr := h.intr_off (by simp [hcode])
  obtain ⟨hresuming, -⟩ : pos thread = .resuming lock ∧ (m.k.task thread).status = .blocked := by
    have hfact := h.fact
    rwa [hp] at hfact
  have hne : thread ≠ m.cur := h.thread_ne (by rw [hp]; rfl)
  obtain ⟨k', hunblock, hm'⟩ := bind_ok hexec
  obtain ⟨-, -, rfl⟩ := threadUnblock_ok hunblock
  cases hm'
  have hready : ((m.k.woken thread).task thread).status = .ready := by
    simp [Kernel.woken, Kernel.setStatus, Kernel.setTask]
  have hstatus : ∀ t, t ≠ thread → ((m.k.woken thread).task t).status = (m.k.task t).status := by
    intro t ht
    simp [Kernel.woken, Kernel.setStatus, Kernel.setTask, Kernel.push, ht]
  refine ⟨.leaving lock, h.move _ rfl ⟨far, update_self _ _ _, hfar⟩
    (fun t ht => Or.inl (update_of_ne ht _ _)) ?_ h.owned trivial ?_ ?_ ?_⟩
  · intro he
    exact absurd (he.symm.trans hintr) (by simp)
  · intro lock' t ht
    have hw := h.waiting lock' t ht
    rw [hp] at hw
    rw [hw]
    by_cases he : t = thread
    · subst he
      refine iff_of_false (by simp) ?_
      rintro ⟨-, hblocked, -⟩
      exact absurd (hready.symm.trans hblocked) (by simp)
    · have hs : ((m.k.woken thread).task t).status = .blocked ↔ (m.k.task t).status = .blocked := by
        rw [hstatus t he]
      have he' : thread ≠ t := Ne.symm he
      simp only [Position.thread, ne_eq, Option.some.injEq, he', not_false_eq_true, and_true,
        reduceCtorEq]
      exact and_congr_right fun _ => hs.symm
  · intro lock'
    have hw := h.cur_waiting lock'
    rw [hp] at hw
    exact hw
  · intro lock' hfree hw
    rcases h.wakeup lock' hfree hw with hwake | ⟨t, htries, hactive⟩
    · rw [hp] at hwake
      obtain rfl : lock = lock' := Option.some.inj hwake
      exact Or.inr (Or.inr ⟨thread, hne, by rw [hresuming]; rfl, Or.inl hready⟩)
    · refine Or.inr (Or.inr ⟨t, ?_, htries, ?_⟩)
      · rintro rfl
        rw [hp] at htries
        cases htries
      · by_cases he : t = thread
        · exact Or.inl (he ▸ hready)
        · have hs := hstatus t he
          rcases hactive with ha | ha
          · exact Or.inl (hs.trans ha)
          · exact Or.inr (hs.trans ha)

theorem LockInv.leaving (h : LockInv m pos w) (hp : pos m.cur = .leaving lock)
    (hcode : m.code m.cur = .ret (.lockRelease lock) :: far) (hfar : CallerCode far)
    (hexec : exec (m.setCode m.cur far) (.ret (.lockRelease lock)) = .ok m') :
    ∃ p, LockInv m' (update pos m.cur p) w := by
  have hintr := h.intr_off (by simp [hcode])
  cases hexec
  exact ⟨.outside, h.quiet hp _ rfl (at_outside.2 hfar) rfl hintr rfl rfl (fun _ _ => rfl) trivial
    rfl rfl (by simp) (by simp)⟩

end Release

section Callers

variable {μ : Tid → Mode} {q : ListId → List Tid} {i : Instr} {rest : List Instr}

/-- A thread in the making is in neither of the two functions. -/
theorem LockInv.outside_of_idle (h : LockInv m pos w) (hinv : SyncInv m μ q) {t : Tid}
    (ht : t ≠ m.cur) (hidle : (μ t).Idle) : pos t = .outside := by
  rcases h.resting t ht with hp | ⟨lock, hp⟩
  · exact hp
  · obtain ⟨far, hcode, -⟩ := h.at_pos t
    have htyped := hinv.typed t
    rw [hcode, hp] at htyped
    have hacq : (μ t).acq = some lock := congrArg Mode.acq htyped.2.1
    rw [show μ t = _ from hidle] at hacq
    cases hacq

/-- A statement of a caller other than a call or a switch. -/
theorem LockInv.caller (h : LockInv m pos (waitersOf q)) (hinv : SyncInv m μ q)
    (hp : pos m.cur = .outside) (hcode : m.code m.cur = i :: rest) (hcaller : CallerCode (i :: rest))
    (hcall : ∀ f, i ≠ .call f) (hsched : ∀ site, i ≠ .schedule site)
    (hexec : exec (m.setCode m.cur rest) i = .ok m') :
    LockInv m' (update pos m.cur .outside) (waitersOf q) := by
  obtain ⟨houter, hlast, hrest⟩ := hcaller
  have hintr := h.intr_off (by simp [hcode])
  have hpre := (hinv.typed_cur hcode).1
  have hcode' : (m.setCode m.cur rest).code (m.setCode m.cur rest).cur = rest := update_self _ _ _
  have hnew : ∀ task, i = .threadCreate task → task ≠ m.cur ∧ pos task = .outside := by
    rintro task rfl
    have hne := (hinv.held (congrArg Mode.carry hpre)).ne_cur
    exact ⟨hne, h.outside_of_idle hinv hne (hinv.unborn task
      (Or.inr ⟨m.cur, congrArg Mode.carry hpre, congrArg Mode.carryAll hpre⟩))⟩
  have hu := exec_undisturbed (m := m.setCode m.cur rest) hintr (by rwa [hcode']) houter (by rwa [hcode']) hcall hsched
    (fun task hi => (hnew task hi).1) hexec
  refine h.advance _ (exec_cur (m := m.setCode m.cur rest) hexec hsched) (at_outside.2 hu.code) ?_
    hu.intr hu.holder ?_ trivial (by rw [hp]) (by rw [hp]) ?_ (by rw [hp]; simp) (by rw [hp]; simp)
  · intro t ht
    rcases exec_code (m := m.setCode m.cur rest) hexec ht with hc | ⟨rfl, hc⟩
    · exact Or.inl (hc.trans (update_of_ne ht _ _))
    · exact Or.inr ⟨hc, (hnew t rfl).2⟩
  · intro t lock ho
    rw [hu.owns] at ho
    exact Or.inl ho
  · intro t ht
    rcases hu.status t ht with hs | ⟨hi, hactive⟩
    · exact Or.inl hs
    · refine Or.inr ⟨fun lock => ?_, hactive⟩
      have hcarry : (μ m.cur).carry = some t := by
        rcases hi with rfl | rfl
        · exact hpre.1
        · exact congrArg Mode.carry hpre
      exact (hinv.held hcarry).unlinked (.waiters lock) (by simp)

/-- Entering a call from code of a caller. -/
theorem LockInv.enter (h : LockInv m pos w) (hp : pos m.cur = .outside)
    (hrest : CallerCode (m.code m.cur)) (hintr : m.k.intr = false) (f : Fn) :
    ∃ p, LockInv (m.enter f) (update pos m.cur p) w := by
  have hcode : (m.enter f).code m.cur = f.body ++ .ret f :: m.code m.cur := by
    rw [enter_code, update_self]
  have hown : ∀ t lock, (m.enter f).owns t lock = true → m.owns t lock = true := by
    intro t lock ho
    cases f with
    | lockRelease lock' =>
        by_cases ht : t = m.k.cur
        · subst ht
          by_cases hl : lock = lock'
          · subst hl
            simp [Machine.enter, Machine.setOwns, Machine.push, Machine.setCode, Machine.cur] at ho
          · simpa [Machine.enter, Machine.setOwns, Machine.push, Machine.setCode, Machine.cur, hl]
              using ho
        · simpa [Machine.enter, Machine.setOwns, Machine.push, Machine.setCode, Machine.cur, ht]
            using ho
    | _ => exact ho
  have hmain : ∀ p : Position, At p (f.body ++ .ret f :: m.code m.cur) → p.Fact (m.enter f) pos →
      p.thread = none → p.linked = none → LockInv (m.enter f) (update pos m.cur p) w := by
    intro p hat hfact hthread hlinked
    refine h.advance p (m.enter_cur f) (hcode ▸ hat)
      (fun t ht => Or.inl (m.enter_code_of_ne f ht)) ?_ ?_ (fun t lock ho => Or.inl (hown t lock ho))
      (hfact.congr rfl rfl rfl fun t ht => by rw [hthread] at ht; cases ht) (by rw [hthread, hp]; rfl)
      (by rw [hlinked, hp]; rfl) ?_ (by rw [hp]; simp) (by rw [hp]; simp)
    · intro he
      rw [enter_k] at he
      exact absurd (he.symm.trans hintr) (by simp)
    · cases f <;> rfl
    · intro t _
      rw [enter_k]
      exact Or.inl rfl
  by_cases hacquire : ∃ lock, f = .lockAcquire lock
  · obtain ⟨lock, rfl⟩ := hacquire
    exact ⟨.trying lock, hmain _ ⟨m.code m.cur, rfl, hrest⟩ trivial rfl rfl⟩
  · by_cases hrelease : ∃ lock, f = .lockRelease lock
    · obtain ⟨lock, rfl⟩ := hrelease
      refine ⟨.asserting lock, hmain _ ⟨m.code m.cur, rfl, hrest⟩ ?_ rfl rfl⟩
      simp [Position.Fact, Machine.enter, Machine.setOwns, Machine.push, Machine.setCode, Machine.cur]
    · exact ⟨.outside, hmain _ (at_outside.2 (callerCode_body (fun lock he => hacquire ⟨lock, he⟩)
        (fun lock he => hrelease ⟨lock, he⟩) hrest)) trivial rfl rfl⟩

/-- Where the running thread is when it calls `schedule`, and where a thread is that is started. -/
def Position.Still (p : Position) : Prop :=
  p = .outside ∨ (∃ lock, p = .sleeping lock) ∨ ∃ lock, p = .resuming lock

/-- `schedule` gives the CPU to a thread that waits for nothing. -/
theorem LockInv.switch (h : LockInv m pos w) {p : Position} (hp : pos m.cur = .outside ∧ p = .outside ∨
      ∃ lock, pos m.cur = .sleeping lock ∧ p = .resuming lock ∧
        (m.k.task m.cur).status = .blocked)
    (hsched : schedule m.k = .ok m'.k) (hcode : m'.code = update m.code m.cur rest) (hat : At p rest)
    (hholder : m'.holder = m.holder) (howns : m'.owns = m.owns)
    (hnext : ∀ lock, m'.cur ∉ w lock) :
    LockInv m' (update pos m.cur p) w ∧ (update pos m.cur p m'.cur).Still := by
  have hs := schedule_switched hsched
  have hrest : ∀ t, update pos m.cur p t = .outside ∨ ∃ lock, update pos m.cur p t = .resuming lock := by
    intro t
    by_cases ht : t = m.cur
    · rw [ht, update_self]
      rcases hp with ⟨-, rfl⟩ | ⟨lock, -, rfl, -⟩
      · exact Or.inl rfl
      · exact Or.inr ⟨lock, rfl⟩
    · rw [update_of_ne ht]
      exact h.resting t ht
  have hquiet : (update pos m.cur p m'.cur).thread = none ∧
      (update pos m.cur p m'.cur).linked = none ∧ (update pos m.cur p m'.cur).Fact m'
        (update pos m.cur p) := by
    rcases hrest m'.cur with he | ⟨lock, he⟩
    · rw [he]
      exact ⟨rfl, rfl, trivial⟩
    · rw [he]
      exact ⟨rfl, rfl, trivial⟩
  have hold : (pos m.cur).thread = none ∧ (pos m.cur).wakes = none ∧ (pos m.cur).tries = none := by
    rcases hp with ⟨hp, -⟩ | ⟨lock, hp, -⟩
    · rw [hp]
      exact ⟨rfl, rfl, rfl⟩
    · rw [hp]
      exact ⟨rfl, rfl, rfl⟩
  refine ⟨⟨?_, fun t _ => hrest t, ?_, ?_, hquiet.2.2, ?_, ?_, ?_⟩, (hrest m'.cur).imp_right Or.inr⟩
  · intro t
    rw [hcode]
    by_cases ht : t = m.cur
    · rw [ht, update_self, update_self]
      exact hat
    · rw [update_of_ne ht, update_of_ne ht]
      exact h.at_pos t
  · intro he
    exact absurd (he.symm.trans hs.intr) (by simp)
  · rw [howns, hholder]
    exact h.owned
  · intro lock t ht
    rw [hquiet.1]
    by_cases hc : t = m.cur
    · subst hc
      rw [update_self, h.cur_waiting lock]
      rcases hp with ⟨hp, rfl⟩ | ⟨lock', hp, rfl, hblocked⟩
      · simp [hp]
      · have hstill : (m'.k.task m.cur).status = .blocked :=
          (hs.cur ht (by rw [show (m.k.task m.k.cur).status = _ from hblocked]; simp)).trans hblocked
        simp [hp, hstill]
    · rw [update_of_ne hc, h.waiting lock t hc, hold.1, hs.others t hc ht]
  · intro lock
    rw [hquiet.2.1]
    exact iff_of_false (hnext lock) (by simp)
  · intro lock hfree hw
    rw [hholder] at hfree
    rcases h.wakeup lock hfree hw with hwake | ⟨t, htries, hactive⟩
    · rw [hold.2.1] at hwake
      cases hwake
    · have hc : t ≠ m.cur := by
        rintro rfl
        rw [hold.2.2] at htries
        cases htries
      refine Or.inr ⟨t, by rwa [update_of_ne hc], ?_⟩
      by_cases ht : t = m'.cur
      · rw [ht]
        exact Or.inr hs.next
      · rwa [Active, hs.others t hc ht]

end Callers

section Events

variable {μ : Tid → Mode} {q : ListId → List Tid}

/-- The protocol together with the invariant of the statement machine. -/
def Protocol (m : Machine) : Prop :=
  ∃ μ q pos, SyncInv m μ q ∧ LockInv m pos (waitersOf q)

/-- The same at the beginning or the end of `schedule`. -/
def StillProtocol (m : Machine) : Prop :=
  ∃ μ q pos, SyncInv m μ q ∧ LockInv m pos (waitersOf q) ∧ (pos m.cur).Still

theorem StillProtocol.protocol (h : StillProtocol m) : Protocol m := by
  obtain ⟨μ, q, pos, hinv, hl, -⟩ := h
  exact ⟨μ, q, pos, hinv, hl⟩

/-- Ticks come outside of calls only. -/
theorem LockInv.windowSpared (h : LockInv m pos w) {e : Event} (henabled : e.Enabled m) :
    WindowSpared m e := by
  rintro rfl - hw
  rw [h.calls_off henabled] at hw
  exact hw

theorem waitersOf_eq {q q' : ListId → List Tid} (hq : ∀ x, x ≠ .ready → q' x = q x) :
    waitersOf q' = waitersOf q := funext fun lock => hq (.waiters lock) (by simp)

/-- Callers do not touch the waiters of a lock. -/
theorem Instr.Outer.not_moves {i : Instr} (h : i.Outer) (lock : LockId) :
    ¬i.Moves (.waiters lock) := by
  intro hm
  cases i with
  | appendSelf list => cases list <;> first | exact h | cases hm
  | removeSelf lock' => exact h
  | popWaiter lock' => exact h
  | enlist list task => cases list <;> first | exact h | cases hm
  | _ => first | exact hm | cases hm

/-- A switch, the running thread going to `p`. -/
theorem LockInv.schedule (h : LockInv m pos (waitersOf q)) (hinv : SyncInv m μ q) {p : Position}
    {site : Site} {rest : List Instr} (hcode : m.code m.cur = .schedule site :: rest)
    (hp : pos m.cur = .outside ∧ p = .outside ∨
      ∃ lock, pos m.cur = .sleeping lock ∧ p = .resuming lock ∧
        (m.k.task m.cur).status = .blocked) (hat : At p rest)
    (hexec : exec (m.setCode m.cur rest) (.schedule site) = .ok m') : StillProtocol m' := by
  obtain ⟨μ', q', hinv', hq', hun⟩ := hinv.schedule hcode hexec
  have hw := waitersOf_eq hq'
  obtain ⟨k', hsched, hm'⟩ := bind_ok hexec
  cases hm'
  have hsched' : HoloOS.schedule m.k = .ok ({ m.setCode m.cur rest with k := k' } : Machine).k :=
    hsched
  refine ⟨μ', q', _, hinv', hw ▸ h.switch hp hsched' rfl hat rfl rfl fun lock => ?_⟩
  rw [← hw]
  exact hun (.waiters lock) (by simp)

/-- A statement of a caller. -/
theorem LockInv.callerStep (h : LockInv m pos (waitersOf q)) (hinv : SyncInv m μ q)
    (hp : pos m.cur = .outside) {i : Instr} {rest : List Instr} (hcode : m.code m.cur = i :: rest)
    (hcaller : CallerCode (i :: rest)) (hexec : exec (m.setCode m.cur rest) i = .ok m') :
    Protocol m' := by
  obtain ⟨μ', q', hinv', hq'⟩ := hinv.exec hcode hexec
  have hw : waitersOf q' = waitersOf q := funext fun lock => hq' _ (hcaller.1.not_moves lock)
  by_cases hcall : ∃ f, i = .call f
  · obtain ⟨f, rfl⟩ := hcall
    have hintr := h.intr_off (by simp [hcode])
    have hrest : LockInv (m.setCode m.cur rest) (update pos m.cur .outside) (waitersOf q) :=
      h.quiet hp .outside rfl (at_outside.2 hcaller.2.2) rfl hintr rfl rfl (fun _ _ => rfl) trivial
        rfl rfl (by simp) (by simp)
    cases hexec
    have hself : (m.setCode m.cur rest).code (m.setCode m.cur rest).cur = rest := update_self _ _ _
    obtain ⟨p, h'⟩ := hrest.enter (update_self _ _ _) (by rw [hself]; exact hcaller.2.2) hintr f
    exact ⟨μ', q', _, hinv', hw ▸ h'⟩
  · by_cases hsched : ∃ site, i = .schedule site
    · obtain ⟨site, rfl⟩ := hsched
      exact (h.schedule hinv hcode (Or.inl ⟨hp, rfl⟩) (at_outside.2 hcaller.2.2) hexec).protocol
    · exact ⟨μ', q', _, hinv', hw ▸ h.caller hinv hp hcode hcaller (fun f he => hcall ⟨f, he⟩)
        (fun site he => hsched ⟨site, he⟩) hexec⟩

/-- A statement at a position of `lockAcquire`, `lockRelease` or of a caller. -/
theorem LockInv.step (h : LockInv m pos (waitersOf q)) (hinv : SyncInv m μ q)
    (henabled : Event.step.Enabled m) (hrun : Event.step.run m = .ok m') : Protocol m' := by
  obtain ⟨far, hcode, hfar⟩ := h.at_pos m.cur
  obtain ⟨i, rest, hcons⟩ := List.exists_cons_of_ne_nil henabled
  have hexec : exec (m.setCode m.cur rest) i = .ok m' := by
    simpa only [Event.run, hcons] using hrun
  obtain ⟨μ', q', hinv', hq'⟩ := hinv.exec hcons hexec
  have hsame : (∀ lock, ¬i.Moves (.waiters lock)) →
      (∃ p, LockInv m' (update pos m.cur p) (waitersOf q)) → Protocol m' := by
    rintro hmoves ⟨p, h'⟩
    have hw : waitersOf q' = waitersOf q := funext fun lock => hq' _ (hmoves lock)
    exact ⟨μ', q', _, hinv', hw ▸ h'⟩
  have hhead : ∀ {p : Position} {i' rest'}, pos m.cur = p → p.code ++ far = i' :: rest' →
      i = i' ∧ rest = rest' := by
    intro p i' rest' hp hcode'
    rw [hp, hcode', hcons] at hcode
    exact List.cons.inj hcode
  cases hp : pos m.cur with
  | outside =>
      rw [hp, hcons] at hcode
      exact h.callerStep hinv hp hcons (hcode ▸ hfar) hexec
  | trying lock =>
      obtain ⟨rfl, rfl⟩ := hhead hp rfl
      exact hsame (fun _ => id) (h.trying hp hcons hfar hexec)
  | locking lock =>
      obtain ⟨rfl, rfl⟩ := hhead hp rfl
      exact hsame (fun _ => id) (h.locking hp hcons hfar hexec)
  | linking lock =>
      obtain ⟨rfl, rfl⟩ := hhead hp rfl
      obtain ⟨μ₁, hinv₁⟩ := hinv.appendSelf hcons hexec
      obtain ⟨p, h'⟩ := h.linking hp hcons hfar hexec
      exact ⟨μ₁, _, _, hinv₁, h'⟩
  | retrying lock =>
      obtain ⟨rfl, rfl⟩ := hhead hp rfl
      exact hsame (fun _ => id) (h.retrying hp hcons hfar hexec)
  | disabling lock =>
      obtain ⟨rfl, rfl⟩ := hhead hp rfl
      exact hsame (fun _ => id) (h.disabling hp hcons hfar hexec)
  | blocking lock =>
      obtain ⟨rfl, rfl⟩ := hhead hp rfl
      exact hsame (fun _ => id) (h.blocking hp hcons hfar hexec)
  | unlocking lock =>
      obtain ⟨rfl, rfl⟩ := hhead hp rfl
      exact hsame (fun _ => id) (h.unlocking hp hcons hfar hexec)
  | sleeping lock =>
      obtain ⟨rfl, rfl⟩ := hhead hp rfl
      have hblocked : (m.k.task m.cur).status = .blocked :=
        hinv.cur_status.trans (congrArg Mode.status (hinv.typed_cur hcons).1.2)
      exact (h.schedule hinv hcons (Or.inr ⟨lock, hp, rfl, hblocked⟩) ⟨far, rfl, hfar⟩
        hexec).protocol
  | resuming lock =>
      obtain ⟨rfl, rfl⟩ := hhead hp rfl
      have hrunning : (m.k.task m.cur).status = .running :=
        hinv.cur_status.trans (congrArg Mode.status (hinv.typed_cur hcons).1)
      exact hsame (fun _ => id) (h.resuming hp hrunning hfar hexec)
  | winning lock =>
      obtain ⟨rfl, rfl⟩ := hhead hp rfl
      exact hsame (fun _ => id) (h.winning hp hcons hfar hexec)
  | asserting lock =>
      obtain ⟨rfl, rfl⟩ := hhead hp rfl
      exact hsame (fun _ => id) (h.asserting hp hcons hfar hexec)
  | clearing lock =>
      obtain ⟨rfl, rfl⟩ := hhead hp rfl
      exact hsame (fun _ => id) (h.clearing hp hcons hfar hexec)
  | searching lock =>
      obtain ⟨rfl, rfl⟩ := hhead hp rfl
      exact hsame (fun _ => id) (h.searching hp hcons hfar hexec)
  | testing lock =>
      obtain ⟨rfl, rfl⟩ := hhead hp rfl
      exact hsame (fun _ => id) (h.testing hinv.lists hp hcons hfar hexec)
  | closing lock =>
      obtain ⟨rfl, rfl⟩ := hhead hp rfl
      exact hsame (fun _ => id) (h.closing hp hcons hfar hexec)
  | popping lock =>
      obtain ⟨rfl, rfl⟩ := hhead hp rfl
      obtain ⟨μ₁, thread, right, hq, hinv₁, hcode₁⟩ := hinv.popWaiter hcons hexec
      have hmem : thread ∈ q (.waiters lock) := by
        rw [hq]
        exact List.mem_cons_self
      obtain ⟨⟨T, k⟩, hpop, hm'⟩ := bind_ok hexec
      obtain rfl := popThread_fields hpop
      have hintr := h.intr_off henabled
      cases hm'
      obtain ⟨p, h'⟩ := h.popping hp (hinv.lists.nodup _) (fun lock' hm => by
        simpa using hinv.lists.disjoint _ _ thread (by simp) (by simp) hm hmem) hq hcode₁ hfar rfl
        hintr rfl rfl fun _ => rfl
      exact ⟨μ₁, _, _, hinv₁, h'⟩
  | popped lock thread =>
      obtain ⟨rfl, rfl⟩ := hhead hp rfl
      exact hsame (fun _ => id) (h.popped hp hcons hfar hexec)
  | checking lock thread =>
      obtain ⟨rfl, rfl⟩ := hhead hp rfl
      exact hsame (fun _ => id) (h.checking hp hcons hfar hexec)
  | waking lock thread =>
      obtain ⟨rfl, rfl⟩ := hhead hp rfl
      exact hsame (fun _ hm => by cases hm) (h.waking hp hcons hfar hexec)
  | leaving lock =>
      obtain ⟨rfl, rfl⟩ := hhead hp rfl
      exact hsame (fun _ => id) (h.leaving hp hcons hfar hexec)

/-- A step outside of calls that changes none of what the protocol is about. -/
theorem LockInv.idle (h : LockInv m pos w) (hcode : m.code m.cur = []) (hcur : m'.cur = m.cur)
    (hothers : ∀ t, t ≠ m.cur → m'.code t = m.code t) (hcaller : CallerCode (m'.code m.cur))
    (hintr : m'.k.intr = true → m'.code m.cur = []) (hholder : m'.holder = m.holder)
    (howns : m'.owns = m.owns)
    (hstatus : ∀ t, (m'.k.task t).status = (m.k.task t).status) :
    LockInv m' (update pos m.cur .outside) w := by
  have hp : pos m.cur = .outside := (hcode ▸ h.at_pos m.cur).outside_of_nil
  refine h.advance _ hcur (at_outside.2 hcaller) (fun t ht => Or.inl (hothers t ht)) hintr hholder ?_
    trivial (by rw [hp]) (by rw [hp]) (fun t _ => Or.inl (hstatus t)) (by rw [hp]; simp)
    (by rw [hp]; simp)
  rw [howns]
  exact fun t lock ho => Or.inl ho

theorem LockInv.tick (h : LockInv m pos (waitersOf q)) (hinv : SyncInv m μ q)
    (hintr : m.k.intr = true) (hrun : Event.tick.run m = .ok m') : StillProtocol m' := by
  have hcode := h.calls_off hintr
  obtain ⟨μ', q', hinv', hq', hun⟩ := hinv.tick hintr (h.windowSpared hintr) hrun
  have hw := waitersOf_eq hq'
  have hinterrupted : LockInv m.interrupted (update pos m.cur .outside) (waitersOf q) := by
    refine h.idle hcode rfl (fun t ht => update_of_ne ht _ _) ?_ ?_ rfl rfl
      (sameLists_ticked { m.k with intr := false }).status
    · rw [interrupted_code, update_self, hcode]
      exact ⟨trivial, fun _ => rfl, trivial⟩
    · exact fun he => by cases he
  obtain ⟨k', hhandler, hm'⟩ := bind_ok hrun
  cases hm'
  rw [intrTimerHandler_eq] at hhandler
  split at hhandler
  case isTrue hends =>
    have hhandler' : HoloOS.schedule m.interrupted.k =
        .ok ({ m.interrupted with k := k' } : Machine).k := hhandler
    refine ⟨μ', q', _, hinv', hw ▸ hinterrupted.switch (Or.inl ⟨update_self _ _ _, rfl⟩) hhandler'
      (update_eq_self m.interrupted.cur m.interrupted.code).symm ?_ rfl rfl fun lock => ?_⟩
    · refine at_outside.2 ?_
      rw [interrupted_code]
      change CallerCode (update m.code m.cur (.iret true :: m.code m.cur) m.cur)
      rw [update_self, hcode]
      exact ⟨trivial, fun _ => rfl, trivial⟩
    · rw [← hw]
      exact hun hends (.waiters lock) (by simp)
  case isFalse =>
    cases hhandler
    exact ⟨μ', q', _, hinv', hw ▸ hinterrupted, Or.inl (update_self _ _ _)⟩

theorem LockInv.call (h : LockInv m pos (waitersOf q)) (hinv : SyncInv m μ q) {f : Fn}
    (henabled : (Event.call f).Enabled m) (hintr : m.k.intr = false)
    (hrun : Event.run m (.call f) = .ok m') : Protocol m' := by
  obtain ⟨μ', hinv'⟩ := hinv.call henabled hrun
  have hcode := henabled.1
  have hpages : LockInv { m with k := { m.k with tasks := m.k.tasks ++ f.page } }
      (update pos m.cur .outside) (waitersOf q) :=
    h.idle hcode rfl (fun _ _ => rfl) (by rw [hcode]; trivial) (fun _ => hcode) rfl rfl fun _ => rfl
  cases hrun
  obtain ⟨p, h'⟩ := hpages.enter (update_self _ _ _)
    (by change CallerCode (m.code m.cur); rw [hcode]; trivial) hintr f
  exact ⟨μ', q, _, hinv', h'⟩

theorem LockInv.int80 (h : LockInv m pos (waitersOf q)) (hinv : SyncInv m μ q) {lock : LockId}
    (hcode : m.code m.cur = []) (hrun : Event.run m (.int80 lock) = .ok m') : Protocol m' := by
  obtain ⟨μ', hinv'⟩ := hinv.int80 hcode hrun
  set entered : Machine := ({ m with k := { m.k with intr := false } }).push [.iret m.k.intr]
  have hself : entered.code m.cur = [.iret m.k.intr] := by
    rw [show entered.code m.cur = [.iret m.k.intr] ++ m.code m.cur from update_self _ _ _, hcode]
    rfl
  have hentered : LockInv entered (update pos m.cur .outside) (waitersOf q) := by
    refine h.idle hcode rfl (fun t ht => update_of_ne ht _ _) ?_ (fun he => by cases he) rfl rfl
      fun _ => rfl
    rw [hself]
    exact ⟨trivial, fun _ => rfl, trivial⟩
  cases hrun
  obtain ⟨p, h'⟩ := hentered.enter (update_self _ _ _) (by
    rw [show entered.code entered.cur = _ from hself]
    exact ⟨trivial, fun _ => rfl, trivial⟩) rfl (.underLock lock)
  exact ⟨μ', q, _, hinv', h'⟩

theorem LockInv.promote (h : LockInv m pos (waitersOf q)) (hinv : SyncInv m μ q) {t : Tid}
    (henabled : (Event.promote t).Enabled m) (hrun : Event.run m (.promote t) = .ok m') :
    Protocol m' := by
  obtain ⟨μ', ts, hinv'⟩ := hinv.promote henabled hrun
  have hw : waitersOf (update q .ready ts) = waitersOf q :=
    waitersOf_eq fun x hx => update_of_ne hx _ _
  cases hrun
  exact ⟨μ', _, pos, hinv', hw ▸ ⟨h.at_pos, h.resting, h.calls_off, h.owned,
    h.fact.congr rfl rfl rfl fun _ _ => ⟨rfl, rfl⟩, h.waiting, h.cur_waiting, h.wakeup⟩⟩

theorem Protocol.event (h : Protocol m) {e : Event} (henabled : e.Enabled m)
    (hoff : CallsOff m e) (hrun : e.run m = .ok m') : Protocol m' := by
  obtain ⟨μ, q, pos, hinv, h⟩ := h
  cases e with
  | step => exact h.step hinv henabled hrun
  | tick => exact (h.tick hinv henabled hrun).protocol
  | call f => exact h.call hinv henabled (hoff f rfl) hrun
  | int80 lock => exact h.int80 hinv henabled hrun
  | setIntr status =>
      obtain ⟨μ', hinv'⟩ := hinv.setIntr henabled hrun
      have hcode : m.code m.cur = [] := henabled
      cases hrun
      exact ⟨μ', q, _, hinv', h.idle hcode rfl (fun _ _ => rfl) (by rw [hcode]; trivial)
        (fun _ => hcode) rfl rfl fun _ => rfl⟩
  | promote t => exact h.promote hinv henabled hrun

end Events

theorem booted_protocol (hboot : Booted m) : Protocol m := by
  obtain ⟨q, hinv⟩ := booted_inv hboot
  obtain ⟨main, k, hinit, -, hcode, howns⟩ := hboot
  have hintr : m.k.intr = false := by
    rw [threadSupportInit_eq] at hinit
    rw [← Except.ok.inj hinit]
    rfl
  have hempty : ∀ lock t, t ∉ q (.waiters lock) := by
    intro lock t ht
    have hmem := hinv.mem_tasks _ t ht
    rw [threadSupportInit_eq] at hinit
    rw [← Except.ok.inj hinit] at hmem
    have hcur : t = m.cur := by
      rw [Machine.cur, ← Except.ok.inj hinit]
      exact List.mem_singleton.1 hmem
    have hlinked := (hinv.cur_link (.waiters lock) (by simp)).1 (hcur ▸ ht)
    cases hlinked
  refine ⟨_, q, fun _ => .outside, hinv, ?_, fun _ _ => Or.inl rfl, ?_, ?_, trivial, ?_, ?_, ?_⟩
  · intro t
    rw [hcode]
    exact at_outside.2 trivial
  · exact fun _ => hcode _
  · intro t lock ho
    rw [howns] at ho
    cases ho
  · exact fun lock t _ => iff_of_false (hempty lock t) (by simp)
  · exact fun lock => iff_of_false (hempty lock _) (by simp)
  · intro lock _ hw
    exact absurd (List.eq_nil_iff_forall_not_mem.2 (hempty lock)) hw

/-- The runs that the protocol is about are among those in which nobody spins for ever. -/
theorem reached_protocol (h : Reached CallsOff m) : Reached SectionSpared m ∧ Protocol m := by
  refine h.induct (P := fun m => Reached SectionSpared m ∧ Protocol m) ?_ ?_
  · exact fun m hboot => ⟨⟨m, hboot, .refl⟩, booted_protocol hboot⟩
  · rintro m e m' ⟨⟨m₀, hboot, hsteps⟩, hp⟩ henabled hoff hrun
    refine ⟨⟨m₀, hboot, hsteps.tail ⟨e, henabled, ?_, hrun⟩⟩, hp.event henabled hoff hrun⟩
    rintro rfl -
    obtain ⟨μ, q, hspin⟩ := reached_spinInv ⟨m₀, hboot, hsteps⟩
    obtain ⟨μ', q', pos, -, hl⟩ := hp
    exact hspin.free (congrArg Mode.spin (hspin.toSyncInv.idle (hl.calls_off henabled)))

/-- `schedule` is called: by a statement, or by the timer interrupt that ends the slice. -/
def Switches (m : Machine) : Event → Prop
  | .step => ∃ site rest, m.code m.cur = .schedule site :: rest
  | .tick => m.SliceEnds
  | _ => False

/-- The spin lock is free, and the waiters are the threads blocked in `lockAcquire`, each once. -/
def WaitersExact (m : Machine) (lock : LockId) : Prop :=
  m.k.occupied (.waiters lock) = false ∧ ∃ ts : List Tid, ts.Nodup ∧
    Holds m.k.heap (klist (.waiters lock)) (ts.map .generalTag) ∧
    ∀ t, t ∈ ts ↔ (m.k.task t).status = .blocked ∧ .ret (.lockAcquire lock) ∈ m.code t

/-- At the beginning and the end of `schedule` the list is exact. -/
theorem StillProtocol.waitersExact (h : StillProtocol m) (hfree : ∀ s, m.k.occupied s = false)
    (lock : LockId) : WaitersExact m lock := by
  obtain ⟨μ, q, pos, hinv, hl, hstill⟩ := h
  refine ⟨hfree _, q (.waiters lock), hinv.lists.nodup _, hinv.lists.holds (.waiters lock), ?_⟩
  intro t
  rw [(hl.at_pos t).ret_lockAcquire]
  by_cases ht : t = m.cur
  · subst ht
    rw [hl.cur_waiting lock]
    obtain ⟨far, hcode, -⟩ := hl.at_pos m.cur
    rcases hstill with hp | ⟨lock', hp⟩ | ⟨lock', hp⟩
    · simp [hp]
    · rw [hp] at hcode
      have hblocked : (m.k.task m.cur).status = .blocked :=
        hinv.cur_status.trans (congrArg Mode.status (hinv.typed_cur hcode).1.2)
      simp [hp, hblocked]
    · rw [hp] at hcode
      have hrunning : (m.k.task m.cur).status = .running :=
        hinv.cur_status.trans (congrArg Mode.status (hinv.typed_cur hcode).1)
      simp [hp, hrunning]
  · rw [hl.waiting lock t ht]
    have hthread : (pos m.cur).thread = none := by
      rcases hstill with hp | ⟨lock', hp⟩ | ⟨lock', hp⟩ <;> simp [hp]
    rw [hthread]
    rcases hl.resting t ht with hp | ⟨lock', hp⟩
    · simp [hp]
    · simp [hp, and_comm]

/-- The calls of `schedule` find the protocol at rest, and leave it so. -/
theorem Protocol.still (h : Protocol m) {e : Event} (henabled : e.Enabled m)
    (hswitch : Switches m e) (hrun : e.run m = .ok m') : StillProtocol m ∧ StillProtocol m' := by
  obtain ⟨μ, q, pos, hinv, hl⟩ := h
  cases e with
  | step =>
      obtain ⟨site, rest, hcons⟩ := hswitch
      have hexec : exec (m.setCode m.cur rest) (.schedule site) = .ok m' := by
        simpa only [Event.run, hcons] using hrun
      obtain ⟨far, hcode, hfar⟩ := hl.at_pos m.cur
      cases hp : pos m.cur with
      | outside =>
          rw [hp, hcons] at hcode
          have hcaller : CallerCode (.schedule site :: rest) := hcode ▸ hfar
          exact ⟨⟨μ, q, pos, hinv, hl, Or.inl hp⟩,
            hl.schedule hinv hcons (Or.inl ⟨hp, rfl⟩) (at_outside.2 hcaller.2.2) hexec⟩
      | sleeping lock =>
          rw [hp, hcons] at hcode
          obtain ⟨hsite, rfl⟩ := List.cons.inj hcode
          cases hsite
          have hblocked : (m.k.task m.cur).status = .blocked :=
            hinv.cur_status.trans (congrArg Mode.status (hinv.typed_cur hcons).1.2)
          exact ⟨⟨μ, q, pos, hinv, hl, Or.inr (Or.inl ⟨lock, hp⟩)⟩,
            hl.schedule hinv hcons (Or.inr ⟨lock, hp, rfl, hblocked⟩) ⟨far, rfl, hfar⟩ hexec⟩
      | _ => simp [hp, hcons] at hcode
  | tick =>
      have hp := (hl.calls_off henabled ▸ hl.at_pos m.cur).outside_of_nil
      exact ⟨⟨μ, q, pos, hinv, hl, Or.inl hp⟩, hl.tick hinv henabled hrun⟩
  | _ => exact hswitch.elim

/-- When `schedule` is called every spin lock is free, and it stays so. -/
theorem SpinInv.free_of_switches {μ : Tid → Mode} {q : ListId → List Tid} (h : SpinInv m μ q)
    {e : Event} (hspared : SectionSpared m e) (hswitch : Switches m e) (hrun : e.run m = .ok m')
    (s : Spin) : m.k.occupied s = false ∧ m'.k.occupied s = false := by
  cases e with
  | step =>
      obtain ⟨site, rest, hcons⟩ := hswitch
      have hexec : HoloOS.exec (m.setCode m.cur rest) (.schedule site) = .ok m' := by
        simpa only [Event.run, hcons] using hrun
      have hfree := h.free ((h.toSyncInv.typed_cur hcons).1.spin_none (s := s)
        (Or.inr (Or.inl ⟨site, rfl⟩))) s
      obtain ⟨k', hsched, hm'⟩ := bind_ok hexec
      cases hm'
      exact ⟨hfree, (congrFun (schedule_switched hsched).occupied s).trans hfree⟩
  | tick =>
      have hfree := hspared rfl hswitch s
      obtain ⟨k', hhandler, hm'⟩ := bind_ok hrun
      cases hm'
      have hends : m.SliceEnds := hswitch
      rw [intrTimerHandler_eq] at hhandler
      split at hhandler
      case isFalse hlasts => exact absurd hends hlasts
      case isTrue =>
        exact ⟨hfree, (congrFun (schedule_switched hhandler).occupied s).trans hfree⟩
  | _ => exact hswitch.elim

/-- Mutual exclusion, the exact list at every switch, and no lost wakeup. -/
theorem lock_protocol (h : Reached CallsOff m) (lock : LockId) :
    (∀ t, m.owns t lock = true → m.holder lock = some t) ∧
    (∀ t u, m.owns t lock = true → m.owns u lock = true → t = u) ∧
    (∀ (e : Event) (m' : Machine), e.Enabled m → CallsOff m e → Switches m e → e.run m = .ok m' →
      WaitersExact m lock ∧ WaitersExact m' lock) ∧
    ((∀ t, .ret (.lockRelease lock) ∉ m.code t) → m.holder lock = none →
      listEmpty m.k.heap (klist (.waiters lock)) = false →
      ∃ t, Active m t ∧ .ret (.lockAcquire lock) ∈ m.code t ∧ .whileCas lock ∈ m.code t) := by
  obtain ⟨hspared, hp⟩ := reached_protocol h
  obtain ⟨μ, q, pos, hinv, hl⟩ := hp
  refine ⟨fun t => hl.owned t lock, ?_, ?_, ?_⟩
  · intro t u ht hu
    exact Option.some.inj ((hl.owned t lock ht).symm.trans (hl.owned u lock hu))
  · intro e m' henabled hoff hswitch hrun
    obtain ⟨hstill, hstill'⟩ := Protocol.still ⟨μ, q, pos, hinv, hl⟩ henabled hswitch hrun
    obtain ⟨μ₁, q₁, hspin⟩ := reached_spinInv hspared
    have hsection : SectionSpared m e := by
      rintro rfl -
      exact hspin.free (congrArg Mode.spin (hspin.toSyncInv.idle (hl.calls_off henabled)))
    have hfree := hspin.free_of_switches hsection hswitch hrun
    exact ⟨hstill.waitersExact (fun s => (hfree s).1) lock,
      hstill'.waitersExact (fun s => (hfree s).2) lock⟩
  · intro hnobody hholder hempty
    have hw : q (.waiters lock) ≠ [] := by
      intro hnil
      rw [hinv.lists.listEmpty_eq.2 hnil] at hempty
      cases hempty
    rcases hl.wakeup lock hholder hw with hwake | ⟨t, htries, hactive⟩
    · have hrel : (pos m.cur).releases = some lock := by
        cases hpos : pos m.cur <;> simp_all
      exact absurd ((hl.at_pos m.cur).ret_lockRelease.2 hrel) (hnobody m.cur)
    · have hacq : (pos t).acquires = some lock := by
        cases hpos : pos t <;> simp_all
      exact ⟨t, hactive, (hl.at_pos t).ret_lockAcquire.2 hacq, (hl.at_pos t).whileCas htries⟩

/-- The second thread, with interrupts off, goes to sleep on the lock that the main thread holds. -/
def secondWaits : List Event :=
  secondRuns (.call (.lockAcquire (.named 0)) :: List.replicate 2 .step ++
    .call (.threadStart 3 1) :: List.replicate 15 .step) ++
  .setIntr false :: .call (.lockAcquire (.named 0)) :: List.replicate 7 .step

/-- Only calls with interrupts off. -/
def callsOff (m : Machine) : Event → Bool
  | .call _ => !m.k.intr
  | _ => true

/-- The second thread is in `schedule`, and the third one gets the CPU. -/
theorem lock_protocol_run : ∃ m m', play callsOff secondWaits (bootMachine 1 bootKernel) = some m ∧
    Event.step.run m = .ok m' ∧ (m.cur, m'.cur) = (2, 3) ∧ m.holder (.named 0) = some 1 ∧
    WaitersExact m' (.named 0) := by
  have hend : (play callsOff secondWaits (bootMachine 1 bootKernel)).map (fun m =>
      (decide ((m.code m.cur).head? = some (.schedule (.wait (.waiters (.named 0))))),
        m.owns 1 (.named 0), (Event.step.run m).toOption.map fun m' => (m.cur, m'.cur))) =
      some (true, true, some (2, 3)) := by
    decide +kernel
  obtain ⟨m, hm, hfacts⟩ := Option.map_eq_some_iff.1 hend
  obtain ⟨hhead, hfacts⟩ := Prod.mk.inj hfacts
  obtain ⟨howns, hnext⟩ := Prod.mk.inj hfacts
  obtain ⟨rest, hcode⟩ : ∃ rest, m.code m.cur =
      .schedule (.wait (.waiters (.named 0))) :: rest := by
    have hhead' := of_decide_eq_true hhead
    cases hcode : m.code m.cur with
    | nil => simp [hcode] at hhead'
    | cons i rest =>
        rw [hcode, List.head?_cons, Option.some.injEq] at hhead'
        exact ⟨rest, by rw [hhead']⟩
  have hoff : ∀ m e, callsOff m e = true → CallsOff m e := by
    rintro m e hcheck f rfl
    simpa [callsOff] using hcheck
  have hreached : Reached CallsOff m := ⟨_, booted_bootMachine 1 bootKernel, play_steps hoff hm⟩
  obtain ⟨hholder, -, hexact, -⟩ := lock_protocol hreached (.named 0)
  cases hrun : Event.step.run m with
  | error halt => simp [hrun, Except.toOption] at hnext
  | ok m' =>
      rw [hrun] at hnext
      refine ⟨m, m', hm, hrun, Option.some.inj hnext, hholder 1 howns, ?_⟩
      exact (hexact .step m' (by rw [Event.Enabled, hcode]; simp) (hoff m .step rfl)
        ⟨_, rest, hcode⟩ hrun).2

end HoloOS
