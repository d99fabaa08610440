import HoloOS.SyncLists

/-! The invariant of the statement machine: every code is typed, the mode of the running thread says
where its tag is linked and which status it has, the other threads are neither in the window nor in
the middle of blocking, and a thread about to be linked is on no list. It holds as long as no timer
interrupt ends the slice of a thread in the window. -/

namespace HoloOS

open Function Linked

theorem ListId.Sleeps.ne_all {x : ListId} (h : x.Sleeps) : x ≠ .all := by
  rintro rfl
  exact h

theorem ListId.Sleeps.ne_ready {x : ListId} (h : x.Sleeps) : x ≠ .ready := by
  rintro rfl
  exact h

/-- A spin lock is occupied exactly while one thread is in its section. -/
structure SpinOk (occupied : Spin → Bool) (μ : Tid → Mode) : Prop where
  occupied_iff : ∀ s, occupied s = true ↔ ∃ t, (μ t).spin = some s
  unique : ∀ t u s, (μ t).spin = some s → (μ u).spin = some s → t = u

theorem SpinOk.keep {occupied : Spin → Bool} {μ : Tid → Mode} (h : SpinOk occupied μ) {c : Tid}
    {M' : Mode} (hspin : M'.spin = (μ c).spin) : SpinOk occupied (update μ c M') := by
  have hsame : ∀ t, (update μ c M' t).spin = (μ t).spin := by
    intro t
    by_cases ht : t = c
    · rw [ht, update_self, hspin]
    · rw [update_of_ne ht]
  exact ⟨by simpa only [hsame] using h.occupied_iff, by simpa only [hsame] using h.unique⟩

theorem SpinOk.acquire {occupied : Spin → Bool} {μ : Tid → Mode} (h : SpinOk occupied μ) {c : Tid}
    {M' : Mode} {s : Spin} (hfree : occupied s = false) (hspin : (μ c).spin = none)
    (hM : M'.spin = some s) : SpinOk (update occupied s true) (update μ c M') := by
  have hnone : ∀ t, (μ t).spin ≠ some s := by
    intro t ht
    have hocc := (h.occupied_iff s).2 ⟨t, ht⟩
    rw [hfree] at hocc
    cases hocc
  have hother : ∀ t s', s' ≠ s → ((update μ c M' t).spin = some s' ↔ (μ t).spin = some s') := by
    intro t s' hs
    by_cases ht : t = c
    · subst ht
      simp [hM, hspin, Ne.symm hs]
    · rw [update_of_ne ht]
  constructor
  · intro s'
    by_cases hs : s' = s
    · subst hs
      simp only [update_self, true_iff]
      exact ⟨c, by rw [update_self, hM]⟩
    · simp only [update_of_ne hs, hother _ _ hs]
      exact h.occupied_iff s'
  · intro t u s' ht hu
    by_cases hs : s' = s
    · subst hs
      have hat : ∀ v, (update μ c M' v).spin = some s' → v = c := by
        intro v hv
        by_contra hne
        rw [update_of_ne hne] at hv
        exact hnone v hv
      rw [hat t ht, hat u hu]
    · exact h.unique t u s' ((hother t s' hs).1 ht) ((hother u s' hs).1 hu)

theorem SpinOk.release {occupied : Spin → Bool} {μ : Tid → Mode} (h : SpinOk occupied μ) {c : Tid}
    {M' : Mode} {s : Spin} (hspin : (μ c).spin = some s) (hM : M'.spin = none) :
    SpinOk (update occupied s false) (update μ c M') := by
  have hiff : ∀ t s', (update μ c M' t).spin = some s' ↔ (μ t).spin = some s' ∧ s' ≠ s := by
    intro t s'
    by_cases ht : t = c
    · subst ht
      simp only [update_self, hM, hspin]
      constructor
      · intro he
        cases he
      · rintro ⟨he, hne⟩
        exact absurd (Option.some.inj he).symm hne
    · rw [update_of_ne ht]
      refine ⟨fun hs => ⟨hs, ?_⟩, fun hs => hs.1⟩
      rintro rfl
      exact ht (h.unique t c _ hs hspin)
  constructor
  · intro s'
    by_cases hs : s' = s
    · simp [hs, hiff]
    · simp only [update_of_ne hs, hiff, hs, ne_eq, not_false_eq_true, and_true]
      exact h.occupied_iff s'
  · intro t u s' ht hu
    exact h.unique t u s' ((hiff t s').1 ht).1 ((hiff u s').1 hu).1

/-- The part that also holds inside `schedule`; `runs` says which thread is running. -/
structure SyncCore (m : Machine) (μ : Tid → Mode) (q : ListId → List Tid) (runs : Tid → Prop) :
    Prop where
  lists : TagLists m.k.heap q
  spins : SpinOk m.k.occupied μ
  typed : ∀ t, Typed (μ t) (m.code t)
  mem_tasks : ∀ x t, t ∈ q x → t ∈ m.k.tasks
  others : ∀ t, ¬runs t → (μ t).link = none ∧ (μ t).status = .running
  asleep : ∀ x t, x.Sleeps → t ∈ q x → ¬runs t →
    (m.k.task t).status = .blocked ∧ (μ t).acq = x.lock
  carry : ∀ u T, (μ u).carry = some T → T ∈ m.k.tasks ∧ ¬runs T ∧ Unlinked q .ready T
  carry_unique : ∀ u v T, (μ u).carry = some T → (μ v).carry = some T → u = v
  carryAll : ∀ u T, (μ u).carryAll = some T → T ∈ m.k.tasks ∧ Unlinked q .all T
  carryAll_unique : ∀ u v T, (μ u).carryAll = some T → (μ v).carryAll = some T → u = v
  unborn : ∀ T, (T ∉ m.k.tasks ∨ ∃ u, (μ u).carry = some T ∧ (μ u).carryAll = some T) →
    (μ T).Idle

structure SyncInv (m : Machine) (μ : Tid → Mode) (q : ListId → List Tid) : Prop extends
    SyncCore m μ q (· = m.cur) where
  cur_mem : m.cur ∈ m.k.tasks
  cur_link : ∀ x, x ≠ .all → (m.cur ∈ q x ↔ (μ m.cur).link = some x)
  cur_status : (m.k.task m.cur).status = (μ m.cur).status
  cur_off : (μ m.cur).off = true → m.k.intr = false

/-- The state is the same as far as lists, statuses and threads are concerned. -/
structure SameLists (k k' : Kernel) : Prop where
  heap : k'.heap = k.heap
  tasks : k'.tasks = k.tasks
  cur : k'.cur = k.cur
  status : ∀ t, (k'.task t).status = (k.task t).status

/-- The later mode has the tag and the status of the earlier one and carries nothing new. -/
structure Mode.Follows (M' M : Mode) : Prop where
  link : M'.link = M.link
  status : M'.status = M.status
  carry : ∀ T, M'.carry = some T → M.carry = some T
  carryAll : ∀ T, M'.carryAll = some T → M.carryAll = some T

theorem SameLists.refl (k : Kernel) : SameLists k k := ⟨rfl, rfl, rfl, fun _ => rfl⟩

theorem SameLists.of_fields {k k' : Kernel} (hheap : k'.heap = k.heap) (htasks : k'.tasks = k.tasks)
    (hcur : k'.cur = k.cur) (htask : k'.task = k.task) : SameLists k k' :=
  ⟨hheap, htasks, hcur, fun _ => by rw [htask]⟩

theorem Mode.Follows.refl (M : Mode) : M.Follows M := ⟨rfl, rfl, fun _ h => h, fun _ h => h⟩

theorem Mode.Idle.follows {M M' : Mode} (h : M.Idle) (h' : M'.link = none)
    (hstatus : M'.status = .running) (hcarry : M'.carry = none) (hcarryAll : M'.carryAll = none) :
    M'.Follows M := by
  rw [h]
  refine ⟨h', hstatus, ?_, ?_⟩
  · intro T hT
    rw [hcarry] at hT
    cases hT
  · intro T hT
    rw [hcarryAll] at hT
    cases hT

variable {m m' : Machine} {μ : Tid → Mode} {q q' : ListId → List Tid}

/-- What a field of the modes holds after one of them changed. -/
theorem Mode.field_update {α : Type} (field : Mode → Option α) {M' : Mode} {c u : Tid} {T : α}
    (hu : field (update μ c M' u) = some T) :
    u = c ∧ field M' = some T ∨ u ≠ c ∧ field (μ u) = some T := by
  by_cases he : u = c
  · rw [he, update_self] at hu
    exact Or.inl ⟨he, hu⟩
  · rw [update_of_ne he] at hu
    exact Or.inr ⟨he, hu⟩

theorem Mode.field_kept {α : Type} (field : Mode → Option α) {M' : Mode} {c u : Tid} {T : α}
    (hM : field M' = some T → field (μ c) = some T) (hu : field (update μ c M' u) = some T) :
    field (μ u) = some T := by
  rcases Mode.field_update field hu with ⟨rfl, hM'⟩ | ⟨-, hu⟩
  · exact hM hM'
  · exact hu

theorem typed_update {codes : Tid → List Instr} {code : List Instr} {M' : Mode} {c : Tid}
    (h : ∀ t, Typed (μ t) (codes t)) (htyped : Typed M' code) (t : Tid) :
    Typed (update μ c M' t) (update codes c code t) := by
  by_cases ht : t = c
  · rwa [ht, update_self, update_self]
  · rw [update_of_ne ht, update_of_ne ht]
    exact h t

/-- A thread not yet created, or in the making, is not the running one. -/
theorem SyncInv.unborn_ne_cur (h : SyncInv m μ q) {T : Tid}
    (hT : T ∉ m.k.tasks ∨ ∃ u, (μ u).carry = some T) : T ≠ m.cur := by
  rintro rfl
  rcases hT with hT | ⟨u, hu⟩
  · exact hT h.cur_mem
  · exact (h.carry u m.cur hu).2.1 rfl

theorem SyncInv.typed_cur (h : SyncInv m μ q) {i : Instr} {rest : List Instr}
    (hcode : m.code m.cur = i :: rest) : i.Pre (μ m.cur) ∧ Typed (i.post (μ m.cur)) rest := by
  have ht := h.typed m.cur
  rwa [hcode] at ht

/-- What a statement that moves no tag has to keep. -/
theorem SyncInv.keep (h : SyncInv m μ q) (M' : Mode) (code : List Instr)
    (hcode : m'.code = update m.code m.cur code) (htyped : Typed M' code)
    (hk : SameLists m.k m'.k) (hspins : SpinOk m'.k.occupied (update μ m.cur M'))
    (hM : M'.Follows (μ m.cur)) (hoff : M'.off = true → m'.k.intr = false) :
    SyncInv m' (update μ m.cur M') q := by
  have hcur : m'.cur = m.cur := hk.cur
  have hcarry : ∀ u T, (update μ m.cur M' u).carry = some T → (μ u).carry = some T :=
    fun u T hT => Mode.field_kept Mode.carry (hM.carry T) hT
  have hcarryAll : ∀ u T, (update μ m.cur M' u).carryAll = some T → (μ u).carryAll = some T :=
    fun u T hT => Mode.field_kept Mode.carryAll (hM.carryAll T) hT
  refine ⟨⟨?_, hspins, ?_, ?_, ?_, ?_, ?_, ?_, ?_, ?_, ?_⟩, ?_, ?_, ?_, ?_⟩
  · rw [hk.heap]
    exact h.lists
  · rw [hcode]
    exact typed_update h.typed htyped
  · rw [hk.tasks]
    exact h.mem_tasks
  · intro t ht
    rw [hcur] at ht
    rw [update_of_ne ht]
    exact h.others t ht
  · intro x t hx hm ht
    rw [hcur] at ht
    rw [update_of_ne ht, hk.status]
    exact h.asleep x t hx hm ht
  · intro u T hT
    rw [hk.tasks, hcur]
    exact h.carry u T (hcarry u T hT)
  · intro u v T hu hv
    exact h.carry_unique u v T (hcarry u T hu) (hcarry v T hv)
  · intro u T hT
    rw [hk.tasks]
    exact h.carryAll u T (hcarryAll u T hT)
  · intro u v T hu hv
    exact h.carryAll_unique u v T (hcarryAll u T hu) (hcarryAll v T hv)
  · rw [hk.tasks]
    intro T hT
    have hold : T ∉ m.k.tasks ∨ ∃ u, (μ u).carry = some T ∧ (μ u).carryAll = some T :=
      hT.imp_right (Exists.imp fun u hu => ⟨hcarry u T hu.1, hcarryAll u T hu.2⟩)
    rw [update_of_ne (h.unborn_ne_cur (hold.imp_right (Exists.imp fun _ => And.left)))]
    exact h.unborn T hold
  · rw [hcur, hk.tasks]
    exact h.cur_mem
  · intro x hx
    rw [hcur, update_self, hM.link]
    exact h.cur_link x hx
  · rw [hcur, update_self, hk.status, hM.status]
    exact h.cur_status
  · rw [hcur, update_self]
    exact hoff

theorem Mode.Follows.weaken {M M' : Mode} (h : M'.Follows M) (off : Bool) :
    Mode.Follows { M' with off := off } M := ⟨h.link, h.status, h.carry, h.carryAll⟩

section Quiet

variable {rest : List Instr}

theorem SyncInv.enter (h : SyncInv m μ q) {f : Fn} (hcode : m.code m.cur = .call f :: rest) :
    ∃ μ', SyncInv ((m.setCode m.cur rest).enter f) μ' q := by
  obtain ⟨hpre, hrest⟩ := h.typed_cur hcode
  have hpush : ∀ f : Fn, ((m.setCode m.cur rest).enter f).code =
      update m.code m.cur (f.body ++ .ret f :: rest) := by
    intro f
    cases f <;> simp [Machine.enter, Machine.push, Machine.setCode, Machine.setOwns, Machine.cur]
  have hsame : SameLists m.k ((m.setCode m.cur rest).enter f).k := by
    cases f <;> exact .refl _
  cases f with
  | lockRelease lock =>
      exact ⟨_, h.keep (μ m.cur) _ (hpush _) (typed_lockRelease hpre hrest) hsame (h.spins.keep rfl)
        (.refl _) h.cur_off⟩
  | threadStart task priority => exact hpre.elim
  | processExecute task => exact hpre.elim
  | _ =>
      refine ⟨_, h.keep (Fn.mode _) _ (hpush _) (typed_body (by simp) hrest) hsame
        (h.spins.keep (congrArg Mode.spin hpre).symm) (Mode.Idle.follows hpre rfl rfl rfl rfl)
        (by simp [Fn.mode])⟩

/-- The statements after which the rest of the code is executed, whatever they do to spin locks,
locks, semaphores and the interrupt flag. -/
theorem SyncInv.quiet (h : SyncInv m μ q) {i : Instr} (hcode : m.code m.cur = i :: rest)
    (hcode' : m'.code = update m.code m.cur rest) (hk : SameLists m.k m'.k)
    (hspins : SpinOk m'.k.occupied (update μ m.cur (i.post (μ m.cur))))
    (hM : (i.post (μ m.cur)).Follows (μ m.cur))
    (hoff : (i.post (μ m.cur)).off = true → m'.k.intr = false) : ∃ μ', SyncInv m' μ' q :=
  ⟨_, h.keep _ rest hcode' (h.typed_cur hcode).2 hk hspins hM hoff⟩

theorem SyncInv.ret (h : SyncInv m μ q) {f : Fn} (hcode : m.code m.cur = .ret f :: rest)
    (hexec : exec (m.setCode m.cur rest) (.ret f) = .ok m') : ∃ μ', SyncInv m' μ' q := by
  have hpre := (h.typed_cur hcode).1
  cases f with
  | lockAcquire lock =>
      cases hexec
      exact h.quiet hcode rfl (.refl _) (h.spins.keep rfl) ⟨rfl, rfl, fun _ h => h, fun _ h => h⟩
        h.cur_off
  | _ =>
      cases hexec
      exact h.quiet hcode rfl (.refl _) (h.spins.keep rfl) (.refl _) h.cur_off

theorem SyncInv.whileCas (h : SyncInv m μ q) {lock : LockId}
    (hcode : m.code m.cur = .whileCas lock :: rest)
    (hexec : exec (m.setCode m.cur rest) (.whileCas lock) = .ok m') : ∃ μ', SyncInv m' μ' q := by
  obtain ⟨hpre, hrest⟩ := h.typed_cur hcode
  have hM : μ m.cur = { off := (μ m.cur).off, acq := some lock } := hpre
  cases hholder : m.holder lock with
  | none =>
      have hm' : m' = (m.setCode m.cur rest).setHolder lock (some m.cur) := by
        simpa [exec, Machine.setCode, Machine.cur, hholder, eq_comm] using hexec
      rw [hm']
      refine h.quiet hcode rfl (.refl _) (h.spins.keep (congrArg Mode.spin hM).symm) ?_
        (by simp [Instr.post])
      rw [hM]
      exact ⟨rfl, rfl, by simp [Instr.post], by simp [Instr.post]⟩
  | some t =>
      have hm' : m' = (m.setCode m.cur rest).push
          [.spinlockAcquire (.waiters lock), .appendSelf (.waiters lock), .ifCas lock] := by
        simpa [exec, Machine.setCode, Machine.cur, hholder, eq_comm] using hexec
      rw [hm']
      refine ⟨_, h.keep (μ m.cur) ([.spinlockAcquire (.waiters lock),
        .appendSelf (.waiters lock), .ifCas lock] ++ rest) ?_ ?_ (.refl _) (h.spins.keep rfl)
        (.refl _) h.cur_off⟩
      · simp [Machine.push, Machine.setCode, Machine.cur]
      · rw [hM]
        simpa [Instr.Pre, Instr.post, Mode.Settled] using hrest

theorem SyncInv.ifCas (h : SyncInv m μ q) {lock : LockId}
    (hcode : m.code m.cur = .ifCas lock :: rest)
    (hexec : exec (m.setCode m.cur rest) (.ifCas lock) = .ok m') : ∃ μ', SyncInv m' μ' q := by
  obtain ⟨hpre, hrest⟩ := h.typed_cur hcode
  have hM : μ m.cur = .inWaiters lock (μ m.cur).off := hpre
  cases hholder : m.holder lock with
  | none =>
      have hm' : m' = ((m.setCode m.cur rest).setHolder lock (some m.cur)).push
          [.removeSelf lock, .spinlockRelease (.waiters lock)] := by
        simpa [exec, Machine.setCode, Machine.cur, hholder, eq_comm] using hexec
      rw [hm']
      refine ⟨_, h.keep { Mode.inWaiters lock false with won := some lock }
        ([.removeSelf lock, .spinlockRelease (.waiters lock)] ++ rest) ?_ ?_ (.refl _)
        (h.spins.keep (congrArg Mode.spin hM).symm) ?_ (by simp)⟩
      · simp [Machine.push, Machine.setCode, Machine.setHolder, Machine.cur]
      · simpa [Instr.Pre, Instr.post, Mode.Settled] using hrest
      · rw [hM]
        exact ⟨rfl, rfl, by simp, by simp⟩
  | some t =>
      have hm' : m' = (m.setCode m.cur rest).push [.intrDisable (.lockAcquire lock)] := by
        simpa [exec, Machine.setCode, Machine.cur, hholder, eq_comm] using hexec
      rw [hm']
      refine ⟨_, h.keep (μ m.cur) ([.intrDisable (.lockAcquire lock)] ++ rest) ?_ ?_
        (.refl _) (h.spins.keep rfl) (.refl _) h.cur_off⟩
      · simp [Machine.push, Machine.setCode, Machine.cur]
      · exact ⟨hpre, hrest⟩

theorem SyncInv.spinlockAcquire (h : SyncInv m μ q) {lock : Spin}
    (hcode : m.code m.cur = .spinlockAcquire lock :: rest)
    (hexec : exec (m.setCode m.cur rest) (.spinlockAcquire lock) = .ok m') :
    ∃ μ', SyncInv m' μ' q := by
  obtain ⟨hpre, hrest⟩ := h.typed_cur hcode
  simp only [exec] at hexec
  split at hexec
  · split at hexec
    · cases hexec
      refine ⟨_, h.keep (μ m.cur) (.spinlockAcquire lock :: rest) ?_ ⟨hpre, hrest⟩
        (.refl _) (h.spins.keep rfl) (.refl _) h.cur_off⟩
      simp [Machine.push, Machine.setCode, Machine.cur]
    · cases hexec
  case isFalse hfree =>
    cases hexec
    exact h.quiet hcode rfl (.of_fields rfl rfl rfl rfl)
      (h.spins.acquire (Bool.eq_false_iff.2 hfree) hpre.1 rfl)
      ⟨rfl, rfl, fun _ h => h, fun _ h => h⟩ h.cur_off

theorem SyncInv.intrDisable (h : SyncInv m μ q) {part : OffPart}
    (hcode : m.code m.cur = .intrDisable part :: rest)
    (hexec : exec (m.setCode m.cur rest) (.intrDisable part) = .ok m') : ∃ μ', SyncInv m' μ' q := by
  obtain ⟨hpre, hrest⟩ := h.typed_cur hcode
  cases hexec
  refine ⟨_, h.keep { μ m.cur with off := true } (part.code m.k.intr ++ rest) ?_
    (typed_offPart hpre hrest _) (.of_fields rfl rfl rfl rfl) (h.spins.keep rfl)
    ((Mode.Follows.refl _).weaken true) (fun _ => rfl)⟩
  simp [Machine.push, Machine.setCode, Machine.cur]

theorem SyncInv.ifWaiters (h : SyncInv m μ q) {lock : LockId}
    (hcode : m.code m.cur = .ifWaiters lock :: rest)
    (hexec : exec (m.setCode m.cur rest) (.ifWaiters lock) = .ok m') : ∃ μ', SyncInv m' μ' q := by
  obtain ⟨hpre, hrest⟩ := h.typed_cur hcode
  simp only [exec] at hexec
  split at hexec
  · cases hexec
    refine ⟨_, h.keep (μ m.cur) (.spinlockRelease (.waiters lock) :: rest) ?_ ?_ (.refl _)
      (h.spins.keep rfl) (.refl _) h.cur_off⟩
    · simp [Machine.push, Machine.setCode, Machine.cur]
    · have hcalm : Mode.Settled { μ m.cur with spin := none } := Mode.Calm.settled hpre.2
      exact ⟨⟨hpre.1, hcalm⟩, hrest⟩
  · cases hexec
    refine ⟨_, h.keep (μ m.cur) (.popWaiter lock :: rest) ?_ ⟨hpre, hrest⟩ (.refl _)
      (h.spins.keep rfl) (.refl _) h.cur_off⟩
    simp [Machine.push, Machine.setCode, Machine.cur]

theorem SyncInv.ifBlocked (h : SyncInv m μ q) {thread : Tid}
    (hcode : m.code m.cur = .ifBlocked thread :: rest)
    (hexec : exec (m.setCode m.cur rest) (.ifBlocked thread) = .ok m') : ∃ μ', SyncInv m' μ' q := by
  obtain ⟨hpre, hrest⟩ := h.typed_cur hcode
  simp only [exec] at hexec
  split at hexec
  · cases hexec
    refine ⟨_, h.keep (μ m.cur) (.unblock thread :: rest) ?_ ⟨hpre, hrest⟩ (.refl _)
      (h.spins.keep rfl) (.refl _) h.cur_off⟩
    simp [Machine.push, Machine.setCode, Machine.cur]
  · cases hexec
    exact h.quiet hcode rfl (.refl _) (h.spins.keep rfl)
      ⟨rfl, rfl, by simp [Instr.post], fun _ h => h⟩ h.cur_off

theorem SyncInv.ifSleepers (h : SyncInv m μ q) {cond : CondId}
    (hcode : m.code m.cur = .ifSleepers cond :: rest)
    (hexec : exec (m.setCode m.cur rest) (.ifSleepers cond) = .ok m') : ∃ μ', SyncInv m' μ' q := by
  obtain ⟨hpre, hrest⟩ := h.typed_cur hcode
  simp only [exec] at hexec
  split at hexec
  · cases hexec
    exact h.quiet hcode rfl (.refl _) (h.spins.keep rfl) (.refl _) h.cur_off
  · cases hexec
    refine ⟨_, h.keep (μ m.cur) (.popSleeper cond :: rest) ?_ ⟨hpre, hrest⟩ (.refl _)
      (h.spins.keep rfl) (.refl _) h.cur_off⟩
    simp [Machine.push, Machine.setCode, Machine.cur]

theorem SyncInv.whileZero (h : SyncInv m μ q) {sem : Nat}
    (hcode : m.code m.cur = .whileZero sem :: rest)
    (hexec : exec (m.setCode m.cur rest) (.whileZero sem) = .ok m') : ∃ μ', SyncInv m' μ' q := by
  obtain ⟨hpre, hrest⟩ := h.typed_cur hcode
  simp only [exec] at hexec
  split at hexec
  · cases hexec
    refine ⟨_, h.keep (μ m.cur)
      (.call (.conditionWait (.sem sem) (.sem sem)) :: .whileZero sem :: rest) ?_
      ⟨hpre, rfl, hrest⟩ (.refl _) (h.spins.keep rfl) (.refl _) h.cur_off⟩
    simp [Machine.push, Machine.setCode, Machine.cur]
  · cases hexec
    exact h.quiet hcode rfl (.refl _) (h.spins.keep (congrArg Mode.spin hpre).symm)
      (Mode.Idle.follows hpre rfl rfl rfl rfl) (by simp [Instr.post])

/-- Assertions that pass. -/
theorem SyncInv.assert (h : SyncInv m μ q) {i : Instr} {u : Except Halt Unit}
    (hcode : m.code m.cur = i :: rest)
    (hexec : (u >>= fun _ => Except.ok (m.setCode m.cur rest)) = .ok m')
    (hspin : (i.post (μ m.cur)).spin = (μ m.cur).spin)
    (hM : (i.post (μ m.cur)).Follows (μ m.cur)) (hoff : (i.post (μ m.cur)).off = (μ m.cur).off) :
    ∃ μ', SyncInv m' μ' q := by
  obtain ⟨_, -, hm'⟩ := bind_ok hexec
  cases hm'
  exact h.quiet hcode rfl (.refl _) (h.spins.keep hspin) hM (by rw [hoff]; exact h.cur_off)

end Quiet

/-- A thread in hand, about to go onto a list of general tags, is on none and in no other hand. -/
structure Held (m : Machine) (μ : Tid → Mode) (q : ListId → List Tid) (T : Tid) : Prop where
  mem : T ∈ m.k.tasks
  ne_cur : T ≠ m.cur
  unlinked : Unlinked q .ready T
  unique : ∀ u, u ≠ m.cur → (μ u).carry ≠ some T

/-- The same for the list of all threads. -/
structure HeldAll (m : Machine) (μ : Tid → Mode) (q : ListId → List Tid) (T : Tid) : Prop where
  mem : T ∈ m.k.tasks
  unlinked : Unlinked q .all T
  unique : ∀ u, u ≠ m.cur → (μ u).carryAll ≠ some T

theorem SyncInv.held (h : SyncInv m μ q) {T : Tid} (hT : (μ m.cur).carry = some T) :
    Held m μ q T := by
  obtain ⟨hmem, hne, hun⟩ := h.carry m.cur T hT
  exact ⟨hmem, hne, hun, fun u hu he => hu (h.carry_unique u m.cur T he hT)⟩

theorem SyncInv.heldAll (h : SyncInv m μ q) {T : Tid} (hT : (μ m.cur).carryAll = some T) :
    HeldAll m μ q T := by
  obtain ⟨hmem, hun⟩ := h.carryAll m.cur T hT
  exact ⟨hmem, hun, fun u hu he => hu (h.carryAll_unique u m.cur T he hT)⟩

/-- What a statement has to keep that moves tags. -/
theorem SyncInv.move (h : SyncInv m μ q) (M' : Mode) {code : List Instr}
    (hcode : m'.code = update m.code m.cur code) (htyped : Typed M' code)
    (hcur : m'.k.cur = m.k.cur) (htasks : m'.k.tasks = m.k.tasks) (hlists : TagLists m'.k.heap q')
    (hspins : SpinOk m'.k.occupied (update μ m.cur M'))
    (hmem : ∀ x t, t ∈ q' x → t ∈ m.k.tasks)
    (hlink : ∀ x, x ≠ .all → (m.cur ∈ q' x ↔ M'.link = some x))
    (hstatus : (m'.k.task m.cur).status = M'.status) (hoff : M'.off = true → m'.k.intr = false)
    (hasleep : ∀ x t, x.Sleeps → t ∈ q' x → t ≠ m.cur →
      t ∈ q x ∧ (m'.k.task t).status = (m.k.task t).status)
    (hcarry : ∀ T, M'.carry = some T → Held m μ q' T)
    (hcarryAll : ∀ T, M'.carryAll = some T → HeldAll m μ q' T)
    (hkeep : ∀ u T, u ≠ m.cur → (μ u).carry = some T → Unlinked q' .ready T)
    (hkeepAll : ∀ u T, u ≠ m.cur → (μ u).carryAll = some T → Unlinked q' .all T)
    (hunborn : ∀ T, M'.carry = some T → M'.carryAll = some T → (μ T).Idle) :
    SyncInv m' (update μ m.cur M') q' := by
  have hcur' : m'.cur = m.cur := hcur
  refine ⟨⟨hlists, hspins, ?_, by rwa [htasks], ?_, ?_, ?_, ?_, ?_, ?_, ?_⟩, ?_, ?_, ?_, ?_⟩
  · rw [hcode]
    exact typed_update h.typed htyped
  · intro t ht
    rw [hcur'] at ht
    rw [update_of_ne ht]
    exact h.others t ht
  · intro x t hx hm ht
    rw [hcur'] at ht
    obtain ⟨hold, hkept⟩ := hasleep x t hx hm ht
    rw [update_of_ne ht, hkept]
    exact h.asleep x t hx hold ht
  · intro u T hT
    rw [htasks, hcur']
    rcases Mode.field_update Mode.carry hT with ⟨-, hT'⟩ | ⟨hu, hT'⟩
    · obtain ⟨hT₁, hT₂, hT₃, -⟩ := hcarry T hT'
      exact ⟨hT₁, hT₂, hT₃⟩
    · obtain ⟨hT₁, hT₂, -⟩ := h.carry u T hT'
      exact ⟨hT₁, hT₂, hkeep u T hu hT'⟩
  · intro u w T hu hw
    rcases Mode.field_update Mode.carry hu with ⟨heu, hu'⟩ | ⟨hne, hu'⟩
    · rcases Mode.field_update Mode.carry hw with ⟨hew, -⟩ | ⟨hne', hw'⟩
      · rw [heu, hew]
      · exact absurd hw' ((hcarry T hu').unique w hne')
    · rcases Mode.field_update Mode.carry hw with ⟨-, hw'⟩ | ⟨-, hw'⟩
      · exact absurd hu' ((hcarry T hw').unique u hne)
      · exact h.carry_unique u w T hu' hw'
  · intro u T hT
    rw [htasks]
    rcases Mode.field_update Mode.carryAll hT with ⟨-, hT'⟩ | ⟨hu, hT'⟩
    · obtain ⟨hT₁, hT₂, -⟩ := hcarryAll T hT'
      exact ⟨hT₁, hT₂⟩
    · exact ⟨(h.carryAll u T hT').1, hkeepAll u T hu hT'⟩
  · intro u w T hu hw
    rcases Mode.field_update Mode.carryAll hu with ⟨heu, hu'⟩ | ⟨hne, hu'⟩
    · rcases Mode.field_update Mode.carryAll hw with ⟨hew, -⟩ | ⟨hne', hw'⟩
      · rw [heu, hew]
      · exact absurd hw' ((hcarryAll T hu').unique w hne')
    · rcases Mode.field_update Mode.carryAll hw with ⟨-, hw'⟩ | ⟨-, hw'⟩
      · exact absurd hu' ((hcarryAll T hw').unique u hne)
      · exact h.carryAll_unique u w T hu' hw'
  · rw [htasks]
    rintro T (hT | ⟨u, hu, hu'⟩)
    · rw [update_of_ne (h.unborn_ne_cur (Or.inl hT))]
      exact h.unborn T (Or.inl hT)
    · rcases Mode.field_update Mode.carry hu with ⟨heu, hM⟩ | ⟨hne, hold⟩
      · rw [heu, update_self] at hu'
        rw [update_of_ne (hcarry T hM).ne_cur]
        exact hunborn T hM hu'
      · rw [update_of_ne hne] at hu'
        rw [update_of_ne (h.unborn_ne_cur (Or.inr ⟨u, hold⟩))]
        exact h.unborn T (Or.inr ⟨u, hold, hu'⟩)
  · rw [hcur', htasks]
    exact h.cur_mem
  · intro x hx
    rw [hcur', update_self]
    exact hlink x hx
  · rw [hcur', update_self]
    exact hstatus
  · rw [hcur', update_self]
    exact hoff

/-- `move` for a statement that links at most the thread `v`, on lists of general tags. -/
theorem SyncInv.relink (h : SyncInv m μ q) (M' : Mode) (v : Tid) {code : List Instr}
    (hcode : m'.code = update m.code m.cur code) (htyped : Typed M' code)
    (hcur : m'.k.cur = m.k.cur) (htasks : m'.k.tasks = m.k.tasks) (hlists : TagLists m'.k.heap q')
    (hspins : SpinOk m'.k.occupied (update μ m.cur M'))
    (hall : q' .all = q .all) (hgrow : ∀ x t, t ∈ q' x → t ∈ q x ∨ t = v)
    (hv : v ∈ m.k.tasks ∧ ∀ u, u ≠ m.cur → (μ u).carry ≠ some v)
    (hlink : ∀ x, x ≠ .all → (m.cur ∈ q' x ↔ M'.link = some x))
    (hstatus : (m'.k.task m.cur).status = M'.status) (hoff : M'.off = true → m'.k.intr = false)
    (hasleep : ∀ x t, x.Sleeps → t ∈ q' x → t ≠ m.cur →
      t ∈ q x ∧ (m'.k.task t).status = (m.k.task t).status)
    (hcarry : ∀ T, M'.carry = some T → Held m μ q' T)
    (hcarryAll : ∀ T, M'.carryAll = some T → (μ m.cur).carryAll = some T)
    (hboth : ∀ T, M'.carry = some T → M'.carryAll = some T → (μ m.cur).carry = some T) :
    SyncInv m' (update μ m.cur M') q' := by
  have hall' : ∀ T, Unlinked q .all T → Unlinked q' .all T := by
    intro T hT y hy
    have hye : y = .all := hy.2 rfl
    rw [hye, hall]
    exact hT .all Iff.rfl
  refine h.move M' hcode htyped hcur htasks hlists hspins ?_ hlink hstatus hoff hasleep hcarry ?_ ?_ ?_
    fun T hT hT' => h.unborn T (Or.inr ⟨m.cur, hboth T hT hT', hcarryAll T hT'⟩)
  · intro x t ht
    rcases hgrow x t ht with hm | rfl
    · exact h.mem_tasks x t hm
    · exact hv.1
  · intro T hT
    obtain ⟨hT₁, hT₂, hT₃⟩ := h.heldAll (hcarryAll T hT)
    exact ⟨hT₁, hall' T hT₂, hT₃⟩
  · intro u T hu hT y hy hm
    rcases hgrow y T hm with hm | rfl
    · exact (h.carry u T hT).2.2 y hy hm
    · exact hv.2 u hu hT
  · intro u T _ hT
    exact hall' T (h.carryAll u T hT).2

/-- The running thread is known to no carrier. -/
theorem SyncInv.cur_not_carried (h : SyncInv m μ q) :
    m.cur ∈ m.k.tasks ∧ ∀ u, u ≠ m.cur → (μ u).carry ≠ some m.cur :=
  ⟨h.cur_mem, fun u _ hu => (h.carry u m.cur hu).2.1 rfl⟩

section Moves

variable {rest : List Instr}

theorem SyncInv.setStatus (h : SyncInv m μ q) {status : TaskStatus}
    (hcode : m.code m.cur = .setStatus status :: rest)
    (hexec : exec (m.setCode m.cur rest) (.setStatus status) = .ok m') :
    ∃ μ', SyncInv m' μ' q := by
  obtain ⟨⟨hoff, -, -, hcarry, hcarryAll⟩, hrest⟩ := h.typed_cur hcode
  cases hexec
  refine ⟨_, h.relink _ m.cur rfl hrest rfl rfl h.lists (h.spins.keep rfl) rfl
    (fun x t ht => Or.inl ht) h.cur_not_carried h.cur_link ?_ (fun _ => h.cur_off hoff) ?_ ?_ ?_ ?_⟩
  · simp [Kernel.setStatus, Kernel.setTask, Machine.setCode, Machine.cur, Instr.post]
  · intro x t _ hm ht
    have ht' : t ≠ m.k.cur := ht
    simp [hm, Kernel.setStatus, Kernel.setTask, Machine.setCode, Machine.cur, ht']
  · intro T hT
    simp [Instr.post, hcarry] at hT
  · intro T hT
    exact hT
  · intro T hT
    simp [Instr.post, hcarry] at hT

theorem SyncInv.initStatus (h : SyncInv m μ q) {task : Tid}
    (hcode : m.code m.cur = .initStatus task :: rest)
    (hexec : exec (m.setCode m.cur rest) (.initStatus task) = .ok m') :
    ∃ μ', SyncInv m' μ' q := by
  obtain ⟨hpre, hrest⟩ := h.typed_cur hcode
  have hM : μ m.cur = .creating task (μ m.cur).off := hpre
  have hheld := h.held (T := task) (by rw [hM]; rfl)
  have hother : ∀ t, t ≠ task →
      (((HoloOS.initStatus task m.k).task t).status = (m.k.task t).status) := by
    intro t ht
    simp [HoloOS.initStatus, Kernel.setStatus, Kernel.setTask, ht]
  cases hexec
  refine ⟨_, h.relink (μ m.cur) m.cur rfl hrest rfl rfl h.lists (h.spins.keep rfl) rfl
    (fun x t ht => Or.inl ht) h.cur_not_carried h.cur_link ?_ h.cur_off ?_ ?_ (fun T hT => hT)
    (fun T hT _ => hT)⟩
  · rw [← h.cur_status]
    exact hother _ (Ne.symm hheld.ne_cur)
  · intro x t hx hm ht
    refine ⟨hm, hother t ?_⟩
    rintro rfl
    exact hheld.unlinked x (by simp [hx.ne_all]) hm
  · intro T hT
    exact h.held hT

theorem SyncInv.cur_unlinked (h : SyncInv m μ q) (hlink : (μ m.cur).link = none) {x : ListId}
    (hx : x ≠ .all) : Unlinked q x m.cur := by
  intro y hy hm
  have hlinked := (h.cur_link y (fun he => hx (hy.1 he))).1 hm
  rw [hlink] at hlinked
  cases hlinked

/-- The running thread links its own tag, in `lockAcquire` or in `conditionWait`. -/
theorem SyncInv.appendSelf (h : SyncInv m μ q) {x : ListId}
    (hcode : m.code m.cur = .appendSelf x :: rest)
    (hexec : exec (m.setCode m.cur rest) (.appendSelf x) = .ok m') :
    ∃ μ', SyncInv m' μ' (update q x (q x ++ [m.cur])) := by
  obtain ⟨hpre, hrest⟩ := h.typed_cur hcode
  obtain ⟨hlink, hrun, hcarry, hcarryAll, hsleeps⟩ : (μ m.cur).link = none ∧
      (μ m.cur).status = .running ∧ (μ m.cur).carry = none ∧ (μ m.cur).carryAll = none ∧
      x.Sleeps := by
    cases x with
    | waiters lock => rw [show μ m.cur = _ from hpre]; exact ⟨rfl, rfl, rfl, rfl, trivial⟩
    | cond cond => rw [show μ m.cur = _ from hpre]; exact ⟨rfl, rfl, rfl, rfl, trivial⟩
    | ready => exact hpre.elim
    | all => exact hpre.elim
  have hun := h.cur_unlinked hlink hsleeps.ne_all
  have htag : tagFor x m.cur = .generalTag m.cur := by cases x <;> first | rfl | exact hsleeps.elim
  have hlists := h.lists.append hun
  rw [htag] at hlists
  cases hexec
  refine ⟨_, h.relink _ m.cur rfl hrest rfl rfl hlists (h.spins.keep rfl)
    (update_of_ne hsleeps.ne_all.symm _ _) ?_ h.cur_not_carried ?_ ?_ h.cur_off ?_ ?_ ?_ ?_⟩
  · intro y t ht
    by_cases hy : y = x
    · subst hy
      rw [update_self] at ht
      exact (List.mem_append.1 ht).imp_right List.mem_singleton.1
    · rw [update_of_ne hy] at ht
      exact Or.inl ht
  · intro y hy
    by_cases hyx : y = x
    · subst hyx
      simp [Instr.post]
    · rw [update_of_ne hyx, h.cur_link y hy, hlink]
      simp [Instr.post, Ne.symm hyx]
  · exact h.cur_status
  · intro y t _ ht hne
    refine ⟨?_, rfl⟩
    by_cases hy : y = x
    · subst hy
      rw [update_self] at ht
      exact (List.mem_append.1 ht).resolve_right (by simpa using hne)
    · rwa [update_of_ne hy] at ht
  · intro T hT
    simp [Instr.post, hcarry] at hT
  · exact fun T hT => hT
  · intro T hT
    simp [Instr.post, hcarry] at hT

/-- Lists from which one member went. -/
theorem mem_update_remove {x y : ListId} {t v : Tid} {left right : List Tid}
    (hx : q x = left ++ v :: right) (ht : t ∈ update q x (left ++ right) y) : t ∈ q y := by
  by_cases hy : y = x
  · subst hy
    rw [update_self] at ht
    rw [hx]
    rcases List.mem_append.1 ht with ht | ht
    · exact List.mem_append_left _ ht
    · exact List.mem_append_right _ (List.mem_cons_of_mem _ ht)
  · rwa [update_of_ne hy] at ht

/-- The way out of `lockAcquire` on which the tag has already been linked. -/
theorem SyncInv.removeSelf (h : SyncInv m μ q) {lock : LockId}
    (hcode : m.code m.cur = .removeSelf lock :: rest)
    (hexec : exec (m.setCode m.cur rest) (.removeSelf lock) = .ok m') :
    ∃ μ' ts, SyncInv m' μ' (update q (.waiters lock) ts) := by
  obtain ⟨hpre, hrest⟩ := h.typed_cur hcode
  have hmem : m.cur ∈ q (.waiters lock) := (h.cur_link _ (by simp)).2 (congrArg Mode.link hpre)
  have hcarry : (μ m.cur).carry = none := congrArg Mode.carry hpre
  obtain ⟨left, right, hsplit⟩ := List.append_of_mem hmem
  have hlists := h.lists.remove hsplit
  have hun := h.lists.unlinked_remove hsplit (by simp) (show ListId.ready ≠ .all by simp)
  cases hexec
  refine ⟨_, _, h.relink _ m.cur rfl hrest rfl rfl hlists (h.spins.keep rfl)
    (update_of_ne (by simp) _ _) (fun y t ht => Or.inl (mem_update_remove hsplit ht))
    h.cur_not_carried ?_ ?_ h.cur_off (fun y t _ ht _ => ⟨mem_update_remove hsplit ht, rfl⟩) ?_
    (fun T hT => hT) ?_⟩
  · intro y hy
    simp [Instr.post, hun y (by simp [hy])]
  · exact h.cur_status
  · intro T hT
    simp [Instr.post, hcarry] at hT
  · intro T hT
    simp [Instr.post, hcarry] at hT

theorem popThread_cur {x : ListId} {k k' : Kernel} {T : Tid} (h : popThread x k = .ok (T, k')) :
    k'.cur = k.cur := by
  rw [popThread_fields h]

theorem popThread_ok {x : ListId} {k k' : Kernel} {T : Tid} (hq : TagLists k.heap q)
    (hx : x ≠ .all) (h : popThread x k = .ok (T, k')) :
    ∃ right, q x = T :: right ∧ k' = { k with heap := listRemove k.heap (tagFor x T) } := by
  rw [popThread, hq.listPop_eq] at h
  cases hxs : q x with
  | nil =>
      simp [hxs, elem2entry, bind, Except.bind] at h
  | cons t right =>
      have htag : tagFor x t = .generalTag t := by cases x <;> first | rfl | exact absurd rfl hx
      simp only [hxs, Option.getD_some, htag, elem2entry, bind, Except.bind, pure, Except.pure,
        Except.ok.injEq, Prod.mk.injEq] at h
      obtain ⟨rfl, rfl⟩ := h
      exact ⟨right, rfl, by rw [htag]⟩

/-- A sleeper taken off its list is carried by the thread that took it. -/
theorem SyncInv.pop (h : SyncInv m μ q) {x : ListId} {T : Tid} {k' : Kernel} (hx : x.Sleeps)
    (hpop : popThread x m.k = .ok (T, k')) (hlink : (μ m.cur).link ≠ some x)
    (hcarryAll : (μ m.cur).carryAll = none) (code : List Instr)
    (htyped : Typed { μ m.cur with carry := some T } code) (hk : m'.k = k')
    (hcode : k'.cur = m.k.cur → m'.code = update m.code m.cur code) :
    ∃ μ' right, q x = T :: right ∧ SyncInv m' μ' (update q x right) := by
  obtain ⟨right, hxs, hk'⟩ := popThread_ok h.lists hx.ne_all hpop
  have hsplit : q x = [] ++ T :: right := hxs
  have hmem : T ∈ q x := by rw [hxs]; exact List.mem_cons_self
  have hlists := h.lists.remove hsplit
  have hcur : T ≠ m.cur := by
    rintro rfl
    exact hlink ((h.cur_link x hx.ne_all).1 hmem)
  have hsub : ∀ {y t}, t ∈ update q x ([] ++ right) y → t ∈ q y := mem_update_remove hsplit
  rw [hk'] at hk
  refine ⟨_, right, hxs, h.relink { μ m.cur with carry := some T } m.cur (hcode (by rw [hk']))
    htyped (by rw [hk]) (by rw [hk]) (by rw [hk]; exact hlists) (by rw [hk]; exact h.spins.keep rfl)
    (update_of_ne hx.ne_all.symm _ _) (fun y t ht => Or.inl (hsub ht)) h.cur_not_carried ?_
    (by rw [hk]; exact h.cur_status)
    (by rw [hk]; exact h.cur_off) (fun y t _ ht _ => ⟨hsub ht, by rw [hk]⟩) ?_ ?_ ?_⟩
  · intro y hy
    rw [← h.cur_link y hy]
    refine ⟨hsub, fun hm => ?_⟩
    by_cases hyx : y = x
    · subst hyx
      exact absurd ((h.cur_link y hy).1 hm) hlink
    · rwa [update_of_ne hyx]
  · intro T' hT'
    obtain rfl : T = T' := Option.some.inj hT'
    refine ⟨h.mem_tasks x T hmem, hcur, h.lists.unlinked_remove hsplit hx.ne_all (by simp), ?_⟩
    intro u _ hu
    exact (h.carry u T hu).2.2 x (by simp [hx.ne_all]) hmem
  · intro T' hT'
    simp [hcarryAll] at hT'
  · intro T' _ hT'
    simp [hcarryAll] at hT'

theorem SyncInv.popWaiter (h : SyncInv m μ q) {lock : LockId}
    (hcode : m.code m.cur = .popWaiter lock :: rest)
    (hexec : exec (m.setCode m.cur rest) (.popWaiter lock) = .ok m') :
    ∃ μ' T right, q (.waiters lock) = T :: right ∧ SyncInv m' μ' (update q (.waiters lock) right) ∧
      m'.code = update m.code m.cur
        ([.spinlockRelease (.waiters lock), .ifBlocked T] ++ rest) := by
  obtain ⟨hpre, hrest⟩ := h.typed_cur hcode
  obtain ⟨-, -, -, -, -, hcarryAll, hlink, -⟩ := hpre
  obtain ⟨⟨T, k'⟩, hpop, hm'⟩ := bind_ok hexec
  have hcur := popThread_cur hpop
  cases hm'
  have hcode' : ({ m.setCode m.cur rest with k := k' }.push
      [.spinlockRelease (.waiters lock), .ifBlocked T]).code =
        update m.code m.cur ([.spinlockRelease (.waiters lock), .ifBlocked T] ++ rest) := by
    simp [Machine.push, Machine.setCode, Machine.cur, hcur]
  obtain ⟨μ', right, hq, h'⟩ := h.pop (x := .waiters lock) trivial hpop (hlink lock) hcarryAll _
    (typed_popped (h.typed_cur hcode).1 hrest T) rfl fun _ => hcode'
  exact ⟨μ', T, right, hq, h', hcode'⟩

theorem SyncInv.popSleeper (h : SyncInv m μ q) {cond : CondId}
    (hcode : m.code m.cur = .popSleeper cond :: rest)
    (hexec : exec (m.setCode m.cur rest) (.popSleeper cond) = .ok m') :
    ∃ μ' ts, SyncInv m' μ' (update q (.cond cond) ts) := by
  obtain ⟨hpre, hrest⟩ := h.typed_cur hcode
  have hM : μ m.cur = { off := (μ m.cur).off } := hpre
  obtain ⟨⟨T, k'⟩, hpop, hm'⟩ := bind_ok hexec
  cases hm'
  suffices hpopped : ∃ μ' right, q (.cond cond) = T :: right ∧
      SyncInv _ μ' (update q (.cond cond) right) by
    obtain ⟨μ', right, -, h'⟩ := hpopped
    exact ⟨μ', right, h'⟩
  refine h.pop (x := .cond cond) trivial hpop (by rw [hM]; simp) (by rw [hM]) ([.unblock T] ++ rest)
    ?_ rfl ?_
  · rw [hM] at hrest ⊢
    exact ⟨⟨rfl, by simp [Mode.Calm, Mode.Settled]⟩, hrest⟩
  · intro hcur
    simp [Machine.push, Machine.setCode, Machine.cur, hcur]

/-- A carried thread goes onto the ready list, in front (`front`) or at the end. -/
theorem SyncInv.makeReady (h : SyncInv m μ q) {T : Tid} (hT : (μ m.cur).carry = some T)
    {code : List Instr} (htyped : Typed { μ m.cur with carry := none } code)
    (hcode : m'.code = update m.code m.cur code) (hcur : m'.k.cur = m.k.cur)
    (htasks : m'.k.tasks = m.k.tasks) (hintr : m'.k.intr = m.k.intr)
    (hocc : m'.k.occupied = m.k.occupied) {ts : List Tid}
    (hts : ∀ t ∈ ts, t ∈ q .ready ∨ t = T) (hlists : TagLists m'.k.heap (update q .ready ts))
    (hcurts : m.cur ∈ ts ↔ m.cur ∈ q .ready)
    (hstatus : ∀ t, t ≠ T → (m'.k.task t).status = (m.k.task t).status) :
    ∃ μ', SyncInv m' μ' (update q .ready ts) := by
  have hheld := h.held hT
  refine ⟨_, h.relink _ T hcode htyped hcur htasks hlists (by rw [hocc]; exact h.spins.keep rfl)
    (update_of_ne (by simp) _ _) ?_
    ⟨hheld.mem, hheld.unique⟩ ?_ ?_ (by rw [hintr]; exact h.cur_off) ?_ ?_ (fun T' hT' => hT') ?_⟩
  · intro y t ht
    by_cases hy : y = .ready
    · subst hy
      rw [update_self] at ht
      exact hts t ht
    · rw [update_of_ne hy] at ht
      exact Or.inl ht
  · intro y hy
    rw [← h.cur_link y hy]
    by_cases hyr : y = .ready
    · subst hyr
      rw [update_self]
      exact hcurts
    · rw [update_of_ne hyr]
  · rw [hstatus _ (Ne.symm hheld.ne_cur)]
    exact h.cur_status
  · intro y t hy ht _
    rw [update_of_ne hy.ne_ready] at ht
    refine ⟨ht, hstatus t ?_⟩
    rintro rfl
    exact hheld.unlinked y (by simp [hy.ne_all]) ht
  · intro T' hT'
    cases hT'
  · intro T' hT'
    cases hT'

theorem SyncInv.unblock (h : SyncInv m μ q) {thread : Tid}
    (hcode : m.code m.cur = .unblock thread :: rest)
    (hexec : exec (m.setCode m.cur rest) (.unblock thread) = .ok m') :
    ∃ μ', SyncInv m' μ' (update q .ready (thread :: q .ready)) := by
  obtain ⟨⟨hcarry, -⟩, hrest⟩ := h.typed_cur hcode
  obtain ⟨k', hunblock, hm'⟩ := bind_ok hexec
  obtain ⟨-, -, rfl⟩ := threadUnblock_ok hunblock
  have hheld := h.held hcarry
  have hk : m'.k = m.k.woken thread := by cases hm'; rfl
  have hcode' : m'.code = update m.code m.cur rest := by cases hm'; rfl
  refine h.makeReady hcarry hrest hcode' (by rw [hk]; rfl) (by rw [hk]; rfl) (by rw [hk]; rfl)
    (by rw [hk]; rfl) ?_ (by rw [hk]; exact h.lists.push hheld.unlinked) ?_ ?_
  · intro t ht
    exact (List.mem_cons.1 ht).symm
  · simp [Ne.symm hheld.ne_cur]
  · intro t ht
    rw [hk]
    simp [Kernel.woken, Kernel.push, Kernel.setStatus, Kernel.setTask, ht]

theorem SyncInv.enlistReady (h : SyncInv m μ q) {task : Tid}
    (hcode : m.code m.cur = .enlist .ready task :: rest)
    (hexec : exec (m.setCode m.cur rest) (.enlist .ready task) = .ok m') :
    ∃ μ', SyncInv m' μ' (update q .ready (q .ready ++ [task])) := by
  obtain ⟨hpre, hrest⟩ := h.typed_cur hcode
  have hcarry : (μ m.cur).carry = some task := congrArg Mode.carry hpre
  have hheld := h.held hcarry
  have hk : m'.k = m.k.append .ready (.generalTag task) := by cases hexec; rfl
  have hcode' : m'.code = update m.code m.cur rest := by cases hexec; rfl
  refine h.makeReady hcarry hrest hcode' (by rw [hk]; rfl) (by rw [hk]; rfl) (by rw [hk]; rfl)
    (by rw [hk]; rfl) ?_ (by rw [hk]; exact h.lists.append hheld.unlinked) ?_ ?_
  · intro t ht
    exact (List.mem_append.1 ht).imp_right List.mem_singleton.1
  · simp [Ne.symm hheld.ne_cur]
  · intro t _
    rw [hk]
    rfl

theorem SyncInv.enlistAll (h : SyncInv m μ q) {task : Tid}
    (hcode : m.code m.cur = .enlist .all task :: rest)
    (hexec : exec (m.setCode m.cur rest) (.enlist .all task) = .ok m') :
    ∃ μ', SyncInv m' μ' (update q .all (q .all ++ [task])) := by
  obtain ⟨hpre, hrest⟩ := h.typed_cur hcode
  have hcarry : (μ m.cur).carry = none := congrArg Mode.carry hpre
  have hheld := h.heldAll (congrArg Mode.carryAll hpre)
  have hne : ∀ x, x ≠ .all → update q .all (q .all ++ [task]) x = q x :=
    fun x hx => update_of_ne hx _ _
  have hready : ∀ T, Unlinked q .ready T → Unlinked (update q .all (q .all ++ [task])) .ready T := by
    intro T hT y hy
    rw [hne y (fun he => by simpa using hy.1 he)]
    exact hT y hy
  cases hexec
  refine ⟨_, h.move _ rfl hrest rfl rfl (h.lists.append hheld.unlinked) (h.spins.keep rfl) ?_ ?_
    h.cur_status h.cur_off ?_ ?_ ?_ ?_ ?_ ?_⟩
  · intro x t ht
    by_cases hx : x = .all
    · subst hx
      rw [update_self] at ht
      rcases List.mem_append.1 ht with ht | ht
      · exact h.mem_tasks _ t ht
      · exact List.mem_singleton.1 ht ▸ hheld.mem
    · rw [hne x hx] at ht
      exact h.mem_tasks x t ht
  · intro x hx
    rw [hne x hx]
    exact h.cur_link x hx
  · intro x t hx ht _
    rw [hne x hx.ne_all] at ht
    exact ⟨ht, rfl⟩
  · intro T hT
    simp [Instr.post, hcarry] at hT
  · intro T hT
    simp [Instr.post] at hT
  · intro u T _ hT
    exact hready T (h.carry u T hT).2.2
  · intro u T hu hT y hy hm
    obtain rfl : y = .all := hy.2 rfl
    rw [update_self] at hm
    rcases List.mem_append.1 hm with hm | hm
    · exact (h.carryAll u T hT).2 .all Iff.rfl hm
    · exact hheld.unique u hu (List.mem_singleton.1 hm ▸ hT)
  · intro T hT
    simp [Instr.post, hcarry] at hT

/-- A thread that is neither running nor asleep and holds no spin lock gets its first code. -/
theorem SyncInv.begin (h : SyncInv m μ q) {task : Tid} (hne : task ≠ m.cur)
    (hspin : (μ task).spin = none) (hawake : ∀ x, x.Sleeps → task ∉ q x) :
    SyncInv (m.setCode task [.intrEnable]) (update μ task {}) q := by
  have hcur : update μ task {} m.cur = μ m.cur := update_of_ne (Ne.symm hne) _ _
  have hcarry : ∀ {u T}, (update μ task {} u).carry = some T → (μ u).carry = some T :=
    fun hT => Mode.field_kept Mode.carry (fun hnone => by cases hnone) hT
  have hcarryAll : ∀ {u T}, (update μ task {} u).carryAll = some T → (μ u).carryAll = some T :=
    fun hT => Mode.field_kept Mode.carryAll (fun hnone => by cases hnone) hT
  refine ⟨⟨h.lists, h.spins.keep hspin.symm, ?_, h.mem_tasks, ?_, ?_, ?_, ?_, ?_, ?_, ?_⟩, h.cur_mem,
    ?_, ?_, ?_⟩
  · intro t
    by_cases ht : t = task
    · subst ht
      simp [Machine.setCode, Instr.Pre, Instr.post, Mode.Idle]
    · simpa [Machine.setCode, ht] using h.typed t
  · intro t ht
    by_cases he : t = task
    · simp [he]
    · rw [update_of_ne he]
      exact h.others t ht
  · intro x t hx hm ht
    have he : t ≠ task := fun he => hawake x hx (he ▸ hm)
    rw [update_of_ne he]
    exact h.asleep x t hx hm ht
  · intro u T hT
    exact h.carry u T (hcarry hT)
  · intro u w T hu hw
    exact h.carry_unique u w T (hcarry hu) (hcarry hw)
  · intro u T hT
    exact h.carryAll u T (hcarryAll hT)
  · intro u w T hu hw
    exact h.carryAll_unique u w T (hcarryAll hu) (hcarryAll hw)
  · intro T hT
    by_cases ht : T = task
    · rw [ht, update_self]
      rfl
    · rw [update_of_ne ht]
      exact h.unborn T (hT.imp_right (Exists.imp fun u hu => ⟨hcarry hu.1, hcarryAll hu.2⟩))
  · intro x hx
    change m.cur ∈ q x ↔ (update μ task {} m.cur).link = some x
    rw [hcur]
    exact h.cur_link x hx
  · change _ = (update μ task {} m.cur).status
    rw [hcur]
    exact h.cur_status
  · change (update μ task {} m.cur).off = true → _
    rw [hcur]
    exact h.cur_off

theorem SyncInv.threadCreate (h : SyncInv m μ q) {task : Tid}
    (hcode : m.code m.cur = .threadCreate task :: rest)
    (hexec : exec (m.setCode m.cur rest) (.threadCreate task) = .ok m') :
    ∃ μ', SyncInv m' μ' q := by
  obtain ⟨hpre, hrest⟩ := h.typed_cur hcode
  have hheld := h.held (congrArg Mode.carry hpre)
  have hspin : (update μ m.cur (μ m.cur) task).spin = none := by
    rw [update_eq_self]
    exact congrArg Mode.spin
      (h.unborn task (Or.inr ⟨m.cur, congrArg Mode.carry hpre, congrArg Mode.carryAll hpre⟩))
  have hrestInv : SyncInv (m.setCode m.cur rest) (update μ m.cur (μ m.cur)) q :=
    h.keep (μ m.cur) rest rfl hrest (.refl _) (h.spins.keep rfl) (.refl _) h.cur_off
  cases hexec
  exact ⟨_, hrestInv.begin hheld.ne_cur hspin
    fun x hx => hheld.unlinked x (by simp [hx.ne_all])⟩

end Moves

theorem TagLists.requeued {k : Kernel} (hq : TagLists k.heap q) (hun : Unlinked q .ready k.cur) :
    TagLists k.requeued.heap (update q .ready (q .ready ++ [k.cur])) := hq.append hun

theorem requeued_status {k : Kernel} {t : Tid} (ht : t ≠ k.cur) :
    (k.requeued.task t).status = (k.task t).status := by
  simp [Kernel.requeued, Kernel.setTask, Kernel.append, ht]

/-- What `requeue` does to the lists. -/
theorem SyncInv.requeued_lists (h : SyncInv m μ q) {k : Kernel} (hreq : requeue m.k = .ok k)
    (hunlinked : (μ m.cur).status = .running → (μ m.cur).link = none) :
    k.tasks = m.k.tasks ∧ k.occupied = m.k.occupied ∧ ∃ q', TagLists k.heap q' ∧
      (∀ x, x ≠ .ready → q' x = q x) ∧ (∀ x t, t ∈ q' x → t ∈ q x ∨ t = m.cur) ∧
      ∀ t x, x.Sleeps → t ∈ q x → (k.task t).status = (m.k.task t).status := by
  rcases requeue_ok hreq with ⟨hcur, -, rfl⟩ | ⟨-, rfl⟩
  · have hun := h.cur_unlinked (hunlinked (h.cur_status.symm.trans hcur)) (show ListId.ready ≠ .all by simp)
    refine ⟨rfl, rfl, _, h.lists.requeued hun, fun x hx => update_of_ne hx _ _, ?_, ?_⟩
    · intro x t ht
      by_cases hx : x = .ready
      · subst hx
        rw [update_self] at ht
        exact (List.mem_append.1 ht).imp_right List.mem_singleton.1
      · rw [update_of_ne hx] at ht
        exact Or.inl ht
    · intro t x hx ht
      refine requeued_status ?_
      rintro rfl
      exact hun x (by simp [hx.ne_all]) ht
  · exact ⟨rfl, rfl, q, h.lists, fun _ _ => rfl, fun _ _ ht => Or.inl ht, fun _ _ _ _ => rfl⟩

/-- The running thread gives up the CPU: it goes onto the ready list, or sleeps on the list its tag
is linked into, or is left to a later `threadUnblock`. -/
theorem SyncInv.giveUp (h : SyncInv m μ q) (M' : Mode) {code : List Instr}
    (hreq : requeue m.k = .ok m'.k) (hcode : m'.code = update m.code m.cur code)
    (htyped : Typed M' code) (hspin : M'.spin = (μ m.cur).spin) (hlink : M'.link = none)
    (hrun : M'.status = .running)
    (hcarry : ∀ T, M'.carry = some T → (μ m.cur).carry = some T)
    (hcarryAll : ∀ T, M'.carryAll = some T → (μ m.cur).carryAll = some T)
    (hunlinked : (μ m.cur).status = .running → (μ m.cur).link = none)
    (hasleep : ∀ x, (μ m.cur).link = some x → (μ m.cur).status = .blocked ∧ M'.acq = x.lock) :
    ∃ q', SyncCore m' (update μ m.cur M') q' (fun _ => False) ∧ ∀ x, x ≠ .ready → q' x = q x := by
  obtain ⟨htasks, hocc, q', hlists, hq', hmem, hstatus⟩ := h.requeued_lists hreq hunlinked
  have hcarry' : ∀ {u T}, (update μ m.cur M' u).carry = some T → (μ u).carry = some T :=
    fun hT => Mode.field_kept Mode.carry (hcarry _) hT
  have hcarryAll' : ∀ {u T}, (update μ m.cur M' u).carryAll = some T → (μ u).carryAll = some T :=
    fun hT => Mode.field_kept Mode.carryAll (hcarryAll _) hT
  refine ⟨q', ⟨hlists, by rw [hocc]; exact h.spins.keep hspin, ?_, ?_, ?_, ?_, ?_, ?_, ?_, ?_, ?_⟩, hq'⟩
  · rw [hcode]
    exact typed_update h.typed htyped
  · intro x t ht
    rw [htasks]
    rcases hmem x t ht with ht | rfl
    · exact h.mem_tasks x t ht
    · exact h.cur_mem
  · intro t _
    by_cases ht : t = m.cur
    · subst ht
      rw [update_self]
      exact ⟨hlink, hrun⟩
    · rw [update_of_ne ht]
      exact h.others t ht
  · intro x t hx ht _
    rw [hq' x hx.ne_ready] at ht
    rw [hstatus t x hx ht]
    by_cases he : t = m.cur
    · subst he
      rw [update_self, h.cur_status]
      exact hasleep x ((h.cur_link x hx.ne_all).1 ht)
    · rw [update_of_ne he]
      exact h.asleep x t hx ht he
  · intro u T hT
    rw [htasks]
    obtain ⟨hT₁, hT₂, hT₃⟩ := h.carry u T (hcarry' hT)
    refine ⟨hT₁, id, fun y hy hm => ?_⟩
    rcases hmem y T hm with hm | hm
    · exact hT₃ y hy hm
    · exact hT₂ hm
  · intro u w T hu hw
    exact h.carry_unique u w T (hcarry' hu) (hcarry' hw)
  · intro u T hT
    rw [htasks]
    obtain ⟨hT₁, hT₂⟩ := h.carryAll u T (hcarryAll' hT)
    refine ⟨hT₁, fun y hy hm => ?_⟩
    obtain rfl : y = .all := hy.2 rfl
    rw [hq' .all (by simp)] at hm
    exact hT₂ .all Iff.rfl hm
  · intro u w T hu hw
    exact h.carryAll_unique u w T (hcarryAll' hu) (hcarryAll' hw)
  · rw [htasks]
    intro T hT
    have hT' : T ∉ m.k.tasks ∨ ∃ u, (μ u).carry = some T ∧ (μ u).carryAll = some T :=
      hT.imp_right (Exists.imp fun u hu => ⟨hcarry' hu.1, hcarryAll' hu.2⟩)
    rw [update_of_ne (h.unborn_ne_cur (hT'.imp_right (Exists.imp fun _ => And.left)))]
    exact h.unborn T hT'

theorem dispatch_ok {k k' : Kernel} (hq : TagLists k.heap q) (h : dispatch k = .ok k') :
    ∃ next rest, q .ready = next :: rest ∧ k.occupied .readyList = false ∧
      k.occupied .threadTag = false ∧ k' = k.dispatched next := by
  obtain ⟨k₁, hacq, -⟩ := bind_ok h
  obtain ⟨hready, -⟩ := spinlockAcquire_ok hacq
  have hl := hq.holds .ready
  cases hxs : q .ready with
  | nil =>
      rw [hxs] at hl
      rw [dispatch_nil hready hl] at h
      cases h
  | cons next rest =>
      rw [hxs] at hl
      cases htag : k.occupied .threadTag with
      | true =>
          rw [dispatch_of_occupied hready htag hl] at h
          cases h
      | false =>
          rw [dispatch_cons hready htag hl] at h
          exact ⟨next, rest, rfl, hready, rfl, (Except.ok.inj h).symm⟩

/-- `dispatch` makes the first ready thread the running one, with interrupts still off. -/
theorem SyncCore.dispatch (h : SyncCore m μ q (fun _ => False)) (hintr : m.k.intr = false)
    (hdispatch : HoloOS.dispatch m.k = .ok m'.k) (hcode : m'.code = m.code) :
    ∃ ts, SyncInv m' μ (update q .ready ts) ∧ Unlinked (update q .ready ts) .ready m'.cur := by
  obtain ⟨next, rest, hxs, -, -, hk⟩ := dispatch_ok h.lists hdispatch
  have hsplit : q .ready = [] ++ next :: rest := hxs
  have hmem : next ∈ q .ready := by rw [hxs]; exact List.mem_cons_self
  have hun := h.lists.unlinked_remove hsplit (by simp) (show ListId.ready ≠ .all by simp)
  have hsub : ∀ {y t}, t ∈ update q .ready ([] ++ rest) y → t ∈ q y := mem_update_remove hsplit
  have hcur : m'.cur = next := by
    rw [Machine.cur, hk]
    rfl
  have htasks : m'.k.tasks = m.k.tasks := by rw [hk]; rfl
  have hstatus : ∀ t, t ≠ next → (m'.k.task t).status = (m.k.task t).status := by
    intro t ht
    rw [hk]
    simp [Kernel.dispatched, Kernel.setStatus, Kernel.setTask, Kernel.remove, ht]
  refine ⟨[] ++ rest, ⟨⟨?_, ?_, ?_, ?_, ?_, ?_, ?_, ?_, ?_, ?_, ?_⟩, ?_, ?_, ?_, ?_⟩, hcur ▸ hun⟩
  · rw [hk]
    exact h.lists.remove hsplit
  · rw [hk]
    exact h.spins
  · rw [hcode]
    exact h.typed
  · intro x t ht
    rw [htasks]
    exact h.mem_tasks x t (hsub ht)
  · exact fun t _ => h.others t id
  · intro x t hx ht hne
    rw [hcur] at hne
    rw [hstatus t hne]
    exact h.asleep x t hx (hsub ht) id
  · intro u T hT
    rw [htasks, hcur]
    obtain ⟨hT₁, -, hT₂⟩ := h.carry u T hT
    refine ⟨hT₁, ?_, fun y hy hm => hT₂ y hy (hsub hm)⟩
    rintro rfl
    exact hT₂ .ready Iff.rfl hmem
  · exact h.carry_unique
  · intro u T hT
    rw [htasks]
    obtain ⟨hT₁, hT₂⟩ := h.carryAll u T hT
    exact ⟨hT₁, fun y hy hm => hT₂ y hy (hsub hm)⟩
  · exact h.carryAll_unique
  · rw [htasks]
    exact h.unborn
  · rw [hcur, htasks]
    exact h.mem_tasks _ _ hmem
  · intro x hx
    rw [hcur, (h.others next id).1]
    have hnot := hun x (by simp [hx])
    exact ⟨fun hm => absurd hm hnot, fun he => absurd he (by simp)⟩
  · rw [hcur, (h.others next id).2, hk]
    simp [Kernel.dispatched, Kernel.setStatus, Kernel.setTask]
  · intro _
    rw [hk]
    exact hintr

theorem requeue_intr {k k' : Kernel} (h : requeue k = .ok k') : k'.intr = k.intr := by
  rcases requeue_ok h with ⟨-, -, rfl⟩ | ⟨-, rfl⟩
  · rfl
  · rfl

/-- `schedule` as a whole. -/
theorem SyncInv.switch (h : SyncInv m μ q) (M' : Mode) {code : List Instr}
    (hsched : schedule m.k = .ok m'.k) (hcode : m'.code = update m.code m.cur code)
    (htyped : Typed M' code) (hspin : M'.spin = (μ m.cur).spin) (hlink : M'.link = none)
    (hrun : M'.status = .running)
    (hcarry : ∀ T, M'.carry = some T → (μ m.cur).carry = some T)
    (hcarryAll : ∀ T, M'.carryAll = some T → (μ m.cur).carryAll = some T)
    (hunlinked : (μ m.cur).status = .running → (μ m.cur).link = none)
    (hasleep : ∀ x, (μ m.cur).link = some x → (μ m.cur).status = .blocked ∧ M'.acq = x.lock) :
    ∃ q', SyncInv m' (update μ m.cur M') q' ∧ (∀ x, x ≠ .ready → q' x = q x) ∧
      Unlinked q' .ready m'.cur := by
  obtain ⟨hintr, k₁, hreq, hdispatch⟩ := schedule_ok hsched
  set m₁ : Machine := { m' with k := k₁ } with hm₁
  obtain ⟨q₁, hcore, hq₁⟩ : ∃ q₁, SyncCore m₁ (update μ m.cur M') q₁ (fun _ => False) ∧
      ∀ x, x ≠ ListId.ready → q₁ x = q x :=
    h.giveUp M' hreq hcode htyped hspin hlink hrun hcarry hcarryAll hunlinked hasleep
  obtain ⟨ts, h', hun⟩ := hcore.dispatch ((requeue_intr hreq).trans hintr) hdispatch rfl
  exact ⟨_, h', fun x hx => (update_of_ne hx _ _).trans (hq₁ x hx), hun⟩

theorem SyncInv.schedule {rest : List Instr} (h : SyncInv m μ q) {site : Site}
    (hcode : m.code m.cur = .schedule site :: rest)
    (hexec : exec (m.setCode m.cur rest) (.schedule site) = .ok m') :
    ∃ μ' q', SyncInv m' μ' q' ∧ (∀ x, x ≠ .ready → q' x = q x) ∧
      Unlinked q' .ready m'.cur := by
  obtain ⟨hpre, hrest⟩ := h.typed_cur hcode
  obtain ⟨k', hsched, hm'⟩ := bind_ok hexec
  cases hm'
  cases site with
  | wait list =>
      obtain ⟨hsleeps, hM⟩ := hpre
      have hlink : (μ m.cur).link = some list := congrArg Mode.link hM
      have hstatus : (μ m.cur).status = .blocked := congrArg Mode.status hM
      refine ⟨_, h.switch _ hsched rfl hrest (congrArg Mode.spin hM).symm rfl rfl
        (by simp [Instr.post]) (by simp [Instr.post]) (by simp [hstatus]) ?_⟩
      intro x hx
      obtain rfl : list = x := Option.some.inj (hlink.symm.trans hx)
      exact ⟨hstatus, rfl⟩
  | block status =>
      have hlink : (μ m.cur).link = none := congrArg Mode.link hpre
      exact ⟨_, h.switch _ hsched rfl hrest (congrArg Mode.spin hpre).symm rfl rfl
        (by simp [Instr.post]) (by simp [Instr.post]) (fun _ => hlink) (by simp [hlink])⟩

/-- The lists a statement may change. -/
def Instr.Moves : Instr → ListId → Prop
  | .appendSelf list, x => x = list
  | .removeSelf lock, x => x = .waiters lock
  | .popWaiter lock, x => x = .waiters lock
  | .popSleeper cond, x => x = .cond cond
  | .schedule _, x => x = .ready
  | .unblock _, x => x = .ready
  | .enlist list _, x => x = list
  | _, _ => False

/-- Every statement keeps the invariant. -/
theorem SyncInv.exec {rest : List Instr} {i : Instr} (h : SyncInv m μ q)
    (hcode : m.code m.cur = i :: rest) (hexec : HoloOS.exec (m.setCode m.cur rest) i = .ok m') :
    ∃ μ' q', SyncInv m' μ' q' ∧ ∀ x, ¬i.Moves x → q' x = q x := by
  have hpre := (h.typed_cur hcode).1
  have hsame : (∃ μ', SyncInv m' μ' q) →
      ∃ μ' q', SyncInv m' μ' q' ∧ ∀ x, ¬i.Moves x → q' x = q x := by
    rintro ⟨μ', h'⟩
    exact ⟨μ', q, h', fun _ _ => rfl⟩
  have hone : ∀ y, (∀ x, x = y → i.Moves x) → (∃ μ' ts, SyncInv m' μ' (update q y ts)) →
      ∃ μ' q', SyncInv m' μ' q' ∧ ∀ x, ¬i.Moves x → q' x = q x := by
    rintro y hy ⟨μ', ts, h'⟩
    exact ⟨μ', _, h', fun x hx => update_of_ne (fun he => hx (hy x he)) _ _⟩
  cases i with
  | call f =>
      cases hexec
      exact hsame (h.enter hcode)
  | ret f => exact hsame (h.ret hcode hexec)
  | whileCas lock => exact hsame (h.whileCas hcode hexec)
  | ifCas lock => exact hsame (h.ifCas hcode hexec)
  | spinlockAcquire lock => exact hsame (h.spinlockAcquire hcode hexec)
  | spinlockRelease lock =>
      cases hexec
      exact hsame (h.quiet hcode rfl (.of_fields rfl rfl rfl rfl) (h.spins.release hpre.1 rfl)
        ⟨rfl, rfl, fun _ h => h, fun _ h => h⟩ h.cur_off)
  | appendSelf list =>
      obtain ⟨μ', h'⟩ := h.appendSelf hcode hexec
      exact hone list (fun _ he => he) ⟨μ', _, h'⟩
  | removeSelf lock => exact hone (.waiters lock) (fun _ he => he) (h.removeSelf hcode hexec)
  | intrDisable part => exact hsame (h.intrDisable hcode hexec)
  | intrSetStatus status =>
      cases hexec
      exact hsame (h.quiet hcode rfl (.of_fields rfl rfl rfl rfl) (h.spins.keep rfl)
        ((Mode.Follows.refl _).weaken false) (by simp [Instr.post]))
  | intrEnable =>
      cases hexec
      exact hsame (h.quiet hcode rfl (.of_fields rfl rfl rfl rfl)
        (h.spins.keep (congrArg Mode.spin hpre).symm) (Mode.Idle.follows hpre rfl rfl rfl rfl)
        (by simp [Instr.post]))
  | iret flag =>
      cases hexec
      exact hsame (h.quiet hcode rfl (.of_fields rfl rfl rfl rfl) (h.spins.keep rfl)
        ((Mode.Follows.refl _).weaken false) (by simp [Instr.post]))
  | setStatus status => exact hsame (h.setStatus hcode hexec)
  | schedule site =>
      obtain ⟨μ', q', h', hq', -⟩ := h.schedule hcode hexec
      exact ⟨μ', q', h', hq'⟩
  | assertHolder lock =>
      exact hsame (h.assert hcode hexec rfl ⟨rfl, rfl, fun _ h => h, fun _ h => h⟩ rfl)
  | clearHolder lock =>
      cases hexec
      exact hsame (h.quiet hcode rfl (.refl _) (h.spins.keep rfl)
        ⟨rfl, rfl, fun _ h => h, fun _ h => h⟩ h.cur_off)
  | ifWaiters lock => exact hsame (h.ifWaiters hcode hexec)
  | popWaiter lock =>
      obtain ⟨μ', T, right, -, h', -⟩ := h.popWaiter hcode hexec
      exact hone (.waiters lock) (fun _ he => he) ⟨μ', _, h'⟩
  | ifBlocked thread => exact hsame (h.ifBlocked hcode hexec)
  | unblock thread =>
      obtain ⟨μ', h'⟩ := h.unblock hcode hexec
      exact hone .ready (fun _ he => he) ⟨μ', _, h'⟩
  | ifSleepers cond => exact hsame (h.ifSleepers hcode hexec)
  | popSleeper cond => exact hone (.cond cond) (fun _ he => he) (h.popSleeper hcode hexec)
  | whileZero sem => exact hsame (h.whileZero hcode hexec)
  | decrement sem =>
      cases hexec
      exact hsame (h.quiet hcode rfl (.refl _) (h.spins.keep rfl) (.refl _) h.cur_off)
  | increment sem =>
      cases hexec
      exact hsame (h.quiet hcode rfl (.refl _) (h.spins.keep rfl) (.refl _) h.cur_off)
  | assertBlock status => exact hsame (h.assert hcode hexec rfl (.refl _) rfl)
  | initStatus task => exact hsame (h.initStatus hcode hexec)
  | allocatePid task =>
      cases hexec
      refine hsame (h.quiet hcode rfl ⟨rfl, rfl, rfl, ?_⟩ (h.spins.keep rfl) (.refl _) h.cur_off)
      intro t
      by_cases ht : t = task
      · simp [HoloOS.allocatePid, Kernel.setTask, Machine.setCode, ht]
      · simp [HoloOS.allocatePid, Kernel.setTask, Machine.setCode, ht]
  | initSlice task priority =>
      cases hexec
      refine hsame (h.quiet hcode rfl ⟨rfl, rfl, rfl, ?_⟩ (h.spins.keep rfl) (.refl _) h.cur_off)
      intro t
      by_cases ht : t = task
      · simp [HoloOS.initSlice, Kernel.setTask, Machine.setCode, ht]
      · simp [HoloOS.initSlice, Kernel.setTask, Machine.setCode, ht]
  | threadCreate task => exact hsame (h.threadCreate hcode hexec)
  | assertNew list task => exact hsame (h.assert hcode hexec rfl (.refl _) rfl)
  | enlist list task =>
      cases list with
      | ready =>
          obtain ⟨μ', h'⟩ := h.enlistReady hcode hexec
          exact hone .ready (fun _ he => he) ⟨μ', _, h'⟩
      | all =>
          obtain ⟨μ', h'⟩ := h.enlistAll hcode hexec
          exact hone .all (fun _ he => he) ⟨μ', _, h'⟩
      | waiters lock => exact hpre.elim
      | cond cond => exact hpre.elim

end HoloOS
