import HoloOS.DeviceKeyboard
import HoloOS.SyncSpin

/-! The keyboard interrupt over whole runs. A key goes through exactly when it yields no character or
finds the lock of `keyboardBuf` free and the buffer not full, with the spin locks it needs free too;
one that does not puts the interrupted thread to sleep, even on a lock this thread holds. -/

namespace HoloOS

open Function Linked

variable {s : Keyed} {m m' : Machine} {μ : Tid → Mode} {q : ListId → List Tid}

/-- Entering an interrupt handler. -/
theorem SyncInv.gate (h : SyncInv m μ q) (hintr : m.k.intr = true) :
    SyncInv m.gate (update μ m.cur { μ m.cur with off := true }) q := by
  have hoff : (μ m.cur).off = false := by
    rw [Bool.eq_false_iff]
    intro he
    rw [h.cur_off he] at hintr
    cases hintr
  have htyped := h.typed m.cur
  have hback : (Instr.iret true).post { μ m.cur with off := true } = μ m.cur := by
    change ({ μ m.cur with off := false } : Mode) = μ m.cur
    rw [← hoff]
  refine h.keep _ (.iret true :: m.code m.cur) rfl ?_ (.of_fields rfl rfl rfl rfl)
    (h.spins.keep rfl) ((Mode.Follows.refl _).weaken true) (fun _ => rfl)
  refine ⟨⟨⟨fun _ => rfl, fun _ => rfl⟩, htyped.running_of_on hoff⟩, ?_⟩
  rw [hback]
  exact htyped

/-- The first sleeper of a list is on no other list and can be made ready. -/
theorem SyncInv.awaken (h : SyncInv m μ q) {x : ListId} {T : Tid} {right : List Tid} (hx : x.Sleeps)
    (hq : q x = T :: right) (hcur : m.cur ∉ q x) :
    ∃ k, popThread x m.k = .ok (T, k) ∧ k.occupied = m.k.occupied ∧ (k.task T).status = .blocked ∧
      (m.k.occupied .readyList = false → threadUnblock T k = .ok (k.woken T)) ∧
      SyncInv { m with k := k.woken T } μ (update (update q x right) .ready (T :: q .ready)) := by
  have hmem : T ∈ q x := by rw [hq]; exact List.mem_cons_self
  have hne : T ≠ m.cur := fun e => hcur (e ▸ hmem)
  have hsplit : q x = [] ++ T :: right := hq
  have htag : tagFor x T = .generalTag T := by
    cases x <;> first | rfl | exact absurd rfl hx.ne_all
  have hun : Unlinked (update q x right) .ready T := by
    have := h.lists.unlinked_remove hsplit hx.ne_all (show ListId.ready ≠ .all by simp)
    simpa using this
  have hpop : popThread x m.k =
      .ok (T, { m.k with heap := listRemove m.k.heap (tagFor x T) }) := by
    rw [popThread, h.lists.listPop_eq, hq]
    simp [htag, elem2entry, bind, Except.bind, pure, Except.pure]
  have hlists : TagLists (listRemove m.k.heap (tagFor x T)) (update q x right) :=
    h.lists.remove hsplit
  have hblocked : (m.k.task T).status = .blocked := (h.asleep x T hx hmem hne).1
  have hready : update q x right .ready = q .ready := update_of_ne hx.ne_ready.symm _ _
  have hlinked : ∀ u, (μ u).carry ≠ some T := fun u hu =>
    (h.carry u T hu).2.2 x (by simp [hx.ne_all]) hmem
  have hgrow : ∀ y t, t ∈ update (update q x right) .ready (T :: q .ready) y → t ∈ q y ∨ t = T := by
    intro y t ht
    by_cases hy : y = .ready
    · rw [hy, update_self] at ht
      rw [hy]
      exact (List.mem_cons.1 ht).symm
    · rw [update_of_ne hy] at ht
      exact Or.inl (mem_update_remove hsplit ht)
  refine ⟨_, hpop, rfl, hblocked, ?_, ?_⟩
  · intro hfree
    refine threadUnblock_of_blocked (Or.inl hblocked) hfree (hlists.holds .ready) ?_ ?_
    · rw [List.length_map, hready]
      exact h.length_le .ready
    · intro hm
      exact hun .ready Iff.rfl (mem_map_tagFor (x := .ready).1 hm).2
  · have hpush := hlists.push hun
    rw [hready] at hpush
    suffices hinv : SyncInv _ (update μ m.cur (μ m.cur))
        (update (update q x right) .ready (T :: q .ready)) by
      rwa [update_eq_self] at hinv
    refine h.relink (μ m.cur) T (update_eq_self m.cur m.code).symm (h.typed _) rfl rfl
      hpush (h.spins.keep rfl) ?_ hgrow
      ⟨h.mem_tasks x T hmem, fun u _ => hlinked u⟩ ?_ ?_ h.cur_off ?_ ?_ (fun _ hT => hT)
      (fun _ hT _ => hT)
    · rw [update_of_ne (by simp), update_of_ne hx.ne_all.symm]
    · intro y hy
      rw [← h.cur_link y hy]
      constructor
      · intro hm
        exact (hgrow y m.cur hm).resolve_right (Ne.symm hne)
      · intro hm
        by_cases hyr : y = .ready
        · rw [hyr] at hm ⊢
          rw [update_self]
          exact List.mem_cons_of_mem _ hm
        · rw [update_of_ne hyr]
          by_cases hyx : y = x
          · exact absurd (hyx ▸ hm) hcur
          · rwa [update_of_ne hyx]
    · simp only [Kernel.woken, Kernel.push, Kernel.setStatus, Kernel.setTask, update_of_ne (Ne.symm hne)]
      exact h.cur_status
    · intro y t hy ht _
      have ht' : t ∈ update q x right y := by rwa [update_of_ne hy.ne_ready] at ht
      have hneT : t ≠ T := by
        rintro rfl
        exact hun y (by simp [hy.ne_all]) ht'
      refine ⟨mem_update_remove hsplit ht', ?_⟩
      simp [Kernel.woken, Kernel.push, Kernel.setStatus, Kernel.setTask, hneT]
    · intro T' hT'
      obtain ⟨hheld, hheldne, hheldun, hunique⟩ := h.held hT'
      refine ⟨hheld, hheldne, fun y hy hm => ?_, hunique⟩
      rcases hgrow y T' hm with hm | rfl
      · exact hheldun y hy hm
      · exact hlinked m.cur hT'

/-- `f` wakes the first thread of a list, if there is one: this goes through exactly when the lock of
the ready list is free, and it keeps the invariant. -/
structure Wakes (f : Kernel → Except Halt Kernel) (x : ListId) (m : Machine) (μ : Tid → Mode)
    (q : ListId → List Tid) : Prop where
  stuck : listEmpty m.k.heap (klist x) = false → m.k.occupied .readyList = true →
    ∃ halt, f m.k = .error halt
  pass : listEmpty m.k.heap (klist x) = true ∨ m.k.occupied .readyList = false →
    ∃ k q', f m.k = .ok k ∧ k.cur = m.cur ∧ k.occupied = m.k.occupied ∧
      SyncInv { m with k := k } μ q' ∧ ∀ y, y ≠ .ready → q' y ⊆ q y

theorem SyncInv.wakes (h : SyncInv m μ q) {x : ListId} (hx : x.Sleeps) (hcur : m.cur ∉ q x)
    {f : Kernel → Except Halt Kernel}
    (hempty : listEmpty m.k.heap (klist x) = true → f m.k = .ok m.k)
    (hwake : ∀ T k, listEmpty m.k.heap (klist x) = false → popThread x m.k = .ok (T, k) →
      (k.task T).status = .blocked → f m.k = threadUnblock T k) : Wakes f x m μ q := by
  cases hq : q x with
  | nil =>
      have hnone := h.lists.listEmpty_eq.2 hq
      constructor
      · intro hne
        rw [hnone] at hne
        cases hne
      · intro _
        exact ⟨m.k, q, hempty hnone, rfl, rfl, h, fun _ _ => List.Subset.refl _⟩
  | cons T right =>
      obtain ⟨k, hpop, hocc, hblocked, hunblock, hinv⟩ := h.awaken hx hq hcur
      have hsome : listEmpty m.k.heap (klist x) = false := by
        rw [Bool.eq_false_iff]
        intro he
        rw [h.lists.listEmpty_eq.1 he] at hq
        cases hq
      have hf := hwake T k hsome hpop hblocked
      constructor
      · intro _ hoccupied
        cases hresult : threadUnblock T k with
        | error halt => exact ⟨halt, hf.trans hresult⟩
        | ok k' =>
            have hfree := (threadUnblock_ok hresult).2.1
            rw [hocc, hoccupied] at hfree
            cases hfree
      · intro hor
        have hfree : m.k.occupied .readyList = false := by
          rcases hor with he | he
          · rw [hsome] at he
            cases he
          · exact he
        have hcurk : k.cur = m.cur := by rw [popThread_fields hpop]; rfl
        refine ⟨_, _, hf.trans (hunblock hfree), hcurk, hocc, hinv, fun y hy t ht => ?_⟩
        rw [update_of_ne hy] at ht
        have hnil : q x = [] ++ T :: right := hq
        exact mem_update_remove hnil ht

/-- The running thread is not asleep on a list unless it is in the window of `lockAcquire`. -/
theorem SyncInv.cur_notMem (h : SyncInv m μ q) {x : ListId} (hx : x.Sleeps)
    (hlink : (μ m.cur).link ≠ some x) : m.cur ∉ q x :=
  fun hm => hlink ((h.cur_link x hx.ne_all).1 hm)

/-- The spin locks that a put needs: the one on the waiters of its lock, and the one on the ready
list if somebody sleeps on the queue or on its lock. -/
def PutUnhindered (k : Kernel) : Prop :=
  k.occupied (.waiters keyboardLock) = false ∧
  ((listEmpty k.heap (klist (.cond condNotEmpty)) = true ∧
      listEmpty k.heap (klist (.waiters keyboardLock)) = true) ∨ k.occupied .readyList = false)

theorem SyncInv.signal_wakes (h : SyncInv m μ q) (hcond : m.cur ∉ q (.cond condNotEmpty)) :
    Wakes (signalKernel condNotEmpty) (.cond condNotEmpty) m μ q :=
  h.wakes (x := .cond condNotEmpty) trivial hcond (f := signalKernel condNotEmpty)
    (fun he => if_pos he) (fun T k hne hpop _ => by
      rw [signalKernel, if_neg (by simp [hne]), hpop]
      rfl)

theorem SyncInv.release_wakes (h : SyncInv m μ q) (hwaiters : m.cur ∉ q (.waiters keyboardLock))
    (hfree : m.k.occupied (.waiters keyboardLock) = false) :
    Wakes (releaseKernel keyboardLock) (.waiters keyboardLock) m μ q :=
  h.wakes (x := .waiters keyboardLock) trivial hwaiters (f := releaseKernel keyboardLock)
    (fun he => by rw [releaseKernel, if_neg (by simp [hfree]), if_pos he])
    (fun T k hne hpop hblocked => by
      rw [releaseKernel, if_neg (by simp [hfree]), if_neg (by simp [hne]), hpop]
      exact if_pos hblocked)

theorem releaseKernel_free {lock : LockId} {k k' : Kernel} (h : releaseKernel lock k = .ok k') :
    k.occupied (.waiters lock) = false := by
  rw [releaseKernel] at h
  split at h
  · cases h
  next hfree => simpa using hfree

theorem signalKernel_occupied {cond : CondId} {k k' : Kernel} (h : signalKernel cond k = .ok k') :
    k'.occupied = k.occupied := by
  rw [signalKernel] at h
  split at h
  · cases h
    rfl
  · obtain ⟨⟨thread, k₁⟩, hpop, hunblock⟩ := bind_ok h
    obtain ⟨-, -, rfl⟩ := threadUnblock_ok hunblock
    rw [popThread_fields hpop]
    rfl

/-- A put that has the lock and room goes through exactly when no spin lock is in its way. -/
theorem SyncInv.put_iff (h : SyncInv m μ q) (hcond : m.cur ∉ q (.cond condNotEmpty))
    (hwaiters : m.k.occupied (.waiters keyboardLock) = false → m.cur ∉ q (.waiters keyboardLock)) :
    (∀ k, putKernel m.k = .ok k → PutUnhindered m.k) ∧
    (PutUnhindered m.k → ∃ k q', putKernel m.k = .ok k ∧ k.cur = m.cur ∧
      SyncInv { m with k := k } μ q' ∧ ∀ y, y ≠ .ready → q' y ⊆ q y) := by
  obtain ⟨hstuck, hpass⟩ := h.signal_wakes hcond
  constructor
  · intro k hput
    obtain ⟨k₁, hsignal, hrelease⟩ := bind_ok hput
    have hfree := releaseKernel_free hrelease
    rw [signalKernel_occupied hsignal] at hfree
    refine ⟨hfree, ?_⟩
    by_contra hno
    have hocc : m.k.occupied .readyList = true := by
      simp only [not_or] at hno
      simpa using hno.2
    cases hempty : listEmpty m.k.heap (klist (.cond condNotEmpty)) with
    | false =>
        obtain ⟨halt, hhalt⟩ := hstuck hempty hocc
        rw [hsignal] at hhalt
        cases hhalt
    | true =>
        have hsame : signalKernel condNotEmpty m.k = .ok m.k := if_pos hempty
        obtain rfl := Except.ok.inj (hsignal.symm.trans hsame)
        have hsome : listEmpty m.k.heap (klist (.waiters keyboardLock)) = false := by
          rw [Bool.eq_false_iff]
          exact fun he => hno (Or.inl ⟨hempty, he⟩)
        obtain ⟨halt, hhalt⟩ := (h.release_wakes (hwaiters hfree) hfree).1 hsome hocc
        rw [hrelease] at hhalt
        cases hhalt
  · rintro ⟨hfree, hor⟩
    obtain ⟨k₁, q₁, hsignal, hcur₁, hocc₁, h₁, hq₁⟩ := hpass (hor.imp And.left id)
    have hfree₁ : k₁.occupied (.waiters keyboardLock) = false := by
      rw [hocc₁]
      exact hfree
    have hwaiters₁ : m.cur ∉ q₁ (.waiters keyboardLock) :=
      fun hm => hwaiters hfree (hq₁ _ (by simp) hm)
    have hcurm : ({ m with k := k₁ } : Machine).cur = m.cur := hcur₁
    have hor₁ : listEmpty k₁.heap (klist (.waiters keyboardLock)) = true ∨
        k₁.occupied .readyList = false := by
      rcases hor with ⟨hempty, hempty'⟩ | hready
      · have hsame : signalKernel condNotEmpty m.k = .ok m.k := if_pos hempty
        obtain rfl := Except.ok.inj (hsignal.symm.trans hsame)
        exact Or.inl hempty'
      · rw [hocc₁]
        exact Or.inr hready
    obtain ⟨k₂, q₂, hrelease, hcur₂, -, h₂, hq₂⟩ :=
      (h₁.release_wakes (by rw [hcurm]; exact hwaiters₁) hfree₁).2 hor₁
    refine ⟨k₂, q₂, ?_, hcur₂.trans hcur₁, h₂, fun y hy => List.Subset.trans (hq₂ y hy) (hq₁ y hy)⟩
    rw [putKernel, hsignal]
    exact hrelease

/-- The handler runs to its end: the thread goes on, nobody falls asleep, and no list of sleepers or
waiters gets a new member. -/
def Keyed.Undisturbed (s : Keyed) (byte : BitVec 8) : Prop :=
  ∃ m ioq, s.Returns byte m ioq ∧ m.cur = s.m.cur ∧
    (∀ t, (m.k.task t).status = .blocked → (s.m.k.task t).status = .blocked) ∧
    ∀ x nodes nodes', x ≠ .ready → Holds s.m.k.heap (klist x) nodes →
      Holds m.k.heap (klist x) nodes' → nodes' ⊆ nodes

/-- The key yields no character, or the put finds its lock free, the buffer not full and the spin
locks free. -/
def KeyFits (s : Keyed) (byte : BitVec 8) : Prop :=
  (scan s.kbd byte).2 = none ∨
    (s.m.holder keyboardLock = none ∧ ioqueueFull s.ioq = false ∧ PutUnhindered s.m.k)

/-- In the window of `lockAcquire` the tag is linked into the waiters, under their lock. -/
theorem Typed.link_of_inWindow {M : Mode} {code : List Instr} (h : Typed M code)
    (hw : InWindow code) :
    ∃ lock, M.spin = some (.waiters lock) ∧ M.link = some (.waiters lock) := by
  cases code with
  | nil => exact hw.elim
  | cons i rest =>
      have hpre := h.1
      cases i with
      | ifCas lock => exact ⟨lock, congrArg Mode.spin hpre, congrArg Mode.link hpre⟩
      | removeSelf lock => exact ⟨lock, congrArg Mode.spin hpre, congrArg Mode.link hpre⟩
      | intrDisable part =>
          cases part with
          | lockAcquire lock => exact ⟨lock, congrArg Mode.spin hpre, congrArg Mode.link hpre⟩
          | _ => exact hw.elim
      | _ => exact hw.elim

/-- With interrupts on, a linked tag is in the window of `lockAcquire`. -/
theorem SyncInv.link_of_on (h : SyncInv m μ q) (hintr : m.k.intr = true) {x : ListId}
    (hlink : (μ m.cur).link = some x) :
    ∃ lock, x = .waiters lock ∧ m.k.occupied (.waiters lock) = true := by
  have hon : ¬(μ m.cur).off = true := by
    intro hoff
    rw [h.cur_off hoff] at hintr
    cases hintr
  have hw : InWindow (m.code m.cur) := by
    by_contra hw
    exact hon (((h.typed m.cur).settled hw).1 (by simp [hlink]))
  obtain ⟨lock, hspin, hwindow⟩ := (h.typed m.cur).link_of_inWindow hw
  refine ⟨lock, ?_, (h.spins.occupied_iff _).2 ⟨m.cur, hspin⟩⟩
  exact Option.some.inj (hlink.symm.trans hwindow)

theorem unblocked_status {thread t : Tid} {k k' : Kernel} (h : threadUnblock thread k = .ok k')
    (ht : (k'.task t).status = .blocked) : (k.task t).status = .blocked := by
  obtain ⟨-, -, rfl⟩ := threadUnblock_ok h
  by_cases hthread : t = thread
  · rw [hthread] at ht
    simp [Kernel.woken, Kernel.push, Kernel.setStatus, Kernel.setTask] at ht
  · simpa [Kernel.woken, Kernel.push, Kernel.setStatus, Kernel.setTask, hthread] using ht

theorem signalKernel_status {cond : CondId} {k k' : Kernel} (h : signalKernel cond k = .ok k')
    {t : Tid} (ht : (k'.task t).status = .blocked) : (k.task t).status = .blocked := by
  rw [signalKernel] at h
  split at h
  · cases h
    exact ht
  · obtain ⟨⟨thread, k₁⟩, hpop, hunblock⟩ := bind_ok h
    have htask : k₁.task = k.task := by rw [popThread_fields hpop]
    rw [← htask]
    exact unblocked_status hunblock ht

theorem releaseKernel_status {lock : LockId} {k k' : Kernel} (h : releaseKernel lock k = .ok k')
    {t : Tid} (ht : (k'.task t).status = .blocked) : (k.task t).status = .blocked := by
  rw [releaseKernel] at h
  split at h
  · cases h
  split at h
  · cases h
    exact ht
  · obtain ⟨⟨thread, k₁⟩, hpop, h⟩ := bind_ok h
    have htask : k₁.task = k.task := by rw [popThread_fields hpop]
    rw [← htask]
    dsimp only at h
    by_cases hblocked : (k₁.task thread).status = .blocked
    · rw [if_pos hblocked] at h
      exact unblocked_status h ht
    · rw [if_neg hblocked] at h
      cases h
      exact ht

theorem putKernel_status {k k' : Kernel} (h : putKernel k = .ok k') {t : Tid}
    (ht : (k'.task t).status = .blocked) : (k.task t).status = .blocked := by
  obtain ⟨k₁, hsignal, hrelease⟩ := bind_ok h
  exact signalKernel_status hsignal (releaseKernel_status hrelease ht)

theorem gate_code (s : Keyed) : s.m.gate.code s.m.gate.cur = s.base :=
  update_self _ _ _

theorem returns_none {byte : BitVec 8} (hscan : (scan s.kbd byte).2 = none) {ioq' : Ioqueue} :
    s.Returns byte m' ioq' ↔ m' = s.m.gate ∧ ioq' = s.ioq := by
  rw [Keyed.Returns, Keyed.handling, hscan]
  have hends : Ends s.base ⟨s.m.gate, s.ioq, []⟩ (.returned m' ioq') ↔ _ := ends_nil (gate_code s)
  simpa using hends

/-- A character goes in when the lock is free and the buffer has room, and the put goes through. -/
theorem returns_some {byte ch : BitVec 8} (hscan : (scan s.kbd byte).2 = some ch) {ioq' : Ioqueue} :
    s.Returns byte m' ioq' ↔ s.m.holder keyboardLock = none ∧ ioqueueFull s.ioq = false ∧
      ∃ k, putKernel s.m.gate.k = .ok k ∧ m' = s.m.gate.afterPut k ∧
        ioq' = ioqAct (.ioqueuePutchar ch) s.ioq := by
  have hcode := gate_code s
  rw [Keyed.Returns, Keyed.handling, hscan]
  change Ends s.base ⟨s.m.gate, s.ioq, putcharCode ch⟩ _ ↔ _
  cases hheld : s.m.holder keyboardLock with
  | some holder =>
      refine iff_of_false (fun hends => ?_) (by simp)
      rcases ends_acquire_held hcode rfl hheld hends with h | ⟨_, h, -⟩ <;> cases h
  | none =>
      cases hfull : ioqueueFull s.ioq with
      | true =>
          refine iff_of_false (fun hends => ?_) (by simp)
          rw [putcharCode, ends_acquire_free hcode hheld] at hends
          set n := (s.m.gate.setHolder keyboardLock (some s.m.gate.cur)).setOwns keyboardLock true
            with hn
          have hcoden : n.code n.cur = s.base := hcode
          have hholder : n.holder keyboardLock = some n.cur := by
            simp [hn, Machine.setOwns, Machine.setHolder, Machine.cur]
          rw [ends_stmt hcoden, IoqStmt.run, if_pos hfull] at hends
          exact wait_ne_returned hcoden hholder hends _ _ rfl
      | false =>
          rw [ends_putchar hcode rfl hheld hfull]
          simp

/-- The invariant does not speak about the ghost record of owners. -/
theorem SyncInv.afterPut {k : Kernel} (h : SyncInv { m with k := k } μ q) :
    SyncInv (m.afterPut k) μ q :=
  ⟨⟨h.lists, h.spins, h.typed, h.mem_tasks, h.others, h.asleep, h.carry, h.carry_unique, h.carryAll,
    h.carryAll_unique, h.unborn⟩, h.cur_mem, h.cur_link, h.cur_status, h.cur_off⟩

theorem TagLists.subset_of_holds {h h' : ListHeap Node} {q q' : ListId → List Tid} (hq : TagLists h q)
    (hq' : TagLists h' q') {x : ListId} (hsub : q' x ⊆ q x) {nodes nodes' : List Node}
    (hnodes : Holds h (klist x) nodes) (hnodes' : Holds h' (klist x) nodes') : nodes' ⊆ nodes := by
  rw [hnodes.unique (hq.holds x), hnodes'.unique (hq'.holds x)]
  exact List.map_subset _ hsub

/-- What a key does to a thread that can be interrupted. -/
theorem SyncInv.key (h : SyncInv s.m μ q) (hintr : s.m.k.intr = true) (byte : BitVec 8) :
    (∀ m' ioq', s.Returns byte m' ioq' → KeyFits s byte ∧ ∃ μ' q', SyncInv m' μ' q') ∧
    (KeyFits s byte → s.Undisturbed byte) := by
  have hgate := h.gate hintr
  set μ' := update μ s.m.cur { μ s.m.cur with off := true } with hμ'
  cases hscan : (scan s.kbd byte).2 with
  | none =>
      constructor
      · intro m' ioq' hreturns
        obtain ⟨rfl, -⟩ := (returns_none hscan).1 hreturns
        exact ⟨Or.inl hscan, _, _, hgate⟩
      · intro _
        refine ⟨_, _, (returns_none hscan).2 ⟨rfl, rfl⟩, rfl, fun _ ht => ht, ?_⟩
        intro x nodes nodes' _ hnodes hnodes'
        exact h.lists.subset_of_holds hgate.lists (List.Subset.refl _) hnodes hnodes'
  | some ch =>
      have hlink : (μ' s.m.gate.cur).link = (μ s.m.cur).link := by
        rw [hμ', show s.m.gate.cur = s.m.cur from rfl, update_self]
      have hcond : s.m.gate.cur ∉ q (.cond condNotEmpty) := by
        refine hgate.cur_notMem trivial fun he => ?_
        obtain ⟨lock, hx, -⟩ := h.link_of_on hintr (hlink.symm.trans he)
        cases hx
      have hwaiters : s.m.gate.k.occupied (.waiters keyboardLock) = false →
          s.m.gate.cur ∉ q (.waiters keyboardLock) := by
        intro hfree
        refine hgate.cur_notMem trivial fun he => ?_
        obtain ⟨lock, hx, hocc⟩ := h.link_of_on hintr (hlink.symm.trans he)
        obtain rfl := ListId.waiters.inj hx
        exact absurd (hocc.symm.trans hfree) (by simp)
      obtain ⟨hfits, hput⟩ := hgate.put_iff hcond hwaiters
      constructor
      · intro m' ioq' hreturns
        obtain ⟨hfree, hfull, k, hk, rfl, -⟩ := (returns_some hscan).1 hreturns
        have hunhindered : PutUnhindered s.m.gate.k := hfits k hk
        refine ⟨Or.inr ⟨hfree, hfull, hunhindered⟩, ?_⟩
        obtain ⟨k', q', hk', -, hinv, -⟩ := hput hunhindered
        rw [hk] at hk'
        obtain rfl := Except.ok.inj hk'
        exact ⟨_, _, hinv.afterPut⟩
      · rintro (hnone | ⟨hfree, hfull, hunhindered⟩)
        · rw [hscan] at hnone
          cases hnone
        obtain ⟨k, q', hk, hcur, hinv, hsub⟩ := hput hunhindered
        refine ⟨_, _, (returns_some hscan).2 ⟨hfree, hfull, k, hk, rfl, rfl⟩, hcur, ?_, ?_⟩
        · intro t ht
          exact putKernel_status hk ht
        · intro x nodes nodes' hx hnodes hnodes'
          exact h.lists.subset_of_holds hinv.lists (hsub x hx) hnodes hnodes'

theorem SyncInv.undisturbed_iff (h : SyncInv s.m μ q) (hintr : s.m.k.intr = true) (byte : BitVec 8) :
    s.Undisturbed byte ↔ KeyFits s byte := by
  obtain ⟨hreturns, hfits⟩ := h.key hintr byte
  refine ⟨?_, hfits⟩
  rintro ⟨m', ioq', hreturned, -⟩
  exact (hreturns m' ioq' hreturned).1

/-- No timer interrupt ends a slice from the `listAppend` of `lockAcquire` through the `listRemove` or `intrDisable`
after it. List operations are one step. -/
def KeysSpared (s : Keyed) : KeyEvent → Prop
  | .base e => WindowSpared s.m e
  | _ => True

/-- The calls of a queue operation create no thread. -/
def Paged (prog : List IoqStmt) : Prop := ∀ f, IoqStmt.call f ∈ prog → f.page = []

structure KeyInv (s : Keyed) : Prop where
  sync : ∃ μ q, SyncInv s.m μ q
  paged : ∀ t, Paged (s.prog t)

theorem paged_getcharCode : Paged getcharCode := by
  intro f hf
  simp only [getcharCode, List.mem_cons, IoqStmt.call.injEq, reduceCtorEq, List.not_mem_nil,
    false_or, or_false] at hf
  rcases hf with rfl | rfl | rfl <;> rfl

theorem Paged.run {c : Handling} {i : IoqStmt} (h : Paged (i :: c.prog)) : Paged (i.run c).prog := by
  have hrest : Paged c.prog := fun f hf => h f (List.mem_cons_of_mem _ hf)
  have hwait : ∀ cond, Paged (.call (.conditionWait cond keyboardLock) :: i :: c.prog) := by
    intro cond f hf
    rcases List.mem_cons.1 hf with he | hf
    · cases he
      rfl
    · exact h f hf
  cases i with
  | call f => exact hrest
  | whileEmpty =>
      rw [IoqStmt.run]
      split
      · exact hwait condNotEmpty
      · exact hrest
  | whileFull =>
      rw [IoqStmt.run]
      split
      · exact hwait condNotFull
      · exact hrest
  | get => exact hrest
  | put ch => exact hrest

theorem KeyInv.event {s s' : Keyed} (h : KeyInv s) {e : KeyEvent} (henabled : e.Enabled s)
    (hspared : KeysSpared s e) (hrun : e.Run s s') : KeyInv s' := by
  obtain ⟨⟨μ, q, hinv⟩, hpaged⟩ := h
  have hprog : ∀ prog, Paged prog → ∀ t, Paged (update s.prog s.m.cur prog t) := by
    intro prog hp t
    by_cases ht : t = s.m.cur
    · rw [ht, update_self]
      exact hp
    · rw [update_of_ne ht]
      exact hpaged t
  cases hrun with
  | base hrun =>
      obtain ⟨μ', q', hinv', -⟩ := hinv.event henabled.1 hspared hrun
      exact ⟨⟨μ', q', hinv'⟩, hpaged⟩
  | getchar => exact ⟨⟨μ, q, hinv⟩, hprog _ paged_getcharCode⟩
  | @stmt i rest c hi hc =>
      have hhere : Paged (i :: rest) := hi ▸ hpaged s.m.cur
      subst hc
      refine ⟨?_, hprog _ (Paged.run (c := ⟨s.m, s.ioq, rest⟩) hhere)⟩
      cases i with
      | call f =>
          have hpage : f.page = [] := hhere f List.mem_cons_self
          have hrun : Event.run s.m (.call f) = .ok (s.m.enter f) := by
            rw [Event.run, hpage, List.append_nil]
          obtain ⟨μ', hinv'⟩ := hinv.call ⟨henabled.1, by simp [hpage]⟩ hrun
          exact ⟨μ', q, hinv'⟩
      | whileEmpty => rw [IoqStmt.run]; split <;> exact ⟨μ, q, hinv⟩
      | whileFull => rw [IoqStmt.run]; split <;> exact ⟨μ, q, hinv⟩
      | get => exact ⟨μ, q, hinv⟩
      | put ch => exact ⟨μ, q, hinv⟩
  | @key byte m' ioq' hreturns =>
      exact ⟨((hinv.key henabled byte).1 m' ioq' hreturns).2, hpaged⟩

theorem Keyed.Reached.mono {allowed allowed' : Keyed → KeyEvent → Prop}
    (himp : ∀ s e, allowed s e → allowed' s e) {s : Keyed} (h : Keyed.Reached allowed s) :
    Keyed.Reached allowed' s := by
  obtain ⟨s₀, hboot, hioq, hprog, hrun⟩ := h
  refine ⟨s₀, hboot, hioq, hprog, Relation.ReflTransGen.mono ?_ _ _ hrun⟩
  rintro a b ⟨e, henabled, hallowed, he⟩
  exact ⟨e, henabled, himp a e hallowed, he⟩

theorem Keyed.Reached.inv {s : Keyed} (h : Keyed.Reached KeysSpared s) : KeyInv s := by
  obtain ⟨s₀, hboot, -, hprog, hrun⟩ := h
  induction hrun with
  | refl =>
      obtain ⟨q, hinv⟩ := booted_inv hboot
      refine ⟨⟨_, q, hinv⟩, fun t f hf => ?_⟩
      rw [hprog] at hf
      cases hf
  | tail _ hlast ih =>
      obtain ⟨e, henabled, hspared, he⟩ := hlast
      exact ih.event henabled hspared he

/-- In every run with the window spared, a key at any point where interrupts are on leaves the thread
it interrupts alone exactly when it fits. -/
theorem keyboard_undisturbed_iff {s : Keyed} (h : Keyed.Reached KeysSpared s)
    (hintr : s.m.k.intr = true) (byte : BitVec 8) : s.Undisturbed byte ↔ KeyFits s byte := by
  obtain ⟨⟨μ, q, hinv⟩, -⟩ := h.inv
  exact hinv.undisturbed_iff hintr byte

/-- An event other than a key, carried out. -/
def KeyEvent.next (e : KeyEvent) (s : Keyed) : Option Keyed :=
  match e with
  | .base e =>
      match e.run s.m with
      | .ok m' => some { s with m := m' }
      | .error _ => none
  | .getchar => some { s with prog := update s.prog s.m.cur getcharCode }
  | .stmt =>
      match s.prog s.m.cur with
      | [] => none
      | i :: rest =>
          let c := i.run ⟨s.m, s.ioq, rest⟩
          some { s with m := c.m, ioq := c.ioq, prog := update s.prog s.m.cur c.prog }
  | .key _ => none

theorem KeyEvent.next_run {e : KeyEvent} {s s' : Keyed} (h : e.next s = some s') : e.Run s s' := by
  cases e with
  | base e =>
      rw [next] at h
      split at h
      next hrun =>
        cases h
        exact .base hrun
      next => cases h
  | getchar =>
      cases h
      exact .getchar
  | stmt =>
      rw [next] at h
      split at h
      next => cases h
      next hprog =>
        cases h
        exact .stmt hprog rfl
  | key byte => cases h

/-- Enabled, and neither a key nor a tick. -/
def KeyEvent.playable (s : Keyed) : KeyEvent → Bool
  | .base e => untimed s.m e ∧ e.Enabled s.m ∧ (s.prog s.m.cur = [] ∨ e = .step)
  | .getchar => s.m.code s.m.cur = [] ∧ s.prog s.m.cur = []
  | .stmt => s.m.code s.m.cur = [] ∧ s.prog s.m.cur ≠ []
  | .key _ => false

theorem KeyEvent.playable_step {e : KeyEvent} {s s' : Keyed} (h : e.playable s = true)
    (hnext : e.next s = some s') : Keyed.Step KeysSpared s s' := by
  refine ⟨e, ?_, ?_, next_run hnext⟩
  · cases e with
    | base e =>
        obtain ⟨-, henabled, hprog⟩ := of_decide_eq_true h
        exact ⟨henabled, hprog.imp_right Or.inl⟩
    | getchar =>
        have hidle := of_decide_eq_true h
        exact hidle
    | stmt =>
        have hinside := of_decide_eq_true h
        exact hinside
    | key byte => cases h
  · cases e with
    | base e =>
        obtain ⟨huntimed, -⟩ := of_decide_eq_true h
        exact fun htick => absurd htick (of_decide_eq_true huntimed)
    | _ => trivial

/-- The state after a list of such events. -/
def keyPlay : List KeyEvent → Keyed → Option Keyed
  | [], s => some s
  | e :: es, s => if e.playable s then (e.next s).bind (keyPlay es) else none

theorem keyPlay_steps {es : List KeyEvent} {s s' : Keyed} (h : keyPlay es s = some s') :
    Relation.ReflTransGen (Keyed.Step KeysSpared) s s' := by
  induction es generalizing s with
  | nil =>
      cases h
      exact .refl
  | cons e es ih =>
      rw [keyPlay] at h
      split at h
      next hplayable =>
        obtain ⟨s₁, hnext, hrest⟩ := Option.bind_eq_some_iff.1 h
        exact .head (e.playable_step hplayable hnext) (ih hrest)
      next => cases h

def keyBoot : Keyed where
  m := bootMachine 1 bootKernel
  ioq := ioqueueInit fun _ => 0
  kbd := ⟨false, false, false, false, false⟩
  prog _ := []

theorem keyPlay_reached {es : List KeyEvent} {s : Keyed} (h : keyPlay es keyBoot = some s) :
    Keyed.Reached KeysSpared s :=
  ⟨keyBoot, booted_bootMachine 1 bootKernel, ⟨_, rfl⟩, fun _ => rfl, keyPlay_steps h⟩

/-- The main thread, with interrupts on, is inside `ioqueueGetchar` with the lock just taken. -/
def insideGetchar : List KeyEvent :=
  [.base (.setIntr true), .getchar, .stmt, .base .step, .base .step]

/-- A key before the call fits, and goes through. -/
theorem keyboard_undisturbed_run : ∃ s, keyPlay [.base (.setIntr true), .getchar] keyBoot = some s ∧
    (scan s.kbd 0x1e).2 = some 97 ∧ s.Undisturbed 0x1e := by
  have hend : (keyPlay [.base (.setIntr true), .getchar] keyBoot).map (fun s =>
      (decide (s.m.k.intr = true), decide ((scan s.kbd 0x1e).2 = some 97),
        decide (s.m.holder keyboardLock = none), ioqueueFull s.ioq,
        s.m.k.occupied (.waiters keyboardLock), s.m.k.occupied .readyList)) =
      some (true, true, true, false, false, false) := by
    decide +kernel
  obtain ⟨s, hs, hfields⟩ := Option.map_eq_some_iff.1 hend
  simp only [Prod.mk.injEq, decide_eq_true_eq] at hfields
  obtain ⟨hintr, hscan, hholder, hfull, hwaiters, hready⟩ := hfields
  refine ⟨s, hs, hscan, ?_⟩
  rw [keyboard_undisturbed_iff (keyPlay_reached hs) hintr]
  exact Or.inr ⟨hholder, hfull, hwaiters, Or.inr hready⟩

def anyKey (_ : Keyed) (_ : KeyEvent) : Prop := True

/-- A key that comes while the main thread holds the lock puts it to sleep on its own lock. -/
theorem keyboard_undisturbed_broken : ¬∀ s, Keyed.Reached anyKey s → s.m.k.intr = true →
    ∀ byte, s.Undisturbed byte := by
  intro hall
  have hend : (keyPlay insideGetchar keyBoot).map (fun s =>
      (decide (s.m.k.intr = true), decide ((scan s.kbd 0x1e).2 = none), s.m.holder keyboardLock)) =
      some (true, false, some 1) := by
    decide +kernel
  obtain ⟨s, hs, hfields⟩ := Option.map_eq_some_iff.1 hend
  simp only [Prod.mk.injEq, decide_eq_true_eq, decide_eq_false_iff_not] at hfields
  obtain ⟨hintr, hscan, hholder⟩ := hfields
  have hreached := keyPlay_reached hs
  obtain ⟨⟨μ, q, hinv⟩, -⟩ := hreached.inv
  have hfits : ¬KeyFits s 0x1e := by
    rintro (hnone | ⟨hfree, -⟩)
    · exact hscan hnone
    · rw [hholder] at hfree
      cases hfree
  exact hfits ((hinv.undisturbed_iff hintr 0x1e).1
    (hall s (hreached.mono fun _ _ _ => trivial) hintr 0x1e))

end HoloOS
