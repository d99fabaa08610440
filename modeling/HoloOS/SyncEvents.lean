import HoloOS.SyncInvariant
import HoloOS.ThreadScheduler

/-! The invariant of the statement machine over whole runs: the boot states have it, and every event
keeps it that does not end the slice of a thread in the window of `lockAcquire`. -/

namespace HoloOS

open Function Linked

/-- No timer interrupt ends the slice of a thread between the `listAppend` of `lockAcquire` and the
`listRemove` or `intrDisable` after it. -/
def WindowSpared (m : Machine) (e : Event) : Prop :=
  e = .tick → m.SliceEnds → ¬InWindow (m.code m.cur)

variable {m m' : Machine} {μ : Tid → Mode} {q : ListId → List Tid}

/-- A thread that can be interrupted has the status `TASK_RUNNING`. -/
theorem Typed.running_of_on {M : Mode} {code : List Instr} (h : Typed M code) (hoff : M.off = false) :
    M.status = .running := by
  by_cases hw : InWindow code
  · cases code with
    | nil => exact hw.elim
    | cons i rest =>
        have hpre := h.1
        cases i with
        | ifCas lock => exact congrArg Mode.status hpre
        | removeSelf lock => exact congrArg Mode.status hpre
        | intrDisable part =>
            cases part with
            | lockAcquire lock => exact congrArg Mode.status hpre
            | _ => exact hw.elim
        | _ => exact hw.elim
  · by_contra hne
    have hon := (h.settled hw).2 hne
    rw [hoff] at hon
    cases hon

theorem sameLists_ticked (k : Kernel) : SameLists k k.ticked := by
  refine ⟨rfl, rfl, rfl, fun t => ?_⟩
  by_cases ht : t = k.cur
  · simp [Kernel.ticked, Kernel.setTask, ht]
  · simp [Kernel.ticked, Kernel.setTask, ht]

/-- The machine at the entry of the interrupt handler, its counters updated. -/
def Machine.interrupted (m : Machine) : Machine :=
  { m with k := Kernel.ticked { m.k with intr := false } }.push [.iret true]

theorem interrupted_code (m : Machine) :
    m.interrupted.code = update m.code m.cur (.iret true :: m.code m.cur) := rfl

theorem SyncInv.interrupted (h : SyncInv m μ q) (hintr : m.k.intr = true) :
    SyncInv m.interrupted (update μ m.cur { μ m.cur with off := true }) q := by
  have hoff : (μ m.cur).off = false := by
    rw [Bool.eq_false_iff]
    intro he
    rw [h.cur_off he] at hintr
    cases hintr
  have htyped := h.typed m.cur
  have hrun := htyped.running_of_on hoff
  have hback : (Instr.iret true).post { μ m.cur with off := true } = μ m.cur := by
    change ({ μ m.cur with off := false } : Mode) = μ m.cur
    rw [← hoff]
  have hsame := sameLists_ticked { m.k with intr := false }
  refine h.keep _ _ (interrupted_code m) ?_ ⟨hsame.heap, hsame.tasks, hsame.cur, hsame.status⟩
    (h.spins.keep rfl) ((Mode.Follows.refl _).weaken true) (fun _ => rfl)
  refine ⟨⟨⟨fun _ => rfl, fun _ => rfl⟩, hrun⟩, ?_⟩
  rw [hback]
  exact htyped

theorem SyncInv.tick (h : SyncInv m μ q) (hintr : m.k.intr = true)
    (hspared : WindowSpared m .tick) (hrun : Event.run m .tick = .ok m') :
    ∃ μ' q', SyncInv m' μ' q' ∧ (∀ x, x ≠ .ready → q' x = q x) ∧
      (m.SliceEnds → Unlinked q' .ready m'.cur) := by
  have hinv := h.interrupted hintr
  obtain ⟨k', hhandler, hm'⟩ := bind_ok hrun
  cases hm'
  rw [intrTimerHandler_eq] at hhandler
  split at hhandler
  case isTrue hends =>
    have hoff : (μ m.cur).off = false := by
      rw [Bool.eq_false_iff]
      intro he
      rw [h.cur_off he] at hintr
      cases hintr
    have hlink : (μ m.cur).link = none := by
      by_contra hne
      have hon := ((h.typed m.cur).settled (hspared rfl hends)).1 hne
      rw [hoff] at hon
      cases hon
    have hmode : update μ m.cur { μ m.cur with off := true } m.interrupted.cur =
        { μ m.cur with off := true } := update_self _ _ _
    have htyped := hinv.typed m.interrupted.cur
    rw [hmode] at htyped
    set μ₁ := update μ m.cur { μ m.cur with off := true } with hμ₁
    suffices hswitch : ∃ q', SyncInv { m.interrupted with k := k' }
        (update μ₁ m.interrupted.cur { μ m.cur with off := true }) q' ∧
        (∀ x, x ≠ .ready → q' x = q x) ∧ Unlinked q' .ready k'.cur by
      obtain ⟨q', h', hq', hun⟩ := hswitch
      exact ⟨_, q', h', hq', fun _ => hun⟩
    refine hinv.switch { μ m.cur with off := true } hhandler
      (update_eq_self m.interrupted.cur m.interrupted.code).symm htyped ?_ hlink ?_ ?_ ?_ ?_ ?_
    · rw [hmode]
    · exact (h.typed m.cur).running_of_on hoff
    · rw [hmode]
      exact fun T hT => hT
    · rw [hmode]
      exact fun T hT => hT
    · rw [hmode]
      exact fun _ => hlink
    · rw [hmode]
      intro x hx
      simp [hlink] at hx
  case isFalse hlasts =>
    cases hhandler
    exact ⟨_, _, hinv, fun _ _ => rfl, fun hends => absurd hends hlasts⟩

/-- Outside of any call the mode is idle. -/
theorem SyncInv.idle (h : SyncInv m μ q) (hcode : m.code m.cur = []) : (μ m.cur).Idle := by
  have ht := h.typed m.cur
  rwa [hcode] at ht

/-- Pages handed out are unknown to every list and every hand. -/
theorem SyncInv.handOut (h : SyncInv m μ q) (pages : List Tid) :
    SyncInv { m with k := { m.k with tasks := m.k.tasks ++ pages } } μ q where
  lists := h.lists
  spins := h.spins
  typed := h.typed
  mem_tasks x t ht := List.mem_append_left _ (h.mem_tasks x t ht)
  others := h.others
  asleep := h.asleep
  carry u T hT := ⟨List.mem_append_left _ (h.carry u T hT).1, (h.carry u T hT).2⟩
  carry_unique := h.carry_unique
  carryAll u T hT := ⟨List.mem_append_left _ (h.carryAll u T hT).1, (h.carryAll u T hT).2⟩
  carryAll_unique := h.carryAll_unique
  unborn T hT := h.unborn T (hT.imp_left fun hnot hm => hnot (List.mem_append_left _ hm))
  cur_mem := List.mem_append_left _ h.cur_mem
  cur_link := h.cur_link
  cur_status := h.cur_status
  cur_off := h.cur_off

theorem enter_code (m : Machine) (f : Fn) :
    (m.enter f).code = update m.code m.cur (f.body ++ .ret f :: m.code m.cur) := by
  cases f <;> simp [Machine.enter, Machine.push, Machine.setCode, Machine.setOwns, Machine.cur]

theorem enter_k (m : Machine) (f : Fn) : (m.enter f).k = m.k := by
  cases f <;> rfl

/-- A call from outside of any call, made with pages that no thread has. -/
theorem SyncInv.enterNew (h : SyncInv m μ q) {f : Fn} {rest : List Instr}
    (hcode : m.code m.cur = rest) (hidle : (μ m.cur).Idle) (hrest : Typed {} rest)
    (hpage : ∀ T ∈ f.page, T ∈ m.k.tasks ∧ T ≠ m.cur ∧ (∀ x, T ∉ q x) ∧
      (μ T).Idle ∧ ∀ u, (μ u).carry ≠ some T ∧ (μ u).carryAll ≠ some T) :
    ∃ μ', SyncInv (m.enter f) μ' q := by
  have hM : μ m.cur = { off := (μ m.cur).off } := hidle
  by_cases hf : ∀ lock, f ≠ .lockRelease lock
  · have hmode : f.mode.link = none ∧ f.mode.status = .running ∧ f.mode.off = false ∧
        f.mode.spin = none ∧ (∀ T, f.mode.carry = some T → T ∈ f.page) ∧
        ∀ T, f.mode.carryAll = some T → T ∈ f.page := by
      cases f <;> simp [Fn.mode, Fn.page]
    obtain ⟨hlink, hstatus, hoff, hspin, hcarry, hcarryAll⟩ := hmode
    refine ⟨_, h.move f.mode (enter_code m f) (hcode ▸ typed_body hf hrest) (by rw [enter_k])
      (by rw [enter_k]) (by rw [enter_k]; exact h.lists) ?_ h.mem_tasks ?_ ?_ (by simp [hoff]) ?_ ?_
      ?_ (fun u T _ hT => (h.carry u T hT).2.2) (fun u T _ hT => (h.carryAll u T hT).2)
      (fun T hT _ => (hpage T (hcarry T hT)).2.2.2.1)⟩
    · rw [enter_k]
      exact h.spins.keep (hspin.trans (congrArg Mode.spin hM).symm)
    · intro x hx
      rw [h.cur_link x hx, hlink, hM]
    · rw [enter_k, h.cur_status, hstatus, hM]
    · intro x t _ ht _
      rw [enter_k]
      exact ⟨ht, rfl⟩
    · intro T hT
      obtain ⟨hmem, hne, hnot, -, hfree⟩ := hpage T (hcarry T hT)
      exact ⟨hmem, hne, fun y _ => hnot y, fun u _ => (hfree u).1⟩
    · intro T hT
      obtain ⟨hmem, -, hnot, -, hfree⟩ := hpage T (hcarryAll T hT)
      exact ⟨hmem, fun y _ => hnot y, fun u _ => (hfree u).2⟩
  · obtain ⟨lock, rfl⟩ : ∃ lock, f = .lockRelease lock := by
      by_contra hne
      exact hf fun lock he => hne ⟨lock, he⟩
    refine ⟨_, h.keep {} _ (enter_code m _) ?_ ?_ ?_ (hidle.follows rfl rfl rfl rfl) (by simp)⟩
    · rw [hcode]
      exact typed_lockRelease (Mode.Idle.calm (rfl : Mode.Idle {})) hrest
    · rw [enter_k]
      exact .refl _
    · rw [enter_k]
      exact h.spins.keep (congrArg Mode.spin hM).symm

theorem SyncInv.call (h : SyncInv m μ q) {f : Fn} (henabled : (Event.call f).Enabled m)
    (hrun : Event.run m (.call f) = .ok m') : ∃ μ', SyncInv m' μ' q := by
  obtain ⟨hcode, hfresh⟩ := henabled
  cases hrun
  refine (h.handOut f.page).enterNew hcode (h.idle hcode) rfl ?_
  intro T hT
  refine ⟨List.mem_append_right _ hT, ?_, ?_, h.unborn T (Or.inl (hfresh T hT)), ?_⟩
  · rintro rfl
    exact hfresh _ hT h.cur_mem
  · exact fun x hx => hfresh T hT (h.mem_tasks x T hx)
  · exact fun u => ⟨fun hu => hfresh T hT (h.carry u T hu).1,
      fun hu => hfresh T hT (h.carryAll u T hu).1⟩

theorem SyncInv.int80 (h : SyncInv m μ q) {lock : LockId} (hcode : m.code m.cur = [])
    (hrun : Event.run m (.int80 lock) = .ok m') : ∃ μ', SyncInv m' μ' q := by
  have hidle := h.idle hcode
  cases hrun
  have hentered : SyncInv ({ m with k := { m.k with intr := false } }.push [.iret m.k.intr])
      (update μ m.cur {}) q := by
    refine h.keep {} [.iret m.k.intr] ?_ ?_ (.of_fields rfl rfl rfl rfl)
      (h.spins.keep (congrArg Mode.spin hidle).symm) (hidle.follows rfl rfl rfl rfl) (by simp)
    · have hcode' : m.code m.k.cur = [] := hcode
      simp [Machine.push, Machine.setCode, Machine.cur, hcode']
    · simp [Instr.Pre, Instr.post, Mode.Settled, Mode.Idle]
  have hmode : Mode.Idle (update μ m.cur {} m.cur) := by
    rw [update_self]
    rfl
  have hpushed : (({ m with k := { m.k with intr := false } }).push [.iret m.k.intr]).code m.cur =
      [.iret m.k.intr] := by
    have hcode' : m.code m.k.cur = [] := hcode
    simp [Machine.push, Machine.setCode, Machine.cur, hcode']
  refine hentered.enterNew hpushed ?_ ?_ ?_
  · exact hmode
  · simp [Instr.Pre, Instr.post, Mode.Settled, Mode.Idle]
  · intro T hT
    simp [Fn.page] at hT

theorem SyncInv.setIntr (h : SyncInv m μ q) {status : Bool} (hcode : m.code m.cur = [])
    (hrun : Event.run m (.setIntr status) = .ok m') : ∃ μ', SyncInv m' μ' q := by
  have hidle := h.idle hcode
  cases hrun
  exact ⟨_, h.keep {} [] (by rw [← hcode, update_eq_self]) rfl (.of_fields rfl rfl rfl rfl)
    (h.spins.keep (congrArg Mode.spin hidle).symm) (hidle.follows rfl rfl rfl rfl) (by simp)⟩

theorem SyncInv.length_le (h : SyncInv m μ q) (x : ListId) :
    (q x).length ≤ m.k.tasks.length :=
  (List.Nodup.subperm (h.lists.nodup x) fun t ht => h.mem_tasks x t ht).length_le

/-- Taking a ready thread to the front. -/
theorem SyncInv.promote (h : SyncInv m μ q) {t : Tid} (henabled : (Event.promote t).Enabled m)
    (hrun : Event.run m (.promote t) = .ok m') :
    ∃ μ' ts, SyncInv m' μ' (update q .ready ts) := by
  have hmem : t ∈ q .ready := by
    have hexist := h.lists.listExist_tag (x := .ready) (t := t)
      (Nat.lt_succ_of_le (h.length_le .ready))
    simpa using hexist.symm.trans henabled
  obtain ⟨left, right, hsplit⟩ := List.append_of_mem hmem
  have hun := h.lists.unlinked_remove hsplit (by simp) (show ListId.ready ≠ .all by simp)
  have hlists := (h.lists.remove hsplit).push hun
  rw [update_self, update_idem] at hlists
  have hiff : ∀ x v, v ∈ update q .ready (t :: (left ++ right)) x ↔ v ∈ q x := by
    intro x v
    by_cases hx : x = .ready
    · subst hx
      rw [update_self, hsplit]
      simp [or_left_comm]
    · rw [update_of_ne hx]
  cases hrun
  refine ⟨_, _, h.relink (μ m.cur) m.cur (update_eq_self m.cur m.code).symm (h.typed _) rfl rfl
    hlists (h.spins.keep rfl) (update_of_ne (by simp) _ _)
    (fun x v hv => Or.inl ((hiff x v).1 hv)) h.cur_not_carried ?_ h.cur_status h.cur_off
    (fun x v _ hv _ => ⟨(hiff x v).1 hv, rfl⟩) ?_ (fun T hT => hT) (fun T hT _ => hT)⟩
  · intro x hx
    rw [hiff]
    exact h.cur_link x hx
  · intro T hT
    obtain ⟨hT₁, hT₂, hT₃, hT₄⟩ := h.held hT
    exact ⟨hT₁, hT₂, fun y hy hm => hT₃ y hy ((hiff y T).1 hm), hT₄⟩

/-- The lists an event may change. -/
def Event.Moves (m : Machine) : Event → ListId → Prop
  | .step, x => ∀ i ∈ (m.code m.cur).head?, i.Moves x
  | .tick, x => x = .ready
  | .promote _, x => x = .ready
  | _, _ => False

/-- Every allowed event keeps the invariant. -/
theorem SyncInv.event (h : SyncInv m μ q) {e : Event} (henabled : e.Enabled m)
    (hspared : WindowSpared m e) (hrun : e.run m = .ok m') :
    ∃ μ' q', SyncInv m' μ' q' ∧ ∀ x, ¬e.Moves m x → q' x = q x := by
  have hsame : (∃ μ', SyncInv m' μ' q) →
      ∃ μ' q', SyncInv m' μ' q' ∧ ∀ x, ¬e.Moves m x → q' x = q x := by
    rintro ⟨μ', h'⟩
    exact ⟨μ', q, h', fun _ _ => rfl⟩
  cases e with
  | step =>
      cases hcode : m.code m.cur with
      | nil => exact absurd hcode henabled
      | cons i rest =>
          simp only [Event.run, hcode] at hrun
          obtain ⟨μ', q', h', hq'⟩ := h.exec hcode hrun
          exact ⟨μ', q', h', fun x hx => hq' x fun hi => hx (by simpa [Event.Moves, hcode] using hi)⟩
  | tick =>
      obtain ⟨μ', q', h', hq', -⟩ := h.tick henabled hspared hrun
      exact ⟨μ', q', h', hq'⟩
  | call f => exact hsame (h.call henabled hrun)
  | int80 lock => exact hsame (h.int80 henabled hrun)
  | setIntr status => exact hsame (h.setIntr henabled hrun)
  | promote t =>
      obtain ⟨μ', ts, h'⟩ := h.promote henabled hrun
      exact ⟨μ', _, h', fun x hx => update_of_ne hx _ _⟩

theorem tagLists_initHeap : TagLists initHeap (fun _ => []) where
  holds x := Seq.empty (by simp) (by simp [initHeap]) (by simp [initHeap])
  disjoint x y t _ _ ht := by simp at ht

theorem TagLists.listInit {h : ListHeap Node} {q : ListId → List Tid} (hq : TagLists h q)
    (x : ListId) : TagLists (HoloOS.listInit .null h (klist x)) (update q x []) where
  holds y := by
    by_cases hy : y = x
    · subst hy
      rw [update_self]
      exact holds_listInit _ _ (by simp)
    · rw [update_of_ne hy]
      exact holds_listInit_of_outside _ (hq.holds y)
        ⟨by simpa using Ne.symm hy, by simp, head_notMem_map⟩
        ⟨by simp, by simpa using Ne.symm hy, tail_notMem_map⟩
  disjoint z y t hz hy htz hty :=
    hq.disjoint_update (x := x) [] (by simp) hz hy htz hty

theorem booted_inv (hboot : Booted m) : ∃ q, SyncInv m (fun _ => {}) q := by
  obtain ⟨main, k, hinit, -, hcode, -⟩ := hboot
  rw [threadSupportInit_eq] at hinit
  have hk := Except.ok.inj hinit
  have hlists := (tagLists_initHeap.listInit .ready).listInit .all
  have hnil : update (update (fun _ => []) .ready []) .all [] = (fun _ : ListId => ([] : List Tid)) := by
    rw [update_eq_self_iff.2 (by simp), update_eq_self_iff.2 rfl]
  rw [hnil] at hlists
  have happend := hlists.append (x := .all) (t := main) (by simp [Unlinked])
  have hcur : m.cur = main := by
    rw [Machine.cur, ← hk]
    rfl
  have htasks : m.k.tasks = [main] := by rw [← hk]; rfl
  have hmem : ∀ x t, t ∈ update (fun _ : ListId => ([] : List Tid)) .all ([] ++ [main]) x →
      x = .all ∧ t = main := by
    intro x t ht
    by_cases hx : x = .all
    · subst hx
      exact ⟨rfl, by simpa using ht⟩
    · simp [hx] at ht
  refine ⟨update (fun _ => []) .all ([] ++ [main]), ⟨?_, ?_, ?_, ?_, ?_, ?_, ?_, ?_, ?_, ?_, ?_⟩,
    ?_, ?_, ?_, ?_⟩
  · rw [← hk]
    exact happend
  · rw [← hk]
    refine ⟨fun s => iff_of_false ?_ (by simp), fun _ _ _ hs => absurd hs (by simp)⟩
    simp [Kernel.append, Kernel.inited, initSlice, allocatePid, initStatus, Kernel.setTask,
      Kernel.setStatus, Kernel.supported]
  · intro t
    rw [hcode]
    rfl
  · intro x t ht
    rw [htasks, (hmem x t ht).2]
    exact List.mem_singleton.2 rfl
  · exact fun _ _ => ⟨rfl, rfl⟩
  · intro x t hx ht
    exact absurd (hmem x t ht).1 hx.ne_all
  · simp
  · simp
  · simp
  · simp
  · exact fun _ _ => rfl
  · rw [hcur, htasks]
    exact List.mem_singleton.2 rfl
  · intro x hx
    simp [hx]
  · rw [hcur, ← hk]
    change (((Kernel.supported _ main).inited main 31).task main).status = _
    rw [inited_status]
    simp [Kernel.supported]
  · simp

theorem reached_inv (h : Reached WindowSpared m) : ∃ μ q, SyncInv m μ q := by
  refine h.induct (P := fun m => ∃ μ q, SyncInv m μ q) ?_ ?_
  · intro m hboot
    obtain ⟨q, hinv⟩ := booted_inv hboot
    exact ⟨_, q, hinv⟩
  · rintro m e m' ⟨μ, q, hinv⟩ henabled hspared hrun
    obtain ⟨μ', q', hinv', -⟩ := hinv.event henabled hspared hrun
    exact ⟨μ', q', hinv'⟩

end HoloOS
