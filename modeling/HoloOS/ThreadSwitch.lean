import HoloOS.BaseX86
import Mathlib.Logic.Relation

/-! Switching threads. `switchTo` keeps the registers of its caller on the stack of the running thread and the stack
pointer in `selfKStack`, and returns on the stack of another one; `threadCreate` builds the stack of a thread that
has never run so that the same return starts it. -/

namespace HoloOS

open Function Paging X86

/-- `switchTo` up to the change of the stack; `selfKStack` is the first field of a `taskStruct`. -/
def switchSave : List Insn :=
  [.push (.reg .esi), .push (.reg .edi), .push (.reg .ebx), .push (.reg .ebp), .loadEsp .eax 20, .store .eax .esp]

def switchRestore : List Insn :=
  [.loadEsp .eax 24, .load .esp .eax, .pop .ebp, .pop .ebx, .pop .edi, .pop .esi]

/-- `switchTo(cur, next)`, from its entry to its return. -/
def switchToRun (c : Cpu) : Cpu := (run switchRestore (run switchSave c)).ret

/-- `selfKStack` after `threadInit` and `threadCreate`; it is a pointer to `uint32`. -/
def firstStack (task : Word) : Word := task + 4096 - 4 * (19 * 4) - 4 * (8 * 4)

/-- The stores of `threadCreate`, in its order. -/
def threadStackInit (task kernelThread func arg : Word) (m : Mem) : Mem :=
  let stack := (firstStack task).toNat
  [(task.toNat, firstStack task), (stack + 16, kernelThread), (stack + 24, func), (stack + 28, arg), (stack, 0),
    (stack + 4, 0), (stack + 12, 0), (stack + 8, 0)].foldl (fun m w => write m w.1 w.2) m

/-- The page of a `taskStruct`. -/
structure IsPage (t : Word) : Prop where
  aligned : t.toNat % 4096 = 0
  fits : t.toNat + 4096 < 2 ^ 32

/-- The thread `t` has called `switchTo` in the state `k` and not returned. -/
structure Parked (m : Mem) (t : Word) (k : Cpu) : Prop where
  stack : read m t.toNat = k.reg .esp - 16
  room : t.toNat + 20 ≤ (k.reg .esp).toNat
  fits : (k.reg .esp).toNat + 12 ≤ t.toNat + 4096
  ebp : read m ((k.reg .esp).toNat - 16) = k.reg .ebp
  ebx : read m ((k.reg .esp).toNat - 12) = k.reg .ebx
  edi : read m ((k.reg .esp).toNat - 8) = k.reg .edi
  esi : read m ((k.reg .esp).toNat - 4) = k.reg .esi
  own : ∀ a, (k.reg .esp).toNat ≤ a → a < t.toNat + 4096 → m a = k.mem a

/-- `selfKStack` of the thread and its stack are as they were. -/
def Spares (t : Word) (k : Cpu) (m m' : Mem) : Prop :=
  ∀ a, t.toNat ≤ a ∧ a < t.toNat + 4 ∨ (k.reg .esp).toNat - 16 ≤ a ∧ a < t.toNat + 4096 → m' a = m a

variable {c c' k : Cpu} {cur next t : Word} {m m' : Mem}

theorem Parked.spared (h : Parked m t k) (hspares : Spares t k m m') : Parked m' t k := by
  have hroom := h.room
  have hfits := h.fits
  have hread : ∀ a, (k.reg .esp).toNat - 16 ≤ a → a + 4 ≤ t.toNat + 4096 → read m' a = read m a := fun a hlo hhi =>
    read_congr fun b hb hlt => hspares b (.inr ⟨by omega, by omega⟩)
  exact
    { stack := (read_congr fun b hb hlt => hspares b (.inl ⟨hb, hlt⟩)).trans h.stack
      room := hroom
      fits := hfits
      ebp := (hread _ (by omega) (by omega)).trans h.ebp
      ebx := (hread _ (by omega) (by omega)).trans h.ebx
      edi := (hread _ (by omega) (by omega)).trans h.edi
      esi := (hread _ (by omega) (by omega)).trans h.esi
      own := fun a hlo hhi => (hspares a (.inr ⟨by omega, hhi⟩)).trans (h.own a hlo hhi) }

/-- The state of a new thread, as if it had called `switchTo`. -/
def firstState (task : Word) (c : Cpu) : Cpu := { c with reg := update (fun _ => 0) .esp (firstStack task + 16) }

/-- A call of `switchTo` on the stack of the thread `cur`. -/
structure CallsSwitch (c : Cpu) (cur next : Word) : Prop where
  this : c.top 1 = cur
  other : c.top 2 = next
  room : cur.toNat + 20 ≤ (c.reg .esp).toNat
  fits : (c.reg .esp).toNat + 12 ≤ cur.toNat + 4096

theorem CallsSwitch.frame (hcall : CallsSwitch c cur next) (hpage : IsPage cur) :
    Frame c ((c.reg .esp).toNat + 12) [c.top 0, cur, next] := by
  have hfits := hcall.fits
  have hpage := hpage.fits
  refine ⟨rfl, by omega, fun k hk => ?_⟩
  have hcases : k = 0 ∨ k = 1 ∨ k = 2 := by
    simp only [List.length_cons, List.length_nil] at hk
    omega
  rcases hcases with rfl | rfl | rfl
  · rfl
  · exact hcall.this
  · exact hcall.other

theorem switchSave_frame (hcall : CallsSwitch c cur next) (hpage : IsPage cur) :
    Frame (run switchSave c) ((c.reg .esp).toNat + 12)
        [c.reg .ebp, c.reg .ebx, c.reg .edi, c.reg .esi, c.top 0, cur, next] ∧
      (run switchSave c).seg = c.seg ∧ Parked (run switchSave c).mem cur c ∧
      ∀ a, (a < cur.toNat ∨ cur.toNat + 4 ≤ a) → (a + 16 < (c.reg .esp).toNat ∨ (c.reg .esp).toNat ≤ a) →
        (run switchSave c).mem a = c.mem a := by
  have hroom := hcall.room
  have hfits := hcall.fits
  have hframe := hcall.frame hpage
  obtain ⟨d, hd⟩ : ∃ d, d = c.pushAll [c.reg .esi, c.reg .edi, c.reg .ebx, c.reg .ebp] := ⟨_, rfl⟩
  have hpush : Frame d ((c.reg .esp).toNat + 12)
      [c.reg .ebp, c.reg .ebx, c.reg .edi, c.reg .esi, c.top 0, cur, next] := by
    rw [hd]
    exact hframe.pushAll _ (by simp; omega)
  have hwithin : Within ((c.reg .esp).toNat - 16) (c.reg .esp).toNat c.mem d.mem := by
    rw [hd]
    exact (Frame.empty c).pushAll_within _ (by simp; omega)
  have hesp : (d.reg .esp).toNat + 16 = (c.reg .esp).toNat := by
    have := hpush.room
    simp only [List.length_cons, List.length_nil] at this
    omega
  have hrun : run switchSave c =
      { d with reg := update d.reg .eax cur, mem := write d.mem cur.toNat (d.reg .esp) } := by
    have hpushes : run [.push (.reg .esi), .push (.reg .edi), .push (.reg .ebx), .push (.reg .ebp)] c = d := by
      rw [hd]
      simp only [run_cons, run_nil, Insn.exec, Src.val, pushAll_cons, pushAll_nil, ne_eq, reduceCtorEq,
        not_false_eq_true, push_reg]
    change run ([.push (.reg .esi), .push (.reg .edi), .push (.reg .ebx), .push (.reg .ebp)] ++
      [.loadEsp .eax (BitVec.ofNat 32 (4 * 5)), .store .eax .esp]) c = _
    rw [run_append, hpushes, run_cons, hpush.loadEsp .eax rfl]
    simp only [run_cons, run_nil, Insn.exec, update_self, ne_eq, reduceCtorEq, not_false_eq_true, update_of_ne]
  have hapart : ∀ a, (a < cur.toNat ∨ cur.toNat + 4 ≤ a) → (run switchSave c).mem a = d.mem a := fun a ha => by
    rw [hrun]
    exact if_neg (by omega)
  have hsaved : Frame (run switchSave c) ((c.reg .esp).toNat + 12)
      [c.reg .ebp, c.reg .ebx, c.reg .edi, c.reg .esi, c.top 0, cur, next] :=
    hpush.congr (by rw [hrun]; simp) fun a hlo _ => hapart a (by omega)
  have hsavedEsp : (run switchSave c).reg .esp = d.reg .esp := by
    rw [hrun]
    simp
  have hword : ∀ j v, [c.reg .ebp, c.reg .ebx, c.reg .edi, c.reg .esi, c.top 0, cur, next][j]? = some v →
      read (run switchSave c).mem ((c.reg .esp).toNat - 16 + 4 * j) = v := fun j v hv => by
    rw [← hsaved.top hv, Cpu.top, hsavedEsp]
    congr 1
    omega
  refine ⟨hsaved, by rw [hrun, hd]; exact pushAll_seg, ?_, fun a hself hstack => ?_⟩
  · exact
      { stack := by
          rw [hrun]
          refine (read_write_self _ _ _).trans ?_
          rw [BitVec.eq_sub_iff_add_eq]
          apply BitVec.eq_of_toNat_eq
          rw [BitVec.toNat_add, show (16 : Word).toNat = 16 from rfl, hesp, Nat.mod_eq_of_lt (c.reg .esp).isLt]
        room := hroom
        fits := hfits
        ebp := hword 0 _ rfl
        ebx := by
          rw [← hword 1 _ rfl]
          congr 1
          omega
        edi := by
          rw [← hword 2 _ rfl]
          congr 1
          omega
        esi := by
          rw [← hword 3 _ rfl]
          congr 1
          omega
        own := fun a hlo _ => (hapart a (by omega)).trans (hwithin a (by omega)) }
  · rw [hapart a hself]
    exact hwithin a (by omega)

/-- The stack that `switchTo` changes to. -/
theorem Parked.frame {d : Cpu} (hk : Parked d.mem next k) (hnext : IsPage next)
    (hesp : d.reg .esp = read d.mem next.toNat) :
    Frame d ((k.reg .esp).toNat + 4) [k.reg .ebp, k.reg .ebx, k.reg .edi, k.reg .esi, k.top 0] := by
  have hroom := hk.room
  have hfits := hk.fits
  have hpage := hnext.fits
  have hsub : (d.reg .esp).toNat = (k.reg .esp).toNat - 16 := by
    rw [hesp, hk.stack, BitVec.toNat_sub_of_le (BitVec.le_def.2 (show 16 ≤ _ by omega))]
    rfl
  have hread : ∀ j, d.top j = read d.mem ((k.reg .esp).toNat - 16 + 4 * j) := fun j => by rw [Cpu.top, hsub]
  refine ⟨by simp only [List.length_cons, List.length_nil]; omega, by omega, fun j hj => ?_⟩
  have hcases : j = 0 ∨ j = 1 ∨ j = 2 ∨ j = 3 ∨ j = 4 := by
    simp only [List.length_cons, List.length_nil] at hj
    omega
  rw [hread]
  rcases hcases with rfl | rfl | rfl | rfl | rfl
  · exact hk.ebp
  · rw [show (k.reg .esp).toNat - 16 + 4 * 1 = (k.reg .esp).toNat - 12 by omega]
    exact hk.ebx
  · rw [show (k.reg .esp).toNat - 16 + 4 * 2 = (k.reg .esp).toNat - 8 by omega]
    exact hk.edi
  · rw [show (k.reg .esp).toNat - 16 + 4 * 3 = (k.reg .esp).toNat - 4 by omega]
    exact hk.esi
  · rw [show (k.reg .esp).toNat - 16 + 4 * 4 = (k.reg .esp).toNat + 4 * 0 by omega]
    exact read_congr fun b hlo hhi => hk.own b (by omega) (by omega)

/-- `switchTo` returns to the thread that it switches to as a function that this thread has called. -/
theorem switchToRun_returns (hcall : CallsSwitch c cur next) (hpage : IsPage cur) (hnext : IsPage next)
    (hk : Parked (run switchSave c).mem next k) :
    (switchToRun c).reg .esp = k.reg .esp + 4 ∧ (switchToRun c).eip = k.top 0 ∧
      (∀ r ∈ [Reg.ebx, .ebp, .esi, .edi], (switchToRun c).reg r = k.reg r) ∧ (switchToRun c).seg = c.seg ∧
      (switchToRun c).mem = (run switchSave c).mem := by
  obtain ⟨hframe, hseg, -, -⟩ := switchSave_frame hcall hpage
  obtain ⟨e, he⟩ : ∃ e, e = run switchSave c := ⟨_, rfl⟩
  rw [← he] at hframe hseg hk ⊢
  obtain ⟨f, hf⟩ : ∃ f, f = (Insn.load .esp .eax).exec ((Insn.loadEsp .eax 24).exec e) := ⟨_, rfl⟩
  have hstate : f = { e with reg := update (update e.reg .eax next) .esp (read e.mem next.toNat) } := by
    rw [hf, show (24 : Word) = BitVec.ofNat 32 (4 * 6) from rfl, hframe.loadEsp .eax rfl]
    simp only [Insn.exec, update_self]
  have h₀ : Frame f ((k.reg .esp).toNat + 4) [k.reg .ebp, k.reg .ebx, k.reg .edi, k.reg .esi, k.top 0] := by
    have hk' : Parked f.mem next k := by
      rw [hstate]
      exact hk
    refine hk'.frame hnext ?_
    rw [hstate]
    simp
  obtain ⟨h₁, he₁⟩ := h₀.pop (r := .ebp) (by decide)
  obtain ⟨h₂, he₂⟩ := h₁.pop (r := .ebx) (by decide)
  obtain ⟨h₃, he₃⟩ := h₂.pop (r := .edi) (by decide)
  obtain ⟨h₄, he₄⟩ := h₃.pop (r := .esi) (by decide)
  obtain ⟨h₅, he₅⟩ := h₄.ret
  have hrun : switchToRun c = ((Insn.pop .esi).exec ((Insn.pop .edi).exec ((Insn.pop .ebx).exec
      ((Insn.pop .ebp).exec f)))).ret := by
    rw [switchToRun, ← he, switchRestore, run_cons, run_cons, ← hf]
    rfl
  have hesp : (switchToRun c).reg .esp = k.reg .esp + 4 := by
    have hroom := h₅.room
    have hfits := h₅.fits
    apply BitVec.eq_of_toNat_eq
    rw [hrun, BitVec.toNat_add, show (4 : Word).toNat = 4 from rfl, Nat.mod_eq_of_lt hfits]
    exact hroom
  refine ⟨hesp, ?_, fun r hr => ?_, ?_, ?_⟩
  · rw [hrun, he₅]
  · rw [hrun, he₅, he₄, he₃, he₂, he₁]
    simp only [List.mem_cons, List.not_mem_nil, or_false] at hr
    rcases hr with rfl | rfl | rfl | rfl <;> simp [Cpu.drop]
  · rw [hrun, he₅, he₄, he₃, he₂, he₁, hstate]
    exact hseg
  · rw [hrun, he₅, he₄, he₃, he₂, he₁, hstate]
    rfl

variable {task kernelThread func arg : Word}

theorem firstStack_toNat (hpage : IsPage task) : (firstStack task).toNat = task.toNat + 3664 := by
  have hfits := hpage.fits
  change (task + 4096 - 304 - 128).toNat = _
  bv_omega

theorem firstState_esp (hpage : IsPage task) : ((firstState task c).reg .esp).toNat = task.toNat + 3680 := by
  have hfits := hpage.fits
  have hstack := firstStack_toNat hpage
  have hesp : (firstState task c).reg .esp = firstStack task + 16 := by simp [firstState]
  rw [hesp, BitVec.toNat_add, hstack, show (16 : Word).toNat = 16 from rfl, Nat.mod_eq_of_lt (by omega)]

/-- The words that `threadCreate` stores. -/
theorem threadStackInit_words (kernelThread func arg : Word) (m : Mem) (hpage : IsPage task) :
    read (threadStackInit task kernelThread func arg m) task.toNat = firstStack task ∧
      (∀ j < 4, read (threadStackInit task kernelThread func arg m) (task.toNat + 3664 + 4 * j) = 0) ∧
      read (threadStackInit task kernelThread func arg m) (task.toNat + 3664 + 16) = kernelThread ∧
      read (threadStackInit task kernelThread func arg m) (task.toNat + 3664 + 24) = func ∧
      read (threadStackInit task kernelThread func arg m) (task.toNat + 3664 + 28) = arg := by
  have hstack := firstStack_toNat hpage
  simp only [threadStackInit, List.foldl_cons, List.foldl_nil, hstack]
  refine ⟨?_, fun j hj => ?_, ?_, ?_, ?_⟩
  · simp (disch := omega) only [read_write_apart, read_write_self]
  · have hcases : j = 0 ∨ j = 1 ∨ j = 2 ∨ j = 3 := by omega
    rcases hcases with rfl | rfl | rfl | rfl <;>
      simp (disch := omega) only [Nat.mul_zero, Nat.mul_one, Nat.reduceMul, Nat.add_zero, read_write_apart,
        read_write_self]
  all_goals simp (disch := omega) only [read_write_apart, read_write_self]

/-- A new thread stands as if it had called `switchTo`. -/
theorem firstState_parked (hpage : IsPage task) :
    Parked (threadStackInit task kernelThread func arg c.mem) task
      (firstState task { c with mem := threadStackInit task kernelThread func arg c.mem }) := by
  obtain ⟨hself, hzero, -⟩ := threadStackInit_words kernelThread func arg c.mem hpage
  have hesp := firstState_esp (c := { c with mem := threadStackInit task kernelThread func arg c.mem }) hpage
  have hreg : ∀ r ≠ .esp,
      (firstState task { c with mem := threadStackInit task kernelThread func arg c.mem }).reg r = 0 := fun r hr => by
    simp [firstState, hr]
  refine ⟨?_, by omega, by omega, ?_, ?_, ?_, ?_, fun _ _ _ => rfl⟩
  · rw [hself]
    simp only [firstState, update_self]
    exact (BitVec.add_sub_cancel _ _).symm
  · rw [hesp, hreg .ebp (by decide), ← hzero 0 (by omega)]
    congr 1
  · rw [hesp, hreg .ebx (by decide), ← hzero 1 (by omega)]
    congr 1
  · rw [hesp, hreg .edi (by decide), ← hzero 2 (by omega)]
    congr 1
  · rw [hesp, hreg .esi (by decide), ← hzero 3 (by omega)]
    congr 1

theorem IsPage.apart {u : Word} (ht : IsPage t) (hu : IsPage u) (hne : t ≠ u) :
    t.toNat + 4096 ≤ u.toNat ∨ u.toNat + 4096 ≤ t.toNat := by
  have haligned := ht.aligned
  have haligned' := hu.aligned
  have hnat : t.toNat ≠ u.toNat := fun h => hne (BitVec.eq_of_toNat_eq h)
  omega

theorem threadStackInit_apart (kernelThread func arg : Word) (m : Mem) (hpage : IsPage task) {a : Nat}
    (ha : a < task.toNat ∨ task.toNat + 4096 ≤ a) : threadStackInit task kernelThread func arg m a = m a := by
  have hstack := firstStack_toNat hpage
  simp only [threadStackInit, List.foldl_cons, List.foldl_nil, hstack, write]
  repeat rw [if_neg (by omega)]

/-- What changes in one page spares the threads of the others. -/
theorem Parked.spares {u : Word} (hk : Parked m t k) (ht : IsPage t) (hu : IsPage u) (hne : t ≠ u)
    (hsame : ∀ a, a < u.toNat ∨ u.toNat + 4096 ≤ a → m' a = m a) : Spares t k m m' := by
  have hroom := hk.room
  have hapart := ht.apart hu hne
  exact fun a ha => hsame a (by omega)

/-- The processor, the thread that it runs, and for each other thread the state in which it has called `switchTo`. -/
structure Threading where
  c : Cpu
  cur : Word
  left : Word → Option Cpu

/-- `threadCreate` for a new thread. -/
def Threading.create (task kernelThread func arg : Word) (s : Threading) : Threading :=
  let c := { s.c with mem := threadStackInit task kernelThread func arg s.c.mem }
  { s with c := c, left := update s.left task (some (firstState task c)) }

/-- A thread leaves alone the stacks of the others and runs with the code and stack segments of the kernel when it
switches; it calls `switchTo` on its own stack. -/
inductive SwitchStep (s : Threading) : Threading → Prop
  | work {c' : Cpu} (hseg : ∀ x ∈ [Seg.cs, .ss], c'.seg x = s.c.seg x)
      (hspares : ∀ t k, s.left t = some k → t ≠ s.cur → Spares t k s.c.mem c'.mem) : SwitchStep s { s with c := c' }
  | create {task kernelThread func arg : Word} (hpage : IsPage task) (hnew : s.left task = none)
    (hcur : task ≠ s.cur) :
      SwitchStep s (s.create task kernelThread func arg)
  | switchTo {next : Word} (hcall : CallsSwitch s.c s.cur next) (hnext : next = s.cur ∨ (s.left next).isSome) :
      SwitchStep s ⟨switchToRun s.c, next, update s.left s.cur (some s.c)⟩

def SwitchRuns : Threading → Threading → Prop := Relation.ReflTransGen SwitchStep

/-- Every thread that does not run stands where it has called `switchTo`. -/
structure SwitchInv (s : Threading) : Prop where
  cur : IsPage s.cur
  pages : ∀ t k, s.left t = some k → IsPage t
  parked : ∀ t k, s.left t = some k → t ≠ s.cur → Parked s.c.mem t k
  seg : ∀ t k, s.left t = some k → t ≠ s.cur → ∀ x ∈ [Seg.cs, .ss], s.c.seg x = k.seg x

theorem update_eq_some {left : Word → Option Cpu} {u : Word} {k' : Cpu} (hk : update left u (some k') t = some k) :
    t = u ∧ k = k' ∨ t ≠ u ∧ left t = some k := by
  by_cases ht : t = u
  · rw [ht, update_self] at hk
    exact .inl ⟨ht, (Option.some.inj hk).symm⟩
  · exact .inr ⟨ht, by rwa [update_of_ne ht] at hk⟩

/-- A call of `switchTo` leaves the other threads where they are. -/
theorem SwitchInv.others {s : Threading} (h : SwitchInv s) (hcall : CallsSwitch s.c s.cur next)
    (hk : s.left t = some k) (ht : t ≠ s.cur) : Parked (run switchSave s.c).mem t k := by
  have hroom := hcall.room
  have hfits := hcall.fits
  have hparked := h.parked t k hk ht
  refine hparked.spared (hparked.spares (h.pages t k hk) h.cur ht fun a ha => ?_)
  exact (switchSave_frame hcall h.cur).2.2.2 a (by omega) (by omega)

/-- The thread that a call of `switchTo` goes to. -/
theorem SwitchInv.target {s : Threading} (h : SwitchInv s) (hcall : CallsSwitch s.c s.cur next)
    (hnext : next = s.cur ∨ (s.left next).isSome) :
    IsPage next ∧ ∃ k, Parked (run switchSave s.c).mem next k := by
  by_cases hself : next = s.cur
  · rw [hself]
    exact ⟨h.cur, s.c, (switchSave_frame hcall h.cur).2.2.1⟩
  · obtain ⟨k, hk⟩ := Option.isSome_iff_exists.1 (hnext.resolve_left hself)
    exact ⟨h.pages next k hk, k, h.others hcall hk hself⟩

theorem SwitchInv.step {s s' : Threading} (h : SwitchInv s) (hstep : SwitchStep s s') : SwitchInv s' := by
  cases hstep with
  | work hseg hspares =>
      exact
        { cur := h.cur
          pages := h.pages
          parked := fun t k hk ht => (h.parked t k hk ht).spared (hspares t k hk ht)
          seg := fun t k hk ht x hx => (hseg x hx).trans (h.seg t k hk ht x hx) }
  | @create task kernelThread func arg hpage hnew hcur =>
      refine ⟨h.cur, fun t k hk => ?_, fun t k hk ht => ?_, fun t k hk ht x hx => ?_⟩
      · rcases update_eq_some hk with ⟨rfl, -⟩ | ⟨-, hold⟩
        · exact hpage
        · exact h.pages t k hold
      · rcases update_eq_some hk with ⟨rfl, rfl⟩ | ⟨htask, hold⟩
        · exact firstState_parked hpage
        · have hparked := h.parked t k hold ht
          exact hparked.spared (hparked.spares (h.pages t k hold) hpage htask fun a ha =>
            threadStackInit_apart kernelThread func arg s.c.mem hpage ha)
      · rcases update_eq_some hk with ⟨-, rfl⟩ | ⟨-, hold⟩
        · rfl
        · exact h.seg t k hold ht x hx
  | @switchTo next hcall hnext =>
      obtain ⟨hpage, k₀, hk₀⟩ := h.target hcall hnext
      obtain ⟨-, -, -, hseg, hmem⟩ := switchToRun_returns hcall h.cur hpage hk₀
      refine ⟨hpage, fun t k hk => ?_, fun t k hk ht => ?_, fun t k hk ht x hx => ?_⟩
      · rcases update_eq_some hk with ⟨rfl, -⟩ | ⟨-, hold⟩
        · exact h.cur
        · exact h.pages t k hold
      · change Parked (switchToRun s.c).mem t k
        rw [hmem]
        rcases update_eq_some hk with ⟨rfl, rfl⟩ | ⟨hcur, hold⟩
        · exact (switchSave_frame hcall h.cur).2.2.1
        · exact h.others hcall hold hcur
      · change (switchToRun s.c).seg x = k.seg x
        rw [hseg]
        rcases update_eq_some hk with ⟨-, rfl⟩ | ⟨hcur, hold⟩
        · rfl
        · exact h.seg t k hold hcur x hx

theorem SwitchRuns.inv {s s' : Threading} (h : SwitchInv s) (hruns : SwitchRuns s s') : SwitchInv s' := by
  induction hruns with
  | refl => exact h
  | tail _ hstep ih => exact ih.step hstep

/-- The state before any switch: one thread, on a page of its own. -/
def Threading.start (c : Cpu) (cur : Word) : Threading := ⟨c, cur, fun _ => none⟩

theorem SwitchInv.start (c : Cpu) (hpage : IsPage cur) : SwitchInv (Threading.start c cur) where
  cur := hpage
  pages _ _ hk := by cases hk
  parked _ _ hk := by cases hk
  seg _ _ hk := by cases hk

theorem SwitchInv.returns {s : Threading} (h : SwitchInv s) (hcall : CallsSwitch s.c s.cur next)
    (hleft : s.left next = some k) (hne : next ≠ s.cur) : Returns (next.toNat + 4096) 0 k (switchToRun s.c) := by
  have hk := h.others hcall hleft hne
  obtain ⟨hesp, heip, hsaved, hseg, hmem⟩ := switchToRun_returns hcall h.cur (h.pages next k hleft) hk
  refine ⟨hesp, heip, hsaved, fun x hx => ?_, fun a hlo hhi => ?_⟩
  · rw [hseg]
    exact h.seg next k hleft hne x hx
  · rw [hmem]
    exact hk.own a (by omega) hhi

/-- The main thread, and a second one that it has made. -/
def mainCpu : Cpu where
  reg r := if r = .esp then 0xc009efe0 else 0
  seg s := if s = .cs then 8 else 0x10
  eip := 0
  eflags := 2
  mem _ := 0
  out := []

def mainPage : Word := 0xc009e000

def newPage : Word := 0xc0100000

def secondThread : Threading := (Threading.start mainCpu mainPage).create newPage 0xc0002000 0xc0003000 7

/-- It calls `switchTo`. -/
def secondCalled : Threading := { secondThread with c := secondThread.c.pushAll [newPage, mainPage, 0] }

theorem mainPage_isPage : IsPage mainPage := ⟨by decide, by decide⟩

theorem newPage_isPage : IsPage newPage := ⟨by decide, by decide⟩

theorem secondThread_step : SwitchStep (Threading.start mainCpu mainPage) secondThread :=
  .create newPage_isPage rfl (by decide)

theorem secondCalled_frame :
    Frame secondCalled.c 0xc009efe0 [0, mainPage, newPage] ∧
      Within 0xc009efd4 0xc009efe0 secondThread.c.mem secondCalled.c.mem := by
  have h : Frame secondThread.c 0xc009efe0 [] := Frame.empty secondThread.c
  exact ⟨h.pushAll [newPage, mainPage, 0] (by simp), h.pushAll_within [newPage, mainPage, 0] (by simp)⟩

theorem secondCalled_calls : CallsSwitch secondCalled.c secondCalled.cur newPage := by
  obtain ⟨h, -⟩ := secondCalled_frame
  have hroom := h.room
  simp only [List.length_cons, List.length_nil] at hroom
  have hpage : secondCalled.cur.toNat = 0xc009e000 := rfl
  exact ⟨h.top rfl, h.top rfl, by omega, by omega⟩

theorem secondCalled_step : SwitchStep secondThread secondCalled := by
  have hinv := (SwitchInv.start mainCpu mainPage_isPage).step secondThread_step
  refine .work (fun x _ => congrFun pushAll_seg x) fun t k hk ht => ?_
  refine (hinv.parked t k hk ht).spares (hinv.pages t k hk) mainPage_isPage ht fun a ha => ?_
  have hpage : mainPage.toNat = 0xc009e000 := rfl
  exact secondCalled_frame.2 a (by omega)

/-- A switch to another thread is, in every run, the return of the call of `switchTo` with which that thread was
left. -/
theorem switchTo_returns {s : Threading} (hpage : IsPage cur) (hruns : SwitchRuns (Threading.start c cur) s)
    (hcall : CallsSwitch s.c s.cur next) (hleft : s.left next = some k) (hne : next ≠ s.cur) :
    Returns (next.toNat + 4096) 0 k (switchToRun s.c) :=
  (SwitchRuns.inv (SwitchInv.start c hpage) hruns).returns hcall hleft hne

theorem switchTo_returns_second :
    Returns (newPage.toNat + 4096) 0 (firstState newPage secondThread.c) (switchToRun secondCalled.c) :=
  switchTo_returns mainPage_isPage ((Relation.ReflTransGen.single secondThread_step).tail secondCalled_step)
    secondCalled_calls rfl (by decide)

/-- What a thread has left stays until it runs again. -/
theorem SwitchStep.left_of_ne {s s' : Threading} (hstep : SwitchStep s s') (ht : t ≠ s.cur) (hk : s.left t = some k) :
    s'.left t = some k := by
  cases hstep with
  | work hseg hspares => exact hk
  | @create task kernelThread func arg hpage hnew hcur =>
      have htask : t ≠ task := by
        rintro rfl
        rw [hnew] at hk
        cases hk
      exact (update_of_ne htask _ _).trans hk
  | switchTo hcall hnext => exact (update_of_ne ht _ _).trans hk

/-- A new thread, whenever it is switched to for the first time, starts in `kernelThread` with its function and its
argument, at the upper end of its page. -/
theorem thread_starts {s s' : Threading} (hpage : IsPage cur) (hruns : SwitchRuns (Threading.start c cur) s)
    (htask : IsPage task) (hnew : s.left task = none) (hne : task ≠ s.cur)
    (hrest : Relation.ReflTransGen (fun a b => SwitchStep a b ∧ b.cur ≠ task)
    (s.create task kernelThread func arg) s')
    (hcall : CallsSwitch s'.c s'.cur task) :
    (switchToRun s'.c).eip = kernelThread ∧ (switchToRun s'.c).top 1 = func ∧ (switchToRun s'.c).top 2 = arg ∧
      (∀ r ∈ [Reg.ebx, .ebp, .esi, .edi], (switchToRun s'.c).reg r = 0) ∧
      ((switchToRun s'.c).reg .esp).toNat = task.toNat + 3684 := by
  obtain ⟨k, hk⟩ : ∃ k, k = firstState task { s.c with mem := threadStackInit task kernelThread func arg s.c.mem } :=
    ⟨_, rfl⟩
  obtain ⟨hruns', hcur, hleft⟩ : SwitchRuns (Threading.start c cur) s' ∧ s'.cur ≠ task ∧ s'.left task = some k := by
    clear hcall
    induction hrest with
    | refl =>
        refine ⟨hruns.tail (.create htask hnew hne), hne.symm, ?_⟩
        rw [hk]
        exact update_self task _ _
    | tail _ hstep ih =>
        obtain ⟨hruns', hcur, hleft⟩ := ih
        exact ⟨hruns'.tail hstep.1, hstep.2, hstep.1.left_of_ne hcur.symm hleft⟩
  have hret := (SwitchRuns.inv (SwitchInv.start c hpage) hruns').returns hcall hleft hcur.symm
  obtain ⟨-, -, heip, hfunc, harg⟩ := threadStackInit_words kernelThread func arg s.c.mem htask
  have hkesp : (k.reg .esp).toNat = task.toNat + 3680 := by rw [hk, firstState_esp htask]
  have hfits := htask.fits
  have hesp : ((switchToRun s'.c).reg .esp).toNat = task.toNat + 3684 := by
    rw [hret.esp, BitVec.toNat_add, hkesp, show (4 : Word).toNat = 4 from rfl, Nat.mod_eq_of_lt (by omega)]
  have hmem : k.mem = threadStackInit task kernelThread func arg s.c.mem := by rw [hk, firstState]
  have htop : ∀ j, 1 ≤ j → j ≤ 2 →
      (switchToRun s'.c).top j = read (threadStackInit task kernelThread func arg s.c.mem)
        (task.toNat + 3684 + 4 * j) := by
    intro j hlo hhi
    rw [Cpu.top, hesp, ← hmem]
    exact read_congr fun b hb hlt => hret.mem b (by omega) (by omega)
  refine ⟨?_, ?_, ?_, fun r hr => ?_, hesp⟩
  · rw [hret.eip, Cpu.top, hkesp, hmem]
    exact heip
  · rw [htop 1 (by omega) (by omega)]
    exact hfunc
  · rw [htop 2 (by omega) (by omega)]
    exact harg
  · rw [hret.saved r hr, hk]
    simp only [List.mem_cons, List.not_mem_nil, or_false] at hr
    rcases hr with rfl | rfl | rfl | rfl <;> simp [firstState]

theorem thread_starts_second :
    (switchToRun secondCalled.c).eip = 0xc0002000 ∧ (switchToRun secondCalled.c).top 1 = 0xc0003000 ∧
      (switchToRun secondCalled.c).top 2 = 7 := by
  obtain ⟨heip, hfunc, harg, -⟩ := thread_starts mainPage_isPage .refl newPage_isPage rfl (by decide)
    (.single ⟨secondCalled_step, by decide⟩) secondCalled_calls
  exact ⟨heip, hfunc, harg⟩

end HoloOS
