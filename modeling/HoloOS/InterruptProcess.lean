import HoloOS.InterruptEntry
import Mathlib.Tactic.IntervalCases

/-! The start of a process. `startProcess` writes a frame above the stack that it runs on, as an interrupt of the
process at its first instruction would have left it; while it does, it calls `getPage` for the stack of the process.
Then it jumps to `intrExit`, which takes the processor to the code of the process at the user's privilege level. -/

namespace HoloOS

open Function Paging X86

def selectorUCode : Word := 0x2b

def selectorUData : Word := 0x33

/-- `PF_USER` -/
def pfUser : Word := 2

/-- `USER_STACK3_VADDR` -/
def userStack3Vaddr : Word := 0xc0000000 - 0x1000

def storeWords (ws : List (Nat × Word)) (m : Mem) : Mem := ws.foldl (fun m w => write m w.1 w.2) m

/-- The stores of `startProcess` before the call of `getPage`, in its order. -/
def procStackInit (procStack func : Word) : List (Nat × Word) :=
  let a := procStack.toNat
  [(a + 4, 0), (a + 8, 0), (a + 12, 0), (a + 16, 0), (a + 20, 0), (a + 24, 0), (a + 28, 0), (a + 32, 0), (a + 36, 0),
    (a + 48, selectorUData), (a + 44, selectorUData), (a + 40, selectorUData), (a + 56, func),
    (a + 60, selectorUCode), (a + 64, 0x202)]

/-- The stores after it; `page` is what `getPage` has returned. -/
def procStackEnd (procStack page : Word) : List (Nat × Word) :=
  let a := procStack.toNat
  [(a + 68, page + 4096), (a + 72, selectorUData)]

/-- The jump to `intrExit`; `vecNo` is left out of the frame. -/
def enterProcess (dpl : BitVec 16 → Nat) (procStack : Word) (c : Cpu) : Cpu :=
  intrExit dpl { c with reg := update c.reg .esp (procStack + 4) }

/-- `startProcess` from its first store into the frame on. `getPage` is called in the state `h`, with its arguments on
the stack, and returns in `h'`. -/
def StartProcess (getPage : Word) (fn : Word → Cpu → Cpu → Prop) (dpl : BitVec 16 → Nat) (procStack func : Word)
    (c h h' c' : Cpu) : Prop :=
  h = ({ c with mem := storeWords (procStackInit procStack func) c.mem }).pushAll [userStack3Vaddr, pfUser] ∧
    Calls fn getPage h h' ∧
    c' = enterProcess dpl procStack { (Insn.addEsp 8).exec h' with
      mem := storeWords (procStackEnd procStack (h'.reg .eax)) h'.mem }

variable {procStack func esp getPage : Word} {c h h' c' : Cpu} {m m' : Mem} {fn : Word → Cpu → Cpu → Prop}
  {dpl : BitVec 16 → Nat}

/-- The segments of the frame. -/
def procSeg (s : Seg) : Word := if s = .gs then 0 else selectorUData

/-- The frame from `edi` on. Nothing stores `errcode`. -/
def procFrame (func esp errcode : Word) : List Word :=
  context (fun _ => 0) 0 procSeg errcode ++ [func, selectorUCode, 0x202, esp, selectorUData]

theorem procFrame_length (func esp errcode : Word) : (procFrame func esp errcode).length = 18 := rfl

/-- Both groups of stores together, with memory kept in between, leave the frame. -/
theorem procStack_word (procStack func page : Word) (m : Mem)
    (hkept : ∀ a, procStack.toNat ≤ a → a < procStack.toNat + 76 →
      m' a = storeWords (procStackInit procStack func) m a) {k : Nat} {w : Word}
    (hw : (procFrame func (page + 4096) (read m (procStack.toNat + 52)))[k]? = some w) :
    read (storeWords (procStackEnd procStack page) m') (procStack.toNat + 4 + 4 * k) = w := by
  have hlen : k < 18 := by
    obtain ⟨hk, -⟩ := List.getElem?_eq_some_iff.1 hw
    rwa [procFrame_length] at hk
  have hread : ∀ j < 18, read m' (procStack.toNat + 4 + 4 * j) =
      read (storeWords (procStackInit procStack func) m) (procStack.toNat + 4 + 4 * j) := fun j hj =>
    read_congr fun b hlo hhi => hkept b (by omega) (by omega)
  have hword := hread k hlen
  simp only [storeWords, procStackInit, procStackEnd, List.foldl_cons, List.foldl_nil] at hword ⊢
  interval_cases k
  all_goals
    simp only [procFrame, context, procSeg] at hw
    simp at hw
    subst hw
    simp (disch := omega) only [Nat.add_assoc, Nat.reduceMul, Nat.reduceAdd, read_write_apart, read_write_self]
      at hword ⊢
  all_goals first | rfl | exact hword

theorem outerSeg_userData (hdpl : dpl 0x33 = 3) : outerSeg dpl 3 0x33 = 0x33 := by
  refine if_neg ?_
  rw [hdpl]
  decide

theorem outerSeg_null (dpl : BitVec 16 → Nat) (level : Nat) : outerSeg dpl level 0 = 0 := if_pos (.inl (by decide))

/-- The state in which a process starts. -/
def userState (func esp : Word) (mem : Mem) (out : List (BitVec 16 × BitVec 8)) : Cpu where
  reg r := if r = .esp then esp else 0
  seg
    | .cs => 0x2b
    | .gs => 0
    | _ => 0x33
  eip := func
  eflags := 0x202
  mem := mem
  out := out

/-- The jump to `intrExit` with the frame in place. -/
theorem enterProcess_frame {func page errcode : Word} (hlevel : c.cpl = 0) (hdpl : dpl 0x33 = 3)
    (hframe : Frame { c with reg := update c.reg .esp (procStack + 4) } (procStack.toNat + 76)
      (procFrame func (page + 4096) errcode)) :
    enterProcess dpl procStack c = userState func (page + 4096) c.mem c.out := by
  obtain ⟨c₀, hc₀⟩ : ∃ c₀ : Cpu, c₀ = { c with reg := update c.reg .esp (procStack + 4) } := ⟨_, rfl⟩
  rw [← hc₀, procFrame] at hframe
  obtain ⟨hm, hrest⟩ := restoreContext_frame hframe
  obtain ⟨m, hmdef⟩ : ∃ m, m = run restoreContext c₀ := ⟨_, rfl⟩
  rw [← hmdef] at hm hrest
  have hcs : m.seg .cs = c.seg .cs := by rw [hrest.cs, hc₀]
  have hcpl : m.cpl < (selectorUCode.setWidth 16).toNat % 4 := by
    rw [Cpu.cpl, hcs, ← Cpu.cpl, hlevel]
    decide
  have hdata : ∀ s ∈ [Seg.ds, .es, .fs, .gs], outerSeg dpl ((selectorUCode.setWidth 16).toNat % 4) (m.seg s) =
      if s = .gs then 0 else 0x33 := by
    intro s hs
    rw [hrest.data s hs, procSeg]
    split
    · exact outerSeg_null dpl _
    · exact outerSeg_userData hdpl
  rw [enterProcess, intrExit, ← hc₀, ← hmdef, hm.iretd_outer hcpl, userState]
  congr 1
  · funext r
    by_cases hr : r = .esp
    · rw [hr, update_self, if_pos rfl]
    · rw [update_of_ne hr, hrest.reg r hr, if_neg hr]
  · funext s
    cases s with
    | cs => rfl
    | ss => rfl
    | ds => exact hdata .ds (by simp)
    | es => exact hdata .es (by simp)
    | fs => exact hdata .fs (by simp)
    | gs => exact hdata .gs (by simp)
  · rw [hrest.mem, hc₀]
  · rw [hrest.out, hc₀]

/-- An interrupt of a process at its first instruction goes to the kernel's stack and can return. -/
theorem userState_legal {esp : Word} {out : List (BitVec 16 × BitVec 8)} {g : Gate} (hdpl : dpl 0x33 = 3)
    (hg : g.selector.toNat % 4 = 0) :
    (userState func esp m out).Legal dpl g ∧ (userState func esp m out).Outer g := by
  have hcpl : (userState func esp m out).cpl = 3 := by simp [Cpu.cpl, userState]
  refine ⟨⟨by omega, fun s hs _ => ?_⟩, ?_⟩
  · rw [hcpl]
    simp only [List.mem_cons, List.not_mem_nil, or_false] at hs
    rcases hs with rfl | rfl | rfl | rfl
    · exact outerSeg_userData hdpl
    · exact outerSeg_userData hdpl
    · exact outerSeg_userData hdpl
    · exact outerSeg_null dpl _
  · rw [Cpu.Outer, hcpl, hg]
    decide

/-- A process starts at its first instruction on its own stack with interrupts on, at the level of the user without
access to ports, and with nothing of the kernel in its registers. Every interrupt of it then goes to the kernel's
stack. The frame lies above the running stack, and `getPage` has found a page. -/
theorem startProcess_enters (habove : (c.reg .esp).toNat ≤ procStack.toNat) (hlow : 12 ≤ (c.reg .esp).toNat)
    (hroom : procStack.toNat + 76 < 2 ^ 32) (hlevel : c.cpl = 0) (hdpl : dpl 0x33 = 3)
    (hfn : ∀ a b, fn getPage a b → Returns (procStack.toNat + 76) 2 a b) (hpage : h'.reg .eax = userStack3Vaddr)
    (hstart : StartProcess getPage fn dpl procStack func c h h' c') :
    (∃ ret, fn getPage (h.push ret) h' ∧ (h.push ret).top 1 = pfUser ∧ (h.push ret).top 2 = userStack3Vaddr) ∧
      c' = userState func 0xc0000000 c'.mem h'.out ∧
      ∀ g : Gate, g.selector.toNat % 4 = 0 → c'.Legal dpl g ∧ c'.Outer g := by
  obtain ⟨hh, ⟨ret, hcall, -⟩, hc'⟩ := hstart
  obtain ⟨c₁, hc₁⟩ : ∃ c₁ : Cpu, c₁ = { c with mem := storeWords (procStackInit procStack func) c.mem } := ⟨_, rfl⟩
  rw [← hc₁] at hh
  have hesp : c₁.reg .esp = c.reg .esp := by rw [hc₁]
  have hempty : Frame c₁ (c.reg .esp).toNat [] := hesp ▸ Frame.empty c₁
  have hargs := hempty.pushAll [userStack3Vaddr, pfUser] (by simp; omega)
  have hargsWithin : Within 0 _ _ _ := hempty.pushAll_within [userStack3Vaddr, pfUser] (by simp; omega)
  rw [← hh] at hargs hargsWithin
  have hframe : Frame (h.push ret) (c.reg .esp).toNat [ret, pfUser, userStack3Vaddr] :=
    hargs.push (by simp; omega) ret
  have hpushes : Within 0 (c.reg .esp).toNat c₁.mem (h.push ret).mem :=
    hargsWithin.trans (hargs.push_within (by simp; omega) ret)
  have hret := hfn _ _ hcall
  have hstop := hframe.room
  simp only [List.length_cons, List.length_nil] at hstop
  have hkept : ∀ a, procStack.toNat ≤ a → a < procStack.toNat + 76 →
      h'.mem a = storeWords (procStackInit procStack func) c.mem a := fun a hlo hhi => by
    rw [hret.mem a (by omega) hhi, hpushes a (.inr (by omega)), hc₁]
  obtain ⟨d, hd⟩ : ∃ d : Cpu, d = { (Insn.addEsp 8).exec h' with
      mem := storeWords (procStackEnd procStack (h'.reg .eax)) h'.mem } := ⟨_, rfl⟩
  rw [← hd] at hc'
  have hcs : d.seg .cs = c.seg .cs := by
    rw [hd]
    exact (hret.seg .cs (by simp)).trans (by rw [push_seg, hh, pushAll_seg, hc₁])
  have hproc : (procStack + 4).toNat = procStack.toNat + 4 := by
    rw [BitVec.toNat_add, show (4 : Word).toNat = 4 from rfl, Nat.mod_eq_of_lt (by omega)]
  have hprocFrame : Frame { d with reg := update d.reg .esp (procStack + 4) } (procStack.toNat + 76)
      (procFrame func (userStack3Vaddr + 4096) (read c.mem (procStack.toNat + 52))) := by
    refine ⟨?_, hroom, fun k hk => ?_⟩
    · change (update d.reg .esp (procStack + 4) .esp).toNat + _ = _
      rw [procFrame_length, update_self, hproc]
    · change read d.mem ((update d.reg .esp (procStack + 4) .esp).toNat + 4 * k) = _
      rw [update_self, hproc, hd, hpage]
      exact procStack_word procStack func userStack3Vaddr c.mem hkept (List.getElem?_eq_getElem hk)
  have henter : c' = userState func 0xc0000000 c'.mem h'.out := by
    have hring : d.cpl = 0 := by
      rw [Cpu.cpl, hcs]
      exact hlevel
    have heq := enterProcess_frame hring hdpl hprocFrame
    rw [hc', heq, hd]
    rfl
  refine ⟨⟨ret, hcall, hframe.top rfl, hframe.top rfl⟩, henter, fun g hg => ?_⟩
  rw [henter]
  exact userState_legal hdpl hg

/-- A `getPage` that finds a page. -/
def findsPage (_ : Word) (a b : Cpu) : Prop := b = { a.ret with reg := update a.ret.reg .eax userStack3Vaddr }

theorem findsPage_returns (lim : Nat) (a b : Cpu) (h : findsPage getPage a b) : Returns lim 2 a b := by
  have hret := ret_returns lim 2 a
  have hreg : ∀ r ≠ .eax, b.reg r = a.ret.reg r := fun r hr => by
    rw [h]
    exact update_of_ne hr ..
  refine ⟨(hreg .esp (by decide)).trans hret.esp, ?_, fun r hr => ?_, fun s hs => ?_, fun x hlo hhi => ?_⟩
  · rw [h]
    exact hret.eip
  · refine (hreg r ?_).trans (hret.saved r hr)
    rintro rfl
    revert hr
    decide
  · rw [h]
    exact hret.seg s hs
  · rw [h]
    exact hret.mem x hlo hhi

theorem findsPage_starts (getPage : Word) (dpl : BitVec 16 → Nat) (procStack func : Word) (c : Cpu) :
    ∃ h h' c', h'.reg .eax = userStack3Vaddr ∧ StartProcess getPage findsPage dpl procStack func c h h' c' := by
  obtain ⟨h, hh⟩ : ∃ h, h = ({ c with mem := storeWords (procStackInit procStack func) c.mem }).pushAll
    [userStack3Vaddr, pfUser] := ⟨_, rfl⟩
  obtain ⟨h', hh'⟩ : ∃ h' : Cpu, h' = { (h.push 0).ret with reg := update (h.push 0).ret.reg .eax userStack3Vaddr } :=
    ⟨_, rfl⟩
  refine ⟨h, h', _, ?_, hh, ⟨0, hh', ?_⟩, rfl⟩
  · rw [hh']
    exact update_self Reg.eax userStack3Vaddr (h.push 0).ret.reg
  · rw [hh']
    exact push_top

/-- A new thread at its first store into the frame. -/
def atFirstStore : Cpu := { atStart with reg := update atStart.reg .esp 0xc0100e40, seg := fun _ => 8 }

theorem startProcess_enters_first :
    ∃ h h' c', StartProcess 0xc0003000 findsPage userDpl 0xc0100ed0 0x8048000 atFirstStore h h' c' ∧
      c' = userState 0x8048000 0xc0000000 c'.mem h'.out := by
  obtain ⟨h, h', c', hpage, hstart⟩ := findsPage_starts 0xc0003000 userDpl 0xc0100ed0 0x8048000 atFirstStore
  exact ⟨h, h', c', hstart, (startProcess_enters (by decide) (by decide) (by decide) (by decide) (by decide)
    (fun a b => findsPage_returns _ a b) hpage hstart).2.1⟩

end HoloOS
