import HoloOS.InterruptEntry

/-! System calls. A process puts the number and the arguments into registers; `syscallHandler` saves the registers
like an interrupt, passes the arguments on the stack and puts the result where `intrExit` takes `eax` from. -/

namespace HoloOS

open Function Paging X86

/-- `syscallHandler` up to the call. -/
def syscallEntry : List Insn :=
  .push (.imm 0) :: saveContext ++ [.push (.reg .edx), .push (.reg .ecx), .push (.reg .ebx)]

/-- What it does after the call; the result goes into the place of `eax`. -/
def syscallReturn : List Insn := [.addEsp 12, .storeEsp 28 .eax]

/-- `syscallHandler`, from the entry to the return. The function of the kernel runs from `h` to `h'`. -/
def SyscallHandler (syscallTable : Word) (fn : Word → Cpu → Cpu → Prop) (dpl : BitVec 16 → Nat) (c h h' c' : Cpu) :
    Prop :=
  h = run syscallEntry c ∧ Calls fn (read h.mem (syscallTable + h.reg .eax * 4).toNat) h h' ∧
    c' = intrExit dpl (run syscallReturn h')

inductive SyscallFunc where
  | getpid
  | write
  | malloc
  | free
  deriving DecidableEq

def SyscallFunc.number : SyscallFunc → Nat
  | getpid => 0
  | write => 1
  | malloc => 2
  | free => 3

/-- `sys` are the addresses of the functions of the kernel. -/
def syscallInit (syscallTable : Word) (sys : SyscallFunc → Word) (m : Mem) : Mem :=
  [SyscallFunc.getpid, .write, .malloc, .free].foldl
    (fun m f => Paging.write m (syscallTable.toNat + 4 * f.number) (sys f)) m

/-- The registers that `_syscall0` and `_syscall1` load before `int 0x80`. -/
def syscallRegs (f : SyscallFunc) (arg : Option Word) (reg : Reg → Word) : Reg → Word :=
  let reg := update reg .eax (BitVec.ofNat 32 f.number)
  arg.elim reg fun arg => update reg .ebx arg

variable {syscallTable : Word} {fn : Word → Cpu → Cpu → Prop} {dpl : BitVec 16 → Nat} {c h h' c' : Cpu} {g : Gate}
  {ss : BitVec 16} {esp e x : Word} {lo stop : Nat} {ws : List Word}

theorem syscallEntry_frame (hf : Frame c stop ws) (hroom : lo + 4 * (ws.length + 16) ≤ stop) :
    ∃ x, Frame (run syscallEntry c) stop
        ([c.reg .ebx, c.reg .ecx, c.reg .edx] ++ (context c.reg x (segWord c) 0 ++ ws)) ∧
      Within lo stop c.mem (run syscallEntry c).mem ∧ (∀ r ≠ .esp, (run syscallEntry c).reg r = c.reg r) ∧
      (run syscallEntry c).seg = c.seg ∧ (run syscallEntry c).out = c.out := by
  have hpush := hf.push (by omega) 0
  have hwithin := hf.push_within (show lo + 4 * (ws.length + 1) ≤ stop by omega) 0
  obtain ⟨x, hctx, hwithin', hreg, hseg, hout⟩ := saveContext_frame hpush
    (show lo + 4 * (ws.length + 13) ≤ stop by omega)
  have hcontext : context (c.push 0).reg x (segWord (c.push 0)) 0 = context c.reg x (segWord c) 0 := by
    simp [context, segWord]
  rw [hcontext] at hctx
  have hregs : ∀ r ≠ .esp, (run saveContext (c.push 0)).reg r = c.reg r := fun r hr => by rw [hreg r hr, push_reg hr]
  obtain ⟨d, hd⟩ : ∃ d, d = run saveContext (c.push 0) := ⟨_, rfl⟩
  rw [← hd] at hctx hwithin' hseg hout hregs
  have hrun : run syscallEntry c = d.pushAll [d.reg .edx, d.reg .ecx, d.reg .ebx] := by
    rw [hd, syscallEntry, run_append, run_cons]
    simp only [run_cons, run_nil, Insn.exec, Src.val, pushAll_cons, pushAll_nil, ne_eq, reduceCtorEq,
      not_false_eq_true,
      push_reg]
  have hlen : (context c.reg x (segWord c) 0 ++ ws).length = ws.length + 13 := by
    simp [context]
  rw [hrun, hregs .edx (by decide), hregs .ecx (by decide), hregs .ebx (by decide)]
  refine ⟨x, hctx.pushAll [c.reg .edx, c.reg .ecx, c.reg .ebx] (by rw [hlen]; simp; omega),
    (hwithin.trans hwithin').trans (hctx.pushAll_within _ (by rw [hlen]; simp; omega)),
    fun r hr => by rw [pushAll_reg hr, hregs r hr], by rw [pushAll_seg, hseg, push_seg],
    by rw [pushAll_out, hout, push_out]⟩

/-- After the function the registers are those of the process, with the result in `eax`. -/
theorem syscallReturn_frame {ret v₁ v₂ v₃ : Word}
    (hf : Frame h stop ([v₁, v₂, v₃] ++ (context c.reg x (segWord c) 0 ++ ws)))
    (hroom : lo + 4 * (ws.length + 17) ≤ stop) (hret : Returns stop 3 (h.push ret) h') :
    Frame (run restoreContext (run syscallReturn h')) stop ws ∧
      Restored (update c.reg .eax (h'.reg .eax)) (segWord c) (run syscallReturn h')
        (run restoreContext (run syscallReturn h')) ∧
      Within lo stop h'.mem (run syscallReturn h').mem := by
  have hlen : (context c.reg x (segWord c) 0 ++ ws).length = ws.length + 13 := by
    simp [context]
  have hpush := hf.push (by simp only [List.length_append, hlen, List.length_cons, List.length_nil]; omega) ret
  have hafter : Frame ((Insn.addEsp 12).exec h') stop (context c.reg x (segWord c) 0 ++ ws) :=
    hpush.returns [v₁, v₂, v₃] hret
  obtain ⟨hstored, hwithin⟩ := hafter.storeEsp (k := 7) (by omega) .eax
  have heax : ((Insn.addEsp 12).exec h').reg .eax = h'.reg .eax := by simp [Insn.exec]
  have hset : (context c.reg x (segWord c) 0 ++ ws).set 7 (h'.reg .eax) =
      context (update c.reg .eax (h'.reg .eax)) x (segWord c) 0 ++ ws := by
    simp [context]
  rw [heax, hset] at hstored
  obtain ⟨hm, hrest⟩ := restoreContext_frame hstored
  have hroom' := hafter.room
  rw [hlen] at hroom'
  exact ⟨hm, hrest, hwithin.mono (by omega)⟩

/-- Another value in `eax` has no part in what an interrupt saves. -/
theorem saved_update (c : Cpu) (g : Gate) (esp v : Word) :
    ({ c with reg := update c.reg .eax v } : Cpu).base g esp = c.base g esp ∧
      ({ c with reg := update c.reg .eax v } : Cpu).saved g = c.saved g := by
  have hesp : update c.reg .eax v .esp = c.reg .esp := update_of_ne (by decide) ..
  constructor
  · change (if c.Outer g then esp else update c.reg .eax v .esp) = _
    rw [hesp]
    rfl
  · change _ ++ (if c.Outer g then [update c.reg .eax v .esp, (c.seg .ss).setWidth 32] else []) = _
    rw [hesp]
    rfl

/-- A system call changes `eax` and nothing else of the process, when the entry of its number is a function. -/
theorem syscall_returns (lo : Nat) (hlegal : c.Legal dpl g) (hroom : lo + 88 ≤ (c.base g esp).toNat)
    (htable : (syscallTable + c.reg .eax * 4).toNat + 4 ≤ lo ∨
      (c.base g esp).toNat ≤ (syscallTable + c.reg .eax * 4).toNat)
    (hfn : ∀ a b, fn (read c.mem (syscallTable + c.reg .eax * 4).toNat) a b → Returns (c.base g esp).toNat 3 a b)
    (hv : SyscallHandler syscallTable fn dpl (c.interrupt g ss esp none) h h' c') :
    (∃ ret, fn (read c.mem (syscallTable + c.reg .eax * 4).toNat) (h.push ret) h' ∧
        (h.push ret).top 1 = c.reg .ebx ∧ (h.push ret).top 2 = c.reg .ecx ∧ (h.push ret).top 3 = c.reg .edx) ∧
      Within lo (c.base g esp).toNat c.mem h.mem ∧ Within lo (c.base g esp).toNat h'.mem c'.mem ∧ h.out = c.out ∧
      c' = { c with reg := update c.reg .eax (h'.reg .eax), mem := c'.mem, out := h'.out } := by
  obtain ⟨hh, ⟨ret, hcall, -⟩, hexit⟩ := hv
  obtain ⟨hint, hwithin₁⟩ := interrupt_frame ss none (show lo + 24 ≤ (c.base g esp).toNat by omega)
  rw [Option.toList_none, List.nil_append] at hint
  have hlen := c.saved_length g
  obtain ⟨x, hframe, hwithin₂, hreg, hseg, hout⟩ :=
    syscallEntry_frame hint (show lo + 4 * ((c.saved g).length + 16) ≤ _ by omega)
  rw [← hh] at hframe hwithin₂ hreg hseg hout
  have hregs : ∀ r ≠ .esp, h.reg r = c.reg r := fun r hr => by rw [hreg r hr, interrupt_reg hr]
  have hwithin := hwithin₁.trans hwithin₂
  rw [hregs .eax (by decide), hwithin.read htable] at hcall
  have hret := hfn _ _ hcall
  rw [context_interrupt, interrupt_reg (r := .ebx) (by decide), interrupt_reg (r := .ecx) (by decide),
    interrupt_reg (r := .edx) (by decide)] at hframe
  have hpush := hframe.push (by simp [context]; omega) ret
  obtain ⟨hm, hrest, hwithin₃⟩ :=
    syscallReturn_frame hframe (show lo + 4 * ((c.saved g).length + 17) ≤ _ by omega) hret
  obtain ⟨m, hmdef⟩ : ∃ m, m = run restoreContext (run syscallReturn h') := ⟨_, rfl⟩
  rw [← hmdef] at hm hrest
  have hmem : c'.mem = (run syscallReturn h').mem := by
    rw [hexit, intrExit, ← hmdef, ← hrest.mem, Cpu.iretd]
    split <;> rfl
  have hsegs : ∀ s ∈ [Seg.cs, .ss], (run syscallReturn h').seg s = (c.interrupt g ss esp none).seg s := fun s hs =>
    (hret.seg s hs).trans (by rw [push_seg, hseg])
  obtain ⟨hbase, hsaved⟩ := saved_update c g esp (h'.reg .eax)
  rw [← hbase, ← hsaved] at hm
  have hlevel : m.cpl = g.selector.toNat % 4 := by rw [Cpu.cpl, hrest.cs, hsegs .cs (by simp), interrupt_cs]
  have hss : ¬c.Outer g → m.seg .ss = c.seg .ss := fun hout => by
    rw [hrest.ss, hsegs .ss (by simp), interrupt_seg (by decide) (fun h => absurd h hout)]
  refine ⟨⟨ret, hcall, hpush.top rfl, hpush.top rfl, hpush.top rfl⟩, hwithin, ?_, by rw [hout, interrupt_out], ?_⟩
  · rw [hmem]
    exact hwithin₃
  · rw [hmem, ← hrest.mem, hexit, intrExit, ← hmdef,
      iretd_interrupt (c := { c with reg := update c.reg .eax (h'.reg .eax) }) ⟨hlegal.inward, hlegal.data⟩ hm hlevel
        hrest.reg hrest.dataSegs hss, hrest.out]
    rfl

/-- A process that calls `getpid`, with the function at its entry in the table. -/
def atGetpid : Cpu := { atStart with mem := Paging.write atStart.mem 0xc0004000 0xc0002000 }

/-- The function at 0xc0002000 does nothing; there is no other one. -/
def onlyFunction (f : Word) (a b : Cpu) : Prop := f = 0xc0002000 ∧ b = a.ret

theorem syscall_returns_atStart :
    ∃ h h' c', SyscallHandler 0xc0004000 onlyFunction userDpl
      (atGetpid.interrupt kernelGate 0x10 0xc0101000 none) h h' c' ∧
      c' = { atGetpid with reg := update atGetpid.reg .eax (h'.reg .eax), mem := c'.mem, out := h'.out } := by
  have hv : SyscallHandler 0xc0004000 onlyFunction userDpl
    (atGetpid.interrupt kernelGate 0x10 0xc0101000 none) _ _ _ :=
    ⟨rfl, ⟨0, ⟨by decide, rfl⟩, push_top⟩, rfl⟩
  obtain ⟨-, -, -, -, hc'⟩ := syscall_returns 0xc0100000 ⟨by decide, by decide⟩ (by decide) (by decide)
    (fun a b h => by rw [h.2]; exact ret_returns _ 3 a) hv
  exact ⟨_, _, _, hv, hc'⟩

variable {sys : SyscallFunc → Word}

theorem table_address (hfits : syscallTable.toNat + 128 ≤ 2 ^ 32) (f : SyscallFunc) :
    (syscallTable + BitVec.ofNat 32 f.number * 4).toNat = syscallTable.toNat + 4 * f.number := by
  have hnumber : (BitVec.ofNat 32 f.number * 4).toNat = 4 * f.number := by cases f <;> rfl
  have hle : f.number ≤ 3 := by cases f <;> decide
  rw [BitVec.toNat_add, hnumber, Nat.mod_eq_of_lt (by omega)]

theorem syscallInit_entry (m : Mem) (f : SyscallFunc) :
    read (syscallInit syscallTable sys m) (syscallTable.toNat + 4 * f.number) = sys f := by
  cases f with
  | getpid =>
      refine (read_write_apart _ _ ?_).trans ((read_write_apart _ _ ?_).trans ((read_write_apart _ _ ?_).trans
        (read_write_self _ _ _))) <;> simp [SyscallFunc.number]
  | write =>
      refine (read_write_apart _ _ ?_).trans ((read_write_apart _ _ ?_).trans (read_write_self _ _ _)) <;>
        simp [SyscallFunc.number]
  | malloc => exact (read_write_apart _ _ (by simp [SyscallFunc.number])).trans (read_write_self _ _ _)
  | free => exact read_write_self _ _ _

/-- The table is as `syscallInit` left it. -/
def TableAt (syscallTable : Word) (sys : SyscallFunc → Word) (m : Mem) : Prop :=
  ∃ m₀, ∀ a, syscallTable.toNat ≤ a → a < syscallTable.toNat + 16 → m a = syscallInit syscallTable sys m₀ a

theorem TableAt.entry {m : Mem} (h : TableAt syscallTable sys m) (f : SyscallFunc) :
    read m (syscallTable.toNat + 4 * f.number) = sys f := by
  obtain ⟨m₀, h⟩ := h
  have hle : f.number ≤ 3 := by cases f <;> decide
  exact (read_congr fun b hb hlt => h b (by omega) (by omega)).trans (syscallInit_entry m₀ f)

/-- A process calls the function of the kernel that it names, with its argument, and gets its result; its other
registers are those that the call has loaded. -/
theorem syscall_reaches (lo : Nat) (f : SyscallFunc) (arg : Option Word)
    (hlegal : c.Legal dpl g) (hroom : lo + 88 ≤ (c.base g esp).toNat) (hfits : syscallTable.toNat + 128 ≤ 2 ^ 32)
    (htable : TableAt syscallTable sys c.mem)
    (hapart : syscallTable.toNat + 16 ≤ lo ∨ (c.base g esp).toNat ≤ syscallTable.toNat)
    (hfn : ∀ a b, fn (sys f) a b → Returns (c.base g esp).toNat 3 a b)
    (hv : SyscallHandler syscallTable fn dpl
      (({ c with reg := syscallRegs f arg c.reg } : Cpu).interrupt g ss esp none) h h' c') :
    (∃ ret, fn (sys f) (h.push ret) h' ∧ ∀ v ∈ arg, (h.push ret).top 1 = v) ∧
      c' = { c with
        reg := update (syscallRegs f arg c.reg) .eax (h'.reg .eax)
        mem := c'.mem
        out := h'.out } := by
  have hle : f.number ≤ 3 := by cases f <;> decide
  have heax : syscallRegs f arg c.reg .eax = BitVec.ofNat 32 f.number := by cases arg <;> rfl
  have hesp : syscallRegs f arg c.reg .esp = c.reg .esp := by cases arg <;> rfl
  have hbase : ({ c with reg := syscallRegs f arg c.reg } : Cpu).base g esp = c.base g esp := by
    change (if c.Outer g then esp else syscallRegs f arg c.reg .esp) = _
    rw [hesp]
    rfl
  have haddr : (syscallTable + ({ c with reg := syscallRegs f arg c.reg } : Cpu).reg .eax * 4).toNat =
      syscallTable.toNat + 4 * f.number := by
    rw [← table_address hfits f, ← heax]
  obtain ⟨⟨ret, hcall, hebx, -⟩, -, -, -, hc'⟩ := syscall_returns (c := { c with reg := syscallRegs f arg c.reg }) lo
    ⟨hlegal.inward, hlegal.data⟩ (by rw [hbase]; exact hroom) (by rw [haddr, hbase]; omega)
    (by rw [haddr, hbase, htable.entry]; exact hfn) hv
  rw [haddr, htable.entry] at hcall
  refine ⟨⟨ret, hcall, fun v hv => ?_⟩, hc'⟩
  obtain rfl := Option.mem_def.1 hv
  rw [hebx]
  simp [syscallRegs]

theorem syscall_reaches_malloc :
    ∃ h h' c', SyscallHandler 0xc0004000 returnsAtOnce userDpl
        (({ atStart with
          reg := syscallRegs .malloc (some 256) atStart.reg
          mem := syscallInit 0xc0004000 (fun _ => 0xc0003000) atStart.mem } : Cpu).interrupt kernelGate 0x10
            0xc0101000 none) h h' c' ∧
      ∃ ret, returnsAtOnce 0xc0003000 (h.push ret) h' ∧ (h.push ret).top 1 = 256 := by
  have hv : SyscallHandler 0xc0004000 returnsAtOnce userDpl
      (({ atStart with
        reg := syscallRegs .malloc (some 256) atStart.reg
        mem := syscallInit 0xc0004000 (fun _ => 0xc0003000) atStart.mem } : Cpu).interrupt kernelGate 0x10
          0xc0101000 none) _ _ _ :=
    ⟨rfl, ⟨0, rfl, push_top⟩, rfl⟩
  have htable : TableAt 0xc0004000 (fun _ => 0xc0003000) (syscallInit 0xc0004000 (fun _ => 0xc0003000) atStart.mem) :=
    ⟨atStart.mem, fun _ _ _ => rfl⟩
  obtain ⟨⟨ret, hcall, harg⟩, -⟩ := syscall_reaches
    (c := { atStart with mem := syscallInit 0xc0004000 (fun _ => 0xc0003000) atStart.mem }) 0xc0100000 .malloc
    (some 256)
    ⟨atStart_legal.inward, atStart_legal.data⟩ (by decide) (by decide) htable (.inl (by decide))
    (fun a b h => by rw [h]; exact ret_returns _ 3 a) hv
  exact ⟨_, _, _, hv, ret, hcall, harg 256 rfl⟩

end HoloOS
