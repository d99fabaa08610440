import HoloOS.BaseX86

/-! The entries of the interrupts and the one exit that they share. An entry saves the registers above what the
processor has pushed, tells both interrupt controllers that the interrupt is over and calls the handler of its
vector; `intrExit` puts the registers back from wherever the stack pointer stands. -/

namespace HoloOS

open Function Paging X86

/-- The second argument of `VECTOR`: a vector for which the processor pushes an error code has nothing to push. -/
def errorSlot (n : Nat) : Insn :=
  if n ∈ [0x08, 0x0a, 0x0b, 0x0d, 0x0e, 0x11, 0x18, 0x1a, 0x1b, 0x1d, 0x1e] then .nop else .push (.imm 0)

def saveContext : List Insn := [.push (.seg .ds), .push (.seg .es), .push (.seg .fs), .push (.seg .gs), .pushad]

/-- The end of the interrupt, to the slave and to the master. -/
def sendEoi : List Insn := [.movAl 0x20, .outAl 0xa0, .outAl 0x20]

/-- `intr%1entry` up to the call. -/
def intrEntry (n : Nat) : List Insn := errorSlot n :: saveContext ++ sendEoi ++ [.push (.imm (BitVec.ofNat 32 n))]

def restoreContext : List Insn := [.popad, .popSeg .gs, .popSeg .fs, .popSeg .es, .popSeg .ds, .addEsp 4]

def intrExit (dpl : BitVec 16 → Nat) (c : Cpu) : Cpu := (run restoreContext c).iretd dpl

/-- `VECTOR n`, from the entry to the return. The handler runs from `h` to `h'`. -/
def Vector (idtTable : Nat) (fn : Word → Cpu → Cpu → Prop) (dpl : BitVec 16 → Nat) (n : Nat) (c h h' c' : Cpu) :
    Prop :=
  h = run (intrEntry n) c ∧ Calls fn (read h.mem (idtTable + 4 * n)) h h' ∧
    c' = intrExit dpl ((Insn.addEsp 4).exec h')

variable {c c' : Cpu} {lo stop : Nat} {ws : List Word} {e x : Word} {f : Reg → Word} {sg : Seg → Word}

/-- The part of `struct intrStack` that the entry builds, with the values of the registers and of the segments. -/
def context (f : Reg → Word) (x : Word) (sg : Seg → Word) (e : Word) : List Word :=
  [f .edi, f .esi, f .ebp, x, f .ebx, f .edx, f .ecx, f .eax] ++ [sg .gs, sg .fs, sg .es, sg .ds, e]

/-- A segment register on the stack. -/
def segWord (c : Cpu) (s : Seg) : Word := (c.seg s).setWidth 32

theorem saveContext_frame (h : Frame c stop (e :: ws)) (hroom : lo + 4 * (ws.length + 13) ≤ stop) :
    ∃ x, Frame (run saveContext c) stop (context c.reg x (segWord c) e ++ ws) ∧
      Within lo stop c.mem (run saveContext c).mem ∧
      (∀ r ≠ .esp, (run saveContext c).reg r = c.reg r) ∧ (run saveContext c).seg = c.seg ∧
      (run saveContext c).out = c.out := by
  obtain ⟨d, hd⟩ : ∃ d, d = c.pushAll [segWord c .ds, segWord c .es, segWord c .fs, segWord c .gs] := ⟨_, rfl⟩
  have hrun : run saveContext c = d.pushAll ([.eax, .ecx, .edx, .ebx, .esp, .ebp, .esi, .edi].map d.reg) := by
    simp only [hd, saveContext, run_cons, run_nil, Insn.exec, Src.val, push_seg, segWord, pushAll_cons, pushAll_nil]
  have hreg : ∀ r ≠ .esp, d.reg r = c.reg r := fun r hr => by rw [hd, pushAll_reg hr]
  have h₁ : Frame d stop ([segWord c .gs, segWord c .fs, segWord c .es, segWord c .ds] ++ e :: ws) := by
    rw [hd]
    exact h.pushAll _ (by simp; omega)
  have hwithin : Within lo stop c.mem d.mem := by
    rw [hd]
    exact h.pushAll_within _ (by simp; omega)
  have h₂ := h₁.pushAll ([.eax, .ecx, .edx, .ebx, .esp, .ebp, .esi, .edi].map d.reg) (by simp; omega)
  rw [hrun]
  refine ⟨d.reg .esp, ?_, hwithin.trans (h₁.pushAll_within _ (by simp; omega)), fun r hr => ?_, ?_, ?_⟩
  · simpa [context, hreg] using h₂
  · rw [pushAll_reg hr, hreg r hr]
  · rw [pushAll_seg, hd, pushAll_seg]
  · rw [pushAll_out, hd, pushAll_out]

/-- What `restoreContext` leaves. -/
structure Restored (f : Reg → Word) (sg : Seg → Word) (c c' : Cpu) : Prop where
  reg : ∀ r ≠ .esp, c'.reg r = f r
  data : ∀ s ∈ [Seg.ds, .es, .fs, .gs], c'.seg s = (sg s).setWidth 16
  cs : c'.seg .cs = c.seg .cs
  ss : c'.seg .ss = c.seg .ss
  mem : c'.mem = c.mem
  out : c'.out = c.out

/-- Data segments that were on the stack are back. -/
theorem Restored.dataSegs {d : Cpu} (h : Restored f (segWord d) c c') : ∀ s ∈ [Seg.ds, .es, .fs, .gs],
    c'.seg s = d.seg s :=
  fun s hs => by
    rw [h.data s hs, segWord]
    exact BitVec.setWidth_setWidth_of_le _ (by decide)

theorem restoreContext_frame (h : Frame c stop (context f x sg e ++ ws)) :
    Frame (run restoreContext c) stop ws ∧ Restored f sg c (run restoreContext c) := by
  rw [context, List.append_assoc] at h
  obtain ⟨h₁, he₁⟩ := h.popad
  obtain ⟨h₂, he₂⟩ := h₁.popSeg .gs
  obtain ⟨h₃, he₃⟩ := h₂.popSeg .fs
  obtain ⟨h₄, he₄⟩ := h₃.popSeg .es
  obtain ⟨h₅, he₅⟩ := h₄.popSeg .ds
  refine ⟨h₅.addEsp [e], ?_⟩
  have hrun : run restoreContext c = (Insn.addEsp 4).exec ((Insn.popSeg .ds).exec ((Insn.popSeg .es).exec
      ((Insn.popSeg .fs).exec ((Insn.popSeg .gs).exec (Insn.popad.exec c))))) := rfl
  rw [hrun, he₅, he₄, he₃, he₂, he₁]
  refine ⟨fun r hr => ?_, fun s hs => ?_, rfl, rfl, rfl, rfl⟩
  · simp [Insn.exec, Cpu.drop, update_of_ne hr]
  · simp only [List.mem_cons, List.not_mem_nil, or_false] at hs
    rcases hs with rfl | rfl | rfl | rfl <;> simp [Insn.exec, Cpu.drop]

variable {idtTable n : Nat} {fn : Word → Cpu → Cpu → Prop} {dpl : BitVec 16 → Nat} {h h' : Cpu}

/-- What the controllers get. -/
def eoi : List (BitVec 16 × BitVec 8) := [(0xa0, 0x20), (0x20, 0x20)]

/-- What the entry pushes for the error code. -/
def slotWords (n : Nat) : List Word := if errorSlot n = .nop then [] else [0]

theorem errorSlot_frame (n : Nat) (hf : Frame c stop ws) (hroom : lo + 4 * (ws.length + 1) ≤ stop) :
    Frame ((errorSlot n).exec c) stop (slotWords n ++ ws) ∧ Within lo stop c.mem ((errorSlot n).exec c).mem ∧
      (∀ r ≠ .esp, ((errorSlot n).exec c).reg r = c.reg r) ∧ ((errorSlot n).exec c).seg = c.seg ∧
      ((errorSlot n).exec c).out = c.out := by
  by_cases hn : errorSlot n = .nop
  · rw [slotWords, if_pos hn, hn]
    exact ⟨hf, Within.refl _, fun _ _ => rfl, rfl, rfl⟩
  · have hpush : errorSlot n = .push (.imm 0) := by
      rw [errorSlot] at hn ⊢
      split <;> simp_all
    rw [slotWords, if_neg hn, hpush]
    exact ⟨hf.push (by omega) 0, hf.push_within hroom 0, fun r hr => push_reg hr, rfl, rfl⟩

theorem movAl_out (v : Word) (b : BitVec 8) : (v &&& 0xffffff00#32 ||| b.setWidth 32).setWidth 8 = b := by
  rw [BitVec.setWidth_or, BitVec.setWidth_and, show (0xffffff00#32).setWidth 8 = 0#8 from rfl, BitVec.and_zero,
    BitVec.zero_or]
  exact BitVec.setWidth_setWidth_of_le _ (by decide)

theorem sendEoi_run (c : Cpu) :
    (∀ r ≠ .eax, (run sendEoi c).reg r = c.reg r) ∧ (run sendEoi c).seg = c.seg ∧ (run sendEoi c).mem = c.mem ∧
      (run sendEoi c).out = c.out ++ eoi := by
  refine ⟨fun r hr => update_of_ne hr .., rfl, rfl, ?_⟩
  simp only [sendEoi, run_cons, run_nil, Insn.exec, update_self, List.append_assoc, movAl_out]
  rfl

/-- The entry, from what the processor has pushed. -/
theorem intrEntry_frame {vs : List Word} (hf : Frame c stop vs) (hvs : slotWords n ++ vs = e :: ws)
    (hroom : lo + 4 * (ws.length + 14) ≤ stop) :
    ∃ x, Frame (run (intrEntry n) c) stop (BitVec.ofNat 32 n :: (context c.reg x (segWord c) e ++ ws)) ∧
      Within lo stop c.mem (run (intrEntry n) c).mem ∧ (run (intrEntry n) c).seg = c.seg ∧
      (run (intrEntry n) c).out = c.out ++ eoi := by
  have hlen : vs.length ≤ ws.length + 1 := by
    have := congrArg List.length hvs
    rw [List.length_append, List.length_cons] at this
    omega
  obtain ⟨h₁, hwithin₁, hreg₁, hseg₁, hout₁⟩ := errorSlot_frame n hf (show lo + 4 * (vs.length + 1) ≤ stop by omega)
  rw [hvs] at h₁
  obtain ⟨x, h₂, hwithin₂, hreg₂, hseg₂, hout₂⟩ := saveContext_frame h₁
    (show lo + 4 * (ws.length + 13) ≤ stop by omega)
  obtain ⟨hreg₃, hseg₃, hmem₃, hout₃⟩ := sendEoi_run (run saveContext ((errorSlot n).exec c))
  obtain ⟨d, hd⟩ : ∃ d, d = run sendEoi (run saveContext ((errorSlot n).exec c)) := ⟨_, rfl⟩
  rw [← hd] at hreg₃ hseg₃ hmem₃ hout₃
  have hrun : run (intrEntry n) c = d.push (BitVec.ofNat 32 n) := by
    rw [hd, intrEntry, run_append, run_append, run_cons (errorSlot n), run_cons, run_nil, Insn.exec, Src.val]
  have hcontext : context ((errorSlot n).exec c).reg x (segWord ((errorSlot n).exec c)) e =
      context c.reg x (segWord c) e := by
    simp [context, segWord, hreg₁, hseg₁]
  have h₃ : Frame d stop (context c.reg x (segWord c) e ++ ws) := by
    rw [← hcontext]
    exact h₂.congr (hreg₃ .esp (by decide)) fun a _ _ => by rw [hmem₃]
  have hmem : Within lo stop c.mem d.mem := by
    rw [hmem₃]
    exact hwithin₁.trans hwithin₂
  have hfit : lo + 4 * ((context c.reg x (segWord c) e ++ ws).length + 1) ≤ stop := by
    simp [context]
    omega
  rw [hrun]
  refine ⟨x, h₃.push (by omega) _, hmem.trans (h₃.push_within hfit _), ?_, ?_⟩
  · rw [push_seg, hseg₃, hseg₂, hseg₁]
  · rw [push_out, hout₃, hout₂, hout₁]

/-- After the handler the registers are those of the interrupted code. -/
theorem intrExit_frame {args : List Word} {ret : Word} (k : Word)
    (hf : Frame h stop (args ++ (context f x sg e ++ ws)))
    (hroom : 4 * (args.length + ws.length + 14) ≤ stop) (hk : k = BitVec.ofNat 32 (4 * args.length))
    (hret : Returns stop args.length (h.push ret) h') :
    Frame (run restoreContext ((Insn.addEsp k).exec h')) stop ws ∧
      Restored f sg h' (run restoreContext ((Insn.addEsp k).exec h')) := by
  have hpush := hf.push (by simp [context]; omega) ret
  rw [hk]
  obtain ⟨hframe, hrest⟩ := restoreContext_frame (hpush.returns args hret)
  exact ⟨hframe, hrest.reg, hrest.data, hrest.cs, hrest.ss, hrest.mem, hrest.out⟩

variable {g : Gate} {ss : BitVec 16} {esp : Word} {error : Option Word}

/-- The context on the stack is that of the interrupted code. -/
theorem context_interrupt :
    context (c.interrupt g ss esp error).reg x (segWord (c.interrupt g ss esp error)) e = context c.reg x
      (segWord c) e := by
  simp [context, segWord, interrupt_reg, interrupt_seg]

/-- The state in which the entry returns, after a handler that has left `h'`. -/
def beforeIretd (h' : Cpu) : Cpu := run restoreContext ((Insn.addEsp 4).exec h')

/-- The registers and segments at the return; the words left on the stack are `ws`. -/
theorem vector_frame (hws : slotWords n ++ (error.toList ++ c.saved g) = e :: ws)
    (hroom : lo + 84 ≤ (c.base g esp).toNat)
    (htable : idtTable + 4 * n + 4 ≤ lo ∨ (c.base g esp).toNat ≤ idtTable + 4 * n)
    (hfn : ∀ a b, fn (read c.mem (idtTable + 4 * n)) a b → Returns (c.base g esp).toNat 1 a b)
    (hv : Vector idtTable fn dpl n (c.interrupt g ss esp error) h h' c') :
    (∃ ret, fn (read c.mem (idtTable + 4 * n)) (h.push ret) h' ∧ (h.push ret).top 1 = BitVec.ofNat 32 n) ∧
      h.out = c.out ++ eoi ∧ Within lo (c.base g esp).toNat c.mem h.mem ∧
      ∃ m, m = beforeIretd h' ∧ c' = m.iretd dpl ∧ Frame m (c.base g esp).toNat ws ∧ (∀ r ≠ .esp, m.reg r = c.reg r) ∧
        (∀ s ∈ [Seg.ds, .es, .fs, .gs], m.seg s = c.seg s) ∧ m.seg .cs = g.selector ∧
        (¬c.Outer g → m.seg .ss = c.seg .ss) ∧ m.mem = h'.mem ∧ m.out = h'.out := by
  obtain ⟨hh, ⟨ret, hcall, -⟩, hexit⟩ := hv
  obtain ⟨hint, hwithin₁⟩ := interrupt_frame ss error (show lo + 24 ≤ (c.base g esp).toNat by omega)
  have hlen : ws.length ≤ 6 := by
    have hsaved := c.saved_length g
    have hslot : (slotWords n).length ≤ 1 := by
      rw [slotWords]
      split <;> simp
    have herror : error.toList.length ≤ 1 := by cases error <;> simp
    have := congrArg List.length hws
    simp only [List.length_append, List.length_cons] at this
    omega
  obtain ⟨x, hframe, hwithin₂, hseg, hout⟩ := intrEntry_frame hint hws (show lo + 4 * (ws.length + 14) ≤ _ by omega)
  rw [← hh] at hframe hwithin₂ hseg hout
  have hwithin := hwithin₁.trans hwithin₂
  rw [hwithin.read htable] at hcall
  have hret := hfn _ _ hcall
  rw [context_interrupt] at hframe
  have hpush := hframe.push (by simp [context]; omega) ret
  obtain ⟨hm, hrest⟩ := intrExit_frame 4 (show Frame h _ ([BitVec.ofNat 32 n] ++ _) from hframe)
    (by simp; omega) rfl hret
  rw [← beforeIretd] at hm hrest
  have hsegs : ∀ s ∈ [Seg.cs, .ss], h'.seg s = (c.interrupt g ss esp error).seg s := fun s hs => by
    rw [hret.seg s hs, push_seg, hseg]
  refine ⟨⟨ret, hcall, hpush.top rfl⟩, by rw [hout, interrupt_out], hwithin, _, rfl, hexit, hm, hrest.reg,
    hrest.dataSegs, ?_, fun hout => ?_, hrest.mem, hrest.out⟩
  · rw [hrest.cs, hsegs .cs (by simp), interrupt_cs]
  · rw [hrest.ss, hsegs .ss (by simp), interrupt_seg (by decide) (fun h => absurd h hout)]

/-- A process at its first instruction. -/
def atStart : Cpu where
  reg r := if r = .esp then 0xc0000000 else 0
  seg
    | .cs => 0x2b
    | .gs => 0
    | _ => 0x33
  eip := 0x8048000
  eflags := 0x202
  mem _ := 0
  out := []

/-- A gate for the kernel's code, and the levels of the descriptors of a process. -/
def kernelGate : Gate := ⟨8, 0xc0002000, 0⟩

def userDpl (sel : BitVec 16) : Nat := if sel = 0x2b ∨ sel = 0x33 then 3 else 0

/-- A handler that does nothing. -/
def returnsAtOnce (_ : Word) (a b : Cpu) : Prop := b = a.ret

theorem vector_atOnce (idtTable : Nat) (dpl : BitVec 16 → Nat) (n : Nat) (c : Cpu) :
    Vector idtTable returnsAtOnce dpl n c (run (intrEntry n) c) ((run (intrEntry n) c).push 0).ret
      (intrExit dpl ((Insn.addEsp 4).exec ((run (intrEntry n) c).push 0).ret)) :=
  ⟨rfl, ⟨0, rfl, push_top⟩, rfl⟩

theorem returnsAtOnce_returns (lim : Nat) (f : Word) (a b : Cpu) (h : returnsAtOnce f a b) : Returns lim 1 a b := by
  rw [h]
  exact ret_returns lim 1 a

theorem atStart_legal : atStart.Legal userDpl kernelGate := ⟨by decide, by decide⟩

theorem atStart_base : (atStart.base kernelGate 0xc0101000).toNat = 0xc0101000 := by decide

/-- An interrupt leaves the interrupted code as it was, when the entry of its vector pushes a word exactly where the
processor pushes no error code. -/
theorem interrupt_transparent (lo : Nat) (hlegal : c.Legal dpl g) (hslot : error.isSome = true ↔ errorSlot n = .nop)
    (hroom : lo + 84 ≤ (c.base g esp).toNat)
    (htable : idtTable + 4 * n + 4 ≤ lo ∨ (c.base g esp).toNat ≤ idtTable + 4 * n)
    (hfn : ∀ a b, fn (read c.mem (idtTable + 4 * n)) a b → Returns (c.base g esp).toNat 1 a b)
    (hv : Vector idtTable fn dpl n (c.interrupt g ss esp error) h h' c') :
    (∃ ret, fn (read c.mem (idtTable + 4 * n)) (h.push ret) h' ∧ (h.push ret).top 1 = BitVec.ofNat 32 n) ∧
      h.out = c.out ++ eoi ∧ Within lo (c.base g esp).toNat c.mem h.mem ∧
      c' = { c with mem := h'.mem, out := h'.out } := by
  obtain ⟨e, hws⟩ : ∃ e, slotWords n ++ (error.toList ++ c.saved g) = e :: c.saved g := by
    cases error with
    | none => exact ⟨0, by rw [slotWords, if_neg (fun h => by simpa using hslot.2 h)]; rfl⟩
    | some w => exact ⟨w, by rw [slotWords, if_pos (hslot.1 rfl)]; rfl⟩
  obtain ⟨hcall, hout, hwithin, m, -, hc', hframe, hreg, hdata, hcs, hss, hmem, hmout⟩ :=
    vector_frame hws hroom htable hfn hv
  refine ⟨hcall, hout, hwithin, ?_⟩
  rw [hc', iretd_interrupt hlegal hframe (by rw [Cpu.cpl, hcs]) hreg hdata hss, hmem, hmout]

theorem interrupt_transparent_timer :
    ∃ h h' c', Vector 0xc0004000 returnsAtOnce userDpl 0x20
      (atStart.interrupt kernelGate 0x10 0xc0101000 none) h h' c' ∧
      h.out = eoi ∧ c' = { atStart with mem := h'.mem, out := h'.out } := by
  have hv := vector_atOnce 0xc0004000 userDpl 0x20 (atStart.interrupt kernelGate 0x10 0xc0101000 none)
  obtain ⟨-, hout, -, hc'⟩ := interrupt_transparent 0xc0100000 atStart_legal (by decide)
    (by rw [atStart_base]; decide) (by decide) (fun a b => returnsAtOnce_returns _ _ a b) hv
  exact ⟨_, _, _, hv, hout, hc'⟩

/-- Where the entry and the processor do not fit, `iretd` takes its words one place off: the error code as the address
and the old address as the code selector, or, for want of an error code, the old code selector as the address and the
old flags as the code selector. -/
theorem interrupt_misplaced (lo : Nat) (hslot : ¬(error.isSome = true ↔ errorSlot n = .nop))
    (hroom : lo + 84 ≤ (c.base g esp).toNat)
    (htable : idtTable + 4 * n + 4 ≤ lo ∨ (c.base g esp).toNat ≤ idtTable + 4 * n)
    (hfn : ∀ a b, fn (read c.mem (idtTable + 4 * n)) a b → Returns (c.base g esp).toNat 1 a b)
    (hv : Vector idtTable fn dpl n (c.interrupt g ss esp error) h h' c') :
    (∀ w, error = some w → (beforeIretd h').top 0 = w ∧ (beforeIretd h').top 1 = c.eip ∧
        (beforeIretd h').top 2 = (c.seg .cs).setWidth 32) ∧
      (error = none → (beforeIretd h').top 0 = (c.seg .cs).setWidth 32 ∧ (beforeIretd h').top 1 = c.eflags) := by
  cases error with
  | none =>
      have hnop : errorSlot n = .nop := by simpa using hslot
      obtain ⟨ws, hws⟩ : ∃ ws, slotWords n ++ ((none : Option Word).toList ++ c.saved g) =
          c.eip :: (c.seg .cs).setWidth 32 :: c.eflags :: ws := ⟨_, by rw [slotWords, if_pos hnop]; rfl⟩
      obtain ⟨-, -, -, m, rfl, -, hframe, -⟩ := vector_frame hws hroom htable hfn hv
      exact ⟨fun w hw => absurd hw (by simp), fun _ => ⟨hframe.top rfl, hframe.top rfl⟩⟩
  | some w =>
      have hpush : errorSlot n ≠ .nop := by simpa using hslot
      obtain ⟨ws, hws⟩ : ∃ ws, slotWords n ++ ((some w).toList ++ c.saved g) =
          0 :: w :: c.eip :: (c.seg .cs).setWidth 32 :: ws := ⟨_, by rw [slotWords, if_neg hpush]; rfl⟩
      obtain ⟨-, -, -, m, rfl, -, hframe, -⟩ := vector_frame hws hroom htable hfn hv
      refine ⟨fun v hv => ?_, fun hnone => absurd hnone (by simp)⟩
      cases hv
      exact ⟨hframe.top rfl, hframe.top rfl, hframe.top rfl⟩

theorem interrupt_misplaced_stackFault :
    ∃ h h' c', Vector 0xc0004000 returnsAtOnce userDpl 0x0c
      (atStart.interrupt kernelGate 0x10 0xc0101000 (some 0x30)) h h' c' ∧
      (beforeIretd h').top 0 = 0x30 ∧ (beforeIretd h').top 1 = 0x8048000 := by
  have hv := vector_atOnce 0xc0004000 userDpl 0x0c (atStart.interrupt kernelGate 0x10 0xc0101000 (some 0x30))
  obtain ⟨herror, -⟩ := interrupt_misplaced 0xc0100000 (by decide) (by rw [atStart_base]; decide) (by decide)
    (fun a b => returnsAtOnce_returns _ _ a b) hv
  obtain ⟨haddr, hcs, -⟩ := herror 0x30 rfl
  exact ⟨_, _, _, hv, haddr, hcs⟩

end HoloOS
