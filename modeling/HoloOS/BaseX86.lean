import HoloOS.BasePaging

/-! A 32-bit processor that runs straight code: general and segment registers, flags, memory by linear address and
the bytes sent to ports. A `Frame` says what lies on the stack between the stack pointer and a fixed end, and each
instruction that uses the stack has its rule for it. Functions of other code are relations between the state at
their entry and at their return. -/

namespace X86

open Function Paging

inductive Reg where
  | eax | ecx | edx | ebx | esp | ebp | esi | edi
  deriving DecidableEq

inductive Seg where
  | cs | ss | ds | es | fs | gs
  deriving DecidableEq

structure Cpu where
  reg : Reg → Word
  seg : Seg → BitVec 16
  eip : Word
  eflags : Word
  mem : Mem
  out : List (BitVec 16 × BitVec 8)

namespace Cpu

/-- The word `k` words above the stack pointer. -/
def top (k : Nat) (c : Cpu) : Word := read c.mem ((c.reg .esp).toNat + 4 * k)

def push (w : Word) (c : Cpu) : Cpu :=
  { c with
    reg := update c.reg .esp (c.reg .esp - 4)
    mem := write c.mem (c.reg .esp - 4).toNat w }

/-- The words pushed one after another. -/
def pushAll (ws : List Word) (c : Cpu) : Cpu := ws.foldl (fun c w => c.push w) c

/-- `k` words off the stack. -/
def drop (k : Nat) (c : Cpu) : Cpu := { c with reg := update c.reg .esp (c.reg .esp + BitVec.ofNat 32 (4 * k)) }

/-- The privilege level. -/
def cpl (c : Cpu) : Nat := (c.seg .cs).toNat % 4

end Cpu

inductive Src where
  | imm (w : Word)
  | reg (r : Reg)
  | seg (s : Seg)
  deriving DecidableEq

def Src.val (c : Cpu) : Src → Word
  | imm w => w
  | reg r => c.reg r
  | seg s => (c.seg s).setWidth 32

inductive Insn where
  | nop
  | push (src : Src)
  | pop (r : Reg)
  | popSeg (s : Seg)
  | pushad
  | popad
  | movAl (b : BitVec 8)
  | outAl (port : BitVec 16)
  | addEsp (n : Word)
  /-- `mov r, [esp + disp]` -/
  | loadEsp (r : Reg) (disp : Word)
  /-- `mov [esp + disp], r` -/
  | storeEsp (disp : Word) (r : Reg)
  /-- `mov r, [base]` -/
  | load (r base : Reg)
  /-- `mov [base], r` -/
  | store (base r : Reg)
  deriving DecidableEq

/-- The flags after an addition: carry, parity, auxiliary carry, zero, sign and overflow; the others stay. -/
def addFlags (flags a b : Word) : Word :=
  let sum := a + b
  let bit (n : Nat) (v : Bool) : Word := if v then 1#32 <<< n else 0
  (flags &&& 0xfffff72a#32) ||| bit 0 (decide (2 ^ 32 ≤ a.toNat + b.toNat)) |||
    bit 2 (((List.range 8).countP fun i => sum.getLsbD i) % 2 = 0) |||
    bit 4 (decide (16 ≤ a.toNat % 16 + b.toNat % 16)) ||| bit 6 (sum = 0) ||| bit 7 sum.msb |||
    bit 11 (a.msb == b.msb && a.msb != sum.msb)

def Insn.exec : Insn → Cpu → Cpu
  | nop, c => c
  | push src, c => c.push (src.val c)
  | pop r, c => { c with reg := update (c.drop 1).reg r (c.top 0) }
  | popSeg s, c => { c.drop 1 with seg := update c.seg s ((c.top 0).setWidth 16) }
  | pushad, c => c.pushAll ([.eax, .ecx, .edx, .ebx, .esp, .ebp, .esi, .edi].map c.reg)
  | popad, c => { c with
      reg := fun
        | .edi => c.top 0 | .esi => c.top 1 | .ebp => c.top 2 | .esp => c.reg .esp + 32
        | .ebx => c.top 4 | .edx => c.top 5 | .ecx => c.top 6 | .eax => c.top 7 }
  | movAl b, c => { c with reg := update c.reg .eax (c.reg .eax &&& 0xffffff00#32 ||| b.setWidth 32) }
  | outAl port, c => { c with out := c.out ++ [(port, (c.reg .eax).setWidth 8)] }
  | addEsp n, c => { c with
      reg := update c.reg .esp (c.reg .esp + n), eflags := addFlags c.eflags (c.reg .esp) n }
  | loadEsp r disp, c => { c with reg := update c.reg r (read c.mem (c.reg .esp + disp).toNat) }
  | storeEsp disp r, c => { c with mem := write c.mem (c.reg .esp + disp).toNat (c.reg r) }
  | load r base, c => { c with reg := update c.reg r (read c.mem (c.reg base).toNat) }
  | store base r, c => { c with mem := write c.mem (c.reg base).toNat (c.reg r) }

/-- Straight code. -/
def run (code : List Insn) (c : Cpu) : Cpu := code.foldl (fun c i => i.exec c) c

@[simp] theorem run_nil (c : Cpu) : run [] c = c := rfl

@[simp] theorem run_cons (i : Insn) (code : List Insn) (c : Cpu) : run (i :: code) c = run code (i.exec c) := rfl

theorem run_append (code code' : List Insn) (c : Cpu) : run (code ++ code') c = run code' (run code c) :=
  List.foldl_append ..

/-- A near return. -/
def Cpu.ret (c : Cpu) : Cpu := { c.drop 1 with eip := c.top 0 }

/-- What an interrupt gate leads to. -/
structure Gate where
  selector : BitVec 16
  offset : Word
  dpl : Nat

/-- The processor turns interrupts off when it goes through an interrupt gate, and traps, nested tasks and `vm86` with
them. -/
def gateFlags (flags : Word) : Word := flags &&& ~~~0x00034300#32

/-- The gate leads to an inner privilege level. -/
def Cpu.Outer (g : Gate) (c : Cpu) : Prop := g.selector.toNat % 4 < c.cpl

instance (g : Gate) (c : Cpu) : Decidable (c.Outer g) := Nat.decLt _ _

/-- The stack that the handler runs on. From an outer level it is that of the task, with the old one saved on it. -/
def Cpu.switchStack (g : Gate) (ss : BitVec 16) (esp : Word) (c : Cpu) : Cpu :=
  if c.Outer g then
    ({ c with seg := update c.seg .ss ss, reg := update c.reg .esp esp }).pushAll
      [(c.seg .ss).setWidth 32, c.reg .esp]
  else c

/-- An interrupt through a gate, with the inner stack of the task and the error code, if there is one. The state is
that of the interrupted code, with `eip` where it goes on. -/
def Cpu.interrupt (g : Gate) (ss : BitVec 16) (esp : Word) (error : Option Word) (c : Cpu) : Cpu :=
  let c₁ := (c.switchStack g ss esp).pushAll ([c.eflags, (c.seg .cs).setWidth 32, c.eip] ++ error.toList)
  { c₁ with seg := update c₁.seg .cs g.selector, eip := g.offset, eflags := gateFlags c.eflags }

/-- Code of an outer level keeps a data segment of its own level only. -/
def outerSeg (dpl : BitVec 16 → Nat) (cpl : Nat) (sel : BitVec 16) : BitVec 16 :=
  if sel.toNat < 4 ∨ dpl sel < cpl then 0 else sel

/-- The return from an interrupt, for words whose selectors the processor accepts. To an outer privilege level it goes
with the stack of that level, and the data segments that the level must not use are cleared; `dpl` is the level of the
descriptor that a selector names. -/
def Cpu.iretd (dpl : BitVec 16 → Nat) (c : Cpu) : Cpu :=
  let cs := (c.top 1).setWidth 16
  let c₁ := { c.drop 3 with seg := update c.seg .cs cs, eip := c.top 0, eflags := c.top 2 }
  if c.cpl < cs.toNat % 4 then
    { c₁ with
      reg := update c₁.reg .esp (c.top 3)
      seg := fun
        | .cs => cs
        | .ss => (c.top 4).setWidth 16
        | s => outerSeg dpl (cs.toNat % 4) (c.seg s) }
  else c₁

/-- What a function with `args` arguments keeps: the stack pointer, the registers that its caller owns, the
segments of code and stack, and the stack of its caller up to `lim`. -/
structure Returns (lim args : Nat) (c c' : Cpu) : Prop where
  esp : c'.reg .esp = c.reg .esp + 4
  eip : c'.eip = c.top 0
  saved : ∀ r ∈ [Reg.ebx, .ebp, .esi, .edi], c'.reg r = c.reg r
  seg : ∀ s ∈ [Seg.cs, .ss], c'.seg s = c.seg s
  mem : ∀ a, (c.reg .esp).toNat + 4 * (args + 1) ≤ a → a < lim → c'.mem a = c.mem a

/-- A call, from the instruction before it to the one after it; `fn` relates the entry of the function at an address
to its return. -/
def Calls (fn : Word → Cpu → Cpu → Prop) (target : Word) (c c' : Cpu) : Prop :=
  ∃ ret, fn target (c.push ret) c' ∧ c'.eip = ret

section Stack

variable {c c' : Cpu} {lo stop n : Nat} {ws vs : List Word} {w : Word}

@[simp] theorem push_esp : (c.push w).reg .esp = c.reg .esp - 4 := update_self Reg.esp _ c.reg

@[simp] theorem push_reg {r : Reg} (h : r ≠ .esp) : (c.push w).reg r = c.reg r := update_of_ne h ..

@[simp] theorem push_seg : (c.push w).seg = c.seg := rfl

@[simp] theorem push_out : (c.push w).out = c.out := rfl

@[simp] theorem pushAll_nil : c.pushAll [] = c := rfl

@[simp] theorem pushAll_cons : c.pushAll (w :: ws) = (c.push w).pushAll ws := rfl

@[simp] theorem pushAll_reg {r : Reg} (h : r ≠ .esp) : (c.pushAll ws).reg r = c.reg r := by
  induction ws generalizing c with
  | nil => rfl
  | cons w ws ih => exact ih.trans (push_reg h)

@[simp] theorem pushAll_seg : (c.pushAll ws).seg = c.seg := by
  induction ws generalizing c with
  | nil => rfl
  | cons w ws ih => exact ih

@[simp] theorem pushAll_out : (c.pushAll ws).out = c.out := by
  induction ws generalizing c with
  | nil => rfl
  | cons w ws ih => exact ih

@[simp] theorem drop_esp : (c.drop n).reg .esp = c.reg .esp + BitVec.ofNat 32 (4 * n) := update_self Reg.esp _ c.reg

@[simp] theorem drop_mem : (c.drop n).mem = c.mem := rfl

@[simp] theorem push_top : (c.push w).top 0 = w := by
  rw [Cpu.top, push_esp]
  exact read_write_self _ _ _

/-- A function that returns at once. -/
theorem ret_returns (lim args : Nat) (c : Cpu) : Returns lim args c c.ret where
  esp := drop_esp
  eip := rfl
  saved r hr := by
    refine update_of_ne ?_ ..
    rintro rfl
    revert hr
    decide
  seg _ _ := rfl
  mem _ _ _ := rfl

/-- The words from the stack pointer up to an address. -/
structure Frame (c : Cpu) (stop : Nat) (ws : List Word) : Prop where
  room : (c.reg .esp).toNat + 4 * ws.length = stop
  fits : stop < 2 ^ 32
  word : ∀ k (hk : k < ws.length), c.top k = ws[k]

/-- Only memory between two addresses may have changed. -/
def Within (lo stop : Nat) (m m' : Mem) : Prop := ∀ a, a < lo ∨ stop ≤ a → m' a = m a

theorem Within.refl (m : Mem) : Within lo stop m m := fun _ _ => rfl

theorem Within.trans {m m' m'' : Mem} (h : Within lo stop m m') (h' : Within lo stop m' m'') : Within lo stop m m'' :=
  fun a ha => (h' a ha).trans (h a ha)

theorem Within.mono {lo' : Nat} {m m' : Mem} (h : Within lo' stop m m') (hle : lo ≤ lo') : Within lo stop m m' :=
  fun a ha => h a (by omega)

theorem Within.read {m m' : Mem} {a : Nat} (h : Within lo stop m m') (ha : a + 4 ≤ lo ∨ stop ≤ a) :
    read m' a = read m a := read_congr fun b _ _ => h b (by omega)

namespace Frame

theorem empty (c : Cpu) : Frame c (c.reg .esp).toNat [] :=
  ⟨rfl, (c.reg .esp).isLt, fun _ hk => absurd hk (Nat.not_lt_zero _)⟩

/-- A frame depends on the stack pointer and on the memory that it covers. -/
theorem congr (h : Frame c stop ws) (hesp : c'.reg .esp = c.reg .esp)
    (hmem : ∀ a, (c.reg .esp).toNat ≤ a → a < stop → c'.mem a = c.mem a) : Frame c' stop ws := by
  refine ⟨by rw [hesp]; exact h.room, h.fits, fun k hk => ?_⟩
  have hroom := h.room
  rw [← h.word k hk, Cpu.top, Cpu.top, hesp]
  exact read_congr fun b hb hlt => hmem b (by omega) (by omega)

theorem top (h : Frame c stop ws) {k : Nat} (hw : ws[k]? = some w) : c.top k = w := by
  obtain ⟨hk, hw⟩ := List.getElem?_eq_some_iff.1 hw
  rw [h.word k hk, hw]

theorem esp_sub (h : Frame c stop ws) (hroom : 4 * (ws.length + 1) ≤ stop) :
    (c.reg .esp - 4).toNat + 4 = (c.reg .esp).toNat := by
  have hstop := h.room
  rw [BitVec.toNat_sub_of_le (BitVec.le_def.2 (show 4 ≤ _ by omega)), show (4 : Word).toNat = 4 from rfl]
  omega

theorem push (h : Frame c stop ws) (hroom : 4 * (ws.length + 1) ≤ stop) (w : Word) : Frame (c.push w) stop
    (w :: ws) := by
  have hesp := h.esp_sub hroom
  have hstop := h.room
  refine ⟨?_, h.fits, fun k hk => ?_⟩
  · rw [push_esp, List.length_cons]
    omega
  · rw [Cpu.top, push_esp]
    cases k with
    | zero => exact read_write_self _ _ _
    | succ k =>
        refine (read_write_apart _ _ (by omega)).trans ?_
        rw [show (c.reg .esp - 4).toNat + 4 * (k + 1) = (c.reg .esp).toNat + 4 * k by omega]
        exact h.word k (Nat.lt_of_succ_lt_succ hk)

theorem push_within (h : Frame c stop ws) (hroom : lo + 4 * (ws.length + 1) ≤ stop) (w : Word) :
    Within lo stop c.mem (c.push w).mem := by
  intro a ha
  have hesp := h.esp_sub (by omega)
  have hstop := h.room
  exact if_neg (by omega)

theorem pushAll (h : Frame c stop ws) (vs : List Word) (hroom : 4 * (ws.length + vs.length) ≤ stop) :
    Frame (c.pushAll vs) stop (vs.reverse ++ ws) := by
  induction vs generalizing c ws with
  | nil => exact h
  | cons v vs ih =>
      rw [List.length_cons] at hroom
      have h' := ih (h.push (by omega) v) (by rw [List.length_cons]; omega)
      rwa [List.reverse_cons, List.append_assoc]

theorem pushAll_within (h : Frame c stop ws) (vs : List Word) (hroom : lo + 4 * (ws.length + vs.length) ≤ stop) :
    Within lo stop c.mem (c.pushAll vs).mem := by
  induction vs generalizing c ws with
  | nil => exact Within.refl _
  | cons v vs ih =>
      rw [List.length_cons] at hroom
      exact (h.push_within (by omega) v).trans (ih (h.push (by omega) v) (by rw [List.length_cons]; omega))

theorem esp_add (h : Frame c stop ws) (hn : n ≤ ws.length) :
    (c.reg .esp + BitVec.ofNat 32 (4 * n)).toNat = (c.reg .esp).toNat + 4 * n := by
  have hstop := h.room
  have hfits := h.fits
  rw [BitVec.toNat_add, BitVec.toNat_ofNat, Nat.mod_eq_of_lt (show 4 * n < 2 ^ 32 by omega), Nat.mod_eq_of_lt
    (by omega)]

theorem drop (h : Frame c stop ws) (hn : n ≤ ws.length) : Frame (c.drop n) stop (ws.drop n) := by
  have hstop := h.room
  refine ⟨?_, h.fits, fun k hk => ?_⟩
  · rw [drop_esp, h.esp_add hn, List.length_drop]
    omega
  · rw [List.getElem_drop, ← h.word, Cpu.top, Cpu.top, drop_esp, h.esp_add hn, drop_mem]
    congr 1
    omega

theorem pop {r : Reg} (hr : r ≠ .esp) (h : Frame c stop (w :: ws)) :
    Frame ((Insn.pop r).exec c) stop ws ∧
      (Insn.pop r).exec c = { c.drop 1 with reg := update (c.drop 1).reg r w } := by
  have hdrop : Frame (c.drop 1) stop ws := h.drop (Nat.succ_le_succ (Nat.zero_le _))
  refine ⟨hdrop.congr (update_of_ne hr.symm ..) fun _ _ _ => rfl, ?_⟩
  rw [Insn.exec, h.top (k := 0) rfl]
  rfl

theorem ret (h : Frame c stop (w :: ws)) : Frame c.ret stop ws ∧ c.ret = { c.drop 1 with eip := w } := by
  have hdrop : Frame (c.drop 1) stop ws := h.drop (Nat.succ_le_succ (Nat.zero_le _))
  refine ⟨hdrop.congr rfl fun _ _ _ => rfl, ?_⟩
  rw [Cpu.ret, h.top (k := 0) rfl]

theorem loadEsp {k : Nat} (h : Frame c stop ws) (r : Reg) (hw : ws[k]? = some w) :
    (Insn.loadEsp r (BitVec.ofNat 32 (4 * k))).exec c = { c with reg := update c.reg r w } := by
  obtain ⟨hk, -⟩ := List.getElem?_eq_some_iff.1 hw
  rw [Insn.exec, h.esp_add (by omega)]
  exact congrArg (fun w => { c with reg := update c.reg r w }) (h.top hw)

/-- A store into the frame. -/
theorem storeEsp {k : Nat} (h : Frame c stop ws) (hk : k < ws.length) (r : Reg) :
    Frame ((Insn.storeEsp (BitVec.ofNat 32 (4 * k)) r).exec c) stop (ws.set k (c.reg r)) ∧
      Within (c.reg .esp).toNat stop c.mem ((Insn.storeEsp (BitVec.ofNat 32 (4 * k)) r).exec c).mem := by
  have hroom := h.room
  have haddr := h.esp_add (n := k) (by omega)
  refine ⟨⟨?_, h.fits, fun j hj => ?_⟩, fun a ha => ?_⟩
  · rw [List.length_set]
    exact h.room
  · rw [List.length_set] at hj
    rw [List.getElem_set]
    change read (write c.mem (c.reg .esp + BitVec.ofNat 32 (4 * k)).toNat (c.reg r)) ((c.reg .esp).toNat + 4 * j) = _
    rw [haddr]
    split
    · subst j
      exact read_write_self _ _ _
    · exact (read_write_apart _ _ (by omega)).trans (h.word j hj)
  · rw [Insn.exec, haddr]
    exact if_neg (by omega)

theorem addEsp (vs : List Word) (h : Frame c stop (vs ++ ws)) :
    Frame ((Insn.addEsp (BitVec.ofNat 32 (4 * vs.length))).exec c) stop ws := by
  have hdrop := h.drop (n := vs.length) (by rw [List.length_append]; omega)
  rw [List.drop_left] at hdrop
  exact hdrop.congr rfl fun _ _ _ => rfl

theorem popSeg (h : Frame c stop (w :: ws)) (s : Seg) :
    Frame ((Insn.popSeg s).exec c) stop ws ∧
      (Insn.popSeg s).exec c = { c.drop 1 with seg := update c.seg s (w.setWidth 16) } := by
  have hdrop : Frame (c.drop 1) stop ws := h.drop (Nat.succ_le_succ (Nat.zero_le _))
  refine ⟨hdrop.congr rfl fun _ _ _ => rfl, ?_⟩
  rw [Insn.exec, h.top (k := 0) rfl]

theorem popad {f : Reg → Word}
    (h : Frame c stop ([f .edi, f .esi, f .ebp, w, f .ebx, f .edx, f .ecx, f .eax] ++ ws)) :
    Frame (Insn.popad.exec c) stop ws ∧
      Insn.popad.exec c = { c with reg := update f .esp (c.reg .esp + 32) } := by
  have hdrop : Frame (c.drop 8) stop ws := h.drop (n := 8) (by simp)
  refine ⟨hdrop.congr (drop_esp (n := 8)).symm fun _ _ _ => rfl, ?_⟩
  rw [Insn.exec]
  congr 1
  funext r
  cases r with
  | eax => exact h.top (k := 7) rfl
  | ecx => exact h.top (k := 6) rfl
  | edx => exact h.top (k := 5) rfl
  | ebx => exact h.top (k := 4) rfl
  | esp => rfl
  | ebp => exact h.top (k := 2) rfl
  | esi => exact h.top (k := 1) rfl
  | edi => exact h.top (k := 0) rfl

/-- A function that returns leaves the frame of its caller. -/
theorem returns (vs : List Word) (h : Frame c stop (w :: (vs ++ ws))) (hret : Returns stop vs.length c c') :
    Frame ((Insn.addEsp (BitVec.ofNat 32 (4 * vs.length))).exec c') stop ws := by
  have hlen : (w :: (vs ++ ws)).length = vs.length + 1 + ws.length := by simp; omega
  have hdrop := h.drop (n := vs.length + 1) (by omega)
  rw [List.drop_succ_cons, List.drop_left] at hdrop
  have hesp : ((Insn.addEsp (BitVec.ofNat 32 (4 * vs.length))).exec c').reg .esp =
    (c.drop (vs.length + 1)).reg .esp := by
    change c'.reg .esp + _ = _
    rw [hret.esp, drop_esp, BitVec.add_assoc, Nat.mul_succ, Nat.add_comm, BitVec.ofNat_add]
    rfl
  refine hdrop.congr hesp fun a hle hlt => hret.mem a ?_ hlt
  rwa [drop_esp, h.esp_add (by omega)] at hle

theorem iretd {eip cs flags : Word} {dpl : BitVec 16 → Nat} (h : Frame c stop (eip :: cs :: flags :: ws))
    (hcpl : ¬c.cpl < (cs.setWidth 16).toNat % 4) :
    c.iretd dpl =
      { c.drop 3 with seg := update c.seg .cs (cs.setWidth 16), eip := eip, eflags := flags } := by
  rw [Cpu.iretd, h.top (k := 0) rfl, h.top (k := 1) rfl, h.top (k := 2) rfl]
  exact if_neg hcpl

theorem iretd_outer {eip cs flags esp ss : Word} {dpl : BitVec 16 → Nat}
    (h : Frame c stop (eip :: cs :: flags :: esp :: ss :: ws)) (hcpl : c.cpl < (cs.setWidth 16).toNat % 4) :
    c.iretd dpl =
      { c with
        reg := update c.reg .esp esp
        seg := fun
          | .cs => cs.setWidth 16
          | .ss => ss.setWidth 16
          | s => outerSeg dpl ((cs.setWidth 16).toNat % 4) (c.seg s)
        eip := eip
        eflags := flags } := by
  rw [Cpu.iretd, h.top (k := 0) rfl, h.top (k := 1) rfl, h.top (k := 2) rfl, h.top (k := 3) rfl, h.top (k := 4) rfl]
  refine (if_pos hcpl).trans ?_
  simp only [Cpu.drop, update_idem]

end Frame

end Stack

section Interrupt

variable {g : Gate} {c m : Cpu} {ss : BitVec 16} {esp : Word} {error : Option Word} {lo : Nat}

/-- Where the stack of the handler starts. -/
def Cpu.base (g : Gate) (esp : Word) (c : Cpu) : Word := if c.Outer g then esp else c.reg .esp

/-- What the return from an interrupt takes off the stack. -/
def Cpu.saved (g : Gate) (c : Cpu) : List Word :=
  [c.eip, (c.seg .cs).setWidth 32, c.eflags] ++
    if c.Outer g then [c.reg .esp, (c.seg .ss).setWidth 32] else []

theorem Cpu.saved_length (g : Gate) (c : Cpu) : (c.saved g).length ≤ 5 := by
  rw [Cpu.saved]
  split <;> simp

theorem switchStack_frame (ss : BitVec 16) (hroom : lo + 24 ≤ (c.base g esp).toNat) :
    Frame (c.switchStack g ss esp) (c.base g esp).toNat
        (if c.Outer g then [c.reg .esp, (c.seg .ss).setWidth 32] else []) ∧
      Within lo (c.base g esp).toNat c.mem (c.switchStack g ss esp).mem := by
  by_cases hout : c.Outer g
  · rw [Cpu.base, if_pos hout] at hroom ⊢
    rw [if_pos hout, Cpu.switchStack, if_pos hout]
    have h : Frame { c with seg := update c.seg .ss ss, reg := update c.reg .esp esp } esp.toNat [] := Frame.empty _
    exact ⟨h.pushAll [(c.seg .ss).setWidth 32, c.reg .esp] (by simp; omega),
      h.pushAll_within [(c.seg .ss).setWidth 32, c.reg .esp] (by simp; omega)⟩
  · rw [Cpu.base, if_neg hout] at hroom ⊢
    rw [if_neg hout, Cpu.switchStack, if_neg hout]
    exact ⟨Frame.empty c, Within.refl _⟩

theorem switchStack_reg {r : Reg} (h : r ≠ .esp) : (c.switchStack g ss esp).reg r = c.reg r := by
  rw [Cpu.switchStack]
  split
  · rw [pushAll_reg h]
    exact update_of_ne h ..
  · rfl

theorem switchStack_seg : (c.switchStack g ss esp).seg = if c.Outer g then update c.seg .ss ss else c.seg := by
  rw [Cpu.switchStack]
  split
  · exact pushAll_seg
  · rfl

theorem switchStack_out : (c.switchStack g ss esp).out = c.out := by
  rw [Cpu.switchStack]
  split
  · exact pushAll_out
  · rfl

theorem interrupt_frame (ss : BitVec 16) (error : Option Word) (hroom : lo + 24 ≤ (c.base g esp).toNat) :
    Frame (c.interrupt g ss esp error) (c.base g esp).toNat (error.toList ++ c.saved g) ∧
      Within lo (c.base g esp).toNat c.mem (c.interrupt g ss esp error).mem := by
  obtain ⟨h, hwithin⟩ := switchStack_frame ss hroom
  have hlen : ([c.eflags, (c.seg .cs).setWidth 32, c.eip] ++ error.toList).length ≤ 4 := by
    cases error <;> simp
  have houter : (if c.Outer g then [c.reg .esp, (c.seg .ss).setWidth 32] else []).length ≤ 2 := by
    split <;> simp
  have hframe := h.pushAll ([c.eflags, (c.seg .cs).setWidth 32, c.eip] ++ error.toList) (by omega)
  have hrev : ([c.eflags, (c.seg .cs).setWidth 32, c.eip] ++ error.toList).reverse =
      error.toList ++ [c.eip, (c.seg .cs).setWidth 32, c.eflags] := by
    cases error <;> rfl
  rw [hrev, List.append_assoc] at hframe
  exact ⟨hframe.congr rfl fun _ _ _ => rfl, hwithin.trans (h.pushAll_within _ (by omega))⟩

theorem interrupt_reg {r : Reg} (h : r ≠ .esp) : (c.interrupt g ss esp error).reg r = c.reg r :=
  (pushAll_reg h).trans (switchStack_reg h)

theorem interrupt_seg {s : Seg} (hcs : s ≠ .cs) (hss : c.Outer g → s ≠ .ss) :
    (c.interrupt g ss esp error).seg s = c.seg s := by
  refine (update_of_ne hcs ..).trans ?_
  rw [pushAll_seg, switchStack_seg]
  split
  · exact update_of_ne (hss ‹_›) ..
  · rfl

theorem interrupt_cs : (c.interrupt g ss esp error).seg .cs = g.selector := by
  simp only [Cpu.interrupt, update_self]

theorem interrupt_out : (c.interrupt g ss esp error).out = c.out := pushAll_out.trans switchStack_out

/-- The level that an interrupt runs at, and that it returns to, are as the processor allows: the gate does not lead
outwards, and code of an outer level has no data segment of an inner one. -/
structure Cpu.Legal (dpl : BitVec 16 → Nat) (g : Gate) (c : Cpu) : Prop where
  inward : g.selector.toNat % 4 ≤ c.cpl
  data : ∀ s ∈ [Seg.ds, .es, .fs, .gs], c.Outer g → outerSeg dpl c.cpl (c.seg s) = c.seg s

/-- With its frame on the stack and its registers back, the return from an interrupt is the interrupted state. -/
theorem iretd_interrupt {dpl : BitVec 16 → Nat} (hlegal : c.Legal dpl g)
    (h : Frame m (c.base g esp).toNat (c.saved g)) (hlevel : m.cpl = g.selector.toNat % 4)
    (hreg : ∀ r ≠ .esp, m.reg r = c.reg r) (hdata : ∀ s ∈ [Seg.ds, .es, .fs, .gs], m.seg s = c.seg s)
    (hss : ¬c.Outer g → m.seg .ss = c.seg .ss) :
    m.iretd dpl = { c with mem := m.mem, out := m.out } := by
  have hwidth : ∀ v : BitVec 16, (v.setWidth 32).setWidth 16 = v := fun v => by
    apply BitVec.eq_of_toNat_eq
    have := v.isLt
    simp only [BitVec.toNat_setWidth]
    omega
  by_cases hout : c.Outer g
  · rw [Cpu.saved, if_pos hout] at h
    rw [h.iretd_outer (by rw [hwidth, hlevel]; exact hout), hwidth, hwidth]
    have hregs : update m.reg .esp (c.reg .esp) = c.reg := by
      funext r
      by_cases hr : r = .esp
      · rw [hr, update_self]
      · rw [update_of_ne hr, hreg r hr]
    have hclear : ∀ s ∈ [Seg.ds, .es, .fs, .gs], outerSeg dpl ((c.seg .cs).toNat % 4) (m.seg s) = c.seg s :=
      fun s hs => by rw [hdata s hs]; exact hlegal.data s hs hout
    rw [hregs]
    congr 1
    funext s
    cases s with
    | cs => rfl
    | ss => rfl
    | ds => exact hclear .ds (by simp)
    | es => exact hclear .es (by simp)
    | fs => exact hclear .fs (by simp)
    | gs => exact hclear .gs (by simp)
  · have hbase : c.base g esp = c.reg .esp := if_neg hout
    rw [Cpu.saved, if_neg hout, hbase] at h
    rw [h.iretd (by rw [hwidth, hlevel]; exact hout), hwidth]
    have hregs : (m.drop 3).reg = c.reg := by
      funext r
      by_cases hr : r = .esp
      · apply BitVec.eq_of_toNat_eq
        have hroom := (h.drop (n := 3) (by simp)).room
        rw [hr]
        simpa using hroom
      · exact (update_of_ne hr ..).trans (hreg r hr)
    have hsegs : update m.seg .cs (c.seg .cs) = c.seg := by
      funext s
      cases s with
      | cs => rfl
      | ss => exact hss hout
      | ds => exact hdata .ds (by simp)
      | es => exact hdata .es (by simp)
      | fs => exact hdata .fs (by simp)
      | gs => exact hdata .gs (by simp)
    rw [hsegs]
    exact congrArg (fun reg => { c with reg := reg, mem := m.mem, out := m.out }) hregs

end Interrupt

end X86
