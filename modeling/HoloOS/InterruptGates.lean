import HoloOS.InterruptProcess

/-! The descriptors that the kernel writes for the processor: the gates of the interrupt table and the segments that
`tssInit` adds for processes. A descriptor holds an address in pieces; reading the pieces gives the address back. -/

namespace HoloOS

open Function Paging X86

structure GateDesc where
  funcOffsetLowWord : BitVec 16
  selector : BitVec 16
  dCount : BitVec 8
  attr : BitVec 8
  funcOffsetHighWord : BitVec 16
  deriving DecidableEq

/-- Present, of the level, and a 32-bit gate. -/
def idtDescAttr (dpl : BitVec 8) : BitVec 8 := (1 <<< 7) + (dpl <<< 5) + 0xe

def makeIdtDesc (attr : BitVec 8) (func : Word) : GateDesc where
  funcOffsetLowWord := (func &&& 0x0000ffff#32).setWidth 16
  selector := 8
  dCount := 0
  attr := attr
  funcOffsetHighWord := ((func &&& 0xffff0000#32) >>> 16).setWidth 16

/-- `IDT_DESC_CNT` -/
def idtDescCnt : Nat := 0x81

/-- How many times the assembly has `VECTOR`. -/
def vectorCnt : Nat := 0x30

/-- The words that `VECTOR` puts at `intrEntryTable`, one for each entry. -/
def intrEntryTableInit (intrEntryTable : Nat) (entry : Nat → Word) (m : Mem) : Mem :=
  (List.range vectorCnt).foldl (fun m n => write m (intrEntryTable + 4 * n) (entry n)) m

/-- The loop reads `IDT_DESC_CNT` words from `intrEntryTable` on, whatever lies behind the table. -/
def idtDescInit (m : Mem) (intrEntryTable : Nat) (syscallHandler : Word) (idt : Nat → GateDesc) : Nat → GateDesc :=
  let idt := (List.range idtDescCnt).foldl
    (fun idt i => update idt i (makeIdtDesc (idtDescAttr 0) (read m (intrEntryTable + 4 * i)))) idt
  update idt 0x80 (makeIdtDesc (idtDescAttr 3) syscallHandler)

structure GdtDesc where
  limitLowWord : BitVec 16
  baseLowWord : BitVec 16
  baseMidByte : BitVec 8
  attrLowByte : BitVec 8
  limitAttrHighByte : BitVec 8
  baseHighByte : BitVec 8

def makeGdtDesc (descAddr limit : Word) (attrLow attrHigh : BitVec 8) : GdtDesc where
  limitLowWord := (limit &&& 0x0000ffff#32).setWidth 16
  baseLowWord := (descAddr &&& 0x0000ffff#32).setWidth 16
  baseMidByte := ((descAddr &&& 0x00ff0000#32) >>> 16).setWidth 8
  attrLowByte := attrLow
  limitAttrHighByte := ((limit &&& 0x000f0000#32) >>> 16).setWidth 8 + attrHigh
  baseHighByte := (descAddr >>> 24).setWidth 8

/-- The gate, when it is present and a 32-bit interrupt gate. -/
def GateDesc.gate (d : GateDesc) : Option Gate :=
  if d.attr.getLsbD 7 ∧ d.attr &&& 0x1f = 0xe then
    some ⟨d.selector, d.funcOffsetHighWord ++ d.funcOffsetLowWord, ((d.attr >>> 5) &&& 3).toNat⟩
  else none

/-- What `int n` of code at a level leads to. -/
def softwareGate (idt : Nat → GateDesc) (level n : Nat) : Option Gate :=
  if n < idtDescCnt then (idt n).gate.filter fun g => level ≤ g.dpl else none

def GdtDesc.base (d : GdtDesc) : Word := d.baseHighByte ++ d.baseMidByte ++ d.baseLowWord

def GdtDesc.limit (d : GdtDesc) : Word := (d.limitAttrHighByte &&& 0xf#8).setWidth 16 ++ d.limitLowWord

theorem high_low (w : Word) :
    ((w &&& 0xffff0000#32) >>> 16).setWidth 16 ++ (w &&& 0x0000ffff#32).setWidth 16 = w := by
  apply BitVec.eq_of_getLsbD_eq
  intro i hi
  simp only [BitVec.getLsbD_append, BitVec.getLsbD_setWidth, BitVec.getLsbD_ushiftRight, BitVec.getLsbD_and]
  interval_cases i <;> simp

theorem bytes_word (w : Word) :
    (w >>> 24).setWidth 8 ++ ((w &&& 0x00ff0000#32) >>> 16).setWidth 8 ++ (w &&& 0x0000ffff#32).setWidth 16 = w := by
  apply BitVec.eq_of_getLsbD_eq
  intro i hi
  simp only [BitVec.getLsbD_append, BitVec.getLsbD_setWidth, BitVec.getLsbD_ushiftRight, BitVec.getLsbD_and]
  interval_cases i <;> simp

theorem makeIdtDesc_gate (dpl : BitVec 8) (func : Word) (hdpl : dpl = 0 ∨ dpl = 3) :
    (makeIdtDesc (idtDescAttr dpl) func).gate = some ⟨8, func, dpl.toNat⟩ := by
  have hfunc : (makeIdtDesc (idtDescAttr dpl) func).funcOffsetHighWord ++
      (makeIdtDesc (idtDescAttr dpl) func).funcOffsetLowWord = func := high_low func
  have hattr : (makeIdtDesc (idtDescAttr dpl) func).attr = idtDescAttr dpl := rfl
  have hgate : (idtDescAttr dpl).getLsbD 7 = true ∧ idtDescAttr dpl &&& 0x1f = 0xe ∧
      ((idtDescAttr dpl >>> 5) &&& 3).toNat = dpl.toNat := by
    rcases hdpl with rfl | rfl <;> decide
  rw [GateDesc.gate, hfunc, hattr, if_pos ⟨hgate.1, hgate.2.1⟩, hgate.2.2]
  rfl

/-- The loop of `idtDescInit`. -/
theorem fillTable {α : Type} (f : Nat → α) (table : Nat → α) (cnt n : Nat) :
    (List.range cnt).foldl (fun table i => update table i (f i)) table n = if n < cnt then f n else table n := by
  induction cnt with
  | zero => rfl
  | succ cnt ih =>
      rw [List.range_succ, List.foldl_append, List.foldl_cons, List.foldl_nil, update_apply, ih]
      by_cases hn : n = cnt
      · rw [if_pos hn, if_pos (by omega), hn]
      · rw [if_neg hn]
        by_cases hlt : n < cnt
        · rw [if_pos hlt, if_pos (by omega)]
        · rw [if_neg hlt, if_neg (by omega)]

theorem intrEntryTableInit_word (intrEntryTable : Nat) (entry : Nat → Word) (m : Mem) (n : Nat) :
    read (intrEntryTableInit intrEntryTable entry m) (intrEntryTable + 4 * n) =
      if n < vectorCnt then entry n else read m (intrEntryTable + 4 * n) := by
  rw [intrEntryTableInit]
  induction vectorCnt with
  | zero => rfl
  | succ cnt ih =>
      rw [List.range_succ, List.foldl_append, List.foldl_cons, List.foldl_nil]
      by_cases hn : n = cnt
      · rw [hn, read_write_self, if_pos (by omega)]
      · rw [read_write_apart _ _ (by omega), ih]
        by_cases hlt : n < cnt
        · rw [if_pos hlt, if_pos (by omega)]
        · rw [if_neg hlt, if_neg (by omega)]

theorem idtDescInit_entry (m : Mem) (intrEntryTable : Nat) (syscallHandler : Word) (idt : Nat → GateDesc) {n : Nat}
    (hn : n < idtDescCnt) :
    (idtDescInit m intrEntryTable syscallHandler idt n).gate =
      some (if n = 0x80 then ⟨8, syscallHandler, 3⟩ else ⟨8, read m (intrEntryTable + 4 * n), 0⟩) := by
  rw [idtDescInit, update_apply]
  by_cases hcall : n = 0x80
  · rw [if_pos hcall, if_pos hcall, makeIdtDesc_gate 3 _ (.inr rfl)]
    rfl
  · rw [if_neg hcall, if_neg hcall, fillTable, if_pos hn, makeIdtDesc_gate 0 _ (.inl rfl)]
    rfl

/-- What `int n` of the kernel leads to after `idtDescInit`. Behind the table the loop has read words that are no
entries. -/
def kernelEntry (m : Mem) (intrEntryTable : Nat) (entry : Nat → Word) (syscallHandler : Word) (n : Nat) : Option Gate :=
  if n < vectorCnt then some ⟨8, entry n, 0⟩
  else if n = 0x80 then some ⟨8, syscallHandler, 3⟩
  else if n < idtDescCnt then some ⟨8, read m (intrEntryTable + 4 * n), 0⟩
  else none

/-- A vector behind the table takes the kernel to the word that lies there. -/
example : softwareGate (idtDescInit (intrEntryTableInit 0xc0004000 (fun n => 0xc0002000 + BitVec.ofNat 32 (64 * n))
    fun _ => 0x41) 0xc0004000 0xc0003000 fun _ => ⟨0, 0, 0, 0, 0⟩) 0 0x30 = some ⟨8, 0x41414141, 0⟩ := by
  rfl

/-- A descriptor of `makeGdtDesc` reads as the base, the low 20 bits of the limit and the attributes that it was
made of. -/
theorem gdtDesc_reads (descAddr limit : Word) (attrLow attrHigh : BitVec 8) (hattr : attrHigh &&& 0xf#8 = 0) :
    (makeGdtDesc descAddr limit attrLow attrHigh).base = descAddr ∧
      (makeGdtDesc descAddr limit attrLow attrHigh).limit = limit &&& 0xfffff#32 ∧
      (makeGdtDesc descAddr limit attrLow attrHigh).attrLowByte = attrLow ∧
      (makeGdtDesc descAddr limit attrLow attrHigh).limitAttrHighByte &&& 0xf0#8 = attrHigh := by
  have hlow : ∀ i < 4, attrHigh.getLsbD i = false := by
    intro i hi
    have hbit := congrArg (fun v : BitVec 8 => v.getLsbD i) hattr
    simp only [BitVec.getLsbD_and] at hbit
    interval_cases i <;> simpa using hbit
  have hor : (makeGdtDesc descAddr limit attrLow attrHigh).limitAttrHighByte =
      ((limit &&& 0x000f0000#32) >>> 16).setWidth 8 ||| attrHigh := by
    refine BitVec.add_eq_or_of_and_eq_zero _ _ ?_
    apply BitVec.eq_of_getLsbD_eq
    intro i hi
    simp only [BitVec.getLsbD_setWidth, BitVec.getLsbD_ushiftRight, BitVec.getLsbD_and]
    by_cases hnibble : i < 4
    · rw [hlow i hnibble]
      simp
    · interval_cases i <;> simp_all
  refine ⟨bytes_word descAddr, ?_, rfl, ?_⟩
  · rw [GdtDesc.limit, hor]
    apply BitVec.eq_of_getLsbD_eq
    intro i hi
    change ((((((limit &&& 0x000f0000#32) >>> 16).setWidth 8 ||| attrHigh) &&& 0xf#8).setWidth 16) ++
      (limit &&& 0x0000ffff#32).setWidth 16).getLsbD i = _
    simp only [BitVec.getLsbD_append, BitVec.getLsbD_setWidth, BitVec.getLsbD_ushiftRight, BitVec.getLsbD_and,
      BitVec.getLsbD_or]
    have h₀ : attrHigh[0] = false := hlow 0 (by omega)
    have h₁ : attrHigh[1] = false := hlow 1 (by omega)
    have h₂ : attrHigh[2] = false := hlow 2 (by omega)
    have h₃ : attrHigh[3] = false := hlow 3 (by omega)
    interval_cases i <;> simp [h₀, h₁, h₂, h₃]
  · rw [hor]
    apply BitVec.eq_of_getLsbD_eq
    intro i hi
    simp only [BitVec.getLsbD_setWidth, BitVec.getLsbD_ushiftRight, BitVec.getLsbD_and, BitVec.getLsbD_or]
    by_cases hnibble : i < 4
    · rw [hlow i hnibble]
      interval_cases i <;> simp
    · interval_cases i <;> simp_all

theorem gdtDesc_reads_tss : (makeGdtDesc 0xc0006000 107 0x89 0x80).base = 0xc0006000 :=
  (gdtDesc_reads 0xc0006000 107 0x89 0x80 (by decide)).1

end HoloOS
