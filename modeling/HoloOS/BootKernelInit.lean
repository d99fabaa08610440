import HoloOS.BaseBytes
import HoloOS.BaseStores
import HoloOS.BootMemory
import HoloOS.MemoryBoot

/-! How `kernelInit` (`boot/loader.S`) puts the segments of `kernel.bin` in memory. Addresses go through
the page tables of `pageSetup`, here the parameter `phys`. The loader's stack is part of the memory; its code and
the page tables are not, and copies onto them are left out. The specification reads an ELF32 image from the bytes of
its file. -/

namespace HoloOS.Loader

open Paging Stores

def kernelBinBaseAddr : Word := 0x70000

/-- `LOADER_STACK_TOP`, with paging on. -/
def loaderStackTop : Word := 0xc0000900

section Code

variable (phys : Word → Option Nat)

def byteAt (m : Mem) (a : Word) : Option (BitVec 8) := (phys a).map m

def halfAt (m : Mem) (a : Word) : Option (BitVec 16) := do
  let low ← byteAt phys m a
  let high ← byteAt phys m (a + 1)
  return high ++ low

def dwordAt (m : Mem) (a : Word) : Option Word := do
  let b₀ ← byteAt phys m a
  let b₁ ← byteAt phys m (a + 1)
  let b₂ ← byteAt phys m (a + 2)
  let b₃ ← byteAt phys m (a + 3)
  return b₃ ++ b₂ ++ b₁ ++ b₀

/-- `rep movsb` with the direction flag clear. -/
def repMovsb : Nat → Word → Word → Mem → Option Mem
  | 0, _, _, m => some m
  | ecx + 1, edi, esi, m => do
      let value ← byteAt phys m esi
      let m ← store phys m edi value
      repMovsb ecx (edi + 1) (esi + 1) m

def push (esp w : Word) (m : Mem) : Option Mem :=
  storeAll phys ((List.range 4).map fun i => (esp - 4 + BitVec.ofNat 32 i, w.extractLsb' (8 * i) 8)) m

/-- `memcpy` as it is called, with the address after the call at `esp`. It goes back with `ecx` and `ebp` only if the
stack still holds what was pushed. -/
def memcpy (esp ebp ecx back : Word) (m : Mem) : Option Mem := do
  let m ← push phys esp ebp m
  let frame := esp - 4
  let m ← push phys frame ecx m
  let edi ← dwordAt phys m (frame + 8)
  let esi ← dwordAt phys m (frame + 12)
  let size ← dwordAt phys m (frame + 16)
  let m ← repMovsb phys size.toNat edi esi m
  if dwordAt phys m (frame - 4) = some ecx ∧ dwordAt phys m frame = some ebp ∧ dwordAt phys m esp = some back
  then some m else none

/-- The rounds of the loop: `ebx` is the program header and `edx` the size of one. -/
def kernelInitCopySeg (ebp back edx : Word) : Nat → Word → Mem → Option Mem
  | 0, _, m => some m
  | ecx + 1, ebx, m => do
      let type ← byteAt phys m ebx
      let m ← (if type = 0 then some m else do
        let esp := loaderStackTop - 4
        let size ← dwordAt phys m (ebx + 16)
        let m ← push phys esp size m
        let src ← dwordAt phys m (ebx + 4)
        let m ← push phys (esp - 4) (src + kernelBinBaseAddr) m
        let dst ← dwordAt phys m (ebx + 8)
        let m ← push phys (esp - 8) dst m
        let m ← push phys (esp - 12) back m
        memcpy phys (esp - 16) ebp (BitVec.ofNat 32 (ecx + 1)) back m)
      kernelInitCopySeg ebp back edx ecx (ebx + edx) m

/-- `loop` counts `ecx` down before it tests it. -/
def loopRounds (ecx : Word) : Nat := (ecx - 1).toNat + 1

/-- `kernelInit` as it is called from `enterKernel`, which goes on at `after`; `back` is the address after its own
call of `memcpy`. -/
def kernelInit (ebp after back : Word) (m : Mem) : Option Mem := do
  let m ← push phys loaderStackTop after m
  let ebx ← dwordAt phys m (kernelBinBaseAddr + 28)
  let dx ← halfAt phys m (kernelBinBaseAddr + 42)
  let cx ← halfAt phys m (kernelBinBaseAddr + 44)
  let m ← kernelInitCopySeg phys ebp back (dx.setWidth 32) (loopRounds (cx.setWidth 32)) (ebx + kernelBinBaseAddr) m
  if dwordAt phys m (loaderStackTop - 4) = some after then some m else none

end Code

/-- The first megabyte, at 0 and at 0xc0000000. -/
def lowMegabyte (a : Word) : Option Nat :=
  if a < 0x100000 then some a.toNat
  else if 0xc0000000 ≤ a ∧ a < 0xc0100000 then some (a.toNat - 0xc0000000)
  else none

section Elf

variable (file : Mem)

def phoff : Nat := (read file 28).toNat

def phentsize : Nat := (readHalf file 42).toNat

def phnum : Nat := (readHalf file 44).toNat

/-- The offset of a program header. -/
def header (k : Nat) : Nat := phoff file + k * phentsize file

def pType (k : Nat) : Word := read file (header file k)

def pOffset (k : Nat) : Nat := (read file (header file k + 4)).toNat

def pVaddr (k : Nat) : Word := read file (header file k + 8)

def pFilesz (k : Nat) : Nat := (read file (header file k + 16)).toNat

def pMemsz (k : Nat) : Nat := (read file (header file k + 20)).toNat

/-- The type of a header that is not used. -/
def ptNull : Word := 0

def ptLoad : Word := 1

def Loadable (k : Nat) : Prop := k < phnum file ∧ pType file k = ptLoad

def fileByte (k x : Nat) : BitVec 8 := file (pOffset file k + x)

/-- The address of byte `x` of a segment. -/
def target (k x : Nat) : Word := pVaddr file k + BitVec.ofNat 32 x

/-- An ELF32 image of `size` bytes with a program header. -/
structure ElfImage (size : Nat) : Prop where
  ident : file 0 = 0x7f ∧ file 1 = 0x45 ∧ file 2 = 0x4c ∧ file 3 = 0x46 ∧ file 4 = 1 ∧ file 5 = 1
  nonempty : 1 ≤ phnum file
  elfHeader : 52 ≤ size
  headers : ∀ k < phnum file, header file k + 32 ≤ size
  bytes : ∀ k < phnum file, pType file k ≠ ptNull → pOffset file k + pFilesz file k ≤ size
  sizes : ∀ k, Loadable file k → pFilesz file k ≤ pMemsz file k

/-- The image is in memory at `KERNEL_BIN_BASE_ADDR`. -/
def ImageAt (phys : Word → Option Nat) (size : Nat) (m : Mem) : Prop :=
  ∀ o < size, byteAt phys m (kernelBinBaseAddr + BitVec.ofNat 32 o) = some (file o)

/-- The loadable segments have places of their own, and every other header lies in them. -/
structure Placed (phys : Word → Option Nat) (size : Nat) : Prop where
  disjoint : ∀ j k, Loadable file j → Loadable file k → ∀ x < pMemsz file j, ∀ y < pMemsz file k,
    target file j x = target file k y → j = k
  apart : ∀ k, Loadable file k → ∀ x < pMemsz file k, ∀ o < size,
    phys (target file k x) ≠ phys (kernelBinBaseAddr + BitVec.ofNat 32 o)
  others : ∀ j < phnum file, pType file j ≠ ptNull → pType file j ≠ ptLoad → ∀ x < pFilesz file j,
    ∃ k, Loadable file k ∧ ∃ y < pMemsz file k, target file j x = target file k y

/-- The part of the loader's stack that `kernelInit` uses. -/
def OnStack (p : Nat) : Prop := 0x8e4 ≤ p ∧ p < 0x900

/-- The stack and the code of the loader, and the page tables. -/
def InUse (p : Nat) : Prop := 0x8e4 ≤ p ∧ p < 0x1100 ∨ 0x100000 ≤ p ∧ p < 0x200000

theorem OnStack.inUse {p : Nat} (h : OnStack p) : InUse p := .inl ⟨h.1, Nat.lt_trans h.2 (by decide)⟩

/-- The stack is where `pageSetup` has it, and the image is elsewhere. -/
structure StackAt (phys : Word → Option Nat) (size : Nat) : Prop where
  mapped : ∀ i < 28, phys (0xc00008e4 + BitVec.ofNat 32 i) = some (0x8e4 + i)
  apart : ∀ o < size, ∀ p, phys (kernelBinBaseAddr + BitVec.ofNat 32 o) = some p → ¬OnStack p

/-- Every loadable segment has its bytes of the file, and zeros after them. -/
def SegmentsLoaded (phys : Word → Option Nat) (m : Mem) : Prop :=
  ∀ k, Loadable file k → ∀ x < pMemsz file k,
    byteAt phys m (target file k x) = some (if x < pFilesz file k then fileByte file k x else 0)

/-- What `memcpy` stores for a header. -/
def copiesOf (k : Nat) : List (Word × BitVec 8) :=
  (List.range (pFilesz file k)).map fun x => (target file k x, fileByte file k x)

/-- What is stored for the headers whose type has a low byte other than 0. -/
def copiesFrom (k n : Nat) : List (Word × BitVec 8) :=
  ((List.range' k n).filter fun k => file (header file k) ≠ 0).flatMap (copiesOf file)

def copies : List (Word × BitVec 8) := copiesFrom file 0 (phnum file)

/-- The loader's memory in use lies outside the segments, and nothing is copied onto it. -/
structure Spares (phys : Word → Option Nat) : Prop where
  copied : ∀ w ∈ copies file, ∀ p, phys w.1 = some p → ¬InUse p
  loaded : ∀ k, Loadable file k → ∀ x < pMemsz file k, ∀ p, phys (target file k x) = some p → ¬InUse p

/-- Every copied byte is mapped, the last byte copied onto one of a segment is that of the segment, and
past the bytes of the file the memory has zeros already, unless some header's bytes, zeros at last, are
copied there. -/
structure Ready (phys : Word → Option Nat) (m : Mem) : Prop where
  mapped : ∀ w ∈ copies file, ∃ p, phys w.1 = some p
  kept : ∀ k, Loadable file k → ∀ x < pFilesz file k, ∀ p, phys (target file k x) = some p →
    ∀ v, Last phys (copies file) p v → v = fileByte file k x
  clear : ∀ k, Loadable file k → ∀ x < pMemsz file k, pFilesz file k ≤ x →
    ∃ p, phys (target file k x) = some p ∧ (∀ v, Last phys (copies file) p v → v = 0) ∧
      (Untouched phys (copies file) p → m p = 0)

end Elf

/-- The address that the page tables in `m` give, the directory being that of `pageSetup`. -/
def walk (m : Mem) (a : Word) : Option Nat :=
  (mapped m kernelDir (a.toNat / 4096)).map (· + a.toNat % 4096)

theorem lowMegabyte_eq (a : Word) : lowMegabyte a =
    if a.toNat < 0x100000 then some a.toNat
    else if 0xc0000000 ≤ a.toNat ∧ a.toNat < 0xc0100000 then some (a.toNat - 0xc0000000)
    else none := rfl

/-- Below the window onto the tables, `pageSetup` maps the first megabyte and nothing else. -/
theorem walk_pageSetup (m : Mem) {a : Word} (h : a < 0xffc00000) : walk (pageSetup m) a = lowMegabyte a := by
  have hboot := pageSetup_bootPages m
  have hlt : a.toNat < 0xffc00000 := h
  have htable : ∀ i, a.toNat / 4096 / 1024 = i → entry (pageSetup m) kernelDir i = some firstTable →
      walk (pageSetup m) a = if a.toNat / 4096 % 1024 < 256 then
        some (a.toNat / 4096 % 1024 * 4096 + a.toNat % 4096) else none := by
    intro i hi hentry
    rw [walk, mapped, hi, hentry, Option.bind_some]
    by_cases hlow : a.toNat / 4096 % 1024 < 256
    · rw [if_pos hlow, hboot.low _ hlow]
      rfl
    · rw [if_neg hlow, hboot.high _ (by omega) (by omega)]
      rfl
  rw [lowMegabyte_eq]
  by_cases hzero : a.toNat / 4096 / 1024 = 0
  · rw [htable 0 hzero (pageSetup_zero m)]
    by_cases hlow : a.toNat / 4096 % 1024 < 256
    · rw [if_pos hlow, if_pos (by omega), Option.some.injEq]
      omega
    · rw [if_neg hlow, if_neg (by omega), if_neg (by omega)]
  by_cases hkernel : a.toNat / 4096 / 1024 = 768
  · rw [htable 768 hkernel hboot.first]
    by_cases hlow : a.toNat / 4096 % 1024 < 256
    · rw [if_pos hlow, if_neg (by omega), if_pos (by omega), Option.some.injEq]
      omega
    · rw [if_neg hlow, if_neg (by omega), if_neg (by omega)]
  · rw [walk, mapped, hboot.absent _ (by omega) (by omega) hkernel, if_neg (by omega), if_neg (by omega)]
    rfl

variable {phys : Word → Option Nat} {file m m' : Mem} {size : Nat}

theorem byteAt_eq_some {a : Word} {v : BitVec 8} :
    byteAt phys m a = some v ↔ ∃ p, phys a = some p ∧ m p = v := Option.map_eq_some_iff

theorem binAddr_add (o i : Nat) : kernelBinBaseAddr + BitVec.ofNat 32 o + BitVec.ofNat 32 i =
    kernelBinBaseAddr + BitVec.ofNat 32 (o + i) := Flat.add_ofNat_ofNat _ _ _

theorem ImageAt.dword (hat : ImageAt file phys size m) {o : Nat} (ho : o + 4 ≤ size) :
    dwordAt phys m (kernelBinBaseAddr + BitVec.ofNat 32 o) = some (read file o) := by
  have h₁ := hat (o + 1) (by omega)
  have h₂ := hat (o + 2) (by omega)
  have h₃ := hat (o + 3) (by omega)
  rw [← binAddr_add] at h₁ h₂ h₃
  simp only [dwordAt, hat o (by omega), show (1 : Word) = BitVec.ofNat 32 1 from rfl,
    show (2 : Word) = BitVec.ofNat 32 2 from rfl, show (3 : Word) = BitVec.ofNat 32 3 from rfl, h₁, h₂, h₃]
  rfl

theorem ImageAt.half (hat : ImageAt file phys size m) {o : Nat} (ho : o + 2 ≤ size) :
    halfAt phys m (kernelBinBaseAddr + BitVec.ofNat 32 o) = some (readHalf file o) := by
  have h₁ := hat (o + 1) (by omega)
  rw [← binAddr_add] at h₁
  simp only [halfAt, hat o (by omega), show (1 : Word) = BitVec.ofNat 32 1 from rfl, h₁]
  rfl

/-- Stores apart from the image leave it. -/
theorem ImageAt.storeAll (hat : ImageAt file phys size m) {ws : List (Word × BitVec 8)}
    (hapart : ∀ w ∈ ws, ∀ o < size, phys w.1 ≠ phys (kernelBinBaseAddr + BitVec.ofNat 32 o))
    (hm : storeAll phys ws m = some m') : ImageAt file phys size m' := by
  intro o ho
  obtain ⟨p, hp, hv⟩ := byteAt_eq_some.1 (hat o ho)
  refine byteAt_eq_some.2 ⟨p, hp, (storeAll_untouched hm fun w hw he => ?_).trans hv⟩
  exact hapart w hw o ho (he.trans hp.symm)

theorem repMovsb_eq {a : Word} {o n : Nat} (hat : ImageAt file phys size m) (hfit : o + n ≤ size)
    (hapart : ∀ x < n, ∀ o < size,
      phys (a + BitVec.ofNat 32 x) ≠ phys (kernelBinBaseAddr + BitVec.ofNat 32 o)) :
    repMovsb phys n a (kernelBinBaseAddr + BitVec.ofNat 32 o) m =
      storeAll phys ((List.range n).map fun x => (a + BitVec.ofNat 32 x, file (o + x))) m := by
  induction n generalizing a o m with
  | zero => rfl
  | succ n ih =>
      have hzero : a + BitVec.ofNat 32 0 = a := BitVec.add_zero a
      have hstep : repMovsb phys (n + 1) a (kernelBinBaseAddr + BitVec.ofNat 32 o) m =
          (store phys m a (file o)).bind
            (repMovsb phys n (a + 1) (kernelBinBaseAddr + BitVec.ofNat 32 o + BitVec.ofNat 32 1)) := by
        rw [repMovsb, hat o (by omega)]
        rfl
      rw [hstep, binAddr_add, List.range_succ_eq_map, List.map_cons, List.map_map, Stores.storeAll, hzero]
      refine Option.bind_congr fun m₁ hm₁ => ?_
      have hone : Stores.storeAll phys [(a, file o)] m = some m₁ := by
        rw [Stores.storeAll, hm₁]
        rfl
      have hat₁ : ImageAt file phys size m₁ := by
        refine hat.storeAll (fun w hw => ?_) hone
        rw [List.mem_singleton.1 hw, ← hzero]
        exact hapart 0 (by omega)
      rw [ih hat₁ (by omega) fun x hx => by rw [Flat.add_one_ofNat]; exact hapart (x + 1) (by omega)]
      refine congrArg (Stores.storeAll phys · m₁) (List.map_congr_left fun x _ => ?_)
      rw [Flat.add_one_ofNat, Nat.add_assoc, Nat.add_comm 1 x]
      rfl

theorem type_low (file : Mem) (k : Nat) : (pType file k).extractLsb' 0 8 = file (header file k) :=
  read_byte file (header file k) (k := 0) (by omega)

theorem Loadable.copied {k : Nat} (h : Loadable file k) : file (header file k) ≠ 0 := by
  rw [← type_low file k, h.2]
  decide

theorem not_null {k : Nat} (h : file (header file k) ≠ 0) : pType file k ≠ ptNull := by
  intro he
  rw [← type_low file k, he] at h
  exact h rfl

theorem header_succ (k : Nat) : header file (k + 1) = header file k + phentsize file := by
  rw [header, header, Nat.succ_mul, Nat.add_assoc]

/-- No header that is copied touches the image. -/
theorem Placed.apart_image (hplaced : Placed file phys size) (himage : ElfImage file size) {k x : Nat}
    (hk : k < phnum file) (hcopied : file (header file k) ≠ 0) (hx : x < pFilesz file k) :
    ∀ o < size, phys (target file k x) ≠ phys (kernelBinBaseAddr + BitVec.ofNat 32 o) := by
  by_cases hload : pType file k = ptLoad
  · exact hplaced.apart k ⟨hk, hload⟩ x (Nat.lt_of_lt_of_le hx (himage.sizes k ⟨hk, hload⟩))
  · obtain ⟨j, hj, y, hy, he⟩ := hplaced.others k hk (not_null hcopied) hload x hx
    rw [he]
    exact hplaced.apart j hj y hy

section Stack

variable {j : Nat} {w : Word}

/-- A word of the stack, counted from the lowest one. -/
def stackWord (j : Nat) : Word := 0xc00008e4 + BitVec.ofNat 32 (4 * j)

theorem StackAt.byte (hstack : StackAt phys size) (hj : j < 7) {i : Nat} (hi : i < 4) :
    phys (stackWord j + BitVec.ofNat 32 i) = some (0x8e4 + 4 * j + i) := by
  have hmapped := hstack.mapped (4 * j + i) (by omega)
  rw [stackWord, Flat.add_ofNat_ofNat, hmapped, Nat.add_assoc]

theorem StackAt.dword (hstack : StackAt phys size) (hj : j < 7) (m : Mem) :
    dwordAt phys m (stackWord j) = some (read m (0x8e4 + 4 * j)) := by
  have h₀ := hstack.byte hj (i := 0) (by decide)
  have h₁ := hstack.byte hj (i := 1) (by decide)
  have h₂ := hstack.byte hj (i := 2) (by decide)
  have h₃ := hstack.byte hj (i := 3) (by decide)
  rw [show stackWord j + BitVec.ofNat 32 0 = stackWord j from BitVec.add_zero _] at h₀
  simp only [dwordAt, byteAt, show (1 : Word) = BitVec.ofNat 32 1 from rfl,
    show (2 : Word) = BitVec.ofNat 32 2 from rfl, show (3 : Word) = BitVec.ofNat 32 3 from rfl, h₀, h₁, h₂, h₃]
  rfl

/-- A push writes the word below the stack pointer. -/
theorem StackAt.push (hstack : StackAt phys size) (hj : j < 7) {esp : Word} (hesp : esp - 4 = stackWord j) (m : Mem) :
    push phys esp w m = some (write m (0x8e4 + 4 * j) w) := by
  have hstore : ∀ i < 4, ∀ m : Mem, store phys m (stackWord j + BitVec.ofNat 32 i) (w.extractLsb' (8 * i) 8) =
      some (Function.update m (0x8e4 + 4 * j + i) (w.extractLsb' (8 * i) 8)) :=
    fun i hi m => store_of (hstack.byte hj hi)
  rw [Loader.push, hesp, show List.range 4 = [0, 1, 2, 3] from rfl]
  simp only [List.map_cons, List.map_nil, Stores.storeAll, hstore 0 (by decide), hstore 1 (by decide),
    hstore 2 (by decide), hstore 3 (by decide), Option.bind_some, Option.some.injEq]
  funext p
  simp only [Function.update_apply, write]
  by_cases hp : 0x8e4 + 4 * j ≤ p ∧ p < 0x8e4 + 4 * j + 4
  · rw [if_pos hp]
    obtain ⟨i, rfl⟩ := Nat.exists_eq_add_of_le hp.1
    have hi : i = 0 ∨ i = 1 ∨ i = 2 ∨ i = 3 := by omega
    rcases hi with rfl | rfl | rfl | rfl <;> simp
  · rw [if_neg hp, if_neg (by omega), if_neg (by omega), if_neg (by omega), if_neg (by omega)]

theorem write_off {p : Nat} (hj : j < 7) (hp : ¬OnStack p) (m : Mem) : write m (0x8e4 + 4 * j) w p = m p := by
  refine if_neg fun h => hp ⟨?_, ?_⟩
  · omega
  · omega

theorem ImageAt.write (hat : ImageAt file phys size m) (hstack : StackAt phys size) (hj : j < 7) :
    ImageAt file phys size (write m (0x8e4 + 4 * j) w) := by
  intro o ho
  obtain ⟨p, hp, hv⟩ := byteAt_eq_some.1 (hat o ho)
  exact byteAt_eq_some.2 ⟨p, hp, (write_off hj (hstack.apart o ho p hp) m).trans hv⟩

end Stack

theorem copiesFrom_succ (k n : Nat) : copiesFrom file k (n + 1) =
    (if file (header file k) = 0 then [] else copiesOf file k) ++ copiesFrom file (k + 1) n := by
  rw [copiesFrom, List.range'_succ, List.filter_cons]
  by_cases hzero : file (header file k) = 0
  · rw [if_pos hzero, if_neg (by simp [hzero])]
    rfl
  · rw [if_neg hzero, if_pos (decide_eq_true hzero)]
    rfl

theorem mem_copiesOf {k : Nat} {w : Word × BitVec 8} (h : w ∈ copiesOf file k) :
    ∃ x < pFilesz file k, w = (target file k x, fileByte file k x) := by
  obtain ⟨x, hx, rfl⟩ := List.mem_map.1 h
  exact ⟨x, List.mem_range.1 hx, rfl⟩

theorem loopRounds_phnum (himage : ElfImage file size) :
    loopRounds ((readHalf file 44).setWidth 32) = phnum file := by
  have hpos : 1 ≤ (readHalf file 44).toNat := himage.nonempty
  have hlt := (readHalf file 44).isLt
  rw [loopRounds, phnum, BitVec.toNat_sub, BitVec.toNat_setWidth, show (1 : Word).toNat = 1 from rfl]
  omega

theorem mem_copies {w : Word × BitVec 8} : w ∈ copies file ↔ ∃ k < phnum file, file (header file k) ≠ 0 ∧
    ∃ x < pFilesz file k, w = (target file k x, fileByte file k x) := by
  simp only [copies, copiesFrom, List.mem_flatMap, List.mem_filter, List.mem_range'_1, decide_eq_true_eq]
  constructor
  · rintro ⟨k, ⟨⟨-, hk⟩, hcopied⟩, hw⟩
    exact ⟨k, by omega, hcopied, mem_copiesOf hw⟩
  · rintro ⟨k, hk, hcopied, x, hx, rfl⟩
    exact ⟨k, ⟨⟨Nat.zero_le k, by omega⟩, hcopied⟩, List.mem_map.2 ⟨x, List.mem_range.2 hx, rfl⟩⟩

section Rounds

variable {k n : Nat} {ebp after back ecx : Word} {m₁ : Mem}

/-- The stack during the copy for a header. -/
def called (file : Mem) (k : Nat) (ebp back ecx : Word) (m : Mem) : Mem :=
  [(5, read file (header file k + 16)), (4, read file (header file k + 4) + kernelBinBaseAddr), (3, pVaddr file k),
    (2, back), (1, ebp), (0, ecx)].foldl (fun m w => write m (0x8e4 + 4 * w.1) w.2) m

/-- The copies of a header leave the loader's stack. -/
theorem Spares.untouched (hspares : Spares file phys) (hk : k < phnum file) (hcopied : file (header file k) ≠ 0)
    {p : Nat} (hp : OnStack p) : Untouched phys (copiesOf file k) p := by
  intro w hw he
  obtain ⟨x, hx, rfl⟩ := mem_copiesOf hw
  exact hspares.copied _ (mem_copies.2 ⟨k, hk, hcopied, x, hx, rfl⟩) p he hp.inUse

theorem Spares.word (hspares : Spares file phys) (hk : k < phnum file) (hcopied : file (header file k) ≠ 0)
    (hm : Stores.storeAll phys (copiesOf file k) m = some m') {j : Nat} (hj : j < 7) :
    read m' (0x8e4 + 4 * j) = read m (0x8e4 + 4 * j) :=
  read_congr fun b hlo hhi => storeAll_untouched hm (hspares.untouched hk hcopied ⟨by omega, by omega⟩)

/-- `memcpy` with its arguments on the stack. -/
theorem memcpy_eq (hplaced : Placed file phys size) (himage : ElfImage file size) (hstack : StackAt phys size)
    (hspares : Spares file phys) (hat : ImageAt file phys size m) (hk : k < phnum file)
    (hcopied : file (header file k) ≠ 0) (hdst : read m (0x8e4 + 4 * 3) = pVaddr file k)
    (hsrc : read m (0x8e4 + 4 * 4) = read file (header file k + 4) + kernelBinBaseAddr)
    (hsize : read m (0x8e4 + 4 * 5) = read file (header file k + 16)) (hback : read m (0x8e4 + 4 * 2) = back) :
    memcpy phys (loaderStackTop - 4 - 16) ebp ecx back m = Stores.storeAll phys (copiesOf file k)
      (write (write m (0x8e4 + 4 * 1) ebp) (0x8e4 + 4 * 0) ecx) := by
  obtain ⟨m₂, hm₂⟩ : ∃ m₂, m₂ = write (write m (0x8e4 + 4 * 1) ebp) (0x8e4 + 4 * 0) ecx := ⟨_, rfl⟩
  have hkept : ∀ j, 2 ≤ j → read m₂ (0x8e4 + 4 * j) = read m (0x8e4 + 4 * j) := fun j hj => by
    rw [hm₂, read_write_apart _ _ (by omega), read_write_apart _ _ (by omega)]
  have hecx : read m₂ (0x8e4 + 4 * 0) = ecx := by rw [hm₂, read_write_self]
  have hebp : read m₂ (0x8e4 + 4 * 1) = ebp := by rw [hm₂, read_write_apart _ _ (by omega), read_write_self]
  have hat₂ : ImageAt file phys size m₂ := by
    rw [hm₂]
    exact (hat.write hstack (by decide)).write hstack (by decide)
  have hrep : repMovsb phys (pFilesz file k) (pVaddr file k) (read file (header file k + 4) + kernelBinBaseAddr) m₂ =
      Stores.storeAll phys (copiesOf file k) m₂ := by
    have hsrc : read file (header file k + 4) + kernelBinBaseAddr =
        kernelBinBaseAddr + BitVec.ofNat 32 (pOffset file k) := by
      rw [BitVec.add_comm, pOffset, BitVec.ofNat_toNat, BitVec.setWidth_eq]
    rw [hsrc]
    exact repMovsb_eq hat₂ (himage.bytes k hk (not_null hcopied))
      fun x hx => hplaced.apart_image himage hk hcopied hx
  change ((push phys (loaderStackTop - 4 - 16) ebp m).bind fun m =>
    (push phys (loaderStackTop - 4 - 16 - 4) ecx m).bind fun m =>
      (dwordAt phys m (stackWord 3)).bind fun edi => (dwordAt phys m (stackWord 4)).bind fun esi =>
        (dwordAt phys m (stackWord 5)).bind fun size => (repMovsb phys size.toNat edi esi m).bind fun m =>
          if dwordAt phys m (stackWord 0) = some ecx ∧ dwordAt phys m (stackWord 1) = some ebp ∧
            dwordAt phys m (stackWord 2) = some back then some m else none) = _
  rw [hstack.push (j := 1) (by decide) (by decide), Option.bind_some,
    hstack.push (j := 0) (by decide) (by decide), Option.bind_some, ← hm₂, hstack.dword (by decide),
    Option.bind_some, hstack.dword (by decide), Option.bind_some, hstack.dword (by decide), Option.bind_some,
    hkept 3 (by decide), hkept 4 (by decide), hkept 5 (by decide), hdst, hsrc, hsize]
  refine Eq.trans (congrArg (Option.bind · _) hrep) ?_
  refine (Option.bind_congr fun m₃ hm₃ => ?_).trans (Option.bind_fun_some _)
  rw [hstack.dword (by decide), hstack.dword (by decide), hstack.dword (by decide),
    hspares.word hk hcopied hm₃ (by decide), hspares.word hk hcopied hm₃ (by decide),
    hspares.word hk hcopied hm₃ (by decide), hecx, hebp, hkept 2 (by decide), hback]
  exact if_pos ⟨rfl, rfl, rfl⟩

/-- One round stores the bytes of the header it is at. -/
theorem kernelInitCopySeg_succ (hplaced : Placed file phys size) (himage : ElfImage file size)
    (hstack : StackAt phys size) (hspares : Spares file phys) (hat : ImageAt file phys size m) (hk : k < phnum file)
    (edx : Word) :
    kernelInitCopySeg phys ebp back edx (n + 1) (kernelBinBaseAddr + BitVec.ofNat 32 (header file k)) m =
      (if file (header file k) = 0 then some m
        else Stores.storeAll phys (copiesOf file k) (called file k ebp back (BitVec.ofNat 32 (n + 1)) m)).bind
        (kernelInitCopySeg phys ebp back edx n (kernelBinBaseAddr + BitVec.ofNat 32 (header file k) + edx)) := by
  have hfit := himage.headers k hk
  have hword : ∀ m, ImageAt file phys size m → ∀ i, i + 4 ≤ 32 →
      dwordAt phys m (kernelBinBaseAddr + BitVec.ofNat 32 (header file k) + BitVec.ofNat 32 i) =
        some (read file (header file k + i)) := fun m hat i hi => by
    rw [binAddr_add]
    exact hat.dword (by omega)
  rw [kernelInitCopySeg, hat (header file k) (by omega)]
  change (if file (header file k) = 0 then some m else
    (dwordAt phys m (_ + BitVec.ofNat 32 16)).bind fun size => (push phys (loaderStackTop - 4) size m).bind fun m =>
    (dwordAt phys m (_ + BitVec.ofNat 32 4)).bind fun src =>
    (push phys (loaderStackTop - 4 - 4) (src + kernelBinBaseAddr) m).bind fun m =>
    (dwordAt phys m (_ + BitVec.ofNat 32 8)).bind fun dst => (push phys (loaderStackTop - 4 - 8) dst m).bind fun m =>
    (push phys (loaderStackTop - 4 - 12) back m).bind fun m =>
      memcpy phys (loaderStackTop - 4 - 16) ebp (BitVec.ofNat 32 (n + 1)) back m).bind _ = _
  by_cases hzero : file (header file k) = 0
  · rw [if_pos hzero, if_pos hzero]
  · rw [if_neg hzero, if_neg hzero, hword m hat 16 (by decide), Option.bind_some,
      hstack.push (j := 5) (by decide) (by decide), Option.bind_some]
    have hat₅ := hat.write (w := read file (header file k + 16)) hstack (j := 5) (by decide)
    rw [hword _ hat₅ 4 (by decide), Option.bind_some, hstack.push (j := 4) (by decide) (by decide), Option.bind_some]
    have hat₄ := hat₅.write (w := read file (header file k + 4) + kernelBinBaseAddr) hstack (j := 4) (by decide)
    rw [hword _ hat₄ 8 (by decide), Option.bind_some, hstack.push (j := 3) (by decide) (by decide), Option.bind_some,
      hstack.push (j := 2) (by decide) (by decide), Option.bind_some]
    have hat₂ := (hat₄.write (w := pVaddr file k) hstack (j := 3) (by decide)).write (w := back) hstack (j := 2)
      (by decide)
    rw [← pVaddr, memcpy_eq hplaced himage hstack hspares hat₂ hk hzero]
    · rfl
    all_goals simp (disch := omega) only [read_write_apart, read_write_self]

/-- The memory of the loader beside one without the stack. -/
structure Beside (file : Mem) (phys : Word → Option Nat) (size : Nat) (after : Word) (m m₁ : Mem) : Prop where
  image : ImageAt file phys size m
  off : ∀ p, ¬OnStack p → m p = m₁ p
  ret : read m (0x8e4 + 4 * 6) = after

theorem Beside.called (h : Beside file phys size after m m₁) (hstack : StackAt phys size) :
    Beside file phys size after (called file k ebp back ecx m) m₁ := by
  have hwrite : ∀ {m : Mem} {j : Nat} {w : Word}, j < 6 → Beside file phys size after m m₁ →
      Beside file phys size after (write m (0x8e4 + 4 * j) w) m₁ := fun {m j w} hj h =>
    ⟨h.image.write hstack (by omega), fun p hp => (write_off (by omega) hp m).trans (h.off p hp),
      (read_write_apart _ _ (by omega)).trans h.ret⟩
  exact hwrite (j := 0) (by decide) (hwrite (j := 1) (by decide) (hwrite (j := 2) (by decide) (hwrite (j := 3)
    (by decide) (hwrite (j := 4) (by decide) (hwrite (j := 5) (by decide) h)))))

theorem Beside.copies (h : Beside file phys size after m m₁) (hplaced : Placed file phys size)
    (himage : ElfImage file size) (hspares : Spares file phys) (hk : k < phnum file)
    (hcopied : file (header file k) ≠ 0) :
    Option.Rel (Beside file phys size after) (Stores.storeAll phys (copiesOf file k) m)
      (Stores.storeAll phys (copiesOf file k) m₁) := by
  have hagree : Option.Rel (fun m m₁ => ∀ p, ¬OnStack p → m p = m₁ p) (Stores.storeAll phys (copiesOf file k) m)
      (Stores.storeAll phys (copiesOf file k) m₁) := Stores.storeAll_agree h.off
  cases hm : Stores.storeAll phys (copiesOf file k) m with
  | none =>
      rw [hm] at hagree
      generalize Stores.storeAll phys (copiesOf file k) m₁ = r at hagree ⊢
      cases hagree
      exact .none
  | some m' =>
      rw [hm] at hagree
      generalize Stores.storeAll phys (copiesOf file k) m₁ = r at hagree ⊢
      cases hagree with
      | some hoff =>
          refine .some ⟨h.image.storeAll (fun w hw => ?_) hm, hoff,
            (hspares.word hk hcopied hm (by decide)).trans h.ret⟩
          obtain ⟨x, hx, rfl⟩ := mem_copiesOf hw
          exact hplaced.apart_image himage hk hcopied hx

theorem kernelInitCopySeg_rel (hplaced : Placed file phys size) (himage : ElfImage file size)
    (hstack : StackAt phys size) (hspares : Spares file phys) (h : Beside file phys size after m m₁)
    (hk : k + n ≤ phnum file) :
    Option.Rel (Beside file phys size after) (kernelInitCopySeg phys ebp back (BitVec.ofNat 32 (phentsize file)) n
      (kernelBinBaseAddr + BitVec.ofNat 32 (header file k)) m) (Stores.storeAll phys (copiesFrom file k n) m₁) := by
  induction n generalizing k m m₁ with
  | zero => exact .some h
  | succ n ih =>
      rw [kernelInitCopySeg_succ hplaced himage hstack hspares h.image (by omega), copiesFrom_succ, storeAll_append,
        binAddr_add, ← header_succ]
      refine rel_bind ?_ fun m m₁ h => ih h (by omega)
      by_cases hzero : file (header file k) = 0
      · rw [if_pos hzero, if_pos hzero]
        exact .some h
      · rw [if_neg hzero, if_neg hzero]
        exact (h.called hstack).copies hplaced himage hspares (by omega) hzero

/-- Apart from its stack the loader stores the bytes of the headers, one after another. -/
theorem kernelInit_rel (hplaced : Placed file phys size) (himage : ElfImage file size) (hstack : StackAt phys size)
    (hspares : Spares file phys) (hat : ImageAt file phys size m) :
    Option.Rel (Beside file phys size after) (kernelInit phys ebp after back m)
      (Stores.storeAll phys (Loader.copies file) m) := by
  have hsize := himage.elfHeader
  have hphoff : read file 28 + kernelBinBaseAddr = kernelBinBaseAddr + BitVec.ofNat 32 (header file 0) := by
    rw [BitVec.add_comm, header, Nat.zero_mul, Nat.add_zero, phoff, BitVec.ofNat_toNat, BitVec.setWidth_eq]
  have hphentsize : (readHalf file 42).setWidth 32 = BitVec.ofNat 32 (phentsize file) := by
    rw [phentsize, BitVec.ofNat_toNat]
  obtain ⟨m₂, hm₂⟩ : ∃ m₂, m₂ = write m (0x8e4 + 4 * 6) after := ⟨_, rfl⟩
  have hat₂ : ImageAt file phys size m₂ := by
    rw [hm₂]
    exact hat.write hstack (by decide)
  have hbeside : Beside file phys size after m₂ m :=
    ⟨hat₂, fun p hp => hm₂ ▸ write_off (by decide) hp m, hm₂ ▸ read_write_self _ _ _⟩
  have hrun : kernelInit phys ebp after back m = (kernelInitCopySeg phys ebp back ((readHalf file 42).setWidth 32)
      (loopRounds ((readHalf file 44).setWidth 32)) (read file 28 + kernelBinBaseAddr) m₂).bind fun m =>
        if dwordAt phys m (stackWord 6) = some after then some m else none := by
    change ((push phys loaderStackTop after m).bind fun m => (dwordAt phys m (_ + BitVec.ofNat 32 28)).bind fun ebx =>
      (halfAt phys m (_ + BitVec.ofNat 32 42)).bind fun dx =>
        (halfAt phys m (_ + BitVec.ofNat 32 44)).bind fun cx => _) = _
    rw [hstack.push (j := 6) (by decide) (by decide), Option.bind_some, ← hm₂, hat₂.dword (by omega),
      hat₂.half (by omega), hat₂.half (by omega)]
    rfl
  rw [hrun, hphoff, hphentsize, loopRounds_phnum himage,
    ← Option.bind_fun_some (Stores.storeAll phys (Loader.copies file) m)]
  refine rel_bind (kernelInitCopySeg_rel hplaced himage hstack hspares hbeside (by omega)) fun m m₁ h => ?_
  rw [hstack.dword (by decide), h.ret, if_pos rfl]
  exact .some h

end Rounds

theorem Loadable.mem_copies {k x : Nat} (hk : Loadable file k) (hx : x < pFilesz file k) :
    (target file k x, fileByte file k x) ∈ copies file :=
  Loader.mem_copies.2 ⟨k, hk.1, hk.copied, x, hx, rfl⟩

theorem segmentsLoaded_iff (himage : ElfImage file size)
    (hm : Stores.storeAll phys (copies file) m = some m') :
    SegmentsLoaded file phys m' ↔ Ready file phys m := by
  have hmapped := storeAll_ends.1 ⟨m', hm⟩
  constructor
  · intro hloaded
    refine ⟨hmapped, fun k hk x hx p hp => ?_, fun k hk x hx hbss => ?_⟩
    · have hbyte := hloaded k hk x (Nat.lt_of_lt_of_le hx (himage.sizes k hk))
      rw [if_pos hx] at hbyte
      obtain ⟨q, hq, hv⟩ := byteAt_eq_some.1 hbyte
      cases hp.symm.trans hq
      exact ((storeAll_iff hm).1 hv).1
    · have hbyte := hloaded k hk x hx
      rw [if_neg (Nat.not_lt.2 hbss)] at hbyte
      obtain ⟨p, hp, hv⟩ := byteAt_eq_some.1 hbyte
      exact ⟨p, hp, (storeAll_iff hm).1 hv⟩
  · intro hready k hk x hx
    by_cases hfile : x < pFilesz file k
    · obtain ⟨p, hp⟩ := hmapped _ (hk.mem_copies hfile)
      rw [if_pos hfile]
      refine byteAt_eq_some.2 ⟨p, hp, (storeAll_iff hm).2 ⟨hready.kept k hk x hfile p hp, fun hun => ?_⟩⟩
      exact absurd hp (hun _ (hk.mem_copies hfile))
    · obtain ⟨p, hp, hv⟩ := hready.clear k hk x hx (Nat.le_of_not_lt hfile)
      rw [if_neg hfile]
      exact byteAt_eq_some.2 ⟨p, hp, (storeAll_iff hm).2 hv⟩

theorem Last.mem_copies {p : Nat} {v : BitVec 8} (h : Last phys (copies file) p v) :
    ∃ a, phys a = some p ∧ (a, v) ∈ copies file := by
  obtain ⟨earlier, a, later, he, ha, -⟩ := h
  exact ⟨a, ha, he ▸ List.mem_append_right _ List.mem_cons_self⟩

/-- With loadable segments only, each byte in a place of its own, the memory past the bytes of the file
has to be clear beforehand. -/
theorem ready_iff (himage : ElfImage file size)
    (hload : ∀ k < phnum file, file (header file k) ≠ 0 → pType file k = ptLoad)
    (hmapped : ∀ k, Loadable file k → ∀ x < pMemsz file k, ∃ p, phys (target file k x) = some p)
    (hplace : ∀ j k, Loadable file j → Loadable file k → ∀ x < pMemsz file j, ∀ y < pMemsz file k,
      phys (target file j x) = phys (target file k y) → j = k ∧ x = y) :
    Ready file phys m ↔ ∀ k, Loadable file k → ∀ x < pMemsz file k, pFilesz file k ≤ x →
      byteAt phys m (target file k x) = some 0 := by
  have hcopy : ∀ k, Loadable file k → ∀ x < pMemsz file k, ∀ p, phys (target file k x) = some p →
      ∀ a v, phys a = some p → (a, v) ∈ copies file → x < pFilesz file k ∧ v = fileByte file k x := by
    intro k hk x hx p hp a v ha hmem
    obtain ⟨j, hj, hcopied, y, hy, hw⟩ := mem_copies.1 hmem
    obtain ⟨rfl, rfl⟩ := Prod.mk.inj hw
    have hjload : Loadable file j := ⟨hj, hload j hj hcopied⟩
    obtain ⟨rfl, rfl⟩ := hplace j k hjload hk y (Nat.lt_of_lt_of_le hy (himage.sizes j hjload)) x hx
      (ha.trans hp.symm)
    exact ⟨hy, rfl⟩
  constructor
  · intro hready k hk x hx hbss
    obtain ⟨p, hp, -, hzero⟩ := hready.clear k hk x hx hbss
    refine byteAt_eq_some.2 ⟨p, hp, hzero fun w hw he => ?_⟩
    exact absurd (hcopy k hk x hx p hp w.1 w.2 he hw).1 (Nat.not_lt.2 hbss)
  · intro hclear
    refine ⟨fun w hw => ?_, fun k hk x hx p hp v hlast => ?_, fun k hk x hx hbss => ?_⟩
    · obtain ⟨k, hk, hcopied, x, hx, rfl⟩ := mem_copies.1 hw
      have hkload : Loadable file k := ⟨hk, hload k hk hcopied⟩
      exact hmapped k hkload x (Nat.lt_of_lt_of_le hx (himage.sizes k hkload))
    · obtain ⟨a, ha, hmem⟩ := Last.mem_copies hlast
      exact (hcopy k hk x (Nat.lt_of_lt_of_le hx (himage.sizes k hk)) p hp a v ha hmem).2
    · obtain ⟨p, hp, hv⟩ := byteAt_eq_some.1 (hclear k hk x hx hbss)
      refine ⟨p, hp, fun v hlast => ?_, fun _ => hv⟩
      obtain ⟨a, ha, hmem⟩ := Last.mem_copies hlast
      exact absurd (hcopy k hk x hx p hp a v ha hmem).1 (Nat.not_lt.2 hbss)

theorem SegmentsLoaded.congr (hspares : Spares file phys) (hsame : ∀ p, ¬OnStack p → m p = m' p)
    (h : SegmentsLoaded file phys m) : SegmentsLoaded file phys m' := by
  intro k hk x hx
  obtain ⟨p, hp, hv⟩ := byteAt_eq_some.1 (h k hk x hx)
  exact byteAt_eq_some.2 ⟨p, hp, (hsame p fun hon => hspares.loaded k hk x hx p hp hon.inUse).symm.trans hv⟩

/-- The header of the file, one program header, and four bytes that are loaded to 0xc0001500, where the
segment has eight. -/
def smallImage : List (BitVec 8) :=
  [0x7f, 0x45, 0x4c, 0x46, 1, 1, 1, 0, 0, 0, 0, 0, 0, 0, 0, 0,
   2, 0, 3, 0, 1, 0, 0, 0, 0, 0x15, 0, 0xc0, 52, 0, 0, 0,
   0, 0, 0, 0, 0, 0, 0, 0, 52, 0, 32, 0, 1, 0, 40, 0, 0, 0, 0, 0,
   1, 0, 0, 0, 84, 0, 0, 0, 0, 0x15, 0, 0xc0, 0, 0x15, 0, 0xc0,
   4, 0, 0, 0, 8, 0, 0, 0, 7, 0, 0, 0, 0, 0x10, 0, 0,
   0xfa, 0xf4, 0xeb, 0xfd]

def smallFile : Mem := fun o => smallImage.getD o 0

/-- The image in a memory that holds `old` everywhere else. -/
def memoryWith (old : BitVec 8) : Mem := fun p =>
  if 0x70000 ≤ p ∧ p < 0x70000 + 88 then smallFile (p - 0x70000) else old

theorem smallFile_loadable {k : Nat} (h : Loadable smallFile k) : k = 0 := by
  have hone : phnum smallFile = 1 := by decide
  have := h.1
  omega

theorem smallFile_elf : ElfImage smallFile 88 where
  ident := by decide
  nonempty := by decide
  elfHeader := by decide
  headers := by decide
  bytes := by decide
  sizes := fun k hk => by
    obtain rfl := smallFile_loadable hk
    decide

theorem smallFile_target {x : Nat} (hx : x < 8) : lowMegabyte (target smallFile 0 x) = some (0x1500 + x) := by
  have hvaddr : pVaddr smallFile 0 = 0xc0001500 := by decide
  have hall : ∀ x < 8, lowMegabyte (0xc0001500 + BitVec.ofNat 32 x) = some (0x1500 + x) := by decide
  rw [target, hvaddr]
  exact hall x hx

theorem lowMegabyte_bin {o : Nat} (ho : o < 88) :
    lowMegabyte (kernelBinBaseAddr + BitVec.ofNat 32 o) = some (0x70000 + o) := by
  have hall : ∀ o < 88, lowMegabyte (kernelBinBaseAddr + BitVec.ofNat 32 o) = some (0x70000 + o) := by decide
  exact hall o ho

theorem smallFile_at (old : BitVec 8) : ImageAt smallFile lowMegabyte 88 (memoryWith old) := by
  intro o ho
  refine byteAt_eq_some.2 ⟨_, lowMegabyte_bin ho, ?_⟩
  rw [memoryWith, if_pos ⟨by omega, by omega⟩, Nat.add_sub_cancel_left]

theorem smallFile_placed : Placed smallFile lowMegabyte 88 where
  disjoint := fun j k hj hk _ _ _ _ _ => (smallFile_loadable hj).trans (smallFile_loadable hk).symm
  apart := by
    intro k hk x hx o ho
    obtain rfl := smallFile_loadable hk
    have hsize : pMemsz smallFile 0 = 8 := by decide
    rw [smallFile_target (by omega), lowMegabyte_bin ho]
    simp only [ne_eq, Option.some.injEq]
    omega
  others := by
    intro j hj _ hload
    have hall : ∀ j < phnum smallFile, pType smallFile j = ptLoad := by decide
    exact absurd (hall j hj) hload

theorem smallFile_ready : Ready smallFile lowMegabyte (memoryWith 0) := by
  have hsize : pMemsz smallFile 0 = 8 := by decide
  refine (ready_iff smallFile_elf ?_ ?_ ?_).2 ?_
  · decide
  · intro k hk x hx
    obtain rfl := smallFile_loadable hk
    exact ⟨_, smallFile_target (by omega)⟩
  · intro j k hj hk x hx y hy he
    obtain rfl := smallFile_loadable hj
    obtain rfl := smallFile_loadable hk
    rw [smallFile_target (by omega), smallFile_target (by omega)] at he
    exact ⟨rfl, Nat.add_left_cancel (Option.some.inj he)⟩
  · intro k hk x hx _
    obtain rfl := smallFile_loadable hk
    refine byteAt_eq_some.2 ⟨_, smallFile_target (by omega), ?_⟩
    rw [memoryWith, if_neg (by omega)]

theorem smallFile_stack : StackAt lowMegabyte 88 where
  mapped := by decide
  apart := by
    intro o ho p hp hon
    rw [lowMegabyte_bin ho] at hp
    have hlt := hon.2
    cases hp
    omega

theorem smallFile_spares : Spares smallFile lowMegabyte := by
  have hused : ∀ {x p : Nat}, x < 8 → lowMegabyte (target smallFile 0 x) = some p → ¬InUse p := by
    intro x p hx hp hin
    rw [smallFile_target hx] at hp
    cases hp
    unfold InUse at hin
    omega
  refine ⟨fun w hw p hp => ?_, fun k hk x hx p hp => ?_⟩
  · obtain ⟨k, hk, -, x, hx, rfl⟩ := mem_copies.1 hw
    have hone : phnum smallFile = 1 := by decide
    obtain rfl : k = 0 := by omega
    have hsize : pFilesz smallFile 0 = 4 := by decide
    exact hused (by omega) hp
  · obtain rfl := smallFile_loadable hk
    have hsize : pMemsz smallFile 0 = 8 := by decide
    exact hused (by omega) hp

end HoloOS.Loader
