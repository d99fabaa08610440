import HoloOS.BasePaging
import Mathlib.Tactic.Set

/-! How `getMemCap` (`boot/loader.S`) finds the memory capacity: the BIOS function 0xe820 stores one
descriptor of a memory range at a time in `ardsBuf`, and a second loop takes the greatest end of a
range. Segment registers are 0 and registers have 16 bits, so an offset is an address. -/

namespace HoloOS

open Paging

/-- A descriptor of the BIOS. -/
structure Ards where
  base : BitVec 64
  length : BitVec 64
  type : BitVec 32

def totalMemBytes : Nat := 0xb06

def ardsBuf : BitVec 16 := 0xb0a

def ardsBufSize : Nat := 244

def ardsCnt : Nat := 0xbfe

/-- The bytes of a descriptor. -/
def storeArds (m : Mem) (a : Nat) (ards : Ards) : Mem :=
  let m := write m a (ards.base.setWidth 32)
  let m := write m (a + 4) ((ards.base >>> 32).setWidth 32)
  let m := write m (a + 8) (ards.length.setWidth 32)
  let m := write m (a + 12) ((ards.length >>> 32).setWidth 32)
  write m (a + 16) ards.type

def readHalf (m : Mem) (a : Nat) : BitVec 16 := m (a + 1) ++ m a

def writeHalf (m : Mem) (a : Nat) (w : BitVec 16) : Mem := fun b =>
  if a ≤ b ∧ b < a + 2 then w.extractLsb' (8 * (b - a)) 8 else m b

/-- Memory, `di` and the addresses at which the BIOS has stored descriptors. -/
structure Detection where
  mem : Mem
  di : BitVec 16
  stores : List Nat

/-- `int 0x15` with the next descriptor. -/
def int15 (ards : Ards) (s : Detection) : Detection :=
  { s with
    mem := storeArds s.mem s.di.toNat ards
    stores := s.stores ++ [s.di.toNat] }

/-- The loop ends with the descriptor for which the BIOS returns 0 in `ebx`, the last one. -/
def loopGetArds : List Ards → Detection → Detection
  | [], s => s
  | ards :: rest, s =>
      let s := int15 ards s
      let s := { s with di := s.di + 20 }
      let s := { s with mem := writeHalf s.mem ardsCnt (readHalf s.mem ardsCnt + 1) }
      loopGetArds rest s

/-- The rounds of the second loop: `bx` is the descriptor and `eax` the greatest end so far. -/
def loopCalMaxMem (m : Mem) : Nat → BitVec 16 → Word → Word
  | 0, _, eax => eax
  | n + 1, bx, eax =>
      let edx := read m bx.toNat + read m (bx + 8).toNat
      loopCalMaxMem m n (bx + 20) (if edx ≤ eax then eax else edx)

/-- `loop` counts `cx` down before it tests it. -/
def rounds (cx : BitVec 16) : Nat := (cx - 1).toNat + 1

def getMemCap (m : Mem) (map : List Ards) : Word × Detection :=
  let s := loopGetArds map ⟨m, ardsBuf, []⟩
  (loopCalMaxMem s.mem (rounds (readHalf s.mem ardsCnt)) ardsBuf 0, s)

/-- The capacity that `memInit` reads, where the loader has put the result. -/
def memCapacityOf (m : Mem) (map : List Ards) : Word :=
  let result := getMemCap m map
  read (write result.2.mem totalMemBytes result.1) totalMemBytes

/-- The end of a range. -/
def Ards.stop (ards : Ards) : Nat := ards.base.toNat + ards.length.toNat

/-- Type 1 is RAM that may be used. -/
def Ards.Usable (ards : Ards) : Prop := ards.type = 1

instance (ards : Ards) : Decidable ards.Usable := inferInstanceAs (Decidable (_ = _))

/-- The greatest end of a usable range, 0 when there is none. -/
def usableTop : List Ards → Nat
  | [] => 0
  | ards :: map => if ards.Usable then max ards.stop (usableTop map) else usableTop map

/-- Every descriptor lies in the buffer, and the capacity is the end of the usable memory. -/
def Detects (m : Mem) (map : List Ards) : Prop :=
  (∀ a ∈ (getMemCap m map).2.stores, ardsBuf.toNat ≤ a ∧ a + 20 ≤ ardsBuf.toNat + ardsBufSize) ∧
    (memCapacityOf m map).toNat = usableTop map

/-- The maps on which it does: at most 12 ranges, no usable range that ends at 4 GB, and no other range that
ends above the usable memory, unless its end wraps to 0. -/
def Detectable (map : List Ards) : Prop :=
  map.length ≤ 12 ∧ ∀ ards ∈ map,
    if ards.Usable then ards.stop < 2 ^ 32 else ards.stop = 2 ^ 32 ∨ ards.stop ≤ usableTop map

instance (map : List Ards) : Decidable (Detectable map) := inferInstanceAs (Decidable (_ ∧ _))

/-- The words of the descriptors from `a` on that the second loop reads. -/
def ArdsAt (m : Mem) : Nat → List Ards → Prop
  | _, [] => True
  | a, ards :: map =>
      read m a = ards.base.setWidth 32 ∧ read m (a + 8) = ards.length.setWidth 32 ∧ ArdsAt m (a + 20) map

theorem ArdsAt.congr {m m' : Mem} {map : List Ards} {a : Nat} (h : ArdsAt m a map)
    (hsame : ∀ b, a ≤ b → b < a + 20 * map.length → m' b = m b) : ArdsAt m' a map := by
  induction map generalizing a with
  | nil => trivial
  | cons ards map ih =>
      rw [List.length_cons] at hsame
      obtain ⟨hbase, hlength, hrest⟩ := h
      refine ⟨?_, ?_, ih hrest fun b hlo hhi => hsame b (by omega) (by omega)⟩
      · rw [read_congr fun b hlo hhi => hsame b (by omega) (by omega)]
        exact hbase
      · rw [read_congr fun b hlo hhi => hsame b (by omega) (by omega)]
        exact hlength

theorem storeArds_apart (m : Mem) {a b : Nat} (ards : Ards) (h : b < a ∨ a + 20 ≤ b) :
    storeArds m a ards b = m b := by
  simp only [storeArds, write]
  repeat rw [if_neg (by omega)]

theorem storeArds_base (m : Mem) (a : Nat) (ards : Ards) :
    read (storeArds m a ards) a = ards.base.setWidth 32 := by
  unfold storeArds
  rw [read_write_apart _ _ (by omega), read_write_apart _ _ (by omega), read_write_apart _ _ (by omega),
    read_write_apart _ _ (by omega)]
  exact read_write_self _ _ _

theorem storeArds_length (m : Mem) (a : Nat) (ards : Ards) :
    read (storeArds m a ards) (a + 8) = ards.length.setWidth 32 := by
  unfold storeArds
  rw [read_write_apart _ _ (by omega), read_write_apart _ _ (by omega)]
  exact read_write_self _ _ _

theorem readHalf_congr {m m' : Mem} {a : Nat} (h : ∀ b, a ≤ b → b < a + 2 → m' b = m b) :
    readHalf m' a = readHalf m a := by
  rw [readHalf, readHalf, h a (by omega) (by omega), h (a + 1) (by omega) (by omega)]

theorem writeHalf_apart (m : Mem) {a b : Nat} (w : BitVec 16) (h : b < a ∨ a + 2 ≤ b) :
    writeHalf m a w b = m b := if_neg (by omega)

theorem readHalf_writeHalf (m : Mem) (a : Nat) (w : BitVec 16) : readHalf (writeHalf m a w) a = w := by
  have hlow : writeHalf m a w a = w.extractLsb' 0 8 := by
    rw [writeHalf, if_pos ⟨by omega, by omega⟩, Nat.sub_self]
  have hhigh : writeHalf m a w (a + 1) = w.extractLsb' 8 8 := by
    rw [writeHalf, if_pos ⟨by omega, by omega⟩, Nat.add_sub_cancel_left]
  rw [readHalf, hlow, hhigh]
  apply BitVec.eq_of_getLsbD_eq
  intro i hi
  rw [BitVec.getLsbD_append, BitVec.getLsbD_extractLsb', BitVec.getLsbD_extractLsb']
  by_cases hlt : i < 8
  · simp [hlt]
  · simp [hlt, show i - 8 < 8 by omega, show 8 + (i - 8) = i by omega]

/-- The address of each store. -/
theorem loopGetArds_stores (map : List Ards) (s : Detection) : (loopGetArds map s).stores =
    s.stores ++ (List.range map.length).map fun k => (s.di + BitVec.ofNat 16 (20 * k)).toNat := by
  induction map generalizing s with
  | nil => simp [loopGetArds]
  | cons ards map ih =>
      rw [loopGetArds, ih, int15, List.length_cons, List.range_succ_eq_map, List.map_cons, List.map_map,
        List.append_assoc, List.singleton_append, Nat.mul_zero]
      congr 2
      · simp
      · apply List.map_congr_left
        intro k _
        rw [Function.comp_apply, BitVec.add_assoc, Nat.succ_eq_add_one]
        congr 2
        apply BitVec.eq_of_toNat_eq
        rw [BitVec.toNat_add, BitVec.toNat_ofNat, BitVec.toNat_ofNat, show (20 : BitVec 16).toNat = 20 from rfl]
        omega

/-- What the first loop leaves when the descriptors fit. -/
structure Stored (s s' : Detection) (map : List Ards) : Prop where
  mem : ArdsAt s'.mem s.di.toNat map
  before : ∀ b < s.di.toNat, s'.mem b = s.mem b
  count : readHalf s'.mem ardsCnt = readHalf s.mem ardsCnt + BitVec.ofNat 16 map.length

theorem loopGetArds_stored (map : List Ards) (s : Detection) (hfit : s.di.toNat + 20 * map.length ≤ ardsCnt) :
    Stored s (loopGetArds map s) map := by
  induction map generalizing s with
  | nil => exact ⟨trivial, fun _ _ => rfl, by simp [loopGetArds]⟩
  | cons ards map ih =>
      rw [List.length_cons] at hfit
      have hcnt : ardsCnt = 0xbfe := rfl
      rw [loopGetArds]
      dsimp only [int15]
      set m₁ := storeArds s.mem s.di.toNat ards with hm₁
      set m₂ := writeHalf m₁ ardsCnt (readHalf m₁ ardsCnt + 1) with hm₂
      have hdi : (s.di + 20).toNat = s.di.toNat + 20 := by
        rw [BitVec.toNat_add, show (20 : BitVec 16).toNat = 20 from rfl]
        omega
      obtain ⟨hmem, hbefore, hcount⟩ := ih ⟨m₂, s.di + 20, s.stores ++ [s.di.toNat]⟩ (by rw [hdi]; omega)
      dsimp only at hmem hbefore hcount
      rw [hdi] at hmem hbefore
      have hword : ∀ b, b + 4 ≤ s.di.toNat + 20 → s.di.toNat ≤ b →
          read (loopGetArds map ⟨m₂, s.di + 20, s.stores ++ [s.di.toNat]⟩).mem b = read m₁ b := by
        intro b hb hlo
        apply read_congr
        intro c hc hlt
        rw [hbefore c (by omega), hm₂, writeHalf_apart _ _ (by omega)]
      refine ⟨⟨?_, ?_, hmem⟩, fun b hb => ?_, ?_⟩
      · rw [hword _ (by omega) (by omega)]
        exact storeArds_base _ _ _
      · rw [hword _ (by omega) (by omega)]
        exact storeArds_length _ _ _
      · rw [hbefore b (by omega), hm₂, writeHalf_apart _ _ (by omega)]
        exact storeArds_apart _ _ (by omega)
      · have hold : readHalf m₁ ardsCnt = readHalf s.mem ardsCnt :=
          readHalf_congr fun b hlo hhi => storeArds_apart _ _ (by omega)
        rw [hcount, hm₂, readHalf_writeHalf, hold, List.length_cons, BitVec.add_assoc]
        congr 1
        apply BitVec.eq_of_toNat_eq
        rw [BitVec.toNat_add, BitVec.toNat_ofNat, BitVec.toNat_ofNat, show (1 : BitVec 16).toNat = 1 from rfl]
        omega

/-- The greatest end of any range, modulo 2 ^ 32. -/
def scannedTop : List Ards → Nat
  | [] => 0
  | ards :: map => max (ards.stop % 2 ^ 32) (scannedTop map)

theorem loopCalMaxMem_eq (m : Mem) (map : List Ards) (bx : BitVec 16) (eax : Word)
    (hat : ArdsAt m bx.toNat map) (hfit : bx.toNat + 20 * map.length ≤ ardsCnt) :
    (loopCalMaxMem m map.length bx eax).toNat = max eax.toNat (scannedTop map) := by
  induction map generalizing bx eax with
  | nil => simp [loopCalMaxMem, scannedTop]
  | cons ards map ih =>
      have hcnt : ardsCnt = 0xbfe := rfl
      rw [List.length_cons] at hfit
      obtain ⟨hbase, hlength, hrest⟩ := hat
      have hbx : ∀ k < 21, (bx + BitVec.ofNat 16 k).toNat = bx.toNat + k := by
        intro k hk
        rw [BitVec.toNat_add, BitVec.toNat_ofNat]
        omega
      have hedx : (read m bx.toNat + read m (bx + 8).toNat).toNat = ards.stop % 2 ^ 32 := by
        rw [show (bx + 8).toNat = bx.toNat + 8 from hbx 8 (by omega), hbase, hlength, BitVec.toNat_add,
          BitVec.toNat_setWidth, BitVec.toNat_setWidth, Ards.stop]
        omega
      have hnext : (bx + 20).toNat = bx.toNat + 20 := hbx 20 (by omega)
      rw [List.length_cons, loopCalMaxMem, scannedTop, ih (bx + 20) _ (by rw [hnext]; exact hrest)
        (by rw [hnext]; omega)]
      split
      next hle =>
        rw [BitVec.le_def, hedx] at hle
        omega
      next hle =>
        rw [BitVec.le_def, hedx] at hle
        rw [hedx]
        omega

theorem scannedTop_le {map : List Ards} {bound : Nat} :
    scannedTop map ≤ bound ↔ ∀ ards ∈ map, ards.stop % 2 ^ 32 ≤ bound := by
  induction map with
  | nil => simp [scannedTop]
  | cons ards map ih => rw [scannedTop, Nat.max_le, ih, List.forall_mem_cons]

theorem usableTop_le {map : List Ards} {bound : Nat} :
    usableTop map ≤ bound ↔ ∀ ards ∈ map, ards.Usable → ards.stop ≤ bound := by
  induction map with
  | nil => simp [usableTop]
  | cons ards map ih =>
      rw [usableTop, List.forall_mem_cons]
      split
      next husable => rw [Nat.max_le, ih, forall_prop_of_true husable]
      next husable => rw [ih, forall_prop_of_false husable, true_and]

/-- When the greatest of all ends is that of the usable memory. -/
theorem scannedTop_eq_iff {map : List Ards} (hbelow : ∀ ards ∈ map, ards.stop ≤ 2 ^ 32) :
    scannedTop map = usableTop map ↔ ∀ ards ∈ map,
      if ards.Usable then ards.stop < 2 ^ 32 else ards.stop = 2 ^ 32 ∨ ards.stop ≤ usableTop map := by
  have hscanned := scannedTop_le.1 (Nat.le_refl (scannedTop map))
  have husable := usableTop_le.1 (Nat.le_refl (usableTop map))
  constructor
  · intro heq ards hmem
    have hle := hscanned ards hmem
    have hstop := hbelow ards hmem
    rw [heq] at hle
    split
    next hu =>
      have htop := husable ards hmem hu
      have hlt : scannedTop map ≤ 2 ^ 32 - 1 := scannedTop_le.2 fun a _ => by omega
      omega
    next => omega
  · intro h
    apply Nat.le_antisymm
    · rw [scannedTop_le]
      intro ards hmem
      have hards := h ards hmem
      split at hards
      next hu =>
        have htop := husable ards hmem hu
        omega
      next => omega
    · rw [usableTop_le]
      intro ards hmem hu
      have hards := h ards hmem
      rw [if_pos hu] at hards
      have hle := hscanned ards hmem
      omega

variable {m : Mem} {map : List Ards}

theorem stores_inside_iff : (∀ a ∈ (getMemCap m map).2.stores, ardsBuf.toNat ≤ a ∧
    a + 20 ≤ ardsBuf.toNat + ardsBufSize) ↔ map.length ≤ 12 := by
  have hbuf : ardsBuf.toNat = 0xb0a := rfl
  have hsize : ardsBufSize = 244 := rfl
  have haddr : ∀ k ≤ 12, (ardsBuf + BitVec.ofNat 16 (20 * k)).toNat = ardsBuf.toNat + 20 * k := by
    intro k hk
    rw [BitVec.toNat_add, BitVec.toNat_ofNat]
    omega
  have hstores : (getMemCap m map).2.stores =
      (List.range map.length).map fun k => (ardsBuf + BitVec.ofNat 16 (20 * k)).toNat :=
    loopGetArds_stores map ⟨m, ardsBuf, []⟩
  rw [hstores, List.forall_mem_map]
  constructor
  · intro h
    by_contra hlong
    have hout := h 12 (List.mem_range.2 (by omega))
    rw [haddr 12 (Nat.le_refl _)] at hout
    omega
  · intro hle k hk
    have hlt := List.mem_range.1 hk
    rw [haddr k (by omega)]
    omega

/-- What the loader stores for `memInit`. -/
theorem memCapacityOf_eq (hne : map ≠ []) (hcnt : readHalf m ardsCnt = 0) (hlen : map.length ≤ 12) :
    (memCapacityOf m map).toNat = scannedTop map := by
  have hpos := List.length_pos_iff.2 hne
  have hbuf : ardsBuf.toNat = 0xb0a := rfl
  have hfit : ardsBuf.toNat + 20 * map.length ≤ ardsCnt := by
    rw [hbuf, ardsCnt]
    omega
  obtain ⟨hmem, -, hcount⟩ := loopGetArds_stored map ⟨m, ardsBuf, []⟩ hfit
  have hrounds : rounds (readHalf (loopGetArds map ⟨m, ardsBuf, []⟩).mem ardsCnt) = map.length := by
    have hzero : (0 : BitVec 16) + BitVec.ofNat 16 map.length = BitVec.ofNat 16 map.length := by simp
    rw [hcount, hcnt, hzero, rounds, BitVec.toNat_sub, BitVec.toNat_ofNat,
      show (1 : BitVec 16).toNat = 1 from rfl]
    omega
  rw [memCapacityOf, getMemCap]
  dsimp only
  rw [read_write_self, hrounds, loopCalMaxMem_eq _ _ _ _ hmem hfit, show (0 : Word).toNat = 0 from rfl,
    Nat.zero_max]

/-- The capacity is right on exactly the maps of `Detectable`. -/
theorem getMemCap_iff (hne : map ≠ []) (hbelow : ∀ ards ∈ map, ards.stop ≤ 2 ^ 32)
    (hcnt : readHalf m ardsCnt = 0) : Detects m map ↔ Detectable map := by
  unfold Detects Detectable
  rw [stores_inside_iff]
  apply and_congr_right
  intro hlen
  rw [memCapacityOf_eq hne hcnt hlen, scannedTop_eq_iff hbelow]

/-- The map of a machine with 32 MB that reports no range above the usable memory. -/
theorem getMemCap_32MB : Detects (fun _ => 0) [⟨0, 0x9f000, 1⟩, ⟨0x9f000, 0x1000, 2⟩, ⟨0x100000, 0x1f00000, 1⟩] :=
  (getMemCap_iff (by simp) (by decide) (by decide)).2 (by decide)

/-- A range of type 3 at the end of the memory is counted in. -/
theorem getMemCap_reserved :
    memCapacityOf (fun _ => 0) [⟨0, 0x9f000, 1⟩, ⟨0x100000, 0x1ef0000, 1⟩, ⟨0x1ff0000, 0x10000, 3⟩] = 0x2000000 ∧
      usableTop [⟨0, 0x9f000, 1⟩, ⟨0x100000, 0x1ef0000, 1⟩, ⟨0x1ff0000, 0x10000, 3⟩] = 0x1ff0000 ∧
      ¬Detects (fun _ => 0) [⟨0, 0x9f000, 1⟩, ⟨0x100000, 0x1ef0000, 1⟩, ⟨0x1ff0000, 0x10000, 3⟩] := by
  have hcapacity : (memCapacityOf (fun _ => 0)
      [⟨0, 0x9f000, 1⟩, ⟨0x100000, 0x1ef0000, 1⟩, ⟨0x1ff0000, 0x10000, 3⟩]).toNat = 0x2000000 :=
    memCapacityOf_eq (by simp) (by decide) (by decide)
  have husable : usableTop [⟨0, 0x9f000, 1⟩, ⟨0x100000, 0x1ef0000, 1⟩, ⟨0x1ff0000, 0x10000, 3⟩] = 0x1ff0000 := by
    decide
  refine ⟨BitVec.eq_of_toNat_eq hcapacity, husable, fun h => ?_⟩
  have htop := h.2
  rw [hcapacity, husable] at htop
  omega

end HoloOS
