import Mathlib.Logic.Function.Basic
import Mathlib.Algebra.Group.Nat.Defs

/-! Byte-addressed memory with 32-bit little-endian words, and two-level page tables in it. A table
is a page of 1024 words; an entry is absent or names the page it points to. The same `entry` reads a
directory and a table, and `mapped` composes the two. -/

namespace Paging

abbrev Word := BitVec 32

/-- Physical memory by byte address. -/
abbrev Mem := Nat → BitVec 8

def read (m : Mem) (a : Nat) : Word := m (a + 3) ++ m (a + 2) ++ m (a + 1) ++ m a

def write (m : Mem) (a : Nat) (w : Word) : Mem := fun b =>
  if a ≤ b ∧ b < a + 4 then w.extractLsb' (8 * (b - a)) 8 else m b

def fill (m : Mem) (a n : Nat) (val : BitVec 8) : Mem := fun b =>
  if a ≤ b ∧ b < a + n then val else m b

/-- Bytes copied one after another, upwards. -/
def copy (m : Mem) (dst src : Nat) : Nat → Mem
  | 0 => m
  | n + 1 => Function.update (copy m dst src n) (dst + n) (copy m dst src n (src + n))

theorem copy_apart (m : Mem) {dst src n : Nat} (h : dst + n ≤ src ∨ src + n ≤ dst) (b : Nat) :
    copy m dst src n b = if dst ≤ b ∧ b < dst + n then m (src + (b - dst)) else m b := by
  induction n generalizing b with
  | zero => rw [if_neg (by omega)]; rfl
  | succ n ih =>
      rw [copy, Function.update_apply, ih (by omega), ih (by omega) b]
      by_cases he : b = dst + n
      · rw [if_pos he, if_neg (by omega), if_pos (by omega)]
        congr 1
        omega
      · rw [if_neg he]
        congr 1
        apply propext
        omega

theorem read_congr {m m' : Mem} {a : Nat} (h : ∀ b, a ≤ b → b < a + 4 → m' b = m b) :
    read m' a = read m a := by
  rw [read, read, h a (by omega) (by omega), h (a + 1) (by omega) (by omega),
    h (a + 2) (by omega) (by omega), h (a + 3) (by omega) (by omega)]

theorem read_eq_of_bytes {m m' : Mem} {a a' : Nat} (h : ∀ j < 4, m' (a' + j) = m (a + j)) :
    read m' a' = read m a := by
  have hzero : m' a' = m a := h 0 (by omega)
  rw [read, read, hzero, h 1 (by omega), h 2 (by omega), h 3 (by omega)]

theorem read_write_self (m : Mem) (a : Nat) (w : Word) : read (write m a w) a = w := by
  have hbyte : ∀ k < 4, write m a w (a + k) = w.extractLsb' (8 * k) 8 := by
    intro k hk
    rw [write, if_pos ⟨by omega, by omega⟩, Nat.add_sub_cancel_left]
  rw [read, hbyte 3 (by omega), hbyte 2 (by omega), hbyte 1 (by omega),
    show write m a w a = w.extractLsb' (8 * 0) 8 from hbyte 0 (by omega)]
  apply BitVec.eq_of_getLsbD_eq
  intro i hi
  simp only [BitVec.getLsbD_append, BitVec.getLsbD_extractLsb']
  rcases Nat.lt_or_ge i 8 with h₀ | h₀
  · simp [h₀]
  rcases Nat.lt_or_ge i 16 with h₁ | h₁
  · have he : 8 + (i - 8) = i := by omega
    simp [Nat.not_lt.2 h₀, show i - 8 < 8 by omega, he]
  rcases Nat.lt_or_ge i 24 with h₂ | h₂
  · have he : 16 + (i - 8 - 8) = i := by omega
    simp [Nat.not_lt.2 h₀, show ¬i - 8 < 8 by omega, show i - 8 - 8 < 8 by omega, he]
  · have he : 24 + (i - 8 - 8 - 8) = i := by omega
    simp [Nat.not_lt.2 h₀, show ¬i - 8 < 8 by omega, show ¬i - 8 - 8 < 8 by omega,
      show i - 8 - 8 - 8 < 8 by omega, he]

theorem read_byte (m : Mem) (a : Nat) {k : Nat} (hk : k < 4) :
    (read m a).extractLsb' (8 * k) 8 = m (a + k) := by
  apply BitVec.eq_of_getLsbD_eq
  intro i hi
  rw [BitVec.getLsbD_extractLsb', read, BitVec.getLsbD_append, BitVec.getLsbD_append,
    BitVec.getLsbD_append]
  have hcases : k = 0 ∨ k = 1 ∨ k = 2 ∨ k = 3 := by omega
  rcases hcases with rfl | rfl | rfl | rfl
  · simp [hi]
  · simp [hi, show ¬8 + i < 8 by omega, show 8 + i - 8 = i by omega]
  · simp [hi, show ¬16 + i < 8 by omega, show 16 + i - 8 = 8 + i by omega, show ¬8 + i < 8 by omega,
      show 8 + i - 8 = i by omega]
  · simp [hi, show ¬24 + i < 8 by omega, show 24 + i - 8 = 16 + i by omega, show ¬16 + i < 8 by omega,
      show 16 + i - 8 = 8 + i by omega, show ¬8 + i < 8 by omega, show 8 + i - 8 = i by omega]

theorem read_write_apart (m : Mem) {a b : Nat} (w : Word) (h : a + 4 ≤ b ∨ b + 4 ≤ a) :
    read (write m a w) b = read m b := by
  apply read_congr
  intro c hc hlt
  rw [write, if_neg (by omega)]

theorem read_fill_apart (m : Mem) {a n b : Nat} (val : BitVec 8) (h : a + n ≤ b ∨ b + 4 ≤ a) :
    read (fill m a n val) b = read m b := by
  apply read_congr
  intro c hc hlt
  rw [fill, if_neg (by omega)]

theorem read_fill_zero (m : Mem) {a n b : Nat} (hle : a ≤ b) (hfit : b + 4 ≤ a + n) :
    read (fill m a n 0) b = 0 := by
  have hbyte : ∀ k < 4, fill m a n 0 (b + k) = 0 := by
    intro k hk
    rw [fill, if_pos ⟨by omega, by omega⟩]
  rw [read, hbyte 3 (by omega), hbyte 2 (by omega), hbyte 1 (by omega),
    show fill m a n 0 b = 0 from hbyte 0 (by omega)]
  rfl

/-- A mask that keeps the bits from `k` on. -/
theorem and_high_mask (v mask : Word) (k : Nat) (hmask : ∀ i < 32, mask.getLsbD i = decide (k ≤ i)) :
    (v &&& mask).toNat = v.toNat / 2 ^ k * 2 ^ k := by
  have hshift : v &&& mask = (v >>> k) <<< k := by
    apply BitVec.eq_of_getLsbD_eq
    intro i hi
    rw [BitVec.getLsbD_and, hmask i hi, BitVec.getLsbD_shiftLeft, BitVec.getLsbD_ushiftRight]
    by_cases hk : k ≤ i
    · have he : k + (i - k) = i := by omega
      simp [hi, hk, he, Nat.not_lt.2 hk]
    · simp [hk, Nat.lt_of_not_le hk]
  rw [hshift, BitVec.toNat_shiftLeft, BitVec.toNat_ushiftRight, Nat.shiftRight_eq_div_pow,
    Nat.shiftLeft_eq, Nat.mod_eq_of_lt]
  exact Nat.lt_of_le_of_lt (Nat.div_mul_le_self _ _) v.isLt

theorem and_page (v : Word) : (v &&& 0xfffff000#32).toNat = v.toNat / 4096 * 4096 :=
  and_high_mask v _ 12 (by decide)

theorem and_offset (v : Word) : (v &&& 0x00000fff#32).toNat = v.toNat % 4096 := by
  rw [BitVec.toNat_and]
  exact Nat.and_two_pow_sub_one_eq_mod v.toNat 12

theorem and_region (v : Word) : (v &&& 0xffc00000#32).toNat = v.toNat / 2 ^ 22 * 2 ^ 22 :=
  and_high_mask v _ 22 (by decide)

theorem or_low (v : Word) {n : Nat} (hn : n < 4096) (h : v.toNat % 4096 = 0) :
    (v ||| BitVec.ofNat 32 n).toNat = v.toNat + n := by
  have hpage : v.toNat = 2 ^ 12 * (v.toNat / 4096) := by omega
  rw [BitVec.toNat_or, BitVec.toNat_ofNat, Nat.mod_eq_of_lt (by omega), hpage]
  exact (Nat.two_pow_add_eq_or_of_lt hn _).symm

/-- The P bit. -/
def present (e : Word) : Bool := e &&& 1#32 ≠ 0

/-- The page an entry points to. -/
def pageOf (e : Word) : Nat := (e &&& 0xfffff000#32).toNat

/-- Entry `i` of the table in the page at `base`. -/
def entry (m : Mem) (base i : Nat) : Option Nat :=
  if present (read m (base + 4 * i)) then some (pageOf (read m (base + 4 * i))) else none

/-- The page that a virtual page is mapped to. -/
def mapped (m : Mem) (dir page : Nat) : Option Nat :=
  (entry m dir (page / 1024)).bind fun table => entry m table (page % 1024)

theorem present_iff (e : Word) : present e = true ↔ e.toNat % 2 = 1 := by
  have hbit : (e &&& 1#32).toNat = e.toNat % 2 := by
    rw [BitVec.toNat_and]
    exact Nat.and_two_pow_sub_one_eq_mod e.toNat 1
  rw [present, decide_eq_true_eq, Ne, ← BitVec.toNat_inj, hbit]
  simp

theorem present_read (m : Mem) (a : Nat) : present (read m a) = (m a).getLsbD 0 := by
  have hbit : (read m a).getLsbD 0 = (m a).getLsbD 0 := by
    rw [read, BitVec.getLsbD_append, if_pos (by decide)]
  rw [← hbit, Bool.eq_iff_iff, present_iff, BitVec.getLsbD, Nat.testBit_zero]
  simp

theorem pageOf_eq (e : Word) : pageOf e = e.toNat / 4096 * 4096 := and_page e

theorem pageOf_mod (e : Word) : pageOf e % 4096 = 0 := by
  rw [pageOf_eq]
  omega

theorem entry_mod {m : Mem} {base i f : Nat} (h : entry m base i = some f) : f % 4096 = 0 := by
  unfold entry at h
  split at h
  next => rw [← Option.some.inj h]; exact pageOf_mod _
  next => cases h

theorem entry_lt {m : Mem} {base i f : Nat} (h : entry m base i = some f) : f < 2 ^ 32 := by
  unfold entry at h
  split at h
  next =>
    rw [← Option.some.inj h]
    exact BitVec.isLt _
  next => cases h

theorem mapped_eq_some {m : Mem} {dir page f : Nat} : mapped m dir page = some f ↔
    ∃ table, entry m dir (page / 1024) = some table ∧ entry m table (page % 1024) = some f :=
  Option.bind_eq_some_iff

/-- The entry that a word with P bit and page-aligned address stands for. -/
theorem entry_of_read {m : Mem} {base i : Nat} {p : Word} (hp : p.toNat % 4096 = 0)
    (h : read m (base + 4 * i) = p ||| 7#32) : entry m base i = some p.toNat := by
  have hword : (p ||| 7#32).toNat = p.toNat + 7 := or_low p (by omega) hp
  have hpresent : present (p ||| 7#32) = true := by
    rw [present_iff, hword]
    omega
  rw [entry, h, if_pos hpresent, pageOf_eq, hword]
  congr 1
  omega

theorem entry_of_read_zero {m : Mem} {base i : Nat} (h : read m (base + 4 * i) = 0) :
    entry m base i = none := by
  rw [entry, h]
  rfl

section Edits

variable {m : Mem} {base base' i i' : Nat}

theorem word_apart (hbase : base % 4096 = 0) (hbase' : base' % 4096 = 0) (hi : i < 1024)
    (hi' : i' < 1024) (hne : base ≠ base' ∨ i ≠ i') :
    base' + 4 * i' + 4 ≤ base + 4 * i ∨ base + 4 * i + 4 ≤ base' + 4 * i' := by
  omega

/-- Writing one entry leaves every other entry alone. -/
theorem entry_write_of_ne (w : Word) (hbase : base % 4096 = 0) (hbase' : base' % 4096 = 0)
    (hi : i < 1024) (hi' : i' < 1024) (hne : base ≠ base' ∨ i ≠ i') :
    entry (write m (base' + 4 * i') w) base i = entry m base i := by
  rw [entry, entry, read_write_apart m w (word_apart hbase hbase' hi hi' hne)]

theorem entry_write_self (p : Word) (hp : p.toNat % 4096 = 0) :
    entry (write m (base + 4 * i) (p ||| 7#32)) base i = some p.toNat :=
  entry_of_read hp (read_write_self m _ _)

theorem entry_fill_of_ne (hbase : base % 4096 = 0) (hbase' : base' % 4096 = 0) (hi : i < 1024)
    (hne : base ≠ base') : entry (fill m base' 4096 0) base i = entry m base i := by
  rw [entry, entry, read_fill_apart m 0 (by omega)]

theorem entry_fill_self (hi : i < 1024) : entry (fill m base 4096 0) base i = none :=
  entry_of_read_zero (read_fill_zero m (by omega) (by omega))

/-- Bytes outside of a page do not matter to its entries. -/
theorem entry_congr {m' : Mem} (hi : i < 1024) (h : ∀ b, base ≤ b → b < base + 4096 → m' b = m b) :
    entry m' base i = entry m base i := by
  have hread : read m' (base + 4 * i) = read m (base + 4 * i) :=
    read_congr fun b hb hlt => h b (by omega) (by omega)
  rw [entry, entry, hread]

end Edits

end Paging
