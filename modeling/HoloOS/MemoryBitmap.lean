import Mathlib.Logic.Function.Basic
import Mathlib.Algebra.Group.Nat.Defs

/-! `kernel/bitmap.c`. A bitmap is an array of `size` bytes; `bitmapScan` skips full bytes and then
looks for a run of clear bits, and it finds the first one. -/

namespace HoloOS

open Function

structure Bitmap where
  bits : Nat → BitVec 8
  size : Nat

/-- The first loop of `bitmapScan`, with `n` bytes left. -/
def skipFull (bmap : Bitmap) : Nat → Nat → Nat
  | 0, idx => idx
  | n + 1, idx => if bmap.bits idx = 0xff then skipFull bmap n (idx + 1) else idx

def bitmapTest (bmap : Bitmap) (bitIdx : Nat) : Bool :=
  bmap.bits (bitIdx / 8) &&& (1#8 <<< (bitIdx % 8)) ≠ 0

/-- The second loop, with `n` bits left; `curCnt` clear bits end before `idx`. -/
def scanRun (bmap : Bitmap) (cnt : Nat) : Nat → Nat → Nat → Option Nat
  | 0, _, _ => none
  | n + 1, idx, curCnt =>
      let curCnt := if !bitmapTest bmap idx then curCnt + 1 else 0
      if curCnt = cnt then some (idx + 1 - cnt) else scanRun bmap cnt n (idx + 1) curCnt

/-- `none` is the result `-1`. -/
def bitmapScan (bmap : Bitmap) (cnt : Nat) : Option Nat :=
  let idx := skipFull bmap bmap.size 0
  if idx = bmap.size then none
  else scanRun bmap cnt (bmap.size * 8 - idx * 8) (idx * 8) 0

/-- `val` is 0 or 1, as the `ASSERT` says. -/
def bitmapSet (bmap : Bitmap) (bitIdx : Nat) (val : Bool) : Bitmap :=
  let byteIdx := bitIdx / 8
  let mask := 1#8 <<< (bitIdx % 8)
  { bmap with
    bits := update bmap.bits byteIdx
      (if val then bmap.bits byteIdx ||| mask else bmap.bits byteIdx &&& ~~~mask) }

def bitmapInit (bmap : Bitmap) : Bitmap :=
  { bmap with bits := fun i => if i < bmap.size then 0 else bmap.bits i }

/-- The loop that sets `cnt` bits from `start` on. -/
def bitmapSetRun (bmap : Bitmap) (start : Nat) (val : Bool) : Nat → Bitmap
  | 0 => bmap
  | n + 1 => bitmapSet (bitmapSetRun bmap start val n) (start + n) val

theorem bitmapTest_eq (bmap : Bitmap) (i : Nat) :
    bitmapTest bmap i = (bmap.bits (i / 8)).getLsbD (i % 8) := by
  have hlt : i % 8 < 8 := Nat.mod_lt _ (by decide)
  have hpow : BitVec.twoPow 8 (i % 8) ≠ 0#8 := by
    intro h
    have hbit := congrArg (fun v => v.getLsbD (i % 8)) h
    simp [hlt] at hbit
  rw [bitmapTest, ← BitVec.twoPow_eq, BitVec.and_twoPow]
  cases (bmap.bits (i / 8)).getLsbD (i % 8) <;> simp [hpow]

@[simp] theorem bitmapSet_size (bmap : Bitmap) (i : Nat) (val : Bool) :
    (bitmapSet bmap i val).size = bmap.size := rfl

/-- `bitmapSet` writes its bit and no other. -/
theorem bitmapTest_bitmapSet (bmap : Bitmap) (i j : Nat) (val : Bool) :
    bitmapTest (bitmapSet bmap i val) j = if j = i then val else bitmapTest bmap j := by
  have hlt : j % 8 < 8 := Nat.mod_lt _ (by decide)
  rw [bitmapTest_eq, bitmapTest_eq]
  unfold bitmapSet
  dsimp only
  rw [← BitVec.twoPow_eq]
  by_cases hbyte : j / 8 = i / 8
  · have hbit : j = i ↔ j % 8 = i % 8 := by omega
    rw [hbyte, update_self]
    by_cases he : j % 8 = i % 8
    · have hlt' : i % 8 < 8 := Nat.mod_lt _ (by decide)
      cases val <;> simp [hbit, he, hlt']
    · cases val <;> simp [hbit, he, hlt]
  · have hne : j ≠ i := fun e => hbyte (e ▸ rfl)
    rw [update_of_ne hbyte, if_neg hne]

@[simp] theorem bitmapSetRun_size (bmap : Bitmap) (start n : Nat) (val : Bool) :
    (bitmapSetRun bmap start val n).size = bmap.size := by
  induction n with
  | zero => rfl
  | succ n ih => exact ih

theorem bitmapTest_bitmapSetRun (bmap : Bitmap) (start n j : Nat) (val : Bool) :
    bitmapTest (bitmapSetRun bmap start val n) j =
      if start ≤ j ∧ j < start + n then val else bitmapTest bmap j := by
  induction n with
  | zero => rw [if_neg (by omega)]; rfl
  | succ n ih =>
      rw [bitmapSetRun, bitmapTest_bitmapSet, ih]
      by_cases he : j = start + n
      · rw [if_pos he, if_pos (by omega)]
      · rw [if_neg he]
        congr 1
        apply propext
        omega

theorem bitmapTest_bitmapInit (bmap : Bitmap) {j : Nat} (hj : j < bmap.size * 8) :
    bitmapTest (bitmapInit bmap) j = false := by
  have hbyte : j / 8 < bmap.size := by omega
  rw [bitmapTest_eq]
  unfold bitmapInit
  dsimp only
  rw [if_pos hbyte]
  exact BitVec.getLsbD_zero

/-- `cnt` clear bits from `i` on, inside the bitmap. -/
def ClearRun (bmap : Bitmap) (cnt i : Nat) : Prop :=
  i + cnt ≤ bmap.size * 8 ∧ ∀ j, i ≤ j → j < i + cnt → bitmapTest bmap j = false

theorem bitmapTest_of_full {bmap : Bitmap} {i : Nat} (h : bmap.bits (i / 8) = 0xff) :
    bitmapTest bmap i = true := by
  have hlt : i % 8 < 8 := Nat.mod_lt _ (by decide)
  rw [bitmapTest_eq, h]
  have hall : ∀ k < 8, (0xff : BitVec 8).getLsbD k = true := by decide
  exact hall _ hlt

/-- Every byte that the first loop skips is full, and the byte where it ends is not. -/
theorem skipFull_spec (bmap : Bitmap) (n idx : Nat) :
    idx ≤ skipFull bmap n idx ∧ skipFull bmap n idx ≤ idx + n ∧
      ∀ k, idx ≤ k → k < skipFull bmap n idx → bmap.bits k = 0xff := by
  induction n generalizing idx with
  | zero => exact ⟨Nat.le_refl _, Nat.le_refl _, fun k h h' => absurd h (Nat.not_le.2 h')⟩
  | succ n ih =>
      unfold skipFull
      split
      next hfull =>
        obtain ⟨hle, hub, hskip⟩ := ih (idx + 1)
        refine ⟨by omega, by omega, ?_⟩
        intro k hk hlt
        by_cases he : k = idx
        · rw [he, hfull]
        · exact hskip k (by omega) hlt
      next => exact ⟨Nat.le_refl _, by omega, fun k h h' => absurd h (Nat.not_le.2 h')⟩

/-- What the second loop knows at `idx`: the run that ends here has `curCnt` bits, none longer
does, and no run of `cnt` bits ended before. -/
structure ScanAt (bmap : Bitmap) (cnt idx curCnt : Nat) : Prop where
  short : curCnt < cnt
  fits : curCnt ≤ idx
  clear : ∀ j, idx - curCnt ≤ j → j < idx → bitmapTest bmap j = false
  maximal : curCnt < idx → bitmapTest bmap (idx - curCnt - 1) = true
  none : ∀ i, i + cnt ≤ idx → ∃ j, i ≤ j ∧ j < i + cnt ∧ bitmapTest bmap j = true

theorem ScanAt.step {bmap : Bitmap} {cnt idx curCnt : Nat} (h : ScanAt bmap cnt idx curCnt)
    (hne : (if !bitmapTest bmap idx then curCnt + 1 else 0) ≠ cnt) :
    ScanAt bmap cnt (idx + 1) (if !bitmapTest bmap idx then curCnt + 1 else 0) := by
  have hshort := h.short
  have hfits := h.fits
  cases hbit : bitmapTest bmap idx with
  | false =>
      simp only [hbit, Bool.not_false, if_true] at hne ⊢
      refine ⟨by omega, by omega, ?_, ?_, ?_⟩
      · intro j hj hlt
        by_cases he : j = idx
        · rw [he, hbit]
        · exact h.clear j (by omega) (by omega)
      · intro hlt
        have he : idx + 1 - (curCnt + 1) - 1 = idx - curCnt - 1 := by omega
        rw [he]
        exact h.maximal (by omega)
      · intro i hi
        by_cases he : i + cnt ≤ idx
        · exact h.none i he
        · exact ⟨idx - curCnt - 1, by omega, by omega, h.maximal (by omega)⟩
  | true =>
      simp only [hbit, Bool.not_true, Bool.false_eq_true, if_false] at hne ⊢
      refine ⟨by omega, by omega, ?_, ?_, ?_⟩
      · intro j hj hlt
        omega
      · intro _
        exact hbit
      · intro i hi
        by_cases he : i + cnt ≤ idx
        · exact h.none i he
        · exact ⟨idx, by omega, by omega, hbit⟩

theorem ScanAt.hit {bmap : Bitmap} {cnt idx curCnt : Nat} (h : ScanAt bmap cnt idx curCnt)
    (hcnt : (if !bitmapTest bmap idx then curCnt + 1 else 0) = cnt) :
    (∀ j, idx + 1 - cnt ≤ j → j < idx + 1 → bitmapTest bmap j = false) ∧
      ∀ k < idx + 1 - cnt, ∃ j, k ≤ j ∧ j < k + cnt ∧ bitmapTest bmap j = true := by
  have hshort := h.short
  have hfits := h.fits
  cases hbit : bitmapTest bmap idx with
  | true =>
      simp only [hbit, Bool.not_true, Bool.false_eq_true, if_false] at hcnt
      omega
  | false =>
      simp only [hbit, Bool.not_false, if_true] at hcnt
      constructor
      · intro j hj hlt
        by_cases he : j = idx
        · rw [he, hbit]
        · exact h.clear j (by omega) (by omega)
      · intro k hk
        by_cases he : k + cnt ≤ idx
        · exact h.none k he
        · exact ⟨idx - curCnt - 1, by omega, by omega, h.maximal (by omega)⟩

theorem scanRun_some {bmap : Bitmap} {cnt n idx curCnt i : Nat} (h : ScanAt bmap cnt idx curCnt)
    (hi : scanRun bmap cnt n idx curCnt = some i) :
    i + cnt ≤ idx + n ∧ (∀ j, i ≤ j → j < i + cnt → bitmapTest bmap j = false) ∧
      ∀ k < i, ∃ j, k ≤ j ∧ j < k + cnt ∧ bitmapTest bmap j = true := by
  induction n generalizing idx curCnt with
  | zero => exact (Option.some_ne_none i hi.symm).elim
  | succ n ih =>
      simp only [scanRun] at hi
      by_cases hcnt : (if !bitmapTest bmap idx then curCnt + 1 else 0) = cnt
      · rw [if_pos hcnt, Option.some.injEq] at hi
        have hshort := h.short
        have hfits := h.fits
        have hle : cnt ≤ idx + 1 := by
          rw [← hcnt]
          split <;> omega
        obtain ⟨hclear, hbefore⟩ := h.hit hcnt
        rw [hi] at hclear hbefore
        exact ⟨by omega, fun j hj hlt => hclear j hj (by omega), hbefore⟩
      · rw [if_neg hcnt] at hi
        obtain ⟨hfit, hrest⟩ := ih (h.step hcnt) hi
        exact ⟨by omega, hrest⟩

theorem scanRun_none {bmap : Bitmap} {cnt n idx curCnt : Nat} (h : ScanAt bmap cnt idx curCnt)
    (hn : scanRun bmap cnt n idx curCnt = none) {k : Nat} (hk : k + cnt ≤ idx + n) :
    ∃ j, k ≤ j ∧ j < k + cnt ∧ bitmapTest bmap j = true := by
  induction n generalizing idx curCnt with
  | zero => exact h.none k hk
  | succ n ih =>
      simp only [scanRun] at hn
      by_cases hcnt : (if !bitmapTest bmap idx then curCnt + 1 else 0) = cnt
      · rw [if_pos hcnt] at hn
        exact (Option.some_ne_none _ hn).elim
      · rw [if_neg hcnt] at hn
        exact ih (h.step hcnt) hn (by omega)

/-- Where the first loop ends no run has ended yet. -/
theorem scanAt_skipFull (bmap : Bitmap) {cnt : Nat} (hpos : 0 < cnt) :
    ScanAt bmap cnt (skipFull bmap bmap.size 0 * 8) 0 := by
  obtain ⟨-, -, hskip⟩ := skipFull_spec bmap bmap.size 0
  refine ⟨hpos, Nat.zero_le _, fun j hj hlt => by omega, ?_, ?_⟩
  · intro hlt
    exact bitmapTest_of_full (hskip _ (Nat.zero_le _) (by omega))
  · intro i hi
    exact ⟨i, Nat.le_refl _, by omega, bitmapTest_of_full (hskip _ (Nat.zero_le _) (by omega))⟩

theorem not_clearRun {bmap : Bitmap} {cnt k : Nat}
    (h : ∃ j, k ≤ j ∧ j < k + cnt ∧ bitmapTest bmap j = true) : ¬ClearRun bmap cnt k := by
  rintro ⟨-, hclear⟩
  obtain ⟨j, hj, hlt, hset⟩ := h
  rw [hclear j hj hlt] at hset
  exact Bool.false_ne_true hset

/-- `bitmapScan` finds the first run. -/
theorem bitmapScan_some {bmap : Bitmap} {cnt i : Nat} (hpos : 0 < cnt)
    (h : bitmapScan bmap cnt = some i) :
    ClearRun bmap cnt i ∧ ∀ k < i, ¬ClearRun bmap cnt k := by
  have hstart := scanAt_skipFull bmap hpos
  obtain ⟨-, hle, -⟩ := skipFull_spec bmap bmap.size 0
  unfold bitmapScan at h
  dsimp only at h
  split at h
  next => exact (Option.some_ne_none i h.symm).elim
  next =>
    obtain ⟨hfit, hclear, hbefore⟩ := scanRun_some hstart h
    exact ⟨⟨by omega, hclear⟩, fun k hk => not_clearRun (hbefore k hk)⟩

theorem bitmapScan_none {bmap : Bitmap} {cnt : Nat} (hpos : 0 < cnt)
    (h : bitmapScan bmap cnt = none) (k : Nat) : ¬ClearRun bmap cnt k := by
  have hstart := scanAt_skipFull bmap hpos
  obtain ⟨-, hle, hskip⟩ := skipFull_spec bmap bmap.size 0
  intro hrun
  unfold bitmapScan at h
  dsimp only at h
  have hfit := hrun.1
  split at h
  next hfull =>
    have hset := bitmapTest_of_full (hskip (k / 8) (Nat.zero_le _) (by omega))
    exact not_clearRun ⟨k, Nat.le_refl _, by omega, hset⟩ hrun
  next => exact not_clearRun (scanRun_none hstart h (by omega)) hrun

/-- `bitmapScan` returns -1 exactly when there is no run. -/
theorem bitmapScan_eq_none_iff {bmap : Bitmap} {cnt : Nat} (hpos : 0 < cnt) :
    bitmapScan bmap cnt = none ↔ ∀ k, ¬ClearRun bmap cnt k := by
  constructor
  · exact bitmapScan_none hpos
  · intro hno
    cases hscan : bitmapScan bmap cnt with
    | none => rfl
    | some i => exact absurd (bitmapScan_some hpos hscan).1 (hno i)

/-- The bits determine the bytes. -/
theorem bits_eq_of_test {bmap bmap' : Bitmap} (h : ∀ j, bitmapTest bmap' j = bitmapTest bmap j) :
    bmap'.bits = bmap.bits := by
  funext b
  apply BitVec.eq_of_getLsbD_eq
  intro k hk
  have hbit := h (8 * b + k)
  rw [bitmapTest_eq, bitmapTest_eq, show (8 * b + k) / 8 = b by omega,
    show (8 * b + k) % 8 = k by omega] at hbit
  exact hbit

/-- Clearing a run that was clear before it was set gives back the bytes. -/
theorem bitmapSetRun_undo {bmap : Bitmap} {start n : Nat}
    (hclear : ∀ j, start ≤ j → j < start + n → bitmapTest bmap j = false) :
    bitmapSetRun (bitmapSetRun bmap start true n) start false n = bmap := by
  have hbits : (bitmapSetRun (bitmapSetRun bmap start true n) start false n).bits = bmap.bits := by
    apply bits_eq_of_test
    intro j
    rw [bitmapTest_bitmapSetRun, bitmapTest_bitmapSetRun]
    split
    next hin => exact (hclear j hin.1 hin.2).symm
    next => rfl
  have hsize : (bitmapSetRun (bitmapSetRun bmap start true n) start false n).size = bmap.size := by
    rw [bitmapSetRun_size, bitmapSetRun_size]
  calc bitmapSetRun (bitmapSetRun bmap start true n) start false n
      = ⟨bmap.bits, bmap.size⟩ := by rw [← hbits, ← hsize]
    _ = bmap := rfl

/-- What a result of the scan says, and what setting its run and clearing it again does. -/
structure FirstFit (bmap : Bitmap) (cnt i : Nat) : Prop where
  int : i < 2 ^ 31
  run : ClearRun bmap cnt i
  first : ∀ k < i, ¬ClearRun bmap cnt k
  set : ∀ j, bitmapTest (bitmapSetRun bmap i true cnt) j =
    if i ≤ j ∧ j < i + cnt then true else bitmapTest bmap j
  undo : bitmapSetRun (bitmapSetRun bmap i true cnt) i false cnt = bmap

/-- `bitmapScan` is an exact first fit. -/
theorem bitmapScan_exact (bmap : Bitmap) {cnt : Nat} (hcnt : 1 ≤ cnt) (hsize : 8 * bmap.size < 2 ^ 31) :
    (∀ i, bitmapScan bmap cnt = some i → FirstFit bmap cnt i) ∧
      (bitmapScan bmap cnt = none ↔ ∀ k, ¬ClearRun bmap cnt k) := by
  constructor
  · intro i hscan
    obtain ⟨hrun, hfirst⟩ := bitmapScan_some hcnt hscan
    have hfit := hrun.1
    exact ⟨by omega, hrun, hfirst, fun j => bitmapTest_bitmapSetRun bmap i cnt j true,
      bitmapSetRun_undo hrun.2⟩
  · exact bitmapScan_eq_none_iff hcnt

/-- Two clear bits across a byte border: bits 7 and 8 of the bytes `0x7f`, `0xfe`. -/
theorem bitmapScan_border :
    FirstFit ⟨fun k => if k = 0 then 0x7f else 0xfe, 2⟩ 2 7 :=
  (bitmapScan_exact ⟨fun k => if k = 0 then 0x7f else 0xfe, 2⟩ (by decide) (by decide)).1 7 (by decide)

end HoloOS
