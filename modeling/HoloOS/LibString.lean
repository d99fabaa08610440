import HoloOS.BaseBytes
import Mathlib.Data.Int.Order.Basic
import Mathlib.Data.List.Basic
import Mathlib.Order.Lattice

/-! The string functions of `lib/string.c` on a flat address space. `char` is signed and `uint8` is not;
both are promoted to `int` before they are compared. A loop that goes on for more bytes than there are
addresses does not end. -/

namespace HoloOS

open Flat Function

/-- Why a call does not return: `panicSpin`, an access to a byte that is not there, a loop that does not
end. -/
inductive Fault where
  | panic
  | access (addr : Addr)
  | loops
  deriving DecidableEq

def loadByte (m : Bytes) (p : Addr) : Except Fault Byte :=
  match m p with
  | some x => .ok x
  | none => .error (.access p)

def storeByte (m : Bytes) (p : Addr) (x : Byte) : Except Fault Bytes :=
  match m p with
  | some _ => .ok (update m p (some x))
  | none => .error (.access p)

/-- `ASSERT`. -/
def sassert (condition : Bool) : Except Fault Unit := if condition then .ok () else .error .panic

def memcmpLoop (m : Bytes) : Nat → Addr → Addr → Except Fault Int
  | 0, _, _ => .ok 0
  | size + 1, ac, bc => do
      let x ← loadByte m ac
      let y ← loadByte m bc
      if y < x then return 1
      else if x < y then return -1
      else memcmpLoop m size (ac + 1) (bc + 1)

def memcmp (m : Bytes) (a b : Addr) (size : BitVec 32) : Except Fault Int := do
  sassert (a ≠ 0 ∧ b ≠ 0)
  memcmpLoop m size.toNat a b

def strcpyLoop : Nat → Addr → Addr → Bytes → Except Fault Bytes
  | 0, _, _, _ => .error .loops
  | fuel + 1, dst, src, m => do
      let x ← loadByte m src
      if x = 0 then return m
      else
        let m ← storeByte m dst x
        strcpyLoop fuel (dst + 1) (src + 1) m

/-- The copy ends without a NUL. -/
def strcpy (dst src : Addr) (m : Bytes) : Except Fault (Addr × Bytes) := do
  sassert (dst ≠ 0 ∧ src ≠ 0)
  let m ← strcpyLoop (2 ^ 32) dst src m
  return (dst, m)

def strlenLoop (m : Bytes) : Nat → Addr → Except Fault Addr
  | 0, _ => .error .loops
  | fuel + 1, str => do
      let x ← loadByte m str
      if x = 0 then return str
      else strlenLoop m fuel (str + 1)

def strlen (m : Bytes) (str : Addr) : Except Fault (BitVec 32) := do
  sassert (str ≠ 0)
  let stop ← strlenLoop m (2 ^ 32) str
  return stop - str

def strcmpLoop (m : Bytes) : Nat → Addr → Addr → Except Fault (Addr × Addr)
  | 0, _, _ => .error .loops
  | fuel + 1, str1, str2 => do
      let x ← loadByte m str1
      if x = 0 then return (str1, str2)
      else
        let y ← loadByte m str2
        if x.toInt = y.toInt then strcmpLoop m fuel (str1 + 1) (str2 + 1)
        else return (str1, str2)

def strcmp (m : Bytes) (str1 str2 : Addr) : Except Fault Int := do
  sassert (str1 ≠ 0 ∧ str2 ≠ 0)
  let (str1, str2) ← strcmpLoop m (2 ^ 32) str1 str2
  let x ← loadByte m str1
  let y ← loadByte m str2
  if x = 0 ∧ y = 0 then return 0
  else return if y.toInt < x.toInt then 1 else -1

/-- `*str == ch`, a `char` against a `uint8`. -/
def charEq (ch x : Byte) : Bool := x.toInt = (ch.toNat : Int)

def strchrLoop (m : Bytes) (ch : Byte) : Nat → Addr → Except Fault (Option Addr)
  | 0, _ => .error .loops
  | fuel + 1, str => do
      let x ← loadByte m str
      if x = 0 then return none
      else if charEq ch x then return some str
      else strchrLoop m ch fuel (str + 1)

/-- `none` is the result `NULL`. -/
def strchr (m : Bytes) (str : Addr) (ch : Byte) : Except Fault (Option Addr) := do
  sassert (str ≠ 0)
  strchrLoop m ch (2 ^ 32) str

def strrchrLoop (m : Bytes) (ch : Byte) : Nat → Addr → Option Addr → Except Fault (Option Addr)
  | 0, _, _ => .error .loops
  | fuel + 1, str, lastChar => do
      let x ← loadByte m str
      if x = 0 then return lastChar
      else strrchrLoop m ch fuel (str + 1) (if charEq ch x then some str else lastChar)

def strrchr (m : Bytes) (str : Addr) (ch : Byte) : Except Fault (Option Addr) := do
  sassert (str ≠ 0)
  strrchrLoop m ch (2 ^ 32) str none

def strchrsLoop (m : Bytes) (ch : Byte) : Nat → Addr → BitVec 32 → Except Fault (BitVec 32)
  | 0, _, _ => .error .loops
  | fuel + 1, str, cnt => do
      let x ← loadByte m str
      if x = 0 then return cnt
      else strchrsLoop m ch fuel (str + 1) (cnt + if charEq ch x then 1 else 0)

def strchrs (m : Bytes) (str : Addr) (ch : Byte) : Except Fault (BitVec 32) := do
  sassert (str ≠ 0)
  strchrsLoop m ch (2 ^ 32) str 0

variable {m : Bytes} {a b c dst p s src : Addr} {ch x y : Byte} {xs ys zs : List Byte} {fuel n : Nat}

theorem fault_ok_bind {α β : Type} (r : α) (f : α → Except Fault β) : (Except.ok r >>= f) = f r := rfl

theorem sassert_true {condition : Bool} (h : condition = true) : sassert condition = .ok () := if_pos h

theorem loadByte_some (h : m p = some x) : loadByte m p = .ok x := by
  unfold loadByte
  rw [h]

theorem storeByte_some (h : (m p).isSome) : storeByte m p x = .ok (update m p (some x)) := by
  obtain ⟨y, hy⟩ := Option.isSome_iff_exists.1 h
  unfold storeByte
  rw [hy]

theorem strlenLoop_eq (h : Str m p xs) (hfuel : xs.length < fuel) :
    strlenLoop m fuel p = .ok (p + BitVec.ofNat 32 xs.length) := by
  induction xs generalizing p fuel with
  | nil =>
      obtain ⟨fuel, rfl⟩ := Nat.exists_eq_add_one_of_ne_zero (Nat.ne_of_gt hfuel)
      rw [strlenLoop, loadByte_some h.nil, fault_ok_bind, if_pos rfl, List.length_nil,
        show p + BitVec.ofNat 32 0 = p from BitVec.add_zero p]
      rfl
  | cons x xs ih =>
      obtain ⟨fuel, rfl⟩ := Nat.exists_eq_add_one_of_ne_zero (Nat.ne_of_gt (Nat.zero_lt_of_lt hfuel))
      obtain ⟨hx, hne, hrest⟩ := h.cons
      rw [strlenLoop, loadByte_some hx, fault_ok_bind, if_neg hne, ih hrest (Nat.lt_of_succ_lt_succ hfuel),
        add_one_ofNat, List.length_cons]

theorem strlen_eq (h : Str m p xs) (hp : p ≠ 0) : strlen m p = .ok (BitVec.ofNat 32 xs.length) := by
  rw [strlen, sassert_true (decide_eq_true hp), fault_ok_bind, strlenLoop_eq h h.length_lt,
    fault_ok_bind, add_ofNat_sub]
  rfl

/-- The result for two NUL-terminated strings whose first difference is decided by a key of the bytes. -/
def orderBy (key : Byte → Int) : List Byte → List Byte → Int
  | [], [] => 0
  | [], y :: _ => if key y < key 0 then 1 else -1
  | x :: _, [] => if key 0 < key x then 1 else -1
  | x :: xs, y :: ys => if x = y then orderBy key xs ys else if key y < key x then 1 else -1

/-- The keys of a string and of its NUL. -/
def keys (key : Byte → Int) (xs : List Byte) : List Int := xs.map key ++ [key 0]

/-- A byte as `uint8`. -/
def unsignedKey (x : Byte) : Int := x.toNat

theorem unsignedKey_injective : Injective unsignedKey :=
  fun _ _ h => BitVec.eq_of_toNat_eq (Int.ofNat.inj h)

/-- A byte as `char`. -/
def signedKey (x : Byte) : Int := x.toInt

theorem signedKey_injective : Injective signedKey := fun _ _ h => BitVec.eq_of_toInt_eq h

section OrderBy

variable {key : Byte → Int} (hkey : Injective key)
include hkey

/-- The first difference decides. -/
theorem ordered_of_ne (hne : x ≠ y) : (if key y < key x then 1 else -1 : Int) = -1 ↔ key x < key y := by
  have hkeys : key x ≠ key y := fun he => hne (hkey he)
  split
  next hlt => exact ⟨fun h => absurd h (by decide), fun h => absurd h (by omega)⟩
  next hle => exact ⟨fun _ => by omega, fun _ => rfl⟩

/-- `orderBy` is the lexicographic order of the keys. -/
theorem orderBy_eq_neg_one_iff (hx : 0 ∉ xs) (hy : 0 ∉ ys) :
    orderBy key xs ys = -1 ↔ keys key xs < keys key ys := by
  induction xs generalizing ys with
  | nil =>
      cases ys with
      | nil =>
          exact ⟨fun h => absurd (show (0 : Int) = -1 from h) (by decide), fun h => absurd h (List.lt_irrefl _)⟩
      | cons y ys =>
          have hne : (0 : Byte) ≠ y := fun he => hy (he ▸ List.mem_cons_self)
          rw [orderBy, ordered_of_ne hkey hne]
          simp only [keys, List.map_nil, List.nil_append, List.map_cons, List.cons_append, List.cons_lt_cons_iff,
            (show key 0 ≠ key y from fun he => hne (hkey he)), false_and, or_false]
  | cons x xs ih =>
      have hxne : x ≠ 0 := fun he => hx (he ▸ List.mem_cons_self)
      cases ys with
      | nil =>
          rw [orderBy, ordered_of_ne hkey hxne]
          simp only [keys, List.map_nil, List.nil_append, List.map_cons, List.cons_append, List.cons_lt_cons_iff,
            (show key x ≠ key 0 from fun he => hxne (hkey he)), false_and, or_false]
      | cons y ys =>
          rw [orderBy]
          by_cases he : x = y
          · rw [if_pos he, ih (fun hm => hx (List.mem_cons_of_mem _ hm)) (fun hm => hy (List.mem_cons_of_mem _ hm)), he]
            simp only [keys, List.map_cons, List.cons_append, List.cons_lt_cons_iff, lt_irrefl, true_and, false_or]
          · rw [if_neg he, ordered_of_ne hkey he]
            simp only [keys, List.map_cons, List.cons_append, List.cons_lt_cons_iff,
              (show key x ≠ key y from fun hk => he (hkey hk)), false_and, or_false]

omit hkey in
theorem orderBy_zero_iff : orderBy key xs ys = 0 ↔ xs = ys := by
  induction xs generalizing ys with
  | nil =>
      cases ys with
      | nil => exact ⟨fun _ => rfl, fun _ => rfl⟩
      | cons y ys =>
          rw [orderBy]
          refine ⟨fun h => ?_, fun h => by cases h⟩
          split at h <;> cases h
  | cons x xs ih =>
      cases ys with
      | nil =>
          rw [orderBy]
          refine ⟨fun h => ?_, fun h => by cases h⟩
          split at h <;> cases h
      | cons y ys =>
          rw [orderBy, List.cons.injEq]
          by_cases he : x = y
          · rw [if_pos he, ih]
            exact ⟨fun h => ⟨he, h⟩, fun h => h.2⟩
          · rw [if_neg he]
            refine ⟨fun h => ?_, fun h => absurd h.1 he⟩
            split at h <;> cases h

/-- Two different bytes the other way round. -/
theorem ordered_swap (hne : x ≠ y) :
    (if key x < key y then 1 else -1 : Int) = -(if key y < key x then 1 else -1) := by
  have hkeys : key x ≠ key y := fun he => hne (hkey he)
  by_cases hlt : key x < key y
  · rw [if_pos hlt, if_neg (by omega)]
    rfl
  · rw [if_neg hlt, if_pos (by omega)]

theorem orderBy_swap (hx : 0 ∉ xs) (hy : 0 ∉ ys) : orderBy key ys xs = -orderBy key xs ys := by
  induction xs generalizing ys with
  | nil =>
      cases ys with
      | nil => rfl
      | cons y ys => exact ordered_swap hkey fun he => hy (he ▸ List.mem_cons_self)
  | cons x xs ih =>
      cases ys with
      | nil => exact ordered_swap hkey fun he => hx (he ▸ List.mem_cons_self)
      | cons y ys =>
          rw [orderBy, orderBy]
          by_cases he : x = y
          · rw [if_pos he, if_pos he.symm]
            exact ih (fun hm => hx (List.mem_cons_of_mem _ hm)) fun hm => hy (List.mem_cons_of_mem _ hm)
          · rw [if_neg he, if_neg (Ne.symm he)]
            exact ordered_swap hkey he

theorem orderBy_trans (hx : 0 ∉ xs) (hy : 0 ∉ ys) (hz : 0 ∉ zs) (hxy : orderBy key xs ys = -1)
    (hyz : orderBy key ys zs = -1) : orderBy key xs zs = -1 := by
  rw [orderBy_eq_neg_one_iff hkey hx hy] at hxy
  rw [orderBy_eq_neg_one_iff hkey hy hz] at hyz
  rw [orderBy_eq_neg_one_iff hkey hx hz]
  exact List.lt_trans hxy hyz

end OrderBy

theorem strcmpLoop_eq (ha : Str m a xs) (hb : Str m b ys) (hfuel : xs.length < fuel) :
    ∃ p q x y, strcmpLoop m fuel a b = .ok (p, q) ∧ m p = some x ∧ m q = some y ∧
      (if x = 0 ∧ y = 0 then 0 else if signedKey y < signedKey x then 1 else -1 : Int) =
        orderBy signedKey xs ys := by
  induction xs generalizing a b ys fuel with
  | nil =>
      obtain ⟨fuel, rfl⟩ := Nat.exists_eq_add_one_of_ne_zero (Nat.ne_of_gt hfuel)
      have hloop : strcmpLoop m (fuel + 1) a b = .ok (a, b) := by
        rw [strcmpLoop, loadByte_some ha.nil, fault_ok_bind, if_pos rfl]
        rfl
      cases ys with
      | nil => exact ⟨a, b, 0, 0, hloop, ha.nil, hb.nil, rfl⟩
      | cons y ys =>
          obtain ⟨hy, hne, -⟩ := hb.cons
          exact ⟨a, b, 0, y, hloop, ha.nil, hy, if_neg fun h => hne h.2⟩
  | cons x xs ih =>
      obtain ⟨fuel, rfl⟩ := Nat.exists_eq_add_one_of_ne_zero (Nat.ne_of_gt (Nat.zero_lt_of_lt hfuel))
      obtain ⟨hx, hxne, hxs⟩ := ha.cons
      have hloop : ∀ y, m b = some y → strcmpLoop m (fuel + 1) a b =
          if x.toInt = y.toInt then strcmpLoop m fuel (a + 1) (b + 1) else .ok (a, b) := by
        intro y hy
        rw [strcmpLoop, loadByte_some hx, fault_ok_bind, if_neg hxne, loadByte_some hy, fault_ok_bind]
        rfl
      have hstop : ∀ y, m b = some y → x ≠ y → strcmpLoop m (fuel + 1) a b = .ok (a, b) := by
        intro y hy hne
        rw [hloop y hy]
        exact if_neg fun he => hne (signedKey_injective he)
      cases ys with
      | nil => exact ⟨a, b, x, 0, hstop 0 hb.nil hxne, hx, hb.nil, if_neg fun h => hxne h.1⟩
      | cons y ys =>
          obtain ⟨hy, hyne, hys⟩ := hb.cons
          rw [orderBy]
          by_cases he : x = y
          · rw [hloop y hy, if_pos (congrArg BitVec.toInt he), if_pos he]
            exact ih hxs hys (Nat.lt_of_succ_lt_succ hfuel)
          · rw [if_neg he]
            exact ⟨a, b, x, y, hstop y hy he, hx, hy, if_neg fun h => hxne h.1⟩

/-- `strcmp` orders strings by their bytes as `char`. -/
theorem strcmp_eq (ha : Str m a xs) (hb : Str m b ys) (hne : a ≠ 0 ∧ b ≠ 0) :
    strcmp m a b = .ok (orderBy signedKey xs ys) := by
  obtain ⟨p, q, x, y, hloop, hx, hy, horder⟩ := strcmpLoop_eq ha hb ha.length_lt
  rw [strcmp, sassert_true (decide_eq_true hne), fault_ok_bind, hloop, fault_ok_bind]
  dsimp only
  rw [loadByte_some hx, fault_ok_bind, loadByte_some hy, fault_ok_bind, ← horder]
  split
  next => rfl
  next => rfl

theorem unsignedKey_lt : unsignedKey x < unsignedKey y ↔ x < y := by
  rw [BitVec.lt_def, unsignedKey, unsignedKey, Int.ofNat_lt]

theorem memcmpLoop_succ (hx : m a = some x) (hy : m b = some y) : memcmpLoop m (n + 1) a b =
    if x = y then memcmpLoop m n (a + 1) (b + 1) else .ok (if unsignedKey y < unsignedKey x then 1 else -1) := by
  rw [memcmpLoop, loadByte_some hx, fault_ok_bind, loadByte_some hy, fault_ok_bind]
  by_cases he : x = y
  · rw [he, if_pos rfl, if_neg (BitVec.lt_irrefl y), if_neg (BitVec.lt_irrefl y)]
  · rw [if_neg he]
    by_cases hlt : y < x
    · rw [if_pos hlt, if_pos (unsignedKey_lt.2 hlt)]
      rfl
    · have hgt : x < y := BitVec.lt_of_le_ne (BitVec.not_lt.1 hlt) he
      rw [if_neg hlt, if_pos hgt, if_neg fun h => hlt (unsignedKey_lt.1 h)]
      rfl

theorem memcmpLoop_eq (ha : Str m a xs) (hb : Str m b ys) :
    memcmpLoop m (min xs.length ys.length + 1) a b = .ok (orderBy unsignedKey xs ys) := by
  induction xs generalizing a b ys with
  | nil =>
      cases ys with
      | nil => rw [memcmpLoop_succ ha.nil hb.nil, if_pos rfl]; rfl
      | cons y ys =>
          obtain ⟨hy, hne, -⟩ := hb.cons
          rw [memcmpLoop_succ ha.nil hy, if_neg (Ne.symm hne), orderBy]
  | cons x xs ih =>
      obtain ⟨hx, hxne, hxs⟩ := ha.cons
      cases ys with
      | nil => rw [memcmpLoop_succ hx hb.nil, if_neg hxne, orderBy]
      | cons y ys =>
          obtain ⟨hy, -, hys⟩ := hb.cons
          rw [memcmpLoop_succ hx hy, orderBy, List.length_cons, List.length_cons, Nat.succ_min_succ,
            Nat.succ_eq_add_one, ih hxs hys]
          split
          next => rfl
          next => rfl

/-- The smaller of two lengths. -/
def lesser (la lb : BitVec 32) : BitVec 32 := if la ≤ lb then la else lb

theorem lesser_toNat (la lb : BitVec 32) : (lesser la lb).toNat = min la.toNat lb.toNat := by
  unfold lesser
  split
  next hle => rw [Nat.min_eq_left (BitVec.le_def.1 hle)]
  next hlt => rw [Nat.min_eq_right (Nat.le_of_lt (Nat.lt_of_not_le fun h => hlt (BitVec.le_def.2 h)))]

/-- Two strings through the whole address space are the same. -/
theorem str_longest (ha : Str m a xs) (hb : Str m b ys) (hxs : xs.length + 1 = 2 ^ 32) (hys : ys.length + 1 = 2 ^ 32) :
    xs = ys := by
  have hnul := ha.bytes.get (i := xs.length) (by simp)
  simp only [List.getElem_append_right (Nat.le_refl _), Nat.sub_self, List.getElem_cons_zero] at hnul
  have hout : ¬InArea b ys.length (a + BitVec.ofNat 32 xs.length) := by
    intro hin
    obtain ⟨i, hi, he⟩ := hin.offset
    have hbyte := hb.bytes.get (i := i) (by rw [List.length_append]; omega)
    rw [← he, hnul, List.getElem_append_left hi] at hbyte
    exact hb.nonzero (Option.some.inj hbyte ▸ List.getElem_mem _)
  obtain rfl : a = b := by
    unfold InArea at hout
    rw [BitVec.toNat_sub, BitVec.toNat_add, BitVec.toNat_ofNat] at hout
    refine BitVec.eq_of_toNat_eq ?_
    have := a.isLt
    have := b.isLt
    omega
  exact ha.unique hb

/-- `memcmp` over the shorter string and its NUL orders strings by their bytes as `uint8`. -/
theorem memcmp_eq (ha : Str m a xs) (hb : Str m b ys) (hne : a ≠ 0 ∧ b ≠ 0) :
    memcmp m a b (lesser (BitVec.ofNat 32 xs.length) (BitVec.ofNat 32 ys.length) + 1) =
      .ok (orderBy unsignedKey xs ys) := by
  have hxs := ha.length_lt
  have hys := hb.length_lt
  have hsize : (lesser (BitVec.ofNat 32 xs.length) (BitVec.ofNat 32 ys.length) + 1).toNat =
      (min xs.length ys.length + 1) % 2 ^ 32 := by
    rw [BitVec.toNat_add, lesser_toNat, BitVec.toNat_ofNat, BitVec.toNat_ofNat, show (1 : BitVec 32).toNat = 1 from rfl]
    omega
  rw [memcmp, sassert_true (decide_eq_true hne), fault_ok_bind, hsize]
  by_cases hshort : min xs.length ys.length + 1 < 2 ^ 32
  · rw [Nat.mod_eq_of_lt hshort, memcmpLoop_eq ha hb]
  · -- the size of the longest string and its NUL is 0
    have hsame := str_longest ha hb (by omega) (by omega)
    rw [orderBy_zero_iff.2 hsame, show (min xs.length ys.length + 1) % 2 ^ 32 = 0 by omega]
    rfl

/-- `strcmp` and `memcmp` over the shorter string and its NUL return the same. -/
def StrcmpAgrees (m : Bytes) (a b : Addr) : Prop :=
  ∃ la lb r, strlen m a = .ok la ∧ strlen m b = .ok lb ∧ strcmp m a b = .ok r ∧
    memcmp m a b (lesser la lb + 1) = .ok r

/-- Where two NUL-terminated strings first differ, the bytes are both below 128 or both not. -/
def SameHalf : List Byte → List Byte → Prop
  | [], [] => True
  | [], y :: _ => y < 128
  | x :: _, [] => x < 128
  | x :: xs, y :: ys => if x = y then SameHalf xs ys else (x < 128 ↔ y < 128)

/-- The order as `char` is that as `uint8` within each half. -/
theorem keys_agree_iff (hne : x ≠ y) :
    ((if signedKey y < signedKey x then 1 else -1 : Int) = if unsignedKey y < unsignedKey x then 1 else -1) ↔
      (x < 128 ↔ y < 128) := by
  have hx := x.isLt
  have hy := y.isLt
  have hnat : x.toNat ≠ y.toNat := fun he => hne (BitVec.eq_of_toNat_eq he)
  have hhalf : ∀ z : Byte, z < 128 ↔ z.toNat < 128 := fun z => BitVec.lt_def
  rw [hhalf, hhalf]
  simp only [signedKey, unsignedKey, BitVec.toInt]
  split_ifs <;> omega

theorem orderBy_agree_iff (hx : 0 ∉ xs) (hy : 0 ∉ ys) :
    orderBy signedKey xs ys = orderBy unsignedKey xs ys ↔ SameHalf xs ys := by
  have hzero : (0 : Byte) < 128 := by decide
  induction xs generalizing ys with
  | nil =>
      cases ys with
      | nil => exact ⟨fun _ => trivial, fun _ => rfl⟩
      | cons y ys =>
          have hne : (0 : Byte) ≠ y := fun he => hy (he ▸ List.mem_cons_self)
          rw [orderBy, orderBy, keys_agree_iff hne]
          exact ⟨fun h => h.1 hzero, fun h => ⟨fun _ => h, fun _ => hzero⟩⟩
  | cons x xs ih =>
      cases ys with
      | nil =>
          have hne : x ≠ 0 := fun he => hx (he ▸ List.mem_cons_self)
          rw [orderBy, orderBy, keys_agree_iff hne]
          exact ⟨fun h => h.2 hzero, fun h => ⟨fun _ => hzero, fun _ => h⟩⟩
      | cons y ys =>
          rw [orderBy, orderBy, SameHalf]
          by_cases he : x = y
          · rw [if_pos he, if_pos he, if_pos he]
            exact ih (fun hm => hx (List.mem_cons_of_mem _ hm)) fun hm => hy (List.mem_cons_of_mem _ hm)
          · rw [if_neg he, if_neg he, if_neg he]
            exact keys_agree_iff he

theorem ok_inj {α : Type} {r r' : α} : (Except.ok r : Except Fault α) = .ok r' ↔ r = r' :=
  ⟨fun h => Except.ok.inj h, fun h => congrArg _ h⟩

/-- `memcmp` over the shorter string and its NUL is the lexicographic order of the bytes as `uint8`, and `strcmp`
agrees with it exactly when the first difference lies in one half of the bytes. In any case `strcmp` is 0
exactly on equal strings, antisymmetric and transitive. -/
theorem strcmp_agrees_iff (ha : Str m a xs) (hb : Str m b ys) (hne : a ≠ 0 ∧ b ≠ 0) :
    (StrcmpAgrees m a b ↔ SameHalf xs ys) ∧
      (∀ la lb, strlen m a = .ok la → strlen m b = .ok lb →
        (memcmp m a b (lesser la lb + 1) = .ok (-1) ↔ keys unsignedKey xs < keys unsignedKey ys)) ∧
      (strcmp m a b = .ok 0 ↔ xs = ys) ∧ (∀ r, strcmp m a b = .ok r ↔ strcmp m b a = .ok (-r)) ∧
      ∀ c zs, Str m c zs → c ≠ 0 → strcmp m a b = .ok (-1) → strcmp m b c = .ok (-1) → strcmp m a c = .ok (-1) := by
  refine ⟨?_, fun la lb hla hlb => ?_, ?_, fun r => ?_, fun c zs hc hcne hab hbc => ?_⟩
  · rw [← orderBy_agree_iff ha.nonzero hb.nonzero]
    constructor
    · rintro ⟨la, lb, r, hla, hlb, hstr, hmem⟩
      rw [strlen_eq ha hne.1, ok_inj] at hla
      rw [strlen_eq hb hne.2, ok_inj] at hlb
      rw [strcmp_eq ha hb hne, ok_inj] at hstr
      rw [← hla, ← hlb, memcmp_eq ha hb hne, ok_inj] at hmem
      rw [hstr, hmem]
    · intro he
      refine ⟨_, _, _, strlen_eq ha hne.1, strlen_eq hb hne.2, strcmp_eq ha hb hne, ?_⟩
      rw [memcmp_eq ha hb hne, he]
  · rw [strlen_eq ha hne.1, ok_inj] at hla
    rw [strlen_eq hb hne.2, ok_inj] at hlb
    rw [← hla, ← hlb, memcmp_eq ha hb hne, ok_inj,
      orderBy_eq_neg_one_iff unsignedKey_injective ha.nonzero hb.nonzero]
  · rw [strcmp_eq ha hb hne, ok_inj, orderBy_zero_iff]
  · rw [strcmp_eq ha hb hne, strcmp_eq hb ha hne.symm, orderBy_swap signedKey_injective ha.nonzero hb.nonzero, ok_inj,
      ok_inj, Int.neg_inj]
  · rw [strcmp_eq ha hb hne, ok_inj] at hab
    rw [strcmp_eq hb hc ⟨hne.2, hcne⟩, ok_inj] at hbc
    rw [strcmp_eq ha hc ⟨hne.1, hcne⟩, ok_inj]
    exact orderBy_trans signedKey_injective ha.nonzero hb.nonzero hc.nonzero hab hbc

/-- Two strings at 0x1000 and 0x2000, and nothing else. -/
def twoStrings (xs ys : List Byte) : Bytes := fun p =>
  if InArea 0x1000 (xs.length + 1) p then (xs ++ [0])[(p - 0x1000).toNat]?
  else if InArea 0x2000 (ys.length + 1) p then (ys ++ [0])[(p - 0x2000).toNat]? else none

/-- "ab" and "abc". -/
theorem strcmp_agrees_prefixed : StrcmpAgrees (twoStrings [97, 98] [97, 98, 99]) 0x1000 0x2000 := by
  have ha : Str (twoStrings [97, 98] [97, 98, 99]) 0x1000 [97, 98] :=
    ⟨⟨by decide, by decide, by decide, trivial⟩, by decide⟩
  have hb : Str (twoStrings [97, 98] [97, 98, 99]) 0x2000 [97, 98, 99] :=
    ⟨⟨by decide, by decide, by decide, by decide, trivial⟩, by decide⟩
  exact (strcmp_agrees_iff ha hb (by decide)).1.2 (show (99 : Byte) < 128 by decide)

/-- The string with the one byte 0xe9 comes before the empty one for `strcmp`, after it for `memcmp`. -/
theorem strcmp_disagrees : ∃ m a b xs ys, a ≠ 0 ∧ b ≠ 0 ∧ Str m a xs ∧ Str m b ys ∧ strcmp m a b = .ok (-1) ∧
    memcmp m a b (lesser 1 0 + 1) = .ok 1 ∧ ¬StrcmpAgrees m a b := by
  have hne : (0x1000 : Addr) ≠ 0 ∧ (0x2000 : Addr) ≠ 0 := by decide
  have ha : Str (twoStrings [0xe9] []) 0x1000 [0xe9] := ⟨⟨by decide, by decide, trivial⟩, by decide⟩
  have hb : Str (twoStrings [0xe9] []) 0x2000 [] := ⟨⟨by decide, trivial⟩, by decide⟩
  refine ⟨_, _, _, _, _, hne.1, hne.2, ha, hb, by decide, by decide, ?_⟩
  rintro ⟨la, lb, r, hla, hlb, hstr, hmem⟩
  rw [strlen_eq ha hne.1, ok_inj] at hla
  rw [strlen_eq hb hne.2, ok_inj] at hlb
  subst hla hlb
  rw [strcmp_eq ha hb hne, ok_inj] at hstr
  rw [memcmp_eq ha hb hne, ok_inj, ← hstr] at hmem
  exact absurd hmem (by decide)

end HoloOS
