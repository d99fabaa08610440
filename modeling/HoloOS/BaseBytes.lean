import Mathlib.Algebra.Group.Nat.Defs
import Mathlib.Logic.Function.Basic

/-! A flat 32-bit address space. A byte is accessible or not, addresses wrap, and an area is a run of
addresses from a start. `At` says which bytes lie at an address, `Str` that they are followed by the
first NUL, and `put` writes bytes one after another. -/

namespace Flat

open Function

abbrev Addr := BitVec 32

abbrev Byte := BitVec 8

/-- The accessible bytes. -/
abbrev Bytes := Addr → Option Byte

variable {m m' : Bytes} {a p : Addr} {x : Byte} {xs ys : List Byte} {i n k : Nat}

/-- `a` is one of the `n` addresses from `p` on. -/
def InArea (p : Addr) (n : Nat) (a : Addr) : Prop := (a - p).toNat < n

instance (p : Addr) (n : Nat) (a : Addr) : Decidable (InArea p n a) := inferInstanceAs (Decidable (_ < _))

theorem add_ofNat_sub (p : Addr) (i : Nat) : p + BitVec.ofNat 32 i - p = BitVec.ofNat 32 i := by
  rw [BitVec.add_comm, BitVec.add_sub_cancel]

theorem add_one_ofNat (p : Addr) (i : Nat) : p + 1 + BitVec.ofNat 32 i = p + BitVec.ofNat 32 (i + 1) := by
  rw [BitVec.add_assoc, BitVec.add_comm 1, BitVec.ofNat_add]
  rfl

theorem add_ofNat_ofNat (p : Addr) (i k : Nat) :
    p + BitVec.ofNat 32 i + BitVec.ofNat 32 k = p + BitVec.ofNat 32 (i + k) := by
  rw [BitVec.add_assoc, BitVec.ofNat_add]

theorem inArea_add (hi : i < n) : InArea p n (p + BitVec.ofNat 32 i) := by
  rw [InArea, add_ofNat_sub, BitVec.toNat_ofNat]
  exact Nat.lt_of_le_of_lt (Nat.mod_le _ _) hi

theorem inArea_self (hn : 0 < n) : InArea p n p := by
  rw [InArea, BitVec.sub_self]
  exact hn

theorem InArea.mono (h : InArea p n a) (hn : n ≤ k) : InArea p k a := Nat.lt_of_lt_of_le h hn

/-- Every member of an area is at an offset. -/
theorem InArea.offset (h : InArea p n a) : ∃ i < n, a = p + BitVec.ofNat 32 i := by
  refine ⟨(a - p).toNat, h, ?_⟩
  rw [BitVec.ofNat_toNat, BitVec.setWidth_eq, BitVec.add_comm, BitVec.sub_add_cancel]

/-- A part of an area. -/
theorem InArea.inside (h : InArea (p + BitVec.ofNat 32 i) k a) (hn : i + k ≤ n) : InArea p n a := by
  obtain ⟨j, hj, rfl⟩ := h.offset
  rw [add_ofNat_ofNat]
  exact inArea_add (by omega)

theorem InArea.next (h : InArea (p + 1) n a) : InArea p (n + 1) a := by
  have hpart : InArea (p + BitVec.ofNat 32 1) n a := h
  exact hpart.inside (by omega)

/-- Below 2 ^ 32 the offset is determined. -/
theorem ofNat_injective (hi : i < 2 ^ 32) (hk : k < 2 ^ 32)
    (he : p + BitVec.ofNat 32 i = p + BitVec.ofNat 32 k) : i = k := by
  have hsub := congrArg (· - p) he
  simp only [add_ofNat_sub] at hsub
  have hnat := congrArg BitVec.toNat hsub
  rw [BitVec.toNat_ofNat, BitVec.toNat_ofNat, Nat.mod_eq_of_lt hi, Nat.mod_eq_of_lt hk] at hnat
  exact hnat

/-- An area that leaves an address out has fewer than 2 ^ 32. -/
theorem lt_of_not_inArea (h : ¬InArea p n a) : n < 2 ^ 32 := Nat.lt_of_le_of_lt (Nat.le_of_not_lt h) (a - p).isLt

/-- The bytes from `p` on are `xs`. -/
def At (m : Bytes) : Addr → List Byte → Prop
  | _, [] => True
  | p, x :: xs => m p = some x ∧ At m (p + 1) xs

theorem At.get (h : At m p xs) (hi : i < xs.length) : m (p + BitVec.ofNat 32 i) = some (xs[i]) := by
  induction xs generalizing p i with
  | nil => exact absurd hi (Nat.not_lt_zero i)
  | cons x xs ih =>
      cases i with
      | zero => exact (congrArg m (BitVec.add_zero p)).trans h.1
      | succ i =>
          rw [← add_one_ofNat]
          exact ih h.2 (Nat.lt_of_succ_lt_succ hi)

theorem At.congr (h : At m p xs) (hsame : ∀ a, InArea p xs.length a → m' a = m a) : At m' p xs := by
  induction xs generalizing p with
  | nil => trivial
  | cons x xs ih =>
      refine ⟨(hsame p (inArea_self (Nat.succ_pos _))).trans h.1, ih h.2 fun a ha => hsame a ?_⟩
      exact ha.next

/-- A NUL-terminated string. -/
structure Str (m : Bytes) (p : Addr) (xs : List Byte) : Prop where
  bytes : At m p (xs ++ [0])
  nonzero : 0 ∉ xs

theorem Str.nil (h : Str m p []) : m p = some 0 := h.bytes.1

theorem Str.cons (h : Str m p (x :: xs)) : m p = some x ∧ x ≠ 0 ∧ Str m (p + 1) xs := by
  obtain ⟨hx, hrest⟩ := h.bytes
  refine ⟨hx, ?_, hrest, fun hm => h.nonzero (List.mem_cons_of_mem _ hm)⟩
  rintro rfl
  exact h.nonzero List.mem_cons_self

/-- The string at an address. -/
theorem Str.unique (h : Str m p xs) (h' : Str m p ys) : xs = ys := by
  induction xs generalizing p ys with
  | nil =>
      cases ys with
      | nil => rfl
      | cons y ys =>
          obtain ⟨hy, hne, -⟩ := h'.cons
          rw [h.nil] at hy
          exact absurd (Option.some.inj hy).symm hne
  | cons x xs ih =>
      obtain ⟨hx, hne, hrest⟩ := h.cons
      cases ys with
      | nil =>
          rw [h'.nil] at hx
          exact absurd (Option.some.inj hx).symm hne
      | cons y ys =>
          obtain ⟨hy, -, hrest'⟩ := h'.cons
          rw [Option.some.inj (hx.symm.trans hy), ih hrest hrest']

/-- A string does not go round the address space. -/
theorem Str.length_lt (h : Str m p xs) : xs.length < 2 ^ 32 := by
  by_contra hge
  have hlast := h.bytes.get (i := xs.length) (by simp)
  have hwrap := h.bytes.get (i := xs.length - 2 ^ 32) (by rw [List.length_append]; omega)
  have he : BitVec.ofNat 32 (xs.length - 2 ^ 32) = BitVec.ofNat 32 xs.length := by
    apply BitVec.eq_of_toNat_eq
    rw [BitVec.toNat_ofNat, BitVec.toNat_ofNat]
    omega
  have hlt : xs.length - 2 ^ 32 < xs.length := by omega
  rw [he, hlast, List.getElem_append_left hlt, List.getElem_append_right (Nat.le_refl _)] at hwrap
  simp only [Nat.sub_self, List.getElem_cons_zero, Option.some.injEq] at hwrap
  exact h.nonzero (hwrap ▸ List.getElem_mem _)

theorem Str.congr (h : Str m p xs) (hsame : ∀ a, InArea p (xs.length + 1) a → m' a = m a) : Str m' p xs :=
  ⟨h.bytes.congr (by rw [List.length_append]; exact hsame), h.nonzero⟩

/-- The bytes `xs` written from `p` on. -/
def put (m : Bytes) : Addr → List Byte → Bytes
  | _, [] => m
  | p, x :: xs => put (update m p (some x)) (p + 1) xs

theorem put_append : put m p (xs ++ ys) = put (put m p xs) (p + BitVec.ofNat 32 xs.length) ys := by
  induction xs generalizing m p with
  | nil => rw [List.nil_append, put, List.length_nil, show p + BitVec.ofNat 32 0 = p from BitVec.add_zero p]
  | cons x xs ih => rw [List.cons_append, put, put, ih, List.length_cons, add_one_ofNat]

theorem put_outside (h : ¬InArea p xs.length a) : put m p xs a = m a := by
  induction xs generalizing m p with
  | nil => rfl
  | cons x xs ih =>
      rw [put, ih fun ha => h ha.next, update_of_ne]
      rintro rfl
      exact h (inArea_self (Nat.succ_pos _))

theorem put_isSome (h : (m a).isSome) : (put m p xs a).isSome := by
  induction xs generalizing m p with
  | nil => exact h
  | cons x xs ih =>
      refine ih ?_
      by_cases he : a = p
      · rw [he, update_self]
        rfl
      · rw [update_of_ne he]
        exact h

end Flat
