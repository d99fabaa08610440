import HoloOS.LibString

/-! The searches of `lib/string.c`: `strchr`, `strrchr` and `strchrs` are three loops over one test of a byte,
and agree with one another whatever the test. The test compares a `char` with a `uint8`. -/

namespace HoloOS

open Flat Function

variable {m : Bytes} {p s : Addr} {ch x y : Byte} {xs ys : List Byte} {fuel n : Nat}

/-- The result of a search for the first byte that a test accepts. -/
def FirstHit (hit : Byte → Bool) (p : Addr) (xs : List Byte) (r : Option Addr) : Prop :=
  (r = none ∧ ∀ x ∈ xs, hit x = false) ∨ ∃ left x right, xs = left ++ x :: right ∧ hit x = true ∧
    (∀ y ∈ left, hit y = false) ∧ r = some (p + BitVec.ofNat 32 left.length)

/-- The result of a search for the last one. -/
def LastHit (hit : Byte → Bool) (p : Addr) (xs : List Byte) (r : Option Addr) : Prop :=
  (r = none ∧ ∀ x ∈ xs, hit x = false) ∨ ∃ left x right, xs = left ++ x :: right ∧ hit x = true ∧
    (∀ y ∈ right, hit y = false) ∧ r = some (p + BitVec.ofNat 32 left.length)

section Hits

variable {hit hit' : Byte → Bool} {r r' : Option Addr}

theorem FirstHit.congr (h : FirstHit hit p xs r) (hsame : ∀ x ∈ xs, hit' x = hit x) : FirstHit hit' p xs r := by
  rcases h with ⟨hr, hno⟩ | ⟨left, x, right, rfl, hx, hleft, hr⟩
  · exact Or.inl ⟨hr, fun x hx => (hsame x hx).trans (hno x hx)⟩
  · refine Or.inr ⟨left, x, right, rfl, (hsame x (by simp)).trans hx, fun y hy => ?_, hr⟩
    exact (hsame y (List.mem_append_left _ hy)).trans (hleft y hy)

theorem LastHit.congr (h : LastHit hit p xs r) (hsame : ∀ x ∈ xs, hit' x = hit x) : LastHit hit' p xs r := by
  rcases h with ⟨hr, hno⟩ | ⟨left, x, right, rfl, hx, hright, hr⟩
  · exact Or.inl ⟨hr, fun x hx => (hsame x hx).trans (hno x hx)⟩
  · refine Or.inr ⟨left, x, right, rfl, (hsame x (by simp)).trans hx, fun y hy => ?_, hr⟩
    exact (hsame y (List.mem_append_right _ (List.mem_cons_of_mem _ hy))).trans (hright y hy)

theorem FirstHit.none_iff (h : FirstHit hit p xs r) : r = none ↔ xs.countP hit = 0 := by
  rw [List.countP_eq_zero]
  rcases h with ⟨rfl, hno⟩ | ⟨left, x, right, rfl, hx, -, rfl⟩
  · exact ⟨fun _ x hx => by rw [hno x hx]; exact Bool.false_ne_true, fun _ => rfl⟩
  · exact ⟨fun h => (by cases h), fun h => absurd hx (h x (by simp))⟩

theorem LastHit.none_iff (h : LastHit hit p xs r) : r = none ↔ xs.countP hit = 0 := by
  rw [List.countP_eq_zero]
  rcases h with ⟨rfl, hno⟩ | ⟨left, x, right, rfl, hx, -, rfl⟩
  · exact ⟨fun _ x hx => by rw [hno x hx]; exact Bool.false_ne_true, fun _ => rfl⟩
  · exact ⟨fun h => (by cases h), fun h => absurd hx (h x (by simp))⟩

theorem countP_split (left right : List Byte) (hx : hit x = true) :
    (left ++ x :: right).countP hit = left.countP hit + right.countP hit + 1 := by
  rw [List.countP_append, List.countP_cons_of_pos hx, Nat.add_assoc]

theorem countP_none (h : ∀ y ∈ ys, hit y = false) : ys.countP hit = 0 :=
  List.countP_eq_zero.2 fun y hy => by rw [h y hy]; exact Bool.false_ne_true

/-- The first and the last hit are the same exactly when there is at most one. -/
theorem FirstHit.eq_last_iff (h : FirstHit hit p xs r) (h' : LastHit hit p xs r') (hlen : xs.length < 2 ^ 32) :
    r = r' ↔ xs.countP hit ≤ 1 := by
  rcases h with ⟨rfl, hno⟩ | ⟨left, x, right, rfl, hx, hleft, rfl⟩
  · rw [countP_none hno]
    refine ⟨fun _ => Nat.zero_le 1, fun _ => ?_⟩
    exact (h'.none_iff.2 (countP_none hno)).symm
  · rcases h' with ⟨-, hno⟩ | ⟨left', x', right', he, hx', hright', rfl⟩
    · rw [hno x (by simp)] at hx
      cases hx
    · have hcount := countP_split left right hx
      rw [countP_none hleft] at hcount
      have hcount' := countP_split left' right' hx'
      rw [countP_none hright', ← he] at hcount'
      rw [List.length_append] at hlen
      have hlen' := congrArg List.length he
      rw [List.length_append, List.length_append] at hlen'
      rw [Option.some.injEq]
      constructor
      · intro hsame
        have hlength := ofNat_injective (by omega) (by omega) hsame
        obtain ⟨rfl, -⟩ := List.append_inj he hlength
        rw [countP_none hleft] at hcount'
        omega
      · intro hle
        have hleft' : ∀ y ∈ left', hit y = false := by
          have hzero : left'.countP hit = 0 := by omega
          exact fun y hy => Bool.eq_false_iff.2 (List.countP_eq_zero.1 hzero y hy)
        rcases List.append_eq_append_iff.1 he with ⟨mid, rfl, hmid⟩ | ⟨mid, rfl, hmid⟩
        · cases mid with
          | nil => rw [List.append_nil]
          | cons z mid =>
              rw [List.cons_append, List.cons.injEq] at hmid
              have hz := hleft' z (by simp)
              rw [← hmid.1, hx] at hz
              cases hz
        · cases mid with
          | nil => rw [List.append_nil]
          | cons z mid =>
              rw [List.cons_append, List.cons.injEq] at hmid
              have hz := hleft z (by simp)
              rw [← hmid.1, hx'] at hz
              cases hz

end Hits

theorem strchrLoop_eq (h : Str m p xs) (hfuel : xs.length < fuel) :
    ∃ r, strchrLoop m ch fuel p = .ok r ∧ FirstHit (charEq ch) p xs r := by
  induction xs generalizing p fuel with
  | nil =>
      obtain ⟨fuel, rfl⟩ := Nat.exists_eq_add_one_of_ne_zero (Nat.ne_of_gt hfuel)
      refine ⟨none, ?_, Or.inl ⟨rfl, fun x hx => absurd hx List.not_mem_nil⟩⟩
      rw [strchrLoop, loadByte_some h.nil, fault_ok_bind, if_pos rfl]
      rfl
  | cons x xs ih =>
      obtain ⟨fuel, rfl⟩ := Nat.exists_eq_add_one_of_ne_zero (Nat.ne_of_gt (Nat.zero_lt_of_lt hfuel))
      obtain ⟨hx, hne, hrest⟩ := h.cons
      rw [strchrLoop, loadByte_some hx, fault_ok_bind, if_neg hne]
      by_cases hhit : charEq ch x = true
      · refine ⟨some p, if_pos hhit, Or.inr ⟨[], x, xs, rfl, hhit, fun y hy => absurd hy List.not_mem_nil, ?_⟩⟩
        exact congrArg some (BitVec.add_zero p).symm
      · obtain ⟨r, hr, hfirst⟩ := ih hrest (Nat.lt_of_succ_lt_succ hfuel)
        refine ⟨r, (if_neg hhit).trans hr, ?_⟩
        rcases hfirst with ⟨rfl, hno⟩ | ⟨left, y, right, rfl, hy, hleft, rfl⟩
        · refine Or.inl ⟨rfl, fun y hy => ?_⟩
          rcases List.mem_cons.1 hy with rfl | hy
          · exact Bool.eq_false_iff.2 hhit
          · exact hno y hy
        · refine Or.inr ⟨x :: left, y, right, rfl, hy, fun z hz => ?_, ?_⟩
          · rcases List.mem_cons.1 hz with rfl | hz
            · exact Bool.eq_false_iff.2 hhit
            · exact hleft z hz
          · rw [add_one_ofNat, List.length_cons]

/-- The loop returns the last hit, or what it came with when there is none. -/
theorem strrchrLoop_eq (h : Str m p xs) (hfuel : xs.length < fuel) (ch : Byte)
    (lastChar : Option Addr) : ∃ r, LastHit (charEq ch) p xs r ∧
      strrchrLoop m ch fuel p lastChar = .ok (if r = none then lastChar else r) := by
  induction xs generalizing p fuel lastChar with
  | nil =>
      obtain ⟨fuel, rfl⟩ := Nat.exists_eq_add_one_of_ne_zero (Nat.ne_of_gt hfuel)
      refine ⟨none, Or.inl ⟨rfl, fun x hx => absurd hx List.not_mem_nil⟩, ?_⟩
      rw [strrchrLoop, loadByte_some h.nil, fault_ok_bind, if_pos rfl, if_pos rfl]
      rfl
  | cons x xs ih =>
      obtain ⟨fuel, rfl⟩ := Nat.exists_eq_add_one_of_ne_zero (Nat.ne_of_gt (Nat.zero_lt_of_lt hfuel))
      obtain ⟨hx, hne, hrest⟩ := h.cons
      obtain ⟨r, hlast, hr⟩ := ih hrest (Nat.lt_of_succ_lt_succ hfuel) (if charEq ch x then some p else lastChar)
      rw [strrchrLoop, loadByte_some hx, fault_ok_bind, if_neg hne, hr]
      rcases hlast with ⟨rfl, hno⟩ | ⟨left, y, right, rfl, hy, hright, rfl⟩
      · by_cases hhit : charEq ch x = true
        · refine ⟨some p, Or.inr ⟨[], x, xs, rfl, hhit, hno, congrArg some (BitVec.add_zero p).symm⟩, ?_⟩
          rw [if_pos rfl, if_pos hhit, if_neg (Option.some_ne_none p)]
        · refine ⟨none, Or.inl ⟨rfl, fun y hy => ?_⟩, ?_⟩
          · rcases List.mem_cons.1 hy with rfl | hy
            · exact Bool.eq_false_iff.2 hhit
            · exact hno y hy
          · rw [if_pos rfl, if_neg hhit, if_pos rfl]
      · refine ⟨_, Or.inr ⟨x :: left, y, right, rfl, hy, hright, rfl⟩, ?_⟩
        rw [if_neg (Option.some_ne_none _), if_neg (Option.some_ne_none _), add_one_ofNat, List.length_cons]

theorem strchrsLoop_eq (h : Str m p xs) (hfuel : xs.length < fuel) (cnt : BitVec 32) :
    strchrsLoop m ch fuel p cnt = .ok (cnt + BitVec.ofNat 32 (xs.countP (charEq ch))) := by
  induction xs generalizing p fuel cnt with
  | nil =>
      obtain ⟨fuel, rfl⟩ := Nat.exists_eq_add_one_of_ne_zero (Nat.ne_of_gt hfuel)
      rw [strchrsLoop, loadByte_some h.nil, fault_ok_bind, if_pos rfl, List.countP_nil,
        show cnt + BitVec.ofNat 32 0 = cnt from BitVec.add_zero cnt]
      rfl
  | cons x xs ih =>
      obtain ⟨fuel, rfl⟩ := Nat.exists_eq_add_one_of_ne_zero (Nat.ne_of_gt (Nat.zero_lt_of_lt hfuel))
      obtain ⟨hx, hne, hrest⟩ := h.cons
      rw [strchrsLoop, loadByte_some hx, fault_ok_bind, if_neg hne, ih hrest (Nat.lt_of_succ_lt_succ hfuel),
        List.countP_cons]
      split
      next => rw [add_one_ofNat]
      next => rw [show cnt + 0 = cnt from BitVec.add_zero cnt, Nat.add_zero]

theorem strchr_eq (h : Str m p xs) (hp : p ≠ 0) (ch : Byte) :
    ∃ r, strchr m p ch = .ok r ∧ FirstHit (charEq ch) p xs r := by
  rw [strchr, sassert_true (decide_eq_true hp), fault_ok_bind]
  exact strchrLoop_eq h h.length_lt

theorem strrchr_eq (h : Str m p xs) (hp : p ≠ 0) (ch : Byte) :
    ∃ r, strrchr m p ch = .ok r ∧ LastHit (charEq ch) p xs r := by
  rw [strrchr, sassert_true (decide_eq_true hp), fault_ok_bind]
  obtain ⟨r, hlast, hr⟩ := strrchrLoop_eq h h.length_lt ch none
  refine ⟨r, hr.trans (congrArg _ ?_), hlast⟩
  split
  next he => exact he.symm
  next => rfl

theorem strchrs_eq (h : Str m p xs) (hp : p ≠ 0) (ch : Byte) :
    strchrs m p ch = .ok (BitVec.ofNat 32 (xs.countP (charEq ch))) := by
  rw [strchrs, sassert_true (decide_eq_true hp), fault_ok_bind, strchrsLoop_eq h h.length_lt]
  exact congrArg Except.ok (BitVec.zero_add _)

/-- The searches agree with the bytes of the string and with one another. -/
structure FindsChar (m : Bytes) (s : Addr) (xs : List Byte) (ch : Byte) : Prop where
  count : strchrs m s ch = .ok (BitVec.ofNat 32 (xs.count ch))
  first : ∃ r, strchr m s ch = .ok r ∧ FirstHit (· == ch) s xs r
  last : ∃ r, strrchr m s ch = .ok r ∧ LastHit (· == ch) s xs r
  null : strchr m s ch = .ok none ↔ strchrs m s ch = .ok 0
  nullLast : strrchr m s ch = .ok none ↔ strchrs m s ch = .ok 0
  same : strchr m s ch = strrchr m s ch ↔ ∃ n : BitVec 32, strchrs m s ch = .ok n ∧ n ≤ 1

/-- Below 128 the comparison is that of the bytes; from 128 on it never holds. -/
theorem charEq_eq (ch x : Byte) : charEq ch x = (decide (ch < 128) && x == ch) := by
  have hx := x.isLt
  have hch := ch.isLt
  rw [Bool.eq_iff_iff, charEq, decide_eq_true_eq, Bool.and_eq_true, decide_eq_true_eq, beq_iff_eq, BitVec.lt_def,
    ← BitVec.toNat_inj, BitVec.toInt, show (128 : Byte).toNat = 128 from rfl]
  split <;> omega

theorem countP_charEq_toNat (h : Str m p xs) (ch : Byte) :
    (BitVec.ofNat 32 (xs.countP (charEq ch))).toNat = xs.countP (charEq ch) := by
  rw [BitVec.toNat_ofNat]
  exact Nat.mod_eq_of_lt (Nat.lt_of_le_of_lt List.countP_le_length h.length_lt)

theorem strchrs_zero_iff (h : Str m p xs) (hp : p ≠ 0) :
    strchrs m p ch = .ok 0 ↔ xs.countP (charEq ch) = 0 := by
  rw [strchrs_eq h hp ch, ok_inj, ← BitVec.toNat_inj, countP_charEq_toNat h]
  rfl

/-- The searches agree with the bytes exactly when the character is below 128 or does not occur. -/
theorem findsChar_iff (h : Str m s xs) (hs : s ≠ 0) : FindsChar m s xs ch ↔ (ch < 128 ∨ ch ∉ xs) := by
  obtain ⟨r, hr, hfirst⟩ := strchr_eq h hs ch
  obtain ⟨r', hr', hlast⟩ := strrchr_eq h hs ch
  have hcount := strchrs_eq h hs ch
  constructor
  · intro hfinds
    by_contra hno
    obtain ⟨hge, hmem⟩ := not_or.1 hno
    have hzero : xs.countP (charEq ch) = 0 := by
      refine countP_none fun x _ => ?_
      rw [charEq_eq, decide_eq_false hge, Bool.false_and]
    have hsome := hfinds.count
    rw [hcount, ok_inj, hzero, ← BitVec.toNat_inj, BitVec.toNat_ofNat, BitVec.toNat_ofNat,
      Nat.mod_eq_of_lt (Nat.lt_of_le_of_lt List.count_le_length h.length_lt)] at hsome
    have hpos := List.count_pos_iff.2 (not_not.1 hmem)
    omega
  · intro hch
    have hsame : ∀ x ∈ xs, charEq ch x = (x == ch) := by
      intro x hx
      rw [charEq_eq]
      rcases hch with hlt | hno
      · rw [decide_eq_true hlt, Bool.true_and]
      · have hne : (x == ch) = false := beq_eq_false_iff_ne.2 fun he => hno (he ▸ hx)
        rw [hne, Bool.and_false]
    refine ⟨?_, ⟨r, hr, hfirst.congr fun x hx => (hsame x hx).symm⟩,
      ⟨r', hr', hlast.congr fun x hx => (hsame x hx).symm⟩, ?_, ?_, ?_⟩
    · rw [hcount, List.count, List.countP_congr fun x hx => by rw [hsame x hx]]
    · rw [hr, ok_inj, strchrs_zero_iff h hs, hfirst.none_iff]
    · rw [hr', ok_inj, strchrs_zero_iff h hs, hlast.none_iff]
    · rw [hr, hr', ok_inj, hfirst.eq_last_iff hlast h.length_lt, hcount]
      have hnat := countP_charEq_toNat h ch
      constructor
      · intro hle
        refine ⟨_, rfl, BitVec.le_def.2 ?_⟩
        rw [hnat]
        exact hle
      · rintro ⟨n, hn, hle⟩
        rw [ok_inj] at hn
        rw [← hn, BitVec.le_def, hnat] at hle
        exact hle

/-- 'b' in "abcb". -/
theorem findsChar_ascii : FindsChar (twoStrings [97, 98, 99, 98] []) 0x1000 [97, 98, 99, 98] 98 := by
  have h : Str (twoStrings [97, 98, 99, 98] []) 0x1000 [97, 98, 99, 98] :=
    ⟨⟨by decide, by decide, by decide, by decide, by decide, trivial⟩, by decide⟩
  exact (findsChar_iff h (by decide)).2 (Or.inl (by decide))

/-- 0xe9 in the string that is this byte: no position is found. -/
theorem strchr_misses : ∃ m s xs, s ≠ 0 ∧ Str m s xs ∧ strchr m s 0xe9 = .ok none ∧
    strrchr m s 0xe9 = .ok none ∧ strchrs m s 0xe9 = .ok 0 ∧ xs.count 0xe9 = 1 ∧ ¬FindsChar m s xs 0xe9 := by
  have h : Str (twoStrings [0xe9] []) 0x1000 [0xe9] := ⟨⟨by decide, by decide, trivial⟩, by decide⟩
  refine ⟨_, _, _, by decide, h, by decide, by decide, by decide, by decide, fun hfinds => ?_⟩
  have hcount := hfinds.count
  rw [strchrs_eq h (by decide), ok_inj] at hcount
  exact absurd hcount (by decide)

end HoloOS
