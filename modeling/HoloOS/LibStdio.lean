import HoloOS.LibString
import Mathlib.Data.Nat.Digits.Lemmas

/-! `itoa` and `vsprintf` of `lib/stdio.c`, and the `putint` of the kernel (`lib/kernel/printC.c`). The recursion
of `itoa` is one call for each digit. -/

namespace HoloOS

open Flat Function

/-- The byte of a character. -/
def chr (c : Char) : Byte := BitVec.ofNat 8 c.toNat

/-- The calls of `itoa` nest `depth` deep at most; the moved `*bufp` is returned. -/
def itoaLoop (base : Byte) : Nat → BitVec 32 → Addr → Bytes → Except Fault (Addr × Bytes)
  | 0, _, _, _ => .error .loops
  | depth + 1, v, bufp, m => do
      let digit := v % base.setWidth 32
      let v := v / base.setWidth 32
      let (bufp, m) ← if v ≠ 0 then itoaLoop base depth v bufp m else pure (bufp, m)
      let m ← storeByte m bufp
        ((if digit < 10 then digit + 48 else digit - 10 + 65).setWidth 8)
      return (bufp + 1, m)

/-- No number has more than 32 digits. -/
def itoa (v : BitVec 32) (bufp : Addr) (base : Byte) (m : Bytes) : Except Fault (Addr × Bytes) :=
  itoaLoop base 32 v bufp m

/-- The array `digit` of `putint`. -/
def putintDigits (num : BitVec 32) : List Byte :=
  (List.range 8).map fun i => ((num >>> ((7 - i) * 4)) &&& 0xF).setWidth 8

/-- The second loop of `putint` and what follows it: the characters sent to `putchar`. -/
def putintLoop : List Byte → Bool → List Byte
  | [], leading => if leading then [48] else []
  | digit :: rest, leading =>
      if leading ∧ digit = 0 then putintLoop rest leading
      else (if 10 ≤ digit then digit + 87 else digit + 48) :: putintLoop rest false

def putint (num : BitVec 32) : List Byte := putintLoop (putintDigits num) true

/-- The upper-case digit of a value. -/
def digitChar (d : Nat) : Byte := BitVec.ofNat 8 (if d < 10 then d + 48 else d - 10 + 65)

/-- The numeral without leading zeros. -/
def canonical (base n : Nat) : List Byte :=
  if n = 0 then [digitChar 0] else ((Nat.digits base n).map digitChar).reverse

variable {m : Bytes} {a p : Addr} {base n k d depth : Nat} {v : BitVec 32} {xs ys : List Byte}

theorem canonical_lt (hn : n < base) : canonical base n = [digitChar n] := by
  unfold canonical
  split
  next he => rw [he]
  next hne =>
    rw [Nat.digits_of_lt base n hne hn]
    rfl

theorem canonical_ge (hbase : 2 ≤ base) (hn : base ≤ n) :
    canonical base n = canonical base (n / base) ++ [digitChar (n % base)] := by
  have hpos : 0 < n / base := Nat.div_pos hn (by omega)
  unfold canonical
  rw [if_neg (by omega), if_neg (by omega), Nat.digits_def' (by omega) (by omega), List.map_cons, List.reverse_cons]

theorem canonical_ne_nil (base n : Nat) : canonical base n ≠ [] := by
  unfold canonical
  split
  next => exact List.cons_ne_nil _ _
  next hne =>
    rw [Ne, List.reverse_eq_nil_iff, List.map_eq_nil_iff, Nat.digits_eq_nil_iff_eq_zero]
    exact hne

theorem digitChar_eq (digit : BitVec 32) :
    (if digit < 10 then digit + 48 else digit - 10 + 65).setWidth 8 = digitChar digit.toNat := by
  apply BitVec.eq_of_toNat_eq
  have hlt := digit.isLt
  unfold digitChar
  rw [BitVec.toNat_setWidth, BitVec.toNat_ofNat]
  by_cases h : digit < 10
  · have hten : digit.toNat < 10 := BitVec.lt_def.1 h
    rw [if_pos h, if_pos hten, BitVec.toNat_add, show (48 : BitVec 32).toNat = 48 from rfl]
    omega
  · have hten : ¬digit.toNat < 10 := fun hn => h (BitVec.lt_def.2 hn)
    rw [if_neg h, if_neg hten, BitVec.toNat_add,
      BitVec.toNat_sub_of_le (BitVec.le_def.2 (Nat.le_of_not_lt hten)), show (65 : BitVec 32).toNat = 65 from rfl,
      show (10 : BitVec 32).toNat = 10 from rfl]
    omega

/-- Every byte of an area is accessible. -/
def Room (m : Bytes) (p : Addr) (n : Nat) : Prop := ∀ a, InArea p n a → (m a).isSome

theorem Room.part (h : Room m p n) {i : Nat} (hi : i + k ≤ n) : Room m (p + BitVec.ofNat 32 i) k :=
  fun a ha => h a (ha.inside hi)

theorem Room.front (h : Room m p n) (hk : k ≤ n) : Room m p k := fun a ha => h a (ha.mono hk)

theorem Room.put {q : Addr} (h : Room m p n) : Room (put m q xs) p n := fun a ha => put_isSome (h a ha)

theorem put_append_one (m : Bytes) (p : Addr) (xs : List Byte) (x : Byte) :
    put m p (xs ++ [x]) = update (put m p xs) (p + BitVec.ofNat 32 xs.length) (some x) := put_append

theorem itoaLoop_eq {base : Byte} (hbase : 2 ≤ base.toNat) (hv : v.toNat < base.toNat ^ (depth + 1))
    (hroom : Room m p (canonical base.toNat v.toNat).length) :
    itoaLoop base (depth + 1) v p m = .ok (p + BitVec.ofNat 32 (canonical base.toNat v.toNat).length,
      put m p (canonical base.toNat v.toNat)) := by
  have hword : (base.setWidth 32).toNat = base.toNat := by
    rw [BitVec.toNat_setWidth]
    exact Nat.mod_eq_of_lt (Nat.lt_of_lt_of_le base.isLt (by decide))
  have hmod : ∀ v : BitVec 32, (v % base.setWidth 32).toNat = v.toNat % base.toNat :=
    fun v => by rw [BitVec.toNat_umod, hword]
  have hdiv : ∀ v : BitVec 32, (v / base.setWidth 32).toNat = v.toNat / base.toNat :=
    fun v => by rw [BitVec.toNat_udiv, hword]
  have hzero : ∀ v : BitVec 32, v / base.setWidth 32 = 0 ↔ v.toNat < base.toNat := by
    intro v
    rw [← BitVec.toNat_inj, hdiv]
    exact Nat.div_eq_zero_iff_lt (by omega)
  induction depth generalizing v with
  | zero =>
      rw [Nat.zero_add, Nat.pow_one] at hv
      rw [canonical_lt hv] at hroom ⊢
      rw [itoaLoop]
      dsimp only
      rw [if_neg (not_not.2 ((hzero v).2 hv)), digitChar_eq, hmod, Nat.mod_eq_of_lt hv]
      change (storeByte m p _ >>= _) = _
      rw [storeByte_some (hroom p (inArea_self Nat.one_pos))]
      rfl
  | succ depth ih =>
      rw [itoaLoop]
      dsimp only
      rw [digitChar_eq, hmod]
      by_cases hlt : v.toNat < base.toNat
      · rw [canonical_lt hlt] at hroom ⊢
        rw [if_neg (not_not.2 ((hzero v).2 hlt)), Nat.mod_eq_of_lt hlt]
        change (storeByte m p _ >>= _) = _
        rw [storeByte_some (hroom p (inArea_self Nat.one_pos))]
        rfl
      · have hsplit := canonical_ge hbase (Nat.le_of_not_lt hlt)
        rw [hsplit, List.length_append, List.length_singleton] at hroom
        have hquot : (v / base.setWidth 32).toNat < base.toNat ^ (depth + 1) := by
          rw [hdiv]
          exact Nat.div_lt_of_lt_mul (by rw [Nat.mul_comm, ← Nat.pow_succ]; exact hv)
        have hrec := ih hquot (by rw [hdiv]; exact hroom.front (Nat.le_succ _))
        rw [hdiv] at hrec
        rw [if_pos fun he => hlt ((hzero v).1 he), hrec, fault_ok_bind]
        dsimp only
        rw [storeByte_some (put_isSome (hroom _ (inArea_add (Nat.lt_succ_self _)))), fault_ok_bind, hsplit,
          put_append_one, List.length_append, List.length_singleton, ← add_ofNat_ofNat]
        rfl

/-- `itoa` writes the canonical numeral. -/
theorem itoa_eq {base : Byte} (hbase : 2 ≤ base.toNat) (hroom : Room m p (canonical base.toNat v.toNat).length) :
    itoa v p base m = .ok (p + BitVec.ofNat 32 (canonical base.toNat v.toNat).length,
      put m p (canonical base.toNat v.toNat)) :=
  itoaLoop_eq hbase (Nat.lt_of_lt_of_le v.isLt (Nat.pow_le_pow_left hbase 32)) hroom

/-- The lowest `k` hexadecimal digits of a number, the highest first. -/
def fixedDigits : Nat → Nat → List Nat
  | 0, _ => []
  | k + 1, n => fixedDigits k (n / 16) ++ [n % 16]

theorem nibble_toNat (num : BitVec 32) (i : Nat) :
    (((num >>> i) &&& 0xF).setWidth 8).toNat = num.toNat / 2 ^ i % 16 := by
  have hmask : ((num >>> i) &&& 0xF).toNat = num.toNat / 2 ^ i % 16 := by
    rw [BitVec.toNat_and, BitVec.toNat_ushiftRight, Nat.shiftRight_eq_div_pow]
    exact Nat.and_two_pow_sub_one_eq_mod _ 4
  rw [BitVec.toNat_setWidth, hmask]
  omega

theorem putintDigits_eq (num : BitVec 32) : putintDigits num = (fixedDigits 8 num.toNat).map (BitVec.ofNat 8) := by
  have hdigit : ∀ i, ((num >>> i) &&& 0xF).setWidth 8 = BitVec.ofNat 8 (num.toNat / 2 ^ i % 16) := by
    intro i
    apply BitVec.eq_of_toNat_eq
    rw [nibble_toNat, BitVec.toNat_ofNat]
    omega
  unfold putintDigits
  simp only [hdigit, List.range_succ, List.range_zero, List.nil_append, List.map_cons, List.map_nil,
    List.cons_append, fixedDigits, Nat.div_div_eq_div_mul]
  norm_num

/-- An upper-case letter for a lower-case one. -/
def toUpper (x : Byte) : Byte := if 97 ≤ x ∧ x ≤ 122 then x - 32 else x

theorem toUpper_digit (hd : d < 16) : toUpper (if 10 ≤ BitVec.ofNat 8 d then BitVec.ofNat 8 d + 87
    else BitVec.ofNat 8 d + 48) = digitChar d := by
  revert d
  decide

theorem ofNat_eq_zero_iff (hd : d < 16) : BitVec.ofNat 8 d = 0 ↔ d = 0 := by
  revert d
  decide

/-- After the first character every digit is sent. -/
theorem putintLoop_rest {ds : List Nat} (hds : ∀ d ∈ ds, d < 16) :
    (putintLoop (ds.map (BitVec.ofNat 8)) false).map toUpper = ds.map digitChar := by
  induction ds with
  | nil => rfl
  | cons d ds ih =>
      rw [List.map_cons, putintLoop, if_neg fun h => Bool.false_ne_true h.1, List.map_cons,
        toUpper_digit (hds d List.mem_cons_self), ih fun e he => hds e (List.mem_cons_of_mem _ he), List.map_cons]

theorem putintLoop_zeros (k : Nat) (es : List Byte) :
    putintLoop (List.replicate k 0 ++ es) true = putintLoop es true := by
  induction k with
  | zero => rfl
  | succ k ih => rw [List.replicate_succ, List.cons_append, putintLoop, if_pos ⟨rfl, rfl⟩, ih]

/-- A digit after others of which one is not 0. -/
theorem putintLoop_append {ds : List Nat} (hds : ∀ d ∈ ds, d < 16) (hsome : ∃ d ∈ ds, d ≠ 0) (hd : d < 16) :
    (putintLoop ((ds ++ [d]).map (BitVec.ofNat 8)) true).map toUpper =
      (putintLoop (ds.map (BitVec.ofNat 8)) true).map toUpper ++ [digitChar d] := by
  induction ds with
  | nil =>
      obtain ⟨e, he, -⟩ := hsome
      exact absurd he List.not_mem_nil
  | cons e ds ih =>
      have he := hds e List.mem_cons_self
      have hrest : ∀ d ∈ ds, d < 16 := fun f hf => hds f (List.mem_cons_of_mem _ hf)
      rw [List.cons_append, List.map_cons, List.map_cons, putintLoop, putintLoop]
      by_cases hzero : e = 0
      · have hlead : (true = true ∧ BitVec.ofNat 8 e = 0) := ⟨rfl, (ofNat_eq_zero_iff he).2 hzero⟩
        rw [if_pos hlead, if_pos hlead]
        obtain ⟨f, hf, hne⟩ := hsome
        exact ih hrest ⟨f, (List.mem_cons.1 hf).resolve_left fun h => hne (h.trans hzero), hne⟩
      · have hlead : ¬(true = true ∧ BitVec.ofNat 8 e = 0) := fun h => hzero ((ofNat_eq_zero_iff he).1 h.2)
        have hboth : ∀ f ∈ ds ++ [d], f < 16 := by
          intro f hf
          rcases List.mem_append.1 hf with hf | hf
          · exact hrest f hf
          · rw [List.mem_singleton.1 hf]
            exact hd
        rw [if_neg hlead, if_neg hlead, List.map_cons, List.map_cons, putintLoop_rest hboth, putintLoop_rest hrest,
          List.map_append, List.cons_append]
        rfl

theorem fixedDigits_lt : ∀ d ∈ fixedDigits k n, d < 16 := by
  induction k generalizing n with
  | zero => exact fun d hd => absurd hd List.not_mem_nil
  | succ k ih =>
      intro d hd
      rcases List.mem_append.1 hd with hd | hd
      · exact ih d hd
      · rw [List.mem_singleton.1 hd]
        exact Nat.mod_lt _ (by decide)

theorem fixedDigits_zero (k : Nat) : fixedDigits k 0 = List.replicate k 0 := by
  induction k with
  | zero => rfl
  | succ k ih => rw [fixedDigits, Nat.zero_div, ih, List.replicate_succ', Nat.zero_mod]

theorem fixedDigits_nonzero (hn : n < 16 ^ k) (hne : n ≠ 0) : ∃ d ∈ fixedDigits k n, d ≠ 0 := by
  induction k generalizing n with
  | zero => omega
  | succ k ih =>
      by_cases hmod : n % 16 = 0
      · have hdiv : n / 16 ≠ 0 := by omega
        obtain ⟨d, hd, hdne⟩ := ih (Nat.div_lt_of_lt_mul (by rw [Nat.mul_comm, ← Nat.pow_succ]; exact hn)) hdiv
        exact ⟨d, List.mem_append_left _ hd, hdne⟩
      · exact ⟨n % 16, List.mem_append_right _ (List.mem_singleton_self _), hmod⟩

theorem putintLoop_single (hd : d < 16) :
    (putintLoop ([d].map (BitVec.ofNat 8)) true).map toUpper = [digitChar d] := by
  revert d
  decide

/-- Eight digits without their leading zeros are the canonical numeral. -/
theorem putintLoop_fixed (hn : n < 16 ^ k) :
    (putintLoop ((fixedDigits k n).map (BitVec.ofNat 8)) true).map toUpper = canonical 16 n := by
  induction k generalizing n with
  | zero =>
      obtain rfl : n = 0 := by omega
      rfl
  | succ k ih =>
      have hmod := Nat.mod_lt n (show 0 < 16 by decide)
      rw [fixedDigits]
      by_cases hlt : n < 16
      · rw [canonical_lt hlt, Nat.div_eq_of_lt hlt, Nat.mod_eq_of_lt hlt, fixedDigits_zero, List.map_append,
          List.map_replicate]
        change (putintLoop (List.replicate k 0 ++ _) true).map toUpper = _
        rw [putintLoop_zeros]
        exact putintLoop_single hlt
      · have hquot : n / 16 < 16 ^ k := Nat.div_lt_of_lt_mul (by rw [Nat.mul_comm, ← Nat.pow_succ]; exact hn)
        rw [canonical_ge (by decide) (Nat.le_of_not_lt hlt),
          putintLoop_append fixedDigits_lt (fixedDigits_nonzero hquot (by omega)) hmod, ih hquot]

/-- The upper-case characters of `putint` are the canonical numeral. -/
theorem putint_upper (num : BitVec 32) : (putint num).map toUpper = canonical 16 num.toNat := by
  rw [putint, putintDigits_eq]
  exact putintLoop_fixed (Nat.lt_of_lt_of_le num.isLt (by decide))

/-- The value of an upper-case digit. -/
def hexValue (x : Byte) : Nat := if x < 65 then x.toNat - 48 else x.toNat - 55

/-- A number read in base 16. -/
def fromHex (xs : List Byte) : Nat := xs.foldl (fun n x => 16 * n + hexValue x) 0

theorem hexValue_digitChar (hd : d < 16) : hexValue (digitChar d) = d := by
  revert d
  decide

theorem fromHex_canonical (n : Nat) : fromHex (canonical 16 n) = n := by
  induction n using Nat.strongRecOn with
  | ind n ih =>
    by_cases hlt : n < 16
    · rw [canonical_lt hlt, fromHex, List.foldl_cons, List.foldl_nil, hexValue_digitChar hlt]
      omega
    · have hrec := ih (n / 16) (by omega)
      rw [fromHex] at hrec
      rw [canonical_ge (by decide) (Nat.le_of_not_lt hlt), fromHex, List.foldl_append, hrec, List.foldl_cons,
        List.foldl_nil, hexValue_digitChar (Nat.mod_lt _ (by decide))]
      omega

theorem canonical_length (hn : n < 16 ^ k) (hk : 0 < k) : (canonical 16 n).length ≤ k := by
  unfold canonical
  split
  next => exact hk
  next hne =>
    rw [List.length_reverse, List.length_map]
    exact Nat.digits_length_le_iff (by decide) n |>.2 hn

theorem digitChar_ne_zero (hd : d < 16) (hne : d ≠ 0) : digitChar d ≠ chr '0' := by
  revert d
  decide

/-- Only 0 has a leading zero. -/
theorem canonical_head (hne : n ≠ 0) : (canonical 16 n).head? ≠ some (chr '0') := by
  induction n using Nat.strongRecOn with
  | ind n ih =>
    by_cases hlt : n < 16
    · rw [canonical_lt hlt, List.head?_cons]
      exact fun h => digitChar_ne_zero hlt hne (Option.some.inj h)
    · rw [canonical_ge (by decide) (Nat.le_of_not_lt hlt), List.head?_append_of_ne_nil _ (canonical_ne_nil _ _)]
      exact ih (n / 16) (by omega) (by omega)

/-- `putint` sends the characters that `itoa` writes in base 16, but for the case of letters. They are at most
eight, have no leading zero and read as the number. -/
theorem putint_itoa (num : BitVec 32) (hroom : Room m p (putint num).length) :
    ∃ xs, itoa num p 16 m = .ok (p + BitVec.ofNat 32 xs.length, put m p xs) ∧ (putint num).map toUpper = xs ∧
      xs.length ≤ 8 ∧ (num = 0 → xs = [chr '0']) ∧ (num ≠ 0 → xs.head? ≠ some (chr '0')) ∧
      fromHex xs = num.toNat := by
  have hupper := putint_upper num
  have hlength : (putint num).length = (canonical 16 num.toNat).length := by rw [← hupper, List.length_map]
  refine ⟨canonical 16 num.toNat, itoa_eq (by decide) (by rw [hlength] at hroom; exact hroom), hupper,
    canonical_length (Nat.lt_of_lt_of_le num.isLt (by decide)) (by decide), ?_, ?_, fromHex_canonical _⟩
  · rintro rfl
    rfl
  · intro hne
    exact canonical_head fun hzero => hne (BitVec.eq_of_toNat_eq hzero)

/-- The address 0x1fb into a buffer at 0x1000: "1FB" and "1fb". -/
theorem putint_itoa_address : ∃ xs, itoa 0x1fb 0x1000 16 (fun _ => some 0) =
    .ok (0x1000 + BitVec.ofNat 32 xs.length, put (fun _ => some 0) 0x1000 xs) ∧
      (putint 0x1fb).map toUpper = xs ∧ xs.length ≤ 8 ∧ (0x1fb = (0 : BitVec 32) → xs = [chr '0']) ∧
      (0x1fb ≠ (0 : BitVec 32) → xs.head? ≠ some (chr '0')) ∧ fromHex xs = 0x1fb :=
  putint_itoa 0x1fb fun _ _ => rfl

end HoloOS
