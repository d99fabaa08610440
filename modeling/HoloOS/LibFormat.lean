import HoloOS.LibStdio

/-! `vsprintf` of `lib/stdio.c` against its reference: a format is a list of pieces, each conversion has its
argument, and the output is what the pieces say one after another. A byte that the memory does not have is an
error, so a result says that nothing else was read or written. -/

namespace HoloOS

open Flat Function

/-- The variables of `vsprintf` and the memory. -/
structure Printing where
  m : Bytes
  buf : Addr
  format : Addr
  ap : Addr

def loadWord (m : Bytes) (p : Addr) : Except Fault (BitVec 32) := do
  let a ← loadByte m p
  let b ← loadByte m (p + 1)
  let c ← loadByte m (p + 1 + 1)
  let d ← loadByte m (p + 1 + 1 + 1)
  return d ++ c ++ b ++ a

/-- The `switch` on the character after a `%`; `va_arg` moves `ap` first. -/
def convert (ch : Byte) (s : Printing) : Except Fault Printing :=
  if ch = chr 'x' then do
    let argInt ← loadWord s.m (s.ap + 4)
    let (buf, m) ← itoa argInt s.buf 16 s.m
    return { m, buf, format := s.format + 1, ap := s.ap + 4 }
  else if ch = chr 'd' then do
    let argInt ← loadWord s.m (s.ap + 4)
    let (buf, m) ← (if argInt.toInt < 0 then storeByte s.m s.buf (chr '-') >>= itoa (-argInt) (s.buf + 1) 10
      else itoa argInt s.buf 10 s.m)
    return { m, buf, format := s.format + 1, ap := s.ap + 4 }
  else if ch = chr 'c' then do
    let x ← loadByte s.m (s.ap + 4)
    let m ← storeByte s.m s.buf x
    return { m, buf := s.buf + 1, format := s.format + 1, ap := s.ap + 4 }
  else if ch = chr 's' then do
    let argStr ← loadWord s.m (s.ap + 4)
    let (_, m) ← strcpy s.buf argStr s.m
    let n ← strlen m argStr
    return { m, buf := s.buf + n, format := s.format + 1, ap := s.ap + 4 }
  else return s

def vsprintfLoop : Nat → Printing → Except Fault Printing
  | 0, _ => .error .loops
  | fuel + 1, s => do
      let x ← loadByte s.m s.format
      if x = 0 then return s
      else if x ≠ chr '%' then
        let m ← storeByte s.m s.buf x
        vsprintfLoop fuel { s with m, buf := s.buf + 1, format := s.format + 1 }
      else
        let ch ← loadByte s.m (s.format + 1)
        let s ← convert ch { s with format := s.format + 1 }
        vsprintfLoop fuel s

def vsprintf (str format ap : Addr) (m : Bytes) : Except Fault (BitVec 32 × Bytes) := do
  let s ← vsprintfLoop (2 ^ 32) { m, buf := str, format, ap }
  let m ← storeByte s.m s.buf 0
  return (s.buf - str, m)

inductive Conv where
  | x
  | d
  | c
  | s
  deriving DecidableEq

/-- The character of a conversion. -/
def Conv.char : Conv → Byte
  | .x => chr 'x'
  | .d => chr 'd'
  | .c => chr 'c'
  | .s => chr 's'

/-- The conversion that a character after `%` stands for. -/
def conversion (x : Byte) : Option Conv := [Conv.x, .d, .c, .s].find? fun k => k.char = x

inductive Piece where
  | lit (x : Byte)
  | conv (k : Conv)

/-- A `%` before anything but a conversion character is dropped. -/
def pieces : List Byte → List Piece
  | [] => []
  | [x] => if x = chr '%' then [] else [.lit x]
  | x :: y :: rest =>
      if x = chr '%' then
        match conversion y with
        | some k => .conv k :: pieces rest
        | none => pieces (y :: rest)
      else .lit x :: pieces (y :: rest)

/-- An argument: its word and, for `%s`, the string that the word points to. -/
structure Arg where
  word : BitVec 32
  text : List Byte

/-- The canonical signed decimal. -/
def decimal (v : Int) : List Byte := if v < 0 then chr '-' :: canonical 10 v.natAbs else canonical 10 v.natAbs

/-- What a conversion prints. -/
def Conv.text : Conv → Arg → List Byte
  | .x, arg => canonical 16 arg.word.toNat
  | .d, arg => decimal arg.word.toInt
  | .c, arg => [arg.word.setWidth 8]
  | .s, arg => arg.text

/-- The output; the arguments go to the conversions from left to right. -/
def render : List Piece → List Arg → List Byte
  | [], _ => []
  | .lit x :: rest, args => x :: render rest args
  | .conv k :: rest, arg :: args => k.text arg ++ render rest args
  | .conv _ :: rest, [] => render rest []

/-- The number of conversions. -/
def slots : List Piece → Nat
  | [] => 0
  | .lit _ :: rest => slots rest
  | .conv _ :: rest => slots rest + 1

/-- The bytes of a word in memory. -/
def wordBytes (w : BitVec 32) : List Byte :=
  [w.setWidth 8, (w >>> 8).setWidth 8, (w >>> 16).setWidth 8, (w >>> 24).setWidth 8]

/-- Bytes at an address that writing `n` bytes from `str` on leaves alone. -/
structure AtApart (m : Bytes) (str : Addr) (n : Nat) (p : Addr) (xs : List Byte) : Prop where
  bytes : At m p xs
  apart : ∀ a, InArea p xs.length a → ¬InArea str n a

/-- A slot after `ap` for each conversion, with a string for a `%s`. -/
def Supplies (m : Bytes) (str : Addr) (n : Nat) : Addr → List Piece → List Arg → Prop
  | _, [], _ => True
  | ap, .lit _ :: rest, args => Supplies m str n ap rest args
  | _, .conv _ :: _, [] => False
  | ap, .conv k :: rest, arg :: args =>
      AtApart m str n (ap + 4) (wordBytes arg.word) ∧
        (k = .s → arg.word ≠ 0 ∧ AtApart m str n arg.word (arg.text ++ [0]) ∧ 0 ∉ arg.text) ∧
          Supplies m str n (ap + 4) rest args

variable {m : Bytes} {str p q format ap : Addr} {ch x : Byte} {w : BitVec 32} {fmt text xs ys : List Byte}
  {args : List Arg} {arg : Arg} {k : Conv} {ps : List Piece} {s : Printing} {n fuel : Nat}

theorem AtApart.after (h : AtApart m str n p xs) (hys : ys.length ≤ n) : At (put m str ys) p xs :=
  h.bytes.congr fun a ha => put_outside fun hin => h.apart a ha (hin.mono hys)

theorem AtApart.tail (h : AtApart m str n p (x :: xs)) : AtApart m str n (p + 1) xs :=
  ⟨h.bytes.2, fun a ha => h.apart a ha.next⟩

theorem Room.rest (h : Room m str n) (hys : ys.length + fuel ≤ n) :
    Room (Flat.put m str ys) (str + BitVec.ofNat 32 ys.length) fuel := (h.put).part hys

theorem word_bytes (w : BitVec 32) :
    (w >>> 24).setWidth 8 ++ (w >>> 16).setWidth 8 ++ (w >>> 8).setWidth 8 ++ w.setWidth 8 = w := by
  apply BitVec.eq_of_getElem_eq
  intro i hi
  simp only [BitVec.getElem_append, BitVec.getElem_setWidth, BitVec.getLsbD_ushiftRight]
  grind

theorem loadWord_eq (h : At m p (wordBytes w)) : loadWord m p = .ok w := by
  obtain ⟨h0, h1, h2, h3, -⟩ := h
  rw [loadWord, loadByte_some h0, fault_ok_bind, loadByte_some h1, fault_ok_bind, loadByte_some h2, fault_ok_bind,
    loadByte_some h3, fault_ok_bind]
  exact congrArg Except.ok (word_bytes w)

/-- The copy of a string to where it is not. -/
theorem strcpyLoop_eq (h : Str m q xs) (hapart : ∀ a, InArea q (xs.length + 1) a → ¬InArea p xs.length a)
    (hroom : Room m p xs.length) (hfuel : xs.length < fuel) : strcpyLoop fuel p q m = .ok (put m p xs) := by
  induction xs generalizing m p q fuel with
  | nil =>
      obtain ⟨fuel, rfl⟩ := Nat.exists_eq_add_one_of_ne_zero (Nat.ne_of_gt hfuel)
      rw [strcpyLoop, loadByte_some h.nil, fault_ok_bind, if_pos rfl]
      rfl
  | cons x xs ih =>
      obtain ⟨fuel, rfl⟩ := Nat.exists_eq_add_one_of_ne_zero (Nat.ne_of_gt (Nat.zero_lt_of_lt hfuel))
      obtain ⟨hx, hne, hrest⟩ := h.cons
      rw [List.length_cons] at hapart hroom hfuel
      have hsome := hroom p (inArea_self (Nat.succ_pos _))
      have hkeep : Str (update m p (some x)) (q + 1) xs := by
        refine hrest.congr fun a ha => update_of_ne ?_ _ _
        rintro rfl
        exact hapart a ha.next (inArea_self (Nat.succ_pos _))
      rw [strcpyLoop, loadByte_some hx, fault_ok_bind, if_neg hne, storeByte_some hsome, fault_ok_bind]
      have hplace : Room (put m p [x]) (p + 1) xs.length := fun a ha => put_isSome (hroom a ha.next)
      exact ih hkeep (fun a ha hin => hapart a ha.next hin.next) hplace (Nat.lt_of_succ_lt_succ hfuel)

/-- The two calls of `%s`. -/
theorem strcpy_strlen (hne : p ≠ 0 ∧ q ≠ 0) (h : Str m q xs)
    (hapart : ∀ a, InArea q (xs.length + 1) a → ¬InArea p xs.length a) (hroom : Room m p xs.length) :
    strcpy p q m = .ok (p, put m p xs) ∧ strlen (put m p xs) q = .ok (BitVec.ofNat 32 xs.length) := by
  have hafter : Str (put m p xs) q xs := h.congr fun a ha => put_outside (hapart a ha)
  refine ⟨?_, strlen_eq hafter hne.2⟩
  rw [strcpy, sassert_true (decide_eq_true hne), fault_ok_bind,
    strcpyLoop_eq h hapart hroom h.length_lt, fault_ok_bind]
  rfl

/-- The variables when `xs` has been printed. -/
def printed (m : Bytes) (str : Addr) (xs : List Byte) (format ap : Addr) : Printing :=
  { m := put m str xs, buf := str + BitVec.ofNat 32 xs.length, format := format, ap := ap }

theorem printed_append (m : Bytes) (str : Addr) (xs ys : List Byte) (format ap : Addr) :
    Printing.mk (put (put m str xs) (str + BitVec.ofNat 32 xs.length) ys)
        (str + BitVec.ofNat 32 xs.length + BitVec.ofNat 32 ys.length) format ap =
      printed m str (xs ++ ys) format ap := by
  rw [printed, put_append, List.length_append, add_ofNat_ofNat]

theorem convert_none (h : conversion ch = none) : convert ch s = .ok s := by
  have hne : ∀ k : Conv, ch ≠ k.char := by
    intro k he
    have hk := List.find?_eq_none.1 h k (by cases k <;> decide)
    exact hk (decide_eq_true he.symm)
  have hx : ch ≠ chr 'x' := hne .x
  have hd : ch ≠ chr 'd' := hne .d
  have hc : ch ≠ chr 'c' := hne .c
  have hs : ch ≠ chr 's' := hne .s
  rw [convert, if_neg hx, if_neg hd, if_neg hc, if_neg hs]
  rfl

theorem conversion_some (h : conversion ch = some k) : ch = k.char := by
  have hk := List.find?_some (p := fun k : Conv => decide (k.char = ch)) h
  exact (of_decide_eq_true hk).symm

theorem neg_toNat (hneg : w.toInt < 0) : (-w).toNat = w.toInt.natAbs := by
  rw [BitVec.toNat_neg]
  have := w.isLt
  rw [BitVec.toInt_eq_toNat_cond] at *
  split at hneg <;> omega

theorem nonneg_toNat (hneg : ¬w.toInt < 0) : w.toNat = w.toInt.natAbs := by
  have := w.isLt
  rw [BitVec.toInt_eq_toNat_cond] at *
  split at hneg <;> omega

/-- `itoa` where the output has come to. -/
theorem itoa_printed {base : Byte} (hbase : 2 ≤ base.toNat) (hroom : Room m str n)
    (hlen : (xs ++ canonical base.toNat w.toNat).length ≤ n) :
    itoa w (str + BitVec.ofNat 32 xs.length) base (put m str xs) =
      .ok (str + BitVec.ofNat 32 (xs ++ canonical base.toNat w.toNat).length,
        put m str (xs ++ canonical base.toNat w.toNat)) := by
  rw [List.length_append] at hlen
  rw [itoa_eq hbase (hroom.rest hlen), put_append, List.length_append, add_ofNat_ofNat]

/-- The decimal conversion, with its sign. -/
theorem decimal_printed (hroom : Room m str n) (hlen : (xs ++ decimal w.toInt).length ≤ n) :
    (if w.toInt < 0 then storeByte (put m str xs) (str + BitVec.ofNat 32 xs.length) (chr '-') >>=
          itoa (-w) (str + BitVec.ofNat 32 xs.length + 1) 10
        else itoa w (str + BitVec.ofNat 32 xs.length) 10 (put m str xs)) =
      .ok (str + BitVec.ofNat 32 (xs ++ decimal w.toInt).length, put m str (xs ++ decimal w.toInt)) := by
  unfold decimal at hlen ⊢
  by_cases hneg : w.toInt < 0
  · rw [if_pos hneg] at hlen
    rw [List.append_cons] at hlen
    rw [if_pos hneg, if_pos hneg, List.append_cons]
    rw [← neg_toNat hneg] at hlen ⊢
    have hfirst : (xs ++ [chr '-']).length ≤ n := by
      rw [List.length_append] at hlen
      omega
    have hplace : (put m str xs (str + BitVec.ofNat 32 xs.length)).isSome := by
      refine put_isSome (hroom _ (inArea_add ?_))
      rw [List.length_append] at hfirst
      exact hfirst
    have hnext : str + BitVec.ofNat 32 xs.length + 1 = str + BitVec.ofNat 32 (xs ++ [chr '-']).length := by
      rw [List.length_append]
      exact add_ofNat_ofNat str xs.length 1
    rw [storeByte_some hplace, fault_ok_bind, ← put_append_one, hnext]
    exact itoa_printed (show 2 ≤ (10 : Byte).toNat by decide) hroom hlen
  · rw [if_neg hneg] at hlen
    rw [if_neg hneg, if_neg hneg]
    rw [← nonneg_toNat hneg] at hlen ⊢
    exact itoa_printed (show 2 ≤ (10 : Byte).toNat by decide) hroom hlen

theorem convert_eq (hzero : ¬InArea str n 0) (hroom : Room m str n)
    (hslot : AtApart m str n (ap + 4) (wordBytes arg.word))
    (hstring : k = .s → arg.word ≠ 0 ∧ AtApart m str n arg.word (arg.text ++ [0]) ∧ 0 ∉ arg.text)
    (hlen : (xs ++ k.text arg).length < n) :
    convert k.char (printed m str xs format ap) = .ok (printed m str (xs ++ k.text arg) (format + 1) (ap + 4)) := by
  have hxs : xs.length ≤ n := by
    rw [List.length_append] at hlen
    omega
  have hword : loadWord (put m str xs) (ap + 4) = .ok arg.word := loadWord_eq (hslot.after hxs)
  cases k with
  | x =>
      change (loadWord (put m str xs) (ap + 4) >>= _) = _
      rw [hword, fault_ok_bind]
      change (itoa arg.word (str + BitVec.ofNat 32 xs.length) 16 (put m str xs) >>= _) = _
      rw [itoa_printed (show 2 ≤ (16 : Byte).toNat by decide) hroom (Nat.le_of_lt hlen)]
      rfl
  | d =>
      change (loadWord (put m str xs) (ap + 4) >>= _) = _
      rw [hword, fault_ok_bind]
      change ((if arg.word.toInt < 0 then storeByte (put m str xs) (str + BitVec.ofNat 32 xs.length) (chr '-') >>=
            itoa (-arg.word) (str + BitVec.ofNat 32 xs.length + 1) 10
          else itoa arg.word (str + BitVec.ofNat 32 xs.length) 10 (put m str xs)) >>= _) = _
      rw [decimal_printed hroom (Nat.le_of_lt hlen)]
      rfl
  | c =>
      have hplace : (put m str xs (str + BitVec.ofNat 32 xs.length)).isSome :=
        put_isSome (hroom _ (inArea_add (by rw [List.length_append] at hlen; omega)))
      change (loadByte (put m str xs) (ap + 4) >>= _) = _
      rw [loadByte_some (hslot.after hxs).1, fault_ok_bind]
      change (storeByte (put m str xs) (str + BitVec.ofNat 32 xs.length) _ >>= _) = _
      rw [storeByte_some hplace, fault_ok_bind]
      exact congrArg Except.ok (printed_append m str xs [arg.word.setWidth 8] (format + 1) (ap + 4))
  | s =>
      obtain ⟨hptr, hheld, hnonzero⟩ := hstring rfl
      rw [List.length_append] at hlen
      have hpart : ∀ a, InArea arg.word (arg.text.length + 1) a →
          ¬InArea (str + BitVec.ofNat 32 xs.length) arg.text.length a := by
        intro a ha hin
        refine hheld.apart a ?_ (hin.inside (Nat.le_of_lt hlen))
        rw [List.length_append]
        exact ha
      have hrest : Room (put m str xs) (str + BitVec.ofNat 32 xs.length) arg.text.length :=
        hroom.rest (Nat.le_of_lt hlen)
      have hne : str + BitVec.ofNat 32 xs.length ≠ 0 := fun he => hzero (he ▸ inArea_add (by omega))
      obtain ⟨hcopy, hcount⟩ := strcpy_strlen ⟨hne, hptr⟩ ⟨hheld.after hxs, hnonzero⟩ hpart hrest
      change (loadWord (put m str xs) (ap + 4) >>= _) = _
      rw [hword, fault_ok_bind]
      change (strcpy (str + BitVec.ofNat 32 xs.length) arg.word (put m str xs) >>= _) = _
      rw [hcopy, fault_ok_bind]
      change (strlen _ arg.word >>= _) = _
      rw [hcount, fault_ok_bind]
      exact congrArg Except.ok (printed_append m str xs arg.text (format + 1) (ap + 4))

theorem vsprintfLoop_nul (hformat : AtApart m str n format [0]) (hxs : xs.length ≤ n) :
    vsprintfLoop (fuel + 1) (printed m str xs format ap) = .ok (printed m str xs format ap) := by
  have hread : loadByte (printed m str xs format ap).m (printed m str xs format ap).format = .ok 0 :=
    loadByte_some (hformat.after hxs).1
  rw [vsprintfLoop, hread, fault_ok_bind, if_pos rfl]
  rfl

theorem vsprintfLoop_lit (hroom : Room m str n) (hformat : AtApart m str n format (x :: ys)) (hzero : x ≠ 0)
    (hpercent : x ≠ chr '%') (hxs : xs.length < n) :
    vsprintfLoop (fuel + 1) (printed m str xs format ap) =
      vsprintfLoop fuel (printed m str (xs ++ [x]) (format + 1) ap) := by
  have hread : loadByte (printed m str xs format ap).m (printed m str xs format ap).format = .ok x :=
    loadByte_some (hformat.after (Nat.le_of_lt hxs)).1
  have hwrite : storeByte (printed m str xs format ap).m (printed m str xs format ap).buf x =
      .ok (put (put m str xs) (str + BitVec.ofNat 32 xs.length) [x]) :=
    storeByte_some (put_isSome (hroom _ (inArea_add hxs)))
  rw [vsprintfLoop, hread, fault_ok_bind, if_neg hzero, if_pos hpercent, hwrite, fault_ok_bind]
  exact congrArg (vsprintfLoop fuel) (printed_append m str xs [x] (format + 1) ap)

theorem vsprintfLoop_percent (hformat : AtApart m str n format (chr '%' :: ch :: ys)) (hxs : xs.length ≤ n) :
    vsprintfLoop (fuel + 1) (printed m str xs format ap) =
      (convert ch (printed m str xs (format + 1) ap) >>= vsprintfLoop fuel) := by
  have hread : loadByte (printed m str xs format ap).m (printed m str xs format ap).format = .ok (chr '%') :=
    loadByte_some (hformat.after hxs).1
  have hnext : loadByte (printed m str xs format ap).m ((printed m str xs format ap).format + 1) = .ok ch :=
    loadByte_some (hformat.after hxs).2.1
  rw [vsprintfLoop, hread, fault_ok_bind, if_neg (show chr '%' ≠ 0 by decide), if_neg (not_not.2 rfl), hnext,
    fault_ok_bind]
  rfl

theorem pieces_percent (hk : conversion x = some k) : pieces (chr '%' :: x :: ys) = .conv k :: pieces ys := by
  rw [pieces, if_pos rfl, hk]

theorem pieces_dropped (hk : conversion x = none) : pieces (chr '%' :: x :: ys) = pieces (x :: ys) := by
  rw [pieces, if_pos rfl, hk]

theorem pieces_lit (hx : x ≠ chr '%') : pieces (x :: ys) = .lit x :: pieces ys := by
  cases ys with
  | nil =>
      rw [pieces.eq_2, if_neg hx]
      rfl
  | cons y ys => rw [pieces, if_neg hx]

theorem add_slot (p : Addr) (i : Nat) : p + 4 + BitVec.ofNat 32 (4 * i) = p + BitVec.ofNat 32 (4 * (i + 1)) := by
  rw [Nat.mul_succ, Nat.add_comm]
  exact add_ofNat_ofNat p 4 (4 * i)

theorem conversion_zero : conversion 0 = none := by decide

/-- The loop from the middle of the format to its NUL, when `xs` has been printed. -/
theorem vsprintfLoop_eq (hzero : ¬InArea str n 0) (hroom : Room m str n)
    (hformat : AtApart m str n format (fmt ++ [0])) (hnonzero : 0 ∉ fmt) (hargs : Supplies m str n ap (pieces fmt) args)
    (hlen : (xs ++ render (pieces fmt) args).length < n) (hfuel : fmt.length < fuel) :
    vsprintfLoop fuel (printed m str xs format ap) =
      .ok (printed m str (xs ++ render (pieces fmt) args) (format + BitVec.ofNat 32 fmt.length)
        (ap + BitVec.ofNat 32 (4 * slots (pieces fmt)))) := by
  have hxs : xs.length < n := by
    rw [List.length_append] at hlen
    omega
  obtain ⟨fuel, rfl⟩ := Nat.exists_eq_add_one_of_ne_zero (Nat.ne_of_gt (Nat.zero_lt_of_lt hfuel))
  induction fmt using pieces.induct generalizing xs format ap args fuel with
  | case1 =>
      rw [vsprintfLoop_nul hformat (Nat.le_of_lt hxs), pieces, render, List.append_nil, List.length_nil, slots,
        Nat.mul_zero, show format + BitVec.ofNat 32 0 = format from BitVec.add_zero format,
        show ap + BitVec.ofNat 32 0 = ap from BitVec.add_zero ap]
  | case2 =>
      -- the NUL after the last `%` is looked at twice
      obtain ⟨fuel, rfl⟩ := Nat.exists_eq_add_one_of_ne_zero (Nat.ne_of_gt (Nat.lt_of_succ_lt_succ hfuel))
      rw [vsprintfLoop_percent hformat (Nat.le_of_lt hxs), convert_none conversion_zero, fault_ok_bind,
        vsprintfLoop_nul hformat.tail (Nat.le_of_lt hxs), pieces, if_pos rfl, render, List.append_nil, slots,
        Nat.mul_zero, show ap + BitVec.ofNat 32 0 = ap from BitVec.add_zero ap]
      rfl
  | case3 x hx =>
      obtain ⟨fuel, rfl⟩ := Nat.exists_eq_add_one_of_ne_zero (Nat.ne_of_gt (Nat.lt_of_succ_lt_succ hfuel))
      have hx0 : x ≠ 0 := fun he => hnonzero (he ▸ List.mem_cons_self)
      rw [pieces_lit hx] at hlen ⊢
      have htext : (xs ++ [x]).length < n := hlen
      rw [vsprintfLoop_lit hroom hformat hx0 hx hxs, vsprintfLoop_nul hformat.tail (Nat.le_of_lt htext)]
      exact congrArg (fun q => Except.ok (printed m str (xs ++ [x]) (format + 1) q)) (BitVec.add_zero ap).symm
  | case4 y rest k hk ih =>
      rw [pieces_percent hk] at hargs hlen ⊢
      cases args with
      | nil => exact absurd hargs id
      | cons arg args =>
          obtain ⟨hslot, hstring, hargs⟩ := hargs
          rw [render, ← List.append_assoc] at hlen
          have htext : (xs ++ k.text arg).length < n := by
            rw [List.length_append] at hlen
            omega
          rw [List.length_cons, List.length_cons] at hfuel
          obtain ⟨fuel, rfl⟩ := Nat.exists_eq_add_one_of_ne_zero (show fuel ≠ 0 by omega)
          have hrest := ih hformat.tail.tail (fun hm => hnonzero (List.mem_cons_of_mem _ (List.mem_cons_of_mem _ hm)))
            hargs hlen htext fuel (by omega)
          obtain rfl := conversion_some hk
          rw [vsprintfLoop_percent hformat (Nat.le_of_lt hxs), convert_eq hzero hroom hslot hstring htext,
            fault_ok_bind, hrest, render, List.append_assoc, slots, add_slot, List.length_cons, List.length_cons,
            add_one_ofNat, add_one_ofNat]
  | case5 y rest hk ih =>
      rw [pieces_dropped hk] at hargs hlen ⊢
      rw [List.length_cons] at hfuel
      obtain ⟨fuel, rfl⟩ := Nat.exists_eq_add_one_of_ne_zero (show fuel ≠ 0 by omega)
      have hrest := ih hformat.tail (fun hm => hnonzero (List.mem_cons_of_mem _ hm)) hargs hlen hxs fuel (by omega)
      rw [vsprintfLoop_percent hformat (Nat.le_of_lt hxs), convert_none hk, fault_ok_bind, hrest, add_one_ofNat]
      rfl
  | case6 x y rest hx ih =>
      rw [pieces_lit hx] at hargs hlen ⊢
      rw [List.length_cons] at hfuel
      have hx0 : x ≠ 0 := fun he => hnonzero (he ▸ List.mem_cons_self)
      obtain ⟨fuel, rfl⟩ := Nat.exists_eq_add_one_of_ne_zero (show fuel ≠ 0 by omega)
      rw [render, List.append_cons] at hlen
      have htext : (xs ++ [x]).length < n := by
        rw [List.length_append] at hlen
        omega
      have hrest := ih hformat.tail (fun hm => hnonzero (List.mem_cons_of_mem _ hm)) hargs hlen htext fuel (by omega)
      rw [vsprintfLoop_lit hroom hformat hx0 hx hxs, hrest, render, List.append_assoc, List.singleton_append,
        slots, add_one_ofNat]
      rfl

/-- `vsprintf` writes what the reference says and a NUL, returns the length, and has stopped at the NUL of the
format with one slot taken for each conversion. -/
theorem vsprintf_eq (hzero : ¬InArea str (n + 1) 0) (hroom : Room m str (n + 1))
    (hformat : AtApart m str (n + 1) format (fmt ++ [0])) (hnonzero : 0 ∉ fmt)
    (hargs : Supplies m str (n + 1) ap (pieces fmt) args) (htext : render (pieces fmt) args = text)
    (hn : text.length = n) :
    vsprintf str format ap m = .ok (BitVec.ofNat 32 n, put m str (text ++ [0])) ∧ n < 2 ^ 32 ∧
      vsprintfLoop (2 ^ 32) { m := m, buf := str, format := format, ap := ap } =
        .ok { m := put m str text, buf := str + BitVec.ofNat 32 n, format := format + BitVec.ofNat 32 fmt.length,
              ap := ap + BitVec.ofNat 32 (4 * slots (pieces fmt)) } := by
  subst htext hn
  have hfirst : ¬InArea str ((render (pieces fmt) args).length + 1) format :=
    hformat.apart format (inArea_self (by rw [List.length_append]; exact Nat.succ_pos _))
  have hbound := lt_of_not_inArea hfirst
  have hstring : Str m format fmt := ⟨hformat.bytes, hnonzero⟩
  have hstart : Printing.mk m str format ap = printed m str [] format ap :=
    congrArg (fun p => Printing.mk m p format ap) (BitVec.add_zero str).symm
  have hloop : vsprintfLoop (2 ^ 32) { m := m, buf := str, format := format, ap := ap } =
      .ok (printed m str (render (pieces fmt) args) (format + BitVec.ofNat 32 fmt.length)
        (ap + BitVec.ofNat 32 (4 * slots (pieces fmt)))) := by
    have htext : ([] ++ render (pieces fmt) args).length < (render (pieces fmt) args).length + 1 := Nat.lt_succ_self _
    rw [hstart]
    exact vsprintfLoop_eq hzero hroom hformat hnonzero hargs htext hstring.length_lt
  have hplace : (put m str (render (pieces fmt) args)
      (str + BitVec.ofNat 32 (render (pieces fmt) args).length)).isSome :=
    put_isSome (hroom _ (inArea_add (Nat.lt_succ_self _)))
  refine ⟨?_, Nat.lt_of_succ_lt hbound, hloop⟩
  rw [vsprintf, hloop, fault_ok_bind]
  change (storeByte (put m str _) (str + BitVec.ofNat 32 _) 0 >>= _) = _
  rw [storeByte_some hplace, fault_ok_bind, ← put_append_one]
  exact congrArg (fun r => Except.ok (r, put m str _)) (add_ofNat_sub str _)

/-- "%d%s" at 0x2000 and "ab" at 0x4000. -/
def formatMemory : Bytes :=
  put (put (put (put (fun _ => some 0) 0x2000 [37, 100, 37, 115, 0])
    0x3004 (wordBytes (-5))) 0x3008 (wordBytes 0x4000)) 0x4000 [97, 98, 0]

theorem formatMemory_room : Room formatMemory 0x1000 5 :=
  fun _ _ => put_isSome (put_isSome (put_isSome (put_isSome rfl)))

theorem formatMemory_apart {p : Addr} {k : Nat} (hlow : 0x1005 ≤ p.toNat) (hhigh : p.toNat + k < 2 ^ 32) :
    ∀ a, InArea p k a → ¬InArea 0x1000 5 a := by
  intro a ha hin
  obtain ⟨i, hi, rfl⟩ := ha.offset
  unfold InArea at hin
  rw [BitVec.toNat_sub, BitVec.toNat_add, BitVec.toNat_ofNat, show (0x1000 : Addr).toNat = 0x1000 from rfl] at hin
  omega

theorem formatMemory_supplies : Supplies formatMemory 0x1000 5 0x3000 (pieces [37, 100, 37, 115])
    [⟨-5, []⟩, ⟨0x4000, [97, 98]⟩] := by
  have hfirst : AtApart formatMemory 0x1000 5 0x3004 (wordBytes (-5)) :=
    ⟨⟨by decide, by decide, by decide, by decide, trivial⟩, formatMemory_apart (by decide) (by decide)⟩
  have hsecond : AtApart formatMemory 0x1000 5 0x3008 (wordBytes 0x4000) :=
    ⟨⟨by decide, by decide, by decide, by decide, trivial⟩, formatMemory_apart (by decide) (by decide)⟩
  have hstring : AtApart formatMemory 0x1000 5 0x4000 ([97, 98] ++ [0]) :=
    ⟨⟨by decide, by decide, by decide, trivial⟩, formatMemory_apart (by decide) (by decide)⟩
  exact ⟨hfirst, fun h => absurd h (by decide), hsecond, fun _ => ⟨by decide, hstring, by decide⟩, trivial⟩

theorem vsprintf_memory :
    vsprintf 0x1000 0x2000 0x3000 formatMemory =
        .ok (BitVec.ofNat 32 4, put formatMemory 0x1000 ([45, 53, 97, 98] ++ [0])) ∧ 4 < 2 ^ 32 ∧
      vsprintfLoop (2 ^ 32) { m := formatMemory, buf := 0x1000, format := 0x2000, ap := 0x3000 } =
        .ok { m := put formatMemory 0x1000 [45, 53, 97, 98], buf := 0x1000 + BitVec.ofNat 32 4,
              format := 0x2000 + BitVec.ofNat 32 4, ap := 0x3000 + BitVec.ofNat 32 (4 * 2) } := by
  have hformat : AtApart formatMemory 0x1000 5 0x2000 ([37, 100, 37, 115] ++ [0]) :=
    ⟨⟨by decide, by decide, by decide, by decide, by decide, trivial⟩, formatMemory_apart (by decide) (by decide)⟩
  have hfive : canonical 10 5 = [53] := canonical_lt (by decide)
  have htext : render (pieces [37, 100, 37, 115]) [⟨-5, []⟩, ⟨0x4000, [97, 98]⟩] = [45, 53, 97, 98] := by
    change chr '-' :: canonical 10 5 ++ [97, 98] = _
    rw [hfive]
    rfl
  exact vsprintf_eq (by decide) formatMemory_room hformat (by decide) formatMemory_supplies htext rfl

end HoloOS
