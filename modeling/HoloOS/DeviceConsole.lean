import HoloOS.BasePaging
import Mathlib.Tactic.Set

/-! The screen functions of `lib/kernel/print.S` on the text buffer and the cursor registers. Registers
have 16 bits; an access through `gs` beyond the limit of the video segment faults. `Shows` ties the
buffer to a screen of 25 rows, and `putchar` has one lemma for each of its paths. -/

namespace HoloOS

open Function Paging

/-- The memory from 0xc00b8000 on, the two cursor registers of the graphics card, and the offsets that
`putchar` has written to. -/
structure Console where
  vram : Mem
  cursorHigh : BitVec 8
  cursorLow : BitVec 8
  written : List Nat

/-- A general protection fault at an offset in the video segment. -/
inductive GsFault where
  | gs (offset : Nat)
  deriving DecidableEq

/-- The limit in `VIDEO_DESC`: 4 pages. -/
def gsLimit : Nat := 0x3fff

def charAttrDefault : BitVec 8 := 0x0f

def gsStore (offset : Nat) (val : BitVec 8) (s : Console) : Except GsFault Console :=
  if offset ≤ gsLimit then
    .ok { s with vram := update s.vram offset val, written := offset :: s.written }
  else .error (.gs offset)

def Console.cursor (s : Console) : BitVec 16 := s.cursorHigh ++ s.cursorLow

def setCursor (bx : BitVec 16) (s : Console) : Console :=
  { s with cursorHigh := bx.extractLsb' 8 8, cursorLow := bx.extractLsb' 0 8 }

/-- `rep movsd` between offsets of the buffer. -/
def movsd : Nat → Nat → Nat → Console → Console
  | 0, _, _, s => s
  | ecx + 1, edi, esi, s =>
      movsd ecx (edi + 4) (esi + 4)
        { s with
          vram := write s.vram edi (read s.vram esi)
          written := edi :: (edi + 1) :: (edi + 2) :: (edi + 3) :: s.written }

def clearBottomLine : Nat → Nat → Console → Except GsFault Console
  | 0, _, s => .ok s
  | ecx + 1, eax, s => do
      let s ← gsStore eax 0 s
      clearBottomLine ecx (eax + 2) s

def scrollUp (s : Console) : Except GsFault Console :=
  clearBottomLine 80 3840 (movsd 960 0 0xa0 s)

/-- The path of CR and LF from the division on. -/
def lineFeed (bx : BitVec 16) (s : Console) : Except GsFault Console :=
  let dx := bx % 80
  let bx := bx - dx + 80
  if bx.slt 2000 then .ok (setCursor bx s)
  else do
    let s ← scrollUp s
    return setCursor 1920 s

def isBackspace (bx : BitVec 16) (s : Console) : Except GsFault Console := do
  let bx := (bx - 1) <<< 1
  let s ← gsStore bx.toNat 0 s
  let s ← gsStore (bx + 1).toNat charAttrDefault s
  return setCursor (bx >>> 1) s

/-- After the last cell of the screen this falls through into the path of CR and LF. -/
def putIt (cl : BitVec 8) (bx : BitVec 16) (s : Console) : Except GsFault Console := do
  let bx := bx <<< 1
  let s ← gsStore bx.toNat cl s
  let s ← gsStore (bx + 1).toNat charAttrDefault s
  let bx := (bx >>> 1) + 1
  if bx.slt 2000 then return setCursor bx s else lineFeed bx s

def putchar (ch : BitVec 8) (s : Console) : Except GsFault Console :=
  if ch = 0x0a ∨ ch = 0x0d then lineFeed s.cursor s
  else if ch = 0x08 then isBackspace s.cursor s
  else putIt ch s.cursor s

/-- `puts` on the bytes before the terminator. -/
def puts : List (BitVec 8) → Console → Except GsFault Console
  | [], s => .ok s
  | cl :: str, s =>
      if cl = 0 then .ok s
      else do
        let s ← putchar cl s
        puts str s

def clearScreenLoop : Nat → Nat → Mem → Mem
  | 0, _, m => m
  | ecx + 1, esi, m => clearScreenLoop ecx (esi + 2) (update (update m esi 0) (esi + 1) charAttrDefault)

/-- `written` is about `putchar`, so it starts empty. -/
def clearScreen (s : Console) : Console :=
  setCursor 0 { s with vram := clearScreenLoop 2000 0 s.vram, written := [] }

/-- 2000 characters and a position. -/
structure Screen where
  cells : Nat → BitVec 8
  pos : Nat

namespace Screen

def scroll (c : Screen) : Screen :=
  { cells := fun i => if i < 1920 then c.cells (i + 80) else 0
    pos := 1920 }

/-- The row after the last one is a new one. -/
def moveTo (c : Screen) (pos : Nat) : Screen :=
  if pos < 2000 then { c with pos } else c.scroll

def newline (c : Screen) : Screen := c.moveTo (c.pos / 80 * 80 + 80)

def back (c : Screen) : Screen :=
  { cells := update c.cells (c.pos - 1) 0
    pos := c.pos - 1 }

def fill (c : Screen) (ch : BitVec 8) : Screen :=
  { c with cells := update c.cells c.pos ch }.moveTo (c.pos + 1)

def putchar (c : Screen) (ch : BitVec 8) : Screen :=
  if ch = 0x0a ∨ ch = 0x0d then c.newline
  else if ch = 0x08 then c.back
  else c.fill ch

end Screen

/-- The characters of the buffer, and that `putchar` has written nowhere else. -/
structure Drawn (s : Console) (cells : Nat → BitVec 8) : Prop where
  char : ∀ i < 2000, s.vram (2 * i) = cells i
  inside : ∀ a ∈ s.written, a < 4000

/-- The buffer and the cursor show the screen. -/
structure Shows (s : Console) (c : Screen) : Prop where
  drawn : Drawn s c.cells
  cursor : s.cursor.toNat = c.pos
  onScreen : c.pos < 2000

variable {s : Console} {c : Screen} {cells : Nat → BitVec 8} {bx : BitVec 16}

@[simp] theorem cursor_setCursor (bx : BitVec 16) (s : Console) : (setCursor bx s).cursor = bx := by
  rw [Console.cursor, setCursor]
  apply BitVec.eq_of_getLsbD_eq
  intro i hi
  rw [BitVec.getLsbD_append, BitVec.getLsbD_extractLsb', BitVec.getLsbD_extractLsb']
  by_cases hlt : i < 8
  · simp [hlt]
  · simp [hlt, show i - 8 < 8 by omega, show 8 + (i - 8) = i by omega]

theorem Drawn.setCursor (h : Drawn s cells) {pos : Nat} (hbx : bx.toNat = pos) (hpos : pos < 2000) :
    Shows (setCursor bx s) ⟨cells, pos⟩ :=
  ⟨⟨h.char, h.inside⟩, by rw [cursor_setCursor, hbx], hpos⟩

/-- The signed comparison of `jl`, for the values that the cursor takes. -/
theorem slt_2000 (h : bx.toNat ≤ 2080) : bx.slt 2000 = decide (bx.toNat < 2000) := by
  have hint : bx.toInt = bx.toNat := by
    rw [BitVec.toInt_eq_toNat_of_lt]
    omega
  rw [BitVec.slt, hint, show (2000 : BitVec 16).toInt = ((2000 : Nat) : Int) from rfl]
  congr 1
  exact propext Int.ofNat_lt

theorem shl_toNat (h : bx.toNat < 2 ^ 15) : (bx <<< 1).toNat = 2 * bx.toNat := by
  rw [BitVec.toNat_shiftLeft, Nat.shiftLeft_eq]
  omega

theorem shl_succ_toNat (h : bx.toNat < 2 ^ 15) : (bx <<< 1 + 1).toNat = 2 * bx.toNat + 1 := by
  rw [BitVec.toNat_add, shl_toNat h, show (1 : BitVec 16).toNat = 1 from rfl]
  omega

theorem shl_shr (h : bx.toNat < 2 ^ 15) : bx <<< 1 >>> 1 = bx := by
  apply BitVec.eq_of_toNat_eq
  rw [BitVec.toNat_ushiftRight, shl_toNat h, Nat.shiftRight_eq_div_pow]
  omega

/-- A character and its attribute. -/
theorem Drawn.cell (h : Drawn s cells) (bx : BitVec 16) (hbx : bx.toNat < 2000) (ch : BitVec 8) :
    ∃ s', (gsStore (bx <<< 1).toNat ch s >>= fun s => gsStore (bx <<< 1 + 1).toNat charAttrDefault s) = .ok s' ∧
      Drawn s' (update cells bx.toNat ch) := by
  rw [shl_toNat (by omega), shl_succ_toNat (by omega)]
  refine ⟨{ s with
    vram := update (update s.vram (2 * bx.toNat) ch) (2 * bx.toNat + 1) charAttrDefault
    written := (2 * bx.toNat + 1) :: (2 * bx.toNat) :: s.written }, ?_, ?_, ?_⟩
  · rw [gsStore, if_pos (by unfold gsLimit; omega)]
    exact if_pos (by unfold gsLimit; omega)
  · intro i hi
    dsimp only
    rw [update_of_ne (by omega)]
    by_cases he : i = bx.toNat
    · rw [he, update_self, update_self]
    · rw [update_of_ne (by omega), update_of_ne he]
      exact h.char i hi
  · intro a ha
    rcases List.mem_cons.1 ha with he | ha
    · omega
    · rcases List.mem_cons.1 ha with he | ha
      · omega
      · exact h.inside a ha

/-- Moving words down, the source above the destination. -/
theorem movsd_vram (n edi esi : Nat) (s : Console) (h : edi + 4 ≤ esi) (b : Nat) :
    (movsd n edi esi s).vram b = if edi ≤ b ∧ b < edi + 4 * n then s.vram (b + (esi - edi)) else s.vram b := by
  induction n generalizing edi esi s with
  | zero => rw [movsd, if_neg (by omega)]
  | succ n ih =>
      rw [movsd, ih _ _ _ (by omega), show esi + 4 - (edi + 4) = esi - edi by omega]
      dsimp only
      by_cases hfirst : edi ≤ b ∧ b < edi + 4
      · rw [if_neg (by omega), if_pos (by omega), write, if_pos hfirst, read_byte _ _ (by omega)]
        congr 1
        omega
      · have hout : ∀ c, ¬(edi ≤ c ∧ c < edi + 4) → write s.vram edi (read s.vram esi) c = s.vram c :=
          fun c hc => if_neg hc
        by_cases hin : edi + 4 ≤ b ∧ b < edi + 4 + 4 * n
        · rw [if_pos hin, if_pos (by omega), hout _ (by omega)]
        · rw [if_neg hin, if_neg (by omega), hout _ hfirst]

theorem movsd_written (n edi esi : Nat) (s : Console) {a : Nat}
    (ha : a ∈ (movsd n edi esi s).written) : a ∈ s.written ∨ a < edi + 4 * n := by
  induction n generalizing edi esi s with
  | zero => exact Or.inl ha
  | succ n ih =>
      rcases ih _ _ _ ha with hmem | hlt
      · simp only [List.mem_cons] at hmem
        rcases hmem with he | he | he | he | hmem
        · omega
        · omega
        · omega
        · omega
        · exact Or.inl hmem
      · omega

theorem clearBottomLine_ok (n eax : Nat) (s : Console) (h : eax + 2 * n ≤ 4000) :
    ∃ s', clearBottomLine n eax s = .ok s' ∧
      (∀ b, s'.vram b = if eax ≤ b ∧ b < eax + 2 * n ∧ (b - eax) % 2 = 0 then 0 else s.vram b) ∧
      ∀ a ∈ s'.written, a ∈ s.written ∨ a < 4000 := by
  induction n generalizing eax s with
  | zero => exact ⟨s, rfl, fun b => by rw [if_neg (by omega)], fun a ha => Or.inl ha⟩
  | succ n ih =>
      obtain ⟨s', hs', hvram, hwritten⟩ :=
        ih (eax + 2) ⟨update s.vram eax 0, s.cursorHigh, s.cursorLow, eax :: s.written⟩ (by omega)
      refine ⟨s', ?_, fun b => ?_, fun a ha => ?_⟩
      · rw [clearBottomLine, gsStore, if_pos (by unfold gsLimit; omega)]
        exact hs'
      · rw [hvram]
        dsimp only
        by_cases he : b = eax
        · rw [if_neg (by omega), if_pos (by omega), he, update_self]
        · rw [update_of_ne he]
          congr 1
          apply propext
          omega
      · rcases hwritten a ha with hmem | hlt
        · rcases List.mem_cons.1 hmem with he | hmem
          · exact Or.inr (by omega)
          · exact Or.inl hmem
        · exact Or.inr hlt

theorem Drawn.scrollUp (h : Drawn s cells) : ∃ s', scrollUp s = .ok s' ∧
    Drawn s' fun i => if i < 1920 then cells (i + 80) else 0 := by
  obtain ⟨s', hs', hvram, hwritten⟩ := clearBottomLine_ok 80 3840 (movsd 960 0 0xa0 s) (by omega)
  refine ⟨s', hs', fun i hi => ?_, fun a ha => ?_⟩
  · rw [hvram, movsd_vram 960 0 0xa0 s (by omega)]
    by_cases hlast : i < 1920
    · rw [if_neg (by omega), if_pos (by omega), if_pos hlast, ← h.char (i + 80) (by omega),
        show 2 * i + (0xa0 - 0) = 2 * (i + 80) by omega]
    · rw [if_pos (by omega), if_neg hlast]
  · rcases hwritten a ha with hmem | hlt
    · rcases movsd_written 960 0 0xa0 s hmem with hmem | hlt
      · exact h.inside a hmem
      · omega
    · exact hlt

theorem row_toNat (h : bx.toNat ≤ 2000) : (bx - bx % 80 + 80).toNat = bx.toNat / 80 * 80 + 80 := by
  have hmod : (bx % 80).toNat = bx.toNat % 80 := BitVec.toNat_umod
  have hle : bx % 80 ≤ bx := by
    rw [BitVec.le_def, hmod]
    exact Nat.mod_le _ _
  rw [BitVec.toNat_add, BitVec.toNat_sub_of_le hle, hmod, show (80 : BitVec 16).toNat = 80 from rfl]
  omega

/-- The path of CR and LF, also when it is entered with 2000 after the last cell. -/
theorem Drawn.lineFeed (h : Drawn s cells) (bx : BitVec 16) (pos : Nat) (hbx : bx.toNat ≤ 2000) :
    ∃ s', lineFeed bx s = .ok s' ∧ Shows s' ((Screen.mk cells pos).moveTo (bx.toNat / 80 * 80 + 80)) := by
  have hrow := row_toNat hbx
  rw [HoloOS.lineFeed, Screen.moveTo]
  dsimp only
  rw [slt_2000 (by omega), hrow]
  by_cases hlt : bx.toNat / 80 * 80 + 80 < 2000
  · rw [decide_eq_true hlt, if_pos rfl, if_pos hlt]
    exact ⟨_, rfl, h.setCursor hrow hlt⟩
  · rw [decide_eq_false hlt, if_neg (by decide), if_neg hlt]
    obtain ⟨s', hs', hdrawn⟩ := h.scrollUp
    rw [hs']
    exact ⟨_, rfl, hdrawn.setCursor rfl (by omega)⟩

theorem Shows.newline (h : Shows s c) : ∃ s', lineFeed s.cursor s = .ok s' ∧ Shows s' c.newline := by
  have hpos := h.onScreen
  have hfeed := h.drawn.lineFeed s.cursor c.pos (by rw [h.cursor]; omega)
  rw [h.cursor] at hfeed
  exact hfeed

theorem Shows.back (h : Shows s c) (hpos : c.pos ≠ 0) :
    ∃ s', isBackspace s.cursor s = .ok s' ∧ Shows s' c.back := by
  have hlt := h.onScreen
  have hbx : (s.cursor - 1).toNat = c.pos - 1 := by
    rw [BitVec.toNat_sub, h.cursor, show (1 : BitVec 16).toNat = 1 from rfl]
    omega
  obtain ⟨s', hs', hdrawn⟩ := h.drawn.cell (s.cursor - 1) (by omega) 0
  rw [hbx] at hdrawn
  refine ⟨setCursor (s.cursor - 1) s', ?_, hdrawn.setCursor hbx (by omega)⟩
  rw [isBackspace, shl_shr (by omega), ← bind_assoc, hs']
  rfl

theorem Shows.fill (h : Shows s c) (ch : BitVec 8) :
    ∃ s', putIt ch s.cursor s = .ok s' ∧ Shows s' (c.fill ch) := by
  have hlt := h.onScreen
  have hcursor := h.cursor
  obtain ⟨s', hs', hdrawn⟩ := h.drawn.cell s.cursor (by omega) ch
  rw [hcursor] at hdrawn
  have hbx : (s.cursor + 1).toNat = c.pos + 1 := by
    rw [BitVec.toNat_add, hcursor, show (1 : BitVec 16).toNat = 1 from rfl]
    omega
  have hput : putIt ch s.cursor s =
      if (s.cursor + 1).slt 2000 then .ok (setCursor (s.cursor + 1) s') else lineFeed (s.cursor + 1) s' := by
    rw [putIt, shl_shr (by omega), ← bind_assoc, hs']
    rfl
  rw [hput, slt_2000 (by omega), hbx, Screen.fill, Screen.moveTo]
  by_cases hnext : c.pos + 1 < 2000
  · rw [decide_eq_true hnext, if_pos rfl, if_pos hnext]
    exact ⟨_, rfl, hdrawn.setCursor hbx hnext⟩
  · rw [decide_eq_false hnext, if_neg (by decide), if_neg hnext]
    obtain ⟨s'', hs'', hshows⟩ := hdrawn.lineFeed (s.cursor + 1) c.pos (by omega)
    rw [Screen.moveTo, if_neg (by omega)] at hshows
    exact ⟨s'', hs'', hshows⟩

/-- `putchar` does on the buffer what it should do on the screen. -/
theorem Shows.putchar (h : Shows s c) (ch : BitVec 8) (hspared : ¬(ch = 0x08 ∧ c.pos = 0)) :
    ∃ s', putchar ch s = .ok s' ∧ Shows s' (c.putchar ch) := by
  rw [HoloOS.putchar, Screen.putchar]
  by_cases hfeed : ch = 0x0a ∨ ch = 0x0d
  · rw [if_pos hfeed, if_pos hfeed]
    exact h.newline
  · rw [if_neg hfeed, if_neg hfeed]
    by_cases hback : ch = 0x08
    · rw [if_pos hback, if_pos hback]
      exact h.back fun hpos => hspared ⟨hback, hpos⟩
    · rw [if_neg hback, if_neg hback]
      exact h.fill ch

theorem clearScreenLoop_eq (n : Nat) {esi : Nat} (m : Mem) (b : Nat) : clearScreenLoop n esi m b =
    if esi ≤ b ∧ b < esi + 2 * n then if (b - esi) % 2 = 0 then 0 else charAttrDefault else m b := by
  induction n generalizing esi m with
  | zero => rw [clearScreenLoop, if_neg (by omega)]
  | succ n ih =>
      rw [clearScreenLoop, ih]
      by_cases hnext : esi + 2 ≤ b ∧ b < esi + 2 + 2 * n
      · rw [if_pos hnext, if_pos (show esi ≤ b ∧ b < esi + 2 * (n + 1) by omega),
          show (b - (esi + 2)) % 2 = (b - esi) % 2 by omega]
      · rw [if_neg hnext]
        by_cases hattr : b = esi + 1
        · rw [hattr, update_self, if_pos (by omega), if_neg (by omega)]
        · rw [update_of_ne hattr]
          by_cases hchar : b = esi
          · rw [hchar, update_self, if_pos (by omega), if_pos (by omega)]
          · rw [update_of_ne hchar, if_neg (by omega)]

theorem shows_clearScreen (s : Console) : Shows (clearScreen s) ⟨fun _ => 0, 0⟩ := by
  refine Drawn.setCursor ⟨fun i hi => ?_, fun a ha => absurd ha List.not_mem_nil⟩ rfl (by omega)
  dsimp only
  rw [clearScreenLoop_eq, if_pos (by omega), if_pos (by omega)]

/-- After every character the cursor is on the screen, and `putchar` has written to the text buffer only. -/
def StaysOnScreen : List (BitVec 8) → Console → Prop
  | [], _ => True
  | ch :: text, s =>
      ∃ s', putchar ch s = .ok s' ∧ s'.cursor.toNat < 2000 ∧ (∀ a ∈ s'.written, a < 4000) ∧
        StaysOnScreen text s'

/-- No backspace comes while the cursor is at position 0. -/
def SparesOrigin : List (BitVec 8) → Console → Prop
  | [], _ => True
  | ch :: text, s =>
      ¬(ch = 0x08 ∧ s.cursor = 0) ∧ ∀ s', putchar ch s = .ok s' → SparesOrigin text s'

/-- A backspace at position 0 stores at offset 0xfffe. -/
theorem putchar_backspace_origin (h : s.cursor = 0) : putchar 0x08 s = .error (.gs 0xfffe) := by
  rw [putchar, if_neg (by decide), if_pos rfl, isBackspace, h]
  rfl

theorem Shows.stays_iff (h : Shows s c) (text : List (BitVec 8)) :
    StaysOnScreen text s ↔ SparesOrigin text s := by
  induction text generalizing s c with
  | nil => exact Iff.rfl
  | cons ch text ih =>
      rw [StaysOnScreen, SparesOrigin]
      by_cases horigin : ch = 0x08 ∧ s.cursor = 0
      · obtain ⟨rfl, hzero⟩ := horigin
        constructor
        · intro hstays
          obtain ⟨s', hs', -⟩ := hstays
          rw [putchar_backspace_origin hzero] at hs'
          cases hs'
        · intro hspares
          exact absurd ⟨rfl, hzero⟩ hspares.1
      · have hspared : ¬(ch = 0x08 ∧ c.pos = 0) := by
          intro hback
          refine horigin ⟨hback.1, BitVec.eq_of_toNat_eq ?_⟩
          rw [h.cursor, hback.2]
          rfl
        obtain ⟨s', hs', hshows⟩ := h.putchar ch hspared
        have hiff := ih hshows
        rw [hs']
        constructor
        · intro hstays
          obtain ⟨s'', he, -, -, hrest⟩ := hstays
          cases he
          refine ⟨horigin, fun s'' he => ?_⟩
          cases he
          exact hiff.1 hrest
        · intro hspares
          refine ⟨s', rfl, ?_, hshows.drawn.inside, hiff.2 (hspares.2 s' rfl)⟩
          rw [hshows.cursor]
          exact hshows.onScreen

/-- The cursor and the writes stay on the screen exactly in the runs without a backspace at position 0. -/
theorem staysOnScreen_iff (s : Console) (text : List (BitVec 8)) :
    StaysOnScreen text (clearScreen s) ↔ SparesOrigin text (clearScreen s) :=
  (shows_clearScreen s).stays_iff text

/-- A backspace as the first character. -/
theorem backspace_leaves_screen :
    putchar 0x08 (clearScreen ⟨fun _ => 0, 0, 0, []⟩) = .error (.gs 0xfffe) ∧
      ¬StaysOnScreen [0x08] (clearScreen ⟨fun _ => 0, 0, 0, []⟩) := by
  have hfault : putchar 0x08 (clearScreen ⟨fun _ => 0, 0, 0, []⟩) = .error (.gs 0xfffe) :=
    putchar_backspace_origin (cursor_setCursor 0 _)
  refine ⟨hfault, fun hstays => ?_⟩
  obtain ⟨s', hs', -⟩ := hstays
  rw [hfault] at hs'
  cases hs'

end HoloOS
