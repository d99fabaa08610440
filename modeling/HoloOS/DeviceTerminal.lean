import HoloOS.DeviceConsole

/-! The terminal that the console stands for: rows of 80 cells without end, of which the last 25 are shown.
`Agrees` ties a screen to it, and every text that `puts` prints keeps the two together. -/

namespace HoloOS

open Function

abbrev Row : Type := Fin 80 → BitVec 8

def blankRow : Row := fun _ => 0

/-- The rows written so far, and the cursor in one of them. -/
structure Terminal where
  rows : List Row
  row : Nat
  col : Fin 80
  inside : row < rows.length

namespace Terminal

def start : Terminal := ⟨[blankRow], 0, 0, by decide⟩

/-- The start of the next row, a blank one when there is none. -/
def nextRow (t : Terminal) : Terminal :=
  if h : t.row + 1 < t.rows.length then { rows := t.rows, row := t.row + 1, col := 0, inside := h }
  else
    { rows := t.rows ++ [blankRow]
      row := t.row + 1
      col := 0
      inside := by
        rw [List.length_append, List.length_singleton]
        exact Nat.add_lt_add_right t.inside 1 }

/-- The cursor cell takes the character. -/
def write (t : Terminal) (ch : BitVec 8) : Terminal :=
  { t with
    rows := t.rows.modify t.row fun row => update row t.col ch
    inside := by
      rw [List.length_modify]
      exact t.inside }

/-- One cell back, from column 0 to column 79 of the row above. -/
def stepBack (t : Terminal) : Terminal :=
  if t.col.val = 0 then
    { t with row := t.row - 1, col := 79, inside := Nat.lt_of_le_of_lt (Nat.sub_le _ _) t.inside }
  else { t with col := ⟨t.col.val - 1, Nat.lt_of_le_of_lt (Nat.sub_le _ _) t.col.isLt⟩ }

def forward (t : Terminal) : Terminal :=
  if h : t.col.val + 1 < 80 then { t with col := ⟨t.col.val + 1, h⟩ } else t.nextRow

def putchar (t : Terminal) (ch : BitVec 8) : Terminal :=
  if ch = 0x0a ∨ ch = 0x0d then t.nextRow
  else if ch = 0x08 then t.stepBack.write 0
  else (t.write ch).forward

/-- The first row that is shown. -/
def top (t : Terminal) : Nat := t.rows.length - 25

/-- A cell of the screen; below the last row it is blank. -/
def shown (t : Terminal) (i : Nat) : BitVec 8 :=
  ((t.rows[t.top + i / 80]?).map fun row => row ⟨i % 80, Nat.mod_lt _ (by decide)⟩).getD 0

/-- The cursor on the screen. -/
def position (t : Terminal) : Nat := 80 * (t.row - t.top) + t.col.val

/-- No backspace comes while the cursor is at position 0. -/
def Spares : Terminal → List (BitVec 8) → Prop
  | _, [] => True
  | t, ch :: text => ¬(ch = 0x08 ∧ t.position = 0) ∧ (t.putchar ch).Spares text

/-- The cells of all rows one after another. -/
def cellAt (rows : List Row) (k : Nat) : BitVec 8 :=
  ((rows[k / 80]?).map fun row => row ⟨k % 80, Nat.mod_lt _ (by decide)⟩).getD 0

variable {t : Terminal}

theorem shown_eq (t : Terminal) (i : Nat) : t.shown i = cellAt t.rows (80 * t.top + i) := by
  have hdiv : (80 * t.top + i) / 80 = t.top + i / 80 := by omega
  have hmod : (80 * t.top + i) % 80 = i % 80 := by omega
  simp only [shown, cellAt, hdiv, hmod]

/-- A blank row below the others shows no difference. -/
theorem cellAt_append_blank (rows : List Row) (k : Nat) : cellAt (rows ++ [blankRow]) k = cellAt rows k := by
  unfold cellAt
  by_cases hlt : k / 80 < rows.length
  · rw [List.getElem?_append_left hlt]
  · rw [List.getElem?_append_right (by omega), List.getElem?_eq_none (Nat.not_lt.1 hlt)]
    by_cases he : k / 80 - rows.length = 0
    · rw [he]
      rfl
    · rw [List.getElem?_eq_none (by simp; omega)]

theorem cellAt_modify (rows : List Row) (r : Nat) (col : Fin 80) (ch : BitVec 8) (k : Nat) (hr : r < rows.length) :
    cellAt (rows.modify r fun row => update row col ch) k =
      if k = 80 * r + col.val then ch else cellAt rows k := by
  unfold cellAt
  rw [List.getElem?_modify]
  by_cases hrow : r = k / 80
  · rw [← hrow, List.getElem?_eq_getElem hr]
    by_cases he : k = 80 * r + col.val
    · have hcol : (⟨k % 80, Nat.mod_lt _ (by decide)⟩ : Fin 80) = col := Fin.ext (by dsimp only; omega)
      rw [if_pos he]
      simp [hcol]
    · have hcol : (⟨k % 80, Nat.mod_lt _ (by decide)⟩ : Fin 80) ≠ col := by
        intro heq
        have hval := congrArg Fin.val heq
        dsimp only at hval
        omega
      rw [if_neg he]
      simp [update_of_ne hcol]
  · have hne : k ≠ 80 * r + col.val := by
      have hlt := col.isLt
      omega
    rw [if_neg hne]
    simp [hrow]

theorem cellAt_nextRow (t : Terminal) (k : Nat) : cellAt t.nextRow.rows k = cellAt t.rows k := by
  unfold nextRow
  split
  · rfl
  · exact cellAt_append_blank t.rows k

theorem nextRow_row (t : Terminal) : t.nextRow.row = t.row + 1 := by
  unfold nextRow
  split <;> rfl

theorem nextRow_col (t : Terminal) : t.nextRow.col = 0 := by
  unfold nextRow
  split <;> rfl

/-- A row is added below the last one only. -/
theorem nextRow_length (t : Terminal) : t.nextRow.rows.length = max t.rows.length (t.row + 2) := by
  have hinside := t.inside
  unfold nextRow
  split
  · dsimp only
    omega
  · rw [List.length_append, List.length_singleton]
    omega

end Terminal

/-- The screen is what the terminal shows, and the cursor is in a row that is shown. -/
structure Agrees (c : Screen) (t : Terminal) : Prop where
  cells : ∀ i < 2000, c.cells i = Terminal.cellAt t.rows (80 * t.top + i)
  visible : t.top ≤ t.row
  pos : c.pos + 80 * t.top = 80 * t.row + t.col.val

variable {c : Screen} {t : Terminal}

theorem Agrees.position (h : Agrees c t) : c.pos = t.position := by
  have hpos := h.pos
  have hvisible := h.visible
  unfold Terminal.position
  omega

/-- To the start of the next row, on a screen with the cells of the terminal. -/
theorem Agrees.nextRow (h : Agrees c t) {pos : Nat} (hpos : pos + 80 * t.top = 80 * (t.row + 1)) :
    Agrees (c.moveTo pos) t.nextRow := by
  have hinside := t.inside
  have hvisible := h.visible
  have hlength := t.nextRow_length
  have htop : t.top = t.rows.length - 25 := rfl
  have htop' : t.nextRow.top = t.nextRow.rows.length - 25 := rfl
  have hrow := t.nextRow_row
  have hcol : t.nextRow.col.val = 0 := congrArg Fin.val t.nextRow_col
  unfold Screen.moveTo
  by_cases hlt : pos < 2000
  · have hsame : t.nextRow.top = t.top := by omega
    rw [if_pos hlt]
    refine ⟨fun i hi => ?_, by omega, ?_⟩
    · rw [hsame, t.cellAt_nextRow]
      exact h.cells i hi
    · rw [hsame, hrow, hcol]
      exact hpos
  · have hnext : t.nextRow.top = t.top + 1 := by omega
    rw [if_neg hlt]
    refine ⟨fun i hi => ?_, by omega, ?_⟩
    · rw [hnext, t.cellAt_nextRow, Screen.scroll]
      dsimp only
      by_cases hlast : i < 1920
      · rw [if_pos hlast, h.cells (i + 80) (by omega)]
        congr 1
        omega
      · rw [if_neg hlast, Terminal.cellAt, List.getElem?_eq_none (by omega)]
        rfl
    · rw [hnext, hrow, hcol, Screen.scroll]
      dsimp only
      omega

theorem Agrees.newline (h : Agrees c t) : Agrees c.newline t.nextRow := by
  have hpos := h.pos
  have hvisible := h.visible
  have hcol := t.col.isLt
  exact h.nextRow (by omega)

theorem Agrees.write (h : Agrees c t) (ch : BitVec 8) :
    Agrees { c with cells := update c.cells c.pos ch } (t.write ch) := by
  have hpos := h.pos
  have htop : (t.write ch).top = t.top := by
    rw [Terminal.top, Terminal.write, List.length_modify]
    rfl
  refine ⟨fun i hi => ?_, by rw [htop]; exact h.visible, by rw [htop]; exact hpos⟩
  rw [htop, Terminal.write]
  dsimp only
  rw [Terminal.cellAt_modify _ _ _ _ _ t.inside]
  by_cases he : i = c.pos
  · rw [he, update_self, if_pos (by omega)]
  · rw [update_of_ne he, if_neg (by omega)]
    exact h.cells i hi

theorem Agrees.stepBack (h : Agrees c t) (hpos : c.pos ≠ 0) :
    Agrees { c with pos := c.pos - 1 } t.stepBack := by
  have hat := h.pos
  have hvisible := h.visible
  have hcol := t.col.isLt
  unfold Terminal.stepBack
  split
  next hzero =>
    refine ⟨h.cells, ?_, ?_⟩
    · change t.top ≤ t.row - 1
      omega
    · change c.pos - 1 + 80 * t.top = 80 * (t.row - 1) + 79
      omega
  next hzero =>
    refine ⟨h.cells, hvisible, ?_⟩
    change c.pos - 1 + 80 * t.top = 80 * t.row + (t.col.val - 1)
    omega

theorem Agrees.back (h : Agrees c t) (hpos : c.pos ≠ 0) : Agrees c.back (t.stepBack.write 0) :=
  (h.stepBack hpos).write 0

/-- One cell on, to the next row after column 79. -/
theorem Agrees.forward (h : Agrees c t) : Agrees (c.moveTo (c.pos + 1)) t.forward := by
  have hpos := h.pos
  have hvisible := h.visible
  have hinside := t.inside
  have hcol := t.col.isLt
  have htop : t.top = t.rows.length - 25 := rfl
  unfold Terminal.forward
  split
  next hlt =>
    rw [Screen.moveTo, if_pos (by omega)]
    refine ⟨h.cells, hvisible, ?_⟩
    change c.pos + 1 + 80 * t.top = 80 * t.row + (t.col.val + 1)
    omega
  next hlt => exact h.nextRow (by omega)

theorem Agrees.fill (h : Agrees c t) (ch : BitVec 8) : Agrees (c.fill ch) (t.write ch).forward :=
  (h.write ch).forward

theorem Agrees.putchar (h : Agrees c t) (ch : BitVec 8)
    (hspared : ¬(ch = 0x08 ∧ c.pos = 0)) : Agrees (c.putchar ch) (t.putchar ch) := by
  rw [Screen.putchar, Terminal.putchar]
  by_cases hfeed : ch = 0x0a ∨ ch = 0x0d
  · rw [if_pos hfeed, if_pos hfeed]
    exact h.newline
  · rw [if_neg hfeed, if_neg hfeed]
    by_cases hback : ch = 0x08
    · rw [if_pos hback, if_pos hback]
      exact h.back fun hpos => hspared ⟨hback, hpos⟩
    · rw [if_neg hback, if_neg hback]
      exact h.fill ch

theorem agrees_start : Agrees ⟨fun _ => 0, 0⟩ Terminal.start := by
  refine ⟨fun i hi => ?_, Nat.le_refl _, rfl⟩
  exact (Terminal.cellAt_append_blank [] (80 * Terminal.start.top + i)).symm

/-- A console, a screen and a terminal that agree still do after a text. -/
theorem puts_agrees {s : Console} (text : List (BitVec 8)) (hshows : Shows s c) (hagrees : Agrees c t)
    (hnul : ∀ ch ∈ text, ch ≠ 0) (hspares : t.Spares text) :
    ∃ s' c', puts text s = .ok s' ∧ Shows s' c' ∧ Agrees c' (text.foldl Terminal.putchar t) := by
  induction text generalizing s c t with
  | nil => exact ⟨s, c, rfl, hshows, hagrees⟩
  | cons ch text ih =>
      have hspared : ¬(ch = 0x08 ∧ c.pos = 0) := by
        rw [hagrees.position]
        exact hspares.1
      obtain ⟨s', hs', hshows'⟩ := hshows.putchar ch hspared
      have hagrees' := hagrees.putchar ch hspared
      obtain ⟨s'', c'', hs'', hfinal⟩ :=
        ih hshows' hagrees' (fun b hb => hnul b (List.mem_cons_of_mem _ hb)) hspares.2
      refine ⟨s'', c'', ?_, hfinal⟩
      rw [puts, if_neg (hnul ch List.mem_cons_self), hs']
      exact hs''

/-- What `puts` prints after `clearScreen` is what the terminal shows. -/
theorem puts_terminal (s : Console) (text : List (BitVec 8)) (hnul : ∀ ch ∈ text, ch ≠ 0)
    (hspares : Terminal.start.Spares text) :
    ∃ s', puts text (clearScreen s) = .ok s' ∧
      (∀ i < 2000, s'.vram (2 * i) = (text.foldl Terminal.putchar Terminal.start).shown i) ∧
      s'.cursor.toNat = (text.foldl Terminal.putchar Terminal.start).position := by
  obtain ⟨s', c, hs', hshows, hagrees⟩ := puts_agrees text (shows_clearScreen s) agrees_start hnul hspares
  refine ⟨s', hs', fun i hi => ?_, hshows.cursor.trans hagrees.position⟩
  rw [hshows.drawn.char i hi, hagrees.cells i hi, Terminal.shown_eq]

/-- Two rows, and a character that is taken back. -/
theorem puts_terminal_two_rows :
    ∃ s', puts [0x61, 0x62, 0x08, 0x0a, 0x63] (clearScreen ⟨fun _ => 0x20, 0, 0, []⟩) = .ok s' ∧
      (∀ i < 2000, s'.vram (2 * i) =
        ([0x61, 0x62, 0x08, 0x0a, 0x63].foldl Terminal.putchar Terminal.start).shown i) ∧
      s'.cursor.toNat = ([0x61, 0x62, 0x08, 0x0a, 0x63].foldl Terminal.putchar Terminal.start).position :=
  puts_terminal _ _ (by decide) ⟨by decide, by decide, by decide, by decide, by decide, trivial⟩

end HoloOS
