import HoloOS.BaseMonitor
import HoloOS.ThreadKernel

/-! The character queue of `device/ioqueue.c` as a monitor: its lock makes the critical sections of
`ioqueueGetchar` and `ioqueuePutchar` single steps. The ring loses nothing and keeps the order, and
neither condition forgets a sleeper. -/

namespace HoloOS

open Monitor Function

/-- `BUFSIZE`. -/
def bufSize : Nat := 64

/-- `struct ioqueue` without its lock and its queues; `stored` and `taken` record the characters of
the puts and gets that are done. -/
structure Ioqueue where
  buf : Nat → BitVec 8
  head : Nat
  tail : Nat
  stored : List (BitVec 8)
  taken : List (BitVec 8)

inductive IoqOp where
  | ioqueueGetchar
  | ioqueuePutchar (ch : BitVec 8)
  deriving DecidableEq

inductive IoqCond where
  | notEmpty
  | notFull
  deriving DecidableEq

def ioqueueInit (buf : Nat → BitVec 8) : Ioqueue := ⟨buf, 0, 0, [], []⟩

def nextPos (pos : Nat) : Nat := (pos + 1) % bufSize

def ioqueueFull (ioq : Ioqueue) : Bool := nextPos ioq.tail = ioq.head

def ioqueueEmpty (ioq : Ioqueue) : Bool := ioq.tail = ioq.head

/-- The `while` tests. -/
def ioqWait : IoqOp → Ioqueue → Option IoqCond
  | .ioqueueGetchar, ioq => if ioqueueEmpty ioq then some .notEmpty else none
  | .ioqueuePutchar _, ioq => if ioqueueFull ioq then some .notFull else none

def ioqAct : IoqOp → Ioqueue → Ioqueue
  | .ioqueueGetchar, ioq =>
      { ioq with head := nextPos ioq.head, taken := ioq.taken ++ [ioq.buf ioq.head] }
  | .ioqueuePutchar ch, ioq =>
      { ioq with buf := update ioq.buf ioq.tail ch, tail := nextPos ioq.tail,
                 stored := ioq.stored ++ [ch] }

def ioqSignal : IoqOp → Option IoqCond
  | .ioqueueGetchar => some .notFull
  | .ioqueuePutchar _ => some .notEmpty

def ioqueue : Spec Ioqueue IoqOp IoqCond where
  wait := ioqWait
  act := ioqAct
  signal := ioqSignal
  one_cond := by
    intro op x y c d hc hd
    cases op <;> simp only [ioqWait] at hc hd <;> split at hc <;> split at hd <;> simp_all

namespace Ioqueue

/-- How many characters are stored. -/
def size (ioq : Ioqueue) : Nat := (ioq.tail + bufSize - ioq.head) % bufSize

/-- The characters from head to tail. -/
def contents (ioq : Ioqueue) : List (BitVec 8) :=
  (List.range ioq.size).map fun i => ioq.buf ((ioq.head + i) % bufSize)

/-- The positions are in the ring, and what was stored and not taken is in it, in order. -/
structure Fifo (ioq : Ioqueue) : Prop where
  head_lt : ioq.head < bufSize
  tail_lt : ioq.tail < bufSize
  order : ioq.stored = ioq.taken ++ ioq.contents

end Ioqueue

variable {ioq : Ioqueue}

theorem nextPos_lt (pos : Nat) : nextPos pos < bufSize := Nat.mod_lt _ (by decide)

theorem size_lt (ioq : Ioqueue) : ioq.size < bufSize := Nat.mod_lt _ (by decide)

theorem contents_length (ioq : Ioqueue) : ioq.contents.length = ioq.size := by
  simp [Ioqueue.contents]

theorem size_eq_zero_iff (h : ioq.Fifo) : ioq.size = 0 ↔ ioqueueEmpty ioq = true := by
  have hhead := h.head_lt
  have htail := h.tail_lt
  rw [ioqueueEmpty, decide_eq_true_eq]
  simp only [Ioqueue.size, bufSize] at hhead htail ⊢
  omega

theorem size_eq_full_iff (h : ioq.Fifo) : ioq.size = bufSize - 1 ↔ ioqueueFull ioq = true := by
  have hhead := h.head_lt
  have htail := h.tail_lt
  rw [ioqueueFull, decide_eq_true_eq]
  simp only [Ioqueue.size, nextPos, bufSize] at hhead htail ⊢
  omega

/-- A get shortens the ring at its head. -/
theorem get_size (h : ioq.Fifo) (hne : ioqueueEmpty ioq = false) :
    (ioqAct .ioqueueGetchar ioq).size + 1 = ioq.size := by
  have hhead := h.head_lt
  have htail := h.tail_lt
  rw [ioqueueEmpty, decide_eq_false_iff_not] at hne
  simp only [Ioqueue.size, ioqAct, nextPos, bufSize] at *
  omega

theorem put_size (h : ioq.Fifo) (hne : ioqueueFull ioq = false) (ch : BitVec 8) :
    (ioqAct (.ioqueuePutchar ch) ioq).size = ioq.size + 1 := by
  have hhead := h.head_lt
  have htail := h.tail_lt
  rw [ioqueueFull, decide_eq_false_iff_not] at hne
  simp only [Ioqueue.size, ioqAct, nextPos, bufSize] at *
  omega

theorem get_contents (h : ioq.Fifo) (hne : ioqueueEmpty ioq = false) :
    ioq.contents = ioq.buf ioq.head :: (ioqAct .ioqueueGetchar ioq).contents := by
  have hhead := h.head_lt
  unfold Ioqueue.contents
  rw [← get_size h hne, List.range_succ_eq_map, List.map_cons, List.map_map]
  congr 1
  · rw [Nat.add_zero, Nat.mod_eq_of_lt hhead]
  · apply List.map_congr_left
    intro i _
    have hpos : (ioq.head + (i + 1)) % bufSize = ((ioq.head + 1) % bufSize + i) % bufSize := by
      simp only [bufSize]
      omega
    simp only [comp_apply, ioqAct, nextPos, Nat.succ_eq_add_one, hpos]

/-- A put lengthens the ring at its tail and overwrites nothing. -/
theorem put_contents (h : ioq.Fifo) (hne : ioqueueFull ioq = false) (ch : BitVec 8) :
    (ioqAct (.ioqueuePutchar ch) ioq).contents = ioq.contents ++ [ch] := by
  have hhead := h.head_lt
  have htail := h.tail_lt
  unfold Ioqueue.contents
  rw [put_size h hne, List.range_succ, List.map_append, List.map_singleton]
  have hpos : ∀ i ≤ ioq.size, (ioq.head + i) % bufSize = ioq.tail ↔ i = ioq.size := by
    intro i hi
    simp only [Ioqueue.size, bufSize] at hhead htail hi ⊢
    omega
  congr 1
  · apply List.map_congr_left
    intro i hi
    have hlt : i < ioq.size := List.mem_range.1 hi
    have hout : (ioq.head + i) % bufSize ≠ ioq.tail := fun e =>
      absurd ((hpos i (Nat.le_of_lt hlt)).1 e) (Nat.ne_of_lt hlt)
    exact update_of_ne hout _ _
  · rw [List.singleton_inj]
    change update ioq.buf ioq.tail ch ((ioq.head + ioq.size) % bufSize) = ch
    rw [(hpos _ (Nat.le_refl _)).2 rfl, update_self]

theorem fifo_init (buf : Nat → BitVec 8) : (ioqueueInit buf).Fifo where
  head_lt := Nat.succ_pos 63
  tail_lt := Nat.succ_pos 63
  order := by simp [ioqueueInit, Ioqueue.contents, Ioqueue.size, bufSize]

/-- An operation whose test has passed keeps the order. -/
theorem Ioqueue.Fifo.act (h : ioq.Fifo) {op : IoqOp} (hpass : ioqWait op ioq = none) :
    (ioqAct op ioq).Fifo := by
  cases op with
  | ioqueueGetchar =>
      have hne : ioqueueEmpty ioq = false := by simpa [ioqWait] using hpass
      refine ⟨nextPos_lt _, h.tail_lt, ?_⟩
      calc ioq.stored
          = ioq.taken ++ ioq.contents := h.order
        _ = ioq.taken ++ ioq.buf ioq.head :: (ioqAct .ioqueueGetchar ioq).contents := by
            rw [← get_contents h hne]
        _ = (ioq.taken ++ [ioq.buf ioq.head]) ++ (ioqAct .ioqueueGetchar ioq).contents := by
            rw [List.append_assoc, List.singleton_append]
  | ioqueuePutchar ch =>
      have hne : ioqueueFull ioq = false := by simpa [ioqWait] using hpass
      refine ⟨h.head_lt, nextPos_lt _, ?_⟩
      calc ioq.stored ++ [ch]
          = ioq.taken ++ (ioq.contents ++ [ch]) := by rw [h.order, List.append_assoc]
        _ = ioq.taken ++ (ioqAct (.ioqueuePutchar ch) ioq).contents := by
            rw [put_contents h hne ch]

/-- What holds of the queue and its two conditions. -/
structure IoqInv (s : State Tid Ioqueue IoqOp IoqCond) : Prop where
  fifo : s.shared.Fifo
  chars : Covered Ioqueue.size .notEmpty s
  room : Covered (fun ioq => bufSize - 1 - ioq.size) .notFull s

theorem ioqInv_step {s s' : State Tid Ioqueue IoqOp IoqCond} (hwf : Wf ioqueue s)
    (hstep : Step ioqueue s s') (h : IoqInv s) : IoqInv s' := by
  have hfifo := h.fifo
  have hget : ioqWait .ioqueueGetchar s.shared = none →
      (ioqAct .ioqueueGetchar s.shared).size + 1 = s.shared.size :=
    fun hpass => get_size hfifo (by simpa [ioqWait] using hpass)
  have hput : ∀ ch, ioqWait (.ioqueuePutchar ch) s.shared = none →
      (ioqAct (.ioqueuePutchar ch) s.shared).size = s.shared.size + 1 :=
    fun ch hpass => put_size hfifo (by simpa [ioqWait] using hpass) ch
  have hlt := size_lt s.shared
  constructor
  · rcases hstep.shared with he | ⟨op, hpass, he⟩
    · rw [he]
      exact hfifo
    · rw [he]
      exact hfifo.act hpass
  · refine covered_step hwf hstep ?_ ?_ ?_ h.chars
    · intro op hwait
      cases op with
      | ioqueueGetchar =>
          exact (size_eq_zero_iff hfifo).2 (by simpa [ioqueue, ioqWait] using hwait)
      | ioqueuePutchar ch => simp [ioqueue, ioqWait] at hwait
    · intro op hpass
      cases op with
      | ioqueueGetchar =>
          have := hget hpass
          simp only [ioqueue]
          omega
      | ioqueuePutchar ch => simp [ioqueue, ioqSignal, hput ch hpass]
    · intro op shared hsleep hpass
      cases op with
      | ioqueueGetchar =>
          have := hget hpass
          simp only [ioqueue]
          omega
      | ioqueuePutchar ch => simp [ioqueue, ioqWait] at hsleep
  · refine covered_step hwf hstep ?_ ?_ ?_ h.room
    · intro op hwait
      cases op with
      | ioqueueGetchar => simp [ioqueue, ioqWait] at hwait
      | ioqueuePutchar ch =>
          have hfull := (size_eq_full_iff hfifo).2 (by simpa [ioqueue, ioqWait] using hwait)
          simp [hfull]
    · intro op hpass
      cases op with
      | ioqueueGetchar =>
          have := hget hpass
          simp only [ioqueue, ioqSignal, if_true]
          omega
      | ioqueuePutchar ch =>
          have := hput ch hpass
          simp only [ioqueue]
          omega
    · intro op shared hsleep hpass
      cases op with
      | ioqueueGetchar => simp [ioqueue, ioqWait] at hsleep
      | ioqueuePutchar ch =>
          have := hput ch hpass
          have := size_lt (ioqAct (.ioqueuePutchar ch) s.shared)
          simp only [ioqueue, bufSize] at *
          omega

theorem reachable_ioqInv {buf : Nat → BitVec 8} {s : State Tid Ioqueue IoqOp IoqCond}
    (h : Reachable ioqueue (ioqueueInit buf) s) : IoqInv s := by
  induction h with
  | refl => exact ⟨fifo_init buf, fun hne => absurd rfl hne, fun hne => absurd rfl hne⟩
  | tail hrun hstep ih => exact ioqInv_step (Reachable.wf hrun) hstep ih

/-- Units left over for a sleeper are announced to a thread that has still to test. -/
theorem woken_of_units {units : Ioqueue → Nat} {cond : IoqCond}
    {s : State Tid Ioqueue IoqOp IoqCond} (h : Covered units cond s) (hw : s.waiters cond ≠ [])
    (hpos : 0 < units s.shared) : (s.woken cond).Nonempty :=
  Set.nonempty_of_ncard_ne_zero (Nat.ne_of_gt (Nat.lt_of_lt_of_le hpos (h hw)))

/-- The queue is a bounded first-in-first-out buffer without loss, and a thread sleeps on a condition
that holds only while some signalled thread has not tested again. -/
theorem ioqueue_fifo {buf : Nat → BitVec 8} {s : State Tid Ioqueue IoqOp IoqCond}
    (h : Reachable ioqueue (ioqueueInit buf) s) :
    s.shared.stored = s.shared.taken ++ s.shared.contents ∧
    s.shared.head < 64 ∧ s.shared.tail < 64 ∧ s.shared.contents.length ≤ 63 ∧
    (s.waiters .notEmpty ≠ [] → ioqueueEmpty s.shared = false → (s.woken .notEmpty).Nonempty) ∧
    (s.waiters .notFull ≠ [] → ioqueueFull s.shared = false → (s.woken .notFull).Nonempty) := by
  obtain ⟨hfifo, hchars, hroom⟩ := reachable_ioqInv h
  have hlt := size_lt s.shared
  refine ⟨hfifo.order, hfifo.head_lt, hfifo.tail_lt, ?_, ?_, ?_⟩
  · rw [contents_length]
    exact Nat.le_of_lt_succ hlt
  · intro hw hempty
    apply woken_of_units hchars hw
    apply Nat.pos_of_ne_zero
    intro hzero
    rw [(size_eq_zero_iff hfifo).1 hzero] at hempty
    exact Bool.noConfusion hempty
  · intro hw hfull
    apply woken_of_units hroom hw
    have hne : s.shared.size ≠ bufSize - 1 := by
      intro he
      rw [(size_eq_full_iff hfifo).1 he] at hfull
      exact Bool.noConfusion hfull
    simp only [bufSize] at hlt hne ⊢
    omega

/-- Two consumers sleep, a put wakes the first one, and the second stays asleep meanwhile. -/
theorem ioqueue_fifo_run : ∃ s : State Tid Ioqueue IoqOp IoqCond,
    Reachable ioqueue (ioqueueInit fun _ => 0) s ∧ s.waiters .notEmpty = [2] ∧
    s.shared.stored = [97] ++ s.shared.contents.drop 1 ∧
    s.shared.stored = s.shared.taken ++ s.shared.contents ∧ (s.woken .notEmpty).Nonempty := by
  have hstart : Reachable ioqueue (ioqueueInit fun _ => 0)
      (init (ioqueueInit fun _ => 0) : State Tid _ _ _) := .refl
  have hreach := ((hstart.call_enter 1 .ioqueueGetchar rfl).call_enter 2 .ioqueueGetchar
    rfl).call_enter 3 (.ioqueuePutchar 97) rfl
  obtain ⟨horder, -, -, -, hwoken, -⟩ := ioqueue_fifo hreach
  exact ⟨_, hreach, rfl, rfl, horder, hwoken (List.cons_ne_nil _ _) rfl⟩

end HoloOS
