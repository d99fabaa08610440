import HoloOS.BaseLinks
import Mathlib.Data.List.Basic

/-! The intrusive lists of `lib/list.c` on a heap of nodes. The four link assignments are taken
over one by one; `Holds` says which sequence a `struct list` represents, and each operation has
one lemma for the list it edits and one for the lists it leaves alone. -/

namespace HoloOS

open Linked Function

/-- The two fields of every `struct listNode`. -/
structure ListHeap (N : Type) where
  next : N → N
  prev : N → N

/-- `struct list`: the addresses of its two sentinels. -/
structure KList (N : Type) where
  head : N
  tail : N

variable {N : Type} [DecidableEq N]

namespace ListHeap

def setNext (h : ListHeap N) (node value : N) : ListHeap N :=
  { h with next := update h.next node value }

def setPrev (h : ListHeap N) (node value : N) : ListHeap N :=
  { h with prev := update h.prev node value }

end ListHeap

def listInit (null : N) (h : ListHeap N) (list : KList N) : ListHeap N :=
  (((h.setPrev list.head null).setNext list.head list.tail).setPrev list.tail list.head).setNext
    list.tail null

def listInsert (h : ListHeap N) (before node : N) : ListHeap N :=
  let h := h.setNext (h.prev before) node
  let h := h.setPrev node (h.prev before)
  let h := h.setNext node before
  h.setPrev before node

def listPush (h : ListHeap N) (list : KList N) (node : N) : ListHeap N :=
  listInsert h (h.next list.head) node

def listAppend (h : ListHeap N) (list : KList N) (node : N) : ListHeap N :=
  listInsert h list.tail node

def listRemove (h : ListHeap N) (node : N) : ListHeap N :=
  let h := h.setNext (h.prev node) (h.next node)
  h.setPrev (h.next node) (h.prev node)

def listEmpty (h : ListHeap N) (list : KList N) : Bool :=
  decide (h.next list.head = list.tail)

/-- `none` is the `NULL` of an empty list. -/
def listPop (h : ListHeap N) (list : KList N) : Option N × ListHeap N :=
  if listEmpty h list then (none, h)
  else (some (h.next list.head), listRemove h (h.next list.head))

/-- The loop of `listExist` from `cur`; `none` when it has not ended after `fuel` nodes. -/
def existLoop (h : ListHeap N) (tail node : N) : Nat → N → Option Bool
  | 0, _ => none
  | fuel + 1, cur =>
      if cur = tail then some false
      else if cur = node then some true
      else existLoop h tail node fuel (h.next cur)

def listExist (fuel : Nat) (h : ListHeap N) (list : KList N) (node : N) : Option Bool :=
  existLoop h list.tail node fuel (h.next list.head)

/-- The loop of `listLen` from `cur`, with its 32-bit counter. -/
def lenLoop (h : ListHeap N) (tail : N) : Nat → N → BitVec 32 → Option (BitVec 32)
  | 0, _, _ => none
  | fuel + 1, cur, len => if cur = tail then some len else lenLoop h tail fuel (h.next cur) (len + 1)

def listLen (fuel : Nat) (h : ListHeap N) (list : KList N) : Option (BitVec 32) :=
  lenLoop h list.tail fuel (h.next list.head) 0

/-- The list represents the sequence `xs`. -/
def Holds (h : ListHeap N) (list : KList N) (xs : List N) : Prop :=
  Seq h.next h.prev list.head list.tail xs

/-- A node that is neither a sentinel nor a member. -/
def Outside (list : KList N) (xs : List N) (node : N) : Prop :=
  node ≠ list.head ∧ node ≠ list.tail ∧ node ∉ xs

theorem listInsert_next (h : ListHeap N) (before node : N) :
    (listInsert h before node).next = update (update h.next (h.prev before) node) node before := rfl

theorem listInsert_prev (h : ListHeap N) (before node : N) :
    (listInsert h before node).prev = update (update h.prev node (h.prev before)) before node := rfl

theorem listRemove_next (h : ListHeap N) (node : N) :
    (listRemove h node).next = update h.next (h.prev node) (h.next node) := rfl

theorem listRemove_prev (h : ListHeap N) (node : N) :
    (listRemove h node).prev = update h.prev (h.next node) (h.prev node) := by
  simp only [listRemove, ListHeap.setPrev, ListHeap.setNext]
  congr 1
  by_cases he : node = h.prev node
  · rw [← he, update_self]
  · rw [update_of_ne he]

variable {h : ListHeap N} {list : KList N} {xs : List N} {node : N}

theorem holds_listInit (null : N) (h : ListHeap N) (hne : list.head ≠ list.tail) :
    Holds (listInit null h list) list [] := by
  apply Seq.empty hne
  · simp [listInit, ListHeap.setNext, ListHeap.setPrev, update_of_ne hne]
  · simp [listInit, ListHeap.setNext, ListHeap.setPrev]

theorem listEmpty_iff (hl : Holds h list xs) : listEmpty h list = true ↔ xs = [] := by
  simp only [listEmpty, decide_eq_true_eq]
  exact hl.next_head_eq_tail_iff

theorem existLoop_eq (hl : Seq h.next h.prev list.head list.tail xs) (fuel : Nat)
    (hfuel : xs.length < fuel) :
    existLoop h list.tail node fuel (h.next list.head) = some (decide (node ∈ xs)) := by
  obtain ⟨head, tail⟩ := list
  dsimp only at hl ⊢
  induction xs generalizing head fuel with
  | nil =>
      obtain ⟨fuel, rfl⟩ : ∃ k, fuel = k + 1 := ⟨fuel - 1, by simp at hfuel; omega⟩
      simp [existLoop, hl.next_head_nil]
  | cons x xs ih =>
      obtain ⟨fuel, rfl⟩ : ∃ k, fuel = k + 1 := ⟨fuel - 1, by simp at hfuel; omega⟩
      have hx : x ≠ tail := fun e => hl.tail_notMem (e ▸ List.mem_cons_self)
      rw [hl.next_head_cons, existLoop, if_neg hx]
      by_cases he : x = node
      · rw [if_pos he, he]
        simp
      · rw [if_neg he, ih fuel (by simpa using hfuel) x hl.from_first]
        simp [Ne.symm he]

/-- `listExist` is true exactly for members. -/
theorem listExist_eq (hl : Holds h list xs) {fuel : Nat} (hfuel : xs.length < fuel) :
    listExist fuel h list node = some (decide (node ∈ xs)) := existLoop_eq hl fuel hfuel

theorem lenLoop_eq (hl : Seq h.next h.prev list.head list.tail xs) (fuel : Nat) (len : BitVec 32)
    (hfuel : xs.length < fuel) :
    lenLoop h list.tail fuel (h.next list.head) len = some (len + BitVec.ofNat 32 xs.length) := by
  obtain ⟨head, tail⟩ := list
  dsimp only at hl ⊢
  induction xs generalizing head fuel len with
  | nil =>
      obtain ⟨fuel, rfl⟩ : ∃ k, fuel = k + 1 := ⟨fuel - 1, by simp at hfuel; omega⟩
      simp [lenLoop, hl.next_head_nil]
  | cons x xs ih =>
      obtain ⟨fuel, rfl⟩ : ∃ k, fuel = k + 1 := ⟨fuel - 1, by simp at hfuel; omega⟩
      have hx : x ≠ tail := fun e => hl.tail_notMem (e ▸ List.mem_cons_self)
      have hcount : len + 1 + BitVec.ofNat 32 xs.length = len + BitVec.ofNat 32 (x :: xs).length := by
        apply BitVec.eq_of_toNat_eq
        rw [BitVec.toNat_add, BitVec.toNat_add, BitVec.toNat_add, BitVec.toNat_ofNat, BitVec.toNat_ofNat,
          List.length_cons, show (1 : BitVec 32).toNat = 1 from rfl]
        omega
      rw [hl.next_head_cons, lenLoop, if_neg hx, ih fuel (len + 1) (by simpa using hfuel) x hl.from_first,
        hcount]

/-- `listLen` counts the members modulo 2 ^ 32. -/
theorem listLen_eq (hl : Holds h list xs) {fuel : Nat} (hfuel : xs.length < fuel) :
    listLen fuel h list = some (BitVec.ofNat 32 xs.length) := by
  rw [listLen, lenLoop_eq hl fuel 0 hfuel]
  simp

theorem holds_listPush (hl : Holds h list xs) (ho : Outside list xs node) :
    Holds (listPush h list node) list (node :: xs) := by
  obtain ⟨z, rest, hz⟩ : ∃ z rest, xs ++ [list.tail] = z :: rest :=
    List.exists_cons_of_ne_nil (by simp)
  have hlinks := hl.links
  rw [hz] at hlinks
  have hzmem : z ∈ xs ++ [list.tail] := by rw [hz]; exact List.mem_cons_self
  have hzn : node ≠ z := by
    rintro rfl
    rcases List.mem_append.1 hzmem with hm | hm
    · exact ho.2.2 hm
    · exact ho.2.1 (List.mem_singleton.1 hm)
  have hprevz : h.prev z = list.head := hlinks.2.1
  unfold listPush
  rw [hlinks.1]
  refine hl.push hlinks.1 ho.1 ho.2.1 ho.2.2 ?_ ?_ ?_ ?_ ?_ ?_
  · rw [listInsert_next, hprevz, update_of_ne ho.1.symm, update_self]
  · rw [listInsert_prev, update_of_ne hzn, update_self, hprevz]
  · rw [listInsert_next, update_self]
  · rw [listInsert_prev, update_self]
  · intro w hw hwn
    rw [listInsert_next, hprevz, update_of_ne hwn, update_of_ne hw]
  · intro w hw hwn
    rw [listInsert_prev, update_of_ne hw, update_of_ne hwn]

theorem holds_listAppend (hl : Holds h list xs) (ho : Outside list xs node) :
    Holds (listAppend h list node) list (xs ++ [node]) := by
  obtain ⟨left, x, hx⟩ : ∃ left x, list.head :: xs = left ++ [x] :=
    ⟨_, _, (List.dropLast_append_getLast (List.cons_ne_nil list.head xs)).symm⟩
  have hprev : h.prev list.tail = x := hl.prev_tail hx
  have hxn : x ≠ node := by
    rintro rfl
    have hm : x ∈ list.head :: xs := by rw [hx]; simp
    rcases List.mem_cons.1 hm with he | hm
    · exact ho.1 he
    · exact ho.2.2 hm
  unfold listAppend
  refine hl.append hprev ho.1 ho.2.1 ho.2.2 ?_ ?_ ?_ ?_ ?_ ?_
  · rw [listInsert_next, hprev, update_of_ne hxn, update_self]
  · rw [listInsert_prev, update_of_ne ho.2.1, update_self, hprev]
  · rw [listInsert_next, update_self]
  · rw [listInsert_prev, update_self]
  · intro w hw hwn
    rw [listInsert_next, hprev, update_of_ne hwn, update_of_ne hw]
  · intro w hw hwn
    rw [listInsert_prev, update_of_ne hw, update_of_ne hwn]

theorem holds_listRemove {left right : List N} (hl : Holds h list (left ++ node :: right)) :
    Holds (listRemove h node) list (left ++ right) := by
  refine hl.remove rfl rfl ?_ ?_ ?_ ?_
  · rw [listRemove_next, update_self]
  · rw [listRemove_prev, update_self]
  · intro w hw
    rw [listRemove_next, update_of_ne hw]
  · intro w hw
    rw [listRemove_prev, update_of_ne hw]

theorem holds_listRemove_first (hl : Holds h list (node :: xs)) :
    Holds (listRemove h node) list xs := by
  have hsplit : Holds h list ([] ++ node :: xs) := hl
  exact holds_listRemove hsplit

theorem listPop_nil (hl : Holds h list []) : listPop h list = (none, h) := by
  rw [listPop, if_pos ((listEmpty_iff hl).2 rfl)]

theorem listPop_cons (hl : Holds h list (node :: xs)) :
    listPop h list = (some node, listRemove h node) := by
  have hne : ¬listEmpty h list = true := fun he => by simpa using (listEmpty_iff hl).1 he
  rw [listPop, if_neg hne, hl.next_head_cons]

theorem holds_listPop (hl : Holds h list (node :: xs)) : Holds (listPop h list).2 list xs := by
  rw [listPop_cons hl]
  exact holds_listRemove_first hl

variable {other : KList N} {ys : List N}

theorem holds_listRemove_of_outside {left right : List N}
    (hl : Holds h list (left ++ node :: right)) (hother : Holds h other ys)
    (hhead : list.head ≠ other.head ∧ list.head ∉ ys)
    (htail : list.tail ≠ other.tail ∧ list.tail ∉ ys)
    (hmem : ∀ x ∈ left ++ right, x ≠ other.head ∧ x ≠ other.tail ∧ x ∉ ys) :
    Holds (listRemove h node) other ys := by
  obtain ⟨hp, hn⟩ := hl.neighbours
  refine Seq.congr hother ?_ ?_
  · intro x hx
    rw [listRemove_next, update_of_ne]
    rintro rfl
    rcases hp with he | hm
    · rw [he] at hx
      exact hx.elim hhead.1 hhead.2
    · have := hmem _ (List.mem_append_left _ hm)
      exact hx.elim this.1 this.2.2
  · intro x hx
    rw [listRemove_prev, update_of_ne]
    rintro rfl
    rcases hn with he | hm
    · rw [he] at hx
      exact hx.elim htail.1 htail.2
    · have := hmem _ (List.mem_append_right _ hm)
      exact hx.elim this.2.1 this.2.2

theorem holds_listInsert_of_outside {before : N} (hother : Holds h other ys)
    (hnode : Outside other ys node) (hbefore : before ≠ other.tail ∧ before ∉ ys)
    (hprev : h.prev before ≠ other.head ∧ h.prev before ∉ ys) :
    Holds (listInsert h before node) other ys := by
  refine Seq.congr hother ?_ ?_
  · intro x hx
    have hxn : x ≠ node := by
      rintro rfl
      exact hx.elim hnode.1 hnode.2.2
    have hxp : x ≠ h.prev before := by
      rintro rfl
      exact hx.elim hprev.1 hprev.2
    rw [listInsert_next, update_of_ne hxn, update_of_ne hxp]
  · intro x hx
    have hxn : x ≠ node := by
      rintro rfl
      exact hx.elim hnode.2.1 hnode.2.2
    have hxb : x ≠ before := by
      rintro rfl
      exact hx.elim hbefore.1 hbefore.2
    rw [listInsert_prev, update_of_ne hxb, update_of_ne hxn]

theorem holds_listInit_of_outside (null : N) (hother : Holds h other ys)
    (hhead : Outside other ys list.head) (htail : Outside other ys list.tail) :
    Holds (listInit null h list) other ys := by
  refine Seq.congr hother ?_ ?_
  · intro x hx
    have hxh : x ≠ list.head := by
      rintro rfl
      exact hx.elim hhead.1 hhead.2.2
    have hxt : x ≠ list.tail := by
      rintro rfl
      exact hx.elim htail.1 htail.2.2
    simp [listInit, ListHeap.setNext, ListHeap.setPrev, update_of_ne hxh, update_of_ne hxt]
  · intro x hx
    have hxh : x ≠ list.head := by
      rintro rfl
      exact hx.elim hhead.2.1 hhead.2.2
    have hxt : x ≠ list.tail := by
      rintro rfl
      exact hx.elim htail.2.1 htail.2.2
    simp [listInit, ListHeap.setNext, ListHeap.setPrev, update_of_ne hxh, update_of_ne hxt]

/-- The nodes of the first list, its sentinels included, are none of the second list's. -/
structure Apart (list : KList N) (xs : List N) (other : KList N) (ys : List N) : Prop where
  head : list.head ≠ other.head ∧ list.head ∉ ys
  tail : list.tail ≠ other.tail ∧ list.tail ∉ ys
  members : ∀ x ∈ xs, Outside other ys x

theorem holds_listAppend_of_apart (hl : Holds h list xs) (hother : Holds h other ys)
    (hapart : Apart list xs other ys) (hnode : Outside other ys node) :
    Holds (listAppend h list node) other ys := by
  refine holds_listInsert_of_outside hother hnode hapart.tail ?_
  obtain ⟨left, x, hx⟩ : ∃ left x, list.head :: xs = left ++ [x] :=
    ⟨_, _, (List.dropLast_append_getLast (List.cons_ne_nil list.head xs)).symm⟩
  have hm : x ∈ list.head :: xs := by rw [hx]; simp
  rw [hl.prev_tail hx]
  rcases List.mem_cons.1 hm with rfl | hm
  · exact hapart.head
  · exact ⟨(hapart.members x hm).1, (hapart.members x hm).2.2⟩

theorem holds_listPush_of_apart (hl : Holds h list xs) (hother : Holds h other ys)
    (hapart : Apart list xs other ys) (hnode : Outside other ys node) :
    Holds (listPush h list node) other ys := by
  obtain ⟨z, rest, hz⟩ : ∃ z rest, xs ++ [list.tail] = z :: rest :=
    List.exists_cons_of_ne_nil (by simp)
  have hlinks := hl.links
  rw [hz] at hlinks
  have hm : z ∈ xs ++ [list.tail] := by rw [hz]; exact List.mem_cons_self
  unfold listPush
  rw [hlinks.1]
  refine holds_listInsert_of_outside hother hnode ?_ (hlinks.2.1.symm ▸ hapart.head)
  rcases List.mem_append.1 hm with hm | hm
  · exact ⟨(hapart.members z hm).2.1, (hapart.members z hm).2.2⟩
  · rw [List.mem_singleton.1 hm]
    exact hapart.tail

theorem holds_listRemove_first_of_apart (hl : Holds h list (node :: xs))
    (hother : Holds h other ys) (hapart : Apart list (node :: xs) other ys) :
    Holds (listRemove h node) other ys := by
  have hsplit : Holds h list ([] ++ node :: xs) := hl
  exact holds_listRemove_of_outside hsplit hother hapart.head hapart.tail
    fun x hx => hapart.members x (List.mem_cons_of_mem _ hx)

theorem holds_listRemove_of_apart {left right : List N}
    (hl : Holds h list (left ++ node :: right)) (hother : Holds h other ys)
    (hapart : Apart list (left ++ node :: right) other ys) :
    Holds (listRemove h node) other ys := by
  refine holds_listRemove_of_outside hl hother hapart.head hapart.tail ?_
  intro x hx
  exact hapart.members x (by
    rcases List.mem_append.1 hx with hx | hx
    · exact List.mem_append_left _ hx
    · exact List.mem_append_right _ (List.mem_cons_of_mem _ hx))

end HoloOS
