import Mathlib.Data.List.Nodup
import Mathlib.Logic.Function.Basic

/-! Doubly linked lists with two sentinels, read off a pair of pointer maps. `Links` states the
links of consecutive nodes, `Seq` that a list from `head` to `tail` holds a sequence of nodes.
The edits are stated by what the pointer maps become, so that any store can supply them. -/

namespace Linked

variable {α : Type*}

/-- Consecutive nodes are linked both ways. -/
def Links (next prev : α → α) : List α → Prop
  | x :: y :: rest => next x = y ∧ prev y = x ∧ Links next prev (y :: rest)
  | _ => True

@[simp] theorem links_nil (next prev : α → α) : Links next prev [] := trivial

@[simp] theorem links_singleton (next prev : α → α) (x : α) : Links next prev [x] := trivial

theorem links_cons_cons {next prev : α → α} {x y : α} {rest : List α} :
    Links next prev (x :: y :: rest) ↔
      next x = y ∧ prev y = x ∧ Links next prev (y :: rest) := Iff.rfl

/-- A chain is linked when both parts are, the node at the seam taken in both. -/
theorem links_append {next prev : α → α} (left : List α) (x : α) (right : List α) :
    Links next prev (left ++ x :: right) ↔
      Links next prev (left ++ [x]) ∧ Links next prev (x :: right) := by
  induction left with
  | nil => simp
  | cons a left ih =>
      cases left with
      | nil => simp [links_cons_cons, and_assoc]
      | cons b left =>
          simp only [List.cons_append, links_cons_cons] at ih ⊢
          rw [ih]
          tauto

/-- The links of a chain read `next` off its last node and `prev` off its first node never. -/
theorem Links.congr {next prev next' prev' : α → α} {nodes : List α}
    (h : Links next prev nodes) (hnext : ∀ x ∈ nodes.dropLast, next' x = next x)
    (hprev : ∀ x ∈ nodes.tail, prev' x = prev x) : Links next' prev' nodes := by
  induction nodes with
  | nil => trivial
  | cons x rest ih =>
      cases rest with
      | nil => trivial
      | cons y rest =>
          obtain ⟨hxy, hyx, hrest⟩ := h
          refine ⟨(hnext x (by simp)).trans hxy, (hprev y (by simp)).trans hyx, ih hrest ?_ ?_⟩
          · intro z hz
            exact hnext z (by simp [List.dropLast_cons_cons, hz])
          · intro z hz
            exact hprev z (by simp only [List.tail_cons] at hz ⊢; exact List.mem_cons_of_mem _ hz)

/-- Putting `node` between `x` and `z` takes four pointers; all others are kept. -/
theorem links_splice_in {next prev next' prev' : α → α} {left right : List α} {x z node : α}
    (h : Links next prev (left ++ x :: z :: right)) (hnodup : (left ++ x :: z :: right).Nodup)
    (hfresh : node ∉ left ++ x :: z :: right)
    (hxn : next' x = node) (hnx : prev' node = x) (hnz : next' node = z) (hzn : prev' z = node)
    (hnext : ∀ w, w ≠ x → w ≠ node → next' w = next w)
    (hprev : ∀ w, w ≠ z → w ≠ node → prev' w = prev w) :
    Links next' prev' (left ++ x :: node :: z :: right) := by
  rw [links_append, links_cons_cons] at h
  rw [links_append]
  obtain ⟨hleft, -, -, hright⟩ := h
  have hparts := List.nodup_append.1 hnodup
  have hxz := List.nodup_cons.1 hparts.2.1
  have hz := List.nodup_cons.1 hxz.2
  simp only [List.mem_append, List.mem_cons, not_or] at hfresh
  refine ⟨hleft.congr ?_ ?_, hxn, hnx, hnz, hzn, hright.congr ?_ ?_⟩
  · intro w hw
    rw [List.dropLast_concat] at hw
    exact hnext w (fun e => hparts.2.2 w hw x (by simp) e)
      (fun e => hfresh.1 (e ▸ hw))
  · intro w hw
    have hmem : w ∈ left ∨ w = x := by simpa using List.mem_of_mem_tail hw
    refine hprev w ?_ ?_
    · rintro rfl
      rcases hmem with hl | rfl
      · exact hparts.2.2 w hl w (by simp) rfl
      · exact hxz.1 (by simp)
    · rintro rfl
      rcases hmem with hl | rfl
      · exact hfresh.1 hl
      · exact hfresh.2.1 rfl
  · intro w hw
    have hmem := List.dropLast_subset _ hw
    refine hnext w (fun e => hxz.1 (e ▸ hmem)) ?_
    rintro rfl
    rcases List.mem_cons.1 hmem with rfl | hr
    · exact hfresh.2.2.1 rfl
    · exact hfresh.2.2.2 hr
  · intro w hw
    rw [List.tail_cons] at hw
    exact hprev w (fun e => hz.1 (e ▸ hw)) (fun e => hfresh.2.2.2 (e ▸ hw))

/-- Taking `node` out from between `x` and `z` takes two pointers; all others are kept. -/
theorem links_splice_out {next prev next' prev' : α → α} {left right : List α} {x z node : α}
    (h : Links next prev (left ++ x :: node :: z :: right))
    (hnodup : (left ++ x :: node :: z :: right).Nodup)
    (hxz : next' x = z) (hzx : prev' z = x)
    (hnext : ∀ w, w ≠ x → next' w = next w) (hprev : ∀ w, w ≠ z → prev' w = prev w) :
    Links next' prev' (left ++ x :: z :: right) := by
  rw [links_append, links_cons_cons, links_cons_cons] at h
  rw [links_append]
  obtain ⟨hleft, -, -, -, -, hright⟩ := h
  have hparts := List.nodup_append.1 hnodup
  have hx := List.nodup_cons.1 hparts.2.1
  have hz := List.nodup_cons.1 (List.nodup_cons.1 hx.2).2
  refine ⟨hleft.congr ?_ ?_, hxz, hzx, hright.congr ?_ ?_⟩
  · intro w hw
    rw [List.dropLast_concat] at hw
    exact hnext w (fun e => hparts.2.2 w hw x (by simp) e)
  · intro w hw
    have hmem : w ∈ left ∨ w = x := by simpa using List.mem_of_mem_tail hw
    refine hprev w ?_
    rintro rfl
    rcases hmem with hl | rfl
    · exact hparts.2.2 w hl w (by simp) rfl
    · exact hx.1 (by simp)
  · intro w hw
    have hmem := List.dropLast_subset _ hw
    exact hnext w (fun e => hx.1 (e ▸ List.mem_cons_of_mem _ hmem))
  · intro w hw
    rw [List.tail_cons] at hw
    exact hprev w (fun e => hz.1 (e ▸ hw))

/-- Following `next` from `head` visits `xs` in order and then `tail`; `prev` inverts `next`. -/
structure Seq (next prev : α → α) (head tail : α) (xs : List α) : Prop where
  links : Links next prev (head :: (xs ++ [tail]))
  nodup : (head :: (xs ++ [tail])).Nodup

namespace Seq

variable {next prev next' prev' : α → α} {head tail : α} {xs : List α}

theorem empty (hne : head ≠ tail) (hnext : next head = tail) (hprev : prev tail = head) :
    Seq next prev head tail [] :=
  ⟨⟨hnext, hprev, trivial⟩, by simpa using hne⟩

theorem head_ne_tail (h : Seq next prev head tail xs) : head ≠ tail := by
  rintro rfl
  exact (List.nodup_cons.1 h.nodup).1 (by simp)

theorem head_notMem (h : Seq next prev head tail xs) : head ∉ xs := fun hm =>
  (List.nodup_cons.1 h.nodup).1 (List.mem_append_left _ hm)

theorem tail_notMem (h : Seq next prev head tail xs) : tail ∉ xs := fun hm =>
  (List.nodup_append.1 (List.nodup_cons.1 h.nodup).2).2.2 tail hm tail (by simp) rfl

theorem nodup_members (h : Seq next prev head tail xs) : xs.Nodup :=
  (List.nodup_append.1 (List.nodup_cons.1 h.nodup).2).1

theorem next_head_nil (h : Seq next prev head tail []) : next head = tail := h.links.1

theorem next_head_cons {x : α} (h : Seq next prev head tail (x :: xs)) : next head = x := h.links.1

theorem next_head_eq_tail_iff (h : Seq next prev head tail xs) : next head = tail ↔ xs = [] := by
  cases xs with
  | nil => exact ⟨fun _ => rfl, fun _ => h.next_head_nil⟩
  | cons x xs =>
      refine ⟨fun he => absurd ?_ h.tail_notMem, fun he => by cases he⟩
      rw [← he, h.next_head_cons]
      exact List.mem_cons_self

theorem prev_next_head (h : Seq next prev head tail xs) : prev (next head) = head := by
  obtain ⟨x, rest, hx⟩ : ∃ x rest, xs ++ [tail] = x :: rest := List.exists_cons_of_ne_nil (by simp)
  have hl := h.links
  rw [hx] at hl
  rw [hl.1, hl.2.1]

/-- The tail of a nonempty list is a list from its first member. -/
theorem from_first {x : α} (h : Seq next prev head tail (x :: xs)) : Seq next prev x tail xs :=
  ⟨h.links.2.2, (List.nodup_cons.1 h.nodup).2⟩

/-- Pointer maps that agree on the nodes of a list hold the same list. -/
theorem congr (h : Seq next prev head tail xs)
    (hnext : ∀ x, x = head ∨ x ∈ xs → next' x = next x)
    (hprev : ∀ x, x = tail ∨ x ∈ xs → prev' x = prev x) : Seq next' prev' head tail xs := by
  refine ⟨h.links.congr ?_ ?_, h.nodup⟩
  · intro x hx
    rw [← List.cons_append, List.dropLast_concat] at hx
    exact hnext x (List.mem_cons.1 hx)
  · intro x hx
    rw [List.tail_cons, List.mem_append, List.mem_singleton] at hx
    exact hprev x hx.symm

/-- The pointers determine the sequence. -/
theorem unique {ys : List α} (hx : Seq next prev head tail xs) (hy : Seq next prev head tail ys) :
    xs = ys := by
  induction xs generalizing head ys with
  | nil => exact ((hy.next_head_eq_tail_iff).1 hx.next_head_nil).symm
  | cons x xs ih =>
      cases ys with
      | nil => exact absurd ((hx.next_head_eq_tail_iff).1 hy.next_head_nil) (by simp)
      | cons y ys =>
          have he : x = y := hx.next_head_cons.symm.trans hy.next_head_cons
          subst he
          rw [ih hx.from_first hy.from_first]

theorem prev_tail (h : Seq next prev head tail xs) {left : List α} {x : α}
    (hx : head :: xs = left ++ [x]) : prev tail = x := by
  have hl := h.links
  rw [← List.cons_append, hx, List.append_assoc, List.singleton_append, links_append] at hl
  exact hl.2.2.1

/-- Putting a node after the head. -/
theorem push {node z : α} (h : Seq next prev head tail xs) (hz : next head = z)
    (hhead : node ≠ head) (htail : node ≠ tail) (hmem : node ∉ xs)
    (hxn : next' head = node) (hnx : prev' node = head) (hnz : next' node = z) (hzn : prev' z = node)
    (hnext : ∀ w, w ≠ head → w ≠ node → next' w = next w)
    (hprev : ∀ w, w ≠ z → w ≠ node → prev' w = prev w) :
    Seq next' prev' head tail (node :: xs) := by
  obtain ⟨w, rest, hw⟩ : ∃ w rest, xs ++ [tail] = w :: rest :=
    List.exists_cons_of_ne_nil (by simp)
  have hl := h.links
  have hn := h.nodup
  have hfresh : node ∉ head :: (xs ++ [tail]) := by simp [hhead, htail, hmem]
  rw [hw] at hl hn hfresh
  obtain rfl : w = z := hl.1.symm.trans hz
  refine ⟨?_, ?_⟩
  · rw [List.cons_append, hw]
    exact @links_splice_in _ _ _ _ _ [] _ _ _ _ hl hn hfresh hxn hnx hnz hzn hnext hprev
  · rw [List.cons_append, hw]
    simp only [List.nodup_cons, List.mem_cons, not_or] at hn hfresh ⊢
    exact ⟨⟨hhead.symm, hn.1⟩, hfresh.2, hn.2⟩

/-- Putting a node before the tail. -/
theorem append {node x : α} (h : Seq next prev head tail xs) (hx : prev tail = x)
    (hhead : node ≠ head) (htail : node ≠ tail) (hmem : node ∉ xs)
    (hxn : next' x = node) (hnx : prev' node = x) (hnz : next' node = tail)
    (hzn : prev' tail = node) (hnext : ∀ w, w ≠ x → w ≠ node → next' w = next w)
    (hprev : ∀ w, w ≠ tail → w ≠ node → prev' w = prev w) :
    Seq next' prev' head tail (xs ++ [node]) := by
  obtain ⟨left, w, hw⟩ : ∃ left w, head :: xs = left ++ [w] :=
    ⟨_, _, (List.dropLast_append_getLast (List.cons_ne_nil head xs)).symm⟩
  obtain rfl : w = x := (h.prev_tail hw).symm.trans hx
  have hl := h.links
  have hn := h.nodup
  have hfresh : node ∉ head :: (xs ++ [tail]) := by simp [hhead, htail, hmem]
  rw [← List.cons_append, hw, List.append_assoc] at hl hn hfresh
  refine ⟨?_, ?_⟩
  · rw [← List.cons_append, ← List.cons_append, hw, List.append_assoc, List.append_assoc]
    exact links_splice_in hl hn hfresh hxn hnx hnz hzn hnext hprev
  · rw [← List.cons_append, ← List.cons_append, hw, List.append_assoc, List.append_assoc]
    have hperm : (left ++ ([w] ++ ([node] ++ [tail]))).Perm (node :: (left ++ ([w] ++ [tail]))) := by
      rw [← List.append_assoc, ← List.append_assoc left]
      exact List.perm_middle
    exact hperm.nodup_iff.2 (List.nodup_cons.2 ⟨hfresh, hn⟩)

/-- Taking a member out. -/
theorem remove {left right : List α} {node x z : α}
    (h : Seq next prev head tail (left ++ node :: right))
    (hx : prev node = x) (hz : next node = z)
    (hxz : next' x = z) (hzx : prev' z = x)
    (hnext : ∀ w, w ≠ x → next' w = next w) (hprev : ∀ w, w ≠ z → prev' w = prev w) :
    Seq next' prev' head tail (left ++ right) := by
  obtain ⟨front, a, ha⟩ : ∃ front a, head :: left = front ++ [a] :=
    ⟨_, _, (List.dropLast_append_getLast (List.cons_ne_nil head left)).symm⟩
  obtain ⟨b, back, hb⟩ : ∃ b back, right ++ [tail] = b :: back :=
    List.exists_cons_of_ne_nil (by simp)
  have hshape : head :: (left ++ node :: right ++ [tail]) = front ++ a :: node :: b :: back := by
    rw [List.append_assoc, ← List.cons_append, ha, List.cons_append, hb, List.append_assoc]
    rfl
  have hshape' : head :: (left ++ right ++ [tail]) = front ++ a :: b :: back := by
    rw [List.append_assoc, ← List.cons_append, ha, hb, List.append_assoc]
    rfl
  have hl := h.links
  have hn := h.nodup
  rw [hshape] at hl hn
  have hmid := ((links_append _ _ _).1 hl).2
  obtain rfl : a = x := hmid.2.1.symm.trans hx
  obtain rfl : b = z := hmid.2.2.1.symm.trans hz
  refine ⟨?_, ?_⟩
  · rw [hshape']
    exact links_splice_out hl hn hxz hzx hnext hprev
  · rw [hshape']
    exact hn.sublist (List.Sublist.append_left (.cons_cons _ (.cons _ (List.Sublist.refl _))) _)

/-- The neighbours of a member are nodes of the list. -/
theorem neighbours {left right : List α} {node : α}
    (h : Seq next prev head tail (left ++ node :: right)) :
    (prev node = head ∨ prev node ∈ left) ∧ (next node = tail ∨ next node ∈ right) := by
  obtain ⟨front, a, ha⟩ : ∃ front a, head :: left = front ++ [a] :=
    ⟨_, _, (List.dropLast_append_getLast (List.cons_ne_nil head left)).symm⟩
  obtain ⟨b, back, hb⟩ : ∃ b back, right ++ [tail] = b :: back :=
    List.exists_cons_of_ne_nil (by simp)
  have hl := h.links
  rw [List.append_assoc, ← List.cons_append, ha, List.cons_append, hb, List.append_assoc] at hl
  have hmid := ((links_append _ _ _).1 hl).2
  have hamem : a ∈ head :: left := by rw [ha]; simp
  have hbmem : b ∈ right ++ [tail] := by rw [hb]; simp
  constructor
  · rw [hmid.2.1]
    exact List.mem_cons.1 hamem
  · rw [hmid.2.2.1]
    rcases List.mem_append.1 hbmem with hr | ht
    · exact Or.inr hr
    · exact Or.inl (List.mem_singleton.1 ht)

end Seq

end Linked
