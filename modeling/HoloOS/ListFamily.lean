import HoloOS.ListHeap
import Mathlib.Algebra.Group.Nat.Defs

/-! A heap with any number of disjoint lists under any sequence of the operations of `lib/list.c`: each
operation gives the list it names the sequence it is documented to give and leaves the others alone. -/

namespace HoloOS

open Linked Function

/-- The operations, on the lists named by `L`. -/
inductive ListOp (L N : Type) where
  | init (l : L)
  | push (l : L) (node : N)
  | append (l : L) (node : N)
  | remove (node : N)
  | pop (l : L)
  | exist (l : L) (node : N)
  | len (l : L)
  | empty (l : L)

/-- What an operation returns. -/
inductive ListAnswer (N : Type) where
  | void
  | node (result : Option N)
  | bool (result : Bool)
  | uint (result : BitVec 32)
  deriving DecidableEq

variable {L N : Type} [DecidableEq L] [DecidableEq N]

/-- One call; `none` when a loop has not ended after `fuel` nodes. -/
def ListOp.exec (null : N) (lists : L → KList N) (fuel : Nat) (h : ListHeap N) :
    ListOp L N → Option (ListAnswer N × ListHeap N)
  | .init l => some (.void, listInit null h (lists l))
  | .push l node => some (.void, listPush h (lists l) node)
  | .append l node => some (.void, listAppend h (lists l) node)
  | .remove node => some (.void, listRemove h node)
  | .pop l => some (.node (listPop h (lists l)).1, (listPop h (lists l)).2)
  | .exist l node => (listExist fuel h (lists l) node).map fun found => (.bool found, h)
  | .len l => (listLen fuel h (lists l)).map fun len => (.uint len, h)
  | .empty l => some (.bool (listEmpty h (lists l)), h)

/-- The sequences after an operation. -/
def ListOp.next (seqs : L → List N) : ListOp L N → L → List N
  | .init l => update seqs l []
  | .push l node => update seqs l (node :: seqs l)
  | .append l node => update seqs l (seqs l ++ [node])
  | .remove node => fun l => (seqs l).erase node
  | .pop l => update seqs l (seqs l).tail
  | .exist _ _ | .len _ | .empty _ => seqs

/-- A pushed or appended node is in no list, a removed one is in some list. -/
def ListOp.Allowed (lists : L → KList N) (seqs : L → List N) : ListOp L N → Prop
  | .push _ node | .append _ node => ∀ l, Outside (lists l) (seqs l) node
  | .remove node => ∃ l, node ∈ seqs l
  | _ => True

/-- What the call returns on these sequences, and that it writes nothing where it has nothing to do. -/
def ListOp.Answers (seqs : L → List N) (h : ListHeap N) :
    ListOp L N → ListAnswer N → ListHeap N → Prop
  | .init _, r, _ | .push _ _, r, _ | .append _ _, r, _ | .remove _, r, _ => r = .void
  | .pop l, r, h' => r = .node (seqs l).head? ∧ (seqs l = [] → h' = h)
  | .exist l node, r, h' => (∃ found, r = .bool found ∧ (found = true ↔ node ∈ seqs l)) ∧ h' = h
  | .len l, r, h' =>
      (∃ len : BitVec 32, r = .uint len ∧ ((seqs l).length < 2 ^ 32 → len.toNat = (seqs l).length)) ∧ h' = h
  | .empty l, r, h' => (∃ empty, r = .bool empty ∧ (empty = true ↔ seqs l = [])) ∧ h' = h

/-- Every list represents its sequence, and no node is in two of them. -/
structure Family (lists : L → KList N) (h : ListHeap N) (seqs : L → List N) : Prop where
  holds : ∀ l, Holds h (lists l) (seqs l)
  disjoint : ∀ l l', l ≠ l' → ∀ x, x ∈ (lists l).head :: (seqs l ++ [(lists l).tail]) →
    Outside (lists l') (seqs l') x

namespace Family

variable {lists : L → KList N} {h h' : ListHeap N} {seqs : L → List N} {l : L} {xs : List N} {node : N}

omit [DecidableEq L] [DecidableEq N] in
theorem outside_of_mem (hf : Family lists h seqs) {l' : L} (hne : l ≠ l') (hm : node ∈ seqs l) :
    Outside (lists l') (seqs l') node :=
  hf.disjoint l l' hne node (List.mem_cons_of_mem _ (List.mem_append_left _ hm))

omit [DecidableEq L] [DecidableEq N] in
theorem apart (hf : Family lists h seqs) {l' : L} (hne : l ≠ l') :
    Apart (lists l) (seqs l) (lists l') (seqs l') := by
  have hhead := hf.disjoint l l' hne (lists l).head List.mem_cons_self
  have htail := hf.disjoint l l' hne (lists l).tail
    (List.mem_cons_of_mem _ (List.mem_append_right _ List.mem_cons_self))
  exact ⟨⟨hhead.1, hhead.2.2⟩, ⟨htail.2.1, htail.2.2⟩, fun x hx => hf.outside_of_mem hne hx⟩

omit [DecidableEq N] in
/-- One list takes another sequence, of its own members and nodes that were in no list. -/
theorem edit (hf : Family lists h seqs) (hl : Holds h' (lists l) xs)
    (hothers : ∀ l', l ≠ l' → Holds h' (lists l') (seqs l'))
    (hnew : ∀ x ∈ xs, x ∈ seqs l ∨ ∀ l', Outside (lists l') (seqs l') x) :
    Family lists h' (update seqs l xs) := by
  constructor
  · intro l'
    by_cases hne : l = l'
    · rw [← hne, update_self]
      exact hl
    · rw [update_of_ne (Ne.symm hne)]
      exact hothers l' hne
  · intro a b hab x hx
    by_cases ha : l = a
    · rw [← ha, update_self] at hx
      rw [update_of_ne (ha ▸ hab.symm)]
      rw [List.mem_cons, List.mem_append, List.mem_singleton] at hx
      rcases hx with hx | hx | hx
      · exact hf.disjoint l b (ha ▸ hab) x (hx ▸ List.mem_cons_self)
      · rcases hnew x hx with hold | hout
        · exact hf.outside_of_mem (ha ▸ hab) hold
        · exact hout b
      · exact hf.disjoint l b (ha ▸ hab) x (by simp [hx])
    · rw [update_of_ne (Ne.symm ha)] at hx
      have hold := hf.disjoint a b hab x hx
      by_cases hb : l = b
      · rw [← hb] at hold
        rw [← hb, update_self]
        refine ⟨hold.1, hold.2.1, fun hm => ?_⟩
        rcases hnew x hm with hin | hout
        · exact hold.2.2 hin
        · rw [List.mem_cons, List.mem_append, List.mem_singleton] at hx
          rcases hx with hx | hx | hx
          · exact (hout a).1 hx
          · exact (hout a).2.2 hx
          · exact (hout a).2.1 hx
      · rw [update_of_ne (Ne.symm hb)]
        exact hold

theorem init (hf : Family lists h seqs) (null : N) :
    Family lists (listInit null h (lists l)) (update seqs l []) := by
  refine hf.edit (holds_listInit null h (hf.holds l).head_ne_tail) (fun l' hne => ?_) ?_
  · apply holds_listInit_of_outside null (hf.holds l')
    · exact hf.disjoint l l' hne _ List.mem_cons_self
    · exact hf.disjoint l l' hne _ (by simp)
  · intro x hx
    exact absurd hx List.not_mem_nil

theorem push (hf : Family lists h seqs) (hnode : ∀ l', Outside (lists l') (seqs l') node) :
    Family lists (listPush h (lists l) node) (update seqs l (node :: seqs l)) := by
  refine hf.edit (holds_listPush (hf.holds l) (hnode l)) (fun l' hne => ?_) ?_
  · exact holds_listPush_of_apart (hf.holds l) (hf.holds l') (hf.apart hne) (hnode l')
  · intro x hx
    rcases List.mem_cons.1 hx with he | hm
    · exact Or.inr (he ▸ hnode)
    · exact Or.inl hm

theorem append (hf : Family lists h seqs) (hnode : ∀ l', Outside (lists l') (seqs l') node) :
    Family lists (listAppend h (lists l) node) (update seqs l (seqs l ++ [node])) := by
  refine hf.edit (holds_listAppend (hf.holds l) (hnode l)) (fun l' hne => ?_) ?_
  · exact holds_listAppend_of_apart (hf.holds l) (hf.holds l') (hf.apart hne) (hnode l')
  · intro x hx
    rcases List.mem_append.1 hx with hm | he
    · exact Or.inl hm
    · exact Or.inr (List.mem_singleton.1 he ▸ hnode)

theorem remove (hf : Family lists h seqs) (hm : node ∈ seqs l) :
    Family lists (listRemove h node) (update seqs l ((seqs l).erase node)) := by
  obtain ⟨left, right, hsplit⟩ := List.append_of_mem hm
  have hl := hf.holds l
  rw [hsplit] at hl
  have hleft : node ∉ left := by
    intro hin
    have hnodup := hl.nodup_members
    exact (List.nodup_append.1 hnodup).2.2 node hin node List.mem_cons_self rfl
  have herase : (seqs l).erase node = left ++ right := by
    rw [hsplit, List.erase_append_right _ hleft, List.erase_cons_head]
  rw [herase]
  refine hf.edit (holds_listRemove hl) (fun l' hne => ?_) ?_
  · have hapart := hf.apart hne
    rw [hsplit] at hapart
    exact holds_listRemove_of_apart hl (hf.holds l') hapart
  · intro x hx
    rw [← herase] at hx
    exact Or.inl (List.mem_of_mem_erase hx)

/-- A member of one list is erased from that list only. -/
theorem erase_eq (hf : Family lists h seqs) (hm : node ∈ seqs l) :
    (fun l' => (seqs l').erase node) = update seqs l ((seqs l).erase node) := by
  funext l'
  by_cases hne : l = l'
  · rw [← hne, update_self]
  · rw [update_of_ne (Ne.symm hne), List.erase_of_not_mem (hf.outside_of_mem hne hm).2.2]

theorem pop (hf : Family lists h seqs) :
    (listPop h (lists l)).1 = (seqs l).head? ∧ (seqs l = [] → (listPop h (lists l)).2 = h) ∧
      Family lists (listPop h (lists l)).2 (update seqs l (seqs l).tail) := by
  have hl := hf.holds l
  cases hxs : seqs l with
  | nil =>
      rw [hxs] at hl
      rw [listPop_nil hl, List.tail_nil, ← hxs, update_eq_self]
      exact ⟨by rw [hxs]; rfl, fun _ => rfl, hf⟩
  | cons node xs =>
      rw [hxs] at hl
      have hm : node ∈ seqs l := hxs ▸ List.mem_cons_self
      have hfamily := hf.remove hm
      rw [hxs, List.erase_cons_head] at hfamily
      rw [listPop_cons hl]
      refine ⟨rfl, fun hnil => ?_, hfamily⟩
      cases hnil

end Family

variable {lists : L → KList N} {h : ListHeap N} {seqs : L → List N}

/-- The members a call walks over. -/
def ListOp.walked (seqs : L → List N) : ListOp L N → Nat
  | .exist l _ | .len l => (seqs l).length
  | _ => 0

/-- One allowed call. -/
theorem Family.step (null : N) (hf : Family lists h seqs) (op : ListOp L N) (hop : op.Allowed lists seqs) :
    ∃ r h', (∀ fuel, op.walked seqs < fuel → op.exec null lists fuel h = some (r, h')) ∧
      op.Answers seqs h r h' ∧ Family lists h' (op.next seqs) := by
  cases op with
  | init l => exact ⟨_, _, fun _ _ => rfl, rfl, hf.init null⟩
  | push l node => exact ⟨_, _, fun _ _ => rfl, rfl, hf.push hop⟩
  | append l node => exact ⟨_, _, fun _ _ => rfl, rfl, hf.append hop⟩
  | remove node =>
      obtain ⟨l, hm⟩ := hop
      refine ⟨_, _, fun _ _ => rfl, rfl, ?_⟩
      rw [ListOp.next, hf.erase_eq hm]
      exact hf.remove hm
  | pop l =>
      obtain ⟨hnode, hnil, hfamily⟩ := hf.pop (l := l)
      exact ⟨_, _, fun _ _ => rfl, ⟨congrArg _ hnode, hnil⟩, hfamily⟩
  | exist l node =>
      refine ⟨_, h, fun fuel hfuel => ?_, ⟨⟨_, rfl, decide_eq_true_iff⟩, rfl⟩, hf⟩
      rw [ListOp.exec, listExist_eq (hf.holds l) hfuel, Option.map_some]
  | len l =>
      refine ⟨_, h, fun fuel hfuel => ?_, ⟨⟨BitVec.ofNat 32 (seqs l).length, rfl, fun hlt => ?_⟩, rfl⟩, hf⟩
      · rw [ListOp.exec, listLen_eq (hf.holds l) hfuel, Option.map_some]
      · rw [BitVec.toNat_ofNat, Nat.mod_eq_of_lt hlt]
  | empty l =>
      exact ⟨_, h, fun _ _ => rfl, ⟨⟨_, rfl, listEmpty_iff (hf.holds l)⟩, rfl⟩, hf⟩

/-- Along a sequence of operations, each call that is allowed returns what it should and leaves every list
with its next sequence. -/
def Refines (null : N) (lists : L → KList N) (fuel : Nat) : ListHeap N → (L → List N) → List (ListOp L N) → Prop
  | _, _, [] => True
  | h, seqs, op :: ops =>
      op.Allowed lists seqs → ∃ r h', op.exec null lists fuel h = some (r, h') ∧ op.Answers seqs h r h' ∧
        Family lists h' (op.next seqs) ∧ Refines null lists fuel h' (op.next seqs) ops

/-- The lists of `lib/list.c` refine sequences. -/
theorem family_refines (null : N) (hf : Family lists h seqs) (ops : List (ListOp L N)) :
    ∃ bound, ∀ fuel, bound ≤ fuel → Refines null lists fuel h seqs ops := by
  induction ops generalizing h seqs with
  | nil => exact ⟨0, fun _ _ => trivial⟩
  | cons op ops ih =>
      by_cases hop : op.Allowed lists seqs
      · obtain ⟨r, h', hexec, hanswers, hfamily⟩ := hf.step null op hop
        obtain ⟨bound, hbound⟩ := ih hfamily
        refine ⟨max bound (op.walked seqs + 1), fun fuel hfuel _ => ?_⟩
        exact ⟨r, h', hexec fuel (by omega), hanswers, hfamily, hbound fuel (by omega)⟩
      · exact ⟨0, fun fuel _ hallowed => absurd hallowed hop⟩

/-- Two lists, and a node that goes from one to the other. -/
theorem two_lists_refines :
    ∃ bound, ∀ fuel, bound ≤ fuel →
      Refines 0 (fun l => if l then ⟨1, 2⟩ else ⟨3, 4⟩) fuel ⟨fun n => n + 1, fun n => n - 1⟩ (fun _ : Bool => [])
        [.push true 5, .append true 6, .len true, .remove 5, .push false 5, .pop true, .exist false 5] := by
  refine family_refines 0 ⟨fun l => ?_, fun l l' hne x hx => ?_⟩ _
  · cases l <;> exact Seq.empty (by decide) rfl rfl
  · revert x
    cases l <;> cases l' <;> simp_all [Outside]

end HoloOS
