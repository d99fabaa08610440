import HoloOS.HeapWords
import HoloOS.MemoryBlocks
import HoloOS.ListFamily
import Mathlib.Data.List.Perm.Subperm

/-! The lists of `lib/list.c` in words of memory. A node is the address of its two links, and the functions that run
through the MMU do to the words what their pure forms do to a heap of nodes, as long as the words of different nodes
do not overlap. -/

namespace HoloOS

open Function Paging Linked

variable {s s' : Memory} {dir : Space → Nat} {W : Word → Word} {v x node before list : Word}

/-- `prev` is the first word of a node, `next` the second. -/
def links (W : Word → Word) : ListHeap Word := ⟨fun a => W (a + 4), W⟩

/-- The two sentinels of the `struct list` at `list`. -/
def listAt (list : Word) : KList Word := ⟨list, list + 8⟩

/-- No node of the set begins at the second word of another. -/
def Spaced (S : Word → Prop) : Prop := ∀ a b, S a → S b → a ≠ b + 4

theorem Spaced.next_ne {S : Word → Prop} (hS : Spaced S) {a b : Word} (ha : S a) (hb : S b) : b + 4 ≠ a :=
  (hS a b ha hb).symm

def insertWords (W : Word → Word) (before node : Word) : Word → Word :=
  update (update (update (update W (W before + 4) node) node (W before)) (node + 4) before) before node

def removeWords (W : Word → Word) (node : Word) : Word → Word :=
  update (update W (W node + 4) (W (node + 4))) (W (node + 4)) (W node)

/-- Two heaps have the same links on a set. -/
def SameLinks (S : Word → Prop) (h h' : ListHeap Word) : Prop :=
  ∀ x, S x → h'.next x = h.next x ∧ h'.prev x = h.prev x

section Spaced

variable {S : Word → Prop} (hS : Spaced S)
include hS

theorem links_insertWords (hbefore : S before) (hprev : S (W before)) (hnode : S node) :
    SameLinks S (listInsert (links W) before node) (links (insertWords W before node)) := by
  have hinj : ∀ a b : Word, a + 4 = b + 4 ↔ a = b := fun a b => BitVec.add_left_inj 4
  intro x hx
  rw [listInsert_next, listInsert_prev]
  have hx4 := fun y hy => hS.next_ne (a := y) (b := x) hy hx
  constructor
  · simp only [links, insertWords, update_apply, hx4 before hbefore, hx4 node hnode, hinj, if_false]
  · have hxs := fun y hy => hS x y hx hy
    simp only [links, insertWords, update_apply, hxs node hnode, hxs (W before) hprev, if_false]

theorem links_removeWords (hprev : S (W node)) (hnext : S (W (node + 4))) :
    SameLinks S (listRemove (links W) node) (links (removeWords W node)) := by
  have hinj : ∀ a b : Word, a + 4 = b + 4 ↔ a = b := fun a b => BitVec.add_left_inj 4
  intro x hx
  rw [listRemove_next, listRemove_prev]
  constructor
  · have hx4 := fun y hy => hS.next_ne (a := y) (b := x) hy hx
    simp only [links, removeWords, update_apply, hx4 _ hnext, hinj, if_false]
  · have hxs := fun y hy => hS x y hx hy
    simp only [links, removeWords, update_apply, hxs _ hprev, if_false]

end Spaced

/-- The sentinels of a list and its members. -/
def NodeOf (list : KList Word) (xs : List Word) (x : Word) : Prop := x = list.head ∨ x ∈ xs ∨ x = list.tail

/-- The nodes of all lists. -/
def Nodes {L : Type} (lists : L → KList Word) (seqs : L → List Word) (x : Word) : Prop :=
  ∃ l, NodeOf (lists l) (seqs l) x

theorem Holds.prev_tail {h : ListHeap Word} {list : KList Word} {xs : List Word} (hl : Holds h list xs) :
    NodeOf list xs (h.prev list.tail) := by
  obtain ⟨left, x, hx⟩ : ∃ left x, list.head :: xs = left ++ [x] :=
    ⟨_, _, (List.dropLast_append_getLast (List.cons_ne_nil list.head xs)).symm⟩
  have hm : x ∈ list.head :: xs := by
    rw [hx]
    simp
  rw [Seq.prev_tail hl hx]
  exact (List.mem_cons.1 hm).imp_right Or.inl

theorem Holds.around {h : ListHeap Word} {list : KList Word} {xs : List Word} {node : Word} (hl : Holds h list xs)
    (hm : node ∈ xs) : NodeOf list xs (h.prev node) ∧ NodeOf list xs (h.next node) := by
  obtain ⟨left, right, rfl⟩ := List.append_of_mem hm
  obtain ⟨hprev, hnext⟩ := Seq.neighbours hl
  refine ⟨hprev.imp_right fun hin => .inl (List.mem_append_left _ hin), ?_⟩
  rcases hnext with he | hin
  · exact .inr (.inr he)
  · exact .inr (.inl (List.mem_append_right _ (List.mem_cons_of_mem _ hin)))

theorem Family.congr {L : Type} {lists : L → KList Word} {h h' : ListHeap Word} {seqs : L → List Word}
    (hf : Family lists h seqs) (hsame : SameLinks (Nodes lists seqs) h h') : Family lists h' seqs where
  holds l := by
    refine (hf.holds l).congr (fun x hx => (hsame x ⟨l, ?_⟩).1) fun x hx => (hsame x ⟨l, ?_⟩).2
    · exact hx.imp_right Or.inl
    · exact .inr hx.symm
  disjoint := hf.disjoint

/-- The two words of a node can be written. -/
structure NodeWritable (s : Memory) (dir : Space → Nat) (x : Word) : Prop where
  prev : Writable s dir x
  next : Writable s dir (x + 4)

section Memory

variable (h : Spaces s dir) (hw : Wrote s s' dir W)
include h hw

theorem Wrote.listInsert (hbefore : Writable s dir before) (hprev : Writable s dir (W before + 4))
    (hnode : NodeWritable s dir node) (hne : before ≠ W before + 4) :
    ∃ s'', s'.listInsert before node = .ok s'' ∧ Wrote s s'' dir (insertWords W before node) := by
  obtain ⟨s₁, h₁, hw₁⟩ := hw.store h hprev node
  obtain ⟨s₂, h₂, hw₂⟩ := hw₁.store h hnode.prev (W before)
  obtain ⟨s₃, h₃, hw₃⟩ := hw₂.store h hnode.next before
  obtain ⟨s₄, h₄, hw₄⟩ := hw₃.store h hbefore node
  have hload : s₁.load before = .ok (W before) := by
    rw [hw₁.load h hbefore, update_of_ne hne]
  refine ⟨s₄, ?_, hw₄⟩
  rw [Memory.listInsert, hw.load h hbefore, ok_bind, h₁, ok_bind, hload, ok_bind, h₂, ok_bind, h₃, ok_bind, h₄]

theorem Wrote.listRemove (hnode : NodeWritable s dir node) (hprev : Writable s dir (W node + 4))
    (hnext : Writable s dir (W (node + 4))) (hne : node ≠ W node + 4) :
    ∃ s'', s'.listRemove node = .ok s'' ∧ Wrote s s'' dir (removeWords W node) := by
  obtain ⟨s₁, h₁, hw₁⟩ := hw.store h hprev (W (node + 4))
  obtain ⟨s₂, h₂, hw₂⟩ := hw₁.store h hnext (W node)
  have hnext' : s₁.load (node + 4) = .ok (W (node + 4)) := by
    rw [hw₁.load h hnode.next]
    congr 1
    by_cases he : node + 4 = W node + 4
    · rw [he, update_self]
    · rw [update_of_ne he]
  have hprev' : s₁.load node = .ok (W node) := by
    rw [hw₁.load h hnode.prev, update_of_ne hne]
  refine ⟨s₂, ?_, hw₂⟩
  rw [Memory.listRemove, hw.load h hnode.prev, ok_bind, hw.load h hnode.next, ok_bind, h₁, ok_bind, hnext', ok_bind,
    hprev', ok_bind, h₂]

theorem Wrote.listEmpty (hlist : Writable s dir (list + 4)) :
    s'.listEmpty list = .ok (HoloOS.listEmpty (links W) (listAt list)) := by
  rw [Memory.listEmpty, hw.load h hlist, ok_bind]
  rfl

/-- The walk of `listExist` along a list. -/
theorem Wrote.existLoop {head tail : Word} {xs : List Word} (hl : Seq (links W).next (links W).prev head tail xs)
    (hnodes : ∀ x ∈ xs, Writable s dir (x + 4)) (fuel : Nat) (hfuel : xs.length < fuel) :
    Memory.existLoop tail node fuel ((links W).next head) s' = .ok (decide (node ∈ xs)) := by
  induction xs generalizing head fuel with
  | nil =>
      obtain ⟨fuel, rfl⟩ : ∃ k, fuel = k + 1 := ⟨fuel - 1, by simp at hfuel; omega⟩
      simp [Memory.existLoop, hl.next_head_nil]
  | cons x xs ih =>
      obtain ⟨fuel, rfl⟩ : ∃ k, fuel = k + 1 := ⟨fuel - 1, by simp at hfuel; omega⟩
      have hx : x ≠ tail := fun e => hl.tail_notMem (e ▸ List.mem_cons_self)
      rw [hl.next_head_cons, Memory.existLoop, if_neg hx]
      by_cases he : x = node
      · rw [if_pos he, he]
        simp
      · rw [if_neg he, hw.load h (hnodes x List.mem_cons_self), ok_bind]
        have hrest := ih hl.from_first (fun y hy => hnodes y (List.mem_cons_of_mem _ hy)) fuel (by simpa using hfuel)
        rw [show (links W).next x = W (x + 4) from rfl] at hrest
        rw [hrest]
        simp [Ne.symm he]

end Memory

/-- A list has fewer members than there are addresses. -/
theorem seq_length_lt {next prev : Word → Word} {head tail : Word} {xs : List Word}
    (hl : Seq next prev head tail xs) :
    xs.length < 2 ^ 32 := by
  have hnodup : (head :: xs).Nodup := List.nodup_cons.2 ⟨hl.head_notMem, hl.nodup_members⟩
  have hmap : ((head :: xs).map BitVec.toNat).Nodup := hnodup.map fun a b he => BitVec.eq_of_toNat_eq he
  have hsub : (head :: xs).map BitVec.toNat ⊆ List.range (2 ^ 32) := by
    intro n hn
    obtain ⟨a, -, rfl⟩ := List.mem_map.1 hn
    exact List.mem_range.2 a.isLt
  have hlen := (hmap.subperm hsub).length_le
  rw [List.length_map, List.length_range, List.length_cons] at hlen
  omega

/-- The words are outside of the nodes of a list. -/
def ClearOf (list : KList Word) (xs : List Word) (v : Word) : Prop := ∀ x, NodeOf list xs x → v ≠ x ∧ v ≠ x + 4

section Families

variable {L : Type} [DecidableEq L] {addr : L → Word} {seqs : L → List Word} {S : Word → Prop} {l : L}
  (h : Spaces s dir) (hw : Wrote s s' dir W) (hf : Family (fun l => listAt (addr l)) (links W) seqs) (hS : Spaced S)
  (hin : ∀ x, Nodes (fun l => listAt (addr l)) seqs x → S x) (hacc : ∀ x, S x → NodeWritable s dir x)
include h hw hf hS hin hacc

theorem Wrote.append (hnode : S node) (hout : ∀ l', Outside (listAt (addr l')) (seqs l') node) :
    ∃ s'' W', s'.listAppend (addr l) node = .ok s'' ∧ Wrote s s'' dir W' ∧
      Family (fun l => listAt (addr l)) (links W') (update seqs l (seqs l ++ [node])) ∧
      ∀ v, ClearOf (listAt (addr l)) (node :: seqs l) v → W' v = W v := by
  have hpred : NodeOf (listAt (addr l)) (seqs l) (W (addr l + 8)) := (hf.holds l).prev_tail
  have htail : S (addr l + 8) := hin _ ⟨l, .inr (.inr rfl)⟩
  have hprev : S (W (addr l + 8)) := hin _ ⟨l, hpred⟩
  obtain ⟨s'', hcall, hw'⟩ := hw.listInsert h (hacc _ htail).prev (hacc _ hprev).next (hacc _ hnode)
    (hS _ _ htail hprev)
  have hsame := links_insertWords hS htail hprev hnode
  refine ⟨s'', _, hcall, hw', (hf.append hout).congr fun x hx => hsame x ?_, fun v hv => ?_⟩
  · obtain ⟨l', hx | hx | hx⟩ := hx
    · exact hin x ⟨l', .inl hx⟩
    · by_cases he : l' = l
      · rw [he, update_self, List.mem_append, List.mem_singleton] at hx
        rcases hx with hx | rfl
        · exact hin x ⟨l, .inr (.inl hx)⟩
        · exact hnode
      · rw [update_of_ne he] at hx
        exact hin x ⟨l', .inr (.inl hx)⟩
    · exact hin x ⟨l', .inr (.inr hx)⟩
  · have hpred' : NodeOf (listAt (addr l)) (node :: seqs l) (W (addr l + 8)) :=
      hpred.imp_right (Or.imp_left (List.mem_cons_of_mem _))
    have hnode' := hv node (.inr (.inl List.mem_cons_self))
    have htail' := hv (addr l + 8) (.inr (.inr rfl))
    rw [insertWords, update_of_ne htail'.1, update_of_ne hnode'.2, update_of_ne hnode'.1,
      update_of_ne (hv _ hpred').2]

theorem Wrote.remove (hm : node ∈ seqs l) :
    ∃ s'' W', s'.listRemove node = .ok s'' ∧ Wrote s s'' dir W' ∧
      Family (fun l => listAt (addr l)) (links W') (update seqs l ((seqs l).erase node)) ∧
      ∀ v, ClearOf (listAt (addr l)) (seqs l) v → W' v = W v := by
  obtain ⟨hpred, hsucc⟩ := (hf.holds l).around hm
  have hnode : S node := hin _ ⟨l, .inr (.inl hm)⟩
  have hprev : S (W node) := hin _ ⟨l, hpred⟩
  have hnext : S (W (node + 4)) := hin _ ⟨l, hsucc⟩
  obtain ⟨s'', hcall, hw'⟩ := hw.listRemove h (hacc _ hnode) (hacc _ hprev).next (hacc _ hnext).prev
    (hS _ _ hnode hprev)
  have hsame := links_removeWords hS hprev hnext
  refine ⟨s'', _, hcall, hw', (hf.remove hm).congr fun x hx => hsame x ?_, fun v hv => ?_⟩
  · obtain ⟨l', hx | hx | hx⟩ := hx
    · exact hin x ⟨l', .inl hx⟩
    · by_cases he : l' = l
      · rw [he, update_self] at hx
        exact hin x ⟨l, .inr (.inl (List.mem_of_mem_erase hx))⟩
      · rw [update_of_ne he] at hx
        exact hin x ⟨l', .inr (.inl hx)⟩
    · exact hin x ⟨l', .inr (.inr hx)⟩
  · have hnext' : v ≠ W (node + 4) := (hv _ hsucc).1
    have hprev' : v ≠ W node + 4 := (hv _ hpred).2
    rw [removeWords, update_of_ne hnext', update_of_ne hprev']

omit hS [DecidableEq L] in
theorem Wrote.exist (l : L) (node : Word) : s'.listExist (addr l) node = .ok (decide (node ∈ seqs l)) := by
  have hhead := hacc _ (hin (addr l) ⟨l, .inl rfl⟩)
  rw [Memory.listExist, hw.load h hhead.next, ok_bind]
  refine hw.existLoop h (hf.holds l) (fun x hx => (hacc x (hin x ⟨l, .inr (.inl hx)⟩)).next) _ ?_
  exact seq_length_lt (hf.holds l)

omit hS [DecidableEq L] in
theorem Wrote.empty (l : L) : s'.listEmpty (addr l) = .ok (decide (seqs l = [])) := by
  have hhead := hacc _ (hin (addr l) ⟨l, .inl rfl⟩)
  rw [hw.listEmpty h hhead.next]
  congr 1
  rw [Bool.eq_iff_iff, listEmpty_iff (hf.holds l), decide_eq_true_iff]

theorem Wrote.pop {rest : List Word} (hseq : seqs l = node :: rest) :
    ∃ s'' W', s'.listPop (addr l) = .ok (node, s'') ∧ Wrote s s'' dir W' ∧
      Family (fun l => listAt (addr l)) (links W') (update seqs l rest) ∧
      ∀ v, ClearOf (listAt (addr l)) (seqs l) v → W' v = W v := by
  have hm : node ∈ seqs l := by
    rw [hseq]
    exact List.mem_cons_self
  obtain ⟨s'', W', hcall, hw', hf', hframe⟩ := hw.remove h hf hS hin hacc hm
  rw [hseq, List.erase_cons_head] at hf'
  refine ⟨s'', W', ?_, hw', hf', hframe⟩
  have hhead := hacc _ (hin (addr l) ⟨l, .inl rfl⟩)
  have hfirst : W (addr l + 4) = node := by
    have hl := hf.holds l
    rw [hseq] at hl
    exact hl.next_head_cons
  have hne : ¬seqs l = [] := by
    rw [hseq]
    exact List.cons_ne_nil _ _
  rw [Memory.listPop, hw.empty h hf hin hacc l, ok_bind, decide_eq_false hne, if_neg Bool.false_ne_true,
    hw.load h hhead.next, hfirst, ok_bind, hcall]
  rfl

end Families

end HoloOS
