import HoloOS.SyncTyping
import Mathlib.Data.List.Perm.Subperm

/-! Where each thread's tag is linked, in every state of the statement machine. `TagLists` gives
the sequence each list of the kernel holds; `SyncInv` relates it to the modes of the threads. -/

namespace HoloOS

open Function Linked

/-- Every list of the thread layer is well formed, and no general tag is in two of them. -/
structure TagLists (h : ListHeap Node) (q : ListId → List Tid) : Prop where
  holds : ∀ x, Holds h (klist x) ((q x).map (tagFor x))
  disjoint : ∀ x y t, x ≠ .all → y ≠ .all → t ∈ q x → t ∈ q y → x = y

/-- The tag with which `t` would go onto list `x` is on no list. -/
def Unlinked (q : ListId → List Tid) (x : ListId) (t : Tid) : Prop :=
  ∀ y, (y = .all ↔ x = .all) → t ∉ q y

theorem tagFor_eq_iff {x y : ListId} {t u : Tid} :
    tagFor x t = tagFor y u ↔ (x = .all ↔ y = .all) ∧ t = u := by
  cases x <;> cases y <;> simp [tagFor]

@[simp] theorem tagFor_ne_head {x y : ListId} {t : Tid} : tagFor x t ≠ .head y := by
  cases x <;> simp [tagFor]

@[simp] theorem tagFor_ne_tail {x y : ListId} {t : Tid} : tagFor x t ≠ .tail y := by
  cases x <;> simp [tagFor]

theorem mem_map_tagFor {x y : ListId} {t : Tid} {ts : List Tid} :
    tagFor x t ∈ ts.map (tagFor y) ↔ (y = .all ↔ x = .all) ∧ t ∈ ts := by
  simp only [List.mem_map, tagFor_eq_iff]
  constructor
  · rintro ⟨u, hu, hxy, rfl⟩
    exact ⟨hxy, hu⟩
  · rintro ⟨hxy, ht⟩
    exact ⟨t, ht, hxy, rfl⟩

theorem head_notMem_map {x y : ListId} {ts : List Tid} : Node.head x ∉ ts.map (tagFor y) := by
  intro hm
  obtain ⟨t, -, ht⟩ := List.mem_map.1 hm
  exact tagFor_ne_head ht

theorem tail_notMem_map {x y : ListId} {ts : List Tid} : Node.tail x ∉ ts.map (tagFor y) := by
  intro hm
  obtain ⟨t, -, ht⟩ := List.mem_map.1 hm
  exact tagFor_ne_tail ht

theorem outside_tagFor {x y : ListId} {t : Tid} {ts : List Tid}
    (hnot : (y = .all ↔ x = .all) → t ∉ ts) : Outside (klist y) (ts.map (tagFor y)) (tagFor x t) :=
  ⟨tagFor_ne_head, tagFor_ne_tail, fun hm => hnot (mem_map_tagFor.1 hm).1 (mem_map_tagFor.1 hm).2⟩

namespace TagLists

variable {h : ListHeap Node} {q : ListId → List Tid} {x y : ListId} {t : Tid}

theorem nodup (hq : TagLists h q) (x : ListId) : (q x).Nodup :=
  List.Nodup.of_map _ (hq.holds x).nodup_members

theorem apart (hq : TagLists h q) (hne : x ≠ y) :
    Apart (klist x) ((q x).map (tagFor x)) (klist y) ((q y).map (tagFor y)) where
  head := ⟨by simpa using hne, head_notMem_map⟩
  tail := ⟨by simpa using hne, tail_notMem_map⟩
  members := by
    intro n hn
    obtain ⟨t, ht, rfl⟩ := List.mem_map.1 hn
    refine outside_tagFor ?_
    intro hxy hty
    by_cases hx : x = .all
    · exact hne (hx.trans (hxy.2 hx).symm)
    · exact hne (hq.disjoint x y t hx (fun hy => hx (hxy.1 hy)) ht hty)

theorem disjoint_update (hq : TagLists h q) (ts : List Tid)
    (hsub : ∀ u ∈ ts, u ∈ q x ∨ Unlinked q x u) {z y : ListId} {u : Tid} (hz : z ≠ .all)
    (hy : y ≠ .all) (huz : u ∈ update q x ts z) (huy : u ∈ update q x ts y) : z = y := by
  by_cases hzx : z = x
  · subst hzx
    by_cases hyx : y = z
    · exact hyx.symm
    · rw [update_self] at huz
      rw [update_of_ne hyx] at huy
      rcases hsub u huz with hm | hun
      · exact hq.disjoint z y u hz hy hm huy
      · exact absurd huy (hun y (by simp [hz, hy]))
  · rw [update_of_ne hzx] at huz
    by_cases hyx : y = x
    · subst hyx
      rw [update_self] at huy
      rcases hsub u huy with hm | hun
      · exact hq.disjoint z y u hz hy huz hm
      · exact absurd huz (hun z (by simp [hz, hy]))
    · rw [update_of_ne hyx] at huy
      exact hq.disjoint z y u hz hy huz huy

theorem append (hq : TagLists h q) (hun : Unlinked q x t) :
    TagLists (listAppend h (klist x) (tagFor x t)) (update q x (q x ++ [t])) where
  holds := by
    intro y
    by_cases hy : y = x
    · subst hy
      rw [update_self, List.map_append]
      exact holds_listAppend (hq.holds y) (outside_tagFor (hun y))
    · rw [update_of_ne hy]
      exact holds_listAppend_of_apart (hq.holds x) (hq.holds y) (hq.apart (Ne.symm hy))
        (outside_tagFor (hun y))
  disjoint := by
    intro z y u hz hy huz huy
    refine hq.disjoint_update (x := x) (q x ++ [t]) ?_ hz hy huz huy
    intro v hv
    rcases List.mem_append.1 hv with hv | hv
    · exact Or.inl hv
    · exact Or.inr (List.mem_singleton.1 hv ▸ hun)

theorem push (hq : TagLists h q) (hun : Unlinked q x t) :
    TagLists (listPush h (klist x) (tagFor x t)) (update q x (t :: q x)) where
  holds := by
    intro y
    by_cases hy : y = x
    · subst hy
      rw [update_self, List.map_cons]
      exact holds_listPush (hq.holds y) (outside_tagFor (hun y))
    · rw [update_of_ne hy]
      exact holds_listPush_of_apart (hq.holds x) (hq.holds y) (hq.apart (Ne.symm hy))
        (outside_tagFor (hun y))
  disjoint := by
    intro z y u hz hy huz huy
    refine hq.disjoint_update (x := x) (t :: q x) ?_ hz hy huz huy
    intro v hv
    rcases List.mem_cons.1 hv with rfl | hv
    · exact Or.inr hun
    · exact Or.inl hv

theorem remove (hq : TagLists h q) {left right : List Tid} (hx : q x = left ++ t :: right) :
    TagLists (listRemove h (tagFor x t)) (update q x (left ++ right)) where
  holds := by
    intro y
    have hhold := hq.holds x
    rw [hx, List.map_append, List.map_cons] at hhold
    by_cases hy : y = x
    · subst hy
      rw [update_self, List.map_append]
      exact holds_listRemove hhold
    · rw [update_of_ne hy]
      have hapart := hq.apart (x := x) (Ne.symm hy)
      rw [hx, List.map_append, List.map_cons] at hapart
      exact holds_listRemove_of_apart hhold (hq.holds y) hapart
  disjoint := by
    intro z y u hz hy huz huy
    refine hq.disjoint_update (x := x) (left ++ right) ?_ hz hy huz huy
    intro v hv
    refine Or.inl ?_
    rw [hx]
    rcases List.mem_append.1 hv with hv | hv
    · exact List.mem_append_left _ hv
    · exact List.mem_append_right _ (List.mem_cons_of_mem _ hv)

/-- A thread taken off its list is on no list. -/
theorem unlinked_remove (hq : TagLists h q) {left right : List Tid}
    (hx : q x = left ++ t :: right) (hall : x ≠ .all) {z : ListId} (hz : z ≠ .all) :
    Unlinked (update q x (left ++ right)) z t := by
  have hnodup := hq.nodup x
  rw [hx] at hnodup
  have hmem : t ∈ q x := by rw [hx]; simp
  intro y hy
  by_cases hyx : y = x
  · subst hyx
    rw [update_self]
    exact (List.nodup_cons.1 (List.perm_middle.nodup_iff.1 hnodup)).1
  · rw [update_of_ne hyx]
    intro hm
    exact hyx (hq.disjoint y x t (fun he => hz (hy.1 he)) hall hm hmem)

theorem listPop_eq (hq : TagLists h q) :
    listPop h (klist x) =
      match q x with
      | [] => (none, h)
      | t :: _ => (some (tagFor x t), listRemove h (tagFor x t)) := by
  have hhold := hq.holds x
  cases hx : q x with
  | nil =>
      rw [hx] at hhold
      exact listPop_nil hhold
  | cons t rest =>
      rw [hx] at hhold
      exact listPop_cons hhold

theorem listEmpty_eq (hq : TagLists h q) : listEmpty h (klist x) = true ↔ q x = [] := by
  rw [listEmpty_iff (hq.holds x), List.map_eq_nil_iff]

theorem listExist_tag (hq : TagLists h q) {fuel : Nat} (hlen : (q x).length < fuel) :
    listExist fuel h (klist x) (tagFor x t) = some (decide (t ∈ q x)) := by
  rw [listExist_eq (hq.holds x) (by simpa using hlen)]
  simp [mem_map_tagFor]

end TagLists

end HoloOS
