import HoloOS.HeapMoves

/-! Who owns a word of a heap. The allocator writes descriptors, headers of arenas and free blocks; the bytes of a
live allocation belong to the program that asked for it, and no two allocations share one. -/

namespace HoloOS

open Function Paging

variable {D a x y v : Word} {c c' : Fin 7} {b b' : Alloc} {H : Arenas}

/-- The bytes of an allocation. -/
def Alloc.Holds (b : Alloc) (v : Word) : Prop := b.ptr.toNat ≤ v.toNat ∧ v.toNat < b.ptr.toNat + b.size.toNat

/-- A word that the allocator writes. -/
def Managed (D : Word) (H : Arenas) (v : Word) : Prop :=
  (D.toNat ≤ v.toNat ∧ v.toNat < D.toNat + 168) ∨
  (∃ c, ∃ a ∈ H.pages c, a.toNat ≤ v.toNat ∧ v.toNat < a.toNat + 12) ∨
  (∃ c, ∃ x ∈ H.free c, x.toNat ≤ v.toNat ∧ v.toNat < x.toNat + blockSize c) ∨
  ∃ b ∈ H.large, (block2arena b.ptr).toNat ≤ v.toNat ∧ v.toNat < (block2arena b.ptr).toNat + 12

/-- A word outside of a heap, or in one of the allocations. -/
def Spared (D : Word) (H : Arenas) (live : List Alloc) (v : Word) : Prop := ¬Zone D H v ∨ ∃ b ∈ live, b.Holds v

theorem Alloc.small_or_large (b : Alloc) : (∃ c, InClass b.size c) ∨ b.Large := by
  by_cases hb : b.Large
  · exact .inr hb
  · exact .inl (exists_inClass (Nat.le_of_not_lt hb))

theorem mem_used_of_live (hb : b ∈ H.live) (hc : InClass b.size c) : b.ptr ∈ H.used c :=
  List.mem_map_of_mem (List.mem_filter.2 ⟨hb, decide_eq_true hc⟩)

theorem mem_large_of_live (hb : b ∈ H.live) (hlarge : b.Large) : b ∈ H.large :=
  List.mem_filter.2 ⟨hb, decide_eq_true hlarge⟩

/-- The pages of a large allocation hold it behind the header. -/
theorem Placed.holds_large (hp : Placed D H) (hb : b ∈ H.large) (hv : b.Holds v) :
    vpage v ∈ b.pages ∧ (block2arena b.ptr).toNat + 12 ≤ v.toNat := by
  have hptr := hp.large b hb
  have hback := block2arena_toNat b.ptr
  unfold Alloc.Holds at hv
  refine ⟨List.mem_map.2 ⟨vpage v - vpage b.ptr, ?_, ?_⟩, by omega⟩
  · rw [List.mem_range]
    unfold pageCount vpage
    omega
  · unfold vpage
    omega

namespace HeapWf

variable (h : HeapWf D H)
include h

theorem holds_small (hb : b ∈ H.live) (hc : InClass b.size c) (hv : b.Holds v) :
    ∃ a ∈ H.pages c, b.ptr ∈ HoloOS.blocks c a ∧ vpage v = vpage a ∧ b.ptr.toNat ≤ v.toNat ∧
      v.toNat < b.ptr.toNat + blockSize c := by
  obtain ⟨a, ha, hblock⟩ := h.mem_used (mem_used_of_live hb hc)
  have hin := h.inArena ha hblock
  have hpage := hin.page
  have hlow := hin.low
  have hhigh := hin.high
  have hsize := hc.1
  unfold Alloc.Holds at hv
  refine ⟨a, ha, hblock, ?_, hv.1, by omega⟩
  unfold vpage
  omega

theorem holds_page (hb : b ∈ H.live) (hv : b.Holds v) : vpage v ∈ H.allPages := by
  rcases b.small_or_large with ⟨c, hc⟩ | hlarge
  · obtain ⟨a, ha, -, hpage, -⟩ := h.holds_small hb hc hv
    rw [hpage]
    exact mem_allPages.2 (.inl ⟨c, a, ha, rfl⟩)
  · have hmem := mem_large_of_live hb hlarge
    exact List.mem_append_right _ (List.mem_flatMap.2 ⟨b, hmem, (h.holds_large hmem hv).1⟩)

theorem large_pairwise : H.large.Pairwise fun b b' => b.pages.Disjoint b'.pages :=
  (List.nodup_flatMap.1 (List.nodup_append.1 h.nodup).2.1).2

theorem large_apart (hb : b ∈ H.large) (hb' : b' ∈ H.large) (hne : b ≠ b') : b.pages.Disjoint b'.pages := by
  have hsymm : Std.Symm (fun b b' : Alloc => b.pages.Disjoint b'.pages) := ⟨fun _ _ hd _ hm hm' => hd hm' hm⟩
  exact h.large_pairwise.forall hb hb' hne

theorem ptr_mod (hb : b ∈ H.live) : b.ptr.toNat % 4 = 0 := by
  rcases b.small_or_large with ⟨c, hc⟩ | hlarge
  · obtain ⟨a, ha, hblock⟩ := h.mem_used (mem_used_of_live hb hc)
    have hmod := (h.inArena ha hblock).mod
    omega
  · have hmod := h.large b (mem_large_of_live hb hlarge)
    omega

/-- The header of a large allocation is in none. -/
theorem holds_not_header (hb : b ∈ H.live) (hv : b.Holds v) (hb' : b' ∈ H.large) :
    ¬((block2arena b'.ptr).toNat ≤ v.toNat ∧ v.toNat < (block2arena b'.ptr).toNat + 12) := by
  rintro hin
  have hback := block2arena_toNat b'.ptr
  have hpage' : vpage v = vpage b'.ptr := by
    unfold vpage
    omega
  rcases b.small_or_large with ⟨c, hc⟩ | hlarge
  · obtain ⟨a, ha, -, hpage, -⟩ := h.holds_small hb hc hv
    refine h.arena_not_large ha hb' ?_
    rw [← hpage, hpage']
    exact mem_large_pages b'
  · have hmem := mem_large_of_live hb hlarge
    obtain ⟨hin', hle⟩ := h.holds_large hmem hv
    by_cases he : b = b'
    · subst he
      omega
    · rw [hpage'] at hin'
      exact h.large_apart hmem hb' he hin' (mem_large_pages b')

/-- The allocator leaves the bytes of a live allocation alone. -/
theorem holds_not_managed (hb : b ∈ H.live) (hv : b.Holds v) : ¬Managed D H v := by
  have hfar := h.far _ (h.holds_page hb hv)
  unfold Far vpage at hfar
  rintro (hdesc | ⟨c', a', ha', hin⟩ | ⟨c', x, hx, hin⟩ | ⟨b', hb', hin⟩)
  · omega
  · have haligned := h.aligned c' a' ha'
    unfold PageAligned at haligned
    have hpage' : vpage v = vpage a' := by
      unfold vpage
      omega
    rcases b.small_or_large with ⟨c, hc⟩ | hlarge
    · obtain ⟨a, ha, hblock, hpage, hle, -⟩ := h.holds_small hb hc hv
      obtain ⟨rfl, rfl⟩ := h.arena_unique ha ha' (hpage.symm.trans hpage')
      have hblockin := h.inArena ha hblock
      have := hblockin.page
      have := hblockin.low
      omega
    · have hmem := mem_large_of_live hb hlarge
      have hin' := (h.holds_large hmem hv).1
      rw [hpage'] at hin'
      exact h.arena_not_large ha' hmem hin'
  · obtain ⟨a', ha', hblock'⟩ := h.mem_free hx
    have hblockin' := h.inArena ha' hblock'
    have hpage₁ := hblockin'.page
    have hlow₁ := hblockin'.low
    have hhigh₁ := hblockin'.high
    have hpage' : vpage v = vpage a' := by
      unfold vpage
      omega
    rcases b.small_or_large with ⟨c, hc⟩ | hlarge
    · obtain ⟨a, ha, hblock, hpage, hle, hlt⟩ := h.holds_small hb hc hv
      obtain ⟨rfl, rfl⟩ := h.arena_unique ha ha' (hpage.symm.trans hpage')
      have hne : b.ptr ≠ x := by
        rintro rfl
        exact h.not_free_of_used (mem_used_of_live hb hc) hx
      have hapart := blocks_apart (h.aligned c a ha) hblock hblock' hne
      omega
    · have hmem := mem_large_of_live hb hlarge
      have hin' := (h.holds_large hmem hv).1
      rw [hpage'] at hin'
      exact h.arena_not_large ha' hmem hin'
  · exact h.holds_not_header hb hv hb' hin

omit h in
theorem count_of_filter {p : Alloc → Bool} {l : List Alloc} (hl : (l.filter p).Nodup) (hb : p b = true) :
    l.count b ≤ 1 := by
  rw [← List.count_filter hb]
  exact List.nodup_iff_count_le_one.1 hl b

theorem live_nodup : H.live.Nodup := by
  rw [List.nodup_iff_count_le_one]
  intro b
  rcases b.small_or_large with ⟨c, hc⟩ | hlarge
  · exact count_of_filter (List.Nodup.of_map _ (List.nodup_append.1 (h.nodup_all c)).2.1) (decide_eq_true hc)
  · have hnodup : H.large.Nodup := h.large_pairwise.imp fun {b₁ b₂} hdisjoint => by
      rintro rfl
      exact hdisjoint (mem_large_pages b₁) (mem_large_pages b₁)
    exact count_of_filter hnodup (decide_eq_true hlarge)

/-- Two allocations share no byte. -/
theorem apart (hb : b ∈ H.live) (hb' : b' ∈ H.live) (hne : b ≠ b') (hv : b.Holds v) : ¬b'.Holds v := by
  intro hv'
  rcases b.small_or_large with ⟨c, hc⟩ | hlarge
  · obtain ⟨a, ha, hblock, hpage, hle, hlt⟩ := h.holds_small hb hc hv
    rcases b'.small_or_large with ⟨c', hc'⟩ | hlarge'
    · obtain ⟨a', ha', hblock', hpage', hle', hlt'⟩ := h.holds_small hb' hc' hv'
      obtain ⟨rfl, rfl⟩ := h.arena_unique ha ha' (hpage.symm.trans hpage')
      have hptr : b.ptr ≠ b'.ptr := by
        intro he
        have hinj := List.inj_on_of_nodup_map (List.nodup_append.1 (h.nodup_all c)).2.1
        refine hne (hinj ?_ ?_ he)
        · exact List.mem_filter.2 ⟨hb, decide_eq_true hc⟩
        · exact List.mem_filter.2 ⟨hb', decide_eq_true hc'⟩
      have hapart := blocks_apart (h.aligned c a ha) hblock hblock' hptr
      omega
    · have hmem := mem_large_of_live hb' hlarge'
      have hin := (h.holds_large hmem hv').1
      rw [hpage] at hin
      exact h.arena_not_large ha hmem hin
  · have hmem := mem_large_of_live hb hlarge
    have hin := (h.holds_large hmem hv).1
    rcases b'.small_or_large with ⟨c', hc'⟩ | hlarge'
    · obtain ⟨a', ha', -, hpage', -⟩ := h.holds_small hb' hc' hv'
      rw [hpage'] at hin
      exact h.arena_not_large ha' hmem hin
    · have hmem' := mem_large_of_live hb' hlarge'
      exact h.large_apart hmem hmem' hne hin (h.holds_large hmem' hv').1

end HeapWf

/-- Words that are not the allocator's are no links. -/
theorem Placed.clearOf (hp : Placed D H) {ys : List Word} (hys : ∀ y ∈ ys, y ∈ H.free c)
    (hmem : ∀ y ∈ ys, ∃ a ∈ H.pages c, y ∈ blocks c a) (hv : ¬Managed D H v) : ClearOf (freeLists D c) ys v := by
  have hnode : ∀ x, HeapNode D H.pages x → (x + 4).toNat = x.toNat + 4 := fun x hx => (hp.node_toNat hx).1
  have hlist := freeListAt_toNat hp.fit c
  have htail := freeListAt_tail_toNat hp.fit c
  have hc := c.isLt
  have hdesc : ∀ x : Word, HeapNode D H.pages x → D.toNat ≤ x.toNat → x.toNat + 4 < D.toNat + 168 →
      v ≠ x ∧ v ≠ x + 4 := by
    intro x hx hle hlt
    have hnext := hnode x hx
    refine ⟨?_, ?_⟩
    · rintro rfl
      exact hv (.inl (by omega))
    · rintro rfl
      exact hv (.inl (by omega))
  rintro x (rfl | hx | rfl)
  · exact hdesc _ (.inl ⟨c, .inl rfl⟩) (by change _ ≤ (freeListAt D c).toNat; omega)
      (by change (freeListAt D c).toNat + 4 < _; omega)
  · obtain ⟨a, ha, hblock⟩ := hmem x hx
    have hnext := hnode x (.inr ⟨c, a, ha, hblock⟩)
    have hpos := blockSize_pos c
    refine ⟨?_, ?_⟩
    · rintro rfl
      exact hv (.inr (.inr (.inl ⟨c, v, hys v hx, by omega, by omega⟩)))
    · rintro rfl
      exact hv (.inr (.inr (.inl ⟨c, x, hys x hx, by omega, by omega⟩)))
  · exact hdesc _ (.inl ⟨c, .inr rfl⟩) (by change _ ≤ (freeListAt D c + 8).toNat; omega)
      (by change (freeListAt D c + 8).toNat + 4 < _; omega)

/-- The count of an arena is the allocator's. -/
theorem Placed.count_managed (hp : Placed D H) (ha : a ∈ H.pages c) : Managed D H (a + 4) := by
  have hfour := (header_toNat (hp.aligned c a ha)).1
  exact .inr (.inl ⟨c, a, ha, by omega, by omega⟩)

/-- The links are the allocator's. -/
theorem Placed.node_managed {W : Word → Word} {cnt : Word → Nat} (hp : Placed D H) (hr : HeapRepr W D H cnt)
    (hx : Nodes (freeLists D) H.free x) : Managed D H x ∧ Managed D H (x + 4) := by
  obtain ⟨c, hx⟩ := hx
  have hnot : ∀ v, (v = x ∨ v = x + 4) → Managed D H v := by
    intro v hv
    by_contra hm
    obtain ⟨hne, hne'⟩ := hp.clearOf (fun _ hy => hy) (hr.members c) hm x hx
    exact hv.elim hne hne'
  exact ⟨hnot x (.inl rfl), hnot (x + 4) (.inr rfl)⟩

/-- What the words of a heap say depends on the allocator's alone. -/
theorem HeapRepr.managed {W W' : Word → Word} {cnt : Word → Nat} (h : HeapRepr W D H cnt) (hp : Placed D H)
    (hsame : ∀ v, Managed D H v → W' v = W v) : HeapRepr W' D H cnt := by
  have hheader : ∀ a, PageAligned a → (∀ v : Word, a.toNat ≤ v.toNat ∧ v.toNat < a.toNat + 12 → Managed D H v) →
      W' a = W a ∧ W' (a + 4) = W (a + 4) ∧ W' (a + 8) = W (a + 8) := by
    intro a ha hm
    obtain ⟨hfour, height⟩ := header_toNat ha
    exact ⟨hsame _ (hm _ (by omega)), hsame _ (hm _ (by omega)), hsame _ (hm _ (by omega))⟩
  refine ⟨fun c => ?_, h.lists.congr fun x hx => ?_, h.members, fun c a ha => ?_, fun b hb => ?_⟩
  · have hfit := hp.fit
    have hdesc := descAt_toNat hp.fit c
    have hc := c.isLt
    unfold DescsFit at hfit
    have hnext := next_toNat (v := descAt D c) (by omega)
    rw [hsame (descAt D c) (.inl (by omega)), hsame (descAt D c + 4) (.inl (by omega))]
    exact h.sizes c
  · obtain ⟨hm, hm'⟩ := hp.node_managed h hx
    exact ⟨hsame _ hm', hsame _ hm⟩
  · obtain ⟨h₀, h₁, h₂⟩ := hheader a (hp.aligned c a ha) fun v hv => .inr (.inl ⟨c, a, ha, hv⟩)
    exact (h.arenas c a ha).congr h₀ h₁ h₂
  · obtain ⟨h₀, h₁, h₂⟩ := hheader _ (pageAligned_block2arena b.ptr) fun v hv => .inr (.inr (.inr ⟨b, hb, hv⟩))
    exact (h.large b hb).congr h₀ h₁ h₂

/-- A new arena brings the words of its page. -/
theorem managed_build (ha : PageAligned a) (hv : Managed D (H.build c a) v) : Managed D H v ∨ vpage v = vpage a := by
  rcases hv with hdesc | ⟨c', a', ha', hin⟩ | ⟨c', x, hx, hin⟩ | hlarge
  · exact .inl (.inl hdesc)
  · change a' ∈ update H.pages c (a :: H.pages c) c' at ha'
    by_cases he : c' = c
    · subst he
      rw [update_self] at ha'
      rcases List.mem_cons.1 ha' with rfl | hold
      · right
        unfold PageAligned at ha
        unfold vpage
        omega
      · exact .inl (.inr (.inl ⟨c', a', hold, hin⟩))
    · rw [update_of_ne he] at ha'
      exact .inl (.inr (.inl ⟨c', a', ha', hin⟩))
  · change x ∈ update H.free c (HoloOS.blocks c a) c' at hx
    by_cases he : c' = c
    · subst he
      rw [update_self] at hx
      have hblockin := inArena ha hx
      have hpage := hblockin.page
      have hlow := hblockin.low
      have hhigh := hblockin.high
      right
      unfold vpage
      omega
    · rw [update_of_ne he] at hx
      exact .inl (.inr (.inr (.inl ⟨c', x, hx, hin⟩)))
  · exact .inl (.inr (.inr (.inr hlarge)))

/-- The allocator's words are in the heap. -/
theorem HeapWf.managed_zone (h : HeapWf D H) (hv : Managed D H v) : Zone D H v := by
  rcases hv with hdesc | ⟨c, a, ha, hin⟩ | ⟨c, x, hx, hin⟩ | ⟨b, hb, hin⟩
  · exact .inl hdesc
  · have haligned := h.aligned c a ha
    unfold PageAligned at haligned
    have hpage : vpage v = vpage a := by
      unfold vpage
      omega
    exact .inr (hpage ▸ mem_allPages.2 (.inl ⟨c, a, ha, rfl⟩))
  · obtain ⟨a, ha, hblock⟩ := h.mem_free hx
    have hblockin := h.inArena ha hblock
    have hpage₁ := hblockin.page
    have hlow₁ := hblockin.low
    have hhigh₁ := hblockin.high
    have hpage : vpage v = vpage a := by
      unfold vpage
      omega
    exact .inr (hpage ▸ mem_allPages.2 (.inl ⟨c, a, ha, rfl⟩))
  · have hback := block2arena_toNat b.ptr
    have hpage : vpage v = vpage b.ptr := by
      unfold vpage
      omega
    exact .inr (List.mem_append_right _ (List.mem_flatMap.2 ⟨b, hb, hpage ▸ mem_large_pages b⟩))

/-- What is spared is not the allocator's. -/
theorem HeapWf.spared (h : HeapWf D H) {live : List Alloc} (hlive : ∀ b ∈ live, b ∈ H.live) (hv : Spared D H live v) :
    ¬Managed D H v := by
  rcases hv with hout | ⟨b, hb, hv⟩
  · exact fun hm => hout (h.managed_zone hm)
  · exact h.holds_not_managed (hlive b hb) hv

end HoloOS
