import HoloOS.HeapRegions

/-! The heap as its callers see it: what `sysMalloc` and `sysFree` do to arenas, free lists and live allocations.
Both keep every block either live or free, and every arena in use, so a free right after the allocation undoes it,
and a heap without live allocations has no page. -/

namespace HoloOS

open Function Paging

variable {D a x p size : Word} {c : Fin 7} {b : Alloc} {H H' H'' : Arenas}

namespace Arenas

/-- `sysMalloc` that returns a pointer. -/
inductive Malloc (D : Word) (H : Arenas) (size : Word) : Word → Arenas → Prop
  | reuse {c : Fin 7} {p : Word} {rest : List Word} (hc : InClass size c) (hfree : H.free c = p :: rest) :
      Malloc D H size p (H.take c ⟨p, size⟩)
  | fresh {c : Fin 7} {a : Word} (hc : InClass size c) (hfree : H.free c = []) (haligned : PageAligned a)
      (hnew : vpage a ∉ H.allPages) (hfar : Far D (vpage a)) :
      Malloc D H size (blockAt a c 0) ((H.build c a).take c ⟨blockAt a c 0, size⟩)
  | large {a : Word} (hsize : 1024 < size.toNat) (haligned : PageAligned a)
      (hnew : ∀ k < pageCount size, vpage a + k ∉ H.allPages) (hfar : ∀ k < pageCount size, Far D (vpage a + k)) :
      Malloc D H size (a + 12) (H.addLarge ⟨a + 12, size⟩)

/-- `sysFree` of a live allocation. The last live block of an arena takes the arena with it. -/
inductive Free (H : Arenas) (b : Alloc) : Arenas → Prop
  | put {c : Fin 7} (hc : InClass b.size c) (hother : ∃ p ∈ (H.put c b).used c, vpage p = vpage b.ptr) :
      Free H b (H.put c b)
  | giveUp {c : Fin 7} (hc : InClass b.size c) (hlast : ∀ p ∈ (H.put c b).used c, vpage p ≠ vpage b.ptr) :
      Free H b ((H.put c b).giveUp c (block2arena b.ptr))
  | large (hb : b.Large) : Free H b (H.dropLarge b)

end Arenas

theorem blocks_cons (a : Word) (c : Fin 7) : ∃ rest, blocks c a = blockAt a c 0 :: rest := by
  obtain ⟨n, hn⟩ : ∃ n, blocksPerArena c = n + 1 :=
    ⟨blocksPerArena c - 1, by have := (blocksPerArena_bounds c).1; omega⟩
  refine ⟨(List.range n).map fun i => blockAt a c (i + 1), ?_⟩
  rw [blocks, hn, List.range_succ_eq_map, List.map_cons, List.map_map]
  rfl

theorem first_block (a : Word) (c : Fin 7) : blockAt a c 0 ∈ blocks c a := by
  obtain ⟨rest, hrest⟩ := blocks_cons a c
  rw [hrest]
  exact List.mem_cons_self

theorem build_free (H : Arenas) (c : Fin 7) (a : Word) : (H.build c a).free c = blocks c a := update_self _ _ _

namespace Arenas

theorem Malloc.live (h : Malloc D H size p H') : H'.live = ⟨p, size⟩ :: H.live := by
  cases h <;> rfl

theorem Free.live (h : Free H b H') : H'.live = H.live.erase b := by
  cases h <;> rfl

end Arenas

theorem large_pages_new {a : Word} (ha : PageAligned a) (hnew : ∀ k < pageCount size, vpage a + k ∉ H.allPages) :
    ∀ n ∈ (Alloc.mk (a + 12) size).pages, n ∉ H.allPages := by
  intro n hn
  obtain ⟨k, hk, rfl⟩ := List.mem_map.1 hn
  change vpage (a + 12) + k ∉ _
  rw [(payload_toNat ha).2.1]
  exact hnew k (List.mem_range.1 hk)

/-- Every block is live or free after `sysMalloc`. -/
theorem HeapWf.malloc (h : HeapWf D H) (hm : H.Malloc D size p H') : HeapWf D H' := by
  cases hm with
  | reuse hc hfree => exact h.take (b := ⟨p, size⟩) hc hfree
  | @fresh c a hc hfree haligned hnew hfar =>
      obtain ⟨rest, hrest⟩ := blocks_cons a c
      have hbuild := h.build hfree haligned hnew hfar
      exact hbuild.take (b := ⟨blockAt a c 0, size⟩) hc ((build_free H c a).trans hrest)
  | @large a hsize haligned hnew hfar =>
      obtain ⟨hnat, hpage, -⟩ := payload_toNat haligned
      refine h.addLarge hsize ?_ (large_pages_new haligned hnew) fun n hn => ?_
      · change (a + 12).toNat % 4096 = 12
        unfold PageAligned at haligned
        omega
      · obtain ⟨k, hk, rfl⟩ := List.mem_map.1 hn
        change Far D (vpage (a + 12) + k)
        rw [hpage]
        exact hfar k (List.mem_range.1 hk)

theorem block_arena (h : HeapWf D H) (hb : b ∈ H.live) (hc : InClass b.size c) :
    ∃ a ∈ H.pages c, b.ptr ∈ blocks c a ∧ block2arena b.ptr = a ∧ vpage b.ptr = vpage a := by
  obtain ⟨a, ha, hblock⟩ := h.mem_used (mem_used_of_live hb hc)
  have hin := h.inArena ha hblock
  exact ⟨a, ha, hblock, block2arena_eq (h.aligned c a ha) hin, hin.page⟩

/-- When the last live block of an arena has been put back, all of its blocks are free. -/
theorem HeapWf.put_full (h : HeapWf D H) (hb : b ∈ H.live) (hc : InClass b.size c) (ha : a ∈ H.pages c)
    (hpage : vpage b.ptr = vpage a) (hlast : ∀ p ∈ (H.put c b).used c, vpage p ≠ vpage b.ptr) :
    ∀ x ∈ HoloOS.blocks c a, x ∈ (H.put c b).free c := by
  intro x hx
  have hput := h.put hb hc
  refine (hput.free_or_used ha hx).resolve_right fun hused => hlast x hused ?_
  exact (h.inArena ha hx).page.trans hpage.symm

theorem HeapWf.free (h : HeapWf D H) (hb : b ∈ H.live) (hf : H.Free b H') : HeapWf D H' := by
  cases hf with
  | put hc hother => exact h.put hb hc
  | giveUp hc hlast =>
      obtain ⟨a, ha, -, hback, hpage⟩ := block_arena h hb hc
      rw [hback]
      exact (h.put hb hc).giveUp ha (h.put_full hb hc ha hpage hlast)
  | large hlarge => exact h.dropLarge hb hlarge

theorem mem_used_cons {pages free : Fin 7 → List Word} (hx : x ∈ H.used c) :
    x ∈ Arenas.used ⟨pages, free, b :: H.live⟩ c := by
  rw [used_cons]
  split
  next => exact List.mem_cons_of_mem _ hx
  next => exact hx

theorem Busy.malloc (h : Busy H) (hwf : HeapWf D H) (hm : H.Malloc D size p H') : Busy H' := by
  have hwf' := hwf.malloc hm
  cases hm with
  | reuse hc hfree =>
      intro c' a' ha'
      obtain ⟨p', hp', hpage⟩ := h c' a' ha'
      exact ⟨p', mem_used_cons hp', hpage⟩
  | @fresh c a hc hfree haligned hnew hfar =>
      intro c' a' ha'
      change a' ∈ update H.pages c (a :: H.pages c) c' at ha'
      have hold : a' ∈ H.pages c' → ∃ p ∈ Arenas.used ((H.build c a).take c ⟨blockAt a c 0, size⟩) c',
        vpage p = vpage a' := by
        intro hold
        obtain ⟨p', hp', hpage⟩ := h c' a' hold
        exact ⟨p', mem_used_cons hp', hpage⟩
      by_cases he : c' = c
      · subst he
        rw [update_self] at ha'
        rcases List.mem_cons.1 ha' with rfl | ha'
        · exact ⟨_, mem_used_of_live (b := ⟨blockAt a' c' 0, size⟩) List.mem_cons_self hc,
            (inArena haligned (first_block a' c')).page⟩
        · exact hold ha'
      · rw [update_of_ne he] at ha'
        exact hold ha'
  | large hsize haligned hnew hfar =>
      intro c' a' ha'
      obtain ⟨p', hp', hpage⟩ := h c' a' ha'
      exact ⟨p', mem_used_cons hp', hpage⟩

/-- A live block is the one that goes or stays live. -/
theorem used_cases (hb : b ∈ H.live) (hx : x ∈ H.used c) :
    (x = b.ptr ∧ InClass b.size c) ∨ x ∈ (H.dropLarge b).used c := by
  have hx' := (used_erase hb c).mem_iff.1 hx
  split at hx'
  next hc => exact (List.mem_cons.1 hx').imp_left fun he => ⟨he, hc⟩
  next => exact .inr hx'

theorem Busy.free (h : Busy H) (hwf : HeapWf D H) (hb : b ∈ H.live) (hf : H.Free b H') : Busy H' := by
  cases hf with
  | @put c hc hother =>
      intro c' a' ha'
      obtain ⟨p', hp', hpage⟩ := h c' a' ha'
      rcases used_cases hb hp' with ⟨rfl, hc'⟩ | hkept
      · obtain rfl := hc.unique hc'
        obtain ⟨q, hq, hsame⟩ := hother
        exact ⟨q, hq, hsame.trans hpage⟩
      · exact ⟨p', hkept, hpage⟩
  | @giveUp c hc hlast =>
      intro c' a' ha'
      obtain ⟨a, ha, -, hback, hpage⟩ := block_arena hwf hb hc
      rw [hback] at ha'
      change a' ∈ update H.pages c ((H.pages c).erase a) c' at ha'
      have hkeep : a' ∈ H.pages c' → a' ≠ a → ∃ p ∈ (H.dropLarge b).used c', vpage p = vpage a' := by
        intro hold hne
        obtain ⟨p', hp', hpage'⟩ := h c' a' hold
        rcases used_cases hb hp' with ⟨rfl, hc'⟩ | hkept
        · obtain rfl := hc.unique hc'
          exact absurd (hwf.arena_unique hold ha (hpage'.symm.trans hpage)).2 hne
        · exact ⟨p', hkept, hpage'⟩
      by_cases he : c' = c
      · subst he
        rw [update_self] at ha'
        obtain ⟨hne, hold⟩ := (List.Nodup.of_map _ (hwf.pages_nodup c')).mem_erase_iff.1 ha'
        exact hkeep hold hne
      · rw [update_of_ne he] at ha'
        refine hkeep ha' ?_
        rintro rfl
        exact he (hwf.arena_unique ha' ha rfl).1
  | large hlarge =>
      intro c' a' ha'
      obtain ⟨p', hp', hpage⟩ := h c' a' ha'
      refine ⟨p', (used_cases hb hp').resolve_left fun hsmall => hlarge.not_inClass c' hsmall.2, hpage⟩

/-- There is one outcome of a free. -/
theorem Arenas.Free.unique (h : H.Free b H') (h' : H.Free b H'') : H' = H'' := by
  cases h with
  | put hc hother =>
      cases h' with
      | put hc' _ => rw [hc.unique hc']
      | giveUp hc' hlast =>
          obtain rfl := hc.unique hc'
          obtain ⟨q, hq, hsame⟩ := hother
          exact absurd hsame (hlast q hq)
      | large hb => exact absurd hc (hb.not_inClass _)
  | giveUp hc hlast =>
      cases h' with
      | put hc' hother =>
          obtain rfl := hc.unique hc'
          obtain ⟨q, hq, hsame⟩ := hother
          exact absurd hsame (hlast q hq)
      | giveUp hc' _ => rw [hc.unique hc']
      | large hb => exact absurd hc (hb.not_inClass _)
  | large hb =>
      cases h' with
      | put hc _ => exact absurd hc (hb.not_inClass _)
      | giveUp hc _ => exact absurd hc (hb.not_inClass _)
      | large _ => rfl

theorem Arenas.Free.exists (H : Arenas) (b : Alloc) : ∃ H', H.Free b H' := by
  rcases b.small_or_large with ⟨c, hc⟩ | hlarge
  · by_cases hother : ∃ p ∈ (H.put c b).used c, vpage p = vpage b.ptr
    · exact ⟨_, .put hc hother⟩
    · exact ⟨_, .giveUp hc fun p hp he => hother ⟨p, hp, he⟩⟩
  · exact ⟨_, .large hlarge⟩

/-- A heap with the same arenas and allocations, and the same blocks on each free list. -/
structure SameHeap (H H' : Arenas) : Prop where
  pages : H'.pages = H.pages
  free : ∀ c, (H'.free c).Perm (H.free c)
  live : H'.live = H.live

theorem diff_self_nil (l : List Word) : l.diff l = [] := by
  induction l with
  | nil => rfl
  | cons x l ih => rw [List.diff_cons, List.erase_cons_head, ih]

/-- A free right after the allocation undoes it. -/
theorem Arenas.Malloc.undo (hm : H.Malloc D size p H') (hf : H'.Free ⟨p, size⟩ H'') (hwf : HeapWf D H)
    (hbusy : Busy H) :
    SameHeap H H'' := by
  have hwf' := hwf.malloc hm
  have hlive : H''.live = H.live := by
    rw [hf.live, hm.live]
    exact List.erase_cons_head _ _
  have hused : ∀ c, Arenas.used H'' c = H.used c := by
    intro c
    unfold Arenas.used
    rw [hlive]
  cases hm with
  | @reuse c p rest hc hfree =>
      cases hf with
      | @put c' hc' hother =>
          obtain rfl := hc.unique hc'
          refine ⟨rfl, fun c' => ?_, hlive⟩
          change (update (update H.free c (H.free c).tail) c (update H.free c (H.free c).tail c ++ [p]) c').Perm _
          rw [update_idem, update_self, hfree]
          by_cases he : c' = c
          · subst he
            rw [update_self, hfree]
            exact List.perm_append_singleton p rest
          · rw [update_of_ne he]
      | @giveUp c' hc' hlast =>
          obtain rfl := hc.unique hc'
          have hpf : p ∈ H.free c := by
            rw [hfree]
            exact List.mem_cons_self
          obtain ⟨a, ha, hblock⟩ := hwf.mem_free hpf
          obtain ⟨q, hq, hpage⟩ := hbusy c a ha
          rw [← hused c] at hq
          exact absurd (hpage.trans (hwf.inArena ha hblock).page.symm) (hlast q hq)
      | large hb => exact absurd hc (hb.not_inClass _)
  | @fresh c a hc hfree haligned hnew hfar =>
      have hin := inArena haligned (first_block a c)
      cases hf with
      | @put c' hc' hother =>
          obtain rfl := hc.unique hc'
          obtain ⟨q, hq, hpage⟩ := hother
          have hq' : q ∈ H.used c := (hused c) ▸ hq
          obtain ⟨a', ha', hblock⟩ := hwf.mem_used hq'
          refine absurd (mem_allPages.2 (.inl ⟨c, a', ha', ?_⟩)) hnew
          exact ((hwf.inArena ha' hblock).page.symm.trans hpage).trans hin.page
      | @giveUp c' hc' hlast =>
          obtain rfl := hc.unique hc'
          obtain ⟨rest, hrest⟩ := blocks_cons a c
          have hback : block2arena (blockAt a c 0) = a := block2arena_eq haligned hin
          refine ⟨?_, fun c' => ?_, hlive⟩
          · change update (update H.pages c (a :: H.pages c)) c ((update H.pages c (a :: H.pages c) c).erase
              (block2arena (blockAt a c 0))) = H.pages
            rw [hback, update_idem, update_self, List.erase_cons_head, update_eq_self]
          · change (update (update (update (update H.free c (blocks c a)) c _) c _) c _ c').Perm _
            rw [update_idem, update_idem, update_idem]
            by_cases he : c' = c
            · subst he
              rw [update_self, hfree, hback, List.perm_nil]
              change List.diff (update (update (update H.free c' (blocks c' a)) c'
                (update H.free c' (blocks c' a) c').tail) c' (update (update H.free c' (blocks c' a)) c'
                (update H.free c' (blocks c' a) c').tail c' ++ [blockAt a c' 0]) c') (blocks c' a) = []
              rw [update_self, update_self, update_self, hrest, List.tail_cons]
              have hperm : (rest ++ [blockAt a c' 0]).Perm (blockAt a c' 0 :: rest) := List.perm_append_singleton _ _
              have hdiff := hperm.diff_right (blockAt a c' 0 :: rest)
              rw [diff_self_nil, List.perm_nil] at hdiff
              exact hdiff
            · rw [update_of_ne he]
      | large hb => exact absurd hc (hb.not_inClass _)
  | large hsize haligned hnew hfar =>
      cases hf with
      | put hc _ => exact absurd hc.small (Nat.not_le.2 hsize)
      | giveUp hc _ => exact absurd hc.small (Nat.not_le.2 hsize)
      | large _ => exact ⟨rfl, fun _ => List.Perm.refl _, hlive⟩

/-- Without live allocations there is no page left. -/
theorem Busy.no_leak (h : Busy H) (hlive : H.live = []) : H.allPages = [] := by
  rw [List.eq_nil_iff_forall_not_mem]
  intro n hn
  rcases mem_allPages.1 hn with ⟨c, a, ha, -⟩ | ⟨b, hb, -⟩
  · obtain ⟨p, hp, -⟩ := h c a ha
    unfold Arenas.used at hp
    rw [hlive] at hp
    exact absurd hp List.not_mem_nil
  · unfold Arenas.large at hb
    rw [hlive] at hb
    exact absurd hb List.not_mem_nil

end HoloOS
