import HoloOS.HeapMalloc

/-! `sysFree` on the heap of the running thread, for a pointer that is live. A block goes back to the free list of its
class, and the last live block of an arena gives the page back; a large allocation gives its pages back. -/

namespace HoloOS

open Function Paging

variable {s s₁ s' : Memory} {dir : Space → Nat} {D K a v : Word} {c : Fin 7} {H H' : Arenas} {b : Alloc}
  {pf : PoolFlags}
  {n : Nat} {live : List Alloc} {W : Word → Word}

/-- A heap of which less is asked, with the same words. -/
theorem HeapAt.of_sub (hh : HeapAt s dir s.space D H) (hwf : HeapWf D H')
    (hwords : ∀ cnt, HeapRepr (word s dir s.space) D H cnt → Counts H cnt →
      HeapRepr (word s dir s.space) D H' cnt ∧ Counts H' cnt)
    (hpages : ∀ n ∈ H'.allPages, n ∈ H.allPages) : HeapAt s dir s.space D H' where
  wf := hwf
  words := by
    obtain ⟨cnt, hr, hcount⟩ := hh.words
    exact ⟨cnt, hwords cnt hr hcount⟩
  mounted := ⟨hh.mounted.1, fun v hv => hh.mounted.2 v (hv.imp_right (hpages _))⟩
  pages n hn := hh.pages n (hpages n hn)

/-- Pages that no other part of the heap lies in are given back. -/
theorem HeapAt.giveBack (h : Spaces s dir) (hh : HeapAt s dir s.space D H) (hw : Wrote s s₁ dir W)
    (hh₁ : HeapAt s₁ dir s₁.space D H') (hpf : pf = s.space.flag) (haligned : PageAligned a) (hn : 0 < n)
    (hpages : H.allPages.Perm ((List.range n).map (vpage a + ·) ++ H'.allPages)) (hlive : ∀ b ∈ live, b ∈ H'.live)
    (hsame : ∀ v, Spared D H live v → W v = word s dir s.space v) :
    ∃ s', mfreePage pf a n s₁ = .ok s' ∧ HeapStep s s' dir D H H' live := by
  have h₁ := hw.spaces h
  have hspace : s₁.space = s.space := hw.pokes.space
  rw [hspace] at hh₁
  have hrange : ∀ k, vpage a ≤ k → k < vpage a + n → k ∈ (List.range n).map (vpage a + ·) := fun k hle hlt =>
    List.mem_map.2 ⟨k - vpage a, List.mem_range.2 (by omega), by omega⟩
  have hold : ∀ k, vpage a ≤ k → k < vpage a + n → k ∈ H.allPages := fun k hle hlt =>
    hpages.mem_iff.2 (List.mem_append_left _ (hrange k hle hlt))
  have hout : ∀ k ∈ H'.allPages, ¬(vpage a ≤ k ∧ k < vpage a + n) := by
    rintro k hk ⟨hle, hlt⟩
    have hnodup := hpages.nodup_iff.1 hh.wf.nodup
    exact (List.nodup_append.1 hnodup).2.2 k (hrange k hle hlt) k hk rfl
  have hfree : ∀ k < n, Freeable s₁ dir (vpage a + k) := by
    intro k hk
    have hdata := hh.dataPage h (hold (vpage a + k) (by omega) (by omega))
    obtain ⟨hheap, f, hf, hframe⟩ := hdata
    refine DataPage.freeable h₁.toTables ⟨?_, f, ?_, (hw.pokes.dataFrame_iff h.toTables).2 hframe⟩
    · rw [hspace]
      exact (hw.pokes.valid (.page s.space (vpage a + k))).2 hheap
    · rw [hspace, ← hf]
      exact hw.pokes.frame h.toTables (o := .page s.space (vpage a + k)) hheap
  have hfirst : s₁.space.first ≤ vpage a := by
    rw [hspace]
    exact (hh.pages _ (hold (vpage a) (Nat.le_refl _) (by omega))).1
  have hpf₁ : pf = s₁.space.flag := by
    rw [hspace]
    exact hpf
  obtain ⟨s₂, s', hcall, ht, hs, hm⟩ := h₁.mfreePage hpf₁ haligned hn hfirst hfree
  obtain ⟨hspaces, hkeep⟩ := hs.words hm h₁ ht fun u hu => h₁.mfreePage_kept hpf₁ haligned hn hfree hcall hu
  have hfreed : PageStep s₁ s' dir (fun k => vpage a ≤ k ∧ k < vpage a + n) fun _ => False := by
    refine hs.pageStep hm h₁.toTables hspaces (mfreePage_sizes hcall) (fun k hle hlt => ?_)
      (h₁.mfreePage_used hpf₁ haligned hn hfree hcall)
    have hheap := (hfree (k - vpage a) (by omega)).heap
    rw [show vpage a + (k - vpage a) = k by omega] at hheap
    exact hheap
  rw [hspace] at hkeep
  have hkept : ∀ v, Zone D H' v → ¬(home s.space v = s.space ∧ vpage a ≤ vpage v ∧ vpage v < vpage a + n) := by
    rintro v (hdesc | hpage) ⟨-, hle, hlt⟩
    · have hfar := hh.wf.far _ (hold _ hle hlt)
      unfold Far vpage at hfar
      omega
    · exact hout _ hpage ⟨hle, hlt⟩
  refine ⟨s', hcall, ⟨?_, ?_, ?_, ?_, fun k hk hno => absurd (hpages.mem_iff.2 (List.mem_append_right _ hk)) hno⟩⟩
  · refine ((hw.pokes.pageStep h).trans hfreed).congr (fun k => ?_) fun k => ?_
    · rw [hpages.mem_iff, List.mem_append]
      constructor
      · rintro (hfalse | hin)
        · exact hfalse.elim
        · exact ⟨.inl (hrange k hin.1 hin.2), fun hk => hout k hk hin⟩
      · rintro ⟨hk | hk, hno⟩
        · obtain ⟨i, hi, rfl⟩ := List.mem_map.1 hk
          have := List.mem_range.1 hi
          exact .inr (by omega)
        · exact absurd hk hno
    · rw [hpages.mem_iff, List.mem_append]
      tauto
  · rw [hm.holder, hs.task.2.2.2, hw.pokes.same]
  · refine hh₁.kept (fun v hv hacc => hkeep _ v (hkept v hv) (hspace ▸ s₁.space_exists) hacc)
      fun k hk hheap hbit => ?_
    refine ⟨hfreed.shape.heap_iff.2 hheap, ?_⟩
    have hiff := hfreed.bit k
    rw [hspace] at hiff
    exact hiff.2 (.inr ⟨hbit, hout k hk⟩)
  · refine KeepsWords.trans (hw.keeps h hsame) ?_ hw.pokes.shape
    intro sp v hv hsp hacc
    refine hkeep sp v ?_ hsp hacc
    rintro ⟨hhome, hle, hlt⟩
    have hheap := (hh.pages _ (hold _ hle hlt)).2.1
    rcases hv (hhome.trans (home_of_heap hheap).symm) with hzone | ⟨b, hb, hholds⟩
    · exact hzone (.inr (hold _ hle hlt))
    · exact hout _ (hh₁.wf.holds_page (hlive b hb) hholds) ⟨hle, hlt⟩

/-- The blocks lie in the same pages when one is put back. -/
theorem allPages_put (hb : b ∈ H.live) (hc : InClass b.size c) : (H.put c b).allPages.Perm H.allPages := by
  have hlarge := large_erase hb
  rw [if_neg (InClass.not_large hc)] at hlarge
  exact allPages_perm rfl hlarge.symm

theorem zone_congr (hpages : ∀ n, n ∈ H'.allPages ↔ n ∈ H.allPages) : Zone D H' v ↔ Zone D H v := by
  unfold Zone
  rw [hpages]

theorem spared_congr (hpages : ∀ n, n ∈ H'.allPages ↔ n ∈ H.allPages) : Spared D H' live v ↔ Spared D H live v := by
  unfold Spared
  rw [zone_congr hpages]

/-- An arena with a live block has room on the free list. -/
theorem HeapWf.count_lt (hwf : HeapWf D H) (hb : b ∈ H.live) (hc : InClass b.size c) (ha : a ∈ H.pages c)
    (hpage : vpage b.ptr = vpage a) : freeIn a (H.free c) < blocksPerArena c := by
  have hcount := hwf.count ha
  have hpos : 0 < freeIn a (H.used c) :=
    List.countP_pos_iff.2 ⟨b.ptr, mem_used_of_live hb hc, decide_eq_true hpage⟩
  omega

section Back

variable (h : Spaces s dir) (hh : HeapAt s dir s.space D H) (hpf : pf = s.space.flag) (hb : b ∈ H.live)
include h hh hpf hb

/-- The case of a block. -/
theorem HeapAt.blockFree (hc : InClass b.size c) : ∃ s' H', HoloOS.blockFree pf (block2arena b.ptr) b.ptr s = .ok s' ∧
    H.Free b H' ∧ HeapStep s s' dir D H H' (H.live.erase b) := by
  obtain ⟨a, ha, hblock, hback, hpage⟩ := block_arena hh.wf hb hc
  obtain ⟨cnt, hr, hcount⟩ := hh.words
  have hlt := hh.wf.count_lt hb hc ha hpage
  rw [← hcount c a ha] at hlt
  obtain ⟨s₁, W, hw, hcall, hr₁, hframe⟩ :=
    (Wrote.refl s dir).putBlock h hh.mounted pf hh.wf hr hb hc ha hblock rfl hlt
  have hput := hh.wf.put hb hc
  have hcount₁ := hcount.put hh.wf.toPlaced ha hpage rfl (b := b)
  have hperm := allPages_put hb hc
  have hmem : ∀ n, n ∈ (H.put c b).allPages ↔ n ∈ H.allPages := fun n => hperm.mem_iff
  have hmount : Mounted s dir s.space D (H.put c b) :=
    ⟨hh.mounted.1, fun v hv => hh.mounted.2 v ((zone_congr hmem).1 hv)⟩
  have hmanaged : ∀ v, Spared D H (H.live.erase b) v → ¬Managed D (H.put c b) v := fun v hv =>
    hput.spared (fun _ hb => hb) ((spared_congr hmem).2 hv)
  rw [hback, hcall]
  by_cases hfull : cnt a + 1 = blocksPerArena c
  · rw [if_pos hfull]
    have hall : freeIn a ((H.put c b).free c) = blocksPerArena c := by
      rw [← hcount₁ c a ha, update_self, hfull]
    have hlast := (hput.full_iff ha).1 hall
    have hblocks := hh.wf.put_full hb hc ha hpage fun p hp he => hlast p hp (he.trans hpage)
    have hstart : (H.put c b).free c = ((H.put c b).free c).diff ((List.range 0).map (blockAt a c)) := rfl
    obtain ⟨s₂, W₂, hunlink, hw₂, hr₂, hframe₂⟩ := hw.unlinkArena h hmount hput.toPlaced hr₁ ha
      (List.nodup_append.1 (hput.nodup_all c)).1 hblocks (blocksPerArena c) 0 (Nat.zero_add _) hstart (2 ^ 32)
      (by have := (blocksPerArena_bounds c).2; omega)
    rw [update_eq_self] at hframe₂
    have hgive := hput.giveUp ha hblocks
    have hpages := HeapWf.giveUp_pages (H := H.put c b) ha
    have hheap := HeapAt.wrote h hw₂ hgive (hr₂.giveUp hput) (hcount₁.giveUp hput ha hblocks)
      ⟨hh.mounted.1, fun v hv => hmount.2 v (hv.imp_right fun hn => hpages.mem_iff.2 (List.mem_cons_of_mem _ hn))⟩
      fun n hn => hh.pages n (hperm.mem_iff.1 (hpages.mem_iff.2 (List.mem_cons_of_mem _ hn)))
    rw [← hw₂.pokes.space] at hheap
    obtain ⟨s', hfree, hstep⟩ := hh.giveBack h hw₂ hheap hpf (hh.wf.aligned c a ha) Nat.one_pos
      (hperm.symm.trans hpages) (fun (_ : Alloc) (hb : _ ∈ H.live.erase b) => hb)
      fun v hv => (hframe₂ v (hmanaged v hv)).trans (hframe v (hmanaged v hv))
    refine ⟨s', (H.put c b).giveUp c (block2arena b.ptr), ?_, .giveUp hc fun p hp he => hlast p hp (he.trans hpage),
      ?_⟩
    · rw [show (0 : Word) = BitVec.ofNat 32 0 from rfl, hunlink, ok_bind]
      exact hfree
    · rw [hback]
      exact hstep
  · rw [if_neg hfull]
    have hother : ∃ p ∈ (H.put c b).used c, vpage p = vpage b.ptr := by
      by_contra hno
      refine hfull ?_
      have hall := (hput.full_iff ha).2 fun p hp he => hno ⟨p, hp, he.trans hpage.symm⟩
      rw [← hall, ← hcount₁ c a ha, update_self]
    refine ⟨s₁, H.put c b, rfl, .put hc hother,
      ⟨?_, by rw [hw.pokes.same], ?_, ?_, fun n hn hno => absurd ((hmem n).1 hn) hno⟩⟩
    · refine (hw.pokes.pageStep h).congr (fun n => ?_) fun n => ?_ <;> rw [hmem] <;> tauto
    · exact HeapAt.wrote h hw hput hr₁ hcount₁ hmount fun n hn => hh.pages n (hperm.mem_iff.1 hn)
    · exact hw.keeps h fun v hv => hframe v (hmanaged v hv)

/-- The case of an allocation with pages of its own. -/
theorem HeapAt.pagesFree (hlarge : b.Large) :
    ∃ s', mfreePage pf (block2arena b.ptr) (pageCount b.size) s = .ok s' ∧
      HeapStep s s' dir D H (H.dropLarge b) (H.live.erase b) := by
  have hpages := allPages_dropLarge hb hlarge
  rw [Alloc.pages, ← vpage_block2arena] at hpages
  have hheap : HeapAt s dir s.space D (H.dropLarge b) := by
    refine hh.of_sub (hh.wf.dropLarge hb hlarge) (fun cnt hr hcount => ⟨hr.mono rfl rfl ?_, hcount⟩) fun n hn => ?_
    · intro b' hb'
      obtain ⟨hmem, hlarge'⟩ := List.mem_filter.1 hb'
      exact List.mem_filter.2 ⟨List.mem_of_mem_erase hmem, hlarge'⟩
    · exact hpages.mem_iff.2 (List.mem_append_right _ hn)
  exact hh.giveBack h (Wrote.refl s dir) hheap hpf (pageAligned_block2arena _) (pageCount_pos _) hpages
    (fun _ hb => hb)
    fun _ _ => rfl

omit hpf in
/-- What the call reads from the header. -/
theorem HeapAt.header : ∃ desc large, s.loadByte (block2arena b.ptr + 8) = .ok large ∧
    s.load (block2arena b.ptr) = .ok desc ∧ (large = 0 ∨ large = 1) ∧ (desc = 0 ∧ large = 1 ↔ b.Large) ∧
    (b.Large → s.load (block2arena b.ptr + 4) = .ok (BitVec.ofNat 32 (pageCount b.size))) := by
  obtain ⟨cnt, hr, -⟩ := hh.words
  rcases b.small_or_large with ⟨c, hc⟩ | hlarge
  · obtain ⟨a, ha, -, hback, -⟩ := block_arena hh.wf hb hc
    have hacc := hh.mounted.header (hh.wf.aligned c a ha) (mem_allPages_arena ha)
    have hheader := hr.arenas c a ha
    rw [hback]
    refine ⟨descAt D c, 0, ?_, ?_, .inl rfl, ?_, ?_⟩
    · rw [Writable.loadByte h hacc.large, hheader.large]
      rfl
    · rw [Writable.load h hacc.desc, hheader.desc]
    · exact iff_of_false (fun hb => absurd hb.2 (by decide)) (InClass.not_large hc)
    · exact fun hlarge => absurd hlarge (InClass.not_large hc)
  · have hmem := mem_large_of_live hb hlarge
    have hpage : vpage (block2arena b.ptr) ∈ H.allPages := by
      rw [vpage_block2arena]
      exact List.mem_append_right _ (List.mem_flatMap.2 ⟨b, hmem, mem_large_pages b⟩)
    have hacc := hh.mounted.header (pageAligned_block2arena b.ptr) hpage
    have hheader := hr.large b hmem
    refine ⟨0, 1, ?_, ?_, .inr rfl, ?_, fun _ => ?_⟩
    · rw [Writable.loadByte h hacc.large, hheader.large]
      rfl
    · rw [Writable.load h hacc.desc, hheader.desc]
    · exact iff_of_true ⟨rfl, rfl⟩ hlarge
    · rw [Writable.load h hacc.cnt, hheader.cnt]

omit hpf h in
/-- The `ASSERT`s on the pointer hold. -/
theorem HeapAt.ptr_assert : b.ptr ≠ 0 ∧ (s.space.flag = .user ∨ 0xc0100000#32 ≤ b.ptr) := by
  have hpage : vpage b.ptr ∈ H.allPages := by
    rcases b.small_or_large with ⟨c, hc⟩ | hlarge
    · obtain ⟨a, ha, -, -, hpage⟩ := block_arena hh.wf hb hc
      rw [hpage]
      exact mem_allPages_arena ha
    · exact List.mem_append_right _ (List.mem_flatMap.2 ⟨b, mem_large_of_live hb hlarge, mem_large_pages b⟩)
  have hfirst := (hh.pages _ hpage).1
  unfold vpage at hfirst
  cases hsp : s.space with
  | kernel =>
      rw [hsp, Space.first] at hfirst
      have hword : (0xc0100000#32).toNat = 0xc0100000 := rfl
      refine ⟨?_, .inr (BitVec.le_def.2 (by omega))⟩
      rintro he
      rw [he] at hfirst
      exact absurd hfirst (by decide)
  | process t =>
      rw [hsp, Space.first] at hfirst
      refine ⟨?_, .inl rfl⟩
      rintro he
      rw [he] at hfirst
      exact absurd hfirst (by decide)

end Back

/-- Every call of `sysFree` on a live pointer returns. -/
theorem HeapAt.sysFree (h : Spaces s dir) (hh : HeapAt s dir s.space D H) (hfree : s.holder s.space.flag = none)
    (hb : b ∈ H.live) : ∃ s' H', HoloOS.sysFree b.ptr s = .ok s' ∧ H.Free b H' ∧
      HeapStep s s' dir D H H' (H.live.erase b) := by
  have hl : Spaces (s.locked s.space.flag) dir := h.withHolder _
  have hhl : HeapAt (s.locked s.space.flag) dir (s.locked s.space.flag).space D H := hh.withHolder _
  have hpf : s.space.flag = (s.locked s.space.flag).space.flag := rfl
  obtain ⟨hne, hkernel⟩ := hh.ptr_assert hb
  obtain ⟨desc, large, hbyte, hdesc, hflag, hiff, hcnt⟩ := hhl.header hl hb
  rw [HoloOS.sysFree, massert_bind (decide_eq_true hne)]
  dsimp only
  rw [threadPool_eq, massert_bind (decide_eq_true hkernel), lockAcquire_free hfree, ok_bind, hbyte, ok_bind,
    massert_bind (decide_eq_true hflag), hdesc, ok_bind]
  by_cases hlarge : b.Large
  · obtain ⟨s₁, hcall, hstep⟩ := hhl.pagesFree hl hpf hb hlarge
    obtain ⟨s', hrelease, hstep', -⟩ := hstep.unlock h hfree
    have hnat : (BitVec.ofNat 32 (pageCount b.size)).toNat = pageCount b.size := by
      rw [BitVec.toNat_ofNat, Nat.mod_eq_of_lt (pageCount_lt _)]
    refine ⟨s', H.dropLarge b, ?_, .large hlarge, hstep'⟩
    rw [if_pos (hiff.2 hlarge), hcnt hlarge, ok_bind, hnat, hcall, ok_bind, hrelease]
  · obtain ⟨c, hc⟩ := b.small_or_large.resolve_right hlarge
    obtain ⟨s₁, H', hcall, hmove, hstep⟩ := hhl.blockFree hl hpf hb hc
    obtain ⟨s', hrelease, hstep', -⟩ := hstep.unlock h hfree
    refine ⟨s', H', ?_, hmove, hstep'⟩
    rw [if_neg fun he => hlarge (hiff.1 he), hcall, ok_bind, hrelease]

end HoloOS
