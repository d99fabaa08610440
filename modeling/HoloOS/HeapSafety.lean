import HoloOS.HeapBoot
import HoloOS.HeapCache
import HoloOS.MemoryPacked

/-! What threads can rely on. The states are those that a machine reaches after `memInit`, with threads and
processes that allocate, write, free, create others and switch in any order, as long as page tables find their frames
and no page is mapped of which a translation is still cached. -/

namespace HoloOS

open Function Paging

variable {m : Mem} {memCapacity : Word} {K p size v : Word} {x x₀ x' : Heaps} {s s' : Memory} {dir : Space → Nat}
  {sp sp' : Space} {arenas : Space → Arenas} {D : Word} {H H' : Arenas} {b b' : Alloc} {n : Nat}

/-- The states that runs reach after `memInit`. -/
def HeapsReached (K : Word) (m : Mem) (memCapacity : Word) (x : Heaps) : Prop :=
  ∃ s, blockDescInit K (Memory.boot m memCapacity) = .ok s ∧
    HeapsRun K (fun _ _ => True) ⟨s, fun _ => [], [mainTask]⟩ x

/-- Every space of a reached state has its heap. -/
theorem HeapsReached.heaps (hx : HeapsReached K m memCapacity x) (hm : Loaded m) (hK : KernelDescs K) :
    ∃ dir arenas, HeapsInv K x dir arenas := by
  obtain ⟨s, hinit, hrun⟩ := hx
  obtain ⟨s₀, hinit₀, h⟩ := heaps_boot hm memCapacity hK
  rw [hinit] at hinit₀
  cases hinit₀
  exact h.run hrun

/-- What the CPU has cached in a reached state is what the page tables say. -/
theorem HeapsReached.current (hx : HeapsReached K m memCapacity x) (hm : Loaded m) (hK : KernelDescs K) :
    Current x.s := by
  obtain ⟨s, hinit, hrun⟩ := hx
  obtain ⟨s₀, hinit₀, h⟩ := heaps_boot hm memCapacity hK
  rw [hinit] at hinit₀
  cases hinit₀
  obtain ⟨m', rfl⟩ := blockDescLoop_mem hinit
  refine h.run_current ?_ hrun
  intro n f g _ hcached
  cases hcached

theorem HeapsReached.step {e : HeapEvent} (hx : HeapsReached K m memCapacity x) (hsound : e.Sound K x)
    (hstep : HeapsStep K x e x') : HeapsReached K m memCapacity x' := by
  obtain ⟨s, hinit, hrun⟩ := hx
  exact ⟨s, hinit, hrun.tail ⟨e, hsound, trivial, hstep⟩⟩

/-- The zeroed machine, and a place for the descriptors. -/
theorem loaded_zero : Loaded (pageSetup fun _ => 0) := ⟨fun _ => 0, fun _ _ _ => rfl⟩

theorem kernelDescs_first : KernelDescs 0xc0010000 := ⟨by decide, by decide, by decide⟩

/-- The main thread of a machine with 32 MB before and after its first request, with nothing cached. -/
theorem first_reached : ∃ s p s',
    HeapsReached 0xc0010000 (pageSetup fun _ => 0) 0x2000000 ⟨s, fun _ => [], [mainTask]⟩ ∧
    HeapsReached 0xc0010000 (pageSetup fun _ => 0) 0x2000000
      ⟨s', update (fun _ => []) .kernel [⟨p, 16⟩], [mainTask]⟩ ∧ s.space = .kernel ∧ s'.space = .kernel ∧
    (∀ size : Word, size.toNat ≤ 1024 →
      HeapEvent.Sound 0xc0010000 (.sysMalloc size) ⟨s, fun _ => [], [mainTask]⟩) ∧
    sysMalloc 0xc0010000 16 s = .ok (some p, s') ∧ ∀ n, s'.tlb n = none := by
  obtain ⟨s, p, s', hinit, hspace, hfits, hcall⟩ := first_malloc
  have hx : HeapsReached 0xc0010000 (pageSetup fun _ => 0) 0x2000000 ⟨s, fun _ => [], [mainTask]⟩ := ⟨s, hinit, .refl⟩
  obtain ⟨dir, arenas, h⟩ := hx.heaps loaded_zero kernelDescs_first
  have htlb : ∀ n, s.tlb n = none := by
    obtain ⟨m', rfl⟩ := blockDescLoop_mem hinit
    exact fun _ => rfl
  have hsmall : ∀ size : Word, size.toNat ≤ 1024 → HeapFits 0xc0010000 size (s.locked s.space.flag) :=
    fun size hsize => HeapFits.small hfits hsize
  have hsound := fun size hsize => h.sound_of_empty (e := .sysMalloc size) htlb trivial (hsmall size hsize)
  have hstep₁ := HeapsStep.sysMalloc (x := ⟨s, fun _ => [], [mainTask]⟩) hcall
  have hx' := hx.step (hsound 16 (by decide)).1 hstep₁
  have hout := h.malloc_outcome (hsmall 16 (by decide))
  rw [show sysMalloc _ _ _ = _ from hcall] at hout
  cases hout with
  | served _ _ _ hstep =>
      have hspace' := hstep.pages.shape.space
      change HeapsReached _ _ _ ⟨s', update (fun _ => []) s.space [⟨p, 16⟩], [mainTask]⟩ at hx'
      rw [hspace] at hx'
      exact ⟨s, p, s', hx, hx', hspace, hspace'.trans hspace, fun size hsize => (hsound size hsize).1, hcall,
        (hsound 16 (by decide)).2 _ hstep₁⟩

theorem Alloc.holds_ptr (hsize : 0 < size.toNat) : Alloc.Holds ⟨p, size⟩ p :=
  ⟨Nat.le_refl _, Nat.lt_add_of_pos_right hsize⟩

/-- A byte of a word that can be written. -/
theorem Writable.loadByte_in {u : Word} (h : Spaces s dir) (hu : Writable s dir u) (hle : u.toNat ≤ v.toNat)
    (hlt : v.toNat < u.toNat + 4) :
    s.loadByte v = .ok ((word s dir s.space u).extractLsb' (8 * (v.toNat - u.toNat)) 8) := by
  obtain ⟨a, ha, -⟩ := hu.reach
  have haligned := hu.cell.aligned
  have hpage : vpage v = vpage u := by
    unfold vpage
    omega
  obtain ⟨f, hf, rfl⟩ := place_eq_some.1 ha
  have hwalk := walk_in_page ((hu.walk h).trans ha) hle hpage
  rw [Memory.loadByte, phys_eq hwalk, word_of_place hu.cell ha, read_byte _ _ (by omega)]
  rfl

/-- An allocation lies in its pages. -/
theorem HeapWf.span (h : HeapWf D H) (hb : b ∈ H.live) :
    b.ptr.toNat % 4096 + b.size.toNat ≤ pageCount b.size * 4096 := by
  rcases b.small_or_large with ⟨c, hc⟩ | hlarge
  · obtain ⟨a, ha, hblock, -, -⟩ := block_arena h hb hc
    have hhigh := (h.inArena ha hblock).high
    have hsize := hc.1
    have hpos := pageCount_pos b.size
    omega
  · have hmod := h.large b (mem_large_of_live hb hlarge)
    unfold pageCount
    omega

theorem InClass.one_page {c : Fin 7} (hc : InClass size c) : pageCount size = 1 := by
  have hsmall := Nat.not_lt.1 (InClass.not_large (b := ⟨0, size⟩) hc)
  unfold pageCount
  dsimp only at hsmall
  omega

theorem mem_pages : n ∈ b.pages ↔ vpage b.ptr ≤ n ∧ n < vpage b.ptr + pageCount b.size := by
  unfold Alloc.pages
  rw [List.mem_map]
  constructor
  · rintro ⟨k, hk, rfl⟩
    exact ⟨Nat.le_add_right _ _, Nat.add_lt_add_left (List.mem_range.1 hk) _⟩
  · rintro ⟨hle, hlt⟩
    exact ⟨n - vpage b.ptr, List.mem_range.2 (by omega), by omega⟩

/-- The pages of a heap are those of its allocations. -/
theorem Busy.mem_allPages (hbusy : Busy H) (h : HeapWf D H) : n ∈ H.allPages ↔ ∃ b ∈ H.live, n ∈ b.pages := by
  rw [HoloOS.mem_allPages]
  constructor
  · rintro (⟨c, a, ha, rfl⟩ | ⟨b, hb, hn⟩)
    · obtain ⟨p, hp, hpage⟩ := hbusy c a ha
      obtain ⟨b, hb, rfl⟩ := List.mem_map.1 hp
      obtain ⟨hlive, hc⟩ := List.mem_filter.1 hb
      exact ⟨b, hlive, mem_pages.2 ⟨Nat.le_of_eq hpage, by rw [(of_decide_eq_true hc).one_page]; omega⟩⟩
    · exact ⟨b, (List.mem_filter.1 hb).1, mem_pages.2 hn⟩
  · rintro ⟨b, hb, hn⟩
    rcases b.small_or_large with ⟨c, hc⟩ | hlarge
    · obtain ⟨a, ha, -, -, hpage⟩ := block_arena h hb hc
      rw [mem_pages, hc.one_page] at hn
      exact .inl ⟨c, a, ha, by omega⟩
    · exact .inr ⟨b, mem_large_of_live hb hlarge, mem_pages.1 hn⟩

/-- An allocation ends below the end of the address space. -/
theorem HeapAt.fits (h : Spaces s dir) (hh : HeapAt s dir sp D H) (hbusy : Busy H) (hb : b ∈ H.live) :
    b.ptr ≠ 0 ∧ b.ptr.toNat + b.size.toNat < 2 ^ 32 := by
  have hspan := hh.wf.span hb
  have hpos := pageCount_pos b.size
  have hpage : ∀ n ∈ b.pages, 0 < n ∧ n + 1 < 2 ^ 20 := by
    intro n hn
    obtain ⟨hfirst, hheap, -⟩ := hh.pages n ((hbusy.mem_allPages hh.wf).2 ⟨b, hb, hn⟩)
    refine ⟨Nat.lt_of_lt_of_le ?_ hfirst, hheap.lt h.toLayout⟩
    cases sp <;> simp [Space.first]
  have hfirst := (hpage _ (mem_pages.2 ⟨Nat.le_refl _, by omega⟩)).1
  have hlast := (hpage (vpage b.ptr + (pageCount b.size - 1)) (mem_pages.2 ⟨by omega, by omega⟩)).2
  unfold vpage at hfirst hlast
  refine ⟨?_, by omega⟩
  rintro hzero
  rw [hzero] at hfirst
  exact absurd hfirst (by decide)

/-- The pages that a free gives back are those of the allocation in which no other lies. -/
theorem Arenas.Free.gone (hf : H.Free b H') (h : HeapWf D H) (hbusy : Busy H) (hb : b ∈ H.live) :
    (n ∈ H.allPages ∧ n ∉ H'.allPages) ↔ n ∈ b.pages ∧ ∀ b' ∈ H.live.erase b, n ∉ b'.pages := by
  rw [hbusy.mem_allPages h, (hbusy.free h hb hf).mem_allPages (h.free hb hf), hf.live]
  constructor
  · rintro ⟨⟨b', hb', hn⟩, hno⟩
    refine ⟨?_, fun b'' hb'' hn'' => hno ⟨b'', hb'', hn''⟩⟩
    by_cases he : b' = b
    · rw [← he]
      exact hn
    · exact absurd ⟨b', (List.mem_erase_of_ne he).2 hb', hn⟩ hno
  · rintro ⟨hn, hno⟩
    exact ⟨⟨b, hb, hn⟩, fun ⟨b', hb', hn'⟩ => hno b' hb' hn'⟩

/-- The heaps of all spaces hold in every reached state, with no stale translation of a page that is mapped, and no
allocation has a byte of what the allocator keeps for itself or of the page of a `taskStruct`. -/
theorem heaps_hold (hm : Loaded m) (hK : KernelDescs K) (hx : HeapsReached K m memCapacity x) :
    ∃ dir arenas, HeapsInv K x dir arenas ∧ Current x.s ∧ ∀ sp b v, sp.Exists x.s → b ∈ x.live sp → b.Holds v →
      ¬Managed (descsOf K sp) (arenas sp) v ∧ ∀ p, p.toNat ∈ x.tasks → InPcb x.s p v → home sp v ≠ .kernel := by
  obtain ⟨dir, arenas, h⟩ := hx.heaps hm hK
  refine ⟨dir, arenas, h, hx.current hm hK, fun sp b v hsp hb hv => ?_⟩
  rw [← h.live] at hb
  have hwf := (h.heaps sp hsp).wf
  refine ⟨hwf.holds_not_managed hb hv, fun p hp hpcb hhome => ?_⟩
  exact (h.tasks p hp v hpcb).2 sp hsp hhome (.inr (hwf.holds_page hb hv))

theorem heaps_hold_first : ∃ x b dir arenas, b ∈ x.live .kernel ∧ HeapsInv 0xc0010000 x dir arenas := by
  obtain ⟨s, p, s', -, hx, -⟩ := first_reached
  obtain ⟨dir, arenas, h, -⟩ := heaps_hold loaded_zero kernelDescs_first hx
  refine ⟨_, ⟨p, 16⟩, dir, arenas, ?_, h⟩
  change _ ∈ update (fun _ : Space => ([] : List Alloc)) .kernel [⟨p, 16⟩] .kernel
  rw [update_self]
  exact List.mem_cons_self

/-- A byte of an allocation has its place in memory. -/
theorem HeapsInv.held_place (h : HeapsInv K x dir arenas) (hsp : sp.Exists x.s) (hb : b ∈ x.live sp)
    (hv : b.Holds v) :
    sp.Heap x.s (vpage v) ∧ ∃ f, mapped x.s.mem (dir sp) (vpage v) = some f := by
  have hheap := h.heaps sp hsp
  rw [← h.live] at hb
  have hin := hheap.wf.holds_page hb hv
  obtain ⟨-, hpage, -⟩ := hheap.pages _ hin
  refine ⟨hpage, ?_⟩
  have hnat : (BitVec.ofNat 32 (v.toNat / 4 * 4)).toNat = v.toNat / 4 * 4 := by
    have := v.isLt
    rw [BitVec.toNat_ofNat]
    omega
  have hsame : vpage (BitVec.ofNat 32 (v.toNat / 4 * 4)) = vpage v := by
    unfold vpage
    omega
  have hacc := hheap.mounted.2 (BitVec.ofNat 32 (v.toNat / 4 * 4)) (.inr (by rw [hsame]; exact hin)) (by omega)
  obtain ⟨a, ha, -⟩ := hacc.reach
  obtain ⟨f, hf, -⟩ := place_eq_some.1 ha
  rw [home_in_page hsame, home_of_heap hpage, hsame] at hf
  exact ⟨f, hf⟩

/-- The running thread reaches its own byte by the page tables. -/
theorem Spaces.walk_held {f : Nat} (h : Spaces s dir) (hf : mapped s.mem (dir s.space) (vpage v) = some f) :
    s.walk v = some (f + v.toNat % 4096) := by
  refine walk_eq ?_
  rw [h.cr3]
  exact hf

/-- The header of an arena counts its free blocks, of which there are never all. -/
theorem HeapAt.count {c : Fin 7} {a : Word} (hh : HeapAt s dir sp D H) (hbusy : Busy H) (ha : a ∈ H.pages c) :
    word s dir sp a = descAt D c ∧ (word s dir sp (a + 4)).toNat = freeIn a (H.free c) ∧
      freeIn a (H.free c) < blocksPerArena c := by
  obtain ⟨cnt, hr, hcount⟩ := hh.words
  have hheader := hr.arenas c a ha
  have hsum := hh.wf.count ha
  have hpos : 0 < freeIn a (H.used c) := by
    obtain ⟨p, hp, hpage⟩ := hbusy c a ha
    exact List.countP_pos_iff.2 ⟨p, hp, decide_eq_true hpage⟩
  have hbound := (blocksPerArena_bounds c).2
  refine ⟨hheader.desc, ?_, by omega⟩
  rw [hheader.cnt, BitVec.toNat_ofNat, hcount c a ha]
  omega

/-- In every reached state a block of an arena is on the free list of its class, once, or allocated, and not both;
the list is circular through all of its blocks, and the header counts those of its arena. -/
theorem arenas_hold (hm : Loaded m) (hK : KernelDescs K) (hx : HeapsReached K m memCapacity x) :
    ∃ dir, Spaces x.s dir ∧ ∀ sp, sp.Exists x.s → ∃ H : Arenas, H.live = x.live sp ∧ ∀ c,
      Holds (links (word x.s dir sp)) (freeLists (descsOf K sp) c) (H.free c) ∧ (H.free c).Nodup ∧
      (∀ p ∈ H.free c, ∃ a ∈ H.pages c, p ∈ blocks c a) ∧
      (∀ b ∈ x.live sp, InClass b.size c → ∃ a ∈ H.pages c, b.ptr ∈ blocks c a) ∧
      ∀ a ∈ H.pages c, word x.s dir sp a = descAt (descsOf K sp) c ∧
        (word x.s dir sp (a + 4)).toNat = freeIn a (H.free c) ∧ freeIn a (H.free c) < blocksPerArena c ∧
        ∀ p ∈ blocks c a, p ∈ H.free c ↔ ∀ b ∈ x.live sp, InClass b.size c → b.ptr ≠ p := by
  obtain ⟨dir, arenas, h⟩ := hx.heaps hm hK
  refine ⟨dir, h.spaces, fun sp hsp => ⟨arenas sp, h.live sp, fun c => ?_⟩⟩
  have hheap := h.heaps sp hsp
  obtain ⟨cnt, hr, -⟩ := hheap.words
  refine ⟨hr.lists.holds c, (List.nodup_append.1 (hheap.wf.nodup_all c)).1, fun p hp => hheap.wf.mem_free hp,
    fun b hb hc => hheap.wf.mem_used (mem_used_of_live (by rw [h.live]; exact hb) hc), fun a ha => ?_⟩
  obtain ⟨hdesc, hcount, hlt⟩ := hheap.count (h.busy sp) ha
  refine ⟨hdesc, hcount, hlt, fun p hp => ⟨fun hfree b hb hc he => ?_, fun hno => ?_⟩⟩
  · rw [← h.live] at hb
    exact hheap.wf.not_free_of_used (mem_used_of_live hb hc) (he ▸ hfree)
  · refine (hheap.wf.free_or_used ha hp).resolve_right fun hused => ?_
    obtain ⟨b, hb, rfl⟩ := List.mem_map.1 hused
    obtain ⟨hlive, hc⟩ := List.mem_filter.1 hb
    rw [h.live] at hlive
    exact hno b hlive (of_decide_eq_true hc) rfl

theorem arenas_hold_first : ∃ (x : Heaps) (dir : Space → Nat), Spaces x.s dir ∧
    ∃ H : Arenas, H.live = x.live .kernel ∧ H.live ≠ [] := by
  obtain ⟨s, p, s', -, hx, -⟩ := first_reached
  obtain ⟨dir, hs, hall⟩ := arenas_hold loaded_zero kernelDescs_first hx
  obtain ⟨H, hlive, -⟩ := hall .kernel trivial
  refine ⟨_, dir, hs, H, hlive, ?_⟩
  change H.live = update (fun _ : Space => ([] : List Alloc)) .kernel [⟨p, 16⟩] .kernel at hlive
  rw [hlive, update_self]
  exact List.cons_ne_nil _ _

/-- No two bytes of allocations have the same place in memory, in one address space or in two, and the CPU finds
those of the running thread in their places. -/
theorem live_apart (hm : Loaded m) (hK : KernelDescs K) (hx : HeapsReached K m memCapacity x) :
    ∃ dir, Spaces x.s dir ∧
      (∀ sp b v, sp.Exists x.s → b ∈ x.live sp → b.Holds v → ∃ a, place x.s dir sp v = some a) ∧
      (∀ b v, b ∈ x.live x.s.space → b.Holds v → x.s.translate v = place x.s dir x.s.space v) ∧
      ∀ sp sp' b b' v v' a, sp.Exists x.s → sp'.Exists x.s → b ∈ x.live sp → b' ∈ x.live sp' → b.Holds v →
        b'.Holds v' →
        place x.s dir sp v = some a → place x.s dir sp' v' = some a → sp = sp' ∧ b = b' ∧ v = v' := by
  obtain ⟨dir, arenas, h⟩ := hx.heaps hm hK
  refine ⟨dir, h.spaces, fun sp b v hsp hb hv => ?_, fun b v hb hv => ?_,
    fun sp sp' b b' v v' a hsp hsp' hb hb' hv hv' ha ha' => ?_⟩
  · obtain ⟨hpage, f, hf⟩ := h.held_place hsp hb hv
    exact ⟨_, place_eq_some.2 ⟨f, by rw [home_of_heap hpage]; exact hf, rfl⟩⟩
  · obtain ⟨hpage, f, hf⟩ := h.held_place x.s.space_exists hb hv
    rw [(hx.current hm hK).translate (.inr hpage) (h.spaces.walk_held hf), place, home_of_heap hpage,
      hf]
    rfl
  · obtain ⟨hpage, -⟩ := h.held_place hsp hb hv
    obtain ⟨hpage', -⟩ := h.held_place hsp' hb' hv'
    obtain ⟨f, hf, rfl⟩ := place_eq_some.1 ha
    obtain ⟨f', hf', he⟩ := place_eq_some.1 ha'
    rw [home_of_heap hpage] at hf
    rw [home_of_heap hpage'] at hf'
    have hmod := (h.spaces.toTables.owner_bounds (o := .page sp (vpage v)) hpage hf).1
    have hmod' := (h.spaces.toTables.owner_bounds (o := .page sp' (vpage v')) hpage' hf').1
    obtain rfl : f = f' := by omega
    have howner := h.spaces.inj (.page sp (vpage v)) (.page sp' (vpage v')) f hpage hpage' hf hf'
    obtain ⟨rfl, hv_page⟩ := Owner.page.inj howner
    have hsame : v = v' := by
      refine BitVec.eq_of_toNat_eq ?_
      unfold vpage at hv_page
      omega
    refine ⟨rfl, ?_, hsame⟩
    subst hsame
    by_contra hne
    rw [← h.live] at hb hb'
    exact (h.heaps sp hsp).wf.apart hb hb' hne hv hv'

theorem live_apart_first : ∃ (x : Heaps) (b : Alloc) (dir : Space → Nat) (a : Nat), b ∈ x.live .kernel ∧
    Spaces x.s dir ∧ x.s.translate b.ptr = some a ∧ place x.s dir .kernel b.ptr = some a ∧
    ∀ v, b.Holds v → place x.s dir .kernel v = some a → v = b.ptr := by
  obtain ⟨s, p, s', -, hx, -, hspace, -⟩ := first_reached
  obtain ⟨dir, hs, hplace, hcached, hapart⟩ := live_apart loaded_zero kernelDescs_first hx
  have hmem : (⟨p, 16⟩ : Alloc) ∈ update (fun _ : Space => ([] : List Alloc)) .kernel [⟨p, 16⟩] .kernel := by
    rw [update_self]
    exact List.mem_cons_self
  have hptr : Alloc.Holds ⟨p, 16⟩ p := Alloc.holds_ptr (by decide)
  obtain ⟨a, ha⟩ := hplace .kernel _ p trivial hmem hptr
  have hfound := hcached ⟨p, 16⟩ p (hspace.symm ▸ hmem) hptr
  change s'.translate p = place s' dir s'.space p at hfound
  rw [hspace] at hfound
  exact ⟨_, ⟨p, 16⟩, dir, a, hmem, hs, hfound.trans ha, ha, fun v hv hav =>
    (hapart .kernel .kernel _ _ v p a trivial trivial hmem hmem hv hptr hav ha).2.2⟩

/-- A call of `sysMalloc` that returns memory. -/
theorem HeapsInv.malloc_served (h : HeapsInv K x dir arenas) (hfits : HeapFits K size (x.s.locked x.s.space.flag))
    (hcall : sysMalloc K size x.s = .ok (some p, s')) :
    ¬Refused x.s size ∧ ∃ H', (arenas x.s.space).Malloc (descsOf K x.s.space) size p H' ∧
      HeapStep x.s s' dir (descsOf K x.s.space) (arenas x.s.space) H' (arenas x.s.space).live ∧
      (∀ v, Alloc.Holds ⟨p, size⟩ v → word s' dir x.s.space v = 0) ∧
      HeapsInv K { x with s := s', live := update x.live x.s.space (⟨p, size⟩ :: x.live x.s.space) } dir
        (update arenas x.s.space H') := by
  have hout := h.malloc_outcome hfits
  rw [hcall] at hout
  cases hout with
  | @served _ H' _ hasked _ hmalloc hstep hzero =>
      have hinv := h.step_heap hstep ((h.busy _).malloc h.heap.wf hmalloc)
      rw [hmalloc.live, h.live] at hinv
      exact ⟨hasked, H', hmalloc, hstep, hzero, hinv⟩

/-- `sysMalloc` returns memory of its own: aligned, cleared, writable where the CPU finds it, and apart from all that
is in use. -/
theorem sysMalloc_fresh (hm : Loaded m) (hK : KernelDescs K) (hx : HeapsReached K m memCapacity x)
    (hsound : HeapEvent.Sound K (.sysMalloc size) x) (hcall : sysMalloc K size x.s = .ok (some p, s')) :
    0 < size.toNat ∧ p ≠ 0 ∧ p.toNat % 4 = 0 ∧ p.toNat + size.toNat < 2 ^ 32 ∧
      ∀ v, Alloc.Holds ⟨p, size⟩ v → s'.loadByte v = .ok 0 ∧ s'.translate v = s'.walk v ∧
        (∀ val, ∃ s'', s'.storeByte v val = .ok s'') ∧
        ∀ b ∈ x.live x.s.space, ¬b.Holds v := by
  obtain ⟨dir, arenas, h⟩ := hx.heaps hm hK
  obtain ⟨hasked, H', hmalloc, hstep, hzero, h'⟩ := h.malloc_served hsound.fits hcall
  have hcurrent : Current s' := h.step_current (hx.current hm hK) hsound (.sysMalloc hcall)
  have hspace : s'.space = x.s.space := hstep.pages.shape.space
  have hlive : H'.live = ⟨p, size⟩ :: x.live x.s.space := by rw [hmalloc.live, h.live]
  have hmem : (⟨p, size⟩ : Alloc) ∈ H'.live := by
    rw [hlive]
    exact List.mem_cons_self
  have hwf := hstep.heap.wf
  have hbusy := (h.busy _).malloc h.heap.wf hmalloc
  obtain ⟨hne, hfit⟩ := hstep.heap.fits hstep.pages.spaces hbusy hmem
  have hpos : 0 < size.toNat := by
    refine Nat.pos_of_ne_zero fun hsize => hasked (.inl ?_)
    exact BitVec.eq_of_toNat_eq hsize
  refine ⟨hpos, hne, hwf.ptr_mod hmem, hfit, fun v hv => ?_⟩
  have hin : (⟨p, size⟩ : Alloc) ∈ update x.live x.s.space (⟨p, size⟩ :: x.live x.s.space) s'.space := by
    rw [hspace, update_self]
    exact List.mem_cons_self
  obtain ⟨u, -, hle, hlt, hold, hu⟩ := h'.held_word hin hv
  obtain ⟨hpage, f, hf⟩ := h'.held_place s'.space_exists hin hv
  have hwalk := h'.spaces.walk_held hf
  refine ⟨?_, (hcurrent.translate (.inr hpage) hwalk).trans hwalk.symm, fun val => ?_, fun b hb hbv => ?_⟩
  · have hword := hzero u hold
    rw [← hspace] at hword
    rw [hu.loadByte_in h'.spaces hle hlt, hword]
    simp
  · obtain ⟨_, s'', -, hstore, -⟩ := hu.storeByte h'.spaces hle hlt val
    exact ⟨s'', hstore⟩
  · have hnodup := hwf.live_nodup
    rw [hlive] at hnodup
    have hb' : b ∈ H'.live := by
      rw [hlive]
      exact List.mem_cons_of_mem _ hb
    have hne : b ≠ ⟨p, size⟩ := by
      rintro rfl
      exact (List.nodup_cons.1 hnodup).1 hb
    exact hwf.apart hb' hmem hne hbv hv

theorem sysMalloc_fresh_first : ∃ s p s', sysMalloc 0xc0010000 16 s = .ok (some p, s') ∧ p ≠ 0 ∧
    s'.loadByte p = .ok 0 := by
  obtain ⟨s, p, s', hx, -, -, -, hsound, hcall, -⟩ := first_reached
  obtain ⟨-, hne, -, -, hbytes⟩ := sysMalloc_fresh loaded_zero kernelDescs_first hx (hsound 16 (by decide)) hcall
  exact ⟨s, p, s', hcall, hne, (hbytes p (Alloc.holds_ptr (by decide))).1⟩

theorem pageCount_large (size : Word) : 3840 ≤ pageCount size ↔ 15724533 ≤ size.toNat := by
  unfold pageCount
  omega

/-- `sysMalloc` panics exactly when it is asked for more pages than `mallocPage` takes and the pool is larger than
that. -/
theorem sysMalloc_panics_iff (hm : Loaded m) (hK : KernelDescs K) (hx : HeapsReached K m memCapacity x)
    (hsound : HeapEvent.Sound K (.sysMalloc size) x)
    (hstack : x.s.space.flag = .user → x.s.space.bit x.s 0xbffff = true) (t : Trap) :
    sysMalloc K size x.s = .error t ↔
      t = .panic .pgCnt ∧ 15724533 ≤ size.toNat ∧ size.toNat < (x.s.pool x.s.space.flag).poolSize.toNat := by
  obtain ⟨dir, arenas, h⟩ := hx.heaps hm hK
  have hasked : ¬Refused x.s size → size.toNat < (x.s.pool x.s.space.flag).poolSize.toNat := by
    intro hno
    exact Nat.lt_of_not_le fun hle => hno (.inr (BitVec.le_def.2 hle))
  have hout := h.malloc_outcome hsound.fits
  constructor
  · intro hcall
    rw [hcall] at hout
    cases hout with
    | tooMany hno hcnt => exact ⟨rfl, (pageCount_large size).1 hcnt, hasked hno⟩
    | noStack _ hno =>
        obtain ⟨huser, hclear⟩ := hno
        rw [hstack huser] at hclear
        cases hclear
  · rintro ⟨rfl, hlarge, hpool⟩
    have hcnt := (pageCount_large size).2 hlarge
    have hno : ¬Refused x.s size := by
      rintro (hzero | hle)
      · rw [hzero] at hlarge
        exact absurd hlarge (by decide)
      · exact Nat.not_le.2 hpool (BitVec.le_def.1 hle)
    generalize sysMalloc K size x.s = r at hout
    cases hout with
    | refused hsize => exact absurd hsize hno
    | tooMany => rfl
    | noStack hlt => exact absurd hlt (Nat.not_lt.2 hcnt)
    | full hlt => exact absurd hlt (Nat.not_lt.2 hcnt)
    | served _ hlt => exact absurd hlt (Nat.not_lt.2 hcnt)

theorem sysMalloc_panics_first : ∃ s, ∀ t, sysMalloc 0xc0010000 16 s = .error t ↔
    t = .panic .pgCnt ∧ 15724533 ≤ (16 : Word).toNat ∧ (16 : Word).toNat < (s.pool s.space.flag).poolSize.toNat := by
  obtain ⟨s, p, s', hx, -, hspace, -, hsound, -⟩ := first_reached
  refine ⟨s, fun t => sysMalloc_panics_iff loaded_zero kernelDescs_first hx (hsound 16 (by decide))
    (fun huser => ?_) t⟩
  change s.space.flag = .user at huser
  rw [hspace] at huser
  cases huser

/-- `sysMalloc` returns `NULL` for a size out of range or for want of pages, and then all heaps are as before. -/
theorem sysMalloc_null (hm : Loaded m) (hK : KernelDescs K) (hx : HeapsReached K m memCapacity x)
    (hsound : HeapEvent.Sound K (.sysMalloc size) x) (hcall : sysMalloc K size x.s = .ok (none, s')) :
    (Refused x.s size ∨ ∃ s₁, mallocPage x.s.space.flag (if 1024 < size.toNat then pageCount size else 1)
      (x.s.locked x.s.space.flag) = .ok (none, s₁)) ∧
    ∃ dir arenas, HeapsInv K x dir arenas ∧ HeapsInv K { x with s := s' } dir arenas ∧
      ∀ sp b v, sp.Exists x.s → b ∈ x.live sp → b.Holds v → word s' dir sp v = word x.s dir sp v := by
  obtain ⟨dir, arenas, h⟩ := hx.heaps hm hK
  have hout := h.malloc_outcome hsound.fits
  rw [hcall] at hout
  cases hout with
  | refused hsize => exact ⟨.inl hsize, dir, arenas, h, h, fun _ _ _ _ _ _ => rfl⟩
  | @full n s₁ _ _ hn hfull haround hheap =>
      subst hn
      have haround' : Around x.s s' dir fun sp v => home sp v = home x.s.space v →
          Spared (descsOf K x.s.space) (arenas x.s.space) [] v := haround.mono fun _ _ _ => trivial
      have hinv := h.around haround' hheap (h.busy _) fun _ _ _ _ hpage => hpage
      rw [h.live, update_eq_self, update_eq_self] at hinv
      refine ⟨.inr ⟨s₁, hfull⟩, dir, arenas, h, hinv, fun sp b v hsp hb hv => ?_⟩
      exact h.held_kept haround.keeps hsp hb (fun _ _ _ => trivial) hv

theorem sysMalloc_null_first : ∃ s s' dir arenas, sysMalloc 0xc0010000 0 s = .ok (none, s') ∧
    HeapsInv 0xc0010000 ⟨s', fun _ => [], [mainTask]⟩ dir arenas := by
  obtain ⟨s, p, s', hx, -, -, -, hsound, -⟩ := first_reached
  have hcall : sysMalloc 0xc0010000 0 s = .ok (none, s) := sysMalloc_refused (.inl rfl)
  obtain ⟨-, dir, arenas, -, h, -⟩ :=
    sysMalloc_null loaded_zero kernelDescs_first hx (hsound 0 (by decide)) hcall
  exact ⟨s, s, dir, arenas, hcall, h⟩

/-- A call of `sysFree` with an allocation of the running thread's space. -/
theorem HeapsInv.free_served (h : HeapsInv K x dir arenas) (hb : b ∈ x.live x.s.space) :
    ∃ s' H', sysFree b.ptr x.s = .ok s' ∧ (arenas x.s.space).Free b H' ∧
      HeapStep x.s s' dir (descsOf K x.s.space) (arenas x.s.space) H' ((arenas x.s.space).live.erase b) := by
  rw [← h.live] at hb
  exact h.heap.sysFree h.spaces (h.locks _) hb

/-- `sysFree` returns for every allocation, and gives back its pages but for those in which another one lies. -/
theorem sysFree_releases (hm : Loaded m) (hK : KernelDescs K) (hx : HeapsReached K m memCapacity x)
    (hb : b ∈ x.live x.s.space) :
    ∃ s', sysFree b.ptr x.s = .ok s' ∧ ∀ sp n, Space.bit s' sp n = true ↔ Space.bit x.s sp n = true ∧
      ¬(sp = x.s.space ∧ n ∈ b.pages ∧ ∀ b' ∈ (x.live x.s.space).erase b, n ∉ b'.pages) := by
  obtain ⟨dir, arenas, h⟩ := hx.heaps hm hK
  obtain ⟨s', H', hcall, hfree, hstep⟩ := h.free_served hb
  refine ⟨s', hcall, fun sp n => ?_⟩
  by_cases he : sp = x.s.space
  · subst he
    rw [← h.live] at hb ⊢
    have hgone := hfree.gone h.heap.wf (h.busy _) hb (n := n)
    have hnew : ¬(n ∈ H'.allPages ∧ n ∉ (arenas x.s.space).allPages) := by
      rintro ⟨hn, hno⟩
      rw [((h.busy _).free h.heap.wf hb hfree).mem_allPages (h.heap.wf.free hb hfree), hfree.live] at hn
      obtain ⟨b', hb', hn⟩ := hn
      exact hno (((h.busy _).mem_allPages h.heap.wf).2 ⟨b', List.mem_of_mem_erase hb', hn⟩)
    rw [hstep.pages.bit, hgone]
    grind
  · rw [hstep.pages.bits sp n he]
    grind

theorem sysFree_releases_first : ∃ s p s', HeapsReached 0xc0010000 (pageSetup fun _ => 0) 0x2000000
      ⟨s, update (fun _ => []) .kernel [⟨p, 16⟩], [mainTask]⟩ ∧ sysFree p s = .ok s' ∧
    Space.bit s' .kernel (vpage p) = false := by
  obtain ⟨s₀, p, s, -, hx, -, hspace, -⟩ := first_reached
  have hlive : (⟨p, 16⟩ : Alloc) ∈ update (fun _ : Space => ([] : List Alloc)) .kernel [⟨p, 16⟩] s.space := by
    rw [hspace, update_self]
    exact List.mem_cons_self
  obtain ⟨s', hcall, hbits⟩ := sysFree_releases loaded_zero kernelDescs_first hx hlive
  refine ⟨s, p, s', hx, hcall,
    Bool.eq_false_iff.2 fun hset => ((hbits .kernel (vpage p)).1 hset).2 ⟨hspace.symm, ?_, ?_⟩⟩
  · exact mem_pages.2 ⟨Nat.le_refl _, Nat.lt_add_of_pos_right (pageCount_pos _)⟩
  · intro b' hb'
    change b' ∈ (update (fun _ : Space => ([] : List Alloc)) .kernel [⟨p, 16⟩] s.space).erase _ at hb'
    rw [hspace, update_self, List.erase_cons_head] at hb'
    exact absurd hb' List.not_mem_nil

/-- The same pages are marked and mapped, and as many frames are taken that hold no page. -/
structure SamePages (s s' : Memory) (dir : Space → Nat) : Prop where
  spaces : Spaces s' dir
  bits : ∀ sp n, Space.bit s' sp n = Space.bit s sp n
  frames : ∀ sp n, Space.Heap s sp n →
    ((∃ f, mapped s'.mem (dir sp) n = some f) ↔ ∃ f, mapped s.mem (dir sp) n = some f)
  stray : ∀ pf a, Stray s' dir pf a ↔ Stray s dir pf a

/-- Two steps of a heap that has the pages of the start. -/
theorem HeapStep.samePages {s₁ : Memory} {H'' : Arenas} {live live' : List Alloc} (h : Spaces s dir)
    (hh : HeapAt s dir s.space D H) (hstep : HeapStep s s₁ dir D H H' live)
    (hstep' : HeapStep s₁ s' dir D H' H'' live')
    (hall : ∀ n, n ∈ H''.allPages ↔ n ∈ H.allPages) : SamePages s s' dir := by
  have hspace := hstep.pages.shape.space
  have hpages := hstep.pages.trans hstep'.pages
  have hmapped : ∀ n ∈ H.allPages, ∃ f, mapped s.mem (dir s.space) n = some f := by
    intro n hn
    obtain ⟨f, hf, -⟩ := (hh.dataPage h hn).data
    exact ⟨f, hf⟩
  refine ⟨hpages.spaces, fun sp n => ?_, fun sp n hn => ?_, hpages.stray⟩
  · by_cases he : sp = s.space
    · subst he
      have hset := fun hn => (hh.pages n hn).2.2
      have hfresh := hstep.fresh n
      rw [Bool.eq_iff_iff, hpages.bit, hall]
      grind
    · exact hpages.bits sp n he
  · by_cases he : sp = s.space
    · subst he
      have hset := hmapped n
      have hclear : n ∈ H'.allPages → n ∉ H.allPages → ¬∃ f, mapped s.mem (dir s.space) n = some f := by
        rintro hin hno ⟨f, hf⟩
        rw [h.clear _ _ hn (hstep.fresh n hin hno)] at hf
        cases hf
      rw [hpages.frame n hn, hall]
      grind
    · rw [hpages.frames sp n he hn]

theorem SameHeap.allPages (h : SameHeap H H') : H'.allPages = H.allPages := by
  have hlarge : H'.large = H.large := by
    unfold Arenas.large
    rw [h.live]
  unfold Arenas.allPages
  rw [h.pages, hlarge]

/-- A `sysFree` right after a `sysMalloc` undoes it: the same pages are in use, the heap has the same arenas and
free blocks, and all allocations keep their contents. -/
theorem sysFree_undoes (hm : Loaded m) (hK : KernelDescs K) (hx : HeapsReached K m memCapacity x)
    (hsound : HeapEvent.Sound K (.sysMalloc size) x) (hcall : sysMalloc K size x.s = .ok (some p, s)) :
    ∃ s', sysFree p s = .ok s' ∧ ∃ dir, Spaces x.s dir ∧ SamePages x.s s' dir ∧
      (∃ H H', HeapAt x.s dir x.s.space (descsOf K x.s.space) H ∧ HeapAt s' dir x.s.space (descsOf K x.s.space) H' ∧
        SameHeap H H') ∧
      ∀ sp b v, sp.Exists x.s → b ∈ x.live sp → b.Holds v → word s' dir sp v = word x.s dir sp v := by
  obtain ⟨dir, arenas, h⟩ := hx.heaps hm hK
  obtain ⟨-, H', hmalloc, hstep, -, h'⟩ := h.malloc_served hsound.fits hcall
  have hspace : s.space = x.s.space := hstep.pages.shape.space
  have hlive : (⟨p, size⟩ : Alloc) ∈ update x.live x.s.space (⟨p, size⟩ :: x.live x.s.space) s.space := by
    rw [hspace, update_self]
    exact List.mem_cons_self
  obtain ⟨s', H'', hfree, hmove, hstep'⟩ := h'.free_served hlive
  change HeapStep s s' dir (descsOf K s.space) (update arenas x.s.space H' s.space) H'' _ at hstep'
  change (update arenas x.s.space H' s.space).Free _ H'' at hmove
  rw [hspace, update_self] at hmove hstep'
  have hsame := hmalloc.undo hmove h.heap.wf (h.busy _)
  have hall : ∀ n, n ∈ H''.allPages ↔ n ∈ (arenas x.s.space).allPages := fun n => by rw [hsame.allPages]
  have hheap := hstep'.heap
  rw [hspace] at hheap
  refine ⟨s', hfree, dir, h.spaces, hstep.samePages h.spaces h.heap hstep' hall, ⟨_, H'', h.heap, hheap, hsame⟩,
    fun sp b v hsp hb hv => ?_⟩
  have hmem : b ∈ update x.live x.s.space (⟨p, size⟩ :: x.live x.s.space) sp :=
    mem_update_live hb fun he => List.mem_cons_of_mem _ (he ▸ hb)
  have hother : ¬(s.space = sp ∧ (⟨p, size⟩ : Alloc) = b) := by
    rintro ⟨rfl, rfl⟩
    have hnodup := hstep.heap.wf.live_nodup
    rw [hmalloc.live, h.live] at hnodup
    rw [hspace] at hb
    exact (List.nodup_cons.1 hnodup).1 hb
  obtain ⟨-, hsp', hword⟩ := h.step_contents (e := .sysMalloc size) hsp hb hsound.fits trivial (.sysMalloc hcall)
  obtain ⟨-, -, hword'⟩ := h'.step_contents (e := .sysFree ⟨p, size⟩) hsp' hmem trivial hother (.sysFree hlive hfree)
  exact (hword' v hv).trans (hword v hv)

theorem sysFree_undoes_first : ∃ s p s₁ s' dir, sysMalloc 0xc0010000 16 s = .ok (some p, s₁) ∧ sysFree p s₁ = .ok s' ∧
    SamePages s s' dir := by
  obtain ⟨s, p, s₁, hx, -, -, -, hsound, hcall, -⟩ := first_reached
  obtain ⟨s', hfree, dir, -, hsame, -⟩ := sysFree_undoes loaded_zero kernelDescs_first hx (hsound 16 (by decide)) hcall
  exact ⟨s, p, s₁, s', dir, hcall, hfree, hsame⟩

/-- A byte of an allocation reads the same until a thread of its space writes to the allocation or frees it. -/
theorem contents_kept (hm : Loaded m) (hK : KernelDescs K) (hx : HeapsReached K m memCapacity x)
    (hb : b ∈ x.live x.s.space) (hrun : HeapsRun K (HeapEvent.Leaves x.s.space b) x x')
    (hspace : x'.s.space = x.s.space)
    (hv : b.Holds v) :
    ∃ c, x.s.loadByte v = .ok c ∧ x.s.fetchByte v = some c ∧ x'.s.loadByte v = .ok c ∧ x'.s.fetchByte v = some c := by
  obtain ⟨dir, arenas, h⟩ := hx.heaps hm hK
  have hcurrent := hx.current hm hK
  have hcurrent' := h.run_current hcurrent hrun
  obtain ⟨dir', arenas', h', hb', -, hsame⟩ := h.run_contents x.s.space_exists hb hrun
  rw [← hspace] at hb'
  obtain ⟨u, haligned, hle, hlt, hold, hu⟩ := h.held_word hb hv
  obtain ⟨u', haligned', hle', hlt', -, hu'⟩ := h'.held_word hb' hv
  obtain rfl : u = u' := BitVec.eq_of_toNat_eq (by omega)
  have hload := hu.loadByte_in h.spaces hle hlt
  have hload' := hu'.loadByte_in h'.spaces hle' hlt'
  rw [hspace, hsame u hold] at hload'
  exact ⟨_, hload, hcurrent.fetchByte (.inr (h.held_place x.s.space_exists hb hv).1) hload, hload',
    hcurrent'.fetchByte (.inr (h'.held_place x'.s.space_exists hb' hv).1) hload'⟩

theorem contents_kept_first : ∃ s p s' c, processActivate mainTask s = .ok s' ∧ s.fetchByte p = some c ∧
    s'.fetchByte p = some c := by
  obtain ⟨s₀, p, s, -, hx, -, hspace, -⟩ := first_reached
  obtain ⟨dir, arenas, h⟩ := hx.heaps loaded_zero kernelDescs_first
  have hlive : (⟨p, 16⟩ : Alloc) ∈ update (fun _ : Space => ([] : List Alloc)) .kernel [⟨p, 16⟩] s.space := by
    rw [hspace, update_self]
    exact List.mem_cons_self
  have hcur : s.cur = mainTask := List.mem_singleton.1 h.cur
  have hmain : ¬(s.task mainTask).pageDir ≠ 0 := by
    intro hproc
    rw [Memory.space, hcur, if_pos (show s.IsProcess mainTask from hproc)] at hspace
    cases hspace
  have hcall : processActivate mainTask s = .ok { s.loadCr3 0x100000 with cur := mainTask } := by
    rw [processActivate, massert, if_pos (by decide), if_neg hmain]
    rfl
  have hspace' : Memory.space { s.loadCr3 0x100000 with cur := mainTask } = s.space := by
    rw [← hcur]
    rfl
  have hrun : HeapsRun 0xc0010000 (HeapEvent.Leaves s.space ⟨p, 16⟩)
      ⟨s, update (fun _ => []) .kernel [⟨p, 16⟩], [mainTask]⟩ _ :=
    .single ⟨.processActivate mainTask, ⟨trivial, h.activate_uncached⟩, trivial,
      .processActivate (List.mem_singleton_self _) hcall⟩
  obtain ⟨c, -, hc, -, hc'⟩ := contents_kept loaded_zero kernelDescs_first hx hlive hrun hspace'
    (Alloc.holds_ptr (by decide))
  exact ⟨s, p, _, c, hcall, hc, hc'⟩

/-- Between two moments without allocations, with every request met in between, no page and no frame is lost. -/
theorem heaps_no_leak (hm : Loaded m) (hK : KernelDescs K) (hx : HeapsReached K m memCapacity x)
    (hnone : ∀ sp, x.live sp = [])
    (hrun : HeapsRun K (HeapEvent.Served K) x x') (hnone' : ∀ sp, x'.live sp = []) :
    ∃ dir, Spaces x.s dir ∧ SamePages x.s x'.s dir := by
  obtain ⟨dir, arenas, h⟩ := hx.heaps hm hK
  have hempty : ∀ sp, (arenas sp).allPages = [] := fun sp => (h.busy sp).no_leak ((h.live sp).trans (hnone sp))
  obtain ⟨arenas', h', hacc⟩ := h.run_accounts hempty hrun
  have hempty' : ∀ sp, (arenas' sp).allPages = [] := fun sp => (h'.busy sp).no_leak ((h'.live sp).trans (hnone' sp))
  refine ⟨dir, h.spaces, h'.spaces, fun sp n => ?_, fun sp n hn => ?_, hacc.stray⟩
  · have hbit := hacc.bits sp n
    rw [hempty' sp] at hbit
    rw [Bool.eq_iff_iff, hbit]
    simp
  · have hframe := hacc.frames sp n hn
    rw [hempty' sp] at hframe
    rw [hframe]
    simp

theorem heaps_no_leak_first : ∃ s p s₁ s' dir, sysMalloc 0xc0010000 16 s = .ok (some p, s₁) ∧ sysFree p s₁ = .ok s' ∧
    SamePages s s' dir := by
  obtain ⟨s, p, s₁, hx, hx₁, hspace, hspace₁, hsound, hcall, htlb⟩ := first_reached
  obtain ⟨dir₁, arenas₁, h₁⟩ := hx₁.heaps loaded_zero kernelDescs_first
  have hlive : (⟨p, 16⟩ : Alloc) ∈ update (fun _ : Space => ([] : List Alloc)) .kernel [⟨p, 16⟩] s₁.space := by
    rw [hspace₁, update_self]
    exact List.mem_cons_self
  obtain ⟨s', -, hfree, -⟩ := h₁.free_served hlive
  have hmalloc : HeapsStep 0xc0010000 ⟨s, fun _ => [], [mainTask]⟩ (.sysMalloc 16)
      ⟨s₁, update (fun _ => []) .kernel [⟨p, 16⟩], [mainTask]⟩ := by
    have hstep := HeapsStep.sysMalloc (x := ⟨s, fun _ => [], [mainTask]⟩) hcall
    change HeapsStep _ _ _ ⟨s₁, update (fun _ => []) s.space [⟨p, 16⟩], [mainTask]⟩ at hstep
    rw [hspace] at hstep
    exact hstep
  have hrun : HeapsRun 0xc0010000 (HeapEvent.Served 0xc0010000) ⟨s, fun _ => [], [mainTask]⟩ _ :=
    (Relation.ReflTransGen.single
      ⟨.sysMalloc 16, hsound 16 (by decide), fun _ _ => ⟨p, s₁, hcall⟩, hmalloc⟩).tail
      ⟨.sysFree ⟨p, 16⟩, (h₁.sound_of_empty (e := .sysFree ⟨p, 16⟩) htlb trivial trivial).1, trivial,
        .sysFree hlive hfree⟩
  have hnone : ∀ sp, update (update (fun _ : Space => ([] : List Alloc)) .kernel [⟨p, 16⟩]) s₁.space
      ((update (fun _ : Space => ([] : List Alloc)) .kernel [⟨p, 16⟩] s₁.space).erase ⟨p, 16⟩) sp = [] := by
    intro sp
    rw [hspace₁, update_self, update_idem, List.erase_cons_head]
    cases sp <;> simp
  obtain ⟨dir, -, hsame⟩ := heaps_no_leak loaded_zero kernelDescs_first hx (fun _ => rfl) hrun hnone
  exact ⟨s, p, s₁, s', dir, hcall, hfree, hsame⟩

end HoloOS
