import HoloOS.HeapAccounts

/-! The caches over the runs of the heaps. No page is mapped of which an old translation is still cached, so what the
CPU has cached is what the page tables say, and every access of a heap page goes where they lead. -/

namespace HoloOS

open Function Paging

variable {s s' : Memory} {dir dir' : Space → Nat} {sp : Space} {K v : Word} {x x₀ x' : Heaps} {e : HeapEvent}
  {arenas : Space → Arenas} {n f a : Nat}

/-- Every cached translation of a heap page that is mapped is that of the page tables. -/
def Current (s : Memory) : Prop :=
  ∀ n f g, s.HeapPage n → s.tlb n = some f → mapped s.mem s.cr3 n = some g → f = g

namespace Memory

/-- Where the CPU finds a byte: by what it has cached, or else by the page tables. -/
def translate (s : Memory) (vaddr : Word) : Option Nat :=
  ((s.tlb (vpage vaddr)).or (mapped s.mem s.cr3 (vpage vaddr))).map (· + vaddr.toNat % 4096)

def fetchByte (s : Memory) (vaddr : Word) : Option (BitVec 8) := (s.translate vaddr).map s.mem

end Memory

/-- The CPU finds a byte where the page tables say. -/
theorem Current.translate (hc : Current s) (hn : s.HeapPage (vpage v)) (hwalk : s.walk v = some a) :
    s.translate v = some a := by
  obtain ⟨f, hf, rfl⟩ := Option.map_eq_some_iff.1 hwalk
  have hpage : mapped s.mem s.cr3 (vpage v) = some f := hf
  unfold Memory.translate
  cases hcached : s.tlb (vpage v) with
  | none =>
      rw [Option.none_or, hpage]
      rfl
  | some g =>
      rw [hc _ g f hn hcached hpage]
      rfl

theorem Current.fetchByte {c : BitVec 8} (hc : Current s) (hn : s.HeapPage (vpage v)) (hload : s.loadByte v = .ok c) :
    s.fetchByte v = some c := by
  obtain ⟨a, hphys, hread⟩ := bind_ok hload
  cases hread
  rw [Memory.fetchByte, hc.translate hn (walk_of_phys hphys)]
  rfl

/-- A page of the kernel's heap is where the kernel's tables say, for those that see it. -/
theorem Tables.mapped_kernel (h : Tables s dir) (hsp : sp.Exists s) (hlo : 768 ≤ n / 1024) (hhi : n / 1024 < 1023)
    (hf : mapped s.mem (dir sp) n = some f) : mapped s.mem (dir .kernel) n = some f := by
  obtain ⟨table, htable, hpage⟩ := mapped_eq_some.1 hf
  exact mapped_eq_some.2 ⟨table, h.entry_kernel hsp hlo hhi htable, hpage⟩

/-- A step of the running thread that keeps the frames of the pages that stay mapped. -/
structure Remapped (s s' : Memory) (dir dir' : Space → Nat) : Prop where
  tables : Tables s' dir'
  space : s'.space = s.space
  heapPage : ∀ n, s'.HeapPage n → s.HeapPage n
  frames : SameFrames s s' dir dir'

/-- What was current stays so when nothing is mapped that is cached. -/
theorem Current.remapped (hc : Current s) (h : Tables s dir) (hr : Remapped s s' dir dir')
    (hmaps : MapsUncached s s') : Current s' := by
  intro n f g hn hcached hg
  cases hold : mapped s.mem s.cr3 n with
  | none =>
      rw [hmaps n hn hold ⟨g, hg⟩] at hcached
      cases hcached
  | some g' =>
      have hn₀ := hr.heapPage n hn
      rw [hc n f g' hn₀ (hr.frames.tlb n f hcached) hold]
      rw [h.cr3] at hold
      rw [hr.tables.cr3, hr.space] at hg
      have hexists : Space.Exists s' s.space := hr.space ▸ s'.space_exists
      rcases hn₀ with hkernel | hown
      · have hregion := h.toLayout.region hkernel
        have hlow : 768 ≤ n / 1024 := by
          have := hkernel.1
          omega
        exact hr.frames.frame .kernel n g' g trivial hkernel (h.mapped_kernel s.space_exists hlow hregion.lt hold)
          (hr.tables.mapped_kernel hexists hlow hregion.lt hg)
      · exact hr.frames.frame s.space n g' g s.space_exists hown hold hg

theorem Around.remapped {P : Space → Word → Prop} (h : Around s s' dir P) : Remapped s s' dir dir where
  tables := h.spaces.toTables
  space := h.shape.space
  heapPage n hn := by
    unfold Memory.HeapPage at *
    rw [h.shape.space] at hn
    exact hn.imp h.shape.heap_iff.1 h.shape.heap_iff.1
  frames := h.frames

theorem Keeps.remapped (hk : Keeps s s' dir dir') (h' : Tables s' dir') (hq : Quiet s s') :
    Remapped s s' dir dir' :=
  ⟨h', hk.space, fun _ hn => hq.heapPage hk.space hn, hk.frames hq.tlb⟩

/-- Neither a switch nor an access nor the loss of a translation. -/
def HeapEvent.Call : HeapEvent → Prop
  | .processActivate _ => False
  | .access _ => False
  | .evict _ => False
  | _ => True

section Steps

variable (h : HeapsInv K x dir arenas)
include h

/-- A call keeps the frames of the pages that stay mapped. -/
theorem HeapsInv.call_remapped (hcall : e.Call) (hfits : e.Fits K x.s) (hstep : HeapsStep K x e x') :
    ∃ dir', Remapped x.s x'.s dir dir' := by
  cases hstep with
  | sysMalloc hmalloc =>
      have hout := h.malloc_outcome hfits
      rw [hmalloc] at hout
      cases hout with
      | refused => exact ⟨dir, h.spaces.toTables, rfl, fun _ hn => hn,
          fun _ _ _ _ _ _ hf hg => Option.some.inj (hf.symm.trans hg), fun _ _ hf => hf⟩
      | full _ _ _ haround => exact ⟨dir, haround.remapped⟩
      | served _ _ _ hstep => exact ⟨dir, hstep.around.remapped⟩
  | sysFree hlive hfree =>
      obtain ⟨H', -, hstep⟩ := h.free_step hlive hfree
      exact ⟨dir, hstep.around.remapped⟩
  | write hlive hv hstore => exact ⟨dir, (h.write_step hlive hv hstore).around.remapped⟩
  | processActivate => exact hcall.elim
  | access => exact hcall.elim
  | evict => exact hcall.elim
  | threadStart hkernel ht htask =>
      obtain ⟨p, -, hp⟩ := h.new_task hkernel hfits ht htask
      exact ⟨dir, hp.staged.kept.remapped hp.spaces.toTables hp.staged.quiet⟩
  | processExecute hkernel ht hpcb hspace hdir =>
      obtain ⟨p, rfl, hp⟩ := h.new_task hkernel hfits.1 ht hpcb
      obtain ⟨-, f, hj⟩ := h.new_process hkernel hp (hfits.2 _ _ hpcb) hspace hdir
      exact ⟨_, (hp.staged.kept.trans hj.kept).remapped hj.spaces.toTables (hp.staged.quiet.trans hj.quiet)⟩

/-- One sound step. -/
theorem HeapsInv.step_current (hc : Current x.s) (hsound : e.Sound K x) (hstep : HeapsStep K x e x') :
    Current x'.s := by
  by_cases hcall : e.Call
  · obtain ⟨dir', hr⟩ := h.call_remapped hcall hsound.fits hstep
    exact hc.remapped h.spaces.toTables hr (hsound.uncached x' hstep)
  cases hstep with
  | processActivate htask hactivate =>
      rw [h.spaces.activated (h.aligned _) hactivate]
      intro n f g _ hcached
      cases hcached
  | @access v f hpage =>
      intro n f' g hn hcached hg
      change update x.s.tlb (vpage v) (some f) n = some f' at hcached
      by_cases he : n = vpage v
      · subst he
        rw [update_self] at hcached
        cases hcached
        exact Option.some.inj (hpage.symm.trans hg)
      · rw [update_of_ne he] at hcached
        exact hc n f' g hn hcached hg
  | @evict page =>
      intro n f g hn hcached hg
      change update x.s.tlb page none n = some f at hcached
      by_cases he : n = page
      · subst he
        rw [update_self] at hcached
        cases hcached
      · rw [update_of_ne he] at hcached
        exact hc n f g hn hcached hg
  | _ => exact absurd trivial hcall

/-- A switch empties the caches. -/
theorem HeapsInv.activate_uncached {t : Tid} :
    ∀ x', HeapsStep K x (.processActivate t) x' → MapsUncached x.s x'.s := by
  intro x' hstep n _ _ _
  cases hstep with
  | processActivate htask hactivate =>
      rw [h.spaces.activated (h.aligned t) hactivate]

/-- A run. -/
theorem HeapsInv.run_current {condition : HeapEvent → Heaps → Prop} (hc : Current x.s)
    (hrun : HeapsRun K condition x x') : Current x'.s := by
  induction hrun with
  | refl => exact hc
  | tail hprev hlast ih =>
      obtain ⟨dir', arenas', h'⟩ := h.run hprev
      obtain ⟨e, hsound, -, hstep⟩ := hlast
      exact h'.step_current ih hsound hstep

/-- Without a cached translation a call is sound whose page tables find their frames, and caches none. -/
theorem HeapsInv.sound_of_empty (htlb : ∀ n, x.s.tlb n = none) (hcall : e.Call) (hfits : e.Fits K x.s) :
    e.Sound K x ∧ ∀ x', HeapsStep K x e x' → ∀ n, x'.s.tlb n = none := by
  have hempty : ∀ x', HeapsStep K x e x' → ∀ n, x'.s.tlb n = none := by
    intro x' hstep n
    obtain ⟨dir', hr⟩ := h.call_remapped hcall hfits hstep
    rw [Option.eq_none_iff_forall_ne_some]
    intro f hf
    have hold := hr.frames.tlb n f hf
    rw [htlb] at hold
    cases hold
  exact ⟨⟨hfits, fun x' hstep n _ _ _ => hempty x' hstep n⟩, hempty⟩

end Steps

end HoloOS
