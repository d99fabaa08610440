import HoloOS.HeapSpaces

/-! Runs of the heaps. Threads of the kernel and of processes call `sysMalloc` and `sysFree` one after another, each
on the heap of its address space, write to what they have allocated, switch to each other, and create threads and
processes. -/

namespace HoloOS

open Function Paging

variable {s s₁ s' : Memory} {dir dir' : Space → Nat} {sp : Space} {D K a v p size : Word} {H H' : Arenas}
  {b : Alloc} {n : Nat}
  {live : List Alloc} {arenas arenas' : Space → Arenas} {t : Tid}

/-- Memory, the live allocations of every space, and the threads. -/
structure Heaps where
  s : Memory
  live : Space → List Alloc
  tasks : List Tid

/-- What the pages that a call reads and writes are cached by is an `access` right before the call or right after it. -/
inductive HeapEvent where
  | sysMalloc (size : Word)
  | sysFree (b : Alloc)
  | write (b : Alloc) (v : Word) (val : BitVec 8)
  | processActivate (pthread : Tid)
  | access (v : Word)
  | evict (page : Nat)
  | threadStart
  | processExecute

/-- The allocation of a result that is not `NULL`. -/
def Alloc.ofResult (size : Word) : Option Word → List Alloc
  | none => []
  | some p => [⟨p, size⟩]

/-- One call of the running thread that returns, or one of its writes. It frees what it has allocated, once, and
writes to what it has not freed. -/
inductive HeapsStep (K : Word) (x : Heaps) : HeapEvent → Heaps → Prop
  | sysMalloc {size : Word} {p : Option Word} {s' : Memory} (hcall : sysMalloc K size x.s = .ok (p, s')) :
      HeapsStep K x (.sysMalloc size)
        { x with s := s', live := update x.live x.s.space (Alloc.ofResult size p ++ x.live x.s.space) }
  | sysFree {b : Alloc} {s' : Memory} (hlive : b ∈ x.live x.s.space) (hcall : sysFree b.ptr x.s = .ok s') :
      HeapsStep K x (.sysFree b) { x with s := s', live := update x.live x.s.space ((x.live x.s.space).erase b) }
  | write {b : Alloc} {v : Word} {val : BitVec 8} {s' : Memory} (hlive : b ∈ x.live x.s.space) (hv : b.Holds v)
      (hcall : x.s.storeByte v val = .ok s') : HeapsStep K x (.write b v val) { x with s := s' }
  | processActivate {pthread : Tid} {s' : Memory} (htask : pthread ∈ x.tasks)
      (hcall : processActivate pthread x.s = .ok s') : HeapsStep K x (.processActivate pthread) { x with s := s' }
  | access {v : Word} {f : Nat} (hpage : mapped x.s.mem x.s.cr3 (vpage v) = some f) :
      HeapsStep K x (.access v) { x with s := { x.s with tlb := update x.s.tlb (vpage v) (some f) } }
  | evict {page : Nat} : HeapsStep K x (.evict page) { x with s := { x.s with tlb := update x.s.tlb page none } }
  | threadStart {t : Tid} {s' : Memory} (hkernel : x.s.space = .kernel) (ht : t ≠ 0)
    (hcall : newTask x.s = .ok (t, s')) :
      HeapsStep K x .threadStart { x with s := s', tasks := x.tasks ++ [t] }
  | processExecute {t : Tid} {s₁ s' : Memory} (hkernel : x.s.space = .kernel) (ht : t ≠ 0)
      (hpcb : newTask x.s = .ok (t, s₁)) (hcall : processSpace t s₁ = .ok s') (hdir : s'.IsProcess t) :
      HeapsStep K x .processExecute { s := s', live := update x.live (.process t) [], tasks := x.tasks ++ [t] }

/-- The kernel pool has a frame left whenever a page table is needed. -/
def HeapEvent.Fits (K : Word) : HeapEvent → Memory → Prop
  | .sysMalloc size, s => HeapFits K size (s.locked s.space.flag)
  | .threadStart, s => MallocFits .kernel 1 s
  | .processExecute, s => MallocFits .kernel 1 s ∧ ∀ t s₁, newTask s = .ok (t, s₁) → SpaceFits t s₁
  | _, _ => True

/-- No heap page is mapped anew of which a translation is still cached. -/
def MapsUncached (s s' : Memory) : Prop :=
  ∀ n, s'.HeapPage n → mapped s.mem s.cr3 n = none → (∃ f, mapped s'.mem s'.cr3 n = some f) → s'.tlb n = none

/-- Page tables find their frames, and what the event maps is not cached. -/
structure HeapEvent.Sound (K : Word) (e : HeapEvent) (x : Heaps) : Prop where
  fits : e.Fits K x.s
  uncached : ∀ x', HeapsStep K x e x' → MapsUncached x.s x'.s

/-- The states that runs of sound steps reach which all meet a condition. -/
def HeapsRun (K : Word) (condition : HeapEvent → Heaps → Prop) : Heaps → Heaps → Prop :=
  Relation.ReflTransGen fun x x' => ∃ e : HeapEvent, e.Sound K x ∧ condition e x ∧ HeapsStep K x e x'

/-- A word in the page of the `taskStruct` at an address. A process has its descriptors there, which belong to its
heap. -/
structure InPcb (s : Memory) (p v : Word) : Prop where
  page : vpage v = vpage p
  aligned : v.toNat % 4 = 0
  descs : s.IsProcess p.toNat → ¬(p.toNat + 68 ≤ v.toNat ∧ v.toNat < p.toNat + 236)

/-- Every space has its heap, no two heaps share a word, and none of them has a word of a `taskStruct`. -/
structure HeapsInv (K : Word) (x : Heaps) (dir : Space → Nat) (arenas : Space → Arenas) : Prop where
  spaces : Spaces x.s dir
  aligned : ∀ t, x.s.IsProcess t → (x.s.task t).pageDir.toNat % 4096 = 0
  heaps : ∀ sp, sp.Exists x.s → HeapAt x.s dir sp (descsOf K sp) (arenas sp)
  busy : ∀ sp, Busy (arenas sp)
  live : ∀ sp, (arenas sp).live = x.live sp
  apart : ∀ sp sp' v, sp.Exists x.s → sp'.Exists x.s → sp ≠ sp' → v.toNat % 4 = 0 → home sp v = home sp' v →
    Zone (descsOf K sp) (arenas sp) v → ¬Zone (descsOf K sp') (arenas sp') v
  locks : ∀ pf, x.s.holder pf = none
  sizes : ∀ pf, (x.s.pool pf).poolSize.toNat ≤ 0x8000000
  cur : x.s.cur ∈ x.tasks
  processes : ∀ t, x.s.IsProcess t → t ∈ x.tasks
  pcbs : ∀ p : Word, p.toNat ∈ x.tasks → p.toNat % 4096 = 0
  tasks : ∀ p : Word, p.toNat ∈ x.tasks → ∀ v, InPcb x.s p v → Access x.s dir .kernel v ∧
    ∀ sp, sp.Exists x.s → home sp v = .kernel → ¬Zone (descsOf K sp) (arenas sp) v

theorem Around.mono {P Q : Space → Word → Prop} (h : Around s s' dir Q) (hP : ∀ sp v, P sp v → Q sp v) :
    Around s s' dir P :=
  ⟨h.spaces, h.shape, h.bits, h.holder, h.keeps.mono hP, h.frames⟩

namespace HeapsInv

variable {x x' : Heaps} (h : HeapsInv K x dir arenas)
include h

/-- The heap of the running thread. -/
theorem heap : HeapAt x.s dir x.s.space (descsOf K x.s.space) (arenas x.s.space) := h.heaps _ x.s.space_exists

/-- A call on the heap of the running thread leaves the heaps of the other spaces. -/
theorem around (haround : Around x.s s' dir fun sp v => home sp v = home x.s.space v →
      Spared (descsOf K x.s.space) (arenas x.s.space) live v)
    (hheap : HeapAt s' dir x.s.space (descsOf K x.s.space) H') (hbusy : Busy H')
    (hunseen : ∀ sp v, Access x.s dir sp v → home sp v = home x.s.space v → vpage v ∈ H'.allPages →
      vpage v ∈ (arenas x.s.space).allPages) :
    HeapsInv K { x with s := s', live := update x.live x.s.space H'.live } dir (update arenas x.s.space H') where
  spaces := haround.spaces
  aligned t ht := by
    have ht' := (haround.shape.isProcess t).1 ht
    change (s'.task t).pageDir.toNat % 4096 = 0
    rw [haround.shape.pageDir]
    exact h.aligned t ht'
  heaps sp hsp := by
    have hsp' := (haround.shape.exists_iff sp).1 hsp
    by_cases he : sp = x.s.space
    · subst he
      rw [update_self]
      exact hheap
    · rw [update_of_ne he]
      refine (h.heaps sp hsp').kept (fun v hv hacc => ?_) fun n _ hn hbit => ?_
      · refine haround.keeps sp v (fun hhome => .inl ?_) hsp' hacc
        exact h.apart _ _ v hsp' x.s.space_exists he hacc.cell.aligned hhome hv
      · exact ⟨haround.shape.heap_iff.2 hn, (haround.bits sp n he).trans hbit⟩
  busy sp := by
    by_cases he : sp = x.s.space
    · subst he
      rw [update_self]
      exact hbusy
    · rw [update_of_ne he]
      exact h.busy sp
  live sp := by
    change _ = update x.live x.s.space H'.live sp
    by_cases he : sp = x.s.space
    · subst he
      rw [update_self, update_self]
    · rw [update_of_ne he, update_of_ne he]
      exact h.live sp
  apart sp sp' v hsp hsp' hne haligned hhome hv hv' := by
    have hold := (haround.shape.exists_iff sp).1 hsp
    have hold' := (haround.shape.exists_iff sp').1 hsp'
    have hcur : ∀ sp₁, Space.Exists x.s sp₁ → sp₁ ≠ x.s.space → home sp₁ v = home x.s.space v →
        Zone (descsOf K sp₁) (arenas sp₁) v → ¬Zone (descsOf K x.s.space) H' v := by
      intro sp₁ hsp₁ hne₁ hhome₁ hzone hzone'
      refine h.apart _ _ v hsp₁ x.s.space_exists hne₁ haligned hhome₁ hzone (hzone'.imp_right fun hpage => ?_)
      exact hunseen sp₁ v ((h.heaps sp₁ hsp₁).mounted.2 v hzone haligned) hhome₁ hpage
    by_cases he : sp = x.s.space
    · have he' : sp' ≠ x.s.space := fun he' => hne (he.trans he'.symm)
      rw [update_of_ne he'] at hv'
      subst he
      rw [update_self] at hv
      exact hcur sp' hold' he' hhome.symm hv' hv
    · rw [update_of_ne he] at hv
      by_cases he' : sp' = x.s.space
      · subst he'
        rw [update_self] at hv'
        exact hcur sp hold he hhome hv hv'
      · rw [update_of_ne he'] at hv'
        exact h.apart sp sp' v hold hold' hne haligned hhome hv hv'
  locks pf := by
    change s'.holder pf = none
    rw [haround.holder]
    exact h.locks pf
  sizes pf := by
    have hsize := haround.shape.sizes pf
    change (s'.pool pf).poolSize.toNat ≤ _
    rw [hsize]
    exact h.sizes pf
  cur := by
    change s'.cur ∈ x.tasks
    rw [haround.shape.cur]
    exact h.cur
  processes t ht := h.processes t ((haround.shape.isProcess t).1 ht)
  pcbs := h.pcbs
  tasks p hp v hv := by
    obtain ⟨hacc, hno⟩ := h.tasks p hp v
      ⟨hv.page, hv.aligned, fun hproc => hv.descs ((haround.shape.isProcess _).2 hproc)⟩
    have hself : home .kernel v = home x.s.space v → ¬Zone (descsOf K x.s.space) (arenas x.s.space) v := by
      intro hhome
      rw [home_kernel] at hhome
      exact hno _ x.s.space_exists hhome.symm
    refine ⟨(haround.keeps .kernel v (fun hhome => .inl (hself hhome)) trivial hacc).1, fun sp hsp hhome hzone => ?_⟩
    by_cases he : sp = x.s.space
    · subst he
      rw [update_self] at hzone
      have hhome' : home .kernel v = home x.s.space v := by rw [home_kernel, hhome]
      exact hself hhome' (hzone.imp_right fun hpage => hunseen .kernel v hacc hhome' hpage)
    · rw [update_of_ne he] at hzone
      exact hno sp ((haround.shape.exists_iff sp).1 hsp) hhome hzone

theorem step_heap (hstep : HeapStep x.s s' dir (descsOf K x.s.space) (arenas x.s.space) H' live) (hbusy : Busy H') :
    HeapsInv K { x with s := s', live := update x.live x.s.space H'.live } dir (update arenas x.s.space H') :=
  h.around hstep.around hstep.heap hbusy fun _ _ => hstep.unseen h.spaces

/-- What a call of `sysMalloc` does. -/
theorem malloc_outcome (hfits : HeapFits K size (x.s.locked x.s.space.flag)) :
    MallocOutcome x.s dir (descsOf K x.s.space) size (arenas x.s.space) (HoloOS.sysMalloc K size x.s) :=
  h.heap.sysMalloc h.spaces (h.locks _) (h.sizes _) hfits

/-- A call of `sysFree` that returns. -/
theorem free_step (hlive : b ∈ x.live x.s.space) (hcall : HoloOS.sysFree b.ptr x.s = .ok s') :
    ∃ H', (arenas x.s.space).Free b H' ∧
      HeapStep x.s s' dir (descsOf K x.s.space) (arenas x.s.space) H' ((arenas x.s.space).live.erase b) := by
  rw [← h.live] at hlive
  obtain ⟨s₁, H', hfree, hmove, hstep⟩ := h.heap.sysFree h.spaces (h.locks _) hlive
  rw [hfree] at hcall
  cases hcall
  exact ⟨H', hmove, hstep⟩

/-- The word that a byte lies in, which the allocation holds as well. -/
theorem held_word (hlive : b ∈ x.live x.s.space) (hv : b.Holds v) : ∃ u : Word, u.toNat % 4 = 0 ∧
    u.toNat ≤ v.toNat ∧ v.toNat < u.toNat + 4 ∧ b.Holds u ∧ Writable x.s dir u := by
  have hwf := h.heap.wf
  rw [← h.live] at hlive
  have hnat : (BitVec.ofNat 32 (v.toNat / 4 * 4)).toNat = v.toNat / 4 * 4 := by
    have := v.isLt
    rw [BitVec.toNat_ofNat]
    omega
  have hmod := hwf.ptr_mod hlive
  have hold : b.Holds (BitVec.ofNat 32 (v.toNat / 4 * 4)) := by
    unfold Alloc.Holds at hv ⊢
    omega
  refine ⟨_, by omega, by omega, by omega, hold, ?_⟩
  exact h.heap.mounted.2 _ (.inr (hwf.holds_page hlive hold)) (by omega)

/-- A write to an allocation. -/
theorem write_step {val : BitVec 8} (hlive : b ∈ x.live x.s.space) (hv : b.Holds v)
    (hcall : x.s.storeByte v val = .ok s') : HeapStep x.s s' dir (descsOf K x.s.space) (arenas x.s.space)
      (arenas x.s.space) ((arenas x.s.space).live.erase b) := by
  obtain ⟨u, hualigned, hle, hlt, hold, hu⟩ := h.held_word hlive hv
  obtain ⟨a, s₁, -, hstore, hw⟩ := hu.storeByte h.spaces hle hlt val
  rw [hcall] at hstore
  cases hstore
  have hheap := h.heap
  rw [← h.live] at hlive
  have hne : ∀ v, Managed (descsOf K x.s.space) (arenas x.s.space) v → v ≠ u := by
    rintro v hm rfl
    exact hheap.wf.holds_not_managed hlive hold hm
  refine ⟨?_, by rw [hw.pokes.same], ?_, ?_, fun _ hn hno => absurd hn hno⟩
  · exact (hw.pokes.pageStep h.spaces).congr (fun n => by simp) fun n => by simp
  · obtain ⟨cnt, hr, hcount⟩ := hheap.words
    exact HeapAt.wrote h.spaces hw hheap.wf
      (hr.managed hheap.wf.toPlaced fun v hm => update_of_ne (hne v hm) _ _) hcount hheap.mounted hheap.pages
  · refine hw.keeps h.spaces fun v' hv' => update_of_ne ?_ _ _
    rintro rfl
    rcases hv' with hout | ⟨b', hb', hold'⟩
    · exact hout (.inr (hheap.wf.holds_page hlive hold))
    · obtain ⟨hne', hmem⟩ := hheap.wf.live_nodup.mem_erase_iff.1 hb'
      exact hheap.wf.apart hmem hlive hne' hold' hold

end HeapsInv

section Switch

variable (d : Nat) (tlb : Nat → Option Nat) (t : Tid)

theorem heap_switch : sp.Heap { s with cr3 := d, tlb := tlb, cur := t } n ↔ sp.Heap s n := by
  cases sp <;> exact Iff.rfl

theorem exists_switch : sp.Exists { s with cr3 := d, tlb := tlb, cur := t } ↔ sp.Exists s := by
  cases sp <;> exact Iff.rfl

/-- A switch keeps all words. -/
theorem switch_keeps (dir : Space → Nat) :
    KeepsWords s { s with cr3 := d, tlb := tlb, cur := t } dir fun _ _ => True := by
  intro sp v _ _ hacc
  obtain ⟨a, ha, hopen⟩ := hacc.reach
  have hcell : Cell { s with cr3 := d, tlb := tlb, cur := t } sp v :=
    ⟨hacc.cell.aligned, hacc.cell.page.imp_right (heap_switch d tlb t).2⟩
  have hdata : ∀ f, DataFrame s dir f → DataFrame { s with cr3 := d, tlb := tlb, cur := t } dir f := by
    intro f hf
    obtain ⟨sp', n, hn, hmapped⟩ := hf.page
    exact ⟨⟨sp', n, (heap_switch d tlb t).2 hn, hmapped⟩, hf.keep⟩
  refine ⟨⟨⟨hcell, a, ha, hopen.imp_right fun ⟨f, hf, hin⟩ => ⟨f, hdata f hf, hin⟩⟩, hacc.sees⟩, ?_⟩
  have ha' : place { s with cr3 := d, tlb := tlb, cur := t } dir sp v = some a := ha
  rw [word_of_place hcell ha', word_of_place hacc.cell ha]

theorem HeapAt.switch (h : HeapAt s dir sp D H) (hsp : sp.Exists s) :
    HeapAt { s with cr3 := d, tlb := tlb, cur := t } dir sp D H := by
  refine h.kept (fun v _ hacc => switch_keeps d tlb t dir sp v trivial hsp hacc) fun n _ hn hbit => ?_
  refine ⟨(heap_switch d tlb t).2 hn, ?_⟩
  rw [← hbit]
  cases sp <;> rfl

end Switch

namespace HeapsInv

variable {x x' : Heaps} {e : HeapEvent} (h : HeapsInv K x dir arenas)
include h

theorem switch (tlb : Nat → Option Nat) {d : Nat} (ht : t ∈ x.tasks)
    (hd : d = dir (if x.s.IsProcess t then .process t else .kernel)) :
    HeapsInv K { x with s := { x.s with cr3 := d, tlb := tlb, cur := t } } dir arenas where
  spaces := { h.spaces.activate tlb hd with low := h.spaces.low }
  aligned := h.aligned
  heaps sp hsp := (h.heaps sp ((exists_switch d tlb t).1 hsp)).switch d tlb t ((exists_switch d tlb t).1 hsp)
  busy := h.busy
  live := h.live
  apart sp sp' v hsp hsp' := h.apart sp sp' v ((exists_switch d tlb t).1 hsp) ((exists_switch d tlb t).1 hsp')
  locks := h.locks
  sizes pf := by
    have hsize := h.sizes pf
    cases pf <;> exact hsize
  cur := ht
  processes := h.processes
  pcbs := h.pcbs
  tasks u hu v hv := by
    obtain ⟨hacc, hno⟩ := h.tasks u hu v ⟨hv.page, hv.aligned, hv.descs⟩
    exact ⟨(switch_keeps d tlb t dir .kernel v trivial trivial hacc).1,
      fun sp hsp => hno sp ((exists_switch d tlb t).1 hsp)⟩

/-- A change of the caches. -/
theorem cached (tlb : Nat → Option Nat) : HeapsInv K { x with s := { x.s with tlb := tlb } } dir arenas :=
  h.switch tlb h.cur h.spaces.cr3

/-- The first word of a `taskStruct`. -/
theorem pcb_word (hp : p.toNat ∈ x.tasks) : InPcb x.s p p :=
  ⟨rfl, by have := h.pcbs p hp; omega, fun _ => by omega⟩

/-- A new thread is none of the threads, and no heap has a word of its page. -/
theorem new_page (hkernel : x.s.space = .kernel) (hp : KernelPages x.s s' dir p 1) :
    p.toNat ∉ x.tasks ∧ ∀ sp v, sp.Exists x.s → v.toNat % 4 = 0 → vpage v = vpage p → home sp v = .kernel →
      ¬Zone (descsOf K sp) (arenas sp) v := by
  have hunseen : ∀ sp v, Access x.s dir sp v → home sp v = .kernel → vpage v ≠ vpage p := by
    intro sp v hacc hhome hpage
    refine hp.malloced.unseen h.spaces hacc ?_ ⟨Nat.le_of_eq hpage.symm, by omega⟩
    rw [hhome, hkernel, home_kernel]
  refine ⟨fun hp' => ?_, fun sp v hsp haligned hpage hhome hzone => ?_⟩
  · exact hunseen .kernel p (h.tasks _ hp' p (h.pcb_word hp')).1 (home_kernel p) rfl
  · exact hunseen sp v ((h.heaps sp hsp).mounted.2 v hzone haligned) hhome hpage

theorem newTask_step (hkernel : x.s.space = .kernel) (hp : KernelPages x.s s' dir p 1) :
    HeapsInv K { x with s := s', tasks := x.tasks ++ [p.toNat] } dir arenas := by
  have hs := hp.staged
  have hexists : ∀ sp, Space.Exists s' sp → Space.Exists x.s sp := by
    intro sp hsp
    cases sp with
    | kernel => trivial
    | process t => exact (hs.isProcess t).1 hsp
  obtain ⟨-, hnew⟩ := h.new_page hkernel hp
  refine ⟨hp.spaces, fun t ht => ?_, fun sp hsp => ?_, h.busy, h.live, fun sp sp' v hsp hsp' => ?_, fun pf => ?_,
    fun pf => ?_, ?_, fun t ht => ?_, fun q hq => ?_, fun q hq v hv => ?_⟩
  · change (s'.task t).pageDir.toNat % 4096 = 0
    rw [hs.pageDir]
    exact h.aligned t ((hs.isProcess t).1 ht)
  · have hsp' := hexists sp hsp
    refine (h.heaps sp hsp').kept (fun v _ hacc => hp.keeps sp v trivial hsp' hacc) fun n _ hn hbit => ?_
    exact ⟨hs.kept.valid (.page sp n) hn, hs.kept.bit sp n hsp' hbit⟩
  · exact h.apart sp sp' v (hexists sp hsp) (hexists sp' hsp')
  · exact (congrFun hs.holder pf).trans (h.locks pf)
  · have hsize := hp.sizes pf
    change (s'.pool pf).poolSize.toNat ≤ _
    rw [hsize]
    exact h.sizes pf
  · change s'.cur ∈ _
    rw [hs.kept.cur]
    exact List.mem_append_left _ h.cur
  · exact List.mem_append_left _ (h.processes t ((hs.isProcess t).1 ht))
  · rcases List.mem_append.1 hq with hq | hq
    · exact h.pcbs q hq
    · obtain ⟨s₀, hr, -⟩ := hp.malloced.reserved
      have hq : q.toNat = p.toNat := List.mem_singleton.1 hq
      rw [hq]
      exact hr.aligned
  · rcases List.mem_append.1 hq with hq | hq
    · obtain ⟨hacc, hno⟩ := h.tasks q hq v ⟨hv.page, hv.aligned, fun hproc => hv.descs ((hs.isProcess _).2 hproc)⟩
      exact ⟨(hp.keeps .kernel v trivial trivial hacc).1, fun sp hsp => hno sp (hexists sp hsp)⟩
    · have hq : q.toNat = p.toNat := List.mem_singleton.1 hq
      have hpage : vpage v = vpage p := hv.page.trans (by unfold vpage; rw [hq])
      have hspace : s'.space = .kernel := hs.kept.space.trans hkernel
      have hdata := hp.malloced.dataPage h.spaces.toTables hp.spaces.toTables 0 Nat.one_pos
      rw [Nat.add_zero, ← hpage] at hdata
      have hacc := hdata.access hv.aligned
      rw [hspace] at hacc
      exact ⟨hacc, fun sp hsp => hnew sp v (hexists sp hsp) hv.aligned hpage⟩

/-- No heap has a word where the descriptors of a thread would be that is no process. -/
theorem descs_apart (hp : p.toNat ∈ x.tasks) (hproc : ¬x.s.IsProcess p.toNat) (hsp : sp.Exists x.s)
    (haligned : v.toNat % 4 = 0) (hhome : home sp v = .kernel) (hzone : Zone (descsOf K sp) (arenas sp) v) :
    ¬(p.toNat + 68 ≤ v.toNat ∧ v.toNat < p.toNat + 236) := by
  rintro ⟨hle, hlt⟩
  have hmod := h.pcbs p hp
  have hpage : vpage v = vpage p := by
    unfold vpage
    omega
  exact (h.tasks p hp v ⟨hpage, haligned, fun hp' => absurd hp' hproc⟩).2 sp hsp hhome hzone

/-- A new process leaves the heaps of the others. -/
theorem joined_keeps {f : Nat} (hp : p.toNat ∈ x.tasks) (hproc : ¬x.s.IsProcess p.toNat)
    (hj : Joined x.s s' dir p.toNat f) (hsp : sp.Exists x.s) (hacc : Access x.s dir sp v)
    (hzone : Zone (descsOf K sp) (arenas sp) v) : Access s' (update dir (.process p.toNat) f) sp v ∧
      word s' (update dir (.process p.toNat) f) sp v = word x.s dir sp v :=
  hj.keeps sp v hsp hacc fun ⟨hhome, hrange⟩ => h.descs_apart hp hproc hsp hacc.cell.aligned hhome hzone hrange

omit h in
/-- An empty heap of a process is its descriptors, in its `taskStruct`. -/
theorem empty_zone (hmod : p.toNat % 4096 = 0) (hv : Zone (descsOf K (.process p.toNat)) Arenas.empty v) :
    p.toNat + 68 ≤ v.toNat ∧ v.toNat < p.toNat + 236 := by
  have hword : descsOf K (.process p.toNat) = p + 68 := by
    rw [descsOf, BitVec.ofNat_toNat, BitVec.setWidth_eq]
  have hnat : (p + 68).toNat = p.toNat + 68 := by
    have hlt := p.isLt
    have h68 : (68 : Word).toNat = 68 := rfl
    rw [BitVec.toNat_add, h68]
    omega
  rcases hv with hdescs | hpage
  · rw [hword, hnat] at hdescs
    omega
  · rw [allPages_empty] at hpage
    exact absurd hpage List.not_mem_nil

omit h in
/-- What a process shares with another space is the kernel's. -/
theorem home_shared {t : Tid} (hne : sp ≠ .process t) (hhome : home (.process t) v = home sp v) :
    home sp v = .kernel := by
  by_cases hlow : v.toNat < 0xc0000000
  · rw [home_low hlow, home_low hlow] at hhome
    exact absurd hhome.symm hne
  · exact home_high (Nat.not_lt.1 hlow)

omit h in
theorem joined_exists {f : Nat} (hj : Joined x.s s' dir p.toNat f) (hsp : sp.Exists s')
    (hne : sp ≠ .process p.toNat) : sp.Exists x.s := by
  cases sp with
  | kernel => trivial
  | process u => exact ((hj.isProcess u).1 hsp).resolve_left fun hu => hne (by rw [hu])

/-- The words of a `taskStruct` are those of no heap when a thread has become a process. -/
theorem joined_pcb {f : Nat} {q : Word} (hp : p.toNat ∈ x.tasks) (hj : Joined x.s s' dir p.toNat f)
    (hq : q.toNat ∈ x.tasks) (hv : InPcb s' q v) :
    Access s' (update dir (.process p.toNat) f) .kernel v ∧ ∀ sp, sp.Exists s' → home sp v = .kernel →
      ¬Zone (descsOf K sp) (update arenas (.process p.toNat) Arenas.empty sp) v := by
  have hmod := h.pcbs p hp
  have hdescs : ¬(p.toNat + 68 ≤ v.toNat ∧ v.toNat < p.toNat + 236) := by
    by_cases he : q = p
    · rw [← he]
      exact hv.descs ((hj.isProcess _).2 (.inl (by rw [he])))
    · have hpage := hv.page
      have hmod' := h.pcbs q hq
      unfold vpage at hpage
      intro hrange
      exact he (BitVec.eq_of_toNat_eq (by omega))
  obtain ⟨hacc, hno⟩ := h.tasks q hq v ⟨hv.page, hv.aligned, fun hq' => hv.descs ((hj.isProcess _).2 (.inr hq'))⟩
  refine ⟨(hj.keeps .kernel v trivial hacc fun ⟨_, hrange⟩ => hdescs hrange).1, fun sp hsp hhome hzone => ?_⟩
  by_cases he : sp = .process p.toNat
  · subst he
    rw [update_self] at hzone
    exact hdescs (empty_zone hmod hzone)
  · rw [update_of_ne he] at hzone
    exact hno sp (joined_exists hj hsp he) hhome hzone

/-- A thread becomes a process, with an empty heap. -/
theorem join_step {f : Nat} (hp : p.toNat ∈ x.tasks) (hproc : ¬x.s.IsProcess p.toNat)
    (hj : Joined x.s s' dir p.toNat f) :
    HeapsInv K { x with s := s', live := update x.live (.process p.toNat) [] } (update dir (.process p.toNat) f)
      (update arenas (.process p.toNat) Arenas.empty) := by
  have hmod := h.pcbs p hp
  refine ⟨hj.spaces, fun t ht => ?_, fun sp hsp => ?_, fun sp => ?_, fun sp => ?_,
    fun sp sp' v hsp hsp' hne haligned hhome hzone hzone' => ?_, fun pf => ?_, fun pf => ?_, ?_, fun t ht => ?_,
    h.pcbs, fun q hq v hv => h.joined_pcb hp hj hq hv⟩
  · rcases (hj.isProcess t).1 ht with rfl | ht
    · exact hj.aligned
    · change (s'.task t).pageDir.toNat % 4096 = 0
      rw [hj.kept.pageDir t ht]
      exact h.aligned t ht
  · by_cases he : sp = .process p.toNat
    · subst he
      rw [update_self, descsOf]
      exact hj.heap
    · have hsp' := joined_exists hj hsp he
      rw [update_of_ne he]
      refine (h.heaps sp hsp').kept (fun v hv hacc => h.joined_keeps hp hproc hj hsp' hacc hv) fun n _ hn hbit => ?_
      exact ⟨hj.kept.valid (.page sp n) hn, hj.kept.bit sp n hsp' hbit⟩
  · by_cases he : sp = .process p.toNat
    · subst he
      rw [update_self]
      exact busy_empty
    · rw [update_of_ne he]
      exact h.busy sp
  · change _ = update x.live (.process p.toNat) [] sp
    by_cases he : sp = .process p.toNat
    · subst he
      rw [update_self, update_self]
      rfl
    · rw [update_of_ne he, update_of_ne he]
      exact h.live sp
  · by_cases he : sp = .process p.toNat
    · subst he
      have hne' := hne.symm
      rw [update_self] at hzone
      rw [update_of_ne hne'] at hzone'
      have hkernel := home_shared hne' hhome
      exact h.descs_apart hp hproc (joined_exists hj hsp' hne') haligned hkernel hzone' (empty_zone hmod hzone)
    · rw [update_of_ne he] at hzone
      have hold := joined_exists hj hsp he
      by_cases he' : sp' = .process p.toNat
      · subst he'
        rw [update_self] at hzone'
        exact h.descs_apart hp hproc hold haligned (home_shared he hhome.symm) hzone (empty_zone hmod hzone')
      · rw [update_of_ne he'] at hzone'
        exact h.apart sp sp' v hold (joined_exists hj hsp' he') hne haligned hhome hzone hzone'
  · exact (congrFun hj.holder pf).trans (h.locks pf)
  · have hsize := hj.sizes pf
    change (s'.pool pf).poolSize.toNat ≤ _
    rw [hsize]
    exact h.sizes pf
  · change s'.cur ∈ x.tasks
    rw [hj.kept.cur]
    exact h.cur
  · rcases (hj.isProcess t).1 ht with rfl | ht
    · exact hp
    · exact h.processes t ht

/-- `newTask` that gets a page. -/
theorem new_task {t : Tid} (hkernel : x.s.space = .kernel) (hfits : MallocFits .kernel 1 x.s) (ht : t ≠ 0)
    (hcall : newTask x.s = .ok (t, s')) : ∃ p : Word, p.toNat = t ∧ KernelPages x.s s' dir p 1 :=
  h.spaces.newTask hkernel hfits
    (fun v _ hv => (h.tasks v (h.processes _ hv) v (h.pcb_word (h.processes _ hv))).1) ht hcall

/-- A process is a thread that gets a space. -/
theorem new_process (hkernel : x.s.space = .kernel) (hp : KernelPages x.s s₁ dir p 1) (hfits : SpaceFits p.toNat s₁)
    (hcall : processSpace p.toNat s₁ = .ok s') (hdir : s'.IsProcess p.toNat) :
    ¬s₁.IsProcess p.toNat ∧ ∃ f, Joined s₁ s' dir p.toNat f := by
  obtain ⟨hfresh, -⟩ := h.new_page hkernel hp
  have hs := hp.staged
  have h₁ := h.newTask_step hkernel hp
  have hproc : ¬s₁.IsProcess p.toNat := fun hproc => hfresh (h.processes _ ((hs.isProcess _).1 hproc))
  have hcur : p.toNat ≠ s₁.cur := by
    rw [hs.kept.cur]
    exact fun he => hfresh (he ▸ h.cur)
  have hdata := hp.malloced.dataPage h.spaces.toTables hp.spaces.toTables 0 Nat.one_pos
  have hmod : p.toNat % 4096 = 0 := h₁.pcbs p (List.mem_append_right _ (List.mem_singleton_self _))
  exact ⟨hproc, h₁.spaces.processSpace (hs.kept.space.trans hkernel) rfl hmod hproc hcur hdata hfits hcall hdir⟩

/-- One step. -/
theorem step (hfits : e.Fits K x.s) (hstep : HeapsStep K x e x') :
    ∃ dir' arenas', HeapsInv K x' dir' arenas' ∧ ∀ sp, sp.Exists x.s → dir' sp = dir sp := by
  cases hstep with
  | @sysMalloc size p s' hcall =>
      have hout := h.malloc_outcome hfits
      rw [hcall] at hout
      cases hout with
      | refused =>
          refine ⟨dir, arenas, ?_, fun _ _ => rfl⟩
          rw [Alloc.ofResult, List.nil_append, update_eq_self]
          exact h
      | full _ _ _ haround hheap =>
          have haround' : Around x.s s' dir fun sp v => home sp v = home x.s.space v →
              Spared (descsOf K x.s.space) (arenas x.s.space) [] v := haround.mono fun _ _ _ => trivial
          have hinv := h.around haround' hheap (h.busy _) fun _ _ _ _ hpage => hpage
          rw [h.live] at hinv
          exact ⟨dir, _, hinv, fun _ _ => rfl⟩
      | served _ _ hmalloc hstep =>
          have hinv := h.step_heap hstep ((h.busy _).malloc h.heap.wf hmalloc)
          rw [hmalloc.live, h.live] at hinv
          exact ⟨dir, _, hinv, fun _ _ => rfl⟩
  | sysFree hlive hcall =>
      obtain ⟨H', hfree, hstep⟩ := h.free_step hlive hcall
      rw [← h.live] at hlive
      have hinv := h.step_heap hstep ((h.busy _).free h.heap.wf hlive hfree)
      rw [hfree.live, h.live] at hinv
      exact ⟨dir, _, hinv, fun _ _ => rfl⟩
  | write hlive hv hcall =>
      have hinv := h.step_heap (h.write_step hlive hv hcall) (h.busy _)
      rw [h.live, update_eq_self, update_eq_self] at hinv
      exact ⟨dir, _, hinv, fun _ _ => rfl⟩
  | @processActivate t s' htask hcall =>
      rw [h.spaces.activated (h.aligned t) hcall]
      exact ⟨dir, arenas, h.switch _ htask rfl, fun _ _ => rfl⟩
  | access hpage => exact ⟨dir, arenas, h.cached _, fun _ _ => rfl⟩
  | evict => exact ⟨dir, arenas, h.cached _, fun _ _ => rfl⟩
  | threadStart hkernel ht hcall =>
      obtain ⟨p, rfl, hp⟩ := h.new_task hkernel hfits ht hcall
      exact ⟨dir, arenas, h.newTask_step hkernel hp, fun _ _ => rfl⟩
  | @processExecute t s₁ s' hkernel ht hpcb hcall hdir =>
      obtain ⟨p, rfl, hp⟩ := h.new_task hkernel hfits.1 ht hpcb
      obtain ⟨hproc, f, hj⟩ := h.new_process hkernel hp (hfits.2 _ _ hpcb) hcall hdir
      have hmem : p.toNat ∈ x.tasks ++ [p.toNat] := List.mem_append_right _ (List.mem_singleton_self _)
      refine ⟨_, _, (h.newTask_step hkernel hp).join_step hmem hproc hj, fun sp hsp => update_of_ne ?_ _ _⟩
      rintro rfl
      exact hproc ((hp.staged.isProcess _).2 hsp)

/-- An allocation of which every word is kept. -/
theorem held_kept {P : Space → Word → Prop} (hkeeps : KeepsWords x.s s' dir P) (hsp : sp.Exists x.s)
    (hb : b ∈ x.live sp) (hP : ∀ v, v.toNat % 4 = 0 → b.Holds v → P sp v) (hv : b.Holds v) :
    word s' dir sp v = word x.s dir sp v := by
  by_cases haligned : v.toNat % 4 = 0
  · rw [← h.live] at hb
    have hheap := h.heaps sp hsp
    have hacc := hheap.mounted.2 v (.inr (hheap.wf.holds_page hb hv)) haligned
    exact (hkeeps sp v (hP v haligned hv) hsp hacc).2
  · rw [word_unaligned haligned, word_unaligned haligned]

/-- A call on the heap of the running thread keeps the allocations of the other spaces, and those of its own that it
says. -/
theorem held_spared (hkeeps : KeepsWords x.s s' dir fun sp v => home sp v = home x.s.space v →
      Spared (descsOf K x.s.space) (arenas x.s.space) live v)
    (hsp : sp.Exists x.s) (hb : b ∈ x.live sp) (hlive : sp = x.s.space → b ∈ live) (hv : b.Holds v) :
    word s' dir sp v = word x.s dir sp v := by
  refine h.held_kept hkeeps hsp hb (fun v haligned hv hhome => ?_) hv
  by_cases he : sp = x.s.space
  · exact .inr ⟨b, hlive he, hv⟩
  · rw [← h.live] at hb
    exact .inl (h.apart _ _ v hsp x.s.space_exists he haligned hhome (.inr ((h.heaps sp hsp).wf.holds_page hb hv)))

theorem run {condition : HeapEvent → Heaps → Prop} (hrun : HeapsRun K condition x x') :
    ∃ dir' arenas', HeapsInv K x' dir' arenas' := by
  induction hrun with
  | refl => exact ⟨dir, arenas, h⟩
  | tail _ hlast ih =>
      obtain ⟨dir', arenas', h'⟩ := ih
      obtain ⟨e, hsound, -, hstep⟩ := hlast
      obtain ⟨dir'', arenas'', h'', -⟩ := h'.step hsound.fits hstep
      exact ⟨dir'', arenas'', h''⟩

end HeapsInv

end HoloOS
