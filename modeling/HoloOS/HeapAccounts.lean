import HoloOS.HeapRuns

/-! What runs of the heaps keep and what they give back. An allocation that is neither freed nor written to keeps its
contents, whatever the other threads do, and the pages in use are those of the heaps. -/

namespace HoloOS

open Function Paging

variable {s s' : Memory} {dir dir' : Space → Nat} {sp : Space} {D K a v p size : Word} {H H' : Arenas} {b : Alloc}
  {n : Nat}
  {live : List Alloc} {arenas arenas' : Space → Arenas} {t : Tid}

/-- The event neither frees the allocation nor writes to it. -/
def HeapEvent.Leaves (sp : Space) (b : Alloc) : HeapEvent → Heaps → Prop
  | .sysFree b', x => ¬(x.s.space = sp ∧ b' = b)
  | .write b' _ _, x => ¬(x.s.space = sp ∧ b' = b)
  | _, _ => True

theorem mem_update_live {x : Heaps} {l : List Alloc} (hb : b ∈ x.live sp) (hl : sp = x.s.space → b ∈ l) :
    b ∈ update x.live x.s.space l sp := by
  by_cases he : sp = x.s.space
  · subst he
    rw [update_self]
    exact hl rfl
  · rw [update_of_ne he]
    exact hb

/-- A word is that of a new list of directories with the old ones in it. -/
theorem word_update {t : Tid} {f : Nat} (hsp : sp ≠ .process t) :
    word s (update dir (.process t) f) sp v = word s dir sp v := by
  have hhome : home sp v ≠ .process t := by
    unfold home
    split
    · exact hsp
    · simp
  rw [word, word, place, place, update_of_ne hhome]

theorem word_dirs (hsp : sp.Exists s) (hdir : ∀ sp, sp.Exists s → dir' sp = dir sp) :
    word s' dir' sp v = word s' dir sp v := by
  rw [word, word, place, place, hdir _ (home_exists hsp v)]

section Contents

variable {x x' : Heaps} {e : HeapEvent} (h : HeapsInv K x dir arenas)
include h

/-- An allocation that the event leaves is live after it, with the same contents. -/
theorem HeapsInv.step_contents (hsp : sp.Exists x.s) (hb : b ∈ x.live sp) (hfits : e.Fits K x.s)
    (hleaves : e.Leaves sp b x)
    (hstep : HeapsStep K x e x') :
    b ∈ x'.live sp ∧ sp.Exists x'.s ∧ ∀ v, b.Holds v → word x'.s dir sp v = word x.s dir sp v := by
  cases hstep with
  | @sysMalloc size p s' hcall =>
      have hmem : b ∈ update x.live x.s.space (Alloc.ofResult size p ++ x.live x.s.space) sp := by
        refine mem_update_live hb fun he => List.mem_append_right _ ?_
        rw [← he]
        exact hb
      have hout := h.malloc_outcome hfits
      rw [hcall] at hout
      cases hout with
      | refused => exact ⟨hmem, hsp, fun _ _ => rfl⟩
      | full _ _ _ haround =>
          refine ⟨hmem, (haround.shape.exists_iff sp).2 hsp, fun v hv => ?_⟩
          exact h.held_kept haround.keeps hsp hb (fun _ _ _ => trivial) hv
      | served _ _ hmalloc hstep =>
          refine ⟨hmem, (hstep.pages.shape.exists_iff sp).2 hsp, fun v hv => ?_⟩
          refine h.held_spared hstep.keeps hsp hb (fun he => ?_) hv
          rw [h.live, ← he]
          exact hb
  | @sysFree b' s' hlive hcall =>
      obtain ⟨H', hfree, hstep⟩ := h.free_step hlive hcall
      have hlive' : sp = x.s.space → b ∈ (x.live x.s.space).erase b' := by
        rintro rfl
        have hnodup := h.heap.wf.live_nodup
        rw [h.live] at hnodup
        exact hnodup.mem_erase_iff.2 ⟨fun he => hleaves ⟨rfl, he.symm⟩, hb⟩
      refine ⟨mem_update_live hb hlive', (hstep.pages.shape.exists_iff sp).2 hsp, fun v hv => ?_⟩
      refine h.held_spared hstep.keeps hsp hb (fun he => ?_) hv
      rw [h.live]
      exact hlive' he
  | @write b' u val s' hlive hu hcall =>
      have hstep := h.write_step hlive hu hcall
      refine ⟨hb, (hstep.pages.shape.exists_iff sp).2 hsp, fun v hv => ?_⟩
      refine h.held_spared hstep.keeps hsp hb (fun he => ?_) hv
      subst he
      rw [← h.live] at hb
      exact h.heap.wf.live_nodup.mem_erase_iff.2 ⟨fun he => hleaves ⟨rfl, he.symm⟩, hb⟩
  | @processActivate t s' _ hcall =>
      rw [h.spaces.activated (h.aligned t) hcall]
      refine ⟨hb, (exists_switch _ _ t).2 hsp, fun v hv => ?_⟩
      exact h.held_kept (switch_keeps _ _ t dir) hsp hb (fun _ _ _ => trivial) hv
  | access hpage =>
      refine ⟨hb, (exists_switch _ _ x.s.cur).2 hsp, fun v hv => ?_⟩
      exact h.held_kept (switch_keeps x.s.cr3 _ x.s.cur dir) hsp hb (fun _ _ _ => trivial) hv
  | evict =>
      refine ⟨hb, (exists_switch _ _ x.s.cur).2 hsp, fun v hv => ?_⟩
      exact h.held_kept (switch_keeps x.s.cr3 _ x.s.cur dir) hsp hb (fun _ _ _ => trivial) hv
  | threadStart hkernel ht hcall =>
      obtain ⟨p, rfl, hp⟩ := h.new_task hkernel hfits ht hcall
      exact ⟨hb, hp.staged.kept.spaces sp hsp, fun v hv => h.held_kept hp.keeps hsp hb (fun _ _ _ => trivial) hv⟩
  | @processExecute t s₁ s' hkernel ht hpcb hcall hdir =>
      obtain ⟨p, rfl, hp⟩ := h.new_task hkernel hfits.1 ht hpcb
      obtain ⟨hproc, f, hj⟩ := h.new_process hkernel hp (hfits.2 _ _ hpcb) hcall hdir
      have h₁ := h.newTask_step hkernel hp
      have hsp₁ := hp.staged.kept.spaces sp hsp
      have hne : sp ≠ .process p.toNat := by
        rintro rfl
        exact hproc hsp₁
      refine ⟨?_, hj.kept.spaces sp hsp₁, fun v hv => ?_⟩
      · change b ∈ update x.live _ _ sp
        rw [update_of_ne hne]
        exact hb
      · refine Eq.trans ?_ (h.held_kept hp.keeps hsp hb (fun _ _ _ => trivial) hv)
        by_cases haligned : v.toNat % 4 = 0
        · rw [← h.live] at hb
          have hzone : Zone (descsOf K sp) (arenas sp) v := .inr ((h.heaps sp hsp).wf.holds_page hb hv)
          have hacc := (h₁.heaps sp hsp₁).mounted.2 v hzone haligned
          have hmem : p.toNat ∈ x.tasks ++ [p.toNat] := List.mem_append_right _ (List.mem_singleton_self _)
          rw [← word_update hne]
          exact (h₁.joined_keeps hmem hproc hj hsp₁ hacc hzone).2
        · rw [word_unaligned haligned, word_unaligned haligned]

/-- An allocation that a run leaves keeps its contents. -/
theorem HeapsInv.run_contents (hsp : sp.Exists x.s) (hb : b ∈ x.live sp)
    (hrun : HeapsRun K (HeapEvent.Leaves sp b) x x') :
    ∃ dir' arenas', HeapsInv K x' dir' arenas' ∧ b ∈ x'.live sp ∧ sp.Exists x'.s ∧
      ∀ v, b.Holds v → word x'.s dir' sp v = word x.s dir sp v := by
  induction hrun with
  | refl => exact ⟨dir, arenas, h, hb, hsp, fun _ _ => rfl⟩
  | tail _ hlast ih =>
      obtain ⟨dir', arenas', h', hb', hsp', hsame⟩ := ih
      obtain ⟨e, hsound, hleaves, hstep⟩ := hlast
      obtain ⟨hb'', hsp'', hsame'⟩ := h'.step_contents hsp' hb' hsound.fits hleaves hstep
      obtain ⟨dir'', arenas'', h'', hdir⟩ := h'.step hsound.fits hstep
      refine ⟨dir'', arenas'', h'', hb'', hsp'', fun v hv => ?_⟩
      rw [word_dirs hsp' hdir, hsame' v hv, hsame v hv]

end Contents

/-- A call that asks for memory gets it, and nothing is created. -/
def HeapEvent.Served (K : Word) : HeapEvent → Heaps → Prop
  | .sysMalloc size, x => size ≠ 0 → size < (x.s.pool x.s.space.flag).poolSize →
      ∃ p s', HoloOS.sysMalloc K size x.s = .ok (some p, s')
  | .threadStart, _ => False
  | .processExecute, _ => False
  | _, _ => True

/-- The pages that are marked and mapped are those of a first state and of the heaps, and no frame has been lost
since. -/
structure Accounts (x₀ x : Heaps) (dir : Space → Nat) (arenas : Space → Arenas) : Prop where
  exists_iff : ∀ sp, Space.Exists x.s sp ↔ Space.Exists x₀.s sp
  heap_iff : ∀ sp n, Space.Heap x.s sp n ↔ Space.Heap x₀.s sp n
  fresh : ∀ sp, ∀ n ∈ (arenas sp).allPages, sp.bit x₀.s n = false
  bits : ∀ sp n, sp.bit x.s n = true ↔ sp.bit x₀.s n = true ∨ n ∈ (arenas sp).allPages
  frames : ∀ sp n, Space.Heap x₀.s sp n → ((∃ f, mapped x.s.mem (dir sp) n = some f) ↔
    (∃ f, mapped x₀.s.mem (dir sp) n = some f) ∨ n ∈ (arenas sp).allPages)
  stray : ∀ pf a, Stray x.s dir pf a ↔ Stray x₀.s dir pf a

theorem stray_switch (d : Nat) (tlb : Nat → Option Nat) (t : Tid) (pf : PoolFlags) (a : Nat) :
    Stray { s with cr3 := d, tlb := tlb, cur := t } dir pf a ↔ Stray s dir pf a := by
  have hvalid : ∀ o : Owner, o.Valid { s with cr3 := d, tlb := tlb, cur := t } ↔ o.Valid s := by
    intro o
    cases o with
    | table sp i => cases sp <;> exact Iff.rfl
    | page sp n => exact heap_switch d tlb t
  unfold Stray
  refine and_congr ?_ (forall_congr' fun o => by rw [hvalid])
  cases pf <;> exact Iff.rfl

section Accounts

variable {x₀ x x' : Heaps} {e : HeapEvent} (h₀ : Spaces x₀.s dir) (h : HeapsInv K x dir arenas)
  (hacc : Accounts x₀ x dir arenas)
include hacc

theorem Accounts.switch (d : Nat) (tlb : Nat → Option Nat) (t : Tid) :
    Accounts x₀ { x with s := { x.s with cr3 := d, tlb := tlb, cur := t } } dir arenas where
  exists_iff sp := (exists_switch d tlb t).trans (hacc.exists_iff sp)
  heap_iff sp n := (heap_switch d tlb t).trans (hacc.heap_iff sp n)
  fresh := hacc.fresh
  bits sp n := by
    rw [← hacc.bits]
    cases sp <;> exact Iff.rfl
  frames := hacc.frames
  stray pf a := (stray_switch d tlb t pf a).trans (hacc.stray pf a)

include h₀ in
/-- A call that returns what it was asked for takes and gives back its pages. -/
theorem Accounts.step_heap (hstep : HeapStep x.s s' dir (descsOf K x.s.space) (arenas x.s.space) H' live)
    (l : Space → List Alloc) : Accounts x₀ { x with s := s', live := l } dir (update arenas x.s.space H') := by
  have hp := hstep.pages
  have hfresh : ∀ n ∈ H'.allPages, x.s.space.bit x₀.s n = false := by
    intro n hn
    by_cases hold : n ∈ (arenas x.s.space).allPages
    · exact hacc.fresh _ n hold
    · rw [← Bool.not_eq_true]
      intro hset
      have hbit := (hacc.bits x.s.space n).2 (.inl hset)
      rw [hstep.fresh n hn hold] at hbit
      cases hbit
  refine ⟨fun sp => (hp.shape.exists_iff sp).trans (hacc.exists_iff sp),
    fun sp n => hp.shape.heap_iff.trans (hacc.heap_iff sp n), fun sp n hn => ?_, fun sp n => ?_, fun sp n hn => ?_,
    fun pf a => (hp.stray pf a).trans (hacc.stray pf a)⟩
  · by_cases he : sp = x.s.space
    · subst he
      rw [update_self] at hn
      exact hfresh n hn
    · rw [update_of_ne he] at hn
      exact hacc.fresh sp n hn
  · change Space.bit s' sp n = true ↔ _
    by_cases he : sp = x.s.space
    · subst he
      have hclear := hacc.fresh x.s.space n
      rw [update_self, hp.bit, hacc.bits]
      grind
    · rw [update_of_ne he, hp.bits sp n he]
      exact hacc.bits sp n
  · change (∃ f, mapped s'.mem (dir sp) n = some f) ↔ _
    by_cases he : sp = x.s.space
    · subst he
      have hclear : n ∈ (arenas x.s.space).allPages → ¬∃ f, mapped x₀.s.mem (dir x.s.space) n = some f := by
        rintro hin ⟨f, hf⟩
        rw [h₀.clear _ _ hn (hacc.fresh _ n hin)] at hf
        cases hf
      rw [update_self, hp.frame n ((hacc.heap_iff _ n).2 hn), hacc.frames _ n hn]
      tauto
    · rw [update_of_ne he, hp.frames sp n he ((hacc.heap_iff sp n).2 hn)]
      exact hacc.frames sp n hn

include h₀ h

theorem HeapsInv.step_accounts (hfits : e.Fits K x.s) (hserved : e.Served K x) (hstep : HeapsStep K x e x') :
    ∃ arenas', HeapsInv K x' dir arenas' ∧ Accounts x₀ x' dir arenas' := by
  cases hstep with
  | @sysMalloc size p s' hcall =>
      have hout := h.malloc_outcome hfits
      rw [hcall] at hout
      cases hout with
      | refused =>
          refine ⟨arenas, ?_⟩
          rw [Alloc.ofResult, List.nil_append, update_eq_self]
          exact ⟨h, hacc⟩
      | full _ _ _ haround hheap =>
          by_cases hguard : Refused x.s size
          · rw [sysMalloc_refused hguard] at hcall
            cases hcall
            refine ⟨arenas, ?_⟩
            rw [Alloc.ofResult, List.nil_append, update_eq_self]
            exact ⟨h, hacc⟩
          · obtain ⟨hsize, hlt⟩ := not_or.1 hguard
            obtain ⟨p, s₁, hcall'⟩ := hserved hsize (BitVec.not_le.1 hlt)
            rw [hcall] at hcall'
            cases hcall'
      | served _ _ hmalloc hstep =>
          have hinv := h.step_heap hstep ((h.busy _).malloc h.heap.wf hmalloc)
          rw [hmalloc.live, h.live] at hinv
          exact ⟨_, hinv, hacc.step_heap h₀ hstep _⟩
  | sysFree hlive hcall =>
      obtain ⟨H', hfree, hstep⟩ := h.free_step hlive hcall
      rw [← h.live] at hlive
      have hinv := h.step_heap hstep ((h.busy _).free h.heap.wf hlive hfree)
      rw [hfree.live, h.live] at hinv
      exact ⟨_, hinv, hacc.step_heap h₀ hstep _⟩
  | write hlive hv hcall =>
      have hstep := h.write_step hlive hv hcall
      have hinv := h.step_heap hstep (h.busy _)
      have hacc' := hacc.step_heap h₀ hstep x.live
      rw [h.live, update_eq_self, update_eq_self] at hinv
      rw [update_eq_self] at hacc'
      exact ⟨_, hinv, hacc'⟩
  | @processActivate t s' htask hcall =>
      rw [h.spaces.activated (h.aligned t) hcall]
      exact ⟨arenas, h.switch _ htask rfl, hacc.switch _ _ t⟩
  | access hpage => exact ⟨arenas, h.cached _, hacc.switch _ _ _⟩
  | evict => exact ⟨arenas, h.cached _, hacc.switch _ _ _⟩
  | threadStart => exact hserved.elim
  | processExecute => exact hserved.elim

omit h h₀ hacc in
/-- A run in which every call that asks for memory gets it. -/
theorem HeapsInv.run_accounts (h : HeapsInv K x₀ dir arenas) (hempty : ∀ sp, (arenas sp).allPages = [])
    (hrun : HeapsRun K (HeapEvent.Served K) x₀ x) :
    ∃ arenas', HeapsInv K x dir arenas' ∧ Accounts x₀ x dir arenas' := by
  induction hrun with
  | refl =>
      refine ⟨arenas, h, fun _ => Iff.rfl, fun _ _ => Iff.rfl, fun sp n hn => ?_, fun sp n => ?_, fun sp n _ => ?_,
        fun _ _ => Iff.rfl⟩
      · rw [hempty] at hn
        exact absurd hn List.not_mem_nil
      · simp [hempty]
      · simp [hempty]
  | tail _ hlast ih =>
      obtain ⟨arenas', h', hacc⟩ := ih
      obtain ⟨e, hsound, hserved, hstep⟩ := hlast
      exact h'.step_accounts h.spaces hacc hsound.fits hserved hstep

end Accounts

end HoloOS
