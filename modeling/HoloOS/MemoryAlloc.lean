import HoloOS.MemoryTables

/-! `mallocPage`, `getPage` and `mfreePage` on `Tables`. As long as the kernel pool has a frame left
whenever `pageTableAdd` needs one for a page table, an allocation maps unmapped pages to frames that
were free and changes no other page, table or directory entry. -/

namespace HoloOS

open Function Paging

variable {s s₁ s' : Memory} {dir : Space → Nat} {pf : PoolFlags} {vaddr : Word} {n lo hi : Nat}

/-- Pages of the running thread's space from `lo` up to `hi` may have been mapped, and tables behind
them made; nothing else has changed. -/
structure Grew (s s' : Memory) (dir : Space → Nat) (lo hi : Nat) : Prop where
  same : s' = { s with mem := s'.mem, kernelPool := s'.kernelPool, userPool := s'.userPool }
  keeps : ∀ o f, Owner.Valid s o → o.frame s.mem dir = some f → o.frame s'.mem dir = some f
  fresh : ∀ o f, Owner.Valid s o → o.frame s'.mem dir = some f → o.frame s.mem dir = some f ∨
    ∃ n, lo ≤ n ∧ n < hi ∧ (o = .page s.space n ∨ o = .table s.space (n / 1024))
  dirs : ∀ sp i f, Space.Exists s sp → i < 1024 → entry s.mem (dir sp) i = some f →
    entry s'.mem (dir sp) i = some f
  other : ∀ sp i, Space.Exists s sp → i < 1024 → (∀ n, lo ≤ n → n < hi → ¬(sp = s.space ∧ i = n / 1024)) →
    entry s'.mem (dir sp) i = entry s.mem (dir sp) i
  taken : ∀ pf a, (s'.pool pf).Free a → (s.pool pf).Free a
  born : ∀ o f, Owner.Valid s o → o.frame s.mem dir = none → o.frame s'.mem dir = some f →
    (s.pool o.flag).Free f
  used : ∀ pf a, (s.pool pf).Used a → (s'.pool pf).Used a
  spent : ∀ pf a, (s'.pool pf).Used a → (s.pool pf).Used a ∨ ∃ o, Owner.Valid s o ∧ o.flag = pf ∧
    o.frame s.mem dir = none ∧ o.frame s'.mem dir = some a

theorem Grew.refl (s : Memory) (dir : Space → Nat) (lo hi : Nat) : Grew s s dir lo hi :=
  ⟨rfl, fun _ _ _ h => h, fun _ _ _ h => Or.inl h, fun _ _ _ _ _ h => h, fun _ _ _ _ _ => rfl,
    fun _ _ h => h, fun _ f _ hn hf => absurd (hn.symm.trans hf) (Option.some_ne_none f).symm,
    fun _ _ h => h, fun _ _ h => Or.inl h⟩

theorem Grew.space (h : Grew s s' dir lo hi) : s'.space = s.space := by
  rw [h.same]
  rfl

theorem Grew.valid (h : Grew s s' dir lo hi) (o : Owner) : o.Valid s' ↔ o.Valid s := by
  rw [h.same]
  cases o with
  | table sp i => cases sp <;> exact Iff.rfl
  | page sp n => cases sp <;> exact Iff.rfl

theorem Grew.exists_iff (h : Grew s s' dir lo hi) (sp : Space) : sp.Exists s' ↔ sp.Exists s := by
  rw [h.same]
  cases sp <;> exact Iff.rfl

theorem Grew.bit (h : Grew s s' dir lo hi) (sp : Space) (n : Nat) : sp.bit s' n = sp.bit s n := by
  rw [h.same]
  cases sp <;> rfl

theorem Grew.trans {s'' : Memory} {mid : Nat} (h : Grew s s' dir lo mid) (h' : Grew s' s'' dir mid hi)
    (hlo : lo ≤ mid) (hhi : mid ≤ hi) : Grew s s'' dir lo hi where
  same := by
    rw [h'.same, h.same]
  keeps o f ho hf := h'.keeps o f ((h.valid o).2 ho) (h.keeps o f ho hf)
  fresh o f ho hf := by
    rcases h'.fresh o f ((h.valid o).2 ho) hf with hf | ⟨n, hn, hn', he⟩
    · rcases h.fresh o f ho hf with hf | ⟨n, hn, hn', he⟩
      · exact Or.inl hf
      · exact Or.inr ⟨n, hn, by omega, he⟩
    · rw [h.space] at he
      exact Or.inr ⟨n, by omega, hn', he⟩
  dirs sp i f hsp hi hf := h'.dirs sp i f ((h.exists_iff sp).2 hsp) hi (h.dirs sp i f hsp hi hf)
  other sp i hsp hi hno := by
    rw [h'.other sp i ((h.exists_iff sp).2 hsp) hi ?_, h.other sp i hsp hi ?_]
    · exact fun n hn hn' => hno n hn (by omega)
    · intro n hn hn'
      rw [h.space]
      exact hno n (by omega) hn'
  taken pf a hfree := h.taken pf a (h'.taken pf a hfree)
  born o f ho hn hf := by
    cases hmid : o.frame s'.mem dir with
    | none => exact h.taken _ f (h'.born o f ((h.valid o).2 ho) hmid hf)
    | some g =>
        have hkeep := h'.keeps o g ((h.valid o).2 ho) hmid
        rw [hf] at hkeep
        rw [Option.some.inj hkeep]
        exact h.born o g ho hn hmid
  used pf a hused := h'.used pf a (h.used pf a hused)
  spent pf a hused := by
    rcases h'.spent pf a hused with hmid | ⟨o, ho, hflag, hn, hf⟩
    · rcases h.spent pf a hmid with hold | ⟨o, ho, hflag, hn, hf⟩
      · exact Or.inl hold
      · exact Or.inr ⟨o, ho, hflag, hn, h'.keeps o a ((h.valid o).2 ho) hf⟩
    · have ho' := (h.valid o).1 ho
      refine Or.inr ⟨o, ho', hflag, ?_, hf⟩
      by_contra hsome
      obtain ⟨g, hg⟩ := Option.ne_none_iff_exists'.1 hsome
      rw [h.keeps o g ho' hg] at hn
      cases hn

/-- `pageTableAdd` finds a page table or a frame for one. -/
def TableFits (vaddr : Word) (s : Memory) : Prop :=
  ∀ pde, s.load (pdePtr vaddr) = .ok pde → present pde = true ∨ (palloc s.kernelPool).1 ≠ none

/-- The kernel pool has a frame left whenever the loop needs a page table. -/
def LoopFits (pf : PoolFlags) : Nat → Word → Memory → Prop
  | 0, _, _ => True
  | n + 1, vaddr, s => ∀ p memPool, palloc (s.pool pf) = (some p, memPool) →
      TableFits vaddr (s.setPool pf memPool) ∧
      ∀ s', pageTableAdd vaddr p (s.setPool pf memPool) = .ok s' → LoopFits pf n (vaddr + 4096) s'

theorem vpage_add (h : vpage vaddr + 1 < 2 ^ 20) : vpage (vaddr + 4096) = vpage vaddr + 1 := by
  have hlt := vaddr.isLt
  unfold vpage at *
  rw [BitVec.toNat_add]
  have hword : (4096 : Word).toNat = 4096 := rfl
  omega

theorem Tables.free_of_fits (h : Tables s dir) (hfits : TableFits vaddr s)
    (hnone : entry s.mem (dir s.space) (vpage vaddr / 1024) = none) : ∃ a, s.kernelPool.Free a := by
  rcases hfits _ (h.windowed.load_pde vaddr) with hp | hp
  · rw [present_of_entry_none hnone] at hp
    cases hp
  · by_contra hno
    exact hp (palloc_eq_none_iff.2 fun a ha => hno ⟨a, ha⟩)

/-- A page that may be mapped next. -/
structure Mappable (s : Memory) (dir : Space → Nat) (n : Nat) : Prop where
  heap : s.space.Heap s n
  bit : s.space.bit s n = true
  unmapped : mapped s.mem (dir s.space) n = none

theorem Tables.pool_stop (h : Tables s dir) (pf : PoolFlags) : (s.pool pf).stop ≤ 2 ^ 32 := by
  have hkfit := h.kfit
  have hlt := s.userPool.paddrStart.isLt
  cases pf with
  | kernel => exact Nat.le_trans hkfit (Nat.le_of_lt hlt)
  | user => exact h.ufit

/-- The frame that `palloc` takes, seen from the state after it. -/
theorem Tables.palloc (h : Tables s dir) {p : Word} {memPool : Pool}
    (hpalloc : HoloOS.palloc (s.pool pf) = (some p, memPool)) :
    Tables (s.setPool pf memPool) dir ∧ Fresh (s.setPool pf memPool) dir p.toNat ∧
      ((s.setPool pf memPool).pool pf).Used p.toNat ∧ (s.pool pf).Free p.toNat ∧
      ∃ kpool upool, s.setPool pf memPool = { s with kernelPool := kpool, userPool := upool } ∧
        ∀ pf' a, (Memory.pool { s with kernelPool := kpool, userPool := upool } pf').Free a →
          (s.pool pf').Free a := by
  obtain ⟨k, hk, hclear, hp, rfl⟩ := palloc_some (h.pool_stop pf) hpalloc
  have hfree : (s.pool pf).Free p.toNat := ⟨k, hk, hp, hclear⟩
  have hfresh := h.fresh hfree
  have htake := h.take pf k
  have hmark : ((s.pool pf).setBit k true).Used _ := Pool.marked_setBit hk
  rw [← hp] at hmark
  obtain ⟨kpool, upool, hstate, -, hpool⟩ := h.toLayout.setBit pf k true
  rw [hstate] at htake ⊢
  refine ⟨htake, ⟨hfresh.aligned, hfresh.low, hfresh.unused⟩, ?_, hfree, kpool, upool, rfl, ?_⟩
  · rw [hpool pf, if_pos rfl]
    exact hmark
  · intro pf' a ha
    rw [hpool pf'] at ha
    split at ha
    next he =>
      rw [he]
      exact Pool.free_of_setBit hk ha
    next => exact ha

theorem Added.pools {f : Nat} (h : Added s s' dir n f) : s'.userPool = s.userPool ∧
    (s'.kernelPool = s.kernelPool ∨ ∃ k < s.kernelPool.poolBitmap.size * 8,
      s'.kernelPool = s.kernelPool.setBit k true) := by
  refine ⟨by rw [h.same], ?_⟩
  by_cases hnone : entry s.mem (dir s.space) (n / 1024) = none
  · obtain ⟨k, hk, -, hpool, -⟩ := h.made hnone
    exact Or.inr ⟨k, hk, hpool⟩
  · exact Or.inl (h.kept hnone).2

theorem Added.used {f : Nat} (h : Added s s' dir n f) (pf : PoolFlags) (a : Nat)
    (hused : (s.pool pf).Used a) : (s'.pool pf).Used a := by
  obtain ⟨huser, hkernel⟩ := h.pools
  cases pf with
  | user =>
      rw [Memory.pool, huser]
      exact hused
  | kernel =>
      rcases hkernel with he | ⟨k, -, he⟩
      · rw [Memory.pool, he]
        exact hused
      · rw [Memory.pool, he]
        exact Pool.Marked.setBit hused (Or.inl rfl)

theorem Added.taken {f : Nat} (h : Added s s' dir n f) (pf : PoolFlags) (a : Nat)
    (hfree : (s'.pool pf).Free a) : (s.pool pf).Free a := by
  obtain ⟨huser, hkernel⟩ := h.pools
  cases pf with
  | user =>
      rw [Memory.pool, huser] at hfree
      exact hfree
  | kernel =>
      rcases hkernel with he | ⟨k, hk, he⟩
      · rw [Memory.pool, he] at hfree
        exact hfree
      · rw [Memory.pool, he] at hfree
        exact Pool.free_of_setBit hk hfree

theorem Added.spent {f : Nat} (h : Added s s' dir n f) (pf : PoolFlags) (a : Nat)
    (hused : (s'.pool pf).Used a) : (s.pool pf).Used a ∨ (pf = .kernel ∧
      entry s.mem (dir s.space) (n / 1024) = none ∧ entry s'.mem (dir s.space) (n / 1024) = some a) := by
  cases pf with
  | user =>
      rw [Memory.pool, h.pools.1] at hused
      exact Or.inl hused
  | kernel =>
      by_cases hnone : entry s.mem (dir s.space) (n / 1024) = none
      · obtain ⟨k, -, -, hpool, hmade⟩ := h.made hnone
        rw [Memory.pool, hpool] at hused
        by_cases he : a = s.kernelPool.paddrStart.toNat + k * 4096
        · rw [he]
          exact Or.inr ⟨rfl, hnone, hmade⟩
        · exact Or.inl ((Pool.marked_setBit_iff he).1 hused)
      · rw [Memory.pool, (h.kept hnone).2] at hused
        exact Or.inl hused

/-- The bits of the frames around a `palloc`. -/
theorem Tables.palloc_used (h : Tables s dir) {p : Word} {memPool : Pool}
    (hpalloc : HoloOS.palloc (s.pool pf) = (some p, memPool)) (pf' : PoolFlags) (a : Nat) :
    ((s.pool pf').Used a → ((s.setPool pf memPool).pool pf').Used a) ∧
      (((s.setPool pf memPool).pool pf').Used a → (s.pool pf').Used a ∨ (pf' = pf ∧ a = p.toNat)) := by
  obtain ⟨k, hk, -, hp, rfl⟩ := palloc_some (h.pool_stop pf) hpalloc
  obtain ⟨kpool, upool, hstate, -, hpool⟩ := h.toLayout.setBit pf k true
  rw [hstate, hpool pf']
  split
  next he =>
    rw [he]
    refine ⟨fun hused => Pool.Marked.setBit hused (Or.inl rfl), fun hused => ?_⟩
    by_cases hnew : a = (s.pool pf).paddrStart.toNat + k * 4096
    · exact Or.inr ⟨rfl, hnew.trans hp.symm⟩
    · exact Or.inl ((Pool.marked_setBit_iff hnew).1 hused)
  next => exact ⟨fun hused => hused, Or.inl⟩

/-- One page of an allocation. -/
theorem Tables.mapOne (h : Tables s dir) (hpf : pf = s.space.flag) (hmap : Mappable s dir (vpage vaddr))
    {p : Word} {memPool : Pool} (hpalloc : HoloOS.palloc (s.pool pf) = (some p, memPool))
    (hfits : TableFits vaddr (s.setPool pf memPool)) :
    ∃ s', HoloOS.pageTableAdd vaddr p (s.setPool pf memPool) = .ok s' ∧ Tables s' dir ∧
      Grew s s' dir (vpage vaddr) (vpage vaddr + 1) ∧
      mapped s'.mem (dir s.space) (vpage vaddr) = some p.toNat ∧ (s.pool pf).Free p.toNat ∧
      (s'.pool pf).Used p.toNat := by
  have hbits := h.palloc_used hpalloc
  obtain ⟨h₁, hfresh, hused, hfree, kpool, upool, hstate, hmono⟩ := h.palloc hpalloc
  rw [hstate] at h₁ hfresh hused hfits hbits ⊢
  have hflag : (Memory.pool { s with kernelPool := kpool, userPool := upool } s.space.flag).Used
      p.toNat := by
    rw [← hpf]
    exact hused
  obtain ⟨s', hadd, h', hadded⟩ := h₁.pageTableAdd hmap.heap hmap.bit hmap.unmapped hfresh hflag
    (fun hnone => h₁.free_of_fits hfits hnone)
  have hsame := hadded.same
  have htable : ∀ i f, entry s.mem (dir s.space) i = some f → i < 1024 →
      entry s'.mem (dir s.space) i = some f := by
    intro i f hf hi
    by_cases he : i = vpage vaddr / 1024
    · rw [he] at hf ⊢
      have hsome : entry s.mem (dir s.space) (vpage vaddr / 1024) ≠ none := by
        rw [hf]
        exact Option.some_ne_none f
      exact (hadded.kept hsome).1.trans hf
    · exact (hadded.dirs s.space i s.space_exists hi (fun hb => he hb.2)).trans hf
  refine ⟨s', hadd, h', ⟨?_, ?_, ?_, ?_, ?_, ?_, ?_, ?_, ?_⟩, hadded.page, hfree, ?_⟩
  · rw [hsame]
  · intro o f ho hf
    by_cases hpage : o = .page s.space (vpage vaddr)
    · rw [hpage, Owner.frame_page, hmap.unmapped] at hf
      cases hf
    by_cases htab : o = .table s.space (vpage vaddr / 1024)
    · rw [htab] at hf ⊢
      exact htable _ f hf (region_lt vaddr)
    · exact (hadded.others o ho hpage htab).trans hf
  · intro o f ho hf
    by_cases hpage : o = .page s.space (vpage vaddr)
    · exact Or.inr ⟨_, Nat.le_refl _, by omega, Or.inl hpage⟩
    by_cases htab : o = .table s.space (vpage vaddr / 1024)
    · exact Or.inr ⟨_, Nat.le_refl _, by omega, Or.inr htab⟩
    · exact Or.inl ((hadded.others o ho hpage htab).symm.trans hf)
  · intro sp i f hsp hi hf
    by_cases he : sp = s.space ∧ i = vpage vaddr / 1024
    · rw [he.1] at hf ⊢
      exact htable i f hf hi
    · exact (hadded.dirs sp i hsp hi he).trans hf
  · intro sp i hsp hi hno
    exact hadded.dirs sp i hsp hi (hno _ (Nat.le_refl _) (by omega))
  · exact fun pf' a ha => hmono pf' a (hadded.taken pf' a ha)
  · intro o f ho hn hf
    by_cases hpage : o = .page s.space (vpage vaddr)
    · have hpf' : o.flag = pf := by
        rw [hpage, hpf]
        rfl
      rw [hpage, Owner.frame_page] at hf
      rw [hpf', ← Option.some.inj (hadded.page.symm.trans hf)]
      exact hfree
    by_cases htab : o = .table s.space (vpage vaddr / 1024)
    · rw [htab, Owner.frame_table] at hn hf
      obtain ⟨k, hk, hclear, -, hmade⟩ := hadded.made hn
      rw [htab, ← Option.some.inj (hmade.symm.trans hf)]
      exact hmono .kernel _ ⟨k, hk, rfl, hclear⟩
    · rw [hadded.others o ho hpage htab] at hf
      exact absurd (hn.symm.trans hf) (Option.some_ne_none f).symm
  · exact fun pf' a ha => hadded.used pf' a ((hbits pf' a).1 ha)
  · intro pf' a ha
    rcases hadded.spent pf' a ha with hmid | ⟨rfl, hnone, hmade⟩
    · rcases (hbits pf' a).2 hmid with hold | ⟨rfl, rfl⟩
      · exact Or.inl hold
      · exact Or.inr ⟨.page s.space (vpage vaddr), hmap.heap, hpf.symm, hmap.unmapped, hadded.page⟩
    · refine Or.inr ⟨.table s.space (vpage vaddr / 1024), ?_, rfl, hnone, hmade⟩
      rcases h.region hmap.heap with hown | ⟨he, hi⟩
      · exact hown
      · change entry s.mem (dir s.space) (vpage vaddr / 1024) = none at hnone
        rw [he, hi, h.dir_kernel, h.first] at hnone
        cases hnone
  · exact hadded.used pf _ hused

theorem Mappable.grew (h : Mappable s dir n) (hg : Grew s s' dir lo hi) (hn : hi ≤ n) :
    Mappable s' dir n := by
  refine ⟨?_, ?_, ?_⟩
  · rw [hg.space]
    exact (hg.valid (.page s.space n)).2 h.heap
  · rw [hg.space, hg.bit]
    exact h.bit
  · rw [hg.space]
    cases hf : mapped s'.mem (dir s.space) n with
    | none => rfl
    | some f =>
        rcases hg.fresh (.page s.space n) f h.heap hf with hold | ⟨k, hk, hk', he | he⟩
        · rw [Owner.frame_page, h.unmapped] at hold
          cases hold
        · have := (Owner.page.inj he).2
          omega
        · cases he

theorem Space.Heap.lt (h : Layout s) {sp : Space} (hn : sp.Heap s n) : n + 1 < 2 ^ 20 := by
  cases sp with
  | kernel =>
      have hfit := h.vfit
      have hlt := hn.2
      omega
  | process t =>
      have hlt := hn.2
      omega

/-- The loop of `mallocPage` over unmapped pages. -/
theorem Tables.mallocLoop (h : Tables s dir) (hpf : pf = s.space.flag) (n : Nat)
    (hmap : ∀ k < n, Mappable s dir (vpage vaddr + k)) (hfits : LoopFits pf n vaddr s) :
    ∃ done s', HoloOS.mallocLoop pf n vaddr s = .ok (done, s') ∧ Tables s' dir ∧
      Grew s s' dir (vpage vaddr) (vpage vaddr + n) ∧
      (done = true → ∀ k < n, ∃ f, mapped s'.mem (dir s.space) (vpage vaddr + k) = some f) ∧
      (done = false → ∀ a, ¬(s'.pool pf).Free a) := by
  induction n generalizing vaddr s with
  | zero =>
      exact ⟨true, s, rfl, h, .refl s dir _ _, fun _ k hk => absurd hk (Nat.not_lt_zero k),
        fun hdone => by cases hdone⟩
  | succ n ih =>
      cases hpalloc : HoloOS.palloc (s.pool pf) with
      | mk r memPool =>
      cases r with
      | none =>
          have hno := palloc_eq_none_iff.1 (show (HoloOS.palloc (s.pool pf)).1 = none by rw [hpalloc])
          exact ⟨false, s, by rw [HoloOS.mallocLoop, hpalloc], h, .refl s dir _ _,
            (fun hdone => by cases hdone), fun _ => hno⟩
      | some p =>
          obtain ⟨hfit, hrest⟩ := hfits p memPool hpalloc
          have hfirst : Mappable s dir (vpage vaddr) := hmap 0 (Nat.succ_pos n)
          obtain ⟨s₁, hadd, h₁, hg₁, hpage, -, -⟩ := h.mapOne hpf hfirst hpalloc hfit
          have hnext : vpage (vaddr + 4096) = vpage vaddr + 1 := vpage_add (hfirst.heap.lt h.toLayout)
          have hmap₁ : ∀ k < n, Mappable s₁ dir (vpage (vaddr + 4096) + k) := by
            intro k hk
            rw [hnext, Nat.add_assoc, Nat.add_comm 1 k]
            exact (hmap (k + 1) (by omega)).grew hg₁ (by omega)
          have hpf₁ : pf = s₁.space.flag := by rw [hg₁.space]; exact hpf
          obtain ⟨done, s₂, hloop, h₂, hg₂, hdone, hout⟩ := ih h₁ hpf₁ hmap₁ (hrest s₁ hadd)
          have hrun : HoloOS.mallocLoop pf (n + 1) vaddr s = .ok (done, s₂) := by
            rw [HoloOS.mallocLoop, hpalloc]
            dsimp only
            rw [hadd, ok_bind]
            exact hloop
          rw [hnext] at hg₂ hdone
          have hg : Grew s s₂ dir (vpage vaddr) (vpage vaddr + (n + 1)) := by
            rw [show vpage vaddr + (n + 1) = vpage vaddr + 1 + n by omega]
            exact hg₁.trans hg₂ (by omega) (by omega)
          refine ⟨done, s₂, hrun, h₂, hg, fun hd k hk => ?_, hout⟩
          cases k with
          | zero =>
              have hvalid : (Owner.page s.space (vpage vaddr)).Valid s₁ :=
                (hg₁.valid (.page s.space (vpage vaddr))).2 hfirst.heap
              exact ⟨_, hg₂.keeps _ _ hvalid hpage⟩
          | succ k =>
              obtain ⟨f, hf⟩ := hdone hd k (by omega)
              rw [hg₁.space] at hf
              exact ⟨f, by rw [show vpage vaddr + (k + 1) = vpage vaddr + 1 + k by omega]; exact hf⟩

/-- The bits of `n` pages of the running thread's space from `lo` on are `val` now. -/
structure Marks (s s' : Memory) (val : Bool) (lo n : Nat) : Prop where
  same : SameTables s s'
  tlb : s'.tlb = s.tlb
  holder : s'.holder = s.holder
  bit : ∀ sp k, Space.bit s' sp k = if sp = s.space ∧ lo ≤ k ∧ k < lo + n then val else Space.bit s sp k

theorem space_of_flag (hpf : pf = s.space.flag) :
    (pf = .kernel ∧ s.space = .kernel) ∨ (pf = .user ∧ s.space = .process s.cur) := by
  unfold Memory.space at *
  split at hpf
  next hp => exact Or.inr ⟨hpf, if_pos hp⟩
  next hp => exact Or.inl ⟨hpf, if_neg hp⟩

/-- The bitmap of the running thread's space, by flag. -/
theorem vaddr_eq (hpf : pf = s.space.flag) : s.vaddr pf = s.space.vaddr s := by
  rcases space_of_flag hpf with ⟨rfl, he⟩ | ⟨rfl, he⟩
  · rw [he]
    rfl
  · rw [he]
    rfl

/-- A run of bits, by page. -/
theorem bit_run (first k i n : Nat) (val b : Bool) :
    (decide (first ≤ k) && if i ≤ k - first ∧ k - first < i + n then val else b) =
      if first + i ≤ k ∧ k < first + i + n then val else (decide (first ≤ k) && b) := by
  by_cases hle : first ≤ k
  · have hiff : (i ≤ k - first ∧ k - first < i + n) ↔ (first + i ≤ k ∧ k < first + i + n) := by omega
    simp only [hle, hiff, decide_true, Bool.true_and]
  · have hout : ¬(first + i ≤ k ∧ k < first + i + n) := by omega
    simp only [hle, hout, decide_false, Bool.false_and, if_false]

theorem setVaddrBitmap_user (s : Memory) (bmap : Bitmap) (t : Tid) :
    (s.setVaddrBitmap .user bmap).task t =
      if t = s.cur then { s.task t with userVaddr := { (s.task t).userVaddr with vaddrBitmap := bmap } }
      else s.task t := by
  by_cases he : t = s.cur
  · rw [if_pos he, he]
    exact update_self _ _ _
  · rw [if_neg he]
    exact update_of_ne he _ _

theorem marks_setVaddrBitmap (hpf : pf = s.space.flag) (i n : Nat) (val : Bool) :
    Marks s (s.setVaddrBitmap pf (bitmapSetRun (s.vaddr pf).vaddrBitmap i val n)) val
      (s.space.first + i) n := by
  rcases space_of_flag hpf with ⟨rfl, hsp⟩ | ⟨rfl, hsp⟩
  · refine ⟨⟨rfl, rfl, rfl, rfl, rfl, fun _ => rfl, rfl, bitmapSetRun_size _ _ _ _, fun _ => rfl,
      fun _ => rfl⟩, rfl, rfl, fun sp k => ?_⟩
    rw [hsp]
    cases sp with
    | process t => rw [if_neg (by simp)]; rfl
    | kernel =>
        simp only [Space.bit, Space.vaddr, Space.first, Memory.setVaddrBitmap, Memory.vaddr, true_and,
          bitmapTest_bitmapSetRun]
        exact bit_run _ _ _ _ _ _
  · have htask := setVaddrBitmap_user s (bitmapSetRun (s.vaddr .user).vaddrBitmap i val n)
    refine ⟨⟨rfl, rfl, rfl, rfl, rfl, fun t => ?_, rfl, rfl, fun t => ?_, fun t => ?_⟩, rfl, rfl,
      fun sp k => ?_⟩
    · rw [htask]
      split <;> rfl
    · rw [htask]
      split <;> rfl
    · rw [htask]
      split
      next he =>
        rw [he]
        exact bitmapSetRun_size _ _ _ _
      next => rfl
    · rw [hsp]
      cases sp with
      | kernel => rw [if_neg (by simp)]; rfl
      | process t =>
          simp only [Space.bit, Space.vaddr, Space.first, htask]
          by_cases he : t = s.cur
          · subst he
            simp only [if_true, true_and, bitmapTest_bitmapSetRun, Memory.vaddr]
            exact bit_run _ _ _ _ _ _
          · have hout : ¬(Space.process t = Space.process s.cur ∧ 0x8048 + i ≤ k ∧ k < 0x8048 + i + n) :=
              fun hs => he (Space.process.inj hs.1)
            rw [if_neg he]
            exact (if_neg hout).symm

/-- Setting bits keeps `Tables`. -/
theorem Marks.tables (hm : Marks s s' true lo n) (h : Tables s dir) : Tables s' dir := by
  refine hm.same.tables h fun sp k hk hbit => ?_
  rw [hm.bit] at hbit
  split at hbit
  next => cases hbit
  next => exact h.clear sp k hk hbit

/-- `n` clear bits of the running thread's space, from the page of `v` on, have been set. -/
structure Reserved (s s' : Memory) (v : Word) (n : Nat) : Prop where
  marks : Marks s s' true (vpage v) n
  aligned : v.toNat % 4096 = 0
  first : s.space.first ≤ vpage v
  heap : ∀ k < n, s.space.Heap s (vpage v + k)
  clear : ∀ k < n, s.space.bit s (vpage v + k) = false

/-- The bitmap of a space covers its pages from the first one on. -/
theorem Layout.space_vaddr (h : Layout s) {sp : Space} (hsp : sp.Exists s) :
    (sp.vaddr s).vaddrStart.toNat = sp.first * 4096 ∧
      ∀ k, k < (sp.vaddr s).vaddrBitmap.size * 8 ↔ sp.Heap s (sp.first + k) := by
  cases sp with
  | kernel =>
      have hfit := h.vfit
      simp only [Space.vaddr, Space.first, Space.Heap, h.vstart]
      exact ⟨rfl, fun k => by omega⟩
  | process t =>
      obtain ⟨hstart, hsize⟩ := h.user t hsp
      have hp : s.IsProcess t := hsp
      simp only [Space.vaddr, Space.first, Space.Heap, hstart, hsize, hp, true_and]
      exact ⟨rfl, fun k => by omega⟩

/-- The page of `v` begins the first run of `n` clear bits. -/
def Scanned (s : Memory) (pf : PoolFlags) (n : Nat) (v : Word) : Prop :=
  bitmapScan (s.vaddr pf).vaddrBitmap n = some (vpage v - s.space.first)

/-- The page that `vaddrGet` keeps for the stack of a user process. -/
def StackPage (pf : PoolFlags) (page : Nat) : Prop := pf = .user ∧ page = 0xbffff

theorem Tables.vaddrGet (h : Tables s dir) (hpf : pf = s.space.flag) (hn : 0 < n) :
    (bitmapScan (s.vaddr pf).vaddrBitmap n = none ∧ HoloOS.vaddrGet pf n s = .ok (none, s)) ∨
    ∃ v s₁, Reserved s s₁ v n ∧ Scanned s pf n v ∧
      (¬StackPage pf (vpage v) ∧ HoloOS.vaddrGet pf n s = .ok (some v, s₁) ∨
        StackPage pf (vpage v) ∧ HoloOS.vaddrGet pf n s = .error (.panic .vaddrStart)) := by
  obtain ⟨hstart, hheap⟩ := h.toLayout.space_vaddr s.space_exists
  rw [← vaddr_eq hpf] at hstart hheap
  cases hscan : bitmapScan (s.vaddr pf).vaddrBitmap n with
  | none => exact Or.inl ⟨rfl, by rw [HoloOS.vaddrGet, hscan]⟩
  | some i =>
      right
      obtain ⟨⟨hfit, hclear⟩, -⟩ := bitmapScan_some hn hscan
      have hlast := ((hheap (i + (n - 1))).1 (by omega)).lt h.toLayout
      set v := (s.vaddr pf).vaddrStart + BitVec.ofNat 32 (i * 4096) with hv
      have hnat : v.toNat = (s.space.first + i) * 4096 := by
        rw [hv, BitVec.toNat_add, BitVec.toNat_ofNat, hstart]
        omega
      have hpage : vpage v = s.space.first + i := by
        rw [vpage, hnat]
        omega
      refine ⟨v, s.setVaddrBitmap pf (bitmapSetRun (s.vaddr pf).vaddrBitmap i true n),
        ⟨?_, by omega, by omega, ?_, ?_⟩, ?_, ?_⟩
      · rw [hpage]
        exact marks_setVaddrBitmap hpf i n true
      · intro k hk
        rw [hpage, Nat.add_assoc]
        exact (hheap (i + k)).1 (by omega)
      · intro k hk
        rw [hpage, Space.bit, ← vaddr_eq hpf, show s.space.first + i + k - s.space.first = i + k by omega,
          hclear (i + k) (by omega) (by omega), Bool.and_false]
      · rw [Scanned, hscan, hpage, Nat.add_sub_cancel_left]
      · rw [HoloOS.vaddrGet, hscan]
        dsimp only [massert]
        cases pf with
        | kernel => exact Or.inl ⟨fun hs => PoolFlags.noConfusion hs.1, rfl⟩
        | user =>
            have hin := ((hheap i).1 (by omega))
            have hbound : vpage v < 0xc0000 := by
              rw [hpage]
              cases hsp : s.space with
              | kernel =>
                  rw [hsp] at hpf
                  cases hpf
              | process t =>
                  rw [hsp] at hin
                  exact hin.2
            have hiff : v < 0xc0000000#32 - 4096#32 ↔ ¬StackPage .user (vpage v) := by
              have hword : (0xc0000000#32 - 4096#32 : Word).toNat = 0xbffff000 := rfl
              unfold vpage at hbound
              simp only [BitVec.lt_def, hword, StackPage, vpage, true_and]
              omega
            by_cases hlt : v < 0xc0000000#32 - 4096#32
            · refine Or.inl ⟨hiff.1 hlt, ?_⟩
              rw [if_pos (decide_eq_true (Or.inr hlt))]
              rfl
            · refine Or.inr ⟨not_not.1 fun hs => hlt (hiff.2 hs), ?_⟩
              rw [if_neg]
              · rfl
              · simpa using hlt

/-- The pages of a reserved run can be mapped. -/
theorem Reserved.mappable {v : Word} (hr : Reserved s s₁ v n) (h : Tables s dir) :
    ∀ k < n, Mappable s₁ dir (vpage v + k) := by
  intro k hk
  refine ⟨?_, ?_, ?_⟩
  · rw [hr.marks.same.space]
    exact hr.marks.same.heap_iff.2 (hr.heap k hk)
  · rw [hr.marks.same.space, hr.marks.bit, if_pos ⟨rfl, by omega, by omega⟩]
  · rw [hr.marks.same.space, hr.marks.same.mem]
    exact h.clear _ _ (hr.heap k hk) (hr.clear k hk)

/-- The kernel pool has a frame left whenever the call needs a page table. -/
def MallocFits (pf : PoolFlags) (pgCnt : Nat) (s : Memory) : Prop :=
  ∀ v s', HoloOS.vaddrGet pf pgCnt s = .ok (some v, s') → LoopFits pf pgCnt v s'

/-- A run of pages has been reserved and mapped as far as `done` says. -/
structure Malloced (s s' : Memory) (dir : Space → Nat) (v : Word) (n : Nat) (done : Bool) : Prop where
  reserved : ∃ s₁, Reserved s s₁ v n ∧ Grew s₁ s' dir (vpage v) (vpage v + n)
  mapped : done = true → ∀ k < n, ∃ f, mapped s'.mem (dir s.space) (vpage v + k) = some f
  out : done = false → ∀ a, ¬(s'.pool s.space.flag).Free a

theorem Tables.mallocPage (h : Tables s dir) (hpf : pf = s.space.flag) (hn : 0 < n ∧ n < 3840)
    (hfits : MallocFits pf n s) :
    (∃ v, Scanned s pf n v ∧ StackPage pf (vpage v) ∧
      HoloOS.mallocPage pf n s = .error (.panic .vaddrStart)) ∨
    (bitmapScan (s.vaddr pf).vaddrBitmap n = none ∧ HoloOS.mallocPage pf n s = .ok (none, s)) ∨
    ∃ done v s', (Scanned s pf n v ∧ ¬StackPage pf (vpage v)) ∧
      HoloOS.mallocPage pf n s = .ok (if done then some v else none, s') ∧ Tables s' dir ∧
      Malloced s s' dir v n done := by
  have hcnt : decide (0 < n ∧ n < 3840) = true := decide_eq_true hn
  rcases h.vaddrGet hpf hn.1 with ⟨hscan, hget⟩ | ⟨v, s₁, hr, hscan, ⟨hstack, hget⟩ | ⟨hstack, hget⟩⟩
  · right
    left
    refine ⟨hscan, ?_⟩
    rw [HoloOS.mallocPage, massert_bind hcnt, hget]
    rfl
  · right
    right
    have h₁ := hr.marks.tables h
    have hpf₁ : pf = s₁.space.flag := by rw [hr.marks.same.space]; exact hpf
    obtain ⟨done, s', hloop, h', hg, hdone, hout⟩ :=
      h₁.mallocLoop hpf₁ n (hr.mappable h) (hfits v s₁ hget)
    refine ⟨done, v, s', ⟨hscan, hstack⟩, ?_, h', ⟨s₁, hr, hg⟩, ?_, ?_⟩
    · rw [HoloOS.mallocPage, massert_bind hcnt, hget, ok_bind]
      dsimp only
      rw [hloop]
      rfl
    · rw [hr.marks.same.space] at hdone
      exact hdone
    · rw [← hpf]
      exact hout
  · left
    refine ⟨v, hscan, hstack, ?_⟩
    rw [HoloOS.mallocPage, massert_bind hcnt, hget]
    rfl

theorem load_congr {s s' : Memory} (hmem : s'.mem = s.mem) (hcr3 : s'.cr3 = s.cr3) (vaddr : Word) :
    s'.load vaddr = s.load vaddr := by
  unfold Memory.load Memory.phys Memory.walk
  rw [hmem, hcr3]

theorem TableFits.congr (h : TableFits vaddr s) (hmem : s'.mem = s.mem) (hcr3 : s'.cr3 = s.cr3)
    (hpool : s'.kernelPool = s.kernelPool) : TableFits vaddr s' := by
  intro pde hload
  rw [load_congr hmem hcr3] at hload
  rw [hpool]
  exact h pde hload

/-- The kernel pool has a frame left if the call needs a page table. -/
def GetFits (pf : PoolFlags) (vaddr : Word) (s : Memory) : Prop :=
  ∀ p memPool, HoloOS.palloc (s.pool pf) = (some p, memPool) → TableFits vaddr (s.setPool pf memPool)

theorem serves_iff : s.Serves pf ↔ pf = s.space.flag := by
  unfold Memory.Serves Memory.space
  by_cases hp : s.IsProcess s.cur
  · rw [if_pos hp]
    constructor
    · intro hor
      rcases hor with ⟨-, he⟩ | ⟨he, -⟩
      · exact he
      · exact absurd he hp
    · exact fun he => Or.inl ⟨hp, he⟩
  · rw [if_neg hp]
    have he : (s.task s.cur).pageDir = 0 := not_not.1 hp
    constructor
    · intro hor
      rcases hor with ⟨hne, -⟩ | ⟨-, hpf⟩
      · exact absurd he hne
      · exact hpf
    · exact fun hpf => Or.inr ⟨he, hpf⟩

/-- The index that the code computes for a page. -/
theorem Layout.page_index (h : Layout s) (hpf : pf = s.space.flag) (hfirst : s.space.first ≤ vpage vaddr) :
    ((vaddr - (s.vaddr pf).vaddrStart) / 4096).toNat = vpage vaddr - s.space.first := by
  obtain ⟨hstart, -⟩ := h.space_vaddr s.space_exists
  rw [← vaddr_eq hpf] at hstart
  have hle : (s.vaddr pf).vaddrStart.toNat ≤ vaddr.toNat := by
    unfold vpage at hfirst
    omega
  rw [BitVec.toNat_udiv, BitVec.toNat_sub_of_le (BitVec.le_def.2 hle), hstart]
  have hword : (4096 : Word).toNat = 4096 := rfl
  rw [hword, vpage]
  omega

/-- The lock is of no matter to what an allocation does. -/
theorem Grew.withHolder {holder : PoolFlags → Option Tid}
    (h : Grew { s with holder := holder } s' dir lo hi) :
    Grew s { s' with holder := s.holder } dir lo hi where
  same := by
    have hsame := h.same
    rw [hsame]
  keeps o f ho hf := h.keeps o f ho hf
  fresh o f ho hf := h.fresh o f ho hf
  dirs sp i f hsp hi hf := h.dirs sp i f hsp hi hf
  other sp i hsp hi hno := h.other sp i hsp hi hno
  taken := by
    intro pf a ha
    have hpool : Memory.pool { s' with holder := s.holder } pf = s'.pool pf := by cases pf <;> rfl
    have hpool' : Memory.pool { s with holder := holder } pf = s.pool pf := by cases pf <;> rfl
    rw [hpool] at ha
    rw [← hpool']
    exact h.taken pf a ha
  born := by
    intro o f ho hn hf
    have hpool : Memory.pool { s with holder := holder } o.flag = s.pool o.flag := by
      cases o.flag <;> rfl
    rw [← hpool]
    exact h.born o f ho hn hf
  used pf a ha := by
    have hused := h.used pf a (by cases pf <;> exact ha)
    cases pf <;> exact hused
  spent pf a ha := by
    have hspent := h.spent pf a (by cases pf <;> exact ha)
    cases pf <;> exact hspent

theorem Tables.withHolder (h : Tables s dir) (holder : PoolFlags → Option Tid) :
    Tables { s with holder := holder } dir := by
  have hsame : SameTables s { s with holder := holder } :=
    ⟨rfl, rfl, rfl, rfl, rfl, fun _ => rfl, rfl, rfl, fun _ => rfl, fun _ => rfl⟩
  exact hsame.tables h h.clear

/-- The bit that `getPage` sets. -/
theorem reserve_page (hpf : pf = s.space.flag) (haligned : vaddr.toNat % 4096 = 0)
    (hfirst : s.space.first ≤ vpage vaddr) (hheap : s.space.Heap s (vpage vaddr))
    (hclear : s.space.bit s (vpage vaddr) = false) :
    Reserved s (s.setVaddrBitmap pf
      (bitmapSetRun (s.vaddr pf).vaddrBitmap (vpage vaddr - s.space.first) true 1)) vaddr 1 := by
  have hmarks := marks_setVaddrBitmap hpf (vpage vaddr - s.space.first) 1 true
  rw [Nat.add_sub_of_le hfirst] at hmarks
  have hone : ∀ k < 1, vpage vaddr + k = vpage vaddr := by
    intro k hk
    omega
  refine ⟨hmarks, haligned, hfirst, fun k hk => ?_, fun k hk => ?_⟩
  · rw [hone k hk]
    exact hheap
  · rw [hone k hk]
    exact hclear

/-- `getPage` of a page that is not allocated, with the lock free. -/
theorem Tables.getPage (h : Tables s dir) (hpf : pf = s.space.flag) (hlock : s.holder pf = none)
    (haligned : vaddr.toNat % 4096 = 0) (hfirst : s.space.first < vpage vaddr)
    (hheap : s.space.Heap s (vpage vaddr)) (hclear : s.space.bit s (vpage vaddr) = false)
    (hfits : GetFits pf vaddr s) :
    ∃ s₁, Reserved s s₁ vaddr 1 ∧
      (((∀ a, ¬(s.pool pf).Free a) ∧ HoloOS.getPage pf vaddr s =
          .ok (none, { s₁ with holder := update s.holder pf (some s.cur) })) ∨
        ∃ p s', HoloOS.getPage pf vaddr s = .ok (some vaddr, s') ∧ Tables s' dir ∧
          Grew s₁ s' dir (vpage vaddr) (vpage vaddr + 1) ∧
          mapped s'.mem (dir s.space) (vpage vaddr) = some p ∧ (s.pool pf).Free p) := by
  set bmap := bitmapSetRun (s.vaddr pf).vaddrBitmap (vpage vaddr - s.space.first) true 1 with hbmap
  set s₁ := s.setVaddrBitmap pf bmap with hs₁
  have hr : Reserved s s₁ vaddr 1 := reserve_page hpf haligned (Nat.le_of_lt hfirst) hheap hclear
  have hmarks := hr.marks
  refine ⟨s₁, hr, ?_⟩
  set s₂ : Memory := { s₁ with holder := update s.holder pf (some s.cur) } with hs₂
  have hidx := h.toLayout.page_index hpf (Nat.le_of_lt hfirst)
  have hentry : ∀ r memPool, HoloOS.palloc (s₂.pool pf) = (r, memPool) → HoloOS.getPage pf vaddr s =
      r.elim (.ok (none, s₂)) fun p => do
        let s' ← HoloOS.pageTableAdd vaddr p (s₂.setPool pf memPool)
        let s' ← lockRelease pf s'
        return (some vaddr, s') := by
    intro r memPool hpalloc
    have hacquire : lockAcquire pf s = .ok { s with holder := update s.holder pf (some s.cur) } := by
      rw [lockAcquire, hlock]
    have hserves : decide (Memory.Serves { s with holder := update s.holder pf (some s.cur) } pf) = true :=
      decide_eq_true (serves_iff.2 hpf)
    have hvaddr : Memory.vaddr { s with holder := update s.holder pf (some s.cur) } pf = s.vaddr pf := by
      cases pf <;> rfl
    have hpos : decide (0 < ((vaddr - (s.vaddr pf).vaddrStart) / 4096).toNat) = true := by
      rw [hidx]
      exact decide_eq_true (by omega)
    rw [HoloOS.getPage, hacquire, ok_bind, massert_bind hserves, hvaddr]
    dsimp only
    rw [massert_bind hpos, hidx]
    have hstate : Memory.setVaddrBitmap { s with holder := update s.holder pf (some s.cur) } pf
        (bitmapSet (s.vaddr pf).vaddrBitmap (vpage vaddr - s.space.first) true) = s₂ := by
      rw [hs₂, hs₁, hbmap]
      cases pf <;> rfl
    rw [hstate, hpalloc]
    cases r <;> rfl
  have h₁ := hmarks.tables h
  have h₂ : Tables s₂ dir := h₁.withHolder _
  have hpool : s₂.pool pf = s.pool pf := by
    rw [← hmarks.same.pool]
    cases pf <;> rfl
  rw [hpool] at hentry
  cases hpalloc : HoloOS.palloc (s.pool pf) with
  | mk r memPool =>
  rw [hentry r memPool hpalloc]
  cases r with
  | none =>
      exact Or.inl ⟨palloc_eq_none_iff.1 (show (HoloOS.palloc (s.pool pf)).1 = none by rw [hpalloc]), rfl⟩
  | some p =>
      right
      have hmap : Mappable s₂ dir (vpage vaddr) := by
        have hm := hr.mappable h 0 (by omega)
        exact ⟨hm.heap, hm.bit, hm.unmapped⟩
      have hpf₂ : pf = s₂.space.flag := by
        rw [show s₂.space = s₁.space from rfl, hmarks.same.space]
        exact hpf
      have hpalloc₂ : HoloOS.palloc (s₂.pool pf) = (some p, memPool) := by rw [hpool, hpalloc]
      have hfit : TableFits vaddr (s₂.setPool pf memPool) := by
        apply (hfits p memPool hpalloc).congr
        · cases pf <;> exact hmarks.same.mem
        · cases pf <;> exact hmarks.same.cr3
        · cases pf
          · rfl
          · exact hmarks.same.kernelPool
      obtain ⟨s', hadd, h', hg, hpage', hfree, -⟩ := h₂.mapOne hpf₂ hmap hpalloc₂ hfit
      have hsp₂ : s₂.space = s.space := hmarks.same.space
      rw [hpool] at hfree
      rw [hsp₂] at hpage'
      have hheld : s'.holder = s₂.holder ∧ s'.cur = s.cur := by
        rw [hg.same]
        exact ⟨rfl, hmarks.same.cur⟩
      have hrelease : lockRelease pf s' = .ok { s' with holder := s₁.holder } := by
        have hset : s'.holder pf = some s'.cur := by
          rw [hheld.1, hheld.2]
          exact update_self _ _ _
        rw [lockRelease, massert_bind (by simpa using hset), hheld.1, hmarks.holder]
        have hback : update (update s.holder pf (some s.cur)) pf none = s.holder := by
          rw [update_idem, ← hlock, update_eq_self]
        change Except.ok { s' with holder := update (update s.holder pf (some s.cur)) pf none } = _
        rw [hback]
      refine ⟨p.toNat, { s' with holder := s₁.holder }, ?_, h'.withHolder _, hg.withHolder, hpage', hfree⟩
      rw [Option.elim_some, hadd, ok_bind, hrelease]
      rfl

end HoloOS
