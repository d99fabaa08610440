import HoloOS.MemoryAlloc

/-! `mfreePage` on `Tables`. The range is mapped page by page to frames of one pool, which the code
finds by the address of the first frame; each page is unmapped and its frame given back, and then the
bits of the range are cleared. -/

namespace HoloOS

open Function Paging

variable {s s₁ s' : Memory} {dir : Space → Nat} {pf : PoolFlags} {vaddr : Word} {n lo hi : Nat}

/-- The pages of the running thread's space from `lo` up to `hi` have been unmapped and their frames
given back; nothing else has changed. -/
structure Shrank (s s' : Memory) (dir : Space → Nat) (lo hi : Nat) : Prop where
  same : ∃ kpool upool, s' = { s with
    kernelPool := kpool, userPool := upool, mem := s'.mem, tlb := s'.tlb }
  gone : ∀ n, lo ≤ n → n < hi → mapped s'.mem (dir s.space) n = none
  others : ∀ o, Owner.Valid s o → (∀ n, lo ≤ n → n < hi → o ≠ .page s.space n) →
    o.frame s'.mem dir = o.frame s.mem dir
  dirs : ∀ sp i, Space.Exists s sp → i < 1024 → entry s'.mem (dir sp) i = entry s.mem (dir sp) i
  free : ∀ pf a, (s.pool pf).Free a → (s'.pool pf).Free a
  freed : ∀ n a, lo ≤ n → n < hi → mapped s.mem (dir s.space) n = some a →
    (s'.pool s.space.flag).Free a
  tlb : ∀ page, s'.tlb page = s.tlb page ∨ (s'.tlb page = none ∧ page = s.cur / 4096)

theorem Shrank.refl (s : Memory) (dir : Space → Nat) (lo : Nat) : Shrank s s dir lo lo :=
  ⟨⟨_, _, rfl⟩, fun _ hn hn' => absurd hn (Nat.not_le.2 hn'), fun _ _ _ => rfl, fun _ _ _ _ => rfl,
    fun _ _ h => h, fun _ _ hn hn' => absurd hn (Nat.not_le.2 hn'), fun _ => Or.inl rfl⟩

theorem Shrank.space (h : Shrank s s' dir lo hi) : s'.space = s.space := by
  obtain ⟨kpool, upool, hsame⟩ := h.same
  rw [hsame]
  rfl

theorem Shrank.valid (h : Shrank s s' dir lo hi) (o : Owner) : o.Valid s' ↔ o.Valid s := by
  obtain ⟨kpool, upool, hsame⟩ := h.same
  rw [hsame]
  cases o with
  | table sp i => cases sp <;> exact Iff.rfl
  | page sp n => cases sp <;> exact Iff.rfl

theorem Shrank.exists_iff (h : Shrank s s' dir lo hi) (sp : Space) : sp.Exists s' ↔ sp.Exists s := by
  obtain ⟨kpool, upool, hsame⟩ := h.same
  rw [hsame]
  cases sp <;> exact Iff.rfl

theorem Shrank.bit (h : Shrank s s' dir lo hi) (sp : Space) (n : Nat) : sp.bit s' n = sp.bit s n := by
  obtain ⟨kpool, upool, hsame⟩ := h.same
  rw [hsame]
  cases sp <;> rfl

theorem Shrank.task (h : Shrank s s' dir lo hi) : s'.task = s.task ∧ s'.cur = s.cur ∧ s'.cr3 = s.cr3 ∧
    s'.holder = s.holder := by
  obtain ⟨kpool, upool, hsame⟩ := h.same
  rw [hsame]
  exact ⟨rfl, rfl, rfl, rfl⟩

/-- A page that may be freed: it is mapped, and it is not the directory of a process. -/
structure Freeable (s : Memory) (dir : Space → Nat) (n : Nat) : Prop where
  heap : s.space.Heap s n
  mapped : ∃ f, mapped s.mem (dir s.space) n = some f
  keep : ∀ t, s.IsProcess t → Owner.page .kernel (vpage (s.task t).pageDir) ≠ .page s.space n

theorem Removed.shrank {f : Nat} (h : Removed s s' dir n f) (hpage : mapped s.mem (dir s.space) n = some f)
    (hfree : ∀ pf a, (s.pool pf).Free a → (s'.pool pf).Free a) : Shrank s s' dir n (n + 1) := by
  obtain ⟨pool, hsame⟩ := h.same
  have hone : ∀ k, n ≤ k → k < n + 1 → k = n := by
    intro k hk hk'
    omega
  refine ⟨?_, ?_, ?_, h.dirs, hfree, ?_, ?_⟩
  · cases hflag : s.space.flag with
    | kernel =>
        rw [hflag] at hsame
        exact ⟨pool, s.userPool, hsame⟩
    | user =>
        rw [hflag] at hsame
        exact ⟨s.kernelPool, pool, hsame⟩
  · intro k hk hk'
    rw [hone k hk hk']
    exact h.page
  · intro o ho hno
    exact h.others o ho (hno n (Nat.le_refl _) (Nat.lt_succ_self _))
  · intro k a hk hk' ha
    rw [hone k hk hk', hpage] at ha
    rw [← Option.some.inj ha]
    exact h.freed
  · intro page
    rw [h.tlb]
    by_cases he : page = s.cur / 4096
    · rw [he]
      exact Or.inr ⟨update_self _ _ _, rfl⟩
    · exact Or.inl (update_of_ne he _ _)

/-- The other pool is as it was. -/
theorem Removed.free {f : Nat} (h : Removed s s' dir n f) (pf : PoolFlags) (a : Nat)
    (ha : (s.pool pf).Free a) : (s'.pool pf).Free a := by
  by_cases hpf : pf = s.space.flag
  · subst hpf
    by_cases he : a = f
    · rw [he]
      exact h.freed
    · exact (h.rest a false he).2 ha
  · obtain ⟨pool, hsame⟩ := h.same
    have hpool : s'.pool pf = s.pool pf := by
      rw [hsame]
      cases pf <;> cases hflag : s.space.flag <;> first | rfl | exact absurd hflag.symm hpf
    rw [hpool]
    exact ha

theorem Shrank.trans {s'' : Memory} {mid : Nat} (h : Shrank s s' dir lo mid)
    (h' : Shrank s' s'' dir mid hi) (hlo : lo ≤ mid) (hhi : mid ≤ hi)
    (hheap : ∀ n, lo ≤ n → n < hi → s.space.Heap s n) : Shrank s s'' dir lo hi where
  same := by
    obtain ⟨kpool, upool, hsame⟩ := h.same
    obtain ⟨kpool', upool', hsame'⟩ := h'.same
    exact ⟨kpool', upool', by rw [hsame', hsame]⟩
  gone := by
    intro n hn hn'
    by_cases hmid : n < mid
    · have hvalid : (Owner.page s.space n).Valid s' := (h.valid (.page s.space n)).2 (hheap n hn hn')
      have hkeep := h'.others (.page s.space n) hvalid fun k hk _ he => by
        have := (Owner.page.inj he).2
        omega
      exact hkeep.trans (h.gone n hn hmid)
    · have hgone := h'.gone n (by omega) hn'
      rw [h.space] at hgone
      exact hgone
  others := by
    intro o ho hno
    rw [h'.others o ((h.valid o).2 ho), h.others o ho]
    · exact fun n hn hn' => hno n hn (by omega)
    · intro n hn hn'
      rw [h.space]
      exact hno n (by omega) hn'
  dirs := by
    intro sp i hsp hi
    exact (h'.dirs sp i ((h.exists_iff sp).2 hsp) hi).trans (h.dirs sp i hsp hi)
  free pf a ha := h'.free pf a (h.free pf a ha)
  freed := by
    intro n a hn hn' ha
    by_cases hmid : n < mid
    · exact h'.free _ a (h.freed n a hn hmid ha)
    · have hsame := h.others (.page s.space n) (hheap n hn hn') fun k _ hk' he => by
        have := (Owner.page.inj he).2
        omega
      have ha' : mapped s'.mem (dir s'.space) n = some a := by
        rw [h.space]
        exact hsame.trans ha
      have hfreed := h'.freed n a (by omega) hn' ha'
      rw [h.space] at hfreed
      exact hfreed
  tlb := by
    intro page
    rcases h'.tlb page with he | ⟨he, hcur⟩
    · rw [he]
      exact h.tlb page
    · rw [h.task.2.1] at hcur
      exact Or.inr ⟨he, hcur⟩

theorem Freeable.shrank (h : Freeable s dir n) (hs : Shrank s s' dir lo hi) (hn : hi ≤ n) :
    Freeable s' dir n := by
  obtain ⟨f, hf⟩ := h.mapped
  refine ⟨?_, ⟨f, ?_⟩, ?_⟩
  · rw [hs.space]
    exact (hs.valid (.page s.space n)).2 h.heap
  · rw [hs.space]
    have hsame := hs.others (.page s.space n) h.heap fun k _ hk' he => by
      have := (Owner.page.inj he).2
      omega
    exact hsame.trans hf
  · unfold Memory.IsProcess
    rw [hs.space, hs.task.1]
    exact h.keep

/-- What the loop asks of a frame. -/
def frameAssert (pf : PoolFlags) (p : Word) (s : Memory) : Except Trap Unit :=
  match pf with
  | .user => massert (p % 4096 = 0 ∧ s.userPool.paddrStart ≤ p) .userFrame
  | .kernel => massert (p % 4096 = 0 ∧ p < s.userPool.paddrStart ∧ s.kernelPool.paddrStart ≤ p) .kernelFrame

theorem mfreeLoop_succ (pf : PoolFlags) (n : Nat) (vaddr : Word) (s : Memory) :
    mfreeLoop pf (n + 1) vaddr s = (do
      let p ← v2p vaddr s
      frameAssert pf p s
      let s ← pageTablePteRemove vaddr (pfree p s)
      mfreeLoop pf n (vaddr + 4096) s) := by
  cases pf <;> rfl

theorem word_mod (p : Word) (h : p.toNat % 4096 = 0) : p % 4096 = 0 := by
  apply BitVec.eq_of_toNat_eq
  rw [BitVec.toNat_umod]
  exact h

theorem Tables.frameAssert (h : Tables s dir) {p : Word} (hp : (s.pool pf).Used p.toNat) :
    HoloOS.frameAssert pf p s = .ok () := by
  have hmod := word_mod p (h.frame_bounds hp).1
  have hlow := hp.bounds.1
  have hhigh := hp.bounds.2
  have hkfit := h.kfit
  unfold HoloOS.frameAssert massert
  cases pf with
  | user =>
      simp only [Memory.pool] at hlow
      exact if_pos (decide_eq_true ⟨hmod, BitVec.le_def.2 hlow⟩)
  | kernel =>
      simp only [Memory.pool] at hlow hhigh
      exact if_pos (decide_eq_true ⟨hmod, BitVec.lt_def.2 (by omega), BitVec.le_def.2 hlow⟩)

theorem Tables.v2p (h : Tables s dir) (haligned : vaddr.toNat % 4096 = 0)
    (hn : s.space.Heap s (vpage vaddr)) {f : Nat}
    (hf : mapped s.mem (dir s.space) (vpage vaddr) = some f) :
    ∃ p, HoloOS.v2p vaddr s = .ok p ∧ p.toNat = f ∧ (s.pool s.space.flag).Used p.toNat := by
  obtain ⟨p, hp, hnat⟩ := v2p_eq h.windowed hf
  rw [haligned, Nat.add_zero] at hnat
  refine ⟨p, hp, hnat, ?_⟩
  rw [hnat]
  exact h.used (.page s.space (vpage vaddr)) f hn hf

theorem add_page_mod (haligned : vaddr.toNat % 4096 = 0) : (vaddr + 4096).toNat % 4096 = 0 := by
  rw [BitVec.toNat_add]
  have hword : (4096 : Word).toNat = 4096 := rfl
  omega

theorem Tables.mfreeLoop (h : Tables s dir) (hpf : pf = s.space.flag) (haligned : vaddr.toNat % 4096 = 0)
    (n : Nat) (hfree : ∀ k < n, Freeable s dir (vpage vaddr + k)) :
    ∃ s', HoloOS.mfreeLoop pf n vaddr s = .ok s' ∧ Tables s' dir ∧
      Shrank s s' dir (vpage vaddr) (vpage vaddr + n) := by
  induction n generalizing vaddr s with
  | zero => exact ⟨s, rfl, h, .refl s dir _⟩
  | succ n ih =>
      have hfirst : Freeable s dir (vpage vaddr) := hfree 0 (Nat.succ_pos n)
      obtain ⟨f, hf⟩ := hfirst.mapped
      obtain ⟨p, hv2p, hpf', hused⟩ := h.v2p haligned hfirst.heap hf
      rw [← hpf'] at hf
      obtain ⟨s₁, hremove, h₁, hremoved⟩ := h.unmap hfirst.heap hf hfirst.keep
      have hs₁ : Shrank s s₁ dir (vpage vaddr) (vpage vaddr + 1) := hremoved.shrank hf hremoved.free
      have hnext : vpage (vaddr + 4096) = vpage vaddr + 1 := vpage_add (hfirst.heap.lt h.toLayout)
      have hpf₁ : pf = s₁.space.flag := by rw [hs₁.space]; exact hpf
      obtain ⟨s₂, hloop, h₂, hs₂⟩ := ih h₁ hpf₁ (add_page_mod haligned) fun k hk => by
        rw [hnext, Nat.add_assoc, Nat.add_comm 1 k]
        exact (hfree (k + 1) (by omega)).shrank hs₁ (by omega)
      refine ⟨s₂, ?_, h₂, ?_⟩
      · have hassert : HoloOS.frameAssert pf p s = .ok () := h.frameAssert (by rw [hpf]; exact hused)
        rw [mfreeLoop_succ, hv2p, ok_bind, hassert, ok_bind, hremove, ok_bind]
        exact hloop
      · rw [hnext] at hs₂
        rw [show vpage vaddr + (n + 1) = vpage vaddr + 1 + n by omega]
        refine hs₁.trans hs₂ (by omega) (by omega) fun k hk hk' => ?_
        have hheap := (hfree (k - vpage vaddr) (by omega)).heap
        rw [show vpage vaddr + (k - vpage vaddr) = k by omega] at hheap
        exact hheap

/-- The range is unmapped and its bits are clear. -/
theorem Tables.mfreePage (h : Tables s dir) (hpf : pf = s.space.flag) (haligned : vaddr.toNat % 4096 = 0)
    (hn : 0 < n) (hfirst : s.space.first ≤ vpage vaddr)
    (hfree : ∀ k < n, Freeable s dir (vpage vaddr + k)) :
    ∃ s₁ s', HoloOS.mfreePage pf vaddr n s = .ok s' ∧ Tables s' dir ∧
      Shrank s s₁ dir (vpage vaddr) (vpage vaddr + n) ∧ Marks s₁ s' false (vpage vaddr) n := by
  have hpage : Freeable s dir (vpage vaddr) := hfree 0 hn
  obtain ⟨f, hf⟩ := hpage.mapped
  obtain ⟨p, hv2p, hpnat, hused⟩ := h.v2p haligned hpage.heap hf
  obtain ⟨s₁, hloop, h₁, hs₁⟩ := h.mfreeLoop hpf haligned n hfree
  have hbounds := h.frame_bounds hused
  have hcnt : decide (1 ≤ n ∧ vaddr % 4096 = 0) = true := decide_eq_true ⟨hn, word_mod _ haligned⟩
  have hframe : decide (p % 4096 = 0 ∧ 0x102000#32 ≤ p) = true := by
    refine decide_eq_true ⟨word_mod p hbounds.1, BitVec.le_def.2 ?_⟩
    have hword : (0x102000#32).toNat = 0x102000 := rfl
    omega
  have hpool : poolOf p s = pf := by
    rw [hpf]
    exact h.poolOf_eq hused
  have hpf₁ : pf = s₁.space.flag := by rw [hs₁.space]; exact hpf
  have hm := marks_setVaddrBitmap hpf₁ (vpage vaddr - s₁.space.first) n false
  have hback : s₁.space.first + (vpage vaddr - s₁.space.first) = vpage vaddr := by
    rw [hs₁.space]
    omega
  rw [hback] at hm
  refine ⟨s₁, _, ?_, ?_, hs₁, hm⟩
  · rw [HoloOS.mfreePage, massert_bind hcnt, hv2p, ok_bind, massert_bind hframe, hpool, hloop, ok_bind,
      vaddrRemove, h₁.toLayout.page_index hpf₁ (by rw [hs₁.space]; exact hfirst)]
    rfl
  · refine hm.same.tables h₁ fun sp k hk hbit => ?_
    rw [hm.bit] at hbit
    split at hbit
    next hin =>
      rw [hin.1, hs₁.space]
      exact hs₁.gone k hin.2.1 hin.2.2
    next => exact h₁.clear sp k hk hbit

end HoloOS
