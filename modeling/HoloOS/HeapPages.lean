import HoloOS.HeapWords

/-! The words around `mallocPage` and `mfreePage`. Both write page tables and directories only, which lie in no frame
of data and not in the entries of the first megabyte, so every word that is there keeps its contents. -/

namespace HoloOS

open Function Paging

variable {s s₁ s' : Memory} {dir : Space → Nat} {sp : Space} {pf : PoolFlags} {v vaddr : Word} {b f n lo hi : Nat}
  {done : Bool}

/-- A byte of data, of the first megabyte, or of the entries that map it. -/
def Kept (s : Memory) (dir : Space → Nat) (b : Nat) : Prop :=
  OpenPlace s dir b ∨ (firstTable ≤ b ∧ b < firstTable + 0x400)

/-- A byte of a page directory, of another page table, or of the entries behind the first megabyte. -/
def Tabled (s : Memory) (dir : Space → Nat) (b : Nat) : Prop :=
  (∃ sp, Space.Exists s sp ∧ dir sp ≤ b ∧ b < dir sp + 4096) ∨
  ∃ sp n T, Space.Heap s sp n ∧ entry s.mem (dir sp) (n / 1024) = some T ∧ T + 4 * (n % 1024) ≤ b ∧
    b < T + 4 * (n % 1024) + 4

theorem Tables.not_dir (h : Tables s dir) (hb : Kept s dir b) (hsp : sp.Exists s) :
    ¬(dir sp ≤ b ∧ b < dir sp + 4096) := by
  intro hin
  have hmod := h.dir_mod hsp
  have hge := h.dir_ge hsp
  rcases hb with (hlow | ⟨f, hf, hle, hlt⟩) | hfirst
  · omega
  · have hf' := (h.dataFrame_mod hf).1
    obtain rfl : f = dir sp := by omega
    exact h.dir_not_dataFrame hsp hf
  · have hreg : Space.kernel.Region s 768 := .inr ⟨rfl, rfl⟩
    have hne := h.dir_ne_table hsp hreg (by rw [h.dir_kernel]; exact h.first)
    have hword : firstTable % 4096 = 0 := rfl
    omega

theorem Tables.not_entry (h : Tables s dir) (hb : Kept s dir b) (hn : sp.Heap s n) {T : Nat}
    (hT : entry s.mem (dir sp) (n / 1024) = some T) :
    ¬(T + 4 * (n % 1024) ≤ b ∧ b < T + 4 * (n % 1024) + 4) := by
  intro hin
  have hreg := h.region hn
  have hmod := h.table_mod hreg hT
  have hge := h.table_ge hreg hT
  rcases hb with (hlow | ⟨f, hf, hle, hlt⟩) | ⟨hle, hlt⟩
  · omega
  · have hf' := (h.dataFrame_mod hf).1
    obtain rfl : f = T := by omega
    exact h.table_not_dataFrame hreg hT hf
  · have hword : firstTable % 4096 = 0 := rfl
    obtain rfl : T = firstTable := by omega
    have hreg' : Space.kernel.Region s 768 := .inr ⟨rfl, rfl⟩
    obtain ⟨rfl, hi⟩ := h.table_injective hreg hreg' hT (by rw [h.dir_kernel]; exact h.first)
    have := hn.1
    omega

theorem Tables.not_tabled (h : Tables s dir) (hb : Kept s dir b) : ¬Tabled s dir b := by
  rintro (⟨sp, hsp, hin⟩ | ⟨sp, n, T, hn, hT, hin⟩)
  · exact h.not_dir hb hsp hin
  · exact h.not_entry hb hn hT hin

theorem write_apart {m : Mem} {a : Nat} {w : Word} (h : ¬(a ≤ b ∧ b < a + 4)) : write m a w b = m b := if_neg h

/-- Mapping a page writes its table and its directory. -/
theorem Tables.pageTableAdd_kept (h : Tables s dir) {p : Word} (hn : s.space.Heap s (vpage vaddr))
    (hnone : mapped s.mem (dir s.space) (vpage vaddr) = none)
    (htable : entry s.mem (dir s.space) (vpage vaddr / 1024) = none → ∃ a, s.kernelPool.Free a)
    (hcall : HoloOS.pageTableAdd vaddr p s = .ok s') (hb : Kept s dir b) : s'.mem b = s.mem b := by
  have hwin := h.windowed
  have hreg := h.region hn
  have hlt := hreg.lt
  cases hT : entry s.mem (dir s.space) (vpage vaddr / 1024) with
  | some T =>
      have hfree : entry s.mem T (vpage vaddr % 1024) = none := by
        rw [mapped, hT] at hnone
        exact hnone
      rw [pageTableAdd_table hwin p hT hfree] at hcall
      cases hcall
      exact write_apart (h.not_entry hb hn hT)
  | none =>
      obtain ⟨a, hfree⟩ := htable hT
      cases hpalloc : HoloOS.palloc s.kernelPool with
      | mk r memPool =>
      cases r with
      | none =>
          have hno := palloc_eq_none_iff.1 (show (HoloOS.palloc s.kernelPool).1 = none by rw [hpalloc])
          exact absurd hfree (hno a)
      | some F =>
          have hkernel : HoloOS.palloc (s.pool .kernel) = (some F, memPool) := hpalloc
          obtain ⟨-, hfresh, -, hfreeF, -⟩ := h.palloc hkernel
          have hfreshF : Fresh s dir F.toNat := h.fresh hfreeF
          have hne : F.toNat ≠ dir s.space := (h.fresh_ne_dir hfreshF s.space_exists).symm
          rw [pageTableAdd_new hwin p hT (by omega) hpalloc rfl hfresh.aligned hne] at hcall
          cases hcall
          have hout : ¬(F.toNat ≤ b ∧ b < F.toNat + 4096) := by
            intro hin
            have hmod := hfreshF.aligned
            have hlow := hfreshF.low
            rcases hb with (hb | ⟨f, hf, hle, hltf⟩) | hb
            · omega
            · have hf' := (h.dataFrame_mod hf).1
              obtain rfl : f = F.toNat := by omega
              obtain ⟨⟨sp, k, hk, hmapped⟩, -⟩ := hf
              exact hfreshF.unused (.page sp k) hk hmapped
            · have hword : firstTable = 0x101000 := rfl
              omega
          have hdir := h.not_dir hb s.space_exists
          have hmod := h.dir_mod s.space_exists
          have hidx := region_lt vaddr
          change withTable s.mem (dir s.space) F.toNat (vpage vaddr) _ _ b = s.mem b
          rw [withTable, write_apart (by omega), fill, if_neg hout, write_apart (by omega)]

theorem DataFrame.grew (hf : DataFrame s dir f) (hg : Grew s s' dir lo hi) : DataFrame s' dir f := by
  obtain ⟨⟨sp, n, hn, hmapped⟩, hkeep⟩ := hf
  have hn' : (Owner.page sp n).Valid s' := (hg.valid _).2 hn
  refine ⟨⟨sp, n, hn', hg.keeps (.page sp n) f hn hmapped⟩, fun t ht => hkeep t ?_⟩
  rw [hg.same] at ht
  exact ht

theorem Kept.grew (hb : Kept s dir b) (hg : Grew s s' dir lo hi) : Kept s' dir b :=
  hb.imp_left (Or.imp_right fun ⟨f, hf, hin⟩ => ⟨f, hf.grew hg, hin⟩)

theorem Kept.withPools (hb : Kept s dir b) (kpool upool : Pool) :
    Kept { s with kernelPool := kpool, userPool := upool } dir b :=
  hb.imp_left (Or.imp_right fun ⟨f, hf, hin⟩ => ⟨f, ⟨hf.page, hf.keep⟩, hin⟩)

/-- The loop of `mallocPage` over unmapped pages. -/
theorem Tables.mallocLoop_kept (h : Tables s dir) (hpf : pf = s.space.flag) (n : Nat)
    (hmap : ∀ k < n, Mappable s dir (vpage vaddr + k)) (hfits : LoopFits pf n vaddr s)
    (hcall : HoloOS.mallocLoop pf n vaddr s = .ok (done, s')) (hb : Kept s dir b) : s'.mem b = s.mem b := by
  induction n generalizing vaddr s with
  | zero =>
      cases hcall
      rfl
  | succ n ih =>
      rw [HoloOS.mallocLoop] at hcall
      cases hpalloc : HoloOS.palloc (s.pool pf) with
      | mk r memPool =>
      cases r with
      | none =>
          rw [hpalloc] at hcall
          cases hcall
          rfl
      | some p =>
          obtain ⟨hfit, hrest⟩ := hfits p memPool hpalloc
          have hfirst : Mappable s dir (vpage vaddr) := hmap 0 (Nat.succ_pos n)
          obtain ⟨s₁, hadd, h₁, hg₁, -⟩ := h.mapOne hpf hfirst hpalloc hfit
          have hnext : vpage (vaddr + 4096) = vpage vaddr + 1 := vpage_add (hfirst.heap.lt h.toLayout)
          rw [hpalloc] at hcall
          dsimp only at hcall
          rw [hadd, ok_bind] at hcall
          have hmap₁ : ∀ k < n, Mappable s₁ dir (vpage (vaddr + 4096) + k) := by
            intro k hk
            rw [hnext, Nat.add_assoc, Nat.add_comm 1 k]
            exact (hmap (k + 1) (by omega)).grew hg₁ (by omega)
          have hloop := ih h₁ (by rw [hg₁.space]; exact hpf) hmap₁ (hrest s₁ hadd) hcall (hb.grew hg₁)
          obtain ⟨h₀, -, -, -, kpool, upool, hstate, -⟩ := h.palloc hpalloc
          rw [hstate] at h₀ hadd hfit
          have hone := h₀.pageTableAdd_kept hfirst.heap hfirst.unmapped (fun hnone => h₀.free_of_fits hfit hnone) hadd
            (hb.withPools kpool upool)
          exact hloop.trans hone

theorem DataFrame.sameTables (hf : DataFrame s dir f) (hs : SameTables s s') : DataFrame s' dir f := by
  obtain ⟨⟨sp, n, hn, hmapped⟩, hkeep⟩ := hf
  refine ⟨⟨sp, n, hs.heap_iff.2 hn, by rw [hs.mem]; exact hmapped⟩, fun t ht => hkeep t ((hs.isProcess t).1 ht)⟩

theorem Kept.sameTables (hb : Kept s dir b) (hs : SameTables s s') : Kept s' dir b :=
  hb.imp_left (Or.imp_right fun ⟨f, hf, hin⟩ => ⟨f, hf.sameTables hs, hin⟩)

/-- What an allocation keeps. -/
theorem Tables.mallocPage_kept (h : Tables s dir) (hpf : pf = s.space.flag) (hn : 0 < n)
    (hfits : MallocFits pf n s) {r : Option Word} (hcall : HoloOS.mallocPage pf n s = .ok (r, s'))
    (hb : Kept s dir b) : s'.mem b = s.mem b := by
  by_cases hcnt : 0 < n ∧ n < 3840
  · rw [HoloOS.mallocPage, massert_bind (decide_eq_true hcnt)] at hcall
    rcases h.vaddrGet hpf hn with ⟨-, hget⟩ | ⟨v, s₁, hr, -, ⟨-, hget⟩ | ⟨-, hget⟩⟩
    · rw [hget] at hcall
      cases hcall
      rfl
    · rw [hget, ok_bind] at hcall
      dsimp only at hcall
      obtain ⟨⟨done, s₂⟩, hloop, hret⟩ := bind_ok hcall
      cases hret
      have hpf₁ : pf = s₁.space.flag := by rw [hr.marks.same.space]; exact hpf
      have hkept := (hr.marks.tables h).mallocLoop_kept hpf₁ n (hr.mappable h) (hfits v s₁ hget) hloop
        (hb.sameTables hr.marks.same)
      rw [hkept, hr.marks.same.mem]
    · rw [hget] at hcall
      cases hcall
  · rw [HoloOS.mallocPage, massert, if_neg (by simpa using hcnt)] at hcall
    cases hcall

theorem Tabled.congr (hdirs : ∀ sp i, Space.Exists s sp → i < 1024 → entry s'.mem (dir sp) i = entry s.mem (dir sp) i)
    (hexists : ∀ sp : Space, sp.Exists s' ↔ sp.Exists s) (hvalid : ∀ o : Owner, o.Valid s' ↔ o.Valid s) (h : Layout s)
    (hb : Tabled s' dir b) : Tabled s dir b := by
  rcases hb with ⟨sp, hsp, hin⟩ | ⟨sp, n, T, hn, hT, hin⟩
  · exact .inl ⟨sp, (hexists sp).1 hsp, hin⟩
  · have hn' : sp.Heap s n := (hvalid (.page sp n)).1 hn
    have hlt := (h.region hn').lt
    rw [hdirs sp _ hn'.exists (by omega)] at hT
    exact .inr ⟨sp, n, T, hn', hT, hin⟩

/-- Unmapping a page writes its entry. -/
theorem Tables.pageTablePteRemove_kept (h : Tables s dir) {p : Word} (hn : s.space.Heap s (vpage vaddr)) {f : Nat}
    (hpage : mapped s.mem (dir s.space) (vpage vaddr) = some f)
    (hcall : pageTablePteRemove vaddr (pfree p s) = .ok s') (hb : ¬Tabled s dir b) : s'.mem b = s.mem b := by
  obtain ⟨T, hT, -⟩ := mapped_eq_some.1 hpage
  have hmem : (pfree p s).mem = s.mem := by
    unfold pfree
    cases poolOf p s <;> rfl
  have hcr3 : (pfree p s).cr3 = s.cr3 := by
    unfold pfree
    cases poolOf p s <;> rfl
  have hwin : Windowed (pfree p s) (dir s.space) := by
    refine ⟨hcr3.trans h.windowed.cr3, h.windowed.aligned, ?_⟩
    rw [hmem]
    exact h.windowed.self
  have hT' : entry (pfree p s).mem (dir s.space) (vpage vaddr / 1024) = some T := by
    rw [hmem]
    exact hT
  obtain ⟨w, -, hremove⟩ := pageTablePteRemove_eq hwin hT'
  rw [hremove] at hcall
  cases hcall
  change write (pfree p s).mem (T + 4 * (vpage vaddr % 1024)) w b = s.mem b
  rw [hmem]
  exact write_apart fun hin => hb (.inr ⟨s.space, vpage vaddr, T, hn, hT, hin⟩)

theorem Tables.mfreeLoop_kept (h : Tables s dir) (hpf : pf = s.space.flag) (haligned : vaddr.toNat % 4096 = 0)
    (n : Nat) (hfree : ∀ k < n, Freeable s dir (vpage vaddr + k)) (hcall : HoloOS.mfreeLoop pf n vaddr s = .ok s')
    (hb : ¬Tabled s dir b) : s'.mem b = s.mem b := by
  induction n generalizing vaddr s with
  | zero =>
      cases hcall
      rfl
  | succ n ih =>
      have hfirst : Freeable s dir (vpage vaddr) := hfree 0 (Nat.succ_pos n)
      obtain ⟨f, hf⟩ := hfirst.mapped
      obtain ⟨p, hv2p, hpf', hused⟩ := h.v2p haligned hfirst.heap hf
      rw [← hpf'] at hf
      obtain ⟨s₁, hremove, h₁, hremoved⟩ := h.unmap hfirst.heap hf hfirst.keep
      have hs₁ : Shrank s s₁ dir (vpage vaddr) (vpage vaddr + 1) := hremoved.shrank hf hremoved.free
      have hnext : vpage (vaddr + 4096) = vpage vaddr + 1 := vpage_add (hfirst.heap.lt h.toLayout)
      have hassert : HoloOS.frameAssert pf p s = .ok () := h.frameAssert (by rw [hpf]; exact hused)
      rw [mfreeLoop_succ, hv2p, ok_bind, hassert, ok_bind, hremove, ok_bind] at hcall
      have hb₁ : ¬Tabled s₁ dir b := fun hb' => hb (hb'.congr hs₁.dirs hs₁.exists_iff hs₁.valid h.toLayout)
      have hrest := ih h₁ (by rw [hs₁.space]; exact hpf) (add_page_mod haligned) (fun k hk => by
        rw [hnext, Nat.add_assoc, Nat.add_comm 1 k]
        exact (hfree (k + 1) (by omega)).shrank hs₁ (by omega)) hcall hb₁
      exact hrest.trans (h.pageTablePteRemove_kept hfirst.heap hf hremove hb)

/-- What a free keeps. -/
theorem Tables.mfreePage_kept (h : Tables s dir) (hpf : pf = s.space.flag) (haligned : vaddr.toNat % 4096 = 0)
    (hn : 0 < n) (hfree : ∀ k < n, Freeable s dir (vpage vaddr + k))
    (hcall : HoloOS.mfreePage pf vaddr n s = .ok s') (hb : Kept s dir b) : s'.mem b = s.mem b := by
  have hpage : Freeable s dir (vpage vaddr) := hfree 0 hn
  obtain ⟨f, hf⟩ := hpage.mapped
  obtain ⟨p, hv2p, -, hused⟩ := h.v2p haligned hpage.heap hf
  have hpool : poolOf p s = pf := by
    rw [hpf]
    exact h.poolOf_eq hused
  rw [HoloOS.mfreePage] at hcall
  obtain ⟨-, -, hcall⟩ := bind_ok hcall
  rw [hv2p, ok_bind, hpool] at hcall
  obtain ⟨-, -, hcall⟩ := bind_ok hcall
  obtain ⟨s₁, hloop, hret⟩ := bind_ok hcall
  cases hret
  have hkept := h.mfreeLoop_kept hpf haligned n hfree hloop (h.not_tabled hb)
  rw [← hkept, vaddrRemove]
  cases pf <;> rfl

/-- The pools have their sizes. -/
def SameSizes (s s' : Memory) : Prop := ∀ pf, (s'.pool pf).poolSize = (s.pool pf).poolSize

theorem SameSizes.refl (s : Memory) : SameSizes s s := fun _ => rfl

theorem SameSizes.trans (h : SameSizes s s₁) (h' : SameSizes s₁ s') : SameSizes s s' := fun pf => (h' pf).trans (h pf)

theorem SameSizes.setPool {pool : Pool} (hsize : pool.poolSize = (s.pool pf).poolSize) :
    SameSizes s (s.setPool pf pool) := by
  intro pf'
  cases pf <;> cases pf' <;> first | rfl | exact hsize

theorem SameSizes.of_mem {m : Mem} (hsame : s' = { s with mem := m }) : SameSizes s s' := by
  intro pf
  rw [hsame]
  cases pf <;> rfl

theorem store_mem {vaddr w : Word} (hcall : s.store vaddr w = .ok s') : ∃ m, s' = { s with mem := m } := by
  obtain ⟨a, -, hcall⟩ := bind_ok hcall
  split at hcall
  next =>
    cases hcall
    exact ⟨_, rfl⟩
  next =>
    obtain ⟨b, -, hcall⟩ := bind_ok hcall
    cases hcall
    exact ⟨_, rfl⟩

theorem memsetLoop_mem {val : BitVec 8} {fuel size : Nat} {dst : Word}
    (hcall : memsetLoop val fuel dst size s = .ok s') :
    ∃ m, s' = { s with mem := m } := by
  induction fuel generalizing dst size s with
  | zero =>
      cases hcall
      exact ⟨_, rfl⟩
  | succ fuel ih =>
      rw [memsetLoop] at hcall
      split at hcall
      next =>
        cases hcall
        exact ⟨_, rfl⟩
      next =>
        obtain ⟨a, -, hcall⟩ := bind_ok hcall
        obtain ⟨m, rfl⟩ := ih hcall
        exact ⟨m, rfl⟩

theorem palloc_size {pool pool' : Pool} {r : Option Word} (hcall : palloc pool = (r, pool')) :
    pool'.poolSize = pool.poolSize := by
  unfold palloc at hcall
  split at hcall <;> cases hcall <;> rfl

theorem pageTableAdd_sizes {p : Word} (hcall : pageTableAdd vaddr p s = .ok s') : SameSizes s s' := by
  have hentry : ∀ s₁ : Memory, (do
      let pte ← Memory.load (ptePtr vaddr) s₁
      massert (!present pte) .pte
      Memory.store (ptePtr vaddr) (p ||| 7#32) s₁) = .ok s' → SameSizes s₁ s' := by
    intro s₁ hcall
    obtain ⟨pte, -, hcall⟩ := bind_ok hcall
    obtain ⟨-, -, hcall⟩ := bind_ok hcall
    obtain ⟨m, hs'⟩ := store_mem hcall
    exact .of_mem hs'
  obtain ⟨pde, -, hcall⟩ := bind_ok hcall
  dsimp only at hcall
  split at hcall
  next => exact hentry s hcall
  next =>
    cases hpalloc : palloc s.kernelPool with
    | mk r memPool =>
        rw [hpalloc] at hcall
        obtain ⟨s₂, hstore, hcall⟩ := bind_ok hcall
        obtain ⟨s₁, hmemset, hcall⟩ := bind_ok hcall
        obtain ⟨-, -, hloop⟩ := bind_ok hmemset
        obtain ⟨m₂, hs₂⟩ := store_mem hstore
        obtain ⟨m₁, hs₁⟩ := memsetLoop_mem hloop
        have hpool : SameSizes s (s.setPool .kernel memPool) := .setPool (palloc_size hpalloc)
        exact ((hpool.trans (.of_mem hs₂)).trans (.of_mem hs₁)).trans (hentry s₁ hcall)

theorem mallocLoop_sizes (hcall : HoloOS.mallocLoop pf n vaddr s = .ok (done, s')) : SameSizes s s' := by
  induction n generalizing vaddr s with
  | zero =>
      cases hcall
      exact .refl _
  | succ n ih =>
      rw [HoloOS.mallocLoop] at hcall
      cases hpalloc : HoloOS.palloc (s.pool pf) with
      | mk r memPool =>
          rw [hpalloc] at hcall
          cases r with
          | none =>
              cases hcall
              exact .refl _
          | some p =>
              obtain ⟨s₁, hadd, hloop⟩ := bind_ok hcall
              exact ((SameSizes.setPool (palloc_size hpalloc)).trans (pageTableAdd_sizes hadd)).trans (ih hloop)

theorem mallocPage_sizes {r : Option Word} (hcall : HoloOS.mallocPage pf n s = .ok (r, s')) : SameSizes s s' := by
  have hmarked : ∀ bmap, SameSizes s (s.setVaddrBitmap pf bmap) := by
    intro bmap pf'
    cases pf <;> cases pf' <;> rfl
  obtain ⟨-, -, hcall⟩ := bind_ok hcall
  obtain ⟨⟨v, s₁⟩, hget, hcall⟩ := bind_ok hcall
  have hsizes : SameSizes s s₁ := by
    unfold HoloOS.vaddrGet at hget
    split at hget
    next =>
      cases hget
      exact .refl _
    next =>
      obtain ⟨-, -, hret⟩ := bind_ok hget
      cases hret
      exact hmarked _
  cases v with
  | none =>
      cases hcall
      exact hsizes
  | some v =>
      obtain ⟨⟨done, s₂⟩, hloop, hret⟩ := bind_ok hcall
      cases hret
      exact hsizes.trans (mallocLoop_sizes hloop)

theorem mfreeLoop_sizes (hcall : HoloOS.mfreeLoop pf n vaddr s = .ok s') : SameSizes s s' := by
  induction n generalizing vaddr s with
  | zero =>
      cases hcall
      exact .refl _
  | succ n ih =>
      rw [mfreeLoop_succ] at hcall
      obtain ⟨p, -, hcall⟩ := bind_ok hcall
      obtain ⟨-, -, hcall⟩ := bind_ok hcall
      obtain ⟨s₁, hremove, hloop⟩ := bind_ok hcall
      obtain ⟨pte, -, hremove⟩ := bind_ok hremove
      obtain ⟨s₂, hstore, hret⟩ := bind_ok hremove
      cases hret
      obtain ⟨m, hs₂⟩ := store_mem hstore
      have hfree : SameSizes s (pfree p s) := SameSizes.setPool rfl
      have hstored : SameSizes (pfree p s) (s₂.invlpg s₂.cur) := by
        intro pf'
        rw [hs₂]
        cases pf' <;> rfl
      exact (hfree.trans hstored).trans (ih hloop)

theorem mfreePage_sizes (hcall : HoloOS.mfreePage pf vaddr n s = .ok s') : SameSizes s s' := by
  obtain ⟨-, -, hcall⟩ := bind_ok hcall
  obtain ⟨p, -, hcall⟩ := bind_ok hcall
  obtain ⟨-, -, hcall⟩ := bind_ok hcall
  obtain ⟨s₁, hloop, hret⟩ := bind_ok hcall
  cases hret
  refine (mfreeLoop_sizes hloop).trans fun pf' => ?_
  cases pf <;> cases pf' <;> rfl

/-- Only the frame of the page is given back. -/
theorem Removed.used (h : Removed s s' dir n f) (pf : PoolFlags) (a : Nat) :
    (s'.pool pf).Used a ↔ (s.pool pf).Used a ∧ ¬(pf = s.space.flag ∧ a = f) := by
  by_cases hpf : pf = s.space.flag
  · subst hpf
    by_cases he : a = f
    · subst he
      exact ⟨fun hused => absurd h.freed (Pool.Used.not_free hused), fun hb => absurd ⟨rfl, rfl⟩ hb.2⟩
    · exact ⟨fun hused => ⟨(h.rest a true he).1 hused, fun hb => he hb.2⟩, fun hb => (h.rest a true he).2 hb.1⟩
  · obtain ⟨pool, hsame⟩ := h.same
    have hpool : s'.pool pf = s.pool pf := by
      rw [hsame]
      cases pf <;> cases hflag : s.space.flag <;> first | rfl | exact absurd hflag.symm hpf
    rw [hpool]
    exact ⟨fun hused => ⟨hused, fun hb => hpf hb.1⟩, fun hb => hb.1⟩

/-- The frames that `mfreePage` gives back are those of its pages. -/
theorem Tables.mfreeLoop_used (h : Tables s dir) (hpf : pf = s.space.flag) (haligned : vaddr.toNat % 4096 = 0)
    (n : Nat) (hfree : ∀ k < n, Freeable s dir (vpage vaddr + k)) (hcall : HoloOS.mfreeLoop pf n vaddr s = .ok s')
    (pf' : PoolFlags) (a : Nat) : (s'.pool pf').Used a ↔ (s.pool pf').Used a ∧
      ∀ k < n, ¬(pf' = s.space.flag ∧ mapped s.mem (dir s.space) (vpage vaddr + k) = some a) := by
  induction n generalizing vaddr s with
  | zero =>
      cases hcall
      exact ⟨fun hused => ⟨hused, fun k hk => absurd hk (Nat.not_lt_zero k)⟩, fun hb => hb.1⟩
  | succ n ih =>
      have hfirst : Freeable s dir (vpage vaddr) := hfree 0 (Nat.succ_pos n)
      obtain ⟨f, hf⟩ := hfirst.mapped
      obtain ⟨p, hv2p, hpf', hused⟩ := h.v2p haligned hfirst.heap hf
      rw [← hpf'] at hf
      obtain ⟨s₁, hremove, h₁, hremoved⟩ := h.unmap hfirst.heap hf hfirst.keep
      have hs₁ : Shrank s s₁ dir (vpage vaddr) (vpage vaddr + 1) := hremoved.shrank hf hremoved.free
      have hnext : vpage (vaddr + 4096) = vpage vaddr + 1 := vpage_add (hfirst.heap.lt h.toLayout)
      have hassert : HoloOS.frameAssert pf p s = .ok () := h.frameAssert (by rw [hpf]; exact hused)
      rw [mfreeLoop_succ, hv2p, ok_bind, hassert, ok_bind, hremove, ok_bind] at hcall
      have hrest := ih h₁ (by rw [hs₁.space]; exact hpf) (add_page_mod haligned) (fun k hk => by
        rw [hnext, Nat.add_assoc, Nat.add_comm 1 k]
        exact (hfree (k + 1) (by omega)).shrank hs₁ (by omega)) hcall
      rw [hrest, hremoved.used, hs₁.space, hnext]
      have hsame : ∀ k < n, mapped s₁.mem (dir s.space) (vpage vaddr + 1 + k) =
          mapped s.mem (dir s.space) (vpage vaddr + (k + 1)) := by
        intro k hk
        rw [show vpage vaddr + 1 + k = vpage vaddr + (k + 1) by omega]
        refine hs₁.others (.page s.space _) (hfree (k + 1) (by omega)).heap fun m hm hm' he => ?_
        have := (Owner.page.inj he).2
        omega
      constructor
      · rintro ⟨⟨hold, hno⟩, hall⟩
        refine ⟨hold, fun k hk hb => ?_⟩
        cases k with
        | zero =>
            rw [Nat.add_zero, hf] at hb
            exact hno ⟨hb.1, (Option.some.inj hb.2).symm⟩
        | succ k =>
            have hk' := hall k (by omega)
            rw [hsame k (by omega)] at hk'
            exact hk' hb
      · rintro ⟨hold, hall⟩
        refine ⟨⟨hold, fun hb => ?_⟩, fun k hk => ?_⟩
        · have hfirst' := hall 0 (by omega)
          rw [Nat.add_zero, hf] at hfirst'
          exact hfirst' ⟨hb.1, by rw [hb.2]⟩
        · rw [hsame k hk]
          exact hall (k + 1) (by omega)

theorem Tables.mfreePage_used (h : Tables s dir) (hpf : pf = s.space.flag) (haligned : vaddr.toNat % 4096 = 0)
    (hn : 0 < n) (hfree : ∀ k < n, Freeable s dir (vpage vaddr + k)) (hcall : HoloOS.mfreePage pf vaddr n s = .ok s')
    (pf' : PoolFlags) (a : Nat) : (s'.pool pf').Used a ↔ (s.pool pf').Used a ∧
      ∀ k < n, ¬(pf' = s.space.flag ∧ mapped s.mem (dir s.space) (vpage vaddr + k) = some a) := by
  have hpage : Freeable s dir (vpage vaddr) := hfree 0 hn
  obtain ⟨f, hf⟩ := hpage.mapped
  obtain ⟨p, hv2p, -, hused⟩ := h.v2p haligned hpage.heap hf
  have hpool : poolOf p s = pf := by
    rw [hpf]
    exact h.poolOf_eq hused
  rw [HoloOS.mfreePage] at hcall
  obtain ⟨-, -, hcall⟩ := bind_ok hcall
  rw [hv2p, ok_bind, hpool] at hcall
  obtain ⟨-, -, hcall⟩ := bind_ok hcall
  obtain ⟨s₁, hloop, hret⟩ := bind_ok hcall
  cases hret
  rw [← h.mfreeLoop_used hpf haligned n hfree hloop, vaddrRemove]
  cases pf <;> cases pf' <;> rfl

/-- The words of a set can be written as before, and have their contents. -/
def KeepsWords (s s' : Memory) (dir : Space → Nat) (P : Space → Word → Prop) : Prop :=
  ∀ sp v, P sp v → Space.Exists s sp → Access s dir sp v → Access s' dir sp v ∧ word s' dir sp v = word s dir sp v

theorem Access.keeps (h : Spaces s dir) (hv : Access s dir sp v) (hcell : Cell s' sp v)
    (hplace : place s' dir sp v = place s dir sp v) (hopen : ∀ a, place s dir sp v = some a → OpenPlace s' dir a)
    (hsees : Sees s' dir sp v) (hkept : ∀ b, Kept s dir b → s'.mem b = s.mem b) :
    Access s' dir sp v ∧ word s' dir sp v = word s dir sp v := by
  obtain ⟨a, ha, hopen₀⟩ := hv.reach
  have hmod := h.place_mod h.low hv.cell ha
  have halign := hv.cell.aligned
  refine ⟨⟨⟨hcell, a, hplace.trans ha, hopen a ha⟩, hsees⟩, ?_⟩
  rw [word_of_place hcell (hplace.trans ha), word_of_place hv.cell ha]
  refine read_eq_of_bytes fun j hj => hkept _ (.inl ?_)
  rcases hopen₀ with hlow | ⟨f, hf, hle, hlt⟩
  · left
    omega
  · have := (h.dataFrame_mod hf).1
    exact .inr ⟨f, hf, by omega, by omega⟩

/-- The directory entry that leads to a word. -/
theorem Solid.entry (hv : Solid s dir sp v) : ∃ T, entry s.mem (dir (home sp v)) (vpage v / 1024) = some T := by
  obtain ⟨a, ha, -⟩ := hv.reach
  obtain ⟨f, hf, -⟩ := place_eq_some.1 ha
  obtain ⟨T, hT, -⟩ := mapped_eq_some.1 hf
  exact ⟨T, hT⟩

theorem LowMapped.kept (h : Tables s dir) (h' : Tables s' dir) (hlow : LowMapped s)
    (hkept : ∀ b, Kept s dir b → s'.mem b = s.mem b) : LowMapped s' := by
  intro n hle hlt
  have hn := hlow n hle hlt
  have hfirst : n / 1024 = 768 := by omega
  rw [mapped, hfirst, h.first, Option.bind_some] at hn
  rw [mapped, hfirst, h'.first, Option.bind_some, ← hn]
  have hread : read s'.mem (firstTable + 4 * (n % 1024)) = read s.mem (firstTable + 4 * (n % 1024)) :=
    read_congr fun b hb hlt => hkept b (.inr ⟨by omega, by omega⟩)
  rw [entry, entry, hread]

theorem SameTables.access (hs : SameTables s s') (hv : Access s dir sp v) : Access s' dir sp v := by
  have hplace : place s' dir sp v = place s dir sp v := by
    rw [place, place, hs.mem]
  refine ⟨⟨⟨hv.cell.aligned, hv.cell.page.imp_right hs.heap_iff.2⟩, ?_⟩, ?_⟩
  · obtain ⟨a, ha, hopen⟩ := hv.reach
    refine ⟨a, hplace.trans ha, hopen.imp_right ?_⟩
    rintro ⟨f, hf, hin⟩
    exact ⟨f, hf.sameTables hs, hin⟩
  · unfold Sees
    rw [hs.mem]
    exact hv.sees

theorem SameTables.word (hs : SameTables s s') : word s' dir sp v = word s dir sp v := by
  have hcell : Cell s' sp v ↔ Cell s sp v :=
    ⟨fun hc => ⟨hc.aligned, hc.page.imp_right hs.heap_iff.1⟩, fun hc => ⟨hc.aligned, hc.page.imp_right hs.heap_iff.2⟩⟩
  rw [HoloOS.word, HoloOS.word, place, place, hs.mem]
  by_cases hc : Cell s sp v
  · rw [if_pos hc, if_pos (hcell.2 hc)]
  · rw [if_neg hc, if_neg fun hc' => hc (hcell.1 hc')]

theorem SameTables.spaces (hs : SameTables s s') (h : Spaces s dir) (ht : Tables s' dir) : Spaces s' dir :=
  { ht with low := fun n hle hlt => by rw [hs.mem]; exact h.low n hle hlt }

theorem Low.mapped (h : Spaces s dir) (hv : Low v) :
    Paging.mapped s.mem (dir .kernel) (vpage v) = some ((vpage v - 0xc0000) * 4096) := by
  unfold Low at hv
  rw [h.dir_kernel]
  exact h.low _ (by unfold vpage; omega) (by unfold vpage; omega)

/-- A translation that stays. -/
theorem place_kept (h : Spaces s dir) (h' : Spaces s' dir) (hv : Solid s dir sp v)
    (hframe : ∀ f, (home sp v).Heap s (vpage v) → mapped s.mem (dir (home sp v)) (vpage v) = some f →
      mapped s'.mem (dir (home sp v)) (vpage v) = some f) : place s' dir sp v = place s dir sp v := by
  obtain ⟨a, ha, -⟩ := hv.reach
  obtain ⟨f, hf, rfl⟩ := place_eq_some.1 ha
  rw [ha, place_eq_some]
  refine ⟨f, ?_, rfl⟩
  rcases hv.cell.page with hlow | hheap
  · rw [← hf, home_high hlow.1, hlow.mapped h, hlow.mapped h']
  · exact hframe f hheap hf

/-- `mallocPage` keeps all words. -/
theorem Malloced.words (hm : Malloced s s' dir v n done) (h : Spaces s dir) (h' : Tables s' dir)
    (hkept : ∀ b, Kept s dir b → s'.mem b = s.mem b) :
    Spaces s' dir ∧ KeepsWords s s' dir fun _ _ => True := by
  have hspaces : Spaces s' dir := { h' with low := h.low.kept h.toTables h' hkept }
  refine ⟨hspaces, fun sp u _ hsp hu => hu.keeps h ?_ ?_ ?_ ?_ hkept⟩
  · exact ⟨hu.cell.aligned, hu.cell.page.imp_right (hm.valid (.page (home sp u) (vpage u))).2⟩
  · exact place_kept h hspaces hu.toSolid fun f hheap hf => hm.keeps (o := .page (home sp u) (vpage u)) hheap hf
  · intro a ha
    obtain ⟨a', ha', hopen⟩ := hu.reach
    obtain rfl : a = a' := Option.some.inj (ha.symm.trans ha')
    obtain ⟨s₁, hr, hg⟩ := hm.reserved
    exact hopen.imp_right fun ⟨f, hf, hin⟩ => ⟨f, (hf.sameTables hr.marks.same).grew hg, hin⟩
  · obtain ⟨T, hT⟩ := hu.entry
    obtain ⟨s₁, hr, hg⟩ := hm.reserved
    have hdirs : ∀ sp' : Space, sp'.Exists s → entry s.mem (dir sp') (vpage u / 1024) = some T →
        entry s'.mem (dir sp') (vpage u / 1024) = some T := by
      intro sp' hsp' he
      rw [← hr.marks.same.mem] at he
      exact hg.dirs sp' _ T (hr.marks.same.exists_iff.2 hsp') (region_lt u) he
    have hsees : entry s.mem (dir sp) (vpage u / 1024) = some T := hu.sees.trans hT
    exact (hdirs sp hsp hsees).trans (hdirs _ (home_exists hsp u) hT).symm

/-- `mfreePage` keeps the words of the other pages. -/
theorem Shrank.words (hs : Shrank s s₁ dir lo (lo + n)) (hm : Marks s₁ s' false lo n) (h : Spaces s dir)
    (h' : Tables s' dir) (hkept : ∀ b, Kept s dir b → s'.mem b = s.mem b) :
    Spaces s' dir ∧ KeepsWords s s' dir fun sp u => ¬(home sp u = s.space ∧ lo ≤ vpage u ∧ vpage u < lo + n) := by
  have hspaces : Spaces s' dir := { h' with low := h.low.kept h.toTables h' hkept }
  have hframe : ∀ sp n' f, ¬(sp = s.space ∧ lo ≤ n' ∧ n' < lo + n) → Space.Heap s sp n' →
      mapped s.mem (dir sp) n' = some f → mapped s'.mem (dir sp) n' = some f := by
    intro sp n' f hno hheap hf
    rw [hm.same.mem]
    refine (hs.others (.page sp n') hheap fun k hk hk' he => hno ?_).trans hf
    obtain ⟨hsp, rfl⟩ := Owner.page.inj he
    exact ⟨hsp, hk, hk'⟩
  refine ⟨hspaces, fun sp u hno hsp hu => hu.keeps h ?_ ?_ ?_ ?_ hkept⟩
  · refine ⟨hu.cell.aligned, hu.cell.page.imp_right fun hheap => ?_⟩
    exact hm.same.heap_iff.2 ((hs.valid (.page (home sp u) (vpage u))).2 hheap)
  · exact place_kept h hspaces hu.toSolid fun f hheap hf => hframe _ _ f hno hheap hf
  · intro a ha
    obtain ⟨a', ha', hopen⟩ := hu.reach
    obtain rfl : a = a' := Option.some.inj (ha.symm.trans ha')
    rcases h.place_cases h.low hu.cell ha with ⟨hlow, hplace⟩ | ⟨f, hheap, hf, hplace, hmod, hge⟩
    · left
      unfold Low at hlow
      omega
    · have hdata : DataFrame s dir f := by
        rcases hopen with hlow | ⟨g, hg, hle, hlt⟩
        · omega
        · have := (h.dataFrame_mod hg).1
          obtain rfl : g = f := by omega
          exact hg
      have hheap' : (home sp u).Heap s' (vpage u) :=
        hm.same.heap_iff.2 ((hs.valid (.page (home sp u) (vpage u))).2 hheap)
      refine .inr ⟨f, ⟨⟨home sp u, vpage u, hheap', hframe _ _ f hno hheap hf⟩, fun t ht => hdata.keep t ?_⟩,
        by omega, by omega⟩
      have ht' := (hm.same.isProcess t).1 ht
      unfold Memory.IsProcess at ht' ⊢
      rw [← hs.task.1]
      exact ht'
  · unfold Sees
    rw [hm.same.mem, hs.dirs sp _ hsp (region_lt u), hs.dirs _ _ (home_exists hsp u) (region_lt u)]
    exact hu.sees

end HoloOS
