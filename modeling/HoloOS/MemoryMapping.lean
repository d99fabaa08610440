import HoloOS.MemoryBoot

/-! What the recursive window gives for a whole directory: `pdePtr`, `ptePtr` and `v2p` agree with the walk of
the MMU, and `pageTableAdd` maps its page and changes the translation of no page whose walk reads none of
the words it writes. The directory of the loader has one page table under two entries. -/

namespace HoloOS

open Function Paging

variable {s : Memory} {d : Nat} {vaddr p : Word}

/-- The words that the walk of a page reads: its directory entry and, where there is a page table, its entry
there. -/
def walkWords (m : Mem) (d page : Nat) : List Nat :=
  (d + 4 * (page / 1024)) ::
    ((entry m d (page / 1024)).map fun table => table + 4 * (page % 1024)).toList

/-- The word by which mapping a page begins to change translations: its entry in the page table or, where
there is no page table, its directory entry. -/
def changedWord (m : Mem) (d page : Nat) : Nat :=
  ((entry m d (page / 1024)).map fun table => table + 4 * (page % 1024)).getD (d + 4 * (page / 1024))

theorem mem_walkWords {m : Mem} {page a : Nat} : a ∈ walkWords m d page ↔
    a = d + 4 * (page / 1024) ∨
      ∃ table, entry m d (page / 1024) = some table ∧ a = table + 4 * (page % 1024) := by
  rw [walkWords, List.mem_cons, Option.mem_toList, Option.map_eq_some_iff]
  apply or_congr Iff.rfl
  constructor
  · intro h
    obtain ⟨table, htable, he⟩ := h
    exact ⟨table, htable, he.symm⟩
  · intro h
    obtain ⟨table, htable, he⟩ := h
    exact ⟨table, htable, he.symm⟩

theorem changedWord_table {m : Mem} {page table : Nat} (h : entry m d (page / 1024) = some table) :
    changedWord m d page = table + 4 * (page % 1024) := by
  rw [changedWord, h]
  rfl

theorem changedWord_none {m : Mem} {page : Nat} (h : entry m d (page / 1024) = none) :
    changedWord m d page = d + 4 * (page / 1024) := by
  rw [changedWord, h]
  rfl

/-- Entries lie at multiples of 4. -/
theorem walkWords_aligned {m : Mem} {page a : Nat} (hd : d % 4096 = 0) (ha : a ∈ walkWords m d page) :
    a % 4 = 0 := by
  rcases mem_walkWords.1 ha with he | ⟨table, htable, he⟩
  · omega
  · have hmod := entry_mod htable
    omega

/-- Memories that agree on the words of the walk translate the page alike. -/
theorem mapped_congr {m m' : Mem} {page : Nat} (h : ∀ a ∈ walkWords m d page, read m' a = read m a) :
    mapped m' d page = mapped m d page := by
  have hdir : entry m' d (page / 1024) = entry m d (page / 1024) := by
    rw [entry, entry, h _ (mem_walkWords.2 (Or.inl rfl))]
  rw [mapped, mapped, hdir]
  cases htable : entry m d (page / 1024) with
  | none => rfl
  | some table =>
      have hword := h _ (mem_walkWords.2 (Or.inr ⟨table, htable, rfl⟩))
      rw [Option.bind_some, Option.bind_some, entry, entry, hword]

/-- The frame for a page table is neither the directory nor a page table of it. -/
def FreshFrame (s : Memory) (d : Nat) : Prop :=
  ∃ f memPool, palloc s.kernelPool = (some f, memPool) ∧ f.toNat % 4096 = 0 ∧ f.toNat ≠ d ∧
    ∀ i < 1024, entry s.mem d i ≠ some f.toNat

/-- The page of the address is mapped to the frame, and no page whose walk avoids the changed word is
translated differently. -/
structure MapsPage (s s' : Memory) (d : Nat) (vaddr p : Word) : Prop where
  window : Windowed s' d
  page : mapped s'.mem d (vpage vaddr) = some p.toNat
  sameTable : ∀ page, page ≠ vpage vaddr → page / 1024 = vpage vaddr / 1024 →
    mapped s'.mem d page = mapped s.mem d page
  others : ∀ page < 2 ^ 20, changedWord s.mem d (vpage vaddr) ∉ walkWords s.mem d page →
    mapped s'.mem d page = mapped s.mem d page

/-- Where there is a page table. -/
theorem Windowed.mapsPage_table (h : Windowed s d) {table : Nat} (hp : p.toNat % 4096 = 0)
    (htable : entry s.mem d (vpage vaddr / 1024) = some table)
    (hfree : entry s.mem table (vpage vaddr % 1024) = none) :
    MapsPage s { s with mem := write s.mem (table + 4 * (vpage vaddr % 1024)) (p ||| 7#32) } d vaddr p := by
  have hd := h.aligned
  have hmod := entry_mod htable
  have hlt := region_lt vaddr
  have hidx : vpage vaddr % 1024 < 1024 := Nat.mod_lt _ (by omega)
  set i := vpage vaddr / 1024 with hi
  set j := vpage vaddr % 1024 with hj
  set m' := write s.mem (table + 4 * j) (p ||| 7#32) with hm'
  -- an entry of the directory that is present is not the one that is free
  have hdir : ∀ k < 1024, ∀ f, entry s.mem d k = some f → entry m' d k = some f := by
    intro k hk f hf
    rw [hm', entry_write_of_ne _ hd hmod hk hidx, hf]
    by_cases hbase : d = table
    · refine Or.inr fun he => ?_
      rw [← hbase, ← he, hf] at hfree
      cases hfree
    · exact Or.inl hbase
  have hwords : ∀ page, table + 4 * j ∉ walkWords s.mem d page → mapped m' d page = mapped s.mem d page := by
    intro page hout
    apply mapped_congr
    intro a ha
    have haligned := walkWords_aligned hd ha
    have hne : a ≠ table + 4 * j := fun he => hout (he ▸ ha)
    exact read_write_apart s.mem _ (by omega)
  refine ⟨⟨h.cr3, hd, hdir 1023 (by omega) d h.self⟩, ?_, fun page hne hsame => ?_, fun page _ hout => ?_⟩
  · rw [mapped_eq_some]
    exact ⟨table, hdir i hlt table htable, entry_write_self p hp⟩
  · apply hwords
    intro hmem
    rcases mem_walkWords.1 hmem with he | ⟨table', htable', he⟩
    · have hbase : table = d := by omega
      have hij : j = i := by omega
      rw [hbase, hij, htable] at hfree
      cases hfree
    · rw [hsame, htable] at htable'
      cases htable'
      omega
  · rw [changedWord_table htable] at hout
    exact hwords page hout

/-- Where the page table is made. -/
theorem Windowed.mapsPage_new (h : Windowed s d) {f : Word} {memPool : Pool} (hp : p.toNat % 4096 = 0)
    (hnone : entry s.mem d (vpage vaddr / 1024) = none) (hregion : vpage vaddr / 1024 ≠ 1023)
    (hf₀ : f.toNat % 4096 = 0) (hne : f.toNat ≠ d) (hfresh : ∀ i < 1024, entry s.mem d i ≠ some f.toNat) :
    MapsPage s { s with
      kernelPool := memPool
      mem := withTable s.mem d f.toNat (vpage vaddr) (f ||| 7#32) (p ||| 7#32) } d vaddr p := by
  have hd := h.aligned
  have hlt := region_lt vaddr
  have hidx : vpage vaddr % 1024 < 1024 := Nat.mod_lt _ (by omega)
  set i := vpage vaddr / 1024 with hi
  set j := vpage vaddr % 1024 with hj
  set m₁ := write s.mem (d + 4 * i) (f ||| 7#32) with hm₁
  set m₂ := fill m₁ f.toNat 4096 0 with hm₂
  set m' := write m₂ (f.toNat + 4 * j) (p ||| 7#32) with hm'
  have hmem : withTable s.mem d f.toNat (vpage vaddr) (f ||| 7#32) (p ||| 7#32) = m' := rfl
  rw [hmem]
  have hdir : ∀ k < 1024, entry m' d k = entry m₁ d k := by
    intro k hk
    rw [hm', entry_write_of_ne _ hd hf₀ hk hidx (Or.inl (Ne.symm hne)), hm₂,
      entry_fill_of_ne hd hf₀ hk (Ne.symm hne)]
  have hnew : entry m' d i = some f.toNat := (hdir i hlt).trans (entry_write_self f hf₀)
  have hself : entry m' d 1023 = some d := by
    rw [hdir 1023 (by omega), hm₁, entry_write_of_ne _ hd hd (by omega) hlt (Or.inr (Ne.symm hregion))]
    exact h.self
  have hread : ∀ a, a % 4 = 0 → a ≠ d + 4 * i → a + 4 ≤ f.toNat ∨ f.toNat + 4096 ≤ a →
      read m' a = read s.mem a := by
    intro a ha hword hout
    rw [hm', read_write_apart _ _ (by omega), hm₂, read_fill_apart _ _ (by omega), hm₁,
      read_write_apart _ _ (by omega)]
  refine ⟨⟨h.cr3, hd, hself⟩, ?_, fun page hpage hsame => ?_, fun page hpage hout => ?_⟩
  · rw [mapped_eq_some]
    exact ⟨f.toNat, hnew, entry_write_self p hp⟩
  · have hzero : entry m' f.toNat (page % 1024) = none := by
      rw [hm', entry_write_of_ne _ hf₀ hf₀ (Nat.mod_lt _ (by omega)) hidx (Or.inr (by omega))]
      exact entry_fill_self (Nat.mod_lt _ (by omega))
    change mapped m' d page = mapped s.mem d page
    rw [mapped, mapped, hsame, hnew, hnone, Option.bind_some, hzero]
    rfl
  · rw [changedWord_none hnone] at hout
    apply mapped_congr
    intro a ha
    have haligned := walkWords_aligned hd ha
    have hword : a ≠ d + 4 * i := fun he => hout (he ▸ ha)
    apply hread a haligned hword
    rcases mem_walkWords.1 ha with he | ⟨table, htable, he⟩
    · omega
    · have htable₀ := entry_mod htable
      have hother : table ≠ f.toNat := by
        intro hbase
        exact hfresh (page / 1024) (by omega) (hbase ▸ htable)
      omega

/-- `pageTableAdd` on a page that is not mapped. -/
theorem Windowed.pageTableAdd_maps (h : Windowed s d) (hp : p.toNat % 4096 = 0)
    (hregion : vpage vaddr / 1024 ≠ 1023) (hfree : mapped s.mem d (vpage vaddr) = none)
    (hfresh : entry s.mem d (vpage vaddr / 1024) = none → FreshFrame s d) :
    ∃ s', pageTableAdd vaddr p s = .ok s' ∧ MapsPage s s' d vaddr p := by
  cases htable : entry s.mem d (vpage vaddr / 1024) with
  | none =>
      obtain ⟨f, memPool, hpalloc, hf₀, hne, hout⟩ := hfresh htable
      exact ⟨_, pageTableAdd_new h p htable hregion hpalloc rfl hf₀ hne,
        h.mapsPage_new hp htable hregion hf₀ hne hout⟩
  | some table =>
      rw [mapped, htable, Option.bind_some] at hfree
      exact ⟨_, pageTableAdd_table h p htable hfree, h.mapsPage_table hp htable hfree⟩

/-- No two entries of the directory point to one page. -/
def Unshared (m : Mem) (d : Nat) : Prop :=
  ∀ i < 1024, ∀ j < 1024, ∀ table, entry m d i = some table → entry m d j = some table → i = j

/-- In a directory without shared tables only the page itself reads the changed word. -/
theorem Unshared.notMem (hunshared : Unshared s.mem d) (h : Windowed s d)
    (hregion : vpage vaddr / 1024 ≠ 1023) {page : Nat} (hlt : page < 2 ^ 20)
    (hdiff : page / 1024 ≠ vpage vaddr / 1024) (hwindow : page / 1024 ≠ 1023) :
    changedWord s.mem d (vpage vaddr) ∉ walkWords s.mem d page := by
  have hd := h.aligned
  have hself := h.self
  have hvlt := region_lt vaddr
  intro hmem
  cases htable : entry s.mem d (vpage vaddr / 1024) with
  | none =>
      rw [changedWord_none htable] at hmem
      rcases mem_walkWords.1 hmem with he | ⟨table', htable', he⟩
      · omega
      · have hmod := entry_mod htable'
        have hbase : table' = d := by omega
        exact hwindow (hunshared _ (by omega) 1023 (by omega) d (hbase ▸ htable') hself)
  | some table =>
      have hmod := entry_mod htable
      rw [changedWord_table htable] at hmem
      rcases mem_walkWords.1 hmem with he | ⟨table', htable', he⟩
      · have hbase : table = d := by omega
        exact hregion (hunshared _ hvlt 1023 (by omega) d (hbase ▸ htable) hself)
      · have hmod' := entry_mod htable'
        have hbase : table' = table := by omega
        exact hdiff (hunshared _ (by omega) _ hvlt table (hbase ▸ htable') htable)

theorem vpage_page_add (vaddr : Word) {o : Nat} (ho : o < 4096) :
    vpage ((vaddr &&& 0xfffff000#32) + BitVec.ofNat 32 o) = vpage vaddr ∧
      ((vaddr &&& 0xfffff000#32) + BitVec.ofNat 32 o).toNat % 4096 = o := by
  have hlt := vaddr.isLt
  have hsum : ((vaddr &&& 0xfffff000#32) + BitVec.ofNat 32 o).toNat = vaddr.toNat / 4096 * 4096 + o := by
    rw [BitVec.toNat_add, and_page, BitVec.toNat_ofNat]
    omega
  rw [vpage, vpage, hsum]
  omega

theorem MapsPage.v2p {s' : Memory} (h : MapsPage s s' d vaddr p) (hp : p.toNat % 4096 = 0) {o : Nat}
    (ho : o < 4096) :
    HoloOS.v2p ((vaddr &&& 0xfffff000#32) + BitVec.ofNat 32 o) s' = .ok (p + BitVec.ofNat 32 o) := by
  have hlt := p.isLt
  obtain ⟨hpage, hoffset⟩ := vpage_page_add vaddr ho
  have hmapped : mapped s'.mem d (vpage ((vaddr &&& 0xfffff000#32) + BitVec.ofNat 32 o)) = some p.toNat := by
    rw [hpage]
    exact h.page
  obtain ⟨w, hw, hval⟩ := v2p_eq h.window hmapped
  rw [hw, hoffset] at *
  congr 1
  apply BitVec.eq_of_toNat_eq
  rw [hval, BitVec.toNat_add, BitVec.toNat_ofNat]
  omega

/-- What the code relies on of a directory with a recursive entry, for one address and one frame. -/
structure RecursiveWindow (s : Memory) (d : Nat) (vaddr p : Word) : Prop where
  pde : s.walk (pdePtr vaddr) = some (d + 4 * (pdeIdx vaddr).toNat)
  pte : ∀ table, entry s.mem d (pdeIdx vaddr).toNat = some table →
    s.walk (ptePtr vaddr) = some (table + 4 * (pteIdx vaddr).toNat)
  v2p : ∀ a, s.walk vaddr = some a → ∃ w, HoloOS.v2p vaddr s = .ok w ∧ w.toNat = a
  add : s.walk vaddr = none → (entry s.mem d (pdeIdx vaddr).toNat = none → FreshFrame s d) →
    ∃ s', pageTableAdd vaddr p s = .ok s' ∧
      (∀ o < 4096, HoloOS.v2p ((vaddr &&& 0xfffff000#32) + BitVec.ofNat 32 o) s' = .ok (p + BitVec.ofNat 32 o)) ∧
      (∀ other, vpage other ≠ vpage vaddr → pdeIdx other ≠ 1023 →
        pdeIdx other = pdeIdx vaddr ∨ changedWord s.mem d (vpage vaddr) ∉ walkWords s.mem d (vpage other) →
        s'.walk other = s.walk other) ∧
      (Unshared s.mem d → ∀ other, vpage other ≠ vpage vaddr → pdeIdx other ≠ 1023 →
        s'.walk other = s.walk other)

theorem pdeIdx_ne_last (hregion : pdeIdx vaddr ≠ 1023) : vpage vaddr / 1024 ≠ 1023 := by
  intro he
  rw [← pdeIdx_toNat] at he
  exact hregion (BitVec.eq_of_toNat_eq he)

/-- Any directory whose last entry points to itself. -/
theorem recursive_window (h : Windowed s d) (hregion : pdeIdx vaddr ≠ 1023) (hp : p.toNat % 4096 = 0) :
    RecursiveWindow s d vaddr p := by
  have hr := pdeIdx_ne_last hregion
  have hwalk : ∀ s' : Memory, s'.cr3 = d → ∀ v, s'.walk v = (mapped s'.mem d (vpage v)).map (· + v.toNat % 4096) := by
    intro s' hcr3 v
    rw [Memory.walk, hcr3]
    rfl
  refine ⟨?_, fun table htable => ?_, fun a ha => ?_, fun hfree hfresh => ?_⟩
  · rw [pdeIdx_toNat]
    exact h.walk_pde vaddr
  · rw [pteIdx_toNat]
    rw [pdeIdx_toNat] at htable
    exact h.walk_pte htable
  · rw [hwalk s h.cr3, Option.map_eq_some_iff] at ha
    obtain ⟨b, hb, he⟩ := ha
    obtain ⟨w, hw, hval⟩ := v2p_eq h hb
    exact ⟨w, hw, hval.trans he⟩
  · rw [hwalk s h.cr3, Option.map_eq_none_iff] at hfree
    rw [pdeIdx_toNat] at hfresh
    obtain ⟨s', hadd, hmaps⟩ := h.pageTableAdd_maps hp hr hfree hfresh
    have hothers : ∀ other, vpage other ≠ vpage vaddr →
        pdeIdx other = pdeIdx vaddr ∨ changedWord s.mem d (vpage vaddr) ∉ walkWords s.mem d (vpage other) →
        s'.walk other = s.walk other := by
      intro other hne hout
      rw [hwalk s h.cr3, hwalk s' hmaps.window.cr3]
      congr 1
      rcases hout with hsame | hout
      · have hsame' := congrArg BitVec.toNat hsame
        rw [pdeIdx_toNat, pdeIdx_toNat] at hsame'
        exact hmaps.sameTable _ hne hsame'
      · exact hmaps.others _ (vpage_lt other) hout
    refine ⟨s', hadd, fun o ho => hmaps.v2p hp ho, fun other hne _ hout => hothers other hne hout, ?_⟩
    intro hunshared other hne hlast
    apply hothers other hne
    by_cases hsame : pdeIdx other = pdeIdx vaddr
    · exact Or.inl hsame
    · refine Or.inr (hunshared.notMem h hr (vpage_lt other) ?_ (pdeIdx_ne_last hlast))
      intro he
      rw [← pdeIdx_toNat, ← pdeIdx_toNat] at he
      exact hsame (BitVec.eq_of_toNat_eq he)

theorem boot_windowed (m : Mem) (memCapacity : Word) : Windowed (Memory.boot (pageSetup m) memCapacity) kernelDir :=
  ⟨rfl, rfl, (pageSetup_bootPages m).self⟩

theorem boot_fresh {m : Mem} (hm : BootPages m) (hzero : entry m kernelDir 0 = some firstTable) :
    FreshFrame (Memory.boot m 0x2000000) kernelDir := by
  have hsize : 0 < (Memory.boot m 0x2000000).kernelPool.poolBitmap.size * 8 :=
    show 0 < (kernelFreePages 0x2000000).toNat / 8 * 8 by decide
  have hstart : ((Memory.boot m 0x2000000).pool .kernel).paddrStart.toNat = 0x200000 := rfl
  cases hcall : palloc (Memory.boot m 0x2000000).kernelPool with
  | mk r memPool =>
      cases r with
      | none =>
          have hclear := bitmapTest_bitmapInit (Memory.boot m 0x2000000).kernelPool.poolBitmap hsize
          exact absurd (((palloc_none hcall).2 0 hsize).symm.trans hclear) (by decide)
      | some f =>
          obtain ⟨i, -, -, hf, -⟩ := palloc_some ((boot_tables hm 0x2000000).pool_stop .kernel) hcall
          rw [hstart] at hf
          refine ⟨f, memPool, hcall, by omega, by unfold kernelDir; omega, fun k hk he => ?_⟩
          have hlow : firstTable < 0x200000 ∧ kernelDir < 0x200000 := by decide
          by_cases h₀ : k = 0
          · rw [h₀] at he
            have := Option.some.inj (hzero.symm.trans he)
            omega
          by_cases h₁ : k = 768
          · rw [h₁] at he
            have := Option.some.inj (hm.first.symm.trans he)
            omega
          by_cases h₂ : k = 1023
          · rw [h₂] at he
            have := Option.some.inj (hm.self.symm.trans he)
            omega
          exact absurd ((hm.absent k (by omega) (by omega) h₁).symm.trans he) (Option.some_ne_none _).symm

/-- The page at 0xc0400000 lies behind an absent entry and gets a table of its own. -/
theorem recursive_window_boot : entry (pageSetup fun _ => 0) kernelDir 769 = none ∧
    (Memory.boot (pageSetup fun _ => 0) 0x2000000).walk 0xc0400000 = none ∧
    RecursiveWindow (Memory.boot (pageSetup fun _ => 0) 0x2000000) kernelDir 0xc0400000 0x300000 ∧
    ∃ s', pageTableAdd 0xc0400000 0x300000 (Memory.boot (pageSetup fun _ => 0) 0x2000000) = .ok s' ∧
      v2p 0xc0400010 s' = .ok 0x300010 := by
  have hwindow := recursive_window (p := 0x300000) (boot_windowed (fun _ => 0) 0x2000000)
    (show pdeIdx 0xc0400000 ≠ 1023 by decide) (by decide)
  have hboot := pageSetup_bootPages fun _ => 0
  have hzero := pageSetup_zero fun _ => 0
  generalize pageSetup (fun _ => 0) = m at *
  have hnone : (Memory.boot m 0x2000000).walk 0xc0400000 = none := by
    rw [Memory.walk, Option.map_eq_none_iff]
    exact boot_unmapped hboot (by decide) (by decide)
  obtain ⟨s', hadd, hv2p, -⟩ := hwindow.add hnone fun _ => boot_fresh hboot hzero
  exact ⟨hboot.absent 769 (by decide) (by decide) (by decide), hnone, hwindow, s', hadd, hv2p 0x10 (by decide)⟩

theorem walk_low (s : Memory) : s.walk 0x00100000 =
    ((entry s.mem s.cr3 0).bind fun table => entry s.mem table 256).map (· + 0) := rfl

/-- The first page of the kernel heap, at 0xc0100000, appears at 0x00100000 too. -/
theorem pageTableAdd_maps_two : Windowed (Memory.boot (pageSetup fun _ => 0) 0x2000000) kernelDir ∧ ∃ s',
    pageTableAdd 0xc0100000 0x300000 (Memory.boot (pageSetup fun _ => 0) 0x2000000) = .ok s' ∧
      (Memory.boot (pageSetup fun _ => 0) 0x2000000).walk 0xc0100000 = none ∧
      (Memory.boot (pageSetup fun _ => 0) 0x2000000).walk 0x00100000 = none ∧
      s'.walk 0x00100000 = some 0x300000 := by
  have hboot := pageSetup_bootPages fun _ => 0
  have hzero := pageSetup_zero fun _ => 0
  have hwindow := boot_windowed (fun _ => 0) 0x2000000
  generalize pageSetup (fun _ => 0) = m at *
  have hmem : (Memory.boot m 0x2000000).mem = m := rfl
  have hfree : entry m firstTable 256 = none := hboot.high _ (by decide) (by decide)
  have hmod : firstTable % 4096 = 0 := by decide
  refine ⟨hwindow, _, pageTableAdd_table hwindow 0x300000 hboot.first hfree, ?_, ?_, ?_⟩
  · rw [Memory.walk, Option.map_eq_none_iff]
    exact boot_unmapped hboot (by decide) (by decide)
  · rw [walk_low, hwindow.cr3, hmem, hzero, Option.bind_some, hfree]
    rfl
  · have hdir : entry (write m (firstTable + 4 * (vpage 0xc0100000 % 1024)) (0x300000 ||| 7#32)) kernelDir 0 =
        some firstTable := by
      rw [entry_write_of_ne _ (by decide) hmod (by decide) (by decide) (Or.inl (by decide)), hzero]
    have hpage : entry (write m (firstTable + 4 * (vpage 0xc0100000 % 1024)) (0x300000 ||| 7#32)) firstTable
        256 = some 0x300000 := entry_write_self 0x300000 (by decide)
    rw [walk_low]
    dsimp only
    rw [hwindow.cr3, hmem, hdir, Option.bind_some, hpage]
    rfl

end HoloOS
