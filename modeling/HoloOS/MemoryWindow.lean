import HoloOS.MemoryPages

/-! The window onto the page tables. When the last entry of the current directory points to the
directory itself, `pdePtr` and `ptePtr` reach the entries of every other address, and the functions
on page tables are edits of single words of physical memory. -/

namespace HoloOS

open Function Paging

@[simp] theorem ok_bind {ε α β : Type} (a : α) (f : α → Except ε β) : (Except.ok a >>= f) = f a := rfl

theorem massert_bind {α : Type} {condition : Bool} {name : Assertion} {f : Except Trap α}
    (h : condition = true) : (massert condition name >>= fun _ => f) = f := by
  rw [h]
  rfl

/-- The virtual page of an address. -/
def vpage (vaddr : Word) : Nat := vaddr.toNat / 4096

theorem vpage_lt (vaddr : Word) : vpage vaddr < 2 ^ 20 := by
  have := vaddr.isLt
  unfold vpage
  omega

theorem region_lt (vaddr : Word) : vpage vaddr / 1024 < 1024 := by
  have := vpage_lt vaddr
  omega

theorem pdeIdx_toNat (vaddr : Word) : (pdeIdx vaddr).toNat = vpage vaddr / 1024 := by
  rw [pdeIdx, BitVec.toNat_ushiftRight, and_region, Nat.shiftRight_eq_div_pow, vpage]
  omega

theorem pteIdx_toNat (vaddr : Word) : (pteIdx vaddr).toNat = vpage vaddr % 1024 := by
  have hmask : vaddr &&& 0x003ff000#32 = (vaddr &&& 0xfffff000#32) &&& 0x003fffff#32 := by
    rw [BitVec.and_assoc]
    rfl
  have hlow : ((vaddr &&& 0xfffff000#32) &&& 0x003fffff#32).toNat =
      vaddr.toNat / 4096 * 4096 % 2 ^ 22 := by
    rw [BitVec.toNat_and, and_page]
    exact Nat.and_two_pow_sub_one_eq_mod _ 22
  rw [pteIdx, hmask, BitVec.toNat_ushiftRight, hlow, Nat.shiftRight_eq_div_pow, vpage]
  omega

theorem pdePtr_toNat (vaddr : Word) : (pdePtr vaddr).toNat = 0xfffff000 + 4 * (vpage vaddr / 1024) := by
  have hidx := pdeIdx_toNat vaddr
  have hlt := region_lt vaddr
  rw [pdePtr, BitVec.toNat_add, BitVec.toNat_mul, hidx]
  simp only [BitVec.toNat_ofNat]
  omega

theorem ptePtr_toNat (vaddr : Word) : (ptePtr vaddr).toNat =
    0xffc00000 + vpage vaddr / 1024 * 4096 + 4 * (vpage vaddr % 1024) := by
  have hidx := pteIdx_toNat vaddr
  have hlt := region_lt vaddr
  have hregion : ((vaddr &&& 0xffc00000#32) >>> 10).toNat = vpage vaddr / 1024 * 4096 := by
    rw [BitVec.toNat_ushiftRight, and_region, Nat.shiftRight_eq_div_pow, vpage]
    omega
  rw [ptePtr, BitVec.toNat_add, BitVec.toNat_add, BitVec.toNat_mul, hidx, hregion]
  simp only [BitVec.toNat_ofNat]
  omega

/-- The current directory is at `d` and its last entry points to itself. -/
structure Windowed (s : Memory) (d : Nat) : Prop where
  cr3 : s.cr3 = d
  aligned : d % 4096 = 0
  self : entry s.mem d 1023 = some d

variable {s : Memory} {d : Nat} {vaddr : Word}

theorem walk_eq {a : Nat} (hpage : mapped s.mem s.cr3 (vpage vaddr) = some a) :
    s.walk vaddr = some (a + vaddr.toNat % 4096) := by
  rw [Memory.walk, show vaddr.toNat / 4096 = vpage vaddr from rfl, hpage]
  rfl

theorem phys_eq {a : Nat} (hwalk : s.walk vaddr = some a) : s.phys vaddr = .ok a := by
  rw [Memory.phys, hwalk]

theorem load_of_walk {a : Nat} (hfit : vaddr.toNat % 4096 ≤ 4092) (hwalk : s.walk vaddr = some a) :
    s.load vaddr = .ok (read s.mem a) := by
  rw [Memory.load, phys_eq hwalk]
  exact if_pos hfit

theorem store_of_walk {a : Nat} (hfit : vaddr.toNat % 4096 ≤ 4092) (hwalk : s.walk vaddr = some a)
    (w : Word) : s.store vaddr w = .ok { s with mem := write s.mem a w } := by
  rw [Memory.store, phys_eq hwalk]
  exact if_pos hfit

/-- The translation of `pdePtr`. -/
theorem Windowed.walk_pde (h : Windowed s d) (vaddr : Word) :
    s.walk (pdePtr vaddr) = some (d + 4 * (vpage vaddr / 1024)) := by
  have hptr := pdePtr_toNat vaddr
  have hlt := region_lt vaddr
  have hpage : vpage (pdePtr vaddr) = 0xfffff := by
    rw [vpage, hptr]
    omega
  have hmapped : mapped s.mem s.cr3 (vpage (pdePtr vaddr)) = some d := by
    rw [hpage, h.cr3, mapped_eq_some]
    exact ⟨d, h.self, h.self⟩
  rw [walk_eq hmapped, hptr]
  congr 1
  omega

/-- The translation of `ptePtr`, when there is a page table. -/
theorem Windowed.walk_pte (h : Windowed s d) {vaddr : Word} {table : Nat}
    (htable : entry s.mem d (vpage vaddr / 1024) = some table) :
    s.walk (ptePtr vaddr) = some (table + 4 * (vpage vaddr % 1024)) := by
  have hptr := ptePtr_toNat vaddr
  have hlt := region_lt vaddr
  have hdir : vpage (ptePtr vaddr) / 1024 = 1023 := by
    rw [vpage, hptr]
    omega
  have hidx : vpage (ptePtr vaddr) % 1024 = vpage vaddr / 1024 := by
    rw [vpage, hptr]
    omega
  have hmapped : mapped s.mem s.cr3 (vpage (ptePtr vaddr)) = some table := by
    rw [h.cr3, mapped_eq_some, hdir, hidx]
    exact ⟨d, h.self, htable⟩
  rw [walk_eq hmapped, hptr]
  congr 1
  omega

theorem pdePtr_fit (vaddr : Word) : (pdePtr vaddr).toNat % 4096 ≤ 4092 := by
  have hlt := region_lt vaddr
  rw [pdePtr_toNat]
  omega

theorem ptePtr_fit (vaddr : Word) : (ptePtr vaddr).toNat % 4096 ≤ 4092 := by
  rw [ptePtr_toNat]
  omega

theorem Windowed.load_pde (h : Windowed s d) (vaddr : Word) :
    s.load (pdePtr vaddr) = .ok (read s.mem (d + 4 * (vpage vaddr / 1024))) :=
  load_of_walk (pdePtr_fit vaddr) (h.walk_pde vaddr)

theorem Windowed.store_pde (h : Windowed s d) (vaddr w : Word) : s.store (pdePtr vaddr) w =
    .ok { s with mem := write s.mem (d + 4 * (vpage vaddr / 1024)) w } :=
  store_of_walk (pdePtr_fit vaddr) (h.walk_pde vaddr) w

theorem Windowed.load_pte (h : Windowed s d) {table : Nat}
    (htable : entry s.mem d (vpage vaddr / 1024) = some table) :
    s.load (ptePtr vaddr) = .ok (read s.mem (table + 4 * (vpage vaddr % 1024))) :=
  load_of_walk (ptePtr_fit vaddr) (h.walk_pte htable)

/-- Without a page table the access to the entry faults. -/
theorem Windowed.load_pte_none (h : Windowed s d) (hnone : entry s.mem d (vpage vaddr / 1024) = none) :
    s.load (ptePtr vaddr) = .error (.pageFault (ptePtr vaddr)) := by
  have hptr := ptePtr_toNat vaddr
  have hlt := region_lt vaddr
  have hdir : (ptePtr vaddr).toNat / 4096 / 1024 = 1023 := by omega
  have hidx : (ptePtr vaddr).toNat / 4096 % 1024 = vpage vaddr / 1024 := by omega
  have hwalk : s.walk (ptePtr vaddr) = none := by
    rw [Memory.walk, mapped, h.cr3, hdir, hidx, h.self, Option.bind_some, hnone]
    rfl
  rw [Memory.load, Memory.phys, hwalk]
  rfl

theorem Windowed.store_pte (h : Windowed s d) {table : Nat}
    (htable : entry s.mem d (vpage vaddr / 1024) = some table) (w : Word) :
    s.store (ptePtr vaddr) w =
      .ok { s with mem := write s.mem (table + 4 * (vpage vaddr % 1024)) w } :=
  store_of_walk (ptePtr_fit vaddr) (h.walk_pte htable) w

/-- `memset` over one page. -/
theorem memset_page {dst : Word} {a : Nat} (val : BitVec 8) (hdst : dst ≠ 0)
    (haligned : dst.toNat % 4096 = 0) (hwalk : s.walk dst = some a) :
    memset dst val 4096 s = .ok { s with mem := fill s.mem a 4096 val } := by
  have hphys := phys_eq hwalk
  rw [memset, massert_bind (by simpa using hdst)]
  change memsetLoop val 3 dst 4096 s = _
  rw [memsetLoop, if_neg (by decide), haligned, hphys]
  rfl

/-- The page table behind an address, cleared through the window. -/
theorem Windowed.clear_table (h : Windowed s d) {table : Nat}
    (htable : entry s.mem d (vpage vaddr / 1024) = some table) :
    memset (ptePtr vaddr &&& 0xfffff000#32) 0 4096 s =
      .ok { s with mem := fill s.mem table 4096 0 } := by
  have hlt := region_lt vaddr
  have hdst : (ptePtr vaddr &&& 0xfffff000#32).toNat = 0xffc00000 + vpage vaddr / 1024 * 4096 := by
    rw [and_page, ptePtr_toNat]
    omega
  have hmapped : mapped s.mem s.cr3 (vpage (ptePtr vaddr &&& 0xfffff000#32)) = some table := by
    have hdir : vpage (ptePtr vaddr &&& 0xfffff000#32) / 1024 = 1023 := by
      rw [vpage, hdst]
      omega
    have hidx : vpage (ptePtr vaddr &&& 0xfffff000#32) % 1024 = vpage vaddr / 1024 := by
      rw [vpage, hdst]
      omega
    rw [h.cr3, mapped_eq_some, hdir, hidx]
    exact ⟨d, h.self, htable⟩
  refine memset_page 0 ?_ (by omega) ?_
  · intro hzero
    rw [hzero] at hdst
    have hnil : (0 : Word).toNat = 0 := rfl
    omega
  · rw [walk_eq hmapped, hdst]
    congr 1
    omega

theorem present_of_entry {m : Mem} {base i f : Nat} (h : entry m base i = some f) :
    present (read m (base + 4 * i)) = true := by
  unfold entry at h
  split at h
  next hp => exact hp
  next => cases h

theorem present_of_entry_none {m : Mem} {base i : Nat} (h : entry m base i = none) :
    present (read m (base + 4 * i)) = false := by
  unfold entry at h
  split at h
  next => cases h
  next hp => simpa using hp

theorem pageOf_of_entry {m : Mem} {base i f : Nat} (h : entry m base i = some f) :
    pageOf (read m (base + 4 * i)) = f := by
  unfold entry at h
  split at h
  next => exact Option.some.inj h
  next => cases h

/-- `pageTableAdd` where there is a page table. -/
theorem pageTableAdd_table (h : Windowed s d) {table : Nat} (p : Word)
    (htable : entry s.mem d (vpage vaddr / 1024) = some table)
    (hfree : entry s.mem table (vpage vaddr % 1024) = none) :
    pageTableAdd vaddr p s =
      .ok { s with mem := write s.mem (table + 4 * (vpage vaddr % 1024)) (p ||| 7#32) } := by
  have hassert : (!present (read s.mem (table + 4 * (vpage vaddr % 1024)))) = true := by
    rw [present_of_entry_none hfree]
    rfl
  rw [pageTableAdd, h.load_pde, ok_bind, if_pos (present_of_entry htable), pure_bind]
  beta_reduce
  rw [h.load_pte htable, ok_bind, massert_bind hassert]
  exact h.store_pte htable _

/-- Memory after `pageTableAdd` has made a page table of the page at `f`. -/
def withTable (m : Mem) (d f page : Nat) (pde pte : Word) : Mem :=
  write (fill (write m (d + 4 * (page / 1024)) pde) f 4096 0) (f + 4 * (page % 1024)) pte

/-- `pageTableAdd` where there is no page table: what `palloc` returns, 0 for `NULL`, becomes one. -/
theorem pageTableAdd_new (h : Windowed s d) (p : Word) {f : Word} {memPool : Pool} {r : Option Word}
    (hnone : entry s.mem d (vpage vaddr / 1024) = none) (hregion : vpage vaddr / 1024 ≠ 1023)
    (hpalloc : palloc s.kernelPool = (r, memPool)) (hf : r.getD 0 = f) (hf₀ : f.toNat % 4096 = 0)
    (hne : f.toNat ≠ d) :
    pageTableAdd vaddr p s = .ok { s with
      kernelPool := memPool
      mem := withTable s.mem d f.toNat (vpage vaddr) (f ||| 7#32) (p ||| 7#32) } := by
  have hlt := region_lt vaddr
  have hd := h.aligned
  set i := vpage vaddr / 1024 with hi
  set m₁ := write s.mem (d + 4 * i) (f ||| 7#32) with hm₁
  set s₁ : Memory := { s with kernelPool := memPool, mem := m₁ } with hs₁
  have hentry : entry m₁ d i = some f.toNat := entry_write_self f hf₀
  have hwindow₁ : Windowed s₁ d := by
    refine ⟨h.cr3, hd, ?_⟩
    rw [hs₁, hm₁]
    exact (entry_write_of_ne _ hd hd (by omega) hlt (Or.inr (Ne.symm hregion))).trans h.self
  set m₂ := fill m₁ f.toNat 4096 0 with hm₂
  set s₂ : Memory := { s₁ with mem := m₂ } with hs₂
  have hkeep : ∀ k < 1024, entry m₂ d k = entry m₁ d k := by
    intro k hk
    exact entry_fill_of_ne hd hf₀ hk (Ne.symm hne)
  have hwindow₂ : Windowed s₂ d := ⟨h.cr3, hd, (hkeep 1023 (by omega)).trans hwindow₁.self⟩
  have htable : entry s₂.mem d i = some f.toNat := (hkeep i hlt).trans hentry
  have hclear : entry s₂.mem f.toNat (vpage vaddr % 1024) = none :=
    entry_fill_self (Nat.mod_lt _ (by omega))
  have hwindow₀ : Windowed { s with kernelPool := memPool } d := ⟨h.cr3, hd, h.self⟩
  have habsent : ¬present (read s.mem (d + 4 * i)) = true := by
    rw [present_of_entry_none hnone]
    decide
  have hassert : (!present (read s₂.mem (f.toNat + 4 * (vpage vaddr % 1024)))) = true := by
    rw [present_of_entry_none hclear]
    rfl
  have hstore : { s with kernelPool := memPool }.store (pdePtr vaddr) (r.getD 0 ||| 7#32) =
      .ok s₁ := by
    rw [hf]
    exact hwindow₀.store_pde vaddr _
  rw [pageTableAdd, h.load_pde, ok_bind, if_neg habsent, hpalloc]
  dsimp only
  rw [hstore, ok_bind, hwindow₁.clear_table hentry, ok_bind, hwindow₂.load_pte htable, ok_bind,
    massert_bind hassert]
  exact hwindow₂.store_pte htable _

/-- `v2p` of a mapped address. -/
theorem v2p_eq (h : Windowed s d) {a : Nat} (hmapped : mapped s.mem d (vpage vaddr) = some a) :
    ∃ p, v2p vaddr s = .ok p ∧ p.toNat = a + vaddr.toNat % 4096 := by
  obtain ⟨table, htable, hentry⟩ := mapped_eq_some.1 hmapped
  refine ⟨_, by rw [v2p, h.load_pte htable]; rfl, ?_⟩
  have hpage := pageOf_of_entry hentry
  have hmod := entry_mod hentry
  have hlt := entry_lt hentry
  unfold pageOf at hpage
  rw [BitVec.toNat_add, hpage, and_offset]
  omega

theorem present_and_not_one (e : Word) : present (e &&& ~~~1#32) = false := by
  rw [present, BitVec.and_assoc]
  simp

/-- `pageTablePteRemove` where there is a page table. -/
theorem pageTablePteRemove_eq (h : Windowed s d) {table : Nat}
    (htable : entry s.mem d (vpage vaddr / 1024) = some table) :
    ∃ w, present w = false ∧ pageTablePteRemove vaddr s =
      .ok ({ s with mem := write s.mem (table + 4 * (vpage vaddr % 1024)) w }.invlpg s.cur) := by
  refine ⟨_, present_and_not_one (read s.mem (table + 4 * (vpage vaddr % 1024))), ?_⟩
  rw [pageTablePteRemove, h.load_pte htable]
  change s.store (ptePtr vaddr) _ >>= _ = _
  rw [h.store_pte htable]
  rfl

end HoloOS
