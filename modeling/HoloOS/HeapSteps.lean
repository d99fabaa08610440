import HoloOS.HeapRegions

/-! The parts of `sysMalloc` and `sysFree` that work on descriptors, free lists and headers. Each runs without a
fault or a failing `ASSERT` on the words of a heap and makes the move it is for. -/

namespace HoloOS

open Function Paging

variable {s s' : Memory} {dir : Space → Nat} {sp : Space} {D a x v p size : Word} {c : Fin 7} {W W' : Word → Word}
  {cnt : Word → Nat} {b : Alloc} {H : Arenas} {rest : List Word} {pf : PoolFlags}

/-- The threads of a space can write the words of its heap. -/
def Mounted (s : Memory) (dir : Space → Nat) (sp : Space) (D : Word) (H : Arenas) : Prop :=
  D.toNat % 4 = 0 ∧ ∀ v, Zone D H v → v.toNat % 4 = 0 → Access s dir sp v

theorem Placed.node_aligned (hp : Placed D H) (hD : D.toNat % 4 = 0) (hx : HeapNode D H.pages x) :
    x.toNat % 4 = 0 ∧ (x + 4).toNat % 4 = 0 := by
  obtain ⟨hnext, ⟨c, hx⟩ | ⟨c, a, ha, hin⟩⟩ := hp.node_toNat hx
  · omega
  · have hmod := hin.mod
    omega

theorem Mounted.node (hm : Mounted s dir s.space D H) (hp : Placed D H) (hx : HeapNode D H.pages x) :
    NodeWritable s dir x := by
  obtain ⟨h₀, h₁⟩ := hp.node_aligned hm.1 hx
  obtain ⟨hz₀, hz₁⟩ := hp.zone_node hx
  exact ⟨hm.2 x hz₀ h₀, hm.2 _ hz₁ h₁⟩

theorem Mounted.desc (hm : Mounted s dir sp D H) (hp : Placed D H) (c : Fin 7) :
    Access s dir sp (descAt D c) ∧ Access s dir sp (descAt D c + 4) := by
  have hfit := hp.fit
  have hdesc := descAt_toNat hp.fit c
  have hc := c.isLt
  have hD := hm.1
  unfold DescsFit at hfit
  have hnext := next_toNat (v := descAt D c) (by omega)
  exact ⟨hm.2 _ (hp.zone_desc ⟨c, .inl rfl⟩) (by omega), hm.2 _ (hp.zone_desc ⟨c, .inr rfl⟩) (by omega)⟩

/-- The words of a header. -/
structure HeaderAccess (s : Memory) (dir : Space → Nat) (sp : Space) (a : Word) : Prop where
  desc : Access s dir sp a
  cnt : Access s dir sp (a + 4)
  large : Access s dir sp (a + 8)

theorem Mounted.header (hm : Mounted s dir sp D H) (ha : PageAligned a) (hpage : vpage a ∈ H.allPages) :
    HeaderAccess s dir sp a := by
  obtain ⟨hfour, height⟩ := header_toNat ha
  obtain ⟨hpage₄, hpage₈⟩ := vpage_header ha
  unfold PageAligned at ha
  refine ⟨hm.2 a (.inr hpage) (by omega), hm.2 _ (.inr ?_) (by omega), hm.2 _ (.inr ?_) (by omega)⟩
  · rw [hpage₄]
    exact hpage
  · rw [hpage₈]
    exact hpage

theorem mem_allPages_arena (ha : a ∈ H.pages c) : vpage a ∈ H.allPages := mem_allPages.2 (.inl ⟨c, a, ha, rfl⟩)

theorem ofNat_le_ofNat {m n : Nat} (hm : m < 2 ^ 32) (hn : n < 2 ^ 32) :
    BitVec.ofNat 32 m ≤ BitVec.ofNat 32 n ↔ m ≤ n := by
  rw [BitVec.le_def, BitVec.toNat_ofNat, BitVec.toNat_ofNat, Nat.mod_eq_of_lt hm, Nat.mod_eq_of_lt hn]

theorem descAt_succ (D : Word) (k : Nat) : D + BitVec.ofNat 32 (24 * k) + 24 = D + BitVec.ofNat 32 (24 * (k + 1)) :=
    by
  rw [BitVec.add_assoc]
  congr 1
  apply BitVec.eq_of_toNat_eq
  rw [BitVec.toNat_add, BitVec.toNat_ofNat, BitVec.toNat_ofNat]
  have hword : (24 : Word).toNat = 24 := rfl
  omega

theorem ofNat_succ_sub (n : Nat) : BitVec.ofNat 32 (n + 1) - 1 = BitVec.ofNat 32 n := by
  rw [BitVec.ofNat_add]
  exact BitVec.add_sub_cancel _ _

theorem toNat_blockSize (c : Fin 7) : (BitVec.ofNat 32 (blockSize c)).toNat = blockSize c := by
  have := blockSize_le c
  rw [BitVec.toNat_ofNat, Nat.mod_eq_of_lt (by omega)]

/-- The words of a block. -/
theorem Placed.block_zone (hp : Placed D H) (ha : a ∈ H.pages c) (hb : p ∈ blocks c a)
    (hv : p.toNat ≤ v.toNat ∧ v.toNat < p.toNat + blockSize c) :
    vpage v ∈ H.allPages ∧ 12 ≤ v.toNat % 4096 := by
  have hin := hp.inArena ha hb
  have hpage := hin.page
  have hlow := hin.low
  have hhigh := hin.high
  have he : vpage v = vpage a := by
    unfold vpage
    omega
  exact ⟨he ▸ mem_allPages_arena ha, by omega⟩

section Steps

variable (h : Spaces s dir) (hw : Wrote s s' dir W) (hm : Mounted s dir s.space D H) (hp : Placed D H)
  (hr : HeapRepr W D H cnt)
include h hw hm hp hr

/-- The loop over the descriptors ends at the class of the size. -/
theorem Wrote.findDesc (hc : InClass size c) (d k : Nat) (hk : k + d = c.val) :
    HoloOS.findDesc size (7 - k) (D + BitVec.ofNat 32 (24 * k)) s' = .ok (descAt D c) := by
  induction d generalizing k with
  | zero =>
      obtain rfl : k = c.val := by omega
      obtain ⟨n, hn⟩ : ∃ n, 7 - c.val = n + 1 := ⟨6 - c.val, by have := c.isLt; omega⟩
      have hload : s'.load (D + BitVec.ofNat 32 (24 * c.val)) = .ok (BitVec.ofNat 32 (blockSize c)) :=
        (hw.load h (hm.desc hp c).1).trans (congrArg _ (hr.sizes c).1)
      have hle : size ≤ BitVec.ofNat 32 (blockSize c) := by
        have := blockSize_le c
        rw [BitVec.le_def, BitVec.toNat_ofNat, Nat.mod_eq_of_lt (by omega)]
        exact hc.1
      rw [hn, HoloOS.findDesc, hload, ok_bind, if_pos hle]
      rfl
  | succ d ih =>
      have hlt := c.isLt
      obtain ⟨n, hn⟩ : ∃ n, 7 - k = n + 1 := ⟨6 - k, by omega⟩
      have hn' : n = 7 - (k + 1) := by omega
      have hload : s'.load (D + BitVec.ofNat 32 (24 * k)) = .ok (BitVec.ofNat 32 (blockSize ⟨k, by omega⟩)) :=
        (hw.load h (hm.desc hp ⟨k, by omega⟩).1).trans (congrArg _ (hr.sizes ⟨k, by omega⟩).1)
      have hgt : ¬size ≤ BitVec.ofNat 32 (blockSize ⟨k, by omega⟩) := by
        have hbound := blockSize_le ⟨k, by omega⟩
        have hless := hc.2 ⟨k, by omega⟩ (Fin.lt_def.2 (show k < c.val by omega))
        rw [BitVec.le_def, BitVec.toNat_ofNat, Nat.mod_eq_of_lt (by omega)]
        omega
      rw [hn, HoloOS.findDesc, hload, ok_bind, if_neg hgt, descAt_succ, hn']
      exact ih (k + 1) (by omega)

omit h hw in
/-- The functions on the free list of a descriptor. -/
theorem Mounted.nodes : (∀ x, Nodes (freeLists D) H.free x → HeapNode D H.pages x) ∧
    ∀ x, HeapNode D H.pages x → NodeWritable s dir x :=
  ⟨hr.nodes, fun _ hx => hm.node hp hx⟩

/-- `arena2block`. -/
theorem Wrote.arena2block (ha : a ∈ H.pages c) (i : Nat) :
    HoloOS.arena2block a (BitVec.ofNat 32 i) s' = .ok (blockAt a c i) := by
  have hheader := hm.header (hp.aligned c a ha) (mem_allPages_arena ha)
  rw [HoloOS.arena2block, hw.load h hheader.desc, ok_bind, (hr.arenas c a ha).desc,
    hw.load h (hm.desc hp c).1, ok_bind, (hr.sizes c).1, ← BitVec.ofNat_mul]
  rfl

omit hp in
/-- The first free block is cleared, and the header counts one less. -/
theorem Wrote.takeBlock (pf : PoolFlags) (hwf : HeapWf D H) (hc : InClass size c) (hfree : H.free c = p :: rest)
    (ha : a ∈ H.pages c)
    (hblock : p ∈ blocks c a) {n : Nat} (hcnt : cnt a = n + 1) :
    ∃ s'' W'', Wrote s s'' dir W'' ∧
      HoloOS.takeBlock pf (descAt D c) s' = (lockRelease pf s'' >>= fun s => pure (some p, s)) ∧
      HeapRepr W'' D (H.take c ⟨p, size⟩) (update cnt a n) ∧
      (∀ v, p.toNat ≤ v.toNat ∧ v.toNat < p.toNat + blockSize c → W'' v = 0) ∧
      ∀ v, ¬Managed D H v → W'' v = W v := by
  obtain ⟨hnodes, hacc⟩ := hm.nodes hwf.toPlaced hr
  have hin := hwf.inArena ha hblock
  have hlow := hin.low
  have hhigh := hin.high
  have hmod := hin.mod
  have hpos := blockSize_pos c
  have hsize := blockSize_mod c
  have hheader := hm.header (hwf.aligned c a ha) (mem_allPages_arena ha)
  obtain ⟨s₁, W₁, hpop, hw₁, hlists, hframe⟩ := hw.pop h hr.lists hwf.spaced hnodes hacc hfree
  have hdescw := hm.desc hwf.toPlaced c
  have hsame : ∀ v, HeaderWord H v → W₁ v = W v :=
    fun v hv => hframe v fun x hx => hwf.node_ne_header (hnodes x ⟨c, hx⟩) hv
  have hload : s₁.load (descAt D c) = .ok (BitVec.ofNat 32 (blockSize c)) := by
    rw [hw₁.load h hdescw.1, hframe _ fun x hx => hwf.node_ne_desc (hnodes x ⟨c, hx⟩) ⟨c, .inl rfl⟩, (hr.sizes c).1]
  have hne : p ≠ 0 := by
    rintro rfl
    exact absurd hlow (by decide)
  obtain ⟨s₂, hmemset, hw₂⟩ := hw₁.memset h (hacc p (.inr ⟨c, a, ha, hblock⟩)).prev hne (by omega) (by omega) hhigh
  have hcount : s₂.load (a + 4) = .ok (BitVec.ofNat 32 (n + 1)) := by
    obtain ⟨-, hword, -⟩ := hwf.header_arena ha
    have hout : ¬(p.toNat ≤ (a + 4).toNat ∧ (a + 4).toNat < p.toNat + blockSize c) := by
      intro hv
      have := (hwf.block_zone ha hblock hv).2
      have := hword.2
      omega
    rw [hw₂.load h hheader.cnt, clearRange_of_not hout, hsame _ hword, (hr.arenas c a ha).cnt, hcnt]
  obtain ⟨s₃, hstore, hw₃⟩ := hw₂.store h hheader.cnt (BitVec.ofNat 32 n)
  have hpage : block2arena p = a := block2arena_eq (hwf.aligned c a ha) hin
  refine ⟨s₃, _, hw₃, ?_, hr.take hwf hc hfree ha hblock hlists hframe n, fun v hv => ?_, fun v hv => ?_⟩
  · rw [HoloOS.takeBlock, show descAt D c + 8 = freeListAt D c from rfl, hpop, ok_bind]
    dsimp only
    rw [hload, ok_bind, toNat_blockSize, hmemset, ok_bind, hpage, hcount, ok_bind, ofNat_succ_sub, hstore, ok_bind]
  · obtain ⟨-, hword, -⟩ := hwf.header_arena ha
    have hoff := (hwf.block_zone ha hblock hv).2
    have hne : v ≠ a + 4 := by
      rintro rfl
      have := hword.2
      omega
    rw [update_of_ne hne]
    exact if_pos hv
  · have hne : v ≠ a + 4 := by
      rintro rfl
      exact hv (hwf.count_managed ha)
    have hmem : p ∈ H.free c := by
      rw [hfree]
      exact List.mem_cons_self
    rw [update_of_ne hne, clearRange_of_not fun hin => hv (.inr (.inr (.inl ⟨c, p, hmem, hin⟩)))]
    exact hframe v (hwf.clearOf (fun y hy => hy) (fun y hy => hwf.mem_free hy) hv)

/-- The loop that puts the blocks of a new arena on the free list, from block `i` on. -/
theorem Wrote.splitArena (ha : a ∈ H.pages c) (n i : Nat) (hn : i + n = blocksPerArena c)
    (hfree : H.free c = (List.range i).map (blockAt a c)) (fuel : Nat) (hfuel : n < fuel) :
    ∃ s'' W'', HoloOS.splitArena (descAt D c) a fuel (BitVec.ofNat 32 i) s' = .ok s'' ∧ Wrote s s'' dir W'' ∧
      HeapRepr W'' D { H with free := update H.free c (blocks c a) } cnt ∧
      ∀ v, ¬Managed D { H with free := update H.free c (blocks c a) } v → W'' v = W v := by
  have hbounds := (blocksPerArena_bounds c).2
  induction n generalizing i s' W H fuel with
  | zero =>
      obtain ⟨fuel, rfl⟩ : ∃ k, fuel = k + 1 := ⟨fuel - 1, by omega⟩
      have hload : s'.load (descAt D c + 4) = .ok (BitVec.ofNat 32 (blocksPerArena c)) :=
        (hw.load h (hm.desc hp c).2).trans (congrArg _ (hr.sizes c).2)
      obtain rfl : i = blocksPerArena c := by omega
      refine ⟨s', W, ?_, hw, ?_, fun _ _ => rfl⟩
      · rw [HoloOS.splitArena, hload, ok_bind, if_pos (BitVec.le_refl _)]
        rfl
      · have hsame : update H.free c (blocks c a) = H.free := by
          rw [blocks, ← hfree, update_eq_self]
        rw [hsame]
        exact hr
  | succ n ih =>
      obtain ⟨fuel, rfl⟩ : ∃ k, fuel = k + 1 := ⟨fuel - 1, by omega⟩
      have hload : s'.load (descAt D c + 4) = .ok (BitVec.ofNat 32 (blocksPerArena c)) :=
        (hw.load h (hm.desc hp c).2).trans (congrArg _ (hr.sizes c).2)
      have hlt : ¬BitVec.ofNat 32 (blocksPerArena c) ≤ BitVec.ofNat 32 i := by
        rw [ofNat_le_ofNat (by omega) (by omega)]
        omega
      have hx : blockAt a c i ∈ blocks c a := mem_blocks.2 ⟨i, by omega, rfl⟩
      have hout : blockAt a c i ∉ H.free c := by
        rw [hfree]
        intro hx'
        obtain ⟨j, hj, he⟩ := List.mem_map.1 hx'
        have := List.mem_range.1 hj
        have := blockAt_inj (hp.aligned c a ha) (by omega) (by omega) he
        omega
      obtain ⟨hnodes, hacc⟩ := hm.nodes hp hr
      have hdesc : s'.load a = .ok (descAt D c) :=
        (hw.load h (hm.header (hp.aligned c a ha) (mem_allPages_arena ha)).desc).trans
          (congrArg _ (hr.arenas c a ha).desc)
      have hexist := hw.exist h hr.lists hnodes hacc c (blockAt a c i)
      rw [decide_eq_false hout] at hexist
      obtain ⟨s₁, W₁, happend, hw₁, hlists, hframe⟩ := hw.append h hr.lists hp.spaced hnodes hacc
        (.inr ⟨c, a, ha, hx⟩) (hr.outside hp ha hx hout)
      have hmem : ∀ y ∈ blockAt a c i :: H.free c, ∃ a ∈ H.pages c, y ∈ blocks c a := by
        intro y hy
        rcases List.mem_cons.1 hy with rfl | hy
        · exact ⟨a, ha, hx⟩
        · exact hr.members c y hy
      have hr₁ := hr.relink hp hlists hframe hmem fun y hy => hmem y (List.mem_append.1 hy |>.elim
        (List.mem_cons_of_mem _) fun he => List.mem_singleton.1 he ▸ List.mem_cons_self)
      have hfree₁ : update H.free c (H.free c ++ [blockAt a c i]) c = (List.range (i + 1)).map (blockAt a c) := by
        rw [update_self, List.range_succ, List.map_append, hfree]
        rfl
      have hm₁ : Mounted s dir s.space D { H with free := update H.free c (H.free c ++ [blockAt a c i]) } := hm
      obtain ⟨s₂, W₂, hloop, hw₂, hr₂, hframe₂⟩ := ih hw₁ hm₁ (hp.of_perm rfl (List.Perm.refl _)) hr₁ ha (i + 1)
        (by omega)
        hfree₁ fuel (by omega)
      have hpf : Placed D { H with free := update H.free c (blocks c a) } := hp.of_perm rfl (List.Perm.refl _)
      have hfinal : ∀ y ∈ blockAt a c i :: H.free c, y ∈ update H.free c (blocks c a) c := by
        intro y hy
        rw [update_self]
        rcases List.mem_cons.1 hy with rfl | hy
        · exact hx
        · rw [hfree] at hy
          obtain ⟨j, hj, rfl⟩ := List.mem_map.1 hy
          have := List.mem_range.1 hj
          exact mem_blocks.2 ⟨j, by omega, rfl⟩
      change ∀ v, ¬Managed D ⟨H.pages, update (update H.free c _) c (blocks c a), H.live⟩ v → _ at hframe₂
      rw [update_idem] at hframe₂
      refine ⟨s₂, W₂, ?_, hw₂, ?_, fun v hv => (hframe₂ v hv).trans (hframe v (hpf.clearOf hfinal hmem hv))⟩
      · rw [HoloOS.splitArena, hload, ok_bind, if_neg hlt, hw.arena2block h hm hp hr ha, ok_bind, hdesc, ok_bind,
          show descAt D c + 8 = freeListAt D c from rfl, hexist, ok_bind, massert_bind
            (show (!false) = true from rfl), ok_bind,
          show descAt D c + 8 = freeListAt D c from rfl, happend, ok_bind, ← hloop, BitVec.ofNat_add]
        rfl
      · change HeapRepr W₂ D ⟨H.pages, update (update H.free c _) c (blocks c a), H.live⟩ cnt at hr₂
        rw [update_idem] at hr₂
        exact hr₂

end Steps

theorem clearPages_of_ne {lo n : Nat} (hv : ¬(lo ≤ vpage v ∧ vpage v < lo + n)) : clearPages W lo n v = W v :=
    if_neg hv

/-- A page that has been mapped becomes an arena. -/
theorem Spaces.buildArena (h : Spaces s dir) (hm : Mounted s dir s.space D (H.build c a))
    (hp : Placed D (H.build c a)) (hpH : Placed D H) (hr : HeapRepr (word s dir s.space) D H cnt)
    (hpage : DataPage s dir (vpage a)) (ha : PageAligned a) (hne : a ≠ 0) (hnew : vpage a ∉ H.allPages)
    (hfree : H.free c = []) :
    ∃ s'' W'', (do
        let s ← HoloOS.memset a 0 4096 s
        let s ← s.store a (descAt D c)
        let s ← s.storeByte (a + 8) 0
        let blocksPerArena ← s.load (descAt D c + 4)
        let s ← s.store (a + 4) blocksPerArena
        let s ← splitArena (descAt D c) a (2 ^ 32) 0 s
        return (true, s) : Except Trap (Bool × Memory)) = .ok (true, s'') ∧ Wrote s s'' dir W'' ∧
      HeapRepr W'' D (H.build c a) (update cnt a (blocksPerArena c)) ∧
      ∀ v, ¬Managed D H v → vpage v ≠ vpage a → W'' v = word s dir s.space v := by
  have hmem : a ∈ (H.build c a).pages c := by
    change a ∈ update H.pages c (a :: H.pages c) c
    rw [update_self]
    exact List.mem_cons_self
  have hfar : Far D (vpage a) := hp.far_arena hmem
  have hheader := hm.header ha (mem_allPages_arena hmem)
  obtain ⟨hfour, height⟩ := header_toNat ha
  obtain ⟨hpage₄, hpage₈⟩ := vpage_header ha
  obtain ⟨s₁, hmemset, hw₁⟩ := h.memset (n := 1) ha hne fun k hk => by
    rw [show vpage a + k = vpage a by omega]
    exact hpage
  obtain ⟨s₂, hstore₂, hw₂⟩ := hw₁.store h hheader.desc (descAt D c)
  have hclear : ∀ v, vpage v = vpage a → clearPages (word s dir s.space) (vpage a) 1 v = 0 :=
    fun v hv => if_pos (by omega)
  have ha₈ : a + 8 ≠ a := fun he => by
    have := congrArg BitVec.toNat he
    omega
  have ha₄ : a + 4 ≠ a := fun he => by
    have := congrArg BitVec.toNat he
    omega
  have ha₄₈ : a + 8 ≠ a + 4 := fun he => by
    have := congrArg BitVec.toNat he
    omega
  obtain ⟨s₃, hstore₃, hw₃⟩ := hw₂.storeByte h hheader.large (by rw [update_of_ne ha₈, hclear _ hpage₈]) 0
  have hold : ∀ v, Zone D H v → v ≠ a ∧ v ≠ a + 8 ∧ v ≠ a + 4 ∧ ¬(vpage a ≤ vpage v ∧ vpage v < vpage a + 1) := by
    intro v hv
    have hne := Placed.zone_ne hnew hfar hv
    refine ⟨?_, ?_, ?_, by omega⟩
    · rintro rfl
      exact hne rfl
    · rintro rfl
      exact hne hpage₈
    · rintro rfl
      exact hne hpage₄
  have hload : s₃.load (descAt D c + 4) = .ok (BitVec.ofNat 32 (blocksPerArena c)) := by
    obtain ⟨hv, hv₈, -, hvpage⟩ := hold _ (hpH.zone_desc (v := descAt D c + 4) ⟨c, .inr rfl⟩)
    rw [hw₃.load h (hm.desc hp c).2, update_of_ne hv₈, update_of_ne hv, clearPages_of_ne hvpage, (hr.sizes c).2]
  obtain ⟨s₄, hstore₄, hw₄⟩ := hw₃.store h hheader.cnt (BitVec.ofNat 32 (blocksPerArena c))
  have hzone : HeapRepr (update (update (update (clearPages (word s dir s.space) (vpage a) 1) a (descAt D c)) (a + 8)
      (BitVec.setWidth 32 (0 : BitVec 8))) (a + 4) (BitVec.ofNat 32 (blocksPerArena c))) D H cnt := by
    refine hr.zone hpH fun v hv => ?_
    obtain ⟨hv, hv₈, hv₄, hvpage⟩ := hold v hv
    rw [update_of_ne hv₄, update_of_ne hv₈, update_of_ne hv, clearPages_of_ne hvpage]
  have hadd := hzone.addPage (c := c) hnew (k := blocksPerArena c) ⟨?_, ?_, ?_⟩
  · have hbounds := (blocksPerArena_bounds c).2
    have hfree' : (Arenas.mk (update H.pages c (a :: H.pages c)) H.free H.live).free c =
        (List.range 0).map (blockAt a c) := hfree
    have hm' : Mounted s dir s.space D { H with pages := update H.pages c (a :: H.pages c) } := hm
    obtain ⟨s₅, W₅, hsplit, hw₅, hr₅, hframe⟩ := hw₄.splitArena h hm'
      (hp.of_perm rfl (List.Perm.refl _)) hadd hmem _ 0
      (Nat.zero_add _) hfree' (2 ^ 32) (by omega)
    refine ⟨s₅, W₅, ?_, hw₅, hr₅, fun v hv hv' => ?_⟩
    · rw [show (4096 : Nat) = 1 * 4096 from rfl, hmemset, ok_bind, hstore₂, ok_bind, hstore₃, ok_bind, hload, ok_bind,
        hstore₄, ok_bind]
      change (HoloOS.splitArena (descAt D c) a (2 ^ 32) (BitVec.ofNat 32 0) s₄ >>= _) = _
      rw [hsplit]
      rfl
    · have hout : ∀ u, vpage u = vpage a → v ≠ u := by
        rintro u hu rfl
        exact hv' hu
      rw [hframe v fun hm => (managed_build ha hm).elim hv hv', update_of_ne (hout _ hpage₄), update_of_ne
        (hout _ hpage₈),
        update_of_ne (hout a rfl), clearPages_of_ne]
      omega
  · rw [update_of_ne ha₄.symm, update_of_ne ha₈.symm, update_self]
  · rw [update_self]
  · rw [update_of_ne ha₄₈, update_self]
    rfl

/-- Pages that have been mapped hold a large allocation. -/
theorem Spaces.buildLarge (h : Spaces s dir) (hm : Mounted s dir s.space D (H.addLarge ⟨a + 12, size⟩))
    (hp : Placed D (H.addLarge ⟨a + 12, size⟩)) (hpH : Placed D H) (hr : HeapRepr (word s dir s.space) D H cnt)
    (hsize : 1024 < size.toNat) (hpage : ∀ k < pageCount size, DataPage s dir (vpage a + k)) (ha : PageAligned a)
    (hne : a ≠ 0) (hnew : ∀ k < pageCount size, vpage a + k ∉ H.allPages)
    {f : Memory → Except Trap (Option Word × Memory)} :
    ∃ s'' W'', (do
        let s ← HoloOS.memset a 0 (pageCount size * 4096) s
        let s ← s.store a 0
        let s ← s.store (a + 4) (BitVec.ofNat 32 (pageCount size))
        let s ← s.storeByte (a + 8) 1
        f s : Except Trap (Option Word × Memory)) = f s'' ∧ Wrote s s'' dir W'' ∧
      HeapRepr W'' D (H.addLarge ⟨a + 12, size⟩) cnt ∧
      (∀ v, a.toNat + 12 ≤ v.toNat → v.toNat < a.toNat + pageCount size * 4096 → W'' v = 0) ∧
      ∀ v, ¬(vpage a ≤ vpage v ∧ vpage v < vpage a + pageCount size) → W'' v = word s dir s.space v := by
  have hlarge : Alloc.Large ⟨a + 12, size⟩ := hsize
  obtain ⟨-, hpage₁₂, hback⟩ := payload_toNat ha
  have hpages := allPages_addLarge (H := H) hlarge
  have hmem : ∀ n, vpage a ≤ n → n < vpage a + pageCount size → n ∈ (H.addLarge ⟨a + 12, size⟩).allPages := by
    intro n hle hlt
    refine hpages.mem_iff.2 (List.mem_append_left _ (List.mem_map.2 ⟨n - vpage a, ?_, ?_⟩))
    · exact List.mem_range.2 (show n - vpage a < pageCount size by omega)
    · change vpage (a + 12) + (n - vpage a) = n
      omega
  have hpos := pageCount_pos size
  have hheader := hm.header ha (hmem _ (Nat.le_refl _) (by omega))
  obtain ⟨hfour, height⟩ := header_toNat ha
  obtain ⟨hpage₄, hpage₈⟩ := vpage_header ha
  have ha₈ : a + 8 ≠ a := fun he => by
    have := congrArg BitVec.toNat he
    omega
  have ha₄ : a + 4 ≠ a := fun he => by
    have := congrArg BitVec.toNat he
    omega
  have ha₄₈ : a + 8 ≠ a + 4 := fun he => by
    have := congrArg BitVec.toNat he
    omega
  have hclear : ∀ v, vpage a ≤ vpage v → vpage v < vpage a + pageCount size →
      clearPages (word s dir s.space) (vpage a) (pageCount size) v = 0 := fun v hle hlt => if_pos ⟨hle, hlt⟩
  obtain ⟨s₁, hmemset, hw₁⟩ := h.memset ha hne hpage
  obtain ⟨s₂, hstore₂, hw₂⟩ := hw₁.store h hheader.desc 0
  obtain ⟨s₃, hstore₃, hw₃⟩ := hw₂.store h hheader.cnt (BitVec.ofNat 32 (pageCount size))
  obtain ⟨s₄, hstore₄, hw₄⟩ := hw₃.storeByte h hheader.large
    (by rw [update_of_ne ha₄₈, update_of_ne ha₈, hclear _ (by omega) (by omega)]) 1
  have hout : ∀ v, ¬(vpage a ≤ vpage v ∧ vpage v < vpage a + pageCount size) →
      update (update (update (clearPages (word s dir s.space) (vpage a) (pageCount size)) a 0) (a + 4)
        (BitVec.ofNat 32 (pageCount size))) (a + 8) (BitVec.setWidth 32 (1 : BitVec 8)) v = word s dir s.space v := by
    intro v hv
    have hv₀ : v ≠ a := by
      rintro rfl
      omega
    have hv₄ : v ≠ a + 4 := by
      rintro rfl
      omega
    have hv₈ : v ≠ a + 8 := by
      rintro rfl
      omega
    rw [update_of_ne hv₈, update_of_ne hv₄, update_of_ne hv₀, clearPages_of_ne hv]
  have hzone : HeapRepr (update
    (update (update (clearPages (word s dir s.space) (vpage a) (pageCount size)) a 0) (a + 4)
      (BitVec.ofNat 32 (pageCount size))) (a + 8) (BitVec.setWidth 32 (1 : BitVec 8))) D H cnt := by
    refine hr.zone hpH fun v hv => hout v fun hin => ?_
    have hnew' := hnew (vpage v - vpage a) (by omega)
    rw [show vpage a + (vpage v - vpage a) = vpage v by omega] at hnew'
    exact Placed.zone_ne hnew' (hp.far _ (hmem _ hin.1 hin.2)) hv rfl
  refine ⟨s₄, _, ?_, hw₄, hzone.addLarge hlarge ?_, fun v hle hlt => ?_, hout⟩
  · rw [hmemset, ok_bind, hstore₂, ok_bind, hstore₃, ok_bind, hstore₄, ok_bind]
  · rw [show block2arena (Alloc.mk (a + 12) size).ptr = a from hback]
    refine ⟨?_, ?_, ?_⟩
    · rw [update_of_ne ha₈.symm, update_of_ne ha₄.symm, update_self]
    · rw [update_of_ne ha₄₈.symm, update_self]
    · rw [update_self]
      rfl
  · have hv₀ : v ≠ a := by
      rintro rfl
      omega
    have hv₄ : v ≠ a + 4 := by
      rintro rfl
      omega
    have hv₈ : v ≠ a + 8 := by
      rintro rfl
      omega
    unfold PageAligned at ha
    rw [update_of_ne hv₈, update_of_ne hv₄, update_of_ne hv₀, hclear v (by unfold vpage; omega)
      (by unfold vpage; omega)]

section Back

variable (h : Spaces s dir) (hw : Wrote s s' dir W) (hm : Mounted s dir s.space D H)
include h hw hm

/-- The loop that takes the blocks of an arena off the free list, from block `i` on. -/
theorem Wrote.unlinkArena (hp : Placed D H) (hr : HeapRepr W D H cnt) (ha : a ∈ H.pages c) {F : List Word}
    (hF : F.Nodup)
    (hfull : ∀ x ∈ blocks c a, x ∈ F) (n i : Nat) (hn : i + n = blocksPerArena c)
    (hfree : H.free c = F.diff ((List.range i).map (blockAt a c))) (fuel : Nat) (hfuel : n < fuel) :
    ∃ s'' W'', HoloOS.unlinkArena a fuel (BitVec.ofNat 32 i) s' = .ok s'' ∧ Wrote s s'' dir W'' ∧
      HeapRepr W'' D { H with free := update H.free c (F.diff (blocks c a)) } cnt ∧
      ∀ v, ¬Managed D { H with free := update H.free c F } v → W'' v = W v := by
  have hbounds := (blocksPerArena_bounds c).2
  induction n generalizing i s' W H fuel with
  | zero =>
      obtain ⟨fuel, rfl⟩ : ∃ k, fuel = k + 1 := ⟨fuel - 1, by omega⟩
      have hdesc : s'.load a = .ok (descAt D c) :=
        (hw.load h (hm.header (hp.aligned c a ha) (mem_allPages_arena ha)).desc).trans
          (congrArg _ (hr.arenas c a ha).desc)
      have hload : s'.load (descAt D c + 4) = .ok (BitVec.ofNat 32 (blocksPerArena c)) :=
        (hw.load h (hm.desc hp c).2).trans (congrArg _ (hr.sizes c).2)
      obtain rfl : i = blocksPerArena c := by omega
      refine ⟨s', W, ?_, hw, ?_, fun _ _ => rfl⟩
      · rw [HoloOS.unlinkArena, hdesc, ok_bind, hload, ok_bind, if_pos (BitVec.le_refl _)]
        rfl
      · have hsame : update H.free c (F.diff (blocks c a)) = H.free := by
          rw [blocks, ← hfree, update_eq_self]
        rw [hsame]
        exact hr
  | succ n ih =>
      obtain ⟨fuel, rfl⟩ : ∃ k, fuel = k + 1 := ⟨fuel - 1, by omega⟩
      have hdesc : s'.load a = .ok (descAt D c) :=
        (hw.load h (hm.header (hp.aligned c a ha) (mem_allPages_arena ha)).desc).trans
          (congrArg _ (hr.arenas c a ha).desc)
      have hload : s'.load (descAt D c + 4) = .ok (BitVec.ofNat 32 (blocksPerArena c)) :=
        (hw.load h (hm.desc hp c).2).trans (congrArg _ (hr.sizes c).2)
      have hlt : ¬BitVec.ofNat 32 (blocksPerArena c) ≤ BitVec.ofNat 32 i := by
        rw [ofNat_le_ofNat (by omega) (by omega)]
        omega
      have hx : blockAt a c i ∈ blocks c a := mem_blocks.2 ⟨i, by omega, rfl⟩
      have hin : blockAt a c i ∈ H.free c := by
        rw [hfree, hF.mem_sdiff_iff]
        refine ⟨hfull _ hx, fun hx' => ?_⟩
        obtain ⟨j, hj, he⟩ := List.mem_map.1 hx'
        have := List.mem_range.1 hj
        have := blockAt_inj (hp.aligned c a ha) (by omega) (by omega) he
        omega
      obtain ⟨hnodes, hacc⟩ := hm.nodes hp hr
      have hexist := hw.exist h hr.lists hnodes hacc c (blockAt a c i)
      rw [decide_eq_true hin] at hexist
      obtain ⟨s₁, W₁, hremove, hw₁, hlists, hframe⟩ := hw.remove h hr.lists hp.spaced hnodes hacc hin
      have hr₁ := hr.relink hp hlists hframe (hr.members c) fun y hy => hr.members c y (List.mem_of_mem_erase hy)
      have hfree₁ : update H.free c ((H.free c).erase (blockAt a c i)) c =
          F.diff ((List.range (i + 1)).map (blockAt a c)) := by
        rw [update_self, List.range_succ, List.map_append, List.diff_append, ← hfree, List.map_singleton,
          List.diff_cons, List.diff_nil]
      have hm₁ : Mounted s dir s.space D { H with free := update H.free c ((H.free c).erase (blockAt a c i)) } := hm
      obtain ⟨s₂, W₂, hloop, hw₂, hr₂, hframe₂⟩ := ih hw₁ hm₁ (hp.of_perm rfl (List.Perm.refl _)) hr₁ ha (i + 1)
        (by omega) hfree₁ fuel (by omega)
      have hpf : Placed D { H with free := update H.free c F } := hp.of_perm rfl (List.Perm.refl _)
      have hstart : ∀ y ∈ H.free c, y ∈ update H.free c F c := by
        intro y hy
        rw [update_self]
        rw [hfree] at hy
        exact List.diff_subset _ _ hy
      change ∀ v, ¬Managed D ⟨H.pages, update (update H.free c _) c F, H.live⟩ v → _ at hframe₂
      rw [update_idem] at hframe₂
      refine ⟨s₂, W₂, ?_, hw₂, ?_, fun v hv => (hframe₂ v hv).trans (hframe v (hpf.clearOf hstart (hr.members c) hv))⟩
      · rw [HoloOS.unlinkArena, hdesc, ok_bind, hload, ok_bind, if_neg hlt, hw.arena2block h hm hp hr ha, ok_bind,
          ok_bind, show descAt D c + 8 = freeListAt D c from rfl, hexist, ok_bind, massert_bind rfl, hremove, ok_bind,
          ← hloop, BitVec.ofNat_add]
        rfl
      · change HeapRepr W₂ D ⟨H.pages, update (update H.free c _) c (F.diff (blocks c a)), H.live⟩ cnt at hr₂
        rw [update_idem] at hr₂
        exact hr₂

/-- The block is put on the free list, and the header counts one more. -/
theorem Wrote.putBlock (pf : PoolFlags) (hwf : HeapWf D H) (hr : HeapRepr W D H cnt) (hb : b ∈ H.live)
    (hc : InClass b.size c)
    (ha : a ∈ H.pages c) (hblock : b.ptr ∈ blocks c a) {n : Nat} (hcnt : cnt a = n) (hn : n < blocksPerArena c) :
    ∃ s'' W'', Wrote s s'' dir W'' ∧ blockFree pf a b.ptr s' =
        (if n + 1 = blocksPerArena c then HoloOS.unlinkArena a (2 ^ 32) 0 s'' >>= mfreePage pf a 1 else .ok s'') ∧
      HeapRepr W'' D (H.put c b) (update cnt a (n + 1)) ∧ ∀ v, ¬Managed D (H.put c b) v → W'' v = W v := by
  have hused : b.ptr ∈ H.used c := List.mem_map_of_mem (List.mem_filter.2 ⟨hb, decide_eq_true hc⟩)
  have hbounds := (blocksPerArena_bounds c).2
  obtain ⟨hnodes, hacc⟩ := hm.nodes hwf.toPlaced hr
  have hheader := hm.header (hwf.aligned c a ha) (mem_allPages_arena ha)
  obtain ⟨hword, hword₄, -⟩ := hwf.header_arena ha
  have hout := hr.outside hwf.toPlaced ha hblock (hwf.not_free_of_used hused)
  obtain ⟨s₁, W₁, happend, hw₁, hlists, hframe⟩ := hw.append h hr.lists hwf.spaced hnodes hacc
    (.inr ⟨c, a, ha, hblock⟩) hout
  have hmem : ∀ y ∈ b.ptr :: H.free c, ∃ a ∈ H.pages c, y ∈ blocks c a := by
    intro y hy
    rcases List.mem_cons.1 hy with rfl | hy
    · exact ⟨a, ha, hblock⟩
    · exact hr.members c y hy
  have hnode : ∀ x, NodeOf (freeLists D c) (b.ptr :: H.free c) x → HeapNode D H.pages x := by
    rintro x (rfl | hx | rfl)
    · exact .inl ⟨c, .inl rfl⟩
    · exact .inr ⟨c, hmem x hx⟩
    · exact .inl ⟨c, .inr rfl⟩
  have hsame : ∀ v, HeaderWord H v → W₁ v = W v := fun v hv => hframe v fun x hx => hwf.node_ne_header (hnode x hx) hv
  have ha₄ : a ≠ a + 4 := fun he => by
    have := congrArg BitVec.toNat he
    have := (header_toNat (hwf.aligned c a ha)).1
    omega
  have hdesc : s'.load a = .ok (descAt D c) := (hw.load h hheader.desc).trans (congrArg _ (hr.arenas c a ha).desc)
  have hcount : s₁.load (a + 4) = .ok (BitVec.ofNat 32 n) := by
    rw [hw₁.load h hheader.cnt, hsame _ hword₄, (hr.arenas c a ha).cnt, hcnt]
  obtain ⟨s₂, hstore, hw₂⟩ := hw₁.store h hheader.cnt (BitVec.ofNat 32 (n + 1))
  have hcount₂ : s₂.load (a + 4) = .ok (BitVec.ofNat 32 (n + 1)) := by
    rw [hw₂.load h hheader.cnt, update_self]
  have hdesc₂ : s₂.load a = .ok (descAt D c) := by
    rw [hw₂.load h hheader.desc, update_of_ne ha₄, hsame _ hword, (hr.arenas c a ha).desc]
  have hr₂ := hr.put hwf hb hc ha hlists hframe (n + 1)
  have hload : s₂.load (descAt D c + 4) = .ok (BitVec.ofNat 32 (blocksPerArena c)) :=
    (hw₂.load h (hm.desc hwf.toPlaced c).2).trans (congrArg _ (hr₂.sizes c).2)
  have hfull : BitVec.ofNat 32 (n + 1) = BitVec.ofNat 32 (blocksPerArena c) ↔ n + 1 = blocksPerArena c := by
    refine ⟨fun he => ?_, fun he => by rw [he]⟩
    have hnat := congrArg BitVec.toNat he
    rw [BitVec.toNat_ofNat, BitVec.toNat_ofNat] at hnat
    omega
  refine ⟨s₂, _, hw₂, ?_, hr₂, fun v hv => ?_⟩
  · rw [blockFree, hdesc, ok_bind, show descAt D c + 8 = freeListAt D c from rfl, happend, ok_bind, hcount, ok_bind,
      show BitVec.ofNat 32 n + 1 = BitVec.ofNat 32 (n + 1) from (BitVec.ofNat_add n 1).symm, hstore, ok_bind, hcount₂,
      ok_bind, hdesc₂, ok_bind, hload, ok_bind]
    by_cases he : n + 1 = blocksPerArena c
    · rw [if_pos he, if_pos (hfull.2 he)]
    · rw [if_neg he, if_neg fun he' => he (hfull.1 he')]
      rfl
  · have hput : HeapWf D (H.put c b) := hwf.put hb hc
    have hne : v ≠ a + 4 := by
      rintro rfl
      exact hv (hput.count_managed (c := c) ha)
    have hlast : ∀ y ∈ b.ptr :: H.free c, y ∈ (H.put c b).free c := by
      intro y hy
      change y ∈ update H.free c (H.free c ++ [b.ptr]) c
      rw [update_self, List.mem_append, List.mem_singleton]
      exact (List.mem_cons.1 hy).symm
    rw [update_of_ne hne]
    exact hframe v (hput.clearOf hlast hmem hv)

end Back

end HoloOS
