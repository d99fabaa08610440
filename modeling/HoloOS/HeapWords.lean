import HoloOS.MemoryRuns

/-! The words of the address spaces, read through the page tables. From 0xc0000000 on every space sees the kernel's
pages: the first megabyte, where the kernel's statics are, and those of its heap. Words at different addresses of a
space lie apart, so a store through the MMU changes one word. -/

namespace HoloOS

open Function Paging

variable {s s₁ s' : Memory} {dir : Space → Nat} {sp sp' : Space} {v v' w : Word} {a a' f n : Nat} {m : Mem}

/-- Whose page an address is in. -/
def home (sp : Space) (v : Word) : Space := if v.toNat < 0xc0000000 then sp else .kernel

/-- An address in the kernel's first megabyte. -/
def Low (v : Word) : Prop := 0xc0000000 ≤ v.toNat ∧ v.toNat < 0xc0100000

/-- The first megabyte is mapped as `pageSetup` has mapped it. -/
def LowMapped (s : Memory) : Prop :=
  ∀ n, 0xc0000 ≤ n → n < 0xc0100 → mapped s.mem kernelDir n = some ((n - 0xc0000) * 4096)

/-- A word of the first megabyte or of a page that the space may map. -/
structure Cell (s : Memory) (sp : Space) (v : Word) : Prop where
  aligned : v.toNat % 4 = 0
  page : Low v ∨ (home sp v).Heap s (vpage v)

/-- The physical address. -/
def place (s : Memory) (dir : Space → Nat) (sp : Space) (v : Word) : Option Nat :=
  (mapped s.mem (dir (home sp v)) (vpage v)).map (· + v.toNat % 4096)

/-- The contents; 0 where no word is. -/
noncomputable def word (s : Memory) (dir : Space → Nat) (sp : Space) (v : Word) : Word :=
  open Classical in if Cell s sp v then ((place s dir sp v).map (read s.mem)).getD 0 else 0

theorem home_kernel (v : Word) : home .kernel v = .kernel := by
  unfold home
  split <;> rfl

theorem home_low (h : v.toNat < 0xc0000000) : home sp v = sp := if_pos h

theorem home_high (h : 0xc0000000 ≤ v.toNat) : home sp v = .kernel := if_neg (Nat.not_lt.2 h)

theorem place_eq_some : place s dir sp v = some a ↔
    ∃ f, mapped s.mem (dir (home sp v)) (vpage v) = some f ∧ a = f + v.toNat % 4096 := by
  rw [place, Option.map_eq_some_iff]
  exact exists_congr fun f => and_congr_right fun _ => eq_comm

theorem word_of_place (hc : Cell s sp v) (ha : place s dir sp v = some a) : word s dir sp v = read s.mem a := by
  rw [word, if_pos hc, ha]
  rfl

/-- The frame of a word is one of the first megabyte or that of a page. -/
theorem Tables.place_cases (h : Tables s dir) (hlow : LowMapped s) (hc : Cell s sp v)
    (ha : place s dir sp v = some a) :
    (Low v ∧ a = v.toNat - 0xc0000000) ∨
    ∃ f, (home sp v).Heap s (vpage v) ∧ mapped s.mem (dir (home sp v)) (vpage v) = some f ∧
      a = f + v.toNat % 4096 ∧ f % 4096 = 0 ∧ 0x200000 ≤ f := by
  obtain ⟨f, hf, rfl⟩ := place_eq_some.1 ha
  rcases hc.page with hv | hheap
  · left
    refine ⟨hv, ?_⟩
    unfold Low at hv
    rw [home_high hv.1, h.dir_kernel] at hf
    have hn := hlow (vpage v) (by unfold vpage; omega) (by unfold vpage; omega)
    rw [hf] at hn
    have he := Option.some.inj hn
    unfold vpage at he
    omega
  · have hbounds := h.owner_bounds (o := .page (home sp v) (vpage v)) hheap hf
    exact .inr ⟨f, hheap, hf, rfl, hbounds.1, hbounds.2.1⟩

theorem Tables.place_mod (h : Tables s dir) (hlow : LowMapped s) (hc : Cell s sp v) (ha : place s dir sp v = some a) :
    a % 4096 = v.toNat % 4096 := by
  rcases h.place_cases hlow hc ha with ⟨hv, hplace⟩ | ⟨f, -, -, hplace, hmod, -⟩
  · unfold Low at hv
    omega
  · omega

/-- Two words in one frame are in one page of one space. -/
theorem Tables.same_frame (h : Tables s dir) (hlow : LowMapped s) (hc : Cell s sp v) (hc' : Cell s sp' v')
    (ha : place s dir sp v = some a) (ha' : place s dir sp' v' = some a') (he : a / 4096 = a' / 4096) :
    home sp v = home sp' v' ∧ vpage v = vpage v' := by
  rcases h.place_cases hlow hc ha with ⟨hv, hplace⟩ | ⟨f, hheap, hf, hplace, hmod, hge⟩
  · rcases h.place_cases hlow hc' ha' with ⟨hv', hplace'⟩ | ⟨f', -, -, hplace', hmod', hge'⟩
    · unfold Low at hv hv'
      refine ⟨by rw [home_high hv.1, home_high hv'.1], ?_⟩
      unfold vpage
      omega
    · unfold Low at hv
      omega
  · rcases h.place_cases hlow hc' ha' with ⟨hv', hplace'⟩ | ⟨f', hheap', hf', hplace', hmod', hge'⟩
    · unfold Low at hv'
      omega
    · obtain rfl : f = f' := by omega
      exact Owner.page.inj (h.inj (.page (home sp v) (vpage v))
        (.page (home sp' v') (vpage v')) f hheap hheap' hf hf')

/-- Different words lie apart. -/
theorem Tables.place_apart (h : Tables s dir) (hlow : LowMapped s) (hc : Cell s sp v) (hc' : Cell s sp' v')
    (ha : place s dir sp v = some a) (ha' : place s dir sp' v' = some a')
    (hne : ¬(home sp v = home sp' v' ∧ v = v')) : a + 4 ≤ a' ∨ a' + 4 ≤ a := by
  have halign := hc.aligned
  have halign' := hc'.aligned
  have hmod := h.place_mod hlow hc ha
  have hmod' := h.place_mod hlow hc' ha'
  by_cases he : a / 4096 = a' / 4096
  · obtain ⟨hhome, hpage⟩ := h.same_frame hlow hc hc' ha ha' he
    have hval : v.toNat ≠ v'.toNat := fun he => hne ⟨hhome, BitVec.eq_of_toNat_eq he⟩
    unfold vpage at hpage
    omega
  · omega

/-- Only words in frames of data or in the first megabyte have been written. -/
structure Pokes (s s' : Memory) (dir : Space → Nat) : Prop where
  same : s' = { s with mem := s'.mem }
  inside : ∀ b, s'.mem b ≠ s.mem b → b < 0x100000 ∨ ∃ f, DataFrame s dir f ∧ f ≤ b ∧ b < f + 4096

theorem Pokes.refl (s : Memory) (dir : Space → Nat) : Pokes s s dir := ⟨rfl, fun _ hne => absurd rfl hne⟩

theorem Scribbles.pokes (h : Scribbles s s' dir) : Pokes s s' dir := ⟨h.same, fun b hb => .inr (h.inside b hb)⟩

namespace Pokes

variable (hp : Pokes s s' dir)
include hp

theorem space : s'.space = s.space := by
  rw [hp.same]
  rfl

theorem valid (o : Owner) : o.Valid s' ↔ o.Valid s := by
  rw [hp.same]
  cases o with
  | table sp i => cases sp <;> exact Iff.rfl
  | page sp n => cases sp <;> exact Iff.rfl

theorem exists_iff (sp : Space) : sp.Exists s' ↔ sp.Exists s := by
  rw [hp.same]
  cases sp <;> exact Iff.rfl

theorem bit (sp : Space) (n : Nat) : sp.bit s' n = sp.bit s n := by
  rw [hp.same]
  cases sp <;> rfl

theorem pool (pf : PoolFlags) : s'.pool pf = s.pool pf := by
  rw [hp.same]
  cases pf <;> rfl

end Pokes

/-- A page above the first megabyte that is no frame of data keeps its entries. -/
theorem Tables.entry_poked (h : Tables s dir) (hp : Pokes s s' dir) {base i : Nat} (hbase : base % 4096 = 0)
    (hge : 0x100000 ≤ base) (hi : i < 1024) (hno : ¬DataFrame s dir base) :
    entry s'.mem base i = entry s.mem base i := by
  apply entry_congr hi
  intro b hb hlt
  by_contra hne
  rcases hp.inside b hne with hlow | ⟨f, hf, hfb, hbf⟩
  · omega
  · have hmod := (h.dataFrame_mod hf).1
    obtain rfl : f = base := by omega
    exact hno hf

theorem Tables.dir_ge (h : Tables s dir) (hsp : sp.Exists s) : 0x100000 ≤ dir sp := by
  cases sp with
  | kernel =>
      rw [h.dir_kernel]
      exact Nat.le_refl _
  | process t =>
      obtain ⟨hvalid, hframe⟩ := h.dir_page hsp
      have := (h.owner_bounds hvalid hframe).2.1
      omega

theorem Tables.table_ge (h : Tables s dir) {i T : Nat} (hreg : sp.Region s i)
    (hT : entry s.mem (dir sp) i = some T) : 0x100000 ≤ T := by
  rcases h.table_cases hreg hT with ⟨hown, hframe⟩ | ⟨-, -, rfl⟩
  · have := (h.owner_bounds (o := .table sp i) hown hframe).2.1
    omega
  · decide

namespace Pokes

variable (hp : Pokes s s' dir) (h : Tables s dir)
include hp h

theorem dir_entry (hsp : sp.Exists s) {i : Nat} (hi : i < 1024) :
    entry s'.mem (dir sp) i = entry s.mem (dir sp) i :=
  h.entry_poked hp (h.dir_mod hsp) (h.dir_ge hsp) hi (h.dir_not_dataFrame hsp)

theorem frame {o : Owner} (ho : o.Valid s) : o.frame s'.mem dir = o.frame s.mem dir := by
  cases o with
  | table sp i =>
      have hlt : i < 1023 := Space.Region.lt (Or.inl ho)
      exact hp.dir_entry h (Space.Own.exists ho) (by omega)
  | page sp n =>
      have hreg := h.region (show sp.Heap s n from ho)
      have hlt := hreg.lt
      rw [Owner.frame_page, Owner.frame_page, mapped, mapped, hp.dir_entry h hreg.exists (by omega : n / 1024 < 1024)]
      cases hT : entry s.mem (dir sp) (n / 1024) with
      | none => rfl
      | some T =>
          exact h.entry_poked hp (h.table_mod hreg hT) (h.table_ge hreg hT) (Nat.mod_lt _ (by omega))
            (h.table_not_dataFrame hreg hT)

theorem tables : Tables s' dir := by
  rw [hp.same]
  exact h.congr_mem (fun _ hsp _ hi => hp.dir_entry h hsp hi) fun _ ho => hp.frame h ho

theorem low (hlow : LowMapped s) : LowMapped s' := by
  intro n hlo hhi
  have hdir : entry s'.mem kernelDir (n / 1024) = entry s.mem kernelDir (n / 1024) := by
    rw [← h.dir_kernel]
    have hexists : Space.kernel.Exists s := trivial
    exact hp.dir_entry h hexists (by omega)
  have hn := hlow n hlo hhi
  have hfirst : n / 1024 = 768 := by omega
  rw [mapped, hfirst, h.first, Option.bind_some] at hn
  rw [mapped, hdir, hfirst, h.first, Option.bind_some, ← hn]
  refine h.entry_poked hp rfl (by decide) (Nat.mod_lt _ (by omega)) ?_
  have hreg : Space.kernel.Region s 768 := .inr ⟨rfl, rfl⟩
  exact h.table_not_dataFrame hreg (by rw [h.dir_kernel]; exact h.first)

theorem dataFrame_iff : DataFrame s' dir f ↔ DataFrame s dir f := by
  have hproc : ∀ t, s'.IsProcess t ↔ s.IsProcess t := by
    intro t
    rw [hp.same]
    exact Iff.rfl
  constructor
  · rintro ⟨⟨sp, n, hn, hf⟩, hkeep⟩
    have hn' : (Owner.page sp n).Valid s := (hp.valid (.page sp n)).1 hn
    exact ⟨⟨sp, n, hn', (hp.frame h hn').symm.trans hf⟩, fun t ht => hkeep t ((hproc t).2 ht)⟩
  · rintro ⟨⟨sp, n, hn, hf⟩, hkeep⟩
    exact ⟨⟨sp, n, (hp.valid (.page sp n)).2 hn, (hp.frame h (o := .page sp n) hn).trans hf⟩,
      fun t ht => hkeep t ((hproc t).1 ht)⟩

omit h in
theorem cell_iff : Cell s' sp v ↔ Cell s sp v :=
  ⟨fun hc => ⟨hc.aligned, hc.page.imp_right (hp.valid (.page (home sp v) (vpage v))).1⟩,
    fun hc => ⟨hc.aligned, hc.page.imp_right (hp.valid (.page (home sp v) (vpage v))).2⟩⟩

theorem place_eq (hlow : LowMapped s) (hc : Cell s sp v) : place s' dir sp v = place s dir sp v := by
  rw [place, place]
  rcases hc.page with hv | hheap
  · unfold Low at hv
    rw [home_high hv.1, h.dir_kernel, hlow _ (by unfold vpage; omega) (by unfold vpage; omega),
      hp.low h hlow _ (by unfold vpage; omega) (by unfold vpage; omega)]
  · have hframe := hp.frame h (o := .page (home sp v) (vpage v)) hheap
    rw [Owner.frame_page, Owner.frame_page] at hframe
    rw [hframe]

omit h in
theorem trans {s'' : Memory} (h : Tables s dir) (hp' : Pokes s' s'' dir) : Pokes s s'' dir where
  same := by rw [hp'.same, hp.same]
  inside := by
    intro b hne
    by_cases hb : s''.mem b = s'.mem b
    · rw [hb] at hne
      exact hp.inside b hne
    · exact (hp'.inside b hb).imp_right fun ⟨f, hf, hin⟩ => ⟨f, (hp.dataFrame_iff h).1 hf, hin⟩

end Pokes

/-- The page tables, and the first megabyte where `pageSetup` has mapped it. -/
structure Spaces (s : Memory) (dir : Space → Nat) : Prop extends Tables s dir where
  low : LowMapped s

theorem Pokes.spaces (hp : Pokes s s' dir) (h : Spaces s dir) : Spaces s' dir :=
  { hp.tables h.toTables with low := hp.low h.toTables h.low }

/-- A physical address in the first megabyte or in a frame of data. -/
def OpenPlace (s : Memory) (dir : Space → Nat) (a : Nat) : Prop :=
  a < 0x100000 ∨ ∃ f, DataFrame s dir f ∧ f ≤ a ∧ a < f + 4096

/-- A word that is there, and not in a page directory. -/
structure Solid (s : Memory) (dir : Space → Nat) (sp : Space) (v : Word) : Prop where
  cell : Cell s sp v
  reach : ∃ a, place s dir sp v = some a ∧ OpenPlace s dir a

/-- The directory of a space leads to the page of the word. -/
def Sees (s : Memory) (dir : Space → Nat) (sp : Space) (v : Word) : Prop :=
  entry s.mem (dir sp) (vpage v / 1024) = entry s.mem (dir (home sp v)) (vpage v / 1024)

/-- A word that the threads of a space can write. -/
structure Access (s : Memory) (dir : Space → Nat) (sp : Space) (v : Word) : Prop extends Solid s dir sp v where
  sees : Sees s dir sp v

/-- The running thread can write the word. -/
abbrev Writable (s : Memory) (dir : Space → Nat) (v : Word) : Prop := Access s dir s.space v

theorem home_exists (hsp : sp.Exists s) (v : Word) : (home sp v).Exists s := by
  unfold home
  split
  · exact hsp
  · trivial

theorem Pokes.solid (hp : Pokes s s' dir) (h : Spaces s dir) (hv : Solid s dir sp v) : Solid s' dir sp v where
  cell := hp.cell_iff.2 hv.cell
  reach := by
    obtain ⟨a, ha, hopen⟩ := hv.reach
    refine ⟨a, (hp.place_eq h.toTables h.low hv.cell).trans ha, hopen.imp_right ?_⟩
    exact fun ⟨f, hf, hin⟩ => ⟨f, (hp.dataFrame_iff h.toTables).2 hf, hin⟩

theorem Pokes.sees (hp : Pokes s s' dir) (h : Spaces s dir) (hsp : sp.Exists s) (hv : Sees s dir sp v) :
    Sees s' dir sp v := by
  unfold Sees
  rw [hp.dir_entry h.toTables hsp (region_lt v), hp.dir_entry h.toTables (home_exists hsp v) (region_lt v)]
  exact hv

theorem Pokes.access (hp : Pokes s s' dir) (h : Spaces s dir) (hsp : sp.Exists s) (hv : Access s dir sp v) :
    Access s' dir sp v :=
  ⟨hp.solid h hv.toSolid, hp.sees h hsp hv.sees⟩

theorem Pokes.writable (hp : Pokes s s' dir) (h : Spaces s dir) (hv : Writable s dir v) : Writable s' dir v := by
  have hacc := hp.access h s.space_exists hv
  rw [← hp.space] at hacc
  exact hacc

/-- The translation of a word. -/
theorem Writable.walk (h : Spaces s dir) (hv : Writable s dir v) : s.walk v = place s dir s.space v := by
  change Option.map (· + v.toNat % 4096) (mapped s.mem s.cr3 (vpage v)) = _
  rw [h.cr3, place, mapped, mapped, hv.sees]

theorem Cell.fit (hc : Cell s sp v) : v.toNat % 4096 ≤ 4092 := by
  have := hc.aligned
  omega

theorem Writable.load (h : Spaces s dir) (hv : Writable s dir v) : s.load v = .ok (word s dir s.space v) := by
  obtain ⟨a, hplace, -⟩ := hv.reach
  rw [load_of_walk hv.cell.fit ((hv.walk h).trans hplace), word_of_place hv.cell hplace]

theorem place_home (hhome : home sp v = home sp' v) : place s dir sp v = place s dir sp' v := by
  rw [place, place, hhome]

theorem Cell.of_home (hc : Cell s sp v) (hhome : home sp v = home sp' v) : Cell s sp' v :=
  ⟨hc.aligned, by rw [← hhome]; exact hc.page⟩

theorem word_home (hhome : home sp v = home sp' v) : word s dir sp v = word s dir sp' v := by
  have hcell : Cell s sp v ↔ Cell s sp' v := ⟨fun hc => hc.of_home hhome, fun hc => hc.of_home hhome.symm⟩
  rw [word, word, place_home hhome]
  by_cases hc : Cell s sp v
  · rw [if_pos hc, if_pos (hcell.1 hc)]
  · rw [if_neg hc, if_neg fun hc' => hc (hcell.2 hc')]

/-- A word with the same bytes. -/
theorem Pokes.word_same (hp : Pokes s s' dir) (h : Spaces s dir)
    (hsame : ∀ a, Cell s sp v → place s dir sp v = some a → ∀ j < 4, s'.mem (a + j) = s.mem (a + j)) :
    word s' dir sp v = word s dir sp v := by
  by_cases hc : Cell s sp v
  · cases hplace : place s dir sp v with
    | none =>
        have hplace' := hp.place_eq h.toTables h.low hc
        rw [word, word, if_pos (hp.cell_iff.2 hc), if_pos hc, hplace', hplace]
        rfl
    | some a =>
        rw [word_of_place hc hplace,
          word_of_place (hp.cell_iff.2 hc) ((hp.place_eq h.toTables h.low hc).trans hplace)]
        exact read_eq_of_bytes (hsame a hc hplace)
  · rw [word, word, if_neg hc, if_neg fun hc' => hc (hp.cell_iff.1 hc')]

/-- Memory has been written, the running thread sees the words `W`, and the words it has no address for are the
same. -/
structure Wrote (s s' : Memory) (dir : Space → Nat) (W : Word → Word) : Prop where
  pokes : Pokes s s' dir
  seen : ∀ v, word s' dir s.space v = W v
  other : ∀ sp v, home sp v ≠ home s.space v → word s' dir sp v = word s dir sp v

namespace Wrote

variable {W W' : Word → Word}

theorem refl (s : Memory) (dir : Space → Nat) : Wrote s s dir (word s dir s.space) :=
  ⟨.refl s dir, fun _ => rfl, fun _ _ _ => rfl⟩

theorem trans (h : Spaces s dir) (hw : Wrote s s₁ dir W) (hw' : Wrote s₁ s' dir W') : Wrote s s' dir W' where
  pokes := hw.pokes.trans h.toTables hw'.pokes
  seen v := by
    rw [← hw.pokes.space]
    exact hw'.seen v
  other sp v hne := by
    rw [hw'.other sp v (by rw [hw.pokes.space]; exact hne), hw.other sp v hne]

/-- A word as another space sees it. -/
theorem word (hw : Wrote s s' dir W) (hsame : home sp v = home s.space v → W v = word s dir s.space v) :
    HoloOS.word s' dir sp v = HoloOS.word s dir sp v := by
  by_cases hhome : home sp v = home s.space v
  · rw [word_home hhome, hw.seen, hsame hhome, word_home hhome]
  · exact hw.other sp v hhome

theorem spaces (hw : Wrote s s' dir W) (h : Spaces s dir) : Spaces s' dir := hw.pokes.spaces h

theorem writable (hw : Wrote s s' dir W) (h : Spaces s dir) (hv : Writable s dir v) : Writable s' dir v :=
  hw.pokes.writable h hv

end Wrote

/-- Memory that differs in the bytes of one word. -/
theorem Writable.wrote (h : Spaces s dir) (hv : Writable s dir v) (ha : place s dir s.space v = some a)
    (hm : ∀ b, ¬(a ≤ b ∧ b < a + 4) → m b = s.mem b) :
    Wrote s { s with mem := m } dir (update (word s dir s.space) v (read m a)) := by
  obtain ⟨a', hplace, hopen⟩ := hv.reach
  obtain rfl : a = a' := Option.some.inj (ha.symm.trans hplace)
  have halign := hv.cell.aligned
  have hmod := h.place_mod h.low hv.cell ha
  have hp : Pokes s { s with mem := m } dir := by
    refine ⟨rfl, fun b hne => ?_⟩
    have hin : a ≤ b ∧ b < a + 4 := by
      by_contra hout
      exact hne (hm b hout)
    rcases hopen with hlow | ⟨f, hf, hle, hlt⟩
    · left
      omega
    · have := (h.dataFrame_mod hf).1
      exact .inr ⟨f, hf, by omega, by omega⟩
  have hother : ∀ sp' v', ¬(home sp' v' = home s.space v ∧ v' = v) →
      word { s with mem := m } dir sp' v' = word s dir sp' v' := by
    intro sp' v' hne
    refine hp.word_same h fun a' hc' ha' j hj => hm _ ?_
    have := h.place_apart h.low hc' hv.cell ha' ha hne
    omega
  refine ⟨hp, fun v' => ?_, fun sp' v' hne => hother sp' v' ?_⟩
  · by_cases he : v' = v
    · rw [he, update_self, word_of_place (hp.cell_iff.2 hv.cell) ((hp.place_eq h.toTables h.low hv.cell).trans ha)]
    · rw [update_of_ne he]
      exact hother s.space v' fun hb => he hb.2
  · rintro ⟨hhome, rfl⟩
    exact hne hhome

/-- A store changes one word. -/
theorem Writable.store (h : Spaces s dir) (hv : Writable s dir v) (w : Word) :
    ∃ s', s.store v w = .ok s' ∧ Wrote s s' dir (update (word s dir s.space) v w) := by
  obtain ⟨a, ha, -⟩ := hv.reach
  refine ⟨_, store_of_walk hv.cell.fit ((hv.walk h).trans ha) w, ?_⟩
  have hw := hv.wrote h ha (m := write s.mem a w) fun b hb => if_neg hb
  rw [read_write_self] at hw
  exact hw

theorem walk_in_page {u : Word} (hwalk : s.walk v = some a) (hle : v.toNat ≤ u.toNat)
    (hpage : u.toNat / 4096 = v.toNat / 4096) : s.walk u = some (a + (u.toNat - v.toNat)) := by
  rw [Memory.walk, Option.map_eq_some_iff] at hwalk
  obtain ⟨f, hf, rfl⟩ := hwalk
  rw [Memory.walk, hpage, hf, Option.map_some]
  congr 1
  omega

theorem Writable.loadByte (h : Spaces s dir) (hv : Writable s dir v) :
    s.loadByte v = .ok ((word s dir s.space v).setWidth 8) := by
  obtain ⟨a, ha, -⟩ := hv.reach
  rw [Memory.loadByte, phys_eq ((hv.walk h).trans ha), ok_bind, word_of_place hv.cell ha]
  have hbyte : (read s.mem a).extractLsb' 0 8 = s.mem a := read_byte s.mem a (k := 0) (by omega)
  rw [BitVec.setWidth_eq_extractLsb' (by omega), hbyte]
  rfl

/-- A byte written changes the word around it. -/
theorem Writable.storeByte (h : Spaces s dir) (hv : Writable s dir v) {u : Word} (hle : v.toNat ≤ u.toNat)
    (hlt : u.toNat < v.toNat + 4) (val : BitVec 8) :
    ∃ a s', place s dir s.space v = some a ∧ s.storeByte u val = .ok s' ∧
      Wrote s s' dir (update (word s dir s.space) v (read (update s.mem (a + (u.toNat - v.toNat)) val) a)) := by
  obtain ⟨a, ha, -⟩ := hv.reach
  have halign := hv.cell.aligned
  have hwalk := walk_in_page ((hv.walk h).trans ha) hle (by omega)
  refine ⟨a, _, ha, ?_, hv.wrote h ha (m := update s.mem (a + (u.toNat - v.toNat)) val) fun b hb => ?_⟩
  · rw [Memory.storeByte, phys_eq hwalk]
    rfl
  · exact update_of_ne (by omega) _ _

/-- The low byte of a word of zeros. -/
theorem Writable.storeByte_zero (h : Spaces s dir) (hv : Writable s dir v) (hzero : word s dir s.space v = 0)
    (val : BitVec 8) : ∃ s', s.storeByte v val = .ok s' ∧
      Wrote s s' dir (update (word s dir s.space) v (val.setWidth 32)) := by
  obtain ⟨a, s', ha, hcall, hw⟩ := hv.storeByte h (Nat.le_refl _) (by omega) val
  refine ⟨s', hcall, ?_⟩
  rw [word_of_place hv.cell ha] at hzero
  have hbyte : ∀ k < 4, s.mem (a + k) = 0 := by
    intro k hk
    rw [← read_byte s.mem a hk, hzero]
    exact BitVec.extractLsb'_zero
  have hread : Paging.read (update s.mem (a + (v.toNat - v.toNat)) val) a = val.setWidth 32 := by
    rw [Nat.sub_self, Nat.add_zero, Paging.read, update_of_ne (by omega), update_of_ne (by omega),
      update_of_ne (by omega), update_self, hbyte 1 (by omega), hbyte 2 (by omega), hbyte 3 (by omega)]
    have hval := val.isLt
    apply BitVec.eq_of_toNat_eq
    have hzeros : ((0 : BitVec 8) ++ (0 : BitVec 8) ++ (0 : BitVec 8)).toNat = 0 := rfl
    rw [BitVec.toNat_setWidth, Nat.mod_eq_of_lt (by omega), BitVec.toNat_append, hzeros, Nat.zero_shiftLeft,
      Nat.zero_or]
  rw [hread] at hw
  exact hw

theorem home_in_page {u : Word} (hpage : vpage u = vpage v) : home sp u = home sp v := by
  unfold vpage at hpage
  unfold home
  by_cases hlow : v.toNat < 0xc0000000
  · rw [if_pos hlow, if_pos (by omega)]
  · rw [if_neg hlow, if_neg (by omega)]

theorem place_in_page {u : Word} (ha : place s dir sp v = some a) (hle : v.toNat ≤ u.toNat)
    (hpage : vpage u = vpage v) : place s dir sp u = some (a + (u.toNat - v.toNat)) := by
  obtain ⟨f, hf, rfl⟩ := place_eq_some.1 ha
  rw [place, home_in_page hpage, hpage, hf, Option.map_some]
  congr 1
  unfold vpage at hpage
  omega

theorem memset_in_page {b : Word} (hwalk : s.walk b = some a) (hne : b ≠ 0) (hn : 0 < n)
    (hfit : b.toNat % 4096 + n ≤ 4096) : memset b 0 n s = .ok { s with mem := fill s.mem a n 0 } := by
  have hchunk : min n (4096 - b.toNat % 4096) = n := by omega
  rw [memset, massert_bind (by simpa using hne)]
  cases hfuel : n / 4096 + 2 with
  | zero => omega
  | succ fuel =>
      rw [memsetLoop, if_neg (by omega)]
      dsimp only
      rw [hchunk, phys_eq hwalk, ok_bind, Nat.sub_self]
      cases fuel with
      | zero => omega
      | succ fuel => rw [memsetLoop, if_pos rfl]

/-- The words of a block. -/
def clearRange (W : Word → Word) (b n : Nat) : Word → Word :=
  fun v => if b ≤ v.toNat ∧ v.toNat < b + n then 0 else W v

/-- `memset` of words in one page. -/
theorem Writable.memset (h : Spaces s dir) {b : Word} (hb : Writable s dir b) (hne : b ≠ 0) (hn : 0 < n)
    (hmod : n % 4 = 0) (hfit : b.toNat % 4096 + n ≤ 4096) : ∃ s', HoloOS.memset b 0 n s = .ok s' ∧
      Wrote s s' dir (clearRange (word s dir s.space) b.toNat n) := by
  obtain ⟨a, ha, hopen⟩ := hb.reach
  have halign := hb.cell.aligned
  have hplace := h.place_mod h.low hb.cell ha
  refine ⟨_, memset_in_page ((hb.walk h).trans ha) hne hn hfit, ?_⟩
  have hout : ∀ c, ¬(a ≤ c ∧ c < a + n) → fill s.mem a n 0 c = s.mem c := fun c hc => if_neg hc
  have hp : Pokes s { s with mem := fill s.mem a n 0 } dir := by
    refine ⟨rfl, fun c hc => ?_⟩
    have hin : a ≤ c ∧ c < a + n := by
      by_contra hno
      exact hc (hout c hno)
    rcases hopen with hlow | ⟨f, hf, hle, hlt⟩
    · left
      omega
    · have := (h.dataFrame_mod hf).1
      exact .inr ⟨f, hf, by omega, by omega⟩
  have hsame : ∀ sp v, ¬(home sp v = home s.space b ∧ b.toNat ≤ v.toNat ∧ v.toNat < b.toNat + n) →
      word { s with mem := fill s.mem a n 0 } dir sp v = word s dir sp v := by
    intro sp v hno
    refine hp.word_same h fun a' hc' ha' j hj => hout _ ?_
    have halign' := hc'.aligned
    have hmod' := h.place_mod h.low hc' ha'
    by_cases he : a' / 4096 = a / 4096
    · obtain ⟨hhome, hpage⟩ := h.same_frame h.low hc' hb.cell ha' ha he
      have hrange : ¬(b.toNat ≤ v.toNat ∧ v.toNat < b.toNat + n) := fun hin => hno ⟨hhome, hin⟩
      unfold vpage at hpage
      omega
    · omega
  refine ⟨hp, fun v => ?_, fun sp v hhome => hsame sp v ?_⟩
  · unfold clearRange
    by_cases hin : b.toNat ≤ v.toNat ∧ v.toNat < b.toNat + n
    · rw [if_pos hin]
      have hpage : vpage v = vpage b := by
        unfold vpage
        omega
      by_cases hc : Cell s s.space v
      · have halign' := hc.aligned
        have ha' := place_in_page ha hin.1 hpage
        rw [word_of_place (hp.cell_iff.2 hc) ((hp.place_eq h.toTables h.low hc).trans ha')]
        exact read_fill_zero _ (by omega) (by omega)
      · rw [word, if_neg fun hc' => hc (hp.cell_iff.1 hc')]
    · rw [if_neg hin]
      exact hsame s.space v fun hb => hin hb.2
  · rintro ⟨he, hin⟩
    have hpage : vpage v = vpage b := by
      unfold vpage
      omega
    exact hhome (he.trans (home_in_page hpage).symm)

theorem home_of_heap (hn : sp.Heap s (vpage v)) : home sp v = sp := by
  cases sp with
  | kernel => exact home_kernel v
  | process t =>
      have := hn.2
      unfold vpage at this
      exact home_low (by omega)

/-- A word in the frame of a page of the heap is in that page. -/
theorem Spaces.page_of_frame (h : Spaces s dir) {k f : Nat} (hn : sp'.Heap s k)
    (hf : mapped s.mem (dir sp') k = some f)
    (hc : Cell s sp v) (ha : place s dir sp v = some a) (hle : f ≤ a) (hlt : a < f + 4096) :
    home sp v = sp' ∧ vpage v = k := by
  have hk := hn.lt h.toLayout
  have hnat : (BitVec.ofNat 32 (k * 4096)).toNat = k * 4096 := by
    rw [BitVec.toNat_ofNat]
    omega
  have hpage : vpage (BitVec.ofNat 32 (k * 4096)) = k := by
    rw [vpage, hnat]
    omega
  have hhome : home sp' (BitVec.ofNat 32 (k * 4096)) = sp' := home_of_heap (by rw [hpage]; exact hn)
  have hc' : Cell s sp' (BitVec.ofNat 32 (k * 4096)) := ⟨by rw [hnat]; omega, .inr (by rw [hhome, hpage]; exact hn)⟩
  have hbounds := h.owner_bounds (o := .page sp' k) hn hf
  have hsame := h.same_frame h.low hc hc' ha
    (place_eq_some.2 ⟨f, by rw [hhome, hpage]; exact hf, rfl⟩) (by rw [hnat]; omega)
  rw [hhome, hpage] at hsame
  exact hsame

/-- The words of `n` pages. -/
def clearPages (W : Word → Word) (lo n : Nat) : Word → Word :=
  fun v => if lo ≤ vpage v ∧ vpage v < lo + n then 0 else W v

/-- `memset` of whole pages. -/
theorem Spaces.memset (h : Spaces s dir) (haligned : v.toNat % 4096 = 0) (hne : v ≠ 0)
    (hpage : ∀ k < n, DataPage s dir (vpage v + k)) : ∃ s', HoloOS.memset v 0 (n * 4096) s = .ok s' ∧
      Wrote s s' dir (clearPages (word s dir s.space) (vpage v) n) := by
  obtain ⟨m, hcall, hfill, hscribbled⟩ := h.toTables.memset 0 haligned hne hpage
  have hp : Pokes s { s with mem := m } dir := ⟨rfl, fun b hb => .inr (hscribbled b hb)⟩
  have hsame : ∀ sp u, ¬(home sp u = s.space ∧ vpage v ≤ vpage u ∧ vpage u < vpage v + n) →
      word { s with mem := m } dir sp u = word s dir sp u := by
    intro sp u hno
    refine hp.word_same h fun a hc ha j hj => hfill.outside _ fun k hk f hf => ?_
    by_contra hin
    have hfit := hc.fit
    have hmod := h.place_mod h.low hc ha
    have hbounds := h.owner_bounds (o := .page s.space (vpage v + k)) (hpage k hk).heap hf
    obtain ⟨hhome, he⟩ := h.page_of_frame (hpage k hk).heap hf hc ha (by omega) (by omega)
    exact hno ⟨hhome, by omega, by omega⟩
  refine ⟨_, hcall, hp, fun u => ?_, fun sp u hhome => hsame sp u ?_⟩
  · unfold clearPages
    by_cases hin : vpage v ≤ vpage u ∧ vpage u < vpage v + n
    · rw [if_pos hin]
      by_cases hc : Cell s s.space u
      · obtain ⟨f, hf, -⟩ := (hpage (vpage u - vpage v) (by omega)).data
        rw [show vpage v + (vpage u - vpage v) = vpage u by omega] at hf
        have hheap := (hpage (vpage u - vpage v) (by omega)).heap
        rw [show vpage v + (vpage u - vpage v) = vpage u by omega] at hheap
        have ha : place s dir s.space u = some (f + u.toNat % 4096) :=
          place_eq_some.2 ⟨f, by rw [home_of_heap hheap]; exact hf, rfl⟩
        rw [word_of_place (hp.cell_iff.2 hc) ((hp.place_eq h.toTables h.low hc).trans ha)]
        have hfit := hc.fit
        have hzero : ∀ j < 4, m (f + u.toNat % 4096 + j) = 0 := by
          intro j hj
          refine hfill.inside (vpage u - vpage v) (by omega) f ?_ _ (by omega) (by omega)
          rw [show vpage v + (vpage u - vpage v) = vpage u by omega]
          exact hf
        have hread : read m (f + u.toNat % 4096) = read (fill m 0 4 0) 0 := by
          refine read_eq_of_bytes fun j hj => ?_
          rw [hzero j hj, fill, if_pos (by omega)]
        exact hread.trans (read_fill_zero m (by omega) (by omega))
      · rw [word, if_neg fun hc' => hc (hp.cell_iff.1 hc')]
    · rw [if_neg hin]
      exact hsame s.space u fun hb => hin hb.2
  · rintro ⟨he, hin⟩
    have hheap := (hpage (vpage u - vpage v) (by omega)).heap
    rw [show vpage v + (vpage u - vpage v) = vpage u by omega] at hheap
    exact hhome (he.trans (home_of_heap hheap).symm)

section Wrote

variable {W : Word → Word} (hw : Wrote s s' dir W) (h : Spaces s dir)
include hw h

omit h in
theorem Wrote.view : HoloOS.word s' dir s'.space = W := by
  funext u
  rw [hw.pokes.space, hw.seen]

theorem Wrote.load (hv : Writable s dir v) : s'.load v = .ok (W v) := by
  rw [(hw.writable h hv).load (hw.spaces h), hw.view]

theorem Wrote.loadByte (hv : Writable s dir v) : s'.loadByte v = .ok ((W v).setWidth 8) := by
  rw [(hw.writable h hv).loadByte (hw.spaces h), hw.view]

theorem Wrote.store (hv : Writable s dir v) (w : Word) :
    ∃ s'', s'.store v w = .ok s'' ∧ Wrote s s'' dir (update W v w) := by
  obtain ⟨s'', hcall, hw'⟩ := (hw.writable h hv).store (hw.spaces h) w
  rw [hw.view] at hw'
  exact ⟨s'', hcall, hw.trans h hw'⟩

theorem Wrote.storeByte (hv : Writable s dir v) (hzero : W v = 0) (val : BitVec 8) :
    ∃ s'', s'.storeByte v val = .ok s'' ∧ Wrote s s'' dir (update W v (val.setWidth 32)) := by
  obtain ⟨s'', hcall, hw'⟩ := (hw.writable h hv).storeByte_zero (hw.spaces h) (by rw [hw.view]; exact hzero) val
  rw [hw.view] at hw'
  exact ⟨s'', hcall, hw.trans h hw'⟩

theorem Wrote.memset (hv : Writable s dir v) (hne : v ≠ 0) (hn : 0 < n) (hmod : n % 4 = 0)
    (hfit : v.toNat % 4096 + n ≤ 4096) :
    ∃ s'', HoloOS.memset v 0 n s' = .ok s'' ∧ Wrote s s'' dir (clearRange W v.toNat n) := by
  obtain ⟨s'', hcall, hw'⟩ := (hw.writable h hv).memset (hw.spaces h) hne hn hmod hfit
  rw [hw.view] at hw'
  exact ⟨s'', hcall, hw.trans h hw'⟩

end Wrote

end HoloOS
