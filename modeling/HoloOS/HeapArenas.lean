import HoloOS.HeapLists
import Mathlib.Data.Nat.Find
import Mathlib.Data.List.Nodup

/-! The arenas of `sysMalloc`: what the words of a heap say. A descriptor serves one size of blocks; an arena is a
page cut into blocks of one size, each of which is live or on the descriptor's free list. -/

namespace HoloOS

open Function Paging

/-- `blockSize` and `blocksPerArena` of the descriptors. -/
def blockSize (c : Fin 7) : Nat := 16 * 2 ^ c.val
def blocksPerArena (c : Fin 7) : Nat := (4096 - 12) / blockSize c

/-- Descriptor `c` of the array at `D`, and its free list. -/
def descAt (D : Word) (c : Fin 7) : Word := D + BitVec.ofNat 32 (24 * c.val)
def freeListAt (D : Word) (c : Fin 7) : Word := descAt D c + 8

/-- Block `i` of the arena at `a`. -/
def blockAt (a : Word) (c : Fin 7) (i : Nat) : Word := a + 12 + BitVec.ofNat 32 (i * blockSize c)

def blocks (c : Fin 7) (a : Word) : List Word := (List.range (blocksPerArena c)).map (blockAt a c)

variable {D a a' x y v : Word} {c c' : Fin 7} {i j : Nat}

theorem blockSize_pos (c : Fin 7) : 16 ≤ blockSize c := by
  revert c
  decide

theorem blockSize_le (c : Fin 7) : blockSize c ≤ 1024 := by
  revert c
  decide

theorem blockSize_mod (c : Fin 7) : blockSize c % 16 = 0 := Nat.mul_mod_right 16 _

theorem blocksPerArena_bounds (c : Fin 7) : 3 ≤ blocksPerArena c ∧ blocksPerArena c ≤ 255 := by
  revert c
  decide

/-- Where the blocks end. -/
theorem block_end (hi : i < blocksPerArena c) : i * blockSize c + blockSize c ≤ 4084 := by
  have hle : (i + 1) * blockSize c ≤ blocksPerArena c * blockSize c := Nat.mul_le_mul_right _ hi
  have hmul : blocksPerArena c * blockSize c ≤ 4096 - 12 := Nat.div_mul_le_self _ _
  rw [Nat.add_mul, Nat.one_mul] at hle
  omega

/-- A page address. -/
def PageAligned (a : Word) : Prop := a.toNat % 4096 = 0

theorem blockAt_toNat (ha : PageAligned a) (hi : i < blocksPerArena c) :
    (blockAt a c i).toNat = a.toNat + 12 + i * blockSize c := by
  have hend := block_end hi
  have hpos := blockSize_pos c
  have hlt := a.isLt
  unfold PageAligned at ha
  rw [blockAt, BitVec.toNat_add, BitVec.toNat_add, BitVec.toNat_ofNat]
  have hword : (12 : Word).toNat = 12 := rfl
  omega

theorem mem_blocks : x ∈ blocks c a ↔ ∃ i < blocksPerArena c, x = blockAt a c i := by
  unfold blocks
  rw [List.mem_map]
  constructor
  · rintro ⟨i, hi, rfl⟩
    exact ⟨i, List.mem_range.1 hi, rfl⟩
  · rintro ⟨i, hi, rfl⟩
    exact ⟨i, List.mem_range.2 hi, rfl⟩

/-- What holds of the address of every block. -/
structure InArena (a : Word) (c : Fin 7) (x : Word) : Prop where
  page : x.toNat / 4096 = a.toNat / 4096
  low : 12 ≤ x.toNat % 4096
  high : x.toNat % 4096 + blockSize c ≤ 4096
  mod : x.toNat % 16 = 12

theorem inArena (ha : PageAligned a) (hx : x ∈ blocks c a) : InArena a c x := by
  obtain ⟨i, hi, rfl⟩ := mem_blocks.1 hx
  have hnat := blockAt_toNat ha hi
  have hend := block_end hi
  have hmod : i * blockSize c % 16 = 0 := by
    rw [Nat.mul_mod, blockSize_mod]
    simp
  unfold PageAligned at ha
  exact ⟨by omega, by omega, by omega, by omega⟩

/-- Different blocks of an arena do not overlap. -/
theorem blocks_apart (ha : PageAligned a) (hx : x ∈ blocks c a) (hy : y ∈ blocks c a) (hne : x ≠ y) :
    x.toNat + blockSize c ≤ y.toNat ∨ y.toNat + blockSize c ≤ x.toNat := by
  obtain ⟨i, hi, rfl⟩ := mem_blocks.1 hx
  obtain ⟨j, hj, rfl⟩ := mem_blocks.1 hy
  rw [blockAt_toNat ha hi, blockAt_toNat ha hj]
  have hij : i ≠ j := fun he => hne (by rw [he])
  rcases Nat.lt_or_gt_of_ne hij with hlt | hlt
  · left
    have hle : (i + 1) * blockSize c ≤ j * blockSize c := Nat.mul_le_mul_right _ hlt
    rw [Nat.add_mul, Nat.one_mul] at hle
    omega
  · right
    have hle : (j + 1) * blockSize c ≤ i * blockSize c := Nat.mul_le_mul_right _ hlt
    rw [Nat.add_mul, Nat.one_mul] at hle
    omega

theorem blockAt_inj (ha : PageAligned a) (hi : i < blocksPerArena c) (hj : j < blocksPerArena c)
    (he : blockAt a c i = blockAt a c j) : i = j := by
  have hnat := congrArg BitVec.toNat he
  rw [blockAt_toNat ha hi, blockAt_toNat ha hj] at hnat
  exact Nat.eq_of_mul_eq_mul_right (Nat.lt_of_lt_of_le (by decide) (blockSize_pos c)) (by omega)

theorem blocks_nodup (ha : PageAligned a) : (blocks c a).Nodup := by
  unfold blocks
  refine List.Nodup.map_on (fun i hi j hj he => ?_) List.nodup_range
  exact blockAt_inj ha (List.mem_range.1 hi) (List.mem_range.1 hj) he

theorem blocks_length (c : Fin 7) (a : Word) : (blocks c a).length = blocksPerArena c := by
  unfold blocks
  rw [List.length_map, List.length_range]

theorem block2arena_toNat (x : Word) : (block2arena x).toNat = x.toNat / 4096 * 4096 := and_page x

theorem block2arena_eq (ha : PageAligned a) (hx : InArena a c x) : block2arena x = a := by
  apply BitVec.eq_of_toNat_eq
  have hpage := hx.page
  unfold PageAligned at ha
  rw [block2arena_toNat]
  omega

/-- The array of descriptors does not wrap around. -/
def DescsFit (D : Word) : Prop := D.toNat + 168 ≤ 2 ^ 32

theorem descAt_toNat (hD : DescsFit D) (c : Fin 7) : (descAt D c).toNat = D.toNat + 24 * c.val := by
  have hc := c.isLt
  unfold DescsFit at hD
  rw [descAt, BitVec.toNat_add, BitVec.toNat_ofNat]
  omega

theorem freeListAt_toNat (hD : DescsFit D) (c : Fin 7) : (freeListAt D c).toNat = D.toNat + 24 * c.val + 8 := by
  have hc := c.isLt
  have hdesc := descAt_toNat hD c
  unfold DescsFit at hD
  rw [freeListAt, BitVec.toNat_add, hdesc]
  have hword : (8 : Word).toNat = 8 := rfl
  omega

theorem freeListAt_tail_toNat (hD : DescsFit D) (c : Fin 7) :
    (freeListAt D c + 8).toNat = D.toNat + 24 * c.val + 16 := by
  have hc := c.isLt
  have hlist := freeListAt_toNat hD c
  have hword : (8 : Word).toNat = 8 := rfl
  unfold DescsFit at hD
  rw [BitVec.toNat_add]
  omega

/-- A live allocation: the pointer and the size that was asked for. -/
structure Alloc where
  ptr : Word
  size : Word
  deriving DecidableEq

/-- The first descriptor whose blocks are large enough. -/
def InClass (size : Word) (c : Fin 7) : Prop := size.toNat ≤ blockSize c ∧ ∀ c' < c, blockSize c' < size.toNat

instance (size : Word) (c : Fin 7) : Decidable (InClass size c) := inferInstanceAs (Decidable (_ ∧ _))

/-- The pages of a large allocation. -/
def pageCount (size : Word) : Nat := (size.toNat + 12 + 4095) / 4096

namespace Alloc

def Large (b : Alloc) : Prop := 1024 < b.size.toNat

instance (b : Alloc) : Decidable b.Large := inferInstanceAs (Decidable (_ < _))

def pages (b : Alloc) : List Nat := (List.range (pageCount b.size)).map (vpage b.ptr + ·)

end Alloc

/-- The arenas of each descriptor, the blocks on its free list, and the allocations that are live. -/
structure Arenas where
  pages : Fin 7 → List Word
  free : Fin 7 → List Word
  live : List Alloc

namespace Arenas

/-- The blocks of a descriptor that are live. -/
def used (H : Arenas) (c : Fin 7) : List Word := (H.live.filter fun b => InClass b.size c).map Alloc.ptr

def large (H : Arenas) : List Alloc := H.live.filter fun b => b.Large

/-- Every page of the heap. -/
def allPages (H : Arenas) : List Nat :=
  (List.finRange 7).flatMap (fun c => (H.pages c).map vpage) ++ H.large.flatMap Alloc.pages

end Arenas

theorem InClass.unique {size : Word} (h : InClass size c) (h' : InClass size c') : c = c' := by
  rcases Nat.lt_trichotomy c.val c'.val with hlt | he | hlt
  · have := h'.2 c hlt
    have := h.1
    omega
  · exact Fin.ext he
  · have := h.2 c' hlt
    have := h'.1
    omega

theorem InClass.small {size : Word} (h : InClass size c) : size.toNat ≤ 1024 := Nat.le_trans h.1 (blockSize_le c)

theorem exists_inClass {size : Word} (h : size.toNat ≤ 1024) : ∃ c, InClass size c := by
  have hex : ∃ n, ∃ hn : n < 7, size.toNat ≤ blockSize ⟨n, hn⟩ := ⟨6, by decide, h⟩
  obtain ⟨hn, hle⟩ := Nat.find_spec hex
  refine ⟨⟨_, hn⟩, hle, fun c' hlt => ?_⟩
  by_contra hno
  exact Nat.find_min hex hlt ⟨c'.isLt, Nat.le_of_not_lt hno⟩

/-- A page is apart from the array of descriptors. -/
def Far (D : Word) (n : Nat) : Prop := D.toNat + 168 ≤ n * 4096 ∨ n * 4096 + 4096 ≤ D.toNat

/-- The pages of a heap are different, and apart from its descriptors. -/
structure Placed (D : Word) (H : Arenas) : Prop where
  fit : DescsFit D
  aligned : ∀ c, ∀ a ∈ H.pages c, PageAligned a
  large : ∀ b ∈ H.large, b.ptr.toNat % 4096 = 12
  nodup : H.allPages.Nodup
  far : ∀ n ∈ H.allPages, Far D n

/-- The nodes of the free lists: sentinels, and blocks. -/
def HeapNode (D : Word) (pages : Fin 7 → List Word) (x : Word) : Prop :=
  (∃ c, x = freeListAt D c ∨ x = freeListAt D c + 8) ∨ ∃ c, ∃ a ∈ pages c, x ∈ blocks c a

variable {H : Arenas}

theorem mem_allPages {n : Nat} : n ∈ H.allPages ↔ (∃ c, ∃ a ∈ H.pages c, vpage a = n) ∨
    ∃ b ∈ H.large, vpage b.ptr ≤ n ∧ n < vpage b.ptr + pageCount b.size := by
  unfold Arenas.allPages Alloc.pages
  simp only [List.mem_append, List.mem_flatMap, List.mem_map, List.mem_finRange, true_and, List.mem_range]
  refine or_congr Iff.rfl (exists_congr fun b => and_congr_right fun _ => ?_)
  constructor
  · rintro ⟨k, hk, rfl⟩
    omega
  · rintro ⟨hle, hlt⟩
    exact ⟨n - vpage b.ptr, by omega, by omega⟩

theorem Placed.far_arena (h : Placed D H) (ha : a ∈ H.pages c) : Far D (a.toNat / 4096) :=
  h.far _ (mem_allPages.2 (.inl ⟨c, a, ha, rfl⟩))

/-- A header word, by its offset in the page. -/
def HeaderWord (H : Arenas) (v : Word) : Prop := vpage v ∈ H.allPages ∧ v.toNat % 4096 < 12

/-- A word of a descriptor that is not in its list. -/
def DescWord (D v : Word) : Prop := ∃ c : Fin 7, v = descAt D c ∨ v = descAt D c + 4

theorem next_toNat (h : v.toNat + 4 < 2 ^ 32) : (v + 4).toNat = v.toNat + 4 := by
  have hword : (4 : Word).toNat = 4 := rfl
  rw [BitVec.toNat_add]
  omega

namespace Placed

variable (h : Placed D H)
include h

theorem inArena (ha : a ∈ H.pages c) (hx : x ∈ blocks c a) : InArena a c x := HoloOS.inArena (h.aligned c a ha) hx

/-- The two words of a node, by address. -/
theorem node_toNat (hx : HeapNode D H.pages x) : (x + 4).toNat = x.toNat + 4 ∧
    ((∃ c : Fin 7, x.toNat = D.toNat + 24 * c.val + 8 ∨ x.toNat = D.toNat + 24 * c.val + 16) ∨
      ∃ c, ∃ a ∈ H.pages c, InArena a c x) := by
  have hfit := h.fit
  unfold DescsFit at hfit
  rcases hx with ⟨c, rfl | rfl⟩ | ⟨c, a, ha, hx⟩
  · have hc := c.isLt
    have hlist := freeListAt_toNat h.fit c
    exact ⟨next_toNat (by omega), .inl ⟨c, .inl hlist⟩⟩
  · have hc := c.isLt
    have htail := freeListAt_tail_toNat h.fit c
    exact ⟨next_toNat (by omega), .inl ⟨c, .inr htail⟩⟩
  · have hin := h.inArena ha hx
    have hhigh := hin.high
    have hpos := blockSize_pos c
    have hlt := x.isLt
    exact ⟨next_toNat (by omega), .inr ⟨c, a, ha, hin⟩⟩

/-- A header is no link. -/
theorem node_ne_header (hx : HeapNode D H.pages x) (hv : HeaderWord H v) : v ≠ x ∧ v ≠ x + 4 := by
  obtain ⟨hpage, hoff⟩ := hv
  have hfar := h.far _ hpage
  unfold Far vpage at hfar
  obtain ⟨hnext, ⟨c, hx⟩ | ⟨c, a, ha, hin⟩⟩ := h.node_toNat hx
  · have hc := c.isLt
    constructor <;> intro he <;> have hnat := congrArg BitVec.toNat he <;> omega
  · have hlow := hin.low
    have hhigh := hin.high
    have hpos := blockSize_pos c
    constructor <;> intro he <;> have hnat := congrArg BitVec.toNat he <;> omega

/-- The sizes of a descriptor are no links. -/
theorem node_ne_desc (hx : HeapNode D H.pages x) (hv : DescWord D v) : v ≠ x ∧ v ≠ x + 4 := by
  have hfit := h.fit
  unfold DescsFit at hfit
  have hv' : ∃ c : Fin 7, v.toNat = D.toNat + 24 * c.val ∨ v.toNat = D.toNat + 24 * c.val + 4 := by
    obtain ⟨c, rfl | rfl⟩ := hv
    · exact ⟨c, .inl (descAt_toNat h.fit c)⟩
    · have hc := c.isLt
      have hdesc := descAt_toNat h.fit c
      exact ⟨c, .inr ((next_toNat (by omega)).trans (by omega))⟩
  obtain ⟨c', hv'⟩ := hv'
  have hc' := c'.isLt
  obtain ⟨hnext, ⟨c, hx⟩ | ⟨c, a, ha, hin⟩⟩ := h.node_toNat hx
  · have hc := c.isLt
    constructor <;> intro he <;> have hnat := congrArg BitVec.toNat he <;> omega
  · have hlow := hin.low
    have hhigh := hin.high
    have hpage := hin.page
    have hpos := blockSize_pos c
    have hfar := h.far_arena ha
    unfold Far at hfar
    constructor <;> intro he <;> have hnat := congrArg BitVec.toNat he <;> omega

/-- Nodes are eight bytes apart. -/
theorem spaced : Spaced (HeapNode D H.pages) := by
  intro x y hx hy he
  have hnat := congrArg BitVec.toNat he
  obtain ⟨hnext, hx⟩ := h.node_toNat hx
  obtain ⟨hnext', hy⟩ := h.node_toNat hy
  rcases hx with ⟨c, hx⟩ | ⟨c, a, ha, hin⟩
  · have hc := c.isLt
    rcases hy with ⟨c', hy⟩ | ⟨c', a', ha', hin'⟩
    · have hc' := c'.isLt
      omega
    · have hfar := h.far_arena ha'
      have hpage := hin'.page
      have hhigh := hin'.high
      have hpos := blockSize_pos c'
      unfold Far at hfar
      omega
  · have hmod := hin.mod
    rcases hy with ⟨c', hy⟩ | ⟨c', a', ha', hin'⟩
    · have hc' := c'.isLt
      have hfar := h.far_arena ha
      have hpage := hin.page
      have hlow := hin.low
      have hhigh := hin.high
      unfold Far at hfar
      omega
    · have hmod' := hin'.mod
      omega

end Placed

/-- `desc`, `cnt` and `large` of an arena. -/
structure Header (W : Word → Word) (a desc cnt large : Word) : Prop where
  desc : W a = desc
  cnt : W (a + 4) = cnt
  large : W (a + 8) = large

/-- The free lists of the array of descriptors at `D`. -/
abbrev freeLists (D : Word) (c : Fin 7) : KList Word := listAt (freeListAt D c)

/-- The words of a heap: descriptors, free lists and headers; `cnt` says what the headers count. -/
structure HeapRepr (W : Word → Word) (D : Word) (H : Arenas) (cnt : Word → Nat) : Prop where
  sizes : ∀ c, W (descAt D c) = BitVec.ofNat 32 (blockSize c) ∧
    W (descAt D c + 4) = BitVec.ofNat 32 (blocksPerArena c)
  lists : Family (freeLists D) (links W) H.free
  members : ∀ c, ∀ x ∈ H.free c, ∃ a ∈ H.pages c, x ∈ blocks c a
  arenas : ∀ c, ∀ a ∈ H.pages c, Header W a (descAt D c) (BitVec.ofNat 32 (cnt a)) 0
  large : ∀ b ∈ H.large, Header W (block2arena b.ptr) 0 (BitVec.ofNat 32 (pageCount b.size)) 1

variable {W W' : Word → Word} {cnt : Word → Nat} {b : Alloc} {p : Word}

theorem Header.congr {desc cnt large : Word} (h : Header W a desc cnt large) (hdesc : W' a = W a)
    (hcnt : W' (a + 4) = W (a + 4)) (hlarge : W' (a + 8) = W (a + 8)) : Header W' a desc cnt large :=
  ⟨hdesc.trans h.desc, hcnt.trans h.cnt, hlarge.trans h.large⟩

theorem HeapRepr.nodes (h : HeapRepr W D H cnt) : ∀ x, Nodes (freeLists D) H.free x → HeapNode D H.pages x := by
  rintro x ⟨c, rfl | hx | rfl⟩
  · exact .inl ⟨c, .inl rfl⟩
  · exact .inr ⟨c, h.members c x hx⟩
  · exact .inl ⟨c, .inr rfl⟩

theorem headerWord_of_aligned (ha : PageAligned a) (hpage : vpage a ∈ H.allPages) :
    HeaderWord H a ∧ HeaderWord H (a + 4) ∧ HeaderWord H (a + 8) := by
  unfold PageAligned at ha
  have hlt := a.isLt
  have hfour : (a + 4).toNat = a.toNat + 4 := next_toNat (by omega)
  have height : (a + 8).toNat = a.toNat + 8 := by
    have hword : (8 : Word).toNat = 8 := rfl
    rw [BitVec.toNat_add]
    omega
  unfold HeaderWord vpage at *
  rw [hfour, height, show (a.toNat + 4) / 4096 = a.toNat / 4096 by omega,
    show (a.toNat + 8) / 4096 = a.toNat / 4096 by omega]
  exact ⟨⟨hpage, by omega⟩, ⟨hpage, by omega⟩, ⟨hpage, by omega⟩⟩

theorem pageAligned_block2arena (x : Word) : PageAligned (block2arena x) := by
  unfold PageAligned
  rw [block2arena_toNat]
  exact Nat.mul_mod_left _ _

theorem vpage_block2arena (x : Word) : vpage (block2arena x) = vpage x := by
  rw [vpage, block2arena_toNat, Nat.mul_div_cancel _ (by decide)]
  rfl

theorem pageCount_pos (size : Word) : 0 < pageCount size := by
  unfold pageCount
  omega

theorem Placed.header_arena (hp : Placed D H) (ha : a ∈ H.pages c) :
    HeaderWord H a ∧ HeaderWord H (a + 4) ∧ HeaderWord H (a + 8) :=
  headerWord_of_aligned (hp.aligned c a ha) (mem_allPages.2 (.inl ⟨c, a, ha, rfl⟩))

theorem header_large (hb : b ∈ H.large) : HeaderWord H (block2arena b.ptr) ∧
    HeaderWord H (block2arena b.ptr + 4) ∧ HeaderWord H (block2arena b.ptr + 8) := by
  refine headerWord_of_aligned (pageAligned_block2arena _) (mem_allPages.2 (.inr ⟨b, hb, ?_⟩))
  have := pageCount_pos b.size
  rw [vpage_block2arena]
  omega

/-- Words that agree on descriptors, nodes and headers. -/
theorem HeapRepr.congr (h : HeapRepr W D H cnt) (hp : Placed D H) (hdesc : ∀ v, DescWord D v → W' v = W v)
    (hnode : ∀ x, Nodes (freeLists D) H.free x → W' x = W x ∧ W' (x + 4) = W (x + 4))
    (hheader : ∀ v, HeaderWord H v → W' v = W v) : HeapRepr W' D H cnt where
  sizes c := by
    rw [hdesc _ ⟨c, .inl rfl⟩, hdesc _ ⟨c, .inr rfl⟩]
    exact h.sizes c
  lists := h.lists.congr fun x hx => ⟨(hnode x hx).2, (hnode x hx).1⟩
  members := h.members
  arenas c a ha := by
    obtain ⟨h₀, h₁, h₂⟩ := hp.header_arena ha
    exact (h.arenas c a ha).congr (hheader _ h₀) (hheader _ h₁) (hheader _ h₂)
  large b hb := by
    obtain ⟨h₀, h₁, h₂⟩ := header_large hb
    exact (h.large b hb).congr (hheader _ h₀) (hheader _ h₁) (hheader _ h₂)

/-- An edit of one free list. -/
theorem HeapRepr.relink (h : HeapRepr W D H cnt) (hp : Placed D H) {xs ys : List Word}
    (hlists : Family (freeLists D) (links W') (update H.free c xs))
    (hframe : ∀ v, ClearOf (freeLists D c) ys v → W' v = W v)
    (hys : ∀ y ∈ ys, ∃ a ∈ H.pages c, y ∈ blocks c a) (hxs : ∀ x ∈ xs, ∃ a ∈ H.pages c, x ∈ blocks c a) :
    HeapRepr W' D { H with free := update H.free c xs } cnt := by
  have hnodes : ∀ x, NodeOf (freeLists D c) ys x → HeapNode D H.pages x := by
    rintro x (rfl | hx | rfl)
    · exact .inl ⟨c, .inl rfl⟩
    · exact .inr ⟨c, hys x hx⟩
    · exact .inl ⟨c, .inr rfl⟩
  have hheader : ∀ v, HeaderWord H v → W' v = W v :=
    fun v hv => hframe v fun x hx => hp.node_ne_header (hnodes x hx) hv
  have hdesc : ∀ v, DescWord D v → W' v = W v := fun v hv => hframe v fun x hx => hp.node_ne_desc (hnodes x hx) hv
  refine ⟨fun c => ?_, hlists, fun c' x hx => ?_, fun c a ha => ?_, fun b hb => ?_⟩
  · rw [hdesc _ ⟨c, .inl rfl⟩, hdesc _ ⟨c, .inr rfl⟩]
    exact h.sizes c
  · by_cases he : c' = c
    · subst he
      change x ∈ update H.free c' xs c' at hx
      rw [update_self] at hx
      exact hxs x hx
    · change x ∈ update H.free c xs c' at hx
      rw [update_of_ne he] at hx
      exact h.members c' x hx
  · obtain ⟨h₀, h₁, h₂⟩ := hp.header_arena ha
    exact (h.arenas c a ha).congr (hheader _ h₀) (hheader _ h₁) (hheader _ h₂)
  · obtain ⟨h₀, h₁, h₂⟩ := header_large hb
    exact (h.large b hb).congr (hheader _ h₀) (hheader _ h₁) (hheader _ h₂)

namespace Placed

variable (hp : Placed D H)
include hp

theorem arenas_nodup : ((List.finRange 7).flatMap fun c => (H.pages c).map vpage).Nodup :=
  (List.nodup_append.1 hp.nodup).1

theorem pages_nodup (c : Fin 7) : ((H.pages c).map vpage).Nodup :=
  (List.nodup_flatMap.1 hp.arenas_nodup).1 c (List.mem_finRange c)

/-- A page is one arena. -/
theorem arena_unique (ha : a ∈ H.pages c) (ha' : a' ∈ H.pages c') (hpage : vpage a = vpage a') : c = c' ∧ a = a' := by
  have hc : c = c' := by
    by_contra hne
    have hsymm : Std.Symm (Function.onFun List.Disjoint fun c => (H.pages c).map vpage) :=
      ⟨fun _ _ hd _ hm hm' => hd hm' hm⟩
    have hdisjoint := (List.nodup_flatMap.1 hp.arenas_nodup).2.forall (List.mem_finRange c) (List.mem_finRange c') hne
    exact hdisjoint (List.mem_map_of_mem ha) (by rw [hpage]; exact List.mem_map_of_mem ha')
  subst hc
  exact ⟨rfl, List.inj_on_of_nodup_map (hp.pages_nodup c) ha ha' hpage⟩

/-- No arena is in a large allocation. -/
theorem arena_not_large (ha : a ∈ H.pages c) (hb : b ∈ H.large) : vpage a ∉ b.pages := by
  intro hm
  refine (List.nodup_append.1 hp.nodup).2.2 (vpage a) ?_ (vpage a) (List.mem_flatMap.2 ⟨b, hb, hm⟩) rfl
  exact List.mem_flatMap.2 ⟨c, List.mem_finRange c, List.mem_map_of_mem ha⟩

/-- A block that is on no list is no node. -/
theorem node_off_block (h : HeapRepr W D H cnt) (ha : a ∈ H.pages c) (hb : p ∈ blocks c a) (hfree : p ∉ H.free c)
    (hx : Nodes (freeLists D) H.free x) : ¬(p.toNat ≤ x.toNat ∧ x.toNat < p.toNat + blockSize c) ∧
      ¬(p.toNat ≤ (x + 4).toNat ∧ (x + 4).toNat < p.toNat + blockSize c) := by
  have hin := hp.inArena ha hb
  have hpage := hin.page
  have hlow := hin.low
  have hhigh := hin.high
  have hpos := blockSize_pos c
  obtain ⟨hnext, -⟩ := hp.node_toNat (h.nodes x hx)
  rw [hnext]
  rcases hx with ⟨c', hx | hx | hx⟩
  · have hnode := (hp.node_toNat (h.nodes x ⟨c', .inl hx⟩)).2
    have hfar := hp.far_arena ha
    have hlist := freeListAt_toNat hp.fit c'
    have hc' := c'.isLt
    change x = freeListAt D c' at hx
    rw [← hx] at hlist
    unfold Far at hfar
    omega
  · obtain ⟨a', ha', hx'⟩ := h.members c' x hx
    have hin' := hp.inArena ha' hx'
    have hpage' := hin'.page
    have hlow' := hin'.low
    have hhigh' := hin'.high
    have hpos' := blockSize_pos c'
    by_cases he : vpage a = vpage a'
    · obtain ⟨rfl, rfl⟩ := hp.arena_unique ha ha' he
      have hne : p ≠ x := fun he => hfree (he ▸ hx)
      have hapart := blocks_apart (hp.aligned c a ha) hb hx' hne
      omega
    · unfold vpage at he
      omega
  · have hfar := hp.far_arena ha
    have hc' := c'.isLt
    have htail := freeListAt_tail_toNat hp.fit c'
    change x = freeListAt D c' + 8 at hx
    rw [← hx] at htail
    unfold Far at hfar
    omega

end Placed

/-- A block that is not on its own list is on no list. -/
theorem HeapRepr.outside (h : HeapRepr W D H cnt) (hp : Placed D H) (ha : a ∈ H.pages c) (hblock : x ∈ blocks c a)
    (hx : x ∉ H.free c) (c' : Fin 7) : Outside (freeLists D c') (H.free c') x := by
  have hin := hp.inArena ha hblock
  have hpage := hin.page
  have hlow := hin.low
  have hhigh := hin.high
  have hfar := hp.far_arena ha
  have hc' := c'.isLt
  unfold Far at hfar
  refine ⟨fun he => ?_, fun he => ?_, fun hm => ?_⟩
  · have hlist := freeListAt_toNat hp.fit c'
    change x = freeListAt D c' at he
    rw [← he] at hlist
    omega
  · have htail := freeListAt_tail_toNat hp.fit c'
    change x = freeListAt D c' + 8 at he
    rw [← he] at htail
    omega
  · obtain ⟨a', ha', hblock'⟩ := h.members c' x hm
    have hpage' := (hp.inArena ha' hblock').page
    obtain ⟨rfl, -⟩ := hp.arena_unique ha ha' (hpage.symm.trans hpage')
    exact hx hm

theorem clearRange_of_not {lo n : Nat} (h : ¬(lo ≤ v.toNat ∧ v.toNat < lo + n)) : clearRange W lo n v = W v :=
    if_neg h

/-- A block that is on no list is cleared. -/
theorem HeapRepr.clear (h : HeapRepr W D H cnt) (hp : Placed D H) (ha : a ∈ H.pages c) (hb : p ∈ blocks c a)
    (hfree : p ∉ H.free c) : HeapRepr (clearRange W p.toNat (blockSize c)) D H cnt := by
  have hin := hp.inArena ha hb
  have hpage := hin.page
  have hlow := hin.low
  have hhigh := hin.high
  have hfar := hp.far_arena ha
  unfold Far at hfar
  refine h.congr hp (fun v hv => clearRange_of_not ?_) (fun x hx => ?_) fun v hv => clearRange_of_not ?_
  · have hfit := hp.fit
    unfold DescsFit at hfit
    obtain ⟨c', rfl | rfl⟩ := hv
    · have hdesc := descAt_toNat hp.fit c'
      have hc' := c'.isLt
      omega
    · have hdesc := descAt_toNat hp.fit c'
      have hc' := c'.isLt
      rw [next_toNat (by omega)]
      omega
  · obtain ⟨h₀, h₁⟩ := hp.node_off_block h ha hb hfree hx
    exact ⟨clearRange_of_not h₀, clearRange_of_not h₁⟩
  · have hoff := hv.2
    omega

theorem Placed.desc_not_header (hp : Placed D H) (hv : DescWord D v) : ¬HeaderWord H v := by
  intro hheader
  have hfar := hp.far _ hheader.1
  have hfit := hp.fit
  unfold DescsFit at hfit
  unfold Far vpage at hfar
  obtain ⟨c, rfl | rfl⟩ := hv
  · have hdesc := descAt_toNat hp.fit c
    have hc := c.isLt
    omega
  · have hdesc := descAt_toNat hp.fit c
    have hc := c.isLt
    rw [next_toNat (by omega)] at hfar
    omega

/-- The words of a header lie in its page. -/
theorem header_toNat (ha : PageAligned a) : (a + 4).toNat = a.toNat + 4 ∧ (a + 8).toNat = a.toNat + 8 := by
  have hlt := a.isLt
  unfold PageAligned at ha
  refine ⟨next_toNat (by omega), ?_⟩
  have hword : (8 : Word).toNat = 8 := rfl
  rw [BitVec.toNat_add]
  omega

/-- Writing one header leaves the others. -/
theorem Header.update {desc count large w : Word} (h : Header W a' desc count large) (ha' : PageAligned a')
    (hv : vpage v ≠ vpage a') : Header (update W v w) a' desc count large := by
  obtain ⟨hfour, height⟩ := header_toNat ha'
  unfold PageAligned at ha'
  unfold vpage at hv
  refine h.congr (update_of_ne ?_ _ _) (update_of_ne ?_ _ _) (update_of_ne ?_ _ _)
  · rintro rfl
    exact hv rfl
  · rintro rfl
    omega
  · rintro rfl
    omega

theorem vpage_header (ha : PageAligned a) : vpage (a + 4) = vpage a ∧ vpage (a + 8) = vpage a := by
  obtain ⟨hfour, height⟩ := header_toNat ha
  unfold PageAligned at ha
  unfold vpage
  omega

/-- The pointer behind a header. -/
theorem payload_toNat (ha : PageAligned a) : (a + 12).toNat = a.toNat + 12 ∧ vpage (a + 12) = vpage a ∧
    block2arena (a + 12) = a := by
  have hlt := a.isLt
  unfold PageAligned at ha
  have hnat : (a + 12).toNat = a.toNat + 12 := by
    have hword : (12 : Word).toNat = 12 := rfl
    rw [BitVec.toNat_add]
    omega
  refine ⟨hnat, by unfold vpage; omega, BitVec.eq_of_toNat_eq ?_⟩
  rw [block2arena_toNat]
  omega

theorem mem_large_pages (b : Alloc) : vpage b.ptr ∈ b.pages := by
  have := pageCount_pos b.size
  exact List.mem_map.2 ⟨0, List.mem_range.2 this, rfl⟩

/-- The count of an arena is written. -/
theorem HeapRepr.setCount (h : HeapRepr W D H cnt) (hp : Placed D H) (ha : a ∈ H.pages c) (k : Nat) :
    HeapRepr (update W (a + 4) (BitVec.ofNat 32 k)) D H (update cnt a k) := by
  obtain ⟨-, hword, -⟩ := hp.header_arena ha
  have haligned := hp.aligned c a ha
  have hpage := (vpage_header haligned).1
  have hdesc : ∀ v, DescWord D v → update W (a + 4) (BitVec.ofNat 32 k) v = W v := by
    intro v hv
    refine update_of_ne ?_ _ _
    rintro rfl
    exact hp.desc_not_header hv hword
  refine ⟨fun c => ?_, ?_, h.members, fun c' a' ha' => ?_, fun b hb => ?_⟩
  · rw [hdesc _ ⟨c, .inl rfl⟩, hdesc _ ⟨c, .inr rfl⟩]
    exact h.sizes c
  · refine h.lists.congr fun x hx => ?_
    obtain ⟨hne, hne'⟩ := hp.node_ne_header (h.nodes x hx) hword
    exact ⟨update_of_ne hne'.symm _ _, update_of_ne hne.symm _ _⟩
  · by_cases he : a' = a
    · subst he
      obtain ⟨hfour, height⟩ := header_toNat haligned
      have hheader := h.arenas c' a' ha'
      refine ⟨?_, ?_, ?_⟩
      · rw [update_of_ne, hheader.desc]
        intro he
        have := congrArg BitVec.toNat he
        omega
      · rw [update_self, update_self]
      · rw [update_of_ne, hheader.large]
        intro he
        have := congrArg BitVec.toNat he
        omega
    · rw [update_of_ne he]
      refine (h.arenas c' a' ha').update (hp.aligned c' a' ha') ?_
      rw [hpage]
      exact fun hv => he (hp.arena_unique ha ha' hv).2.symm
  · refine (h.large b hb).update (pageAligned_block2arena _) ?_
    rw [hpage, vpage_block2arena]
    intro hv
    exact hp.arena_not_large ha hb (hv ▸ mem_large_pages b)

end HoloOS
