import HoloOS.HeapArenas
import Mathlib.Data.List.Perm.Basic

/-! What `sysMalloc` and `sysFree` do to the arenas: a block is taken from a free list or put back, an arena is made
of a new page or given up. Every block of an arena stays either live or free, and each move is matched by the words. -/

namespace HoloOS

open Function Paging

variable {D a a' x y v p : Word} {c c' : Fin 7} {W W' : Word → Word} {cnt : Word → Nat} {b : Alloc} {H : Arenas}

structure HeapWf (D : Word) (H : Arenas) : Prop extends Placed D H where
  blocks : ∀ c, ((H.pages c).flatMap (HoloOS.blocks c)).Perm (H.free c ++ H.used c)

/-- Every arena has a live block. -/
def Busy (H : Arenas) : Prop := ∀ c, ∀ a ∈ H.pages c, ∃ p ∈ H.used c, vpage p = vpage a

/-- How many blocks of the arena are on the list. -/
def freeIn (a : Word) (l : List Word) : Nat := l.countP fun x => vpage x = vpage a

theorem Placed.block_unique (hp : Placed D H) (ha : a ∈ H.pages c) (hx : x ∈ blocks c a) (ha' : a' ∈ H.pages c')
    (hx' : x ∈ blocks c' a') : c = c' ∧ a = a' := by
  have hpage := (hp.inArena ha hx).page
  have hpage' := (hp.inArena ha' hx').page
  exact hp.arena_unique ha ha' (hpage.symm.trans hpage')

theorem Placed.blocks_nodup (hp : Placed D H) (c : Fin 7) : ((H.pages c).flatMap (HoloOS.blocks c)).Nodup := by
  rw [List.nodup_flatMap]
  refine ⟨fun a ha => HoloOS.blocks_nodup (hp.aligned c a ha), ?_⟩
  refine (List.Nodup.of_map _ (hp.pages_nodup c)).imp_of_mem fun {a a'} ha ha' hne x hx hx' => hne ?_
  exact (hp.block_unique ha hx ha' hx').2

namespace HeapWf

variable (h : HeapWf D H)
include h

theorem nodup_all (c : Fin 7) : (H.free c ++ H.used c).Nodup :=
  (h.blocks c).nodup_iff.1 (h.toPlaced.blocks_nodup c)

theorem mem_free (hx : x ∈ H.free c) : ∃ a ∈ H.pages c, x ∈ HoloOS.blocks c a :=
  List.mem_flatMap.1 ((h.blocks c).mem_iff.2 (List.mem_append_left _ hx))

theorem mem_used (hx : x ∈ H.used c) : ∃ a ∈ H.pages c, x ∈ HoloOS.blocks c a :=
  List.mem_flatMap.1 ((h.blocks c).mem_iff.2 (List.mem_append_right _ hx))

theorem free_or_used (ha : a ∈ H.pages c) (hx : x ∈ HoloOS.blocks c a) : x ∈ H.free c ∨ x ∈ H.used c :=
  List.mem_append.1 ((h.blocks c).mem_iff.1 (List.mem_flatMap.2 ⟨a, ha, hx⟩))

theorem not_free_of_used (hx : x ∈ H.used c) : x ∉ H.free c :=
  fun hx' => (List.nodup_append.1 (h.nodup_all c)).2.2 x hx' x hx rfl

/-- The blocks of an arena, counted. -/
theorem count (ha : a ∈ H.pages c) : freeIn a (H.free c) + freeIn a (H.used c) = blocksPerArena c := by
  have hperm := h.blocks c
  have hcons := (List.perm_cons_erase ha).flatMap_right (HoloOS.blocks c)
  have hcount := ((hperm.symm.trans hcons).countP_eq fun x => vpage x = vpage a)
  rw [List.countP_append, List.flatMap_cons, List.countP_append] at hcount
  have hfirst : (HoloOS.blocks c a).countP (fun x => vpage x = vpage a) = blocksPerArena c := by
    rw [List.countP_eq_length.2, blocks_length]
    intro x hx
    exact decide_eq_true (h.inArena ha hx).page
  have hrest : (((H.pages c).erase a).flatMap (HoloOS.blocks c)).countP (fun x => vpage x = vpage a) = 0 := by
    rw [List.countP_eq_zero]
    intro x hx hv
    obtain ⟨a', ha', hx'⟩ := List.mem_flatMap.1 hx
    have hnodup := List.Nodup.of_map _ (h.pages_nodup c)
    obtain ⟨hne, hm⟩ := hnodup.mem_erase_iff.1 ha'
    have hpage := (h.inArena hm hx').page
    exact hne (h.arena_unique hm ha (hpage.symm.trans (of_decide_eq_true hv))).2
  unfold freeIn
  omega

/-- The count of an arena is full when none of its blocks is live. -/
theorem full_iff (ha : a ∈ H.pages c) :
    freeIn a (H.free c) = blocksPerArena c ↔ ∀ p ∈ H.used c, vpage p ≠ vpage a := by
  have hcount := h.count ha
  have hzero : freeIn a (H.used c) = 0 ↔ ∀ p ∈ H.used c, vpage p ≠ vpage a := by
    unfold freeIn
    rw [List.countP_eq_zero]
    exact forall₂_congr fun p _ => not_congr decide_eq_true_iff
  rw [← hzero]
  omega

end HeapWf

namespace Arenas

/-- The first free block of a descriptor is taken. -/
def take (H : Arenas) (c : Fin 7) (b : Alloc) : Arenas :=
  { H with free := update H.free c (H.free c).tail, live := b :: H.live }

/-- A block is put at the end of the free list. -/
def put (H : Arenas) (c : Fin 7) (b : Alloc) : Arenas :=
  { H with free := update H.free c (H.free c ++ [b.ptr]), live := H.live.erase b }

/-- A new arena for a descriptor without free blocks. -/
def build (H : Arenas) (c : Fin 7) (a : Word) : Arenas :=
  { H with pages := update H.pages c (a :: H.pages c), free := update H.free c (HoloOS.blocks c a) }

/-- An arena is given up. -/
def giveUp (H : Arenas) (c : Fin 7) (a : Word) : Arenas :=
  { H with
    pages := update H.pages c ((H.pages c).erase a)
    free := update H.free c ((H.free c).diff (HoloOS.blocks c a)) }

/-- Pages of their own for an allocation, and given back. -/
def addLarge (H : Arenas) (b : Alloc) : Arenas := { H with live := b :: H.live }

def dropLarge (H : Arenas) (b : Alloc) : Arenas := { H with live := H.live.erase b }

end Arenas

variable {H' : Arenas} {rest : List Word}

theorem InClass.not_large (h : InClass b.size c) : ¬b.Large := Nat.not_lt.2 h.small

theorem Alloc.Large.not_inClass (h : b.Large) (c : Fin 7) : ¬InClass b.size c := fun hc => hc.not_large h

theorem used_cons {f : Fin 7 → List Word} {pages : Fin 7 → List Word} {live : List Alloc} :
    Arenas.used ⟨pages, f, b :: live⟩ c =
      if InClass b.size c then b.ptr :: Arenas.used ⟨pages, f, live⟩ c else Arenas.used ⟨pages, f, live⟩ c := by
  unfold Arenas.used
  by_cases hc : InClass b.size c
  · simp [hc]
  · simp [hc]

theorem large_cons {f : Fin 7 → List Word} {pages : Fin 7 → List Word} {live : List Alloc} :
    Arenas.large ⟨pages, f, b :: live⟩ =
      if b.Large then b :: Arenas.large ⟨pages, f, live⟩ else Arenas.large ⟨pages, f, live⟩ := by
  unfold Arenas.large
  by_cases hb : b.Large
  · simp [hb]
  · simp [hb]

/-- The live blocks with one taken out. -/
theorem used_erase (hb : b ∈ H.live) (c : Fin 7) : (H.used c).Perm
    (if InClass b.size c then b.ptr :: (H.dropLarge b).used c else (H.dropLarge b).used c) := by
  have hperm := ((List.perm_cons_erase hb).filter fun b => InClass b.size c).map Alloc.ptr
  have hcons : Arenas.used ⟨H.pages, H.free, b :: H.live.erase b⟩ c =
      if InClass b.size c then b.ptr :: (H.dropLarge b).used c else (H.dropLarge b).used c := used_cons
  exact hperm.trans (List.Perm.of_eq hcons)

theorem large_erase (hb : b ∈ H.live) : H.large.Perm
    (if b.Large then b :: (H.dropLarge b).large else (H.dropLarge b).large) := by
  have hperm := (List.perm_cons_erase hb).filter fun b => b.Large
  have hcons : Arenas.large ⟨H.pages, H.free, b :: H.live.erase b⟩ =
      if b.Large then b :: (H.dropLarge b).large else (H.dropLarge b).large := large_cons
  exact hperm.trans (List.Perm.of_eq hcons)

theorem flatMap_update {α : Type} {l : List (Fin 7)} (hl : l.Nodup) (hc : c ∈ l) {f : Fin 7 → List α} {z : α}
    {ys : List α} (hys : ys.Perm (z :: f c)) : (l.flatMap (update f c ys)).Perm (z :: l.flatMap f) := by
  have hperm := List.perm_cons_erase hc
  have hrest : (l.erase c).flatMap (update f c ys) = (l.erase c).flatMap f := by
    refine List.flatMap_congr fun c' hc' => ?_
    rw [update_of_ne (hl.mem_erase_iff.1 hc').1]
  refine ((hperm.flatMap_right _).trans ?_).trans ((hperm.flatMap_right f).symm.cons z)
  rw [List.flatMap_cons, List.flatMap_cons, update_self, hrest, ← List.cons_append]
  exact hys.append_right _

theorem allPages_perm (hpages : H'.pages = H.pages) (hlarge : H'.large.Perm H.large) :
    H'.allPages.Perm H.allPages := by
  unfold Arenas.allPages
  rw [hpages]
  exact (hlarge.flatMap_right _).append_left _

theorem Placed.of_perm (h : Placed D H) (hpages : H'.pages = H.pages) (hlarge : H'.large.Perm H.large) :
    Placed D H' where
  fit := h.fit
  aligned := by
    rw [hpages]
    exact h.aligned
  large b hb := h.large b (hlarge.mem_iff.1 hb)
  nodup := (allPages_perm hpages hlarge).nodup_iff.2 h.nodup
  far n hn := h.far n ((allPages_perm hpages hlarge).mem_iff.1 hn)

/-- An arena is one page more. -/
theorem allPages_cons {ys : List Word} (hys : ys.Perm (a :: H.pages c)) (hlarge : H'.large.Perm H.large)
    (hpages : H'.pages = update H.pages c ys) :
    H'.allPages.Perm (vpage a :: H.allPages) := by
  have hmap : (fun c' => (H'.pages c').map vpage) = update (fun c' => (H.pages c').map vpage) c (ys.map vpage) := by
    funext c'
    rw [hpages]
    by_cases he : c' = c
    · subst he
      rw [update_self, update_self]
    · rw [update_of_ne he, update_of_ne he]
  unfold Arenas.allPages
  rw [hmap, ← List.cons_append]
  refine List.Perm.append ?_ (hlarge.flatMap_right _)
  exact flatMap_update (List.nodup_finRange 7) (List.mem_finRange c) (hys.map vpage)

namespace HeapWf

variable (h : HeapWf D H)
include h

theorem take (hc : InClass b.size c) (hfree : H.free c = b.ptr :: rest) : HeapWf D (H.take c b) := by
  have hlarge : (H.take c b).large = H.large := large_cons.trans (if_neg hc.not_large)
  have hplaced : Placed D (H.take c b) := h.of_perm rfl (List.Perm.of_eq hlarge)
  refine { hplaced with blocks := fun c' => ?_ }
  have hblocks := h.blocks c'
  have hused : (H.take c b).used c' = if InClass b.size c' then b.ptr :: H.used c' else H.used c' := used_cons
  rw [hused]
  by_cases he : c' = c
  · subst he
    rw [if_pos hc]
    change List.Perm _ (update H.free c' (H.free c').tail c' ++ _)
    rw [update_self]
    rw [hfree] at hblocks ⊢
    exact hblocks.trans List.perm_middle.symm
  · rw [if_neg fun hc' => he (hc'.unique hc)]
    change List.Perm _ (update H.free c (H.free c).tail c' ++ _)
    rw [update_of_ne he]
    exact hblocks

theorem put (hb : b ∈ H.live) (hc : InClass b.size c) : HeapWf D (H.put c b) := by
  have hlarge : H.large.Perm (H.put c b).large := (large_erase hb).trans (List.Perm.of_eq (if_neg hc.not_large))
  have hplaced : Placed D (H.put c b) := h.of_perm rfl hlarge.symm
  refine { hplaced with blocks := fun c' => ?_ }
  have hblocks := h.blocks c'
  have hused := used_erase hb c'
  by_cases he : c' = c
  · subst he
    rw [if_pos hc] at hused
    change List.Perm _ (update H.free c' (H.free c' ++ [b.ptr]) c' ++ _)
    rw [update_self, List.append_assoc]
    exact hblocks.trans (hused.append_left _)
  · rw [if_neg fun hc' => he (hc'.unique hc)] at hused
    change List.Perm _ (update H.free c (H.free c ++ [b.ptr]) c' ++ _)
    rw [update_of_ne he]
    exact hblocks.trans (hused.append_left _)

/-- A new page for blocks. -/
theorem build (hfree : H.free c = []) (ha : PageAligned a) (hnew : vpage a ∉ H.allPages) (hfar : Far D (vpage a)) :
    HeapWf D (H.build c a) := by
  have hpages : (H.build c a).allPages.Perm (vpage a :: H.allPages) :=
    allPages_cons (List.Perm.refl _) (List.Perm.refl _) rfl
  have hmem : ∀ c', (H.build c a).pages c' = if c' = c then a :: H.pages c else H.pages c' := by
    intro c'
    change update H.pages c (a :: H.pages c) c' = _
    by_cases he : c' = c
    · subst he
      rw [update_self, if_pos rfl]
    · rw [update_of_ne he, if_neg he]
  refine ⟨⟨h.fit, fun c' a' ha' => ?_, h.large, ?_, fun n hn => ?_⟩, fun c' => ?_⟩
  · rw [hmem] at ha'
    split at ha'
    next he =>
      rcases List.mem_cons.1 ha' with rfl | hold
      · exact ha
      · exact h.aligned c a' hold
    next => exact h.aligned c' a' ha'
  · exact hpages.nodup_iff.2 (List.nodup_cons.2 ⟨hnew, h.nodup⟩)
  · rcases List.mem_cons.1 (hpages.mem_iff.1 hn) with rfl | hold
    · exact hfar
    · exact h.far n hold
  · have hblocks := h.blocks c'
    rw [hmem]
    change List.Perm _ (update H.free c (HoloOS.blocks c a) c' ++ H.used c')
    by_cases he : c' = c
    · subst he
      rw [if_pos rfl, update_self, List.flatMap_cons]
      rw [hfree] at hblocks
      exact hblocks.append_left _
    · rw [if_neg he, update_of_ne he]
      exact hblocks

theorem diff_perm (ha : a ∈ H.pages c) (hfull : ∀ x ∈ HoloOS.blocks c a, x ∈ H.free c) :
    (H.free c).Perm (HoloOS.blocks c a ++ (H.free c).diff (HoloOS.blocks c a)) := by
  refine (List.subperm_append_diff_self_of_count_le fun x hx => ?_).symm
  have hnodup : (HoloOS.blocks c a).Nodup := HoloOS.blocks_nodup (h.aligned c a ha)
  rw [List.count_eq_one_of_mem hnodup hx]
  exact List.count_pos_iff.2 (hfull x hx)

omit h in
/-- The pages of a heap that has given up an arena. -/
theorem giveUp_pages (ha : a ∈ H.pages c) : H.allPages.Perm (vpage a :: (H.giveUp c a).allPages) := by
  have hys : (H.pages c).Perm (a :: (H.giveUp c a).pages c) := by
    change (H.pages c).Perm (a :: update H.pages c ((H.pages c).erase a) c)
    rw [update_self]
    exact List.perm_cons_erase ha
  refine allPages_cons hys (List.Perm.refl _) ?_
  change H.pages = update (update H.pages c ((H.pages c).erase a)) c (H.pages c)
  rw [update_idem, update_eq_self]

theorem giveUp (ha : a ∈ H.pages c) (hfull : ∀ x ∈ HoloOS.blocks c a, x ∈ H.free c) : HeapWf D (H.giveUp c a) := by
  have hpages := giveUp_pages ha
  have hmem : ∀ c', ∀ a' ∈ (H.giveUp c a).pages c', a' ∈ H.pages c' := by
    intro c' a' ha'
    change a' ∈ update H.pages c ((H.pages c).erase a) c' at ha'
    by_cases he : c' = c
    · subst he
      rw [update_self] at ha'
      exact List.mem_of_mem_erase ha'
    · rw [update_of_ne he] at ha'
      exact ha'
  have hnodup := hpages.nodup_iff.1 h.nodup
  refine ⟨⟨h.fit, fun c' a' ha' => h.aligned c' a' (hmem c' a' ha'), h.large, (List.nodup_cons.1 hnodup).2,
    fun n hn => h.far n (hpages.mem_iff.2 (List.mem_cons_of_mem _ hn))⟩, fun c' => ?_⟩
  have hblocks := h.blocks c'
  change List.Perm ((update H.pages c ((H.pages c).erase a) c').flatMap _)
    (update H.free c ((H.free c).diff (HoloOS.blocks c a)) c' ++ H.used c')
  by_cases he : c' = c
  · subst he
    rw [update_self, update_self]
    have hcons := (List.perm_cons_erase ha).flatMap_right (HoloOS.blocks c')
    rw [List.flatMap_cons] at hcons
    have hdiff := (h.diff_perm ha hfull).append_right (H.used c')
    rw [List.append_assoc] at hdiff
    exact (List.perm_append_left_iff (HoloOS.blocks c' a)).1 ((hcons.symm.trans hblocks).trans hdiff)
  · rw [update_of_ne he, update_of_ne he]
    exact hblocks

end HeapWf

/-- A large allocation is pages more. -/
theorem allPages_addLarge (hb : b.Large) : (H.addLarge b).allPages.Perm (b.pages ++ H.allPages) := by
  have hlarge : (H.addLarge b).large = b :: H.large := large_cons.trans (if_pos hb)
  unfold Arenas.allPages
  rw [hlarge, List.flatMap_cons, ← List.append_assoc, ← List.append_assoc]
  exact List.perm_append_comm.append_right _

theorem allPages_dropLarge (hm : b ∈ H.live) (hb : b.Large) :
    H.allPages.Perm (b.pages ++ (H.dropLarge b).allPages) := by
  have hlarge := large_erase hm
  rw [if_pos hb] at hlarge
  have hcons : ((H.dropLarge b).addLarge b).large = b :: (H.dropLarge b).large := large_cons.trans (if_pos hb)
  rw [← hcons] at hlarge
  have hperm : H.allPages.Perm ((H.dropLarge b).addLarge b).allPages := allPages_perm rfl hlarge
  exact hperm.trans (allPages_addLarge hb)

namespace HeapWf

variable (h : HeapWf D H)
include h

theorem addLarge (hb : b.Large) (hptr : b.ptr.toNat % 4096 = 12) (hnew : ∀ n ∈ b.pages, n ∉ H.allPages)
    (hfar : ∀ n ∈ b.pages, Far D n) : HeapWf D (H.addLarge b) := by
  have hpages := allPages_addLarge (H := H) hb
  have hnodup : b.pages.Nodup := List.nodup_range.map fun i j he => by simpa using he
  refine ⟨⟨h.fit, h.aligned, fun b' hb' => ?_, ?_, fun n hn => ?_⟩, fun c' => ?_⟩
  · have hlarge : (H.addLarge b).large = b :: H.large := large_cons.trans (if_pos hb)
    rw [hlarge] at hb'
    rcases List.mem_cons.1 hb' with rfl | hold
    · exact hptr
    · exact h.large b' hold
  · exact hpages.nodup_iff.2 (List.nodup_append.2 ⟨hnodup, h.nodup, fun n hn m hm he => hnew n hn (he ▸ hm)⟩)
  · rcases List.mem_append.1 (hpages.mem_iff.1 hn) with hn | hold
    · exact hfar n hn
    · exact h.far n hold
  · have hused : (H.addLarge b).used c' = H.used c' := used_cons.trans (if_neg (hb.not_inClass c'))
    rw [hused]
    exact h.blocks c'

theorem dropLarge (hm : b ∈ H.live) (hb : b.Large) : HeapWf D (H.dropLarge b) := by
  have hpages := allPages_dropLarge hm hb
  have hlarge := large_erase hm
  rw [if_pos hb] at hlarge
  refine ⟨⟨h.fit, h.aligned, fun b' hb' => h.large b' (hlarge.mem_iff.2 (List.mem_cons_of_mem _ hb')),
    (List.nodup_append.1 (hpages.nodup_iff.1 h.nodup)).2.1,
    fun n hn => h.far n (hpages.mem_iff.2 (List.mem_append_right _ hn))⟩, fun c' => ?_⟩
  have hused := used_erase hm c'
  rw [if_neg (hb.not_inClass c')] at hused
  exact (h.blocks c').trans (hused.append_left _)

end HeapWf

/-- A heap with the same arenas and free lists. -/
theorem HeapRepr.mono (h : HeapRepr W D H cnt) (hpages : H'.pages = H.pages) (hfree : H'.free = H.free)
    (hlarge : ∀ b ∈ H'.large, b ∈ H.large) : HeapRepr W D H' cnt where
  sizes := h.sizes
  lists := by
    rw [hfree]
    exact h.lists
  members := by
    rw [hfree, hpages]
    exact h.members
  arenas := by
    rw [hpages]
    exact h.arenas
  large b hb := h.large b (hlarge b hb)

/-- The counts in the headers are those of the free lists. -/
def Counts (H : Arenas) (cnt : Word → Nat) : Prop := ∀ c, ∀ a ∈ H.pages c, cnt a = freeIn a (H.free c)

section Moves

variable {W₁ : Word → Word} {size : Word} {k : Nat}

theorem HeapRepr.take (h : HeapRepr W D H cnt) (hwf : HeapWf D H) (hc : InClass size c) (hfree : H.free c = p :: rest)
    (ha : a ∈ H.pages c) (hblock : p ∈ blocks c a)
    (hlists : Family (freeLists D) (links W₁) (update H.free c rest))
    (hframe : ∀ v, ClearOf (freeLists D c) (H.free c) v → W₁ v = W v) (k : Nat) :
    HeapRepr (update (clearRange W₁ p.toNat (blockSize c)) (a + 4) (BitVec.ofNat 32 k)) D (H.take c ⟨p, size⟩)
      (update cnt a k) := by
  have hrest : ∀ x ∈ rest, x ∈ H.free c := by
    intro x hx
    rw [hfree]
    exact List.mem_cons_of_mem _ hx
  have hrelink := h.relink hwf.toPlaced hlists hframe (fun y hy => hwf.mem_free hy) fun x hx =>
    hwf.mem_free (hrest x hx)
  have hplaced : Placed D { H with free := update H.free c rest } := hwf.toPlaced.of_perm rfl (List.Perm.refl _)
  have hout : p ∉ (Arenas.mk H.pages (update H.free c rest) H.live).free c := by
    change p ∉ update H.free c rest c
    rw [update_self]
    have hnodup := (List.nodup_append.1 (hwf.nodup_all c)).1
    rw [hfree] at hnodup
    exact (List.nodup_cons.1 hnodup).1
  have hset := (hrelink.clear hplaced ha hblock hout).setCount hplaced ha k
  refine hset.mono rfl ?_ fun b hb => ?_
  · change update H.free c (H.free c).tail = update H.free c rest
    rw [hfree]
    rfl
  · have hlarge : (H.take c ⟨p, size⟩).large = H.large := large_cons.trans (if_neg (InClass.not_large hc))
    rw [hlarge] at hb
    exact hb

theorem HeapRepr.put (h : HeapRepr W D H cnt) (hwf : HeapWf D H) (hb : b ∈ H.live) (hc : InClass b.size c)
    (ha : a ∈ H.pages c)
    (hlists : Family (freeLists D) (links W₁) (update H.free c (H.free c ++ [b.ptr])))
    (hframe : ∀ v, ClearOf (freeLists D c) (b.ptr :: H.free c) v → W₁ v = W v) (k : Nat) :
    HeapRepr (update W₁ (a + 4) (BitVec.ofNat 32 k)) D (H.put c b) (update cnt a k) := by
  have hused : b.ptr ∈ H.used c := List.mem_map_of_mem (List.mem_filter.2 ⟨hb, decide_eq_true hc⟩)
  have hrelink := h.relink hwf.toPlaced hlists hframe (fun y hy => ?_) fun x hx => ?_
  · have hplaced : Placed D { H with free := update H.free c (H.free c ++ [b.ptr]) } :=
      hwf.toPlaced.of_perm rfl (List.Perm.refl _)
    refine (hrelink.setCount hplaced ha k).mono rfl rfl fun b' hb' => ?_
    have hlarge := large_erase hb
    rw [if_neg (InClass.not_large hc)] at hlarge
    exact hlarge.mem_iff.2 hb'
  · rcases List.mem_cons.1 hy with rfl | hy
    · exact hwf.mem_used hused
    · exact hwf.mem_free hy
  · rcases List.mem_append.1 hx with hx | hx
    · exact hwf.mem_free hx
    · rw [List.mem_singleton.1 hx]
      exact hwf.mem_used hused

/-- An arena without free blocks on the list is given up. -/
theorem HeapRepr.giveUp (h : HeapRepr W D { H with free := update H.free c ((H.free c).diff (blocks c a)) } cnt)
    (hwf : HeapWf D H) : HeapRepr W D (H.giveUp c a) cnt := by
  have hmem : ∀ c', ∀ a' ∈ (H.giveUp c a).pages c', a' ∈ H.pages c' := by
    intro c' a' ha'
    change a' ∈ update H.pages c ((H.pages c).erase a) c' at ha'
    by_cases he : c' = c
    · subst he
      rw [update_self] at ha'
      exact List.mem_of_mem_erase ha'
    · rw [update_of_ne he] at ha'
      exact ha'
  refine ⟨h.sizes, h.lists, fun c' x hx => ?_, fun c' a' ha' => h.arenas c' a' (hmem c' a' ha'), h.large⟩
  obtain ⟨a', ha', hblock⟩ := h.members c' x hx
  refine ⟨a', ?_, hblock⟩
  change a' ∈ update H.pages c ((H.pages c).erase a) c'
  by_cases he : c' = c
  · subst he
    rw [update_self]
    change x ∈ update H.free c' ((H.free c').diff (blocks c' a)) c' at hx
    rw [update_self] at hx
    have hnodup := (List.nodup_append.1 (hwf.nodup_all c')).1
    have hout : x ∉ blocks c' a := (hnodup.mem_sdiff_iff.1 hx).2
    have hne : a' ≠ a := by
      rintro rfl
      exact hout hblock
    exact (List.mem_erase_of_ne hne).2 ha'
  · rw [update_of_ne he]
    exact ha'

end Moves

/-- The words that belong to a heap: those of its descriptors and of its pages. -/
def Zone (D : Word) (H : Arenas) (v : Word) : Prop :=
  (D.toNat ≤ v.toNat ∧ v.toNat < D.toNat + 168) ∨ vpage v ∈ H.allPages

namespace Placed

variable (hp : Placed D H)
include hp

theorem zone_node (hx : HeapNode D H.pages x) : Zone D H x ∧ Zone D H (x + 4) := by
  obtain ⟨hnext, ⟨c, hx⟩ | ⟨c, a, ha, hin⟩⟩ := hp.node_toNat hx
  · have hc := c.isLt
    exact ⟨.inl (by omega), .inl (by omega)⟩
  · have hpage := hin.page
    have hlow := hin.low
    have hhigh := hin.high
    have hpos := blockSize_pos c
    have hm : vpage a ∈ H.allPages := mem_allPages.2 (.inl ⟨c, a, ha, rfl⟩)
    have hx : vpage x = vpage a := hpage
    have hx' : vpage (x + 4) = vpage a := by
      unfold vpage
      omega
    exact ⟨.inr (by rw [hx]; exact hm), .inr (by rw [hx']; exact hm)⟩

theorem zone_desc (hv : DescWord D v) : Zone D H v := by
  have hfit := hp.fit
  unfold DescsFit at hfit
  obtain ⟨c, rfl | rfl⟩ := hv
  · have hdesc := descAt_toNat hp.fit c
    have hc := c.isLt
    exact .inl (by omega)
  · have hdesc := descAt_toNat hp.fit c
    have hc := c.isLt
    have hnext := next_toNat (v := descAt D c) (by omega)
    exact .inl (by omega)

omit hp in
/-- A page that is new to the heap has none of its words. -/
theorem zone_ne {n : Nat} (hnew : n ∉ H.allPages) (hfar : Far D n) (hv : Zone D H v) : vpage v ≠ n := by
  rintro rfl
  unfold Far vpage at hfar
  rcases hv with hv | hv
  · omega
  · exact hnew hv

end Placed

/-- Words that agree on the heap. -/
theorem HeapRepr.zone (h : HeapRepr W D H cnt) (hp : Placed D H) (hsame : ∀ v, Zone D H v → W' v = W v) :
    HeapRepr W' D H cnt := by
  refine h.congr hp (fun v hv => hsame v (hp.zone_desc hv)) (fun x hx => ?_) fun v hv => hsame v (.inr hv.1)
  obtain ⟨hx₀, hx₁⟩ := hp.zone_node (h.nodes x hx)
  exact ⟨hsame x hx₀, hsame _ hx₁⟩

/-- A page with the header of an arena. -/
theorem HeapRepr.addPage (h : HeapRepr W D H cnt) (hnew : vpage a ∉ H.allPages) {k : Nat}
    (hheader : Header W a (descAt D c) (BitVec.ofNat 32 k) 0) :
    HeapRepr W D { H with pages := update H.pages c (a :: H.pages c) } (update cnt a k) := by
  have hold : ∀ c', ∀ a' ∈ H.pages c', update cnt a k a' = cnt a' := by
    intro c' a' ha'
    refine update_of_ne ?_ _ _
    rintro rfl
    exact hnew (mem_allPages.2 (.inl ⟨c', a', ha', rfl⟩))
  have hmem : ∀ c', ∀ a' ∈ H.pages c', a' ∈ update H.pages c (a :: H.pages c) c' := by
    intro c' a' ha'
    by_cases he : c' = c
    · subst he
      rw [update_self]
      exact List.mem_cons_of_mem _ ha'
    · rw [update_of_ne he]
      exact ha'
  refine ⟨h.sizes, h.lists, fun c' x hx => ?_, fun c' a' ha' => ?_, h.large⟩
  · obtain ⟨a', ha', hblock⟩ := h.members c' x hx
    exact ⟨a', hmem c' a' ha', hblock⟩
  · change a' ∈ update H.pages c (a :: H.pages c) c' at ha'
    by_cases he : c' = c
    · subst he
      rw [update_self] at ha'
      rcases List.mem_cons.1 ha' with rfl | ha'
      · rw [update_self]
        exact hheader
      · rw [hold c' a' ha']
        exact h.arenas c' a' ha'
    · rw [update_of_ne he] at ha'
      rw [hold c' a' ha']
      exact h.arenas c' a' ha'

/-- A large allocation with its header. -/
theorem HeapRepr.addLarge (h : HeapRepr W D H cnt) (hb : b.Large)
    (hheader : Header W (block2arena b.ptr) 0 (BitVec.ofNat 32 (pageCount b.size)) 1) :
    HeapRepr W D (H.addLarge b) cnt where
  sizes := h.sizes
  lists := h.lists
  members := h.members
  arenas := h.arenas
  large b' hb' := by
    have hlarge : (H.addLarge b).large = b :: H.large := large_cons.trans (if_pos hb)
    rw [hlarge] at hb'
    rcases List.mem_cons.1 hb' with rfl | hold
    · exact hheader
    · exact h.large b' hold

theorem freeIn_cons (a p : Word) (l : List Word) :
    freeIn a (p :: l) = freeIn a l + if vpage p = vpage a then 1 else 0 := by
  unfold freeIn
  rw [List.countP_cons]
  simp

theorem freeIn_append (a : Word) (l l' : List Word) : freeIn a (l ++ l') = freeIn a l + freeIn a l' :=
  List.countP_append

/-- The blocks of one arena are in no other. -/
theorem Placed.freeIn_blocks (hp : Placed D H) (ha : a ∈ H.pages c) (ha' : a' ∈ H.pages c) :
    freeIn a' (blocks c a) = if a' = a then blocksPerArena c else 0 := by
  unfold freeIn
  split
  next he =>
    rw [he, List.countP_eq_length.2, blocks_length]
    intro x hx
    exact decide_eq_true (hp.inArena ha hx).page
  next hne =>
    rw [List.countP_eq_zero]
    intro x hx hv
    have hpage := (hp.inArena ha hx).page
    exact hne (hp.arena_unique ha' ha ((of_decide_eq_true hv).symm.trans hpage)).2

theorem Counts.take (h : Counts H cnt) (hp : Placed D H) (hfree : H.free c = p :: rest) (ha : a ∈ H.pages c)
    (hpa : vpage p = vpage a) {n : Nat} (hn : cnt a = n + 1) : Counts (H.take c b) (update cnt a n) := by
  intro c' a' ha'
  change _ = freeIn a' (update H.free c (H.free c).tail c')
  have hold := h c' a' ha'
  by_cases hc : c' = c
  · subst hc
    rw [update_self, hfree, List.tail_cons]
    rw [hfree, freeIn_cons] at hold
    by_cases he : a' = a
    · subst he
      rw [update_self]
      rw [if_pos hpa] at hold
      omega
    · rw [update_of_ne he]
      rw [if_neg fun hv => he (hp.arena_unique ha ha' (hpa.symm.trans hv)).2.symm] at hold
      exact hold
  · have hne : a' ≠ a := by
      rintro rfl
      exact hc (hp.arena_unique ha' ha rfl).1
    rw [update_of_ne hc, update_of_ne hne]
    exact hold

theorem Counts.put (h : Counts H cnt) (hp : Placed D H) (ha : a ∈ H.pages c) (hpa : vpage b.ptr = vpage a) {n : Nat}
    (hn : cnt a = n) : Counts (H.put c b) (update cnt a (n + 1)) := by
  intro c' a' ha'
  change _ = freeIn a' (update H.free c (H.free c ++ [b.ptr]) c')
  have hold := h c' a' ha'
  by_cases hc : c' = c
  · subst hc
    rw [update_self, freeIn_append, freeIn_cons, show freeIn a' [] = 0 from rfl]
    by_cases he : a' = a
    · subst he
      rw [update_self, if_pos hpa]
      omega
    · rw [update_of_ne he, if_neg fun hv => he (hp.arena_unique ha ha' (hpa.symm.trans hv)).2.symm]
      omega
  · have hne : a' ≠ a := by
      rintro rfl
      exact hc (hp.arena_unique ha' ha rfl).1
    rw [update_of_ne hc, update_of_ne hne]
    exact hold

theorem Counts.build (h : Counts H cnt) (hp : Placed D (H.build c a)) (hfree : H.free c = [])
    (hnew : vpage a ∉ H.allPages) :
    Counts (H.build c a) (update cnt a (blocksPerArena c)) := by
  have hmem : a ∈ (H.build c a).pages c := by
    change a ∈ update H.pages c (a :: H.pages c) c
    rw [update_self]
    exact List.mem_cons_self
  intro c' a' ha'
  have hall := ha'
  change a' ∈ update H.pages c (a :: H.pages c) c' at ha'
  change _ = freeIn a' (update H.free c (HoloOS.blocks c a) c')
  by_cases hc : c' = c
  · subst hc
    rw [update_self, hp.freeIn_blocks hmem hall]
    by_cases he : a' = a
    · rw [he, update_self, if_pos rfl]
    · rw [update_of_ne he, if_neg he]
      rw [update_self] at ha'
      have hold := h c' a' ((List.mem_cons.1 ha').resolve_left he)
      rw [hfree] at hold
      exact hold
  · rw [update_of_ne hc] at ha' ⊢
    rw [update_of_ne]
    · exact h c' a' ha'
    · rintro rfl
      exact hnew (mem_allPages.2 (.inl ⟨c', a', ha', rfl⟩))

theorem Counts.giveUp (h : Counts H cnt) (hwf : HeapWf D H) (ha : a ∈ H.pages c)
    (hfull : ∀ x ∈ HoloOS.blocks c a, x ∈ H.free c) : Counts (H.giveUp c a) cnt := by
  intro c' a' ha'
  change a' ∈ update H.pages c ((H.pages c).erase a) c' at ha'
  change _ = freeIn a' (update H.free c ((H.free c).diff (HoloOS.blocks c a)) c')
  by_cases hc : c' = c
  · subst hc
    rw [update_self] at ha' ⊢
    have hnodup := List.Nodup.of_map _ (hwf.pages_nodup c')
    obtain ⟨hne, hm⟩ := hnodup.mem_erase_iff.1 ha'
    have hcount : freeIn a' (H.free c') = freeIn a' (blocks c' a ++ (H.free c').diff (blocks c' a)) :=
      (hwf.diff_perm ha hfull).countP_eq _
    rw [freeIn_append, hwf.toPlaced.freeIn_blocks ha hm, if_neg hne, Nat.zero_add] at hcount
    rw [← hcount]
    exact h c' a' hm
  · rw [update_of_ne hc] at ha' ⊢
    exact h c' a' ha'

end HoloOS
