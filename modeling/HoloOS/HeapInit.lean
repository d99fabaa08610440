import HoloOS.HeapFree

/-! `blockDescInit`: seven descriptors with empty free lists are an empty heap. -/

namespace HoloOS

open Function Paging Linked

variable {s s' : Memory} {dir : Space → Nat} {D K v : Word} {W : Word → Word} {c : Fin 7}

/-- The words of a descriptor whose free list is empty. -/
structure DescInit (W : Word → Word) (D : Word) (c : Fin 7) : Prop where
  size : W (descAt D c) = BitVec.ofNat 32 (blockSize c)
  blocks : W (descAt D c + 4) = BitVec.ofNat 32 (blocksPerArena c)
  next : W (freeListAt D c + 4) = freeListAt D c + 8
  prev : W (freeListAt D c + 8) = freeListAt D c

/-- The addresses that the loop writes for a descriptor. -/
structure DescWords (D : Word) (c : Fin 7) : Prop where
  desc : (descAt D c).toNat = D.toNat + 24 * c.val
  blocks : (descAt D c + 4).toNat = D.toNat + 24 * c.val + 4
  list : (freeListAt D c).toNat = D.toNat + 24 * c.val + 8
  next : (freeListAt D c + 4).toNat = D.toNat + 24 * c.val + 12
  tail : (freeListAt D c + 8).toNat = D.toNat + 24 * c.val + 16
  last : (freeListAt D c + 12).toNat = D.toNat + 24 * c.val + 20

theorem descWords (hD : DescsFit D) (c : Fin 7) : DescWords D c := by
  have hc := c.isLt
  have hdesc := descAt_toNat hD c
  have hlist := freeListAt_toNat hD c
  have hword : (12 : Word).toNat = 12 := rfl
  unfold DescsFit at hD
  refine ⟨hdesc, ?_, hlist, ?_, freeListAt_tail_toNat hD c, ?_⟩
  · rw [next_toNat (by omega), hdesc]
  · rw [next_toNat (by omega), hlist]
  · rw [BitVec.toNat_add, hword]
    omega

theorem DescInit.congr {W' : Word → Word} (h : DescInit W D c) (hD : DescsFit D)
    (hsame : ∀ v : Word, D.toNat + 24 * c.val ≤ v.toNat ∧ v.toNat < D.toNat + 24 * c.val + 24 → W' v = W v) :
    DescInit W' D c := by
  have hwords := descWords hD c
  obtain ⟨hdesc, hblocks, hlist, hnext, htail, -⟩ := hwords
  exact ⟨(hsame _ (by omega)).trans h.size, (hsame _ (by omega)).trans h.blocks, (hsame _ (by omega)).trans h.next,
    (hsame _ (by omega)).trans h.prev⟩

theorem blocksPerArena_word (c : Fin 7) :
    (4096 - 12 : Word) / BitVec.ofNat 32 (blockSize c) = BitVec.ofNat 32 (blocksPerArena c) := by
  have hle := blockSize_le c
  have hbounds := (blocksPerArena_bounds c).2
  have hword : (4096 - 12 : Word).toNat = 4096 - 12 := rfl
  apply BitVec.eq_of_toNat_eq
  rw [BitVec.toNat_udiv, hword, BitVec.toNat_ofNat, BitVec.toNat_ofNat, Nat.mod_eq_of_lt (by omega),
    Nat.mod_eq_of_lt (by omega)]
  rfl

section Init

variable (h : Spaces s dir) (hD : DescsFit D) (hmod : D.toNat % 4 = 0)
  (hacc : ∀ v : Word, D.toNat ≤ v.toNat → v.toNat < D.toNat + 168 → v.toNat % 4 = 0 → Writable s dir v)
include h hD hmod hacc

/-- One descriptor. -/
theorem Wrote.descInit (hw : Wrote s s' dir W) (c : Fin 7) (f : Memory → Except Trap Memory) : ∃ s'' W'', (do
      let s ← s'.store (descAt D c) (BitVec.ofNat 32 (blockSize c))
      let s ← s.store (descAt D c + 4) ((4096 - 12) / BitVec.ofNat 32 (blockSize c))
      let s ← s.listInit (descAt D c + 8)
      f s : Except Trap Memory) = f s'' ∧ Wrote s s'' dir W'' ∧ DescInit W'' D c ∧
      ∀ v : Word, ¬(D.toNat + 24 * c.val ≤ v.toNat ∧ v.toNat < D.toNat + 24 * c.val + 24) → W'' v = W v := by
  obtain ⟨hdesc, hblocks, hlist, hnext, htail, hlast⟩ := descWords hD c
  have hc := c.isLt
  obtain ⟨s₁, hs₁, hw₁⟩ := hw.store h (hacc (descAt D c) (by omega) (by omega) (by omega))
    (BitVec.ofNat 32 (blockSize c))
  obtain ⟨s₂, hs₂, hw₂⟩ := hw₁.store h (hacc (descAt D c + 4) (by omega) (by omega) (by omega))
    ((4096 - 12) / BitVec.ofNat 32 (blockSize c))
  obtain ⟨s₃, hs₃, hw₃⟩ := hw₂.store h (hacc (freeListAt D c) (by omega) (by omega) (by omega)) 0
  obtain ⟨s₄, hs₄, hw₄⟩ := hw₃.store h (hacc (freeListAt D c + 4) (by omega) (by omega) (by omega))
    (freeListAt D c + 8)
  obtain ⟨s₅, hs₅, hw₅⟩ := hw₄.store h (hacc (freeListAt D c + 8) (by omega) (by omega) (by omega)) (freeListAt D c)
  obtain ⟨s₆, hs₆, hw₆⟩ := hw₅.store h (hacc (freeListAt D c + 12) (by omega) (by omega) (by omega)) 0
  have hne : ∀ u v : Word, u.toNat ≠ v.toNat → u ≠ v := fun u v hne he => hne (congrArg _ he)
  refine ⟨s₆, _, ?_, hw₆, ⟨?_, ?_, ?_, ?_⟩, fun v hv => ?_⟩
  · rw [hs₁, ok_bind, hs₂, ok_bind, show descAt D c + 8 = freeListAt D c from rfl, Memory.listInit, hs₃, ok_bind, hs₄,
      ok_bind, hs₅, ok_bind, hs₆, ok_bind]
  · rw [update_of_ne (hne _ _ (by omega)), update_of_ne (hne _ _ (by omega)), update_of_ne (hne _ _ (by omega)),
      update_of_ne (hne _ _ (by omega)), update_of_ne (hne _ _ (by omega)), update_self]
  · rw [update_of_ne (hne _ _ (by omega)), update_of_ne (hne _ _ (by omega)), update_of_ne (hne _ _ (by omega)),
      update_of_ne (hne _ _ (by omega)), update_self]
    exact blocksPerArena_word c
  · rw [update_of_ne (hne _ _ (by omega)), update_of_ne (hne _ _ (by omega)), update_self]
  · rw [update_of_ne (hne _ _ (by omega)), update_self]
  · rw [update_of_ne (hne _ _ (by omega)), update_of_ne (hne _ _ (by omega)), update_of_ne (hne _ _ (by omega)),
      update_of_ne (hne _ _ (by omega)), update_of_ne (hne _ _ (by omega)), update_of_ne (hne _ _ (by omega))]

/-- The loop from descriptor `k` on. -/
theorem Wrote.blockDescLoop (hw : Wrote s s' dir W) (n k : Nat) (hk : k + n = 7)
    (hdone : ∀ c : Fin 7, c.val < k → DescInit W D c) :
    ∃ s'' W'', HoloOS.blockDescLoop n (D + BitVec.ofNat 32 (24 * k)) (BitVec.ofNat 32 (16 * 2 ^ k)) s' = .ok s'' ∧
      Wrote s s'' dir W'' ∧ (∀ c, DescInit W'' D c) ∧
      ∀ v : Word, ¬(D.toNat ≤ v.toNat ∧ v.toNat < D.toNat + 168) → W'' v = W v := by
  induction n generalizing k s' W with
  | zero => exact ⟨s', W, rfl, hw, fun c => hdone c (by have := c.isLt; omega), fun _ _ => rfl⟩
  | succ n ih =>
      obtain ⟨s₁, W₁, hcall, hw₁, hinit, hframe⟩ := hw.descInit h hD hmod hacc ⟨k, by omega⟩
        (HoloOS.blockDescLoop n (D + BitVec.ofNat 32 (24 * k) + 24)
          (BitVec.ofNat 32 (16 * 2 ^ k) + BitVec.ofNat 32 (16 * 2 ^ k)))
      have hdone₁ : ∀ c : Fin 7, c.val < k + 1 → DescInit W₁ D c := by
        intro c hc
        by_cases he : c.val = k
        · rw [show c = ⟨k, by omega⟩ from Fin.ext he]
          exact hinit
        · refine (hdone c (by omega)).congr hD fun v hv => hframe v ?_
          dsimp only
          omega
      obtain ⟨s₂, W₂, hloop, hw₂, hall, hframe₂⟩ := ih hw₁ (k + 1) (by omega) hdone₁
      refine ⟨s₂, W₂, ?_, hw₂, hall, fun v hv => (hframe₂ v hv).trans (hframe v ?_)⟩
      · have hsize :
          BitVec.ofNat 32 (16 * 2 ^ k) + BitVec.ofNat 32 (16 * 2 ^ k) = BitVec.ofNat 32 (16 * 2 ^ (k + 1)) := by
          rw [← BitVec.ofNat_add, Nat.pow_succ]
          congr 1
          omega
        rw [← descAt_succ, ← hsize] at hloop
        rw [← hloop, ← hcall]
        rfl
      · dsimp only
        omega

theorem Spaces.blockDescInit : ∃ s' W, HoloOS.blockDescInit D s = .ok s' ∧ Wrote s s' dir W ∧ (∀ c, DescInit W D c) ∧
    ∀ v : Word, ¬(D.toNat ≤ v.toNat ∧ v.toNat < D.toNat + 168) → W v = word s dir s.space v := by
  obtain ⟨s', W, hcall, hw, hinit, hframe⟩ := (Wrote.refl s dir).blockDescLoop h hD hmod hacc 7 0 rfl
    fun c hc => absurd hc (Nat.not_lt_zero _)
  rw [Nat.mul_zero, BitVec.add_zero] at hcall
  exact ⟨s', W, hcall, hw, hinit, hframe⟩

end Init

def Arenas.empty : Arenas := ⟨fun _ => [], fun _ => [], []⟩

theorem busy_empty : Busy Arenas.empty := fun _ _ ha => absurd ha List.not_mem_nil

theorem allPages_empty : Arenas.empty.allPages = [] := busy_empty.no_leak rfl

theorem wf_empty (hD : DescsFit D) : HeapWf D Arenas.empty where
  fit := hD
  aligned _ _ ha := absurd ha List.not_mem_nil
  large _ hb := absurd hb List.not_mem_nil
  nodup := by
    rw [allPages_empty]
    exact List.nodup_nil
  far n hn := by
    rw [allPages_empty] at hn
    exact absurd hn List.not_mem_nil
  blocks _ := List.Perm.refl _

/-- The free lists of the descriptors are empty. -/
theorem repr_empty (hD : DescsFit D) (hinit : ∀ c, DescInit W D c) : HeapRepr W D Arenas.empty fun _ => 0 where
  sizes c := ⟨(hinit c).size, (hinit c).blocks⟩
  lists := by
    have hne : ∀ u v : Word, u.toNat ≠ v.toNat → u ≠ v := fun u v hne he => hne (congrArg _ he)
    refine ⟨fun c => ?_, fun c c' hcc x hx => ?_⟩
    · obtain ⟨-, -, hlist, -, htail, -⟩ := descWords hD c
      exact Seq.empty (hne (freeListAt D c) (freeListAt D c + 8) (by omega)) (hinit c).next (hinit c).prev
    · obtain ⟨-, -, hlist, -, htail, -⟩ := descWords hD c
      obtain ⟨-, -, hlist', -, htail', -⟩ := descWords hD c'
      have hval : c.val ≠ c'.val := fun he => hcc (Fin.ext he)
      rcases List.mem_cons.1 hx with rfl | hx
      · exact ⟨hne (freeListAt D c) (freeListAt D c') (by omega),
          hne (freeListAt D c) (freeListAt D c' + 8) (by omega), List.not_mem_nil⟩
      · obtain rfl := List.mem_singleton.1 hx
        exact ⟨hne (freeListAt D c + 8) (freeListAt D c') (by omega),
          hne (freeListAt D c + 8) (freeListAt D c' + 8) (by omega), List.not_mem_nil⟩
  members _ _ hx := absurd hx List.not_mem_nil
  arenas _ _ ha := absurd ha List.not_mem_nil
  large _ hb := absurd hb List.not_mem_nil

/-- `blockDescInit` makes an empty heap. -/
theorem HeapAt.empty (h : Spaces s dir) (hD : DescsFit D) (hmod : D.toNat % 4 = 0)
    (hacc : ∀ v : Word, D.toNat ≤ v.toNat → v.toNat < D.toNat + 168 → v.toNat % 4 = 0 → Writable s dir v) :
    ∃ s' W, HoloOS.blockDescInit D s = .ok s' ∧ Wrote s s' dir W ∧
      (∀ v : Word, ¬(D.toNat ≤ v.toNat ∧ v.toNat < D.toNat + 168) → W v = word s dir s.space v) ∧
      HeapAt s' dir s.space D Arenas.empty := by
  obtain ⟨s', W, hcall, hw, hinit, hframe⟩ := h.blockDescInit hD hmod hacc
  refine ⟨s', W, hcall, hw, hframe, HeapAt.wrote h hw (wf_empty hD) (repr_empty hD hinit)
    (fun _ _ ha => absurd ha List.not_mem_nil) ⟨hmod, ?_⟩ ?_⟩
  · rintro v (hdesc | hpage) haligned
    · exact hacc v hdesc.1 hdesc.2 haligned
    · rw [allPages_empty] at hpage
      exact absurd hpage List.not_mem_nil
  · intro n hn
    rw [allPages_empty] at hn
    exact absurd hn List.not_mem_nil

end HoloOS
