import HoloOS.MemoryProcess
import HoloOS.MemoryBoot

/-! Creating a thread or a process on `Tables`: the three allocations of `processExecute` take pages
that were clear, the new directory holds the kernel's entries and nothing else, and everything that
was mapped stays mapped. -/

namespace HoloOS

open Function Paging

variable {s s₁ s₂ s' : Memory} {dir dir' : Space → Nat} {n : Nat} {v : Word}

/-- `n` pages of the kernel heap that were clear in `s` and are mapped in `s'`. -/
structure NewRun (s s' : Memory) (dir' : Space → Nat) (v : Word) (n : Nat) : Prop where
  aligned : v.toNat % 4096 = 0
  heap : ∀ k < n, Space.kernel.Heap s (vpage v + k)
  clear : ∀ k < n, Space.kernel.bit s (vpage v + k) = false
  set : ∀ k < n, Space.kernel.bit s' (vpage v + k) = true
  mapped : ∀ k < n, ∃ f, mapped s'.mem (dir' .kernel) (vpage v + k) = some f

theorem Malloced.newRun (hm : Malloced s s' dir v n true) (hsp : s.space = .kernel) :
    NewRun s s' dir v n := by
  obtain ⟨s₀, hr, -⟩ := id hm.reserved
  have hheap := hr.heap
  have hclear := hr.clear
  have hmapped := hm.mapped rfl
  rw [hsp] at hheap hclear hmapped
  refine ⟨hr.aligned, hheap, hclear, fun k hk => ?_, hmapped⟩
  rw [hm.bit, if_pos ⟨hsp.symm, by omega, by omega⟩]

theorem NewRun.kept (hr : NewRun s s₁ dir v n) (hk : Keeps s₁ s' dir dir')
    (hvalid : ∀ o, Owner.Valid s o → Owner.Valid s₁ o) : NewRun s s' dir' v n where
  aligned := hr.aligned
  heap := hr.heap
  clear := hr.clear
  set k hlt := hk.bit .kernel _ trivial (hr.set k hlt)
  mapped k hlt := by
    obtain ⟨f, hf⟩ := hr.mapped k hlt
    exact ⟨f, hk.frame (.page .kernel (vpage v + k)) f (hvalid (.page .kernel _) (hr.heap k hlt)) hf⟩

/-- A run that was clear later was clear before. -/
theorem NewRun.earlier (hr : NewRun s₁ s' dir' v n) (hk : Keeps s s₁ dir dir)
    (hheap : ∀ m, Space.kernel.Heap s₁ m → Space.kernel.Heap s m) : NewRun s s' dir' v n where
  aligned := hr.aligned
  heap k hlt := hheap _ (hr.heap k hlt)
  clear k hlt := by
    by_contra hset
    have hbit := hk.bit .kernel (vpage v + k) trivial (by simpa using hset)
    rw [hr.clear k hlt] at hbit
    cases hbit
  set := hr.set
  mapped := hr.mapped

/-- The kernel pool has a frame left whenever the page tables of a new process need one. -/
def SpaceFits (t : Tid) (s : Memory) : Prop :=
  MallocFits .kernel 23 s ∧ ∀ s₁, createUserVaddrBitmap t s = .ok s₁ → MallocFits .kernel 1 s₁

theorem createUserVaddrBitmap_none (t : Tid) {s₁ : Memory} (hcall : getKernelPages 23 s = .ok (none, s₁)) :
    createUserVaddrBitmap t s = .error (.panic .dst) := by
  unfold createUserVaddrBitmap
  rw [show ((0xc0000000 - 0x8048000) / 4096 / 8 + 4096 - 1) / 4096 = 23 from rfl]
  dsimp only
  rw [hcall]
  rfl

/-- The bitmap of a new process. -/
def userBitmap : Bitmap := bitmapInit { bits := fun _ => 0, size := 94199 }

theorem createUserVaddrBitmap_some (t : Tid) {b : Word} (hcall : getKernelPages 23 s = .ok (some b, s₁)) :
    createUserVaddrBitmap t s = .ok (s₁.setUserVaddr t ⟨userBitmap, 0x8048000⟩) := by
  unfold createUserVaddrBitmap
  rw [show ((0xc0000000 - 0x8048000) / 4096 / 8 + 4096 - 1) / 4096 = 23 from rfl]
  dsimp only
  rw [hcall]
  rfl

/-- Sizes and starts of bitmaps stay as they are. -/
theorem Malloced.userVaddr {done : Bool} (hm : Malloced s s' dir v n done) (t : Tid) :
    (s'.task t).userVaddr.vaddrStart = (s.task t).userVaddr.vaddrStart ∧
      (s'.task t).userVaddr.vaddrBitmap.size = (s.task t).userVaddr.vaddrBitmap.size := by
  obtain ⟨s₀, hr, hg⟩ := hm.reserved
  rw [hg.same]
  exact ⟨hr.marks.same.userStart t, hr.marks.same.userSize t⟩

theorem Malloced.kernelHeap {done : Bool} (hm : Malloced s s' dir v n done) (k : Nat) :
    Space.kernel.Heap s' k ↔ Space.kernel.Heap s k := hm.valid (.page .kernel k)

/-- What a successful creation of a process's address space has done. -/
structure Created (s s' : Memory) (dir : Space → Nat) (t : Tid) (b d : Word) (f : Nat) : Prop where
  tables : Tables s' (update dir (.process t) f)
  kept : Keeps s s' dir (update dir (.process t) f)
  pageDir : (s'.task t).pageDir = d
  isProcess : ∀ u, s'.IsProcess u ↔ u = t ∨ s.IsProcess u
  bitmap : NewRun s s' (update dir (.process t) f) b 23
  dirPage : NewRun s s' (update dir (.process t) f) d 1
  apart : vpage d < vpage b ∨ vpage b + 23 ≤ vpage d

/-- The states on the way: `s₁` after the allocation of the bitmap and `s₂` after `createPageDir`. -/
structure Stages (s s₁ s₂ s' : Memory) (dir : Space → Nat) (t : Tid) (b d : Word) (f : Nat) : Prop where
  bitmap : Malloced s s₁ dir b 23 true
  cleared : Tables (s₁.setUserVaddr t ⟨userBitmap, 0x8048000⟩) dir
  dirPage : Malloced (s₁.setUserVaddr t ⟨userBitmap, 0x8048000⟩) s₂ dir d 1 true
  pages : ∃ s₀, getKernelPages 1 (s₁.setUserVaddr t ⟨userBitmap, 0x8048000⟩) = .ok (some d, s₀) ∧
    Scribbles s₀ s₂ dir
  copied : NewDir s₂.mem f
  adopted : Tables (s₂.setPageDir t d) (update dir (.process t) f)
  descs : Scribbles (s₂.setPageDir t d) s' (update dir (.process t) f)

/-- A page with data stays one when no process gets it for its directory. -/
theorem Keeps.dataPage (hk : Keeps s s' dir dir') (hpage : DataPage s dir n)
    (hproc : ∀ u g, s'.IsProcess u → mapped s.mem (dir s.space) n = some g → DataFrame s dir g →
      dir' (.process u) ≠ g) : DataPage s' dir' n := by
  obtain ⟨g, hg, hdata⟩ := hpage.data
  obtain ⟨sp, k, hheap, hmapped⟩ := hdata.page
  refine ⟨?_, g, ?_, ⟨⟨sp, k, hk.valid (.page sp k) hheap, hk.frame (.page sp k) g hheap hmapped⟩,
    fun u hu => hproc u g hu hg hdata⟩⟩
  · rw [hk.space]
    exact hk.valid (.page s.space n) hpage.heap
  · rw [hk.space]
    exact hk.frame (.page s.space n) g hpage.heap hg

/-- `getKernelPages` that returns `NULL` leaves the page tables as they are, or extends them. -/
theorem Tables.getKernelPages_null (h : Tables s dir) (hsp : s.space = .kernel) (hn : 0 < n ∧ n < 3840)
    (hfits : MallocFits .kernel n s) (hcall : HoloOS.getKernelPages n s = .ok (none, s')) :
    Tables s' dir ∧ Keeps s s' dir dir ∧ ∀ u, (s'.task u).pageDir = (s.task u).pageDir := by
  rcases h.getKernelPages hsp hn hfits with ⟨-, he⟩ | ⟨w, s₄, he, h₄, hm₄⟩ | ⟨w, s₄, he, -⟩
  · rw [hcall] at he
    cases he
    exact ⟨h, (Scribbles.refl s dir).kept h, fun _ => rfl⟩
  · rw [hcall] at he
    cases he
    exact ⟨h₄, hm₄.kept, hm₄.tables_same.2.2.2.2.2⟩
  · rw [hcall] at he
    cases he

/-- The descriptors go into the page of the `taskStruct`. -/
theorem Tables.blockDescInit_pcb (h : Tables s dir) {p : Word} {t : Tid} (hp : p.toNat = t)
    (hmod : p.toNat % 4096 = 0) (hpage : DataPage s dir (vpage p)) :
    ∃ s', blockDescInit (BitVec.ofNat 32 t + 68) s = .ok s' ∧ Scribbles s s' dir := by
  have hlt := p.isLt
  have hnat : (BitVec.ofNat 32 t + 68).toNat = p.toNat + 68 := by
    rw [← hp, BitVec.ofNat_toNat, BitVec.setWidth_eq, BitVec.toNat_add, show (68 : Word).toNat = 68 from rfl]
    omega
  have hpg : p.toNat = vpage p * 4096 := by
    unfold vpage
    omega
  exact h.blockDescLoop 7 hpage (by omega) (by omega) (by omega)

/-- The user bitmap is noted in a `taskStruct` that is not yet a process. -/
theorem Malloced.setUserVaddr {b : Word} {t : Tid} {x : VirtualAddr} (hm : Malloced s s₁ dir b n true)
    (h₁ : Tables s₁ dir) (ht : ¬s.IsProcess t) :
    Tables (s₁.setUserVaddr t x) dir ∧ Keeps s₁ (s₁.setUserVaddr t x) dir dir ∧
      ∀ u, (s₁.setUserVaddr t x).IsProcess u ↔ s.IsProcess u := by
  have hproc : ∀ u, s₁.IsProcess u ↔ s.IsProcess u := by
    intro u
    unfold Memory.IsProcess
    rw [hm.tables_same.2.2.2.2.2]
  obtain ⟨h₂, hkept⟩ := h₁.setUserVaddr (fun hp => ht ((hproc t).1 hp)) x
  refine ⟨h₂, hkept, fun u => ?_⟩
  rw [← hproc]
  unfold Memory.IsProcess
  rw [setUserVaddr_pageDir]

/-- Without a page for the directory `processSpace` ends, and the thread is no process. -/
theorem Tables.processSpace_noDir (h : Tables s dir) (hsp : s.space = .kernel) {p : Word} {t : Tid}
    (hp : p.toNat = t) (hmod : p.toNat % 4096 = 0) (ht : ¬s.IsProcess t) (hpcb : DataPage s dir (vpage p))
    (hfits : MallocFits .kernel 1 s) (hpages : HoloOS.getKernelPages 1 s = .ok (none, s₁))
    (hnull : HoloOS.createPageDir s = .ok (none, s₁)) :
    ∃ s', (HoloOS.createPageDir s >>= fun r =>
      blockDescInit (BitVec.ofNat 32 t + 68) (r.2.setPageDir t (r.1.getD 0))) = .ok s' ∧ ¬s'.IsProcess t := by
  obtain ⟨h₁, hkept, hpageDir⟩ := h.getKernelPages_null hsp ⟨by omega, by omega⟩ hfits hpages
  have hzero : (s₁.task t).pageDir = 0 := by
    rw [hpageDir]
    exact not_not.1 ht
  have hsame : s₁.setPageDir t 0 = s₁ := by
    unfold Memory.setPageDir
    rw [← hzero, update_eq_self]
  have hpcb₁ : DataPage s₁ dir (vpage p) := hkept.dataPage hpcb fun u g hu _ hdata => by
    unfold Memory.IsProcess at hu
    rw [hpageDir] at hu
    exact hdata.keep u hu
  obtain ⟨s', hinit, hs'⟩ := h₁.blockDescInit_pcb hp hmod hpcb₁
  refine ⟨s', ?_, ?_⟩
  · rw [hnull, ok_bind]
    dsimp only
    rw [Option.getD_none, hsame]
    exact hinit
  · unfold Memory.IsProcess
    rw [hs'.same]
    exact fun hne => hne hzero

/-- The page of a new directory is none that was mapped before. -/
theorem newDir_ne (hm : Malloced s s₁ dir v 1 true) (h : Tables s dir) (h₁ : Tables s₁ dir)
    (hsp : s.space = .kernel) {f g : Nat} (hf : mapped s₁.mem kernelDir (vpage v) = some f)
    (hheap : Space.kernel.Heap s n) (hg : mapped s.mem (dir .kernel) n = some g) : f ≠ g := by
  rintro rfl
  have hrun := hm.newRun hsp
  have hframe := hm.keeps (o := .page .kernel n) hheap hg
  have hvalid : (Owner.page .kernel n).Valid s₁ := hm.kept.valid (.page .kernel n) hheap
  have hheap₁ : Space.kernel.Heap s₁ (vpage v) := (hm.kernelHeap _).2 (hrun.heap 0 (by omega))
  have hdf : (Owner.page .kernel (vpage v)).frame s₁.mem dir = some f := by
    rw [Owner.frame_page, h₁.dir_kernel]
    exact hf
  have hpage := (Owner.page.inj (h₁.inj _ (.page .kernel (vpage v)) f hvalid hheap₁ hframe hdf)).2
  have hclear := h.clear .kernel _ (hrun.heap 0 (by omega)) (hrun.clear 0 (by omega))
  rw [Nat.add_zero, ← hpage, hg] at hclear
  cases hclear

/-- A page that is new after another run is apart from it. -/
theorem NewRun.apart {b d : Word} {m : Nat} (hr : NewRun s s₁ dir b m) (hk : Keeps s₁ s₂ dir dir)
    (hd : NewRun s₂ s' dir' d 1) : vpage d < vpage b ∨ vpage b + m ≤ vpage d := by
  by_contra hin
  have hclear := hd.clear 0 (by omega)
  have hset := hk.bit .kernel _ trivial (hr.set (vpage d - vpage b) (by omega))
  rw [show vpage b + (vpage d - vpage b) = vpage d + 0 by omega, hclear] at hset
  cases hset

theorem Tables.processSpace (h : Tables s dir) (hsp : s.space = .kernel) {p : Word} {t : Tid}
    (hp : p.toNat = t) (hmod : p.toNat % 4096 = 0) (ht : ¬s.IsProcess t) (hcur : t ≠ s.cur)
    (hpcb : DataPage s dir (vpage p)) (hfits : SpaceFits t s) :
    (HoloOS.processSpace t s = .error (.panic .dst) ∧ ∃ s₁, HoloOS.getKernelPages 23 s = .ok (none, s₁)) ∨
    (∃ s', HoloOS.processSpace t s = .ok s' ∧ ¬s'.IsProcess t ∧ ∃ s₁ s₂,
      HoloOS.createUserVaddrBitmap t s = .ok s₁ ∧ HoloOS.getKernelPages 1 s₁ = .ok (none, s₂)) ∨
    ∃ b s₁ d f s', HoloOS.getKernelPages 23 s = .ok (some b, s₁) ∧ HoloOS.processSpace t s = .ok s' ∧
      Created s s' dir t b d f ∧ ∃ s₂, Stages s s₁ s₂ s' dir t b d f := by
  have hbitmap : (∃ s₁, HoloOS.getKernelPages 23 s = .ok (none, s₁)) ∨ ∃ b s₁,
      HoloOS.getKernelPages 23 s = .ok (some b, s₁) ∧ Tables s₁ dir ∧ Malloced s s₁ dir b 23 true := by
    rcases h.getKernelPages hsp ⟨by omega, by omega⟩ hfits.1 with
      ⟨-, hcall⟩ | ⟨b, s₁, hcall, -, -⟩ | ⟨b, s₁, hcall, h₁, hm, -⟩
    · exact Or.inl ⟨s, hcall⟩
    · exact Or.inl ⟨s₁, hcall⟩
    · exact Or.inr ⟨b, s₁, hcall, h₁, hm⟩
  rcases hbitmap with ⟨s₁, hcall⟩ | ⟨b, s₁, hcall, h₁, hm₁⟩
  · left
    refine ⟨?_, s₁, hcall⟩
    rw [HoloOS.processSpace, createUserVaddrBitmap_none t hcall]
    rfl
  right
  have hcreate := createUserVaddrBitmap_some t hcall
  obtain ⟨h₂, hkept₂, hproc₂⟩ := hm₁.setUserVaddr (x := ⟨userBitmap, 0x8048000⟩) h₁ ht
  set s₂ := s₁.setUserVaddr t ⟨userBitmap, 0x8048000⟩ with hs₂
  have hkept : Keeps s s₂ dir dir := hm₁.kept.trans hkept₂
  have hsp₂ : s₂.space = .kernel := hkept.space.trans hsp
  have ht₂ : ¬s₂.IsProcess t := fun hp => ht ((hproc₂ t).1 hp)
  have hpcb₂ : DataPage s₂ dir (vpage p) :=
    hkept.dataPage hpcb fun u g hu _ hdata => hdata.keep u ((hproc₂ u).1 hu)
  rcases h₂.createPageDir hsp₂ (hfits.2 s₂ hcreate) with ⟨s₃, hnull, hpages⟩ | ⟨d, s₃, f, hdir, h₃, hm₃, hf,
    hnew, hdata, hpages₃⟩
  · left
    obtain ⟨s', hend, hnot⟩ := h₂.processSpace_noDir hsp₂ hp hmod ht₂ hpcb₂ (hfits.2 s₂ hcreate) hpages hnull
    refine ⟨s', ?_, hnot, s₂, s₃, hcreate, hpages⟩
    rw [HoloOS.processSpace, hcreate, ok_bind]
    exact hend
  · right
    have hproc₃ : ∀ u, s₃.IsProcess u ↔ s₂.IsProcess u := by
      intro u
      unfold Memory.IsProcess
      rw [hm₃.tables_same.2.2.2.2.2]
    have ht₃ : ¬s₃.IsProcess t := fun hp => ht₂ ((hproc₃ t).1 hp)
    have hcur₃ : t ≠ s₃.cur := by
      rw [hm₃.tables_same.2.1, hkept.cur]
      exact hcur
    obtain ⟨s₀, hr₃, -⟩ := id hm₃.reserved
    have hrun₁ := hm₁.newRun hsp
    have hrun₃ := hm₃.newRun hsp₂
    have hd : d ≠ 0 := hr₃.ne_zero
    have huser₃ : (s₃.task t).userVaddr.vaddrStart = 0x8048000 ∧
        (s₃.task t).userVaddr.vaddrBitmap.size = 94199 := by
      obtain ⟨hstart, hsize⟩ := hm₃.userVaddr t
      rw [hstart, hsize, hs₂, setUserVaddr_userVaddr, if_pos rfl]
      exact ⟨rfl, rfl⟩
    have h₄ := h₃.adopt ht₃ hcur₃ ((hm₃.kernelHeap _).2 (hrun₃.heap 0 (by omega))) hf hdata hnew huser₃
    have hkept₄ : Keeps s₃ (s₃.setPageDir t d) dir (update dir (.process t) f) := adopt_kept ht₃ hcur₃ hd
    have hproc₄ : ∀ u, (s₃.setPageDir t d).IsProcess u ↔ u = t ∨ s₂.IsProcess u := by
      intro u
      rw [setPageDir_isProcess hd, hproc₃]
    have hkept₂₄ := hm₃.kept.trans hkept₄
    have hpcb₄ : DataPage (s₃.setPageDir t d) (update dir (.process t) f) (vpage p) := by
      refine hkept₂₄.dataPage hpcb₂ fun u g hu hg hdata₂ => ?_
      by_cases he : u = t
      · rw [he, update_self]
        rw [hsp₂] at hg
        exact newDir_ne hm₃ h₂ h₃ hsp₂ hf (by rw [← hsp₂]; exact hpcb₂.heap) hg
      · rw [update_of_ne fun hs => he (Space.process.inj hs)]
        exact hdata₂.keep u (((hproc₄ u).1 hu).resolve_left he)
    obtain ⟨s', hinit, hs'⟩ := h₄.blockDescInit_pcb hp hmod hpcb₄
    have hkept₅ := hs'.kept h₄
    have hkept' := hkept₂₄.trans hkept₅
    refine ⟨b, s₁, d, f, s', hcall, ?_, ⟨hs'.tables h₄, hkept.trans hkept', ?_, ?_, ?_, ?_, hrun₁.apart hkept₂ hrun₃⟩,
      s₃, hm₁, h₂, hm₃, hpages₃, hnew, h₄, hs'⟩
    · rw [HoloOS.processSpace, hcreate, ok_bind, hdir, ok_bind]
      exact hinit
    · rw [hs'.same]
      exact (setPageDir_pageDir t t).trans (if_pos rfl)
    · intro u
      rw [← hproc₂, ← hproc₄]
      unfold Memory.IsProcess
      rw [hs'.same]
    · exact hrun₁.kept (hkept₂.trans hkept') hm₁.kept.valid
    · exact (hrun₃.kept (hkept₄.trans hkept₅) hm₃.kept.valid).earlier hkept fun m hm =>
        (hm₁.kernelHeap m).1 hm

end HoloOS
