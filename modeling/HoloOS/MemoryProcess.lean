import HoloOS.MemoryBlocks
import HoloOS.MemoryContents

/-! The pages of a new thread or process: `threadStart` (`kernel/thread.c`) takes one for the
`taskStruct`, and `processExecute` (`kernel/process.c`) takes also those of the user bitmap and the
page directory, to which it copies the kernel's entries. -/

namespace HoloOS

open Function Paging

/-- The bytes up to the next page boundary are copied through two translations. -/
def memcpyLoop : Nat → Word → Word → Nat → Memory → Except Trap Memory
  | 0, _, _, _, s => .ok s
  | fuel + 1, dst, src, size, s =>
      if size = 0 then .ok s
      else do
        let chunk := min size (min (4096 - dst.toNat % 4096) (4096 - src.toNat % 4096))
        let b ← s.phys src
        let a ← s.phys dst
        memcpyLoop fuel (dst + BitVec.ofNat 32 chunk) (src + BitVec.ofNat 32 chunk) (size - chunk)
          { s with mem := copy s.mem a b chunk }

def memcpy (dst src : Word) (size : Nat) (s : Memory) : Except Trap Memory := do
  massert (dst ≠ 0 ∧ src ≠ 0) .dst
  memcpyLoop (2 * (size / 4096) + 3) dst src size s

namespace Memory

def setPageDir (s : Memory) (t : Tid) (pageDir : Word) : Memory :=
  { s with task := update s.task t { s.task t with pageDir := pageDir } }

def setUserVaddr (s : Memory) (t : Tid) (userVaddr : VirtualAddr) : Memory :=
  { s with task := update s.task t { s.task t with userVaddr := userVaddr } }

end Memory

/-- `getKernelPages(1)` for a `taskStruct`, and what `threadInit` writes of it; a result `NULL` is
not checked. -/
def newTask (s : Memory) : Except Trap (Tid × Memory) := do
  let (task, s) ← getKernelPages 1 s
  let t := (task.getD 0).toNat
  return (t, s.setPageDir t 0)

/-- `bitmapInit` clears the bitmap with `memset`, which asserts that the address is not `NULL`. -/
def createUserVaddrBitmap (userProg : Tid) (s : Memory) : Except Trap Memory := do
  let bitmapPgCnt := ((0xc0000000 - 0x8048000) / 4096 / 8 + 4096 - 1) / 4096
  let (bits, s) ← getKernelPages bitmapPgCnt s
  massert (bits ≠ none) .dst
  let bmap : Bitmap := { bits := fun _ => 0, size := (0xc0000000 - 0x8048000) / 4096 / 8 }
  return s.setUserVaddr userProg ⟨bitmapInit bmap, 0x8048000⟩

/-- `none` is the result `NULL`. -/
def createPageDir (s : Memory) : Except Trap (Option Word × Memory) := do
  let (pageDirVaddr, s) ← getKernelPages 1 s
  match pageDirVaddr with
  | none => return (none, s)
  | some pageDirVaddr =>
      let s ← memcpy (pageDirVaddr + 0x300 * 4) (0xfffff000 + 0x300 * 4) 1020 s
      let newPageDirPhyAddr ← v2p pageDirVaddr s
      let s ← s.store (pageDirVaddr + 1023 * 4) (newPageDirPhyAddr ||| 7#32)
      return (some pageDirVaddr, s)

/-- What `processExecute` does to memory after `threadInit`. -/
def processSpace (thread : Tid) (s : Memory) : Except Trap Memory := do
  let s ← createUserVaddrBitmap thread s
  let (pageDir, s) ← createPageDir s
  blockDescInit (BitVec.ofNat 32 thread + 68) (s.setPageDir thread (pageDir.getD 0))

/-- `pageDirActivate`, and the switch to the thread. -/
def processActivate (pthread : Tid) (s : Memory) : Except Trap Memory := do
  massert (pthread ≠ 0) .pthread
  let pageDirPhyAddr ← if (s.task pthread).pageDir ≠ 0 then v2p (s.task pthread).pageDir s
    else pure 0x100000#32
  return { s.loadCr3 pageDirPhyAddr.toNat with cur := pthread }

variable {s s₁ s' : Memory} {dir : Space → Nat} {n : Nat} {v : Word}

theorem memcpy_page {dst src : Word} {a b size : Nat} (hdst : dst ≠ 0) (hsrc : src ≠ 0) (hpos : 0 < size)
    (hd : dst.toNat % 4096 + size ≤ 4096) (hs : src.toNat % 4096 + size ≤ 4096)
    (ha : s.walk dst = some a) (hb : s.walk src = some b) :
    memcpy dst src size s = .ok { s with mem := copy s.mem a b size } := by
  have hchunk : min size (min (4096 - dst.toNat % 4096) (4096 - src.toNat % 4096)) = size := by omega
  have hfuel : 2 * (size / 4096) + 3 = 2 * (size / 4096) + 1 + 1 + 1 := rfl
  rw [memcpy, massert_bind (decide_eq_true ⟨hdst, hsrc⟩), hfuel, memcpyLoop, if_neg (by omega)]
  dsimp only
  rw [hchunk, phys_eq hb, ok_bind, phys_eq ha, ok_bind, Nat.sub_self, memcpyLoop, if_pos rfl]

/-- The page at `f` is a directory with the kernel's entries and no others. -/
structure NewDir (m : Mem) (f : Nat) : Prop where
  low : ∀ i < 768, entry m f i = none
  copied : ∀ i, 768 ≤ i → i < 1023 → entry m f i = entry m kernelDir i
  self : entry m f 1023 = some f

theorem setPageDir_pageDir (t u : Tid) :
    ((s.setPageDir t v).task u).pageDir = if u = t then v else (s.task u).pageDir := by
  unfold Memory.setPageDir
  by_cases he : u = t
  · rw [he, if_pos rfl]
    simp
  · rw [if_neg he]
    simp [he]

theorem setPageDir_isProcess {t : Tid} (hv : v ≠ 0) (u : Tid) :
    (s.setPageDir t v).IsProcess u ↔ u = t ∨ s.IsProcess u := by
  unfold Memory.IsProcess
  rw [setPageDir_pageDir]
  by_cases he : u = t
  · rw [if_pos he]
    exact ⟨fun _ => Or.inl he, fun _ => hv⟩
  · rw [if_neg he]
    exact ⟨Or.inr, fun hor => hor.resolve_left he⟩

theorem setPageDir_userVaddr (t u : Tid) :
    ((s.setPageDir t v).task u).userVaddr = (s.task u).userVaddr := by
  unfold Memory.setPageDir
  by_cases he : u = t
  · rw [he]
    simp
  · simp [he]

section Adopt

variable {t : Tid} {f : Nat} {sp : Space} (ht : ¬s.IsProcess t) (hcur : t ≠ s.cur) (hv : v ≠ 0)

include ht in
/-- The other spaces keep their directories. -/
theorem adopt_dir (hsp : sp.Exists s) : update dir (.process t) f sp = dir sp := by
  apply update_of_ne
  rintro rfl
  exact ht hsp

include hv in
theorem adopt_exists (hsp : sp.Exists (s.setPageDir t v)) : sp = .process t ∨ sp.Exists s := by
  cases sp with
  | kernel => exact Or.inr trivial
  | process u =>
      rcases (setPageDir_isProcess hv u).1 hsp with rfl | hu
      · exact Or.inl rfl
      · exact Or.inr hu

include hcur hv in
theorem adopt_space : (s.setPageDir t v).space = s.space := by
  have hiff : (s.setPageDir t v).IsProcess s.cur ↔ s.IsProcess s.cur := by
    rw [setPageDir_isProcess hv]
    exact ⟨fun hor => hor.resolve_left (Ne.symm hcur), Or.inr⟩
  unfold Memory.space
  by_cases hp : s.IsProcess s.cur
  · rw [if_pos hp]
    exact if_pos (hiff.2 hp)
  · rw [if_neg hp]
    exact if_neg fun hq => hp (hiff.1 hq)

theorem adopt_bit (sp : Space) (k : Nat) : sp.bit (s.setPageDir t v) k = sp.bit s k := by
  cases sp with
  | kernel => rfl
  | process u => rw [Space.bit, Space.bit, Space.vaddr, Space.vaddr, setPageDir_userVaddr]

include ht hv in
/-- The pages and tables of the new space have no frames. -/
theorem NewDir.owner (hnew : NewDir s.mem f) {o : Owner} {g : Nat} (ho : o.Valid (s.setPageDir t v))
    (hg : o.frame s.mem (update dir (.process t) f) = some g) : o.Valid s ∧ o.frame s.mem dir = some g := by
  cases o with
  | table sp i =>
      rcases adopt_exists hv (Space.Own.exists ho) with rfl | hsp
      · rw [Owner.frame_table, update_self, hnew.low i ho.2] at hg
        cases hg
      · rw [Owner.frame_table, adopt_dir ht hsp] at hg
        refine ⟨?_, hg⟩
        cases sp with
        | kernel => exact ho
        | process u => exact ⟨hsp, ho.2⟩
  | page sp k =>
      rcases adopt_exists hv (Space.Heap.exists ho) with rfl | hsp
      · have hlt := (show Space.Heap (s.setPageDir t v) (.process t) k from ho).2
        rw [Owner.frame_page, update_self, mapped, hnew.low (k / 1024) (by omega)] at hg
        cases hg
      · rw [Owner.frame_page, adopt_dir ht hsp] at hg
        refine ⟨?_, hg⟩
        cases sp with
        | kernel => exact ho
        | process u => exact ⟨hsp, ho.2⟩

/-- The page of a new directory is the page of no other. -/
theorem Tables.adopt_apart (h : Tables s dir) (hf : mapped s.mem kernelDir (vpage v) = some f)
    (hdata : DataFrame s dir f) {u : Tid} (hu : s.IsProcess u) : vpage (s.task u).pageDir ≠ vpage v := by
  intro hpage
  obtain ⟨-, hmapped⟩ := h.dir_heap u hu
  rw [hpage, hf] at hmapped
  exact hdata.keep u hu (Option.some.inj hmapped).symm

include ht hcur in
/-- A thread gets a directory of its own. -/
theorem Tables.adopt (h : Tables s dir)
    (hheap : Space.kernel.Heap s (vpage v)) (hf : mapped s.mem kernelDir (vpage v) = some f)
    (hdata : DataFrame s dir f) (hnew : NewDir s.mem f)
    (huser : (s.task t).userVaddr.vaddrStart = 0x8048000 ∧
      (s.task t).userVaddr.vaddrBitmap.size = 94199) :
    Tables (s.setPageDir t v) (update dir (.process t) f) := by
  have hv : v ≠ 0 := by
    rintro rfl
    exact absurd hheap.1 (by decide)
  have hproc := fun u => setPageDir_isProcess (s := s) (t := t) hv u
  have hdirt : update dir (.process t) f (.process t) = f := update_self _ _ _
  refine {
    kstart := h.kstart, kfit := h.kfit, ualigned := h.ualigned, ufit := h.ufit, vstart := h.vstart
    vfit := h.vfit, first := h.first, user := ?_, dir_kernel := ?_, self := ?_, dir_heap := ?_
    dir_inj := ?_, shared := ?_, used := ?_, inj := ?_, clear := ?_, cr3 := ?_ }
  · intro u hu
    rw [setPageDir_userVaddr]
    rcases (hproc u).1 hu with rfl | hu
    · exact huser
    · exact h.user u hu
  · exact (adopt_dir ht (show Space.kernel.Exists s from trivial)).trans h.dir_kernel
  · intro sp hsp
    rcases adopt_exists hv hsp with rfl | hsp
    · rw [hdirt]
      exact hnew.self
    · rw [adopt_dir ht hsp]
      exact h.self sp hsp
  · intro u hu
    rw [setPageDir_pageDir]
    by_cases he : u = t
    · rw [if_pos he, he, hdirt]
      exact ⟨hheap, hf⟩
    · have hu' := ((hproc u).1 hu).resolve_left he
      rw [if_neg he, adopt_dir ht (show (Space.process u).Exists s from hu')]
      exact h.dir_heap u hu'
  · intro u w hu hw he
    rw [setPageDir_pageDir, setPageDir_pageDir] at he
    by_cases hut : u = t
    · by_cases hwt : w = t
      · rw [hut, hwt]
      · rw [if_pos hut, if_neg hwt] at he
        exact absurd he.symm (h.adopt_apart hf hdata (((hproc w).1 hw).resolve_left hwt))
    · by_cases hwt : w = t
      · rw [if_neg hut, if_pos hwt] at he
        exact absurd he (h.adopt_apart hf hdata (((hproc u).1 hu).resolve_left hut))
      · rw [if_neg hut, if_neg hwt] at he
        exact h.dir_inj u w (((hproc u).1 hu).resolve_left hut) (((hproc w).1 hw).resolve_left hwt) he
  · intro u i hu hle hlt
    change entry s.mem (update dir (.process t) f (.process u)) i = none ∨
      entry s.mem (update dir (.process t) f (.process u)) i = entry s.mem kernelDir i
    rcases (hproc u).1 hu with rfl | hu'
    · rw [hdirt]
      exact Or.inr (hnew.copied i hle hlt)
    · rw [adopt_dir ht (show (Space.process u).Exists s from hu')]
      exact h.shared u i hu' hle hlt
  · intro o g ho hg
    obtain ⟨ho', hg'⟩ := hnew.owner ht hv ho hg
    have hused := h.used o g ho' hg'
    cases hflag : o.flag <;> rw [hflag] at hused <;> exact hused
  · intro o o' g ho ho' hg hg'
    obtain ⟨hv₁, hg₁⟩ := hnew.owner ht hv ho hg
    obtain ⟨hv₂, hg₂⟩ := hnew.owner ht hv ho' hg'
    exact h.inj o o' g hv₁ hv₂ hg₁ hg₂
  · intro sp k hk hbit
    change mapped s.mem (update dir (.process t) f sp) k = none
    cases hmapped : mapped s.mem (update dir (.process t) f sp) k with
    | none => rfl
    | some g =>
        obtain ⟨hk', hg⟩ := hnew.owner (o := .page sp k) ht hv hk hmapped
        have hclear := h.clear sp k hk' ((adopt_bit sp k).symm.trans hbit)
        rw [Owner.frame_page, hclear] at hg
        cases hg
  · rw [adopt_space hcur hv]
    exact h.cr3.trans (adopt_dir ht s.space_exists).symm

end Adopt

theorem add_toNat {c : Nat} (haligned : v.toNat % 4096 = 0) (hc : c < 4096) :
    (v + BitVec.ofNat 32 c).toNat = v.toNat + c ∧ vpage (v + BitVec.ofNat 32 c) = vpage v := by
  have hlt := v.isLt
  have hnat : (v + BitVec.ofNat 32 c).toNat = v.toNat + c := by
    rw [BitVec.toNat_add, BitVec.toNat_ofNat]
    omega
  refine ⟨hnat, ?_⟩
  unfold vpage
  omega

theorem walk_offset {c f : Nat} (haligned : v.toNat % 4096 = 0) (hc : c < 4096)
    (hf : mapped s.mem s.cr3 (vpage v) = some f) : s.walk (v + BitVec.ofNat 32 c) = some (f + c) := by
  obtain ⟨hnat, hpage⟩ := add_toNat haligned hc
  have hmapped : mapped s.mem s.cr3 (vpage (v + BitVec.ofNat 32 c)) = some f := by rw [hpage, hf]
  rw [walk_eq hmapped, hnat]
  congr 1
  omega

/-- The window shows the current directory. -/
theorem Windowed.walk_dir {d c : Nat} (h : Windowed s d) (hc : c < 4096) :
    s.walk (0xfffff000 + BitVec.ofNat 32 c) = some (d + c) := by
  refine walk_offset rfl hc ?_
  rw [h.cr3, mapped_eq_some]
  exact ⟨d, h.self, h.self⟩

theorem read_zero {m : Mem} {a : Nat} (h : ∀ j < 4, m (a + j) = 0) : read m a = 0 := by
  have hsame : read m a = read (fun _ => 0) 0 := read_eq_of_bytes h
  rw [hsame]
  rfl

/-- What is written to the zeroed page at `f` makes a directory of it. -/
theorem newDir_of_copy {m : Mem} {f : Nat} {p : Word} (hf : f % 4096 = 0) (hlow : 0x200000 ≤ f)
    (hp : p.toNat = f) (hzero : ∀ b, f ≤ b → b < f + 4096 → m b = 0) :
    NewDir (write (copy m (f + 0xc00) (kernelDir + 0xc00) 1020) (f + 4 * 1023) (p ||| 7#32)) f := by
  have hcopy : ∀ b, copy m (f + 0xc00) (kernelDir + 0xc00) 1020 b =
      if f + 0xc00 ≤ b ∧ b < f + 0xc00 + 1020 then m (kernelDir + 0xc00 + (b - (f + 0xc00))) else m b :=
    copy_apart m (by unfold kernelDir; omega)
  have hkernel : ∀ i < 1024, entry (write (copy m (f + 0xc00) (kernelDir + 0xc00) 1020) (f + 4 * 1023)
      (p ||| 7#32)) kernelDir i = entry m kernelDir i := by
    intro i hi
    apply entry_congr hi
    intro b hb hlt
    unfold kernelDir at hb hlt
    rw [write, if_neg (by omega), hcopy, if_neg (by omega)]
  refine ⟨fun i hi => ?_, fun i hle hlt => ?_, ?_⟩
  · apply entry_of_read_zero
    apply read_zero
    intro j hj
    rw [write, if_neg (by omega), hcopy, if_neg (by omega)]
    exact hzero _ (by omega) (by omega)
  · rw [hkernel i (by omega), entry, entry]
    have hread : read (write (copy m (f + 0xc00) (kernelDir + 0xc00) 1020) (f + 4 * 1023) (p ||| 7#32))
        (f + 4 * i) = read m (kernelDir + 4 * i) := by
      apply read_eq_of_bytes
      intro j hj
      have haddr : kernelDir + 0xc00 + (f + 4 * i + j - (f + 0xc00)) = kernelDir + 4 * i + j := by omega
      rw [write, if_neg (by omega), hcopy, if_pos (by omega), haddr]
    rw [hread]
  · have hself : entry (write (copy m (f + 0xc00) (kernelDir + 0xc00) 1020) (f + 4 * 1023) (p ||| 7#32))
        f 1023 = some p.toNat := entry_write_self p (by omega)
    rw [hp] at hself
    exact hself

theorem Tables.createPageDir (h : Tables s dir) (hsp : s.space = .kernel)
    (hfits : MallocFits .kernel 1 s) :
    (∃ s', HoloOS.createPageDir s = .ok (none, s') ∧ HoloOS.getKernelPages 1 s = .ok (none, s')) ∨
    ∃ v s' f, HoloOS.createPageDir s = .ok (some v, s') ∧ Tables s' dir ∧ Malloced s s' dir v 1 true ∧
      mapped s'.mem kernelDir (vpage v) = some f ∧ NewDir s'.mem f ∧ DataFrame s' dir f ∧
      ∃ s₁, HoloOS.getKernelPages 1 s = .ok (some v, s₁) ∧ Scribbles s₁ s' dir := by
  have hfail : ∀ s', HoloOS.getKernelPages 1 s = .ok (none, s') →
      HoloOS.createPageDir s = .ok (none, s') := by
    intro s' hcall
    rw [HoloOS.createPageDir, hcall]
    rfl
  rcases h.getKernelPages hsp ⟨by omega, by omega⟩ hfits with
    ⟨-, hcall⟩ | ⟨v, s', hcall, -, -⟩ | ⟨v, s₁, hcall, h₁, hm, hzeroed⟩
  · exact Or.inl ⟨s, hfail s hcall, hcall⟩
  · exact Or.inl ⟨s', hfail s' hcall, hcall⟩
  right
  obtain ⟨s₀, hr, -⟩ := id hm.reserved
  have hsp₁ : s₁.space = .kernel := hm.tables_same.1.trans hsp
  have hcr3 : s₁.cr3 = kernelDir := by rw [h₁.cr3, hsp₁, h₁.dir_kernel]
  have hpage := hm.dataPage h h₁ 0 (by omega)
  rw [Nat.add_zero] at hpage
  obtain ⟨f, hf, hdata⟩ := hpage.data
  have hbounds := h₁.dataFrame_mod hdata
  have hzero : ∀ b, f ≤ b → b < f + 4096 → s₁.mem b = 0 := by
    have hz := hzeroed 0 (by omega) f
    rw [Nat.add_zero] at hz
    exact hz hf
  have hf' : mapped s₁.mem s₁.cr3 (vpage v) = some f := by rw [h₁.cr3]; exact hf
  set m₁ := copy s₁.mem (f + 0xc00) (kernelDir + 0xc00) 1020 with hm₁
  have hcopy : memcpy (v + 0x300 * 4) (0xfffff000 + 0x300 * 4) 1020 s₁ = .ok { s₁ with mem := m₁ } := by
    obtain ⟨hnat, hvpage⟩ := add_toNat (c := 0xc00) hr.aligned (by omega)
    have hdst : (v + 0x300 * 4 : Word) = v + BitVec.ofNat 32 0xc00 := rfl
    have hsrc : (0xfffff000 + 0x300 * 4 : Word) = 0xfffff000 + BitVec.ofNat 32 0xc00 := rfl
    have hmod := hr.aligned
    rw [hdst, hsrc]
    refine memcpy_page ?_ (by decide) (by omega) (by omega) (by decide)
      (walk_offset hr.aligned (by omega) hf') ?_
    · intro hzero
      have hnil := congrArg BitVec.toNat hzero
      rw [hnat, show (0 : Word).toNat = 0 from rfl] at hnil
      omega
    · have hwin := h₁.windowed
      rw [hsp₁, h₁.dir_kernel] at hwin
      exact hwin.walk_dir (by omega)
  have hscribbles₁ : Scribbles s₁ { s₁ with mem := m₁ } dir := by
    refine ⟨rfl, fun b hne => ⟨f, hdata, ?_⟩⟩
    by_contra hout
    apply hne
    change m₁ b = s₁.mem b
    have hapart : f + 0xc00 + 1020 ≤ kernelDir + 0xc00 ∨ kernelDir + 0xc00 + 1020 ≤ f + 0xc00 := by
      unfold kernelDir
      omega
    rw [hm₁, copy_apart s₁.mem hapart, if_neg (by omega)]
  have h₂ := hscribbles₁.tables h₁
  have hpage₂ := hpage.scribbles hscribbles₁ h₁
  have hf₂ : mapped m₁ (dir s₁.space) (vpage v) = some f :=
    (hscribbles₁.frame h₁ (o := .page s₁.space (vpage v)) hpage.heap).trans hf
  obtain ⟨p, hv2p, hp, -⟩ := h₂.v2p hr.aligned hpage₂.heap hf₂
  set m₂ := write m₁ (f + 4 * 1023) (p ||| 7#32) with hm₂
  have hstore : Memory.store (v + 1023 * 4) (p ||| 7#32) { s₁ with mem := m₁ } =
      .ok { s₁ with mem := m₂ } := by
    obtain ⟨hnat, hvpage⟩ := add_toNat (c := 4092) hr.aligned (by omega)
    have hmod := hr.aligned
    refine store_of_walk ?_ (walk_offset (c := 4092) hr.aligned (by omega) ?_) _
    · rw [hnat]
      omega
    · change mapped m₁ s₁.cr3 (vpage v) = some f
      rw [h₁.cr3]
      exact hf₂
  have hscribbles₂ : Scribbles s₁ { s₁ with mem := m₂ } dir := by
    refine ⟨rfl, fun b hne => ?_⟩
    have hne' : m₂ b ≠ s₁.mem b := hne
    by_cases hb : m₂ b = m₁ b
    · rw [hb] at hne'
      exact hscribbles₁.inside b hne'
    · refine ⟨f, hdata, ?_⟩
      by_contra hout
      exact hb (if_neg (by omega))
  refine ⟨v, { s₁ with mem := m₂ }, f, ?_, hscribbles₂.tables h₁, hm.scribbled h₁ hscribbles₂.inside, ?_,
    newDir_of_copy hbounds.1 hbounds.2 hp hzero, (hscribbles₂.dataFrame_iff h₁).2 hdata, s₁, hcall, hscribbles₂⟩
  · rw [HoloOS.createPageDir, hcall, ok_bind]
    dsimp only
    rw [hcopy, ok_bind, hv2p, ok_bind, hstore]
    rfl
  · have hsame := (hscribbles₂.frame h₁ (o := .page s₁.space (vpage v)) hpage.heap).trans hf
    rw [hsp₁, Owner.frame_page, h₁.dir_kernel] at hsame
    exact hsame

/-- Spaces, mappings and set bits of `s` are still there in `s'`. -/
structure Keeps (s s' : Memory) (dir dir' : Space → Nat) : Prop where
  spaces : ∀ sp, Space.Exists s sp → Space.Exists s' sp
  valid : ∀ o, Owner.Valid s o → Owner.Valid s' o
  frame : ∀ o f, Owner.Valid s o → o.frame s.mem dir = some f → o.frame s'.mem dir' = some f
  bit : ∀ sp n, Space.Exists s sp → Space.bit s sp n = true → Space.bit s' sp n = true
  pageDir : ∀ t, s.IsProcess t → (s'.task t).pageDir = (s.task t).pageDir
  space : s'.space = s.space
  cur : s'.cur = s.cur

theorem Keeps.trans {s'' : Memory} {dir' dir'' : Space → Nat} (h : Keeps s s' dir dir')
    (h' : Keeps s' s'' dir' dir'') : Keeps s s'' dir dir'' where
  spaces sp hsp := h'.spaces sp (h.spaces sp hsp)
  valid o ho := h'.valid o (h.valid o ho)
  frame o f ho hf := h'.frame o f (h.valid o ho) (h.frame o f ho hf)
  bit sp n hsp hbit := h'.bit sp n (h.spaces sp hsp) (h.bit sp n hsp hbit)
  pageDir t ht := (h'.pageDir t (h.spaces (.process t) ht)).trans (h.pageDir t ht)
  space := h'.space.trans h.space
  cur := h'.cur.trans h.cur

theorem Malloced.kept {done : Bool} (hm : Malloced s s' dir v n done) : Keeps s s' dir dir where
  spaces sp hsp := (hm.exists_iff sp).2 hsp
  valid o ho := (hm.valid o).2 ho
  frame o f ho hf := hm.keeps ho hf
  bit sp k _ hbit := by
    rw [hm.bit]
    split
    next => rfl
    next => exact hbit
  pageDir t _ := hm.tables_same.2.2.2.2.2 t
  space := hm.tables_same.1
  cur := hm.tables_same.2.1

theorem Scribbles.kept (hs : Scribbles s s' dir) (h : Tables s dir) : Keeps s s' dir dir where
  spaces sp hsp := by
    rw [hs.same]
    cases sp <;> exact hsp
  valid o ho := (hs.valid o).2 ho
  frame o f ho hf := (hs.frame h ho).trans hf
  bit sp k _ hbit := by
    rw [hs.same]
    cases sp <;> exact hbit
  pageDir t _ := by rw [hs.same]
  space := hs.space
  cur := by rw [hs.same]

theorem adopt_kept {t : Tid} {f : Nat} (ht : ¬s.IsProcess t) (hcur : t ≠ s.cur)
    (hv : v ≠ 0) : Keeps s (s.setPageDir t v) dir (update dir (.process t) f) where
  spaces sp hsp := by
    cases sp with
    | kernel => trivial
    | process u => exact (setPageDir_isProcess hv u).2 (Or.inr hsp)
  valid o ho := by
    have hexists : ∀ u, s.IsProcess u → (s.setPageDir t v).IsProcess u :=
      fun u hu => (setPageDir_isProcess hv u).2 (Or.inr hu)
    cases o with
    | table sp i =>
        cases sp with
        | kernel => exact ho
        | process u => exact ⟨hexists u ho.1, ho.2⟩
    | page sp k =>
        cases sp with
        | kernel => exact ho
        | process u => exact ⟨hexists u ho.1, ho.2⟩
  frame o g ho hg := by
    cases o with
    | table sp i =>
        rw [Owner.frame_table, adopt_dir ht (Space.Own.exists ho)]
        exact hg
    | page sp k =>
        rw [Owner.frame_page, adopt_dir ht (Space.Heap.exists ho)]
        exact hg
  bit sp k _ hbit := (adopt_bit sp k).trans hbit
  pageDir u hu := by
    rw [setPageDir_pageDir]
    refine if_neg ?_
    rintro rfl
    exact ht hu
  space := adopt_space hcur hv
  cur := rfl

theorem setUserVaddr_pageDir (s : Memory) (t u : Tid) (x : VirtualAddr) :
    ((s.setUserVaddr t x).task u).pageDir = (s.task u).pageDir := by
  unfold Memory.setUserVaddr
  by_cases he : u = t
  · rw [he]
    simp
  · simp [he]

theorem setUserVaddr_userVaddr (s : Memory) (t u : Tid) (x : VirtualAddr) :
    ((s.setUserVaddr t x).task u).userVaddr = if u = t then x else (s.task u).userVaddr := by
  unfold Memory.setUserVaddr
  by_cases he : u = t
  · rw [he, if_pos rfl]
    simp
  · rw [if_neg he]
    simp [he]

/-- The bitmap of a thread that is no process is of no matter. -/
theorem Tables.setUserVaddr (h : Tables s dir) {t : Tid} (ht : ¬s.IsProcess t) (x : VirtualAddr) :
    Tables (s.setUserVaddr t x) dir ∧ Keeps s (s.setUserVaddr t x) dir dir := by
  have hproc : ∀ u, (s.setUserVaddr t x).IsProcess u ↔ s.IsProcess u := by
    intro u
    unfold Memory.IsProcess
    rw [setUserVaddr_pageDir]
  have hne : ∀ u, s.IsProcess u → u ≠ t := by
    rintro u hu rfl
    exact ht hu
  have hvaddr : ∀ u, s.IsProcess u → ((s.setUserVaddr t x).task u).userVaddr = (s.task u).userVaddr := by
    intro u hu
    rw [setUserVaddr_userVaddr, if_neg (hne u hu)]
  have hexists : ∀ sp : Space, sp.Exists (s.setUserVaddr t x) ↔ sp.Exists s := by
    intro sp
    cases sp with
    | kernel => exact Iff.rfl
    | process u => exact hproc u
  have hvalid : ∀ o : Owner, o.Valid (s.setUserVaddr t x) ↔ o.Valid s := by
    intro o
    cases o with
    | table sp i =>
        cases sp with
        | kernel => exact Iff.rfl
        | process u => exact and_congr_left fun _ => hproc u
    | page sp k =>
        cases sp with
        | kernel => exact Iff.rfl
        | process u => exact and_congr_left fun _ => hproc u
  have hbit : ∀ (sp : Space) k, sp.Exists s → sp.bit (s.setUserVaddr t x) k = sp.bit s k := by
    intro sp k hsp
    cases sp with
    | kernel => rfl
    | process u => rw [Space.bit, Space.bit, Space.vaddr, Space.vaddr, hvaddr u hsp]
  have hspace : (s.setUserVaddr t x).space = s.space := by
    unfold Memory.space
    by_cases hp : s.IsProcess s.cur
    · rw [if_pos hp]
      exact if_pos ((hproc s.cur).2 hp)
    · rw [if_neg hp]
      exact if_neg fun hq => hp ((hproc s.cur).1 hq)
  constructor
  · refine {
      kstart := h.kstart, kfit := h.kfit, ualigned := h.ualigned, ufit := h.ufit, vstart := h.vstart
      vfit := h.vfit, first := h.first, dir_kernel := h.dir_kernel, user := ?_, self := ?_
      dir_heap := ?_, dir_inj := ?_, shared := ?_, used := ?_, inj := ?_, clear := ?_, cr3 := ?_ }
    · intro u hu
      rw [hvaddr u ((hproc u).1 hu)]
      exact h.user u ((hproc u).1 hu)
    · exact fun sp hsp => h.self sp ((hexists sp).1 hsp)
    · intro u hu
      rw [setUserVaddr_pageDir]
      exact h.dir_heap u ((hproc u).1 hu)
    · intro u w hu hw he
      rw [setUserVaddr_pageDir, setUserVaddr_pageDir] at he
      exact h.dir_inj u w ((hproc u).1 hu) ((hproc w).1 hw) he
    · exact fun u i hu => h.shared u i ((hproc u).1 hu)
    · intro o f ho hf
      have hused := h.used o f ((hvalid o).1 ho) hf
      cases hflag : o.flag <;> rw [hflag] at hused <;> exact hused
    · exact fun o o' f ho ho' => h.inj o o' f ((hvalid o).1 ho) ((hvalid o').1 ho')
    · intro sp k hk hclear
      have hk' : (Owner.page sp k).Valid s := (hvalid (.page sp k)).1 hk
      rw [hbit sp k (Space.Heap.exists hk')] at hclear
      exact h.clear sp k hk' hclear
    · rw [hspace]
      exact h.cr3
  · exact ⟨fun sp hsp => (hexists sp).2 hsp, fun o ho => (hvalid o).2 ho, fun _ _ _ hf => hf,
      fun sp k hsp hset => (hbit sp k hsp).trans hset, fun u _ => setUserVaddr_pageDir s t u x, hspace, rfl⟩

/-- Six stores a descriptor, in one page. -/
theorem Tables.blockDescLoop (h : Tables s dir) (n : Nat) {desc blockSize : Word} {page : Nat}
    (hpage : DataPage s dir page) (hdesc : page * 4096 ≤ desc.toNat)
    (hfit : desc.toNat + 24 * n ≤ page * 4096 + 4096) (hmod : desc.toNat % 4 = 0) :
    ∃ s', HoloOS.blockDescLoop n desc blockSize s = .ok s' ∧ Scribbles s s' dir := by
  induction n generalizing s desc blockSize with
  | zero => exact ⟨s, rfl, .refl s dir⟩
  | succ n ih =>
      have hlt := hpage.heap.lt h.toLayout
      have hoff : ∀ c, c ≤ 20 → (desc + BitVec.ofNat 32 c).toNat = desc.toNat + c := by
        intro c hc
        rw [BitVec.toNat_add, BitVec.toNat_ofNat]
        omega
      have hstore : ∀ (s₁ : Memory), Scribbles s s₁ dir → ∀ c, c ≤ 20 → c % 4 = 0 → ∀ w,
          ∃ s₂, s₁.store (desc + BitVec.ofNat 32 c) w = .ok s₂ ∧ Scribbles s s₂ dir := by
        intro s₁ hs₁ c hc hc4 w
        have h₁ := hs₁.tables h
        have hvpage : vpage (desc + BitVec.ofNat 32 c) = page := by
          rw [vpage, hoff c hc]
          omega
        have hpage₁ : DataPage s₁ dir (vpage (desc + BitVec.ofNat 32 c)) := by
          rw [hvpage]
          exact hpage.scribbles hs₁ h
        obtain ⟨s₂, hcall, hs₂⟩ := h₁.store w (by rw [hoff c hc]; omega) hpage₁
        exact ⟨s₂, hcall, hs₁.trans hs₂ h⟩
      obtain ⟨s₁, hcall₁, hs₁⟩ := hstore s (.refl s dir) 0 (by omega) (by omega) blockSize
      obtain ⟨s₂, hcall₂, hs₂⟩ := hstore s₁ hs₁ 4 (by omega) (by omega) ((4096 - 12) / blockSize)
      obtain ⟨s₃, hcall₃, hs₃⟩ := hstore s₂ hs₂ 8 (by omega) (by omega) 0
      obtain ⟨s₄, hcall₄, hs₄⟩ := hstore s₃ hs₃ 12 (by omega) (by omega) (desc + 8 + 8)
      obtain ⟨s₅, hcall₅, hs₅⟩ := hstore s₄ hs₄ 16 (by omega) (by omega) (desc + 8)
      obtain ⟨s₆, hcall₆, hs₆⟩ := hstore s₅ hs₅ 20 (by omega) (by omega) 0
      have hnext : (desc + 24).toNat = desc.toNat + 24 ∨ n = 0 := by
        by_cases hn : n = 0
        · exact Or.inr hn
        · left
          rw [BitVec.toNat_add, show (24 : Word).toNat = 24 from rfl]
          omega
      have hcalls : HoloOS.blockDescLoop (n + 1) desc blockSize s =
          HoloOS.blockDescLoop n (desc + 24) (blockSize + blockSize) s₆ := by
        have he₁ : desc + BitVec.ofNat 32 0 = desc := by simp
        have he₄ : desc + 8 + 4 = desc + BitVec.ofNat 32 12 := by rw [BitVec.add_assoc]; rfl
        have he₅ : desc + 8 + 8 = desc + BitVec.ofNat 32 16 := by rw [BitVec.add_assoc]; rfl
        have he₆ : desc + 8 + 12 = desc + BitVec.ofNat 32 20 := by rw [BitVec.add_assoc]; rfl
        rw [he₁] at hcall₁
        rw [HoloOS.blockDescLoop, hcall₁, ok_bind, show desc + 4 = desc + BitVec.ofNat 32 4 from rfl, hcall₂,
          ok_bind, Memory.listInit, he₄, he₅, he₆, show desc + 8 = desc + BitVec.ofNat 32 8 from rfl, hcall₃,
          ok_bind]
        rw [he₅] at hcall₄
        rw [hcall₄, ok_bind, show desc + BitVec.ofNat 32 8 = desc + 8 from rfl, hcall₅, ok_bind, hcall₆, ok_bind]
      rw [hcalls]
      rcases hnext with hnext | rfl
      · have hrest : ∃ s', HoloOS.blockDescLoop n (desc + 24) (blockSize + blockSize) s₆ = .ok s' ∧
            Scribbles s₆ s' dir :=
          ih (hs₆.tables h) (hpage.scribbles hs₆ h) (by omega) (by omega) (by omega)
        obtain ⟨s', hcall, hs'⟩ := hrest
        exact ⟨s', hcall, hs₆.trans hs' h⟩
      · exact ⟨s₆, rfl, hs₆⟩

end HoloOS
