import HoloOS.MemoryCreation
import Mathlib.Logic.Relation
import Mathlib.Data.List.Pairwise

/-! Runs of the page allocator. Kernel threads and processes call it one after another, threads and
processes are created and switched to, and they write to their pages. `live` records the ranges that
were returned and not freed, those of `taskStruct`s, user bitmaps and page directories being held for
good; `AllocInv` joins them to the page tables. -/

namespace HoloOS

open Function Paging

/-- `cnt` pages of a space from `page` on. -/
structure Range where
  space : Space
  page : Nat
  cnt : Nat
  held : Bool
  deriving DecidableEq

namespace Range

def Contains (r : Range) (sp : Space) (n : Nat) : Prop := sp = r.space ∧ r.page ≤ n ∧ n < r.page + r.cnt

/-- The ranges share no page. -/
def Apart (r r' : Range) : Prop := ∀ sp n, ¬(r.Contains sp n ∧ r'.Contains sp n)

/-- The range of a result that is not `NULL`. -/
def ofResult (sp : Space) (cnt : Nat) : Option Word → List Range
  | none => []
  | some v => [⟨sp, vpage v, cnt, false⟩]

end Range

/-- Memory, the ranges that are live, and the threads there are. -/
structure Allocator where
  s : Memory
  live : List Range
  tasks : List Tid

inductive AllocEvent where
  | mallocPage (pf : PoolFlags) (pgCnt : Nat)
  | mfreePage (r : Range)
  | getPage (pf : PoolFlags) (vaddr : Word)
  | threadStart
  | processExecute
  | processActivate (pthread : Tid)
  | write (vaddr : Word) (val : BitVec 8)
  | access (vaddr : Word)

/-- One call of the running thread, that returns. A range is freed as it was returned; `getPage` is for
pages that are not allocated; a thread is created when its pages are there. -/
inductive AllocStep (a : Allocator) : AllocEvent → Allocator → Prop
  | mallocPage {pf : PoolFlags} {pgCnt : Nat} {v : Option Word} {s' : Memory} (hserves : a.s.Serves pf)
      (hcall : mallocPage pf pgCnt a.s = .ok (v, s')) :
      AllocStep a (.mallocPage pf pgCnt)
        { a with s := s', live := a.live ++ Range.ofResult a.s.space pgCnt v }
  | mfreePage {r : Range} {s' : Memory} (hlive : r ∈ a.live) (hheld : r.held = false)
      (hspace : r.space = a.s.space)
      (hcall : mfreePage r.space.flag (BitVec.ofNat 32 (r.page * 4096)) r.cnt a.s = .ok s') :
      AllocStep a (.mfreePage r) { a with s := s', live := a.live.erase r }
  | getPage {pf : PoolFlags} {vaddr : Word} {v : Option Word} {s' : Memory} (hserves : a.s.Serves pf)
      (haligned : vaddr.toNat % 4096 = 0) (hindex : a.s.space.first < vpage vaddr)
      (hfits : vpage vaddr < a.s.space.first + (a.s.vaddr pf).vaddrBitmap.size * 8)
      (hclear : a.s.space.bit a.s (vpage vaddr) = false)
      (hcall : getPage pf vaddr a.s = .ok (v, s')) :
      AllocStep a (.getPage pf vaddr) { a with s := s', live := a.live ++ Range.ofResult a.s.space 1 v }
  | threadStart {t : Tid} {s' : Memory} (hkernel : a.s.space = .kernel) (ht : t ≠ 0)
      (hcall : newTask a.s = .ok (t, s')) :
      AllocStep a .threadStart
        { s := s', live := a.live ++ [⟨.kernel, t / 4096, 1, true⟩], tasks := a.tasks ++ [t] }
  | processExecute {t : Tid} {b : Word} {s₁ s₂ s' : Memory} (hkernel : a.s.space = .kernel) (ht : t ≠ 0)
      (hpcb : newTask a.s = .ok (t, s₁)) (hbits : getKernelPages 23 s₁ = .ok (some b, s₂))
      (hcall : processSpace t s₁ = .ok s') (hdir : s'.IsProcess t) :
      AllocStep a .processExecute
        { s := s'
          live := a.live ++ [⟨.kernel, t / 4096, 1, true⟩, ⟨.kernel, vpage b, 23, true⟩,
            ⟨.kernel, vpage (s'.task t).pageDir, 1, true⟩]
          tasks := a.tasks ++ [t] }
  | processActivate {pthread : Tid} {s' : Memory} (htask : pthread ∈ a.tasks)
      (hcall : processActivate pthread a.s = .ok s') :
      AllocStep a (.processActivate pthread) { a with s := s' }
  | write {r : Range} {vaddr : Word} {val : BitVec 8} {s' : Memory} (hlive : r ∈ a.live)
      (hheld : r.held = false) (hpage : r.Contains a.s.space (vpage vaddr))
      (hcall : a.s.storeByte vaddr val = .ok s') :
      AllocStep a (.write vaddr val) { a with s := s' }
  | access {vaddr : Word} {f : Nat} (hpage : mapped a.s.mem a.s.cr3 (vpage vaddr) = some f) :
      AllocStep a (.access vaddr) { a with s := { a.s with tlb := update a.s.tlb (vpage vaddr) (some f) } }

/-- The kernel pool has a frame left whenever `pageTableAdd` needs one for a page table. -/
def Fits : AllocEvent → Memory → Prop
  | .mallocPage pf pgCnt, s => MallocFits pf pgCnt s
  | .getPage pf vaddr, s => GetFits pf vaddr s
  | .threadStart, s => MallocFits .kernel 1 s
  | .processExecute, s => MallocFits .kernel 1 s ∧ ∀ t s₁, newTask s = .ok (t, s₁) → SpaceFits t s₁
  | _, _ => True

/-- The main thread after `memInit`. -/
def Allocator.start (m : Mem) (memCapacity : Word) : Allocator :=
  ⟨Memory.boot m memCapacity, [], [mainTask]⟩

/-- The states that runs reach whose steps all meet a condition. -/
def Runs (condition : AllocEvent → Allocator → Prop) (a a' : Allocator) : Prop :=
  Relation.ReflTransGen (fun b b' => ∃ e, condition e b ∧ AllocStep b e b') a a'

/-- Every page of the range is in the bitmap, marked and mapped. -/
structure LiveRange (s : Memory) (dir : Space → Nat) (r : Range) : Prop where
  exists_ : r.space.Exists s
  pos : 0 < r.cnt
  first : r.space.first ≤ r.page
  heap : ∀ k < r.cnt, r.space.Heap s (r.page + k)
  set : ∀ k < r.cnt, r.space.bit s (r.page + k) = true
  mapped : ∀ k < r.cnt, ∃ f, mapped s.mem (dir r.space) (r.page + k) = some f

structure AllocInv (a : Allocator) (dir : Space → Nat) : Prop where
  tables : Tables a.s dir
  ranges : ∀ r ∈ a.live, LiveRange a.s dir r
  apart : a.live.Pairwise Range.Apart
  dirs : ∀ t, a.s.IsProcess t → ∃ r ∈ a.live, r.held = true ∧ r.Contains .kernel (vpage (a.s.task t).pageDir)
  aligned : ∀ t, a.s.IsProcess t → (a.s.task t).pageDir.toNat % 4096 = 0
  pcbs : ∀ t ∈ a.tasks, t = mainTask ∨ ∃ r ∈ a.live, r.held = true ∧ r.Contains .kernel (t / 4096)
  processes : ∀ t, a.s.IsProcess t → t ∈ a.tasks
  cur : a.s.cur ∈ a.tasks

variable {a a' : Allocator} {s s' : Memory} {dir dir' : Space → Nat} {pf : PoolFlags} {vaddr : Word} {n lo hi : Nat}

theorem LiveRange.kept {r : Range} (h : LiveRange s dir r) (hk : Keeps s s' dir dir') :
    LiveRange s' dir' r where
  exists_ := hk.spaces _ h.exists_
  pos := h.pos
  first := h.first
  heap k hlt := hk.valid (.page r.space _) (h.heap k hlt)
  set k hlt := hk.bit _ _ h.exists_ (h.set k hlt)
  mapped k hlt := by
    obtain ⟨f, hf⟩ := h.mapped k hlt
    exact ⟨f, hk.frame (.page r.space _) f (h.heap k hlt) hf⟩

/-- A range whose bits were clear is apart from every live one. -/
theorem AllocInv.apart_of_clear (h : AllocInv a dir) {r r' : Range} (hr : r ∈ a.live)
    (hclear : ∀ k < r'.cnt, r'.space.bit a.s (r'.page + k) = false) : r.Apart r' := by
  rintro sp n ⟨⟨rfl, hle, hlt⟩, ⟨he, hle', hlt'⟩⟩
  have hset := (h.ranges r hr).set (n - r.page) (by omega)
  have hbit := hclear (n - r'.page) (by omega)
  rw [show r.page + (n - r.page) = n by omega] at hset
  rw [show r'.page + (n - r'.page) = n by omega, ← he, hset] at hbit
  cases hbit

/-- New ranges on pages that were clear, and new threads on held ranges. -/
theorem AllocInv.grow (h : AllocInv a dir) (hk : Keeps a.s s' dir dir') (ht : Tables s' dir')
    (news : List Range) (tasks : List Tid) (hlive : ∀ r ∈ news, LiveRange s' dir' r)
    (hclear : ∀ r ∈ news, ∀ k < r.cnt, r.space.bit a.s (r.page + k) = false)
    (hapart : news.Pairwise Range.Apart)
    (hprocess : ∀ t, s'.IsProcess t → a.s.IsProcess t ∨
      (t ∈ tasks ∧ (s'.task t).pageDir.toNat % 4096 = 0 ∧
        ∃ r ∈ news, r.held = true ∧ r.Contains .kernel (vpage (s'.task t).pageDir)))
    (htasks : ∀ t ∈ tasks, ∃ r ∈ news, r.held = true ∧ r.Contains .kernel (t / 4096)) :
    AllocInv { s := s', live := a.live ++ news, tasks := a.tasks ++ tasks } dir' where
  tables := ht
  ranges := by
    intro r hr
    rcases List.mem_append.1 hr with hr | hr
    · exact (h.ranges r hr).kept hk
    · exact hlive r hr
  apart := by
    rw [List.pairwise_append]
    exact ⟨h.apart, hapart, fun r hr r' hr' => h.apart_of_clear hr (hclear r' hr')⟩
  dirs := by
    intro t hproc
    rcases hprocess t hproc with hold | ⟨-, -, r, hr, hheld, hcontains⟩
    · obtain ⟨r, hr, hheld, hcontains⟩ := h.dirs t hold
      refine ⟨r, List.mem_append_left _ hr, hheld, ?_⟩
      rw [show (Allocator.s ⟨s', a.live ++ news, a.tasks ++ tasks⟩).task t = s'.task t from rfl,
        hk.pageDir t hold]
      exact hcontains
    · exact ⟨r, List.mem_append_right _ hr, hheld, hcontains⟩
  aligned := by
    intro t hproc
    rcases hprocess t hproc with hold | ⟨-, haligned, -⟩
    · rw [show (Allocator.s ⟨s', a.live ++ news, a.tasks ++ tasks⟩).task t = s'.task t from rfl,
        hk.pageDir t hold]
      exact h.aligned t hold
    · exact haligned
  pcbs := by
    intro t hmem
    rcases List.mem_append.1 hmem with hmem | hmem
    · rcases h.pcbs t hmem with he | ⟨r, hr, hheld, hcontains⟩
      · exact Or.inl he
      · exact Or.inr ⟨r, List.mem_append_left _ hr, hheld, hcontains⟩
    · obtain ⟨r, hr, hheld, hcontains⟩ := htasks t hmem
      exact Or.inr ⟨r, List.mem_append_right _ hr, hheld, hcontains⟩
  processes := by
    intro t hproc
    rcases hprocess t hproc with hold | ⟨hmem, -⟩
    · exact List.mem_append_left _ (h.processes t hold)
    · exact List.mem_append_right _ hmem
  cur := by
    change s'.cur ∈ a.tasks ++ tasks
    rw [hk.cur]
    exact List.mem_append_left _ h.cur

/-- The same ranges and threads. -/
theorem AllocInv.same (h : AllocInv a dir) (hk : Keeps a.s s' dir dir) (ht : Tables s' dir)
    (hprocess : ∀ t, s'.IsProcess t → a.s.IsProcess t) : AllocInv { a with s := s' } dir := by
  have hgrow := h.grow hk ht [] [] (by simp) (by simp) List.Pairwise.nil
    (fun t hp => Or.inl (hprocess t hp)) (by simp)
  rw [List.append_nil, List.append_nil] at hgrow
  exact hgrow

theorem mallocPage_pgCnt {v : Option Word} (hcall : mallocPage pf n s = .ok (v, s')) :
    0 < n ∧ n < 3840 := by
  by_contra hno
  rw [mallocPage, massert, if_neg (by simpa using hno)] at hcall
  cases hcall

theorem Malloced.liveRange {v : Word} (hm : Malloced s s' dir v n true) (hn : 0 < n) (held : Bool) :
    LiveRange s' dir ⟨s.space, vpage v, n, held⟩ := by
  obtain ⟨s₁, hr, -⟩ := id hm.reserved
  refine ⟨(hm.exists_iff _).2 s.space_exists, hn, hr.first, ?_, ?_, hm.mapped rfl⟩
  · exact fun k hk => (hm.valid (.page s.space (vpage v + k))).2 (hr.heap k hk)
  · intro k hk
    change k < n at hk
    rw [hm.bit]
    exact if_pos ⟨rfl, Nat.le_add_right _ _, Nat.add_lt_add_left hk _⟩

theorem Malloced.clear {v : Word} {done : Bool} (hm : Malloced s s' dir v n done) :
    ∀ k < n, s.space.bit s (vpage v + k) = false := by
  obtain ⟨s₁, hr, -⟩ := hm.reserved
  exact hr.clear

theorem Malloced.process {v : Word} {done : Bool} (hm : Malloced s s' dir v n done) (t : Tid)
    (hp : s'.IsProcess t) : s.IsProcess t := by
  unfold Memory.IsProcess at hp ⊢
  rw [← hm.tables_same.2.2.2.2.2]
  exact hp

/-- A range that an allocation returns, and its failure, keep the invariant. -/
theorem AllocInv.malloced (h : AllocInv a dir) {v : Word} {done : Bool} (hn : 0 < n)
    (hm : Malloced a.s s' dir v n done) (ht : Tables s' dir) :
    AllocInv { a with
      s := s'
      live := a.live ++ Range.ofResult a.s.space n (if done then some v else none) } dir := by
  cases done with
  | false =>
      have hsame := h.same hm.kept ht hm.process
      rw [show Range.ofResult a.s.space n (if false = true then some v else none) = [] from rfl,
        List.append_nil]
      exact hsame
  | true =>
      have hgrow := h.grow hm.kept ht [⟨a.s.space, vpage v, n, false⟩] [] ?_ ?_
        (List.pairwise_singleton _ _) (fun t hp => Or.inl (hm.process t hp)) (by simp)
      · rw [List.append_nil] at hgrow
        exact hgrow
      · intro r hr
        rw [List.mem_singleton.1 hr]
        exact hm.liveRange hn false
      · intro r hr
        rw [List.mem_singleton.1 hr]
        exact hm.clear

/-- What a call of `mallocPage` that returns has done. -/
theorem AllocInv.mallocPage_outcome (h : AllocInv a dir) (hserves : a.s.Serves pf) (hfits : MallocFits pf n a.s)
    {v : Option Word} (hcall : HoloOS.mallocPage pf n a.s = .ok (v, s')) : (v = none ∧ s' = a.s) ∨
    ∃ done w, v = (if done then some w else none) ∧ Tables s' dir ∧ Malloced a.s s' dir w n done := by
  rcases h.tables.mallocPage (serves_iff.1 hserves) (mallocPage_pgCnt hcall) hfits with
    ⟨-, -, -, hpanic⟩ | ⟨-, hnone⟩ | ⟨done, w, s₁, -, hdone, ht, hm⟩
  · rw [hpanic] at hcall
    cases hcall
  · rw [hnone] at hcall
    cases hcall
    exact Or.inl ⟨rfl, rfl⟩
  · rw [hdone] at hcall
    cases hcall
    exact Or.inr ⟨done, w, rfl, ht, hm⟩

theorem AllocInv.mallocPage (h : AllocInv a dir) (hserves : a.s.Serves pf) (hfits : MallocFits pf n a.s)
    {v : Option Word} (hcall : HoloOS.mallocPage pf n a.s = .ok (v, s')) :
    AllocInv { a with s := s', live := a.live ++ Range.ofResult a.s.space n v } dir := by
  rcases h.mallocPage_outcome hserves hfits hcall with ⟨rfl, rfl⟩ | ⟨done, w, rfl, ht, hm⟩
  · rw [show Range.ofResult a.s.space n none = [] from rfl, List.append_nil]
    exact h
  · exact h.malloced (mallocPage_pgCnt hcall).1 hm ht

theorem getPage_lock {v : Option Word} (hcall : getPage pf vaddr s = .ok (v, s')) : s.holder pf = none := by
  by_contra hheld
  obtain ⟨t, ht⟩ := Option.ne_none_iff_exists'.1 hheld
  rw [getPage, lockAcquire, ht] at hcall
  cases hcall

/-- A page that the bitmap of the running thread's space covers. -/
theorem Layout.heap_of_index (h : Layout s) (hpf : pf = s.space.flag) (hle : s.space.first ≤ n)
    (hlt : n < s.space.first + (s.vaddr pf).vaddrBitmap.size * 8) : s.space.Heap s n := by
  obtain ⟨-, hiff⟩ := h.space_vaddr s.space_exists
  have hheap := (hiff (n - s.space.first)).1 (by rw [← vaddr_eq hpf]; omega)
  rw [show s.space.first + (n - s.space.first) = n by omega] at hheap
  exact hheap

/-- What a call of `getPage` that returns has done. -/
theorem AllocInv.getPage_outcome (h : AllocInv a dir) (hserves : a.s.Serves pf) (haligned : vaddr.toNat % 4096 = 0)
    (hindex : a.s.space.first < vpage vaddr)
    (hfits : vpage vaddr < a.s.space.first + (a.s.vaddr pf).vaddrBitmap.size * 8)
    (hclear : a.s.space.bit a.s (vpage vaddr) = false) (htable : GetFits pf vaddr a.s)
    {v : Option Word} (hcall : HoloOS.getPage pf vaddr a.s = .ok (v, s')) :
    (v = none ∧ ∃ s₁, Reserved a.s s₁ vaddr 1 ∧
      s' = { s₁ with holder := update a.s.holder pf (some a.s.cur) }) ∨
    (v = some vaddr ∧ Tables s' dir ∧ Malloced a.s s' dir vaddr 1 true) := by
  have hpf := serves_iff.1 hserves
  have hheap := h.tables.toLayout.heap_of_index hpf (Nat.le_of_lt hindex) hfits
  obtain ⟨s₁, hr, hout⟩ := h.tables.getPage hpf (getPage_lock hcall) haligned hindex hheap hclear htable
  rcases hout with ⟨-, hnull⟩ | ⟨p, s₂, hsome, ht, hg, hmapped, -⟩
  · rw [hnull] at hcall
    cases hcall
    exact Or.inl ⟨rfl, s₁, hr, rfl⟩
  · rw [hsome] at hcall
    cases hcall
    refine Or.inr ⟨rfl, ht, ⟨s₁, hr, hg⟩, fun _ k hk => ?_, fun hdone => by cases hdone⟩
    rw [show vpage vaddr + k = vpage vaddr by omega]
    exact ⟨p, hmapped⟩

theorem AllocInv.getPage (h : AllocInv a dir) (hserves : a.s.Serves pf) (haligned : vaddr.toNat % 4096 = 0)
    (hindex : a.s.space.first < vpage vaddr)
    (hfits : vpage vaddr < a.s.space.first + (a.s.vaddr pf).vaddrBitmap.size * 8)
    (hclear : a.s.space.bit a.s (vpage vaddr) = false) (htable : GetFits pf vaddr a.s)
    {v : Option Word} (hcall : HoloOS.getPage pf vaddr a.s = .ok (v, s')) :
    AllocInv { a with s := s', live := a.live ++ Range.ofResult a.s.space 1 v } dir := by
  rcases h.getPage_outcome hserves haligned hindex hfits hclear htable hcall with
    ⟨rfl, s₁, hr, rfl⟩ | ⟨rfl, ht, hm⟩
  · have ht₁ := hr.marks.tables h.tables
    have hkept : Keeps a.s { s₁ with holder := update a.s.holder pf (some a.s.cur) } dir dir := by
      refine ⟨fun sp hsp => ?_, fun o ho => ?_, fun o f ho hf => ?_, fun sp k _ hset => ?_, fun t _ => ?_,
        ?_, hr.marks.same.cur⟩
      · exact hr.marks.same.exists_iff.2 hsp
      · exact (hr.marks.same.valid_iff o).2 ho
      · change o.frame s₁.mem dir = some f
        rw [hr.marks.same.mem]
        exact hf
      · have hbit := hr.marks.bit sp k
        rw [hset] at hbit
        refine Eq.trans ?_ (hbit.trans (ite_self true))
        cases sp <;> rfl
      · exact hr.marks.same.pageDir t
      · exact hr.marks.same.space
    rw [show Range.ofResult a.s.space 1 none = [] from rfl, List.append_nil]
    refine h.same hkept (ht₁.withHolder _) fun t hp => ?_
    exact (hr.marks.same.isProcess t).1 hp
  · have hinv := h.malloced (by omega) hm ht
    rwa [if_pos rfl] at hinv

instance : Std.Symm Range.Apart := ⟨fun _ _ h sp n hin => h sp n ⟨hin.2, hin.1⟩⟩

theorem AllocInv.nodup (h : AllocInv a dir) : a.live.Nodup := by
  refine h.apart.imp_of_mem fun {r₁ r₂} hr₁ _ hapart he => ?_
  subst he
  have hpos := (h.ranges r₁ hr₁).pos
  exact hapart r₁.space r₁.page ⟨⟨rfl, Nat.le_refl _, by omega⟩, ⟨rfl, Nat.le_refl _, by omega⟩⟩

theorem Shrank.isProcess (hs : Shrank s s' dir lo hi) (t : Tid) : s'.IsProcess t ↔ s.IsProcess t := by
  unfold Memory.IsProcess
  rw [hs.task.1]

/-- Freeing a range that is not held keeps what the other ranges and all directories need. -/
theorem AllocInv.mfreePage (h : AllocInv a dir) {r : Range} (hlive : r ∈ a.live) (hheld : r.held = false)
    (hspace : r.space = a.s.space) :
    ∃ s₁ s', HoloOS.mfreePage r.space.flag (BitVec.ofNat 32 (r.page * 4096)) r.cnt a.s = .ok s' ∧
      Shrank a.s s₁ dir r.page (r.page + r.cnt) ∧ Marks s₁ s' false r.page r.cnt ∧
      AllocInv { a with s := s', live := a.live.erase r } dir := by
  have hr := h.ranges r hlive
  have hlast := (hr.heap 0 hr.pos).lt h.tables.toLayout
  set v := BitVec.ofNat 32 (r.page * 4096) with hv
  have hnat : v.toNat = r.page * 4096 := by
    rw [hv, BitVec.toNat_ofNat]
    omega
  have hpage : vpage v = r.page := by
    rw [vpage, hnat]
    omega
  have hother : ∀ r' ∈ a.live.erase r, r' ∈ a.live ∧ r'.Apart r := by
    intro r' hr'
    have hmem := List.mem_of_mem_erase hr'
    exact ⟨hmem, h.apart.forall hmem hlive ((h.nodup.mem_erase_iff.1 hr').1)⟩
  have hheldmem : ∀ r' ∈ a.live, r'.held = true → r' ∈ a.live.erase r := by
    intro r' hr' hheld'
    refine h.nodup.mem_erase_iff.2 ⟨?_, hr'⟩
    rintro rfl
    rw [hheld] at hheld'
    cases hheld'
  have hfree : ∀ k < r.cnt, Freeable a.s dir (vpage v + k) := by
    intro k hk
    rw [hpage]
    refine ⟨hspace ▸ hr.heap k hk, hspace ▸ hr.mapped k hk, fun t ht he => ?_⟩
    obtain ⟨r', hr', hheld', hcontains⟩ := h.dirs t ht
    rw [(Owner.page.inj he).2] at hcontains
    refine (hother r' (hheldmem r' hr' hheld')).2 .kernel (r.page + k) ⟨hcontains, ?_⟩
    exact ⟨(Owner.page.inj he).1.trans hspace.symm, by omega, by omega⟩
  obtain ⟨s₁, s', hcall, ht, hs₁, hm⟩ := h.tables.mfreePage
    (show r.space.flag = a.s.space.flag by rw [hspace]) (by omega) hr.pos
    (by rw [hpage, ← hspace]; exact hr.first) hfree
  rw [hpage] at hs₁ hm
  have hspace₁ : s₁.space = a.s.space := hs₁.space
  have hpageDir : ∀ t, (s'.task t).pageDir = (a.s.task t).pageDir := by
    intro t
    rw [hm.same.pageDir, hs₁.task.1]
  have hproc : ∀ t, s'.IsProcess t ↔ a.s.IsProcess t := by
    intro t
    unfold Memory.IsProcess
    rw [hpageDir]
  refine ⟨s₁, s', hcall, hs₁, hm, {
    tables := ht, ranges := ?_, apart := h.apart.sublist List.erase_sublist, dirs := ?_, aligned := ?_, pcbs := ?_
    processes := fun t hp => h.processes t ((hproc t).1 hp), cur := ?_ }⟩
  · intro r' hr'
    obtain ⟨hmem, hapart⟩ := hother r' hr'
    have hold := h.ranges r' hmem
    have hout : ∀ k < r'.cnt, ¬(r'.space = s₁.space ∧ r.page ≤ r'.page + k ∧ r'.page + k < r.page + r.cnt) := by
      intro k hk hin
      refine hapart r'.space (r'.page + k) ⟨⟨rfl, by omega, by omega⟩, ⟨?_, hin.2⟩⟩
      rw [hin.1, hspace₁, hspace]
    refine ⟨?_, hold.pos, hold.first, fun k hk => ?_, fun k hk => ?_, fun k hk => ?_⟩
    · exact hm.same.exists_iff.2 ((hs₁.exists_iff _).2 hold.exists_)
    · exact hm.same.heap_iff.2 ((hs₁.valid (.page r'.space _)).2 (hold.heap k hk))
    · rw [hm.bit, if_neg (hout k hk), hs₁.bit]
      exact hold.set k hk
    · obtain ⟨f, hf⟩ := hold.mapped k hk
      refine ⟨f, ?_⟩
      change mapped s'.mem (dir r'.space) (r'.page + k) = some f
      rw [hm.same.mem]
      refine (hs₁.others (.page r'.space _) (hold.heap k hk) fun n hn hn' he => ?_).trans hf
      have hinj := Owner.page.inj he
      exact hout k hk ⟨hinj.1.trans hspace₁.symm, by omega, by omega⟩
  · intro t hp
    obtain ⟨r', hr', hheld', hcontains⟩ := h.dirs t ((hproc t).1 hp)
    refine ⟨r', hheldmem r' hr' hheld', hheld', ?_⟩
    change r'.Contains .kernel (vpage (s'.task t).pageDir)
    rw [hpageDir]
    exact hcontains
  · intro t hp
    change (s'.task t).pageDir.toNat % 4096 = 0
    rw [hpageDir]
    exact h.aligned t ((hproc t).1 hp)
  · intro t hmem
    rcases h.pcbs t hmem with he | ⟨r', hr', hheld', hcontains⟩
    · exact Or.inl he
    · exact Or.inr ⟨r', hheldmem r' hr' hheld', hheld', hcontains⟩
  · change s'.cur ∈ a.tasks
    rw [hm.same.cur, hs₁.task.2.1]
    exact h.cur

/-- A page that was clear is that of no thread. -/
theorem AllocInv.fresh_task (h : AllocInv a dir) {v : Word} (hheap : Space.kernel.Heap a.s (vpage v))
    (hclear : Space.kernel.bit a.s (vpage v) = false) : v.toNat ∉ a.tasks := by
  intro hmem
  rcases h.pcbs _ hmem with he | ⟨r, hr, -, hcontains⟩
  · have hlow := hheap.1
    rw [vpage, he] at hlow
    exact absurd hlow (by decide)
  · obtain ⟨hsp, hle, hlt⟩ := hcontains
    have hset := (h.ranges r hr).set (vpage v - r.page) (by unfold vpage; omega)
    rw [← hsp, show r.page + (vpage v - r.page) = vpage v by unfold vpage; omega, hclear] at hset
    cases hset

theorem newTask_of_none (hcall : getKernelPages 1 s = .ok (none, s')) :
    newTask s = .ok (0, s'.setPageDir 0 0) := by
  rw [newTask, hcall]
  rfl

theorem newTask_of_some {v : Word} (hcall : getKernelPages 1 s = .ok (some v, s')) :
    newTask s = .ok (v.toNat, s'.setPageDir v.toNat 0) := by
  rw [newTask, hcall]
  rfl

theorem setPageDir_zero {t : Tid} (ht : ¬s.IsProcess t) : s.setPageDir t 0 = s := by
  have hzero : (s.task t).pageDir = 0 := not_not.1 ht
  unfold Memory.setPageDir
  rw [← hzero, update_eq_self]

/-- The page of a new `taskStruct`. -/
theorem AllocInv.newTask (h : AllocInv a dir) (hkernel : a.s.space = .kernel)
    (hfits : MallocFits .kernel 1 a.s) {t : Tid} (ht : t ≠ 0) (hcall : HoloOS.newTask a.s = .ok (t, s')) :
    ∃ v : Word, v.toNat = t ∧ Tables s' dir ∧ Malloced a.s s' dir v 1 true ∧ t ∉ a.tasks := by
  rcases h.tables.getKernelPages hkernel ⟨by omega, by omega⟩ hfits with
    ⟨-, hnull⟩ | ⟨v, s₁, hnull, -, -⟩ | ⟨v, s₁, hsome, h₁, hm, -⟩
  · rw [newTask_of_none hnull] at hcall
    cases hcall
    exact absurd rfl ht
  · rw [newTask_of_none hnull] at hcall
    cases hcall
    exact absurd rfl ht
  · rw [newTask_of_some hsome] at hcall
    have hrun := hm.newRun hkernel
    have hfresh := h.fresh_task (hrun.heap 0 (by omega)) (hrun.clear 0 (by omega))
    have hproc : ¬s₁.IsProcess v.toNat := fun hp => hfresh (h.processes _ (hm.process _ hp))
    rw [setPageDir_zero hproc] at hcall
    cases hcall
    exact ⟨v, rfl, h₁, hm, hfresh⟩

theorem vpage_word {v : Word} {t : Tid} (hv : v.toNat = t) : t / 4096 = vpage v := by
  rw [← hv]
  rfl

theorem AllocInv.threadStart (h : AllocInv a dir) (hkernel : a.s.space = .kernel)
    (hfits : MallocFits .kernel 1 a.s) {t : Tid} (ht : t ≠ 0) (hcall : HoloOS.newTask a.s = .ok (t, s')) :
    AllocInv { s := s', live := a.live ++ [⟨.kernel, t / 4096, 1, true⟩], tasks := a.tasks ++ [t] } dir := by
  obtain ⟨v, hv, h', hm, -⟩ := h.newTask hkernel hfits ht hcall
  rw [vpage_word hv]
  have hlive := hm.liveRange (by omega) true
  have hclear := hm.clear
  rw [hkernel] at hlive hclear
  refine h.grow hm.kept h' _ _ ?_ ?_ (List.pairwise_singleton _ _) (fun u hp => Or.inl (hm.process u hp)) ?_
  · intro r hr
    rw [List.mem_singleton.1 hr]
    exact hlive
  · intro r hr
    rw [List.mem_singleton.1 hr]
    exact hclear
  · intro u hu
    rw [List.mem_singleton.1 hu]
    exact ⟨_, List.mem_singleton_self _, rfl, rfl, Nat.le_of_eq (vpage_word hv).symm,
      by rw [vpage_word hv]; exact Nat.lt_succ_self _⟩

theorem NewRun.liveRange {v : Word} (hr : NewRun s s' dir v n) (hn : 0 < n) (hheap : ∀ k,
    Space.kernel.Heap s k → Space.kernel.Heap s' k) : LiveRange s' dir ⟨.kernel, vpage v, n, true⟩ :=
  ⟨trivial, hn, (hr.heap 0 hn).1, fun k hk => hheap _ (hr.heap k hk), hr.set, hr.mapped⟩

theorem AllocInv.processExecute (h : AllocInv a dir) (hkernel : a.s.space = .kernel)
    (hfits : MallocFits .kernel 1 a.s) {t : Tid} {b : Word} {s₁ s₂ : Memory} (ht : t ≠ 0)
    (hpcb : HoloOS.newTask a.s = .ok (t, s₁)) (hspace : SpaceFits t s₁)
    (hbits : getKernelPages 23 s₁ = .ok (some b, s₂)) (hcall : processSpace t s₁ = .ok s')
    (hdir : s'.IsProcess t) :
    ∃ f s₃, Created s₁ s' dir t b (s'.task t).pageDir f ∧ Stages s₁ s₂ s₃ s' dir t b (s'.task t).pageDir f ∧
      AllocInv { s := s'
                 live := a.live ++ [⟨.kernel, t / 4096, 1, true⟩, ⟨.kernel, vpage b, 23, true⟩,
                   ⟨.kernel, vpage (s'.task t).pageDir, 1, true⟩]
                 tasks := a.tasks ++ [t] } (update dir (.process t) f) := by
  obtain ⟨v, hv, h₁, hm, hnot⟩ := h.newTask hkernel hfits ht hpcb
  have hsp₁ : s₁.space = .kernel := hm.tables_same.1.trans hkernel
  have hrun := hm.newRun hkernel
  have hproc₁ : ¬s₁.IsProcess t := fun hp => hnot (h.processes t (hm.process t hp))
  have hcur : t ≠ s₁.cur := by
    rintro rfl
    rw [hm.tables_same.2.1] at hnot
    exact hnot h.cur
  have hpage : DataPage s₁ dir (vpage v) := by
    have hp := hm.dataPage h.tables h₁ 0 (by omega)
    rw [Nat.add_zero] at hp
    exact hp
  rcases h₁.processSpace hsp₁ hv hrun.aligned hproc₁ hcur hpage hspace with
    ⟨hpanic, -⟩ | ⟨s₃, hok, hno, -⟩ | ⟨b', s₃, d, f, s₄, hbits', hok, hc, s₅, hstages⟩
  · rw [hpanic] at hcall
    cases hcall
  · rw [hok] at hcall
    cases hcall
    exact absurd hdir hno
  rw [hok] at hcall
  cases hcall
  rw [hbits] at hbits'
  cases hbits'
  have hd := hc.pageDir
  subst hd
  refine ⟨f, s₅, hc, hstages, ?_⟩
  rw [vpage_word hv]
  have hkept := hm.kept.trans hc.kept
  have hheap : ∀ k, Space.kernel.Heap s₁ k → Space.kernel.Heap s' k :=
    fun k hk => hc.kept.valid (.page .kernel k) hk
  have hpcbLive : LiveRange s₁ dir ⟨.kernel, vpage v, 1, true⟩ := by
    have hlive := hm.liveRange (by omega) true
    rw [hkernel] at hlive
    exact hlive
  -- clear in the state with the new `taskStruct`, so clear before
  have hclear : ∀ w m, NewRun s₁ s' (update dir (.process t) f) w m → ∀ k < m,
      Space.kernel.bit a.s (vpage w + k) = false := by
    intro w m hr k hk
    by_contra hset
    have hbit := hm.kept.bit .kernel (vpage w + k) trivial (by simpa using hset)
    rw [hr.clear k hk] at hbit
    cases hbit
  have hpcbApart : ∀ w m, NewRun s₁ s' (update dir (.process t) f) w m →
      Range.Apart ⟨.kernel, vpage v, 1, true⟩ ⟨.kernel, vpage w, m, true⟩ := by
    rintro w m hr sp n ⟨⟨-, hle, hlt⟩, ⟨-, hle', hlt'⟩⟩
    dsimp only at hle hlt hle' hlt'
    have hset := hpcbLive.set 0 Nat.one_pos
    have hbit := hr.clear (vpage v - vpage w) (by omega)
    dsimp only at hset
    rw [show vpage w + (vpage v - vpage w) = vpage v + 0 by omega, hset] at hbit
    cases hbit
  refine h.grow hkept hc.tables _ _ ?_ ?_ ?_ ?_ ?_
  · intro r hr
    simp only [List.mem_cons, List.not_mem_nil, or_false] at hr
    rcases hr with rfl | rfl | rfl
    · exact hpcbLive.kept hc.kept
    · exact hc.bitmap.liveRange (by omega) hheap
    · exact hc.dirPage.liveRange (by omega) hheap
  · intro r hr
    simp only [List.mem_cons, List.not_mem_nil, or_false] at hr
    rcases hr with rfl | rfl | rfl
    · exact hrun.clear
    · exact hclear b 23 hc.bitmap
    · exact hclear _ 1 hc.dirPage
  · refine List.pairwise_cons.2 ⟨fun r hr => ?_, List.pairwise_cons.2 ⟨fun r hr => ?_, List.pairwise_singleton _ _⟩⟩
    · simp only [List.mem_cons, List.not_mem_nil, or_false] at hr
      rcases hr with rfl | rfl
      · exact hpcbApart b 23 hc.bitmap
      · exact hpcbApart _ 1 hc.dirPage
    · rw [List.mem_singleton.1 hr]
      rintro sp n ⟨⟨-, hle, hlt⟩, ⟨-, hle', hlt'⟩⟩
      dsimp only at hle hlt hle' hlt'
      have hapart := hc.apart
      omega
  · intro u hu
    rcases (hc.isProcess u).1 hu with rfl | hu
    · refine Or.inr ⟨List.mem_singleton_self _, hc.dirPage.aligned, _, List.mem_cons_of_mem _ (List.mem_cons_of_mem _
        (List.mem_singleton_self _)), rfl, rfl, Nat.le_refl _, Nat.lt_succ_self _⟩
    · exact Or.inl (hm.process u hu)
  · intro u hu
    rw [List.mem_singleton.1 hu]
    exact ⟨_, List.mem_cons_self, rfl, rfl, Nat.le_of_eq (vpage_word hv).symm,
      by rw [vpage_word hv]; exact Nat.lt_succ_self _⟩

/-- The directory that `pageDirActivate` loads. -/
theorem Tables.v2p_pageDir (h : Tables s dir) {t : Tid} (ht : s.IsProcess t) {p : Word}
    (hcall : HoloOS.v2p (s.task t).pageDir s = .ok p) (haligned : (s.task t).pageDir.toNat % 4096 = 0) :
    p.toNat = dir (.process t) := by
  obtain ⟨hheap, hmapped⟩ := h.dir_heap t ht
  have hfit := h.vfit
  have hregion : 768 ≤ vpage (s.task t).pageDir / 1024 ∧ vpage (s.task t).pageDir / 1024 < 1023 := by
    obtain ⟨hlo, hhi⟩ := hheap
    omega
  have hcur : entry s.mem (dir s.space) (vpage (s.task t).pageDir / 1024) = none ∨
      entry s.mem (dir s.space) (vpage (s.task t).pageDir / 1024) =
        entry s.mem kernelDir (vpage (s.task t).pageDir / 1024) := by
    have hexists := s.space_exists
    cases hsp : s.space with
    | kernel => rw [h.dir_kernel]; exact Or.inr rfl
    | process u =>
        rw [hsp] at hexists
        exact h.shared u _ hexists hregion.1 hregion.2
  rcases hcur with hnone | hsame
  · rw [HoloOS.v2p, h.windowed.load_pte_none hnone] at hcall
    cases hcall
  · have hmapped' : mapped s.mem (dir s.space) (vpage (s.task t).pageDir) = some (dir (.process t)) := by
      rw [mapped, hsame]
      exact hmapped
    obtain ⟨q, hq, hnat⟩ := v2p_eq h.windowed hmapped'
    rw [hcall] at hq
    cases hq
    rw [hnat, haligned, Nat.add_zero]

/-- `Tables` after a switch to thread `t` and its directory. -/
theorem Tables.activate (h : Tables s dir) {t : Tid} {d : Nat} (tlb : Nat → Option Nat)
    (hd : d = dir (if s.IsProcess t then .process t else .kernel)) :
    Tables { s with cr3 := d, tlb := tlb, cur := t } dir :=
  { h.toLayout with
    dir_kernel := h.dir_kernel, first := h.first, self := h.self, dir_heap := h.dir_heap
    dir_inj := h.dir_inj, shared := h.shared, inj := h.inj, clear := h.clear, cr3 := hd
    used := fun o f ho hf => by
      have hused := h.used o f ho hf
      cases hflag : o.flag <;> rw [hflag] at hused <;> exact hused }

/-- What a switch does. -/
theorem Tables.activated (h : Tables s dir) {t : Tid}
    (haligned : s.IsProcess t → (s.task t).pageDir.toNat % 4096 = 0)
    (hcall : HoloOS.processActivate t s = .ok s') :
    s' = { s with
      cr3 := dir (if s.IsProcess t then .process t else .kernel), tlb := fun _ => none, cur := t } := by
  have ht : decide (t ≠ 0) = true := by
    by_contra hno
    rw [HoloOS.processActivate, massert, if_neg hno] at hcall
    cases hcall
  rw [HoloOS.processActivate, massert_bind ht] at hcall
  by_cases hp : s.IsProcess t
  · rw [if_pos (show (s.task t).pageDir ≠ 0 from hp)] at hcall
    cases hv2p : HoloOS.v2p (s.task t).pageDir s with
    | error e => rw [hv2p] at hcall; cases hcall
    | ok p =>
        rw [hv2p, ok_bind] at hcall
        rw [if_pos hp, ← h.v2p_pageDir hp hv2p (haligned hp)]
        cases hcall
        rfl
  · rw [if_neg (show ¬(s.task t).pageDir ≠ 0 from hp), pure_bind] at hcall
    rw [if_neg hp, h.dir_kernel]
    cases hcall
    rfl

theorem AllocInv.activated (h : AllocInv a dir) {t : Tid}
    (hcall : HoloOS.processActivate t a.s = .ok s') :
    s' = { a.s with
      cr3 := dir (if a.s.IsProcess t then .process t else .kernel), tlb := fun _ => none, cur := t } :=
  h.tables.activated (h.aligned t) hcall

theorem LiveRange.switch {r : Range} (h : LiveRange s dir r) (d : Nat) (tlb : Nat → Option Nat) (t : Tid) :
    LiveRange { s with cr3 := d, tlb := tlb, cur := t } dir r := by
  obtain ⟨sp, page, cnt, held⟩ := r
  cases sp <;> exact ⟨h.exists_, h.pos, h.first, h.heap, h.set, h.mapped⟩

theorem AllocInv.switch (h : AllocInv a dir) {t : Tid} (htask : t ∈ a.tasks) {d : Nat}
    (tlb : Nat → Option Nat) (hd : d = dir (if a.s.IsProcess t then .process t else .kernel)) :
    AllocInv { a with s := { a.s with cr3 := d, tlb := tlb, cur := t } } dir :=
  ⟨h.tables.activate tlb hd, fun r hr => (h.ranges r hr).switch d tlb t, h.apart, h.dirs, h.aligned, h.pcbs,
    h.processes, htask⟩

theorem AllocInv.processActivate (h : AllocInv a dir) {t : Tid} (htask : t ∈ a.tasks)
    (hcall : HoloOS.processActivate t a.s = .ok s') : AllocInv { a with s := s' } dir := by
  rw [h.activated hcall]
  exact h.switch htask _ rfl

/-- Caching a translation changes no table. -/
theorem AllocInv.cached (h : AllocInv a dir) (tlb : Nat → Option Nat) :
    AllocInv { a with s := { a.s with tlb := tlb } } dir := by
  refine h.switch h.cur tlb ?_
  exact h.tables.cr3

/-- A page of a live range that is not held is one of data. -/
theorem AllocInv.dataPage (h : AllocInv a dir) {r : Range} (hlive : r ∈ a.live) (hheld : r.held = false)
    {k : Nat} (hpage : r.Contains a.s.space k) : DataPage a.s dir k := by
  obtain ⟨hsp, hle, hlt⟩ := hpage
  have hr := h.ranges r hlive
  have hheap := hr.heap (k - r.page) (by omega)
  obtain ⟨f, hf⟩ := hr.mapped (k - r.page) (by omega)
  rw [show r.page + (k - r.page) = k by omega, ← hsp] at hheap hf
  refine ⟨hheap, f, hf, ⟨_, _, hheap, hf⟩, fun t ht he => ?_⟩
  obtain ⟨r', hr', hheld', hcontains⟩ := h.dirs t ht
  obtain ⟨hvalid, hframe⟩ := h.tables.dir_page ht
  rw [he] at hframe
  have hpage := Owner.page.inj (h.tables.inj _ (.page a.s.space k) f hvalid hheap hframe hf)
  have hne : r' ≠ r := by
    rintro rfl
    rw [hheld] at hheld'
    cases hheld'
  refine h.apart.forall hr' hlive hne a.s.space k ⟨?_, hsp, hle, hlt⟩
  rw [hpage.2, hpage.1] at hcontains
  exact hcontains

theorem AllocInv.write_scribbles (h : AllocInv a dir) {r : Range} (hlive : r ∈ a.live) (hheld : r.held = false)
    {val : BitVec 8} (hpage : r.Contains a.s.space (vpage vaddr))
    (hcall : a.s.storeByte vaddr val = .ok s') : Scribbles a.s s' dir := by
  have hdata := h.dataPage hlive hheld hpage
  obtain ⟨f, hf, hframe⟩ := hdata.data
  have hwalk : a.s.walk vaddr = some (f + vaddr.toNat % 4096) := walk_eq (by rw [h.tables.cr3]; exact hf)
  rw [Memory.storeByte, phys_eq hwalk, ok_bind] at hcall
  cases hcall
  refine ⟨rfl, fun b hne => ⟨f, hframe, ?_⟩⟩
  by_contra hout
  exact hne (update_of_ne (by omega) _ _)

theorem AllocInv.write (h : AllocInv a dir) {r : Range} (hlive : r ∈ a.live) (hheld : r.held = false)
    {val : BitVec 8} (hpage : r.Contains a.s.space (vpage vaddr))
    (hcall : a.s.storeByte vaddr val = .ok s') : AllocInv { a with s := s' } dir := by
  have hs := h.write_scribbles hlive hheld hpage hcall
  refine h.same (hs.kept h.tables) (hs.tables h.tables) fun t hp => ?_
  unfold Memory.IsProcess at hp ⊢
  rw [hs.same] at hp
  exact hp

/-- One step. -/
theorem AllocInv.step (h : AllocInv a dir) {e : AllocEvent} (hfits : Fits e a.s) (hstep : AllocStep a e a') :
    ∃ dir', AllocInv a' dir' := by
  cases hstep with
  | mallocPage hserves hcall => exact ⟨dir, h.mallocPage hserves hfits hcall⟩
  | mfreePage hlive hheld hspace hcall =>
      obtain ⟨s₁, s₂, hfree, -, -, hinv⟩ := h.mfreePage hlive hheld hspace
      rw [hfree] at hcall
      cases hcall
      exact ⟨dir, hinv⟩
  | getPage hserves haligned hindex hin hclear hcall =>
      exact ⟨dir, h.getPage hserves haligned hindex hin hclear hfits hcall⟩
  | threadStart hkernel ht hcall => exact ⟨dir, h.threadStart hkernel hfits ht hcall⟩
  | processExecute hkernel ht hpcb hbits hcall hdir =>
      obtain ⟨f, -, -, -, hinv⟩ := h.processExecute hkernel hfits.1 ht hpcb (hfits.2 _ _ hpcb) hbits hcall hdir
      exact ⟨_, hinv⟩
  | processActivate htask hcall => exact ⟨dir, h.processActivate htask hcall⟩
  | write hlive hheld hpage hcall => exact ⟨dir, h.write hlive hheld hpage hcall⟩
  | access hpage => exact ⟨dir, h.cached _⟩

theorem start_inv {m : Mem} (hm : Loaded m) (memCapacity : Word) :
    AllocInv (Allocator.start m memCapacity) fun _ => kernelDir where
  tables := boot_tables hm.bootPages memCapacity
  ranges _ hr := absurd hr List.not_mem_nil
  apart := List.Pairwise.nil
  dirs _ ht := absurd rfl ht
  aligned _ ht := absurd rfl ht
  pcbs _ ht := Or.inl (List.mem_singleton.1 ht)
  processes _ ht := absurd rfl ht
  cur := List.mem_singleton_self _

/-- Every state that a run reaches in which page tables find their frames. -/
theorem runs_inv {m : Mem} (hm : Loaded m) {memCapacity : Word} {condition : AllocEvent → Allocator → Prop}
    (hcond : ∀ e a, condition e a → Fits e a.s) (hrun : Runs condition (Allocator.start m memCapacity) a) :
    ∃ dir, AllocInv a dir := by
  induction hrun with
  | refl => exact ⟨_, start_inv hm memCapacity⟩
  | tail _ hstep ih =>
      obtain ⟨dir, hinv⟩ := ih
      obtain ⟨e, hfits, hstep⟩ := hstep
      exact hinv.step (hcond e _ hfits) hstep

end HoloOS
