import HoloOS.SyncAssignments

/-! Each thread has one `generalTag` for the ready list, the waiters of every lock and the sleepers
of every condition. It is linked into at most one of them in every run in which no timer interrupt
ends the slice of a thread in a list operation or between the `listAppend` of `lockAcquire` and the
`listRemove` or `intrDisable` that follows; one such interrupt breaks the lists. -/

namespace HoloOS

open Function Linked

/-- The lists of general tags are well formed, and no tag is in two of them. -/
def TagsSafe (m : Machine) : Prop :=
  (∀ x, x ≠ .all → ∃ nodes, Holds m.k.heap (klist x) nodes) ∧
  ∀ x y nodes nodes' t, x ≠ .all → y ≠ .all → Holds m.k.heap (klist x) nodes →
    Holds m.k.heap (klist y) nodes' → Node.generalTag t ∈ nodes → Node.generalTag t ∈ nodes' → x = y

theorem TagLists.tagsSafe {m : Machine} {q : ListId → List Tid} (h : TagLists m.k.heap q) :
    TagsSafe m := by
  refine ⟨fun x _ => ⟨_, h.holds x⟩, ?_⟩
  intro x y nodes nodes' t hx hy hnodes hnodes' ht ht'
  rw [hnodes.unique (h.holds x)] at ht
  rw [hnodes'.unique (h.holds y)] at ht'
  have htag : tagFor x t = .generalTag t := by cases x <;> first | rfl | exact absurd rfl hx
  have htag' : tagFor y t = .generalTag t := by cases y <;> first | rfl | exact absurd rfl hy
  rw [← htag] at ht
  rw [← htag'] at ht'
  exact h.disjoint x y t hx hy (mem_map_tagFor.1 ht).2 (mem_map_tagFor.1 ht').2

/-- With the window spared every thread's tag is in at most one list whenever the running thread is in no list
operation, and once it has ended the one that it is in; no other thread is in one. -/
theorem tags_safe_of_spared {s : Split} (h : SplitReached SplitSpared s) :
    (s.todo s.m.cur = [] → TagsSafe s.m) ∧ TagsSafe s.settled ∧ ∀ t, t ≠ s.m.cur → s.todo t = [] := by
  have hsettles := h.settles
  obtain ⟨μ, q, hinv⟩ := reached_inv hsettles.reached
  have hsafe : TagsSafe s.settled := hinv.lists.tagsSafe
  refine ⟨fun hcur => ?_, hsafe, hsettles.others⟩
  rw [settled_of_nil hcur] at hsafe
  exact hsafe

/-- The boot state of a kernel whose memory was `k`. -/
def bootMachine (main : Tid) (k : Kernel) : Machine where
  k := ((({ k with heap := initHeap, intr := false } : Kernel).supported main).inited main 31).append
    .all (.allListTag main)
  holder _ := none
  value _ := 0
  code _ := []
  owns _ _ := false

theorem booted_bootMachine (main : Tid) (k : Kernel) : Booted (bootMachine main k) :=
  ⟨main, k, threadSupportInit_eq main _, fun _ => rfl, fun _ => rfl, fun _ _ => rfl⟩

/-- A second thread with a slice of one tick is created, and the main thread goes to sleep on
semaphore 0, so that the second thread runs. -/
def secondRuns (before : List Event) : List Event :=
  .call (.threadStart 2 1) :: List.replicate 15 .step ++ before ++
  .call (.semaphoreDown 0) :: List.replicate 17 .step

/-- The second thread finds lock 0 taken and begins to link its tag into the waiters. -/
def splitInsert : List SplitEvent :=
  (secondRuns [.call (.lockAcquire (.named 0)), .step, .step] ++
    Event.call (.lockAcquire (.named 0)) :: List.replicate 3 Event.step).map .event

/-- The boot state, with no list operation under way. -/
def bootSplit : Split := ⟨bootMachine 1 bootKernel, fun _ => []⟩

/-- Up to there the tag is in one list only. -/
theorem tags_safe_of_spared_run : ∃ s, playSplit (fun _ e => decide (e ≠ .event .tick)) (splitInsert ++
      List.replicate 4 .assign) bootSplit = some s ∧
    s.m.k.heap.next (.head (.waiters (.named 0))) = .generalTag 2 ∧ TagsSafe s.m := by
  have hend : (playSplit (fun _ e => decide (e ≠ .event .tick)) (splitInsert ++ List.replicate 4 .assign)
      bootSplit).map (fun s => (s.m.k.heap.next (.head (.waiters (.named 0))), s.todo s.m.cur)) =
      some (.generalTag 2, []) := by
    decide +kernel
  obtain ⟨s, hs, hlink⟩ := Option.map_eq_some_iff.1 hend
  obtain ⟨hnext, htodo⟩ := Prod.mk.inj hlink
  have hspared : ∀ s e, decide (e ≠ SplitEvent.event .tick) = true → SplitSpared s e :=
    fun s e hcheck htick => absurd htick (of_decide_eq_true hcheck)
  refine ⟨s, hs, hnext, (tags_safe_of_spared ⟨_, booted_bootMachine 1 bootKernel, ?_⟩).1 htodo⟩
  exact playSplit_steps hspared hs

/-- When the slice of the second thread ends now, `schedule` links its tag into the ready list. -/
theorem tags_safe_broken : ¬∀ s, SplitReached (fun _ _ => True) s → s.todo s.m.cur = [] → TagsSafe s.m := by
  intro hall
  have hend : (playSplit (fun _ _ => true) (splitInsert ++ List.replicate 4 .assign ++ [.event .tick])
      bootSplit).map (fun s => (decide (s.m.k.heap.prev (s.m.k.heap.next (.head (.waiters (.named 0)))) =
        .head (.waiters (.named 0))), s.todo s.m.cur)) = some (false, []) := by
    decide +kernel
  obtain ⟨s, hs, hlink⟩ := Option.map_eq_some_iff.1 hend
  obtain ⟨hbroken, htodo⟩ := Prod.mk.inj hlink
  have hreached := playSplit_steps (fun _ _ _ => trivial) hs
  obtain ⟨nodes, hnodes⟩ := (hall s ⟨_, booted_bootMachine _ _, hreached⟩ htodo).1 (.waiters (.named 0)) (by simp)
  have hback : s.m.k.heap.prev (s.m.k.heap.next (.head (.waiters (.named 0)))) = .head (.waiters (.named 0)) :=
    hnodes.prev_next_head
  exact of_decide_eq_false hbroken hback

end HoloOS
