import XnuTrace.TwowaySearch
import XnuTrace.Lib.Stepwise
import XnuTrace.Lib.Interleaving
import Mathlib.Algebra.BigOperators.Group.Finset.Piecewise
import Mathlib.Algebra.Order.BigOperators.Group.Finset
import Mathlib.Data.Multiset.AddSub

/-! `wait_on_n_tasks` and `parallelize_indexed_loop`, with the `AtomicWaiter` on which the caller
waits for its tasks. A task's block is the list of its accesses to what the tasks share (and to
locals of its own, which the shared state then holds). Each of them and each access to `m_cnt` is a
step of its own, and the steps of the caller and of the threads of the pool come in any order.

`BS::thread_pool` itself is not among the sources. What is used of it is a `TaskQueue`, and that
nothing else uses the pool meanwhile, that it is not paused and that a thread without a task takes
the next one. -/
namespace XnuTrace
open Stepwise Occurrences Interleaving

/-- The queue of a pool: a pushed task waits in it until it is taken, each is taken once, and while
one waits there is one to be taken. -/
structure TaskQueue (Q : Type) where
  empty : Q
  pushTask : Q → Nat → Q
  take : Q → Option (Nat × Q)
  waiting : Q → Multiset Nat
  waiting_empty : waiting empty = 0
  waiting_pushTask : ∀ q i, waiting (pushTask q i) = i ::ₘ waiting q
  take_none : ∀ q, take q = none ↔ waiting q = 0
  waiting_take : ∀ q i rest, take q = some (i, rest) → waiting q = i ::ₘ waiting rest

/-- First in, first out. -/
def TaskQueue.fifo : TaskQueue (List Nat) where
  empty := []
  pushTask q i := q ++ [i]
  take
    | [] => none
    | i :: rest => some (i, rest)
  waiting q := q
  waiting_empty := rfl
  waiting_pushTask q i := by simp [← Multiset.coe_add, ← Multiset.singleton_add, add_comm]
  take_none q := by cases q <;> simp
  waiting_take q i rest taken := by
    cases q with
    | nil => cases taken
    | cons j q =>
      cases taken
      rfl

/-- What a task has behind it: as many of its block's accesses, if it runs. A task that has released
the waiter has yet to notify it. -/
inductive TaskPhase
  | unpushed | queued | running (made : Nat) | released | done
  deriving DecidableEq

/-- Where the caller is: pushing the next task, or in `AtomicWaiter::wait` before `cur = m_cnt`, in
`m_cnt.wait(cur)` before its comparison, or blocked there. -/
inductive CallerPhase
  | pushing (i : Nat) | loading | comparing (cur : Size) | blocked (cur : Size) | returned
  deriving DecidableEq

inductive PoolAct
  | caller | begin | task (i : Nat) | spurious
  deriving DecidableEq

structure Pool (Q S : Type) where
  tasks : Nat → TaskPhase
  queue : Q
  cnt : Size
  caller : CallerPhase
  shared : S

namespace TaskPhase

/-- The task still counts in `m_cnt`. -/
def counts : TaskPhase → Nat
  | released | done => 0
  | _ => 1

/-- The task has a thread. -/
def active : TaskPhase → Nat
  | running _ | released => 1
  | _ => 0

/-- The steps the task has before it, with a block of so many accesses. -/
def left (len : Nat) : TaskPhase → Nat
  | unpushed => len + 4
  | queued => len + 3
  | running made => len - made + 2
  | released => 1
  | done => 0

/-- How many accesses the task has made. -/
def progress (len : Nat) : TaskPhase → Nat
  | unpushed | queued => 0
  | running made => made
  | released | done => len

end TaskPhase

/-- A blocked caller goes back to the comparison. -/
def CallerPhase.wake : CallerPhase → CallerPhase
  | blocked cur => comparing cur
  | phase => phase

namespace Pool
variable {Q S : Type}

/-- `AtomicWaiter waiter(n)`, before the first task is pushed. -/
def start (queue : TaskQueue Q) (n : Nat) (shared : S) : Pool Q S where
  tasks _ := .unpushed
  queue := queue.empty
  cnt := BitVec.ofNat 64 n
  caller := .pushing 0
  shared := shared

/-- The sum over the tasks. -/
def total (n : Nat) (weight : Nat → TaskPhase → Nat) (tasks : Nat → TaskPhase) : Nat :=
  ∑ i ∈ Finset.range n, weight i (tasks i)

def unreleased (n : Nat) (s : Pool Q S) : Nat := total n (fun _ => TaskPhase.counts) s.tasks

def busy (n : Nat) (s : Pool Q S) : Nat := total n (fun _ => TaskPhase.active) s.tasks

def become (s : Pool Q S) (i : Nat) (phase : TaskPhase) : Pool Q S :=
  { s with tasks := Function.update s.tasks i phase }

def callerStep (queue : TaskQueue Q) (n : Nat) (s : Pool Q S) : Option (Pool Q S) :=
  match s.caller with
  | .pushing i =>
    if i < n then
      some { s.become i .queued with
        queue := queue.pushTask s.queue i, caller := .pushing (i + 1) }
    else some { s with caller := .loading }
  | .loading => some { s with caller := if s.cnt = 0 then .returned else .comparing s.cnt }
  | .comparing cur => some { s with caller := if s.cnt = cur then .blocked cur else .loading }
  | .blocked _ | .returned => none

/-- A thread without a task takes the next one from the queue. -/
def beginStep (queue : TaskQueue Q) (n w : Nat) (s : Pool Q S) : Option (Pool Q S) :=
  match queue.take s.queue with
  | none => none
  | some (i, rest) =>
    if s.busy n < w then some { s.become i (.running 0) with queue := rest } else none

/-- The task's next access, its release of the waiter or its notification. -/
def taskStep (block : Nat → List (S → S)) (s : Pool Q S) (i : Nat) : Option (Pool Q S) :=
  match s.tasks i with
  | .running made =>
    match (block i)[made]? with
    | some access => some { s.become i (.running (made + 1)) with shared := access s.shared }
    | none => some { s.become i .released with cnt := s.cnt - 1 }
  | .released => some { s.become i .done with caller := s.caller.wake }
  | _ => none

/-- One step with `n` tasks and `w` threads. A blocked caller may wake up for no reason. -/
def step (queue : TaskQueue Q) (n w : Nat) (block : Nat → List (S → S)) (s : Pool Q S) :
    PoolAct → Option (Pool Q S)
  | .caller => s.callerStep queue n
  | .begin => s.beginStep queue n w
  | .task i => s.taskStep block i
  | .spurious =>
    match s.caller with
    | .blocked cur => some { s with caller := .comparing cur }
    | _ => none

/-- The accesses that the tasks have made, in some order of all: of each task the first of its
block, in their order. -/
def Ran (block : Nat → List (S → S)) (s0 : S) (tasks : Nat → TaskPhase) (shared : S) : Prop :=
  ∃ trace : List (Nat × (S → S)),
    (∀ i, own trace i = (block i).take ((tasks i).progress (block i).length)) ∧
    shared = exec trace s0

/-- What holds in each state of each run, with the state that the blocks started from. -/
structure Inv (queue : TaskQueue Q) (n : Nat) (block : Nat → List (S → S)) (s0 : S)
    (s : Pool Q S) : Prop where
  unpushed : ∀ i < n, s.tasks i = .unpushed ↔ ∃ j, s.caller = .pushing j ∧ j ≤ i
  pushing : ∀ j, s.caller = .pushing j → j ≤ n
  outside : ∀ i, n ≤ i → s.tasks i = .unpushed
  queued : ∀ i, i ∈ queue.waiting s.queue ↔ s.tasks i = .queued
  nodup : (queue.waiting s.queue).Nodup
  cnt : s.cnt = BitVec.ofNat 64 (s.unreleased n)
  ran : Ran block s0 s.tasks s.shared
  loaded : ∀ cur, s.caller = .comparing cur ∨ s.caller = .blocked cur → cur ≠ 0
  notified : ∀ cur, s.caller = .blocked cur → s.cnt = cur ∨ ∃ i, s.tasks i = .released
  returned : s.caller = .returned → s.cnt = 0

section
variable {queue : TaskQueue Q} {n w : Nat} {block : Nat → List (S → S)} {s0 : S}
  {s s' : Pool Q S} {act : PoolAct}

theorem total_update (weight : Nat → TaskPhase → Nat) (tasks : Nat → TaskPhase) {i : Nat}
    (inside : i < n) (phase : TaskPhase) :
    total n weight (Function.update tasks i phase) + weight i (tasks i) =
      total n weight tasks + weight i phase := by
  have member := Finset.mem_range.mpr inside
  have moved : ∀ j, weight j (Function.update tasks i phase j) =
      Function.update (fun j => weight j (tasks j)) i (weight i phase) j := fun j =>
    (Function.apply_update weight tasks i phase j)
  have old := Finset.add_sum_erase (Finset.range n) (fun j => weight j (tasks j)) member
  simp only [total, moved, Finset.sum_update_of_mem member, Finset.sdiff_singleton_eq_erase]
  omega

theorem inv_start (queue : TaskQueue Q) (n : Nat) (block : Nat → List (S → S)) (s0 : S) :
    Inv queue n block s0 (start queue n s0) where
  unpushed := fun i _ => ⟨fun _ => ⟨0, rfl, Nat.zero_le i⟩, fun _ => rfl⟩
  pushing := by
    rintro j ⟨⟩
    exact Nat.zero_le n
  outside := fun _ _ => rfl
  queued := fun i => by simp [start, queue.waiting_empty]
  nodup := by simp [start, queue.waiting_empty]
  cnt := by simp [start, unreleased, total, TaskPhase.counts]
  ran := ⟨[], fun i => by simp [start, TaskPhase.progress], rfl⟩
  loaded := by rintro cur (⟨⟨⟩⟩ | ⟨⟨⟩⟩)
  notified := by rintro cur ⟨⟩
  returned := by rintro ⟨⟩

/-- The steps by what they do. -/
inductive Move (queue : TaskQueue Q) (n w : Nat) (block : Nat → List (S → S)) (s : Pool Q S) :
    PoolAct → Pool Q S → Prop
  | push {i : Nat} (inside : i < n) (phase : s.caller = .pushing i) :
    Move queue n w block s .caller { s.become i .queued with
      queue := queue.pushTask s.queue i, caller := .pushing (i + 1) }
  | pushed {i : Nat} (all : ¬ i < n) (phase : s.caller = .pushing i) :
    Move queue n w block s .caller { s with caller := .loading }
  | zero (phase : s.caller = .loading) (zero : s.cnt = 0) :
    Move queue n w block s .caller { s with caller := .returned }
  | load (phase : s.caller = .loading) (more : s.cnt ≠ 0) :
    Move queue n w block s .caller { s with caller := .comparing s.cnt }
  | block {cur : Size} (phase : s.caller = .comparing cur) (same : s.cnt = cur) :
    Move queue n w block s .caller { s with caller := .blocked cur }
  | changed {cur : Size} (phase : s.caller = .comparing cur) (differs : s.cnt ≠ cur) :
    Move queue n w block s .caller { s with caller := .loading }
  | begin {i : Nat} {rest : Q} (front : queue.take s.queue = some (i, rest))
      (free : s.busy n < w) :
    Move queue n w block s .begin { s.become i (.running 0) with queue := rest }
  | access {i made : Nat} {access : S → S} (phase : s.tasks i = .running made)
      (next : (block i)[made]? = some access) :
    Move queue n w block s (.task i)
      { s.become i (.running (made + 1)) with shared := access s.shared }
  | release {i made : Nat} (phase : s.tasks i = .running made)
      (finished : (block i)[made]? = none) :
    Move queue n w block s (.task i) { s.become i .released with cnt := s.cnt - 1 }
  | notify {i : Nat} (phase : s.tasks i = .released) :
    Move queue n w block s (.task i) { s.become i .done with caller := s.caller.wake }
  | spurious {cur : Size} (phase : s.caller = .blocked cur) :
    Move queue n w block s .spurious { s with caller := .comparing cur }

theorem move_of_step (taken : step queue n w block s act = some s') :
    Move queue n w block s act s' := by
  cases act with
  | caller =>
    simp only [step, callerStep] at taken
    split at taken
    · rename_i phase
      split_ifs at taken with inside
      · cases taken
        exact .push inside phase
      · cases taken
        exact .pushed inside phase
    · rename_i phase
      cases taken
      split_ifs with zero
      · exact .zero phase zero
      · exact .load phase zero
    · rename_i phase
      cases taken
      split_ifs with same
      · exact .block phase same
      · exact .changed phase same
    · cases taken
    · cases taken
  | begin =>
    simp only [step, beginStep] at taken
    split at taken
    · cases taken
    · rename_i front
      split_ifs at taken with free
      cases taken
      exact .begin front free
  | task i =>
    simp only [step, taskStep] at taken
    split at taken
    · rename_i phase
      split at taken
      · rename_i next
        cases taken
        exact .access phase next
      · rename_i finished
        cases taken
        exact .release phase finished
    · rename_i phase
      cases taken
      exact .notify phase
    · cases taken
  | spurious =>
    simp only [step] at taken
    split at taken
    · rename_i phase
      cases taken
      exact .spurious phase
    · cases taken

theorem Inv.inside (inv : Inv queue n block s0 s) {i : Nat} (pushed : s.tasks i ≠ .unpushed) :
    i < n :=
  Nat.not_le.mp fun beyond => pushed (inv.outside i beyond)

/-- The counter is that of the tasks that have not released it, and does not wrap. -/
theorem Inv.toNat_cnt (inv : Inv queue n block s0 s) (small : n < 2 ^ 64) :
    s.cnt.toNat = s.unreleased n := by
  have each : ∀ t : TaskPhase, t.counts ≤ 1 := by
    rintro (_ | _ | _ | _ | _) <;> simp [TaskPhase.counts]
  have le : s.unreleased n ≤ n := by
    have bound := Finset.sum_le_sum (s := Finset.range n) fun i _ => each (s.tasks i)
    simpa [unreleased, total] using bound
  rw [inv.cnt, BitVec.toNat_ofNat, Nat.mod_eq_of_lt (le.trans_lt small)]

theorem update_eq_iff {tasks : Nat → TaskPhase} {i j : Nat} {phase other : TaskPhase} :
    Function.update tasks i phase j = other ↔ j = i ∧ phase = other ∨ j ≠ i ∧ tasks j = other := by
  by_cases same : j = i
  · subst same
    simp
  · simp [same]

/-- A step of the caller alone. -/
theorem Inv.caller_moves (inv : Inv queue n block s0 s) {phase : CallerPhase}
    (unpushed : ∀ i < n, s.tasks i = .unpushed ↔ ∃ j, phase = .pushing j ∧ j ≤ i)
    (pushing : ∀ j, phase = .pushing j → j ≤ n)
    (loaded : ∀ cur, phase = .comparing cur ∨ phase = .blocked cur → cur ≠ 0)
    (notified : ∀ cur, phase = .blocked cur → s.cnt = cur)
    (returned : phase = .returned → s.cnt = 0) :
    Inv queue n block s0 { s with caller := phase } :=
  { inv with
    unpushed := unpushed
    pushing := pushing
    loaded := loaded
    notified := fun cur blocked => .inl (notified cur blocked)
    returned := returned }

/-- Behind the pushing of the tasks none is left unpushed. -/
theorem Inv.pushed (inv : Inv queue n block s0 s) (behind : ∀ j, s.caller ≠ .pushing j)
    {phase : CallerPhase} (behind' : ∀ j, phase ≠ .pushing j) :
    ∀ i < n, s.tasks i = .unpushed ↔ ∃ j, phase = .pushing j ∧ j ≤ i := fun i inside =>
  ⟨fun unpushed => by
    obtain ⟨j, pushing, -⟩ := (inv.unpushed i inside).mp unpushed
    exact absurd pushing (behind j), fun ⟨j, pushing, _⟩ => absurd pushing (behind' j)⟩

/-- The counter after a task's step that is not its release. -/
theorem Inv.same_cnt (inv : Inv queue n block s0 s) {i : Nat} (inside : i < n) {phase : TaskPhase}
    (same : phase.counts = (s.tasks i).counts) :
    s.cnt = BitVec.ofNat 64 ((s.become i phase).unreleased n) := by
  have moved := total_update (fun _ => TaskPhase.counts) s.tasks inside phase
  rw [inv.cnt]
  congr 1
  simp only [become, unreleased]
  omega

/-- The accesses made, after a task's step that is none. -/
theorem Inv.same_ran (inv : Inv queue n block s0 s) {i : Nat} {phase : TaskPhase}
    (same : (block i).take (phase.progress (block i).length) =
      (block i).take ((s.tasks i).progress (block i).length)) :
    Ran block s0 (s.become i phase).tasks s.shared := by
  obtain ⟨trace, each, shared⟩ := inv.ran
  refine ⟨trace, fun j => (each j).trans ?_, shared⟩
  by_cases here : j = i
  · subst here
    simp [become, same]
  · simp [become, here]

/-- A step of a task that does not notify leaves a blocked caller with its notification. -/
theorem Inv.still_notified (inv : Inv queue n block s0 s) {i : Nat} {phase : TaskPhase}
    (other : s.tasks i ≠ .released) (cur : Size) (blocked : s.caller = .blocked cur) :
    s.cnt = cur ∨ ∃ j, (s.become i phase).tasks j = .released := by
  refine (inv.notified cur blocked).imp_right fun ⟨j, released⟩ => ⟨j, ?_⟩
  simp only [become, update_eq_iff]
  exact .inr ⟨fun same => other (same ▸ released), released⟩

/-- A step of one of the `n` tasks leaves those beyond unpushed. -/
theorem Inv.outside_become (inv : Inv queue n block s0 s) {i : Nat} (inside : i < n)
    (phase : TaskPhase) {j : Nat} (beyond : n ≤ j) : (s.become i phase).tasks j = .unpushed := by
  simp only [become, update_eq_iff]
  exact .inr ⟨by omega, inv.outside j beyond⟩

/-- A step of a task that has a thread. -/
theorem Inv.task_moves (inv : Inv queue n block s0 s) (i : Nat) (phase : TaskPhase) {s' : Pool Q S}
    (active : (s.tasks i).active = 1) (pushed' : phase ≠ .unpushed)
    (begun' : phase ≠ .queued) (tasks : s'.tasks = (s.become i phase).tasks)
    (same : s'.queue = s.queue) (caller : ∀ j, s'.caller = .pushing j ↔ s.caller = .pushing j)
    (cnt : s'.cnt = BitVec.ofNat 64 ((s.become i phase).unreleased n))
    (ran : Ran block s0 (s.become i phase).tasks s'.shared)
    (loaded : ∀ cur, s'.caller = .comparing cur ∨ s'.caller = .blocked cur → cur ≠ 0)
    (notified : ∀ cur, s'.caller = .blocked cur →
      s'.cnt = cur ∨ ∃ i, s'.tasks i = .released)
    (returned : s'.caller = .returned → s'.cnt = 0) : Inv queue n block s0 s' := by
  have pushed : s.tasks i ≠ .unpushed := fun is => by
    rw [is] at active
    cases active
  have begun : s.tasks i ≠ .queued := fun is => by
    rw [is] at active
    cases active
  exact {
    unpushed := by
      intro j inside
      simp only [tasks, become, update_eq_iff, caller, ← inv.unpushed j inside]
      grind
    pushing := fun j phase => inv.pushing j ((caller j).mp phase)
    outside := fun j beyond => tasks ▸ inv.outside_become (inv.inside pushed) phase beyond
    queued := by
      intro j
      simp only [same, tasks, become, update_eq_iff, inv.queued]
      grind
    nodup := same ▸ inv.nodup
    cnt := by rw [cnt, unreleased, unreleased, tasks]
    ran := tasks ▸ ran
    loaded := loaded
    notified := notified
    returned := returned }

/-- The task that a thread takes is one that waits. -/
theorem Inv.queued_of_take (inv : Inv queue n block s0 s) {i : Nat} {rest : Q}
    (front : queue.take s.queue = some (i, rest)) : s.tasks i = .queued := by
  refine (inv.queued i).mp ?_
  rw [queue.waiting_take _ _ _ front]
  exact Multiset.mem_cons_self i _

/-- Every step keeps the invariant. -/
theorem Inv.move (inv : Inv queue n block s0 s) (small : n < 2 ^ 64)
    (moves : Move queue n w block s act s') : Inv queue n block s0 s' := by
  cases moves with
  | @push i inside phase =>
    have before : s.tasks i = .unpushed := (inv.unpushed i inside).mpr ⟨i, phase, le_rfl⟩
    constructor
    · intro j within
      have old := inv.unpushed j within
      simp only [phase, CallerPhase.pushing.injEq] at old
      simp only [become, update_eq_iff, CallerPhase.pushing.injEq]
      grind
    · rintro j ⟨⟩
      exact inside
    · exact fun j => inv.outside_become inside _
    · intro j
      simp only [become, update_eq_iff, queue.waiting_pushTask, Multiset.mem_cons, inv.queued j]
      grind
    · rw [queue.waiting_pushTask, Multiset.nodup_cons]
      refine ⟨fun member => ?_, inv.nodup⟩
      have queued := (inv.queued i).mp member
      rw [before] at queued
      cases queued
    · exact inv.same_cnt inside (by rw [before]; rfl)
    · exact inv.same_ran (by rw [before]; rfl)
    · rintro cur (⟨⟨⟩⟩ | ⟨⟨⟩⟩)
    · rintro cur ⟨⟩
    · rintro ⟨⟩
  | @pushed i all phase =>
    have le := inv.pushing i phase
    refine inv.caller_moves (fun j inside => ?_) (by rintro _ ⟨⟩) (by rintro _ (⟨⟨⟩⟩ | ⟨⟨⟩⟩))
      (by rintro _ ⟨⟩) (by rintro ⟨⟩)
    rw [inv.unpushed j inside, phase]
    constructor
    · rintro ⟨_, ⟨⟩, _⟩
      omega
    · rintro ⟨_, ⟨⟩, _⟩
  | zero phase zero =>
    refine inv.caller_moves (inv.pushed ?_ ?_) ?_ ?_ ?_ fun _ => zero
    all_goals simp [phase]
  | load phase more =>
    refine inv.caller_moves (inv.pushed ?_ ?_) ?_ (by simpa using more) ?_ ?_
    all_goals simp [phase]
  | block phase same =>
    have loaded := inv.loaded _ (.inl phase)
    refine inv.caller_moves (inv.pushed ?_ ?_) ?_ (by simpa using loaded) ?_ ?_
    all_goals simp [phase, same]
  | changed phase differs =>
    refine inv.caller_moves (inv.pushed ?_ ?_) ?_ ?_ ?_ ?_
    all_goals simp [phase]
  | spurious phase =>
    have loaded := inv.loaded _ (.inr phase)
    refine inv.caller_moves (inv.pushed ?_ ?_) ?_ (by simpa using loaded) ?_ ?_
    all_goals simp [phase]
  | @begin i rest front free =>
    have taken := queue.waiting_take _ _ _ front
    have queued := inv.queued_of_take front
    have inside := inv.inside (by rw [queued]; exact nofun)
    have nodup := inv.nodup
    rw [taken, Multiset.nodup_cons] at nodup
    constructor
    · intro j within
      simp only [become, update_eq_iff, ← inv.unpushed j within]
      grind
    · exact inv.pushing
    · exact fun j => inv.outside_become inside _
    · intro j
      have old := inv.queued j
      have absent := nodup.1
      rw [taken, Multiset.mem_cons] at old
      simp only [become, update_eq_iff]
      grind
    · exact nodup.2
    · exact inv.same_cnt inside (by rw [queued]; rfl)
    · exact inv.same_ran (by rw [queued]; rfl)
    · exact inv.loaded
    · exact inv.still_notified (by rw [queued]; exact nofun)
    · exact inv.returned
  | @access i made access phase next =>
    have inside := inv.inside (by rw [phase]; exact nofun)
    refine inv.task_moves i (.running (made + 1)) (by rw [phase]; rfl) nofun nofun rfl rfl
      (fun _ => Iff.rfl) (inv.same_cnt inside (by rw [phase]; rfl)) ?_ inv.loaded ?_ inv.returned
    · obtain ⟨trace, each, shared⟩ := inv.ran
      refine ⟨trace ++ [(i, access)], fun j => ?_, by rw [exec_concat, ← shared]⟩
      rw [own_concat, each j]
      by_cases here : i = j
      · subst here
        simp [become, phase, TaskPhase.progress, List.take_add_one, next]
      · simp [become, here, Ne.symm here]
    · exact inv.still_notified (by rw [phase]; exact nofun)
  | @release i made phase finished =>
    have inside := inv.inside (by rw [phase]; exact nofun)
    have moved := total_update (fun _ => TaskPhase.counts) s.tasks inside .released
    have counted : (s.tasks i).counts = 1 := by rw [phase]; rfl
    have gone : TaskPhase.released.counts = 0 := rfl
    have toNat := inv.toNat_cnt small
    have whole : (block i).take made = block i :=
      List.take_of_length_le (List.getElem?_eq_none_iff.mp finished)
    refine inv.task_moves i .released (by rw [phase]; rfl) nofun nofun rfl rfl (fun _ => Iff.rfl) ?_
      (inv.same_ran (by simp [TaskPhase.progress, phase, whole])) inv.loaded ?_ ?_
    · simp only [unreleased, become] at toNat ⊢
      bv_omega
    · exact fun cur _ => .inr ⟨i, by simp [become]⟩
    · intro back
      have zero := inv.returned back
      simp only [unreleased] at toNat
      bv_omega
  | @notify i phase =>
    have inside := inv.inside (by rw [phase]; exact nofun)
    refine inv.task_moves i .done (by rw [phase]; rfl) nofun nofun rfl rfl ?_
      (inv.same_cnt inside (by rw [phase]; rfl))
      (inv.same_ran (by simp [TaskPhase.progress, phase])) ?_ ?_ ?_
    · intro j
      cases s.caller <;> simp [CallerPhase.wake]
    · intro cur
      have loaded := inv.loaded cur
      cases caller : s.caller <;> simp_all [CallerPhase.wake]
    · intro cur blocked
      cases caller : s.caller <;> simp [CallerPhase.wake, caller] at blocked
    · intro back
      refine inv.returned ?_
      cases caller : s.caller <;> simp [CallerPhase.wake, caller] at back ⊢

theorem always_inv (queue : TaskQueue Q) (n w : Nat) (block : Nat → List (S → S)) (s0 : S)
    (small : n < 2 ^ 64) (acts : List PoolAct) :
    Always (step queue n w block) (Inv queue n block s0) (start queue n s0) acts :=
  .of_step (inv_start queue n block s0)
    (fun _ _ _ inv taken => inv.move small (move_of_step taken)) acts

theorem inv_of_run (small : n < 2 ^ 64) {acts : List PoolAct}
    (ran : run (step queue n w block) (start queue n s0) acts = some s) : Inv queue n block s0 s :=
  always_inv queue n w block s0 small acts acts (List.prefix_refl acts) s ran

theorem total_eq_zero {weight : Nat → TaskPhase → Nat} {tasks : Nat → TaskPhase}
    (zero : total n weight tasks = 0) {i : Nat} (inside : i < n) : weight i (tasks i) = 0 :=
  Finset.sum_eq_zero_iff.mp zero i (Finset.mem_range.mpr inside)

/-- Each block's accesses have been made once, in their order, in some order of all of them. -/
def AllRan (n : Nat) (block : Nat → List (S → S)) (s0 shared : S) : Prop :=
  ∃ trace : List (Nat × (S → S)),
    (∀ i, own trace i = if i < n then block i else []) ∧ shared = exec trace s0

/-- If the counter is zero, each task has run its block and released the waiter. -/
theorem Inv.all_ran (inv : Inv queue n block s0 s) (small : n < 2 ^ 64) (zero : s.cnt = 0) :
    (∀ i < n, s.tasks i = .released ∨ s.tasks i = .done) ∧ AllRan n block s0 s.shared := by
  have count := inv.toNat_cnt small
  rw [zero] at count
  have each : ∀ i < n, s.tasks i = .released ∨ s.tasks i = .done := by
    intro i inside
    have gone := total_eq_zero count.symm inside
    cases phase : s.tasks i <;> simp [TaskPhase.counts, phase] at gone ⊢
  refine ⟨each, ?_⟩
  obtain ⟨trace, made, shared⟩ := inv.ran
  refine ⟨trace, fun i => (made i).trans ?_, shared⟩
  split_ifs with inside
  · rcases each i inside with is | is <;> simp [is, TaskPhase.progress]
  · simp [inv.outside i (Nat.not_lt.mp inside), TaskPhase.progress]

/-- When the caller is back, each block has been run, and no task is before its release of the
waiter. -/
theorem waitOnNTasks_returned (small : n < 2 ^ 64) {acts : List PoolAct}
    (ran : run (step queue n w block) (start queue n s0) acts = some s)
    (back : s.caller = .returned) :
    (∀ i < n, s.tasks i = .released ∨ s.tasks i = .done) ∧ AllRan n block s0 s.shared :=
  have inv := inv_of_run small ran
  inv.all_ran small (inv.returned back)

/-- How many steps the caller still makes, if no task moves. -/
def callerLeft (cnt : Size) : CallerPhase → Nat
  | .pushing _ => 4
  | .loading => 3
  | .comparing cur => if cnt = cur then 2 else 4
  | .blocked _ => 1
  | .returned => 0

/-- The steps that the tasks have before them. -/
def stepsLeft (n : Nat) (block : Nat → List (S → S)) (s : Pool Q S) : Nat :=
  total n (fun i => TaskPhase.left (block i).length) s.tasks

def measure (n : Nat) (block : Nat → List (S → S)) (s : Pool Q S) : Nat :=
  4 * stepsLeft n block s + callerLeft s.cnt s.caller

theorem callerLeft_cnt (cnt cnt' : Size) (phase : CallerPhase) :
    callerLeft cnt' phase ≤ callerLeft cnt phase + 2 := by
  cases phase with
  | comparing cur =>
    simp only [callerLeft]
    split_ifs <;> omega
  | _ => simp [callerLeft]

theorem callerLeft_wake (cnt : Size) (phase : CallerPhase) :
    callerLeft cnt phase.wake ≤ callerLeft cnt phase + 3 := by
  cases phase with
  | blocked cur =>
    simp only [callerLeft, CallerPhase.wake]
    split_ifs <;> omega
  | _ => simp [callerLeft, CallerPhase.wake]

/-- Each step comes closer to the end, but for a wake-up without a reason. -/
theorem measure_move (inv : Inv queue n block s0 s) (moves : Move queue n w block s act s') :
    measure n block s' + 1 ≤ measure n block s + if act = .spurious then 4 else 0 := by
  have task : ∀ {i : Nat} (phase : TaskPhase), i < n →
      phase.left (block i).length + 1 = (s.tasks i).left (block i).length →
      stepsLeft n block (s.become i phase) + 1 = stepsLeft n block s := by
    intro i phase inside lower
    have moved := total_update (fun i => TaskPhase.left (block i).length) s.tasks inside phase
    simp only [stepsLeft, become]
    omega
  cases moves with
  | @push i inside phase =>
    have before : s.tasks i = .unpushed := (inv.unpushed i inside).mpr ⟨i, phase, le_rfl⟩
    have lower := task .queued inside (by rw [before]; rfl)
    simp only [measure, stepsLeft, become, callerLeft, phase] at lower ⊢
    omega
  | pushed all phase =>
    simp only [measure, stepsLeft, callerLeft, phase]
    omega
  | zero phase zero =>
    simp only [measure, stepsLeft, callerLeft, phase]
    omega
  | load phase more =>
    simp only [measure, stepsLeft, callerLeft, phase, if_true]
    omega
  | block phase same =>
    simp only [measure, stepsLeft, callerLeft, phase, same, if_true]
    omega
  | changed phase differs =>
    simp only [measure, stepsLeft, callerLeft, phase, if_neg differs]
    omega
  | @spurious cur phase =>
    have woken := callerLeft_wake s.cnt s.caller
    simp only [phase, CallerPhase.wake] at woken
    simp only [measure, stepsLeft, phase, if_true]
    omega
  | @begin i rest front free =>
    have queued := inv.queued_of_take front
    have lower := task (.running 0) (inv.inside (by rw [queued]; exact nofun))
      (by rw [queued]; rfl)
    simp only [measure, stepsLeft, become] at lower ⊢
    omega
  | @access i made access phase next =>
    have inside : made < (block i).length := (List.getElem?_eq_some_iff.mp next).1
    have lower := task (.running (made + 1)) (inv.inside (by rw [phase]; exact nofun)) (by
      simp only [phase, TaskPhase.left]
      omega)
    simp only [measure, stepsLeft, become] at lower ⊢
    omega
  | @release i made phase finished =>
    have behind : (block i).length ≤ made := List.getElem?_eq_none_iff.mp finished
    have lower := task .released (inv.inside (by rw [phase]; exact nofun)) (by
      simp only [phase, TaskPhase.left]
      omega)
    have changed := callerLeft_cnt s.cnt (s.cnt - 1) s.caller
    simp only [measure, stepsLeft, become] at lower ⊢
    omega
  | @notify i phase =>
    have lower := task .done (inv.inside (by rw [phase]; exact nofun))
      (by rw [phase]; rfl)
    have woken := callerLeft_wake s.cnt s.caller
    simp only [measure, stepsLeft, become] at lower ⊢
    omega

/-- A run is not longer than its tasks and its wake-ups without a reason allow. -/
theorem length_le (small : n < 2 ^ 64) {acts : List PoolAct}
    (ran : run (step queue n w block) (start queue n s0) acts = some s) :
    acts.length + measure n block s ≤
      4 * ∑ i ∈ Finset.range n, ((block i).length + 4) + 4 + 4 * acts.count .spurious := by
  induction acts using List.reverseRecOn generalizing s with
  | nil =>
    cases ran
    simp only [measure, stepsLeft, start, total, TaskPhase.left, callerLeft, List.length_nil,
      List.count_nil]
    omega
  | append_singleton acts act ih =>
    obtain ⟨mid, before, last⟩ := run_concat_some ran
    have closer := measure_move (inv_of_run small before) (move_of_step last)
    have bound := ih before
    rw [List.length_append, List.length_singleton, List.count_append, List.count_singleton]
    split_ifs at closer with woke
    · subst woke
      simp only [beq_self_eq_true, if_true]
      omega
    · simp only [beq_iff_eq, woke, if_false]
      omega

/-- No task has a thread. -/
def Idle (s : Pool Q S) : Prop := ∀ i, (s.tasks i).active = 0

theorem busy_of_idle (n : Nat) (idle : Idle s) : s.busy n = 0 :=
  Finset.sum_eq_zero (s := Finset.range n) fun i _ => idle i

theorem unreleased_eq_zero (released : ∀ i < n, (s.tasks i).counts = 0) : s.unreleased n = 0 :=
  Finset.sum_eq_zero (s := Finset.range n) fun i member => released i (Finset.mem_range.mp member)

/-- Where nothing is left but a wake-up without a reason, the caller is back and each task done:
the caller is never left blocked. -/
theorem Inv.returned_of_stuck (inv : Inv queue n block s0 s) (threads : 0 < w)
    (stuck : ∀ act, act ≠ .spurious → step queue n w block s act = none) :
    s.caller = .returned ∧ ∀ i < n, s.tasks i = .done := by
  have behind : ∀ j, s.caller ≠ .pushing j := by
    intro j phase
    have never := stuck .caller nofun
    simp only [step, callerStep, phase] at never
    split_ifs at never
  have idle : Idle s := by
    intro i
    have never := stuck (.task i) nofun
    cases phase : s.tasks i with
    | running made =>
      simp only [step, taskStep, phase] at never
      split at never <;> cases never
    | released => simp [step, taskStep, phase] at never
    | _ => rfl
  have free := busy_of_idle n idle
  have empty : queue.waiting s.queue = 0 := by
    have never := stuck .begin nofun
    simp only [step, beginStep] at never
    split at never
    · rename_i none
      exact (queue.take_none s.queue).mp none
    · rw [free, if_pos threads] at never
      cases never
  have done : ∀ i < n, s.tasks i = .done := by
    intro i inside
    have active := idle i
    have queued := inv.queued i
    rw [empty] at queued
    have pushed : s.tasks i ≠ .unpushed := fun unpushed => by
      obtain ⟨j, phase, -⟩ := (inv.unpushed i inside).mp unpushed
      exact behind j phase
    cases phase : s.tasks i <;> simp [phase, TaskPhase.active] at active queued pushed ⊢
  refine ⟨?_, done⟩
  have zero : s.cnt = 0 := by
    rw [inv.cnt, unreleased_eq_zero fun i inside => by rw [done i inside]; rfl]
    rfl
  have never := stuck .caller nofun
  cases phase : s.caller with
  | pushing j => exact absurd phase (behind j)
  | loading => simp [step, callerStep, phase] at never
  | comparing cur => simp [step, callerStep, phase] at never
  | blocked cur =>
    have loaded := inv.loaded cur (.inr phase)
    rcases inv.notified cur phase with same | ⟨i, released⟩
    · exact absurd (same ▸ zero) loaded
    · have active := idle i
      rw [released] at active
      cases active
  | returned => rfl

/-- No wake-up is lost: a run is bounded by its tasks and its wake-ups without a reason, and where
no other step is left the caller is back, with each block run once. -/
theorem waitOnNTasks_ends (small : n < 2 ^ 64) (threads : 0 < w) {acts : List PoolAct}
    (ran : run (step queue n w block) (start queue n s0) acts = some s) :
    acts.length ≤
      4 * ∑ i ∈ Finset.range n, ((block i).length + 4) + 4 + 4 * acts.count .spurious ∧
    ((∀ act, act ≠ .spurious → step queue n w block s act = none) →
      s.caller = .returned ∧ (∀ i < n, s.tasks i = .done) ∧ AllRan n block s0 s.shared) := by
  have inv := inv_of_run small ran
  have bound := length_le small ran
  refine ⟨by omega, fun stuck => ?_⟩
  obtain ⟨back, done⟩ := inv.returned_of_stuck threads stuck
  exact ⟨back, done, (inv.all_ran small (inv.returned back)).2⟩

/-- A counter and what two tasks have read of it. -/
def addToCounter (i : Nat) : List (Nat × (Nat → Nat) → Nat × (Nat → Nat)) :=
  [fun s => (s.1, Function.update s.2 i s.1), fun s => (s.2 i + 1, s.2)]

/-- Two tasks on two threads, which lose one of their additions. The caller blocks before the first
one is over, and is notified by it and then by the other one. -/
def twoTasks : List PoolAct :=
  [.caller, .caller, .caller, .begin, .begin, .caller, .caller, .task 0, .task 1, .task 0, .task 1,
    .task 0, .task 0, .caller, .caller, .caller, .task 1, .task 1, .caller, .caller]

theorem waitOnNTasks_ends_two : ∃ s : Pool (List Nat) (Nat × (Nat → Nat)),
    run (step .fifo 2 2 addToCounter) (start .fifo 2 (0, fun _ => 0)) twoTasks = some s ∧
    (s.caller = .returned ∧ s.shared.1 = 1) ∧
    twoTasks.length ≤
      4 * ∑ i ∈ Finset.range 2, ((addToCounter i).length + 4) + 4 + 4 * twoTasks.count .spurious ∧
    ((∀ act, act ≠ .spurious → step .fifo 2 2 addToCounter s act = none) →
      s.caller = .returned ∧ (∀ i < 2, s.tasks i = .done) ∧
      AllRan 2 addToCounter (0, fun _ => 0) s.shared) := by
  have reached : (run (step .fifo 2 2 addToCounter) (start .fifo 2 (0, fun _ => 0)) twoTasks).map
      (fun s => (s.caller, s.shared.1)) = some (.returned, 1) := rfl
  obtain ⟨s, ran, both⟩ := Option.map_eq_some_iff.mp reached
  exact ⟨s, ran, Prod.mk.inj both, waitOnNTasks_ends (by decide) Nat.two_pos ran⟩

/-- There is a run that ends in a state with the property. -/
def Reaches (queue : TaskQueue Q) (n w : Nat) (block : Nat → List (S → S)) (s0 : S)
    (P : Pool Q S → Prop) : Prop :=
  ∃ acts s, run (step queue n w block) (start queue n s0) acts = some s ∧ P s

theorem Reaches.concat {P P' : Pool Q S → Prop} (reaches : Reaches queue n w block s0 P)
    (goes : ∀ s, P s → ∃ more s', run (step queue n w block) s more = some s' ∧ P' s') :
    Reaches queue n w block s0 P' := by
  obtain ⟨acts, s, ran, holds⟩ := reaches
  obtain ⟨more, s', ran', holds'⟩ := goes s holds
  exact ⟨acts ++ more, s', by rw [run_append, ran]; exact ran', holds'⟩

theorem reaches_pushing {j : Nat} (le : j ≤ n) : Reaches queue n w block s0 fun s =>
    s.caller = .pushing j ∧ (queue.waiting s.queue).card = j ∧ Idle s := by
  induction j with
  | zero => exact ⟨[], _, rfl, rfl, by simp [start, queue.waiting_empty], fun _ => rfl⟩
  | succ j ih =>
    refine (ih (Nat.le_of_succ_le le)).concat fun s ⟨phase, waiting, idle⟩ => ?_
    have pushes : run (step queue n w block) s [.caller] = some { s.become j .queued with
        queue := queue.pushTask s.queue j, caller := .pushing (j + 1) } := by
      simp [run, step, callerStep, phase, Nat.lt_of_succ_le le]
    refine ⟨_, _, pushes, rfl, ?_, fun i => ?_⟩
    · rw [queue.waiting_pushTask, Multiset.card_cons, waiting]
    · by_cases here : i = j
      · simp [become, here, TaskPhase.active]
      · simpa [become, here] using idle i

/-- A task that has a thread goes on as far as its release of the waiter. -/
theorem run_accesses (queue : TaskQueue Q) (n w : Nat) {s : Pool Q S} {i made : Nat}
    (more : Nat) (phase : s.tasks i = .running made)
    (len : (block i).length = made + more) :
    ∃ acts s', run (step queue n w block) s acts = some s' ∧
      s'.tasks = Function.update s.tasks i .released ∧ s'.queue = s.queue ∧
      s'.caller = s.caller := by
  induction more generalizing s made with
  | zero =>
    have finished : (block i)[made]? = none := List.getElem?_eq_none_iff.mpr len.le
    have taken : run (step queue n w block) s [.task i] =
        some { s.become i .released with cnt := s.cnt - 1 } := by
      simp [run, step, taskStep, phase, finished]
    exact ⟨_, _, taken, rfl, rfl, rfl⟩
  | succ more ih =>
    obtain ⟨access, next⟩ : ∃ access, (block i)[made]? = some access :=
      ⟨_, List.getElem?_eq_getElem (by omega)⟩
    have taken : step queue n w block s (.task i) =
        some { s.become i (.running (made + 1)) with shared := access s.shared } := by
      simp [step, taskStep, phase, next]
    have phase' : (s.become i (.running (made + 1))).tasks i = .running (made + 1) := by
      simp [become]
    obtain ⟨acts, s', ran, tasks, same⟩ :=
      @ih { s.become i (.running (made + 1)) with shared := access s.shared } _ phase' (by omega)
    refine ⟨.task i :: acts, s', ?_, by simpa [become] using tasks, same⟩
    simpa [run, taken] using ran

/-- A thread takes a task that waits as far as its release of the waiter. -/
theorem run_front (n : Nat) (block : Nat → List (S → S)) {waiting : Nat} (threads : 0 < w)
    (more : (queue.waiting s.queue).card = waiting + 1) (idle : Idle s) :
    ∃ acts s' i, run (step queue n w block) s acts = some s' ∧
      s'.tasks = Function.update s.tasks i .released ∧
      (queue.waiting s'.queue).card = waiting ∧ s'.caller = s.caller := by
  have some' : queue.take s.queue ≠ none := fun none => by
    rw [(queue.take_none s.queue).mp none] at more
    cases more
  obtain ⟨⟨i, rest⟩, front⟩ := Option.ne_none_iff_exists'.mp some'
  have free := busy_of_idle n idle
  have begun : step queue n w block s .begin =
      some { s.become i (.running 0) with queue := rest } := by
    simp [step, beginStep, front, free, threads]
  have phase : (s.become i (.running 0)).tasks i = .running 0 := by simp [become]
  obtain ⟨acts, s', ran, tasks, same, caller⟩ := @run_accesses _ _ block queue n w
    { s.become i (.running 0) with queue := rest } i 0 (block i).length phase (Nat.zero_add _).symm
  refine ⟨.begin :: acts, s', i, by simpa [run, begun] using ran, by simpa [become] using tasks, ?_,
    caller⟩
  rw [queue.waiting_take _ _ _ front, Multiset.card_cons] at more
  rw [same]
  exact Nat.succ.inj more

theorem reaches_served (threads : 0 < w) {j : Nat} (le : j ≤ n) :
    Reaches queue n w block s0 fun s =>
      s.caller = .loading ∧ (queue.waiting s.queue).card = n - j ∧ Idle s := by
  induction j with
  | zero =>
    refine (reaches_pushing le_rfl).concat fun s ⟨phase, waiting, idle⟩ => ?_
    have pushed : run (step queue n w block) s [.caller] = some { s with caller := .loading } := by
      simp [run, step, callerStep, phase]
    exact ⟨_, _, pushed, rfl, waiting, idle⟩
  | succ j ih =>
    refine (ih (Nat.le_of_succ_le le)).concat fun s ⟨phase, waiting, idle⟩ => ?_
    have more : (queue.waiting s.queue).card = n - (j + 1) + 1 := by omega
    obtain ⟨acts, mid, i, ran, tasks, waiting', caller⟩ := run_front n block threads more idle
    have released : mid.tasks i = .released := by simp [tasks]
    have notified : step queue n w block mid (.task i) =
        some { mid.become i .done with caller := mid.caller.wake } := by
      simp [step, taskStep, released]
    have ran' : run (step queue n w block) s (acts ++ [.task i]) =
        some { mid.become i .done with caller := mid.caller.wake } := by
      rw [run_concat, ran, Option.bind_some, notified]
    refine ⟨_, _, ran', ?_, waiting', fun k => ?_⟩
    · rw [caller, phase]
      rfl
    · by_cases here : k = i
      · simp [become, here, TaskPhase.active]
      · simpa [become, here, tasks] using idle k

/-- The caller can be back, and its waiter gone, before the last task notifies it: always, if there
is a task. -/
theorem lateNotify_iff (small : n < 2 ^ 64) (threads : 0 < w) :
    Reaches queue n w block s0 (fun s => s.caller = .returned ∧ ∃ i, s.tasks i = .released) ↔
      0 < n := by
  constructor
  · rintro ⟨acts, s, ran, -, i, released⟩
    have inside := (inv_of_run small ran).inside (i := i) (by rw [released]; exact nofun)
    exact Nat.zero_lt_of_lt inside
  · intro some'
    have served : Reaches queue n w block s0 fun s => s.caller = .loading ∧
        queue.waiting s.queue = 0 ∧
        ∃ last, s.tasks last = .released ∧ ∀ i, i ≠ last → (s.tasks i).active = 0 := by
      refine (reaches_served threads (Nat.sub_le n 1)).concat fun s ⟨phase, waiting, idle⟩ => ?_
      have one : (queue.waiting s.queue).card = 0 + 1 := by omega
      obtain ⟨acts, s', last, ran, tasks, waiting', caller⟩ := run_front n block threads one idle
      refine ⟨acts, s', ran, caller.trans phase, Multiset.card_eq_zero.mp waiting', last, ?_⟩
      exact ⟨by simp [tasks], fun i other => by simpa [tasks, other] using idle i⟩
    obtain ⟨acts, s, ran, phase, waiting, last, released, idle⟩ := served
    have inv := inv_of_run small ran
    have count : s.unreleased n = 0 := by
      refine unreleased_eq_zero fun i inside => ?_
      by_cases is : i = last
      · rw [is, released]
        rfl
      · have active := idle i is
        have queued := inv.queued i
        have pushed := inv.unpushed i inside
        rw [waiting] at queued
        rw [phase] at pushed
        cases at' : s.tasks i <;>
          simp [at', TaskPhase.active, TaskPhase.counts] at active queued pushed ⊢
    have zero : s.cnt = 0 := by rw [inv.cnt, count]; rfl
    have back : run (step queue n w block) s [.caller] = some { s with caller := .returned } := by
      simp [run, step, callerStep, phase, zero]
    have ran' : run (step queue n w block) (start queue n s0) (acts ++ [.caller]) =
        some { s with caller := .returned } := by rw [run_append, ran]; exact back
    exact ⟨_, _, ran', rfl, last, released⟩

end

theorem lateNotify_iff_two : Reaches .fifo 2 1 addToCounter (0, fun _ => 0)
    (fun s => s.caller = .returned ∧ ∃ i, s.tasks i = .released) ↔ 0 < 2 :=
  lateNotify_iff (by decide) Nat.one_pos

end Pool

/-! `parallelize_indexed_loop` -/

section
variable {Q S : Type} {queue : TaskQueue Q} {n sz w : Nat} {blks : Blocks n sz}
  {loop : Nat → Nat → Nat → List (S → S)} {s0 : S}

/-- The block that the task of block `i` runs. -/
def indexedBlock (blks : Blocks n sz) (loop : Nat → Nat → Nat → List (S → S)) (i : Nat) :
    List (S → S) :=
  loop i (blks.first i) (blks.last i)

/-- Accesses of different blocks commute. -/
def BlocksCommute (m : Nat) (block : Nat → List (S → S)) : Prop :=
  ∀ i < m, ∀ j < m, i ≠ j → ∀ f ∈ block i, ∀ g ∈ block j, Function.Commute f g

/-- Blocks whose accesses commute leave what they leave one after the other, in any order. -/
theorem Pool.AllRan.sequential {shared : S} {m : Nat} {block : Nat → List (S → S)}
    (all : Pool.AllRan m block s0 shared) (commute : BlocksCommute m block) {order : List Nat}
    (each : order.Perm (List.range m)) : shared = order.foldl (fun s i => made (block i) s) s0 := by
  obtain ⟨trace, owned, rfl⟩ := all
  have sub : ∀ i f, f ∈ own trace i → i < m ∧ f ∈ block i := by
    intro i f member
    rw [owned] at member
    split_ifs at member with inside
    · exact ⟨inside, member⟩
    · exact absurd member List.not_mem_nil
  have independent : Independent (own trace) := by
    intro i j differ f inI g inJ
    obtain ⟨inside, f'⟩ := sub i f inI
    obtain ⟨inside', g'⟩ := sub j g inJ
    exact commute i inside j inside' differ f f' g g'
  have tagged : ∀ access ∈ trace, access.1 ∈ order := by
    intro access member
    rw [each.mem_iff, List.mem_range]
    by_contra outside
    exact own_ne_nil member ((owned access.1).trans (if_neg outside))
  have same : order.flatMap (own trace) = order.flatMap block := by
    refine List.flatMap_congr fun i member => ?_
    rw [owned, if_pos (List.mem_range.mp (each.mem_iff.mp member))]
  rw [exec_sequential independent (each.nodup_iff.mpr List.nodup_range) tagged, same, made,
    List.foldl_flatMap]
  rfl

/-- However the accesses of the tasks come, each of each block is made once, those of one block in
their order. Where those of different blocks commute, the loop leaves what its blocks leave one
after the other, in any order. -/
theorem parallelizeIndexedLoop_refines (small : blks.numBlocks < 2 ^ 64) (some' : sz ≠ 0)
    {acts : List PoolAct} {s : Pool Q S}
    (ran : run (Pool.step queue blks.numBlocks w (indexedBlock blks loop))
      (Pool.start queue blks.numBlocks s0) acts = some s) (back : s.caller = .returned) :
    Pool.AllRan blks.numBlocks (indexedBlock blks loop) s0 s.shared ∧
    (BlocksCommute blks.numBlocks (indexedBlock blks loop) → ∀ order : List Nat,
      order.Perm (List.range blks.numBlocks) →
      s.shared = parallelizeIndexedLoop blks order (fun i a b => made (loop i a b)) s0) := by
  have all := (Pool.waitOnNTasks_returned small ran back).2
  refine ⟨all, fun commute order each => ?_⟩
  rw [parallelizeIndexedLoop, if_neg some', all.sequential commute each]
  rfl

end
/-- Two accesses to the task's own entry, of which the second one reads what the first one left. -/
def ownEntry (i a b : Nat) : List ((Nat → Nat) → Nat → Nat) :=
  [fun s => Function.update s i a, fun s => Function.update s i (s i + b)]

theorem ownEntry_commute (m : Nat) {sz : Nat} (blks : Blocks m sz) (k : Nat) :
    BlocksCommute k (indexedBlock blks ownEntry) := by
  intro i _ j _ differ f inI g inJ s
  simp only [indexedBlock, ownEntry, List.mem_cons, List.not_mem_nil, or_false] at inI inJ
  rcases inI with rfl | rfl <;> rcases inJ with rfl | rfl
  all_goals simp [Function.update_comm differ, differ, differ.symm]

theorem parallelizeIndexedLoop_refines_halves : ∃ s : Pool (List Nat) (Nat → Nat),
    run (Pool.step .fifo 2 2 (indexedBlock (halves 2) ownEntry)) (Pool.start .fifo 2 fun _ => 0)
      Pool.twoTasks = some s ∧
    Pool.AllRan 2 (indexedBlock (halves 2) ownEntry) (fun _ => 0) s.shared ∧
    ∀ order : List Nat, order.Perm (List.range 2) →
      s.shared = parallelizeIndexedLoop (halves 2) order (fun i a b => made (ownEntry i a b))
        fun _ => 0 := by
  have back : (run (Pool.step .fifo 2 2 (indexedBlock (halves 2) ownEntry))
      (Pool.start .fifo 2 fun _ => 0) Pool.twoTasks).map Pool.caller = some .returned := rfl
  obtain ⟨s, ran, back⟩ := Option.map_eq_some_iff.mp back
  have small : (halves 2).numBlocks < 2 ^ 64 := by decide
  obtain ⟨all, sequential⟩ := parallelizeIndexedLoop_refines small (by decide) ran back
  exact ⟨s, ran, all, sequential (ownEntry_commute 2 (halves 2) 2)⟩

/-- What the task of chunk `i` does to the vector of results: it writes its own entry. -/
def searchChunk (haystack needle : List Uint8) (i a b : Nat) :
    List (List (Option Nat) → List (Option Nat)) :=
  [fun res => res.set i
    ((horspoolMemmem twoway ((haystack.drop a).take (b - a)) needle).map (a + ·))]

section
variable {Q : Type} {queue : TaskQueue Q} {n w : Nat} {haystack needle : List Uint8}
  {blks : Blocks n haystack.length} {acts : List PoolAct} {s : Pool Q (List (Option Nat))}

theorem searchChunk_commute (m : Nat) :
    BlocksCommute m (indexedBlock blks (searchChunk haystack needle)) := by
  intro i _ j _ differ f inI g inJ res
  simp only [indexedBlock, searchChunk, List.mem_singleton] at inI inJ
  subst inI inJ
  exact List.set_comm _ _ differ.symm

/-- The search of the chunks by tasks leaves what it would leave in any order. -/
theorem searchChunks_sequential (small : blks.numBlocks < 2 ^ 64) (some' : haystack ≠ [])
    (ran : run (Pool.step queue blks.numBlocks w (indexedBlock blks (searchChunk haystack needle)))
      (Pool.start queue blks.numBlocks (List.replicate n none)) acts = some s)
    (back : s.caller = .returned) {order : List Nat}
    (each : order.Perm (List.range blks.numBlocks)) :
    s.shared = chunkIntoBinsByNeedle twoway haystack needle blks order := by
  have all := (Pool.waitOnNTasks_returned small ran back).2
  rw [chunkIntoBinsByNeedle, parallelizeIndexedLoop,
    if_neg (mt List.length_eq_zero_iff.mp some'), all.sequential (searchChunk_commute _) each]
  rfl

/-- When the search of the chunks is back, each has its first occurrence, in each run of the
pool. -/
theorem searchChunks_returned (small : blks.numBlocks < 2 ^ 64) (some' : haystack ≠ [])
    (nonempty : needle ≠ [])
    (ran : run (Pool.step queue blks.numBlocks w (indexedBlock blks (searchChunk haystack needle)))
      (Pool.start queue blks.numBlocks (List.replicate n none)) acts = some s)
    (back : s.caller = .returned) {i : Nat} (inside : i < n) :
    ∃ entry, s.shared[i]? = some entry ∧ First (LiesInChunk haystack needle blks i) entry := by
  rw [searchChunks_sequential small some' ran back (List.Perm.refl _)]
  exact chunkIntoBinsByNeedle_lies nonempty (List.Perm.refl _) inside

end

/-- Two tasks of one access each on two threads; the second one is faster, and the caller does not
block. -/
def twoSearches : List PoolAct :=
  [.caller, .caller, .begin, .begin, .task 1, .caller, .task 0, .task 1, .task 0, .caller]

theorem twoSearches_returned {S : Type} {block : Nat → List (S → S)}
    (single : ∀ i, (block i).length = 1) (s0 : S) :
    (run (Pool.step .fifo 2 2 block) (Pool.start .fifo 2 s0) twoSearches).map Pool.caller =
      some .returned := by
  obtain ⟨f, first⟩ := List.length_eq_one_iff.mp (single 0)
  obtain ⟨g, second⟩ := List.length_eq_one_iff.mp (single 1)
  simp [run, Pool.step, Pool.start, twoSearches, Pool.callerStep, Pool.beginStep, Pool.taskStep,
    TaskQueue.fifo, Pool.become, Pool.busy, Pool.total, TaskPhase.active, CallerPhase.wake, first,
    second, Finset.sum_range_succ]

theorem searchChunks_returned_halves : ∃ s : Pool (List Nat) (List (Option Nat)),
    run (Pool.step .fifo 2 2 (indexedBlock (halves 2) (searchChunk [1, 2, 1, 2] [1, 2])))
      (Pool.start .fifo 2 [none, none]) twoSearches = some s ∧
    ∃ entry, s.shared[1]? = some entry ∧
      First (LiesInChunk [1, 2, 1, 2] [1, 2] (halves 2) 1) entry := by
  have single : ∀ i, (indexedBlock (halves 2) (searchChunk [1, 2, 1, 2] [1, 2]) i).length = 1 :=
    fun _ => rfl
  obtain ⟨s, ran, back⟩ := Option.map_eq_some_iff.mp (twoSearches_returned single [none, none])
  have small : (halves 2).numBlocks < 2 ^ 64 := by decide
  have haystack : ([1, 2, 1, 2] : List Uint8) ≠ [] := List.cons_ne_nil _ _
  have needle : ([1, 2] : List Uint8) ≠ [] := List.cons_ne_nil _ _
  exact ⟨s, ran, searchChunks_returned small haystack needle ran back (by decide)⟩

end XnuTrace
