import XnuTrace.LogStructs
import XnuTrace.Lib.Stepwise
import Mathlib.Data.List.Nodup

/-! Single-stepping: the debug state of the task and of its threads, the exception port, the
messages on their way to it and their handler. The threads of the target run in between; only while
`set_single_step` works they do not, for it suspends the task. -/
namespace XnuTrace
open Stepwise

/-- `arm_debug_state64_t`. -/
structure ArmDebugState64 where
  bvr : Vector Uint64 16
  bcr : Vector Uint64 16
  wvr : Vector Uint64 16
  wcr : Vector Uint64 16
  mdscrEl1 : Uint64

namespace ArmDebugState64

def zero : ArmDebugState64 where
  bvr := .replicate 16 0
  bcr := .replicate 16 0
  wvr := .replicate 16 0
  wcr := .replicate 16 0
  mdscrEl1 := 0

def setSs (doSs : Bool) (dbgState : ArmDebugState64) : ArmDebugState64 :=
  { dbgState with mdscrEl1 := (dbgState.mdscrEl1 &&& ~~~1) ||| (if doSs then 1 else 0) }

/-- The processor raises an exception behind the next instruction. -/
def ss (dbgState : ArmDebugState64) : Bool := dbgState.mdscrEl1.getLsbD 0

@[simp] theorem ss_setSs (doSs : Bool) (dbgState : ArmDebugState64) :
    (dbgState.setSs doSs).ss = doSs := by
  cases doSs <;> simp [ss, setSs]

end ArmDebugState64

/-- `arm_thread_state64_t`. -/
structure ArmThreadState64 where
  x : Vector Uint64 29
  fp : Uint64
  lr : Uint64
  sp : Uint64
  pc : Uint64
  cpsr : Uint32

inductive ThreadPhase
  | running
  /-- It waits for the reply to its exception message. -/
  | raised
  /-- Its exception went to the port from before the tracer. -/
  | escaped
  deriving DecidableEq

structure TargetThread where
  state : ArmThreadState64
  debug : ArmDebugState64
  phase : ThreadPhase

structure SteppedTask (T : Type) where
  threads : T → Option TargetThread
  taskDebug : ArmDebugState64
  /-- Breakpoint exceptions go to the tracer's port. -/
  installed : Bool
  /-- The messages at this port, each with its thread and `old_state`. -/
  messages : List (T × ArmThreadState64)
  /-- The calls of `TraceLog::log`. -/
  logged : List (T × Uint64)
  mSingleStepping : Bool

/-- An instruction comes with the state in which it leaves its thread. -/
inductive StepAct (T : Type)
  | execute (t : T) (state : ArmThreadState64)
  | create (t : T) (state : ArmThreadState64)
  | exit (t : T)
  | exception
  | setSingleStep (doSingleStep : Bool)

/-- `set_single_step_thread`; without `READ_DEBUG_STATE` it starts from an empty debug state. -/
def TargetThread.setSingleStepThread (doSs : Bool) (th : TargetThread) : TargetThread :=
  { th with debug := ArmDebugState64.zero.setSs doSs }

namespace SteppedTask
variable {T : Type}

def setSingleStepTask (doSs : Bool) (s : SteppedTask T) : SteppedTask T :=
  { s with
    taskDebug := s.taskDebug.setSs doSs
    threads := fun t => (s.threads t).map (·.setSingleStepThread doSs) }

def installBreakpointExceptionHandler (s : SteppedTask T) : SteppedTask T :=
  { s with installed := true }

def uninstallBreakpointExceptionHandler (s : SteppedTask T) : SteppedTask T :=
  { s with installed := false }

/-- Between the suspension and the resumption that `Tracer.lean` has. -/
def setSingleStep (doSingleStep : Bool) (s : SteppedTask T) : SteppedTask T :=
  let s := if doSingleStep then s.installBreakpointExceptionHandler.setSingleStepTask true
    else (s.setSingleStepTask false).uninstallBreakpointExceptionHandler
  { s with mSingleStepping := doSingleStep }

section
variable {s : SteppedTask T}

@[simp] theorem threads_setSingleStep (doSingleStep : Bool) (t : T) :
    (s.setSingleStep doSingleStep).threads t =
      (s.threads t).map (·.setSingleStepThread doSingleStep) := by
  cases doSingleStep <;> rfl

@[simp] theorem messages_setSingleStep (doSingleStep : Bool) :
    (s.setSingleStep doSingleStep).messages = s.messages := by
  cases doSingleStep <;> rfl

@[simp] theorem logged_setSingleStep (doSingleStep : Bool) :
    (s.setSingleStep doSingleStep).logged = s.logged := by
  cases doSingleStep <;> rfl

@[simp] theorem installed_setSingleStep (doSingleStep : Bool) :
    (s.setSingleStep doSingleStep).installed = doSingleStep := by
  cases doSingleStep <;> rfl

@[simp] theorem ss_setSingleStep (doSingleStep : Bool) :
    (s.setSingleStep doSingleStep).taskDebug.ss = doSingleStep := by
  cases doSingleStep <;> exact ArmDebugState64.ss_setSs ..

end

variable [DecidableEq T]

def put (s : SteppedTask T) (t : T) (th : Option TargetThread) : SteppedTask T :=
  { s with threads := Function.update s.threads t th }

/-- The kernel takes the bit back when it raises the exception. -/
def execute (s : SteppedTask T) (t : T) (state : ArmThreadState64) : Option (SteppedTask T) := do
  let th ← s.threads t
  if th.phase ≠ .running then none
  else if !th.debug.ss then some (s.put t (some { th with state }))
  else
    let debug := th.debug.setSs false
    if s.installed then
      some (put { s with messages := s.messages ++ [(t, state)] } t
        (some { state, debug, phase := .raised }))
    else some (s.put t (some { state, debug, phase := .escaped }))

/-- A new thread takes over the debug state of the task. -/
def create (s : SteppedTask T) (t : T) (state : ArmThreadState64) : Option (SteppedTask T) :=
  match s.threads t with
  | none => some (s.put t (some { state, debug := s.taskDebug, phase := .running }))
  | some _ => none

def exit (s : SteppedTask T) (t : T) : Option (SteppedTask T) := do
  let th ← s.threads t
  if th.phase = .running then some (s.put t none) else none

/-- `trace_catch_mach_exception_raise_state_identity` and the reply, with which the thread goes on
in `new_state`. -/
def exception (s : SteppedTask T) : Option (SteppedTask T) :=
  match s.messages with
  | [] => none
  | (t, os) :: messages => do
    let ns := os
    let th ← s.threads t
    let th := th.setSingleStepThread true
    some (put { s with messages, logged := s.logged ++ [(t, os.pc)] } t
      (some { th with state := ns, phase := .running }))

def step (s : SteppedTask T) : StepAct T → Option (SteppedTask T)
  | .execute t state => s.execute t state
  | .create t state => s.create t state
  | .exit t => s.exit t
  | .exception => s.exception
  | .setSingleStep doSingleStep => some (s.setSingleStep doSingleStep)

/-- The tracer has not stepped yet, and nobody else steps the task. -/
structure Started (s : SteppedTask T) : Prop where
  off : s.mSingleStepping = false
  uninstalled : s.installed = false
  messages : s.messages = []
  logged : s.logged = []
  task : s.taskDebug.ss = false
  threads : ∀ t th, s.threads t = some th → th.phase = .running ∧ th.debug.ss = false

/-- What a step does, with what it needs. -/
inductive Move (s : SteppedTask T) : StepAct T → SteppedTask T → Prop
  | plain {t th state} (found : s.threads t = some th) (runs : th.phase = .running)
      (free : th.debug.ss = false) :
      Move s (.execute t state) (s.put t (some { th with state }))
  | raise {t th state} (found : s.threads t = some th) (runs : th.phase = .running)
      (armed : th.debug.ss = true) (here : s.installed = true) :
      Move s (.execute t state) (put { s with messages := s.messages ++ [(t, state)] } t
        (some ⟨state, th.debug.setSs false, .raised⟩))
  | escape {t th state} (found : s.threads t = some th) (runs : th.phase = .running)
      (armed : th.debug.ss = true) (elsewhere : s.installed = false) :
      Move s (.execute t state) (s.put t (some ⟨state, th.debug.setSs false, .escaped⟩))
  | create {t state} (absent : s.threads t = none) :
      Move s (.create t state) (s.put t (some ⟨state, s.taskDebug, .running⟩))
  | exit {t th} (found : s.threads t = some th) (runs : th.phase = .running) :
      Move s (.exit t) (s.put t none)
  | exception {t os messages th} (front : s.messages = (t, os) :: messages)
      (found : s.threads t = some th) :
      Move s .exception (put { s with messages, logged := s.logged ++ [(t, os.pc)] } t
        (some ⟨os, ArmDebugState64.zero.setSs true, .running⟩))
  | setSingleStep (doSingleStep : Bool) :
      Move s (.setSingleStep doSingleStep) (s.setSingleStep doSingleStep)

variable {s s' s₀ : SteppedTask T} {acts : List (StepAct T)}

theorem move_of_step {act : StepAct T} (took : s.step act = some s') : Move s act s' := by
  cases act with
  | execute t state =>
    obtain ⟨th, found, took⟩ := Option.bind_eq_some_iff.mp took
    split at took
    · cases took
    · rename_i runs
      have runs := not_not.mp runs
      split at took
      · rename_i free
        cases took
        exact .plain found runs (by simpa using free)
      · rename_i armed
        have armed : th.debug.ss = true := by simpa using armed
        split at took <;> cases took
        · exact .raise found runs armed ‹_›
        · exact .escape found runs armed (by simpa using ‹¬ s.installed = true›)
  | create t state =>
    simp only [step, create] at took
    split at took <;> cases took
    exact .create ‹_›
  | exit t =>
    obtain ⟨th, found, took⟩ := Option.bind_eq_some_iff.mp took
    split at took <;> cases took
    exact .exit found ‹_›
  | exception =>
    simp only [step, exception] at took
    split at took
    · cases took
    · rename_i t os messages front
      obtain ⟨th, found, took⟩ := Option.bind_eq_some_iff.mp took
      cases took
      exact .exception front found
  | setSingleStep doSingleStep =>
    cases took
    exact .setSingleStep doSingleStep

theorem Move.mode_eq {act : StepAct T} (moves : Move s act s')
    (other : ∀ doSingleStep, act ≠ .setSingleStep doSingleStep) :
    s'.mSingleStepping = s.mSingleStepping := by
  cases moves with
  | setSingleStep doSingleStep => exact absurd rfl (other doSingleStep)
  | _ => rfl

@[simp] theorem threads_put_self (t : T) (th : Option TargetThread) :
    (s.put t th).threads t = th := Function.update_self ..

theorem threads_put_of_ne {t u : T} (differ : u ≠ t) (th : Option TargetThread) :
    (s.put t th).threads u = s.threads u := Function.update_of_ne differ ..

@[simp] theorem messages_put (t : T) (th : Option TargetThread) :
    (s.put t th).messages = s.messages := rfl

@[simp] theorem logged_put (t : T) (th : Option TargetThread) :
    (s.put t th).logged = s.logged := rfl

/-- The property holds of the threads of the task. -/
def Threads (s : SteppedTask T) (p : T → TargetThread → Prop) : Prop :=
  ∀ t th, s.threads t = some th → p t th

theorem Threads.put {p : T → TargetThread → Prop} (threads : s.Threads p) {t : T}
    {th : Option TargetThread} (new : ∀ th', th = some th' → p t th') : (s.put t th).Threads p := by
  intro u th' found
  by_cases same : u = t
  · subst same
    exact new th' ((threads_put_self u th).symm.trans found)
  · exact threads u th' ((threads_put_of_ne same th).symm.trans found)

omit [DecidableEq T] in
theorem Threads.setSingleStep {p : T → TargetThread → Prop} {doSingleStep : Bool}
    (threads : s.Threads fun t th => p t (th.setSingleStepThread doSingleStep)) :
    (s.setSingleStep doSingleStep).Threads p := by
  intro t th found
  rw [threads_setSingleStep] at found
  obtain ⟨before, was, rfl⟩ := Option.map_eq_some_iff.mp found
  exact threads t before was

/-- The bits follow the mode, and the threads that wait are those with a message at the port. -/
structure Inv (s : SteppedTask T) : Prop where
  installed : s.installed = s.mSingleStepping
  task : s.taskDebug.ss = s.mSingleStepping
  armed : s.mSingleStepping = true → s.Threads fun _ th => th.phase = .running → th.debug.ss = true
  waits : s.Threads fun t th => th.phase = .raised ↔ t ∈ s.messages.map Prod.fst
  carried : ∀ t os, (t, os) ∈ s.messages → ∃ th, s.threads t = some th ∧ th.state = os
  nodup : (s.messages.map Prod.fst).Nodup

omit [DecidableEq T] in
theorem inv_start (started : s₀.Started) : s₀.Inv where
  installed := started.uninstalled.trans started.off.symm
  task := started.task.trans started.off.symm
  armed on := absurd (started.off.symm.trans on) Bool.false_ne_true
  waits t th found := by
    simp [(started.threads t th found).1, started.messages]
  carried t os member := by
    simp [started.messages] at member
  nodup := by
    simp [started.messages]

omit [DecidableEq T] in
theorem Inv.silent (inv : s.Inv) {t : T} {th : TargetThread} (found : s.threads t = some th)
    (runs : th.phase = .running) : t ∉ s.messages.map Prod.fst := fun member =>
  nomatch runs.symm.trans ((inv.waits t th found).mpr member)

theorem Inv.carried_put (inv : s.Inv) {t : T} (silent : t ∉ s.messages.map Prod.fst)
    (th : Option TargetThread) : ∀ u os, (u, os) ∈ s.messages →
      ∃ th', (s.put t th).threads u = some th' ∧ th'.state = os := by
  intro u os member
  have differ : u ≠ t := fun same => silent (same ▸ List.mem_map_of_mem member)
  obtain ⟨th', found, state⟩ := inv.carried u os member
  exact ⟨th', (threads_put_of_ne differ th).trans found, state⟩

/-- A thread with no message changes, into one that is armed if it has to be. -/
theorem Inv.put (inv : s.Inv) {t : T} (silent : t ∉ s.messages.map Prod.fst)
    {th : Option TargetThread} (phase : ∀ th', th = some th' → th'.phase ≠ .raised)
    (armed : s.mSingleStepping = true → ∀ th', th = some th' → th'.phase = .running →
      th'.debug.ss = true) : (s.put t th).Inv where
  installed := inv.installed
  task := inv.task
  armed on := (inv.armed on).put (armed on)
  waits := inv.waits.put fun th' is => iff_of_false (phase th' is) silent
  carried := inv.carried_put silent th
  nodup := inv.nodup

theorem Inv.move {act : StepAct T} (inv : s.Inv) (moves : Move s act s') : s'.Inv := by
  cases moves with
  | @plain t th state found runs free =>
    refine inv.put (inv.silent found runs) ?_ ?_
    · rintro _ ⟨⟩
      exact fun raised => nomatch runs.symm.trans raised
    · rintro on _ ⟨⟩ _
      exact inv.armed on t th found runs
  | @raise t th state found runs armed here =>
    have silent := inv.silent found runs
    refine ⟨inv.installed, inv.task, ?_, ?_, ?_, ?_⟩
    · intro on
      exact (inv.armed on).put (by rintro _ ⟨⟩; exact nofun)
    · have others : s.Threads fun u th => u ≠ t →
          (th.phase = .raised ↔ u ∈ (s.messages ++ [(t, state)]).map Prod.fst) := by
        intro u th found differ
        simp [inv.waits u th found, differ]
      intro u th' found
      by_cases same : u = t
      · subst same
        cases (threads_put_self ..).symm.trans found
        simp
      · exact others u th' ((threads_put_of_ne same _).symm.trans found) same
    · intro u os member
      rcases List.mem_append.mp member with old | new
      · exact inv.carried_put silent _ u os old
      · cases List.mem_singleton.mp new
        exact ⟨_, threads_put_self .., rfl⟩
    · rw [messages_put, List.map_append]
      exact inv.nodup.append (List.nodup_singleton _) (by simpa using silent)
  | @escape t th state found runs armed elsewhere =>
    refine inv.put (inv.silent found runs) ?_ ?_
    · rintro _ ⟨⟩
      exact nofun
    · rintro _ _ ⟨⟩
      exact nofun
  | @create t state absent =>
    refine inv.put ?_ ?_ ?_
    · intro member
      obtain ⟨⟨_, os⟩, pending, rfl⟩ := List.mem_map.mp member
      obtain ⟨th, found, -⟩ := inv.carried _ os pending
      exact nomatch absent.symm.trans found
    · rintro _ ⟨⟩
      exact nofun
    · rintro on _ ⟨⟩ _
      exact inv.task.trans on
  | exit found runs =>
    exact inv.put (inv.silent found runs) nofun nofun
  | @exception t os messages th front found =>
    have nodup := inv.nodup
    rw [front, List.map_cons, List.nodup_cons] at nodup
    refine ⟨inv.installed, inv.task, ?_, ?_, ?_, nodup.2⟩
    · intro on
      exact (inv.armed on).put (by rintro _ ⟨⟩ _; exact ArmDebugState64.ss_setSs ..)
    · intro u th' found'
      by_cases same : u = t
      · subst same
        cases (threads_put_self ..).symm.trans found'
        exact iff_of_false nofun nodup.1
      · have before := inv.waits u th' ((threads_put_of_ne same _).symm.trans found')
        simpa [front, same] using before
    · intro u os' (member : (u, os') ∈ messages)
      have differ : u ≠ t := by
        rintro rfl
        exact nodup.1 (List.mem_map.mpr ⟨(u, os'), member, rfl⟩)
      obtain ⟨th', found', state⟩ := inv.carried u os' (front ▸ List.mem_cons_of_mem _ member)
      exact ⟨th', (threads_put_of_ne differ _).trans found', state⟩
  | setSingleStep doSingleStep =>
    refine ⟨installed_setSingleStep .., ss_setSingleStep .., ?_, ?_, ?_, ?_⟩
    · rintro ⟨⟩
      exact Threads.setSingleStep fun t th _ _ => ArmDebugState64.ss_setSs ..
    · rw [messages_setSingleStep]
      exact Threads.setSingleStep inv.waits
    · rw [messages_setSingleStep]
      intro t os member
      obtain ⟨th, found, state⟩ := inv.carried t os member
      exact ⟨th.setSingleStepThread doSingleStep, by rw [threads_setSingleStep, found]; rfl, state⟩
    · rw [messages_setSingleStep]
      exact inv.nodup

theorem always_inv (started : s₀.Started) (acts : List (StepAct T)) : Always step Inv s₀ acts :=
  Always.of_step (inv_start started) (fun _ _ _ inv took => inv.move (move_of_step took)) acts

/-! What the trace tells of the target -/

/-- Who watches the target: the states of its threads, and each instruction that is executed while
the mode is on, with the program counter behind it. -/
structure Observer (T : Type) where
  stepping : Bool
  states : T → Option ArmThreadState64
  seen : List (T × Uint64)

def Observer.watch (o : Observer T) : StepAct T → Observer T
  | .execute t state => { o with
      states := Function.update o.states t (some state)
      seen := if o.stepping then o.seen ++ [(t, state.pc)] else o.seen }
  | .create t state => { o with states := Function.update o.states t (some state) }
  | .exit t => { o with states := Function.update o.states t none }
  | .exception => o
  | .setSingleStep doSingleStep => { o with stepping := doSingleStep }

/-- What is there to be seen before the first step. -/
def observer (s : SteppedTask T) : Observer T where
  stepping := s.mSingleStepping
  states t := (s.threads t).map TargetThread.state
  seen := []

/-- The trace is what the observer sees, but for the messages that are still at the port; and the
target does what it does without a tracer. -/
structure Sees (s : SteppedTask T) (o : Observer T) : Prop where
  mode : s.mSingleStepping = o.stepping
  states : ∀ t, (s.threads t).map TargetThread.state = o.states t
  seen : s.logged ++ s.messages.map (fun m => (m.1, m.2.pc)) = o.seen

/-- Besides, who waits for a reply will get one. -/
structure Follows (s : SteppedTask T) (o : Observer T) : Prop extends s.Sees o where
  waits : s.Threads fun t th => th.phase = .raised ↔ t ∈ s.messages.map Prod.fst
  replies : s.messages ≠ [] → (s.step .exception).isSome

theorem states_put {t : T} {th : Option TargetThread} {o : Observer T}
    (states : ∀ t, (s.threads t).map TargetThread.state = o.states t) (u : T) :
    ((s.put t th).threads u).map TargetThread.state =
      Function.update o.states t (th.map TargetThread.state) u := by
  by_cases same : u = t
  · subst same
    rw [threads_put_self, Function.update_self]
  · rw [threads_put_of_ne same, Function.update_of_ne same, states]

theorem Sees.move {act : StepAct T} {o : Observer T} (inv : s.Inv) (sees : s.Sees o)
    (moves : Move s act s') : s'.Sees (o.watch act) := by
  obtain ⟨mode, states, seen⟩ := sees
  cases moves with
  | @plain t th state found runs free =>
    have off : o.stepping = false := mode.symm.trans (Bool.eq_false_iff.mpr fun on =>
      Bool.false_ne_true (free.symm.trans (inv.armed on t th found runs)))
    refine ⟨mode, states_put states, ?_⟩
    simp only [Observer.watch, off, Bool.false_eq_true, if_false]
    exact seen
  | raise found runs armed here =>
    have on : o.stepping = true := mode.symm.trans (inv.installed.symm.trans here)
    refine ⟨mode, states_put states, ?_⟩
    simp only [Observer.watch, on, if_true, messages_put, logged_put, List.map_append, ← seen,
      List.append_assoc, List.map_cons, List.map_nil]
  | escape found runs armed elsewhere =>
    have off : o.stepping = false := mode.symm.trans (inv.installed.symm.trans elsewhere)
    refine ⟨mode, states_put states, ?_⟩
    simp only [Observer.watch, off, Bool.false_eq_true, if_false]
    exact seen
  | create absent => exact ⟨mode, states_put states, seen⟩
  | exit found runs => exact ⟨mode, states_put states, seen⟩
  | @exception t os messages th front found =>
    refine ⟨mode, fun u => ?_, ?_⟩
    · -- the handler returns the state that it was sent
      obtain ⟨th', found', state⟩ := inv.carried t os (front ▸ List.mem_cons_self)
      by_cases same : u = t
      · subst same
        rw [threads_put_self, Observer.watch, ← states u, found', ← state]
        rfl
      · rw [threads_put_of_ne same]
        exact states u
    · rw [Observer.watch, ← seen, front]
      simp
  | setSingleStep doSingleStep =>
    refine ⟨rfl, fun u => ?_, ?_⟩
    · rw [threads_setSingleStep, Option.map_map]
      exact states u
    · rw [logged_setSingleStep, messages_setSingleStep]
      exact seen

theorem sees_of_run (started : s₀.Started) (ran : run step s₀ acts = some s) :
    s.Sees (acts.foldl Observer.watch s₀.observer) := by
  induction acts using List.reverseRecOn generalizing s with
  | nil =>
    cases ran
    refine ⟨rfl, fun _ => rfl, ?_⟩
    rw [started.logged, started.messages]
    rfl
  | append_singleton acts act ih =>
    obtain ⟨mid, before, last⟩ := run_concat_some ran
    have inv := always_inv started acts acts List.prefix_rfl mid before
    rw [List.foldl_concat]
    exact (ih before).move inv (move_of_step last)

/-- Whatever the threads, the handler and the tracer do in turn: the trace is the list of what was
executed while the tracer stepped, and the target is as it would be without it. -/
theorem run_refines_observer (started : s₀.Started) (ran : run step s₀ acts = some s) :
    s.Follows (acts.foldl Observer.watch s₀.observer) := by
  have inv := always_inv started acts acts List.prefix_rfl s ran
  refine ⟨sees_of_run started ran, inv.waits, fun pending => ?_⟩
  obtain ⟨⟨t, os⟩, messages, front⟩ := List.exists_cons_of_ne_nil pending
  obtain ⟨th, found, -⟩ := inv.carried t os (front ▸ List.mem_cons_self)
  simp only [step, exception, front, found, Option.bind_eq_bind, Option.bind_some,
    Option.isSome_some]

/-- A thread that has just come to `pc`. -/
def stateAt (pc : Uint64) : ArmThreadState64 where
  x := .replicate 29 0
  fp := 0
  lr := 0
  sp := 0
  pc
  cpsr := 0

/-- One thread, before the tracer. -/
def oneThread : SteppedTask Unit where
  threads _ := some ⟨stateAt 0x100004000, .zero, .running⟩
  taskDebug := .zero
  installed := false
  messages := []
  logged := []
  mSingleStepping := false

theorem oneThread_started : oneThread.Started where
  off := rfl
  uninstalled := rfl
  messages := rfl
  logged := rfl
  task := rfl
  threads := by
    rintro t _ ⟨⟩
    exact ⟨rfl, rfl⟩

/-- The exception of the only instruction is answered when the tracer has stopped. -/
def lateReply : List (StepAct Unit) :=
  [.setSingleStep true, .execute () (stateAt 0x100004004), .setSingleStep false, .exception]

theorem run_refines_observer_late : ∃ s, run step oneThread lateReply = some s ∧
    s.Follows (lateReply.foldl Observer.watch oneThread.observer) :=
  ⟨_, rfl, run_refines_observer oneThread_started rfl⟩

/-! What a stop leaves behind -/

def NoneEscaped (s : SteppedTask T) : Prop := s.Threads fun _ th => th.phase ≠ .escaped

/-- No exception has gone to the old port, and once the tracer has stopped none will before it
starts again. -/
def Contained (s : SteppedTask T) : Prop :=
  s.NoneEscaped ∧ (s.mSingleStepping = false → ∀ more s', .setSingleStep true ∉ more →
    run step s more = some s' → s'.NoneEscaped)

/-- If the tracer stops, then while no message is at its port. -/
def Quiet (s : SteppedTask T) (act : StepAct T) : Prop :=
  act = .setSingleStep false → s.messages = []

structure Clean (s : SteppedTask T) : Prop where
  contained : s.NoneEscaped
  silent : s.mSingleStepping = false → s.messages = []
  free : s.mSingleStepping = false → s.Threads fun _ th => th.debug.ss = false

omit [DecidableEq T] in
theorem clean_start (started : s₀.Started) : s₀.Clean where
  contained t th found escaped := nomatch (started.threads t th found).1.symm.trans escaped
  silent _ := started.messages
  free _ t th found := (started.threads t th found).2

theorem Clean.move {act : StepAct T} (inv : s.Inv) (clean : s.Clean) (quiet : s.Quiet act)
    (moves : Move s act s') : s'.Clean := by
  cases moves with
  | @plain t th state found runs free =>
    refine ⟨clean.contained.put ?_, clean.silent, fun off => (clean.free off).put ?_⟩
    · rintro _ ⟨⟩
      exact clean.contained t th found
    · rintro _ ⟨⟩
      exact free
  | raise found runs armed here =>
    have on := inv.installed.symm.trans here
    refine ⟨clean.contained.put ?_, ?_, ?_⟩
    · rintro _ ⟨⟩
      exact nofun
    · exact fun off => absurd (off.symm.trans on) Bool.false_ne_true
    · exact fun off => absurd (off.symm.trans on) Bool.false_ne_true
  | @escape t th state found runs armed elsewhere =>
    have off := inv.installed.symm.trans elsewhere
    exact absurd ((clean.free off t th found).symm.trans armed) Bool.false_ne_true
  | create absent =>
    refine ⟨clean.contained.put ?_, clean.silent, fun off => (clean.free off).put ?_⟩
    · rintro _ ⟨⟩
      exact nofun
    · rintro _ ⟨⟩
      exact inv.task.trans off
  | exit found runs =>
    exact ⟨clean.contained.put nofun, clean.silent, fun off => (clean.free off).put nofun⟩
  | exception front found =>
    have on : s.mSingleStepping = true := (Bool.eq_false_or_eq_true _).resolve_right fun off =>
      List.cons_ne_nil _ _ (front.symm.trans (clean.silent off))
    refine ⟨clean.contained.put ?_, ?_, ?_⟩
    · rintro _ ⟨⟩
      exact nofun
    · exact fun off => absurd (off.symm.trans on) Bool.false_ne_true
    · exact fun off => absurd (off.symm.trans on) Bool.false_ne_true
  | setSingleStep doSingleStep =>
    refine ⟨Threads.setSingleStep clean.contained, ?_, ?_⟩
    · rintro ⟨⟩
      exact (messages_setSingleStep false).trans (quiet rfl)
    · rintro ⟨⟩
      exact Threads.setSingleStep fun t th _ => ArmDebugState64.ss_setSs ..

/-- An exception while the tracer is off goes to the old port. -/
theorem escapes_of_armed {t : T} {th : TargetThread} (inv : s.Inv)
    (off : s.mSingleStepping = false) (found : s.threads t = some th) (runs : th.phase = .running)
    (armed : th.debug.ss = true) :
    ∃ s', s.step (.execute t th.state) = some s' ∧ ¬ s'.NoneEscaped := by
  refine ⟨s.put t (some ⟨th.state, th.debug.setSs false, .escaped⟩), ?_, fun none => ?_⟩
  · simp [step, execute, found, runs, armed, inv.installed, off]
  · exact none t _ (threads_put_self ..) rfl

/-- A message that is answered after the stop arms its thread again. -/
theorem clean_of_contained (inv : s.Inv) (contained : s.Contained) : s.Clean := by
  obtain ⟨here, later⟩ := contained
  have silent : s.mSingleStepping = false → s.messages = [] := by
    intro off
    by_contra pending
    obtain ⟨⟨t, os⟩, messages, front⟩ := List.exists_cons_of_ne_nil pending
    obtain ⟨th, found, -⟩ := inv.carried t os (front ▸ List.mem_cons_self)
    obtain ⟨s₁, took⟩ : ∃ s₁, s.step .exception = some s₁ := by
      simp only [step, exception, front, found, Option.bind_eq_bind, Option.bind_some]
      exact ⟨_, rfl⟩
    have moves := move_of_step took
    have inv₁ := inv.move moves
    cases moves with
    | exception front' found' =>
      cases front.symm.trans front'
      obtain ⟨s₂, executed, escaped⟩ := escapes_of_armed inv₁ off (threads_put_self ..) rfl
        (ArmDebugState64.ss_setSs ..)
      refine escaped (later off [.exception, .execute t os] s₂ (by simp) ?_)
      simp only [run, List.foldlM_cons, List.foldlM_nil, took, Option.bind_eq_bind,
        Option.bind_some]
      rw [executed]
      rfl
  refine ⟨here, silent, fun off t th found => ?_⟩
  by_contra armed
  have armed : th.debug.ss = true := by simpa using armed
  have runs : th.phase = .running := by
    cases phase : th.phase with
    | running => rfl
    | raised =>
      have member := (inv.waits t th found).mp phase
      simp [silent off] at member
    | escaped => exact absurd phase (here t th found)
  obtain ⟨s', executed, escaped⟩ := escapes_of_armed inv off found runs armed
  refine escaped (later off [.execute t th.state] s' (by simp) ?_)
  simp only [run, List.foldlM_cons, List.foldlM_nil, Option.bind_eq_bind, executed,
    Option.bind_some]
  rfl

theorem Clean.contained_run (inv : s.Inv) (clean : s.Clean) : s.Contained := by
  refine ⟨clean.contained, fun off more s' never ran => ?_⟩
  have each : Each step (fun _ act => act ≠ .setSingleStep true) s more := by
    rintro done act taken _ _ rfl
    exact never (taken.subset (List.mem_append_right _ List.mem_cons_self))
  have stays : Always step (fun s => s.Inv ∧ s.Clean ∧ s.mSingleStepping = false) s more := by
    refine Always.of_each ⟨inv, clean, off⟩ ?_ each
    rintro s act s' ⟨inv, clean, off⟩ other took
    have moves := move_of_step took
    refine ⟨inv.move moves, clean.move inv (fun _ => clean.silent off) moves, ?_⟩
    cases moves with
    | setSingleStep doSingleStep =>
      cases doSingleStep with
      | false => rfl
      | true => exact absurd rfl other
    | _ => exact off
  exact (stays more List.prefix_rfl s' ran).2.1.contained

theorem contained_iff (inv : s.Inv) : s.Contained ↔ s.Clean :=
  ⟨clean_of_contained inv, fun clean => clean.contained_run inv⟩

/-- Exceptions stay with the tracer exactly in the runs in which it stops only while no message is
at its port: the handler that answers one later arms the thread for the old port. -/
theorem contained_run_iff (started : s₀.Started) (acts : List (StepAct T)) :
    Always step Contained s₀ acts ↔ Each step Quiet s₀ acts := by
  have inv := inv_start started
  refine always_iff_each acts inv ((contained_iff inv).mpr (clean_start started))
    (fun _ _ _ inv took => inv.move (move_of_step took)) ?_ ?_
  · intro s act s' inv contained quiet took
    have moves := move_of_step took
    have clean := ((contained_iff inv).mp contained).move inv quiet moves
    exact (contained_iff (inv.move moves)).mpr clean
  · intro s act inv contained loud
    obtain ⟨rfl, pending⟩ := Classical.not_imp.mp loud
    refine ⟨_, rfl, fun contained' => pending ?_⟩
    have clean := (contained_iff (inv.move (.setSingleStep false))).mp contained'
    exact (messages_setSingleStep false).symm.trans (clean.silent rfl)

/-- The same exception is answered before the tracer stops. -/
def promptReply : List (StepAct Unit) :=
  [.setSingleStep true, .execute () (stateAt 0x100004004), .exception, .setSingleStep false]

theorem promptReply_quiet : Each step Quiet oneThread promptReply := by
  have plain {s : SteppedTask Unit} {act} (other : act ≠ .setSingleStep false) : Quiet s act :=
    fun stops => absurd stops other
  refine each_cons.mpr ⟨plain (by simp), fun _ took => ?_⟩
  cases took
  refine each_cons.mpr ⟨plain (by simp), fun _ took => ?_⟩
  cases took
  refine each_cons.mpr ⟨plain (by simp), fun _ took => ?_⟩
  cases took
  exact each_cons.mpr ⟨fun _ => rfl, fun _ _ => each_nil⟩

theorem lateReply_loud : ¬Each step Quiet oneThread lateReply := by
  intro each
  have pending := each [.setSingleStep true, .execute () (stateAt 0x100004004)]
    (.setSingleStep false) ⟨[.exception], rfl⟩ _ rfl rfl
  exact List.cons_ne_nil _ _ pending

theorem contained_run_iff_replies :
    (Always step Contained oneThread promptReply ↔ Each step Quiet oneThread promptReply) ∧
      Each step Quiet oneThread promptReply ∧
      (Always step Contained oneThread lateReply ↔ Each step Quiet oneThread lateReply) ∧
      ¬Each step Quiet oneThread lateReply := by
  exact ⟨contained_run_iff oneThread_started promptReply, promptReply_quiet,
    contained_run_iff oneThread_started lateReply, lateReply_loud⟩

end SteppedTask

end XnuTrace
