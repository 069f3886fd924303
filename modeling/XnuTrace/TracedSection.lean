import XnuTrace.PipeControl
import XnuTrace.SingleStep

/-! A target that controls its own trace: its threads call `pipe_set_single_step`, and execute
instructions, those of these calls among them. The two meet in the blocks of the serial queue, which
call `set_single_step`. -/
namespace XnuTrace
open Stepwise XNUTracer

structure PipedTarget (T : Type) where
  control : PipeControl T
  task : SteppedTask T

inductive PipedAct (T : Type)
  | pipe (act : PipeAct T)
  | task (act : StepAct T)

/-- The thread that writes or reads. -/
def PipeAct.caller {T : Type} : PipeAct T → Option T
  | request t _ => some t
  | confirm t => some t
  | _ => none

namespace PipedAct
variable {T : Type}

def ofPipe : PipedAct T → List (PipeAct T)
  | pipe act => [act]
  | task _ => []

def executed : PipedAct T → List (T × Uint64)
  | task (.execute t state) => [(t, state.pc)]
  | _ => []

/-- A call of `pipe_set_single_step` begins. -/
def Calls (act : PipedAct T) : Prop := ∃ t doSs, act = pipe (.request t doSs)

end PipedAct

namespace SteppedTask
variable {T : Type}

def runs (s : SteppedTask T) (t : T) : Bool := (s.threads t).any fun th => th.phase = .running

/-- What the trace tells once the messages at the port have been answered. -/
def recorded (s : SteppedTask T) : List (T × Uint64) :=
  s.logged ++ s.messages.map fun m => (m.1, m.2.pc)

end SteppedTask

namespace PipedTarget
variable {T : Type}

def start (tracer : XNUTracer) (task : SteppedTask T) : PipedTarget T where
  control := .start tracer
  task

def pipeActs (acts : List (PipedAct T)) : List (PipeAct T) := acts.flatMap PipedAct.ofPipe

/-- What the target executes in a run, in order. -/
def executed (acts : List (PipedAct T)) : List (T × Uint64) := acts.flatMap PipedAct.executed

variable [DecidableEq T]

def pipeStep (s : PipedTarget T) (act : PipeAct T) : Option (PipedTarget T) := do
  let control ← s.control.step act
  match act, s.control.queue with
  | .block _, doSs :: _ => some { control, task := s.task.setSingleStep doSs }
  | _, _ => some { s with control }

def step (s : PipedTarget T) : PipedAct T → Option (PipedTarget T)
  | .pipe act => if act.caller.all s.task.runs then s.pipeStep act else none
  -- the tracer has no other calls of it
  | .task (.setSingleStep _) => none
  | .task act => do
    let task ← s.task.step act
    some { s with task }

/-- A call begins while no other one waits. -/
def Alone (s : PipedTarget T) (act : PipedAct T) : Prop :=
  act.Calls → ∀ t, s.control.waits t = none

variable {s s' s₀ : PipedTarget T} {acts : List (PipedAct T)}

theorem pipe_of_step {act : PipeAct T} (took : s.step (.pipe act) = some s') :
    s.control.step act = some s'.control ∧
    ((∃ now doSs queue, act = .block now ∧ s.control.queue = doSs :: queue ∧
        s'.task = s.task.setSingleStep doSs) ∨
      (∀ now, act ≠ .block now) ∧ s'.task = s.task) := by
  obtain ⟨-, took⟩ := Option.ite_none_right_eq_some.mp took
  obtain ⟨control, moved, took⟩ := Option.bind_eq_some_iff.mp took
  cases act with
  | block now =>
    cases queued : s.control.queue with
    | nil =>
      rw [PipeControl.step, PipeControl.blockStep, queued] at moved
      cases moved
    | cons doSs queue =>
      rw [queued] at took
      cases took
      exact ⟨moved, .inl ⟨now, doSs, queue, rfl, rfl, rfl⟩⟩
  | _ =>
    cases took
    refine ⟨moved, .inr ⟨fun now same => ?_, rfl⟩⟩
    cases same

theorem task_of_step {act : StepAct T} (took : s.step (.task act) = some s') :
    s.task.step act = some s'.task ∧ s'.control = s.control ∧
      ∀ doSs, act ≠ .setSingleStep doSs := by
  cases act with
  | setSingleStep doSs => cases took
  | _ =>
    obtain ⟨task, moved, took⟩ := Option.bind_eq_some_iff.mp took
    cases took
    exact ⟨moved, rfl, nofun⟩

omit [DecidableEq T] in
theorem pipeActs_concat (acts : List (PipedAct T)) (act : PipedAct T) :
    pipeActs (acts ++ [act]) = pipeActs acts ++ act.ofPipe := by
  rw [pipeActs, List.flatMap_append, List.flatMap_singleton]
  rfl

/-- The control does what it does without the task. -/
theorem run_control (ran : run step s₀ acts = some s) :
    run PipeControl.step s₀.control (pipeActs acts) = some s.control := by
  induction acts using List.reverseRecOn generalizing s with
  | nil =>
    cases ran
    rfl
  | append_singleton acts act ih =>
    obtain ⟨mid, before, last⟩ := run_concat_some ran
    rw [pipeActs_concat]
    cases act with
    | pipe act =>
      rw [PipedAct.ofPipe, run_concat, ih before]
      exact (pipe_of_step last).1
    | task act =>
      rw [PipedAct.ofPipe, List.append_nil, ih before, (task_of_step last).2.1]

theorem each_control (alone : Each step Alone s₀ acts) (ran : run step s₀ acts = some s) :
    Each PipeControl.step PipeControl.Alone s₀.control (pipeActs acts) := by
  induction acts using List.reverseRecOn generalizing s with
  | nil =>
    intro done act taken
    exact absurd (List.prefix_nil.mp taken) (by simp)
  | append_singleton acts act ih =>
    obtain ⟨mid, before, last⟩ := run_concat_some ran
    have earlier := ih alone.earlier before
    rw [pipeActs_concat]
    cases act with
    | task act =>
      rw [PipedAct.ofPipe, List.append_nil]
      exact earlier
    | pipe act =>
      intro done act' taken control ran'
      rcases List.prefix_concat_iff.mp taken with same | inside
      · obtain ⟨rfl, one⟩ := List.append_inj' same rfl
        cases one
        cases ran'.symm.trans (run_control before)
        intro t doSs request
        exact alone acts _ List.prefix_rfl mid before ⟨t, doSs, congrArg _ request⟩
      · exact earlier done act' inside control ran'

/-- The tracer and the task agree on the mode. -/
structure Agrees (s : PipedTarget T) : Prop where
  mode : s.control.tracer.mSingleStepping = s.task.mSingleStepping
  inv : s.task.Inv

/-- The call of `doSs` has returned, and no other one has begun. -/
structure Settled (doSs : Bool) (s : PipedTarget T) : Prop where
  written : s.control.target2tracer = []
  queue : s.control.queue = []
  mode : s.task.mSingleStepping = doSs
  inv : s.task.Inv

theorem Settled.move {doSs : Bool} {act : PipedAct T} (settled : s.Settled doSs)
    (silent : ¬ act.Calls) (took : s.step act = some s') : s'.Settled doSs ∧
      s'.task.recorded = s.task.recorded ++ if doSs then act.executed else [] := by
  obtain ⟨written, queue, mode, inv⟩ := settled
  have nothing : act.executed = [] →
      s.task.recorded = s.task.recorded ++ if doSs then act.executed else [] := by
    intro none
    rw [none, ite_self, List.append_nil]
  cases act with
  | pipe act =>
    obtain ⟨moved, ⟨now, doSs', rest, rfl, queued, -⟩ | ⟨-, task⟩⟩ := pipe_of_step took
    · exact nomatch queue.symm.trans queued
    · cases act with
      | request t doSs => exact absurd ⟨t, doSs, rfl⟩ silent
      | source =>
        rw [PipeControl.step, PipeControl.sourceStep, written] at moved
        cases moved
      | block now =>
        rw [PipeControl.step, PipeControl.blockStep, queue] at moved
        cases moved
      | confirm t =>
        obtain ⟨-, queue', written'⟩ := PipeControl.confirm_kept moved
        refine ⟨⟨written'.trans written, queue'.trans queue, task ▸ mode, task ▸ inv⟩, ?_⟩
        rw [task]
        exact nothing rfl
  | task act =>
    obtain ⟨moved, control, other⟩ := task_of_step took
    have moves := SteppedTask.move_of_step moved
    -- who begins to watch here, with what has been recorded
    have sees : s.task.Sees ⟨doSs, s.task.observer.states, s.task.recorded⟩ :=
      ⟨mode, fun _ => rfl, rfl⟩
    obtain ⟨mode', -, seen⟩ := sees.move inv moves
    have settled' : s'.task.mSingleStepping = doSs →
        s'.Settled doSs := fun mode =>
      ⟨control ▸ written, control ▸ queue, mode, inv.move moves⟩
    cases act with
    | setSingleStep doSs => exact absurd rfl (other doSs)
    | execute t state =>
      refine ⟨settled' mode', seen.trans ?_⟩
      cases doSs
      · exact (List.append_nil _).symm
      · rfl
    | _ =>
      exact ⟨settled' mode', seen.trans (nothing rfl)⟩

theorem Settled.stays {doSs : Bool} {during : List (PipedAct T)} (settled : s.Settled doSs)
    (silent : ∀ act ∈ during, ¬ act.Calls) (ran : run step s during = some s') :
    s'.Settled doSs ∧
      s'.task.recorded = s.task.recorded ++ if doSs then executed during else [] := by
  induction during using List.reverseRecOn generalizing s' with
  | nil =>
    cases ran
    rw [executed, List.flatMap_nil, ite_self, List.append_nil]
    exact ⟨settled, rfl⟩
  | append_singleton during act ih =>
    obtain ⟨mid, before, last⟩ := run_concat_some ran
    obtain ⟨settledMid, recordedMid⟩ :=
      ih (fun act member => silent act (List.mem_append_left _ member)) before
    obtain ⟨settled', recorded⟩ := settledMid.move (silent act (by simp)) last
    refine ⟨settled', ?_⟩
    rw [recorded, recordedMid, List.append_assoc, executed, executed, List.flatMap_append,
      List.flatMap_singleton]
    split <;> rfl

section
variable [Fintype T] {symbolicate : Bool} {now now' : Readings} {resumeAt : Reading}
  {tracer : XNUTracer} {task : SteppedTask T}

theorem agrees_of_run
    (spawned : XNUTracer.spawnPiped symbolicate now now' resumeAt = some tracer)
    (started : task.Started) (ran : run step (start tracer task) acts = some s) : s.Agrees := by
  induction acts using List.reverseRecOn generalizing s with
  | nil =>
    cases ran
    obtain ⟨tracer', spawned', follows⟩ :=
      XNUTracer.follows_spawnPiped symbolicate now now' resumeAt
    cases spawned.symm.trans spawned'
    exact ⟨follows.stepping.trans started.off.symm, SteppedTask.inv_start started⟩
  | append_singleton acts act ih =>
    obtain ⟨mid, before, last⟩ := run_concat_some ran
    obtain ⟨mode, inv⟩ := ih before
    cases act with
    | pipe act =>
      have after := PipeControl.after_spawnPiped spawned (run_control before)
      obtain ⟨moved, ⟨now, doSs, queue, rfl, queued, task⟩ | ⟨other, task⟩⟩ := pipe_of_step last
      · have stepping := after.mode_block queued moved
        refine ⟨stepping.trans ?_, ?_⟩
        · rw [task]
          rfl
        · rw [task]
          exact inv.move (.setSingleStep doSs)
      · exact ⟨by rw [PipeControl.tracer_kept other moved, task, mode], task ▸ inv⟩
    | task act =>
      obtain ⟨moved, control, other⟩ := task_of_step last
      have moves := SteppedTask.move_of_step moved
      refine ⟨?_, inv.move moves⟩
      rw [control, mode, moves.mode_eq other]

/-- Where no two calls overlap: from the return of a call to the begin of the next one the trace
gets all that the target executes, in order, if the call was one to step, and else nothing. -/
theorem recorded_section
    (spawned : XNUTracer.spawnPiped symbolicate now now' resumeAt = some tracer)
    (started : task.Started) (alone : Each step Alone (start tracer task) acts)
    (ran : run step (start tracer task) acts = some s) {t : T} {doSs : Bool}
    (waits : s.control.waits t = some doSs) (returned : s.step (.pipe (.confirm t)) = some s')
    {during : List (PipedAct T)} (silent : ∀ act ∈ during, ¬ act.Calls) {s'' : PipedTarget T}
    (went : run step s' during = some s'') :
    s''.task.recorded = s'.task.recorded ++ if doSs then executed during else [] := by
  obtain ⟨mode, inv⟩ := agrees_of_run spawned started ran
  obtain ⟨moved, ⟨now, doSs', rest, same, -⟩ | ⟨-, task⟩⟩ := pipe_of_step returned
  · cases same
  · have control := run_control ran
    have separate := each_control alone ran
    obtain ⟨stepping, -⟩ := PipeControl.confirm_handshake spawned separate control waits moved
    obtain ⟨written, queue⟩ := PipeControl.idle_of_confirm spawned separate control moved
    obtain ⟨tracer, queue', written'⟩ := PipeControl.confirm_kept moved
    have settled : s'.Settled doSs := by
      refine ⟨written'.trans written, queue'.trans queue, ?_, task ▸ inv⟩
      rw [task, ← mode, ← tracer, stepping]
    exact (settled.stays silent went).2

end

/-- The call of the only thread, but for its last step. -/
def tracedCall : List (PipedAct Unit) :=
  [.pipe (.request () true), .pipe .source, .pipe (.block noReadings)]

/-- Two instructions, the second one not answered yet. -/
def tracedSteps : List (PipedAct Unit) :=
  [.task (.execute () (SteppedTask.stateAt 0x100004004)), .task .exception,
    .task (.execute () (SteppedTask.stateAt 0x100004008))]

theorem tracedCall_alone :
    Each step Alone (start PipeControl.pipedTracer SteppedTask.oneThread) tracedCall := by
  refine each_cons.mpr ⟨fun _ _ => rfl, fun s' _ => each_cons.mpr ⟨?_, fun s'' _ => ?_⟩⟩
  · rintro ⟨t, doSs, ⟨⟩⟩
  · refine each_cons.mpr ⟨?_, fun _ _ => each_nil⟩
    rintro ⟨t, doSs, ⟨⟩⟩

theorem tracedSteps_silent : ∀ act ∈ tracedSteps, ¬ act.Calls := by
  rintro act member ⟨t, doSs, rfl⟩
  simp [tracedSteps] at member

theorem recorded_section_one : ∃ s s' s'',
    run step (start PipeControl.pipedTracer SteppedTask.oneThread) tracedCall = some s ∧
    s.step (.pipe (.confirm ())) = some s' ∧ run step s' tracedSteps = some s'' ∧
    s''.task.recorded = s'.task.recorded ++ executed tracedSteps := by
  have facts : ((run step (start PipeControl.pipedTracer SteppedTask.oneThread) tracedCall).bind
      fun s => (s.step (.pipe (.confirm ()))).bind
      fun s' => (run step s' tracedSteps).map fun _ => s.control.waits ()) =
      some (some true) := rfl
  obtain ⟨s, ran, facts⟩ := Option.bind_eq_some_iff.mp facts
  obtain ⟨s', returned, facts⟩ := Option.bind_eq_some_iff.mp facts
  obtain ⟨s'', went, waits⟩ := Option.map_eq_some_iff.mp facts
  exact ⟨s, s', s'', ran, returned, went, recorded_section PipeControl.spawnPiped_eq
    SteppedTask.oneThread_started tracedCall_alone ran waits returned tracedSteps_silent went⟩

end PipedTarget

end XnuTrace
