import XnuTrace.LogStructs
import XnuTrace.Lib.Stepwise

/-! `XNUTracer` as far as it suspends the task and measures: the kernel's suspend count, the two
flags and the totals. -/
namespace XnuTrace
open Stepwise

/-- What `clock_gettime` and `get_context_switch_count` tell, in nanoseconds and `int32_t`. -/
structure Reading where
  time : Int
  selfNumCsw : Uint32
  targetNumCsw : Uint32

/-- The readings of one operation, by the place that takes them. -/
structure Readings where
  atSuspend : Reading
  atResume : Reading
  atPipe : Reading

/-- Seconds are nanoseconds here, which the code's doubles round. -/
structure XNUTracer where
  taskIsValid : Bool := true
  suspendCount : Nat
  /-- `m_symbols` is not null. -/
  symbolicate : Bool
  mSingleStepping : Bool := false
  mMeasuringStats : Bool := false
  mElapsedTime : Int := 0
  mSelfTotalCsw : Uint64 := 0
  mTargetTotalCsw : Uint64 := 0
  mStart : Reading := ⟨0, 0, 0⟩

namespace XNUTracer

def totals (s : XNUTracer) : Int × Uint64 × Uint64 :=
  (s.mElapsedTime, s.mSelfTotalCsw, s.mTargetTotalCsw)

def startMeasuringStats (now : Reading) (s : XNUTracer) : XNUTracer :=
  if s.mMeasuringStats then s else { s with mStart := now, mMeasuringStats := true }

/-- The differences of the counts are `int32_t`. -/
def stopMeasuringStats (now : Reading) (s : XNUTracer) : XNUTracer :=
  if s.mMeasuringStats then
    { s with
      mElapsedTime := s.mElapsedTime + (now.time - s.mStart.time)
      mSelfTotalCsw := s.mSelfTotalCsw + (now.selfNumCsw - s.mStart.selfNumCsw).signExtend 64
      mTargetTotalCsw := if s.taskIsValid then
          s.mTargetTotalCsw + (now.targetNumCsw - s.mStart.targetNumCsw).signExtend 64
        else s.mTargetTotalCsw
      mMeasuringStats := false }
  else s

/-! The kernel calls; where one fails `mach_check` ends the tracer. -/

def getSuspendCount (s : XNUTracer) : Option Nat :=
  if s.taskIsValid then some s.suspendCount else none

def taskSuspend (s : XNUTracer) : Option XNUTracer :=
  if s.taskIsValid then some { s with suspendCount := s.suspendCount + 1 } else none

/-- A task that is not suspended is not resumed. -/
def taskResume (s : XNUTracer) : Option XNUTracer :=
  if s.taskIsValid ∧ s.suspendCount ≠ 0 then some { s with suspendCount := s.suspendCount - 1 }
  else none

def suspend (now : Reading) (s : XNUTracer) : Option XNUTracer :=
  if s.taskIsValid then do
    let suspendCnt ← s.getSuspendCount
    let s ← s.taskSuspend
    if s.mSingleStepping && suspendCnt == 1 then some (s.stopMeasuringStats now) else some s
  else some s

def resume (now : Reading) (s : XNUTracer) : Option XNUTracer :=
  if s.taskIsValid then do
    let suspendCnt ← s.getSuspendCount
    if s.mSingleStepping && suspendCnt == 1 then (s.startMeasuringStats now).taskResume
    else s.taskResume
  else some s

/-- `MachORegions::reset`, `VMRegions::reset` and `Symbols::reset` each do their work between
these two calls. -/
def reset (s : XNUTracer) : Option XNUTracer := s.taskSuspend >>= taskResume

/-- The regions, and the symbols where there are any. -/
def resetAll (s : XNUTracer) : Option XNUTracer := do
  let s ← s.reset
  let s ← s.reset
  if s.symbolicate then s.reset else some s

def setSingleStep (now : Readings) (doSingleStep : Bool) (s : XNUTracer) : Option XNUTracer := do
  let s ← s.suspend now.atSuspend
  let s ← (if doSingleStep then s.resetAll else some s)
  let s ← s.resume now.atResume
  some { s with mSingleStepping := doSingleStep }

/-- The handler of `setup_pipe_dispatch_source`, with the byte it reads. -/
def handlePipe (now : Readings) (rbuf : Uint8) (s : XNUTracer) : Option XNUTracer :=
  if rbuf = 0x79 then do
    let s ← s.setSingleStep now true
    let suspendCnt ← s.getSuspendCount
    if suspendCnt == 0 && !s.mMeasuringStats then some (s.startMeasuringStats now.atPipe)
    else some s
  else if rbuf = 0x6e then do
    let s ← s.setSingleStep now false
    let suspendCnt ← s.getSuspendCount
    if suspendCnt == 0 && s.mMeasuringStats then some (s.stopMeasuringStats now.atPipe)
    else some s
  else none

/-- The constructors of the regions and of the symbols reset them. -/
def commonCtor (pipeCtrl : Bool) (now : Readings) (s : XNUTracer) : Option XNUTracer := do
  let s ← s.resetAll
  if pipeCtrl then some s else s.setSingleStep now true

/-- The constructors that attach to a task. -/
def attach (suspendCount : Nat) (symbolicate : Bool) (suspendAt : Reading) (now : Readings) :
    Option XNUTracer := do
  let s ← suspend suspendAt { suspendCount, symbolicate }
  s.commonCtor false now

/-- The constructor that spawns the task; `POSIX_SPAWN_START_SUSPENDED`. -/
def spawn (pipeCtrl symbolicate : Bool) (now : Readings) : Option XNUTracer :=
  commonCtor pipeCtrl now { suspendCount := 1, symbolicate }

inductive Constructed : XNUTracer → Prop
  | attached {count symbolicated suspendAt now} :
      attach count symbolicated suspendAt now = some s → Constructed s
  | spawned {pipeCtrl symbolicated now} :
      spawn pipeCtrl symbolicated now = some s → Constructed s

inductive Op
  | suspend
  | resume
  | setSingleStep (doSingleStep : Bool)
  | pipe (rbuf : Uint8)

def step (s : XNUTracer) : Op × Readings → Option XNUTracer
  | (.suspend, now) => s.suspend now.atSuspend
  | (.resume, now) => s.resume now.atResume
  | (.setSingleStep doSingleStep, now) => s.setSingleStep now doSingleStep
  | (.pipe rbuf, now) => s.handlePipe now rbuf

/-- While the target is suspended nothing is measured: stopping later adds nothing for the
time until then. -/
structure ExcludesSuspended (s : XNUTracer) : Prop where
  measuring : s.mMeasuringStats = true → s.suspendCount = 0
  totals : s.suspendCount ≠ 0 → ∀ now, (s.stopMeasuringStats now).totals = s.totals

/-- The operation is not a `suspend` while the tracer measures. -/
def NotMeasured (s : XNUTracer) (op : Op × Readings) : Prop :=
  op.1 = .suspend → s.mMeasuringStats = false

variable {s s' : XNUTracer}

@[simp] theorem taskIsValid_start (now : Reading) (s : XNUTracer) :
    (s.startMeasuringStats now).taskIsValid = s.taskIsValid := by
  rw [startMeasuringStats]
  split <;> rfl

@[simp] theorem suspendCount_start (now : Reading) (s : XNUTracer) :
    (s.startMeasuringStats now).suspendCount = s.suspendCount := by
  rw [startMeasuringStats]
  split <;> rfl

@[simp] theorem mMeasuringStats_start (now : Reading) (s : XNUTracer) :
    (s.startMeasuringStats now).mMeasuringStats = true := by
  rw [startMeasuringStats]
  split
  · assumption
  · rfl

@[simp] theorem taskIsValid_stop (now : Reading) (s : XNUTracer) :
    (s.stopMeasuringStats now).taskIsValid = s.taskIsValid := by
  rw [stopMeasuringStats]
  split <;> rfl

@[simp] theorem suspendCount_stop (now : Reading) (s : XNUTracer) :
    (s.stopMeasuringStats now).suspendCount = s.suspendCount := by
  rw [stopMeasuringStats]
  split <;> rfl

@[simp] theorem mMeasuringStats_stop (now : Reading) (s : XNUTracer) :
    (s.stopMeasuringStats now).mMeasuringStats = false := by
  rw [stopMeasuringStats]
  split
  · rfl
  · exact Bool.eq_false_iff.mpr ‹_›

theorem stop_of_not_measuring (off : s.mMeasuringStats = false) (now : Reading) :
    s.stopMeasuringStats now = s := by
  rw [stopMeasuringStats, off]
  rfl

theorem ExcludesSuspended.of_measuring (measuring : s.mMeasuringStats = true → s.suspendCount = 0) :
    ExcludesSuspended s where
  measuring := measuring
  totals suspended now := by
    have off : s.mMeasuringStats = false := Bool.eq_false_iff.mpr fun on => suspended (measuring on)
    rw [stop_of_not_measuring off]

theorem getSuspendCount_of_valid (valid : s.taskIsValid = true) :
    s.getSuspendCount = some s.suspendCount := if_pos valid

theorem taskSuspend_of_valid (valid : s.taskIsValid = true) :
    s.taskSuspend = some { s with suspendCount := s.suspendCount + 1 } := if_pos valid

theorem taskResume_some (resumed : s.taskResume = some s') :
    s.suspendCount ≠ 0 ∧ s' = { s with suspendCount := s.suspendCount - 1 } := by
  rw [taskResume, Option.ite_none_right_eq_some] at resumed
  exact ⟨resumed.1.2, (Option.some.inj resumed.2).symm⟩

/-- On a valid task a suspension counts up and stops the measuring only from a count of one. -/
theorem suspend_spec (now : Reading) (valid : s.taskIsValid = true) :
    ∃ s', s.suspend now = some s' ∧ s'.taskIsValid = true ∧
      s'.suspendCount = s.suspendCount + 1 ∧
      s'.mMeasuringStats = (s.mMeasuringStats && !(s.mSingleStepping && s.suspendCount == 1)) := by
  rw [suspend, if_pos valid, getSuspendCount_of_valid valid, taskSuspend_of_valid valid]
  cases stops : s.mSingleStepping && s.suspendCount == 1 with
  | true =>
    refine ⟨_, if_pos stops, ?_⟩
    simp [valid]
  | false =>
    refine ⟨_, if_neg (ne_true_of_eq_false stops), ?_⟩
    simp [valid]

/-- On a valid task a resumption counts down and starts the measuring from a count of one. -/
theorem resume_spec {now : Reading} (valid : s.taskIsValid = true)
    (resumed : s.resume now = some s') :
    s'.taskIsValid = true ∧ s.suspendCount = s'.suspendCount + 1 ∧
      s'.mMeasuringStats = (s.mMeasuringStats || s.mSingleStepping && s.suspendCount == 1) := by
  rw [resume, if_pos valid, getSuspendCount_of_valid valid] at resumed
  cases starts : s.mSingleStepping && s.suspendCount == 1 with
  | true =>
    obtain ⟨held, rfl⟩ := taskResume_some ((if_pos starts).symm.trans resumed)
    rw [suspendCount_start] at held
    simp [valid]
    omega
  | false =>
    obtain ⟨held, rfl⟩ := taskResume_some ((if_neg (ne_true_of_eq_false starts)).symm.trans resumed)
    simp [valid]
    omega

theorem reset_of_valid (valid : s.taskIsValid = true) : s.reset = some s := by
  rw [reset, taskSuspend_of_valid valid]
  exact if_pos ⟨valid, Nat.succ_ne_zero _⟩

theorem resetAll_of_valid (valid : s.taskIsValid = true) : s.resetAll = some s := by
  simp [resetAll, reset_of_valid valid]

/-- What an operation leaves that resumes as often as it suspends: the count, and the measuring but
for one that it may start of a running task. -/
structure Undisturbed (s s' : XNUTracer) : Prop where
  taskIsValid : s'.taskIsValid = true
  suspendCount : s'.suspendCount = s.suspendCount
  measuring : s'.mMeasuringStats = true → s.mMeasuringStats = true ∨ s.suspendCount = 0

theorem Undisturbed.start (undisturbed : Undisturbed s s') (now : Reading)
    (running : s'.suspendCount = 0) : Undisturbed s (s'.startMeasuringStats now) where
  taskIsValid := (taskIsValid_start now s').trans undisturbed.taskIsValid
  suspendCount := (suspendCount_start now s').trans undisturbed.suspendCount
  measuring _ := .inr (undisturbed.suspendCount.symm.trans running)

theorem Undisturbed.stop (undisturbed : Undisturbed s s') (now : Reading) :
    Undisturbed s (s'.stopMeasuringStats now) where
  taskIsValid := (taskIsValid_stop now s').trans undisturbed.taskIsValid
  suspendCount := (suspendCount_stop now s').trans undisturbed.suspendCount
  measuring on := absurd on (ne_true_of_eq_false (mMeasuringStats_stop now s'))

theorem Undisturbed.excludes (undisturbed : Undisturbed s s') (before : ExcludesSuspended s) :
    ExcludesSuspended s' := .of_measuring fun on =>
  undisturbed.suspendCount.trans ((undisturbed.measuring on).elim before.measuring id)

theorem setSingleStep_spec {now : Readings} {doSingleStep : Bool} (valid : s.taskIsValid = true)
    (done : s.setSingleStep now doSingleStep = some s') : Undisturbed s s' := by
  obtain ⟨held, suspended, validHeld, countHeld, measuringHeld⟩ :=
    suspend_spec now.atSuspend valid
  have work : (if doSingleStep then held.resetAll else some held) = some held := by
    rw [resetAll_of_valid validHeld, ite_self]
  obtain ⟨_, first, done⟩ := Option.bind_eq_some_iff.mp done
  cases suspended.symm.trans first
  obtain ⟨_, worked, done⟩ := Option.bind_eq_some_iff.mp done
  cases work.symm.trans worked
  obtain ⟨freed, resumed, last⟩ := Option.bind_eq_some_iff.mp done
  obtain ⟨validFreed, countFreed, measuringFreed⟩ := resume_spec validHeld resumed
  cases last
  refine ⟨validFreed, Nat.succ_injective (countFreed.symm.trans countHeld), fun on => ?_⟩
  rw [measuringFreed, measuringHeld, countHeld] at on
  simp only [Bool.or_eq_true, Bool.and_eq_true, beq_iff_eq] at on
  rcases on with before | started
  · exact .inl before.1
  · exact .inr (by omega)

theorem handlePipe_spec {now : Readings} {rbuf : Uint8} (valid : s.taskIsValid = true)
    (done : s.handlePipe now rbuf = some s') : Undisturbed s s' := by
  rw [handlePipe] at done
  split at done
  · obtain ⟨stepped, set, done⟩ := Option.bind_eq_some_iff.mp done
    have undisturbed := setSingleStep_spec valid set
    rw [getSuspendCount_of_valid undisturbed.taskIsValid] at done
    cases starts : stepped.suspendCount == 0 && !stepped.mMeasuringStats with
    | true =>
      cases (if_pos starts).symm.trans done
      rw [Bool.and_eq_true, beq_iff_eq] at starts
      exact undisturbed.start now.atPipe starts.1
    | false =>
      cases (if_neg (ne_true_of_eq_false starts)).symm.trans done
      exact undisturbed
  · split at done
    · obtain ⟨stepped, set, done⟩ := Option.bind_eq_some_iff.mp done
      have undisturbed := setSingleStep_spec valid set
      rw [getSuspendCount_of_valid undisturbed.taskIsValid] at done
      cases stops : stepped.suspendCount == 0 && stepped.mMeasuringStats with
      | true =>
        cases (if_pos stops).symm.trans done
        exact undisturbed.stop now.atPipe
      | false =>
        cases (if_neg (ne_true_of_eq_false stops)).symm.trans done
        exact undisturbed
    · cases done

theorem step_valid {op : Op × Readings} (valid : s.taskIsValid = true) (took : s.step op = some s') :
    s'.taskIsValid = true := by
  obtain ⟨op, now⟩ := op
  cases op with
  | suspend =>
    obtain ⟨_, suspended, validHeld, -⟩ := suspend_spec now.atSuspend valid
    cases suspended.symm.trans took
    exact validHeld
  | resume => exact (resume_spec valid took).1
  | setSingleStep doSingleStep => exact (setSingleStep_spec valid took).taskIsValid
  | pipe rbuf => exact (handlePipe_spec valid took).taskIsValid

/-- Only `suspend` can leave a suspended target measured. -/
theorem step_excludes {op : Op × Readings} (valid : s.taskIsValid = true)
    (before : ExcludesSuspended s) (quiet : NotMeasured s op) (took : s.step op = some s') :
    ExcludesSuspended s' := by
  obtain ⟨op, now⟩ := op
  cases op with
  | suspend =>
    obtain ⟨_, suspended, -, -, measuring⟩ := suspend_spec now.atSuspend valid
    cases suspended.symm.trans took
    refine .of_measuring fun on => ?_
    rw [measuring, quiet rfl] at on
    cases on
  | resume =>
    obtain ⟨-, count, measuring⟩ := resume_spec valid took
    refine .of_measuring fun on => ?_
    rw [measuring, Bool.or_eq_true, Bool.and_eq_true, beq_iff_eq] at on
    rcases on with earlier | ⟨-, one⟩
    · exact absurd (before.measuring earlier) (count ▸ Nat.succ_ne_zero _)
    · exact Nat.succ_injective (count.symm.trans one)
  | setSingleStep doSingleStep => exact (setSingleStep_spec valid took).excludes before
  | pipe rbuf => exact (handlePipe_spec valid took).excludes before

/-- A target that is measured runs, so its suspension counts from zero and is not noticed. -/
theorem suspend_breaks (now : Readings) (valid : s.taskIsValid = true) (before : ExcludesSuspended s)
    (on : s.mMeasuringStats = true) :
    ∃ s', s.step (.suspend, now) = some s' ∧ ¬ ExcludesSuspended s' := by
  obtain ⟨held, suspended, -, count, measuring⟩ := suspend_spec now.atSuspend valid
  refine ⟨held, suspended, fun after => ?_⟩
  have running := before.measuring on
  rw [on, running, Bool.true_and] at measuring
  have suspendedCount := after.measuring (measuring.trans (by simp))
  omega

theorem commonCtor_spec {pipeCtrl : Bool} {now : Readings} (valid : s.taskIsValid = true)
    (held : s.suspendCount ≠ 0) (off : s.mMeasuringStats = false)
    (done : s.commonCtor pipeCtrl now = some s') :
    s'.taskIsValid = true ∧ s'.mMeasuringStats = false := by
  rw [commonCtor, resetAll_of_valid valid] at done
  cases pipeCtrl with
  | true =>
    cases done
    exact ⟨valid, off⟩
  | false =>
    have undisturbed := setSingleStep_spec valid done
    refine ⟨undisturbed.taskIsValid, Bool.eq_false_iff.mpr fun on => ?_⟩
    exact (undisturbed.measuring on).elim (ne_true_of_eq_false off) held

/-- The constructors measure nothing yet: the target is still suspended. -/
theorem constructed_spec (constructed : Constructed s) :
    s.taskIsValid = true ∧ ExcludesSuspended s := by
  have ready : s.taskIsValid = true ∧ s.mMeasuringStats = false := by
    cases constructed with
    | @attached count symbolicate suspendAt now attached =>
      obtain ⟨held, suspended, valid, counted, measuring⟩ :=
        suspend_spec (s := { suspendCount := count, symbolicate }) suspendAt rfl
      rw [attach, suspended] at attached
      exact commonCtor_spec valid (counted ▸ Nat.succ_ne_zero _) measuring attached
    | spawned spawned => exact commonCtor_spec rfl one_ne_zero rfl spawned
  exact ⟨ready.1, .of_measuring fun on => absurd on (ne_true_of_eq_false ready.2)⟩

/-- While the target is suspended nothing is measured, in the runs that never suspend it while
measuring. -/
theorem excludesSuspended_iff (constructed : Constructed s) (ops : List (Op × Readings)) :
    Always step ExcludesSuspended s ops ↔ Each step NotMeasured s ops := by
  obtain ⟨valid, start⟩ := constructed_spec constructed
  refine always_iff_each ops valid start (fun _ _ _ => step_valid) (fun _ _ _ => step_excludes)
    fun s op valid before loud => ?_
  obtain ⟨op, now⟩ := op
  obtain ⟨rfl, on⟩ := Classical.not_imp.mp loud
  exact suspend_breaks now valid before (Bool.ne_false_iff.mp on)

def noReading : Reading := ⟨0, 0, 0⟩

def noReadings : Readings := ⟨noReading, noReading, noReading⟩

/-- The tracer behind the constructor that attaches to a running task. -/
def attached : XNUTracer :=
  { symbolicate := false, suspendCount := 1, mSingleStepping := true }

theorem excludesSuspended_iff_attached :
    Constructed attached ∧ (Always step ExcludesSuspended attached
      [(.suspend, noReadings), (.resume, noReadings), (.resume, noReadings)] ↔
    Each step NotMeasured attached
      [(.suspend, noReadings), (.resume, noReadings), (.resume, noReadings)]) :=
  have constructed : Constructed attached :=
    .attached (show attach 0 false noReading noReadings = some attached by rfl)
  ⟨constructed, excludesSuspended_iff constructed _⟩

/-- A running target that is measured is suspended. -/
theorem not_excludesSuspended_attached : ∃ s, Constructed s ∧
    ¬ Always step ExcludesSuspended s [(.resume, noReadings), (.suspend, noReadings)] := by
  refine ⟨attached, .attached (show attach 0 false noReading noReadings = some attached by rfl), ?_⟩
  intro always
  have last := (always _ (List.prefix_refl _) { attached with mMeasuringStats := true } rfl).measuring
  exact absurd (last rfl) one_ne_zero

end XNUTracer

end XnuTrace
