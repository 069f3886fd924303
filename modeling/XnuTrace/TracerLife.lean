import XnuTrace.Tracer

/-! A tracer from its constructor to its destructor, with the exit of the target in between. The
destructor resumes the target a last time, so it ends only where a suspension is left for it or
where there is no target any more. -/
namespace XnuTrace
open Stepwise

inductive LifeAct
  | op (op : XNUTracer.Op × Readings)
  | exit

namespace LifeAct

def isSuspend : LifeAct → Bool
  | op (.suspend, _) => true
  | _ => false

def isResume : LifeAct → Bool
  | op (.resume, _) => true
  | _ => false

def suspends (acts : List LifeAct) : Nat := acts.countP isSuspend

def resumes (acts : List LifeAct) : Nat := acts.countP isResume

end LifeAct

namespace XNUTracer
open LifeAct

/-- `~XNUTracer`, without the message and the files of the log. -/
def destroy (now : Readings) (s : XNUTracer) : Option XNUTracer := do
  let s ← (if s.taskIsValid then s.setSingleStep now false else some s)
  (s.stopMeasuringStats now.atPipe).resume now.atResume

/-- Without a task only `suspend` and `resume` return; the others fail in `mach_check`. -/
def lifeStep (s : XNUTracer) : LifeAct → Option XNUTracer
  | .op now =>
    if s.taskIsValid then s.step now
    else
      match now.1 with
      | .suspend | .resume => some s
      | _ => none
  | .exit => some { s with taskIsValid := false }

variable {s s' s₀ : XNUTracer}

theorem taskResume_isSome_iff (valid : s.taskIsValid = true) :
    s.taskResume.isSome ↔ s.suspendCount ≠ 0 := by
  rw [taskResume]
  split
  · rename_i both
    exact iff_of_true rfl both.2
  · rename_i neither
    exact iff_of_false Bool.false_ne_true fun held => neither ⟨valid, held⟩

theorem resume_isSome_iff (now : Reading) (valid : s.taskIsValid = true) :
    (s.resume now).isSome ↔ s.suspendCount ≠ 0 := by
  have started := taskResume_isSome_iff ((taskIsValid_start now s).trans valid)
  rw [suspendCount_start] at started
  rw [resume, if_pos valid, getSuspendCount_of_valid valid, Option.bind_eq_bind, Option.bind_some]
  split
  · exact started
  · exact taskResume_isSome_iff valid

/-- On a valid task it always succeeds: its own suspension is left for its resumption. -/
theorem setSingleStep_isSome (now : Readings) (valid : s.taskIsValid = true) (doSingleStep : Bool) :
    (s.setSingleStep now doSingleStep).isSome := by
  obtain ⟨held, suspended, validHeld, count, -⟩ := suspend_spec now.atSuspend valid
  have work : (if doSingleStep then held.resetAll else some held) = some held := by
    rw [resetAll_of_valid validHeld, ite_self]
  have freed := (resume_isSome_iff now.atResume validHeld).mpr (count ▸ Nat.succ_ne_zero _)
  obtain ⟨after, resumed⟩ := Option.isSome_iff_exists.mp freed
  rw [setSingleStep, suspended]
  simp only [Option.bind_eq_bind, Option.bind_some, work, resumed, Option.isSome_some]

theorem setSingleStep_mode {now : Readings} {doSingleStep : Bool}
    (done : s.setSingleStep now doSingleStep = some s') : s'.mSingleStepping = doSingleStep := by
  obtain ⟨_, _, done⟩ := Option.bind_eq_some_iff.mp done
  obtain ⟨_, _, done⟩ := Option.bind_eq_some_iff.mp done
  obtain ⟨_, _, done⟩ := Option.bind_eq_some_iff.mp done
  cases done
  rfl

@[simp] theorem mSingleStepping_stop (now : Reading) (s : XNUTracer) :
    (s.stopMeasuringStats now).mSingleStepping = s.mSingleStepping := by
  rw [stopMeasuringStats]
  split <;> rfl

/-- The last resumption needs a suspension that nobody has taken back. -/
theorem destroy_spec (now : Readings) (s : XNUTracer) :
    ((s.destroy now).isSome ↔ s.taskIsValid = false ∨ s.suspendCount ≠ 0) ∧
      ∀ s', s.destroy now = some s' → s'.mMeasuringStats = false ∧
        (s.taskIsValid = true → s.suspendCount = s'.suspendCount + 1) := by
  cases valid : s.taskIsValid with
  | false =>
    have stays : ∀ s' : XNUTracer, s'.taskIsValid = false → s'.resume now.atResume = some s' :=
      fun s' gone => if_neg (ne_true_of_eq_false gone)
    have gone := (taskIsValid_stop now.atPipe s).trans valid
    have freed := stays (s.stopMeasuringStats now.atPipe) gone
    have all : s.destroy now = some (s.stopMeasuringStats now.atPipe) := by
      rw [destroy, if_neg (ne_true_of_eq_false valid)]
      exact freed
    rw [all]
    refine ⟨iff_of_true rfl (.inl rfl), fun s' same => ?_⟩
    cases same
    exact ⟨mMeasuringStats_stop .., nofun⟩
  | true =>
    obtain ⟨set, done⟩ := Option.isSome_iff_exists.mp (setSingleStep_isSome now valid false)
    have undisturbed := setSingleStep_spec valid done
    have validStop := (taskIsValid_stop now.atPipe set).trans undisturbed.taskIsValid
    have count := (suspendCount_stop now.atPipe set).trans undisturbed.suspendCount
    have all : s.destroy now = (set.stopMeasuringStats now.atPipe).resume now.atResume := by
      rw [destroy, if_pos valid, done]
      rfl
    rw [all]
    refine ⟨?_, fun s' freed => ?_⟩
    · rw [resume_isSome_iff now.atResume validStop, count]
      simp
    · obtain ⟨-, counted, measuring⟩ := resume_spec validStop freed
      have mode := setSingleStep_mode done
      refine ⟨?_, fun _ => count.symm.trans counted⟩
      rw [measuring, mMeasuringStats_stop, mSingleStepping_stop, mode]
      rfl

/-- The count of the suspensions after the steps `acts`, as long as there is a task. -/
structure Balanced (s₀ : XNUTracer) (acts : List LifeAct) (s : XNUTracer) : Prop where
  taskIsValid : s.taskIsValid = true ↔ .exit ∉ acts
  count : s.taskIsValid = true → s.suspendCount + resumes acts = s₀.suspendCount + suspends acts

theorem Balanced.step {acts : List LifeAct} {act : LifeAct} (balanced : Balanced s₀ acts s)
    (took : s.lifeStep act = some s') : Balanced s₀ (acts ++ [act]) s' := by
  have suspends : suspends (acts ++ [act]) = suspends acts + suspends [act] :=
    List.countP_append
  have resumes : resumes (acts ++ [act]) = resumes acts + resumes [act] := List.countP_append
  cases act with
  | exit =>
    cases took
    exact ⟨iff_of_false Bool.false_ne_true fun alive =>
      alive (List.mem_append_right _ List.mem_cons_self), nofun⟩
  | op op =>
    have kept : .exit ∉ acts ++ [LifeAct.op op] ↔ .exit ∉ acts := by simp
    cases valid : s.taskIsValid with
    | false =>
      have same : s' = s := by
        rw [lifeStep, if_neg (ne_true_of_eq_false valid)] at took
        split at took <;> cases took <;> rfl
      subst same
      refine ⟨balanced.taskIsValid.trans kept.symm, fun alive => ?_⟩
      rw [valid] at alive
      cases alive
    | true =>
      have stepped : s.step op = some s' := (if_pos valid).symm.trans took
      have validAfter := step_valid valid stepped
      refine ⟨iff_of_true validAfter (kept.mpr (balanced.taskIsValid.mp valid)), fun _ => ?_⟩
      have count := balanced.count valid
      rw [suspends, resumes]
      obtain ⟨op, now⟩ := op
      cases op with
      | suspend =>
        obtain ⟨_, suspended, -, counted, -⟩ := suspend_spec now.atSuspend valid
        cases suspended.symm.trans stepped
        have one : LifeAct.suspends [.op (.suspend, now)] = 1 := rfl
        have none : LifeAct.resumes [.op (.suspend, now)] = 0 := rfl
        omega
      | resume =>
        obtain ⟨-, counted, -⟩ := resume_spec valid stepped
        have none : LifeAct.suspends [.op (.resume, now)] = 0 := rfl
        have one : LifeAct.resumes [.op (.resume, now)] = 1 := rfl
        omega
      | setSingleStep doSingleStep =>
        have counted := (setSingleStep_spec valid stepped).suspendCount
        exact counted ▸ count
      | pipe rbuf =>
        have counted := (handlePipe_spec valid stepped).suspendCount
        exact counted ▸ count

theorem balanced_run (valid : s₀.taskIsValid = true) {acts : List LifeAct}
    (ran : run lifeStep s₀ acts = some s) : Balanced s₀ acts s := by
  induction acts using List.reverseRecOn generalizing s with
  | nil =>
    cases ran
    exact ⟨iff_of_true valid List.not_mem_nil, fun _ => rfl⟩
  | append_singleton acts act ih =>
    obtain ⟨mid, before, last⟩ := run_concat_some ran
    exact (ih before).step last

/-- The destructor ends exactly if the target has exited or has been suspended more often than
resumed; it leaves one suspension less and does not measure any more. -/
theorem destroy_iff (constructed : Constructed s₀) {acts : List LifeAct}
    (ran : run lifeStep s₀ acts = some s) (now : Readings) :
    ((s.destroy now).isSome ↔
      .exit ∈ acts ∨ resumes acts < s₀.suspendCount + suspends acts) ∧
    ∀ s', s.destroy now = some s' → s'.mMeasuringStats = false ∧
      (.exit ∉ acts →
        s'.suspendCount + 1 + resumes acts = s₀.suspendCount + suspends acts) := by
  have balanced := balanced_run (constructed_spec constructed).1 ran
  obtain ⟨ends, leaves⟩ := destroy_spec now s
  constructor
  · rw [ends]
    cases valid : s.taskIsValid with
    | false =>
      have gone : ¬ LifeAct.exit ∉ acts := fun alive =>
        ne_true_of_eq_false valid (balanced.taskIsValid.mpr alive)
      exact iff_of_true (.inl rfl) (.inl (not_not.mp gone))
    | true =>
      have alive := balanced.taskIsValid.mp valid
      have count := balanced.count valid
      constructor
      · rintro (gone | held)
        · cases gone
        · exact .inr (by omega)
      · rintro (exited | more)
        · exact absurd exited alive
        · exact .inr (by omega)
  · intro s' done
    obtain ⟨measuring, count⟩ := leaves s' done
    refine ⟨measuring, fun alive => ?_⟩
    have valid := balanced.taskIsValid.mpr alive
    have before := balanced.count valid
    have after := count valid
    omega

/-- The tracer behind the constructor that spawns the task. -/
def spawned : XNUTracer := { symbolicate := false, suspendCount := 1, mSingleStepping := true }

/-- The target runs and exits; it runs on, and nothing is left for the destructor to resume; or it
is suspended again, and the destructor lets it run. -/
theorem destroy_iff_lives :
    let exited : List LifeAct := [.op (.resume, noReadings), .exit]
    let freed : List LifeAct := [.op (.resume, noReadings)]
    let held : List LifeAct := [.op (.resume, noReadings), .op (.suspend, noReadings)]
    (∃ s, run lifeStep spawned exited = some s ∧ (s.destroy noReadings).isSome) ∧
      (∃ s, run lifeStep spawned freed = some s ∧ ¬(s.destroy noReadings).isSome) ∧
      ∃ s s', run lifeStep spawned held = some s ∧ s.destroy noReadings = some s' ∧
        s'.mMeasuringStats = false ∧ s'.suspendCount = 0 := by
  intro exited freed held
  have constructed : Constructed spawned :=
    .spawned (show spawn false false noReadings = some spawned from rfl)
  refine ⟨⟨_, rfl, ?_⟩, ⟨_, rfl, ?_⟩, ?_⟩
  · exact (destroy_iff constructed (show run lifeStep spawned exited = some _ from rfl) noReadings).1.mpr (.inl (by simp [exited]))
  · refine (destroy_iff constructed (show run lifeStep spawned freed = some _ from rfl) noReadings).1.not.mpr ?_
    exact not_or.mpr ⟨by simp [freed], show ¬ 1 < 1 + 0 by decide⟩
  · obtain ⟨ends, leaves⟩ := destroy_iff constructed (show run lifeStep spawned held = some _ from rfl) noReadings
    obtain ⟨s', done⟩ := Option.isSome_iff_exists.mp (ends.mpr (.inr (show 1 < 1 + 1 by decide)))
    obtain ⟨measuring, count⟩ := leaves s' done
    have count : s'.suspendCount + 1 + 1 = 1 + 1 := count (by simp [held])
    exact ⟨_, s', rfl, done, measuring, by omega⟩

end XNUTracer

end XnuTrace
