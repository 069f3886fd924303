import XnuTrace.Tracer
import Mathlib.Data.Fintype.Card
import Mathlib.Data.Finset.Card

/-! Control of the trace through the two pipes: `pipe_set_single_step` in the threads of the target,
the handler of the pipe source, the blocks that it dispatches to the serial queue, and the
confirmations. The steps of the threads and of the tracer come in any order. -/
namespace XnuTrace
open Stepwise XNUTracer

/-- `'y'` and `'n'`. -/
def pipeByte (doSs : Bool) : Uint8 := if doSs then 0x79 else 0x6e

theorem pipeByte_injective : Function.Injective pipeByte := by decide

/-- `'c'`. -/
def pipeConfirm : Uint8 := 0x63

/-- What the runner does with `--spawn` and `--pipe` before `dispatch_main`. -/
def XNUTracer.spawnPiped (symbolicate : Bool) (now now' : Readings) (resumeAt : Reading) :
    Option XNUTracer := do
  let s ← spawn true symbolicate now
  let s ← s.setSingleStep now' false
  s.resume resumeAt

/-- A caller waits with the `do_ss` that it has written; the queue has the blocks to run. -/
structure PipeControl (T : Type) where
  tracer : XNUTracer
  waits : T → Option Bool
  target2tracer : List Uint8
  queue : List Bool
  tracer2target : List Uint8

inductive PipeAct (T : Type)
  | request (t : T) (doSs : Bool)
  | source
  | block (now : Readings)
  | confirm (t : T)

namespace PipeAct
variable {T : Type}

def requested : PipeAct T → List Bool
  | request _ doSs => [doSs]
  | _ => []

def readings : PipeAct T → List Readings
  | block now => [now]
  | _ => []

end PipeAct

namespace PipeControl

section
variable {T : Type}

def start (tracer : XNUTracer) : PipeControl T where
  tracer
  waits _ := none
  target2tracer := []
  queue := []
  tracer2target := []

/-- The requests of a run, in the order in which they were written. -/
def requests (acts : List (PipeAct T)) : List Bool := acts.flatMap PipeAct.requested

/-- The readings of the blocks that have run. -/
def blocks (acts : List (PipeAct T)) : List Readings := acts.flatMap PipeAct.readings

/-- The requests that have been served, each with the reading when it was. -/
def served (acts : List (PipeAct T)) : List (Bool × Reading) :=
  (requests acts).zip ((blocks acts).map Readings.atPipe)

variable [DecidableEq T]

def request (s : PipeControl T) (t : T) (doSs : Bool) : Option (PipeControl T) :=
  if s.waits t = none then
    some { s with
      waits := Function.update s.waits t (some doSs)
      target2tracer := s.target2tracer ++ [pipeByte doSs] }
  else none

/-- The event handler of the source; another byte fails its assertion. -/
def sourceStep (s : PipeControl T) : Option (PipeControl T) :=
  match s.target2tracer with
  | [] => none
  | rbuf :: rest =>
    if rbuf = 0x79 then some { s with target2tracer := rest, queue := s.queue ++ [true] }
    else if rbuf = 0x6e then some { s with target2tracer := rest, queue := s.queue ++ [false] }
    else none

def blockStep (now : Readings) (s : PipeControl T) : Option (PipeControl T) :=
  match s.queue with
  | [] => none
  | doSs :: queue => do
    let tracer ← s.tracer.handlePipe now (pipeByte doSs)
    some { s with tracer, queue, tracer2target := s.tracer2target ++ [pipeConfirm] }

/-- The second half of `pipe_set_single_step`. -/
def confirmStep (s : PipeControl T) (t : T) : Option (PipeControl T) :=
  match s.waits t, s.tracer2target with
  | some _, rbuf :: tracer2target =>
    if rbuf = pipeConfirm then
      some { s with waits := Function.update s.waits t none, tracer2target }
    else none
  | _, _ => none

def step (s : PipeControl T) : PipeAct T → Option (PipeControl T)
  | .request t doSs => s.request t doSs
  | .source => s.sourceStep
  | .block now => s.blockStep now
  | .confirm t => s.confirmStep t

end

end PipeControl

/-- What is measured: the times, and the context switches, between a request to step and the next
one to stop. -/
structure Stopwatch where
  since : Option Reading := none
  elapsed : Int := 0
  selfCsw : Uint64 := 0
  targetCsw : Uint64 := 0

def Stopwatch.press (w : Stopwatch) : Bool × Reading → Stopwatch
  | (true, now) => { w with since := some (w.since.getD now) }
  | (false, now) =>
    match w.since with
    | none => w
    | some start =>
      { since := none
        elapsed := w.elapsed + (now.time - start.time)
        selfCsw := w.selfCsw + (now.selfNumCsw - start.selfNumCsw).signExtend 64
        targetCsw := w.targetCsw + (now.targetNumCsw - start.targetNumCsw).signExtend 64 }

def Stopwatch.run (presses : List (Bool × Reading)) : Stopwatch := presses.foldl press {}

namespace XNUTracer
variable {s : XNUTracer}

/-- A running task that is measured exactly while it is stepped. -/
structure Follows (w : Stopwatch) (s : XNUTracer) : Prop where
  taskIsValid : s.taskIsValid = true
  running : s.suspendCount = 0
  measuring : s.mMeasuringStats = w.since.isSome
  stepping : s.mSingleStepping = w.since.isSome
  start : ∀ start, w.since = some start → s.mStart = start
  totals : s.totals = (w.elapsed, w.selfCsw, w.targetCsw)

theorem follows_spawnPiped (symbolicate : Bool) (now now' : Readings) (resumeAt : Reading) :
    ∃ s, spawnPiped symbolicate now now' resumeAt = some s ∧ Follows {} s := by
  refine ⟨{ suspendCount := 0, symbolicate }, ?_, rfl, rfl, rfl, rfl, nofun, rfl⟩
  cases symbolicate <;> rfl

/-- A block of the pipe on a running task: its `suspend` and its `resume` are not noticed. -/
theorem handlePipe_running (now : Readings) (valid : s.taskIsValid = true)
    (running : s.suspendCount = 0) (same : s.mMeasuringStats = s.mSingleStepping) (doSs : Bool) :
    s.handlePipe now (pipeByte doSs) = some (if doSs then
        startMeasuringStats now.atPipe { s with mSingleStepping := true }
      else stopMeasuringStats now.atPipe { s with mSingleStepping := false }) := by
  obtain ⟨taskIsValid, suspendCount, symbolicate, stepping, measuring, _, _, _, _⟩ := s
  obtain rfl : taskIsValid = true := valid
  obtain rfl : suspendCount = 0 := running
  obtain rfl : measuring = stepping := same
  cases doSs <;> cases symbolicate <;> cases measuring <;> rfl

theorem Follows.press {w : Stopwatch} (follows : Follows w s) (now : Readings) (doSs : Bool) :
    ∃ s', s.handlePipe now (pipeByte doSs) = some s' ∧ Follows (w.press (doSs, now.atPipe)) s' := by
  obtain ⟨valid, running, measuring, stepping, start, totals⟩ := follows
  refine ⟨_, handlePipe_running now valid running (measuring.trans stepping.symm) doSs, ?_⟩
  obtain ⟨taskIsValid, suspendCount, symbolicate, mSingleStepping, mMeasuringStats, time, self,
    target, mStart⟩ := s
  obtain rfl : taskIsValid = true := valid
  obtain rfl : suspendCount = 0 := running
  obtain ⟨since, elapsed, selfCsw, targetCsw⟩ := w
  obtain ⟨rfl, rfl, rfl⟩ : time = elapsed ∧ self = selfCsw ∧ target = targetCsw := by
    simpa [XNUTracer.totals] using totals
  cases since with
  | none =>
    obtain rfl : mMeasuringStats = false := measuring
    cases doSs with
    | true => exact ⟨rfl, rfl, rfl, rfl, fun _ same => Option.some.inj same, rfl⟩
    | false => exact ⟨rfl, rfl, rfl, rfl, nofun, rfl⟩
  | some since =>
    obtain rfl : mMeasuringStats = true := measuring
    obtain rfl : mStart = since := start since rfl
    cases doSs with
    | true => exact ⟨rfl, rfl, rfl, rfl, fun _ same => Option.some.inj same, rfl⟩
    | false => exact ⟨rfl, rfl, rfl, rfl, nofun, rfl⟩

end XNUTracer

theorem Stopwatch.run_concat (presses : List (Bool × Reading)) (press : Bool × Reading) :
    run (presses ++ [press]) = (run presses).press press := List.foldl_concat ..

theorem Stopwatch.since_press (w : Stopwatch) (doSs : Bool) (now : Reading) :
    (w.press (doSs, now)).since.isSome = doSs := by
  cases doSs with
  | true => rfl
  | false =>
    cases since : w.since with
    | none => simp [press, since]
    | some start => simp [press, since]

namespace PipeControl

section
variable {T : Type} {s s' : PipeControl T} {acts : List (PipeAct T)}

theorem requests_concat (acts : List (PipeAct T)) (act : PipeAct T) :
    requests (acts ++ [act]) = requests acts ++ act.requested := by
  rw [requests, List.flatMap_append, List.flatMap_singleton]
  rfl

theorem blocks_concat (acts : List (PipeAct T)) (act : PipeAct T) :
    blocks (acts ++ [act]) = blocks acts ++ act.readings := by
  rw [blocks, List.flatMap_append, List.flatMap_singleton]
  rfl

theorem zip_longer {A B : Type} {l : List A} {m : List B} (length : l.length = m.length)
    (more : List A) : (l ++ more).zip m = l.zip m := by
  have both := @List.zip_append _ _ l more m [] length
  rwa [List.append_nil, List.zip_nil_right, List.append_nil] at both

/-- The requests that have been served, and the others. -/
theorem requests_split (few : (blocks acts).length ≤ (requests acts).length) :
    ∃ front, requests acts = front ++ (requests acts).drop (blocks acts).length ∧
      front.length = ((blocks acts).map Readings.atPipe).length :=
  ⟨_, (List.take_append_drop (blocks acts).length _).symm, by simpa using few⟩

/-- Only a block serves a request. -/
theorem served_concat (few : (blocks acts).length ≤ (requests acts).length) (act : PipeAct T)
    (other : act.readings = []) : served (acts ++ [act]) = served acts := by
  obtain ⟨front, split, length⟩ := requests_split few
  rw [served, served, requests_concat, blocks_concat, other, List.append_nil, split,
    List.append_assoc, zip_longer length, zip_longer length]

/-- A block serves the oldest request that has not been served. -/
theorem served_block {doSs : Bool} {more : List Bool}
    (few : (blocks acts).length ≤ (requests acts).length)
    (next : (requests acts).drop (blocks acts).length = doSs :: more) (now : Readings) :
    served (acts ++ [.block now]) = served acts ++ [(doSs, now.atPipe)] := by
  obtain ⟨front, split, length⟩ := requests_split few
  rw [next] at split
  have own : requests (acts ++ [.block now]) = requests acts :=
    (requests_concat ..).trans (List.append_nil _)
  rw [served, served, own, split, zip_longer length, blocks_concat, List.map_append,
    List.zip_append length, PipeAct.readings, List.map_singleton, List.zip_cons_cons,
    List.zip_nil_right]

variable [Fintype T]

/-- The callers that have written and not read. -/
def waiting (s : PipeControl T) : Nat := (Finset.univ.filter fun t => (s.waits t).isSome).card

/-- What holds after the steps `acts`. -/
structure After (acts : List (PipeAct T)) (s : PipeControl T) : Prop where
  follows : s.tracer.Follows (Stopwatch.run (served acts))
  few : (blocks acts).length ≤ (requests acts).length
  order : s.queue.map pipeByte ++ s.target2tracer =
    ((requests acts).drop (blocks acts).length).map pipeByte
  confirms : ∀ rbuf ∈ s.tracer2target, rbuf = pipeConfirm
  waiting : s.waiting = s.target2tracer.length + s.queue.length + s.tracer2target.length

theorem after_start {tracer : XNUTracer} (follows : tracer.Follows {}) :
    After [] (start tracer : PipeControl T) where
  follows
  few := Nat.le_refl 0
  order := rfl
  confirms := nofun
  waiting := by simp [PipeControl.waiting, start]

theorem After.source (after : After acts s) (took : s.sourceStep = some s') :
    After (acts ++ [.source]) s' := by
  have same := served_concat after.few .source rfl
  have requests : requests (acts ++ [.source]) = requests acts :=
    (requests_concat ..).trans (List.append_nil _)
  have blocks : blocks (acts ++ [.source]) = blocks acts :=
    (blocks_concat ..).trans (List.append_nil _)
  rw [sourceStep] at took
  split at took
  · cases took
  · rename_i rbuf rest written
    have order := after.order
    have waiting := after.waiting
    rw [written] at order waiting
    have dispatched : ∀ doSs, rbuf = pipeByte doSs →
        After (acts ++ [.source]) { s with
          target2tracer := rest, queue := s.queue ++ [doSs] } := by
      rintro doSs rfl
      refine ⟨same ▸ after.follows, by rw [requests, blocks]; exact after.few, ?_,
        after.confirms, ?_⟩
      · rw [requests, blocks, ← order, List.map_append, List.append_assoc]
        rfl
      · refine waiting.trans ?_
        simp only [List.length_append, List.length_cons, List.length_nil]
        omega
    split_ifs at took with y n <;> cases took
    · exact dispatched true y
    · exact dispatched false n

theorem After.block {now : Readings} (after : After acts s) (took : s.blockStep now = some s') :
    After (acts ++ [.block now]) s' := by
  have requests : requests (acts ++ [.block now]) = requests acts :=
    (requests_concat ..).trans (List.append_nil _)
  rw [blockStep] at took
  split at took
  · cases took
  · rename_i doSs queue dispatched
    obtain ⟨tracer, handled, took⟩ := Option.bind_eq_some_iff.mp took
    cases took
    have order := after.order
    have waiting := after.waiting
    rw [dispatched] at order waiting
    -- the oldest request is the one of this block
    obtain ⟨doSs', more, next, byte, rest⟩ := List.map_eq_cons_iff.mp order.symm
    cases pipeByte_injective byte
    have one := served_block after.few next now
    obtain ⟨tracer', handled', follows⟩ := after.follows.press now doSs
    cases handled.symm.trans handled'
    have blocks : blocks (acts ++ [.block now]) = blocks acts ++ [now] := blocks_concat ..
    have few := congrArg List.length next
    rw [List.length_drop, List.length_cons] at few
    refine ⟨?_, ?_, ?_, ?_, ?_⟩
    · rw [one, Stopwatch.run_concat]
      exact follows
    · rw [requests, blocks, List.length_append, List.length_singleton]
      omega
    · rw [requests, blocks, List.length_append, List.length_singleton, ← List.drop_drop, next]
      exact rest.symm
    · intro b member
      rcases List.mem_append.mp member with old | new
      · exact after.confirms b old
      · exact List.mem_singleton.mp new
    · refine waiting.trans ?_
      simp only [List.length_append, List.length_cons, List.length_nil]
      omega

variable [DecidableEq T]

theorem waiting_request {t : T} {doSs : Bool} (idle : s.waits t = none) :
    (Finset.univ.filter fun t' => (Function.update s.waits t (some doSs) t').isSome).card =
      s.waiting + 1 := by
  have added : (Finset.univ.filter fun t' => (Function.update s.waits t (some doSs) t').isSome) =
      insert t (Finset.univ.filter fun t' => (s.waits t').isSome) := by
    ext t'
    by_cases own : t' = t <;> simp [Function.update_apply, own]
  rw [added, Finset.card_insert_of_notMem (by simp [idle]), PipeControl.waiting]

theorem waiting_confirm {t : T} {doSs : Bool} (waits : s.waits t = some doSs) :
    (Finset.univ.filter fun t' => (Function.update s.waits t none t').isSome).card + 1 =
      s.waiting := by
  have removed : (Finset.univ.filter fun t' => (Function.update s.waits t none t').isSome) =
      (Finset.univ.filter fun t' => (s.waits t').isSome).erase t := by
    ext t'
    by_cases own : t' = t <;> simp [Function.update_apply, own]
  rw [removed, Finset.card_erase_add_one (by simp [waits]), PipeControl.waiting]

theorem After.request {t : T} {doSs : Bool} (after : After acts s)
    (took : s.request t doSs = some s') : After (acts ++ [.request t doSs]) s' := by
  rw [PipeControl.request, Option.ite_none_right_eq_some] at took
  obtain ⟨idle, took⟩ := took
  cases took
  have same := served_concat after.few (.request t doSs) rfl
  have blocks : blocks (acts ++ [.request t doSs]) = blocks acts :=
    (blocks_concat ..).trans (List.append_nil _)
  have few := after.few
  refine ⟨same ▸ after.follows, ?_, ?_, after.confirms, ?_⟩
  · rw [blocks, requests_concat, List.length_append]
    omega
  · rw [blocks, requests_concat, List.drop_append_of_le_length few, List.map_append, ← after.order,
      List.append_assoc]
    rfl
  · refine (waiting_request idle).trans ?_
    simp only [after.waiting, List.length_append, List.length_singleton]
    omega

theorem After.confirm {t : T} (after : After acts s) (took : s.confirmStep t = some s') :
    After (acts ++ [.confirm t]) s' := by
  have same := served_concat after.few (.confirm t) rfl
  have requests : requests (acts ++ [.confirm t]) = requests acts :=
    (requests_concat ..).trans (List.append_nil _)
  have blocks : blocks (acts ++ [.confirm t]) = blocks acts :=
    (blocks_concat ..).trans (List.append_nil _)
  rw [confirmStep] at took
  split at took
  · rename_i doSs rbuf rest waits written
    rw [Option.ite_none_right_eq_some] at took
    cases took.2
    have waiting := after.waiting
    have confirms := after.confirms
    rw [written] at waiting confirms
    refine ⟨same ▸ after.follows, by rw [requests, blocks]; exact after.few,
      by rw [requests, blocks]; exact after.order, fun b later => confirms b (.tail _ later), ?_⟩
    have fewer := waiting_confirm (s := s) waits
    rw [waiting, List.length_cons] at fewer
    exact Nat.succ_injective fewer
  · cases took

theorem After.step {act : PipeAct T} (after : After acts s) (took : s.step act = some s') :
    After (acts ++ [act]) s' := by
  cases act with
  | request t doSs => exact after.request took
  | source => exact after.source took
  | block now => exact after.block took
  | confirm t => exact after.confirm took

theorem after_run {tracer : XNUTracer} (follows : tracer.Follows {})
    (ran : run step (start tracer) acts = some s) : After acts s := by
  induction acts using List.reverseRecOn generalizing s with
  | nil =>
    cases ran
    exact after_start follows
  | append_singleton acts act ih =>
    obtain ⟨mid, before, last⟩ := run_concat_some ran
    exact (ih before).step last

theorem After.mode_block {doSs : Bool} {queue : List Bool} {now : Readings} (after : After acts s)
    (queued : s.queue = doSs :: queue) (took : s.step (.block now) = some s') :
    s'.tracer.mSingleStepping = doSs := by
  rw [PipeControl.step, blockStep, queued] at took
  obtain ⟨tracer, handled, took⟩ := Option.bind_eq_some_iff.mp took
  cases took
  obtain ⟨tracer', handled', follows⟩ := after.follows.press now doSs
  cases handled.symm.trans handled'
  exact follows.stepping.trans (Stopwatch.since_press ..)

/-- The requests come to the tracer once each and in their order, each is confirmed once, and no
assertion about a byte fails. While a caller waits one of the three steps can be taken. -/
structure Delivers (acts : List (PipeAct T)) (s : PipeControl T) : Prop where
  order : s.queue.map pipeByte ++ s.target2tracer =
    ((requests acts).drop (blocks acts).length).map pipeByte
  confirmed : s.waiting = s.target2tracer.length + s.queue.length + s.tracer2target.length
  source : s.target2tracer ≠ [] → (s.step .source).isSome
  block : s.queue ≠ [] → ∀ now, (s.step (.block now)).isSome
  confirm : s.tracer2target ≠ [] → ∀ t, (s.waits t).isSome → (s.step (.confirm t)).isSome

end

section
variable {T : Type} [DecidableEq T] {symbolicate : Bool} {now now' : Readings}
  {resumeAt : Reading} {tracer : XNUTracer} {acts : List (PipeAct T)} {s s' : PipeControl T}

/-- A request is made while no caller waits. -/
def Alone (s : PipeControl T) (act : PipeAct T) : Prop :=
  ∀ t doSs, act = .request t doSs → ∀ t', s.waits t' = none

theorem confirm_kept {t : T} (took : s.step (.confirm t) = some s') :
    s'.tracer = s.tracer ∧ s'.queue = s.queue ∧ s'.target2tracer = s.target2tracer := by
  rw [step, confirmStep] at took
  split at took
  · obtain ⟨-, took⟩ := Option.ite_none_right_eq_some.mp took
    cases took
    exact ⟨rfl, rfl, rfl⟩
  · cases took

theorem tracer_kept {act : PipeAct T} (other : ∀ now, act ≠ .block now)
    (took : s.step act = some s') : s'.tracer = s.tracer := by
  cases act with
  | request t doSs =>
    obtain ⟨-, took⟩ := Option.ite_none_right_eq_some.mp took
    cases took
    rfl
  | source =>
    rw [step, sourceStep] at took
    split at took
    · cases took
    · split_ifs at took <;>
      · cases took
        rfl
  | block now => exact absurd rfl (other now)
  | confirm t => exact (confirm_kept took).1

/-- Only a request makes a caller wait. -/
theorem step_waits {act : PipeAct T} (took : s.step act = some s') {t : T} {doSs : Bool}
    (waits : s'.waits t = some doSs) : s.waits t = some doSs ∨ act = .request t doSs := by
  cases act with
  | request t' doSs' =>
    obtain ⟨idle, took⟩ := Option.ite_none_right_eq_some.mp took
    cases took
    simp only [Function.update_apply] at waits
    split_ifs at waits with own
    · cases waits
      exact .inr (own ▸ rfl)
    · exact .inl waits
  | source =>
    rw [step, sourceStep] at took
    split at took
    · cases took
    · split_ifs at took <;>
      · cases took
        exact .inl waits
  | block now =>
    rw [step, blockStep] at took
    split at took
    · cases took
    · obtain ⟨tracer, -, took⟩ := Option.bind_eq_some_iff.mp took
      cases took
      exact .inl waits
  | confirm t' =>
    rw [step, confirmStep] at took
    split at took
    · obtain ⟨-, took⟩ := Option.ite_none_right_eq_some.mp took
      cases took
      simp only [Function.update_apply] at waits
      split_ifs at waits
      exact .inl waits
    · cases took

/-- Where no two calls overlap, the caller that waits is the one of the last request. -/
theorem waits_last (alone : Each step Alone (start tracer) acts)
    (ran : run step (start tracer) acts = some s) {t : T} {doSs : Bool}
    (waits : s.waits t = some doSs) :
    (requests acts).getLast? = some doSs ∧ ∀ t', (s.waits t').isSome → t' = t := by
  induction acts using List.reverseRecOn generalizing s t doSs with
  | nil =>
    cases ran
    cases waits
  | append_singleton acts act ih =>
    obtain ⟨mid, before, last⟩ := run_concat_some ran
    have still : ∀ {t doSs}, mid.waits t = some doSs →
        (requests acts).getLast? = some doSs ∧ ∀ t', (mid.waits t').isSome → t' = t :=
      fun waits => ih alone.earlier before waits
    have noOther := alone acts act (List.prefix_refl _) mid before
    cases act with
    | request t₁ doSs₁ =>
      have idle := noOther t₁ doSs₁ rfl
      have own : ∀ {t doSs}, s.waits t = some doSs → t = t₁ ∧ doSs = doSs₁ := by
        intro t doSs waits
        rcases step_waits last waits with earlier | same
        · rw [idle] at earlier
          cases earlier
        · cases same
          exact ⟨rfl, rfl⟩
      obtain ⟨rfl, rfl⟩ := own waits
      refine ⟨by rw [requests_concat]; exact List.getLast?_concat, fun t' some => ?_⟩
      obtain ⟨_, waits'⟩ := Option.isSome_iff_exists.mp some
      exact (own waits').1
    | source | block now | confirm t₁ =>
      have kept : ∀ {t doSs}, s.waits t = some doSs → mid.waits t = some doSs := fun waits =>
        (step_waits last waits).resolve_right nofun
      obtain ⟨request, alone⟩ := still (kept waits)
      have same : requests acts ++ [] = requests acts := List.append_nil _
      refine ⟨(requests_concat ..).symm ▸ same.symm ▸ request, fun t' some => ?_⟩
      obtain ⟨_, waits'⟩ := Option.isSome_iff_exists.mp some
      exact alone t' (Option.isSome_iff_exists.mpr ⟨_, kept waits'⟩)

variable [Fintype T]

theorem after_spawnPiped
    (spawned : XNUTracer.spawnPiped symbolicate now now' resumeAt = some tracer)
    (ran : run step (start tracer) acts = some s) : After acts s := by
  obtain ⟨tracer', spawned', follows⟩ := XNUTracer.follows_spawnPiped symbolicate now now' resumeAt
  cases spawned.symm.trans spawned'
  exact after_run follows ran

/-- However the callers and the tracer take their steps. -/
theorem run_delivers
    (spawned : XNUTracer.spawnPiped symbolicate now now' resumeAt = some tracer)
    (ran : run step (start tracer) acts = some s) : Delivers acts s := by
  have after := after_spawnPiped spawned ran
  refine ⟨after.order, after.waiting, fun written => ?_, fun queued now => ?_,
    fun some t waits => ?_⟩
  · obtain ⟨rbuf, rest, bytes⟩ := List.exists_cons_of_ne_nil written
    have member : rbuf ∈ s.queue.map pipeByte ++ s.target2tracer :=
      List.mem_append_right _ (bytes ▸ List.mem_cons_self)
    rw [after.order] at member
    obtain ⟨doSs, -, rfl⟩ := List.mem_map.mp member
    rw [step, sourceStep, bytes]
    cases doSs <;> rfl
  · obtain ⟨doSs, rest, blocks⟩ := List.exists_cons_of_ne_nil queued
    obtain ⟨tracer', handled, -⟩ := after.follows.press now doSs
    simp only [step, blockStep, blocks, handled]
    rfl
  · obtain ⟨rbuf, rest, bytes⟩ := List.exists_cons_of_ne_nil some
    obtain ⟨doSs, waits⟩ := Option.isSome_iff_exists.mp waits
    have confirm := after.confirms rbuf (bytes ▸ List.mem_cons_self)
    simp only [step, confirmStep, waits, bytes, if_pos confirm]
    rfl

/-- The tracer measures as a stopwatch does that the served requests press. -/
theorem run_refines_stopwatch
    (spawned : XNUTracer.spawnPiped symbolicate now now' resumeAt = some tracer)
    (ran : run step (start tracer) acts = some s) :
    s.tracer.Follows (Stopwatch.run (served acts)) :=
  (after_spawnPiped spawned ran).follows

/-- Where no two calls overlap, the confirmation that is read is the last thing under way. -/
theorem idle_of_confirm
    (spawned : XNUTracer.spawnPiped symbolicate now now' resumeAt = some tracer)
    (alone : Each step Alone (start tracer) acts) (ran : run step (start tracer) acts = some s)
    {t : T} (took : s.step (.confirm t) = some s') :
    s.target2tracer = [] ∧ s.queue = [] := by
  have after := after_spawnPiped spawned ran
  rw [step, confirmStep] at took
  split at took
  · rename_i doSs rbuf rest waits written
    obtain ⟨-, only⟩ := waits_last alone ran waits
    have one : s.waiting ≤ 1 := by
      refine Finset.card_le_one.mpr fun t₁ member₁ t₂ member₂ => ?_
      rw [only t₁ (Finset.mem_filter.mp member₁).2, only t₂ (Finset.mem_filter.mp member₂).2]
    have lengths := after.waiting
    rw [written, List.length_cons] at lengths
    exact ⟨List.eq_nil_of_length_eq_zero (by omega), List.eq_nil_of_length_eq_zero (by omega)⟩
  · cases took

/-- Where no two calls overlap, a call that returns has set the mode. -/
theorem confirm_handshake
    (spawned : XNUTracer.spawnPiped symbolicate now now' resumeAt = some tracer)
    (alone : Each step Alone (start tracer) acts) (ran : run step (start tracer) acts = some s)
    {t : T} {doSs : Bool} (waits : s.waits t = some doSs) (took : s.step (.confirm t) = some s') :
    s'.tracer.mSingleStepping = doSs ∧ s'.tracer.mMeasuringStats = doSs := by
  have after := after_spawnPiped spawned ran
  obtain ⟨request, -⟩ := waits_last alone ran waits
  obtain ⟨written, dispatched⟩ := idle_of_confirm spawned alone ran took
  -- nothing is left to serve, so every request has been served
  have all : (requests acts).length = (blocks acts).length := by
    have order := congrArg List.length after.order
    rw [written, dispatched] at order
    simp only [List.map_nil, List.append_nil, List.length_nil, List.length_map,
      List.length_drop] at order
    have few := after.few
    omega
  have modes : (served acts).map Prod.fst = requests acts :=
    List.map_fst_zip (by rw [List.length_map, all])
  rw [← modes, List.getLast?_map] at request
  obtain ⟨⟨_, reading⟩, last, rfl⟩ := Option.map_eq_some_iff.mp request
  obtain ⟨front, split⟩ := List.getLast?_eq_some_iff.mp last
  have follows := after.follows
  rw [split, Stopwatch.run_concat] at follows
  rw [(confirm_kept took).1]
  exact ⟨follows.stepping.trans (Stopwatch.since_press ..),
    follows.measuring.trans (Stopwatch.since_press ..)⟩

end

/-- The tracer when its target begins to run. -/
def pipedTracer : XNUTracer := { suspendCount := 0, symbolicate := false }

theorem spawnPiped_eq : spawnPiped false noReadings noReadings noReading = some pipedTracer := rfl

/-- One caller asks to step, another one to stop, and the first one has been served. -/
def twoCallers : List (PipeAct Bool) :=
  [.request true true, .request false false, .source, .block noReadings]

theorem twoCallers_isSome : (run step (start pipedTracer) twoCallers).isSome := rfl

theorem run_delivers_two : ∃ s, run step (start pipedTracer) twoCallers = some s ∧
    Delivers twoCallers s := by
  obtain ⟨s, ran⟩ := Option.isSome_iff_exists.mp twoCallers_isSome
  exact ⟨s, ran, run_delivers spawnPiped_eq ran⟩

theorem run_refines_stopwatch_two : ∃ s, run step (start pipedTracer) twoCallers = some s ∧
    s.tracer.Follows (Stopwatch.run (served twoCallers)) := by
  obtain ⟨s, ran⟩ := Option.isSome_iff_exists.mp twoCallers_isSome
  exact ⟨s, ran, run_refines_stopwatch spawnPiped_eq ran⟩

/-- The call of the only thread, but for its last step. -/
def oneCall : List (PipeAct Unit) := [.request () true, .source, .block noReadings]

theorem oneCall_alone : Each step Alone (start pipedTracer) oneCall := by
  refine each_cons.mpr ⟨fun _ _ _ _ => rfl, fun s' _ => each_cons.mpr ⟨?_, fun s'' _ => ?_⟩⟩
  · rintro t doSs ⟨⟩
  · refine each_cons.mpr ⟨?_, fun _ _ => each_nil⟩
    rintro t doSs ⟨⟩

theorem confirm_handshake_one : ∃ s s', run step (start pipedTracer) oneCall = some s ∧
    s.step (.confirm ()) = some s' ∧
    s'.tracer.mSingleStepping = true ∧ s'.tracer.mMeasuringStats = true := by
  have facts : (run step (start pipedTracer) oneCall).map
      (fun s => (s.waits (), (s.step (.confirm ())).isSome)) = some (some true, true) := rfl
  obtain ⟨s, ran, here⟩ := Option.map_eq_some_iff.mp facts
  obtain ⟨waits, returns⟩ := Prod.mk.inj here
  obtain ⟨s', took⟩ := Option.isSome_iff_exists.mp returns
  exact ⟨s, s', ran, took, confirm_handshake spawnPiped_eq oneCall_alone ran waits took⟩

end PipeControl

end XnuTrace
