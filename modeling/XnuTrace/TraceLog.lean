import XnuTrace.ThreadCtx
import XnuTrace.MphMap
import XnuTrace.MetaRecords

/-! `TraceLog` while it records: one `thread_ctx` for each thread, in an `mph_map`. As long as the
map keeps its keys, the calls of other threads make no difference to a thread. For one thread alone
the map is no obstacle: the build for a single key always returns. -/
namespace XnuTrace
open Memory MphMap

/-- A `std::sort` of buckets. -/
abbrev BucketSort (w : Nat) :=
  { sortBuckets : List (Bucket w) → List (Bucket w) // SortsBySize sortBuckets }

def stableBucketSort : BucketSort w := ⟨_, MinimalPerfectHash.sortsBySize_stableSort⟩

/-- What a move leaves of a `thread_ctx`. -/
def ThreadCtx.movedFrom (tctx : ThreadCtx) : ThreadCtx :=
  { tctx with logBuf := [], logStream := none }

inductive LogFailure where
  | threads (e : MapFailure)
  | assertion
deriving DecidableEq

structure TraceLog where
  mNumInst : Uint64 := 0
  mCompressionLevel : Int
  mStream : Bool
  mThreadCtxs : MphMap 32 ThreadCtx := {}

namespace TraceLog
variable (hash : Hasher) (sortBuckets : BucketSort 32)

def openStream (log : TraceLog) (thread : Uint32) : Option CompressedFile :=
  if log.mStream then
    some (.create logThreadHdrMagic (logThreadHdr (thread.setWidth 64) 0) log.mCompressionLevel)
  else none

/-- The context of the thread, made for its first call; the reference is a position. -/
def threadCtx (log : TraceLog) (thread : Uint32) (call : LogCall) :
    Except LogFailure (MphMap 32 ThreadCtx × Nat) :=
  match log.mThreadCtxs.contains hash thread with
  | .error e => .error (.threads e)
  | .ok false =>
    match log.mThreadCtxs.tryEmplace hash sortBuckets.1 ThreadCtx.movedFrom thread
        { logStream := log.openStream thread } with
    | .error e => .error (.threads e)
    | .ok (_, _, false) => .error .assertion
    | .ok (threadCtxs, i, true) =>
      match threadCtxs.access i fun tctx => { tctx with lastCpuCtx := call.context } with
      | .error e => .error (.threads e)
      | .ok (threadCtxs, _) => .ok (threadCtxs, i)
  | .ok true =>
    match log.mThreadCtxs.subscript hash sortBuckets.1 ThreadCtx.movedFrom {} thread with
    | .error e => .error (.threads e)
    | .ok (threadCtxs, i) => .ok (threadCtxs, i)

/-- `log(thread, context, insn)` and `log(thread, pc)`. -/
def log (log : TraceLog) (thread : Uint32) (call : LogCall) : Except LogFailure TraceLog :=
  match log.threadCtx hash sortBuckets thread call with
  | .error e => .error e
  | .ok (threadCtxs, i) =>
    match threadCtxs.mKeyVals[i]? with
    | none => .error (.threads .outOfRange)
    | some kv =>
      match kv.2.write call with
      | none => .error .assertion
      | some tctx => .ok { log with
          mThreadCtxs := { threadCtxs with mKeyVals := threadCtxs.mKeyVals.set i (kv.1, tctx) }
          mNumInst := log.mNumInst + 1 }

def run (log : TraceLog) (thread : Uint32) (calls : List LogCall) : Except LogFailure TraceLog :=
  calls.foldlM (fun log call => log.log hash sortBuckets thread call) log

/-- Any interleaving of the two forms of `log`. -/
def runCalls (log : TraceLog) (calls : List (Uint32 × LogCall)) : Except LogFailure TraceLog :=
  calls.foldlM (fun log call => log.log hash sortBuckets call.1 call.2) log

/-! Any number of threads, whatever the map does. -/

/-- A property of a `thread_ctx` that moves and the set-up for a first call leave. -/
structure Carried (p : ThreadCtx → Prop) : Prop where
  moved : ∀ tctx, p tctx → p tctx.movedFrom
  empty : p {}
  opened : ∀ (log : TraceLog) thread, p { logStream := log.openStream thread }
  entered : ∀ tctx context, p tctx → p { tctx with lastCpuCtx := context }

section
variable {hash : Hasher} {sortBuckets : BucketSort 32} {log log' : TraceLog} {thread : Uint32}
  {call : LogCall}

theorem forall_threadCtx {p : ThreadCtx → Prop} (carried : Carried p)
    (all : ForallValues p log.mThreadCtxs) {threadCtxs : MphMap 32 ThreadCtx} {i : Nat}
    (found : log.threadCtx hash sortBuckets thread call = .ok (threadCtxs, i)) :
    ForallValues p threadCtxs := by
  rw [threadCtx] at found
  split at found
  · cases found
  · split at found
    · cases found
    · cases found
    split at found
    · cases found
    rename_i emplaced _ _ _ used
    cases found
    have made := all.tryEmplace carried.moved (carried.opened log thread) emplaced
    exact made.access (fun tctx => carried.entered tctx call.context) used
  · split at found
    · cases found
    rename_i reached
    cases found
    exact all.subscript carried.moved carried.empty reached

/-- A call that returns has found a `thread_ctx` and written to it. -/
theorem exists_of_log (logged : log.log hash sortBuckets thread call = .ok log') :
    ∃ (threadCtxs : MphMap 32 ThreadCtx) (i : Nat) (kv : Uint32 × ThreadCtx) (tctx : ThreadCtx),
      log.threadCtx hash sortBuckets thread call = .ok (threadCtxs, i) ∧
      threadCtxs.mKeyVals[i]? = some kv ∧ kv.2.write call = some tctx ∧
      log'.mThreadCtxs.mKeyVals = threadCtxs.mKeyVals.set i (kv.1, tctx) := by
  rw [TraceLog.log] at logged
  split at logged
  · cases logged
  rename_i threadCtxs i found
  split at logged
  · cases logged
  rename_i kv entry
  split at logged
  · cases logged
  rename_i tctx written
  cases logged
  exact ⟨threadCtxs, i, kv, tctx, found, entry, written, rfl⟩

end

/-! Any number of threads, as far as the map behaves. -/

section
variable {hash : Hasher} {sortBuckets : BucketSort 32} {log : TraceLog} {t : Table 32 ThreadCtx}

/-- The context that a call finds for its thread. -/
def entered (log : TraceLog) (t : Table 32 ThreadCtx) (thread : Uint32) (call : LogCall) :
    ThreadCtx :=
  (t thread).getD { logStream := log.openStream thread, lastCpuCtx := call.context }

theorem threadCtx_spec (rep : Represents hash log.mThreadCtxs t) (thread : Uint32) (call : LogCall)
    (well : Builds hash sortBuckets.1 (Swaps hash) log.mThreadCtxs thread) :
    (∃ m, log.threadCtx hash sortBuckets thread call = .ok (m, m.mMph.apply hash thread) ∧
      Represents hash m (t.store thread (entered log t thread call))) ∨
    ∃ e, log.threadCtx hash sortBuckets thread call = .error (.threads (.build e)) ∧
      Refuses hash sortBuckets.1 log.mThreadCtxs thread e := by
  unfold threadCtx
  rw [contains_eq rep]
  cases stored : t thread with
  | some tctx =>
    simp only [Option.isSome_some]
    rcases subscript_spec ThreadCtx.movedFrom {} rep well with ⟨m, reached, rep'⟩ | ⟨e, failed, refuses⟩
    · refine .inl ⟨m, by rw [reached], ?_⟩
      rwa [entered, stored, Option.getD_some, ← @Option.getD_some _ tctx {}, ← stored]
    · exact .inr ⟨e, by rw [failed], refuses⟩
  | none =>
    simp only [Option.isSome_none]
    rcases tryEmplace_spec ThreadCtx.movedFrom rep { logStream := log.openStream thread } well with
      ⟨m, emplaced, rep'⟩ | ⟨e, failed, refuses⟩
    · rw [stored] at emplaced rep'
      obtain ⟨m', used, same, rep''⟩ := access_spec rep' (Function.update_self ..)
        fun tctx => { tctx with lastCpuCtx := call.context }
      have twice : ∀ a b : ThreadCtx, (t.store thread a).store thread b = t.store thread b :=
        fun a b => Function.update_idem ..
      rw [twice] at rep''
      refine .inl ⟨m', ?_, ?_⟩
      · rw [emplaced]
        simp only [Option.isNone_none, used, same]
      · rwa [entered, stored]
    · exact .inr ⟨e, by rw [failed], refuses⟩

/-- One call writes to the context of its own thread and to no other. -/
theorem log_spec (rep : Represents hash log.mThreadCtxs t) {thread : Uint32} {call : LogCall}
    (well : Builds hash sortBuckets.1 (Swaps hash) log.mThreadCtxs thread) {tctx : ThreadCtx}
    (written : (entered log t thread call).write call = some tctx) :
    (∃ log', log.log hash sortBuckets thread call = .ok log' ∧
      Represents hash log'.mThreadCtxs (t.store thread tctx) ∧ log'.mStream = log.mStream ∧
      log'.mCompressionLevel = log.mCompressionLevel ∧ log'.mNumInst = log.mNumInst + 1) ∨
    ∃ e, log.log hash sortBuckets thread call = .error (.threads (.build e)) ∧
      Refuses hash sortBuckets.1 log.mThreadCtxs thread e := by
  rcases threadCtx_spec rep thread call well with ⟨m, found, rep'⟩ | ⟨e, failed, refuses⟩
  · have stored : t.store thread (entered log t thread call) thread = some _ :=
      Function.update_self ..
    have set := rep'.set stored tctx
    have twice : (t.store thread (entered log t thread call)).store thread tctx =
        t.store thread tctx := Function.update_idem ..
    rw [twice] at set
    refine .inl ⟨{ log with
      mThreadCtxs := { m with mKeyVals := m.mKeyVals.set (m.mMph.apply hash thread) (thread, tctx) }
      mNumInst := log.mNumInst + 1 }, ?_, set, rfl, rfl, rfl⟩
    rw [TraceLog.log, found]
    simp only [rep'.found stored, written]
  · exact .inr ⟨e, by rw [TraceLog.log, failed], refuses⟩

/-- A call that returns has written to the context of its own thread. -/
theorem exists_entered (rep : Represents hash log.mThreadCtxs t) {thread : Uint32} {call : LogCall}
    (well : Builds hash sortBuckets.1 (Swaps hash) log.mThreadCtxs thread) {log' : TraceLog}
    (logged : log.log hash sortBuckets thread call = .ok log') :
    ∃ tctx, (entered log t thread call).write call = some tctx ∧
      Represents hash log'.mThreadCtxs (t.store thread tctx) ∧ log'.mStream = log.mStream ∧
      log'.mCompressionLevel = log.mCompressionLevel := by
  cases written : (entered log t thread call).write call with
  | none =>
    rcases threadCtx_spec rep thread call well with ⟨m, found, rep'⟩ | ⟨e, failed, _⟩
    · have stored : t.store thread (entered log t thread call) thread = some _ :=
        Function.update_self ..
      simp only [TraceLog.log, found, rep'.found stored, written] at logged
      cases logged
    · simp only [TraceLog.log, failed] at logged
      cases logged
  | some tctx =>
    rcases log_spec rep well written with ⟨log'', logged', rep', mode, level, _⟩ | ⟨e, failed, _⟩
    · cases logged.symm.trans logged'
      exact ⟨tctx, rfl, rep', mode, level⟩
    · cases logged.symm.trans failed

/-- The calls of one thread among those of all. -/
def callsOf (calls : List (Uint32 × LogCall)) (thread : Uint32) : List LogCall :=
  (calls.filter fun call => call.1 = thread).map Prod.snd

theorem callsOf_concat (calls : List (Uint32 × LogCall)) (thread other : Uint32) (call : LogCall) :
    callsOf (calls ++ [(thread, call)]) other =
      callsOf calls other ++ if thread = other then [call] else [] := by
  by_cases same : thread = other <;> simp [callsOf, same]

variable (hash sortBuckets) in
/-- Where a call of the run builds a hash, it is one-to-one and the rebuild swaps pairs. -/
def MapKeeps (log : TraceLog) (calls : List (Uint32 × LogCall)) : Prop :=
  ∀ before call rest, calls = before ++ call :: rest →
    ∀ log', log.runCalls hash sortBuckets before = .ok log' →
      Builds hash sortBuckets.1 (Swaps hash) log'.mThreadCtxs call.1

theorem forall_split_iff {α : Type} {xs : List α} {p : List α → α → Prop} :
    (∀ before x rest, xs = before ++ x :: rest → p before x) ↔
      ∀ x ∈ xs.zipIdx, p (xs.take x.2) x.1 := by
  constructor
  · rintro split ⟨x, i⟩ member
    obtain ⟨inside, same⟩ := List.mem_zipIdx' member
    exact split _ x (xs.drop (i + 1)) (by simp [same])
  · rintro each before x rest rfl
    have here := each (x, before.length) (List.mem_zipIdx_iff_getElem?.mpr (by simp))
    rwa [List.take_left] at here

theorem toOption_eq_some {ε α : Type} {x : Except ε α} {a : α} :
    x.toOption = .some a ↔ x = .ok a := by
  cases x <;> simp [Except.toOption]

/-- A statement about what a computation that may fail returns. -/
def decidableForallOk {ε α : Type} (x : Except ε α) (p : α → Prop) [DecidablePred p] :
    Decidable (∀ a, x = .ok a → p a) :=
  match x with
  | .ok a => decidable_of_iff (p a) (by simp)
  | .error _ => isTrue nofun

instance (calls : List (Uint32 × LogCall)) : Decidable (MapKeeps hash sortBuckets log calls) :=
  have := fun call : (Uint32 × LogCall) × Nat =>
    decidableForallOk (log.runCalls hash sortBuckets (calls.take call.2)) fun log' =>
      Builds hash sortBuckets.1 (Swaps hash) log'.mThreadCtxs call.1.1
  decidable_of_iff' _ forall_split_iff

/-- What a thread's calls make of a new `thread_ctx`. -/
def alone (log : TraceLog) (thread : Uint32) : List LogCall → Option ThreadCtx
  | [] => none
  | call :: calls => ThreadCtx.run
    { logStream := log.openStream thread, lastCpuCtx := call.context } (call :: calls)

/-- The map holds what each thread's own calls made, and the log still opens its streams alike. -/
structure Kept (hash : Hasher) (start : TraceLog) (calls : List (Uint32 × LogCall))
    (log : TraceLog) (t : Table 32 ThreadCtx) : Prop where
  rep : Represents hash log.mThreadCtxs t
  mode : log.mStream = start.mStream
  level : log.mCompressionLevel = start.mCompressionLevel
  each : ∀ thread, t thread = start.alone thread (callsOf calls thread)
  some : ∀ thread, callsOf calls thread ≠ [] → (t thread).isSome

/-- What a call makes of its thread's context is what the thread's calls so far make. -/
theorem Kept.write {start : TraceLog} {calls : List (Uint32 × LogCall)}
    (kept : Kept hash start calls log t) (thread : Uint32) (call : LogCall) :
    (entered log t thread call).write call =
      start.alone thread (callsOf calls thread ++ [call]) := by
  have stream : log.openStream thread = start.openStream thread := by
    rw [openStream, openStream, kept.mode, kept.level]
  cases own : callsOf calls thread with
  | nil =>
    have new := kept.each thread
    rw [own] at new
    rw [entered, new, stream]
    exact (Option.bind_fun_some _).symm
  | cons c cs =>
    obtain ⟨tctx, stored⟩ := Option.isSome_iff_exists.mp (kept.some thread (by simp [own]))
    have ran := (kept.each thread).symm.trans stored
    rw [own] at ran
    rw [entered, stored, Option.getD_some]
    change _ = ThreadCtx.run _ (c :: cs ++ [call])
    rw [ThreadCtx.run, List.foldlM_append, ← ThreadCtx.run]
    change _ = start.alone thread (c :: cs) >>= _
    rw [ran]
    exact (Option.bind_fun_some _).symm

theorem Kept.step {start : TraceLog} {calls : List (Uint32 × LogCall)}
    (kept : Kept hash start calls log t) {thread : Uint32} {call : LogCall}
    (well : Builds hash sortBuckets.1 (Swaps hash) log.mThreadCtxs thread) {log' : TraceLog}
    (logged : log.log hash sortBuckets thread call = .ok log') :
    ∃ t', Kept hash start (calls ++ [(thread, call)]) log' t' := by
  obtain ⟨tctx, written, rep, mode, level⟩ := exists_entered kept.rep well logged
  have own := (kept.write thread call).symm.trans written
  refine ⟨_, rep, mode.trans kept.mode, level.trans kept.level, fun other => ?_, fun other => ?_⟩
  all_goals rw [callsOf_concat, Table.store]
  · by_cases same : thread = other
    · subst same
      rw [Function.update_self, if_pos rfl, own]
    · rw [Function.update_of_ne (Ne.symm same), if_neg same, List.append_nil]
      exact kept.each other
  · by_cases same : thread = other
    · subst same
      simp
    · rw [Function.update_of_ne (Ne.symm same), if_neg same, List.append_nil]
      exact kept.some other

theorem exists_of_runCalls_concat {log log' : TraceLog} {calls : List (Uint32 × LogCall)}
    {call : Uint32 × LogCall}
    (ran : log.runCalls hash sortBuckets (calls ++ [call]) = .ok log') :
    ∃ log₁, log.runCalls hash sortBuckets calls = .ok log₁ ∧
      log₁.log hash sortBuckets call.1 call.2 = .ok log' := by
  rw [runCalls, List.foldlM_append, ← runCalls] at ran
  cases before : log.runCalls hash sortBuckets calls with
  | error e =>
    rw [before] at ran
    cases ran
  | ok log₁ =>
    rw [before] at ran
    exact ⟨log₁, rfl, (bind_pure _).symm.trans ran⟩

/-- The calls of all threads leave each thread what its own leave. -/
theorem kept_of_run {start log : TraceLog} (fresh : start.mThreadCtxs = {})
    {calls : List (Uint32 × LogCall)} (keeps : MapKeeps hash sortBuckets start calls)
    (ran : start.runCalls hash sortBuckets calls = .ok log) : ∃ t, Kept hash start calls log t := by
  induction calls using List.reverseRecOn generalizing log with
  | nil =>
    cases ran
    exact ⟨_, fresh ▸ represents_empty, rfl, rfl, fun _ => rfl, fun _ none => absurd rfl none⟩
  | append_singleton calls call ih =>
    obtain ⟨log₁, ran₁, logged⟩ := exists_of_runCalls_concat ran
    have earlier : MapKeeps hash sortBuckets start calls := by
      rintro before other rest rfl
      exact keeps before other (rest ++ [call]) (by simp)
    obtain ⟨t, kept⟩ := ih earlier ran₁
    exact kept.step (keeps calls call [] rfl log₁ ran₁) logged

/-! One thread. -/

/-- The log holds this thread and no other. -/
structure Single (hash : Hasher) (log : TraceLog) (thread : Uint32) (tctx : ThreadCtx) : Prop where
  rep : Represents hash log.mThreadCtxs (Function.update (fun _ => none) thread (some tctx))
  only : log.mThreadCtxs.mKeyVals = [(thread, tctx)]

theorem single_of_represents {thread : Uint32} {tctx : ThreadCtx}
    (rep : Represents hash log.mThreadCtxs (Function.update (fun _ => none) thread (some tctx))) :
    Single hash log thread tctx where
  rep := rep
  only := by
    have members : ∀ kv ∈ log.mThreadCtxs.mKeyVals, kv = (thread, tctx) := by
      rintro ⟨key, v⟩ member
      have stored := (rep.content key v).mp member
      by_cases same : key = thread
      · subst same
        rw [Function.update_self] at stored
        rw [Option.some.inj stored]
      · rw [Function.update_of_ne same] at stored
        cases stored
    have member := (rep.content thread tctx).mpr (Function.update_self ..)
    have same := List.eq_replicate_of_mem members
    have nodup := rep.nodup_keys
    rw [keys, same, List.map_replicate, List.nodup_replicate] at nodup
    have pos := List.length_pos_of_mem member
    rw [same, Nat.le_antisymm nodup pos]
    rfl

variable (sortBuckets) in
theorem log_single {thread : Uint32} {tctx tctx' : ThreadCtx} {call : LogCall}
    (single : Single hash log thread tctx) (written : tctx.write call = some tctx') :
    ∃ log', log.log hash sortBuckets thread call = .ok log' ∧ Single hash log' thread tctx' := by
  have member : thread ∈ log.mThreadCtxs.keys := by simp [keys, single.only]
  have found : entered log (Function.update (fun _ => none) thread (some tctx)) thread call =
      tctx := by rw [entered, Function.update_self, Option.getD_some]
  rcases log_spec single.rep (fun absent => absurd member absent) (found ▸ written) with
    ⟨log', logged, rep, _⟩ | ⟨e, _, refuses⟩
  · have twice : Table.store (Function.update (fun _ => none) thread (some tctx)) thread tctx' =
        Function.update (fun _ => none) thread (some tctx') := Function.update_idem ..
    exact ⟨log', logged, single_of_represents (twice ▸ rep)⟩
  · exact absurd member refuses.1

/-- With one thread there is one key to build. -/
theorem builds_first (hash : Hasher) (sortBuckets : BucketSort 32) (thread : Uint32) :
    Builds hash sortBuckets.1 (Swaps hash) ({} : MphMap 32 ThreadCtx) thread ∧
      ∀ e, ¬ Refuses hash sortBuckets.1 ({} : MphMap 32 ThreadCtx) thread e := by
  obtain ⟨built, done, slot⟩ := MinimalPerfectHash.build_single hash sortBuckets.2
    ({} : MphMap 32 ThreadCtx).mMph thread
  refine ⟨builds_of_eq done ⟨by simp [OneToOne, keys, slot], ?_⟩, ?_⟩
  · rintro (_ | j) i index
    · have first : i = 0 := by simpa [keys, slot, eq_comm] using index
      subst first
      exact index
    · cases index
  · rintro e ⟨_, failed⟩
    cases done.symm.trans failed

variable (sortBuckets) in
theorem log_first (fresh : log.mThreadCtxs = {}) {thread : Uint32} {call : LogCall}
    {tctx : ThreadCtx} (written : ThreadCtx.write
      { logStream := log.openStream thread, lastCpuCtx := call.context } call = some tctx) :
    ∃ log', log.log hash sortBuckets thread call = .ok log' ∧ Single hash log' thread tctx := by
  have rep : Represents hash log.mThreadCtxs fun _ => none := fresh ▸ represents_empty
  obtain ⟨well, willing⟩ := builds_first hash sortBuckets thread
  rw [← fresh] at well willing
  rcases log_spec rep well written with ⟨log', logged, rep', _⟩ | ⟨e, _, refuses⟩
  · exact ⟨log', logged, single_of_represents rep'⟩
  · exact absurd refuses (willing e)

variable (sortBuckets) in
theorem run_single {thread : Uint32} {tctx tctx' : ThreadCtx} {calls : List LogCall}
    (single : Single hash log thread tctx) (ran : tctx.run calls = some tctx') :
    ∃ log', log.run hash sortBuckets thread calls = .ok log' ∧ Single hash log' thread tctx' := by
  induction calls generalizing log tctx with
  | nil =>
    cases ran
    exact ⟨log, rfl, single⟩
  | cons call calls ih =>
    rw [ThreadCtx.run, List.foldlM_cons] at ran
    cases written : tctx.write call with
    | none =>
      rw [written] at ran
      cases ran
    | some tctx₁ =>
      rw [written] at ran
      obtain ⟨log₁, logged, single₁⟩ := log_single sortBuckets single written
      obtain ⟨log', rest, single'⟩ := ih single₁ ran
      refine ⟨log', ?_, single'⟩
      rw [run, List.foldlM_cons, logged]
      exact rest

end

/-- The calls of one thread, on a new log, leave it in this state: alone, and among the calls of
other threads as long as the map keeps its keys. -/
def Logs (hash : Hasher) (sortBuckets : BucketSort 32) (mCompressionLevel : Int) (mStream : Bool)
    (thread : Uint32) (calls : List LogCall) (tctx : ThreadCtx) : Prop :=
  (∃ log, TraceLog.run hash sortBuckets { mCompressionLevel, mStream } thread calls = .ok log ∧
    log.mThreadCtxs.mKeyVals = [(thread, tctx)]) ∧
  ∀ all log, callsOf all thread = calls →
    MapKeeps hash sortBuckets { mCompressionLevel, mStream } all →
    TraceLog.runCalls hash sortBuckets { mCompressionLevel, mStream } all = .ok log →
    (thread, tctx) ∈ log.mThreadCtxs.mKeyVals

theorem Logs.unique {hash : Hasher} {sortBuckets : BucketSort 32} {mCompressionLevel : Int}
    {mStream : Bool} {thread : Uint32} {calls : List LogCall} {tctx tctx' : ThreadCtx}
    (logs : Logs hash sortBuckets mCompressionLevel mStream thread calls tctx)
    (logs' : Logs hash sortBuckets mCompressionLevel mStream thread calls tctx') : tctx = tctx' := by
  obtain ⟨log, ran, only⟩ := logs.1
  obtain ⟨log', ran', only'⟩ := logs'.1
  cases ran.symm.trans ran'
  exact (Prod.mk.inj (List.singleton_inj.mp (only.symm.trans only'))).2

theorem logs_of_run (hash : Hasher) (sortBuckets : BucketSort 32) (mCompressionLevel : Int)
    (mStream : Bool) (thread : Uint32) {call : LogCall} {calls : List LogCall} {tctx : ThreadCtx}
    (ran : ThreadCtx.run
      { logStream := openStream { mCompressionLevel, mStream } thread, lastCpuCtx := call.context }
      (call :: calls) = some tctx) :
    Logs hash sortBuckets mCompressionLevel mStream thread (call :: calls) tctx := by
  let start : TraceLog := { mCompressionLevel, mStream }
  let entry : ThreadCtx := { logStream := start.openStream thread, lastCpuCtx := call.context }
  refine ⟨?_, fun all log own keeps ranAll => ?_⟩
  · rw [ThreadCtx.run, List.foldlM_cons] at ran
    cases written : entry.write call with
    | none =>
      rw [written] at ran
      cases ran
    | some tctx₁ =>
      rw [written] at ran
      obtain ⟨log₁, logged, single₁⟩ :=
        @log_first hash sortBuckets start rfl thread call tctx₁ written
      obtain ⟨log', rest, single⟩ := run_single sortBuckets single₁ ran
      refine ⟨log', ?_, single.only⟩
      rw [run, List.foldlM_cons]
      change (start.log hash sortBuckets thread call >>= _) = _
      rw [logged]
      exact rest
  · obtain ⟨t, kept⟩ := kept_of_run rfl keeps ranAll
    have each := kept.each thread
    rw [own] at each
    exact (kept.rep.content thread tctx).mpr (each.trans ran)

/-- Nothing is recorded before a thread's first call. -/
theorem recorded_opened (log : TraceLog) (thread : Uint32) (context : LogArm64CpuContext) :
    ThreadCtx.recorded { logStream := log.openStream thread, lastCpuCtx := context } = [] := by
  unfold ThreadCtx.recorded openStream
  cases log.mStream <;> rfl

/-- Within the limits of the writer a thread's calls are recorded as their journal. -/
theorem logs_journal (hash : Hasher) (sortBuckets : BucketSort 32) (mCompressionLevel : Int)
    (mStream : Bool) (thread : Uint32) {call : LogCall} {calls : List LogCall}
    (fit : CallsFit call.context (call :: calls)) :
    ∃ tctx frames, Logs hash sortBuckets mCompressionLevel mStream thread (call :: calls) tctx ∧
      Journal (.first call) (call :: calls) frames tctx.cursor ∧
      tctx.recorded = frames.flatMap Frame.bytes := by
  let start : TraceLog := { mCompressionLevel, mStream }
  let entry : ThreadCtx := { logStream := start.openStream thread, lastCpuCtx := call.context }
  obtain ⟨tctx, frames, ran, journal, recorded⟩ := @ThreadCtx.run_journal entry _ fit
  rw [recorded_opened, List.nil_append] at recorded
  exact ⟨tctx, frames, logs_of_run hash sortBuckets mCompressionLevel mStream thread ran, journal,
    recorded⟩

end TraceLog

end XnuTrace
