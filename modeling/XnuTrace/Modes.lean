import XnuTrace.MetadataRoundTrip

/-! `stream = true` against `stream = false`. The two runs keep the same cursor and the
same recorded bytes for every thread; the one has them in a buffer, the other in the
pieces of a stream whose header is patched at the end. -/
namespace XnuTrace
open Memory Framing XnuTrace.Frame MphMap

namespace ThreadCtx

/-- What `emit` leaves alone: the stream's headers and level. -/
def header (tctx : ThreadCtx) : Option (Uint64 × List Uint8 × Int) :=
  tctx.logStream.map fun logStream => (logStream.hdrMagic, logStream.mHdrBuf, logStream.level)

theorem emit_header {tctx tctx' : ThreadCtx} {buf : List Uint8}
    (emitted : tctx.emit buf = some tctx') : tctx'.header = tctx.header := by
  unfold emit at emitted
  unfold header
  cases stream : tctx.logStream with
  | none =>
    rw [stream] at emitted
    rw [← Option.some.inj emitted]
  | some logStream =>
    rw [stream] at emitted
    obtain ⟨f, written, rfl⟩ := Option.map_eq_some_iff.mp emitted
    rw [CompressedFile.eq_of_write written]
    rfl

theorem writeSync_header {tctx tctx' : ThreadCtx} (written : tctx.writeSync = some tctx') :
    tctx'.header = tctx.header := by
  obtain ⟨t₁, first, written⟩ := Option.bind_eq_some_iff.mp written
  obtain ⟨t₂, second, written⟩ := Option.bind_eq_some_iff.mp written
  obtain ⟨t₃, third, written⟩ := Option.bind_eq_some_iff.mp written
  rw [← Option.some.inj written]
  exact (emit_header third).trans ((emit_header second).trans (emit_header first))

theorem writeLogMsg_header {tctx tctx' : ThreadCtx} {ctx : LogArm64CpuContext}
    (written : tctx.writeLogMsg ctx = some tctx') : tctx'.header = tctx.header := by
  obtain ⟨t₁, synced, written⟩ := Option.bind_eq_some_iff.mp written
  obtain ⟨buf, _, written⟩ := Option.bind_eq_some_iff.mp written
  obtain ⟨t₂, emitted, written⟩ := Option.bind_eq_some_iff.mp written
  rw [← Option.some.inj written]
  have first : t₁.header = tctx.header := by
    unfold syncIfDue at synced
    split at synced
    · exact writeSync_header synced
    · rw [Option.some.inj synced]
  exact (emit_header emitted).trans first

theorem writeLogMsgPc_header {tctx tctx' : ThreadCtx} {pc : Uint64}
    (written : tctx.writeLogMsgPc pc = some tctx') : tctx'.header = tctx.header := by
  obtain ⟨t₁, emitted, written⟩ := Option.bind_eq_some_iff.mp written
  have kept := emit_header emitted
  rw [← Option.some.inj written]
  exact kept

theorem write_header {tctx tctx' : ThreadCtx} {call : LogCall}
    (written : tctx.write call = some tctx') : tctx'.header = tctx.header := by
  cases call with
  | pc pc => exact writeLogMsgPc_header written
  | ctx context => exact writeLogMsg_header written

end ThreadCtx

/-- Both modes hold the contexts `cs` of one thread, of which `c` is the first. -/
structure Agrees (level : Int) (thread : Uint32) (c : LogArm64CpuContext)
    (cs : List LogArm64CpuContext) (buffered streamed : ThreadCtx) : Prop where
  cursor : streamed.cursor = buffered.cursor
  recorded : streamed.recorded = buffered.recorded
  memory : buffered.header = none
  stream : streamed.header =
    some (logThreadHdrMagic, logThreadHdr (thread.setWidth 64) 0, level)
  journal : ∃ frames, Journal (.first (.ctx c)) (cs.map .ctx) frames buffered.cursor ∧
    buffered.recorded = frames.flatMap Frame.bytes

/-- The contexts that the first call of a thread makes. -/
theorem agrees_first (level : Int) (thread : Uint32) (c : LogArm64CpuContext) :
    Agrees level thread c [] { logStream := none, lastCpuCtx := c }
      { logStream := some <| .create logThreadHdrMagic (logThreadHdr (thread.setWidth 64) 0) level
        lastCpuCtx := c } where
  cursor := rfl
  recorded := rfl
  memory := rfl
  stream := rfl
  journal := ⟨[], .done _, rfl⟩

/-- A call takes both to the same next state. -/
theorem Agrees.write {level : Int} {thread : Uint32} {c ctx : LogArm64CpuContext}
    {cs : List LogArm64CpuContext} {buffered streamed : ThreadCtx}
    (agrees : Agrees level thread c cs buffered streamed)
    (fits : WithinLimits buffered.lastCpuCtx ctx) :
    ∃ buffered' streamed', buffered.write (.ctx ctx) = some buffered' ∧
      streamed.write (.ctx ctx) = some streamed' ∧ buffered'.lastCpuCtx = ctx ∧
      Agrees level thread c (cs ++ [ctx]) buffered' streamed' := by
  have last : streamed.lastCpuCtx = buffered.lastCpuCtx := congrArg Cursor.last agrees.cursor
  obtain ⟨b, wroteB, recordedB, cursorB⟩ := buffered.writeLogMsg_spec fits
  obtain ⟨s, wroteS, recordedS, cursorS⟩ :=
    streamed.writeLogMsg_spec (show WithinLimits streamed.lastCpuCtx ctx by rwa [last])
  obtain ⟨frames, journal, bytes⟩ := agrees.journal
  have same : Delta.between streamed.lastCpuCtx ctx (by rwa [last]) =
      Delta.between buffered.lastCpuCtx ctx fits := by congr 1
  rw [same, agrees.cursor] at recordedS cursorS
  refine ⟨b, s, wroteB, wroteS, congrArg Cursor.last cursorB, ?_⟩
  exact {
    cursor := cursorS.trans cursorB.symm
    recorded := by rw [recordedS, recordedB, agrees.recorded]
    memory := (ThreadCtx.writeLogMsg_header wroteB).trans agrees.memory
    stream := (ThreadCtx.writeLogMsg_header wroteS).trans agrees.stream
    journal := by
      refine ⟨_, ?_, by rw [recordedB, bytes, ← List.flatMap_append]⟩
      rw [List.map_append, cursorB]
      have here := @Journal.ctx buffered.cursor _ ctx [] [] fits (.done _)
      exact journal.append here }

theorem Agrees.last {level : Int} {thread : Uint32} {c ctx : LogArm64CpuContext}
    {cs : List LogArm64CpuContext} {buffered streamed : ThreadCtx}
    (agrees : Agrees level thread c (cs ++ [ctx]) buffered streamed) :
    buffered.lastCpuCtx = ctx := by
  obtain ⟨frames, journal, _⟩ := agrees.journal
  have last := journal.last_eq
  rw [List.map_append, List.foldl_append] at last
  exact last

/-- The contexts of one thread among the calls of all threads. -/
def contextsOf (calls : List (Uint32 × LogArm64CpuContext)) (thread : Uint32) :
    List LogArm64CpuContext :=
  (calls.filter fun call => call.1 = thread).map Prod.snd

theorem contextsOf_concat (calls : List (Uint32 × LogArm64CpuContext)) (call)  (thread : Uint32) :
    contextsOf (calls ++ [call]) thread =
      contextsOf calls thread ++ if call.1 = thread then [call.2] else [] := by
  rw [contextsOf, List.filter_append, List.map_append, contextsOf, List.filter_singleton]
  by_cases same : call.1 = thread
  · simp [same]
  · simp [same]

/-- Only the threads that call have contexts. -/
theorem chains_iff {R : LogArm64CpuContext → LogArm64CpuContext → Prop}
    {calls : List (Uint32 × LogArm64CpuContext)} :
    (∀ thread, (contextsOf calls thread).IsChain R) ↔
      ∀ thread ∈ calls.map Prod.fst, (contextsOf calls thread).IsChain R := by
  refine ⟨fun all thread _ => all thread, fun each thread => ?_⟩
  by_cases caller : thread ∈ calls.map Prod.fst
  · exact each thread caller
  · have none : contextsOf calls thread = [] := by
      refine List.map_eq_nil_iff.mpr (List.filter_eq_nil_iff.mpr fun call member => ?_)
      intro own
      exact caller (of_decide_eq_true own ▸ List.mem_map_of_mem member)
    rw [none]
    exact .nil

namespace TraceLog
variable (hash : Hasher) (sortBuckets : BucketSort 32)

/-- Any interleaving of `log(thread, context)`. -/
def runAll (log : TraceLog) (calls : List (Uint32 × LogArm64CpuContext)) :
    Except LogFailure TraceLog :=
  calls.foldlM (fun log call => log.log hash sortBuckets call.1 (.ctx call.2)) log

theorem runAll_concat {log log' : TraceLog} {calls : List (Uint32 × LogArm64CpuContext)}
    (ran : log.runAll hash sortBuckets calls = .ok log') (call : Uint32 × LogArm64CpuContext) :
    log.runAll hash sortBuckets (calls ++ [call]) =
      log'.log hash sortBuckets call.1 (.ctx call.2) := by
  rw [runAll, List.foldlM_append, ← runAll, ran]
  exact bind_pure (log'.log hash sortBuckets call.1 (.ctx call.2))

/-- At each call the map behaves as a finite map: a new key is built, one-to-one, and
the pairs end up where they are looked up. -/
def MapBehaves (log : TraceLog) (calls : List (Uint32 × LogArm64CpuContext)) : Prop :=
  ∀ before call rest, calls = before ++ call :: rest →
    ∀ log', log.runAll hash sortBuckets before = .ok log' →
      Builds hash sortBuckets.1 (Swaps hash) log'.mThreadCtxs call.1 ∧
        ∀ e, ¬ Refuses hash sortBuckets.1 log'.mThreadCtxs call.1 e

instance (log : TraceLog) (calls : List (Uint32 × LogArm64CpuContext)) :
    Decidable (MapBehaves hash sortBuckets log calls) :=
  have := fun call : (Uint32 × LogArm64CpuContext) × Nat =>
    decidableForallOk (log.runAll hash sortBuckets (calls.take call.2)) fun log' =>
      Builds hash sortBuckets.1 (Swaps hash) log'.mThreadCtxs call.1.1 ∧
        ∀ e, ¬ Refuses hash sortBuckets.1 log'.mThreadCtxs call.1.1 e
  decidable_of_iff' _ forall_split_iff

/-- Two runs of the same calls, buffered and streamed. -/
structure Lockstep (level : Int) (calls : List (Uint32 × LogArm64CpuContext))
    (buffered streamed : TraceLog) (tb ts : Table 32 ThreadCtx) : Prop where
  repB : Represents hash buffered.mThreadCtxs tb
  repS : Represents hash streamed.mThreadCtxs ts
  modeB : buffered.mStream = false
  modeS : streamed.mStream = true
  levelB : buffered.mCompressionLevel = level
  levelS : streamed.mCompressionLevel = level
  absent : ∀ thread, contextsOf calls thread = [] → tb thread = none ∧ ts thread = none
  present : ∀ thread c cs, contextsOf calls thread = c :: cs → ∃ b s, tb thread = some b ∧
    ts thread = some s ∧ Agrees level thread c (c :: cs) b s

variable {hash sortBuckets}

theorem lockstep_start (level : Int) : Lockstep hash level []
    { mCompressionLevel := level, mStream := false }
    { mCompressionLevel := level, mStream := true } (fun _ => none) fun _ => none where
  repB := represents_empty
  repS := represents_empty
  modeB := rfl
  modeS := rfl
  levelB := rfl
  levelS := rfl
  absent _ _ := ⟨rfl, rfl⟩
  present _ _ _ some := nomatch some

section
variable {level : Int} {calls : List (Uint32 × LogArm64CpuContext)}
  {buffered streamed : TraceLog} {tb ts : Table 32 ThreadCtx}
  (lockstep : Lockstep hash level calls buffered streamed tb ts)
include lockstep

/-- What a call finds for its thread in the two modes, and what it makes of it. -/
theorem Lockstep.entered (thread : Uint32) (ctx : LogArm64CpuContext)
    (fit : (contextsOf calls thread ++ [ctx]).IsChain WithinLimits) :
    ∃ b s c, (entered buffered tb thread (.ctx ctx)).write (.ctx ctx) = some b ∧
      (entered streamed ts thread (.ctx ctx)).write (.ctx ctx) = some s ∧
      (contextsOf calls thread ++ [ctx]).head? = some c ∧
      Agrees level thread c (contextsOf calls thread ++ [ctx]) b s := by
  cases logged : contextsOf calls thread with
  | nil =>
    obtain ⟨newB, newS⟩ := lockstep.absent thread logged
    obtain ⟨b, s, wroteB, wroteS, _, agrees⟩ :=
      (agrees_first level thread ctx).write (withinLimits_self ctx)
    refine ⟨b, s, ctx, ?_, ?_, rfl, agrees⟩
    · rw [TraceLog.entered, newB, openStream, lockstep.modeB]
      exact wroteB
    · rw [TraceLog.entered, newS, openStream, lockstep.modeS, lockstep.levelS]
      exact wroteS
  | cons c cs =>
    obtain ⟨b, s, storedB, storedS, agrees⟩ := lockstep.present thread c cs logged
    have last : WithinLimits b.lastCpuCtx ctx := by
      rw [← List.dropLast_append_getLast (List.cons_ne_nil c cs)] at agrees
      rw [agrees.last]
      rw [logged] at fit
      exact (List.isChain_append.mp fit).2.2 _ (by simp [List.getLast?_eq_getLast_of_ne_nil]) _
        rfl
    obtain ⟨b', s', wroteB, wroteS, _, agrees'⟩ := agrees.write last
    refine ⟨b', s', c, ?_, ?_, rfl, agrees'⟩
    · rw [TraceLog.entered, storedB]
      exact wroteB
    · rw [TraceLog.entered, storedS]
      exact wroteS

/-- One call keeps the two runs in step. -/
theorem Lockstep.log (thread : Uint32) (ctx : LogArm64CpuContext)
    (fit : (contextsOf calls thread ++ [ctx]).IsChain WithinLimits)
    (wellB : Builds hash sortBuckets.1 (Swaps hash) buffered.mThreadCtxs thread ∧
      ∀ e, ¬ Refuses hash sortBuckets.1 buffered.mThreadCtxs thread e)
    (wellS : Builds hash sortBuckets.1 (Swaps hash) streamed.mThreadCtxs thread ∧
      ∀ e, ¬ Refuses hash sortBuckets.1 streamed.mThreadCtxs thread e) :
    ∃ buffered' streamed' tb' ts', buffered.log hash sortBuckets thread (.ctx ctx) = .ok buffered' ∧
      streamed.log hash sortBuckets thread (.ctx ctx) = .ok streamed' ∧
      Lockstep hash level (calls ++ [(thread, ctx)]) buffered' streamed' tb' ts' := by
  obtain ⟨b, s, c, wroteB, wroteS, head, agrees⟩ := lockstep.entered thread ctx fit
  rcases log_spec lockstep.repB wellB.1 wroteB with
    ⟨logB, loggedB, repB, modeB, levelB, _⟩ | ⟨e, _, refuses⟩
  swap
  · exact absurd refuses (wellB.2 e)
  rcases log_spec lockstep.repS wellS.1 wroteS with
    ⟨logS, loggedS, repS, modeS, levelS, _⟩ | ⟨e, _, refuses⟩
  swap
  · exact absurd refuses (wellS.2 e)
  refine ⟨logB, logS, _, _, loggedB, loggedS, repB, repS, modeB.trans lockstep.modeB,
    modeS.trans lockstep.modeS, levelB.trans lockstep.levelB, levelS.trans lockstep.levelS, ?_, ?_⟩
  · intro other none
    rw [contextsOf_concat] at none
    obtain ⟨before, now⟩ := List.append_eq_nil_iff.mp none
    have differs : other ≠ thread := by
      rintro rfl
      simp at now
    obtain ⟨noneB, noneS⟩ := lockstep.absent other before
    rw [Table.store, Table.store, Function.update_of_ne differs, Function.update_of_ne differs]
    exact ⟨noneB, noneS⟩
  · intro other c' cs some
    rw [contextsOf_concat] at some
    by_cases same : thread = other
    · subst same
      rw [if_pos rfl] at some
      rw [some] at head agrees
      obtain rfl : c' = c := Option.some.inj head
      exact ⟨b, s, Function.update_self .., Function.update_self .., agrees⟩
    · rw [if_neg same, List.append_nil] at some
      rw [Table.store, Table.store, Function.update_of_ne (Ne.symm same),
        Function.update_of_ne (Ne.symm same)]
      exact lockstep.present other c' cs some

end

theorem MapBehaves.init {log : TraceLog} {calls : List (Uint32 × LogArm64CpuContext)}
    {call : Uint32 × LogArm64CpuContext}
    (behaves : MapBehaves hash sortBuckets log (calls ++ [call])) :
    MapBehaves hash sortBuckets log calls := by
  rintro before other rest rfl
  exact behaves before other (rest ++ [call]) (by simp)

/-- Both modes complete the run and end in step. -/
theorem run_lockstep (level : Int) (calls : List (Uint32 × LogArm64CpuContext))
    (fit : ∀ thread, (contextsOf calls thread).IsChain WithinLimits)
    (behaves : ∀ mStream,
      MapBehaves hash sortBuckets { mCompressionLevel := level, mStream } calls) :
    ∃ buffered streamed tb ts,
      runAll hash sortBuckets { mCompressionLevel := level, mStream := false } calls =
        .ok buffered ∧
      runAll hash sortBuckets { mCompressionLevel := level, mStream := true } calls =
        .ok streamed ∧
      Lockstep hash level calls buffered streamed tb ts := by
  induction calls using List.reverseRecOn with
  | nil => exact ⟨_, _, _, _, rfl, rfl, lockstep_start level⟩
  | append_singleton calls call ih =>
    have earlier : ∀ thread, (contextsOf calls thread).IsChain WithinLimits := fun thread => by
      have := fit thread
      rw [contextsOf_concat] at this
      exact (List.isChain_append.mp this).1
    obtain ⟨buffered, streamed, tb, ts, ranB, ranS, lockstep⟩ :=
      ih earlier fun mStream => (behaves mStream).init
    have next := fit call.1
    rw [contextsOf_concat, if_pos rfl] at next
    obtain ⟨buffered', streamed', tb', ts', loggedB, loggedS, lockstep'⟩ :=
      lockstep.log call.1 call.2 next (behaves false calls call [] rfl buffered ranB)
        (behaves true calls call [] rfl streamed ranS)
    exact ⟨buffered', streamed', tb', ts', (runAll_concat hash sortBuckets ranB call).trans loggedB,
      (runAll_concat hash sortBuckets ranS call).trans loggedS, lockstep'⟩

end TraceLog

end XnuTrace
