import XnuTrace.SyncHeaders

/-! Sync headers forged by the traced program: the register values of a few calls can hold the
bytes of `sync_frame_buf_hdr`. The log's sync frames are found by their headers exactly if no call
completes one. -/
namespace XnuTrace
open Memory Occurrences MphMap LogMsg

/-! The values that a call logs. -/

/-- The values of the registers that changed, in the order of the message. -/
def changedValues (last ctx : LogArm64CpuContext) : List Uint8 :=
  (if ctx.pc = last.pc + 4 then [] else wordBytes 8 ctx.pc) ++
    (if ctx.sp = last.sp then [] else wordBytes 8 ctx.sp) ++
    (changedGprs last ctx).flatMap (fun i => wordBytes 8 (ctx.slot i)) ++
    (changedVecs last ctx).flatMap fun i => wordBytes 16 (ctx.vec i)

/-- The first registers to change are `x17` and `x21` or `fp`, whose indices make the last byte of
the header. -/
def EntersLastByte (last ctx : LogArm64CpuContext) : Prop :=
  (changedGprs last ctx).getD 0 0 = 17 ∧ (changedGprs last ctx).getD 1 0 % 8 = 5

section
variable {last ctx : LogArm64CpuContext} (fits : WithinLimits last ctx)

theorem packed_between : (Frame.msg (.between last ctx fits)).Packed := by
  constructor
  · exact packedRegs_changeWord _ _ (Delta.gpr_small _) (Delta.gpr_few _)
      (Delta.map_gprs_between fits ▸ changedGprs_increasing last ctx)
  · exact packedRegs_changeWord _ _ (Delta.vec_small _) (Delta.vec_few _)
      (Delta.map_vecs_between fits ▸ changedVecs_increasing last ctx)

theorem values_between : (Frame.msg (.between last ctx fits)).values = changedValues last ctx := by
  simp only [Frame.values, Delta.values, Delta.between, changedValues, List.flatMap_map]
  by_cases pc : ctx.pc = last.pc + 4 <;> by_cases sp : ctx.sp = last.sp <;>
    simp only [pc, sp, if_true, if_false, Delta.optBytes]

include fits in
/-- The values fill a header if they have one. -/
theorem infix_changedValues_iff : syncFrameBufHdrBytes <:+: changedValues last ctx ↔
    changedValues last ctx = syncFrameBufHdrBytes := by
  constructor
  · intro within
    have short := (Delta.between last ctx fits).length_values_le
    have same : (Delta.between last ctx fits).values = changedValues last ctx := values_between fits
    rw [same] at short
    exact (within.eq_of_length (within.length_le.antisymm short)).symm
  · intro same
    exact same ▸ List.infix_refl _

/-- The fields of the message's first word are the changed registers. -/
theorem toNat_rpcRegIdx_between {i : Nat} (small : i < rpcNumChangedMax) :
    (rpcRegIdx (Delta.between last ctx fits).gprWord i).toNat = (changedGprs last ctx).getD i 0 := by
  have index : (changedGprs last ctx).getD i 0 < 32 := by
    rw [List.getD_eq_getElem?_getD]
    cases entered : (changedGprs last ctx)[i]? with
    | none => decide
    | some r => exact (changedGprs_lt r (List.mem_of_getElem? entered)).trans (by decide)
  rw [Delta.gprWord, rpcRegIdx_changeWord_getD _ _ (Delta.gpr_small _) (Delta.gpr_few _) small,
    Delta.map_gprs_between, BitVec.toNat_ofNat, Nat.mod_eq_of_lt (index.trans (by decide))]

theorem take_one_between :
    (Frame.msg (.between last ctx fits)).bytes.take 1 = [0xb1] ↔ EntersLastByte last ctx := by
  have first := toNat_rpcRegIdx_between fits (show 0 < rpcNumChangedMax by decide)
  have second := toNat_rpcRegIdx_between fits (show 1 < rpcNumChangedMax by decide)
  rw [toNat_rpcRegIdx_zero] at first
  rw [toNat_rpcRegIdx_one] at second
  have front : (Frame.msg (.between last ctx fits)).bytes.take 1 =
      [BitVec.ofNat 8 (Delta.between last ctx fits).gprWord.toNat] := by
    rw [Frame.bytes, Delta.bytes_eq]
    rfl
  rw [front, List.cons.injEq, eq_self_iff_true, and_true, ← BitVec.toNat_inj, BitVec.toNat_ofNat,
    EntersLastByte, ← first, ← second, show (0xb1 : Uint8).toNat = 177 from rfl]
  omega

end

/-! One call. -/

namespace ThreadCtx

/-- Searches of the log for the header find only the starts of the sync frames written to it. -/
def SyncsUnforged (tctx : ThreadCtx) : Prop :=
  ∃ frames : List Frame, tctx.recorded = frames.flatMap Frame.bytes ∧
    (∀ p, Occurs tctx.recorded syncFrameBufHdrBytes p → StartsSync frames p) ∧
    ∀ (twoway : TwowayMemmem) (n : Nat) (blks : Blocks n tctx.recorded.length) (order : List Nat),
      order.Perm (List.range blks.numBlocks) → ∀ i < n, ∀ p,
        (chunkIntoBinsByNeedle twoway tctx.recorded syncFrameBufHdrBytes blks order)[i]? =
          some (some p) → StartsSync frames p

/-- The call completes no header: neither in the context of a sync frame that is due, nor with the
values that it logs, nor with the first byte of its message. -/
def Harmless (tctx : ThreadCtx) (ctx : LogArm64CpuContext) : Prop :=
  (tctx.szSinceLastSync ≥ syncEvery →
    ¬ syncFrameBufHdrBytes <:+: wordBytes 8 tctx.numInst ++ tctx.lastCpuCtx.bytes) ∧
  changedValues tctx.lastCpuCtx ctx ≠ syncFrameBufHdrBytes ∧
  ¬ (syncFrameBufHdrBytes.dropLast <:+
      (if tctx.szSinceLastSync ≥ syncEvery then tctx.lastCpuCtx.bytes else tctx.recorded) ∧
    EntersLastByte tctx.lastCpuCtx ctx)

theorem syncsUnforged_iff {tctx : ThreadCtx} {frames : List Frame}
    (recorded : tctx.recorded = frames.flatMap Frame.bytes) :
    tctx.SyncsUnforged ↔ OnlyAtSyncs frames := by
  constructor
  · rintro ⟨frames', recorded', only, -⟩ p occurs
    exact (only p (recorded ▸ occurs)).congr (recorded'.symm.trans recorded)
  · intro only
    have unforged : ∀ p, Occurs tctx.recorded syncFrameBufHdrBytes p → StartsSync frames p :=
      fun p occurs => only p (recorded ▸ occurs)
    refine ⟨frames, recorded, unforged, fun twoway n blks order each i inside p found => ?_⟩
    exact unforged p (occurs_of_chunkIntoBinsByNeedle twoway (by decide) each inside found)

theorem suffix_byte_iff {bs : List Uint8} {b : Uint8} : syncFrameBufHdrBytes <:+ bs ++ [b] ↔
    syncFrameBufHdrBytes.dropLast <:+ bs ∧ b = 0xb1 := by
  have split : syncFrameBufHdrBytes = syncFrameBufHdrBytes.dropLast ++ [0xb1] := rfl
  conv_lhs => rw [split]
  exact concat_suffix_concat

/-- A message behind frames that have no forged header. -/
theorem onlyAtSyncs_between {frames : List Frame} {last ctx : LogArm64CpuContext}
    (fits : WithinLimits last ctx) : OnlyAtSyncs (frames ++ [.msg (.between last ctx fits)]) ↔
      OnlyAtSyncs frames ∧ changedValues last ctx ≠ syncFrameBufHdrBytes ∧
        ¬ (syncFrameBufHdrBytes.dropLast <:+ frames.flatMap Frame.bytes ∧ EntersLastByte last ctx) := by
  rw [onlyAtSyncs_concat (packed_between fits), values_between, infix_changedValues_iff fits,
    ← take_one_between fits]
  obtain ⟨b, rest, bytes⟩ := List.exists_cons_of_length_pos
    (Frame.length_bytes_pos (.msg (.between last ctx fits)))
  rw [bytes, List.take_succ_cons, List.take_zero, suffix_byte_iff, List.singleton_inj]
  tauto

/-- The header of a sync frame completes none. -/
theorem onlyAtSyncs_sync {frames : List Frame} {numInst : Uint64} {ctx : LogArm64CpuContext} :
    OnlyAtSyncs (frames ++ [.sync numInst ctx]) ↔
      OnlyAtSyncs frames ∧ ¬ syncFrameBufHdrBytes <:+: wordBytes 8 numInst ++ ctx.bytes := by
  have front : (Frame.sync numInst ctx).bytes.take 1 = [0] := by
    rw [Frame.bytes_eq]
    rfl
  have other : ¬ syncFrameBufHdrBytes <:+ frames.flatMap Frame.bytes ++ [0] := by
    rw [suffix_byte_iff]
    exact fun ends => absurd ends.2 (by decide)
  have packed : (Frame.sync numInst ctx).Packed := trivial
  rw [onlyAtSyncs_concat packed, front]
  exact and_congr_right fun _ => and_iff_right other

/-- What a call writes leaves the headers unforged exactly if the call is harmless. -/
theorem SyncsUnforged.write_iff {tctx tctx' : ThreadCtx} {ctx : LogArm64CpuContext}
    (unforged : tctx.SyncsUnforged) (written : tctx.write (.ctx ctx) = some tctx') :
    tctx'.SyncsUnforged ↔ tctx.Harmless ctx := by
  have fits : WithinLimits tctx.lastCpuCtx ctx := by
    by_contra exceeds
    cases (tctx.writeLogMsg_eq_none exceeds).symm.trans written
  obtain ⟨frames, recorded, -⟩ := id unforged
  have only := (syncsUnforged_iff recorded).mp unforged
  obtain ⟨tctx'', written', recorded', -⟩ := tctx.writeLogMsg_spec fits
  cases written.symm.trans written'
  rw [recorded, ← List.flatMap_append, ← List.append_assoc] at recorded'
  rw [syncsUnforged_iff recorded', onlyAtSyncs_between fits, Harmless]
  by_cases due : tctx.szSinceLastSync ≥ syncEvery
  · have frame : tctx.cursor.due = [.sync tctx.numInst tctx.lastCpuCtx] := if_pos due
    have long : syncFrameBufHdrBytes.dropLast.length ≤ tctx.lastCpuCtx.bytes.length := by
      rw [List.length_dropLast, tctx.lastCpuCtx.length_bytes, length_syncFrameBufHdrBytes]
      decide
    have body : syncFrameBufHdrBytes.dropLast <:+
          (frames ++ [Frame.sync tctx.numInst tctx.lastCpuCtx]).flatMap Frame.bytes ↔
        syncFrameBufHdrBytes.dropLast <:+ tctx.lastCpuCtx.bytes := by
      rw [List.flatMap_append, List.flatMap_singleton, Frame.bytes, ← List.append_assoc]
      exact suffix_append_iff long
    rw [frame, onlyAtSyncs_sync, body, if_pos due, and_iff_right only, imp_iff_right due]
  · have none : tctx.cursor.due = [] := if_neg due
    rw [none, List.append_nil, if_neg due, recorded, and_iff_right only]
    exact (and_iff_right fun now => absurd now due).symm

end ThreadCtx

/-! All calls of all threads. -/

namespace TraceLog
variable (hash : Hasher) (sortBuckets : BucketSort 32)

/-- No log on the way has a `thread_ctx` in which a header is forged. -/
def AlwaysUnforged (log : TraceLog) (calls : List (Uint32 × LogArm64CpuContext)) : Prop :=
  ∀ before, before <+: calls → ∀ log', log.runAll hash sortBuckets before = .ok log' →
    ForallValues ThreadCtx.SyncsUnforged log'.mThreadCtxs

/-- Each call is harmless to the `thread_ctx` that it finds. -/
def AllHarmless (log : TraceLog) (calls : List (Uint32 × LogArm64CpuContext)) : Prop :=
  ∀ before call, before ++ [call] <+: calls → ∀ log', log.runAll hash sortBuckets before = .ok log' →
    ∀ threadCtxs i kv, log'.threadCtx hash sortBuckets call.1 (.ctx call.2) = .ok (threadCtxs, i) →
      threadCtxs.mKeyVals[i]? = some kv → kv.2.Harmless call.2

variable {hash sortBuckets}

theorem carried_syncsUnforged : Carried ThreadCtx.SyncsUnforged := by
  have nothing : ∀ tctx : ThreadCtx, tctx.recorded = [] → tctx.SyncsUnforged := by
    intro tctx empty
    refine (@ThreadCtx.syncsUnforged_iff tctx [] empty).mpr fun p occurs => ?_
    have inside := Occurs.inside occurs (by decide)
    rw [length_syncFrameBufHdrBytes, List.flatMap_nil, List.length_nil] at inside
    omega
  exact {
    moved := fun tctx _ => nothing _ rfl
    empty := nothing _ rfl
    opened := by
      intro log thread
      apply nothing
      unfold ThreadCtx.recorded openStream
      cases log.mStream <;> rfl
    entered := fun _ _ unforged => unforged }

/-- One call keeps the headers of all threads unforged exactly if it is harmless. -/
theorem log_unforged_iff {log log' : TraceLog} {thread : Uint32} {ctx : LogArm64CpuContext}
    (unforged : ForallValues ThreadCtx.SyncsUnforged log.mThreadCtxs)
    (logged : log.log hash sortBuckets thread (.ctx ctx) = .ok log') :
    ForallValues ThreadCtx.SyncsUnforged log'.mThreadCtxs ↔ ∀ threadCtxs i kv,
      log.threadCtx hash sortBuckets thread (.ctx ctx) = .ok (threadCtxs, i) →
        threadCtxs.mKeyVals[i]? = some kv → kv.2.Harmless ctx := by
  obtain ⟨threadCtxs, i, kv, tctx, found, entry, written, now⟩ := exists_of_log logged
  have others := forall_threadCtx carried_syncsUnforged unforged found
  have own := (others kv (List.mem_of_getElem? entry)).write_iff written
  rw [ForallValues, now]
  constructor
  · intro all threadCtxs' i' kv' found' entry'
    cases found.symm.trans found'
    cases entry.symm.trans entry'
    have bound := (List.getElem?_eq_some_iff.mp entry).1
    exact own.mp (all (kv.1, tctx) (List.mem_of_getElem? (List.getElem?_set_self bound)))
  · intro harmless
    exact forall_mem_set (p := fun kv : Uint32 × ThreadCtx => kv.2.SyncsUnforged) others
      (own.mpr (harmless threadCtxs i kv found entry))

theorem exists_of_runAll_concat {log log' : TraceLog} {calls : List (Uint32 × LogArm64CpuContext)}
    {call : Uint32 × LogArm64CpuContext}
    (ran : log.runAll hash sortBuckets (calls ++ [call]) = .ok log') :
    ∃ log₁, log.runAll hash sortBuckets calls = .ok log₁ ∧
      log₁.log hash sortBuckets call.1 (.ctx call.2) = .ok log' := by
  cases before : log.runAll hash sortBuckets calls with
  | error e =>
    rw [runAll, List.foldlM_append, ← runAll, before] at ran
    cases ran
  | ok log₁ => exact ⟨log₁, rfl, (runAll_concat hash sortBuckets before call).symm.trans ran⟩

theorem alwaysUnforged_concat {log log' : TraceLog} {calls : List (Uint32 × LogArm64CpuContext)}
    {call : Uint32 × LogArm64CpuContext}
    (ran : log.runAll hash sortBuckets (calls ++ [call]) = .ok log') :
    AlwaysUnforged hash sortBuckets log (calls ++ [call]) ↔ AlwaysUnforged hash sortBuckets log calls ∧
      ForallValues ThreadCtx.SyncsUnforged log'.mThreadCtxs := by
  constructor
  · intro always
    exact ⟨fun before part => always before (part.trans (List.prefix_append _ _)),
      always _ List.prefix_rfl _ ran⟩
  · rintro ⟨always, last⟩ before part log₁ ran₁
    rcases List.prefix_concat_iff.mp part with rfl | part
    · cases ran.symm.trans ran₁
      exact last
    · exact always before part log₁ ran₁

theorem allHarmless_concat {log log₁ : TraceLog} {calls : List (Uint32 × LogArm64CpuContext)}
    {call : Uint32 × LogArm64CpuContext} (ran : log.runAll hash sortBuckets calls = .ok log₁) :
    AllHarmless hash sortBuckets log (calls ++ [call]) ↔ AllHarmless hash sortBuckets log calls ∧
      ∀ threadCtxs i kv, log₁.threadCtx hash sortBuckets call.1 (.ctx call.2) = .ok (threadCtxs, i) →
        threadCtxs.mKeyVals[i]? = some kv → kv.2.Harmless call.2 := by
  constructor
  · intro all
    exact ⟨fun before other part => all before other (part.trans (List.prefix_append _ _)),
      all calls call List.prefix_rfl log₁ ran⟩
  · rintro ⟨all, last⟩ before other part log' ran'
    rcases List.prefix_concat_iff.mp part with same | part
    · obtain ⟨rfl, one⟩ := List.append_inj' same rfl
      cases one
      cases ran.symm.trans ran'
      exact last
    · exact all before other part log' ran'

/-- In every state of a run the headers are unforged exactly if each of its calls is harmless. -/
theorem alwaysUnforged_iff {level : Int} {mStream : Bool}
    {calls : List (Uint32 × LogArm64CpuContext)} {log : TraceLog}
    (ran : runAll hash sortBuckets { mCompressionLevel := level, mStream } calls = .ok log) :
    AlwaysUnforged hash sortBuckets { mCompressionLevel := level, mStream } calls ↔
      AllHarmless hash sortBuckets { mCompressionLevel := level, mStream } calls := by
  induction calls using List.reverseRecOn generalizing log with
  | nil =>
    constructor
    · intro _ before call part
      simp at part
    · intro _ before part log' ran'
      cases List.prefix_nil.mp part
      cases ran'
      exact fun kv member => absurd member List.not_mem_nil
  | append_singleton calls call ih =>
    obtain ⟨log₁, ran₁, logged⟩ := exists_of_runAll_concat ran
    rw [alwaysUnforged_concat ran, allHarmless_concat ran₁, ← ih ran₁]
    refine and_congr_right fun always => ?_
    exact log_unforged_iff (always calls List.prefix_rfl log₁ ran₁) logged

/-- A log after one call of one thread. -/
theorem runAll_single (hash : Hasher) (sortBuckets : BucketSort 32) (level : Int) (mStream : Bool)
    (thread : Uint32) (ctx : LogArm64CpuContext) : ∃ log tctx,
      runAll hash sortBuckets { mCompressionLevel := level, mStream } [(thread, ctx)] = .ok log ∧
      log.mThreadCtxs.mKeyVals = [(thread, tctx)] ∧ ThreadCtx.write
        { logStream := openStream { mCompressionLevel := level, mStream } thread
          lastCpuCtx := ctx } (.ctx ctx) = some tctx := by
  let entry : ThreadCtx :=
    { logStream := openStream { mCompressionLevel := level, mStream } thread, lastCpuCtx := ctx }
  obtain ⟨tctx, written, -⟩ := entry.writeLogMsg_spec (withinLimits_self ctx)
  have ran : entry.run [.ctx ctx] = some tctx := by
    rw [ThreadCtx.run, List.foldlM_cons, ThreadCtx.write, written]
    rfl
  obtain ⟨log, logged, only⟩ :=
    (@logs_of_run hash sortBuckets level mStream thread (.ctx ctx) [] tctx ran).1
  exact ⟨log, tctx, logged, only, written⟩

theorem alwaysUnforged_iff_zero : ∃ log,
    runAll (jevhash32 0x85EBCA77) stableBucketSort { mCompressionLevel := 3, mStream := false }
      [(1, .zero)] = .ok log ∧
    (AlwaysUnforged (jevhash32 0x85EBCA77) stableBucketSort
        { mCompressionLevel := 3, mStream := false } [(1, .zero)] ↔
      AllHarmless (jevhash32 0x85EBCA77) stableBucketSort
        { mCompressionLevel := 3, mStream := false } [(1, .zero)]) := by
  obtain ⟨log, _, ran, -⟩ := runAll_single (jevhash32 0x85EBCA77) stableBucketSort 3 false 1 .zero
  exact ⟨log, ran, alwaysUnforged_iff ran⟩

/-- The words of the header in `x0` to `x16`. -/
def forgingContext : LogArm64CpuContext :=
  { LogArm64CpuContext.zero with x := .ofFn fun i => syncFrameBufHdr.getD i 0 }

/-- The first sync frame of the thread has a second header in its context. -/
theorem not_syncsUnforged_forgingContext : ∃ log,
    runAll (jevhash32 0x85EBCA77) stableBucketSort { mCompressionLevel := 3, mStream := false }
      [(1, forgingContext)] = .ok log ∧
    ¬ ForallValues ThreadCtx.SyncsUnforged log.mThreadCtxs := by
  obtain ⟨log, tctx, ran, only, written⟩ :=
    runAll_single (jevhash32 0x85EBCA77) stableBucketSort 3 false 1 forgingContext
  refine ⟨log, ran, fun all => ?_⟩
  have unforged : tctx.SyncsUnforged := all (1, tctx) (only ▸ List.mem_singleton_self _)
  have start := carried_syncsUnforged.entered _ forgingContext
    (carried_syncsUnforged.opened { mCompressionLevel := 3, mStream := false } 1)
  have harmless := (start.write_iff written).mp unforged
  have forged : Occurs (wordBytes 8 (0 : Uint64) ++ forgingContext.bytes) syncFrameBufHdrBytes
      (8 + 0x018) := by
    decide +kernel
  exact harmless.1 (by decide) (infix_iff_occurs.mpr ⟨_, forged⟩)

end TraceLog

end XnuTrace
