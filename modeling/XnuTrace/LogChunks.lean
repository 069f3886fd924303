import XnuTrace.SavedThreads
import XnuTrace.ForgedHeaders
import XnuTrace.ThreadPool
import Mathlib.Data.Finset.Max

/-! `log_thread_buf::chunk_into_bins` as far as it goes: the search of a log for sync frames, with
a task for each chunk. What a chunk's entry points to is a place to read the log from, and each
chunk that is long enough has one. -/
namespace XnuTrace
open Memory Framing Occurrences XnuTrace.Frame Stepwise LogMsg

/-- A sync frame and the bytes that may follow it before the next one. -/
def syncSpan : Nat := sizeFullCtx + syncEvery.toNat + sizeMax

/-- The header of a sync frame lies between `a` and `b`. -/
def SyncIn (frames : List Frame) (a b p : Nat) : Prop :=
  StartsSync frames p ∧ a ≤ p ∧ p + syncFrameBufHdrBytes.length ≤ b

/-- The entry of the chunk from `a` to `b`. -/
structure ThreadCtx.Bin (tctx : ThreadCtx) (frames : List Frame) (a b : Nat)
    (entry : Option Nat) : Prop where
  first : First (SyncIn frames a b) entry
  long : a + syncSpan + syncFrameBufHdrBytes.length ≤ b → entry ≠ none
  resumes : ∀ p, entry = some p → ∀ after fuel, tctx.recorded.length < fuel →
    ∃ m pcs ctxs ctxs',
      syncNumInst ⟨tctx.threadBuf.mem after, p⟩ = BitVec.ofNat 64 m ∧
      tctx.threadBuf.replayPcs after fuel 0 = some pcs ∧
      tctx.threadBuf.replayPcs after fuel p = some (pcs.drop m) ∧
      tctx.threadBuf.replayCtxs after fuel 0 = some ctxs ∧
      tctx.threadBuf.replayCtxs after fuel p = some ctxs' ∧
      List.Forall₂ LogArm64CpuContext.SameRegisters ctxs' (ctxs.drop m)

theorem StartsSync.occurs {frames : List Frame} {p : Nat} (starts : StartsSync frames p) :
    Occurs (frames.flatMap bytes) syncFrameBufHdrBytes p := by
  obtain ⟨before, numInst, ctx, after, rfl, rfl⟩ := starts.split
  rw [Occurs, List.flatMap_append, List.drop_left', List.flatMap_cons, Frame.bytes,
    List.append_assoc, List.append_assoc]
  · exact List.prefix_append ..
  · rfl

/-! How far apart sync frames are -/

section
variable {s t : Cursor} {calls : List LogCall} {frames before mid later : List Frame}
  {numInst : Uint64} {ctx : LogArm64CpuContext}

/-- The messages behind a sync frame, up to the next one or to the end of the log. -/
theorem Journal.behind_sync
    (journal : Journal s calls (before ++ .sync numInst ctx :: (mid ++ later)) t)
    (only : ∀ call ∈ calls, ∃ context, call = .ctx context)
    (plain : ∀ f ∈ mid, f.isSync = false)
    (ends : ∀ f ∈ later.head?, f.isSync = true) :
    (mid.flatMap bytes).length < syncEvery.toNat + sizeMax := by
  cases later with
  | nil =>
    rw [List.append_nil] at journal
    obtain ⟨calls₁, calls₂, u, rfl, -, second, -⟩ := journal.cut
    obtain ⟨total, bound⟩ :=
      second.counter_sync (fun call member => only call (List.mem_append_right _ member)) plain
    exact total ▸ bound
  | cons f later =>
    have sync := ends f rfl
    cases f with
    | msg d => cases sync
    | sync numInst' ctx' => exact (journal.between_syncs only plain).2

/-- The messages in front of the next sync frame. -/
theorem exists_messages (frames : List Frame) : ∃ mid later, frames = mid ++ later ∧
    (∀ f ∈ mid, f.isSync = false) ∧ ∀ f ∈ later.head?, f.isSync = true := by
  refine ⟨frames.takeWhile (!·.isSync), frames.dropWhile (!·.isSync),
    List.takeWhile_append_dropWhile.symm, fun f member => ?_, fun f head => ?_⟩
  · simpa using List.all_eq_true.mp List.all_takeWhile f member
  · have sync := List.head?_dropWhile_not (!·.isSync) frames
    rw [head] at sync
    simpa using sync

theorem length_behind : ((before ++ .sync numInst ctx :: mid).flatMap bytes).length =
    (before.flatMap bytes).length + sizeFullCtx + (mid.flatMap bytes).length := by
  rw [List.flatMap_append, List.flatMap_cons, List.length_append, List.length_append,
    length_bytes_sync, Nat.add_assoc]

/-- A stretch of that length has the start of a sync frame. -/
theorem Journal.exists_sync {c : LogArm64CpuContext} {cs : List LogArm64CpuContext}
    (journal : Journal (.first (.ctx c)) ((c :: cs).map .ctx) frames t) {a : Nat}
    (room : a + syncSpan ≤ (frames.flatMap bytes).length) :
    ∃ p, StartsSync frames p ∧ a ≤ p ∧ p < a + syncSpan := by
  classical
  by_contra none
  have none : ∀ p, StartsSync frames p → p < a ∨ a + syncSpan ≤ p := fun p starts => by
    by_contra between
    exact none ⟨p, starts, by omega⟩
  have span : 0 < syncSpan := by decide
  -- the last sync frame that starts before the stretch
  have first : StartsSync frames 0 := by
    obtain ⟨rest, rfl, -⟩ := journal.first_ctx
    exact ⟨[], _, _, rfl, rfl, rfl⟩
  have early : 0 ∈ (Finset.range a).filter (StartsSync frames) :=
    Finset.mem_filter.mpr ⟨Finset.mem_range.mpr ((none 0 first).resolve_right (by omega)), first⟩
  obtain ⟨p, member, greatest⟩ := Finset.exists_max_image _ id ⟨0, early⟩
  obtain ⟨before', starts⟩ := Finset.mem_filter.mp member
  have before' := Finset.mem_range.mp before'
  obtain ⟨before, numInst, ctx, after, rfl, rfl⟩ := starts.split
  obtain ⟨mid, later, rfl, plain, ends⟩ := exists_messages after
  have few := journal.behind_sync (only_ctx (c :: cs)) plain ends
  have length : (before.flatMap bytes).length + sizeFullCtx + (mid.flatMap bytes).length <
      (before.flatMap bytes).length + syncSpan := by
    rw [syncSpan]
    omega
  cases later with
  | nil =>
    rw [List.append_nil, length_behind] at room
    omega
  | cons f later =>
    have next : StartsSync (before ++ .sync numInst ctx :: (mid ++ f :: later))
        ((before ++ .sync numInst ctx :: mid).flatMap bytes).length :=
      ⟨before ++ .sync numInst ctx :: mid, f, later, by simp, ends f rfl, rfl⟩
    rw [length_behind] at next
    have soon := (none _ next).resolve_right (by omega)
    have most := greatest _ (Finset.mem_filter.mpr ⟨Finset.mem_range.mpr soon, next⟩)
    have long : 0 < sizeFullCtx := by decide
    simp only [id] at most
    omega

end

/-! What the tasks find -/

theorem Adjoining.last_le {a b : Nat} {blocks : List (Nat × Nat)}
    (adjoining : Adjoining a b blocks) : a ≤ b ∧ ∀ block ∈ blocks, block.2 ≤ b := by
  induction blocks generalizing a with
  | nil => exact ⟨Nat.le_of_eq adjoining, nofun⟩
  | cons block blocks ih =>
    obtain ⟨-, forwards, rest⟩ := adjoining
    obtain ⟨le, all⟩ := ih rest
    exact ⟨forwards.trans le, List.forall_mem_cons.mpr ⟨le, all⟩⟩

theorem Blocks.last_le {n sz : Nat} (blks : Blocks n sz) (i : Nat) : blks.last i ≤ sz := by
  by_cases block : i < blks.bounds.length
  · rw [Blocks.last, List.getD_eq_getElem _ _ block]
    exact blks.consecutive.last_le.2 _ (List.getElem_mem block)
  · rw [Blocks.last, List.getD_eq_default _ _ (Nat.not_lt.mp block)]
    exact Nat.zero_le sz

section
variable {c : LogArm64CpuContext} {cs : List LogArm64CpuContext} {frames : List Frame} {t : Cursor}
  {tctx : ThreadCtx} (journal : Journal (.first (.ctx c)) ((c :: cs).map .ctx) frames t)
  (recorded : tctx.recorded = frames.flatMap bytes)
include journal recorded

/-- Reading on from a sync frame. -/
theorem StartsSync.resumes {p : Nat} (starts : StartsSync frames p) (after : Nat → Uint8)
    {fuel : Nat} (enough : tctx.recorded.length < fuel) : ∃ m pcs ctxs ctxs',
      syncNumInst ⟨tctx.threadBuf.mem after, p⟩ = BitVec.ofNat 64 m ∧
      tctx.threadBuf.replayPcs after fuel 0 = some pcs ∧
      tctx.threadBuf.replayPcs after fuel p = some (pcs.drop m) ∧
      tctx.threadBuf.replayCtxs after fuel 0 = some ctxs ∧
      tctx.threadBuf.replayCtxs after fuel p = some ctxs' ∧
      List.Forall₂ LogArm64CpuContext.SameRegisters ctxs' (ctxs.drop m) := by
  obtain ⟨before, numInst, ctx, rest, rfl, rfl⟩ := starts.split
  obtain ⟨pcs, ctxs, ctxs', replays⟩ := replay_suffix journal recorded after enough
  refine ⟨(deltas before).length, pcs, ctxs, ctxs', ?_, replays⟩
  have holds := @LogThreadBuf.holds_at tctx.threadBuf _ _ _ _ recorded after
  have here := ((holds_frames Frame.bytes).mp holds).1
  have shown := @Frame.syncNumInst_eq ⟨tctx.threadBuf.mem after, _⟩ _ _ here
  exact shown.trans (journal.resync.1.trans (BitVec.zero_add _))

/-- The occurrences of the header that lie in a chunk are the sync frames in it. -/
theorem bin_of_lies (unforged : tctx.SyncsUnforged) {n : Nat} {blks : Blocks n tctx.recorded.length}
    {i : Nat} {entry : Option Nat}
    (first : First (LiesInChunk tctx.recorded syncFrameBufHdrBytes blks i) entry) :
    tctx.Bin frames (blks.first i) (blks.last i) entry := by
  have only := (ThreadCtx.syncsUnforged_iff recorded).mp unforged
  have size := length_syncFrameBufHdrBytes
  have same : ∀ p, LiesInChunk tctx.recorded syncFrameBufHdrBytes blks i p ↔
      SyncIn frames (blks.first i) (blks.last i) p := by
    intro p
    constructor
    · rintro ⟨⟨-, ⟨low, -⟩, occurs⟩, high⟩
      exact ⟨only p (recorded ▸ occurs), low, high⟩
    · rintro ⟨starts, low, high⟩
      have block : i < blks.numBlocks := by
        by_contra beyond
        rw [Blocks.last, List.getD_eq_default _ _ (Nat.not_lt.mp beyond)] at high
        omega
      exact ⟨⟨block, ⟨low, by omega⟩, recorded ▸ starts.occurs⟩, high⟩
  simp only [First, same] at first
  refine ⟨first, fun long none => ?_, fun p is after fuel enough => ?_⟩
  · have room : blks.first i + syncSpan ≤ (frames.flatMap Frame.bytes).length := by
      have inside := (blks.last_le i).trans_eq (congrArg List.length recorded)
      omega
    obtain ⟨p, starts, low, high⟩ := journal.exists_sync room
    exact (First.none_iff first).mp none p ⟨starts, low, by omega⟩
  · exact ((first p).mp is).1.1.resumes journal recorded after enough

end

/-- In a log without forged headers, of any thread that logs contexts and in either mode, each task
finds the first sync frame of its chunk, in whatever order the tasks run. -/
theorem recorded_chunks {hash : Hasher} {sortBuckets : BucketSort 32} {level : Int} {mStream : Bool}
    {calls : List (Uint32 × LogCall)}
    (keeps : TraceLog.MapKeeps hash sortBuckets { mCompressionLevel := level, mStream } calls)
    {log : TraceLog}
    (ran : TraceLog.runCalls hash sortBuckets { mCompressionLevel := level, mStream } calls =
      .ok log) {thread : Uint32} {cs : List LogArm64CpuContext}
    (contexts : TraceLog.callsOf calls thread = cs.map .ctx) {tctx : ThreadCtx}
    (logged : (thread, tctx) ∈ log.mThreadCtxs.mKeyVals) (unforged : tctx.SyncsUnforged)
    {Q : Type} {queue : TaskQueue Q} {n w : Nat} {blks : Blocks n tctx.recorded.length}
    (small : blks.numBlocks < 2 ^ 64) {acts : List PoolAct} {s : Pool Q (List (Option Nat))}
    (searched : run (Pool.step queue blks.numBlocks w
        (indexedBlock blks (searchChunk tctx.recorded syncFrameBufHdrBytes)))
      (Pool.start queue blks.numBlocks (List.replicate n none)) acts = some s)
    (back : s.caller = .returned) : ∃ frames, tctx.recorded = frames.flatMap Frame.bytes ∧
      ∀ i < n, ∃ entry, s.shared[i]? = some entry ∧
        tctx.Bin frames (blks.first i) (blks.last i) entry := by
  obtain ⟨t, kept⟩ := TraceLog.kept_of_run rfl keeps ran
  have stored := (kept.rep.content thread tctx).mp logged
  have each := kept.each thread
  rw [contexts, stored] at each
  cases cs with
  | nil => cases each
  | cons c cs =>
    obtain ⟨frames, journal, recorded⟩ := ThreadCtx.journal_of_run each.symm
    rw [TraceLog.recorded_opened, List.nil_append] at recorded
    have nonempty : tctx.recorded ≠ [] := by
      obtain ⟨rest, rfl, -⟩ := journal.first_ctx
      rw [recorded, List.flatMap_cons]
      exact List.append_ne_nil_of_left_ne_nil (List.ne_nil_of_length_pos (length_bytes_pos _)) _
    have needle : syncFrameBufHdrBytes ≠ [] :=
      List.ne_nil_of_length_eq_add_one length_syncFrameBufHdrBytes
    refine ⟨frames, recorded, fun i inside => ?_⟩
    rw [searchChunks_sequential small nonempty searched back (List.Perm.refl _)]
    obtain ⟨entry, is, first⟩ := chunkIntoBinsByNeedle_lies needle (List.Perm.refl _) inside
    exact ⟨entry, is, bin_of_lies journal recorded unforged first⟩

/-- In two chunks. -/
def inTwo (sz : Nat) : Blocks 2 sz where
  bounds := [(0, sz / 2), (sz / 2, sz)]
  few := le_rfl
  consecutive := ⟨rfl, Nat.zero_le _, rfl, Nat.div_le_self .., rfl⟩

/-- Two threads in turn. -/
def chunkCalls : List (Uint32 × LogCall) :=
  [(0x20103, .ctx .zero), (0xa0103, .ctx { LogArm64CpuContext.zero with sp := 0x16fdff000 }),
    (0x20103, .ctx { LogArm64CpuContext.zero with pc := 8 })]

theorem harmless_zero {tctx : ThreadCtx} {ctx : LogArm64CpuContext}
    (last : tctx.lastCpuCtx = .zero) (few : tctx.numInst = 0 ∨ tctx.numInst = 1)
    (values : changedValues .zero ctx ≠ syncFrameBufHdrBytes)
    (none : (changedGprs .zero ctx).getD 0 0 ≠ 17) : tctx.Harmless ctx := by
  have zeros : ¬ syncFrameBufHdrBytes <:+:
      wordBytes 8 (0 : Uint64) ++ LogArm64CpuContext.zero.bytes := by decide +kernel
  have one : ¬ syncFrameBufHdrBytes <:+:
      wordBytes 8 (1 : Uint64) ++ LogArm64CpuContext.zero.bytes := by decide +kernel
  rw [ThreadCtx.Harmless, last]
  refine ⟨fun _ => ?_, values, fun seam => none seam.2.1⟩
  rcases few with few | few
  · exact few ▸ zeros
  · exact few ▸ one

/-- A thread that goes on from a context of zeros. -/
theorem syncsUnforged_zero {start : TraceLog} {thread : Uint32} {c ctx : LogArm64CpuContext}
    (zero : c = .zero) {tctx : ThreadCtx} (values : changedValues .zero ctx ≠ syncFrameBufHdrBytes)
    (quiet : (changedGprs .zero ctx).getD 0 0 ≠ 17)
    (ran : start.alone thread [.ctx c, .ctx ctx] = some tctx) : tctx.SyncsUnforged := by
  obtain ⟨t₁, first, rest⟩ := Option.bind_eq_some_iff.mp ran
  obtain ⟨_, second, same⟩ := Option.bind_eq_some_iff.mp rest
  cases same
  have fresh := TraceLog.carried_syncsUnforged.entered _ c
    (TraceLog.carried_syncsUnforged.opened start thread)
  obtain ⟨_, written, -, cursor⟩ := ThreadCtx.writeLogMsg_spec
    { logStream := start.openStream thread, lastCpuCtx := c } (withinLimits_self c)
  cases first.symm.trans written
  have last : t₁.lastCpuCtx = c := congrArg Cursor.last cursor
  have num : t₁.numInst = 1 := congrArg Cursor.numInst cursor
  have unforged := (fresh.write_iff first).mpr (by
    subst zero
    exact harmless_zero rfl (.inl rfl) (by decide +kernel) (by decide +kernel))
  exact (unforged.write_iff second).mpr (harmless_zero (last.trans zero) (.inr num) values quiet)

theorem recorded_chunks_two : ∃ log tctx, ∃ s : Pool (List Nat) (List (Option Nat)),
    TraceLog.runCalls (jevhash32 0x85EBCA77) stableBucketSort
      { mCompressionLevel := 3, mStream := false } chunkCalls = .ok log ∧
    (0x20103, tctx) ∈ log.mThreadCtxs.mKeyVals ∧
    run (Pool.step .fifo 2 2 (indexedBlock (inTwo tctx.recorded.length)
        (searchChunk tctx.recorded syncFrameBufHdrBytes)))
      (Pool.start .fifo 2 [none, none]) twoSearches = some s ∧
    ∃ frames, tctx.recorded = frames.flatMap Frame.bytes ∧ ∀ i < 2, ∃ entry,
      s.shared[i]? = some entry ∧ tctx.Bin frames ((inTwo tctx.recorded.length).first i)
        ((inTwo tctx.recorded.length).last i) entry := by
  have keeps : TraceLog.MapKeeps (jevhash32 0x85EBCA77) stableBucketSort
      { mCompressionLevel := 3, mStream := false } chunkCalls := by decide +kernel
  have completed : (TraceLog.runCalls (jevhash32 0x85EBCA77) stableBucketSort
      { mCompressionLevel := 3, mStream := false } chunkCalls).isOk = true := by decide +kernel
  cases ran : TraceLog.runCalls (jevhash32 0x85EBCA77) stableBucketSort
      { mCompressionLevel := 3, mStream := false } chunkCalls with
  | error e =>
    rw [ran] at completed
    cases completed
  | ok log =>
    obtain ⟨t, kept⟩ := TraceLog.kept_of_run rfl keeps ran
    have some' : TraceLog.callsOf chunkCalls 0x20103 ≠ [] := List.cons_ne_nil _ _
    obtain ⟨tctx, stored⟩ := Option.isSome_iff_exists.mp (kept.some 0x20103 some')
    have logged := (kept.rep.content 0x20103 tctx).mpr stored
    have values : changedValues .zero { LogArm64CpuContext.zero with pc := 8 } ≠
        syncFrameBufHdrBytes := by decide +kernel
    have quiet : (changedGprs .zero { LogArm64CpuContext.zero with pc := 8 }).getD 0 0 ≠ 17 := by
      decide +kernel
    have own : TraceLog.callsOf chunkCalls 0x20103 =
        [LogArm64CpuContext.zero, { LogArm64CpuContext.zero with pc := 8 }].map .ctx := rfl
    have each := kept.each 0x20103
    rw [own, stored] at each
    have unforged := syncsUnforged_zero rfl values quiet each.symm
    have single : ∀ i, (indexedBlock (inTwo tctx.recorded.length)
        (searchChunk tctx.recorded syncFrameBufHdrBytes) i).length = 1 := fun _ => rfl
    obtain ⟨s, searched, back⟩ :=
      Option.map_eq_some_iff.mp (twoSearches_returned single [none, none])
    have small : (inTwo tctx.recorded.length).numBlocks < 2 ^ 64 := by
      change 2 < 2 ^ 64
      decide
    exact ⟨log, tctx, s, rfl, logged, searched,
      recorded_chunks keeps ran own logged unforged small searched back⟩

end XnuTrace
