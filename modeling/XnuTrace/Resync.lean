import XnuTrace.RecordedFrames

/-! Reading a log from a sync frame in its middle. The frame shows the writer's state, so
both replays from it are suffixes of the replays from the start; the byte counter bounds
what lies between two sync frames. -/
namespace XnuTrace
open Memory Framing XnuTrace.Frame

namespace LogThreadBuf
variable (buf : LogThreadBuf) (after : Nat → Uint8) (fuel ptr : Nat)

/-- `pc_iterator` from the sync frame at `ptr` to the end. -/
def replayPcs : Option (List Uint64) :=
  (LogMsg.syncCtx ⟨buf.mem after, ptr⟩).bind fun syncCtx =>
    collect (·.atEnd) (PcIterator.next (buf.mem after)) PcIterator.mPc fuel
      { mPtr := ptr, mEnd := buf.mBuf.length, mPc := syncCtx.pc }

/-- `ctx_iterator` from the sync frame at `ptr` to the end, with its context to start from. -/
def replayCtxs : Option (List LogArm64CpuContext) :=
  (LogMsg.syncCtx ⟨buf.mem after, ptr⟩).bind fun syncCtx =>
    collect (·.atEnd) (CtxIterator.next (buf.mem after)) CtxIterator.mCtx fuel
      { mPtr := ptr, mEnd := buf.mBuf.length, mCtx := syncCtx }

end LogThreadBuf

theorem Frame.Spaced.suffix {f : Frame} {before rest : List Frame}
    (spaced : Spaced (before ++ f :: rest)) : Spaced rest := by
  induction before with
  | nil => exact spaced.tail
  | cons g before ih => exact ih spaced.tail

section
variable {buf : LogThreadBuf} {before rest : List Frame} {numInst : Uint64}
  {ctx : LogArm64CpuContext}
  (recorded : buf.mBuf = (before ++ .sync numInst ctx :: rest).flatMap bytes)
include recorded

theorem LogThreadBuf.holds_at (after : Nat → Uint8) : Holds (buf.mem after)
    (before.flatMap bytes).length ((Frame.sync numInst ctx :: rest).flatMap bytes) := by
  have whole := LogThreadBuf.holds_mem recorded after
  rw [List.flatMap_append] at whole
  exact Nat.zero_add (before.flatMap bytes).length ▸ ((holds_append _ _ _ _).mp whole).2

theorem LogThreadBuf.replay_eq (spaced : Spaced rest) (after : Nat → Uint8) {fuel : Nat}
    (enough : buf.mBuf.length < fuel) :
    buf.replayPcs after fuel (before.flatMap bytes).length =
      some ((deltas rest).scanl (fun pc d => d.nextPc pc) ctx.pc) ∧
    buf.replayCtxs after fuel (before.flatMap bytes).length =
      some ((deltas rest).scanl (fun c d => d.apply c) ctx) := by
  have holds := LogThreadBuf.holds_at recorded after
  have shown := @Frame.syncCtx_eq ⟨buf.mem after, _⟩ _ _ ((holds_frames bytes).mp holds).1
  have ends : buf.mBuf.length = (before.flatMap bytes).length +
      ((Frame.sync numInst ctx :: rest).flatMap bytes).length := by
    rw [recorded, List.flatMap_append, List.length_append]
  have remaining : Remaining (buf.mem after)
      { mPtr := (before.flatMap bytes).length, mEnd := buf.mBuf.length } (deltas rest) :=
    ⟨_, rest, ⟨holds, ends, spaced⟩, rfl⟩
  have few : (deltas rest).length < fuel := by
    have short := length_deltas_le rest
    rw [ends, List.flatMap_cons, List.length_append] at enough
    omega
  rw [LogThreadBuf.replayPcs, LogThreadBuf.replayCtxs, shown, Option.bind_some, Option.bind_some]
  exact ⟨PcIterator.collect_eq remaining few, CtxIterator.collect_eq remaining few⟩

end

theorem drop_contexts (last : LogArm64CpuContext) (calls₁ calls₂ : List LogCall) :
    (contexts last (calls₁ ++ calls₂)).drop calls₁.length =
      contexts (calls₁.foldl LogCall.next last) calls₂ := by
  induction calls₁ generalizing last with
  | nil => rfl
  | cons call calls₁ ih =>
    rw [contexts, List.cons_append, List.scanl_cons, List.length_cons, List.drop_succ_cons]
    exact ih (call.next last)

theorem forall₂_sameRegisters {as bs cs : List LogArm64CpuContext}
    (left : List.Forall₂ LogArm64CpuContext.SameRegisters as cs)
    (right : List.Forall₂ LogArm64CpuContext.SameRegisters bs cs) :
    List.Forall₂ LogArm64CpuContext.SameRegisters as bs := by
  induction left generalizing bs with
  | nil =>
    cases right
    exact .nil
  | cons same _ ih =>
    cases right with
    | cons same' rest => exact .cons (same.trans same'.symm) (ih rest)

/-- A sync frame and what follows it, against the whole journal. -/
theorem Journal.resync {s t : Cursor} {calls : List LogCall} {before rest : List Frame}
    {numInst : Uint64} {ctx : LogArm64CpuContext}
    (journal : Journal s calls (before ++ .sync numInst ctx :: rest) t) :
    numInst = s.numInst + BitVec.ofNat 64 (deltas before).length ∧
    (contexts s.last calls)[(deltas before).length]? = some ctx ∧
    (deltas rest).scanl (fun pc d => d.nextPc pc) ctx.pc =
      ((contexts s.last calls).map (·.pc)).drop (deltas before).length ∧
    List.Forall₂ LogArm64CpuContext.SameRegisters
      ((deltas rest).scanl (fun c d => d.apply c) ctx)
      ((contexts s.last calls).drop (deltas before).length) := by
  obtain ⟨calls₁, calls₂, u, rfl, first, second, rfl, rfl, _⟩ := journal.cut
  have suffix := drop_contexts s.last calls₁ calls₂
  rw [← first.last_eq] at suffix
  rw [first.length_deltas]
  refine ⟨first.numInst_eq, ?_, ?_, ?_⟩
  · rw [← List.head?_drop, suffix, contexts, List.head?_scanl]
  · rw [← List.map_drop, suffix]
    exact second.nextPc_eq
  · rw [suffix]
    exact second.apply_same (.refl _)

/-! The byte counter. -/

theorem Cursor.synced_lt (s : Cursor) : s.synced.toNat < syncEvery.toNat := by
  unfold Cursor.synced
  split
  · decide
  · exact BitVec.lt_def.mp (BitVec.not_le.mp ‹_›)

/-- The 32-bit counter never wraps. -/
theorem Cursor.sz_afterCtx (s : Cursor) (context : LogArm64CpuContext) (d : Delta) :
    (s.afterCtx context d).sz.toNat = s.synced.toNat + d.bytes.length ∧
      (s.afterCtx context d).sz.toNat < syncEvery.toNat + LogMsg.sizeMax := by
  have under := s.synced_lt
  have small := d.length_bytes_le
  have every : syncEvery.toNat = 1048576 := rfl
  have most : LogMsg.sizeMax = 144 := rfl
  have sum : (s.afterCtx context d).sz.toNat = s.synced.toNat + d.bytes.length := by
    change (s.synced + BitVec.ofNat 32 d.bytes.length).toNat = _
    rw [BitVec.toNat_add, BitVec.toNat_ofNat, Nat.mod_eq_of_lt (b := 2 ^ 32) (by omega),
      Nat.mod_eq_of_lt (by omega)]
  exact ⟨sum, by omega⟩

section
variable {s t : Cursor} {calls : List LogCall} {frames : List Frame}

/-- Between sync frames the counter has every byte, and stays below the bound. -/
theorem Journal.counter (journal : Journal s calls frames t)
    (only : ∀ call ∈ calls, ∃ context, call = .ctx context)
    (plain : ∀ f ∈ frames, f.isSync = false)
    (below : s.sz.toNat < syncEvery.toNat + LogMsg.sizeMax) :
    t.sz.toNat = s.sz.toNat + (frames.flatMap bytes).length ∧
      t.sz.toNat < syncEvery.toNat + LogMsg.sizeMax := by
  induction journal with
  | done s => exact ⟨rfl, below⟩
  | pc _ _ =>
    obtain ⟨context, same⟩ := only _ List.mem_cons_self
    cases same
  | @ctx s t context calls frames fits _ ih =>
    have notDue : ¬s.sz ≥ syncEvery := by
      intro due
      have dueFrames : s.due = [.sync s.numInst s.last] := if_pos due
      rw [dueFrames] at plain
      exact Bool.noConfusion (plain _ List.mem_cons_self)
    have none : s.due = [] := if_neg notDue
    have kept : s.synced = s.sz := if_neg notDue
    obtain ⟨next, bound⟩ := s.sz_afterCtx context (.between s.last context fits)
    rw [kept] at next
    rw [none, List.nil_append] at plain
    obtain ⟨total, bound⟩ := ih (fun call h => only call (List.mem_cons_of_mem _ h))
      (fun f h => plain f (List.mem_cons_of_mem _ h)) bound
    refine ⟨?_, bound⟩
    rw [total, next, none, List.nil_append, List.flatMap_cons, List.length_append, Nat.add_assoc]
    rfl

/-- `write_sync` resets the counter. -/
theorem Journal.counter_sync {numInst : Uint64} {ctx : LogArm64CpuContext}
    (journal : Journal s calls (.sync numInst ctx :: frames) t)
    (only : ∀ call ∈ calls, ∃ context, call = .ctx context)
    (plain : ∀ f ∈ frames, f.isSync = false) :
    t.sz.toNat = (frames.flatMap bytes).length ∧
      t.sz.toNat < syncEvery.toNat + LogMsg.sizeMax := by
  generalize whole : Frame.sync numInst ctx :: frames = all at journal
  cases journal with
  | done => cases whole
  | pc => cases whole
  | @ctx _ _ context calls later fits rest =>
    by_cases due : s.sz ≥ syncEvery
    · have dueFrames : s.due = [.sync s.numInst s.last] := if_pos due
      have reset : s.synced = 0 := if_pos due
      rw [dueFrames, List.cons_append, List.nil_append, List.cons.injEq] at whole
      obtain ⟨_, rfl⟩ := whole
      obtain ⟨start, bound⟩ := s.sz_afterCtx context (.between s.last context fits)
      rw [reset] at start
      obtain ⟨total, bound⟩ := rest.counter (fun call h => only call (List.mem_cons_of_mem _ h))
        (fun f h => plain f (List.mem_cons_of_mem _ h)) bound
      refine ⟨?_, bound⟩
      rw [total, start, List.flatMap_cons, List.length_append]
      exact congrArg (· + _) (Nat.zero_add _)
    · have dueFrames : s.due = [] := if_neg due
      rw [dueFrames] at whole
      cases whole

/-- The messages between two sync frames. -/
theorem Journal.between_syncs {before mid later : List Frame} {n n' : Uint64}
    {c c' : LogArm64CpuContext}
    (journal : Journal s calls (before ++ .sync n c :: (mid ++ .sync n' c' :: later)) t)
    (only : ∀ call ∈ calls, ∃ context, call = .ctx context)
    (plain : ∀ f ∈ mid, f.isSync = false) :
    syncEvery.toNat ≤ (mid.flatMap bytes).length ∧
      (mid.flatMap bytes).length < syncEvery.toNat + LogMsg.sizeMax := by
  rw [← List.cons_append, ← List.append_assoc] at journal
  obtain ⟨calls₁, calls₂, u, rfl, first, _, _, _, due⟩ := journal.cut
  obtain ⟨calls₃, calls₄, w, rfl, _, second, _, _, _⟩ := first.cut
  obtain ⟨total, bound⟩ := second.counter_sync
    (fun call h => only call (by simp [h])) plain
  rw [← total]
  exact ⟨BitVec.le_def.mp due, bound⟩

end

/-- A log that is long enough has a second sync frame. -/
theorem Journal.second_sync {s t : Cursor} {calls : List LogCall} {frames : List Frame}
    {numInst : Uint64} {ctx : LogArm64CpuContext}
    (journal : Journal s calls (.sync numInst ctx :: frames) t)
    (only : ∀ call ∈ calls, ∃ context, call = .ctx context)
    (many : syncEvery.toNat + LogMsg.sizeMax ≤ calls.length) :
    ∃ f ∈ frames, f.isSync = true := by
  by_contra none
  have plain : ∀ f ∈ frames, f.isSync = false := fun f member =>
    Bool.eq_false_iff.mpr fun sync => none ⟨f, member, sync⟩
  obtain ⟨total, bound⟩ := journal.counter_sync only plain
  have messages := journal.length_deltas
  have short := length_deltas_le frames
  rw [deltas_sync] at messages
  omega

theorem only_ctx (cs : List LogArm64CpuContext) :
    ∀ call ∈ cs.map LogCall.ctx, ∃ context, call = .ctx context := by
  intro call member
  obtain ⟨context, _, rfl⟩ := List.mem_map.mp member
  exact ⟨context, rfl⟩

section
variable {mem : Nat → Uint8} {p : Nat} {fs : List Frame} (holds : Holds mem p (fs.flatMap bytes))
include holds

theorem map_isSyncFrame : (starts bytes p fs).map (fun q => LogMsg.isSyncFrame ⟨mem, q⟩) =
    fs.map isSync :=
  map_starts bytes (fun f q here => @isSyncFrame_eq ⟨mem, q⟩ f here) holds

theorem sum_sizes : ((starts bytes p fs).map fun q => LogMsg.size ⟨mem, q⟩).sum =
    (fs.flatMap bytes).length := by
  rw [List.length_flatMap,
    map_starts bytes (fun f q here => @size_eq ⟨mem, q⟩ f here) holds]

theorem isSync_of_starts (plain : ∀ q ∈ starts bytes p fs, LogMsg.isSyncFrame ⟨mem, q⟩ = false) :
    ∀ f ∈ fs, f.isSync = false := by
  intro f member
  have flag : f.isSync ∈ (starts bytes p fs).map fun q => LogMsg.isSyncFrame ⟨mem, q⟩ := by
    rw [map_isSyncFrame holds]
    exact List.mem_map_of_mem member
  obtain ⟨q, found, same⟩ := List.mem_map.mp flag
  rw [← same, plain q found]

end

/-- Both replays from a sync frame are suffixes of those from the start. -/
theorem replay_suffix {c ctx : LogArm64CpuContext} {calls : List LogCall} {before rest : List Frame}
    {numInst : Uint64} {t : Cursor} {tctx : ThreadCtx}
    (journal : Journal (.first (.ctx c)) (.ctx c :: calls) (before ++ .sync numInst ctx :: rest) t)
    (recorded : tctx.recorded = (before ++ .sync numInst ctx :: rest).flatMap bytes)
    (after : Nat → Uint8) {fuel : Nat} (enough : tctx.recorded.length < fuel) :
    ∃ pcs ctxs ctxs', tctx.threadBuf.replayPcs after fuel 0 = some pcs ∧
      tctx.threadBuf.replayPcs after fuel (before.flatMap bytes).length =
        some (pcs.drop (deltas before).length) ∧
      tctx.threadBuf.replayCtxs after fuel 0 = some ctxs ∧
      tctx.threadBuf.replayCtxs after fuel (before.flatMap bytes).length = some ctxs' ∧
      List.Forall₂ LogArm64CpuContext.SameRegisters ctxs' (ctxs.drop (deltas before).length) := by
  obtain ⟨pcsFrom, ctxsFrom⟩ :=
    @LogThreadBuf.replay_eq tctx.threadBuf _ _ _ _ recorded journal.spaced.suffix after _ enough
  obtain ⟨_, _, pcs, ctxs⟩ := journal.resync
  have all := journal.nextPc_eq
  have regs := journal.apply_same (.refl _)
  obtain ⟨rest₀, whole, _⟩ := journal.first_ctx
  rw [whole] at all regs recorded
  obtain ⟨pcs₀, ctxs₀⟩ := @LogThreadBuf.replay_eq tctx.threadBuf [] _ _ _ recorded
    (whole ▸ journal.spaced).tail after _ enough
  refine ⟨_, _, _, pcs₀, ?_, ctxs₀, ctxsFrom, ?_⟩
  · rw [pcsFrom, pcs, ← all]
    rfl
  · exact forall₂_sameRegisters ctxs (List.forall₂_drop _ regs)

section
variable {c : LogArm64CpuContext} {cs : List LogArm64CpuContext} {frames : List Frame} {t : Cursor}
  (journal : Journal (.first (.ctx c)) ((c :: cs).map .ctx) frames t)
include journal

/-- What a sync frame shows, and what is replayed from it. -/
theorem resync_at {tctx : ThreadCtx} (recorded : tctx.recorded = frames.flatMap bytes)
    (after : Nat → Uint8) {before : List Nat} {p : Nat} {later : List Nat}
    (split : starts bytes 0 frames = before ++ p :: later) :
    let mem := tctx.threadBuf.mem after
    let isSync := fun p => LogMsg.isSyncFrame ⟨mem, p⟩
    Holds mem 0 (frames.flatMap bytes) → isSync p = true →
    let m := (before.map isSync).count false
    LogMsg.syncNumInst ⟨mem, p⟩ = BitVec.ofNat 64 m ∧
      LogMsg.syncCtx ⟨mem, p⟩ = (c :: c :: cs)[m]? ∧
      ∀ fuel, tctx.recorded.length < fuel → ∃ pcs ctxs ctxs',
        tctx.threadBuf.replayPcs after fuel 0 = some pcs ∧
        tctx.threadBuf.replayPcs after fuel p = some (pcs.drop m) ∧
        tctx.threadBuf.replayCtxs after fuel 0 = some ctxs ∧
        tctx.threadBuf.replayCtxs after fuel p = some ctxs' ∧
        List.Forall₂ LogArm64CpuContext.SameRegisters ctxs' (ctxs.drop m) := by
  intro mem isSync holds sync
  have logged : contexts (Cursor.first (.ctx c)).last ((c :: cs).map .ctx) = c :: c :: cs :=
    contexts_ctx c (c :: cs)
  obtain ⟨as, f, bs, rfl, rfl, rfl, rfl⟩ := starts_eq_append_cons bytes split
  rw [List.flatMap_append, holds_append] at holds
  have here := ((holds_frames bytes).mp holds.2).1
  obtain ⟨numInst, ctx, rfl⟩ := @eq_sync_of_isSyncFrame ⟨mem, _⟩ f here sync
  obtain ⟨num, shown, _⟩ := journal.resync
  rw [map_isSyncFrame holds.1, count_isSync]
  refine ⟨?_, ?_, fun fuel enough => ?_⟩
  · rw [@Frame.syncNumInst_eq ⟨mem, _⟩ _ _ here, num]
    exact BitVec.zero_add _
  · rw [@Frame.syncCtx_eq ⟨mem, _⟩ _ _ here, ← shown, logged]
  · rw [Nat.zero_add]
    exact replay_suffix journal recorded after enough

/-- The bytes between a sync frame and the next. -/
theorem sum_between {mem : Nat → Uint8} (holds : Holds mem 0 (frames.flatMap bytes))
    {before mid later : List Nat} {p q : Nat}
    (split : starts bytes 0 frames = before ++ p :: (mid ++ q :: later))
    (syncP : LogMsg.isSyncFrame ⟨mem, p⟩ = true) (syncQ : LogMsg.isSyncFrame ⟨mem, q⟩ = true)
    (plain : ∀ r ∈ mid, LogMsg.isSyncFrame ⟨mem, r⟩ = false) :
    let total := (mid.map fun r => LogMsg.size ⟨mem, r⟩).sum
    syncEvery.toNat ≤ total ∧ total < syncEvery.toNat + LogMsg.sizeMax := by
  obtain ⟨as, f, bs, rfl, rfl, rfl, split'⟩ := starts_eq_append_cons bytes split
  obtain ⟨as', g, bs', rfl, rfl, rfl, rfl⟩ := starts_eq_append_cons bytes split'.symm
  rw [List.flatMap_append, holds_append, holds_frames, List.flatMap_append, holds_append,
    holds_frames] at holds
  obtain ⟨_, first, between, second, _⟩ := holds
  obtain ⟨numInst, ctx, rfl⟩ := @eq_sync_of_isSyncFrame ⟨mem, _⟩ f first syncP
  obtain ⟨numInst', ctx', rfl⟩ := @eq_sync_of_isSyncFrame ⟨mem, _⟩ g second syncQ
  intro total
  rw [show total = _ from sum_sizes between]
  exact journal.between_syncs (only_ctx (c :: cs)) (isSync_of_starts between plain)

end

section
variable (hash : Hasher) (sortBuckets : BucketSort 32) (mCompressionLevel : Int) (mStream : Bool)
  (thread : Uint32) {c : LogArm64CpuContext} {cs : List LogArm64CpuContext}

/-- Behind `m` messages a sync frame shows the count and the context that the last of
them left; the first frame shows the first context itself. -/
theorem recorded_resync (fit : (c :: cs).IsChain WithinLimits) :
    ∃ tctx addrs, TraceLog.Logs hash sortBuckets mCompressionLevel mStream thread
        ((c :: cs).map .ctx) tctx ∧ ∀ after,
      let mem := tctx.threadBuf.mem after
      let isSync := fun p => LogMsg.isSyncFrame ⟨mem, p⟩
      (∀ fuel, tctx.recorded.length ≤ fuel →
        walk (fun p => LogMsg.size ⟨mem, p⟩) tctx.recorded.length fuel 0 = some addrs) ∧
      (∀ before p later, addrs = before ++ p :: later → isSync p = true →
        let m := (before.map isSync).count false
        LogMsg.syncNumInst ⟨mem, p⟩ = BitVec.ofNat 64 m ∧
        LogMsg.syncCtx ⟨mem, p⟩ = (c :: c :: cs)[m]? ∧
        ∀ fuel, tctx.recorded.length < fuel → ∃ pcs ctxs ctxs',
          tctx.threadBuf.replayPcs after fuel 0 = some pcs ∧
          tctx.threadBuf.replayPcs after fuel p = some (pcs.drop m) ∧
          tctx.threadBuf.replayCtxs after fuel 0 = some ctxs ∧
          tctx.threadBuf.replayCtxs after fuel p = some ctxs' ∧
          List.Forall₂ LogArm64CpuContext.SameRegisters ctxs' (ctxs.drop m)) ∧
      ∀ before p mid q later, addrs = before ++ p :: (mid ++ q :: later) →
        isSync p = true → isSync q = true → (∀ r ∈ mid, isSync r = false) →
        let total := (mid.map fun r => LogMsg.size ⟨mem, r⟩).sum
        syncEvery.toNat ≤ total ∧ total < syncEvery.toNat + LogMsg.sizeMax := by
  obtain ⟨tctx, frames, logs, journal, recorded⟩ :=
    TraceLog.logs_journal hash sortBuckets mCompressionLevel mStream thread (callsFit_first fit)
  refine ⟨tctx, starts bytes 0 frames, logs, fun after => ?_⟩
  intro mem isSync
  have holds : Holds mem 0 (frames.flatMap bytes) :=
    @LogThreadBuf.holds_mem tctx.threadBuf frames recorded after
  refine ⟨fun fuel enough => ?_, fun before p later split sync => ?_,
    fun before p mid q later split syncP syncQ plain => ?_⟩
  · refine walk_eq_starts holds (fun f q here => @size_eq ⟨mem, q⟩ f here) length_bytes_pos ?_ ?_
    · rw [recorded, Nat.zero_add]
    · exact (length_le_flatMap bytes length_bytes_pos frames).trans (recorded ▸ enough)
  · exact resync_at journal recorded after split holds sync
  · exact sum_between journal holds split syncP syncQ plain

/-- A log of so many contexts has a second sync frame. -/
theorem exists_second_sync (fit : (c :: cs).IsChain WithinLimits)
    (many : syncEvery.toNat + LogMsg.sizeMax ≤ cs.length) {tctx : ThreadCtx}
    (logs : TraceLog.Logs hash sortBuckets mCompressionLevel mStream thread ((c :: cs).map .ctx)
      tctx) {after : Nat → Uint8} {addrs : List Nat}
    (walked : walk (fun p => LogMsg.size ⟨tctx.threadBuf.mem after, p⟩) tctx.recorded.length
      tctx.recorded.length 0 = some addrs) :
    ∃ before p later, addrs = before ++ p :: later ∧ before ≠ [] ∧
      LogMsg.isSyncFrame ⟨tctx.threadBuf.mem after, p⟩ = true := by
  obtain ⟨tctx', frames, logs', journal, recorded⟩ :=
    TraceLog.logs_journal hash sortBuckets mCompressionLevel mStream thread (callsFit_first fit)
  obtain rfl := logs.unique logs'
  have holds : Holds (tctx.threadBuf.mem after) 0 (frames.flatMap bytes) :=
    @LogThreadBuf.holds_mem tctx.threadBuf frames recorded after
  have ends : 0 + (frames.flatMap bytes).length = tctx.recorded.length := by
    rw [recorded, Nat.zero_add]
  have enough : frames.length ≤ tctx.recorded.length := by
    rw [recorded]
    exact length_le_flatMap bytes length_bytes_pos frames
  have all := walk_eq_starts holds
    (fun f q here => @size_eq ⟨tctx.threadBuf.mem after, q⟩ f here) length_bytes_pos ends enough
  obtain rfl := Option.some.inj (walked.symm.trans all)
  -- the flags of the frames are read off the log
  have flags := map_isSyncFrame holds
  obtain ⟨rest, rfl, -⟩ := journal.first_ctx
  obtain ⟨f, member, sync⟩ := journal.second_sync (only_ctx (c :: cs)) (by simp; omega)
  obtain ⟨mid, later, whole⟩ := List.append_of_mem member
  rw [whole, ← List.cons_append, List.map_append, List.map_cons (l := later), sync] at flags
  obtain ⟨before, behind, split, earlier, here⟩ := List.map_eq_append_iff.mp flags
  obtain ⟨p, later', rfl, flag, -⟩ := List.map_eq_cons_iff.mp here
  refine ⟨before, p, later', whole ▸ split, ?_, flag⟩
  rintro rfl
  cases earlier

/-- One context over and over, for more than a megabyte. -/
theorem recorded_resync_long :
    let cs := List.replicate (2 ^ 21) LogArm64CpuContext.zero
    ∃ tctx addrs before p later, TraceLog.Logs (jevhash32 0x85EBCA77) stableBucketSort 0 false 0x103
        ((.zero :: cs).map .ctx) tctx ∧ addrs = before ++ p :: later ∧ before ≠ [] ∧
      let isSync := fun p => LogMsg.isSyncFrame ⟨tctx.threadBuf.mem fun _ => 0, p⟩
      let m := (before.map isSync).count false
      isSync p = true ∧
      LogMsg.syncNumInst ⟨tctx.threadBuf.mem fun _ => 0, p⟩ = BitVec.ofNat 64 m ∧
      LogMsg.syncCtx ⟨tctx.threadBuf.mem fun _ => 0, p⟩ = (.zero :: .zero :: cs)[m]? := by
  intro cs
  have chain : ∀ n, (LogArm64CpuContext.zero :: List.replicate n .zero).IsChain WithinLimits := by
    intro n
    rw [← List.replicate_succ]
    exact List.isChain_replicate_of_rel (n + 1) (withinLimits_self .zero)
  have many : syncEvery.toNat + LogMsg.sizeMax ≤ cs.length := by
    rw [List.length_replicate]
    decide
  obtain ⟨tctx, addrs, logs, resync⟩ := recorded_resync (jevhash32 0x85EBCA77) stableBucketSort 0
    false 0x103 (chain (2 ^ 21))
  obtain ⟨walked, shown, -⟩ := resync fun _ => 0
  obtain ⟨before, p, later, split, earlier, sync⟩ :=
    exists_second_sync _ _ _ _ _ (chain _) many logs (walked _ le_rfl)
  obtain ⟨num, ctx, -⟩ := shown before p later split sync
  exact ⟨tctx, addrs, before, p, later, logs, split, earlier, sync, num, ctx⟩

end

end XnuTrace
