import XnuTrace.Replay

/-! The recorded bytes of a thread as a sequence of frames: when a reader accepts them
and that it finds exactly the frames that were written. -/
namespace XnuTrace
open Memory Framing XnuTrace.Frame

/-- Every reader accepts the buffer. -/
structure LogThreadBuf.Readable (buf : LogThreadBuf) (after : Nat → Uint8) (data : Uint64)
    (stack : Nat → Uint8) : Prop where
  begins : ∃ numInst ctx rest, buf.mBuf = (Frame.sync numInst ctx).bytes ++ rest
  front : (buf.front after).isSome
  ctxBegin : (buf.ctxBegin after data stack).isSome
  pcsBegin : (buf.pcsBegin after).isSome
  scan : ∃ fuel, (buf.extractPcsFromTrace after fuel).isSome

section
variable {frames : List Frame} {t : Cursor} {tctx : ThreadCtx}

theorem readable_first_ctx {c : LogArm64CpuContext} {calls : List LogCall}
    (journal : Journal (.first (.ctx c)) (.ctx c :: calls) frames t)
    (recorded : tctx.recorded = frames.flatMap bytes) (after : Nat → Uint8) (data : Uint64)
    (stack : Nat → Uint8) : tctx.threadBuf.Readable after data stack := by
  obtain ⟨_, front, pcs⟩ := remaining_first journal recorded after
  have scan := extractPcs_eq journal recorded after (Nat.lt_succ_self _)
  obtain ⟨rest, rfl, _⟩ := journal.first_ctx
  constructor
  · exact ⟨0, c, _, recorded⟩
  · rw [front, Option.isSome_some]
  · rw [LogThreadBuf.ctxBegin, front, Option.map_some, Option.isSome_some]
  · rw [pcs, Option.isSome_some]
  · exact ⟨_, by rw [scan, Option.isSome_some]⟩

theorem front_first_pc {pc : Uint64} {calls : List LogCall}
    (journal : Journal (.first (.pc pc)) (.pc pc :: calls) frames t)
    (recorded : tctx.recorded = frames.flatMap bytes) (after : Nat → Uint8) :
    tctx.threadBuf.front after = none := by
  obtain ⟨rest, rfl⟩ := journal.first_pc
  exact LogThreadBuf.front_msg after recorded

end

section
variable (hash : Hasher) (sortBuckets : BucketSort 32) (mCompressionLevel : Int) (mStream : Bool)
  (thread : Uint32) {call : LogCall} {calls : List LogCall}

/-- `write_log_msg(uint64_t pc)` never syncs, so the first call decides. -/
theorem recorded_readable_iff (fit : CallsFit call.context (call :: calls)) :
    ∃ tctx, TraceLog.Logs hash sortBuckets mCompressionLevel mStream thread (call :: calls) tctx ∧
      ∀ after data stack,
        (tctx.threadBuf.Readable after data stack ↔ ∃ context, call = .ctx context) ∧
        ((tctx.threadBuf.front after).isSome ↔ ∃ context, call = .ctx context) := by
  obtain ⟨tctx, frames, logs, journal, recorded⟩ :=
    TraceLog.logs_journal hash sortBuckets mCompressionLevel mStream thread fit
  refine ⟨tctx, logs, fun after data stack => ?_⟩
  cases call with
  | ctx context =>
    have readable := readable_first_ctx journal recorded after data stack
    exact ⟨iff_of_true readable ⟨context, rfl⟩, iff_of_true readable.front ⟨context, rfl⟩⟩
  | pc pc =>
    have front := front_first_pc journal recorded after
    have refused : ¬(tctx.threadBuf.front after).isSome := by
      rw [front]
      exact Bool.false_ne_true
    have never : ¬∃ context, LogCall.pc pc = .ctx context := by
      rintro ⟨context, same⟩
      cases same
    exact ⟨iff_of_false (fun readable => refused readable.front) never, iff_of_false refused never⟩

theorem recorded_readable_ctx_pc :
    ∃ tctx, TraceLog.Logs (jevhash32 0x85EBCA77) stableBucketSort 0 false 0x103
        [.ctx .zero, .pc 4] tctx ∧
      ∀ after data stack, tctx.threadBuf.Readable after data stack := by
  obtain ⟨tctx, logs, readable⟩ := recorded_readable_iff (jevhash32 0x85EBCA77)
    stableBucketSort 0 false 0x103
    (show CallsFit (LogCall.ctx .zero).context [.ctx .zero, .pc 4] by decide)
  exact ⟨tctx, logs, fun after data stack => (readable after data stack).1.mpr ⟨_, rfl⟩⟩

/-- The single-step exception handler, one instruction long. -/
theorem recorded_unreadable_pc :
    ∃ tctx, TraceLog.Logs (jevhash32 0x85EBCA77) stableBucketSort 0 false 0x103
        [.pc 0x100004000] tctx ∧
      ∀ after, tctx.threadBuf.front after = none := by
  obtain ⟨tctx, frames, logs, journal, recorded⟩ := TraceLog.logs_journal (jevhash32 0x85EBCA77)
    stableBucketSort 0 false 0x103
    (show CallsFit (LogCall.pc 0x100004000).context [.pc 0x100004000] by decide)
  exact ⟨tctx, logs, front_first_pc journal recorded⟩

end

/-! Framing. -/

namespace Frame

theorem Spaced.isChain {fs : List Frame} (spaced : Spaced fs) :
    (fs.map isSync).IsChain fun a b => ¬(a = true ∧ b = true) := by
  induction fs with
  | nil => exact .nil
  | cons f fs ih =>
    have rest := ih spaced.tail
    match f, fs, spaced, rest with
    | .msg _, [], _, _ => exact .singleton _
    | .msg _, _ :: _, _, rest => exact .cons_cons (by simp [isSync]) rest
    | .sync .., .msg _ :: _, _, rest => exact .cons_cons (by simp [isSync]) rest

theorem Spaced.getLast? {fs : List Frame} (spaced : Spaced fs) (nonempty : fs ≠ []) :
    (fs.map isSync).getLast? = some false := by
  induction fs with
  | nil => exact absurd rfl nonempty
  | cons f fs ih =>
    match f, fs, spaced, ih with
    | .msg _, [], _, _ => rfl
    | .msg _, g :: fs, spaced, ih =>
      rw [List.map_cons, List.map_cons, List.getLast?_cons_cons]
      exact ih spaced (List.cons_ne_nil _ _)
    | .sync .., .msg _ :: _, spaced, ih =>
      rw [List.map_cons, List.map_cons, List.getLast?_cons_cons]
      exact ih spaced (List.cons_ne_nil _ _)

theorem count_isSync (fs : List Frame) : (fs.map isSync).count false = (deltas fs).length := by
  induction fs with
  | nil => rfl
  | cons f fs ih =>
    cases f with
    | sync numInst ctx => rw [deltas_sync, ← ih]; rfl
    | msg d => rw [deltas_msg, List.length_cons, ← ih]; simp [isSync]

end Frame

section
variable (hash : Hasher) (sortBuckets : BucketSort 32) (mCompressionLevel : Int) (mStream : Bool)
  (thread : Uint32) {call : LogCall} {calls : List LogCall}

/-- Advancing by `size` visits the frames that were written and no sync frame follows
another or ends the log, so that the iterator stands on messages only. -/
theorem recorded_framing (fit : CallsFit call.context (call :: calls)) :
    ∃ tctx frames,
      TraceLog.Logs hash sortBuckets mCompressionLevel mStream thread (call :: calls) tctx ∧
      Journal (.first call) (call :: calls) frames tctx.cursor ∧
      tctx.recorded = frames.flatMap Frame.bytes ∧ ∀ after,
      let mem := tctx.threadBuf.mem after
      let addrs := starts Frame.bytes 0 frames
      let flags := addrs.map fun p => LogMsg.isSyncFrame ⟨mem, p⟩
      (∀ fuel, tctx.recorded.length ≤ fuel →
        walk (fun p => LogMsg.size ⟨mem, p⟩) tctx.recorded.length fuel 0 = some addrs) ∧
      flags = frames.map Frame.isSync ∧
      flags.IsChain (fun a b => ¬(a = true ∧ b = true)) ∧ flags.getLast? = some false ∧
      (∀ fuel, tctx.recorded.length < fuel → ∃ first rest,
        collect (·.atEnd) (Iterator.next mem) (fun it => LogMsg.isSyncFrame ⟨mem, it.mPtr⟩) fuel
          tctx.threadBuf.begin = some (first :: rest) ∧ ∀ flag ∈ rest, flag = false) ∧
      tctx.numInst = BitVec.ofNat 64 (flags.count false) := by
  obtain ⟨tctx, frames, logs, journal, recorded⟩ :=
    TraceLog.logs_journal hash sortBuckets mCompressionLevel mStream thread fit
  refine ⟨tctx, frames, logs, journal, recorded, fun after => ?_⟩
  intro mem addrs flags
  have spaced := journal.spaced
  have many := journal.length_deltas
  have holds : Holds mem 0 (frames.flatMap bytes) :=
    @LogThreadBuf.holds_mem tctx.threadBuf frames recorded after
  have kinds : flags = frames.map isSync :=
    map_starts bytes (fun f q here => @isSyncFrame_eq ⟨mem, q⟩ f here) holds
  have nonempty : frames ≠ [] := by
    rintro rfl
    cases many
  refine ⟨fun fuel enough => ?_, kinds, ?_, ?_, fun fuel enough => ?_, ?_⟩
  · refine walk_eq_starts holds (fun f q here => @size_eq ⟨mem, q⟩ f here) length_bytes_pos ?_ ?_
    · rw [recorded, Nat.zero_add]
    · exact (length_le_flatMap bytes length_bytes_pos frames).trans (recorded ▸ enough)
  · rw [kinds]
    exact spaced.isChain
  · rw [kinds]
    exact spaced.getLast? nonempty
  · match frames, nonempty with
    | f :: fs, _ =>
      have remaining := @LogThreadBuf.remaining_begin tctx.threadBuf _ after _ recorded spaced.tail
      have few : (deltas fs).length < fuel := by
        have short := length_deltas_le fs
        rw [recorded, List.flatMap_cons, List.length_append] at enough
        omega
      exact ⟨_, _, Iterator.collect_isSyncFrame remaining few, fun flag => List.eq_of_mem_replicate⟩
  · have counted : tctx.numInst = _ := journal.numInst_eq
    rw [kinds, count_isSync, many, counted]
    exact BitVec.zero_add _

theorem recorded_framing_mixed :
    ∃ tctx frames, TraceLog.Logs (jevhash32 0x85EBCA77) stableBucketSort 0 false 0x103
        [.pc 0x100004000, .ctx .zero] tctx ∧
      tctx.recorded = frames.flatMap Frame.bytes ∧
      walk (fun p => LogMsg.size ⟨tctx.threadBuf.mem fun _ => 0, p⟩) tctx.recorded.length
        tctx.recorded.length 0 = some (starts Frame.bytes 0 frames) := by
  obtain ⟨tctx, frames, logs, _, recorded, framing⟩ := recorded_framing (jevhash32 0x85EBCA77)
    stableBucketSort 0 false 0x103
    (show CallsFit (LogCall.pc 0x100004000).context [.pc 0x100004000, .ctx .zero] by decide)
  exact ⟨tctx, frames, logs, recorded, (framing fun _ => 0).1 _ (Nat.le_refl _)⟩

end

end XnuTrace
