import XnuTrace.Journal
import XnuTrace.TraceLog

/-! Reading back one message, the program counters of a thread and its contexts. -/
namespace XnuTrace
open Memory Framing XnuTrace.Frame

/-- What a reader finds in the message for `cur` after `last`. -/
structure RoundTrip (last cur : LogArm64CpuContext) (buf : List Uint8) (msg : LogMsg) : Prop where
  size : msg.size = buf.length
  isSyncFrame : msg.isSyncFrame = false
  changedGpr : msg.changedGpr =
    (changedGprs last cur).map fun i => (BitVec.ofNat 32 i, cur.slot i)
  changedVec : msg.changedVec =
    (changedVecs last cur).map fun i => (BitVec.ofNat 32 i, cur.vec i)
  pcBranched : msg.pcBranched = true ↔ cur.pc ≠ last.pc + 4
  pc : msg.pcBranched = true → msg.pc = cur.pc
  spChanged : msg.spChanged = true ↔ cur.sp ≠ last.sp
  sp : msg.spChanged = true → msg.sp = cur.sp
  update : (last.update msg).SameRegisters cur
  nextPc : msg.nextPc last.pc = cur.pc

theorem roundTrip_between {last cur : LogArm64CpuContext} (fits : WithinLimits last cur)
    {msg : LogMsg} (holds : Holds msg.mem msg.addr (Delta.between last cur fits).bytes) :
    RoundTrip last cur (Delta.between last cur fits).bytes msg where
  size := Delta.size_eq holds
  isSyncFrame := Delta.isSyncFrame_eq holds
  changedGpr := by
    rw [Delta.changedGpr_eq holds, Delta.between, List.map_map]
    rfl
  changedVec := by
    rw [Delta.changedVec_eq holds, Delta.between, List.map_map]
    rfl
  pcBranched := by
    rw [Delta.pcBranched_eq holds, Delta.between]
    split <;> simp_all
  pc := by
    intro branched
    rw [Delta.pcBranched_eq holds, Option.isSome_iff_exists] at branched
    obtain ⟨pc, moved⟩ := branched
    rw [Delta.pc_eq holds moved]
    simp only [Delta.between] at moved
    split at moved
    · cases moved
    · exact (Option.some.inj moved).symm
  spChanged := by
    rw [Delta.spChanged_eq holds, Delta.between]
    split <;> simp_all
  sp := by
    intro changed
    rw [Delta.spChanged_eq holds, Option.isSome_iff_exists] at changed
    obtain ⟨sp, moved⟩ := changed
    rw [Delta.sp_eq holds moved]
    simp only [Delta.between] at moved
    split at moved
    · cases moved
    · exact (Option.some.inj moved).symm
  update := by
    rw [Delta.update_eq holds]
    exact (Delta.apply_between fits (.refl last)).1
  nextPc := by rw [LogMsg.nextPc_eq holds, Delta.nextPc_between]

/-- The message that `write_log_msg` appends, after a sync frame if one is due. -/
theorem writeLogMsg_roundTrip (tctx : ThreadCtx) {cur : LogArm64CpuContext}
    (fits : WithinLimits tctx.lastCpuCtx cur) :
    ∃ tctx' buf, tctx.writeLogMsg cur = some tctx' ∧ tctx'.recorded = tctx.recorded ++
        (if tctx.szSinceLastSync ≥ syncEvery then (Frame.sync tctx.numInst tctx.lastCpuCtx).bytes
          else []) ++ buf ∧
      ∀ msg : LogMsg, Holds msg.mem msg.addr buf → RoundTrip tctx.lastCpuCtx cur buf msg := by
  obtain ⟨tctx', written, recorded, _⟩ := tctx.writeLogMsg_spec fits
  refine ⟨tctx', (Delta.between tctx.lastCpuCtx cur fits).bytes, written, ?_,
    fun msg => roundTrip_between fits⟩
  rw [recorded, List.flatMap_append, List.flatMap_singleton, ← List.append_assoc, Cursor.due,
    ThreadCtx.cursor]
  split
  · rw [List.flatMap_singleton]
    rfl
  · rfl

theorem writeLogMsg_roundTrip_branch :
    WithinLimits .zero { LogArm64CpuContext.zero with pc := 0x100004000, sp := 0x16fdff000, lr := 3 } ∧
    ∃ tctx' buf, ThreadCtx.writeLogMsg {}
        { LogArm64CpuContext.zero with pc := 0x100004000, sp := 0x16fdff000, lr := 3 } = some tctx' ∧
      tctx'.recorded = ([] ++ if (syncEvery + 1) ≥ syncEvery then
        (Frame.sync 0 .zero).bytes else []) ++ buf ∧
      ∀ msg : LogMsg, Holds msg.mem msg.addr buf → RoundTrip .zero
        { LogArm64CpuContext.zero with pc := 0x100004000, sp := 0x16fdff000, lr := 3 } buf msg :=
  have fits : WithinLimits .zero
      { LogArm64CpuContext.zero with pc := 0x100004000, sp := 0x16fdff000, lr := 3 } := by
    decide
  ⟨fits, writeLogMsg_roundTrip {} fits⟩

/-! The frames of a thread, read through `log_thread_buf`. -/

/-- What `TraceLog::write` makes of a thread. -/
def ThreadCtx.threadBuf (tctx : ThreadCtx) : LogThreadBuf :=
  { mBuf := tctx.recorded, mNumInst := tctx.numInst }

theorem Frame.Spaced.tail {f : Frame} {fs : List Frame} (spaced : Spaced (f :: fs)) : Spaced fs := by
  match f, fs, spaced with
  | .msg _, _, spaced => exact spaced
  | .sync .., .msg _ :: _, spaced => exact spaced

namespace LogThreadBuf
variable {buf : LogThreadBuf} {fs : List Frame} (after : Nat → Uint8)

theorem remaining_begin {f : Frame} (recorded : buf.mBuf = (f :: fs).flatMap bytes)
    (spaced : Spaced fs) : Remaining (buf.mem after) buf.begin (deltas fs) := by
  refine ⟨f, fs, ⟨?_, ?_, spaced⟩, rfl⟩
  · rw [mem, recorded]
    exact holds_ofList _ _
  · rw [LogThreadBuf.begin, recorded, Nat.zero_add]

theorem front_sync {numInst : Uint64} {ctx : LogArm64CpuContext}
    (recorded : buf.mBuf = (.sync numInst ctx :: fs).flatMap bytes) :
    buf.front after = some ⟨buf.mem after, 0⟩ ∧
    buf.pcsBegin after = some { toIterator := buf.begin, mPc := ctx.pc } := by
  have here : Holds (buf.mem after) 0 (Frame.sync numInst ctx).bytes := by
    have whole := holds_ofList buf.mBuf after
    rw [mem, recorded] at *
    exact ((holds_frames bytes).mp whole).1
  have front : buf.front after = some ⟨buf.mem after, 0⟩ := by
    simp only [front, @isSyncFrame_sync ⟨buf.mem after, 0⟩ _ _ here, if_true]
  refine ⟨front, ?_⟩
  simp only [pcsBegin, front, @syncCtx_eq ⟨buf.mem after, 0⟩ _ _ here, Option.bind_eq_bind,
    Option.bind_some]
  rfl

theorem front_msg {d : Delta} (recorded : buf.mBuf = (.msg d :: fs).flatMap bytes) :
    buf.front after = none := by
  have here : Holds (buf.mem after) 0 d.bytes := by
    have whole := holds_ofList buf.mBuf after
    rw [mem, recorded] at *
    exact ((holds_frames bytes).mp whole).1
  simp only [front, @Delta.isSyncFrame_eq _ ⟨buf.mem after, 0⟩ here, Bool.false_eq_true,
    if_false]

end LogThreadBuf

theorem Journal.first_ctx {c : LogArm64CpuContext} {calls : List LogCall} {frames : List Frame}
    {t : Cursor} (journal : Journal (.first (.ctx c)) (.ctx c :: calls) frames t) :
    ∃ rest, frames = .sync 0 c :: .msg (.between c c (withinLimits_self c)) :: rest ∧
      Journal ((Cursor.first (.ctx c)).afterCtx c (.between c c (withinLimits_self c)))
        calls rest t := by
  have due : (Cursor.first (.ctx c)).due = [.sync 0 c] :=
    if_pos (show syncEvery + 1 ≥ syncEvery by decide)
  cases journal with
  | ctx fits rest => exact ⟨_, by rw [due]; rfl, rest⟩

theorem Journal.first_pc {pc : Uint64} {calls : List LogCall} {frames : List Frame}
    {t : Cursor} (journal : Journal (.first (.pc pc)) (.pc pc :: calls) frames t) :
    ∃ rest, frames = .msg (.pcOnly pc pc) :: rest := by
  cases journal with
  | pc rest => exact ⟨_, rfl⟩

section
variable {c : LogArm64CpuContext} {calls : List LogCall} {frames : List Frame} {t : Cursor}
  {tctx : ThreadCtx}

/-- Behind the sync frame that the first context causes, the iterators have every message
before them. -/
theorem remaining_first (journal : Journal (.first (.ctx c)) (.ctx c :: calls) frames t)
    (recorded : tctx.recorded = frames.flatMap bytes) (after : Nat → Uint8) :
    Remaining (tctx.threadBuf.mem after) tctx.threadBuf.begin (deltas frames) ∧
      tctx.threadBuf.front after = some ⟨tctx.threadBuf.mem after, 0⟩ ∧
      tctx.threadBuf.pcsBegin after =
        some { toIterator := tctx.threadBuf.begin, mPc := c.pc } := by
  have spaced := journal.spaced
  obtain ⟨rest, rfl, _⟩ := journal.first_ctx
  have remaining := @LogThreadBuf.remaining_begin tctx.threadBuf _ after _ recorded spaced.tail
  exact ⟨remaining, LogThreadBuf.front_sync after recorded⟩

theorem extractPcs_eq (journal : Journal (.first (.ctx c)) (.ctx c :: calls) frames t)
    (recorded : tctx.recorded = frames.flatMap bytes) (after : Nat → Uint8) {fuel : Nat}
    (enough : tctx.recorded.length < fuel) :
    tctx.threadBuf.extractPcsFromTrace after fuel =
      some ((contexts c (.ctx c :: calls)).map (·.pc)) := by
  obtain ⟨remaining, _, pcs⟩ := remaining_first journal recorded after
  have few := (length_deltas_le frames).trans_lt (recorded ▸ enough)
  rw [LogThreadBuf.extractPcsFromTrace, pcs, Option.bind_some,
    PcIterator.collect_eq remaining few]
  exact congrArg some journal.nextPc_eq

theorem extractPcs_ctx {cs : List LogArm64CpuContext}
    (journal : Journal (.first (.ctx c)) ((c :: cs).map .ctx) frames t)
    (recorded : tctx.recorded = frames.flatMap bytes) (after : Nat → Uint8) :
    (∀ fuel, tctx.recorded.length < fuel →
      tctx.threadBuf.extractPcsFromTrace after fuel = some (c.pc :: (c :: cs).map (·.pc))) ∧
    ∀ fuel, tctx.threadBuf.extractPcsFromTrace after fuel ≠ some ((c :: cs).map (·.pc)) := by
  have pcs : (contexts c (.ctx c :: cs.map .ctx)).map (·.pc) = c.pc :: (c :: cs).map (·.pc) := by
    rw [← List.map_cons, contexts_ctx, List.map_cons]
  have read : ∀ fuel, tctx.recorded.length < fuel →
      tctx.threadBuf.extractPcsFromTrace after fuel = some (c.pc :: (c :: cs).map (·.pc)) :=
    fun fuel enough => pcs ▸ extractPcs_eq journal recorded after enough
  refine ⟨read, fun fuel whole => ?_⟩
  have more := read _ (Nat.lt_succ_self _)
  obtain ⟨_, _, begun⟩ := remaining_first journal recorded after
  rw [LogThreadBuf.extractPcsFromTrace, begun, Option.bind_some] at whole more
  have same := congrArg List.length (collect_unique more whole)
  simp at same

end

/-! Stepping `ctx_iterator`. -/

namespace Delta

theorem apply_between_self {c : LogArm64CpuContext} (fits : WithinLimits c c)
    (copy : LogArm64CpuContext) : (between c c fits).apply copy = { copy with pc := c.pc } := by
  have gprs : changedGprs c c = [] := by simp [changedGprs]
  have vecs : changedVecs c c = [] := by simp [changedVecs]
  have moved : c.pc ≠ c.pc + 4 := by bv_omega
  simp only [apply, between, gprs, vecs, moved, if_false, if_true, List.map_nil, List.foldl_nil,
    Option.getD_some, Option.getD_none]

/-- `update` never adds 4 to `pc` and no message carries `nzcv`. -/
theorem apply_between_eq_iff {last cur : LogArm64CpuContext} (fits : WithinLimits last cur) :
    (between last cur fits).apply last = cur ↔ cur.pc ≠ last.pc + 4 ∧ cur.nzcv = last.nzcv := by
  obtain ⟨same, nzcv, pc⟩ := apply_between fits (.refl last)
  have stays : last.pc ≠ last.pc + 4 := by bv_omega
  rw [same.eq_iff, nzcv, pc, eq_comm (a := last.nzcv)]
  refine and_congr_left fun _ => ?_
  simp only [between]
  split
  · rename_i straight
    simp only [Option.getD_none, straight, ne_eq, not_true, iff_false]
    exact stays
  · rename_i branched
    simp only [Option.getD_some, ne_eq, branched, not_false_eq_true]

end Delta

theorem eq_of_scanl_eq_cons {α β : Type} {step : β → α → β} {b c : β} {as : List α} {cs : List β}
    (same : as.scanl step b = c :: cs) : b = c := by
  have head := congrArg List.head? same
  rw [List.head?_scanl] at head
  exact Option.some.inj head

theorem Journal.apply_ctx {s t : Cursor} {cs : List LogArm64CpuContext} {frames : List Frame}
    (journal : Journal s (cs.map .ctx) frames t) :
    (deltas frames).scanl (fun c d => d.apply c) s.last = s.last :: cs ↔
      (∀ c ∈ cs, c.nzcv = s.last.nzcv) ∧ (s.last :: cs).IsChain fun a b => b.pc ≠ a.pc + 4 := by
  induction cs generalizing s frames with
  | nil =>
    cases journal
    simp
  | cons c cs ih =>
    cases journal with
    | ctx fits rest =>
      have step := Delta.apply_between_eq_iff fits
      have more := ih rest
      change _ ↔ (∀ c' ∈ cs, c'.nzcv = c.nzcv) ∧ _ at more
      simp only [deltas_append, deltas_due, List.nil_append, deltas_msg, List.scanl_cons,
        List.cons.injEq, true_and, List.forall_mem_cons, List.isChain_cons_cons]
      constructor
      · intro whole
        have head : (Delta.between s.last c fits).apply s.last = c := eq_of_scanl_eq_cons whole
        rw [head] at whole
        obtain ⟨nzcv, chain⟩ := more.mp whole
        obtain ⟨pc, same⟩ := step.mp head
        exact ⟨⟨same, fun c' h => (nzcv c' h).trans same⟩, pc, chain⟩
      · rintro ⟨⟨same, nzcv⟩, pc, chain⟩
        rw [step.mpr ⟨pc, same⟩]
        exact more.mpr ⟨fun c' h => (nzcv c' h).trans same.symm, chain⟩

/-- What `ctx()` shows after each increment, from the copy that `ctx_begin()` makes. -/
theorem ctxReplay_iff {c : LogArm64CpuContext} {cs : List LogArm64CpuContext}
    {frames : List Frame} {t : Cursor} {tctx : ThreadCtx}
    (journal : Journal (.first (.ctx c)) ((c :: cs).map .ctx) frames t)
    (recorded : tctx.recorded = frames.flatMap bytes) (after : Nat → Uint8) {it : CtxIterator}
    (begun : it.toIterator = tctx.threadBuf.begin) :
    (∀ k (hk : k < (c :: cs).length),
      ((CtxIterator.next (tctx.threadBuf.mem after))^[k + 1] it).mCtx = (c :: cs)[k]) ↔
    it.mCtx.SameRegisters c ∧ it.mCtx.nzcv = c.nzcv ∧ (∀ c' ∈ cs, c'.nzcv = c.nzcv) ∧
      (c :: cs).IsChain fun a b => b.pc ≠ a.pc + 4 := by
  have remaining : Remaining (tctx.threadBuf.mem after) it.toIterator (deltas frames) :=
    begun ▸ (remaining_first journal recorded after).1
  have shown := CtxIterator.collect_eq remaining (Nat.lt_succ_self _)
  obtain ⟨rest, rfl, journal'⟩ := journal.first_ctx
  have many := journal.length_deltas
  simp only [deltas_sync, deltas_msg, List.scanl_cons, List.length_cons, List.length_map,
    Nat.add_right_cancel_iff] at shown many
  rw [Delta.apply_between_self] at shown
  have whole := iterate_eq_iff (c :: cs) shown (by simp [many])
  have exact := journal'.apply_ctx
  rw [whole, ← and_assoc, ← LogArm64CpuContext.withPc_eq_iff]
  constructor
  · intro same
    have first : { it.mCtx with pc := c.pc } = c := eq_of_scanl_eq_cons same
    rw [first] at same
    exact ⟨first, exact.mp same⟩
  · rintro ⟨first, straight⟩
    rw [first]
    exact exact.mpr straight

section
variable (hash : Hasher) (sortBuckets : BucketSort 32) (mCompressionLevel : Int) (mStream : Bool)
  (thread : Uint32) {c : LogArm64CpuContext} {cs : List LogArm64CpuContext}

/-- The scan starts on the sync frame, whose program counter is that of the first message. -/
theorem extractPcsFromTrace_repeats_first (fit : (c :: cs).IsChain WithinLimits) :
    ∃ tctx, TraceLog.Logs hash sortBuckets mCompressionLevel mStream thread
        ((c :: cs).map .ctx) tctx ∧
      tctx.threadBuf.mNumInst = BitVec.ofNat 64 (c :: cs).length ∧
      ∀ after, (∀ fuel, tctx.recorded.length < fuel →
          tctx.threadBuf.extractPcsFromTrace after fuel = some (c.pc :: (c :: cs).map (·.pc))) ∧
        ∀ fuel, tctx.threadBuf.extractPcsFromTrace after fuel ≠ some ((c :: cs).map (·.pc)) := by
  obtain ⟨tctx, frames, logs, journal, recorded⟩ :=
    TraceLog.logs_journal hash sortBuckets mCompressionLevel mStream thread (callsFit_first fit)
  refine ⟨tctx, logs, ?_, extractPcs_ctx journal recorded⟩
  have counted : tctx.threadBuf.mNumInst = _ := journal.numInst_eq
  simpa [Cursor.first] using counted

theorem extractPcsFromTrace_one :
    ∃ tctx, TraceLog.Logs (jevhash32 0x85EBCA77) stableBucketSort 0 false 0x103
        [.ctx .zero] tctx ∧
      ∀ after fuel, tctx.threadBuf.extractPcsFromTrace after fuel ≠ some [0] := by
  obtain ⟨tctx, frames, logs, journal, recorded⟩ := TraceLog.logs_journal (jevhash32 0x85EBCA77)
    stableBucketSort 0 false 0x103 (callsFit_first (.singleton .zero))
  exact ⟨tctx, logs, fun after => (extractPcs_ctx journal recorded after).2⟩

theorem extractPcsFromTrace_straight :
    let cs := [LogArm64CpuContext.zero, { LogArm64CpuContext.zero with pc := 4 }]
    ∃ tctx, TraceLog.Logs (jevhash32 0x85EBCA77) stableBucketSort 0 false 0x103 (cs.map .ctx)
        tctx ∧
      ∀ after fuel, tctx.threadBuf.extractPcsFromTrace after fuel ≠ some [0, 4] := by
  obtain ⟨tctx, logs, _, read⟩ := extractPcsFromTrace_repeats_first (jevhash32 0x85EBCA77)
    stableBucketSort 0 false 0x103
    (.cons_cons (by decide) (.singleton _) : [LogArm64CpuContext.zero,
      { LogArm64CpuContext.zero with pc := 4 }].IsChain WithinLimits)
  exact ⟨tctx, logs, fun after => (read after).2⟩

/-- The replay is exact only if the stack happens to hold the registers of the first
context behind the pointer that is copied in its place, `nzcv` never changes and no
context follows its predecessor at `pc + 4`. -/
theorem ctxIterator_exact_iff (fit : (c :: cs).IsChain WithinLimits) (after : Nat → Uint8)
    (data : Uint64) (stack : Nat → Uint8) :
    ∃ tctx it, TraceLog.Logs hash sortBuckets mCompressionLevel mStream thread
        ((c :: cs).map .ctx) tctx ∧
      tctx.threadBuf.ctxBegin after data stack = some it ∧
      let copy := CtxIterator.copied (data + BitVec.ofNat 64 LogMsg.syncFrameSz) stack
      ((∀ k (hk : k < (c :: cs).length),
          ((CtxIterator.next (tctx.threadBuf.mem after))^[k + 1] it).mCtx = (c :: cs)[k]) ↔
        copy.SameRegisters c ∧ copy.nzcv = c.nzcv ∧ (∀ c' ∈ cs, c'.nzcv = c.nzcv) ∧
          (c :: cs).IsChain fun a b => b.pc ≠ a.pc + 4) := by
  obtain ⟨tctx, frames, logs, journal, recorded⟩ :=
    TraceLog.logs_journal hash sortBuckets mCompressionLevel mStream thread (callsFit_first fit)
  let it : CtxIterator :=
    { toIterator := tctx.threadBuf.begin
      mCtx := CtxIterator.copied (data + BitVec.ofNat 64 LogMsg.syncFrameSz) stack }
  refine ⟨tctx, it, logs, ?_, ctxReplay_iff journal recorded after rfl⟩
  rw [LogThreadBuf.ctxBegin, (remaining_first journal recorded after).2.1]
  rfl

/-- One context, on a stack of zeros: `sp` is not read back. -/
theorem ctxIterator_loses_sp :
    let c := { LogArm64CpuContext.zero with pc := 0x100004000, sp := 0x16fdff000 }
    ∃ tctx it, TraceLog.Logs (jevhash32 0x85EBCA77) stableBucketSort 0 false 0x103 [.ctx c] tctx ∧
      tctx.threadBuf.ctxBegin (fun _ => 0) 0x600000000000 (fun _ => 0) = some it ∧
      ((CtxIterator.next (tctx.threadBuf.mem fun _ => 0))^[1] it).mCtx ≠ c := by
  intro c
  obtain ⟨tctx, frames, logs, journal, recorded⟩ := TraceLog.logs_journal (jevhash32 0x85EBCA77)
    stableBucketSort 0 false 0x103 (callsFit_first (.singleton c))
  let it : CtxIterator :=
    { toIterator := tctx.threadBuf.begin
      mCtx := CtxIterator.copied (0x600000000000 + BitVec.ofNat 64 LogMsg.syncFrameSz) fun _ => 0 }
  have exact := @ctxReplay_iff c [] frames _ tctx journal recorded (fun _ => 0) it rfl
  refine ⟨tctx, it, logs, ?_, fun same => ?_⟩
  · rw [LogThreadBuf.ctxBegin, (remaining_first journal recorded _).2.1]
    rfl
  · have copied := (exact.mp fun k hk => by
      obtain rfl : k = 0 := by simpa using hk
      exact same).1.sp
    have zero : (CtxIterator.copied (0x600000000000 + BitVec.ofNat 64 LogMsg.syncFrameSz)
      fun _ => 0).sp = 0 := by decide
    have lost : (0 : Uint64) = 0x16fdff000 := zero.symm.trans copied
    exact absurd lost (by decide)

/-- Two branches apart, on a stack of zeros and with all registers zero. -/
theorem ctxIterator_exact_zero :
    let cs := [LogArm64CpuContext.zero, { LogArm64CpuContext.zero with pc := 8 }]
    ∃ tctx it, TraceLog.Logs (jevhash32 0x85EBCA77) stableBucketSort 0 false 0x103 (cs.map .ctx)
        tctx ∧
      tctx.threadBuf.ctxBegin (fun _ => 0) 0x600000000000 (fun _ => 0) = some it ∧
      ∀ k (hk : k < cs.length),
        ((CtxIterator.next (tctx.threadBuf.mem fun _ => 0))^[k + 1] it).mCtx = cs[k] := by
  obtain ⟨tctx, it, logs, begun, exact⟩ := ctxIterator_exact_iff (jevhash32 0x85EBCA77)
    stableBucketSort 0 false 0x103
    (.cons_cons (by decide) (.singleton _) : [LogArm64CpuContext.zero,
      { LogArm64CpuContext.zero with pc := 8 }].IsChain WithinLimits)
    (fun _ => 0) 0x600000000000 fun _ => 0
  refine ⟨tctx, it, logs, begun, exact.mpr ⟨⟨?_, ?_, ?_, ?_, ?_⟩, ?_, ?_, ?_⟩⟩
  all_goals decide +kernel

end

end XnuTrace
