import XnuTrace.Frames
import XnuTrace.CompressedFile

/-! `TraceLog::thread_ctx`, the writer of one thread's log, in memory or into a stream.
What it writes next depends only on its cursor; the journal of a sequence of calls is
the sequence of frames that they append. -/
namespace XnuTrace
open Memory

/-- 1 MB, overhead 0.09% per MB. -/
def syncEvery : Uint32 := 1024 * 1024

def LogArm64CpuContext.zero : LogArm64CpuContext where
  pc := 0
  sp := 0
  nzcv := 0
  x := .replicate 29 0
  fp := 0
  lr := 0
  v := .replicate 32 0

structure ThreadCtx where
  logBuf : List Uint8 := []
  logStream : Option CompressedFile := none
  lastCpuCtx : LogArm64CpuContext := .zero
  numInst : Uint64 := 0
  szSinceLastSync : Uint32 := syncEvery + 1
deriving DecidableEq

/-- The two forms of `TraceLog::log` for one thread. -/
inductive LogCall where
  | pc (pc : Uint64)
  | ctx (context : LogArm64CpuContext)
deriving DecidableEq

/-- `last_cpu_ctx` as the first call of a thread leaves it. -/
def LogCall.context : LogCall → LogArm64CpuContext
  | .pc first => { LogArm64CpuContext.zero with pc := first }
  | .ctx context => context

namespace ThreadCtx

/-- Append to `log_buf` or write to `log_stream`. -/
def emit (tctx : ThreadCtx) (buf : List Uint8) : Option ThreadCtx :=
  match tctx.logStream with
  | none => some { tctx with logBuf := tctx.logBuf ++ buf }
  | some logStream =>
    (logStream.write buf).map fun logStream => { tctx with logStream := some logStream }

def writeSync (tctx : ThreadCtx) : Option ThreadCtx := do
  let tctx ← tctx.emit LogMsg.syncFrameBufHdrBytes
  let tctx ← tctx.emit (wordBytes 8 tctx.numInst)
  let tctx ← tctx.emit tctx.lastCpuCtx.bytes
  return { tctx with szSinceLastSync := 0 }

def syncIfDue (tctx : ThreadCtx) : Option ThreadCtx :=
  if tctx.szSinceLastSync ≥ syncEvery then tctx.writeSync else some tctx

/-- `write_log_msg(const log_arm64_cpu_context *ctx)`. -/
def writeLogMsg (tctx : ThreadCtx) (ctx : LogArm64CpuContext) : Option ThreadCtx := do
  let tctx ← tctx.syncIfDue
  let msgBuf ← msgBuf tctx.lastCpuCtx ctx
  let tctx ← tctx.emit msgBuf
  return { tctx with
    szSinceLastSync := tctx.szSinceLastSync + BitVec.ofNat 32 msgBuf.length
    lastCpuCtx := ctx
    numInst := tctx.numInst + 1 }

/-- `write_log_msg(uint64_t pc)`, which neither syncs nor counts its bytes. -/
def writeLogMsgPc (tctx : ThreadCtx) (pc : Uint64) : Option ThreadCtx := do
  let (gprChanged, buf) :=
    if tctx.lastCpuCtx.pc + 4 ≠ pc then (rpcSetPcBranched 0, wordBytes 8 pc) else (0, [])
  let tctx ← tctx.emit (wordBytes 4 gprChanged ++ wordBytes 4 (0 : Uint32) ++ buf)
  return { tctx with
    lastCpuCtx := { tctx.lastCpuCtx with pc := pc }
    numInst := tctx.numInst + 1 }

def write (tctx : ThreadCtx) : LogCall → Option ThreadCtx
  | .pc pc => tctx.writeLogMsgPc pc
  | .ctx context => tctx.writeLogMsg context

/-- The bytes recorded for the thread. -/
def recorded (tctx : ThreadCtx) : List Uint8 :=
  match tctx.logStream with
  | none => tctx.logBuf
  | some logStream => logStream.written

end ThreadCtx

/-! The journal. -/

/-- What decides the next frames. -/
structure Cursor where
  last : LogArm64CpuContext
  numInst : Uint64
  sz : Uint32

namespace Cursor

/-- Where the first call of a thread begins: a sync frame is due. -/
def first (call : LogCall) : Cursor where
  last := call.context
  numInst := 0
  sz := syncEvery + 1

def due (s : Cursor) : List Frame :=
  if s.sz ≥ syncEvery then [.sync s.numInst s.last] else []

/-- The byte counter once a due sync frame is out. -/
def synced (s : Cursor) : Uint32 := if s.sz ≥ syncEvery then 0 else s.sz

def afterCtx (s : Cursor) (ctx : LogArm64CpuContext) (d : Delta) : Cursor where
  last := ctx
  numInst := s.numInst + 1
  sz := s.synced + BitVec.ofNat 32 d.bytes.length

def afterPc (s : Cursor) (pc : Uint64) : Cursor where
  last := { s.last with pc := pc }
  numInst := s.numInst + 1
  sz := s.sz

end Cursor

/-- From the first cursor to the second the calls append the frames. -/
inductive Journal : Cursor → List LogCall → List Frame → Cursor → Prop
  | done (s) : Journal s [] [] s
  | ctx {s t : Cursor} {ctx calls frames} (fits : WithinLimits s.last ctx) :
    Journal (s.afterCtx ctx (.between s.last ctx fits)) calls frames t →
    Journal s (.ctx ctx :: calls) (s.due ++ .msg (.between s.last ctx fits) :: frames) t
  | pc {s t : Cursor} {pc calls frames} :
    Journal (s.afterPc pc) calls frames t →
    Journal s (.pc pc :: calls) (.msg (.pcOnly s.last.pc pc) :: frames) t

/-- Each context is within the limits of the writer's assertions. -/
def CallsFit (last : LogArm64CpuContext) : List LogCall → Prop
  | [] => True
  | .ctx context :: calls => WithinLimits last context ∧ CallsFit context calls
  | .pc pc :: calls => CallsFit { last with pc := pc } calls

instance decidableCallsFit : (last : LogArm64CpuContext) → (calls : List LogCall) →
    Decidable (CallsFit last calls)
  | _, [] => isTrue trivial
  | last, .ctx context :: calls =>
    have := decidableCallsFit context calls
    inferInstanceAs (Decidable (WithinLimits last context ∧ CallsFit context calls))
  | last, .pc pc :: calls => decidableCallsFit { last with pc := pc } calls

theorem Journal.total {s : Cursor} {calls : List LogCall} (fit : CallsFit s.last calls) :
    ∃ frames t, Journal s calls frames t := by
  induction calls generalizing s with
  | nil => exact ⟨[], s, .done s⟩
  | cons call calls ih =>
    cases call with
    | ctx context =>
      obtain ⟨frames, t, rest⟩ := @ih (s.afterCtx context (.between s.last context fit.1)) fit.2
      exact ⟨_, t, .ctx fit.1 rest⟩
    | pc pc =>
      obtain ⟨frames, t, rest⟩ := @ih (s.afterPc pc) fit
      exact ⟨_, t, .pc rest⟩

namespace ThreadCtx

def cursor (tctx : ThreadCtx) : Cursor :=
  { last := tctx.lastCpuCtx, numInst := tctx.numInst, sz := tctx.szSinceLastSync }

/-- A nonempty buffer is always taken. -/
theorem emit_spec (tctx : ThreadCtx) {buf : List Uint8} (nonempty : buf ≠ []) :
    ∃ tctx', tctx.emit buf = some tctx' ∧ tctx'.recorded = tctx.recorded ++ buf ∧
      tctx'.cursor = tctx.cursor := by
  unfold emit
  cases stream : tctx.logStream with
  | none =>
    refine ⟨_, rfl, ?_, rfl⟩
    simp only [recorded, stream]
  | some logStream =>
    refine ⟨{ tctx with
      logStream := some { logStream with pieces := logStream.pieces ++ [buf] } }, ?_, ?_, rfl⟩
    · simp only [logStream.write_of_nonempty nonempty, Option.map_some]
    · simp only [recorded, stream, CompressedFile.written, List.flatten_append,
        List.flatten_singleton]

theorem wordBytes_ne_nil {w n : Nat} (x : BitVec w) (pos : 0 < n) : wordBytes n x ≠ [] :=
  List.ne_nil_of_length_pos (by rwa [length_wordBytes])

theorem bytes_ne_nil (ctx : LogArm64CpuContext) : ctx.bytes ≠ [] :=
  List.ne_nil_of_length_pos (by rw [ctx.length_bytes]; decide)

theorem writeSync_spec (tctx : ThreadCtx) :
    ∃ tctx', tctx.writeSync = some tctx' ∧
      tctx'.recorded = tctx.recorded ++ (Frame.sync tctx.numInst tctx.lastCpuCtx).bytes ∧
      tctx'.cursor = { tctx.cursor with sz := 0 } := by
  obtain ⟨t₁, emitted₁, recorded₁, cursor₁⟩ :=
    tctx.emit_spec (by decide : LogMsg.syncFrameBufHdrBytes ≠ [])
  obtain ⟨t₂, emitted₂, recorded₂, cursor₂⟩ :=
    t₁.emit_spec (wordBytes_ne_nil t₁.numInst (by decide : 0 < 8))
  obtain ⟨t₃, emitted₃, recorded₃, cursor₃⟩ := t₂.emit_spec (bytes_ne_nil t₂.lastCpuCtx)
  have num : t₁.numInst = tctx.numInst := congrArg Cursor.numInst cursor₁
  have last : t₂.lastCpuCtx = tctx.lastCpuCtx := congrArg Cursor.last (cursor₂.trans cursor₁)
  refine ⟨{ t₃ with szSinceLastSync := 0 }, ?_, ?_, ?_⟩
  · simp only [writeSync, emitted₁, emitted₂, emitted₃, Option.bind_eq_bind, Option.bind_some,
      pure]
  · change t₃.recorded = _
    rw [recorded₃, recorded₂, recorded₁, num, last, Frame.bytes]
    simp only [List.append_assoc]
  · change { t₃.cursor with sz := 0 } = _
    rw [cursor₃, cursor₂, cursor₁]

theorem syncIfDue_spec (tctx : ThreadCtx) :
    ∃ tctx', tctx.syncIfDue = some tctx' ∧
      tctx'.recorded = tctx.recorded ++ tctx.cursor.due.flatMap Frame.bytes ∧
      tctx'.cursor = { tctx.cursor with sz := tctx.cursor.synced } := by
  unfold syncIfDue Cursor.due Cursor.synced cursor
  split
  · obtain ⟨t₁, synced, recorded₁, cursor₁⟩ := tctx.writeSync_spec
    exact ⟨t₁, synced, by rw [recorded₁, List.flatMap_singleton], cursor₁⟩
  · exact ⟨tctx, rfl, by rw [List.flatMap_nil, List.append_nil], rfl⟩

theorem writeLogMsg_spec (tctx : ThreadCtx) {ctx : LogArm64CpuContext}
    (fits : WithinLimits tctx.lastCpuCtx ctx) :
    ∃ tctx', tctx.writeLogMsg ctx = some tctx' ∧
      tctx'.recorded = tctx.recorded ++
        (tctx.cursor.due ++ [Frame.msg (.between tctx.lastCpuCtx ctx fits)]).flatMap Frame.bytes ∧
      tctx'.cursor = tctx.cursor.afterCtx ctx (.between tctx.lastCpuCtx ctx fits) := by
  obtain ⟨t₁, ready, recorded₁, cursor₁⟩ := tctx.syncIfDue_spec
  have last : t₁.lastCpuCtx = tctx.lastCpuCtx := congrArg Cursor.last cursor₁
  obtain ⟨t₂, emitted, recorded₂, cursor₂⟩ := t₁.emit_spec
    (List.ne_nil_of_length_pos (Delta.between tctx.lastCpuCtx ctx fits).length_bytes_pos)
  have cursor := cursor₂.trans cursor₁
  refine ⟨{ t₂ with
    szSinceLastSync := t₂.szSinceLastSync +
      BitVec.ofNat 32 (Delta.between tctx.lastCpuCtx ctx fits).bytes.length
    lastCpuCtx := ctx, numInst := t₂.numInst + 1 }, ?_, ?_, ?_⟩
  · rw [writeLogMsg, ready]
    simp only [Option.bind_eq_bind, Option.bind_some, last, msgBuf_eq, dif_pos fits, emitted]
    rfl
  · change t₂.recorded = _
    rw [recorded₂, recorded₁, List.flatMap_append, List.flatMap_singleton, List.append_assoc]
    rfl
  · have num : t₂.numInst = tctx.numInst := congrArg Cursor.numInst cursor
    have sz : t₂.szSinceLastSync = tctx.cursor.synced := congrArg Cursor.sz cursor
    simp only [ThreadCtx.cursor, Cursor.afterCtx, num, sz]

theorem writeLogMsg_eq_none (tctx : ThreadCtx) {ctx : LogArm64CpuContext}
    (exceeds : ¬WithinLimits tctx.lastCpuCtx ctx) : tctx.writeLogMsg ctx = none := by
  obtain ⟨t₁, ready, _, cursor₁⟩ := tctx.syncIfDue_spec
  have last : t₁.lastCpuCtx = tctx.lastCpuCtx := congrArg Cursor.last cursor₁
  rw [writeLogMsg, ready]
  simp only [Option.bind_eq_bind, Option.bind_some, last, msgBuf_eq, dif_neg exceeds,
    Option.bind_none]

theorem pcOnly_bytes (lastPc pc : Uint64) : (Delta.pcOnly lastPc pc).bytes =
    (if lastPc + 4 ≠ pc then wordBytes 4 (rpcSetPcBranched 0) ++ wordBytes 4 (0 : Uint32) ++
      wordBytes 8 pc else wordBytes 4 (0 : Uint32) ++ wordBytes 4 (0 : Uint32)) := by
  have branched : changeWord true false [] = rpcSetPcBranched 0 := by decide
  have plain : changeWord false false [] = 0 := by decide
  unfold Delta.bytes Delta.gprWord Delta.vecWord Delta.pcOnly
  split <;> simp only [List.map_nil, List.flatMap_nil, List.append_nil, Option.isSome_some,
    Option.isSome_none, Delta.optBytes, branched, plain]

theorem writeLogMsgPc_spec (tctx : ThreadCtx) (pc : Uint64) :
    ∃ tctx', tctx.writeLogMsgPc pc = some tctx' ∧
      tctx'.recorded = tctx.recorded ++ [Frame.msg (.pcOnly tctx.lastCpuCtx.pc pc)].flatMap
        Frame.bytes ∧
      tctx'.cursor = tctx.cursor.afterPc pc := by
  have bytes := pcOnly_bytes tctx.lastCpuCtx.pc pc
  obtain ⟨t₁, emitted, recorded₁, cursor₁⟩ := tctx.emit_spec
    (List.ne_nil_of_length_pos (Delta.pcOnly tctx.lastCpuCtx.pc pc).length_bytes_pos)
  refine ⟨{ t₁ with
    lastCpuCtx := { t₁.lastCpuCtx with pc := pc }, numInst := t₁.numInst + 1 }, ?_, ?_, ?_⟩
  · rw [bytes] at emitted
    unfold writeLogMsgPc
    split at emitted
    · rename_i branched
      simp only [if_pos branched, emitted, Option.bind_eq_bind, Option.bind_some]
      rfl
    · rename_i straight
      simp only [if_neg straight, List.append_nil, emitted, Option.bind_eq_bind, Option.bind_some]
      rfl
  · change t₁.recorded = _
    rw [recorded₁, List.flatMap_singleton]
    rfl
  · have last : t₁.lastCpuCtx = tctx.lastCpuCtx := congrArg Cursor.last cursor₁
    have num : t₁.numInst = tctx.numInst := congrArg Cursor.numInst cursor₁
    have sz : t₁.szSinceLastSync = tctx.szSinceLastSync := congrArg Cursor.sz cursor₁
    simp only [cursor, Cursor.afterPc, last, num, sz]

/-- A run of calls. -/
def run (tctx : ThreadCtx) (calls : List LogCall) : Option ThreadCtx := calls.foldlM write tctx

/-- The writer appends its journal, byte for byte. -/
theorem run_journal {tctx : ThreadCtx} {calls : List LogCall}
    (fit : CallsFit tctx.lastCpuCtx calls) :
    ∃ tctx' frames, tctx.run calls = some tctx' ∧
      Journal tctx.cursor calls frames tctx'.cursor ∧
      tctx'.recorded = tctx.recorded ++ frames.flatMap Frame.bytes := by
  induction calls generalizing tctx with
  | nil => exact ⟨tctx, [], rfl, .done _, by rw [List.flatMap_nil, List.append_nil]⟩
  | cons call calls ih =>
    cases call with
    | ctx context =>
      obtain ⟨t₁, written, recorded₁, cursor₁⟩ := tctx.writeLogMsg_spec fit.1
      have last : t₁.lastCpuCtx = context := congrArg Cursor.last cursor₁
      obtain ⟨tctx', frames, rest, journal, recorded⟩ := @ih t₁ (by rw [last]; exact fit.2)
      rw [cursor₁] at journal
      have here := @Journal.ctx tctx.cursor tctx'.cursor context calls frames fit.1 journal
      refine ⟨tctx', _, ?_, here, ?_⟩
      · rw [run, List.foldlM_cons, write, written]
        exact rest
      · rw [recorded, recorded₁, List.append_assoc, ← List.flatMap_append, List.append_assoc]
        rfl
    | pc pc =>
      obtain ⟨t₁, written, recorded₁, cursor₁⟩ := tctx.writeLogMsgPc_spec pc
      have last : t₁.lastCpuCtx = { tctx.lastCpuCtx with pc := pc } := congrArg Cursor.last cursor₁
      obtain ⟨tctx', frames, rest, journal, recorded⟩ := @ih t₁ (by rw [last]; exact fit)
      rw [cursor₁] at journal
      refine ⟨tctx', _, ?_, .pc journal, ?_⟩
      · rw [run, List.foldlM_cons, write, written]
        exact rest
      · rw [recorded, recorded₁, List.append_assoc, ← List.flatMap_append]
        rfl

/-- Calls that the writer's assertions let through are within its limits. -/
theorem callsFit_of_run {tctx tctx' : ThreadCtx} {calls : List LogCall}
    (ran : tctx.run calls = some tctx') : CallsFit tctx.lastCpuCtx calls := by
  induction calls generalizing tctx with
  | nil => trivial
  | cons call calls ih =>
    obtain ⟨t₁, written, rest⟩ := Option.bind_eq_some_iff.mp ran
    have fit := ih rest
    cases call with
    | ctx context =>
      have fits : WithinLimits tctx.lastCpuCtx context := by
        by_contra exceeds
        cases (tctx.writeLogMsg_eq_none exceeds).symm.trans written
      obtain ⟨_, written', _, cursor⟩ := tctx.writeLogMsg_spec fits
      cases written.symm.trans written'
      have last : t₁.lastCpuCtx = context := congrArg Cursor.last cursor
      exact ⟨fits, last ▸ fit⟩
    | pc pc =>
      obtain ⟨_, written', _, cursor⟩ := tctx.writeLogMsgPc_spec pc
      cases written.symm.trans written'
      have last : t₁.lastCpuCtx = { tctx.lastCpuCtx with pc := pc } := congrArg Cursor.last cursor
      rwa [last] at fit

theorem journal_of_run {tctx tctx' : ThreadCtx} {calls : List LogCall}
    (ran : tctx.run calls = some tctx') : ∃ frames,
      Journal tctx.cursor calls frames tctx'.cursor ∧
      tctx'.recorded = tctx.recorded ++ frames.flatMap Frame.bytes := by
  obtain ⟨_, frames, ran', journal, recorded⟩ := run_journal (callsFit_of_run ran)
  cases ran.symm.trans ran'
  exact ⟨frames, journal, recorded⟩

end ThreadCtx

end XnuTrace
