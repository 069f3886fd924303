import XnuTrace.MessageWriter
import XnuTrace.Lib.Framing

/-! The two kinds of frames in a thread log, and what the accessors of `log_msg` read
from each. Whatever a message holds, it is not taken for a sync frame. -/
namespace XnuTrace
open Memory

namespace Delta

/-- The message of `write_log_msg(uint64_t pc)`. -/
def pcOnly (lastPc pc : Uint64) : Delta where
  pc := if lastPc + 4 ≠ pc then some pc else none
  sp := none
  gprs := []
  vecs := []
  gprs_few := Nat.zero_le _
  vecs_few := Nat.zero_le _
  gprs_reg _ h := absurd h List.not_mem_nil
  vecs_reg _ h := absurd h List.not_mem_nil

theorem nextPc_pcOnly (lastPc pc : Uint64) : (pcOnly lastPc pc).nextPc lastPc = pc := by
  unfold nextPc pcOnly
  split
  · rfl
  · rename_i straight
    exact not_not.mp straight

end Delta

inductive Frame where
  | sync (numInst : Uint64) (ctx : LogArm64CpuContext)
  | msg (d : Delta)

namespace Frame

def bytes : Frame → List Uint8
  | sync numInst ctx => LogMsg.syncFrameBufHdrBytes ++ wordBytes 8 numInst ++ ctx.bytes
  | msg d => d.bytes

def isSync : Frame → Bool
  | sync .. => true
  | msg _ => false

theorem length_bytes_sync (numInst : Uint64) (ctx : LogArm64CpuContext) :
    (sync numInst ctx).bytes.length = LogMsg.sizeFullCtx := by
  have header : LogMsg.syncFrameBufHdrBytes.length = 17 * 8 := rfl
  simp only [bytes, List.length_append, length_wordBytes, ctx.length_bytes, header,
    LogMsg.sizeFullCtx, LogMsg.syncFrameSz]

theorem length_bytes_pos (f : Frame) : 0 < f.bytes.length := by
  cases f with
  | sync numInst ctx =>
    rw [length_bytes_sync]
    decide
  | msg d => exact d.length_bytes_pos

section
variable {msg : LogMsg}

theorem isSyncFrame_sync {numInst : Uint64} {ctx : LogArm64CpuContext}
    (holds : Holds msg.mem msg.addr (sync numInst ctx).bytes) : msg.isSyncFrame = true := by
  have header := ((holds_append _ _ _ _).mp ((holds_append _ _ _ _).mp holds).1).1
  have first : Holds msg.mem msg.addr (wordBytes 4 (rpcSetSync 0)) := by
    have split : LogMsg.syncFrameBufHdrBytes =
        wordBytes 4 (rpcSetSync 0) ++ LogMsg.syncFrameBufHdrBytes.drop 4 := rfl
    rw [split] at header
    exact ((holds_append _ _ _ _).mp header).1
  have word : msg.gprChanged = rpcSetSync 0 := loadWord_wordBytes (by decide) first
  rw [LogMsg.isSyncFrame, word, decide_eq_true header]
  rfl

theorem isSyncFrame_eq {f : Frame} (holds : Holds msg.mem msg.addr f.bytes) :
    msg.isSyncFrame = f.isSync := by
  cases f with
  | sync numInst ctx => exact isSyncFrame_sync holds
  | msg d => exact Delta.isSyncFrame_eq holds

theorem eq_sync_of_isSyncFrame {f : Frame} (holds : Holds msg.mem msg.addr f.bytes)
    (sync : msg.isSyncFrame = true) : ∃ numInst ctx, f = .sync numInst ctx := by
  cases f with
  | sync numInst ctx => exact ⟨numInst, ctx, rfl⟩
  | msg d =>
    rw [Delta.isSyncFrame_eq holds] at sync
    cases sync

theorem size_eq {f : Frame} (holds : Holds msg.mem msg.addr f.bytes) :
    msg.size = f.bytes.length := by
  cases f with
  | sync numInst ctx => rw [LogMsg.size, isSyncFrame_sync holds, if_pos rfl, length_bytes_sync]
  | msg d => exact Delta.size_eq holds

theorem syncNumInst_eq {numInst : Uint64} {ctx : LogArm64CpuContext}
    (holds : Holds msg.mem msg.addr (sync numInst ctx).bytes) : msg.syncNumInst = numInst := by
  rw [LogMsg.syncNumInst, isSyncFrame_sync holds, if_pos rfl]
  exact loadWord_wordBytes (by decide) ((holds_append _ _ _ _).mp ((holds_append _ _ _ _).mp holds).1).2

theorem syncCtx_eq {numInst : Uint64} {ctx : LogArm64CpuContext}
    (holds : Holds msg.mem msg.addr (sync numInst ctx).bytes) : msg.syncCtx = some ctx := by
  rw [LogMsg.syncCtx, isSyncFrame_sync holds, if_pos rfl]
  exact congrArg some (LogArm64CpuContext.load_bytes ((holds_append _ _ _ _).mp holds).2)

end

end Frame

end XnuTrace
