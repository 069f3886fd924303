import XnuTrace.Replay
import XnuTrace.Lib.Reads

/-! What the iterators of `log_thread_buf` read. An increment looks for a sync frame only
before `pointer_end()`, but `pc_iterator` and `ctx_iterator` decode whatever it has reached. -/
namespace XnuTrace
open Memory Framing XnuTrace.Frame Reads

namespace LogMsg
variable (msg : LogMsg)

def readGprChanged : Reads Uint32 := word 32 4 msg.mem msg.addr

def readVecChanged : Reads Uint32 := word 32 4 msg.mem (msg.addr + 4)

/-- `memcmp` reads the whole header, but only behind a change word with the sync flag. -/
def readIsSyncFrame : Reads Bool := do
  if rpcSync (← msg.readGprChanged) then
    let front ← bytes msg.mem msg.addr syncFrameBufHdrBytes.length
    return decide (front = syncFrameBufHdrBytes)
  else return false

def readNumFixed : Reads Uint32 := return rpcNumFixedChanged (← msg.readGprChanged)

def readNumGpr : Reads Uint32 := return rpcNumChanged (← msg.readGprChanged)

def readNumVec : Reads Uint32 := return rpcNumChanged (← msg.readVecChanged)

def readSize : Reads Nat := do
  if ← msg.readIsSyncFrame then return sizeFullCtx
  else
    let numFixed ← msg.readNumFixed
    let numGpr ← msg.readNumGpr
    let numVec ← msg.readNumVec
    return sizeofLogMsg + numFixed.toNat * 8 + numGpr.toNat * 8 + numVec.toNat * 16

def readPcBranched : Reads Bool := return rpcPcBranched (← msg.readGprChanged)

def readSpChanged : Reads Bool := return rpcSpChanged (← msg.readGprChanged)

def readPc : Reads Uint64 := word 64 8 msg.mem (msg.addr + sizeofLogMsg)

def readSp : Reads Uint64 := do
  let pcBranched ← msg.readPcBranched
  word 64 8 msg.mem (msg.addr + (sizeofLogMsg + pcBranched.toNat * 8))

def readGprIdx (changeIdx : Nat) : Reads Uint32 := return rpcRegIdx (← msg.readGprChanged) changeIdx

def readGpr (changeIdx : Nat) : Reads Uint64 := do
  let numFixed ← msg.readNumFixed
  word 64 8 msg.mem (msg.addr + (sizeofLogMsg + numFixed.toNat * 8) + 8 * changeIdx)

def readVecIdx (changeIdx : Nat) : Reads Uint32 := return rpcRegIdx (← msg.readVecChanged) changeIdx

def readVec (changeIdx : Nat) : Reads Uint128 := do
  let numFixed ← msg.readNumFixed
  let numGpr ← msg.readNumGpr
  word 128 16 msg.mem
    (msg.addr + (sizeofLogMsg + numFixed.toNat * 8 + numGpr.toNat * 8) + 16 * changeIdx)

/-- The address of the context; reading it is left to the caller. -/
def readSyncCtx : Reads (Option Nat) := do
  if ← msg.readIsSyncFrame then return some (msg.addr + syncFrameSz) else return none

end LogMsg

namespace LogArm64CpuContext

/-- `memcpy` of a whole context. -/
def readLoad (m : Nat → Uint8) (p : Nat) : Reads LogArm64CpuContext :=
  { val := load m p, addrs := List.range' p sizeofLogArm64CpuContext }

def readUpdate (c : LogArm64CpuContext) (msg : LogMsg) : Reads LogArm64CpuContext := do
  match ← msg.readSyncCtx with
  | some syncCtx => readLoad msg.mem syncCtx
  | none =>
    let branched ← msg.readPcBranched
    let c ← if branched then (fun pc => { c with pc }) <$> msg.readPc else pure c
    let changed ← msg.readSpChanged
    let c ← if changed then (fun sp => { c with sp }) <$> msg.readSp else pure c
    let numGpr ← msg.readNumGpr
    let c ← (List.range numGpr.toNat).foldlM
      (fun c i => return c.setSlot (← msg.readGprIdx i).toNat (← msg.readGpr i)) c
    let numVec ← msg.readNumVec
    (List.range numVec.toNat).foldlM
      (fun c i => return c.setVec (← msg.readVecIdx i).toNat (← msg.readVec i)) c

end LogArm64CpuContext

def Iterator.readNext (mem : Nat → Uint8) (it : Iterator) : Reads Iterator := do
  let mPtr := it.mPtr + (← LogMsg.readSize ⟨mem, it.mPtr⟩)
  if mPtr = it.mEnd then return { it with mPtr }
  else if ← LogMsg.readIsSyncFrame ⟨mem, mPtr⟩ then
    return { it with mPtr := mPtr + (← LogMsg.readSize ⟨mem, mPtr⟩) }
  else return { it with mPtr }

def CtxIterator.readNext (mem : Nat → Uint8) (it : CtxIterator) : Reads CtxIterator := do
  let res ← it.toIterator.readNext mem
  return { toIterator := res, mCtx := ← it.mCtx.readUpdate ⟨mem, res.mPtr⟩ }

def PcIterator.readNext (mem : Nat → Uint8) (it : PcIterator) : Reads PcIterator := do
  let res ← it.toIterator.readNext mem
  let msg : LogMsg := ⟨mem, res.mPtr⟩
  if ← msg.readPcBranched then return { toIterator := res, mPc := ← msg.readPc }
  else return { toIterator := res, mPc := it.mPc + 4 }

namespace LogThreadBuf
variable (buf : LogThreadBuf) (after : Nat → Uint8)

/-- `none` when the assertion fails. -/
def readFront : Reads (Option LogMsg) := do
  let res : LogMsg := ⟨buf.mem after, 0⟩
  if ← res.readIsSyncFrame then return some res else return none

/-- `front().sync_ctx()`. -/
def readFrontCtx : Reads (Option Nat) := do
  match ← buf.readFront after with
  | some front => front.readSyncCtx
  | none => return none

/-- `begin()` to `end()`, in at most `fuel` increments. -/
def readMsgs (fuel : Nat) : Reads (Option Iterator) :=
  traverse (·.atEnd) (Iterator.readNext (buf.mem after)) fuel buf.begin

/-- `pcs_begin()` to `pcs_end()`. -/
def readPcs (fuel : Nat) : Reads (Option PcIterator) := do
  match ← buf.readFrontCtx after with
  | none => return none
  | some syncCtx =>
    let mPc ← word 64 8 (buf.mem after) syncCtx
    traverse (·.atEnd) (PcIterator.readNext (buf.mem after)) fuel { toIterator := buf.begin, mPc }

/-- `ctx_begin()` to `ctx_end()`; the `memcpy` of the first context reads the stack. -/
def readCtxs (data : Uint64) (stack : Nat → Uint8) (fuel : Nat) : Reads (Option CtxIterator) := do
  match ← buf.readFrontCtx after with
  | none => return none
  | some syncCtx =>
    let mCtx := CtxIterator.copied (data + BitVec.ofNat 64 syncCtx) stack
    traverse (·.atEnd) (CtxIterator.readNext (buf.mem after)) fuel { toIterator := buf.begin, mCtx }

/-- The three full traversals read nothing behind the buffer. -/
structure StaysInside (data : Uint64) (stack : Nat → Uint8) : Prop where
  msgs : ∀ fuel, Below buf.mBuf.length (buf.readMsgs after fuel)
  pcs : ∀ fuel, Below buf.mBuf.length (buf.readPcs after fuel)
  ctxs : ∀ fuel, Below buf.mBuf.length (buf.readCtxs after data stack fuel)

end LogThreadBuf

/-! The reads do not change what is computed. -/

section
variable (mem : Nat → Uint8)

theorem slice_eq_iff (p : Nat) (bs : List Uint8) : slice mem p bs.length = bs ↔ Holds mem p bs := by
  refine ⟨fun same i hi => ?_, slice_eq⟩
  have inside : i < (slice mem p bs.length).length := by
    rwa [slice, List.length_map, List.length_range]
  have here : (slice mem p bs.length)[i] = mem (p + i) := by simp [slice]
  rw [← here]
  exact List.getElem_of_eq same inside

namespace LogMsg
variable (msg : LogMsg)

@[simp] theorem val_readIsSyncFrame : msg.readIsSyncFrame.val = msg.isSyncFrame := by
  have word : msg.readGprChanged.val = msg.gprChanged := rfl
  rw [readIsSyncFrame, val_bind, word, isSyncFrame]
  cases rpcSync msg.gprChanged with
  | false => rfl
  | true =>
    rw [if_pos rfl, val_bind, val_pure, val_bytes, Bool.true_and]
    exact decide_eq_decide.mpr (slice_eq_iff msg.mem msg.addr _)

@[simp] theorem val_readSize : msg.readSize.val = msg.size := by
  rw [readSize, val_bind, val_readIsSyncFrame, size]
  cases msg.isSyncFrame <;> rfl

end LogMsg

theorem LogArm64CpuContext.val_readUpdate (c : LogArm64CpuContext) (msg : LogMsg) :
    (c.readUpdate msg).val = c.update msg := by
  rw [readUpdate, update, LogMsg.readSyncCtx, LogMsg.syncCtx, val_bind, val_bind,
    LogMsg.val_readIsSyncFrame]
  cases msg.isSyncFrame with
  | true => rfl
  | false =>
    have branched : msg.readPcBranched.val = msg.pcBranched := rfl
    have moved : msg.readSpChanged.val = msg.spChanged := rfl
    simp only [Bool.false_eq_true, if_false, apply_ite Reads.val, val_pure, val_bind, val_foldlM,
      branched, moved]
    cases msg.pcBranched <;> cases msg.spChanged <;> rfl

@[simp] theorem Iterator.val_readNext (it : Iterator) : (it.readNext mem).val = it.next mem := by
  rw [readNext, val_bind, LogMsg.val_readSize, next]
  dsimp only
  by_cases last : it.mPtr + LogMsg.size ⟨mem, it.mPtr⟩ = it.mEnd
  · rw [if_pos last, if_neg fun h => h.1 last]
    rfl
  rw [if_neg last, val_bind, LogMsg.val_readIsSyncFrame]
  cases LogMsg.isSyncFrame ⟨mem, it.mPtr + LogMsg.size ⟨mem, it.mPtr⟩⟩ with
  | false => rw [if_neg (by decide), if_neg fun h => Bool.false_ne_true h.2, val_pure]
  | true => rw [if_pos rfl, if_pos ⟨last, rfl⟩, val_bind, LogMsg.val_readSize, val_pure]

theorem CtxIterator.val_readNext (it : CtxIterator) : (it.readNext mem).val = it.next mem := by
  simp only [readNext, next, val_bind, Iterator.val_readNext, val_pure,
    LogArm64CpuContext.val_readUpdate]

theorem PcIterator.val_readNext (it : PcIterator) : (it.readNext mem).val = it.next mem := by
  have branched : ∀ msg : LogMsg, msg.readPcBranched.val = msg.pcBranched := fun _ => rfl
  rw [readNext, next, val_bind, Iterator.val_readNext, val_bind, branched, LogMsg.nextPc]
  cases LogMsg.pcBranched ⟨mem, (it.toIterator.next mem).mPtr⟩ <;> rfl

end

/-! Where they read. -/

section
variable {msg : LogMsg} {f : Frame}

theorem below_readIsSyncFrame (holds : Holds msg.mem msg.addr f.bytes) :
    Below (msg.addr + f.bytes.length) msg.readIsSyncFrame := by
  have header : LogMsg.syncFrameBufHdrBytes.length = 136 := rfl
  rw [LogMsg.readIsSyncFrame, below_bind, LogMsg.readGprChanged, below_word _ (by decide)]
  cases f with
  | sync numInst ctx =>
    have size : (Frame.sync numInst ctx).bytes.length = 144 + 0x310 := length_bytes_sync numInst ctx
    refine ⟨by omega, ?_⟩
    split
    · rw [below_bind, below_bytes _ (by rw [header]; decide), header]
      exact ⟨by omega, below_pure _⟩
    · exact below_pure _
  | msg d =>
    have size : (Frame.msg d).bytes.length = _ := d.length_bytes
    have word : loadWord 32 4 msg.mem msg.addr = d.gprWord := Delta.gprChanged_eq holds
    have plain : rpcSync d.gprWord = false := rpcSync_changeWord _ _ d.gpr_small d.gpr_few
    refine ⟨by omega, ?_⟩
    rw [val_word, word, plain]
    exact below_pure _

theorem below_readSize (holds : Holds msg.mem msg.addr f.bytes) :
    Below (msg.addr + f.bytes.length) msg.readSize := by
  have words : 8 ≤ f.bytes.length := by
    cases f with
    | sync numInst ctx =>
      rw [length_bytes_sync]
      decide
    | msg d =>
      rw [Frame.bytes, d.length_bytes]
      omega
  have gpr : Below (msg.addr + f.bytes.length) msg.readGprChanged :=
    (below_word 32 (by decide) msg.mem msg.addr).mpr (by omega)
  have vec : Below (msg.addr + f.bytes.length) msg.readVecChanged :=
    (below_word 32 (by decide) msg.mem (msg.addr + 4)).mpr (by omega)
  rw [LogMsg.readSize, below_bind]
  refine ⟨below_readIsSyncFrame holds, ?_⟩
  split
  · exact below_pure _
  · simp only [LogMsg.readNumFixed, LogMsg.readNumGpr, LogMsg.readNumVec, below_bind, below_pure,
      gpr, vec, and_self]

end

section
variable {mem : Nat → Uint8} {it : Iterator} {f : Frame} {fs : List Frame}

/-- An increment of `iterator` reads no further than the buffer. -/
theorem Stands.below_readNext (stands : Stands mem it f fs) : Below it.mEnd (it.readNext mem) := by
  have size : LogMsg.size ⟨mem, it.mPtr⟩ = f.bytes.length := size_eq stands.here
  have ends := stands.ends
  rw [List.flatMap_cons, List.length_append, ← size, ← Nat.add_assoc] at ends
  have first := @below_readSize ⟨mem, it.mPtr⟩ f stands.here
  rw [← size] at first
  rw [Iterator.readNext, below_bind, LogMsg.val_readSize]
  refine ⟨first.mono (Nat.le.intro ends.symm), ?_⟩
  dsimp only
  split
  · exact below_pure _
  rename_i more
  cases fs with
  | nil => exact absurd ends.symm more
  | cons g fs =>
    have next := ((holds_frames bytes).mp stands.holds).2
    rw [← size] at next
    have here : Holds mem _ g.bytes := ((holds_frames bytes).mp next).1
    rw [List.flatMap_cons, List.length_append, ← Nat.add_assoc] at ends
    have second : ∀ {α : Type} {r : Reads α}, Below (it.mPtr + LogMsg.size ⟨mem, it.mPtr⟩ +
        g.bytes.length) r → Below it.mEnd r := fun below => below.mono (Nat.le.intro ends.symm)
    rw [below_bind]
    refine ⟨second (@below_readIsSyncFrame ⟨mem, _⟩ g here), ?_⟩
    split
    · rw [below_bind]
      exact ⟨second (@below_readSize ⟨mem, _⟩ g here), below_pure _⟩
    · exact below_pure _

theorem Iterator.next_mEnd (it : Iterator) : (it.next mem).mEnd = it.mEnd := by
  rw [Iterator.next]
  split <;> rfl

/-- Every step of `begin()` to `end()`, the last one included. -/
theorem Remaining.below_readMsgs {ds : List Delta} (remaining : Remaining mem it ds) (fuel : Nat) :
    Below it.mEnd (traverse (·.atEnd) (Iterator.readNext mem) fuel it) := by
  let Inv (it' : Iterator) := it'.mEnd = it.mEnd ∧
    (it'.atEnd = true ∨ ∃ ds, Remaining mem it' ds)
  have bound : ∀ it', Inv it' → it'.atEnd = false →
      Below it.mEnd (it'.readNext mem) ∧ Inv (it'.readNext mem).val := by
    rintro it' ⟨same, atEnd | ⟨ds, remaining⟩⟩ active
    · exact absurd (atEnd.symm.trans active) (by decide)
    rw [Iterator.val_readNext]
    refine ⟨?_, (it'.next_mEnd).trans same, ?_⟩
    · obtain ⟨f, fs, stands, _⟩ := remaining
      exact same ▸ stands.below_readNext
    · cases ds with
      | nil => exact .inl remaining.ends
      | cons d ds => exact .inr ⟨ds, remaining.moves.1⟩
  exact traverse_below bound ⟨rfl, .inr ⟨ds, remaining⟩⟩ fuel

/-- An iterator that decodes what it has moved onto decodes what follows the buffer. -/
theorem Remaining.reads_behind {I : Type} (base : I → Iterator) {next : I → Reads I}
    (moves : ∀ it, base (next it).val = (base it).next mem)
    (decodes : ∀ it, ∀ a ∈ List.range' ((base it).next mem).mPtr 4, a ∈ (next it).addrs) {it : I}
    {ds : List Delta} (remaining : Remaining mem (base it) ds) {fuel : Nat}
    (enough : ds.length < fuel) : ∀ a ∈ List.range' (base it).mEnd 4,
      a ∈ (traverse (fun it => (base it).atEnd) next fuel it).addrs := by
  let R (it' : I) (ds : List Delta) := (base it').mEnd = (base it).mEnd ∧ Remaining mem (base it') ds
  have ends : ∀ it', R it' [] → (base (next it').val).atEnd = true := by
    rintro it' ⟨_, remaining⟩
    rw [moves]
    exact remaining.ends
  have step : ∀ it' d ds, R it' (d :: ds) → R (next it').val ds := by
    rintro it' d ds ⟨same, remaining⟩
    change (base (next it').val).mEnd = _ ∧ Remaining mem (base (next it').val) ds
    rw [moves]
    exact ⟨((base it').next_mEnd).trans same, remaining.moves.1⟩
  obtain ⟨last, ⟨same, atLast⟩, _, reads⟩ :=
    traverse_spec (fun it' ds h => h.2.active) ends step ⟨rfl, remaining⟩ enough
  have reached : ((base last).next mem).mPtr = (base it).mEnd := by
    rw [← same, ← (base last).next_mEnd]
    exact beq_iff_eq.mp atLast.ends
  intro a member
  exact reads a (decodes last a (reached ▸ member))

theorem PcIterator.decodes (it : PcIterator) {a : Nat}
    (member : a ∈ List.range' (it.toIterator.next mem).mPtr 4) : a ∈ (it.readNext mem).addrs := by
  rw [readNext, addrs_bind, Iterator.val_readNext, addrs_bind]
  exact List.mem_append_right _ (List.mem_append_left _ (List.mem_append_left _ member))

theorem CtxIterator.decodes (it : CtxIterator) {a : Nat}
    (member : a ∈ List.range' (it.toIterator.next mem).mPtr 4) : a ∈ (it.readNext mem).addrs := by
  rw [readNext, addrs_bind, Iterator.val_readNext, addrs_bind, LogArm64CpuContext.readUpdate,
    addrs_bind, LogMsg.readSyncCtx, addrs_bind, LogMsg.readIsSyncFrame, addrs_bind]
  iterate 1 apply List.mem_append_right
  iterate 4 apply List.mem_append_left
  exact member

end

theorem LogThreadBuf.val_readFront (buf : LogThreadBuf) (after : Nat → Uint8) :
    (buf.readFront after).val = buf.front after := by
  rw [readFront, front, val_bind, LogMsg.val_readIsSyncFrame]
  cases LogMsg.isSyncFrame ⟨buf.mem after, 0⟩ <;> rfl

theorem LogThreadBuf.val_readFrontCtx {buf : LogThreadBuf} {after : Nat → Uint8} {msg : LogMsg}
    (front : buf.front after = some msg) :
    (buf.readFrontCtx after).val = some LogMsg.syncFrameSz := by
  have sync : LogMsg.isSyncFrame ⟨buf.mem after, 0⟩ = true ∧ msg = ⟨buf.mem after, 0⟩ := by
    rw [LogThreadBuf.front] at front
    split at front
    · exact ⟨‹_›, (Option.some.inj front).symm⟩
    · cases front
  rw [readFrontCtx, val_bind, val_readFront, front, sync.2]
  change (LogMsg.readSyncCtx _).val = _
  rw [LogMsg.readSyncCtx, val_bind, LogMsg.val_readIsSyncFrame, sync.1, if_pos rfl, val_pure,
    Nat.zero_add]

/-- The traversals over the buffer of a thread whose first call logs a context. -/
theorem traversals_read {c : LogArm64CpuContext} {calls : List LogCall} {frames : List Frame}
    {t : Cursor} {tctx : ThreadCtx}
    (journal : Journal (.first (.ctx c)) (.ctx c :: calls) frames t)
    (recorded : tctx.recorded = frames.flatMap bytes) (after : Nat → Uint8) :
    (∀ fuel, Below tctx.recorded.length (tctx.threadBuf.readMsgs after fuel)) ∧
    ∀ fuel, tctx.recorded.length < fuel → ∀ a ∈ List.range' tctx.recorded.length 4,
      a ∈ (tctx.threadBuf.readPcs after fuel).addrs ∧
      ∀ data stack, a ∈ (tctx.threadBuf.readCtxs after data stack fuel).addrs := by
  obtain ⟨remaining, front, _⟩ := remaining_first journal recorded after
  have found := LogThreadBuf.val_readFrontCtx front
  refine ⟨remaining.below_readMsgs, fun fuel enough a member => ?_⟩
  have few : (deltas frames).length < fuel :=
    (length_deltas_le frames).trans_lt (recorded ▸ enough)
  refine ⟨?_, fun data stack => ?_⟩
  · rw [LogThreadBuf.readPcs, addrs_bind, found]
    refine List.mem_append_right _ (List.mem_append_right _ ?_)
    exact Remaining.reads_behind PcIterator.toIterator
      (fun it => by rw [PcIterator.val_readNext]; rfl) (fun it a => it.decodes) remaining few a member
  · rw [LogThreadBuf.readCtxs, addrs_bind, found]
    refine List.mem_append_right _ ?_
    exact Remaining.reads_behind CtxIterator.toIterator
      (fun it => by rw [CtxIterator.val_readNext]; rfl) (fun it a => it.decodes) remaining few a
      member

section
variable (hash : Hasher) (sortBuckets : BucketSort 32) (mCompressionLevel : Int) (mStream : Bool)
  (thread : Uint32) {c : LogArm64CpuContext} {cs : List LogArm64CpuContext}

/-- Whatever was logged, the last increments of `pc_iterator` and `ctx_iterator` read a change
word at `pointer_end()`; `iterator` alone stays inside. -/
theorem traversals_leave_buffer (fit : (c :: cs).IsChain WithinLimits) :
    ∃ tctx, TraceLog.Logs hash sortBuckets mCompressionLevel mStream thread
        ((c :: cs).map .ctx) tctx ∧
      ∀ after data stack,
        (∀ fuel, Below tctx.recorded.length (tctx.threadBuf.readMsgs after fuel)) ∧
        (¬ ∀ fuel, Below tctx.recorded.length (tctx.threadBuf.readPcs after fuel)) ∧
        (¬ ∀ fuel, Below tctx.recorded.length (tctx.threadBuf.readCtxs after data stack fuel)) ∧
        ¬ tctx.threadBuf.StaysInside after data stack := by
  obtain ⟨tctx, frames, logs, journal, recorded⟩ :=
    TraceLog.logs_journal hash sortBuckets mCompressionLevel mStream thread (callsFit_first fit)
  refine ⟨tctx, logs, fun after data stack => ?_⟩
  obtain ⟨msgs, behind⟩ := traversals_read journal recorded after
  obtain ⟨pcs, ctxs⟩ := behind _ (Nat.lt_succ_self _) tctx.recorded.length (by simp)
  have leavesPcs : ¬ ∀ fuel, Below tctx.recorded.length (tctx.threadBuf.readPcs after fuel) :=
    fun inside => Nat.lt_irrefl _ (inside _ _ pcs)
  refine ⟨msgs, leavesPcs, fun inside => ?_, fun inside => leavesPcs inside.pcs⟩
  exact Nat.lt_irrefl _ (inside _ _ (ctxs data stack))

theorem traversals_leave_buffer_one :
    ∃ tctx, TraceLog.Logs (jevhash32 0x85EBCA77) stableBucketSort 0 false 0x103
        [.ctx .zero] tctx ∧
      ∀ after data stack, ¬ tctx.threadBuf.StaysInside after data stack := by
  obtain ⟨tctx, logs, reads⟩ := traversals_leave_buffer (jevhash32 0x85EBCA77)
    stableBucketSort 0 false 0x103 (.singleton .zero)
  exact ⟨tctx, logs, fun after data stack => (reads after data stack).2.2.2⟩

/-- One context, with nothing but zeros behind the buffer. -/
theorem traversals_leave_buffer_zeros :
    ∃ tctx, TraceLog.Logs (jevhash32 0x85EBCA77) stableBucketSort 0 false 0x103
        [.ctx .zero] tctx ∧
      ¬ tctx.threadBuf.StaysInside (fun _ => 0) 0x600000000000 fun _ => 0 := by
  obtain ⟨tctx, frames, logs, journal, recorded⟩ := TraceLog.logs_journal (jevhash32 0x85EBCA77)
    stableBucketSort 0 false 0x103 (callsFit_first (.singleton .zero))
  have behind := (traversals_read journal recorded fun _ => 0).2 _ (Nat.lt_succ_self _)
    tctx.recorded.length (by simp)
  exact ⟨tctx, logs, fun inside => Nat.lt_irrefl _ (inside.pcs _ _ behind.1)⟩

end

end XnuTrace
