import XnuTrace.Frames

/-! `log_thread_buf` and its iterators. They read from a memory that starts with the
buffer and goes on behind it, and on frames in which a message follows every sync frame
they step from message to message. -/
namespace XnuTrace
open Memory Framing

/-- `pc_iterator`'s rule for the message it has stepped to. -/
def LogMsg.nextPc (msg : LogMsg) (pc : Uint64) : Uint64 :=
  if msg.pcBranched then msg.pc else pc + 4

theorem LogMsg.nextPc_eq {d : Delta} {msg : LogMsg} (holds : Holds msg.mem msg.addr d.bytes)
    (pc : Uint64) : msg.nextPc pc = d.nextPc pc := by
  rw [LogMsg.nextPc, Delta.pcBranched_eq holds, Delta.nextPc]
  cases moved : d.pc with
  | none => rfl
  | some pc => exact Delta.pc_eq holds moved

structure Iterator where
  mPtr : Nat
  mEnd : Nat

def Iterator.atEnd (it : Iterator) : Bool := it.mPtr == it.mEnd

def Iterator.next (mem : Nat → Uint8) (it : Iterator) : Iterator :=
  let mPtr := it.mPtr + LogMsg.size ⟨mem, it.mPtr⟩
  if mPtr ≠ it.mEnd ∧ LogMsg.isSyncFrame ⟨mem, mPtr⟩ then
    -- sync frame guaranteed to be followed by non-sync
    { it with mPtr := mPtr + LogMsg.size ⟨mem, mPtr⟩ }
  else { it with mPtr }

structure CtxIterator extends Iterator where
  mCtx : LogArm64CpuContext

/-- `memcpy(&m_ctx, &ctx, sizeof(m_ctx))`: the pointer `ctx` and the stack behind it. -/
def CtxIterator.copied (ctx : Uint64) (stack : Nat → Uint8) : LogArm64CpuContext :=
  .load (ofList (wordBytes 8 ctx) stack) 0

def CtxIterator.next (mem : Nat → Uint8) (it : CtxIterator) : CtxIterator :=
  let res := it.toIterator.next mem
  { toIterator := res, mCtx := it.mCtx.update ⟨mem, res.mPtr⟩ }

structure PcIterator extends Iterator where
  mPc : Uint64

def PcIterator.next (mem : Nat → Uint8) (it : PcIterator) : PcIterator :=
  let res := it.toIterator.next mem
  { toIterator := res, mPc := LogMsg.nextPc ⟨mem, res.mPtr⟩ it.mPc }

structure LogThreadBuf where
  mBuf : List Uint8
  mNumInst : Uint64

namespace LogThreadBuf
variable (buf : LogThreadBuf) (after : Nat → Uint8)

/-- The memory from `m_buf.data()` on, with `after` behind the buffer. -/
def mem : Nat → Uint8 := ofList buf.mBuf after

/-- `none` when the assertion fails. -/
def front : Option LogMsg :=
  let res : LogMsg := ⟨buf.mem after, 0⟩
  if res.isSyncFrame then some res else none

def «begin» : Iterator := { mPtr := 0, mEnd := buf.mBuf.length }

/-- `data` is the address of the buffer, `stack` what follows the parameter `ctx`. -/
def ctxBegin (data : Uint64) (stack : Nat → Uint8) : Option CtxIterator :=
  (buf.front after).map fun _ =>
    { toIterator := buf.begin
      mCtx := CtxIterator.copied (data + BitVec.ofNat 64 LogMsg.syncFrameSz) stack }

def pcsBegin : Option PcIterator := do
  let front ← buf.front after
  let syncCtx ← front.syncCtx
  return { toIterator := buf.begin, mPc := syncCtx.pc }

/-- `none` also when the loop does not end within `fuel` steps. -/
def extractPcsFromTrace (fuel : Nat) : Option (List Uint64) :=
  (buf.pcsBegin after).bind
    (collect (·.atEnd) (PcIterator.next (buf.mem after)) PcIterator.mPc fuel)

end LogThreadBuf

/-! Stepping over frames. -/

namespace Frame

/-- A message follows every sync frame. -/
def Spaced : List Frame → Prop
  | [] => True
  | .msg _ :: fs => Spaced fs
  | .sync .. :: .msg _ :: fs => Spaced fs
  | .sync .. :: _ => False

/-- The messages, without the sync frames between them. -/
def deltas (fs : List Frame) : List Delta :=
  fs.filterMap fun
    | .sync .. => none
    | .msg d => some d

@[simp] theorem deltas_nil : deltas [] = [] := rfl

@[simp] theorem deltas_sync (numInst : Uint64) (ctx : LogArm64CpuContext) (fs : List Frame) :
    deltas (.sync numInst ctx :: fs) = deltas fs := rfl

@[simp] theorem deltas_msg (d : Delta) (fs : List Frame) : deltas (.msg d :: fs) = d :: deltas fs :=
  rfl

@[simp] theorem deltas_append (as bs : List Frame) : deltas (as ++ bs) = deltas as ++ deltas bs :=
  List.filterMap_append

theorem length_deltas_le (fs : List Frame) : (deltas fs).length ≤ (fs.flatMap bytes).length :=
  (List.length_filterMap_le _ _).trans (length_le_flatMap bytes length_bytes_pos fs)

end Frame

open XnuTrace.Frame

theorem LogThreadBuf.holds_mem {buf : LogThreadBuf} {frames : List Frame}
    (recorded : buf.mBuf = frames.flatMap bytes) (after : Nat → Uint8) :
    Holds (buf.mem after) 0 (frames.flatMap bytes) := recorded ▸ holds_ofList buf.mBuf after

/-- The iterator stands on the frame `f`, and `fs` is the rest of the buffer. -/
structure Stands (mem : Nat → Uint8) (it : Iterator) (f : Frame) (fs : List Frame) : Prop where
  holds : Holds mem it.mPtr ((f :: fs).flatMap bytes)
  ends : it.mEnd = it.mPtr + ((f :: fs).flatMap bytes).length
  spaced : Spaced fs

section
variable {mem : Nat → Uint8} {it : Iterator} {f : Frame} {fs : List Frame}

theorem Stands.active (stands : Stands mem it f fs) : it.atEnd = false := by
  have pos := f.length_bytes_pos
  have ends := stands.ends
  rw [List.flatMap_cons, List.length_append] at ends
  rw [Iterator.atEnd, beq_eq_false_iff_ne]
  omega

theorem Stands.here (stands : Stands mem it f fs) : Holds mem it.mPtr f.bytes :=
  ((holds_frames bytes).mp stands.holds).1

/-- One frame further, sync frames counted. -/
theorem Stands.advance {g : Frame} (stands : Stands mem it f (g :: fs)) (spaced : Spaced fs) :
    Stands mem { it with mPtr := it.mPtr + LogMsg.size ⟨mem, it.mPtr⟩ } g fs := by
  have size : LogMsg.size ⟨mem, it.mPtr⟩ = f.bytes.length := size_eq stands.here
  refine ⟨?_, ?_, spaced⟩
  · rw [size]
    exact ((holds_frames bytes).mp stands.holds).2
  · rw [size]
    have ends := stands.ends
    rw [List.flatMap_cons, List.length_append, ← Nat.add_assoc] at ends
    exact ends

theorem Stands.next_last (stands : Stands mem it f []) : (it.next mem).atEnd = true := by
  have size : LogMsg.size ⟨mem, it.mPtr⟩ = f.bytes.length := size_eq stands.here
  have ends := stands.ends
  rw [List.flatMap_singleton] at ends
  have stop : ¬(it.mPtr + f.bytes.length ≠ it.mEnd ∧
      LogMsg.isSyncFrame ⟨mem, it.mPtr + f.bytes.length⟩ = true) := fun h => h.1 ends.symm
  simp only [Iterator.next, size, if_neg stop]
  simp only [Iterator.atEnd, ends, beq_self_eq_true]

theorem Stands.next_msg {d : Delta} (stands : Stands mem it f (.msg d :: fs)) :
    Stands mem (it.next mem) (.msg d) fs := by
  have further := stands.advance stands.spaced
  have plain : LogMsg.isSyncFrame ⟨mem, it.mPtr + LogMsg.size ⟨mem, it.mPtr⟩⟩ = false :=
    Delta.isSyncFrame_eq further.here
  simp only [Iterator.next, plain, Bool.false_eq_true, and_false, if_false]
  exact further

theorem Stands.next_sync {numInst : Uint64} {ctx : LogArm64CpuContext} {d : Delta}
    (stands : Stands mem it f (.sync numInst ctx :: .msg d :: fs)) :
    Stands mem (it.next mem) (.msg d) fs := by
  have further := stands.advance (show Spaced (.msg d :: fs) from stands.spaced)
  have sync : LogMsg.isSyncFrame ⟨mem, it.mPtr + LogMsg.size ⟨mem, it.mPtr⟩⟩ = true :=
    isSyncFrame_sync further.here
  have notEnd : it.mPtr + LogMsg.size ⟨mem, it.mPtr⟩ ≠ it.mEnd := by
    simpa only [Iterator.atEnd, beq_eq_false_iff_ne] using further.active
  simp only [Iterator.next, sync, and_true, ne_eq, notEnd, not_false_eq_true, if_true]
  exact further.advance stands.spaced

/-- The iterator has the messages `ds` before it. -/
def Remaining (mem : Nat → Uint8) (it : Iterator) (ds : List Delta) : Prop :=
  ∃ f fs, Stands mem it f fs ∧ deltas fs = ds

theorem Remaining.active {ds : List Delta} : Remaining mem it ds → it.atEnd = false := by
  rintro ⟨f, fs, stands, _⟩
  exact stands.active

theorem Remaining.ends : Remaining mem it [] → (it.next mem).atEnd = true := by
  rintro ⟨f, fs, stands, none⟩
  match fs, stands, none with
  | [], stands, _ => exact stands.next_last
  | .sync .. :: .msg _ :: _, _, none => cases none
  | .sync .. :: .sync .. :: _, stands, _ => exact absurd stands.spaced id
  | [.sync ..], stands, _ => exact absurd stands.spaced id

theorem Remaining.moves {d : Delta} {ds : List Delta} : Remaining mem it (d :: ds) →
    Remaining mem (it.next mem) ds ∧ Holds mem (it.next mem).mPtr d.bytes := by
  rintro ⟨f, fs, stands, rest⟩
  match fs, stands, rest with
  | .msg d' :: fs, stands, rest =>
    rw [deltas_msg, List.cons.injEq] at rest
    obtain ⟨rfl, rest'⟩ := rest
    exact ⟨⟨_, fs, stands.next_msg, rest'⟩, stands.next_msg.here⟩
  | .sync .. :: .msg d' :: fs, stands, rest =>
    rw [deltas_sync, deltas_msg, List.cons.injEq] at rest
    obtain ⟨rfl, rest'⟩ := rest
    exact ⟨⟨_, fs, stands.next_sync, rest'⟩, stands.next_sync.here⟩
  | .sync .. :: .sync .. :: _, stands, _ => exact absurd stands.spaced id
  | [.sync ..], stands, _ => exact absurd stands.spaced id

end

section
variable {mem : Nat → Uint8} {ds : List Delta} {fuel : Nat}

theorem PcIterator.collect_eq {it : PcIterator} (remaining : Remaining mem it.toIterator ds)
    (enough : ds.length < fuel) : collect (·.atEnd) (PcIterator.next mem) mPc fuel it =
      some (ds.scanl (fun pc d => d.nextPc pc) it.mPc) := by
  refine collect_scanl (R := fun it : PcIterator => Remaining mem it.toIterator)
    (fun it ds => Remaining.active) (fun it => Remaining.ends) (fun it d ds remaining => ?_)
    remaining enough
  obtain ⟨rest, here⟩ := remaining.moves
  exact ⟨rest, @LogMsg.nextPc_eq d ⟨mem, _⟩ here it.mPc⟩

theorem CtxIterator.collect_eq {it : CtxIterator} (remaining : Remaining mem it.toIterator ds)
    (enough : ds.length < fuel) : collect (·.atEnd) (CtxIterator.next mem) mCtx fuel it =
      some (ds.scanl (fun ctx d => d.apply ctx) it.mCtx) := by
  refine collect_scanl (R := fun it : CtxIterator => Remaining mem it.toIterator)
    (fun it ds => Remaining.active) (fun it => Remaining.ends) (fun it d ds remaining => ?_)
    remaining enough
  obtain ⟨rest, here⟩ := remaining.moves
  exact ⟨rest, @Delta.update_eq d ⟨mem, _⟩ here it.mCtx⟩

/-- After the first step the iterator always stands on a message. -/
theorem Iterator.collect_isSyncFrame {it : Iterator} (remaining : Remaining mem it ds)
    (enough : ds.length < fuel) :
    collect (·.atEnd) (Iterator.next mem) (fun it => LogMsg.isSyncFrame ⟨mem, it.mPtr⟩) fuel it =
      some (LogMsg.isSyncFrame ⟨mem, it.mPtr⟩ :: List.replicate ds.length false) := by
  have flags : ∀ (ds : List Delta) (b : Bool), ds.scanl (fun _ _ => false) b =
      b :: List.replicate ds.length false := by
    intro ds
    induction ds with
    | nil => exact fun b => List.scanl_nil
    | cons d ds ih => exact fun b => by rw [List.scanl_cons, ih]; rfl
  rw [← flags]
  refine collect_scanl (R := Remaining mem)
    (fun it ds => Remaining.active) (fun it => Remaining.ends) (fun it d ds remaining => ?_)
    remaining enough
  obtain ⟨rest, here⟩ := remaining.moves
  exact ⟨rest, @Delta.isSyncFrame_eq d ⟨mem, _⟩ here⟩

end

end XnuTrace
