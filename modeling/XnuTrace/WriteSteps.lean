import XnuTrace.FileStreams
import XnuTrace.Lib.Interrupted

/-! `TraceLog::write` one file operation after the other, so that it may be cut off between
any two. What was written is on disk when the buffer of the stream has let it go, at a seek at the
latest. A step is marked with the region whose file then has its header on disk and not its size. -/
namespace XnuTrace
open Stdio

abbrev Steps (α : Type) := Prog (Option ImageInfo) Directory α

namespace TraceLog
variable (z : ZstdStreams) (spill : Spill Uint8)

/-- A method of an open file: the directory after each of the calls it makes, of which it has
made `before`. -/
def onFile (name : List Uint8) (mark : List (Op Uint8) → Option ImageInfo) (before : List (Op Uint8))
    (method : Option (FileWriter z)) : Steps (FileWriter z) := do
  let w ← Prog.ofOption method
  Prog.each
    (fun k => Prog.step (mark (w.mFh.take k)) fun dir =>
      Assoc.put dir (name, onDisk spill (w.mFh.take k)))
    (List.range' (before.length + 1) (w.mFh.length - before.length))
  return w

/-- The constructor; `fopen` makes an empty file. -/
def openFile (name : List Uint8) (mark : List (Op Uint8) → Option ImageInfo) (hdrMagic : Uint64)
    (hdr : List Uint8) (level : Int) : Steps (FileWriter z) := do
  Prog.step none fun dir => Assoc.put dir (name, [])
  onFile z spill name mark [] (FileWriter.create z hdrMagic hdr level)

def unmarked (_ : List (Op Uint8)) : Option ImageInfo := none

/-- Whether after these calls the file of the region has its headers on disk and not its size. -/
def unfinished (region : ImageInfo) (ops : List (Op Uint8)) : Option ImageInfo :=
  if sizeofLogCompHdr + region.digest.toList.length ≤ (onDisk spill ops).length ∧
    ¬ FileWriter.sizeOnDisk spill ops then some region else none

def writeMeta (regions : List ImageInfo) (syms : List SymInfo) : Steps (FileWriter z) := do
  let metaFh ← openFile z spill metaBin unmarked logMetaHdrMagic
    (logMetaHdr (BitVec.ofNat 64 regions.length) (BitVec.ofNat 64 syms.length)) 0
  Prog.fold (fun metaFh buf => onFile z spill metaBin unmarked metaFh.mFh (metaFh.write buf)) metaFh
    (metaBufs regions syms)

/-- `fs::remove` for the files of a listing that have such a name. -/
def removeAll (unwanted : List Uint8 → Bool) : Steps Unit := do
  let listed ← Prog.ask fun dir : Directory => some (dir.filter fun e => unwanted e.1)
  Prog.each (fun e => Prog.step none fun dir => dir.filter fun f => f.1 ≠ e.1) listed

/-- `TraceLog(log_dir_path, compression_level, stream)`. -/
def construct : Steps Unit := removeAll fun name => !isMachoRegion name

def removeUnused (reused : List (List Uint8)) : Steps Unit :=
  removeAll fun name => isMachoRegion name && !reused.contains name

def writeRegion (region : ImageInfo) : Steps Unit := do
  let name := cStr region.logPath
  let mark := unfinished spill region
  let regionFh ← openFile z spill name mark logMachoRegionHdrMagic region.digest.toList 1
  let regionFh ← onFile z spill name mark regionFh.mFh (regionFh.write region.bytes)
  let _ ← onFile z spill name mark regionFh.mFh regionFh.close

/-- A stream while the log records. -/
def recordStream (tid : Uint32) (tctx : ThreadCtx) : Steps Unit := do
  let logStream ← Prog.ofOption tctx.logStream
  let w ← openFile z spill (threadName tid) unmarked logStream.hdrMagic logStream.mHdrBuf logStream.level
  let _ ← Prog.fold (fun w buf => onFile z spill (threadName tid) unmarked w.mFh (w.write buf)) w
    logStream.pieces

/-- What the calls of `log` write. Streams of different threads do not meet, so that one
stands here behind the other. -/
def recordSteps (log : TraceLog) : Steps Unit :=
  if log.mStream then
    Prog.each (fun kv => recordStream z spill kv.1 kv.2) log.mThreadCtxs.mKeyVals
  else return ()

/-- A stream as the log has left it. -/
def streamFh (logStream : CompressedFile) : Option (FileWriter z) := do
  let w ← FileWriter.create z logStream.hdrMagic logStream.mHdrBuf logStream.level
  logStream.pieces.foldlM FileWriter.write w

def closeStream (tid : Uint32) (tctx : ThreadCtx) : Steps Unit := do
  let logStream ← Prog.ofOption tctx.logStream
  let w ← Prog.ofOption <| streamFh z logStream
  let w := { w with mHdrBuf := logStream.mHdrBuf.take 8 ++ Memory.wordBytes 8 tctx.numInst }
  let _ ← onFile z spill (threadName tid) unmarked w.mFh w.close

def writeThread (log : TraceLog) (tid : Uint32) (tctx : ThreadCtx) : Steps Unit := do
  let threadFh ← openFile z spill (threadName tid) unmarked logThreadHdrMagic
    (logThreadHdr (tid.setWidth 64) tctx.numInst) log.mCompressionLevel
  let threadFh ← onFile z spill (threadName tid) unmarked threadFh.mFh (threadFh.write tctx.logBuf)
  let _ ← onFile z spill (threadName tid) unmarked threadFh.mFh threadFh.close

/-- The files of the threads; `metaFh` goes out of scope before the log does with its streams. -/
def writeThreads (log : TraceLog) (metaFh : FileWriter z) : Steps Unit :=
  if log.mStream then do
    let _ ← onFile z spill metaBin unmarked metaFh.mFh metaFh.close
    Prog.each (fun kv => closeStream z spill kv.1 kv.2) log.mThreadCtxs.mKeyVals
  else do
    Prog.each (fun kv => writeThread z spill log kv.1 kv.2) log.mThreadCtxs.mKeyVals
    let _ ← onFile z spill metaBin unmarked metaFh.mFh metaFh.close

/-- `TraceLog::write` and the end of the log. -/
def writeSteps (log : TraceLog) (after : Nat → Uint8) (overlapFind : OverlapFind)
    (sortSyms : BaseSort SymInfo SymInfo.base) (regions : List ImageInfo)
    (symbols : Option Symbols) : Steps Unit := do
  let syms ← Prog.ofOption <| log.savedSyms after overlapFind sortSyms regions symbols
  let metaFh ← writeMeta z spill regions syms
  let reused ← Prog.ask fun dir => reusedMachoRegions dir regions
  removeUnused reused
  Prog.each (writeRegion z spill) (regions.filter fun region => !reused.contains region.logPath)
  writeThreads z spill log metaFh

/-! One file. -/

section
variable {z : ZstdStreams} {spill : Spill Uint8} {name : List Uint8}
  {mark : List (Op Uint8) → Option ImageInfo} {before : List (Op Uint8)}

/-- Each step on a file replaces it. -/
theorem each_put (mark : Nat → Option ImageInfo) (file : Nat → List Uint8) (ks : List Nat)
    (dir : Directory) :
    Prog.each (fun k => Prog.step (mark k) fun dir => Assoc.put dir (name, file k)) ks dir =
      { stops := ks.map fun k => (mark k, Assoc.put dir (name, file k))
        done := some ((), (ks.getLast?.map fun k => Assoc.put dir (name, file k)).getD dir) } := by
  induction ks generalizing dir with
  | nil => rfl
  | cons k ks ih =>
    have rest := ih (Assoc.put dir (name, file k))
    simp only [Assoc.put_put] at rest
    rw [Prog.each, Prog.step_bind, rest]
    cases ks with
    | nil => rfl
    | cons k' ks =>
      obtain ⟨last, found⟩ : ∃ last, (k' :: ks).getLast? = some last :=
        ⟨_, List.getLast?_eq_some_getLast (List.cons_ne_nil k' ks)⟩
      rw [List.getLast?_cons_cons, found]
      rfl

/-- A method on a file that shows the calls made before it. -/
theorem onFile_eq {w : FileWriter z} (added : before <+: w.mFh) (dir : Directory) :
    onFile z spill name mark before (some w) (Assoc.put dir (name, onDisk spill before)) =
      { stops := (List.range' (before.length + 1) (w.mFh.length - before.length)).map fun k =>
          (mark (w.mFh.take k), Assoc.put dir (name, onDisk spill (w.mFh.take k)))
        done := some (w, Assoc.put dir (name, onDisk spill w.mFh)) } := by
  obtain ⟨more, calls⟩ := added
  have count : w.mFh.length - before.length = more.length := by
    rw [← calls, List.length_append, Nat.add_sub_cancel_left]
  have steps := @each_put name (fun k => mark (w.mFh.take k)) (fun k => onDisk spill (w.mFh.take k))
    (List.range' (before.length + 1) (w.mFh.length - before.length))
    (Assoc.put dir (name, onDisk spill before))
  simp only [Assoc.put_put, List.getLast?_range', count] at steps
  have last : ((if more.length = 0 then none else some (before.length + 1 + more.length - 1)).map
      (fun k => Assoc.put dir (name, onDisk spill (w.mFh.take k)))).getD
        (Assoc.put dir (name, onDisk spill before)) = Assoc.put dir (name, onDisk spill w.mFh) := by
    cases more with
    | nil => rw [← calls, List.append_nil]; rfl
    | cons op more =>
      have whole : before.length + 1 + (op :: more).length - 1 = w.mFh.length := by
        rw [← calls, List.length_append]
        omega
      have some : (op :: more).length ≠ 0 := Nat.succ_ne_zero _
      rw [if_neg some, whole, Option.map_some, List.take_length]
      rfl
  rw [last] at steps
  rw [onFile, Prog.ofOption_bind, count, Prog.bind_of_done (congrArg Interrupted.done steps), steps]
  exact congrArg (Interrupted.mk · _) (List.append_nil _)

theorem openFile_eq {hdrMagic : Uint64} {hdr : List Uint8} {level : Int} {w : FileWriter z}
    (created : FileWriter.create z hdrMagic hdr level = some w) (dir : Directory) :
    openFile z spill name mark hdrMagic hdr level dir =
      { stops := (none, Assoc.put dir (name, [])) :: (List.range' 1 w.mFh.length).map fun k =>
          (mark (w.mFh.take k), Assoc.put dir (name, onDisk spill (w.mFh.take k)))
        done := some (w, Assoc.put dir (name, onDisk spill w.mFh)) } := by
  have opened := @onFile_eq z spill name mark [] w List.nil_prefix dir
  rw [List.length_nil, Nat.zero_add, Nat.sub_zero] at opened
  rw [openFile, Prog.step_bind, created]
  change Interrupted.mk
    (_ :: (onFile z spill name mark [] (some w) (Assoc.put dir (name, []))).stops)
    (onFile z spill name mark [] (some w) (Assoc.put dir (name, []))).done = _
  rw [← onDisk_nil spill, opened, onDisk_nil]

end

/-! A region's file. -/

/-- What a cut leaves of it, with the mark of the last step. -/
inductive RegionState (z : ZstdStreams) (r : ImageInfo) : Option ImageInfo → List Uint8 → Prop
  | short {file : List Uint8} : file.length < sizeofLogCompHdr + r.digest.toList.length →
    RegionState z r none file
  | headed (size : Uint64) (behind : List Uint8) :
    RegionState z r (some r) ((regionFh r).compHdrOf size ++ (r.digest.toList ++ behind))
  | complete : RegionState z r none ((regionFh r).close z.zstd)

theorem regionState_of_stage {z : ZstdStreams} {spill : Spill Uint8} {r : ImageInfo}
    {ops : List (Op Uint8)} (stage : FileWriter.Stage z spill (regionFh r) ops) :
    RegionState z r (unfinished spill r ops) (onDisk spill ops) := by
  have first : ∀ size, ((regionFh r).compHdrOf size).length = sizeofLogCompHdr :=
    (regionFh r).length_compHdrOf
  cases stage with
  | short less =>
    rw [unfinished, if_neg fun h => Nat.not_lt.mpr h.1 less]
    exact .short less
  | headed size behind unsized shown =>
    have long : sizeofLogCompHdr + r.digest.toList.length ≤ (onDisk spill ops).length := by
      rw [shown, List.length_append, first, List.length_append]
      exact Nat.add_le_add_left (Nat.le_add_right _ _) _
    rw [unfinished, if_pos ⟨long, unsized⟩, shown]
    exact .headed size behind
  | complete sized shown =>
    rw [unfinished, if_neg fun h => h.2 sized, shown]
    exact .complete

/-- The writers of a region's file: opened, written, closed. -/
theorem regionFh_writers (z : ZstdStreams) (r : ImageInfo) : ∃ (w₁ w₂ w₃ : FileWriter z)
    (pieces : List (List Uint8)),
    FileWriter.create z logMachoRegionHdrMagic r.digest.toList 1 = some w₁ ∧
    w₁.write r.bytes = some w₂ ∧ w₁.mFh <+: w₂.mFh ∧
    w₂.close = some w₃ ∧ w₂.mFh <+: w₃.mFh ∧ w₃.file = (regionFh r).close z.zstd ∧
    (∀ spill ops, ops <+: w₃.mFh → FileWriter.Stage z spill (regionFh r) ops) ∧
    w₃.mFh = fwrites ((regionFh r).openCompHdr :: r.digest.toList :: pieces) ++
      FileWriter.patches (regionFh r) ∧ w₂.mFh.length ≤ pieces.length + 2 := by
  have nonempty : r.digest.toList ≠ [] :=
    List.ne_nil_of_length_pos (by rw [Vector.length_toList]; decide)
  obtain ⟨w₁, created, holds₁⟩ :=
    @FileWriter.create_spec z logMachoRegionHdrMagic r.digest.toList nonempty 1
  rcases holds₁.write r.bytes with ⟨level, -⟩ | ⟨w₂, body, wrote, -, holds₂⟩
  · cases level
  obtain ⟨w₃, rest, closes, -, calls⟩ := holds₂.close_calls nonempty
  obtain ⟨w, closes', file⟩ := holds₂.close nonempty
  obtain rfl := Option.some.inj (closes.symm.trans closes')
  refine ⟨w₁, w₂, w₃, body ++ rest, created, wrote, (FileWriter.adds_write wrote).calls, closes,
    (FileWriter.adds_close closes).1.calls, file, fun spill => ?_, calls, ?_⟩
  · obtain ⟨w, closes', stages⟩ := holds₂.close_stages spill nonempty rfl
    cases closes.symm.trans closes'
    exact stages
  · rw [holds₂.calls, fwrites, List.length_map, List.length_cons, List.length_cons,
      List.length_append]
    omega

/-- Where the write of a region's file may be cut off, by its writers. -/
theorem writeRegion_eq {z : ZstdStreams} {spill : Spill Uint8} {r : ImageInfo}
    {w₁ w₂ w₃ : FileWriter z}
    (created : FileWriter.create z logMachoRegionHdrMagic r.digest.toList 1 = some w₁)
    (wrote : w₁.write r.bytes = some w₂) (more : w₁.mFh <+: w₂.mFh) (closes : w₂.close = some w₃)
    (last : w₂.mFh <+: w₃.mFh) (dir : Directory) :
    let after (ops : List (Op Uint8)) : Option ImageInfo × Directory :=
      (unfinished spill r ops, Assoc.put dir (cStr r.logPath, onDisk spill ops))
    writeRegion z spill r dir =
      { stops := (none, Assoc.put dir (cStr r.logPath, [])) ::
          (List.range' 1 w₁.mFh.length).map (fun k => after (w₁.mFh.take k)) ++
            ((List.range' (w₁.mFh.length + 1) (w₂.mFh.length - w₁.mFh.length)).map
              (fun k => after (w₂.mFh.take k)) ++
            ((List.range' (w₂.mFh.length + 1) (w₃.mFh.length - w₂.mFh.length)).map
              (fun k => after (w₃.mFh.take k)) ++ []))
        done := some ((), Assoc.put dir (cStr r.logPath, onDisk spill w₃.mFh)) } := by
  have opened := @openFile_eq z spill (cStr r.logPath) (unfinished spill r) _ _ _ _ created dir
  have written := @onFile_eq z spill (cStr r.logPath) (unfinished spill r) _ _ more dir
  have closed := @onFile_eq z spill (cStr r.logPath) (unfinished spill r) _ _ last dir
  rw [writeRegion, Prog.bind_of_done (congrArg Interrupted.done opened), wrote,
    Prog.bind_of_done (congrArg Interrupted.done written), closes,
    Prog.bind_of_done (congrArg Interrupted.done closed), opened, written, closed]
  rfl

theorem writeRegion_spec (z : ZstdStreams) (spill : Spill Uint8) (r : ImageInfo) (dir : Directory) :
    (writeRegion z spill r dir).done = some ((), Assoc.put dir (regionEntry z.zstd r)) ∧
    ∀ e ∈ (writeRegion z spill r dir).stops, ∃ file, RegionState z r e.1 file ∧
      e.2 = Assoc.put dir (cStr r.logPath, file) := by
  obtain ⟨w₁, w₂, w₃, -, created, wrote, more, closes, last, file, stages, -⟩ := regionFh_writers z r
  have shown : ∀ {w : FileWriter z} (k : Nat), w.mFh <+: w₃.mFh →
      RegionState z r (unfinished spill r (w.mFh.take k)) (onDisk spill (w.mFh.take k)) :=
    fun k before => regionState_of_stage (stages spill _ ((List.take_prefix k _).trans before))
  rw [writeRegion_eq created wrote more closes last]
  constructor
  · rw [FileWriter.onDisk_close spill closes, file]
    rfl
  intro e member
  simp only [List.cons_append, List.mem_cons, List.mem_append, List.mem_map] at member
  rcases member with rfl | ⟨k, -, rfl⟩ | ⟨k, -, rfl⟩ | ⟨k, -, rfl⟩ | stop
  · exact ⟨[], .short (Nat.add_pos_left (by decide) _), rfl⟩
  · exact ⟨_, shown k (more.trans last), rfl⟩
  · exact ⟨_, shown k last, rfl⟩
  · exact ⟨_, shown k List.prefix_rfl, rfl⟩
  · cases stop

end TraceLog

end XnuTrace
