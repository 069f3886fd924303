import XnuTrace.WriteSteps
import XnuTrace.ThreadFiles

/-! A log that is not cut off: the steps of `TraceLog::write` end in the directory that
`TraceLog.write` describes, up to the order of its entries. -/
namespace XnuTrace
open Stdio FallibleMap

theorem logMetaHdr_ne_nil (numRegions numSyms : Uint64) : logMetaHdr numRegions numSyms ≠ [] :=
  List.ne_nil_of_length_pos (by simp [logMetaHdr])

theorem logThreadHdr_ne_nil (threadId numInst : Uint64) : logThreadHdr threadId numInst ≠ [] :=
  List.ne_nil_of_length_pos (by simp [logThreadHdr])

namespace TraceLog

/-! One file. -/

section
variable {z : ZstdStreams} {spill : Spill Uint8} {name : List Uint8}
  {mark : List (Op Uint8) → Option ImageInfo} {dir dir' : Directory}

theorem onFile_done {w w' : FileWriter z} {method : Option (FileWriter z)}
    (adds : ∀ w', method = some w' → w.mFh <+: w'.mFh)
    (ended : (onFile z spill name mark w.mFh method
      (Assoc.put dir (name, onDisk spill w.mFh))).done = some (w', dir')) :
    method = some w' ∧ dir' = Assoc.put dir (name, onDisk spill w'.mFh) := by
  cases method with
  | none => cases ended
  | some w₁ =>
    rw [onFile_eq (adds w₁ rfl)] at ended
    cases ended
    exact ⟨rfl, rfl⟩

theorem openFile_done {hdrMagic : Uint64} {hdr : List Uint8} {level : Int} {w : FileWriter z}
    (ended : (openFile z spill name mark hdrMagic hdr level dir).done = some (w, dir')) :
    FileWriter.create z hdrMagic hdr level = some w ∧
      dir' = Assoc.put dir (name, onDisk spill w.mFh) := by
  cases created : FileWriter.create z hdrMagic hdr level with
  | none =>
    rw [openFile, created] at ended
    cases ended
  | some w₁ =>
    rw [openFile_eq created] at ended
    cases ended
    exact ⟨rfl, rfl⟩

theorem onFile_more {w w' : FileWriter z} (more : w.mFh.length < w'.mFh.length) :
    (onFile z spill name mark w.mFh (some w') dir).done =
      some (w', Assoc.put dir (name, onDisk spill w'.mFh)) := by
  have steps := @each_put name (fun k => mark (w'.mFh.take k)) (fun k => onDisk spill (w'.mFh.take k))
    (List.range' (w.mFh.length + 1) (w'.mFh.length - w.mFh.length)) dir
  have some : w'.mFh.length - w.mFh.length ≠ 0 := Nat.sub_ne_zero_of_lt more
  have last : w.mFh.length + 1 + (w'.mFh.length - w.mFh.length) - 1 = w'.mFh.length := by omega
  rw [List.getLast?_range', if_neg some, last, Option.map_some, List.take_length] at steps
  rw [onFile, Prog.ofOption_bind, Prog.bind_of_done (congrArg Interrupted.done steps)]
  rfl

/-- The destructor always writes, whatever was done to other files before. -/
theorem closeFile_done {f : CompressedFile} {hdr : List Uint8} {body : List (List Uint8)}
    {w w' : FileWriter z} (holds : w.Holds f hdr body) (nonempty : hdr ≠ [])
    (ended : (onFile z spill name mark w.mFh w.close dir).done = some (w', dir')) :
    dir' = Assoc.put dir (name, f.close z.zstd) := by
  obtain ⟨w₁, closes, file⟩ := holds.close nonempty
  rw [closes, onFile_more (FileWriter.adds_close closes).2.2] at ended
  cases ended
  rw [FileWriter.onDisk_close spill closes, file]

/-- The writer and the description of one open file, of which a part is on disk. -/
structure Opened (z : ZstdStreams) (spill : Spill Uint8) (dir : Directory) (name hdr : List Uint8)
    (f : CompressedFile) (w : FileWriter z) (dir' : Directory) : Prop where
  shown : dir' = Assoc.put dir (name, onDisk spill w.mFh)
  held : ∃ body, w.Holds f hdr body

theorem opened_open {hdrMagic : Uint64} {hdr : List Uint8} {level : Int} {w : FileWriter z}
    (nonempty : hdr ≠ [])
    (ended : (openFile z spill name mark hdrMagic hdr level dir).done = some (w, dir')) :
    Opened z spill dir name hdr (.create hdrMagic hdr level) w dir' := by
  obtain ⟨created, shown⟩ := openFile_done ended
  obtain ⟨w₁, created', holds⟩ := @FileWriter.create_spec z hdrMagic hdr nonempty level
  cases created.symm.trans created'
  exact ⟨shown, [], holds⟩

theorem Opened.write {hdr buf : List Uint8} {f : CompressedFile} {w w' : FileWriter z}
    {dir'' : Directory} (isOpen : Opened z spill dir name hdr f w dir')
    (ended : (onFile z spill name mark w.mFh (w.write buf) dir').done = some (w', dir'')) :
    ∃ f', f.write buf = some f' ∧ Opened z spill dir name hdr f' w' dir'' := by
  obtain ⟨rfl, body, holds⟩ := isOpen
  obtain ⟨wrote, shown⟩ := onFile_done (fun _ wrote => (FileWriter.adds_write wrote).calls) ended
  rcases holds.write buf with ⟨_, _, failed, _⟩ | ⟨w₁, body', wrote', described, holds'⟩
  · cases failed.symm.trans wrote
  · cases wrote.symm.trans wrote'
    exact ⟨_, described, shown, body', holds'⟩

theorem Opened.close {hdr : List Uint8} {f : CompressedFile} {w w' : FileWriter z}
    {dir'' : Directory} (nonempty : hdr ≠ []) (isOpen : Opened z spill dir name hdr f w dir')
    (ended : (onFile z spill name mark w.mFh w.close dir').done = some (w', dir'')) :
    dir'' = Assoc.put dir (name, f.close z.zstd) := by
  obtain ⟨rfl, body, holds⟩ := isOpen
  rw [closeFile_done holds nonempty ended, Assoc.put_put]

theorem opened_writeAll {hdr : List Uint8} {bufs : List (List Uint8)} {f : CompressedFile}
    {w w' : FileWriter z} {dir'' : Directory} (isOpen : Opened z spill dir name hdr f w dir')
    (ended : (Prog.fold (fun w buf => onFile z spill name mark w.mFh (w.write buf)) w bufs dir').done =
      some (w', dir'')) : ∃ f', f.writeAll bufs = some f' ∧ Opened z spill dir name hdr f' w' dir'' := by
  induction bufs generalizing f w dir' with
  | nil =>
    cases ended
    exact ⟨f, rfl, isOpen⟩
  | cons buf bufs ih =>
    obtain ⟨w₁, dir₁, first, rest⟩ := Prog.done_bind.mp ended
    obtain ⟨f₁, wrote, isOpen₁⟩ := isOpen.write first
    obtain ⟨f', later, isOpen'⟩ := ih isOpen₁ rest
    refine ⟨f', ?_, isOpen'⟩
    rw [CompressedFile.writeAll, List.foldlM_cons, wrote]
    exact later

theorem writeMeta_done {regions : List ImageInfo} {syms : List SymInfo} {w : FileWriter z}
    (ended : (writeMeta z spill regions syms dir).done = some (w, dir')) :
    ∃ metaFh, metaFile regions syms = some metaFh ∧ Opened z spill dir metaBin
      (logMetaHdr (BitVec.ofNat 64 regions.length) (BitVec.ofNat 64 syms.length)) metaFh w dir' := by
  obtain ⟨w₁, dir₁, opened, rest⟩ := Prog.done_bind.mp ended
  exact opened_writeAll (opened_open (logMetaHdr_ne_nil _ _) opened) rest

theorem writeThread_done {log : TraceLog} {tid : Uint32} {tctx : ThreadCtx}
    (buffered : log.mStream = false)
    (ended : (writeThread z spill log tid tctx dir).done = some ((), dir')) :
    ∃ fh, log.threadFile tid tctx = some fh ∧
      dir' = Assoc.put dir (threadName tid, fh.close z.zstd) := by
  obtain ⟨w₁, dir₁, opened, rest⟩ := Prog.done_bind.mp ended
  obtain ⟨w₂, dir₂, wrote, rest⟩ := Prog.done_bind.mp rest
  obtain ⟨w₃, dir₃, closes, rest⟩ := Prog.done_bind.mp rest
  cases rest
  have nonempty := logThreadHdr_ne_nil (tid.setWidth 64) tctx.numInst
  obtain ⟨fh, described, isOpen⟩ := (opened_open nonempty opened).write wrote
  refine ⟨fh, ?_, isOpen.close nonempty closes⟩
  rw [threadFile, buffered]
  exact described

theorem create_nil (hdrMagic : Uint64) (level : Int) :
    FileWriter.create z hdrMagic [] level = none := by
  have first : (CompressedFile.create hdrMagic [] level).compHdr ≠ [] :=
    List.ne_nil_of_length_pos (by rw [CompressedFile.length_compHdr]; decide)
  simp only [FileWriter.create, FileWriter.fwrite_of_nonempty first, Option.bind_eq_bind,
    Option.bind_some]
  rfl

theorem holds_foldlM {w w' : FileWriter z} {f : CompressedFile} {hdr : List Uint8}
    {body pieces : List (List Uint8)} (holds : w.Holds f hdr body)
    (wrote : pieces.foldlM FileWriter.write w = some w') :
    ∃ body', w'.Holds { f with pieces := f.pieces ++ pieces } hdr body' := by
  induction pieces generalizing w f body with
  | nil =>
    cases wrote
    rw [List.append_nil]
    exact ⟨body, holds⟩
  | cons buf pieces ih =>
    rw [List.foldlM_cons] at wrote
    obtain ⟨w₁, first, rest⟩ := Option.bind_eq_some_iff.mp wrote
    rcases holds.write buf with ⟨_, _, failed, _⟩ | ⟨w₂, body', wrote', _, holds'⟩
    · cases failed.symm.trans first
    · cases first.symm.trans wrote'
      obtain ⟨body'', holds''⟩ := ih holds' rest
      rw [List.append_assoc] at holds''
      exact ⟨body'', holds''⟩

/-- The stream as `log` has left it. -/
theorem streamFh_holds {logStream : CompressedFile} {w : FileWriter z}
    (opened : streamFh z logStream = some w) :
    logStream.mHdrBuf ≠ [] ∧ ∃ body, w.Holds logStream logStream.mHdrBuf body := by
  obtain ⟨w₀, created, wrote⟩ := Option.bind_eq_some_iff.mp opened
  have nonempty : logStream.mHdrBuf ≠ [] := by
    intro empty
    rw [empty, create_nil] at created
    cases created
  obtain ⟨w₁, created', holds⟩ :=
    @FileWriter.create_spec z logStream.hdrMagic logStream.mHdrBuf nonempty logStream.level
  cases created.symm.trans created'
  exact ⟨nonempty, holds_foldlM holds wrote⟩

theorem closeStream_done {log : TraceLog} {tid : Uint32} {tctx : ThreadCtx}
    (streamed : log.mStream = true)
    (ended : (closeStream z spill tid tctx dir).done = some ((), dir')) :
    ∃ fh, log.threadFile tid tctx = some fh ∧
      dir' = Assoc.put dir (threadName tid, fh.close z.zstd) := by
  obtain ⟨logStream, dir₁, asked, rest⟩ := Prog.done_bind.mp ended
  obtain ⟨w, dir₂, reopened, rest⟩ := Prog.done_bind.mp rest
  obtain ⟨w', dir₃, closes, rest⟩ := Prog.done_bind.mp rest
  cases rest
  obtain ⟨stream, rfl⟩ := Prog.done_ofOption.mp asked
  obtain ⟨opened, rfl⟩ := Prog.done_ofOption.mp reopened
  obtain ⟨nonempty, body, holds⟩ := streamFh_holds opened
  let hdr := logStream.mHdrBuf.take 8 ++ Memory.wordBytes 8 tctx.numInst
  let fh : CompressedFile := { logStream with mHdrBuf := hdr }
  refine ⟨fh, ?_, ?_⟩
  · rw [threadFile, streamed, stream]
    rfl
  have closed : ∃ w₁, FileWriter.close { w with mHdrBuf := hdr } = some w₁ := by
    cases closed : FileWriter.close { w with mHdrBuf := hdr } with
    | none =>
      rw [closed] at closes
      cases closes
    | some w₁ => exact ⟨w₁, rfl⟩
  obtain ⟨w₁, closed⟩ := closed
  have length : hdr.length = logStream.mHdrBuf.length :=
    (FileWriter.adds_close closed).2.1.symm.trans holds.hdrSz
  have holds' : FileWriter.Holds { w with mHdrBuf := hdr } fh logStream.mHdrBuf body :=
    holds.setBuf length
  exact closeFile_done holds' nonempty closes

theorem recordStream_done {tid : Uint32} {tctx : ThreadCtx}
    (ended : (recordStream z spill tid tctx dir).done = some ((), dir')) :
    ∃ file, dir' = Assoc.put dir (threadName tid, file) := by
  obtain ⟨logStream, dir₁, asked, rest⟩ := Prog.done_bind.mp ended
  obtain ⟨w, dir₂, opened, rest⟩ := Prog.done_bind.mp rest
  obtain ⟨w', dir₃, wrote, rest⟩ := Prog.done_bind.mp rest
  cases rest
  obtain ⟨-, rfl⟩ := Prog.done_ofOption.mp asked
  have nonempty : logStream.mHdrBuf ≠ [] := by
    intro empty
    have created := (openFile_done opened).1
    rw [empty, create_nil] at created
    cases created
  obtain ⟨f, -, isOpen⟩ := opened_writeAll (opened_open nonempty opened) wrote
  exact ⟨_, isOpen.shown⟩

end

/-! Many files. -/

/-- Rounds that each put one entry put them all. -/
theorem each_done {β : Type} {f : β → Steps Unit} {rel : β → List Uint8 × List Uint8 → Prop}
    {bs : List β} {dir dir' : Directory}
    (round : ∀ b dir dir', (f b dir).done = some ((), dir') →
      ∃ e, rel b e ∧ dir' = Assoc.put dir e)
    (ended : (Prog.each f bs dir).done = some ((), dir')) :
    ∃ es, List.Forall₂ rel bs es ∧ dir' = Assoc.putAll dir es := by
  induction bs generalizing dir with
  | nil =>
    cases ended
    exact ⟨[], .nil, rfl⟩
  | cons b bs ih =>
    obtain ⟨_, dir₁, first, rest⟩ := Prog.done_bind.mp ended
    obtain ⟨e, made, rfl⟩ := round b dir dir₁ first
    obtain ⟨es, others, rfl⟩ := ih rest
    exact ⟨e :: es, .cons made others, rfl⟩

theorem each_remove (listed dir : Directory) :
    (Prog.each (fun e => Prog.step (none : Option ImageInfo)
      fun dir : Directory => dir.filter fun f => f.1 ≠ e.1) listed dir).done =
        some ((), dir.filter fun f => f.1 ∉ Assoc.keys listed) := by
  induction listed generalizing dir with
  | nil =>
    have all : dir.filter (fun f => f.1 ∉ Assoc.keys ([] : Directory)) = dir :=
      List.filter_eq_self.mpr fun _ _ => rfl
    rw [all]
    rfl
  | cons e listed ih =>
    have kept : (dir.filter fun f => f.1 ≠ e.1).filter (fun f => f.1 ∉ Assoc.keys listed) =
        dir.filter fun f => f.1 ∉ Assoc.keys (e :: listed) := by
      rw [List.filter_filter]
      refine List.filter_congr fun f _ => Bool.eq_iff_iff.mpr ?_
      have own : f.1 ∈ Assoc.keys (e :: listed) ↔ f.1 = e.1 ∨ f.1 ∈ Assoc.keys listed :=
        List.mem_cons
      simp only [Bool.and_eq_true, decide_eq_true_eq, own, not_or]
      exact and_comm
    rw [Prog.each, Prog.step_bind, ih, kept]

theorem removeAll_done (unwanted : List Uint8 → Bool) (dir : Directory) :
    (removeAll unwanted dir).done = some ((), dir.filter fun e => !unwanted e.1) := by
  have listed : removeAll unwanted dir = Prog.each (fun e => Prog.step none
      fun dir : Directory => dir.filter fun f => f.1 ≠ e.1) (dir.filter fun e => unwanted e.1) dir :=
    Prog.ask_bind rfl
  rw [listed, each_remove]
  refine congrArg (fun left => some ((), left)) (List.filter_congr fun f member => ?_)
  simp only [Assoc.keys, List.mem_map, List.mem_filter]
  cases named : unwanted f.1 with
  | true =>
    have gone : ∃ e, (e ∈ dir ∧ unwanted e.1 = true) ∧ e.1 = f.1 := ⟨f, ⟨member, named⟩, rfl⟩
    simp [gone]
  | false =>
    have stays : ¬∃ e, (e ∈ dir ∧ unwanted e.1 = true) ∧ e.1 = f.1 := by
      rintro ⟨e, ⟨_, unwantedName⟩, same⟩
      rw [same, named] at unwantedName
      cases unwantedName
    simp [stays]

theorem construct_done (dir : Directory) : (construct dir).done = some ((), initDir dir) := by
  rw [construct, removeAll_done]
  simp only [Bool.not_not]
  rfl

theorem recordSteps_done {z : ZstdStreams} {log : TraceLog} {dir dir' : Directory}
    (ended : (recordSteps z spill log dir).done = some ((), dir')) :
    ∃ es, (∀ key ∈ Assoc.keys es, ∃ kv ∈ log.mThreadCtxs.mKeyVals, key = threadName kv.1) ∧
      dir' = Assoc.putAll dir es := by
  unfold recordSteps at ended
  split at ended
  · let named (kv : Uint32 × ThreadCtx) (e : List Uint8 × List Uint8) := e.1 = threadName kv.1
    have round : ∀ (kv : Uint32 × ThreadCtx) dir dir',
        (recordStream z spill kv.1 kv.2 dir).done = some ((), dir') →
          ∃ e, named kv e ∧ dir' = Assoc.put dir e := by
      intro kv dir dir' done
      obtain ⟨file, shown⟩ := recordStream_done done
      exact ⟨(threadName kv.1, file), rfl, shown⟩
    obtain ⟨es, made, shown⟩ := each_done round ended
    refine ⟨es, fun key member => ?_, shown⟩
    obtain ⟨e, listed, rfl⟩ := List.mem_map.mp member
    exact exists_of_forall₂ made.flip listed
  · cases ended
    exact ⟨[], fun _ member => absurd member List.not_mem_nil, rfl⟩

/-! The write. -/

section
variable {log : TraceLog} {after : Nat → Uint8} {overlapFind : OverlapFind}
  {sortSyms : BaseSort SymInfo SymInfo.base} {regions : List ImageInfo} {symbols : Option Symbols}
  {dir dir' : Directory}

variable {z : ZstdStreams} {spill : Spill Uint8}

theorem each_writeRegion (z : ZstdStreams) (spill : Spill Uint8) (regions : List ImageInfo)
    (dir : Directory) :
    (Prog.each (writeRegion z spill) regions dir).done =
      some ((), Assoc.putAll dir (regions.map (regionEntry z.zstd))) := by
  induction regions generalizing dir with
  | nil => rfl
  | cons r regions ih =>
    rw [Prog.each, Prog.bind_of_done (writeRegion_spec z spill r dir).1, ih]
    rfl

theorem metaBin_not_mem_regions (zstd : Zstd) (regions : List ImageInfo) :
    metaBin ∉ Assoc.keys (regions.map (regionEntry zstd)) := by
  intro member
  obtain ⟨r, _, same⟩ := mem_keys_regions member
  exact metaBin_ne_region r same

theorem writeThreads_done {metaFh : FileWriter z} {f : CompressedFile} {hdr : List Uint8}
    {body : List (List Uint8)} (holds : metaFh.Holds f hdr body) (nonempty : hdr ≠ [])
    (ended : (writeThreads z spill log metaFh dir).done = some ((), dir')) :
    ∃ threadFiles, (log.mThreadCtxs.mKeyVals.mapM fun kv : Uint32 × ThreadCtx =>
        (log.threadFile kv.1 kv.2).map fun fh => (threadName kv.1, fh.close z.zstd)) =
          some threadFiles ∧
      dir'.Perm (Assoc.putAll (Assoc.put dir (metaBin, f.close z.zstd)) threadFiles) := by
  let made (kv : Uint32 × ThreadCtx) (e : List Uint8 × List Uint8) :=
    (log.threadFile kv.1 kv.2).map (fun fh => (threadName kv.1, fh.close z.zstd)) = some e
  unfold writeThreads at ended
  split at ended
  · rename_i streamed
    obtain ⟨_, dir₁, closes, rest⟩ := Prog.done_bind.mp ended
    have round : ∀ (kv : Uint32 × ThreadCtx) dir dir',
        (closeStream z spill kv.1 kv.2 dir).done = some ((), dir') →
          ∃ e, made kv e ∧ dir' = Assoc.put dir e := by
      intro kv dir dir' done
      obtain ⟨fh, file, shown⟩ := closeStream_done streamed done
      exact ⟨_, congrArg (Option.map _) file, shown⟩
    obtain ⟨threadFiles, threads, shown⟩ := each_done round rest
    rw [closeFile_done holds nonempty closes] at shown
    exact ⟨threadFiles, mapM_eq_some_iff.mpr threads, shown ▸ .refl _⟩
  · rename_i buffered
    obtain ⟨_, dir₁, threadSteps, rest⟩ := Prog.done_bind.mp ended
    obtain ⟨_, dir₂, closes, rest⟩ := Prog.done_bind.mp rest
    cases rest
    have round : ∀ (kv : Uint32 × ThreadCtx) dir dir',
        (writeThread z spill log kv.1 kv.2 dir).done = some ((), dir') →
          ∃ e, made kv e ∧ dir' = Assoc.put dir e := by
      intro kv dir dir' done
      obtain ⟨fh, file, shown⟩ := writeThread_done (Bool.eq_false_iff.mpr buffered) done
      exact ⟨_, congrArg (Option.map _) file, shown⟩
    obtain ⟨threadFiles, threads, rfl⟩ := each_done round threadSteps
    refine ⟨threadFiles, mapM_eq_some_iff.mpr threads, ?_⟩
    rw [closeFile_done holds nonempty closes]
    refine Assoc.put_putAll_perm dir fun member => ?_
    rw [keys_threadFiles threads] at member
    obtain ⟨kv, _, same⟩ := List.mem_map.mp member
    exact threadName_ne_metaBin kv.1 same

theorem writeSteps_done
    (ended : (writeSteps z spill log after overlapFind sortSyms regions symbols dir).done =
      some ((), dir')) :
    ∃ out, log.write z.zstd after overlapFind sortSyms regions symbols dir = some out ∧
      dir'.Perm out := by
  obtain ⟨syms, dir, asked, rest⟩ := Prog.done_bind.mp ended
  obtain ⟨selected, rfl⟩ := Prog.done_ofOption.mp asked
  obtain ⟨metaFh, _, metaSteps, rest⟩ := Prog.done_bind.mp rest
  obtain ⟨f, metaWritten, rfl, isOpen⟩ := writeMeta_done metaSteps
  obtain ⟨reused, _, asked, rest⟩ := Prog.done_bind.mp rest
  obtain ⟨found, rfl⟩ := Prog.done_ask.mp asked
  obtain ⟨_, _, removed, rest⟩ := Prog.done_bind.mp rest
  rw [removeUnused, removeAll_done] at removed
  cases removed
  obtain ⟨_, _, regionSteps, rest⟩ := Prog.done_bind.mp rest
  rw [each_writeRegion] at regionSteps
  cases regionSteps
  obtain ⟨body, holds⟩ := isOpen
  obtain ⟨threadFiles, threads, shown⟩ := writeThreads_done holds (logMetaHdr_ne_nil _ _) rest
  rw [reusedMachoRegions_putMeta] at found
  refine ⟨_, (write_eq_some sortSyms).mpr
    ⟨syms, f, reused, threadFiles, selected, metaWritten, found, threads, rfl⟩, shown.trans ?_⟩
  rw [filed, Assoc.putAll_append]
  refine Assoc.perm_putAll ?_ threadFiles
  rw [Assoc.filter_put (fun name => !(isMachoRegion name && !reused.contains name)) dir
    (by rw [isMachoRegion_metaBin]; rfl)]
  refine (Assoc.put_putAll_perm _ (metaBin_not_mem_regions z.zstd _)).trans ?_
  rw [Assoc.put_put]

/-! A write that is described gets through. -/

section
variable {name : List Uint8} {mark : List (Op Uint8) → Option ImageInfo}

theorem opened_create {hdr : List Uint8} (nonempty : hdr ≠ []) (hdrMagic : Uint64) (level : Int)
    (dir : Directory) : ∃ w dir',
      (openFile z spill name mark hdrMagic hdr level dir).done = some (w, dir') ∧
        Opened z spill dir name hdr (.create hdrMagic hdr level) w dir' := by
  obtain ⟨w, created, holds⟩ := @FileWriter.create_spec z hdrMagic hdr nonempty level
  exact ⟨w, _, by rw [openFile_eq created], rfl, [], holds⟩

theorem Opened.write_some {hdr buf : List Uint8} {f f' : CompressedFile} {w : FileWriter z}
    (isOpen : Opened z spill dir name hdr f w dir') (wrote : f.write buf = some f') : ∃ w' dir'',
      (onFile z spill name mark w.mFh (w.write buf) dir').done = some (w', dir'') ∧
        Opened z spill dir name hdr f' w' dir'' := by
  obtain ⟨rfl, body, holds⟩ := isOpen
  rcases holds.write buf with ⟨_, _, _, failed⟩ | ⟨w', body', writes, described, holds'⟩
  · cases failed.symm.trans wrote
  · cases described.symm.trans wrote
    refine ⟨w', Assoc.put dir (name, onDisk spill w'.mFh), ?_, rfl, body', holds'⟩
    rw [writes, onFile_eq (FileWriter.adds_write writes).calls]

theorem Opened.writeAll_some {hdr : List Uint8} {bufs : List (List Uint8)} {f f' : CompressedFile}
    {w : FileWriter z} (isOpen : Opened z spill dir name hdr f w dir')
    (wrote : f.writeAll bufs = some f') : ∃ w' dir'',
      (Prog.fold (fun w buf => onFile z spill name mark w.mFh (w.write buf)) w bufs dir').done =
        some (w', dir'') ∧ Opened z spill dir name hdr f' w' dir'' := by
  induction bufs generalizing f w dir' with
  | nil =>
    cases wrote
    exact ⟨w, dir', rfl, isOpen⟩
  | cons buf bufs ih =>
    rw [CompressedFile.writeAll, List.foldlM_cons] at wrote
    obtain ⟨f₁, first, rest⟩ := Option.bind_eq_some_iff.mp wrote
    obtain ⟨w₁, dir₁, written, isOpen₁⟩ := isOpen.write_some first
    obtain ⟨w', dir'', later, isOpen'⟩ := ih isOpen₁ rest
    exact ⟨w', dir'', Prog.done_bind.mpr ⟨w₁, dir₁, written, later⟩, isOpen'⟩

theorem closeFile_some {hdr : List Uint8} {f : CompressedFile} {w : FileWriter z}
    (nonempty : hdr ≠ []) (held : ∃ body, w.Holds f hdr body) (dir : Directory) : ∃ w',
      (onFile z spill name mark w.mFh w.close dir).done =
        some (w', Assoc.put dir (name, f.close z.zstd)) := by
  obtain ⟨body, holds⟩ := held
  obtain ⟨w', closes, file⟩ := holds.close nonempty
  refine ⟨w', ?_⟩
  rw [closes, onFile_more (FileWriter.adds_close closes).2.2, FileWriter.onDisk_close spill closes,
    file]

end

theorem writeMeta_some {syms : List SymInfo} {metaFh : CompressedFile}
    (metaWritten : metaFile regions syms = some metaFh) (dir : Directory) : ∃ w dir',
      (writeMeta z spill regions syms dir).done = some (w, dir') ∧ Opened z spill dir metaBin
        (logMetaHdr (BitVec.ofNat 64 regions.length) (BitVec.ofNat 64 syms.length)) metaFh w dir' := by
  obtain ⟨w₁, dir₁, opened, isOpen⟩ := @opened_create z spill metaBin unmarked
    (logMetaHdr (BitVec.ofNat 64 regions.length) (BitVec.ofNat 64 syms.length))
    (logMetaHdr_ne_nil _ _) logMetaHdrMagic 0 dir
  obtain ⟨w, dir', wrote, isOpen'⟩ := isOpen.writeAll_some metaWritten
  exact ⟨w, dir', Prog.done_bind.mpr ⟨w₁, dir₁, opened, wrote⟩, isOpen'⟩

theorem writeThread_some (buffered : log.mStream = false) {tid : Uint32} {tctx : ThreadCtx}
    {fh : CompressedFile} (file : log.threadFile tid tctx = some fh) (dir : Directory) :
    (writeThread z spill log tid tctx dir).done =
      some ((), Assoc.put dir (threadName tid, fh.close z.zstd)) := by
  have nonempty := logThreadHdr_ne_nil (tid.setWidth 64) tctx.numInst
  rw [threadFile, buffered] at file
  obtain ⟨w₁, dir₁, opened, isOpen⟩ := @opened_create z spill (threadName tid) unmarked _ nonempty
    logThreadHdrMagic log.mCompressionLevel dir
  obtain ⟨w₂, dir₂, wrote, shown, held⟩ := isOpen.write_some file
  obtain ⟨w₃, closes⟩ := @closeFile_some z spill (threadName tid) unmarked _ _ _ nonempty held dir₂
  rw [shown, Assoc.put_put] at closes
  exact Prog.done_bind.mpr ⟨w₁, dir₁, opened, Prog.done_bind.mpr ⟨w₂, dir₂, wrote,
    Prog.done_bind.mpr ⟨w₃, _, shown ▸ closes, rfl⟩⟩⟩

theorem each_some {β : Type} {f : β → Steps Unit} {g : β → Option (List Uint8 × List Uint8)}
    {bs : List β} {es : Directory}
    (round : ∀ b e dir, g b = some e → (f b dir).done = some ((), Assoc.put dir e))
    (made : bs.mapM g = some es) (dir : Directory) :
    (Prog.each f bs dir).done = some ((), Assoc.putAll dir es) := by
  have related := mapM_eq_some_iff.mp made
  clear made
  induction related generalizing dir with
  | nil => rfl
  | cons first _ ih => exact Prog.done_bind.mpr ⟨(), _, round _ _ dir first, ih _⟩

/-- Without streams, whose headers may be anything here. -/
theorem writeSteps_some (buffered : log.mStream = false) {out : Directory}
    (written : log.write z.zstd after overlapFind sortSyms regions symbols dir = some out) :
    ∃ dir', (writeSteps z spill log after overlapFind sortSyms regions symbols dir).done =
      some ((), dir') := by
  obtain ⟨syms, metaFh, reused, threadFiles, selected, metaWritten, found, threads, -⟩ :=
    (write_eq_some sortSyms).mp written
  obtain ⟨w, dir₁, metaSteps, shown, held⟩ :=
    @writeMeta_some regions z spill syms metaFh metaWritten dir
  have asked : reusedMachoRegions dir₁ regions = some reused := by
    rw [shown, reusedMachoRegions_putMeta, found]
  have round : ∀ (kv : Uint32 × ThreadCtx) e dir,
      (log.threadFile kv.1 kv.2).map (fun fh => (threadName kv.1, fh.close z.zstd)) = some e →
        (writeThread z spill log kv.1 kv.2 dir).done = some ((), Assoc.put dir e) := by
    intro kv e dir made
    obtain ⟨fh, file, rfl⟩ := Option.map_eq_some_iff.mp made
    exact writeThread_some buffered file dir
  have rest : ∀ dir, ∃ dir', (writeThreads z spill log w dir).done = some ((), dir') := by
    intro dir
    obtain ⟨w', closes⟩ := @closeFile_some z spill metaBin unmarked _ _ _
      (logMetaHdr_ne_nil _ _) held (Assoc.putAll dir threadFiles)
    refine ⟨Assoc.put (Assoc.putAll dir threadFiles) (metaBin, metaFh.close z.zstd), ?_⟩
    rw [writeThreads, if_neg (Bool.eq_false_iff.mp buffered)]
    exact Prog.done_bind.mpr ⟨(), _, each_some round threads dir,
      Prog.done_bind.mpr ⟨w', _, closes, rfl⟩⟩
  obtain ⟨dir', last⟩ := rest _
  exact ⟨dir', Prog.done_bind.mpr ⟨syms, dir, Prog.done_ofOption.mpr ⟨selected, rfl⟩,
    Prog.done_bind.mpr ⟨w, dir₁, metaSteps, Prog.done_bind.mpr ⟨reused, dir₁,
      Prog.done_ask.mpr ⟨asked, rfl⟩, Prog.done_bind.mpr ⟨(), _, removeAll_done _ _,
        Prog.done_bind.mpr ⟨(), _, each_writeRegion z spill _ _, last⟩⟩⟩⟩⟩⟩

end

end TraceLog

end XnuTrace
