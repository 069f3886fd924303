import XnuTrace.RegionReuse
import XnuTrace.MetadataRoundTrip
import Mathlib.Data.List.TakeWhile

/-! Runs that share a trace directory, one after the other, each of which may be cut off.
A completed run leaves what it would leave in an empty directory, if no earlier one was cut
off while a region file that it takes for its own had its header on disk and not its size. -/
namespace XnuTrace
open Stdio Memory FallibleMap

/-- A log with what is saved of it, and when the buffers of its files let bytes go. -/
structure TraceRun where
  log : TraceLog
  spill : Spill Uint8
  after : Nat → Uint8
  overlapFind : OverlapFind
  sortSyms : BaseSort SymInfo SymInfo.base
  regions : List ImageInfo
  symbols : Option Symbols

namespace ParsedLog

/-- What `TraceLog(dir)` may make of a directory, whose files are listed in any order. -/
def Reads (zstd : Zstd) (hash : Hasher) (sortBuckets : BucketSort 64)
    (sortRegions : BaseSort ImageInfo ImageInfo.base) (sortSyms : BaseSort SymInfo SymInfo.base)
    (after : Nat → Uint8) (dir : Directory) (loaded : Option ParsedLog) : Prop :=
  ∃ listing, listing.Perm dir ∧
    read zstd hash sortBuckets sortRegions sortSyms after listing = loaded

end ParsedLog

namespace TraceRun
open TraceLog

/-- The constructor and the calls of `log`. -/
def start (z : ZstdStreams) (run : TraceRun) : Steps Unit := do
  construct
  recordSteps z run.spill run.log

def steps (z : ZstdStreams) (run : TraceRun) : Steps Unit := do
  run.start z
  writeSteps z run.spill run.log run.after run.overlapFind run.sortSyms run.regions run.symbols

/-- What the write makes of a directory. -/
def write (zstd : Zstd) (run : TraceRun) (dir : Directory) : Option Directory :=
  run.log.write zstd run.after run.overlapFind run.sortSyms run.regions run.symbols dir

/-- What runs leave behind that have recorded such things, and are cut off there at most. -/
inductive Left (z : ZstdStreams) (allowed : Option ImageInfo → Prop) (recorded : TraceRun → Prop) :
    Directory → Prop
  | new : Left z allowed recorded []
  | cut {dir : Directory} {run : TraceRun} {stop : Option ImageInfo × Directory} :
    Left z allowed recorded dir → recorded run → stop ∈ (run.steps z dir).stops →
      allowed stop.1 → Left z allowed recorded stop.2
  | done {dir dir' : Directory} {run : TraceRun} : Left z allowed recorded dir → recorded run →
    (run.steps z dir).done = some ((), dir') → Left z allowed recorded dir'

/-- The region files are those of the run, and what is read back depends on the run alone. -/
structure ReuseSafe (zstd : Zstd) (run : TraceRun) (out : Directory) : Prop where
  decodes : ∀ e ∈ out, isMachoRegion e.1 = true →
    ∃ r ∈ run.regions, ParsedLog.readRegion zstd e.2 = some (r.digest, r.bytes)
  one : ∀ r ∈ run.regions, ∃ file, out.filter (fun e => e.1 = r.logPath) = [(r.logPath, file)] ∧
    ParsedLog.readRegion zstd file = some (r.digest, r.bytes)
  reads : ∃ fresh, run.write zstd [] = some fresh ∧
    ∀ hash sortBuckets sortRegions sortSyms after loaded,
      ParsedLog.Reads zstd hash sortBuckets sortRegions sortSyms after out loaded ↔
        ParsedLog.Reads zstd hash sortBuckets sortRegions sortSyms after fresh loaded

section
variable {z : ZstdStreams} {run : TraceRun} {regions : List ImageInfo} {dir out : Directory}

theorem keeps_start (run : TraceRun) : Keeps z regions (run.start z) :=
  (keeps_removeAll _).bind fun _ => keeps_recordSteps run.log

theorem keeps_steps
    (same : ∀ q ∈ run.regions, ∀ r ∈ regions, r.digest = q.digest → r.bytes = q.bytes) :
    Keeps z regions (run.steps z) :=
  (keeps_start run).bind fun _ =>
    keeps_writeSteps run.log run.after run.overlapFind run.sortSyms run.symbols same

/-- Along the runs the region files stay reusable. -/
theorem Left.reusable {recorded : TraceRun → Prop}
    (left : Left z (Harmless regions) recorded dir)
    (same : ∀ earlier, recorded earlier → ∀ q ∈ earlier.regions, ∀ r ∈ regions,
      r.digest = q.digest → r.bytes = q.bytes) : Reusable z.zstd regions dir := by
  induction left with
  | new => exact reusable_nil z.zstd regions
  | cut _ made stop allowed ih => exact (keeps_steps (same _ made)).stops _ ih _ stop allowed
  | done _ made ended ih => exact (keeps_steps (same _ made)).done _ ih _ _ ended

/-- Whatever was cut off, a directory has one file of a name. -/
theorem Left.nodup {allowed : Option ImageInfo → Prop} {recorded : TraceRun → Prop}
    (left : Left z allowed recorded dir) : (Assoc.keys dir).Nodup := by
  have none : ∀ q : ImageInfo, ∀ r ∈ ([] : List ImageInfo), r.digest = q.digest → r.bytes = q.bytes :=
    fun _ _ member => absurd member List.not_mem_nil
  have reusable : Reusable z.zstd [] dir := by
    induction left with
    | new => exact reusable_nil z.zstd []
    | cut _ _ stop _ ih =>
      exact (keeps_steps fun q _ => none q).stops _ ih _ stop
        fun _ _ _ member => absurd member List.not_mem_nil
    | done _ _ ended ih => exact (keeps_steps fun q _ => none q).done _ ih _ _ ended
  exact reusable.nodup

/-- What the write finds: the region files, and the streams of the log. -/
theorem start_done {found : Directory} (started : (run.start z dir).done = some ((), found)) :
    (∀ e ∈ found, isMachoRegion e.1 = true ∨
      ∃ kv ∈ run.log.mThreadCtxs.mKeyVals, e.1 = threadName kv.1) ∧
    (∀ r : ImageInfo, Assoc.get found (cStr r.logPath) = Assoc.get dir (cStr r.logPath)) ∧
    ((Assoc.keys dir).Nodup → (Assoc.keys found).Nodup) := by
  obtain ⟨_, dir₁, constructed, recorded⟩ := Prog.done_bind.mp started
  rw [construct_done] at constructed
  cases constructed
  obtain ⟨entries, named, rfl⟩ := recordSteps_done recorded
  refine ⟨fun e member => ?_, fun r => ?_, fun nodup => ?_⟩
  · rcases Assoc.mem_putAll member with old | stream
    · exact .inl (List.mem_filter.mp old).2
    · exact .inr (named e.1 (List.mem_map_of_mem stream))
  · have other : cStr r.logPath ∉ Assoc.keys entries := by
      intro member
      obtain ⟨kv, _, same⟩ := named _ member
      exact threadName_ne_region kv.1 r same.symm
    rw [Assoc.get_putAll_of_not_mem _ other, initDir, Assoc.get_filter, if_pos (isMachoRegion_cStr r)]
  · exact Assoc.nodup_putAll ((List.filter_sublist.map Prod.fst).nodup nodup) _

theorem completed_write (completed : (run.steps z dir).done = some ((), out)) :
    ∃ found out', (run.start z dir).done = some ((), found) ∧
      run.write z.zstd found = some out' ∧ out.Perm out' := by
  obtain ⟨_, found, started, rest⟩ := Prog.done_bind.mp completed
  obtain ⟨out', written, perm⟩ := writeSteps_done rest
  exact ⟨found, out', started, written, perm⟩

/-- A run that completes on reusable files leaves what it leaves without them. -/
theorem perm_fresh (reusable : Reusable z.zstd run.regions dir)
    (plain : ∀ r ∈ run.regions, cStr r.logPath = r.logPath)
    (names : (run.regions.map ImageInfo.logPath).Nodup)
    (completed : (run.steps z dir).done = some ((), out)) :
    ∃ fresh, run.write z.zstd [] = some fresh ∧ out.Perm fresh := by
  obtain ⟨found, out', started, written, perm⟩ := completed_write completed
  have reusable' := (keeps_start run).done dir reusable () found started
  obtain ⟨fresh, alone, perm'⟩ := reusable'.write_fresh plain names (start_done started).1 written
  exact ⟨fresh, alone, perm.trans perm'⟩

theorem reuseSafe_of_perm {zstd : Zstd} {fresh : Directory}
    (plain : ∀ r ∈ run.regions, cStr r.logPath = r.logPath)
    (names : (run.regions.map ImageInfo.logPath).Nodup)
    (small : ∀ r ∈ run.regions, r.bytes.length < 2 ^ 64)
    (alone : run.write zstd [] = some fresh) (perm : out.Perm fresh) : ReuseSafe zstd run out := by
  obtain ⟨syms, metaFh, threadEntries, _, _, threads, shown⟩ := write_empty zstd alone
  have listed := listed_of_perm threads (shown ▸ perm)
  have files := listed.regions (by rwa [List.map_congr_left plain])
  constructor
  · intro e member macho
    have entry := files.mem_iff.mp (List.mem_filter.mpr ⟨member, macho⟩)
    obtain ⟨r, h, rfl⟩ := List.mem_map.mp entry
    exact ⟨r, h, ParsedLog.readRegion_eq zstd r (small r h)⟩
  · intro r h
    have entry := files.mem_iff.mpr (List.mem_map_of_mem (f := regionEntry zstd) h)
    have alone := Assoc.filter_eq_singleton listed.nodup (List.mem_filter.mp entry).1
    rw [regionEntry, plain r h] at alone
    exact ⟨_, alone, ParsedLog.readRegion_eq zstd r (small r h)⟩
  · refine ⟨fresh, alone, fun hash sortBuckets sortRegions sortSyms after loaded => ?_⟩
    constructor
    · rintro ⟨listing, order, read⟩
      exact ⟨listing, order.trans perm, read⟩
    · rintro ⟨listing, order, read⟩
      exact ⟨listing, order.trans perm.symm, read⟩

theorem cStr_eq {name : List Uint8} (plain : 0 ∉ name) : cStr name = name :=
  List.takeWhile_eq_self_iff.mpr fun _ member => decide_eq_true fun zero => plain (zero ▸ member)

/-! An unfinished file. -/

theorem readRegion_headed (zstd : Zstd) (r : ImageInfo) (behind : List Uint8) : ∃ digest,
    ParsedLog.readRegion zstd ((regionFh r).compHdrOf 0 ++ (r.digest.toList ++ behind)) =
      some (digest, []) := by
  obtain ⟨fh, opened, _, size, compressed⟩ := open_headed r 0 behind
  rw [ParsedLog.readRegion, opened]
  simp only [Option.bind_eq_bind, Option.bind_some, CompressedFileReader.read, compressed, if_true,
    size]
  exact ⟨_, rfl⟩

/-- A file that passes the test is left as it is. -/
theorem get_of_reuses (nodup : (Assoc.keys dir).Nodup)
    (plain : ∀ r ∈ run.regions, cStr r.logPath = r.logPath)
    (completed : (run.steps z dir).done = some ((), out)) {r : ImageInfo} (listed : r ∈ run.regions)
    (reuses : Reuses dir r) :
    Assoc.get out (cStr r.logPath) = Assoc.get dir (cStr r.logPath) := by
  obtain ⟨found, out', started, written, perm⟩ := completed_write completed
  obtain ⟨-, same, distinct⟩ := start_done started
  obtain ⟨syms, metaFh, reused, threadFiles, _, _, tested, threads, rfl⟩ :=
    (write_eq_some run.sortSyms).mp written
  have nodup' : (Assoc.keys (filed z.zstd run.regions metaFh reused threadFiles found)).Nodup :=
    Assoc.nodup_putAll (Assoc.nodup_put ((List.filter_sublist.map Prod.fst).nodup (distinct nodup)) _) _
  have again : r.logPath ∈ reused := by
    refine (mem_reused tested r.logPath).mpr ⟨r, listed, rfl, ?_⟩
    obtain ⟨file, fh, present, opened⟩ := reuses
    exact ⟨file, fh, (same r).trans present, opened⟩
  have thread : cStr r.logPath ∉ Assoc.keys threadFiles := by
    rw [keys_threadFiles (mapM_eq_some_iff.mp threads)]
    intro member
    obtain ⟨kv, _, same'⟩ := List.mem_map.mp member
    exact threadName_ne_region kv.1 r same'
  rw [Assoc.get_perm perm nodup', get_filed_reused plain listed again thread, same r]

/-- A run does not notice that the file of one of its regions has a size of 0. -/
theorem not_reuseSafe_of_headed (nodup : (Assoc.keys dir).Nodup)
    (plain : ∀ r ∈ run.regions, cStr r.logPath = r.logPath)
    (completed : (run.steps z dir).done = some ((), out)) {r : ImageInfo} (listed : r ∈ run.regions)
    (nonempty : r.bytes ≠ []) {behind : List Uint8}
    (present : Assoc.get dir (cStr r.logPath) =
      some ((regionFh r).compHdrOf 0 ++ (r.digest.toList ++ behind))) :
    ¬ReuseSafe z.zstd run out := by
  intro safe
  obtain ⟨fh, opened, header, _⟩ := open_headed r 0 behind
  have kept := get_of_reuses nodup plain completed listed ⟨_, fh, present, opened, header⟩
  obtain ⟨file, alone, decoded⟩ := safe.one r listed
  have own : Assoc.get out (cStr r.logPath) = some file := by
    rw [Assoc.get, plain r listed, ← List.head?_filter, alone]
    rfl
  cases own.symm.trans (kept.trans present)
  obtain ⟨digest, empty⟩ := readRegion_headed z.zstd r behind
  exact nonempty (congrArg Prod.snd (Option.some.inj (empty.symm.trans decoded))).symm

/-! Runs of a log without streams. -/

theorem start_buffered (buffered : run.log.mStream = false) (dir : Directory) :
    (run.start z dir).done = some ((), initDir dir) := by
  refine Prog.done_bind.mpr ⟨(), initDir dir, construct_done dir, ?_⟩
  rw [recordSteps, if_neg (Bool.eq_false_iff.mp buffered)]
  rfl

theorem completes (buffered : run.log.mStream = false)
    (written : run.write z.zstd (initDir dir) = some out) :
    ∃ out', (run.steps z dir).done = some ((), out') := by
  obtain ⟨out', ended⟩ := writeSteps_some buffered written
  exact ⟨out', Prog.done_bind.mpr ⟨(), initDir dir, start_buffered buffered dir, ended⟩⟩

/-- Behind the first seek of the destructor the header is on disk, however the buffer works. -/
theorem headed_mem_writeRegion (z : ZstdStreams) (spill : Spill Uint8) (r : ImageInfo)
    (dir : Directory) : ∃ behind, (some r, Assoc.put dir (cStr r.logPath,
      (regionFh r).compHdrOf 0 ++ (r.digest.toList ++ behind))) ∈ (writeRegion z spill r dir).stops := by
  obtain ⟨w₁, w₂, w₃, pieces, created, wrote, more, closes, last, -, stages, calls, fewer⟩ :=
    regionFh_writers z r
  let body := fwrites ((regionFh r).openCompHdr :: r.digest.toList :: pieces)
  have length : body.length = pieces.length + 2 := List.length_map ..
  have sought : w₃.mFh.take (body.length + 1) = body ++ [.fseekSet 24] := by
    rw [calls, List.take_length_add_append]
    rfl
  have onDisk : onDisk spill (w₃.mFh.take (body.length + 1)) =
      (regionFh r).compHdrOf 0 ++ (r.digest.toList ++ pieces.flatten) := by
    rw [sought, onDisk_seek spill rfl, run_fwrites, List.flatten_cons, List.flatten_cons]
    rfl
  have once : ¬ FileWriter.sizeOnDisk spill (w₃.mFh.take (body.length + 1)) := by
    rw [sought, FileWriter.sizeOnDisk, spilled, written_seek rfl, seeks_append, seeks_fwrites,
      List.take_nil]
    decide
  have mark : unfinished spill r (w₃.mFh.take (body.length + 1)) = some r := by
    refine if_pos ⟨?_, once⟩
    rw [onDisk, List.length_append, CompressedFile.length_compHdrOf, List.length_append]
    exact Nat.add_le_add_left (Nat.le_add_right _ _) _
  refine ⟨pieces.flatten, ?_⟩
  rw [writeRegion_eq created wrote more closes last]
  refine List.mem_append_right _ (List.mem_append_right _ (List.mem_append_left _ ?_))
  refine List.mem_map.mpr ⟨body.length + 1, List.mem_range'_1.mpr ⟨by omega, ?_⟩, ?_⟩
  · have more : body.length < w₃.mFh.length := by
      rw [calls, List.length_append]
      exact Nat.lt_add_of_pos_right (Nat.succ_pos 4)
    omega
  · exact Prod.ext mark (congrArg (fun file => Assoc.put dir (cStr r.logPath, file)) onDisk)

/-- A run may be cut off with the header of the first region file that it writes on disk. -/
theorem headed_mem_steps (buffered : run.log.mStream = false)
    (written : run.write z.zstd (initDir dir) = some out) {reused : List (List Uint8)}
    (tested : reusedMachoRegions (initDir dir) run.regions = some reused) {r : ImageInfo}
    {rest : List ImageInfo}
    (first : (run.regions.filter fun region => !reused.contains region.logPath) = r :: rest) :
    ∃ before behind, (some r, Assoc.put before (cStr r.logPath,
      (regionFh r).compHdrOf 0 ++ (r.digest.toList ++ behind))) ∈ (run.steps z dir).stops := by
  obtain ⟨syms, metaFh, _, _, selected, metaWritten, _⟩ := (write_eq_some run.sortSyms).mp written
  obtain ⟨w, dir₁, metaSteps, shown, held⟩ :=
    @writeMeta_some run.regions z run.spill syms metaFh metaWritten (initDir dir)
  have asked : (@Prog.ask (Option ImageInfo) _ _ (reusedMachoRegions · run.regions) dir₁).done =
      some (reused, dir₁) :=
    Prog.done_ask.mpr ⟨by rw [shown, reusedMachoRegions_putMeta, tested], rfl⟩
  obtain ⟨behind, stop⟩ := headed_mem_writeRegion z run.spill r
    (dir₁.filter fun e => !(isMachoRegion e.1 && !reused.contains e.1))
  refine ⟨dir₁.filter fun e => !(isMachoRegion e.1 && !reused.contains e.1), behind,
    Prog.mem_stops_bind (start_buffered buffered dir) ?_⟩
  refine Prog.mem_stops_bind (Prog.done_ofOption.mpr ⟨selected, rfl⟩) ?_
  refine Prog.mem_stops_bind metaSteps ?_
  refine Prog.mem_stops_bind asked ?_
  refine Prog.mem_stops_bind (removeAll_done _ _) ?_
  refine Prog.mem_stops_bind_left ?_
  rw [first]
  exact Prog.mem_stops_bind_left stop

end

/-- A run on one JIT region, a page of zeros. -/
def zeroJitRun (spill : Spill Uint8) : TraceRun where
  log := { mCompressionLevel := 3, mStream := false }
  spill := spill
  after _ := 0
  overlapFind := overlapAny
  sortSyms := stableBaseSort _
  regions := [zeroJitRegion 0x100000000 "/tmp/jit-region-0-tag-ff"]
  symbols := none

theorem zeroJitRun_write {zstd : Zstd} {spill : Spill Uint8} {dir : Directory}
    (opens : ∀ r ∈ (zeroJitRun spill).regions, ∀ file, Assoc.get dir (cStr r.logPath) = some file →
      ∃ fh, CompressedFileReader.open logMachoRegionHdrMagic 32 file = some fh) :
    ∃ out, (zeroJitRun spill).write zstd (initDir dir) = some out := by
  let run := zeroJitRun spill
  have selected : run.log.savedSyms run.after run.overlapFind run.sortSyms run.regions run.symbols =
      some [] := rfl
  have paths : ∀ r ∈ run.regions, r.path ≠ [] := by
    intro r listed
    rw [List.mem_singleton.mp listed]
    decide
  obtain ⟨metaFh, metaWritten⟩ :=
    @metaFile_some run.regions [] paths fun _ member => absurd member List.not_mem_nil
  have opens' : ∀ r ∈ run.regions, ∀ file,
      Assoc.get (initDir dir) (cStr r.logPath) = some file →
        ∃ fh, CompressedFileReader.open logMachoRegionHdrMagic 32 file = some fh := by
    intro r listed file present
    rw [initDir, Assoc.get_filter, if_pos (isMachoRegion_cStr r)] at present
    exact opens r listed file present
  obtain ⟨reused, tested⟩ := reused_some opens'
  exact ⟨_, (write_eq_some _).mpr ⟨[], metaFh, reused, [], selected, metaWritten, tested, rfl, rfl⟩⟩

theorem zeroJitRun_plain {spill : Spill Uint8} : ∀ r ∈ (zeroJitRun spill).regions, 0 ∉ r.logPath := by
  intro r listed
  rw [List.mem_singleton.mp listed]
  decide

/-- Reuse is safe behind runs that were not cut off while a file which has the name and the digest
of a region of this run had its header on disk and not its size. -/
theorem reuse_safe (z : ZstdStreams) (sha256 : List Uint8 → Sha256) {run : TraceRun}
    (digests : ∀ r ∈ run.regions, r.digest = sha256 r.bytes)
    (names : (run.regions.map ImageInfo.logPath).Nodup)
    (plain : ∀ r ∈ run.regions, 0 ∉ r.logPath)
    (small : ∀ r ∈ run.regions, r.bytes.length < 2 ^ 64) {dir out : Directory}
    (left : Left z (Harmless run.regions) (fun earlier => ∀ q ∈ earlier.regions,
      q.digest = sha256 q.bytes ∧
        ∀ r ∈ run.regions, sha256 q.bytes = sha256 r.bytes → q.bytes = r.bytes) dir)
    (completed : (run.steps z dir).done = some ((), out)) : ReuseSafe z.zstd run out := by
  have same : ∀ earlier : TraceRun, (∀ q ∈ earlier.regions, q.digest = sha256 q.bytes ∧
      ∀ r ∈ run.regions, sha256 q.bytes = sha256 r.bytes → q.bytes = r.bytes) →
      ∀ q ∈ earlier.regions, ∀ r ∈ run.regions, r.digest = q.digest → r.bytes = q.bytes := by
    intro earlier recorded q inEarlier r inRun digest
    obtain ⟨own, noCollision⟩ := recorded q inEarlier
    exact (noCollision r inRun (own.symm.trans (digest.symm.trans (digests r inRun)))).symm
  have plain' : ∀ r ∈ run.regions, cStr r.logPath = r.logPath := fun r h => cStr_eq (plain r h)
  obtain ⟨fresh, alone, perm⟩ := perm_fresh (left.reusable same) plain' names completed
  exact reuseSafe_of_perm plain' names small alone perm

/-- The second of two equal runs, which reuses the file of the first. -/
theorem reuse_safe_zeroJit : ∃ dir out, Assoc.get dir (ascii
      "macho-region-jit-region-0-tag-ff-ad7facb2.bin") ≠ none ∧
    ((zeroJitRun fun _ => 0).steps storingStreams dir).done = some ((), out) ∧
    ReuseSafe storingStreams.zstd (zeroJitRun fun _ => 0) out := by
  let run := zeroJitRun fun _ => 0
  let r := zeroJitRegion 0x100000000 "/tmp/jit-region-0-tag-ff"
  have single : ∀ q ∈ run.regions, q = r := fun q listed => List.mem_singleton.mp listed
  have digests : ∀ q ∈ run.regions, q.digest = r.digest :=
    fun q listed => congrArg ImageInfo.digest (single q listed)
  have names : (run.regions.map ImageInfo.logPath).Nodup := List.nodup_singleton _
  have small : ∀ q ∈ run.regions, q.bytes.length < 2 ^ 64 := by
    intro q listed
    rw [single q listed]
    exact lt_of_eq_of_lt List.length_replicate (by decide)
  have recorded : ∀ q ∈ run.regions, q.digest = r.digest ∧
      ∀ q' ∈ run.regions, r.digest = r.digest → q.bytes = q'.bytes := by
    intro q listed
    refine ⟨digests q listed, fun q' listed' _ => ?_⟩
    rw [single q listed, single q' listed']
  obtain ⟨_, written⟩ := @zeroJitRun_write storingStreams.zstd (fun _ => 0) []
    fun _ _ _ present => nomatch present
  obtain ⟨dir, first⟩ := @completes storingStreams run [] _ rfl written
  have before := reuse_safe storingStreams (fun _ => r.digest) digests names zeroJitRun_plain small
    .new first
  obtain ⟨file, alone, decoded⟩ := before.one r List.mem_cons_self
  have own : Assoc.get dir r.logPath = some file := by
    rw [Assoc.get, ← List.head?_filter, alone]
    rfl
  have opens : ∀ q ∈ run.regions, ∀ file', Assoc.get dir (cStr q.logPath) = some file' →
      ∃ fh, CompressedFileReader.open logMachoRegionHdrMagic 32 file' = some fh := by
    intro q listed file' present
    rw [cStr_eq (zeroJitRun_plain q listed), single q listed] at present
    obtain rfl := Option.some.inj (own.symm.trans present)
    obtain ⟨fh, opened, _⟩ := Option.bind_eq_some_iff.mp decoded
    exact ⟨fh, opened⟩
  obtain ⟨_, written'⟩ := @zeroJitRun_write storingStreams.zstd (fun _ => 0) dir opens
  obtain ⟨out, second⟩ := @completes storingStreams run dir _ rfl written'
  have name : r.logPath = ascii "macho-region-jit-region-0-tag-ff-ad7facb2.bin" := by decide
  refine ⟨dir, out, ?_, second, ?_⟩
  · rw [← name, own]
    exact Option.some_ne_none file
  · exact reuse_safe storingStreams (fun _ => r.digest) digests names zeroJitRun_plain small
      (.done .new recorded first) second

/-- A run that is cut off behind the first seek of a destructor, and the same run again: whatever
the buffers do. -/
theorem not_reuseSafe_cut :
    let sha256 : List Uint8 → Sha256 := fun _ => (zeroJitRegion 0 "").digest
    Hashed (jevhash32 0x85EBCA77) stableBucketSort.1 (zeroJitRun fun _ => 0).regions ∧
    ∀ spill, let run := zeroJitRun spill
      (∀ r ∈ run.regions, r.digest = sha256 r.bytes) ∧ (run.regions.map ImageInfo.logPath).Nodup ∧
      ∃ dir out, Left storingStreams (fun _ => True)
          (fun earlier => ∀ q ∈ earlier.regions, q.digest = sha256 q.bytes) dir ∧
        (run.steps storingStreams dir).done = some ((), out) ∧
        ¬ReuseSafe storingStreams.zstd run out := by
  intro sha256
  let r := zeroJitRegion 0x100000000 "/tmp/jit-region-0-tag-ff"
  have hashed := @MachORegions.hashed_holding [r] (by decide +kernel)
  refine ⟨⟨.holding [r], .refl _, List.pairwise_singleton _ _, hashed⟩, fun spill => ?_⟩
  intro run
  have single : ∀ q ∈ run.regions, q = r := fun q listed => List.mem_singleton.mp listed
  have plain : ∀ q ∈ run.regions, cStr q.logPath = q.logPath :=
    fun q listed => cStr_eq (zeroJitRun_plain q listed)
  obtain ⟨_, written⟩ := @zeroJitRun_write storingStreams.zstd spill []
    fun _ _ _ present => nomatch present
  have tested : reusedMachoRegions (initDir []) run.regions = some [] :=
    reusedMachoRegions_empty run.regions fun _ member => absurd member List.not_mem_nil
  obtain ⟨before, behind, stop⟩ :=
    @headed_mem_steps storingStreams run [] _ rfl written _ tested r [] rfl
  let file := (regionFh r).compHdrOf 0 ++ (r.digest.toList ++ behind)
  let dir := Assoc.put before (cStr r.logPath, file)
  have digests : ∀ q ∈ run.regions, q.digest = sha256 q.bytes :=
    fun q listed => (congrArg ImageInfo.digest (single q listed)).trans rfl
  have left := @Left.cut storingStreams (fun _ => True)
    (fun earlier => ∀ q ∈ earlier.regions, q.digest = sha256 q.bytes) [] run _ .new digests
    stop trivial
  have own : Assoc.get dir (cStr r.logPath) = some file := Assoc.get_put_self before (_, file)
  obtain ⟨fh, opened, _⟩ := open_headed r 0 behind
  obtain ⟨_, written'⟩ := @zeroJitRun_write storingStreams.zstd spill dir
    fun q listed file' present => by
      rw [single q listed] at present
      exact Option.some.inj (own.symm.trans present) ▸ ⟨fh, opened⟩
  obtain ⟨out, completed⟩ := @completes storingStreams run dir _ rfl written'
  have nonempty : r.bytes ≠ [] := List.ne_nil_of_length_pos
    (Nat.lt_of_lt_of_eq (by decide) List.length_replicate.symm)
  exact ⟨digests, List.nodup_singleton _, dir, out, left, completed,
    not_reuseSafe_of_headed left.nodup plain completed List.mem_cons_self nonempty own⟩

end TraceRun

end XnuTrace
