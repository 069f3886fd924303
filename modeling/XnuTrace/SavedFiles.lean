import XnuTrace.SavedLog
import XnuTrace.Lib.FallibleMap

/-! What `TraceLog::write` puts into an empty directory, file by file, and what the
reader makes of each file. -/
namespace XnuTrace
open Memory FallibleMap

namespace CompressedFile

theorem eq_of_write {f f' : CompressedFile} {buf : List Uint8} (written : f.write buf = some f') :
    f' = { f with pieces := f.pieces ++ [buf] } := by
  unfold write at written
  split at written
  · cases written
  · exact (Option.some.inj written).symm

theorem eq_of_writeAll {f f' : CompressedFile} {bufs : List (List Uint8)}
    (written : f.writeAll bufs = some f') : f' = { f with pieces := f.pieces ++ bufs } := by
  unfold writeAll at written
  induction bufs generalizing f with
  | nil =>
    cases written
    rw [List.append_nil]
  | cons buf bufs ih =>
    rw [List.foldlM_cons] at written
    obtain ⟨g, first, rest⟩ := Option.bind_eq_some_iff.mp written
    rw [ih rest, eq_of_write first, List.append_assoc]
    rfl

theorem writeAll_some {f : CompressedFile} {bufs : List (List Uint8)}
    (nonempty : ∀ buf ∈ bufs, buf ≠ []) : ∃ f', f.writeAll bufs = some f' := by
  unfold writeAll
  induction bufs generalizing f with
  | nil => exact ⟨f, rfl⟩
  | cons buf bufs ih =>
    rw [List.foldlM_cons, f.write_of_nonempty (nonempty buf List.mem_cons_self)]
    exact ih fun b h => nonempty b (List.mem_cons_of_mem _ h)

end CompressedFile

/-! Names. -/

theorem isMachoRegion_cStr (r : ImageInfo) : isMachoRegion (cStr r.logPath) = true := by
  have plain : ∀ b ∈ machoRegionPrefix, decide (b ≠ 0) = true := by decide
  rw [isMachoRegion, cStr, ImageInfo.logPath, List.append_assoc, List.append_assoc,
    List.append_assoc, List.takeWhile_append_of_pos plain, List.isPrefixOf_iff_prefix]
  exact List.prefix_append _ _

theorem isMachoRegion_metaBin : isMachoRegion metaBin = false := by decide

theorem isMachoRegion_threadName (tid : Uint32) : isMachoRegion (threadName tid) = false := rfl

theorem threadName_ne_metaBin (tid : Uint32) : threadName tid ≠ metaBin :=
  fun same => absurd (List.cons.inj same).1 (by decide)

theorem metaBin_ne_region (r : ImageInfo) : metaBin ≠ cStr r.logPath := by
  intro same
  have region := isMachoRegion_cStr r
  rw [← same, isMachoRegion_metaBin] at region
  cases region

theorem threadName_ne_region (tid : Uint32) (r : ImageInfo) : threadName tid ≠ cStr r.logPath := by
  intro same
  have region := isMachoRegion_cStr r
  rw [← same, isMachoRegion_threadName] at region
  cases region

theorem isPrefixOf_threadName (tid : Uint32) :
    threadPrefix.isPrefixOf (threadName tid) = true := by
  rw [threadName, List.append_assoc, List.isPrefixOf_iff_prefix]
  exact List.prefix_append _ _

/-! Files. -/

namespace TraceLog
variable (zstd : Zstd)

theorem metaFile_spec {regions : List ImageInfo} {syms : List SymInfo} {metaFh : CompressedFile}
    (written : metaFile regions syms = some metaFh) :
    metaFh.hdrMagic = logMetaHdrMagic ∧ metaFh.level = 0 ∧
    metaFh.mHdrBuf = logMetaHdr (BitVec.ofNat 64 regions.length) (BitVec.ofNat 64 syms.length) ∧
    metaFh.written = regions.flatMap ImageInfo.record ++ syms.flatMap SymInfo.record := by
  have regionBufs : (regions.flatMap fun r => [r.logRegion.bytes, r.path]).flatten =
      regions.flatMap ImageInfo.record := by
    rw [← List.flatMap_id, List.flatMap_assoc]
    exact List.flatMap_congr fun r _ => by simp [ImageInfo.record]
  have symBufs : (syms.flatMap fun s => [s.logSym.bytes, s.name, s.path]).flatten =
      syms.flatMap SymInfo.record := by
    rw [← List.flatMap_id, List.flatMap_assoc]
    exact List.flatMap_congr fun s _ => by simp [SymInfo.record]
  rw [CompressedFile.eq_of_writeAll written]
  refine ⟨rfl, rfl, rfl, ?_⟩
  change ([] ++ metaBufs regions syms).flatten = _
  rw [List.nil_append, metaBufs, List.flatten_append, regionBufs, symBufs]

/-- The file of a region, before it is closed. -/
def regionFh (r : ImageInfo) : CompressedFile :=
  { CompressedFile.create logMachoRegionHdrMagic r.digest.toList 1 with pieces := [r.bytes] }

theorem regionFile_eq (r : ImageInfo) : regionFile r = some (regionFh r) :=
  CompressedFile.write_compressed (show (1 : Int) ≠ 0 by decide) r.bytes

theorem open_complete (r : ImageInfo) :
    CompressedFileReader.open logMachoRegionHdrMagic 32 ((regionFh r).close zstd) =
      some ((regionFh r).reader zstd) := by
  have length : (regionFh r).mHdrBuf.length = 32 := r.digest.length_toList
  have opened := (regionFh r).open_close zstd (List.ne_nil_of_length_pos (by omega)) (by omega)
  rwa [length] at opened

/-- What a directory shows of a region. -/
def regionEntry (r : ImageInfo) : List Uint8 × List Uint8 :=
  (cStr r.logPath, (regionFh r).close zstd)

variable {zstd} in
theorem mem_keys_regions {regions : List ImageInfo} {key : List Uint8}
    (member : key ∈ Assoc.keys (regions.map (regionEntry zstd))) :
    ∃ r ∈ regions, key = cStr r.logPath := by
  rw [Assoc.keys, List.map_map] at member
  obtain ⟨r, listed, rfl⟩ := List.mem_map.mp member
  exact ⟨r, listed, rfl⟩

/-- Which files `write` makes of the threads. -/
def ThreadEntry (log : TraceLog) (e : List Uint8 × List Uint8) : Prop :=
  ∃ kv ∈ log.mThreadCtxs.mKeyVals, ∃ fh, log.threadFile kv.1 kv.2 = some fh ∧
    e = (threadName kv.1, fh.close zstd)

theorem reusedMachoRegions_empty {dir : Directory} (regions : List ImageInfo)
    (plain : ∀ e ∈ dir, isMachoRegion e.1 = false) : reusedMachoRegions dir regions = some [] := by
  unfold reusedMachoRegions
  induction regions with
  | nil => rfl
  | cons r regions ih =>
    have absent : Assoc.get dir (cStr r.logPath) = none := by
      rw [Assoc.get, Option.map_eq_none_iff, List.find?_eq_none]
      intro e member same
      have named := plain e member
      rw [of_decide_eq_true same, isMachoRegion_cStr] at named
      cases named
    rw [List.foldlM_cons, absent]
    exact ih

theorem reusedMachoRegions_congr {dir dir' : Directory} (regions : List ImageInfo)
    (same : ∀ r ∈ regions, Assoc.get dir (cStr r.logPath) = Assoc.get dir' (cStr r.logPath)) :
    reusedMachoRegions dir regions = reusedMachoRegions dir' regions := by
  unfold reusedMachoRegions
  generalize ([] : List (List Uint8)) = reused
  induction regions generalizing reused with
  | nil => rfl
  | cons r regions ih =>
    rw [List.foldlM_cons, List.foldlM_cons, same r List.mem_cons_self]
    exact congrArg _ (funext fun reused => ih (fun q member => same q (List.mem_cons_of_mem _ member)) reused)

theorem reusedMachoRegions_putMeta (regions : List ImageInfo) (dir : Directory) (file : List Uint8) :
    reusedMachoRegions (Assoc.put dir (metaBin, file)) regions = reusedMachoRegions dir regions :=
  reusedMachoRegions_congr regions fun r _ => Assoc.get_put_of_ne dir (metaBin_ne_region r)

/-- What a write keeps of a directory, and the files it puts there. -/
def filed (zstd : Zstd) (regions : List ImageInfo) (metaFh : CompressedFile)
    (reused : List (List Uint8)) (threadFiles dir : Directory) : Directory :=
  Assoc.putAll
    (Assoc.put (dir.filter fun e => !(isMachoRegion e.1 && !reused.contains e.1))
      (metaBin, metaFh.close zstd))
    ((regions.filter fun region => !reused.contains region.logPath).map (regionEntry zstd) ++
      threadFiles)

variable {zstd} in
/-- What a write does, without its intermediate directories. -/
theorem write_eq_some {log : TraceLog} {after : Nat → Uint8} {overlapFind : OverlapFind}
    (sortSyms : BaseSort SymInfo SymInfo.base) {regions : List ImageInfo}
    {symbols : Option Symbols} {dir out : Directory} :
    log.write zstd after overlapFind sortSyms regions symbols dir = some out ↔
      ∃ syms metaFh reused threadFiles,
        log.savedSyms after overlapFind sortSyms regions symbols = some syms ∧
        metaFile regions syms = some metaFh ∧ reusedMachoRegions dir regions = some reused ∧
        (log.mThreadCtxs.mKeyVals.mapM fun kv : Uint32 × ThreadCtx =>
          (log.threadFile kv.1 kv.2).map fun fh => (threadName kv.1, fh.close zstd)) =
            some threadFiles ∧
        filed zstd regions metaFh reused threadFiles dir = out := by
  have regionFiles : ∀ reused : List (List Uint8),
      ((regions.filter fun region => !reused.contains region.logPath).mapM fun region =>
        (regionFile region).map fun fh => (cStr region.logPath, fh.close zstd)) =
          some ((regions.filter fun region => !reused.contains region.logPath).map
            (regionEntry zstd)) :=
    fun reused => mapM_eq_map fun r _ => by rw [regionFile_eq]; rfl
  have keepMeta : ∀ (reused : List (List Uint8)) (file : List Uint8),
      (Assoc.put dir (metaBin, file)).filter
        (fun e => !isMachoRegion e.1 || reused.contains e.1) =
      Assoc.put (dir.filter fun e => !(isMachoRegion e.1 && !reused.contains e.1))
        (metaBin, file) := by
    intro reused file
    simp only [Bool.not_and, Bool.not_not]
    exact Assoc.filter_put (fun name => !isMachoRegion name || reused.contains name) dir
      (by rw [isMachoRegion_metaBin]; rfl)
  simp only [write, Option.bind_eq_bind, Option.bind_eq_some_iff, reusedMachoRegions_putMeta,
    regionFiles, keepMeta, Option.some.injEq, exists_eq_left', Option.pure_def, filed]
  constructor
  · rintro ⟨syms, selected, metaFh, metaWritten, reused, found, threadFiles, threads, rfl⟩
    exact ⟨syms, metaFh, reused, threadFiles, selected, metaWritten, found, threads, rfl⟩
  · rintro ⟨syms, metaFh, reused, threadFiles, selected, metaWritten, found, threads, rfl⟩
    exact ⟨syms, selected, metaFh, metaWritten, reused, found, threadFiles, threads, rfl⟩

theorem filed_empty (regions : List ImageInfo) (metaFh : CompressedFile) (threadFiles : Directory) :
    filed zstd regions metaFh [] threadFiles [] = Assoc.putAll [(metaBin, metaFh.close zstd)]
      (regions.map (regionEntry zstd) ++ threadFiles) := by
  have all : (regions.filter fun region => !([] : List (List Uint8)).contains region.logPath) =
      regions := List.filter_eq_self.mpr fun r _ => rfl
  rw [filed, all]
  rfl

/-- The files in a directory that was empty. -/
theorem write_empty {log : TraceLog} {after : Nat → Uint8} {overlapFind : OverlapFind}
    {sortSyms : BaseSort SymInfo SymInfo.base} {regions : List ImageInfo}
    {symbols : Option Symbols} {dir : Directory}
    (written : log.write zstd after overlapFind sortSyms regions symbols [] = some dir) :
    ∃ syms metaFh threadEntries,
      log.savedSyms after overlapFind sortSyms regions symbols = some syms ∧
      metaFile regions syms = some metaFh ∧ (∀ e ∈ threadEntries, log.ThreadEntry zstd e) ∧
      dir = Assoc.putAll [(metaBin, metaFh.close zstd)]
        (regions.map (regionEntry zstd) ++ threadEntries) := by
  obtain ⟨syms, metaFh, reused, threadEntries, selected, metaWritten, found, threads, shown⟩ :=
    (write_eq_some sortSyms).mp written
  rw [reusedMachoRegions_empty regions fun _ member => absurd member List.not_mem_nil] at found
  cases found
  rw [filed_empty] at shown
  refine ⟨syms, metaFh, threadEntries, selected, metaWritten, fun e member => ?_, shown.symm⟩
  obtain ⟨kv, inMap, made⟩ := mem_of_mapM threads member
  obtain ⟨fh, file, rfl⟩ := Option.map_eq_some_iff.mp made
  exact ⟨kv, inMap, fh, file, rfl⟩

/-- `meta.bin` can be written if no path and no name is empty. -/
theorem metaFile_some {regions : List ImageInfo} {syms : List SymInfo}
    (paths : ∀ r ∈ regions, r.path ≠ []) (texts : ∀ s ∈ syms, s.name ≠ [] ∧ s.path ≠ []) :
    ∃ metaFh, metaFile regions syms = some metaFh := by
  refine CompressedFile.writeAll_some fun buf member => ?_
  rcases List.mem_append.mp member with region | sym
  · obtain ⟨r, h, one⟩ := List.mem_flatMap.mp region
    rcases List.mem_pair.mp one with rfl | rfl
    · exact List.ne_nil_of_length_pos (by rw [LogRegion.length_bytes]; decide)
    · exact paths r h
  · obtain ⟨s, h, one⟩ := List.mem_flatMap.mp sym
    simp only [List.mem_cons, List.not_mem_nil, or_false] at one
    rcases one with rfl | rfl | rfl
    · exact List.ne_nil_of_length_pos (by rw [LogSym.length_bytes]; decide)
    · exact (texts s h).1
    · exact (texts s h).2

theorem write_some {log : TraceLog} (noThreads : log.mThreadCtxs.mKeyVals = [])
    (after : Nat → Uint8) (overlapFind : OverlapFind) (sortSyms : BaseSort SymInfo SymInfo.base)
    {regions : List ImageInfo} {symbols : Option Symbols} {syms : List SymInfo}
    (selected : log.savedSyms after overlapFind sortSyms regions symbols = some syms)
    (paths : ∀ r ∈ regions, r.path ≠ []) (texts : ∀ s ∈ syms, s.name ≠ [] ∧ s.path ≠ []) :
    ∃ dir, log.write zstd after overlapFind sortSyms regions symbols [] = some dir := by
  obtain ⟨metaFh, metaWritten⟩ := metaFile_some paths texts
  have tested := reusedMachoRegions_empty regions fun _ member => absurd member List.not_mem_nil
  exact ⟨_, (write_eq_some sortSyms).mpr ⟨syms, metaFh, [], [], selected, metaWritten, tested,
    by rw [noThreads]; rfl, rfl⟩⟩

end TraceLog

/-! Reading the files. -/

namespace ParsedLog
variable (zstd : Zstd)

theorem readMeta_eq {regions : List ImageInfo} {syms : List SymInfo} {metaFh : CompressedFile}
    (written : TraceLog.metaFile regions syms = some metaFh)
    (small : metaFh.written.length < 2 ^ 64) {dir : Directory}
    (found : Assoc.get dir metaBin = some (metaFh.close zstd)) :
    readMeta zstd dir = if metaFh.written = [] then none else
      some (metaFh.written, BitVec.ofNat 64 regions.length, BitVec.ofNat 64 syms.length) := by
  obtain ⟨magic, level, hdr, _⟩ := TraceLog.metaFile_spec written
  have length : metaFh.mHdrBuf.length = 16 := by
    rw [hdr, logMetaHdr, List.length_append, length_wordBytes, length_wordBytes]
  have opened := metaFh.open_close zstd (List.ne_nil_of_length_pos (by omega)) (by omega)
  rw [magic, length] at opened
  have body := CompressedFile.read_reader zstd small
  obtain ⟨first, second⟩ := twoWords (BitVec.ofNat 64 regions.length) (BitVec.ofNat 64 syms.length)
  have header : (metaFh.reader zstd).mHdrBuf = logMetaHdr _ _ := hdr
  simp only [readMeta, found, Option.bind_eq_bind, Option.bind_some, opened, body, level, true_and]
  split
  · rfl
  · rw [Option.bind_some, header, logMetaHdr, first, second]
    rfl

theorem readRegion_eq (r : ImageInfo) (small : r.bytes.length < 2 ^ 64) :
    readRegion zstd ((TraceLog.regionFh r).close zstd) = some (r.digest, r.bytes) := by
  have whole : (TraceLog.regionFh r).written = r.bytes := List.flatten_singleton
  have body := @CompressedFile.read_reader zstd (TraceLog.regionFh r) (by rwa [whole])
  have packed : ¬((TraceLog.regionFh r).level = 0 ∧ (TraceLog.regionFh r).written = []) :=
    fun h => absurd (show (1 : Int) = 0 from h.1) (by decide)
  rw [if_neg packed, whole] at body
  have digest : Vector.ofFn (fun i : Fin 32 =>
      ((TraceLog.regionFh r).reader zstd).mHdrBuf.getD i 0) = r.digest := by
    apply Vector.ext
    intro i hi
    rw [Vector.getElem_ofFn]
    change r.digest.toList.getD i 0 = _
    rw [List.getD_eq_getElem _ _ (by simpa using hi), Vector.getElem_toList]
  rw [readRegion, TraceLog.open_complete]
  simp only [Option.bind_eq_bind, Option.bind_some, body, digest]
  rfl

theorem skipRegions_eq {mem : Nat → Uint8} {regions : List ImageInfo} {p : Nat}
    (holds : Holds mem p (regions.flatMap ImageInfo.record))
    (small : (regions.flatMap ImageInfo.record).length < 2 ^ 64) :
    skipRegions mem regions.length p = p + (regions.flatMap ImageInfo.record).length := by
  induction regions generalizing p with
  | nil => rfl
  | cons r regions ih =>
    rw [List.flatMap_cons, ImageInfo.record] at *
    obtain ⟨⟨header, path⟩, rest⟩ := by
      simpa only [holds_append, List.length_append, LogRegion.length_bytes] using holds
    simp only [List.length_append, LogRegion.length_bytes] at small ⊢
    have size : r.logRegion.pathLen.toNat = r.path.length := by
      change (BitVec.ofNat 64 r.path.length).toNat = _
      rw [BitVec.toNat_ofNat, Nat.mod_eq_of_lt (by omega)]
    rw [← Nat.add_assoc] at rest
    rw [List.length_cons, skipRegions, LogRegion.load_bytes header, size, ih rest (by omega)]
    omega

end ParsedLog

end XnuTrace
