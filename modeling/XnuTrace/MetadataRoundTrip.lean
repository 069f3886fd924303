import XnuTrace.SavedFiles
import XnuTrace.RegionPages

/-! When the regions and symbols of a saved log are read back. -/
namespace XnuTrace
open Memory

namespace TraceLog

/-- Every stream has its header and at least one message, as `log` leaves it. -/
def StreamsKept (log : TraceLog) : Prop :=
  ∀ kv ∈ log.mThreadCtxs.mKeyVals, ∀ logStream, kv.2.logStream = some logStream →
    logStream.hdrMagic = logThreadHdrMagic ∧ logStream.mHdrBuf.length = 16 ∧
      logStream.written ≠ []

/-- The logs of the threads have sizes that `size_t` can hold. -/
def LogsFit (log : TraceLog) : Prop :=
  ∀ kv ∈ log.mThreadCtxs.mKeyVals, kv.2.logBuf.length < 2 ^ 64 ∧
    ∀ logStream, kv.2.logStream = some logStream → logStream.written.length < 2 ^ 64

end TraceLog

namespace ParsedLog
variable {zstd : Zstd}

theorem readThread_close {fh : CompressedFile} (tid : Uint32)
    (magic : fh.hdrMagic = logThreadHdrMagic) (length : fh.mHdrBuf.length = 16)
    (small : fh.written.length < 2 ^ 64) (nonempty : ¬(fh.level = 0 ∧ fh.written = [])) :
    ∃ parsed, readThread zstd (threadName tid) (fh.close zstd) = some parsed := by
  have opened := fh.open_close zstd (List.ne_nil_of_length_pos (by omega)) (by omega)
  rw [magic, length] at opened
  have body := CompressedFile.read_reader zstd small
  rw [if_neg nonempty] at body
  rw [readThread, isPrefixOf_threadName, if_pos rfl]
  simp only [Option.bind_eq_bind, opened, body, Option.bind_some]
  exact ⟨_, rfl⟩

theorem readThread_entry {log : TraceLog} (kept : log.StreamsKept) (fits : log.LogsFit)
    {e : List Uint8 × List Uint8} (entry : log.ThreadEntry zstd e) :
    ∃ parsed, readThread zstd e.1 e.2 = some parsed := by
  obtain ⟨⟨tid, tctx⟩, inMap, fh, file, rfl⟩ := entry
  unfold TraceLog.threadFile at file
  split at file
  · obtain ⟨logStream, stream, rfl⟩ := Option.map_eq_some_iff.mp file
    obtain ⟨magic, length, nonempty⟩ := kept _ inMap logStream stream
    refine readThread_close tid magic ?_ ((fits _ inMap).2 logStream stream)
      fun h => nonempty h.2
    rw [List.length_append, List.length_take, length, length_wordBytes]
    rfl
  · have made := CompressedFile.eq_of_write file
    have whole : fh.written = tctx.logBuf := by
      rw [made]
      exact List.flatten_singleton
    have level : fh.level = log.mCompressionLevel := by rw [made]; rfl
    refine readThread_close tid (by rw [made]; rfl) ?_ (by rw [whole]; exact (fits _ inMap).1) ?_
    · rw [made]
      change (logThreadHdr _ _).length = 16
      rw [logThreadHdr, List.length_append, length_wordBytes, length_wordBytes]
    · rintro ⟨plain, empty⟩
      rw [CompressedFile.write, if_pos ⟨level.symm.trans plain, whole.symm.trans empty⟩] at file
      cases file

end ParsedLog

/-! The directory. -/

/-- How a saved directory may be listed. -/
structure Listed (zstd : Zstd) (log : TraceLog) (regions : List ImageInfo)
    (metaFh : CompressedFile) (entries : Directory) : Prop where
  nodup : (Assoc.keys entries).Nodup
  metaEntry : (metaBin, metaFh.close zstd) ∈ entries
  names : ∀ name, name ∈ Assoc.keys (entries.filter fun e => isMachoRegion e.1) ↔
    ∃ r ∈ regions, cStr r.logPath = name
  regions : (regions.map fun r => cStr r.logPath).Nodup →
    (entries.filter fun e => isMachoRegion e.1).Perm (regions.map (TraceLog.regionEntry zstd))
  others : ∀ e ∈ entries, e.1 ≠ metaBin → isMachoRegion e.1 = false → log.ThreadEntry zstd e

section
variable {zstd : Zstd} {log : TraceLog} {regions : List ImageInfo} {metaFh : CompressedFile}
  {threadEntries entries : Directory}

theorem threadEntry_name (threads : ∀ e ∈ threadEntries, log.ThreadEntry zstd e)
    {e : List Uint8 × List Uint8} (member : e ∈ threadEntries) :
    isMachoRegion e.1 = false ∧ e.1 ≠ metaBin := by
  obtain ⟨kv, _, fh, _, rfl⟩ := threads e member
  exact ⟨isMachoRegion_threadName _, threadName_ne_metaBin _⟩

theorem regionEntry_name {e : List Uint8 × List Uint8}
    (member : e ∈ regions.map (TraceLog.regionEntry zstd)) :
    isMachoRegion e.1 = true ∧ e.1 ≠ metaBin := by
  obtain ⟨r, _, rfl⟩ := List.mem_map.mp member
  exact ⟨isMachoRegion_cStr r, (metaBin_ne_region r).symm⟩

variable (zstd regions metaFh) in
/-- The files that do not depend on the threads. -/
def unthreaded : Directory :=
  Assoc.putAll [(metaBin, metaFh.close zstd)] (regions.map (TraceLog.regionEntry zstd))

theorem mem_keys_unthreaded (name : List Uint8) :
    name ∈ Assoc.keys ((unthreaded zstd regions metaFh).filter fun e => isMachoRegion e.1) ↔
      ∃ r ∈ regions, cStr r.logPath = name := by
  rw [Assoc.keys, List.mem_map]
  constructor
  · rintro ⟨e, member, rfl⟩
    obtain ⟨inDir, macho⟩ := List.mem_filter.mp member
    rcases Assoc.mem_putAll inDir with single | entry
    · rw [List.mem_singleton.mp single, isMachoRegion_metaBin] at macho
      cases macho
    · obtain ⟨r, h, rfl⟩ := List.mem_map.mp entry
      exact ⟨r, h, rfl⟩
  · rintro ⟨r, h, rfl⟩
    have key := (Assoc.mem_keys_putAll [(metaBin, metaFh.close zstd)]
      (regions.map (TraceLog.regionEntry zstd)) (cStr r.logPath)).mpr
      (.inr (List.mem_map.mpr ⟨_, List.mem_map_of_mem h, rfl⟩))
    obtain ⟨e, member, same⟩ := List.mem_map.mp key
    exact ⟨e, List.mem_filter.mpr ⟨member, by rw [same, isMachoRegion_cStr]⟩, same⟩

theorem unthreaded_regions (nodup : (regions.map fun r => cStr r.logPath).Nodup) :
    (unthreaded zstd regions metaFh).filter (fun e => isMachoRegion e.1) =
      regions.map (TraceLog.regionEntry zstd) := by
  have different : (Assoc.keys (regions.map (TraceLog.regionEntry zstd))).Nodup := by
    rw [Assoc.keys, List.map_map]
    exact nodup
  have fresh : ∀ key ∈ Assoc.keys (regions.map (TraceLog.regionEntry zstd)),
      key ∉ Assoc.keys [(metaBin, metaFh.close zstd)] := by
    intro key member single
    obtain ⟨r, _, same⟩ := TraceLog.mem_keys_regions member
    exact metaBin_ne_region r ((List.mem_singleton.mp single).symm.trans same)
  rw [unthreaded, Assoc.putAll_eq_append different fresh, List.filter_append,
    List.filter_eq_self.mpr fun e h => (regionEntry_name h).1]
  simp [isMachoRegion_metaBin]

theorem unthreaded_meta : (unthreaded zstd regions metaFh).filter (fun e => decide (e.1 = metaBin)) =
    [(metaBin, metaFh.close zstd)] := by
  rw [unthreaded, Assoc.filter_putAll (fun name => decide (name = metaBin))
    fun e h => decide_eq_false (regionEntry_name h).2]
  simp

theorem listed_of_perm (threads : ∀ e ∈ threadEntries, log.ThreadEntry zstd e)
    (listed : entries.Perm (Assoc.putAll [(metaBin, metaFh.close zstd)]
      (regions.map (TraceLog.regionEntry zstd) ++ threadEntries))) :
    Listed zstd log regions metaFh entries := by
  rw [Assoc.putAll_append, ← unthreaded] at listed
  have selected : (entries.filter fun e => isMachoRegion e.1).Perm
      ((unthreaded zstd regions metaFh).filter fun e => isMachoRegion e.1) := by
    have files := listed.filter fun e => isMachoRegion e.1
    rwa [Assoc.filter_putAll isMachoRegion fun e h => (threadEntry_name threads h).1] at files
  constructor
  · have single : (Assoc.keys [(metaBin, metaFh.close zstd)]).Nodup := List.nodup_singleton metaBin
    exact (listed.map Prod.fst).nodup_iff.mpr
      (Assoc.nodup_putAll (Assoc.nodup_putAll single _) _)
  · have only := listed.filter fun e => decide (e.1 = metaBin)
    rw [Assoc.filter_putAll (fun name => decide (name = metaBin))
      fun e h => decide_eq_false (threadEntry_name threads h).2, unthreaded_meta] at only
    exact (List.mem_filter.mp (only.mem_iff.mpr (List.mem_singleton_self _))).1
  · intro name
    rw [Assoc.keys, (selected.map Prod.fst).mem_iff]
    exact mem_keys_unthreaded name
  · intro nodup
    rwa [unthreaded_regions nodup] at selected
  · intro e member notMeta notRegion
    rcases Assoc.mem_putAll (listed.mem_iff.mp member) with earlier | thread
    · rcases Assoc.mem_putAll earlier with single | entry
      · exact absurd (congrArg Prod.fst (List.mem_singleton.mp single)) notMeta
      · rw [(regionEntry_name entry).1] at notRegion
        cases notRegion
    · exact threads e thread

end

/-- What is read from the file of a region. -/
def regionBody (zstd : Zstd) (e : List Uint8 × List Uint8) : Sha256 × List Uint8 :=
  (ParsedLog.readRegion zstd e.2).getD (.replicate 32 0, [])

theorem regionBody_regionEntry {zstd : Zstd} {r : ImageInfo} (small : r.bytes.length < 2 ^ 64) :
    regionBody zstd (TraceLog.regionEntry zstd r) = (r.digest, r.bytes) := by
  rw [regionBody, TraceLog.regionEntry, ParsedLog.readRegion_eq zstd r small, Option.getD_some]

namespace Listed
variable {zstd : Zstd} {log : TraceLog} {regions : List ImageInfo} {metaFh : CompressedFile}
  {entries : Directory} (listed : Listed zstd log regions metaFh entries)
include listed

/-- Two regions of one file name leave too few files. -/
theorem nodup_names (few : regions.length < 2 ^ 64) {m : RegionsBytes}
    (found : ParsedLog.readRegionsBytes zstd entries (BitVec.ofNat 64 regions.length) = some m) :
    (regions.map fun r => cStr r.logPath).Nodup := by
  have nodup : (Assoc.keys (entries.filter fun e => isMachoRegion e.1)).Nodup :=
    (List.filter_sublist.map Prod.fst).nodup listed.nodup
  have covers : Assoc.keys (entries.filter fun e => isMachoRegion e.1) ⊆
      regions.map fun r => cStr r.logPath :=
    fun name member => List.mem_map.mpr ((listed.names name).mp member)
  have most := (List.subperm_of_subset nodup covers).length_le
  simp only [Assoc.keys, List.length_map] at most
  simp only [ParsedLog.readRegionsBytes] at found
  split at found
  · rename_i counted
    have same := congrArg BitVec.toNat counted
    rw [BitVec.toNat_ofNat, BitVec.toNat_ofNat, Nat.mod_eq_of_lt few,
      Nat.mod_eq_of_lt (by omega)] at same
    exact Assoc.nodup_of_length_le nodup covers (by simp [Assoc.keys, same])
  · cases found

theorem readRegionsBytes_eq (nodup : (regions.map fun r => cStr r.logPath).Nodup)
    (small : ∀ r ∈ regions, r.bytes.length < 2 ^ 64) :
    ∃ m, ParsedLog.readRegionsBytes zstd entries (BitVec.ofNat 64 regions.length) = some m ∧
      ((regions.map (·.digest)).Nodup → ∀ r ∈ regions, m r.digest = some r.bytes) := by
  have files := listed.regions nodup
  have read : ∀ r ∈ regions, regionBody zstd (TraceLog.regionEntry zstd r) = (r.digest, r.bytes) :=
    fun r h => regionBody_regionEntry (small r h)
  have each : ∀ e ∈ entries.filter fun e => isMachoRegion e.1,
      ParsedLog.readRegion zstd e.2 = some (regionBody zstd e) := by
    intro e member
    obtain ⟨r, h, rfl⟩ := List.mem_map.mp (files.mem_iff.mp member)
    rw [read r h]
    exact ParsedLog.readRegion_eq zstd r (small r h)
  have bodies : (regions.map (TraceLog.regionEntry zstd)).map (regionBody zstd) =
      regions.map fun r => (r.digest, r.bytes) := by
    rw [List.map_map]
    refine List.map_congr_left fun r h => ?_
    rw [Function.comp_apply, read r h]
  have shuffled := files.map (regionBody zstd)
  rw [bodies] at shuffled
  have count : (entries.filter fun e => isMachoRegion e.1).length = regions.length := by
    rw [files.length_eq, List.length_map]
  refine ⟨((entries.filter fun e => isMachoRegion e.1).map (regionBody zstd)).foldl
    (fun m e => m.emplace e.1 e.2) fun _ => none, ?_, fun digests r h => ?_⟩
  · rw [ParsedLog.readRegionsBytes, count, if_pos rfl, FallibleMap.mapM_eq_map each, Option.map_some]
  · have different :
        (((entries.filter fun e => isMachoRegion e.1).map (regionBody zstd)).map Prod.fst).Nodup := by
      rw [(shuffled.map Prod.fst).nodup_iff, List.map_map]
      exact digests
    have member : (r.digest, r.bytes) ∈
        (entries.filter fun e => isMachoRegion e.1).map (regionBody zstd) :=
      shuffled.mem_iff.mpr (List.mem_map.mpr ⟨r, h, rfl⟩)
    exact RegionsBytes.foldl_emplace different (fun _ _ => rfl) member

theorem readThreads_some (kept : log.StreamsKept) (fits : log.LogsFit) :
    ∃ parsed, ParsedLog.readThreads zstd entries = some parsed := by
  rw [← Option.isSome_iff_exists, ParsedLog.readThreads, FallibleMap.mapM_isSome_iff]
  intro e member
  obtain ⟨inDir, kind⟩ := List.mem_filter.mp member
  obtain ⟨notMeta, notRegion⟩ := of_decide_eq_true kind
  exact Option.isSome_iff_exists.mpr (ParsedLog.readThread_entry kept fits
    (listed.others e inDir notMeta (by simpa using notRegion)))

end Listed

theorem MachORegions.ofBuf_eq (hash : Hasher) (sortBuckets : List (Bucket 64) → List (Bucket 64))
    (sortRegions : BaseSort ImageInfo ImageInfo.base) {mem : Nat → Uint8} {regions : List ImageInfo}
    (m : RegionsBytes) (holds : Holds mem 0 (regions.flatMap ImageInfo.record))
    (small : (regions.flatMap ImageInfo.record).length < 2 ^ 64) :
    ofBuf hash sortBuckets sortRegions mem 0 regions.length m =
      (restore regions m).bind fun restored =>
        match createHash hash sortBuckets (sortRegions.1 restored) with
        | .error _ => none
        | .ok mPa2buf => some { mRegions := sortRegions.1 restored, mPa2buf } := by
  rw [ofBuf, readRegions_eq m holds small]
  rfl

theorem length_le_records (regions : List ImageInfo) :
    regions.length ≤ (regions.flatMap ImageInfo.record).length :=
  Framing.length_le_flatMap ImageInfo.record (fun r => by
    rw [ImageInfo.record, List.length_append, LogRegion.length_bytes, LogRegion.sizeofLogRegion]
    omega) regions

theorem length_le_symRecords (syms : List SymInfo) :
    syms.length ≤ (syms.flatMap SymInfo.record).length :=
  Framing.length_le_flatMap SymInfo.record (fun s => by
    rw [SymInfo.record, List.length_append, List.length_append, LogSym.length_bytes,
      LogSym.sizeofLogSym]
    omega) syms

theorem length_regions_lt {regions : List ImageInfo} {syms : List SymInfo} {metaFh : CompressedFile}
    (metaWritten : TraceLog.metaFile regions syms = some metaFh)
    (small : metaFh.written.length < 2 ^ 64) : regions.length < 2 ^ 64 := by
  obtain ⟨_, _, _, body⟩ := TraceLog.metaFile_spec metaWritten
  have few := length_le_records regions
  rw [body, List.length_append] at small
  omega

namespace ParsedLog

section
variable {zstd : Zstd} (hash : Hasher) (sortBuckets : BucketSort 64)
  (sortRegions : BaseSort ImageInfo ImageInfo.base) (sortSyms : BaseSort SymInfo SymInfo.base)
  (after : Nat → Uint8) {log : TraceLog} {regions : List ImageInfo} {syms : List SymInfo}
  {metaFh : CompressedFile} {entries : Directory} (listed : Listed zstd log regions metaFh entries)
  (metaWritten : TraceLog.metaFile regions syms = some metaFh)
  (small : metaFh.written.length < 2 ^ 64)
include listed metaWritten small

/-- The constructor on a saved directory, up to its threads. -/
theorem read_listed (kept : log.StreamsKept) (fits : log.LogsFit)
    (nonempty : metaFh.written ≠ []) : ∃ finish : MachORegions → ParsedLog,
    (∀ m, (finish m).mMachoRegions = m ∧ (finish m).mSymbols = { mSyms := sortSyms.1 syms }) ∧
    read zstd hash sortBuckets sortRegions sortSyms after entries =
      (readRegionsBytes zstd entries (BitVec.ofNat 64 regions.length)).bind fun regionsBytes =>
        ((restore regions regionsBytes).bind fun restored =>
          match createHash hash sortBuckets.1 (sortRegions.1 restored) with
          | .error _ => none
          | .ok mPa2buf => some { mRegions := sortRegions.1 restored, mPa2buf }).map finish := by
  obtain ⟨_, _, _, body⟩ := TraceLog.metaFile_spec metaWritten
  obtain ⟨parsedLogs, threads⟩ := listed.readThreads_some kept fits
  have found := readMeta_eq zstd metaWritten small (Assoc.get_eq listed.nodup listed.metaEntry)
  rw [if_neg nonempty] at found
  have whole := holds_ofList metaFh.written after
  rw [body, holds_append, Nat.zero_add] at whole
  rw [body, List.length_append] at small
  have few := length_le_records regions
  have fewSyms := length_le_symRecords syms
  have count : (BitVec.ofNat 64 regions.length).toNat = regions.length := by
    rw [BitVec.toNat_ofNat, Nat.mod_eq_of_lt (by omega)]
  have countSyms : (BitVec.ofNat 64 syms.length).toNat = syms.length := by
    rw [BitVec.toNat_ofNat, Nat.mod_eq_of_lt (by omega)]
  have symbols := readSyms_eq whole.2 (by omega)
  let finish (mMachoRegions : MachORegions) : ParsedLog := {
    mNumInst := parsedLogs.foldl (fun n e => n + e.2.mNumInst) 0
    mMachoRegions
    mSymbols := { mSyms := sortSyms.1 syms }
    mParsedLogs := parsedLogs.foldl (fun logs e =>
      if logs.any (·.1 == e.1) then logs else logs ++ [e]) [] }
  refine ⟨finish, fun m => ⟨rfl, rfl⟩, ?_⟩
  rw [read, found]
  simp only [Option.bind_eq_bind, Option.bind_some, body, count, countSyms, threads,
    skipRegions_eq whole.1 (by omega), Nat.zero_add, Symbols.ofBuf, symbols]
  refine congrArg _ (funext fun regionsBytes => ?_)
  rw [MachORegions.ofBuf_eq hash sortBuckets.1 sortRegions regionsBytes whole.1 (by omega),
    Option.map_eq_bind]
  rfl

end

section
variable {zstd : Zstd} {hash : Hasher} {sortBuckets : BucketSort 64}
  {sortRegions : BaseSort ImageInfo ImageInfo.base} {sortSyms : BaseSort SymInfo SymInfo.base}
  {after : Nat → Uint8} {log : TraceLog} {regions : List ImageInfo} {syms : List SymInfo}
  {metaFh : CompressedFile} {entries : Directory} (listed : Listed zstd log regions metaFh entries)
  (metaWritten : TraceLog.metaFile regions syms = some metaFh)
  (small : metaFh.written.length < 2 ^ 64) (kept : log.StreamsKept) (fits : log.LogsFit)
include listed metaWritten small kept fits

/-- Files and digests tell the regions apart if reading gets through. -/
theorem distinct_of_read {loaded : ParsedLog}
    (sizes : ∀ r ∈ regions, r.size ≠ 0 ∧ r.bytes.length = r.size.toNat)
    (found : read zstd hash sortBuckets sortRegions sortSyms after entries = some loaded) :
    (regions.map fun r => cStr r.logPath).Nodup ∧ (regions.map (·.digest)).Nodup ∧
      ∃ mPa2buf, createHash hash sortBuckets.1 (sortRegions.1 regions) = .ok mPa2buf := by
  have nonempty : metaFh.written ≠ [] := by
    intro empty
    have stopped := readMeta_eq zstd metaWritten small (Assoc.get_eq listed.nodup listed.metaEntry)
    rw [if_pos empty] at stopped
    rw [read, stopped] at found
    cases found
  obtain ⟨finish, _, steps⟩ := read_listed hash sortBuckets sortRegions sortSyms after listed
    metaWritten small kept fits nonempty
  rw [steps] at found
  obtain ⟨regionsBytes, files, found⟩ := Option.bind_eq_some_iff.mp found
  obtain ⟨m, built, rfl⟩ := Option.map_eq_some_iff.mp found
  obtain ⟨restored, loop, built⟩ := Option.bind_eq_some_iff.mp built
  have names := listed.nodup_names (length_regions_lt metaWritten small) files
  obtain ⟨digests, _⟩ := nodup_of_restore (fun r h => (sizes r h).1) loop
  obtain ⟨regionsBytes', files', stored⟩ := listed.readRegionsBytes_eq names fun r h => by
    rw [(sizes r h).2]
    exact r.size.isLt
  rw [files] at files'
  cases files'
  rw [restore_eq digests (fun r h => (sizes r h).2) (stored digests)] at loop
  cases loop
  refine ⟨names, digests, ?_⟩
  cases hashed : createHash hash sortBuckets.1 (sortRegions.1 regions) with
  | ok mPa2buf => exact ⟨mPa2buf, rfl⟩
  | error e =>
    rw [hashed] at built
    cases built

theorem read_of_distinct (names : (regions.map fun r => cStr r.logPath).Nodup)
    (digests : (regions.map (·.digest)).Nodup)
    (sizes : ∀ r ∈ regions, r.bytes.length = r.size.toNat)
    (hashed : ∃ mPa2buf, createHash hash sortBuckets.1 (sortRegions.1 regions) = .ok mPa2buf) :
    ∃ loaded, read zstd hash sortBuckets sortRegions sortSyms after entries = some loaded ∧
      loaded.mMachoRegions.mRegions = sortRegions.1 regions ∧
      loaded.mSymbols.mSyms = sortSyms.1 syms := by
  obtain ⟨mPa2buf, hashed⟩ := hashed
  have nonempty : metaFh.written ≠ [] := by
    intro empty
    obtain ⟨_, _, _, body⟩ := TraceLog.metaFile_spec metaWritten
    have none : regions = [] := by
      have few := length_le_records regions
      rw [(List.append_eq_nil_iff.mp (body.symm.trans empty)).1] at few
      exact List.eq_nil_of_length_eq_zero (Nat.le_zero.mp few)
    rw [none, (sortRegions.2 []).1.eq_nil] at hashed
    cases hashed
  obtain ⟨finish, parts, steps⟩ := read_listed hash sortBuckets sortRegions sortSyms after listed
    metaWritten small kept fits nonempty
  obtain ⟨regionsBytes, files, stored⟩ := listed.readRegionsBytes_eq names fun r h => by
    rw [sizes r h]
    exact r.size.isLt
  obtain ⟨own, symbols⟩ := parts { mRegions := sortRegions.1 regions, mPa2buf }
  refine ⟨_, ?_, congrArg MachORegions.mRegions own, congrArg Symbols.mSyms symbols⟩
  rw [steps, files, Option.bind_some, restore_eq digests sizes (stored digests), Option.bind_some,
    hashed]
  rfl

end
end ParsedLog

/-- What is saved into an empty directory is loaded again exactly if no two regions share
the name of their file or their digest and `MachORegions` can hold them. -/
theorem saved_read_iff (zstd : Zstd) (hash : Hasher) (sortBuckets : BucketSort 64)
    (sortRegions : BaseSort ImageInfo ImageInfo.base) (sortSyms : BaseSort SymInfo SymInfo.base)
    (overlapFind : OverlapFind) (after after' : Nat → Uint8) {log : TraceLog}
    (kept : log.StreamsKept) (fits : log.LogsFit) {regions : List ImageInfo}
    (sizes : ∀ r ∈ regions, r.size ≠ 0 ∧ r.bytes.length = r.size.toNat)
    {symbols : Option Symbols} {syms : List SymInfo}
    (selected : log.savedSyms after overlapFind sortSyms regions symbols = some syms)
    (small : (regions.flatMap ImageInfo.record ++ syms.flatMap SymInfo.record).length < 2 ^ 64)
    {dir entries : Directory}
    (written : log.write zstd after overlapFind sortSyms regions symbols [] = some dir)
    (listed : entries.Perm dir) :
    (∃ loaded, ParsedLog.read zstd hash sortBuckets sortRegions sortSyms after' entries =
        some loaded ∧
      loaded.mMachoRegions.mRegions.Perm regions ∧
      loaded.mMachoRegions.mRegions.Pairwise (fun a b => a.base ≤ b.base) ∧
      loaded.mSymbols.mSyms.Perm syms ∧
      loaded.mSymbols.mSyms.Pairwise fun a b => a.base ≤ b.base) ↔
    (regions.map fun r => cStr r.logPath).Nodup ∧ (regions.map (·.digest)).Nodup ∧
      Hashed hash sortBuckets.1 regions := by
  obtain ⟨syms', metaFh, threadEntries, selected', metaWritten, threads, rfl⟩ :=
    TraceLog.write_empty zstd written
  cases selected.symm.trans selected'
  have shown := listed_of_perm threads listed
  obtain ⟨_, _, _, body⟩ := TraceLog.metaFile_spec metaWritten
  rw [← body] at small
  rw [hashed_iff sortRegions fun r h => (sizes r h).1]
  constructor
  · rintro ⟨loaded, found, _⟩
    exact ParsedLog.distinct_of_read shown metaWritten small kept fits sizes found
  · rintro ⟨names, digests, hashed⟩
    obtain ⟨loaded, found, ownRegions, ownSyms⟩ := @ParsedLog.read_of_distinct _ _ _ sortRegions
      sortSyms after' _ _ _ _ _ shown metaWritten small kept fits names digests
      (fun r h => (sizes r h).2) hashed
    refine ⟨loaded, found, ?_⟩
    rw [ownRegions, ownSyms]
    exact ⟨(sortRegions.2 _).1, (sortRegions.2 _).2, (sortSyms.2 _).1, (sortSyms.2 _).2⟩

/-- A JIT region of one page of zero bytes, as `reset` names it. -/
def zeroJitRegion (base : Uint64) (path : String) : ImageInfo where
  base := base
  size := 0x1000
  slide := 0
  path := ascii path
  uuid := .replicate 16 0
  bytes := .replicate 0x1000 0
  digest := #v[0xad, 0x7f, 0xac, 0xb2, 0x58, 0x6f, 0xc6, 0xe9, 0x66, 0xc0, 0x04, 0xd7, 0xd1, 0xd1,
    0x6b, 0x02, 0x4f, 0x58, 0x05, 0xff, 0x7c, 0xb4, 0x7c, 0x7a, 0x85, 0xda, 0xbd, 0x8b, 0x48, 0x89,
    0x2c, 0xa7]
  isJit := true

/-- Two JIT regions that differ in their last byte. -/
def jitRegions : List ImageInfo :=
  [zeroJitRegion 0x100000000 "/tmp/jit-region-0-tag-ff",
    { zeroJitRegion 0x180000000 "/tmp/jit-region-1-tag-ff" with
      bytes := .replicate 0xfff 0 ++ [1]
      digest := #v[0x6c, 0x5d, 0xe1, 0x34, 0xc7, 0x3c, 0x3d, 0xfd, 0x32, 0xc3, 0x5c, 0xa9, 0x0a,
        0xcc, 0x9a, 0xb4, 0xe4, 0x80, 0x8a, 0x3a, 0xf7, 0xdb, 0x0f, 0x82, 0x63, 0x70, 0x50, 0xb8,
        0xc4, 0x51, 0x02, 0x55] }]

def stableBaseSort {α : Type} (base : α → Uint64) : BaseSort α base :=
  ⟨fun l => l.insertionSort fun a b => base a ≤ base b, fun l => by
    have total : Std.Total fun a b : α => base a ≤ base b := ⟨fun a b => BitVec.le_total _ _⟩
    have trans : IsTrans α fun a b => base a ≤ base b := ⟨fun a b c => BitVec.le_trans⟩
    exact ⟨List.perm_insertionSort _ _, List.pairwise_insertionSort _ _⟩⟩

/-- A compressor that stores. -/
def storingZstd : Zstd where
  compress _ pieces := pieces.flatten
  decompress bytes _ := some bytes
  roundTrip _ _ := rfl

def jitSymbol : SymInfo where
  base := 0x100000000
  size := 4
  name := ascii "stub"
  path := ascii "/tmp/jit-region-0-tag-ff"

/-- Closed intervals with a common point. -/
def overlapAny : OverlapFind := fun intervals i => intervals.any fun j => j.1 ≤ i.2 && i.1 ≤ j.2

/-- Two JIT regions and a symbol: both sides hold. -/
theorem saved_read_iff_jit :
    let log : TraceLog := { mCompressionLevel := 3, mStream := true }
    ∃ dir, log.write storingZstd (fun _ => 0) overlapAny (stableBaseSort _) jitRegions
      (some { mSyms := [jitSymbol] }) [] = some dir ∧
    ((∃ loaded, ParsedLog.read storingZstd (jevhash32 0x85EBCA77) stableBucketSort
        (stableBaseSort _) (stableBaseSort _) (fun _ => 0) dir = some loaded ∧
      loaded.mMachoRegions.mRegions.Perm jitRegions ∧
      loaded.mMachoRegions.mRegions.Pairwise (fun a b => a.base ≤ b.base) ∧
      loaded.mSymbols.mSyms.Perm [jitSymbol] ∧
      loaded.mSymbols.mSyms.Pairwise fun a b => a.base ≤ b.base) ↔
    (jitRegions.map fun r => cStr r.logPath).Nodup ∧ (jitRegions.map (·.digest)).Nodup ∧
      Hashed (jevhash32 0x85EBCA77) stableBucketSort.1 jitRegions) ∧
    (jitRegions.map fun r => cStr r.logPath).Nodup ∧ (jitRegions.map (·.digest)).Nodup ∧
      Hashed (jevhash32 0x85EBCA77) stableBucketSort.1 jitRegions := by
  intro log
  have sizes : ∀ r ∈ jitRegions, r.size ≠ 0 ∧ r.bytes.length = r.size.toNat := by
    intro r member
    rcases List.mem_pair.mp member with rfl | rfl
    · exact ⟨by decide, List.length_replicate⟩
    · exact ⟨by decide, by rw [List.length_append, List.length_replicate]; rfl⟩
  have small : (jitRegions.flatMap ImageInfo.record ++ [jitSymbol].flatMap SymInfo.record).length <
      2 ^ 64 := by
    simp only [jitRegions, List.flatMap_cons, List.flatMap_nil, ImageInfo.record, SymInfo.record,
      List.length_append, LogRegion.length_bytes, LogSym.length_bytes, List.length_nil]
    decide
  have selected : log.savedSyms (fun _ => 0) overlapAny (stableBaseSort _) jitRegions
      (some { mSyms := [jitSymbol] }) = some [jitSymbol] := rfl
  obtain ⟨dir, written⟩ := TraceLog.write_some storingZstd rfl (fun _ => 0) overlapAny
    (stableBaseSort _) selected (by decide) (by decide)
  refine ⟨dir, written, saved_read_iff storingZstd (jevhash32 0x85EBCA77) stableBucketSort
    (stableBaseSort _) (stableBaseSort _) overlapAny (fun _ => 0) (fun _ => 0)
    (fun _ member => absurd member List.not_mem_nil)
    (fun _ member => absurd member List.not_mem_nil) sizes selected small written (.refl _), ?_⟩
  exact ⟨by decide, by decide, .holding jitRegions, .refl _, by decide,
    MachORegions.hashed_holding (by decide +kernel)⟩

/-- Two JIT regions of equal bytes, which `create_hash` takes and which have different names: the
second finds no bytes in the map. -/
theorem saved_unreadable_jits :
    let log : TraceLog := { mCompressionLevel := 3, mStream := true }
    let regions := [zeroJitRegion 0x100000000 "/tmp/jit-region-0-tag-ff",
      zeroJitRegion 0x180000000 "/tmp/jit-region-1-tag-ff"]
    (∀ r ∈ regions, r.size ≠ 0 ∧ r.bytes.length = r.size.toNat ∧ r.path ≠ []) ∧
    (regions.map fun r => cStr r.logPath).Nodup ∧
    Hashed (jevhash32 0x85EBCA77) stableBucketSort.1 regions ∧
    ∃ dir, log.write storingZstd (fun _ => 0) overlapAny (stableBaseSort _) regions none [] =
        some dir ∧
      ParsedLog.read storingZstd (jevhash32 0x85EBCA77) stableBucketSort (stableBaseSort _)
        (stableBaseSort _) (fun _ => 0) dir = none := by
  intro log regions
  have sizes : ∀ r ∈ regions, r.size ≠ 0 ∧ r.bytes.length = r.size.toNat ∧ r.path ≠ [] := by
    intro r member
    rcases List.mem_pair.mp member with rfl | rfl <;>
      exact ⟨by decide, List.length_replicate, by decide⟩
  have selected : log.savedSyms (fun _ => 0) overlapAny (stableBaseSort _) regions none =
      some [] := rfl
  obtain ⟨dir, written⟩ := TraceLog.write_some storingZstd rfl (fun _ => 0) overlapAny
    (stableBaseSort _) selected (fun r h => (sizes r h).2.2) (by decide)
  have hashed := @MachORegions.hashed_holding regions (by decide +kernel)
  refine ⟨sizes, by decide, ⟨.holding regions, .refl _, by decide, hashed⟩, dir, written,
    Option.eq_none_iff_forall_ne_some.mpr fun loaded found => ?_⟩
  obtain ⟨syms, metaFh, threadEntries, same, metaWritten, threads, shown⟩ :=
    TraceLog.write_empty storingZstd written
  cases selected.symm.trans same
  have small : metaFh.written.length < 2 ^ 64 := by
    rw [(TraceLog.metaFile_spec metaWritten).2.2.2]
    simp only [regions, List.flatMap_cons, List.flatMap_nil, ImageInfo.record, List.length_append,
      LogRegion.length_bytes, List.length_nil]
    decide
  obtain ⟨_, digests, _⟩ := ParsedLog.distinct_of_read (listed_of_perm threads (.of_eq shown))
    metaWritten small (fun _ member => absurd member List.not_mem_nil)
    (fun _ member => absurd member List.not_mem_nil)
    (fun r h => ⟨(sizes r h).1, (sizes r h).2.1⟩) found
  exact absurd digests (by decide)

end XnuTrace
