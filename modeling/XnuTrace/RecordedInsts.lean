import XnuTrace.RegionsReset
import XnuTrace.SavedThreads

/-! What a trace tells of the target when it is read back: the instructions at its program counters
are those that the target had when its regions were reset. -/
namespace XnuTrace
open Memory FallibleMap MinimalPerfectHash

section
variable {zstd : Zstd} {hash : Hasher} {sortBuckets : BucketSort 64}
  {sortRegions : BaseSort ImageInfo ImageInfo.base} {sortSyms : BaseSort SymInfo SymInfo.base}
  {after : Nat → Uint8} {log : TraceLog} {regions : List ImageInfo} {syms : List SymInfo}
  {metaFh : CompressedFile} {entries : Directory} {loaded : ParsedLog}

/-- Reading gets through only to the regions that were written. -/
theorem ParsedLog.regions_of_read (listed : Listed zstd log regions metaFh entries)
    (metaWritten : TraceLog.metaFile regions syms = some metaFh)
    (small : metaFh.written.length < 2 ^ 64)
    (sizes : ∀ r ∈ regions, r.size ≠ 0 ∧ r.bytes.length = r.size.toNat)
    (found : read zstd hash sortBuckets sortRegions sortSyms after entries = some loaded) :
    loaded.mMachoRegions.mRegions = sortRegions.1 regions ∧
      MachORegions.rehash hash sortBuckets.1 .empty loaded.mMachoRegions.mRegions =
        .ok loaded.mMachoRegions.mPa2buf := by
  obtain ⟨_, _, _, body⟩ := TraceLog.metaFile_spec metaWritten
  have few := length_regions_lt metaWritten small
  obtain ⟨⟨metaBuf, numRegions, numSyms⟩, header, found⟩ := Option.bind_eq_some_iff.mp found
  obtain ⟨regionsBytes, files, found⟩ := Option.bind_eq_some_iff.mp found
  obtain ⟨mMachoRegions, built, found⟩ := Option.bind_eq_some_iff.mp found
  obtain ⟨parsedLogs, -, last⟩ := Option.bind_eq_some_iff.mp found
  cases last
  rw [readMeta_eq zstd metaWritten small (Assoc.get_eq listed.nodup listed.metaEntry)] at header
  split at header
  · cases header
  cases header
  have whole := holds_ofList metaFh.written after
  rw [body, holds_append, Nat.zero_add] at whole
  have count : (BitVec.ofNat 64 regions.length).toNat = regions.length := by
    rw [BitVec.toNat_ofNat, Nat.mod_eq_of_lt few]
  rw [body, List.length_append] at small
  rw [count, body, MachORegions.ofBuf_eq hash sortBuckets.1 sortRegions regionsBytes whole.1
    (by omega)] at built
  obtain ⟨restored, loop, built⟩ := Option.bind_eq_some_iff.mp built
  -- no two regions have one file or one digest
  obtain ⟨digests, -⟩ := nodup_of_restore (fun r h => (sizes r h).1) loop
  obtain ⟨regionsBytes', files', stored⟩ :=
    listed.readRegionsBytes_eq (listed.nodup_names few files) fun r h => by
      rw [(sizes r h).2]
      exact r.size.isLt
  cases files.symm.trans files'
  rw [restore_eq digests (fun r h => (sizes r h).2) (stored digests)] at loop
  cases loop
  cases hashed : createHash hash sortBuckets.1 (sortRegions.1 regions) with
  | error e =>
    rw [hashed] at built
    cases built
  | ok mPa2buf =>
    rw [hashed] at built
    cases built
    exact ⟨rfl, createHash_eq_rehash hash sortBuckets.1 _ ▸ hashed⟩

end

/-- At each program counter of the threads, what is read back finds the word that the target had
there. -/
def InstsRead (hash : Hasher) (target : Uint64 → Option Uint8)
    (calls : List (Uint32 × LogArm64CpuContext)) (loaded : ParsedLog) : Prop :=
  ∀ thread buf, (thread, buf) ∈ loaded.mParsedLogs → ∀ after fuel, buf.mBuf.length < fuel →
    ∃ pc pcs instrs, buf.extractPcsFromTrace after fuel = some (pc :: pcs) ∧
      pcs = (contextsOf calls thread).map (·.pc) ∧
      (pc :: pcs).mapM (loaded.mMachoRegions.lookupInst hash) = some instrs ∧
      List.Forall₂ (fun pc instr => readTarget target pc 4 = some (wordBytes 4 instr))
        (pc :: pcs) instrs

theorem ThreadsRead.insts {hash : Hasher} {target : Uint64 → Option Uint8}
    {calls : List (Uint32 × LogArm64CpuContext)} {loaded : ParsedLog}
    (threads : ThreadsRead calls loaded)
    (found : ∀ call ∈ calls, ∃ instr, loaded.mMachoRegions.lookupInst hash call.2.pc = some instr ∧
      readTarget target call.2.pc 4 = some (wordBytes 4 instr)) :
    InstsRead hash target calls loaded := by
  intro thread buf member after fuel enough
  obtain ⟨c, cs, logged, -, replays⟩ := threads.each thread buf member
  have own : ∀ ctx ∈ c :: cs, (thread, ctx) ∈ calls := by
    intro ctx here
    rw [← logged, contextsOf] at here
    obtain ⟨⟨other, ctx⟩, kept, rfl⟩ := List.mem_map.mp here
    obtain ⟨inCalls, same⟩ := List.mem_filter.mp kept
    obtain rfl : other = thread := of_decide_eq_true same
    exact inCalls
  have each : ∀ pc ∈ c.pc :: (c :: cs).map (·.pc), ∃ instr,
      loaded.mMachoRegions.lookupInst hash pc = some instr ∧
      readTarget target pc 4 = some (wordBytes 4 instr) := by
    intro pc here
    rcases List.mem_cons.mp here with rfl | later
    · exact found (thread, c) (own c List.mem_cons_self)
    · obtain ⟨ctx, logged, rfl⟩ := List.mem_map.mp later
      exact found (thread, ctx) (own ctx logged)
  obtain ⟨instrs, looked, words⟩ := exists_mapM each
  exact ⟨c.pc, _, instrs, (replays after fuel enough).1, by rw [logged], looked, words⟩

/-- From the reset of the regions over the log, the files and the constructor that reads them: at
the program counters of its threads a trace has the instructions of the target. -/
theorem recorded_insts_read {hash₀ : Hasher}
    {sortBuckets₀ : List (Bucket 64) → List (Bucket 64)}
    {sortRegions₀ : BaseSort ImageInfo ImageInfo.base} {getSha256 : List Uint8 → Sha256}
    {resetFuel : Nat} {task : TargetTask} {m m' : MachORegions}
    (reset : m.reset hash₀ sortBuckets₀ sortRegions₀ getSha256 resetFuel task = some m')
    (aligned : ∀ infos, getDyldImageInfos task.memory task.after resetFuel sortRegions₀
      task.dyldInfo = some infos → task.Aligned infos)
    (few : pageCount m'.mRegions < 2 ^ 31) (sizes : ∀ r ∈ m'.mRegions, r.size ≠ 0)
    {zstd : Zstd} {hash : Hasher} {sortThreads : BucketSort 32} {level : Int}
    {calls : List (Uint32 × LogArm64CpuContext)}
    (fit : ∀ thread, (contextsOf calls thread).IsChain WithinLimits)
    (inside : ∀ call ∈ calls, 4 ∣ call.2.pc.toNat ∧ ∃ r ∈ m'.mRegions, r.Covers call.2.pc)
    (behaves : ∀ mStream,
      TraceLog.MapBehaves hash sortThreads { mCompressionLevel := level, mStream } calls)
    {mStream : Bool} {log : TraceLog}
    (ran : TraceLog.runAll hash sortThreads { mCompressionLevel := level, mStream } calls = .ok log)
    (fits : log.LogsFit) {after : Nat → Uint8} {overlapFind : OverlapFind}
    {sortSyms : BaseSort SymInfo SymInfo.base} {symbols : Option Symbols} {syms : List SymInfo}
    (selected : log.savedSyms after overlapFind sortSyms m'.mRegions symbols = some syms)
    (small : (m'.mRegions.flatMap ImageInfo.record ++ syms.flatMap SymInfo.record).length < 2 ^ 64)
    {out entries : Directory}
    (written : log.write zstd after overlapFind sortSyms m'.mRegions symbols [] = some out)
    (listed : entries.Perm out) {hash' : Hasher} {sortBuckets : BucketSort 64}
    {sortRegions : BaseSort ImageInfo ImageInfo.base} {after' : Nat → Uint8} {loaded : ParsedLog}
    (read : ParsedLog.read zstd hash' sortBuckets sortRegions sortSyms after' entries =
      some loaded) : InstsRead hash' task.memory calls loaded := by
  obtain ⟨infos, got, was, -⟩ := MachORegions.resetTo_of_reset reset
  have paged := was.paged (aligned infos got)
  -- what was written is what is loaded
  obtain ⟨_, metaFh, threadEntries, selected', metaWritten, threads, rfl⟩ :=
    TraceLog.write_empty zstd written
  cases selected.symm.trans selected'
  rw [← (TraceLog.metaFile_spec metaWritten).2.2.2] at small
  obtain ⟨regions, hashed⟩ := ParsedLog.regions_of_read (listed_of_perm threads listed) metaWritten
    small (fun r member => ⟨sizes r member, (paged r member).held⟩) read
  have perm : loaded.mMachoRegions.mRegions.Perm m'.mRegions := by
    rw [regions]
    exact (sortRegions.2 _).1
  have count : pageCount loaded.mMachoRegions.mRegions = pageCount m'.mRegions :=
    (perm.map _).sum_eq
  obtain ⟨t, recording⟩ := recording_of_run zstd fit behaves ran
  have noFiles : (Assoc.keys ([] : Directory)).Nodup := List.nodup_nil
  refine (recording.threadsRead fits noFiles written listed read).insts fun call member => ?_
  obtain ⟨word, r, own, covers⟩ := inside call member
  exact MachORegions.lookupInst_held sortBuckets.2 hashed
    (fun r member => paged r (perm.mem_iff.mp member))
    (fun r member => (was.held r (perm.mem_iff.mp member)).held) (count ▸ few) word
    ⟨r, perm.mem_iff.mpr own, covers⟩

/-- The target of two images and a JIT region, but the last byte of each page tells the page. -/
def pagesTask : TargetTask :=
  { dyldTask with memory := fun a =>
      if a.toNat % 0x1000 = 0xfff then some (BitVec.ofNat 8 (a.toNat / 0x1000)) else dyldTarget a }

def pagesReset : Option MachORegions :=
  MachORegions.reset (jevhash32 0x85EBCA77) stableSort (stableBaseSort _)
    (fun bytes => .replicate 32 (bytes.getLastD 0)) 2 pagesTask
    { mRegions := [], mPa2buf := .empty }

/-- Where the regions are, and what tells them apart. -/
def pagesFacts (m : MachORegions) : Bool :=
  decide ((m.mRegions.map fun r => (r.base, r.size)) =
      [(0x1000, 0x1000), (0x2000, 0x1000), (0x3000, 0x1000)] ∧ pageCount m.mRegions = 3 ∧
    (m.mRegions.flatMap ImageInfo.record).length = 292 ∧
    (m.mRegions.map fun r => cStr r.logPath).Nodup ∧ (m.mRegions.map (·.digest)).Nodup ∧
    ∀ r ∈ m.mRegions, r.path ≠ []) &&
  match createHash (jevhash32 0x85EBCA77) stableBucketSort.1
    ((stableBaseSort ImageInfo.base).1 m.mRegions) with
  | .ok _ => true
  | .error _ => false

theorem pagesReset_facts : pagesReset.map pagesFacts = some true := by
  decide +kernel

theorem pagesTask_aligned {infos : List ImageInfo} (got : getDyldImageInfos pagesTask.memory
    pagesTask.after 2 (stableBaseSort _) pagesTask.dyldInfo = some infos) :
    pagesTask.Aligned infos := by
  have places : (getDyldImageInfos pagesTask.memory pagesTask.after 2 (stableBaseSort _)
      pagesTask.dyldInfo).map (fun infos => infos.map fun i => (i.base, i.size)) =
        some [(0x1000, 0x800), (0x2000, 0x800)] := by
    decide +kernel
  rw [got, Option.map_some] at places
  exact @aligned_of_places pagesTask rfl infos (Option.some.inj places)

/-- A context in the second image. -/
def pagesCalls : List (Uint32 × LogArm64CpuContext) :=
  [{ LogArm64CpuContext.zero with pc := 0x2004 }].map fun c => (1, c)

def pagesLog : Except LogFailure TraceLog :=
  TraceLog.runAll (jevhash32 0x85EBCA77) stableBucketSort
    { mCompressionLevel := 3, mStream := true } pagesCalls

/-- The stream is as `log` leaves it. -/
def pagesStream (logStream : CompressedFile) : Bool :=
  decide (logStream.hdrMagic = logThreadHdrMagic ∧ logStream.mHdrBuf.length = 16 ∧
    logStream.written ≠ [] ∧ logStream.written.length < 2 ^ 64)

def pagesLogged : Bool :=
  match pagesLog with
  | .ok log => log.mStream &&
    log.mThreadCtxs.mKeyVals.all fun kv => decide (kv.2.logBuf.length < 2 ^ 64) &&
      kv.2.logStream.isSome && kv.2.logStream.all pagesStream
  | .error _ => false

theorem pagesLog_ok : ∃ log, pagesLog = .ok log ∧ log.mStream = true ∧ log.StreamsKept ∧
    log.LogsFit ∧ ∀ kv ∈ log.mThreadCtxs.mKeyVals, (log.threadFile kv.1 kv.2).isSome := by
  have facts : pagesLogged = true := by decide +kernel
  rw [pagesLogged] at facts
  cases ran : pagesLog with
  | error e =>
    rw [ran] at facts
    cases facts
  | ok log =>
    simp only [ran, Bool.and_eq_true, List.all_eq_true, decide_eq_true_eq] at facts
    obtain ⟨stream, each⟩ := facts
    have written : ∀ kv ∈ log.mThreadCtxs.mKeyVals, ∀ logStream,
        kv.2.logStream = some logStream → pagesStream logStream = true := by
      intro kv member logStream is
      have own := (each kv member).2
      rwa [is] at own
    simp only [pagesStream, decide_eq_true_eq] at written
    refine ⟨log, rfl, stream, fun kv member logStream is => ?_, fun kv member => ?_,
      fun kv member => ?_⟩
    · obtain ⟨magic, length, nonempty, -⟩ := written kv member logStream is
      exact ⟨magic, length, nonempty⟩
    · exact ⟨(each kv member).1.1, fun logStream is => (written kv member logStream is).2.2.2⟩
    · rw [TraceLog.threadFile, if_pos stream, Option.isSome_map]
      exact (each kv member).1.2

theorem recorded_insts_read_pages : ∃ m log out loaded, pagesReset = some m ∧ pagesLog = .ok log ∧
    log.write storingZstd (fun _ => 0) overlapAny (stableBaseSort _) m.mRegions none [] = some out ∧
    readDir out = some loaded ∧
    InstsRead (jevhash32 0x85EBCA77) pagesTask.memory pagesCalls loaded := by
  obtain ⟨m, reset, facts⟩ := Option.map_eq_some_iff.mp pagesReset_facts
  rw [pagesFacts, Bool.and_eq_true, decide_eq_true_eq] at facts
  obtain ⟨⟨places, pages, length, names, digests, paths⟩, hashed⟩ := facts
  obtain ⟨log, ran, stream, kept, fits, files⟩ := pagesLog_ok
  -- the files
  have selected : log.savedSyms (fun _ => 0) overlapAny (stableBaseSort _) m.mRegions none =
      some [] := by
    rw [TraceLog.savedSyms, TraceLog.pcIntervals, if_pos stream]
    rfl
  obtain ⟨metaFh, metaWritten⟩ := @TraceLog.metaFile_some m.mRegions [] paths
    fun _ member => absurd member List.not_mem_nil
  obtain ⟨threadFiles, threads⟩ : ∃ threadFiles, (log.mThreadCtxs.mKeyVals.mapM fun kv =>
      (log.threadFile kv.1 kv.2).map fun fh => (threadName kv.1, fh.close storingZstd)) =
        some threadFiles := by
    rw [← Option.isSome_iff_exists, mapM_isSome_iff]
    exact fun kv member => Option.isSome_map.trans (files kv member)
  have tested := TraceLog.reusedMachoRegions_empty m.mRegions
    fun _ (member : _ ∈ ([] : Directory)) => absurd member List.not_mem_nil
  have written := (@TraceLog.write_eq_some storingZstd _ _ _ (stableBaseSort _) _ _ _ _).mpr
    ⟨[], metaFh, [], threadFiles, selected, metaWritten, tested, threads, rfl⟩
  obtain ⟨syms, metaFh', threadEntries, selected', metaWritten', entries, out⟩ :=
    TraceLog.write_empty storingZstd written
  cases selected.symm.trans selected'
  cases metaWritten.symm.trans metaWritten'
  have small : (m.mRegions.flatMap ImageInfo.record ++
      ([] : List SymInfo).flatMap SymInfo.record).length < 2 ^ 64 := by
    rw [List.flatMap_nil, List.append_nil, length]
    decide
  have body := (TraceLog.metaFile_spec metaWritten).2.2.2
  -- what is read
  obtain ⟨infos, got, was, -⟩ := MachORegions.resetTo_of_reset reset
  have paged := was.paged (pagesTask_aligned got)
  have hashed : ∃ mPa2buf, createHash (jevhash32 0x85EBCA77) stableBucketSort.1
      ((stableBaseSort ImageInfo.base).1 m.mRegions) = .ok mPa2buf := by
    cases created : createHash (jevhash32 0x85EBCA77) stableBucketSort.1
        ((stableBaseSort ImageInfo.base).1 m.mRegions) with
    | ok mPa2buf => exact ⟨mPa2buf, rfl⟩
    | error e =>
      rw [created] at hashed
      cases hashed
  obtain ⟨loaded, read, -⟩ := @ParsedLog.read_of_distinct storingZstd _ _ (stableBaseSort _)
    (stableBaseSort _) (fun _ => 0) _ _ _ _ _ (listed_of_perm entries (.of_eq out)) metaWritten
    (body ▸ small) kept fits names digests (fun r member => (paged r member).held) hashed
  refine ⟨m, log, _, loaded, reset, ran, written, read, ?_⟩
  have sizes : ∀ r ∈ m.mRegions, r.size = 0x1000 := by
    intro r member
    have place := places ▸ List.mem_map_of_mem (f := fun r : ImageInfo => (r.base, r.size)) member
    simp only [List.mem_cons, List.not_mem_nil, or_false, Prod.mk.injEq] at place
    exact place.elim And.right fun rest => rest.elim And.right And.right
  obtain ⟨r, own, same⟩ := List.mem_map.mp (places ▸ .tail _ (.head _) :
    ((0x2000 : Uint64), (0x1000 : Uint64)) ∈ m.mRegions.map fun r => (r.base, r.size))
  obtain ⟨base, size⟩ := Prod.mk.inj same
  have fit : ∀ thread, (contextsOf pagesCalls thread).IsChain WithinLimits := by
    refine chains_iff.mpr fun thread caller => ?_
    obtain rfl := List.mem_singleton.mp caller
    exact .singleton _
  refine recorded_insts_read reset (fun _ => pagesTask_aligned) (pages ▸ by decide)
    (fun r member => sizes r member ▸ by decide) fit (fun call member => ?_) (fun mStream => ?_)
    ran fits selected small written (.refl _) read
  · obtain rfl := List.mem_singleton.mp member
    refine ⟨by decide, r, own, ?_⟩
    rw [ImageInfo.Covers, base, size]
    decide
  · cases mStream <;> decide +kernel

end XnuTrace
