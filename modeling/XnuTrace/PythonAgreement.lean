import XnuTrace.PythonReader

/-! The Python reader on the directories that `TraceLog::write` completes: it agrees with
the writer on a trace without regions and without threads, and on no other. -/
namespace XnuTrace
open Memory MphMap FallibleMap

namespace ThreadCtx

/-- A stream has a `log_thread_hdr` of 16 bytes. -/
def HeaderSized (tctx : ThreadCtx) : Prop := ∀ h, tctx.header = some h → h.2.1.length = 16

theorem headerSized_of_none {tctx : ThreadCtx} (memory : tctx.logStream = none) :
    tctx.HeaderSized := by
  intro h stream
  rw [header, memory] at stream
  cases stream

theorem HeaderSized.write {tctx tctx' : ThreadCtx} {call : LogCall} (sized : tctx.HeaderSized)
    (written : tctx.write call = some tctx') : tctx'.HeaderSized := by
  unfold HeaderSized
  rw [write_header written]
  exact sized

end ThreadCtx

namespace TraceLog
variable {hash : Hasher} {sortBuckets : BucketSort 32}

theorem carried_headerSized : Carried ThreadCtx.HeaderSized where
  moved _ _ := ThreadCtx.headerSized_of_none rfl
  empty := ThreadCtx.headerSized_of_none rfl
  opened log thread := by
    intro h stream
    unfold openStream at stream
    split at stream
    · rw [← Option.some.inj stream]
      simp [CompressedFile.create, logThreadHdr]
    · cases stream
  entered _ _ sized := sized

/-- After a call there is a thread, and each stream still has its header. -/
theorem log_forall {log log' : TraceLog} {thread : Uint32} {call : LogCall}
    (all : ForallValues ThreadCtx.HeaderSized log.mThreadCtxs)
    (logged : log.log hash sortBuckets thread call = .ok log') :
    ForallValues ThreadCtx.HeaderSized log'.mThreadCtxs ∧ log'.mThreadCtxs.mKeyVals ≠ [] := by
  obtain ⟨threadCtxs, i, kv, tctx, found, entry, written, now⟩ := exists_of_log logged
  have others := forall_threadCtx carried_headerSized all found
  have own := (others kv (List.mem_of_getElem? entry)).write written
  rw [ForallValues, now]
  constructor
  · exact forall_mem_set (p := fun kv : Uint32 × ThreadCtx => kv.2.HeaderSized) others own
  · intro empty
    have bound := (List.getElem?_eq_some_iff.mp entry).1
    rw [← List.length_set, List.eq_nil_iff_length_eq_zero.mp empty] at bound
    exact Nat.not_lt_zero _ bound

theorem runCalls_forall {log log' : TraceLog} {calls : List (Uint32 × LogCall)}
    (all : ForallValues ThreadCtx.HeaderSized log.mThreadCtxs)
    (ran : log.runCalls hash sortBuckets calls = .ok log') :
    ForallValues ThreadCtx.HeaderSized log'.mThreadCtxs ∧
      (calls ≠ [] → log'.mThreadCtxs.mKeyVals ≠ []) := by
  induction calls using List.reverseRecOn generalizing log' with
  | nil =>
    cases ran
    exact ⟨all, fun some => absurd rfl some⟩
  | append_singleton calls call ih =>
    obtain ⟨log₁, before, last⟩ := exists_of_runCalls_concat ran
    obtain ⟨kept, some⟩ := log_forall (ih before).1 last
    exact ⟨kept, fun _ => some⟩

theorem length_threadFile {log : TraceLog} {tid : Uint32} {tctx : ThreadCtx} {fh : CompressedFile}
    (sized : tctx.HeaderSized) (made : log.threadFile tid tctx = some fh) :
    fh.mHdrBuf.length = 16 := by
  unfold threadFile at made
  split at made
  · obtain ⟨logStream, stream, rfl⟩ := Option.map_eq_some_iff.mp made
    have header : logStream.mHdrBuf.length = 16 :=
      sized _ (by rw [ThreadCtx.header, stream]; rfl)
    simp [header]
  · rw [CompressedFile.eq_of_write made]
    simp [CompressedFile.create, logThreadHdr]

/-- The last thread's file is in the directory, whatever else is. -/
theorem exists_threadFile {zstd : Zstd} {log : TraceLog}
    (all : ForallValues ThreadCtx.HeaderSized log.mThreadCtxs)
    (threads : log.mThreadCtxs.mKeyVals ≠ []) {after : Nat → Uint8} {overlapFind : OverlapFind}
    {sortSyms : BaseSort SymInfo SymInfo.base} {regions : List ImageInfo}
    {symbols : Option Symbols} {dir out : Directory}
    (written : log.write zstd after overlapFind sortSyms regions symbols dir = some out) :
    ∃ (tid : Uint32) (fh : CompressedFile), (threadName tid, fh.close zstd) ∈ out ∧
      fh.mHdrBuf.length = 16 := by
  obtain ⟨_, metaFh, reused, threadFiles, _, _, _, threadsMade, rfl⟩ :=
    (write_eq_some sortSyms).mp written
  obtain ⟨kv, inMap⟩ := List.exists_mem_of_ne_nil _ threads
  obtain ⟨e, made, _⟩ := exists_of_forall₂ (mapM_eq_some_iff.mp threadsMade) inMap
  obtain ⟨first, last, rfl⟩ :=
    (List.eq_nil_or_concat threadFiles).resolve_left (List.ne_nil_of_mem made)
  rw [List.concat_eq_append] at threadsMade
  obtain ⟨kv, inMap, file⟩ := mem_of_mapM threadsMade List.mem_concat_self
  obtain ⟨fh, fileMade, rfl⟩ := Option.map_eq_some_iff.mp file
  refine ⟨kv.1, fh, ?_, length_threadFile (all kv inMap) fileMade⟩
  rw [filed, List.concat_eq_append, ← List.append_assoc, Assoc.putAll_append]
  exact List.mem_append_right _ List.mem_cons_self

/-- A trace of nothing leaves a `meta.bin` and no other file. -/
theorem write_nothing {zstd : Zstd} {log : TraceLog} (noThreads : log.mThreadCtxs.mKeyVals = [])
    {after : Nat → Uint8} {overlapFind : OverlapFind} {sortSyms : BaseSort SymInfo SymInfo.base}
    {symbols : Option Symbols} {dir out : Directory}
    (selected : log.savedSyms after overlapFind sortSyms [] symbols = some [])
    (written : log.write zstd after overlapFind sortSyms [] symbols (initDir dir) = some out) :
    out = [(metaBin, (CompressedFile.create logMetaHdrMagic (logMetaHdr 0 0) 0).close zstd)] := by
  obtain ⟨syms, metaFh, reused, threadFiles, selected', metaWritten, found, threads, rfl⟩ :=
    (write_eq_some sortSyms).mp written
  rw [noThreads] at threads
  cases selected.symm.trans selected'
  cases metaWritten
  cases found
  cases threads
  have gone : (initDir dir).filter
      (fun e => !(isMachoRegion e.1 && !List.contains [] e.1)) = [] := by
    refine List.filter_eq_nil_iff.mpr fun f member => ?_
    have region := (List.mem_filter.mp member).2
    simp [region]
  rw [filed, gone]
  rfl

theorem savedSyms_nothing {log : TraceLog} (noThreads : log.mThreadCtxs.mKeyVals = [])
    {after : Nat → Uint8} {overlapFind : OverlapFind} {sortSyms : BaseSort SymInfo SymInfo.base}
    {symbols : Option Symbols} (nothing : ∀ i, overlapFind [] i = false) :
    log.savedSyms after overlapFind sortSyms [] symbols = some [] := by
  have intervals : log.pcIntervals after [] = some [] := by
    unfold pcIntervals
    split
    · rfl
    · rw [noThreads]
      rfl
  rw [savedSyms, intervals, Option.map_some, Option.some.injEq]
  cases symbols with
  | none => rfl
  | some symbols =>
    have none : symbols.mSyms.filter
        (fun sym => overlapFind [] (sym.base, sym.base + sym.size)) = [] :=
      List.filter_eq_nil_iff.mpr fun sym _ => by rw [nothing]; decide
    dsimp only
    rw [getSymbolsInIntervals, none]
    exact List.perm_nil.mp (sortSyms.2 []).1

end TraceLog

namespace Python

/-- `_parse` gives the regions, the symbols and the program counters of the calls. -/
def ParsesTo (zstd : Zstd) (uninit : Nat → Uint64) (dir : Directory) (regions : List ImageInfo)
    (syms : List SymInfo) (calls : List (Uint32 × LogCall)) : Prop :=
  ∃ parsed, parse zstd uninit dir = some parsed ∧
    parsed.machoRegions = regions.map (fun r =>
      { base := r.base, size := r.size, slide := r.slide, uuid := r.uuid.toList, path := r.path }) ∧
    parsed.syms = syms.map (fun s =>
      { base := s.base, size := s.size, name := s.name, path := s.path }) ∧
    parsed.allPcs.Perm (calls.map fun call => call.2.context.pc)

variable {zstd : Zstd} {hash : Hasher} {sortBuckets : BucketSort 32} {level : Int}
  {mStream : Bool} {calls : List (Uint32 × LogCall)} {log : XnuTrace.TraceLog}

/-- A thread's file has a header of two words where one is expected. -/
theorem parseTrace_threadFile {fh : XnuTrace.CompressedFile} (header : fh.mHdrBuf.length = 16)
    (tid : Uint32) (state) : parseTrace zstd state (threadName tid, fh.close zstd) = none := by
  have other : CompressedFile.init zstd (fh.close zstd) logThreadHdrMagic 8 = none :=
    init_close (by omega) 8 (by omega) logThreadHdrMagic
  rw [parseTrace, if_neg (threadName_ne_metaBin tid), if_pos (isPrefixOf_threadName tid), other]
  rfl

theorem parse_nothing (uninit : Nat → Uint64) :
    parse zstd uninit [(metaBin,
      (XnuTrace.CompressedFile.create logMetaHdrMagic (logMetaHdr 0 0) 0).close zstd)] =
      some { machoRegions := [], syms := [], allPcs := [] } := by
  have opened := @init_close_plain zstd (.create logMetaHdrMagic (logMetaHdr 0 0) 0)
    (by decide) rfl (by decide)
  have found : ∀ file : List Uint8, Assoc.get [(metaBin, file)] metaBin = some file :=
    fun file => by simp [Assoc.get]
  rw [parse, found, Option.bind_eq_bind, Option.bind_some]
  exact (congrArg (Option.bind · _) opened).trans rfl

theorem regions_eq_nil {uninit : Nat → Uint64} {dir : Directory} {regions : List ImageInfo}
    {syms : List SymInfo} (agrees : ParsesTo zstd uninit dir regions syms calls) : regions = [] := by
  obtain ⟨parsed, done, same, _⟩ := agrees
  rcases regions with _ | ⟨r, regions⟩
  · rfl
  rw [List.map_cons] at same
  have size := length_uuid_of_parse done _ (same ▸ List.mem_cons_self)
  rw [Vector.length_toList] at size
  omega

/-- `_parse` agrees with the writer exactly on the traces of nothing. -/
theorem parsesTo_iff (uninit : Nat → Uint64)
    (ran : XnuTrace.TraceLog.runCalls hash sortBuckets { mCompressionLevel := level, mStream }
      calls = .ok log)
    {after : Nat → Uint8} {overlapFind : OverlapFind} (nothing : ∀ i, overlapFind [] i = false)
    {sortSyms : BaseSort SymInfo SymInfo.base} {regions : List ImageInfo}
    {symbols : Option Symbols} {syms : List SymInfo} {dir out entries : Directory}
    (selected : log.savedSyms after overlapFind sortSyms regions symbols = some syms)
    (written : log.write zstd after overlapFind sortSyms regions symbols
      (XnuTrace.TraceLog.initDir dir) = some out) (listed : entries.Perm out) :
    ParsesTo zstd uninit entries regions syms calls ↔ regions = [] ∧ calls = [] := by
  have start : ForallValues ThreadCtx.HeaderSized ({} : MphMap 32 ThreadCtx) :=
    fun _ member => absurd member List.not_mem_nil
  obtain ⟨sized, threads⟩ := XnuTrace.TraceLog.runCalls_forall start ran
  constructor
  · intro agrees
    refine ⟨regions_eq_nil agrees, ?_⟩
    by_contra some
    obtain ⟨tid, fh, inOut, header⟩ :=
      XnuTrace.TraceLog.exists_threadFile sized (threads some) written
    obtain ⟨parsed, done, _⟩ := agrees
    rw [parse_eq_none (listed.mem_iff.mpr inOut) (parseTrace_threadFile header tid)] at done
    cases done
  · rintro ⟨rfl, rfl⟩
    cases ran
    have none := @XnuTrace.TraceLog.savedSyms_nothing { mCompressionLevel := level, mStream } rfl
      after overlapFind sortSyms symbols nothing
    cases selected.symm.trans none
    rw [XnuTrace.TraceLog.write_nothing rfl none written, List.perm_singleton] at listed
    rw [listed]
    exact ⟨_, parse_nothing uninit, rfl, rfl, .refl _⟩

theorem parsesTo_iff_empty :
    let log : XnuTrace.TraceLog := { mCompressionLevel := 3, mStream := false }
    ∃ out, log.write storingZstd (fun _ => 0) overlapAny (stableBaseSort _) []
        (some { mSyms := [jitSymbol] }) (XnuTrace.TraceLog.initDir []) = some out ∧
      (ParsesTo storingZstd (fun _ => 0) out [] [] [] ↔
        ([] : List ImageInfo) = [] ∧ ([] : List (Uint32 × LogCall)) = []) := by
  intro log
  have selected : log.savedSyms (fun _ => 0) overlapAny (stableBaseSort _) []
      (some { mSyms := [jitSymbol] }) = some [] := rfl
  obtain ⟨out, written⟩ := XnuTrace.TraceLog.write_some storingZstd rfl (fun _ => 0) overlapAny
    (stableBaseSort _) selected (fun _ member => absurd member List.not_mem_nil)
    fun _ member => absurd member List.not_mem_nil
  exact ⟨out, written, @parsesTo_iff storingZstd (jevhash32 0x85EBCA77) stableBucketSort 3 false []
    log (fun _ => 0) rfl _ _ (fun _ => rfl) _ _ _ _ [] _ _ selected written (.refl _)⟩

/-- One JIT region: `write` completes, and the reader makes another `uuid` of its record or
fails on its file. -/
theorem parse_disagrees_jit :
    let log : XnuTrace.TraceLog := { mCompressionLevel := 3, mStream := false }
    let regions := [zeroJitRegion 0x100000000 "/tmp/jit-region-0-tag-ff"]
    XnuTrace.TraceLog.runCalls (jevhash32 0x85EBCA77) stableBucketSort
        { mCompressionLevel := 3, mStream := false } [] = .ok log ∧
      Hashed (jevhash32 0x85EBCA77) stableBucketSort.1 regions ∧
      ∃ out, log.write storingZstd (fun _ => 0) overlapAny (stableBaseSort _) regions none
          (XnuTrace.TraceLog.initDir []) = some out ∧
        ¬ ParsesTo storingZstd (fun _ => 0) out regions [] [] := by
  intro log regions
  have paths : ∀ r ∈ regions, r.path ≠ [] := by decide
  have selected : log.savedSyms (fun _ => 0) overlapAny (stableBaseSort _) regions none =
      some [] := rfl
  obtain ⟨out, written⟩ := XnuTrace.TraceLog.write_some storingZstd rfl (fun _ => 0) overlapAny
    (stableBaseSort _) selected paths fun _ member => absurd member List.not_mem_nil
  have hashed := @MachORegions.hashed_holding regions (by decide +kernel)
  refine ⟨rfl, ⟨.holding regions, .refl _, by decide, hashed⟩, out, written, fun agrees => ?_⟩
  exact absurd (regions_eq_nil agrees) (List.cons_ne_nil _ _)

end Python

end XnuTrace
