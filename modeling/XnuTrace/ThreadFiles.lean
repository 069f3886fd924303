import XnuTrace.Modes

/-! The files of the threads in the directory that `TraceLog::write` leaves, and what
their headers and bodies decode to, buffered and streamed. -/
namespace XnuTrace
open Memory MphMap FallibleMap

/-! Names. -/

theorem threadName_injective : Function.Injective threadName := fun _ _ same =>
  BitVec.eq_of_toNat_eq
    (decimal_injective (List.append_cancel_left (List.append_cancel_right same)))

/-! Decoding. -/

/-- `header()` and `read()` of a thread's file. -/
def decodeThread (zstd : Zstd) (file : List Uint8) : Option (Uint64 × Uint64 × List Uint8) := do
  let threadFh ← CompressedFileReader.open logThreadHdrMagic 16 file
  let threadBuf ← threadFh.read zstd
  return (frontWord 64 8 threadFh.mHdrBuf, secondWord threadFh.mHdrBuf, threadBuf)

theorem decodeThread_close (zstd : Zstd) {fh : CompressedFile} {threadId numInst : Uint64}
    (magic : fh.hdrMagic = logThreadHdrMagic) (hdr : fh.mHdrBuf = logThreadHdr threadId numInst)
    (small : fh.written.length < 2 ^ 64) (nonempty : fh.written ≠ []) :
    decodeThread zstd (fh.close zstd) = some (threadId, numInst, fh.written) := by
  have length : fh.mHdrBuf.length = 16 := by
    rw [hdr, logThreadHdr, List.length_append, length_wordBytes, length_wordBytes]
  have opened := fh.open_close zstd (List.ne_nil_of_length_pos (by omega)) (by omega)
  rw [magic, length] at opened
  have body := CompressedFile.read_reader zstd small
  rw [if_neg fun h => nonempty h.2] at body
  obtain ⟨first, second⟩ := twoWords threadId numInst
  have header : (fh.reader zstd).mHdrBuf = wordBytes 8 threadId ++ wordBytes 8 numInst := hdr
  rw [decodeThread, opened, Option.bind_eq_bind, Option.bind_some, body, header, first, second]
  rfl

theorem Agrees.recorded_ne_nil {level : Int} {thread : Uint32} {c : LogArm64CpuContext}
    {cs : List LogArm64CpuContext} {buffered streamed : ThreadCtx}
    (agrees : Agrees level thread c (c :: cs) buffered streamed) : buffered.recorded ≠ [] := by
  obtain ⟨frames, journal, bytes⟩ := agrees.journal
  obtain ⟨rest, rfl, _⟩ := journal.first_ctx
  rw [bytes, List.flatMap_cons]
  exact List.append_ne_nil_of_left_ne_nil
    (List.ne_nil_of_length_pos (Frame.length_bytes_pos _)) _

namespace TraceLog
variable {zstd : Zstd} {hash : Hasher} {level : Int}
  {calls : List (Uint32 × LogArm64CpuContext)} {buffered streamed : TraceLog}
  {tb ts : Table 32 ThreadCtx} {thread : Uint32} {c : LogArm64CpuContext}
  {cs : List LogArm64CpuContext} {b s : ThreadCtx}

/-- Both modes make a file of a thread, with the same header and the same body. -/
theorem Lockstep.threadFile (zstd : Zstd)
    (lockstep : Lockstep hash level calls buffered streamed tb ts)
    (agrees : Agrees level thread c (c :: cs) b s) (small : b.recorded.length < 2 ^ 64) :
    ∃ fb fs, buffered.threadFile thread b = some fb ∧ streamed.threadFile thread s = some fs ∧
      decodeThread zstd (fb.close zstd) =
        some (thread.setWidth 64, BitVec.ofNat 64 (c :: cs).length, b.recorded) ∧
      decodeThread zstd (fs.close zstd) =
        some (thread.setWidth 64, BitVec.ofNat 64 (c :: cs).length, b.recorded) := by
  have nonempty := agrees.recorded_ne_nil
  obtain ⟨frames, journal, _⟩ := agrees.journal
  have count : b.numInst = BitVec.ofNat 64 (c :: cs).length := by
    have counted : b.numInst = (0 : Uint64) + _ := journal.numInst_eq
    rw [counted, List.length_map]
    exact BitVec.zero_add _
  have count' : s.numInst = b.numInst := congrArg Cursor.numInst agrees.cursor
  have memory : b.logStream = none := Option.map_eq_none_iff.mp agrees.memory
  have inBuf : b.recorded = b.logBuf := by rw [ThreadCtx.recorded, memory]
  obtain ⟨f, stream, header⟩ := Option.map_eq_some_iff.mp agrees.stream
  simp only [Prod.mk.injEq] at header
  obtain ⟨magic, hdr, _⟩ := header
  have inStream : f.written = b.recorded := by
    rw [← agrees.recorded, ThreadCtx.recorded, stream]
  let created := CompressedFile.create logThreadHdrMagic
    (logThreadHdr (thread.setWidth 64) b.numInst) level
  let patched := { f with mHdrBuf := f.mHdrBuf.take 8 ++ wordBytes 8 s.numInst }
  refine ⟨{ created with pieces := [b.logBuf] }, patched, ?_, ?_, ?_, ?_⟩
  · rw [TraceLog.threadFile, lockstep.modeB, lockstep.levelB]
    exact CompressedFile.write_of_nonempty _ (inBuf ▸ nonempty)
  · rw [TraceLog.threadFile, lockstep.modeS, stream]
    rfl
  · have whole : List.flatten [b.logBuf] = b.recorded := by rw [List.flatten_singleton, inBuf]
    rw [← count, ← whole]
    exact decodeThread_close zstd rfl rfl (show (List.flatten [b.logBuf]).length < _ by rwa [whole])
      (show List.flatten [b.logBuf] ≠ [] by rwa [whole])
  · rw [← count, ← inStream]
    have header : patched.mHdrBuf = logThreadHdr (thread.setWidth 64) b.numInst := by
      simp only [patched, hdr, logThreadHdr, List.take_left' (length_wordBytes 8 _), count']
    exact @decodeThread_close zstd patched _ _ magic header (by rwa [← inStream] at small)
      (by rwa [← inStream] at nonempty)

/-! The directory. -/

theorem keys_threadFiles {log : TraceLog} {l : List (Uint32 × ThreadCtx)} {files : Directory}
    (made : List.Forall₂ (fun kv e => (log.threadFile kv.1 kv.2).map
      (fun fh => (threadName kv.1, fh.close zstd)) = some e) l files) :
    Assoc.keys files = l.map fun kv => threadName kv.1 := by
  induction made with
  | nil => rfl
  | cons first _ ih =>
    obtain ⟨fh, _, rfl⟩ := Option.map_eq_some_iff.mp first
    rw [Assoc.keys, List.map_cons, List.map_cons]
    exact congrArg _ ih

theorem get_threadFiles {log : TraceLog} {t : Table 32 ThreadCtx}
    (rep : Represents hash log.mThreadCtxs t) {files : Directory}
    (made : List.Forall₂ (fun kv e => (log.threadFile kv.1 kv.2).map
      (fun fh => (threadName kv.1, fh.close zstd)) = some e) log.mThreadCtxs.mKeyVals files)
    (tid : Uint32) : (Assoc.keys files).Nodup ∧ Assoc.get files (threadName tid) =
      (t tid).bind fun tctx => (log.threadFile tid tctx).map fun fh => fh.close zstd := by
  have names := keys_threadFiles made
  have nodup : (Assoc.keys files).Nodup := by
    rw [names, ← Function.comp_def, ← List.map_map]
    exact rep.nodup_keys.map threadName_injective
  refine ⟨nodup, ?_⟩
  cases stored : t tid with
  | none =>
    refine Assoc.get_eq_none fun e member same => ?_
    have inNames : threadName tid ∈ Assoc.keys files := same ▸ List.mem_map_of_mem member
    rw [names] at inNames
    obtain ⟨kv, inMap, equal⟩ := List.mem_map.mp inNames
    have present := (rep.content kv.1 kv.2).mp inMap
    rw [threadName_injective equal, stored] at present
    cases present
  | some tctx =>
    obtain ⟨e, member, file⟩ :=
      exists_of_forall₂ made ((rep.content tid tctx).mpr stored)
    obtain ⟨fh, fileMade, rfl⟩ := Option.map_eq_some_iff.mp file
    rw [Option.bind_some, fileMade]
    exact Assoc.get_eq nodup member

/-- A thread's file is found under its name, whatever was in the directory before. -/
theorem get_threadFile {log : TraceLog} {t : Table 32 ThreadCtx}
    (rep : Represents hash log.mThreadCtxs t) {after : Nat → Uint8} {overlapFind : OverlapFind}
    {sortSyms : BaseSort SymInfo SymInfo.base} {regions : List ImageInfo}
    {symbols : Option Symbols} {dir out : Directory}
    (written : log.write zstd after overlapFind sortSyms regions symbols (initDir dir) = some out)
    (tid : Uint32) : Assoc.get out (threadName tid) =
      (t tid).bind fun tctx => (log.threadFile tid tctx).map fun fh => fh.close zstd := by
  obtain ⟨_, metaFh, reused, threadFiles, _, _, _, threadsMade, rfl⟩ :=
    (write_eq_some sortSyms).mp written
  obtain ⟨nodup, found⟩ := get_threadFiles rep (mapM_eq_some_iff.mp threadsMade) tid
  rw [filed, Assoc.putAll_append, Assoc.get_putAll _ nodup, found]
  refine (congrArg _ (Assoc.get_eq_none fun e member same => ?_)).trans (Option.or_none ..)
  have plain := isMachoRegion_threadName tid
  rcases Assoc.mem_putAll member with old | new
  · rcases Assoc.mem_put old with kept | rfl
    · rw [← same, (List.mem_filter.mp (List.mem_filter.mp kept).1).2] at plain
      cases plain
    · exact threadName_ne_metaBin tid same.symm
  · obtain ⟨region, _, rfl⟩ := List.mem_map.mp new
    rw [← same, regionEntry, isMachoRegion_cStr] at plain
    cases plain

/-- Buffered logs have their intervals if the log of every thread can be scanned. -/
theorem pcIntervals_isSome_iff {log : TraceLog} (buffered : log.mStream = false)
    (after : Nat → Uint8) (regions : List ImageInfo) :
    (log.pcIntervals after regions).isSome ↔ ∀ kv ∈ log.mThreadCtxs.mKeyVals,
      (LogThreadBuf.extractPcsFromTrace { mBuf := kv.2.logBuf, mNumInst := kv.2.numInst } after
        (kv.2.logBuf.length + 1)).isSome := by
  rw [← mapM_isSome_iff, pcIntervals, buffered, if_neg Bool.false_ne_true, Option.bind_eq_bind,
    Option.isSome_bind]
  exact Bool.eq_iff_iff.mp Option.any_true

/-- The buffered logs can be scanned for their program counters. -/
theorem Lockstep.pcIntervals (lockstep : Lockstep hash level calls buffered streamed tb ts)
    (after : Nat → Uint8) (regions : List ImageInfo) :
    (buffered.pcIntervals after regions).isSome := by
  rw [pcIntervals_isSome_iff lockstep.modeB]
  rintro ⟨tid, b⟩ inMap
  have stored := (lockstep.repB.content tid b).mp inMap
  cases logged : contextsOf calls tid with
  | nil =>
    rw [(lockstep.absent tid logged).1] at stored
    cases stored
  | cons c cs =>
    obtain ⟨b', s, storedB, _, agrees⟩ := lockstep.present tid c cs logged
    obtain rfl : b = b' := Option.some.inj (stored.symm.trans storedB)
    obtain ⟨frames, journal, bytes⟩ := agrees.journal
    have memory : b.logStream = none := Option.map_eq_none_iff.mp agrees.memory
    have inBuf : b.recorded = b.logBuf := by rw [ThreadCtx.recorded, memory]
    have scan := extractPcs_eq journal bytes after (Nat.lt_succ_self _)
    rw [ThreadCtx.threadBuf, inBuf] at scan
    exact Option.isSome_iff_exists.mpr ⟨_, scan⟩

end TraceLog

/-- The runs of the two modes end, the buffered log can be scanned, and in the directories
that `write` completes each thread has a file in both or in none, which decodes to the
thread, the number of its calls and one and the same body. -/
def ModesAgree (zstd : Zstd) (hash : Hasher) (sortBuckets : BucketSort 32) (level : Int)
    (calls : List (Uint32 × LogArm64CpuContext)) : Prop :=
  ∃ buffered streamed : TraceLog,
    TraceLog.runAll hash sortBuckets { mCompressionLevel := level, mStream := false } calls =
      .ok buffered ∧
    TraceLog.runAll hash sortBuckets { mCompressionLevel := level, mStream := true } calls =
      .ok streamed ∧
    (∀ after regions, (buffered.pcIntervals after regions).isSome) ∧
    ∀ after overlapFind sortSyms regions symbols dirB dirS outB outS, buffered.LogsFit →
      buffered.write zstd after overlapFind sortSyms regions symbols (TraceLog.initDir dirB) =
        some outB →
      streamed.write zstd after overlapFind sortSyms regions symbols (TraceLog.initDir dirS) =
        some outS →
      ∀ thread, (contextsOf calls thread = [] ∧ Assoc.get outB (threadName thread) = none ∧
          Assoc.get outS (threadName thread) = none) ∨
        ∃ fileB fileS body, Assoc.get outB (threadName thread) = some fileB ∧
          Assoc.get outS (threadName thread) = some fileS ∧
          decodeThread zstd fileB = some (thread.setWidth 64,
            BitVec.ofNat 64 (contextsOf calls thread).length, body) ∧
          decodeThread zstd fileS = some (thread.setWidth 64,
            BitVec.ofNat 64 (contextsOf calls thread).length, body)

/-- Streamed and buffered thread files agree over any interleaving of the threads. -/
theorem modes_agree (zstd : Zstd) (hash : Hasher) (sortBuckets : BucketSort 32) (level : Int)
    (calls : List (Uint32 × LogArm64CpuContext))
    (fit : ∀ thread, (contextsOf calls thread).IsChain WithinLimits)
    (behaves : ∀ mStream,
      TraceLog.MapBehaves hash sortBuckets { mCompressionLevel := level, mStream } calls) :
    ModesAgree zstd hash sortBuckets level calls := by
  obtain ⟨buffered, streamed, tb, ts, ranB, ranS, lockstep⟩ :=
    TraceLog.run_lockstep level calls fit behaves
  refine ⟨buffered, streamed, ranB, ranS, lockstep.pcIntervals, ?_⟩
  intro after overlapFind sortSyms regions symbols dirB dirS outB outS small writtenB writtenS thread
  have fileB := TraceLog.get_threadFile lockstep.repB writtenB thread
  have fileS := TraceLog.get_threadFile lockstep.repS writtenS thread
  cases logged : contextsOf calls thread with
  | nil =>
    obtain ⟨noneB, noneS⟩ := lockstep.absent thread logged
    rw [noneB] at fileB
    rw [noneS] at fileS
    exact .inl ⟨rfl, fileB, fileS⟩
  | cons c cs =>
    obtain ⟨b, s, storedB, storedS, agrees⟩ := lockstep.present thread c cs logged
    have memory : b.logStream = none := Option.map_eq_none_iff.mp agrees.memory
    have inMap := (lockstep.repB.content thread b).mpr storedB
    obtain ⟨fb, fs, madeB, madeS, decodedB, decodedS⟩ := lockstep.threadFile zstd agrees
      (by rw [ThreadCtx.recorded, memory]; exact (small _ inMap).1)
    rw [storedB, Option.bind_some, madeB] at fileB
    rw [storedS, Option.bind_some, madeS] at fileS
    exact .inr ⟨_, _, _, fileB, fileS, decodedB, decodedS⟩

/-- Two threads in turn, of which the second one moves the pair of the first. -/
def branchCalls : List (Uint32 × LogArm64CpuContext) :=
  [(0x20103, .zero), (0xa0103, { LogArm64CpuContext.zero with sp := 0x16fdff000 }),
    (0x20103, { LogArm64CpuContext.zero with pc := 0x100004000 }),
    (0xa0103, { LogArm64CpuContext.zero with pc := 4, sp := 0x16fdff000 })]

theorem branchCalls_fit (thread : Uint32) : (contextsOf branchCalls thread).IsChain WithinLimits := by
  have first : [LogArm64CpuContext.zero,
      { LogArm64CpuContext.zero with pc := 0x100004000 }].IsChain WithinLimits := by decide
  have second : [{ LogArm64CpuContext.zero with sp := 0x16fdff000 },
      { LogArm64CpuContext.zero with pc := 4, sp := 0x16fdff000 }].IsChain WithinLimits := by decide
  refine chains_iff.mpr (fun thread caller => ?_) thread
  simp only [branchCalls, List.map_cons, List.map_nil, List.mem_cons, List.not_mem_nil,
    or_false] at caller
  rcases caller with rfl | rfl | rfl | rfl
  · exact first
  · exact second
  · exact first
  · exact second

theorem modes_agree_branch :
    ModesAgree storingZstd (jevhash32 0x85EBCA77) stableBucketSort 3 branchCalls := by
  refine modes_agree storingZstd (jevhash32 0x85EBCA77) stableBucketSort 3 branchCalls
    branchCalls_fit fun mStream => ?_
  cases mStream <;> decide +kernel

end XnuTrace
