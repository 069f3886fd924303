import XnuTrace.MetadataRoundTrip
import XnuTrace.ThreadFiles
import XnuTrace.Resync
import Mathlib.Algebra.BigOperators.Group.List.Lemmas

/-! From the calls of `log` to what the constructor that reads the directory has of the threads,
buffered and streamed, whatever the directory held before. -/
namespace XnuTrace
open Memory MphMap FallibleMap XnuTrace.Frame

/-- What the log holds of the threads after `calls`, and what their files decode to. -/
structure Recording (zstd : Zstd) (hash : Hasher) (calls : List (Uint32 × LogArm64CpuContext))
    (log : TraceLog) (t : Table 32 ThreadCtx) : Prop where
  rep : Represents hash log.mThreadCtxs t
  absent : ∀ thread, contextsOf calls thread = [] → t thread = none
  present : ∀ thread c cs, contextsOf calls thread = c :: cs → ∃ tctx frames,
    t thread = some tctx ∧ Journal (.first (.ctx c)) ((c :: cs).map .ctx) frames tctx.cursor ∧
    tctx.recorded = frames.flatMap bytes ∧
    (tctx.recorded.length < 2 ^ 64 → ∃ fh, log.threadFile thread tctx = some fh ∧
      decodeThread zstd (fh.close zstd) =
        some (thread.setWidth 64, BitVec.ofNat 64 (c :: cs).length, tctx.recorded))

/-- What is read back of the threads. The program counters and contexts are those that the replay
from the first sync frame shows, which repeats the first. -/
structure ThreadsRead (calls : List (Uint32 × LogArm64CpuContext)) (loaded : ParsedLog) :
    Prop where
  numInst : loaded.mNumInst = BitVec.ofNat 64 calls.length
  nodup : (loaded.mParsedLogs.map Prod.fst).Nodup
  threads : ∀ thread, thread ∈ loaded.mParsedLogs.map Prod.fst ↔ contextsOf calls thread ≠ []
  each : ∀ thread buf, (thread, buf) ∈ loaded.mParsedLogs → ∃ c cs,
    contextsOf calls thread = c :: cs ∧ buf.mNumInst = BitVec.ofNat 64 (c :: cs).length ∧
    ∀ after fuel, buf.mBuf.length < fuel →
      buf.extractPcsFromTrace after fuel = some (c.pc :: (c :: cs).map (·.pc)) ∧
      ∃ ctxs, buf.replayCtxs after fuel 0 = some ctxs ∧
        List.Forall₂ LogArm64CpuContext.SameRegisters ctxs (c :: c :: cs)

section
variable {zstd : Zstd} {hash : Hasher} {sortBuckets : BucketSort 32} {level : Int}
  {calls : List (Uint32 × LogArm64CpuContext)} {log : TraceLog} {t : Table 32 ThreadCtx}

theorem recording_of_run (zstd : Zstd)
    (fit : ∀ thread, (contextsOf calls thread).IsChain WithinLimits)
    (behaves : ∀ mStream,
      TraceLog.MapBehaves hash sortBuckets { mCompressionLevel := level, mStream } calls)
    {mStream : Bool}
    (ran : TraceLog.runAll hash sortBuckets { mCompressionLevel := level, mStream } calls =
      .ok log) :
    ∃ t, Recording zstd hash calls log t := by
  obtain ⟨buffered, streamed, tb, ts, ranB, ranS, lockstep⟩ :=
    TraceLog.run_lockstep level calls fit behaves
  cases mStream with
  | false =>
    cases ran.symm.trans ranB
    refine ⟨tb, lockstep.repB, fun thread none => (lockstep.absent thread none).1,
      fun thread c cs some => ?_⟩
    obtain ⟨b, s, storedB, storedS, agrees⟩ := lockstep.present thread c cs some
    obtain ⟨frames, journal, bytes⟩ := agrees.journal
    refine ⟨b, frames, storedB, journal, bytes, fun small => ?_⟩
    obtain ⟨fb, fs, madeB, madeS, decodedB, decodedS⟩ := lockstep.threadFile zstd agrees small
    exact ⟨fb, madeB, decodedB⟩
  | true =>
    cases ran.symm.trans ranS
    refine ⟨ts, lockstep.repS, fun thread none => (lockstep.absent thread none).2,
      fun thread c cs some => ?_⟩
    obtain ⟨b, s, storedB, storedS, agrees⟩ := lockstep.present thread c cs some
    obtain ⟨frames, journal, bytes⟩ := agrees.journal
    refine ⟨s, frames, storedS, agrees.cursor ▸ journal, agrees.recorded.trans bytes,
      fun small => ?_⟩
    rw [agrees.recorded] at small ⊢
    obtain ⟨fb, fs, madeB, madeS, decodedB, decodedS⟩ := lockstep.threadFile zstd agrees small
    exact ⟨fs, madeS, decodedS⟩

theorem readThread_threadName (thread : Uint32) (file : List Uint8) :
    ParsedLog.readThread zstd (threadName thread) file = (decodeThread zstd file).map fun d =>
      (d.1.setWidth 32, { mBuf := d.2.2, mNumInst := d.2.1 }) := by
  rw [ParsedLog.readThread, isPrefixOf_threadName, if_pos rfl, decodeThread]
  cases CompressedFileReader.open logThreadHdrMagic 16 file with
  | none => rfl
  | some threadFh =>
    cases body : threadFh.read zstd with
    | none =>
      simp only [Option.bind_eq_bind, Option.bind_some, body, Option.bind_none, Option.map_none]
    | some threadBuf =>
      simp only [Option.bind_eq_bind, Option.bind_some, body]
      rfl

/-! The files of the threads in the directory. -/

/-- The entries that the constructor takes for threads. -/
def threadEntries (entries : Directory) : Directory :=
  entries.filter fun e => e.1 ≠ metaBin ∧ !isMachoRegion e.1

variable {after : Nat → Uint8} {overlapFind : OverlapFind}
  {sortSyms : BaseSort SymInfo SymInfo.base} {regions : List ImageInfo} {symbols : Option Symbols}
  {dir out entries : Directory}

/-- A directory keeps its names apart, and holds files of threads only for the log's threads. -/
theorem write_threads (nodup : (Assoc.keys dir).Nodup)
    (written : log.write zstd after overlapFind sortSyms regions symbols (TraceLog.initDir dir) =
      some out) : (Assoc.keys out).Nodup ∧
      ∀ e ∈ threadEntries out, ∃ thread, e.1 = threadName thread := by
  obtain ⟨_, metaFh, reused, threadFiles, _, _, _, threadsMade, rfl⟩ :=
    (TraceLog.write_eq_some sortSyms).mp written
  have kept := (List.filter_sublist (p := fun e : List Uint8 × List Uint8 =>
    !(isMachoRegion e.1 && !reused.contains e.1))).trans
      (List.filter_sublist (l := dir) (p := fun e => isMachoRegion e.1))
  refine ⟨Assoc.nodup_putAll (Assoc.nodup_put ((kept.map Prod.fst).nodup nodup) _) _, ?_⟩
  intro e member
  obtain ⟨inOut, kind⟩ := List.mem_filter.mp member
  obtain ⟨notMeta, notRegion⟩ := of_decide_eq_true kind
  rw [Bool.not_eq_true'] at notRegion
  rcases Assoc.mem_putAll inOut with old | new
  · rcases Assoc.mem_put old with kept | rfl
    · have region := (List.mem_filter.mp (List.mem_filter.mp kept).1).2
      exact absurd region (ne_true_of_eq_false notRegion)
    · exact absurd rfl notMeta
  · rcases List.mem_append.mp new with region | thread
    · obtain ⟨r, _, rfl⟩ := List.mem_map.mp region
      exact absurd (isMachoRegion_cStr r) (ne_true_of_eq_false notRegion)
    · obtain ⟨kv, _, made⟩ := mem_of_mapM threadsMade thread
      obtain ⟨fh, _, rfl⟩ := Option.map_eq_some_iff.mp made
      exact ⟨kv.1, rfl⟩

/-- Each thread of the log has one file, which decodes to its header and its bytes. -/
theorem Recording.file (recording : Recording zstd hash calls log t) (fits : log.LogsFit)
    (written : log.write zstd after overlapFind sortSyms regions symbols (TraceLog.initDir dir) =
      some out) (thread : Uint32) :
    (contextsOf calls thread = [] ∧ Assoc.get out (threadName thread) = none) ∨
      ∃ c cs, ∃ tctx : ThreadCtx, ∃ frames file, contextsOf calls thread = c :: cs ∧
        Journal (.first (.ctx c)) ((c :: cs).map .ctx) frames tctx.cursor ∧
        tctx.recorded = frames.flatMap bytes ∧ Assoc.get out (threadName thread) = some file ∧
        decodeThread zstd file =
          some (thread.setWidth 64, BitVec.ofNat 64 (c :: cs).length, tctx.recorded) := by
  have found := TraceLog.get_threadFile recording.rep written thread
  cases logged : contextsOf calls thread with
  | nil =>
    rw [recording.absent thread logged] at found
    exact .inl ⟨rfl, found⟩
  | cons c cs =>
    obtain ⟨tctx, frames, stored, journal, bytes, make⟩ := recording.present thread c cs logged
    have fit := fits _ ((recording.rep.content thread tctx).mpr stored)
    have small : tctx.recorded.length < 2 ^ 64 := by
      rw [ThreadCtx.recorded]
      cases stream : tctx.logStream with
      | none => exact fit.1
      | some logStream => exact fit.2 logStream stream
    obtain ⟨fh, made, decoded⟩ := make small
    rw [stored, Option.bind_some, made] at found
    exact .inr ⟨c, cs, tctx, frames, _, rfl, journal, bytes, found, decoded⟩

/-- A log as it is read back from what was recorded of its thread. -/
def ReadFrom (calls : List (Uint32 × LogArm64CpuContext)) (parsed : Uint32 × LogThreadBuf) : Prop :=
  ∃ c cs, ∃ tctx : ThreadCtx, ∃ frames, contextsOf calls parsed.1 = c :: cs ∧
    Journal (.first (.ctx c)) ((c :: cs).map .ctx) frames tctx.cursor ∧
    tctx.recorded = frames.flatMap bytes ∧
    parsed.2 = { mBuf := tctx.recorded, mNumInst := BitVec.ofNat 64 (c :: cs).length }

/-- Each file of a thread is read, and each thread has one. -/
theorem Recording.parsed (recording : Recording zstd hash calls log t) (fits : log.LogsFit)
    (nodup : (Assoc.keys dir).Nodup)
    (written : log.write zstd after overlapFind sortSyms regions symbols (TraceLog.initDir dir) =
      some out) (listed : entries.Perm out) {parsedLogs : List (Uint32 × LogThreadBuf)}
    (read : ParsedLog.readThreads zstd entries = some parsedLogs) :
    (parsedLogs.map Prod.fst).Nodup ∧
      (∀ thread, thread ∈ parsedLogs.map Prod.fst ↔ contextsOf calls thread ≠ []) ∧
      ∀ parsed ∈ parsedLogs, ReadFrom calls parsed := by
  obtain ⟨names, threads⟩ := write_threads nodup written
  have shuffled : (threadEntries entries).Perm (threadEntries out) := listed.filter _
  have each : ∀ e ∈ threadEntries entries, ∃ parsed, ParsedLog.readThread zstd e.1 e.2 =
      some parsed ∧ e.1 = threadName parsed.1 ∧ ReadFrom calls parsed := by
    rintro ⟨name, file⟩ member
    have inOut := shuffled.mem_iff.mp member
    obtain ⟨thread, rfl⟩ : ∃ thread, name = threadName thread := threads _ inOut
    have here := Assoc.get_eq names (List.mem_filter.mp inOut).1
    rcases recording.file fits written thread with ⟨_, none⟩ |
      ⟨c, cs, tctx, frames, file', logged, journal, bytes, found, decoded⟩
    · cases none.symm.trans here
    · cases found.symm.trans here
      have whole : (thread.setWidth 64).setWidth 32 = thread := by
        rw [BitVec.setWidth_setWidth_of_le _ (by decide), BitVec.setWidth_eq]
      refine ⟨(thread, { mBuf := tctx.recorded, mNumInst := BitVec.ofNat 64 (c :: cs).length }), ?_,
        rfl, c, cs, tctx, frames, logged, journal, bytes, rfl⟩
      rw [readThread_threadName, decoded, Option.map_some, whole]
  obtain ⟨_, read', related⟩ := exists_mapM each
  cases read'.symm.trans read
  have sameNames :
      parsedLogs.map (fun p => threadName p.1) = (threadEntries entries).map Prod.fst := by
    rw [eq_comm, ← List.forall₂_eq_eq_eq, List.forall₂_map_left_iff, List.forall₂_map_right_iff]
    exact related.imp fun _ _ both => both.1
  refine ⟨?_, fun thread => ⟨fun member => ?_, fun some => ?_⟩, fun parsed member => ?_⟩
  · have distinct : (parsedLogs.map fun p => threadName p.1).Nodup := by
      rw [sameNames]
      exact ((List.filter_sublist.map Prod.fst).nodup ((listed.map Prod.fst).nodup_iff.mpr names))
    exact List.Nodup.of_map threadName (by rwa [List.map_map])
  · obtain ⟨parsed, inLogs, rfl⟩ := List.mem_map.mp member
    obtain ⟨e, _, _, c, cs, tctx, frames, logged, _⟩ := exists_of_forall₂ related.flip inLogs
    exact logged ▸ List.cons_ne_nil c cs
  · rcases recording.file fits written thread with ⟨none, _⟩ |
      ⟨c, cs, tctx, frames, file, logged, journal, bytes, found, decoded⟩
    · exact absurd none some
    · have inOut := (Assoc.mem_iff_get names (threadName thread, file)).mpr found
      have kind :
          decide ((threadName thread) ≠ metaBin ∧ !isMachoRegion (threadName thread)) = true :=
        decide_eq_true ⟨threadName_ne_metaBin thread, by rw [isMachoRegion_threadName]; rfl⟩
      have own : (threadName thread, file) ∈ threadEntries entries :=
        shuffled.mem_iff.mpr (List.mem_filter.mpr ⟨inOut, kind⟩)
      obtain ⟨parsed, inLogs, same, _⟩ := exists_of_forall₂ related own
      rw [threadName_injective same]
      exact List.mem_map_of_mem inLogs
  · obtain ⟨e, _, _, from'⟩ := exists_of_forall₂ related.flip member
    exact from'

/-- Both replays of a log that was read back. -/
theorem replays {thread : Uint32} {buf : LogThreadBuf} (readFrom : ReadFrom calls (thread, buf)) :
    ∃ c cs, contextsOf calls thread = c :: cs ∧ buf.mNumInst = BitVec.ofNat 64 (c :: cs).length ∧
      ∀ after fuel, buf.mBuf.length < fuel →
        buf.extractPcsFromTrace after fuel = some (c.pc :: (c :: cs).map (·.pc)) ∧
        ∃ ctxs, buf.replayCtxs after fuel 0 = some ctxs ∧
          List.Forall₂ LogArm64CpuContext.SameRegisters ctxs (c :: c :: cs) := by
  obtain ⟨c, cs, tctx, frames, logged, journal, bytes, rfl⟩ := readFrom
  refine ⟨c, cs, logged, rfl, fun after fuel enough => ⟨?_, ?_⟩⟩
  · exact (extractPcs_ctx journal bytes after).1 fuel enough
  · have regs := journal.apply_same (.refl _)
    obtain ⟨rest, whole, _⟩ := journal.first_ctx
    rw [whole] at regs bytes
    obtain ⟨_, ctxs⟩ := @LogThreadBuf.replay_eq
      { mBuf := tctx.recorded, mNumInst := BitVec.ofNat 64 (c :: cs).length } [] _ _ _ bytes
      (whole ▸ journal.spaced).tail after _ enough
    refine ⟨_, ctxs, ?_⟩
    have logged : contexts (Cursor.first (.ctx c)).last ((c :: cs).map .ctx) = c :: c :: cs :=
      contexts_ctx c (c :: cs)
    rw [logged] at regs
    exact regs

/-- The loop that keeps a thread's first file keeps all of them. -/
theorem foldl_first {A : Type} (logs : List (Uint32 × A)) (kept : List (Uint32 × A))
    (nodup : ((kept ++ logs).map Prod.fst).Nodup) :
    logs.foldl (fun logs e => if logs.any (·.1 == e.1) then logs else logs ++ [e]) kept =
      kept ++ logs := by
  induction logs generalizing kept with
  | nil => exact (List.append_nil kept).symm
  | cons e logs ih =>
    have new : kept.any (·.1 == e.1) = false := by
      rw [List.any_eq_false]
      intro old member same
      rw [List.map_append, List.map_cons] at nodup
      exact (List.nodup_append.mp nodup).2.2 _ (List.mem_map_of_mem member) _ List.mem_cons_self
        (eq_of_beq same)
    rw [List.foldl_cons, new, if_neg Bool.false_ne_true, ih _ (by rwa [List.append_assoc]),
      List.append_assoc]
    rfl

/-- The counts of the threads add up to the calls. -/
theorem sum_contextsOf {threads : List Uint32} (nodup : threads.Nodup)
    (covers : ∀ thread, thread ∈ threads ↔ contextsOf calls thread ≠ []) :
    (threads.map fun thread => (contextsOf calls thread).length).sum = calls.length := by
  have count : ∀ thread, (contextsOf calls thread).length = (calls.map Prod.fst).count thread := by
    intro thread
    rw [contextsOf, List.length_map, List.count, List.countP_map, List.countP_eq_length_filter]
    rfl
  have same : threads.Perm (calls.map Prod.fst).dedup := by
    refine (List.perm_ext_iff_of_nodup nodup (List.nodup_dedup _)).mpr fun thread => ?_
    rw [covers, List.mem_dedup, ← List.count_pos_iff, ← count, List.length_pos_iff]
  simp only [count]
  rw [(same.map _).sum_eq, List.sum_map_count_dedup_eq_length, List.length_map]

theorem foldl_numInst (logs : List (Uint32 × LogThreadBuf)) (counts : Uint32 → Nat)
    (each : ∀ e ∈ logs, e.2.mNumInst = BitVec.ofNat 64 (counts e.1)) (n : Uint64) :
    logs.foldl (fun n e => n + e.2.mNumInst) n =
      n + BitVec.ofNat 64 ((logs.map Prod.fst).map counts).sum := by
  induction logs generalizing n with
  | nil => exact (BitVec.add_zero n).symm
  | cons e logs ih =>
    rw [List.foldl_cons, ih fun e' h => each e' (.tail _ h), each e List.mem_cons_self]
    simp only [List.map_cons, List.sum_cons, BitVec.ofNat_add, BitVec.add_assoc]

/-- Whatever directory is read back after a recording has been written. -/
theorem Recording.threadsRead (recording : Recording zstd hash calls log t) (fits : log.LogsFit)
    {after : Nat → Uint8} {overlapFind : OverlapFind} {sortSyms : BaseSort SymInfo SymInfo.base}
    {regions : List ImageInfo} {symbols : Option Symbols} {dir out entries : Directory}
    (nodup : (Assoc.keys dir).Nodup)
    (written : log.write zstd after overlapFind sortSyms regions symbols (TraceLog.initDir dir) =
      some out) (listed : entries.Perm out) {hash' : Hasher} {sortBuckets' : BucketSort 64}
    {sortRegions : BaseSort ImageInfo ImageInfo.base} {after' : Nat → Uint8} {loaded : ParsedLog}
    (read : ParsedLog.read zstd hash' sortBuckets' sortRegions sortSyms after' entries =
      some loaded) : ThreadsRead calls loaded := by
  obtain ⟨⟨metaBuf, numRegions, numSyms⟩, _, read⟩ := Option.bind_eq_some_iff.mp read
  obtain ⟨regionsBytes, _, read⟩ := Option.bind_eq_some_iff.mp read
  obtain ⟨mMachoRegions, _, read⟩ := Option.bind_eq_some_iff.mp read
  obtain ⟨parsedLogs, threads, read⟩ := Option.bind_eq_some_iff.mp read
  obtain ⟨distinct, covers, each⟩ := recording.parsed fits nodup written listed threads
  have logs : loaded.mParsedLogs = parsedLogs := by
    cases read
    exact foldl_first parsedLogs [] distinct
  have total : loaded.mNumInst = parsedLogs.foldl (fun n e => n + e.2.mNumInst) 0 := by
    cases read
    rfl
  refine ⟨?_, ?_, ?_, ?_⟩
  · rw [total, foldl_numInst parsedLogs (fun thread => (contextsOf calls thread).length) ?_ 0,
      sum_contextsOf distinct covers]
    · exact BitVec.zero_add _
    · intro e member
      obtain ⟨c, cs, tctx, frames, logged, _, _, buf⟩ := each e member
      rw [buf, logged]
  · rwa [logs]
  · rwa [logs]
  · rw [logs]
    exact fun thread buf member => replays (each _ member)

end

/-- What was logged comes back: in either mode, into whatever directory, each thread with its count,
its program counters and its registers. -/
theorem recorded_threads_read {zstd : Zstd} {hash : Hasher} {sortBuckets : BucketSort 32}
    {level : Int} {calls : List (Uint32 × LogArm64CpuContext)}
    (fit : ∀ thread, (contextsOf calls thread).IsChain WithinLimits)
    (behaves : ∀ mStream,
      TraceLog.MapBehaves hash sortBuckets { mCompressionLevel := level, mStream } calls)
    {mStream : Bool} {log : TraceLog}
    (ran : TraceLog.runAll hash sortBuckets { mCompressionLevel := level, mStream } calls = .ok log)
    (fits : log.LogsFit) {after : Nat → Uint8} {overlapFind : OverlapFind}
    {sortSyms : BaseSort SymInfo SymInfo.base} {regions : List ImageInfo} {symbols : Option Symbols}
    {dir out entries : Directory} (nodup : (Assoc.keys dir).Nodup)
    (written : log.write zstd after overlapFind sortSyms regions symbols (TraceLog.initDir dir) =
      some out) (listed : entries.Perm out) {hash' : Hasher} {sortBuckets' : BucketSort 64}
    {sortRegions : BaseSort ImageInfo ImageInfo.base} {after' : Nat → Uint8} {loaded : ParsedLog}
    (read : ParsedLog.read zstd hash' sortBuckets' sortRegions sortSyms after' entries =
      some loaded) : ThreadsRead calls loaded := by
  obtain ⟨t, recording⟩ := recording_of_run zstd fit behaves ran
  exact recording.threadsRead fits nodup written listed read

/-- Sixteen bytes of a page. -/
def smallRegion : ImageInfo where
  base := 0x100000000
  size := 16
  slide := 0
  path := ascii "/a"
  uuid := .replicate 16 0
  bytes := .replicate 16 0
  digest := .replicate 32 0
  isJit := false

def branchLog (mStream : Bool) : Except LogFailure TraceLog :=
  TraceLog.runAll (jevhash32 0x85EBCA77) stableBucketSort { mCompressionLevel := 3, mStream }
    branchCalls

def branchDir (log : TraceLog) : Option Directory :=
  log.write storingZstd (fun _ => 0) overlapAny (stableBaseSort _) [smallRegion]
    (some { mSyms := [jitSymbol] }) (TraceLog.initDir [])

def readDir (entries : Directory) : Option ParsedLog :=
  ParsedLog.read storingZstd (jevhash32 0x85EBCA77) stableBucketSort (stableBaseSort _)
    (stableBaseSort _) (fun _ => 0) entries

/-- The log is small, and what is written of it is read. -/
def branchReads : Bool :=
  match branchLog true with
  | .ok log =>
    log.mThreadCtxs.mKeyVals.all (fun kv => decide (kv.2.logBuf.length < 2 ^ 64) &&
        kv.2.logStream.all fun logStream => decide (logStream.written.length < 2 ^ 64)) &&
      ((branchDir log).bind readDir).isSome
  | .error _ => false

theorem recorded_threads_read_branch : ∃ log out loaded, branchLog true = .ok log ∧
    branchDir log = some out ∧ readDir out = some loaded ∧ ThreadsRead branchCalls loaded := by
  have facts : branchReads = true := by decide +kernel
  rw [branchReads] at facts
  cases ran : branchLog true with
  | error e =>
    rw [ran] at facts
    cases facts
  | ok log =>
    simp only [ran, Bool.and_eq_true] at facts
    obtain ⟨small, some⟩ := facts
    obtain ⟨loaded, whole⟩ := Option.isSome_iff_exists.mp some
    obtain ⟨out, written, read⟩ := Option.bind_eq_some_iff.mp whole
    have fits : log.LogsFit := by
      intro kv member
      have one := List.all_eq_true.mp small kv member
      rw [Bool.and_eq_true, decide_eq_true_eq] at one
      refine ⟨one.1, fun logStream stream => ?_⟩
      have two := one.2
      rw [stream] at two
      exact of_decide_eq_true two
    refine ⟨log, out, loaded, rfl, written, read, ?_⟩
    have noFiles : (Assoc.keys ([] : Directory)).Nodup := List.nodup_nil
    refine recorded_threads_read branchCalls_fit (fun mStream => ?_) ran fits noFiles written
      (.refl _) read
    cases mStream <;> decide +kernel

end XnuTrace
