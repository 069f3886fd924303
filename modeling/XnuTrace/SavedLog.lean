import XnuTrace.Symbols
import XnuTrace.TraceLog
import XnuTrace.Replay
import XnuTrace.Lib.Assoc

/-! The directory of a saved log: `TraceLog::write` and the constructor that reads it
back. A directory is listed in any order; file operations themselves do not fail. -/
namespace XnuTrace
open Memory

/-- Names with the bytes on disk. -/
abbrev Directory := List (List Uint8 × List Uint8)

def metaBin : List Uint8 := ascii "meta.bin"

def threadPrefix : List Uint8 := ascii "thread-"

/-- `fmt::format("thread-{:d}.bin", tid)`. -/
def threadName (tid : Uint32) : List Uint8 :=
  threadPrefix ++ decimal tid.toNat ++ ascii ".bin"

def isMachoRegion (name : List Uint8) : Bool := machoRegionPrefix.isPrefixOf name

namespace CompressedFile

def writeAll (f : CompressedFile) (bufs : List (List Uint8)) : Option CompressedFile :=
  bufs.foldlM write f

end CompressedFile

namespace TraceLog
variable (zstd : Zstd)

/-- What `TraceLog(log_dir_path, compression_level, stream)` leaves of the directory. -/
def initDir (dir : Directory) : Directory := dir.filter fun e => isMachoRegion e.1

/-- The buffers that go into `meta.bin`, one `write` each. -/
def metaBufs (regions : List ImageInfo) (syms : List SymInfo) : List (List Uint8) :=
  regions.flatMap (fun r => [r.logRegion.bytes, r.path]) ++
    syms.flatMap fun s => [s.logSym.bytes, s.name, s.path]

def metaFile (regions : List ImageInfo) (syms : List SymInfo) : Option CompressedFile :=
  (CompressedFile.create logMetaHdrMagic
    (logMetaHdr (BitVec.ofNat 64 regions.length) (BitVec.ofNat 64 syms.length)) 0).writeAll
    (metaBufs regions syms)

def regionFile (r : ImageInfo) : Option CompressedFile :=
  (CompressedFile.create logMachoRegionHdrMagic r.digest.toList 1).write r.bytes

/-- The file of a thread: written now, or a stream that gets its count and is closed. -/
def threadFile (log : TraceLog) (tid : Uint32) (tctx : ThreadCtx) : Option CompressedFile :=
  if log.mStream then
    tctx.logStream.map fun logStream =>
      { logStream with mHdrBuf := logStream.mHdrBuf.take 8 ++ wordBytes 8 tctx.numInst }
  else
    (CompressedFile.create logThreadHdrMagic (logThreadHdr (tid.setWidth 64) tctx.numInst)
      log.mCompressionLevel).write tctx.logBuf

/-- The intervals whose symbols are kept; `none` when a thread's log cannot be scanned. -/
def pcIntervals (log : TraceLog) (after : Nat → Uint8) (regions : List ImageInfo) :
    Option (List (Uint64 × Uint64)) :=
  if log.mStream then
    -- FIXME: streams just add all symbols
    some (regions.map fun region => (region.base, region.base + region.size))
  else do
    let pcs ← log.mThreadCtxs.mKeyVals.mapM fun (_, tctx) =>
      LogThreadBuf.extractPcsFromTrace { mBuf := tctx.logBuf, mNumInst := tctx.numInst } after
        (tctx.logBuf.length + 1)
    return pcs.flatten.dedup.map fun pc => (pc, pc + 4)

def savedSyms (log : TraceLog) (after : Nat → Uint8) (overlapFind : OverlapFind)
    (sortSyms : BaseSort SymInfo SymInfo.base) (regions : List ImageInfo)
    (symbols : Option Symbols) : Option (List SymInfo) :=
  (log.pcIntervals after regions).map fun pcIntervals =>
    match symbols with
    | some symbols => getSymbolsInIntervals overlapFind sortSyms symbols.mSyms pcIntervals
    | none => []

/-- The `macho-region-*.bin` that are unchanged. -/
def reusedMachoRegions (dir : Directory) (regions : List ImageInfo) :
    Option (List (List Uint8)) :=
  regions.foldlM (fun reused region =>
    match Assoc.get dir (cStr region.logPath) with
    | none => some reused
    | some file => (CompressedFileReader.open logMachoRegionHdrMagic 32 file).map fun fh =>
      if fh.mHdrBuf = region.digest.toList then region.logPath :: reused else reused) []

/-- `TraceLog::write`, once the log itself is destroyed and its streams are closed. -/
def write (log : TraceLog) (after : Nat → Uint8) (overlapFind : OverlapFind)
    (sortSyms : BaseSort SymInfo SymInfo.base) (regions : List ImageInfo)
    (symbols : Option Symbols) (dir : Directory) : Option Directory := do
  let syms ← log.savedSyms after overlapFind sortSyms regions symbols
  let metaFh ← metaFile regions syms
  let dir := Assoc.put dir (metaBin, metaFh.close zstd)
  let reused ← reusedMachoRegions dir regions
  let dir := dir.filter fun e => !isMachoRegion e.1 || reused.contains e.1
  let regionFiles ← (regions.filter fun region => !reused.contains region.logPath).mapM
    fun region => (regionFile region).map fun fh => (cStr region.logPath, fh.close zstd)
  let threadFiles ← log.mThreadCtxs.mKeyVals.mapM
    fun (tid, tctx) => (log.threadFile tid tctx).map fun fh => (threadName tid, fh.close zstd)
  return Assoc.putAll dir (regionFiles ++ threadFiles)

end TraceLog

/-! Reading. -/

/-- A `TraceLog` that was constructed from a directory. -/
structure ParsedLog where
  mNumInst : Uint64
  mMachoRegions : MachORegions
  mSymbols : Symbols
  mParsedLogs : List (Uint32 × LogThreadBuf)

namespace ParsedLog
variable (zstd : Zstd)

/-- The body of `meta.bin` with `num_regions` and `num_syms`. -/
def readMeta (dir : Directory) : Option (List Uint8 × Uint64 × Uint64) := do
  let file ← Assoc.get dir metaBin
  let metaFh ← CompressedFileReader.open logMetaHdrMagic 16 file
  let metaBuf ← metaFh.read zstd
  return (metaBuf, frontWord 64 8 metaFh.mHdrBuf, secondWord metaFh.mHdrBuf)

def readRegion (file : List Uint8) : Option (Sha256 × List Uint8) := do
  let regionFh ← CompressedFileReader.open logMachoRegionHdrMagic 32 file
  let bytes ← regionFh.read zstd
  return (.ofFn fun i => regionFh.mHdrBuf.getD i 0, bytes)

def readRegionsBytes (dir : Directory) (numRegions : Uint64) : Option RegionsBytes :=
  let regionsPaths := dir.filter fun e => isMachoRegion e.1
  if BitVec.ofNat 64 regionsPaths.length = numRegions then
    (regionsPaths.mapM fun e => readRegion zstd e.2).map fun regionsBytesVec =>
      regionsBytesVec.foldl (fun m e => m.emplace e.1 e.2) fun _ => none
  else none

/-- Behind the records that were read. -/
def skipRegions (mem : Nat → Uint8) : Nat → Nat → Nat
  | 0, p => p
  | n + 1, p =>
    skipRegions mem n (p + LogRegion.sizeofLogRegion + (LogRegion.load mem p).pathLen.toNat)

def readThread (name file : List Uint8) : Option (Uint32 × LogThreadBuf) :=
  if threadPrefix.isPrefixOf name then do
    let threadFh ← CompressedFileReader.open logThreadHdrMagic 16 file
    let threadBuf ← threadFh.read zstd
    return ((frontWord 64 8 threadFh.mHdrBuf).setWidth 32,
      { mBuf := threadBuf, mNumInst := secondWord threadFh.mHdrBuf })
  else none

def readThreads (dir : Directory) : Option (List (Uint32 × LogThreadBuf)) :=
  (dir.filter fun e => e.1 ≠ metaBin ∧ !isMachoRegion e.1).mapM fun e => readThread zstd e.1 e.2

/-- `TraceLog(const std::string &log_dir_path)`. -/
def read (hash : Hasher) (sortBuckets : BucketSort 64)
    (sortRegions : BaseSort ImageInfo ImageInfo.base) (sortSyms : BaseSort SymInfo SymInfo.base)
    (after : Nat → Uint8) (dir : Directory) : Option ParsedLog := do
  let (metaBuf, numRegions, numSyms) ← readMeta zstd dir
  let regionsBytes ← readRegionsBytes zstd dir numRegions
  let mem := ofList metaBuf after
  let mMachoRegions ← MachORegions.ofBuf hash sortBuckets.1 sortRegions mem 0 numRegions.toNat
    regionsBytes
  let mSymbols := Symbols.ofBuf sortSyms mem (skipRegions mem numRegions.toNat 0) numSyms.toNat
  let parsedLogs ← readThreads zstd dir
  return {
    mNumInst := parsedLogs.foldl (fun n e => n + e.2.mNumInst) 0
    mMachoRegions
    mSymbols
    -- a thread's first file stays
    mParsedLogs := parsedLogs.foldl (fun logs e =>
      if logs.any (·.1 == e.1) then logs else logs ++ [e]) [] }

end ParsedLog

end XnuTrace
