import XnuTrace.ThreadFiles

/-! The Python package: `compressedfile.CompressedFile` and `tracelog.TraceLog._parse`. An
exception is `none`. The reader knows an older format: thread headers of one word, no
region files, and program counters instead of messages. -/
namespace XnuTrace
open Memory MphMap

namespace Python

structure CompressedFile where
  headerBuf : List Uint8
  decompMmap : List Uint8

/-- `CompressedFile(path, magic, hdr_size)`; `fh.read` returns what is left of a short file. -/
def CompressedFile.init (zstd : Zstd) (file : List Uint8) (magic : Uint64) (hdrSize : Nat) :
    Option CompressedFile :=
  let compHdrBuf := file.take sizeofLogCompHdr
  let headerSize := (frontWord 64 8 (compHdrBuf.drop 16)).toNat
  let decompressedSize := (frontWord 64 8 (compHdrBuf.drop 24)).toNat
  if compHdrBuf.length ≠ sizeofLogCompHdr then none
  else if frontWord 64 8 compHdrBuf ≠ magic then none
  else if headerSize ≠ hdrSize then none
  else
    let headerBuf := (file.drop sizeofLogCompHdr).take headerSize
    let data := file.drop (sizeofLogCompHdr + headerSize)
    if frontWord 64 8 (compHdrBuf.drop 8) ≠ 0 then
      -- there is no map of no bytes
      if decompressedSize = 0 then none
      else (zstd.decompress data decompressedSize).map fun decompMmap => { headerBuf, decompMmap }
    else some { headerBuf, decompMmap := data.take decompressedSize }

/-- `decode("utf-8")`, the text kept as its bytes. -/
def decodeUtf8 (bs : List Uint8) : Option (List Uint8) :=
  if (ByteArray.mk (bs.map UInt8.ofBitVec).toArray).validateUTF8 then some bs else none

def slice (buf : List Uint8) (start stop : Nat) : List Uint8 := (buf.take stop).drop start

structure MachORegion where
  base : Uint64
  size : Uint64
  slide : Uint64
  uuid : List Uint8
  path : List Uint8
deriving DecidableEq

structure Symbol where
  base : Uint64
  size : Uint64
  name : List Uint8
  path : List Uint8
deriving DecidableEq

/-- `bytes(region_unpacked[3:-1])`: everything between `slide` and `path_len`, of which
each number has to be a byte. -/
def uuidOf (r : LogRegion) : Option (List Uint8) :=
  if r.isJit.toNat < 256 then
    some (r.uuid.toList ++ r.digestSha256.toList ++ [r.isJit.setWidth 8])
  else none

/-- The loop over `num_regions`, with the offset behind the last region. -/
def parseRegions (metaBuf : List Uint8) : Nat → Nat → Option (List MachORegion × Nat)
  | 0, regionBufOff => some ([], regionBufOff)
  | n + 1, regionBufOff =>
    if metaBuf.length < regionBufOff + LogRegion.sizeofLogRegion then none
    else do
      let r := LogRegion.load (ofList metaBuf fun _ => 0) regionBufOff
      let uuid ← uuidOf r
      let pathStart := regionBufOff + LogRegion.sizeofLogRegion
      let path ← decodeUtf8 (slice metaBuf pathStart (pathStart + r.pathLen.toNat))
      let (regions, off) ← parseRegions metaBuf n (pathStart + r.pathLen.toNat)
      return ({ base := r.base, size := r.size, slide := r.slide, uuid, path } :: regions, off)

def parseSyms (metaBuf : List Uint8) : Nat → Nat → Option (List Symbol)
  | 0, _ => some []
  | n + 1, symBufOff =>
    if metaBuf.length < symBufOff + LogSym.sizeofLogSym then none
    else do
      let s := LogSym.load (ofList metaBuf fun _ => 0) symBufOff
      let nameStart := symBufOff + LogSym.sizeofLogSym
      let pathStart := nameStart + s.nameLen.toNat
      let name ← decodeUtf8 (slice metaBuf nameStart pathStart)
      let path ← decodeUtf8 (slice metaBuf pathStart (pathStart + s.pathLen.toNat))
      let syms ← parseSyms metaBuf n (pathStart + s.pathLen.toNat)
      return { base := s.base, size := s.size, name, path } :: syms

/-- `traces[thread_id] = ndarray`: a known key keeps its place. -/
def dictSet (traces : List (Uint64 × List Uint64)) (threadId : Uint64) (pcs : List Uint64) :
    List (Uint64 × List Uint64) :=
  if traces.any (·.1 == threadId) then
    traces.map fun t => if t.1 = threadId then (threadId, pcs) else t
  else traces ++ [(threadId, pcs)]

/-- One file of the directory; `log_thread_hdr_t` is 8 bytes. -/
def parseTrace (zstd : Zstd) (state : List (Uint64 × List Uint64) × Nat)
    (entry : List Uint8 × List Uint8) : Option (List (Uint64 × List Uint64) × Nat) :=
  if entry.1 = metaBin then some state
  else if threadPrefix.isPrefixOf entry.1 then do
    let traceFh ← CompressedFile.init zstd entry.2 logThreadHdrMagic 8
    if traceFh.headerBuf.length ≠ 8 then none
    else
      let traceBuf := traceFh.decompMmap
      let numPcs := traceBuf.length / 8
      let pcs := (List.range numPcs).map fun i => frontWord 64 8 (traceBuf.drop (8 * i))
      return (dictSet state.1 (frontWord 64 8 traceFh.headerBuf) pcs, state.2 + numPcs)
  else none

structure TraceLog where
  machoRegions : List MachORegion
  syms : List Symbol
  allPcs : List Uint64

/-- `TraceLog._parse`; `uninit` is what the new `all_pcs` holds before it is filled. -/
def parse (zstd : Zstd) (uninit : Nat → Uint64) (dir : Directory) : Option TraceLog := do
  let metaFile ← Assoc.get dir metaBin
  let metaFh ← CompressedFile.init zstd metaFile logMetaHdrMagic 16
  if metaFh.headerBuf.length ≠ 16 then none
  else
    let metaBuf := metaFh.decompMmap
    let (machoRegions, symBufOff) ← parseRegions metaBuf (frontWord 64 8 metaFh.headerBuf).toNat 0
    let syms ← parseSyms metaBuf (secondWord metaFh.headerBuf).toNat symBufOff
    let (traces, numAllPcs) ← dir.foldlM (parseTrace zstd) ([], 0)
    let tpcs := traces.flatMap Prod.snd
    return {
      machoRegions
      syms
      allPcs := tpcs ++ (List.range (numAllPcs - tpcs.length)).map fun i =>
        uninit (tpcs.length + i) }

/-! The reader on the writer's files. -/

section
variable {zstd : Zstd} {fh : XnuTrace.CompressedFile}

/-- The header type of the file decides. -/
theorem init_close (small : fh.mHdrBuf.length < 2 ^ 64) (hdrSize : Nat)
    (other : fh.mHdrBuf.length ≠ hdrSize) (magic : Uint64) :
    CompressedFile.init zstd (fh.close zstd) magic hdrSize = none := by
  obtain ⟨_, _, headerSize, _⟩ := fh.compHdr_fields
  have front : (fh.close zstd).take sizeofLogCompHdr = fh.compHdr :=
    List.take_left' fh.length_compHdr
  have size : (frontWord 64 8 (fh.compHdr.drop 16)).toNat = fh.mHdrBuf.length := by
    rw [headerSize, BitVec.toNat_ofNat, Nat.mod_eq_of_lt small]
  simp only [CompressedFile.init, front, size, if_pos other, ite_self]

theorem init_close_plain (small : fh.mHdrBuf.length < 2 ^ 64) (level : fh.level = 0)
    (fits : fh.written.length < 2 ^ 64) :
    CompressedFile.init zstd (fh.close zstd) fh.hdrMagic fh.mHdrBuf.length =
      some { headerBuf := fh.mHdrBuf, decompMmap := fh.written } := by
  obtain ⟨magic, isCompressed, headerSize, decompSize⟩ := fh.compHdr_fields
  have front : (fh.close zstd).take sizeofLogCompHdr = fh.compHdr :=
    List.take_left' fh.length_compHdr
  have behind : (fh.close zstd).drop sizeofLogCompHdr = fh.mHdrBuf ++ fh.body zstd :=
    List.drop_left' fh.length_compHdr
  have size : (BitVec.ofNat 64 fh.mHdrBuf.length).toNat = fh.mHdrBuf.length := by
    rw [BitVec.toNat_ofNat, Nat.mod_eq_of_lt small]
  have whole : fh.decompressedSize.toNat = fh.written.length := by
    rw [XnuTrace.CompressedFile.decompressedSize, BitVec.toNat_ofNat, Nat.mod_eq_of_lt fits]
  have plain : fh.isCompressed = 0 := if_neg fun h => h level
  have body : fh.body zstd = fh.written := if_neg fun h => h level
  simp only [CompressedFile.init, front, magic, isCompressed, headerSize, decompSize, size, whole,
    plain, ← List.drop_drop, behind, body, fh.length_compHdr, List.take_left, List.drop_left,
    List.take_length, ne_eq, not_true, if_false]

theorem foldlM_eq_none {α β : Type} {f : β → α → Option β} {l : List α} {a : α} (member : a ∈ l)
    (refused : ∀ b, f b a = none) (b : β) : l.foldlM f b = none := by
  induction l generalizing b with
  | nil => cases member
  | cons first l ih =>
    rw [List.foldlM_cons]
    rcases List.mem_cons.mp member with rfl | later
    · rw [refused]
      rfl
    · cases f b first with
      | none => rfl
      | some b' => exact ih later b'

/-- A file that is no thread's fails the whole reading, and so does a thread's with another
header. -/
theorem parse_eq_none {uninit : Nat → Uint64} {dir : Directory} {entry : List Uint8 × List Uint8}
    (member : entry ∈ dir) (refused : ∀ state, parseTrace zstd state entry = none) :
    parse zstd uninit dir = none := by
  refine Option.eq_none_iff_forall_ne_some.mpr fun parsed done => ?_
  obtain ⟨metaFile, _, done⟩ := Option.bind_eq_some_iff.mp done
  obtain ⟨metaFh, _, done⟩ := Option.bind_eq_some_iff.mp done
  split at done
  · cases done
  obtain ⟨_, _, done⟩ := Option.bind_eq_some_iff.mp done
  obtain ⟨_, _, done⟩ := Option.bind_eq_some_iff.mp done
  obtain ⟨_, folded, _⟩ := Option.bind_eq_some_iff.mp done
  rw [foldlM_eq_none member refused] at folded
  cases folded

theorem length_uuidOf {r : LogRegion} {uuid : List Uint8} (made : uuidOf r = some uuid) :
    uuid.length = 49 := by
  unfold uuidOf at made
  split at made
  · rw [← Option.some.inj made]
    simp
  · cases made

/-- A `uuid` is never the 16 bytes of one. -/
theorem length_uuid_of_parseRegions {metaBuf : List Uint8} {n regionBufOff off : Nat}
    {regions : List MachORegion}
    (parsed : parseRegions metaBuf n regionBufOff = some (regions, off)) :
    ∀ region ∈ regions, region.uuid.length = 49 := by
  induction n generalizing regionBufOff regions off with
  | zero =>
    cases parsed
    exact fun _ member => absurd member List.not_mem_nil
  | succ n ih =>
    rw [parseRegions] at parsed
    split at parsed
    · cases parsed
    obtain ⟨uuid, made, parsed⟩ := Option.bind_eq_some_iff.mp parsed
    obtain ⟨path, _, parsed⟩ := Option.bind_eq_some_iff.mp parsed
    obtain ⟨⟨later, _⟩, rest, parsed⟩ := Option.bind_eq_some_iff.mp parsed
    cases parsed
    intro region member
    rcases List.mem_cons.mp member with rfl | inRest
    · exact length_uuidOf made
    · exact ih rest region inRest

theorem length_uuid_of_parse {uninit : Nat → Uint64} {dir : Directory} {parsed : TraceLog}
    (done : parse zstd uninit dir = some parsed) :
    ∀ region ∈ parsed.machoRegions, region.uuid.length = 49 := by
  obtain ⟨metaFile, _, done⟩ := Option.bind_eq_some_iff.mp done
  obtain ⟨metaFh, _, done⟩ := Option.bind_eq_some_iff.mp done
  split at done
  · cases done
  obtain ⟨⟨_, _⟩, regionsParsed, done⟩ := Option.bind_eq_some_iff.mp done
  obtain ⟨_, _, done⟩ := Option.bind_eq_some_iff.mp done
  obtain ⟨⟨_, _⟩, _, done⟩ := Option.bind_eq_some_iff.mp done
  cases done
  exact length_uuid_of_parseRegions regionsParsed

end

end Python

end XnuTrace
