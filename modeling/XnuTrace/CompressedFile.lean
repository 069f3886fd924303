import XnuTrace.LogStructs

/-! `CompressedFile`: a `log_comp_hdr`, a header of the caller's and a body, plain or
compressed. What was written is kept as the pieces of the single `write` calls. -/
namespace XnuTrace
open Memory

/-- The zstd streams, of which only the round trip is used. -/
structure Zstd where
  compress : Int → List (List Uint8) → List Uint8
  decompress : List Uint8 → Nat → Option (List Uint8)
  roundTrip : ∀ level pieces,
    decompress (compress level pieces) pieces.flatten.length = some pieces.flatten

def sizeofLogCompHdr : Nat := 32

/-- A file open for writing. -/
structure CompressedFile where
  hdrMagic : Uint64
  mHdrBuf : List Uint8
  level : Int
  pieces : List (List Uint8)
deriving DecidableEq

namespace CompressedFile

def create (hdrMagic : Uint64) (hdr : List Uint8) (level : Int) : CompressedFile :=
  { hdrMagic, mHdrBuf := hdr, level, pieces := [] }

/-- An uncompressed write of nothing fails the assertion on `fwrite`. -/
def write (f : CompressedFile) (buf : List Uint8) : Option CompressedFile :=
  if f.level = 0 ∧ buf = [] then none else some { f with pieces := f.pieces ++ [buf] }

def written (f : CompressedFile) : List Uint8 := f.pieces.flatten

def decompressedSize (f : CompressedFile) : Uint64 := BitVec.ofNat 64 f.written.length

def isCompressed (f : CompressedFile) : Uint64 := if f.level ≠ 0 then 1 else 0

def compHdr (f : CompressedFile) : List Uint8 :=
  wordBytes 8 f.hdrMagic ++ wordBytes 8 f.isCompressed ++
    wordBytes 8 (BitVec.ofNat 64 f.mHdrBuf.length) ++ wordBytes 8 f.decompressedSize

def body (zstd : Zstd) (f : CompressedFile) : List Uint8 :=
  if f.level ≠ 0 then zstd.compress f.level f.pieces else f.written

/-- The bytes on disk once the destructor has run. -/
def close (zstd : Zstd) (f : CompressedFile) : List Uint8 :=
  f.compHdr ++ (f.mHdrBuf ++ f.body zstd)

theorem write_of_nonempty (f : CompressedFile) {buf : List Uint8} (nonempty : buf ≠ []) :
    f.write buf = some { f with pieces := f.pieces ++ [buf] } := by
  rw [write, if_neg fun h => nonempty h.2]

theorem write_compressed {f : CompressedFile} (level : f.level ≠ 0) (buf : List Uint8) :
    f.write buf = some { f with pieces := f.pieces ++ [buf] } := by
  rw [write, if_neg fun h => level h.1]

end CompressedFile

/-- A file open for reading, as far as it has been read: header and body. -/
structure CompressedFileReader where
  mHdrBuf : List Uint8
  mDecompSize : Uint64
  compressed : Bool
  rest : List Uint8

/-- `fread(buf, size, 1, fh) == 1`, which also fails for a size of 0. -/
def fread (size : Nat) (bs : List Uint8) : Option (List Uint8 × List Uint8) :=
  if 0 < size ∧ size ≤ bs.length then some (bs.take size, bs.drop size) else none

theorem fread_append {as : List Uint8} (nonempty : as ≠ []) (bs : List Uint8) :
    fread as.length (as ++ bs) = some (as, bs) := by
  have pos := List.length_pos_of_ne_nil nonempty
  rw [fread, if_pos ⟨pos, by simp⟩, List.take_left, List.drop_left]

namespace CompressedFileReader

/-- The constructor for a header type of size `hdrSz`. -/
def «open» (hdrMagic : Uint64) (hdrSz : Nat) (file : List Uint8) : Option CompressedFileReader :=
  match fread sizeofLogCompHdr file with
  | none => none
  | some (compHdr, rest) =>
    if frontWord 64 8 compHdr ≠ hdrMagic then none
    else if frontWord 64 8 (compHdr.drop 16) ≠ BitVec.ofNat 64 hdrSz then none
    else match fread (frontWord 64 8 (compHdr.drop 16)).toNat rest with
      | none => none
      | some (hdr, rest) => some {
          mHdrBuf := hdr
          mDecompSize := frontWord 64 8 (compHdr.drop 24)
          compressed := frontWord 64 8 (compHdr.drop 8) ≠ 0
          rest }

/-- `read()`: everything. -/
def read (zstd : Zstd) (f : CompressedFileReader) : Option (List Uint8) :=
  if f.compressed then
    if f.mDecompSize = 0 then some [] else zstd.decompress f.rest f.mDecompSize.toNat
  else (fread f.mDecompSize.toNat f.rest).map Prod.fst

end CompressedFileReader

namespace CompressedFile

/-- The header with this value in its last field. -/
def compHdrOf (f : CompressedFile) (size : Uint64) : List Uint8 :=
  wordBytes 8 f.hdrMagic ++ wordBytes 8 f.isCompressed ++
    wordBytes 8 (BitVec.ofNat 64 f.mHdrBuf.length) ++ wordBytes 8 size

theorem compHdr_eq (f : CompressedFile) : f.compHdr = f.compHdrOf f.decompressedSize := rfl

theorem length_compHdrOf (f : CompressedFile) (size : Uint64) :
    (f.compHdrOf size).length = sizeofLogCompHdr := by
  simp [compHdrOf, sizeofLogCompHdr]

theorem length_compHdr (f : CompressedFile) : f.compHdr.length = sizeofLogCompHdr :=
  f.length_compHdrOf _

theorem compHdrOf_fields (f : CompressedFile) (size : Uint64) :
    frontWord 64 8 (f.compHdrOf size) = f.hdrMagic ∧
    frontWord 64 8 ((f.compHdrOf size).drop 8) = f.isCompressed ∧
    frontWord 64 8 ((f.compHdrOf size).drop 16) = BitVec.ofNat 64 f.mHdrBuf.length ∧
    frontWord 64 8 ((f.compHdrOf size).drop 24) = size := by
  have skip : ∀ (x : Uint64) (bs : List Uint8), (wordBytes 8 x ++ bs).drop 8 = bs :=
    fun x bs => List.drop_left' (length_wordBytes 8 x)
  have fits : 256 ^ 8 = 2 ^ 64 := by decide
  have last : ∀ x : Uint64, frontWord 64 8 (wordBytes 8 x) = x := fun x => by
    rw [← List.append_nil (wordBytes 8 x), frontWord_wordBytes fits]
  simp only [compHdrOf, List.append_assoc]
  refine ⟨frontWord_wordBytes fits _, ?_, ?_, ?_⟩
  · rw [skip, frontWord_wordBytes fits]
  · rw [show 16 = 8 + 8 by rfl, ← List.drop_drop, skip, skip, frontWord_wordBytes fits]
  · rw [show 24 = 8 + 8 + 8 by rfl, ← List.drop_drop, ← List.drop_drop, skip, skip, skip, last]

theorem compHdr_fields (f : CompressedFile) :
    frontWord 64 8 f.compHdr = f.hdrMagic ∧ frontWord 64 8 (f.compHdr.drop 8) = f.isCompressed ∧
    frontWord 64 8 (f.compHdr.drop 16) = BitVec.ofNat 64 f.mHdrBuf.length ∧
    frontWord 64 8 (f.compHdr.drop 24) = f.decompressedSize :=
  f.compHdrOf_fields f.decompressedSize

def reader (zstd : Zstd) (f : CompressedFile) : CompressedFileReader where
  mHdrBuf := f.mHdrBuf
  mDecompSize := f.decompressedSize
  compressed := f.isCompressed ≠ 0
  rest := f.body zstd

/-- A file whose header is there is opened, whatever its size field says and what follows. -/
theorem open_front {f : CompressedFile} (hdr : f.mHdrBuf ≠ []) (small : f.mHdrBuf.length < 2 ^ 64)
    (size : Uint64) (rest : List Uint8) : CompressedFileReader.open f.hdrMagic f.mHdrBuf.length
      (f.compHdrOf size ++ (f.mHdrBuf ++ rest)) = some {
        mHdrBuf := f.mHdrBuf
        mDecompSize := size
        compressed := f.isCompressed ≠ 0
        rest } := by
  obtain ⟨magic, isCompressed, hdrSize, decompSize⟩ := f.compHdrOf_fields size
  have length := f.length_compHdrOf size
  have first := fread_append (List.ne_nil_of_length_pos (by rw [length]; decide)) (f.mHdrBuf ++ rest)
  rw [length] at first
  have exact : (BitVec.ofNat 64 f.mHdrBuf.length).toNat = f.mHdrBuf.length := by
    rw [BitVec.toNat_ofNat, Nat.mod_eq_of_lt small]
  rw [CompressedFileReader.open, first]
  simp only [magic, isCompressed, hdrSize, decompSize, exact, fread_append hdr, ne_eq, not_true,
    if_false]

theorem open_close (zstd : Zstd) {f : CompressedFile} (hdr : f.mHdrBuf ≠ [])
    (small : f.mHdrBuf.length < 2 ^ 64) :
    CompressedFileReader.open f.hdrMagic f.mHdrBuf.length (f.close zstd) =
      some (f.reader zstd) := open_front hdr small f.decompressedSize (f.body zstd)

/-- The whole body is read back; an empty one only if it is compressed. -/
theorem read_reader (zstd : Zstd) {f : CompressedFile} (fits : f.written.length < 2 ^ 64) :
    (f.reader zstd).read zstd =
      if f.level = 0 ∧ f.written = [] then none else some f.written := by
  have size : f.decompressedSize.toNat = f.written.length := by
    rw [decompressedSize, BitVec.toNat_ofNat, Nat.mod_eq_of_lt fits]
  by_cases plain : f.level = 0
  · simp only [CompressedFileReader.read, reader, isCompressed, body, plain, size, ne_eq, not_true,
      if_false, decide_false, Bool.false_eq_true, true_and]
    split
    · rename_i empty
      rw [empty]
      rfl
    · rename_i nonempty
      have whole := fread_append nonempty []
      rw [List.append_nil] at whole
      rw [whole]
      rfl
  · have whole := zstd.roundTrip f.level f.pieces
    rw [← written] at whole
    have flag : decide ((1 : Uint64) ≠ 0) = true := by decide
    simp only [CompressedFileReader.read, reader, isCompressed, body, if_pos plain, size, plain,
      flag, if_true, false_and, if_false, whole]
    split
    · rename_i zero
      have empty : f.written.length = 0 := by rw [← size, zero]; rfl
      rw [List.eq_nil_of_length_eq_zero empty]
    · rfl

end CompressedFile

end XnuTrace
