import XnuTrace.CompressedFile

/-! The records of `meta.bin` and the headers of the saved files. -/
namespace XnuTrace
open Memory

abbrev Sha256 := Vector Uint8 32

structure LogRegion where
  base : Uint64
  size : Uint64
  slide : Uint64
  uuid : Vector Uint8 16
  digestSha256 : Sha256
  isJit : Uint64
  pathLen : Uint64

namespace LogRegion

def sizeofLogRegion : Nat := 88

def bytes (r : LogRegion) : List Uint8 :=
  wordBytes 8 r.base ++ wordBytes 8 r.size ++ wordBytes 8 r.slide ++ r.uuid.toList ++
    r.digestSha256.toList ++ wordBytes 8 r.isJit ++ wordBytes 8 r.pathLen

def load (m : Nat → Uint8) (p : Nat) : LogRegion where
  base := loadWord 64 8 m p
  size := loadWord 64 8 m (p + 8)
  slide := loadWord 64 8 m (p + 16)
  uuid := .ofFn fun i => m (p + 24 + i)
  digestSha256 := .ofFn fun i => m (p + 40 + i)
  isJit := loadWord 64 8 m (p + 72)
  pathLen := loadWord 64 8 m (p + 80)

theorem length_bytes (r : LogRegion) : r.bytes.length = sizeofLogRegion := by
  simp only [bytes, List.length_append, length_wordBytes, Vector.length_toList, sizeofLogRegion]

theorem load_bytes {r : LogRegion} {m : Nat → Uint8} {p : Nat} (holds : Holds m p r.bytes) :
    load m p = r := by
  simp only [bytes, holds_append, List.length_append, length_wordBytes, Vector.length_toList]
    at holds
  obtain ⟨⟨⟨⟨⟨⟨base, size⟩, slide⟩, uuid⟩, digest⟩, isJit⟩, pathLen⟩ := holds
  have sameUuid : (load m p).uuid = r.uuid := by
    apply Vector.ext
    intro i hi
    have byte := uuid i (by simpa using hi)
    rw [Vector.getElem_toList] at byte
    exact (Vector.getElem_ofFn _).trans byte
  have sameDigest : (load m p).digestSha256 = r.digestSha256 := by
    apply Vector.ext
    intro i hi
    have byte := digest i (by simpa using hi)
    rw [Vector.getElem_toList] at byte
    exact (Vector.getElem_ofFn _).trans byte
  have sameBase : (load m p).base = r.base := loadWord_wordBytes (by decide) base
  have sameSize : (load m p).size = r.size := loadWord_wordBytes (by decide) size
  have sameSlide : (load m p).slide = r.slide := loadWord_wordBytes (by decide) slide
  have sameJit : (load m p).isJit = r.isJit := loadWord_wordBytes (by decide) isJit
  have sameLen : (load m p).pathLen = r.pathLen := loadWord_wordBytes (by decide) pathLen
  cases r
  cases read : load m p
  simp_all

end LogRegion

structure LogSym where
  base : Uint64
  size : Uint64
  nameLen : Uint64
  pathLen : Uint64

namespace LogSym

def sizeofLogSym : Nat := 32

def bytes (s : LogSym) : List Uint8 :=
  wordBytes 8 s.base ++ wordBytes 8 s.size ++ wordBytes 8 s.nameLen ++ wordBytes 8 s.pathLen

def load (m : Nat → Uint8) (p : Nat) : LogSym where
  base := loadWord 64 8 m p
  size := loadWord 64 8 m (p + 8)
  nameLen := loadWord 64 8 m (p + 16)
  pathLen := loadWord 64 8 m (p + 24)

theorem length_bytes (s : LogSym) : s.bytes.length = sizeofLogSym := by
  simp only [bytes, List.length_append, length_wordBytes, sizeofLogSym]

theorem load_bytes {s : LogSym} {m : Nat → Uint8} {p : Nat} (holds : Holds m p s.bytes) :
    load m p = s := by
  simp only [bytes, holds_append, List.length_append, length_wordBytes] at holds
  obtain ⟨⟨⟨base, size⟩, nameLen⟩, pathLen⟩ := holds
  have sameBase : (load m p).base = s.base := loadWord_wordBytes (by decide) base
  have sameSize : (load m p).size = s.size := loadWord_wordBytes (by decide) size
  have sameName : (load m p).nameLen = s.nameLen := loadWord_wordBytes (by decide) nameLen
  have samePath : (load m p).pathLen = s.pathLen := loadWord_wordBytes (by decide) pathLen
  cases s
  cases read : load m p
  simp_all

end LogSym

def logMetaHdrMagic : Uint64 := 0x8d3adfb84154454d

def logMetaHdr (numRegions numSyms : Uint64) : List Uint8 :=
  wordBytes 8 numRegions ++ wordBytes 8 numSyms

def logMachoRegionHdrMagic : Uint64 := 0x8d3adfb84843414d

def logThreadHdrMagic : Uint64 := 0x8d3adfb844524854

def logThreadHdr (threadId numInst : Uint64) : List Uint8 :=
  wordBytes 8 threadId ++ wordBytes 8 numInst

/-- The second word of a header of two words. -/
def secondWord (hdr : List Uint8) : Uint64 := frontWord 64 8 (hdr.drop 8)

theorem twoWords (a b : Uint64) : frontWord 64 8 (wordBytes 8 a ++ wordBytes 8 b) = a ∧
    secondWord (wordBytes 8 a ++ wordBytes 8 b) = b := by
  have fits : 256 ^ 8 = 2 ^ 64 := by decide
  refine ⟨frontWord_wordBytes fits _, ?_⟩
  rw [secondWord, List.drop_left' (length_wordBytes 8 a), ← List.append_nil (wordBytes 8 b),
    frontWord_wordBytes fits]

end XnuTrace
