import XnuTrace.MachORegions

/-! `Symbols` as `TraceLog` saves and reloads them. -/
namespace XnuTrace
open Memory

structure SymInfo where
  base : Uint64
  size : Uint64
  name : List Uint8
  path : List Uint8
deriving DecidableEq

/-- `overlap_find` of the interval tree: whether some interval overlaps the given one. -/
abbrev OverlapFind := List (Uint64 × Uint64) → Uint64 × Uint64 → Bool

def getSymbolsInIntervals (overlapFind : OverlapFind) (sortSyms : BaseSort SymInfo SymInfo.base)
    (syms : List SymInfo) (intervals : List (Uint64 × Uint64)) : List SymInfo :=
  sortSyms.1 (syms.filter fun sym => overlapFind intervals (sym.base, sym.base + sym.size))

/-- The loop over the records from `p` on. -/
def readSyms (mem : Nat → Uint8) : Nat → Nat → List SymInfo
  | 0, _ => []
  | n + 1, p =>
    let sym := LogSym.load mem p
    let name := slice mem (p + LogSym.sizeofLogSym) sym.nameLen.toNat
    let path := slice mem (p + LogSym.sizeofLogSym + sym.nameLen.toNat) sym.pathLen.toNat
    { base := sym.base, size := sym.size, name, path } ::
      readSyms mem n (p + LogSym.sizeofLogSym + sym.nameLen.toNat + sym.pathLen.toNat)

structure Symbols where
  mSyms : List SymInfo

/-- `Symbols(const log_sym *, uint64_t)`. -/
def Symbols.ofBuf (sortSyms : BaseSort SymInfo SymInfo.base) (mem : Nat → Uint8)
    (symBuf numSyms : Nat) : Symbols :=
  { mSyms := sortSyms.1 (readSyms mem numSyms symBuf) }

namespace SymInfo

def logSym (s : SymInfo) : LogSym where
  base := s.base
  size := s.size
  nameLen := BitVec.ofNat 64 s.name.length
  pathLen := BitVec.ofNat 64 s.path.length

/-- The record that `TraceLog::write` makes of a symbol, with its texts. -/
def record (s : SymInfo) : List Uint8 := s.logSym.bytes ++ s.name ++ s.path

end SymInfo

theorem readSyms_eq {mem : Nat → Uint8} {syms : List SymInfo} {p : Nat}
    (holds : Holds mem p (syms.flatMap SymInfo.record))
    (small : (syms.flatMap SymInfo.record).length < 2 ^ 64) :
    readSyms mem syms.length p = syms := by
  induction syms generalizing p with
  | nil => rfl
  | cons s syms ih =>
    rw [List.flatMap_cons, SymInfo.record] at holds small
    obtain ⟨⟨⟨header, name⟩, path⟩, rest⟩ := by
      simpa only [holds_append, List.length_append, LogSym.length_bytes] using holds
    simp only [List.length_append] at small
    have nameLen : s.logSym.nameLen.toNat = s.name.length := by
      change (BitVec.ofNat 64 s.name.length).toNat = _
      rw [BitVec.toNat_ofNat, Nat.mod_eq_of_lt (by omega)]
    have pathLen : s.logSym.pathLen.toNat = s.path.length := by
      change (BitVec.ofNat 64 s.path.length).toNat = _
      rw [BitVec.toNat_ofNat, Nat.mod_eq_of_lt (by omega)]
    rw [← Nat.add_assoc] at path
    rw [← Nat.add_assoc, ← Nat.add_assoc] at rest
    rw [List.length_cons, readSyms]
    simp only [LogSym.load_bytes header, nameLen, pathLen, slice_eq name, slice_eq path,
      ih rest (by omega)]
    rfl

end XnuTrace
