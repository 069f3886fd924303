import XnuTrace.CallsFrom

/-! `write_drcov_coverage`: a table of the regions and one record for each basic block, whose
module number and offset find the block again. The size of a block has 32 bits, that of its
record 16; the base for the offset is read through the dangling reference of `lookup_idx`. -/
namespace XnuTrace
open Memory FallibleMap

structure DrcovBb where
  modOff : Uint32
  sz : Uint16
  modId : Uint16
deriving DecidableEq

/-- The packed record. -/
def DrcovBb.bytes (dbb : DrcovBb) : List Uint8 :=
  wordBytes 4 dbb.modOff ++ wordBytes 2 dbb.sz ++ wordBytes 2 dbb.modId

/-- A row of the module table: what is printed for `entry`, `checksum` and `timestamp` is 0. -/
structure DrcovModule where
  id : Nat
  base : Uint64
  stop : Uint64
  path : List Uint8

/-- `{:#018x}`: all 16 digits of a word. -/
def hexWord (x : Uint64) : List Uint8 := ascii "0x" ++ (wordBytes 8 x).reverse.flatMap hexByte

namespace DrcovModule

/-- The line of the table, its first column three wide. -/
def row (bin : DrcovModule) : List Uint8 :=
  List.replicate (3 - (decimal bin.id).length) 0x20 ++ decimal bin.id ++ ascii ", " ++
    hexWord bin.base ++ ascii ", " ++ hexWord bin.stop ++ ascii ", 0, 0, 0, " ++ bin.path ++
    ascii "\n"

end DrcovModule

/-- What goes into the file. -/
structure DrcovFile where
  modules : List DrcovModule
  bbs : List DrcovBb

namespace DrcovFile
variable (file : DrcovFile)

def bytes : List Uint8 :=
  ascii "DRCOV VERSION: 2\nDRCOV FLAVOR: xnutrace\nModule Table: version 2, count " ++
    decimal file.modules.length ++
    ascii "\nColumns: id, base, end, entry, checksum, timestamp, path\n" ++
    file.modules.flatMap DrcovModule.row ++ ascii "BB Table: " ++ decimal file.bbs.length ++
    ascii " bbs\n" ++ file.bbs.flatMap DrcovBb.bytes

/-- Where the block of a record begins, by the row of its module. -/
def startOf (dbb : DrcovBb) : Option Uint64 :=
  (file.modules.find? fun bin => bin.id = dbb.modId.toNat).map fun bin =>
    bin.base + dbb.modOff.setWidth 64

/-- The addresses that the records cover. -/
def covered : Set Uint64 :=
  { addr | ∃ dbb ∈ file.bbs, ∃ start ∈ file.startOf dbb, ∃ k < dbb.sz.toNat,
    addr = start + BitVec.ofNat 64 k }

end DrcovFile

section
variable (m : MachORegions)

/-- The rows are numbered as the regions are. -/
def drcovModules : List DrcovModule :=
  m.mRegions.zipIdx.map fun (bin, i) =>
    { id := i, base := bin.base, stop := bin.base + bin.size, path := bin.path }

/-- `dead` is what the reference of `lookup_idx` refers to. -/
def drcovBb (dead : ImageInfo) (bb : Bb) : Option DrcovBb := do
  let (imgInfo, idx) ← m.lookupIdx dead bb.pc
  return {
    modOff := (bb.pc - imgInfo.base).setWidth 32
    sz := bb.sz.setWidth 16
    modId := BitVec.ofNat 16 idx }

/-- The blocks of each parsed log, one after the other; `dead k` for the block of number `k`. -/
def writeDrcovCoverage (dead : Nat → ImageInfo) (tbbs : List (List Bb)) : Option DrcovFile := do
  let bbs ← tbbs.flatten.zipIdx.mapM fun (bb, k) => drcovBb m (dead k) bb
  return { modules := drcovModules m, bbs }

end

/-- The addresses of the blocks. -/
def coveredBbs (bbs : List Bb) : Set Uint64 :=
  { addr | ∃ bb ∈ bbs, ∃ k < bb.sz.toNat, addr = bb.pc + BitVec.ofNat 64 k }

/-- The record finds the block again and has its size. -/
def DrcovFile.StandsFor (file : DrcovFile) (bb : Bb) (dbb : DrcovBb) : Prop :=
  file.startOf dbb = some bb.pc ∧ dbb.sz.toNat = bb.sz.toNat

/-- Each record stands for its block, and together they cover what the blocks cover. -/
def DrcovCovers (m : MachORegions) (dead : Nat → ImageInfo) (tbbs : List (List Bb)) : Prop :=
  ∃ file, writeDrcovCoverage m dead tbbs = some file ∧
    List.Forall₂ file.StandsFor tbbs.flatten file.bbs ∧ file.covered = coveredBbs tbbs.flatten

/-- In place of the dead copy there still is the base of the region, as far as an offset of 32
bits shows it. -/
def BaseStands (m : MachORegions) (dead : ImageInfo) (addr : Uint64) : Prop :=
  ∀ imgInfo ∈ m.lookup addr, dead.base.setWidth 32 = imgInfo.1.base.setWidth 32

section
variable {m : MachORegions} {dead : Nat → ImageInfo} {tbbs : List (List Bb)}

/-- A region that is found contains the address, and stands at its position. -/
theorem MachORegions.lookup_spec {addr : Uint64} {imgInfo : ImageInfo} {idx : Nat}
    (found : m.lookup addr = some (imgInfo, idx)) : m.mRegions[idx]? = some imgInfo ∧
      imgInfo.base.toNat ≤ addr.toNat ∧ (addr - imgInfo.base).toNat < imgInfo.size.toNat := by
  have member := List.mem_of_find?_eq_some found
  have contains := List.find?_some found
  obtain ⟨low, high⟩ := of_decide_eq_true contains
  refine ⟨List.mem_zipIdx_iff_getElem?.mp member, low, ?_⟩
  clear found member contains
  bv_omega

theorem find?_drcovModules {idx : Nat} {imgInfo : ImageInfo}
    (stored : m.mRegions[idx]? = some imgInfo) : ∃ bin,
      (drcovModules m).find? (fun bin => bin.id = idx) = some bin ∧ bin.base = imgInfo.base := by
  have row : ∃ bin ∈ drcovModules m, decide (bin.id = idx) = true :=
    ⟨_, List.mem_map_of_mem (List.mk_mem_zipIdx_iff_getElem?.mpr stored), decide_eq_true rfl⟩
  obtain ⟨bin, found⟩ := Option.isSome_iff_exists.mp (List.find?_isSome.mpr row)
  refine ⟨bin, found, ?_⟩
  obtain ⟨⟨region, i⟩, member, rfl⟩ := List.mem_map.mp (List.mem_of_find?_eq_some found)
  have numbered := List.find?_some found
  obtain rfl : i = idx := of_decide_eq_true numbered
  rw [Option.some.inj ((List.mk_mem_zipIdx_iff_getElem?.mp member).symm.trans stored)]

/-- An offset of 32 bits leads from the base of the region to the address exactly if it was taken
from a base that has the same low half. -/
theorem base_add_modOff_eq_iff {base seen pc : Uint64} (within : (pc - base).toNat < 2 ^ 32) :
    base + ((pc - seen).setWidth 32).setWidth 64 = pc ↔
      seen.setWidth 32 = base.setWidth 32 := by
  have off : base + ((pc - seen).setWidth 32).setWidth 64 = pc ↔
      ((pc - seen).setWidth 32).setWidth 64 = pc - base := by
    constructor
    · intro start
      rw [BitVec.eq_sub_iff_add_eq, BitVec.add_comm, start]
    · intro same
      rw [same, BitVec.add_comm, BitVec.sub_add_cancel]
  rw [off, ← BitVec.toNat_inj, ← BitVec.toNat_inj]
  simp only [BitVec.toNat_setWidth, BitVec.toNat_sub] at *
  omega

/-- With few and small regions a record finds the start of its block again exactly if the base
still stands where it is read; of the size it has the low half. -/
theorem drcovBb_spec (few : m.mRegions.length < 2 ^ 16)
    (small : ∀ r ∈ m.mRegions, r.size.toNat < 2 ^ 32) {bb : Bb}
    (inRegion : (m.lookup bb.pc).isSome) (dead : ImageInfo) :
    ∃ dbb, drcovBb m dead bb = some dbb ∧ dbb.sz.toNat = bb.sz.toNat % 2 ^ 16 ∧
      ∀ bbs, DrcovFile.startOf { modules := drcovModules m, bbs } dbb = some bb.pc ↔
        BaseStands m dead bb.pc := by
  obtain ⟨⟨imgInfo, idx⟩, found⟩ := Option.isSome_iff_exists.mp inRegion
  obtain ⟨stored, low, within⟩ := MachORegions.lookup_spec found
  obtain ⟨bound, here⟩ := List.getElem?_eq_some_iff.mp stored
  have size := small imgInfo (here ▸ List.getElem_mem bound)
  refine ⟨_, by rw [drcovBb, MachORegions.lookupIdx_eq, found]; rfl, BitVec.toNat_setWidth ..,
    fun bbs => ?_⟩
  have id : (BitVec.ofNat 16 idx).toNat = idx := by
    rw [BitVec.toNat_ofNat, Nat.mod_eq_of_lt (by omega)]
  obtain ⟨bin, row, base⟩ := find?_drcovModules stored
  rw [DrcovFile.startOf, id, row, Option.map_some, base, Option.some.injEq,
    base_add_modOff_eq_iff (within.trans size), BaseStands, found]
  simp only [Option.mem_def, Option.some.injEq, forall_eq']

/-- The whole file: each record of a block finds its start as `BaseStands` says, with the size cut
down to 16 bits. -/
theorem writeDrcovCoverage_spec (few : m.mRegions.length < 2 ^ 16)
    (small : ∀ r ∈ m.mRegions, r.size.toNat < 2 ^ 32)
    (inRegions : ∀ bbs ∈ tbbs, ∀ bb ∈ bbs, (m.lookup bb.pc).isSome) (dead : Nat → ImageInfo) :
    ∃ file, writeDrcovCoverage m dead tbbs = some file ∧
      List.Forall₂ (fun (bb : Bb × Nat) dbb => dbb.sz.toNat = bb.1.sz.toNat % 2 ^ 16 ∧
        (file.startOf dbb = some bb.1.pc ↔ BaseStands m (dead bb.2) bb.1.pc))
        tbbs.flatten.zipIdx file.bbs := by
  have each : ∀ bb ∈ tbbs.flatten.zipIdx, (m.lookup bb.1.pc).isSome := by
    intro bb member
    obtain ⟨bbs, inThreads, member⟩ := List.mem_flatten.mp (List.fst_mem_of_mem_zipIdx member)
    exact inRegions bbs inThreads bb.1 member
  obtain ⟨dbbs, written, stand⟩ := exists_mapM fun bb h =>
    drcovBb_spec few small (each bb h) (dead bb.2)
  refine ⟨{ modules := drcovModules m, bbs := dbbs }, ?_, stand.imp ?_⟩
  · rw [writeDrcovCoverage, written]
    rfl
  · rintro bb dbb ⟨size, start⟩
    exact ⟨size, start dbbs⟩

/-- Records that stand for their blocks cover what these cover. -/
theorem covered_eq {file : DrcovFile} {blocks : List Bb}
    (stand : List.Forall₂ file.StandsFor blocks file.bbs) : file.covered = coveredBbs blocks := by
  ext addr
  constructor
  · rintro ⟨dbb, member, start, first, k, inside, rfl⟩
    obtain ⟨bb, inBlocks, start', size⟩ := exists_of_forall₂ stand.flip member
    cases first.symm.trans start'
    exact ⟨bb, inBlocks, k, size ▸ inside, rfl⟩
  · rintro ⟨bb, member, k, inside, rfl⟩
    obtain ⟨dbb, inFile, start, size⟩ := exists_of_forall₂ stand member
    exact ⟨dbb, inFile, bb.pc, start, k, size.symm ▸ inside, rfl⟩

/-- Every record stands for its block exactly if no block has 2^16 bytes or more and, whenever
`lookup_idx` has returned, the base of the region still stands where its copy was. -/
theorem drcovCovers_iff (few : m.mRegions.length < 2 ^ 16)
    (small : ∀ r ∈ m.mRegions, r.size.toNat < 2 ^ 32)
    (inRegions : ∀ bbs ∈ tbbs, ∀ bb ∈ bbs, (m.lookup bb.pc).isSome) (dead : Nat → ImageInfo) :
    DrcovCovers m dead tbbs ↔ ∀ (k : Nat) (bb : Bb), tbbs.flatten[k]? = some bb →
      bb.sz.toNat < 2 ^ 16 ∧ BaseStands m (dead k) bb.pc := by
  obtain ⟨file, written, made⟩ := writeDrcovCoverage_spec few small inRegions dead
  have blocks : tbbs.flatten.zipIdx.map Prod.fst = tbbs.flatten := List.zipIdx_map_fst _ _
  constructor
  · rintro ⟨file', written', stand, _⟩ k bb stored
    cases written.symm.trans written'
    rw [← blocks, List.forall₂_map_left_iff] at stand
    have fits : List.Forall₂ (fun (bb : Bb × Nat) _ => bb.1.sz.toNat < 2 ^ 16 ∧
        BaseStands m (dead bb.2) bb.1.pc) tbbs.flatten.zipIdx file.bbs := by
      refine List.Forall₂.mp ?_ stand made
      rintro bb dbb ⟨start, size⟩ ⟨-, base⟩
      exact ⟨size ▸ dbb.sz.isLt, base.mp start⟩
    obtain ⟨_, _, fits⟩ := exists_of_forall₂ fits (List.mk_mem_zipIdx_iff_getElem?.mpr stored)
    exact fits
  · intro fits
    have stand : List.Forall₂ file.StandsFor tbbs.flatten file.bbs := by
      rw [← blocks, List.forall₂_map_left_iff]
      have numbered : ∀ bb ∈ tbbs.flatten.zipIdx,
          bb.1.sz.toNat < 2 ^ 16 ∧ BaseStands m (dead bb.2) bb.1.pc := fun bb member =>
        fits bb.2 bb.1 (List.mem_zipIdx_iff_getElem?.mp member)
      refine ((List.forall₂_and_left _ _).mpr ⟨numbered, made⟩).imp ?_
      rintro bb dbb ⟨⟨short, stands⟩, size, base⟩
      exact ⟨base.mpr stands, size.trans (Nat.mod_eq_of_lt short)⟩
    exact ⟨file, written, stand, covered_eq stand⟩

end

/-- The dead copies still stand: both sides hold. -/
theorem drcovCovers_iff_two :
    let dead : Nat → ImageInfo := fun k => twoImages.mRegions.getD k (zeroJitRegion 0 "")
    let tbbs : List (List Bb) := [[⟨0x100000000, 8⟩], [⟨0x100008000, 4⟩]]
    (DrcovCovers twoImages dead tbbs ↔ ∀ (k : Nat) (bb : Bb), tbbs.flatten[k]? = some bb →
      bb.sz.toNat < 2 ^ 16 ∧ BaseStands twoImages (dead k) bb.pc) ∧
    DrcovCovers twoImages dead tbbs := by
  intro dead tbbs
  have exact := @drcovCovers_iff twoImages tbbs (by decide) (by decide) (by decide) dead
  refine ⟨exact, exact.mpr fun k bb stored => ?_⟩
  have blocks : k = 0 ∧ bb = ⟨0x100000000, 8⟩ ∨ k = 1 ∧ bb = ⟨0x100008000, 4⟩ := by
    rcases k with _ | _ | k
    · exact .inl ⟨rfl, (Option.some.inj stored).symm⟩
    · exact .inr ⟨rfl, (Option.some.inj stored).symm⟩
    · cases stored
  rcases blocks with ⟨rfl, rfl⟩ | ⟨rfl, rfl⟩
  · exact ⟨by decide, by rintro imgInfo ⟨⟩; rfl⟩
  · exact ⟨by decide, by rintro imgInfo ⟨⟩; rfl⟩

/-- An image of 17 pages. -/
def longImage : MachORegions := .holding
  [{ zeroJitRegion 0x100000000 "/tmp/caller" with
      size := 0x11000, bytes := .replicate 0x11000 0, isJit := false
      digest := #v[0xb5, 0x82, 0x20, 0x48, 0x39, 0x7c, 0xfb, 0x7e, 0x72, 0x44, 0x3f, 0xbe, 0x3f,
        0x37, 0xfb, 0x07, 0xbb, 0xd0, 0xb3, 0x97, 0xc1, 0x11, 0x77, 0xcf, 0xd7, 0x1c, 0xf7, 0x68,
        0xd4, 0x4e, 0x92, 0x4a] }]

/-- One run of 16385 instructions: its record has a size of 4 bytes, whatever base is read. -/
theorem not_drcovCovers_long :
    createHash (jevhash32 0x85EBCA77) stableSort longImage.mRegions = .ok longImage.mPa2buf ∧
      ∀ dead, ¬ DrcovCovers longImage dead [[⟨0x100000000, 65540⟩]] := by
  refine ⟨MachORegions.hashed_holding (by decide +kernel), fun dead covers => ?_⟩
  have fits := (drcovCovers_iff (by decide) (by decide) (by decide) dead).mp covers
  exact absurd (fits 0 ⟨0x100000000, 65540⟩ rfl).1 (by decide)

end XnuTrace
