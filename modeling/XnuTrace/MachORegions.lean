import XnuTrace.MetaRecords
import XnuTrace.MinimalPerfectHash

/-! `MachORegions` as `TraceLog` saves and reloads them: the file of a region is named
after its path and the front of its digest, its bytes are found again by the whole
digest, and each page of the loaded regions is entered into a minimal perfect hash. -/
namespace XnuTrace
open Memory MinimalPerfectHash

def ascii (s : String) : List Uint8 := s.toList.map fun c => BitVec.ofNat 8 c.toNat

/-- What the file functions see of a name: it ends at the first NUL. -/
def cStr (name : List Uint8) : List Uint8 := name.takeWhile (· ≠ 0)

/-- `path.filename().string()`: what follows the last slash. -/
def filename (path : List Uint8) : List Uint8 := (path.reverse.takeWhile (· ≠ 0x2f)).reverse

def hexDigit (n : Nat) : Uint8 := BitVec.ofNat 8 (if n < 10 then 0x30 + n else 0x57 + n)

/-- `{:02x}`. -/
def hexByte (b : Uint8) : List Uint8 := [hexDigit (b.toNat / 16), hexDigit (b.toNat % 16)]

/-- `{:d}`. -/
def decimal (n : Nat) : List Uint8 := (Nat.toDigits 10 n).map fun c => BitVec.ofNat 8 c.toNat

/-- The digits tell the number. -/
theorem decimal_injective : Function.Injective decimal := by
  intro m n same
  have digits : ∀ n : Nat, (decimal n).map (fun b : Uint8 => Char.ofNat b.toNat) =
      Nat.toDigits 10 n := by
    intro n
    rw [decimal, List.map_map]
    refine (List.map_congr_left fun c member => ?_).trans (List.map_id _)
    have digit := Nat.isDigit_of_mem_toDigits (by decide) (by decide) member
    simp only [Char.isDigit, Bool.and_eq_true, decide_eq_true_eq] at digit
    have small : c.toNat < 2 ^ 8 := lt_of_le_of_lt (UInt32.le_iff_toNat_le.mp digit.2) (by decide)
    rw [Function.comp_apply, BitVec.toNat_ofNat, Nat.mod_eq_of_lt small, Char.ofNat_toNat, id]
  have numbers := congrArg (Nat.ofDigitChars 10 · 0) ((digits m).symm.trans (same ▸ digits n))
  simpa only [Nat.ofDigitChars_ten_toDigits] using numbers

structure ImageInfo where
  base : Uint64
  size : Uint64
  slide : Uint64
  path : List Uint8
  uuid : Vector Uint8 16
  bytes : List Uint8
  digest : Sha256
  isJit : Bool
deriving DecidableEq

def machoRegionPrefix : List Uint8 := ascii "macho-region-"

def ImageInfo.logPath (r : ImageInfo) : List Uint8 :=
  machoRegionPrefix ++ filename r.path ++ ascii "-" ++ (r.digest.toList.take 4).flatMap hexByte ++
    ascii ".bin"

/-- `std::sort` of records that compare by their base; equal bases may end in any order. -/
abbrev BaseSort (α : Type) (base : α → Uint64) :=
  { sort : List α → List α // ∀ l, (sort l).Perm l ∧ (sort l).Pairwise fun a b => base a ≤ base b }

/-- `mph_map_static`. -/
structure MphMapStatic (w : Nat) (V : Type) where
  mMph : MinimalPerfectHash
  mValues : List V

def MphMapStatic.build (hash : Hasher) (sortBuckets : List (Bucket w) → List (Bucket w)) (null : V)
    (keyVals : List (BitVec w × V)) : Except BuildFailure (MphMapStatic w V) := do
  let mMph ← MinimalPerfectHash.build hash sortBuckets { mSalts := [], mNkeys := 0 }
    (keyVals.map Prod.fst)
  let mValues := keyVals.foldl (fun values kv => values.set (mMph.apply hash kv.1) kv.2)
    (.replicate keyVals.length null)
  return { mMph, mValues }

def pageSz : Nat := 4 * 1024

def pageSzLog2 : Nat := 12

/-- The page numbers of a region; a pointer into its bytes is what lies behind it. -/
def ImageInfo.pages (r : ImageInfo) : List (Uint64 × List Uint8) :=
  (List.range ((r.size.toNat + (pageSz - 1)) / pageSz)).map fun i =>
    ((r.base + BitVec.ofNat 64 (i * pageSz)) >>> pageSzLog2, r.bytes.drop (i * pageSz))

def overridePage (pa2buf : List (Uint64 × List Uint8)) (page : Uint64 × List Uint8) :
    List (Uint64 × List Uint8) :=
  match pa2buf.findIdx? (·.1 == page.1) with
  | some i => pa2buf.set i page
  | none => pa2buf ++ [page]

def pa2bufVec (regions : List ImageInfo) : List (Uint64 × List Uint8) :=
  let base := (regions.filter fun r => !r.isJit).flatMap ImageInfo.pages
  -- jit regions override base regions
  ((regions.filter (·.isJit)).flatMap ImageInfo.pages).foldl overridePage base

def createHash (hash : Hasher) (sortBuckets : List (Bucket 64) → List (Bucket 64))
    (regions : List ImageInfo) : Except BuildFailure (MphMapStatic 64 (List Uint8)) :=
  MphMapStatic.build hash sortBuckets [] (pa2bufVec regions)

/-- `std::map<sha256_t, std::vector<uint8_t>>`. -/
abbrev RegionsBytes := Sha256 → Option (List Uint8)

namespace RegionsBytes

/-- The first entry for a digest stays. -/
def emplace (m : RegionsBytes) (digest : Sha256) (bytes : List Uint8) : RegionsBytes :=
  if (m digest).isSome then m else Function.update m digest (some bytes)

/-- `std::move(m[digest])`, which leaves an empty vector behind. -/
def take (m : RegionsBytes) (digest : Sha256) : List Uint8 × RegionsBytes :=
  ((m digest).getD [], Function.update m digest (some []))

end RegionsBytes

structure MachORegions where
  mRegions : List ImageInfo
  mPa2buf : MphMapStatic 64 (List Uint8)

namespace MachORegions

/-- The loop over the records from `p` on. -/
def readRegions (mem : Nat → Uint8) : Nat → Nat → RegionsBytes → Option (List ImageInfo)
  | 0, _, _ => some []
  | n + 1, p, regionsBytes =>
    let region := LogRegion.load mem p
    let path := slice mem (p + LogRegion.sizeofLogRegion) region.pathLen.toNat
    let (bytes, regionsBytes) := regionsBytes.take region.digestSha256
    if bytes.length = region.size.toNat then
      (readRegions mem n (p + LogRegion.sizeofLogRegion + region.pathLen.toNat) regionsBytes).map
        ({ base := region.base, size := region.size, slide := region.slide, path,
           uuid := region.uuid, bytes, digest := region.digestSha256,
           isJit := region.isJit ≠ 0 } :: ·)
    else none

variable (hash : Hasher) (sortBuckets : List (Bucket 64) → List (Bucket 64))
  (sortRegions : BaseSort ImageInfo ImageInfo.base)

/-- `MachORegions(const log_region *, uint64_t, std::map &)`. -/
def ofBuf (mem : Nat → Uint8) (regionBuf numRegions : Nat) (regionsBytes : RegionsBytes) :
    Option MachORegions := do
  let regions ← readRegions mem numRegions regionBuf regionsBytes
  let mRegions := sortRegions.1 regions
  match createHash hash sortBuckets mRegions with
  | .error _ => none
  | .ok mPa2buf => some { mRegions, mPa2buf }

variable (m : MachORegions)

/-- `lookup(addr)`: a reference into `mRegions` is what it refers to and its position; `none` when
the assertion fails. -/
def lookup (addr : Uint64) : Option (ImageInfo × Nat) :=
  m.mRegions.zipIdx.find? fun imgInfo =>
    decide (imgInfo.1.base ≤ addr ∧ addr < imgInfo.1.base + imgInfo.1.size)

/-- `lookup_idx(addr)`. The reference in the pair is to the copy of the region that `make_pair`
makes, and the copy is gone when the pair is read: `dead` is what stands in its place then. -/
def lookupIdx (dead : ImageInfo) (addr : Uint64) : Option (ImageInfo × Nat) :=
  (m.mRegions.zipIdx.find? fun imgInfo =>
    decide (imgInfo.1.base ≤ addr ∧ addr < imgInfo.1.base + imgInfo.1.size)).map
      fun imgInfo => (dead, imgInfo.2)

theorem lookupIdx_eq (dead : ImageInfo) (addr : Uint64) :
    m.lookupIdx dead addr = (m.lookup addr).map fun imgInfo => (dead, imgInfo.2) := rfl

/-- `lookup(image_name)`; `none` unless there is one match. -/
def lookupImage (imageName : List Uint8) : Option (ImageInfo × Nat) :=
  match m.mRegions.zipIdx.filter fun imgInfo => filename imgInfo.1.path = imageName with
  | [imgInfo] => some imgInfo
  | _ => none

end MachORegions

/-! The records. -/

namespace ImageInfo

/-- The record that `TraceLog::write` makes of a region, without the path behind it. -/
def logRegion (r : ImageInfo) : LogRegion where
  base := r.base
  size := r.size
  slide := r.slide
  uuid := r.uuid
  digestSha256 := r.digest
  isJit := if r.isJit then 1 else 0
  pathLen := BitVec.ofNat 64 r.path.length

def record (r : ImageInfo) : List Uint8 := r.logRegion.bytes ++ r.path

end ImageInfo

/-- What the loop makes of the records of `regions`: their bytes come from the map. -/
def restore : List ImageInfo → RegionsBytes → Option (List ImageInfo)
  | [], _ => some []
  | r :: rs, m =>
    if (m.take r.digest).1.length = r.size.toNat then
      (restore rs (m.take r.digest).2).map ({ r with bytes := (m.take r.digest).1 } :: ·)
    else none

theorem readRegions_eq {mem : Nat → Uint8} {regions : List ImageInfo} {p : Nat}
    (m : RegionsBytes) (holds : Holds mem p (regions.flatMap ImageInfo.record))
    (small : (regions.flatMap ImageInfo.record).length < 2 ^ 64) :
    MachORegions.readRegions mem regions.length p m = restore regions m := by
  induction regions generalizing p m with
  | nil => rfl
  | cons r rs ih =>
    rw [List.flatMap_cons, ImageInfo.record] at holds small
    obtain ⟨⟨header, path⟩, rest⟩ := by
      simpa only [holds_append, List.length_append, LogRegion.length_bytes] using holds
    simp only [List.length_append] at small
    have size : r.logRegion.pathLen.toNat = r.path.length := by
      change (BitVec.ofNat 64 r.path.length).toNat = _
      rw [BitVec.toNat_ofNat, Nat.mod_eq_of_lt (by omega)]
    have flag : decide (r.logRegion.isJit ≠ 0) = r.isJit := by
      change decide ((if r.isJit then (1 : Uint64) else 0) ≠ 0) = r.isJit
      cases r.isJit <;> rfl
    rw [List.length_cons, MachORegions.readRegions, restore]
    simp only [LogRegion.load_bytes header, size, slice_eq path, flag]
    rw [← Nat.add_assoc] at rest
    rw [ih _ rest (by omega)]
    rfl

/-- Found bytes are moved out, so a second region with the same digest finds none. -/
theorem nodup_of_restore {regions out : List ImageInfo} {m : RegionsBytes}
    (sizes : ∀ r ∈ regions, r.size ≠ 0) (restored : restore regions m = some out) :
    (regions.map (·.digest)).Nodup ∧ ∀ r ∈ regions, (m.take r.digest).1 ≠ [] := by
  induction regions generalizing m out with
  | nil => exact ⟨.nil, fun r h => absurd h List.not_mem_nil⟩
  | cons r rs ih =>
    rw [restore] at restored
    split at restored
    · rename_i whole
      obtain ⟨out', rest, _⟩ := Option.map_eq_some_iff.mp restored
      obtain ⟨nodup, found⟩ := ih (fun r h => sizes r (List.mem_cons_of_mem _ h)) rest
      have own : (m.take r.digest).1 ≠ [] := by
        intro empty
        rw [empty] at whole
        exact sizes r List.mem_cons_self (BitVec.eq_of_toNat_eq whole.symm)
      have other : ∀ r' ∈ rs, r'.digest ≠ r.digest ∧ (m.take r'.digest).1 ≠ [] := by
        intro r' member
        have := found r' member
        by_cases same : r'.digest = r.digest
        · simp [RegionsBytes.take, same] at this
        · exact ⟨same, by simpa [RegionsBytes.take, same] using this⟩
      refine ⟨?_, ?_⟩
      · rw [List.map_cons, List.nodup_cons]
        refine ⟨fun member => ?_, nodup⟩
        obtain ⟨r', h, same⟩ := List.mem_map.mp member
        exact (other r' h).1 same
      · intro r' member
        rcases List.mem_cons.mp member with rfl | h
        · exact own
        · exact (other r' h).2
    · cases restored

theorem restore_eq {regions : List ImageInfo} {m : RegionsBytes}
    (nodup : (regions.map (·.digest)).Nodup) (sizes : ∀ r ∈ regions, r.bytes.length = r.size.toNat)
    (stored : ∀ r ∈ regions, m r.digest = some r.bytes) : restore regions m = some regions := by
  induction regions generalizing m with
  | nil => rfl
  | cons r rs ih =>
    rw [List.map_cons, List.nodup_cons] at nodup
    have found : (m.take r.digest).1 = r.bytes := by
      rw [RegionsBytes.take, stored r List.mem_cons_self, Option.getD_some]
    have rest := @ih (m.take r.digest).2 nodup.2
      (fun r h => sizes r (List.mem_cons_of_mem _ h)) (fun r' h => by
        have other : r'.digest ≠ r.digest := fun same =>
          nodup.1 (List.mem_map.mpr ⟨r', h, same⟩)
        simpa [RegionsBytes.take, other] using stored r' (List.mem_cons_of_mem _ h))
    rw [restore, found, if_pos (sizes r List.mem_cons_self), rest]
    rfl

namespace RegionsBytes
variable {m : RegionsBytes} {digest : Sha256}

theorem emplace_absent (absent : m digest = none) (bytes : List Uint8) :
    m.emplace digest bytes = Function.update m digest (some bytes) := by
  rw [emplace, absent]
  rfl

theorem emplace_kept {bytes : List Uint8} (stored : m digest = some bytes) (digest' : Sha256)
    (bytes' : List Uint8) : m.emplace digest' bytes' digest = some bytes := by
  unfold emplace
  split
  · exact stored
  · rename_i absent
    have other : digest ≠ digest' := by
      rintro rfl
      exact absent (by rw [stored]; rfl)
    rw [Function.update_of_ne other, stored]

theorem foldl_emplace_kept (entries : List (Sha256 × List Uint8)) {bytes : List Uint8}
    (stored : m digest = some bytes) :
    entries.foldl (fun m e => m.emplace e.1 e.2) m digest = some bytes := by
  induction entries generalizing m with
  | nil => exact stored
  | cons e rest ih => exact ih (emplace_kept stored e.1 e.2)

/-- Entered in any order, each of pairwise different digests keeps its bytes. -/
theorem foldl_emplace {entries : List (Sha256 × List Uint8)}
    (nodup : (entries.map Prod.fst).Nodup) (fresh : ∀ e ∈ entries, m e.1 = none)
    {e : Sha256 × List Uint8} (member : e ∈ entries) :
    entries.foldl (fun m e => m.emplace e.1 e.2) m e.1 = some e.2 := by
  induction entries generalizing m with
  | nil => exact absurd member List.not_mem_nil
  | cons first rest ih =>
    rw [List.map_cons, List.nodup_cons] at nodup
    have entered := emplace_absent (fresh first List.mem_cons_self) first.2
    rw [List.foldl_cons]
    rcases List.mem_cons.mp member with rfl | later
    · exact foldl_emplace_kept rest (by rw [entered, Function.update_self])
    · refine ih nodup.2 (fun e' h => ?_) later
      have other : e'.1 ≠ first.1 := fun same => nodup.1 (List.mem_map.mpr ⟨e', h, same⟩)
      rw [entered, Function.update_of_ne other]
      exact fresh e' (List.mem_cons_of_mem _ h)

end RegionsBytes

end XnuTrace
