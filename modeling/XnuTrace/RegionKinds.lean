import XnuTrace.LookupInst

/-! `lookup` and `lookup_idx` against `lookup_inst`: the first region in base order that has an
address, and the one whose page `create_hash` enters for it, a JIT region if one covers it. -/
namespace XnuTrace

namespace ImageInfo

/-- The test of `lookup`: its sum is 0 for a region that ends with the address space. -/
def Reached (r : ImageInfo) (addr : Uint64) : Prop :=
  r.Covers addr ∧ r.base.toNat + r.size.toNat < 2 ^ 64

theorem reached_iff (r : ImageInfo) (addr : Uint64) :
    r.base ≤ addr ∧ addr < r.base + r.size ↔ r.Reached addr := by
  have base := r.base.isLt
  have size := r.size.isLt
  rw [Reached, Covers, BitVec.le_def, BitVec.lt_def, BitVec.toNat_add]
  by_cases fits : r.base.toNat + r.size.toNat < 2 ^ 64
  · rw [Nat.mod_eq_of_lt fits]
    exact (and_iff_left fits).symm
  · have wrapped : (r.base.toNat + r.size.toNat) % 2 ^ 64 < r.base.toNat := by omega
    constructor
    · rintro ⟨low, high⟩
      omega
    · exact fun reached => absurd reached.2 fits

end ImageInfo

/-- `create_hash` prefers a JIT region. -/
theorem regionAt_isJit_iff {regions : List ImageInfo} {addr : Uint64} {owner : ImageInfo}
    (found : regionAt regions addr = some owner) :
    owner.isJit = true ↔ ∃ jit ∈ regions, jit.isJit = true ∧ jit.Covers addr := by
  constructor
  · intro isJit
    obtain ⟨member, covers⟩ := regionAt_covers found
    exact ⟨owner, member, isJit, covers⟩
  · rintro ⟨jit, member, isJit, covers⟩
    rcases Option.or_eq_some_iff.mp found with first | ⟨none, -⟩
    · exact (List.mem_filter.mp (List.mem_reverse.mp (List.mem_of_find?_eq_some first))).2
    · have listed : jit ∈ (regions.filter (·.isJit)).reverse :=
        List.mem_reverse.mpr (List.mem_filter.mpr ⟨member, isJit⟩)
      exact absurd (decide_eq_true covers) (List.find?_eq_none.mp none jit listed)

namespace MachORegions

/-- Both lookups return the same region of the vector, which is JIT if a JIT region covers the
address, and of the kind of the one that `lookup_inst` reads. What `lookup_idx` returns is read in
place of the dead copy. -/
def HonoursJit (m : MachORegions) (dead : ImageInfo) (addr : Uint64) : Prop :=
  ∃ r i, m.lookup addr = some (r, i) ∧ m.lookupIdx dead addr = some (r, i) ∧
    m.mRegions[i]? = some r ∧
    ((∃ jit ∈ m.mRegions, jit.isJit = true ∧ jit.Covers addr) → r.isJit = true) ∧
    ∀ owner, regionAt m.mRegions addr = some owner → r.isJit = owner.isJit

/-- The first region that has the address; one that ends with the address space does not count. -/
def IsFirst (regions : List ImageInfo) (addr : Uint64) (i : Nat) (r : ImageInfo) : Prop :=
  regions[i]? = some r ∧ r.Reached addr ∧ ∀ j < i, ∀ r', regions[j]? = some r' → ¬ r'.Reached addr

/-- A JIT region comes before every image that has the address, by its base or, at the same base,
by its place in the vector; regions that end with the address space do not count. -/
def JitComesFirst (regions : List ImageInfo) (addr : Uint64) : Prop :=
  ∃ (i : Nat) (jit : ImageInfo), regions[i]? = some jit ∧ jit.isJit = true ∧ jit.Reached addr ∧
    ∀ (j : Nat) (image : ImageInfo), regions[j]? = some image → image.isJit = false →
      image.Reached addr → jit.base < image.base ∨ jit.base = image.base ∧ i < j

variable {m : MachORegions} {addr : Uint64} {r dead : ImageInfo} {i : Nat}

theorem lookup_eq_some_iff : m.lookup addr = some (r, i) ↔ IsFirst m.mRegions addr i r := by
  simp only [IsFirst, lookup, ImageInfo.reached_iff, List.find?_eq_some_iff_getElem, List.length_zipIdx,
    List.getElem_zipIdx, Nat.zero_add, decide_eq_true_iff, Bool.not_eq_true', decide_eq_false_iff_not,
    Prod.mk.injEq]
  constructor
  · rintro ⟨reached, _, bound, ⟨rfl, rfl⟩, before⟩
    refine ⟨List.getElem?_eq_getElem bound, reached, fun j earlier r' stored => ?_⟩
    obtain ⟨_, rfl⟩ := List.getElem?_eq_some_iff.mp stored
    exact before j earlier
  · rintro ⟨stored, reached, before⟩
    obtain ⟨bound, rfl⟩ := List.getElem?_eq_some_iff.mp stored
    refine ⟨reached, i, bound, ⟨rfl, rfl⟩, fun j earlier => ?_⟩
    exact before j earlier _ (List.getElem?_eq_getElem (earlier.trans bound))

theorem lookupIdx_eq_some_iff : m.lookupIdx dead addr = some (r, i) ↔
    dead = r ∧ ∃ found, m.lookup addr = some (found, i) := by
  rw [lookupIdx_eq, Option.map_eq_some_iff]
  constructor
  · rintro ⟨⟨found, _⟩, here, same⟩
    cases same
    exact ⟨rfl, found, here⟩
  · rintro ⟨rfl, found, here⟩
    exact ⟨_, here, rfl⟩

/-- What is found is JIT where a JIT region covers the address exactly if a JIT region comes first. -/
theorem isJit_iff_jitComesFirst (sorted : m.mRegions.Pairwise fun a b => a.base ≤ b.base)
    (isFirst : IsFirst m.mRegions addr i r) : r.isJit = true ↔ JitComesFirst m.mRegions addr := by
  have ordered : ∀ {i j : Nat} {a b : ImageInfo}, m.mRegions[i]? = some a → m.mRegions[j]? = some b →
      i < j → a.base ≤ b.base := by
    intro i j a b first second before
    obtain ⟨_, rfl⟩ := List.getElem?_eq_some_iff.mp first
    obtain ⟨_, rfl⟩ := List.getElem?_eq_some_iff.mp second
    exact List.pairwise_iff_getElem.mp sorted _ _ _ _ before
  obtain ⟨stored, reached, before⟩ := isFirst
  constructor
  · intro isJit
    refine ⟨i, r, stored, isJit, reached, fun j image storedImage isImage has => ?_⟩
    have differ : i ≠ j := by
      rintro rfl
      cases stored.symm.trans storedImage
      exact absurd isJit (by rw [isImage]; decide)
    have earlier : i < j :=
      (Nat.lt_or_ge j i).elim (fun less => absurd has (before j less image storedImage))
        fun least => Nat.lt_of_le_of_ne least differ
    have order := BitVec.le_def.mp (ordered stored storedImage earlier)
    rcases Nat.lt_or_eq_of_le order with lower | same
    · exact .inl (BitVec.lt_def.mpr lower)
    · exact .inr ⟨BitVec.eq_of_toNat_eq same, earlier⟩
  · rintro ⟨k, jit, storedJit, isJit, has, first⟩
    by_contra notJit
    have isImage : r.isJit = false := Bool.eq_false_of_not_eq_true notJit
    have behind : i ≤ k := Nat.not_lt.mp fun less => before k less jit storedJit has
    rcases first i r stored isImage reached with lower | ⟨-, less⟩
    · have differ : i ≠ k := by
        rintro rfl
        cases stored.symm.trans storedJit
        exact notJit isJit
      have order := ordered stored storedJit (Nat.lt_of_le_of_ne behind differ)
      exact absurd lower (BitVec.not_lt.mpr order)
    · omega

/-- The lookups honour the override exactly if the first region that has the address still stands
in place of the dead copy, and a JIT region that covers the address is met by one that comes
first. -/
theorem honoursJit_iff (sorted : m.mRegions.Pairwise fun a b => a.base ≤ b.base) :
    HonoursJit m dead addr ↔ (∃ i, IsFirst m.mRegions addr i dead) ∧
      ((∃ jit ∈ m.mRegions, jit.isJit = true ∧ jit.Covers addr) → JitComesFirst m.mRegions addr) := by
  constructor
  · rintro ⟨r, i, found, foundIdx, -, override, -⟩
    obtain ⟨rfl, -⟩ := lookupIdx_eq_some_iff.mp foundIdx
    have isFirst := lookup_eq_some_iff.mp found
    exact ⟨⟨i, isFirst⟩, fun covered => (isJit_iff_jitComesFirst sorted isFirst).mp (override covered)⟩
  · rintro ⟨⟨i, isFirst⟩, comesFirst⟩
    have found := lookup_eq_some_iff.mpr isFirst
    have override : (∃ jit ∈ m.mRegions, jit.isJit = true ∧ jit.Covers addr) → dead.isJit = true :=
      fun covered => (isJit_iff_jitComesFirst sorted isFirst).mpr (comesFirst covered)
    obtain ⟨stored, reached, -⟩ := isFirst
    refine ⟨dead, i, found, lookupIdx_eq_some_iff.mpr ⟨rfl, dead, found⟩, stored, override,
      fun owner owns => ?_⟩
    rw [Bool.eq_iff_iff, regionAt_isJit_iff owns]
    exact ⟨fun isJit => ⟨dead, List.mem_of_getElem? stored, isJit, reached.1⟩, override⟩

/-- A JIT region that begins below an image. -/
def overlappingRegions : List ImageInfo :=
  [{ filledPage 0x100000000 0xff true with size := 0x3000, bytes := .replicate 0x3000 0xff },
    filledPage 0x100001000 0 false]

theorem honoursJit_iff_below :
    let jit := overlappingRegions.getD 0 (filledPage 0 0 false)
    (HonoursJit (.holding overlappingRegions) jit 0x100001004 ↔
      (∃ i, IsFirst overlappingRegions 0x100001004 i jit) ∧
        ((∃ jit ∈ overlappingRegions, jit.isJit = true ∧ jit.Covers 0x100001004) →
          JitComesFirst overlappingRegions 0x100001004)) ∧
    createHash (jevhash32 0x85EBCA77) stableSort overlappingRegions =
      .ok (holding overlappingRegions).mPa2buf ∧
    HonoursJit (.holding overlappingRegions) jit 0x100001004 := by
  intro jit
  have sorted : (holding overlappingRegions).mRegions.Pairwise fun a b => a.base ≤ b.base := by decide
  have exact := @honoursJit_iff (holding overlappingRegions) 0x100001004 jit sorted
  have isFirst : IsFirst overlappingRegions 0x100001004 0 jit :=
    ⟨rfl, (ImageInfo.reached_iff _ _).mp (by decide), fun j less => absurd less (Nat.not_lt_zero j)⟩
  refine ⟨exact, hashed_holding (by decide +kernel), exact.mpr ⟨⟨0, isFirst⟩, fun _ => ?_⟩⟩
  exact (@isJit_iff_jitComesFirst (holding overlappingRegions) 0x100001004 jit 0 sorted isFirst).mp rfl

/-- A JIT region inside an image. -/
def nestedRegions : List ImageInfo :=
  [{ filledPage 0x100000000 0 false with size := 0x3000, bytes := .replicate 0x3000 0 },
    filledPage 0x100001000 0xff true]

/-- The image is found, though the JIT region covers the address, whatever is read of the copy. -/
theorem not_honoursJit_nestedRegions :
    (nestedRegions.Pairwise fun a b => a.base ≤ b.base) ∧
    createHash (jevhash32 0x85EBCA77) stableSort nestedRegions =
      .ok (holding nestedRegions).mPa2buf ∧
    (∃ r ∈ nestedRegions, r.Covers 0x100001000) ∧
    ∀ dead, ¬ HonoursJit (.holding nestedRegions) dead 0x100001000 := by
  have covers : (filledPage 0x100001000 0xff true).Covers 0x100001000 := by decide
  have member : filledPage 0x100001000 0xff true ∈ nestedRegions := .tail _ (.head _)
  refine ⟨by decide, hashed_holding (by decide +kernel), ⟨_, member, covers⟩, ?_⟩
  rintro dead ⟨r, i, found, -, -, override, -⟩
  have image : lookup (.holding nestedRegions) 0x100001000 =
    some ({ filledPage 0x100000000 0 false with size := 0x3000, bytes := .replicate 0x3000 0 }, 0) := rfl
  cases image.symm.trans found
  cases override ⟨_, member, rfl, covers⟩

end MachORegions

end XnuTrace
