import XnuTrace.RegionPages
import XnuTrace.RebuiltHash

/-! `lookup_inst`: the page of an address, found through the perfect hash, and the four
bytes at its offset. `create_hash` enters the pages of the images and lets those of JIT
regions replace them; the last JIT region that has a page wins. -/
namespace XnuTrace
open Memory SortedFold MinimalPerfectHash

namespace MachORegions
variable (hash : Hasher)

/-- `create_hash`, on the table that earlier regions left. -/
def rehash (sortBuckets : List (Bucket 64) → List (Bucket 64))
    (mPa2buf : MphMapStatic 64 (List Uint8)) (regions : List ImageInfo) :
    Except BuildFailure (MphMapStatic 64 (List Uint8)) :=
  mPa2buf.rebuild hash sortBuckets [] (pa2bufVec regions)

def lookupInst (m : MachORegions) (addr : Uint64) : Option Uint32 :=
  let pa := addr >>> pageSzLog2
  let pageOff := addr &&& BitVec.ofNat 64 (pageSz - 1)
  (m.mPa2buf.subscript hash pa).map fun buf => frontWord 32 4 (buf.drop pageOff.toNat)

end MachORegions

/-- A new object starts from an empty table. -/
theorem createHash_eq_rehash (hash : Hasher) (sortBuckets : List (Bucket 64) → List (Bucket 64))
    (regions : List ImageInfo) : createHash hash sortBuckets regions =
      MachORegions.rehash hash sortBuckets .empty regions :=
  MphMapStatic.build_eq_rebuild _

/-! The region that an address belongs to. -/

namespace ImageInfo

/-- Whole pages below the end of the address space, held in full. -/
structure Paged (r : ImageInfo) : Prop where
  base : pageSz ∣ r.base.toNat
  size : pageSz ∣ r.size.toNat
  fits : r.base.toNat + r.size.toNat ≤ 2 ^ 64
  held : r.bytes.length = r.size.toNat

def Covers (r : ImageInfo) (addr : Uint64) : Prop :=
  r.base.toNat ≤ addr.toNat ∧ addr.toNat < r.base.toNat + r.size.toNat

instance (r : ImageInfo) (addr : Uint64) : Decidable (r.Covers addr) :=
  inferInstanceAs (Decidable (_ ∧ _))

/-- The page that holds `addr`, as `create_hash` enters it. -/
def pageOf (r : ImageInfo) (addr : Uint64) : Uint64 × List Uint8 :=
  (addr >>> pageSzLog2, r.bytes.drop ((addr.toNat - r.base.toNat) / pageSz * pageSz))

end ImageInfo

/-- The last JIT region that covers the address, otherwise the image that does. -/
def regionAt (regions : List ImageInfo) (addr : Uint64) : Option ImageInfo :=
  ((regions.filter (·.isJit)).reverse.find? (·.Covers addr)).or
    ((regions.filter fun r => !r.isJit).find? (·.Covers addr))

theorem regionAt_isSome {regions : List ImageInfo} {addr : Uint64} {r : ImageInfo}
    (member : r ∈ regions) (covers : r.Covers addr) : (regionAt regions addr).isSome := by
  rw [regionAt, Option.isSome_or, Bool.or_eq_true]
  cases jit : r.isJit with
  | true =>
    refine .inl (List.find?_isSome.mpr ⟨r, ?_, decide_eq_true covers⟩)
    exact List.mem_reverse.mpr (List.mem_filter.mpr ⟨member, jit⟩)
  | false =>
    exact .inr (List.find?_isSome.mpr ⟨r, List.mem_filter.mpr ⟨member, by rw [jit]; rfl⟩,
      decide_eq_true covers⟩)

theorem regionAt_covers {regions : List ImageInfo} {addr : Uint64} {r : ImageInfo}
    (found : regionAt regions addr = some r) : r ∈ regions ∧ r.Covers addr := by
  rcases Option.or_eq_some_iff.mp found with jit | ⟨_, image⟩
  · exact ⟨(List.mem_filter.mp (List.mem_reverse.mp (List.mem_of_find?_eq_some jit))).1,
      of_decide_eq_true (List.find?_eq_some_iff_append.mp jit).1⟩
  · exact ⟨(List.mem_filter.mp (List.mem_of_find?_eq_some image)).1,
      of_decide_eq_true (List.find?_eq_some_iff_append.mp image).1⟩

/-! The pages of one region. -/

namespace ImageInfo

theorem toNat_pa (addr : Uint64) : (addr >>> pageSzLog2).toNat = addr.toNat / pageSz := by
  rw [BitVec.toNat_ushiftRight, Nat.shiftRight_eq_div_pow]
  rfl

theorem Paged.count {r : ImageInfo} (paged : r.Paged) :
    (r.size.toNat + (pageSz - 1)) / pageSz = r.size.toNat / pageSz := by
  obtain ⟨s, size⟩ := paged.size
  rw [size]
  simp only [pageSz]
  omega

theorem Paged.toNat_page {r : ImageInfo} (paged : r.Paged) {i : Nat}
    (inside : i < r.size.toNat / pageSz) :
    ((r.base + BitVec.ofNat 64 (i * pageSz)) >>> pageSzLog2).toNat = r.base.toNat / pageSz + i := by
  obtain ⟨b, base⟩ := paged.base
  obtain ⟨s, size⟩ := paged.size
  have fits := paged.fits
  rw [toNat_pa, BitVec.toNat_add, BitVec.toNat_ofNat]
  simp only [base, size, pageSz] at *
  omega

theorem Paged.mem_pages {r : ImageInfo} (paged : r.Paged) {addr : Uint64}
    {e : Uint64 × List Uint8} (key : e.1 = addr >>> pageSzLog2) :
    e ∈ r.pages ↔ r.Covers addr ∧ e = r.pageOf addr := by
  obtain ⟨b, base⟩ := paged.base
  obtain ⟨s, size⟩ := paged.size
  rw [pages, List.mem_map, Covers, paged.count]
  constructor
  · rintro ⟨i, inside, rfl⟩
    have bound := List.mem_range.mp inside
    have same := congrArg BitVec.toNat key
    rw [paged.toNat_page bound, toNat_pa] at same
    have off : (addr.toNat - r.base.toNat) / pageSz = i := by
      simp only [base, pageSz] at *
      omega
    refine ⟨by simp only [base, size, pageSz] at *; omega, Prod.ext key ?_⟩
    rw [pageOf, off]
  · rintro ⟨⟨low, high⟩, rfl⟩
    have bound : (addr.toNat - r.base.toNat) / pageSz < r.size.toNat / pageSz := by
      simp only [base, size, pageSz] at *
      omega
    refine ⟨(addr.toNat - r.base.toNat) / pageSz, List.mem_range.mpr bound, Prod.ext ?_ rfl⟩
    apply BitVec.eq_of_toNat_eq
    rw [paged.toNat_page bound, pageOf, toNat_pa]
    simp only [base, pageSz] at *
    omega

/-- In whichever order the pages are searched. -/
theorem Paged.find?_pages {r : ImageInfo} (paged : r.Paged) (addr : Uint64)
    {l : List (Uint64 × List Uint8)} (perm : l.Perm r.pages) :
    l.find? (·.1 == addr >>> pageSzLog2) = if r.Covers addr then some (r.pageOf addr) else none := by
  cases found : l.find? (·.1 == addr >>> pageSzLog2) with
  | some e =>
    have key : e.1 = addr >>> pageSzLog2 := eq_of_beq (List.find?_eq_some_iff_append.mp found).1
    obtain ⟨covers, same⟩ := (paged.mem_pages key).mp
      (perm.mem_iff.mp (List.mem_of_find?_eq_some found))
    rw [if_pos covers, same]
  | none =>
    rw [if_neg]
    intro covers
    have key : (r.pageOf addr).1 = addr >>> pageSzLog2 := rfl
    have member := (paged.mem_pages key).mpr ⟨covers, rfl⟩
    have := List.find?_eq_none.mp found _ (perm.mem_iff.mpr member)
    simp [pageOf] at this

end ImageInfo

/-! The pages of all regions. -/

theorem overridePage_cons (e : Uint64 × List Uint8) (pa2buf : List (Uint64 × List Uint8))
    (page : Uint64 × List Uint8) : overridePage (e :: pa2buf) page =
      if e.1 = page.1 then page :: pa2buf else e :: overridePage pa2buf page := by
  unfold overridePage
  rw [List.findIdx?_cons]
  by_cases same : e.1 = page.1
  · simp [same]
  · rw [if_neg same, if_neg (by simpa using same)]
    cases pa2buf.findIdx? (·.1 == page.1) <;> rfl

theorem find?_overridePage (pa2buf : List (Uint64 × List Uint8)) (page : Uint64 × List Uint8)
    (pa : Uint64) : (overridePage pa2buf page).find? (·.1 == pa) =
      if page.1 = pa then some page else pa2buf.find? (·.1 == pa) := by
  induction pa2buf with
  | nil =>
    by_cases here : page.1 = pa <;> simp [overridePage, here]
  | cons e pa2buf ih =>
    rw [overridePage_cons]
    by_cases here : page.1 = pa <;> by_cases same : e.1 = page.1 <;> grind

theorem find?_foldl_overridePage (pages pa2buf : List (Uint64 × List Uint8)) (pa : Uint64) :
    (pages.foldl overridePage pa2buf).find? (·.1 == pa) =
      (pages.reverse.find? (·.1 == pa)).or (pa2buf.find? (·.1 == pa)) := by
  induction pages generalizing pa2buf with
  | nil => rfl
  | cons page pages ih =>
    rw [List.foldl_cons, ih, find?_overridePage, List.reverse_cons, List.find?_append, Option.or_assoc]
    by_cases here : page.1 = pa <;> simp [here]

theorem findSome?_eq_map_find? {A B : Type} {l : List A} {f : A → Option B} {p : A → Prop}
    [DecidablePred p] {g : A → B} (each : ∀ a ∈ l, f a = if p a then some (g a) else none) :
    l.findSome? f = (l.find? fun a => p a).map g := by
  induction l with
  | nil => rfl
  | cons a l ih =>
    rw [List.findSome?_cons, List.find?_cons, each a List.mem_cons_self,
      ih fun b h => each b (List.mem_cons_of_mem _ h)]
    by_cases here : p a <;> simp [here]

/-- The entry for the page of an address is that of the region it belongs to. -/
theorem find?_pa2bufVec {regions : List ImageInfo} (paged : ∀ r ∈ regions, r.Paged)
    (addr : Uint64) : (pa2bufVec regions).find? (·.1 == addr >>> pageSzLog2) =
      (regionAt regions addr).map (·.pageOf addr) := by
  have images : ((regions.filter fun r => !r.isJit).flatMap ImageInfo.pages).find?
      (·.1 == addr >>> pageSzLog2) =
      ((regions.filter fun r => !r.isJit).find? (·.Covers addr)).map (·.pageOf addr) := by
    rw [List.find?_flatMap]
    exact findSome?_eq_map_find? fun r member =>
      (paged r (List.mem_filter.mp member).1).find?_pages addr (.refl _)
  have jits : ((regions.filter (·.isJit)).flatMap ImageInfo.pages).reverse.find?
      (·.1 == addr >>> pageSzLog2) =
      ((regions.filter (·.isJit)).reverse.find? (·.Covers addr)).map (·.pageOf addr) := by
    rw [List.reverse_flatMap, List.find?_flatMap]
    exact findSome?_eq_map_find? fun r member =>
      (paged r (List.mem_filter.mp (List.mem_reverse.mp member)).1).find?_pages addr
        (List.reverse_perm _)
  rw [pa2bufVec, find?_foldl_overridePage, jits, images, regionAt, Option.map_or]

/-! The page numbers. -/

def pageCount (regions : List ImageInfo) : Nat :=
  (regions.map fun r => (r.size.toNat + (pageSz - 1)) / pageSz).sum

/-- Neither region covers an address of the other. -/
def ImageInfo.Apart (r r' : ImageInfo) : Prop := ∀ addr, ¬(r.Covers addr ∧ r'.Covers addr)

theorem nodup_addNew {keys : List Uint64} (nodup : keys.Nodup) (key : Uint64) :
    (addNew keys key).Nodup := by
  unfold addNew
  split
  · exact nodup
  · rename_i new
    exact (List.perm_append_singleton key keys).nodup_iff.mpr (List.nodup_cons.mpr ⟨new, nodup⟩)

theorem foldl_addNew_pas (keys : List Uint64) (jits : List ImageInfo) :
    jits.foldl (fun keys r => r.pas.foldl addNew keys) keys =
      (jits.flatMap ImageInfo.pas).foldl addNew keys := by
  rw [List.foldl_flatMap]

namespace ImageInfo

theorem Paged.mem_pas {r : ImageInfo} (paged : r.Paged) {pa : Uint64} (own : pa ∈ r.pas) :
    r.base.toNat / pageSz ≤ pa.toNat ∧
      pa.toNat < r.base.toNat / pageSz + r.size.toNat / pageSz := by
  rw [pas_eq, paged.count] at own
  obtain ⟨i, inside, rfl⟩ := List.mem_map.mp own
  have bound := List.mem_range.mp inside
  rw [paged.toNat_page bound]
  omega

theorem Paged.nodup_pas {r : ImageInfo} (paged : r.Paged) : r.pas.Nodup := by
  rw [pas_eq, paged.count]
  refine List.Nodup.map_on (fun i hi j hj same => ?_) List.nodup_range
  have equal := congrArg BitVec.toNat same
  rw [paged.toNat_page (List.mem_range.mp hi), paged.toNat_page (List.mem_range.mp hj)] at equal
  omega

theorem Paged.disjoint_pas {r r' : ImageInfo} (paged : r.Paged) (paged' : r'.Paged)
    (apart : r.Apart r') : r.pas.Disjoint r'.pas := by
  intro pa own other
  have inside := paged.mem_pas own
  have inside' := paged'.mem_pas other
  obtain ⟨b, base⟩ := paged.base
  obtain ⟨s, size⟩ := paged.size
  obtain ⟨b', base'⟩ := paged'.base
  obtain ⟨s', size'⟩ := paged'.size
  have fits := paged.fits
  simp only [base, size, base', size', pageSz] at inside inside' fits
  have addr : (BitVec.ofNat 64 (pa.toNat * 4096)).toNat = pa.toNat * 4096 := by
    rw [BitVec.toNat_ofNat, Nat.mod_eq_of_lt (by omega)]
  refine apart (BitVec.ofNat 64 (pa.toNat * 4096)) ⟨?_, ?_⟩ <;>
  · rw [Covers, addr]
    simp only [base, size, base', size', pageSz]
    omega

end ImageInfo

/-- `create_hash` passes different page numbers to the perfect hash. -/
theorem nodup_pa2bufVec {regions : List ImageInfo} (paged : ∀ r ∈ regions, r.Paged)
    (apart : (regions.filter fun r => !r.isJit).Pairwise ImageInfo.Apart) :
    ((pa2bufVec regions).map Prod.fst).Nodup := by
  have grows : ∀ (more keys : List Uint64), keys.Nodup → (more.foldl addNew keys).Nodup := by
    intro more
    induction more with
    | nil => exact fun _ => id
    | cons key more ih => exact fun keys nodup => ih _ (nodup_addNew nodup key)
  rw [map_fst_pa2bufVec, foldl_addNew_pas]
  refine grows _ _ (List.nodup_flatMap.mpr ⟨fun r h => ?_, ?_⟩)
  · exact (paged r (List.mem_filter.mp h).1).nodup_pas
  · exact apart.imp_of_mem fun {r r'} h h' => (paged r (List.mem_filter.mp h).1).disjoint_pas
      (paged r' (List.mem_filter.mp h').1)

theorem length_pa2bufVec_le (regions : List ImageInfo) :
    (pa2bufVec regions).length ≤ pageCount regions := by
  have added : ∀ (pages pa2buf : List (Uint64 × List Uint8)),
      (pages.foldl overridePage pa2buf).length ≤ pa2buf.length + pages.length := by
    intro pages
    induction pages with
    | nil => exact fun _ => Nat.le_refl _
    | cons page pages ih =>
      intro pa2buf
      have one : (overridePage pa2buf page).length ≤ pa2buf.length + 1 := by
        unfold overridePage
        split
        · rw [List.length_set]
          omega
        · rw [List.length_append, List.length_singleton]
      have rest := ih (overridePage pa2buf page)
      rw [List.foldl_cons, List.length_cons]
      omega
  have split : ((regions.filter fun r => !r.isJit).flatMap ImageInfo.pages).length +
      ((regions.filter (·.isJit)).flatMap ImageInfo.pages).length = pageCount regions := by
    rw [pageCount]
    induction regions with
    | nil => rfl
    | cons r regions ih =>
      have own : r.pages.length = (r.size.toNat + (pageSz - 1)) / pageSz := by
        rw [ImageInfo.pages, List.length_map, List.length_range]
      rw [List.map_cons, List.sum_cons, ← ih, ← own]
      cases jit : r.isJit
      · rw [List.filter_cons_of_pos (by simp [jit]), List.filter_cons_of_neg (by simp [jit]),
          List.flatMap_cons, List.length_append, Nat.add_assoc]
      · rw [List.filter_cons_of_neg (by simp [jit]), List.filter_cons_of_pos (by simp [jit]),
          List.flatMap_cons, List.length_append, Nat.add_left_comm]
  rw [pa2bufVec, ← split]
  exact added _ _

/-- The page that the table has for an address, from the offset in the page on, is its region from
the address on. -/
theorem lookupInst_regionAt {hash : Hasher} {sortBuckets : List (Bucket 64) → List (Bucket 64)}
    (sorts : SortsBySize sortBuckets) {regions : List ImageInfo} (paged : ∀ r ∈ regions, r.Paged)
    (few : pageCount regions < 2 ^ 31) {before mPa2buf : MphMapStatic 64 (List Uint8)}
    (done : MachORegions.rehash hash sortBuckets before regions = .ok mPa2buf) {addr : Uint64}
    {r : ImageInfo} (found : regionAt regions addr = some r) :
    MachORegions.lookupInst hash { mRegions := regions, mPa2buf } addr =
      some (frontWord 32 4 (r.bytes.drop (addr.toNat - r.base.toNat))) := by
  obtain ⟨member, low, high⟩ := regionAt_covers found
  have entry := find?_pa2bufVec paged addr
  rw [found, Option.map_some] at entry
  have value := MphMapStatic.subscript_of_rebuild sorts
    (Nat.lt_of_le_of_lt (length_pa2bufVec_le regions) few) done (List.mem_of_find?_eq_some entry)
  have pageOff : (addr &&& BitVec.ofNat 64 (pageSz - 1)).toNat = addr.toNat % pageSz := by
    rw [BitVec.toNat_and, BitVec.toNat_ofNat]
    exact Nat.and_two_pow_sub_one_eq_mod addr.toNat 12
  have off : (addr.toNat - r.base.toNat) / pageSz * pageSz + addr.toNat % pageSz =
      addr.toNat - r.base.toNat := by
    obtain ⟨b, base⟩ := (paged r member).base
    simp only [base, pageSz] at *
    omega
  change (mPa2buf.subscript hash (r.pageOf addr).1).map _ = _
  rw [value, Option.map_some, pageOff, ImageInfo.pageOf, List.drop_drop, off]

/-- The instruction at a covered address is read from the last JIT region that covers it,
otherwise from the image that does. -/
theorem lookupInst_spec (hash : Hasher) {sortBuckets : List (Bucket 64) → List (Bucket 64)}
    (sorts : SortsBySize sortBuckets) {regions : List ImageInfo} (paged : ∀ r ∈ regions, r.Paged)
    (few : pageCount regions < 2 ^ 31)
    (apart : (regions.filter fun r => !r.isJit).Pairwise ImageInfo.Apart) :
    ((pa2bufVec regions).map Prod.fst).Nodup ∧
    ∀ before mPa2buf, MachORegions.rehash hash sortBuckets before regions = .ok mPa2buf →
      ∀ addr : Uint64, 4 ∣ addr.toNat → (∃ r ∈ regions, r.Covers addr) →
        ∃ r, regionAt regions addr = some r ∧
          addr.toNat - r.base.toNat + 4 ≤ r.bytes.length ∧
          MachORegions.lookupInst hash { mRegions := regions, mPa2buf } addr =
            some (frontWord 32 4 (r.bytes.drop (addr.toNat - r.base.toNat))) := by
  refine ⟨nodup_pa2bufVec paged apart, fun before mPa2buf done addr aligned covered => ?_⟩
  obtain ⟨r₀, member₀, covers₀⟩ := covered
  obtain ⟨r, found⟩ := Option.isSome_iff_exists.mp (regionAt_isSome member₀ covers₀)
  obtain ⟨member, low, high⟩ := regionAt_covers found
  refine ⟨r, found, ?_, lookupInst_regionAt sorts paged few done found⟩
  obtain ⟨b, base⟩ := (paged r member).base
  obtain ⟨s, size⟩ := (paged r member).size
  rw [(paged r member).held]
  simp only [base, size, pageSz] at *
  omega

/-- One page of one repeated byte. -/
def filledPage (base : Uint64) (byte : Uint8) (isJit : Bool) : ImageInfo where
  base := base
  size := 0x1000
  slide := 0
  path := []
  uuid := .replicate 16 0
  bytes := .replicate 0x1000 byte
  digest := .replicate 32 0
  isJit := isJit

theorem paged_filledPage (byte : Uint8) (isJit : Bool) :
    (filledPage 0x100000000 byte isJit).Paged where
  base := ⟨0x100000, rfl⟩
  size := ⟨1, rfl⟩
  fits := show 0x100001000 ≤ 2 ^ 64 by decide
  held := List.length_replicate

/-- A JIT region over an image. -/
theorem lookupInst_spec_overlap :
    let regions := [filledPage 0x100000000 0 false, filledPage 0x100000000 0xff true]
    ∃ mPa2buf, MachORegions.rehash (jevhash32 0x85EBCA77) stableSort .empty regions =
        .ok mPa2buf ∧
      ∃ r, regionAt regions 0x100000004 = some r ∧
        (0x100000004 : Uint64).toNat - r.base.toNat + 4 ≤ r.bytes.length ∧
        MachORegions.lookupInst (jevhash32 0x85EBCA77) { mRegions := regions, mPa2buf }
          0x100000004 = some (frontWord 32 4 (r.bytes.drop
            ((0x100000004 : Uint64).toNat - r.base.toNat))) := by
  have paged : ∀ r ∈ [filledPage 0x100000000 0 false, filledPage 0x100000000 0xff true],
      r.Paged := by
    intro r member
    rcases List.mem_pair.mp member with rfl | rfl <;> exact paged_filledPage _ _
  exact ⟨_, rfl, (lookupInst_spec (jevhash32 0x85EBCA77) sortsBySize_stableSort paged (by decide)
    (List.pairwise_singleton _ _)).2 .empty _ rfl 0x100000004 (by decide)
    ⟨_, List.mem_cons_self, by decide⟩⟩

end XnuTrace
