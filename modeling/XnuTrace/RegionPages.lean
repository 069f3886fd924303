import XnuTrace.MachORegions
import XnuTrace.Lib.SortedFold

/-! Whether `create_hash` accepts regions does not depend on the order in which the sort
left those of one base. -/
namespace XnuTrace
open Memory SortedFold

/-- The keys under which the pages of a region are entered. -/
def ImageInfo.pas (r : ImageInfo) : List Uint64 := r.pages.map Prod.fst

namespace ImageInfo

theorem pas_eq (r : ImageInfo) : r.pas =
    (List.range ((r.size.toNat + (pageSz - 1)) / pageSz)).map fun i =>
      (r.base + BitVec.ofNat 64 (i * pageSz)) >>> pageSzLog2 := by
  rw [pas, pages, List.map_map]
  rfl

theorem pas_prefix {r r' : ImageInfo} (same : r.base = r'.base) :
    r.pas <+: r'.pas ∨ r'.pas <+: r.pas := by
  have range : ∀ {n m : Nat}, n ≤ m → List.range n <+: List.range m := by
    intro n m fewer
    have taken := List.take_prefix n (List.range m)
    rwa [List.take_range, Nat.min_eq_left fewer] at taken
  rw [pas_eq, pas_eq, same]
  rcases Nat.le_total ((r.size.toNat + (pageSz - 1)) / pageSz)
    ((r'.size.toNat + (pageSz - 1)) / pageSz) with fewer | more
  · exact .inl ((range fewer).map _)
  · exact .inr ((range more).map _)

theorem first_mem_pas {r : ImageInfo} (size : r.size ≠ 0) : r.base >>> pageSzLog2 ∈ r.pas := by
  have pos : 0 < r.size.toNat := Nat.pos_of_ne_zero fun zero => size (BitVec.eq_of_toNat_eq zero)
  rw [pas_eq, List.mem_map]
  refine ⟨0, List.mem_range.mpr ?_, ?_⟩
  · rw [pageSz]
    omega
  · rw [Nat.zero_mul, BitVec.add_zero]

end ImageInfo

def basePas (regions : List ImageInfo) : List Uint64 :=
  (regions.filter fun r => !r.isJit).flatMap ImageInfo.pas

theorem map_fst_overridePage (pa2buf : List (Uint64 × List Uint8)) (page : Uint64 × List Uint8) :
    (overridePage pa2buf page).map Prod.fst = addNew (pa2buf.map Prod.fst) page.1 := by
  unfold overridePage
  split
  · rename_i i found
    obtain ⟨bound, here, _⟩ := List.findIdx?_eq_some_iff_getElem.mp found
    have key : pa2buf[i].1 = page.1 := eq_of_beq here
    have kept : (pa2buf.map Prod.fst).set i page.1 = pa2buf.map Prod.fst := by
      rw [← key, ← List.getElem_map Prod.fst (h := by simpa using bound), List.set_getElem_self]
    rw [List.map_set, kept, addNew, if_pos]
    exact List.mem_map.mpr ⟨_, List.getElem_mem bound, key⟩
  · rename_i absent
    rw [addNew, if_neg, List.map_append, List.map_singleton]
    intro member
    obtain ⟨old, h, same⟩ := List.mem_map.mp member
    have := List.findIdx?_eq_none_iff.mp absent old h
    simp [same] at this

theorem map_fst_pa2bufVec (regions : List ImageInfo) : (pa2bufVec regions).map Prod.fst =
    (regions.filter (·.isJit)).foldl (fun keys r => r.pas.foldl addNew keys) (basePas regions) := by
  have entered : ∀ (pages pa2buf : List (Uint64 × List Uint8)),
      (pages.foldl overridePage pa2buf).map Prod.fst =
        (pages.map Prod.fst).foldl addNew (pa2buf.map Prod.fst) := by
    intro pages
    induction pages with
    | nil => exact fun _ => rfl
    | cons page pages ih =>
      intro pa2buf
      rw [List.foldl_cons, ih, map_fst_overridePage]
      rfl
  rw [pa2bufVec, entered, List.map_flatMap, List.map_flatMap, List.foldl_flatMap]
  rfl

/-- The pages of non-JIT regions are entered unseen, so their keys tell the regions apart. -/
theorem nodup_basePas {regions : List ImageInfo} (nodup : ((pa2bufVec regions).map Prod.fst).Nodup) :
    (basePas regions).Nodup := by
  have grows : ∀ (jits : List ImageInfo) (keys : List Uint64),
      keys <+: jits.foldl (fun keys r => r.pas.foldl addNew keys) keys := by
    intro jits
    induction jits with
    | nil => exact fun _ => List.prefix_rfl
    | cons r jits ih => exact fun keys => (prefix_foldl_addNew keys r.pas).trans (ih _)
  rw [map_fst_pa2bufVec] at nodup
  exact (grows _ _).sublist.nodup nodup

theorem map_fst_pa2bufVec_perm {regions regions' : List ImageInfo} (perm : regions.Perm regions')
    (sorted : regions.Pairwise fun a b => a.base ≤ b.base)
    (sorted' : regions'.Pairwise fun a b => a.base ≤ b.base)
    (sizes : ∀ r ∈ regions, r.size ≠ 0) (nodup : ((pa2bufVec regions).map Prod.fst).Nodup) :
    (pa2bufVec regions).map Prod.fst = (pa2bufVec regions').map Prod.fst := by
  have start : basePas regions = basePas regions' := by
    have disjoint := (List.nodup_flatMap.mp (nodup_basePas nodup)).2
    have symm : Std.Symm (Function.onFun List.Disjoint ImageInfo.pas) :=
      ⟨fun _ _ apart => apart.symm⟩
    have apart : ∀ x ∈ regions.filter fun r => !r.isJit, ∀ y ∈ regions.filter fun r => !r.isJit,
        x.base = y.base → x = y := by
      intro x hx y hy same
      by_contra other
      have left := ImageInfo.first_mem_pas (sizes x (List.mem_filter.mp hx).1)
      have right := ImageInfo.first_mem_pas (sizes y (List.mem_filter.mp hy).1)
      rw [← same] at right
      exact disjoint.forall hx hy other left right
    have folded := @foldl_eq ImageInfo (List Uint64) Nat (fun keys r => keys ++ r.pas) _
      (fun r => r.base.toNat) _ _ (perm.filter fun r => !r.isJit) (sorted.filter _)
      (sorted'.filter _) (fun x hx y hy same keys => by
        rw [apart x hx y hy (BitVec.eq_of_toNat_eq same)]) []
    rwa [List.foldl_append_eq_append, List.foldl_append_eq_append] at folded
  have commutes : ∀ x y : ImageInfo, x.base.toNat = y.base.toNat → ∀ keys : List Uint64,
      y.pas.foldl addNew (x.pas.foldl addNew keys) =
        x.pas.foldl addNew (y.pas.foldl addNew keys) := by
    intro x y same keys
    rcases ImageInfo.pas_prefix (BitVec.eq_of_toNat_eq same) with first | first
    · exact foldl_addNew_comm first keys
    · exact (foldl_addNew_comm first keys).symm
  rw [map_fst_pa2bufVec, map_fst_pa2bufVec, ← start]
  exact @foldl_eq ImageInfo (List Uint64) Nat (fun keys r => r.pas.foldl addNew keys) _
    (fun r => r.base.toNat) _ _ (perm.filter (·.isJit)) (sorted.filter _) (sorted'.filter _)
    (fun x _ y _ same keys => commutes x y same keys) _

/-! `create_hash`. -/

section
variable {hash : Hasher} {sortBuckets : List (Bucket 64) → List (Bucket 64)}

theorem createHash_ok_iff {regions : List ImageInfo} :
    (∃ mPa2buf, createHash hash sortBuckets regions = .ok mPa2buf) ↔
      ∃ mMph, MinimalPerfectHash.build hash sortBuckets { mSalts := [], mNkeys := 0 }
        ((pa2bufVec regions).map Prod.fst) = .ok mMph := by
  simp only [createHash, MphMapStatic.build]
  cases MinimalPerfectHash.build hash sortBuckets { mSalts := [], mNkeys := 0 }
    ((pa2bufVec regions).map Prod.fst) with
  | ok mMph => exact ⟨fun _ => ⟨mMph, rfl⟩, fun _ => ⟨_, rfl⟩⟩
  | error e => exact ⟨fun ⟨_, h⟩ => (by cases h), fun ⟨_, h⟩ => (by cases h)⟩

/-- The regions are what a `MachORegions` can hold: sorted, `create_hash` takes them. -/
def Hashed (hash : Hasher) (sortBuckets : List (Bucket 64) → List (Bucket 64))
    (regions : List ImageInfo) : Prop :=
  ∃ held : MachORegions, held.mRegions.Perm regions ∧
    held.mRegions.Pairwise (fun a b => a.base ≤ b.base) ∧
    createHash hash sortBuckets held.mRegions = .ok held.mPa2buf

theorem hashed_iff (sortRegions : BaseSort ImageInfo ImageInfo.base) {regions : List ImageInfo}
    (sizes : ∀ r ∈ regions, r.size ≠ 0) : Hashed hash sortBuckets regions ↔
      ∃ mPa2buf, createHash hash sortBuckets (sortRegions.1 regions) = .ok mPa2buf := by
  obtain ⟨perm, sorted⟩ := sortRegions.2 regions
  constructor
  · rintro ⟨held, permHeld, sortedHeld, hashed⟩
    obtain ⟨mMph, built⟩ := createHash_ok_iff.mp ⟨_, hashed⟩
    have same := map_fst_pa2bufVec_perm (permHeld.trans perm.symm) sortedHeld sorted
      (fun r h => sizes r (permHeld.mem_iff.mp h)) (MinimalPerfectHash.nodup_of_build built)
    exact createHash_ok_iff.mpr ⟨mMph, same ▸ built⟩
  · rintro ⟨mPa2buf, hashed⟩
    exact ⟨{ mRegions := sortRegions.1 regions, mPa2buf }, perm, sorted, hashed⟩

end

/-- Regions with the hash that `create_hash` builds over them. -/
def MachORegions.holding (regions : List ImageInfo) : MachORegions where
  mRegions := regions
  mPa2buf := (createHash (jevhash32 0x85EBCA77) stableSort regions).toOption.getD
    { mMph := { mSalts := [], mNkeys := 0 }, mValues := [] }

theorem MachORegions.hashed_holding {regions : List ImageInfo}
    (built : (createHash (jevhash32 0x85EBCA77) stableSort regions).isOk = true) :
    createHash (jevhash32 0x85EBCA77) stableSort regions = .ok (holding regions).mPa2buf := by
  rw [holding]
  cases hashed : createHash (jevhash32 0x85EBCA77) stableSort regions with
  | ok mPa2buf => rfl
  | error e =>
    rw [hashed] at built
    cases built

end XnuTrace
