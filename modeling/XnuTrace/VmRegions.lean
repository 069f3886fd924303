import XnuTrace.RegionsReset
import Mathlib.Data.List.Find

/-! `get_vm_regions`: the walk over the address space of the target. `vm_region_recurse_64` answers
with the first region at an address or behind it, and goes into submaps down to a depth. -/
namespace XnuTrace

/-- What `vm_region_recurse_64` sets, as far as it is read. The depth is far below the limit of a
`natural_t`. -/
structure VmInfo where
  addr : Uint64
  sz : Uint64
  depth : Nat
  protection : Uint32
  userTag : Uint32
  isSubmap : Bool
deriving DecidableEq

/-- `region`, without the path, which stays empty. -/
structure Region where
  base : Uint64
  size : Uint64
  depth : Nat
  prot : Uint32
  tag : Uint32
  submap : Bool
deriving DecidableEq

def VmInfo.region (info : VmInfo) : Region where
  base := info.addr
  size := info.sz
  depth := info.depth
  prot := info.protection
  tag := info.userTag
  submap := info.isSubmap

section
variable (vmRegionRecurse64 : Uint64 → Nat → Option VmInfo)

/-- The loop; whatever error there is ends it. -/
def getVmRegionsLoop : Nat → Uint64 → Nat → List Region → Option (List Region)
  | 0, _, _, _ => none
  | fuel + 1, addr, depth, res =>
    match vmRegionRecurse64 addr depth with
    | none => some res
    | some info =>
      let res := res ++ [info.region]
      if info.isSubmap then getVmRegionsLoop fuel info.addr (info.depth + 1) res
      else getVmRegionsLoop fuel (info.addr + info.sz) info.depth res

def getVmRegions (sortRegions : BaseSort Region Region.base) (fuel : Nat) : Option (List Region) :=
  (getVmRegionsLoop vmRegionRecurse64 fuel 0 0 []).map sortRegions.1

end

namespace VmInfo

/-- The first address behind it. -/
def stop (info : VmInfo) : Nat := info.addr.toNat + info.sz.toNat

/-- A submap with what it maps. -/
def Holds (s e : VmInfo) : Prop :=
  s.isSubmap = true ∧ s.depth < e.depth ∧ s.addr.toNat ≤ e.addr.toNat ∧ e.stop ≤ s.stop

instance (s e : VmInfo) : Decidable (s.Holds e) := inferInstanceAs (Decidable (_ ∧ _))

/-- Down to `depth`, the mappings are shown, and the submaps of the last level. -/
def visible (depth : Nat) (e : VmInfo) : Bool :=
  if e.isSubmap then e.depth = depth else e.depth ≤ depth

/-- The depth of the next call. -/
def next (e : VmInfo) : Nat := if e.isSubmap then e.depth + 1 else e.depth

end VmInfo

/-- Mappings and submaps in the order of their addresses, each submap in front of what it maps. -/
structure AddressSpace where
  entries : List VmInfo
  bounded : ∀ e ∈ entries, e.sz ≠ 0 ∧ e.stop < 2 ^ 64
  ordered : entries.Pairwise fun e f => e.Holds f ∨ e.stop ≤ f.addr.toNat
  nested : ∀ i : Fin entries.length, ∀ depth < (entries.get i).depth,
    ∃ s ∈ entries.take i, s.depth = depth ∧ s.Holds (entries.get i)

/-- What the kernel promises. -/
def AddressSpace.Answers (space : AddressSpace) (recurse : Uint64 → Nat → Option VmInfo) : Prop :=
  ∀ addr depth, recurse addr depth =
    space.entries.find? fun e => e.visible depth && decide (addr.toNat < e.stop)

/-- What the walk meets: a submap unless it goes into it anyway, on its way from another one. -/
def walked : Nat → List VmInfo → List VmInfo
  | _, [] => []
  | depth, e :: rest => if e.visible depth then e :: walked e.next rest else walked depth rest

namespace AddressSpace
variable {space : AddressSpace} {recurse : Uint64 → Nat → Option VmInfo}
  {before rest : List VmInfo} {e : VmInfo} {depth : Nat}

theorem stop_pos (member : e ∈ space.entries) : e.addr.toNat < e.stop := by
  have nonzero : e.sz.toNat ≠ 0 := fun zero =>
    (space.bounded e member).1 (BitVec.eq_of_toNat_eq zero)
  rw [VmInfo.stop]
  omega

theorem exists_holds (split : space.entries = before ++ e :: rest) (deep : depth < e.depth) :
    ∃ s ∈ before, s.depth = depth ∧ s.Holds e := by
  have inside : before.length < space.entries.length := by simp [split]
  have here : space.entries.get ⟨before.length, inside⟩ = e := by simp [split]
  have front : space.entries.take before.length = before := by simp [split]
  have found := space.nested ⟨before.length, inside⟩ depth (here ▸ deep)
  rwa [here, front] at found

/-- Where the walk stands: nothing before is shown any more, and all the rest can be. -/
structure At (before rest : List VmInfo) (addr : Uint64) (depth : Nat) : Prop where
  passed : ∀ e ∈ before, e.visible depth = true → e.stop ≤ addr.toNat
  ahead : ∀ e ∈ rest, addr.toNat < e.stop

theorem At.recurse_eq {addr : Uint64} (stands : At before rest addr depth)
    (answers : space.Answers recurse) (split : space.entries = before ++ rest) :
    recurse addr depth = rest.find? (·.visible depth) := by
  have none : before.find? (fun e => e.visible depth && decide (addr.toNat < e.stop)) = none := by
    rw [List.find?_eq_none]
    intro e member shown
    rw [Bool.and_eq_true, decide_eq_true_eq] at shown
    have := stands.passed e member shown.1
    omega
  rw [answers, split, List.find?_append, none, Option.none_or]
  refine List.find?_congr fun e member => ?_
  rw [decide_eq_true (stands.ahead e member), Bool.and_true]

theorem related (split : space.entries = before ++ e :: rest) :
    (∀ f ∈ before, f.Holds e ∨ f.stop ≤ e.addr.toNat) ∧
      ∀ f ∈ rest, e.Holds f ∨ e.stop ≤ f.addr.toNat := by
  have ordered := space.ordered
  rw [split, List.pairwise_append] at ordered
  obtain ⟨-, behind, across⟩ := ordered
  exact ⟨fun f member => across f member e List.mem_cons_self, (List.pairwise_cons.mp behind).1⟩

theorem At.skip {addr : Uint64} (stands : At before (e :: rest) addr depth)
    (hidden : e.visible depth = false) : At (before ++ [e]) rest addr depth where
  passed f member shown := by
    rcases List.mem_append.mp member with old | new
    · exact stands.passed f old shown
    · rw [List.mem_singleton.mp new, hidden] at shown
      cases shown
  ahead f member := stands.ahead f (.tail _ member)

/-- Into a submap. -/
theorem at_enter (split : space.entries = before ++ e :: rest) (submap : e.isSubmap = true) :
    At (before ++ [e]) rest e.addr (e.depth + 1) := by
  obtain ⟨front, behind⟩ := related split
  have own : e ∈ space.entries := split ▸ by simp
  refine ⟨fun f member shown => ?_, fun f member => ?_⟩
  · rcases List.mem_append.mp member with old | new
    · rcases front f old with ⟨sub, above, -, -⟩ | apart
      · rw [VmInfo.visible, if_pos sub, decide_eq_true_eq] at shown
        omega
      · exact apart
    · rw [List.mem_singleton.mp new, VmInfo.visible, if_pos submap, decide_eq_true_eq] at shown
      omega
  · have pos := stop_pos (split ▸ by simp [member] : f ∈ space.entries)
    have posE := stop_pos own
    rcases behind f member with ⟨-, -, low, -⟩ | apart
    · exact low.trans_lt pos
    · omega

/-- Past a mapping. -/
theorem at_pass (split : space.entries = before ++ e :: rest) (mapping : e.isSubmap = false) :
    At (before ++ [e]) rest (e.addr + e.sz) e.depth := by
  obtain ⟨front, behind⟩ := related split
  have own : e ∈ space.entries := split ▸ by simp
  have stop : (e.addr + e.sz).toNat = e.stop := by
    rw [BitVec.toNat_add]
    exact Nat.mod_eq_of_lt (space.bounded e own).2
  refine ⟨fun f member shown => ?_, fun f member => ?_⟩
  · rw [stop]
    rcases List.mem_append.mp member with old | new
    · rcases front f old with ⟨sub, above, -, -⟩ | apart
      · rw [VmInfo.visible, if_pos sub, decide_eq_true_eq] at shown
        omega
      · exact apart.trans (stop_pos own).le
    · exact (congrArg VmInfo.stop (List.mem_singleton.mp new)).le
  · have pos := stop_pos (split ▸ by simp [member] : f ∈ space.entries)
    rw [stop]
    rcases behind f member with ⟨sub, -⟩ | apart
    · rw [mapping] at sub
      cases sub
    · omega

/-- From where it stands the loop lists what is met of the rest. -/
theorem loop_walked (answers : space.Answers recurse) {addr : Uint64}
    (stands : At before rest addr depth) (split : space.entries = before ++ rest)
    (res : List Region) {fuel : Nat} (enough : rest.length < fuel) :
    getVmRegionsLoop recurse fuel addr depth res =
      some (res ++ (walked depth rest).map VmInfo.region) := by
  induction rest generalizing before addr depth res fuel with
  | nil =>
    obtain ⟨fuel, rfl⟩ := Nat.exists_eq_add_of_lt enough
    have none := stands.recurse_eq answers split
    simp [getVmRegionsLoop, none, walked]
  | cons e rest ih =>
    have next : space.entries = (before ++ [e]) ++ rest := by simp [split]
    rw [List.length_cons] at enough
    cases shown : e.visible depth with
    | false =>
      rw [walked, if_neg (by simp [shown])]
      exact ih (stands.skip shown) next res (by omega)
    | true =>
      obtain ⟨fuel, rfl⟩ : ∃ more, fuel = more + 1 := ⟨fuel - 1, by omega⟩
      have found := stands.recurse_eq answers split
      rw [List.find?_cons_of_pos shown] at found
      rw [walked, if_pos shown, getVmRegionsLoop, found, List.map_cons, VmInfo.next,
        List.append_cons]
      dsimp only
      split
      · rename_i submap
        exact ih (at_enter split submap) next _ (by omega)
      · rename_i mapping
        exact ih (at_pass split (by simpa using mapping)) next _ (by omega)

/-- The walk goes into every submap of which something is left. -/
def Open (before rest : List VmInfo) (depth : Nat) : Prop :=
  ∀ s ∈ before, ∀ e ∈ rest, s.Holds e → s.depth < depth

theorem Open.depth_le (opened : Open before (e :: rest) depth)
    (split : space.entries = before ++ e :: rest) : e.depth ≤ depth := by
  by_contra deep
  obtain ⟨s, earlier, level, holds⟩ := exists_holds split (not_le.mp deep)
  have := opened s earlier e List.mem_cons_self holds
  omega

/-- The next depth is that of a mapping, and of the inside of a submap. -/
theorem Open.step (opened : Open before (e :: rest) depth)
    (split : space.entries = before ++ e :: rest) :
    Open (before ++ [e]) rest (if e.visible depth then e.next else depth) := by
  intro s member f later holds
  have shallow := opened.depth_le split
  rcases List.mem_append.mp member with old | new
  · have inside := opened s old f (.tail _ later) holds
    split_ifs with shown
    · rw [VmInfo.next]
      rw [VmInfo.visible] at shown
      split_ifs at shown ⊢ with submap
      · rw [decide_eq_true_eq] at shown
        omega
      · -- a submap that goes on behind a mapping holds it
        obtain ⟨front, behind⟩ := related split
        rcases front s old with ⟨-, above, -⟩ | apart
        · exact above
        · rcases behind f later with ⟨sub, -⟩ | after
          · exact absurd sub submap
          · obtain ⟨-, -, -, within⟩ := holds
            have posE := stop_pos (split ▸ by simp : e ∈ space.entries)
            have posF := stop_pos (split ▸ by simp [later] : f ∈ space.entries)
            omega
    · exact inside
  · obtain rfl := List.mem_singleton.mp new
    obtain ⟨submap, -⟩ := holds
    split_ifs with shown
    · rw [VmInfo.next, if_pos submap]
      omega
    · rw [VmInfo.visible, if_pos submap, decide_eq_true_eq] at shown
      omega

/-- No mapping is passed over. -/
theorem filter_walked (opened : Open before rest depth) (split : space.entries = before ++ rest) :
    (walked depth rest).filter (fun e => !e.isSubmap) = rest.filter fun e => !e.isSubmap := by
  induction rest generalizing before depth with
  | nil => rfl
  | cons e rest ih =>
    have next : space.entries = (before ++ [e]) ++ rest := by simp [split]
    have step := opened.step split
    rw [walked]
    cases shown : e.visible depth with
    | true =>
      rw [if_pos shown] at step
      rw [if_pos rfl, List.filter_cons, List.filter_cons, ih step next]
    | false =>
      rw [if_neg (by simp [shown])] at step
      have submap : e.isSubmap = true := by
        by_contra mapping
        have shallow := opened.depth_le split
        rw [VmInfo.visible, if_neg mapping, decide_eq_false_iff_not] at shown
        exact shown shallow
      rw [if_neg Bool.false_ne_true, List.filter_cons, if_neg (by simp [submap]), ih step next]

/-- The mappings do not overlap. -/
theorem mappings_apart : (space.entries.filter fun e => !e.isSubmap).Pairwise fun e f =>
    e.addr < f.addr := by
  refine ((List.pairwise_filter).mpr (space.ordered.imp_of_mem ?_))
  intro e f own _ related mapping _
  rcases related with ⟨submap, -⟩ | apart
  · simp [submap] at mapping
  · exact BitVec.lt_def.mpr ((stop_pos own).trans_le apart)

theorem getVmRegions_eq (answers : space.Answers recurse)
    (sortRegions : BaseSort Region Region.base) {fuel : Nat}
    (enough : space.entries.length < fuel) :
    getVmRegions recurse sortRegions fuel =
      some (sortRegions.1 ((walked 0 space.entries).map VmInfo.region)) := by
  have start : At [] space.entries 0 0 :=
    ⟨nofun, fun e member => (Nat.zero_le _).trans_lt (stop_pos member)⟩
  rw [getVmRegions, loop_walked answers start rfl [] enough, List.nil_append, Option.map_some]

end AddressSpace

/-- On every address space the walk comes to its end, with each mapping once; what else it lists
are submaps. -/
theorem getVmRegions_lists {space : AddressSpace} {recurse : Uint64 → Nat → Option VmInfo}
    (answers : space.Answers recurse) (sortRegions : BaseSort Region Region.base) {fuel : Nat}
    (enough : space.entries.length < fuel) :
    ∃ res, getVmRegions recurse sortRegions fuel = some res ∧
      res.Pairwise (fun a b => a.base ≤ b.base) ∧
      res.Perm ((walked 0 space.entries).map VmInfo.region) ∧
      res.filter (fun r => !r.submap) =
        (space.entries.filter fun e => !e.isSubmap).map VmInfo.region := by
  obtain ⟨perm, sorted⟩ := sortRegions.2 ((walked 0 space.entries).map VmInfo.region)
  refine ⟨_, AddressSpace.getVmRegions_eq answers sortRegions enough, sorted, perm, ?_⟩
  have complete := @AddressSpace.filter_walked space [] space.entries 0 nofun rfl
  have mappings : ((walked 0 space.entries).map VmInfo.region).filter (fun r => !r.submap) =
      (space.entries.filter fun e => !e.isSubmap).map VmInfo.region := by
    rw [List.filter_map, ← complete]
    rfl
  have same := perm.filter fun r => !r.submap
  rw [mappings] at same
  -- the mappings have bases of their own, so sorting leaves them where they are
  have apart : ((space.entries.filter fun e => !e.isSubmap).map VmInfo.region).Pairwise
      fun a b => a.base < b.base := List.pairwise_map.mpr AddressSpace.mappings_apart
  have bases : (((space.entries.filter fun e => !e.isSubmap).map VmInfo.region).map
      Region.base).Nodup :=
    (List.pairwise_map.mpr apart).imp fun below => (BitVec.ne_of_lt below)
  refine List.Perm.eq_of_pairwise (fun a b left right below above => ?_)
    (sorted.filter _) (apart.imp BitVec.le_of_lt) same
  exact List.inj_on_of_nodup_map bases (same.mem_iff.mp left) right (BitVec.le_antisymm below above)

/-- A mapping, and two submaps with what they map. -/
def twoSubmaps : AddressSpace where
  entries := [⟨0x1000, 0x1000, 0, 5, 0xff, false⟩, ⟨0x10000, 0x4000, 0, 5, 0, true⟩,
    ⟨0x10000, 0x1000, 1, 5, 0, false⟩, ⟨0x12000, 0x1000, 1, 3, 0, false⟩,
    ⟨0x20000, 0x2000, 0, 5, 0, true⟩, ⟨0x20000, 0x1000, 1, 5, 0, false⟩]
  bounded := by decide
  ordered := by decide
  nested := by decide

def twoSubmapsRecurse (addr : Uint64) (depth : Nat) : Option VmInfo :=
  twoSubmaps.entries.find? fun e => e.visible depth && decide (addr.toNat < e.stop)

theorem getVmRegions_lists_two : ∃ res,
    getVmRegions twoSubmapsRecurse (stableBaseSort _) 7 = some res ∧
    res.Pairwise (fun a b => a.base ≤ b.base) ∧
    res.Perm ((walked 0 twoSubmaps.entries).map VmInfo.region) ∧
    res.filter (fun r => !r.submap) =
      (twoSubmaps.entries.filter fun e => !e.isSubmap).map VmInfo.region :=
  @getVmRegions_lists twoSubmaps twoSubmapsRecurse (fun _ _ => rfl) (stableBaseSort _) 7 (by decide)

/-- The second submap is not listed: the walk is already at the depth of what it maps. -/
example : (walked 0 twoSubmaps.entries).map (·.addr) =
    [0x1000, 0x10000, 0x10000, 0x12000, 0x20000] := rfl

/-! The regions of the target that `MachORegions::reset` gets. -/

def Region.vmRegion (r : Region) : VmRegion where
  base := r.base
  size := r.size
  prot := r.prot
  tag := r.tag

/-- The JIT regions are those that the walk lists as executable and with the tag of JIT code, but
where an image begins. -/
theorem MachORegions.reset_jits_walked {hash : Hasher}
    {sortBuckets : List (Bucket 64) → List (Bucket 64)}
    {sortRegions : BaseSort ImageInfo ImageInfo.base} {getSha256 : List Uint8 → Sha256}
    {fuel : Nat} {task : TargetTask} {m m' : MachORegions}
    (done : m.reset hash sortBuckets sortRegions getSha256 fuel task = some m')
    {space : AddressSpace} {recurse : Uint64 → Nat → Option VmInfo}
    (answers : space.Answers recurse) {sortVm : BaseSort Region Region.base} {fuelVm : Nat}
    (enough : space.entries.length < fuelVm)
    (walk : (getVmRegions recurse sortVm fuelVm).map (·.map Region.vmRegion) =
      some task.vmRegions) : ∃ infos,
      getDyldImageInfos task.memory task.after fuel sortRegions task.dyldInfo = some infos ∧
      ((m'.mRegions.filter (·.isJit)).map fun r => (r.base, r.size)).Perm
        (((walked 0 space.entries).filter fun e =>
          e.region.vmRegion.entersJit (infos.map (·.base))).map fun e => (e.addr, e.sz)) := by
  obtain ⟨infos, got, was, -⟩ := resetTo_of_reset done
  refine ⟨infos, got, was.jitPlaces.trans ?_⟩
  rw [AddressSpace.getVmRegions_eq answers sortVm enough, Option.map_some] at walk
  have listed := ((sortVm.2 ((walked 0 space.entries).map VmInfo.region)).1.map
    Region.vmRegion).filter fun v => v.entersJit (infos.map (·.base))
  rw [Option.some.inj walk, List.map_map, List.filter_map] at listed
  refine (listed.map fun v => (v.base, v.size)).trans (.of_eq ?_)
  rw [List.map_map]
  rfl

end XnuTrace
