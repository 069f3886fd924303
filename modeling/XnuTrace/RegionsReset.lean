import XnuTrace.DyldImages
import XnuTrace.LookupInst
import XnuTrace.Drcov
import XnuTrace.Lib.Stepwise

/-! `MachORegions::reset`: the images that dyld has loaded and the JIT regions of the target, with
their bytes, and the hash of their pages. `lookup_inst` then reads what the target has. -/
namespace XnuTrace
open Memory FallibleMap MinimalPerfectHash

/-- The fields of a `region` that are read. -/
structure VmRegion where
  base : Uint64
  size : Uint64
  prot : Uint32
  tag : Uint32

/-- What the kernel and CoreSymbolication tell of the task; `uuidOf` is `none` where there is no
symbol owner. What lies behind a buffer is `after`. -/
structure TargetTask where
  memory : Uint64 → Option Uint8
  after : Nat → Uint8
  dyldInfo : TaskDyldInfo
  uuidOf : Uint64 → Option (Vector Uint8 16)
  vmRegions : List VmRegion

/-- A region with the bytes that the target has there. -/
def fillRegion (target : Uint64 → Option Uint8) (getSha256 : List Uint8 → Sha256)
    (region : ImageInfo) : Option ImageInfo := do
  let size := BitVec.ofNat 64 (roundupPow2Mul region.size.toNat pageSz)
  let bytes ← readTarget target region.base size.toNat
  some { region with size, bytes, digest := getSha256 bytes }

/-- `/tmp/jit-region-{:d}-tag-{:02x}`. -/
def jitPath (numJitRegions : Nat) (tag : Uint32) : List Uint8 :=
  ascii "/tmp/jit-region-" ++ decimal numJitRegions ++ ascii "-tag-" ++ hexByte (tag.setWidth 8)

/-- The body of the loop over the regions of the address space. -/
def addJitRegion (target : Uint64 → Option Uint8) (getSha256 : List Uint8 → Sha256)
    (regionBases : List Uint64) (s : List ImageInfo × Nat) (vmRegion : VmRegion) :
    Option (List ImageInfo × Nat) :=
  if vmRegion.prot &&& vmProtExecute = 0 then some s
  else if vmRegion.base ∈ regionBases then some s
  else if vmRegion.tag ≠ 0xff then some s
  else do
    let bytes ← readTarget target vmRegion.base vmRegion.size.toNat
    some (s.1 ++ [{
      base := vmRegion.base
      size := vmRegion.size
      slide := 0
      path := jitPath s.2 vmRegion.tag
      uuid := .replicate 16 0
      bytes
      digest := getSha256 bytes
      isJit := true }], s.2 + 1)

/-- The new regions; the hash is rebuilt on the table that the earlier ones left. -/
def MachORegions.reset (hash : Hasher) (sortBuckets : List (Bucket 64) → List (Bucket 64))
    (sortRegions : BaseSort ImageInfo ImageInfo.base) (getSha256 : List Uint8 → Sha256)
    (fuel : Nat) (task : TargetTask) (m : MachORegions) : Option MachORegions := do
  let infos ← getDyldImageInfos task.memory task.after fuel sortRegions task.dyldInfo
  let named ← infos.mapM fun region => (task.uuidOf region.base).map fun uuid =>
    { region with uuid }
  let filled ← named.mapM (fillRegion task.memory getSha256)
  let (regions, _) ← task.vmRegions.foldlM
    (addJitRegion task.memory getSha256 (filled.map (·.base))) (filled, 0)
  let mRegions := sortRegions.1 regions
  match MachORegions.rehash hash sortBuckets m.mPa2buf mRegions with
  | .error _ => none
  | .ok mPa2buf => some { mRegions, mPa2buf }

/-- The region holds what the target has there, under its digest. -/
structure ImageInfo.FromTarget (target : Uint64 → Option Uint8) (getSha256 : List Uint8 → Sha256)
    (r : ImageInfo) : Prop where
  held : readTarget target r.base r.size.toNat = some r.bytes
  digest : r.digest = getSha256 r.bytes

section
variable {target : Uint64 → Option Uint8} {getSha256 : List Uint8 → Sha256}

/-- The region of the address space is entered as a JIT region. -/
def VmRegion.entersJit (regionBases : List Uint64) (v : VmRegion) : Bool :=
  v.prot &&& vmProtExecute ≠ 0 ∧ v.base ∉ regionBases ∧ v.tag = 0xff

/-- What the loop over the address space adds to the images: the regions that enter it, numbered in
their order. -/
structure JitLoop (target : Uint64 → Option Uint8) (getSha256 : List Uint8 → Sha256)
    (entered : List VmRegion) (jits : List ImageInfo) : Prop where
  places : jits.map (fun r => (r.base, r.size, r.path)) =
    entered.zipIdx.map fun v => (v.1.base, v.1.size, jitPath v.2 0xff)
  held : ∀ r ∈ jits, r.FromTarget target getSha256 ∧ r.isJit = true

theorem JitLoop.length {entered : List VmRegion} {jits : List ImageInfo}
    (loop : JitLoop target getSha256 entered jits) : jits.length = entered.length := by
  simpa using congrArg List.length loop.places

theorem JitLoop.concat {entered : List VmRegion} {jits : List ImageInfo} {v : VmRegion}
    {r : ImageInfo} (loop : JitLoop target getSha256 entered jits) (base : r.base = v.base)
    (size : r.size = v.size) (path : r.path = jitPath jits.length 0xff)
    (held : r.FromTarget target getSha256) (jit : r.isJit = true) :
    JitLoop target getSha256 (entered ++ [v]) (jits ++ [r]) where
  places := by
    rw [List.map_append, List.zipIdx_append, List.map_append, loop.places, List.map_singleton,
      base, size, path, loop.length]
    simp
  held := by
    intro r' member
    rcases List.mem_append.mp member with old | new
    · exact loop.held r' old
    · rw [List.mem_singleton.mp new]
      exact ⟨held, jit⟩

theorem addJitRegion_spec {regionBases : List Uint64} {filled : List ImageInfo}
    {entered : List VmRegion} {jits : List ImageInfo} {v : VmRegion} {s : List ImageInfo × Nat}
    (loop : JitLoop target getSha256 entered jits)
    (added : addJitRegion target getSha256 regionBases (filled ++ jits, jits.length) v = some s) :
    ∃ jits', s = (filled ++ jits', jits'.length) ∧
      JitLoop target getSha256 (entered ++ [v].filter (·.entersJit regionBases)) jits' := by
  have stays : v.entersJit regionBases = false → some (filled ++ jits, jits.length) = some s →
      ∃ jits', s = (filled ++ jits', jits'.length) ∧
        JitLoop target getSha256 (entered ++ [v].filter (·.entersJit regionBases)) jits' := by
    rintro not ⟨⟩
    rw [List.filter_cons_of_neg (ne_true_of_eq_false not), List.filter_nil, List.append_nil]
    exact ⟨jits, rfl, loop⟩
  rw [addJitRegion] at added
  split_ifs at added with inert known other
  · exact stays (decide_eq_false fun enters => enters.1 inert) added
  · exact stays (decide_eq_false fun enters => enters.2.1 known) added
  · exact stays (decide_eq_false fun enters => other enters.2.2) added
  · have tag := not_not.mp other
    have enters : v.entersJit regionBases = true := decide_eq_true ⟨inert, known, tag⟩
    obtain ⟨bytes, read, last⟩ := Option.bind_eq_some_iff.mp added
    cases last
    rw [List.filter_cons_of_pos (p := fun v => VmRegion.entersJit regionBases v) enters,
      List.filter_nil, List.append_assoc]
    refine ⟨_, Prod.ext rfl ?_, loop.concat rfl rfl ?_ ⟨read, rfl⟩ rfl⟩
    · exact (@List.length_append _ jits [_]).symm
    · rw [tag]

theorem foldlM_addJitRegion {regionBases : List Uint64} {filled : List ImageInfo}
    (vmRegions : List VmRegion) {s : List ImageInfo × Nat}
    (added : vmRegions.foldlM (addJitRegion target getSha256 regionBases) (filled, 0) = some s) :
    ∃ jits, s = (filled ++ jits, jits.length) ∧
      JitLoop target getSha256 (vmRegions.filter (·.entersJit regionBases)) jits := by
  induction vmRegions using List.reverseRecOn generalizing s with
  | nil =>
    cases added
    exact ⟨[], by rw [List.append_nil]; rfl, rfl, fun r never => absurd never List.not_mem_nil⟩
  | append_singleton vmRegions v ih =>
    obtain ⟨mid, before, last⟩ := Stepwise.run_concat_some added
    obtain ⟨jits, rfl, loop⟩ := ih before
    rw [List.filter_append]
    exact addJitRegion_spec loop last

/-! The names of the files. -/

theorem filename_append_slash (dir : List Uint8) {name : List Uint8} (plain : 0x2f ∉ name) :
    filename (dir ++ 0x2f :: name) = name := by
  have kept : ∀ b ∈ name.reverse, decide (b ≠ 0x2f) = true := fun b member =>
    decide_eq_true fun slash => plain (slash ▸ List.mem_reverse.mp member)
  rw [filename, List.reverse_append, List.reverse_cons, List.append_assoc,
    List.takeWhile_append_of_pos kept, List.singleton_append,
    List.takeWhile_cons_of_neg (by decide), List.append_nil, List.reverse_reverse]

theorem mem_decimal {n : Nat} {b : Uint8} (member : b ∈ decimal n) : b ≠ 0x2f ∧ b ≠ 0x2d := by
  obtain ⟨c, digit, rfl⟩ := List.mem_map.mp member
  have range := Nat.isDigit_of_mem_toDigits (by decide) (by decide) digit
  simp only [Char.isDigit, Bool.and_eq_true, decide_eq_true_eq] at range
  have low : 48 ≤ c.toNat := UInt32.le_iff_toNat_le.mp range.1
  have high : c.toNat ≤ 57 := UInt32.le_iff_toNat_le.mp range.2
  constructor <;> bv_omega

/-- What stands in the name of the file of a JIT region behind its number. -/
def jitFileEnd (digest : Sha256) : List Uint8 :=
  ascii "tag-ff" ++ ascii "-" ++ (digest.toList.take 4).flatMap hexByte ++ ascii ".bin"

theorem logPath_jit {r : ImageInfo} {k : Nat} (path : r.path = jitPath k 0xff) :
    r.logPath = machoRegionPrefix ++ ascii "jit-region-" ++ (decimal k ++ 0x2d ::
      jitFileEnd r.digest) := by
  have whole : jitPath k 0xff =
      ascii "/tmp" ++ 0x2f :: (ascii "jit-region-" ++ decimal k ++ ascii "-tag-ff") := by
    have dir : ascii "/tmp/jit-region-" = ascii "/tmp" ++ 0x2f :: ascii "jit-region-" := rfl
    rw [jitPath, dir, List.append_assoc, List.append_assoc]
    rfl
  have plain : 0x2f ∉ ascii "jit-region-" ++ decimal k ++ ascii "-tag-ff" := by
    simp only [List.mem_append, not_or]
    exact ⟨⟨by decide, fun member => (mem_decimal member).1 rfl⟩, by decide⟩
  rw [ImageInfo.logPath, path, whole, filename_append_slash _ plain, jitFileEnd]
  simp only [List.append_assoc]
  rfl

/-- The number is read back from the name. -/
theorem logPath_jit_injective {r r' : ImageInfo} {k k' : Nat} (path : r.path = jitPath k 0xff)
    (path' : r'.path = jitPath k' 0xff) (same : r.logPath = r'.logPath) : k = k' := by
  have upTo : ∀ (k : Nat) (rest : List Uint8),
      (decimal k ++ 0x2d :: rest).takeWhile (fun b => decide (b ≠ 0x2d)) = decimal k := by
    intro k rest
    have kept : ∀ b ∈ decimal k, decide (b ≠ 0x2d) = true := fun b member =>
      decide_eq_true (mem_decimal member).2
    rw [List.takeWhile_append_of_pos kept, List.takeWhile_cons_of_neg (by decide), List.append_nil]
  rw [logPath_jit path, logPath_jit path'] at same
  have numbers := congrArg (List.takeWhile fun b => decide (b ≠ 0x2d))
    (List.append_cancel_left same)
  rw [upTo, upTo] at numbers
  exact decimal_injective numbers

theorem JitLoop.nodup_logPath {entered : List VmRegion} {jits : List ImageInfo}
    (loop : JitLoop target getSha256 entered jits) : (jits.map ImageInfo.logPath).Nodup := by
  have path : ∀ k (inside : k < jits.length), jits[k].path = jitPath k 0xff := by
    intro k inside
    have named := congrArg (·[k]?) loop.places
    simp only [List.getElem?_map, List.getElem?_zipIdx, List.getElem?_eq_getElem inside,
      List.getElem?_eq_getElem (inside.trans_eq loop.length), Option.map_some, Nat.zero_add,
      Option.some.injEq, Prod.mk.injEq] at named
    exact named.2.2
  refine List.nodup_iff_injective_get.mpr fun i j same => Fin.ext ?_
  have inside := i.isLt.trans_eq (List.length_map ImageInfo.logPath)
  have inside' := j.isLt.trans_eq (List.length_map ImageInfo.logPath)
  simp only [List.get_eq_getElem, List.getElem_map] at same
  exact logPath_jit_injective (path i inside) (path j inside') same

end

/-- Two images, and two regions with the tag of JIT code, one of them an image. -/
def dyldTask : TargetTask where
  memory := dyldTarget
  after := fun _ => 0
  dyldInfo := dyldTargetInfo
  uuidOf := fun _ => some (.replicate 16 0)
  vmRegions := [⟨0x1000, 0x1000, 5, 0xff⟩, ⟨0x3000, 0x1000, 7, 0xff⟩]

def dyldTaskReset : Option MachORegions :=
  MachORegions.reset (jevhash32 0x85EBCA77) stableSort (stableBaseSort _)
    (fun _ => .replicate 32 0) 2 dyldTask { mRegions := [], mPa2buf := .empty }

theorem dyldTaskReset_regions :
    dyldTaskReset.map (fun m => (m.mRegions.map fun r => (r.base, r.size), pageCount m.mRegions)) =
      some ([(0x1000, 0x1000), (0x2000, 0x1000), (0x3000, 0x1000)], 3) := by
  decide +kernel

/-- What `reset` makes of the images `infos` and of the address space. -/
structure MachORegions.ResetTo (getSha256 : List Uint8 → Sha256) (task : TargetTask)
    (infos : List ImageInfo) (m : MachORegions) : Prop where
  sorted : m.mRegions.Pairwise fun a b => a.base ≤ b.base
  held : ∀ r ∈ m.mRegions, r.FromTarget task.memory getSha256
  uuids : ∀ r ∈ m.mRegions, r.isJit = false → task.uuidOf r.base = some r.uuid
  images : ((m.mRegions.filter fun r => !r.isJit).map fun r =>
      (r.base, r.size, r.slide, r.path)).Perm
    (infos.map fun i =>
      (i.base, BitVec.ofNat 64 (roundupPow2Mul i.size.toNat pageSz), i.slide, i.path))
  jits : ((m.mRegions.filter (·.isJit)).map fun r => (r.base, r.size, r.path)).Perm
    ((task.vmRegions.filter (·.entersJit (infos.map (·.base)))).zipIdx.map fun v =>
      (v.1.base, v.1.size, jitPath v.2 0xff))
  jitFiles : ((m.mRegions.filter (·.isJit)).map ImageInfo.logPath).Nodup

section
variable {hash : Hasher} {sortBuckets : List (Bucket 64) → List (Bucket 64)}
  {sortRegions : BaseSort ImageInfo ImageInfo.base} {getSha256 : List Uint8 → Sha256}
  {fuel : Nat} {task : TargetTask} {m m' : MachORegions}

theorem MachORegions.ResetTo.jitPlaces {infos : List ImageInfo}
    (reset : m.ResetTo getSha256 task infos) :
    ((m.mRegions.filter (·.isJit)).map fun r => (r.base, r.size)).Perm
      ((task.vmRegions.filter (·.entersJit (infos.map (·.base)))).map fun v =>
        (v.base, v.size)) := by
  have places := reset.jits.map fun r => (r.1, r.2.1)
  rw [List.map_map, List.map_map] at places
  refine places.trans (.of_eq ?_)
  conv_rhs => rw [← List.zipIdx_map_fst 0 (task.vmRegions.filter _), List.map_map]
  rfl

/-- The images, named and filled. -/
theorem filled_spec {infos named filled : List ImageInfo} (images : ∀ i ∈ infos, i.isJit = false)
    (uuids : infos.mapM (fun region => (task.uuidOf region.base).map fun uuid =>
      { region with uuid }) = some named)
    (bytes : named.mapM (fillRegion task.memory getSha256) = some filled) :
    (∀ r ∈ filled, r.FromTarget task.memory getSha256 ∧ r.isJit = false ∧
      task.uuidOf r.base = some r.uuid) ∧
    filled.map (fun r => (r.base, r.size, r.slide, r.path)) = infos.map fun i =>
      (i.base, BitVec.ofNat 64 (roundupPow2Mul i.size.toNat pageSz), i.slide, i.path) := by
  have first := mapM_eq_some_iff.mp uuids
  have second := mapM_eq_some_iff.mp bytes
  clear uuids bytes
  induction first generalizing filled with
  | nil =>
    cases second
    exact ⟨fun r never => absurd never List.not_mem_nil, rfl⟩
  | @cons i n infos named own _ ih =>
    obtain ⟨uuid, found, rfl⟩ := Option.map_eq_some_iff.mp own
    cases second with
    | @cons _ r _ filled fill rest =>
      obtain ⟨each, places⟩ := ih (fun i h => images i (.tail _ h)) rest
      obtain ⟨content, last⟩ := Option.bind_eq_some_iff.mp fill
      obtain ⟨read, last⟩ := last
      cases last
      refine ⟨fun r member => ?_, by rw [List.map_cons, List.map_cons, places]⟩
      rcases List.mem_cons.mp member with rfl | later
      · exact ⟨⟨read, rfl⟩, images i List.mem_cons_self, found⟩
      · exact each r later

theorem imageInfoAt_isJit {base pathAddr : Uint64} {i : ImageInfo}
    (made : imageInfoAt task.memory task.after fuel base pathAddr = some i) : i.isJit = false := by
  simp only [imageInfoAt, Option.bind_eq_bind, Option.bind_eq_some_iff] at made
  obtain ⟨_, _, _, _, _, _, _, _, _, _, _, _, last⟩ := made
  cases last
  rfl

theorem getDyldImageInfos_isJit {infos : List ImageInfo}
    (got : getDyldImageInfos task.memory task.after fuel sortRegions task.dyldInfo = some infos) :
    ∀ i ∈ infos, i.isJit = false := by
  rw [getDyldImageInfos] at got
  split_ifs at got
  obtain ⟨allInfoBuf, _, got⟩ := Option.bind_eq_some_iff.mp got
  dsimp only at got
  split_ifs at got
  · cases got
    exact fun i never => absurd never List.not_mem_nil
  · obtain ⟨dyld, own, got⟩ := Option.bind_eq_some_iff.mp got
    obtain ⟨infosBuf, _, got⟩ := Option.bind_eq_some_iff.mp got
    obtain ⟨images, others, got⟩ := Option.bind_eq_some_iff.mp got
    cases got
    intro i member
    rcases List.mem_cons.mp ((sortRegions.2 _).1.mem_iff.mp member) with rfl | image
    · exact imageInfoAt_isJit own
    · obtain ⟨_, _, made⟩ := mem_of_mapM others image
      exact imageInfoAt_isJit made

/-- What `reset` goes through. -/
theorem MachORegions.reset_parts
    (done : m.reset hash sortBuckets sortRegions getSha256 fuel task = some m') :
    ∃ infos filled jits,
      getDyldImageInfos task.memory task.after fuel sortRegions task.dyldInfo = some infos ∧
      (∀ r ∈ filled, r.FromTarget task.memory getSha256 ∧ r.isJit = false ∧
        task.uuidOf r.base = some r.uuid) ∧
      filled.map (fun r => (r.base, r.size, r.slide, r.path)) = infos.map (fun i =>
        (i.base, BitVec.ofNat 64 (roundupPow2Mul i.size.toNat pageSz), i.slide, i.path)) ∧
      JitLoop task.memory getSha256
        (task.vmRegions.filter (·.entersJit (infos.map (·.base)))) jits ∧
      m'.mRegions = sortRegions.1 (filled ++ jits) ∧
      MachORegions.rehash hash sortBuckets m.mPa2buf m'.mRegions = .ok m'.mPa2buf := by
  obtain ⟨infos, got, done⟩ := Option.bind_eq_some_iff.mp done
  obtain ⟨named, uuids, done⟩ := Option.bind_eq_some_iff.mp done
  obtain ⟨filled, bytes, done⟩ := Option.bind_eq_some_iff.mp done
  obtain ⟨⟨regions, n⟩, added, done⟩ := Option.bind_eq_some_iff.mp done
  obtain ⟨each, places⟩ := filled_spec (getDyldImageInfos_isJit got) uuids bytes
  have bases : filled.map (·.base) = infos.map (·.base) := by
    simpa only [List.map_map, Function.comp_def] using congrArg (List.map Prod.fst) places
  rw [bases] at added
  obtain ⟨jits, same, loop⟩ := foldlM_addJitRegion task.vmRegions added
  obtain ⟨rfl, rfl⟩ := Prod.mk.inj same
  refine ⟨infos, filled, jits, got, each, places, loop, ?_⟩
  dsimp only at done
  cases hashed : MachORegions.rehash hash sortBuckets m.mPa2buf
    (sortRegions.1 (filled ++ jits)) with
  | error e =>
    rw [hashed] at done
    cases done
  | ok mPa2buf =>
    rw [hashed] at done
    cases done
    exact ⟨rfl, hashed⟩

/-- The images and the JIT regions, sorted together. -/
theorem JitLoop.resetTo {infos filled jits : List ImageInfo}
    (loop : JitLoop task.memory getSha256
      (task.vmRegions.filter (·.entersJit (infos.map (·.base)))) jits)
    (each : ∀ r ∈ filled, r.FromTarget task.memory getSha256 ∧ r.isJit = false ∧
      task.uuidOf r.base = some r.uuid)
    (places : filled.map (fun r => (r.base, r.size, r.slide, r.path)) = infos.map fun i =>
      (i.base, BitVec.ofNat 64 (roundupPow2Mul i.size.toNat pageSz), i.slide, i.path))
    (regions : m.mRegions = sortRegions.1 (filled ++ jits)) : m.ResetTo getSha256 task infos := by
  obtain ⟨perm, sorted⟩ := sortRegions.2 (filled ++ jits)
  rw [← regions] at perm sorted
  have images : (filled ++ jits).filter (fun r => !r.isJit) = filled := by
    have own : filled.filter (fun r => !r.isJit) = filled :=
      List.filter_eq_self.mpr fun r member => by rw [(each r member).2.1]; rfl
    have none : jits.filter (fun r => !r.isJit) = [] :=
      List.filter_eq_nil_iff.mpr fun r member => by rw [(loop.held r member).2]; decide
    rw [List.filter_append, own, none, List.append_nil]
  have others : (filled ++ jits).filter (·.isJit) = jits := by
    have own : jits.filter (·.isJit) = jits :=
      List.filter_eq_self.mpr fun r member => (loop.held r member).2
    have none : filled.filter (·.isJit) = [] :=
      List.filter_eq_nil_iff.mpr fun r member => by rw [(each r member).2.1]; decide
    rw [List.filter_append, own, none, List.nil_append]
  have permImages := perm.filter fun r => !r.isJit
  have permJits := perm.filter (·.isJit)
  rw [images] at permImages
  rw [others] at permJits
  refine ⟨sorted, fun r member => ?_, fun r member image => ?_, ?_, ?_, ?_⟩
  · rcases List.mem_append.mp (perm.mem_iff.mp member) with old | new
    · exact (each r old).1
    · exact (loop.held r new).1
  · have own := permImages.mem_iff.mp (List.mem_filter.mpr ⟨member, by rw [image]; rfl⟩)
    exact (each r own).2.2
  · exact places ▸ permImages.map _
  · exact loop.places ▸ permJits.map _
  · exact (permJits.map _).nodup_iff.mpr loop.nodup_logPath

theorem MachORegions.resetTo_of_reset
    (done : m.reset hash sortBuckets sortRegions getSha256 fuel task = some m') : ∃ infos,
      getDyldImageInfos task.memory task.after fuel sortRegions task.dyldInfo = some infos ∧
      m'.ResetTo getSha256 task infos ∧
      MachORegions.rehash hash sortBuckets m.mPa2buf m'.mRegions = .ok m'.mPa2buf := by
  obtain ⟨infos, filled, jits, got, each, places, loop, regions, hashed⟩ := reset_parts done
  exact ⟨infos, got, loop.resetTo each places regions, hashed⟩

/-- The regions are the images that dyld told of and the JIT regions of the address space, each
with the bytes of the target, and the hash is that of their pages. -/
theorem MachORegions.reset_resetTo
    (done : m.reset hash sortBuckets sortRegions getSha256 fuel task = some m') : ∃ infos,
      getDyldImageInfos task.memory task.after fuel sortRegions task.dyldInfo = some infos ∧
      m'.ResetTo getSha256 task infos ∧
      MachORegions.rehash hash sortBuckets m.mPa2buf m'.mRegions = .ok m'.mPa2buf :=
  resetTo_of_reset done

theorem MachORegions.reset_resetTo_two : ∃ m', dyldTaskReset = some m' ∧ ∃ infos,
    getDyldImageInfos dyldTask.memory dyldTask.after 2 (stableBaseSort _) dyldTask.dyldInfo =
      some infos ∧ m'.ResetTo (fun _ => .replicate 32 0) dyldTask infos ∧
    MachORegions.rehash (jevhash32 0x85EBCA77) stableSort .empty m'.mRegions = .ok m'.mPa2buf := by
  obtain ⟨m', done, -⟩ := Option.map_eq_some_iff.mp dyldTaskReset_regions
  exact ⟨m', done, reset_resetTo done⟩

/-- Images and regions of the address space start at pages, and what is entered of them does not
wrap around; the kernel's regions are whole pages. -/
structure TargetTask.Aligned (task : TargetTask) (infos : List ImageInfo) : Prop where
  images : ∀ i ∈ infos, pageSz ∣ i.base.toNat ∧
    i.base.toNat + roundupPow2Mul i.size.toNat pageSz ≤ 2 ^ 64
  vmRegions : ∀ v ∈ task.vmRegions, pageSz ∣ v.base.toNat ∧ pageSz ∣ v.size.toNat ∧
    v.base.toNat + v.size.toNat ≤ 2 ^ 64

theorem MachORegions.ResetTo.paged {infos : List ImageInfo} (reset : m.ResetTo getSha256 task infos)
    (aligned : task.Aligned infos) : ∀ r ∈ m.mRegions, r.Paged := by
  intro r member
  have held := length_readTarget (reset.held r member).held
  cases jit : r.isJit with
  | false =>
    have own : r ∈ m.mRegions.filter fun r => !r.isJit :=
      List.mem_filter.mpr ⟨member, by rw [jit]; rfl⟩
    obtain ⟨i, image, same⟩ := List.mem_map.mp (reset.images.mem_iff.mp (List.mem_map_of_mem own))
    simp only [Prod.mk.injEq] at same
    obtain ⟨base, size, -, -⟩ := same
    obtain ⟨page, fits⟩ := aligned.images i image
    have whole : pageSz ∣ roundupPow2Mul i.size.toNat pageSz :=
      ⟨_, (roundupPow2Mul_eq i.size.toNat 12 (by decide)).trans (Nat.mul_comm ..)⟩
    have length : r.size.toNat = roundupPow2Mul i.size.toNat pageSz % 2 ^ 64 :=
      size ▸ BitVec.toNat_ofNat ..
    refine ⟨base ▸ page, ?_, ?_, held⟩
    · exact length ▸ (Nat.dvd_mod_iff ⟨2 ^ 52, rfl⟩).mpr whole
    · rw [← base, length]
      have small := Nat.mod_le (roundupPow2Mul i.size.toNat pageSz) (2 ^ 64)
      omega
  | true =>
    have own : r ∈ m.mRegions.filter (·.isJit) := List.mem_filter.mpr ⟨member, jit⟩
    obtain ⟨v, region, same⟩ :=
      List.mem_map.mp (reset.jitPlaces.mem_iff.mp (List.mem_map_of_mem own))
    obtain ⟨base, size⟩ := Prod.mk.inj same
    obtain ⟨page, whole, fits⟩ := aligned.vmRegions v (List.mem_filter.mp region).1
    exact ⟨base ▸ page, size ▸ whole, base ▸ size ▸ fits, held⟩

/-- Where regions of whole pages hold what the target has, `lookup_inst` reads it. -/
theorem MachORegions.lookupInst_held (sorts : SortsBySize sortBuckets)
    {before : MphMapStatic 64 (List Uint8)}
    (hashed : MachORegions.rehash hash sortBuckets before m.mRegions = .ok m.mPa2buf)
    (paged : ∀ r ∈ m.mRegions, r.Paged)
    (holds : ∀ r ∈ m.mRegions, readTarget task.memory r.base r.size.toNat = some r.bytes)
    (few : pageCount m.mRegions < 2 ^ 31) {addr : Uint64} (word : 4 ∣ addr.toNat)
    (covered : ∃ r ∈ m.mRegions, r.Covers addr) :
    ∃ instr, m.lookupInst hash addr = some instr ∧
      readTarget task.memory addr 4 = some (wordBytes 4 instr) := by
  obtain ⟨r₀, member₀, covers₀⟩ := covered
  obtain ⟨r, found⟩ := Option.isSome_iff_exists.mp (regionAt_isSome member₀ covers₀)
  obtain ⟨member, low, high⟩ := regionAt_covers found
  have instr := lookupInst_regionAt sorts paged few hashed found
  obtain ⟨b, base⟩ := (paged r member).base
  obtain ⟨s, size⟩ := (paged r member).size
  have fits := (paged r member).fits
  obtain ⟨w, aligned4⟩ := word
  have inside : r.size.toNat = addr.toNat - r.base.toNat +
      (4 + (r.size.toNat - (addr.toNat - r.base.toNat) - 4)) := by
    simp only [base, size, pageSz] at *
    omega
  -- the bytes of the target there
  have held := holds r member
  rw [inside] at held
  have here := (readTarget_split (readTarget_split held).2).1
  have there : r.base + BitVec.ofNat 64 (addr.toNat - r.base.toNat) = addr := by
    apply BitVec.eq_of_toNat_eq
    rw [BitVec.toNat_add, BitVec.toNat_ofNat]
    omega
  rw [there] at here
  have length := length_readTarget here
  refine ⟨frontWord 32 4 ((r.bytes.drop (addr.toNat - r.base.toNat)).take 4), ?_, ?_⟩
  · have long : 4 ≤ (r.bytes.drop (addr.toNat - r.base.toNat)).length := by
      rw [List.length_take] at length
      omega
    rw [frontWord_take long]
    exact instr
  · rw [here, wordBytes_frontWord (by decide) length]

/-- After `reset`, whatever regions were there before, `lookup_inst` reads at each address of the
regions the word that the target has there. -/
theorem MachORegions.reset_lookupInst (sorts : SortsBySize sortBuckets)
    (done : m.reset hash sortBuckets sortRegions getSha256 fuel task = some m')
    (aligned : ∀ infos, getDyldImageInfos task.memory task.after fuel sortRegions task.dyldInfo =
      some infos → task.Aligned infos)
    (few : pageCount m'.mRegions < 2 ^ 31) {addr : Uint64} (word : 4 ∣ addr.toNat)
    (covered : ∃ r ∈ m'.mRegions, r.Covers addr) :
    ∃ instr, m'.lookupInst hash addr = some instr ∧
      readTarget task.memory addr 4 = some (wordBytes 4 instr) := by
  obtain ⟨infos, got, was, hashed⟩ := resetTo_of_reset done
  exact lookupInst_held sorts hashed (was.paged (aligned infos got))
    (fun r member => (was.held r member).held) few word covered

end

theorem aligned_of_places {task : TargetTask} (mappings : task.vmRegions = dyldTask.vmRegions)
    {infos : List ImageInfo}
    (places : infos.map (fun i => (i.base, i.size)) = [(0x1000, 0x800), (0x2000, 0x800)]) :
    task.Aligned infos := by
  refine ⟨fun i member => ?_, mappings ▸ by decide⟩
  have place := List.mem_map_of_mem (f := fun i : ImageInfo => (i.base, i.size)) member
  rw [places] at place
  rcases List.mem_pair.mp place with same | same <;>
  · obtain ⟨base, size⟩ := Prod.mk.inj same
    rw [base, size]
    decide

theorem dyldTask_aligned {infos : List ImageInfo} (got : getDyldImageInfos dyldTask.memory
    dyldTask.after 2 (stableBaseSort _) dyldTask.dyldInfo = some infos) :
    dyldTask.Aligned infos := by
  have places : (getDyldImageInfos dyldTask.memory dyldTask.after 2 (stableBaseSort _)
      dyldTask.dyldInfo).map (fun infos => infos.map fun i => (i.base, i.size)) =
        some [(0x1000, 0x800), (0x2000, 0x800)] := by
    decide +kernel
  rw [got, Option.map_some] at places
  exact aligned_of_places rfl (Option.some.inj places)

theorem MachORegions.reset_lookupInst_two : ∃ m', dyldTaskReset = some m' ∧ ∃ instr,
    m'.lookupInst (jevhash32 0x85EBCA77) 0x2004 = some instr ∧
      readTarget dyldTarget 0x2004 4 = some (wordBytes 4 instr) := by
  obtain ⟨m', done, facts⟩ := Option.map_eq_some_iff.mp dyldTaskReset_regions
  obtain ⟨places, pages⟩ := Prod.mk.inj facts
  have member : (0x2000, 0x1000) ∈ m'.mRegions.map fun r => (r.base, r.size) :=
    places ▸ .tail _ (.head _)
  obtain ⟨r, own, same⟩ := List.mem_map.mp member
  obtain ⟨base, size⟩ := Prod.mk.inj same
  have covers : r.Covers 0x2004 := by
    rw [ImageInfo.Covers, base, size]
    decide
  exact ⟨m', done, reset_lookupInst sortsBySize_stableSort done (fun _ => dyldTask_aligned)
    (pages ▸ by decide) (by decide) ⟨r, own, covers⟩⟩

end XnuTrace
