import XnuTrace.MachOCommands
import XnuTrace.MetadataRoundTrip
import Mathlib.Algebra.Order.BigOperators.Group.List

/-! `get_dyld_image_infos`: the images that dyld has loaded into the target, each with its base, the
size and the slide of its text and its path. -/
namespace XnuTrace
open Memory Reads FallibleMap

def vmProtExecute : Uint32 := 4

def SegmentCommand64.executable (seg : SegmentCommand64) : Bool := seg.maxprot &&& vmProtExecute ≠ 0

/-- The loop of `get_text_size` and `get_text_base` over a field of the segments; the variable for
it is not initialised. `none` is a failed assertion. -/
def onlyExecutable (field : SegmentCommand64 → Uint64) (segments : List SegmentCommand64) :
    Option Uint64 :=
  let found := segments.foldl (fun (found : Uint32 × Option Uint64) seg =>
    if seg.executable then (found.1 + 1, some (field seg)) else found) (0, none)
  if found.1 = 1 then found.2 else none

def getTextSize (segments : List SegmentCommand64) : Option Uint64 :=
  onlyExecutable (·.vmsize) segments

def getTextBase (segments : List SegmentCommand64) : Option Uint64 :=
  onlyExecutable (·.vmaddr) segments

structure TaskDyldInfo where
  allImageInfoAddr : Uint64
  allImageInfoSize : Uint64
  allImageInfoFormat : Uint32

def taskDyldAllImageInfo64 : Uint32 := 1

/-- What `image_info{...}` is made of for an image at `base`. -/
def imageInfoAt (target : Uint64 → Option Uint8) (after : Nat → Uint8) (fuel : Nat)
    (base pathAddr : Uint64) : Option ImageInfo := do
  let walk ← readMachoSegsTarget target after base fuel
  let segs ← walk.val
  let size ← getTextSize segs
  let textBase ← getTextBase segs
  let path ← (← readCstrTarget target fuel { targetAddr := pathAddr })
  some {
    base, size, slide := base - textBase, path := path.1, uuid := .replicate 16 0
    bytes := [], digest := .replicate 32 0, isJit := false }

def sizeofDyldImageInfo : Nat := 24

/-- A loop that does not end within `fuel` rounds is `none` here too. -/
def getDyldImageInfos (target : Uint64 → Option Uint8) (after : Nat → Uint8) (fuel : Nat)
    (sortInfos : BaseSort ImageInfo ImageInfo.base) (dyldInfo : TaskDyldInfo) :
    Option (List ImageInfo) :=
  if dyldInfo.allImageInfoFormat ≠ taskDyldAllImageInfo64 then none
  else do
    let allInfoBuf ← readTarget target dyldInfo.allImageInfoAddr dyldInfo.allImageInfoSize.toNat
    let allImgInfos := ofList allInfoBuf after
    let infoArrayCount : Uint32 := loadWord 32 4 allImgInfos 4
    let infoArray : Uint64 := loadWord 64 8 allImgInfos 8
    if infoArray = 0 then some []
    else do
      let dyldBase := loadWord 64 8 allImgInfos 32
      let dyldPath := loadWord 64 8 allImgInfos 192
      let dyld ← imageInfoAt target after fuel dyldBase dyldPath
      let infosBuf ← readTarget target infoArray (infoArrayCount.toNat * sizeofDyldImageInfo)
      let imgInfos := ofList infosBuf after
      let images ← (List.range infoArrayCount.toNat).mapM fun i =>
        imageInfoAt target after fuel (loadWord 64 8 imgInfos (sizeofDyldImageInfo * i))
          (loadWord 64 8 imgInfos (sizeofDyldImageInfo * i + 8))
      some (sortInfos.1 (dyld :: images))

theorem onlyExecutable_eq (field : SegmentCommand64 → Uint64) (segments : List SegmentCommand64) :
    segments.foldl (fun (found : Uint32 × Option Uint64) seg =>
      if seg.executable then (found.1 + 1, some (field seg)) else found) (0, none) =
    (BitVec.ofNat 32 (segments.filter (·.executable)).length,
      (segments.filter (·.executable)).getLast?.map field) := by
  induction segments using List.reverseRecOn with
  | nil => rfl
  | append_singleton segments seg ih =>
    rw [List.foldl_concat, ih, List.filter_append]
    cases exec : seg.executable with
    | true =>
      have one : [seg].filter (·.executable) = [seg] := List.filter_cons_of_pos exec
      rw [one, if_pos rfl, List.length_append, List.getLast?_concat, BitVec.ofNat_add]
      rfl
    | false =>
      have none' : [seg].filter (·.executable) = [] :=
        List.filter_cons_of_neg (ne_true_of_eq_false exec)
      rw [none', if_neg Bool.false_ne_true, List.append_nil]

/-- The assertion holds for one segment that may be executed, and the field is its field. -/
theorem onlyExecutable_iff {field : SegmentCommand64 → Uint64} {segments : List SegmentCommand64}
    (few : segments.length < 2 ^ 32) {value : Uint64} : onlyExecutable field segments = some value ↔
      ∃ seg, segments.filter (·.executable) = [seg] ∧ value = field seg := by
  have fewer := (List.length_filter_le (·.executable) segments).trans_lt few
  rw [onlyExecutable]
  simp only [onlyExecutable_eq]
  constructor
  · intro found
    obtain ⟨one, last⟩ := Option.ite_none_right_eq_some.mp found
    have length : (segments.filter (·.executable)).length = 1 := by bv_omega
    obtain ⟨seg, only⟩ := List.length_eq_one_iff.mp length
    rw [only] at last
    exact ⟨seg, only, (Option.some.inj last).symm⟩
  · rintro ⟨seg, only, rfl⟩
    rw [only]
    rfl

/-- An image that dyld has loaded, with the one of its segments that may be executed. -/
structure LoadedImage where
  base : Uint64
  pathAddr : Uint64
  modDate : Uint64
  path : List Uint8
  image : MachImage
  text : SegmentCommand64
  only : image.segments.filter (·.executable) = [text]

namespace LoadedImage

/-- Its `dyld_image_info`. -/
def record (i : LoadedImage) : List Uint8 :=
  wordBytes 8 i.base ++ wordBytes 8 i.pathAddr ++ wordBytes 8 i.modDate

/-- The `image_info` to be made of it. -/
def info (i : LoadedImage) : ImageInfo where
  base := i.base
  size := i.text.vmsize
  slide := i.base - i.text.vmaddr
  path := i.path
  uuid := .replicate 16 0
  bytes := []
  digest := .replicate 32 0
  isJit := false

/-- The target has its header, its commands and its path, on pages that can be read whole. -/
structure In (i : LoadedImage) (target : Uint64 → Option Uint8) : Prop where
  mapped : i.image.MappedAt target i.base
  noWrap : i.pathAddr.toNat + i.path.length < 2 ^ 64
  nonzero : 0 ∉ i.path
  string : readTarget target i.pathAddr (i.path.length + 1) = some (i.path ++ [0])
  readable : ∀ a, InPages i.pathAddr i.path.length a → (target a).isSome

/-- The rounds that the loops over its commands and over the pages of its path take. -/
def rounds (i : LoadedImage) : Nat :=
  max i.image.commands.length
    ((i.pathAddr.toNat + i.path.length) / pageSz - i.pathAddr.toNat / pageSz)

theorem few (i : LoadedImage) : i.image.segments.length < 2 ^ 32 := by
  have small := i.image.header.sizeofcmds.isLt
  rw [i.image.sized] at small
  refine lt_of_le_of_lt ?_ small
  rw [MachImage.segments, List.length_flatMap, List.length_flatMap]
  refine List.sum_le_sum fun c _ => ?_
  have long := c.eight_le
  cases c with
  | segment s =>
    rw [LoadCommand.kept]
    split
    · exact Nat.zero_le _
    · exact (Nat.le_of_lt (by decide : 1 < 8)).trans long
  | other c => exact Nat.zero_le _

theorem length_record (i : LoadedImage) : i.record.length = sizeofDyldImageInfo := by
  simp only [record, List.length_append, length_wordBytes, sizeofDyldImageInfo]

theorem imageInfoAt_eq {i : LoadedImage} {target : Uint64 → Option Uint8} (loaded : i.In target)
    (after : Nat → Uint8) {fuel : Nat} (enough : i.rounds < fuel) :
    imageInfoAt target after fuel i.base i.pathAddr = some i.info := by
  obtain ⟨walk, ran, segments, -⟩ := MachImage.readMachoSegsTarget_mapped loaded.mapped after
    ((le_max_left ..).trans enough.le)
  obtain ⟨addrs, path, -⟩ := readCstrTarget_loop (s := { targetAddr := i.pathAddr }) loaded.noWrap
    loaded.nonzero loaded.string loaded.readable List.not_mem_nil
    ((le_max_right ..).trans_lt enough)
  have size : getTextSize i.image.segments = some i.text.vmsize :=
    (onlyExecutable_iff i.few).mpr ⟨i.text, i.only, rfl⟩
  have base : getTextBase i.image.segments = some i.text.vmaddr :=
    (onlyExecutable_iff i.few).mpr ⟨i.text, i.only, rfl⟩
  simp only [imageInfoAt, ran, segments, size, base, path, Option.bind_eq_bind, Option.bind_some]
  rfl

end LoadedImage

/-- `dyld_all_image_infos`: its fields that are read, and what stands between them. -/
structure DyldAllImageInfos where
  version : Uint32
  infoArrayCount : Uint32
  infoArray : Uint64
  notification : Vector Uint8 16
  dyldImageLoadAddress : Uint64
  between : Vector Uint8 152
  dyldPath : Uint64
  rest : List Uint8

def DyldAllImageInfos.bytes (a : DyldAllImageInfos) : List Uint8 :=
  wordBytes 4 a.version ++ wordBytes 4 a.infoArrayCount ++ wordBytes 8 a.infoArray ++
    a.notification.toList ++ wordBytes 8 a.dyldImageLoadAddress ++ a.between.toList ++
    wordBytes 8 a.dyldPath ++ a.rest

/-- dyld's own view of the images that it has loaded, in a target with all of them. -/
structure DyldView (target : Uint64 → Option Uint8) (dyldInfo : TaskDyldInfo)
    (dyld : LoadedImage) (images : List LoadedImage) where
  infos : DyldAllImageInfos
  format : dyldInfo.allImageInfoFormat = taskDyldAllImageInfo64
  whole : dyldInfo.allImageInfoSize.toNat = infos.bytes.length
  mapped : readTarget target dyldInfo.allImageInfoAddr infos.bytes.length = some infos.bytes
  initialised : infos.infoArray ≠ 0
  count : infos.infoArrayCount.toNat = images.length
  array : readTarget target infos.infoArray (images.flatMap LoadedImage.record).length =
    some (images.flatMap LoadedImage.record)
  base : infos.dyldImageLoadAddress = dyld.base
  path : infos.dyldPath = dyld.pathAddr
  loaded : ∀ i ∈ dyld :: images, i.In target

section
variable {target : Uint64 → Option Uint8} {after : Nat → Uint8} {fuel : Nat}
  {dyldInfo : TaskDyldInfo} {dyld : LoadedImage} {images : List LoadedImage}

/-- The array of the images, one after the other. -/
theorem mapM_imageInfoAt (after : Nat → Uint8) {mem : Nat → Uint8}
    (loaded : ∀ i ∈ images, i.In target)
    (enough : ∀ i ∈ images, i.rounds < fuel)
    (holds : Holds mem 0 (images.flatMap LoadedImage.record)) :
    ((List.range images.length).mapM fun i =>
      imageInfoAt target after fuel (loadWord 64 8 mem (sizeofDyldImageInfo * i))
        (loadWord 64 8 mem (sizeofDyldImageInfo * i + 8))) =
      some (images.map LoadedImage.info) := by
  refine mapM_eq_some_iff.mpr (List.forall₂_iff_get.mpr ⟨by simp, fun i inside _ => ?_⟩)
  have inside : i < images.length := by simpa using inside
  have here := holds_flatMap (fun b _ => b.length_record) holds i inside
  simp only [LoadedImage.record, holds_append, length_wordBytes, Nat.zero_add] at here
  have member := List.getElem_mem inside
  simp only [List.get_eq_getElem, List.getElem_range, List.getElem_map]
  rw [loadWord_wordBytes (by decide) here.1.1, loadWord_wordBytes (by decide) here.1.2]
  exact LoadedImage.imageInfoAt_eq (loaded _ member) after (enough _ member)

/-- Of a target where dyld has loaded its images each is found, with dyld itself, in the order of
their bases. -/
theorem getDyldImageInfos_view (view : DyldView target dyldInfo dyld images) (after : Nat → Uint8)
    (sortInfos : BaseSort ImageInfo ImageInfo.base)
    (enough : ∀ i ∈ dyld :: images, i.rounds < fuel) :
    ∃ infos, getDyldImageInfos target after fuel sortInfos dyldInfo = some infos ∧
      infos.Perm ((dyld :: images).map LoadedImage.info) ∧
      infos.Pairwise fun a b => a.base ≤ b.base := by
  have holds := holds_ofList view.infos.bytes after
  simp only [DyldAllImageInfos.bytes, holds_append, List.length_append, length_wordBytes,
    Vector.length_toList] at holds
  obtain ⟨⟨⟨⟨⟨⟨⟨-, count⟩, array⟩, -⟩, base⟩, -⟩, path⟩, -⟩ := holds
  have size : (images.flatMap LoadedImage.record).length =
      images.length * sizeofDyldImageInfo :=
    (length_flatMap_const fun (i : LoadedImage) _ => i.length_record).trans (Nat.mul_comm ..)
  have found := LoadedImage.imageInfoAt_eq (view.loaded dyld List.mem_cons_self) after
    (enough dyld List.mem_cons_self)
  have each := mapM_imageInfoAt after
    (fun i member => view.loaded i (.tail _ member)) (fun i member => enough i (.tail _ member))
    (holds_ofList (images.flatMap LoadedImage.record) after)
  have records := view.array
  rw [size, ← view.count] at records
  rw [← view.count] at each
  refine ⟨_, ?_, sortInfos.2 _⟩
  rw [getDyldImageInfos, if_neg (not_not_intro view.format), view.whole, view.mapped]
  simp only [Option.bind_eq_bind, Option.bind_some, DyldAllImageInfos.bytes]
  rw [loadWord_wordBytes (by decide) count, loadWord_wordBytes (by decide) array,
    loadWord_wordBytes (by decide) base, loadWord_wordBytes (by decide) path,
    if_neg view.initialised, view.base, view.path, found, records]
  simp only [Option.bind_some, each]
  rfl

end

/-- One segment, `__TEXT`, below a page. -/
def textSegment : SegmentCommand64 where
  cmd := lcSegment64
  cmdsize := 72
  segname := [0x5f, 0x5f, 0x54, 0x45, 0x58, 0x54, 0, 0, 0, 0, 0, 0, 0, 0, 0, 0]
  vmaddr := 0x1000
  vmsize := 0x800
  fileoff := 0
  filesize := 0x800
  maxprot := 5
  initprot := 5
  nsects := 0
  flags := 0

def textImage : MachImage where
  header :=
    { magic := 0xfeedfacf, cputype := 0x100000c, cpusubtype := 0, filetype := 2, ncmds := 1
      sizeofcmds := 72, flags := 0, reserved := 0 }
  commands := [.segment ⟨textSegment, [], rfl, rfl, rfl⟩]
  sized := rfl

/-- With its path behind it. -/
def textLoaded (base : Uint64) : LoadedImage where
  base
  pathAddr := base + 104
  modDate := 0
  path := ascii "/a"
  image := textImage
  text := textSegment
  only := rfl

def dyldInfos : DyldAllImageInfos where
  version := 15
  infoArrayCount := 1
  infoArray := 200
  notification := .replicate 16 0
  dyldImageLoadAddress := 0x2000
  between := .replicate 152 0
  dyldPath := 0x2068
  rest := []

/-- dyld at `0x2000`, the same image once more at `0x1000`. -/
def dyldTarget (a : Uint64) : Option Uint8 :=
  some <|
    if a.toNat < 0x1000 then (dyldInfos.bytes ++ (textLoaded 0x1000).record).getD a.toNat 0
    else (textImage.bytes ++ ascii "/a" ++ [0]).getD (a.toNat % 0x1000) 0

def dyldTargetInfo : TaskDyldInfo where
  allImageInfoAddr := 0
  allImageInfoSize := 200
  allImageInfoFormat := taskDyldAllImageInfo64

theorem textLoaded_in : (textLoaded 0x1000).In dyldTarget ∧
    (textLoaded 0x2000).In dyldTarget := by
  have readable : ∀ (base addr : Uint64) (n : Nat), ∀ a, InPages addr n a →
      (dyldTarget a).isSome := fun _ _ _ _ _ => rfl
  exact ⟨⟨by decide +kernel, by decide, by decide, by decide +kernel, readable 0 _ _⟩,
    ⟨by decide +kernel, by decide, by decide, by decide +kernel, readable 0 _ _⟩⟩

def dyldTargetView : DyldView dyldTarget dyldTargetInfo (textLoaded 0x2000)
    [textLoaded 0x1000] where
  infos := dyldInfos
  format := rfl
  whole := rfl
  mapped := by decide +kernel
  initialised := by decide
  count := rfl
  array := by decide +kernel
  base := rfl
  path := rfl
  loaded := by
    intro i member
    rcases List.mem_pair.mp member with rfl | rfl
    exacts [textLoaded_in.2, textLoaded_in.1]

theorem getDyldImageInfos_view_two : ∃ infos,
    getDyldImageInfos dyldTarget (fun _ => 0) 2 (stableBaseSort _) dyldTargetInfo = some infos ∧
    infos.Perm ([textLoaded 0x2000, textLoaded 0x1000].map LoadedImage.info) ∧
    infos.Pairwise fun a b => a.base ≤ b.base :=
  getDyldImageInfos_view dyldTargetView (fun _ => 0) (stableBaseSort _) (by decide)

end XnuTrace
