import XnuTrace.CompletedWrite

/-! Reuse of region files over the runs that share a directory. The test compares the
digest in a file's header, so what matters is that a file with a region's name and digest
is that region's complete file; only a cut between its header and its size breaks that. -/
namespace XnuTrace
open Stdio Memory FallibleMap

namespace TraceLog

/-- The files that the reuse test takes for these regions are their complete files. -/
structure Reusable (zstd : Zstd) (regions : List ImageInfo) (dir : Directory) : Prop where
  nodup : (Assoc.keys dir).Nodup
  complete : ∀ e ∈ dir, ∀ r ∈ regions, e.1 = cStr r.logPath →
    ∀ fh, CompressedFileReader.open logMachoRegionHdrMagic 32 e.2 = some fh →
      fh.mHdrBuf = r.digest.toList → e.2 = (regionFh r).close zstd

/-- A cut here leaves no unfinished file that has the name and the digest of a region. -/
def Harmless (regions : List ImageInfo) (mark : Option ImageInfo) : Prop :=
  ∀ q, mark = some q → ∀ r ∈ regions, cStr r.logPath = cStr q.logPath → r.digest ≠ q.digest

section
variable {z : ZstdStreams} {spill : Spill Uint8} {regions : List ImageInfo} {dir : Directory}

theorem reusable_nil (zstd : Zstd) (regions : List ImageInfo) : Reusable zstd regions [] where
  nodup := List.nodup_nil
  complete _ member := absurd member List.not_mem_nil

theorem Reusable.filter {zstd : Zstd} (reusable : Reusable zstd regions dir)
    (p : List Uint8 × List Uint8 → Bool) : Reusable zstd regions (dir.filter p) where
  nodup := (List.filter_sublist.map Prod.fst).nodup reusable.nodup
  complete e member := reusable.complete e (List.mem_filter.mp member).1

theorem Reusable.put {zstd : Zstd} (reusable : Reusable zstd regions dir) {name file : List Uint8}
    (complete : ∀ r ∈ regions, name = cStr r.logPath →
      ∀ fh, CompressedFileReader.open logMachoRegionHdrMagic 32 file = some fh →
        fh.mHdrBuf = r.digest.toList → file = (regionFh r).close zstd) :
    Reusable zstd regions (Assoc.put dir (name, file)) where
  nodup := Assoc.nodup_put reusable.nodup _
  complete e member := by
    rcases Assoc.mem_put member with old | rfl
    · exact reusable.complete e old
    · exact complete

/-- Files under other names do not matter. -/
theorem Reusable.putOther {zstd : Zstd} (reusable : Reusable zstd regions dir) {name : List Uint8}
    (other : isMachoRegion name = false) (file : List Uint8) :
    Reusable zstd regions (Assoc.put dir (name, file)) := by
  refine reusable.put fun r _ same => ?_
  rw [same, isMachoRegion_cStr] at other
  cases other

/-- The header of a file is read whatever stands in its size and behind it. -/
theorem open_headed (r : ImageInfo) (size : Uint64) (behind : List Uint8) : ∃ fh,
    CompressedFileReader.open logMachoRegionHdrMagic 32
      ((regionFh r).compHdrOf size ++ (r.digest.toList ++ behind)) = some fh ∧
    fh.mHdrBuf = r.digest.toList ∧ fh.mDecompSize = size ∧ fh.compressed = true := by
  have length : (regionFh r).mHdrBuf.length = 32 := r.digest.length_toList
  have opened := (regionFh r).open_front (List.ne_nil_of_length_pos (by omega)) (by omega) size behind
  rw [length] at opened
  exact ⟨_, opened, rfl, rfl, rfl⟩

/-- Without both headers a file cannot be opened. -/
theorem open_short {file : List Uint8} (short : file.length < sizeofLogCompHdr + 32) :
    CompressedFileReader.open logMachoRegionHdrMagic 32 file = none := by
  rw [CompressedFileReader.open, fread]
  split
  · rfl
  rename_i compHdr rest read
  split at read
  · simp only [Option.some.injEq, Prod.mk.injEq] at read
    have behind : fread 32 rest = none := by
      refine if_neg fun h => ?_
      have length := List.length_drop (i := sizeofLogCompHdr) (l := file)
      rw [read.2] at length
      omega
    split
    · rfl
    split
    · rfl
    rename_i size
    rw [not_not.mp size]
    exact behind ▸ rfl
  · cases read

/-! Writing. -/

/-- A region's file in a state that no harmful cut leaves. -/
theorem Reusable.putRegion (reusable : Reusable z.zstd regions dir) {q : ImageInfo}
    (same : ∀ r ∈ regions, r.digest = q.digest → r.bytes = q.bytes) {mark : Option ImageInfo}
    {file : List Uint8} (state : RegionState z q mark file) (harmless : Harmless regions mark) :
    Reusable z.zstd regions (Assoc.put dir (cStr q.logPath, file)) := by
  refine reusable.put fun r member named fh opened header => ?_
  cases state with
  | short short =>
    rw [Vector.length_toList] at short
    rw [open_short short] at opened
    cases opened
  | headed size behind =>
    obtain ⟨fh', opened', header', _⟩ := open_headed q size behind
    rw [Option.some.inj (opened.symm.trans opened'), header'] at header
    exact absurd (Vector.toList_inj.mp header.symm) (harmless q rfl r member named.symm)
  | complete =>
    rw [Option.some.inj (opened.symm.trans (open_complete z.zstd q))] at header
    have digest : r.digest = q.digest := Vector.toList_inj.mp header.symm
    rw [regionFh, regionFh, digest, same r member digest]

variable (z regions) in
/-- Wherever it is cut off, the region files can be reused, if the cut is harmless. -/
abbrev Keeps {α : Type} (m : Steps α) : Prop :=
  Prog.Keeps (Reusable z.zstd regions)
    (fun mark dir => Harmless regions mark → Reusable z.zstd regions dir) m
    fun _ => Reusable z.zstd regions

theorem keeps_ofOption {α : Type} (o : Option α) : Keeps z regions (Prog.ofOption o) :=
  .ofOption fun _ _ reusable _ => reusable

theorem keeps_onFile {name : List Uint8} (other : isMachoRegion name = false)
    (mark : List (Op Uint8) → Option ImageInfo) (before : List (Op Uint8))
    (method : Option (FileWriter z)) : Keeps z regions (onFile z spill name mark before method) := by
  refine (keeps_ofOption method).bind fun w => ?_
  refine (Prog.Keeps.each fun k _ => ?_).bind fun _ => .ret fun _ reusable => reusable
  exact .step (fun _ reusable _ => reusable.putOther other _) fun _ reusable =>
    reusable.putOther other _

theorem keeps_openFile {name : List Uint8} (other : isMachoRegion name = false)
    (mark : List (Op Uint8) → Option ImageInfo) (hdrMagic : Uint64) (hdr : List Uint8) (level : Int) :
    Keeps z regions (openFile z spill name mark hdrMagic hdr level) := by
  refine (Prog.Keeps.step (fun _ reusable _ => ?_) fun _ reusable => ?_).bind fun _ =>
    keeps_onFile other mark [] _
  · exact reusable.putOther other []
  · exact reusable.putOther other []

theorem keeps_writeMeta (regions' : List ImageInfo) (syms : List SymInfo) :
    Keeps z regions (writeMeta z spill regions' syms) :=
  (keeps_openFile isMachoRegion_metaBin _ _ _ _).bind fun metaFh =>
    Prog.Keeps.fold (fun _ _ _ => keeps_onFile isMachoRegion_metaBin _ _ _) metaFh

theorem keeps_removeAll (unwanted : List Uint8 → Bool) : Keeps z regions (removeAll unwanted) := by
  refine (Prog.Keeps.ask fun _ _ reusable _ => reusable).bind fun unused => ?_
  refine Prog.Keeps.each fun e _ => ?_
  exact .step (fun _ reusable _ => reusable.filter _) fun _ reusable => reusable.filter _

theorem keeps_writeRegion {q : ImageInfo}
    (same : ∀ r ∈ regions, r.digest = q.digest → r.bytes = q.bytes) :
    Keeps z regions (writeRegion z spill q) where
  stops dir reusable e member harmless := by
    obtain ⟨file, state, shown⟩ := (writeRegion_spec z spill q dir).2 e member
    rw [shown]
    exact reusable.putRegion same state harmless
  done dir reusable _ _ ended := by
    rw [(writeRegion_spec z spill q dir).1] at ended
    cases ended
    exact reusable.putRegion same .complete fun _ none => nomatch none

theorem keeps_recordStream (tid : Uint32) (tctx : ThreadCtx) :
    Keeps z regions (recordStream z spill tid tctx) :=
  (keeps_ofOption _).bind fun _ =>
    (keeps_openFile (isMachoRegion_threadName tid) _ _ _ _).bind fun w =>
      (Prog.Keeps.fold (fun _ _ _ => keeps_onFile (isMachoRegion_threadName tid) _ _ _) w).bind
        fun _ => .ret fun _ reusable => reusable

theorem keeps_recordSteps (log : TraceLog) : Keeps z regions (recordSteps z spill log) := by
  unfold recordSteps
  split
  · exact Prog.Keeps.each fun kv _ => keeps_recordStream kv.1 kv.2
  · exact .ret fun _ reusable => reusable

theorem keeps_closeStream (tid : Uint32) (tctx : ThreadCtx) :
    Keeps z regions (closeStream z spill tid tctx) :=
  (keeps_ofOption _).bind fun _ => (keeps_ofOption _).bind fun _ =>
    (keeps_onFile (isMachoRegion_threadName tid) _ _ _).bind fun _ => .ret fun _ reusable => reusable

theorem keeps_writeThread (log : TraceLog) (tid : Uint32) (tctx : ThreadCtx) :
    Keeps z regions (writeThread z spill log tid tctx) :=
  (keeps_openFile (isMachoRegion_threadName tid) _ _ _ _).bind fun _ =>
    (keeps_onFile (isMachoRegion_threadName tid) _ _ _).bind fun _ =>
      (keeps_onFile (isMachoRegion_threadName tid) _ _ _).bind fun _ => .ret fun _ reusable => reusable

theorem keeps_closeMeta (metaFh : FileWriter z) :
    Keeps z regions (onFile z spill metaBin unmarked metaFh.mFh metaFh.close) :=
  keeps_onFile isMachoRegion_metaBin _ _ _

theorem keeps_writeThreads (log : TraceLog) (metaFh : FileWriter z) :
    Keeps z regions (writeThreads z spill log metaFh) := by
  unfold writeThreads
  split
  · refine (keeps_closeMeta metaFh).bind fun _ => ?_
    exact Prog.Keeps.each fun kv _ => keeps_closeStream kv.1 kv.2
  · refine (Prog.Keeps.each fun kv _ => keeps_writeThread log kv.1 kv.2).bind fun _ => ?_
    exact (keeps_closeMeta metaFh).bind fun _ => .ret fun _ reusable => reusable

/-- A run over other regions keeps the files of these reusable. -/
theorem keeps_writeSteps (log : TraceLog) (after : Nat → Uint8) (overlapFind : OverlapFind)
    (sortSyms : BaseSort SymInfo SymInfo.base) {regions' : List ImageInfo}
    (symbols : Option Symbols)
    (same : ∀ q ∈ regions', ∀ r ∈ regions, r.digest = q.digest → r.bytes = q.bytes) :
    Keeps z regions (writeSteps z spill log after overlapFind sortSyms regions' symbols) := by
  refine (keeps_ofOption _).bind fun syms => ?_
  refine (keeps_writeMeta regions' syms).bind fun metaFh => ?_
  refine (Prog.Keeps.ask fun _ _ reusable _ => reusable).bind fun reused => ?_
  refine (keeps_removeAll _).bind fun _ => ?_
  refine (Prog.Keeps.each fun q member =>
    keeps_writeRegion (same q (List.mem_filter.mp member).1)).bind fun _ => ?_
  exact keeps_writeThreads log metaFh

end

/-! What is reused. -/

/-- The test for one region. -/
def Reuses (dir : Directory) (r : ImageInfo) : Prop :=
  ∃ file fh, Assoc.get dir (cStr r.logPath) = some file ∧
    CompressedFileReader.open logMachoRegionHdrMagic 32 file = some fh ∧
    fh.mHdrBuf = r.digest.toList

theorem mem_reused_step {dir : Directory} {r : ImageInfo} {before reused : List (List Uint8)}
    (tested : (match Assoc.get dir (cStr r.logPath) with
      | none => some before
      | some file => (CompressedFileReader.open logMachoRegionHdrMagic 32 file).map fun fh =>
        if fh.mHdrBuf = r.digest.toList then r.logPath :: before else before) = some reused)
    (name : List Uint8) : name ∈ reused ↔ name ∈ before ∨ name = r.logPath ∧ Reuses dir r := by
  split at tested
  · rename_i absent
    cases tested
    have fails : ¬Reuses dir r := fun ⟨_, _, present, _⟩ => nomatch absent.symm.trans present
    simp [fails]
  rename_i file present
  obtain ⟨fh, opened, rfl⟩ := Option.map_eq_some_iff.mp tested
  split
  · rename_i same
    have passes : Reuses dir r := ⟨file, fh, present, opened, same⟩
    simp [passes, or_comm]
  · rename_i differs
    have fails : ¬Reuses dir r := by
      rintro ⟨file', fh', present', opened', same⟩
      cases present.symm.trans present'
      cases opened.symm.trans opened'
      exact differs same
    simp [fails]

theorem mem_reused {dir : Directory} {regions : List ImageInfo} {reused : List (List Uint8)}
    (found : reusedMachoRegions dir regions = some reused) (name : List Uint8) :
    name ∈ reused ↔ ∃ r ∈ regions, name = r.logPath ∧ Reuses dir r := by
  have run : ∀ before, regions.foldlM (fun reused region =>
      match Assoc.get dir (cStr region.logPath) with
      | none => some reused
      | some file => (CompressedFileReader.open logMachoRegionHdrMagic 32 file).map fun fh =>
        if fh.mHdrBuf = region.digest.toList then region.logPath :: reused else reused) before =
          some reused →
      (name ∈ reused ↔ name ∈ before ∨ ∃ r ∈ regions, name = r.logPath ∧ Reuses dir r) := by
    clear found
    induction regions with
    | nil =>
      intro before ended
      cases ended
      simp
    | cons r regions ih =>
      intro before ended
      rw [List.foldlM_cons] at ended
      obtain ⟨before', tested, rest⟩ := Option.bind_eq_some_iff.mp ended
      rw [ih before' rest, mem_reused_step tested, or_assoc, List.exists_mem_cons_iff]
  simpa using run [] found

/-- The test fails on a file that it cannot open. -/
theorem reused_some {dir : Directory} {regions : List ImageInfo}
    (opens : ∀ r ∈ regions, ∀ file, Assoc.get dir (cStr r.logPath) = some file →
      ∃ fh, CompressedFileReader.open logMachoRegionHdrMagic 32 file = some fh) :
    ∃ reused, reusedMachoRegions dir regions = some reused := by
  unfold reusedMachoRegions
  generalize ([] : List (List Uint8)) = before
  induction regions generalizing before with
  | nil => exact ⟨before, rfl⟩
  | cons r regions ih =>
    have rest := ih fun q listed => opens q (List.mem_cons_of_mem _ listed)
    rw [List.foldlM_cons]
    cases present : Assoc.get dir (cStr r.logPath) with
    | none => exact rest before
    | some file =>
      obtain ⟨fh, opened⟩ := opens r List.mem_cons_self file present
      simp only [opened]
      exact rest _

section
variable {zstd : Zstd} {regions : List ImageInfo} {dir : Directory}
  {reused : List (List Uint8)}

/-- A region whose file is reused has its complete file. -/
theorem Reusable.get_reused (reusable : Reusable zstd regions dir)
    (found : reusedMachoRegions dir regions = some reused) {name : List Uint8}
    (member : name ∈ reused) : ∃ r ∈ regions, name = r.logPath ∧
      Assoc.get dir (cStr r.logPath) = some ((regionFh r).close zstd) := by
  obtain ⟨r, listed, named, file, fh, present, opened, same⟩ := (mem_reused found name).mp member
  have entry := (Assoc.mem_iff_get reusable.nodup (cStr r.logPath, file)).mpr present
  have complete := reusable.complete _ entry r listed rfl fh opened same
  exact ⟨r, listed, named, complete ▸ present⟩

/-- What is reused stays as it is. -/
theorem get_filed_reused (plain : ∀ r ∈ regions, cStr r.logPath = r.logPath) {q : ImageInfo}
    (listed : q ∈ regions) (again : q.logPath ∈ reused) {threadFiles : Directory}
    (thread : cStr q.logPath ∉ Assoc.keys threadFiles) (metaFh : CompressedFile) :
    Assoc.get (filed zstd regions metaFh reused threadFiles dir) (cStr q.logPath) =
      Assoc.get dir (cStr q.logPath) := by
  have kept : cStr q.logPath ∉ Assoc.keys
      ((regions.filter fun region => !reused.contains region.logPath).map (regionEntry zstd)) := by
    intro member
    obtain ⟨r, rest, same⟩ := mem_keys_regions member
    obtain ⟨listed', fresh⟩ := List.mem_filter.mp rest
    rw [plain q listed, plain r listed'] at same
    rw [← same] at fresh
    simp [again] at fresh
  have stays : (!(isMachoRegion (cStr q.logPath) && !reused.contains (cStr q.logPath))) = true := by
    simp [plain q listed, again]
  rw [filed, Assoc.putAll_append, Assoc.get_putAll_of_not_mem _ thread,
    Assoc.get_putAll_of_not_mem _ kept, Assoc.get_put_of_ne _ (metaBin_ne_region q),
    Assoc.get_filter (fun name => !(isMachoRegion name && !reused.contains name)), if_pos stays]

theorem get_regionEntries (names : (regions.map fun r => cStr r.logPath).Nodup) {r : ImageInfo}
    (listed : r ∈ regions) (dir : Directory) :
    Assoc.get (Assoc.putAll dir (regions.map (regionEntry zstd))) (cStr r.logPath) =
      some ((regionFh r).close zstd) := by
  have nodup : (Assoc.keys (regions.map (regionEntry zstd))).Nodup := by
    rw [Assoc.keys, List.map_map]
    exact names
  rw [Assoc.get_putAll dir nodup]
  have own := Assoc.get_eq nodup (List.mem_map_of_mem (f := regionEntry zstd) listed)
  rw [show cStr r.logPath = (regionEntry zstd r).1 from rfl, own]
  rfl

/-- What is not reused is written. -/
theorem get_filed_written (names : (regions.map fun r => cStr r.logPath).Nodup) {r : ImageInfo}
    (listed : r ∈ regions) (fresh : r.logPath ∉ reused) {threadFiles : Directory}
    (thread : cStr r.logPath ∉ Assoc.keys threadFiles) (metaFh : CompressedFile) :
    Assoc.get (filed zstd regions metaFh reused threadFiles dir) (cStr r.logPath) =
      some ((regionFh r).close zstd) := by
  have written : r ∈ regions.filter fun region => !reused.contains region.logPath :=
    List.mem_filter.mpr ⟨listed, by simp [fresh]⟩
  rw [filed, Assoc.putAll_append, Assoc.get_putAll_of_not_mem _ thread,
    get_regionEntries (names.sublist (List.filter_sublist.map _)) written]

theorem get_filed_meta {threadFiles : Directory} (thread : metaBin ∉ Assoc.keys threadFiles)
    (metaFh : CompressedFile) :
    Assoc.get (filed zstd regions metaFh reused threadFiles dir) metaBin =
      some (metaFh.close zstd) := by
  rw [filed, Assoc.putAll_append, Assoc.get_putAll_of_not_mem _ thread,
    Assoc.get_putAll_of_not_mem _ (metaBin_not_mem_regions zstd _)]
  exact Assoc.get_put_self _ (metaBin, _)

/-- No other file is put. -/
theorem get_filed_other {key : List Uint8} (region : ¬∃ r ∈ regions, key = cStr r.logPath)
    (isMeta : key ≠ metaBin) {threadFiles : Directory} (thread : key ∉ Assoc.keys threadFiles)
    (metaFh : CompressedFile) :
    Assoc.get (filed zstd regions metaFh reused threadFiles dir) key =
      if !(isMachoRegion key && !reused.contains key) then Assoc.get dir key else none := by
  have absent : key ∉ Assoc.keys
      ((regions.filter fun region => !reused.contains region.logPath).map
        (regionEntry zstd)) := by
    intro member
    obtain ⟨r, listed, same⟩ := mem_keys_regions member
    exact region ⟨r, (List.mem_filter.mp listed).1, same⟩
  rw [filed, Assoc.putAll_append, Assoc.get_putAll_of_not_mem _ thread,
    Assoc.get_putAll_of_not_mem _ absent, Assoc.get_put_of_ne _ (Ne.symm isMeta),
    Assoc.get_filter (fun name => !(isMachoRegion name && !reused.contains name))]

/-- A write leaves in a directory what it leaves in an empty one. -/
theorem Reusable.get_filed (reusable : Reusable zstd regions dir)
    (plain : ∀ r ∈ regions, cStr r.logPath = r.logPath)
    (names : (regions.map ImageInfo.logPath).Nodup)
    (found : reusedMachoRegions dir regions = some reused) {threadFiles : Directory}
    (others : ∀ e ∈ dir, isMachoRegion e.1 = true ∨ e.1 ∈ Assoc.keys threadFiles)
    (metaFh : CompressedFile) (key : List Uint8) :
    Assoc.get (filed zstd regions metaFh reused threadFiles dir) key =
      Assoc.get (filed zstd regions metaFh [] threadFiles []) key := by
  have names' : (regions.map fun r => cStr r.logPath).Nodup := by
    rwa [List.map_congr_left plain]
  by_cases thread : key ∈ Assoc.keys threadFiles
  · rw [filed, filed, Assoc.putAll_append, Assoc.putAll_append]
    exact Assoc.get_putAll_of_mem _ _ thread
  by_cases region : ∃ r ∈ regions, key = cStr r.logPath
  · obtain ⟨r, listed, rfl⟩ := region
    rw [get_filed_written names' listed List.not_mem_nil thread]
    by_cases again : r.logPath ∈ reused
    · obtain ⟨q, listed', named, present⟩ := reusable.get_reused found again
      have same : q = r := List.inj_on_of_nodup_map names listed' listed named.symm
      rw [get_filed_reused plain listed again thread, ← same, present]
    · exact get_filed_written names' listed again thread metaFh
  by_cases isMeta : key = metaBin
  · subst isMeta
    rw [get_filed_meta thread, get_filed_meta thread]
  rw [get_filed_other region isMeta thread, get_filed_other region isMeta thread]
  split
  · rename_i stays
    have absent : Assoc.get dir key = none := by
      refine Assoc.get_eq_none fun e member same => ?_
      subst same
      rcases others e member with macho | thread'
      · have again : e.1 ∈ reused := by simpa [macho] using stays
        obtain ⟨q, listed, named, _⟩ := reusable.get_reused found again
        exact region ⟨q, listed, named.trans (plain q listed).symm⟩
      · exact thread thread'
    rw [absent]
    exact (ite_self _).symm
  · exact (ite_self _).symm

variable {log : TraceLog} {after : Nat → Uint8} {overlapFind : OverlapFind}
  {sortSyms : BaseSort SymInfo SymInfo.base} {symbols : Option Symbols} {out : Directory}

/-- What a write leaves depends on the files that it finds in their order at most. -/
theorem Reusable.write_fresh (reusable : Reusable zstd regions dir)
    (plain : ∀ r ∈ regions, cStr r.logPath = r.logPath)
    (names : (regions.map ImageInfo.logPath).Nodup)
    (others : ∀ e ∈ dir, isMachoRegion e.1 = true ∨
      ∃ kv ∈ log.mThreadCtxs.mKeyVals, e.1 = threadName kv.1)
    (written : log.write zstd after overlapFind sortSyms regions symbols dir = some out) :
    ∃ fresh, log.write zstd after overlapFind sortSyms regions symbols [] = some fresh ∧
      out.Perm fresh := by
  obtain ⟨syms, metaFh, reused, threadFiles, selected, metaWritten, found, threads, rfl⟩ :=
    (write_eq_some sortSyms).mp written
  have noFiles : reusedMachoRegions [] regions = some [] :=
    reusedMachoRegions_empty regions fun _ member => absurd member List.not_mem_nil
  refine ⟨_, (write_eq_some sortSyms).mpr
    ⟨syms, metaFh, [], threadFiles, selected, metaWritten, noFiles, threads, rfl⟩, ?_⟩
  have nodup : ∀ (reused : List (List Uint8)) (dir : Directory), (Assoc.keys dir).Nodup →
      (Assoc.keys (filed zstd regions metaFh reused threadFiles dir)).Nodup :=
    fun reused dir distinct => Assoc.nodup_putAll
      (Assoc.nodup_put ((List.filter_sublist.map Prod.fst).nodup distinct) _) _
  have others' : ∀ e ∈ dir, isMachoRegion e.1 = true ∨ e.1 ∈ Assoc.keys threadFiles := by
    intro e member
    refine (others e member).imp_right fun ⟨kv, inMap, named⟩ => ?_
    rw [keys_threadFiles (mapM_eq_some_iff.mp threads), named]
    exact List.mem_map_of_mem (f := fun kv : Uint32 × ThreadCtx => threadName kv.1) inMap
  exact Assoc.perm_of_get (nodup reused dir reusable.nodup) (nodup [] [] List.nodup_nil)
    (reusable.get_filed plain names found others' metaFh)

end

end TraceLog

end XnuTrace
