import XnuTrace.ThreadFiles
import XnuTrace.Lib.SortedFold

/-! `Symbols::lookup` before and after `TraceLog::write` has dropped the symbols that no
logged program counter falls into. -/
namespace XnuTrace
open Memory Framing XnuTrace.Frame FallibleMap

/-- The first symbol that contains the address. -/
def Symbols.lookup (symbols : Symbols) (addr : Uint64) : Option SymInfo :=
  symbols.mSyms.find? fun sym => decide (sym.base ≤ addr ∧ addr < sym.base + sym.size)

/-- The documented behaviour of the interval tree: intervals are closed, their union stays
covered, and an overlapping interval is found if there is one. -/
def FindsOverlaps (overlapFind : OverlapFind) : Prop :=
  ∀ intervals, (∀ i ∈ intervals, i.1 ≤ i.2) → ∀ (q : Uint64 × Uint64) (x : Uint64),
    (∃ i ∈ intervals, i.1 ≤ x ∧ x ≤ i.2) → q.1 ≤ x → x ≤ q.2 → overlapFind intervals q = true

/-- Symbols that contain a covered address are kept, and the first of them in the list has the
least base. -/
theorem Symbols.lookup_getSymbolsInIntervals {overlapFind : OverlapFind}
    (finds : FindsOverlaps overlapFind) (sortSyms : BaseSort SymInfo SymInfo.base)
    {syms : List SymInfo} (sorted : syms.Pairwise fun a b => a.base ≤ b.base)
    {intervals : List (Uint64 × Uint64)} (ordered : ∀ i ∈ intervals, i.1 ≤ i.2) {pc : Uint64}
    (covered : ∃ i ∈ intervals, i.1 ≤ pc ∧ pc ≤ i.2) :
    (lookup { mSyms := getSymbolsInIntervals overlapFind sortSyms syms intervals } pc).map
      SymInfo.base = (lookup { mSyms := syms } pc).map SymInfo.base := by
  obtain ⟨perm, sorted'⟩ := sortSyms.2 (syms.filter fun sym =>
    overlapFind intervals (sym.base, sym.base + sym.size))
  refine Option.map_injective (fun _ _ => BitVec.eq_of_toNat_eq) ?_
  rw [Option.map_map, Option.map_map]
  refine @SortedFold.find?_map_key_eq SymInfo Nat _ _ _ _ _ sorted' sorted fun sym contains => ?_
  obtain ⟨low, high⟩ := of_decide_eq_true contains
  have overlaps := finds intervals ordered (sym.base, sym.base + sym.size) pc covered low
    (BitVec.le_of_lt high)
  exact perm.mem_iff.trans (List.mem_filter.trans (and_iff_left overlaps))

/-- The buffer of the thread is the record of these calls. -/
def ThreadCtx.Records (tctx : ThreadCtx) (calls : List LogCall) : Prop :=
  ∃ first rest frames, calls = first :: rest ∧
    Journal (.first first) calls frames tctx.cursor ∧ tctx.logBuf = frames.flatMap bytes

theorem ThreadCtx.run_header {tctx tctx' : ThreadCtx} {calls : List LogCall}
    (ran : tctx.run calls = some tctx') : tctx'.header = tctx.header := by
  induction calls generalizing tctx with
  | nil =>
    cases ran
    rfl
  | cons call calls ih =>
    obtain ⟨t₁, written, rest⟩ := Option.bind_eq_some_iff.mp ran
    exact (ih rest).trans (write_header written)

namespace TraceLog

/-- In buffered mode: each thread's buffer is the record of its calls. -/
def Recorded (log : TraceLog) : Prop :=
  log.mStream = false ∧ ∀ kv ∈ log.mThreadCtxs.mKeyVals, ∃ calls, kv.2.Records calls

/-- Some thread's call logged this program counter. -/
def Logged (log : TraceLog) (pc : Uint64) : Prop :=
  ∃ kv ∈ log.mThreadCtxs.mKeyVals, ∃ calls, kv.2.Records calls ∧ pc ∈ calls.map (·.context.pc)

end TraceLog

theorem contexts_pc (c : LogArm64CpuContext) (calls : List LogCall) :
    (contexts c calls).map (·.pc) = c.pc :: calls.map (·.context.pc) := by
  induction calls generalizing c with
  | nil => rw [contexts, List.scanl_nil, List.map_singleton, List.map_nil]
  | cons call calls ih =>
    have here : (LogCall.next c call).pc = call.context.pc := by cases call <;> rfl
    rw [contexts, List.scanl_cons, List.map_cons, ← contexts, ih, here, List.map_cons]

/-- A buffer that starts with a context can be scanned. -/
theorem ThreadCtx.Records.scan {tctx : ThreadCtx} {c : LogArm64CpuContext} {calls : List LogCall}
    (records : tctx.Records (.ctx c :: calls)) (after : Nat → Uint8) :
    LogThreadBuf.extractPcsFromTrace { mBuf := tctx.logBuf, mNumInst := tctx.numInst }
      after (tctx.logBuf.length + 1) = some ((contexts c (.ctx c :: calls)).map (·.pc)) := by
  obtain ⟨first, rest, frames, same, journal, buf⟩ := records
  cases same
  let buffered := { tctx with logStream := none }
  exact @extractPcs_eq c calls frames _ buffered journal buf after _ (Nat.lt_succ_self _)

/-- A buffer that can be scanned gives the program counters of its calls. -/
theorem ThreadCtx.Records.mem_scan {tctx : ThreadCtx} {calls : List LogCall}
    (records : tctx.Records calls) {after : Nat → Uint8} {pcs : List Uint64}
    (scanned : LogThreadBuf.extractPcsFromTrace { mBuf := tctx.logBuf, mNumInst := tctx.numInst }
      after (tctx.logBuf.length + 1) = some pcs) (pc : Uint64) :
    pc ∈ pcs ↔ pc ∈ calls.map (·.context.pc) := by
  obtain ⟨first, rest, frames, rfl, journal, buf⟩ := records
  cases first with
  | pc pc =>
    obtain ⟨rest, rfl⟩ := journal.first_pc
    have none := @LogThreadBuf.front_msg ⟨tctx.logBuf, tctx.numInst⟩ _ after _ buf
    simp only [LogThreadBuf.extractPcsFromTrace, LogThreadBuf.pcsBegin, none] at scanned
    cases scanned
  | ctx c =>
    have records : tctx.Records (.ctx c :: rest) := ⟨_, rest, frames, rfl, journal, buf⟩
    obtain rfl := Option.some.inj (scanned.symm.trans (records.scan after))
    have first : (LogCall.ctx c).context.pc = c.pc := rfl
    simp only [contexts_pc, List.map_cons, List.mem_cons, first, or_self_left]

namespace TraceLog
variable {log : TraceLog} {after : Nat → Uint8} {regions : List ImageInfo}
  {intervals : List (Uint64 × Uint64)}

theorem mem_pcIntervals (recorded : log.Recorded)
    (scanned : log.pcIntervals after regions = some intervals) (i : Uint64 × Uint64) :
    i ∈ intervals ↔ ∃ pc, log.Logged pc ∧ i = (pc, pc + 4) := by
  rw [pcIntervals, recorded.1, if_neg (by decide)] at scanned
  obtain ⟨pcs, all, same⟩ := Option.bind_eq_some_iff.mp scanned
  cases same
  simp only [List.mem_map, List.mem_dedup, List.mem_flatten]
  constructor
  · rintro ⟨pc, ⟨ofThread, inPcs, found⟩, rfl⟩
    obtain ⟨kv, member, read⟩ := mem_of_mapM all inPcs
    obtain ⟨calls, records⟩ := recorded.2 kv member
    exact ⟨pc, ⟨kv, member, calls, records, (records.mem_scan read pc).mp found⟩, rfl⟩
  · rintro ⟨pc, ⟨kv, member, calls, records, called⟩, rfl⟩
    obtain ⟨ofThread, inPcs, read⟩ := exists_of_forall₂ (mapM_eq_some_iff.mp all) member
    exact ⟨pc, ⟨ofThread, inPcs, (records.mem_scan read pc).mpr called⟩, rfl⟩

/-- In buffered mode the calls of all threads leave each thread the record of its own. -/
theorem recorded_of_run {hash : Hasher} {sortBuckets : BucketSort 32} {mCompressionLevel : Int}
    {calls : List (Uint32 × LogCall)}
    (keeps : MapKeeps hash sortBuckets { mCompressionLevel, mStream := false } calls)
    (ran : runCalls hash sortBuckets { mCompressionLevel, mStream := false } calls = .ok log) :
    log.Recorded ∧ (∀ call ∈ calls, log.Logged call.2.context.pc) ∧
      ∀ kv ∈ log.mThreadCtxs.mKeyVals, kv.2.Records (callsOf calls kv.1) := by
  obtain ⟨t, kept⟩ := kept_of_run rfl keeps ran
  have records : ∀ kv ∈ log.mThreadCtxs.mKeyVals, kv.2.Records (callsOf calls kv.1) := by
    rintro ⟨thread, tctx⟩ member
    have each := (kept.each thread).symm.trans ((kept.rep.content thread tctx).mp member)
    cases own : callsOf calls thread with
    | nil =>
      rw [own] at each
      cases each
    | cons call rest =>
      rw [own] at each
      obtain ⟨frames, journal, recorded⟩ := ThreadCtx.journal_of_run each
      have memory : tctx.logStream = none := Option.map_eq_none_iff.mp (ThreadCtx.run_header each)
      rw [recorded_opened, List.nil_append, ThreadCtx.recorded, memory] at recorded
      exact ⟨call, rest, frames, rfl, journal, recorded⟩
  refine ⟨⟨kept.mode, fun kv member => ⟨_, records kv member⟩⟩, fun call member => ?_, records⟩
  have called : call.2 ∈ callsOf calls call.1 :=
    List.mem_map_of_mem (List.mem_filter.mpr ⟨member, decide_eq_true rfl⟩)
  obtain ⟨tctx, stored⟩ :=
    Option.isSome_iff_exists.mp (kept.some call.1 (List.ne_nil_of_mem called))
  have inMap := (kept.rep.content call.1 tctx).mpr stored
  exact ⟨_, inMap, _, records _ inMap, List.mem_map_of_mem called⟩

/-- Where all threads can be scanned, the logged program counters are those of the calls. -/
theorem called_of_logged {calls : List (Uint32 × LogCall)} (buffered : log.mStream = false)
    (records : ∀ kv ∈ log.mThreadCtxs.mKeyVals, kv.2.Records (callsOf calls kv.1))
    (scanned : log.pcIntervals after regions = some intervals) {pc : Uint64}
    (logged : log.Logged pc) : ∃ call ∈ calls, call.2.context.pc = pc := by
  rw [pcIntervals, buffered, if_neg (by decide)] at scanned
  obtain ⟨pcs, all, -⟩ := Option.bind_eq_some_iff.mp scanned
  obtain ⟨kv, member, calls', others, called⟩ := logged
  obtain ⟨ofThread, -, read⟩ := exists_of_forall₂ (mapM_eq_some_iff.mp all) member
  have own := ((records kv member).mem_scan read pc).mp ((others.mem_scan read pc).mpr called)
  obtain ⟨call, inOwn, rfl⟩ := List.mem_map.mp own
  obtain ⟨call', inAll, rfl⟩ := List.mem_map.mp inOwn
  exact ⟨call', (List.mem_filter.mp inAll).1, rfl⟩

/-- Dropping the symbols that contain no logged program counter changes no lookup of one. -/
theorem lookup_savedSyms {overlapFind : OverlapFind} (finds : FindsOverlaps overlapFind)
    (sortSyms sortFull : BaseSort SymInfo SymInfo.base) (recorded : log.Recorded)
    (noWrap : ∀ pc, log.Logged pc → pc ≤ pc + 4) (syms : List SymInfo) {kept : List SymInfo}
    (saved : log.savedSyms after overlapFind sortSyms regions (some { mSyms := sortFull.1 syms }) =
      some kept) {pc : Uint64} (logged : log.Logged pc) :
    (Symbols.lookup { mSyms := kept } pc).map SymInfo.base =
      (Symbols.lookup { mSyms := sortFull.1 syms } pc).map SymInfo.base := by
  obtain ⟨intervals, scanned, rfl⟩ := Option.map_eq_some_iff.mp saved
  have exact := mem_pcIntervals recorded scanned
  have ordered : ∀ i ∈ intervals, i.1 ≤ i.2 := by
    intro i member
    obtain ⟨pc, logged, rfl⟩ := (exact i).mp member
    exact noWrap pc logged
  have covered : ∃ i ∈ intervals, i.1 ≤ pc ∧ pc ≤ i.2 :=
    ⟨(pc, pc + 4), (exact _).mpr ⟨pc, logged, rfl⟩, BitVec.le_refl _, noWrap pc logged⟩
  exact Symbols.lookup_getSymbolsInIntervals finds sortSyms (sortFull.2 syms).2 ordered covered

theorem findsOverlaps_overlapAny : FindsOverlaps overlapAny := by
  rintro intervals _ q x ⟨i, member, low, high⟩ first last
  refine List.any_eq_true.mpr ⟨i, member, ?_⟩
  rw [Bool.and_eq_true, decide_eq_true_eq, decide_eq_true_eq]
  exact ⟨BitVec.le_trans low last, BitVec.le_trans first high⟩

/-- A program counter in an inner and an outer symbol, and another one behind both. -/
def nestedSyms : List SymInfo :=
  [{ jitSymbol with base := 0x100000100, name := ascii "inner" },
    { jitSymbol with size := 0x200, name := ascii "outer" },
    { jitSymbol with base := 0x100000400, name := ascii "never" },
    { jitSymbol with base := 0x100000800, name := ascii "last" }]

/-- Two threads in turn. -/
def nestedCalls : List (Uint32 × LogCall) :=
  [(0x20103, .ctx { LogArm64CpuContext.zero with pc := 0x100000100 }),
    (0xa0103, .ctx { LogArm64CpuContext.zero with pc := 0x100000800 }), (0x20103, .pc 0x100000104)]

theorem lookup_savedSyms_nested : ∃ log kept,
    runCalls (jevhash32 0x85EBCA77) stableBucketSort { mCompressionLevel := 0, mStream := false }
      nestedCalls = .ok log ∧
    log.savedSyms (fun _ => 0) overlapAny (stableBaseSort _) []
      (some { mSyms := (stableBaseSort SymInfo.base).1 nestedSyms }) = some kept ∧
    kept.map SymInfo.name = [ascii "outer", ascii "inner", ascii "last"] ∧
    ∀ call ∈ nestedCalls, (Symbols.lookup { mSyms := kept } call.2.context.pc).map SymInfo.base =
      (Symbols.lookup { mSyms := (stableBaseSort SymInfo.base).1 nestedSyms }
        call.2.context.pc).map SymInfo.base := by
  have keeps : MapKeeps (jevhash32 0x85EBCA77) stableBucketSort
      { mCompressionLevel := 0, mStream := false } nestedCalls := by decide +kernel
  have names : ((runCalls (jevhash32 0x85EBCA77) stableBucketSort
      { mCompressionLevel := 0, mStream := false } nestedCalls).toOption.bind fun log =>
        (log.savedSyms (fun _ => 0) overlapAny (stableBaseSort _) []
          (some { mSyms := (stableBaseSort SymInfo.base).1 nestedSyms })).map
            (List.map SymInfo.name)) =
      some [ascii "outer", ascii "inner", ascii "last"] := by decide +kernel
  obtain ⟨log, completed, saved⟩ := Option.bind_eq_some_iff.mp names
  obtain ⟨kept, saved, names⟩ := Option.map_eq_some_iff.mp saved
  have ran := toOption_eq_some.mp completed
  obtain ⟨recorded, logged, records⟩ := recorded_of_run keeps ran
  obtain ⟨intervals, scanned, -⟩ := Option.map_eq_some_iff.mp saved
  have noWrap : ∀ pc, log.Logged pc → pc ≤ pc + 4 := by
    intro pc of
    obtain ⟨call, member, rfl⟩ := called_of_logged recorded.1 records scanned of
    simp only [nestedCalls, List.mem_cons, List.not_mem_nil, or_false] at member
    rcases member with rfl | rfl | rfl <;> decide
  refine ⟨log, kept, ran, saved, names, fun call member => ?_⟩
  exact lookup_savedSyms findsOverlaps_overlapAny (stableBaseSort _) (stableBaseSort _) recorded
    noWrap nestedSyms saved (logged call member)

end TraceLog

end XnuTrace
