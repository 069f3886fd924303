import XnuTrace.LogStructs
import XnuTrace.Lib.Reads

/-! `read_macho_segs_target`: the walk over the load commands of an image in the target. -/
namespace XnuTrace
open Memory Reads

/-- `read_target`; without one of the bytes `mach_check` ends the tracer. -/
def readTarget (target : Uint64 → Option Uint8) (targetAddr : Uint64) (sz : Nat) :
    Option (List Uint8) :=
  (List.range sz).mapM fun i => target (targetAddr + BitVec.ofNat 64 i)

def lcSegment64 : Uint32 := 0x19

/-- `"__PAGEZERO"` with its terminator. -/
def pagezero : List Uint8 := [0x5f, 0x5f, 0x50, 0x41, 0x47, 0x45, 0x5a, 0x45, 0x52, 0x4f, 0x00]

structure SegmentCommand64 where
  cmd : Uint32
  cmdsize : Uint32
  segname : List Uint8
  vmaddr : Uint64
  vmsize : Uint64
  fileoff : Uint64
  filesize : Uint64
  maxprot : Uint32
  initprot : Uint32
  nsects : Uint32
  flags : Uint32

def sizeofSegmentCommand64 : Nat := 72
def sizeofMachHeader64 : Nat := 32

/-- The copy of a whole segment command. -/
def readSegment (mem : Nat → Uint8) (p : Nat) : Reads SegmentCommand64 where
  val :=
    { cmd := loadWord 32 4 mem p
      cmdsize := loadWord 32 4 mem (p + 4)
      segname := slice mem (p + 8) 16
      vmaddr := loadWord 64 8 mem (p + 24)
      vmsize := loadWord 64 8 mem (p + 32)
      fileoff := loadWord 64 8 mem (p + 40)
      filesize := loadWord 64 8 mem (p + 48)
      maxprot := loadWord 32 4 mem (p + 56)
      initprot := loadWord 32 4 mem (p + 60)
      nsects := loadWord 32 4 mem (p + 64)
      flags := loadWord 32 4 mem (p + 68) }
  addrs := List.range' p sizeofSegmentCommand64

/-- `!strncmp` of the string at `p` with one shorter than the bound: it reads up to the first
difference or the common terminator. -/
def readStreq (mem : Nat → Uint8) : Nat → List Uint8 → Reads Bool
  | _, [] => pure true
  | p, c :: str => do
    let byte ← bytes mem p 1
    if byte = [c] then readStreq mem (p + 1) str else pure false

/-- The variables of the loop. -/
structure Walk where
  lc : Nat
  segs : List SegmentCommand64

/-- The body of the loop, with its two `continue`. -/
def Walk.readSegs (mem : Nat → Uint8) (cmd : Uint32) (it : Walk) :
    Reads (List SegmentCommand64) :=
  if cmd ≠ lcSegment64 then pure it.segs
  else do
    let skipped ← readStreq mem (it.lc + 8) pagezero
    if skipped then pure it.segs
    else do
      let seg ← readSegment mem it.lc
      pure (it.segs ++ [seg])

def Walk.readNext (mem : Nat → Uint8) (it : Walk) : Reads Walk := do
  let cmd ← word 32 4 mem it.lc
  let segs ← it.readSegs mem cmd
  let cmdsize ← word 32 4 mem (it.lc + 4)
  pure { lc := it.lc + cmdsize.toNat, segs }

/-- What is behind the header: as many bytes as its `sizeofcmds` says. -/
def readCmdBuf (target : Uint64 → Option Uint8) (machoHdrAddr : Uint64) : Option (List Uint8) := do
  let hdrBuf ← readTarget target machoHdrAddr sizeofMachHeader64
  let sizeofcmds : Uint32 := loadWord 32 4 (ofList hdrBuf fun _ => 0) 20
  readTarget target (machoHdrAddr + BitVec.ofNat 64 sizeofMachHeader64) sizeofcmds.toNat

/-- The walk over the command buffer, `none` if it takes more than `fuel` steps. What lies behind
the buffer is `after`. -/
def readMachoSegsTarget (target : Uint64 → Option Uint8) (after : Nat → Uint8)
    (machoHdrAddr : Uint64) (fuel : Nat) : Option (Reads (Option (List SegmentCommand64))) := do
  let cmdBuf ← readCmdBuf target machoHdrAddr
  some do
    let it ← traverse (fun it => cmdBuf.length ≤ it.lc) (Walk.readNext (ofList cmdBuf after)) fuel
      ⟨0, []⟩
    pure (it.map Walk.segs)

/-- Where the target lets the tracer read the commands, the walk over them ends and reads nothing
behind them. -/
def WalkTotal (target : Uint64 → Option Uint8) (after : Nat → Uint8) (machoHdrAddr : Uint64) :
    Prop :=
  ∀ cmdBuf, readCmdBuf target machoHdrAddr = some cmdBuf →
    ∃ fuel walk, readMachoSegsTarget target after machoHdrAddr fuel = some walk ∧
      walk.val.isSome = true ∧ Below cmdBuf.length walk

def cmdsize (mem : Nat → Uint8) (p : Nat) : Nat := (loadWord 32 4 mem (p + 4)).toNat

/-- How much is read of the command at `p`: the front, with the name for `__PAGEZERO` and
all of it for other segments. -/
def cmdReads (mem : Nat → Uint8) (p : Nat) : Nat :=
  if loadWord 32 4 mem p ≠ lcSegment64 then 8
  else if slice mem (p + 8) pagezero.length = pagezero then 19
  else sizeofSegmentCommand64

/-- From the front of the buffer every command leads to a later one or to the end, and what is
read of it is in the buffer. -/
def CommandsFit (cmdBuf : List Uint8) : Prop :=
  Strides (cmdsize (ofList cmdBuf fun _ => 0)) (cmdReads (ofList cmdBuf fun _ => 0)) cmdBuf.length 0

theorem val_readStreq (mem : Nat → Uint8) (p : Nat) (str : List Uint8) :
    (readStreq mem p str).val = decide (slice mem p str.length = str) := by
  induction str generalizing p with
  | nil => rfl
  | cons c str ih =>
    have first : slice mem p 1 = [mem p] := slice_succ mem p 0
    rw [readStreq, val_bind, val_bytes, first, List.length_cons, slice_succ]
    by_cases same : mem p = c
    · simp [same, ih]
    · simp [same]

/-- An equal string is read to its end. -/
theorem below_readStreq {mem : Nat → Uint8} {p hi : Nat} {str : List Uint8}
    (equal : slice mem p str.length = str) (some : str ≠ []) :
    Below hi (readStreq mem p str) ↔ p + str.length ≤ hi := by
  induction str generalizing p with
  | nil => exact absurd rfl some
  | cons c str ih =>
    rw [List.length_cons, slice_succ, List.cons.injEq] at equal
    have first : slice mem p 1 = [c] := equal.1 ▸ slice_succ mem p 0
    rw [readStreq, below_bind, val_bytes, first, if_pos rfl, below_bytes mem one_pos,
      List.length_cons]
    cases str with
    | nil => simp [readStreq]
    | cons d str =>
      rw [ih equal.2 (List.cons_ne_nil d str), List.length_cons]
      omega

theorem below_readStreq_of_le {mem : Nat → Uint8} {p hi : Nat} {str : List Uint8}
    (room : p + str.length ≤ hi) : Below hi (readStreq mem p str) := by
  induction str generalizing p with
  | nil => exact below_pure _
  | cons c str ih =>
    rw [List.length_cons] at room
    rw [readStreq, below_bind, below_bytes mem one_pos]
    refine ⟨by omega, ?_⟩
    split
    · exact ih (by omega)
    · exact below_pure _

theorem lc_readNext (mem : Nat → Uint8) (it : Walk) :
    (it.readNext mem).val.lc = it.lc + cmdsize mem it.lc := rfl

theorem below_readSegment {mem : Nat → Uint8} {p hi : Nat} :
    Below hi (readSegment mem p) ↔ p + sizeofSegmentCommand64 ≤ hi := below_range (by decide)

/-- What a step of the walk reads. -/
theorem below_readNext (mem : Nat → Uint8) (hi : Nat) (it : Walk) :
    Below hi (it.readNext mem) ↔ it.lc + cmdReads mem it.lc ≤ hi := by
  have front : 0 < 4 := by decide
  simp only [Walk.readNext, below_bind, below_word 32 front, below_pure, and_true, val_word]
  rw [Walk.readSegs, cmdReads]
  by_cases segment : loadWord 32 4 mem it.lc ≠ lcSegment64
  · rw [if_pos segment, if_pos segment]
    simp only [below_pure, true_and]
    omega
  · rw [if_neg segment, if_neg segment, below_bind, val_readStreq]
    by_cases skipped : slice mem (it.lc + 8) pagezero.length = pagezero
    · have compared : Below hi (readStreq mem (it.lc + 8) pagezero) ↔ it.lc + 8 + 11 ≤ hi :=
        below_readStreq skipped (List.cons_ne_nil _ _)
      rw [if_pos skipped, if_pos (decide_eq_true skipped), compared]
      simp only [below_pure, and_true]
      omega
    · rw [if_neg skipped, if_neg (fun equal => skipped (of_decide_eq_true equal)), below_bind,
        below_readSegment, sizeofSegmentCommand64]
      simp only [below_pure, and_true]
      constructor
      · omega
      · intro room
        have name : pagezero.length = 11 := rfl
        have compared : it.lc + 8 + pagezero.length ≤ hi := by omega
        exact ⟨by omega, ⟨below_readStreq_of_le compared, room⟩, by omega⟩

theorem cmdReads_large (mem : Nat → Uint8) (p : Nat) : 8 ≤ cmdReads mem p := by
  unfold cmdReads
  split
  · exact le_rfl
  · split <;> decide

/-- Where a command is read inside the buffer, nothing behind the buffer matters to it. -/
theorem cmdReads_congr {mem mem' : Nat → Uint8} {p hi : Nat} (same : ∀ i < hi, mem i = mem' i)
    (room : p + cmdReads mem p ≤ hi) :
    cmdReads mem' p = cmdReads mem p ∧ cmdsize mem' p = cmdsize mem p := by
  have front := cmdReads_large mem p
  have cmd : loadWord 32 4 mem p = loadWord 32 4 mem' p :=
    congrArg _ (load_congr fun i below => same i (by omega))
  have size : loadWord 32 4 mem (p + 4) = loadWord 32 4 mem' (p + 4) :=
    congrArg _ (load_congr fun i below => same i (by omega))
  refine ⟨?_, by rw [cmdsize, cmdsize, size]⟩
  unfold cmdReads at room ⊢
  rw [← cmd]
  by_cases segment : loadWord 32 4 mem p ≠ lcSegment64
  · rw [if_pos segment, if_pos segment]
  · rw [if_neg segment] at room ⊢
    rw [if_neg segment]
    have long : p + 8 + pagezero.length ≤ hi := by
      have name : pagezero.length = 11 := rfl
      split at room
      · omega
      · rw [sizeofSegmentCommand64] at room
        omega
    have names : slice mem (p + 8) pagezero.length = slice mem' (p + 8) pagezero.length :=
      slice_congr fun i below => same i (below.trans_le long)
    rw [names]

/-- The walk is total on exactly the images whose commands fit. -/
theorem walkTotal_iff (target : Uint64 → Option Uint8) (after : Nat → Uint8)
    (machoHdrAddr : Uint64) : WalkTotal target after machoHdrAddr ↔
      ∀ cmdBuf, readCmdBuf target machoHdrAddr = some cmdBuf → CommandsFit cmdBuf := by
  refine forall₂_congr fun cmdBuf read => ?_
  have behind : ∀ i < cmdBuf.length, ofList cmdBuf (fun _ => 0) i = ofList cmdBuf after i :=
    fun i inside => by rw [ofList, dif_pos inside, ofList, dif_pos inside]
  have walk : ∀ fuel, readMachoSegsTarget target after machoHdrAddr fuel =
      some (traverse (fun it => cmdBuf.length ≤ it.lc) (Walk.readNext (ofList cmdBuf after)) fuel
        ⟨0, []⟩ >>= fun it => pure (it.map Walk.segs)) := fun fuel => by
    rw [readMachoSegsTarget, read]
    rfl
  have total := traverse_total_iff (fun _ => rfl) (lc_readNext (ofList cmdBuf after))
    (below_readNext (ofList cmdBuf after) cmdBuf.length) ⟨0, []⟩
  have fit : CommandsFit cmdBuf ↔ Strides (cmdsize (ofList cmdBuf after))
      (cmdReads (ofList cmdBuf after)) cmdBuf.length 0 :=
    ⟨fun fit => fit.congr fun p room => cmdReads_congr behind room,
      fun fit => fit.congr fun p room => cmdReads_congr (fun i below => (behind i below).symm) room⟩
  refine Iff.trans ?_ (total.trans fit.symm)
  refine exists_congr fun fuel => ?_
  rw [walk]
  constructor
  · rintro ⟨_, ⟨⟩, ends, below⟩
    rw [val_bind, val_pure, Option.isSome_map] at ends
    exact ⟨ends, ((below_bind _ _).mp below).1⟩
  · rintro ⟨ends, below⟩
    refine ⟨_, rfl, ?_, (below_bind _ _).mpr ⟨below, below_pure _⟩⟩
    rwa [val_bind, val_pure, Option.isSome_map]

/-- An image with one command of no size. -/
def stalling (addr : Uint64) : Option Uint8 := some (if addr = 20 then 8 else 0)

theorem not_walkTotal_stalling : ¬ WalkTotal stalling (fun _ => 0) 0 := by
  intro total
  have read : readCmdBuf stalling 0 = some (List.replicate 8 0) := by rfl
  obtain ⟨fuel, _, ran, ends, -⟩ := total _ read
  rw [readMachoSegsTarget, read] at ran
  cases ran
  have stuck := @traverse_stuck _ (fun it : Walk => decide (8 ≤ it.lc))
    (Walk.readNext (ofList (List.replicate 8 0) fun _ => 0)) (fun it => it.lc = 0)
    (fun it start => ⟨by simp [start], by rw [lc_readNext, start]; rfl⟩) ⟨0, []⟩ rfl fuel
  rw [val_bind, val_pure, Option.isSome_map] at ends
  exact absurd (congrArg Option.isSome stuck) (ne_of_eq_of_ne ends (by decide))

end XnuTrace
