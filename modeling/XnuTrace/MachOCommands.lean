import XnuTrace.MachOSegments
import XnuTrace.CstrRead

/-! What `read_macho_segs_target`, `get_text_size` and `get_text_base` find in an image whose load
commands stand one behind the other: all its segments but `__PAGEZERO`, and of these the only one
that may be executed. -/
namespace XnuTrace
open Memory Reads

namespace SegmentCommand64

def bytes (s : SegmentCommand64) : List Uint8 :=
  wordBytes 4 s.cmd ++ wordBytes 4 s.cmdsize ++ s.segname ++ wordBytes 8 s.vmaddr ++
    wordBytes 8 s.vmsize ++ wordBytes 8 s.fileoff ++ wordBytes 8 s.filesize ++
    wordBytes 4 s.maxprot ++ wordBytes 4 s.initprot ++ wordBytes 4 s.nsects ++ wordBytes 4 s.flags

theorem length_bytes {s : SegmentCommand64} (named : s.segname.length = 16) :
    s.bytes.length = sizeofSegmentCommand64 := by
  simp only [bytes, List.length_append, length_wordBytes, named, sizeofSegmentCommand64]

theorem readSegment_bytes {s : SegmentCommand64} {mem : Nat → Uint8} {p : Nat}
    (named : s.segname.length = 16) (holds : Holds mem p s.bytes) :
    (readSegment mem p).val = s := by
  simp only [bytes, holds_append, List.length_append, length_wordBytes, named] at holds
  obtain ⟨⟨⟨⟨⟨⟨⟨⟨⟨⟨cmd, cmdsize⟩, segname⟩, vmaddr⟩, vmsize⟩, fileoff⟩, filesize⟩, maxprot⟩,
    initprot⟩, nsects⟩, flags⟩ := holds
  have name : slice mem (p + 8) 16 = s.segname := named ▸ slice_eq segname
  simp only [readSegment, name, loadWord_wordBytes (by decide) cmd,
    loadWord_wordBytes (by decide) cmdsize, loadWord_wordBytes (by decide) vmaddr,
    loadWord_wordBytes (by decide) vmsize, loadWord_wordBytes (by decide) fileoff,
    loadWord_wordBytes (by decide) filesize, loadWord_wordBytes (by decide) maxprot,
    loadWord_wordBytes (by decide) initprot, loadWord_wordBytes (by decide) nsects,
    loadWord_wordBytes (by decide) flags]

/-- The name is `__PAGEZERO`. -/
def isPagezero (s : SegmentCommand64) : Bool := s.segname.take pagezero.length = pagezero

end SegmentCommand64

/-- A segment as it stands in an image, with its section headers behind the command. -/
structure Segment where
  command : SegmentCommand64
  sections : List Uint8
  isSegment : command.cmd = lcSegment64
  named : command.segname.length = 16
  sized : command.cmdsize.toNat = sizeofSegmentCommand64 + sections.length

/-- A load command of another kind. -/
structure OtherCommand where
  cmd : Uint32
  cmdsize : Uint32
  body : List Uint8
  isOther : cmd ≠ lcSegment64
  sized : cmdsize.toNat = 8 + body.length

inductive LoadCommand
  | segment (s : Segment)
  | other (c : OtherCommand)

namespace LoadCommand

def bytes : LoadCommand → List Uint8
  | segment s => s.command.bytes ++ s.sections
  | other c => wordBytes 4 c.cmd ++ wordBytes 4 c.cmdsize ++ c.body

/-- What the walk keeps of a command. -/
def kept : LoadCommand → List SegmentCommand64
  | segment s => if s.command.isPagezero then [] else [s.command]
  | other _ => []

def size : LoadCommand → Uint32
  | segment s => s.command.cmdsize
  | other c => c.cmdsize

def cmd : LoadCommand → Uint32
  | segment _ => lcSegment64
  | other c => c.cmd

theorem length_bytes (c : LoadCommand) : c.bytes.length = c.size.toNat := by
  cases c with
  | segment s =>
    rw [bytes, List.length_append, SegmentCommand64.length_bytes s.named, size, s.sized]
  | other c => simp only [bytes, List.length_append, length_wordBytes, size, c.sized]

variable {mem : Nat → Uint8} {p : Nat}

/-- The front that every command has. -/
theorem front {c : LoadCommand} (holds : Holds mem p c.bytes) :
    loadWord 32 4 mem p = c.cmd ∧ loadWord 32 4 mem (p + 4) = c.size := by
  cases c with
  | segment s =>
    simp only [bytes, SegmentCommand64.bytes, holds_append, length_wordBytes] at holds
    obtain ⟨cmd, cmdsize⟩ := holds.1.1.1.1.1.1.1.1.1.1
    rw [loadWord_wordBytes (by decide) cmd, loadWord_wordBytes (by decide) cmdsize]
    exact ⟨s.isSegment, rfl⟩
  | other c =>
    simp only [bytes, holds_append, length_wordBytes] at holds
    rw [loadWord_wordBytes (by decide) holds.1.1, loadWord_wordBytes (by decide) holds.1.2]
    exact ⟨rfl, rfl⟩

theorem eight_le (c : LoadCommand) : 8 ≤ c.bytes.length := by
  rw [length_bytes]
  cases c with
  | segment s =>
    rw [size, s.sized, sizeofSegmentCommand64]
    omega
  | other c =>
    rw [size, c.sized]
    omega

/-- A segment is copied whole, unless it is `__PAGEZERO`. -/
theorem readSegs_bytes {c : LoadCommand} (holds : Holds mem p c.bytes)
    (segs : List SegmentCommand64) :
    (Walk.readSegs mem c.cmd ⟨p, segs⟩).val = segs ++ c.kept := by
  cases c with
  | segment s =>
    simp only [bytes, holds_append] at holds
    have copy := SegmentCommand64.readSegment_bytes s.named holds.1
    have name : slice mem (p + 8) pagezero.length = s.command.segname.take pagezero.length := by
      have whole := holds.1
      simp only [SegmentCommand64.bytes, holds_append, length_wordBytes] at whole
      have segname := whole.1.1.1.1.1.1.1.1.2
      rw [← List.take_append_drop pagezero.length s.command.segname, holds_append] at segname
      have front := slice_eq segname.1
      rwa [List.length_take, s.named] at front
    have isSegment : ¬ (segment s).cmd ≠ lcSegment64 := not_not_intro rfl
    rw [Walk.readSegs, if_neg isSegment, val_bind, val_readStreq, name, kept,
      SegmentCommand64.isPagezero]
    cases decide (s.command.segname.take pagezero.length = pagezero) with
    | true => exact (List.append_nil segs).symm
    | false =>
      rw [if_neg Bool.false_ne_true, if_neg Bool.false_ne_true, val_bind, val_pure, copy]
  | other c =>
    have isOther : (other c).cmd ≠ lcSegment64 := c.isOther
    rw [Walk.readSegs, if_pos isOther, val_pure, kept, List.append_nil]

/-- A step of the walk goes over one command, and reads nothing behind it. -/
theorem readNext_bytes {c : LoadCommand} (holds : Holds mem p c.bytes)
    (segs : List SegmentCommand64) :
    (Walk.readNext mem ⟨p, segs⟩).val = ⟨p + c.bytes.length, segs ++ c.kept⟩ ∧
      cmdReads mem p ≤ c.bytes.length := by
  obtain ⟨cmd, size⟩ := front holds
  constructor
  · simp only [Walk.readNext, val_bind, val_word, val_pure, cmd, size, readSegs_bytes holds segs,
      length_bytes]
  · rw [cmdReads, cmd]
    cases c with
    | segment s =>
      have length : (segment s).bytes.length = sizeofSegmentCommand64 + s.sections.length := by
        rw [length_bytes, LoadCommand.size, s.sized]
      have long : sizeofSegmentCommand64 = 72 := rfl
      have isSegment : ¬ (segment s).cmd ≠ lcSegment64 := not_not_intro rfl
      rw [if_neg isSegment, length]
      split <;> omega
    | other c =>
      have isOther : (other c).cmd ≠ lcSegment64 := c.isOther
      rw [if_pos isOther]
      exact eight_le _

/-- The walk over commands that stand one behind the other. -/
theorem traverse_bytes {cmds : List LoadCommand} {hi fuel : Nat} (segs : List SegmentCommand64)
    (holds : Holds mem p (cmds.flatMap bytes)) (ends : p + (cmds.flatMap bytes).length = hi)
    (enough : cmds.length ≤ fuel) :
    (traverse (fun it => hi ≤ it.lc) (Walk.readNext mem) fuel ⟨p, segs⟩).val =
        some ⟨hi, segs ++ cmds.flatMap kept⟩ ∧
      Below hi (traverse (fun it => hi ≤ it.lc) (Walk.readNext mem) fuel ⟨p, segs⟩) := by
  induction cmds generalizing p segs fuel with
  | nil =>
    have there : p = hi := ends
    have stopped : decide (hi ≤ (Walk.mk p segs).lc) = true := decide_eq_true there.ge
    rw [@traverse_stop _ (fun it : Walk => decide (hi ≤ it.lc)) _ _ stopped, there]
    exact ⟨congrArg (fun segs => some (Walk.mk hi segs)) (List.append_nil segs).symm, below_pure _⟩
  | cons c cmds ih =>
    rw [List.flatMap_cons, holds_append] at holds
    rw [List.flatMap_cons, List.length_append, ← Nat.add_assoc] at ends
    obtain ⟨fuel, rfl⟩ := Nat.exists_eq_succ_of_ne_zero (Nat.ne_of_gt (Nat.zero_lt_of_lt enough))
    have long := c.eight_le
    have active : decide (hi ≤ (Walk.mk p segs).lc) = false := decide_eq_false (by
      change ¬ hi ≤ p
      omega)
    obtain ⟨next, room⟩ := readNext_bytes holds.1 segs
    obtain ⟨rest, below⟩ := ih (segs ++ c.kept) holds.2 ends (Nat.le_of_succ_le_succ enough)
    rw [@traverse_step _ (fun it : Walk => decide (hi ≤ it.lc)) _ _ active, val_bind, below_bind,
      next, rest, List.flatMap_cons, List.append_assoc]
    refine ⟨rfl, (below_readNext mem hi ⟨p, segs⟩).mpr ?_, below⟩
    change p + cmdReads mem p ≤ hi
    omega

end LoadCommand

structure MachHeader64 where
  magic : Uint32
  cputype : Uint32
  cpusubtype : Uint32
  filetype : Uint32
  ncmds : Uint32
  sizeofcmds : Uint32
  flags : Uint32
  reserved : Uint32

def MachHeader64.bytes (h : MachHeader64) : List Uint8 :=
  wordBytes 4 h.magic ++ wordBytes 4 h.cputype ++ wordBytes 4 h.cpusubtype ++
    wordBytes 4 h.filetype ++ wordBytes 4 h.ncmds ++ wordBytes 4 h.sizeofcmds ++
    wordBytes 4 h.flags ++ wordBytes 4 h.reserved

/-- The header of an image and its load commands. -/
structure MachImage where
  header : MachHeader64
  commands : List LoadCommand
  sized : header.sizeofcmds.toNat = (commands.flatMap LoadCommand.bytes).length

namespace MachImage

def bytes (image : MachImage) : List Uint8 :=
  image.header.bytes ++ image.commands.flatMap LoadCommand.bytes

def segments (image : MachImage) : List SegmentCommand64 := image.commands.flatMap LoadCommand.kept

/-- The target has the image at the address. -/
def MappedAt (image : MachImage) (target : Uint64 → Option Uint8) (addr : Uint64) : Prop :=
  readTarget target addr image.bytes.length = some image.bytes

instance (image : MachImage) (target : Uint64 → Option Uint8) (addr : Uint64) :
    Decidable (image.MappedAt target addr) := inferInstanceAs (Decidable (_ = _))

variable {image : MachImage} {target : Uint64 → Option Uint8} {addr : Uint64}

theorem readCmdBuf_mapped (mapped : image.MappedAt target addr) :
    readCmdBuf target addr = some (image.commands.flatMap LoadCommand.bytes) := by
  have header : image.header.bytes.length = sizeofMachHeader64 := by
    simp only [MachHeader64.bytes, List.length_append, length_wordBytes, sizeofMachHeader64]
  rw [MappedAt, bytes, List.length_append, header] at mapped
  obtain ⟨front, behind⟩ := readTarget_split mapped
  rw [List.take_left' header] at front
  rw [List.drop_left' header] at behind
  have sizeofcmds : loadWord 32 4 (ofList image.header.bytes fun _ => 0) 20 =
      image.header.sizeofcmds := by
    have holds := holds_ofList image.header.bytes fun _ => 0
    simp only [MachHeader64.bytes, holds_append, List.length_append, length_wordBytes] at holds
    exact loadWord_wordBytes (by decide) holds.1.1.2
  rw [readCmdBuf, front]
  simp only [Option.bind_eq_bind, Option.bind_some, sizeofcmds, image.sized]
  exact behind

/-- The walk over the commands of an image in the target. -/
theorem readMachoSegsTarget_mapped (mapped : image.MappedAt target addr) (after : Nat → Uint8)
    {fuel : Nat} (enough : image.commands.length ≤ fuel) :
    ∃ walk, readMachoSegsTarget target after addr fuel = some walk ∧
      walk.val = some image.segments ∧ Below image.header.sizeofcmds.toNat walk := by
  have holds : Holds (ofList (image.commands.flatMap LoadCommand.bytes) after) 0 _ :=
    holds_ofList _ _
  obtain ⟨val, below⟩ := LoadCommand.traverse_bytes [] holds (Nat.zero_add _) enough
  refine ⟨_, by rw [readMachoSegsTarget, readCmdBuf_mapped mapped]; rfl, ?_, ?_⟩
  · rw [val_bind, val_pure, val]
    rfl
  · rw [image.sized]
    exact (below_bind _ _).mpr ⟨below, below_pure _⟩

end MachImage

end XnuTrace
