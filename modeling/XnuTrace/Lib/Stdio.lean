import Mathlib.Data.List.DropRight
import Mathlib.Algebra.Notation.Defs

/-! A stdio stream on one file: its bytes and the position, as the program that makes the calls
sees them. What it has written since the last seek may still wait in the buffer of the stream, and
is lost when the program is killed: `onDisk` is the file without it. -/
namespace Stdio

variable {α : Type}

structure File (α : Type) where
  bytes : List α := []
  pos : Nat := 0

/-- The calls that can change a file or move in it. -/
inductive Op (α : Type) where
  | fwrite (buf : List α)
  | fseekSet (pos : Nat)
  | fseekEnd

/-- Writes of these pieces, one after the other. -/
def fwrites (pieces : List (List α)) : List (Op α) := pieces.map .fwrite

/-! The buffer. -/

def Op.waits : Op α → Bool
  | .fwrite _ => true
  | .fseekSet _ => false
  | .fseekEnd => false

def Op.buf : Op α → List α
  | .fwrite buf => buf
  | .fseekSet _ => []
  | .fseekEnd => []

/-- The calls up to the last seek, which empties the buffer. -/
def settled (ops : List (Op α)) : List (Op α) := ops.rdropWhile Op.waits

/-- What was written since. -/
def written (ops : List (Op α)) : List α := (ops.rtakeWhile Op.waits).flatMap Op.buf

/-- How many bytes of it the buffer has let go after these calls, because it was full. -/
abbrev Spill (α : Type) := List (Op α) → Nat

/-- The bytes that it has let go. -/
def spilled (spill : Spill α) (ops : List (Op α)) : List α := (written ops).take (spill ops)

/-- How often the buffer was emptied. -/
def seeks (ops : List (Op α)) : Nat := ops.countP fun op => !op.waits

section
variable {op : Op α}

theorem waits_fwrites (pieces : List (List α)) : ∀ op ∈ fwrites pieces, op.waits = true := by
  intro op member
  obtain ⟨buf, -, rfl⟩ := List.mem_map.mp member
  rfl

theorem settled_fwrites (pieces : List (List α)) : settled (fwrites pieces) = [] :=
  List.rdropWhile_eq_nil_iff.mpr (waits_fwrites pieces)

theorem written_fwrites (pieces : List (List α)) : written (fwrites pieces) = pieces.flatten := by
  rw [written, List.rtakeWhile_eq_self_iff.mpr (waits_fwrites pieces), fwrites, List.flatMap_map]
  exact List.flatMap_id

theorem seeks_fwrites (pieces : List (List α)) : seeks (fwrites pieces) = 0 :=
  List.countP_eq_zero.mpr fun op member => by rw [waits_fwrites pieces op member]; decide

theorem seeks_append (ops ops' : List (Op α)) : seeks (ops ++ ops') = seeks ops + seeks ops' :=
  List.countP_append

theorem settled_seek (seeks : op.waits = false) (ops : List (Op α)) :
    settled (ops ++ [op]) = ops ++ [op] :=
  List.rdropWhile_concat_neg _ _ _ (Bool.eq_false_iff.mp seeks)

theorem written_seek (seeks : op.waits = false) (ops : List (Op α)) : written (ops ++ [op]) = [] := by
  rw [written, List.rtakeWhile_concat_neg _ _ _ (Bool.eq_false_iff.mp seeks), List.flatMap_nil]

theorem settled_fwrite (ops : List (Op α)) (buf : List α) :
    settled (ops ++ [.fwrite buf]) = settled ops := List.rdropWhile_concat_pos _ _ _ rfl

theorem written_fwrite (ops : List (Op α)) (buf : List α) :
    written (ops ++ [.fwrite buf]) = written ops ++ buf := by
  rw [written, List.rtakeWhile_concat_pos _ _ _ rfl, List.flatMap_append, List.flatMap_singleton]
  rfl

end

/-! The file. -/

variable [Zero α]

/-- Behind the end of the file a write leaves a gap of zeros. -/
def File.apply (f : File α) : Op α → File α
  | .fwrite buf => {
      bytes := f.bytes.take f.pos ++ .replicate (f.pos - f.bytes.length) 0 ++ buf ++
        f.bytes.drop (f.pos + buf.length)
      pos := f.pos + buf.length }
  | .fseekSet pos => { f with pos := pos }
  | .fseekEnd => { f with pos := f.bytes.length }

/-- A new file after these calls, once the buffer is empty. -/
def run (ops : List (Op α)) : File α := ops.foldl File.apply {}

/-- The file as others see it, and as it stays when the program is killed. -/
def onDisk (spill : Spill α) (ops : List (Op α)) : List α :=
  if spilled spill ops = [] then (run (settled ops)).bytes
  else ((run (settled ops)).apply (.fwrite (spilled spill ops))).bytes

theorem run_append (ops ops' : List (Op α)) :
    run (ops ++ ops') = ops'.foldl File.apply (run ops) := List.foldl_append

/-- At the end of a file writes append. -/
theorem foldl_fwrites {f : File α} (atEnd : f.pos = f.bytes.length) (pieces : List (List α)) :
    (fwrites pieces).foldl File.apply f =
      { bytes := f.bytes ++ pieces.flatten
        pos := (f.bytes ++ pieces.flatten).length } := by
  induction pieces generalizing f with
  | nil =>
    rw [List.flatten_nil, List.append_nil, ← atEnd]
    rfl
  | cons buf pieces ih =>
    have appended : f.apply (.fwrite buf) =
        { bytes := f.bytes ++ buf, pos := (f.bytes ++ buf).length } := by
      simp [File.apply, atEnd]
    rw [fwrites, List.map_cons, List.foldl_cons, appended, ← fwrites, ih rfl, List.flatten_cons,
      List.append_assoc]

theorem run_fwrites (pieces : List (List α)) : run (fwrites pieces) =
    { bytes := pieces.flatten, pos := pieces.flatten.length } := foldl_fwrites rfl pieces

/-- A field is rewritten in place. -/
theorem apply_patch {f : File α} {front old behind : List α} (file : f.bytes = front ++ (old ++ behind))
    {buf : List α} (same : buf.length = old.length) :
    (f.apply (.fseekSet front.length)).apply (.fwrite buf) =
      { bytes := front ++ (buf ++ behind), pos := front.length + buf.length } := by
  simp [File.apply, file, same]

section
variable {op : Op α} (spill : Spill α)

/-- A seek does not change the file. -/
theorem bytes_seek (seeks : op.waits = false) (ops : List (Op α)) :
    (run (ops ++ [op])).bytes = (run ops).bytes := by
  rw [run_append]
  cases op with
  | fwrite => cases seeks
  | fseekSet => rfl
  | fseekEnd => rfl

theorem onDisk_nil : onDisk spill ([] : List (Op α)) = [] := if_pos List.take_nil

/-- Behind a seek nothing waits. -/
theorem onDisk_seek (seeks : op.waits = false) (ops : List (Op α)) :
    onDisk spill (ops ++ [op]) = (run ops).bytes := by
  rw [onDisk, spilled, written_seek seeks, if_pos List.take_nil, settled_seek seeks, bytes_seek seeks]

/-- Of a file that is only written the front is on disk. -/
theorem onDisk_fwrites (pieces : List (List α)) :
    onDisk spill (fwrites pieces) = pieces.flatten.take (spill (fwrites pieces)) := by
  rw [onDisk, spilled, written_fwrites, settled_fwrites]
  split
  · rename_i none
    exact none.symm
  · simp [run, File.apply]

/-- Of a field that is rewritten in place the front is new. -/
theorem onDisk_patch {ops : List (Op α)} {front old behind : List α}
    (file : (run ops).bytes = front ++ (old ++ behind)) (buf : List α)
    (same : buf.length = old.length) :
    onDisk spill (ops ++ [.fseekSet front.length] ++ [.fwrite buf]) =
      front ++ (buf.take (spill (ops ++ [.fseekSet front.length] ++ [.fwrite buf])) ++
        (old.drop (spill (ops ++ [.fseekSet front.length] ++ [.fwrite buf])) ++ behind)) := by
  have seeks : (Op.fseekSet front.length : Op α).waits = false := rfl
  rw [onDisk, spilled, written_fwrite, written_seek seeks, List.nil_append, settled_fwrite,
    settled_seek seeks, bytes_seek seeks]
  generalize spill (ops ++ [.fseekSet front.length] ++ [.fwrite buf]) = n
  split
  · rename_i none
    have all : old.drop n = old := by
      rcases List.take_eq_nil_iff.mp none with rfl | empty
      · rfl
      · rw [List.eq_nil_of_length_eq_zero (same.symm.trans (congrArg List.length empty)), List.drop_nil]
    rw [none, all, file, List.nil_append]
  · have split : (run ops).bytes = front ++ (old.take n ++ (old.drop n ++ behind)) := by
      rw [file, ← List.append_assoc (old.take n), List.take_append_drop]
    have front : (buf.take n).length = (old.take n).length := by
      rw [List.length_take, List.length_take, same]
    rw [run_append, List.foldl_cons, List.foldl_nil, apply_patch split front]

end

end Stdio
