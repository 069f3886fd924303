import XnuTrace.ZstdStreams
import XnuTrace.SavedFiles
import Mathlib.Data.BitVec

/-! `detail::CompressedFile` call by call on its `FILE`: the header is written on opening
and once more on closing, when the decompressed size is patched in. It makes the file that
`CompressedFile.close` describes. -/
namespace XnuTrace
open Memory Stdio

/-- A file open for writing; what `m_fh` holds is given by the calls made on it. -/
structure FileWriter (z : ZstdStreams) where
  mHdrSz : Nat
  mHdrBuf : List Uint8
  mCompCtx : Option z.CCtx := none
  mDecompSize : Uint64 := 0
  mFh : List (Op Uint8) := []

/-- What a program does with an open file: `write`, or an assignment to `header()`. -/
inductive FileCall (hdrSz : Nat) where
  | write (buf : List Uint8)
  | header (value : Vector Uint8 hdrSz)

namespace FileWriter
variable {z : ZstdStreams}

/-- `assert(fwrite(buf, size, 1, m_fh) == 1)`: of size 0 no item is written. -/
def fwrite (w : FileWriter z) (buf : List Uint8) : Option (FileWriter z) :=
  if buf = [] then none else some { w with mFh := w.mFh ++ [.fwrite buf] }

def fseek (w : FileWriter z) (seek : Op Uint8) : FileWriter z :=
  { w with mFh := w.mFh ++ [seek] }

variable (z) in
def create (hdrMagic : Uint64) (hdr : List Uint8) (level : Int) : Option (FileWriter z) := do
  let w : FileWriter z := { mHdrSz := hdr.length, mHdrBuf := hdr }
  -- `decompressed_size` is still 0
  let w ← w.fwrite (CompressedFile.create hdrMagic hdr level).compHdr
  let w ← w.fwrite hdr
  return { w with mCompCtx := if level ≠ 0 then some (z.createCCtx level) else none }

def writeBody (w : FileWriter z) (buf : List Uint8) : Option (FileWriter z) :=
  match w.mCompCtx with
  | none => w.fwrite buf
  | some ctx =>
    let (ctx, written) := z.writeLoop ctx buf
    (written.foldlM fwrite w).map fun w => { w with mCompCtx := some ctx }

def write (w : FileWriter z) (buf : List Uint8) : Option (FileWriter z) :=
  (w.writeBody buf).map fun w =>
    { w with mDecompSize := w.mDecompSize + BitVec.ofNat 64 buf.length }

def file (w : FileWriter z) : List Uint8 := (Stdio.run w.mFh).bytes

/-- The end of the frame, in the destructor. -/
def flush (w : FileWriter z) : Option (FileWriter z) :=
  match w.mCompCtx with
  | none => some w
  | some ctx => (z.flushLoop ctx).foldlM fwrite w

/-- The destructor. -/
def close (w : FileWriter z) : Option (FileWriter z) := do
  let w ← w.flush
  let w ← (w.fseek (.fseekSet 24)).fwrite (wordBytes 8 w.mDecompSize)
  let w := w.fseek (.fseekSet sizeofLogCompHdr)
  if w.mHdrSz ≠ w.mHdrBuf.length then none
  else
    let w ← w.fwrite w.mHdrBuf
    let w := w.fseek .fseekEnd
    -- `total_comp_sz > 0`
    if w.file = [] then none else return w

def call {hdrSz : Nat} (w : FileWriter z) : FileCall hdrSz → Option (FileWriter z)
  | .write buf => w.write buf
  | .header value =>
    if hdrSz = w.mHdrBuf.length then some { w with mHdrBuf := value.toList } else none

def run {hdrSz : Nat} (w : FileWriter z) (calls : List (FileCall hdrSz)) : Option (FileWriter z) :=
  calls.foldlM call w

end FileWriter

namespace CompressedFile

/-- The file while it is open: the header as it was on opening, and no size yet. -/
def openCompHdr (f : CompressedFile) : List Uint8 :=
  (create f.hdrMagic f.mHdrBuf f.level).compHdr

theorem openCompHdr_eq (f : CompressedFile) : f.openCompHdr = f.compHdrOf 0 := rfl

/-- Headers differ in the last field only. -/
theorem compHdrOf_eq (f : CompressedFile) : ∃ front, front.length = 24 ∧
    ∀ size, f.compHdrOf size = front ++ wordBytes 8 size := by
  refine ⟨wordBytes 8 f.hdrMagic ++ wordBytes 8 f.isCompressed ++
    wordBytes 8 (BitVec.ofNat 64 f.mHdrBuf.length), by simp, fun _ => rfl⟩

end CompressedFile

namespace ZstdStreams
variable {z : ZstdStreams}

theorem writeAll_concat (ctx : z.CCtx) (bufs : List (List Uint8)) (buf : List Uint8) :
    z.writeAll ctx (bufs ++ [buf]) =
      ((z.writeLoop (z.writeAll ctx bufs).1 buf).1,
        (z.writeAll ctx bufs).2 ++ (z.writeLoop (z.writeAll ctx bufs).1 buf).2) := by
  induction bufs generalizing ctx with
  | nil => simp [writeAll]
  | cons first bufs ih => simp [writeAll, ih]

end ZstdStreams

namespace FileWriter
variable {z : ZstdStreams}

theorem fwrite_of_nonempty {buf : List Uint8} (nonempty : buf ≠ []) (w : FileWriter z) :
    w.fwrite buf = some { w with mFh := w.mFh ++ [.fwrite buf] } := if_neg nonempty

theorem foldlM_fwrite {w : FileWriter z} {pieces : List (List Uint8)}
    (nonempty : ∀ buf ∈ pieces, buf ≠ []) :
    pieces.foldlM fwrite w = some { w with mFh := w.mFh ++ fwrites pieces } := by
  induction pieces generalizing w with
  | nil =>
    rw [fwrites, List.map_nil, List.append_nil]
    rfl
  | cons buf pieces ih =>
    rw [List.foldlM_cons, fwrite_of_nonempty (nonempty buf List.mem_cons_self)]
    refine (ih fun b member => nonempty b (List.mem_cons_of_mem _ member)).trans ?_
    rw [List.append_assoc]
    rfl

/-- What every method leaves: the calls made before, and the header. -/
structure Adds (w w' : FileWriter z) : Prop where
  calls : w.mFh <+: w'.mFh
  hdrSz : w'.mHdrSz = w.mHdrSz
  header : w'.mHdrBuf = w.mHdrBuf

theorem Adds.refl (w : FileWriter z) : Adds w w := ⟨List.prefix_rfl, rfl, rfl⟩

theorem Adds.trans {w w' w'' : FileWriter z} (first : Adds w w') (second : Adds w' w'') :
    Adds w w'' where
  calls := first.calls.trans second.calls
  hdrSz := second.hdrSz.trans first.hdrSz
  header := second.header.trans first.header

theorem adds_fseek (w : FileWriter z) (seek : Op Uint8) : Adds w (w.fseek seek) :=
  ⟨List.prefix_append _ _, rfl, rfl⟩

theorem adds_fwrite {w w' : FileWriter z} {buf : List Uint8} (wrote : w.fwrite buf = some w') :
    Adds w w' := by
  unfold fwrite at wrote
  split at wrote
  · cases wrote
  · rw [← Option.some.inj wrote]
    exact ⟨List.prefix_append _ _, rfl, rfl⟩

theorem adds_foldlM {w w' : FileWriter z} {pieces : List (List Uint8)}
    (wrote : pieces.foldlM fwrite w = some w') : Adds w w' := by
  induction pieces generalizing w with
  | nil =>
    cases wrote
    exact .refl _
  | cons buf pieces ih =>
    rw [List.foldlM_cons] at wrote
    obtain ⟨w₁, first, rest⟩ := Option.bind_eq_some_iff.mp wrote
    exact (adds_fwrite first).trans (ih rest)

theorem adds_write {w w' : FileWriter z} {buf : List Uint8} (wrote : w.write buf = some w') :
    Adds w w' := by
  obtain ⟨w₁, made, rfl⟩ := Option.map_eq_some_iff.mp wrote
  unfold writeBody at made
  split at made
  · obtain ⟨calls, hdrSz, header⟩ := adds_fwrite made
    exact ⟨calls, hdrSz, header⟩
  · obtain ⟨w₂, pieces, rfl⟩ := Option.map_eq_some_iff.mp made
    obtain ⟨calls, hdrSz, header⟩ := adds_foldlM pieces
    exact ⟨calls, hdrSz, header⟩

theorem adds_flush {w w' : FileWriter z} (flushed : w.flush = some w') : Adds w w' := by
  unfold flush at flushed
  split at flushed
  · exact Option.some.inj flushed ▸ .refl w
  · exact adds_foldlM flushed

/-- Closing also means that the header still has its size, and moves in the file. -/
theorem adds_close {w w' : FileWriter z} (closes : w.close = some w') :
    Adds w w' ∧ w.mHdrSz = w.mHdrBuf.length ∧ w.mFh.length < w'.mFh.length := by
  obtain ⟨w₁, flushed, closes⟩ := Option.bind_eq_some_iff.mp closes
  obtain ⟨w₂, sized, closes⟩ := Option.bind_eq_some_iff.mp closes
  have first := (adds_flush flushed).trans ((adds_fseek w₁ _).trans (adds_fwrite sized))
  dsimp only at closes
  split at closes
  · cases closes
  rename_i same
  obtain ⟨w₃, headed, closes⟩ := Option.bind_eq_some_iff.mp closes
  have second := first.trans ((adds_fseek w₂ _).trans (adds_fwrite headed))
  split at closes
  · cases closes
  rw [← Option.some.inj closes]
  refine ⟨second.trans (adds_fseek w₃ _), ?_, ?_⟩
  · rw [← first.hdrSz, ← first.header]
    exact not_not.mp same
  · have more := second.calls.length_le
    rw [fseek, List.length_append, List.length_singleton]
    exact Nat.lt_succ_of_le more

/-- What the writer has made of the body so far. -/
inductive Body (z : ZstdStreams) (f : CompressedFile) : Option z.CCtx → List (List Uint8) → Prop
  | plain : f.level = 0 → Body z f none f.pieces
  | compressed : f.level ≠ 0 → Body z f (some (z.writeAll (z.createCCtx f.level) f.pieces).1)
      (z.writeAll (z.createCCtx f.level) f.pieces).2

theorem Body.setHeader {f : CompressedFile} {ctx : Option z.CCtx} {body : List (List Uint8)}
    (made : Body z f ctx body) (hdr : List Uint8) : Body z { f with mHdrBuf := hdr } ctx body := by
  cases made with
  | plain level => exact @Body.plain z { f with mHdrBuf := hdr } level
  | compressed level => exact @Body.compressed z { f with mHdrBuf := hdr } level

/-- The writer has this file open, with these first headers and this body on disk. -/
structure Holds (w : FileWriter z) (f : CompressedFile) (hdr : List Uint8)
    (body : List (List Uint8)) : Prop where
  made : Body z f w.mCompCtx body
  calls : w.mFh = fwrites (f.openCompHdr :: hdr :: body)
  hdrSz : w.mHdrSz = hdr.length
  header : w.mHdrBuf = f.mHdrBuf
  same : f.mHdrBuf.length = hdr.length
  size : w.mDecompSize = f.decompressedSize

theorem create_spec {hdrMagic : Uint64} {hdr : List Uint8} (nonempty : hdr ≠ []) (level : Int) :
    ∃ w, create z hdrMagic hdr level = some w ∧
      Holds w (.create hdrMagic hdr level) hdr [] := by
  have first : (CompressedFile.create hdrMagic hdr level).compHdr ≠ [] :=
    List.ne_nil_of_length_pos (by rw [CompressedFile.length_compHdr]; decide)
  simp only [create, fwrite_of_nonempty first, fwrite_of_nonempty nonempty, Option.bind_eq_bind,
    Option.bind_some]
  refine ⟨_, rfl, ?_, rfl, rfl, rfl, rfl, rfl⟩
  by_cases plain : level = 0
  · simp only [plain, ne_eq, not_true, if_false]
    exact .plain rfl
  · simp only [ne_eq, plain, not_false_eq_true, if_true]
    exact .compressed plain

section
variable {w : FileWriter z} {f : CompressedFile} {hdr : List Uint8} {body : List (List Uint8)}

theorem size_concat (f : CompressedFile) (buf : List Uint8) :
    f.decompressedSize + BitVec.ofNat 64 buf.length =
      CompressedFile.decompressedSize { f with pieces := f.pieces ++ [buf] } := by
  simp [CompressedFile.decompressedSize, CompressedFile.written, BitVec.ofNat_add]

/-- An uncompressed write of nothing fails, and no other write. -/
theorem Holds.write (holds : Holds w f hdr body) (buf : List Uint8) :
    (f.level = 0 ∧ buf = [] ∧ w.write buf = none ∧ f.write buf = none) ∨
    ∃ w' body', w.write buf = some w' ∧ f.write buf = some { f with pieces := f.pieces ++ [buf] } ∧
      Holds w' { f with pieces := f.pieces ++ [buf] } hdr body' := by
  obtain ⟨made, calls, hdrSz, header, same, size⟩ := holds
  cases compCtx : w.mCompCtx with
  | none =>
    rw [compCtx] at made
    cases made with
    | plain level =>
    by_cases empty : buf = []
    · refine .inl ⟨level, empty, ?_, if_pos ⟨level, empty⟩⟩
      simp only [FileWriter.write, writeBody, compCtx, fwrite, if_pos empty]
      rfl
    · refine .inr ⟨{ w with
        mFh := w.mFh ++ [.fwrite buf]
        mDecompSize := w.mDecompSize + BitVec.ofNat 64 buf.length }, f.pieces ++ [buf], ?_,
        f.write_of_nonempty empty, ?_, ?_, hdrSz, header, same, ?_⟩
      · simp only [FileWriter.write, writeBody, compCtx, fwrite_of_nonempty empty]
        rfl
      · rw [compCtx]
        exact .plain level
      · rw [calls]
        simp [fwrites, CompressedFile.openCompHdr]
      · rw [size]
        exact size_concat f buf
  | some ctx =>
    rw [compCtx] at made
    cases made with
    | compressed level =>
    have before := (@ZstdStreams.writeAll_spec z f.level _ _ _ .create f.pieces).1
    have nonempty := (@ZstdStreams.writeLoop_spec z f.level _ buf _ _ before).2
    have next := z.writeAll_concat (z.createCCtx f.level) f.pieces buf
    refine .inr ⟨{ w with
      mFh := w.mFh ++ fwrites (z.writeLoop (z.writeAll (z.createCCtx f.level) f.pieces).1 buf).2
      mCompCtx := some (z.writeLoop (z.writeAll (z.createCCtx f.level) f.pieces).1 buf).1
      mDecompSize := w.mDecompSize + BitVec.ofNat 64 buf.length },
      (z.writeAll (z.createCCtx f.level) (f.pieces ++ [buf])).2, ?_,
      CompressedFile.write_compressed level buf, ?_, ?_, hdrSz, header, same, ?_⟩
    · simp only [FileWriter.write, writeBody, compCtx, foldlM_fwrite nonempty]
      rfl
    · have made : Body z { f with pieces := f.pieces ++ [buf] } _ _ := .compressed level
      rw [next] at made
      rw [next]
      exact made
    · rw [calls, next]
      simp [fwrites, CompressedFile.openCompHdr]
    · rw [size]
      exact size_concat f buf

theorem Holds.setBuf (holds : Holds w f hdr body) {value : List Uint8}
    (sized : value.length = hdr.length) :
    Holds { w with mHdrBuf := value } { f with mHdrBuf := value } hdr body := by
  obtain ⟨made, calls, hdrSz, header, same, size⟩ := holds
  refine ⟨made.setHeader value, ?_, hdrSz, rfl, sized, size⟩
  rw [calls]
  simp only [CompressedFile.openCompHdr, CompressedFile.create, CompressedFile.compHdr, sized, same]
  rfl

theorem Holds.setHeader (holds : Holds w f hdr body) {n : Nat} (sized : n = hdr.length)
    (value : Vector Uint8 n) : ∃ w', w.call (.header value) = some w' ∧
      Holds w' { f with mHdrBuf := value.toList } hdr body := by
  refine ⟨_, if_pos ?_, holds.setBuf ?_⟩
  · rw [holds.header, holds.same, sized]
  · rw [Vector.length_toList, sized]

/-- The body once the destructor has flushed. -/
theorem Holds.flush (holds : Holds w f hdr body) :
    ∃ rest, w.flush = some { w with mFh := w.mFh ++ fwrites rest } ∧
      (body ++ rest).flatten = f.body z.zstd := by
  obtain ⟨made, calls, -⟩ := holds
  cases compCtx : w.mCompCtx with
  | none =>
    rw [compCtx] at made
    cases made with
    | plain level =>
    have flushed : w.flush = some w := by rw [FileWriter.flush, compCtx]
    refine ⟨[], flushed.trans ?_, ?_⟩
    · rw [fwrites, List.map_nil, List.append_nil, ← compCtx]
    · rw [List.append_nil, CompressedFile.body, if_neg fun h => h level]
      rfl
  | some ctx =>
    rw [compCtx] at made
    cases made with
    | compressed level =>
    have before := (@ZstdStreams.writeAll_spec z f.level _ _ _ .create f.pieces).1
    have nonempty := (ZstdStreams.flushLoop_spec before).2
    have flushed : w.flush =
        (z.flushLoop (z.writeAll (z.createCCtx f.level) f.pieces).1).foldlM fwrite w := by
      rw [FileWriter.flush, compCtx]
    refine ⟨z.flushLoop (z.writeAll (z.createCCtx f.level) f.pieces).1, ?_, ?_⟩
    · rw [flushed, foldlM_fwrite nonempty, compCtx]
    · rw [CompressedFile.body, if_pos level]
      rfl

/-- The calls of the destructor behind the body. -/
def patches (f : CompressedFile) : List (Op Uint8) :=
  [.fseekSet 24, .fwrite (wordBytes 8 f.decompressedSize), .fseekSet sizeofLogCompHdr,
    .fwrite f.mHdrBuf, .fseekEnd]

/-- First the size is replaced where it is. -/
theorem apply_size (f : CompressedFile) {file : File Uint8} {behind : List Uint8}
    (bytes : file.bytes = f.openCompHdr ++ behind) :
    (file.apply (.fseekSet 24)).apply (.fwrite (wordBytes 8 f.decompressedSize)) =
      { bytes := f.compHdr ++ behind, pos := sizeofLogCompHdr } := by
  obtain ⟨front, length, headers⟩ := f.compHdrOf_eq
  rw [f.openCompHdr_eq, headers, List.append_assoc] at bytes
  have field : (wordBytes 8 f.decompressedSize).length = (wordBytes 8 (0 : Uint64)).length := by
    rw [length_wordBytes, length_wordBytes]
  rw [← length, apply_patch bytes field, f.compHdr_eq, headers, List.append_assoc, length,
    length_wordBytes]
  rfl

/-- Then the header. -/
theorem apply_header (f : CompressedFile) {pos : Nat} {behind : List Uint8}
    (same : f.mHdrBuf.length = hdr.length) :
    (({ bytes := f.compHdr ++ (hdr ++ behind), pos := pos } : File Uint8).apply
        (.fseekSet sizeofLogCompHdr)).apply (.fwrite f.mHdrBuf) =
      { bytes := f.compHdr ++ (f.mHdrBuf ++ behind)
        pos := f.compHdr.length + f.mHdrBuf.length } := by
  rw [← f.length_compHdr]
  exact apply_patch rfl same

theorem foldl_patches (f : CompressedFile) {file : File Uint8} {behind : List Uint8}
    (same : f.mHdrBuf.length = hdr.length) (bytes : file.bytes = f.openCompHdr ++ (hdr ++ behind)) :
    ((patches f).foldl File.apply file).bytes = f.compHdr ++ (f.mHdrBuf ++ behind) := by
  rw [patches, List.foldl_cons, List.foldl_cons, apply_size f bytes, List.foldl_cons,
    List.foldl_cons, apply_header f same]
  rfl

/-- The calls of the destructor. -/
theorem Holds.close_calls (holds : Holds w f hdr body) (nonempty : hdr ≠ []) :
    ∃ w' rest, w.close = some w' ∧ (body ++ rest).flatten = f.body z.zstd ∧
      w'.mFh = fwrites (f.openCompHdr :: hdr :: (body ++ rest)) ++ patches f := by
  obtain ⟨rest, flushed, whole⟩ := holds.flush
  obtain ⟨made, calls, hdrSz, header, same, size⟩ := holds
  have all : w.mFh ++ fwrites rest = fwrites (f.openCompHdr :: hdr :: (body ++ rest)) := by
    rw [calls]
    simp [fwrites]
  have onDisk : (Stdio.run (w.mFh ++ fwrites rest)).bytes =
      f.openCompHdr ++ (hdr ++ (body ++ rest).flatten) := by
    rw [all, run_fwrites, List.flatten_cons, List.flatten_cons]
  have field : wordBytes 8 w.mDecompSize ≠ [] :=
    List.ne_nil_of_length_pos (by rw [length_wordBytes]; decide)
  have kept : w.mHdrBuf ≠ [] := by
    rw [header, ← List.length_pos_iff, same, List.length_pos_iff]
    exact nonempty
  have sized : w.mHdrSz = w.mHdrBuf.length := by rw [hdrSz, header, same]
  have long : (Stdio.run (w.mFh ++ fwrites rest ++ patches f)).bytes ≠ [] := by
    rw [run_append, foldl_patches f same onDisk]
    refine List.append_ne_nil_of_left_ne_nil (List.ne_nil_of_length_pos ?_) _
    rw [f.length_compHdr]
    decide
  rw [patches, ← size, ← header] at long ⊢
  refine ⟨{ w with mFh := w.mFh ++ fwrites rest ++ [.fseekSet 24] ++
      [.fwrite (wordBytes 8 w.mDecompSize)] ++ [.fseekSet sizeofLogCompHdr] ++
      [.fwrite w.mHdrBuf] ++ [.fseekEnd] }, rest, ?_, whole, ?_⟩
  · simp only [FileWriter.close, flushed, Option.bind_eq_bind, Option.bind_some, fseek,
      fwrite_of_nonempty field, fwrite_of_nonempty kept, sized, ne_eq, not_true, if_false]
    refine if_neg fun empty => long ?_
    simpa only [file, List.append_assoc, List.cons_append, List.nil_append] using empty
  · rw [← all]
    simp only [List.append_assoc, List.cons_append, List.nil_append]

/-- The destructor makes the file of the description. -/
theorem Holds.close (holds : Holds w f hdr body) (nonempty : hdr ≠ []) :
    ∃ w', w.close = some w' ∧ w'.file = f.close z.zstd := by
  obtain ⟨w', rest, closes, whole, calls⟩ := holds.close_calls nonempty
  have onDisk : (Stdio.run (fwrites (f.openCompHdr :: hdr :: (body ++ rest)))).bytes =
      f.openCompHdr ++ (hdr ++ (body ++ rest).flatten) := by
    rw [run_fwrites, List.flatten_cons, List.flatten_cons]
  refine ⟨w', closes, ?_⟩
  rw [file, calls, run_append, foldl_patches f holds.same onDisk, whole]
  rfl

/-! Files that are cut off. -/

/-- With the write of the size a file whose header stays is complete. -/
theorem take_patches {ops : List (Op Uint8)} {behind : List Uint8}
    (opened : (Stdio.run ops).bytes = f.openCompHdr ++ (f.mHdrBuf ++ behind)) (j : Nat) :
    (Stdio.run (ops ++ (patches f).take (j + 2))).bytes = f.compHdr ++ (f.mHdrBuf ++ behind) := by
  have again := @apply_header f.mHdrBuf f sizeofLogCompHdr behind rfl
  rw [run_append, patches, List.take_succ_cons, List.take_succ_cons, List.foldl_cons,
    List.foldl_cons, apply_size f opened]
  rcases j with _ | _ | j
  · rfl
  · rfl
  · rw [List.take_succ_cons, List.take_succ_cons, List.foldl_cons, List.foldl_cons, again]
    cases j with
    | zero => rfl
    | succ j =>
      rw [List.take_succ_cons, List.take_nil]
      rfl

/-- Whether the size is on disk: the destructor has made its second seek, or the buffer has let
all of the field go before. -/
def sizeOnDisk (spill : Spill Uint8) (ops : List (Op Uint8)) : Prop :=
  2 ≤ seeks ops ∨ seeks ops = 1 ∧ 8 ≤ (spilled spill ops).length

instance (spill : Spill Uint8) (ops : List (Op Uint8)) : Decidable (sizeOnDisk spill ops) :=
  inferInstanceAs (Decidable (_ ∨ _))

/-- What is on disk of a file while it is made: not all of its headers; the headers without the
size; or all of it. -/
inductive Stage (z : ZstdStreams) (spill : Spill Uint8) (f : CompressedFile) (ops : List (Op Uint8)) :
    Prop
  | short : (onDisk spill ops).length < sizeofLogCompHdr + f.mHdrBuf.length → Stage z spill f ops
  | headed (size : Uint64) (behind : List Uint8) : ¬ sizeOnDisk spill ops →
    onDisk spill ops = f.compHdrOf size ++ (f.mHdrBuf ++ behind) → Stage z spill f ops
  | complete : sizeOnDisk spill ops → onDisk spill ops = f.close z.zstd → Stage z spill f ops

section
variable (spill : Spill Uint8)

theorem not_sizeOnDisk_fwrites (pieces : List (List Uint8)) : ¬ sizeOnDisk spill (fwrites pieces) := by
  rw [sizeOnDisk, seeks_fwrites]
  omega

/-- While the file is only written. -/
theorem stage_fwrites (f : CompressedFile) (pieces : List (List Uint8)) (k : Nat) :
    Stage z spill f ((fwrites (f.openCompHdr :: f.mHdrBuf :: pieces)).take k) := by
  have calls : (fwrites (f.openCompHdr :: f.mHdrBuf :: pieces)).take k =
      fwrites ((f.openCompHdr :: f.mHdrBuf :: pieces).take k) := (List.map_take ..).symm
  rw [calls]
  let ops := fwrites ((f.openCompHdr :: f.mHdrBuf :: pieces).take k)
  rcases Nat.lt_or_ge (onDisk spill ops).length (sizeofLogCompHdr + f.mHdrBuf.length) with
    less | headers
  · exact .short less
  have shown : onDisk spill ops <+: (f.openCompHdr :: f.mHdrBuf :: pieces).flatten := by
    rw [onDisk_fwrites]
    exact (List.take_prefix _ _).trans (List.take_prefix k _).flatten
  have front : f.openCompHdr ++ f.mHdrBuf <+: (f.openCompHdr :: f.mHdrBuf :: pieces).flatten :=
    ⟨pieces.flatten, by simp⟩
  have length : (f.openCompHdr ++ f.mHdrBuf).length ≤ (onDisk spill ops).length := by
    rw [List.length_append, f.openCompHdr_eq, f.length_compHdrOf]
    exact headers
  obtain ⟨behind, same⟩ := List.prefix_of_prefix_length_le front shown length
  exact .headed 0 behind (not_sizeOnDisk_fwrites spill _) (by rw [← same, List.append_assoc]; rfl)

/-- Torn or not, the bytes of the field are those of some size. -/
theorem exists_torn_size (size : Uint64) (n : Nat) :
    ∃ torn : Uint64,
      (wordBytes 8 size).take n ++ (wordBytes 8 (0 : Uint64)).drop n = wordBytes 8 torn := by
  have length : ((wordBytes 8 size).take n ++ (wordBytes 8 (0 : Uint64)).drop n).length = 8 := by
    rw [List.length_append, List.length_take, List.length_drop, length_wordBytes, length_wordBytes]
    omega
  exact ⟨_, (wordBytes_frontWord (by decide : 256 ^ 8 = 2 ^ 64) length).symm⟩

/-- While the destructor patches the headers of a file whose body is written. -/
theorem stage_patches {f : CompressedFile} {pieces : List (List Uint8)}
    (opened : pieces.flatten = f.openCompHdr ++ (f.mHdrBuf ++ f.body z.zstd)) (j : Nat) :
    Stage z spill f (fwrites pieces ++ (patches f).take (j + 1)) := by
  have bytes : (Stdio.run (fwrites pieces)).bytes =
      f.openCompHdr ++ (f.mHdrBuf ++ f.body z.zstd) := by rw [run_fwrites, opened]
  have closed : ∀ j, (Stdio.run (fwrites pieces ++ (patches f).take (j + 2))).bytes = f.close z.zstd :=
    take_patches bytes
  have sought : seeks (fwrites pieces : List (Op Uint8)) = 0 := seeks_fwrites pieces
  rcases j with _ | _ | _ | _ | j
  · -- behind the first seek the size is still 0
    have first : (fwrites pieces ++ (patches f).take 1 : List (Op Uint8)) =
        fwrites pieces ++ [.fseekSet 24] := rfl
    rw [first]
    refine .headed 0 (f.body z.zstd) ?_ ((onDisk_seek spill rfl _).trans bytes)
    rw [sizeOnDisk, spilled, written_seek rfl, seeks_append, sought, List.take_nil]
    decide
  · -- the field may be torn
    obtain ⟨front, length, headers⟩ := f.compHdrOf_eq
    have field : (Stdio.run (fwrites pieces)).bytes =
        front ++ (wordBytes 8 (0 : Uint64) ++ (f.mHdrBuf ++ f.body z.zstd)) := by
      rw [bytes, f.openCompHdr_eq, headers, List.append_assoc]
    have sized : (fwrites pieces ++ (patches f).take 2 : List (Op Uint8)) = fwrites pieces ++
        [.fseekSet front.length] ++ [.fwrite (wordBytes 8 f.decompressedSize)] := by
      rw [length, List.append_assoc]
      rfl
    have shown := onDisk_patch spill field (wordBytes 8 f.decompressedSize) (by simp)
    have once : seeks (fwrites pieces ++ (patches f).take 2) = 1 := by
      rw [seeks_append, sought]
      rfl
    have left : spilled spill (fwrites pieces ++ (patches f).take 2) =
        (wordBytes 8 f.decompressedSize).take (spill (fwrites pieces ++ (patches f).take 2)) := by
      rw [spilled, sized, written_fwrite, written_seek rfl, List.nil_append]
    rw [← sized] at shown
    rcases Nat.lt_or_ge (spill (fwrites pieces ++ (patches f).take 2)) 8 with part | whole
    · obtain ⟨torn, same⟩ := exists_torn_size f.decompressedSize
        (spill (fwrites pieces ++ (patches f).take 2))
      refine .headed torn (f.body z.zstd) ?_ ?_
      · rw [sizeOnDisk, once, left, List.length_take]
        omega
      · rw [shown, headers, List.append_assoc, ← same, List.append_assoc]
    · refine .complete (.inr ⟨once, ?_⟩) ?_
      · rw [left, List.length_take, length_wordBytes]
        omega
      · rw [shown, List.take_of_length_le (by rw [length_wordBytes]; exact whole),
          List.drop_eq_nil_of_le (by rw [length_wordBytes]; exact whole), List.nil_append,
          CompressedFile.close, f.compHdr_eq, headers, List.append_assoc]
  · have second : (fwrites pieces ++ (patches f).take 3 : List (Op Uint8)) =
        fwrites pieces ++ (patches f).take 2 ++ [.fseekSet sizeofLogCompHdr] := by
      rw [List.append_assoc]
      rfl
    rw [second]
    refine .complete (.inl ?_) ((onDisk_seek spill rfl _).trans (closed 0))
    rw [← second, seeks_append, sought]
    exact Nat.le_refl 2
  · -- the header is written over itself
    have again : (fwrites pieces ++ (patches f).take 4 : List (Op Uint8)) = fwrites pieces ++
        (patches f).take 2 ++ [.fseekSet f.compHdr.length] ++ [.fwrite f.mHdrBuf] := by
      rw [f.length_compHdr, List.append_assoc, List.append_assoc]
      rfl
    have shown := onDisk_patch spill (closed 0) f.mHdrBuf rfl
    rw [← again, ← List.append_assoc (f.mHdrBuf.take _), List.take_append_drop] at shown
    refine .complete (.inl ?_) shown
    rw [seeks_append, sought]
    exact Nat.le_refl 2
  · have all : (patches f).take (j + 5) = (patches f).take 4 ++ [.fseekEnd] := by
      rw [List.take_of_length_le (Nat.le_add_left 5 j)]
      rfl
    rw [all, ← List.append_assoc]
    refine .complete (.inl ?_) ((onDisk_seek spill rfl _).trans (closed 2))
    rw [List.append_assoc, seeks_append, sought]
    exact Nat.le_succ 2

/-- At whatever call a file whose header stays is cut off. -/
theorem Holds.close_stages (holds : Holds w f hdr body) (nonempty : hdr ≠ [])
    (kept : f.mHdrBuf = hdr) : ∃ w', w.close = some w' ∧
      ∀ ops, ops <+: w'.mFh → Stage z spill f ops := by
  obtain ⟨w', rest, closes, whole, calls⟩ := holds.close_calls nonempty
  refine ⟨w', closes, fun ops before => ?_⟩
  rw [List.prefix_iff_eq_take.mp before, calls, ← kept]
  generalize ops.length = k
  rcases Nat.lt_or_ge (fwrites (f.openCompHdr :: f.mHdrBuf :: (body ++ rest))).length k with
    later | inside
  · obtain ⟨j, rfl⟩ := Nat.exists_eq_add_of_lt later
    rw [Nat.add_assoc, List.take_length_add_append]
    refine stage_patches spill ?_ j
    rw [List.flatten_cons, List.flatten_cons, whole]
  · rw [List.take_append_of_le_length inside]
    exact stage_fwrites spill f (body ++ rest) k

/-- The destructor ends with a seek, so that nothing waits. -/
theorem onDisk_close {w' : FileWriter z} (closes : w.close = some w') :
    onDisk spill w'.mFh = w'.file := by
  obtain ⟨w₁, flushed, closes⟩ := Option.bind_eq_some_iff.mp closes
  obtain ⟨w₂, sized, closes⟩ := Option.bind_eq_some_iff.mp closes
  dsimp only at closes
  split at closes
  · cases closes
  obtain ⟨w₃, headed, closes⟩ := Option.bind_eq_some_iff.mp closes
  split at closes
  · cases closes
  rw [← Option.some.inj closes, file, fseek, onDisk_seek spill rfl, bytes_seek rfl]

end

end

/-! Whole files. -/

variable {n : Nat}

/-- The strings of the `write` calls. -/
def writes (calls : List (FileCall n)) : List (List Uint8) :=
  calls.filterMap fun
    | .write buf => some buf
    | .header _ => none

/-- What `header()` was last set to. -/
def lastHeader (hdr : Vector Uint8 n) (calls : List (FileCall n)) : Vector Uint8 n :=
  calls.foldl (fun
    | hdr, .write _ => hdr
    | _, .header value => value) hdr

/-- No assertion fires from opening to closing, and the file can be opened again and read
for its size, its last header and all that was written. -/
def RoundTrips (z : ZstdStreams) (hdrMagic : Uint64) (level : Int) (hdr : Vector Uint8 n)
    (calls : List (FileCall n)) : Prop :=
  ∃ w w' closed, create z hdrMagic hdr.toList level = some w ∧ w.run calls = some w' ∧
    w'.close = some closed ∧ ∃ f, CompressedFileReader.open hdrMagic n closed.file = some f ∧
      f.mDecompSize.toNat = (writes calls).flatten.length ∧
      f.mHdrBuf = (lastHeader hdr calls).toList ∧ f.read z.zstd = some (writes calls).flatten

/-- The calls go through unless an uncompressed file gets an empty string. -/
theorem Holds.run {w : FileWriter z} {f : CompressedFile} {hdr : List Uint8}
    {body : List (List Uint8)} (holds : Holds w f hdr body) (sized : n = hdr.length)
    {last : Vector Uint8 n} (header : f.mHdrBuf = last.toList) (calls : List (FileCall n)) :
    (f.level = 0 ∧ [] ∈ writes calls ∧ w.run calls = none) ∨
    ∃ w' body', w.run calls = some w' ∧ ¬(f.level = 0 ∧ [] ∈ writes calls) ∧
      Holds w' { f with mHdrBuf := (lastHeader last calls).toList, pieces := f.pieces ++ writes calls }
        hdr body' := by
  induction calls generalizing w f body last with
  | nil =>
    refine .inr ⟨w, body, rfl, fun h => absurd h.2 List.not_mem_nil, ?_⟩
    simp only [lastHeader, writes, List.foldl_nil, List.filterMap_nil, List.append_nil, ← header]
    exact holds
  | cons first calls ih =>
    cases first with
    | write buf =>
      have more : writes (.write buf :: calls) = buf :: writes calls := rfl
      rcases holds.write buf with ⟨level, rfl, failed, _⟩ | ⟨w₁, body₁, wrote, allowed, holds₁⟩
      · refine .inl ⟨level, more ▸ List.mem_cons_self, ?_⟩
        rw [FileWriter.run, List.foldlM_cons, call, failed]
        rfl
      have step : w.run (.write buf :: calls) = w₁.run calls := by
        rw [FileWriter.run, List.foldlM_cons, call, wrote]
        rfl
      have filled : ¬(f.level = 0 ∧ buf = []) := by
        intro h
        rw [CompressedFile.write, if_pos h] at allowed
        cases allowed
      rw [step, more]
      rcases ih holds₁ header with ⟨level, empty, failed⟩ | ⟨w', body', ran, some, holds'⟩
      · exact .inl ⟨level, List.mem_cons_of_mem _ empty, failed⟩
      · refine .inr ⟨w', body', ran, ?_, ?_⟩
        · rintro ⟨level, member⟩
          rcases List.mem_cons.mp member with rfl | later
          · exact filled ⟨level, rfl⟩
          · exact some ⟨level, later⟩
        · rwa [List.append_assoc] at holds'
    | header value =>
      obtain ⟨w₁, set, holds₁⟩ := holds.setHeader sized value
      have step : w.run (.header value :: calls) = w₁.run calls := by
        rw [FileWriter.run, List.foldlM_cons, set]
        rfl
      rw [step]
      exact ih holds₁ rfl

/-- A closed file is opened again as its description is. -/
theorem Holds.reopen {w : FileWriter z} {f : CompressedFile} {hdr : List Uint8}
    {body : List (List Uint8)} (holds : Holds w f hdr body) (sized : n = hdr.length) (pos : 0 < n)
    (small : n < 2 ^ 64) : ∃ closed, w.close = some closed ∧
      CompressedFileReader.open f.hdrMagic n closed.file = some (f.reader z.zstd) := by
  have length : f.mHdrBuf.length = n := holds.same.trans sized.symm
  obtain ⟨closed, closes, file⟩ := holds.close (List.ne_nil_of_length_pos (sized ▸ pos))
  have opened := f.open_close z.zstd (List.ne_nil_of_length_pos (length ▸ pos)) (length ▸ small)
  rw [length] at opened
  exact ⟨closed, closes, file ▸ opened⟩

/-- What these calls make of a new file. -/
def described (hdrMagic : Uint64) (level : Int) (hdr : Vector Uint8 n) (calls : List (FileCall n)) :
    CompressedFile where
  hdrMagic := hdrMagic
  mHdrBuf := (lastHeader hdr calls).toList
  level := level
  pieces := writes calls

/-- A file round-trips exactly if its size fits the field and, uncompressed, something and
nothing empty is written. -/
theorem roundTrips_iff (z : ZstdStreams) (hdrMagic : Uint64) (level : Int) (pos : 0 < n)
    (small : n < 2 ^ 64) (hdr : Vector Uint8 n) (calls : List (FileCall n)) :
    RoundTrips z hdrMagic level hdr calls ↔ (writes calls).flatten.length < 2 ^ 64 ∧
      (level ≠ 0 ∨ writes calls ≠ [] ∧ [] ∉ writes calls) := by
  have sized : n = hdr.toList.length := hdr.length_toList.symm
  obtain ⟨w, created, holds⟩ :=
    @create_spec z hdrMagic hdr.toList (List.ne_nil_of_length_pos (sized ▸ pos)) level
  rcases holds.run sized rfl calls with ⟨plain, empty, failed⟩ | ⟨w', body, ran, filled, holds'⟩
  · constructor
    · rintro ⟨_, _, _, opened, runs, _⟩
      obtain rfl := Option.some.inj (created.symm.trans opened)
      rw [failed] at runs
      cases runs
    · rintro ⟨_, packed | ⟨_, sound⟩⟩
      · exact absurd plain packed
      · exact absurd empty sound
  obtain ⟨closed, closes, reopened⟩ := holds'.reopen sized pos small
  have whole := @CompressedFile.read_reader z.zstd (described hdrMagic level hdr calls)
  constructor
  · rintro ⟨_, _, _, opened, runs, closes', f, reopened', size, _, read⟩
    obtain rfl := Option.some.inj (created.symm.trans opened)
    obtain rfl := Option.some.inj (ran.symm.trans runs)
    obtain rfl := Option.some.inj (closes.symm.trans closes')
    obtain rfl := Option.some.inj (reopened.symm.trans reopened')
    have fits : (writes calls).flatten.length < 2 ^ 64 := size ▸ BitVec.isLt _
    refine ⟨fits, ?_⟩
    by_cases plain : level = 0
    · refine .inr ⟨fun none => ?_, fun empty => filled ⟨plain, empty⟩⟩
      have nothing : (described hdrMagic level hdr calls).written = [] := congrArg List.flatten none
      cases read.symm.trans ((whole fits).trans (if_pos ⟨plain, nothing⟩))
    · exact .inl plain
  · rintro ⟨fits, sound⟩
    refine ⟨w, w', closed, created, ran, closes, _, reopened, ?_, rfl, ?_⟩
    · exact (BitVec.toNat_ofNat _ _).trans (Nat.mod_eq_of_lt fits)
    · refine (whole fits).trans (if_neg ?_)
      rintro ⟨plain, nothing⟩
      obtain ⟨some, filled⟩ := sound.resolve_left fun packed => packed plain
      obtain ⟨buf, member⟩ := List.exists_mem_of_ne_nil _ some
      have empty : buf = [] := List.flatten_eq_nil_iff.mp nothing buf member
      exact filled (empty ▸ member)

theorem roundTrips_iff_plain :
    RoundTrips storingStreams logMetaHdrMagic 0 (.replicate 16 0)
        [.write [1], .header (.replicate 16 2), .write [3, 4]] ↔
      (writes (n := 16) [.write [1], .header (.replicate 16 2), .write [3, 4]]).flatten.length <
        2 ^ 64 ∧ ((0 : Int) ≠ 0 ∨ [[1], [3, 4]] ≠ ([] : List (List Uint8)) ∧
          [] ∉ ([[1], [3, 4]] : List (List Uint8))) :=
  roundTrips_iff storingStreams logMetaHdrMagic 0 (by decide) (by decide) (.replicate 16 0)
    [.write [1], .header (.replicate 16 2), .write [3, 4]]

/-- An empty name in `meta.bin`: the write of it fails the assertion on `fwrite`. -/
theorem not_roundTrips_empty : ¬ RoundTrips storingStreams logMetaHdrMagic 0 (.replicate 16 0)
    [.write []] := by
  rintro ⟨w, w', closed, created, ran, -⟩
  cases created
  cases ran

end FileWriter

end XnuTrace
