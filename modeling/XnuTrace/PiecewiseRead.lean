import XnuTrace.FileStreams

/-! `CompressedFile::read(buf, size)` call by call. What a compressed read returns is right,
but it needs the pieces that zstd emits to end where the buffer does, and every read adds its
size to the one that `decompressed_size()` returns. -/
namespace XnuTrace
open Memory

/-- The outer loop of `read` up to its end: the context, what is left of the file, and what
went into the buffer. -/
def ZstdStreams.readPieceLoop (z : ZstdStreams) :
    Nat → z.DCtx → List Uint8 → Nat → Nat → Option (z.DCtx × List Uint8 × List Uint8)
  | 0, _, _, _, _ => none
  | rounds + 1, ctx, rest, toRead, suggestedRead =>
    if toRead = 0 then some (ctx, rest, [])
    else
      let input := rest.take suggestedRead
      if z.dStreamInSize < suggestedRead ∨ input = [] then none
      else do
        let (ctx, out, toRead, suggestedRead) ←
          z.decompressLoop (input.length + toRead + 1) ctx input toRead suggestedRead
        let (ctx, rest, later) ←
          readPieceLoop z rounds ctx (rest.drop input.length) toRead suggestedRead
        return (ctx, rest, out ++ later)

/-- A file open for reading, with its decompressor. -/
structure FileReader (z : ZstdStreams) where
  mHdrBuf : List Uint8
  mDecompSize : Uint64
  mDecompCtx : Option z.DCtx
  rest : List Uint8

namespace FileReader

section
variable (z : ZstdStreams)

def ofOpened (f : CompressedFileReader) : FileReader z where
  mHdrBuf := f.mHdrBuf
  mDecompSize := f.mDecompSize
  mDecompCtx := if f.compressed then some z.createDCtx else none
  rest := f.rest

def «open» (hdrMagic : Uint64) (hdrSz : Nat) (file : List Uint8) : Option (FileReader z) :=
  (CompressedFileReader.open hdrMagic hdrSz file).map (ofOpened z)

end

variable {z : ZstdStreams}

/-- `read(buf, size)`: what is stored from `buf` on; `none` when an assertion or zstd fails, or
when more than `size` bytes are stored. -/
def read (r : FileReader z) (size : Uint64) : Option (List Uint8 × FileReader z) :=
  match r.mDecompCtx with
  | none => (fread size.toNat r.rest).map fun (buf, rest) =>
      (buf, { r with rest, mDecompSize := r.mDecompSize + size })
  | some ctx => (z.readPieceLoop (r.rest.length + 1) ctx r.rest size.toNat z.dStreamInSize).map
      fun (ctx, rest, buf) =>
        (buf, { r with mDecompCtx := some ctx, rest, mDecompSize := r.mDecompSize + size })

def reads : FileReader z → List Uint64 → Option (List (List Uint8) × FileReader z)
  | r, [] => some ([], r)
  | r, size :: sizes => do
    let (buf, r) ← r.read size
    let (bufs, r) ← reads r sizes
    return (buf :: bufs, r)

/-- The consecutive parts of these sizes. -/
def parts (data : List Uint8) : List Uint64 → List (List Uint8)
  | [] => []
  | size :: sizes => data.take size.toNat :: parts (data.drop size.toNat) sizes

/-- Before the first call and after each, what was stored is right and `decompressed_size()` is
the size of the body. -/
def ReadsInPieces (r : FileReader z) (body : List Uint8) (sizes : List Uint64) : Prop :=
  ∀ k, ∃ r', r.reads (sizes.take k) = some (parts body (sizes.take k), r') ∧
    r'.mDecompSize.toNat = body.length

/-- The data that the reader has not returned yet. -/
inductive Left (r : FileReader z) (data : List Uint8) : Prop
  | plain : r.mDecompCtx = none → r.rest = data → Left r data
  | compressed {ctx : z.DCtx} : r.mDecompCtx = some ctx → z.Decodes ctx r.rest data → Left r data

end FileReader

namespace ZstdStreams
variable {z : ZstdStreams}

/-- An input that fits the buffer is decoded to the next part of the data. -/
theorem decompressLoop_sound {rounds : Nat} {ctx ctx' : z.DCtx} {input later data out : List Uint8}
    {toRead toRead' suggestedRead suggestedRead' : Nat}
    (decodes : z.Decodes ctx (input ++ later) data) (room : toRead ≤ data.length)
    (looped : z.decompressLoop rounds ctx input toRead suggestedRead =
      some (ctx', out, toRead', suggestedRead')) :
    toRead = out.length + toRead' ∧ data = out ++ data.drop out.length ∧
      z.Decodes ctx' later (data.drop out.length) := by
  induction rounds generalizing ctx input data toRead suggestedRead out with
  | zero => cases looped
  | succ rounds ih =>
    rw [decompressLoop] at looped
    split at looped
    · rename_i empty
      cases looped
      rw [empty] at decodes
      exact ⟨(Nat.zero_add _).symm, rfl, decodes⟩
    rename_i some
    obtain ⟨call, rest, called, _, _, rfl, decodes', _⟩ :=
      z.decompresses decodes z.dStreamOutSize_pos some
    simp only [called] at looped
    split at looped
    · cases looped
    rename_i fits
    obtain ⟨⟨ctx₁, out₁, after⟩, looped', same⟩ := Option.map_eq_some_iff.mp looped
    cases same
    rw [List.length_append] at room
    obtain ⟨counted, split, decodes''⟩ := ih decodes' (by omega) looped'
    have skipped : (call.out ++ rest).drop (call.out ++ out₁).length = rest.drop out₁.length := by
      rw [List.length_append, ← List.drop_drop, List.drop_left]
    have length : (call.out ++ out₁).length = call.out.length + out₁.length := List.length_append
    refine ⟨?_, ?_, skipped ▸ decodes''⟩
    · dsimp only
      omega
    · rw [skipped, List.append_assoc, ← split]

theorem readPieceLoop_sound {rounds : Nat} {ctx ctx' : z.DCtx} {rest rest' data out : List Uint8}
    {toRead suggestedRead : Nat} (decodes : z.Decodes ctx rest data) (room : toRead ≤ data.length)
    (looped : z.readPieceLoop rounds ctx rest toRead suggestedRead = some (ctx', rest', out)) :
    out = data.take toRead ∧ z.Decodes ctx' rest' (data.drop toRead) := by
  induction rounds generalizing ctx rest data toRead suggestedRead out with
  | zero => cases looped
  | succ rounds ih =>
    rw [readPieceLoop] at looped
    split at looped
    · rename_i done
      cases looped
      rw [done]
      exact ⟨rfl, decodes⟩
    dsimp only at looped
    split at looped
    · cases looped
    obtain ⟨⟨ctx₁, out₁, toRead₁, suggested₁⟩, inner, looped⟩ := Option.bind_eq_some_iff.mp looped
    obtain ⟨⟨ctx₂, rest₂, out₂⟩, outer, same⟩ := Option.bind_eq_some_iff.mp looped
    cases same
    rw [← List.take_append_drop suggestedRead rest] at decodes
    obtain ⟨rfl, split, decodes₁⟩ := decompressLoop_sound decodes room inner
    have more : toRead₁ ≤ (data.drop out₁.length).length := by
      rw [List.length_drop]
      omega
    have skipped : rest.drop (rest.take suggestedRead).length = rest.drop suggestedRead := by
      rw [List.length_take, ← List.drop_eq_drop_min]
    rw [skipped] at outer
    obtain ⟨rfl, decodes₂⟩ := ih decodes₁ more outer
    refine ⟨?_, ?_⟩
    · rw [List.take_add]
      congr 1
      rw [split, List.take_left]
    · rwa [List.drop_drop] at decodes₂

/-- What the loop stores is what a read of everything returns. -/
theorem readLoop_eq (rounds : Nat) (ctx : z.DCtx) (rest : List Uint8) (toRead suggestedRead : Nat) :
    z.readLoop rounds ctx rest toRead suggestedRead =
      (z.readPieceLoop rounds ctx rest toRead suggestedRead).map (·.2.2) := by
  induction rounds generalizing ctx rest toRead suggestedRead with
  | zero => rfl
  | succ rounds ih =>
    rw [readLoop, readPieceLoop]
    split
    · rfl
    dsimp only
    split
    · rfl
    cases z.decompressLoop ((rest.take suggestedRead).length + toRead + 1) ctx
      (rest.take suggestedRead) toRead suggestedRead with
    | none => rfl
    | some inner =>
      obtain ⟨ctx₁, out₁, toRead₁, suggested₁⟩ := inner
      simp only [Option.bind_eq_bind, Option.bind_some, ih]
      cases z.readPieceLoop rounds ctx₁ (rest.drop (rest.take suggestedRead).length) toRead₁
        suggested₁ <;> rfl

end ZstdStreams

namespace FileReader
variable {z : ZstdStreams} {r r' : FileReader z} {data buf : List Uint8} {size : Uint64}

/-- A read that returns has stored the next bytes, and nothing beyond them. -/
theorem Left.read_sound (left : Left r data) (room : size.toNat ≤ data.length)
    (returned : r.read size = some (buf, r')) :
    buf = data.take size.toNat ∧ Left r' (data.drop size.toNat) := by
  cases left with
  | plain ctx rest =>
    simp only [read, ctx] at returned
    obtain ⟨⟨bs, more⟩, stored, same⟩ := Option.map_eq_some_iff.mp returned
    unfold fread at stored
    split at stored
    · cases stored
      cases same
      exact ⟨by rw [rest], .plain rfl (by rw [rest])⟩
    · cases stored
  | compressed ctx decodes =>
    simp only [read, ctx] at returned
    obtain ⟨⟨ctx', rest', out⟩, stored, same⟩ := Option.map_eq_some_iff.mp returned
    cases same
    obtain ⟨rfl, decodes'⟩ := z.readPieceLoop_sound decodes room stored
    exact ⟨rfl, .compressed rfl decodes'⟩

/-- Every read adds to the size of the file. -/
theorem mDecompSize_read (returned : r.read size = some (buf, r')) :
    r'.mDecompSize = r.mDecompSize + size := by
  unfold read at returned
  split at returned
  all_goals
    obtain ⟨_, _, same⟩ := Option.map_eq_some_iff.mp returned
    cases same
    rfl

theorem Left.reads_sound {bufs : List (List Uint8)} {sizes : List Uint64} (left : Left r data)
    (room : (sizes.map BitVec.toNat).sum ≤ data.length) (returned : r.reads sizes = some (bufs, r')) :
    bufs = parts data sizes := by
  induction sizes generalizing r data bufs with
  | nil =>
    cases returned
    rfl
  | cons size sizes ih =>
    rw [List.map_cons, List.sum_cons] at room
    obtain ⟨⟨buf, r₁⟩, first, returned⟩ := Option.bind_eq_some_iff.mp returned
    obtain ⟨⟨later, r₂⟩, rest, same⟩ := Option.bind_eq_some_iff.mp returned
    cases same
    obtain ⟨rfl, left₁⟩ := left.read_sound (by omega) first
    have more : (sizes.map BitVec.toNat).sum ≤ (data.drop size.toNat).length := by
      rw [List.length_drop]
      omega
    rw [parts, ih left₁ more rest]

/-- Without compression every read of at least one byte returns. -/
theorem reads_plain {sizes : List Uint64} (ctx : r.mDecompCtx = none)
    (nonzero : ∀ size ∈ sizes, size ≠ 0) (room : (sizes.map BitVec.toNat).sum ≤ r.rest.length) :
    ∃ bufs r', r.reads sizes = some (bufs, r') := by
  induction sizes generalizing r with
  | nil => exact ⟨[], r, rfl⟩
  | cons size sizes ih =>
    rw [List.map_cons, List.sum_cons] at room
    have pos : 0 < size.toNat :=
      Nat.pos_of_ne_zero fun zero => nonzero size List.mem_cons_self (BitVec.eq_of_toNat_eq zero)
    have stored : fread size.toNat r.rest = some (r.rest.take size.toNat, r.rest.drop size.toNat) :=
      if_pos ⟨pos, by omega⟩
    let r₁ : FileReader z := { r with
      mDecompCtx := none
      rest := r.rest.drop size.toNat
      mDecompSize := r.mDecompSize + size }
    have first : r.read size = some (r.rest.take size.toNat, r₁) := by
      simp only [read, ctx, stored, Option.map_some, r₁]
    have more : (sizes.map BitVec.toNat).sum ≤ r₁.rest.length := by
      rw [List.length_drop]
      omega
    obtain ⟨bufs, r', rest⟩ := @ih r₁ rfl
      (fun size member => nonzero size (List.mem_cons_of_mem _ member)) more
    refine ⟨r.rest.take size.toNat :: bufs, r', ?_⟩
    simp only [reads, first, Option.bind_eq_bind, Option.bind_some, rest]
    rfl

/-- The first read already changes `decompressed_size()`. -/
theorem readsInPieces_iff {sizes : List Uint64} (nonzero : ∀ size ∈ sizes, size ≠ 0)
    (size : r.mDecompSize = BitVec.ofNat 64 data.length) :
    r.ReadsInPieces data sizes ↔ sizes = [] ∧ data.length < 2 ^ 64 := by
  constructor
  · intro pieces
    obtain ⟨r₀, begun, whole⟩ := pieces 0
    cases begun
    refine ⟨?_, whole ▸ r.mDecompSize.isLt⟩
    cases sizes with
    | nil => rfl
    | cons first sizes =>
      obtain ⟨r₁, read, whole₁⟩ := pieces 1
      obtain ⟨⟨buf, r₂⟩, returned, rest⟩ := Option.bind_eq_some_iff.mp read
      cases rest
      have added := mDecompSize_read returned
      have same : r₁.mDecompSize = r.mDecompSize := BitVec.eq_of_toNat_eq (whole₁.trans whole.symm)
      rw [same] at added
      exact absurd (left_eq_add.mp added) (nonzero first List.mem_cons_self)
  · rintro ⟨rfl, fits⟩ k
    refine ⟨r, by rw [List.take_nil]; rfl, ?_⟩
    rw [size, BitVec.toNat_ofNat, Nat.mod_eq_of_lt fits]

/-- A read into a buffer that is smaller than what zstd makes of the first input. -/
theorem read_overrun {ctx : z.DCtx} (compressed : r.mDecompCtx = some ctx) (nonzero : size ≠ 0)
    {call : StreamCall z.DCtx} (some : r.rest.take z.dStreamInSize ≠ [])
    (emits : z.decompressStream ctx z.dStreamOutSize (r.rest.take z.dStreamInSize) = .some call)
    (more : size.toNat < call.out.length) : r.read size = none := by
  have unread : size.toNat ≠ 0 := fun zero => nonzero (BitVec.eq_of_toNat_eq zero)
  simp only [read, compressed, ZstdStreams.readPieceLoop, if_neg unread, some, Nat.lt_irrefl,
    or_self, if_false, ZstdStreams.decompressLoop, emits, if_pos more, Option.bind_eq_bind,
    Option.bind_none, Option.map_none]

end FileReader

namespace FileWriter
variable {z : ZstdStreams} {n : Nat} {hdrMagic : Uint64} {level : Int} {hdr : Vector Uint8 n}
  {calls : List (FileCall n)} {w w' closed : FileWriter z}

/-- A closed file, opened again, has all of its body left. -/
theorem opens_left (pos : 0 < n) (small : n < 2 ^ 64)
    (created : create z hdrMagic hdr.toList level = some w) (ran : w.run calls = some w')
    (closes : w'.close = some closed) :
    ∃ r, FileReader.open z hdrMagic n closed.file = some r ∧
      r.mDecompSize = BitVec.ofNat 64 (writes calls).flatten.length ∧
      r.Left (writes calls).flatten ∧ (level = 0 → r.mDecompCtx = none) := by
  have sized : n = hdr.toList.length := hdr.length_toList.symm
  obtain ⟨w₀, opened, holds⟩ :=
    @create_spec z hdrMagic hdr.toList (List.ne_nil_of_length_pos (sized ▸ pos)) level
  obtain rfl := Option.some.inj (created.symm.trans opened)
  rcases holds.run sized rfl calls with ⟨_, _, failed⟩ | ⟨w₁, body, runs, _, holds'⟩
  · cases ran.symm.trans failed
  obtain rfl := Option.some.inj (ran.symm.trans runs)
  obtain ⟨closed', closes', reopened⟩ := holds'.reopen sized pos small
  obtain rfl := Option.some.inj (closes.symm.trans closes')
  have found : CompressedFileReader.open hdrMagic n closed.file =
    some ((described hdrMagic level hdr calls).reader z.zstd) := reopened
  refine ⟨.ofOpened z _, by rw [FileReader.open, found, Option.map_some], rfl, ?_, ?_⟩
  · by_cases plain : level = 0
    · subst plain
      exact .plain rfl rfl
    · have flag : (described hdrMagic level hdr calls).isCompressed = 1 := if_pos plain
      have body : (described hdrMagic level hdr calls).body z.zstd =
        (z.compressed level (writes calls)).flatten := if_pos plain
      have ctx : (FileReader.ofOpened z
          ((described hdrMagic level hdr calls).reader z.zstd)).mDecompCtx = some z.createDCtx := by
        rw [FileReader.ofOpened, CompressedFile.reader, flag]
        rfl
      refine .compressed ctx ?_
      rw [FileReader.ofOpened, CompressedFile.reader, body]
      exact z.decodes (ZstdStreams.compressed_spec level (writes calls)).1
  · rintro rfl
    rfl

/-- Of a closed file the reads are as they should be only if there are none: the first one
changes the size. Uncompressed, the bytes are right, and compressed those of the reads that
return. -/
theorem pieces_iff (pos : 0 < n) (small : n < 2 ^ 64)
    (created : create z hdrMagic hdr.toList level = some w) (ran : w.run calls = some w')
    (closes : w'.close = some closed) {sizes : List Uint64} (nonzero : ∀ size ∈ sizes, size ≠ 0)
    (room : (sizes.map BitVec.toNat).sum ≤ (writes calls).flatten.length) :
    ∃ r, FileReader.open z hdrMagic n closed.file = some r ∧
      (r.ReadsInPieces (writes calls).flatten sizes ↔
        sizes = [] ∧ (writes calls).flatten.length < 2 ^ 64) ∧
      (level = 0 → ∃ r', r.reads sizes = some (FileReader.parts (writes calls).flatten sizes, r')) ∧
      ∀ bufs r', r.reads sizes = some (bufs, r') →
        bufs = FileReader.parts (writes calls).flatten sizes := by
  obtain ⟨r, opened, size, left, plain⟩ := opens_left pos small created ran closes
  refine ⟨r, opened, FileReader.readsInPieces_iff nonzero size, fun level => ?_,
    fun bufs r' => left.reads_sound room⟩
  have whole : r.rest = (writes calls).flatten := by
    cases left with
    | plain _ rest => exact rest
    | compressed ctx _ => cases ctx.symm.trans (plain level)
  obtain ⟨bufs, r', read⟩ := FileReader.reads_plain (plain level) nonzero (whole ▸ room)
  exact ⟨r', by rw [read, left.reads_sound room read]⟩

theorem closes_plain : ∃ w w' closed : FileWriter storingStreams,
    create storingStreams logMetaHdrMagic (Vector.replicate 16 (0 : Uint8)).toList 0 = some w ∧
    @run _ 16 w [.write [1, 2]] = some w' ∧ w'.close = some closed := ⟨_, _, _, rfl, rfl, rfl⟩

theorem pieces_iff_plain : ∃ w w' closed : FileWriter storingStreams,
    create storingStreams logMetaHdrMagic (Vector.replicate 16 (0 : Uint8)).toList 0 = some w ∧
    @run _ 16 w [.write [1, 2]] = some w' ∧ w'.close = some closed ∧
    ∃ r, FileReader.open storingStreams logMetaHdrMagic 16 closed.file = some r ∧
      (r.ReadsInPieces [1, 2] [1] ↔ [1] = ([] : List Uint64) ∧ [1, 2].length < 2 ^ 64) := by
  obtain ⟨w, w', closed, created, ran, closes⟩ := closes_plain
  obtain ⟨r, opened, exact, _⟩ := @pieces_iff _ _ _ _ _ _ _ _ _ (by decide) (by decide) created
    ran closes [1] (by simp) (by decide)
  exact ⟨w, w', closed, created, ran, closes, r, opened, exact⟩

/-- After one byte of two `decompressed_size()` is 3. -/
theorem pieces_size : ∃ w w' closed : FileWriter storingStreams,
    create storingStreams logMetaHdrMagic (Vector.replicate 16 (0 : Uint8)).toList 0 = some w ∧
    @run _ 16 w [.write [1, 2]] = some w' ∧ w'.close = some closed ∧
    ∃ r, FileReader.open storingStreams logMetaHdrMagic 16 closed.file = some r ∧
      ¬ r.ReadsInPieces [1, 2] [1] := by
  obtain ⟨w, w', closed, created, ran, closes⟩ := closes_plain
  obtain ⟨r, opened, size, _⟩ := opens_left (by decide) (by decide) created ran closes
  have none := @FileReader.readsInPieces_iff _ r _ [1] (by simp) size
  refine ⟨w, w', closed, created, ran, closes, r, opened, fun pieces => ?_⟩
  exact List.cons_ne_nil _ _ (none.mp pieces).1

end FileWriter

end XnuTrace
