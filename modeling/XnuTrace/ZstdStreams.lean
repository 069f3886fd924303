import XnuTrace.CompressedFile
import XnuTrace.Lib.Stdio

/-! The loops of `CompressedFile` over zstd's streaming calls. Of zstd itself only what its
interface documents is used: the calls make progress, and what comes out of a compressor
that was flushed to the end comes back out of a decompressor, however the input is cut. -/
namespace XnuTrace
open Stdio

/-- `ZSTD_EndDirective`. -/
inductive EndDirective where
  | eContinue
  | eEnd

/-- What one call makes of its context, how far `input.pos` moves, what it puts into the
output buffer, and the value it returns. -/
structure StreamCall (Ctx : Type) where
  ctx : Ctx
  consumed : Nat
  out : List Uint8
  ret : Nat

/-- The calls. A context includes how far its worker threads are. -/
structure StreamApi where
  CCtx : Type
  DCtx : Type
  createCCtx : Int → CCtx
  createDCtx : DCtx
  cStreamOutSize : Nat
  dStreamInSize : Nat
  dStreamOutSize : Nat
  /-- Errors aside, which `zstd_check` turns into the end of the process. -/
  compressStream2 : CCtx → Nat → List Uint8 → EndDirective → StreamCall CCtx
  decompressStream : DCtx → Nat → List Uint8 → Option (StreamCall DCtx)

/-- The compressor has taken in this data and put out these bytes; the flag tells whether
a frame is being ended. -/
inductive StreamApi.Compressed (z : StreamApi) (level : Int) :
    Bool → z.CCtx → List Uint8 → List Uint8 → Prop
  | create : Compressed z level false (z.createCCtx level) [] []
  | eContinue {ctx data out n input} : 0 < n → Compressed z level false ctx data out →
    Compressed z level false (z.compressStream2 ctx n input .eContinue).ctx
      (data ++ input.take (z.compressStream2 ctx n input .eContinue).consumed)
      (out ++ (z.compressStream2 ctx n input .eContinue).out)
  | eEnd {ending ctx data out n} : 0 < n → Compressed z level ending ctx data out →
    Compressed z level true (z.compressStream2 ctx n [] .eEnd).ctx data
      (out ++ (z.compressStream2 ctx n [] .eEnd).out)

/-- The bytes of a whole frame: the last call returned that nothing remains. -/
inductive StreamApi.Frame (z : StreamApi) (level : Int) : List Uint8 → List Uint8 → Prop
  | done {ending ctx data out n} : 0 < n → z.Compressed level ending ctx data out →
    (z.compressStream2 ctx n [] .eEnd).ret = 0 →
    Frame z level data (out ++ (z.compressStream2 ctx n [] .eEnd).out)

structure ZstdStreams extends StreamApi where
  cStreamOutSize_pos : 0 < cStreamOutSize
  dStreamInSize_pos : 0 < dStreamInSize
  dStreamOutSize_pos : 0 < dStreamOutSize
  /-- The bytes that a compressor still holds. -/
  held : CCtx → Nat
  consumed_le : ∀ ctx n input directive,
    (compressStream2 ctx n input directive).consumed ≤ input.length
  /-- A call reads or writes at least one byte. -/
  continues : ∀ ctx n input, 0 < n → input ≠ [] →
    0 < (compressStream2 ctx n input .eContinue).consumed ∨
      held (compressStream2 ctx n input .eContinue).ctx < held ctx
  ends : ∀ ctx n, 0 < n → (compressStream2 ctx n [] .eEnd).ret ≠ 0 →
    held (compressStream2 ctx n [] .eEnd).ctx < held ctx
  /-- In this state a decompressor turns these bytes into this data. -/
  Decodes : DCtx → List Uint8 → List Uint8 → Prop
  decodes : ∀ {level data bytes}, toStreamApi.Frame level data bytes →
    Decodes createDCtx bytes data
  /-- A part of the bytes gives the first part of the data; the return value hints at the
  next input and is 0 only when the frame is decoded and flushed. -/
  decompresses : ∀ {ctx n input later data}, Decodes ctx (input ++ later) data → 0 < n →
    input ≠ [] → ∃ call rest, decompressStream ctx n input = some call ∧
      call.consumed ≤ input.length ∧ (0 < call.consumed ∨ call.out ≠ []) ∧
      data = call.out ++ rest ∧ Decodes call.ctx (input.drop call.consumed ++ later) rest ∧
      call.ret ≤ dStreamInSize ∧ (call.ret = 0 → rest = [])
  /-- The last byte is kept until everything is flushed. -/
  flushed : ∀ {ctx data}, Decodes ctx [] data → data = []

namespace ZstdStreams
variable (z : ZstdStreams)

/-- `if (output.pos)`: the write of one call. -/
def pieces (out : List Uint8) : List (List Uint8) := if out = [] then [] else [out]

/-- The loop of `write`. -/
def writeLoop (ctx : z.CCtx) (input : List Uint8) : z.CCtx × List (List Uint8) :=
  let call := z.compressStream2 ctx z.cStreamOutSize input .eContinue
  if call.consumed = input.length then (call.ctx, pieces call.out)
  else
    let (ctx, written) := writeLoop call.ctx (input.drop call.consumed)
    (ctx, pieces call.out ++ written)
termination_by (input.length, z.held ctx)
decreasing_by
  rename_i open'
  have bound := z.consumed_le ctx z.cStreamOutSize input .eContinue
  have nonempty : input ≠ [] := by
    rintro rfl
    exact open' (Nat.le_zero.mp bound)
  rw [List.length_drop]
  by_cases none : (z.compressStream2 ctx z.cStreamOutSize input .eContinue).consumed = 0
  · have less := (z.continues ctx _ input z.cStreamOutSize_pos nonempty).resolve_left (by omega)
    rw [none, Nat.sub_zero]
    exact .right _ less
  · exact .left _ _ (Nat.sub_lt (List.length_pos_of_ne_nil nonempty) (Nat.pos_of_ne_zero none))

/-- The loop of the destructor. -/
def flushLoop (ctx : z.CCtx) : List (List Uint8) :=
  let call := z.compressStream2 ctx z.cStreamOutSize [] .eEnd
  if call.ret = 0 then pieces call.out else pieces call.out ++ flushLoop call.ctx
termination_by z.held ctx
decreasing_by
  rename_i remaining
  exact z.ends ctx _ z.cStreamOutSize_pos remaining

/-- The inner loop of `read`, while there is input: the context, what went into the buffer, what
is left to read, and the size of the next input. `none` when zstd fails, when the buffer is
too small, or when the rounds run out. -/
def decompressLoop : Nat → z.DCtx → List Uint8 → Nat → Nat →
    Option (z.DCtx × List Uint8 × Nat × Nat)
  | 0, _, _, _, _ => none
  | rounds + 1, ctx, input, toRead, suggestedRead =>
    if input = [] then some (ctx, [], toRead, suggestedRead)
    else match z.decompressStream ctx z.dStreamOutSize input with
      | none => none
      | some call =>
        if toRead < call.out.length then none
        else (decompressLoop rounds call.ctx (input.drop call.consumed)
          (toRead - call.out.length) call.ret).map fun (ctx, out, rest) =>
            (ctx, call.out ++ out, rest)

/-- The outer loop of `read`, on what is left of the file. -/
def readLoop : Nat → z.DCtx → List Uint8 → Nat → Nat → Option (List Uint8)
  | 0, _, _, _, _ => none
  | rounds + 1, ctx, rest, toRead, suggestedRead =>
    if toRead = 0 then some []
    else
      let input := rest.take suggestedRead
      -- `m_in_buf` is no larger
      if z.dStreamInSize < suggestedRead ∨ input = [] then none
      else do
        let (ctx, out, toRead, suggestedRead) ←
          z.decompressLoop (input.length + toRead + 1) ctx input toRead suggestedRead
        let later ← readLoop rounds ctx (rest.drop input.length) toRead suggestedRead
        return out ++ later

def decompress (data : List Uint8) (size : Nat) : Option (List Uint8) :=
  z.readLoop (data.length + 1) z.createDCtx data size z.dStreamInSize

/-- What the compressor writes for these pieces, in the pieces of single `fwrite` calls. -/
def writeAll (ctx : z.CCtx) : List (List Uint8) → z.CCtx × List (List Uint8)
  | [] => (ctx, [])
  | buf :: bufs =>
    let (ctx, first) := z.writeLoop ctx buf
    let (ctx, later) := writeAll ctx bufs
    (ctx, first ++ later)

def compressed (level : Int) (bufs : List (List Uint8)) : List (List Uint8) :=
  let (ctx, written) := z.writeAll (z.createCCtx level) bufs
  written ++ z.flushLoop ctx

variable {z}

theorem flatten_pieces (out : List Uint8) : (pieces out).flatten = out := by
  unfold pieces
  split
  · rename_i empty
    exact empty.symm
  · exact List.flatten_singleton

/-- No `fwrite` gets an empty buffer. -/
theorem ne_nil_of_pieces {out buf : List Uint8} (member : buf ∈ pieces out) : buf ≠ [] := by
  unfold pieces at member
  split at member
  · cases member
  · rename_i some
    rw [List.mem_singleton.mp member]
    exact some

/-- Writing takes in the whole input. -/
theorem writeLoop_spec {level : Int} {ctx : z.CCtx} {input data out : List Uint8}
    (before : z.Compressed level false ctx data out) :
    z.Compressed level false (z.writeLoop ctx input).1 (data ++ input)
      (out ++ (z.writeLoop ctx input).2.flatten) ∧
    ∀ buf ∈ (z.writeLoop ctx input).2, buf ≠ [] := by
  induction ctx, input using writeLoop.induct z generalizing data out with
  | case1 ctx input call =>
    rename_i whole
    have next : z.Compressed level false call.ctx (data ++ input.take call.consumed)
        (out ++ call.out) := .eContinue z.cStreamOutSize_pos before
    have written : z.writeLoop ctx input = (call.ctx, pieces call.out) := by
      rw [writeLoop]
      exact if_pos whole
    rw [whole, List.take_length] at next
    rw [written, flatten_pieces]
    exact ⟨next, fun _ => ne_nil_of_pieces⟩
  | case2 ctx input call open' ctx' later looped =>
    rename_i ih
    have next : z.Compressed level false call.ctx (data ++ input.take call.consumed)
        (out ++ call.out) := .eContinue z.cStreamOutSize_pos before
    obtain ⟨after, nonempty⟩ := ih next
    have written : z.writeLoop ctx input = (ctx', pieces call.out ++ later) := by
      rw [writeLoop]
      refine (if_neg open').trans ?_
      rw [looped]
    rw [looped] at after nonempty
    rw [written]
    constructor
    · rwa [List.append_assoc, List.take_append_drop, List.append_assoc, ← flatten_pieces call.out,
        ← List.flatten_append] at after
    · intro buf member
      exact (List.mem_append.mp member).elim ne_nil_of_pieces (nonempty buf)

theorem flushLoop_spec {level : Int} {ending : Bool} {ctx : z.CCtx} {data out : List Uint8}
    (before : z.Compressed level ending ctx data out) :
    z.Frame level data (out ++ (z.flushLoop ctx).flatten) ∧
    ∀ buf ∈ z.flushLoop ctx, buf ≠ [] := by
  induction ctx using flushLoop.induct z generalizing ending out with
  | case1 ctx call =>
    rename_i done
    have flushed : z.flushLoop ctx = pieces call.out := by
      rw [flushLoop]
      exact if_pos done
    rw [flushed, flatten_pieces]
    exact ⟨.done z.cStreamOutSize_pos before done, fun _ => ne_nil_of_pieces⟩
  | case2 ctx call remaining =>
    rename_i ih
    have next : z.Compressed level true call.ctx data (out ++ call.out) :=
      .eEnd z.cStreamOutSize_pos before
    obtain ⟨frame, nonempty⟩ := ih next
    have flushed : z.flushLoop ctx = pieces call.out ++ z.flushLoop call.ctx := by
      rw [flushLoop]
      exact if_neg remaining
    rw [flushed]
    constructor
    · rwa [List.append_assoc, ← flatten_pieces call.out, ← List.flatten_append] at frame
    · intro buf member
      exact (List.mem_append.mp member).elim ne_nil_of_pieces (nonempty buf)

theorem writeAll_spec {level : Int} {ctx : z.CCtx} {data out : List Uint8}
    (before : z.Compressed level false ctx data out) (bufs : List (List Uint8)) :
    z.Compressed level false (z.writeAll ctx bufs).1 (data ++ bufs.flatten)
      (out ++ (z.writeAll ctx bufs).2.flatten) ∧
    ∀ buf ∈ (z.writeAll ctx bufs).2, buf ≠ [] := by
  induction bufs generalizing ctx data out with
  | nil =>
    simp only [writeAll, List.flatten_nil, List.append_nil]
    exact ⟨before, fun _ member => absurd member List.not_mem_nil⟩
  | cons buf bufs ih =>
    obtain ⟨after, first⟩ := @writeLoop_spec z level ctx buf data out before
    obtain ⟨last, later⟩ := ih after
    simp only [writeAll, List.flatten_cons, List.flatten_append]
    rw [List.append_assoc, List.append_assoc] at last
    refine ⟨last, fun buf member => ?_⟩
    exact (List.mem_append.mp member).elim (first buf) (later buf)

/-- What is written is a frame of the data. -/
theorem compressed_spec (level : Int) (bufs : List (List Uint8)) :
    z.Frame level bufs.flatten (z.compressed level bufs).flatten ∧
    ∀ buf ∈ z.compressed level bufs, buf ≠ [] := by
  obtain ⟨after, first⟩ := @writeAll_spec z level _ _ _ .create bufs
  obtain ⟨frame, last⟩ := flushLoop_spec after
  simp only [compressed, List.flatten_append]
  refine ⟨frame, fun buf member => ?_⟩
  exact (List.mem_append.mp member).elim (first buf) (last buf)

/-! Reading. -/

/-- One input is decoded to the part of the data that it holds. -/
theorem decompressLoop_spec {rounds : Nat} {ctx : z.DCtx} {input later data : List Uint8}
    {suggestedRead : Nat} (decodes : z.Decodes ctx (input ++ later) data)
    (enough : input.length + data.length < rounds) (small : suggestedRead ≤ z.dStreamInSize)
    (more : data ≠ [] → 0 < suggestedRead) :
    ∃ ctx' out rest suggestedRead', z.decompressLoop rounds ctx input data.length suggestedRead =
        some (ctx', out, rest.length, suggestedRead') ∧
      data = out ++ rest ∧ z.Decodes ctx' later rest ∧ suggestedRead' ≤ z.dStreamInSize ∧
      (rest ≠ [] → 0 < suggestedRead') := by
  induction rounds generalizing ctx input data suggestedRead with
  | zero => omega
  | succ rounds ih =>
    rw [decompressLoop]
    by_cases empty : input = []
    · subst empty
      exact ⟨ctx, [], data, suggestedRead, if_pos rfl, rfl, decodes, small, more⟩
    obtain ⟨call, rest, called, consumed, progress, rfl, decodes', small', more'⟩ :=
      z.decompresses decodes z.dStreamOutSize_pos empty
    have fewer : (input.drop call.consumed).length + rest.length < rounds := by
      have step : 0 < call.consumed ∨ 0 < call.out.length :=
        progress.imp_right List.length_pos_of_ne_nil
      rw [List.length_drop]
      rw [List.length_append] at enough
      omega
    have left : (call.out ++ rest).length - call.out.length = rest.length := by
      rw [List.length_append, Nat.add_sub_cancel_left]
    have room : ¬ (call.out ++ rest).length < call.out.length := by
      rw [List.length_append]
      omega
    obtain ⟨ctx', out, rest', suggestedRead', looped, split, decodes'', small'', more''⟩ :=
      ih decodes' fewer small' fun some => Nat.pos_of_ne_zero fun zero => some (more' zero)
    refine ⟨ctx', call.out ++ out, rest', suggestedRead', ?_, ?_, decodes'', small'', more''⟩
    · simp only [if_neg empty, called, if_neg room, left, looped]
      rfl
    · rw [split, List.append_assoc]

theorem readLoop_spec {rounds : Nat} {ctx : z.DCtx} {rest data : List Uint8} {suggestedRead : Nat}
    (decodes : z.Decodes ctx rest data) (enough : rest.length < rounds)
    (small : suggestedRead ≤ z.dStreamInSize) (more : data ≠ [] → 0 < suggestedRead) :
    z.readLoop rounds ctx rest data.length suggestedRead = some data := by
  induction rounds generalizing ctx rest data suggestedRead with
  | zero => omega
  | succ rounds ih =>
    rw [readLoop]
    by_cases done : data = []
    · rw [done]
      exact if_pos rfl
    have some : rest ≠ [] := by
      rintro rfl
      exact done (z.flushed decodes)
    have ahead : rest.take suggestedRead ≠ [] := by
      rw [ne_eq, List.take_eq_nil_iff, not_or]
      exact ⟨Nat.ne_of_gt (more done), some⟩
    have pos := List.length_pos_of_ne_nil ahead
    rw [← List.take_append_drop suggestedRead rest] at decodes
    obtain ⟨ctx', out, data', suggestedRead', looped, split, decodes', small', more'⟩ :=
      decompressLoop_spec decodes (Nat.lt_succ_self _) small more
    have skipped : rest.drop (rest.take suggestedRead).length = rest.drop suggestedRead := by
      rw [List.length_take, ← List.drop_eq_drop_min]
    have fewer : (rest.drop suggestedRead).length < rounds := by
      rw [List.length_take] at pos
      rw [List.length_drop]
      omega
    have guard : ¬ (z.dStreamInSize < suggestedRead ∨ rest.take suggestedRead = []) :=
      not_or.mpr ⟨Nat.not_lt.mpr small, ahead⟩
    have unread : data.length ≠ 0 := fun zero => done (List.eq_nil_of_length_eq_zero zero)
    rw [Nat.succ_eq_add_one] at looped
    simp only [if_neg unread, if_neg guard, looped, skipped, Option.bind_eq_bind,
      Option.bind_some, ih decodes' fewer small' more']
    rw [split]
    rfl

variable (z) in
/-- The zstd that these loops make of the streams. -/
def zstd : Zstd where
  compress level bufs := (z.compressed level bufs).flatten
  decompress := z.decompress
  roundTrip level bufs :=
    readLoop_spec (z.decodes (compressed_spec level bufs).1) (Nat.lt_succ_self _)
      (Nat.le_refl _) fun _ => z.dStreamInSize_pos

end ZstdStreams

/-- Streams that store: each call moves what fits. -/
def storingApi : StreamApi where
  CCtx := Unit
  DCtx := Unit
  createCCtx _ := ()
  createDCtx := ()
  cStreamOutSize := 131591
  dStreamInSize := 131075
  dStreamOutSize := 131072
  compressStream2 _ n input _ :=
    { ctx := (), consumed := min n input.length, out := input.take n, ret := 0 }
  decompressStream _ n input :=
    some { ctx := (), consumed := min n input.length, out := input.take n, ret := 131075 }

theorem out_eq_of_compressed {level : Int} {ending : Bool} {ctx : storingApi.CCtx}
    {data out : List Uint8} (made : storingApi.Compressed level ending ctx data out) :
    out = data := by
  induction made with
  | create => rfl
  | @eContinue _ data out n input _ _ ih =>
    have moved : input.take (min n input.length) = input.take n := by
      rw [← List.take_take, List.take_length]
    rw [ih]
    exact congrArg (data ++ ·) moved.symm
  | @eEnd _ _ data out n _ _ ih =>
    rw [ih]
    exact (congrArg (data ++ ·) List.take_nil).trans (List.append_nil data)

def storingStreams : ZstdStreams where
  toStreamApi := storingApi
  cStreamOutSize_pos := by decide
  dStreamInSize_pos := by decide
  dStreamOutSize_pos := by decide
  held _ := 0
  consumed_le _ _ _ _ := Nat.min_le_right _ _
  continues _ _ _ pos nonempty := .inl (Nat.lt_min.mpr ⟨pos, List.length_pos_of_ne_nil nonempty⟩)
  ends _ _ _ remaining := absurd rfl remaining
  Decodes _ bytes data := bytes = data
  decodes frame := by
    cases frame with
    | done pos made done => exact out_eq_of_compressed (made.eEnd pos)
  decompresses := by
    rintro _ n input later _ rfl pos nonempty
    have skipped : input.drop (min n input.length) = input.drop n := List.drop_eq_drop_min.symm
    refine ⟨_, input.drop n ++ later, rfl, Nat.min_le_right _ _, .inl ?_, ?_, ?_, Nat.le_refl _, ?_⟩
    · exact Nat.lt_min.mpr ⟨pos, List.length_pos_of_ne_nil nonempty⟩
    · rw [← List.append_assoc, List.take_append_drop]
    · exact congrArg (· ++ later) skipped
    · rintro ⟨⟩
  flushed decodes := decodes.symm

end XnuTrace
