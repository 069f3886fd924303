import XnuTrace.Modes
import XnuTrace.NeedleChunks

/-! Where the bytes of `sync_frame_buf_hdr` occur in a thread's log. A message's change words never
lie in such an occurrence: whatever is found besides the sync frames is found among values. -/
namespace XnuTrace
open Memory Occurrences Framing LogMsg

/-! The header against change words. -/

theorem length_syncFrameBufHdrBytes : syncFrameBufHdrBytes.length = 136 :=
  (rfl : syncFrameBufHdrBytes.length = 17 * 8)

/-- No end of the header is also a beginning of it. -/
theorem syncFrameBufHdrBytes_borderless : ∀ j < 136, 0 < j →
    ¬ syncFrameBufHdrBytes.drop j <+: syncFrameBufHdrBytes := by
  decide +kernel

/-- No bytes begin both with the header and with an end of it. -/
theorem drop_not_prefix_of_header {bs : List Uint8} (whole : syncFrameBufHdrBytes <+: bs) {j : Nat}
    (after : 0 < j) (before : j < 136) : ¬ syncFrameBufHdrBytes.drop j <+: bs := by
  intro behind
  have short : (syncFrameBufHdrBytes.drop j).length ≤ syncFrameBufHdrBytes.length := by
    rw [List.length_drop]
    exact Nat.sub_le _ _
  exact syncFrameBufHdrBytes_borderless j before after
    (List.prefix_of_prefix_length_le behind whole short)

/-- Two words of the header are not change words, the first of them almost never. -/
theorem not_packed_syncFrameBufHdrBytes : ∀ j < 133, 0 < j →
    ¬ PackedRegs (frontWord 32 4 (syncFrameBufHdrBytes.drop j)) ∨
      j = 4 ∧ ¬ PackedRegs (frontWord 32 4 (syncFrameBufHdrBytes.drop 8)) := by
  decide +kernel

theorem frontWord_of_front {bs rest : List Uint8} {w : Uint32}
    (behind : bs <+: wordBytes 4 w ++ rest) (long : 4 ≤ bs.length) : frontWord 32 4 bs = w := by
  obtain ⟨rest', rfl⟩ := List.prefix_of_prefix_length_le (List.prefix_append (wordBytes 4 w) rest)
    behind (by rwa [length_wordBytes])
  exact frontWord_wordBytes (by decide) rest'

/-- The front of a word that is known by two bytes only. -/
theorem load_two_of_front {bs rest : List Uint8} {w : Uint32}
    (behind : bs <+: wordBytes 4 w ++ rest) (long : 2 ≤ bs.length) :
    load (ofList bs fun _ => 0) 0 2 = w.toNat % 65536 := by
  have split : wordBytes 4 w = bytes 2 w.toNat ++ bytes 2 (w.toNat / 256 / 256) := rfl
  rw [split, List.append_assoc] at behind
  obtain ⟨rest', rfl⟩ := List.prefix_of_prefix_length_le (List.prefix_append _ _) behind
    (by rwa [length_bytes])
  exact load_bytes ((holds_append _ _ _ _).mp (holds_ofList _ _)).1

/-- The second field is empty or holds the greater index. -/
theorem PackedRegs.second {w : Uint32} (packed : PackedRegs w) :
    w.toNat / 32 % 32 = 0 ∨ w.toNat % 32 < w.toNat / 32 % 32 := by
  rw [← toNat_rpcRegIdx_zero, ← toNat_rpcRegIdx_one]
  by_cases used : 0 + 1 < (rpcNumChanged w).toNat
  · exact .inr (BitVec.lt_def.mp ((packed.2 0 (by decide)).2 used))
  · rw [(packed.2 1 (by decide)).1 (Nat.not_lt.mp used)]
    exact .inl rfl

/-- A message that follows the beginning of a header shares at most the last byte with it. -/
theorem not_prefix_changeWords {w u : Uint32} (gprs : PackedRegs w) (vecs : PackedRegs u)
    (rest : List Uint8) {j : Nat} (after : 0 < j) (before : j < 135) :
    ¬ syncFrameBufHdrBytes.drop j <+: wordBytes 4 w ++ (wordBytes 4 u ++ rest) := by
  intro behind
  by_cases whole : j < 133
  · have first : frontWord 32 4 (syncFrameBufHdrBytes.drop j) = w :=
      frontWord_of_front behind (by rw [List.length_drop, length_syncFrameBufHdrBytes]; omega)
    rcases not_packed_syncFrameBufHdrBytes j whole after with notFirst | ⟨rfl, notSecond⟩
    · exact notFirst (first ▸ gprs)
    · have second : syncFrameBufHdrBytes.drop 8 <+: wordBytes 4 u ++ rest := by
        have dropped := behind.drop 4
        rwa [List.drop_drop, List.drop_left' (length_wordBytes 4 w)] at dropped
      have long : 4 ≤ (syncFrameBufHdrBytes.drop 8).length := by
        rw [List.length_drop, length_syncFrameBufHdrBytes]
        decide
      rw [frontWord_of_front second long] at notSecond
      exact notSecond vecs
  · -- Of the last words only the first two fields are known.
    have fields := gprs.second
    obtain rfl | rfl : j = 133 ∨ j = 134 := by omega
    · have known := load_two_of_front behind (by decide)
      rw [show load (ofList (syncFrameBufHdrBytes.drop 133) fun _ => 0) 0 2 = 0x354b from rfl]
        at known
      omega
    · have known := load_two_of_front behind (by decide)
      rw [show load (ofList (syncFrameBufHdrBytes.drop 134) fun _ => 0) 0 2 = 0xb135 from rfl]
        at known
      omega

/-! The header against one frame. -/

namespace Delta

/-- What stands behind the change words. -/
def values (d : Delta) : List Uint8 :=
  optBytes d.pc ++ optBytes d.sp ++ d.gprs.flatMap (fun r => wordBytes 8 r.2) ++
    d.vecs.flatMap (fun r => wordBytes 16 r.2)

theorem bytes_eq (d : Delta) :
    d.bytes = wordBytes 4 d.gprWord ++ (wordBytes 4 d.vecWord ++ d.values) := by
  simp only [bytes, values, List.append_assoc]

theorem length_values_le (d : Delta) : d.values.length ≤ syncFrameBufHdrBytes.length := by
  have whole := d.length_bytes_le
  rw [bytes_eq, List.length_append, List.length_append, length_wordBytes, length_wordBytes] at whole
  rw [length_syncFrameBufHdrBytes]
  simp only [sizeMax, rpcNumChangedMax] at whole
  omega

/-- A message with a header in it from its change words on would have no vector registers, and
then be too short. -/
theorem not_occurs_header (d : Delta) {p : Nat} (early : p < 8) :
    ¬ Occurs d.bytes syncFrameBufHdrBytes p := by
  intro occurs
  have inside := Occurs.inside occurs (by decide)
  rw [length_syncFrameBufHdrBytes, length_bytes] at inside
  have top : d.bytes[7]? = some (BitVec.ofNat 8 (d.vecWord.toNat / 256 / 256 / 256)) := by
    rw [bytes_eq]
    rfl
  have shared : d.bytes[7]? = syncFrameBufHdrBytes[7 - p]? := by
    obtain ⟨rest, same⟩ := occurs
    have known : 7 - p < syncFrameBufHdrBytes.length := by
      rw [length_syncFrameBufHdrBytes]
      omega
    rw [← @List.getElem?_append_left _ _ rest _ known, same, List.getElem?_drop]
    congr 1
    omega
  have small : ∀ k < 8, ∃ b : Uint8, syncFrameBufHdrBytes[k]? = some b ∧ b.toNat < 32 := by decide
  obtain ⟨b, found, below⟩ := small (7 - p) (by omega)
  rw [top, found, Option.some.injEq] at shared
  rw [← shared, BitVec.toNat_ofNat] at below
  have vecs := congrArg BitVec.toNat (rpcNumChanged_changeWord false false d.vec_small d.vec_few)
  rw [rpcNumChanged, BitVec.toNat_ushiftRight, Nat.shiftRight_eq_div_pow, List.length_map,
    BitVec.toNat_ofNat] at vecs
  change d.vecWord.toNat / 2 ^ 29 = _ at vecs
  have gprsFew := d.gprs_few
  have vecsFew := d.vecs_few
  have pc := Bool.toNat_le d.pc.isSome
  have sp := Bool.toNat_le d.sp.isSome
  have word := d.vecWord.isLt
  simp only [rpcNumChangedMax] at gprsFew vecsFew
  omega

end Delta

namespace Frame

def header : Frame → List Uint8
  | sync .. => syncFrameBufHdrBytes
  | msg d => wordBytes 4 d.gprWord ++ wordBytes 4 d.vecWord

def values : Frame → List Uint8
  | sync numInst ctx => wordBytes 8 numInst ++ ctx.bytes
  | msg d => d.values

/-- The change words are those of a scan over the registers. -/
def Packed : Frame → Prop
  | sync .. => True
  | msg d => PackedRegs d.gprWord ∧ PackedRegs d.vecWord

theorem bytes_eq (g : Frame) : g.bytes = g.header ++ g.values := by
  cases g with
  | sync numInst ctx => exact List.append_assoc ..
  | msg d => exact d.bytes_eq.trans (List.append_assoc ..).symm

theorem length_header_pos (g : Frame) : 0 < g.header.length := by
  cases g with
  | sync numInst ctx => exact length_syncFrameBufHdrBytes ▸ by decide
  | msg d => simp [header]

/-- In a frame the header stands in front of a sync frame or among the values. -/
theorem occurs_bytes {g : Frame} {p : Nat} (occurs : Occurs g.bytes syncFrameBufHdrBytes p) :
    (g.isSync = true ∧ p = 0) ∨ syncFrameBufHdrBytes <:+: g.values := by
  by_cases behind : g.header.length ≤ p
  · obtain ⟨q, rfl⟩ := Nat.exists_eq_add_of_le behind
    rw [bytes_eq, occurs_append_right] at occurs
    exact .inr (infix_iff_occurs.mpr ⟨q, occurs⟩)
  · cases g with
    | sync numInst ctx =>
      by_cases first : p = 0
      · exact .inl ⟨rfl, first⟩
      · have within : p < syncFrameBufHdrBytes.length := Nat.not_le.mp behind
        rw [Occurs, bytes_eq, header, List.drop_append_of_le_length within.le] at occurs
        exact absurd (List.prefix_append _ _)
          (drop_not_prefix_of_header occurs (Nat.pos_of_ne_zero first) within)
    | msg d => exact absurd occurs (d.not_occurs_header (by simpa [header] using behind))

/-- A frame tells its length and its kind. -/
theorem tells {f g : Frame} {as bs : List Uint8} (same : f.bytes ++ as = g.bytes ++ bs) :
    f.bytes.length = g.bytes.length ∧ f.isSync = g.isSync := by
  let msg : LogMsg := { mem := ofList (f.bytes ++ as) fun _ => 0, addr := 0 }
  have whole : Holds msg.mem msg.addr (f.bytes ++ as) :=
    holds_ofList (f.bytes ++ as) fun _ => 0
  have first : Holds msg.mem msg.addr f.bytes := ((holds_append _ _ _ _).mp whole).1
  rw [same] at whole
  have second : Holds msg.mem msg.addr g.bytes := ((holds_append _ _ _ _).mp whole).1
  exact ⟨(size_eq first).symm.trans (size_eq second),
    (isSyncFrame_eq first).symm.trans (isSyncFrame_eq second)⟩

/-- Behind the beginning of a header comes at most its last byte. -/
theorem last_of_behind {g : Frame} (packed : g.Packed) {j : Nat} (after : 0 < j) (before : j < 136)
    (behind : syncFrameBufHdrBytes.drop j <+: g.bytes) : j = 135 ∧ g.isSync = false := by
  cases g with
  | sync numInst ctx =>
    have whole : syncFrameBufHdrBytes <+: (sync numInst ctx).bytes :=
      ⟨_, (bytes_eq (.sync numInst ctx)).symm⟩
    exact absurd behind (drop_not_prefix_of_header whole after before)
  | msg d =>
    refine ⟨?_, rfl⟩
    by_contra notLast
    change _ <+: d.bytes at behind
    rw [d.bytes_eq] at behind
    exact not_prefix_changeWords packed.1 packed.2 _ after (by omega) behind

end Frame

/-! The header in a sequence of frames. -/

/-- A sync frame of the sequence starts there. -/
def StartsSync (frames : List Frame) (p : Nat) : Prop :=
  ∃ before g after, frames = before ++ g :: after ∧ g.isSync = true ∧
    p = (before.flatMap Frame.bytes).length

/-- The header occurs nowhere but at the starts of sync frames. -/
def OnlyAtSyncs (frames : List Frame) : Prop :=
  ∀ p, Occurs (frames.flatMap Frame.bytes) syncFrameBufHdrBytes p → StartsSync frames p

section
variable {frames frames' : List Frame} {g : Frame} {p : Nat}

theorem startsSync_concat : StartsSync (frames ++ [g]) p ↔
    StartsSync frames p ∨ g.isSync = true ∧ p = (frames.flatMap Frame.bytes).length := by
  constructor
  · rintro ⟨before, f, after, same, sync, rfl⟩
    rcases List.eq_nil_or_concat after with rfl | ⟨after, last, rfl⟩
    · obtain ⟨rfl, one⟩ := List.append_inj' same rfl
      cases one
      exact .inr ⟨sync, rfl⟩
    · rw [List.concat_eq_append, ← List.cons_append, ← List.append_assoc] at same
      exact .inl ⟨before, f, after, (List.append_inj' same rfl).1, sync, rfl⟩
  · rintro (⟨before, f, after, rfl, sync, rfl⟩ | ⟨sync, rfl⟩)
    · exact ⟨before, f, after ++ [g], by rw [List.append_assoc]; rfl, sync, rfl⟩
    · exact ⟨frames, g, [], rfl, sync, rfl⟩

theorem StartsSync.split (starts : StartsSync frames p) : ∃ before numInst ctx after,
    frames = before ++ Frame.sync numInst ctx :: after ∧
      p = (before.flatMap Frame.bytes).length := by
  obtain ⟨before, g, after, same, sync, at'⟩ := starts
  cases g with
  | sync numInst ctx => exact ⟨before, numInst, ctx, after, same, at'⟩
  | msg d => cases sync

/-- A sync frame is longer than its header. -/
theorem StartsSync.room (starts : StartsSync frames p) :
    p + sizeFullCtx ≤ (frames.flatMap Frame.bytes).length := by
  obtain ⟨before, numInst, ctx, after, rfl, rfl⟩ := starts.split
  rw [List.flatMap_append, List.flatMap_cons, List.length_append, List.length_append,
    Frame.length_bytes_sync]
  omega

/-- The bytes alone tell where the sync frames start. -/
theorem StartsSync.congr (starts : StartsSync frames p)
    (same : frames.flatMap Frame.bytes = frames'.flatMap Frame.bytes) : StartsSync frames' p := by
  obtain ⟨before, g, after, rfl, sync, rfl⟩ := starts
  obtain ⟨before', g', after', rfl, length, kind⟩ :=
    split_unique Frame.tells Frame.length_bytes_pos same
  exact ⟨before', g', after', rfl, kind ▸ sync, length.symm⟩

theorem onlyAtSyncs_concat (packed : g.Packed) : OnlyAtSyncs (frames ++ [g]) ↔
    OnlyAtSyncs frames ∧
      ¬ syncFrameBufHdrBytes <:+ frames.flatMap Frame.bytes ++ g.bytes.take 1 ∧
      ¬ syncFrameBufHdrBytes <:+: g.values := by
  have whole : (frames ++ [g]).flatMap Frame.bytes = frames.flatMap Frame.bytes ++ g.bytes := by
    rw [List.flatMap_append, List.flatMap_singleton]
  have size := length_syncFrameBufHdrBytes
  -- An occurrence that ends with the first byte of the frame.
  have seam : ∀ p, p + 136 = (frames.flatMap Frame.bytes).length + 1 →
      (Occurs (frames.flatMap Frame.bytes ++ g.bytes) syncFrameBufHdrBytes p ↔
        syncFrameBufHdrBytes <:+ frames.flatMap Frame.bytes ++ g.bytes.take 1) := fun p ends =>
    occurs_append_iff_suffix g.length_bytes_pos (size ▸ ends)
  rw [OnlyAtSyncs, whole]
  constructor
  · intro only
    refine ⟨fun p occurs => ?_, fun ends => ?_, fun within => ?_⟩
    · have inside := Occurs.inside occurs (by decide)
      have starts := only p ((occurs_append_left inside).mpr occurs)
      refine (startsSync_concat.mp starts).resolve_right fun ⟨_, here⟩ => ?_
      omega
    · have long := ends.length_le
      rw [List.length_append, List.length_take_of_le g.length_bytes_pos, size] at long
      obtain ⟨p, start⟩ := Nat.exists_eq_add_of_le' long
      have starts := only p ((seam p start.symm).mpr ends)
      rcases startsSync_concat.mp starts with earlier | ⟨_, here⟩
      · have room := earlier.room
        simp only [sizeFullCtx, syncFrameSz] at room
        omega
      · omega
    · obtain ⟨q, occurs⟩ := infix_iff_occurs.mp within
      rw [← @occurs_append_right _ g.header, ← g.bytes_eq,
        ← @occurs_append_right _ (frames.flatMap Frame.bytes)] at occurs
      have behind := g.length_header_pos
      rcases startsSync_concat.mp (only _ occurs) with earlier | ⟨_, here⟩
      · have room := earlier.room
        omega
      · omega
  · rintro ⟨earlier, noSeam, noValues⟩ p occurs
    rw [startsSync_concat]
    by_cases fits : p + 136 ≤ (frames.flatMap Frame.bytes).length
    · exact .inl (earlier p ((occurs_append_left (size ▸ fits)).mp occurs))
    · by_cases behind : (frames.flatMap Frame.bytes).length ≤ p
      · obtain ⟨q, rfl⟩ := Nat.exists_eq_add_of_le behind
        rw [occurs_append_right] at occurs
        rcases Frame.occurs_bytes occurs with ⟨sync, rfl⟩ | within
        · exact .inr ⟨sync, rfl⟩
        · exact absurd within noValues
      · have crossing := Occurs.behind occurs (by omega) (by omega)
        have last := (Frame.last_of_behind packed (by omega) (by omega) crossing).1
        exact absurd ((seam p (by omega)).mp occurs) noSeam

end

end XnuTrace
