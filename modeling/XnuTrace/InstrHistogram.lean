import XnuTrace.LogStructs
import Mathlib.Data.BitVec
import Mathlib.Algebra.BigOperators.Group.List.Basic

/-! `ARM64InstrHistogram`: the table that remembers decoded instructions is indexed by their
upper 22 bits, so within one histogram the first instruction with these bits decides for all. -/
namespace XnuTrace

def uint16Max : Uint16 := 0xffff

/-- `aarch64_decompose`: every operation is below `UINT16_MAX`. -/
structure Decoder where
  operation : Uint32 → Uint16
  operation_ne : ∀ instr, operation instr ≠ uint16Max

/-- An unused entry of the first table is `UINT16_MAX`; it stays unused where histograms are only
added. The second table has no entry there. -/
structure ARM64InstrHistogram where
  mInstrToOpLut : BitVec 22 → Uint16 := fun _ => uint16Max
  mOpCountLut : Uint16 → Uint64 := fun _ => 0

namespace ARM64InstrHistogram

/-- `instr >> 10`. -/
def lutIdx (instr : Uint32) : BitVec 22 := (instr >>> 10).setWidth 22

variable (decoder : Decoder)

def add (hist : ARM64InstrHistogram) (instr : Uint32) : ARM64InstrHistogram :=
  let op := hist.mInstrToOpLut (lutIdx instr)
  if op = uint16Max then
    let op := decoder.operation instr
    { mInstrToOpLut := Function.update hist.mInstrToOpLut (lutIdx instr) op
      mOpCountLut := Function.update hist.mOpCountLut op (hist.mOpCountLut op + 1) }
  else
    { hist with mOpCountLut := Function.update hist.mOpCountLut op (hist.mOpCountLut op + 1) }

/-- `operator+=`. -/
def addHist (hist other : ARM64InstrHistogram) : ARM64InstrHistogram :=
  { hist with mOpCountLut := fun op => hist.mOpCountLut op + other.mOpCountLut op }

/-- The histogram of one block. -/
def ofBlock (block : List Uint32) : ARM64InstrHistogram := block.foldl (add decoder) {}

/-- `dump_histogram`, without the print: the blocks are added to a histogram that only adds. -/
def ofBlocks (blocks : List (List Uint32)) : ARM64InstrHistogram :=
  (blocks.map (ofBlock decoder)).foldl addHist {}

/-- However the list is cut, each operation is counted as often as it occurs. -/
def Exact (instrs : List Uint32) : Prop :=
  ∀ blocks : List (List Uint32), blocks.flatten = instrs → ∀ op ≠ uint16Max,
    ((ofBlocks decoder blocks).mOpCountLut op).toNat =
      instrs.countP fun instr => decoder.operation instr = op

/-- Instructions that share an entry of the table are decoded to one operation. -/
def Shared (instrs : List Uint32) : Prop :=
  ∀ instr ∈ instrs, ∀ instr' ∈ instrs, lutIdx instr = lutIdx instr' →
    decoder.operation instr = decoder.operation instr'

/-- The operation that the instruction is counted as behind this part of a block. -/
def countedAs (block : List Uint32) (instr : Uint32) : Uint16 :=
  decoder.operation <| (block.find? fun earlier => lutIdx earlier = lutIdx instr).getD instr

variable {decoder}

theorem ofBlock_concat (block : List Uint32) (instr : Uint32) :
    ofBlock decoder (block ++ [instr]) = add decoder (ofBlock decoder block) instr := by
  rw [ofBlock, List.foldl_append]
  rfl

/-- The operation that `add` counts. -/
theorem mOpCountLut_add (hist : ARM64InstrHistogram) (instr : Uint32) (op : Uint16) :
    (add decoder hist instr).mOpCountLut op = hist.mOpCountLut op +
      if (if hist.mInstrToOpLut (lutIdx instr) = uint16Max then decoder.operation instr
        else hist.mInstrToOpLut (lutIdx instr)) = op then 1 else 0 := by
  have bump : ∀ counted : Uint16,
      Function.update hist.mOpCountLut counted (hist.mOpCountLut counted + 1) op =
        hist.mOpCountLut op + if counted = op then 1 else 0 := by
    intro counted
    by_cases same : counted = op
    · rw [if_pos same, same, Function.update_self]
    · rw [if_neg same, Function.update_of_ne (Ne.symm same), add_zero]
  unfold add
  dsimp only
  split
  · exact bump _
  · exact bump _

/-- The table has the operation of the first instruction for each entry. -/
theorem mInstrToOpLut_ofBlock (block : List Uint32) (idx : BitVec 22) :
    (ofBlock decoder block).mInstrToOpLut idx =
      ((block.find? fun earlier => lutIdx earlier = idx).map decoder.operation).getD uint16Max := by
  induction block using List.reverseRecOn with
  | nil => rfl
  | append_singleton block instr ih =>
    rw [ofBlock_concat, List.find?_append, add]
    dsimp only
    by_cases own : lutIdx instr = idx
    · subst own
      have last : [instr].find? (fun earlier => lutIdx earlier = lutIdx instr) = some instr := by
        simp
      rw [last]
      cases found : block.find? fun earlier => lutIdx earlier = lutIdx instr with
      | none =>
        rw [found] at ih
        have unused : (ofBlock decoder block).mInstrToOpLut (lutIdx instr) = uint16Max := ih
        rw [if_pos unused]
        exact Function.update_self ..
      | some earlier =>
        rw [found] at ih
        have used : (ofBlock decoder block).mInstrToOpLut (lutIdx instr) ≠ uint16Max :=
          ih ▸ decoder.operation_ne earlier
        rw [if_neg used]
        exact ih
    · have other : [instr].find? (fun earlier => lutIdx earlier = idx) = none := by simp [own]
      rw [other, Option.or_none, ← ih]
      split
      · exact Function.update_of_ne (Ne.symm own) ..
      · rfl

theorem mOpCountLut_concat (block : List Uint32) (instr : Uint32) (op : Uint16) :
    (ofBlock decoder (block ++ [instr])).mOpCountLut op = (ofBlock decoder block).mOpCountLut op +
      if countedAs decoder block instr = op then 1 else 0 := by
  have counted : (if (ofBlock decoder block).mInstrToOpLut (lutIdx instr) = uint16Max then
      decoder.operation instr else (ofBlock decoder block).mInstrToOpLut (lutIdx instr)) =
      countedAs decoder block instr := by
    rw [mInstrToOpLut_ofBlock, countedAs]
    cases block.find? fun earlier => lutIdx earlier = lutIdx instr with
    | none => exact if_pos rfl
    | some earlier => exact if_neg (decoder.operation_ne earlier)
  rw [ofBlock_concat, mOpCountLut_add, counted]

/-- Merging adds up the blocks. -/
theorem mOpCountLut_ofBlocks (blocks : List (List Uint32)) (op : Uint16) :
    (ofBlocks decoder blocks).mOpCountLut op =
      (blocks.map fun block => (ofBlock decoder block).mOpCountLut op).sum := by
  have fold : ∀ hist : ARM64InstrHistogram,
      ((blocks.map (ofBlock decoder)).foldl addHist hist).mOpCountLut op =
        hist.mOpCountLut op + (blocks.map fun block => (ofBlock decoder block).mOpCountLut op).sum := by
    induction blocks with
    | nil => exact fun hist => (add_zero _).symm
    | cons block blocks ih =>
      intro hist
      rw [List.map_cons, List.foldl_cons, ih, List.map_cons, List.sum_cons, ← add_assoc]
      rfl
  exact (fold {}).trans (zero_add _)

/-- Where entries are shared only by instructions of one operation, a block is counted right. -/
theorem mOpCountLut_of_shared {block : List Uint32} (shared : Shared decoder block) (op : Uint16) :
    (ofBlock decoder block).mOpCountLut op =
      BitVec.ofNat 64 (block.countP fun instr => decoder.operation instr = op) := by
  induction block using List.reverseRecOn with
  | nil => rfl
  | append_singleton block instr ih =>
    have before : Shared decoder block := fun a ha b hb =>
      shared a (List.mem_append_left _ ha) b (List.mem_append_left _ hb)
    have right : countedAs decoder block instr = decoder.operation instr := by
      rw [countedAs]
      cases found : block.find? fun earlier => lutIdx earlier = lutIdx instr with
      | none => rfl
      | some earlier =>
        have same := List.find?_some found
        exact shared earlier (List.mem_append_left _ (List.mem_of_find?_eq_some found)) instr
          (List.mem_append_right _ (List.mem_singleton_self _)) (of_decide_eq_true same)
    rw [mOpCountLut_concat, ih before, right, List.countP_append, List.countP_singleton,
      BitVec.ofNat_add]
    by_cases own : decoder.operation instr = op <;> simp [own]

/-- Blocks that are counted right each merge to the right counts. -/
theorem mOpCountLut_ofBlocks_of_shared {blocks : List (List Uint32)}
    (shared : ∀ block ∈ blocks, Shared decoder block) (op : Uint16) :
    (ofBlocks decoder blocks).mOpCountLut op =
      BitVec.ofNat 64 (blocks.flatten.countP fun instr => decoder.operation instr = op) := by
  rw [mOpCountLut_ofBlocks]
  induction blocks with
  | nil => rfl
  | cons block blocks ih =>
    rw [List.map_cons, List.sum_cons, ih fun other later => shared other (.tail _ later),
      mOpCountLut_of_shared (shared block (.head _)), List.flatten_cons, List.countP_append,
      BitVec.ofNat_add]

/-- Where the counts do not depend on the cut, two instructions of one entry have one operation:
the later one counts as itself in a block of its own. -/
theorem Exact.operation_eq {first later : Uint32} {before between behind : List Uint32}
    (right : Exact decoder (before ++ first :: between ++ later :: behind))
    (same : lutIdx first = lutIdx later) : decoder.operation first = decoder.operation later := by
  have cut := right [before, first :: between, [later], behind] (by simp)
    (decoder.operation later) (decoder.operation_ne later)
  have joined := right [before, first :: between ++ [later], behind] (by simp)
    (decoder.operation later) (decoder.operation_ne later)
  have counts := BitVec.eq_of_toNat_eq (cut.trans joined.symm)
  have alone : (ofBlock decoder [later]).mOpCountLut (decoder.operation later) =
      (ofBlock decoder []).mOpCountLut (decoder.operation later) +
        if countedAs decoder [] later = decoder.operation later then 1 else 0 :=
    mOpCountLut_concat [] later (decoder.operation later)
  have found : countedAs decoder (first :: between) later = decoder.operation first := by
    rw [countedAs, List.find?_cons_of_pos (by simpa using same), Option.getD_some]
  have empty : (ofBlock decoder []).mOpCountLut (decoder.operation later) = 0 := rfl
  rw [countedAs, List.find?_nil, Option.getD_none, if_pos rfl, empty,
    zero_add] at alone
  simp only [mOpCountLut_ofBlocks, List.map_cons, List.map_nil, List.sum_cons, List.sum_nil,
    mOpCountLut_concat, found, alone, add_assoc] at counts
  have one := add_right_cancel (add_left_cancel (add_left_cancel counts))
  by_contra differ
  rw [if_neg differ] at one
  exact absurd one (by decide)

/-- The counts are right, however the list is cut, for the lists whose instructions of one entry
have one operation, as long as no count leaves its 64 bits. -/
theorem counts_exact_iff (decoder : Decoder) (instrs : List Uint32) :
    Exact decoder instrs ↔ Shared decoder instrs ∧ ∀ op ≠ uint16Max,
      instrs.countP (fun instr => decoder.operation instr = op) < 2 ^ 64 := by
  constructor
  · intro right
    refine ⟨fun x hx y hy same => ?_, fun op valid => ?_⟩
    · obtain ⟨before, behind, rfl⟩ := List.append_of_mem hx
      rcases List.mem_append.1 hy with earlier | rest
      · obtain ⟨front, between, rfl⟩ := List.append_of_mem earlier
        exact (right.operation_eq same.symm).symm
      · rcases List.mem_cons.1 rest with rfl | later
        · rfl
        · obtain ⟨between, rear, rfl⟩ := List.append_of_mem later
          rw [← List.cons_append, ← List.append_assoc] at right
          exact right.operation_eq same
    · rw [← right [instrs] (List.append_nil _) op valid]
      exact BitVec.isLt _
  · rintro ⟨shared, bounded⟩ blocks rfl op valid
    have each : ∀ block ∈ blocks, Shared decoder block := fun block hblock x hx y hy =>
      shared x (List.mem_flatten_of_mem hblock hx) y (List.mem_flatten_of_mem hblock hy)
    rw [mOpCountLut_ofBlocks_of_shared each, BitVec.toNat_ofNat, Nat.mod_eq_of_lt (bounded op valid)]

/-- The condition of a conditional branch is in its lowest four bits. -/
def byCondition : Decoder where
  operation instr := (instr.setWidth 4).setWidth 16
  operation_ne instr := by
    intro same
    have low := (instr.setWidth 4).isLt
    have wide := congrArg BitVec.toNat same
    rw [BitVec.toNat_setWidth, Nat.mod_eq_of_lt (by omega)] at wide
    rw [wide] at low
    exact absurd low (by decide)

/-- `b.eq` and `b.ne` in one block: both count as the first. -/
theorem not_exact_conditions : ¬ Exact byCondition [0x54000040, 0x54000041] := by
  intro right
  exact absurd (right [[0x54000040, 0x54000041]] rfl 0 (by decide)) (by decide)

end ARM64InstrHistogram

end XnuTrace
