import XnuTrace.Delta
import Mathlib.Tactic.IntervalCases

/-! The message that `thread_ctx::write_log_msg` assembles in `msg_buf`, and its
layout. The change masks come from vector compares and a bit interleave; they are
shown to select exactly the registers that differ. -/
namespace XnuTrace
open Memory

/-- NEON's `uint64x2_t`. -/
structure Uint64x2 where
  lane0 : Uint64
  lane1 : Uint64

namespace Uint64x2

def map (f : Uint64 → Uint64) (a : Uint64x2) : Uint64x2 := ⟨f a.lane0, f a.lane1⟩

def or (a b : Uint64x2) : Uint64x2 := ⟨a.lane0 ||| b.lane0, a.lane1 ||| b.lane1⟩

/-- `a != b`: all ones in the lanes that differ. -/
def ne (a b : Uint64x2) : Uint64x2 :=
  ⟨if a.lane0 ≠ b.lane0 then BitVec.allOnes 64 else 0,
    if a.lane1 ≠ b.lane1 then BitVec.allOnes 64 else 0⟩

end Uint64x2

def interleaveWithZeros16bit (word : Uint64) : Uint64 :=
  let word := (word ^^^ (word <<< 8)) &&& 0x00ff00ff
  let word := (word ^^^ (word <<< 4)) &&& 0x0f0f0f0f
  let word := (word ^^^ (word <<< 2)) &&& 0x33333333
  (word ^^^ (word <<< 1)) &&& 0x55555555

def interleaveUint64x2WithZeros16bit (input : Uint64x2) : Uint64x2 :=
  input.map interleaveWithZeros16bit

/-- `((uint64x2_t *)&x[0])[i]`. -/
def LogArm64CpuContext.x2 (c : LogArm64CpuContext) (i : Nat) : Uint64x2 :=
  ⟨c.slot (2 * i), c.slot (2 * i + 1)⟩

/-- `((uint64x2_t *)&v[0])[i]`. -/
def LogArm64CpuContext.v2 (c : LogArm64CpuContext) (i : Nat) : Uint64x2 :=
  ⟨(c.vec i).setWidth 64, (c.vec i).extractLsb' 64 64⟩

def pairDiff (last ctx : LogArm64CpuContext) (pairs : Nat) : Uint64x2 :=
  (List.range pairs).foldl (fun vx2Diff i =>
    vx2Diff.or ((((ctx.x2 i).ne (last.x2 i)).map (· &&& 1)).map (· <<< i))) ⟨0, 0⟩

def xDiff (last ctx : LogArm64CpuContext) : Uint32 :=
  let vx2Diff := interleaveUint64x2WithZeros16bit (pairDiff last ctx (32 / 2))
  let xDiff : Uint32 := (vx2Diff.lane0 ||| (vx2Diff.lane1 <<< 1)).setWidth 32
  -- the 32nd slot is not a register (x[29], fp, lr) but comes from v[]
  xDiff &&& ~~~((1 : Uint32) <<< 31)

def vDiffUpTo (last ctx : LogArm64CpuContext) (regs : Nat) : Uint32 :=
  (List.range regs).foldl (fun vDiff i =>
    let vneq := (ctx.v2 i).ne (last.v2 i)
    vDiff ||| (((vneq.lane0 ||| vneq.lane1) &&& 1) <<< i).setWidth 32) 0

def vDiff (last ctx : LogArm64CpuContext) : Uint32 := vDiffUpTo last ctx 32

def popcount (w : Uint32) : Nat := (List.range 32).countP w.getLsbD

/-- The copy loop over the registers `0 .. n - 1`: change word, payload so far and
number of registers entered. -/
def writeChanged (diff : Uint32) (value : Nat → List Uint8) (n : Nat)
    (changed : Uint32) (buf : List Uint8) : Uint32 × List Uint8 × Nat :=
  (List.range n).foldl (fun (changed, buf, idx) i =>
    if diff.getLsbD i then
      (rpcSetRegIdx changed idx (BitVec.ofNat 32 i), buf ++ value i, idx + 1)
    else (changed, buf, idx)) (changed, buf, 0)

/-- `msg_buf` up to `buf_ptr`; `none` when an assertion on a register count fails. -/
def msgBuf (last ctx : LogArm64CpuContext) : Option (List Uint8) :=
  let (gprChanged, buf) :=
    if ctx.pc - last.pc ≠ 4 then (rpcSetPcBranched 0, wordBytes 8 ctx.pc) else (0, [])
  let (gprChanged, buf) :=
    if ctx.sp - last.sp ≠ 0 then (rpcSetSpChanged gprChanged, buf ++ wordBytes 8 ctx.sp)
    else (gprChanged, buf)
  let xDiff := xDiff last ctx
  let vDiff := vDiff last ctx
  let numGprChanged := popcount xDiff
  if numGprChanged ≤ rpcNumChangedMax then
    let gprChanged := rpcSetNumChanged gprChanged (BitVec.ofNat 32 numGprChanged)
    let (gprChanged, buf, _) :=
      writeChanged xDiff (fun i => wordBytes 8 (ctx.slot i)) 31 gprChanged buf
    let numVecChanged := popcount vDiff
    if numVecChanged ≤ rpcNumChangedMax then
      let vecChanged := rpcSetNumChanged 0 (BitVec.ofNat 32 numVecChanged)
      let (vecChanged, buf, _) :=
        writeChanged vDiff (fun i => wordBytes 16 (ctx.vec i)) 32 vecChanged buf
      some (wordBytes 4 gprChanged ++ wordBytes 4 vecChanged ++ buf)
    else none
  else none

/-! The masks. -/

theorem getLsbD_interleaveWithZeros16bit {w : Uint64}
    (narrow : ∀ k, 16 ≤ k → w.getLsbD k = false) {k : Nat} (hk : k < 32) :
    (interleaveWithZeros16bit w).getLsbD k = (decide (k % 2 = 0) && w.getLsbD (k / 2)) := by
  have h₁₆ : w[16] = false := narrow 16 (by decide)
  have h₁₇ : w[17] = false := narrow 17 (by decide)
  have h₁₈ : w[18] = false := narrow 18 (by decide)
  have h₁₉ : w[19] = false := narrow 19 (by decide)
  have h₂₀ : w[20] = false := narrow 20 (by decide)
  have h₂₁ : w[21] = false := narrow 21 (by decide)
  have h₂₂ : w[22] = false := narrow 22 (by decide)
  have h₂₃ : w[23] = false := narrow 23 (by decide)
  interval_cases k <;>
    simp [interleaveWithZeros16bit, h₁₆, h₁₇, h₁₈, h₁₉, h₂₀, h₂₁, h₂₂, h₂₃]

/-- One comparison result moved to bit `i` of its lane. -/
theorem getLsbD_lane {differ : Prop} [Decidable differ] {i k : Nat} (hk : k < 64) :
    (((if differ then BitVec.allOnes 64 else 0) &&& (1 : Uint64)) <<< i).getLsbD k =
      (decide differ && decide (k = i)) := by
  have one : (1 : Uint64) = BitVec.ofNat 64 1 := rfl
  by_cases h : differ
  · simp only [h, if_true, decide_true, Bool.true_and, one, BitVec.getLsbD_shiftLeft, hk,
      BitVec.allOnes_and, BitVec.getLsbD_ofNat]
    by_cases low : k < i
    · simp [low, Nat.ne_of_lt low]
    · have : k - i < 64 := by omega
      simp only [low, decide_false, Bool.not_false, this, decide_true, Bool.true_and]
      rw [Bool.eq_iff_iff, Nat.testBit_one_eq_true_iff_self_eq_zero, decide_eq_true_iff]
      omega
  · simp [h]

theorem getLsbD_pairDiff (last ctx : LogArm64CpuContext) (pairs k : Nat) (hk : k < 64) :
    (pairDiff last ctx pairs).lane0.getLsbD k =
      (decide (k < pairs) && decide (ctx.slot (2 * k) ≠ last.slot (2 * k))) ∧
    (pairDiff last ctx pairs).lane1.getLsbD k =
      (decide (k < pairs) && decide (ctx.slot (2 * k + 1) ≠ last.slot (2 * k + 1))) := by
  induction pairs with
  | zero => simp [pairDiff]
  | succ n ih =>
    have step : pairDiff last ctx (n + 1) = (pairDiff last ctx n).or
        ((((ctx.x2 n).ne (last.x2 n)).map (· &&& 1)).map (· <<< n)) := by
      simp only [pairDiff, List.range_succ, List.foldl_append, List.foldl_cons, List.foldl_nil]
    have lane₀ : decide ((ctx.x2 n).lane0 ≠ (last.x2 n).lane0) =
        decide (ctx.slot (2 * n) ≠ last.slot (2 * n)) := rfl
    have lane₁ : decide ((ctx.x2 n).lane1 ≠ (last.x2 n).lane1) =
        decide (ctx.slot (2 * n + 1) ≠ last.slot (2 * n + 1)) := rfl
    simp only [step, Uint64x2.or, Uint64x2.map, Uint64x2.ne, BitVec.getLsbD_or, ih.1, ih.2,
      getLsbD_lane hk, lane₀, lane₁]
    rcases Nat.lt_trichotomy k n with below | rfl | above
    · simp [below, Nat.lt_succ_of_lt below, Nat.ne_of_lt below]
    · simp
    · simp [Nat.not_lt_of_lt above, Nat.ne_of_gt above, show ¬k < n + 1 by omega]

/-- The 32nd lane, which aliases `v[0]`, is masked out. -/
theorem getLsbD_xDiff (last ctx : LogArm64CpuContext) (i : Nat) :
    (xDiff last ctx).getLsbD i = (decide (i < 31) && decide (ctx.slot i ≠ last.slot i)) := by
  by_cases hi : i < 32
  · have narrow₀ : ∀ k, 16 ≤ k → (pairDiff last ctx 16).lane0.getLsbD k = false := by
      intro k hk
      by_cases h : k < 64
      · simp [(getLsbD_pairDiff last ctx 16 k h).1, Nat.not_lt.mpr hk]
      · exact BitVec.getLsbD_of_ge _ _ (by omega)
    have narrow₁ : ∀ k, 16 ≤ k → (pairDiff last ctx 16).lane1.getLsbD k = false := by
      intro k hk
      by_cases h : k < 64
      · simp [(getLsbD_pairDiff last ctx 16 k h).2, Nat.not_lt.mpr hk]
      · exact BitVec.getLsbD_of_ge _ _ (by omega)
    have top : (~~~((1 : Uint32) <<< 31)).getLsbD i = decide (i < 31) := by
      interval_cases i <;> rfl
    have half : i / 2 < 64 := by omega
    rw [xDiff, BitVec.getLsbD_and, top, BitVec.getLsbD_setWidth, BitVec.getLsbD_or,
      BitVec.getLsbD_shiftLeft]
    simp only [interleaveUint64x2WithZeros16bit, Uint64x2.map, Nat.reduceDiv]
    rw [getLsbD_interleaveWithZeros16bit narrow₀ hi,
      getLsbD_interleaveWithZeros16bit narrow₁ (show i - 1 < 32 by omega),
      (getLsbD_pairDiff last ctx 16 (i / 2) half).1,
      (getLsbD_pairDiff last ctx 16 ((i - 1) / 2) (by omega)).2]
    rcases Nat.even_or_odd' i with ⟨j, rfl | rfl⟩
    · have odd : 2 * j = 0 ∨ (2 * j - 1) % 2 = 1 := by omega
      rcases odd with zero | odd
      · simp [zero]
      · simp [odd, hi, show j < 16 by omega, Bool.and_comm]
    · simp [hi, show (2 * j + 1) % 2 = 1 by omega, show j < 16 by omega,
        show 2 * j + 1 < 64 by omega, Bool.and_comm]
  · rw [BitVec.getLsbD_of_ge _ _ (by omega)]
    simp [show ¬i < 31 by omega]

theorem lanes_eq_iff (a b : Uint128) :
    a.setWidth 64 = b.setWidth 64 ∧ a.extractLsb' 64 64 = b.extractLsb' 64 64 ↔ a = b := by
  constructor
  · rintro ⟨low, high⟩
    apply BitVec.eq_of_getLsbD_eq
    intro k hk
    by_cases h : k < 64
    · have := congrArg (fun w : Uint64 => w.getLsbD k) low
      simpa [BitVec.getLsbD_setWidth, h] using this
    · have := congrArg (fun w : Uint64 => w.getLsbD (k - 64)) high
      simpa [BitVec.getLsbD_extractLsb', show k - 64 < 64 by omega,
        show 64 + (k - 64) = k by omega] using this
  · rintro rfl
    exact ⟨rfl, rfl⟩

theorem getLsbD_vDiffUpTo (last ctx : LogArm64CpuContext) (regs k : Nat) (hk : k < 32) :
    (vDiffUpTo last ctx regs).getLsbD k =
      (decide (k < regs) && decide (ctx.vec k ≠ last.vec k)) := by
  induction regs with
  | zero => simp [vDiffUpTo]
  | succ n ih =>
    have either : ∀ (p q : Prop) [Decidable p] [Decidable q],
        (if p then BitVec.allOnes 64 else (0 : Uint64)) |||
          (if q then BitVec.allOnes 64 else (0 : Uint64)) =
        if p ∨ q then BitVec.allOnes 64 else 0 := by
      intro p q _ _
      by_cases p <;> by_cases q <;> simp [*]
    have differ : ((ctx.v2 n).lane0 ≠ (last.v2 n).lane0 ∨
        (ctx.v2 n).lane1 ≠ (last.v2 n).lane1) ↔ ctx.vec n ≠ last.vec n := by
      rw [← not_and_or]
      exact not_congr (lanes_eq_iff _ _)
    have step : vDiffUpTo last ctx (n + 1) = vDiffUpTo last ctx n |||
        (((((ctx.v2 n).ne (last.v2 n)).lane0 ||| ((ctx.v2 n).ne (last.v2 n)).lane1) &&& 1)
          <<< n).setWidth 32 := by
      simp only [vDiffUpTo, List.range_succ, List.foldl_append, List.foldl_cons, List.foldl_nil]
    rw [step, BitVec.getLsbD_or, ih, BitVec.getLsbD_setWidth]
    simp only [Uint64x2.ne, either]
    rw [getLsbD_lane (show k < 64 by omega)]
    simp only [hk, decide_true, Bool.true_and, differ]
    rcases Nat.lt_trichotomy k n with below | rfl | above
    · simp [below, Nat.lt_succ_of_lt below, Nat.ne_of_lt below]
    · simp
    · simp [Nat.not_lt_of_lt above, Nat.ne_of_gt above, show ¬k < n + 1 by omega]

theorem getLsbD_vDiff (last ctx : LogArm64CpuContext) {i : Nat} (hi : i < 32) :
    (vDiff last ctx).getLsbD i = decide (ctx.vec i ≠ last.vec i) := by
  rw [vDiff, getLsbD_vDiffUpTo last ctx 32 i hi]
  simp [hi]

/-! The message. -/

def changedGprs (last ctx : LogArm64CpuContext) : List Nat :=
  (List.range 31).filter fun i => ctx.slot i ≠ last.slot i

def changedVecs (last ctx : LogArm64CpuContext) : List Nat :=
  (List.range 32).filter fun i => ctx.vec i ≠ last.vec i

theorem changedGprs_lt {last ctx : LogArm64CpuContext} : ∀ i ∈ changedGprs last ctx, i < 31 :=
  fun _ h => List.mem_range.mp (List.mem_filter.mp h).1

theorem changedVecs_lt {last ctx : LogArm64CpuContext} : ∀ i ∈ changedVecs last ctx, i < 32 :=
  fun _ h => List.mem_range.mp (List.mem_filter.mp h).1

theorem changedGprs_increasing (last ctx : LogArm64CpuContext) :
    (changedGprs last ctx).Pairwise (· < ·) := List.pairwise_lt_range.filter _

theorem changedVecs_increasing (last ctx : LogArm64CpuContext) :
    (changedVecs last ctx).Pairwise (· < ·) := List.pairwise_lt_range.filter _

/-- The writer's own assertions: at most five registers of either kind changed. -/
def WithinLimits (last ctx : LogArm64CpuContext) : Prop :=
  (changedGprs last ctx).length ≤ rpcNumChangedMax ∧
    (changedVecs last ctx).length ≤ rpcNumChangedMax

instance (last ctx : LogArm64CpuContext) : Decidable (WithinLimits last ctx) :=
  inferInstanceAs (Decidable (_ ∧ _))

theorem filter_xDiff (last ctx : LogArm64CpuContext) :
    (List.range 31).filter (xDiff last ctx).getLsbD = changedGprs last ctx := by
  apply List.filter_congr
  intro i hi
  simp [getLsbD_xDiff, List.mem_range.mp hi]

theorem filter_vDiff (last ctx : LogArm64CpuContext) :
    (List.range 32).filter (vDiff last ctx).getLsbD = changedVecs last ctx := by
  apply List.filter_congr
  intro i hi
  rw [getLsbD_vDiff last ctx (List.mem_range.mp hi)]

theorem popcount_xDiff (last ctx : LogArm64CpuContext) :
    popcount (xDiff last ctx) = (changedGprs last ctx).length := by
  have top : (xDiff last ctx).getLsbD 31 = false := (getLsbD_xDiff last ctx 31).trans (by simp)
  rw [popcount, List.range_succ, List.countP_append, List.countP_eq_length_filter, filter_xDiff,
    List.countP_singleton, top]
  rfl

theorem popcount_vDiff (last ctx : LogArm64CpuContext) :
    popcount (vDiff last ctx) = (changedVecs last ctx).length := by
  rw [popcount, List.countP_eq_length_filter, filter_vDiff]

theorem writeChanged_eq (diff : Uint32) (value : Nat → List Uint8) (n : Nat) (changed : Uint32)
    (buf : List Uint8) : writeChanged diff value n changed buf =
      (setRegIdxs changed 0 ((List.range n).filter diff.getLsbD),
        buf ++ ((List.range n).filter diff.getLsbD).flatMap value,
        ((List.range n).filter diff.getLsbD).length) := by
  have enter : ∀ (is : List Nat) (changed : Uint32) (buf : List Uint8) (k : Nat),
      is.foldl (fun (changed, buf, idx) i => (rpcSetRegIdx changed idx (BitVec.ofNat 32 i),
        buf ++ value i, idx + 1)) (changed, buf, k) =
      (setRegIdxs changed k is, buf ++ is.flatMap value, k + is.length) := by
    intro is
    induction is with
    | nil => simp [setRegIdxs]
    | cons i is ih =>
      intro changed buf k
      rw [List.foldl_cons, ih]
      simp [setRegIdxs, Nat.add_comm, Nat.add_left_comm]
  have filtered := enter ((List.range n).filter diff.getLsbD) changed buf 0
  rw [List.foldl_filter, Nat.zero_add] at filtered
  exact filtered

namespace Delta

/-- What the writer logs when `cur` follows `last`. -/
def between (last cur : LogArm64CpuContext) (fits : WithinLimits last cur) : Delta where
  pc := if cur.pc = last.pc + 4 then none else some cur.pc
  sp := if cur.sp = last.sp then none else some cur.sp
  gprs := (changedGprs last cur).map fun i => (i, cur.slot i)
  vecs := (changedVecs last cur).map fun i => (i, cur.vec i)
  gprs_few := by simpa using fits.1
  vecs_few := by simpa using fits.2
  gprs_reg := by
    rintro r hr
    obtain ⟨i, hi, rfl⟩ := List.mem_map.mp hr
    exact changedGprs_lt i hi
  vecs_reg := by
    rintro r hr
    obtain ⟨i, hi, rfl⟩ := List.mem_map.mp hr
    exact changedVecs_lt i hi

section
variable {last cur : LogArm64CpuContext} (fits : WithinLimits last cur)

theorem map_gprs_between : (between last cur fits).gprs.map Prod.fst = changedGprs last cur := by
  simp only [between, List.map_map, Function.comp_def, List.map_id']

theorem map_vecs_between : (between last cur fits).vecs.map Prod.fst = changedVecs last cur := by
  simp only [between, List.map_map, Function.comp_def, List.map_id']

end

theorem nextPc_between {last cur : LogArm64CpuContext} (fits : WithinLimits last cur) :
    (between last cur fits).nextPc last.pc = cur.pc := by
  simp only [nextPc, between]
  split
  · exact (‹cur.pc = last.pc + 4›).symm
  · rfl

/-- Applied to any context with `last`'s registers, the message yields `cur`'s. -/
theorem apply_between {last cur c : LogArm64CpuContext} (fits : WithinLimits last cur)
    (same : c.SameRegisters last) : ((between last cur fits).apply c).SameRegisters cur ∧
      ((between last cur fits).apply c).nzcv = c.nzcv ∧
      ((between last cur fits).apply c).pc = (between last cur fits).pc.getD c.pc := by
  let fixed : LogArm64CpuContext := { c with
    pc := (between last cur fits).pc.getD c.pc, sp := (between last cur fits).sp.getD c.sp }
  let gprs := (changedGprs last cur).foldl (fun c i => c.setSlot i (cur.slot i)) fixed
  have shape : (between last cur fits).apply c =
      (changedVecs last cur).foldl (fun c i => c.setVec i (cur.vec i)) gprs := by
    simp only [apply, gprs, fixed, between, List.foldl_map]
  obtain ⟨v, result⟩ := LogArm64CpuContext.foldl_setVec_frame gprs cur.vec (changedVecs last cur)
  obtain ⟨pc, sp, nzcv, vecs⟩ :=
    LogArm64CpuContext.foldl_setSlot_frame fixed cur.slot (@changedGprs_lt last cur)
  have keptSp : fixed.sp = cur.sp := by
    simp only [fixed, between]
    split
    · exact same.sp.trans (‹cur.sp = last.sp›).symm
    · rfl
  have slots : ∀ i < 31, gprs.slot i = cur.slot i := by
    intro i hi
    simp only [gprs, LogArm64CpuContext.slot_foldl_setSlot fixed cur changedGprs_lt i hi]
    split
    · rfl
    · have unchanged : cur.slot i = last.slot i := by
        simpa [changedGprs, hi] using ‹i ∉ changedGprs last cur›
      rw [unchanged]
      exact LogArm64CpuContext.slot_congr same.x same.fp same.lr hi
  have vectors : ∀ i < 32, ((between last cur fits).apply c).vec i = cur.vec i := by
    intro i hi
    rw [shape, LogArm64CpuContext.vec_foldl_setVec gprs cur _ i hi]
    split
    · rfl
    · have unchanged : cur.vec i = last.vec i := by
        simpa [changedVecs, hi] using ‹i ∉ changedVecs last cur›
      rw [unchanged, LogArm64CpuContext.vec_congr vecs]
      exact LogArm64CpuContext.vec_congr same.v i
  rw [shape, result] at vectors ⊢
  refine ⟨LogArm64CpuContext.sameRegisters_of_slots (sp.trans keptSp) (fun i hi => ?_) vectors,
    nzcv, pc⟩
  rw [← slots i hi]
  refine LogArm64CpuContext.slot_congr ?_ ?_ ?_ hi <;> rfl

end Delta

/-- The assembled buffer is the encoded delta, and the assertions are the only failures. -/
theorem msgBuf_eq (last ctx : LogArm64CpuContext) : msgBuf last ctx =
    if fits : WithinLimits last ctx then some (Delta.between last ctx fits).bytes else none := by
  have branched : ctx.pc - last.pc ≠ 4 ↔ ¬ctx.pc = last.pc + 4 := by
    bv_omega
  have moved : ctx.sp - last.sp ≠ 0 ↔ ¬ctx.sp = last.sp := by
    bv_omega
  simp only [msgBuf, popcount_xDiff, popcount_vDiff, writeChanged_eq, filter_xDiff, filter_vDiff,
    branched, moved]
  by_cases fits : WithinLimits last ctx
  · obtain ⟨gprs, vecs⟩ := fits
    rw [dif_pos ⟨gprs, vecs⟩]
    simp only [gprs, vecs, if_true, Delta.bytes, Delta.gprWord, Delta.vecWord, changeWord,
      changeHeader, Delta.between, List.map_map, List.flatMap_map, Function.comp_def,
      List.map_id']
    by_cases pc : ctx.pc = last.pc + 4 <;> by_cases sp : ctx.sp = last.sp <;>
      simp only [pc, sp, not_true, not_false_eq_true, if_true, if_false, Delta.optBytes,
        Option.isSome_none, Option.isSome_some, List.append_assoc, List.nil_append,
        Bool.false_eq_true]
  · rw [dif_neg fits]
    by_cases gprs : (changedGprs last ctx).length ≤ rpcNumChangedMax
    · have vecs : ¬(changedVecs last ctx).length ≤ rpcNumChangedMax := fun h => fits ⟨gprs, h⟩
      simp [gprs, vecs]
    · simp [gprs]

end XnuTrace
