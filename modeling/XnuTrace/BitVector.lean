import XnuTrace.Lib.BitBuffer
import XnuTrace.LogStructs
import Mathlib.Data.BitVec

/-! Packed bit vectors. Indexes and sizes are `size_t`, so they wrap at `2 ^ 64`; a shift
count that reaches the width of the promoted operand and an access outside the buffer
are both `none`. Element widths below 32 bits are promoted to `int` before a shift. -/
namespace XnuTrace
open Memory BitBuffer

def sizeT (n : Nat) : Nat := n % 2 ^ 64

/-- `sizeofbits` of `int_n<NBits, Signed>`. -/
def intN (nbits : Nat) : Nat :=
  if nbits ≤ 8 then 8 else if nbits ≤ 16 then 16 else if nbits ≤ 32 then 32
  else if nbits ≤ 64 then 64 else 128

def isPow2 (num : Uint8) : Bool := (List.range 8).countP num.getLsbD = 1

def roundupPow2Mul (num pow2Mul : Nat) : Nat :=
  let mask := pow2Mul - 1
  sizeT (num + mask) &&& (2 ^ 64 - 1 - mask)

def shl (x : BitVec w) (n : Nat) : Option (BitVec w) :=
  if n < max w 32 then some (x <<< n) else none

def shr (signed : Bool) (x : BitVec w) (n : Nat) : Option (BitVec w) :=
  if n < max w 32 then some (if signed then x.sshiftRight n else x >>> n) else none

/-- The value-preserving or truncating conversion from one integer type to another. -/
def castTo (signed : Bool) (w : Nat) (x : BitVec v) : BitVec w :=
  if signed then x.signExtend w else x.setWidth w

def bitMaskUnsafe (w nbits : Nat) : Option (BitVec w) :=
  shr false (BitVec.allOnes w) (sizeT (w + (2 ^ 64 - nbits)))

def bitMask (w sb nbits : Nat) : Option (BitVec w) := do shl (← bitMaskUnsafe w nbits) sb

def extractBits (signed : Bool) (val : BitVec w) (sb nbits : Nat) : Option (BitVec w) := do
  let shifted ← shr signed val sb
  let mask ← bitMask w 0 nbits
  some (shifted &&& mask)

/-- `insertVal` is converted to the word's type, its high bits are not masked out. -/
def insertBits (signed : Bool) (origVal : BitVec w) (insertVal : BitVec v) (sb nbits : Nat) :
    Option (BitVec w) := do
  let mask ← bitMask w sb nbits
  let shifted ← shl (castTo signed w insertVal) sb
  some (origVal &&& ~~~mask ||| shifted)

/-- The sign bit is made by a shift of an `int`. -/
def signExtend (val : BitVec w) (nbits : Nat) : Option (BitVec w) := do
  let one ← shl (1#32) (nbits - 1)
  let msb := castTo true w one
  some ((val ^^^ msb) - msb)

theorem sizeT_of_lt (small : n < 2 ^ 64) : sizeT n = n := Nat.mod_eq_of_lt small

theorem intN_spec (large : 1 ≤ nbits) (small : nbits ≤ 64) :
    intN nbits % 8 = 0 ∧ nbits ≤ intN nbits ∧ 8 ≤ intN nbits ∧ intN nbits ≤ 64 := by
  unfold intN
  repeat' split
  all_goals omega

theorem roundupPow2Mul_eq (num k : Nat) (hk : k ≤ 64) :
    roundupPow2Mul num (2 ^ k) = sizeT (num + (2 ^ k - 1)) / 2 ^ k * 2 ^ k := by
  have small : sizeT (num + (2 ^ k - 1)) < 2 ^ 64 := Nat.mod_lt _ (by decide)
  have mask : 2 ^ k - 1 < 2 ^ 64 := by
    have := Nat.pow_le_pow_right (by decide : 0 < 2) hk
    have := Nat.two_pow_pos k
    omega
  unfold roundupPow2Mul
  apply Nat.eq_of_testBit_eq
  intro i
  rw [Nat.testBit_and, show 2 ^ 64 - 1 - (2 ^ k - 1) = 2 ^ 64 - (2 ^ k - 1 + 1) by omega,
    Nat.testBit_two_pow_sub_succ mask, Nat.testBit_two_pow_sub_one, Nat.testBit_mul_two_pow,
    Nat.testBit_div_two_pow]
  by_cases low : i < k
  · simp [low, show ¬ k ≤ i by omega]
  · by_cases high : i < 64
    · simp [low, high, show k ≤ i by omega]
    · rw [Nat.testBit_lt_two_pow (lt_of_lt_of_le small (Nat.pow_le_pow_right (by decide) (by omega)))]
      simp [show k ≤ i by omega, Nat.testBit_lt_two_pow
        (lt_of_lt_of_le small (Nat.pow_le_pow_right (by decide) (show 64 ≤ i by omega)))]

theorem roundupPow2Mul_16 (byteSz : Nat) :
    roundupPow2Mul byteSz 16 = sizeT (byteSz + 15) / 16 * 16 :=
  roundupPow2Mul_eq byteSz 4 (by decide)

theorem shl_eq (x : BitVec w) (count : n < max w 32) : shl x n = some (x <<< n) := if_pos count

theorem shr_eq (signed : Bool) (x : BitVec w) (count : n < max w 32) :
    shr signed x n = some (if signed then x.sshiftRight n else x >>> n) := if_pos count

theorem bitMask_spec (large : 1 ≤ nbits) (fits : sb + nbits ≤ w) (word : w ≤ 128) :
    ∃ mask, bitMask w sb nbits = some mask ∧
      ∀ k < w, mask.getLsbD k = decide (sb ≤ k ∧ k < sb + nbits) := by
  have count : sizeT (w + (2 ^ 64 - nbits)) = w - nbits := by
    unfold sizeT
    omega
  refine ⟨BitVec.allOnes w >>> (w - nbits) <<< sb, ?_, fun k hk => ?_⟩
  · simp only [bitMask, bitMaskUnsafe, count, shr_eq false (BitVec.allOnes w)
      (show w - nbits < max w 32 by omega), Option.bind_eq_bind, Option.bind_some]
    exact shl_eq _ (by omega)
  · rw [BitVec.getLsbD_shiftLeft, BitVec.getLsbD_ushiftRight, BitVec.getLsbD_allOnes,
      decide_eq_true hk, Bool.true_and]
    by_cases low : k < sb
    · simp [low, show ¬ sb ≤ k by omega]
    · simp only [low, decide_false, Bool.not_false, Bool.true_and]
      exact decide_eq_decide.mpr (by omega)

theorem bitMask_zero_eq_none (word : 32 ≤ w) (small : w ≤ 128) (sb : Nat) :
    bitMask w sb 0 = none := by
  have count : sizeT (w + (2 ^ 64 - 0)) = w := by
    unfold sizeT
    omega
  have tooWide : bitMaskUnsafe w 0 = none := by
    rw [bitMaskUnsafe, count]
    exact if_neg (by omega)
  rw [bitMask, tooWide]
  rfl

theorem insertBits_zero_eq_none (signed : Bool) (orig : BitVec w) (val : BitVec v) (sb : Nat)
    (word : 32 ≤ w) (small : w ≤ 128) : insertBits signed orig val sb 0 = none := by
  rw [insertBits, bitMask_zero_eq_none word small]
  rfl

theorem extractBits_spec (val : BitVec w) (large : 1 ≤ nbits) (fits : sb + nbits ≤ w)
    (word : w ≤ 128) : ∃ x, extractBits false val sb nbits = some x ∧
      ∀ k, x.getLsbD k = (decide (k < nbits) && val.getLsbD (sb + k)) := by
  obtain ⟨mask, masked, bits⟩ := bitMask_spec large (show 0 + nbits ≤ w by omega) word
  refine ⟨val >>> sb &&& mask, ?_, fun k => ?_⟩
  · simp only [extractBits, shr_eq false val (show sb < max w 32 by omega), masked,
      Option.bind_eq_bind, Option.bind_some]
    rfl
  · rw [BitVec.getLsbD_and, BitVec.getLsbD_ushiftRight]
    by_cases inside : k < w
    · rw [bits k inside, Bool.and_comm]
      congr 1
      exact decide_eq_decide.mpr (by omega)
    · simp [BitVec.getLsbD_of_ge mask k (by omega), show ¬ k < nbits by omega]

theorem insertBits_spec (signed : Bool) (orig : BitVec w) (val : BitVec v) (large : 1 ≤ nbits)
    (fits : sb + nbits ≤ w) (word : w ≤ 128) :
    ∃ x, insertBits signed orig val sb nbits = some x ∧ ∀ k < w, x.getLsbD k =
      (orig.getLsbD k && !decide (sb ≤ k ∧ k < sb + nbits) ||
        decide (sb ≤ k) && (castTo signed w val).getLsbD (k - sb)) := by
  obtain ⟨mask, masked, bits⟩ := bitMask_spec large fits word
  refine ⟨orig &&& ~~~mask ||| castTo signed w val <<< sb, ?_, fun k hk => ?_⟩
  · simp only [insertBits, masked, shl_eq _ (show sb < max w 32 by omega),
      Option.bind_eq_bind, Option.bind_some]
  · rw [BitVec.getLsbD_or, BitVec.getLsbD_and, BitVec.getLsbD_not, BitVec.getLsbD_shiftLeft,
      bits k hk, decide_eq_true hk, Bool.true_and, Bool.true_and]
    congr 2
    by_cases low : k < sb
    · simp [low]
    · simp [low, show sb ≤ k by omega]

/-- A value without bits above the field replaces just the field. -/
theorem insertBits_fits (signed : Bool) (orig : BitVec w) (val : BitVec v) (large : 1 ≤ nbits)
    (fits : sb + nbits ≤ w) (word : w ≤ 128)
    (high : ∀ k, nbits ≤ k → (castTo signed w val).getLsbD k = false) :
    ∃ x, insertBits signed orig val sb nbits = some x ∧ ∀ k < w, x.getLsbD k =
      if sb ≤ k ∧ k < sb + nbits then (castTo signed w val).getLsbD (k - sb)
      else orig.getLsbD k := by
  obtain ⟨x, inserted, bits⟩ := insertBits_spec signed orig val large fits word
  refine ⟨x, inserted, fun k hk => ?_⟩
  rw [bits k hk]
  by_cases field : sb ≤ k ∧ k < sb + nbits
  · simp [field]
  · rw [if_neg field, decide_eq_false field]
    by_cases above : sb ≤ k
    · simp [high (k - sb) (by omega)]
    · simp [above]

/-- A field is read out of the word at byte `off`. -/
theorem field_spec {buf : List Byte} {off : Nat} (large : 1 ≤ nbits) (fits : sb + nbits ≤ w)
    (word : w ≤ 128) (bytewise : w % 8 = 0) (inside : off + w / 8 ≤ buf.length) :
    ∃ (val : BitVec w) (x : BitVec w), loadAt w buf off = some val ∧
      extractBits false val sb nbits = some x ∧
      ∀ k, x.getLsbD k = (decide (k < nbits) && bit buf (8 * off + sb + k)) := by
  obtain ⟨val, loaded⟩ := loadAt_eq_some inside
  obtain ⟨x, extracted, bits⟩ := extractBits_spec val large fits word
  refine ⟨val, x, loaded, extracted, fun k => ?_⟩
  rw [bits, getLsbD_of_loadAt bytewise loaded, ← Nat.add_assoc]
  by_cases low : k < nbits
  · simp [low, show sb + k < w by omega]
  · simp [low]

/-- A field is replaced in the word at byte `off`. -/
theorem update_spec (signed : Bool) {buf : List Byte} {off : Nat} (val : BitVec v)
    (large : 1 ≤ nbits) (fits : sb + nbits ≤ w) (word : w ≤ 128) (bytewise : w % 8 = 0)
    (inside : off + w / 8 ≤ buf.length)
    (high : ∀ k, nbits ≤ k → (castTo signed w val).getLsbD k = false) :
    ∃ (orig : BitVec w) (x : BitVec w) (buf' : List Byte), loadAt w buf off = some orig ∧
      insertBits signed orig val sb nbits = some x ∧ storeAt buf off x = some buf' ∧
      Writes buf buf' (8 * off + sb) nbits (castTo signed w val).getLsbD := by
  obtain ⟨orig, loaded⟩ := loadAt_eq_some inside
  obtain ⟨x, inserted, updated⟩ := insertBits_fits signed orig val large fits word high
  obtain ⟨buf', stored⟩ := storeAt_eq_some x inside
  exact ⟨orig, x, buf', loaded, inserted, stored,
    writes_of_update bytewise loaded stored fits updated⟩

theorem getLsbD_eq_false (x : BitVec w) (small : x.toNat < 2 ^ n) (k : Nat) (hk : n ≤ k) :
    x.getLsbD k = false :=
  Nat.testBit_lt_two_pow (lt_of_lt_of_le small (Nat.pow_le_pow_right (by decide) hk))

namespace ExactBitVectorImpl

def byteSz (nbits sz : Nat) : Nat := sizeT (sz * nbits) / 8

def get (signed : Bool) (nbits : Nat) (buf : List Byte) (idx : Nat) : Option Uint64 := do
  let word ← loadAt nbits buf (idx * (nbits / 8))
  some (castTo signed 64 word)

def set (nbits : Nat) (buf : List Byte) (idx : Nat) (val : Uint64) : Option (List Byte) :=
  storeAt buf (idx * (nbits / 8)) (val.setWidth nbits)

end ExactBitVectorImpl

namespace NonAtomicSingleBitVectorImpl

def wordIdx (idx : Nat) : Nat := idx / 8
def innerBitIdx (idx : Nat) : Nat := idx % 8
def byteSz (sz : Nat) : Nat := roundupPow2Mul sz 8 / 8

/-- The word type is `uint8_t` whatever `Signed` is. -/
def get (buf : List Byte) (idx : Nat) : Option Uint64 := do
  let word ← loadAt 8 buf (wordIdx idx)
  let extracted ← extractBits false word (innerBitIdx idx) 1
  some (extracted.setWidth 64)

def set (buf : List Byte) (idx : Nat) (val : Uint64) : Option (List Byte) := do
  let word ← loadAt 8 buf (wordIdx idx)
  let inserted ← insertBits false word (val.setWidth 8) (innerBitIdx idx) 1
  storeAt buf (wordIdx idx) inserted

end NonAtomicSingleBitVectorImpl

namespace NonAtomicBitVectorImpl

def dtBits (nbits : Nat) : Nat := 2 * intN nbits
def bitIdx (nbits idx : Nat) : Nat := sizeT (nbits * idx)
def wordIdx (nbits idx : Nat) : Nat := bitIdx nbits idx / intN nbits
def innerBitIdx (nbits idx : Nat) : Nat := bitIdx nbits idx - wordIdx nbits idx * intN nbits

def byteSz (nbits sz : Nat) : Nat :=
  let totalPackedBits := sizeT (nbits * sz)
  let writeTotalBitSz := sizeT (totalPackedBits + intN nbits + dtBits nbits - 1) /
    dtBits nbits * dtBits nbits
  writeTotalBitSz / 8

def get (signed : Bool) (nbits : Nat) (buf : List Byte) (idx : Nat) : Option Uint64 := do
  let mixedDword ← loadAt (dtBits nbits) buf (wordIdx nbits idx * (intN nbits / 8))
  let extracted ← extractBits false mixedDword (innerBitIdx nbits idx) nbits
  let extractedVal := extracted.setWidth (intN nbits)
  let res ← if signed then signExtend extractedVal nbits else some extractedVal
  some (castTo signed 64 res)

def set (signed : Bool) (nbits : Nat) (buf : List Byte) (idx : Nat) (val : Uint64) :
    Option (List Byte) := do
  let wptr := wordIdx nbits idx * (intN nbits / 8)
  let mixedDword ← loadAt (dtBits nbits) buf wptr
  let newMixedDword ← insertBits signed mixedDword (val.setWidth (intN nbits))
    (innerBitIdx nbits idx) nbits
  storeAt buf wptr newMixedDword

end NonAtomicBitVectorImpl

namespace NonAtomicSplitBitVectorImpl

def loBitIdx (nbits idx : Nat) : Nat := sizeT (nbits * idx)
def hiBitIdx (nbits idx : Nat) : Nat := sizeT (nbits * sizeT (idx + 1))
def loWordIdx (nbits idx : Nat) : Nat := loBitIdx nbits idx / intN nbits
def hiWordIdx (nbits idx : Nat) : Nat := hiBitIdx nbits idx / intN nbits
def loInnerBitIdx (nbits idx : Nat) : Nat := loBitIdx nbits idx - loWordIdx nbits idx * intN nbits

def byteSz (nbits sz : Nat) : Nat :=
  let totalPackedBits := sizeT (nbits * sz)
  let writeTotalBitSz := sizeT (totalPackedBits + intN nbits - 1) / intN nbits * intN nbits
  writeTotalBitSz / 8

/-- `num_lo_bits` and `num_hi_bits`, both `uint8_t`. -/
def numLoBits (nbits idx : Nat) : Nat := (intN nbits - loInnerBitIdx nbits idx) % 2 ^ 8
def numHiBits (nbits idx : Nat) : Nat := (nbits + (2 ^ 8 - numLoBits nbits idx)) % 2 ^ 8

def get (signed : Bool) (nbits : Nat) (buf : List Byte) (idx : Nat) : Option Uint64 := do
  let lwptr := loWordIdx nbits idx * (intN nbits / 8)
  let hwptr := hiWordIdx nbits idx * (intN nbits / 8)
  let lbidx := loInnerBitIdx nbits idx
  let lo ← loadAt (intN nbits) buf lwptr
  let extractedVal ←
    if loWordIdx nbits idx = hiWordIdx nbits idx then extractBits signed lo lbidx nbits
    else do
      let extractedValLo ← shr signed lo lbidx
      let hi ← loadAt (intN nbits) buf hwptr
      let extractedValHi ← extractBits signed hi 0 (numHiBits nbits idx)
      let shifted ← shl extractedValHi (numLoBits nbits idx)
      some (shifted ||| extractedValLo)
  let res ← if signed then signExtend extractedVal nbits else some extractedVal
  some (castTo signed 64 res)

def set (signed : Bool) (nbits : Nat) (buf : List Byte) (idx : Nat) (val : Uint64) :
    Option (List Byte) := do
  let lwptr := loWordIdx nbits idx * (intN nbits / 8)
  let hwptr := hiWordIdx nbits idx * (intN nbits / 8)
  let lbidx := loInnerBitIdx nbits idx
  let tVal := val.setWidth (intN nbits)
  if loWordIdx nbits idx = hiWordIdx nbits idx then
    let lo ← loadAt (intN nbits) buf lwptr
    storeAt buf lwptr (← insertBits signed lo tVal lbidx nbits)
  else
    let valLo := tVal &&& (← bitMask (intN nbits) 0 (numLoBits nbits idx))
    let valHi ← shr signed tVal (numLoBits nbits idx)
    let lo ← loadAt (intN nbits) buf lwptr
    let buf ← storeAt buf lwptr (← insertBits signed lo valLo lbidx (numLoBits nbits idx))
    let hi ← loadAt (intN nbits) buf hwptr
    storeAt buf hwptr (← insertBits signed hi valHi 0 (numHiBits nbits idx))

end NonAtomicSplitBitVectorImpl

/-- The class behind the pointer that the factory returns. -/
inductive BitVectorImpl
  | exact
  | single
  | nonAtomic
  | split
  deriving DecidableEq, Repr

structure BitVectorBase where
  impl : BitVectorImpl
  signed : Bool
  mNbits : Nat
  mSz : Nat
  mBuf : List Byte

namespace BitVectorBase

/-- The buffer is padded to 16 bytes and zeroed. -/
def init (impl : BitVectorImpl) (signed : Bool) (nbits sz : Nat) : BitVectorBase :=
  let byteSz := match impl with
    | .exact => ExactBitVectorImpl.byteSz nbits sz
    | .single => NonAtomicSingleBitVectorImpl.byteSz sz
    | .nonAtomic => NonAtomicBitVectorImpl.byteSz nbits sz
    | .split => NonAtomicSplitBitVectorImpl.byteSz nbits sz
  ⟨impl, signed, nbits, sz, List.replicate (roundupPow2Mul byteSz 16) 0⟩

def get (bv : BitVectorBase) (idx : Nat) : Option Uint64 :=
  match bv.impl with
  | .exact => ExactBitVectorImpl.get bv.signed bv.mNbits bv.mBuf idx
  | .single => NonAtomicSingleBitVectorImpl.get bv.mBuf idx
  | .nonAtomic => NonAtomicBitVectorImpl.get bv.signed bv.mNbits bv.mBuf idx
  | .split => NonAtomicSplitBitVectorImpl.get bv.signed bv.mNbits bv.mBuf idx

def setBuf (bv : BitVectorBase) (idx : Nat) (val : Uint64) : Option (List Byte) :=
  match bv.impl with
  | .exact => ExactBitVectorImpl.set bv.mNbits bv.mBuf idx val
  | .single => NonAtomicSingleBitVectorImpl.set bv.mBuf idx val
  | .nonAtomic => NonAtomicBitVectorImpl.set bv.signed bv.mNbits bv.mBuf idx val
  | .split => NonAtomicSplitBitVectorImpl.set bv.signed bv.mNbits bv.mBuf idx val

def set (bv : BitVectorBase) (idx : Nat) (val : Uint64) : Option BitVectorBase := do
  let mBuf ← bv.setBuf idx val
  some { bv with mBuf }

def setAll (bv : BitVectorBase) (ops : List (Nat × Uint64)) : Option BitVectorBase :=
  ops.foldlM (fun bv op => bv.set op.1 op.2) bv

theorem setAll_singleton {bv bv' : BitVectorBase} (run : bv.setAll [(i, x)] = some bv') :
    ∃ mBuf, bv.setBuf i x = some mBuf ∧ bv' = { bv with mBuf } := by
  have last : bv.set i x = some bv' := by simpa [setAll] using run
  obtain ⟨mBuf, stored, made⟩ := Option.bind_eq_some_iff.mp last
  exact ⟨mBuf, stored, (Option.some.inj made).symm⟩

end BitVectorBase

/-- `BitVectorFactory<Signed>(nbits, sz)` with `AtomicWrite = false` and `NBitsMax = 64`. -/
def bitVectorFactory (signed : Bool) (nbits sz : Nat) : Option BitVectorBase :=
  if ¬(0 < nbits ∧ nbits ≤ 64) then none
  else if nbits = 1 then some (.init .single signed nbits sz)
  else if 8 ≤ nbits ∧ nbits ≤ 64 ∧ isPow2 (BitVec.ofNat 8 nbits) then
    some (.init .exact signed nbits sz)
  else if nbits ≤ 32 then some (.init .nonAtomic signed nbits sz)
  else some (.init .split signed nbits sz)

namespace BitVectorBase

/-- `bv` is the array `f` of `sz` elements: every element is read, and an assignment
changes no other element. -/
def Holds (bv : BitVectorBase) (sz : Nat) (fits : Uint64 → Prop) (f : Nat → Uint64) : Prop :=
  (∀ j < sz, bv.get j = some (f j)) ∧ ∀ i < sz, ∀ x, fits x →
    ∃ bv', bv.set i x = some bv' ∧ ∀ j < sz, j ≠ i → bv'.get j = bv.get j

end BitVectorBase

/-- Every run of assignments to a new vector ends without a fault and with `post`. -/
def Runs (signed : Bool) (nbits sz : Nat) (fits : Uint64 → Prop)
    (post : BitVectorBase → (Nat → Uint64) → Prop) : Prop :=
  ∃ bv, bitVectorFactory signed nbits sz = some bv ∧
    ∀ ops : List (Nat × Uint64), (∀ op ∈ ops, op.1 < sz ∧ fits op.2) →
      ∃ bv', bv.setAll ops = some bv' ∧ post bv' (assigned ops)

def IsArray (signed : Bool) (nbits sz : Nat) (fits : Uint64 → Prop) : Prop :=
  Runs signed nbits sz fits fun bv f => bv.Holds sz fits f

theorem isPow2_iff : ∀ nbits < 65, 8 ≤ nbits → (isPow2 (BitVec.ofNat 8 nbits) = true ↔
    nbits = 8 ∨ nbits = 16 ∨ nbits = 32 ∨ nbits = 64) := by decide

theorem bitVectorFactory_nonAtomic (signed : Bool) (sz : Nat) (large : 2 ≤ nbits)
    (small : nbits ≤ 31) (h8 : nbits ≠ 8) (h16 : nbits ≠ 16) :
    bitVectorFactory signed nbits sz = some (.init .nonAtomic signed nbits sz) := by
  have packed : ¬(8 ≤ nbits ∧ nbits ≤ 64 ∧ isPow2 (BitVec.ofNat 8 nbits)) := fun h => by
    have := (isPow2_iff nbits (by omega) h.1).mp h.2.2
    omega
  rw [bitVectorFactory, if_neg (by omega), if_neg (by omega), if_neg packed, if_pos (by omega)]

theorem bitVectorFactory_split (signed : Bool) (sz : Nat) (large : 33 ≤ nbits)
    (small : nbits ≤ 63) :
    bitVectorFactory signed nbits sz = some (.init .split signed nbits sz) := by
  have packed : ¬(8 ≤ nbits ∧ nbits ≤ 64 ∧ isPow2 (BitVec.ofNat 8 nbits)) := fun h => by
    have := (isPow2_iff nbits (by omega) h.1).mp h.2.2
    omega
  rw [bitVectorFactory, if_neg (by omega), if_neg (by omega), if_neg packed, if_neg (by omega)]

theorem bitVectorFactory_exact (signed : Bool) (sz : Nat)
    (width : nbits = 8 ∨ nbits = 16 ∨ nbits = 32 ∨ nbits = 64) :
    bitVectorFactory signed nbits sz = some (.init .exact signed nbits sz) := by
  have pow2 := (isPow2_iff nbits (by omega) (by omega)).mpr width
  rw [bitVectorFactory, if_neg (by omega), if_neg (by omega), if_pos ⟨by omega, by omega, pow2⟩]

section
variable {signed : Bool} {nbits sz : Nat} {fits : Uint64 → Prop} {bv : BitVectorBase}
  (made : bitVectorFactory signed nbits sz = some bv)
include made

/-- A relation of the buffer to the array that every assignment keeps. -/
theorem runs_of_rel {rel : List Byte → (Nat → Uint64) → Prop}
    (initial : rel bv.mBuf fun _ => 0)
    (step : ∀ {buf f i x}, rel buf f → i < sz → fits x →
      ∃ buf', { bv with mBuf := buf }.setBuf i x = some buf' ∧ rel buf' (Function.update f i x))
    (read : ∀ {buf f j}, rel buf f → j < sz → { bv with mBuf := buf }.get j = some (f j)) :
    Runs signed nbits sz fits fun bv f => bv.Holds sz fits f ∧ rel bv.mBuf f := by
  let related (v : BitVectorBase) (f : Nat → Uint64) : Prop :=
    v = { bv with mBuf := v.mBuf } ∧ rel v.mBuf f
  have next : ∀ {v f i x}, related v f → i < sz ∧ fits x →
      ∃ v', v.set i x = some v' ∧ related v' (Function.update f i x) := by
    rintro v f i x ⟨same, related⟩ ⟨hi, hx⟩
    obtain ⟨buf', stored, related'⟩ := step related hi hx
    rw [← same] at stored
    refine ⟨{ v with mBuf := buf' }, by rw [BitVectorBase.set, stored]; rfl, ?_, related'⟩
    rw [same]
  refine ⟨bv, made, fun ops valid => ?_⟩
  have start : related bv fun _ => 0 := ⟨rfl, initial⟩
  obtain ⟨v, run, same, related⟩ := foldlM_assigned ops start next valid
  refine ⟨v, run, ⟨fun j hj => ?_, fun i hi x hx => ?_⟩, related⟩
  · rw [same]
    exact read related hj
  · obtain ⟨v', stored, same', related'⟩ := next ⟨same, related⟩ ⟨hi, hx⟩
    refine ⟨v', stored, fun j hj other => ?_⟩
    have after := read related' hj
    rw [← same', Function.update_of_ne other] at after
    rw [after, same]
    exact (read related hj).symm

theorem not_runs_of_fault {post : BitVectorBase → (Nat → Uint64) → Prop} {i : Nat} {x : Uint64}
    (index : i < sz) (value : fits x) (fault : bv.setBuf i x = none) :
    ¬ Runs signed nbits sz fits post := by
  rintro ⟨v, made', runs⟩
  obtain rfl : bv = v := Option.some.inj (made.symm.trans made')
  obtain ⟨v', run, -⟩ := runs [(i, x)] (by simpa using ⟨index, value⟩)
  simp [BitVectorBase.setAll, BitVectorBase.set, fault] at run

end

theorem Runs.mono {signed : Bool} {nbits sz : Nat} {fits : Uint64 → Prop}
    {post post' : BitVectorBase → (Nat → Uint64) → Prop} (imp : ∀ bv f, post bv f → post' bv f)
    (runs : Runs signed nbits sz fits post) : Runs signed nbits sz fits post' := by
  obtain ⟨bv, made, run⟩ := runs
  refine ⟨bv, made, fun ops valid => ?_⟩
  obtain ⟨bv', ran, holds⟩ := run ops valid
  exact ⟨bv', ran, imp bv' _ holds⟩

example : (do let bv ← bitVectorFactory false 12 8; let bv ← bv.set 3 0xabc; bv.get 3) =
    some 0xabc := by decide +kernel

end XnuTrace
