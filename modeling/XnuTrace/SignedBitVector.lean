import XnuTrace.PackedArray

/-! The signed vectors. Only those of whole words mask a negative value; the double-word
class ORs its sign bits into the neighbours, the single-bit class has no sign, and above
32 bits the mask of the sign bit is a shift of an `int` by too much. -/
namespace XnuTrace
open Memory BitBuffer

def FitsSigned (nbits : Nat) (x : Uint64) : Prop :=
  -2 ^ (nbits - 1) ≤ x.toInt ∧ x.toInt < 2 ^ (nbits - 1)

instance (nbits : Nat) (x : Uint64) : Decidable (FitsSigned nbits x) :=
  inferInstanceAs (Decidable (_ ∧ _))

theorem fitsSigned_zero (nbits : Nat) : FitsSigned nbits 0 := by
  have : (0 : Int) < 2 ^ (nbits - 1) := Int.pow_pos (by decide)
  refine ⟨?_, ?_⟩ <;> simp only [BitVec.toInt_zero, BitVec.ofNat_eq_ofNat] <;> omega

theorem fitsSigned_neg_one (nbits : Nat) : FitsSigned nbits (-1) := by
  have : (0 : Int) < 2 ^ (nbits - 1) := Int.pow_pos (by decide)
  have minus : (-1 : Uint64).toInt = -1 := by decide
  refine ⟨?_, ?_⟩ <;> omega

theorem toInt_emod (small : nbits ≤ 64) (x : Uint64) :
    x.toInt % (2 ^ nbits : Nat) = x.toNat % (2 ^ nbits : Nat) := by
  have whole : ((2 ^ nbits : Nat) : Int) ∣ (2 ^ 64 : Nat) :=
    Int.natCast_dvd_natCast.mpr (Nat.pow_dvd_pow 2 small)
  rw [BitVec.toInt_eq_toNat_bmod, ← Int.emod_emod_of_dvd _ whole, Int.bmod_emod,
    Int.emod_emod_of_dvd _ whole]

/-- The sign of a value of `nbits` bits comes back from its low bits. -/
theorem signExtend_setWidth (large : 1 ≤ nbits) (small : nbits ≤ 64) {x : Uint64}
    (value : FitsSigned nbits x) : (x.setWidth nbits).signExtend 64 = x := by
  apply BitVec.eq_of_toInt_eq
  have half : 2 ^ nbits = 2 * 2 ^ (nbits - 1) := by
    rw [← Nat.pow_succ', Nat.succ_eq_add_one, Nat.sub_add_cancel large]
  rw [BitVec.toInt_signExtend_of_le small, BitVec.toInt_setWidth,
    ← Int.emod_bmod, ← toInt_emod small, Int.emod_bmod]
  obtain ⟨low, high⟩ := value
  apply Int.bmod_eq_of_le <;> push_cast [half] <;> omega

theorem xor_two_pow (t a : Nat) (small : a < 2 ^ (t + 1)) :
    a ^^^ 2 ^ t = (2 ^ t + a) % 2 ^ (t + 1) := by
  apply Nat.eq_of_testBit_eq
  intro i
  rw [Nat.testBit_xor, Nat.testBit_mod_two_pow, Nat.testBit_two_pow]
  rcases Nat.lt_trichotomy i t with below | rfl | above
  · rw [Nat.testBit_two_pow_add_gt below]
    simp [show ¬ t = i by omega, show i < t + 1 by omega]
  · rw [Nat.testBit_two_pow_add_eq]
    simp
  · rw [Nat.testBit_lt_two_pow (lt_of_lt_of_le small (Nat.pow_le_pow_right (by decide) above))]
    simp [show ¬ t = i by omega, show ¬ i < t + 1 by omega]

theorem toNat_msb (fits : t < w) (positive : t < 31) :
    (castTo true w (1#32 <<< t)).toNat = 2 ^ t := by
  have word : 2 ^ t < 2 ^ w := Nat.pow_lt_pow_right (by decide) fits
  have half : 2 ^ t < 2 ^ 31 := Nat.pow_lt_pow_right (by decide) positive
  have shifted : (1#32 <<< t).toNat = 2 ^ t := by
    rw [BitVec.toNat_shiftLeft, BitVec.toNat_ofNat, Nat.shiftLeft_eq]
    omega
  have sign : (1#32 <<< t).msb = false := by
    rw [BitVec.msb_eq_false_iff_two_mul_lt, shifted]
    omega
  rw [castTo, if_pos rfl, BitVec.signExtend_eq_setWidth_of_msb_false sign, BitVec.toNat_setWidth,
    shifted, Nat.mod_eq_of_lt word]

/-- Up to 31 bits `sign_extend` returns the value whose low bits it is given. -/
theorem signExtend_spec (large : 1 ≤ nbits) (small : nbits < w) (narrow : w ≤ 64)
    (int : nbits ≤ 31) {x : Uint64} (value : FitsSigned nbits x) {y : BitVec w}
    (low : y.toNat = x.toNat % 2 ^ nbits) :
    ∃ r, signExtend y nbits = some r ∧ castTo true 64 r = x := by
  have next : nbits - 1 + 1 = nbits := Nat.sub_add_cancel large
  have half : 2 ^ nbits = 2 * 2 ^ (nbits - 1) := by rw [← Nat.pow_succ', Nat.succ_eq_add_one, next]
  have quarter : 2 * 2 ^ nbits ≤ 2 ^ w := by
    rw [← Nat.pow_succ']
    exact Nat.pow_le_pow_right (by decide) small
  have msb := toNat_msb (show nbits - 1 < w by omega) (show nbits - 1 < 31 by omega)
  have positive := Nat.two_pow_pos (nbits - 1)
  refine ⟨(y ^^^ castTo true w (1#32 <<< (nbits - 1))) - castTo true w (1#32 <<< (nbits - 1)),
    ?_, ?_⟩
  · simp only [signExtend, shl_eq 1#32 (show nbits - 1 < max 32 32 by omega), Option.bind_eq_bind,
      Option.bind_some]
  generalize castTo true w (1#32 <<< (nbits - 1)) = m at msb
  obtain ⟨least, most⟩ := value
  have moved : ((y ^^^ m).toNat : Int) = x.toInt + m.toNat := by
    have residue : ((2 ^ (nbits - 1) + x.toNat % 2 ^ nbits : Nat) : Int) % (2 ^ nbits : Nat) =
        (x.toInt + m.toNat) % (2 ^ nbits : Nat) := by
      rw [Int.add_emod x.toInt, toInt_emod (by omega), ← Int.add_emod, msb]
      push_cast
      rw [Int.add_comm, Int.emod_add_emod]
    rw [BitVec.toNat_xor, low, msb, xor_two_pow _ _ (by rw [next]; exact Nat.mod_lt _ (by omega)),
      next, Int.natCast_emod, residue, msb]
    refine Int.emod_eq_of_lt ?_ ?_ <;> push_cast [half] <;> omega
  have cast : ((2 ^ (nbits - 1) : Nat) : Int) = 2 ^ (nbits - 1) := by push_cast; rfl
  have small : (y ^^^ m).toNat < 2 ^ nbits := by omega
  apply BitVec.eq_of_toInt_eq
  rw [castTo, if_pos rfl, BitVec.toInt_signExtend_of_le narrow, BitVec.toInt_sub,
    BitVec.toInt_eq_toNat_of_lt (show 2 * (y ^^^ m).toNat < 2 ^ w by omega),
    BitVec.toInt_eq_toNat_of_lt (show 2 * m.toNat < 2 ^ w by omega), moved,
    Int.add_sub_cancel]
  apply Int.bmod_eq_of_le <;> omega

namespace ExactBitVectorImpl

section
variable {nbits : Nat} (width : nbits = 8 ∨ nbits = 16 ∨ nbits = 32 ∨ nbits = 64)
include width

theorem inside_iff {sz : Nat} (idx : Nat) (hidx : idx < sz) (bits : nbits * sz < 2 ^ 64) :
    idx * (nbits / 8) + nbits / 8 ≤ roundupPow2Mul (byteSz nbits sz) 16 := by
  have next : (idx + 1) * (nbits / 8) ≤ sz * (nbits / 8) := Nat.mul_le_mul_right _ hidx
  rw [roundupPow2Mul_16]
  simp only [byteSz, sizeT]
  rcases width with rfl | rfl | rfl | rfl <;> omega

theorem outside_of_ge {sz : Nat} (bits : 2 ^ 64 ≤ nbits * sz) :
    roundupPow2Mul (byteSz nbits sz) 16 < (sz - 1) * (nbits / 8) + nbits / 8 := by
  rw [roundupPow2Mul_16]
  simp only [byteSz, sizeT]
  rcases width with rfl | rfl | rfl | rfl <;> omega

theorem set_packed {buf : List Byte} {f : Nat → Uint64} {i : Nat} (x : Uint64)
    (inside : i * (nbits / 8) + nbits / 8 ≤ buf.length) (packed : Packed nbits sz buf f) :
    ∃ buf', set nbits buf i x = some buf' ∧ buf'.length = buf.length ∧
      Packed nbits sz buf' (Function.update f i x) := by
  obtain ⟨buf', stored⟩ := storeAt_eq_some (x.setWidth nbits) inside
  have written := writes_of_storeAt (by omega) stored
  have start : 8 * (i * (nbits / 8)) = nbits * i := by
    rcases width with rfl | rfl | rfl | rfl <;> omega
  rw [start] at written
  exact ⟨buf', stored, written.1, packed.set (written.congr fun k hk => by
    rw [BitVec.getLsbD_setWidth, decide_eq_true hk, Bool.true_and])⟩

theorem get_packed {buf : List Byte} {f : Nat → Uint64} {j : Nat} (hj : j < sz)
    (inside : j * (nbits / 8) + nbits / 8 ≤ buf.length) (packed : Packed nbits sz buf f)
    (value : FitsSigned nbits (f j)) : get true nbits buf j = some (f j) := by
  obtain ⟨word, loaded⟩ := loadAt_eq_some inside
  have start : 8 * (j * (nbits / 8)) = nbits * j := by
    rcases width with rfl | rfl | rfl | rfl <;> omega
  have low : word = (f j).setWidth nbits := by
    apply BitVec.eq_of_getLsbD_eq
    intro k hk
    rw [getLsbD_of_loadAt (by omega) loaded, start, packed j hj k hk, BitVec.getLsbD_setWidth]
  rw [low] at loaded
  simp only [get, loaded, Option.bind_eq_bind, Option.bind_some, castTo, if_true,
    signExtend_setWidth (show 1 ≤ nbits by omega) (show nbits ≤ 64 by omega) value]

end

end ExactBitVectorImpl

theorem exact_array (width : nbits = 8 ∨ nbits = 16 ∨ nbits = 32 ∨ nbits = 64)
    (bits : nbits * sz < 2 ^ 64) : IsPackedArray true nbits sz (FitsSigned nbits) := by
  refine isPackedArray_of (bitVectorFactory_exact true sz width) rfl (fitsSigned_zero nbits) ?_ ?_
  · intro buf f i x size packed hi _
    have inside := ExactBitVectorImpl.inside_iff width i hi bits
    obtain ⟨buf', stored, same, packed'⟩ :=
      ExactBitVectorImpl.set_packed width x (size ▸ inside) packed
    exact ⟨buf', stored, same.trans size, packed'⟩
  · intro buf f j size packed hj value
    have inside := ExactBitVectorImpl.inside_iff width j hj bits
    exact ExactBitVectorImpl.get_packed width hj (size ▸ inside) packed value

namespace NonAtomicBitVectorImpl

section
variable {nbits : Nat} (large : 2 ≤ nbits) (small : nbits ≤ 31) (h8 : nbits ≠ 8)
  (h16 : nbits ≠ 16)
include large small

theorem lt_intN (h8 : nbits ≠ 8) (h16 : nbits ≠ 16) : nbits < intN nbits := by
  obtain ⟨word, _⟩ | ⟨word, _⟩ | word := intN_cases (show 1 ≤ nbits by omega) small <;> omega

/-- The sign bit of an assigned value reaches the end of the double word. -/
theorem set_first {buf : List Byte} (x : Uint64) (inside : dtBits nbits / 8 ≤ buf.length) :
    ∃ buf', set true nbits buf 0 x = some buf' ∧ buf'.length = buf.length ∧
      ∀ k < dtBits nbits, bit buf' k = (bit buf k && !decide (k < nbits) ||
        (castTo true (dtBits nbits) (x.setWidth (intN nbits))).getLsbD k) := by
  obtain ⟨bytewise, narrow, room⟩ := dtBits_spec (show 1 ≤ nbits by omega) small
  have word : wordIdx nbits 0 * (intN nbits / 8) = 0 := by simp [wordIdx, bitIdx, sizeT]
  have inner : innerBitIdx nbits 0 = 0 := by simp [innerBitIdx, bitIdx, sizeT]
  obtain ⟨dword, loaded⟩ := loadAt_eq_some (show 0 + dtBits nbits / 8 ≤ buf.length by omega)
  obtain ⟨newDword, inserted, bits⟩ := insertBits_spec true dword (x.setWidth (intN nbits))
    (show 1 ≤ nbits by omega) (room 0) narrow
  obtain ⟨buf', stored⟩ := storeAt_eq_some newDword (show 0 + dtBits nbits / 8 ≤ buf.length by omega)
  obtain ⟨same, written⟩ := writes_of_storeAt bytewise stored
  refine ⟨buf', ?_, same, fun k hk => ?_⟩
  · simp only [set, word, loaded, inserted, Option.bind_eq_bind, Option.bind_some]
    exact stored
  · rw [written k, if_pos (by omega), Nat.mul_zero, Nat.sub_zero, bits k hk, inner,
      getLsbD_of_loadAt bytewise loaded, decide_eq_true hk]
    simp

theorem get_signed (h8 : nbits ≠ 8) (h16 : nbits ≠ 16) {idx : Nat} {buf : List Byte} {x : Uint64}
    (index : nbits * idx < 2 ^ 64)
    (inside : wordIdx nbits idx * (intN nbits / 8) + dtBits nbits / 8 ≤ buf.length)
    (value : FitsSigned nbits x) (bits : ∀ k < nbits, bit buf (nbits * idx + k) = x.getLsbD k) :
    get true nbits buf idx = some x := by
  obtain ⟨bytewise, narrow, room⟩ := dtBits_spec (show 1 ≤ nbits by omega) small
  obtain ⟨-, -, -, short⟩ := intN_spec (show 1 ≤ nbits by omega) (show nbits ≤ 64 by omega)
  have wide := lt_intN large small h8 h16
  obtain ⟨_, y, loaded, extracted, field⟩ :=
    field_spec (by omega) (room idx) narrow bytewise inside
  have low : (y.setWidth (intN nbits)).toNat = x.toNat % 2 ^ nbits := by
    apply Nat.eq_of_testBit_eq
    intro k
    rw [BitVec.testBit_toNat, BitVec.getLsbD_setWidth, field, Nat.testBit_mod_two_pow,
      BitVec.testBit_toNat, bit_position (show 1 ≤ nbits by omega) (by omega), bitIdx,
      sizeT_of_lt index]
    by_cases below : k < nbits
    · simp [below, bits k below, show k < intN nbits by omega]
    · simp [below]
  obtain ⟨r, extended, same⟩ := signExtend_spec (show 1 ≤ nbits by omega) wide short small value low
  simp only [get, loaded, extracted, extended, if_true, Option.bind_eq_bind, Option.bind_some, same]

end

end NonAtomicBitVectorImpl

/-- A single element is an array: nothing else is in its double word. -/
theorem nonAtomic_single_element (large : 2 ≤ nbits) (small : nbits ≤ 31) (h8 : nbits ≠ 8)
    (h16 : nbits ≠ 16) : IsPackedArray true nbits 1 (FitsSigned nbits) := by
  have total : nbits * 1 + intN nbits + NonAtomicBitVectorImpl.dtBits nbits - 1 < 2 ^ 64 := by
    have := intN_spec (show 1 ≤ nbits by omega) (show nbits ≤ 64 by omega)
    unfold NonAtomicBitVectorImpl.dtBits
    omega
  obtain ⟨index, inside⟩ := NonAtomicBitVectorImpl.inside_of_lt (show 1 ≤ nbits by omega) small
    total Nat.zero_lt_one
  obtain ⟨-, -, room⟩ := NonAtomicBitVectorImpl.dtBits_spec (show 1 ≤ nbits by omega) small
  obtain ⟨-, wide, -, -⟩ := intN_spec (show 1 ≤ nbits by omega) (show nbits ≤ 64 by omega)
  refine isPackedArray_of (bitVectorFactory_nonAtomic true 1 large small h8 h16) rfl
    (fitsSigned_zero nbits) ?_ ?_
  · intro buf f i x size packed hi _
    obtain rfl : i = 0 := by omega
    have room' : NonAtomicBitVectorImpl.dtBits nbits / 8 ≤ buf.length :=
      (Nat.le_add_left _ _).trans (inside.trans size.ge)
    obtain ⟨buf', stored, same, bits⟩ := NonAtomicBitVectorImpl.set_first large small x room'
    refine ⟨buf', stored, same.trans size, fun j hj k hk => ?_⟩
    obtain rfl : j = 0 := by omega
    have inDword := room 0
    rw [Nat.mul_zero, Nat.zero_add, Function.update_self, bits k (by omega), decide_eq_true hk,
      castTo, if_pos rfl, BitVec.getLsbD_signExtend, BitVec.getLsbD_setWidth]
    simp [show k < NonAtomicBitVectorImpl.dtBits nbits by omega, show k < intN nbits by omega]
  · intro buf f j size packed hj value
    obtain rfl : j = 0 := by omega
    exact NonAtomicBitVectorImpl.get_signed large small h8 h16 index (size ▸ inside) value
      (packed 0 hj)

theorem getLsbD_neg_one (narrow : w ≤ 64) (hk : k < d) :
    (castTo true d ((-1 : Uint64).setWidth w)).getLsbD k = decide (0 < w) := by
  have ones (i : Nat) : (-1 : Uint64).getLsbD i = decide (i < 64) := by
    rw [show (-1 : Uint64) = BitVec.allOnes 64 from rfl, BitVec.getLsbD_allOnes]
  rw [castTo, if_pos rfl, BitVec.getLsbD_signExtend, BitVec.msb_eq_getLsbD_last,
    BitVec.getLsbD_setWidth, BitVec.getLsbD_setWidth, ones, ones]
  by_cases low : k < w
  · simp [hk, low, show k < 64 by omega, show 0 < w by omega]
  · by_cases some : 0 < w
    · simp [hk, low, some, show w - 1 < 64 by omega]
    · simp [low, some]

/-- Two elements share their first double word: the sign of the one is read in the other. -/
theorem nonAtomic_neighbour (large : 2 ≤ nbits) (small : nbits ≤ 31) (h8 : nbits ≠ 8)
    (h16 : nbits ≠ 16) (many : 2 ≤ sz) : ¬ IsArray true nbits sz (FitsSigned nbits) := by
  rintro ⟨bv, made, runs⟩
  obtain rfl := Option.some.inj
    (made.symm.trans (bitVectorFactory_nonAtomic true sz large small h8 h16))
  obtain ⟨v, run, reads, -⟩ := runs [(0, -1)] (by
    simpa using ⟨show 0 < sz by omega, fitsSigned_neg_one nbits⟩)
  obtain ⟨buf, stored, rfl⟩ := BitVectorBase.setAll_singleton run
  obtain ⟨-, -, room⟩ := NonAtomicBitVectorImpl.dtBits_spec (show 1 ≤ nbits by omega) small
  obtain ⟨-, -, word, narrow⟩ := intN_spec (show 1 ≤ nbits by omega) (show nbits ≤ 64 by omega)
  have wide := NonAtomicBitVectorImpl.lt_intN large small h8 h16
  have first (i : Nat) (hi : i ≤ 1) :
      NonAtomicBitVectorImpl.wordIdx nbits i * (intN nbits / 8) = 0 := by
    have start : nbits * i < intN nbits :=
      lt_of_le_of_lt ((Nat.mul_le_mul_left nbits hi).trans_eq (Nat.mul_one nbits)) wide
    rw [NonAtomicBitVectorImpl.wordIdx, NonAtomicBitVectorImpl.bitIdx, sizeT_of_lt (by omega),
      Nat.div_eq_of_lt start, Nat.zero_mul]
  have inside : NonAtomicBitVectorImpl.dtBits nbits / 8 ≤
      (BitVectorBase.init .nonAtomic true nbits sz).mBuf.length := by
    by_contra outside
    have fault : NonAtomicBitVectorImpl.set true nbits
        (BitVectorBase.init .nonAtomic true nbits sz).mBuf 0 (-1) = none :=
      NonAtomicBitVectorImpl.set_eq_none (by rw [first 0 (by omega)]; omega)
    cases fault.symm.trans stored
  obtain ⟨buf', stored', same, bits⟩ := NonAtomicBitVectorImpl.set_first large small (-1) inside
  obtain rfl : buf' = buf := Option.some.inj (stored'.symm.trans stored)
  have second : NonAtomicBitVectorImpl.get true nbits buf' 1 = some (-1) := by
    refine NonAtomicBitVectorImpl.get_signed large small h8 h16 (by omega)
      (by rw [first 1 le_rfl]; omega) (fitsSigned_neg_one nbits) fun k hk => ?_
    have inDword := room 0
    have : nbits + k < NonAtomicBitVectorImpl.dtBits nbits := by
      unfold NonAtomicBitVectorImpl.dtBits
      omega
    rw [Nat.mul_one, bits _ this, getLsbD_neg_one narrow this,
      show (-1 : Uint64) = BitVec.allOnes 64 from rfl, BitVec.getLsbD_allOnes]
    simp [show 0 < intN nbits by omega, show k < 64 by omega]
  have read : NonAtomicBitVectorImpl.get true nbits buf' 1 = some 0 := reads 1 (by omega)
  exact absurd (Option.some.inj (second.symm.trans read)) (by decide)

/-- The single bit of `-1` is read as 1. -/
theorem single_no_sign (nonempty : 1 ≤ sz) : ¬ IsArray true 1 sz (FitsSigned 1) := by
  rintro ⟨bv, made, runs⟩
  obtain rfl := Option.some.inj (made.symm.trans (show _ = some (.init .single true 1 sz) from rfl))
  obtain ⟨v, run, reads, -⟩ := runs [(0, -1)] (by
    simpa using ⟨show 0 < sz by omega, fitsSigned_neg_one 1⟩)
  obtain ⟨buf, stored, rfl⟩ := BitVectorBase.setAll_singleton run
  have read : NonAtomicSingleBitVectorImpl.get buf 0 = some (-1) := reads 0 (by omega)
  obtain ⟨word, -, rest⟩ := Option.bind_eq_some_iff.mp read
  obtain ⟨x, extracted, bits⟩ := extractBits_spec word le_rfl
    (show NonAtomicSingleBitVectorImpl.innerBitIdx 0 + 1 ≤ 8 by decide) (by decide)
  obtain ⟨y, extracted', widened⟩ := Option.bind_eq_some_iff.mp rest
  obtain rfl : x = y := Option.some.inj (extracted.symm.trans extracted')
  have high : (x.setWidth 64).getLsbD 1 = true := by
    rw [Option.some.inj widened]
    decide
  simp only [BitVec.getLsbD_setWidth, bits, Nat.lt_irrefl, decide_false, Bool.false_and,
    Bool.and_false, Bool.false_eq_true] at high

/-- Above 32 bits the sign bit cannot be made. -/
theorem split_no_sign (large : 33 ≤ nbits) (small : nbits ≤ 63) (nonempty : 1 ≤ sz) :
    ¬ IsArray true nbits sz (FitsSigned nbits) := by
  rintro ⟨bv, made, runs⟩
  obtain rfl := Option.some.inj (made.symm.trans (bitVectorFactory_split true sz large small))
  obtain ⟨v, run, reads, -⟩ := runs [] (by simp)
  obtain rfl : BitVectorBase.init .split true nbits sz = v := Option.some.inj run
  have fault (val : BitVec (intN nbits)) : signExtend val nbits = none := by
    rw [signExtend, show shl (1#32) (nbits - 1) = none from if_neg (by omega)]
    rfl
  have read : NonAtomicSplitBitVectorImpl.get true nbits
      (BitVectorBase.init .split true nbits sz).mBuf 0 = some 0 := reads 0 (by omega)
  simp only [NonAtomicSplitBitVectorImpl.get, if_true, fault, Option.bind_eq_bind,
    Option.bind_none, Option.bind_fun_none] at read
  simp at read

/-- Whole words whose size does not wrap, and a single element of at most 31 bits. -/
def SignedOk (nbits sz : Nat) : Prop :=
  if nbits = 8 ∨ nbits = 16 ∨ nbits = 32 ∨ nbits = 64 then nbits * sz < 2 ^ 64
  else 2 ≤ nbits ∧ nbits ≤ 31 ∧ sz = 1

instance (nbits sz : Nat) : Decidable (SignedOk nbits sz) :=
  inferInstanceAs (Decidable (if nbits = 8 ∨ nbits = 16 ∨ nbits = 32 ∨ nbits = 64
    then _ < _ else _ ∧ _))

theorem exact_iff (width : nbits = 8 ∨ nbits = 16 ∨ nbits = 32 ∨ nbits = 64) (nonempty : 1 ≤ sz) :
    IsArray true nbits sz (FitsSigned nbits) ↔ nbits * sz < 2 ^ 64 := by
  constructor
  · intro array
    by_contra wraps
    refine not_runs_of_fault (bitVectorFactory_exact true sz width) (show sz - 1 < sz by omega)
      (fitsSigned_zero nbits) (storeAt_eq_none _ ?_) array
    have outside := ExactBitVectorImpl.outside_of_ge width (show 2 ^ 64 ≤ nbits * sz by omega)
    simpa only [BitVectorBase.init, List.length_replicate] using outside
  · intro bits
    exact (exact_array width bits).mono fun _ _ h => h.1

/-- Which of the signed vectors are arrays. -/
theorem signed_array_iff (nbits sz : Nat) (large : 1 ≤ nbits) (small : nbits ≤ 64)
    (nonempty : 1 ≤ sz) : IsArray true nbits sz (FitsSigned nbits) ↔ SignedOk nbits sz := by
  unfold SignedOk
  by_cases width : nbits = 8 ∨ nbits = 16 ∨ nbits = 32 ∨ nbits = 64
  · rw [if_pos width, exact_iff width nonempty]
  · rw [if_neg width]
    constructor
    · intro array
      by_contra bad
      by_cases one : nbits = 1
      · subst one
        exact single_no_sign nonempty array
      by_cases wide : 33 ≤ nbits
      · exact split_no_sign wide (by omega) nonempty array
      · exact nonAtomic_neighbour (by omega) (by omega) (by omega) (by omega) (by omega) array
    · rintro ⟨two, most, rfl⟩
      exact (nonAtomic_single_element two most (by omega) (by omega)).mono fun _ _ h => h.1

theorem signed_array_iff_word : IsArray true 32 8 (FitsSigned 32) ↔ SignedOk 32 8 :=
  signed_array_iff 32 8 (by decide) (by decide) (by decide)

/-- The width and the size of the unit test: its ascending order hides the neighbours. -/
theorem signed_array_neighbour : ¬ IsArray true 31 8 (FitsSigned 31) :=
  nonAtomic_neighbour (by decide) (by decide) (by decide) (by decide) (by decide)

end XnuTrace
