import XnuTrace.PackedArray
import Mathlib.Data.Nat.GCD.Basic

/-! The unsigned vectors of 33 to 63 bits, whose elements are split over two 64-bit words.
An element that ends just at a word boundary has its last bit in the low word, but the
code takes the next word for the high one and splits off no bits for it. -/
namespace XnuTrace
open Memory BitBuffer

namespace NonAtomicSplitBitVectorImpl

theorem castTo_self {w : Nat} (x : BitVec w) : castTo false w x = x := BitVec.setWidth_eq x

section
variable {nbits : Nat} (large : 33 ≤ nbits) (small : nbits ≤ 63)
include large small

theorem intN_eq : intN nbits = 64 := by
  rw [intN, if_neg (by omega), if_neg (by omega), if_neg (by omega), if_pos (by omega)]

variable {idx : Nat} (index : nbits * (idx + 1) < 2 ^ 64)
include index

theorem lo_spec : loWordIdx nbits idx = nbits * idx / 64 ∧
    loInnerBitIdx nbits idx = nbits * idx % 64 := by
  rw [Nat.mul_succ] at index
  unfold loInnerBitIdx loWordIdx loBitIdx
  rw [intN_eq large small, sizeT_of_lt (by omega)]
  omega

theorem hi_spec : hiWordIdx nbits idx = (nbits * idx + nbits) / 64 := by
  have next : idx + 1 < 2 ^ 64 := lt_of_le_of_lt (Nat.le_mul_of_pos_left _ (by omega)) index
  unfold hiWordIdx hiBitIdx
  rw [intN_eq large small, sizeT_of_lt next, sizeT_of_lt index, Nat.mul_succ]

/-- The counts of an element that straddles two words. -/
theorem num_spec (straddles : loWordIdx nbits idx ≠ hiWordIdx nbits idx) :
    numLoBits nbits idx = 64 - nbits * idx % 64 ∧
      numHiBits nbits idx = nbits * idx % 64 + nbits - 64 ∧ 64 ≤ nbits * idx % 64 + nbits := by
  obtain ⟨lo, inner⟩ := lo_spec large small index
  rw [lo, hi_spec large small index] at straddles
  unfold numHiBits numLoBits
  rw [intN_eq large small, inner]
  omega

theorem ptr_spec : loWordIdx nbits idx * (intN nbits / 8) = nbits * idx / 64 * 8 ∧
    hiWordIdx nbits idx * (intN nbits / 8) = (nbits * idx + nbits) / 64 * 8 := by
  rw [(lo_spec large small index).1, hi_spec large small index, intN_eq large small]
  exact ⟨rfl, rfl⟩

omit index in
/-- A value that fits is the same in a word. -/
theorem getLsbD_word {val : Uint64} (value : Fits nbits val) (k : Nat) :
    (val.setWidth (intN nbits)).getLsbD k = val.getLsbD k := by
  have word := intN_eq large small
  rw [BitVec.getLsbD_setWidth]
  by_cases low : k < nbits
  · simp [show k < intN nbits by omega]
  · simp [getLsbD_eq_false val value k (by omega)]

/-- An element inside one word. -/
theorem set_writes_single {buf : List Byte} {val : Uint64} (value : Fits nbits val)
    (inside : (nbits * idx + nbits) / 64 * 8 + 8 ≤ buf.length)
    (single : loWordIdx nbits idx = hiWordIdx nbits idx) :
    ∃ buf', set false nbits buf idx val = some buf' ∧
      Writes buf buf' (nbits * idx) nbits val.getLsbD := by
  have word := intN_eq large small
  obtain ⟨lo, inner⟩ := lo_spec large small index
  obtain ⟨loPtr, hiPtr⟩ := ptr_spec large small index
  have hi := hi_spec large small index
  have bits := getLsbD_word large small value
  have room : loInnerBitIdx nbits idx + nbits ≤ intN nbits := by omega
  obtain ⟨_, x, buf', loaded, inserted, stored, written⟩ := update_spec false
    (val.setWidth (intN nbits)) (by omega) room (by omega)
    (show intN nbits % 8 = 0 by omega)
    (show loWordIdx nbits idx * (intN nbits / 8) + intN nbits / 8 ≤ buf.length by omega)
    fun k hk => by rw [castTo_self, bits, getLsbD_eq_false val value k hk]
  refine ⟨buf', ?_, ?_⟩
  · simp only [set, if_pos single, loaded, inserted, Option.bind_eq_bind, Option.bind_some]
    exact stored
  · rw [show 8 * (loWordIdx nbits idx * (intN nbits / 8)) + loInnerBitIdx nbits idx =
      nbits * idx by omega] at written
    exact written.congr fun k _ => by rw [castTo_self, bits]

/-- An element in two words. -/
theorem set_writes_straddling {buf : List Byte} {val : Uint64} (value : Fits nbits val)
    (between : (nbits * idx + nbits) % 64 ≠ 0)
    (inside : (nbits * idx + nbits) / 64 * 8 + 8 ≤ buf.length)
    (straddles : loWordIdx nbits idx ≠ hiWordIdx nbits idx) :
    ∃ buf', set false nbits buf idx val = some buf' ∧
      Writes buf buf' (nbits * idx) nbits val.getLsbD := by
  have word := intN_eq large small
  obtain ⟨lo, inner⟩ := lo_spec large small index
  obtain ⟨loPtr, hiPtr⟩ := ptr_spec large small index
  have hi := hi_spec large small index
  have bits := getLsbD_word large small value
  have bytewise : intN nbits % 8 = 0 := by omega
  have inLo : loWordIdx nbits idx * (intN nbits / 8) + intN nbits / 8 ≤ buf.length := by omega
  obtain ⟨numLo, numHi, past⟩ := num_spec large small index straddles
  have roomLo : loInnerBitIdx nbits idx + numLoBits nbits idx ≤ intN nbits := by omega
  have roomHi : 0 + numHiBits nbits idx ≤ intN nbits := by omega
  obtain ⟨mask, masked, maskBits⟩ := bitMask_spec (show 1 ≤ numLoBits nbits idx by omega)
    (show 0 + numLoBits nbits idx ≤ intN nbits by omega) (by omega)
  have shifted := shr_eq false (val.setWidth (intN nbits))
    (show numLoBits nbits idx < max (intN nbits) 32 by omega)
  have loBits : ∀ k, (val.setWidth (intN nbits) &&& mask).getLsbD k =
      (decide (k < numLoBits nbits idx) && val.getLsbD k) := by
    intro k
    rw [BitVec.getLsbD_and, bits]
    by_cases inWord : k < intN nbits
    · rw [maskBits k inWord, Bool.and_comm]
      congr 1
      exact decide_eq_decide.mpr (by omega)
    · simp [BitVec.getLsbD_of_ge mask k (by omega), show ¬ k < numLoBits nbits idx by omega]
  have hiBits : ∀ k, (val.setWidth (intN nbits) >>> numLoBits nbits idx).getLsbD k =
      val.getLsbD (numLoBits nbits idx + k) := fun k => by
    rw [BitVec.getLsbD_ushiftRight, bits]
  obtain ⟨_, x, mid, loaded, inserted, stored, written⟩ := update_spec false
    (val.setWidth (intN nbits) &&& mask) (by omega) roomLo (by omega) bytewise inLo
    fun k hk => by simp [castTo_self, loBits, show ¬ k < numLoBits nbits idx by omega]
  have inHi : hiWordIdx nbits idx * (intN nbits / 8) + intN nbits / 8 ≤ mid.length := by
    have := written.1
    omega
  obtain ⟨_, y, buf', loaded', inserted', stored', written'⟩ := update_spec false
    (val.setWidth (intN nbits) >>> numLoBits nbits idx) (by omega) roomHi (by omega) bytewise
    inHi fun k hk => by rw [castTo_self, hiBits, getLsbD_eq_false val value _ (by omega)]
  refine ⟨buf', ?_, ?_⟩
  · simp only [set, if_neg straddles, masked, shifted, loaded, inserted, stored, loaded',
      Option.bind_eq_bind, Option.bind_some, Bool.false_eq_true, if_false]
    rw [inserted']
    exact stored'
  · rw [show 8 * (loWordIdx nbits idx * (intN nbits / 8)) + loInnerBitIdx nbits idx =
      nbits * idx by omega] at written
    rw [show 8 * (hiWordIdx nbits idx * (intN nbits / 8)) + 0 =
      nbits * idx + numLoBits nbits idx by omega] at written'
    have low : Writes buf mid (nbits * idx) (numLoBits nbits idx) val.getLsbD :=
      written.congr fun k hk => by rw [castTo_self, loBits, decide_eq_true hk, Bool.true_and]
    have whole := low.append (written'.congr fun k _ => by rw [castTo_self, hiBits])
    rwa [show numLoBits nbits idx + numHiBits nbits idx = nbits by omega] at whole

theorem set_writes {buf : List Byte} {val : Uint64} (value : Fits nbits val)
    (between : (nbits * idx + nbits) % 64 ≠ 0)
    (inside : (nbits * idx + nbits) / 64 * 8 + 8 ≤ buf.length) :
    ∃ buf', set false nbits buf idx val = some buf' ∧
      Writes buf buf' (nbits * idx) nbits val.getLsbD := by
  by_cases single : loWordIdx nbits idx = hiWordIdx nbits idx
  · exact set_writes_single large small index value inside single
  · exact set_writes_straddling large small index value between inside single

omit index in
theorem getLsbD_castTo (x : BitVec (intN nbits)) (k : Nat) :
    (castTo false 64 x).getLsbD k = x.getLsbD k := by
  have word := intN_eq large small
  rw [castTo, if_neg (by decide), BitVec.getLsbD_setWidth]
  by_cases low : k < 64
  · simp [low]
  · simp [BitVec.getLsbD_of_ge x k (by omega)]

theorem get_field_single {buf : List Byte}
    (inside : (nbits * idx + nbits) / 64 * 8 + 8 ≤ buf.length)
    (single : loWordIdx nbits idx = hiWordIdx nbits idx) :
    ∃ x, get false nbits buf idx = some x ∧
      ∀ k, x.getLsbD k = (decide (k < nbits) && bit buf (nbits * idx + k)) := by
  have word := intN_eq large small
  obtain ⟨lo, inner⟩ := lo_spec large small index
  obtain ⟨loPtr, _⟩ := ptr_spec large small index
  have hi := hi_spec large small index
  have bytewise : intN nbits % 8 = 0 := by omega
  have inLo : loWordIdx nbits idx * (intN nbits / 8) + intN nbits / 8 ≤ buf.length := by omega
  have room : loInnerBitIdx nbits idx + nbits ≤ intN nbits := by omega
  obtain ⟨_, x, loaded, extracted, bits⟩ := field_spec (by omega) room (by omega) bytewise inLo
  refine ⟨castTo false 64 x, ?_, fun k => ?_⟩
  · simp only [get, if_pos single, loaded, extracted, Option.bind_eq_bind, Option.bind_some,
      Bool.false_eq_true, if_false]
  · rw [getLsbD_castTo large small, bits, show 8 * (loWordIdx nbits idx * (intN nbits / 8)) +
      loInnerBitIdx nbits idx = nbits * idx by omega]

theorem get_field_straddling {buf : List Byte}
    (inside : (nbits * idx + nbits) / 64 * 8 + 8 ≤ buf.length)
    (straddles : loWordIdx nbits idx ≠ hiWordIdx nbits idx)
    (between : (nbits * idx + nbits) % 64 ≠ 0) :
    ∃ x, get false nbits buf idx = some x ∧
      ∀ k, x.getLsbD k = (decide (k < nbits) && bit buf (nbits * idx + k)) := by
  have word := intN_eq large small
  obtain ⟨lo, inner⟩ := lo_spec large small index
  obtain ⟨loPtr, hiPtr⟩ := ptr_spec large small index
  have hi := hi_spec large small index
  have bytewise : intN nbits % 8 = 0 := by omega
  have inLo : loWordIdx nbits idx * (intN nbits / 8) + intN nbits / 8 ≤ buf.length := by omega
  have inHi : hiWordIdx nbits idx * (intN nbits / 8) + intN nbits / 8 ≤ buf.length := by omega
  obtain ⟨numLo, numHi, beyond⟩ := num_spec large small index straddles
  obtain ⟨loWord, loaded⟩ := loadAt_eq_some inLo
  have shifted := shr_eq false loWord
    (show loInnerBitIdx nbits idx < max (intN nbits) 32 by omega)
  obtain ⟨_, x, loaded', extracted, bits⟩ := field_spec
    (show 1 ≤ numHiBits nbits idx by omega)
    (show 0 + numHiBits nbits idx ≤ intN nbits by omega) (by omega) bytewise inHi
  have shiftedHi := shl_eq x (show numLoBits nbits idx < max (intN nbits) 32 by omega)
  refine ⟨castTo false 64 (x <<< numLoBits nbits idx ||| loWord >>> loInnerBitIdx nbits idx),
    ?_, fun k => ?_⟩
  · simp only [get, if_neg straddles, loaded, shifted, loaded', extracted, shiftedHi,
      Option.bind_eq_bind, Option.bind_some, Bool.false_eq_true, if_false]
  · rw [getLsbD_castTo large small, BitVec.getLsbD_or, BitVec.getLsbD_shiftLeft,
      BitVec.getLsbD_ushiftRight, getLsbD_of_loadAt bytewise loaded, bits]
    rcases Nat.lt_or_ge k (numLoBits nbits idx) with low | high
    · simp [low, show k < nbits by omega, show loInnerBitIdx nbits idx + k < intN nbits by omega,
        show 8 * (loWordIdx nbits idx * (intN nbits / 8)) + (loInnerBitIdx nbits idx + k) =
          nbits * idx + k by omega]
    · rw [show 8 * (hiWordIdx nbits idx * (intN nbits / 8)) + 0 + (k - numLoBits nbits idx) =
        nbits * idx + k by omega]
      by_cases field : k < nbits
      · simp [field, show k < intN nbits by omega, show ¬ k < numLoBits nbits idx by omega,
          show k - numLoBits nbits idx < numHiBits nbits idx by omega,
          show ¬ loInnerBitIdx nbits idx + k < intN nbits by omega]
      · simp [field, show ¬ k - numLoBits nbits idx < numHiBits nbits idx by omega,
          show ¬ loInnerBitIdx nbits idx + k < intN nbits by omega]

theorem get_field {buf : List Byte} (between : (nbits * idx + nbits) % 64 ≠ 0)
    (inside : (nbits * idx + nbits) / 64 * 8 + 8 ≤ buf.length) :
    ∃ x, get false nbits buf idx = some x ∧
      ∀ k, x.getLsbD k = (decide (k < nbits) && bit buf (nbits * idx + k)) := by
  by_cases single : loWordIdx nbits idx = hiWordIdx nbits idx
  · exact get_field_single large small index inside single
  · exact get_field_straddling large small index inside single between

omit index

theorem inside_of_between {sz : Nat} (hidx : idx < sz) (bits : nbits * sz < 2 ^ 63)
    (between : (nbits * idx + nbits) % 64 ≠ 0) : nbits * (idx + 1) < 2 ^ 64 ∧
      (nbits * idx + nbits) / 64 * 8 + 8 ≤ roundupPow2Mul (byteSz nbits sz) 16 := by
  have next : nbits * (idx + 1) ≤ nbits * sz := Nat.mul_le_mul_left nbits hidx
  rw [Nat.mul_succ] at next ⊢
  rw [roundupPow2Mul_16]
  simp only [byteSz, intN_eq large small, sizeT]
  omega

/-- No bits of the element are in the high word, and the mask for them shifts by 64. -/
theorem set_eq_none {signed : Bool} {buf : List Byte} {val : Uint64}
    (index : nbits * (idx + 1) < 2 ^ 64) (ends : (nbits * idx + nbits) % 64 = 0) :
    set signed nbits buf idx val = none := by
  have word := intN_eq large small
  have straddles : loWordIdx nbits idx ≠ hiWordIdx nbits idx := by
    rw [(lo_spec large small index).1, hi_spec large small index]
    omega
  have numHi : numHiBits nbits idx = 0 := by
    have := num_spec large small index straddles
    omega
  have fault (orig val : BitVec (intN nbits)) :
      insertBits signed orig val 0 (numHiBits nbits idx) = none := by
    rw [numHi]
    exact insertBits_zero_eq_none signed orig val 0 (by omega) (by omega)
  simp only [set, if_neg straddles, fault, Option.bind_eq_bind, Option.bind_none,
    Option.bind_fun_none]

end

end NonAtomicSplitBitVectorImpl

/-- An element ends at a word boundary once there are `64 / gcd(nbits, 64)` of them. -/
theorem endsAtWord_iff (positive : 0 < nbits) (idx : Nat) :
    (nbits * idx + nbits) % 64 = 0 ↔ 64 / Nat.gcd nbits 64 ∣ idx + 1 := by
  have gcdPos : 0 < Nat.gcd nbits 64 := Nat.gcd_pos_of_pos_left 64 positive
  obtain ⟨k, hk⟩ := Nat.gcd_dvd_left nbits 64
  have whole : Nat.gcd nbits 64 * (64 / Nat.gcd nbits 64) = 64 :=
    Nat.mul_div_cancel' (Nat.gcd_dvd_right nbits 64)
  have apart : Nat.Coprime (64 / Nat.gcd nbits 64) (nbits / Nat.gcd nbits 64) :=
    (Nat.coprime_div_gcd_div_gcd gcdPos).symm
  have split : nbits = Nat.gcd nbits 64 * (nbits / Nat.gcd nbits 64) :=
    (Nat.mul_div_cancel' (Nat.gcd_dvd_left nbits 64)).symm
  rw [← Nat.mul_succ, ← Nat.dvd_iff_mod_eq_zero]
  calc 64 ∣ nbits * (idx + 1)
      ↔ Nat.gcd nbits 64 * (64 / Nat.gcd nbits 64) ∣
          Nat.gcd nbits 64 * (nbits / Nat.gcd nbits 64 * (idx + 1)) := by
        rw [whole, ← Nat.mul_assoc, ← split]
    _ ↔ 64 / Nat.gcd nbits 64 ∣ nbits / Nat.gcd nbits 64 * (idx + 1) :=
        Nat.mul_dvd_mul_iff_left gcdPos
    _ ↔ 64 / Nat.gcd nbits 64 ∣ idx + 1 := apart.dvd_mul_left

theorem split_array_of_lt (large : 33 ≤ nbits) (small : nbits ≤ 63)
    (few : sz < 64 / Nat.gcd nbits 64) : IsArray false nbits sz (Fits nbits) := by
  have most : sz < 64 := lt_of_lt_of_le few (Nat.div_le_self 64 _)
  have bits : nbits * sz ≤ 63 * 64 := Nat.mul_le_mul small most.le
  have between {idx : Nat} (hidx : idx < sz) : (nbits * idx + nbits) % 64 ≠ 0 := fun ends => by
    have := Nat.le_of_dvd (Nat.succ_pos idx) ((endsAtWord_iff (by omega) idx).mp ends)
    omega
  have packed : IsPackedArray false nbits sz (Fits nbits) := by
    refine isPackedArray_of_fields (bitVectorFactory_split false sz large small) rfl ?_ ?_
    · intro buf i x size hi value
      obtain ⟨index, inside⟩ := NonAtomicSplitBitVectorImpl.inside_of_between large small hi
        (by omega) (between hi)
      exact NonAtomicSplitBitVectorImpl.set_writes large small index value (between hi)
        (size ▸ inside)
    · intro buf j size hj
      obtain ⟨index, inside⟩ := NonAtomicSplitBitVectorImpl.inside_of_between large small hj
        (by omega) (between hj)
      exact NonAtomicSplitBitVectorImpl.get_field large small index (between hj) (size ▸ inside)
  exact packed.mono fun _ _ h => h.1

theorem not_runs_of_ends {post : BitVectorBase → (Nat → Uint64) → Prop} (large : 33 ≤ nbits)
    (small : nbits ≤ 63) (many : 64 / Nat.gcd nbits 64 ≤ sz) :
    ¬ Runs false nbits sz (Fits nbits) post := by
  have gcdPos : 0 < Nat.gcd nbits 64 := Nat.gcd_pos_of_pos_left 64 (by omega)
  have period : 0 < 64 / Nat.gcd nbits 64 :=
    Nat.div_pos (Nat.le_of_dvd (by decide) (Nat.gcd_dvd_right nbits 64)) gcdPos
  have last : 64 / Nat.gcd nbits 64 - 1 + 1 = 64 / Nat.gcd nbits 64 := Nat.sub_add_cancel period
  have index : nbits * (64 / Nat.gcd nbits 64) ≤ 63 * 64 :=
    Nat.mul_le_mul small (Nat.div_le_self 64 _)
  refine not_runs_of_fault (bitVectorFactory_split false sz large small)
    (show 64 / Nat.gcd nbits 64 - 1 < sz by omega) (fits_zero nbits)
    (NonAtomicSplitBitVectorImpl.set_eq_none large small ?_ ?_)
  · rw [last]
    omega
  · exact (endsAtWord_iff (by omega) _).mpr (last ▸ dvd_rfl)

/-- The split vectors are arrays just when no element ends at a word boundary. -/
theorem split_array_iff (nbits sz : Nat) (large : 33 ≤ nbits) (small : nbits ≤ 63) :
    IsArray false nbits sz (Fits nbits) ↔ sz < 64 / Nat.gcd nbits 64 := by
  constructor
  · intro runs
    by_contra many
    exact not_runs_of_ends large small (by omega) runs
  · exact split_array_of_lt large small

theorem split_array_iff_fortySeven :
    IsArray false 47 8 (Fits 47) ↔ 8 < 64 / Nat.gcd 47 64 :=
  split_array_iff 47 8 (by decide) (by decide)

/-- The fourth element of 48 bits ends with the third word. -/
theorem split_array_ends : ¬ IsArray false 48 4 (Fits 48) :=
  not_runs_of_ends (by decide) (by decide) (by decide)

end XnuTrace
