import XnuTrace.BitVector

/-! The unsigned vectors of less than 32 bits: the single-bit class and the class that
updates double words. Both keep their elements side by side in the buffer, as long as
the size of the buffer does not wrap. -/
namespace XnuTrace
open Memory BitBuffer

def Fits (nbits : Nat) (x : Uint64) : Prop := x.toNat < 2 ^ nbits

theorem fits_zero (nbits : Nat) : Fits nbits 0 := Nat.two_pow_pos nbits

/-- A field that is read out of a packed buffer is its element. -/
theorem eq_of_field {buf : List Byte} {f : Nat → Uint64} {x : Uint64} {i : Nat}
    (packed : Packed nbits sz buf f) (hi : i < sz) (value : Fits nbits (f i))
    (bits : ∀ k, x.getLsbD k = (decide (k < nbits) && bit buf (nbits * i + k))) : x = f i := by
  apply BitVec.eq_of_getLsbD_eq
  intro k _
  rw [bits k]
  by_cases low : k < nbits
  · rw [decide_eq_true low, Bool.true_and, packed i hi k low]
  · rw [getLsbD_eq_false (f i) value k (by omega)]
    simp [low]

namespace NonAtomicBitVectorImpl

theorem innerBitIdx_lt (large : 1 ≤ nbits) (small : nbits ≤ 64) (idx : Nat) :
    innerBitIdx nbits idx < intN nbits := by
  obtain ⟨-, -, word, -⟩ := intN_spec large small
  have := Nat.lt_div_mul_add (a := bitIdx nbits idx) (show 0 < intN nbits by omega)
  unfold innerBitIdx wordIdx
  omega

theorem bit_position (large : 1 ≤ nbits) (small : nbits ≤ 64) (idx : Nat) :
    8 * (wordIdx nbits idx * (intN nbits / 8)) + innerBitIdx nbits idx = bitIdx nbits idx := by
  obtain ⟨bytewise, -, -, -⟩ := intN_spec large small
  have whole : 8 * (intN nbits / 8) = intN nbits := by omega
  have := Nat.div_mul_le_self (bitIdx nbits idx) (intN nbits)
  rw [Nat.mul_left_comm, whole]
  unfold innerBitIdx wordIdx
  omega

section
variable {nbits : Nat} (large : 1 ≤ nbits) (small : nbits ≤ 31)
include large small

theorem dtBits_spec : dtBits nbits % 8 = 0 ∧ dtBits nbits ≤ 128 ∧
    ∀ idx, innerBitIdx nbits idx + nbits ≤ dtBits nbits := by
  obtain ⟨bytewise, wide, word, narrow⟩ := intN_spec large (show nbits ≤ 64 by omega)
  refine ⟨by unfold dtBits; omega, by unfold dtBits; omega, fun idx => ?_⟩
  have := innerBitIdx_lt large (show nbits ≤ 64 by omega) idx
  unfold dtBits
  omega

theorem set_writes {idx : Nat} {buf : List Byte} {val : Uint64} (value : Fits nbits val)
    (index : nbits * idx < 2 ^ 64)
    (inside : wordIdx nbits idx * (intN nbits / 8) + dtBits nbits / 8 ≤ buf.length) :
    ∃ buf', set false nbits buf idx val = some buf' ∧
      Writes buf buf' (nbits * idx) nbits val.getLsbD := by
  obtain ⟨bytewise, narrow, room⟩ := dtBits_spec large small
  obtain ⟨-, wide, -, -⟩ := intN_spec large (show nbits ≤ 64 by omega)
  have bits : ∀ k, (castTo false (dtBits nbits) (val.setWidth (intN nbits))).getLsbD k =
      val.getLsbD k := by
    intro k
    simp only [castTo, Bool.false_eq_true, if_false, BitVec.getLsbD_setWidth]
    by_cases low : k < nbits
    · simp [show k < dtBits nbits by have := room 0; omega, show k < intN nbits by omega]
    · simp [getLsbD_eq_false val value k (by omega)]
  obtain ⟨_, newDword, buf', loaded, inserted, stored, written⟩ := update_spec false
    (val.setWidth (intN nbits)) large (room idx) narrow bytewise inside fun k hk => by
      rw [bits, getLsbD_eq_false val value k hk]
  refine ⟨buf', ?_, ?_⟩
  · simp only [set, loaded, inserted, Option.bind_eq_bind, Option.bind_some]
    exact stored
  · rw [bit_position large (by omega), bitIdx, sizeT_of_lt index] at written
    simpa only [funext bits] using written

theorem get_field {idx : Nat} {buf : List Byte} (index : nbits * idx < 2 ^ 64)
    (inside : wordIdx nbits idx * (intN nbits / 8) + dtBits nbits / 8 ≤ buf.length) :
    ∃ x, get false nbits buf idx = some x ∧
      ∀ k, x.getLsbD k = (decide (k < nbits) && bit buf (nbits * idx + k)) := by
  obtain ⟨bytewise, narrow, room⟩ := dtBits_spec large small
  obtain ⟨-, wide, -, short⟩ := intN_spec large (show nbits ≤ 64 by omega)
  obtain ⟨_, x, loaded, extracted, bits⟩ := field_spec large (room idx) narrow bytewise inside
  refine ⟨(x.setWidth (intN nbits)).setWidth 64, ?_, fun k => ?_⟩
  · simp only [get, loaded, extracted, Option.bind_eq_bind, Option.bind_some,
      Bool.false_eq_true, if_false, castTo]
  · rw [BitVec.getLsbD_setWidth, BitVec.getLsbD_setWidth, bits, bit_position large (by omega),
      bitIdx, sizeT_of_lt index]
    by_cases low : k < nbits
    · simp [low, show k < 64 by omega, show k < intN nbits by omega]
    · simp [low]

theorem intN_cases : intN nbits = 8 ∧ nbits ≤ 8 ∨ intN nbits = 16 ∧ nbits ≤ 16 ∨
    intN nbits = 32 := by
  unfold intN
  split
  · omega
  · split
    · omega
    · rw [if_pos (by omega)]
      omega

/-- Room for the double word of every element, unless the size wraps. -/
theorem inside_of_lt {sz idx : Nat} (total : nbits * sz + intN nbits + dtBits nbits - 1 < 2 ^ 64)
    (hidx : idx < sz) : nbits * idx < 2 ^ 64 ∧
      wordIdx nbits idx * (intN nbits / 8) + dtBits nbits / 8 ≤
        roundupPow2Mul (byteSz nbits sz) 16 := by
  have next : nbits * (idx + 1) ≤ nbits * sz := Nat.mul_le_mul_left nbits hidx
  rw [Nat.mul_succ] at next
  rw [roundupPow2Mul_16]
  simp only [wordIdx, bitIdx, byteSz, dtBits, sizeT] at total ⊢
  obtain ⟨word, _⟩ | ⟨word, _⟩ | word := intN_cases large small <;> rw [word] at total ⊢ <;> omega

/-- When the size wraps, the double word of some element lies outside the buffer. -/
theorem outside_of_ge {sz : Nat} (nonempty : 1 ≤ sz)
    (total : 2 ^ 64 ≤ nbits * sz + intN nbits + dtBits nbits - 1) :
    ∃ idx < sz, roundupPow2Mul (byteSz nbits sz) 16 <
      wordIdx nbits idx * (intN nbits / 8) + dtBits nbits / 8 := by
  by_cases bits : nbits * sz < 2 ^ 64
  · refine ⟨sz - 1, by omega, ?_⟩
    have last : nbits * (sz - 1) + nbits = nbits * sz := by
      rw [← Nat.mul_succ, Nat.succ_eq_add_one, Nat.sub_add_cancel nonempty]
    rw [roundupPow2Mul_16]
    simp only [wordIdx, bitIdx, byteSz, dtBits, sizeT] at total ⊢
    obtain ⟨word, _⟩ | ⟨word, _⟩ | word := intN_cases large small <;> rw [word] at total ⊢ <;> omega
  · have below : nbits * ((2 ^ 64 - 1) / nbits) ≤ 2 ^ 64 - 1 := Nat.mul_div_le _ _
    have above := Nat.lt_mul_div_succ (2 ^ 64 - 1) (show 0 < nbits by omega)
    rw [Nat.mul_succ] at above
    refine ⟨(2 ^ 64 - 1) / nbits, Nat.div_lt_of_lt_mul (by omega), ?_⟩
    rw [roundupPow2Mul_16]
    simp only [wordIdx, bitIdx, byteSz, dtBits, sizeT] at total ⊢
    generalize nbits * ((2 ^ 64 - 1) / nbits) = start at *
    generalize nbits * sz = total at *
    obtain ⟨word, _⟩ | ⟨word, _⟩ | word := intN_cases large small <;> rw [word] <;> omega

end

theorem set_eq_none {idx : Nat} {buf : List Byte} {val : Uint64}
    (outside : buf.length < wordIdx nbits idx * (intN nbits / 8) + dtBits nbits / 8) :
    set signed nbits buf idx val = none := by
  simp only [set, loadAt_eq_none outside, Option.bind_eq_bind, Option.bind_none]

end NonAtomicBitVectorImpl

namespace NonAtomicSingleBitVectorImpl

theorem set_writes {idx : Nat} {buf : List Byte} {val : Uint64} (value : Fits 1 val)
    (inside : wordIdx idx + 1 ≤ buf.length) :
    ∃ buf', set buf idx val = some buf' ∧ Writes buf buf' (1 * idx) 1 val.getLsbD := by
  have room : innerBitIdx idx + 1 ≤ 8 := Nat.mod_lt idx (by decide)
  have bits : ∀ k, (castTo false 8 (val.setWidth 8)).getLsbD k = val.getLsbD k := by
    intro k
    simp only [castTo, Bool.false_eq_true, if_false, BitVec.getLsbD_setWidth]
    by_cases low : k < 1
    · simp [show k < 8 by omega]
    · simp [getLsbD_eq_false val value k (by omega)]
  obtain ⟨_, word, buf', loaded, inserted, stored, written⟩ := update_spec false
    (val.setWidth 8) le_rfl room (by decide) rfl inside fun k hk => by
      rw [bits, getLsbD_eq_false val value k hk]
  refine ⟨buf', ?_, ?_⟩
  · simp only [set, loaded, inserted, Option.bind_eq_bind, Option.bind_some]
    exact stored
  · rw [wordIdx, innerBitIdx, Nat.div_add_mod] at written
    rw [Nat.one_mul]
    simpa only [funext bits] using written

theorem get_field {idx : Nat} {buf : List Byte} (inside : wordIdx idx + 1 ≤ buf.length) :
    ∃ x, get buf idx = some x ∧
      ∀ k, x.getLsbD k = (decide (k < 1) && bit buf (1 * idx + k)) := by
  have room : innerBitIdx idx + 1 ≤ 8 := Nat.mod_lt idx (by decide)
  obtain ⟨_, x, loaded, extracted, bits⟩ := field_spec le_rfl room (by decide) rfl inside
  refine ⟨x.setWidth 64, ?_, fun k => ?_⟩
  · simp only [get, loaded, extracted, Option.bind_eq_bind, Option.bind_some]
  · rw [BitVec.getLsbD_setWidth, bits, wordIdx, innerBitIdx, Nat.div_add_mod, Nat.one_mul]
    by_cases low : k < 1
    · simp [low, show k < 64 by omega]
    · simp [low]

theorem roundupPow2Mul_8 (sz : Nat) : roundupPow2Mul sz 8 = sizeT (sz + 7) / 8 * 8 :=
  roundupPow2Mul_eq sz 3 (by decide)

theorem inside_of_lt {sz idx : Nat} (total : sz + 7 < 2 ^ 64) (hidx : idx < sz) :
    wordIdx idx + 1 ≤ roundupPow2Mul (byteSz sz) 16 := by
  rw [roundupPow2Mul_16, byteSz, roundupPow2Mul_8]
  unfold wordIdx sizeT
  omega

theorem empty_of_ge {sz : Nat} (size : sz < 2 ^ 64) (total : 2 ^ 64 ≤ sz + 7) :
    roundupPow2Mul (byteSz sz) 16 = 0 := by
  rw [roundupPow2Mul_16, byteSz, roundupPow2Mul_8]
  unfold sizeT
  omega

theorem set_eq_none {idx : Nat} {buf : List Byte} {val : Uint64}
    (outside : buf.length < wordIdx idx + 1) : set buf idx val = none := by
  have fault : loadAt 8 buf (wordIdx idx) = none := loadAt_eq_none outside
  simp only [set, fault, Option.bind_eq_bind, Option.bind_none]

end NonAtomicSingleBitVectorImpl

/-- An array whose element `i` is the bits from `i * nbits` to `(i + 1) * nbits`. -/
def IsPackedArray (signed : Bool) (nbits sz : Nat) (fits : Uint64 → Prop) : Prop :=
  Runs signed nbits sz fits fun bv f => bv.Holds sz fits f ∧ Packed nbits sz bv.mBuf f

/-- It is enough that assignments and reads are right on a packed buffer. -/
theorem isPackedArray_of {fits : Uint64 → Prop} {bv : BitVectorBase} {len : Nat}
    (made : bitVectorFactory signed nbits sz = some bv) (zero : bv.mBuf = List.replicate len 0)
    (zeroFits : fits 0)
    (write : ∀ {buf f i x}, buf.length = len → Packed nbits sz buf f → i < sz → fits x → ∃ buf',
      { bv with mBuf := buf }.setBuf i x = some buf' ∧ buf'.length = len ∧
        Packed nbits sz buf' (Function.update f i x))
    (read : ∀ {buf f j}, buf.length = len → Packed nbits sz buf f → j < sz → fits (f j) →
      { bv with mBuf := buf }.get j = some (f j)) :
    IsPackedArray signed nbits sz fits := by
  let kept (buf : List Byte) (f : Nat → Uint64) : Prop :=
    buf.length = len ∧ Packed nbits sz buf f ∧ ∀ j, fits (f j)
  have initial : kept bv.mBuf fun _ => 0 := by
    rw [zero]
    exact ⟨List.length_replicate, packed_zero _ _ _, fun _ => zeroFits⟩
  refine (runs_of_rel made initial (fun {buf f i x} ⟨size, packed, values⟩ hi value => ?_)
    (fun {buf f j} ⟨size, packed, values⟩ hj => read size packed hj (values j))).mono
      fun bv f h => ⟨h.1, h.2.2.1⟩
  obtain ⟨buf', stored, size', packed'⟩ := write size packed hi value
  refine ⟨buf', stored, size', packed', fun j => ?_⟩
  by_cases same : j = i
  · rw [same, Function.update_self]
    exact value
  · rw [Function.update_of_ne same]
    exact values j

/-- It is enough that an assignment writes just its field and that a read returns it. -/
theorem isPackedArray_of_fields {bv : BitVectorBase} {len : Nat}
    (made : bitVectorFactory false nbits sz = some bv) (zero : bv.mBuf = List.replicate len 0)
    (write : ∀ {buf i x}, buf.length = len → i < sz → Fits nbits x → ∃ buf',
      { bv with mBuf := buf }.setBuf i x = some buf' ∧
        Writes buf buf' (nbits * i) nbits x.getLsbD)
    (field : ∀ {buf j}, buf.length = len → j < sz → ∃ x,
      { bv with mBuf := buf }.get j = some x ∧
        ∀ k, x.getLsbD k = (decide (k < nbits) && bit buf (nbits * j + k))) :
    IsPackedArray false nbits sz (Fits nbits) := by
  refine isPackedArray_of made zero (fits_zero nbits) (fun {buf f i x} size packed hi value => ?_)
    (fun {buf f j} size packed hj value => ?_)
  · obtain ⟨buf', stored, written⟩ := write size hi value
    exact ⟨buf', stored, written.1.trans size, packed.set written⟩
  · obtain ⟨x, found, bits⟩ := field size hj
    rw [found, eq_of_field packed hj value bits]

theorem nonAtomic_packed (large : 2 ≤ nbits) (small : nbits ≤ 31) (h8 : nbits ≠ 8)
    (h16 : nbits ≠ 16) (total : nbits * sz + intN nbits +
      NonAtomicBitVectorImpl.dtBits nbits - 1 < 2 ^ 64) :
    IsPackedArray false nbits sz (Fits nbits) := by
  have room := @NonAtomicBitVectorImpl.inside_of_lt nbits (by omega) small sz
  refine isPackedArray_of_fields (bitVectorFactory_nonAtomic false sz large small h8 h16) rfl ?_ ?_
  · intro buf i x size hi value
    obtain ⟨index, inside⟩ := room total hi
    exact NonAtomicBitVectorImpl.set_writes (by omega) small value index (size ▸ inside)
  · intro buf j size hj
    obtain ⟨index, inside⟩ := room total hj
    exact NonAtomicBitVectorImpl.get_field (by omega) small index (size ▸ inside)

theorem single_packed (total : sz + 7 < 2 ^ 64) : IsPackedArray false 1 sz (Fits 1) := by
  refine isPackedArray_of_fields rfl rfl ?_ ?_
  · intro buf i x size hi value
    have inside := NonAtomicSingleBitVectorImpl.inside_of_lt total hi
    exact NonAtomicSingleBitVectorImpl.set_writes value (size ▸ inside)
  · intro buf j size hj
    have inside := NonAtomicSingleBitVectorImpl.inside_of_lt total hj
    exact NonAtomicSingleBitVectorImpl.get_field (size ▸ inside)

/-- `byte_sz` of the class behind an unsigned width below 32 does not wrap. -/
def ByteSzFits (nbits sz : Nat) : Prop :=
  if nbits = 1 then sz + 7 < 2 ^ 64
  else nbits * sz + intN nbits + NonAtomicBitVectorImpl.dtBits nbits - 1 < 2 ^ 64

instance (nbits sz : Nat) : Decidable (ByteSzFits nbits sz) :=
  inferInstanceAs (Decidable (if nbits = 1 then _ < _ else _ < _))

theorem not_runs_of_wrap {post : BitVectorBase → (Nat → Uint64) → Prop} (large : 1 ≤ nbits)
    (small : nbits ≤ 31) (h8 : nbits ≠ 8) (h16 : nbits ≠ 16) (nonempty : 1 ≤ sz)
    (size : sz < 2 ^ 64) (wraps : ¬ ByteSzFits nbits sz) :
    ¬ Runs false nbits sz (Fits nbits) post := by
  unfold ByteSzFits at wraps
  split at wraps
  · subst nbits
    have made : bitVectorFactory false 1 sz = some (.init .single false 1 sz) := rfl
    refine not_runs_of_fault made nonempty (fits_zero 1) ?_
    refine NonAtomicSingleBitVectorImpl.set_eq_none ?_
    have empty := NonAtomicSingleBitVectorImpl.empty_of_ge size (by omega)
    simp only [BitVectorBase.init, List.length_replicate, empty]
    omega
  · obtain ⟨idx, hidx, outside⟩ :=
      NonAtomicBitVectorImpl.outside_of_ge large small nonempty (by omega)
    refine not_runs_of_fault (bitVectorFactory_nonAtomic false sz (by omega) small h8 h16) hidx
      (fits_zero nbits) (NonAtomicBitVectorImpl.set_eq_none ?_)
    simpa only [BitVectorBase.init, List.length_replicate] using outside

/-- The vectors of unsigned widths below 32 are packed arrays just when their size in
bits does not wrap. -/
theorem unsigned_packed_iff (nbits sz : Nat) (large : 1 ≤ nbits) (small : nbits ≤ 31)
    (h8 : nbits ≠ 8) (h16 : nbits ≠ 16) (nonempty : 1 ≤ sz) (size : sz < 2 ^ 64) :
    IsPackedArray false nbits sz (Fits nbits) ↔ ByteSzFits nbits sz := by
  constructor
  · intro runs
    by_contra wraps
    exact not_runs_of_wrap large small h8 h16 nonempty size wraps runs
  · intro fits
    unfold ByteSzFits at fits
    split at fits
    · subst nbits
      exact single_packed fits
    · exact nonAtomic_packed (by omega) small h8 h16 fits

theorem unsigned_packed_iff_twelve :
    IsPackedArray false 12 8 (Fits 12) ↔ ByteSzFits 12 8 :=
  unsigned_packed_iff 12 8 (by decide) (by decide) (by decide) (by decide) (by decide)
    (by decide)

/-- Two bits for `2 ^ 63` elements: the size wraps to 16 bytes. -/
theorem unsigned_packed_wraps : ¬ IsPackedArray false 2 (2 ^ 63) (Fits 2) :=
  not_runs_of_wrap (by decide) (by decide) (by decide) (by decide) (by decide) (by decide)
    (by decide)

end XnuTrace
