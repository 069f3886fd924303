import XnuTrace.LogStructs
import Mathlib.Data.Nat.Bitwise

/-! What a reader finds in a packed change word that was assembled by the setters:
the count in bits 29 to 31, the flags in bits 25 to 27 and the register indices in
five-bit fields from bit 0 on. -/
namespace XnuTrace

theorem and_one_shiftLeft_ne_zero (w : Uint32) (k : Nat) :
    (w &&& ((1 : Uint32) <<< k) != 0) = w.getLsbD k := by
  have twoPow : (1 : Uint32) <<< k = BitVec.twoPow 32 k := (BitVec.twoPow_eq 32 k).symm
  rw [twoPow, BitVec.and_twoPow]
  cases bit : w.getLsbD k with
  | false => simp
  | true =>
    have bound : k < 32 := BitVec.lt_of_getLsbD bit
    have nonzero : BitVec.twoPow 32 k ≠ 0 := by
      intro zero
      have := congrArg (fun x : Uint32 => x.getLsbD k) zero
      simp [bound] at this
    simpa using nonzero

theorem rpcPcBranched_eq (w : Uint32) : rpcPcBranched w = w.getLsbD 25 :=
  and_one_shiftLeft_ne_zero w 25

theorem rpcSpChanged_eq (w : Uint32) : rpcSpChanged w = w.getLsbD 26 :=
  and_one_shiftLeft_ne_zero w 26

theorem rpcSync_eq (w : Uint32) : rpcSync w = w.getLsbD 27 :=
  and_one_shiftLeft_ne_zero w 27

/-- Enters the indices `rs` at positions `k`, `k + 1` and so on. -/
def setRegIdxs (w : Uint32) : Nat → List Nat → Uint32
  | _, [] => w
  | k, r :: rs => setRegIdxs (rpcSetRegIdx w k (BitVec.ofNat 32 r)) (k + 1) rs

theorem getLsbD_rpcSetRegIdx (w : Uint32) (k r b : Nat) (hb : b < 32) :
    (rpcSetRegIdx w k (BitVec.ofNat 32 r)).getLsbD b =
      (w.getLsbD b || (decide (5 * k ≤ b) && r.testBit (b - 5 * k))) := by
  have low : b - 5 * k < 32 := by omega
  simp only [rpcSetRegIdx, BitVec.getLsbD_or, BitVec.getLsbD_shiftLeft, BitVec.getLsbD_ofNat,
    hb, low, decide_true, Bool.true_and]
  by_cases h : b < 5 * k
  · simp [h, Nat.not_le.mpr h]
  · simp [h, Nat.not_lt.mp h]

/-- Bit `b` of the word belongs to field `b / 5`, as bit `b % 5` of its index. -/
theorem getLsbD_setRegIdxs (w : Uint32) (k : Nat) (rs : List Nat) (small : ∀ r ∈ rs, r < 32)
    (b : Nat) (hb : b < 32) : (setRegIdxs w k rs).getLsbD b =
      (w.getLsbD b || (decide (5 * k ≤ b) && (rs.getD (b / 5 - k) 0).testBit (b % 5))) := by
  induction rs generalizing w k with
  | nil => simp [setRegIdxs]
  | cons r rs ih =>
    have hr : r < 32 := small r List.mem_cons_self
    rw [setRegIdxs, ih _ _ (fun r h => small r (List.mem_cons_of_mem _ h)),
      getLsbD_rpcSetRegIdx w k r b hb, Bool.or_assoc]
    congr 1
    rcases Nat.lt_trichotomy (b / 5) k with below | here | above
    · have h₁ : ¬5 * k ≤ b := by omega
      have h₂ : ¬5 * (k + 1) ≤ b := by omega
      simp [h₁, h₂]
    · have h₁ : 5 * k ≤ b := by omega
      have h₂ : ¬5 * (k + 1) ≤ b := by omega
      have field : b - 5 * k = b % 5 := by omega
      simp [h₁, h₂, here, field]
    · have h₁ : 5 * k ≤ b := by omega
      have h₂ : 5 * (k + 1) ≤ b := by omega
      have beyond : r.testBit (b - 5 * k) = false := by
        apply Nat.testBit_lt_two_pow
        calc r < 2 ^ 5 := hr
          _ ≤ 2 ^ (b - 5 * k) := Nat.pow_le_pow_right (by decide) (by omega)
      have index : b / 5 - k = (b / 5 - (k + 1)) + 1 := by omega
      simp [h₁, h₂, beyond, index]

/-- With at most five indices the fields end below the flags. -/
theorem getLsbD_setRegIdxs_high (w : Uint32) {rs : List Nat} (small : ∀ r ∈ rs, r < 32)
    (few : rs.length ≤ rpcNumChangedMax) {b : Nat} (high : 25 ≤ b) :
    (setRegIdxs w 0 rs).getLsbD b = w.getLsbD b := by
  by_cases hb : b < 32
  · have past : rs.length ≤ b / 5 - 0 := by simp only [rpcNumChangedMax] at few; omega
    rw [getLsbD_setRegIdxs w 0 rs small b hb, List.getD_eq_default _ _ past]
    simp
  · rw [BitVec.getLsbD_of_ge _ _ (by omega), BitVec.getLsbD_of_ge _ _ (by omega)]

theorem setRegIdxs_shiftRight (w : Uint32) {rs : List Nat} (small : ∀ r ∈ rs, r < 32)
    (few : rs.length ≤ rpcNumChangedMax) {k : Nat} (high : 25 ≤ k) :
    setRegIdxs w 0 rs >>> k = w >>> k := by
  apply BitVec.eq_of_getLsbD_eq
  intro b _
  rw [BitVec.getLsbD_ushiftRight, BitVec.getLsbD_ushiftRight,
    getLsbD_setRegIdxs_high w small few (by omega)]

/-- A field that no index was entered in is zero. -/
theorem rpcRegIdx_setRegIdxs_getD (w : Uint32) {rs : List Nat} (small : ∀ r ∈ rs, r < 32)
    (clear : ∀ b < 25, w.getLsbD b = false) {i : Nat} (hi : i < rpcNumChangedMax) :
    rpcRegIdx (setRegIdxs w 0 rs) i = BitVec.ofNat 32 (rs.getD i 0) := by
  simp only [rpcNumChangedMax] at hi
  have hr : rs.getD i 0 < 2 ^ 5 := by
    rw [List.getD_eq_getElem?_getD]
    cases entered : rs[i]? with
    | none => decide
    | some r => exact small r (List.mem_of_getElem? entered)
  have mask : (0b11111 : Uint32) = BitVec.ofNat 32 (2 ^ 5 - 1) := rfl
  apply BitVec.eq_of_getLsbD_eq
  intro b hb
  rw [rpcRegIdx, BitVec.getLsbD_and, BitVec.getLsbD_ushiftRight, mask, BitVec.getLsbD_ofNat,
    BitVec.getLsbD_ofNat, Nat.testBit_two_pow_sub_one]
  by_cases low : b < 5
  · have field : (5 * i + b) / 5 - 0 = i := by omega
    have bit : (5 * i + b) % 5 = b := by omega
    rw [getLsbD_setRegIdxs w 0 rs small _ (by omega), clear _ (by omega), field, bit]
    simp [low, hb]
  · have beyond : (rs.getD i 0).testBit b = false := by
      apply Nat.testBit_lt_two_pow
      exact hr.trans_le (Nat.pow_le_pow_right (by decide) (by omega))
    simp only [low, beyond, decide_false, Bool.and_false]

theorem rpcRegIdx_setRegIdxs (w : Uint32) {rs : List Nat} (small : ∀ r ∈ rs, r < 32)
    (few : rs.length ≤ rpcNumChangedMax) (clear : ∀ b < 25, w.getLsbD b = false)
    (i : Nat) (hi : i < rs.length) :
    rpcRegIdx (setRegIdxs w 0 rs) i = BitVec.ofNat 32 rs[i] := by
  rw [rpcRegIdx_setRegIdxs_getD w small clear (hi.trans_le few), List.getD_eq_getElem _ _ hi]

/-- The flags and the count before any index is entered. -/
def changeHeader (pcBranched spChanged : Bool) (numChanged : Nat) : Uint32 :=
  let w : Uint32 := 0
  let w := if pcBranched then rpcSetPcBranched w else w
  let w := if spChanged then rpcSetSpChanged w else w
  rpcSetNumChanged w (BitVec.ofNat 32 numChanged)

section
variable (pc sp : Bool) {n : Nat} {rs : List Nat}

theorem changeHeader_facts (few : n ≤ rpcNumChangedMax) :
    changeHeader pc sp n >>> 29 = BitVec.ofNat 32 n ∧
    (changeHeader pc sp n).getLsbD 25 = pc ∧ (changeHeader pc sp n).getLsbD 26 = sp ∧
    (changeHeader pc sp n).getLsbD 27 = false ∧
    rpcNumFixedChanged (changeHeader pc sp n) = BitVec.ofNat 32 (pc.toNat + sp.toNat) ∧
    ∀ b < 25, (changeHeader pc sp n).getLsbD b = false := by
  have every : ∀ n : Fin 6, ∀ pc sp : Bool,
      changeHeader pc sp n >>> 29 = BitVec.ofNat 32 n ∧
      (changeHeader pc sp n).getLsbD 25 = pc ∧ (changeHeader pc sp n).getLsbD 26 = sp ∧
      (changeHeader pc sp n).getLsbD 27 = false ∧
      rpcNumFixedChanged (changeHeader pc sp n) = BitVec.ofNat 32 (pc.toNat + sp.toNat) ∧
      ∀ b < 25, (changeHeader pc sp n).getLsbD b = false := by
    decide +kernel
  exact every ⟨n, Nat.lt_succ_of_le few⟩ pc sp

/-- A finished change word: the header with the indices of the changed registers. -/
def changeWord (pc sp : Bool) (rs : List Nat) : Uint32 :=
  setRegIdxs (changeHeader pc sp rs.length) 0 rs

variable (small : ∀ r ∈ rs, r < 32) (few : rs.length ≤ rpcNumChangedMax)
include small few

theorem rpcNumChanged_changeWord :
    rpcNumChanged (changeWord pc sp rs) = BitVec.ofNat 32 rs.length := by
  rw [rpcNumChanged, changeWord, setRegIdxs_shiftRight _ small few (by decide)]
  exact (changeHeader_facts pc sp few).1

theorem rpcPcBranched_changeWord : rpcPcBranched (changeWord pc sp rs) = pc := by
  rw [rpcPcBranched_eq, changeWord, getLsbD_setRegIdxs_high _ small few (by decide)]
  exact (changeHeader_facts pc sp few).2.1

theorem rpcSpChanged_changeWord : rpcSpChanged (changeWord pc sp rs) = sp := by
  rw [rpcSpChanged_eq, changeWord, getLsbD_setRegIdxs_high _ small few (by decide)]
  exact (changeHeader_facts pc sp few).2.2.1

theorem rpcSync_changeWord : rpcSync (changeWord pc sp rs) = false := by
  rw [rpcSync_eq, changeWord, getLsbD_setRegIdxs_high _ small few (by decide)]
  exact (changeHeader_facts pc sp few).2.2.2.1

theorem rpcNumFixedChanged_changeWord : rpcNumFixedChanged (changeWord pc sp rs) =
    BitVec.ofNat 32 (pc.toNat + sp.toNat) := by
  rw [rpcNumFixedChanged, changeWord, setRegIdxs_shiftRight _ small few (by decide),
    setRegIdxs_shiftRight _ small few (by decide)]
  exact (changeHeader_facts pc sp few).2.2.2.2.1

theorem rpcRegIdx_changeWord (i : Nat) (hi : i < rs.length) :
    rpcRegIdx (changeWord pc sp rs) i = BitVec.ofNat 32 rs[i] :=
  rpcRegIdx_setRegIdxs _ small few (changeHeader_facts pc sp few).2.2.2.2.2 i hi

theorem rpcRegIdx_changeWord_getD {i : Nat} (hi : i < rpcNumChangedMax) :
    rpcRegIdx (changeWord pc sp rs) i = BitVec.ofNat 32 (rs.getD i 0) :=
  rpcRegIdx_setRegIdxs_getD _ small (changeHeader_facts pc sp few).2.2.2.2.2 hi

end

theorem toNat_rpcRegIdx (w : Uint32) (i : Nat) :
    (rpcRegIdx w i).toNat = w.toNat / 2 ^ (5 * i) % 32 := by
  have mask : (0b11111 : Uint32).toNat = 2 ^ 5 - 1 := rfl
  rw [rpcRegIdx, BitVec.toNat_and, BitVec.toNat_ushiftRight, Nat.shiftRight_eq_div_pow, mask,
    Nat.and_two_pow_sub_one_eq_mod]

theorem toNat_rpcRegIdx_zero (w : Uint32) : (rpcRegIdx w 0).toNat = w.toNat % 32 := by
  rw [toNat_rpcRegIdx, Nat.mul_zero, Nat.pow_zero, Nat.div_one]

theorem toNat_rpcRegIdx_one (w : Uint32) : (rpcRegIdx w 1).toNat = w.toNat / 32 % 32 :=
  toNat_rpcRegIdx w 1

/-- At most five indices are entered, in increasing order, and the other fields are zero. -/
def PackedRegs (w : Uint32) : Prop :=
  (rpcNumChanged w).toNat ≤ rpcNumChangedMax ∧ ∀ i < rpcNumChangedMax,
    ((rpcNumChanged w).toNat ≤ i → rpcRegIdx w i = 0) ∧
      (i + 1 < (rpcNumChanged w).toNat → rpcRegIdx w i < rpcRegIdx w (i + 1))

instance (w : Uint32) : Decidable (PackedRegs w) := inferInstanceAs (Decidable (_ ∧ _))

/-- A scan of the registers in their order packs its word. -/
theorem packedRegs_changeWord (pc sp : Bool) {rs : List Nat} (small : ∀ r ∈ rs, r < 32)
    (few : rs.length ≤ rpcNumChangedMax) (increasing : rs.Pairwise (· < ·)) :
    PackedRegs (changeWord pc sp rs) := by
  have num : (rpcNumChanged (changeWord pc sp rs)).toNat = rs.length := by
    have bound : rs.length ≤ 5 := few
    rw [rpcNumChanged_changeWord pc sp small few, BitVec.toNat_ofNat]
    exact Nat.mod_eq_of_lt (by omega)
  rw [PackedRegs, num]
  refine ⟨few, fun i hi => ⟨fun unused => ?_, fun used => ?_⟩⟩
  · rw [rpcRegIdx_changeWord_getD pc sp small few hi, List.getD_eq_default _ _ unused]
    rfl
  · have both : rs[i] < rs[i + 1] := List.pairwise_iff_getElem.mp increasing _ _ _ _ i.lt_succ_self
    have bound : rs[i + 1] < 32 := small _ (List.getElem_mem used)
    rw [rpcRegIdx_changeWord pc sp small few i (by omega),
      rpcRegIdx_changeWord pc sp small few (i + 1) used, BitVec.lt_def, BitVec.toNat_ofNat,
      BitVec.toNat_ofNat, Nat.mod_eq_of_lt (by omega), Nat.mod_eq_of_lt (by omega)]
    exact both

end XnuTrace
