import XnuTrace.LogStructs
import XnuTrace.Lib.MergedRuns
import Mathlib.Data.List.Chain

/-! `subregions_for_sorted_pcs` of the Python package: the blocks that hold program counters, merged
into runs. The last run is dropped if it is the only one and starts at address 0, the value that
stands for no run. -/
namespace XnuTrace
open MergedRuns

namespace Python

def pow2RoundDown (n pow2 : Uint64) : Uint64 := n &&& ~~~(pow2 - 1)

def pow2RoundUp (n pow2 : Uint64) : Uint64 := pow2RoundDown n pow2 + pow2

inductive PyError where
  | indexError
  | valueError (message : String)
  | assertionError
deriving DecidableEq

/-- The variables of the loop in `subregions_for_sorted_pcs`. -/
structure SubregionLoop where
  subregions : List (Uint64 × Uint64)
  lastPc : Uint64
  thisSubregionBase : Uint64
  lastSubregionBase : Uint64
deriving DecidableEq

/-- The variables before the loop. -/
def SubregionLoop.start (subregionSz first : Uint64) : SubregionLoop where
  subregions := []
  lastPc := first
  thisSubregionBase := pow2RoundDown first subregionSz
  lastSubregionBase := 0

def SubregionLoop.step (subregionSz : Uint64) (s : SubregionLoop) (pc : Uint64) :
    Except PyError SubregionLoop :=
  let lastPcSubregionEnd := pow2RoundUp s.lastPc subregionSz
  let pcSubregionBegin := pow2RoundDown pc subregionSz
  if lastPcSubregionEnd - pcSubregionBegin = subregionSz then
    -- pc and last_pc are in the same subregion
    .ok { s with lastPc := pc }
  else if lastPcSubregionEnd > pcSubregionBegin then .error (.valueError "underflow")
  else if pcSubregionBegin - lastPcSubregionEnd ≥ subregionSz then
    let thisSubregionSize := lastPcSubregionEnd - s.thisSubregionBase
    .ok {
      subregions := s.subregions ++ [(s.thisSubregionBase, thisSubregionSize)]
      lastPc := pc
      thisSubregionBase := pcSubregionBegin
      lastSubregionBase := s.thisSubregionBase }
  else .ok { s with lastPc := pc }

/-- What the loop leaves. -/
def SubregionLoop.finish (subregionSz : Uint64) (s : SubregionLoop) : List (Uint64 × Uint64) :=
  if s.lastSubregionBase ≠ s.thisSubregionBase then
    let thisSubregionSize := pow2RoundUp s.lastPc subregionSz - s.thisSubregionBase
    s.subregions ++ [(s.thisSubregionBase, thisSubregionSize)]
  else s.subregions

def subregionsForSortedPcs (sortedPcs : List Uint64) (subregionSz : Uint64) :
    Except PyError (List (Uint64 × Uint64)) :=
  match sortedPcs with
  | [] => .error .indexError
  | first :: _ =>
    (sortedPcs.foldlM (SubregionLoop.step subregionSz) (.start subregionSz first)).map
      (SubregionLoop.finish subregionSz)

def verifySubregionsForSortedPcs (subregions : List (Uint64 × Uint64)) (sortedPcs : List Uint64) :
    Except PyError Unit :=
  let left := subregions.foldl (fun left (base, sz) =>
    left.filter fun pc => pc < base || pc ≥ base + sz) sortedPcs
  if left.length = 0 then .ok () else .error .assertionError

/-! What the subregions are to be. -/

/-- The addresses of a pair of a base and a size. -/
def extent (subregion : Uint64 × Uint64) : Nat × Nat :=
  (subregion.1.toNat, subregion.1.toNat + subregion.2.toNat)

/-- The addresses of the blocks that hold a program counter. -/
def touched (subregionSz : Uint64) (pcs : List Uint64) : Set Nat :=
  {x | ∃ pc ∈ pcs, x / subregionSz.toNat = pc.toNat / subregionSz.toNat}

/-- Two program counters in one block or in adjoining ones. -/
def NoGap (subregionSz : Uint64) (pc next : Uint64) : Prop :=
  next.toNat / subregionSz.toNat ≤ pc.toNat / subregionSz.toNat + 1

instance (subregionSz pc next : Uint64) : Decidable (NoGap subregionSz pc next) :=
  inferInstanceAs (Decidable (_ ≤ _))

/-- Aligned runs in increasing order with gaps between them, of exactly the touched blocks. -/
structure CoversExactly (subregionSz : Uint64) (pcs : List Uint64)
    (subregions : List (Uint64 × Uint64)) : Prop where
  aligned : ∀ r ∈ subregions, subregionSz.toNat ∣ r.1.toNat ∧ subregionSz.toNat ∣ r.2.toNat
  separated : Separated (subregions.map extent)
  covers : covered (subregions.map extent) = touched subregionSz pcs

/-- No error is raised, and the subregions cover exactly the touched blocks and are verified. -/
def SubregionsExact (sortedPcs : List Uint64) (subregionSz : Uint64) : Prop :=
  ∃ subregions, subregionsForSortedPcs sortedPcs subregionSz = .ok subregions ∧
    CoversExactly subregionSz sortedPcs subregions ∧
    verifySubregionsForSortedPcs subregions sortedPcs = .ok ()

namespace SubregionLoop

/-- The runs emitted so far, and the one that the loop is in. -/
def runs (subregionSz : Uint64) (s : SubregionLoop) : List (Nat × Nat) :=
  s.subregions.map extent ++ [(s.thisSubregionBase.toNat,
    s.lastPc.toNat / subregionSz.toNat * subregionSz.toNat + subregionSz.toNat)]

/-- The program counters up to the last one are merged into runs. -/
structure Scanned (subregionSz : Uint64) (first : Uint64) (pcs : List Uint64) (s : SubregionLoop) :
    Prop where
  last : pcs.getLast? = some s.lastPc
  aligned : ∀ r ∈ s.runs subregionSz, subregionSz.toNat ∣ r.1 ∧ subregionSz.toNat ∣ r.2
  separated : Separated (s.runs subregionSz)
  covers : covered (s.runs subregionSz) = touched subregionSz pcs
  gapless : s.subregions = [] ↔ pcs.IsChain (NoGap subregionSz)
  only : s.subregions = [] →
    s.lastSubregionBase = 0 ∧ s.thisSubregionBase = pow2RoundDown first subregionSz
  later : s.subregions ≠ [] → s.lastSubregionBase ≠ s.thisSubregionBase

end SubregionLoop

/-! Blocks. -/

section
variable {subregionSz : Uint64} {k : Nat} (pow2 : subregionSz.toNat = 2 ^ k)
include pow2

theorem toNat_pow2RoundDown (n : Uint64) :
    (pow2RoundDown n subregionSz).toNat = n.toNat / subregionSz.toNat * subregionSz.toNat := by
  have pos := Nat.two_pow_pos k
  have size := subregionSz.isLt
  have mask : (subregionSz - 1).toNat = 2 ^ k - 1 := by
    rw [BitVec.toNat_sub_of_le, pow2]
    · rfl
    · rw [BitVec.le_def, pow2]
      exact pos
  rw [pow2RoundDown, BitVec.toNat_and, BitVec.toNat_not, mask, pow2]
  apply Nat.eq_of_testBit_eq
  intro i
  rw [Nat.testBit_and, show 2 ^ 64 - 1 - (2 ^ k - 1) = 2 ^ 64 - (2 ^ k - 1 + 1) by omega,
    Nat.testBit_two_pow_sub_succ (by omega), Nat.testBit_two_pow_sub_one, Nat.testBit_mul_two_pow,
    Nat.testBit_div_two_pow]
  by_cases low : i < k
  · simp [low, show ¬ k ≤ i by omega]
  · by_cases high : i < 64
    · simp [low, high, show k ≤ i by omega]
    · have beyond : n.toNat.testBit i = false :=
        Nat.testBit_lt_two_pow (n.isLt.trans_le (Nat.pow_le_pow_right (by decide) (by omega)))
      simp [beyond, show k ≤ i by omega]

/-- The first block starts at the address that stands for no run. -/
theorem pow2RoundDown_eq_zero_iff (n : Uint64) :
    pow2RoundDown n subregionSz = 0 ↔ n < subregionSz := by
  have pos : 0 < subregionSz.toNat := pow2 ▸ Nat.two_pow_pos k
  rw [← BitVec.toNat_inj, toNat_pow2RoundDown pow2, BitVec.lt_def]
  change _ = 0 ↔ _
  rw [Nat.mul_eq_zero, Nat.div_eq_zero_iff]
  omega

/-- Below the last block of the address space the strict round-up does not wrap. -/
theorem toNat_pow2RoundUp {n : Uint64} (below : n.toNat < 2 ^ 64 - subregionSz.toNat) :
    (pow2RoundUp n subregionSz).toNat =
      n.toNat / subregionSz.toNat * subregionSz.toNat + subregionSz.toNat := by
  have down := Nat.div_mul_le_self n.toNat subregionSz.toNat
  rw [pow2RoundUp, BitVec.toNat_add, toNat_pow2RoundDown pow2]
  exact Nat.mod_eq_of_lt (by omega)

omit pow2 in
/-- A block is the last one, the next, or behind a gap of at least one block. -/
theorem block_cases {lastBlock block sz : Nat} (order : lastBlock ≤ block) :
    block = lastBlock ∧ block * sz = lastBlock * sz ∨
      block = lastBlock + 1 ∧ block * sz = lastBlock * sz + sz ∨
      lastBlock + 2 ≤ block ∧ lastBlock * sz + 2 * sz ≤ block * sz := by
  rcases Nat.lt_trichotomy block (lastBlock + 1) with near | next | far
  · have here : block = lastBlock := by omega
    exact .inl ⟨here, by rw [here]⟩
  · exact .inr (.inl ⟨next, by rw [next, Nat.succ_mul]⟩)
  · have apart : lastBlock + 2 ≤ block := far
    refine .inr (.inr ⟨apart, ?_⟩)
    rw [← Nat.add_mul]
    exact Nat.mul_le_mul_right _ apart

/-- The three cases of the loop: the same block, the next one, and a gap. -/
theorem SubregionLoop.step_eq {s : SubregionLoop} {pc : Uint64}
    (order : s.lastPc.toNat ≤ pc.toNat) (below : pc.toNat < 2 ^ 64 - subregionSz.toNat) :
    s.step subregionSz pc = .ok (
      if pc.toNat / subregionSz.toNat ≤ s.lastPc.toNat / subregionSz.toNat + 1 then
        { s with lastPc := pc }
      else {
        subregions := s.subregions ++
          [(s.thisSubregionBase, pow2RoundUp s.lastPc subregionSz - s.thisSubregionBase)]
        lastPc := pc
        thisSubregionBase := pow2RoundDown pc subregionSz
        lastSubregionBase := s.thisSubregionBase }) := by
  have pos : 0 < subregionSz.toNat := pow2 ▸ Nat.two_pow_pos k
  have stop := toNat_pow2RoundUp pow2 (order.trans_lt below)
  have start := toNat_pow2RoundDown pow2 pc
  have within := Nat.div_mul_le_self pc.toNat subregionSz.toNat
  have blocks := Nat.div_le_div_right (c := subregionSz.toNat) order
  dsimp only [step]
  generalize pow2RoundUp s.lastPc subregionSz = lastPcSubregionEnd at *
  generalize pow2RoundDown pc subregionSz = pcSubregionBegin at *
  generalize s.lastPc.toNat / subregionSz.toNat = lastBlock at *
  generalize pc.toNat / subregionSz.toNat = block at *
  have distance := @block_cases lastBlock block subregionSz.toNat blocks
  have same : lastPcSubregionEnd - pcSubregionBegin = subregionSz ↔ block = lastBlock := by
    rw [← BitVec.toNat_inj, BitVec.toNat_sub, stop, start]
    omega
  have underflow : ¬ lastPcSubregionEnd > pcSubregionBegin ∨ block = lastBlock := by
    rw [gt_iff_lt, BitVec.lt_def, stop, start]
    omega
  have gap : block ≠ lastBlock →
      (pcSubregionBegin - lastPcSubregionEnd ≥ subregionSz ↔ ¬ block ≤ lastBlock + 1) := by
    rw [ge_iff_le, BitVec.le_def, BitVec.toNat_sub, stop, start]
    omega
  by_cases here : block = lastBlock
  · rw [if_pos (same.mpr here), if_pos (by omega)]
  · rw [if_neg (mt same.mp here), if_neg (underflow.resolve_right here)]
    by_cases far : block ≤ lastBlock + 1
    · rw [if_neg (fun big => (gap here).mp big far), if_pos far]
    · rw [if_pos ((gap here).mpr far), if_neg far]

theorem mem_block {x block : Nat} :
    x ∈ Set.Ico (block * subregionSz.toNat) (block * subregionSz.toNat + subregionSz.toNat) ↔
      x / subregionSz.toNat = block := by
  have pos : 0 < subregionSz.toNat := pow2 ▸ Nat.two_pow_pos k
  rw [Nat.div_eq_iff pos, Set.mem_Ico]
  omega

theorem touched_concat (pcs : List Uint64) (pc : Uint64) : touched subregionSz (pcs ++ [pc]) =
    touched subregionSz pcs ∪ Set.Ico (pc.toNat / subregionSz.toNat * subregionSz.toNat)
      (pc.toNat / subregionSz.toNat * subregionSz.toNat + subregionSz.toNat) := by
  ext x
  rw [Set.mem_union, mem_block pow2]
  simp only [touched, Set.mem_ofPred_eq, List.mem_append, List.mem_singleton, or_and_right,
    exists_or, exists_eq_left]

namespace SubregionLoop
variable {first pc : Uint64} {pcs : List Uint64} {s : SubregionLoop}

theorem scanned_start (first : Uint64) :
    Scanned subregionSz first [first] (.start subregionSz first) := by
  have pos : 0 < subregionSz.toNat := pow2 ▸ Nat.two_pow_pos k
  have own := touched_concat pow2 [] first
  have nothing : touched subregionSz [] = ∅ := by simp [touched]
  rw [List.nil_append, nothing, Set.empty_union, ← toNat_pow2RoundDown pow2] at own
  have one : (start subregionSz first).runs subregionSz =
      [((pow2RoundDown first subregionSz).toNat,
        (pow2RoundDown first subregionSz).toNat + subregionSz.toNat)] := by
    rw [toNat_pow2RoundDown pow2, runs, start, toNat_pow2RoundDown pow2]
    rfl
  have aligned : subregionSz.toNat ∣ (pow2RoundDown first subregionSz).toNat :=
    toNat_pow2RoundDown pow2 first ▸ Nat.dvd_mul_left ..
  exact {
    last := rfl
    aligned := by
      rw [one, List.forall_mem_singleton]
      exact ⟨aligned, Nat.dvd_add aligned (dvd_refl _)⟩
    separated := by
      rw [one, ← List.nil_append [_], separated_concat]
      exact ⟨⟨by simp, .nil⟩, by omega, by simp⟩
    covers := by rw [one, covered_singleton, own]
    gapless := by simp [start]
    only := fun _ => ⟨rfl, rfl⟩
    later := fun some => absurd rfl some }

/-- The end of a run does not wrap. -/
theorem Scanned.extent_eq (scanned : Scanned subregionSz first pcs s)
    (below : s.lastPc.toNat < 2 ^ 64 - subregionSz.toNat) :
    extent (s.thisSubregionBase, pow2RoundUp s.lastPc subregionSz - s.thisSubregionBase) =
      (s.thisSubregionBase.toNat,
        s.lastPc.toNat / subregionSz.toNat * subregionSz.toNat + subregionSz.toNat) := by
  have stop := toNat_pow2RoundUp pow2 below
  have nonempty := (separated_concat.mp scanned.separated).2.1
  rw [extent, BitVec.toNat_sub_of_le (by rw [BitVec.le_def, stop]; exact nonempty.le), stop,
    Nat.add_sub_cancel' nonempty.le]

omit pow2 in
theorem Scanned.isChain_concat (scanned : Scanned subregionSz first pcs s) :
    (pcs ++ [pc]).IsChain (NoGap subregionSz) ↔
      pcs.IsChain (NoGap subregionSz) ∧ NoGap subregionSz s.lastPc pc := by
  rw [List.isChain_append, scanned.last]
  simp

/-- Without a gap the run that the loop is in goes on to the block of `pc`. -/
theorem Scanned.extend (scanned : Scanned subregionSz first pcs s)
    (order : s.lastPc.toNat ≤ pc.toNat) (near : NoGap subregionSz s.lastPc pc) :
    Scanned subregionSz first (pcs ++ [pc]) { s with lastPc := pc } := by
  have blocks := Nat.div_le_div_right (c := subregionSz.toNat) order
  have longer := Nat.add_le_add_right (Nat.mul_le_mul_right subregionSz.toNat blocks)
    subregionSz.toNat
  obtain ⟨alignedDone, alignedLast⟩ := List.forall_mem_append.mp scanned.aligned
  rw [List.forall_mem_singleton] at alignedLast
  exact {
    last := List.getLast?_concat
    aligned := List.forall_mem_append.mpr ⟨alignedDone, List.forall_mem_singleton.mpr
      ⟨alignedLast.1, Nat.dvd_add (Nat.dvd_mul_left ..) (dvd_refl _)⟩⟩
    separated := scanned.separated.extend longer
    covers := by
      refine (covered_extend scanned.separated longer).trans ?_
      change covered (s.runs subregionSz) ∪ _ = _
      rw [scanned.covers, touched_concat pow2]
      rcases Nat.lt_or_eq_of_le near with here | next
      · have same : pc.toNat / subregionSz.toNat = s.lastPc.toNat / subregionSz.toNat := by omega
        have already : Set.Ico (pc.toNat / subregionSz.toNat * subregionSz.toNat)
            (pc.toNat / subregionSz.toNat * subregionSz.toNat + subregionSz.toNat) ⊆
              touched subregionSz pcs := fun x inside =>
          ⟨s.lastPc, List.mem_of_getLast? scanned.last, same ▸ (mem_block pow2).mp inside⟩
        rw [Set.union_eq_self_of_subset_right already, same, Set.Ico_self, Set.union_empty]
      · rw [next, Nat.succ_mul]
    gapless := by
      rw [scanned.isChain_concat]
      exact scanned.gapless.trans (and_iff_left near).symm
    only := scanned.only
    later := scanned.later }

/-- At a gap the run is emitted, and a new one starts with the block of `pc`. -/
theorem Scanned.emit (scanned : Scanned subregionSz first pcs s)
    (below : s.lastPc.toNat < 2 ^ 64 - subregionSz.toNat) (gap : ¬ NoGap subregionSz s.lastPc pc) :
    Scanned subregionSz first (pcs ++ [pc]) {
      subregions := s.subregions ++
        [(s.thisSubregionBase, pow2RoundUp s.lastPc subregionSz - s.thisSubregionBase)]
      lastPc := pc
      thisSubregionBase := pow2RoundDown pc subregionSz
      lastSubregionBase := s.thisSubregionBase } := by
  have pos : 0 < subregionSz.toNat := pow2 ▸ Nat.two_pow_pos k
  have base := toNat_pow2RoundDown pow2 pc
  have far : s.lastPc.toNat / subregionSz.toNat * subregionSz.toNat + subregionSz.toNat <
      (pow2RoundDown pc subregionSz).toNat := by
    rw [base, ← Nat.succ_mul]
    exact Nat.mul_lt_mul_of_pos_right (Nat.not_le.mp gap) pos
  have wider : (pow2RoundDown pc subregionSz).toNat <
      pc.toNat / subregionSz.toNat * subregionSz.toNat + subregionSz.toNat := by
    rw [base]
    exact Nat.lt_add_of_pos_right pos
  have emitted : (s.subregions ++
      [(s.thisSubregionBase, pow2RoundUp s.lastPc subregionSz - s.thisSubregionBase)]).map extent =
        s.runs subregionSz := by
    rw [List.map_append, List.map_singleton, scanned.extent_eq pow2 below]
    rfl
  exact {
    last := List.getLast?_concat
    aligned := by
      rw [runs, emitted]
      refine List.forall_mem_append.mpr ⟨scanned.aligned, List.forall_mem_singleton.mpr ⟨?_, ?_⟩⟩
      · rw [base]
        exact Nat.dvd_mul_left ..
      · exact Nat.dvd_add (Nat.dvd_mul_left ..) (dvd_refl _)
    separated := by
      rw [runs, emitted]
      exact scanned.separated.start far wider
    covers := by
      rw [runs, emitted, covered_start, scanned.covers, touched_concat pow2, base]
    gapless := by
      rw [scanned.isChain_concat]
      exact ⟨fun none => by simp at none, fun both => absurd both.2 gap⟩
    only := fun none => by simp at none
    later := by
      intro _ same
      have nonempty := (separated_concat.mp scanned.separated).2.1
      rw [← BitVec.toNat_inj] at same
      dsimp only at same
      omega }

theorem Scanned.step (scanned : Scanned subregionSz first pcs s)
    (order : s.lastPc.toNat ≤ pc.toNat) (below : pc.toNat < 2 ^ 64 - subregionSz.toNat) :
    ∃ s', s.step subregionSz pc = .ok s' ∧ Scanned subregionSz first (pcs ++ [pc]) s' := by
  refine ⟨_, step_eq pow2 order below, ?_⟩
  split
  · exact scanned.extend pow2 order ‹_›
  · exact scanned.emit pow2 (order.trans_lt below) ‹_›

/-- The loop raises no error, and has scanned all program counters at its end. -/
theorem Scanned.scan (scanned : Scanned subregionSz first pcs s) {rest : List Uint64}
    (sorted : (s.lastPc :: rest).Pairwise (· < ·))
    (below : ∀ pc ∈ rest, pc.toNat < 2 ^ 64 - subregionSz.toNat) :
    ∃ s', rest.foldlM (SubregionLoop.step subregionSz) s = .ok s' ∧
      Scanned subregionSz first (pcs ++ rest) s' := by
  induction rest generalizing pcs s with
  | nil => exact ⟨s, rfl, by rwa [List.append_nil]⟩
  | cons pc rest ih =>
    obtain ⟨before, later⟩ := List.pairwise_cons.mp sorted
    have order := BitVec.lt_def.mp (before pc List.mem_cons_self)
    obtain ⟨s₁, stepped, scanned₁⟩ := scanned.step pow2 order.le (below pc List.mem_cons_self)
    have last : s₁.lastPc = pc := by
      have both := scanned₁.last
      rw [List.getLast?_concat] at both
      exact (Option.some.inj both).symm
    obtain ⟨s', rest', scanned'⟩ :=
      ih scanned₁ (last ▸ later) fun pc member => below pc (List.mem_cons_of_mem _ member)
    rw [List.append_assoc] at scanned'
    refine ⟨s', ?_, scanned'⟩
    rw [List.foldlM_cons, stepped]
    exact rest'

/-- If the last run is emitted the subregions are right. -/
theorem Scanned.finish (scanned : Scanned subregionSz first pcs s)
    (below : s.lastPc.toNat < 2 ^ 64 - subregionSz.toNat)
    (emits : s.lastSubregionBase ≠ s.thisSubregionBase) :
    CoversExactly subregionSz pcs (s.finish subregionSz) := by
  have all : (s.finish subregionSz).map extent = s.runs subregionSz := by
    rw [SubregionLoop.finish, if_pos emits, List.map_append, List.map_singleton,
      scanned.extent_eq pow2 below]
    rfl
  exact {
    aligned := by
      intro r member
      have both := scanned.aligned (extent r) (all ▸ List.mem_map_of_mem member)
      exact ⟨both.1, (Nat.dvd_add_right both.1).mp both.2⟩
    separated := all ▸ scanned.separated
    covers := all ▸ scanned.covers }

end SubregionLoop

omit pow2 in
theorem mem_left {subregions : List (Uint64 × Uint64)} {pcs : List Uint64} {pc : Uint64} :
    pc ∈ subregions.foldl (fun left (base, sz) =>
        left.filter fun pc => pc < base || pc ≥ base + sz) pcs ↔
      pc ∈ pcs ∧ ∀ r ∈ subregions, pc < r.1 ∨ r.1 + r.2 ≤ pc := by
  induction subregions generalizing pcs with
  | nil => simp
  | cons r subregions ih =>
    rw [List.foldl_cons, ih]
    simp [and_assoc]

/-- What covers the touched blocks ends with the last of them. -/
theorem CoversExactly.fits {pcs : List Uint64} {subregions : List (Uint64 × Uint64)}
    (covering : CoversExactly subregionSz pcs subregions)
    (below : ∀ pc ∈ pcs, pc.toNat < 2 ^ 64 - subregionSz.toNat) {r : Uint64 × Uint64}
    (member : r ∈ subregions) : r.1.toNat + r.2.toNat < 2 ^ 64 := by
  have listed : extent r ∈ subregions.map extent := List.mem_map_of_mem member
  have nonempty : r.1.toNat < r.1.toNat + r.2.toNat := covering.separated.1 (extent r) listed
  have last : r.1.toNat + r.2.toNat - 1 ∈ covered (subregions.map extent) :=
    ⟨extent r, listed, Nat.le_sub_one_of_lt nonempty, Nat.sub_one_lt_of_lt nonempty⟩
  rw [covering.covers] at last
  obtain ⟨pc, inPcs, same⟩ := last
  have within := Set.mem_Ico.mp ((mem_block pow2).mpr same)
  have start := Nat.div_mul_le_self pc.toNat subregionSz.toNat
  have bound := below pc inPcs
  omega

/-- What covers the touched blocks is verified. -/
theorem CoversExactly.verify {pcs : List Uint64} {subregions : List (Uint64 × Uint64)}
    (covering : CoversExactly subregionSz pcs subregions)
    (below : ∀ pc ∈ pcs, pc.toNat < 2 ^ 64 - subregionSz.toNat) :
    verifySubregionsForSortedPcs subregions pcs = .ok () := by
  refine if_pos (List.length_eq_zero_iff.mpr (List.eq_nil_iff_forall_not_mem.mpr fun pc left => ?_))
  obtain ⟨inPcs, outside⟩ := mem_left.mp left
  have inside : pc.toNat ∈ covered (subregions.map extent) := covering.covers ▸ ⟨pc, inPcs, rfl⟩
  obtain ⟨_, listed, low, high⟩ := inside
  obtain ⟨r, member, rfl⟩ := List.mem_map.mp listed
  have fits := covering.fits pow2 below member
  change r.1.toNat ≤ pc.toNat at low
  change pc.toNat < r.1.toNat + r.2.toNat at high
  rcases outside r member with before | behind
  · exact absurd (BitVec.lt_def.mp before) (Nat.not_lt.mpr low)
  · rw [BitVec.le_def, BitVec.toNat_add, Nat.mod_eq_of_lt fits] at behind
    exact absurd high (Nat.not_lt.mpr behind)

/-- The function returns what the loop has scanned. -/
theorem exists_scanned {first : Uint64} {rest : List Uint64}
    (sorted : (first :: rest).Pairwise (· < ·))
    (below : ∀ pc ∈ first :: rest, pc.toNat < 2 ^ 64 - subregionSz.toNat) :
    ∃ s, subregionsForSortedPcs (first :: rest) subregionSz = .ok (s.finish subregionSz) ∧
      SubregionLoop.Scanned subregionSz first (first :: rest) s := by
  have again : (SubregionLoop.start subregionSz first).step subregionSz first =
      .ok (.start subregionSz first) :=
    (SubregionLoop.step_eq pow2 (s := .start subregionSz first) le_rfl
      (below first List.mem_cons_self)).trans (congrArg _ (if_pos (Nat.le_succ _)))
  obtain ⟨s, scan, scanned⟩ := (SubregionLoop.scanned_start pow2 first).scan pow2 sorted
    fun pc member => below pc (List.mem_cons_of_mem _ member)
  refine ⟨s, ?_, scanned⟩
  rw [subregionsForSortedPcs, List.foldlM_cons, again]
  exact congrArg (Except.map _) scan

/-- The subregions are right exactly if not all program counters lie in one run of blocks that
starts at address 0. -/
theorem subregionsExact_iff {first : Uint64} {rest : List Uint64}
    (sorted : (first :: rest).Pairwise (· < ·))
    (below : ∀ pc ∈ first :: rest, pc.toNat < 2 ^ 64 - subregionSz.toNat) :
    SubregionsExact (first :: rest) subregionSz ↔
      ¬ (first < subregionSz ∧ (first :: rest).IsChain (NoGap subregionSz)) := by
  obtain ⟨s, result, scanned⟩ := exists_scanned pow2 sorted below
  have lastBelow := below s.lastPc (List.mem_of_getLast? scanned.last)
  rw [← scanned.gapless, ← pow2RoundDown_eq_zero_iff pow2]
  by_cases emits : s.lastSubregionBase = s.thisSubregionBase
  · have none : s.subregions = [] := by_contra fun some => scanned.later some emits
    obtain ⟨unset, base⟩ := scanned.only none
    constructor
    · rintro ⟨subregions, returned, covering, -⟩
      cases result.symm.trans returned
      have touches : first.toNat ∈ touched subregionSz (first :: rest) :=
        ⟨first, List.mem_cons_self, rfl⟩
      rw [← covering.covers, SubregionLoop.finish, if_neg (not_not.mpr emits), none, List.map_nil,
        covered_nil] at touches
      exact absurd touches (Set.notMem_empty _)
    · intro other
      exact absurd ⟨by rw [← base, ← emits, unset], none⟩ other
  · have covering := scanned.finish pow2 lastBelow emits
    constructor
    · rintro - ⟨zero, none⟩
      obtain ⟨unset, base⟩ := scanned.only none
      exact emits (by rw [unset, base, zero])
    · intro _
      exact ⟨_, result, covering, covering.verify pow2 below⟩

end

example : subregionsForSortedPcs [0x1000, 0x1008, 0x2000, 0x4ffc] 0x1000 =
    .ok [(0x1000, 0x2000), (0x4000, 0x1000)] := by
  decide

theorem subregionsExact_iff_pages :
    SubregionsExact [0x10, 0x1008, 0x4ffc] 0x1000 ↔
      ¬ ((0x10 : Uint64) < 0x1000 ∧ [0x10, 0x1008, 0x4ffc].IsChain (NoGap 0x1000)) :=
  subregionsExact_iff (show (0x1000 : Uint64).toNat = 2 ^ 12 by decide) (by decide) (by simp)

/-- One program counter on the first page: there are no subregions, and the verification fails. -/
theorem not_subregionsExact_firstPage :
    [(0x10 : Uint64)].Pairwise (· < ·) ∧
    (∀ pc ∈ [(0x10 : Uint64)], pc.toNat < 2 ^ 64 - (0x1000 : Uint64).toNat) ∧
    subregionsForSortedPcs [0x10] 0x1000 = .ok [] ∧
    verifySubregionsForSortedPcs [] [0x10] = .error .assertionError ∧
    ¬ SubregionsExact [0x10] 0x1000 := by
  refine ⟨by decide, by simp, by decide, by decide, ?_⟩
  rintro ⟨subregions, returned, -, verified⟩
  have nothing : subregionsForSortedPcs [0x10] 0x1000 = .ok [] := by decide
  cases nothing.symm.trans returned
  exact absurd verified (by decide)

end Python

end XnuTrace
