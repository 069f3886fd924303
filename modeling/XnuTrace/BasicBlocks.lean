import XnuTrace.LogStructs
import Mathlib.Data.List.Infix
import Mathlib.Data.List.Chain

/-! `extract_bbs_from_pc_trace`: a trace of program counters cut into blocks of
consecutive instructions. The loop closes a block when the next one begins; what the
tail case does with the last block decides whether the trace is recovered. -/
namespace XnuTrace

structure Bb where
  pc : Uint64
  sz : Uint32
deriving DecidableEq

/-- The locals of the loop. -/
structure BbScan where
  bbs : List Bb
  bbStart : Uint64
  lastPc : Uint64

namespace BbScan

def current (s : BbScan) : Bb := { pc := s.bbStart, sz := (s.lastPc + 4 - s.bbStart).setWidth 32 }

def step (s : BbScan) (pc : Uint64) : BbScan :=
  if s.lastPc + 4 ≠ pc then { bbs := s.bbs ++ [s.current], bbStart := pc, lastPc := pc }
  else { s with lastPc := pc }

/-- The tail case. -/
def finish (s : BbScan) : List Bb :=
  if s.bbStart ≠ s.lastPc then s.bbs ++ [s.current] else s.bbs

end BbScan

/-- `pcs[0]` is read first. -/
def extractBbsFromPcTrace : List Uint64 → Option (List Bb)
  | [] => none
  | first :: pcs =>
    some ((first :: pcs).foldl BbScan.step
      { bbs := [], bbStart := first, lastPc := first - 4 }).finish

/-! Blocks as runs. -/

/-- `n` instructions from `start` on. -/
def pcRun (start : Uint64) (n : Nat) : List Uint64 :=
  (List.range n).map fun i => start + BitVec.ofNat 64 (4 * i)

/-- `pc, pc + 4, ..., pc + sz - 4`. -/
def Bb.expand (b : Bb) : List Uint64 := pcRun b.pc (b.sz.toNat / 4)

/-- Behind the last instruction. -/
def Bb.stop (b : Bb) : Uint64 := b.pc + b.sz.setWidth 64

/-- Whole instructions, at least one. -/
def Bb.Whole (b : Bb) : Prop := 4 ≤ b.sz.toNat ∧ 4 ∣ b.sz.toNat

/-- Runs of consecutive instructions have fewer than 2^32 bytes. -/
def RunsFit (pcs : List Uint64) : Prop := ∀ start n, pcRun start n <:+: pcs → 4 * n < 2 ^ 32

theorem pcRun_succ (start : Uint64) (n : Nat) :
    pcRun start (n + 1) = pcRun start n ++ [start + BitVec.ofNat 64 (4 * n)] := by
  rw [pcRun, List.range_succ, List.map_append]
  rfl

theorem length_pcRun (start : Uint64) (n : Nat) : (pcRun start n).length = n := by
  rw [pcRun, List.length_map, List.length_range]

theorem Bb.expand_eq {b : Bb} (whole : b.Whole) : ∃ init, b.expand = init ++ [b.stop - 4] := by
  obtain ⟨pos, n, size⟩ := whole
  obtain ⟨k, rfl⟩ := Nat.exists_eq_succ_of_ne_zero (show n ≠ 0 by omega)
  have stop : b.stop = b.pc + BitVec.ofNat 64 (4 * k) + 4 := by
    have wide : b.sz.setWidth 64 = BitVec.ofNat 64 (4 * k) + 4 := by
      apply BitVec.eq_of_toNat_eq
      rw [BitVec.toNat_setWidth, size, Nat.mul_succ, ← BitVec.toNat_ofNat, BitVec.ofNat_add]
      rfl
    rw [Bb.stop, wide, BitVec.add_assoc]
  refine ⟨pcRun b.pc k, ?_⟩
  rw [Bb.expand, size, Nat.mul_div_cancel_left _ (by decide), pcRun_succ, stop,
    BitVec.add_sub_cancel]

/-- After the part `done` of the trace, `n` instructions into a block. -/
structure Scanned (done : List Uint64) (s : BbScan) (n : Nat) : Prop where
  pos : 0 < n
  next : s.lastPc + 4 = s.bbStart + BitVec.ofNat 64 (4 * n)
  whole : done = s.bbs.flatMap Bb.expand ++ pcRun s.bbStart n
  blocks : ∀ b ∈ s.bbs, b.Whole
  maximal : s.bbs.IsChain fun a b => a.stop ≠ b.pc
  apart : ∀ b ∈ s.bbs.getLast?, b.stop ≠ s.bbStart

namespace Scanned
variable {done : List Uint64} {s : BbScan} {n : Nat}

theorem current_spec (scanned : Scanned done s n) (fits : 4 * n < 2 ^ 32) :
    s.current.Whole ∧ s.current.expand = pcRun s.bbStart n ∧ s.current.stop = s.lastPc + 4 := by
  have size : s.lastPc + 4 - s.bbStart = BitVec.ofNat 64 (4 * n) := by
    rw [scanned.next, BitVec.add_comm, BitVec.add_sub_cancel]
  have sz : s.current.sz.toNat = 4 * n := by
    rw [BbScan.current, size, BitVec.toNat_setWidth, BitVec.toNat_ofNat]
    omega
  have pos := scanned.pos
  refine ⟨⟨by omega, ⟨n, sz⟩⟩, ?_, ?_⟩
  · rw [Bb.expand, sz, Nat.mul_div_cancel_left n (by decide)]
    rfl
  · have wide : s.current.sz.setWidth 64 = BitVec.ofNat 64 (4 * n) := by
      apply BitVec.eq_of_toNat_eq
      rw [BitVec.toNat_setWidth, sz, BitVec.toNat_ofNat]
    rw [Bb.stop, wide, scanned.next]
    rfl

theorem push_blocks (scanned : Scanned done s n) (fits : 4 * n < 2 ^ 32) :
    (∀ b ∈ s.bbs ++ [s.current], b.Whole) ∧
    (s.bbs ++ [s.current]).IsChain (fun a b => a.stop ≠ b.pc) ∧
    (s.bbs ++ [s.current]).flatMap Bb.expand = done := by
  obtain ⟨ok, expand, _⟩ := scanned.current_spec fits
  refine ⟨fun b member => ?_, ?_, ?_⟩
  · rcases List.mem_append.mp member with old | new
    · exact scanned.blocks b old
    · exact List.mem_singleton.mp new ▸ ok
  · rw [List.isChain_append]
    refine ⟨scanned.maximal, .singleton _, fun a last b first => ?_⟩
    have same : s.current = b := by simpa using first
    rw [← same]
    exact scanned.apart a last
  · rw [List.flatMap_append, List.flatMap_singleton, expand, scanned.whole]

theorem step (scanned : Scanned done s n) (fits : 4 * n < 2 ^ 32) (pc : Uint64) :
    ∃ n', Scanned (done ++ [pc]) (s.step pc) n' := by
  unfold BbScan.step
  split
  · rename_i jumps
    obtain ⟨blocks, maximal, expand⟩ := scanned.push_blocks fits
    obtain ⟨_, _, stop⟩ := scanned.current_spec fits
    refine ⟨1, ⟨Nat.one_pos, rfl, ?_, blocks, maximal, fun b last => ?_⟩⟩
    · rw [expand]
      simp [pcRun]
    · have same : s.current = b := by simpa using last
      rw [← same, stop]
      exact jumps
  · rename_i follows
    rw [not_not, scanned.next] at follows
    refine ⟨n + 1, ⟨Nat.succ_pos n, ?_, ?_, scanned.blocks, scanned.maximal, scanned.apart⟩⟩
    · rw [← follows, Nat.mul_add, BitVec.ofNat_add, BitVec.add_assoc]
      rfl
    · rw [scanned.whole, pcRun_succ, follows, List.append_assoc]

theorem foldl {pcs : List Uint64} (scanned : Scanned done s n) (fits : RunsFit (done ++ pcs)) :
    ∃ n', Scanned (done ++ pcs) (pcs.foldl BbScan.step s) n' := by
  induction pcs generalizing done s n with
  | nil => exact ⟨n, by rwa [List.append_nil]⟩
  | cons pc pcs ih =>
    have infixed : pcRun s.bbStart n <:+: done ++ pc :: pcs :=
      ⟨s.bbs.flatMap Bb.expand, pc :: pcs, by rw [scanned.whole]⟩
    obtain ⟨n', scanned'⟩ := scanned.step (fits _ _ infixed) pc
    have rest := ih scanned' (by rwa [List.append_assoc])
    rwa [List.append_assoc] at rest

theorem finish_eq (scanned : Scanned done s n) (fits : 4 * n < 2 ^ 32) :
    s.finish = if n = 1 then s.bbs else s.bbs ++ [s.current] := by
  obtain ⟨k, rfl⟩ := Nat.exists_eq_succ_of_ne_zero (Nat.ne_of_gt scanned.pos)
  have last : s.lastPc = s.bbStart + BitVec.ofNat 64 (4 * k) := by
    have next := scanned.next
    rw [Nat.mul_succ, BitVec.ofNat_add, ← BitVec.add_assoc] at next
    exact (BitVec.add_left_inj _).mp next
  rw [BbScan.finish, last]
  cases k with
  | zero =>
    rw [Nat.mul_zero, BitVec.add_zero, if_neg (not_not.mpr rfl)]
    rfl
  | succ k =>
    rw [if_neg (show k.succ + 1 ≠ 1 by omega), if_pos]
    intro same
    have zero : BitVec.ofNat 64 (4 * (k + 1)) = 0 := BitVec.self_eq_add_right.mp same
    have := congrArg BitVec.toNat zero
    rw [BitVec.toNat_ofNat, Nat.mod_eq_of_lt (by omega)] at this
    exact absurd this (by simp)

/-- The block that is not closed has one instruction exactly if the trace ends in a jump. -/
theorem ends_iff (scanned : Scanned done s n) :
    (∃ before pc, done = before ++ [pc, pc + 4]) ↔ n ≠ 1 := by
  have pos := scanned.pos
  constructor
  · rintro ⟨before, pc, whole⟩ rfl
    have closed : s.bbs.flatMap Bb.expand = before ++ [pc] ∧ s.bbStart = pc + 4 := by
      have ends := scanned.whole.symm.trans whole
      have one : pcRun s.bbStart 1 = [s.bbStart] := by simp [pcRun]
      rw [one, List.append_cons before] at ends
      obtain ⟨same, last⟩ := List.append_inj' ends rfl
      exact ⟨same, List.singleton_inj.mp last⟩
    rcases List.eq_nil_or_concat' s.bbs with none | ⟨bbs, b, split⟩
    · simp [none] at closed
    · obtain ⟨init, expand⟩ := Bb.expand_eq (scanned.blocks b (by simp [split]))
      rw [split, List.flatMap_append, List.flatMap_singleton, expand, ← List.append_assoc] at closed
      have last := List.singleton_inj.mp (List.append_inj' closed.1 rfl).2
      refine scanned.apart b (by simp [split]) ?_
      rw [closed.2, ← last]
      exact (BitVec.sub_add_cancel _ _).symm
  · intro more
    obtain ⟨k, rfl⟩ := Nat.exists_eq_add_of_le (show 2 ≤ n by omega)
    rw [Nat.add_comm 2 k] at scanned
    refine ⟨s.bbs.flatMap Bb.expand ++ pcRun s.bbStart k, s.bbStart + BitVec.ofNat 64 (4 * k), ?_⟩
    rw [scanned.whole, pcRun_succ, pcRun_succ, Nat.mul_succ 4 k, BitVec.ofNat_add,
      ← BitVec.add_assoc]
    simp

end Scanned

theorem scanned_first (pc : Uint64) : Scanned [pc]
    (BbScan.step { bbs := [], bbStart := pc, lastPc := pc - 4 } pc) 1 := by
  have follows : pc - 4 + 4 = pc := BitVec.sub_add_cancel pc 4
  rw [BbScan.step, if_neg (not_not.mpr follows)]
  exact ⟨Nat.one_pos, rfl, by simp [pcRun], fun b h => absurd h List.not_mem_nil, .nil,
    fun b h => nomatch h⟩

/-- The blocks give the trace back, each of whole instructions and as long as possible,
exactly if the trace does not end in a block of one instruction. -/
theorem extractBbsFromPcTrace_partition_iff {pcs : List Uint64} (fits : RunsFit pcs) :
    (∃ bbs, extractBbsFromPcTrace pcs = some bbs ∧ bbs.flatMap Bb.expand = pcs ∧
      (∀ b ∈ bbs, b.Whole) ∧ bbs.IsChain fun a b => a.stop ≠ b.pc) ↔
    ∃ before pc, pcs = before ++ [pc, pc + 4] := by
  cases pcs with
  | nil => simp [extractBbsFromPcTrace]
  | cons first pcs =>
    have grown : RunsFit ([first] ++ pcs) := fits
    obtain ⟨n, scanned⟩ := (scanned_first first).foldl grown
    rw [List.singleton_append] at scanned
    have small := fits _ _ ⟨_, [], by rw [List.append_nil, ← scanned.whole]⟩
    obtain ⟨blocks, maximal, expand⟩ := scanned.push_blocks small
    have done : extractBbsFromPcTrace (first :: pcs) = some _ :=
      congrArg some (scanned.finish_eq small)
    rw [done, scanned.ends_iff]
    constructor
    · rintro ⟨bbs, same, whole, _⟩ rfl
      cases same
      rw [if_pos rfl, scanned.whole, List.self_eq_append_right] at whole
      exact absurd (congrArg List.length whole) (by simp [length_pcRun])
    · intro more
      refine ⟨_, rfl, ?_⟩
      rw [if_neg more]
      exact ⟨expand, blocks, maximal⟩

theorem extractBbsFromPcTrace_partition_pair :
    (∃ bbs, extractBbsFromPcTrace [0x1000, 0x1004] = some bbs ∧
      bbs.flatMap Bb.expand = [0x1000, 0x1004] ∧
      (∀ b ∈ bbs, b.Whole) ∧ bbs.IsChain fun a b => a.stop ≠ b.pc) ↔
    ∃ before pc, ([0x1000, 0x1004] : List Uint64) = before ++ [pc, pc + 4] := by
  refine extractBbsFromPcTrace_partition_iff fun start n infixed => ?_
  have short := infixed.length_le
  rw [length_pcRun] at short
  exact Nat.lt_of_le_of_lt (Nat.mul_le_mul_left 4 short) (by decide)

/-- A trace of one instruction yields no block. -/
theorem extractBbsFromPcTrace_single : RunsFit [0x1000] ∧ extractBbsFromPcTrace [0x1000] = some [] ∧
    ([] : List Bb).flatMap Bb.expand ≠ [0x1000] := by
  refine ⟨fun start n infixed => ?_, rfl, by decide⟩
  have short := infixed.length_le
  rw [length_pcRun] at short
  exact Nat.lt_of_le_of_lt (Nat.mul_le_mul_left 4 short) (by decide)

end XnuTrace
