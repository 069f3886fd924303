import XnuTrace.PackedChanges
import XnuTrace.Context

/-! What a non-sync message says, apart from its encoding: an optional program
counter and stack pointer and up to five general and five vector registers. The
accessors of `log_msg` recover exactly these from the encoded bytes. -/
namespace XnuTrace
open Memory

structure Delta where
  pc : Option Uint64
  sp : Option Uint64
  gprs : List (Nat × Uint64)
  vecs : List (Nat × Uint128)
  gprs_few : gprs.length ≤ rpcNumChangedMax
  vecs_few : vecs.length ≤ rpcNumChangedMax
  gprs_reg : ∀ r ∈ gprs, r.1 < 31
  vecs_reg : ∀ r ∈ vecs, r.1 < 32

namespace Delta

def optBytes : Option Uint64 → List Uint8
  | none => []
  | some x => wordBytes 8 x

theorem optBytes_some (x : Uint64) : optBytes (some x) = wordBytes 8 x := rfl

@[simp] theorem length_optBytes (x : Option Uint64) :
    (optBytes x).length = x.isSome.toNat * 8 := by
  cases x <;> simp [optBytes]

def gprWord (d : Delta) : Uint32 :=
  changeWord d.pc.isSome d.sp.isSome (d.gprs.map Prod.fst)

def vecWord (d : Delta) : Uint32 := changeWord false false (d.vecs.map Prod.fst)

def bytes (d : Delta) : List Uint8 :=
  wordBytes 4 d.gprWord ++ wordBytes 4 d.vecWord ++ optBytes d.pc ++ optBytes d.sp ++
    d.gprs.flatMap (fun r => wordBytes 8 r.2) ++ d.vecs.flatMap (fun r => wordBytes 16 r.2)

/-- The effect of the message on a context; the program counter moves only when logged. -/
def apply (d : Delta) (c : LogArm64CpuContext) : LogArm64CpuContext :=
  let c := { c with pc := d.pc.getD c.pc, sp := d.sp.getD c.sp }
  let c := d.gprs.foldl (fun c r => c.setSlot r.1 r.2) c
  d.vecs.foldl (fun c r => c.setVec r.1 r.2) c

/-- The program counter after the message: `pc_iterator`'s rule. -/
def nextPc (d : Delta) (pc : Uint64) : Uint64 := d.pc.getD (pc + 4)

theorem length_bytes (d : Delta) : d.bytes.length =
    8 + (d.pc.isSome.toNat + d.sp.isSome.toNat) * 8 + d.gprs.length * 8 + d.vecs.length * 16 := by
  have gprs := length_flatMap_const (f := fun r : Nat × Uint64 => wordBytes 8 r.2)
    (l := d.gprs) (fun r _ => length_wordBytes 8 r.2)
  have vecs := length_flatMap_const (f := fun r : Nat × Uint128 => wordBytes 16 r.2)
    (l := d.vecs) (fun r _ => length_wordBytes 16 r.2)
  simp only [bytes, List.length_append, length_wordBytes, length_optBytes, gprs, vecs]
  ring

theorem length_bytes_pos (d : Delta) : 0 < d.bytes.length := by
  rw [length_bytes]
  omega

theorem length_bytes_le (d : Delta) : d.bytes.length ≤ LogMsg.sizeMax := by
  have gprs := d.gprs_few
  have vecs := d.vecs_few
  have pc := Bool.toNat_le d.pc.isSome
  have sp := Bool.toNat_le d.sp.isSome
  rw [length_bytes]
  simp only [LogMsg.sizeMax, rpcNumChangedMax] at *
  omega

section
variable {d : Delta} {msg : LogMsg}

theorem gpr_small (d : Delta) : ∀ r ∈ d.gprs.map Prod.fst, r < 32 := by
  intro r hr
  obtain ⟨p, hp, rfl⟩ := List.mem_map.mp hr
  exact (d.gprs_reg p hp).trans (by decide)

theorem vec_small (d : Delta) : ∀ r ∈ d.vecs.map Prod.fst, r < 32 := by
  intro r hr
  obtain ⟨p, hp, rfl⟩ := List.mem_map.mp hr
  exact d.vecs_reg p hp

theorem gpr_few (d : Delta) : (d.gprs.map Prod.fst).length ≤ rpcNumChangedMax := by
  simpa using d.gprs_few

theorem vec_few (d : Delta) : (d.vecs.map Prod.fst).length ≤ rpcNumChangedMax := by
  simpa using d.vecs_few

variable (holds : Holds msg.mem msg.addr d.bytes)
include holds

theorem gprChanged_eq : msg.gprChanged = d.gprWord := by
  simp only [bytes, holds_append] at holds
  exact loadWord_wordBytes (by decide) holds.1.1.1.1.1

theorem vecChanged_eq : msg.vecChanged = d.vecWord := by
  simp only [bytes, holds_append, length_wordBytes] at holds
  exact loadWord_wordBytes (by decide) holds.1.1.1.1.2

/-- The sync flag is never set in an encoded delta, whatever the registers hold. -/
theorem isSyncFrame_eq : msg.isSyncFrame = false := by
  rw [LogMsg.isSyncFrame, gprChanged_eq holds, gprWord,
    rpcSync_changeWord _ _ d.gpr_small d.gpr_few, Bool.false_and]

theorem pcBranched_eq : msg.pcBranched = d.pc.isSome := by
  rw [LogMsg.pcBranched, gprChanged_eq holds]
  exact rpcPcBranched_changeWord _ _ d.gpr_small d.gpr_few

theorem spChanged_eq : msg.spChanged = d.sp.isSome := by
  rw [LogMsg.spChanged, gprChanged_eq holds]
  exact rpcSpChanged_changeWord _ _ d.gpr_small d.gpr_few

theorem numFixed_eq : msg.numFixed.toNat = d.pc.isSome.toNat + d.sp.isSome.toNat := by
  have pc := Bool.toNat_le d.pc.isSome
  have sp := Bool.toNat_le d.sp.isSome
  rw [LogMsg.numFixed, gprChanged_eq holds, gprWord,
    rpcNumFixedChanged_changeWord _ _ d.gpr_small d.gpr_few, BitVec.toNat_ofNat]
  exact Nat.mod_eq_of_lt (by omega)

theorem numGpr_eq : msg.numGpr.toNat = d.gprs.length := by
  have few := d.gprs_few
  rw [LogMsg.numGpr, gprChanged_eq holds, gprWord,
    rpcNumChanged_changeWord _ _ d.gpr_small d.gpr_few, BitVec.toNat_ofNat, List.length_map]
  exact Nat.mod_eq_of_lt (by simp only [rpcNumChangedMax] at few; omega)

theorem numVec_eq : msg.numVec.toNat = d.vecs.length := by
  have few := d.vecs_few
  rw [LogMsg.numVec, vecChanged_eq holds, vecWord,
    rpcNumChanged_changeWord _ _ d.vec_small d.vec_few, BitVec.toNat_ofNat, List.length_map]
  exact Nat.mod_eq_of_lt (by simp only [rpcNumChangedMax] at few; omega)

theorem gprIdx_eq (i : Nat) (hi : i < d.gprs.length) :
    msg.gprIdx i = BitVec.ofNat 32 d.gprs[i].1 := by
  rw [LogMsg.gprIdx, gprChanged_eq holds, gprWord,
    rpcRegIdx_changeWord _ _ d.gpr_small d.gpr_few i (by simpa using hi), List.getElem_map]

theorem vecIdx_eq (i : Nat) (hi : i < d.vecs.length) :
    msg.vecIdx i = BitVec.ofNat 32 d.vecs[i].1 := by
  rw [LogMsg.vecIdx, vecChanged_eq holds, vecWord,
    rpcRegIdx_changeWord _ _ d.vec_small d.vec_few i (by simpa using hi), List.getElem_map]

theorem pc_eq {x : Uint64} (hx : d.pc = some x) : msg.pc = x := by
  simp only [bytes, holds_append, List.length_append, length_wordBytes, hx, optBytes_some] at holds
  exact loadWord_wordBytes (by decide) holds.1.1.1.2

theorem sp_eq {x : Uint64} (hx : d.sp = some x) : msg.sp = x := by
  rw [LogMsg.sp, pcBranched_eq holds]
  simp only [bytes, holds_append, List.length_append, length_wordBytes, length_optBytes, hx,
    optBytes_some] at holds
  exact loadWord_wordBytes (by decide) holds.1.1.2

theorem gpr_eq (i : Nat) (hi : i < d.gprs.length) : msg.gpr i = d.gprs[i].2 := by
  have fixed := numFixed_eq holds
  simp only [bytes, holds_append] at holds
  have record := holds_flatMap (fun r _ => length_wordBytes 8 r.2) holds.1.2 i hi
  simp only [List.length_append, length_wordBytes, length_optBytes] at record
  rw [LogMsg.gpr, fixed, LogMsg.sizeofLogMsg]
  refine loadWord_wordBytes (by decide) ?_
  rwa [show msg.addr + (8 + (d.pc.isSome.toNat + d.sp.isSome.toNat) * 8) + 8 * i =
    msg.addr + (4 + 4 + d.pc.isSome.toNat * 8 + d.sp.isSome.toNat * 8) + 8 * i by ring]

theorem vec_eq (i : Nat) (hi : i < d.vecs.length) : msg.vec i = d.vecs[i].2 := by
  have fixed := numFixed_eq holds
  have gprs := numGpr_eq holds
  have width := length_flatMap_const (f := fun r : Nat × Uint64 => wordBytes 8 r.2)
    (l := d.gprs) (fun r _ => length_wordBytes 8 r.2)
  simp only [bytes, holds_append] at holds
  have record := holds_flatMap (fun r _ => length_wordBytes 16 r.2) holds.2 i hi
  simp only [List.length_append, length_wordBytes, length_optBytes, width] at record
  rw [LogMsg.vec, fixed, gprs, LogMsg.sizeofLogMsg]
  refine loadWord_wordBytes (by decide) ?_
  rwa [show msg.addr + (8 + (d.pc.isSome.toNat + d.sp.isSome.toNat) * 8 + d.gprs.length * 8) +
      16 * i = msg.addr + (4 + 4 + d.pc.isSome.toNat * 8 + d.sp.isSome.toNat * 8 +
      8 * d.gprs.length) + 16 * i by ring]

theorem size_eq : msg.size = d.bytes.length := by
  simp [LogMsg.size, isSyncFrame_eq holds, numFixed_eq holds, numGpr_eq holds, numVec_eq holds,
    length_bytes, LogMsg.sizeofLogMsg]

theorem changedGpr_eq :
    msg.changedGpr = d.gprs.map (fun r => (BitVec.ofNat 32 r.1, r.2)) := by
  apply List.ext_getElem
  · simp [LogMsg.changedGpr, numGpr_eq holds]
  · intro i _ hi
    have bound : i < d.gprs.length := by simpa using hi
    simp [LogMsg.changedGpr, gprIdx_eq holds i bound, gpr_eq holds i bound]

theorem changedVec_eq :
    msg.changedVec = d.vecs.map (fun r => (BitVec.ofNat 32 r.1, r.2)) := by
  apply List.ext_getElem
  · simp [LogMsg.changedVec, numVec_eq holds]
  · intro i _ hi
    have bound : i < d.vecs.length := by simpa using hi
    simp [LogMsg.changedVec, vecIdx_eq holds i bound, vec_eq holds i bound]

theorem syncCtx_eq : msg.syncCtx = none := by
  rw [LogMsg.syncCtx, isSyncFrame_eq holds]
  rfl

theorem update_eq (c : LogArm64CpuContext) : c.update msg = d.apply c := by
  have gprs : ∀ c : LogArm64CpuContext, (List.range msg.numGpr.toNat).foldl
      (fun c i => c.setSlot (msg.gprIdx i).toNat (msg.gpr i)) c =
      d.gprs.foldl (fun c r => c.setSlot r.1 r.2) c := by
    intro c
    have pairs := @List.foldl_map _ _ _ (fun i => (msg.gprIdx i, msg.gpr i))
      (fun (c : LogArm64CpuContext) r => c.setSlot r.1.toNat r.2) (List.range msg.numGpr.toNat) c
    rw [← pairs]
    change msg.changedGpr.foldl _ c = _
    rw [changedGpr_eq holds, List.foldl_map]
    refine List.foldl_ext _ _ _ fun c r hr => ?_
    rw [BitVec.toNat_ofNat, Nat.mod_eq_of_lt ((d.gprs_reg r hr).trans (by decide))]
  have vecs : ∀ c : LogArm64CpuContext, (List.range msg.numVec.toNat).foldl
      (fun c i => c.setVec (msg.vecIdx i).toNat (msg.vec i)) c =
      d.vecs.foldl (fun c r => c.setVec r.1 r.2) c := by
    intro c
    have pairs := @List.foldl_map _ _ _ (fun i => (msg.vecIdx i, msg.vec i))
      (fun (c : LogArm64CpuContext) r => c.setVec r.1.toNat r.2) (List.range msg.numVec.toNat) c
    rw [← pairs]
    change msg.changedVec.foldl _ c = _
    rw [changedVec_eq holds, List.foldl_map]
    refine List.foldl_ext _ _ _ fun c r hr => ?_
    rw [BitVec.toNat_ofNat, Nat.mod_eq_of_lt ((d.vecs_reg r hr).trans (by decide))]
  have fixed : (if msg.spChanged then
      { (if msg.pcBranched then { c with pc := msg.pc } else c) with sp := msg.sp }
      else if msg.pcBranched then { c with pc := msg.pc } else c) =
      { c with pc := d.pc.getD c.pc, sp := d.sp.getD c.sp } := by
    rw [pcBranched_eq holds, spChanged_eq holds]
    cases pc : d.pc <;> cases sp : d.sp <;> simp [pc_eq holds, sp_eq holds, pc, sp]
  simp only [LogArm64CpuContext.update, syncCtx_eq holds, gprs, vecs]
  rw [fixed]
  rfl

end

end Delta

end XnuTrace
