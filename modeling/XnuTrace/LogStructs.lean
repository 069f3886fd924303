import XnuTrace.Lib.Memory

/-! The records of a thread log: CPU contexts, the packed change words and the
accessors of `log_msg`. A message is an address in a memory, since its fields are
read at computed offsets of the buffer it lies in. -/
namespace XnuTrace
open Memory

abbrev Uint8 := BitVec 8
abbrev Uint16 := BitVec 16
abbrev Uint32 := BitVec 32
abbrev Uint64 := BitVec 64
abbrev Uint128 := BitVec 128

structure LogArm64CpuContext where
  pc : Uint64
  sp : Uint64
  nzcv : Uint64
  x : Vector Uint64 29
  fp : Uint64
  lr : Uint64
  v : Vector Uint128 32
deriving DecidableEq

namespace LogArm64CpuContext

/-- `((uint64_t *)&x[0])[i]`: the array runs on through `fp` and `lr` into the low
half of `v[0]`, which is slot 31. -/
def slot (c : LogArm64CpuContext) (i : Nat) : Uint64 :=
  if h : i < 29 then c.x[i]
  else if i = 29 then c.fp
  else if i = 30 then c.lr
  else c.v[0].setWidth 64

/-- The store `((uint64_t *)&x[0])[i] = value`, for `i` up to 31. -/
def setSlot (c : LogArm64CpuContext) (i : Nat) (value : Uint64) : LogArm64CpuContext :=
  if h : i < 29 then { c with x := c.x.set i value }
  else if i = 29 then { c with fp := value }
  else if i = 30 then { c with lr := value }
  else { c with v := c.v.set 0 (c.v[0].extractLsb' 64 64 ++ value) }

/-- `v[i]`, for `i` below 32. -/
def vec (c : LogArm64CpuContext) (i : Nat) : Uint128 := c.v[i]?.getD 0

def setVec (c : LogArm64CpuContext) (i : Nat) (value : Uint128) : LogArm64CpuContext :=
  { c with v := c.v.setIfInBounds i value }

/-- The object representation, `0x310` bytes with `x` at `0x018` and `v` at `0x110`. -/
def bytes (c : LogArm64CpuContext) : List Uint8 :=
  wordBytes 8 c.pc ++ wordBytes 8 c.sp ++ wordBytes 8 c.nzcv ++
    c.x.toList.flatMap (wordBytes 8) ++ wordBytes 8 c.fp ++ wordBytes 8 c.lr ++
    c.v.toList.flatMap (wordBytes 16)

def load (m : Nat → Uint8) (p : Nat) : LogArm64CpuContext where
  pc := loadWord 64 8 m p
  sp := loadWord 64 8 m (p + 0x008)
  nzcv := loadWord 64 8 m (p + 0x010)
  x := .ofFn fun i => loadWord 64 8 m (p + 0x018 + 8 * i)
  fp := loadWord 64 8 m (p + 0x100)
  lr := loadWord 64 8 m (p + 0x108)
  v := .ofFn fun i => loadWord 128 16 m (p + 0x110 + 16 * i)

end LogArm64CpuContext

def sizeofLogArm64CpuContext : Nat := 0x310

def rpcNumChangedMax : Nat := 5

def rpcNumChanged (regPackedChanges : Uint32) : Uint32 := regPackedChanges >>> 29

def rpcNumFixedChanged (regPackedChanges : Uint32) : Uint32 :=
  ((regPackedChanges >>> 25) &&& 1) + ((regPackedChanges >>> 26) &&& 1)

def rpcPcBranched (regPackedChanges : Uint32) : Bool := regPackedChanges &&& ((1 : Uint32) <<< 25) != 0

def rpcSpChanged (regPackedChanges : Uint32) : Bool := regPackedChanges &&& ((1 : Uint32) <<< 26) != 0

def rpcSync (regPackedChanges : Uint32) : Bool := regPackedChanges &&& ((1 : Uint32) <<< 27) != 0

def rpcRegIdx (regPackedChanges : Uint32) (changedIdx : Nat) : Uint32 :=
  (regPackedChanges >>> (5 * changedIdx)) &&& 0b11111

def rpcSetRegIdx (regPackedChanges : Uint32) (changedIdx : Nat) (regIdx : Uint32) : Uint32 :=
  regPackedChanges ||| (regIdx <<< (5 * changedIdx))

def rpcSetNumChanged (regPackedChanges numChanged : Uint32) : Uint32 :=
  regPackedChanges ||| (numChanged <<< 29)

def rpcSetPcBranched (regPackedChanges : Uint32) : Uint32 := regPackedChanges ||| ((1 : Uint32) <<< 25)

def rpcSetSpChanged (regPackedChanges : Uint32) : Uint32 := regPackedChanges ||| ((1 : Uint32) <<< 26)

def rpcSetSync (regPackedChanges : Uint32) : Uint32 := regPackedChanges ||| ((1 : Uint32) <<< 27)

/-- A `const log_msg *`: an address and the memory its fields are read from. -/
structure LogMsg where
  mem : Nat → Uint8
  addr : Nat

namespace LogMsg

def sizeofLogMsg : Nat := 8

def syncFrameBufHdr : List Uint64 :=
  [((0 : Uint64) <<< 32) ||| (rpcSetSync 0).setWidth 64, 0x1b30aabd434e5953,
    0x769904304a1b4410, 0x9c62598963b97672, 0x43d53630a5eaedd9, 0x6dc3de5945535e98,
    0x6089461ffc1fb52b, 0xa4e0a6f12861b739, 0x34043c2d70ca6e6f, 0xd6e1dba5098cd02a,
    0xf2e6b5524519bacc, 0xfd91ff9de3763e78, 0x77f0f68159e4e2e8, 0x3d5d2cff136df711,
    0xfee4c6786443d6b8, 0xf46d78ebe3ae77dd, 0xb1354b20367b48a2]

def syncFrameBufHdrBytes : List Uint8 := syncFrameBufHdr.flatMap (wordBytes 8)

def sizeMax : Nat := 2 * 4 + 2 * 8 + rpcNumChangedMax * 8 + rpcNumChangedMax * 16

def syncFrameSz : Nat := 17 * 8 + 8

def sizeFullCtx : Nat := syncFrameSz + sizeofLogArm64CpuContext

variable (msg : LogMsg)

def gprChanged : Uint32 := loadWord 32 4 msg.mem msg.addr

def vecChanged : Uint32 := loadWord 32 4 msg.mem (msg.addr + 4)

def isSyncFrame : Bool :=
  rpcSync msg.gprChanged && decide (Holds msg.mem msg.addr syncFrameBufHdrBytes)

def numFixed : Uint32 := rpcNumFixedChanged msg.gprChanged

def pcBranched : Bool := rpcPcBranched msg.gprChanged

def spChanged : Bool := rpcSpChanged msg.gprChanged

def pc : Uint64 := loadWord 64 8 msg.mem (msg.addr + sizeofLogMsg)

def sp : Uint64 := loadWord 64 8 msg.mem (msg.addr + (sizeofLogMsg + msg.pcBranched.toNat * 8))

def numGpr : Uint32 := rpcNumChanged msg.gprChanged

def gprIdx (changeIdx : Nat) : Uint32 := rpcRegIdx msg.gprChanged changeIdx

def gpr (changeIdx : Nat) : Uint64 :=
  loadWord 64 8 msg.mem (msg.addr + (sizeofLogMsg + msg.numFixed.toNat * 8) + 8 * changeIdx)

def changedGpr : List (Uint32 × Uint64) :=
  (List.range msg.numGpr.toNat).map fun i => (msg.gprIdx i, msg.gpr i)

def numVec : Uint32 := rpcNumChanged msg.vecChanged

def vecIdx (changeIdx : Nat) : Uint32 := rpcRegIdx msg.vecChanged changeIdx

def vec (changeIdx : Nat) : Uint128 :=
  loadWord 128 16 msg.mem
    (msg.addr + (sizeofLogMsg + msg.numFixed.toNat * 8 + msg.numGpr.toNat * 8) + 16 * changeIdx)

def changedVec : List (Uint32 × Uint128) :=
  (List.range msg.numVec.toNat).map fun i => (msg.vecIdx i, msg.vec i)

def size : Nat :=
  if msg.isSyncFrame then sizeFullCtx
  else sizeofLogMsg + msg.numFixed.toNat * 8 + msg.numGpr.toNat * 8 + msg.numVec.toNat * 16

/-- The context a sync frame carries; `nullptr` for any other message. -/
def syncCtx : Option LogArm64CpuContext :=
  if msg.isSyncFrame then some (.load msg.mem (msg.addr + syncFrameSz)) else none

def syncNumInst : Uint64 :=
  if msg.isSyncFrame then loadWord 64 8 msg.mem (msg.addr + 17 * 8) else BitVec.allOnes 64

end LogMsg

namespace LogArm64CpuContext

def update (c : LogArm64CpuContext) (msg : LogMsg) : LogArm64CpuContext :=
  match msg.syncCtx with
  | some syncCtx => syncCtx
  | none =>
    let c := if msg.pcBranched then { c with pc := msg.pc } else c
    let c := if msg.spChanged then { c with sp := msg.sp } else c
    let c := (List.range msg.numGpr.toNat).foldl
      (fun c i => c.setSlot (msg.gprIdx i).toNat (msg.gpr i)) c
    (List.range msg.numVec.toNat).foldl
      (fun c i => c.setVec (msg.vecIdx i).toNat (msg.vec i)) c

end LogArm64CpuContext

end XnuTrace
