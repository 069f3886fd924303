import XnuTrace.MachOSegments
import XnuTrace.MachORegions
import XnuTrace.BitVector
import XnuTrace.Lib.FallibleMap

/-! `read_cstr_target`: a string is read to the end of one page after the other, until one of them
holds its terminator. The page behind is not read, which may be unmapped. -/
namespace XnuTrace
open Memory FallibleMap

/-- Where the read that starts at an address ends, which is 0 behind the last page. -/
def cstrEndAddr (targetAddr : Uint64) : Uint64 :=
  if targetAddr.toNat % pageSz ≠ 0 then BitVec.ofNat 64 (roundupPow2Mul targetAddr.toNat pageSz)
  else targetAddr + BitVec.ofNat 64 pageSz

/-- The variables of the loop, and the addresses given to `vm_read_overwrite` so far. -/
structure CstrLoop where
  targetAddr : Uint64
  buf : List Uint8 := []
  addrs : List Uint64 := []

def CstrLoop.read (target : Uint64 → Option Uint8) (s : CstrLoop) : Option CstrLoop := do
  let endAddr := cstrEndAddr s.targetAddr
  let sz := (endAddr - s.targetAddr).toNat
  let smolBuf ← readTarget target s.targetAddr sz
  some {
    targetAddr := endAddr
    buf := s.buf ++ smolBuf
    addrs := s.addrs ++ (List.range sz).map fun i => s.targetAddr + BitVec.ofNat 64 i }

/-- The string and the addresses read for it: `none` if `mach_check` ends the tracer, `some none` if
the loop takes more than `fuel` rounds. -/
def readCstrTarget (target : Uint64 → Option Uint8) :
    Nat → CstrLoop → Option (Option (List Uint8 × List Uint64))
  | 0, _ => some none
  | fuel + 1, s => do
    let s ← s.read target
    if 0 ∈ s.buf then some (some (cStr s.buf, s.addrs)) else readCstrTarget target fuel s

section
variable {target : Uint64 → Option Uint8} {addr : Uint64} {m n : Nat} {bs str : List Uint8}

/-- A read reaches to the end of its page, also of the last. -/
theorem toNat_cstrEndAddr_sub (addr : Uint64) :
    (cstrEndAddr addr - addr).toNat = pageSz - addr.toNat % pageSz := by
  have small := addr.isLt
  have page : pageSz = 4096 := rfl
  have rounded := roundupPow2Mul_eq addr.toNat 12 (by decide)
  rw [cstrEndAddr, BitVec.toNat_sub, page]
  simp only [Nat.reducePow, sizeT] at rounded
  split
  · rw [BitVec.toNat_ofNat, rounded]
    omega
  · rw [BitVec.toNat_add, BitVec.toNat_ofNat]
    omega

theorem cstrEndAddr_eq (addr : Uint64) :
    cstrEndAddr addr = addr + BitVec.ofNat 64 (pageSz - addr.toNat % pageSz) := by
  rw [← toNat_cstrEndAddr_sub, BitVec.ofNat_toNat, BitVec.setWidth_eq, BitVec.add_comm,
    BitVec.sub_add_cancel]

/-- A read that is made of two. -/
theorem readTarget_add (target : Uint64 → Option Uint8) (addr : Uint64) (m n : Nat) :
    readTarget target addr (m + n) = (readTarget target addr m).bind fun front =>
      (readTarget target (addr + BitVec.ofNat 64 m) n).map (front ++ ·) := by
  have shift : ∀ i, target (addr + BitVec.ofNat 64 (m + i)) =
      target (addr + BitVec.ofNat 64 m + BitVec.ofNat 64 i) := by
    intro i
    rw [BitVec.ofNat_add, BitVec.add_assoc]
  simp only [readTarget, List.range_add, List.mapM_append, List.mapM_map, Function.comp_def, shift,
    Option.bind_eq_bind, Option.pure_def, Option.map_eq_bind]

theorem length_readTarget (read : readTarget target addr n = some bs) : bs.length = n := by
  have same := (mapM_eq_some_iff.mp read).length_eq
  rw [List.length_range] at same
  exact same.symm

/-- A read that succeeds is made of two that do. -/
theorem readTarget_split (whole : readTarget target addr (m + n) = some bs) :
    readTarget target addr m = some (bs.take m) ∧
      readTarget target (addr + BitVec.ofNat 64 m) n = some (bs.drop m) := by
  rw [readTarget_add] at whole
  obtain ⟨front, first, whole⟩ := Option.bind_eq_some_iff.mp whole
  obtain ⟨behind, second, rfl⟩ := Option.map_eq_some_iff.mp whole
  have length := length_readTarget first
  rw [List.take_left' length, List.drop_left' length]
  exact ⟨first, second⟩

theorem readTarget_isSome (readable : ∀ i < n, (target (addr + BitVec.ofNat 64 i)).isSome) :
    ∃ bs, readTarget target addr n = some bs := by
  apply Option.isSome_iff_exists.mp
  exact mapM_isSome_iff.mpr fun i member => readable i (List.mem_range.mp member)

/-- The address is on the pages from that of `addr` to that of the byte `len` behind it. -/
def InPages (addr : Uint64) (len : Nat) (a : Uint64) : Prop :=
  addr.toNat / pageSz ≤ a.toNat / pageSz ∧ a.toNat / pageSz ≤ (addr.toNat + len) / pageSz

/-- One read stays on the page where it starts. -/
theorem page_of_read {i : Nat} (inside : i < pageSz - addr.toNat % pageSz) :
    (addr + BitVec.ofNat 64 i).toNat = addr.toNat + i ∧
      (addr + BitVec.ofNat 64 i).toNat / pageSz = addr.toNat / pageSz := by
  have small := addr.isLt
  have page : pageSz = 4096 := rfl
  rw [page] at inside ⊢
  have address : (addr + BitVec.ofNat 64 i).toNat = addr.toNat + i := by
    rw [BitVec.toNat_add, BitVec.toNat_ofNat]
    omega
  rw [address]
  exact ⟨rfl, by omega⟩

theorem inPages_of_read {i len : Nat} (inside : i < pageSz - addr.toNat % pageSz) :
    InPages addr len (addr + BitVec.ofNat 64 i) := by
  rw [InPages, (page_of_read inside).2]
  exact ⟨le_rfl, Nat.div_le_div_right (Nat.le_add_right _ _)⟩

theorem cStr_append_zero (bs rest : List Uint8) (nonzero : 0 ∉ bs) : cStr (bs ++ 0 :: rest) = bs := by
  have kept : ∀ b ∈ bs, decide (b ≠ 0) = true := fun b member =>
    decide_eq_true fun zero => nonzero (zero ▸ member)
  rw [cStr, List.takeWhile_append_of_pos kept, List.takeWhile_cons_of_neg (by decide),
    List.append_nil]

/-- A string that goes on behind the page has its rest in the pages that are left. -/
theorem InPages.of_next {a : Uint64} {sz k : Nat} (sizes : sz = pageSz - addr.toNat % pageSz)
    (noWrap : addr.toNat + (sz + k) < 2 ^ 64)
    (inside : InPages (addr + BitVec.ofNat 64 sz) k a) : InPages addr (sz + k) a := by
  have next : (addr + BitVec.ofNat 64 sz).toNat = addr.toNat + sz := by
    rw [BitVec.toNat_add, BitVec.toNat_ofNat]
    omega
  obtain ⟨low, high⟩ := inside
  rw [next] at low high
  refine ⟨(Nat.div_le_div_right (Nat.le_add_right _ _)).trans low, ?_⟩
  rwa [← Nat.add_assoc]

/-- The addresses of one read. -/
def restOfPage (addr : Uint64) : List Uint64 :=
  (List.range (pageSz - addr.toNat % pageSz)).map fun i => addr + BitVec.ofNat 64 i

theorem inPages_of_mem_restOfPage {len : Nat} : ∀ a ∈ restOfPage addr, InPages addr len a := by
  intro a member
  obtain ⟨i, inside, rfl⟩ := List.mem_map.mp member
  exact inPages_of_read (List.mem_range.mp inside)

/-- One round on a readable page. -/
theorem CstrLoop.exists_read {s : CstrLoop} {len : Nat}
    (readable : ∀ a, InPages s.targetAddr len a → (target a).isSome) : ∃ smolBuf,
      readTarget target s.targetAddr (pageSz - s.targetAddr.toNat % pageSz) = some smolBuf ∧
        s.read target = some {
          targetAddr := s.targetAddr + BitVec.ofNat 64 (pageSz - s.targetAddr.toNat % pageSz)
          buf := s.buf ++ smolBuf
          addrs := s.addrs ++ restOfPage s.targetAddr } := by
  obtain ⟨smolBuf, chunk⟩ := readTarget_isSome fun i inside =>
    readable (s.targetAddr + BitVec.ofNat 64 i) (inPages_of_read inside)
  refine ⟨smolBuf, chunk, ?_⟩
  rw [CstrLoop.read, toNat_cstrEndAddr_sub, chunk, cstrEndAddr_eq]
  rfl

/-- A page that holds the end of the string. -/
theorem eq_append_zero_of_ends {smolBuf : List Uint8} (ends : str.length < n)
    (chunk : readTarget target addr n = some smolBuf)
    (string : readTarget target addr (str.length + 1) = some (str ++ [0])) :
    ∃ rest, smolBuf = str ++ 0 :: rest := by
  obtain ⟨k, rfl⟩ := Nat.exists_eq_add_of_le (Nat.succ_le_of_lt ends)
  have front := Option.some.inj ((readTarget_split chunk).1.symm.trans string)
  have both := List.take_append_drop (str.length + 1) smolBuf
  rw [front, List.append_assoc] at both
  exact ⟨_, both.symm⟩

/-- A page that holds a part of the string; the rest starts with the next one. -/
theorem split_of_goesOn {smolBuf : List Uint8} (goesOn : n ≤ str.length)
    (chunk : readTarget target addr n = some smolBuf)
    (string : readTarget target addr (str.length + 1) = some (str ++ [0])) :
    ∃ rest, str = smolBuf ++ rest ∧ smolBuf.length = n ∧
      readTarget target (addr + BitVec.ofNat 64 n) (rest.length + 1) = some (rest ++ [0]) := by
  obtain ⟨k, sizes⟩ := Nat.exists_eq_add_of_le goesOn
  rw [sizes, Nat.add_assoc] at string
  obtain ⟨front, behind⟩ := readTarget_split string
  rw [List.take_append_of_le_length goesOn] at front
  rw [List.drop_append_of_le_length goesOn] at behind
  have same : smolBuf = str.take n := Option.some.inj (chunk.symm.trans front)
  have length : (str.drop n).length = k := by
    rw [List.length_drop, sizes, Nat.add_sub_cancel_left]
  refine ⟨str.drop n, ?_, length_readTarget chunk, ?_⟩
  · rw [same, List.take_append_drop]
  · rwa [length]

/-- From any page on the loop reads the rest of the string, and no page behind it. -/
theorem readCstrTarget_loop {fuel : Nat} {s : CstrLoop}
    (noWrap : s.targetAddr.toNat + str.length < 2 ^ 64) (nonzero : 0 ∉ str)
    (string : readTarget target s.targetAddr (str.length + 1) = some (str ++ [0]))
    (readable : ∀ a, InPages s.targetAddr str.length a → (target a).isSome) (unread : 0 ∉ s.buf)
    (enough : (s.targetAddr.toNat + str.length) / pageSz - s.targetAddr.toNat / pageSz < fuel) :
    ∃ addrs, readCstrTarget target fuel s = some (some (s.buf ++ str, s.addrs ++ addrs)) ∧
      ∀ a ∈ addrs, InPages s.targetAddr str.length a := by
  induction fuel generalizing s str with
  | zero => exact absurd enough (Nat.not_lt_zero _)
  | succ fuel ih =>
    obtain ⟨smolBuf, chunk, read⟩ := CstrLoop.exists_read readable
    rw [readCstrTarget, read, Option.bind_eq_bind, Option.bind_some]
    by_cases ends : str.length < pageSz - s.targetAddr.toNat % pageSz
    · obtain ⟨rest, rfl⟩ := eq_append_zero_of_ends ends chunk string
      have clean : 0 ∉ s.buf ++ str := fun zero => (List.mem_append.mp zero).elim unread nonzero
      rw [← List.append_assoc, if_pos (List.mem_append_right _ List.mem_cons_self),
        cStr_append_zero _ _ clean]
      exact ⟨restOfPage s.targetAddr, rfl, inPages_of_mem_restOfPage⟩
    · obtain ⟨rest, rfl, size, behind⟩ := split_of_goesOn (Nat.not_lt.mp ends) chunk string
      have zeros := not_or.mp (List.mem_append.not.mp nonzero)
      have clean : 0 ∉ s.buf ++ smolBuf := fun zero =>
        (List.mem_append.mp zero).elim unread zeros.1
      rw [List.length_append] at noWrap enough readable ⊢
      have page : pageSz = 4096 := rfl
      have next : (s.targetAddr + BitVec.ofNat 64 smolBuf.length).toNat =
          s.targetAddr.toNat + smolBuf.length := by
        rw [BitVec.toNat_add, BitVec.toNat_ofNat]
        omega
      have later : ∀ a, InPages (s.targetAddr + BitVec.ofNat 64 smolBuf.length) rest.length a →
          InPages s.targetAddr (smolBuf.length + rest.length) a :=
        fun a inside => inside.of_next size noWrap
      have fewer : (s.targetAddr.toNat + smolBuf.length + rest.length) / pageSz -
          (s.targetAddr.toNat + smolBuf.length) / pageSz < fuel := by
        rw [page] at enough size ⊢
        omega
      rw [← size] at behind ⊢
      obtain ⟨addrs, returned, inLater⟩ := @ih rest
        ⟨s.targetAddr + BitVec.ofNat 64 smolBuf.length, s.buf ++ smolBuf,
          s.addrs ++ restOfPage s.targetAddr⟩
        (by rw [next]; omega) zeros.2 behind (fun a inside => readable a (later a inside)) clean
        (by rwa [next])
      refine ⟨restOfPage s.targetAddr ++ addrs, ?_, ?_⟩
      · rw [if_neg clean, returned, List.append_assoc, List.append_assoc]
      · intro a member
        rcases List.mem_append.mp member with here | there
        · exact inPages_of_mem_restOfPage a here
        · exact later a (inLater a there)

/-- A string on readable pages is read in as many rounds as it has pages, and no byte elsewhere. -/
theorem readCstrTarget_spec (noWrap : addr.toNat + str.length < 2 ^ 64) (nonzero : 0 ∉ str)
    (string : readTarget target addr (str.length + 1) = some (str ++ [0]))
    (readable : ∀ a, InPages addr str.length a → (target a).isSome) :
    ∀ fuel, (addr.toNat + str.length) / pageSz - addr.toNat / pageSz < fuel →
      ∃ addrs, readCstrTarget target fuel { targetAddr := addr } = some (some (str, addrs)) ∧
        ∀ a ∈ addrs, InPages addr str.length a := by
  intro fuel enough
  obtain ⟨addrs, returned, inside⟩ :=
    @readCstrTarget_loop target str fuel { targetAddr := addr } noWrap nonzero string readable
      List.not_mem_nil enough
  exact ⟨addrs, returned, inside⟩

end

/-- `"hi!"` over the end of a page; only this page and the next are mapped. -/
def greeting (a : Uint64) : Option Uint8 :=
  if a.toNat / pageSz = 1 ∨ a.toNat / pageSz = 2 then
    some (if a = 0x1ffe then 0x68 else if a = 0x1fff then 0x69 else if a = 0x2000 then 0x21 else 0)
  else none

theorem readCstrTarget_spec_greeting : ∃ addrs,
    readCstrTarget greeting 2 { targetAddr := 0x1ffe } = some (some ([0x68, 0x69, 0x21], addrs)) ∧
      ∀ a ∈ addrs, InPages 0x1ffe 3 a := by
  refine readCstrTarget_spec (by decide) (by decide) (by decide) ?_ 2 (by decide)
  rintro a ⟨low, high⟩
  have page : pageSz = 4096 := rfl
  have mapped : a.toNat / pageSz = 1 ∨ a.toNat / pageSz = 2 := by
    rw [page] at low high ⊢
    change 0x1ffe / 4096 ≤ _ at low
    change _ ≤ (0x1ffe + 3) / 4096 at high
    omega
  rw [greeting, if_pos mapped]
  rfl

end XnuTrace
