import Mathlib.Data.List.Basic
import Mathlib.Data.List.GetD
import Mathlib.Tactic.Ring

/-! Byte memories and little-endian words. A memory is total, so that a load behind
the end of a buffer has a value, though an arbitrary one; `Holds` states which part
of it is known. Nothing here depends on a record format. -/
namespace Memory

abbrev Byte := BitVec 8

/-- `m` has the elements of `bs` from address `p` on. -/
def Holds (m : Nat → α) (p : Nat) (bs : List α) : Prop :=
  ∀ i (h : i < bs.length), m (p + i) = bs[i]

@[simp] theorem holds_nil (m : Nat → α) (p : Nat) : Holds m p [] :=
  fun i h => absurd h (Nat.not_lt_zero i)

@[simp] theorem holds_cons (m : Nat → α) (p : Nat) (b : α) (bs : List α) :
    Holds m p (b :: bs) ↔ m p = b ∧ Holds m (p + 1) bs := by
  constructor
  · intro h
    refine ⟨h 0 (Nat.succ_pos _), fun i hi => ?_⟩
    have := h (i + 1) (by simpa using hi)
    simpa only [List.getElem_cons_succ, Nat.add_assoc, Nat.add_comm 1 i] using this
  · rintro ⟨first, rest⟩ i hi
    cases i with
    | zero => simpa using first
    | succ i =>
      have := rest i (by simpa using hi)
      simpa only [List.getElem_cons_succ, Nat.add_assoc, Nat.add_comm 1 i] using this

@[simp] theorem holds_append (m : Nat → α) (p : Nat) (as bs : List α) :
    Holds m p (as ++ bs) ↔ Holds m p as ∧ Holds m (p + as.length) bs := by
  induction as generalizing p with
  | nil => simp
  | cons a as ih =>
    simp only [List.cons_append, holds_cons, ih, List.length_cons, and_assoc]
    rw [show p + 1 + as.length = p + (as.length + 1) by omega]

instance [DecidableEq α] (m : Nat → α) (p : Nat) (bs : List α) : Decidable (Holds m p bs) :=
  inferInstanceAs (Decidable (∀ i, ∀ _ : i < bs.length, _))

/-- Records of one width `k` lie at multiples of `k`. -/
theorem holds_flatMap {m : Nat → α} {p k : Nat} {f : β → List α} {l : List β}
    (width : ∀ b ∈ l, (f b).length = k) (h : Holds m p (l.flatMap f)) (i : Nat)
    (hi : i < l.length) : Holds m (p + k * i) (f l[i]) := by
  induction l generalizing p i with
  | nil => exact absurd hi (Nat.not_lt_zero i)
  | cons b l ih =>
    rw [List.flatMap_cons, holds_append, width b List.mem_cons_self] at h
    cases i with
    | zero => simpa using h.1
    | succ i =>
      have next := ih (fun b hb => width b (List.mem_cons_of_mem _ hb)) h.2 i (by simpa using hi)
      rwa [show p + k * (i + 1) = p + k + k * i by ring]

theorem length_flatMap_const {f : β → List α} {l : List β} {k : Nat}
    (width : ∀ b ∈ l, (f b).length = k) : (l.flatMap f).length = k * l.length := by
  induction l with
  | nil => simp
  | cons b l ih =>
    rw [List.flatMap_cons, List.length_append, width b List.mem_cons_self,
      ih (fun b hb => width b (List.mem_cons_of_mem _ hb)), List.length_cons]
    ring

/-- The memory that starts with `bs` and continues with `after`. -/
def ofList (bs : List α) (after : Nat → α) (i : Nat) : α :=
  if h : i < bs.length then bs[i] else after (i - bs.length)

theorem holds_ofList (bs : List α) (after : Nat → α) : Holds (ofList bs after) 0 bs := by
  intro i h
  simp [ofList, h]

/-- The `n` elements from `p` on. -/
def slice (m : Nat → α) (p n : Nat) : List α := (List.range n).map fun i => m (p + i)

theorem slice_eq {m : Nat → α} {p : Nat} {bs : List α} (h : Holds m p bs) :
    slice m p bs.length = bs := by
  apply List.ext_getElem
  · simp [slice]
  · intro i _ hi
    simp [slice, h i hi]

theorem slice_succ (mem : Nat → α) (p n : Nat) :
    slice mem p (n + 1) = mem p :: slice mem (p + 1) n := by
  simp only [slice, List.range_succ_eq_map, List.map_cons, List.map_map, Nat.add_zero]
  refine congrArg _ (List.map_congr_left fun i _ => congrArg mem ?_)
  exact Nat.add_right_comm p i 1

theorem slice_congr {mem mem' : Nat → α} {p n : Nat} (same : ∀ i < p + n, mem i = mem' i) :
    slice mem p n = slice mem' p n :=
  List.map_congr_left fun _ member => same _ (Nat.add_lt_add_left (List.mem_range.mp member) p)

/-- The `n` low bytes of `x`, least significant first. -/
def bytes : Nat → Nat → List Byte
  | 0, _ => []
  | n + 1, x => BitVec.ofNat 8 x :: bytes n (x / 256)

/-- The number stored in the `n` bytes from `p` on, least significant first. -/
def load (m : Nat → Byte) (p : Nat) : Nat → Nat
  | 0 => 0
  | n + 1 => (m p).toNat + 256 * load m (p + 1) n

@[simp] theorem length_bytes (n x : Nat) : (bytes n x).length = n := by
  induction n generalizing x with
  | zero => rfl
  | succ n ih => simp [bytes, ih]

theorem load_congr {mem mem' : Nat → Byte} {p n : Nat} (same : ∀ i < p + n, mem i = mem' i) :
    load mem p n = load mem' p n := by
  induction n generalizing p with
  | zero => rfl
  | succ n ih => rw [load, load, same p (by omega), ih fun _ below => same _ (by omega)]

theorem load_bytes {m : Nat → Byte} {p n x : Nat} (h : Holds m p (bytes n x)) :
    load m p n = x % 256 ^ n := by
  induction n generalizing p x with
  | zero => simp [load, Nat.mod_one]
  | succ n ih =>
    rw [bytes, holds_cons] at h
    have low : (m p).toNat = x % 256 := by rw [h.1, BitVec.toNat_ofNat]
    rw [load, low, ih h.2, Nat.pow_succ', Nat.mod_mul]

/-- The bytes of a machine word of `8 * n` bits. -/
def wordBytes (n : Nat) (x : BitVec w) : List Byte := bytes n x.toNat

def loadWord (w n : Nat) (m : Nat → Byte) (p : Nat) : BitVec w := BitVec.ofNat w (load m p n)

@[simp] theorem length_wordBytes (n : Nat) (x : BitVec w) : (wordBytes n x).length = n :=
  length_bytes n _

theorem loadWord_wordBytes {m : Nat → Byte} {p n : Nat} {x : BitVec w} (fits : 256 ^ n = 2 ^ w)
    (h : Holds m p (wordBytes n x)) : loadWord w n m p = x := by
  rw [loadWord, load_bytes h, fits, Nat.mod_eq_of_lt x.isLt, BitVec.ofNat_toNat,
    BitVec.setWidth_eq]

/-- The word at the front of a byte list. -/
def frontWord (w n : Nat) (bs : List Byte) : BitVec w := loadWord w n (ofList bs fun _ => 0) 0

theorem frontWord_wordBytes {n : Nat} {x : BitVec w} (fits : 256 ^ n = 2 ^ w) (rest : List Byte) :
    frontWord w n (wordBytes n x ++ rest) = x :=
  loadWord_wordBytes fits ((holds_append _ _ _ _).mp (holds_ofList _ _)).1

/-- What is loaded is stored again as the bytes that it was loaded from. -/
theorem bytes_load (m : Nat → Byte) (p n : Nat) : bytes n (load m p n) = slice m p n := by
  induction n generalizing p with
  | zero => rfl
  | succ n ih =>
    have low : (m p).toNat < 256 := (m p).isLt
    have rest : ((m p).toNat + 256 * load m (p + 1) n) / 256 = load m (p + 1) n := by omega
    have first : BitVec.ofNat 8 ((m p).toNat + 256 * load m (p + 1) n) = m p := by
      apply BitVec.eq_of_toNat_eq
      rw [BitVec.toNat_ofNat]
      omega
    rw [load, bytes, rest, first, ih, slice_succ]

theorem load_lt (m : Nat → Byte) (p n : Nat) : load m p n < 256 ^ n := by
  induction n generalizing p with
  | zero => exact Nat.one_pos
  | succ n ih =>
    have low : (m p).toNat < 256 := (m p).isLt
    have high := ih (p + 1)
    rw [load, Nat.pow_succ']
    omega

theorem wordBytes_frontWord {n : Nat} {bs : List Byte} (fits : 256 ^ n = 2 ^ w)
    (length : bs.length = n) : wordBytes n (frontWord w n bs) = bs := by
  have small := load_lt (ofList bs fun _ => 0) 0 n
  rw [wordBytes, frontWord, loadWord, BitVec.toNat_ofNat, Nat.mod_eq_of_lt (fits ▸ small),
    bytes_load, ← length, slice_eq (holds_ofList _ _)]

/-- A word is loaded from its own bytes only. -/
theorem frontWord_take {n : Nat} {bs : List Byte} (long : n ≤ bs.length) :
    frontWord w n (bs.take n) = frontWord w n bs := by
  rw [frontWord, frontWord, loadWord, loadWord]
  refine congrArg _ (load_congr fun i below => ?_)
  have inside : i < n := by omega
  simp [ofList, inside, Nat.lt_of_lt_of_le inside long]

end Memory
