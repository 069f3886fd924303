import XnuTrace.Lib.Memory
import Mathlib.Data.List.Induction
import Mathlib.Logic.Function.Basic

/-! Byte buffers read as one little-endian bit string. Words are loaded and stored at
byte offsets, `none` outside the buffer; `Writes` states what a store does to the bits,
`Packed` that fields of one width lie side by side. -/
namespace BitBuffer
open Memory

def bit (buf : List Byte) (k : Nat) : Bool := (buf.getD (k / 8) 0).getLsbD (k % 8)

def loadAt (w : Nat) (buf : List Byte) (off : Nat) : Option (BitVec w) :=
  if off + w / 8 ≤ buf.length then some (loadWord w (w / 8) (fun i => buf.getD i 0) off)
  else none

def storeAt (buf : List Byte) (off : Nat) (x : BitVec w) : Option (List Byte) :=
  if off + w / 8 ≤ buf.length then
    some (buf.take off ++ wordBytes (w / 8) x ++ buf.drop (off + w / 8))
  else none

theorem testBit_load (m : Nat → Byte) (n p k : Nat) :
    (load m p n).testBit k = (decide (k < 8 * n) && (m (p + k / 8)).getLsbD (k % 8)) := by
  induction n generalizing p k with
  | zero => simp [load]
  | succ n ih =>
    have low : (m p).toNat < 2 ^ 8 := (m p).isLt
    rw [load, show (256 : Nat) = 2 ^ 8 from rfl, Nat.add_comm, Nat.testBit_two_pow_mul_add _ low,
      ih (p + 1) (k - 8)]
    by_cases first : k < 8
    · simp only [first, if_true, show k < 8 * (n + 1) by omega, decide_true, Bool.true_and,
        Nat.div_eq_of_lt first, Nat.mod_eq_of_lt first, Nat.add_zero]
      rfl
    · rw [if_neg first, show p + 1 + (k - 8) / 8 = p + k / 8 by omega,
        show (k - 8) % 8 = k % 8 by omega]
      congr 1
      exact decide_eq_decide.mpr (by omega)

theorem getLsbD_bytes (n x i j : Nat) (hi : i < n) (hj : j < 8) :
    ((bytes n x).getD i 0).getLsbD j = x.testBit (8 * i + j) := by
  induction n generalizing x i with
  | zero => omega
  | succ n ih =>
    cases i with
    | zero =>
      rw [bytes, List.getD_cons_zero, BitVec.getLsbD_ofNat, decide_eq_true hj, Bool.true_and,
        Nat.mul_zero, Nat.zero_add]
    | succ i =>
      rw [bytes, List.getD_cons_succ, ih (x / 256) i (by omega),
        show (256 : Nat) = 2 ^ 8 from rfl, Nat.testBit_div_two_pow]
      congr 1
      omega

theorem getLsbD_of_loadAt {buf : List Byte} {off : Nat} {x : BitVec w} (bytewise : w % 8 = 0)
    (loaded : loadAt w buf off = some x) (k : Nat) :
    x.getLsbD k = (decide (k < w) && bit buf (8 * off + k)) := by
  obtain ⟨_, ⟨⟩⟩ := Option.ite_none_right_eq_some.mp loaded
  rw [loadWord, BitVec.getLsbD_ofNat, testBit_load, bit,
    show 8 * (w / 8) = w by omega, show (8 * off + k) / 8 = off + k / 8 by omega,
    show (8 * off + k) % 8 = k % 8 by omega]
  cases decide (k < w) <;> rfl

theorem loadAt_eq_some {buf : List Byte} {off : Nat} (inside : off + w / 8 ≤ buf.length) :
    ∃ x : BitVec w, loadAt w buf off = some x :=
  ⟨_, if_pos inside⟩

theorem loadAt_eq_none {buf : List Byte} {off : Nat} (outside : buf.length < off + w / 8) :
    loadAt w buf off = none :=
  if_neg (by omega)

theorem storeAt_eq_some {buf : List Byte} {off : Nat} (x : BitVec w)
    (inside : off + w / 8 ≤ buf.length) : ∃ buf', storeAt buf off x = some buf' :=
  ⟨_, if_pos inside⟩

theorem storeAt_eq_none {buf : List Byte} {off : Nat} (x : BitVec w)
    (outside : buf.length < off + w / 8) : storeAt buf off x = none :=
  if_neg (by omega)

/-- The `n` bits from `pos` on become `f`; the other bits and the length stay. -/
def Writes (buf buf' : List Byte) (pos n : Nat) (f : Nat → Bool) : Prop :=
  buf'.length = buf.length ∧
    ∀ k, bit buf' k = if pos ≤ k ∧ k < pos + n then f (k - pos) else bit buf k

theorem writes_of_storeAt {buf buf' : List Byte} {off : Nat} {x : BitVec w} (bytewise : w % 8 = 0)
    (stored : storeAt buf off x = some buf') : Writes buf buf' (8 * off) w x.getLsbD := by
  obtain ⟨inside, ⟨⟩⟩ := Option.ite_none_right_eq_some.mp stored
  have whole : off ⊓ buf.length = off := by omega
  refine ⟨by simp only [List.length_append, List.length_take, List.length_drop,
    length_wordBytes]; omega, fun k => ?_⟩
  unfold bit
  rw [List.append_assoc]
  rcases Nat.lt_or_ge (k / 8) off with before | behind
  · rw [if_neg (by omega), List.getD_append _ _ _ _ (by rw [List.length_take]; omega)]
    congr 1
    simp [List.getD_eq_getElem?_getD, before]
  · rw [List.getD_append_right _ _ _ _ (by rw [List.length_take]; omega), List.length_take, whole]
    rcases Nat.lt_or_ge (k / 8) (off + w / 8) with inWord | after
    · rw [if_pos (by omega), List.getD_append _ _ _ _ (by rw [length_wordBytes]; omega),
        wordBytes, getLsbD_bytes _ _ _ _ (by omega) (by omega), BitVec.testBit_toNat]
      congr 1
      omega
    · rw [if_neg (by omega), List.getD_append_right _ _ _ _ (by rw [length_wordBytes]; omega),
        length_wordBytes]
      congr 1
      simp only [List.getD_eq_getElem?_getD, List.getElem?_drop]
      congr 2
      omega

/-- A word is loaded, `n` of its bits are replaced and it is stored again. -/
theorem writes_of_update {buf buf' : List Byte} {off sb n : Nat} {x y : BitVec w}
    {f : Nat → Bool} (bytewise : w % 8 = 0) (loaded : loadAt w buf off = some x)
    (stored : storeAt buf off y = some buf') (fits : sb + n ≤ w)
    (updated : ∀ k < w, y.getLsbD k = if sb ≤ k ∧ k < sb + n then f (k - sb) else x.getLsbD k) :
    Writes buf buf' (8 * off + sb) n f := by
  obtain ⟨same, bits⟩ := writes_of_storeAt bytewise stored
  refine ⟨same, fun k => ?_⟩
  rw [bits k]
  by_cases word : 8 * off ≤ k ∧ k < 8 * off + w
  · rw [if_pos word, updated _ (by omega), getLsbD_of_loadAt bytewise loaded,
      show 8 * off + (k - 8 * off) = k by omega, show k - 8 * off - sb = k - (8 * off + sb) by omega]
    have inside : k - 8 * off < w := by omega
    by_cases field : 8 * off + sb ≤ k ∧ k < 8 * off + sb + n
    · rw [if_pos field, if_pos (by omega)]
    · rw [if_neg field, if_neg (by omega), decide_eq_true inside, Bool.true_and]
  · rw [if_neg word, if_neg (by omega)]

theorem Writes.congr {buf buf' : List Byte} {pos n : Nat} {f g : Nat → Bool}
    (written : Writes buf buf' pos n f) (same : ∀ k < n, f k = g k) :
    Writes buf buf' pos n g := by
  refine ⟨written.1, fun k => (written.2 k).trans ?_⟩
  by_cases field : pos ≤ k ∧ k < pos + n
  · rw [if_pos field, if_pos field, same _ (by omega)]
  · rw [if_neg field, if_neg field]

theorem Writes.append {buf mid buf' : List Byte} {pos n m : Nat} {f : Nat → Bool}
    (low : Writes buf mid pos n f) (high : Writes mid buf' (pos + n) m fun k => f (n + k)) :
    Writes buf buf' pos (n + m) f := by
  refine ⟨high.1.trans low.1, fun k => ?_⟩
  rw [high.2, low.2]
  by_cases upper : pos + n ≤ k ∧ k < pos + n + m
  · rw [if_pos upper, if_pos (by omega)]
    exact congrArg f (by omega)
  · rw [if_neg upper]
    by_cases lower : pos ≤ k ∧ k < pos + n
    · rw [if_pos lower, if_pos (by omega)]
    · rw [if_neg lower, if_neg (by omega)]

/-- Element `i < sz` takes the bits from `n * i` to `n * (i + 1)`. -/
def Packed (n sz : Nat) (buf : List Byte) (f : Nat → BitVec v) : Prop :=
  ∀ i < sz, ∀ k < n, bit buf (n * i + k) = (f i).getLsbD k

theorem bit_replicate (len k : Nat) : bit (List.replicate len 0) k = false := by
  rw [bit, List.getD_eq_getElem?_getD, List.getElem?_replicate]
  split <;> simp

theorem packed_zero (n sz len : Nat) :
    Packed n sz (List.replicate len 0) fun _ => (0 : BitVec v) := by
  intro i _ k _
  exact (bit_replicate _ _).trans BitVec.getLsbD_zero.symm

theorem Packed.set {n sz i : Nat} {buf buf' : List Byte} {f : Nat → BitVec v} {x : BitVec v}
    (packed : Packed n sz buf f) (written : Writes buf buf' (n * i) n x.getLsbD) :
    Packed n sz buf' (Function.update f i x) := by
  intro j hj k hk
  rw [written.2]
  rcases Nat.lt_trichotomy i j with before | rfl | after
  · have apart : n * (i + 1) ≤ n * j := Nat.mul_le_mul_left n before
    rw [Nat.mul_succ] at apart
    rw [if_neg (by omega), packed j hj k hk, Function.update_of_ne (by omega)]
  · rw [if_pos (by omega), Nat.add_sub_cancel_left, Function.update_self]
  · have apart : n * (j + 1) ≤ n * i := Nat.mul_le_mul_left n after
    rw [Nat.mul_succ] at apart
    rw [if_neg (by omega), packed j hj k hk, Function.update_of_ne (by omega)]

/-- The elements after a sequence of assignments to an array of zeros. -/
def assigned [Zero α] (ops : List (Nat × α)) : Nat → α :=
  ops.foldl (fun f op => Function.update f op.1 op.2) fun _ => 0

theorem assigned_concat [Zero α] (ops : List (Nat × α)) (i : Nat) (x : α) :
    assigned (ops ++ [(i, x)]) = Function.update (assigned ops) i x := by
  rw [assigned, List.foldl_append]
  rfl

/-- Assignments that each keep a relation to the array keep it along a run. -/
theorem foldlM_assigned [Zero α] {set : S → Nat → α → Option S} {rel : S → (Nat → α) → Prop}
    {ok : Nat → α → Prop} {s : S} (ops : List (Nat × α)) (initial : rel s fun _ => 0)
    (step : ∀ {s f i x}, rel s f → ok i x →
      ∃ s', set s i x = some s' ∧ rel s' (Function.update f i x))
    (valid : ∀ op ∈ ops, ok op.1 op.2) :
    ∃ s', ops.foldlM (fun s op => set s op.1 op.2) s = some s' ∧ rel s' (assigned ops) := by
  induction ops using List.reverseRecOn with
  | nil => exact ⟨s, rfl, initial⟩
  | append_singleton ops op ih =>
    obtain ⟨mid, run, related⟩ := ih fun o ho => valid o (List.mem_append_left _ ho)
    obtain ⟨s', next, related'⟩ := step related (valid op (by simp))
    refine ⟨s', ?_, by rw [assigned_concat]; exact related'⟩
    rw [List.foldlM_append, run]
    simpa using next

end BitBuffer
