import XnuTrace.PackedArray
import XnuTrace.Lib.Toggles

/-! `AtomicSingleBitVectorImpl` under concurrent callers of `set`. Each call is the byte read
inside `get` and, where the element differs, the `fetch_xor`. -/
namespace XnuTrace
open Memory BitBuffer Stepwise

namespace AtomicSingleBitVectorImpl

def wordIdx (idx : Nat) : Nat := NonAtomicSingleBitVectorImpl.wordIdx idx
def innerBitIdx (idx : Nat) : Nat := NonAtomicSingleBitVectorImpl.innerBitIdx idx
def byteSz (sz : Nat) : Nat := NonAtomicSingleBitVectorImpl.byteSz sz

def get (buf : List Byte) (idx : Nat) : Option Uint64 := NonAtomicSingleBitVectorImpl.get buf idx

/-- `wptr->fetch_xor(bit_mask<T>(bidx, NBits))`. -/
def fetchXor (buf : List Byte) (idx : Nat) : Option (List Byte) := do
  let word ← loadAt 8 buf (wordIdx idx)
  let mask ← bitMask 8 (innerBitIdx idx) 1
  storeAt buf (wordIdx idx) (word ^^^ mask)

/-- A call `set(idx, val)` of a vector of `sz` elements. -/
structure SetCall (sz : Nat) where
  idx : Nat
  val : Uint64
  inside : idx < sz
  single : val = 0 ∨ val = 1

/-- The calls that a caller has not finished; `toggling` is set behind the `get` of the first
where it found another value. -/
structure Caller (sz : Nat) where
  calls : List (SetCall sz)
  toggling : Bool := false

structure State (n sz : Nat) where
  mBuf : List Byte
  callers : Fin n → Caller sz

variable {n sz : Nat}

def step (s : State n sz) (k : Fin n) : Option (State n sz) :=
  match s.callers k with
  | ⟨[], _⟩ => none
  | ⟨call :: calls, true⟩ => do
    let mBuf ← fetchXor s.mBuf call.idx
    some ⟨mBuf, Function.update s.callers k ⟨calls, false⟩⟩
  | ⟨call :: calls, false⟩ => do
    let held ← get s.mBuf call.idx
    if held ≠ call.val then
      some { s with callers := Function.update s.callers k ⟨call :: calls, true⟩ }
    else some { s with callers := Function.update s.callers k ⟨calls, false⟩ }

def Finished (s : State n sz) : Prop := ∀ k, (s.callers k).calls = []

def Named (s : State n sz) (k : Fin n) (idx : Nat) : Prop :=
  ∃ call ∈ (s.callers k).calls, call.idx = idx

def Agreed (s : State n sz) (idx : Nat) (val : Uint64) : Prop :=
  ∀ k, ∀ call ∈ (s.callers k).calls, call.idx = idx → call.val = val

/-- Behind every order of steps that finishes all calls, an element that all calls set to one
value holds it and an element that no call names is as before. -/
def Kept (s : State n sz) : Prop :=
  ∀ order s', run step s order = some s' → Finished s' →
    (∀ idx val, (∃ k, Named s k idx) → Agreed s idx val → get s'.mBuf idx = some val) ∧
      ∀ idx < sz, (∀ k, ¬ Named s k idx) → get s'.mBuf idx = get s.mBuf idx

/-- An element that all calls set to one value has it already, or one caller makes all of them. -/
def Uncontended (s : State n sz) : Prop :=
  ∀ idx val, (∃ k, Named s k idx) → Agreed s idx val →
    get s.mBuf idx = some val ∨ ∀ k k', Named s k idx → Named s k' idx → k = k'

variable {s s' : State n sz}

theorem get_eq {buf : List Byte} {idx : Nat} (inside : idx < 8 * buf.length) :
    get buf idx = some (if bit buf idx then 1 else 0) := by
  have room : NonAtomicSingleBitVectorImpl.wordIdx idx + 1 ≤ buf.length := by
    unfold NonAtomicSingleBitVectorImpl.wordIdx
    omega
  obtain ⟨x, read, bits⟩ := NonAtomicSingleBitVectorImpl.get_field room
  refine read.trans (congrArg some (BitVec.eq_of_getLsbD_eq fun k hk => ?_))
  rw [bits, Nat.one_mul]
  by_cases first : k = 0
  · subst first
    cases bit buf idx <;> rfl
  · rw [decide_eq_false (by omega), Bool.false_and]
    cases bit buf idx with
    | false => exact BitVec.getLsbD_zero.symm
    | true => simp [BitVec.getLsbD_one, first]

/-- The `fetch_xor` toggles its own element and no other one of the byte. -/
theorem fetchXor_spec {buf : List Byte} {idx : Nat} (inside : idx < 8 * buf.length) :
    ∃ buf', fetchXor buf idx = some buf' ∧ buf'.length = buf.length ∧
      bit buf' = Function.update (bit buf) idx !bit buf idx := by
  have room : idx / 8 + 8 / 8 ≤ buf.length := by omega
  have low : idx % 8 + 1 ≤ 8 := Nat.mod_lt idx (by decide)
  have whole : 8 * (idx / 8) + idx % 8 = idx := Nat.div_add_mod idx 8
  obtain ⟨word, loaded⟩ := loadAt_eq_some (w := 8) room
  obtain ⟨mask, masked, bits⟩ := bitMask_spec (w := 8) le_rfl low (by decide)
  obtain ⟨buf', stored⟩ := storeAt_eq_some (word ^^^ mask) room
  obtain ⟨same, written⟩ := writes_of_update (f := fun _ => !bit buf idx) rfl loaded stored low
    fun k hk => by
      rw [BitVec.getLsbD_xor, bits k hk]
      by_cases own : idx % 8 ≤ k ∧ k < idx % 8 + 1
      · obtain rfl : k = idx % 8 := by omega
        rw [if_pos own, decide_eq_true own, Bool.xor_true, getLsbD_of_loadAt rfl loaded, whole,
          decide_eq_true hk, Bool.true_and]
      · rw [if_neg own, decide_eq_false own, Bool.xor_false]
  refine ⟨buf', ?_, same, funext fun k => ?_⟩
  · have load : loadAt 8 buf (wordIdx idx) = some word := loaded
    have mask : bitMask 8 (innerBitIdx idx) 1 = some mask := masked
    rw [fetchXor, load, mask]
    exact stored
  · rw [written, whole]
    by_cases own : k = idx
    · subst own
      rw [if_pos ⟨le_rfl, Nat.lt_succ_self _⟩, Function.update_self]
    · rw [if_neg (by omega), Function.update_of_ne own]

/-- The element as a bit, `val` being 0 or 1. -/
def SetCall.toggle (call : SetCall sz) : Nat × Bool := (call.idx, decide (call.val = 1))

def Caller.toggles (caller : Caller sz) : Toggles.Caller Nat :=
  ⟨caller.calls.map SetCall.toggle, caller.toggling⟩

def State.cells (s : State n sz) : Toggles.State (Fin n) Nat :=
  ⟨bit s.mBuf, fun k => (s.callers k).toggles⟩

/-- The buffer has room for all elements. -/
def Room (s : State n sz) : Prop := sz ≤ 8 * s.mBuf.length

theorem room_init (total : sz + 7 < 2 ^ 64) (callers : Fin n → Caller sz) {mBuf : List Byte}
    (padded : mBuf.length = roundupPow2Mul (byteSz sz) 16) : Room ⟨mBuf, callers⟩ := by
  rw [Room, padded]
  rcases Nat.eq_zero_or_pos sz with rfl | some
  · exact Nat.zero_le _
  · have last := NonAtomicSingleBitVectorImpl.inside_of_lt total (Nat.sub_lt some one_pos)
    unfold NonAtomicSingleBitVectorImpl.wordIdx at last
    unfold byteSz
    omega

theorem word_eq_iff {val : Uint64} (single : val = 0 ∨ val = 1) (b : Bool) :
    (if b then 1 else 0) = val ↔ b = decide (val = 1) := by
  rcases single with rfl | rfl <;> cases b <;> decide

theorem get_eq_some_iff {buf : List Byte} {idx : Nat} {val : Uint64}
    (inside : idx < 8 * buf.length) (single : val = 0 ∨ val = 1) :
    get buf idx = some val ↔ bit buf idx = decide (val = 1) := by
  rw [get_eq inside, Option.some_inj, word_eq_iff single]

theorem cells_update (mBuf : List Byte) (callers : Fin n → Caller sz) (k : Fin n)
    (caller : Caller sz) : State.cells ⟨mBuf, Function.update callers k caller⟩ =
      ⟨bit mBuf, Function.update (fun k => (callers k).toggles) k caller.toggles⟩ := by
  refine congrArg (Toggles.State.mk _) (funext fun k' => ?_)
  by_cases own : k' = k
  · subst own
    simp
  · simp [own]

theorem cells_callers {k : Fin n} {calls : List (SetCall sz)} {toggling : Bool}
    (head : s.callers k = ⟨calls, toggling⟩) :
    s.cells.callers k = ⟨calls.map SetCall.toggle, toggling⟩ :=
  congrArg Caller.toggles head

theorem step_cells_of_some {t : State n sz} {k : Fin n} (took : step s k = some t)
    (bits : Toggles.step s.cells k = some t.cells) (room : Room t) :
    (step s k).map State.cells = Toggles.step s.cells k ∧ ∀ s', step s k = some s' → Room s' := by
  rw [took, bits]
  refine ⟨rfl, fun s' same => ?_⟩
  cases same
  exact room

/-- Each step on the buffer is a step on its bits, and keeps its length. -/
theorem step_cells (room : Room s) (k : Fin n) :
    (step s k).map State.cells = Toggles.step s.cells k ∧
      ∀ s', step s k = some s' → Room s' := by
  rcases head : s.callers k with ⟨_ | ⟨call, calls⟩, toggling⟩
  · have stuck : step s k = none := by rw [step, head]
    rw [stuck, Toggles.step, cells_callers head]
    exact ⟨rfl, fun _ took => by cases took⟩
  · have inside : call.idx < 8 * s.mBuf.length := call.inside.trans_le room
    have first := cells_callers head
    cases toggling with
    | true =>
      obtain ⟨mBuf, fetched, same, bits⟩ := fetchXor_spec inside
      have took : step s k = some ⟨mBuf, Function.update s.callers k ⟨calls, false⟩⟩ := by
        rw [step, head]
        exact congrArg (Option.bind · _) fetched
      refine step_cells_of_some took ?_ (room.trans_eq (congrArg (8 * ·) same.symm))
      rw [cells_update, bits]
      exact Toggles.step_toggle first
    | false =>
      have held := get_eq inside
      have read := get_eq_some_iff inside call.single
      by_cases same : bit s.mBuf call.idx = decide (call.val = 1)
      · have took : step s k =
            some { s with callers := Function.update s.callers k ⟨calls, false⟩ } := by
          rw [step, head]
          refine (congrArg (Option.bind · _) (read.mpr same)).trans ?_
          exact if_neg (not_not.mpr rfl)
        refine step_cells_of_some took ?_ room
        rw [cells_update]
        exact Toggles.step_same first same
      · have took : step s k =
            some { s with callers := Function.update s.callers k ⟨call :: calls, true⟩ } := by
          rw [step, head]
          refine (congrArg (Option.bind · _) held).trans ?_
          exact if_pos fun value => same (read.mp (held.trans (congrArg some value)))
        refine step_cells_of_some took ?_ room
        rw [cells_update]
        exact Toggles.step_differ first same

/-- The runs on the buffer are those on its bits. -/
theorem run_cells (room : Room s) (order : List (Fin n)) :
    (run step s order).map State.cells = run Toggles.step s.cells order ∧
      ∀ s', run step s order = some s' → Room s' := by
  induction order using List.reverseRecOn with
  | nil =>
    refine ⟨rfl, fun s' ran => ?_⟩
    cases ran
    exact room
  | append_singleton order k ih =>
    obtain ⟨same, roomy⟩ := ih
    rw [run_concat, run_concat, ← same]
    cases ran : run step s order with
    | none => exact ⟨rfl, fun _ took => by cases took⟩
    | some mid => exact step_cells (roomy mid ran) k

theorem named_cells {k : Fin n} {idx : Nat} : Toggles.Named s.cells k idx ↔ Named s k idx := by
  constructor
  · rintro ⟨v, member⟩
    obtain ⟨call, member, toggle⟩ := List.mem_map.mp member
    exact ⟨call, member, congrArg Prod.fst toggle⟩
  · rintro ⟨call, member, rfl⟩
    exact ⟨_, List.mem_map_of_mem member⟩

theorem single_ext {val val' : Uint64} (single : val = 0 ∨ val = 1) (single' : val' = 0 ∨ val' = 1)
    (same : decide (val = 1) = decide (val' = 1)) : val = val' := by
  rcases single with rfl | rfl <;> rcases single' with rfl | rfl
  · rfl
  · exact absurd same (by decide)
  · exact absurd same (by decide)
  · rfl

theorem agreed_cells {idx : Nat} {val : Uint64} (single : val = 0 ∨ val = 1) :
    Toggles.Agreed s.cells idx (decide (val = 1)) ↔ Agreed s idx val := by
  constructor
  · intro agreed k call member own
    exact single_ext call.single single (agreed k _ (List.mem_map_of_mem member) own)
  · intro agreed k toggle member own
    obtain ⟨call, called, rfl⟩ := List.mem_map.mp member
    exact congrArg (fun val => decide (val = 1)) (agreed k call called own)

/-- What holds of every element with the value its callers agree on, in words and in bits. -/
theorem forall_agreed {P : Nat → Uint64 → Prop} {Q : Nat → Bool → Prop}
    (same : ∀ idx < sz, ∀ val, val = 0 ∨ val = 1 → (P idx val ↔ Q idx (decide (val = 1)))) :
    (∀ idx val, (∃ k, Named s k idx) → Agreed s idx val → P idx val) ↔
      ∀ i v, (∃ k, Toggles.Named s.cells k i) → Toggles.Agreed s.cells i v → Q i v := by
  constructor
  · intro all i v named agreed
    obtain ⟨k, call, member, rfl⟩ := named.imp fun _ => named_cells.mp
    have value : v = decide (call.val = 1) :=
      (agreed k _ (List.mem_map_of_mem member) rfl).symm
    rw [value] at agreed ⊢
    exact (same _ call.inside _ call.single).mp
      (all _ _ ⟨k, call, member, rfl⟩ ((agreed_cells call.single).mp agreed))
  · intro all idx val named agreed
    obtain ⟨k, call, member, rfl⟩ := named
    obtain rfl := agreed k call member rfl
    exact (same _ call.inside _ call.single).mpr
      (all _ _ ⟨k, named_cells.mpr ⟨call, member, rfl⟩⟩ ((agreed_cells call.single).mpr agreed))

theorem finished_cells : Toggles.Finished s.cells ↔ Finished s :=
  forall_congr' fun _ => List.map_eq_nil_iff

theorem uncontended_cells (room : Room s) : Toggles.Uncontended s.cells ↔ Uncontended s := by
  refine (forall_agreed fun idx inside val single => ?_).symm
  rw [get_eq_some_iff (inside.trans_le room) single]
  simp only [named_cells]
  rfl

theorem kept_cells (room : Room s) : Toggles.Kept s.cells ↔ Kept s := by
  have values : ∀ s' : State n sz, Room s' →
      ((∀ idx val, (∃ k, Named s k idx) → Agreed s idx val → get s'.mBuf idx = some val) ↔
        ∀ i v, (∃ k, Toggles.Named s.cells k i) → Toggles.Agreed s.cells i v →
          s'.cells.cells i = v) := fun s' roomy =>
    forall_agreed fun idx inside val single => get_eq_some_iff (inside.trans_le roomy) single
  constructor
  · intro kept order s' ran finished
    obtain ⟨sameRun, roomy⟩ := run_cells room order
    rw [ran] at sameRun
    obtain ⟨set, unnamed⟩ := kept order s'.cells sameRun.symm (finished_cells.mpr finished)
    refine ⟨(values s' (roomy s' ran)).mpr set, fun idx inside unnamedIdx => ?_⟩
    have bits : bit s'.mBuf idx = bit s.mBuf idx :=
      unnamed idx fun k named => unnamedIdx k (named_cells.mp named)
    rw [get_eq (inside.trans_le (roomy s' ran)), get_eq (inside.trans_le room), bits]
  · intro kept order t ran finished
    obtain ⟨sameRun, roomy⟩ := run_cells room order
    obtain ⟨s', ran', rfl⟩ := Option.map_eq_some_iff.mp (sameRun.trans ran)
    exact ⟨(values s' (roomy s' ran')).mp (kept order s' ran' (finished_cells.mp finished)).1,
      fun i unnamed => Toggles.cells_of_unnamed unnamed ran⟩

/-- What the callers agree on is kept in every order of their steps exactly where no two of them
set an element that does not have its value. -/
theorem sets_kept_iff (room : Room s) (fresh : ∀ k, (s.callers k).toggling = false) :
    Kept s ↔ Uncontended s :=
  (kept_cells room).symm.trans ((Toggles.kept_iff fresh).trans (uncontended_cells room))

/-- A new vector of eight elements, and two callers with a call each. -/
def twoCallers (first second : SetCall 8) : State 2 8 where
  mBuf := List.replicate 16 0
  callers k := ⟨[if k = 0 then first else second], false⟩

/-- Two elements of one byte. -/
theorem sets_kept_iff_apart :
    Kept (twoCallers ⟨0, 1, by decide, .inr rfl⟩ ⟨3, 1, by decide, .inr rfl⟩) ↔
      Uncontended (twoCallers ⟨0, 1, by decide, .inr rfl⟩ ⟨3, 1, by decide, .inr rfl⟩) :=
  sets_kept_iff (room_init (by decide) _ (by decide)) fun _ => rfl

/-- Both set the same element to 1, and it is 0 in the end. -/
theorem not_kept_same :
    ¬ Kept (twoCallers ⟨0, 1, by decide, .inr rfl⟩ ⟨0, 1, by decide, .inr rfl⟩) := by
  intro kept
  have collided : ∃ s',
      run step (twoCallers ⟨0, 1, by decide, .inr rfl⟩ ⟨0, 1, by decide, .inr rfl⟩) [0, 1, 0, 1] =
        some s' ∧ Finished s' ∧ get s'.mBuf 0 = some 0 :=
    ⟨_, rfl, Fin.forall_fin_two.mpr ⟨rfl, rfl⟩, rfl⟩
  obtain ⟨s', ran, finished, lost⟩ := collided
  have set := (kept _ s' ran finished).1 0 1 ⟨0, _, List.mem_cons_self .., rfl⟩
    (Fin.forall_fin_two.mpr ⟨by simp [twoCallers], by simp [twoCallers]⟩)
  exact absurd (lost.symm.trans set) (by decide)

end AtomicSingleBitVectorImpl

end XnuTrace
