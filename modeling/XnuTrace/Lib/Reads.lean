import XnuTrace.Lib.Memory

/-! Computations on a memory that tell which addresses they read. A bound on the addresses
is proved by a rule for each way to combine computations, the loop included. -/

/-- A value and the addresses that were read for it. -/
structure Reads (α : Type) where
  val : α
  addrs : List Nat

namespace Reads
open Memory

instance : Monad Reads where
  pure a := { val := a, addrs := [] }
  bind r f := { val := (f r.val).val, addrs := r.addrs ++ (f r.val).addrs }

/-- The bytes at `p` to `p + n - 1`. -/
def bytes (m : Nat → Byte) (p n : Nat) : Reads (List Byte) :=
  { val := slice m p n, addrs := List.range' p n }

def word (w n : Nat) (m : Nat → Byte) (p : Nat) : Reads (BitVec w) :=
  { val := loadWord w n m p, addrs := List.range' p n }

/-- Every address read is below `hi`. -/
def Below (hi : Nat) (r : Reads α) : Prop := ∀ a ∈ r.addrs, a < hi

section
variable {α β : Type} {hi : Nat}

@[simp] theorem val_pure (a : α) : (pure a : Reads α).val = a := rfl

@[simp] theorem val_bind (r : Reads α) (f : α → Reads β) : (r >>= f).val = (f r.val).val := rfl

@[simp] theorem addrs_pure (a : α) : (pure a : Reads α).addrs = [] := rfl

@[simp] theorem addrs_bind (r : Reads α) (f : α → Reads β) :
    (r >>= f).addrs = r.addrs ++ (f r.val).addrs := rfl

@[simp] theorem val_bytes (m : Nat → Byte) (p n : Nat) : (bytes m p n).val = slice m p n := rfl

@[simp] theorem val_word (w n : Nat) (m : Nat → Byte) (p : Nat) :
    (word w n m p).val = loadWord w n m p := rfl

@[simp] theorem below_pure (a : α) : Below hi (pure a : Reads α) :=
  fun _ member => absurd member List.not_mem_nil

@[simp] theorem below_bind (r : Reads α) (f : α → Reads β) :
    Below hi (r >>= f) ↔ Below hi r ∧ Below hi (f r.val) := List.forall_mem_append

theorem val_foldlM (f : β → α → Reads β) (l : List α) (b : β) :
    (l.foldlM f b).val = l.foldl (fun b a => (f b a).val) b := by
  induction l generalizing b with
  | nil => rfl
  | cons a l ih => rw [List.foldlM_cons, val_bind, ih, List.foldl_cons]

theorem below_range {p n : Nat} (some : 0 < n) : (∀ a ∈ List.range' p n, a < hi) ↔ p + n ≤ hi := by
  constructor
  · intro all
    have last := all (p + (n - 1)) (List.mem_range'_1.mpr (by omega))
    omega
  · intro fits a member
    have := List.mem_range'_1.mp member
    omega

theorem below_bytes (m : Nat → Byte) {p n : Nat} (some : 0 < n) :
    Below hi (bytes m p n) ↔ p + n ≤ hi := below_range some

theorem below_word (w : Nat) {n : Nat} (some : 0 < n) (m : Nat → Byte) (p : Nat) :
    Below hi (word w n m p) ↔ p + n ≤ hi := below_range some

theorem Below.mono {hi' : Nat} {r : Reads α} (below : Below hi r) (more : hi ≤ hi') :
    Below hi' r := fun a member => (below a member).trans_le more

end

/-- `for (; !stop(it); next(it))`: the state in which the loop ends, `none` if that takes
more than `fuel` steps. -/
def traverse {I : Type} (stop : I → Bool) (next : I → Reads I) : Nat → I → Reads (Option I)
  | 0, it => pure (if stop it then some it else none)
  | fuel + 1, it => if stop it then pure (some it) else next it >>= traverse stop next fuel

section
variable {I D : Type} {stop : I → Bool} {next : I → Reads I}

theorem traverse_stop {it : I} (stopped : stop it = true) (fuel : Nat) :
    traverse stop next fuel it = pure (some it) := by
  cases fuel <;> simp only [traverse, stopped, if_true]

theorem traverse_step {it : I} (active : stop it = false) (fuel : Nat) :
    traverse stop next (fuel + 1) it = next it >>= traverse stop next fuel := by
  simp only [traverse, active, Bool.false_eq_true, if_false]

/-- Whatever the loop's steps keep bounds what it reads. -/
theorem traverse_below {Inv : I → Prop} {hi : Nat}
    (bound : ∀ it, Inv it → stop it = false → Below hi (next it) ∧ Inv (next it).val)
    {it : I} (start : Inv it) (fuel : Nat) : Below hi (traverse stop next fuel it) := by
  induction fuel generalizing it with
  | zero => exact below_pure _
  | succ fuel ih =>
    cases active : stop it with
    | true =>
      rw [traverse_stop active]
      exact below_pure _
    | false =>
      obtain ⟨below, kept⟩ := bound it start active
      rw [traverse_step active, below_bind]
      exact ⟨below, ih kept⟩

/-- A loop whose remaining steps `R` relates to a list ends behind the last of them. -/
theorem traverse_spec {R : I → List D → Prop} (active : ∀ it ds, R it ds → stop it = false)
    (ends : ∀ it, R it [] → stop (next it).val = true)
    (moves : ∀ it d ds, R it (d :: ds) → R (next it).val ds) {it : I} {ds : List D}
    (remaining : R it ds) {fuel : Nat} (enough : ds.length < fuel) :
    ∃ last, R last [] ∧ (traverse stop next fuel it).val = some (next last).val ∧
      ∀ a ∈ (next last).addrs, a ∈ (traverse stop next fuel it).addrs := by
  obtain ⟨fuel, rfl⟩ : ∃ k, fuel = k + 1 := ⟨fuel - 1, by omega⟩
  induction ds generalizing it fuel with
  | nil =>
    rw [traverse_step (active it [] remaining)]
    have stopped := @traverse_stop _ _ next _ (ends it remaining) fuel
    refine ⟨it, remaining, ?_, fun a member => ?_⟩
    · rw [val_bind, stopped, val_pure]
    · exact List.mem_append_left _ member
  | cons d ds ih =>
    obtain ⟨fuel, rfl⟩ : ∃ k, fuel = k + 1 := ⟨fuel - 1, by simp at enough; omega⟩
    rw [traverse_step (active it _ remaining)]
    obtain ⟨last, atLast, val, reads⟩ :=
      ih (moves it d ds remaining) fuel (by simpa using enough)
    exact ⟨last, atLast, val, fun a member => List.mem_append_right _ (reads a member)⟩

/-- A loop that never leaves the states in which it goes on does not end. -/
theorem traverse_stuck {Inv : I → Prop}
    (stays : ∀ it, Inv it → stop it = false ∧ Inv (next it).val) {it : I} (start : Inv it)
    (fuel : Nat) : (traverse stop next fuel it).val = none := by
  induction fuel generalizing it with
  | zero => simp [traverse, (stays it start).1]
  | succ fuel ih =>
    obtain ⟨active, kept⟩ := stays it start
    rw [traverse_step active, val_bind, ih kept]

end

/-- The positions below `hi` that a loop comes to from `q`, and the one it ends at, when at each it
moves by the size it finds there. -/
inductive Visited (size : Nat → Nat) (hi q : Nat) : Nat → Prop
  | start : Visited size hi q q
  | move {p : Nat} : Visited size hi q p → p < hi → Visited size hi q (p + size p)

/-- Every position the loop comes to moves it on and has room for what is read there. -/
def Strides (size needs : Nat → Nat) (hi q : Nat) : Prop :=
  ∀ p, Visited size hi q p → p < hi → p + needs p ≤ hi ∧ size p ≠ 0

section
variable {I : Type} {stop : I → Bool} {next : I → Reads I} {size needs : Nat → Nat} {hi q : Nat}

theorem Visited.cons {p : Nat} (inside : q < hi) (visited : Visited size hi (q + size q) p) :
    Visited size hi q p := by
  induction visited with
  | start => exact .move .start inside
  | move _ below ih => exact .move ih below

theorem visited_of_le {p : Nat} (outside : hi ≤ q) (visited : Visited size hi q p) : p = q := by
  induction visited with
  | start => rfl
  | move _ below ih => exact absurd (ih ▸ below) (Nat.not_lt.mpr outside)

theorem visited_iff {p : Nat} (inside : q < hi) :
    Visited size hi q p ↔ p = q ∨ Visited size hi (q + size q) p := by
  constructor
  · intro visited
    induction visited with
    | start => exact .inl rfl
    | move _ below ih =>
      rcases ih with rfl | later
      · exact .inr .start
      · exact .inr (.move later below)
  · rintro (rfl | later)
    · exact .start
    · exact later.cons inside

theorem strides_iff (inside : q < hi) : Strides size needs hi q ↔
    (q + needs q ≤ hi ∧ size q ≠ 0) ∧ Strides size needs hi (q + size q) := by
  constructor
  · intro strides
    exact ⟨strides q .start inside, fun p later => strides p (later.cons inside)⟩
  · rintro ⟨first, rest⟩ p visited below
    rcases (visited_iff inside).mp visited with rfl | later
    · exact first
    · exact rest p later below

theorem strides_of_le (outside : hi ≤ q) : Strides size needs hi q := fun _ visited inside =>
  absurd (visited_of_le outside visited ▸ inside) (Nat.not_lt.mpr outside)

/-- Sizes and needs matter only where the needs are met. -/
theorem Strides.congr {size' needs' : Nat → Nat} (strides : Strides size needs hi q)
    (same : ∀ p, p + needs p ≤ hi → needs' p = needs p ∧ size' p = size p) :
    Strides size' needs' hi q := by
  have visits : ∀ p, Visited size' hi q p → Visited size hi q p := by
    intro p visited
    induction visited with
    | start => exact .start
    | move _ below ih => exact (same _ (strides _ ih below).1).2 ▸ ih.move below
  intro p visited below
  have met := strides p (visits p visited) below
  obtain ⟨sameNeeds, sameSize⟩ := same p met.1
  rw [sameNeeds, sameSize]
  exact met

/-- A loop over positions ends and reads below `hi` exactly if it strides. -/
theorem traverse_total_iff {pos : I → Nat} (stops : ∀ it, stop it = decide (hi ≤ pos it))
    (moves : ∀ it, pos (next it).val = pos it + size (pos it))
    (reads : ∀ it, Below hi (next it) ↔ pos it + needs (pos it) ≤ hi) (it : I) :
    (∃ fuel, (traverse stop next fuel it).val.isSome = true ∧
      Below hi (traverse stop next fuel it)) ↔ Strides size needs hi (pos it) := by
  constructor
  · rintro ⟨fuel, ends, below⟩
    induction fuel generalizing it with
    | zero =>
      cases stopped : stop it with
      | false =>
        rw [traverse, stopped] at ends
        cases ends
      | true => exact strides_of_le (of_decide_eq_true ((stops it).symm.trans stopped))
    | succ fuel ih =>
      cases stopped : stop it with
      | true => exact strides_of_le (of_decide_eq_true ((stops it).symm.trans stopped))
      | false =>
        have inside := Nat.not_le.mp (of_decide_eq_false ((stops it).symm.trans stopped))
        rw [traverse_step stopped, below_bind] at below
        rw [traverse_step stopped, val_bind] at ends
        refine (strides_iff inside).mpr ⟨⟨(reads it).mp below.1, fun still => ?_⟩, ?_⟩
        · -- A size of zero repeats the step for ever.
          have stuck := @traverse_stuck _ stop next (fun other => pos other = pos it)
            (fun other same => ⟨(stops other).trans ((congrArg (decide <| hi ≤ ·) same).trans
              (decide_eq_false (Nat.not_le.mpr inside))), by rw [moves, same, still, Nat.add_zero]⟩)
            (next it).val (by rw [moves, still, Nat.add_zero]) fuel
          rw [stuck] at ends
          cases ends
        · exact moves it ▸ ih (next it).val ends below.2
  · intro strides
    induction left : hi - pos it using Nat.strong_induction_on generalizing it with
    | _ n ih =>
      cases stopped : stop it with
      | true =>
        refine ⟨0, ?_, ?_⟩
        all_goals rw [traverse_stop stopped]
        · rfl
        · exact below_pure _
      | false =>
        have inside := Nat.not_le.mp (of_decide_eq_false ((stops it).symm.trans stopped))
        obtain ⟨⟨room, progress⟩, rest⟩ := (strides_iff inside).mp strides
        rw [← moves it] at rest
        have closer : hi - pos (next it).val < n := by
          rw [moves]
          omega
        obtain ⟨fuel, ends, below⟩ := ih _ closer (next it).val rest rfl
        refine ⟨fuel + 1, ?_, ?_⟩
        all_goals rw [traverse_step stopped]
        · exact ends
        · exact (below_bind _ _).mpr ⟨(reads it).mpr room, below⟩

end

end Reads
