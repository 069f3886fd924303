import Mathlib.Order.Interval.Set.Basic
import Mathlib.Order.Interval.Set.LinearOrder

/-! Runs of blocks: half-open intervals in increasing order, with a gap between any two. A list of
runs grows at its end, where the last run is made longer or a new one is started behind a gap. -/
namespace MergedRuns

variable {α : Type} [LinearOrder α] {done : List (α × α)} {a b c d : α}

/-- Nonempty runs, each of which ends before the next starts. -/
def Separated (runs : List (α × α)) : Prop :=
  (∀ r ∈ runs, r.1 < r.2) ∧ runs.Pairwise fun r r' => r.2 < r'.1

def covered (runs : List (α × α)) : Set α := {x | ∃ r ∈ runs, x ∈ Set.Ico r.1 r.2}

theorem separated_concat : Separated (done ++ [(a, b)]) ↔
    Separated done ∧ a < b ∧ ∀ r ∈ done, r.2 < a := by
  simp only [Separated, List.forall_mem_append, List.forall_mem_singleton, List.pairwise_append,
    List.pairwise_singleton]
  tauto

theorem covered_append (runs runs' : List (α × α)) :
    covered (runs ++ runs') = covered runs ∪ covered runs' := by
  ext x
  simp only [covered, Set.mem_ofPred_eq, Set.mem_union, List.mem_append, or_and_right, exists_or]

theorem covered_singleton (r : α × α) : covered [r] = Set.Ico r.1 r.2 := by
  ext x
  simp only [covered, Set.mem_ofPred_eq, List.mem_singleton, exists_eq_left]

theorem covered_nil : covered ([] : List (α × α)) = ∅ := by
  ext x
  simp [covered]

/-- The last run grows by a block that adjoins it. -/
theorem Separated.extend (runs : Separated (done ++ [(a, b)])) (longer : b ≤ c) :
    Separated (done ++ [(a, c)]) := by
  obtain ⟨earlier, nonempty, before⟩ := separated_concat.mp runs
  exact separated_concat.mpr ⟨earlier, nonempty.trans_le longer, before⟩

theorem covered_extend (runs : Separated (done ++ [(a, b)])) (longer : b ≤ c) :
    covered (done ++ [(a, c)]) = covered (done ++ [(a, b)]) ∪ Set.Ico b c := by
  have nonempty := (separated_concat.mp runs).2.1
  rw [covered_append, covered_append, covered_singleton, covered_singleton, Set.union_assoc,
    Set.Ico_union_Ico_eq_Ico nonempty.le longer]

/-- Behind a gap a new run starts. -/
theorem Separated.start (runs : Separated (done ++ [(a, b)])) (gap : b < c) (nonempty : c < d) :
    Separated (done ++ [(a, b)] ++ [(c, d)]) := by
  refine separated_concat.mpr ⟨runs, nonempty, ?_⟩
  obtain ⟨-, own, before⟩ := separated_concat.mp runs
  intro r member
  rcases List.mem_append.mp member with earlier | last
  · exact ((before r earlier).trans own).trans gap
  · rw [List.mem_singleton.mp last]
    exact gap

theorem covered_start : covered (done ++ [(c, d)]) = covered done ∪ Set.Ico c d := by
  rw [covered_append, covered_singleton]

end MergedRuns
