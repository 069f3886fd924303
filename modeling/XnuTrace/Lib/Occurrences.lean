import Mathlib.Data.List.Infix
import Mathlib.Order.Nat

/-! Occurrences of one list in another, and searches for the first of them: behind a part that has
none, and in a window, where an occurrence is lost that runs over its end. -/
namespace Occurrences

variable {α : Type}

def Occurs (haystack needle : List α) (p : Nat) : Prop := needle <+: haystack.drop p

/-- An occurrence that starts between the bounds. -/
def StartsIn (haystack needle : List α) (a b p : Nat) : Prop :=
  (a ≤ p ∧ p < b) ∧ Occurs haystack needle p

/-- The first position that has the property, `none` if no position has it. -/
def First (P : Nat → Prop) (found : Option Nat) : Prop := ∀ p, found = some p ↔ IsLeast {q | P q} p

instance [DecidableEq α] (haystack needle : List α) (p : Nat) :
    Decidable (Occurs haystack needle p) := inferInstanceAs (Decidable (_ <+: _))

/-- A search that tries every position. -/
def firstOccurrence [DecidableEq α] (haystack needle : List α) : Option Nat :=
  (List.range (haystack.length + 1)).find? fun p => Occurs haystack needle p

section
variable {P Q : Nat → Prop} {found : Option Nat}

theorem exists_least {p : Nat} (holds : P p) : ∃ least, IsLeast {q | P q} least ∧ least ≤ p := by
  classical
  exact ⟨_, Nat.isLeast_find ⟨p, holds⟩, Nat.find_min' _ holds⟩

theorem First.none_iff (first : First P found) : found = none ↔ ∀ p, ¬ P p := by
  constructor
  · rintro rfl p holds
    obtain ⟨least, isLeast, -⟩ := exists_least holds
    cases (first least).mpr isLeast
  · intro no
    exact Option.eq_none_iff_forall_ne_some.mpr fun p same => no p ((first p).mp same).1

theorem first_none (no : ∀ p, ¬ P p) : First P none := fun p =>
  ⟨fun never => (by cases never), fun least => absurd least.1 (no p)⟩

theorem first_zero (holds : P 0) : First P (some 0) := by
  intro p
  constructor
  · rintro ⟨⟩
    exact ⟨holds, fun q _ => Nat.zero_le q⟩
  · intro least
    rw [Nat.le_zero.mp (least.2 holds)]

/-- A first position behind ones that do not have the property. -/
theorem First.shift {start : Nat} (first : First Q found) (before : ∀ p < start, ¬ P p)
    (same : ∀ p, P (start + p) ↔ Q p) : First P (found.map (start + ·)) := by
  intro p
  rw [Option.map_eq_some_iff]
  constructor
  · rintro ⟨off, searched, rfl⟩
    have least := (first off).mp searched
    refine ⟨(same off).mpr least.1, fun q holds => ?_⟩
    have behind := Nat.not_lt.mp fun early => before q early holds
    obtain ⟨rest, rfl⟩ := Nat.exists_eq_add_of_le behind
    exact Nat.add_le_add_left (least.2 ((same rest).mp holds)) start
  · intro least
    obtain ⟨off, rfl⟩ := Nat.exists_eq_add_of_le (Nat.not_lt.mp fun early => before p early least.1)
    refine ⟨off, (first off).mpr ⟨(same off).mp least.1, fun q holds => ?_⟩, rfl⟩
    exact Nat.le_of_add_le_add_left (least.2 ((same q).mpr holds))

end

section
variable {haystack needle : List α} {found : Option Nat} {a b p : Nat}

theorem Occurs.inside (occurs : Occurs haystack needle p) (nonempty : needle ≠ []) :
    p + needle.length ≤ haystack.length := by
  have fits := List.IsPrefix.length_le occurs
  rw [List.length_drop] at fits
  have := List.length_pos_iff.mpr nonempty
  omega

theorem Occurs.front {n : α} {rest : List α} (occurs : Occurs haystack (n :: rest) p) :
    haystack[p]? = some n := by
  obtain ⟨behind, same⟩ := occurs
  rw [← List.head?_drop, ← same]
  rfl

theorem first_firstOccurrence [DecidableEq α] (nonempty : needle ≠ []) :
    First (Occurs haystack needle) (firstOccurrence haystack needle) := by
  intro p
  rw [firstOccurrence, List.find?_range_eq_some, List.mem_range, decide_eq_true_iff]
  constructor
  · rintro ⟨occurs, -, before⟩
    refine ⟨occurs, fun q earlier => Nat.not_lt.mp fun less => ?_⟩
    have none : ¬ Occurs haystack needle q := by simpa using before q less
    exact none earlier
  · intro least
    have inside := Occurs.inside least.1 nonempty
    refine ⟨least.1, by omega, fun q less => ?_⟩
    have none : ¬ Occurs haystack needle q := fun earlier =>
      Nat.not_lt.mpr (least.2 earlier) less
    simpa using none

theorem occurs_add (start : Nat) :
    Occurs haystack needle (start + p) ↔ Occurs (haystack.drop start) needle p := by
  rw [Occurs, Occurs, List.drop_drop]

/-- In a window an occurrence is found only if it ends there. -/
theorem occurs_window (nonempty : needle ≠ []) :
    Occurs ((haystack.drop a).take (b - a)) needle p ↔
      Occurs haystack needle (a + p) ∧ a + p + needle.length ≤ b := by
  rw [occurs_add, Occurs, Occurs, List.drop_take, List.prefix_take_iff]
  have := List.length_pos_iff.mpr nonempty
  constructor
  · rintro ⟨occurs, fits⟩
    exact ⟨occurs, by omega⟩
  · rintro ⟨occurs, fits⟩
    exact ⟨occurs, by omega⟩

/-- The search in a window finds the first occurrence that starts there exactly if this one does
not run over the end. -/
theorem first_window_iff (nonempty : needle ≠ [])
    (first : First (Occurs ((haystack.drop a).take (b - a)) needle) found) :
    First (StartsIn haystack needle a b) (found.map (a + ·)) ↔
      ∀ p, IsLeast {q | StartsIn haystack needle a b q} p → p + needle.length ≤ b := by
  have starts : ∀ off, Occurs ((haystack.drop a).take (b - a)) needle off →
      StartsIn haystack needle a b (a + off) := by
    intro off occurs
    obtain ⟨occurs, fits⟩ := (occurs_window nonempty).mp occurs
    have := List.length_pos_iff.mpr nonempty
    exact ⟨⟨by omega, by omega⟩, occurs⟩
  constructor
  · intro right p least
    obtain ⟨off, searched, rfl⟩ := Option.map_eq_some_iff.mp ((right p).mpr least)
    exact ((occurs_window nonempty).mp ((first off).mp searched).1).2
  · intro fits p
    have ends : ∀ off, StartsIn haystack needle a b (a + off) → a + off + needle.length ≤ b →
        Occurs ((haystack.drop a).take (b - a)) needle off := fun off starts fits =>
      (occurs_window nonempty).mpr ⟨starts.2, fits⟩
    rw [Option.map_eq_some_iff]
    constructor
    · rintro ⟨off, searched, rfl⟩
      have least := (first off).mp searched
      refine ⟨starts off least.1, fun q startsHere => ?_⟩
      obtain ⟨m, isLeast, early⟩ := exists_least startsHere
      obtain ⟨rest, rfl⟩ := Nat.exists_eq_add_of_le isLeast.1.1.1
      have found := least.2 (ends rest isLeast.1 (fits _ isLeast))
      exact (Nat.add_le_add_left found a).trans early
    · intro least
      obtain ⟨off, rfl⟩ := Nat.exists_eq_add_of_le least.1.1.1
      refine ⟨off, (first off).mpr ⟨ends off least.1 (fits _ least), fun q occurs => ?_⟩, rfl⟩
      exact Nat.le_of_add_le_add_left (least.2 (starts q occurs))

end

section
variable {α : Type} {as bs needle l : List α} {p : Nat}

theorem infix_iff_occurs : needle <:+: l ↔ ∃ p, Occurs l needle p := by
  rw [List.infix_iff_prefix_suffix]
  constructor
  · rintro ⟨t, front, behind⟩
    exact ⟨_, List.suffix_iff_eq_drop.mp behind ▸ front⟩
  · rintro ⟨p, occurs⟩
    exact ⟨_, occurs, List.drop_suffix p l⟩

theorem occurs_iff_suffix (ends : p + needle.length = l.length) :
    Occurs l needle p ↔ needle <:+ l := by
  have length : (l.drop p).length = needle.length := by
    rw [List.length_drop]
    omega
  constructor
  · intro occurs
    exact List.IsPrefix.eq_of_length occurs length.symm ▸ List.drop_suffix p l
  · intro behind
    have start : l.length - needle.length = p := by omega
    rw [List.suffix_iff_eq_drop, start] at behind
    exact ⟨[], (List.append_nil _).trans behind⟩

theorem suffix_append_iff (short : needle.length ≤ bs.length) :
    needle <:+ as ++ bs ↔ needle <:+ bs :=
  ⟨fun behind => List.suffix_of_suffix_length_le behind (List.suffix_append _ _) short,
    fun behind => behind.trans (List.suffix_append _ _)⟩

theorem concat_suffix_concat {a b : α} : needle ++ [a] <:+ l ++ [b] ↔ needle <:+ l ∧ b = a := by
  rw [List.suffix_concat_iff]
  constructor
  · rintro (empty | ⟨t, same, behind⟩)
    · simp at empty
    · obtain ⟨rfl, last⟩ := List.append_inj' same rfl
      exact ⟨behind, (List.singleton_inj.mp last).symm⟩
  · rintro ⟨behind, rfl⟩
    exact .inr ⟨needle, rfl, behind⟩

theorem occurs_append_right : Occurs (as ++ bs) needle (as.length + p) ↔ Occurs bs needle p := by
  rw [occurs_add, List.drop_left]

theorem occurs_append_left (fits : p + needle.length ≤ as.length) :
    Occurs (as ++ bs) needle p ↔ Occurs as needle p := by
  have inside : needle.length ≤ (as.drop p).length := by
    rw [List.length_drop]
    omega
  rw [Occurs, Occurs, List.drop_append_of_le_length (by omega)]
  exact ⟨fun occurs => List.prefix_of_prefix_length_le occurs (List.prefix_append _ _) inside,
    fun occurs => List.prefix_append_of_prefix occurs⟩

/-- An occurrence that ends `k` elements behind a seam ends what comes before. -/
theorem occurs_append_iff_suffix {k : Nat} (inside : k ≤ bs.length)
    (ends : p + needle.length = as.length + k) :
    Occurs (as ++ bs) needle p ↔ needle <:+ as ++ bs.take k := by
  have length : p + needle.length = (as ++ bs.take k).length := by
    rw [List.length_append, List.length_take_of_le inside, ends]
  rw [← occurs_iff_suffix length, ← @occurs_append_left _ _ (bs.drop k) _ _ length.le,
    List.append_assoc, List.take_append_drop]

/-- What is left of the needle at a seam stands behind it. -/
theorem Occurs.behind (occurs : Occurs (as ++ bs) needle p) (before : p ≤ as.length)
    (crosses : as.length ≤ p + needle.length) : needle.drop (as.length - p) <+: bs := by
  obtain ⟨rest, same⟩ := occurs
  refine ⟨rest, ?_⟩
  rw [List.drop_append_of_le_length before] at same
  have short : as.length - p ≤ needle.length := by omega
  have length : (as.drop p).length = as.length - p := List.length_drop
  rw [← List.drop_append_of_le_length short, same, ← length, List.drop_left]

end
end Occurrences
