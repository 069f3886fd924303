import Mathlib.Data.List.Perm.Basic
import Mathlib.Data.List.Nodup
import Mathlib.Data.List.Range
import Mathlib.Data.List.GetD

/-! Occupancy vectors: a list of flags and the list of the positions that are taken.
The number of taken positions bounds what is still free. -/
namespace Occupancy

def occupied (used : List Bool) : List Nat :=
  (List.range used.length).filter fun i => used.getD i false

theorem mem_occupied {used : List Bool} {i : Nat} : i ∈ occupied used ↔ used[i]? = some true := by
  simp only [occupied, List.mem_filter, List.mem_range, List.getD_eq_getElem?_getD]
  constructor
  · rintro ⟨bound, taken⟩
    simpa [List.getElem?_eq_getElem bound] using taken
  · intro taken
    obtain ⟨bound, _⟩ := List.getElem?_eq_some_iff.mp taken
    exact ⟨bound, by simp [taken]⟩

theorem nodup_occupied (used : List Bool) : (occupied used).Nodup :=
  List.nodup_range.filter _

theorem occupied_replicate (n : Nat) : occupied (List.replicate n false) = [] := by
  rw [List.eq_nil_iff_forall_not_mem]
  intro i hi
  have taken := mem_occupied.mp hi
  rw [List.getElem?_replicate] at taken
  split at taken <;> simp at taken

/-- Taking a free position adds exactly that position. -/
theorem occupied_set {used : List Bool} {i : Nat} (free : used[i]? = some false) :
    (occupied (used.set i true)).Perm (i :: occupied used) := by
  obtain ⟨bound, _⟩ := List.getElem?_eq_some_iff.mp free
  have fresh : i ∉ occupied used := by
    rw [mem_occupied, free]
    simp
  refine (List.perm_ext_iff_of_nodup (nodup_occupied _)
    (List.nodup_cons.mpr ⟨fresh, nodup_occupied _⟩)).mpr fun j => ?_
  rw [List.mem_cons, mem_occupied, mem_occupied, List.getElem?_set]
  by_cases same : i = j
  · subst same
    simp [bound]
  · simp [same, Ne.symm same]

/-- Taking several different free positions, in any order. -/
theorem occupied_foldl_set {used : List Bool} {is : List Nat} (nodup : is.Nodup)
    (free : ∀ i ∈ is, used[i]? = some false) :
    (occupied (is.foldl (fun used i => used.set i true) used)).Perm (is ++ occupied used) := by
  induction is generalizing used with
  | nil => exact List.Perm.refl _
  | cons i is ih =>
    obtain ⟨fresh, nodup⟩ := List.nodup_cons.mp nodup
    have others : ∀ j ∈ is, (used.set i true)[j]? = some false := by
      intro j hj
      have : i ≠ j := fun same => fresh (same ▸ hj)
      rw [List.getElem?_set_ne this]
      exact free j (List.mem_cons_of_mem _ hj)
    have first := occupied_set (free i List.mem_cons_self)
    exact (ih nodup others).trans ((List.Perm.append_left is first).trans List.perm_middle)

theorem length_foldl_set (used : List Bool) (is : List Nat) :
    (is.foldl (fun used i => used.set i true) used).length = used.length := by
  induction is generalizing used with
  | nil => rfl
  | cons i is ih => rw [List.foldl_cons, ih, List.length_set]

theorem occupied_sublist (used : List Bool) :
    (occupied used).Sublist (List.range used.length) :=
  List.filter_sublist

/-- With fewer taken positions than there are, the first free one exists. -/
theorem exists_findIdx? {used : List Bool} (room : (occupied used).length < used.length) :
    ∃ i, used.findIdx? (· == false) = some i := by
  cases found : used.findIdx? (· == false) with
  | some i => exact ⟨i, rfl⟩
  | none =>
    have taken := List.findIdx?_eq_none_iff.mp found
    have all : occupied used = List.range used.length := by
      refine List.filter_eq_self.mpr fun i hi => ?_
      have bound := List.mem_range.mp hi
      have := taken used[i] (List.getElem_mem bound)
      rw [List.getD_eq_getElem _ _ bound]
      simpa using this
    rw [all, List.length_range] at room
    exact absurd room (Nat.lt_irrefl _)

theorem free_of_findIdx? {used : List Bool} {i : Nat}
    (found : used.findIdx? (· == false) = some i) : used[i]? = some false := by
  obtain ⟨bound, free, _⟩ := List.findIdx?_eq_some_iff_getElem.mp found
  rw [List.getElem?_eq_getElem bound]
  simpa using free

/-- As many taken positions as there are: all of them. -/
theorem occupied_eq_range {used : List Bool} (full : (occupied used).length = used.length) :
    occupied used = List.range used.length := by
  apply (occupied_sublist used).eq_of_length
  rw [full, List.length_range]

end Occupancy
