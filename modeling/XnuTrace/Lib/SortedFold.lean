import Mathlib.Data.List.Perm.Basic
import Mathlib.Data.List.Pairwise
import Mathlib.Order.Basic

/-! Folds over lists that are sorted by a key: a sort may leave equal keys in any order,
which a fold does not see if its steps for equal keys commute. -/
namespace SortedFold

section
variable {A B K : Type} {f : B → A → B}

/-- An element moves in front of those it commutes with. -/
theorem foldl_move {x : A} {before : List A}
    (comm : ∀ y ∈ before, ∀ b, f (f b x) y = f (f b y) x) (after : List A) (b : B) :
    (before ++ x :: after).foldl f b = (before ++ after).foldl f (f b x) := by
  induction before generalizing b with
  | nil => rfl
  | cons y before ih =>
    have later := ih (fun z h => comm z (List.mem_cons_of_mem _ h)) (f b y)
    simp only [List.cons_append, List.foldl_cons, later, comm y List.mem_cons_self]

theorem foldl_eq [PartialOrder K] {key : A → K} {l l' : List A} (perm : l.Perm l')
    (sorted : l.Pairwise fun x y => key x ≤ key y)
    (sorted' : l'.Pairwise fun x y => key x ≤ key y)
    (comm : ∀ x ∈ l, ∀ y ∈ l, key x = key y → ∀ b, f (f b x) y = f (f b y) x) (b : B) :
    l.foldl f b = l'.foldl f b := by
  induction l generalizing l' b with
  | nil => rw [perm.nil_eq]
  | cons x l ih =>
    obtain ⟨before, after, rfl⟩ := List.append_of_mem (perm.subset List.mem_cons_self)
    have rest : l.Perm (before ++ after) := (perm.trans List.perm_middle).cons_inv
    have first : ∀ y ∈ before, y ∈ l ∧ key x = key y := by
      intro y h
      have member : y ∈ l := rest.mem_iff.mpr (List.mem_append_left _ h)
      have lower := (List.pairwise_cons.mp sorted).1 y member
      have upper := (List.pairwise_append.mp sorted').2.2 y h x List.mem_cons_self
      exact ⟨member, le_antisymm lower upper⟩
    have kept : (before ++ after).Pairwise fun x y => key x ≤ key y :=
      sorted'.sublist ((List.sublist_cons_self x after).append_left before)
    rw [foldl_move fun y h => comm x List.mem_cons_self y
      (List.mem_cons_of_mem _ (first y h).1) (first y h).2]
    exact ih rest (List.pairwise_cons.mp sorted).2 kept
      (fun x h y h' => comm x (List.mem_cons_of_mem _ h) y (List.mem_cons_of_mem _ h')) _

end

/-! Searches. -/

section
variable {A K : Type} {key : A → K} {p : A → Bool} {l l' : List A}

/-- The first match has the least key. -/
theorem key_find?_le [Preorder K] (sorted : l.Pairwise fun x y => key x ≤ key y) {a b : A}
    (found : l.find? p = some a) (member : b ∈ l) (holds : p b = true) : key a ≤ key b := by
  obtain ⟨_, before, after, rfl, none⟩ := List.find?_eq_some_iff_append.mp found
  rcases List.mem_append.mp member with early | late
  · have fails := none b early
    rw [holds] at fails
    cases fails
  · rcases List.mem_cons.mp late with rfl | later
    · exact le_refl _
    · exact (List.pairwise_cons.mp (List.pairwise_append.mp sorted).2.1).1 b later

/-- Lists with the same matches find the same key. -/
theorem find?_map_key_eq [PartialOrder K] (sorted : l.Pairwise fun x y => key x ≤ key y)
    (sorted' : l'.Pairwise fun x y => key x ≤ key y)
    (same : ∀ a, p a = true → (a ∈ l ↔ a ∈ l')) :
    (l.find? p).map key = (l'.find? p).map key := by
  cases found : l.find? p with
  | none =>
    cases found' : l'.find? p with
    | none => rfl
    | some b =>
      have holds := List.find?_some found'
      have member := (same b holds).mpr (List.mem_of_find?_eq_some found')
      exact absurd holds (List.find?_eq_none.mp found b member)
  | some a =>
    have holds := List.find?_some found
    have member := (same a holds).mp (List.mem_of_find?_eq_some found)
    cases found' : l'.find? p with
    | none => exact absurd holds (List.find?_eq_none.mp found' a member)
    | some b =>
      have holds' := List.find?_some found'
      have member' := (same b holds').mpr (List.mem_of_find?_eq_some found')
      exact congrArg some (le_antisymm (key_find?_le sorted found member' holds')
        (key_find?_le sorted' found' member holds))

end

/-! Keys in the order of their first appearance. -/

variable {K : Type} [DecidableEq K]

def addNew (keys : List K) (key : K) : List K := if key ∈ keys then keys else keys ++ [key]

theorem mem_addNew {keys : List K} {key k : K} : k ∈ addNew keys key ↔ k ∈ keys ∨ k = key := by
  unfold addNew
  split
  · rename_i old
    exact ⟨.inl, fun h => h.elim id fun same => same ▸ old⟩
  · simp

theorem prefix_foldl_addNew (keys more : List K) : keys <+: more.foldl addNew keys := by
  induction more generalizing keys with
  | nil => exact List.prefix_rfl
  | cons key more ih =>
    refine List.IsPrefix.trans ?_ (ih _)
    unfold addNew
    split
    · exact List.prefix_rfl
    · exact List.prefix_append _ _

theorem subset_foldl_addNew (keys more : List K) : more ⊆ more.foldl addNew keys := by
  induction more generalizing keys with
  | nil => exact List.nil_subset _
  | cons key more ih =>
    refine List.cons_subset.mpr ⟨?_, ih _⟩
    exact (prefix_foldl_addNew (addNew keys key) more).subset (mem_addNew.mpr (.inr rfl))

theorem foldl_addNew_old {keys more : List K} (old : more ⊆ keys) : more.foldl addNew keys = keys := by
  induction more with
  | nil => rfl
  | cons key more ih =>
    rw [List.cons_subset] at old
    rw [List.foldl_cons, addNew, if_pos old.1, ih old.2]

/-- A list and a prefix of it are entered in either order. -/
theorem foldl_addNew_comm {front more : List K} (first : front <+: more) (keys : List K) :
    more.foldl addNew (front.foldl addNew keys) = front.foldl addNew (more.foldl addNew keys) := by
  have after := foldl_addNew_old fun k h => subset_foldl_addNew keys more (first.subset h)
  obtain ⟨rest, rfl⟩ := first
  rw [after, List.foldl_append, List.foldl_append, foldl_addNew_old (subset_foldl_addNew keys front)]

end SortedFold
