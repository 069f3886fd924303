import Mathlib.Data.List.Infix
import Mathlib.Data.List.Perm.Basic

/-! Neighbours in a list, and in the concatenation of several lists. -/
namespace Neighbours

variable {α : Type} {a b x : α} {xs ys : List α}

/-- `b` follows `a` directly. -/
def Consecutive (l : List α) (a b : α) : Prop := [a, b] <:+: l

theorem not_consecutive_nil : ¬ Consecutive [] a b := fun h => by simpa using h.length_le

theorem consecutive_cons :
    Consecutive (x :: xs) a b ↔ (x = a ∧ xs.head? = some b) ∨ Consecutive xs a b := by
  rw [Consecutive, List.infix_cons_iff, List.cons_prefix_cons, eq_comm]
  refine or_congr_left (and_congr_right fun _ => ?_)
  cases xs with
  | nil => simp
  | cons y ys => simp [List.cons_prefix_cons, eq_comm]

theorem consecutive_pair {y : α} : Consecutive [x, y] a b ↔ x = a ∧ y = b := by
  simp [consecutive_cons, not_consecutive_nil]

theorem consecutive_append : Consecutive (xs ++ ys) a b ↔
    Consecutive xs a b ∨ (xs.getLast? = some a ∧ ys.head? = some b) ∨ Consecutive ys a b := by
  induction xs with
  | nil => simp [not_consecutive_nil]
  | cons x xs ih =>
    rw [List.cons_append, consecutive_cons, ih, consecutive_cons]
    cases xs with
    | nil => simp [not_consecutive_nil]
    | cons y xs => simp [List.getLast?_cons_cons, or_assoc]

/-- The last of one part and the first of the next one that is not empty. -/
def Crosses : List (List α) → α → α → Prop
  | [], _, _ => False
  | part :: parts, a, b =>
    (part.getLast? = some a ∧ parts.flatten.head? = some b) ∨ Crosses parts a b

theorem consecutive_flatten {parts : List (List α)} : Consecutive parts.flatten a b ↔
    (∃ part ∈ parts, Consecutive part a b) ∨ Crosses parts a b := by
  induction parts with
  | nil => simp [not_consecutive_nil, Crosses]
  | cons part parts ih =>
    rw [List.flatten_cons, consecutive_append, ih, Crosses]
    simp only [List.mem_cons, exists_eq_or_imp, or_assoc]
    exact or_congr_right or_left_comm

/-- The first element of the concatenation is that of a part. -/
theorem mem_of_head?_flatten {parts : List (List α)} (first : parts.flatten.head? = some b) :
    ∃ part ∈ parts, part.head? = some b := by
  induction parts with
  | nil => cases first
  | cons part parts ih =>
    cases part with
    | nil =>
      obtain ⟨part, member, first⟩ := ih first
      exact ⟨part, List.mem_cons_of_mem _ member, first⟩
    | cons y part => exact ⟨_, List.mem_cons_self, first⟩

/-- In some order of the parts two of them meet exactly if they are two of the parts. -/
theorem exists_crosses_iff {parts : List (List α)} :
    (∃ order, order.Perm parts ∧ Crosses order a b) ↔
      ∃ part part' rest, parts.Perm (part :: part' :: rest) ∧ part.getLast? = some a ∧
        part'.head? = some b := by
  constructor
  · rintro ⟨order, perm, crosses⟩
    suffices h : ∃ part part' rest, order.Perm (part :: part' :: rest) ∧
        part.getLast? = some a ∧ part'.head? = some b by
      obtain ⟨part, part', rest, perm', ends⟩ := h
      exact ⟨part, part', rest, perm.symm.trans perm', ends⟩
    clear perm
    induction order with
    | nil => exact absurd crosses id
    | cons first order ih =>
      rcases crosses with ⟨last, head⟩ | later
      · obtain ⟨part', member, head'⟩ := mem_of_head?_flatten head
        obtain ⟨before, after, rfl⟩ := List.append_of_mem member
        exact ⟨first, part', before ++ after, List.perm_middle.cons first, last, head'⟩
      · obtain ⟨part, part', rest, perm, ends⟩ := ih later
        refine ⟨part, part', first :: rest, ?_, ends⟩
        exact (perm.cons first).trans (@List.perm_middle _ first [part, part'] rest).symm
  · rintro ⟨part, part', rest, perm, last, head⟩
    refine ⟨part :: part' :: rest, perm.symm, .inl ⟨last, ?_⟩⟩
    cases part' with
    | nil => cases head
    | cons y part' => exact head

end Neighbours
