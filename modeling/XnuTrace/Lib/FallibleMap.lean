import Mathlib.Data.List.Forall2

/-! A function that may fail, mapped over a list: the map succeeds where the function
succeeds on every element, and what it yields is related to the list element by element. -/
namespace FallibleMap

variable {α β : Type} {f : α → Option β} {rel : α → β → Prop} {l : List α} {out : List β}

theorem exists_of_forall₂ (related : List.Forall₂ rel l out) {a : α} (member : a ∈ l) :
    ∃ b ∈ out, rel a b := by
  induction related with
  | nil => cases member
  | cons first _ ih =>
    rcases List.mem_cons.mp member with rfl | later
    · exact ⟨_, List.mem_cons_self, first⟩
    · obtain ⟨b, inOut, related⟩ := ih later
      exact ⟨b, List.mem_cons_of_mem _ inOut, related⟩

theorem mapM_eq_some_iff :
    l.mapM f = some out ↔ List.Forall₂ (fun a b => f a = some b) l out := by
  constructor
  · intro mapped
    induction l generalizing out with
    | nil =>
      cases mapped
      exact .nil
    | cons a l ih =>
      rw [List.mapM_cons] at mapped
      obtain ⟨b, first, mapped⟩ := Option.bind_eq_some_iff.mp mapped
      obtain ⟨bs, rest, mapped⟩ := Option.bind_eq_some_iff.mp mapped
      cases mapped
      exact .cons first (ih rest)
  · intro related
    induction related with
    | nil => rfl
    | cons first _ ih =>
      rw [List.mapM_cons, first, ih]
      rfl

theorem mem_of_mapM (mapped : l.mapM f = some out) {b : β} (member : b ∈ out) :
    ∃ a ∈ l, f a = some b :=
  exists_of_forall₂ (mapM_eq_some_iff.mp mapped).flip member

theorem exists_mapM (each : ∀ a ∈ l, ∃ b, f a = some b ∧ rel a b) :
    ∃ out, l.mapM f = some out ∧ List.Forall₂ rel l out := by
  induction l with
  | nil => exact ⟨[], rfl, .nil⟩
  | cons a l ih =>
    obtain ⟨b, made, first⟩ := each a List.mem_cons_self
    obtain ⟨bs, mapped, rest⟩ := ih fun a' h => each a' (List.mem_cons_of_mem _ h)
    refine ⟨b :: bs, ?_, .cons first rest⟩
    rw [List.mapM_cons, made, mapped]
    rfl

theorem mapM_isSome_iff : (l.mapM f).isSome ↔ ∀ a ∈ l, (f a).isSome := by
  constructor
  · intro succeeded a member
    obtain ⟨out, mapped⟩ := Option.isSome_iff_exists.mp succeeded
    obtain ⟨b, _, made⟩ := exists_of_forall₂ (mapM_eq_some_iff.mp mapped) member
    exact Option.isSome_iff_exists.mpr ⟨b, made⟩
  · intro each
    obtain ⟨out, mapped, _⟩ := @exists_mapM α β f (fun _ _ => True) l fun a member =>
      (Option.isSome_iff_exists.mp (each a member)).imp fun _ made => ⟨made, trivial⟩
    exact Option.isSome_iff_exists.mpr ⟨out, mapped⟩

theorem mapM_eq_map {g : α → β} (each : ∀ a ∈ l, f a = some (g a)) :
    l.mapM f = some (l.map g) := by
  rw [mapM_eq_some_iff, List.forall₂_map_right_iff, List.forall₂_same]
  exact each

end FallibleMap
