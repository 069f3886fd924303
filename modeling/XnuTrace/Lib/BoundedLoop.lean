import Mathlib.Init

/-! Loops whose rounds may fail, with a bound on the number of rounds. A loop with an invariant and a
measure that each round makes smaller comes to its end within the bound. -/
namespace BoundedLoop

variable {S R : Type}

/-- The rounds until one leaves with a result. There is none if a round fails or the bound is
reached. -/
def iterate (round : S → Option (S ⊕ R)) : Nat → S → Option R
  | 0, _ => none
  | fuel + 1, s =>
    match round s with
    | none => none
    | some (.inl next) => iterate round fuel next
    | some (.inr result) => some result

/-- A round does not fail: it goes on closer to the end, or leaves with a good result. -/
def Leads (Inv : S → Prop) (left : S → Nat) (Post : R → Prop) (s : S) : Option (S ⊕ R) → Prop
  | none => False
  | some (.inl next) => Inv next ∧ left next < left s
  | some (.inr result) => Post result

theorem iterate_spec {round : S → Option (S ⊕ R)} {Inv : S → Prop} {left : S → Nat}
    {Post : R → Prop} (rounds : ∀ s, Inv s → Leads Inv left Post s (round s)) {fuel : Nat} {s : S}
    (start : Inv s) (enough : left s < fuel) :
    ∃ result, iterate round fuel s = some result ∧ Post result := by
  induction fuel generalizing s with
  | zero => exact absurd enough (Nat.not_lt_zero _)
  | succ fuel ih =>
    have leads := rounds s start
    unfold iterate
    cases taken : round s with
    | none =>
      rw [taken] at leads
      exact leads.elim
    | some outcome =>
      rw [taken] at leads
      cases outcome with
      | inl next => exact ih leads.1 (Nat.lt_of_lt_of_le leads.2 (Nat.le_of_lt_succ enough))
      | inr result => exact ⟨result, rfl, leads⟩

end BoundedLoop
