import Mathlib.Data.List.Infix
import Mathlib.Data.List.Induction

/-! Runs of a step function that may fail. A property of the states that only some steps break
holds along a run exactly if the run has no such step. -/
namespace Stepwise

variable {S A : Type} (step : S → A → Option S)

def run (s : S) (acts : List A) : Option S := acts.foldlM step s

/-- The property holds of each state that the run reaches. -/
def Always (P : S → Prop) (s : S) (acts : List A) : Prop :=
  ∀ done, done <+: acts → ∀ s', run step s done = some s' → P s'

/-- Each action of the run is taken in a state where it may be. -/
def Each (good : S → A → Prop) (s : S) (acts : List A) : Prop :=
  ∀ done act, done ++ [act] <+: acts → ∀ s', run step s done = some s' → good s' act

variable {step}

@[simp] theorem run_nil (s : S) : run step s [] = some s := rfl

theorem run_append (s : S) (acts more : List A) :
    run step s (acts ++ more) = (run step s acts).bind (run step · more) :=
  List.foldlM_append ..

theorem run_concat (s : S) (acts : List A) (act : A) :
    run step s (acts ++ [act]) = (run step s acts).bind (step · act) := by
  have one : ∀ s', run step s' [act] = step s' act := fun s' =>
    (List.foldlM_cons ..).trans (Option.bind_fun_some _)
  simp only [run_append, one]

theorem run_concat_some {s s' : S} {acts : List A} {act : A}
    (ran : run step s (acts ++ [act]) = some s') :
    ∃ mid, run step s acts = some mid ∧ step mid act = some s' :=
  Option.bind_eq_some_iff.mp (run_concat s acts act ▸ ran)

theorem Each.earlier {good : S → A → Prop} {s : S} {acts more : List A}
    (each : Each step good s (acts ++ more)) : Each step good s acts := fun done act taken =>
  each done act (taken.trans (List.prefix_append ..))

theorem each_nil {good : S → A → Prop} {s : S} : Each step good s [] := by
  intro done act taken
  exact absurd (List.prefix_nil.mp taken) (List.concat_ne_nil act done)

theorem each_cons {good : S → A → Prop} {s : S} {act : A} {acts : List A} :
    Each step good s (act :: acts) ↔
      good s act ∧ ∀ s', step s act = some s' → Each step good s' acts := by
  constructor
  · intro each
    refine ⟨each [] act (List.prefix_append [act] acts) s rfl, ?_⟩
    intro s' took done next taken s'' ran
    refine each (act :: done) next (List.cons_prefix_cons.mpr ⟨rfl, taken⟩) s'' ?_
    exact (congrArg (Option.bind · (run step · done)) took).trans ran
  · rintro ⟨first, later⟩ done next taken s'' ran
    cases done with
    | nil =>
      cases ran
      obtain rfl := (List.cons_prefix_cons.mp taken).1
      exact first
    | cons head done =>
      obtain ⟨rfl, within⟩ := List.cons_prefix_cons.mp taken
      obtain ⟨s', took, ran⟩ := Option.bind_eq_some_iff.mp ran
      exact later s' took done next within s'' ran

/-- What holds at the start and is kept by each good step holds along a run of good steps. -/
theorem Always.of_each {P : S → Prop} {good : S → A → Prop} {s : S} {acts : List A} (start : P s)
    (keeps : ∀ s act s', P s → good s act → step s act = some s' → P s')
    (each : Each step good s acts) : Always step P s acts := by
  intro done
  induction done using List.reverseRecOn with
  | nil =>
    intro _ s' ran
    cases ran
    exact start
  | append_singleton done act ih =>
    intro taken s' ran
    obtain ⟨mid, before, last⟩ := run_concat_some ran
    exact keeps mid act s' (ih ((List.prefix_append ..).trans taken) mid before)
      (each done act taken mid before) last

/-- What every step keeps holds along every run. -/
theorem Always.of_step {P : S → Prop} {s : S} (start : P s)
    (keeps : ∀ s act s', P s → step s act = some s' → P s') (acts : List A) :
    Always step P s acts := by
  have each : Each step (fun _ _ => True) s acts := fun _ _ _ _ _ => trivial
  exact of_each start (fun s act s' holds _ => keeps s act s' holds) each

/-- Where the good steps keep a property and the others break it, it holds along a run exactly if
all steps of the run are good. Both may rest on what every step keeps. -/
theorem always_iff_each {I P : S → Prop} {good : S → A → Prop} {s : S} (acts : List A)
    (startI : I s) (startP : P s) (inv : ∀ s act s', I s → step s act = some s' → I s')
    (keeps : ∀ s act s', I s → P s → good s act → step s act = some s' → P s')
    (breaks : ∀ s act, I s → P s → ¬ good s act → ∃ s', step s act = some s' ∧ ¬ P s') :
    Always step P s acts ↔ Each step good s acts := by
  constructor
  · intro always done act taken s' ran
    by_contra bad
    have reached := (List.prefix_append done [act]).trans taken
    obtain ⟨next, took, broken⟩ := breaks s' act (Always.of_step startI inv acts done reached s' ran)
      (always done reached s' ran) bad
    exact broken (always _ taken next (by rw [run_concat, ran]; exact took))
  · intro each done taken s' ran
    have both : Always step (fun s => I s ∧ P s) s acts :=
      Always.of_each ⟨startI, startP⟩ (fun s act s' holds good took =>
        ⟨inv s act s' holds.1 took, keeps s act s' holds.1 holds.2 good took⟩) each
    exact (both done taken s' ran).2

end Stepwise
