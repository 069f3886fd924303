import Mathlib.Data.List.Nodup
import Mathlib.Logic.Function.Conjugate

/-! Accesses of several threads to one state, each tagged with its thread. Where accesses of
different threads commute, an interleaving leaves what the threads leave one after the other. -/
namespace Interleaving

variable {ι S : Type}

/-- What the accesses leave, made one after the other. -/
def made (accesses : List (S → S)) (s : S) : S := accesses.foldl (fun s access => access s) s

def exec (trace : List (ι × (S → S))) (s : S) : S := made (trace.map Prod.snd) s

theorem made_append (accesses more : List (S → S)) (s : S) :
    made (accesses ++ more) s = made more (made accesses s) := List.foldl_append

theorem exec_concat (trace : List (ι × (S → S))) (i : ι) (f : S → S) (s : S) :
    exec (trace ++ [(i, f)]) s = f (exec trace s) := by
  simp [exec, made]

variable [DecidableEq ι]

/-- The accesses of one thread, in their order. -/
def own (trace : List (ι × (S → S))) (i : ι) : List (S → S) :=
  (trace.filter (·.1 = i)).map Prod.snd

/-- Accesses of different threads commute. -/
def Independent (accesses : ι → List (S → S)) : Prop :=
  ∀ i j, i ≠ j → ∀ f ∈ accesses i, ∀ g ∈ accesses j, Function.Commute f g

variable {trace : List (ι × (S → S))} {access : ι × (S → S)} {accesses : List (S → S)}

/-- An access that commutes with each of the others comes before or behind them. -/
theorem made_commute {f : S → S} (commute : ∀ g ∈ accesses, Function.Commute f g) (s : S) :
    made accesses (f s) = f (made accesses s) := by
  induction accesses generalizing s with
  | nil => rfl
  | cons g accesses ih =>
    have first : g (f s) = f (g s) := (commute g List.mem_cons_self s).symm
    have rest := ih fun g member => commute g (List.mem_cons_of_mem _ member)
    simp only [made, List.foldl_cons, first] at rest ⊢
    exact rest (g s)

@[simp] theorem own_nil (i : ι) : own ([] : List (ι × (S → S))) i = [] := rfl

theorem own_cons_self : own (access :: trace) access.1 = access.2 :: own trace access.1 := by
  simp [own]

theorem own_cons_of_ne {i : ι} (other : access.1 ≠ i) : own (access :: trace) i = own trace i := by
  simp [own, other]

theorem own_concat (trace : List (ι × (S → S))) (i j : ι) (f : S → S) :
    own (trace ++ [(i, f)]) j = own trace j ++ if i = j then [f] else [] := by
  by_cases same : i = j <;> simp [own, same]

theorem own_ne_nil (member : access ∈ trace) : own trace access.1 ≠ [] :=
  List.ne_nil_of_mem (List.mem_map_of_mem (List.mem_filter.mpr ⟨member, by simp⟩))

/-- The accesses of the other threads, in their order. -/
def others (trace : List (ι × (S → S))) (i : ι) : List (ι × (S → S)) := trace.filter (·.1 ≠ i)

theorem own_others {i j : ι} (other : j ≠ i) : own (others trace i) j = own trace j := by
  have kept : ∀ access : ι × (S → S), access.1 = j → access.1 ≠ i := fun _ is => is ▸ other
  simp only [own, others, List.filter_filter]
  congr 2
  funext access
  by_cases is : access.1 = j
  · simp [is, other]
  · simp [is]

theorem Independent.tail (independent : Independent (own (access :: trace))) :
    Independent (own trace) := by
  have cons : ∀ i f, f ∈ own trace i → f ∈ own (access :: trace) i := by
    intro i f member
    by_cases same : access.1 = i
    · subst same
      rw [own_cons_self]
      exact List.mem_cons_of_mem _ member
    · rwa [own_cons_of_ne same]
  exact fun i j differ f inI g inJ => independent i j differ f (cons i f inI) g (cons j g inJ)

/-- One thread may go first. -/
theorem exec_first (independent : Independent (own trace)) (i : ι) (s : S) :
    exec trace s = exec (others trace i) (made (own trace i) s) := by
  induction trace generalizing s with
  | nil => rfl
  | cons access trace ih =>
    have rest := ih independent.tail (access.2 s)
    change exec trace (access.2 s) = _
    by_cases same : access.1 = i
    · subst same
      have skipped : others (access :: trace) access.1 = others trace access.1 := by simp [others]
      rw [rest, own_cons_self, skipped]
      rfl
    · have kept : others (access :: trace) i = access :: others trace i := by simp [others, same]
      have commute : ∀ g ∈ own trace i, Function.Commute access.2 g := fun g member => by
        refine independent access.1 i same access.2 ?_ g ?_
        · rw [own_cons_self]
          exact List.mem_cons_self
        · rwa [own_cons_of_ne same]
      rw [rest, own_cons_of_ne same, kept, made_commute commute]
      rfl

theorem Independent.others (independent : Independent (own trace)) (i : ι) :
    Independent (own (others trace i)) := by
  have kept : ∀ j f, f ∈ own (Interleaving.others trace i) j → f ∈ own trace j := by
    intro j f member
    refine List.Sublist.subset ?_ member
    exact (List.filter_sublist.filter _).map _
  exact fun j j' differ f inJ g inJ' => independent j j' differ f (kept j f inJ) g (kept j' g inJ')

/-- The threads may go one after the other, in any order. -/
theorem exec_sequential {order : List ι} (independent : Independent (own trace))
    (nodup : order.Nodup) (all : ∀ access ∈ trace, access.1 ∈ order) (s : S) :
    exec trace s = made (order.flatMap (own trace)) s := by
  induction order generalizing trace s with
  | nil =>
    rw [List.eq_nil_iff_forall_not_mem.mpr fun access member => List.not_mem_nil (all access member)]
    rfl
  | cons i order ih =>
    have absent := (List.nodup_cons.mp nodup).1
    have rest : ∀ access ∈ others trace i, access.1 ∈ order := by
      intro access member
      obtain ⟨member, other⟩ := List.mem_filter.mp member
      exact List.mem_of_ne_of_mem (by simpa using other) (all access member)
    have same : order.flatMap (own (others trace i)) = order.flatMap (own trace) :=
      List.flatMap_congr fun j member => own_others (ne_of_mem_of_not_mem member absent)
    rw [exec_first independent i, ih (independent.others i) (List.nodup_cons.mp nodup).2 rest, same,
      List.flatMap_cons, made_append]

end Interleaving
