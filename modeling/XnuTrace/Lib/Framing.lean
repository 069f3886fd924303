import XnuTrace.Lib.Memory

/-! Self-delimiting records in a memory: the addresses at which a sequence of frames
starts, and a walk that knows only a size for every address. -/
namespace Framing
open Memory

section
variable {F α : Type} (bytes : F → List α)

/-- Where the frames start when the first of them lies at `p`. -/
def starts (p : Nat) : List F → List Nat
  | [] => []
  | f :: fs => p :: starts (p + (bytes f).length) fs

/-- A start is preceded by the starts of the frames before it. -/
theorem starts_eq_append_cons {p q : Nat} {fs : List F} {before later : List Nat}
    (split : starts bytes p fs = before ++ q :: later) :
    ∃ as f bs, fs = as ++ f :: bs ∧ before = starts bytes p as ∧
      q = p + (as.flatMap bytes).length ∧ later = starts bytes (q + (bytes f).length) bs := by
  induction before generalizing p fs with
  | nil =>
    cases fs with
    | nil => cases split
    | cons f fs =>
      rw [starts, List.nil_append, List.cons.injEq] at split
      obtain ⟨rfl, rfl⟩ := split
      exact ⟨[], f, fs, rfl, rfl, rfl, rfl⟩
  | cons a before ih =>
    cases fs with
    | nil => cases split
    | cons g fs =>
      rw [starts, List.cons_append, List.cons.injEq] at split
      obtain ⟨rfl, split⟩ := split
      obtain ⟨as, f, bs, rfl, rfl, rfl, rfl⟩ := ih split
      refine ⟨g :: as, f, bs, rfl, rfl, ?_, rfl⟩
      rw [List.flatMap_cons, List.length_append, Nat.add_assoc]

theorem length_le_flatMap (nonempty : ∀ f, 0 < (bytes f).length) (fs : List F) :
    fs.length ≤ (fs.flatMap bytes).length := by
  induction fs with
  | nil => exact Nat.le_refl _
  | cons f fs ih =>
    have pos := nonempty f
    rw [List.flatMap_cons, List.length_append, List.length_cons]
    omega

/-- If a frame tells its length and its kind, a sequence of them is divided in one way. -/
theorem split_unique {bytes : F → List α} {β : Type} {kind : F → β}
    (tells : ∀ {f g as bs}, bytes f ++ as = bytes g ++ bs →
      (bytes f).length = (bytes g).length ∧ kind f = kind g)
    (nonempty : ∀ f, 0 < (bytes f).length) {as bs fs : List F} {f : F}
    (same : (as ++ f :: bs).flatMap bytes = fs.flatMap bytes) :
    ∃ as' f' bs', fs = as' ++ f' :: bs' ∧
      (as'.flatMap bytes).length = (as.flatMap bytes).length ∧ kind f' = kind f := by
  induction as generalizing fs with
  | nil =>
    rw [List.nil_append, List.flatMap_cons] at same
    cases fs with
    | nil =>
      have length := congrArg List.length same
      rw [List.length_append, List.flatMap_nil, List.length_nil] at length
      have := nonempty f
      omega
    | cons g fs =>
      rw [List.flatMap_cons] at same
      exact ⟨[], g, fs, rfl, rfl, (tells same).2.symm⟩
  | cons a as ih =>
    rw [List.cons_append, List.flatMap_cons] at same
    cases fs with
    | nil =>
      have length := congrArg List.length same
      rw [List.length_append, List.flatMap_nil, List.length_nil] at length
      have := nonempty a
      omega
    | cons g fs =>
      rw [List.flatMap_cons] at same
      have size := (tells same).1
      obtain ⟨as', f', bs', rfl, length, kind⟩ := ih (List.append_inj same size).2
      refine ⟨g :: as', f', bs', rfl, ?_, kind⟩
      rw [List.flatMap_cons, List.flatMap_cons, List.length_append, List.length_append, length, size]

theorem holds_frames {m : Nat → α} {p : Nat} {f : F} {fs : List F} :
    Holds m p ((f :: fs).flatMap bytes) ↔
      Holds m p (bytes f) ∧ Holds m (p + (bytes f).length) (fs.flatMap bytes) := by
  rw [List.flatMap_cons, holds_append]

/-- What a function of the address yields over the starts of the frames. -/
theorem map_starts {β : Type} {m : Nat → α} {p : Nat} {fs : List F} {g : Nat → β} {h : F → β}
    (reads : ∀ f q, Holds m q (bytes f) → g q = h f) (holds : Holds m p (fs.flatMap bytes)) :
    (starts bytes p fs).map g = fs.map h := by
  induction fs generalizing p with
  | nil => rfl
  | cons f fs ih =>
    obtain ⟨first, rest⟩ := (holds_frames bytes).mp holds
    rw [starts, List.map_cons, List.map_cons, reads f p first, ih rest]

end

/-- The loop `for (; !stop(it); ++it) out.push_back(get(it))`; `none` if it does not end
within `fuel` steps. -/
def collect {I β : Type} (stop : I → Bool) (next : I → I) (get : I → β) :
    Nat → I → Option (List β)
  | 0, it => if stop it then some [] else none
  | fuel + 1, it => if stop it then some [] else (collect stop next get fuel (next it)).map (get it :: ·)

theorem collect_stop {I β : Type} {stop : I → Bool} {next : I → I} {get : I → β} {it : I}
    (stopped : stop it = true) (fuel : Nat) : collect stop next get fuel it = some [] := by
  cases fuel <;> rw [collect, if_pos stopped]

section
variable {I β D : Type} {stop : I → Bool} {next : I → I} {get : I → β}

/-- What is collected is what the iterator shows after each number of increments. -/
theorem collect_iterate {fuel : Nat} {it : I} {out : List β}
    (collected : collect stop next get fuel it = some out) {k : Nat} (hk : k < out.length) :
    stop (next^[k] it) = false ∧ out[k] = get (next^[k] it) := by
  induction fuel generalizing it out k with
  | zero =>
    unfold collect at collected
    split at collected
    · cases collected
      exact absurd hk (Nat.not_lt_zero k)
    · cases collected
  | succ fuel ih =>
    unfold collect at collected
    split at collected
    · cases collected
      exact absurd hk (Nat.not_lt_zero k)
    · rename_i active
      obtain ⟨rest, collected', rfl⟩ := Option.map_eq_some_iff.mp collected
      cases k with
      | zero => exact ⟨by simpa using active, rfl⟩
      | succ k => exact ih collected' (Nat.lt_of_succ_lt_succ hk)

/-- The values behind the first are a given list if and only if each increment shows its next. -/
theorem iterate_eq_iff {fuel : Nat} {it : I} {first : β} {out : List β} (expected : List β)
    (collected : collect stop next get fuel it = some (first :: out))
    (many : out.length = expected.length) :
    (∀ k (hk : k < expected.length), get (next^[k + 1] it) = expected[k]) ↔ out = expected := by
  constructor
  · intro each
    refine List.ext_getElem many fun k hk hk' => ?_
    rw [← each k hk']
    exact (collect_iterate collected (Nat.succ_lt_succ hk)).2
  · rintro rfl k hk
    rw [← (collect_iterate collected (Nat.succ_lt_succ hk)).2]
    rfl

theorem collect_unique {fuel fuel' : Nat} {it : I} {out out' : List β}
    (collected : collect stop next get fuel it = some out)
    (collected' : collect stop next get fuel' it = some out') : out = out' := by
  induction fuel generalizing it out fuel' out' with
  | zero =>
    unfold collect at collected
    split at collected
    · rw [collect_stop ‹_›] at collected'
      exact Option.some.inj (collected.symm.trans collected')
    · cases collected
  | succ fuel ih =>
    unfold collect at collected
    split at collected
    · rw [collect_stop ‹_›] at collected'
      exact Option.some.inj (collected.symm.trans collected')
    · rename_i active
      obtain ⟨rest, first, rfl⟩ := Option.map_eq_some_iff.mp collected
      cases fuel' with
      | zero =>
        rw [collect, if_neg active] at collected'
        cases collected'
      | succ fuel' =>
        rw [collect, if_neg active] at collected'
        obtain ⟨rest', second, rfl⟩ := Option.map_eq_some_iff.mp collected'
        rw [ih first second]

/-- An iterator whose remaining steps `R` relates to a list shows its running fold. -/
theorem collect_scanl {R : I → List D → Prop} {step : β → D → β}
    (active : ∀ it ds, R it ds → stop it = false) (ends : ∀ it, R it [] → stop (next it) = true)
    (moves : ∀ it d ds, R it (d :: ds) → R (next it) ds ∧ get (next it) = step (get it) d)
    {it : I} {ds : List D} (remaining : R it ds) {fuel : Nat} (enough : ds.length < fuel) :
    collect stop next get fuel it = some (ds.scanl step (get it)) := by
  obtain ⟨fuel, rfl⟩ : ∃ k, fuel = k + 1 := ⟨fuel - 1, by omega⟩
  induction ds generalizing it fuel with
  | nil =>
    rw [collect, if_neg (by simp [active it [] remaining]), collect_stop (ends it remaining),
      List.scanl_nil]
    rfl
  | cons d ds ih =>
    obtain ⟨rest, shown⟩ := moves it d ds remaining
    obtain ⟨fuel, rfl⟩ : ∃ k, fuel = k + 1 := ⟨fuel - 1, by simp at enough; omega⟩
    rw [collect, if_neg (by simp [active it _ remaining]), ih rest fuel (by simpa using enough),
      shown, List.scanl_cons]
    rfl

end

/-- From `p` on by the size found at each address. -/
def walk (size : Nat → Nat) (stop : Nat) : Nat → Nat → Option (List Nat) :=
  collect (· == stop) (fun p => p + size p) id

/-- If each frame tells its own length, the walk visits exactly the starts. -/
theorem walk_eq_starts {F α : Type} {bytes : F → List α} {m : Nat → α} {size : Nat → Nat}
    {p stop fuel : Nat} {fs : List F} (holds : Holds m p (fs.flatMap bytes))
    (sizes : ∀ f q, Holds m q (bytes f) → size q = (bytes f).length)
    (nonempty : ∀ f, 0 < (bytes f).length) (ends : p + (fs.flatMap bytes).length = stop)
    (enough : fs.length ≤ fuel) : walk size stop fuel p = some (starts bytes p fs) := by
  induction fs generalizing p fuel with
  | nil =>
    have here : p = stop := ends
    exact collect_stop (by simp [here]) fuel
  | cons f fs ih =>
    obtain ⟨first, rest⟩ := (holds_frames bytes).mp holds
    rw [List.flatMap_cons, List.length_append, ← Nat.add_assoc] at ends
    obtain ⟨fuel, rfl⟩ : ∃ k, fuel = k + 1 := ⟨fuel - 1, by simp at enough; omega⟩
    have notYet : ¬(p == stop) = true := by
      have := nonempty f
      simp only [beq_iff_eq]
      omega
    have next := ih rest ends (Nat.le_of_succ_le_succ enough)
    rw [walk] at next ⊢
    rw [collect, if_neg notYet, sizes f p first, next]
    rfl

end Framing
