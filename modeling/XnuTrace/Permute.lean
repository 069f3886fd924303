import Mathlib.Data.BitVec
import Mathlib.Data.List.Perm.Basic
import Mathlib.Data.List.Nodup
import Mathlib.Data.List.Range

/-! `mph_map::permute`, the in-place loop over the cycles of `new_idx`. The loop moves
whole orbits, so the positions it has finished with are closed under the permutation;
each of them ends up with the pair that `new_idx` names, not with the pair that is to
go there. -/
namespace XnuTrace

section
variable {α : Type} (moved : α → α)

/-- The `while` loop for one `i`; `moved` is what a move leaves behind. `none` when an
index is out of range or the rounds run out. -/
def permuteCycle (i : Nat) : Nat → Nat → List α → List Nat → Option (Nat × List α × List Nat)
  | 0, _, _, _ => none
  | rounds + 1, current, keyVals, newIdx =>
    match newIdx[current]? with
    | none => none
    | some next =>
      if i = next then some (current, keyVals, newIdx)
      else match keyVals[next]? with
        | none => none
        | some kv =>
          permuteCycle i rounds next ((keyVals.set next (moved kv)).set current kv)
            (newIdx.set current current)

def permuteAt (i : Nat) (keyVals : List α) (newIdx : List Nat) : Option (List α × List Nat) :=
  match keyVals[i]? with
  | none => none
  | some t =>
    match permuteCycle moved i (newIdx.length + 1) i (keyVals.set i (moved t)) newIdx with
    | none => none
    | some (current, keyVals, newIdx) => some (keyVals.set current t, newIdx.set current current)

def permute (keyVals : List α) (newIdx : List Nat) : Option (List α) :=
  ((List.range newIdx.length).foldlM
    (fun (keyVals, newIdx) i => permuteAt moved i keyVals newIdx) (keyVals, newIdx)).map Prod.fst

end

section
variable {α : Type} {moved : α → α} {start : List α} {n : Nat} {next : Nat → Nat}

/-- Between two values of `i`: the positions in `done` hold their final pairs. -/
structure Permuted (start : List α) (n : Nat) (next : Nat → Nat) (done : Nat → Prop)
    (keyVals : List α) (newIdx : List Nat) : Prop where
  length_keyVals : keyVals.length = n
  length_newIdx : newIdx.length = n
  final : ∀ j < n, done j → keyVals[j]? = start[next j]? ∧ newIdx[j]? = some j
  rest : ∀ j < n, ¬done j → keyVals[j]? = start[j]? ∧ newIdx[j]? = some (next j)
  closed : ∀ j < n, done (next j) ↔ done j

/-- Inside the cycle of `i`: `path` is the part of it that lies behind `current`, whose
own pair has been moved out. -/
structure OnCycle (start : List α) (n : Nat) (next : Nat → Nat) (done : Nat → Prop) (i : Nat)
    (path : List Nat) (current : Nat) (keyVals : List α) (newIdx : List Nat) : Prop where
  length_keyVals : keyVals.length = n
  length_newIdx : newIdx.length = n
  final : ∀ j < n, done j ∨ j ∈ path → keyVals[j]? = start[next j]? ∧ newIdx[j]? = some j
  rest : ∀ j < n, ¬done j → j ∉ path →
    newIdx[j]? = some (next j) ∧ (j ≠ current → keyVals[j]? = start[j]?)
  closed : ∀ j < n, done (next j) ↔ done j
  nodup : (current :: path).Nodup
  fresh : ∀ j ∈ current :: path, j < n ∧ ¬done j
  inside : ∀ j ∈ path, next j ∈ current :: path
  behind : ∀ j ∈ current :: path, j = i ∨ ∃ k ∈ path, next k = j
  origin : i ∈ current :: path

/-- The cycle cannot close anywhere but at `i`. -/
theorem OnCycle.advances {done : Nat → Prop} {i current : Nat} {path : List Nat}
    {keyVals : List α} {newIdx : List Nat}
    (cycle : OnCycle start n next done i path current keyVals newIdx)
    (inj : ∀ j < n, ∀ k < n, next j = next k → j = k) (open' : i ≠ next current) :
    next current ∉ current :: path ∧ ¬done (next current) := by
  obtain ⟨bound, unfinished⟩ := cycle.fresh current List.mem_cons_self
  constructor
  · intro seen
    rcases cycle.behind _ seen with same | ⟨k, hk, same⟩
    · exact open' same.symm
    · have repeated := inj k (cycle.fresh k (List.mem_cons_of_mem _ hk)).1 current bound same
      exact (List.nodup_cons.mp cycle.nodup).1 (repeated ▸ hk)
  · rwa [cycle.closed current bound]

theorem OnCycle.step {done : Nat → Prop} {i current : Nat} {path : List Nat}
    {keyVals : List α} {newIdx : List Nat} {kv : α}
    (cycle : OnCycle start n next done i path current keyVals newIdx)
    (range : ∀ j < n, next j < n) (inj : ∀ j < n, ∀ k < n, next j = next k → j = k)
    (open' : i ≠ next current) (found : keyVals[next current]? = some kv) :
    OnCycle start n next done i (current :: path) (next current)
      ((keyVals.set (next current) (moved kv)).set current kv) (newIdx.set current current) := by
  obtain ⟨bound, unfinished⟩ := cycle.fresh current List.mem_cons_self
  obtain ⟨new, open_next⟩ := cycle.advances inj open'
  have bound' := range current bound
  obtain ⟨notHere, notBehind⟩ := not_or.mp (List.mem_cons.not.mp new)
  have value : start[next current]? = some kv := by
    rw [← (cycle.rest _ bound' open_next notBehind).2 notHere, found]
  have untouched : ∀ j, j ≠ current → j ≠ next current →
      ((keyVals.set (next current) (moved kv)).set current kv)[j]? = keyVals[j]? := by
    intro j here there
    rw [List.getElem?_set_ne here.symm, List.getElem?_set_ne there.symm]
  refine ⟨?_, ?_, ?_, ?_, cycle.closed, ?_, ?_, ?_, ?_, ?_⟩
  · rw [List.length_set, List.length_set, cycle.length_keyVals]
  · rw [List.length_set, cycle.length_newIdx]
  · intro j hj reached
    by_cases here : j = current
    · subst here
      constructor
      · rw [value, List.getElem?_set_self]
        rwa [List.length_set, cycle.length_keyVals]
      · rw [List.getElem?_set_self]
        rwa [cycle.length_newIdx]
    · have before : done j ∨ j ∈ path := by
        rcases reached with finished | behind
        · exact .inl finished
        · exact .inr ((List.mem_cons.mp behind).resolve_left here)
      have there : j ≠ next current := by
        rintro rfl
        exact before.elim open_next notBehind
      rw [untouched j here there, List.getElem?_set_ne (Ne.symm here)]
      exact cycle.final j hj before
  · intro j hj unvisited ahead
    obtain ⟨here, behind⟩ := not_or.mp (List.mem_cons.not.mp ahead)
    obtain ⟨index, kept⟩ := cycle.rest j hj unvisited behind
    rw [List.getElem?_set_ne (Ne.symm here)]
    refine ⟨index, fun there => ?_⟩
    rw [untouched j here there, kept here]
  · exact List.nodup_cons.mpr ⟨new, cycle.nodup⟩
  · intro j hj
    rcases List.mem_cons.mp hj with rfl | before
    · exact ⟨bound', open_next⟩
    · exact cycle.fresh j before
  · intro j hj
    rcases List.mem_cons.mp hj with rfl | before
    · exact List.mem_cons_self
    · exact List.mem_cons_of_mem _ (cycle.inside j before)
  · intro j hj
    rcases List.mem_cons.mp hj with rfl | before
    · exact .inr ⟨current, List.mem_cons_self, rfl⟩
    · rcases cycle.behind j before with first | ⟨k, hk, same⟩
      · exact .inl first
      · exact .inr ⟨k, List.mem_cons_of_mem _ hk, same⟩
  · exact List.mem_cons_of_mem _ cycle.origin

variable (moved) in
theorem permuteCycle_closes {done : Nat → Prop} {i : Nat} (rounds : Nat) {current : Nat}
    {path : List Nat} {keyVals : List α} {newIdx : List Nat}
    (cycle : OnCycle start n next done i path current keyVals newIdx)
    (range : ∀ j < n, next j < n) (inj : ∀ j < n, ∀ k < n, next j = next k → j = k)
    (enough : n < path.length + rounds) :
    ∃ last path' keyVals' newIdx',
      permuteCycle moved i rounds current keyVals newIdx = some (last, keyVals', newIdx') ∧
      OnCycle start n next done i path' last keyVals' newIdx' ∧ next last = i := by
  induction rounds generalizing path current keyVals newIdx with
  | zero =>
    have bounded : ∀ j ∈ path, j ∈ List.range n := fun j hj =>
      List.mem_range.mpr (cycle.fresh j (List.mem_cons_of_mem _ hj)).1
    have short := (List.subperm_of_subset (List.nodup_cons.mp cycle.nodup).2 bounded).length_le
    rw [List.length_range] at short
    omega
  | succ rounds ih =>
    obtain ⟨bound, unfinished⟩ := cycle.fresh current List.mem_cons_self
    have index := (cycle.rest current bound unfinished (List.nodup_cons.mp cycle.nodup).1).1
    have inside : next current < keyVals.length := by
      rw [cycle.length_keyVals]
      exact range current bound
    rw [permuteCycle, index]
    by_cases closes : i = next current
    · exact ⟨current, path, keyVals, newIdx, if_pos closes, cycle, closes.symm⟩
    · have found := List.getElem?_eq_getElem inside
      simp only [if_neg closes, found]
      refine ih (cycle.step range inj closes found) ?_
      rw [List.length_cons]
      omega

theorem Permuted.enter {done : Nat → Prop} {i : Nat} {keyVals : List α} {newIdx : List Nat}
    (before : Permuted start n next done keyVals newIdx) (bound : i < n) (unfinished : ¬done i)
    (left : α) : OnCycle start n next done i [] i (keyVals.set i left) newIdx where
  length_keyVals := by rw [List.length_set, before.length_keyVals]
  length_newIdx := before.length_newIdx
  final := by
    intro j hj reached
    have finished := reached.resolve_right List.not_mem_nil
    have other : i ≠ j := fun same => unfinished (same ▸ finished)
    rw [List.getElem?_set_ne other]
    exact before.final j hj finished
  rest := by
    intro j hj open' _
    obtain ⟨kept, index⟩ := before.rest j hj open'
    exact ⟨index, fun other => by rw [List.getElem?_set_ne other.symm, kept]⟩
  closed := before.closed
  nodup := List.nodup_singleton i
  fresh j hj := by
    obtain rfl := List.mem_singleton.mp hj
    exact ⟨bound, unfinished⟩
  inside j hj := absurd hj List.not_mem_nil
  behind j hj := .inl (List.mem_singleton.mp hj)
  origin := List.mem_singleton_self i

theorem OnCycle.leave {done : Nat → Prop} {i last : Nat} {path : List Nat}
    {keyVals : List α} {newIdx : List Nat} {t : α}
    (cycle : OnCycle start n next done i path last keyVals newIdx) (closes : next last = i)
    (inj : ∀ j < n, ∀ k < n, next j = next k → j = k) (origin : start[i]? = some t) :
    Permuted start n next (fun j => done j ∨ j ∈ last :: path) (keyVals.set last t)
      (newIdx.set last last) := by
  obtain ⟨bound, unfinished⟩ := cycle.fresh last List.mem_cons_self
  refine ⟨?_, ?_, ?_, ?_, ?_⟩
  · rw [List.length_set, cycle.length_keyVals]
  · rw [List.length_set, cycle.length_newIdx]
  · intro j hj reached
    by_cases here : j = last
    · subst here
      rw [closes, origin, List.getElem?_set_self, List.getElem?_set_self]
      · exact ⟨rfl, rfl⟩
      · rwa [cycle.length_newIdx]
      · rwa [cycle.length_keyVals]
    · rw [List.getElem?_set_ne (Ne.symm here), List.getElem?_set_ne (Ne.symm here)]
      refine cycle.final j hj (reached.imp_right fun visited => ?_)
      exact (List.mem_cons.mp visited).resolve_left here
  · intro j hj open'
    obtain ⟨unvisited, ahead⟩ := not_or.mp open'
    obtain ⟨here, behind⟩ := not_or.mp (List.mem_cons.not.mp ahead)
    obtain ⟨index, kept⟩ := cycle.rest j hj unvisited behind
    rw [List.getElem?_set_ne (Ne.symm here), List.getElem?_set_ne (Ne.symm here)]
    exact ⟨kept here, index⟩
  · intro j hj
    refine or_congr (cycle.closed j hj) ⟨fun ahead => ?_, fun visited => ?_⟩
    · rcases cycle.behind _ ahead with first | ⟨k, hk, same⟩
      · have : j = last := inj j hj last bound (first.trans closes.symm)
        exact this ▸ List.mem_cons_self
      · have : k = j := inj k (cycle.fresh k (List.mem_cons_of_mem _ hk)).1 j hj same
        exact this ▸ List.mem_cons_of_mem _ hk
    · rcases List.mem_cons.mp visited with rfl | behind
      · rw [closes]
        exact cycle.origin
      · exact cycle.inside j behind

theorem set_of_getElem? {β : Type} {bs : List β} {j : Nat} {b : β} (found : bs[j]? = some b) :
    bs.set j b = bs := by
  obtain ⟨bound, rfl⟩ := List.getElem?_eq_some_iff.mp found
  exact List.set_getElem_self bound

variable (moved) in
/-- One value of `i`: its whole cycle is finished. -/
theorem permuteAt_spec {done : Nat → Prop} {i : Nat} {keyVals : List α} {newIdx : List Nat}
    (before : Permuted start n next done keyVals newIdx) (bound : i < n)
    (range : ∀ j < n, next j < n) (inj : ∀ j < n, ∀ k < n, next j = next k → j = k) :
    ∃ keyVals' newIdx' done', permuteAt moved i keyVals newIdx = some (keyVals', newIdx') ∧
      Permuted start n next done' keyVals' newIdx' ∧ done' i ∧ ∀ j, done j → done' j := by
  obtain ⟨t, found⟩ : ∃ t, keyVals[i]? = some t :=
    ⟨_, List.getElem?_eq_getElem (by rwa [before.length_keyVals])⟩
  rw [permuteAt, found]
  by_cases finished : done i
  · have index := (before.final i bound finished).2
    simp only [permuteCycle, index, if_true, List.set_set, set_of_getElem? found,
      set_of_getElem? index]
    exact ⟨_, _, done, rfl, before, finished, fun j h => h⟩
  · have origin := (before.rest i bound finished).1.symm.trans found
    have enough : n < ([] : List Nat).length + (newIdx.length + 1) := by
      rw [before.length_newIdx, List.length_nil]
      omega
    obtain ⟨last, path, keyVals', newIdx', run, cycle, closes⟩ :=
      permuteCycle_closes moved _ (before.enter bound finished (moved t)) range inj enough
    simp only [run]
    exact ⟨_, _, _, rfl, cycle.leave closes inj origin, .inr cycle.origin, fun j h => .inl h⟩

variable (moved) in
theorem foldlM_permuteAt {is : List Nat} {done : Nat → Prop} {keyVals : List α}
    {newIdx : List Nat} (before : Permuted start n next done keyVals newIdx)
    (bounds : ∀ i ∈ is, i < n) (range : ∀ j < n, next j < n)
    (inj : ∀ j < n, ∀ k < n, next j = next k → j = k) :
    ∃ keyVals' newIdx' done',
      is.foldlM (fun (keyVals, newIdx) i => permuteAt moved i keyVals newIdx) (keyVals, newIdx) =
        some (keyVals', newIdx') ∧
      Permuted start n next done' keyVals' newIdx' ∧ (∀ i ∈ is, done' i) ∧
      ∀ j, done j → done' j := by
  induction is generalizing done keyVals newIdx with
  | nil => exact ⟨_, _, done, rfl, before, fun i hi => absurd hi List.not_mem_nil, fun j h => h⟩
  | cons i is ih =>
    obtain ⟨bound, bounds⟩ := List.forall_mem_cons.mp bounds
    obtain ⟨keyVals₁, newIdx₁, done₁, step, after, here, kept⟩ :=
      permuteAt_spec moved before bound range inj
    obtain ⟨keyVals₂, newIdx₂, done₂, run, last, finished, grown⟩ := ih after bounds
    refine ⟨keyVals₂, newIdx₂, done₂, ?_, last, ?_, fun j h => grown j (kept j h)⟩
    · rw [List.foldlM_cons]
      simp only [step, Option.bind_eq_bind, Option.bind_some, run]
    · exact List.forall_mem_cons.mpr ⟨grown i here, finished⟩

variable (moved) in
/-- For one-to-one indexes all cycles are finished in the end. -/
theorem foldlM_permuteAt_of_perm {keyVals : List α} {newIdx : List Nat}
    (perm : newIdx.Perm (List.range keyVals.length)) : ∃ keyVals' newIdx' done,
      (List.range newIdx.length).foldlM (fun (keyVals, newIdx) i => permuteAt moved i keyVals newIdx)
        (keyVals, newIdx) = some (keyVals', newIdx') ∧
      Permuted keyVals keyVals.length (newIdx.getD · 0) done keyVals' newIdx' ∧
      ∀ j < keyVals.length, done j := by
  have length : newIdx.length = keyVals.length := by
    rw [perm.length_eq, List.length_range]
  have nodup : newIdx.Nodup := perm.nodup_iff.mpr List.nodup_range
  have entry : ∀ j < keyVals.length, newIdx[j]? = some (newIdx.getD j 0) := by
    intro j hj
    rw [List.getD_eq_getElem?_getD, List.getElem?_eq_getElem (length ▸ hj)]
    rfl
  have range : ∀ j < keyVals.length, newIdx.getD j 0 < keyVals.length := fun j hj =>
    List.mem_range.mp (perm.mem_iff.mp (List.mem_of_getElem? (entry j hj)))
  have inj : ∀ j < keyVals.length, ∀ k < keyVals.length,
      newIdx.getD j 0 = newIdx.getD k 0 → j = k := by
    intro j hj k hk same
    have equal : newIdx[j]? = newIdx[k]? := by rw [entry j hj, entry k hk, same]
    exact (List.getElem?_inj (length ▸ hj) nodup).mp equal
  have initial : Permuted keyVals keyVals.length (newIdx.getD · 0) (fun _ => False) keyVals
      newIdx := by
    refine ⟨rfl, length, ?_, fun j hj _ => ⟨rfl, entry j hj⟩, fun _ _ => Iff.rfl⟩
    rintro j _ ⟨⟩
  obtain ⟨keyVals', newIdx', done, run, final, finished, _⟩ :=
    foldlM_permuteAt moved initial (fun i hi => length ▸ List.mem_range.mp hi) range inj
  exact ⟨keyVals', newIdx', done, run, final, fun j hj => finished j (List.mem_range.mpr (length ▸ hj))⟩

variable (moved) in
/-- For one-to-one indexes, position `j` receives the pair that was at `new_idx[j]`. -/
theorem permute_spec {keyVals : List α} {newIdx : List Nat}
    (perm : newIdx.Perm (List.range keyVals.length)) :
    ∃ keyVals', permute moved keyVals newIdx = some keyVals' ∧
      keyVals'.length = keyVals.length ∧
      ∀ j i : Nat, newIdx[j]? = some i → keyVals'[j]? = keyVals[i]? := by
  have length : newIdx.length = keyVals.length := by
    rw [perm.length_eq, List.length_range]
  obtain ⟨keyVals', newIdx', done, run, final, finished⟩ := foldlM_permuteAt_of_perm moved perm
  refine ⟨keyVals', by rw [permute, run]; rfl, final.length_keyVals, fun j i index => ?_⟩
  obtain ⟨bound, _⟩ := List.getElem?_eq_some_iff.mp index
  have reached := final.final j (length ▸ bound) (finished j (length ▸ bound))
  rw [reached.1, List.getD_eq_getElem?_getD, index]
  rfl

end

/-! The loop with its 32-bit counter. -/

section
variable {α : Type} (moved : α → α)

/-- `for (uint32_t i = 0; i < new_idx.size(); i++)` from a value of `i` on: what is left in
`m_key_vals` and in `new_idx`, `none` when `permuteAt` fails or the rounds run out. -/
def permuteLoop : Nat → BitVec 32 → List α → List Nat → Option (List α × List Nat)
  | 0, _, _, _ => none
  | rounds + 1, i, keyVals, newIdx =>
    if i.toNat < newIdx.length then
      match permuteAt moved i.toNat keyVals newIdx with
      | none => none
      | some (keyVals, newIdx) => permuteLoop rounds (i + 1) keyVals newIdx
    else some (keyVals, newIdx)

variable {moved} {keyVals : List α} {newIdx : List Nat}

theorem length_permuteCycle {i : Nat} (rounds : Nat) {current last : Nat} {keyVals' : List α}
    {newIdx' : List Nat}
    (done : permuteCycle moved i rounds current keyVals newIdx = some (last, keyVals', newIdx')) :
    newIdx'.length = newIdx.length := by
  induction rounds generalizing current keyVals newIdx with
  | zero => cases done
  | succ rounds ih =>
    rw [permuteCycle] at done
    split at done
    · cases done
    split at done
    · cases done
      rfl
    split at done
    · cases done
    exact (ih done).trans List.length_set

theorem length_permuteAt {i : Nat} {keyVals' : List α} {newIdx' : List Nat}
    (done : permuteAt moved i keyVals newIdx = some (keyVals', newIdx')) :
    newIdx'.length = newIdx.length := by
  rw [permuteAt] at done
  split at done
  · cases done
  split at done
  · cases done
  rename_i cycled
  cases done
  exact List.length_set.trans (length_permuteCycle _ cycled)

/-- As long as the counter does not wrap, the loop is the fold over the values of `i`. -/
theorem permuteLoop_eq_foldlM (remaining i : Nat) (ends : i + remaining = newIdx.length)
    (few : newIdx.length < 2 ^ 32) {rounds : Nat} (enough : remaining < rounds) :
    permuteLoop moved rounds (BitVec.ofNat 32 i) keyVals newIdx =
      (List.range' i remaining).foldlM (fun (keyVals, newIdx) i => permuteAt moved i keyVals newIdx)
        (keyVals, newIdx) := by
  induction remaining generalizing i keyVals newIdx rounds with
  | zero =>
    obtain ⟨rounds, rfl⟩ := Nat.exists_eq_add_of_lt enough
    have counter : (BitVec.ofNat 32 i).toNat = i := by
      rw [BitVec.toNat_ofNat, Nat.mod_eq_of_lt (by omega)]
    rw [Nat.zero_add, permuteLoop, counter, if_neg (by omega)]
    rfl
  | succ remaining ih =>
    obtain ⟨rounds, rfl⟩ := Nat.exists_eq_add_of_lt enough
    have counter : (BitVec.ofNat 32 i).toNat = i := by
      rw [BitVec.toNat_ofNat, Nat.mod_eq_of_lt (by omega)]
    have next : BitVec.ofNat 32 i + 1 = BitVec.ofNat 32 (i + 1) := (BitVec.ofNat_add i 1).symm
    rw [permuteLoop, counter, if_pos (by omega), List.range'_succ, List.foldlM_cons]
    cases cycled : permuteAt moved i keyVals newIdx with
    | none =>
      dsimp only
      rw [cycled]
      rfl
    | some both =>
      obtain ⟨keyVals', newIdx'⟩ := both
      have length := length_permuteAt cycled
      dsimp only
      rw [cycled, next, Option.bind_eq_bind, Option.bind_some]
      exact ih (i + 1) (by rw [length]; omega) (by rwa [length]) (by omega)

/-- `permute` as the map's rebuild uses it. -/
theorem permute_eq_permuteLoop (few : newIdx.length < 2 ^ 32) {rounds : Nat}
    (enough : newIdx.length < rounds) : permute moved keyVals newIdx =
      (permuteLoop moved rounds 0 keyVals newIdx).map Prod.fst := by
  rw [permute, List.range_eq_range']
  exact congrArg _ (permuteLoop_eq_foldlM newIdx.length 0 (Nat.zero_add _) few enough).symm

theorem filterMap_of_map {β : Type} {f : β → Option α} {bs : List β} {as : List α}
    (same : bs.map f = as.map some) : bs.filterMap f = as := by
  have back := congrArg (List.filterMap id) same
  rw [List.filterMap_map, List.filterMap_map] at back
  exact back.trans List.filterMap_some

/-- The pairs that one-to-one indexes name are all pairs. -/
theorem filterMap_perm (perm : newIdx.Perm (List.range keyVals.length)) :
    (newIdx.filterMap (keyVals[·]?)).Perm keyVals := by
  have whole : (List.range keyVals.length).filterMap (keyVals[·]?) = keyVals := by
    apply filterMap_of_map
    refine List.ext_getElem (by simp) fun j hj _ => ?_
    simp at hj
    simp [hj]
  conv_rhs => rw [← whole]
  exact perm.filterMap _

/-- Each pair ends up in its place whatever moves leave behind, and `new_idx` as the identity. -/
theorem permuteLoop_rearranges (perm : newIdx.Perm (List.range keyVals.length))
    (few : keyVals.length < 2 ^ 32) : ∃ out, out.Perm keyVals ∧
      ∀ moved : α → α, ∀ rounds, keyVals.length < rounds →
        permuteLoop moved rounds 0 keyVals newIdx = some (out, List.range keyVals.length) := by
  have length : newIdx.length = keyVals.length := by
    rw [perm.length_eq, List.length_range]
  refine ⟨newIdx.filterMap (keyVals[·]?), filterMap_perm perm, fun moved rounds enough => ?_⟩
  obtain ⟨keyVals', newIdx', done, run, final, finished⟩ := foldlM_permuteAt_of_perm moved perm
  have loop := @permuteLoop_eq_foldlM α moved keyVals newIdx newIdx.length 0 (Nat.zero_add _)
    (length ▸ few) rounds (length ▸ enough)
  rw [← List.range_eq_range', run] at loop
  refine loop.trans (congrArg some (Prod.ext ?_ ?_))
  · refine (filterMap_of_map (List.ext_getElem ?_ fun j hj hj' => ?_)).symm
    · rw [List.length_map, List.length_map, length, final.length_keyVals]
    · rw [List.length_map] at hj hj'
      have bound := final.length_keyVals ▸ hj'
      have placed := (final.final j bound (finished j bound)).1
      rw [List.getElem_map, List.getElem_map, ← List.getElem?_eq_getElem hj', placed,
        List.getD_eq_getElem?_getD, List.getElem?_eq_getElem hj, Option.getD_some]
  · refine List.ext_getElem (by rw [List.length_range, final.length_newIdx]) fun j hj hj' => ?_
    have bound := final.length_newIdx ▸ hj
    have index := (final.final j bound (finished j bound)).2
    rw [List.getElem_range]
    exact Option.some.inj ((List.getElem?_eq_getElem hj).symm.trans index)

/-- A cycle of three and a pair that stays. -/
theorem permuteLoop_rearranges_cycle : ∃ out, out.Perm [(7, 'a'), (8, 'b'), (9, 'c'), (5, 'd')] ∧
    ∀ moved : Nat × Char → Nat × Char, ∀ rounds, 4 < rounds →
      permuteLoop moved rounds 0 [(7, 'a'), (8, 'b'), (9, 'c'), (5, 'd')] [2, 0, 1, 3] =
        some (out, List.range 4) :=
  permuteLoop_rearranges (by decide) (by decide)

end

/-! Each pair that comes out was put in, or is what a move left of one. -/

section
variable {α : Type} {moved : α → α} {p : α → Prop} {keyVals : List α} {newIdx : List Nat}

theorem forall_mem_set {i : Nat} {a : α} (all : ∀ b ∈ keyVals, p b) (new : p a) :
    ∀ b ∈ keyVals.set i a, p b := by
  intro b member
  rcases List.mem_or_eq_of_mem_set member with old | rfl
  · exact all b old
  · exact new

theorem permuteCycle_forall (left : ∀ a, p a → p (moved a)) {i : Nat} (rounds : Nat)
    {current last : Nat} {keyVals' : List α} {newIdx' : List Nat} (all : ∀ a ∈ keyVals, p a)
    (done : permuteCycle moved i rounds current keyVals newIdx = some (last, keyVals', newIdx')) :
    ∀ a ∈ keyVals', p a := by
  induction rounds generalizing current keyVals newIdx with
  | zero => cases done
  | succ rounds ih =>
    rw [permuteCycle] at done
    split at done
    · cases done
    split at done
    · cases done
      exact all
    split at done
    · cases done
    rename_i kv found
    have own := all kv (List.mem_of_getElem? found)
    exact ih (forall_mem_set (forall_mem_set all (left kv own)) own) done

theorem permuteAt_forall (left : ∀ a, p a → p (moved a)) {i : Nat} {keyVals' : List α}
    {newIdx' : List Nat} (all : ∀ a ∈ keyVals, p a)
    (done : permuteAt moved i keyVals newIdx = some (keyVals', newIdx')) :
    ∀ a ∈ keyVals', p a := by
  rw [permuteAt] at done
  split at done
  · cases done
  rename_i t found
  have own := all t (List.mem_of_getElem? found)
  split at done
  · cases done
  rename_i cycled
  cases done
  exact forall_mem_set (permuteCycle_forall left _ (forall_mem_set all (left t own)) cycled) own

theorem permute_forall (left : ∀ a, p a → p (moved a)) {out : List α} (all : ∀ a ∈ keyVals, p a)
    (done : permute moved keyVals newIdx = some out) : ∀ a ∈ out, p a := by
  obtain ⟨⟨_, _⟩, folded, rfl⟩ := Option.map_eq_some_iff.mp done
  clear done
  generalize List.range newIdx.length = is at folded
  induction is generalizing keyVals newIdx with
  | nil =>
    cases folded
    exact all
  | cons i is ih =>
    rw [List.foldlM_cons] at folded
    obtain ⟨⟨keyVals₁, newIdx₁⟩, first, rest⟩ := Option.bind_eq_some_iff.mp folded
    exact ih (permuteAt_forall left all first) rest

end

end XnuTrace
