import Mathlib.Data.List.Dedup
import Mathlib.Data.List.Perm.Basic

/-! Finite maps as association lists with one entry for a key, listed in any order. -/
namespace Assoc

variable {K V : Type} [DecidableEq K]

def put (dir : List (K × V)) (e : K × V) : List (K × V) := dir.filter (fun f => f.1 ≠ e.1) ++ [e]

def putAll (dir : List (K × V)) (es : List (K × V)) : List (K × V) := es.foldl put dir

def get (dir : List (K × V)) (key : K) : Option V := (dir.find? fun e => e.1 = key).map Prod.snd

def keys (dir : List (K × V)) : List K := dir.map Prod.fst

theorem mem_put {dir : List (K × V)} {e f : K × V} (h : f ∈ put dir e) : f ∈ dir ∨ f = e := by
  rcases List.mem_append.mp h with kept | new
  · exact .inl (List.mem_filter.mp kept).1
  · exact .inr (List.mem_singleton.mp new)

theorem mem_putAll {dir es : List (K × V)} {f : K × V} (h : f ∈ putAll dir es) :
    f ∈ dir ∨ f ∈ es := by
  induction es generalizing dir with
  | nil => exact .inl h
  | cons e es ih =>
    rcases ih h with put | later
    · rcases mem_put put with old | rfl
      · exact .inl old
      · exact .inr List.mem_cons_self
    · exact .inr (List.mem_cons_of_mem _ later)

theorem mem_keys_put (dir : List (K × V)) (e : K × V) (key : K) :
    key ∈ keys (put dir e) ↔ key ∈ keys dir ∨ key = e.1 := by
  simp only [keys, put, List.map_append, List.mem_append, List.mem_map, List.mem_filter,
    List.map_cons, List.map_nil, List.mem_singleton, decide_eq_true_eq]
  constructor
  · rintro (⟨f, ⟨member, _⟩, rfl⟩ | rfl)
    · exact .inl ⟨f, member, rfl⟩
    · exact .inr rfl
  · rintro (⟨f, member, rfl⟩ | rfl)
    · by_cases same : f.1 = e.1
      · exact .inr same
      · exact .inl ⟨f, ⟨member, same⟩, rfl⟩
    · exact .inr rfl

theorem mem_keys_putAll (dir es : List (K × V)) (key : K) :
    key ∈ keys (putAll dir es) ↔ key ∈ keys dir ∨ key ∈ keys es := by
  induction es generalizing dir with
  | nil => simp [putAll, keys]
  | cons e es ih =>
    have rest := ih (put dir e)
    rw [mem_keys_put, or_assoc] at rest
    rw [putAll, List.foldl_cons, ← putAll, rest]
    simp only [keys, List.map_cons, List.mem_cons]

theorem nodup_put {dir : List (K × V)} (nodup : (keys dir).Nodup) (e : K × V) :
    (keys (put dir e)).Nodup := by
  rw [keys, put, List.map_append, List.map_cons, List.map_nil, List.nodup_append]
  refine ⟨(List.filter_sublist.map Prod.fst).nodup nodup, List.nodup_singleton _, ?_⟩
  rintro key kept key' new rfl
  obtain ⟨f, member, rfl⟩ := List.mem_map.mp kept
  exact of_decide_eq_true (List.mem_filter.mp member).2 (List.mem_singleton.mp new)

theorem nodup_putAll {dir : List (K × V)} (nodup : (keys dir).Nodup) (es : List (K × V)) :
    (keys (putAll dir es)).Nodup := by
  induction es generalizing dir with
  | nil => exact nodup
  | cons e es ih => exact ih (nodup_put nodup e)

theorem get_eq {dir : List (K × V)} (nodup : (keys dir).Nodup) {e : K × V} (member : e ∈ dir) :
    get dir e.1 = some e.2 := by
  induction dir with
  | nil => cases member
  | cons f dir ih =>
    rw [keys, List.map_cons, List.nodup_cons] at nodup
    rcases List.mem_cons.mp member with rfl | later
    · simp [get]
    · have other : f.1 ≠ e.1 := fun same => nodup.1 (same ▸ List.mem_map_of_mem later)
      rw [get, List.find?_cons_of_neg (by simpa using other)]
      exact ih nodup.2 later

theorem filter_eq_singleton {dir : List (K × V)} (nodup : (keys dir).Nodup) {e : K × V}
    (member : e ∈ dir) : dir.filter (fun f => f.1 = e.1) = [e] := by
  induction dir with
  | nil => cases member
  | cons f dir ih =>
    rw [keys, List.map_cons, List.nodup_cons] at nodup
    rcases List.mem_cons.mp member with rfl | later
    · have others : dir.filter (fun f => f.1 = e.1) = [] := by
        refine List.filter_eq_nil_iff.mpr fun f inDir same => nodup.1 ?_
        exact of_decide_eq_true same ▸ List.mem_map_of_mem inDir
      rw [List.filter_cons_of_pos (by simp), others]
    · have other : f.1 ≠ e.1 := fun same => nodup.1 (same ▸ List.mem_map_of_mem later)
      rw [List.filter_cons_of_neg (by simpa using other), ih nodup.2 later]

theorem get_eq_none {dir : List (K × V)} {key : K} (absent : ∀ e ∈ dir, e.1 ≠ key) :
    get dir key = none := by
  rw [get, Option.map_eq_none_iff, List.find?_eq_none]
  exact fun e member same => absent e member (of_decide_eq_true same)

theorem get_put_self (dir : List (K × V)) (e : K × V) : get (put dir e) e.1 = some e.2 := by
  have replaced : (dir.filter fun f => f.1 ≠ e.1).find? (fun f => f.1 = e.1) = none := by
    rw [List.find?_eq_none]
    intro f member same
    exact absurd (of_decide_eq_true same) (of_decide_eq_true (List.mem_filter.mp member).2)
  rw [get, put, List.find?_append, replaced]
  simp

theorem get_put_of_ne (dir : List (K × V)) {e : K × V} {key : K} (other : e.1 ≠ key) :
    get (put dir e) key = get dir key := by
  have kept : (dir.filter fun f => f.1 ≠ e.1).find? (fun f => f.1 = key) =
      dir.find? fun f => f.1 = key := by
    rw [List.find?_filter]
    refine congrArg (dir.find? ·) (funext fun f => ?_)
    by_cases same : f.1 = key
    · simp [same, Ne.symm other]
    · simp [same]
  rw [get, put, List.find?_append, kept, get]
  simp [other]

/-- Only the last entry that is put under a key stays. -/
theorem put_put (dir : List (K × V)) (key : K) (v w : V) :
    put (put dir (key, v)) (key, w) = put dir (key, w) := by
  simp [put, List.filter_append, List.filter_filter]

/-- The entry of a key that is put does not depend on the directory. -/
theorem get_putAll (dir : List (K × V)) {es : List (K × V)} (nodup : (keys es).Nodup) (key : K) :
    get (putAll dir es) key = (get es key).or (get dir key) := by
  induction es generalizing dir with
  | nil => rfl
  | cons e es ih =>
    rw [keys, List.map_cons, List.nodup_cons] at nodup
    rw [putAll, List.foldl_cons, ← putAll, ih _ nodup.2]
    by_cases same : e.1 = key
    · subst same
      have later : get es e.1 = none :=
        get_eq_none fun f member equal => nodup.1 (equal ▸ List.mem_map_of_mem member)
      rw [later, get_put_self]
      simp [get]
    · have skip : get (e :: es) key = get es key := by
        rw [get, List.find?_cons_of_neg (by simpa using same), get]
      rw [get_put_of_ne dir same, skip]

theorem putAll_append (dir es fs : List (K × V)) :
    putAll dir (es ++ fs) = putAll (putAll dir es) fs := List.foldl_append ..

theorem get_putAll_of_not_mem (dir : List (K × V)) {es : List (K × V)} {key : K}
    (other : key ∉ keys es) : get (putAll dir es) key = get dir key := by
  induction es generalizing dir with
  | nil => rfl
  | cons e es ih =>
    rw [keys, List.map_cons, List.mem_cons, not_or] at other
    rw [putAll, List.foldl_cons, ← putAll, ih _ other.2, get_put_of_ne dir (Ne.symm other.1)]

theorem get_putAll_of_mem (dir dir' : List (K × V)) {es : List (K × V)} {key : K}
    (member : key ∈ keys es) : get (putAll dir es) key = get (putAll dir' es) key := by
  induction es generalizing dir dir' with
  | nil => cases member
  | cons e es ih =>
    simp only [putAll, List.foldl_cons]
    by_cases later : key ∈ keys es
    · exact ih _ _ later
    · rw [keys, List.map_cons, List.mem_cons] at member
      have own := member.resolve_right later
      rw [← putAll, ← putAll, get_putAll_of_not_mem _ later, get_putAll_of_not_mem _ later, own,
        get_put_self, get_put_self]

theorem mem_iff_get {dir : List (K × V)} (nodup : (keys dir).Nodup) (e : K × V) :
    e ∈ dir ↔ get dir e.1 = some e.2 := by
  constructor
  · exact get_eq nodup
  · intro found
    obtain ⟨f, sought, value⟩ := Option.map_eq_some_iff.mp found
    have key : f.1 = e.1 := by simpa using List.find?_some sought
    have same : f = e := Prod.ext key value
    exact same ▸ List.mem_of_find?_eq_some sought

/-- Maps with the same entries differ in the order at most. -/
theorem perm_of_get {dir dir' : List (K × V)} (nodup : (keys dir).Nodup)
    (nodup' : (keys dir').Nodup) (same : ∀ key, get dir key = get dir' key) : dir.Perm dir' := by
  refine (List.perm_ext_iff_of_nodup (nodup.of_map _) (nodup'.of_map _)).mpr fun e => ?_
  rw [mem_iff_get nodup, mem_iff_get nodup', same]

theorem get_perm {dir dir' : List (K × V)} (perm : dir.Perm dir') (nodup : (keys dir').Nodup)
    (key : K) : get dir key = get dir' key := by
  have nodup' : (keys dir).Nodup := (perm.map Prod.fst).nodup_iff.mpr nodup
  have same : ∀ v, get dir key = some v ↔ get dir' key = some v := fun v =>
    (mem_iff_get nodup' (key, v)).symm.trans (perm.mem_iff.trans (mem_iff_get nodup (key, v)))
  exact Option.ext same

theorem perm_put {dir dir' : List (K × V)} (perm : dir.Perm dir') (e : K × V) :
    (put dir e).Perm (put dir' e) := (perm.filter _).append_right [e]

theorem perm_putAll {dir dir' : List (K × V)} (perm : dir.Perm dir') (es : List (K × V)) :
    (putAll dir es).Perm (putAll dir' es) := by
  induction es generalizing dir dir' with
  | nil => exact perm
  | cons e es ih => exact ih (perm_put perm e)

theorem put_comm_perm (dir : List (K × V)) {e f : K × V} (other : e.1 ≠ f.1) :
    (put (put dir e) f).Perm (put (put dir f) e) := by
  have swap : (dir.filter fun g => g.1 ≠ e.1).filter (fun g => g.1 ≠ f.1) =
      (dir.filter fun g => g.1 ≠ f.1).filter fun g => g.1 ≠ e.1 := List.filter_comm ..
  simp only [put, List.filter_append, swap]
  simp only [List.filter_singleton, other, Ne.symm other, ne_eq, not_false_eq_true, decide_true,
    cond_true, List.append_assoc]
  exact (List.perm_append_comm).append_left _

/-- An entry can be put before others. -/
theorem put_putAll_perm (dir : List (K × V)) {es : List (K × V)} {e : K × V}
    (other : e.1 ∉ keys es) : (put (putAll dir es) e).Perm (putAll (put dir e) es) := by
  induction es generalizing dir with
  | nil => exact .refl _
  | cons f es ih =>
    rw [keys, List.map_cons, List.mem_cons, not_or] at other
    refine (ih (put dir f) other.2).trans ?_
    exact perm_putAll (put_comm_perm dir (Ne.symm other.1)) es

/-- Entries under new, pairwise different keys are appended. -/
theorem putAll_eq_append {dir es : List (K × V)} (nodup : (keys es).Nodup)
    (fresh : ∀ key ∈ keys es, key ∉ keys dir) : putAll dir es = dir ++ es := by
  induction es generalizing dir with
  | nil => exact (List.append_nil dir).symm
  | cons e es ih =>
    rw [keys, List.map_cons, List.nodup_cons] at nodup
    have absent : e.1 ∉ keys dir := fresh e.1 (by simp [keys])
    have step : put dir e = dir ++ [e] := by
      rw [put, List.filter_eq_self.mpr]
      intro f member
      exact decide_eq_true fun same => absent (same ▸ List.mem_map_of_mem member)
    rw [putAll, List.foldl_cons, ← putAll, step, ih nodup.2, List.append_assoc]
    · rfl
    · intro key member inDir
      rw [keys, List.map_append, List.mem_append] at inDir
      rcases inDir with old | new
      · exact fresh key (by simpa [keys] using .inr (by simpa [keys] using member)) old
      · have same : key = e.1 := by simpa using new
        exact nodup.1 (same ▸ member)

/-- A selection by key sees the entries under its own keys. -/
theorem filter_put (p : K → Bool) (dir : List (K × V)) {e : K × V} (own : p e.1 = true) :
    (put dir e).filter (fun f => p f.1) = put (dir.filter fun f => p f.1) e := by
  rw [put, put, List.filter_append, List.filter_singleton, own, cond_true, List.filter_comm]

theorem get_filter (p : K → Bool) (dir : List (K × V)) (key : K) :
    get (dir.filter fun e => p e.1) key = if p key then get dir key else none := by
  rw [get, List.find?_filter]
  split
  · rename_i own
    refine congrArg (Option.map Prod.snd) (congrArg (dir.find? ·) (funext fun f => ?_))
    by_cases same : f.1 = key
    · simp [same, own]
    · simp [same]
  · rename_i other
    rw [Option.map_eq_none_iff, List.find?_eq_none]
    intro f _ found
    obtain ⟨own, same⟩ := by simpa using found
    exact other (same ▸ own)

/-- A selection by key does not see entries under other keys. -/
theorem filter_putAll (p : K → Bool) {dir es : List (K × V)} (other : ∀ e ∈ es, p e.1 = false) :
    (putAll dir es).filter (fun e => p e.1) = dir.filter fun e => p e.1 := by
  induction es generalizing dir with
  | nil => rfl
  | cons e es ih =>
    have own := other e List.mem_cons_self
    rw [putAll, List.foldl_cons, ← putAll, ih fun f h => other f (List.mem_cons_of_mem _ h), put,
      List.filter_append, List.filter_filter, List.filter_singleton, own, cond_false,
      List.append_nil]
    refine List.filter_congr fun f _ => ?_
    by_cases same : f.1 = e.1
    · rw [same, own]
      rfl
    · rw [decide_eq_true same, Bool.and_true]

/-- If a list has as many entries as there are different ones, they all differ. -/
theorem nodup_of_length_le {A : Type} {as bs : List A} (nodup : as.Nodup) (covers : as ⊆ bs)
    (many : bs.length ≤ as.length) : bs.Nodup :=
  ((List.subperm_of_subset nodup covers).perm_of_length_le many).nodup_iff.mp nodup

end Assoc
