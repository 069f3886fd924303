import XnuTrace.MachORegions

/-! A `MinimalPerfectHash` that is built again. `build` resizes the salts of the earlier
build and sets those of the buckets that have keys; the others stay as they were. -/
namespace XnuTrace
open Occupancy MinimalPerfectHash

/-- A direct slot is below `n`. -/
def SaltBelow (n : Nat) (salt : Int) : Prop := salt < 0 → -salt - 1 < n

section
variable {w : Nat} {hash : Hasher} {n : Nat}

theorem slotOf_lt_iff (pos : 0 < n) {salts : List Int} (key : BitVec w) :
    slotOf hash n salts key < n ↔ SaltBelow n (salts.getD (hashMod hash n key 0) 0) := by
  unfold slotOf SaltBelow
  simp only
  split
  · rename_i negative
    omega
  · rename_i plain
    exact iff_of_true (hashMod_lt pos key _) fun negative => absurd negative plain

theorem placeBucket_entry {s s' : Slots} {b : Bucket w} (few : n ≤ uint32Max)
    (length_used : s.slotUsed.length = n) (done : placeBucket hash n s b = .ok s') :
    s'.slotUsed.length = n ∧ s'.salts.length = s.salts.length ∧
    (∀ i, b.keys = [] ∨ b.hmod ≠ i → s'.salts.getD i 0 = s.salts.getD i 0) ∧
    (b.keys ≠ [] → b.hmod < s.salts.length → SaltBelow n (s'.salts.getD b.hmod 0)) := by
  obtain ⟨length, ⟨none, same⟩ | ⟨filled, salt, new, set⟩⟩ := placeBucket_set few length_used done
  · rw [same]
    exact ⟨length, rfl, fun _ _ => rfl, fun filled => absurd none filled⟩
  · rw [set]
    refine ⟨length, List.length_set, fun i h => ?_, fun _ inside => ?_⟩
    · rw [List.getD_eq_getElem?_getD, List.getElem?_set_ne (h.resolve_left filled),
        ← List.getD_eq_getElem?_getD]
    · rw [List.getD_eq_getElem?_getD, List.getElem?_set_self inside, Option.getD_some]
      exact new

/-- Buckets with keys get salts below `n`, the entries of the others stay. -/
theorem foldlM_placeBucket_entry {buckets : List (Bucket w)} {s s' : Slots} (few : n ≤ uint32Max)
    (length_used : s.slotUsed.length = n)
    (inside : ∀ b ∈ buckets, b.keys ≠ [] → b.hmod < s.salts.length)
    (done : buckets.foldlM (placeBucket hash n) s = .ok s') (i : Nat) :
    ((∀ b ∈ buckets, b.keys = [] ∨ b.hmod ≠ i) → s'.salts.getD i 0 = s.salts.getD i 0) ∧
    (SaltBelow n (s.salts.getD i 0) ∨ (∃ b ∈ buckets, b.keys ≠ [] ∧ b.hmod = i) →
      SaltBelow n (s'.salts.getD i 0)) := by
  induction buckets generalizing s with
  | nil =>
    cases done
    exact ⟨fun _ => rfl, fun h => h.elim id fun ⟨b, member, _⟩ => absurd member List.not_mem_nil⟩
  | cons b buckets ih =>
    rw [List.foldlM_cons] at done
    cases step : placeBucket hash n s b with
    | error e =>
      rw [step] at done
      cases done
    | ok s₁ =>
      rw [step] at done
      obtain ⟨length₁, lengthSalts, kept, set⟩ := placeBucket_entry few length_used step
      obtain ⟨unchanged, below⟩ := ih length₁
        (fun b h => lengthSalts ▸ inside b (List.mem_cons_of_mem _ h)) done
      constructor
      · intro elsewhere
        rw [unchanged fun b h => elsewhere b (List.mem_cons_of_mem _ h),
          kept i (elsewhere b List.mem_cons_self)]
      · intro h
        apply below
        by_cases here : b.keys ≠ [] ∧ b.hmod = i
        · obtain ⟨filled, rfl⟩ := here
          exact .inl (set filled (inside b List.mem_cons_self filled))
        · have same := kept i ((not_and_or.mp here).imp_left not_not.mp)
          rcases h with old | ⟨b', member, keyed⟩
          · exact .inl (same ▸ old)
          · rcases List.mem_cons.mp member with rfl | later
            · exact absurd keyed here
            · exact .inr ⟨b', later, keyed⟩

end

theorem getD_resize (salts : List Int) {n i : Nat} (bound : i < n) :
    (resize salts n).getD i 0 = salts.getD i 0 := by
  simp only [resize, List.getD_eq_getElem?_getD, List.getElem?_append, List.length_take,
    List.getElem?_take, List.getElem?_replicate]
  split
  · rfl
  · rename_i outside
    rw [List.getElem?_eq_none (show salts.length ≤ i by omega)]
    split <;> rfl

/-! One build on the salts of earlier ones. -/

/-- Where a value is looked up that shares its bucket with no key, the entry that is left
there from earlier builds names no slot behind the last key. -/
def StaleBelow {w : Nat} (hash : Hasher) (mph : MinimalPerfectHash) (keys : List (BitVec w)) :
    Prop :=
  ∀ key : BitVec w,
    (∀ k ∈ keys, hashMod hash keys.length k 0 ≠ hashMod hash keys.length key 0) →
      SaltBelow keys.length (mph.mSalts.getD (hashMod hash keys.length key 0) 0)

section
variable {w : Nat} {hash : Hasher} {sortBuckets : List (Bucket w) → List (Bucket w)}

theorem build_in_range_iff (sorts : SortsBySize sortBuckets) {mph built : MinimalPerfectHash}
    {keys : List (BitVec w)} (done : build hash sortBuckets mph keys = .ok built) :
    (∀ key : BitVec w, built.apply hash key < keys.length) ↔ StaleBelow hash mph keys := by
  have nodup := nodup_of_build done
  have few := few_of_build done
  obtain ⟨pos, size, _⟩ := build_ok done
  have parts := (partitions_fillBuckets hash keys.length nodup pos).perm (sorts _).1
  have start := @reached_start w hash keys.length mph.mSalts
  rw [build_eq nodup (List.ne_nil_of_length_pos pos) few] at done
  have keyed : ∀ i, (∃ b ∈ sortBuckets (fillBuckets hash keys.length keys),
      b.keys ≠ [] ∧ b.hmod = i) ↔ ∃ k ∈ keys, hashMod hash keys.length k 0 = i := by
    intro i
    constructor
    · rintro ⟨b, member, filled, rfl⟩
      obtain ⟨k, first⟩ := List.exists_mem_of_ne_nil _ filled
      exact ⟨k, parts.exhaustive.mem_iff.mp (List.mem_flatMap.mpr ⟨b, member, first⟩),
        parts.keyed b member k first⟩
    · rintro ⟨k, member, rfl⟩
      obtain ⟨b, inBuckets, first⟩ := List.mem_flatMap.mp (parts.exhaustive.mem_iff.mpr member)
      exact ⟨b, inBuckets, List.ne_nil_of_mem first, (parts.keyed b inBuckets k first).symm⟩
  split at done
  · cases done
  · rename_i slots loop
    cases done
    have entry := foldlM_placeBucket_entry few start.length_used (fun b member filled => by
      obtain ⟨k, first⟩ := List.exists_mem_of_ne_nil _ filled
      rw [start.length_salts, ← parts.keyed b member k first]
      exact hashMod_lt pos k 0) loop
    refine forall_congr' fun key => ?_
    obtain ⟨unchanged, below⟩ := entry (hashMod hash keys.length key 0)
    rw [startSlots, getD_resize mph.mSalts (hashMod_lt pos key 0)] at unchanged below
    rw [keyed] at below
    rw [apply, slotOf_lt_iff pos]
    constructor
    · intro inside empty
      rwa [unchanged fun b member => ?_] at inside
      by_contra other
      obtain ⟨filled, here⟩ := not_or.mp other
      obtain ⟨k, inKeys, same⟩ := (keyed _).mp ⟨b, member, filled, not_not.mp here⟩
      exact empty k inKeys same
    · intro stale
      apply below
      by_cases shared : ∃ k ∈ keys, hashMod hash keys.length k 0 = hashMod hash keys.length key 0
      · exact .inr shared
      · exact .inl (stale fun k member same => shared ⟨k, member, same⟩)

/-- Builds of growing lists leave no entry that could be out of range. -/
theorem staleBelow_of_grows {mph : MinimalPerfectHash} {k : Nat} (below : SaltsBelow k mph.mSalts)
    {keys : List (BitVec w)} (grows : k ≤ keys.length) : StaleBelow hash mph keys := by
  intro key _ negative
  rw [List.getD_eq_getElem?_getD] at negative ⊢
  cases entry : mph.mSalts[hashMod hash keys.length key 0]? with
  | none => simp [entry] at negative
  | some salt =>
    rw [entry, Option.getD_some] at negative
    have := below salt (List.mem_of_getElem? entry) negative
    rw [Option.getD_some]
    omega

end

/-! `mph_map_static` that is filled again, as `MachORegions::reset` does it. -/

namespace MphMapStatic
variable {w : Nat} {V : Type} (hash : Hasher)

/-- `build` on an object that was built before. -/
def rebuild (sortBuckets : List (Bucket w) → List (Bucket w)) (null : V) (m : MphMapStatic w V)
    (keyVals : List (BitVec w × V)) : Except BuildFailure (MphMapStatic w V) := do
  let mMph ← MinimalPerfectHash.build hash sortBuckets m.mMph (keyVals.map Prod.fst)
  let mValues := keyVals.foldl (fun values kv => values.set (mMph.apply hash kv.1) kv.2)
    (m.mValues.take keyVals.length ++ .replicate (keyVals.length - m.mValues.length) null)
  return { mMph, mValues }

/-- `operator[]`; `none` stands for a read outside the table. -/
def subscript (m : MphMapStatic w V) (key : BitVec w) : Option V := m.mValues[m.mMph.apply hash key]?

def empty : MphMapStatic w V := { mMph := { mSalts := [], mNkeys := 0 }, mValues := [] }

def rebuilds (sortBuckets : List (Bucket w) → List (Bucket w)) (null : V)
    (fills : List (List (BitVec w × V))) : Except BuildFailure (MphMapStatic w V) :=
  fills.foldlM (rebuild hash sortBuckets null) empty

variable {hash} {sortBuckets : List (Bucket w) → List (Bucket w)} {null : V}

theorem build_eq_rebuild (keyVals : List (BitVec w × V)) :
    build hash sortBuckets null keyVals = rebuild hash sortBuckets null empty keyVals := by
  rw [build, rebuild, empty, List.take_nil, List.nil_append]
  rfl

theorem length_foldl_values (slots : BitVec w × V → Nat) (keyVals : List (BitVec w × V))
    (values : List V) :
    (keyVals.foldl (fun values kv => values.set (slots kv) kv.2) values).length =
      values.length := by
  induction keyVals generalizing values with
  | nil => rfl
  | cons kv keyVals ih => exact (ih _).trans List.length_set

theorem rebuild_ok {m m' : MphMapStatic w V} {keyVals : List (BitVec w × V)}
    (done : rebuild hash sortBuckets null m keyVals = .ok m') :
    MinimalPerfectHash.build hash sortBuckets m.mMph (keyVals.map Prod.fst) = .ok m'.mMph ∧
      m'.mValues = keyVals.foldl (fun values kv => values.set (m'.mMph.apply hash kv.1) kv.2)
        (m.mValues.take keyVals.length ++ .replicate (keyVals.length - m.mValues.length) null) := by
  rw [rebuild] at done
  cases built : MinimalPerfectHash.build hash sortBuckets m.mMph (keyVals.map Prod.fst) with
  | error e =>
    rw [built] at done
    cases done
  | ok mMph =>
    rw [built] at done
    cases done
    exact ⟨rfl, rfl⟩

theorem length_of_rebuild {m m' : MphMapStatic w V} {keyVals : List (BitVec w × V)}
    (done : rebuild hash sortBuckets null m keyVals = .ok m') :
    m'.mValues.length = keyVals.length := by
  rw [(rebuild_ok done).2, length_foldl_values (fun kv => m'.mMph.apply hash kv.1),
    List.length_append, List.length_take, List.length_replicate]
  omega

theorem rebuild_in_range_iff (sorts : SortsBySize sortBuckets) {m m' : MphMapStatic w V}
    {keyVals : List (BitVec w × V)} (done : rebuild hash sortBuckets null m keyVals = .ok m') :
    (∀ key, m'.mMph.apply hash key < keyVals.length ∧ (m'.subscript hash key).isSome) ↔
      StaleBelow hash m.mMph (keyVals.map Prod.fst) := by
  have size := length_of_rebuild done
  rw [← build_in_range_iff sorts (rebuild_ok done).1, List.length_map]
  refine forall_congr' fun key => ⟨And.left, fun bound => ⟨bound, ?_⟩⟩
  rw [subscript, List.getElem?_eq_getElem (size ▸ bound)]
  rfl

theorem getElem?_foldl_other {slots : BitVec w × V → Nat} {i : Nat}
    {keyVals : List (BitVec w × V)} (other : ∀ kv ∈ keyVals, slots kv ≠ i) (values : List V) :
    (keyVals.foldl (fun values kv => values.set (slots kv) kv.2) values)[i]? = values[i]? := by
  induction keyVals generalizing values with
  | nil => rfl
  | cons kv keyVals ih =>
    rw [List.foldl_cons, ih fun e h => other e (List.mem_cons_of_mem _ h),
      List.getElem?_set_ne (other kv List.mem_cons_self)]

theorem getElem?_foldl_values {slots : BitVec w × V → Nat} {keyVals : List (BitVec w × V)}
    (nodup : (keyVals.map slots).Nodup) {values : List V}
    (inside : ∀ kv ∈ keyVals, slots kv < values.length) {kv : BitVec w × V} (member : kv ∈ keyVals) :
    (keyVals.foldl (fun values kv => values.set (slots kv) kv.2) values)[slots kv]? =
      some kv.2 := by
  induction keyVals generalizing values with
  | nil => exact absurd member List.not_mem_nil
  | cons first keyVals ih =>
    rw [List.map_cons, List.nodup_cons] at nodup
    rw [List.foldl_cons]
    rcases List.mem_cons.mp member with rfl | later
    · rw [getElem?_foldl_other fun e h same => nodup.1 (List.mem_map.mpr ⟨e, h, same⟩)]
      exact List.getElem?_set_self (inside kv List.mem_cons_self)
    · refine ih nodup.2 (fun e h => ?_) later
      rw [List.length_set]
      exact inside e (List.mem_cons_of_mem _ h)

/-- Each key finds its value. -/
theorem subscript_of_rebuild (sorts : SortsBySize sortBuckets) {m m' : MphMapStatic w V}
    {keyVals : List (BitVec w × V)} (few : keyVals.length < 2 ^ 31)
    (done : rebuild hash sortBuckets null m keyVals = .ok m') {kv : BitVec w × V}
    (member : kv ∈ keyVals) : m'.subscript hash kv.1 = some kv.2 := by
  have perfect := perm_range_of_build sorts (by rwa [List.length_map]) (rebuild_ok done).1
  rw [List.map_map, List.length_map] at perfect
  rw [subscript, (rebuild_ok done).2]
  refine getElem?_foldl_values (perfect.nodup_iff.mpr List.nodup_range) (fun e h => ?_) member
  have slot : m'.mMph.apply hash e.1 < keyVals.length :=
    List.mem_range.mp (perfect.mem_iff.mp (List.mem_map_of_mem h))
  change m'.mMph.apply hash e.1 < _
  rw [List.length_append, List.length_take, List.length_replicate]
  omega

end MphMapStatic

/-- After any sequence of builds every value is looked up inside the table exactly if the
last build met no stale entry that names a slot behind its keys. -/
theorem rebuilds_in_range_iff {w : Nat} {V : Type} (hash : Hasher)
    {sortBuckets : List (Bucket w) → List (Bucket w)} (sorts : SortsBySize sortBuckets) (null : V)
    (earlier : List (List (BitVec w × V))) (keyVals : List (BitVec w × V)) {m : MphMapStatic w V}
    (ran : MphMapStatic.rebuilds hash sortBuckets null (earlier ++ [keyVals]) = .ok m) :
    (∀ key, m.mMph.apply hash key < keyVals.length ∧ (m.subscript hash key).isSome) ↔
    ∀ before, MphMapStatic.rebuilds hash sortBuckets null earlier = .ok before →
      StaleBelow hash before.mMph (keyVals.map Prod.fst) := by
  rw [MphMapStatic.rebuilds, List.foldlM_append] at ran
  cases first : MphMapStatic.rebuilds hash sortBuckets null earlier with
  | error e =>
    rw [MphMapStatic.rebuilds] at first
    rw [first] at ran
    cases ran
  | ok before =>
    rw [MphMapStatic.rebuilds] at first
    rw [first] at ran
    simp only [List.foldlM_cons, List.foldlM_nil, bind_pure] at ran
    have last : MphMapStatic.rebuild hash sortBuckets null before keyVals = .ok m := ran
    rw [MphMapStatic.rebuild_in_range_iff sorts last]
    exact ⟨fun stale before' same => Except.ok.inj same ▸ stale, fun stale => stale before rfl⟩

/-- Pages of an image, entered as keys. -/
def pageFill (first : Uint64) (n : Nat) : List (Uint64 × Unit) :=
  (List.range n).map fun i => (first + BitVec.ofNat 64 i, ())

theorem rebuilds_in_range_grown : ∃ m, MphMapStatic.rebuilds (jevhash32 0x85EBCA77) stableSort ()
      ([pageFill 0x10001e 3] ++ [pageFill 0x100014 5]) = .ok m ∧
    ((∀ key, m.mMph.apply (jevhash32 0x85EBCA77) key < (pageFill 0x100014 5).length ∧
      (m.subscript (jevhash32 0x85EBCA77) key).isSome) ↔
    ∀ before, MphMapStatic.rebuilds (jevhash32 0x85EBCA77) stableSort () [pageFill 0x10001e 3] =
      .ok before →
      StaleBelow (jevhash32 0x85EBCA77) before.mMph ((pageFill 0x100014 5).map Prod.fst)) :=
  ⟨_, rfl, rebuilds_in_range_iff (jevhash32 0x85EBCA77) sortsBySize_stableSort ()
    [pageFill 0x10001e 3] (pageFill 0x100014 5) rfl⟩

/-- Five pages, then three others: a page that is no key is looked up behind the table. -/
theorem rebuilds_out_of_range : ∃ m, MphMapStatic.rebuilds (jevhash32 0x85EBCA77) stableSort ()
      [pageFill 0x100014 5, pageFill 0x10001e 3] = .ok m ∧
    m.mMph.apply (jevhash32 0x85EBCA77) (0x100001 : Uint64) = 3 ∧
    m.subscript (jevhash32 0x85EBCA77) 0x100001 = none :=
  ⟨_, rfl, rfl, rfl⟩

end XnuTrace
