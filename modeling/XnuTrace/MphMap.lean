import XnuTrace.MinimalPerfectHash
import XnuTrace.Permute
import Mathlib.Logic.Function.Basic

/-! `mph_map`: pairs at the positions that a perfect hash of the keys assigns to them.
The abstract map is a partial function; the two agree over every run in which the
permutations of the rebuilds undo themselves. -/
namespace XnuTrace

structure MphMap (w : Nat) (V : Type) where
  mMph : MinimalPerfectHash := { mSalts := [], mNkeys := 0 }
  mKeyVals : List (BitVec w × V) := []
deriving DecidableEq

/-- A failed `build`, or an index out of range (also for a loop that runs forever). -/
inductive MapFailure where
  | build (e : BuildFailure)
  | outOfRange
deriving DecidableEq

namespace MphMap
variable {w : Nat} {V : Type} (hash : Hasher)

def keys (m : MphMap w V) : List (BitVec w) := m.mKeyVals.map Prod.fst

def contains (m : MphMap w V) (key : BitVec w) : Except MapFailure Bool :=
  if m.mKeyVals.length = 0 then .ok false
  else match m.mKeyVals[m.mMph.apply hash key]? with
    | none => .error .outOfRange
    | some kv => .ok (kv.1 == key)

section
variable (sortBuckets : List (Bucket w) → List (Bucket w)) (moved : V → V)

def rebuild (m : MphMap w V) : Except MapFailure (MphMap w V) :=
  match m.mMph.build hash sortBuckets m.keys with
  | .error e => .error (.build e)
  | .ok mMph =>
    let newIdx := m.mKeyVals.map fun kv => mMph.apply hash kv.1
    match permute (fun kv => (kv.1, moved kv.2)) m.mKeyVals newIdx with
    | none => .error .outOfRange
    | some mKeyVals => .ok { mMph, mKeyVals }

/-- `operator[]`; the reference is the position of its pair, `init` is `ValueT{}`. -/
def subscript (init : V) (m : MphMap w V) (key : BitVec w) : Except MapFailure (MphMap w V × Nat) :=
  if m.mKeyVals.length = 0 then
    match m.mMph.build hash sortBuckets [key] with
    | .error e => .error (.build e)
    | .ok mMph => .ok ({ mMph, mKeyVals := [(key, init)] }, 0)
  else match m.mKeyVals[m.mMph.apply hash key]? with
    | none => .error .outOfRange
    | some kv =>
      if kv.1 = key then .ok (m, m.mMph.apply hash key)
      else match rebuild hash sortBuckets moved
          { m with mKeyVals := m.mKeyVals ++ [(key, init)] } with
        | .error e => .error e
        | .ok m => .ok (m, m.mMph.apply hash key)

/-- `value` is what the arguments construct. -/
def tryEmplace (m : MphMap w V) (key : BitVec w) (value : V) :
    Except MapFailure (MphMap w V × Nat × Bool) :=
  match contains hash m key with
  | .error e => .error e
  | .ok true => .ok (m, m.mMph.apply hash key, false)
  | .ok false =>
    match rebuild hash sortBuckets moved { m with mKeyVals := m.mKeyVals ++ [(key, value)] } with
    | .error e => .error e
    | .ok m => .ok (m, m.mMph.apply hash key, true)

/-- Use of a returned reference: the value found there becomes `f` of it. -/
def access (m : MphMap w V) (i : Nat) (f : V → V) : Except MapFailure (MphMap w V × V) :=
  match m.mKeyVals[i]? with
  | none => .error .outOfRange
  | some kv => .ok ({ m with mKeyVals := m.mKeyVals.set i (kv.1, f kv.2) }, kv.2)

end

/-! Calls, on the container and on the abstract map. -/

inductive Call (w : Nat) (V : Type) where
  | subscript (key : BitVec w) (f : V → V)
  | tryEmplace (key : BitVec w) (value : V) (f : V → V)
  | contains (key : BitVec w)

inductive Outcome (V : Type) where
  | reached (value : V)
  | emplaced (value : V) (added : Bool)
  | present (found : Bool)
deriving DecidableEq

section
variable (sortBuckets : List (Bucket w) → List (Bucket w)) (moved : V → V) (init : V)

def step (m : MphMap w V) : Call w V → Except MapFailure (MphMap w V × Outcome V)
  | .subscript key f =>
    match subscript hash sortBuckets moved init m key with
    | .error e => .error e
    | .ok (m, i) => (access m i f).map fun (m, v) => (m, .reached v)
  | .tryEmplace key value f =>
    match tryEmplace hash sortBuckets moved m key value with
    | .error e => .error e
    | .ok (m, i, added) => (access m i f).map fun (m, v) => (m, .emplaced v added)
  | .contains key => (contains hash m key).map fun found => (m, .present found)

def run (m : MphMap w V) : List (Call w V) → Except MapFailure (MphMap w V × List (Outcome V))
  | [] => .ok (m, [])
  | call :: calls =>
    match step hash sortBuckets moved init m call with
    | .error e => .error e
    | .ok (m, outcome) => (run m calls).map fun (m, outcomes) => (m, outcome :: outcomes)

end

/-- The finite map that the container stands for. -/
abbrev Table (w : Nat) (V : Type) := BitVec w → Option V

namespace Table
variable (init : V)

def store (t : Table w V) (key : BitVec w) (v : V) : Table w V := Function.update t key (some v)

def step (t : Table w V) : Call w V → Table w V × Outcome V
  | .subscript key f => let v := (t key).getD init; (t.store key (f v), .reached v)
  | .tryEmplace key value f =>
    let v := (t key).getD value
    (t.store key (f v), .emplaced v (t key).isNone)
  | .contains key => (t, .present (t key).isSome)

def run (t : Table w V) : List (Call w V) → Table w V × List (Outcome V)
  | [] => (t, [])
  | call :: calls =>
    let (t, outcome) := step init t call
    let (t, outcomes) := run t calls
    (t, outcome :: outcomes)

end Table

/-! One call. -/

section
variable {hash : Hasher} {sortBuckets : List (Bucket w) → List (Bucket w)} {moved : V → V}
  {init : V} {m : MphMap w V} {t : Table w V}

/-- Each pair lies where its key is looked up, and the pairs are those of the table. -/
structure Represents (hash : Hasher) (m : MphMap w V) (t : Table w V) : Prop where
  content : ∀ key v, (key, v) ∈ m.mKeyVals ↔ t key = some v
  lookup : ∀ (j : Nat) kv, m.mKeyVals[j]? = some kv → m.mMph.apply hash kv.1 = j
  size : m.mKeyVals ≠ [] → m.mMph.mNkeys = m.mKeyVals.length
  salts : SaltsBelow m.mKeyVals.length m.mMph.mSalts

theorem represents_empty : Represents hash ({} : MphMap w V) (fun _ => none) where
  content _ _ := iff_of_false List.not_mem_nil (by simp)
  lookup _ _ found := by cases found
  size nonempty := absurd rfl nonempty
  salts _ member := absurd member List.not_mem_nil

/-- Iteration meets no key twice. -/
theorem Represents.nodup_keys (rep : Represents hash m t) : m.keys.Nodup := by
  refine List.nodup_iff_injective_getElem.mpr fun a b same => Fin.ext ?_
  have inA : a.val < m.mKeyVals.length := by simpa [keys] using a.isLt
  have inB : b.val < m.mKeyVals.length := by simpa [keys] using b.isLt
  have first := rep.lookup a _ (List.getElem?_eq_getElem inA)
  have second := rep.lookup b _ (List.getElem?_eq_getElem inB)
  simp only [keys, List.getElem_map] at same
  rw [← first, ← second, same]

theorem Represents.mem_keys (rep : Represents hash m t) (key : BitVec w) :
    key ∈ m.keys ↔ (t key).isSome := by
  rw [keys, List.mem_map, Option.isSome_iff_exists]
  constructor
  · rintro ⟨⟨_, v⟩, member, rfl⟩
    exact ⟨v, (rep.content _ v).mp member⟩
  · rintro ⟨v, stored⟩
    exact ⟨(key, v), (rep.content key v).mpr stored, rfl⟩

theorem Represents.found (rep : Represents hash m t) {key : BitVec w} {v : V}
    (stored : t key = some v) : m.mKeyVals[m.mMph.apply hash key]? = some (key, v) := by
  obtain ⟨j, found⟩ := List.mem_iff_getElem?.mp ((rep.content key v).mpr stored)
  rwa [rep.lookup j _ found]

/-- A lookup of any key, inserted or not, stays inside the table. -/
theorem Represents.inRange (rep : Represents hash m t) (nonempty : m.mKeyVals ≠ [])
    (key : BitVec w) : ∃ kv, m.mKeyVals[m.mMph.apply hash key]? = some kv := by
  have bound : m.mMph.apply hash key < m.mKeyVals.length := by
    rw [MinimalPerfectHash.apply, rep.size nonempty]
    exact slotOf_lt (List.length_pos_of_ne_nil nonempty) rep.salts key
  exact ⟨_, List.getElem?_eq_getElem bound⟩

theorem Represents.absent (rep : Represents hash m t) {key : BitVec w} {kv : BitVec w × V}
    (new : t key = none) (i : Nat) (found : m.mKeyVals[i]? = some kv) : kv.1 ≠ key := by
  rintro rfl
  have stored := (rep.content kv.1 kv.2).mp (List.mem_of_getElem? found)
  rw [new] at stored
  cases stored

theorem contains_eq (rep : Represents hash m t) (key : BitVec w) :
    contains hash m key = .ok (t key).isSome := by
  unfold contains
  split
  · rename_i empty
    have nothing := rep.mem_keys key
    rw [keys, List.eq_nil_of_length_eq_zero empty] at nothing
    cases stored : t key with
    | none => rfl
    | some v => simp [stored] at nothing
  · rename_i some
    have nonempty : m.mKeyVals ≠ [] := List.ne_nil_of_length_pos (Nat.pos_of_ne_zero some)
    cases stored : t key with
    | some v => simp [rep.found stored]
    | none =>
      obtain ⟨kv, found⟩ := rep.inRange nonempty key
      simp [found, rep.absent stored _ found]

/-- Storing at the position of a key that is present. -/
theorem Represents.set (rep : Represents hash m t) {key : BitVec w} {v : V}
    (stored : t key = some v) (v' : V) : Represents hash
      { m with mKeyVals := m.mKeyVals.set (m.mMph.apply hash key) (key, v') } (t.store key v') := by
  have found := rep.found stored
  obtain ⟨bound, _⟩ := List.getElem?_eq_some_iff.mp found
  refine ⟨?_, ?_, ?_, ?_⟩
  · intro key' v''
    rw [List.mem_iff_getElem?, Table.store]
    by_cases same : key' = key
    · subst same
      rw [Function.update_self, Option.some.injEq]
      constructor
      · rintro ⟨j, entry⟩
        by_cases here : m.mMph.apply hash key' = j
        · subst here
          rw [List.getElem?_set_self bound] at entry
          cases entry
          rfl
        · rw [List.getElem?_set_ne here] at entry
          exact absurd (rep.lookup j _ entry) here
      · rintro rfl
        exact ⟨_, List.getElem?_set_self bound⟩
    · rw [Function.update_of_ne same, ← rep.content, List.mem_iff_getElem?]
      refine exists_congr fun j => ?_
      by_cases here : m.mMph.apply hash key = j
      · subst here
        rw [List.getElem?_set_self bound, found]
        simp [Ne.symm same]
      · rw [List.getElem?_set_ne here]
  · intro j kv entry
    by_cases here : m.mMph.apply hash key = j
    · subst here
      rw [List.getElem?_set_self bound] at entry
      cases entry
      rfl
    · rw [List.getElem?_set_ne here] at entry
      exact rep.lookup j kv entry
  · intro _
    rw [List.length_set]
    exact rep.size (List.ne_nil_of_mem (List.mem_of_getElem? found))
  · rw [List.length_set]
    exact rep.salts

/-- The use of a reference to the pair of `key`. -/
theorem access_spec (rep : Represents hash m t) {key : BitVec w} {v : V}
    (stored : t key = some v) (f : V → V) :
    ∃ m', access m (m.mMph.apply hash key) f = .ok (m', v) ∧ m'.mMph = m.mMph ∧
      Represents hash m' (t.store key (f v)) := by
  refine ⟨{ m with mKeyVals := m.mKeyVals.set (m.mMph.apply hash key) (key, f v) }, ?_, rfl,
    rep.set stored (f v)⟩
  rw [access, rep.found stored]

/-- `build` returned a one-to-one function onto `0 .. n - 1`. -/
def OneToOne (hash : Hasher) (built : MinimalPerfectHash) (keys : List (BitVec w)) : Prop :=
  (keys.map (built.apply hash)).Perm (List.range keys.length)

/-- Sending the keys to their new positions twice brings each back. -/
def Involutive (hash : Hasher) (built : MinimalPerfectHash) (keys : List (BitVec w)) : Prop :=
  ∀ j i : Nat, (keys.map (built.apply hash))[j]? = some i →
    (keys.map (built.apply hash))[i]? = some j

variable (moved) in
/-- What `permute` makes of the pairs, whichever way round the permutation is. -/
theorem rebuild_pairs {built : MinimalPerfectHash}
    (done : m.mMph.build hash sortBuckets m.keys = .ok built) (oneToOne : OneToOne hash built m.keys) :
    ∃ mKeyVals, rebuild hash sortBuckets moved m = .ok { mMph := built, mKeyVals } ∧
      mKeyVals.length = m.mKeyVals.length ∧
      ∀ j i : Nat, (m.keys.map (built.apply hash))[j]? = some i →
        mKeyVals[j]? = m.mKeyVals[i]? := by
  have newIdx : m.mKeyVals.map (fun kv => built.apply hash kv.1) =
      m.keys.map (built.apply hash) := by
    rw [keys, List.map_map]
    rfl
  have perm : (m.keys.map (built.apply hash)).Perm (List.range m.mKeyVals.length) := by
    have := oneToOne
    rwa [OneToOne, keys, List.length_map] at this
  obtain ⟨mKeyVals, permuted, length, moves⟩ :=
    permute_spec (fun kv : BitVec w × V => (kv.1, moved kv.2)) perm
  refine ⟨mKeyVals, ?_, length, moves⟩
  rw [rebuild, done]
  simp only [newIdx, permuted]

theorem apply_at {built : MinimalPerfectHash} {i : Nat} {kv : BitVec w × V}
    (found : m.mKeyVals[i]? = some kv) :
    (m.keys.map (built.apply hash))[i]? = some (built.apply hash kv.1) := by
  simp [keys, found]

variable (moved) in
theorem rebuild_spec {built : MinimalPerfectHash} {k : Nat}
    (done : m.mMph.build hash sortBuckets m.keys = .ok built) (oneToOne : OneToOne hash built m.keys)
    (involutive : Involutive hash built m.keys)
    (content : ∀ key v, (key, v) ∈ m.mKeyVals ↔ t key = some v)
    (salts : SaltsBelow k m.mMph.mSalts) (grows : k ≤ m.mKeyVals.length) :
    ∃ m', rebuild hash sortBuckets moved m = .ok m' ∧ Represents hash m' t := by
  obtain ⟨mKeyVals, rebuilt, length, moves⟩ := rebuild_pairs moved done oneToOne
  obtain ⟨_, size, below⟩ := MinimalPerfectHash.build_ok done
  have keysLength : m.keys.length = mKeyVals.length := by rw [length, keys, List.length_map]
  refine ⟨_, rebuilt, ?_, ?_, ?_, ?_⟩
  · intro key v
    rw [← content, List.mem_iff_getElem?, List.mem_iff_getElem?]
    constructor
    · rintro ⟨j, found⟩
      obtain ⟨bound, _⟩ := List.getElem?_eq_some_iff.mp found
      have index := List.getElem?_eq_getElem (l := m.keys.map (built.apply hash)) (i := j)
        (by rwa [List.length_map, keysLength])
      exact ⟨_, (moves j _ index).symm.trans found⟩
    · rintro ⟨i, found⟩
      have back := involutive _ _ (apply_at found)
      exact ⟨_, (moves _ _ back).trans found⟩
  · intro j kv found
    obtain ⟨bound, _⟩ := List.getElem?_eq_some_iff.mp found
    have index := List.getElem?_eq_getElem (l := m.keys.map (built.apply hash)) (i := j)
      (by rwa [List.length_map, keysLength])
    have origin := (moves j _ index).symm.trans found
    have back := involutive _ _ index
    rw [apply_at origin] at back
    exact Option.some.inj back
  · intro _
    rw [size, keysLength]
  · rw [← keysLength]
    exact below k (by rwa [keysLength, length]) salts

/-- The build that an insertion of `key` makes is `good`, if it returns. -/
def Builds (hash : Hasher) (sortBuckets : List (Bucket w) → List (Bucket w))
    (good : MinimalPerfectHash → List (BitVec w) → Prop) (m : MphMap w V) (key : BitVec w) : Prop :=
  key ∉ m.keys → ∀ built, m.mMph.build hash sortBuckets (m.keys ++ [key]) = .ok built →
    good built (m.keys ++ [key])

/-- One-to-one, and each pair goes where the pair now lying there came from. -/
def Swaps (hash : Hasher) (built : MinimalPerfectHash) (keys : List (BitVec w)) : Prop :=
  OneToOne hash built keys ∧ Involutive hash built keys

/-- The build for a new key does not return. -/
def Refuses (hash : Hasher) (sortBuckets : List (Bucket w) → List (Bucket w)) (m : MphMap w V)
    (key : BitVec w) (e : BuildFailure) : Prop :=
  key ∉ m.keys ∧ m.mMph.build hash sortBuckets (m.keys ++ [key]) = .error e

theorem Represents.fresh (rep : Represents hash m t) {key : BitVec w} (new : t key = none) :
    key ∉ m.keys ∧ (m.keys ++ [key]).Nodup := by
  have absent : key ∉ m.keys := by simp [rep.mem_keys, new]
  exact ⟨absent, List.nodup_append.mpr ⟨rep.nodup_keys, List.nodup_singleton key,
    fun a ha b hb same => absent (List.mem_singleton.mp hb ▸ same ▸ ha)⟩⟩

theorem Represents.unique (rep : Represents hash m t) {key : BitVec w} {e : BuildFailure}
    (refuses : Refuses hash sortBuckets m key e) : e ≠ .notUnique := by
  obtain ⟨absent, failed⟩ := refuses
  have new : t key = none := by simpa [rep.mem_keys] using absent
  rintro rfl
  exact MinimalPerfectHash.build_unique (rep.fresh new).2 failed

theorem content_insert (rep : Represents hash m t) {key : BitVec w} (new : t key = none)
    (value : V) (key' : BitVec w) (v : V) :
    (key', v) ∈ m.mKeyVals ++ [(key, value)] ↔ t.store key value key' = some v := by
  rw [List.mem_append, List.mem_singleton, rep.content, Table.store]
  by_cases same : key' = key
  · subst same
    simp [new, eq_comm]
  · simp [same]

variable (moved) in
theorem insert_spec (rep : Represents hash m t) {key : BitVec w} (new : t key = none) (value : V)
    (well : Builds hash sortBuckets (Swaps hash) m key) :
    (∃ m', rebuild hash sortBuckets moved { m with mKeyVals := m.mKeyVals ++ [(key, value)] } =
      .ok m' ∧ Represents hash m' (t.store key value)) ∨
    ∃ e, rebuild hash sortBuckets moved { m with mKeyVals := m.mKeyVals ++ [(key, value)] } =
      .error (.build e) ∧ Refuses hash sortBuckets m key e := by
  have absent := (rep.fresh new).1
  let grown : MphMap w V := { m with mKeyVals := m.mKeyVals ++ [(key, value)] }
  have keysGrown : grown.keys = m.keys ++ [key] := by simp [grown, keys]
  cases done : m.mMph.build hash sortBuckets (m.keys ++ [key]) with
  | error e =>
    refine .inr ⟨e, ?_, absent, done⟩
    change rebuild hash sortBuckets moved grown = _
    rw [rebuild, keysGrown, done]
  | ok built =>
    obtain ⟨oneToOne, involutive⟩ := well absent built done
    rw [← keysGrown] at done oneToOne involutive
    exact .inl (rebuild_spec moved (m := grown) done oneToOne involutive
      (content_insert rep new value) rep.salts (by simp [grown]))

theorem store_of_stored {key : BitVec w} {v : V} (stored : t key = some v) : t.store key v = t :=
  Function.update_eq_self_iff.mpr stored.symm

variable (init) in
/-- The first pair of a map. -/
theorem first_spec (rep : Represents hash m t) (noPairs : m.mKeyVals = []) {key : BitVec w}
    (well : Builds hash sortBuckets (Swaps hash) m key) :
    (∃ built, m.mMph.build hash sortBuckets [key] = .ok built ∧ built.apply hash key = 0 ∧
      Represents hash { mMph := built, mKeyVals := [(key, init)] }
        (t.store key ((t key).getD init))) ∨
    ∃ e, m.mMph.build hash sortBuckets [key] = .error e ∧ Refuses hash sortBuckets m key e := by
  have noKeys : m.keys = [] := by rw [keys, noPairs, List.map_nil]
  have new : t key = none := by
    have := rep.mem_keys key
    rw [noKeys] at this
    simpa using this
  have absent := (rep.fresh new).1
  cases done : m.mMph.build hash sortBuckets [key] with
  | error e => exact .inr ⟨e, rfl, absent, by rwa [noKeys]⟩
  | ok built =>
    have whole := well absent built (by rwa [noKeys])
    rw [noKeys] at whole
    have slot : built.apply hash key = 0 := by simpa [OneToOne] using whole.1
    obtain ⟨_, size, below⟩ := MinimalPerfectHash.build_ok done
    refine .inl ⟨built, rfl, slot, ?_, ?_, ?_, ?_⟩
    · intro key' v
      have content := content_insert rep new init key' v
      rw [noPairs] at content
      rwa [new, Option.getD_none]
    · intro j kv found
      obtain ⟨bound, rfl⟩ := List.getElem?_eq_some_iff.mp found
      have : j = 0 := by simpa using bound
      subst this
      exact slot
    · exact fun _ => size
    · refine below 0 (by simp) ?_
      have := rep.salts
      rwa [noPairs] at this

variable (moved init) in
theorem subscript_spec (rep : Represents hash m t) {key : BitVec w}
    (well : Builds hash sortBuckets (Swaps hash) m key) :
    (∃ m', subscript hash sortBuckets moved init m key = .ok (m', m'.mMph.apply hash key) ∧
      Represents hash m' (t.store key ((t key).getD init))) ∨
    ∃ e, subscript hash sortBuckets moved init m key = .error (.build e) ∧
      Refuses hash sortBuckets m key e := by
  unfold subscript
  split
  · rename_i empty
    have noPairs := List.eq_nil_of_length_eq_zero empty
    rcases first_spec init rep noPairs well with ⟨built, done, slot, rep'⟩ | ⟨e, failed, refuses⟩
    · exact .inl ⟨_, by rw [done, slot], rep'⟩
    · exact .inr ⟨e, by rw [failed], refuses⟩
  · rename_i some
    have nonempty : m.mKeyVals ≠ [] := List.ne_nil_of_length_pos (Nat.pos_of_ne_zero some)
    cases stored : t key with
    | some v =>
      simp only [rep.found stored, if_true]
      rw [Option.getD_some, store_of_stored stored]
      exact .inl ⟨m, rfl, rep⟩
    | none =>
      obtain ⟨kv, found⟩ := rep.inRange nonempty key
      simp only [found, if_neg (rep.absent stored _ found), Option.getD_none]
      rcases insert_spec moved rep stored init well with ⟨m', rebuilt, rep'⟩ | ⟨e, failed, refuses⟩
      · exact .inl ⟨m', by rw [rebuilt], rep'⟩
      · exact .inr ⟨e, by rw [failed], refuses⟩

variable (moved) in
theorem tryEmplace_spec (rep : Represents hash m t) {key : BitVec w} (value : V)
    (well : Builds hash sortBuckets (Swaps hash) m key) :
    (∃ m', tryEmplace hash sortBuckets moved m key value =
        .ok (m', m'.mMph.apply hash key, (t key).isNone) ∧
      Represents hash m' (t.store key ((t key).getD value))) ∨
    ∃ e, tryEmplace hash sortBuckets moved m key value = .error (.build e) ∧
      Refuses hash sortBuckets m key e := by
  rw [tryEmplace, contains_eq rep]
  cases stored : t key with
  | some v =>
    rw [Option.getD_some, store_of_stored stored]
    exact .inl ⟨m, rfl, rep⟩
  | none =>
    rw [Option.getD_none]
    rcases insert_spec moved rep stored value well with ⟨m', rebuilt, rep'⟩ | ⟨e, failed, refuses⟩
    · exact .inl ⟨m', by simp [rebuilt], rep'⟩
    · exact .inr ⟨e, by simp [failed], refuses⟩

/-- The key that the call inserts if it is not there yet. -/
def Call.inserts : Call w V → Option (BitVec w)
  | .subscript key _ => some key
  | .tryEmplace key _ _ => some key
  | .contains _ => none

variable (moved init) in
theorem step_spec (rep : Represents hash m t) {call : Call w V}
    (well : ∀ key, call.inserts = some key → Builds hash sortBuckets (Swaps hash) m key) :
    (∃ m', step hash sortBuckets moved init m call = .ok (m', (Table.step init t call).2) ∧
      Represents hash m' (Table.step init t call).1) ∨
    ∃ e, step hash sortBuckets moved init m call = .error (.build e) ∧
      ∃ key, Refuses hash sortBuckets m key e := by
  cases call with
  | subscript key f =>
    rcases subscript_spec moved init rep (well key rfl) with
      ⟨m₁, reached, rep₁⟩ | ⟨e, failed, refuses⟩
    · obtain ⟨m', used, _, rep'⟩ := access_spec rep₁ (Function.update_self ..) f
      refine .inl ⟨m', ?_, ?_⟩
      · simp only [step, reached, used, Except.map]
        rfl
      · have twice : (t.store key ((t key).getD init)).store key (f ((t key).getD init)) =
            t.store key (f ((t key).getD init)) := Function.update_idem ..
        rwa [twice] at rep'
    · exact .inr ⟨e, by simp only [step, failed], key, refuses⟩
  | tryEmplace key value f =>
    rcases tryEmplace_spec moved rep value (well key rfl) with
      ⟨m₁, reached, rep₁⟩ | ⟨e, failed, refuses⟩
    · obtain ⟨m', used, _, rep'⟩ := access_spec rep₁ (Function.update_self ..) f
      refine .inl ⟨m', ?_, ?_⟩
      · simp only [step, reached, used, Except.map]
        rfl
      · have twice : (t.store key ((t key).getD value)).store key (f ((t key).getD value)) =
            t.store key (f ((t key).getD value)) := Function.update_idem ..
        rwa [twice] at rep'
    · exact .inr ⟨e, by simp only [step, failed], key, refuses⟩
  | contains key =>
    refine .inl ⟨m, ?_, rep⟩
    simp only [step, contains_eq rep, Except.map]
    rfl

/-! A property of the values that moves keep, whatever the hash does. -/

/-- Every value has the property. -/
def ForallValues (p : V → Prop) (m : MphMap w V) : Prop := ∀ kv ∈ m.mKeyVals, p kv.2

theorem ForallValues.concat {p : V → Prop} (all : ForallValues p m) {key : BitVec w} {v : V}
    (new : p v) : ForallValues p { m with mKeyVals := m.mKeyVals ++ [(key, v)] } := by
  intro kv member
  rcases List.mem_append.mp member with old | last
  · exact all kv old
  · rw [List.mem_singleton.mp last]
    exact new

theorem ForallValues.rebuild {p : V → Prop} (left : ∀ v, p v → p (moved v))
    (all : ForallValues p m) {m' : MphMap w V} (rebuilt : rebuild hash sortBuckets moved m = .ok m') :
    ForallValues p m' := by
  rw [MphMap.rebuild] at rebuilt
  split at rebuilt
  · cases rebuilt
  dsimp only at rebuilt
  split at rebuilt
  · cases rebuilt
  rename_i permuted
  cases rebuilt
  have kept : ∀ kv : BitVec w × V, p kv.2 → p (kv.1, moved kv.2).2 := fun kv => left kv.2
  exact permute_forall kept all permuted

theorem ForallValues.subscript {p : V → Prop} (left : ∀ v, p v → p (moved v))
    (all : ForallValues p m) (new : p init) {key : BitVec w} {m' : MphMap w V} {i : Nat}
    (reached : subscript hash sortBuckets moved init m key = .ok (m', i)) : ForallValues p m' := by
  rw [MphMap.subscript] at reached
  split at reached
  · split at reached
    · cases reached
    cases reached
    intro kv member
    rw [List.mem_singleton.mp member]
    exact new
  split at reached
  · cases reached
  split at reached
  · cases reached
    exact all
  split at reached
  · cases reached
  rename_i rebuilt
  cases reached
  exact (all.concat new).rebuild left rebuilt

theorem ForallValues.tryEmplace {p : V → Prop} (left : ∀ v, p v → p (moved v))
    (all : ForallValues p m) {key : BitVec w} {value : V} (new : p value) {m' : MphMap w V} {i : Nat}
    {added : Bool} (emplaced : tryEmplace hash sortBuckets moved m key value = .ok (m', i, added)) :
    ForallValues p m' := by
  rw [MphMap.tryEmplace] at emplaced
  split at emplaced
  · cases emplaced
  · cases emplaced
    exact all
  split at emplaced
  · cases emplaced
  rename_i rebuilt
  cases emplaced
  exact (all.concat new).rebuild left rebuilt

theorem ForallValues.access {p : V → Prop} (all : ForallValues p m) {f : V → V}
    (kept : ∀ v, p v → p (f v)) {i : Nat} {v : V} {m' : MphMap w V}
    (used : access m i f = .ok (m', v)) : ForallValues p m' := by
  rw [MphMap.access] at used
  split at used
  · cases used
  rename_i kv found
  cases used
  have changed : p (kv.1, f kv.2).2 := kept kv.2 (all kv (List.mem_of_getElem? found))
  exact forall_mem_set (p := fun kv : BitVec w × V => p kv.2) all changed

/-! Runs. -/

/-- All builds of the run that return are `good`. -/
def AllBuilds (hash : Hasher) (sortBuckets : List (Bucket w) → List (Bucket w)) (moved : V → V)
    (init : V) (good : MinimalPerfectHash → List (BitVec w) → Prop) (m : MphMap w V) :
    List (Call w V) → Prop
  | [] => True
  | call :: calls => (∀ key, call.inserts = some key → Builds hash sortBuckets good m key) ∧
    ∀ m' outcome, step hash sortBuckets moved init m call = .ok (m', outcome) →
      AllBuilds hash sortBuckets moved init good m' calls

theorem run_spec (rep : Represents hash m t) {calls : List (Call w V)}
    (well : AllBuilds hash sortBuckets moved init (Swaps hash) m calls) :
    (∃ m', run hash sortBuckets moved init m calls = .ok (m', (Table.run init t calls).2) ∧
      Represents hash m' (Table.run init t calls).1) ∨
    ∃ e, run hash sortBuckets moved init m calls = .error (.build e) ∧ e ≠ .notUnique := by
  induction calls generalizing m t with
  | nil => exact .inl ⟨m, rfl, rep⟩
  | cons call calls ih =>
    rcases step_spec moved init rep well.1 with
      ⟨m₁, first, rep₁⟩ | ⟨e, failed, key, refuses⟩
    · rcases ih rep₁ (well.2 _ _ first) with ⟨m', rest, rep'⟩ | ⟨e, failed, unique⟩
      · refine .inl ⟨m', ?_, rep'⟩
        simp only [run, first, rest, Except.map]
        rfl
      · refine .inr ⟨e, ?_, unique⟩
        simp only [run, first, failed, Except.map]
    · exact .inr ⟨e, by simp only [run, failed], rep.unique refuses⟩

/-- A rebuild keeps all its keys findable exactly if its permutation undoes itself. -/
theorem contains_rebuild_iff (moved : V → V) {built : MinimalPerfectHash} (nodup : m.keys.Nodup)
    (done : m.mMph.build hash sortBuckets m.keys = .ok built)
    (oneToOne : OneToOne hash built m.keys) :
    ∃ m', rebuild hash sortBuckets moved m = .ok m' ∧
      ((∀ key ∈ m.keys, contains hash m' key = .ok true) ↔ Involutive hash built m.keys) := by
  obtain ⟨mKeyVals, rebuilt, length, moves⟩ := rebuild_pairs moved done oneToOne
  refine ⟨_, rebuilt, ?_⟩
  have unique : ∀ (i k : Nat) kv kv', m.mKeyVals[i]? = some kv → m.mKeyVals[k]? = some kv' →
      kv.1 = kv'.1 → i = k := by
    intro i k kv kv' here there same
    have bound : i < m.keys.length := by
      rw [keys, List.length_map]
      exact (List.getElem?_eq_some_iff.mp here).1
    refine (List.getElem?_inj bound nodup).mp ?_
    simp only [keys, List.getElem?_map, here, there, Option.map_some, same]
  have nonempty : mKeyVals.length ≠ 0 := by
    rw [length, ← List.length_map Prod.fst]
    exact Nat.ne_of_gt (MinimalPerfectHash.build_ok done).1
  constructor
  · intro found j i index
    obtain ⟨inside, _⟩ := List.getElem?_eq_some_iff.mp index
    obtain ⟨kv, here⟩ : ∃ kv, m.mKeyVals[j]? = some kv :=
      ⟨_, List.getElem?_eq_getElem (by simpa [keys] using inside)⟩
    have target : built.apply hash kv.1 = i := Option.some.inj ((apply_at here).symm.trans index)
    have bound : i < m.keys.length :=
      List.mem_range.mp (oneToOne.mem_iff.mp (List.mem_of_getElem? index))
    have onward := List.getElem?_eq_getElem (l := m.keys.map (built.apply hash)) (i := i)
      (by rwa [List.length_map])
    have held := found kv.1 (List.mem_map.mpr ⟨kv, List.mem_of_getElem? here, rfl⟩)
    simp only [contains, if_neg nonempty, target, moves _ _ onward] at held
    split at held
    · cases held
    · rename_i kv' there
      rw [onward, unique _ _ _ _ there here (by simpa using held)]
  · intro involutive key hkey
    obtain ⟨kv, member, rfl⟩ := List.mem_map.mp hkey
    obtain ⟨i, here⟩ := List.mem_iff_getElem?.mp member
    have back := moves _ _ (involutive _ _ (apply_at here))
    simp [contains, nonempty, back, here]

theorem builds_of_eq {good : MinimalPerfectHash → List (BitVec w) → Prop} {key : BitVec w}
    {built : MinimalPerfectHash}
    (done : m.mMph.build hash sortBuckets (m.keys ++ [key]) = .ok built)
    (fine : good built (m.keys ++ [key])) : Builds hash sortBuckets good m key := by
  intro _ built' done'
  rw [done] at done'
  cases done'
  exact fine

theorem allBuilds_cons {good : MinimalPerfectHash → List (BitVec w) → Prop} {call : Call w V}
    {calls : List (Call w V)} {next : MphMap w V} {outcome : Outcome V}
    (now : ∀ key, call.inserts = some key → Builds hash sortBuckets good m key)
    (first : step hash sortBuckets moved init m call = .ok (next, outcome))
    (later : AllBuilds hash sortBuckets moved init good next calls) :
    AllBuilds hash sortBuckets moved init good m (call :: calls) := by
  refine ⟨now, fun m' outcome' first' => ?_⟩
  rw [first] at first'
  cases first'
  exact later

instance (built : MinimalPerfectHash) (keys : List (BitVec w)) :
    Decidable (OneToOne hash built keys) :=
  inferInstanceAs (Decidable (List.Perm _ _))

theorem involutive_iff {built : MinimalPerfectHash} {keys : List (BitVec w)} :
    Involutive hash built keys ↔ ∀ j < keys.length,
      ((keys.map (built.apply hash))[j]?.bind fun i => (keys.map (built.apply hash))[i]?) =
        some j := by
  constructor
  · intro involutive j inside
    have here := List.getElem?_eq_getElem (l := keys.map (built.apply hash)) (i := j)
      (by rwa [List.length_map])
    rw [here, Option.bind_some]
    exact involutive j _ here
  · intro back j i index
    have inside := (List.getElem?_eq_some_iff.mp index).1
    rw [List.length_map] at inside
    have same := back j inside
    rwa [index, Option.bind_some] at same

instance (built : MinimalPerfectHash) (keys : List (BitVec w)) :
    Decidable (Swaps hash built keys) :=
  have : Decidable (Involutive hash built keys) := decidable_of_iff' _ involutive_iff
  inferInstanceAs (Decidable (_ ∧ _))

instance (m : MphMap w V) (key : BitVec w) :
    Decidable (Builds hash sortBuckets (Swaps hash) m key) :=
  match done : m.mMph.build hash sortBuckets (m.keys ++ [key]) with
  | .ok built =>
    decidable_of_iff (key ∉ m.keys → Swaps hash built (m.keys ++ [key])) (by simp [Builds, done])
  | .error _ => isTrue fun _ _ done' => nomatch done.symm.trans done'

instance (m : MphMap w V) (key : BitVec w) : Decidable (∀ e, ¬ Refuses hash sortBuckets m key e) :=
  match done : m.mMph.build hash sortBuckets (m.keys ++ [key]) with
  | .ok _ => isTrue fun _ refuses => nomatch done.symm.trans refuses.2
  | .error _ => decidable_of_iff (key ∈ m.keys) (by simp [Refuses, done])

/-- Over every run whose rebuilds swap, the container is the finite map: each outcome,
the pairs met by iteration and `contains`. It stops only where a build does not return,
and never for repeated keys. A rebuild that does not swap loses a key. -/
theorem run_refines_table (moved : V → V) (init : V) (calls : List (Call w V))
    (swaps : AllBuilds hash sortBuckets moved init (Swaps hash) {} calls) :
    (∀ m outcomes, run hash sortBuckets moved init {} calls = .ok (m, outcomes) →
      outcomes = (Table.run init (fun _ => none) calls).2 ∧ m.keys.Nodup ∧
      (∀ key v, (key, v) ∈ m.mKeyVals ↔
        (Table.run init (fun _ => none) calls).1 key = some v) ∧
      ∀ key, contains hash m key = .ok ((Table.run init (fun _ => none) calls).1 key).isSome) ∧
    (∀ e, run hash sortBuckets moved init {} calls = .error e →
      ∃ failed, e = .build failed ∧ failed ≠ .notUnique) ∧
    ∀ (m : MphMap w V) built, m.keys.Nodup → m.mMph.build hash sortBuckets m.keys = .ok built →
      OneToOne hash built m.keys → ∃ m', rebuild hash sortBuckets moved m = .ok m' ∧
        ((∀ key ∈ m.keys, contains hash m' key = .ok true) ↔ Involutive hash built m.keys) := by
  refine ⟨?_, ?_, fun m built nodup done oneToOne =>
    contains_rebuild_iff moved nodup done oneToOne⟩
  · intro m outcomes finished
    rcases run_spec represents_empty swaps with ⟨m', same, rep⟩ | ⟨e, failed, _⟩
    · rw [same] at finished
      cases finished
      exact ⟨rfl, rep.nodup_keys, rep.content, contains_eq rep⟩
    · rw [failed] at finished
      cases finished
  · intro e stopped
    rcases run_spec represents_empty swaps with ⟨m', same, rep⟩ | ⟨e', failed, unique⟩
    · rw [same] at stopped
      cases stopped
    · rw [failed] at stopped
      cases stopped
      exact ⟨e', rfl, unique⟩

def twoPorts : List (Call 32 Nat) :=
  [.subscript 0x20103 fun _ => 1, .subscript 0xa0103 fun _ => 2]

/-- The second insertion swaps its two pairs. -/
theorem twoPorts_kept : ∃ m outcomes,
    run (jevhash32 0x85EBCA77) stableSort id 0 {} twoPorts = .ok (m, outcomes) ∧
      outcomes = (Table.run 0 (fun _ => none) twoPorts).2 := by
  have swaps : AllBuilds (jevhash32 0x85EBCA77) stableSort id 0 (Swaps (jevhash32 0x85EBCA77)) {}
      twoPorts := by
    refine allBuilds_cons (fun key inserts => ?_) rfl ?_
    · cases inserts
      refine builds_of_eq rfl ⟨by decide, ?_⟩
      rintro (_ | j) i ⟨⟩
      rfl
    refine allBuilds_cons (fun key inserts => ?_) rfl trivial
    cases inserts
    refine builds_of_eq rfl ⟨by decide, ?_⟩
    rintro (_ | _ | j) i ⟨⟩ <;> rfl
  exact ⟨_, _, rfl, ((run_refines_table id 0 twoPorts swaps).1 _ _ rfl).1⟩

def threePorts : List (Call 32 Nat) :=
  [.subscript 0xa0103 fun _ => 1, .subscript 0x20103 fun _ => 2, .subscript 0x103 fun _ => 3,
    .contains 0xa0103]

/-- The third insertion rotates three pairs: it reaches the second value instead of a
new one, and the first key is lost. -/
theorem threePorts_lost :
    AllBuilds (jevhash32 0x85EBCA77) stableSort id 0 (OneToOne (jevhash32 0x85EBCA77)) {}
      threePorts ∧
    (run (jevhash32 0x85EBCA77) stableSort id 0 {} threePorts).map Prod.snd =
      .ok [.reached 0, .reached 0, .reached 2, .present false] ∧
    (Table.run 0 (fun _ => none) threePorts).2 =
      [.reached 0, .reached 0, .reached 0, .present true] := by
  refine ⟨?_, rfl, by decide⟩
  refine allBuilds_cons (fun key inserts => ?_) rfl ?_
  · cases inserts
    exact builds_of_eq rfl (by decide)
  refine allBuilds_cons (fun key inserts => ?_) rfl ?_
  · cases inserts
    exact builds_of_eq rfl (by decide)
  refine allBuilds_cons (fun key inserts => ?_) rfl ?_
  · cases inserts
    exact builds_of_eq rfl (by decide)
  refine allBuilds_cons (fun key inserts => ?_) rfl trivial
  cases inserts

end

end MphMap

end XnuTrace
