import XnuTrace.LogStructs
import XnuTrace.Lib.Occupancy
import Mathlib.Data.List.Perm.Basic
import Mathlib.Data.List.Destutter
import Mathlib.Data.List.Sort

/-! `MinimalPerfectHash`: hash and displace over an arbitrary hash function. Buckets of
several keys are displaced by a salt that sends all of them to free slots, single
keys take the first free slot. The loop invariant keeps the slots in use equal to the
slots at which the keys placed so far are looked up. -/
namespace XnuTrace
open Occupancy

/-- `Hasher::hash(val, seed)`, an unsigned number of either type. -/
abbrev Hasher := Uint64 → Uint64 → Nat

/-- `jevhash_32`; the multiplier is a constant of the xxHash library. -/
def jevhash32 (xxhPrime32_2 : Uint32) : Hasher := fun val seed =>
  let acc : Uint32 := (seed + 1).setWidth 32
  let acc := acc * xxhPrime32_2
  let acc := acc ^^^ (val >>> 32).setWidth 32
  let acc := acc + seed.setWidth 32
  let acc := acc ^^^ (val &&& 0xffffffff).setWidth 32
  (acc.rotateLeft 13).toNat

inductive BuildFailure where
  | tooManyKeys
  /-- `computeM_u32(0)`. -/
  | divisionByZero
  | notUnique
  | timedOut
  | noFreeSlot
deriving DecidableEq

def uint32Max : Nat := 2 ^ 32 - 1

def int32Max : Nat := 2 ^ 31 - 1

/-- Conversion to `int32_t`. -/
def toInt32 (x : Int) : Int := (x + 2147483648) % 4294967296 - 2147483648

/-- `bucket<KeyT>`, for the unsigned key type of `w` bits. -/
structure Bucket (w : Nat) where
  hmod : Nat
  keys : List (BitVec w)
deriving DecidableEq

structure MinimalPerfectHash where
  mSalts : List Int
  mNkeys : Nat
deriving DecidableEq

/-- The locals of `build` that its placement loop updates. -/
structure Slots where
  slotUsed : List Bool
  salts : List Int

section
variable {w : Nat} (hash : Hasher) (n : Nat)

/-- `mod(Hasher::hash(key, seed))`, `fastmod_u32` computing the remainder. -/
def hashMod (key : BitVec w) (seed : Nat) : Nat :=
  hash (key.setWidth 64) (BitVec.ofNat 64 seed) % n

def fillBuckets (keys : List (BitVec w)) : List (Bucket w) :=
  keys.foldl (fun buckets key =>
    let hmod := hashMod hash n key 0
    buckets.modify hmod fun b => { hmod := hmod, keys := b.keys ++ [key] })
    (List.replicate n { hmod := 0, keys := [] })

/-- One round of the salt search. `saltedHashes` is the filled part of the array; the
rest holds `UINT32_MAX`, which is no residue. -/
def trySalt (slotUsed : List Bool) (d : Nat) : List (BitVec w) → List Nat → Option (List Nat)
  | [], saltedHashes => some saltedHashes
  | key :: keys, saltedHashes =>
    let shmod := hashMod hash n key d
    -- collision within salted hashes, try again
    if shmod ∈ saltedHashes then none
    else if slotUsed.getD shmod false then none
    else trySalt slotUsed d keys (saltedHashes ++ [shmod])

/-- `while (true)` over the salts from `d` on, `rounds` of them. -/
def saltSearch (slotUsed : List Bool) (keys : List (BitVec w)) : Nat → Nat → Option (Nat × List Nat)
  | 0, _ => none
  | rounds + 1, d =>
    match trySalt hash n slotUsed d keys [] with
    | some saltedHashes => some (d, saltedHashes)
    | none => saltSearch slotUsed keys rounds (d + 1)

/-- The search as `build` starts it: salts from 1 to `INT32_MAX`, behind which only the
timeout ends it. -/
def findSalt (slotUsed : List Bool) (keys : List (BitVec w)) : Option (Nat × List Nat) :=
  saltSearch hash n slotUsed keys int32Max 1

def placeBucket (s : Slots) (b : Bucket w) : Except BuildFailure Slots :=
  if b.keys.length > 1 then
    match findSalt hash n s.slotUsed b.keys with
    | none => .error .timedOut
    | some (d, saltedHashes) => .ok {
        slotUsed := saltedHashes.foldl (fun used slot => used.set slot true) s.slotUsed
        salts := s.salts.set b.hmod d }
  else if b.keys.length = 1 then
    match s.slotUsed.findIdx? (· == false) with
    | none => .error .noFreeSlot
    | some it => .ok {
        slotUsed := s.slotUsed.set it true
        salts := s.salts.set b.hmod (toInt32 (-it - 1)) }
  else .ok s

end

def resize (salts : List Int) (n : Nat) : List Int :=
  salts.take n ++ List.replicate (n - salts.length) 0

/-- No slot in use; salts of an earlier build stay where they are. -/
def startSlots (mSalts : List Int) (n : Nat) : Slots :=
  { slotUsed := List.replicate n false, salts := resize mSalts n }

/-- What `std::sort` promises: larger buckets first, equally large ones in any order. -/
def SortsBySize {w : Nat} (sortBuckets : List (Bucket w) → List (Bucket w)) : Prop :=
  ∀ buckets, (sortBuckets buckets).Perm buckets ∧
    (sortBuckets buckets).Pairwise fun a b => a.keys.length ≥ b.keys.length

/-- One such order. -/
def stableSort {w : Nat} (buckets : List (Bucket w)) : List (Bucket w) :=
  buckets.insertionSort fun a b => a.keys.length ≥ b.keys.length

namespace MinimalPerfectHash

/-- `build`, for any behaviour of its `std::sort`. -/
def build {w : Nat} (hash : Hasher) (sortBuckets : List (Bucket w) → List (Bucket w))
    (mph : MinimalPerfectHash) (keys : List (BitVec w)) :
    Except BuildFailure MinimalPerfectHash :=
  if keys.length > uint32Max then .error .tooManyKeys
  else if keys.length = 0 then .error .divisionByZero
  else
    let mNkeys := keys.length
    let vkeys := (keys.insertionSort (fun a b => a.toNat ≤ b.toNat)).destutter (· ≠ ·)
    if vkeys.length ≠ mNkeys then .error .notUnique
    else
      let buckets := sortBuckets (fillBuckets hash mNkeys keys)
      match buckets.foldlM (placeBucket hash mNkeys) (startSlots mph.mSalts mNkeys) with
      | .error e => .error e
      | .ok slots => .ok { mSalts := slots.salts, mNkeys := mNkeys }

/-- `operator()`, for the salts of a table of `n` keys. -/
def slotOf {w : Nat} (hash : Hasher) (n : Nat) (salts : List Int) (key : BitVec w) : Nat :=
  let saltVal := salts.getD (hashMod hash n key 0) 0
  if saltVal < 0 then (-saltVal - 1).toNat else hashMod hash n key saltVal.toNat

def apply {w : Nat} (hash : Hasher) (mph : MinimalPerfectHash) (key : BitVec w) : Nat :=
  slotOf hash mph.mNkeys mph.mSalts key

end MinimalPerfectHash
open MinimalPerfectHash

/-! One round of the salt search. -/

section
variable {w : Nat} {hash : Hasher} {n : Nat}

theorem hashMod_lt (pos : 0 < n) (key : BitVec w) (seed : Nat) : hashMod hash n key seed < n :=
  Nat.mod_lt _ pos

/-- The salt `d` sends `keys` to different slots that are all free. -/
def Separates (hash : Hasher) (n : Nat) (slotUsed : List Bool) (keys : List (BitVec w))
    (d : Nat) : Prop :=
  (keys.map (hashMod hash n · d)).Nodup ∧ ∀ key ∈ keys, slotUsed.getD (hashMod hash n key d) false = false

instance (slotUsed : List Bool) (keys : List (BitVec w)) (d : Nat) :
    Decidable (Separates hash n slotUsed keys d) :=
  inferInstanceAs (Decidable (_ ∧ _))

theorem trySalt_acc {slotUsed : List Bool} {d : Nat} (keys : List (BitVec w)) {acc : List Nat}
    (nodup : acc.Nodup) : trySalt hash n slotUsed d keys acc =
      if (acc ++ keys.map (hashMod hash n · d)).Nodup ∧
        ∀ key ∈ keys, slotUsed.getD (hashMod hash n key d) false = false
      then some (acc ++ keys.map (hashMod hash n · d)) else none := by
  induction keys generalizing acc with
  | nil => simp [trySalt, nodup]
  | cons key keys ih =>
    rw [trySalt]
    by_cases seen : hashMod hash n key d ∈ acc
    · rw [if_pos seen, if_neg]
      rintro ⟨distinct, _⟩
      exact (List.nodup_append.mp distinct).2.2 _ seen _ List.mem_cons_self rfl
    · rw [if_neg seen]
      by_cases used : slotUsed.getD (hashMod hash n key d) false = true
      · rw [if_pos used, if_neg]
        rintro ⟨_, free⟩
        exact absurd (used.symm.trans (free key List.mem_cons_self)) (by decide)
      · have grown : (acc ++ [hashMod hash n key d]).Nodup :=
          (List.perm_append_singleton _ _).nodup_iff.mpr (List.nodup_cons.mpr ⟨seen, nodup⟩)
        have free : slotUsed.getD (hashMod hash n key d) false = false := by
          rwa [Bool.not_eq_true] at used
        rw [if_neg used, ih grown]
        simp only [List.append_assoc, List.singleton_append, List.map_cons, List.forall_mem_cons,
          free, true_and]

theorem trySalt_eq (slotUsed : List Bool) (d : Nat) (keys : List (BitVec w)) :
    trySalt hash n slotUsed d keys [] =
      if Separates hash n slotUsed keys d then some (keys.map (hashMod hash n · d)) else none := by
  rw [trySalt_acc keys List.nodup_nil]
  rfl

theorem saltSearch_some {slotUsed : List Bool} {keys : List (BitVec w)} {rounds d e : Nat}
    {out : List Nat} (found : saltSearch hash n slotUsed keys rounds d = some (e, out)) :
    d ≤ e ∧ e < d + rounds ∧ Separates hash n slotUsed keys e ∧
      out = keys.map (hashMod hash n · e) := by
  induction rounds generalizing d with
  | zero => cases found
  | succ rounds ih =>
    rw [saltSearch, trySalt_eq] at found
    by_cases good : Separates hash n slotUsed keys d
    · rw [if_pos good] at found
      cases found
      exact ⟨Nat.le_refl _, by omega, good, rfl⟩
    · rw [if_neg good] at found
      obtain ⟨lower, upper, rest⟩ := ih found
      exact ⟨by omega, by omega, rest⟩

end

/-! The buckets. -/

section
variable {w : Nat} (hash : Hasher) (n : Nat)

def bucketAt (keys : List (BitVec w)) (hmod : Nat) : Bucket w :=
  match keys.filter (hashMod hash n · 0 = hmod) with
  | [] => { hmod := 0, keys := [] }
  | key :: keys => { hmod := hmod, keys := key :: keys }

theorem keys_bucketAt (keys : List (BitVec w)) (hmod : Nat) :
    (bucketAt hash n keys hmod).keys = keys.filter (hashMod hash n · 0 = hmod) := by
  unfold bucketAt
  split <;> simp [*]

theorem fillBuckets_eq (keys : List (BitVec w)) :
    fillBuckets hash n keys = (List.range n).map (bucketAt hash n keys) := by
  induction keys using List.reverseRecOn with
  | nil =>
    have empty : bucketAt hash n ([] : List (BitVec w)) = fun _ => { hmod := 0, keys := [] } := rfl
    rw [empty, List.map_const', List.length_range]
    rfl
  | append_singleton keys key ih =>
    rw [fillBuckets, List.foldl_append, ← fillBuckets, ih]
    apply List.ext_getElem
    · simp
    · intro i _ hi
      have bound : i < n := by simpa using hi
      simp only [List.foldl_cons, List.foldl_nil, List.getElem_modify, List.getElem_map,
        List.getElem_range]
      by_cases here : hashMod hash n key 0 = i
      · subst here
        simp only [if_true, bucketAt, List.filter_append, List.filter_singleton]
        cases keys.filter (hashMod hash n · 0 = hashMod hash n key 0) <;> simp
      · simp [here, bucketAt, List.filter_append]

/-- What the placement loop relies on; it does not depend on the order of the buckets. -/
structure Partitions (keys : List (BitVec w)) (buckets : List (Bucket w)) : Prop where
  keyed : ∀ b ∈ buckets, ∀ key ∈ b.keys, hashMod hash n key 0 = b.hmod
  apart : buckets.Pairwise fun a b => a.keys ≠ [] → b.keys ≠ [] → a.hmod ≠ b.hmod
  exhaustive : (buckets.flatMap Bucket.keys).Perm keys

theorem hmod_bucketAt {keys : List (BitVec w)} {hmod : Nat}
    (some : (bucketAt hash n keys hmod).keys ≠ []) : (bucketAt hash n keys hmod).hmod = hmod := by
  unfold bucketAt at some ⊢
  split
  · simp_all
  · rfl

theorem partitions_fillBuckets {keys : List (BitVec w)} (nodup : keys.Nodup) (pos : 0 < n) :
    Partitions hash n keys (fillBuckets hash n keys) where
  keyed := by
    rw [fillBuckets_eq]
    intro b hb key hkey
    obtain ⟨j, _, rfl⟩ := List.mem_map.mp hb
    rw [hmod_bucketAt hash n (List.ne_nil_of_mem hkey)]
    rw [keys_bucketAt] at hkey
    simpa using (List.mem_filter.mp hkey).2
  apart := by
    rw [fillBuckets_eq, List.pairwise_map]
    refine List.nodup_range.imp fun different ha hb => ?_
    rwa [hmod_bucketAt hash n ha, hmod_bucketAt hash n hb]
  exhaustive := by
    rw [fillBuckets_eq, List.flatMap_map]
    simp only [keys_bucketAt]
    refine (List.perm_ext_iff_of_nodup ?_ nodup).mpr fun key => ?_
    · refine List.nodup_flatMap.mpr ⟨fun j _ => nodup.filter _, ?_⟩
      refine List.nodup_range.imp fun {i j} different key ha hb => different ?_
      have first : hashMod hash n key 0 = i := by simpa using (List.mem_filter.mp ha).2
      have second : hashMod hash n key 0 = j := by simpa using (List.mem_filter.mp hb).2
      exact first.symm.trans second
    · simp [hashMod_lt pos]

variable {hash n} in
theorem Partitions.perm {keys : List (BitVec w)} {buckets buckets' : List (Bucket w)}
    (parts : Partitions hash n keys buckets) (perm : buckets'.Perm buckets) :
    Partitions hash n keys buckets' where
  keyed b hb := parts.keyed b (perm.mem_iff.mp hb)
  apart := perm.symm.pairwise parts.apart fun apart hb ha => (apart ha hb).symm
  exhaustive := (perm.flatMap_right _).trans parts.exhaustive

end

/-! Placing the buckets. -/

section
variable {w : Nat} {hash : Hasher} {n : Nat}

/-- The loop invariant: looking up the keys placed so far yields exactly the slots in
use, each once. -/
structure Reached (hash : Hasher) (n : Nat) (s : Slots) (placed : List (BitVec w)) : Prop where
  length_used : s.slotUsed.length = n
  length_salts : s.salts.length = n
  lookup : (placed.map (slotOf hash n s.salts)).Perm (occupied s.slotUsed)

theorem Reached.length_placed {s : Slots} {placed : List (BitVec w)}
    (reached : Reached hash n s placed) : (occupied s.slotUsed).length = placed.length := by
  rw [← reached.lookup.length_eq, List.length_map]

theorem reached_start (salts : List Int) :
    Reached hash n (startSlots salts n) ([] : List (BitVec w)) where
  length_used := List.length_replicate
  length_salts := by
    simp only [startSlots, resize, List.length_append, List.length_take, List.length_replicate]
    omega
  lookup := by
    rw [startSlots, occupied_replicate]
    exact List.Perm.refl _

theorem slotOf_set_other {salts : List Int} {hmod : Nat} (salt : Int) {key : BitVec w}
    (other : hashMod hash n key 0 ≠ hmod) :
    slotOf hash n (salts.set hmod salt) key = slotOf hash n salts key := by
  rw [slotOf, slotOf, List.getD_eq_getElem?_getD, List.getD_eq_getElem?_getD,
    List.getElem?_set_ne other.symm]

theorem slotOf_set_salt {salts : List Int} {hmod : Nat} (d : Nat) {key : BitVec w}
    (home : hashMod hash n key 0 = hmod) (bound : hmod < salts.length) :
    slotOf hash n (salts.set hmod d) key = hashMod hash n key d := by
  subst home
  simp [slotOf, List.getElem?_set_self bound]

theorem toInt32_slot {it : Nat} (small : it < 2 ^ 31) : toInt32 (-it - 1) = -it - 1 := by
  unfold toInt32
  omega

theorem slotOf_set_slot {salts : List Int} {hmod it : Nat} {key : BitVec w}
    (home : hashMod hash n key 0 = hmod) (bound : hmod < salts.length) (small : it < 2 ^ 31) :
    slotOf hash n (salts.set hmod (toInt32 (-it - 1))) key = it := by
  subst home
  have negative : (-(it : Int) - 1) < 0 := by omega
  rw [toInt32_slot small, slotOf, List.getD_eq_getElem?_getD, List.getElem?_set_self bound]
  simp only [Option.getD_some, if_pos negative]
  omega

/-- A new salt for `hmod` moves only the keys of that bucket. -/
theorem Reached.place {s : Slots} {placed keys : List (BitVec w)} {used : List Bool}
    {slots : List Nat} {hmod : Nat} {salt : Int} (reached : Reached hash n s placed)
    (others : ∀ key ∈ placed, hashMod hash n key 0 ≠ hmod)
    (length_used : used.length = n) (taken : (occupied used).Perm (slots ++ occupied s.slotUsed))
    (found : keys.map (slotOf hash n (s.salts.set hmod salt)) = slots) :
    Reached hash n { slotUsed := used, salts := s.salts.set hmod salt } (keys ++ placed) where
  length_used := length_used
  length_salts := by rw [List.length_set, reached.length_salts]
  lookup := by
    have kept : placed.map (slotOf hash n (s.salts.set hmod salt)) =
        placed.map (slotOf hash n s.salts) :=
      List.map_congr_left fun key hkey => slotOf_set_other salt (others key hkey)
    rw [List.map_append, found, kept]
    exact (List.Perm.append_left slots reached.lookup).trans taken.symm

theorem free_of_getD {used : List Bool} {i : Nat} (bound : i < used.length)
    (free : used.getD i false = false) : used[i]? = some false := by
  rw [List.getD_eq_getElem _ _ bound] at free
  rw [List.getElem?_eq_getElem bound, free]

theorem placeBucket_ok {s s' : Slots} {placed : List (BitVec w)} {b : Bucket w}
    (pos : 0 < n) (small : n < 2 ^ 31) (reached : Reached hash n s placed)
    (keyed : ∀ key ∈ b.keys, hashMod hash n key 0 = b.hmod)
    (others : b.keys ≠ [] → ∀ key ∈ placed, hashMod hash n key 0 ≠ b.hmod)
    (done : placeBucket hash n s b = .ok s') : Reached hash n s' (b.keys ++ placed) := by
  have length_used := reached.length_used
  have bound : ∀ key ∈ b.keys, b.hmod < s.salts.length := fun key hkey => by
    rw [reached.length_salts, ← keyed key hkey]
    exact hashMod_lt pos key 0
  unfold placeBucket at done
  split at done
  · rename_i several
    cases search : findSalt hash n s.slotUsed b.keys with
    | none => simp only [search, reduceCtorEq] at done
    | some result =>
      obtain ⟨d, saltedHashes⟩ := result
      obtain ⟨_, _, separates, rfl⟩ := saltSearch_some search
      simp only [search, Except.ok.injEq] at done
      subst done
      have free : ∀ i ∈ b.keys.map (hashMod hash n · d), s.slotUsed[i]? = some false := by
        intro i hi
        obtain ⟨key, hkey, rfl⟩ := List.mem_map.mp hi
        refine free_of_getD ?_ (separates.2 key hkey)
        rw [length_used]
        exact hashMod_lt pos key d
      refine reached.place (others (List.ne_nil_of_length_pos (by omega))) ?_
        (occupied_foldl_set separates.1 free) ?_
      · rw [length_foldl_set, length_used]
      · exact List.map_congr_left fun key hkey =>
          slotOf_set_salt d (keyed key hkey) (bound key hkey)
  split at done
  · rename_i single
    obtain ⟨key, hkey⟩ := List.length_eq_one_iff.mp single
    cases free : s.slotUsed.findIdx? (· == false) with
    | none => simp only [free, reduceCtorEq] at done
    | some it =>
      simp only [free, Except.ok.injEq] at done
      subst done
      have slot := free_of_findIdx? free
      obtain ⟨inside, _⟩ := List.getElem?_eq_some_iff.mp slot
      have taken : (occupied (s.slotUsed.set it true)).Perm ([it] ++ occupied s.slotUsed) :=
        occupied_set slot
      refine reached.place (others (by simp [hkey])) ?_ taken ?_
      · rw [List.length_set, length_used]
      · rw [hkey, List.map_singleton]
        rw [slotOf_set_slot (keyed key (by simp [hkey])) (bound key (by simp [hkey])) (by omega)]
  · rename_i none
    cases done
    have empty : b.keys = [] := List.eq_nil_of_length_eq_zero (by omega)
    rwa [empty, List.nil_append]

/-- With room for its keys, a bucket can only fail by the timeout of its salt search. -/
theorem placeBucket_error {s : Slots} {placed : List (BitVec w)} {b : Bucket w}
    {e : BuildFailure} (reached : Reached hash n s placed) (room : b.keys.length + placed.length ≤ n)
    (failed : placeBucket hash n s b = .error e) :
    e = .timedOut ∧ 1 < b.keys.length ∧ findSalt hash n s.slotUsed b.keys = none := by
  unfold placeBucket at failed
  split at failed
  · rename_i several
    cases search : findSalt hash n s.slotUsed b.keys with
    | none =>
      simp only [search, Except.error.injEq] at failed
      exact ⟨failed.symm, several, rfl⟩
    | some result => simp only [search, reduceCtorEq] at failed
  split at failed
  · have open_slot : (occupied s.slotUsed).length < s.slotUsed.length := by
      rw [reached.length_placed, reached.length_used]
      omega
    obtain ⟨it, free⟩ := exists_findIdx? open_slot
    simp only [free, reduceCtorEq] at failed
  · cases failed

/-- A run of the loop over some of the buckets. -/
theorem foldlM_placeBucket (pos : 0 < n) (small : n < 2 ^ 31) {buckets : List (Bucket w)}
    {s : Slots} {placed : List (BitVec w)} (reached : Reached hash n s placed)
    (keyed : ∀ b ∈ buckets, ∀ key ∈ b.keys, hashMod hash n key 0 = b.hmod)
    (apart : buckets.Pairwise fun a b => a.keys ≠ [] → b.keys ≠ [] → a.hmod ≠ b.hmod)
    (others : ∀ b ∈ buckets, b.keys ≠ [] → ∀ key ∈ placed, hashMod hash n key 0 ≠ b.hmod)
    (room : (buckets.flatMap Bucket.keys).length + placed.length ≤ n) :
    (∀ s', buckets.foldlM (placeBucket hash n) s = .ok s' →
      ∃ placed', placed'.Perm (buckets.flatMap Bucket.keys ++ placed) ∧ Reached hash n s' placed') ∧
    ∀ e, buckets.foldlM (placeBucket hash n) s = .error e → e = .timedOut := by
  induction buckets generalizing s placed with
  | nil =>
    constructor
    · intro s' done
      cases done
      exact ⟨placed, List.Perm.refl _, reached⟩
    · intro e failed
      cases failed
  | cons b buckets ih =>
    rw [List.flatMap_cons, List.length_append] at room
    obtain ⟨keyedB, keyed⟩ := List.forall_mem_cons.mp keyed
    obtain ⟨apartB, apart⟩ := List.pairwise_cons.mp apart
    obtain ⟨othersB, others⟩ := List.forall_mem_cons.mp others
    rw [List.foldlM_cons]
    cases step : placeBucket hash n s b with
    | error e =>
      constructor
      · intro s' done
        cases done
      · intro e' failed
        cases failed
        exact (placeBucket_error reached (by omega) step).1
    | ok s₁ =>
      have reached₁ := placeBucket_ok pos small reached keyedB othersB step
      have others₁ : ∀ b' ∈ buckets, b'.keys ≠ [] →
          ∀ key ∈ b.keys ++ placed, hashMod hash n key 0 ≠ b'.hmod := by
        intro b' hb' some key hkey
        rcases List.mem_append.mp hkey with here | before
        · rw [keyedB key here]
          exact apartB b' hb' (List.ne_nil_of_mem here) some
        · exact others b' hb' some key before
      have rest := ih reached₁ keyed apart others₁ (by rw [List.length_append]; omega)
      refine ⟨fun s' done => ?_, rest.2⟩
      obtain ⟨placed', perm, reached'⟩ := rest.1 s' done
      refine ⟨placed', perm.trans ?_, reached'⟩
      rw [List.flatMap_cons, ← List.append_assoc]
      exact List.Perm.append_right placed List.perm_append_comm

end

/-! Salts stay inside the table, also where they are left over from an earlier build. -/

section
variable {w : Nat} {hash : Hasher} {n : Nat}

/-- Each direct slot is below `n`. -/
def SaltsBelow (n : Nat) (salts : List Int) : Prop := ∀ salt ∈ salts, salt < 0 → -salt - 1 < n

theorem SaltsBelow.set {salts : List Int} {hmod : Nat} {salt : Int} (below : SaltsBelow n salts)
    (new : salt < 0 → -salt - 1 < n) : SaltsBelow n (salts.set hmod salt) := by
  intro s hs
  rcases List.mem_or_eq_of_mem_set hs with old | rfl
  · exact below s old
  · exact new

theorem SaltsBelow.resize {k : Nat} {salts : List Int} (below : SaltsBelow k salts) (grows : k ≤ n) :
    SaltsBelow n (resize salts n) := by
  intro s hs negative
  rcases List.mem_append.mp hs with old | fresh
  · have := below s (List.mem_of_mem_take old) negative
    omega
  · obtain rfl := List.eq_of_mem_replicate fresh
    omega

theorem slotOf_lt (pos : 0 < n) {salts : List Int} (below : SaltsBelow n salts) (key : BitVec w) :
    slotOf hash n salts key < n := by
  unfold slotOf
  simp only
  split
  · rename_i negative
    rw [List.getD_eq_getElem?_getD] at negative ⊢
    cases entry : salts[hashMod hash n key 0]? with
    | none => simp [entry] at negative
    | some salt =>
      rw [entry, Option.getD_some] at negative
      have := below salt (List.mem_of_getElem? entry) negative
      rw [Option.getD_some]
      omega
  · exact hashMod_lt pos key _

/-- A bucket with keys sets one salt, and a direct slot is below `n`. -/
theorem placeBucket_set {s s' : Slots} {b : Bucket w} (few : n ≤ uint32Max)
    (length_used : s.slotUsed.length = n) (done : placeBucket hash n s b = .ok s') :
    s'.slotUsed.length = n ∧ (b.keys = [] ∧ s'.salts = s.salts ∨
      b.keys ≠ [] ∧ ∃ salt : Int, (salt < 0 → -salt - 1 < n) ∧
        s'.salts = s.salts.set b.hmod salt) := by
  unfold placeBucket at done
  split at done
  · rename_i several
    have filled : b.keys ≠ [] := List.ne_nil_of_length_pos (by omega)
    cases search : findSalt hash n s.slotUsed b.keys with
    | none => simp only [search, reduceCtorEq] at done
    | some result =>
      simp only [search, Except.ok.injEq] at done
      subst done
      exact ⟨by rw [length_foldl_set, length_used], .inr ⟨filled, _, fun negative => by omega, rfl⟩⟩
  split at done
  · rename_i one
    have filled : b.keys ≠ [] := List.ne_nil_of_length_pos (by omega)
    cases free : s.slotUsed.findIdx? (· == false) with
    | none => simp only [free, reduceCtorEq] at done
    | some it =>
      simp only [free, Except.ok.injEq] at done
      subst done
      obtain ⟨inside, _⟩ := List.getElem?_eq_some_iff.mp (free_of_findIdx? free)
      simp only [uint32Max] at few
      refine ⟨by rw [List.length_set, length_used], .inr ⟨filled, _, fun negative => ?_, rfl⟩⟩
      unfold toInt32 at negative ⊢
      omega
  · rename_i several one
    have none : b.keys = [] := List.eq_nil_of_length_eq_zero (by omega)
    cases done
    exact ⟨length_used, .inl ⟨none, rfl⟩⟩

theorem placeBucket_salts {s s' : Slots} {b : Bucket w} (few : n ≤ uint32Max)
    (length_used : s.slotUsed.length = n) (below : SaltsBelow n s.salts)
    (done : placeBucket hash n s b = .ok s') : s'.slotUsed.length = n ∧ SaltsBelow n s'.salts := by
  obtain ⟨length, ⟨-, same⟩ | ⟨-, salt, new, set⟩⟩ := placeBucket_set few length_used done
  · exact ⟨length, same ▸ below⟩
  · exact ⟨length, set ▸ below.set new⟩

theorem foldlM_placeBucket_salts {buckets : List (Bucket w)} {s s' : Slots} (few : n ≤ uint32Max)
    (length_used : s.slotUsed.length = n) (below : SaltsBelow n s.salts)
    (done : buckets.foldlM (placeBucket hash n) s = .ok s') : SaltsBelow n s'.salts := by
  induction buckets generalizing s with
  | nil =>
    cases done
    exact below
  | cons b buckets ih =>
    rw [List.foldlM_cons] at done
    cases step : placeBucket hash n s b with
    | error e =>
      rw [step] at done
      cases done
    | ok s₁ =>
      rw [step] at done
      obtain ⟨length₁, below₁⟩ := placeBucket_salts few length_used below step
      exact ih length₁ below₁ done

end

/-! `build`. -/

namespace MinimalPerfectHash

theorem destutter_insertionSort {w : Nat} {keys : List (BitVec w)} (nodup : keys.Nodup) :
    (keys.insertionSort (fun a b => a.toNat ≤ b.toNat)).destutter (· ≠ ·) =
      keys.insertionSort (fun a b => a.toNat ≤ b.toNat) := by
  refine (List.destutter_eq_self_iff _ _).mpr (List.Pairwise.isChain ?_)
  exact (List.perm_insertionSort _ keys).nodup_iff.mpr nodup

/-- Pairwise different keys pass `build`'s own checks. -/
theorem build_eq {w : Nat} {hash : Hasher} {sortBuckets : List (Bucket w) → List (Bucket w)}
    {mph : MinimalPerfectHash} {keys : List (BitVec w)} (nodup : keys.Nodup)
    (nonempty : keys ≠ []) (few : keys.length ≤ uint32Max) :
    build hash sortBuckets mph keys =
      match (sortBuckets (fillBuckets hash keys.length keys)).foldlM (placeBucket hash keys.length)
        (startSlots mph.mSalts keys.length) with
      | .error e => .error e
      | .ok slots => .ok { mSalts := slots.salts, mNkeys := keys.length } := by
  have pos := List.length_pos_of_ne_nil nonempty
  rw [build, if_neg (by omega), if_neg (by omega), destutter_insertionSort nodup]
  simp only [(List.perm_insertionSort _ keys).length_eq, ne_eq, not_true, if_false]

theorem foldlM_placeBucket_unique {w n : Nat} {hash : Hasher} {buckets : List (Bucket w)}
    {s : Slots} : buckets.foldlM (placeBucket hash n) s ≠ .error .notUnique := by
  induction buckets generalizing s with
  | nil => rintro ⟨⟩
  | cons b buckets ih =>
    rw [List.foldlM_cons]
    cases step : placeBucket hash n s b with
    | ok s₁ => exact ih
    | error e =>
      rintro ⟨⟩
      unfold placeBucket at step
      split at step
      · split at step <;> cases step
      split at step
      · split at step <;> cases step
      · cases step

theorem build_unique {w : Nat} {hash : Hasher} {sortBuckets : List (Bucket w) → List (Bucket w)}
    {mph : MinimalPerfectHash} {keys : List (BitVec w)} (nodup : keys.Nodup) :
    build hash sortBuckets mph keys ≠ .error .notUnique := by
  unfold build
  split
  · rintro ⟨⟩
  split
  · rintro ⟨⟩
  rw [destutter_insertionSort nodup]
  simp only [(List.perm_insertionSort _ keys).length_eq, ne_eq, not_true, if_false]
  split
  · rename_i loop
    rintro ⟨⟩
    exact foldlM_placeBucket_unique loop
  · rintro ⟨⟩

/-- What a finished build leaves, unique keys or not. -/
theorem build_ok {w : Nat} {hash : Hasher} {sortBuckets : List (Bucket w) → List (Bucket w)}
    {mph built : MinimalPerfectHash} {keys : List (BitVec w)}
    (done : build hash sortBuckets mph keys = .ok built) :
    0 < keys.length ∧ built.mNkeys = keys.length ∧
      (∀ k ≤ keys.length, SaltsBelow k mph.mSalts → SaltsBelow keys.length built.mSalts) := by
  unfold build at done
  split at done
  · cases done
  split at done
  · cases done
  simp only at done
  split at done
  · cases done
  split at done
  · cases done
  · rename_i few nonempty _ _ slots loop
    cases done
    refine ⟨Nat.pos_of_ne_zero nonempty, rfl, fun k grows below => ?_⟩
    exact foldlM_placeBucket_salts (Nat.le_of_not_lt few) List.length_replicate
      (below.resize grows) loop

theorem nodup_of_isChain {w : Nat} {keys : List (BitVec w)}
    (sorted : keys.Pairwise fun a b => a.toNat ≤ b.toNat) (chain : keys.IsChain (· ≠ ·)) :
    keys.Nodup := by
  have increasing : keys.IsChain fun a b => a.toNat < b.toNat := by
    induction keys with
    | nil => exact .nil
    | cons a keys ih =>
      cases keys with
      | nil => exact .singleton a
      | cons b keys =>
        obtain ⟨head, rest⟩ := List.pairwise_cons.mp sorted
        obtain ⟨other, later⟩ := List.isChain_cons_cons.mp chain
        have less : a.toNat < b.toNat := Nat.lt_of_le_of_ne (head b List.mem_cons_self)
          fun same => other (BitVec.eq_of_toNat_eq same)
        exact .cons_cons less (ih rest later)
  have trans : Trans (fun a b : BitVec w => a.toNat < b.toNat) (fun a b : BitVec w => a.toNat < b.toNat)
      (fun a b : BitVec w => a.toNat < b.toNat) := ⟨Nat.lt_trans⟩
  refine increasing.pairwise.imp fun {a b} less => ?_
  rintro rfl
  exact Nat.lt_irrefl _ less

/-- `build` refuses keys that are not unique. -/
theorem nodup_of_build {w : Nat} {hash : Hasher} {sortBuckets : List (Bucket w) → List (Bucket w)}
    {mph built : MinimalPerfectHash} {keys : List (BitVec w)}
    (done : build hash sortBuckets mph keys = .ok built) : keys.Nodup := by
  unfold build at done
  split at done
  · cases done
  split at done
  · cases done
  simp only at done
  split at done
  · cases done
  · rename_i counted
    rw [not_not] at counted
    have total : Std.Total fun a b : BitVec w => a.toNat ≤ b.toNat := ⟨fun a b => Nat.le_total _ _⟩
    have trans : IsTrans (BitVec w) fun a b => a.toNat ≤ b.toNat := ⟨fun a b c => Nat.le_trans⟩
    have sorted := List.pairwise_insertionSort (fun a b : BitVec w => a.toNat ≤ b.toNat) keys
    have perm := List.perm_insertionSort (fun a b : BitVec w => a.toNat ≤ b.toNat) keys
    have sublist := List.destutter_sublist (· ≠ ·) (keys.insertionSort fun a b => a.toNat ≤ b.toNat)
    have whole := sublist.eq_of_length (counted.trans perm.length_eq.symm)
    have chain := List.isChain_destutter (· ≠ ·) (keys.insertionSort fun a b => a.toNat ≤ b.toNat)
    rw [whole] at chain
    exact perm.nodup_iff.mp (nodup_of_isChain sorted chain)

/-- A single key needs no salt. -/
theorem build_single {w : Nat} (hash : Hasher) {sortBuckets : List (Bucket w) → List (Bucket w)}
    (sorts : SortsBySize sortBuckets) (mph : MinimalPerfectHash) (key : BitVec w) :
    ∃ built, build hash sortBuckets mph [key] = .ok built ∧ built.apply hash key = 0 := by
  have home : hashMod hash 1 key 0 = 0 := Nat.mod_one _
  have bucket : fillBuckets hash 1 [key] = [{ hmod := 0, keys := [key] }] := by
    rw [fillBuckets_eq, List.range_one, List.map_singleton, bucketAt]
    simp [home]
  have sorted : sortBuckets (fillBuckets hash 1 [key]) = [{ hmod := 0, keys := [key] }] := by
    rw [← List.perm_singleton, ← bucket]
    exact (sorts _).1
  have length : (resize mph.mSalts 1).length = 1 :=
    (@reached_start w hash 1 mph.mSalts).length_salts
  refine ⟨{ mSalts := (resize mph.mSalts 1).set 0 (toInt32 (-(0 : Nat) - 1)), mNkeys := 1 }, ?_, ?_⟩
  · rw [build_eq (List.nodup_singleton key) (List.cons_ne_nil _ _) (by decide : 1 ≤ uint32Max)]
    simp only [List.length_singleton, sorted]
    rfl
  · exact slotOf_set_slot home (by rw [length]; decide) (by decide)

/-- The placement loop on the buckets of different keys. -/
theorem foldlM_sortBuckets {w : Nat} {hash : Hasher}
    {sortBuckets : List (Bucket w) → List (Bucket w)} (sorts : SortsBySize sortBuckets)
    (mph : MinimalPerfectHash) {keys : List (BitVec w)} (nodup : keys.Nodup) (pos : 0 < keys.length)
    (few : keys.length < 2 ^ 31) :
    let loop := (sortBuckets (fillBuckets hash keys.length keys)).foldlM
      (placeBucket hash keys.length) (startSlots mph.mSalts keys.length)
    (∀ slots, loop = .ok slots →
      ∃ placed, placed.Perm keys ∧ Reached hash keys.length slots placed) ∧
    ∀ e, loop = .error e → e = .timedOut := by
  have parts := (partitions_fillBuckets hash keys.length nodup pos).perm (sorts _).1
  have run := foldlM_placeBucket pos few (reached_start mph.mSalts) parts.keyed parts.apart
    (fun _ _ _ _ hkey => by cases hkey) (by rw [parts.exhaustive.length_eq, List.length_nil]; omega)
  refine ⟨fun slots loop => ?_, run.2⟩
  obtain ⟨placed, perm, reached⟩ := run.1 slots loop
  rw [List.append_nil] at perm
  exact ⟨placed, perm.trans parts.exhaustive, reached⟩

theorem few_of_build {w : Nat} {hash : Hasher} {sortBuckets : List (Bucket w) → List (Bucket w)}
    {mph built : MinimalPerfectHash} {keys : List (BitVec w)}
    (done : build hash sortBuckets mph keys = .ok built) : keys.length ≤ uint32Max := by
  by_contra many
  rw [build, if_pos (Nat.lt_of_not_le many)] at done
  cases done

theorem perm_range_of_build {w : Nat} {hash : Hasher}
    {sortBuckets : List (Bucket w) → List (Bucket w)} (sorts : SortsBySize sortBuckets)
    {mph built : MinimalPerfectHash} {keys : List (BitVec w)} (few : keys.length < 2 ^ 31)
    (done : build hash sortBuckets mph keys = .ok built) :
    (keys.map (built.apply hash)).Perm (List.range keys.length) := by
  have nodup := nodup_of_build done
  have pos := (build_ok done).1
  rw [build_eq nodup (List.ne_nil_of_length_pos pos) (few_of_build done)] at done
  split at done
  · cases done
  · rename_i slots loop
    cases done
    obtain ⟨placed, same, reached⟩ := (foldlM_sortBuckets sorts mph nodup pos few).1 slots loop
    have full : (occupied slots.slotUsed).length = slots.slotUsed.length := by
      rw [reached.length_placed, reached.length_used, same.length_eq]
    have range := occupied_eq_range full
    rw [reached.length_used] at range
    exact ((same.map _).symm.trans reached.lookup).trans (List.Perm.of_eq range)

/-- If `build` returns, `operator()` maps the keys one-to-one onto `0 .. n - 1`; if it
does not, a salt search ran into the timeout. -/
theorem build_minimal_perfect {w : Nat} (hash : Hasher)
    (sortBuckets : List (Bucket w) → List (Bucket w)) (sorts : SortsBySize sortBuckets)
    (mph : MinimalPerfectHash) (keys : List (BitVec w)) (nodup : keys.Nodup)
    (nonempty : keys ≠ []) (few : keys.length < 2 ^ 31) :
    (∀ built, build hash sortBuckets mph keys = .ok built →
      (keys.map (built.apply hash)).Perm (List.range keys.length)) ∧
    ∀ e, build hash sortBuckets mph keys = .error e → e = .timedOut := by
  refine ⟨fun built done => perm_range_of_build sorts few done, fun e failed => ?_⟩
  have bounded : keys.length ≤ uint32Max := by
    simp only [uint32Max]
    omega
  rw [build_eq nodup nonempty bounded] at failed
  split at failed
  · rename_i e' loop
    cases failed
    exact (foldlM_sortBuckets sorts mph nodup (List.length_pos_of_ne_nil nonempty) few).2 e loop
  · cases failed

theorem sortsBySize_stableSort {w : Nat} : SortsBySize (stableSort (w := w)) := by
  intro buckets
  have total : Std.Total fun a b : Bucket w => a.keys.length ≥ b.keys.length :=
    ⟨fun a b => Nat.le_total _ _⟩
  have trans : IsTrans (Bucket w) fun a b => a.keys.length ≥ b.keys.length :=
    ⟨fun a b c hab hbc => Nat.le_trans hbc hab⟩
  exact ⟨List.perm_insertionSort _ _, List.pairwise_insertionSort _ _⟩

/-- Three thread ports, two of them in one bucket. -/
theorem build_minimal_perfect_ports :
    let keys : List Uint32 := [0x103, 0x203, 0x1803]
    ∃ built, build (jevhash32 0x85EBCA77) stableSort { mSalts := [], mNkeys := 0 } keys = .ok built ∧
      (keys.map (built.apply (jevhash32 0x85EBCA77))).Perm (List.range 3) :=
  ⟨_, rfl, (build_minimal_perfect (jevhash32 0x85EBCA77) stableSort sortsBySize_stableSort
    { mSalts := [], mNkeys := 0 } [0x103, 0x203, 0x1803] (by decide) (by decide) (by decide)).1 _
    rfl⟩

end MinimalPerfectHash

end XnuTrace
