import XnuTrace.LogStructs
import XnuTrace.Lib.Occurrences

/-! `chunk_into_bins_by_needle`: each chunk of a haystack is searched by a task of its own, and a
task looks only at the bytes of its chunk. A pointer is an offset, null is `none`. -/
namespace XnuTrace
open Occurrences

/-- `twoway_memmem`, which is called with a needle of two bytes or more that is not longer than
the haystack, and then finds the first occurrence. -/
structure TwowayMemmem where
  search : List Uint8 → List Uint8 → Option Nat
  finds : ∀ haystack needle, 2 ≤ needle.length → needle.length ≤ haystack.length →
    First (Occurs haystack needle) (search haystack needle)

def horspoolMemmem (twoway : TwowayMemmem) (haystack needle : List Uint8) : Option Nat :=
  match needle with
  | [] => some 0
  | n :: rest =>
    if haystack.length < (n :: rest).length then none
    else do
      -- `memchr` goes to the first byte of the needle.
      let h ← haystack.findIdx? (· == n)
      if (n :: rest).length = 1 then some h
      else if (haystack.drop h).length < (n :: rest).length then none
      else (twoway.search (haystack.drop h) (n :: rest)).map (h + ·)

/-- The intervals in order from `a` to `b`. -/
def Adjoining : Nat → Nat → List (Nat × Nat) → Prop
  | a, b, [] => a = b
  | a, b, block :: blocks => block.1 = a ∧ a ≤ block.2 ∧ Adjoining block.2 b blocks

/-- `BS::blocks` of the indexes below `sz`, with `n` blocks asked for. -/
structure Blocks (n sz : Nat) where
  bounds : List (Nat × Nat)
  few : bounds.length ≤ n
  consecutive : Adjoining 0 sz bounds

namespace Blocks
variable {n sz : Nat} (blks : Blocks n sz)

def numBlocks : Nat := blks.bounds.length
def first (i : Nat) : Nat := (blks.bounds.getD i (0, 0)).1
def last (i : Nat) : Nat := (blks.bounds.getD i (0, 0)).2

end Blocks

/-- The tasks, in the order in which the threads of the pool come to them. -/
def parallelizeIndexedLoop {n sz : Nat} (blks : Blocks n sz) (order : List Nat)
    (loop : Nat → Nat → Nat → S → S) (s : S) : S :=
  if sz = 0 then s else order.foldl (fun s i => loop i (blks.first i) (blks.last i) s) s

def chunkIntoBinsByNeedle (twoway : TwowayMemmem) {n : Nat} (haystack needle : List Uint8)
    (blks : Blocks n haystack.length) (order : List Nat) : List (Option Nat) :=
  parallelizeIndexedLoop blks order (fun i a b res =>
    let subHaystack := (haystack.drop a).take (b - a)
    res.set i ((horspoolMemmem twoway subHaystack needle).map (a + ·))) (List.replicate n none)

/-- An occurrence at `p` starts in chunk `i`. -/
def StartsInChunk {n : Nat} (haystack needle : List Uint8) (blks : Blocks n haystack.length)
    (i p : Nat) : Prop :=
  i < blks.numBlocks ∧ StartsIn haystack needle (blks.first i) (blks.last i) p

/-- Each entry is the first occurrence that starts in its chunk, null if none does. -/
def MissesNothing (twoway : TwowayMemmem) {n : Nat} (haystack needle : List Uint8)
    (blks : Blocks n haystack.length) (order : List Nat) : Prop :=
  ∀ i < n, ∃ entry, (chunkIntoBinsByNeedle twoway haystack needle blks order)[i]? = some entry ∧
    First (StartsInChunk haystack needle blks i) entry ∧
    (entry = none ↔ ∀ p, ¬ StartsInChunk haystack needle blks i p)

/-- The first occurrence that starts in a chunk does not run over its end. -/
def NoneCrosses {n : Nat} (haystack needle : List Uint8) (blks : Blocks n haystack.length) : Prop :=
  ∀ i < blks.numBlocks, ∀ p,
    IsLeast {q | StartsIn haystack needle (blks.first i) (blks.last i) q} p →
      p + needle.length ≤ blks.last i

/-- `horspool_memmem` returns the first occurrence in its range. -/
theorem first_horspoolMemmem (twoway : TwowayMemmem) (haystack : List Uint8) {needle : List Uint8}
    (nonempty : needle ≠ []) : First (Occurs haystack needle) (horspoolMemmem twoway haystack needle) := by
  obtain ⟨n, rest, rfl⟩ := List.exists_cons_of_ne_nil nonempty
  rw [horspoolMemmem]
  split
  · rename_i short
    exact first_none fun p occurs => absurd (Occurs.inside occurs nonempty) (by omega)
  · rename_i long
    cases found : haystack.findIdx? (· == n) with
    | none =>
      refine first_none fun p occurs => ?_
      have differs := List.findIdx?_eq_none_iff.mp found n (List.mem_of_getElem? occurs.front)
      simp at differs
    | some h =>
      obtain ⟨inside, same, before⟩ := List.findIdx?_eq_some_iff_getElem.mp found
      have notBefore : ∀ p < h, ¬ Occurs haystack (n :: rest) p := by
        intro p early occurs
        obtain ⟨_, front⟩ := List.getElem?_eq_some_iff.mp occurs.front
        exact before p early (beq_iff_eq.mpr front)
      have shift : ∀ {found}, First (Occurs (haystack.drop h) (n :: rest)) found →
          First (Occurs haystack (n :: rest)) (found.map (h + ·)) := fun first =>
        first.shift notBefore fun p => occurs_add h
      simp only [Option.bind_eq_bind, Option.bind_some]
      split
      · rename_i single
        obtain rfl := List.length_eq_zero_iff.mp (Nat.succ_injective single)
        have here : Occurs (haystack.drop h) [n] 0 := by
          refine ⟨haystack.drop (h + 1), ?_⟩
          rw [List.drop_zero, List.drop_eq_getElem_cons inside, beq_iff_eq.mp same]
          rfl
        exact shift (first_zero here)
      · split
        · rename_i short
          exact shift (first_none fun p occurs => absurd (Occurs.inside occurs nonempty) (by omega))
        · rename_i several short
          have two : 2 ≤ (n :: rest).length := by
            have := List.length_pos_iff.mpr nonempty
            omega
          exact shift (twoway.finds _ _ two (Nat.not_lt.mp short))

theorem getElem?_foldl_set (f : Nat → β) (order : List Nat) {res : List β} {i : Nat}
    (inside : i < res.length) : (order.foldl (fun res j => res.set j (f j)) res)[i]? =
      if i ∈ order then some (f i) else res[i]? := by
  induction order generalizing res with
  | nil => rfl
  | cons j order ih =>
    rw [List.foldl_cons, ih (List.length_set.symm ▸ inside)]
    by_cases later : i ∈ order
    · rw [if_pos later, if_pos (.tail _ later)]
    · rw [if_neg later]
      by_cases now : i = j
      · subst now
        rw [if_pos (.head _), List.getElem?_set_self inside]
      · have never : i ∉ j :: order := fun member => (List.mem_cons.mp member).elim now later
        rw [if_neg never, List.getElem?_set_ne (Ne.symm now)]

section
variable {n : Nat} {haystack needle : List Uint8} {blks : Blocks n haystack.length}
  {order : List Nat}

/-- What the task of a chunk finds. -/
def chunkEntry (twoway : TwowayMemmem) (needle : List Uint8) (blks : Blocks n haystack.length)
    (i : Nat) : Option Nat :=
  (horspoolMemmem twoway ((haystack.drop (blks.first i)).take (blks.last i - blks.first i))
    needle).map (blks.first i + ·)

/-- In whatever order the tasks run, each chunk has the entry of its own task. -/
theorem getElem?_chunkIntoBinsByNeedle (twoway : TwowayMemmem) (nonempty : needle ≠ [])
    (each : order.Perm (List.range blks.numBlocks)) {i : Nat} (inside : i < n) :
    (chunkIntoBinsByNeedle twoway haystack needle blks order)[i]? =
      some (if i < blks.numBlocks then chunkEntry twoway needle blks i else none) := by
  have unset : (List.replicate n (none : Option Nat))[i]? = some none :=
    List.getElem?_replicate_of_lt inside
  rw [chunkIntoBinsByNeedle, parallelizeIndexedLoop]
  by_cases empty : haystack.length = 0
  · obtain rfl := List.length_eq_zero_iff.mp empty
    have nothing : chunkEntry twoway needle blks i = none := by
      rw [chunkEntry, Option.map_eq_none_iff, (first_horspoolMemmem twoway _ nonempty).none_iff]
      intro p occurs
      have fits := Occurs.inside occurs nonempty
      rw [List.drop_nil, List.take_nil, List.length_nil] at fits
      exact nonempty (List.length_eq_zero_iff.mp (by omega))
    rw [if_pos empty, unset, nothing, ite_self]
  · rw [if_neg empty]
    refine (getElem?_foldl_set (chunkEntry twoway needle blks) order
      (List.length_replicate.symm ▸ inside)).trans ?_
    rw [unset]
    have task : i ∈ order ↔ i < blks.numBlocks := each.mem_iff.trans List.mem_range
    by_cases block : i < blks.numBlocks
    · rw [if_pos (task.mpr block), if_pos block]
    · rw [if_neg (mt task.mp block), if_neg block]

/-- A pointer that is not null points to an occurrence. -/
theorem occurs_of_chunkIntoBinsByNeedle (twoway : TwowayMemmem) (nonempty : needle ≠ [])
    (each : order.Perm (List.range blks.numBlocks)) {i p : Nat} (inside : i < n)
    (found : (chunkIntoBinsByNeedle twoway haystack needle blks order)[i]? = some (some p)) :
    Occurs haystack needle p := by
  rw [getElem?_chunkIntoBinsByNeedle twoway nonempty each inside, Option.some.injEq] at found
  split at found
  · rw [chunkEntry] at found
    obtain ⟨q, searched, rfl⟩ := Option.map_eq_some_iff.mp found
    have least := (first_horspoolMemmem twoway _ nonempty q).mp searched
    exact ((occurs_window nonempty).mp least.1).1
  · cases found

/-- Each chunk's first occurrence is found exactly where no first occurrence runs over the end of
its chunk. -/
theorem missesNothing_iff (twoway : TwowayMemmem) (nonempty : needle ≠ [])
    (each : order.Perm (List.range blks.numBlocks)) :
    MissesNothing twoway haystack needle blks order ↔ NoneCrosses haystack needle blks := by
  have entries : MissesNothing twoway haystack needle blks order ↔ ∀ i < n,
      First (StartsInChunk haystack needle blks i)
        (if i < blks.numBlocks then chunkEntry twoway needle blks i else none) := by
    refine forall₂_congr fun i inside => ?_
    rw [getElem?_chunkIntoBinsByNeedle twoway nonempty each inside]
    constructor
    · rintro ⟨_, ⟨⟩, first, -⟩
      exact first
    · intro first
      exact ⟨_, rfl, first, first.none_iff⟩
  have chunk : ∀ i < blks.numBlocks, (First (StartsInChunk haystack needle blks i)
      (chunkEntry twoway needle blks i) ↔ ∀ p,
        IsLeast {q | StartsIn haystack needle (blks.first i) (blks.last i) q} p →
          p + needle.length ≤ blks.last i) := by
    intro i block
    have same : StartsInChunk haystack needle blks i =
        StartsIn haystack needle (blks.first i) (blks.last i) :=
      funext fun p => propext (and_iff_right block)
    rw [same]
    exact first_window_iff nonempty (first_horspoolMemmem twoway _ nonempty)
  rw [entries]
  constructor
  · intro first i block
    have entry := first i (block.trans_le blks.few)
    rw [if_pos block] at entry
    exact (chunk i block).mp entry
  · intro fits i inside
    by_cases block : i < blks.numBlocks
    · rw [if_pos block]
      exact (chunk i block).mpr (fits i block)
    · rw [if_neg block]
      exact first_none fun p starts => block starts.1

end

def everyPosition : TwowayMemmem where
  search := firstOccurrence
  finds _ _ long _ := first_firstOccurrence <| List.length_pos_iff.mp (two_pos.trans_le long)

def halves (half : Nat) : Blocks 2 (half + half) where
  bounds := [(0, half), (half, half + half)]
  few := le_rfl
  consecutive := ⟨rfl, Nat.zero_le _, rfl, Nat.le_add_right .., rfl⟩

theorem missesNothing_iff_halves :
    MissesNothing everyPosition [1, 2, 1, 2] [1, 2] (halves 2) [1, 0] ↔
      NoneCrosses [1, 2, 1, 2] [1, 2] (halves 2) :=
  missesNothing_iff everyPosition (List.cons_ne_nil _ _) (by decide)

/-- The haystack is the needle, cut in two. -/
theorem not_missesNothing_halves :
    ¬ MissesNothing everyPosition [1, 2] [1, 2] (halves 1) [0, 1] := by
  intro misses
  obtain ⟨entry, found, first, -⟩ := misses 0 (by decide)
  have null : (chunkIntoBinsByNeedle everyPosition [1, 2] [1, 2] (halves 1) [0, 1])[0]? =
      some none := by decide
  cases null.symm.trans found
  have starts : StartsInChunk [1, 2] [1, 2] (halves 1) 0 0 :=
    ⟨by decide, ⟨by decide, by decide⟩, by decide⟩
  cases (first 0).mpr ⟨starts, fun p _ => Nat.zero_le p⟩

end XnuTrace
