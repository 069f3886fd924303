import XnuTrace.LogStructs
import XnuTrace.Lib.BoundedLoop
import XnuTrace.Lib.CriticalFactorization
import Mathlib.Data.BitVec

/-! What `twoway_memmem` finds out about its needle before it searches: the bytes in it and their
last positions, and the place to cut it with the step to take there. A `size_t` is a `BitVec 64`,
so the index before the first one is its greatest value. A read outside an array, or of an entry
of `shift` that was not set, is `none`. -/
namespace XnuTrace
open BoundedLoop CriticalFactorization

abbrev Size := BitVec 64

/-- The tables of the needle's bytes; `shift` is not initialised. -/
structure NeedleBytes where
  byteset : Vector Size 4
  shift : Vector (Option Size) 256

namespace NeedleBytes

theorem word_lt (b : Uint8) : b.toNat / 64 < 4 := by omega

/-- The word and the bit that `BITOP` goes to. -/
def word (t : NeedleBytes) (b : Uint8) : Size := t.byteset[b.toNat / 64]
def bit (b : Uint8) : Size := 1#64 <<< (b.toNat % 64)

def empty : NeedleBytes := ⟨Vector.replicate 4 0, Vector.replicate 256 none⟩

def add (t : NeedleBytes) (i : Size) (b : Uint8) : NeedleBytes where
  byteset := t.byteset.set (b.toNat / 64) (t.word b ||| bit b) (word_lt b)
  shift := t.shift.set b.toNat (some (i + 1)) b.isLt

def has (t : NeedleBytes) (b : Uint8) : Bool := t.word b &&& bit b ≠ 0

def shiftOf (t : NeedleBytes) (b : Uint8) : Option Size := t.shift[b.toNat]

/-- Computing length of needle and fill shift table. -/
def fill (n : List Uint8) : NeedleBytes :=
  (n.foldl (fun s b => (s.1.add s.2 b, s.2 + 1)) (empty, (0 : Size))).1

end NeedleBytes

/-- The variables of the loops that compute a maximal suffix. -/
structure Suffix where
  ip : Size
  jp : Size
  k : Size
  p : Size

namespace Suffix

/-- A round of either loop: they differ in the comparison `above`. -/
def round (above : Uint8 → Uint8 → Bool) (n : List Uint8) (s : Suffix) :
    Option (Suffix ⊕ Suffix) :=
  if s.jp + s.k < BitVec.ofNat 64 n.length then do
    let a ← n[(s.ip + s.k).toNat]?
    let b ← n[(s.jp + s.k).toNat]?
    if a = b then
      if s.k = s.p then some (.inl { s with jp := s.jp + s.p, k := 1 })
      else some (.inl { s with k := s.k + 1 })
    else if above a b then
      some (.inl { s with jp := s.jp + s.k, k := 1, p := s.jp + s.k - s.ip })
    else some (.inl { ip := s.jp, jp := s.jp + 1, k := 1, p := 1 })
  else some (.inr s)

def maximal (above : Uint8 → Uint8 → Bool) (n : List Uint8) (fuel : Nat) : Option Suffix :=
  iterate (round above n) fuel ⟨-1, 0, 1, 1⟩

end Suffix

/-- `memcmp(n, n + p, count)` is not zero. -/
def memcmpDiffers (n : List Uint8) (p count : Size) : Option Bool :=
  if p.toNat + count.toNat ≤ n.length then
    some (n.take count.toNat ≠ (n.drop p.toNat).take count.toNat)
  else none

/-- Where the needle is cut, how far it moves behind a mismatch in the left half, and how many bytes
are known to match then. -/
structure Cut where
  ms : Size
  p : Size
  mem0 : Size

def maxSize (a b : Size) : Size := if a < b then b else a

def cutNeedle (n : List Uint8) (fuel : Nat) : Option Cut := do
  let l := BitVec.ofNat 64 n.length
  let s0 ← Suffix.maximal (fun a b => a > b) n fuel
  let s ← Suffix.maximal (fun a b => a < b) n fuel
  -- The shorter suffix is taken, with its own period.
  let (ms, p) := if s.ip + 1 > s0.ip + 1 then (s.ip, s.p) else (s0.ip, s0.p)
  if ← memcmpDiffers n p (ms + 1) then some ⟨ms, maxSize ms (l - ms - 1) + 1, 0⟩
  else some ⟨ms, p, l - p⟩

/-- The needle as a word. -/
def letter (n : List Uint8) (i : Nat) : Uint8 := n.getD i 0

theorem getElem?_letter {n : List Uint8} {i : Nat} (inside : i < n.length) :
    n[i]? = some (letter n i) := by
  rw [letter, List.getD_eq_getElem?_getD, List.getElem?_eq_getElem inside, Option.getD_some]

namespace NeedleBytes

theorem has_iff (t : NeedleBytes) (b : Uint8) :
    t.has b = true ↔ (t.word b).getLsbD (b.toNat % 64) = true := by
  have small : b.toNat % 64 < 64 := Nat.mod_lt _ (by decide)
  rw [has, bit, ← BitVec.twoPow_eq, BitVec.and_twoPow, decide_eq_true_iff]
  cases (t.word b).getLsbD (b.toNat % 64) with
  | false => simp
  | true =>
    have set : BitVec.twoPow 64 (b.toNat % 64) ≠ 0 := fun zero => by
      have bit := congrArg (·.getLsbD (b.toNat % 64)) zero
      simp [small] at bit
    simpa using set

theorem has_add (t : NeedleBytes) (i : Size) (b c : Uint8) :
    (t.add i b).has c = true ↔ b = c ∨ t.has c = true := by
  simp only [has_iff, word, add]
  by_cases same : b.toNat / 64 = c.toNat / 64
  · have bits : (bit b).getLsbD (c.toNat % 64) = true ↔ b = c := by
      rw [bit, ← BitVec.twoPow_eq, BitVec.getLsbD_twoPow, Bool.and_eq_true, decide_eq_true_iff,
        decide_eq_true_iff, ← BitVec.toNat_inj]
      omega
    simp only [same, Vector.getElem_set_self, BitVec.getLsbD_or, Bool.or_eq_true, bits]
    exact or_comm
  · have differ : b ≠ c := fun equal => same (congrArg (·.toNat / 64) equal)
    rw [Vector.getElem_set_ne _ _ same]
    exact (or_iff_right differ).symm

theorem shiftOf_add (t : NeedleBytes) (i : Size) (b c : Uint8) :
    (t.add i b).shiftOf c = if b = c then some (i + 1) else t.shiftOf c := by
  simp only [shiftOf, add, Vector.getElem_set, BitVec.toNat_inj]

/-- The tables say of each byte whether the needle has it, and behind which index it has it last. -/
def Describes (t : NeedleBytes) (n : List Uint8) : Prop :=
  ∀ c, (t.has c = true ↔ c ∈ n) ∧ (c ∈ n → ∃ s, t.shiftOf c = some (BitVec.ofNat 64 (s + 1)) ∧
    n[s]? = some c ∧ ∀ i, s < i → n[i]? ≠ some c)

theorem describes_fill (n : List Uint8) : (fill n).Describes n := by
  have filled : ∀ done : List Uint8, ∃ t : NeedleBytes, t.Describes done ∧
      done.foldl (fun s b => (s.1.add s.2 b, s.2 + 1)) (empty, (0 : Size)) =
        (t, BitVec.ofNat 64 done.length) := by
    intro done
    induction done using List.reverseRecOn with
    | nil =>
      refine ⟨empty, fun c => ⟨?_, fun never => absurd never List.not_mem_nil⟩, rfl⟩
      simp [has, word, empty]
    | append_singleton done b ih =>
      obtain ⟨t, describes, reached⟩ := ih
      have ends : ∀ {i : Nat}, done.length < i → ∀ c, (done ++ [b])[i]? ≠ some c := by
        intro i behind c
        have none : (done ++ [b])[i]? = none :=
          List.getElem?_eq_none (List.length_append.trans_le behind)
        exact none ▸ nofun
      refine ⟨t.add (BitVec.ofNat 64 done.length) b, fun c => ⟨?_, fun member => ?_⟩, ?_⟩
      · rw [has_add, (describes c).1, List.mem_append, List.mem_singleton, eq_comm, or_comm]
      · rw [shiftOf_add]
        by_cases last : b = c
        · subst last
          exact ⟨done.length, (if_pos rfl).trans (congrArg some (by bv_omega)), by simp,
            fun i behind => ends behind b⟩
        · have before : c ∈ done := (List.mem_append.mp member).resolve_right fun new =>
            last (List.mem_singleton.mp new).symm
          obtain ⟨s, shift, here, later⟩ := (describes c).2 before
          have inside := (List.getElem?_eq_some_iff.mp here).1
          refine ⟨s, by rw [if_neg last, shift], ?_, fun i behind => ?_⟩
          · rw [List.getElem?_append_left inside, here]
          · rcases Nat.lt_trichotomy i done.length with old | rfl | new
            · rw [List.getElem?_append_left old]
              exact later i behind
            · simpa using last
            · exact ends new c
      · rw [List.foldl_concat, reached, List.length_append]
        simp only [List.length_singleton, Prod.mk.injEq, true_and]
        bv_omega
  obtain ⟨t, describes, reached⟩ := filled n
  rw [fill, reached]
  exact describes

end NeedleBytes

instance : IsStrictOrder Uint8 (· < ·) where
  irrefl a := BitVec.lt_irrefl a
  trans _ _ _ := BitVec.lt_trans

namespace Suffix

/-- The variables for starts `i` and `j`, which the source keeps one lower. -/
def starting (i j k p : Nat) : Suffix :=
  ⟨BitVec.ofNat 64 i - 1, BitVec.ofNat 64 j - 1, BitVec.ofNat 64 k, BitVec.ofNat 64 p⟩

/-- How far the loop is from its end. -/
def left (l : Nat) (s : Suffix) : Nat :=
  2 * l + 2 - ((s.ip + 1).toNat + (s.jp + 1).toNat + s.k.toNat)

/-- The loop is at a candidate. -/
def Inv (r : Uint8 → Uint8 → Prop) (n : List Uint8) (s : Suffix) : Prop :=
  ∃ i j k p, s = starting i j k p ∧ Candidate r (letter n) n.length i j k p

/-- The loop leaves with the greatest suffix and its least period. -/
def Post (r : Uint8 → Uint8 → Prop) (n : List Uint8) (s : Suffix) : Prop :=
  ∃ q p, s.ip = BitVec.ofNat 64 q - 1 ∧ s.p = BitVec.ofNat 64 p ∧
    Greatest r (letter n) n.length q ∧ LeastPeriod (letter n) q n.length p

section
variable {r : Uint8 → Uint8 → Prop} {above : Uint8 → Uint8 → Bool} {n : List Uint8} {i j k p : Nat}

theorem left_starting {l : Nat} (small : l < 2 ^ 64) (one : 1 ≤ k) (before : i < j)
    (inside : j + k ≤ l + 1) : left l (starting i j k p) = 2 * l + 2 - (i + j + k) := by
  have ip : (BitVec.ofNat 64 i - 1#64 + 1#64).toNat = i := by bv_omega
  have jp : (BitVec.ofNat 64 j - 1#64 + 1#64).toNat = j := by bv_omega
  have k : (BitVec.ofNat 64 k).toNat = k := by bv_omega
  exact congrArg (2 * l + 2 - ·) (congrArg₂ _ (congrArg₂ _ ip jp) k)

/-- The round in the indexes of the starts. No sum wraps, but for the index before the first. -/
theorem round_starting (c : Candidate r (letter n) n.length i j k p) (small : n.length < 2 ^ 64)
    (room : j + k ≤ n.length) : round above n (starting i j k p) = some (.inl (
      if letter n (i + k - 1) = letter n (j + k - 1) then
        if k = p then starting i (j + p) 1 p else starting i j (k + 1) p
      else if above (letter n (i + k - 1)) (letter n (j + k - 1)) then
        starting i (j + k) 1 (j + k - i)
      else starting j (j + 1) 1 1)) := by
  have one := c.one_le
  have le := c.le
  have before := c.before
  have period := Nat.le_of_dvd (by omega) c.dvd
  have more : (starting i j k p).jp + (starting i j k p).k < BitVec.ofNat 64 n.length := by
    simp only [starting]
    bv_omega
  have first : ((starting i j k p).ip + (starting i j k p).k).toNat = i + k - 1 := by
    simp only [starting]
    bv_omega
  have second : ((starting i j k p).jp + (starting i j k p).k).toNat = j + k - 1 := by
    simp only [starting]
    bv_omega
  have full : (starting i j k p).k = (starting i j k p).p ↔ k = p := by
    simp only [starting]
    bv_omega
  rw [round, if_pos more, first, second, getElem?_letter (show i + k - 1 < n.length by omega),
    getElem?_letter (show j + k - 1 < n.length by omega)]
  simp only [Option.bind_eq_bind, Option.bind_some, full]
  clear more first second full
  split_ifs
  all_goals
    simp only [starting, Option.some.injEq, Sum.inl.injEq, Suffix.mk.injEq]
    refine ⟨?_, ?_, ?_, ?_⟩ <;> bv_omega

/-- One round goes from candidate to candidate. -/
theorem round_spec [IsStrictOrder Uint8 r] (orders : ∀ a b, above a b = true ↔ r b a)
    (total : ∀ a b, a ≠ b → r a b ∨ r b a) (small : n.length < 2 ^ 64) (s : Suffix)
    (inv : Inv r n s) : Leads (Inv r n) (left n.length) (Post r n) s (round above n s) := by
  obtain ⟨i, j, k, p, rfl, c⟩ := inv
  have one := c.one_le
  have le := c.le
  have before := c.before
  have inside := c.inside
  have period := Nat.le_of_dvd (by omega) c.dvd
  have goes : ∀ {i' j' k' p' : Nat}, Candidate r (letter n) n.length i' j' k' p' →
      i + j + k < i' + j' + k' → Inv r n (starting i' j' k' p') ∧
        left n.length (starting i' j' k' p') < left n.length (starting i j k p) := by
    intro i' j' k' p' c' further
    have inside' := c'.inside
    have before' := c'.before
    rw [left_starting small one before inside, left_starting small c'.one_le before' inside']
    exact ⟨⟨_, _, _, _, rfl, c'⟩, by omega⟩
  by_cases room : j + k ≤ n.length
  · rw [round_starting c small room]
    split_ifs with same full greater
    · exact goes (c.next_period room same full) (by omega)
    · exact goes (c.next_letter room same full) (by omega)
    · exact goes (c.longer_period room ((orders _ _).mp greater)) (by omega)
    · have less := (total _ _ same).resolve_right (mt (orders _ _).mpr greater)
      exact goes (c.better_start room less) (by omega)
  · have ended : ¬ (starting i j k p).jp + (starting i j k p).k < BitVec.ofNat 64 n.length := by
      simp only [starting]
      bv_omega
    rw [round, if_neg ended]
    exact ⟨i, p, rfl, rfl, c.greatest (by omega), c.leastPeriod (by omega)⟩

/-- Both loops come to their end, and leave with the greatest suffix in their order. -/
theorem maximal_spec [IsStrictOrder Uint8 r] (orders : ∀ a b, above a b = true ↔ r b a)
    (total : ∀ a b, a ≠ b → r a b ∨ r b a) (small : n.length < 2 ^ 64) (nonempty : 0 < n.length)
    {fuel : Nat} (enough : 2 * n.length < fuel) :
    ∃ s, maximal above n fuel = some s ∧ Post r n s := by
  have start : (⟨-1, 0, 1, 1⟩ : Suffix) = starting 0 1 1 1 := rfl
  rw [maximal, start]
  have c := Candidate.start (r := r) (w := letter n) nonempty
  refine iterate_spec (round_spec orders total small) ⟨0, 1, 1, 1, rfl, c⟩ ?_
  rw [left_starting small le_rfl Nat.one_pos (by omega)]
  omega

end

end Suffix

theorem total_lt (a b : Uint8) (differ : a ≠ b) : a < b ∨ b < a := by
  have := mt BitVec.eq_of_toNat_eq differ
  bv_omega

/-- The first loop leaves with the greatest suffix in the order of the bytes and the second one with
the greatest in the opposite order, each with its least period; neither reads outside the needle. -/
theorem Suffix.maximal_both {n : List Uint8} (nonempty : n ≠ []) (small : n.length < 2 ^ 64)
    {fuel : Nat} (enough : 2 * n.length < fuel) :
    (∃ s, Suffix.maximal (fun a b => a > b) n fuel = some s ∧ Suffix.Post (· < ·) n s) ∧
    ∃ s, Suffix.maximal (fun a b => a < b) n fuel = some s ∧
      Suffix.Post (Function.swap (· < ·)) n s := by
  have pos := List.length_pos_iff.mpr nonempty
  constructor
  · exact Suffix.maximal_spec (fun a b => decide_eq_true_iff) total_lt small pos enough
  · exact Suffix.maximal_spec (fun a b => decide_eq_true_iff)
      (fun a b differ => total_lt b a differ.symm) small pos enough

theorem Suffix.maximal_both_abab :
    (∃ s, Suffix.maximal (fun a b => a > b) [97, 98, 97, 98] 9 = some s ∧
      Suffix.Post (· < ·) [97, 98, 97, 98] s) ∧
    ∃ s, Suffix.maximal (fun a b => a < b) [97, 98, 97, 98] 9 = some s ∧
      Suffix.Post (Function.swap (· < ·)) [97, 98, 97, 98] s :=
  Suffix.maximal_both (List.cons_ne_nil _ _) (by decide) (by decide)

/-- The cut is before `q`: what is repeated there is a period, and the step `p` does not go over
one. If bytes are known to match behind the step, then because `p` is a period itself. -/
structure CutAt (n : List Uint8) (c : Cut) (q p mem0 : Nat) : Prop where
  is : c = ⟨BitVec.ofNat 64 q - 1, BitVec.ofNat 64 p, BitVec.ofNat 64 mem0⟩
  inside : q < n.length
  pos : 0 < p
  le : p ≤ n.length
  critical : ∀ d, 0 < d → Repeats (letter n) n.length q d →
    q < d ∧ Periodic (letter n) 0 n.length d ∧ p ≤ d
  known : mem0 = 0 ∨ mem0 = n.length - p ∧ q < p ∧ Periodic (letter n) 0 n.length p

section
variable {n : List Uint8} {q q' p : Nat}

theorem take_eq_iff (fits : q + p ≤ n.length) :
    n.take q = (n.drop p).take q ↔ ∀ i < q, letter n i = letter n (i + p) := by
  have left : ∀ i < q, (n.take q)[i]? = some (letter n i) := by
    intro i before
    rw [List.getElem?_take_of_lt before, getElem?_letter (by omega)]
  have right : ∀ i < q, ((n.drop p).take q)[i]? = some (letter n (i + p)) := by
    intro i before
    rw [List.getElem?_take_of_lt before, List.getElem?_drop, Nat.add_comm,
      getElem?_letter (by omega)]
  constructor
  · intro same i before
    exact Option.some.inj ((left i before).symm.trans (same ▸ right i before))
  · intro same
    refine List.ext_getElem? fun i => ?_
    by_cases before : i < q
    · rw [left i before, right i before, same i before]
    · rw [List.getElem?_eq_none (by rw [List.length_take]; omega),
        List.getElem?_eq_none (by rw [List.length_take]; omega)]

/-- `memcmp` stays in the needle, and tells whether the suffix's period is one of the needle. -/
theorem memcmpDiffers_spec (small : n.length < 2 ^ 64)
    (least : LeastPeriod (letter n) q n.length p) :
    ∃ differs, memcmpDiffers n (BitVec.ofNat 64 p) (BitVec.ofNat 64 q - 1 + 1) = some differs ∧
      (differs = true ↔ ¬ Periodic (letter n) 0 n.length p) := by
  have fits := least.inside
  have count : (BitVec.ofNat 64 q - 1 + 1).toNat = q := by bv_omega
  have from' : (BitVec.ofNat 64 p).toNat = p := by bv_omega
  rw [memcmpDiffers, count, from', if_pos (by omega)]
  refine ⟨_, rfl, ?_⟩
  rw [decide_eq_true_iff, not_iff_not, take_eq_iff fits]
  constructor
  · intro same i _ inside
    by_cases before : i < q
    · exact same i before
    · exact least.periodic i (by omega) inside
  · intro periodic i before
    exact periodic i (Nat.zero_le i) (by omega)

theorem maxSize_add_one (small : n.length < 2 ^ 64) (inside : q < n.length) (front : 0 < q) :
    maxSize (BitVec.ofNat 64 q - 1) (BitVec.ofNat 64 n.length - (BitVec.ofNat 64 q - 1) - 1) + 1 =
      BitVec.ofNat 64 (max q (n.length - q + 1)) := by
  rw [maxSize]
  split_ifs <;> bv_omega

/-- The needle is cut before the shorter one of its greatest suffixes. -/
theorem exists_cutAt {r : Uint8 → Uint8 → Prop} [IsStrictOrder Uint8 r] (small : n.length < 2 ^ 64)
    (max : Greatest r (letter n) n.length q)
    (max' : Greatest (Function.swap r) (letter n) n.length q')
    (shorter : q' ≤ q) (least : LeastPeriod (letter n) q n.length p) {ms step : Size}
    (isMs : ms = BitVec.ofNat 64 q - 1) (isStep : step = BitVec.ofNat 64 p) :
    ∃ differs c, memcmpDiffers n step (ms + 1) = some differs ∧
      (if differs then some ⟨ms, maxSize ms (BitVec.ofNat 64 n.length - ms - 1) + 1, 0⟩
        else some ⟨ms, step, BitVec.ofNat 64 n.length - step⟩) = some c ∧
      ∃ p mem0, CutAt n c q p mem0 := by
  subst isMs isStep
  have fits := least.inside
  have critical : ∀ d, 0 < d → Repeats (letter n) n.length q d →
      q < d ∧ Periodic (letter n) 0 n.length d := fun d pos repeated =>
    ⟨repeated.longer max pos, repeated.periodic max max' shorter pos⟩
  obtain ⟨differs, compared, tells⟩ := memcmpDiffers_spec small least
  refine ⟨differs, ?_⟩
  cases differs with
  | true =>
    have aperiodic := tells.mp rfl
    have front : 0 < q := by
      refine Nat.pos_of_ne_zero fun zero => aperiodic ?_
      exact zero ▸ least.periodic
    have longer : ∀ d, 0 < d → Periodic (letter n) 0 n.length d → n.length - q < d :=
      fun d pos periodic => periodic.longer max max' shorter least aperiodic pos
    refine ⟨_, compared, rfl, Nat.max q (n.length - q + 1), 0, ?_, max.inside, ?_, ?_, ?_, .inl rfl⟩
    · rw [maxSize_add_one small max.inside front]
      rfl
    · exact front.trans_le (Nat.le_max_left ..)
    · exact Nat.max_le.mpr ⟨max.inside.le, by omega⟩
    · intro d pos repeated
      obtain ⟨behind, periodic⟩ := critical d pos repeated
      exact ⟨behind, periodic, Nat.max_le.mpr ⟨behind.le, longer d pos periodic⟩⟩
  | false =>
    have periodic : Periodic (letter n) 0 n.length p := by
      by_contra aperiodic
      exact Bool.noConfusion (tells.mpr aperiodic)
    have cut : q < p := by
      refine Repeats.longer max least.pos fun i _ _ inside => ?_
      exact periodic i (Nat.zero_le i) inside
    refine ⟨_, compared, rfl, p, n.length - p, ?_, max.inside, least.pos, by omega, ?_,
      .inr ⟨rfl, cut, periodic⟩⟩
    · have rest : BitVec.ofNat 64 n.length - BitVec.ofNat 64 p =
          BitVec.ofNat 64 (n.length - p) := by bv_omega
      exact congrArg (Cut.mk _ _) rest
    · intro d pos repeated
      obtain ⟨behind, period⟩ := critical d pos repeated
      refine ⟨behind, period, Nat.not_lt.mp fun short => ?_⟩
      exact least.least d pos short (period.mono (Nat.zero_le q) le_rfl)

theorem cutNeedle_spec (small : n.length < 2 ^ 64) (nonempty : 0 < n.length) {fuel : Nat}
    (enough : 2 * n.length < fuel) :
    ∃ c q p mem0, cutNeedle n fuel = some c ∧ CutAt n c q p mem0 := by
  obtain ⟨s0, ran0, q0, p0, ip0, step0, max0, least0⟩ :=
    @Suffix.maximal_spec (· < ·) (fun a b => a > b) _ _ (fun a b => decide_eq_true_iff) total_lt
      small nonempty _ enough
  obtain ⟨s, ran, q, p, ip, step, max, least⟩ :=
    @Suffix.maximal_spec (Function.swap (· < ·)) (fun a b => a < b) _ _
      (fun a b => decide_eq_true_iff) (fun a b differ => total_lt b a differ.symm) small nonempty
      _ enough
  have inside := max.inside
  have inside0 := max0.inside
  have compare : s.ip + 1 > s0.ip + 1 ↔ q0 < q := by
    rw [ip, ip0]
    bv_omega
  simp only [cutNeedle, ran0, ran, Option.bind_eq_bind, Option.bind_some, compare]
  by_cases later : q0 < q
  · obtain ⟨differs, c, compared, result, p, mem0, cut⟩ :=
      exists_cutAt small max max0 later.le least ip step
    refine ⟨c, q, p, mem0, ?_, cut⟩
    simp only [if_pos later, compared, Option.bind_some]
    exact result
  · obtain ⟨differs, c, compared, result, p, mem0, cut⟩ :=
      exists_cutAt small max0 max (Nat.not_lt.mp later) least0 ip0 step0
    refine ⟨c, q0, p, mem0, ?_, cut⟩
    simp only [if_neg later, compared, Option.bind_some]
    exact result

end

end XnuTrace
