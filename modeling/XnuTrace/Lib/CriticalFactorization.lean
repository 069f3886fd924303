import Mathlib.Order.Nat
import Mathlib.Order.RelClasses

/-! Words, their periods and their greatest suffixes. Where a word is cut before the shorter of its
greatest suffixes under an order and under the opposite one, whatever is repeated at the cut is a
period of the whole word. A greatest suffix and its least period are found in one pass. -/
namespace CriticalFactorization

variable {α : Type} (r : α → α → Prop) (w : Nat → α) (l : Nat)

/-- The letters from `a` to `b` come again after `p` letters. -/
def Periodic (a b p : Nat) : Prop := ∀ i, a ≤ i → i + p < b → w i = w (i + p)

structure LeastPeriod (a b p : Nat) : Prop where
  pos : 0 < p
  inside : a + p ≤ b
  periodic : Periodic w a b p
  least : ∀ e, 0 < e → e < p → ¬ Periodic w a b e

/-- The last `d` letters before the cut come again after `d` letters, as far as there are any. -/
def Repeats (cut d : Nat) : Prop := ∀ i < cut, cut ≤ i + d → i + d < l → w i = w (i + d)

/-- The suffix at `a` comes before the one at `b` in the lexicographic order. -/
def Below (a b : Nat) : Prop :=
  ∃ d, (∀ t < d, w (a + t) = w (b + t)) ∧ b + d < l ∧
    (a + d = l ∨ a + d < l ∧ r (w (a + d)) (w (b + d)))

/-- The suffix at `q` is the greatest of those that are not empty. -/
structure Greatest (q : Nat) : Prop where
  inside : q < l
  greatest : ∀ a < l, a ≠ q → Below r w l a q

/-- The pass has come to the letter before `j + k`: `i` is the best start so far, and from there the
word has the period `p`. -/
structure Candidate (i j k p : Nat) : Prop where
  one_le : 1 ≤ k
  le : k ≤ p
  before : i < j
  dvd : p ∣ j - i
  inside : j + k ≤ l + 1
  periodic : Periodic w i (j + k - 1) p
  earlier : ∀ a < i, Below r w l a i
  lower : ∀ e, 0 < e → e < p → ∃ d, e + d < p ∧ (∀ t < d, w (i + e + t) = w (i + t)) ∧
    r (w (i + e + d)) (w (i + d))

variable {r w l}

theorem Periodic.of_dvd {a b p e : Nat} (periodic : Periodic w a b p) (multiple : p ∣ e) :
    Periodic w a b e := by
  obtain ⟨m, rfl⟩ := multiple
  induction m with
  | zero => exact fun i _ _ => rfl
  | succ m ih =>
    intro i behind inside
    rw [Nat.mul_succ] at inside ⊢
    have last : w (i + p * m) = w (i + p * m + p) := periodic _ (by omega) (by omega)
    exact (ih i behind (by omega)).trans (Nat.add_assoc .. ▸ last)

theorem Periodic.mono {a b a' b' p : Nat} (periodic : Periodic w a b p) (from_le : a ≤ a')
    (to_le : b' ≤ b) : Periodic w a' b' p := fun i behind inside =>
  periodic i (from_le.trans behind) (inside.trans_le to_le)

section
variable [IsStrictOrder α r]

theorem Below.trans {a b c : Nat} (first : Below r w l a b) (second : Below r w l b c) :
    Below r w l a c := by
  obtain ⟨d, same, inside, lower⟩ := first
  obtain ⟨e, same', inside', lower'⟩ := second
  rcases Nat.lt_trichotomy d e with less | rfl | less
  · refine ⟨d, fun t small => (same t small).trans (same' t (small.trans less)), by omega, ?_⟩
    exact lower.imp_right fun ⟨short, order⟩ => ⟨short, same' d less ▸ order⟩
  · refine ⟨d, fun t small => (same t small).trans (same' t small), inside', ?_⟩
    rcases lower' with ends | ⟨-, order'⟩
    · omega
    · exact lower.imp_right fun ⟨short, order⟩ => ⟨short, trans_of r order order'⟩
  · have short : b + e < l := by omega
    refine ⟨e, fun t small => (same t (small.trans less)).trans (same' t small), inside', ?_⟩
    rcases lower' with ends | ⟨-, order'⟩
    · omega
    · exact .inr ⟨by omega, same e less ▸ order'⟩

theorem Below.asymm {a b : Nat} (first : Below r w l a b) (second : Below r w l b a) : False := by
  obtain ⟨d, same, inside, lower⟩ := first
  obtain ⟨e, same', inside', lower'⟩ := second
  rcases Nat.lt_trichotomy d e with less | rfl | less
  · rcases lower with ends | ⟨-, order⟩
    · omega
    · exact irrefl_of r _ (same' d less ▸ order)
  · rcases lower with ends | ⟨-, order⟩
    · omega
    · rcases lower' with ends | ⟨-, order'⟩
      · omega
      · exact asymm_of r order order'
  · rcases lower' with ends | ⟨-, order'⟩
    · omega
    · exact irrefl_of r _ (same e less ▸ order')

/-- What is repeated at the cut is longer than the part before it. -/
theorem Repeats.longer {q d : Nat} (max : Greatest r w l q) (pos : 0 < d)
    (repeated : Repeats w l q d) : q < d := by
  by_contra short
  obtain ⟨a, rfl⟩ := Nat.exists_eq_add_of_le' (Nat.not_lt.mp short)
  obtain ⟨e, same, inside, lower⟩ := max.greatest a (by have := max.inside; omega) (by omega)
  obtain ⟨-, order⟩ := lower.resolve_left (by omega)
  rcases Nat.lt_or_ge e d with early | late
  · -- The suffixes differ in a letter that is repeated.
    have again := repeated (a + e) (by omega) (by omega) (by omega)
    rw [again, show a + e + d = a + d + e by omega] at order
    exact irrefl_of r _ order
  · -- Behind the repeated letters the greatest suffix is compared with a shorter one.
    obtain ⟨g, rfl⟩ := Nat.exists_eq_add_of_le late
    have behind := max.greatest (a + d + d) (by omega) (by omega)
    refine Below.asymm behind ⟨g, ?_, by omega, .inr ?_⟩
    · intro t small
      have := same (d + t) (by omega)
      rwa [← Nat.add_assoc, ← Nat.add_assoc] at this
    · rw [← Nat.add_assoc, ← Nat.add_assoc] at order
      exact ⟨by omega, order⟩

/-- Where the word is cut before the shorter of the two greatest suffixes, what is repeated at the
cut is a period of the word. -/
theorem Repeats.periodic {q q' d : Nat} (max : Greatest r w l q)
    (max' : Greatest (Function.swap r) w l q') (shorter : q' ≤ q) (pos : 0 < d)
    (repeated : Repeats w l q d) : Periodic w 0 l d := by
  have longer := repeated.longer max pos
  intro i _ inside
  by_cases front : i < q
  · exact repeated i front (by omega) inside
  · by_contra differs
    -- The suffix `d` letters behind the cut is below the one at the cut in both orders.
    obtain ⟨e, same, short, lower⟩ := max.greatest (q + d) (by omega) (by omega)
    obtain ⟨f, same', short', lower'⟩ := max'.greatest (q' + d) (by omega) (by omega)
    have agree : ∀ t, q ≤ t → t < q + e → w t = w (t + d) := by
      intro t behind before
      obtain ⟨s, rfl⟩ := Nat.exists_eq_add_of_le behind
      rw [show q + s + d = q + d + s by omega]
      exact (same s (by omega)).symm
    have agree' : ∀ t, q' ≤ t → t < q' + f → w t = w (t + d) := by
      intro t behind before
      obtain ⟨s, rfl⟩ := Nat.exists_eq_add_of_le behind
      rw [show q' + s + d = q' + d + s by omega]
      exact (same' s (by omega)).symm
    have first : ¬ i < q + e := fun early => differs (agree i (by omega) early)
    obtain ⟨-, order⟩ := lower.resolve_left (by omega)
    rw [show q + d + e = q + e + d by omega] at order
    rcases Nat.lt_trichotomy (q' + f) (q + e) with less | equal | less
    · obtain ⟨-, order'⟩ := lower'.resolve_left (by omega)
      rw [show q' + d + f = q' + f + d by omega] at order'
      have again : w (q' + f) = w (q' + f + d) := by
        by_cases before : q' + f < q
        · exact repeated _ before (by omega) (by omega)
        · exact agree _ (by omega) less
      rw [again] at order'
      exact irrefl_of r _ order'
    · obtain ⟨-, order'⟩ := lower'.resolve_left (by omega)
      rw [show q' + d + f = q' + f + d by omega, equal] at order'
      exact asymm_of r order order'
    · rw [agree' (q + e) (by omega) less] at order
      exact irrefl_of r _ order

/-- If the least period of the suffix behind the cut is not a period of the word, then each period
of the word is longer than this suffix. -/
theorem Periodic.longer {q q' p d : Nat} (max : Greatest r w l q)
    (max' : Greatest (Function.swap r) w l q') (shorter : q' ≤ q) (least : LeastPeriod w q l p)
    (aperiodic : ¬ Periodic w 0 l p) (pos : 0 < d) (periodic : Periodic w 0 l d) : l - q < d := by
  by_contra short
  -- What is left of `d` beside multiples of the least period is repeated at the cut.
  have remainder : ∀ e, p ∣ d - e → e ≤ d → Repeats w l q e := by
    intro e multiple small i before behind inside
    have around : w i = w (i + d) := periodic i (Nat.zero_le _) (by omega)
    rw [around, show i + d = i + e + (d - e) by omega]
    exact (least.periodic.of_dvd multiple (i + e) behind (by omega)).symm
  have split := Nat.mod_add_div d p
  have small := Nat.mod_lt d least.pos
  rcases Nat.eq_zero_or_pos (d % p) with whole | rest
  · have multiple : p ∣ d := Nat.dvd_of_mod_eq_zero whole
    have rest : p ∣ d - p := Nat.dvd_sub multiple (Nat.dvd_refl p)
    have repeated := remainder p rest (Nat.le_of_dvd pos multiple)
    exact aperiodic (repeated.periodic max max' shorter least.pos)
  · have repeated := remainder (d % p) (Nat.dvd_sub_mod d) (Nat.mod_le d p)
    have periodic := repeated.periodic max max' shorter rest
    exact least.least _ rest small (periodic.mono (Nat.zero_le _) le_rfl)

end

section
variable {i j k p : Nat}

theorem Candidate.start (nonempty : 0 < l) : Candidate r w l 0 1 1 1 where
  one_le := le_rfl
  le := le_rfl
  before := Nat.one_pos
  dvd := Nat.dvd_refl 1
  inside := by omega
  periodic := fun i _ inside => absurd inside (by omega)
  earlier := fun a early => absurd early (Nat.not_lt_zero a)
  lower := fun e pos small => absurd small (by omega)

/-- What has been read of two suffixes that start whole periods apart is the same. -/
theorem Candidate.aligned (c : Candidate r w l i j k p) {a : Nat} (behind : i ≤ a)
    (multiple : p ∣ a - i) {t : Nat} (read : a + t + 1 < j + k) : w (a + t) = w (i + t) := by
  have same := c.periodic.of_dvd multiple (i + t) (by omega) (by omega)
  rw [same]
  congr 1
  omega

theorem Candidate.period_pos (c : Candidate r w l i j k p) : 0 < p := c.one_le.trans c.le

/-- The letters that the pass compares are a period apart. -/
theorem Candidate.compared (c : Candidate r w l i j k p) :
    w (j + k - 1 - p) = w (i + k - 1) := by
  have := Nat.le_of_dvd (by have := c.before; omega) c.dvd
  have := c.before
  have := c.one_le
  have := c.period_pos
  have multiple : p ∣ j - p - i := by
    rw [Nat.sub_right_comm]
    exact Nat.dvd_sub c.dvd (Nat.dvd_refl p)
  have aligned := c.aligned (a := j - p) (t := k - 1) (by omega) multiple (by omega)
  rw [show j + k - 1 - p = j - p + (k - 1) by omega, aligned]
  congr 1
  omega

theorem Candidate.extend (c : Candidate r w l i j k p)
    (same : w (i + k - 1) = w (j + k - 1)) : Periodic w i (j + k) p := by
  intro t behind inside
  by_cases last : t + p = j + k - 1
  · have compared := c.compared
    rw [← last, Nat.add_sub_cancel] at compared
    rw [compared, same, last]
  · exact c.periodic t behind (by omega)

theorem Candidate.next_period (c : Candidate r w l i j k p) (more : j + k ≤ l)
    (same : w (i + k - 1) = w (j + k - 1)) (full : k = p) :
    Candidate r w l i (j + p) 1 p where
  one_le := le_rfl
  le := c.period_pos
  before := by have := c.before; omega
  dvd := by
    have := c.before
    rw [show j + p - i = j - i + p by omega]
    exact Nat.dvd_add c.dvd (Nat.dvd_refl p)
  inside := by omega
  periodic := (c.extend same).mono le_rfl (by omega)
  earlier := c.earlier
  lower := c.lower

theorem Candidate.next_letter (c : Candidate r w l i j k p) (more : j + k ≤ l)
    (same : w (i + k - 1) = w (j + k - 1)) (part : k ≠ p) :
    Candidate r w l i j (k + 1) p where
  one_le := by omega
  le := by have := c.le; omega
  before := c.before
  dvd := c.dvd
  inside := by omega
  periodic := c.extend same
  earlier := c.earlier
  lower := c.lower

/-- Behind the best start, each suffix is below it as far as it has been read, or is the same and
its next letter stands against one that is not below the letter after the best start. -/
theorem Candidate.behind (c : Candidate r w l i j k p) {e : Nat} (pos : 0 < e)
    (read : i + e < j + k) :
    (∃ d, i + e + d + 1 < j + k ∧ (∀ t < d, w (i + e + t) = w (i + t)) ∧
      r (w (i + e + d)) (w (i + d))) ∨
    ((∀ t, i + e + t + 1 < j + k → w (i + e + t) = w (i + t)) ∧
      (w (j + k - 1 - e) = w (i + k - 1) ∨ r (w (i + k - 1)) (w (j + k - 1 - e)))) := by
  have inside := c.inside
  have before := c.before
  have one := c.one_le
  have split := Nat.mod_add_div e p
  have small := Nat.mod_lt e c.period_pos
  have period := Nat.le_of_dvd (by omega) c.dvd
  -- Up to whole periods the suffix is one that starts less than a period behind the best start.
  have multiple : p ∣ e - e % p := Nat.dvd_sub_mod e
  have le := Nat.mod_le e p
  have residue : ∀ t, i + e + t + 1 < j + k → w (i + e + t) = w (i + e % p + t) := by
    intro t read
    have same := c.periodic.of_dvd multiple (i + e % p + t) (by omega) (by omega)
    rw [same]
    congr 1
    omega
  -- The letter that the next one of the suffix stands against.
  have against : ∀ whole : p ≤ e, w (j + k - 1 - (e - e % p)) = w (i + k - 1) := by
    intro whole
    rw [← c.compared]
    have steps : p ∣ e - e % p - p := Nat.dvd_sub multiple (Nat.dvd_refl p)
    have floor : p ≤ e - e % p := Nat.le_of_dvd (by omega) multiple
    have same := c.periodic.of_dvd steps (j + k - 1 - (e - e % p)) (by omega) (by omega)
    rw [same]
    congr 1
    omega
  rcases Nat.eq_zero_or_pos (e % p) with zero | rest
  · have whole : p ≤ e := Nat.le_of_dvd pos (Nat.dvd_of_mod_eq_zero zero)
    refine .inr ⟨fun t read => by rw [residue t read, zero]; rfl, .inl ?_⟩
    rw [← against whole, zero]
    rfl
  · obtain ⟨d, within, same, order⟩ := c.lower (e % p) rest small
    by_cases early : i + e + d + 1 < j + k
    · refine .inl ⟨d, early, fun t before => ?_, ?_⟩
      · rw [residue t (by omega)]
        exact same t before
      · rw [residue d early]
        exact order
    · have whole : p ≤ e := by
        by_contra short
        rw [Nat.mod_eq_of_lt (by omega)] at within
        omega
      refine .inr ⟨fun t read => ?_, ?_⟩
      · rw [residue t read]
        exact same t (by omega)
      · have floor : p ≤ e - e % p := Nat.le_of_dvd (by omega) multiple
        rw [← against whole]
        rcases Nat.lt_or_ge (j + k - 1 - i - e) d with short | reached
        · refine .inl ?_
          have equal := same (j + k - 1 - i - e) short
          rw [show i + e % p + (j + k - 1 - i - e) = j + k - 1 - (e - e % p) by omega,
            show i + (j + k - 1 - i - e) = j + k - 1 - e by omega] at equal
          exact equal.symm
        · obtain rfl : d = j + k - 1 - i - e := by omega
          rw [show i + e % p + (j + k - 1 - i - e) = j + k - 1 - (e - e % p) by omega,
            show i + (j + k - 1 - i - e) = j + k - 1 - e by omega] at order
          exact .inr order

/-- At the end of the word the best start is that of the greatest suffix. -/
theorem Candidate.greatest (c : Candidate r w l i j k p) (done : l < j + k) :
    Greatest r w l i := by
  have inside := c.inside
  have before := c.before
  have one := c.one_le
  have ended : j + k = l + 1 := by omega
  refine ⟨by omega, fun a inside other => ?_⟩
  rcases Nat.lt_trichotomy a i with less | rfl | behind
  · exact c.earlier a less
  · exact absurd rfl other
  · obtain ⟨e, rfl⟩ := Nat.exists_eq_add_of_le behind.le
    rcases c.behind (e := e) (by omega) (by omega) with ⟨d, early, same, lower⟩ | ⟨same, -⟩
    · exact ⟨d, same, by omega, .inr ⟨by omega, lower⟩⟩
    · exact ⟨l - i - e, fun t small => same t (by omega), by omega, .inl (by omega)⟩

variable [IsStrictOrder α r]

/-- The next letter is lower: all that has been read is one period. -/
theorem Candidate.longer_period (c : Candidate r w l i j k p) (more : j + k ≤ l)
    (order : r (w (j + k - 1)) (w (i + k - 1))) :
    Candidate r w l i (j + k) 1 (j + k - i) where
  one_le := le_rfl
  le := by have := c.before; omega
  before := by have := c.before; omega
  dvd := Nat.dvd_refl _
  inside := by omega
  periodic := fun t behind inside => absurd inside (by have := c.before; omega)
  earlier := c.earlier
  lower := by
    intro e pos small
    have one := c.one_le
    rcases c.behind pos (by omega) with ⟨d, early, same, lower⟩ | ⟨same, against⟩
    · exact ⟨d, by omega, same, lower⟩
    · refine ⟨j + k - 1 - i - e, by omega, fun t before => same t (by omega), ?_⟩
      rw [show i + e + (j + k - 1 - i - e) = j + k - 1 by omega,
        show i + (j + k - 1 - i - e) = j + k - 1 - e by omega]
      rcases against with equal | higher
      · exact equal ▸ order
      · exact trans_of r order higher

/-- The next letter is higher: no start up to `j` is as good as `j`. -/
theorem Candidate.better_start (c : Candidate r w l i j k p) (more : j + k ≤ l)
    (order : r (w (i + k - 1)) (w (j + k - 1))) : Candidate r w l j (j + 1) 1 1 where
  one_le := le_rfl
  le := le_rfl
  before := Nat.lt_succ_self j
  dvd := Nat.one_dvd _
  inside := by have := c.one_le; omega
  periodic := fun t behind inside => absurd inside (by omega)
  earlier := by
    have one := c.one_le
    have before := c.before
    have period := Nat.le_of_dvd (by omega) c.dvd
    have pos := c.period_pos
    -- A start whole periods behind the best one meets the higher letter.
    have aligned : ∀ a, i ≤ a → p ∣ a - i → a < j → Below r w l a j := by
      intro a behind multiple early
      refine ⟨k - 1, fun t small => ?_, by omega, .inr ⟨by omega, ?_⟩⟩
      · rw [c.aligned behind multiple (by omega), c.aligned (by omega) c.dvd (by omega)]
      · have gap : p ∣ j - a := by
          rw [show j - a = j - i - (a - i) by omega]
          exact Nat.dvd_sub c.dvd multiple
        have := Nat.le_of_dvd (by omega) gap
        rw [c.aligned behind multiple (by omega), show i + (k - 1) = i + k - 1 by omega,
          show j + (k - 1) = j + k - 1 by omega]
        exact order
    have self : p ∣ i - i := Nat.sub_self i ▸ Nat.dvd_zero p
    have best : Below r w l i j := aligned i le_rfl self before
    intro a early
    rcases Nat.lt_trichotomy a i with less | rfl | behind
    · exact (c.earlier a less).trans best
    · exact best
    · by_cases multiple : p ∣ a - i
      · exact aligned a (by omega) multiple early
      · have rest : 0 < (a - i) % p := Nat.pos_of_ne_zero (mt Nat.dvd_of_mod_eq_zero multiple)
        obtain ⟨d, within, same, lower⟩ := c.lower _ rest (Nat.mod_lt _ pos)
        have whole : p ∣ a - (i + (a - i) % p) := by
          rw [Nat.sub_add_eq]
          exact Nat.dvd_sub_mod (a - i)
        have le := Nat.mod_le (a - i) p
        -- Its whole period is behind it before `j`.
        have last : a + (p - (a - i) % p) ≤ j := by
          have gap : p ∣ j - i - (a - i - (a - i) % p) :=
            Nat.dvd_sub c.dvd (Nat.dvd_sub_mod _)
          have := Nat.le_of_dvd (by omega) gap
          omega
        have residue : ∀ t ≤ d, w (a + t) = w (i + (a - i) % p + t) := by
          intro t small
          have moved := c.periodic.of_dvd whole (i + (a - i) % p + t) (by omega) (by omega)
          rw [moved]
          congr 1
          omega
        refine Below.trans ⟨d, fun t small => ?_, by omega, .inr ⟨by omega, ?_⟩⟩ best
        · rw [residue t small.le]
          exact same t small
        · rw [residue d le_rfl]
          exact lower
  lower := fun e pos small => absurd small (by omega)

theorem Candidate.leastPeriod (c : Candidate r w l i j k p) (done : l < j + k) :
    LeastPeriod w i l p := by
  have inside := c.inside
  have before := c.before
  have period := Nat.le_of_dvd (by omega) c.dvd
  have one := c.one_le
  refine ⟨c.period_pos, by omega, c.periodic.mono le_rfl (by omega), ?_⟩
  intro e pos small shorter
  obtain ⟨d, within, same, lower⟩ := c.lower e pos small
  have equal := shorter (i + d) (by omega) (by omega)
  rw [equal, show i + d + e = i + e + d by omega] at lower
  exact irrefl_of r _ lower

end

end CriticalFactorization
