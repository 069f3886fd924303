import XnuTrace.NeedleChunks
import XnuTrace.TwowayNeedle

/-! The search loop of `twoway_memmem`, and what `horspool_memmem` finds with it. A pointer into the
haystack is an offset; the loop reads nothing outside the haystack and never an unset entry of
`shift`, and it returns the first occurrence. -/
namespace XnuTrace
open Occurrences BoundedLoop CriticalFactorization

/-- `for (k = max(ms + 1, mem); k < l && n[k] == h[k]; k++)` -/
def compareRight (haystack n : List Uint8) (h k : Size) : Option (Size ⊕ Size) :=
  if k < BitVec.ofNat 64 n.length then do
    let a ← n[k.toNat]?
    let b ← haystack[(h + k).toNat]?
    some (if a = b then .inl (k + 1) else .inr k)
  else some (.inr k)

/-- `for (k = ms + 1; k > mem && n[k - 1] == h[k - 1]; k--)` -/
def compareLeft (haystack n : List Uint8) (h mem k : Size) : Option (Size ⊕ Size) :=
  if k > mem then do
    let a ← n[(k - 1).toNat]?
    let b ← haystack[(h + (k - 1)).toNat]?
    some (if a = b then .inl (k - 1) else .inr k)
  else some (.inr k)

/-- The window on the haystack, and how many of its bytes are known to match. -/
structure Scan where
  h : Size
  mem : Size

/-- Both halves of the window. -/
def Scan.compare (haystack n : List Uint8) (fuel : Nat) (c : Cut) (s : Scan) :
    Option (Scan ⊕ Option Size) := do
  let right ← iterate (compareRight haystack n s.h) fuel (maxSize (c.ms + 1) s.mem)
  if right < BitVec.ofNat 64 n.length then some (.inl ⟨s.h + (right - c.ms), 0⟩)
  else do
    let left ← iterate (compareLeft haystack n s.h s.mem) fuel (c.ms + 1)
    if left ≤ s.mem then some (.inr (some s.h)) else some (.inl ⟨s.h + c.p, c.mem0⟩)

/-- A round of the search loop. -/
def Scan.round (haystack n : List Uint8) (fuel : Nat) (t : NeedleBytes) (c : Cut) (s : Scan) :
    Option (Scan ⊕ Option Size) :=
  let l := BitVec.ofNat 64 n.length
  let z := BitVec.ofNat 64 haystack.length
  -- If remainder of haystack is shorter than needle, done.
  if z - s.h < l then some (.inr none)
  else do
    -- Check last byte first; advance by shift on mismatch.
    let last ← haystack[(s.h + (l - 1)).toNat]?
    if t.has last then do
      let k := l - (← t.shiftOf last)
      if k ≠ 0 then some (.inl ⟨s.h + if k < s.mem then s.mem else k, 0⟩)
      else s.compare haystack n fuel c
    else some (.inl ⟨s.h + l, 0⟩)

/-- `twoway_memmem`. The outer `none` is a bad read, or a loop that does not end in the bound. -/
def twowayMemmem (fuel : Nat) (haystack n : List Uint8) : Option (Option Size) := do
  let c ← cutNeedle n fuel
  iterate (Scan.round haystack n fuel (NeedleBytes.fill n) c) fuel ⟨0, 0⟩

section
variable {haystack n : List Uint8} {h k : Nat}

theorem occurs_iff_letter (nonempty : 0 < n.length) : Occurs haystack n h ↔
    h + n.length ≤ haystack.length ∧ ∀ i < n.length, letter haystack (h + i) = letter n i := by
  have get : ∀ i, (haystack.drop h)[i]? = haystack[h + i]? := fun i => List.getElem?_drop
  constructor
  · intro occurs
    have inside := occurs.inside (List.length_pos_iff.mp nonempty)
    refine ⟨inside, fun i before => Option.some.inj ?_⟩
    have same := List.prefix_iff_getElem?.mp occurs i before
    rw [get, getElem?_letter (by omega)] at same
    rw [same, ← getElem?_letter before, List.getElem?_eq_getElem before]
  · rintro ⟨inside, same⟩
    refine List.prefix_iff_getElem?.mpr fun i before => ?_
    rw [get, getElem?_letter (by omega), same i before, ← getElem?_letter before,
      List.getElem?_eq_getElem before]

/-- The comparison to the right comes to the end of the needle or to the first mismatch. -/
theorem compareRight_spec (small : haystack.length < 2 ^ 64) (fits : h + n.length ≤ haystack.length)
    {start fuel : Nat} (inside : start ≤ n.length) (enough : n.length < fuel) :
    ∃ k, iterate (compareRight haystack n (BitVec.ofNat 64 h)) fuel (BitVec.ofNat 64 start) =
        some (BitVec.ofNat 64 k) ∧ start ≤ k ∧ k ≤ n.length ∧
      (∀ i, start ≤ i → i < k → letter haystack (h + i) = letter n i) ∧
      (k < n.length → letter haystack (h + k) ≠ letter n k) := by
  let Inv : Size → Prop := fun s => ∃ k, s = BitVec.ofNat 64 k ∧ start ≤ k ∧ k ≤ n.length ∧
    ∀ i, start ≤ i → i < k → letter haystack (h + i) = letter n i
  let Post : Size → Prop := fun s => ∃ k, s = BitVec.ofNat 64 k ∧ start ≤ k ∧ k ≤ n.length ∧
    (∀ i, start ≤ i → i < k → letter haystack (h + i) = letter n i) ∧
    (k < n.length → letter haystack (h + k) ≠ letter n k)
  have rounds : ∀ s, Inv s → Leads Inv (fun s => n.length - s.toNat) Post s
      (compareRight haystack n (BitVec.ofNat 64 h) s) := by
    rintro _ ⟨k, rfl, from_le, le, same⟩
    rw [compareRight]
    have toNat : (BitVec.ofNat 64 k).toNat = k := by bv_omega
    have place : (BitVec.ofNat 64 h + BitVec.ofNat 64 k).toNat = h + k := by bv_omega
    have more : BitVec.ofNat 64 k < BitVec.ofNat 64 n.length ↔ k < n.length := by bv_omega
    simp only [more, toNat, place]
    split_ifs with room
    · simp only [getElem?_letter room, getElem?_letter (show h + k < haystack.length by omega),
        Option.bind_eq_bind, Option.bind_some]
      split_ifs with equal
      · have next : BitVec.ofNat 64 k + 1 = BitVec.ofNat 64 (k + 1) := by bv_omega
        have toNat' : (BitVec.ofNat 64 (k + 1)).toNat = k + 1 := by bv_omega
        rw [next]
        refine ⟨⟨k + 1, rfl, by omega, room, fun i behind before => ?_⟩, ?_⟩
        · rcases Nat.lt_or_eq_of_le (Nat.le_of_lt_succ before) with old | rfl
          · exact same i behind old
          · exact equal.symm
        · simp only [toNat, toNat']
          omega
      · exact ⟨k, rfl, from_le, le, same, fun _ => Ne.symm equal⟩
    · exact ⟨k, rfl, from_le, le, same, fun more => absurd more room⟩
  have start_inv : Inv (BitVec.ofNat 64 start) :=
    ⟨start, rfl, le_rfl, inside, fun i behind before => absurd before (by omega)⟩
  obtain ⟨_, ran, k, rfl, rest⟩ := iterate_spec rounds start_inv
    (show n.length - _ < fuel by omega)
  exact ⟨k, ran, rest⟩

/-- The comparison to the left comes to what is known to match or to the first mismatch. -/
theorem compareLeft_spec (small : haystack.length < 2 ^ 64) (fits : h + n.length ≤ haystack.length)
    {start mem fuel : Nat} (inside : start ≤ n.length) (known : mem ≤ n.length)
    (enough : n.length < fuel) :
    ∃ k, iterate (compareLeft haystack n (BitVec.ofNat 64 h) (BitVec.ofNat 64 mem)) fuel
        (BitVec.ofNat 64 start) = some (BitVec.ofNat 64 k) ∧ k ≤ start ∧
      (∀ i, k ≤ i → i < start → letter haystack (h + i) = letter n i) ∧
      (mem < k → letter haystack (h + (k - 1)) ≠ letter n (k - 1)) := by
  let Inv : Size → Prop := fun s => ∃ k, s = BitVec.ofNat 64 k ∧ k ≤ start ∧
    ∀ i, k ≤ i → i < start → letter haystack (h + i) = letter n i
  let Post : Size → Prop := fun s => ∃ k, s = BitVec.ofNat 64 k ∧ k ≤ start ∧
    (∀ i, k ≤ i → i < start → letter haystack (h + i) = letter n i) ∧
    (mem < k → letter haystack (h + (k - 1)) ≠ letter n (k - 1))
  have rounds : ∀ s, Inv s → Leads Inv BitVec.toNat Post s
      (compareLeft haystack n (BitVec.ofNat 64 h) (BitVec.ofNat 64 mem) s) := by
    rintro _ ⟨k, rfl, le, same⟩
    rw [compareLeft]
    have more : BitVec.ofNat 64 k > BitVec.ofNat 64 mem ↔ mem < k := by bv_omega
    simp only [more]
    split_ifs with room
    · have toNat : (BitVec.ofNat 64 k - 1).toNat = k - 1 := by bv_omega
      have place : (BitVec.ofNat 64 h + (BitVec.ofNat 64 k - 1)).toNat = h + (k - 1) := by bv_omega
      simp only [toNat, place, getElem?_letter (show k - 1 < n.length by omega),
        getElem?_letter (show h + (k - 1) < haystack.length by omega), Option.bind_eq_bind,
        Option.bind_some]
      split_ifs with equal
      · have next : BitVec.ofNat 64 k - 1 = BitVec.ofNat 64 (k - 1) := by bv_omega
        refine ⟨⟨k - 1, next, by omega, fun i behind before => ?_⟩, ?_⟩
        · rcases Nat.lt_or_ge i k with new | old
          · obtain rfl : i = k - 1 := by omega
            exact equal.symm
          · exact same i old before
        · bv_omega
      · exact ⟨k, rfl, le, same, fun _ => Ne.symm equal⟩
    · exact ⟨k, rfl, le, same, fun more => absurd more room⟩
  have start_inv : Inv (BitVec.ofNat 64 start) :=
    ⟨start, rfl, le_rfl, fun i behind before => absurd before (by omega)⟩
  have bound : (BitVec.ofNat 64 start).toNat < fuel := by bv_omega
  obtain ⟨_, ran, k, rfl, rest⟩ := iterate_spec rounds start_inv bound
  exact ⟨k, ran, rest⟩

end

/-- No occurrence starts before the window, and the bytes said to match do. -/
structure Scan.Inv (haystack n : List Uint8) (p h mem : Nat) (s : Scan) : Prop where
  is : s = ⟨BitVec.ofNat 64 h, BitVec.ofNat 64 mem⟩
  inside : h ≤ haystack.length
  passed : ∀ e < h, ¬ Occurs haystack n e
  known : mem = 0 ∨ mem = n.length - p ∧ Periodic (letter n) 0 n.length p
  fits : h + mem ≤ haystack.length
  same : ∀ i < mem, letter haystack (h + i) = letter n i

section
variable {haystack n : List Uint8} {c : Cut} {q p mem0 h mem : Nat} {s : Scan}

/-- A step over places where the needle does not occur, after which nothing is known to match. -/
theorem Scan.Inv.skip (inv : Scan.Inv haystack n p h mem s) {d : Nat} (step : Size)
    (isStep : step = BitVec.ofNat 64 d) (inside : h + d ≤ haystack.length)
    (no : ∀ e < d, ¬ Occurs haystack n (h + e)) :
    Scan.Inv haystack n p (h + d) 0 ⟨s.h + step, 0⟩ where
  is := by
    rw [inv.is, isStep, ← BitVec.ofNat_add]
    rfl
  inside := inside
  passed := by
    intro e early
    rcases Nat.lt_or_ge e h with old | new
    · exact inv.passed e old
    · obtain ⟨e, rfl⟩ := Nat.exists_eq_add_of_le new
      exact no e (by omega)
  known := .inl rfl
  fits := inside
  same := fun i early => absurd early (Nat.not_lt_zero i)

/-- The last byte of the window shifts it: no occurrence is passed over, also where the bytes that
are known to match make the shift longer. -/
theorem not_occurs_shift (inv : Scan.Inv haystack n p h mem s) (nonempty : 0 < n.length)
    (pos : 0 < p) {last : Nat} (before : last < n.length - 1)
    (later : ∀ i, last < i → i < n.length → letter n i ≠ letter haystack (h + (n.length - 1)))
    {e : Nat} (early : e < max (n.length - 1 - last) mem) : ¬ Occurs haystack n (h + e) := by
  intro occurs
  obtain ⟨inside, same⟩ := (occurs_iff_letter nonempty).mp occurs
  rcases Nat.lt_or_ge e (n.length - 1 - last) with short | long
  · refine later (n.length - 1 - e) (by omega) (by omega) ?_
    rw [← same _ (by omega)]
    congr 1
    omega
  · -- Both windows cover the last byte that is known to match, a period before the end.
    obtain ⟨rfl, periodic⟩ := inv.known.resolve_left (by omega)
    have small : e < n.length - p := by omega
    have here := inv.same (n.length - p - 1) (by omega)
    have there := same (n.length - p - 1 - e) (by omega)
    have front := periodic (n.length - p - 1) (Nat.zero_le _) (by omega)
    have behind := periodic (n.length - p - 1 - e) (Nat.zero_le _) (by omega)
    have tail := same (n.length - 1 - e) (by omega)
    refine later (n.length - 1) (by omega) (by omega) ?_
    rw [show h + e + (n.length - p - 1 - e) = h + (n.length - p - 1) by omega] at there
    rw [show n.length - p - 1 + p = n.length - 1 by omega] at front
    rw [show n.length - p - 1 - e + p = n.length - 1 - e by omega] at behind
    rw [show h + e + (n.length - 1 - e) = h + (n.length - 1) by omega] at tail
    rw [← front, ← here, there, behind, tail]

/-- An occurrence that starts in the window repeats at the cut what the window matches there. -/
theorem Occurs.repeats (nonempty : 0 < n.length) {d k : Nat}
    (occurs : Occurs haystack n (h + d)) (cut : q + d ≤ k ∨ k = n.length)
    (same : ∀ i, q ≤ i → i < k → letter haystack (h + i) = letter n i) :
    Repeats (letter n) n.length q d := by
  intro i before behind inside
  have there := ((occurs_iff_letter nonempty).mp occurs).2 i (by omega)
  rw [Nat.add_assoc, Nat.add_comm d i] at there
  rw [← there]
  exact same (i + d) behind (by omega)

/-- A mismatch at `k` behind the cut: the needle goes `k + 1 - q` bytes on. -/
theorem not_occurs_right (cut : CutAt n c q p mem0) {k : Nat} (behind : q ≤ k)
    (inside : k < n.length) (same : ∀ i, q ≤ i → i < k → letter haystack (h + i) = letter n i)
    (differs : letter haystack (h + k) ≠ letter n k) {d : Nat} (early : d < k - q + 1) :
    ¬ Occurs haystack n (h + d) := by
  intro occurs
  have nonempty := cut.inside.trans_le' (Nat.zero_le q)
  have there := ((occurs_iff_letter nonempty).mp occurs).2 (k - d) (by omega)
  rw [show h + d + (k - d) = h + k by omega] at there
  rcases Nat.eq_zero_or_pos d with rfl | pos
  · exact differs there
  · have repeated := Occurs.repeats nonempty occurs (.inl (show q + d ≤ k by omega)) same
    have around := (cut.critical d pos repeated).2.1 (k - d) (Nat.zero_le _) (by omega)
    rw [Nat.sub_add_cancel (by omega)] at around
    exact differs (there.trans around)

/-- A mismatch before the cut: the needle goes `p` bytes on. -/
theorem not_occurs_left (cut : CutAt n c q p mem0) {k : Nat} (inside : k < n.length)
    (same : ∀ i, q ≤ i → i < n.length → letter haystack (h + i) = letter n i)
    (differs : letter haystack (h + k) ≠ letter n k) {d : Nat} (early : d < p) :
    ¬ Occurs haystack n (h + d) := by
  intro occurs
  have nonempty := cut.inside.trans_le' (Nat.zero_le q)
  rcases Nat.eq_zero_or_pos d with rfl | pos
  · exact differs (((occurs_iff_letter nonempty).mp occurs).2 k inside)
  · have repeated := Occurs.repeats nonempty occurs (.inr rfl) same
    exact absurd (cut.critical d pos repeated).2.2 (by omega)

/-- How far the window is from the end. -/
def Scan.left (haystack : List Uint8) (s : Scan) : Nat := haystack.length - s.h.toNat

/-- The window is at some place, and nothing was passed over. -/
def Scan.Passes (haystack n : List Uint8) (p : Nat) (s : Scan) : Prop :=
  ∃ h mem, Scan.Inv haystack n p h mem s

def FindsFirst (haystack n : List Uint8) (found : Option Size) : Prop :=
  First (Occurs haystack n) (found.map BitVec.toNat)

theorem Scan.Inv.goes {h' mem' : Nat} {s' : Scan} (inv : Scan.Inv haystack n p h mem s)
    (next : Scan.Inv haystack n p h' mem' s') (small : haystack.length < 2 ^ 64)
    (further : h < h') : Scan.Passes haystack n p s' ∧ s'.left haystack < s.left haystack := by
  have inside := inv.inside
  have inside' := next.inside
  refine ⟨⟨h', mem', next⟩, ?_⟩
  rw [Scan.left, Scan.left, inv.is, next.is]
  bv_omega

/-- A window that matches on both sides is the first occurrence; behind a mismatch the next window
is as good as this one. -/
theorem Scan.compare_spec (inv : Scan.Inv haystack n p h mem s) (cut : CutAt n c q p mem0)
    (small : haystack.length < 2 ^ 64) (fits : h + n.length ≤ haystack.length) {fuel : Nat}
    (enough : n.length < fuel) :
    Leads (Scan.Passes haystack n p) (Scan.left haystack) (FindsFirst haystack n) s
      (s.compare haystack n fuel c) := by
  have cutInside := cut.inside
  have pos := cut.pos
  have le := cut.le
  have memLe : mem ≤ n.length := by rcases inv.known with rfl | ⟨rfl, -⟩ <;> omega
  have start : maxSize (BitVec.ofNat 64 q) (BitVec.ofNat 64 mem) = BitVec.ofNat 64 (max q mem) := by
    rw [maxSize]
    split_ifs <;> bv_omega
  have startLeft : BitVec.ofNat 64 q - 1 + 1 = BitVec.ofNat 64 q := by bv_omega
  obtain ⟨k, ranRight, from_le, kLe, same, differs⟩ :=
    compareRight_spec small fits (Nat.max_le.mpr ⟨cutInside.le, memLe⟩) enough
  obtain ⟨k', ranLeft, leCut, same', differs'⟩ :=
    compareLeft_spec small fits cutInside.le memLe enough
  -- The bytes that are known to match make up for the ones that are not looked at.
  have right : ∀ i, q ≤ i → i < k → letter haystack (h + i) = letter n i := by
    intro i behind before
    by_cases known : i < mem
    · exact inv.same i known
    · exact same i (Nat.max_le.mpr ⟨behind, Nat.not_lt.mp known⟩) before
  have compared : s.compare haystack n fuel c =
      if BitVec.ofNat 64 k < BitVec.ofNat 64 n.length then
        some (.inl ⟨s.h + (BitVec.ofNat 64 k - (BitVec.ofNat 64 q - 1)), 0⟩)
      else if BitVec.ofNat 64 k' ≤ BitVec.ofNat 64 mem then some (.inr (some s.h))
      else some (.inl ⟨s.h + BitVec.ofNat 64 p, BitVec.ofNat 64 mem0⟩) := by
    simp only [Scan.compare, inv.is, cut.is, start, startLeft, ranRight, ranLeft,
      Option.bind_eq_bind, Option.bind_some]
  have more : BitVec.ofNat 64 k < BitVec.ofNat 64 n.length ↔ k < n.length := by bv_omega
  have whole : BitVec.ofNat 64 k' ≤ BitVec.ofNat 64 mem ↔ k' ≤ mem := by bv_omega
  simp only [compared, more, whole]
  split_ifs with mismatch all
  · have step : BitVec.ofNat 64 k - (BitVec.ofNat 64 q - 1) = BitVec.ofNat 64 (k - q + 1) := by
      bv_omega
    have next := inv.skip _ step (by omega) fun d early =>
      not_occurs_right cut (by omega) mismatch right (differs mismatch) early
    exact inv.goes next small (by omega)
  · obtain rfl : k = n.length := by omega
    have here : Occurs haystack n h := by
      refine (occurs_iff_letter (by omega)).mpr ⟨fits, fun i before => ?_⟩
      rcases Nat.lt_or_ge i mem with known | rest
      · exact inv.same i known
      · rcases Nat.lt_or_ge i q with left | behind
        · exact same' i (all.trans rest) left
        · exact right i behind before
    have place : s.h.toNat = h := by
      have inside := inv.inside
      rw [inv.is]
      bv_omega
    intro e
    rw [Option.map_some, Option.some.injEq, place]
    constructor
    · rintro rfl
      exact ⟨here, fun e occurs => Nat.not_lt.mp fun early => inv.passed e early occurs⟩
    · intro least
      exact Nat.le_antisymm (Nat.not_lt.mp fun early => inv.passed e early least.1)
        (least.2 here)
  · obtain rfl : k = n.length := by omega
    have no : ∀ d < p, ¬ Occurs haystack n (h + d) := fun d early =>
      not_occurs_left cut (by omega) right (differs' (by omega)) early
    have next := inv.skip (BitVec.ofNat 64 p) rfl (by omega) no
    have known : Scan.Inv haystack n p (h + p) mem0
        ⟨s.h + BitVec.ofNat 64 p, BitVec.ofNat 64 mem0⟩ := by
      refine { next with is := ?_, known := ?_, fits := ?_, same := ?_ }
      · rw [(Scan.mk.inj next.is).1]
      · exact cut.known.imp_right fun known => ⟨known.1, known.2.2⟩
      · rcases cut.known with zero | ⟨rest, -⟩ <;> omega
      · intro i before
        obtain ⟨rest, behind, periodic⟩ := cut.known.resolve_left (by omega)
        have there := right (p + i) (by omega) (by omega)
        rw [Nat.add_assoc, there, Nat.add_comm, ← periodic i (Nat.zero_le i) (by omega)]
    exact inv.goes known small (by omega)

theorem Scan.round_spec (cut : CutAt n c q p mem0) (small : haystack.length < 2 ^ 64)
    (short : n.length ≤ haystack.length) {fuel : Nat} (enough : n.length < fuel) (s : Scan)
    (passes : Scan.Passes haystack n p s) :
    Leads (Scan.Passes haystack n p) (Scan.left haystack) (FindsFirst haystack n) s
      (Scan.round haystack n fuel (NeedleBytes.fill n) c s) := by
  obtain ⟨h, mem, inv⟩ := passes
  have nonempty := cut.inside.trans_le' (Nat.zero_le q)
  have inside := inv.inside
  have memLe : mem ≤ n.length := by
    have le := cut.le
    rcases inv.known with rfl | ⟨rfl, -⟩ <;> omega
  have place : (s.h + (BitVec.ofNat 64 n.length - 1)).toNat = h + (n.length - 1) ∨
      haystack.length < h + n.length := by
    rw [inv.is]
    bv_omega
  have ended : BitVec.ofNat 64 haystack.length - s.h < BitVec.ofNat 64 n.length ↔
      haystack.length < h + n.length := by
    rw [inv.is]
    bv_omega
  rw [Scan.round]
  simp only [ended]
  split_ifs with done
  · refine first_none fun e occurs => ?_
    have fits := Occurs.inside occurs (List.length_pos_iff.mp nonempty)
    exact inv.passed e (by omega) occurs
  · have fits := Nat.not_lt.mp done
    rw [place.resolve_right done, getElem?_letter (by omega)]
    simp only [Option.bind_eq_bind, Option.bind_some]
    obtain ⟨has, tells⟩ :=
      NeedleBytes.describes_fill n (letter haystack (h + (n.length - 1)))
    split_ifs with member
    · obtain ⟨last, shift, here, later⟩ := tells (has.mp member)
      have lastInside := (List.getElem?_eq_some_iff.mp here).1
      have zero : BitVec.ofNat 64 n.length - BitVec.ofNat 64 (last + 1) ≠ 0 ↔
          last < n.length - 1 := by bv_omega
      simp only [shift, Option.bind_some, zero]
      by_cases before : last < n.length - 1
      · rw [if_pos before]
        have step : (if BitVec.ofNat 64 n.length - BitVec.ofNat 64 (last + 1) < s.mem then s.mem
            else BitVec.ofNat 64 n.length - BitVec.ofNat 64 (last + 1)) =
            BitVec.ofNat 64 (max (n.length - 1 - last) mem) := by
          rw [inv.is]
          split_ifs <;> bv_omega
        have behindLast : ∀ i, last < i → i < n.length →
            letter n i ≠ letter haystack (h + (n.length - 1)) := fun i behind within same =>
          later i behind (same ▸ getElem?_letter within)
        have next := inv.skip _ step (by omega) fun d early =>
          not_occurs_shift inv nonempty cut.pos before behindLast early
        exact inv.goes next small (by omega)
      · rw [if_neg before]
        exact Scan.compare_spec inv cut small fits enough
    · have next := inv.skip (BitVec.ofNat 64 n.length) rfl fits fun d early occurs => by
        have there := ((occurs_iff_letter nonempty).mp occurs).2 (n.length - 1 - d) (by omega)
        rw [show h + d + (n.length - 1 - d) = h + (n.length - 1) by omega] at there
        refine member (has.mpr (List.mem_iff_getElem?.mpr ⟨n.length - 1 - d, ?_⟩))
        rw [getElem?_letter (by omega), there]
      exact inv.goes next small (by omega)

theorem twowayMemmem_spec (nonempty : n ≠ []) (short : n.length ≤ haystack.length)
    (small : haystack.length < 2 ^ 64) {fuel : Nat} (enough : 2 * haystack.length < fuel) :
    ∃ found, twowayMemmem fuel haystack n = some found ∧ FindsFirst haystack n found := by
  have pos := List.length_pos_iff.mpr nonempty
  have two : 2 * n.length < fuel := by omega
  have one : n.length < fuel := by omega
  obtain ⟨c, q, p, mem0, ran, cut⟩ :=
    cutNeedle_spec (short.trans_lt small) pos two
  have start : Scan.Inv haystack n p 0 0 ⟨0, 0⟩ :=
    ⟨rfl, Nat.zero_le _, fun e early => absurd early (Nat.not_lt_zero e), .inl rfl, Nat.zero_le _,
      fun i early => absurd early (Nat.not_lt_zero i)⟩
  have left : Scan.left haystack ⟨0, 0⟩ = haystack.length := rfl
  have more : Scan.left haystack ⟨0, 0⟩ < fuel := by omega
  obtain ⟨found, searched, first⟩ :=
    iterate_spec (Scan.round_spec cut small short one) ⟨0, 0, start⟩ more
  exact ⟨found, by rw [twowayMemmem, ran]; exact searched, first⟩

theorem FindsFirst.unique {a b : Option Size} (first : FindsFirst haystack n a)
    (first' : FindsFirst haystack n b) : a = b := by
  refine Option.map_injective (fun x y => BitVec.eq_of_toNat_eq) (Option.ext fun p => ?_)
  exact (first p).trans (first' p).symm

/-- `twoway_memmem` returns the first occurrence of a needle that is not empty and not longer than
the haystack, whatever bound its loops have from twice the length of the haystack on. It reads
nothing outside of both, and no entry of `shift` that was not set. -/
theorem twowayMemmem_findsFirst (nonempty : n ≠ []) (short : n.length ≤ haystack.length)
    (small : haystack.length < 2 ^ 64) : ∃ found, FindsFirst haystack n found ∧
      ∀ fuel, 2 * haystack.length < fuel → twowayMemmem fuel haystack n = some found := by
  obtain ⟨found, -, first⟩ := twowayMemmem_spec nonempty short small (Nat.lt_succ_self _)
  refine ⟨found, first, fun fuel enough => ?_⟩
  obtain ⟨found', searched, first'⟩ := twowayMemmem_spec nonempty short small enough
  rw [searched, first'.unique first]

theorem twowayMemmem_findsFirst_aaab :
    ∃ found, FindsFirst [97, 97, 98, 97, 97, 97, 98, 97] [97, 97, 97, 98] found ∧
      ∀ fuel, 16 < fuel →
        twowayMemmem fuel [97, 97, 98, 97, 97, 97, 98, 97] [97, 97, 97, 98] = some found :=
  twowayMemmem_findsFirst (List.cons_ne_nil _ _) (by decide) (by decide)

example : twowayMemmem 17 [97, 97, 98, 97, 97, 97, 98, 97] [97, 97, 97, 98] = some (some 3) := by
  decide

end

/-- `twoway_memmem` on the haystacks whose length is a `size_t`. -/
def twoway : TwowayMemmem where
  search haystack n :=
    if haystack.length < 2 ^ 64 then
      ((twowayMemmem (2 * haystack.length + 1) haystack n).bind id).map BitVec.toNat
    else firstOccurrence haystack n
  finds haystack n two short := by
    have nonempty := List.length_pos_iff.mp (two_pos.trans_le two)
    split_ifs with small
    · obtain ⟨found, searched, first⟩ :=
        twowayMemmem_spec nonempty short small (Nat.lt_succ_self (2 * haystack.length))
      rw [searched]
      exact first
    · exact first_firstOccurrence nonempty

/-- An occurrence that lies in chunk `i`. -/
def LiesInChunk {n : Nat} (haystack needle : List Uint8) (blks : Blocks n haystack.length)
    (i p : Nat) : Prop :=
  StartsInChunk haystack needle blks i p ∧ p + needle.length ≤ blks.last i

section
variable {n : Nat} {haystack needle : List Uint8} {blks : Blocks n haystack.length}
  {order : List Nat}

/-- With this search each task finds the first of the occurrences that lie in its chunk, in whatever
order the tasks run. -/
theorem chunkIntoBinsByNeedle_lies (nonempty : needle ≠ [])
    (each : order.Perm (List.range blks.numBlocks)) {i : Nat} (inside : i < n) :
    ∃ entry, (chunkIntoBinsByNeedle twoway haystack needle blks order)[i]? = some entry ∧
      First (LiesInChunk haystack needle blks i) entry := by
  refine ⟨_, getElem?_chunkIntoBinsByNeedle twoway nonempty each inside, ?_⟩
  split_ifs with block
  · refine (first_horspoolMemmem twoway _ nonempty).shift (fun p early lies => ?_) fun p => ?_
    · exact absurd lies.1.2.1.1 (Nat.not_le.mpr early)
    · rw [occurs_window nonempty]
      have pos := List.length_pos_iff.mpr nonempty
      constructor
      · rintro ⟨⟨-, -, occurs⟩, ends⟩
        exact ⟨occurs, ends⟩
      · rintro ⟨occurs, ends⟩
        exact ⟨⟨block, ⟨Nat.le_add_right .., by omega⟩, occurs⟩, ends⟩
  · exact first_none fun p lies => block lies.1.1

end

end XnuTrace
