import XnuTrace.Lib.Stepwise
import Mathlib.Data.Fintype.Basic
import Mathlib.Data.Finset.Dedup
import Mathlib.Logic.Function.Basic

/-! Cells of one bit that callers set by looking first: a call reads its cell and, where that
differs, toggles the cell in a second step. In between any caller may take steps. -/
namespace Toggles
open Stepwise

/-- The calls that are not finished. Of the first only the toggle may be left. -/
structure Caller (ι : Type) where
  calls : List (ι × Bool)
  toggling : Bool := false

structure State (κ ι : Type) where
  cells : ι → Bool
  callers : κ → Caller ι

variable {κ ι : Type} [DecidableEq κ] [DecidableEq ι]

def step (s : State κ ι) (k : κ) : Option (State κ ι) :=
  match s.callers k with
  | ⟨[], _⟩ => none
  | ⟨(i, _) :: calls, true⟩ =>
    some ⟨Function.update s.cells i !s.cells i, Function.update s.callers k ⟨calls, false⟩⟩
  | ⟨(i, v) :: calls, false⟩ =>
    if s.cells i = v then some { s with callers := Function.update s.callers k ⟨calls, false⟩ }
    else some { s with callers := Function.update s.callers k ⟨(i, v) :: calls, true⟩ }

def Named (s : State κ ι) (k : κ) (i : ι) : Prop := ∃ v, (i, v) ∈ (s.callers k).calls

def Agreed (s : State κ ι) (i : ι) (v : Bool) : Prop :=
  ∀ k, ∀ call ∈ (s.callers k).calls, call.1 = i → call.2 = v

def Finished (s : State κ ι) : Prop := ∀ k, (s.callers k).calls = []

/-- However the steps are interleaved, a cell that all calls set to one value ends with it and
a cell that no call names stays. -/
def Kept (s : State κ ι) : Prop :=
  ∀ order s', run step s order = some s' → Finished s' →
    (∀ i v, (∃ k, Named s k i) → Agreed s i v → s'.cells i = v) ∧
      ∀ i, (∀ k, ¬ Named s k i) → s'.cells i = s.cells i

/-- A cell that all calls set to one value has it already, or one caller makes all these calls. -/
def Uncontended (s : State κ ι) : Prop :=
  ∀ i v, (∃ k, Named s k i) → Agreed s i v →
    s.cells i = v ∨ ∀ k k', Named s k i → Named s k' i → k = k'

variable {s s' : State κ ι} {k : κ} {i : ι} {v : Bool} {calls : List (ι × Bool)}

theorem step_toggle (head : s.callers k = ⟨(i, v) :: calls, true⟩) :
    step s k = some ⟨Function.update s.cells i !s.cells i,
      Function.update s.callers k ⟨calls, false⟩⟩ := by
  rw [step, head]

theorem step_same (head : s.callers k = ⟨(i, v) :: calls, false⟩) (same : s.cells i = v) :
    step s k = some { s with callers := Function.update s.callers k ⟨calls, false⟩ } := by
  rw [step, head]
  exact if_pos same

theorem step_differ (head : s.callers k = ⟨(i, v) :: calls, false⟩) (differ : s.cells i ≠ v) :
    step s k = some { s with callers := Function.update s.callers k ⟨(i, v) :: calls, true⟩ } := by
  rw [step, head]
  exact if_neg differ

/-- What a step of a caller is: the toggle, a look that finds the value or one that does not. -/
theorem step_cases (took : step s k = some s') : ∃ i v calls,
    s.callers k = ⟨(i, v) :: calls, true⟩ ∧
        s' = ⟨Function.update s.cells i !s.cells i, Function.update s.callers k ⟨calls, false⟩⟩ ∨
      s.callers k = ⟨(i, v) :: calls, false⟩ ∧ s.cells i = v ∧
        s' = { s with callers := Function.update s.callers k ⟨calls, false⟩ } ∨
      s.callers k = ⟨(i, v) :: calls, false⟩ ∧ s.cells i ≠ v ∧
        s' = { s with callers := Function.update s.callers k ⟨(i, v) :: calls, true⟩ } := by
  rcases head : s.callers k with ⟨_ | ⟨⟨i, v⟩, calls⟩, toggling⟩
  · rw [step, head] at took
    cases took
  · refine ⟨i, v, calls, ?_⟩
    cases toggling with
    | true =>
      rw [step_toggle head] at took
      exact .inl ⟨rfl, (Option.some.inj took).symm⟩
    | false =>
      by_cases same : s.cells i = v
      · rw [step_same head same] at took
        exact .inr (.inl ⟨rfl, same, (Option.some.inj took).symm⟩)
      · rw [step_differ head same] at took
        exact .inr (.inr ⟨rfl, same, (Option.some.inj took).symm⟩)

omit [DecidableEq κ] [DecidableEq ι] in
theorem named_head {toggling : Bool} (head : s.callers k = ⟨(i, v) :: calls, toggling⟩) :
    Named s k i := ⟨v, head ▸ List.mem_cons_self ..⟩

/-- Steps only finish calls. -/
theorem step_fewer (took : step s k = some s') (k' : κ) :
    ∀ call ∈ (s'.callers k').calls, call ∈ (s.callers k').calls := by
  obtain ⟨i, v, calls, ⟨head, rfl⟩ | ⟨head, -, rfl⟩ | ⟨head, -, rfl⟩⟩ := step_cases took
  all_goals
    intro call member
    by_cases own : k' = k
    · subst own
      simp only [Function.update_self] at member
      rw [head]
      first | exact member | exact .tail _ member
    · simpa only [Function.update_of_ne own] using member

theorem Named.of_step {k' : κ} (took : step s k = some s') (named : Named s' k' i) : Named s k' i :=
  named.imp fun _ => step_fewer took k' _

theorem Agreed.step (agreed : Agreed s i v) (took : step s k = some s') : Agreed s' i v :=
  fun k' call member => agreed k' call (step_fewer took k' call member)

/-- The caller is behind a look at this cell that told it to toggle. -/
def Toggling (s : State κ ι) (k : κ) (i : ι) : Prop :=
  ∃ v calls, s.callers k = ⟨(i, v) :: calls, true⟩

omit [DecidableEq κ] [DecidableEq ι] in
theorem Toggling.named (toggling : Toggling s k i) : Named s k i := by
  obtain ⟨v, calls, head⟩ := toggling
  exact named_head head

theorem step_other {k' : κ} (took : step s k = some s') (other : k' ≠ k) :
    s'.callers k' = s.callers k' := by
  obtain ⟨j, v, calls, ⟨-, rfl⟩ | ⟨-, -, rfl⟩ | ⟨-, -, rfl⟩⟩ := step_cases took
  all_goals exact Function.update_of_ne other ..

/-- A step changes no cell but the one its caller was about to toggle. -/
theorem step_cells (took : step s k = some s') (still : ¬ Toggling s k i) :
    s'.cells i = s.cells i := by
  obtain ⟨j, v, calls, ⟨head, rfl⟩ | ⟨-, -, rfl⟩ | ⟨-, -, rfl⟩⟩ := step_cases took
  · refine Function.update_of_ne (fun same : i = j => still ?_) ..
    exact ⟨v, calls, same ▸ head⟩
  · rfl
  · rfl

/-- A caller that is about to toggle behind its step has just seen another value. -/
theorem step_toggling (took : step s k = some s') (toggling : Toggling s' k i) :
    ∃ v calls, s.callers k = ⟨(i, v) :: calls, false⟩ ∧ s'.cells i ≠ v := by
  obtain ⟨w, rest, after⟩ := toggling
  obtain ⟨j, v, calls, ⟨-, rfl⟩ | ⟨-, -, rfl⟩ | ⟨head, differ, rfl⟩⟩ := step_cases took
  all_goals cases (Function.update_self ..).symm.trans after
  exact ⟨w, rest, head, differ⟩

/-- Why the cell ends with the value: who is about to toggle it has seen the other value, and
until it has the value nobody else may look at it. -/
structure Settling (s : State κ ι) (i : ι) (v : Bool) : Prop where
  agreed : Agreed s i v
  alone : s.cells i = v ∨ ∀ k k', Named s k i → Named s k' i → k = k'
  differs : ∀ k, Toggling s k i → s.cells i ≠ v
  pending : s.cells i = v ∨ ∃ k, Named s k i

theorem Settling.cells_of_settled (settling : Settling s i v) (took : step s k = some s')
    (settled : s.cells i = v) : s'.cells i = v :=
  (step_cells took fun toggling => settling.differs k toggling settled).trans settled

theorem Settling.step (settling : Settling s i v) (took : step s k = some s') :
    Settling s' i v where
  agreed := settling.agreed.step took
  alone := settling.alone.imp (settling.cells_of_settled took) fun alone k₁ k₂ first second =>
    alone k₁ k₂ (first.of_step took) (second.of_step took)
  differs k' toggling := by
    by_cases own : k' = k
    · subst own
      obtain ⟨w, calls, head, differ⟩ := step_toggling took toggling
      have agreed : w = v := settling.agreed k' (i, w) (head ▸ List.mem_cons_self ..) rfl
      exact agreed ▸ differ
    · have before : Toggling s k' i := by
        rw [Toggling, ← step_other took own]
        exact toggling
      have differ := settling.differs k' before
      have still : ¬ Toggling s k i := fun also =>
        own (settling.alone.resolve_left differ k' k before.named also.named)
      rwa [step_cells took still]
  pending := by
    rcases settling.pending with settled | ⟨k', named⟩
    · exact .inl (settling.cells_of_settled took settled)
    · by_cases own : k' = k
      · subst own
        obtain ⟨w, member⟩ := named
        have agreed : w = v := settling.agreed k' (i, w) member rfl
        obtain ⟨j, u, calls, ⟨head, rfl⟩ | ⟨head, same, rfl⟩ | ⟨head, -, rfl⟩⟩ := step_cases took
        all_goals rw [head] at member
        · rcases List.mem_cons.mp member with first | later
          · cases first
            have differ := settling.differs k' ⟨w, calls, head⟩
            exact .inl ((Function.update_self ..).trans (Bool.not_eq.mpr differ))
          · exact .inr ⟨k', w, by simpa using later⟩
        · rcases List.mem_cons.mp member with first | later
          · cases first
            exact .inl (same.trans agreed)
          · exact .inr ⟨k', w, by simpa using later⟩
        · exact .inr ⟨k', w, by simpa using member⟩
      · exact .inr ⟨k', named.imp fun _ member => step_other took own ▸ member⟩

/-- A cell that has the value, or is left to one caller, ends with it. -/
theorem cells_of_uncontended (fresh : ∀ k, (s.callers k).toggling = false)
    (named : ∃ k, Named s k i) (agreed : Agreed s i v)
    (alone : s.cells i = v ∨ ∀ k k', Named s k i → Named s k' i → k = k') {order : List κ}
    (ran : run step s order = some s') (finished : Finished s') : s'.cells i = v := by
  have start : Settling s i v :=
    { agreed, alone
      differs := fun k ⟨w, calls, head⟩ => by
        have idle := fresh k
        rw [head] at idle
        cases idle
      pending := .inr named }
  have last := Always.of_step (P := fun t => Settling t i v) start
    (fun _ _ _ settling took => settling.step took) order order (List.prefix_refl _) s' ran
  refine last.pending.resolve_right fun ⟨k, w, member⟩ => ?_
  rw [finished k] at member
  cases member

theorem cells_of_unnamed (unnamed : ∀ k, ¬ Named s k i) {order : List κ}
    (ran : run step s order = some s') : s'.cells i = s.cells i := by
  have last := Always.of_step (P := fun t => (∀ k, ¬ Named t k i) ∧ t.cells i = s.cells i)
    ⟨unnamed, rfl⟩ (fun t k t' before took =>
      ⟨fun k' named => before.1 k' (named.of_step took),
        (step_cells took fun toggling => before.1 k toggling.named).trans before.2⟩) order order
    (List.prefix_refl _) s' ran
  exact last.2

def Reaches (s s' : State κ ι) : Prop := ∃ order, run step s order = some s'

theorem Reaches.refl (s : State κ ι) : Reaches s s := ⟨[], rfl⟩

theorem Reaches.trans {mid : State κ ι} (first : Reaches s mid) (last : Reaches mid s') :
    Reaches s s' := by
  obtain ⟨order, ran⟩ := first
  obtain ⟨more, ran'⟩ := last
  exact ⟨order ++ more, by rw [run_append, ran]; exact ran'⟩

theorem Reaches.of_step (took : step s k = some s') : Reaches s s' :=
  ⟨[k], (run_concat s [] k).trans took⟩

theorem Agreed.of_reaches (agreed : Agreed s i v) (reached : Reaches s s') : Agreed s' i v := by
  obtain ⟨order, ran⟩ := reached
  exact Always.of_step (P := fun t => Agreed t i v) agreed (fun _ _ _ agreed took =>
    agreed.step took) order order (List.prefix_refl _) s' ran

theorem exists_look (head : s.callers k = ⟨(i, v) :: calls, false⟩) (differ : s.cells i ≠ v) :
    ∃ s', Reaches s s' ∧ s'.cells = s.cells ∧ s'.callers k = ⟨(i, v) :: calls, true⟩ ∧
      ∀ k' ≠ k, s'.callers k' = s.callers k' :=
  ⟨_, .of_step (step_differ head differ), rfl, Function.update_self .., fun _ other =>
    Function.update_of_ne other ..⟩

theorem exists_toggle (head : s.callers k = ⟨(i, v) :: calls, true⟩) :
    ∃ s', Reaches s s' ∧ s'.cells = Function.update s.cells i !s.cells i ∧
      s'.callers k = ⟨calls, false⟩ ∧ ∀ k' ≠ k, s'.callers k' = s.callers k' :=
  ⟨_, .of_step (step_toggle head), rfl, Function.update_self .., fun _ other =>
    Function.update_of_ne other ..⟩

/-- What the cells are behind calls that nobody disturbs. -/
def setCalls (cells : ι → Bool) (calls : List (ι × Bool)) : ι → Bool :=
  calls.foldl (fun cells call => Function.update cells call.1 call.2) cells

/-- A caller that nobody disturbs sets its cells. -/
theorem reaches_solo (done : List (ι × Bool)) {s : State κ ι}
    (head : s.callers k = ⟨done ++ calls, false⟩) :
    Reaches s ⟨setCalls s.cells done, Function.update s.callers k ⟨calls, false⟩⟩ := by
  induction done generalizing s with
  | nil =>
    have same : (⟨s.cells, Function.update s.callers k ⟨calls, false⟩⟩ : State κ ι) = s := by
      rw [← head.trans (congrArg (Caller.mk · false) (List.nil_append calls)),
        Function.update_eq_self]
    exact (congrArg (Reaches s) same).mpr (.refl s)
  | cons call done ih =>
    obtain ⟨i, v⟩ := call
    have one : Reaches s ⟨Function.update s.cells i v,
        Function.update s.callers k ⟨done ++ calls, false⟩⟩ := by
      by_cases same : s.cells i = v
      · rw [← same, Function.update_eq_self]
        exact .of_step (step_same head same)
      · refine (Reaches.of_step (step_differ head same)).trans (.of_step (k := k) ?_)
        rw [step_toggle (Function.update_self ..), Function.update_idem, Bool.not_eq.mpr same]
        rfl
    have rest := ih (s := ⟨Function.update s.cells i v,
      Function.update s.callers k ⟨done ++ calls, false⟩⟩) (Function.update_self ..)
    rw [Function.update_idem] at rest
    exact one.trans rest

theorem exists_solo (done : List (ι × Bool)) {s : State κ ι}
    (head : s.callers k = ⟨done ++ calls, false⟩) :
    ∃ s', Reaches s s' ∧ s'.cells = setCalls s.cells done ∧ s'.callers k = ⟨calls, false⟩ ∧
      ∀ k' ≠ k, s'.callers k' = s.callers k' :=
  ⟨_, reaches_solo done head, rfl, Function.update_self .., fun _ other =>
    Function.update_of_ne other ..⟩

theorem setCalls_of_unnamed (unnamed : ∀ v, (i, v) ∉ calls) (cells : ι → Bool) :
    setCalls cells calls i = cells i := by
  induction calls generalizing cells with
  | nil => rfl
  | cons call calls ih =>
    rw [setCalls, List.foldl_cons]
    refine (ih (fun v member => unnamed v (.tail _ member)) _).trans (Function.update_of_ne ?_ ..)
    exact fun same => unnamed call.2 (same ▸ List.mem_cons_self ..)

theorem setCalls_of_agreed (agreed : ∀ call ∈ calls, call.1 = i → call.2 = v) {cells : ι → Bool}
    (set : cells i = v ∨ ∃ v, (i, v) ∈ calls) : setCalls cells calls i = v := by
  induction calls generalizing cells with
  | nil => exact set.resolve_right fun ⟨_, member⟩ => absurd member List.not_mem_nil
  | cons call calls ih =>
    rw [setCalls, List.foldl_cons]
    refine ih (fun call member => agreed call (.tail _ member)) ?_
    by_cases own : i = call.1
    · refine .inl ?_
      rw [own, Function.update_self]
      exact agreed call (.head _) own.symm
    · rw [Function.update_of_ne own]
      refine set.imp_right fun ⟨w, member⟩ => ⟨w, (List.mem_cons.mp member).resolve_left ?_⟩
      exact fun first => own (congrArg Prod.fst first)

/-- Callers that run to their end one after the other leave a cell that they agree on set. -/
theorem reaches_finished {callers : List κ} (distinct : callers.Nodup) {s : State κ ι}
    (fresh : ∀ k ∈ callers, (s.callers k).toggling = false) (agreed : Agreed s i v)
    (set : s.cells i = v ∨ ∃ k ∈ callers, Named s k i) :
    ∃ s', Reaches s s' ∧ s'.cells i = v ∧ (∀ k ∈ callers, s'.callers k = ⟨[], false⟩) ∧
      ∀ k ∉ callers, s'.callers k = s.callers k := by
  induction callers generalizing s with
  | nil =>
    have settled := set.resolve_right fun ⟨_, member, _⟩ => absurd member List.not_mem_nil
    exact ⟨s, .refl s, settled, fun _ member => absurd member List.not_mem_nil, fun _ _ => rfl⟩
  | cons k callers ih =>
    obtain ⟨new, distinct⟩ := List.nodup_cons.mp distinct
    have head : s.callers k = ⟨(s.callers k).calls ++ [], false⟩ := by
      rw [List.append_nil, ← fresh k (.head _)]
    obtain ⟨mid, solo, cells, emptied, others⟩ := exists_solo _ head
    have other : ∀ k' ∈ callers, mid.callers k' = s.callers k' := fun k' member =>
      others k' fun same => new (same ▸ member)
    have freshMid : ∀ k' ∈ callers, (mid.callers k').toggling = false := fun k' member =>
      (congrArg Caller.toggling (other k' member)).trans (fresh k' (.tail _ member))
    have agreedMid : Agreed mid i v := by
      intro k' call member
      by_cases own : k' = k
      · rw [own, emptied] at member
        cases member
      · exact agreed k' call (others k' own ▸ member)
    have setMid : mid.cells i = v ∨ ∃ k' ∈ callers, Named mid k' i := by
      rw [cells]
      rcases set with settled | ⟨k', member, named⟩
      · exact .inl (setCalls_of_agreed (agreed k) (.inl settled))
      · rcases List.mem_cons.mp member with rfl | later
        · exact .inl (setCalls_of_agreed (agreed k') (.inr named))
        · exact .inr ⟨k', later, named.imp fun _ member => (other k' later).symm ▸ member⟩
    obtain ⟨s', reached, settled, ended, kept⟩ := ih distinct freshMid agreedMid setMid
    refine ⟨s', solo.trans reached, settled, fun k' member => ?_, fun k' outside => ?_⟩
    · rcases List.mem_cons.mp member with rfl | later
      · rw [kept k' new, emptied]
      · exact ended k' later
    · obtain ⟨own, outside⟩ := not_or.mp (mt List.mem_cons.mpr outside)
      rw [kept k' outside, others k' own]

/-- Two callers look at the same cell before either toggles it: the toggles cancel out. -/
theorem exists_collided {a b : κ} {callsA callsB : List (ι × Bool)} (distinct : a ≠ b)
    (headA : s.callers a = ⟨(i, v) :: callsA, false⟩)
    (headB : s.callers b = ⟨(i, v) :: callsB, false⟩) (differ : s.cells i ≠ v) :
    ∃ s', Reaches s s' ∧ s'.cells = s.cells ∧ s'.callers a = ⟨callsA, false⟩ ∧
      s'.callers b = ⟨callsB, false⟩ ∧ ∀ k, k ≠ a → k ≠ b → s'.callers k = s.callers k := by
  obtain ⟨s₁, lookA, cells₁, headA₁, others₁⟩ := exists_look headA differ
  obtain ⟨s₂, lookB, cells₂, headB₂, others₂⟩ := exists_look
    ((others₁ b distinct.symm).trans headB) (cells₁ ▸ differ)
  obtain ⟨s₃, toggleA, cells₃, headA₃, others₃⟩ := exists_toggle ((others₂ a distinct).trans headA₁)
  obtain ⟨s₄, toggleB, cells₄, headB₄, others₄⟩ := exists_toggle
    ((others₃ b distinct.symm).trans headB₂)
  refine ⟨s₄, lookA.trans (lookB.trans (toggleA.trans toggleB)), ?_,
    (others₄ a distinct).trans headA₃, headB₄, fun k notA notB => ?_⟩
  · rw [cells₄, cells₃, Function.update_idem, Function.update_self, Bool.not_not,
      Function.update_eq_self, cells₂, cells₁]
  · rw [others₄ k notB, others₃ k notA, others₂ k notB, others₁ k notA]

/-- The first of the calls that set a cell. -/
theorem exists_first (agreed : ∀ call ∈ calls, call.1 = i → call.2 = v)
    (some : 1 ≤ calls.countP fun call => call.1 = i) :
    ∃ before after, calls = before ++ (i, v) :: after ∧ (∀ w, (i, w) ∉ before) ∧
      calls.countP (fun call => call.1 = i) = after.countP (fun call => call.1 = i) + 1 := by
  obtain ⟨⟨j, w⟩, member, same⟩ := List.countP_pos_iff.mp some
  obtain rfl : j = i := of_decide_eq_true same
  obtain rfl : w = v := agreed _ member rfl
  obtain ⟨before, after, rfl, new⟩ := List.eq_append_cons_of_mem member
  have unnamed : ∀ u, (j, u) ∉ before := by
    intro u earlier
    have same : u = w := agreed (j, u) (List.mem_append_left _ earlier) rfl
    exact new (same ▸ earlier)
  have none : before.countP (fun call => call.1 = j) = 0 := by
    refine List.countP_eq_zero.mpr fun call earlier same => unnamed call.2 ?_
    exact of_decide_eq_true same ▸ earlier
  refine ⟨before, after, rfl, unnamed, ?_⟩
  rw [List.countP_append, none, Nat.zero_add, List.countP_cons_of_pos (by simp)]

omit [DecidableEq κ] [DecidableEq ι] in
theorem callers_eq (fresh : (s.callers k).toggling = false) (left : (s.callers k).calls = calls) :
    s.callers k = ⟨calls, false⟩ := by
  rw [← left, ← fresh]

/-- A caller with one call left of a cell looks at it, and toggles when all others are through:
the value is lost where one of these set it. -/
theorem exists_overtaken [Fintype κ] {a b : κ} {before after : List (ι × Bool)} {s : State κ ι}
    (fresh : ∀ k, (s.callers k).toggling = false) (agreed : Agreed s i v) (differ : s.cells i ≠ v)
    (distinct : a ≠ b) (callsA : (s.callers a).calls = before ++ (i, v) :: after)
    (unnamedBefore : ∀ w, (i, w) ∉ before) (unnamedAfter : ∀ w, (i, w) ∉ after)
    (namedB : Named s b i) : ∃ s', Reaches s s' ∧ Finished s' ∧ s'.cells i ≠ v := by
  obtain ⟨s₁, reach₁, cells₁, headA₁, others₁⟩ := exists_solo before (callers_eq (fresh a) callsA)
  have differ₁ : s₁.cells i ≠ v := by rwa [cells₁, setCalls_of_unnamed unnamedBefore]
  obtain ⟨s₂, reach₂, cells₂, headA₂, others₂⟩ := exists_look headA₁ differ₁
  have others : ∀ k ≠ a, s₂.callers k = s.callers k := fun k other =>
    (others₂ k other).trans (others₁ k other)
  have member : ∀ k, k ∈ (Finset.univ.erase a).toList ↔ k ≠ a := by simp
  have freshOthers : ∀ k ∈ (Finset.univ.erase a).toList, (s₂.callers k).toggling = false :=
    fun k other => (congrArg Caller.toggling (others k ((member k).mp other))).trans (fresh k)
  have namedOthers : ∃ k ∈ (Finset.univ.erase a).toList, Named s₂ k i :=
    ⟨b, (member b).mpr distinct.symm, namedB.imp fun _ call => (others b distinct.symm).symm ▸ call⟩
  obtain ⟨s₃, reach₃, settled, ended, kept⟩ := reaches_finished (Finset.nodup_toList _) freshOthers
    (agreed.of_reaches (reach₁.trans reach₂)) (.inr namedOthers)
  obtain ⟨s₄, reach₄, cells₄, headA₄, others₄⟩ := exists_toggle
    ((kept a fun other => (member a).mp other rfl).trans headA₂)
  have left : s₄.callers a = ⟨after ++ [], false⟩ := by rw [headA₄, List.append_nil]
  obtain ⟨s₅, reach₅, cells₅, headA₅, others₅⟩ := exists_solo after left
  refine ⟨s₅, reach₁.trans (reach₂.trans (reach₃.trans (reach₄.trans reach₅))), fun k => ?_, ?_⟩
  · by_cases own : k = a
    · rw [own, headA₅]
    · rw [others₅ k own, others₄ k own, ended k ((member k).mpr own)]
  · rw [cells₅, setCalls_of_unnamed unnamedAfter, cells₄, Function.update_self, settled]
    exact Bool.not_ne_self v

/-- Where two callers set a cell that does not have the value yet, the value may be lost: calls of
the one collide with calls of the other until the one has a single call left. -/
theorem exists_lost [Fintype κ] {a b : κ} (distinct : a ≠ b) (n : Nat) {s : State κ ι}
    (fresh : ∀ k, (s.callers k).toggling = false) (agreed : Agreed s i v) (differ : s.cells i ≠ v)
    (countA : (s.callers a).calls.countP (fun call => call.1 = i) = n + 1)
    (countB : n + 1 ≤ (s.callers b).calls.countP fun call => call.1 = i) :
    ∃ s', Reaches s s' ∧ Finished s' ∧ s'.cells i ≠ v := by
  induction n generalizing s with
  | zero =>
    obtain ⟨before, after, callsA, unnamed, rest⟩ := exists_first (agreed a) countA.ge
    obtain ⟨⟨j, w⟩, member, same⟩ := List.countP_pos_iff.mp countB
    have none : after.countP (fun call => call.1 = i) = 0 := by omega
    refine exists_overtaken fresh agreed differ distinct callsA unnamed (fun u later => ?_)
      ⟨w, of_decide_eq_true same ▸ member⟩
    exact List.countP_eq_zero.mp none (i, u) later (decide_eq_true rfl)
  | succ n ih =>
    obtain ⟨beforeA, afterA, callsA, unnamedA, restA⟩ :=
      exists_first (agreed a) (by omega)
    obtain ⟨beforeB, afterB, callsB, unnamedB, restB⟩ :=
      exists_first (agreed b) (by omega)
    obtain ⟨s₁, reach₁, cells₁, headA, others₁⟩ :=
      exists_solo beforeA (callers_eq (fresh a) callsA)
    obtain ⟨s₂, reach₂, cells₂, headB, others₂⟩ :=
      exists_solo beforeB ((others₁ b distinct.symm).trans (callers_eq (fresh b) callsB))
    have differ₂ : s₂.cells i ≠ v := by
      rwa [cells₂, setCalls_of_unnamed unnamedB, cells₁, setCalls_of_unnamed unnamedA]
    obtain ⟨s₃, reach₃, cells₃, leftA, leftB, others₃⟩ :=
      exists_collided distinct ((others₂ a distinct).trans headA) headB differ₂
    have reached := reach₁.trans (reach₂.trans reach₃)
    have fresh₃ : ∀ k, (s₃.callers k).toggling = false := by
      intro k
      by_cases ownA : k = a
      · rw [ownA, leftA]
      · by_cases ownB : k = b
        · rw [ownB, leftB]
        · rw [others₃ k ownA ownB, others₂ k ownB, others₁ k ownA, fresh k]
    have callsA₃ : (s₃.callers a).calls = afterA := congrArg Caller.calls leftA
    have callsB₃ : (s₃.callers b).calls = afterB := congrArg Caller.calls leftB
    have countA₃ : (s₃.callers a).calls.countP (fun call => call.1 = i) = n + 1 := by
      rw [callsA₃]
      omega
    have countB₃ : n + 1 ≤ (s₃.callers b).calls.countP fun call => call.1 = i := by
      rw [callsB₃]
      omega
    obtain ⟨s₄, reach₄, finished, lost⟩ :=
      ih fresh₃ (agreed.of_reaches reached) (cells₃ ▸ differ₂) countA₃ countB₃
    exact ⟨s₄, reached.trans reach₄, finished, lost⟩

/-- What the callers agree on is kept in every order of their steps exactly where no two of them
set a cell that does not have its value. -/
theorem kept_iff [Fintype κ] (fresh : ∀ k, (s.callers k).toggling = false) :
    Kept s ↔ Uncontended s := by
  constructor
  · intro kept i v named agreed
    by_contra contended
    obtain ⟨differ, several⟩ := not_or.mp contended
    push Not at several
    obtain ⟨a, b, ⟨w, callA⟩, ⟨w', callB⟩, distinct⟩ := several
    have countA : 0 < (s.callers a).calls.countP fun call => call.1 = i :=
      List.countP_pos_iff.mpr ⟨_, callA, decide_eq_true rfl⟩
    have countB : 0 < (s.callers b).calls.countP fun call => call.1 = i :=
      List.countP_pos_iff.mpr ⟨_, callB, decide_eq_true rfl⟩
    have lost : ∃ s', Reaches s s' ∧ Finished s' ∧ s'.cells i ≠ v := by
      rcases le_total ((s.callers a).calls.countP fun call => call.1 = i)
        ((s.callers b).calls.countP fun call => call.1 = i) with fewer | fewer
      · exact exists_lost distinct _ fresh agreed differ (Nat.succ_pred_eq_of_pos countA).symm
          ((Nat.succ_pred_eq_of_pos countA).le.trans fewer)
      · exact exists_lost distinct.symm _ fresh agreed differ (Nat.succ_pred_eq_of_pos countB).symm
          ((Nat.succ_pred_eq_of_pos countB).le.trans fewer)
    obtain ⟨s', ⟨order, ran⟩, finished, lost⟩ := lost
    exact lost ((kept order s' ran finished).1 i v named agreed)
  · intro alone order s' ran finished
    exact ⟨fun i v named agreed =>
      cells_of_uncontended fresh named agreed (alone i v named agreed) ran finished,
      fun i unnamed => cells_of_unnamed unnamed ran⟩

end Toggles
