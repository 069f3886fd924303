import XnuTrace.ThreadCtx
import XnuTrace.LogThreadBuf

/-! What a journal contains: its messages replay the calls, a message follows every sync
frame, and a journal that is cut at a sync frame consists of two. -/
namespace XnuTrace
open Memory Framing XnuTrace.Frame

/-- `last_cpu_ctx` after a call. -/
def LogCall.next (last : LogArm64CpuContext) : LogCall → LogArm64CpuContext
  | .pc value => { last with pc := value }
  | .ctx context => context

/-- `last_cpu_ctx` before the calls and after each of them. -/
def contexts (last : LogArm64CpuContext) (calls : List LogCall) : List LogArm64CpuContext :=
  calls.scanl LogCall.next last

theorem contexts_ctx (last : LogArm64CpuContext) (cs : List LogArm64CpuContext) :
    contexts last (cs.map .ctx) = last :: cs := by
  induction cs generalizing last with
  | nil => exact List.scanl_nil
  | cons c cs ih =>
    rw [List.map_cons, contexts, List.scanl_cons]
    exact congrArg (last :: ·) (ih c)

theorem callsFit_ctx (last : LogArm64CpuContext) (cs : List LogArm64CpuContext) :
    CallsFit last (cs.map .ctx) ↔ (last :: cs).IsChain WithinLimits := by
  induction cs generalizing last with
  | nil => exact ⟨fun _ => .singleton _, fun _ => trivial⟩
  | cons c cs ih =>
    rw [List.map_cons, CallsFit, ih, List.isChain_cons_cons]

theorem withinLimits_self (c : LogArm64CpuContext) : WithinLimits c c := by
  have gprs : changedGprs c c = [] := by simp [changedGprs]
  have vecs : changedVecs c c = [] := by simp [changedVecs]
  rw [WithinLimits, gprs, vecs]
  exact ⟨Nat.zero_le _, Nat.zero_le _⟩

/-- The first call compares its context with itself. -/
theorem callsFit_first {c : LogArm64CpuContext} {cs : List LogArm64CpuContext}
    (fit : (c :: cs).IsChain WithinLimits) :
    CallsFit (LogCall.ctx c).context (.ctx c :: cs.map .ctx) :=
  ⟨withinLimits_self c, (callsFit_ctx c cs).mpr fit⟩

theorem Frame.deltas_due (s : Cursor) : deltas s.due = [] := by
  unfold Cursor.due
  split <;> rfl

namespace Delta

theorem apply_pcOnly {lastPc pc : Uint64} {last c : LogArm64CpuContext}
    (same : c.SameRegisters last) :
    ((pcOnly lastPc pc).apply c).SameRegisters { last with pc := pc } :=
  ⟨same.sp, same.x, same.fp, same.lr, same.v⟩

end Delta

namespace Journal
variable {s t : Cursor} {calls : List LogCall} {frames : List Frame}

theorem spaced (journal : Journal s calls frames t) : Spaced frames := by
  induction journal with
  | done => trivial
  | @ctx s _ _ _ _ _ _ ih =>
    unfold Cursor.due
    split <;> exact ih
  | pc _ ih => exact ih

theorem last_eq (journal : Journal s calls frames t) : t.last = calls.foldl LogCall.next s.last := by
  induction journal with
  | done => rfl
  | ctx _ _ ih => exact ih
  | pc _ ih => exact ih

theorem length_deltas (journal : Journal s calls frames t) :
    (deltas frames).length = calls.length := by
  induction journal with
  | done => rfl
  | ctx _ _ ih =>
    simp only [deltas_append, deltas_due, List.nil_append, deltas_msg, List.length_cons, ih]
  | pc _ ih => rw [deltas_msg, List.length_cons, ih, List.length_cons]

theorem numInst_eq (journal : Journal s calls frames t) :
    t.numInst = s.numInst + BitVec.ofNat 64 calls.length := by
  have step : ∀ (m : Uint64) (n : Nat),
      m + 1 + BitVec.ofNat 64 n = m + BitVec.ofNat 64 (n + 1) := by
    intro m n
    rw [BitVec.add_assoc, Nat.add_comm n 1, BitVec.ofNat_add]
    rfl
  induction journal with
  | done => exact (BitVec.add_zero _).symm
  | ctx _ _ ih => exact ih.trans (step _ _)
  | pc _ ih => exact ih.trans (step _ _)

/-- The program counters by `pc_iterator`'s rule. -/
theorem nextPc_eq (journal : Journal s calls frames t) :
    (deltas frames).scanl (fun pc d => d.nextPc pc) s.last.pc =
      (contexts s.last calls).map (·.pc) := by
  unfold contexts
  induction journal with
  | done => simp only [deltas_nil, List.scanl_nil, List.map_cons, List.map_nil]
  | ctx fits _ ih =>
    simp only [deltas_append, deltas_due, List.nil_append, deltas_msg, List.scanl_cons,
      List.map_cons, Delta.nextPc_between]
    exact congrArg _ ih
  | pc _ ih =>
    simp only [deltas_msg, List.scanl_cons, List.map_cons, Delta.nextPc_pcOnly]
    exact congrArg _ ih

/-- The registers by `update`, from any context with the registers of the first. -/
theorem apply_same (journal : Journal s calls frames t) {c : LogArm64CpuContext}
    (same : c.SameRegisters s.last) :
    List.Forall₂ LogArm64CpuContext.SameRegisters
      ((deltas frames).scanl (fun c d => d.apply c) c) (contexts s.last calls) := by
  unfold contexts
  induction journal generalizing c with
  | done =>
    simp only [deltas_nil, List.scanl_nil]
    exact .cons same .nil
  | ctx fits _ ih =>
    simp only [deltas_append, deltas_due, List.nil_append, deltas_msg, List.scanl_cons]
    exact .cons same (ih (Delta.apply_between fits same).1)
  | pc _ ih =>
    simp only [deltas_msg, List.scanl_cons]
    exact .cons same (ih (Delta.apply_pcOnly same))

theorem append {u : Cursor} {calls' : List LogCall} {frames' : List Frame}
    (journal : Journal s calls frames t) (rest : Journal t calls' frames' u) :
    Journal s (calls ++ calls') (frames ++ frames') u := by
  induction journal with
  | done => exact rest
  | ctx fits _ ih =>
    rw [List.append_assoc]
    exact .ctx fits (ih rest)
  | pc _ ih => exact .pc (ih rest)

/-- A sync frame shows the cursor at the call that wrote it. -/
theorem cut {before after : List Frame} {numInst : Uint64} {ctx : LogArm64CpuContext}
    (journal : Journal s calls (before ++ .sync numInst ctx :: after) t) :
    ∃ calls₁ calls₂ u, calls = calls₁ ++ calls₂ ∧ Journal s calls₁ before u ∧
      Journal u calls₂ (.sync numInst ctx :: after) t ∧ numInst = u.numInst ∧ ctx = u.last ∧
      u.sz ≥ syncEvery := by
  generalize whole : before ++ .sync numInst ctx :: after = frames at journal
  induction journal generalizing before with
  | done => exact absurd whole (by simp)
  | @ctx s t context calls frames fits rest ih =>
    by_cases due : s.sz ≥ syncEvery
    · have dueFrames : s.due = [.sync s.numInst s.last] := if_pos due
      rw [dueFrames] at whole
      cases before with
      | nil =>
        simp only [List.nil_append, List.cons_append, List.cons.injEq, sync.injEq] at whole
        obtain ⟨⟨rfl, rfl⟩, rfl⟩ := whole
        have journal := Journal.ctx fits rest
        rw [dueFrames] at journal
        exact ⟨[], _, s, rfl, .done s, journal, rfl, rfl, due⟩
      | cons f before =>
        cases before with
        | nil => simp at whole
        | cons g before =>
          simp only [List.cons_append, List.nil_append, List.cons.injEq] at whole
          obtain ⟨rfl, rfl, whole⟩ := whole
          obtain ⟨calls₁, calls₂, u, rfl, first, second, shown⟩ := ih whole
          have journal := Journal.ctx fits first
          rw [dueFrames] at journal
          exact ⟨_ :: calls₁, calls₂, u, rfl, journal, second, shown⟩
    · have dueFrames : s.due = [] := if_neg due
      rw [dueFrames] at whole
      cases before with
      | nil => simp at whole
      | cons f before =>
        simp only [List.cons_append, List.nil_append, List.cons.injEq] at whole
        obtain ⟨rfl, whole⟩ := whole
        obtain ⟨calls₁, calls₂, u, rfl, first, second, shown⟩ := ih whole
        have journal := Journal.ctx fits first
        rw [dueFrames] at journal
        exact ⟨_ :: calls₁, calls₂, u, rfl, journal, second, shown⟩
  | @pc s t pc calls frames rest ih =>
    cases before with
    | nil => simp at whole
    | cons f before =>
      simp only [List.cons_append, List.cons.injEq] at whole
      obtain ⟨rfl, whole⟩ := whole
      obtain ⟨calls₁, calls₂, u, rfl, first, second, shown⟩ := ih whole
      exact ⟨_ :: calls₁, calls₂, u, rfl, .pc first, second, shown⟩

end Journal

end XnuTrace
