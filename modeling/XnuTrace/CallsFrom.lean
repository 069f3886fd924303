import XnuTrace.SymbolLookup
import XnuTrace.BasicBlocks
import XnuTrace.Lib.Neighbours
import Mathlib.Data.Finset.Basic
import Mathlib.Data.Set.Lattice

/-! `dump_calls_from`: the previous block and its image are carried from each block to the
next, and from the last block of a thread to the first block of the thread behind it. -/
namespace XnuTrace
open Neighbours FallibleMap

/-- `std::map<sym_info, std::set<uint64_t>>`: symbols compare by their base. -/
abbrev CalledSyms := Uint64 → Option (SymInfo × Finset Uint64)

namespace CalledSyms

/-- `emplace` of the symbol, then of the caller. -/
def emplace (m : CalledSyms) (sym : SymInfo) (callingPc : Uint64) : CalledSyms :=
  Function.update m sym.base <| match m sym.base with
    | none => some (sym, {callingPc})
    | some (key, callers) => some (key, insert callingPc callers)

/-- The union of two maps. -/
def union (m m' : CalledSyms) : CalledSyms := fun base =>
  match m base, m' base with
  | some (sym, callers), some (_, callers') => some (sym, callers ∪ callers')
  | some called, none => some called
  | none, called => called

def unionAll (ms : List CalledSyms) : CalledSyms := ms.foldl union fun _ => none

/-- The map as a set of callees and callers. -/
def pairs (m : CalledSyms) : Set (SymInfo × Uint64) :=
  { call | ∃ callers, m call.1.base = some (call.1, callers) ∧ call.2 ∈ callers }

/-- Each callee is the symbol that a lookup of its base finds, and has a caller. -/
def Keyed (syms : Symbols) (m : CalledSyms) : Prop :=
  ∀ base sym callers, m base = some (sym, callers) →
    sym.base = base ∧ syms.lookup base = some sym ∧ callers.Nonempty

end CalledSyms

/-- The locals of the loops; `last_img_info` and `last_bb` are set together. -/
structure CallScan where
  last : Option ((ImageInfo × Nat) × Bb) := none
  calledSyms : CalledSyms := fun _ => none

section
variable (m : MachORegions) (syms : Symbols)

def CallScan.step (targetImgInfo : ImageInfo × Nat) (s : CallScan) (bb : Bb) :
    Option CallScan := do
  let imgInfo ← m.lookup bb.pc
  let calledSyms := match s.last, syms.lookup bb.pc with
    | some (lastImgInfo, lastBb), some sym =>
      if lastImgInfo.2 = targetImgInfo.2 ∧ sym.base = bb.pc then
        let callingPc := lastBb.pc + lastBb.sz.setWidth 64 - 4
        s.calledSyms.emplace sym (callingPc - lastImgInfo.1.slide)
      else s.calledSyms
    | _, _ => s.calledSyms
  return { last := some (imgInfo, bb), calledSyms }

/-- `called_syms`, from the blocks of each parsed log. -/
def dumpCallsFrom (callingImage : List Uint8) (tbbs : List (List Bb)) : Option CalledSyms := do
  let targetImgInfo ← m.lookupImage callingImage
  let scan ← tbbs.foldlM (fun s bbs => bbs.foldlM (CallScan.step m syms targetImgInfo) s) {}
  return scan.calledSyms

/-- The callee and the caller that two consecutive blocks are reported as. -/
def callOf (targetImgInfo : ImageInfo × Nat) (bb bb' : Bb) : Option (SymInfo × Uint64) := do
  let imgInfo ← m.lookup bb.pc
  let sym ← syms.lookup bb'.pc
  if imgInfo.2 = targetImgInfo.2 ∧ sym.base = bb'.pc then
    some (sym, bb.pc + bb.sz.setWidth 64 - 4 - imgInfo.1.slide)
  else none

/-- Reported for two blocks that are consecutive in one thread. -/
def CalledInThread (targetImgInfo : ImageInfo × Nat) (tbbs : List (List Bb))
    (call : SymInfo × Uint64) : Prop :=
  ∃ bbs ∈ tbbs, ∃ bb bb', Consecutive bbs bb bb' ∧ callOf m syms targetImgInfo bb bb' = some call

end

namespace CalledSyms
variable {syms : Symbols} {m m' : CalledSyms}

theorem keyed_empty (syms : Symbols) : Keyed syms fun _ => none :=
  fun _ _ _ stored => absurd stored.symm (Option.some_ne_none _)

/-- Maps of this kind are determined by their pairs. -/
theorem Keyed.eq_of_pairs (keyed : m.Keyed syms) (keyed' : m'.Keyed syms)
    (same : m.pairs = m'.pairs) : m = m' := by
  have stored : ∀ {m m' : CalledSyms}, m.Keyed syms → m.pairs = m'.pairs →
      ∀ {base sym callers}, m base = some (sym, callers) →
        ∃ callers', m' base = some (sym, callers') ∧ callers ⊆ callers' := by
    intro m m' keyed same base sym callers found
    obtain ⟨rfl, _, caller, member⟩ := keyed base sym callers found
    have inside : ∀ pc ∈ callers, (sym, pc) ∈ m'.pairs :=
      fun pc member => same ▸ ⟨callers, found, member⟩
    obtain ⟨callers', found', _⟩ := inside caller member
    refine ⟨callers', found', fun pc member => ?_⟩
    obtain ⟨callers'', found'', member'⟩ := inside pc member
    cases found'.symm.trans found''
    exact member'
  funext base
  cases found : m base with
  | some entry =>
    obtain ⟨sym, callers⟩ := entry
    obtain ⟨callers', found', more⟩ := stored keyed same found
    obtain ⟨callers'', found'', less⟩ := stored keyed' same.symm found'
    cases found.symm.trans found''
    rw [found', Finset.Subset.antisymm more less]
  | none =>
    cases found' : m' base with
    | none => rfl
    | some entry =>
      obtain ⟨sym, callers⟩ := entry
      obtain ⟨callers, found'', _⟩ := stored keyed' same.symm found'
      cases found.symm.trans found''

theorem mem_pairs_iff {call : SymInfo × Uint64} {sym : SymInfo} {callers : Finset Uint64}
    (stored : m call.1.base = some (sym, callers)) :
    call ∈ m.pairs ↔ call.1 = sym ∧ call.2 ∈ callers := by
  constructor
  · rintro ⟨callers', found, member⟩
    cases stored.symm.trans found
    exact ⟨rfl, member⟩
  · rintro ⟨rfl, member⟩
    exact ⟨callers, stored, member⟩

theorem not_mem_pairs {call : SymInfo × Uint64} (absent : m call.1.base = none) :
    call ∉ m.pairs := by
  rintro ⟨callers, found, _⟩
  cases absent.symm.trans found

theorem Keyed.emplace (keyed : m.Keyed syms) {sym : SymInfo}
    (found : syms.lookup sym.base = some sym) (callingPc : Uint64) :
    (m.emplace sym callingPc).Keyed syms ∧
      (m.emplace sym callingPc).pairs = insert (sym, callingPc) m.pairs := by
  -- an entry under this base is for this symbol
  obtain ⟨callers, entered, old⟩ : ∃ callers,
      m.emplace sym callingPc = Function.update m sym.base (some (sym, insert callingPc callers)) ∧
      ∀ call : SymInfo × Uint64, call.1.base = sym.base →
        (call ∈ m.pairs ↔ call.1 = sym ∧ call.2 ∈ callers) := by
    cases stored : m sym.base with
    | none =>
      refine ⟨∅, by rw [CalledSyms.emplace, stored]; rfl, fun call same => ?_⟩
      rw [← same] at stored
      simp [not_mem_pairs stored]
    | some entry =>
      obtain ⟨key, callers⟩ := entry
      obtain ⟨_, first, _⟩ := keyed _ _ _ stored
      cases first.symm.trans found
      refine ⟨callers, by rw [CalledSyms.emplace, stored], fun call same => ?_⟩
      rw [← same] at stored
      exact mem_pairs_iff stored
  rw [entered]
  constructor
  · intro base sym' callers' stored
    by_cases same : base = sym.base
    · subst same
      rw [Function.update_self] at stored
      cases stored
      exact ⟨rfl, found, Finset.insert_nonempty _ _⟩
    · rw [Function.update_of_ne same] at stored
      exact keyed base sym' callers' stored
  · ext call
    rw [Set.mem_insert_iff]
    by_cases same : call.1.base = sym.base
    · have here : Function.update m sym.base (some (sym, insert callingPc callers)) call.1.base =
          some (sym, insert callingPc callers) := by rw [same, Function.update_self]
      rw [mem_pairs_iff here, old call same, Finset.mem_insert, and_or_left, Prod.ext_iff]
    · have here : Function.update m sym.base (some (sym, insert callingPc callers)) call.1.base =
          m call.1.base := Function.update_of_ne same ..
      have other : call ≠ (sym, callingPc) := fun h => same (by rw [h])
      rw [or_iff_right other, pairs, Set.mem_ofPred_eq, here]
      rfl

theorem union_of_none {base : Uint64} (absent : m base = none) : m.union m' base = m' base := by
  rw [union, absent]

theorem union_of_none_right {base : Uint64} {entry : SymInfo × Finset Uint64}
    (found : m base = some entry) (absent : m' base = none) : m.union m' base = some entry := by
  rw [union, found, absent]

/-- Entries of one base are for one symbol. -/
theorem Keyed.union_of_some (keyed : m.Keyed syms) (keyed' : m'.Keyed syms) {base : Uint64}
    {sym sym' : SymInfo} {callers callers' : Finset Uint64} (found : m base = some (sym, callers))
    (found' : m' base = some (sym', callers')) :
    sym = sym' ∧ m.union m' base = some (sym, callers ∪ callers') := by
  refine ⟨?_, by rw [union, found, found']⟩
  exact Option.some.inj ((keyed _ _ _ found).2.1.symm.trans (keyed' _ _ _ found').2.1)

theorem Keyed.union (keyed : m.Keyed syms) (keyed' : m'.Keyed syms) : (m.union m').Keyed syms := by
  intro base sym callers stored
  cases found : m base with
  | none =>
    rw [union_of_none found] at stored
    exact keyed' base sym callers stored
  | some entry =>
    obtain ⟨key, old⟩ := entry
    obtain ⟨own, first, some⟩ := keyed base key old found
    cases found' : m' base with
    | none =>
      rw [union_of_none_right found found'] at stored
      cases stored
      exact ⟨own, first, some⟩
    | some entry' =>
      rw [(keyed.union_of_some keyed' found found').2] at stored
      cases stored
      exact ⟨own, first, some.mono Finset.subset_union_left⟩

theorem Keyed.pairs_union (keyed : m.Keyed syms) (keyed' : m'.Keyed syms) :
    (m.union m').pairs = m.pairs ∪ m'.pairs := by
  ext call
  rw [Set.mem_union]
  cases found : m call.1.base with
  | none =>
    rw [or_iff_right (not_mem_pairs found), pairs, Set.mem_ofPred_eq, union_of_none found]
    rfl
  | some entry =>
    obtain ⟨sym, callers⟩ := entry
    cases found' : m' call.1.base with
    | none =>
      have here := union_of_none_right found found'
      rw [or_iff_left (not_mem_pairs found'), mem_pairs_iff here, mem_pairs_iff found]
    | some entry' =>
      obtain ⟨sym', callers'⟩ := entry'
      obtain ⟨rfl, here⟩ := keyed.union_of_some keyed' found found'
      rw [mem_pairs_iff here, mem_pairs_iff found, mem_pairs_iff found', Finset.mem_union,
        and_or_left]

theorem keyed_unionAll {ms : List CalledSyms} (keyed : ∀ m ∈ ms, m.Keyed syms) :
    (unionAll ms).Keyed syms ∧ ∀ call, call ∈ (unionAll ms).pairs ↔ ∃ m ∈ ms, call ∈ m.pairs := by
  have fold : ∀ {start : CalledSyms}, start.Keyed syms → (ms.foldl union start).Keyed syms ∧
      ∀ call, call ∈ (ms.foldl union start).pairs ↔
        call ∈ start.pairs ∨ ∃ m ∈ ms, call ∈ m.pairs := by
    induction ms with
    | nil => exact fun first => ⟨first, fun call => by simp⟩
    | cons m ms ih =>
      intro start first
      have added := keyed m List.mem_cons_self
      obtain ⟨rest, all⟩ :=
        ih (fun m h => keyed m (List.mem_cons_of_mem _ h)) (first.union added)
      refine ⟨rest, fun call => (all call).trans ?_⟩
      rw [first.pairs_union added, Set.mem_union, or_assoc]
      simp only [List.mem_cons, exists_eq_or_imp]
  obtain ⟨all, each⟩ := fold (keyed_empty syms)
  refine ⟨all, fun call => (each call).trans (or_iff_right ?_)⟩
  exact not_mem_pairs rfl

end CalledSyms

section
variable {m : MachORegions} {syms : Symbols} {targetImgInfo : ImageInfo × Nat} {s : CallScan}

/-- The block before, if there is one. -/
def CallScan.lastBb (s : CallScan) : List Bb := (s.last.map Prod.snd).toList

structure CallScan.Valid (m : MachORegions) (syms : Symbols) (s : CallScan) : Prop where
  last : ∀ last ∈ s.last, m.lookup last.2.pc = some last.1
  keyed : s.calledSyms.Keyed syms

/-- A step behind a block that does not call the new one only remembers the new one. -/
theorem CallScan.Valid.step_silent (valid : s.Valid m syms) {bb : Bb} {imgInfo : ImageInfo × Nat}
    (found : m.lookup bb.pc = some imgInfo)
    (silent : ∀ last ∈ s.lastBb, callOf m syms targetImgInfo last bb = none) :
    s.step m syms targetImgInfo bb = some { s with last := some (imgInfo, bb) } := by
  cases before : s.last with
  | none => simp only [CallScan.step, found, before, Option.bind_eq_bind, Option.bind_some, pure]
  | some last =>
    obtain ⟨lastImgInfo, lastBb⟩ := last
    have image : m.lookup lastBb.pc = some lastImgInfo := valid.last _ before
    have only : s.lastBb = [lastBb] := by rw [CallScan.lastBb, before]; rfl
    have quiet := silent lastBb (only ▸ List.mem_singleton_self _)
    cases symbol : syms.lookup bb.pc with
    | none =>
      simp only [CallScan.step, found, before, symbol, Option.bind_eq_bind, Option.bind_some, pure]
    | some sym =>
      simp only [callOf, image, symbol, Option.bind_eq_bind, Option.bind_some,
        ite_eq_right_iff, reduceCtorEq, imp_false] at quiet
      simp only [CallScan.step, found, before, symbol, if_neg quiet, Option.bind_eq_bind,
        Option.bind_some, pure]

/-- A step behind a block that calls the new one adds the call, under the symbol of its callee. -/
theorem CallScan.Valid.step_call (valid : s.Valid m syms) {last bb : Bb}
    {imgInfo : ImageInfo × Nat} {sym : SymInfo} {callingPc : Uint64}
    (found : m.lookup bb.pc = some imgInfo) (member : last ∈ s.lastBb)
    (called : callOf m syms targetImgInfo last bb = some (sym, callingPc)) :
    syms.lookup sym.base = some sym ∧ s.step m syms targetImgInfo bb =
      some { last := some (imgInfo, bb), calledSyms := s.calledSyms.emplace sym callingPc } := by
  obtain ⟨⟨lastImgInfo, lastBb⟩, before, same⟩ :=
    Option.map_eq_some_iff.mp (Option.mem_toList.mp member)
  cases same
  have image : m.lookup lastBb.pc = some lastImgInfo := valid.last _ before
  cases symbol : syms.lookup bb.pc with
  | none =>
    simp only [callOf, image, symbol, Option.bind_eq_bind, Option.bind_some, Option.bind_none,
      reduceCtorEq] at called
  | some callee =>
    simp only [callOf, image, symbol, Option.bind_eq_bind, Option.bind_some,
      Option.ite_none_right_eq_some] at called
    obtain ⟨target, ⟨⟩⟩ := called
    refine ⟨by rw [target.2, symbol], ?_⟩
    simp only [CallScan.step, found, before, symbol, if_pos target, Option.bind_eq_bind,
      Option.bind_some, pure]

/-- A block is reported with the block before it, whatever thread that belongs to. -/
theorem CallScan.Valid.step (valid : s.Valid m syms) {bb : Bb}
    (inRegion : (m.lookup bb.pc).isSome) :
    ∃ s', s.step m syms targetImgInfo bb = some s' ∧ s'.Valid m syms ∧ s'.lastBb = [bb] ∧
      ∀ call, call ∈ s'.calledSyms.pairs ↔ call ∈ s.calledSyms.pairs ∨
        ∃ last ∈ s.lastBb, callOf m syms targetImgInfo last bb = some call := by
  obtain ⟨imgInfo, found⟩ := Option.isSome_iff_exists.mp inRegion
  have remembers : ∀ last ∈ some (imgInfo, bb), m.lookup last.2.pc = some last.1 := by
    rintro _ ⟨⟩
    exact found
  by_cases silent : ∀ last ∈ s.lastBb, callOf m syms targetImgInfo last bb = none
  · refine ⟨_, valid.step_silent found silent, ⟨remembers, valid.keyed⟩, rfl, fun call =>
      (or_iff_left ?_).symm⟩
    rintro ⟨last, member, reported⟩
    cases (silent last member).symm.trans reported
  · push Not at silent
    obtain ⟨last, member, reported⟩ := silent
    obtain ⟨⟨sym, callingPc⟩, called⟩ := Option.ne_none_iff_exists'.mp reported
    obtain ⟨first, stepped⟩ := valid.step_call found member called
    obtain ⟨keyed, pairs⟩ := valid.keyed.emplace first callingPc
    refine ⟨_, stepped, ⟨remembers, keyed⟩, rfl, fun call => ?_⟩
    have only : s.lastBb = [last] := by
      rw [CallScan.lastBb] at member ⊢
      rw [Option.mem_toList.mp member, Option.toList_some]
    simp only [pairs, only, List.mem_singleton, exists_eq_left, called, Set.mem_insert_iff,
      Option.some.injEq]
    rw [or_comm, eq_comm]

theorem CallScan.Valid.run (valid : s.Valid m syms) {bbs : List Bb}
    (inRegions : ∀ bb ∈ bbs, (m.lookup bb.pc).isSome) :
    ∃ s', bbs.foldlM (CallScan.step m syms targetImgInfo) s = some s' ∧ s'.Valid m syms ∧
      ∀ call, call ∈ s'.calledSyms.pairs ↔ call ∈ s.calledSyms.pairs ∨
        ∃ bb bb', Consecutive (s.lastBb ++ bbs) bb bb' ∧
          callOf m syms targetImgInfo bb bb' = some call := by
  have alone : ∀ {s : CallScan} {bb bb'}, ¬ Consecutive s.lastBb bb bb' := by
    intro s bb bb' together
    have short : s.lastBb.length ≤ 1 := by
      rw [lastBb]
      cases s.last <;> simp
    exact absurd together.length_le (Nat.not_le.mpr (Nat.lt_succ_of_le short))
  induction bbs generalizing s with
  | nil =>
    refine ⟨s, rfl, valid, fun call => (or_iff_left ?_).symm⟩
    rintro ⟨bb, bb', together, _⟩
    rw [List.append_nil] at together
    exact alone together
  | cons bb bbs ih =>
    obtain ⟨s₁, stepped, valid₁, last₁, pairs₁⟩ := valid.step (inRegions bb List.mem_cons_self)
    obtain ⟨s₂, ran, valid₂, pairs₂⟩ := ih valid₁ fun bb h => inRegions bb (List.mem_cons_of_mem _ h)
    refine ⟨s₂, ?_, valid₂, fun call => ?_⟩
    · rw [List.foldlM_cons, stepped]
      exact ran
    · rw [pairs₂, pairs₁, last₁, or_assoc, List.singleton_append]
      refine or_congr_right ⟨?_, ?_⟩
      · rintro (⟨last, member, reported⟩ | ⟨bb₁, bb₂, together, reported⟩)
        · refine ⟨last, bb, consecutive_append.mpr (.inr (.inl ⟨?_, rfl⟩)), reported⟩
          rw [lastBb] at member ⊢
          cases before : s.last with
          | none => simp [before] at member
          | some pair =>
            rw [before] at member
            rw [List.mem_singleton.mp member]
            rfl
        · exact ⟨bb₁, bb₂, consecutive_append.mpr (.inr (.inr together)), reported⟩
      · rintro ⟨bb₁, bb₂, together, reported⟩
        rcases consecutive_append.mp together with within | ⟨last, first⟩ | later
        · exact absurd within alone
        · cases first
          exact .inl ⟨bb₁, List.mem_of_getLast? last, reported⟩
        · exact .inr ⟨bb₁, bb₂, later, reported⟩

/-- The threads are scanned as one list of blocks. -/
theorem dumpCallsFrom_spec {callingImage : List Uint8}
    (found : m.lookupImage callingImage = some targetImgInfo) {tbbs : List (List Bb)}
    (inRegions : ∀ bbs ∈ tbbs, ∀ bb ∈ bbs, (m.lookup bb.pc).isSome) :
    ∃ called, dumpCallsFrom m syms callingImage tbbs = some called ∧ called.Keyed syms ∧
      ∀ call, call ∈ called.pairs ↔ ∃ bb bb', Consecutive tbbs.flatten bb bb' ∧
        callOf m syms targetImgInfo bb bb' = some call := by
  have nested : ∀ s : CallScan,
      tbbs.foldlM (fun s bbs => bbs.foldlM (CallScan.step m syms targetImgInfo) s) s =
        tbbs.flatten.foldlM (CallScan.step m syms targetImgInfo) s := by
    clear inRegions
    induction tbbs with
    | nil => exact fun s => rfl
    | cons bbs tbbs ih =>
      intro s
      rw [List.foldlM_cons, List.flatten_cons, List.foldlM_append]
      exact congrArg _ (funext ih)
  have start : CallScan.Valid m syms {} := ⟨fun _ none => absurd none.symm (Option.some_ne_none _),
    CalledSyms.keyed_empty syms⟩
  obtain ⟨s, ran, valid, pairs⟩ := @CallScan.Valid.run _ _ targetImgInfo _ start tbbs.flatten
    fun bb member => by
      obtain ⟨bbs, inThreads, member⟩ := List.mem_flatten.mp member
      exact inRegions bbs inThreads bb member
  refine ⟨s.calledSyms, ?_, valid.keyed, fun call => (pairs call).trans (or_iff_right ?_)⟩
  · simp only [dumpCallsFrom, found, nested, ran, Option.bind_eq_bind, Option.bind_some, pure]
  · exact CalledSyms.not_mem_pairs rfl

/-- The map is the union of the maps of the single threads, and a caller is reported only for
blocks that are consecutive in one thread. -/
def PerThread (m : MachORegions) (syms : Symbols) (callingImage : List Uint8)
    (tbbs : List (List Bb)) : Prop :=
  ∃ targetImgInfo called alone, m.lookupImage callingImage = some targetImgInfo ∧
    dumpCallsFrom m syms callingImage tbbs = some called ∧
    tbbs.mapM (fun bbs => dumpCallsFrom m syms callingImage [bbs]) = some alone ∧
    called = CalledSyms.unionAll alone ∧
    ∀ call ∈ called.pairs, CalledInThread m syms targetImgInfo tbbs call

/-- What is reported for the last block of a thread and the first of the next is reported
within a thread as well. -/
def Covered (m : MachORegions) (syms : Symbols) (targetImgInfo : ImageInfo × Nat)
    (tbbs : List (List Bb)) (bb bb' : Bb) : Prop :=
  ∀ call, callOf m syms targetImgInfo bb bb' = some call → CalledInThread m syms targetImgInfo tbbs call

theorem unionAll_alone {callingImage : List Uint8}
    (found : m.lookupImage callingImage = some targetImgInfo) {tbbs : List (List Bb)}
    (inRegions : ∀ bbs ∈ tbbs, ∀ bb ∈ bbs, (m.lookup bb.pc).isSome) :
    ∃ alone, tbbs.mapM (fun bbs => dumpCallsFrom m syms callingImage [bbs]) = some alone ∧
      (CalledSyms.unionAll alone).Keyed syms ∧
      ∀ call, call ∈ (CalledSyms.unionAll alone).pairs ↔
        CalledInThread m syms targetImgInfo tbbs call := by
  have single : ∀ bbs ∈ tbbs, ∃ called, dumpCallsFrom m syms callingImage [bbs] = some called ∧
      called.Keyed syms ∧ ∀ call, call ∈ called.pairs ↔ ∃ bb bb', Consecutive bbs bb bb' ∧
        callOf m syms targetImgInfo bb bb' = some call := by
    intro bbs member
    have spec := @dumpCallsFrom_spec m syms targetImgInfo callingImage found [bbs]
      (List.forall_mem_singleton.mpr (inRegions bbs member))
    rwa [List.flatten_singleton] at spec
  obtain ⟨alone, mapped, each⟩ := exists_mapM single
  have keyed : ∀ called ∈ alone, called.Keyed syms := by
    intro called member
    obtain ⟨bbs, _, spec⟩ := exists_of_forall₂ each.flip member
    exact spec.1
  obtain ⟨joined, pairs⟩ := CalledSyms.keyed_unionAll keyed
  refine ⟨alone, mapped, joined, fun call => (pairs call).trans ⟨?_, ?_⟩⟩
  · rintro ⟨called, member, reported⟩
    obtain ⟨bbs, inThreads, spec⟩ := exists_of_forall₂ each.flip member
    exact ⟨bbs, inThreads, (spec.2 call).mp reported⟩
  · rintro ⟨bbs, inThreads, reported⟩
    obtain ⟨called, member, spec⟩ := exists_of_forall₂ each inThreads
    exact ⟨called, member, (spec.2 call).mpr reported⟩

theorem perThread_iff_crosses {callingImage : List Uint8}
    (found : m.lookupImage callingImage = some targetImgInfo) {tbbs : List (List Bb)}
    (inRegions : ∀ bbs ∈ tbbs, ∀ bb ∈ bbs, (m.lookup bb.pc).isSome) :
    PerThread m syms callingImage tbbs ↔
      ∀ bb bb', Crosses tbbs bb bb' → Covered m syms targetImgInfo tbbs bb bb' := by
  obtain ⟨called, dumped, keyed, pairs⟩ := @dumpCallsFrom_spec m syms _ _ found tbbs inRegions
  obtain ⟨alone, mapped, joined, within⟩ := @unionAll_alone m syms _ _ found tbbs inRegions
  constructor
  · rintro ⟨target, called', _, found', dumped', _, _, reported⟩ bb bb' crosses call made
    cases found.symm.trans found'
    cases dumped.symm.trans dumped'
    exact reported call ((pairs call).mpr ⟨bb, bb', consecutive_flatten.mpr (.inr crosses), made⟩)
  · intro harmless
    have same : ∀ call, call ∈ called.pairs ↔ CalledInThread m syms targetImgInfo tbbs call := by
      refine fun call => (pairs call).trans ⟨?_, ?_⟩
      · rintro ⟨bb, bb', together, made⟩
        rcases consecutive_flatten.mp together with ⟨bbs, inThreads, together⟩ | crosses
        · exact ⟨bbs, inThreads, bb, bb', together, made⟩
        · exact harmless bb bb' crosses call made
      · rintro ⟨bbs, inThreads, bb, bb', together, made⟩
        exact ⟨bb, bb', consecutive_flatten.mpr (.inl ⟨bbs, inThreads, together⟩), made⟩
    refine ⟨targetImgInfo, called, alone, found, dumped, mapped, ?_, fun call => (same call).mp⟩
    exact keyed.eq_of_pairs joined (Set.ext fun call => (same call).trans (within call).symm)

theorem calledInThread_perm {tbbs tbbs' : List (List Bb)} (perm : tbbs.Perm tbbs')
    (call : SymInfo × Uint64) : CalledInThread m syms targetImgInfo tbbs call ↔
      CalledInThread m syms targetImgInfo tbbs' call := by
  simp only [CalledInThread, perm.mem_iff]

variable (m syms) in
/-- The map is what the single threads give exactly if nothing new is reported where the scan
goes from one thread to the next; in every order of the threads, if that holds for any two. -/
theorem perThread_iff {callingImage : List Uint8}
    (found : m.lookupImage callingImage = some targetImgInfo) {tbbs : List (List Bb)}
    (inRegions : ∀ bbs ∈ tbbs, ∀ bb ∈ bbs, (m.lookup bb.pc).isSome) :
    (PerThread m syms callingImage tbbs ↔
      ∀ bb bb', Crosses tbbs bb bb' → Covered m syms targetImgInfo tbbs bb bb') ∧
    ((∀ order, order.Perm tbbs → PerThread m syms callingImage order) ↔
      ∀ bbs bbs' rest, tbbs.Perm (bbs :: bbs' :: rest) → ∀ bb ∈ bbs.getLast?, ∀ bb' ∈ bbs'.head?,
        Covered m syms targetImgInfo tbbs bb bb') := by
  refine ⟨perThread_iff_crosses found inRegions, ?_⟩
  have each : ∀ order, order.Perm tbbs → (PerThread m syms callingImage order ↔
      ∀ bb bb', Crosses order bb bb' → Covered m syms targetImgInfo tbbs bb bb') := by
    intro order perm
    rw [perThread_iff_crosses found fun bbs h => inRegions bbs (perm.mem_iff.mp h)]
    simp only [Covered, calledInThread_perm perm]
  constructor
  · intro all bbs bbs' rest perm bb last bb' first
    obtain ⟨order, perm, crosses⟩ := exists_crosses_iff.mpr ⟨bbs, bbs', rest, perm, last, first⟩
    exact (each order perm).mp (all order perm) bb bb' crosses
  · intro harmless order perm
    refine (each order perm).mpr fun bb bb' crosses => ?_
    obtain ⟨bbs, bbs', rest, perm, last, first⟩ := exists_crosses_iff.mp ⟨order, perm, crosses⟩
    exact harmless bbs bbs' rest perm bb last bb' first

end

/-- Two images of zero bytes. -/
def twoImages : MachORegions := .holding
  [{ zeroJitRegion 0x100000000 "/tmp/caller" with
      size := 0x3000, bytes := .replicate 0x3000 0, isJit := false
      digest := #v[0xf3, 0xcc, 0x10, 0x31, 0x36, 0x42, 0x3a, 0x57, 0x97, 0x57, 0x50, 0x90, 0x7e,
        0xbc, 0x1d, 0x36, 0x7e, 0x29, 0x85, 0xac, 0x63, 0x38, 0x97, 0x6d, 0x4d, 0x5a, 0x43, 0x9f,
        0x50, 0x32, 0x3f, 0x4a] },
    { zeroJitRegion 0x100008000 "/tmp/callee" with
      size := 0x2000, bytes := .replicate 0x2000 0, isJit := false
      digest := #v[0x9f, 0x1d, 0xcb, 0xc3, 0x5c, 0x35, 0x0d, 0x60, 0x27, 0xf9, 0x8b, 0xe0, 0xf5,
        0xc8, 0xb4, 0x3b, 0x42, 0xca, 0x52, 0xb7, 0x60, 0x44, 0x59, 0xc0, 0xc4, 0x2b, 0xe3, 0xaa,
        0x88, 0x91, 0x3d, 0x47] }]

def calleeSymbols : Symbols where
  mSyms := [{ base := 0x100008000, size := 8, name := ascii "f", path := ascii "/tmp/callee" }]

theorem hashed_twoImages :
    createHash (jevhash32 0x85EBCA77) stableSort twoImages.mRegions = .ok twoImages.mPa2buf :=
  MachORegions.hashed_holding (by decide +kernel)

/-- A call inside the first thread: both sides hold. -/
theorem perThread_iff_two :
    let tbbs : List (List Bb) := [[⟨0x100000000, 4⟩, ⟨0x100008000, 4⟩], [⟨0x100008000, 8⟩]]
    ∃ target, twoImages.lookupImage (ascii "caller") = some target ∧
      (PerThread twoImages calleeSymbols (ascii "caller") tbbs ↔ ∀ bb bb', Crosses tbbs bb bb' →
        Covered twoImages calleeSymbols target tbbs bb bb') ∧
      ((∀ order, order.Perm tbbs → PerThread twoImages calleeSymbols (ascii "caller") order) ↔
        ∀ bbs bbs' rest, tbbs.Perm (bbs :: bbs' :: rest) → ∀ bb ∈ bbs.getLast?, ∀ bb' ∈ bbs'.head?,
          Covered twoImages calleeSymbols target tbbs bb bb') ∧
      ∀ bb bb', Crosses tbbs bb bb' → Covered twoImages calleeSymbols target tbbs bb bb' := by
  intro tbbs
  obtain ⟨order, every⟩ := @perThread_iff twoImages calleeSymbols _ (ascii "caller") rfl tbbs (by decide)
  refine ⟨_, rfl, order, every, ?_⟩
  rintro bb bb' (⟨last, first⟩ | later) call made
  · cases last
    cases first
    cases made
  · rcases later with ⟨-, none⟩ | none
    · cases none
    · cases none

/-- Two threads, each in its own image: a call is reported that no thread made. -/
theorem not_perThread_two :
    createHash (jevhash32 0x85EBCA77) stableSort twoImages.mRegions = .ok twoImages.mPa2buf ∧
      ¬ PerThread twoImages calleeSymbols (ascii "caller")
        [[⟨0x100000000, 4⟩, ⟨0x100000000, 8⟩], [⟨0x100008000, 4⟩, ⟨0x100008000, 8⟩]] := by
  refine ⟨hashed_twoImages, ?_⟩
  rw [@perThread_iff_crosses twoImages calleeSymbols _ (ascii "caller") rfl _ (by decide)]
  intro harmless
  obtain ⟨bbs, member, bb, bb', together, made⟩ :=
    harmless ⟨0x100000000, 8⟩ ⟨0x100008000, 4⟩ (.inl ⟨rfl, rfl⟩) _ rfl
  rcases List.mem_cons.mp member with rfl | other
  · obtain ⟨rfl, rfl⟩ := consecutive_pair.mp together
    cases made
  · obtain rfl := List.mem_singleton.mp other
    obtain ⟨rfl, rfl⟩ := consecutive_pair.mp together
    cases made

end XnuTrace
