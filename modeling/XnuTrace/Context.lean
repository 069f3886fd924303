import XnuTrace.LogStructs

/-! Contexts as register files: the 31 general slots and 32 vector registers determine
everything but `pc`, `sp` and `nzcv`, and the object representation loses nothing. -/
namespace XnuTrace.LogArm64CpuContext
open Memory

variable (c : LogArm64CpuContext)

/-- Equal in the registers that a message can change and `update` restores. -/
structure SameRegisters (a b : LogArm64CpuContext) : Prop where
  sp : a.sp = b.sp
  x : a.x = b.x
  fp : a.fp = b.fp
  lr : a.lr = b.lr
  v : a.v = b.v

theorem SameRegisters.refl : SameRegisters c c := ⟨rfl, rfl, rfl, rfl, rfl⟩

theorem SameRegisters.trans {a b c : LogArm64CpuContext} (h : SameRegisters a b)
    (k : SameRegisters b c) : SameRegisters a c :=
  ⟨h.sp.trans k.sp, h.x.trans k.x, h.fp.trans k.fp, h.lr.trans k.lr, h.v.trans k.v⟩

theorem SameRegisters.symm {a b : LogArm64CpuContext} (h : SameRegisters a b) :
    SameRegisters b a :=
  ⟨h.sp.symm, h.x.symm, h.fp.symm, h.lr.symm, h.v.symm⟩

/-- Only `pc` and `nzcv` are left. -/
theorem SameRegisters.eq_iff {a b : LogArm64CpuContext} (h : SameRegisters a b) :
    a = b ↔ a.pc = b.pc ∧ a.nzcv = b.nzcv := by
  obtain ⟨sp, x, fp, lr, v⟩ := h
  cases a
  cases b
  simp_all

theorem withPc_eq_iff {a b : LogArm64CpuContext} :
    { a with pc := b.pc } = b ↔ a.SameRegisters b ∧ a.nzcv = b.nzcv := by
  constructor
  · intro same
    rw [← same]
    exact ⟨⟨rfl, rfl, rfl, rfl, rfl⟩, rfl⟩
  · rintro ⟨same, nzcv⟩
    have moved : { a with pc := b.pc }.SameRegisters b :=
      ⟨same.sp, same.x, same.fp, same.lr, same.v⟩
    exact moved.eq_iff.mpr ⟨rfl, nzcv⟩

theorem sameRegisters_of_slots {a b : LogArm64CpuContext} (sp : a.sp = b.sp)
    (slots : ∀ i < 31, a.slot i = b.slot i) (vecs : ∀ i < 32, a.vec i = b.vec i) :
    SameRegisters a b where
  sp := sp
  x := by
    apply Vector.ext
    intro i hi
    simpa [slot, hi] using slots i (by omega)
  fp := by simpa [slot] using slots 29 (by decide)
  lr := by simpa [slot] using slots 30 (by decide)
  v := by
    apply Vector.ext
    intro i hi
    simpa [vec, hi] using vecs i hi

theorem slot_congr {a b : LogArm64CpuContext} (x : a.x = b.x) (fp : a.fp = b.fp)
    (lr : a.lr = b.lr) {i : Nat} (hi : i < 31) : a.slot i = b.slot i := by
  by_cases h : i < 29
  · simp [slot, h, x]
  · have edge : i = 29 ∨ i = 30 := by omega
    rcases edge with rfl | rfl <;> simp [slot, fp, lr]

theorem vec_congr {a b : LogArm64CpuContext} (v : a.v = b.v) (i : Nat) : a.vec i = b.vec i := by
  rw [vec, vec, v]

section
variable (i j : Nat) (value : Uint64) (vector : Uint128)

theorem slot_setSlot (hi : i < 31) (hj : j < 31) :
    (c.setSlot i value).slot j = if j = i then value else c.slot j := by
  by_cases h : i < 29
  · by_cases hj' : j < 29
    · simp [setSlot, slot, h, hj', Vector.getElem_set, eq_comm]
    · have : j ≠ i := by omega
      simp [setSlot, slot, h, hj', this]
  · have edge : i = 29 ∨ i = 30 := by omega
    by_cases hj' : j < 29
    · have : j ≠ i := by omega
      rcases edge with rfl | rfl <;> simp [setSlot, slot, hj', this]
    · have edge' : j = 29 ∨ j = 30 := by omega
      rcases edge with rfl | rfl <;> rcases edge' with rfl | rfl <;> simp [setSlot, slot]

theorem setSlot_frame (hi : i < 31) : (c.setSlot i value).pc = c.pc ∧
    (c.setSlot i value).sp = c.sp ∧ (c.setSlot i value).nzcv = c.nzcv ∧
    (c.setSlot i value).v = c.v := by
  unfold setSlot
  split
  · exact ⟨rfl, rfl, rfl, rfl⟩
  split
  · exact ⟨rfl, rfl, rfl, rfl⟩
  split
  · exact ⟨rfl, rfl, rfl, rfl⟩
  · omega

theorem vec_setVec (hj : j < 32) :
    (c.setVec i vector).vec j = if j = i then vector else c.vec j := by
  simp only [setVec, vec, Vector.getElem?_setIfInBounds]
  by_cases h : i = j
  · subst h
    simp [hj]
  · simp [h, Ne.symm h]

end

/-- Storing the registers `is` of `cur`. -/
theorem slot_foldl_setSlot (cur : LogArm64CpuContext) {is : List Nat} (regs : ∀ i ∈ is, i < 31)
    (j : Nat) (hj : j < 31) :
    (is.foldl (fun c i => c.setSlot i (cur.slot i)) c).slot j =
      if j ∈ is then cur.slot j else c.slot j := by
  induction is generalizing c with
  | nil => simp
  | cons i is ih =>
    rw [List.foldl_cons, ih _ (fun i h => regs i (List.mem_cons_of_mem _ h)),
      slot_setSlot c i j _ (regs i List.mem_cons_self) hj]
    by_cases same : j = i
    · subst same
      simp
    · simp [same]

theorem foldl_setSlot_frame (value : Nat → Uint64) {is : List Nat} (regs : ∀ i ∈ is, i < 31) :
    (is.foldl (fun c i => c.setSlot i (value i)) c).pc = c.pc ∧
    (is.foldl (fun c i => c.setSlot i (value i)) c).sp = c.sp ∧
    (is.foldl (fun c i => c.setSlot i (value i)) c).nzcv = c.nzcv ∧
    (is.foldl (fun c i => c.setSlot i (value i)) c).v = c.v := by
  induction is generalizing c with
  | nil => exact ⟨rfl, rfl, rfl, rfl⟩
  | cons i is ih =>
    have step := setSlot_frame c i (value i) (regs i List.mem_cons_self)
    have rest := ih (c.setSlot i (value i)) (fun i h => regs i (List.mem_cons_of_mem _ h))
    exact ⟨rest.1.trans step.1, rest.2.1.trans step.2.1, rest.2.2.1.trans step.2.2.1,
      rest.2.2.2.trans step.2.2.2⟩

theorem vec_foldl_setVec (cur : LogArm64CpuContext) (is : List Nat) (j : Nat) (hj : j < 32) :
    (is.foldl (fun c i => c.setVec i (cur.vec i)) c).vec j =
      if j ∈ is then cur.vec j else c.vec j := by
  induction is generalizing c with
  | nil => simp
  | cons i is ih =>
    rw [List.foldl_cons, ih, vec_setVec c i j _ hj]
    by_cases same : j = i
    · subst same
      simp
    · simp [same]

theorem foldl_setVec_frame (value : Nat → Uint128) (is : List Nat) :
    ∃ v, is.foldl (fun c i => c.setVec i (value i)) c = { c with v := v } := by
  induction is generalizing c with
  | nil => exact ⟨c.v, rfl⟩
  | cons i is ih =>
    obtain ⟨v, hv⟩ := ih (c.setVec i (value i))
    exact ⟨v, hv⟩

theorem length_bytes : c.bytes.length = sizeofLogArm64CpuContext := by
  have words := length_flatMap_const (f := wordBytes (w := 64) 8) (l := c.x.toList)
    (fun b _ => length_wordBytes 8 b)
  have vectors := length_flatMap_const (f := wordBytes (w := 128) 16) (l := c.v.toList)
    (fun b _ => length_wordBytes 16 b)
  simp only [bytes, List.length_append, length_wordBytes, words, vectors, Vector.length_toList,
    sizeofLogArm64CpuContext]

variable {c} in
theorem load_bytes {m : Nat → Uint8} {p : Nat} (holds : Holds m p c.bytes) : load m p = c := by
  have words := length_flatMap_const (f := wordBytes (w := 64) 8) (l := c.x.toList)
    (fun b _ => length_wordBytes 8 b)
  simp only [bytes, holds_append, List.length_append, length_wordBytes, words,
    Vector.length_toList] at holds
  obtain ⟨⟨⟨⟨⟨⟨pc, sp⟩, nzcv⟩, x⟩, fp⟩, lr⟩, v⟩ := holds
  have sameX : (load m p).x = c.x := by
    apply Vector.ext
    intro i hi
    have := holds_flatMap (fun b _ => length_wordBytes 8 b) x i (by simpa using hi)
    simpa [load] using loadWord_wordBytes (by decide) this
  have sameV : (load m p).v = c.v := by
    apply Vector.ext
    intro i hi
    have := holds_flatMap (fun b _ => length_wordBytes 16 b) v i (by simpa using hi)
    simpa [load] using loadWord_wordBytes (by decide) this
  have samePc : (load m p).pc = c.pc := loadWord_wordBytes (by decide) pc
  have sameSp : (load m p).sp = c.sp := loadWord_wordBytes (by decide) sp
  have sameNzcv : (load m p).nzcv = c.nzcv := loadWord_wordBytes (by decide) nzcv
  have sameFp : (load m p).fp = c.fp := loadWord_wordBytes (by decide) fp
  have sameLr : (load m p).lr = c.lr := loadWord_wordBytes (by decide) lr
  cases c
  cases read : load m p
  simp_all

end XnuTrace.LogArm64CpuContext
