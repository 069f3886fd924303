import Mathlib.Data.List.Basic

/-! Programs that may be cut off between two steps. A run lists the states it may stop in,
each with a mark of where the program is then, and what it ends with unless it fails. -/

structure Interrupted (M S α : Type) where
  stops : List (M × S)
  done : Option (α × S)

def Prog (M S α : Type) := S → Interrupted M S α

namespace Prog
variable {M S α β : Type}

def ret (a : α) : Prog M S α := fun s => { stops := [], done := some (a, s) }

def bind (m : Prog M S α) (k : α → Prog M S β) : Prog M S β := fun s =>
  match (m s).done with
  | none => { stops := (m s).stops, done := none }
  | some (a, s') => { stops := (m s).stops ++ (k a s').stops, done := (k a s').done }

instance : Monad (Prog M S) where
  pure := ret
  bind := bind

/-- One step; behind it the program may be cut off. -/
def step (mark : M) (f : S → S) : Prog M S Unit := fun s =>
  { stops := [(mark, f s)], done := some ((), f s) }

/-- What is read of the state, or a failure. -/
def ask (g : S → Option α) : Prog M S α := fun s => { stops := [], done := (g s).map (·, s) }

def ofOption (o : Option α) : Prog M S α := ask fun _ => o

def each (f : β → Prog M S Unit) : List β → Prog M S Unit
  | [] => ret ()
  | b :: bs => do
    f b
    each f bs

def fold (f : α → β → Prog M S α) : α → List β → Prog M S α
  | a, [] => ret a
  | a, b :: bs => do
    let a ← f a b
    fold f a bs

/-- From a state with the first property each state where it may be cut off is tolerable,
and at the end the last property holds. -/
structure Keeps (pre : S → Prop) (cut : M → S → Prop) (m : Prog M S α) (post : α → S → Prop) :
    Prop where
  stops : ∀ s, pre s → ∀ e ∈ (m s).stops, cut e.1 e.2
  done : ∀ s, pre s → ∀ a s', (m s).done = some (a, s') → post a s'

section
variable {pre : S → Prop} {cut : M → S → Prop}

theorem done_bind {m : Prog M S α} {k : α → Prog M S β} {s s' : S} {b : β} :
    ((m >>= k) s).done = some (b, s') ↔
      ∃ a t, (m s).done = some (a, t) ∧ (k a t).done = some (b, s') := by
  change (Prog.bind m k s).done = _ ↔ _
  unfold Prog.bind
  split
  · rename_i failed
    simp [failed]
  · rename_i a t reached
    simp [reached]

theorem done_ask {g : S → Option α} {s s' : S} {a : α} :
    (@ask M S α g s).done = some (a, s') ↔ g s = some a ∧ s' = s := by
  simp only [ask, Option.map_eq_some_iff, Prod.mk.injEq]
  constructor
  · rintro ⟨_, asked, rfl, rfl⟩
    exact ⟨asked, rfl⟩
  · rintro ⟨asked, rfl⟩
    exact ⟨a, asked, rfl, rfl⟩

theorem done_ofOption {o : Option α} {s s' : S} {a : α} :
    (@ofOption M S α o s).done = some (a, s') ↔ o = some a ∧ s' = s := done_ask

theorem step_bind {mark : M} {f : S → S} {k : Unit → Prog M S β} {s : S} :
    (step mark f >>= k) s = { stops := (mark, f s) :: (k () (f s)).stops, done := (k () (f s)).done } :=
  rfl

theorem ask_bind {g : S → Option α} {k : α → Prog M S β} {s : S} {a : α} (asked : g s = some a) :
    (ask g >>= k) s = k a s := by
  change Prog.bind (ask g) k s = _
  unfold Prog.bind ask
  rw [asked]
  rfl

theorem ofOption_bind {k : α → Prog M S β} {s : S} (a : α) :
    (ofOption (some a) >>= k) s = k a s := ask_bind rfl

theorem bind_of_done {m : Prog M S α} {k : α → Prog M S β} {s t : S} {a : α}
    (reached : (m s).done = some (a, t)) :
    (m >>= k) s = { stops := (m s).stops ++ (k a t).stops, done := (k a t).done } := by
  change Prog.bind m k s = _
  unfold Prog.bind
  rw [reached]

/-- A state of the second part is reached through the end of the first. -/
theorem mem_stops_bind {m : Prog M S α} {k : α → Prog M S β} {s t : S} {a : α}
    (reached : (m s).done = some (a, t)) {e : M × S} (member : e ∈ (k a t).stops) :
    e ∈ ((m >>= k) s).stops := by
  change _ ∈ (Prog.bind m k s).stops
  unfold Prog.bind
  rw [reached]
  exact List.mem_append_right _ member

theorem mem_stops_bind_left {m : Prog M S α} {k : α → Prog M S β} {s : S} {e : M × S}
    (member : e ∈ (m s).stops) : e ∈ ((m >>= k) s).stops := by
  change _ ∈ (Prog.bind m k s).stops
  unfold Prog.bind
  split
  · exact member
  · exact List.mem_append_left _ member

theorem Keeps.ret {a : α} {post : α → S → Prop} (holds : ∀ s, pre s → post a s) :
    Keeps pre cut (ret a) post where
  stops _ _ _ member := absurd member List.not_mem_nil
  done s before _ _ ended := by
    cases ended
    exact holds s before

theorem Keeps.bind {m : Prog M S α} {k : α → Prog M S β} {mid : α → S → Prop}
    {post : β → S → Prop} (first : Keeps pre cut m mid) (second : ∀ a, Keeps (mid a) cut (k a) post) :
    Keeps pre cut (m >>= k) post where
  stops s before e member := by
    change _ ∈ (Prog.bind m k s).stops at member
    unfold Prog.bind at member
    split at member
    · exact first.stops s before e member
    · rename_i a t reached
      rcases List.mem_append.mp member with early | late
      · exact first.stops s before e early
      · exact (second a).stops t (first.done s before a t reached) e late
  done s before b s' ended := by
    obtain ⟨a, t, reached, rest⟩ := done_bind.mp ended
    exact (second a).done t (first.done s before a t reached) b s' rest

theorem Keeps.step {mark : M} {f : S → S} {post : S → Prop} (tolerable : ∀ s, pre s → cut mark (f s))
    (holds : ∀ s, pre s → post (f s)) : Keeps pre cut (step mark f) fun _ => post where
  stops s before e member := by
    rw [List.mem_singleton.mp member]
    exact tolerable s before
  done s before _ _ ended := by
    cases ended
    exact holds s before

theorem Keeps.ask {g : S → Option α} {post : α → S → Prop}
    (holds : ∀ s a, pre s → g s = some a → post a s) : Keeps pre cut (ask g) post where
  stops _ _ _ member := absurd member List.not_mem_nil
  done s before a s' ended := by
    obtain ⟨asked, rfl⟩ := done_ask.mp ended
    exact holds _ a before asked

theorem Keeps.ofOption {o : Option α} {post : α → S → Prop}
    (holds : ∀ s a, pre s → o = some a → post a s) : Keeps pre cut (ofOption o) post := .ask holds

/-- What each round keeps, the loop keeps. -/
theorem Keeps.each {f : β → Prog M S Unit} {bs : List β}
    (round : ∀ b ∈ bs, Keeps pre cut (f b) fun _ => pre) : Keeps pre cut (each f bs) fun _ => pre := by
  induction bs with
  | nil => exact .ret fun _ before => before
  | cons b bs ih =>
    exact (round b List.mem_cons_self).bind fun _ =>
      ih fun b' member => round b' (List.mem_cons_of_mem _ member)

theorem Keeps.fold {f : α → β → Prog M S α} {inv : α → S → Prop} {bs : List β}
    (round : ∀ a, ∀ b ∈ bs, Keeps (inv a) cut (f a b) inv) (a : α) :
    Keeps (inv a) cut (fold f a bs) inv := by
  induction bs generalizing a with
  | nil => exact .ret fun _ before => before
  | cons b bs ih =>
    exact (round a b List.mem_cons_self).bind fun a' =>
      ih (fun a b' member => round a b' (List.mem_cons_of_mem _ member)) a'

end

end Prog
