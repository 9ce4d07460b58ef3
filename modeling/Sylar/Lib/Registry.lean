/-
  Sylar.Lib.Registry — a table of handlers by key, with what became of them: an entry is
  put in where there is none, and taken out once, to be called (`fire`) or not (`drop`).

  In every history each handler was put in as often as it was fired, dropped and is
  still in the table together (`balance`), whatever finite set of keys is counted, as
  long as it holds all that are in use.
-/

import Sylar.Lib.Count
import Sylar.Lib.Lts
import Mathlib.Data.Finset.Insert

namespace Registry

structure State (κ η : Type) where
  entry : κ → Option η
  added : List η
  fired : List η
  dropped : List η

variable {κ η : Type} [DecidableEq κ]

namespace State

def put (s : State κ η) (k : κ) (x : η) : State κ η :=
  { s with entry := Function.update s.entry k (some x), added := s.added ++ [x] }

def fire (s : State κ η) (k : κ) : State κ η :=
  { s with entry := Function.update s.entry k none, fired := s.fired ++ (s.entry k).toList }

def drop (s : State κ η) (k : κ) : State κ η :=
  { s with entry := Function.update s.entry k none, dropped := s.dropped ++ (s.entry k).toList }

def fires (s : State κ η) (ks : List κ) : State κ η := ks.foldl fire s

def drops (s : State κ η) (ks : List κ) : State κ η := ks.foldl drop s

/-- Nothing in the table and nothing done. -/
def empty : State κ η := ⟨fun _ => none, [], [], []⟩

end State

inductive Act (κ η : Type) where
  | put (k : κ) (x : η)
  | fire (k : κ)
  | drop (k : κ)
  deriving DecidableEq, Repr

inductive Step : State κ η → Act κ η → State κ η → Prop
  | put {s : State κ η} {k : κ} (x : η) : s.entry k = none → Step s (.put k x) (s.put k x)
  | fire (s : State κ η) (k : κ) : Step s (.fire k) (s.fire k)
  | drop (s : State κ η) (k : κ) : Step s (.drop k) (s.drop k)

abbrev Reach : State κ η → Prop := Lts.Reach (· = .empty) Step

/-! ## Taking out several -/

/-- From one state to another by taking entries out. -/
abbrev Steps (s : State κ η) : State κ η → Prop := Lts.Reach (· = s) Step

theorem fires_steps (s : State κ η) (ks : List κ) : Steps s (s.fires ks) := by
  induction ks generalizing s with
  | nil => exact .init rfl
  | cons k ks ih => exact (Lts.Reach.single (.fire s k)).trans (ih (s.fire k))

theorem drops_steps (s : State κ η) (ks : List κ) : Steps s (s.drops ks) := by
  induction ks generalizing s with
  | nil => exact .init rfl
  | cons k ks ih => exact (Lts.Reach.single (.drop s k)).trans (ih (s.drop k))

/-- Taking out where there is nothing. -/
theorem fire_none {s : State κ η} {k : κ} (h : s.entry k = none) : s.fire k = s := by
  unfold State.fire
  rw [h, ← h, Function.update_eq_self]
  simp [h]

theorem drop_none {s : State κ η} {k : κ} (h : s.entry k = none) : s.drop k = s := by
  unfold State.drop
  rw [h, ← h, Function.update_eq_self]
  simp [h]

/-! ## The balance -/

variable [BEq η] [LawfulBEq η]

/-- How often `x` stands in the table, at the keys of `K`. -/
def held (K : Finset κ) (f : κ → Option η) (x : η) : Nat := countOn K (· == some x) f

omit [DecidableEq κ] in
/-- The keys in use decide the count. -/
theorem held_congr {K K' : Finset κ} {f : κ → Option η} (h : ∀ k ∉ K, f k = none) (h' : ∀ k ∉ K', f k = none) (x : η) :
    held K f x = held K' f x := by
  unfold held countOn
  congr 1
  ext k
  simp only [Finset.mem_filter, beq_iff_eq]
  constructor
  · intro ⟨_, hx⟩
    exact ⟨by_contra fun hn => (nomatch (h' k hn).symm.trans hx), hx⟩
  · intro ⟨_, hx⟩
    exact ⟨by_contra fun hn => (nomatch (h k hn).symm.trans hx), hx⟩

/-- Every handler put in was fired, dropped, or is still there. -/
def Balanced (s : State κ η) : Prop :=
  ∃ K : Finset κ, (∀ k ∉ K, s.entry k = none) ∧
    ∀ x, s.added.count x = s.fired.count x + s.dropped.count x + held K s.entry x

omit [DecidableEq κ] [LawfulBEq η] in
theorem empty_balanced : Balanced (.empty : State κ η) := by
  refine ⟨∅, fun _ _ => rfl, fun x => ?_⟩
  simp [State.empty, held, countOn]

/-- One entry changes: the keys in use, and what `x` gains and loses. -/
theorem held_update {K : Finset κ} {f : κ → Option η} (h : ∀ k ∉ K, f k = none) (k : κ) (y : Option η) (x : η) :
    (∀ j ∉ insert k K, Function.update f k y j = none) ∧
      held (insert k K) (Function.update f k y) x + (f k).toList.count x = held K f x + y.toList.count x := by
  have hcount (o : Option η) : (if (o == some x) = true then 1 else 0) = o.toList.count x := by
    cases o with
    | none => rfl
    | some z =>
      rw [Option.toList_some, List.count_singleton]
      rfl
  constructor
  · intro j hj
    rw [Finset.mem_insert, not_or] at hj
    rw [Function.update_of_ne hj.1]
    exact h j hj.2
  · have hup := countOn_update (Finset.mem_insert_self k K) (· == some x) f y
    rw [hcount, hcount] at hup
    have hrest : ∀ j ∉ insert k K, f j = none := fun j hj => h j fun hm => hj (Finset.mem_insert_of_mem hm)
    rw [held_congr h hrest]
    exact hup

theorem step_balanced {s s' : State κ η} {a : Act κ η} (hb : Balanced s) (h : Step s a s') : Balanced s' := by
  obtain ⟨K, hK, hsum⟩ := hb
  cases h with
  | @put k x hk =>
    refine ⟨insert k K, (held_update hK k (some x) x).1, fun y => ?_⟩
    have hup := (held_update hK k (some x) y).2
    rw [hk] at hup
    simp only [State.put, List.count_append, hsum y]
    simp only [Option.toList_none, Option.toList_some, List.count_nil] at hup
    omega
  | fire k =>
    refine ⟨insert k K, fun j hj => ?_, fun y => ?_⟩
    · cases hs : s.entry k with
      | none => rw [fire_none hs]; exact hK j fun hm => hj (Finset.mem_insert_of_mem hm)
      | some x => exact (held_update hK k none x).1 j hj
    · have hup := (held_update hK k none y).2
      simp only [State.fire, List.count_append, hsum y]
      simp only [Option.toList_none, List.count_nil] at hup
      omega
  | drop k =>
    refine ⟨insert k K, fun j hj => ?_, fun y => ?_⟩
    · cases hs : s.entry k with
      | none => rw [drop_none hs]; exact hK j fun hm => hj (Finset.mem_insert_of_mem hm)
      | some x => exact (held_update hK k none x).1 j hj
    · have hup := (held_update hK k none y).2
      simp only [State.drop, List.count_append, hsum y]
      simp only [Option.toList_none, List.count_nil] at hup
      omega

/-- In every history: put in as often as fired, dropped and still held. -/
theorem balance {s : State κ η} (h : Reach s) {K : Finset κ} (hK : ∀ k ∉ K, s.entry k = none) (x : η) :
    s.added.count x = s.fired.count x + s.dropped.count x + held K s.entry x := by
  have hb : Balanced s := h.inv (fun s hs => hs ▸ empty_balanced) fun _ _ _ hb hst => step_balanced hb hst
  obtain ⟨K', hK', hsum⟩ := hb
  rw [hsum x, held_congr hK hK']

end Registry
