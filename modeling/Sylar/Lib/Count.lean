/-
  Sylar.Lib.Count — how many members of a finite set satisfy a test of a function's
  value there, and how that changes with one value of the function (`countOn_update`).
-/

import Mathlib.Data.Finset.Card
import Mathlib.Data.Finset.Basic

variable {α β : Type}

def countOn (T : Finset α) (p : β → Bool) (f : α → β) : Nat := (T.filter fun a => p (f a) = true).card

/-- A test as the number it adds to a count. -/
theorem toNat_eq_ite (b : Bool) : b.toNat = if b = true then 1 else 0 := by cases b <;> rfl

theorem countOn_eq_zero {T : Finset α} {p : β → Bool} {f : α → β} :
    countOn T p f = 0 ↔ ∀ a ∈ T, p (f a) = false := by
  unfold countOn
  rw [Finset.card_eq_zero, Finset.filter_eq_empty_iff]
  simp

theorem countOn_le_one {T : Finset α} {p : β → Bool} {f : α → β} :
    countOn T p f ≤ 1 ↔ ∀ a ∈ T, ∀ b ∈ T, p (f a) = true → p (f b) = true → a = b := by
  unfold countOn
  rw [Finset.card_le_one]
  simp only [Finset.mem_filter]
  exact ⟨fun h a ha b hb hpa hpb => h a ⟨ha, hpa⟩ b ⟨hb, hpb⟩, fun h a ha b hb => h a ha.1 b hb.1 ha.2 hb.2⟩

variable [DecidableEq α]

theorem countOn_erase {T : Finset α} {a : α} (ha : a ∈ T) (p : β → Bool) (f : α → β) :
    countOn T p f = countOn (T.erase a) p f + if p (f a) then 1 else 0 := by
  unfold countOn
  conv_lhs => rw [← Finset.insert_erase ha, Finset.filter_insert]
  split
  · rw [Finset.card_insert_of_notMem (by simp)]
  · rfl

/-- One value changes: the count without it stays. -/
theorem countOn_update {T : Finset α} {a : α} (ha : a ∈ T) (p : β → Bool) (f : α → β) (b : β) :
    countOn T p (Function.update f a b) + (if p (f a) then 1 else 0) = countOn T p f + if p b then 1 else 0 := by
  have hrest : countOn (T.erase a) p (Function.update f a b) = countOn (T.erase a) p f := by
    unfold countOn
    congr 1
    apply Finset.filter_congr
    intro x hx
    rw [Function.update_of_ne (Finset.ne_of_mem_erase hx)]
  rw [countOn_erase ha p f, countOn_erase ha p (Function.update f a b), hrest, Function.update_self]
  omega

theorem countOn_update_of_notMem {T : Finset α} {a : α} (ha : a ∉ T) (p : β → Bool) (f : α → β) (b : β) :
    countOn T p (Function.update f a b) = countOn T p f := by
  unfold countOn
  congr 1
  apply Finset.filter_congr
  intro x hx
  rw [Function.update_of_ne fun h : x = a => ha (h ▸ hx)]
