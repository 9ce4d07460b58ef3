/-
  Sylar.Lib.Except — taking a computation in `Except` apart: what a bind that ends in a
  value, or in an error, says of its two halves, and when a pass over a list ends well.
-/

import Mathlib.Data.List.Forall2

namespace Except

variable {ε α β : Type}

theorem ok_bind_eq (a : α) (f : α → Except ε β) : ((.ok a : Except ε α) >>= f) = f a := rfl

theorem error_bind_eq (e : ε) (f : α → Except ε β) : ((.error e : Except ε α) >>= f) = .error e := rfl

theorem bind_eq_ok {x : Except ε α} {f : α → Except ε β} {r : β} :
    (x >>= f) = .ok r ↔ ∃ a, x = .ok a ∧ f a = .ok r := by
  cases x with
  | ok a => simp [ok_bind_eq]
  | error e => simp [error_bind_eq]

theorem bind_eq_error {x : Except ε α} {f : α → Except ε β} {e : ε} :
    (x >>= f) = .error e ↔ x = .error e ∨ ∃ a, x = .ok a ∧ f a = .error e := by
  cases x with
  | ok a => simp [ok_bind_eq]
  | error e => simp [error_bind_eq]

/-! ## Lists -/

theorem mapM_eq_ok {f : α → Except ε β} {l : List α} {r : List β} :
    l.mapM f = .ok r ↔ List.Forall₂ (fun a b => f a = .ok b) l r := by
  induction l generalizing r with
  | nil =>
    constructor
    · intro h
      cases h
      exact .nil
    · intro h
      cases h
      rfl
  | cons a l ih =>
    rw [List.mapM_cons]
    constructor
    · intro h
      obtain ⟨b, hb, h⟩ := bind_eq_ok.mp h
      obtain ⟨bs, hbs, h⟩ := bind_eq_ok.mp h
      cases h
      exact .cons hb (ih.mp hbs)
    · intro h
      cases h with
      | cons hb hbs => rw [hb, ih.mpr hbs]; rfl

/-- A pass of `f` and a pass of `g` over its answers are one pass. -/
theorem mapM_comp {γ : Type} {f : α → Except ε β} {g : β → Except ε γ} {l : List α} {r : List γ} :
    (∃ m, l.mapM f = .ok m ∧ m.mapM g = .ok r) ↔ l.mapM (fun a => f a >>= g) = .ok r := by
  simp only [mapM_eq_ok, bind_eq_ok]
  induction l generalizing r with
  | nil =>
    constructor
    · rintro ⟨m, hm, hr⟩
      cases hm
      cases hr
      exact .nil
    · intro h
      cases h
      exact ⟨[], .nil, .nil⟩
  | cons a l ih =>
    constructor
    · rintro ⟨m, hm, hr⟩
      cases hm with
      | cons hb hm =>
        cases hr with
        | cons hc hr => exact .cons ⟨_, hb, hc⟩ (ih.mp ⟨_, hm, hr⟩)
    · intro h
      cases h with
      | cons hac h =>
        obtain ⟨b, hb, hc⟩ := hac
        obtain ⟨m, hm, hr⟩ := ih.mpr h
        exact ⟨b :: m, .cons hb hm, .cons hc hr⟩

theorem mapM_self {f : α → Except ε α} {l : List α} : l.mapM f = .ok l ↔ ∀ a ∈ l, f a = .ok a := by
  rw [mapM_eq_ok, List.forall₂_same]

theorem mapM_map {f : α → Except ε β} {g : α → β} {l : List α} (h : ∀ a ∈ l, f a = .ok (g a)) :
    l.mapM f = .ok (l.map g) := by
  rw [mapM_eq_ok, List.forall₂_map_right_iff]
  exact List.forall₂_same.mpr h

theorem mem_of_mapM {f : α → Except ε β} {l : List α} {r : List β} (h : l.mapM f = .ok r) {b : β} (hb : b ∈ r) :
    ∃ a ∈ l, f a = .ok b := by
  have h := mapM_eq_ok.mp h
  induction h with
  | nil => cases hb
  | cons hab _ ih =>
    rcases List.mem_cons.mp hb with rfl | hb
    · exact ⟨_, .head _, hab⟩
    · obtain ⟨a, ha, hf⟩ := ih (mapM_eq_ok.mpr ‹_›) hb
      exact ⟨a, .tail _ ha, hf⟩

end Except
