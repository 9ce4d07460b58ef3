/-
  Sylar.Lib.OrderedSet — a set kept in the order of a comparator, as std::set: a list
  that `lt` strictly increases along, positions as iterators, the length as end().

  `StrictWeak lt` is what the standard asks of a comparator. On a `Sorted` list:
  - `find` gives the position of a member (`find_of_mem`), and erasing there is erasing
    the member (`eraseIdx_find`). In general it gives a member in the place of `x`, or
    end() when there is none (`find_some`, `find_none`).
  - `insert` keeps the order (`insert_sorted`) and adds an element that can be told apart
    from every member (`mem_insert`); it lands in front exactly when it is below all
    (`insert_front`).
  - `ofList` fills an empty set: the members of a set, in any order, give it back
    (`ofList_of_perm`).
  - `lowerBound` cuts at a test that is downward closed: the members before it pass, those from
    it on do not (`take_lowerBound`, `drop_lowerBound`).
-/

import Mathlib.Data.List.Nodup

namespace OrderedSet

variable {α : Type}

structure StrictWeak (lt : α → α → Bool) : Prop where
  irrefl : ∀ a, lt a a = false
  trans : ∀ {a b c}, lt a b = true → lt b c = true → lt a c = true

def Sorted (lt : α → α → Bool) (l : List α) : Prop := l.Pairwise fun a b => lt a b = true

/-- The first position that is not below. -/
def lowerBound (below : α → Bool) (l : List α) : Nat := (l.takeWhile below).length

def find (lt : α → α → Bool) (x : α) (l : List α) : Nat :=
  let it := lowerBound (lt · x) l
  match l[it]? with
  | some y => if lt x y then l.length else it
  | none => l.length

/-- The position of `x` or of the member that stood in its way, whether `x` was added,
    and the set. -/
def insert (lt : α → α → Bool) (x : α) (l : List α) : Nat × Bool × List α :=
  let it := lowerBound (lt · x) l
  match l[it]? with
  | some y => if lt x y then (it, true, l.insertIdx it x) else (it, false, l)
  | none => (it, true, l.insertIdx it x)

variable {lt : α → α → Bool} {x y : α} {l : List α}

/-! ## The cut -/

theorem take_lowerBound {below : α → Bool} : ∀ a ∈ l.take (lowerBound below l), below a = true := by
  induction l with
  | nil => simp [lowerBound]
  | cons y t ih =>
    intro a ha
    by_cases hy : below y = true
    · simp only [lowerBound, List.takeWhile_cons_of_pos hy, List.length_cons, List.take_succ_cons,
        List.mem_cons] at ha
      rcases ha with rfl | ha
      · exact hy
      · exact ih a ha
    · simp [lowerBound, hy] at ha

theorem drop_lowerBound {below : α → Bool} (hs : Sorted lt l)
    (hd : ∀ a ∈ l, ∀ b ∈ l, lt a b = true → below b = true → below a = true) :
    ∀ a ∈ l.drop (lowerBound below l), below a = false := by
  induction l with
  | nil => simp
  | cons y t ih =>
    intro a ha
    obtain ⟨hy, ht⟩ := List.pairwise_cons.mp hs
    by_cases hb : below y = true
    · simp only [lowerBound, List.takeWhile_cons_of_pos hb, List.length_cons, List.drop_succ_cons] at ha
      exact ih ht (fun b hb c hc => hd b (.tail _ hb) c (.tail _ hc)) a ha
    · simp only [lowerBound, List.takeWhile_cons_of_neg hb, List.length_nil, List.drop_zero,
        List.mem_cons] at ha
      rcases ha with rfl | ha
      · simpa using hb
      · by_cases hba : below a = true
        · exact absurd (hd _ (.head _) _ (.tail _ ha) (hy a ha) hba) hb
        · simpa using hba

theorem lowerBound_cons_of_pos (below : α → Bool) (h : below y = true) :
    lowerBound below (y :: l) = lowerBound below l + 1 := by
  simp [lowerBound, h]

theorem lowerBound_cons_of_neg (below : α → Bool) (h : below y = false) : lowerBound below (y :: l) = 0 := by
  simp [lowerBound, h]

/-! ## find -/

theorem find_of_mem (hw : StrictWeak lt) (hs : Sorted lt l) (hx : x ∈ l) : l[find lt x l]? = some x := by
  induction l with
  | nil => cases hx
  | cons y t ih =>
    obtain ⟨hy, ht⟩ := List.pairwise_cons.mp hs
    rcases List.mem_cons.mp hx with rfl | hxt
    · have h0 : lowerBound (lt · x) (x :: t) = 0 := lowerBound_cons_of_neg _ (hw.irrefl x)
      simp [find, h0, hw.irrefl x]
    · have hxy := hy x hxt
      have ih' := ih ht hxt
      unfold find at ih' ⊢
      simp only [lowerBound_cons_of_pos (lt · x) hxy, List.getElem?_cons_succ] at ih' ⊢
      split at ih'
      · rename_i z hz
        by_cases hlt : lt x z = true
        · simp [hlt] at ih'
        · rw [if_neg hlt] at ih'
          simp [hlt, ih']
      · simp at ih'

theorem find_cons_of_pos (h : lt y x = true) : find lt x (y :: l) = find lt x l + 1 := by
  unfold find
  simp only [lowerBound_cons_of_pos (lt · x) h, List.getElem?_cons_succ, List.length_cons]
  split
  · split <;> rfl
  · rfl

/-- What `find` gives is a member that `x` cannot be told apart from. -/
theorem find_some (h : l[find lt x l]? = some y) : y ∈ l ∧ lt x y = false ∧ lt y x = false := by
  induction l with
  | nil => cases h
  | cons z t ih =>
    by_cases hz : lt z x = true
    · rw [find_cons_of_pos hz, List.getElem?_cons_succ] at h
      obtain ⟨hm, hxy⟩ := ih h
      exact ⟨.tail _ hm, hxy⟩
    · have hz' : lt z x = false := by simpa using hz
      simp only [find, lowerBound_cons_of_neg (lt · x) hz', List.getElem?_cons_zero] at h
      by_cases hxz : lt x z = true
      · simp [hxz] at h
      · rw [if_neg hxz, List.getElem?_cons_zero] at h
        cases h
        exact ⟨.head _, by simpa using hxz, hz'⟩

/-- When `find` gives end(), `x` can be told apart from every member. -/
theorem find_none (hw : StrictWeak lt) (hs : Sorted lt l) (h : l[find lt x l]? = none) :
    ∀ y ∈ l, lt x y = true ∨ lt y x = true := by
  induction l with
  | nil => nofun
  | cons z t ih =>
    obtain ⟨hz, ht⟩ := List.pairwise_cons.mp hs
    intro y hy
    by_cases hzx : lt z x = true
    · rw [find_cons_of_pos hzx, List.getElem?_cons_succ] at h
      rcases List.mem_cons.mp hy with rfl | hy
      · exact .inr hzx
      · exact ih ht h y hy
    · have hzx' : lt z x = false := by simpa using hzx
      simp only [find, lowerBound_cons_of_neg (lt · x) hzx', List.getElem?_cons_zero] at h
      by_cases hxz : lt x z = true
      · left
        rcases List.mem_cons.mp hy with rfl | hy
        · exact hxz
        · exact hw.trans hxz (hz y hy)
      · rw [if_neg hxz] at h
        cases h

theorem find_lt_of_mem (hw : StrictWeak lt) (hs : Sorted lt l) (hx : x ∈ l) : find lt x l < l.length :=
  (List.getElem?_eq_some_iff.mp (find_of_mem hw hs hx)).1

theorem nodup_of_sorted (hw : StrictWeak lt) (hs : Sorted lt l) : l.Nodup := by
  apply List.Pairwise.imp _ hs
  intro a b hab e
  rw [e, hw.irrefl] at hab
  cases hab

theorem eraseIdx_find [DecidableEq α] (hw : StrictWeak lt) (hs : Sorted lt l) (hx : x ∈ l) :
    l.eraseIdx (find lt x l) = l.erase x := by
  obtain ⟨hlt, hget⟩ := List.getElem?_eq_some_iff.mp (find_of_mem hw hs hx)
  have h := List.Nodup.erase_getElem (nodup_of_sorted hw hs) _ hlt
  rw [hget] at h
  exact h.symm

/-! ## insert -/

theorem insert_cons_of_pos (h : lt y x = true) :
    insert lt x (y :: l) = ((insert lt x l).1 + 1, (insert lt x l).2.1, y :: (insert lt x l).2.2) := by
  unfold insert
  simp only [lowerBound_cons_of_pos (lt · x) h, List.getElem?_cons_succ, List.insertIdx_succ_cons]
  split
  · split <;> rfl
  · rfl

theorem insert_cons_of_neg (h : lt y x = false) (h' : lt x y = true) :
    insert lt x (y :: l) = (0, true, x :: y :: l) := by
  simp [insert, lowerBound_cons_of_neg (lt · x) h, h']

theorem insert_cons_of_eq (h : lt y x = false) (h' : lt x y = false) :
    insert lt x (y :: l) = (0, false, y :: l) := by
  simp [insert, lowerBound_cons_of_neg (lt · x) h, h']

/-- `x` can be told apart from every member. -/
def Apart (lt : α → α → Bool) (x : α) (l : List α) : Prop := ∀ y ∈ l, lt x y = true ∨ lt y x = true

theorem mem_insert (h : Apart lt x l) : ∀ a, a ∈ (insert lt x l).2.2 ↔ a = x ∨ a ∈ l := by
  induction l with
  | nil => simp [insert, lowerBound]
  | cons y t ih =>
    intro a
    have ih' := ih (fun z hz => h z (.tail _ hz)) a
    by_cases hyx : lt y x = true
    · rw [insert_cons_of_pos hyx, List.mem_cons, ih', List.mem_cons]
      exact or_left_comm
    · have hxy := (h y (.head _)).resolve_right hyx
      rw [insert_cons_of_neg (by simpa using hyx) hxy, List.mem_cons]

theorem mem_of_insert (a : α) (h : a ∈ (insert lt x l).2.2) : a = x ∨ a ∈ l := by
  induction l with
  | nil => exact .inl (by simpa [insert, lowerBound] using h)
  | cons y t ih =>
    by_cases hyx : lt y x = true
    · rw [insert_cons_of_pos hyx, List.mem_cons] at h
      rcases h with rfl | h
      · exact .inr (.head _)
      · exact (ih h).imp id (.tail _)
    · have hyx' : lt y x = false := by simpa using hyx
      by_cases hxy : lt x y = true
      · rw [insert_cons_of_neg hyx' hxy] at h
        exact List.mem_cons.mp h
      · rw [insert_cons_of_eq hyx' (by simpa using hxy)] at h
        exact .inr h

/-- A member already in the place of `x` stays. -/
theorem insert_sorted (hw : StrictWeak lt) (hs : Sorted lt l) : Sorted lt (insert lt x l).2.2 := by
  induction l with
  | nil => simp [insert, lowerBound, Sorted]
  | cons y t ih =>
    obtain ⟨hy, ht⟩ := List.pairwise_cons.mp hs
    by_cases hyx : lt y x = true
    · rw [insert_cons_of_pos hyx]
      refine List.pairwise_cons.mpr ⟨?_, ih ht⟩
      intro a ha
      rcases mem_of_insert a ha with rfl | ha
      · exact hyx
      · exact hy a ha
    · have hyx' : lt y x = false := by simpa using hyx
      by_cases hxy : lt x y = true
      · rw [insert_cons_of_neg hyx' hxy]
        refine List.pairwise_cons.mpr ⟨?_, hs⟩
        intro a ha
        rcases List.mem_cons.mp ha with rfl | ha
        · exact hxy
        · exact hw.trans hxy (hy a ha)
      · rw [insert_cons_of_eq hyx' (by simpa using hxy)]
        exact hs

/-- The insertion lands in front exactly when `x` is below every member. -/
theorem insert_front (hw : StrictWeak lt) (hs : Sorted lt l) (h : Apart lt x l) :
    (insert lt x l).1 = 0 ↔ ∀ y ∈ l, lt x y = true := by
  cases l with
  | nil => simp [insert, lowerBound]
  | cons y t =>
    obtain ⟨hy, ht⟩ := List.pairwise_cons.mp hs
    by_cases hyx : lt y x = true
    · rw [insert_cons_of_pos hyx]
      constructor
      · intro h0
        cases h0
      · intro hall
        have := hw.trans hyx (hall y (.head _))
        rw [hw.irrefl] at this
        cases this
    · have hxy := (h y (.head _)).resolve_right hyx
      rw [insert_cons_of_neg (by simpa using hyx) hxy]
      constructor
      · intro _ a ha
        rcases List.mem_cons.mp ha with rfl | ha
        · exact hxy
        · exact hw.trans hxy (hy a ha)
      · intro _
        rfl

/-- Only the members' order matters. -/
theorem Sorted.congr {lt' : α → α → Bool} (hs : Sorted lt l) (h : ∀ a ∈ l, ∀ b ∈ l, lt' a b = lt a b) :
    Sorted lt' l :=
  List.Pairwise.imp_of_mem (fun ha hb hab => (h _ ha _ hb).trans hab) hs

/-! ## Filling an empty set -/

/-- One insertion after another. -/
def ofList (lt : α → α → Bool) (xs : List α) : List α := xs.foldl (fun l x => (insert lt x l).2.2) []

theorem foldl_insert_sorted (hw : StrictWeak lt) (xs : List α) (hs : Sorted lt l) :
    Sorted lt (xs.foldl (fun l x => (insert lt x l).2.2) l) := by
  induction xs generalizing l with
  | nil => exact hs
  | cons x xs ih => exact ih (insert_sorted hw hs)

theorem ofList_sorted (hw : StrictWeak lt) (xs : List α) : Sorted lt (ofList lt xs) :=
  foldl_insert_sorted hw xs .nil

theorem mem_of_foldl_insert (xs : List α) {a : α} (h : a ∈ xs.foldl (fun l x => (insert lt x l).2.2) l) :
    a ∈ l ∨ a ∈ xs := by
  induction xs generalizing l with
  | nil => exact .inl h
  | cons x xs ih =>
    rcases ih h with h | h
    · rcases mem_of_insert a h with rfl | h
      · exact .inr (.head _)
      · exact .inl h
    · exact .inr (.tail _ h)

theorem mem_of_ofList {xs : List α} {a : α} (h : a ∈ ofList lt xs) : a ∈ xs :=
  (mem_of_foldl_insert xs h).resolve_left (fun h => nomatch h)

/-- Elements that can all be told apart are all there. -/
theorem mem_foldl_insert {xs : List α} (hx : xs.Pairwise fun a b => lt a b = true ∨ lt b a = true)
    (hl : ∀ x ∈ xs, Apart lt x l) (a : α) :
    a ∈ xs.foldl (fun l x => (insert lt x l).2.2) l ↔ a ∈ l ∨ a ∈ xs := by
  induction xs generalizing l with
  | nil => simp
  | cons x xs ih =>
    obtain ⟨hhead, htail⟩ := List.pairwise_cons.mp hx
    have hmem := mem_insert (hl x (.head _))
    have hl' : ∀ y ∈ xs, Apart lt y (insert lt x l).2.2 := by
      intro y hy z hz
      rcases (hmem z).mp hz with rfl | hz
      · exact (hhead y hy).symm
      · exact hl y (.tail _ hy) z hz
    rw [List.foldl_cons, ih htail hl', hmem, List.mem_cons]
    constructor
    · rintro ((h | h) | h)
      · exact .inr (.inl h)
      · exact .inl h
      · exact .inr (.inr h)
    · rintro (h | h | h)
      · exact .inl (.inr h)
      · exact .inl (.inl h)
      · exact .inr h

theorem Sorted.eq_of_perm (hw : StrictWeak lt) {l' : List α} (hs : Sorted lt l) (hs' : Sorted lt l') (hp : l.Perm l') :
    l = l' := by
  refine List.Perm.eq_of_pairwise ?_ hs hs' hp
  intro a b _ _ hab hba
  have haa := hw.trans hab hba
  rw [hw.irrefl] at haa
  cases haa

/-- A set is found again from its members in any order. -/
theorem ofList_of_perm (hw : StrictWeak lt) {xs : List α} (hs : Sorted lt l) (hp : xs.Perm l) : ofList lt xs = l := by
  have hx : xs.Pairwise fun a b => lt a b = true ∨ lt b a = true := by
    refine (hp.pairwise_iff fun h => h.symm).mpr ?_
    exact hs.imp .inl
  have hnil : ∀ x ∈ xs, Apart lt x [] := by
    intro x _ y hy
    cases hy
  have hmem : ∀ a, a ∈ ofList lt xs ↔ a ∈ l := by
    intro a
    rw [ofList, mem_foldl_insert hx hnil, hp.mem_iff]
    simp
  have hsorted := ofList_sorted hw xs
  refine hsorted.eq_of_perm hw hs ?_
  exact (List.perm_ext_iff_of_nodup (nodup_of_sorted hw hsorted) (nodup_of_sorted hw hs)).mpr hmem

end OrderedSet
