/-
  Sylar.Lib.FirstFit — a queue from which each taker takes the first item that it may.

  Items come in at the end, and `r a b` says that `a` came before `b`; `may t x` says that
  the taker `t` may take `x`. Items of one kind are those that the same takers may take.
  - `InOrder`: the items of one kind are taken in the order in which they came
    (`Reach.inOrder`).
  - `overtaken`: while an item waits, each taker that may take it takes one that was ahead
    of it, so there are at most as many such takes as items ahead of it.
-/

import Sylar.Lib.Lts
import Mathlib.Data.List.Perm.Subperm

namespace FirstFit

structure State (α τ : Type) where
  queue : List α
  taken : List (α × τ)

/-- All items that ever came. -/
def State.items {α τ : Type} (s : State α τ) : List α := s.taken.map (·.1) ++ s.queue

inductive Act (α τ : Type) where
  | put (x : α)
  | take (x : α) (t : τ)
  deriving DecidableEq, Repr

section
variable {α τ : Type} (r : α → α → Prop) (may : τ → α → Bool)

inductive Step : State α τ → Act α τ → State α τ → Prop
  | put {s : State α τ} {x : α} : (∀ y ∈ s.items, r y x) → Step s (.put x) ⟨s.queue ++ [x], s.taken⟩
  | take {pre post : List α} {taken : List (α × τ)} {x : α} {t : τ} : may t x = true → (∀ y ∈ pre, may t y = false) →
      Step ⟨pre ++ x :: post, taken⟩ (.take x t) ⟨pre ++ post, taken ++ [(x, t)]⟩

/-- By a run from `s`. -/
abbrev Steps (s : State α τ) : State α τ → Prop := Lts.Reach (· = s) (Step r may)

def Start (s : State α τ) : Prop := s.queue = [] ∧ s.taken = []

abbrev Reach : State α τ → Prop := Lts.Reach Start (Step r may)

end

variable {α τ κ : Type} {r : α → α → Prop} {may : τ → α → Bool} {s s' : State α τ}

/-! ## The items of one kind -/

section
variable [DecidableEq κ] (kind : α → κ)

def State.ofKind (s : State α τ) (k : κ) : List α := s.items.filter fun x => kind x = k

def InOrder (r : α → α → Prop) (s : State α τ) : Prop := ∀ k, (s.ofKind kind k).Pairwise r

variable {kind}

/-- A take leaves the items of each kind as they were: it skips none of its own kind. -/
theorem ofKind_take (hkind : ∀ t x y, kind x = kind y → may t x = may t y) {pre post : List α}
    {taken : List (α × τ)} {x : α} {t : τ} (hx : may t x = true) (hpre : ∀ y ∈ pre, may t y = false) (k : κ) :
    (State.mk (pre ++ post) (taken ++ [(x, t)])).ofKind kind k = (State.mk (pre ++ x :: post) taken).ofKind kind k := by
  unfold State.ofKind State.items
  by_cases hk : kind x = k
  · have hnone : pre.filter (fun y => kind y = k) = [] := by
      rw [List.filter_eq_nil_iff]
      intro y hy he
      have hmay := hkind t y x ((of_decide_eq_true he).trans hk.symm)
      rw [hpre y hy, hx] at hmay
      cases hmay
    simp [hnone, hk]
  · simp [hk]

theorem step_inOrder (hkind : ∀ t x y, kind x = kind y → may t x = may t y) {a : Act α τ} (hi : InOrder kind r s)
    (hst : Step r may s a s') : InOrder kind r s' := by
  intro k
  cases hst with
  | @put _ x hnew =>
    have he : (State.mk (s.queue ++ [x]) s.taken).ofKind kind k =
        s.ofKind kind k ++ [x].filter fun y => kind y = k := by
      simp [State.ofKind, State.items]
    rw [he, List.pairwise_append]
    refine ⟨hi k, (List.pairwise_singleton r x).filter _, ?_⟩
    intro y hy z hz
    rw [List.mem_singleton.mp (List.mem_of_mem_filter hz)]
    exact hnew y (List.mem_of_mem_filter hy)
  | take hx hpre =>
    rw [ofKind_take hkind hx hpre k]
    exact hi k

theorem Reach.inOrder (h : Reach r may s) (hkind : ∀ t x y, kind x = kind y → may t x = may t y) :
    InOrder kind r s := by
  refine h.inv ?_ fun _ _ _ hi hst => step_inOrder hkind hi hst
  rintro s ⟨hq, ht⟩ k
  simp [State.ofKind, State.items, hq, ht]

end

/-! ## Who is overtaken -/

theorem step_sorted {a : Act α τ} (hi : s.queue.Pairwise r) (hst : Step r may s a s') : s'.queue.Pairwise r := by
  cases hst with
  | @put _ x hnew =>
    show (s.queue ++ [x]).Pairwise r
    rw [List.pairwise_append]
    refine ⟨hi, List.pairwise_singleton r x, ?_⟩
    intro y hy z hz
    rw [List.mem_singleton.mp hz]
    exact hnew y (List.mem_append_right _ hy)
  | @take pre post taken x t _ _ =>
    exact hi.sublist ((List.sublist_cons_self x post).append_left pre)

theorem Reach.sorted (h : Reach r may s) : s.queue.Pairwise r := by
  refine h.inv ?_ fun _ _ _ => step_sorted
  rintro s ⟨hq, -⟩
  rw [hq]
  exact .nil

variable [DecidableRel r]

/-- The items of the queue that came before `x`. -/
def State.ahead (r : α → α → Prop) [DecidableRel r] (s : State α τ) (x : α) : List α :=
  s.queue.filter fun y => r y x

/-- A take moves an item from the queue to the log. -/
theorem items_take (pre post : List α) {taken : List (α × τ)} {x : α} {t : τ} :
    (State.mk (pre ++ post) (taken ++ [(x, t)])).items.Perm (State.mk (pre ++ x :: post) taken).items := by
  have hperm : (x :: (pre ++ post)).Perm (pre ++ x :: post) := List.perm_middle.symm
  simpa [State.items] using hperm.append_left (taken.map (·.1))

/-- What takers that may take `x` took. -/
def passed (may : τ → α → Bool) (x : α) (new : List (α × τ)) : List α := (new.filter fun y => may y.2 x).map (·.1)

/-- While `x` waits, a step takes one of those ahead of it, or its taker may not take `x`. -/
theorem step_ahead (hasymm : ∀ a b, r a b → ¬r b a) {a : Act α τ} (hi : s.queue.Pairwise r)
    (hst : Step r may s a s') {x : α} (hx : x ∈ s.items) (hx' : x ∈ s'.queue) :
    x ∈ s.queue ∧ ∃ new, s'.taken = s.taken ++ new ∧
      (passed may x new ++ s'.ahead r x).Subperm (s.ahead r x) := by
  cases hst with
  | @put _ z hnew =>
    have hr : r x z := hnew x hx
    have hq : x ∈ s.queue := by
      refine (List.mem_append.mp hx').resolve_right fun hz => ?_
      rw [List.mem_singleton.mp hz] at hr
      exact hasymm z z hr hr
    refine ⟨hq, [], (List.append_nil _).symm, ?_⟩
    have hz : (State.mk (s.queue ++ [z]) s.taken).ahead r x = s.ahead r x := by simp [State.ahead, hasymm x z hr]
    rw [hz]
    exact List.Subperm.refl _
  | @take pre post taken z t hz hpre =>
    have hq : x ∈ pre ++ z :: post := by
      rcases List.mem_append.mp hx' with h | h
      · exact List.mem_append_left _ h
      · exact List.mem_append_right _ (List.mem_cons_of_mem z h)
    refine ⟨hq, [(z, t)], rfl, ?_⟩
    by_cases hmay : may t x = true
    · -- then `x` is behind `z`
      have hpost : x ∈ post := by
        refine (List.mem_append.mp hx').resolve_left fun h => ?_
        rw [hpre x h] at hmay
        cases hmay
      have hzx : r z x := (List.pairwise_cons.mp (List.pairwise_append.mp hi).2.1).1 x hpost
      have hperm : (passed may x [(z, t)] ++ (State.mk (pre ++ post) (taken ++ [(z, t)])).ahead r x).Perm
          ((State.mk (pre ++ z :: post) taken).ahead r x) := by
        simp only [passed, State.ahead, List.filter_append, List.filter_cons, List.filter_nil, hmay, hzx, decide_true,
          if_true, List.map_cons, List.map_nil, List.cons_append, List.nil_append]
        exact List.perm_middle.symm
      exact hperm.subperm
    · have hsub : (pre ++ post).Sublist (pre ++ z :: post) := (List.sublist_cons_self z post).append_left pre
      simp only [passed, List.filter_cons, hmay]
      exact (hsub.filter _).subperm

/-- Of a run in which `x` waits: the items taken by those that may take `x` were ahead of it. -/
theorem overtaken (hasymm : ∀ a b, r a b → ¬r b a) (hi : s.queue.Pairwise r) (hr : Steps r may s s') :
    ∃ new, s'.taken = s.taken ++ new ∧ ∀ x ∈ s.queue, x ∈ s'.queue → (passed may x new).Subperm (s.ahead r x) := by
  have hall : s'.queue.Pairwise r ∧ ∃ new, s'.taken = s.taken ++ new ∧ ∀ x ∈ s.queue, x ∈ s'.items ∧
      (x ∈ s'.queue → (passed may x new ++ s'.ahead r x).Subperm (s.ahead r x)) := by
    induction hr with
    | init h =>
      subst h
      refine ⟨hi, [], (List.append_nil _).symm, fun x hx => ⟨List.mem_append_right _ hx, fun _ => ?_⟩⟩
      exact List.Subperm.refl _
    | @step u v a _ hst ih =>
      obtain ⟨hsort, new, hnew, hall⟩ := ih
      obtain ⟨new', hnew'⟩ : ∃ new', v.taken = u.taken ++ new' := by
        cases hst with
        | put => exact ⟨[], (List.append_nil _).symm⟩
        | take => exact ⟨_, rfl⟩
      refine ⟨step_sorted hsort hst, new ++ new', by rw [hnew', hnew, List.append_assoc], ?_⟩
      intro x hx
      obtain ⟨hitems, hsub⟩ := hall x hx
      refine ⟨?_, fun hx' => ?_⟩
      · cases hst with
        | @put _ z _ =>
          show x ∈ u.taken.map (·.1) ++ (u.queue ++ [z])
          rw [← List.append_assoc]
          exact List.mem_append_left _ hitems
        | take => exact (items_take _ _).symm.subset hitems
      · obtain ⟨hq, new'', hnew'', hstep⟩ := step_ahead hasymm hsort hst hitems hx'
        cases List.append_cancel_left (hnew'.symm.trans hnew'')
        have happ : passed may x (new ++ new') = passed may x new ++ passed may x new' := by
          simp [passed]
        rw [happ, List.append_assoc]
        exact ((List.subperm_append_left _).mpr hstep).trans (hsub hq)
  obtain ⟨-, new, hnew, hall⟩ := hall
  refine ⟨new, hnew, fun x hx hx' => ?_⟩
  exact (List.sublist_append_left _ _).subperm.trans ((hall x hx).2 hx')

end FirstFit
