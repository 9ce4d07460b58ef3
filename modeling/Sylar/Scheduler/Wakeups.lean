/-
  Sylar.Scheduler.Wakeups — what becomes of the wake-ups of `Sylar.Scheduler.Handover`
  (sylar/scheduler.cpp lines 116-182, sylar/iomanager.cpp lines 77-91 and 335-366).

  A fiber that is to run again has one right to run: a task in the queue, an event it
  waits for, an armed timer, or a thread that has taken the task or runs it before it has
  published itself. It gives the right up when it yields without having published itself,
  or ends (`quits`).

  Proved, over every interleaving, also those in which the handover goes wrong
  (`wakeups_conserved`): a new fiber has one right, no fiber ever has two, and a fiber has
  its right for as long as it does not give it up. One that has none is not resumed again.
-/

import Sylar.Scheduler.HandoverProofs

namespace Sylar.Handover

/-- `f` ends, or yields unpublished. -/
def quits (s : State) (f : FiberId) : Act → Bool
  | .yield t | .finish t => s.pc t == .running f false
  | _ => false

/-- A thread is about to resume `f`. -/
def Resumes (s : State) (f : FiberId) (a : Act) : Prop := ∃ t x, a = .resume t ∧ s.pc t = .start x ∧ x.m_fiber = some f

variable {c : Config} {s s' : State} {a : Act} {f : FiberId}

theorem running_eq (g : FiberId) (p : Bool) : (Pc.running g p == Pc.running f false) = ((g == f) && !p) := by
  cases p <;> simp [Bool.beq_eq_decide_eq]

/-- The rights after a step: one more for a new fiber, one less for one that quits. -/
theorem Step.rights_eq (hm : ∀ t, s.pc t ≠ .loop → t ∈ c.threads) (h : Step c s a s') (f : FiberId) :
    Handover.rights c s' f + (quits s f a).toNat =
      Handover.rights c s f + if f = s.s_fiber_id ∧ s.s_fiber_id < s'.s_fiber_id then 1 else 0 := by
  have moves {t : Tid} {pc : Pc} (hpc : s.pc t = pc) (hne : pc ≠ .loop) (pc' : Pc) :
      Handover.rights c (s.goto t pc') f + (pc.right c f).toNat =
        Handover.rights c s f + (pc'.right c f).toNat := by
    have := rights_goto (s := s) (hm t (hpc ▸ hne)) pc' f
    rwa [hpc] at this
  -- one that makes no fiber, and one that does
  have old {a : Act} {s' : State} (b : Bool) (hid : s'.s_fiber_id = s.s_fiber_id) (hq : quits s f a = b)
      (hr : Handover.rights c s' f + b.toNat = Handover.rights c s f) : Handover.rights c s' f + (quits s f a).toNat =
        Handover.rights c s f + if f = s.s_fiber_id ∧ s.s_fiber_id < s'.s_fiber_id then 1 else 0 := by
    have hnot : ¬(f = s.s_fiber_id ∧ s.s_fiber_id < s'.s_fiber_id) := fun h => Nat.ne_of_gt h.2 hid
    rw [hq, hr, if_neg hnot]
    rfl
  have new {a : Act} {s' : State} (hid : s'.s_fiber_id = s.s_fiber_id + 1) (hq : quits s f a = false)
      (hr : Handover.rights c s' f = Handover.rights c s f + (s.s_fiber_id == f).toNat) :
      Handover.rights c s' f + (quits s f a).toNat =
        Handover.rights c s f + if f = s.s_fiber_id ∧ s.s_fiber_id < s'.s_fiber_id then 1 else 0 := by
    rw [hq, hr, hid, Bool.toNat_false]
    by_cases hf : s.s_fiber_id = f
    · simp [hf]
    · simp [hf, Ne.symm hf]
  cases h with
  | spawn pin =>
    refine new rfl rfl ?_
    rw [rights_schedule, target_ofFiber, rights_newFiber, Option.some_beq_some]
  | submit pin hcb =>
    refine old false rfl rfl ?_
    rw [rights_schedule, target_ofCb, hcb]
    rfl
  | dequeue ht hloop hx _ => exact old false rfl rfl (rights_dequeue ht hloop hx f)
  | @resume t x g hpc hg _ =>
    have := rights_resume (s := s) (hm t (by simp [hpc])) g f
    simp only [hpc, Pc.right, target_fiber hg, Option.some_beq_some] at this
    exact old false rfl rfl (Nat.add_right_cancel this)
  | @begin t x cb hpc hx hcb hw =>
    have := rights_resume (s := s.newFiber) (hm t (by simp [hpc])) s.s_fiber_id f
    rw [rights_newFiber, newFiber_pc, hpc] at this
    simp only [Pc.right, target_cb hx hcb, hw] at this
    exact new rfl rfl this
  | @call t x cb g hpc hx hcb hw =>
    have := moves hpc (by simp) (.callback cb)
    simp only [Pc.right, target_cb hx hcb] at this
    exact old false rfl rfl (Nat.add_right_cancel this)
  | @schedule t g pin hpc =>
    have := moves hpc (by simp) (.running g true)
    rw [right_unpublished, right_published, Bool.toNat_false] at this
    refine old false rfl rfl ?_
    rw [rights_schedule, target_ofFiber, Option.some_beq_some]
    exact this
  | @addEvent t g hpc =>
    have := moves hpc (by simp) (.running g true)
    rw [right_unpublished, right_published, Bool.toNat_false] at this
    refine old false rfl rfl ?_
    rw [rights_addEvent]
    exact this
  | @addTimer t g cb hpc hw =>
    have := moves hpc (by simp) (.running g true)
    rw [right_unpublished, right_published, Bool.toNat_false] at this
    refine old false rfl rfl ?_
    rw [rights_addTimer, hw, Option.some_beq_some]
    exact this
  | trigger hg =>
    refine old false rfl rfl ?_
    rw [rights_schedule, target_ofFiber, Option.some_beq_some]
    exact rights_delEvent hg f
  | expire hcb =>
    refine old false rfl rfl ?_
    rw [rights_schedule, target_ofCb]
    exact rights_delTimer hcb f
  | wake hpc hw =>
    have := moves hpc (by simp) .loop
    simp only [Pc.right, hw, Option.some_beq_some, Bool.toNat_false] at this
    refine old false rfl rfl ?_
    rw [rights_schedule, target_ofFiber, Option.some_beq_some]
    exact this
  | @yield t g p hpc _ =>
    have := moves hpc (by simp) (.switching g)
    refine old ((g == f) && !p) rfl ?_ this
    rw [quits, hpc, running_eq]
  | @swap t g hpc => exact old false rfl rfl (moves hpc (by simp) .loop)
  | @finish t g hpc =>
    have := moves hpc (by simp) .loop
    refine old (g == f) rfl ?_ ?_
    · rw [quits, hpc, running_eq, Bool.not_false, Bool.and_true]
    · rw [right_unpublished] at this
      exact this

/-! ## Over a run -/

/-- At most one right each, and none before the fiber is made. -/
structure OneRight (c : Config) (s : State) : Prop where
  members : ∀ t, s.pc t ≠ .loop → t ∈ c.threads
  one : ∀ f, rights c s f ≤ 1
  fresh : ∀ f, s.s_fiber_id ≤ f → rights c s f = 0

theorem start_oneRight (h : Start s) : OneRight c s :=
  ⟨h.inv.members, fun f => (h.inv.fiber f).right, fun f hf => (h.inv.fresh f hf).1⟩

theorem step_oneRight (hi : OneRight c s) (h : Step c s a s') : OneRight c s' := by
  refine ⟨fun t => h.members hi.members, fun f => ?_, fun f hf => ?_⟩
  · have heq := h.rights_eq hi.members f
    have hone := hi.one f
    split at heq
    · next hnew =>
      have := hi.fresh f hnew.1.ge
      omega
    · omega
  · have heq := h.rights_eq hi.members f
    have hid := h.s_fiber_id
    have hnot : ¬(f = s.s_fiber_id ∧ s.s_fiber_id < s'.s_fiber_id) := fun h => Nat.not_le.mpr (h.1 ▸ h.2) hf
    rw [if_neg hnot, hi.fresh f (hid.trans hf)] at heq
    omega

theorem reach_oneRight (h : Reach c s) : OneRight c s := h.inv (fun _ => start_oneRight) fun _ _ _ => step_oneRight

/-- Without a right there is no one to resume it. -/
theorem not_resumes (hi : OneRight c s) (h : rights c s f = 0) : ¬Resumes s f a := by
  rintro ⟨t, x, -, hpc, hf⟩
  exact absurd h (Nat.ne_of_gt (rights_pos_right hi.members (start_right hpc hf)))

theorem rights_of_quits (hi : OneRight c s) (h : quits s f a = true) : 0 < rights c s f := by
  have hright : ∀ t, s.pc t = .running f false → 0 < rights c s f := fun t hpc =>
    rights_pos_right hi.members (t := t) (by rw [hpc, right_unpublished, beq_self_eq_true])
  cases a with
  | yield t => exact hright t (beq_iff_eq.mp h)
  | finish t => exact hright t (beq_iff_eq.mp h)
  | _ => cases h

/-- A fiber that is there keeps its right, or lack of one, until it gives the right up. -/
theorem step_keeps (hi : OneRight c s) (hf : f < s.s_fiber_id) (h : Step c s a s') :
    rights c s' f = 1 ↔ rights c s f = 1 ∧ quits s f a = false := by
  have heq := h.rights_eq hi.members f
  have hone := hi.one f
  have hnot : ¬(f = s.s_fiber_id ∧ s.s_fiber_id < s'.s_fiber_id) := fun h => Nat.ne_of_lt hf h.1
  rw [if_neg hnot] at heq
  cases hq : quits s f a with
  | true =>
    rw [hq, Bool.toNat_true] at heq
    simp only [Bool.true_eq_false, and_false, iff_false]
    omega
  | false =>
    rw [hq, Bool.toNat_false] at heq
    simp only [and_true]
    omega

theorem run_keeps {tr : List (Act × State)} (hr : Lts.Run (Step c) s tr) (hi : OneRight c s) (hf : f < s.s_fiber_id) :
    rights c (Lts.final s tr) f = 1 ↔ rights c s f = 1 ∧ Lts.Every (fun u a _ => quits u f a = false) s tr := by
  induction hr with
  | nil => exact (and_iff_left trivial).symm
  | cons hst _ ih =>
    have hlt := Nat.lt_of_lt_of_le hf hst.s_fiber_id
    exact (ih (step_oneRight hi hst) hlt).trans ((and_congr_left fun _ => step_keeps hi hf hst).trans and_assoc)

theorem run_not_resumes {tr : List (Act × State)} (hr : Lts.Run (Step c) s tr) (hi : OneRight c s)
    (hf : f < s.s_fiber_id) (h0 : rights c s f = 0) : Lts.Every (fun u a _ => ¬Resumes u f a) s tr := by
  induction hr with
  | nil => trivial
  | cons hst _ ih =>
    have hi' := step_oneRight hi hst
    refine ⟨not_resumes hi h0, ih hi' (Nat.lt_of_lt_of_le hf hst.s_fiber_id) ?_⟩
    have hnot : ¬rights c _ f = 1 := fun h => absurd ((step_keeps hi hf hst).mp h).1 (by omega)
    have := hi'.one f
    omega

/-- Whatever the order of publishing, waking and yielding, no right to run is lost or made. -/
theorem wakeups_conserved (h : Reach c s) :
    (∀ f, rights c s f ≤ 1) ∧
    (∀ a s', Step c s a s' → s.s_fiber_id < s'.s_fiber_id → rights c s' s.s_fiber_id = 1) ∧
    ∀ tr, Lts.Run (Step c) s tr → ∀ f < s.s_fiber_id,
      (rights c (Lts.final s tr) f = 1 ↔
        rights c s f = 1 ∧ Lts.Every (fun u a _ => quits u f a = false) s tr) ∧
      (rights c s f = 0 → Lts.Every (fun u a _ => ¬Resumes u f a) s tr) := by
  have hi := reach_oneRight h
  refine ⟨hi.one, fun a s' hst hnew => ?_, fun tr hr f hf => ⟨run_keeps hr hi hf, run_not_resumes hr hi hf⟩⟩
  have heq := hst.rights_eq hi.members s.s_fiber_id
  have hfresh := hi.fresh s.s_fiber_id (Nat.le_refl _)
  have hq : quits s s.s_fiber_id a = false := by
    by_contra hq
    exact absurd hfresh (Nat.ne_of_gt (rights_of_quits hi (eq_true_of_ne_false hq)))
  rw [if_pos ⟨rfl, hnew⟩, hfresh, hq] at heq
  exact heq

/-- A fiber that yields without having published itself. -/
theorem wakeups_conserved_forgotten : ∃ s s' : State, Reach twoThreads s ∧
    Lts.Run (Step twoThreads) s [(.yield 1, s')] ∧ rights twoThreads s 0 = 1 ∧ rights twoThreads s' 0 ≠ 1 := by
  have h0 : Reach twoThreads _ := .init empty_start
  have h1 := h0.step _ (.spawn none)
  have h2 := h1.step _ (.dequeue (t := 1) (by simp [twoThreads]) rfl rfl fun _ h => by cases h; rfl)
  have h3 := h2.step _ (.resume (t := 1) rfl rfl rfl)
  have hst : Step twoThreads ((State.dequeue (State.schedule State.empty.newFiber (.ofFiber 0 none)) 1
      (.ofFiber 0 none)).resume 1 0) (.yield 1) _ := .yield (t := 1) (f := 0) (p := false) rfl rfl
  have hrun := Lts.Run.cons hst (.nil _)
  refine ⟨_, _, h3, hrun, by rfl, fun hone => ?_⟩
  have hkept := ((wakeups_conserved h3).2.2 _ hrun 0 (Nat.lt_succ_self 0)).1.mp hone
  exact absurd hkept.2.1 (by decide)

end Sylar.Handover
