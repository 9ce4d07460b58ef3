/-
  Sylar.Fiber.Lifetime — how long a fiber with a stack lives (sylar/fiber.cpp lines 63-156,
  Scheduler::run, sylar/scheduler.cpp lines 116-180).

  A fiber is owned by shared_ptrs: `cur` of MainFunc and others on its own stack, that of
  the call that resumed it (`task.m_fiber`, `cb_fiber` or `idle_fiber` of run), and those
  anywhere else: in the queue, in an event's context, in a callback. The last one to go
  calls the destructor. MainFunc drops `cur` and only then calls `raw_ptr->yield()`.

  Actors. Any threads. Whoever has a pointer copies and drops it; a thread's run resumes a
  fiber that it has one of, and has it back when the fiber yields or ends. resume and
  yield are one step each: left out are the runs in which a thread resumes a fiber while
  another is inside its resume or yield, where two may run it at once
  (`Sylar.Scheduler.Handover` takes the two apart). Only run resets a fiber, after it has
  come back. A step whose assertion fails has no successor.

  Proved, over every interleaving of these steps (`fiber_lifetime`):
  - the fiber that a thread runs is there, also after it has dropped `cur`;
  - one that is inside its callback is not destroyed, and when its last pointer goes, the
    destructor's `m_state == TERM` fails exactly for a fiber not entered since it was made
    or reset;
  - one that has yielded, with no pointer to it but on its own stack, stays as it is for
    ever: it is neither resumed nor destroyed.
-/

import Sylar.Lib.Lts
import Sylar.Scheduler.Task
import Mathlib.Logic.Function.Basic

namespace Sylar.Lifetime

/-- Before MainFunc, in it, and after `cur.reset()`. -/
inductive Phase where
  | fresh
  | inside
  | left
  deriving DecidableEq, Repr

structure Obj where
  m_state : FiberState
  phase : Phase
  /-- The pointers on its own stack. -/
  own : Nat
  /-- Those anywhere else, but for the call that resumed it. -/
  refs : Nat
  deriving DecidableEq, Repr

structure State where
  obj : FiberId → Option Obj
  /-- Fibers that were destroyed. -/
  gone : List FiberId
  /-- What run has resumed. -/
  running : Tid → Option FiberId

namespace State

def put (s : State) (f : FiberId) (o : Obj) : State := { s with obj := Function.update s.obj f (some o) }

def setRunning (s : State) (t : Tid) (f : Option FiberId) : State :=
  { s with running := Function.update s.running t f }

/-- A call has resumed it. -/
def Held (s : State) (f : FiberId) : Prop := ∃ t, s.running t = some f

end State

/-- The next pointer to be dropped is the last one. -/
def LastRef (s : State) (f : FiberId) (o : Obj) : Prop := o.refs = 1 ∧ o.own = 0 ∧ ¬s.Held f

inductive Act where
  | make (f : FiberId)
  | copy (f : FiberId)
  | drop (f : FiberId)
  | reset (f : FiberId)
  | resume (t : Tid) (f : FiberId)
  | enter (t : Tid)
  | getThis (t : Tid)
  | forget (t : Tid)
  | yield (t : Tid)
  | finish (t : Tid)
  | leave (t : Tid)
  deriving DecidableEq, Repr

inductive Step (s : State) : Act → State → Prop
  | make (f : FiberId) : s.obj f = none → f ∉ s.gone → Step s (.make f) (s.put f ⟨.READY, .fresh, 0, 1⟩)
  /-- From another pointer, or by GetThis() in its own code. -/
  | copy (f : FiberId) (o : Obj) : s.obj f = some o → 0 < o.refs ∨ s.Held f →
      Step s (.copy f) (s.put f { o with refs := o.refs + 1 })
  | drop (f : FiberId) (o : Obj) : s.obj f = some o → 0 < o.refs → ¬LastRef s f o →
      Step s (.drop f) (s.put f { o with refs := o.refs - 1 })
  /-- `Fiber::~Fiber`. -/
  | destroy (f : FiberId) (o : Obj) : s.obj f = some o → LastRef s f o → o.m_state = .TERM →
      Step s (.drop f) { s with obj := Function.update s.obj f none, gone := f :: s.gone }
  | reset (f : FiberId) (o : Obj) : s.obj f = some o → 0 < o.refs → ¬s.Held f → o.m_state = .TERM →
      Step s (.reset f) (s.put f { o with m_state := .READY, phase := .fresh })
  /-- `task.m_fiber->resume()` and the like. -/
  | resume (t : Tid) (f : FiberId) (o : Obj) : s.running t = none → s.obj f = some o → 0 < o.refs →
      o.m_state ≠ .TERM ∧ o.m_state ≠ .RUNNING →
      Step s (.resume t f) ((s.put f { o with m_state := .RUNNING, refs := o.refs - 1 }).setRunning t (some f))
  /-- `Fiber::ptr cur = GetThis()`. -/
  | enter (t : Tid) (f : FiberId) (o : Obj) : s.running t = some f → s.obj f = some o → o.phase = .fresh →
      Step s (.enter t) (s.put f { o with phase := .inside, own := 1 })
  | getThis (t : Tid) (f : FiberId) (o : Obj) : s.running t = some f → s.obj f = some o → o.phase = .inside →
      Step s (.getThis t) (s.put f { o with own := o.own + 1 })
  /-- A pointer on the stack other than `cur`. -/
  | forget (t : Tid) (f : FiberId) (o : Obj) : s.running t = some f → s.obj f = some o → o.phase = .inside →
      1 < o.own → Step s (.forget t) (s.put f { o with own := o.own - 1 })
  /-- The resumer has its pointer back. -/
  | yield (t : Tid) (f : FiberId) (o : Obj) : s.running t = some f → s.obj f = some o → o.phase = .inside →
      Step s (.yield t) ((s.put f { o with m_state := .READY, refs := o.refs + 1 }).setRunning t none)
  /-- From the return of m_cb() to `cur.reset()`. -/
  | finish (t : Tid) (f : FiberId) (o : Obj) : s.running t = some f → s.obj f = some o → o.phase = .inside →
      o.own = 1 → Step s (.finish t) (s.put f { o with m_state := .TERM, phase := .left, own := 0 })
  /-- `raw_ptr->yield()`. -/
  | leave (t : Tid) (f : FiberId) (o : Obj) : s.running t = some f → s.obj f = some o → o.phase = .left →
      Step s (.leave t) ((s.put f { o with refs := o.refs + 1 }).setRunning t none)

def Init (s : State) : Prop := s = ⟨fun _ => none, [], fun _ => none⟩

/-! ## The pointers of a fiber -/

/-- By where its code is; `held` if a call has resumed it. -/
inductive Fits (held : Prop) : Obj → Prop
  | fresh {refs : Nat} : ¬held → 0 < refs → Fits held ⟨.READY, .fresh, 0, refs⟩
  | entering {refs : Nat} : held → Fits held ⟨.RUNNING, .fresh, 0, refs⟩
  | waiting {own refs : Nat} : ¬held → 0 < own → Fits held ⟨.READY, .inside, own, refs⟩
  | running {own refs : Nat} : held → 0 < own → Fits held ⟨.RUNNING, .inside, own, refs⟩
  | leaving {refs : Nat} : held → Fits held ⟨.TERM, .left, 0, refs⟩
  | ended {refs : Nat} : ¬held → 0 < refs → Fits held ⟨.TERM, .left, 0, refs⟩

structure Inv (s : State) : Prop where
  fits : ∀ f o, s.obj f = some o → Fits (s.Held f) o
  there : ∀ f, s.Held f → (s.obj f).isSome
  once : ∀ t t' f, s.running t = some f → s.running t' = some f → t = t'
  gone : ∀ f ∈ s.gone, s.obj f = none

variable {s s' : State} {f : FiberId} {o : Obj} {t : Tid} {a : Act}

theorem init_inv (h : Init s) : Inv s := by
  subst h
  exact ⟨nofun, nofun, nofun, nofun⟩

theorem put_self (s : State) (f : FiberId) (o : Obj) : (s.put f o).obj f = some o := Function.update_self ..

theorem put_ne (s : State) {f g : FiberId} (o : Obj) (h : g ≠ f) : (s.put f o).obj g = s.obj g :=
  Function.update_of_ne h ..

theorem setRunning_self (s : State) (t : Tid) (x : Option FiberId) : (s.setRunning t x).running t = x :=
  Function.update_self ..

theorem setRunning_ne (s : State) {t u : Tid} (x : Option FiberId) (h : u ≠ t) :
    (s.setRunning t x).running u = s.running u := Function.update_of_ne h ..

/-- One fiber changes, and nothing is resumed. -/
theorem Inv.put (hi : Inv s) (hsome : (s.obj f).isSome ∨ f ∉ s.gone) (hf : Fits (s.Held f) o) : Inv (s.put f o) where
  fits g o' hg := by
    by_cases e : g = f
    · subst e
      cases (put_self s g o).symm.trans hg
      exact hf
    · rw [put_ne s o e] at hg
      exact hi.fits g o' hg
  there g hg := by
    by_cases e : g = f
    · rw [e, put_self]
      rfl
    · rw [put_ne s o e]
      exact hi.there g hg
  once := hi.once
  gone g hg := by
    have e : g ≠ f := by
      rintro rfl
      rcases hsome with hsome | hout
      · rw [hi.gone g hg] at hsome
        cases hsome
      · exact hout hg
    rw [put_ne s o e]
    exact hi.gone g hg

theorem held_resume (ht : s.running t = none) (g : FiberId) :
    ((s.put f o).setRunning t (some f)).Held g ↔ s.Held g ∨ g = f := by
  constructor
  · rintro ⟨u, hu⟩
    by_cases e : u = t
    · rw [e, setRunning_self] at hu
      exact .inr (Option.some_inj.mp hu).symm
    · rw [setRunning_ne _ _ e] at hu
      exact .inl ⟨u, hu⟩
  · rintro (⟨u, hu⟩ | rfl)
    · have e : u ≠ t := by
        rintro rfl
        cases ht.symm.trans hu
      exact ⟨u, (setRunning_ne _ _ e).trans hu⟩
    · exact ⟨t, setRunning_self ..⟩

theorem Inv.resume (hi : Inv s) (ht : s.running t = none) (hno : ¬s.Held f) (hsome : (s.obj f).isSome)
    (hf : Fits True o) : Inv ((s.put f o).setRunning t (some f)) where
  fits g o' hg := by
    rw [held_resume ht]
    by_cases e : g = f
    · subst e
      cases (put_self s g o).symm.trans hg
      rwa [eq_true (Or.inr rfl : s.Held g ∨ g = g)]
    · rw [or_iff_left e]
      exact hi.fits g o' ((put_ne s o e).symm.trans hg)
  there g hg := by
    show ((s.put f o).obj g).isSome
    by_cases e : g = f
    · rw [e, put_self]
      rfl
    · rw [put_ne s o e]
      exact hi.there g (((held_resume ht g).mp hg).resolve_right e)
  once u u' g hu hu' := by
    by_cases e : u = t
    · by_cases e' : u' = t
      · rw [e, e']
      · rw [e, setRunning_self] at hu
        cases hu
        exact absurd ⟨u', (setRunning_ne _ _ e').symm.trans hu'⟩ hno
    · have hu : s.running u = some g := (setRunning_ne _ _ e).symm.trans hu
      by_cases e' : u' = t
      · rw [e', setRunning_self] at hu'
        cases hu'
        exact absurd ⟨u, hu⟩ hno
      · exact hi.once u u' g hu ((setRunning_ne _ _ e').symm.trans hu')
  gone g hg := by
    have e : g ≠ f := by
      rintro rfl
      rw [hi.gone g hg] at hsome
      cases hsome
    exact (put_ne s o e).trans (hi.gone g hg)

/-- After a thread's fiber has gone back to run, no thread runs it. -/
theorem Inv.held_back (hi : Inv s) (ht : s.running t = some f) (g : FiberId) :
    ((s.put f o).setRunning t none).Held g ↔ s.Held g ∧ g ≠ f := by
  constructor
  · rintro ⟨u, hu⟩
    have e : u ≠ t := by
      rintro rfl
      cases (setRunning_self ..).symm.trans hu
    have hu : s.running u = some g := (setRunning_ne _ _ e).symm.trans hu
    exact ⟨⟨u, hu⟩, fun hg => e (hi.once u t f (hg ▸ hu) ht)⟩
  · rintro ⟨⟨u, hu⟩, hg⟩
    have e : u ≠ t := by
      rintro rfl
      exact hg (Option.some_inj.mp (hu.symm.trans ht))
    exact ⟨u, (setRunning_ne _ _ e).trans hu⟩

theorem Inv.freed (hi : Inv s) (ht : s.running t = some f) (o : Obj) : ¬((s.put f o).setRunning t none).Held f :=
  fun h => ((hi.held_back ht f).mp h).2 rfl

theorem Inv.back (hi : Inv s) (ht : s.running t = some f) (hf : Fits False o) :
    Inv ((s.put f o).setRunning t none) where
  fits g o' hg := by
    rw [hi.held_back ht]
    by_cases e : g = f
    · subst e
      cases (put_self s g o).symm.trans hg
      rwa [eq_false (fun h => h.2 rfl : ¬(s.Held g ∧ g ≠ g))]
    · rw [and_iff_left e]
      exact hi.fits g o' ((put_ne s o e).symm.trans hg)
  there g hg := by
    obtain ⟨hg, e⟩ := (hi.held_back ht g).mp hg
    show ((s.put f o).obj g).isSome
    rw [put_ne s o e]
    exact hi.there g hg
  once u u' g hu hu' := by
    have hne : ∀ v, (s.setRunning t none).running v = some g → s.running v = some g := by
      intro v hv
      by_cases e : v = t
      · rw [e, setRunning_self] at hv
        cases hv
      · rwa [setRunning_ne _ _ e] at hv
    exact hi.once u u' g (hne u hu) (hne u' hu')
  gone g hg := by
    have e : g ≠ f := by
      rintro rfl
      have hsome := hi.there g ⟨t, ht⟩
      rw [hi.gone g hg] at hsome
      cases hsome
    exact (put_ne s o e).trans (hi.gone g hg)

/-- Without its object a fiber has no pointer left. -/
theorem Inv.destroy (hi : Inv s) (hno : ¬s.Held f) :
    Inv { s with obj := Function.update s.obj f none, gone := f :: s.gone } where
  fits g o' hg := by
    by_cases e : g = f
    · rw [e] at hg
      cases (Function.update_self ..).symm.trans hg
    · exact hi.fits g o' ((Function.update_of_ne e ..).symm.trans hg)
  there g hg := by
    have e : g ≠ f := fun h => hno (h ▸ hg)
    show (Function.update s.obj f none g).isSome
    rw [Function.update_of_ne e]
    exact hi.there g hg
  once := hi.once
  gone g hg := by
    by_cases e : g = f
    · rw [e]
      exact Function.update_self ..
    · exact (Function.update_of_ne e ..).trans (hi.gone g ((List.mem_cons.mp hg).resolve_left e))

theorem step_inv (hi : Inv s) (hst : Step s a s') : Inv s' := by
  cases hst with
  | make f hnone hnew =>
    have hno : ¬s.Held f := fun h => by
      have hsome := hi.there f h
      rw [hnone] at hsome
      cases hsome
    exact hi.put (.inr hnew) (.fresh hno Nat.one_pos)
  | copy f o hf hpos =>
    refine hi.put (.inl (Option.isSome_of_mem hf)) ?_
    cases hi.fits f o hf with
    | fresh hno _ => exact .fresh hno (Nat.succ_pos _)
    | entering h => exact .entering h
    | waiting hno hown => exact .waiting hno hown
    | running h hown => exact .running h hown
    | leaving h => exact .leaving h
    | ended hno _ => exact .ended hno (Nat.succ_pos _)
  | drop f o hf hpos hlast =>
    refine hi.put (.inl (Option.isSome_of_mem hf)) ?_
    have hmore : o.own = 0 → ¬s.Held f → 0 < o.refs - 1 := by
      intro hown hno
      by_contra hle
      exact hlast ⟨by omega, hown, hno⟩
    cases hi.fits f o hf with
    | fresh hno _ => exact .fresh hno (hmore rfl hno)
    | entering h => exact .entering h
    | waiting hno hown => exact .waiting hno hown
    | running h hown => exact .running h hown
    | leaving h => exact .leaving h
    | ended hno _ => exact .ended hno (hmore rfl hno)
  | destroy f o hf hlast _ => exact hi.destroy hlast.2.2
  | reset f o hf hpos hno hstate =>
    refine hi.put (.inl (Option.isSome_of_mem hf)) ?_
    cases hi.fits f o hf with
    | leaving h => exact absurd h hno
    | ended _ hpos => exact .fresh hno hpos
    | _ => cases hstate
  | resume t f o ht hf hpos hstate =>
    have hfits := hi.fits f o hf
    have hno : ¬s.Held f := by
      cases hfits with
      | fresh hno _ => exact hno
      | waiting hno _ => exact hno
      | entering | running => exact absurd rfl hstate.2
      | leaving | ended => exact absurd rfl hstate.1
    refine hi.resume ht hno (Option.isSome_of_mem hf) ?_
    cases hfits with
    | fresh => exact .entering trivial
    | waiting _ hown => exact .running trivial hown
    | entering | running => exact absurd rfl hstate.2
    | leaving | ended => exact absurd rfl hstate.1
  | enter t f o ht hf hphase =>
    refine hi.put (.inl (Option.isSome_of_mem hf)) ?_
    cases hi.fits f o hf with
    | fresh hno _ => exact absurd ⟨t, ht⟩ hno
    | entering h => exact .running h Nat.one_pos
    | _ => cases hphase
  | getThis t f o ht hf hphase =>
    refine hi.put (.inl (Option.isSome_of_mem hf)) ?_
    cases hi.fits f o hf with
    | waiting hno _ => exact absurd ⟨t, ht⟩ hno
    | running h _ => exact .running h (Nat.succ_pos _)
    | _ => cases hphase
  | forget t f o ht hf hphase hown =>
    refine hi.put (.inl (Option.isSome_of_mem hf)) ?_
    cases hi.fits f o hf with
    | waiting hno _ => exact absurd ⟨t, ht⟩ hno
    | running h _ => exact .running h (Nat.sub_pos_of_lt hown)
    | _ => cases hphase
  | yield t f o ht hf hphase =>
    refine hi.back ht ?_
    cases hi.fits f o hf with
    | waiting hno _ => exact absurd ⟨t, ht⟩ hno
    | running _ hown => exact .waiting id hown
    | _ => cases hphase
  | finish t f o ht hf hphase _ =>
    refine hi.put (.inl (Option.isSome_of_mem hf)) ?_
    exact .leaving ⟨t, ht⟩
  | leave t f o ht hf hphase =>
    refine hi.back ht ?_
    cases hi.fits f o hf with
    | leaving => exact .ended id (Nat.succ_pos _)
    | ended => exact .ended id (Nat.succ_pos _)
    | _ => cases hphase

theorem reach_inv (h : Lts.Reach Init Step s) : Inv s :=
  h.inv (fun _ => init_inv) fun _ _ _ => step_inv

/-! ## What becomes of it -/

/-- Nobody can resume or destroy a fiber that only its own stack points to. -/
theorem stranded_step (hi : Inv s) (hf : s.obj f = some o) (hrefs : o.refs = 0) (hno : ¬s.Held f)
    (hst : Step s a s') : s'.obj f = some o ∧ ¬s'.Held f := by
  have hpos : ∀ {g : FiberId} {o' : Obj}, s.obj g = some o' → 0 < o'.refs → f ≠ g := by
    rintro g o' hg hpos rfl
    cases hf.symm.trans hg
    exact absurd hrefs (Nat.ne_of_gt hpos)
  have hout : ∀ {t : Tid} {g : FiberId}, s.running t = some g → f ≠ g := by
    rintro t g hg rfl
    exact hno ⟨t, hg⟩
  have hput : ∀ {g : FiberId} (o' : Obj), f ≠ g → (s.put g o').obj f = some o ∧ ¬s.Held f := fun o' e =>
    ⟨(put_ne s o' e).trans hf, hno⟩
  cases hst with
  | make g hnone _ =>
    refine hput _ ?_
    rintro rfl
    cases hf.symm.trans hnone
  | copy g o' hg hor => exact hput _ (hor.elim (hpos hg) fun ⟨_, hr⟩ => hout hr)
  | drop g o' hg hp _ => exact hput _ (hpos hg hp)
  | destroy g o' hg hlast _ =>
    have hp : 0 < o'.refs := hlast.1 ▸ Nat.one_pos
    exact ⟨(Function.update_of_ne (hpos hg hp) ..).trans hf, hno⟩
  | reset g o' hg hp _ _ => exact hput _ (hpos hg hp)
  | resume t g o' ht hg hp _ =>
    refine ⟨(put_ne s _ (hpos hg hp)).trans hf, fun hheld => ?_⟩
    exact ((held_resume ht f).mp hheld).elim hno (hpos hg hp)
  | enter t g o' ht hg _ => exact hput _ (hout ht)
  | getThis t g o' ht hg _ => exact hput _ (hout ht)
  | forget t g o' ht hg _ _ => exact hput _ (hout ht)
  | yield t g o' ht hg _ =>
    exact ⟨(put_ne s _ (hout ht)).trans hf, fun hheld => hno ((hi.held_back ht f).mp hheld).1⟩
  | finish t g o' ht hg _ _ => exact hput _ (hout ht)
  | leave t g o' ht hg _ =>
    exact ⟨(put_ne s _ (hout ht)).trans hf, fun hheld => hno ((hi.held_back ht f).mp hheld).1⟩

theorem stranded (hi : Inv s) (hf : s.obj f = some o) (hrefs : o.refs = 0) (hno : ¬s.Held f)
    (hr : Lts.Reach (· = s) Step s') : s'.obj f = some o ∧ ¬s'.Held f := by
  have hall := hr.inv (I := fun u => Inv u ∧ u.obj f = some o ∧ ¬u.Held f)
    (fun u hu => hu ▸ ⟨hi, hf, hno⟩)
    fun u a u' ⟨hi, hf, hno⟩ hst => ⟨step_inv hi hst, stranded_step hi hf hrefs hno hst⟩
  exact hall.2

/-- The last pointer is that to a fiber that has ended or was not entered. -/
theorem last_ref (hi : Inv s) (hf : s.obj f = some o) (hlast : LastRef s f o) :
    o.phase ≠ .inside ∧ (o.m_state = .TERM ↔ o.phase ≠ .fresh) := by
  obtain ⟨-, hown, hno⟩ := hlast
  cases hi.fits f o hf with
  | fresh => exact ⟨nofun, nofun, fun h => absurd rfl h⟩
  | entering h => exact absurd h hno
  | waiting _ hpos => exact absurd hown (Nat.ne_of_gt hpos)
  | running h => exact absurd h hno
  | leaving | ended => exact ⟨nofun, fun _ => nofun, fun _ => rfl⟩

/-- A fiber goes with its last pointer only. -/
theorem gone_by_drop (hf : s.obj f = some o) (hst : Step s a s') (hnone : s'.obj f = none) :
    a = .drop f ∧ LastRef s f o ∧ o.m_state = .TERM := by
  have hput : ∀ (g : FiberId) (o' : Obj), (s.put g o').obj f ≠ none := by
    intro g o'
    by_cases e : f = g
    · rw [e, put_self]
      nofun
    · rw [put_ne s o' e, hf]
      nofun
  cases hst with
  | destroy g o' hg hlast hterm =>
    by_cases e : f = g
    · subst e
      cases hf.symm.trans hg
      exact ⟨rfl, hlast, hterm⟩
    · cases hf.symm.trans ((Function.update_of_ne e ..).symm.trans hnone)
  | _ => exact absurd hnone (hput _ _)

theorem fiber_lifetime (h : Lts.Reach Init Step s) :
    (∀ t f, s.running t = some f → (s.obj f).isSome) ∧
    (∀ f o a s', s.obj f = some o → Step s a s' → s'.obj f = none →
      a = .drop f ∧ LastRef s f o ∧ o.phase = .left) ∧
    (∀ f o, s.obj f = some o → LastRef s f o →
      ((∃ s', Step s (.drop f) s') ↔ o.phase ≠ .fresh)) ∧
    ∀ f o, s.obj f = some o → o.refs = 0 → ¬s.Held f →
      o.phase = .inside ∧ ∀ s', Lts.Reach (· = s) Step s' → s'.obj f = some o ∧ ¬s'.Held f := by
  have hi := reach_inv h
  refine ⟨fun t f ht => hi.there f ⟨t, ht⟩, ?_, ?_, ?_⟩
  · intro f o a s' hf hst hnone
    obtain ⟨ha, hlast, hterm⟩ := gone_by_drop hf hst hnone
    obtain ⟨hout, hiff⟩ := last_ref hi hf hlast
    refine ⟨ha, hlast, ?_⟩
    have hfresh := hiff.mp hterm
    cases hphase : o.phase with
    | fresh => exact absurd hphase hfresh
    | inside => exact absurd hphase hout
    | left => rfl
  · intro f o hf hlast
    rw [← (last_ref hi hf hlast).2]
    constructor
    · rintro ⟨s', hst⟩
      cases hst with
      | drop g o' hg _ hno =>
        cases hf.symm.trans hg
        exact absurd hlast hno
      | destroy g o' hg _ hterm =>
        cases hf.symm.trans hg
        exact hterm
    · exact fun hterm => ⟨_, .destroy f o hf hlast hterm⟩
  · intro f o hf hrefs hno
    refine ⟨?_, fun s' hr => stranded hi hf hrefs hno hr⟩
    cases hi.fits f o hf with
    | fresh _ hpos => exact absurd hrefs (Nat.ne_of_gt hpos)
    | ended _ hpos => exact absurd hrefs (Nat.ne_of_gt hpos)
    | entering h => exact absurd h hno
    | leaving h => exact absurd h hno
    | waiting | running => rfl

/-- Fiber 0 is made, resumed by thread 1 and inside MainFunc. -/
theorem entered_run : ∃ s : State, Lts.Reach Init Step s ∧ s.running 1 = some 0 ∧
    s.obj 0 = some ⟨.RUNNING, .inside, 1, 0⟩ := by
  have h1 : Lts.Reach Init Step _ := .step (.make 0) (.init rfl) (.make 0 rfl List.not_mem_nil)
  have h2 : Lts.Reach Init Step _ := .step (.resume 1 0) h1 (.resume 1 0 _ rfl rfl Nat.one_pos ⟨nofun, nofun⟩)
  have h3 : Lts.Reach Init Step _ := .step (.enter 1) h2 (.enter 1 0 _ rfl rfl rfl)
  exact ⟨_, h3, rfl, rfl⟩

/-- It may end, and is there for its last yield though only the call that resumed it has a
    pointer; then the destructor runs at the drop of that. Or it yields, and the call that
    resumed it drops its pointer: nothing happens to it any more. -/
theorem fiber_lifetime_oneFiber :
    (∃ s, s.running 1 = some 0 ∧ s.obj 0 = some ⟨.TERM, .left, 0, 0⟩ ∧ (s.obj 0).isSome ∧
      ∃ s' s'', Step s (.leave 1) s' ∧ Step s' (.drop 0) s'') ∧
    ∃ s, s.obj 0 = some ⟨.READY, .inside, 1, 0⟩ ∧
      ∀ s', Lts.Reach (· = s) Step s' → s'.obj 0 = some ⟨.READY, .inside, 1, 0⟩ ∧ ¬s'.Held 0 := by
  obtain ⟨s, hr, hrun, hobj⟩ := entered_run
  constructor
  · have h1 : Lts.Reach Init Step (s.put 0 ⟨.TERM, .left, 0, 0⟩) :=
      .step (.finish 1) hr (.finish 1 0 _ hrun hobj rfl rfl)
    have hleave : Step (s.put 0 ⟨.TERM, .left, 0, 0⟩) (.leave 1)
        (((s.put 0 ⟨.TERM, .left, 0, 0⟩).put 0 ⟨.TERM, .left, 0, 1⟩).setRunning 1 none) :=
      .leave 1 0 ⟨.TERM, .left, 0, 0⟩ hrun (put_self s 0 ⟨.TERM, .left, 0, 0⟩) rfl
    obtain ⟨-, -, hlast, -⟩ := fiber_lifetime (.step _ h1 hleave)
    obtain ⟨s'', hdrop⟩ := (hlast 0 ⟨.TERM, .left, 0, 1⟩ (put_self (s.put 0 ⟨.TERM, .left, 0, 0⟩) 0 _)
      ⟨rfl, rfl, (reach_inv h1).freed hrun _⟩).mpr nofun
    exact ⟨s.put 0 _, hrun, put_self s 0 _, (fiber_lifetime h1).1 1 0 hrun, _, s'', hleave, hdrop⟩
  · have h1 : Lts.Reach Init Step ((s.put 0 ⟨.READY, .inside, 1, 1⟩).setRunning 1 none) :=
      .step (.yield 1) hr (.yield 1 0 _ hrun hobj rfl)
    have hdrop : Step ((s.put 0 ⟨.READY, .inside, 1, 1⟩).setRunning 1 none) (.drop 0)
        (((s.put 0 ⟨.READY, .inside, 1, 1⟩).setRunning 1 none).put 0 ⟨.READY, .inside, 1, 0⟩) :=
      .drop 0 ⟨.READY, .inside, 1, 1⟩ (put_self s 0 _) Nat.one_pos fun hl => absurd hl.2.1 Nat.one_ne_zero
    have h2 : Lts.Reach Init Step _ := .step _ h1 hdrop
    obtain ⟨-, -, -, halone⟩ := fiber_lifetime h2
    exact ⟨_, rfl, (halone 0 ⟨.READY, .inside, 1, 0⟩ rfl rfl ((reach_inv hr).freed hrun _)).2⟩

end Sylar.Lifetime
