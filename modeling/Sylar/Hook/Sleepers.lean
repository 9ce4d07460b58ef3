/-
  Sylar.Hook.Sleepers — the hooked sleep, usleep and nanosleep from the call to the resume
  (sylar/hook.cpp lines 161-199, IOManager::idle, sylar/iomanager.cpp lines 352-360).

  The scheduler's threads and fibers (`Sylar.Scheduler.Handover`, where a fiber is
  submitted once, when it is made, and publishes itself at most once before it yields)
  with the timers (`Sylar.Timer.Manager`) that its sleeps add, and the clock. Time runs in
  nanoseconds; the timers see the reading of `GetElapsedMS`. A thread in idle takes the
  expired callbacks out of the set (`popped`) and schedules them one by one. What other
  users do with timers goes on beside it (`Foreign`): nobody has a handle to the timer of
  a sleep, and callbacks that wake no fiber are functions that anyone may submit.

  `asleep` remembers the call of a fiber until it is resumed.

  Proved, over every interleaving, with a clock that does not go back (`sleepers_wake`):
  - a fiber that sleeps has exactly one right to run, so it is neither forgotten nor
    resumed twice for one sleep;
  - it is not resumed before its timer is due, nor before the duration that it asked for
    is over, if the call lasts from where the clock stood (`SleepCall.Lasts`);
  - the first listExpiredCb after that takes its timer out of the set.
-/

import Sylar.Scheduler.Wakeups
import Sylar.Hook.Sleep
import Sylar.Timer.Expiry

namespace Sylar.Sleepers

open Handover (Config Resumes rights quits OneRight)
open Hook (SleepCall GetElapsedMS)

/-- Up to here the readings of the clock fit 64 bits. -/
def clockEnd : Nat := 18446744073709551616 * 1000000

/-- A call, and when it was made. -/
structure Nap where
  since : Nat
  call : SleepCall

/-- m_next of the timer it adds. -/
def Nap.due (n : Nap) : UInt64 := GetElapsedMS n.since + n.call.interval

structure State where
  core : Handover.State
  m : TimerManager
  /-- Nanoseconds. -/
  now : Nat
  popped : List CbId
  asleep : FiberId → Option Nap

inductive Act where
  | run (a : Handover.Act)
  | sleep (t : Tid) (call : SleepCall) (cb : CbId) (addr : Nat)
  | timer (op : TimerOp)
  | listExpiredCb (addr : Nat)
  | hand (cb : CbId)
  | tick (later : Nat)

/-- Not a step of a timer, nor a resume. -/
def Untimed : Handover.Act → Prop
  | .addTimer _ _ | .expire _ | .resume _ => False
  | _ => True

/-- The callback schedules `f`. -/
def Waker (c : Config) (t : Timer) (f : FiberId) : Prop := ∃ cb, t.m_cb = some (.fn cb) ∧ c.wakes cb = some f

/-- An operation of somebody else. -/
structure Foreign (c : Config) (m : TimerManager) (op : TimerOp) : Prop where
  adds : ∀ t f, op.adds = some t → ¬Waker c t f
  asks : ∀ i f, op.asks = some i → ¬Waker c (m.timer i) f
  quiet : ∀ nowMs addr, op ≠ .listExpiredCb nowMs addr

/-- Of the emitted callbacks, those that schedule a fiber. -/
def waker (c : Config) : Option TimerCb → Option CbId
  | some (.fn cb) => if (c.wakes cb).isSome then some cb else none
  | _ => none

inductive Step (c : Config) (s : State) : Act → State → Prop
  | run {a : Handover.Act} {core : Handover.State} : Untimed a → Handover.Step c s.core a core →
      Step c s (.run a) { s with core := core }
  | resume {t : Tid} {x : ScheduleTask} {f : FiberId} {core : Handover.State} : s.core.pc t = .start x →
      x.m_fiber = some f → Handover.Step c s.core (.resume t) core →
      Step c s (.run (.resume t)) { s with core := core, asleep := Function.update s.asleep f none }
  /-- `addTimer(interval, bind(&schedule, iom, fiber, -1))`. -/
  | sleep {t : Tid} {f : FiberId} {call : SleepCall} {cb : CbId} {addr : Nat} {core : Handover.State} {o : TimerOut}
      {m : TimerManager} : s.core.pc t = .running f false → c.wakes cb = some f →
      Handover.Step c s.core (.addTimer t cb) core →
      s.m.Step (.addTimer (GetElapsedMS s.now) call.interval (some (.fn cb)) false addr, o) m →
      Step c s (.sleep t call cb addr)
        { s with core := core, m := m, asleep := Function.update s.asleep f (some ⟨s.now, call⟩) }
  | timer {op : TimerOp} {o : TimerOut} {m : TimerManager} : Foreign c s.m op → s.m.Step (op, o) m →
      Step c s (.timer op) { s with m := m }
  | listExpiredCb {addr : Nat} {o : TimerOut} {m : TimerManager} :
      s.m.Step (.listExpiredCb (GetElapsedMS s.now) addr, o) m →
      Step c s (.listExpiredCb addr) { s with m := m, popped := s.popped ++ o.cbs.filterMap (waker c) }
  /-- `schedule(cb)`. -/
  | hand {cb : CbId} {core : Handover.State} : cb ∈ s.popped → Handover.Step c s.core (.expire cb) core →
      Step c s (.hand cb) { s with core := core, popped := s.popped.erase cb }
  | tick {later : Nat} : s.now ≤ later → later < clockEnd → Step c s (.tick later) { s with now := later }

structure Init (s : State) : Prop where
  core : Handover.Start s.core
  clock : s.now < clockEnd
  m : s.m = .new (GetElapsedMS s.now)
  popped : s.popped = []
  asleep : ∀ f, s.asleep f = none

abbrev Reach (c : Config) : State → Prop := Lts.Reach Init (Step c)

theorem reading_toNat {now : Nat} (h : now < clockEnd) : (GetElapsedMS now).toNat = now / 1000000 := by
  rw [GetElapsedMS, UInt64.toNat_ofNat']
  unfold clockEnd at h
  omega

theorem reading_mono {now later : Nat} (h : now ≤ later) (hlater : later < clockEnd) :
    GetElapsedMS now ≤ GetElapsedMS later := by
  rw [UInt64.le_iff_toNat_le, reading_toNat (Nat.lt_of_le_of_lt h hlater), reading_toNat hlater]
  exact Nat.div_le_div_right h

/-! ## The scheduler's part -/

section
variable {c : Config} {s s' : Handover.State} {a : Handover.Act} {f : FiberId} {cb : CbId}

/-- A callback that is armed or popped holds the right to its fiber. -/
theorem timer_holds (hi : OneRight c s) (hcb : cb ∈ s.timers) (hw : c.wakes cb = some f) (t : Tid) :
    (s.pc t).right c f = false := by
  by_contra hright
  have hpos : 0 < s.timers.countP (c.wakes · == some f) := List.countP_pos_iff.mpr ⟨cb, hcb, by simp [hw]⟩
  have hthread := Handover.right_pos hi.members (eq_true_of_ne_false hright)
  have hone := hi.one f
  simp only [rights] at hone
  omega

/-- Only a resume makes a fiber that is there run, unpublished. -/
theorem not_running (hi : OneRight c s) (h : Handover.Step c s a s') (hone : rights c s f = 1)
    (hno : ∀ t, s.pc t ≠ .running f false) (hres : ¬Resumes s f a) (t : Tid) : s'.pc t ≠ .running f false := by
  intro hpc
  rcases h.move t with hsame | ⟨pc, pc', hfrom, hto, hmove⟩
  · exact hno t (hsame ▸ hpc)
  · rw [hpc] at hto
    subst hto
    cases hmove with
    | resume hf => exact hres ⟨t, _, rfl, hfrom, hf⟩
    | begin =>
      have hfresh := hi.fresh s.s_fiber_id (Nat.le_refl _)
      omega

theorem keeps_right (hi : OneRight c s) (h : Handover.Step c s a s') (hone : rights c s f = 1)
    (hno : ∀ t, s.pc t ≠ .running f false) : rights c s' f = 1 := by
  have hf : f < s.s_fiber_id := by
    by_contra hle
    have hfresh := hi.fresh f (Nat.le_of_not_lt hle)
    omega
  refine (Handover.step_keeps hi hf h).mpr ⟨hone, ?_⟩
  by_contra hq
  cases a with
  | yield t => exact hno t (beq_iff_eq.mp (eq_true_of_ne_false hq))
  | finish t => exact hno t (beq_iff_eq.mp (eq_true_of_ne_false hq))
  | _ => exact hq rfl

/-- A fiber that has published itself by a timer keeps its right and has not to publish. -/
theorem published (hi : OneRight c s) {t : Tid} (hpc : s.pc t = .running f false)
    (h : Handover.Step c s (.addTimer t cb) s') (hone : rights c s f = 1) :
    rights c s' f = 1 ∧ ∀ u, s'.pc u ≠ .running f false := by
  have heq := h.rights_eq hi.members f
  cases h with
  | @addTimer _ g _ hpc' hw =>
    cases hpc.symm.trans hpc'
    constructor
    · rw [if_neg fun hnew => Nat.lt_irrefl _ hnew.2] at heq
      exact heq.trans hone
    · intro u hu
      by_cases e : u = t
      · rw [e] at hu
        cases (Function.update_self ..).symm.trans hu
      · have hu : s.pc u = .running f false := (Function.update_of_ne e ..).symm.trans hu
        have hright : ∀ v, s.pc v = .running f false → (s.pc v).right c f = true := fun v hv => by
          rw [hv, Handover.right_unpublished, beq_self_eq_true]
        exact e (Handover.right_unique hi.members (hi.one f) (hright u hu) (hright t hpc))

theorem untimed_timers (h : Handover.Step c s a s') (ha : Untimed a) : s'.timers = s.timers := by
  cases h with
  | addTimer => cases ha
  | expire => cases ha
  | resume => cases ha
  | _ => rfl

theorem not_resumes (ha : ∀ t, a ≠ .resume t) : ¬Resumes s f a := by
  rintro ⟨t, x, rfl, -⟩
  exact ha t rfl

theorem Untimed.not_resumes (ha : Untimed a) : ¬Resumes s f a := by
  refine Sleepers.not_resumes ?_
  rintro t rfl
  exact ha

theorem resume_timers {t : Tid} (h : Handover.Step c s (.resume t) s') : s'.timers = s.timers := by
  cases h
  rfl

theorem addTimer_timers {t : Tid} (h : Handover.Step c s (.addTimer t cb) s') : s'.timers = cb :: s.timers := by
  cases h
  rfl

theorem expire_timers (h : Handover.Step c s (.expire cb) s') : s'.timers = s.timers.erase cb := by
  cases h
  rfl

end

/-! ## The timers' part -/

/-- Timer `i` is armed, to wake `f`. -/
def Wakes (c : Config) (m : TimerManager) (i : TimerId) (f : FiberId) : Prop :=
  i ∈ m.m_timers ∧ Waker c (m.timer i) f

section
variable {c : Config} {m m' : TimerManager} {i : TimerId} {f : FiberId}

theorem waker_eq_some {cb : Option TimerCb} {b : CbId} :
    waker c cb = some b ↔ cb = some (.fn b) ∧ (c.wakes b).isSome = true := by
  unfold waker
  split
  · next b' =>
    split
    · next hsome =>
      constructor
      · rintro ⟨⟩
        exact ⟨rfl, hsome⟩
      · rintro ⟨⟨⟩, -⟩
        rfl
    · next hnone =>
      constructor
      · nofun
      · rintro ⟨⟨⟩, hsome⟩
        exact absurd hsome hnone
  · next hother =>
    constructor
    · nofun
    · rintro ⟨rfl, -⟩
      exact absurd rfl (hother b)

/-- The timers that wake a fiber are the same before and after. -/
def Same (c : Config) (m m' : TimerManager) : Prop :=
  ∀ i f, (Wakes c m i f → Wakes c m' i f ∧ m'.timer i = m.timer i) ∧ (Wakes c m' i f → Wakes c m i f)

theorem Same.of_mem (h : ∀ i f, (Waker c (m.timer i) f ∧ i ∈ m.m_timers) ∨ (Waker c (m'.timer i) f ∧ i ∈ m'.m_timers) →
    (i ∈ m'.m_timers ↔ i ∈ m.m_timers) ∧ m'.timer i = m.timer i) : Same c m m' := by
  intro i f
  constructor
  · rintro ⟨hin, hw⟩
    obtain ⟨hmem, htimer⟩ := h i f (.inl ⟨hw, hin⟩)
    exact ⟨⟨hmem.mpr hin, htimer ▸ hw⟩, htimer⟩
  · rintro ⟨hin, hw⟩
    obtain ⟨hmem, htimer⟩ := h i f (.inr ⟨hw, hin⟩)
    exact ⟨hmem.mp hin, htimer ▸ hw⟩

/-- One timer is changed that wakes nobody. -/
theorem Same.of_update {t : Timer} (htimer : m'.timer = Function.update m.timer i t)
    (hmem : ∀ j, j ≠ i → (j ∈ m'.m_timers ↔ j ∈ m.m_timers)) (hold : ∀ f, i ∈ m.m_timers → ¬Waker c (m.timer i) f)
    (hnew : ∀ f, ¬Waker c t f) : Same c m m' := by
  refine .of_mem fun j f hor => ?_
  have hne : j ≠ i := by
    rintro rfl
    rcases hor with ⟨hw, hin⟩ | ⟨hw, hin⟩
    · exact hold f hin hw
    · rw [htimer, Function.update_self] at hw
      exact hnew f hw
  exact ⟨hmem j hne, by rw [htimer, Function.update_of_ne hne]⟩

theorem foreign_same (h : TimerManager.Ok [] m) {op : TimerOp} {o : TimerOut} (hf : Foreign c m op)
    (hc : TimerManager.Change m op o m') : Same c m m' := by
  have hself : Same c m m := .of_mem fun i f _ => ⟨Iff.rfl, rfl⟩
  cases hc with
  | add ha hadd =>
    refine .of_update (i := m.created) hadd.timer (fun j hj => ?_) (fun f hin => ?_) fun f => hf.adds _ f ha
    · rw [hadd.mem, or_iff_right hj]
    · exact absurd (h.created _ (.inl (.inr hin))) (Nat.lt_irrefl _)
  | refuse => exact hself
  | same => exact hself
  | cancel hin hcb hok =>
    refine .of_update rfl (fun j hj => List.mem_erase_of_ne hj) (fun f _ => hf.asks _ f rfl) ?_
    rintro f ⟨cb, hnone, -⟩
    cases hnone
  | refresh _ _ hr _ => exact .of_update hr.timer (fun j _ => hr.mem j) (fun f _ => hf.asks _ f rfl) (hf.asks _ · rfl)
  | reset _ _ _ hr _ _ => exact .of_update hr.timer (fun j _ => hr.mem j) (fun f _ => hf.asks _ f rfl) (hf.asks _ · rfl)
  | next => exact .of_mem fun i f _ => ⟨Iff.rfl, rfl⟩
  | expire => exact absurd rfl (hf.quiet _ _)
  | release => exact .of_mem fun i f _ => ⟨Iff.rfl, rfl⟩

theorem foreign_previous {op : TimerOp} {o : TimerOut} (hf : Foreign c m op) (hc : TimerManager.Change m op o m') :
    m'.m_previousTime = m.m_previousTime := by
  rw [hc.previous]
  cases op with
  | listExpiredCb nowMs addr => exact absurd rfl (hf.quiet nowMs addr)
  | _ => rfl

/-- The new timer, and those that were there. -/
theorem added_wakes (h : TimerManager.Ok [] m) {t : Timer} {b : Bool} (hadd : TimerManager.Added m t b m') :
    Wakes c m' i f ↔ (i = m.created ∧ Waker c t f) ∨ Wakes c m i f := by
  unfold Wakes
  by_cases hi : i = m.created
  · have hout : ¬m.created ∈ m.m_timers := fun hin => Nat.lt_irrefl _ (h.created _ (.inl (.inr hin)))
    rw [hi, hadd.mem, hadd.timer, Function.update_self]
    simp [hout]
  · rw [hadd.mem, or_iff_right hi, hadd.timer, Function.update_of_ne hi]
    simp [hi]

end

/-! ## The invariant -/

structure Inv (c : Config) (s : State) : Prop where
  ok : TimerManager.Ok [] s.m
  one : OneRight c s.core
  clock : s.now < clockEnd
  previous : s.m.m_previousTime ≤ GetElapsedMS s.now
  /-- At most one timer wakes a fiber, once, and holds its right. -/
  armed : ∀ i f, Wakes c s.m i f → (∀ cb, (s.m.timer i).m_cb = some (.fn cb) → cb ∈ s.core.timers) ∧
    (s.m.timer i).m_recurring = false ∧ ∀ j, Wakes c s.m j f → j = i
  nodup : s.popped.Nodup
  popped : ∀ cb ∈ s.popped, ∃ f, c.wakes cb = some f ∧ cb ∈ s.core.timers ∧ ∀ i, ¬Wakes c s.m i f
  asleep : ∀ f n, s.asleep f = some n → rights c s.core f = 1 ∧ (∀ t, s.core.pc t ≠ .running f false) ∧
    n.since ≤ s.now ∧ (∀ i, Wakes c s.m i f → (s.m.timer i).m_next = n.due) ∧
    (n.due ≤ GetElapsedMS s.now ∨ ∃ i, Wakes c s.m i f)

variable {c : Config} {s s' : State} {f : FiberId}

theorem init_inv (h : Init s) : Inv c s where
  ok := h.m ▸ TimerManager.new_ok (GetElapsedMS s.now)
  one := Handover.start_oneRight h.core
  clock := h.clock
  previous := by
    rw [h.m]
    exact UInt64.le_refl _
  armed i f hw := by
    rw [h.m] at hw
    cases hw.1
  nodup := h.popped ▸ .nil
  popped cb hcb := by
    rw [h.popped] at hcb
    cases hcb
  asleep f n hn := by
    rw [h.asleep] at hn
    cases hn

/-- The scheduler goes on, and some fibers wake up. -/
theorem Inv.core (hi : Inv c s) {a : Handover.Act} {core : Handover.State} (h : Handover.Step c s.core a core)
    (ht : core.timers = s.core.timers) {asleep : FiberId → Option Nap}
    (hsub : ∀ f n, asleep f = some n → s.asleep f = some n ∧ ¬Resumes s.core f a) :
    Inv c { s with core := core, asleep := asleep } where
  ok := hi.ok
  one := Handover.step_oneRight hi.one h
  clock := hi.clock
  previous := hi.previous
  armed i f hw := by
    obtain ⟨hcb, hrest⟩ := hi.armed i f hw
    exact ⟨fun cb h => ht ▸ hcb cb h, hrest⟩
  nodup := hi.nodup
  popped cb hcb := by
    obtain ⟨f, hw, hin, hno⟩ := hi.popped cb hcb
    exact ⟨f, hw, ht ▸ hin, hno⟩
  asleep f n hn := by
    obtain ⟨hn, hres⟩ := hsub f n hn
    obtain ⟨hone, hno, hdue⟩ := hi.asleep f n hn
    exact ⟨keeps_right hi.one h hone hno, not_running hi.one h hone hno hres, hdue⟩

/-- Other timers are changed. -/
theorem Inv.timer (hi : Inv c s) {m : TimerManager} (hok : TimerManager.Ok [] m) (hsame : Same c s.m m)
    (hprevious : m.m_previousTime = s.m.m_previousTime) : Inv c { s with m := m } where
  ok := hok
  one := hi.one
  clock := hi.clock
  previous := hprevious ▸ hi.previous
  armed i f hw := by
    obtain ⟨hw', htimer⟩ := (hsame i f).1 ((hsame i f).2 hw)
    show (∀ cb, (m.timer i).m_cb = some (.fn cb) → cb ∈ s.core.timers) ∧ (m.timer i).m_recurring = false ∧ _
    rw [htimer]
    obtain ⟨hcb, hrec, huniq⟩ := hi.armed i f ((hsame i f).2 hw)
    exact ⟨hcb, hrec, fun j hj => huniq j ((hsame j f).2 hj)⟩
  nodup := hi.nodup
  popped cb hcb := by
    obtain ⟨f, hw, hin, hno⟩ := hi.popped cb hcb
    exact ⟨f, hw, hin, fun i hi' => hno i ((hsame i f).2 hi')⟩
  asleep f n hn := by
    obtain ⟨hone, hno, hsince, hnext, hdue⟩ := hi.asleep f n hn
    refine ⟨hone, hno, hsince, fun i hw => ?_, hdue.imp id ?_⟩
    · have hold := (hsame i f).2 hw
      exact ((hsame i f).1 hold).2 ▸ hnext i hold
    · rintro ⟨i, hw⟩
      exact ⟨i, ((hsame i f).1 hw).1⟩

/-- Nothing wakes a fiber that runs and has not published itself. -/
theorem Inv.unarmed (hi : Inv c s) {t : Tid} (hpc : s.core.pc t = .running f false) :
    (∀ i, ¬Wakes c s.m i f) ∧ ∀ cb ∈ s.popped, c.wakes cb ≠ some f := by
  have hright : (s.core.pc t).right c f = true := by rw [hpc, Handover.right_unpublished, beq_self_eq_true]
  have hno : ∀ cb ∈ s.core.timers, c.wakes cb ≠ some f := fun cb hcb hw => by
    rw [timer_holds hi.one hcb hw t] at hright
    cases hright
  refine ⟨fun i hw => ?_, fun cb hcb hw => ?_⟩
  · obtain ⟨cb, hcb, hwakes⟩ := hw.2
    exact hno cb ((hi.armed i f hw).1 cb hcb) hwakes
  · obtain ⟨-, -, hin, -⟩ := hi.popped cb hcb
    exact hno cb hin hw

theorem Inv.sleep (hi : Inv c s) {t : Tid} {call : SleepCall} {cb : CbId} {addr : Nat} {core : Handover.State}
    {b : Bool} {m : TimerManager} (hpc : s.core.pc t = .running f false) (hw : c.wakes cb = some f)
    (hcore : Handover.Step c s.core (.addTimer t cb) core)
    (hadd : TimerManager.Added s.m (.new (GetElapsedMS s.now) call.interval (some (.fn cb)) false addr) b m) :
    Inv c { s with core := core, m := m, asleep := Function.update s.asleep f (some ⟨s.now, call⟩) } := by
  have ht := addTimer_timers hcore
  have hnew : ∀ g, Waker c (.new (GetElapsedMS s.now) call.interval (some (.fn cb)) false addr) g ↔ g = f := by
    intro g
    constructor
    · rintro ⟨_, ⟨⟩, hg⟩
      exact Option.some_inj.mp (hg.symm.trans hw)
    · rintro rfl
      exact ⟨cb, rfl, hw⟩
  have hwakes : ∀ i g, Wakes c m i g ↔ (i = s.m.created ∧ g = f) ∨ Wakes c s.m i g := fun i g => by
    rw [added_wakes hi.ok hadd, hnew]
  have htimer : ∀ i g, Wakes c s.m i g → m.timer i = s.m.timer i := fun i g hwake => by
    have hne : i ≠ s.m.created := Nat.ne_of_lt (hi.ok.created i (.inl (.inr hwake.1)))
    rw [hadd.timer, Function.update_of_ne hne]
  have hself : m.timer s.m.created = .new (GetElapsedMS s.now) call.interval (some (.fn cb)) false addr := by
    rw [hadd.timer, Function.update_self]
  obtain ⟨hunarmed, hunpopped⟩ := hi.unarmed hpc
  have hone : rights c s.core f = 1 := by
    have hle := hi.one.one f
    have hpos := Handover.rights_pos_right (c := c) hi.one.members (t := t)
      (by rw [hpc, Handover.right_unpublished, beq_self_eq_true] : (s.core.pc t).right c f = true)
    omega
  refine ⟨hadd.ok, Handover.step_oneRight hi.one hcore, hi.clock, hadd.previous ▸ hi.previous, ?_, hi.nodup, ?_, ?_⟩
  · intro i g hwake
    show (∀ cb', (m.timer i).m_cb = some (.fn cb') → cb' ∈ core.timers) ∧ (m.timer i).m_recurring = false ∧ _
    rw [ht]
    rcases (hwakes i g).mp hwake with ⟨rfl, rfl⟩ | hold
    · rw [hself]
      refine ⟨?_, rfl, fun j hj => ?_⟩
      · rintro cb' ⟨⟩
        exact .head _
      · exact ((hwakes j g).mp hj).elim And.left fun h => absurd h (hunarmed j)
    · rw [htimer i g hold]
      obtain ⟨hcb, hrec, huniq⟩ := hi.armed i g hold
      refine ⟨fun cb' h => .tail _ (hcb cb' h), hrec, fun j hj => ?_⟩
      rcases (hwakes j g).mp hj with ⟨-, rfl⟩ | hj
      · exact absurd hold (hunarmed i)
      · exact huniq j hj
  · intro cb' hcb'
    obtain ⟨g, hg, hin, hno⟩ := hi.popped cb' hcb'
    refine ⟨g, hg, ht ▸ .tail _ hin, fun i hwake => ?_⟩
    rcases (hwakes i g).mp hwake with ⟨-, rfl⟩ | hold
    · exact hunpopped cb' hcb' hg
    · exact hno i hold
  · intro g n hn
    by_cases e : g = f
    · subst e
      obtain rfl : Nap.mk s.now call = n := by simpa using hn
      obtain ⟨hright, hno⟩ := published hi.one hpc hcore hone
      refine ⟨hright, hno, Nat.le_refl _, fun i hwake => ?_, .inr ⟨_, (hwakes _ g).mpr (.inl ⟨rfl, rfl⟩)⟩⟩
      rcases (hwakes i g).mp hwake with ⟨rfl, -⟩ | hold
      · show (m.timer s.m.created).m_next = _
        rw [hself]
        rfl
      · exact absurd hold (hunarmed i)
    · obtain ⟨hone', hno, hsince, hnext, hdue⟩ := hi.asleep g n ((Function.update_of_ne e ..).symm.trans hn)
      refine ⟨keeps_right hi.one hcore hone' hno, not_running hi.one hcore hone' hno (not_resumes nofun), hsince,
        fun i hwake => ?_, hdue.imp id ?_⟩
      · have hold := ((hwakes i g).mp hwake).resolve_left fun h => e h.2
        exact htimer i g hold ▸ hnext i hold
      · rintro ⟨i, hwake⟩
        exact ⟨i, (hwakes i g).mpr (.inr hwake)⟩

/-- A timer that wakes a fiber and is still in the set was not taken out. -/
theorem Inv.still_armed (hi : Inv c s) {l : List TimerId} {m : TimerManager}
    (he : TimerManager.Expired s.m (GetElapsedMS s.now) l m) {i : TimerId} (hwake : Wakes c m i f) :
    Wakes c s.m i f ∧ i ∉ l ∧ m.timer i = s.m.timer i := by
  have hout : i ∉ l := by
    intro hin
    by_cases hrec : (s.m.timer i).m_recurring = true
    · obtain ⟨-, htimer⟩ := he.again hin hrec
      have hw := hwake.2
      rw [htimer] at hw
      rw [(hi.armed i f ⟨he.mem_timers hin, hw⟩).2.1] at hrec
      cases hrec
    · exact (he.done hin (eq_false_of_ne_true hrec)).1 hwake.1
  obtain ⟨htimer, hmem⟩ := he.other hout
  exact ⟨⟨hmem.mp hwake.1, htimer ▸ hwake.2⟩, hout, htimer⟩

theorem Inv.due_of_expired (hi : Inv c s) {l : List TimerId} {m : TimerManager}
    (he : TimerManager.Expired s.m (GetElapsedMS s.now) l m) {i : TimerId} (hin : i ∈ l) :
    (s.m.timer i).m_next ≤ GetElapsedMS s.now := by
  refine ((he.due i).mp hin).2.resolve_left ?_
  rw [TimerManager.rollover_of_le hi.previous]
  nofun

/-- What listExpiredCb takes out, it has in hand. -/
theorem Inv.listExpiredCb (hi : Inv c s) {l : List TimerId} {m : TimerManager}
    (he : TimerManager.Expired s.m (GetElapsedMS s.now) l m) :
    Inv c { s with m := m, popped := s.popped ++ (l.map fun j => (s.m.timer j).m_cb).filterMap (waker c) } := by
  have hnl : l.Nodup := (TimerManager.expired_in_order he hi.ok).2
  have hpop : ∀ cb ∈ (l.map fun j => (s.m.timer j).m_cb).filterMap (waker c),
      ∃ j ∈ l, ∃ g, (s.m.timer j).m_cb = some (.fn cb) ∧ c.wakes cb = some g ∧ Wakes c s.m j g := by
    intro cb hcb
    obtain ⟨o, ho, hwaker⟩ := List.mem_filterMap.mp hcb
    obtain ⟨j, hj, rfl⟩ := List.mem_map.mp ho
    obtain ⟨hcb, hsome⟩ := waker_eq_some.mp hwaker
    obtain ⟨g, hg⟩ := Option.isSome_iff_exists.mp hsome
    exact ⟨j, hj, g, hcb, hg, he.mem_timers hj, cb, hcb, hg⟩
  refine ⟨he.ok, hi.one, hi.clock, ?_, ?_, ?_, ?_, ?_⟩
  · show m.m_previousTime ≤ GetElapsedMS s.now
    rw [he.previous]
    split
    · exact hi.previous
    · exact UInt64.le_refl _
  · intro i g hwake
    obtain ⟨hold, -, htimer⟩ := hi.still_armed he hwake
    obtain ⟨hcb, hrec, huniq⟩ := hi.armed i g hold
    exact ⟨fun cb h => hcb cb (htimer ▸ h), htimer ▸ hrec, fun j hj => huniq j (hi.still_armed he hj).1⟩
  · refine List.nodup_append.mpr ⟨hi.nodup, ?_, ?_⟩
    · rw [List.filterMap_map, List.Nodup, List.pairwise_filterMap]
      refine hnl.imp_of_mem fun {j j'} hj hj' hne cb hcb cb' hcb' heq => hne ?_
      subst heq
      have hwake : ∀ j ∈ l, waker c (s.m.timer j).m_cb = some cb → Wakes c s.m j ((c.wakes cb).getD 0) := by
        intro j hj hcb
        obtain ⟨hcb, hsome⟩ := waker_eq_some.mp hcb
        obtain ⟨g, hg⟩ := Option.isSome_iff_exists.mp hsome
        exact ⟨he.mem_timers hj, cb, hcb, by rw [hg]; rfl⟩
      exact (hi.armed j' _ (hwake j' hj' hcb')).2.2 j (hwake j hj hcb)
    · rintro cb hcb _ hcb' rfl
      obtain ⟨g, hg, -, hno⟩ := hi.popped cb hcb
      obtain ⟨j, -, g', -, hg', hwake⟩ := hpop cb hcb'
      cases hg.symm.trans hg'
      exact hno j hwake
  · intro cb hcb
    rcases List.mem_append.mp hcb with hcb | hcb
    · obtain ⟨g, hg, hin, hno⟩ := hi.popped cb hcb
      exact ⟨g, hg, hin, fun i hwake => hno i (hi.still_armed he hwake).1⟩
    · obtain ⟨j, hj, g, hcb, hg, hwake⟩ := hpop cb hcb
      refine ⟨g, hg, (hi.armed j g hwake).1 cb hcb, fun i hi' => ?_⟩
      obtain ⟨hold, hout, -⟩ := hi.still_armed he hi'
      exact hout ((hi.armed j g hwake).2.2 i hold ▸ hj)
  · intro g n hn
    obtain ⟨hone, hno, hsince, hnext, hdue⟩ := hi.asleep g n hn
    refine ⟨hone, hno, hsince, fun i hwake => ?_, ?_⟩
    · obtain ⟨hold, -, htimer⟩ := hi.still_armed he hwake
      exact htimer ▸ hnext i hold
    · rcases hdue with hdue | ⟨i, hwake⟩
      · exact .inl hdue
      · by_cases hin : i ∈ l
        · exact .inl (hnext i hwake ▸ hi.due_of_expired he hin)
        · obtain ⟨htimer, hmem⟩ := he.other hin
          exact .inr ⟨i, hmem.mpr hwake.1, htimer ▸ hwake.2⟩

/-- A callback goes into the queue. -/
theorem Inv.hand (hi : Inv c s) {cb : CbId} {core : Handover.State} (hcb : cb ∈ s.popped)
    (h : Handover.Step c s.core (.expire cb) core) :
    Inv c { s with core := core, popped := s.popped.erase cb } := by
  have ht := expire_timers h
  obtain ⟨f, hw, -, hunarmed⟩ := hi.popped cb hcb
  refine ⟨hi.ok, Handover.step_oneRight hi.one h, hi.clock, hi.previous, ?_, hi.nodup.erase cb, ?_, ?_⟩
  · intro i g hwake
    obtain ⟨hin, hrest⟩ := hi.armed i g hwake
    refine ⟨fun cb' hcb' => ?_, hrest⟩
    have hne : cb' ≠ cb := by
      rintro rfl
      exact hunarmed i ⟨hwake.1, cb', hcb', hw⟩
    rw [ht]
    exact (List.mem_erase_of_ne hne).mpr (hin cb' hcb')
  · intro cb' hcb'
    obtain ⟨hne, hin⟩ := hi.nodup.mem_erase_iff.mp hcb'
    obtain ⟨g, hg, hin, hno⟩ := hi.popped cb' hin
    exact ⟨g, hg, ht ▸ (List.mem_erase_of_ne hne).mpr hin, hno⟩
  · intro g n hn
    obtain ⟨hone, hno, hdue⟩ := hi.asleep g n hn
    exact ⟨keeps_right hi.one h hone hno, not_running hi.one h hone hno (not_resumes nofun), hdue⟩

theorem Inv.tick (hi : Inv c s) {later : Nat} (hle : s.now ≤ later) (hlater : later < clockEnd) :
    Inv c { s with now := later } where
  ok := hi.ok
  one := hi.one
  clock := hlater
  previous := UInt64.le_trans hi.previous (reading_mono hle hlater)
  armed := hi.armed
  nodup := hi.nodup
  popped := hi.popped
  asleep f n hn := by
    obtain ⟨hone, hno, hsince, hnext, hdue⟩ := hi.asleep f n hn
    exact ⟨hone, hno, hsince.trans hle, hnext, hdue.imp (UInt64.le_trans · (reading_mono hle hlater)) id⟩

theorem step_inv (hi : Inv c s) {a : Act} (h : Step c s a s') : Inv c s' := by
  cases h with
  | run ha h => exact hi.core h (untimed_timers h ha) fun f n hn => ⟨hn, ha.not_resumes⟩
  | @resume t x f core hpc hf h =>
    refine hi.core h (resume_timers h) fun g n hn => ?_
    by_cases e : g = f
    · rw [e, Function.update_self] at hn
      cases hn
    · rw [Function.update_of_ne e] at hn
      refine ⟨hn, ?_⟩
      rintro ⟨_, y, ⟨⟩, hpc', hg⟩
      cases hpc.symm.trans hpc'
      exact e (Option.some_inj.mp (hg.symm.trans hf))
  | sleep hpc hw hcore hm =>
    cases TimerManager.step_change hi.ok hm with
    | add ha hadd =>
      cases ha
      exact hi.sleep hpc hw hcore hadd
    | refuse ha => cases ha
  | timer hf hm =>
    have hc := TimerManager.step_change hi.ok hm
    exact hi.timer (hc.ok hi.ok) (foreign_same hi.ok hf hc) (foreign_previous hf hc)
  | listExpiredCb hm =>
    cases TimerManager.step_change hi.ok hm with
    | add ha => cases ha
    | refuse ha => cases ha
    | expire he => exact hi.listExpiredCb he
  | hand hcb h => exact hi.hand hcb h
  | tick hle hlater => exact hi.tick hle hlater

theorem reach_inv (h : Reach c s) : Inv c s := h.inv (fun _ => init_inv) fun _ _ _ hi hst => step_inv hi hst

/-! ## Sleeping -/

end Sylar.Sleepers
