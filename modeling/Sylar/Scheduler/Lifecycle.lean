/-
  Sylar.Scheduler.Lifecycle — t_hook_enable and t_scheduler while Schedulers and
  IOManagers come and go (sylar/scheduler.cpp lines 13-47, 49-122, sylar/hook.cpp,
  sylar/iomanager.cpp lines 96-124 and 299).

  Actors. Any threads; each may construct, start, stop and destroy schedulers, its own
  or another's, also from a task. A base Scheduler is started and stopped by its user, an
  IOManager by its constructor and destructor. The legal orders: an object is used between
  its construction and its destruction, and destroyed after a stop() that has joined its
  threads. The two assignments at the start of run() are one step, no other code of the
  thread lies between. A step whose assertion fails has no successor.

  Proved: with the hooks on, IOManager::GetThis() is a live IOManager, exactly when every
  run() entered on the thread is an IOManager's and no IOManager is destroyed that the thread
  with hooks on still has (`hook_manager_iff`). A base Scheduler's run() turns the hooks on
  without one, and the caller thread of an IOManager keeps them on after its destruction
  (`hook_without_manager`).
-/

import Sylar.Lib.Lts
import Sylar.Scheduler.Task
import Mathlib.Logic.Function.Basic

namespace Sylar.Lifecycle

abbrev SchedId := Nat

/-- An object: a Scheduler, or an IOManager when `io`. -/
structure Sched where
  io : Bool
  m_useCaller : Bool
  started : Bool := false
  m_stopping : Bool := false
  joined : Bool := false
  alive : Bool := true
  deriving DecidableEq, Repr

/-- A thread the scheduler started runs run() from its first step to its last. -/
inductive Role where
  | unborn
  | user
  | starting (sc : SchedId)
  | running (sc : SchedId)
  | exited
  deriving DecidableEq, Repr

/-- The thread executes code of the program. -/
def Role.acts : Role → Bool
  | .user | .running _ => true
  | _ => false

structure Thread where
  t_hook_enable : Bool
  t_scheduler : Option SchedId
  role : Role
  deriving DecidableEq, Repr

structure State where
  threads : Tid → Thread
  scheds : SchedId → Option Sched

namespace State

def put (s : State) (t : Tid) (x : Thread) : State := { s with threads := Function.update s.threads t x }

def set (s : State) (sc : SchedId) (x : Sched) : State := { s with scheds := Function.update s.scheds sc (some x) }

/-- `set_hook_enable(true); setThis()`. -/
def run (s : State) (t : Tid) (sc : SchedId) (role : Role) : State := s.put t ⟨true, some sc, role⟩

/-- stop() up to the start of run() in m_rootFiber. -/
def stopCaller (s : State) (t : Tid) (sc : SchedId) (x : Sched) : State :=
  (s.set sc { x with m_stopping := true }).run t sc (s.threads t).role

/-- `if (GetThis() == this) t_scheduler = nullptr`, and the object is gone. -/
def destroy (s : State) (t : Tid) (sc : SchedId) (x : Sched) : State :=
  (s.set sc { x with alive := false }).put t { s.threads t with
    t_scheduler := if (s.threads t).t_scheduler = some sc then none else (s.threads t).t_scheduler }

/-- The threads of start(). -/
def spawn (s : State) (sc : SchedId) (us : List Tid) : State :=
  { s with threads := fun u => if u ∈ us then ⟨false, none, .starting sc⟩ else s.threads u }

/-- `IOManager::GetThis()`, a dynamic_cast of t_scheduler. -/
def getThis (s : State) (t : Tid) : Option SchedId :=
  (s.threads t).t_scheduler.filter fun sc => (s.scheds sc).any (·.io)

end State

inductive Act where
  | construct (t : Tid) (sc : SchedId)
  | start (t : Tid) (sc : SchedId)
  | enter (t : Tid) (sc : SchedId)
  | leave (t : Tid) (sc : SchedId)
  | stop (t : Tid) (sc : SchedId)
  | stopCaller (t : Tid) (sc : SchedId)
  | joined (t : Tid) (sc : SchedId)
  | destroy (t : Tid) (sc : SchedId)
  deriving DecidableEq, Repr

inductive Step (s : State) : Act → State → Prop
  | construct (t : Tid) (sc : SchedId) (io : Bool) : (s.threads t).role.acts = true → s.scheds sc = none →
      Step s (.construct t sc) (s.set sc { io, m_useCaller := false })
  /-- use_caller, `SYLAR_ASSERT(GetThis() == nullptr)`. -/
  | constructCaller (t : Tid) (sc : SchedId) (io : Bool) : (s.threads t).role.acts = true → s.scheds sc = none →
      (s.threads t).t_scheduler = none →
      Step s (.construct t sc)
        ((s.set sc { io, m_useCaller := true }).put t { s.threads t with t_scheduler := some sc })
  | start (t : Tid) (sc : SchedId) (x : Sched) (us : List Tid) : (s.threads t).role.acts = true → s.scheds sc = some x →
      x.alive = true → x.m_stopping = false → x.started = false → (∀ u ∈ us, (s.threads u).role = .unborn) →
      Step s (.start t sc) ((s.set sc { x with started := true }).spawn sc us)
  | enter (t : Tid) (sc : SchedId) : (s.threads t).role = .starting sc → Step s (.enter t sc) (s.run t sc (.running sc))
  /-- run() returns and the thread ends, its thread-locals with it. -/
  | leave (t : Tid) (sc : SchedId) (x : Sched) : (s.threads t).role = .running sc → s.scheds sc = some x →
      x.m_stopping = true → Step s (.leave t sc) (s.put t ⟨false, none, .exited⟩)
  /-- stop(), without a m_rootFiber. -/
  | stop (t : Tid) (sc : SchedId) (x : Sched) : (s.threads t).role.acts = true → s.scheds sc = some x → x.alive = true →
      x.m_stopping = false → x.m_useCaller = false → (s.threads t).t_scheduler ≠ some sc →
      Step s (.stop t sc) (s.set sc { x with m_stopping := true })
  | stopCaller (t : Tid) (sc : SchedId) (x : Sched) : (s.threads t).role.acts = true → s.scheds sc = some x →
      x.alive = true → x.m_stopping = false → x.m_useCaller = true → (s.threads t).t_scheduler = some sc →
      Step s (.stopCaller t sc) (s.stopCaller t sc x)
  /-- stop() has joined the threads. -/
  | joined (t : Tid) (sc : SchedId) (x : Sched) : s.scheds sc = some x → x.alive = true → x.m_stopping = true →
      (∀ u, (s.threads u).role ≠ .starting sc ∧ (s.threads u).role ≠ .running sc) →
      Step s (.joined t sc) (s.set sc { x with joined := true })
  | destroy (t : Tid) (sc : SchedId) (x : Sched) : (s.threads t).role.acts = true → s.scheds sc = some x →
      x.alive = true → x.joined = true → Step s (.destroy t sc) (s.destroy t sc x)

structure Init (s : State) : Prop where
  threads : ∀ t, (s.threads t) = ⟨false, none, .user⟩ ∨ (s.threads t) = ⟨false, none, .unborn⟩
  scheds : ∀ sc, s.scheds sc = none

/-- With the hooks on, IOManager::GetThis() is a live IOManager. -/
def HookSafe (s : State) (t : Tid) : Prop :=
  (s.threads t).t_hook_enable = true → ∃ sc x, s.getThis t = some sc ∧ s.scheds sc = some x ∧ x.alive = true

/-- On `t` only an IOManager's run() is entered, and the IOManager that `t` with hooks on has
    is not destroyed. -/
def Keeps (t : Tid) (s : State) : Act → Prop
  | .enter u sc | .stopCaller u sc => u = t → (s.scheds sc).any (·.io) = true
  | .destroy _ sc => ¬((s.threads t).t_hook_enable = true ∧ (s.threads t).t_scheduler = some sc)
  | _ => True

/-! ## Live managers -/

def LiveManager (scheds : SchedId → Option Sched) (sc : SchedId) : Prop :=
  ∃ x, scheds sc = some x ∧ x.io = true ∧ x.alive = true

/-- What `HookSafe` asks of a thread and the objects. -/
def Safe (x : Thread) (scheds : SchedId → Option Sched) : Prop :=
  x.t_hook_enable = true → ∃ sc, x.t_scheduler = some sc ∧ LiveManager scheds sc

variable {s s' : State} {a : Act} {t u : Tid} {sc k : SchedId}

theorem hookSafe_iff : HookSafe s t ↔ Safe (s.threads t) s.scheds := by
  unfold HookSafe Safe State.getThis LiveManager
  constructor
  · intro h hon
    obtain ⟨sc, x, hget, hx, ha⟩ := h hon
    obtain ⟨hsc, hio⟩ := Option.filter_eq_some_iff.mp hget
    rw [hx] at hio
    exact ⟨sc, hsc, x, hx, hio, ha⟩
  · intro h hon
    obtain ⟨sc, hsc, x, hx, hio, ha⟩ := h hon
    refine ⟨sc, x, Option.filter_eq_some_iff.mpr ⟨hsc, ?_⟩, hx, ha⟩
    rw [hx]
    exact hio

/-- A change to another object, or one that keeps `io` and `alive`. -/
theorem live_set {x y : Sched} (hx : s.scheds sc = some x) (hio : y.io = x.io) (ha : y.alive = x.alive) :
    LiveManager (s.set sc y).scheds k ↔ LiveManager s.scheds k := by
  unfold LiveManager
  show (∃ z, Function.update s.scheds sc (some y) k = some z ∧ _) ↔ _
  by_cases e : k = sc
  · subst e
    rw [Function.update_self, hx]
    constructor
    · intro hp
      obtain ⟨_, ⟨⟩, h1, h2⟩ := hp
      exact ⟨x, rfl, hio ▸ h1, ha ▸ h2⟩
    · intro hp
      obtain ⟨_, ⟨⟩, h1, h2⟩ := hp
      exact ⟨y, rfl, hio.trans h1, ha.trans h2⟩
  · rw [Function.update_of_ne e]

theorem live_new {y : Sched} (hx : s.scheds sc = none) (h : LiveManager s.scheds k) :
    LiveManager (s.set sc y).scheds k := by
  obtain ⟨x, hk, hlive⟩ := h
  refine ⟨x, ?_, hlive⟩
  show Function.update s.scheds sc (some y) k = some x
  rw [Function.update_of_ne, hk]
  intro heq
  subst heq
  rw [hx] at hk
  cases hk

theorem live_destroy {x : Sched} : LiveManager (s.set sc { x with alive := false }).scheds k ↔
    k ≠ sc ∧ LiveManager s.scheds k := by
  unfold LiveManager
  show (∃ z, Function.update s.scheds sc (some _) k = some z ∧ _) ↔ _
  by_cases e : k = sc
  · subst e
    rw [Function.update_self]
    simp
  · rw [Function.update_of_ne e]
    simp [e]

structure Inv (s : State) : Prop where
  /-- A thread yet to enter run() has an object that no stop() has joined. -/
  starting : ∀ u sc, (s.threads u).role = .starting sc → ∃ x, s.scheds sc = some x ∧ x.alive = true ∧ x.joined = false
  joined : ∀ sc x, s.scheds sc = some x → x.joined = true → x.m_stopping = true

theorem init_inv (h : Init s) : Inv s := by
  refine ⟨?_, ?_⟩
  · intro u sc hu
    rcases h.threads u with hx | hx
    · rw [hx] at hu
      cases hu
    · rw [hx] at hu
      cases hu
  · intro sc x hx
    rw [h.scheds] at hx
    cases hx

theorem put_inv (h : Inv s) {x : Thread} (hx : ∀ sc, x.role = .starting sc → (s.threads t).role = .starting sc) :
    Inv (s.put t x) := by
  refine ⟨?_, h.joined⟩
  refine (Function.forall_update_iff s.threads fun _ y => ∀ sc, y.role = .starting sc →
    ∃ z, s.scheds sc = some z ∧ z.alive = true ∧ z.joined = false).mpr ⟨?_, fun u _ => h.starting u⟩
  intro sc hr
  exact h.starting t sc (hx sc hr)

theorem setSched_inv (h : Inv s) {y : Sched} (hj : y.joined = true → y.m_stopping = true)
    (hy : ∀ u x, (s.threads u).role = .starting sc → s.scheds sc = some x → x.alive = true → x.joined = false →
      y.alive = true ∧ y.joined = false) : Inv (s.set sc y) := by
  refine ⟨?_, ?_⟩
  · intro u k hu
    obtain ⟨x, hx, ha, hj'⟩ := h.starting u k hu
    show ∃ x, Function.update s.scheds sc (some y) k = some x ∧ _
    by_cases e : k = sc
    · subst e
      rw [Function.update_self]
      exact ⟨y, rfl, hy u x hu hx ha hj'⟩
    · rw [Function.update_of_ne e]
      exact ⟨x, hx, ha, hj'⟩
  · refine (Function.forall_update_iff s.scheds fun _ z => ∀ x, z = some x → x.joined = true →
      x.m_stopping = true).mpr ⟨?_, fun k _ => h.joined k⟩
    intro x hx
    cases hx
    exact hj

/-- A change that leaves `alive` and `joined`. -/
theorem modify_inv (h : Inv s) {x y : Sched} (hx : s.scheds sc = some x) (ha : y.alive = x.alive)
    (hj : y.joined = x.joined) (hs : x.m_stopping = true → y.m_stopping = true) : Inv (s.set sc y) := by
  refine setSched_inv h (fun hjoined => hs (h.joined sc x hx (hj ▸ hjoined))) ?_
  intro u z _ hz hza hzj
  rw [hx] at hz
  cases hz
  exact ⟨ha.trans hza, hj.trans hzj⟩

theorem spawn_inv (h : Inv s) {x : Sched} {us : List Tid} (hx : s.scheds sc = some x) (ha : x.alive = true)
    (hj : x.joined = false) : Inv (s.spawn sc us) := by
  refine ⟨?_, h.joined⟩
  intro u k hu
  have hu : (if u ∈ us then (⟨false, none, .starting sc⟩ : Thread) else s.threads u).role = .starting k := hu
  by_cases e : u ∈ us
  · rw [if_pos e] at hu
    cases hu
    exact ⟨x, hx, ha, hj⟩
  · rw [if_neg e] at hu
    exact h.starting u k hu

theorem new_inv (h : Inv s) {y : Sched} (hnone : s.scheds sc = none) (hj : y.joined = false) : Inv (s.set sc y) := by
  refine setSched_inv h ?_ ?_
  · rw [hj]
    nofun
  · intro _ _ _ hx
    rw [hnone] at hx
    cases hx

theorem step_inv (h : Inv s) (hst : Step s a s') : Inv s' := by
  cases hst with
  | construct t sc io _ hnone => exact new_inv h hnone rfl
  | constructCaller t sc io _ hnone => exact put_inv (new_inv h hnone rfl) fun _ hr => hr
  | start t sc x us _ hx ha hs =>
    have hj : x.joined = false := by
      cases hj : x.joined with
      | false => rfl
      | true => exact absurd (h.joined sc x hx hj) (by simp [hs])
    have hset : Inv (s.set sc { x with started := true }) := modify_inv h hx rfl rfl id
    exact spawn_inv hset (Function.update_self ..) ha hj
  | enter t sc => exact put_inv h nofun
  | leave t sc => exact put_inv h nofun
  | stop t sc x _ hx => exact modify_inv (y := { x with m_stopping := true }) h hx rfl rfl fun _ => rfl
  | stopCaller t sc x _ hx =>
    have hset : Inv (s.set sc { x with m_stopping := true }) := modify_inv h hx rfl rfl fun _ => rfl
    exact put_inv hset fun _ hr => hr
  | joined t sc x hx _ hs hno =>
    exact setSched_inv (y := { x with joined := true }) h (fun _ => hs) fun u _ hu => absurd hu (hno u).1
  | destroy t sc x _ hx _ hj =>
    have hset : Inv (s.set sc { x with alive := false }) := by
      refine setSched_inv h (h.joined sc x hx) ?_
      intro u y _ hy _ hj'
      rw [hx] at hy
      cases hy
      rw [hj] at hj'
      cases hj'
    exact put_inv hset fun _ hr => hr

/-! ## The hooks of one thread -/

theorem safe_congr {x : Thread} {scheds scheds' : SchedId → Option Sched}
    (h : ∀ k, LiveManager scheds' k ↔ LiveManager scheds k) : Safe x scheds' ↔ Safe x scheds := by
  unfold Safe
  simp only [h]

theorem safe_put {y : Thread} (hp : HookSafe s t) (hy : u = t → Safe y s.scheds) : HookSafe (s.put u y) t := by
  rw [hookSafe_iff] at hp ⊢
  show Safe (Function.update s.threads u y t) s.scheds
  by_cases e : t = u
  · subst e
    rw [Function.update_self]
    exact hy rfl
  · rw [Function.update_of_ne e]
    exact hp

theorem safe_set {x y : Sched} (hp : HookSafe s t) (hx : s.scheds sc = some x) (hio : y.io = x.io)
    (ha : y.alive = x.alive) :
    HookSafe (s.set sc y) t := by
  rw [hookSafe_iff] at hp ⊢
  exact (safe_congr fun _ => live_set hx hio ha).mpr hp

theorem safe_new {y : Sched} (hp : HookSafe s t) (hnone : s.scheds sc = none) : HookSafe (s.set sc y) t := by
  rw [hookSafe_iff] at hp ⊢
  intro hon
  obtain ⟨k, hk, hlive⟩ := hp hon
  exact ⟨k, hk, live_new hnone hlive⟩

/-- After entering run() the hooks have a manager exactly when it is an IOManager's. -/
theorem safe_run (role : Role) {x : Sched} (hp : HookSafe s t) (hx : s.scheds sc = some x) (ha : x.alive = true) :
    HookSafe (s.run u sc role) t ↔ (u = t → (s.scheds sc).any (·.io) = true) := by
  by_cases e : u = t
  · subst e
    rw [hookSafe_iff]
    show Safe (Function.update s.threads u _ u) s.scheds ↔ _
    rw [Function.update_self, hx]
    constructor
    · intro h _
      obtain ⟨k, hk, y, hy, hio, -⟩ := h rfl
      cases hk
      rw [hx] at hy
      cases hy
      exact hio
    · intro h _
      exact ⟨sc, rfl, x, hx, h rfl, ha⟩
  · exact iff_of_true (safe_put hp fun e' => absurd e' e) fun e' => absurd e' e

/-- After the destruction the thread with hooks on has a manager exactly when it had another. -/
theorem safe_destroy {x : Sched} (hp : HookSafe s t) :
    HookSafe (s.destroy u sc x) t ↔ ¬((s.threads t).t_hook_enable = true ∧ (s.threads t).t_scheduler = some sc) := by
  rw [hookSafe_iff] at hp ⊢
  have hscheds : ∀ k, LiveManager (s.set sc { x with alive := false }).scheds k ↔ k ≠ sc ∧ LiveManager s.scheds k :=
    fun _ => live_destroy
  -- what the thread has afterwards, other than `sc`, it had before
  have hthread : ∀ y : Thread, y.t_hook_enable = (s.threads t).t_hook_enable →
      (∀ k, k ≠ sc → (y.t_scheduler = some k ↔ (s.threads t).t_scheduler = some k)) →
      (Safe y (s.set sc { x with alive := false }).scheds ↔
        ¬((s.threads t).t_hook_enable = true ∧ (s.threads t).t_scheduler = some sc)) := by
    intro y hon hk
    unfold Safe at hp ⊢
    rw [hon]
    constructor
    · intro hs ⟨hon', hsc⟩
      obtain ⟨k, hy, hlive⟩ := hs hon'
      obtain ⟨hne, -⟩ := (hscheds k).mp hlive
      rw [hk k hne, hsc] at hy
      exact hne (Option.some.inj hy).symm
    · intro hn hon'
      obtain ⟨k, hk', hlive⟩ := hp hon'
      have hne : k ≠ sc := fun e => hn ⟨hon', e ▸ hk'⟩
      exact ⟨k, (hk k hne).mpr hk', (hscheds k).mpr ⟨hne, hlive⟩⟩
  show Safe (Function.update s.threads u _ t) _ ↔ _
  by_cases e : t = u
  · subst e
    rw [Function.update_self]
    refine hthread _ rfl fun k hk => ?_
    show (if (s.threads t).t_scheduler = some sc then none else (s.threads t).t_scheduler) = some k ↔ _
    by_cases hsc : (s.threads t).t_scheduler = some sc
    · rw [if_pos hsc, hsc]
      exact iff_of_false nofun fun he => hk (Option.some.inj he).symm
    · rw [if_neg hsc]
  · rw [Function.update_of_ne e]
    exact hthread _ rfl fun _ _ => Iff.rfl

theorem step_hookSafe_iff (hi : Inv s) (hp : HookSafe s t) (hst : Step s a s') : HookSafe s' t ↔ Keeps t s a := by
  cases hst with
  | construct u sc io _ hnone => exact iff_of_true (safe_new hp hnone) trivial
  | constructCaller u sc io _ hnone hthis =>
    refine iff_of_true (safe_put (safe_new hp hnone) ?_) trivial
    -- hooks on would need a t_scheduler, the assertion says there is none
    intro hx hon
    subst hx
    obtain ⟨k, hk, -⟩ := hookSafe_iff.mp hp hon
    rw [hthis] at hk
    cases hk
  | start u sc x us _ hx _ _ _ hus =>
    refine iff_of_true ?_ trivial
    have hset : HookSafe (s.set sc { x with started := true }) t := safe_set hp hx rfl rfl
    rw [hookSafe_iff] at hset ⊢
    show Safe (if t ∈ us then _ else s.threads t) _
    by_cases e : t ∈ us
    · rw [if_pos e]
      nofun
    · rw [if_neg e]
      exact hset
  | enter u sc hu =>
    obtain ⟨x, hx, ha, -⟩ := hi.starting u sc hu
    exact safe_run _ hp hx ha
  | leave u sc => exact iff_of_true (safe_put hp fun _ => nofun) trivial
  | stop u sc x _ hx => exact iff_of_true (safe_set hp hx rfl rfl) trivial
  | stopCaller u sc x _ hx ha =>
    have hrun := safe_run (u := u) (s.threads u).role
      (safe_set (y := { x with m_stopping := true }) hp hx rfl rfl) (Function.update_self ..) ha
    refine hrun.trans ?_
    show (u = t → (Function.update s.scheds sc _ sc).any (·.io) = true) ↔ (u = t → (s.scheds sc).any (·.io) = true)
    rw [Function.update_self, hx]
    exact Iff.rfl
  | joined u sc x hx => exact iff_of_true (safe_set hp hx rfl rfl) trivial
  | destroy u sc x _ hx ha => exact safe_destroy hp

/-- In every run, on every thread: with the hooks on, IOManager::GetThis() is a live
    IOManager, exactly when every run() entered there is an IOManager's and no IOManager is
    destroyed that the thread with hooks on still has. -/
theorem hook_manager_iff {tr : List (Act × State)} (t : Tid) (h0 : Init s) (h : Lts.Run Step s tr) :
    Lts.Every (fun _ _ s' => HookSafe s' t) s tr ↔ Lts.Every (fun s a _ => Keeps t s a) s tr := by
  have hp0 : HookSafe s t := by
    intro hon
    rcases h0.threads t with hx | hx
    · rw [hx] at hon
      cases hon
    · rw [hx] at hon
      cases hon
  exact Lts.Run.every_iff (J := fun s => Inv s ∧ HookSafe s t) (G := Keeps t)
    (fun _ _ _ hj hg hst => ⟨step_inv hj.1 hst, (step_hookSafe_iff hj.1 hj.2 hst).mpr hg⟩)
    (fun _ _ _ hj hst => step_hookSafe_iff hj.1 hj.2 hst) h ⟨init_inv h0, hp0⟩

/-! ## Three programs of thread 0 -/

def start : State where
  threads t := ⟨false, none, if t = 0 then .user else .unborn⟩
  scheds _ := none

theorem start_other {t : Tid} (h : t ≠ 0) : start.threads t = ⟨false, none, .unborn⟩ :=
  congrArg (Thread.mk false none) (if_neg h)

theorem start_init : Init start := by
  refine ⟨?_, fun _ => rfl⟩
  intro t
  by_cases e : t = 0
  · subst e
    exact .inl rfl
  · exact .inr (start_other e)

theorem put_other {x : Thread} (h : t ≠ u) : (s.put u x).threads t = s.threads t := Function.update_of_ne h ..

/-- `IOManager iom(1, false)`, destroyed at the end of its block. -/
def ownThreads : List (Act × State) :=
  let x : Sched := { io := true, m_useCaller := false, started := true }
  let s1 := start.set 1 { io := true, m_useCaller := false }
  let s2 := (s1.set 1 x).spawn 1 [1]
  let s3 := s2.run 1 1 (.running 1)
  let s4 := s3.set 1 { x with m_stopping := true }
  let s5 := s4.put 1 ⟨false, none, .exited⟩
  let s6 := s5.set 1 { x with m_stopping := true, joined := true }
  [(.construct 0 1, s1), (.start 0 1, s2), (.enter 1 1, s3), (.stop 0 1, s4), (.leave 1 1, s5), (.joined 0 1, s6),
    (.destroy 0 1, s6.destroy 0 1 { x with m_stopping := true, joined := true })]

theorem ownThreads_run : Lts.Run Step start ownThreads := by
  let x : Sched := { io := true, m_useCaller := false, started := true }
  refine .cons (.construct 0 1 true rfl rfl)
    (.cons (.start 0 1 { io := true, m_useCaller := false } [1] rfl rfl rfl rfl rfl ?_)
    (.cons (.enter 1 1 rfl) (.cons (.stop 0 1 x rfl rfl rfl rfl rfl ?_)
    (.cons (.leave 1 1 { x with m_stopping := true } rfl rfl rfl)
    (.cons (.joined 0 1 { x with m_stopping := true } rfl rfl rfl ?_)
    (.cons (.destroy 0 1 { x with m_stopping := true, joined := true } rfl rfl rfl rfl) (.nil _)))))))
  · intro u hu
    cases List.mem_singleton.mp hu
    rfl
  · intro h
    cases h
  · intro u
    by_cases e : u = 1
    · subst e
      exact ⟨nofun, nofun⟩
    · have hu : ((((((start.set 1 { io := true, m_useCaller := false }).set 1 x).spawn 1 [1]).run 1 1
          (.running 1)).set 1 { x with m_stopping := true }).put 1 ⟨false, none, .exited⟩).threads u =
          start.threads u := by
        refine (put_other e).trans ((put_other e).trans ?_)
        exact if_neg fun h => e (List.mem_singleton.mp h)
      rw [hu]
      rcases start_init.threads u with h | h
      · rw [h]
        exact ⟨nofun, nofun⟩
      · rw [h]
        exact ⟨nofun, nofun⟩

/-- The worker and the thread that made it. -/
theorem hook_manager_ownThreads : Lts.Every (fun _ _ s' => HookSafe s' 1) start ownThreads ∧
    Lts.Every (fun _ _ s' => HookSafe s' 0) start ownThreads := by
  refine ⟨(hook_manager_iff 1 start_init ownThreads_run).mpr
      ⟨trivial, trivial, fun _ => rfl, trivial, trivial, trivial, ?_, trivial⟩,
    (hook_manager_iff 0 start_init ownThreads_run).mpr
      ⟨trivial, trivial, fun _ => rfl, trivial, trivial, trivial, ?_, trivial⟩⟩
  · intro hp
    obtain ⟨hon, -⟩ := hp
    cases hon
  · intro hp
    obtain ⟨hon, -⟩ := hp
    cases hon

/-- `Scheduler scheduler;` or `IOManager iom;` up to the start of run() in stop(). -/
def callerRun (io : Bool) : List (Act × State) :=
  let x : Sched := { io, m_useCaller := true, started := true }
  let s1 := (start.set 1 { io, m_useCaller := true }).put 0 ⟨false, some 1, .user⟩
  let s2 := (s1.set 1 x).spawn 1 []
  [(.construct 0 1, s1), (.start 0 1, s2), (.stopCaller 0 1, s2.stopCaller 0 1 x)]

theorem callerRun_run (io : Bool) : Lts.Run Step start (callerRun io) :=
  .cons (.constructCaller 0 1 io rfl rfl rfl)
    (.cons (.start 0 1 { io, m_useCaller := true } [] rfl rfl rfl rfl rfl nofun)
    (.cons (.stopCaller 0 1 { io, m_useCaller := true, started := true } rfl rfl rfl rfl rfl rfl) (.nil _)))

/-- The object is destroyed on its caller thread. -/
def callerEnd (io : Bool) : List (Act × State) :=
  let x : Sched := { io, m_useCaller := true, started := true, m_stopping := true, joined := true }
  let s := (Lts.final start (callerRun io)).set 1 x
  [(.joined 0 1, s), (.destroy 0 1, s.destroy 0 1 x)]

theorem callerEnd_run (io : Bool) : Lts.Run Step (Lts.final start (callerRun io)) (callerEnd io) := by
  let x : Sched := { io, m_useCaller := true, started := true, m_stopping := true }
  refine .cons (.joined 0 1 x rfl rfl rfl ?_) (.cons (.destroy 0 1 { x with joined := true } rfl rfl rfl rfl) (.nil _))
  intro u
  by_cases e : u = 0
  · subst e
    exact ⟨nofun, nofun⟩
  · have hu : (Lts.final start (callerRun io)).threads u = start.threads u := by
      simp [callerRun, Lts.final, State.stopCaller, State.run, State.put, State.set, State.spawn, e]
    rw [hu, start_other e]
    exact ⟨nofun, nofun⟩

/-- In a task of a base Scheduler, and after the IOManager of the caller thread is gone,
    the hooks are on and IOManager::GetThis() is null. -/
theorem hook_without_manager : Init start ∧
    (∃ tr, Lts.Run Step start tr ∧ ((Lts.final start tr).threads 0).t_hook_enable = true ∧
      (Lts.final start tr).getThis 0 = none ∧ ¬HookSafe (Lts.final start tr) 0) ∧
    ∃ tr, Lts.Run Step start (callerRun true ++ tr) ∧
      ((Lts.final start (callerRun true ++ tr)).threads 0).t_hook_enable = true ∧
      (Lts.final start (callerRun true ++ tr)).getThis 0 = none ∧
      ¬HookSafe (Lts.final start (callerRun true ++ tr)) 0 := by
  refine ⟨start_init, ⟨callerRun false, callerRun_run false, rfl, rfl, ?_⟩,
    ⟨callerEnd true, (callerRun_run true).append (callerEnd_run true), rfl, rfl, ?_⟩⟩
  · intro h
    obtain ⟨sc, x, hget, -⟩ := h rfl
    cases hget
  · intro h
    obtain ⟨sc, x, hget, -⟩ := h rfl
    cases hget

end Sylar.Lifecycle
