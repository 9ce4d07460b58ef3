/-
  Sylar.Scheduler.HandoverProofs — when a fiber that publishes itself is handed over
  safely.

  What carries the proof is a count: for every fiber there is at most one right to run
  it, queued, registered, armed, or with a thread that has yet to publish (`rights`). No
  step makes one but for a new fiber (`Step.rights`). What a step can do to a thread is
  said once (`Step.move`), and the invariant of one fiber (`FiberInv`) is derived from it.

  Proved: when each wake-up of a fiber still executing is confined to the thread
  executing it (`Orderly`), every dequeue meets a READY fiber, every resume a saved
  context, and a fiber is executed by one thread at a time (`handover_safe`). A fiber
  that schedules itself as it stands breaks all three (`running_fiber_dequeued`).
-/

import Sylar.Lib.Count
import Sylar.Scheduler.Handover

namespace Sylar.Handover

/-! ## Rights to run -/

/-- The fiber a task will run, itself or through the callback that schedules it. -/
def Config.target (c : Config) (x : ScheduleTask) : Option FiberId := x.m_fiber <|> x.m_cb.bind c.wakes

/-- The thread holds the right to run `f`: dequeued, in the callback that schedules it,
    or executing and not yet published. -/
def Pc.right (c : Config) (f : FiberId) : Pc → Bool
  | .start x => c.target x == some f
  | .running g p => g == f && !p
  | .callback cb => c.wakes cb == some f
  | _ => false

/-- How many rights to run `f` there are: queued, registered, armed, or with a thread. -/
def rights (c : Config) (s : State) (f : FiberId) : Nat :=
  s.m_tasks.countP (c.target · == some f) + s.events.count f + s.timers.countP (c.wakes · == some f) +
    countOn c.threads (·.right c f) s.pc

section
variable {c : Config} {s : State}

theorem target_fiber {x : ScheduleTask} {f : FiberId} (h : x.m_fiber = some f) : c.target x = some f := by
  simp [Config.target, h]

theorem target_cb {x : ScheduleTask} {cb : CbId} (hf : x.m_fiber = none) (h : x.m_cb = some cb) :
    c.target x = c.wakes cb := by simp [Config.target, hf, h]

@[simp] theorem target_ofFiber (f : FiberId) (pin : Option Tid) : c.target (.ofFiber f pin) = some f := rfl

@[simp] theorem target_ofCb (cb : CbId) (pin : Option Tid) : c.target (.ofCb cb pin) = c.wakes cb := rfl

theorem goto_pc (t u : Tid) (pc : Pc) : (s.goto t pc).pc u = if u = t then pc else s.pc u :=
  Function.update_apply s.pc t pc u

/-- A thread that moves exchanges the right it holds. -/
theorem rights_goto {t : Tid} (ht : t ∈ c.threads) (pc : Pc) (f : FiberId) :
    rights c (s.goto t pc) f + ((s.pc t).right c f).toNat = rights c s f + (pc.right c f).toNat := by
  have h := countOn_update ht (·.right c f) s.pc pc
  simp only [rights, State.goto, toNat_eq_ite]
  omega

theorem newFiber_pc : s.newFiber.pc = s.pc := rfl

theorem resume_pc (t u : Tid) (f : FiberId) : (s.resume t f).pc u = if u = t then .running f false else s.pc u :=
  Function.update_apply s.pc t _ u

theorem rights_newFiber (f : FiberId) : rights c s.newFiber f = rights c s f := by
  simp only [rights, State.newFiber, State.setSaved, State.setState]

theorem right_unpublished (g f : FiberId) : (Pc.running g false).right c f = (g == f) := by simp [Pc.right]

theorem right_published (g f : FiberId) : (Pc.running g true).right c f = false := by simp [Pc.right]

theorem rights_resume {t : Tid} (ht : t ∈ c.threads) (g f : FiberId) :
    rights c (s.resume t g) f + ((s.pc t).right c f).toNat = rights c s f + (g == f).toNat := by
  have h := rights_goto (s := (s.setState g .RUNNING).setSaved g false) ht (.running g false) f
  have hs : rights c ((s.setState g .RUNNING).setSaved g false) f = rights c s f := by
    simp only [rights, State.setSaved, State.setState]
  rwa [right_unpublished, hs] at h

theorem rights_schedule (x : ScheduleTask) (f : FiberId) :
    rights c (s.schedule x) f = rights c s f + (c.target x == some f).toNat := by
  simp only [rights, State.schedule, List.countP_append, List.countP_singleton, toNat_eq_ite]
  omega

theorem rights_addEvent (g f : FiberId) : rights c (s.addEvent g) f = rights c s f + (g == f).toNat := by
  simp only [rights, State.addEvent, List.count_cons, toNat_eq_ite]
  omega

theorem rights_delEvent {g : FiberId} (hg : g ∈ s.events) (f : FiberId) :
    rights c (s.delEvent g) f + (g == f).toNat = rights c s f := by
  have h := (List.perm_cons_erase hg).count_eq f
  simp only [List.count_cons] at h
  simp only [rights, State.delEvent, toNat_eq_ite]
  omega

theorem rights_addTimer (cb : CbId) (f : FiberId) :
    rights c (s.addTimer cb) f = rights c s f + (c.wakes cb == some f).toNat := by
  simp only [rights, State.addTimer, List.countP_cons, toNat_eq_ite]
  omega

theorem rights_delTimer {cb : CbId} (hcb : cb ∈ s.timers) (f : FiberId) :
    rights c (s.delTimer cb) f + (c.wakes cb == some f).toNat = rights c s f := by
  have h := (List.perm_cons_erase hcb).countP_eq (c.wakes · == some f)
  simp only [List.countP_cons] at h
  simp only [rights, State.delTimer, toNat_eq_ite]
  omega

/-- A dequeue turns a queued right into one its thread holds. -/
theorem rights_dequeue {t : Tid} {x : ScheduleTask} (ht : t ∈ c.threads) (hloop : s.pc t = .loop)
    (hx : (scan (ScheduleTask.eligible t) s.m_tasks).task = some x) (f : FiberId) :
    rights c (s.dequeue t x) f = rights c s f := by
  obtain ⟨pre, post, hq, hrest, -⟩ := scan_some hx
  have hfrom : (s.pc t).right c f = false := by rw [hloop]; rfl
  have hto : (Pc.start x).right c f = (c.target x == some f) := rfl
  have h := countOn_update ht (·.right c f) s.pc (.start x)
  simp only [hfrom, hto, Bool.false_eq_true, if_false] at h
  rw [State.dequeue, hrest]
  simp only [rights, State.goto, hq, List.countP_append, List.countP_cons]
  omega

/-- Two threads with a right to one fiber are one thread, where there is one right. -/
theorem right_unique (hm : ∀ t, s.pc t ≠ .loop → t ∈ c.threads) {f : FiberId} (h1 : rights c s f ≤ 1) {t u : Tid}
    (ht : (s.pc t).right c f = true) (hu : (s.pc u).right c f = true) : t = u := by
  have member {v : Tid} (hv : (s.pc v).right c f = true) : v ∈ c.threads := hm v fun he => by rw [he] at hv; cases hv
  have hle : countOn c.threads (·.right c f) s.pc ≤ 1 := by simp only [rights] at h1; omega
  exact countOn_le_one.mp hle t (member ht) u (member hu) ht hu

theorem queued_pos {f : FiberId} {x : ScheduleTask} (hx : x ∈ s.m_tasks) (hf : x.m_fiber = some f) :
    0 < s.m_tasks.countP (c.target · == some f) :=
  List.countP_pos_iff.mpr ⟨x, hx, by simp [target_fiber hf]⟩

theorem right_pos (hm : ∀ t, s.pc t ≠ .loop → t ∈ c.threads) {f : FiberId} {t : Tid} (ht : (s.pc t).right c f = true) :
    0 < countOn c.threads (·.right c f) s.pc := by
  apply Nat.pos_of_ne_zero
  intro h0
  have := countOn_eq_zero.mp h0 t (hm t fun he => by rw [he] at ht; cases ht)
  rw [ht] at this; cases this

/-- With the one right to a fiber at a thread, the fiber is not queued. -/
theorem right_notQueued (hm : ∀ t, s.pc t ≠ .loop → t ∈ c.threads) {f : FiberId} (h1 : rights c s f ≤ 1) {t : Tid}
    (ht : (s.pc t).right c f = true) {x : ScheduleTask} (hx : x ∈ s.m_tasks) : x.m_fiber ≠ some f := by
  intro hf
  have hq := queued_pos (c := c) hx hf
  have hc := right_pos hm ht
  simp only [rights] at h1
  omega

theorem rights_pos_queued {f : FiberId} {x : ScheduleTask} (hx : x ∈ s.m_tasks) (hf : x.m_fiber = some f) :
    0 < rights c s f := by
  have := queued_pos (c := c) hx hf
  simp only [rights]
  omega

theorem rights_pos_right (hm : ∀ t, s.pc t ≠ .loop → t ∈ c.threads) {f : FiberId} {t : Tid}
    (ht : (s.pc t).right c f = true) : 0 < rights c s f := by
  have := right_pos hm ht
  simp only [rights]
  omega

end

/-! ## What a step does -/

section
variable {c : Config} {s s' : State} {a : Act}

/-- No step makes a right, but for a new fiber. -/
theorem Step.rights (hm : ∀ t, s.pc t ≠ .loop → t ∈ c.threads) (h : Step c s a s') (f : FiberId) :
    rights c s' f ≤ rights c s f + if f = s.s_fiber_id ∧ s.s_fiber_id < s'.s_fiber_id then 1 else 0 := by
  have member {t : Tid} {pc : Pc} (hpc : s.pc t = pc) (hne : pc ≠ .loop) : t ∈ c.threads := hm t (hpc ▸ hne)
  have moves {t : Tid} {pc : Pc} (hpc : s.pc t = pc) (hne : pc ≠ .loop) (pc' : Pc) :
      Handover.rights c (s.goto t pc') f + (pc.right c f).toNat =
        Handover.rights c s f + (pc'.right c f).toNat := by
    have := rights_goto (s := s) (member hpc hne) pc' f
    rwa [hpc] at this
  have new : (s.s_fiber_id == f).toNat ≤ if f = s.s_fiber_id ∧ s.s_fiber_id < s.s_fiber_id + 1 then 1 else 0 := by
    by_cases hf : s.s_fiber_id = f
    · simp [hf]
    · simp [beq_eq_false_iff_ne.mpr hf]
  cases h with
  | spawn pin =>
    rw [rights_schedule, target_ofFiber]
    exact Nat.add_le_add_left new _
  | submit pin hcb =>
    rw [rights_schedule, target_ofCb, hcb]
    exact Nat.le_add_right _ _
  | dequeue ht hloop hx _ => exact (rights_dequeue ht hloop hx f).le.trans (Nat.le_add_right _ _)
  | @resume t x g hpc hg _ =>
    have := rights_resume (s := s) (member hpc nofun) g f
    simp only [hpc, Pc.right, target_fiber hg, Option.some_beq_some] at this
    omega
  | @begin t x cb hpc hx hcb hw =>
    have := rights_resume (s := s.newFiber) (member hpc nofun) s.s_fiber_id f
    rw [rights_newFiber, newFiber_pc, hpc] at this
    refine Nat.le_trans ?_ (Nat.add_le_add_left new _)
    omega
  | @call t x cb g hpc hx hcb hw =>
    have := moves hpc nofun (.callback cb)
    simp only [Pc.right, target_cb hx hcb] at this
    omega
  | @schedule t g pin hpc =>
    have := moves hpc nofun (.running g true)
    rw [right_unpublished, right_published, Bool.toNat_false] at this
    rw [rights_schedule, target_ofFiber, Option.some_beq_some]
    omega
  | @addEvent t g hpc =>
    have := moves hpc nofun (.running g true)
    rw [right_unpublished, right_published, Bool.toNat_false] at this
    rw [rights_addEvent]
    omega
  | @addTimer t g cb hpc hw =>
    have := moves hpc nofun (.running g true)
    rw [right_unpublished, right_published, Bool.toNat_false] at this
    rw [rights_addTimer, hw, Option.some_beq_some]
    omega
  | trigger hg =>
    have := rights_delEvent (c := c) hg f
    rw [rights_schedule, target_ofFiber, Option.some_beq_some]
    omega
  | expire hcb =>
    have := rights_delTimer (c := c) hcb f
    rw [rights_schedule, target_ofCb]
    omega
  | wake hpc hw =>
    have := moves hpc nofun .loop
    simp only [Pc.right, hw, Option.some_beq_some, Bool.toNat_false] at this
    rw [rights_schedule, target_ofFiber, Option.some_beq_some]
    omega
  | @yield t g p hpc _ =>
    have := moves hpc nofun (.switching g)
    simp only [Pc.right, Bool.toNat_false] at this
    show Handover.rights c (s.goto t (.switching g)) f ≤ _
    omega
  | @swap t g hpc =>
    have := moves hpc nofun .loop
    simp only [Pc.right, Bool.toNat_false] at this
    show Handover.rights c (s.goto t .loop) f ≤ _
    omega
  | @finish t g hpc =>
    have := moves hpc nofun .loop
    simp only [Pc.right, Bool.toNat_false] at this
    show Handover.rights c (s.goto t .loop) f ≤ _
    omega

/-- The ways from one program point of a thread to the next. -/
inductive Move (c : Config) (s : State) : Act → Tid → Pc → Pc → Prop
  | dequeue {t : Tid} {x : ScheduleTask} : t ∈ c.threads → x ∈ s.m_tasks → x.eligible t = true →
      Move c s (.dequeue t) t .loop (.start x)
  | resume {t : Tid} {x : ScheduleTask} {f : FiberId} : x.m_fiber = some f →
      Move c s (.resume t) t (.start x) (.running f false)
  | begin {t : Tid} {x : ScheduleTask} : Move c s (.begin t) t (.start x) (.running s.s_fiber_id false)
  | call {t : Tid} {x : ScheduleTask} {cb : CbId} : Move c s (.call t) t (.start x) (.callback cb)
  | publish {a : Act} {t : Tid} {f : FiberId} : Move c s a t (.running f false) (.running f true)
  | wake {t : Tid} {cb : CbId} : Move c s (.wake t) t (.callback cb) .loop
  | yield {t : Tid} {f : FiberId} {p : Bool} : Move c s (.yield t) t (.running f p) (.switching f)
  | swap {t : Tid} {f : FiberId} : Move c s (.swap t) t (.switching f) .loop
  | finish {t : Tid} {f : FiberId} : Move c s (.finish t) t (.running f false) .loop

theorem Step.move (h : Step c s a s') (t : Tid) :
    s'.pc t = s.pc t ∨ ∃ pc pc', s.pc t = pc ∧ s'.pc t = pc' ∧ Move c s a t pc pc' := by
  have goes {u : Tid} {pc pc' : Pc} (hpc : s.pc u = pc) (hmv : Move c s a u pc pc') :
      (s.goto u pc').pc t = s.pc t ∨ ∃ p p', s.pc t = p ∧ (s.goto u pc').pc t = p' ∧ Move c s a t p p' := by
    rw [goto_pc]
    split
    · rename_i htu; subst htu; exact .inr ⟨pc, pc', hpc, rfl, hmv⟩
    · exact .inl rfl
  cases h with
  | spawn _ => exact .inl rfl
  | submit _ _ => exact .inl rfl
  | dequeue ht hloop hx _ =>
    obtain ⟨pre, post, hq, -, hel, -⟩ := scan_some hx
    exact goes hloop (.dequeue ht (by simp [hq]) hel)
  | resume hpc hf _ => exact goes hpc (.resume hf)
  | begin hpc _ _ _ =>
    rw [resume_pc, newFiber_pc, ← goto_pc]
    exact goes hpc .begin
  | call hpc _ _ _ => exact goes hpc .call
  | schedule _ hpc => exact goes hpc .publish
  | addEvent hpc => exact goes hpc .publish
  | addTimer hpc _ => exact goes hpc .publish
  | trigger _ => exact .inl rfl
  | expire _ => exact .inl rfl
  | wake hpc _ => exact goes hpc .wake
  | yield hpc _ => exact goes hpc .yield
  | swap hpc => exact goes hpc .swap
  | finish hpc => exact goes hpc .finish

/-- Only members of `threads` leave the top of the loop. -/
theorem Step.members (hm : ∀ t, s.pc t ≠ .loop → t ∈ c.threads) (h : Step c s a s') {t : Tid}
    (ht : s'.pc t ≠ .loop) : t ∈ c.threads := by
  obtain hsame | ⟨pc, pc', hpc, hpc', hmv⟩ := h.move t
  · exact hm t (hsame ▸ ht)
  · cases hmv with
    | dequeue ht _ _ => exact ht
    | _ => exact hm t (by rw [hpc]; exact nofun)

/-- A fiber comes to be executed by the resume that has its right, or as a new one. -/
theorem Step.executes (h : Step c s a s') {t : Tid} {f : FiberId} (he : (s'.pc t).executes f = true) :
    (s.pc t).executes f = true ∨ (a = .resume t ∧ ∃ x, s.pc t = .start x ∧ x.m_fiber = some f) ∨
      (a = .begin t ∧ f = s.s_fiber_id) := by
  obtain hsame | ⟨pc, pc', hpc, hpc', hmv⟩ := h.move t
  · rw [hsame] at he; exact .inl he
  · rw [hpc'] at he
    rw [hpc]
    cases hmv with
    | resume hf => exact .inr (.inl ⟨rfl, _, rfl, by rw [hf, beq_iff_eq.mp he]⟩)
    | begin => exact .inr (.inr ⟨rfl, (beq_iff_eq.mp he).symm⟩)
    | publish => exact .inl he
    | yield => exact .inl he
    | _ => cases he

/-- A thread comes to a task by dequeuing it from the top of its loop. -/
theorem Step.start (h : Step c s a s') {t : Tid} {x : ScheduleTask} (hx : s'.pc t = .start x) :
    s.pc t = .start x ∨ (t ∈ c.threads ∧ s.pc t = .loop ∧ x ∈ s.m_tasks ∧ x.eligible t = true) := by
  obtain hsame | ⟨pc, pc', hpc, hpc', hmv⟩ := h.move t
  · rw [hsame] at hx; exact .inl hx
  · rw [hx] at hpc'
    subst hpc'
    cases hmv with
    | dequeue ht hq hel => exact .inr ⟨ht, hpc, hq, hel⟩

theorem Step.resume_m_tasks {t : Tid} (h : Step c s (.resume t) s') : s'.m_tasks = s.m_tasks := by
  cases h; rfl

theorem Step.begin_m_tasks {t : Tid} (h : Step c s (.begin t) s') :
    s'.m_tasks = s.m_tasks ∧ s'.s_fiber_id = s.s_fiber_id + 1 := by
  cases h
  simp only [State.resume, State.goto, State.setSaved, State.setState, State.newFiber, and_self]

theorem Step.s_fiber_id (h : Step c s a s') : s.s_fiber_id ≤ s'.s_fiber_id := by
  cases h with
  | spawn _ => exact Nat.le_succ _
  | begin _ _ _ _ =>
    simp only [State.resume, State.goto, State.setSaved, State.setState, State.newFiber, Nat.le_add_right]
  | _ => exact Nat.le_refl _

/-- A fiber comes into the queue new, or confined to the thread executing it. -/
theorem Step.queued (h : Step c s a s') (hg : Orderly c s a) {x : ScheduleTask} {f : FiberId} (hx : x ∈ s'.m_tasks)
    (hf : x.m_fiber = some f) : x ∈ s.m_tasks ∨ f = s.s_fiber_id ∨
      ∀ t, (s.pc t).executes f = true → ∀ u ∈ c.threads, x.eligible u = true → u = t := by
  have pushed {y : ScheduleTask} (hx : x ∈ s.m_tasks ++ [y]) : x ∈ s.m_tasks ∨ x = y := by simpa using hx
  cases h with
  | spawn pin =>
    rcases pushed hx with hx | rfl
    · exact .inl hx
    · exact .inr (.inl (Option.some.inj hf).symm)
  | submit pin _ =>
    rcases pushed hx with hx | rfl
    · exact .inl hx
    · cases hf
  | dequeue _ _ hy _ =>
    obtain ⟨pre, post, hq, hrest, -⟩ := scan_some hy
    have hx' : x ∈ pre ++ post := hrest ▸ hx
    rw [hq]
    rcases List.mem_append.mp hx' with hx | hx
    · exact .inl (List.mem_append_left _ hx)
    · exact .inl (List.mem_append_right _ (List.mem_cons_of_mem _ hx))
  | resume _ _ _ => exact .inl hx
  | begin _ _ _ _ =>
    simp only [State.resume, State.goto, State.setSaved, State.setState, State.newFiber] at hx
    exact .inl hx
  | call _ _ _ _ => exact .inl hx
  | @schedule t g pin hpc =>
    rcases pushed hx with hx | rfl
    · exact .inl hx
    · cases hf; exact .inr (.inr (hg _ false hpc))
  | addEvent _ => exact .inl hx
  | addTimer _ _ => exact .inl hx
  | trigger _ =>
    rcases pushed hx with hx | rfl
    · exact .inl hx
    · cases hf; exact .inr (.inr hg)
  | expire _ =>
    rcases pushed hx with hx | rfl
    · exact .inl hx
    · cases hf
  | wake hpc hw =>
    rcases pushed hx with hx | rfl
    · exact .inl hx
    · cases hf; exact .inr (.inr (hg _ _ hpc hw))
  | yield _ _ => exact .inl hx
  | swap _ => exact .inl hx
  | finish _ => exact .inl hx

theorem resume_executes {t : Tid} {x : ScheduleTask} (hpc : s.pc t = .start x) (f : FiberId) :
    ((s.resume t f).pc t).executes f = true ∧ (s.pc t).executes f = false :=
  ⟨by rw [resume_pc, if_pos rfl]; exact beq_self_eq_true f, by rw [hpc]; rfl⟩

theorem begin_executes {t : Tid} {x : ScheduleTask} (hpc : s.pc t = .start x) :
    ((s.newFiber.resume t s.s_fiber_id).pc t).executes s.s_fiber_id = true ∧
      (s.pc t).executes s.s_fiber_id = false := by
  have h := resume_executes (s := s.newFiber) (t := t) (x := x) (by rw [newFiber_pc, hpc]) s.s_fiber_id
  rwa [newFiber_pc] at h

/-- READY ends where the fiber is resumed, or ends. -/
theorem Step.ready (h : Step c s a s') {f : FiberId} (hr : s.m_state f = .READY) : s'.m_state f = .READY ∨
    (∃ t, (s'.pc t).executes f = true ∧ (s.pc t).executes f = false) ∨ ∃ t, s.pc t = .running f false := by
  have set {g : FiberId} {st : FiberState} (hst : g = f → st = .READY) : (s.setState g st).m_state f = .READY := by
    simp only [State.setState, Function.update_apply]
    split
    · rename_i h; exact hst h.symm
    · exact hr
  cases h with
  | spawn _ => exact .inl (set fun _ => rfl)
  | @resume t x g hpc hg _ =>
    by_cases hgf : g = f
    · subst hgf; exact .inr (.inl ⟨t, resume_executes hpc g⟩)
    · exact .inl (set fun h => absurd h hgf)
  | @begin t x cb hpc _ _ _ =>
    by_cases hgf : s.s_fiber_id = f
    · subst hgf; exact .inr (.inl ⟨t, begin_executes hpc⟩)
    · refine .inl ?_
      show Function.update (Function.update s.m_state _ _) _ _ f = _
      rw [Function.update_of_ne (Ne.symm hgf), Function.update_of_ne (Ne.symm hgf), hr]
  | yield _ _ => exact .inl (set fun _ => rfl)
  | @finish t g hpc =>
    by_cases hgf : g = f
    · subst hgf; exact .inr (.inr ⟨t, hpc⟩)
    · exact .inl (set fun h => absurd h hgf)
  | _ => exact .inl hr

/-- A saved context is good until the fiber is resumed. -/
theorem Step.saved (h : Step c s a s') {f : FiberId} (hr : s.saved f = true) : s'.saved f = true ∨
    ∃ t, (s'.pc t).executes f = true ∧ (s.pc t).executes f = false := by
  have set {g : FiberId} {b : Bool} (hb : g = f → b = true) : (s.setSaved g b).saved f = true := by
    simp only [State.setSaved, Function.update_apply]
    split
    · rename_i h; exact hb h.symm
    · exact hr
  cases h with
  | spawn _ => exact .inl (set fun _ => rfl)
  | @resume t x g hpc hg _ =>
    by_cases hgf : g = f
    · subst hgf; exact .inr ⟨t, resume_executes hpc g⟩
    · exact .inl (set fun h => absurd h hgf)
  | @begin t x cb hpc _ _ _ =>
    by_cases hgf : s.s_fiber_id = f
    · subst hgf; exact .inr ⟨t, begin_executes hpc⟩
    · refine .inl ?_
      show Function.update (Function.update s.saved _ _) _ _ f = _
      rw [Function.update_of_ne (Ne.symm hgf), Function.update_of_ne (Ne.symm hgf), hr]
  | swap _ => exact .inl (set fun _ => rfl)
  | _ => exact .inl hr

/-- A new fiber is READY with its context made, or already executed. -/
theorem Step.fresh (h : Step c s a s') (hn : s.s_fiber_id < s'.s_fiber_id) :
    (s'.m_state s.s_fiber_id = .READY ∧ s'.saved s.s_fiber_id = true) ∨
      ∃ t, (s'.pc t).executes s.s_fiber_id = true := by
  cases h with
  | spawn _ => exact .inl ⟨Function.update_self _ _ _, Function.update_self _ _ _⟩
  | @begin t x cb hpc _ _ _ => exact .inr ⟨t, (begin_executes hpc).1⟩
  | _ => exact absurd hn (lt_irrefl _)

/-- A thread enters the switch of `yield` with its fiber READY. -/
theorem Step.switches (h : Step c s a s') {t : Tid} {f : FiberId} (hs : s'.pc t = .switching f) :
    s.pc t = .switching f ∨ s'.m_state f = .READY := by
  obtain hsame | ⟨pc, pc', hpc, hpc', hmv⟩ := h.move t
  · rw [hsame] at hs; exact .inl hs
  · rw [hs] at hpc'
    subst hpc'
    cases hmv with
    | yield => cases h with
      | yield hrun _ =>
        rw [hpc] at hrun
        cases hrun
        exact .inr (Function.update_self _ _ _)

/-- A thread leaves a fiber with its context saved, or at its end, its right used up. -/
theorem Step.stops (hm : ∀ t, s.pc t ≠ .loop → t ∈ c.threads) (h : Step c s a s') {t : Tid} {f : FiberId}
    (he : (s.pc t).executes f = true) (hn : (s'.pc t).executes f = false) :
    (s.pc t = .switching f ∧ s'.m_state f = s.m_state f ∧ s'.saved f = true) ∨
      Handover.rights c s' f + 1 = Handover.rights c s f := by
  obtain hsame | ⟨pc, pc', hpc, hpc', hmv⟩ := h.move t
  · rw [hsame, he] at hn; cases hn
  · rw [hpc] at he
    rw [hpc'] at hn
    cases hmv with
    | publish => exact absurd (he.symm.trans hn) nofun
    | yield => exact absurd (he.symm.trans hn) nofun
    | swap =>
      obtain rfl := beq_iff_eq.mp he
      cases h with
      | swap hsw =>
        rw [hpc] at hsw
        cases hsw
        exact .inl ⟨hpc, rfl, Function.update_self _ _ _⟩
    | @finish _ g =>
      have hmove := rights_goto (s := s) (hm t (by rw [hpc]; exact nofun)) .loop f
      rw [hpc, right_unpublished, show (g == f) = true from he] at hmove
      cases h
      exact .inr hmove
    | _ => cases he

end

/-! ## The invariant -/

/-- One fiber: it has at most one right to run and one thread; whoever is about to resume
    it finds it executed by nobody, and who executes it is the only one to dequeue it. -/
structure FiberInv (c : Config) (s : State) (f : FiberId) : Prop where
  right : rights c s f ≤ 1
  once : ∀ t u, (s.pc t).executes f = true → (s.pc u).executes f = true → t = u
  start : ∀ t x, s.pc t = .start x → x.m_fiber = some f → ∀ u, (s.pc u).executes f = false
  queued : ∀ x ∈ s.m_tasks, x.m_fiber = some f → ∀ t, (s.pc t).executes f = true →
    ∀ u ∈ c.threads, x.eligible u = true → u = t
  switching : ∀ t, s.pc t = .switching f → s.m_state f = .READY
  waiting : (∀ t, (s.pc t).executes f = false) → 0 < rights c s f → s.m_state f = .READY ∧ s.saved f = true

structure Inv (c : Config) (s : State) : Prop where
  members : ∀ t, s.pc t ≠ .loop → t ∈ c.threads
  fiber : ∀ f, FiberInv c s f
  fresh : ∀ f, s.s_fiber_id ≤ f → rights c s f = 0 ∧ ∀ t, (s.pc t).executes f = false

theorem Start.inv {c : Config} {s : State} (h : Start s) : Inv c s := by
  have hr (f : FiberId) : rights c s f = 0 := by
    have hc : countOn c.threads (·.right c f) s.pc = 0 := countOn_eq_zero.mpr fun t _ => by rw [h.loop t]; rfl
    simp [rights, h.m_tasks, h.events, h.timers, hc]
  have he (f : FiberId) (t : Tid) : (s.pc t).executes f = false := by rw [h.loop t]; rfl
  refine ⟨fun t ht => absurd (h.loop t) ht, fun f => ⟨?_, ?_, ?_, ?_, ?_, ?_⟩, fun f _ => ⟨hr f, he f⟩⟩
  · rw [hr f]; exact Nat.zero_le _
  · intro t u ht
    rw [he f t] at ht; cases ht
  · intro t x hx
    rw [h.loop t] at hx; cases hx
  · intro x hx
    rw [h.m_tasks] at hx; cases hx
  · intro t hs
    rw [h.loop t] at hs; cases hs
  · intro _ hpos
    rw [hr f] at hpos; cases hpos

theorem start_right {c : Config} {s : State} {t : Tid} {x : ScheduleTask} {f : FiberId} (ht : s.pc t = .start x)
    (hf : x.m_fiber = some f) : (s.pc t).right c f = true := by
  rw [ht]
  simp [Pc.right, target_fiber hf]

theorem Inv.safe {c : Config} {s : State} (hi : Inv c s) : Safe c s := by
  refine ⟨?_, ?_, fun t u f => (hi.fiber f).once t u⟩
  · intro t ht hloop x hx f hf
    obtain ⟨pre, post, hq, -, hel, -⟩ := scan_some hx
    have hmem : x ∈ s.m_tasks := by simp [hq]
    have hfree (u : Tid) : (s.pc u).executes f = false := by
      by_contra hu
      have hu := eq_true_of_ne_false hu
      obtain rfl := (hi.fiber f).queued x hmem hf u hu t ht hel
      rw [hloop] at hu; cases hu
    exact ((hi.fiber f).waiting hfree (rights_pos_queued hmem hf)).1
  · intro t x f hpc hf
    have hfree := (hi.fiber f).start t x hpc hf
    exact ((hi.fiber f).waiting hfree (rights_pos_right hi.members (start_right hpc hf))).2

/-- A fiber whose right is at a thread is not new. -/
theorem Inv.not_fresh_right {c : Config} {s : State} (hi : Inv c s) {t : Tid} {f : FiberId}
    (ht : (s.pc t).right c f = true) (hf : f = s.s_fiber_id) : False :=
  Nat.ne_of_gt (rights_pos_right hi.members ht) (hi.fresh f hf.ge).1

/-- Nor is one in the queue. -/
theorem Inv.not_fresh_queued {c : Config} {s : State} (hi : Inv c s) {x : ScheduleTask} {f : FiberId}
    (hx : x ∈ s.m_tasks) (hfx : x.m_fiber = some f) (hf : f = s.s_fiber_id) : False :=
  Nat.ne_of_gt (rights_pos_queued hx hfx) (hi.fresh f hf.ge).1

/-! ## One step keeps it -/

section
variable {c : Config} {s s' : State} {a : Act}

/-- Who executes a fiber after a step did so before, or nobody did. -/
theorem step_executes (hi : Inv c s) (h : Step c s a s') {t : Tid} {f : FiberId} (he : (s'.pc t).executes f = true) :
    (s.pc t).executes f = true ∨ ((a = .resume t ∨ a = .begin t) ∧ ∀ u, (s.pc u).executes f = false) := by
  rcases h.executes he with he | ⟨ha, x, hpc, hf⟩ | ⟨ha, hf⟩
  · exact .inl he
  · exact .inr ⟨.inl ha, (hi.fiber f).start t x hpc hf⟩
  · exact .inr ⟨.inr ha, (hi.fresh f hf.ge).2⟩

theorem step_right (hi : Inv c s) (h : Step c s a s') (f : FiberId) : rights c s' f ≤ 1 := by
  have hle := h.rights hi.members f
  have h1 := (hi.fiber f).right
  split at hle
  · rename_i hf
    have := (hi.fresh f hf.1.ge).1
    omega
  · omega

theorem step_once (hi : Inv c s) (h : Step c s a s') (f : FiberId) (t u : Tid) (ht : (s'.pc t).executes f = true)
    (hu : (s'.pc u).executes f = true) : t = u := by
  rcases step_executes hi h ht with ht | ⟨hat, hnone⟩
  · rcases step_executes hi h hu with hu | ⟨-, hnone⟩
    · exact (hi.fiber f).once t u ht hu
    · rw [hnone t] at ht; cases ht
  · rcases step_executes hi h hu with hu | ⟨hau, -⟩
    · rw [hnone u] at hu; cases hu
    · rcases hat with rfl | rfl <;> rcases hau with hau | hau <;> cases hau <;> rfl

theorem step_start (hi : Inv c s) (h : Step c s a s') (f : FiberId) (t : Tid) (x : ScheduleTask)
    (hx : s'.pc t = .start x) (hf : x.m_fiber = some f) (u : Tid) : (s'.pc u).executes f = false := by
  by_contra hu
  have hu := eq_true_of_ne_false hu
  rcases h.start hx with hpc | ⟨ht, hloop, hq, hel⟩
  · have hright := start_right (c := c) hpc hf
    rcases h.executes hu with hu' | ⟨-, y, hpcu, hfu⟩ | ⟨-, hnew⟩
    · rw [(hi.fiber f).start t x hpc hf u] at hu'; cases hu'
    · obtain rfl := right_unique hi.members (hi.fiber f).right hright (start_right hpcu hfu)
      rw [hx] at hu; cases hu
    · exact hi.not_fresh_right hright hnew
  · rcases h.executes hu with hu' | ⟨-, y, hpcu, hfu⟩ | ⟨-, hnew⟩
    · obtain rfl := (hi.fiber f).queued x hq hf u hu' t ht hel
      rw [hloop] at hu'; cases hu'
    · exact right_notQueued hi.members (hi.fiber f).right (start_right hpcu hfu) hq hf
    · exact hi.not_fresh_queued hq hf hnew

theorem step_queued (hi : Inv c s) (hg : Orderly c s a) (h : Step c s a s') (f : FiberId) (x : ScheduleTask)
    (hx : x ∈ s'.m_tasks) (hf : x.m_fiber = some f) (t : Tid) (ht : (s'.pc t).executes f = true) (u : Tid)
    (hu : u ∈ c.threads) (hel : x.eligible u = true) : u = t := by
  rcases h.executes ht with ht' | ⟨rfl, y, hpc, hfy⟩ | ⟨rfl, hnew⟩
  · rcases h.queued hg hx hf with hq | hnew | hconf
    · exact (hi.fiber f).queued x hq hf t ht' u hu hel
    · rw [(hi.fresh f hnew.ge).2 t] at ht'; cases ht'
    · exact hconf t ht' u hu hel
  · rw [h.resume_m_tasks] at hx
    exact absurd hf (right_notQueued hi.members (hi.fiber f).right (start_right hpc hfy) hx)
  · rw [h.begin_m_tasks.1] at hx
    exact (hi.not_fresh_queued hx hf hnew).elim

theorem step_switching (hi : Inv c s) (h : Step c s a s') (f : FiberId) (t : Tid) (hs : s'.pc t = .switching f) :
    s'.m_state f = .READY := by
  rcases h.switches hs with hpc | hr
  · have he' : (s'.pc t).executes f = true := by rw [hs]; exact beq_self_eq_true f
    have he : (s.pc t).executes f = true := by rw [hpc]; exact beq_self_eq_true f
    rcases h.ready ((hi.fiber f).switching t hpc) with hr | ⟨u, hu', hu⟩ | ⟨u, hu⟩
    · exact hr
    · obtain rfl := step_once hi h f t u he' hu'
      rw [he] at hu; cases hu
    · obtain rfl := (hi.fiber f).once t u he (by rw [hu]; exact beq_self_eq_true f)
      rw [hpc] at hu; cases hu
  · exact hr

theorem step_waiting (hi : Inv c s) (h : Step c s a s') (f : FiberId) (hfree : ∀ t, (s'.pc t).executes f = false)
    (hpos : 0 < rights c s' f) : s'.m_state f = .READY ∧ s'.saved f = true := by
  by_cases hex : ∃ t, (s.pc t).executes f = true
  · obtain ⟨t, ht⟩ := hex
    rcases h.stops hi.members ht (hfree t) with ⟨hpc, hst, hsv⟩ | hend
    · exact ⟨by rw [hst]; exact (hi.fiber f).switching t hpc, hsv⟩
    · have := (hi.fiber f).right
      omega
  · have hnone (t : Tid) : (s.pc t).executes f = false := eq_false_of_ne_true fun ht => hex ⟨t, ht⟩
    have newly : ¬ ∃ t, (s'.pc t).executes f = true ∧ (s.pc t).executes f = false := fun ⟨t, ht, _⟩ => by
      rw [hfree t] at ht; cases ht
    have hle := h.rights hi.members f
    split at hle
    · rename_i hnew
      obtain ⟨rfl, hgrow⟩ := hnew
      exact (h.fresh hgrow).resolve_right fun ⟨t, ht⟩ => by rw [hfree t] at ht; cases ht
    · obtain ⟨hr, hsv⟩ := (hi.fiber f).waiting hnone (by omega)
      refine ⟨?_, (h.saved hsv).resolve_right newly⟩
      rcases h.ready hr with hr | hex | ⟨t, ht⟩
      · exact hr
      · exact absurd hex newly
      · have := hnone t
        rw [ht] at this
        exact absurd this (by simp [Pc.executes])

theorem step_fresh (hi : Inv c s) (h : Step c s a s') (f : FiberId) (hf : s'.s_fiber_id ≤ f) :
    rights c s' f = 0 ∧ ∀ t, (s'.pc t).executes f = false := by
  have hid := h.s_fiber_id
  obtain ⟨h0, hnone⟩ := hi.fresh f (hid.trans hf)
  constructor
  · have hle := h.rights hi.members f
    rw [if_neg fun ⟨he, hgrow⟩ => absurd (hf.trans he.le) (Nat.not_le.mpr hgrow)] at hle
    omega
  · intro t
    by_contra ht
    rcases h.executes (eq_true_of_ne_false ht) with ht | ⟨-, x, hpc, hfx⟩ | ⟨rfl, hnew⟩
    · rw [hnone t] at ht; cases ht
    · exact Nat.ne_of_gt (rights_pos_right hi.members (start_right hpc hfx)) h0
    · rw [h.begin_m_tasks.2, hnew] at hf
      exact Nat.not_succ_le_self _ hf

theorem step_inv (hi : Inv c s) (hg : Orderly c s a) (h : Step c s a s') : Inv c s' where
  members _ := h.members hi.members
  fiber f := ⟨step_right hi h f, step_once hi h f, step_start hi h f, step_queued hi hg h f, step_switching hi h f,
    step_waiting hi h f⟩
  fresh := step_fresh hi h

end

/-- In every run whose steps are all `Orderly`, the READY assertion of `run` never fails,
    no thread resumes a fiber before its context is saved, and no two execute one. -/
theorem handover_safe {c : Config} {s : State} (h : Lts.Reach Start (Lts.guarded (Step c) (Orderly c)) s) : Safe c s :=
  (h.inv (I := Inv c) (fun _ h0 => h0.inv) fun _ _ _ hi hst => step_inv hi hst.1 hst.2).safe

/-! ## Runs -/

def State.empty : State := ⟨[], [], [], 0, fun _ => .READY, fun _ => false, fun _ => .loop⟩

theorem empty_start : Start State.empty := ⟨rfl, rfl, rfl, fun _ => rfl⟩

def twoThreads : Config := ⟨{1, 2}, fun _ => none⟩

/-- The fiber schedules itself on its own thread, yields, and is dequeued there. -/
theorem handover_safe_pinned : ∃ s, s.pc 1 = .start (.ofFiber 0 (some 1)) ∧ Safe twoThreads s := by
  have h0 : Lts.Reach Start (Lts.guarded (Step twoThreads) (Orderly twoThreads)) _ := .init empty_start
  have h1 := h0.stepIf (.spawn none) trivial
  have h2 := h1.stepIf (.dequeue (t := 1) (by simp [twoThreads]) rfl rfl fun _ h => by cases h; rfl) trivial
  have h3 := h2.stepIf (.resume (t := 1) rfl rfl rfl) trivial
  have h4 := h3.stepIf (.schedule (t := 1) (some 1) rfl) fun f p hpc t ht u _ hel => by
    cases hpc
    have ht1 : t = 1 := by
      by_contra hne
      simp [State.resume, State.dequeue, State.goto, State.setState, State.setSaved, State.newFiber, State.schedule,
        State.empty, Pc.executes, hne] at ht
    rcases ScheduleTask.eligible_iff.mp hel with hel | hel
    · cases hel
    · rw [ht1]; exact (Option.some.inj hel).symm
  have h5 := h4.stepIf (.yield (t := 1) rfl rfl) trivial
  have h6 := h5.stepIf (.swap (t := 1) rfl) trivial
  have h7 := h6.stepIf (.dequeue (t := 1) (by simp [twoThreads]) rfl rfl fun _ h => by cases h; rfl) trivial
  exact ⟨_, rfl, handover_safe h7⟩

/-- The fiber schedules itself as `test_fiber1` does. Before it yields, the other thread's
    scan finds it RUNNING; after it became READY and before its context is saved, the
    other thread resumes it, and both execute it. -/
theorem running_fiber_dequeued :
    (∃ s, Reach twoThreads s ∧ ¬ Safe twoThreads s ∧ s.pc 2 = .loop ∧ s.m_state 0 = .RUNNING ∧
      (scan (ScheduleTask.eligible 2) s.m_tasks).task = some (.ofFiber 0 none)) ∧
    ∃ s, Reach twoThreads s ∧ ¬ Safe twoThreads s ∧ (s.pc 1).executes 0 = true ∧ (s.pc 2).executes 0 = true := by
  have h0 : Reach twoThreads _ := .init empty_start
  have h1 := h0.step _ (.spawn none)
  have h2 := h1.step _ (.dequeue (t := 1) (by simp [twoThreads]) rfl rfl fun _ h => by cases h; rfl)
  have h3 := h2.step _ (.resume (t := 1) rfl rfl rfl)
  have h4 := h3.step _ (.schedule (t := 1) none rfl)
  have h5 := h4.step _ (.yield (t := 1) rfl rfl)
  have h6 := h5.step _ (.dequeue (t := 2) (by simp [twoThreads]) rfl rfl fun _ h => by cases h; rfl)
  have h7 := h6.step _ (.resume (t := 2) rfl rfl rfl)
  refine ⟨⟨_, h4, ?_, rfl, rfl, rfl⟩, _, h7, ?_, rfl, rfl⟩
  · intro hs
    have := hs.ready 2 (by simp [twoThreads]) rfl _ rfl 0 rfl
    cases this
  · intro hs
    have := hs.once 1 2 0 rfl rfl
    cases this

end Sylar.Handover
