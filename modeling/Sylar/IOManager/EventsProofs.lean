/-
  Sylar.IOManager.EventsProofs — the invariants of the event table (see
  `Sylar.IOManager.Events`).

  Actors. Any thread may call `addEvent` (with a current scheduler), `delEvent`,
  `cancelEvent` and `cancelAll`, each atomic under the descriptor's mutex, and the table
  may grow; an idle thread handles entries of an earlier epoll_wait, whose events may
  since have been armed or disarmed by others, so its entry carries any events at all.

  Proved, over every run that no assertion has ended:
  - `inv`: m_pendingEventCount is the number of armed bits, an armed event has a
    scheduler and exactly one of fiber and callback, an unarmed one has an empty context.
  - `trigger_assertion`: the assertion of `triggerEvent` fails exactly when an idle
    thread handles an entry that reports an armed and an unarmed event of one descriptor
    (`Partial`); no other operation fails it.
-/

import Sylar.Lib.Except
import Sylar.Lib.Lts
import Sylar.IOManager.Events
import Mathlib.Algebra.BigOperators.Group.List.Basic

namespace Sylar

/-! ## Event sets -/

namespace Event

@[simp] theorem and_read (a b : Event) : (a &&& b).read = (a.read && b.read) := rfl
@[simp] theorem and_write (a b : Event) : (a &&& b).write = (a.write && b.write) := rfl
@[simp] theorem or_read (a b : Event) : (a ||| b).read = (a.read || b.read) := rfl
@[simp] theorem or_write (a b : Event) : (a ||| b).write = (a.write || b.write) := rfl
@[simp] theorem not_read (a : Event) : (~~~a).read = !a.read := rfl
@[simp] theorem not_write (a : Event) : (~~~a).write = !a.write := rfl
@[simp] theorem read_READ : READ.read = true := rfl
@[simp] theorem write_READ : READ.write = false := rfl
@[simp] theorem read_WRITE : WRITE.read = false := rfl
@[simp] theorem write_WRITE : WRITE.write = true := rfl

theorem READ_ne_WRITE : READ ≠ WRITE := by decide

/-- The events `getEventContext` knows. -/
def Single (e : Event) : Prop := e = READ ∨ e = WRITE

theorem single_READ : READ.Single := .inl rfl
theorem single_WRITE : WRITE.Single := .inr rfl

theorem Single.any_and {e : Event} (h : e.Single) (a b : Event) :
    (a &&& b &&& e).any = ((a &&& e).any && (b &&& e).any) := by
  rcases h with rfl | rfl <;> simp [any]

theorem Single.any_and_not {e : Event} (h : e.Single) (a b : Event) :
    (a &&& ~~~b &&& e).any = ((a &&& e).any && !(b &&& e).any) := by
  rcases h with rfl | rfl <;> simp [any]

end Event

/-! ## One descriptor -/

/-- What a context holds for an event, by whether the event is armed. -/
def EventContext.Wf (armed : Bool) (ctx : EventContext) : Prop :=
  if armed then ctx.m_scheduler.isSome = true ∧ ctx.m_fiber.isSome = !ctx.m_cb.isSome else ctx = .reset

namespace FdContext

def Wf (c : FdContext) : Prop := c.m_readCtx.Wf c.m_events.read ∧ c.m_writeCtx.Wf c.m_events.write

/-- The number of armed bits. -/
def armedBits (c : FdContext) : Int := (if c.m_events.read then 1 else 0) + if c.m_events.write then 1 else 0

/-- `c` without `event`: the bit cleared and its context reset. -/
def disarm (c : FdContext) (event : Event) : FdContext :=
  ({ c with m_events := c.m_events &&& ~~~event }).setEventContext event .reset

theorem fresh_wf (fd : Nat) : (fresh fd).Wf := ⟨rfl, rfl⟩

theorem fresh_armedBits (fd : Nat) : (fresh fd).armedBits = 0 := rfl

theorem getEventContext_ok {c : FdContext} {event : Event} {ctx : EventContext}
    (h : c.getEventContext event = .ok ctx) :
    (event = .READ ∧ ctx = c.m_readCtx) ∨ (event = .WRITE ∧ ctx = c.m_writeCtx) := by
  unfold getEventContext at h
  split at h
  · cases h; exact .inl ⟨‹_›, rfl⟩
  · split at h
    · cases h; exact .inr ⟨‹_›, rfl⟩
    · cases h

theorem getEventContext_single {c : FdContext} {event : Event} (h : event.Single) :
    ∃ ctx, c.getEventContext event = .ok ctx := by
  rcases h with rfl | rfl
  · exact ⟨_, rfl⟩
  · exact ⟨_, rfl⟩

theorem getEventContext_error {c : FdContext} {event : Event} {a : Abort}
    (h : c.getEventContext event = .error a) : a = .getEventContext := by
  unfold getEventContext at h
  split at h
  · cases h
  · split at h <;> cases h; rfl

/-- The context of a single armed event is set: a scheduler, and something to schedule. -/
theorem armed_context {c : FdContext} (hw : c.Wf) {event : Event} (ha : (c.m_events &&& event).any = true)
    {ctx : EventContext} (hc : c.getEventContext event = .ok ctx) :
    (∃ scheduler, ctx.m_scheduler = some scheduler) ∧ ctx.task.nonEmpty = true := by
  have key : ∀ x : EventContext, x.Wf true → (∃ n, x.m_scheduler = some n) ∧ x.task.nonEmpty = true := by
    intro ⟨s, f, cb⟩ ⟨hs, hf⟩
    refine ⟨Option.isSome_iff_exists.mp hs, ?_⟩
    cases cb with
    | some k => rfl
    | none => simpa [EventContext.task, ScheduleTask.nonEmpty] using hf
  rcases getEventContext_ok hc with ⟨rfl, rfl⟩ | ⟨rfl, rfl⟩
  · have hr : c.m_events.read = true := by simpa [Event.any] using ha
    exact key _ (by simpa [hr] using hw.1)
  · have hr : c.m_events.write = true := by simpa [Event.any] using ha
    exact key _ (by simpa [hr] using hw.2)

theorem disarm_wf {c : FdContext} (hw : c.Wf) {event : Event} (he : event.Single) : (c.disarm event).Wf := by
  rcases he with rfl | rfl
  · exact ⟨by simp [disarm, setEventContext, EventContext.Wf], by simpa [disarm, setEventContext] using hw.2⟩
  · exact ⟨by simpa [disarm, setEventContext, Event.READ_ne_WRITE.symm] using hw.1,
      by simp [disarm, setEventContext, EventContext.Wf, Event.READ_ne_WRITE.symm]⟩

theorem disarm_events (c : FdContext) (event : Event) : (c.disarm event).m_events = c.m_events &&& ~~~event := by
  unfold disarm setEventContext; split <;> rfl

theorem disarm_armedBits (c : FdContext) {event : Event} (he : event.Single)
    (ha : (c.m_events &&& event).any = true) : (c.disarm event).armedBits = c.armedBits - 1 := by
  unfold armedBits
  rw [disarm_events]
  rcases he with rfl | rfl
  · have hr : c.m_events.read = true := by simpa [Event.any] using ha
    simp [hr]
  · have hr : c.m_events.write = true := by simpa [Event.any] using ha
    simp [hr]

/-- `triggerEvent` on an armed event: the context goes out as a task. -/
theorem triggerEvent_armed {c : FdContext} (hw : c.Wf) {event : Event} (he : event.Single)
    (ha : (c.m_events &&& event).any = true) :
    ∃ ctx scheduler, c.getEventContext event = .ok ctx ∧ ctx.m_scheduler = some scheduler ∧
      ctx.task.nonEmpty = true ∧ c.triggerEvent event = .ok (c.disarm event, scheduler, ctx.task) := by
  obtain ⟨ctx, hctx⟩ := getEventContext_single (c := c) he
  obtain ⟨⟨sch, hs⟩, ht⟩ := armed_context hw ha hctx
  refine ⟨ctx, sch, hctx, hs, ht, ?_⟩
  have hctx' : ({ c with m_events := c.m_events &&& ~~~event }).getEventContext event = .ok ctx := hctx
  simp only [triggerEvent, SYLAR_ASSERT, ha, if_true, Except.ok_bind_eq, hctx', hs]
  rfl

theorem triggerEvent_unarmed {c : FdContext} {event : Event} (ha : (c.m_events &&& event).any = false) :
    c.triggerEvent event = .error .triggerUnarmed := by
  simp only [triggerEvent, SYLAR_ASSERT, ha]; rfl

end FdContext

/-! ## The table -/

namespace IOManager

/-- The number of armed bits in the table. -/
def armedTotal (s : IOManager) : Int := (s.m_fdContexts.map FdContext.armedBits).sum

structure Inv (s : IOManager) : Prop where
  wf : ∀ c ∈ s.m_fdContexts, c.Wf
  count : s.m_pendingEventCount = s.armedTotal

theorem fdContext_ok {s : IOManager} {fd : Nat} {c : FdContext} :
    s.fdContext fd = .ok c ↔ s.m_fdContexts[fd]? = some c := by
  unfold fdContext
  cases s.m_fdContexts[fd]? <;> simp

theorem fdContext_error {s : IOManager} {fd : Nat} {a : Abort} (h : s.fdContext fd = .error a) :
    a = .outOfBounds := by
  unfold fdContext at h
  cases hc : s.m_fdContexts[fd]? with
  | some c => simp [hc] at h
  | none => simpa [hc] using h.symm

theorem fdContext_of_set {s t : IOManager} {fd : Nat} {c c' : FdContext} (hc : s.fdContext fd = .ok c)
    (h : t.m_fdContexts = s.m_fdContexts.set fd c') : t.fdContext fd = .ok c' := by
  rw [fdContext_ok] at hc ⊢
  obtain ⟨hlt, -⟩ := List.getElem?_eq_some_iff.mp hc
  simp [h, hlt]

/-- One context changes, and the count with its armed bits. -/
theorem Inv.set {s : IOManager} (h : s.Inv) {fd : Nat} {c c' : FdContext} (hc : s.fdContext fd = .ok c)
    (hw : c'.Wf) {t : IOManager} (hctx : t.m_fdContexts = s.m_fdContexts.set fd c')
    (hn : t.m_pendingEventCount = s.m_pendingEventCount + (c'.armedBits - c.armedBits)) : t.Inv := by
  obtain ⟨hlt, hget⟩ := List.getElem?_eq_some_iff.mp (fdContext_ok.mp hc)
  constructor
  · intro x hx
    rw [hctx] at hx
    rcases List.mem_or_eq_of_mem_set hx with hx | rfl
    · exact h.wf x hx
    · exact hw
  · have hsum : armedTotal t = armedTotal s + (c'.armedBits - c.armedBits) := by
      unfold armedTotal
      rw [hctx, List.map_set, List.sum_set']
      simp only [List.length_map, hlt, dif_pos, List.getElem_map, hget]
      omega
    rw [hn, h.count, hsum]

theorem contextResize_contexts (s : IOManager) {n : Nat} (h : s.m_fdContexts.length ≤ n) :
    (s.contextResize n).m_fdContexts = s.m_fdContexts ++
      (List.range' s.m_fdContexts.length (n - s.m_fdContexts.length)).map FdContext.fresh := by
  simp [contextResize, resizeFill, List.take_of_length_le h]

theorem contextResize_inv {s : IOManager} (hi : s.Inv) {n : Nat} (h : s.m_fdContexts.length ≤ n) :
    (s.contextResize n).Inv := by
  constructor
  · intro c hc
    rw [contextResize_contexts s h] at hc
    rcases List.mem_append.mp hc with hc | hc
    · exact hi.wf c hc
    · obtain ⟨fd, -, rfl⟩ := List.mem_map.mp hc
      exact FdContext.fresh_wf fd
  · have hz : ((List.range' s.m_fdContexts.length (n - s.m_fdContexts.length)).map
        (FdContext.armedBits ∘ FdContext.fresh)).sum = 0 :=
      List.sum_eq_zero fun x hx => by
        obtain ⟨fd, -, rfl⟩ := List.mem_map.mp hx
        exact FdContext.fresh_armedBits fd
    have : (s.contextResize n).armedTotal = s.armedTotal := by
      unfold armedTotal
      rw [contextResize_contexts s h, List.map_append, List.sum_append, List.map_map, hz, Int.add_zero]
    rw [this, ← hi.count]; rfl

/-! ## What an operation may change -/

/-- `t` is `s` with the context of `fd` disarmed for `event` and its task scheduled. -/
structure Triggered (s : IOManager) (fd : Nat) (c : FdContext) (event : Event) (t : IOManager) : Prop where
  contexts : t.m_fdContexts = s.m_fdContexts.set fd (c.disarm event)
  count : t.m_pendingEventCount = s.m_pendingEventCount - 1
  epoll : t.epoll = s.epoll
  scheduled : ∃ ctx scheduler, c.getEventContext event = .ok ctx ∧ ctx.m_scheduler = some scheduler ∧
    t.scheduled = s.scheduled ++ [(scheduler, ctx.task)]

theorem Triggered.inv {s t : IOManager} {fd : Nat} {c : FdContext} {event : Event} (h : Triggered s fd c event t)
    (hi : s.Inv) (hc : s.fdContext fd = .ok c) (he : event.Single) (ha : (c.m_events &&& event).any = true) :
    t.Inv :=
  hi.set hc (FdContext.disarm_wf (hi.wf c (List.mem_of_getElem? (fdContext_ok.mp hc))) he) h.contexts
    (by rw [h.count, FdContext.disarm_armedBits c he ha]; omega)

/-- `triggerEvent` on an armed event succeeds. -/
theorem trigger_armed {s : IOManager} {fd : Nat} {c : FdContext} (hc : s.fdContext fd = .ok c) (hw : c.Wf)
    {event : Event} (he : event.Single) (ha : (c.m_events &&& event).any = true) :
    ∃ t, s.trigger fd event = .ok t ∧ Triggered s fd c event t := by
  obtain ⟨ctx, sch, hctx, hs, ht, htr⟩ := FdContext.triggerEvent_armed hw he ha
  refine ⟨_, by simp only [trigger, hc, Except.ok_bind_eq, htr, ht, if_true]; rfl, ?_⟩
  exact ⟨rfl, rfl, rfl, ctx, sch, hctx, hs, rfl⟩

theorem trigger_unarmed {s : IOManager} {fd : Nat} {c : FdContext} (hc : s.fdContext fd = .ok c)
    {event : Event} (ha : (c.m_events &&& event).any = false) :
    s.trigger fd event = .error .triggerUnarmed := by
  simp only [trigger, hc, Except.ok_bind_eq, FdContext.triggerEvent_unarmed ha]; rfl

theorem assert_ok {p : Bool} {a : Abort} {u : Unit} : SYLAR_ASSERT p a = .ok u ↔ p = true := by
  unfold SYLAR_ASSERT; cases p <;> simp

theorem assert_error {p : Bool} {a b : Abort} : SYLAR_ASSERT p a = .error b ↔ p = false ∧ b = a := by
  unfold SYLAR_ASSERT; cases p <;> simp [eq_comm]

/-- A `triggerEvent` for two bits at once stops in `getEventContext`. -/
theorem trigger_not_single {s : IOManager} {fd : Nat} {c : FdContext} (hc : s.fdContext fd = .ok c) {event : Event}
    (ha : (c.m_events &&& event).any = true) (he : ¬ event.Single) :
    s.trigger fd event = .error .getEventContext := by
  have hne : event ≠ .READ ∧ event ≠ .WRITE := not_or.mp he
  have hg : ({ c with m_events := c.m_events &&& ~~~event }).getEventContext event = .error .getEventContext := by
    simp [FdContext.getEventContext, hne]
  simp only [trigger, hc, Except.ok_bind_eq, FdContext.triggerEvent, SYLAR_ASSERT, ha, if_true, hg,
    Except.error_bind_eq]

/-- A `triggerEvent` that returns was for a single armed event. -/
theorem trigger_ok {s t : IOManager} (hi : s.Inv) {fd : Nat} {event : Event} (h : s.trigger fd event = .ok t) :
    ∃ c, s.fdContext fd = .ok c ∧ event.Single ∧ (c.m_events &&& event).any = true ∧ Triggered s fd c event t := by
  obtain ⟨c, hc, -⟩ := Except.bind_eq_ok.mp h
  have hw := hi.wf c (List.mem_of_getElem? (fdContext_ok.mp hc))
  by_cases ha : (c.m_events &&& event).any = true
  · by_cases he : event.Single
    · obtain ⟨u, hu, htr⟩ := trigger_armed hc hw he ha
      rw [h] at hu; cases hu
      exact ⟨c, hc, he, ha, htr⟩
    · rw [trigger_not_single hc ha he] at h; cases h
  · rw [trigger_unarmed hc (by simpa using ha)] at h; cases h

theorem trigger_inv {s t : IOManager} (hi : s.Inv) {fd : Nat} {event : Event} (h : s.trigger fd event = .ok t) :
    t.Inv := by
  obtain ⟨c, hc, he, ha, htr⟩ := trigger_ok hi h
  exact htr.inv hi hc he ha

/-- The only failures of `triggerEvent` on an armed event are not its assertion. -/
theorem trigger_armed_error {s : IOManager} (hi : s.Inv) {fd : Nat} {c : FdContext} (hc : s.fdContext fd = .ok c)
    {event : Event} (ha : (c.m_events &&& event).any = true) {a : Abort} (h : s.trigger fd event = .error a) :
    a = .getEventContext := by
  by_cases he : event.Single
  · obtain ⟨t, ht, -⟩ := trigger_armed hc (hi.wf c (List.mem_of_getElem? (fdContext_ok.mp hc))) he ha
    rw [h] at ht; cases ht
  · rw [trigger_not_single hc ha he] at h; cases h; rfl

/-! ## Each operation keeps the invariant -/

theorem leave_inv {s : IOManager} (hi : s.Inv) (fd : Nat) (left : Event) : (s.leave fd left).Inv := ⟨hi.wf, hi.count⟩

theorem addEvent_inv {s t : IOManager} (hi : s.Inv) {self : Caller} (hs : self.scheduler.isSome = true) {fd : Nat}
    {event : Event} {cb : Option CbId} {ctl b : Bool} (h : s.addEvent self fd event cb ctl = .ok (b, t)) : t.Inv := by
  obtain ⟨c, hc, h⟩ := Except.bind_eq_ok.mp h
  obtain ⟨_, ha, h⟩ := Except.bind_eq_ok.mp h
  rw [assert_ok, Bool.not_eq_true'] at ha
  cases ctl with
  | false => cases h; exact hi
  | true =>
    simp only [Bool.not_true, Bool.false_eq_true, if_false] at h
    obtain ⟨ctx, hctx, h⟩ := Except.bind_eq_ok.mp h
    obtain ⟨_, -, h⟩ := Except.bind_eq_ok.mp h
    obtain ⟨_, -, h⟩ := Except.bind_eq_ok.mp h
    cases h
    have hw := hi.wf c (List.mem_of_getElem? (fdContext_ok.mp hc))
    have hnew : EventContext.Wf true
        { m_scheduler := self.scheduler, m_fiber := if cb.isSome then none else some self.fiber, m_cb := cb } :=
      ⟨hs, by cases cb <;> rfl⟩
    rcases FdContext.getEventContext_ok hctx with ⟨rfl, -⟩ | ⟨rfl, -⟩
    · have hr : c.m_events.read = false := by simpa [Event.any] using ha
      refine hi.set hc ⟨?_, ?_⟩ rfl ?_
      · simpa [FdContext.setEventContext] using hnew
      · simpa [FdContext.setEventContext] using hw.2
      · simp [FdContext.setEventContext, FdContext.armedBits, hr]
    · have hr : c.m_events.write = false := by simpa [Event.any] using ha
      refine hi.set hc ⟨?_, ?_⟩ rfl ?_
      · simpa [FdContext.setEventContext, Event.READ_ne_WRITE.symm] using hw.1
      · simpa [FdContext.setEventContext, Event.READ_ne_WRITE.symm] using hnew
      · simp [FdContext.setEventContext, Event.READ_ne_WRITE.symm, FdContext.armedBits, hr]

theorem delEvent_inv {s t : IOManager} (hi : s.Inv) {fd : Nat} {event : Event} {ctl b : Bool}
    (h : s.delEvent fd event ctl = .ok (b, t)) : t.Inv := by
  unfold delEvent at h
  split at h
  · cases h; exact hi
  obtain ⟨c, hc, h⟩ := Except.bind_eq_ok.mp h
  split at h
  · cases h; exact hi
  rename_i ha
  cases ctl with
  | false => cases h; exact hi
  | true =>
    simp only [Bool.not_true, Bool.false_eq_true, if_false] at h
    obtain ⟨ctx, hctx, h⟩ := Except.bind_eq_ok.mp h
    cases h
    have he : event.Single := (FdContext.getEventContext_ok hctx).imp And.left And.left
    have hw := hi.wf c (List.mem_of_getElem? (fdContext_ok.mp hc))
    refine hi.set hc (FdContext.disarm_wf hw he) rfl ?_
    rw [FdContext.disarm_armedBits c he (by simpa using ha)]
    simp only; omega

theorem cancelEvent_inv {s t : IOManager} (hi : s.Inv) {fd : Nat} {event : Event} {ctl b : Bool}
    (h : s.cancelEvent fd event ctl = .ok (b, t)) : t.Inv := by
  unfold cancelEvent at h
  split at h
  · cases h; exact hi
  obtain ⟨c, hc, h⟩ := Except.bind_eq_ok.mp h
  split at h
  · cases h; exact hi
  split at h
  · cases h; exact hi
  obtain ⟨u, hu, h⟩ := Except.bind_eq_ok.mp h
  cases h
  exact trigger_inv (leave_inv hi fd _) hu

/-- `triggerIf` on an event that is armed whenever the condition holds. -/
theorem triggerIf_armed {s : IOManager} (hi : s.Inv) {fd : Nat} {c : FdContext} (hc : s.fdContext fd = .ok c)
    {event : Event} (he : event.Single) {p : Bool} (hp : p = true → (c.m_events &&& event).any = true) :
    ∃ t, s.triggerIf p fd event = .ok t ∧ t.Inv ∧
      t.m_fdContexts = s.m_fdContexts.set fd (if p then c.disarm event else c) ∧
      ∃ new, t.scheduled = s.scheduled ++ new ∧ (p = true → ∃ ctx scheduler, c.getEventContext event = .ok ctx ∧
        ctx.m_scheduler = some scheduler ∧ (scheduler, ctx.task) ∈ new) := by
  cases p with
  | false =>
    refine ⟨s, rfl, hi, ?_, [], by simp, fun h => nomatch h⟩
    obtain ⟨hlt, hget⟩ := List.getElem?_eq_some_iff.mp (fdContext_ok.mp hc)
    simp [← hget]
  | true =>
    obtain ⟨t, ht, htr⟩ := trigger_armed hc (hi.wf c (List.mem_of_getElem? (fdContext_ok.mp hc))) he (hp rfl)
    obtain ⟨ctx, sch, hctx, hs, hnew⟩ := htr.scheduled
    exact ⟨t, ht, htr.inv hi hc he (hp rfl), htr.contexts, _, hnew, fun _ => ⟨ctx, sch, hctx, hs, by simp⟩⟩

/-- `cancelAll` on an armed descriptor whose epoll_ctl succeeds always returns. -/
theorem cancelAll_armed {s : IOManager} (hi : s.Inv) {fd : Nat} {c : FdContext} (hc : s.fdContext fd = .ok c)
    (ha : c.m_events.any = true) : ∃ t, s.cancelAll fd true = .ok (true, t) ∧ t.Inv := by
  have hlt : ¬ s.m_fdContexts.length ≤ fd := by
    obtain ⟨h, -⟩ := List.getElem?_eq_some_iff.mp (fdContext_ok.mp hc)
    omega
  have hi' : Inv { s with epoll := epollCtl s.epoll .EPOLL_CTL_DEL fd ⟨.NONE, .ptr fd⟩ } := ⟨hi.wf, hi.count⟩
  obtain ⟨t1, h1, hi1, hs1, -⟩ :=
    triggerIf_armed hi' (c := c) hc Event.single_READ (p := (c.m_events &&& .READ).any) id
  have hc1 := fdContext_of_set (s := { s with epoll := _ }) hc hs1
  obtain ⟨t2, h2, hi2, hs2, -⟩ :=
    triggerIf_armed hi1 hc1 Event.single_WRITE (p := (_ &&& Event.WRITE).any) id
  have hc2 := fdContext_of_set hc1 hs2
  refine ⟨t2, ?_, hi2⟩
  simp only [cancelAll, hlt, if_false, hc, Except.ok_bind_eq, ha, Bool.not_true, Bool.false_eq_true, h1, hc1, h2, hc2,
    SYLAR_ASSERT]
  rcases c with ⟨_, _, _, r, w⟩
  cases r <;> cases w <;> rfl

theorem cancelAll_inv {s t : IOManager} (hi : s.Inv) {fd : Nat} {ctl b : Bool}
    (h : s.cancelAll fd ctl = .ok (b, t)) : t.Inv := by
  have h' := h
  unfold cancelAll at h
  split at h
  · cases h; exact hi
  obtain ⟨c, hc, h⟩ := Except.bind_eq_ok.mp h
  split at h
  · cases h; exact hi
  rename_i ha
  cases ctl with
  | false => cases h; exact hi
  | true =>
    obtain ⟨u, hu, hinv⟩ := cancelAll_armed hi hc (by simpa using ha)
    rw [h'] at hu; cases hu
    exact hinv

/-! ## One entry of `idle` -/

/-- An entry that gets as far as epoll_ctl: it reports an armed event. -/
def acts (c : FdContext) (e : EpollBits) : Bool := (c.m_events &&& realEvents c e).any

/-- An entry that reports an armed event and an unarmed one. -/
def overlapsPartly (c : FdContext) (e : EpollBits) : Bool :=
  acts c e && (realEvents c e &&& ~~~c.m_events).any

/-- The descriptor's reported events are disarmed and their tasks scheduled. -/
structure Handled (s : IOManager) (fd : Nat) (c : FdContext) (real : Event) (t : IOManager) : Prop where
  inv : t.Inv
  contexts : ∃ c', t.m_fdContexts = s.m_fdContexts.set fd c' ∧ c'.m_events = c.m_events &&& ~~~real
  scheduled : ∃ new, t.scheduled = s.scheduled ++ new ∧ ∀ event : Event, event.Single → (real &&& event).any = true →
    ∃ ctx scheduler, c.getEventContext event = .ok ctx ∧ ctx.m_scheduler = some scheduler ∧ (scheduler, ctx.task) ∈ new

theorem idleEntry_tickle (s : IOManager) (e : EpollBits) (ctl : Bool) :
    s.idleEntry ⟨e, .tickle⟩ ctl = .ok (s, none) := rfl

theorem idleEntry_skipped {s : IOManager} {fd : Nat} {c : FdContext} (hc : s.fdContext fd = .ok c) {e : EpollBits}
    (ha : acts c e = false) (ctl : Bool) : s.idleEntry ⟨e, .ptr fd⟩ ctl = .ok (s, none) := by
  unfold acts at ha
  simp only [idleEntry, hc, Except.ok_bind_eq, ha]; rfl

theorem idleEntry_refused {s : IOManager} {fd : Nat} {c : FdContext} (hc : s.fdContext fd = .ok c) {e : EpollBits}
    (ha : acts c e = true) : s.idleEntry ⟨e, .ptr fd⟩ false = .ok (s, some (-1)) := by
  unfold acts at ha
  simp only [idleEntry, hc, Except.ok_bind_eq, ha]; rfl

/-- An entry whose reported events are all armed triggers each of them. -/
theorem idleEntry_whole {s : IOManager} (hi : s.Inv) {fd : Nat} {c : FdContext} (hc : s.fdContext fd = .ok c)
    {e : EpollBits} (ha : acts c e = true) (hp : overlapsPartly c e = false) :
    ∃ t, s.idleEntry ⟨e, .ptr fd⟩ true = .ok (t, some 0) ∧ Handled s fd c (realEvents c e) t := by
  have hsub : (realEvents c e &&& ~~~c.m_events).any = false := by simpa [overlapsPartly, ha] using hp
  have ha' : (c.m_events &&& realEvents c e).any = true := ha
  generalize hr : realEvents c e = real at hsub ha'
  have hsubR : real.read = true → c.m_events.read = true := by
    intro h; simp [Event.any, h] at hsub; exact hsub.1
  have hsubW : real.write = true → c.m_events.write = true := by
    intro h; simp [Event.any, h] at hsub; exact hsub.2
  have hi' := leave_inv hi fd (c.m_events &&& ~~~real)
  obtain ⟨t1, h1, hi1, hs1, new1, hn1, hnew1⟩ :=
    triggerIf_armed hi' (c := c) hc Event.single_READ (p := real.read) (by simpa [Event.any] using hsubR)
  have hc1 := fdContext_of_set (s := s.leave fd _) hc hs1
  obtain ⟨t2, h2, hi2, hs2, new2, hn2, hnew2⟩ :=
    triggerIf_armed hi1 hc1 Event.single_WRITE (p := real.write)
      (by
        intro hw
        have := hsubW hw
        cases real.read <;> simpa [Event.any, FdContext.disarm_events] using this)
  have hset : t2.m_fdContexts = s.m_fdContexts.set fd
      (if real.write then (if real.read then c.disarm .READ else c).disarm .WRITE
        else if real.read then c.disarm .READ else c) := by rw [hs2, hs1, List.set_set]; rfl
  refine ⟨t2, ?_, hi2, ⟨_, hset, ?_⟩, new1 ++ new2, ?_, ?_⟩
  · simp only [idleEntry, hc, Except.ok_bind_eq, hr, ha', Bool.not_true, Bool.false_eq_true, if_false, h1, h2]
    rfl
  · rcases real with ⟨r, w⟩
    rcases c with ⟨_, _, _, cr, cw⟩
    cases r <;> cases w <;> cases cr <;> cases cw <;> rfl
  · rw [hn2, hn1, List.append_assoc]; rfl
  · intro event hx hev
    rcases hx with rfl | rfl
    · obtain ⟨ctx, sch, hctx, hsch, hm⟩ := hnew1 (by simpa [Event.any] using hev)
      exact ⟨ctx, sch, hctx, hsch, List.mem_append_left _ hm⟩
    · obtain ⟨ctx, sch, hctx, hsch, hm⟩ := hnew2 (by simpa [Event.any] using hev)
      refine ⟨ctx, sch, ?_, hsch, List.mem_append_right _ hm⟩
      cases hrr : real.read with
      | false => simpa [hrr] using hctx
      | true =>
        simpa [hrr, FdContext.disarm, FdContext.setEventContext, FdContext.getEventContext,
          Event.READ_ne_WRITE.symm] using hctx

/-- An entry that reports an armed and an unarmed event fails the assertion. -/
theorem idleEntry_partly {s : IOManager} (hi : s.Inv) {fd : Nat} {c : FdContext} (hc : s.fdContext fd = .ok c)
    {e : EpollBits} (hp : overlapsPartly c e = true) :
    s.idleEntry ⟨e, .ptr fd⟩ true = .error .triggerUnarmed := by
  simp only [overlapsPartly, Bool.and_eq_true] at hp
  obtain ⟨ha, hsub⟩ := hp
  unfold acts at ha
  generalize hr : realEvents c e = real at hsub ha
  have hi' := leave_inv hi fd (c.m_events &&& ~~~real)
  have hc' : (s.leave fd (c.m_events &&& ~~~real)).fdContext fd = .ok c := hc
  simp only [idleEntry, hc, Except.ok_bind_eq, hr, ha, Bool.not_true, Bool.false_eq_true, if_false]
  by_cases hR : real.read = true ∧ c.m_events.read = false
  · -- READ is the unarmed one: its trigger comes first
    have : (c.m_events &&& Event.READ).any = false := by simp [Event.any, hR.2]
    rw [hR.1, triggerIf, if_pos rfl, trigger_unarmed hc' this]; rfl
  · have hRarm : real.read = true → (c.m_events &&& Event.READ).any = true := by
      intro h; simpa [Event.any, h] using hR
    obtain ⟨t, ht, -, hs, -⟩ := triggerIf_armed hi' hc' Event.single_READ hRarm
    have hc1 := fdContext_of_set hc' hs
    have hW : real.write = true ∧ c.m_events.write = false := by
      simp only [Event.any, Event.and_read, Event.and_write, Event.not_read, Event.not_write, Bool.or_eq_true,
        Bool.and_eq_true, Bool.not_eq_true'] at hsub
      exact hsub.resolve_left hR
    have hun : ((if real.read then c.disarm .READ else c).m_events &&& Event.WRITE).any = false := by
      cases real.read <;> simp [Event.any, FdContext.disarm_events, hW.2]
    rw [ht, Except.ok_bind_eq, hW.1, triggerIf, if_pos rfl, trigger_unarmed hc1 hun]; rfl

/-! ## Runs -/

inductive Op where
  | grow (size : Nat)
  | addEvent (self : Caller) (fd : Nat) (event : Event) (cb : Option CbId) (ctl : Bool)
  | delEvent (fd : Nat) (event : Event) (ctl : Bool)
  | cancelEvent (fd : Nat) (event : Event) (ctl : Bool)
  | cancelAll (fd : Nat) (ctl : Bool)
  | idle (e : EpollEvent) (ctl : Bool)
  deriving DecidableEq, Repr

def exec (s : IOManager) : Op → Except Abort IOManager
  | .grow size => .ok (s.contextResize size)
  | .addEvent self fd event cb ctl => s.addEvent self fd event cb ctl >>= fun r => .ok r.2
  | .delEvent fd event ctl => s.delEvent fd event ctl >>= fun r => .ok r.2
  | .cancelEvent fd event ctl => s.cancelEvent fd event ctl >>= fun r => .ok r.2
  | .cancelAll fd ctl => s.cancelAll fd ctl >>= fun r => .ok r.2
  | .idle e ctl => s.idleEntry e ctl >>= fun r => .ok r.1

/-- The table only grows here, and `addEvent` is called with a current scheduler. -/
def Legal (s : IOManager) : Op → Prop
  | .grow size => s.m_fdContexts.length ≤ size
  | .addEvent self .. => self.scheduler.isSome = true
  | _ => True

def Step (s : IOManager) (op : Op) (t : IOManager) : Prop := Legal s op ∧ exec s op = .ok t

/-- `contextResize(32)` in the constructor. -/
def start : IOManager := contextResize ⟨[], 0, fun _ => none, []⟩ 32

abbrev Reach : IOManager → Prop := Lts.Reach (· = start) Step

/-- An entry that reports an armed and an unarmed event of its descriptor, whose
    epoll_ctl succeeds. -/
def Partial (s : IOManager) : Op → Prop
  | .idle e ctl => ctl = true ∧ ∃ fd c, e.data = .ptr fd ∧ s.fdContext fd = .ok c ∧ overlapsPartly c e.events = true
  | _ => False

theorem start_inv : start.Inv :=
  contextResize_inv (s := ⟨[], 0, fun _ => none, []⟩) ⟨fun c hc => by simp at hc, rfl⟩ (Nat.zero_le 32)

theorem idle_cases {s : IOManager} (hi : s.Inv) (e : EpollEvent) (ctl : Bool)
    {r : Except Abort (IOManager × Option Int)} (h : s.idleEntry e ctl = r) :
    (∃ t ret, r = .ok (t, ret) ∧ t.Inv ∧ ¬ Partial s (.idle e ctl)) ∨
      (r = .error .outOfBounds ∧ ¬ Partial s (.idle e ctl)) ∨
      (r = .error .triggerUnarmed ∧ Partial s (.idle e ctl)) := by
  rcases e with ⟨e, _ | fd⟩
  · rw [idleEntry_tickle] at h
    exact .inl ⟨s, none, h.symm, hi, fun ⟨_, _, _, hd, _⟩ => nomatch hd⟩
  cases hc : s.fdContext fd with
  | error a =>
    rw [fdContext_error hc] at hc
    have hr : s.idleEntry ⟨e, .ptr fd⟩ ctl = .error .outOfBounds := by
      simp only [idleEntry, hc, Except.error_bind_eq]
    refine .inr (.inl ⟨h.symm.trans hr, fun ⟨_, fd', c, hd, hc', _⟩ => ?_⟩)
    cases hd; rw [hc] at hc'; cases hc'
  | ok c =>
    have hnot : overlapsPartly c e = false → ¬ Partial s (.idle ⟨e, .ptr fd⟩ ctl) := by
      intro hp ⟨_, fd', c', hd, hc', hp'⟩
      cases hd; rw [hc] at hc'; cases hc'
      rw [hp] at hp'; cases hp'
    by_cases ha : acts c e = true
    · cases ctl with
      | false =>
        rw [idleEntry_refused hc ha] at h
        exact .inl ⟨s, _, h.symm, hi, fun hp => nomatch hp.1⟩
      | true =>
        cases hp : overlapsPartly c e with
        | true =>
          rw [idleEntry_partly hi hc hp] at h
          exact .inr (.inr ⟨h.symm, rfl, fd, c, rfl, hc, hp⟩)
        | false =>
          obtain ⟨t, ht, hh⟩ := idleEntry_whole hi hc ha hp
          exact .inl ⟨t, _, h.symm.trans ht, hh.inv, hnot hp⟩
    · have ha' : acts c e = false := by simpa using ha
      rw [idleEntry_skipped hc ha'] at h
      exact .inl ⟨s, none, h.symm, hi, hnot (by simp [overlapsPartly, ha'])⟩

theorem step_inv {s t : IOManager} {op : Op} (hi : s.Inv) (h : Step s op t) : t.Inv := by
  obtain ⟨hl, h⟩ := h
  cases op with
  | grow size => cases h; exact contextResize_inv hi hl
  | addEvent self fd event cb ctl =>
    obtain ⟨⟨b, u⟩, hu, h⟩ := Except.bind_eq_ok.mp h
    cases h; exact addEvent_inv hi hl hu
  | delEvent fd event ctl =>
    obtain ⟨⟨b, u⟩, hu, h⟩ := Except.bind_eq_ok.mp h
    cases h; exact delEvent_inv hi hu
  | cancelEvent fd event ctl =>
    obtain ⟨⟨b, u⟩, hu, h⟩ := Except.bind_eq_ok.mp h
    cases h; exact cancelEvent_inv hi hu
  | cancelAll fd ctl =>
    obtain ⟨⟨b, u⟩, hu, h⟩ := Except.bind_eq_ok.mp h
    cases h; exact cancelAll_inv hi hu
  | idle e ctl =>
    obtain ⟨⟨u, ret⟩, hu, h⟩ := Except.bind_eq_ok.mp h
    cases h
    rcases idle_cases hi e ctl hu with ⟨t', ret', ht, hinv, -⟩ | ⟨ht, -⟩ | ⟨ht, -⟩
    · cases ht; exact hinv
    · cases ht
    · cases ht

theorem inv {s : IOManager} (h : Reach s) : s.Inv := by
  refine Lts.Reach.inv h ?_ fun _ _ _ hi hst => step_inv hi hst
  intro s h0
  subst h0
  exact start_inv

/-! ## The assertion of `triggerEvent` -/

theorem addEvent_error {s : IOManager} {self : Caller} {fd : Nat} {event : Event} {cb : Option CbId} {ctl : Bool} :
    s.addEvent self fd event cb ctl ≠ .error .triggerUnarmed := by
  intro h
  rcases Except.bind_eq_error.mp h with h | ⟨c, -, h⟩
  · cases fdContext_error h
  rcases Except.bind_eq_error.mp h with h | ⟨_, -, h⟩
  · cases (assert_error.mp h).2
  cases ctl with
  | false => cases h
  | true =>
    rcases Except.bind_eq_error.mp h with h | ⟨ctx, -, h⟩
    · cases FdContext.getEventContext_error h
    rcases Except.bind_eq_error.mp h with h | ⟨_, -, h⟩
    · cases (assert_error.mp h).2
    rcases Except.bind_eq_error.mp h with h | ⟨_, -, h⟩
    · cases (assert_error.mp h).2
    cases h

theorem delEvent_error {s : IOManager} {fd : Nat} {event : Event} {ctl : Bool} :
    s.delEvent fd event ctl ≠ .error .triggerUnarmed := by
  intro h
  unfold delEvent at h
  split at h
  · cases h
  rcases Except.bind_eq_error.mp h with h | ⟨c, -, h⟩
  · cases fdContext_error h
  split at h
  · cases h
  cases ctl with
  | false => cases h
  | true =>
    rcases Except.bind_eq_error.mp h with h | ⟨ctx, -, h⟩
    · cases FdContext.getEventContext_error h
    · cases h

theorem cancelEvent_error {s : IOManager} (hi : s.Inv) {fd : Nat} {event : Event} {ctl : Bool} :
    s.cancelEvent fd event ctl ≠ .error .triggerUnarmed := by
  intro h
  unfold cancelEvent at h
  split at h
  · cases h
  rcases Except.bind_eq_error.mp h with h | ⟨c, hc, h⟩
  · cases fdContext_error h
  split at h
  · cases h
  rename_i ha
  split at h
  · cases h
  rcases Except.bind_eq_error.mp h with h | ⟨u, -, h⟩
  · cases trigger_armed_error (leave_inv hi fd _) (c := c) hc (by simpa using ha) h
  · cases h

theorem cancelAll_error {s : IOManager} (hi : s.Inv) {fd : Nat} {ctl : Bool} :
    s.cancelAll fd ctl ≠ .error .triggerUnarmed := by
  intro h
  have h' := h
  unfold cancelAll at h
  split at h
  · cases h
  rcases Except.bind_eq_error.mp h with h | ⟨c, hc, h⟩
  · cases fdContext_error h
  split at h
  · cases h
  rename_i ha
  cases ctl with
  | false => cases h
  | true =>
    obtain ⟨u, hu, -⟩ := cancelAll_armed hi hc (by simpa using ha)
    rw [h'] at hu; cases hu

theorem exec_unarmed_iff {s : IOManager} (hi : s.Inv) (op : Op) :
    exec s op = .error .triggerUnarmed ↔ Partial s op := by
  have no {α : Type} {x : Except Abort α} {f : α → IOManager} (hx : x ≠ .error .triggerUnarmed) :
      (x >>= fun r => .ok (f r)) ≠ .error Abort.triggerUnarmed := fun h =>
    (Except.bind_eq_error.mp h).elim hx fun ⟨_, _, h⟩ => nomatch h
  cases op with
  | grow size => exact ⟨fun h => (nomatch h), False.elim⟩
  | addEvent self fd event cb ctl => exact ⟨fun h => no addEvent_error h, False.elim⟩
  | delEvent fd event ctl => exact ⟨fun h => no delEvent_error h, False.elim⟩
  | cancelEvent fd event ctl => exact ⟨fun h => no (cancelEvent_error hi) h, False.elim⟩
  | cancelAll fd ctl => exact ⟨fun h => no (cancelAll_error hi) h, False.elim⟩
  | idle e ctl =>
    rcases idle_cases hi e ctl rfl with ⟨t, ret, ht, -, hn⟩ | ⟨ht, hn⟩ | ⟨ht, hp⟩
    · simp only [exec, ht, Except.ok_bind_eq, reduceCtorEq, hn]
    · simp only [exec, ht, Except.error_bind_eq, Except.error.injEq, reduceCtorEq, hn]
    · simp only [exec, ht, Except.error_bind_eq, hp]

/-- In every run: the count is the number of armed bits, every context matches its
    armed bits, and the assertion of `triggerEvent` holds at the next step unless that
    step handles an entry reporting an armed and an unarmed event of one descriptor. -/
theorem trigger_assertion {s : IOManager} (h : Reach s) :
    s.m_pendingEventCount = s.armedTotal ∧ (∀ c ∈ s.m_fdContexts, c.Wf) ∧
      ∀ op, Legal s op → (exec s op ≠ .error .triggerUnarmed ↔ ¬ Partial s op) :=
  ⟨(inv h).count, (inv h).wf, fun op _ => not_congr (exec_unarmed_iff (inv h) op)⟩

def fiberSeven : Caller := ⟨some 0, 7, .RUNNING⟩
def fiberEight : Caller := ⟨some 0, 8, .RUNNING⟩

/-- Fibers 7 and 8 wait for READ and WRITE of descriptor 5; READ is then deleted. -/
theorem readDeleted_reach : ∃ s, Reach s ∧ s.fdContext 5 = .ok ⟨.reset, ⟨some 0, some 8, none⟩, 5, .WRITE⟩ := by
  have h1 : Reach _ := .step (.addEvent fiberSeven 5 .READ none true) (.init rfl) ⟨rfl, rfl⟩
  have h2 : Reach _ := .step (.addEvent fiberEight 5 .WRITE none true) h1 ⟨rfl, rfl⟩
  have h3 : Reach _ := .step (.delEvent 5 .READ true) h2 ⟨trivial, rfl⟩
  exact ⟨_, h3, rfl⟩

theorem trigger_assertion_readDeleted :
    ∃ s : IOManager, s.m_pendingEventCount = s.armedTotal ∧ (∀ c ∈ s.m_fdContexts, c.Wf) ∧
      (∀ op, Legal s op → (exec s op ≠ .error .triggerUnarmed ↔ ¬ Partial s op)) ∧
      s.fdContext 5 = .ok ⟨.reset, ⟨some 0, some 8, none⟩, 5, .WRITE⟩ := by
  obtain ⟨s, hr, hc⟩ := readDeleted_reach
  obtain ⟨h1, h2, h3⟩ := trigger_assertion hr
  exact ⟨s, h1, h2, h3, hc⟩

/-- The entry an idle thread got before the READ was deleted reports both events: its
    READ fails the assertion. -/
theorem stale_report_fails_assertion :
    ∃ s, Reach s ∧ exec s (.idle ⟨⟨true, true, false, false, false⟩, .ptr 5⟩ true) = .error .triggerUnarmed := by
  obtain ⟨s, hr, hc⟩ := readDeleted_reach
  exact ⟨s, hr, (exec_unarmed_iff (inv hr) _).mpr ⟨rfl, 5, _, rfl, hc, by decide⟩⟩

end IOManager
end Sylar
