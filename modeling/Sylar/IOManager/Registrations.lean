/-
  Sylar.IOManager.Registrations — what the event table of `IOManager` is for: for each
  descriptor and READ or WRITE, the scheduler to call and the task to hand it, until the
  event comes, is cancelled or is deleted.

  The table is read as a `Registry` (`abs`), keyed by descriptor and side. An operation
  of the code (`Sylar.IOManager.Agreement`: with its size test, growth, and epoll_ctl
  that may fail) then does and answers what `exec` says in a line: `addEvent` puts a
  handler in, `delEvent` drops one, `cancelEvent`, `cancelAll` and an entry of `idle`
  fire what is there.

  Proved, over every run no assertion has ended, in which events are added for
  descriptors below 1431655766 (so that the table's size fits an int):
  - `refines`: each step is that of `exec`, with the same answer.
  - `handlers_accounted`: every handler was registered as often as it was scheduled, on
    the scheduler it was registered with, was deleted, and is still armed.
-/

import Sylar.IOManager.Agreement
import Sylar.Lib.Registry
import Mathlib.Data.Finset.Prod

namespace Sylar

/-- What a context schedules, and where. -/
def EventContext.handler (ctx : EventContext) : Option (Nat × ScheduleTask) := ctx.m_scheduler.map (·, ctx.task)

namespace Registrations

open Agreement (Op contextAt intSize grown within)
open IOManager (Inv fdContext_ok fdContext_of_set realEvents acts)

inductive Side where
  | read
  | write
  deriving DecidableEq, Repr

abbrev Key := Nat × Side

/-- A scheduler, and a task for it. -/
abbrev Handler := Nat × ScheduleTask

abbrev Table := Registry.State Key Handler

/-- The keys of an event's bits, in the order `idle` and `cancelAll` trigger them. -/
def keys (fd : Nat) (event : Event) : List Key :=
  (if event.read then [(fd, .read)] else []) ++ if event.write then [(fd, .write)] else []

/-! ## What the operations are for -/

/-- The events of a descriptor that have a handler. -/
def armed (T : Table) (fd : Nat) : Event := ⟨(T.entry (fd, .read)).isSome, (T.entry (fd, .write)).isSome⟩

/-- The calling scheduler, and the callback if there is one, else the calling fiber. -/
def given (self : Caller) (cb : Option CbId) : Handler :=
  (self.scheduler.getD 0, match cb with
    | some c => .ofCb c none
    | none => .ofFiber self.fiber none)

/-- What an entry of epoll_wait says: an error or a hang-up is every event waited for. -/
def reported (T : Table) (fd : Nat) (e : EpollBits) : Event :=
  let err := e.epollerr || e.epollhup
  ⟨e.epollin || (err && (armed T fd).read), e.epollout || (err && (armed T fd).write)⟩

/-- Take out what `event` has in the table, if it has any and the kernel agrees. -/
def takeOut (T : Table) (fd : Nat) (event : Event) (ctl : Bool) (out : Table → List Key → Table) : Bool × Table :=
  if (armed T fd &&& event).any && ctl then (true, out T (keys fd event)) else (false, T)

def exec (T : Table) : Op → Bool × Table
  | .addEvent self fd event cb ctl =>
    if ctl then (true, (keys fd event).foldl (·.put · (given self cb)) T) else (false, T)
  | .delEvent fd event ctl => takeOut T fd event ctl .drops
  | .cancelEvent fd event ctl => takeOut T fd event ctl .fires
  | .cancelAll fd ctl => takeOut T fd (.READ ||| .WRITE) ctl .fires
  | .idle e ctl => match e.data with
    | .tickle => (true, T)
    | .ptr fd => (true, (takeOut T fd (reported T fd e.events) ctl .fires).2)
  | .close _ => (true, T)

/-! ## The code's table as a registry -/

def contextOf (x : Event × EventContext × EventContext) : Side → EventContext
  | .read => x.2.1
  | .write => x.2.2

def table (s : IOManager) (k : Key) : Option Handler := (contextOf (contextAt s k.1) k.2).handler

def abs (s : IOManager) (added dropped : List Handler) : Table := ⟨table s, added, s.scheduled, dropped⟩

/-- A run, with what `addEvent` registered and `delEvent` deleted so far. -/
structure History where
  s : Agreement.State
  added : List Handler
  dropped : List Handler

def registered : Op × Bool → List Handler
  | (.addEvent self _ _ cb _, true) => [given self cb]
  | _ => []

def deleted (s : IOManager) : Op × Bool → List Handler
  | (.delEvent fd event _, true) => (keys fd event).filterMap (table s)
  | _ => []

structure Step (h : History) (a : Op × Bool) (h' : History) : Prop where
  step : Agreement.Step h.s a h'.s
  added : h'.added = h.added ++ registered a
  dropped : h'.dropped = h.dropped ++ deleted h.s.iom a

def start : History := ⟨Agreement.start, [], []⟩

/-- Events are added for descriptors for which the table's size fits an int. -/
def Below (_ : History) (a : Op × Bool) : Prop :=
  match a.1 with
  | .addEvent _ fd _ _ _ => fd < 1431655766
  | _ => True

abbrev Reach : History → Prop := Lts.Reach (· = start) (Lts.guarded Step Below)

def History.abs (h : History) : Table := Registrations.abs h.s.iom h.added h.dropped

/-! ## Reading the table -/

section
variable {s t : IOManager} {fd : Nat} {added dropped : List Handler}

theorem keys_single (fd : Nat) {event : Event} (he : event.Single) :
    (event = .READ ∧ keys fd event = [(fd, .read)]) ∨ (event = .WRITE ∧ keys fd event = [(fd, .write)]) :=
  he.imp (fun h => ⟨h, by rw [h]; rfl⟩) fun h => ⟨h, by rw [h]; rfl⟩

/-- An armed event has a handler, an unarmed one has none. -/
theorem handler_isSome {ctx : EventContext} {b : Bool} (h : ctx.Wf b) : ctx.handler.isSome = b := by
  unfold EventContext.Wf at h
  cases b with
  | true => simpa [EventContext.handler] using h.1
  | false =>
    have hr : ctx = .reset := h
    rw [hr]
    rfl

theorem armed_abs (hi : s.Inv) (fd : Nat) : armed (abs s added dropped) fd = (contextAt s fd).1 := by
  cases hc : s.m_fdContexts[fd]? with
  | none =>
    have hat : contextAt s fd = (.NONE, .reset, .reset) := by simp only [contextAt, hc]
    simp only [armed, abs, table, hat]
    rfl
  | some c =>
    have hat := Agreement.contextAt_of_get hc
    obtain ⟨hr, hw⟩ := hi.wf c (List.mem_of_getElem? hc)
    simp only [armed, abs, table, hat, contextOf, handler_isSome hr, handler_isSome hw]

theorem contextAt_set {c c' : FdContext} (hc : s.fdContext fd = .ok c) (h : t.m_fdContexts = s.m_fdContexts.set fd c')
    (k : Nat) : contextAt t k = if k = fd then (c'.m_events, c'.m_readCtx, c'.m_writeCtx) else contextAt s k := by
  have hlt := Agreement.lt_of_fdContext hc
  unfold Agreement.contextAt
  rw [h]
  by_cases e : k = fd
  · subst e
    rw [List.getElem?_set_self hlt, if_pos rfl]
  · rw [List.getElem?_set_ne (Ne.symm e), if_neg e]

/-- The context of one event was written: one entry of the table changes. -/
theorem table_set {c : FdContext} (hc : s.fdContext fd = .ok c) {event : Event} (he : event.Single) {m : Event}
    {ctx : EventContext}
    (h : t.m_fdContexts = s.m_fdContexts.set fd (({ c with m_events := m }).setEventContext event ctx))
    {k : Key} (hk : keys fd event = [k]) : table t = Function.update (table s) k ctx.handler := by
  have hat := Agreement.contextAt_of_get (fdContext_ok.mp hc)
  funext ⟨n, side⟩
  show (contextOf (contextAt t n) side).handler = _
  rw [contextAt_set hc h]
  by_cases hn : n = fd
  · subst hn
    rw [if_pos rfl]
    rcases keys_single n he with ⟨rfl, hk'⟩ | ⟨rfl, hk'⟩
    · rw [hk] at hk'
      cases hk'
      cases side
      · rw [Function.update_self]
        rfl
      · rw [Function.update_of_ne (by simp)]
        simp only [table, hat]
        rfl
    · rw [hk] at hk'
      cases hk'
      cases side
      · rw [Function.update_of_ne (by simp)]
        simp only [table, hat]
        rfl
      · rw [Function.update_self]
        rfl
  · have hne : (n, side) ≠ k := by
      rcases keys_single fd he with ⟨-, hk'⟩ | ⟨-, hk'⟩
      · rw [hk] at hk'
        cases hk'
        simp [hn]
      · rw [hk] at hk'
        cases hk'
        simp [hn]
    rw [if_neg hn, Function.update_of_ne hne]
    rfl

/-- A single event has one key. -/
theorem single_key (fd : Nat) {event : Event} (he : event.Single) : ∃ k, keys fd event = [k] := by
  rcases keys_single fd he with ⟨-, h⟩ | ⟨-, h⟩
  · exact ⟨_, h⟩
  · exact ⟨_, h⟩

/-- The handler of an armed event is what its context holds. -/
theorem table_armed {c : FdContext} (hc : s.fdContext fd = .ok c) {event : Event} {ctx : EventContext}
    (hctx : c.getEventContext event = .ok ctx) {k : Key} (hk : keys fd event = [k]) : table s k = ctx.handler := by
  have hat := Agreement.contextAt_of_get (fdContext_ok.mp hc)
  rcases FdContext.getEventContext_ok hctx with ⟨rfl, rfl⟩ | ⟨rfl, rfl⟩
  · cases hk
    simp only [table, hat, contextOf]
  · cases hk
    simp only [table, hat, contextOf]

/-! ## What `triggerEvent` does -/

theorem trigger_fires (hi : s.Inv) {event : Event} (h : s.trigger fd event = .ok t) :
    abs t added dropped = (abs s added dropped).fires (keys fd event) := by
  obtain ⟨c, hc, he, -, htr⟩ := IOManager.trigger_ok hi h
  obtain ⟨ctx, sch, hctx, hs, hsched⟩ := htr.scheduled
  obtain ⟨k, hk⟩ := single_key fd he
  have htab : table t = Function.update (table s) k none := table_set hc he htr.contexts hk
  have hold : table s k = some (sch, ctx.task) := by
    rw [table_armed hc hctx hk, EventContext.handler, hs]
    rfl
  rw [hk]
  show (⟨table t, added, t.scheduled, dropped⟩ : Table) = _
  simp only [htab, hsched, Registry.State.fires, List.foldl_cons, List.foldl_nil, Registry.State.fire, abs, hold]
  rfl

variable (added dropped) in
theorem triggerIf_fires (hi : s.Inv) {p : Bool} {event : Event} (h : s.triggerIf p fd event = .ok t) :
    t.Inv ∧ abs t added dropped = (abs s added dropped).fires (if p then keys fd event else []) := by
  cases p with
  | false =>
    cases h
    exact ⟨hi, rfl⟩
  | true => exact ⟨IOManager.trigger_inv hi h, trigger_fires hi h⟩

theorem fires_append (T : Table) (ks ks' : List Key) : T.fires (ks ++ ks') = (T.fires ks).fires ks' :=
  List.foldl_append

variable (added dropped) in
/-- READ, then WRITE: the keys of an event in order. -/
theorem triggers_fires (hi : s.Inv) {real : Event} {u : IOManager} (h : s.triggerIf real.read fd .READ = .ok t)
    (h' : t.triggerIf real.write fd .WRITE = .ok u) :
    u.Inv ∧ abs u added dropped = (abs s added dropped).fires (keys fd real) := by
  obtain ⟨hit, hft⟩ := triggerIf_fires added dropped hi h
  obtain ⟨hiu, hfu⟩ := triggerIf_fires added dropped hit h'
  refine ⟨hiu, ?_⟩
  have hr : (if real.read then keys fd .READ else []) = if real.read then [(fd, Side.read)] else [] := rfl
  have hw : (if real.write then keys fd .WRITE else []) = if real.write then [(fd, Side.write)] else [] := rfl
  rw [hfu, hft, hr, hw, ← fires_append]
  rfl

/-- Where a test of the bit stands before the trigger, it makes no difference. -/
theorem fires_if_armed (hi : s.Inv) {c : FdContext} (hc : s.fdContext fd = .ok c) {event : Event} (he : event.Single) :
    (abs s added dropped).fires (if (c.m_events &&& event).any then keys fd event else []) =
      (abs s added dropped).fires (keys fd event) := by
  have hev : armed (abs s added dropped) fd = c.m_events := by
    rw [armed_abs hi, Agreement.contextAt_of_get (fdContext_ok.mp hc)]
  split
  · rfl
  · rename_i hun
    rw [← hev] at hun
    rcases keys_single fd he with ⟨rfl, hk⟩ | ⟨rfl, hk⟩
    · have hnone : (abs s added dropped).entry (fd, .read) = none := by simpa [Event.any, armed] using hun
      rw [hk]
      exact (Registry.fire_none hnone).symm
    · have hnone : (abs s added dropped).entry (fd, .write) = none := by simpa [Event.any, armed] using hun
      rw [hk]
      exact (Registry.fire_none hnone).symm

/-! ## One operation -/

theorem takeOut_refused {T : Table} {event : Event} {ctl : Bool} {out : Table → List Key → Table}
    (h : (armed T fd &&& event).any = false ∨ ctl = false) : takeOut T fd event ctl out = (false, T) := by
  unfold takeOut
  rw [if_neg]
  rintro hp
  rw [Bool.and_eq_true] at hp
  rcases h with h | h
  · rw [h] at hp
    cases hp.1
  · rw [h] at hp
    cases hp.2

theorem takeOut_done {T : Table} {event : Event} {out : Table → List Key → Table}
    (h : (armed T fd &&& event).any = true) : takeOut T fd event true out = (true, out T (keys fd event)) := by
  unfold takeOut
  rw [h]
  rfl

/-- Past the end of the table nothing is armed. -/
theorem armed_past (h : s.m_fdContexts.length ≤ fd) : armed (abs s added dropped) fd = .NONE := by
  simp only [armed, abs, table, Agreement.contextAt_of_length h]
  rfl

theorem armed_of_context (hi : s.Inv) {c : FdContext} (hc : s.fdContext fd = .ok c) :
    armed (abs s added dropped) fd = c.m_events := by
  rw [armed_abs hi, Agreement.contextAt_of_get (fdContext_ok.mp hc)]

variable (added dropped) in
theorem addEvent_exec {self : Caller} {event : Event} {cb : Option CbId} {ctl b : Bool} (hself : self.scheduler.isSome)
    (h : s.addEvent self fd event cb ctl = .ok (b, t)) :
    exec (abs s added dropped) (.addEvent self fd event cb ctl) =
      (b, abs t (added ++ registered (.addEvent self fd event cb ctl, b)) dropped) := by
  obtain ⟨c, hc, h⟩ := Except.bind_eq_ok.mp h
  obtain ⟨_, -, h⟩ := Except.bind_eq_ok.mp h
  cases ctl with
  | false =>
    cases h
    rw [show registered (.addEvent self fd event cb false, false) = [] from rfl, List.append_nil]
    rfl
  | true =>
    simp only [Bool.not_true, Bool.false_eq_true, if_false] at h
    obtain ⟨ctx, hctx, h⟩ := Except.bind_eq_ok.mp h
    obtain ⟨_, -, h⟩ := Except.bind_eq_ok.mp h
    obtain ⟨_, -, h⟩ := Except.bind_eq_ok.mp h
    cases h
    have he : event.Single := (FdContext.getEventContext_ok hctx).imp And.left And.left
    obtain ⟨k, hk⟩ := single_key fd he
    obtain ⟨sch, hsch⟩ := Option.isSome_iff_exists.mp hself
    have hnew : EventContext.handler
        { m_scheduler := self.scheduler, m_fiber := if cb.isSome then none else some self.fiber, m_cb := cb } =
          some (given self cb) := by
      simp only [EventContext.handler, given, hsch, Option.map_some, Option.getD_some]
      cases cb <;> rfl
    have htab := table_set (t := { s.setContext fd (({ c with m_events := c.m_events ||| event }).setEventContext event
      { m_scheduler := self.scheduler, m_fiber := if cb.isSome then none else some self.fiber, m_cb := cb }) with
        m_pendingEventCount := s.m_pendingEventCount + 1
        epoll := epollCtl s.epoll (if c.m_events.any then .EPOLL_CTL_MOD else .EPOLL_CTL_ADD) fd
          ⟨(c.m_events ||| event).edgeTriggered, .ptr fd⟩ }) hc he rfl hk
    rw [hnew] at htab
    simp only [exec, if_true, hk, List.foldl_cons, List.foldl_nil, Registry.State.put, abs, registered, htab]
    rfl

variable (added dropped) in
theorem delEvent_exec (hi : s.Inv) {event : Event} {ctl b : Bool} (h : s.delEvent fd event ctl = .ok (b, t)) :
    exec (abs s added dropped) (.delEvent fd event ctl) =
      (b, abs t added (dropped ++ deleted s (.delEvent fd event ctl, b))) := by
  have hno : deleted s (.delEvent fd event ctl, false) = [] := rfl
  unfold IOManager.delEvent at h
  split at h
  · rename_i hle
    cases h
    rw [hno, List.append_nil]
    exact takeOut_refused (.inl (by rw [armed_past hle]; rfl))
  obtain ⟨c, hc, h⟩ := Except.bind_eq_ok.mp h
  split at h
  · rename_i hun
    cases h
    rw [hno, List.append_nil]
    exact takeOut_refused (.inl (by rw [armed_of_context hi hc]; simpa using hun))
  rename_i ha
  cases ctl with
  | false =>
    cases h
    rw [hno, List.append_nil]
    exact takeOut_refused (.inr rfl)
  | true =>
    simp only [Bool.not_true, Bool.false_eq_true, if_false] at h
    obtain ⟨ctx, hctx, h⟩ := Except.bind_eq_ok.mp h
    cases h
    have he : event.Single := (FdContext.getEventContext_ok hctx).imp And.left And.left
    obtain ⟨k, hk⟩ := single_key fd he
    have htab := table_set (t := { (s.leave fd (c.m_events &&& ~~~event)).setContext fd
      (({ c with m_events := c.m_events &&& ~~~event }).setEventContext event .reset) with
        m_pendingEventCount := s.m_pendingEventCount - 1 }) hc he rfl hk
    refine (takeOut_done (by rw [armed_of_context hi hc]; simpa using ha)).trans ?_
    simp only [hk, Registry.State.drops, List.foldl_cons, List.foldl_nil, Registry.State.drop, abs, deleted, htab]
    cases hold : table s k with
    | none => simp [hold, EventContext.handler, EventContext.reset, IOManager.setContext, IOManager.leave]
    | some x => simp [hold, EventContext.handler, EventContext.reset, IOManager.setContext, IOManager.leave]

variable (added dropped) in
theorem cancelEvent_exec (hi : s.Inv) {event : Event} {ctl b : Bool} (h : s.cancelEvent fd event ctl = .ok (b, t)) :
    exec (abs s added dropped) (.cancelEvent fd event ctl) = (b, abs t added dropped) := by
  unfold IOManager.cancelEvent at h
  split at h
  · rename_i hle
    cases h
    exact takeOut_refused (.inl (by rw [armed_past hle]; rfl))
  obtain ⟨c, hc, h⟩ := Except.bind_eq_ok.mp h
  split at h
  · rename_i hun
    cases h
    exact takeOut_refused (.inl (by rw [armed_of_context hi hc]; simpa using hun))
  rename_i ha
  cases ctl with
  | false =>
    cases h
    exact takeOut_refused (.inr rfl)
  | true =>
    obtain ⟨u, hu, h⟩ := Except.bind_eq_ok.mp h
    cases h
    refine (takeOut_done (by rw [armed_of_context hi hc]; simpa using ha)).trans ?_
    rw [trigger_fires (IOManager.leave_inv hi fd _) hu]
    rfl

variable (added dropped) in
theorem cancelAll_exec (hi : s.Inv) {ctl b : Bool} (h : s.cancelAll fd ctl = .ok (b, t)) :
    exec (abs s added dropped) (.cancelAll fd ctl) = (b, abs t added dropped) := by
  have hall (e : Event) : (e &&& (.READ ||| .WRITE)).any = e.any := by
    rcases e with ⟨r, w⟩
    cases r <;> cases w <;> rfl
  unfold IOManager.cancelAll at h
  split at h
  · rename_i hle
    cases h
    exact takeOut_refused (.inl (by rw [armed_past hle]; rfl))
  obtain ⟨c, hc, h⟩ := Except.bind_eq_ok.mp h
  split at h
  · rename_i hun
    cases h
    exact takeOut_refused (.inl (by rw [armed_of_context hi hc, hall]; simpa using hun))
  rename_i ha
  cases ctl with
  | false =>
    cases h
    exact takeOut_refused (.inr rfl)
  | true =>
    obtain ⟨t1, h1, h⟩ := Except.bind_eq_ok.mp h
    obtain ⟨c1, hc1, h⟩ := Except.bind_eq_ok.mp h
    obtain ⟨t2, h2, h⟩ := Except.bind_eq_ok.mp h
    obtain ⟨c2, hc2, h⟩ := Except.bind_eq_ok.mp h
    obtain ⟨_, -, h⟩ := Except.bind_eq_ok.mp h
    cases h
    have hi0 : Inv { s with epoll := epollCtl s.epoll .EPOLL_CTL_DEL fd ⟨.NONE, .ptr fd⟩ } := ⟨hi.wf, hi.count⟩
    obtain ⟨hi1, hf1⟩ := triggerIf_fires added dropped hi0 h1
    obtain ⟨-, hf2⟩ := triggerIf_fires added dropped hi1 h2
    refine (takeOut_done (by rw [armed_of_context hi hc, hall]; simpa using ha)).trans ?_
    rw [hf2, fires_if_armed hi1 hc1 Event.single_WRITE, hf1, fires_if_armed hi0 hc Event.single_READ, ← fires_append]
    rfl

variable (added dropped) in
theorem idle_exec (hi : s.Inv) {e : EpollEvent} {ctl : Bool} {r : Option Int} (h : s.idleEntry e ctl = .ok (t, r)) :
    t.Inv ∧ exec (abs s added dropped) (.idle e ctl) = (true, abs t added dropped) := by
  rcases e with ⟨e, _ | fd⟩
  · cases h
    exact ⟨hi, rfl⟩
  have h' := h
  obtain ⟨c, hc, -⟩ := Except.bind_eq_ok.mp h
  have hreal : reported (abs s added dropped) fd e = realEvents c e := by
    rw [reported, armed_of_context hi hc]
    rfl
  have hshow : exec (abs s added dropped) (.idle ⟨e, .ptr fd⟩ ctl) =
      (true, (takeOut (abs s added dropped) fd (realEvents c e) ctl .fires).2) := by rw [← hreal]; rfl
  have harm : armed (abs s added dropped) fd = c.m_events := armed_of_context hi hc
  rw [hshow]
  by_cases ha : acts c e = true
  · have ha' : (c.m_events &&& realEvents c e).any = true := ha
    cases ctl with
    | false =>
      rw [IOManager.idleEntry_refused hc ha] at h'
      cases h'
      rw [takeOut_refused (.inr rfl)]
      exact ⟨hi, rfl⟩
    | true =>
      simp only [IOManager.idleEntry, hc, Except.ok_bind_eq, ha', Bool.not_true, Bool.false_eq_true, if_false] at h'
      obtain ⟨t1, h1, h'⟩ := Except.bind_eq_ok.mp h'
      obtain ⟨t2, h2, h'⟩ := Except.bind_eq_ok.mp h'
      cases h'
      obtain ⟨hiu, hfu⟩ := triggers_fires added dropped (IOManager.leave_inv hi fd _) h1 h2
      rw [takeOut_done (by rw [harm]; exact ha'), hfu]
      exact ⟨hiu, rfl⟩
  · have ha' : acts c e = false := by simpa using ha
    rw [IOManager.idleEntry_skipped hc ha'] at h'
    cases h'
    rw [takeOut_refused (.inl (by rw [harm]; exact ha'))]
    exact ⟨hi, rfl⟩

end

/-! ## Runs -/

structure Ok (h : History) : Prop where
  inv : h.s.iom.Inv
  size : h.s.iom.m_fdContexts.length < 2147483648

theorem start_ok : Ok start := by
  have hlen : start.s.iom.m_fdContexts.length = 32 := Contexts.resizeFill_length ..
  exact ⟨IOManager.start_inv, by omega⟩

/-- While the size fits an int, the size test is the one the operation makes again. -/
theorem within_eq {s : IOManager} (hlen : s.m_fdContexts.length < 2147483648) {fd : Nat}
    {r : Except Abort (Bool × IOManager)} (hr : s.m_fdContexts.length ≤ fd → r = .ok (false, s)) :
    within s fd r = r := by
  unfold Agreement.within
  rw [Agreement.intSize_of_lt hlen]
  split
  · rename_i hle
    exact (hr (by omega)).symm
  · rfl

theorem delEvent_past {s : IOManager} (fd : Nat) (event : Event) (ctl : Bool) (h : s.m_fdContexts.length ≤ fd) :
    s.delEvent fd event ctl = .ok (false, s) := by
  unfold IOManager.delEvent
  rw [if_pos h]
  rfl

theorem cancelEvent_past {s : IOManager} (fd : Nat) (event : Event) (ctl : Bool) (h : s.m_fdContexts.length ≤ fd) :
    s.cancelEvent fd event ctl = .ok (false, s) := by
  unfold IOManager.cancelEvent
  rw [if_pos h]
  rfl

theorem cancelAll_past {s : IOManager} (fd : Nat) (ctl : Bool) (h : s.m_fdContexts.length ≤ fd) :
    s.cancelAll fd ctl = .ok (false, s) := by
  unfold IOManager.cancelAll
  rw [if_pos h]
  rfl

theorem grown_abs {s : IOManager} (hi : s.Inv) (hlen : s.m_fdContexts.length < 2147483648) (fd : Nat)
    (added dropped : List Handler) : (grown s fd).Inv ∧ abs (grown s fd) added dropped = abs s added dropped := by
  have hs : intSize s ≤ fd → ∀ k, Contexts.growSize fd ≤ k → (contextAt s k).1.any = false :=
    Agreement.sound_of_size (s := ⟨s, fun _ => false⟩) hlen ⟨none, 0, .RUNNING⟩ fd .NONE none false false
  refine ⟨Agreement.grown_inv hi hs, ?_⟩
  have htab : table (grown s fd) = table s := by
    funext k
    unfold table
    rw [Agreement.grown_contextAt hi hs]
  have hsched : (grown s fd).scheduled = s.scheduled := by
    unfold Agreement.grown
    split <;> rfl
  simp only [abs, htab, hsched]

theorem step_exec {h h' : History} {a : Op × Bool} (hok : Ok h) (hb : Below h a) (hst : Step h a h') :
    Ok h' ∧ exec h.abs a.1 = (a.2, h'.abs) := by
  obtain ⟨hi, hlen⟩ := hok
  obtain ⟨s', added', dropped'⟩ := h'
  obtain ⟨⟨hl, he⟩, hadd, hdrop⟩ := hst
  obtain ⟨op, b⟩ := a
  cases hadd
  cases hdrop
  unfold History.abs
  cases op with
  | addEvent self fd event cb ctl =>
    obtain ⟨⟨b', t⟩, ht, he⟩ := Except.bind_eq_ok.mp he
    obtain ⟨hgi, hga⟩ := grown_abs hi hlen fd h.added h.dropped
    have hex := addEvent_exec h.added h.dropped hl.1 ht
    have hglen := Agreement.grown_length hlen hb
    have htlen : t.m_fdContexts.length = (grown h.s.iom fd).m_fdContexts.length := by
      obtain ⟨c, -, ⟨-, he⟩ | ⟨-, -, c', hm⟩⟩ := Agreement.addEvent_cases ht
      · rw [he]
      · exact hm.length
    have hinv := IOManager.addEvent_inv hgi hl.1 ht
    cases he
    refine ⟨⟨hinv, by rw [htlen]; exact hglen⟩, ?_⟩
    rw [hga] at hex
    rw [hex]
    simp [deleted]
  | delEvent fd event ctl =>
    obtain ⟨⟨b', t⟩, ht, he⟩ := Except.bind_eq_ok.mp he
    have hd := Agreement.delEvent_disarms hi ht
    rw [within_eq hlen (delEvent_past fd event ctl)] at ht
    have hex := delEvent_exec h.added h.dropped hi ht
    cases he
    exact ⟨⟨hd.inv, by rw [hd.length]; exact hlen⟩, by rw [hex]; simp [registered]⟩
  | cancelEvent fd event ctl =>
    obtain ⟨⟨b', t⟩, ht, he⟩ := Except.bind_eq_ok.mp he
    have hd := Agreement.cancelEvent_disarms hi ht
    rw [within_eq hlen (cancelEvent_past fd event ctl)] at ht
    have hex := cancelEvent_exec h.added h.dropped hi ht
    cases he
    exact ⟨⟨hd.inv, by rw [hd.length]; exact hlen⟩, by rw [hex]; simp [registered, deleted]⟩
  | cancelAll fd ctl =>
    obtain ⟨⟨b', t⟩, ht, he⟩ := Except.bind_eq_ok.mp he
    have hd := Agreement.cancelAll_disarms hi ht
    rw [within_eq hlen (cancelAll_past fd ctl)] at ht
    have hex := cancelAll_exec h.added h.dropped hi ht
    cases he
    exact ⟨⟨hd.inv, by rw [hd.length]; exact hlen⟩, by rw [hex]; simp [registered, deleted]⟩
  | idle e ctl =>
    obtain ⟨⟨t, r⟩, ht, he⟩ := Except.bind_eq_ok.mp he
    obtain ⟨hinv, hex⟩ := idle_exec h.added h.dropped hi ht
    have htlen : t.m_fdContexts.length = h.s.iom.m_fdContexts.length := by
      rcases Agreement.idle_cases hi ht with rfl | ⟨fd, c, c', op, hc, hm⟩
      · rfl
      · exact hm.length
    cases he
    exact ⟨⟨hinv, by rw [htlen]; exact hlen⟩, by rw [hex]; simp [registered, deleted]⟩
  | close fd =>
    cases he
    refine ⟨⟨⟨hi.wf, hi.count⟩, hlen⟩, ?_⟩
    show _ = (true, abs (Agreement.closeFd h.s.iom fd) (h.added ++ []) (h.dropped ++ []))
    rw [List.append_nil, List.append_nil]
    rfl

theorem reach_ok {h : History} (hr : Reach h) : Ok h :=
  hr.inv (fun _ hs => hs ▸ start_ok) fun _ _ _ hok hst => (step_exec hok hst.1 hst.2).1

/-- An event that `addEvent` registers has no handler yet. -/
theorem addEvent_free {s t : IOManager} (hi : s.Inv) {self : Caller} {fd : Nat} {event : Event} {cb : Option CbId}
    (added dropped : List Handler) (h : s.addEvent self fd event cb true = .ok (true, t)) :
    ∃ k, keys fd event = [k] ∧ (abs s added dropped).entry k = none := by
  obtain ⟨c, hc, h⟩ := Except.bind_eq_ok.mp h
  obtain ⟨_, ha, h⟩ := Except.bind_eq_ok.mp h
  have harm : armed (abs s added dropped) fd = c.m_events := armed_of_context hi hc
  rw [IOManager.assert_ok, Bool.not_eq_true', ← harm] at ha
  simp only [Bool.not_true, Bool.false_eq_true, if_false] at h
  obtain ⟨ctx, hctx, -⟩ := Except.bind_eq_ok.mp h
  have he : event.Single := (FdContext.getEventContext_ok hctx).imp And.left And.left
  rcases keys_single fd he with ⟨rfl, hk⟩ | ⟨rfl, hk⟩
  · exact ⟨_, hk, by simpa [Event.any, armed] using ha⟩
  · exact ⟨_, hk, by simpa [Event.any, armed] using ha⟩

theorem takeOut_steps {out : Table → List Key → Table} (h : ∀ T ks, Registry.Steps T (out T ks)) (T : Table) (fd : Nat)
    (event : Event) (ctl : Bool) : Registry.Steps T (takeOut T fd event ctl out).2 := by
  unfold takeOut
  split
  · exact h T _
  · exact .init rfl

/-- A step of the code is steps of the registry. -/
theorem step_steps {h h' : History} {a : Op × Bool} (hok : Ok h) (hb : Below h a) (hst : Step h a h') :
    Registry.Steps h.abs h'.abs := by
  have hex := (step_exec hok hb hst).2
  rw [show h'.abs = (exec h.abs a.1).2 by rw [hex]]
  obtain ⟨op, b⟩ := a
  cases op with
  | addEvent self fd event cb ctl =>
    cases ctl with
    | false => exact .init rfl
    | true =>
      obtain ⟨⟨b', t⟩, ht, he⟩ := Except.bind_eq_ok.mp hst.step.2
      have hga := grown_abs hok.inv hok.size fd h.added h.dropped
      have hb' : b' = true := by
        have := congrArg Prod.fst (addEvent_exec h.added h.dropped hst.step.1.1 ht)
        exact this.symm
      subst hb'
      obtain ⟨k, hk, hfree⟩ := addEvent_free hga.1 h.added h.dropped ht
      rw [hga.2] at hfree
      simp only [exec, if_true, hk, List.foldl_cons, List.foldl_nil]
      exact .single (.put _ hfree)
  | delEvent fd event ctl => exact takeOut_steps Registry.drops_steps _ _ _ _
  | cancelEvent fd event ctl => exact takeOut_steps Registry.fires_steps _ _ _ _
  | cancelAll fd ctl => exact takeOut_steps Registry.fires_steps _ _ _ _
  | idle e ctl =>
    rcases e with ⟨e, _ | fd⟩
    · exact .init rfl
    · exact takeOut_steps Registry.fires_steps _ _ _ _
  | close fd => exact .init rfl

theorem start_abs : start.abs = .empty := by
  have htab : table IOManager.start = fun _ => none := by
    funext ⟨fd, side⟩
    unfold table
    rw [Agreement.start_contextAt]
    cases side <;> rfl
  show (⟨table IOManager.start, [], [], []⟩ : Table) = _
  rw [htab]
  rfl

theorem reach_abs {h : History} (hr : Reach h) : Registry.Reach h.abs :=
  Lts.Reach.sim History.abs (fun _ hs => hs ▸ start_abs)
    (fun _ _ _ hr' hst => step_steps (reach_ok hr') hst.1 hst.2) hr

/-- How many armed events have the handler `x`. -/
def armedWith (s : IOManager) (x : Handler) : Nat :=
  Registry.held (Finset.range s.m_fdContexts.length ×ˢ {Side.read, Side.write}) (table s) x

/-- However the operations of all threads come, each handler was registered as often as
    it was scheduled, was deleted, and is still armed. -/
theorem handlers_accounted {h : History} (hr : Reach h) (x : Handler) :
    h.added.count x = h.s.iom.scheduled.count x + h.dropped.count x + armedWith h.s.iom x := by
  refine Registry.balance (reach_abs hr) (fun k hk => ?_) x
  have hout : h.s.iom.m_fdContexts.length ≤ k.1 := by
    by_contra hlt
    refine hk (Finset.mem_product.mpr ⟨Finset.mem_range.mpr (by omega), ?_⟩)
    rcases k with ⟨fd, side⟩
    cases side <;> simp
  show table h.s.iom k = none
  unfold table
  rw [Agreement.contextAt_of_length hout]
  rcases k with ⟨fd, side⟩
  cases side <;> rfl

/-! ## A run -/

/-- Fiber 7 of scheduler 0 waits to read descriptor 5. -/
def waitRead : Op := .addEvent IOManager.fiberSeven 5 .READ none true

theorem waiting_run : ∃ h, Below start (waitRead, true) ∧ Step start (waitRead, true) h := by
  have hb : Below start (waitRead, true) := show 5 < 1431655766 by decide
  exact ⟨⟨Agreement.waiting, [(0, .ofFiber 7 none)], []⟩, hb, Agreement.start_waiting, rfl, rfl⟩

theorem handlers_accounted_waiting : ∃ h : History, h.added = [(0, .ofFiber 7 none)] ∧
    h.added.count (0, .ofFiber 7 none) = h.s.iom.scheduled.count (0, .ofFiber 7 none) +
      h.dropped.count (0, .ofFiber 7 none) + armedWith h.s.iom (0, .ofFiber 7 none) := by
  obtain ⟨h, hb, hst⟩ := waiting_run
  exact ⟨h, hst.added, handlers_accounted (.step _ (.init rfl) ⟨hb, hst⟩) _⟩

end Registrations
end Sylar
