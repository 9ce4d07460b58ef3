/-
  Sylar.IOManager.Deadline — whether a thread blocked in epoll_wait can sleep past a
  timer (sylar/iomanager.cpp lines 301-367 and 420, over `Sylar.Timer.Manager`).

  The threads of `Sylar.IOManager.Machine` with the real TimerManager and a clock. A
  `Wait` is a call of epoll_wait: its timeout is the one getNextTimer gave, cut to an int
  and to MAX_TIMEOUT, and it runs from that reading of the clock. An interrupted wait
  starts its whole timeout again. User code calls the timers' operations at any time, from
  a task or from another thread; a call that reads the clock may have read it earlier.

  `Watched` is the property: a timer that every blocked thread would sleep past has a
  byte in the pipe, a `tickle` under way, or a thread past its wake-up and not inside a
  task. A thread that took the byte and goes into a task takes the notice with it.

  Proved: in every run in which the steps that take away or leave out a notice find
  another one (`Kept`), every state is `Watched` (`timers_watched`). Without that
  condition it may not be (`timer_unwatched`).
-/

import Sylar.Timer.Front
import Sylar.Scheduler.Run

namespace Sylar

/-- What other code than the idle fiber calls; `stop` calls getNextTimer. -/
def TimerOp.byUser : TimerOp → Bool
  | .listExpiredCb _ _ => false
  | _ => true

/-- Whether the operation goes by `addTimer(val, wlock)`, which calls
    onTimerInsertedAtFront. -/
def TimerOp.notifies : TimerOp → Bool
  | .addTimer _ _ _ _ _ => true
  | .addConditionTimer _ _ _ _ _ _ => true
  | .reset _ _ _ _ => true
  | _ => false

/-- The deadline the operation gives a timer. -/
def TimerOp.deadline (m : TimerManager) : TimerOp → Option UInt64
  | .addTimer nowMs interval _ _ _ => some (nowMs + interval)
  | .addConditionTimer nowMs interval _ _ _ _ => some (nowMs + interval)
  | .refresh i nowMs => if (m.timer i).m_cb.isSome then some (nowMs + (m.timer i).m_interval) else none
  | .reset i interval fromNow nowMs =>
    if ¬((m.timer i).m_interval = interval ∧ fromNow = false) ∧ (m.timer i).m_cb.isSome = true then
      some (m.resetStart i fromNow nowMs + interval)
    else none
  | _ => none

namespace Deadline

open Scheduler TimerManager

/-! ## Waiting -/

/-- `static_cast<int>`. -/
def toInt (n : UInt64) : Int := n.toUInt32.toInt32.toInt

def MAX_TIMEOUT : Int := 5000

/-- The new `nextTimeout`, which epoll_wait takes as an int. -/
def cutTimeout (nextTimeout : UInt64) : UInt64 :=
  if nextTimeout ≠ noTimer then UInt64.ofInt (min (toInt nextTimeout) MAX_TIMEOUT) else UInt64.ofInt MAX_TIMEOUT

structure Wait where
  nextTimeout : UInt64
  since : UInt64
  deriving DecidableEq, Repr

namespace Wait

/-- When it times out; with a negative timeout it does not. -/
def ends (w : Wait) : Option Nat :=
  if toInt w.nextTimeout < 0 then none else some (w.since.toNat + (toInt w.nextTimeout).toNat)

/-- It goes on beyond the deadline, or beyond its own start if the deadline is before that. -/
def late (w : Wait) (deadline : UInt64) : Bool :=
  match w.ends with
  | none => true
  | some e => decide (max deadline.toNat w.since.toNat < e)

def after (nextTimeout nowMs : UInt64) : Wait := ⟨cutTimeout nextTimeout, nowMs⟩

/-- After EINTR the loop cuts `nextTimeout` again and waits again. -/
def restart (w : Wait) (nowMs : UInt64) : Wait := after w.nextTimeout nowMs

end Wait

/-- Not late for any armed timer. -/
def InTime (m : TimerManager) (w : Wait) : Prop := ∀ i ∈ m.m_timers, w.late (m.timer i).m_next = false

/-! ## The threads -/

/-- The next thing the idle fiber does. -/
inductive IdlePc where
  | top
  | stop1 (w : Wait)
  | stop2 (w : Wait)
  | wait (w : Wait)
  | expire
  | hand (cbs : List (Option TimerCb))
  | events
  | triggered
  deriving DecidableEq

structure Ext where
  m : TimerManager
  now : UInt64
  m_pendingEventCount : Nat
  pipe : Nat

abbrev TimedState := Scheduler.State IdlePc Ext

inductive Act where
  | run (a : RunAct)
  | tickle (t : Tid)
  | write (t : Tid)
  | timer (t : Tid) (op : TimerOp) (out : TimerOut)
  | addEvent (t : Tid)
  | delEvent (t : Tid)
  | getNextTimer (t : Tid)
  | stopping (t : Tid)
  | interrupt (t : Tid)
  | wake (t : Tid)
  | expire (t : Tid) (out : TimerOut)
  | hand (t : Tid)
  | drain (t : Tid)
  | trigger (t : Tid) (task : ScheduleTask)
  | decr (t : Tid)
  | yield (t : Tid)
  | clock (nowMs : UInt64)

/-- `schedule(cb)`; `bound` is the function object that holds OnTimer and its arguments. -/
def cbTask (bound : CbId) : Option TimerCb → ScheduleTask
  | none => ⟨none, none, none⟩
  | some (.fn cb) => .ofCb cb none
  | some (.onTimer _ _) => .ofCb bound none

/-- What getNextTimer returns now. -/
def nextTimeout (s : TimedState) : UInt64 := (s.ext.m.getNextTimer s.ext.now).2

inductive Step (c : Config) : TimedState → Act → TimedState → Prop
  | run {s s' : TimedState} {a : RunAct} : RunStep c .top s a s' → Step c s (.run a) s'
  /-- `if (!hasIdleThreads()) return`. -/
  | tickle {s : TimedState} {t : Tid} : (s.th t).tickle = .check →
      Step c s (.tickle t) (s.tickles t (if 0 < s.m_idleThreadCount then .write else .no))
  | write {s : TimedState} {t : Tid} : (s.th t).tickle = .write →
      Step c s (.write t) ((s.tickles t .no).withExt { s.ext with pipe := s.ext.pipe + 1 })
  /-- onTimerInsertedAtFront tickles. -/
  | timer {s : TimedState} {t : Tid} {m' : TimerManager} (op : TimerOp) (out : TimerOut) : s.User c t →
      op.byUser = true → (∀ nowMs, op.reading = some nowMs → nowMs ≤ s.ext.now) → s.ext.m.Step (op, out) m' →
      Step c s (.timer t op out)
        ((if out.atFront then s.tickles t .check else s).withExt { s.ext with m := m' })
  | addEvent {s : TimedState} {t : Tid} : s.User c t →
      Step c s (.addEvent t) (s.withExt { s.ext with m_pendingEventCount := s.ext.m_pendingEventCount + 1 })
  | delEvent {s : TimedState} {t : Tid} : s.User c t →
      Step c s (.delEvent t) (s.withExt { s.ext with m_pendingEventCount := s.ext.m_pendingEventCount - 1 })
  /-- `getNextTimer() == max` in `stopping`. -/
  | getNextTimer {s : TimedState} {t : Tid} : s.At t (.idle .top) →
      Step c s (.getNextTimer t) ((s.goto t (.idle
        (if nextTimeout s = noTimer then .stop1 (.after (nextTimeout s) s.ext.now)
          else .wait (.after (nextTimeout s) s.ext.now)))).withExt
        { s.ext with m := (s.ext.m.getNextTimer s.ext.now).1 })
  /-- `m_pendingEventCount == 0`. -/
  | stopping1 {s : TimedState} {t : Tid} {w : Wait} : s.At t (.idle (.stop1 w)) →
      Step c s (.stopping t) (s.goto t (.idle (if s.ext.m_pendingEventCount = 0 then .stop2 w else .wait w)))
  /-- `Scheduler::stopping()`: the idle fiber ends, or goes to epoll_wait. -/
  | stopping2 {s : TimedState} {t : Tid} {w : Wait} : s.At t (.idle (.stop2 w)) →
      Step c s (.stopping t) (if Scheduler.stopping s then s.set t { s.th t with pc := .back, idleTerm := true }
        else s.goto t (.idle (.wait w)))
  /-- EINTR. -/
  | interrupt {s : TimedState} {t : Tid} {w : Wait} : s.At t (.idle (.wait w)) →
      Step c s (.interrupt t) (s.goto t (.idle (.wait (w.restart s.ext.now))))
  | wake {s : TimedState} {t : Tid} {w : Wait} : s.At t (.idle (.wait w)) →
      Step c s (.wake t) (s.goto t (.idle .expire))
  | expire {s : TimedState} {t : Tid} {m' : TimerManager} (addr : Nat) (out : TimerOut) : s.At t (.idle .expire) →
      s.ext.m.Step (.listExpiredCb s.ext.now addr, out) m' →
      Step c s (.expire t out) ((s.goto t (.idle (.hand out.cbs))).withExt { s.ext with m := m' })
  | hand {s : TimedState} {t : Tid} {cb : Option TimerCb} {cbs : List (Option TimerCb)} (bound : CbId) :
      s.At t (.idle (.hand (cb :: cbs))) →
      Step c s (.hand t) ((s.goto t (.idle (.hand cbs))).schedule t (cbTask bound cb))
  | handed {s : TimedState} {t : Tid} : s.At t (.idle (.hand [])) → Step c s (.hand t) (s.goto t (.idle .events))
  | drain {s : TimedState} {t : Tid} : s.At t (.idle .events) →
      Step c s (.drain t) (s.withExt { s.ext with pipe := 0 })
  | trigger {s : TimedState} {t : Tid} (task : ScheduleTask) : s.At t (.idle .events) →
      Step c s (.trigger t task) ((s.goto t (.idle .triggered)).schedule t task)
  | decr {s : TimedState} {t : Tid} : s.At t (.idle .triggered) →
      Step c s (.decr t) ((s.goto t (.idle .events)).withExt
        { s.ext with m_pendingEventCount := s.ext.m_pendingEventCount - 1 })
  | yield {s : TimedState} {t : Tid} : s.At t (.idle .events) → Step c s (.yield t) (s.goto t .back)
  | clock {s : TimedState} {nowMs : UInt64} : s.ext.now ≤ nowMs →
      Step c s (.clock nowMs) (s.withExt { s.ext with now := nowMs })

/-- The constructor is done: no timer, no event, an empty pipe. -/
structure Start (s : TimedState) : Prop where
  run : Scheduler.Start s
  m : TimerManager.Init s.ext.m
  m_pendingEventCount : s.ext.m_pendingEventCount = 0
  pipe : s.ext.pipe = 0

abbrev Reach (c : Config) : TimedState → Prop := Lts.Reach Start (Step c)

theorem empty_start : Start (State.empty ⟨.new 0, 0, 0, 0⟩) := ⟨Scheduler.empty_start _, ⟨0, rfl⟩, rfl, rfl⟩

/-! ## The property, and when it is kept -/

/-- Neither blocked nor inside a task; a thread outside `run` is neither. -/
def past : Pc IdlePc → Bool
  | .outside | .slice _ | .left | .idle (.wait _) => false
  | _ => true

/-- A timer that every blocked thread would sleep past has a notice, if a thread is
    blocked at all. -/
def Watched (c : Config) (s : TimedState) : Prop :=
  ∀ i ∈ s.ext.m.m_timers,
    (∀ t ∈ c.threads, ∀ w, (s.th t).pc = .idle (.wait w) → w.late (s.ext.m.timer i).m_next = true) →
    0 < s.ext.pipe ∨ (∃ t, (s.th t).tickle ≠ .no) ∨ (∃ t ∈ c.threads, past (s.th t).pc = true) ∨
      ∀ t ∈ c.threads, ∀ w, (s.th t).pc ≠ .idle (.wait w)

/-- In epoll_wait, or with its timeout on the way there. -/
def rests : Pc IdlePc → Bool
  | .idle (.stop1 _) | .idle (.stop2 _) | .idle (.wait _) => true
  | _ => false

def Resting (c : Config) (s : TimedState) : Prop := ∃ t ∈ c.threads, rests (s.th t).pc = true

/-- The thread calls getNextTimer before it blocks or runs a task, or its wait is `good`. -/
def attends (good : Wait → Prop) : Pc IdlePc → Prop
  | .idle (.stop1 w) | .idle (.stop2 w) | .idle (.wait w) => good w
  | .outside | .slice _ | .left => False
  | _ => True

/-- A byte in the pipe, a `tickle` under way, or a thread other than `skip` that attends. -/
def Noticed (c : Config) (skip : Option Tid) (good : Wait → Prop) (s : TimedState) : Prop :=
  0 < s.ext.pipe ∨ (∃ t, (s.th t).tickle ≠ .no) ∨ ∃ t ∈ c.threads, skip ≠ some t ∧ attends good (s.th t).pc

/-- Resting threads have a notice, or one of them is in time for every armed timer. -/
def Covered (c : Config) (s : TimedState) : Prop := Resting c s → Noticed c none (InTime s.ext.m) s

/-- A thread that goes into a task, leaves `run`, or starts a wait that is late (one with a
    negative timeout, or one started again), leaves another notice behind; and so does an
    operation that makes a timer the earliest without calling onTimerInsertedAtFront. -/
def Kept (c : Config) (s : TimedState) : Act → Prop
  | .run (.resume t) => Resting c s → Noticed c (some t) (InTime s.ext.m) s
  | .run (.leave t) => Resting c s → Noticed c (some t) (InTime s.ext.m) s
  | .getNextTimer t => (Wait.after (nextTimeout s) s.ext.now).ends = none → Noticed c (some t) (InTime s.ext.m) s
  | .interrupt t => ∀ w, (s.th t).pc = .idle (.wait w) → ¬InTime s.ext.m (w.restart s.ext.now) →
      Noticed c (some t) (InTime s.ext.m) s
  | .timer _ op _ => ∀ d, op.deadline s.ext.m = some d → (∀ i ∈ s.ext.m.m_timers, d < (s.ext.m.timer i).m_next) →
      s.ext.m.m_tickled = true ∨ op.notifies = false → Resting c s → Noticed c none (fun w => w.late d = false) s
  | _ => True

/-! ## Timeouts -/

theorem toInt_eq (n : UInt64) : toInt n = (n.toNat : Int).bmod 4294967296 := by
  rw [toInt, Int32.toInt, UInt32.toBitVec_toInt32, UInt64.toBitVec_toUInt32, BitVec.toInt_setWidth,
    UInt64.toNat_toBitVec]

theorem toInt_bounds (n : UInt64) : -2147483648 ≤ toInt n ∧ toInt n < 2147483648 := by
  rw [toInt_eq, Int.bmod_def]
  omega

theorem toInt_ofInt {k : Int} (hlo : -2147483648 ≤ k) (hhi : k < 2147483648) : toInt (UInt64.ofInt k) = k := by
  have hnat : ((UInt64.ofInt k).toNat : Int) = k % 18446744073709551616 := by
    simp only [UInt64.ofInt, UInt64.toNat_ofNat']
    omega
  rw [toInt_eq, hnat, Int.bmod_def]
  omega

/-- A value that fits an int is not made larger by the cast. -/
theorem toInt_le (n : UInt64) : toInt n ≤ n.toNat := by
  rw [toInt_eq, Int.bmod_def]
  omega

theorem toInt_cutTimeout (n : UInt64) :
    toInt (cutTimeout n) = if n ≠ noTimer then min (toInt n) MAX_TIMEOUT else MAX_TIMEOUT := by
  have hb := toInt_bounds n
  unfold cutTimeout MAX_TIMEOUT
  split
  · exact toInt_ofInt (by omega) (by omega)
  · exact toInt_ofInt (by omega) (by omega)

theorem toInt_cutTimeout_le (n : UInt64) : toInt (cutTimeout n) ≤ n.toNat := by
  rw [toInt_cutTimeout]
  have := toInt_le n
  split
  · omega
  · rename_i h
    rw [not_not.mp h]
    decide

theorem Wait.late_mono {w : Wait} {d d' : UInt64} (hle : d ≤ d') (h : w.late d = false) : w.late d' = false := by
  unfold late at h ⊢
  rw [UInt64.le_iff_toNat_le] at hle
  cases he : w.ends with
  | none =>
    rw [he] at h
    cases h
  | some e =>
    rw [he] at h
    simp only [decide_eq_false_iff_not] at h ⊢
    omega

/-- A wait that ends does so no later than the timeout it was made from. -/
theorem Wait.ends_after {n nowMs : UInt64} {e : Nat} (h : (Wait.after n nowMs).ends = some e) :
    e ≤ nowMs.toNat + n.toNat := by
  have hle := toInt_cutTimeout_le n
  by_cases hneg : toInt (cutTimeout n) < 0
  · rw [ends, after, if_pos hneg] at h
    cases h
  · rw [ends, after, if_neg hneg] at h
    have he : nowMs.toNat + (toInt (cutTimeout n)).toNat = e := Option.some.inj h
    omega

/-- With a timeout that is not negative, getNextTimer's is in time for every timer. -/
theorem getNextTimer_inTime {m : TimerManager} (hok : Ok [] m) (nowMs : UInt64)
    (h : (Wait.after (m.getNextTimer nowMs).2 nowMs).ends ≠ none) :
    InTime m (Wait.after (m.getNextTimer nowMs).2 nowMs) := by
  obtain ⟨e, he⟩ := Option.ne_none_iff_exists'.mp h
  have hends := Wait.ends_after he
  intro i hi
  have hle : (m.getNextTimer nowMs).2.toNat + nowMs.toNat ≤ max (m.timer i).m_next.toNat nowMs.toNat := by
    cases hl : m.m_timers with
    | nil =>
      rw [hl] at hi
      cases hi
    | cons first rest =>
      have hfirst : (m.timer first).m_next.toNat ≤ (m.timer i).m_next.toNat := by
        have hs := hok.sorted
        rw [hl] at hi hs
        rcases List.mem_cons.mp hi with rfl | hi
        · exact Nat.le_refl _
        · exact next_le_of_lt ((List.pairwise_cons.mp hs).1 i hi)
      simp only [getNextTimer, hl, ge_iff_le]
      split
      · simp
      · rename_i hlt
        rw [UInt64.le_iff_toNat_le] at hlt
        rw [UInt64.toNat_sub_of_le _ _ (UInt64.le_iff_toNat_le.mpr (by omega))]
        omega
  simp only [Wait.late, he, decide_eq_false_iff_not]
  show ¬max (m.timer i).m_next.toNat nowMs.toNat < e
  omega

/-! ## What an operation does to the deadlines -/

section Ops

variable {m m' : TimerManager} {op : TimerOp} {out : TimerOut}

theorem adds_deadline {t : Timer} (h : op.adds = some t) : op.deadline m = some t.m_next ∧ op.notifies = true := by
  cases op with
  | addTimer => cases h; exact ⟨rfl, rfl⟩
  | addConditionTimer => cases h; exact ⟨rfl, rfl⟩
  | _ => cases h

theorem asks_deadline {i : TimerId} (h : op.asks = some i) (hc : (m.timer i).m_cb = none) : op.deadline m = none := by
  cases op with
  | cancel => rfl
  | refresh => cases h; simp [TimerOp.deadline, hc]
  | reset => cases h; simp [TimerOp.deadline, hc]
  | _ => cases h

theorem rearmed_next {i j : TimerId} {t : Timer} (hr : Rearmed m i t m') (hj : j ∈ m'.m_timers) :
    (j = i ∧ (m'.timer j).m_next = t.m_next) ∨ (j ∈ m.m_timers ∧ (m'.timer j).m_next = (m.timer j).m_next) := by
  rw [hr.timer]
  by_cases e : j = i
  · subst e
    exact .inl ⟨rfl, by rw [Function.update_self]⟩
  · exact .inr ⟨(hr.mem j).mp hj, by rw [Function.update_of_ne e]⟩

/-- An operation leaves every deadline but the one it sets. -/
theorem change_next (hok : Ok [] m) (hc : Change m op out m') (hu : op.byUser = true) {j : TimerId}
    (hj : j ∈ m'.m_timers) :
    (j ∈ m.m_timers ∧ (m'.timer j).m_next = (m.timer j).m_next) ∨ op.deadline m = some (m'.timer j).m_next := by
  cases hc with
  | @add _ t _ _ ha hadd =>
    rw [(adds_deadline ha).1, hadd.timer]
    rcases (hadd.mem j).mp hj with rfl | hj
    · exact .inr (by rw [Function.update_self])
    · have hne : j ≠ m.created := Nat.ne_of_lt (hok.created j (.inl (.inr hj)))
      exact .inl ⟨hj, by rw [Function.update_of_ne hne]⟩
  | refuse => exact .inl ⟨hj, rfl⟩
  | same => exact .inl ⟨hj, rfl⟩
  | @cancel i _ _ _ =>
    refine .inl ⟨List.mem_of_mem_erase hj, ?_⟩
    show (Function.update m.timer i _ j).m_next = _
    by_cases e : j = i
    · rw [e, Function.update_self]
    · rw [Function.update_of_ne e]
  | @refresh i nowMs _ hin hcb hr _ =>
    rcases rearmed_next hr hj with ⟨-, he⟩ | h
    · exact .inr (by rw [TimerOp.deadline, if_pos hcb, he])
    · exact .inl h
  | reset hne hin hcb hr _ _ =>
    rcases rearmed_next hr hj with ⟨-, he⟩ | h
    · exact .inr (by rw [TimerOp.deadline, if_pos ⟨hne, hcb⟩, he])
    · exact .inl h
  | next => exact .inl ⟨hj, rfl⟩
  | expire => cases hu
  | release => exact .inl ⟨hj, rfl⟩

/-- A new earliest deadline is announced, when m_tickled is not set. -/
theorem change_front (hok : Ok [] m) (hc : Change m op out m') {d : UInt64} (hd : op.deadline m = some d)
    (hfirst : ∀ i ∈ m.m_timers, d < (m.timer i).m_next) (ht : m.m_tickled = false) (hn : op.notifies = true) :
    out.atFront = true := by
  cases hc with
  | @add _ t _ _ ha hadd =>
    rw [(adds_deadline ha).1] at hd
    refine hadd.front.mpr ⟨ht, fun j hj => lt_iff.mpr (.inl ?_)⟩
    have hne : j ≠ m.created := Nat.ne_of_lt (hok.created j (.inl (.inr hj)))
    rw [hadd.timer, Function.update_self, Function.update_of_ne hne, Option.some.inj hd]
    exact hfirst j hj
  | refuse ha hcb =>
    rw [asks_deadline ha hcb] at hd
    cases hd
  | same => simp [TimerOp.deadline] at hd
  | @reset i _ _ _ _ _ hne hin hcb hr _ hfront =>
    rw [TimerOp.deadline, if_pos ⟨hne, hcb⟩] at hd
    refine hfront.mpr ⟨ht, fun j hj hji => lt_iff.mpr (.inl ?_)⟩
    rw [hr.timer, Function.update_self, Function.update_of_ne hji]
    show m.resetStart i _ _ + _ < _
    rw [Option.some.inj hd]
    exact hfirst j hj
  | _ => cases hn

/-- A wait that is in time stays so if it is not late for the deadline the operation sets. -/
theorem change_inTime (hok : Ok [] m) (hc : Change m op out m') (hu : op.byUser = true) {w : Wait}
    (hw : InTime m w) (hd : ∀ d, op.deadline m = some d → w.late d = false) : InTime m' w := by
  intro j hj
  rcases change_next hok hc hu hj with ⟨hj, he⟩ | h
  · rw [he]
    exact hw j hj
  · exact hd _ h

end Ops

/-! ## What needs no condition -/

/-- Counted in m_idleThreadCount. -/
def counted : Pc IdlePc → Bool
  | .idle _ | .back => true
  | _ => false

structure Inv (c : Config) (s : TimedState) : Prop where
  run : Scheduler.Inv c s
  idle : s.m_idleThreadCount = countOn c.threads (fun x => counted x.pc) s.th
  ok : Ok [] s.ext.m

theorem start_inv {c : Config} {s : TimedState} (h : Start s) : Inv c s := by
  refine ⟨h.run.inv, ?_, ?_⟩
  · rw [h.run.m_idleThreadCount, eq_comm, countOn_eq_zero]
    intro t _
    rw [h.run.outside t]
    rfl
  · obtain ⟨nowMs, hm⟩ := h.m
    rw [hm]
    exact new_ok nowMs

variable {c : Config} {s s' : TimedState}

/-- One thread changes, counted as before. -/
theorem Inv.idle_set (hi : Inv c s) {t : Tid} {y : Thread IdlePc} (hth : s'.th = (s.set t y).th)
    (hn : s'.m_idleThreadCount = s.m_idleThreadCount) (hy : counted y.pc = counted (s.th t).pc) :
    s'.m_idleThreadCount = countOn c.threads (fun x => counted x.pc) s'.th := by
  rw [hn, hi.idle, hth]
  by_cases ht : t ∈ c.threads
  · have := countOn_update ht (fun x => counted x.pc) s.th y
    rw [hy] at this
    exact (Nat.add_right_cancel this).symm
  · exact (countOn_update_of_notMem ht _ _ _).symm

theorem Inv.tickles (hi : Inv c s) (t : Tid) (k : Tickle) : Inv c (s.tickles t k) :=
  ⟨hi.run.tickles t k, hi.idle_set rfl rfl rfl, hi.ok⟩

theorem Inv.withExt (hi : Inv c s) {ext : Ext} (hok : Ok [] ext.m) : Inv c (s.withExt ext) :=
  ⟨hi.run.withExt ext, hi.idle, hok⟩

theorem Inv.schedule (hi : Inv c s) (t : Tid) (task : ScheduleTask) : Inv c (s.schedule t task) := by
  refine ⟨hi.run.schedule t task, ?_, by rw [schedule_ext]; exact hi.ok⟩
  rcases schedule_cases s t task with ⟨-, hth⟩ | ⟨-, hth⟩
  · exact hi.idle_set hth (schedule_m_idleThreadCount s t task) rfl
  · rw [hth, schedule_m_idleThreadCount]
    exact hi.idle

theorem Inv.member (hi : Inv c s) {t : Tid} {pc : Pc IdlePc} (hat : s.At t pc) (hpc : pc ≠ .outside) :
    t ∈ c.threads :=
  hi.run.members t (by rw [hat.1]; exact hpc)

/-- A thread moves on in its idle fiber, or back to `run`. -/
theorem Inv.goto (hi : Inv c s) {t : Tid} {i : IdlePc} (hat : s.At t (.idle i)) {y : Thread IdlePc}
    (hheld : y.pc.held = none) (hact : y.pc.active = false) (hcount : counted y.pc = true) : Inv c (s.set t y) :=
  ⟨hi.run.move rfl rfl rfl rfl rfl rfl (by rw [hat.1, hheld]; rfl) (by rw [hat.1, hact]; rfl)
      fun _ => hi.member hat (by simp),
    hi.idle_set rfl rfl (by rw [hat.1, hcount]; rfl), hi.ok⟩

theorem run_idle (hi : Inv c s) {a : RunAct} (h : RunStep c .top s a s') :
    s'.m_idleThreadCount = countOn c.threads (fun x => counted x.pc) s'.th := by
  cases h with
  | enter hat _ _ => exact hi.idle_set rfl rfl (by rw [hat.1]; rfl)
  | @dequeue t hat =>
    rcases dequeue_cases s t with ⟨x, pre, post, k, -, -, -, -, hd⟩ | ⟨k, -, hd⟩
    · rw [hd]
      exact hi.idle_set rfl rfl (by rw [hat.1]; rfl)
    · rw [hd]
      exact hi.idle_set rfl rfl (by rw [hat.1]; rfl)
  | resume hat => exact hi.idle_set rfl rfl (by rw [hat.1]; rfl)
  | finish hat => exact hi.idle_set rfl rfl (by rw [hat.1]; rfl)
  | decr hat => exact hi.idle_set rfl rfl (by rw [hat.1]; rfl)
  | leave hat _ => exact hi.idle_set rfl rfl (by rw [hat.1]; rfl)
  | @goIdle t hat _ =>
    have ht := hi.member hat (by simp)
    have hup := countOn_update ht (fun x => counted x.pc) s.th { s.th t with pc := .idle .top }
    rw [hat.1] at hup
    show s.m_idleThreadCount + 1 = _
    rw [hi.idle]
    exact hup.symm
  | @back t hat =>
    have ht := hi.member hat (by simp)
    have hup := countOn_update ht (fun x => counted x.pc) s.th { s.th t with pc := .top }
    rw [hat.1] at hup
    show s.m_idleThreadCount - 1 = _
    rw [hi.idle]
    exact Nat.sub_eq_of_eq_add hup.symm
  | schedule task _ => exact (hi.schedule _ task).idle
  | stop _ => exact hi.idle
  | stopTickle _ _ => exact (hi.tickles _ .check).idle

theorem run_ext {a : RunAct} (h : RunStep c .top s a s') : s'.ext = s.ext := by
  cases h with
  | @dequeue t hat =>
    rcases dequeue_cases s t with ⟨x, pre, post, k, -, -, -, -, hd⟩ | ⟨k, -, hd⟩
    · rw [hd]
    · rw [hd]; rfl
  | schedule task _ => exact schedule_ext s _ task
  | _ => rfl

theorem step_inv {a : Act} (hi : Inv c s) (h : Step c s a s') : Inv c s' := by
  cases h with
  | run h => exact ⟨h.inv hi.run, run_idle hi h, by rw [run_ext h]; exact hi.ok⟩
  | tickle _ => exact hi.tickles _ _
  | write _ => exact (hi.tickles _ _).withExt hi.ok
  | @timer t m' op out _ _ _ hs =>
    have hok := step_ok hi.ok hs
    split
    · exact (hi.tickles t .check).withExt hok
    · exact hi.withExt hok
  | addEvent _ => exact hi.withExt hi.ok
  | delEvent _ => exact hi.withExt hi.ok
  | getNextTimer hat =>
    have hnext : Change s.ext.m (.getNextTimer s.ext.now) _ _ := .next
    exact (hi.goto hat rfl rfl rfl).withExt (hnext.ok hi.ok)
  | stopping1 hat => exact hi.goto hat rfl rfl rfl
  | stopping2 hat =>
    split
    · exact hi.goto hat rfl rfl rfl
    · exact hi.goto hat rfl rfl rfl
  | interrupt hat => exact hi.goto hat rfl rfl rfl
  | wake hat => exact hi.goto hat rfl rfl rfl
  | expire addr out hat hs => exact (hi.goto hat rfl rfl rfl).withExt (step_ok hi.ok hs)
  | hand bound hat => exact (hi.goto hat rfl rfl rfl).schedule _ _
  | handed hat => exact hi.goto hat rfl rfl rfl
  | drain _ => exact hi.withExt hi.ok
  | trigger task hat => exact (hi.goto hat rfl rfl rfl).schedule _ task
  | decr hat => exact (hi.goto hat rfl rfl rfl).withExt hi.ok
  | yield hat => exact hi.goto hat rfl rfl rfl
  | clock _ => exact hi.withExt hi.ok

/-! ## What keeps resting threads covered -/

theorem attends_mono {good good' : Wait → Prop} (h : ∀ w, good w → good' w) {pc : Pc IdlePc}
    (ha : attends good pc) : attends good' pc := by
  cases pc with
  | idle i =>
    cases i with
    | stop1 w => exact h w ha
    | stop2 w => exact h w ha
    | wait w => exact h w ha
    | _ => trivial
  | outside => exact ha
  | slice => exact ha
  | left => exact ha
  | _ => trivial

/-- A thread that attends is past its wake-up, or its wait is good. -/
theorem attends_cases {good : Wait → Prop} {pc : Pc IdlePc} (h : attends good pc) :
    past pc = true ∨ ∃ w, pc = .idle (.wait w) ∧ good w := by
  cases pc with
  | idle i =>
    cases i with
    | wait w => exact .inr ⟨w, rfl, h⟩
    | _ => exact .inl rfl
  | outside => cases h
  | slice => cases h
  | left => cases h
  | _ => exact .inl rfl

theorem Covered.watched (h : Covered c s) : Watched c s := by
  intro i hi hlate
  by_cases hb : ∃ t ∈ c.threads, ∃ w, (s.th t).pc = .idle (.wait w)
  · obtain ⟨t, ht, w, hw⟩ := hb
    rcases h ⟨t, ht, by rw [hw]; rfl⟩ with hp | hk | ⟨u, hu, -, ha⟩
    · exact .inl hp
    · exact .inr (.inl hk)
    · rcases attends_cases ha with hpast | ⟨v, hv, hgood⟩
      · exact .inr (.inr (.inl ⟨u, hu, hpast⟩))
      · have hl := hlate u hu v hv
        rw [hgood i hi] at hl
        cases hl
  · refine .inr (.inr (.inr fun t ht w hw => hb ⟨t, ht, w, hw⟩))

theorem covered_attends {t : Tid} (ht : t ∈ c.threads) (h : attends (InTime s.ext.m) (s.th t).pc) : Covered c s :=
  fun _ => .inr (.inr ⟨t, ht, by simp, h⟩)

theorem covered_tickling {t : Tid} (h : (s.th t).tickle ≠ .no) : Covered c s := fun _ => .inr (.inl ⟨t, h⟩)

/-- No thread changes, and good waits stay good. -/
theorem Noticed.mono {skip : Option Tid} {good good' : Wait → Prop} (h : Noticed c skip good s)
    (hg : ∀ w, good w → good' w) (hth : s'.th = s.th) (hp : s'.ext.pipe = s.ext.pipe) : Noticed c skip good' s' := by
  rcases h with h | ⟨t, h⟩ | ⟨t, ht, hskip, h⟩
  · exact .inl (hp ▸ h)
  · exact .inr (.inl ⟨t, hth ▸ h⟩)
  · exact .inr (.inr ⟨t, ht, hskip, hth ▸ attends_mono hg h⟩)

/-- One thread changes; it is the one left aside, or still attends. -/
theorem Noticed.set {skip : Option Tid} {good : Wait → Prop} (h : Noticed c skip good s) {t : Tid}
    {y : Thread IdlePc} (hth : s'.th = (s.set t y).th) (hp : s.ext.pipe ≤ s'.ext.pipe)
    (ha : skip ≠ some t → attends good (s.th t).pc → attends good y.pc)
    (hk : (s.th t).tickle ≠ .no → y.tickle ≠ .no) : Noticed c none good s' := by
  rcases h with h | ⟨u, h⟩ | ⟨u, hu, hskip, h⟩
  · exact .inl (Nat.lt_of_lt_of_le h hp)
  · refine .inr (.inl ⟨u, ?_⟩)
    rw [hth]
    exact set_keeps (fun _ x => x.tickle ≠ .no) h hk
  · refine .inr (.inr ⟨u, hu, by simp, ?_⟩)
    rw [hth]
    exact (set_keeps (fun v x => skip ≠ some v ∧ attends good x.pc) ⟨hskip, h⟩
      fun hv => ⟨hv.1, ha hv.1 hv.2⟩).2

/-- One thread changes; it neither comes to rest nor stops to attend. -/
theorem Covered.set (h : Covered c s) {t : Tid} {y : Thread IdlePc} (hth : s'.th = (s.set t y).th)
    (hm : s'.ext.m = s.ext.m) (hp : s.ext.pipe ≤ s'.ext.pipe) (hr : rests y.pc = true → rests (s.th t).pc = true)
    (ha : attends (InTime s.ext.m) (s.th t).pc → attends (InTime s.ext.m) y.pc)
    (hk : (s.th t).tickle ≠ .no → y.tickle ≠ .no) : Covered c s' := by
  intro hx
  obtain ⟨u, hu, hrest⟩ := hx
  rw [hth] at hrest
  have hrest' := of_set (fun _ x => rests x.pc = true) hrest hr
  rw [hm]
  exact (h ⟨u, hu, hrest'⟩).set hth hp (fun _ => ha) hk

theorem Covered.withExt (h : Covered c s) {ext : Ext} (hm : ext.m = s.ext.m) (hp : ext.pipe = s.ext.pipe) :
    Covered c (s.withExt ext) := by
  intro hr
  show Noticed c none (InTime ext.m) _
  rw [hm]
  exact (h hr).mono (fun _ hw => hw) rfl hp

/-- A thread that a `Kept` step takes out of attendance. -/
theorem covered_kept {t : Tid} (h : Resting c s' → Noticed c (some t) (InTime s.ext.m) s) {y : Thread IdlePc}
    (hth : s'.th = (s.set t y).th) (hm : s'.ext.m = s.ext.m) (hp : s'.ext.pipe = s.ext.pipe)
    (hk : y.tickle = (s.th t).tickle) : Covered c s' := by
  intro hr
  rw [hm]
  exact (h hr).set hth (Nat.le_of_eq hp.symm) (fun hne => absurd rfl hne) fun h => by rw [hk]; exact h

/-! ## Each step -/

theorem run_covered (hi : Inv c s) (hc : Covered c s) {a : RunAct} (hg : Kept c s (.run a))
    (h : RunStep c .top s a s') : Covered c s' := by
  -- a thread that comes to rest in this step was resting before
  have hrest {t : Tid} {y : Thread IdlePc} (hy : rests y.pc = false) :
      Resting c (s.set t y) → Resting c s := by
    intro hx
    obtain ⟨u, hu, hr⟩ := hx
    refine ⟨u, hu, of_set (fun _ x => rests x.pc = true) hr ?_⟩
    intro h
    rw [hy] at h
    cases h
  cases h with
  | @enter t hat ht _ => exact covered_attends ht (by simp [attends])
  | @dequeue t hat =>
    have ht := hi.member hat (by simp)
    rcases dequeue_cases s t with ⟨x, pre, post, k, -, -, -, -, hd⟩ | ⟨k, -, hd⟩
    · exact covered_attends ht (by rw [hd, set_th_self]; trivial)
    · exact covered_attends ht (by rw [hd, set_th_self]; trivial)
  | @resume t x hat =>
    exact covered_kept (fun hr => hg (hrest (y := { s.th t with pc := .slice x }) rfl hr)) rfl rfl rfl rfl
  | @finish t x hat => exact covered_attends (hi.member hat (by simp)) (by rw [goto_pc_self]; trivial)
  | @decr t x hat => exact covered_attends (t := t) (hi.member hat (by simp)) (by simp [State.goto, attends])
  | @leave t hat _ =>
    exact covered_kept (fun hr => hg (hrest (y := { s.th t with pc := .left }) rfl hr)) rfl rfl rfl rfl
  | @goIdle t hat _ => exact covered_attends (t := t) (hi.member hat (by simp)) (by simp [State.goto, attends])
  | @back t hat => exact covered_attends (t := t) (hi.member hat (by simp)) (by simp [State.goto, attends])
  | @schedule t task hu =>
    rcases schedule_cases s t task with ⟨-, hth⟩ | ⟨-, hth⟩
    · exact covered_tickling (t := t) (by rw [hth]; simp [State.tickles])
    · intro h
      obtain ⟨u, hu, hr⟩ := h
      rw [hth] at hr
      have hext := schedule_ext s t task
      rw [hext]
      exact (hc ⟨u, hu, hr⟩).mono (fun _ hw => hw) hth (by rw [hext])
  | stop _ => exact hc
  | @stopTickle t _ _ => exact covered_tickling (t := t) (by simp [State.tickles])

/-- An operation that does not announce its deadline: another timer is due no later, or
    the guard has found a notice. -/
theorem timer_covered (hi : Inv c s) (hc : Covered c s) {op : TimerOp} {out : TimerOut} {m' : TimerManager} {t : Tid}
    (hg : Kept c s (.timer t op out)) (hu : op.byUser = true) (hs : s.ext.m.Step (op, out) m')
    (hf : out.atFront = false) : Covered c (s.withExt { s.ext with m := m' }) := by
  have hch := step_change hi.ok hs
  have stays {w : Wait} (hw : InTime s.ext.m w) (hd : ∀ d, op.deadline s.ext.m = some d → w.late d = false) :
      InTime m' w := change_inTime hi.ok hch hu hw hd
  intro hr
  cases hd : op.deadline s.ext.m with
  | none =>
    refine (hc hr).mono (fun w hw => stays hw ?_) rfl rfl
    intro d h
    rw [hd] at h
    cases h
  | some d =>
    have hset {w : Wait} (hw : w.late d = false) : ∀ e, op.deadline s.ext.m = some e → w.late e = false := by
      intro e he
      rw [hd] at he
      exact Option.some.inj he ▸ hw
    by_cases hfirst : ∀ i ∈ s.ext.m.m_timers, d < (s.ext.m.timer i).m_next
    · have hquiet : s.ext.m.m_tickled = true ∨ op.notifies = false := by
        by_contra hno
        rw [not_or, Bool.not_eq_true, Bool.not_eq_false] at hno
        rw [change_front hi.ok hch hd hfirst hno.1 hno.2] at hf
        cases hf
      refine (hg d hd hfirst hquiet hr).mono (fun w hw => stays ?_ (hset hw)) rfl rfl
      exact fun i hin => Wait.late_mono (UInt64.le_of_lt (hfirst i hin)) hw
    · -- an armed timer is due no later than `d`
      have hex : ∃ i ∈ s.ext.m.m_timers, (s.ext.m.timer i).m_next ≤ d := by
        by_contra hno
        refine hfirst fun i hin => ?_
        by_contra hlt
        exact hno ⟨i, hin, UInt64.not_lt.mp hlt⟩
      obtain ⟨i, hin, hle⟩ := hex
      exact (hc hr).mono (fun w hw => stays hw (hset (Wait.late_mono hle (hw i hin)))) rfl rfl

theorem step_covered {a : Act} (hi : Inv c s) (hc : Covered c s) (hg : Kept c s a) (h : Step c s a s') :
    Covered c s' := by
  cases h with
  | run h => exact run_covered hi hc hg h
  | @tickle t hk =>
    by_cases hidle : 0 < s.m_idleThreadCount
    · rw [if_pos hidle]
      exact covered_tickling (t := t) (by simp [State.tickles])
    · -- with no thread counted idle, none rests
      rw [if_neg hidle]
      intro h
      obtain ⟨u, hu, hr⟩ := h
      have hzero := countOn_eq_zero.mp (hi.idle.symm.trans (Nat.eq_zero_of_not_pos hidle)) u hu
      rw [tickles_pc] at hr
      cases hpc : (s.th u).pc with
      | idle i =>
        rw [hpc] at hzero
        cases hzero
      | _ =>
        rw [hpc] at hr
        cases hr
  | write _ => exact fun _ => .inl (Nat.succ_pos _)
  | @timer t m' op out _ hu _ hs =>
    cases hf : out.atFront with
    | true => exact covered_tickling (t := t) (by simp [State.tickles, State.withExt])
    | false => exact timer_covered hi hc hg hu hs hf
  | addEvent _ => exact hc.withExt rfl rfl
  | delEvent _ => exact hc.withExt rfl rfl
  | @getNextTimer t hat =>
    have ht := hi.member hat (by simp)
    by_cases hends : (Wait.after (nextTimeout s) s.ext.now).ends = none
    · intro _
      exact (hg hends).set (t := t) rfl (Nat.le_refl _) (fun hne => absurd rfl hne) id
    · have hin := getNextTimer_inTime hi.ok s.ext.now hends
      refine covered_attends ht ?_
      show attends (InTime s.ext.m) ((s.goto t _).th t).pc
      rw [goto_pc_self]
      split
      · exact hin
      · exact hin
  | @stopping1 t w hat =>
    refine hc.set (t := t) rfl rfl (Nat.le_refl _) (fun _ => by rw [hat.1]; rfl) ?_ id
    intro h
    rw [hat.1] at h
    split
    · exact h
    · exact h
  | @stopping2 t w hat =>
    split
    · exact covered_attends (t := t) (hi.member hat (by simp)) (by simp [attends])
    · exact hc.set (t := t) rfl rfl (Nat.le_refl _) (fun _ => by rw [hat.1]; rfl)
        (fun h => by rw [hat.1] at h; exact h) id
  | @interrupt t w hat =>
    by_cases hin : InTime s.ext.m (w.restart s.ext.now)
    · exact covered_attends (hi.member hat (by simp)) (by rw [goto_pc_self]; exact hin)
    · exact covered_kept (t := t) (fun _ => hg w hat.1 hin) rfl rfl rfl rfl
  | @wake t w hat => exact covered_attends (hi.member hat (by simp)) (by rw [goto_pc_self]; trivial)
  | @expire t _ addr out hat _ =>
    exact covered_attends (t := t) (hi.member hat (by simp)) (by simp [State.withExt, attends])
  | @hand t _ _ bound hat =>
    exact covered_attends (t := t) (hi.member hat (by simp)) (by rw [schedule_pc, goto_pc_self]; trivial)
  | @handed t hat => exact covered_attends (hi.member hat (by simp)) (by rw [goto_pc_self]; trivial)
  | @drain t hat =>
    exact covered_attends (t := t) (hi.member hat (by simp)) (by simp [State.withExt, hat.1, attends])
  | @trigger t task hat =>
    exact covered_attends (t := t) (hi.member hat (by simp)) (by rw [schedule_pc, goto_pc_self]; trivial)
  | @decr t hat => exact covered_attends (t := t) (hi.member hat (by simp)) (by simp [State.withExt, attends])
  | @yield t hat => exact covered_attends (hi.member hat (by simp)) (by rw [goto_pc_self]; trivial)
  | clock _ => exact hc.withExt rfl rfl

/-- In every state of a run whose steps are all `Kept`, a timer that every blocked thread
    would sleep past has a notice, unless no thread is blocked. -/
theorem timers_watched (h : Lts.Reach Start (Lts.guarded (Step c) (Kept c)) s) : Watched c s := by
  have hinv : Inv c s ∧ Covered c s := by
    refine h.inv (I := fun s => Inv c s ∧ Covered c s) ?_ ?_
    · intro s h0
      refine ⟨start_inv h0, fun ⟨t, _, hr⟩ => ?_⟩
      rw [h0.run.outside t] at hr
      cases hr
    · intro s a s' ⟨hi, hc⟩ ⟨hg, hs⟩
      exact ⟨step_inv hi hs, step_covered hi hc hg hs⟩
  exact hinv.2.watched

/-! ## Runs -/

theorem fresh_new {m : TimerManager} {addr : Nat} (hh : m.held = fun _ => false) (ht : m.m_timers = []) :
    m.Fresh addr := by
  intro i hi
  rcases hi with hi | hi
  · rw [hh] at hi
    cases hi
  · rw [ht] at hi
    cases hi

/-- Thread 1 blocks; thread 9 adds a timer of 100 ms and writes to the pipe. -/
theorem timers_watched_notified : ∃ s : TimedState,
    (s.th 1).pc = .idle (.wait ⟨5000, 0⟩) ∧ 0 ∈ s.ext.m.m_timers ∧ Watched oneThread s := by
  have h0 : Lts.Reach Start (Lts.guarded (Step oneThread) (Kept oneThread)) _ := .init empty_start
  have h1 := h0.stepIf (.run (.enter (t := 1) ⟨rfl, rfl⟩ (by simp [oneThread]) (by simp [oneThread]))) trivial
  have h2 := h1.stepIf (.run (.dequeue (t := 1) ⟨rfl, rfl⟩)) trivial
  have h3 := h2.stepIf (.run (.goIdle (t := 1) ⟨rfl, rfl⟩ rfl)) trivial
  have h4 := h3.stepIf (.getNextTimer (t := 1) ⟨rfl, rfl⟩) fun h => by cases h
  have h5 := h4.stepIf (.stopping1 (t := 1) ⟨rfl, rfl⟩) trivial
  have h6 := h5.stepIf (.stopping2 (t := 1) ⟨rfl, rfl⟩) trivial
  have h7 := h6.stepIf (.timer (t := 9) (.addTimer 0 100 (some (.fn 7)) false 50) ⟨true, true, [], []⟩
    (.inr ⟨⟨rfl, rfl⟩, .inr rfl⟩) rfl (fun n hn => by cases hn; exact UInt64.le_refl _) ⟨fresh_new rfl rfl, rfl⟩)
    fun d _ _ hq => by rcases hq with hq | hq <;> cases hq
  have h8 := h7.stepIf (.tickle (t := 9) rfl) trivial
  have h9 := h8.stepIf (.write (t := 9) rfl) trivial
  exact ⟨_, rfl, List.mem_singleton_self _, timers_watched h9⟩

/-- Threads 1 and 2 block; thread 9 adds a timer of 100 ms and schedules a task, a byte
    each; thread 1 wakes, drains both and goes into the task; thread 2 sleeps on. -/
theorem notice_taken : ∃ (s : TimedState) (x : Entry), Reach twoThreads s ∧ s.ext.m.m_timers = [0] ∧
    (s.ext.m.timer 0).m_next = 100 ∧ (s.th 1).pc = .slice x ∧ (s.th 2).pc = .idle (.wait ⟨5000, 0⟩) ∧
    s.ext.pipe = 0 ∧ ∀ t, (s.th t).tickle = .no := by
  have h0 : Reach twoThreads _ := .init empty_start
  have h1 := h0.step _ (.run (.enter (t := 1) ⟨rfl, rfl⟩ (by simp [twoThreads]) (by simp [twoThreads])))
  have h2 := h1.step _ (.run (.dequeue (t := 1) ⟨rfl, rfl⟩))
  have h3 := h2.step _ (.run (.goIdle (t := 1) ⟨rfl, rfl⟩ rfl))
  have h4 := h3.step _ (.getNextTimer (t := 1) ⟨rfl, rfl⟩)
  have h5 := h4.step _ (.stopping1 (t := 1) ⟨rfl, rfl⟩)
  have h6 := h5.step _ (.stopping2 (t := 1) ⟨rfl, rfl⟩)
  have h7 := h6.step _ (.run (.enter (t := 2) ⟨rfl, rfl⟩ (by simp [twoThreads]) (by simp [twoThreads])))
  have h8 := h7.step _ (.run (.dequeue (t := 2) ⟨rfl, rfl⟩))
  have h9 := h8.step _ (.run (.goIdle (t := 2) ⟨rfl, rfl⟩ rfl))
  have h10 := h9.step _ (.getNextTimer (t := 2) ⟨rfl, rfl⟩)
  have h11 := h10.step _ (.stopping1 (t := 2) ⟨rfl, rfl⟩)
  have h12 := h11.step _ (.stopping2 (t := 2) ⟨rfl, rfl⟩)
  have h13 := h12.step _ (.timer (t := 9) (.addTimer 0 100 (some (.fn 7)) false 50) ⟨true, true, [], []⟩
    (.inr ⟨⟨rfl, rfl⟩, .inr rfl⟩) rfl (fun n hn => by cases hn; exact UInt64.le_refl _) ⟨fresh_new rfl rfl, rfl⟩)
  have h14 := h13.step _ (.tickle (t := 9) rfl)
  have h15 := h14.step _ (.write (t := 9) rfl)
  have h16 := h15.step _ (.run (.schedule (t := 9) (.ofCb 8 none) (.inr ⟨⟨rfl, rfl⟩, .inr rfl⟩)))
  have h17 := h16.step _ (.tickle (t := 9) rfl)
  have h18 := h17.step _ (.write (t := 9) rfl)
  have h19 := h18.step _ (.wake (t := 1) ⟨rfl, rfl⟩)
  have h20 := h19.step _ (.expire (t := 1) 60 ⟨true, false, [], []⟩ ⟨rfl, rfl⟩ ⟨trivial, rfl⟩)
  have h21 := h20.step _ (.handed (t := 1) ⟨rfl, rfl⟩)
  have h22 := h21.step _ (.drain (t := 1) ⟨rfl, rfl⟩)
  have h23 := h22.step _ (.yield (t := 1) ⟨rfl, rfl⟩)
  have h24 := h23.step _ (.run (.back (t := 1) ⟨rfl, rfl⟩))
  have h25 := h24.step _ (.run (.dequeue (t := 1) ⟨rfl, rfl⟩))
  have h26 := h25.step _ (.run (.resume (t := 1) ⟨rfl, rfl⟩))
  refine ⟨_, _, h26, rfl, rfl, rfl, rfl, rfl, fun t => ?_⟩
  by_cases e1 : t = 1
  · rw [e1]; rfl
  · by_cases e2 : t = 2
    · rw [e2]; rfl
    · by_cases e9 : t = 9
      · rw [e9]; rfl
      · have hite (p : Prop) [Decidable p] (a b : TimedState) :
            (if p then a else b).th t = if p then a.th t else b.th t := by
          split <;> rfl
        simp [State.goto, State.tickles, State.withExt, State.empty, set_th_ne, dequeue_th_ne, schedule_th_ne, hite, e1,
          e2, e9]

theorem timer_unwatched : ∃ s : TimedState, Reach twoThreads s ∧ ¬Watched twoThreads s := by
  obtain ⟨s, x, hr, hm, hnext, h1, h2, hp, hk⟩ := notice_taken
  refine ⟨s, hr, fun hw => ?_⟩
  have hlate : ∀ t ∈ twoThreads.threads, ∀ w, (s.th t).pc = .idle (.wait w) →
      w.late (s.ext.m.timer 0).m_next = true := by
    intro t ht w hpc
    rw [twoThreads, Finset.mem_insert, Finset.mem_singleton] at ht
    rcases ht with rfl | rfl
    · rw [h1] at hpc
      cases hpc
    · rw [h2] at hpc
      cases hpc
      rw [hnext]
      rfl
  rcases hw 0 (by rw [hm]; exact List.mem_singleton_self 0) hlate with h | ⟨t, h⟩ | ⟨t, ht, h⟩ | h
  · omega
  · exact h (hk t)
  · rw [twoThreads, Finset.mem_insert, Finset.mem_singleton] at ht
    rcases ht with rfl | rfl
    · rw [h1] at h
      cases h
    · rw [h2] at h
      cases h
  · exact h 2 (by simp [twoThreads]) _ h2

end Deadline

end Sylar
