/-
  Sylar.Timer.Expiry — what listExpiredCb emits, and at which readings of the clock.

  - `listExpiredCb_expires`: it emits the timers whose time has come, or all of them after
    a rollover, each once and in the order of the set; the recurring ones are back in the
    set, the one-shot ones are out without their callback, the others are as they were.
  - `rollover_hour_iff`: a timer is emitted before its deadline only at a reading more than
    an hour below the previous one, exactly when no reading goes back, with a timer still
    to come, from a previous one of less than an hour: there `m_previousTime - 60 * 60 *
    1000` wraps around, and every step back is a rollover (`rollover_young_clock`).
  - `on_time_iff`: with a clock that never goes back, no timer is emitted before its start
    plus its interval as long as no addition overflows; and one that does leaves a timer
    which the next listExpiredCb emits too early.
-/

import Sylar.Timer.Front

namespace Sylar

namespace TimerManager

variable {m m' : TimerManager} {i : TimerId}

theorem expired_in_order {nowMs : UInt64} {l : List TimerId} (h : Expired m nowMs l m') (hok : Ok [] m) :
    OrderedSet.Sorted m.lt l ∧ l.Nodup := by
  obtain ⟨n, rfl⟩ := h.initial
  exact ⟨List.Pairwise.sublist (List.take_sublist _ _) hok.sorted,
    List.Pairwise.sublist (List.take_sublist _ _) hok.nodup⟩

theorem Expired.other {nowMs : UInt64} {l : List TimerId} (h : Expired m nowMs l m') (hi : i ∉ l) :
    m'.timer i = m.timer i ∧ (i ∈ m'.m_timers ↔ i ∈ m.m_timers) := by
  constructor
  · rw [h.timer, if_neg hi]
  · rw [h.mem]
    exact and_iff_left fun hl => absurd hl hi

theorem Expired.again {nowMs : UInt64} {l : List TimerId} (h : Expired m nowMs l m') (hi : i ∈ l)
    (hr : (m.timer i).m_recurring = true) :
    i ∈ m'.m_timers ∧ m'.timer i = { m.timer i with m_next := nowMs + (m.timer i).m_interval } := by
  constructor
  · exact (h.mem i).mpr ⟨h.mem_timers hi, fun _ => hr⟩
  · rw [h.timer, if_pos hi, fired, if_pos hr]

theorem Expired.done {nowMs : UInt64} {l : List TimerId} (h : Expired m nowMs l m') (hi : i ∈ l)
    (hr : (m.timer i).m_recurring = false) : i ∉ m'.m_timers ∧ m'.timer i = { m.timer i with m_cb := none } := by
  have hne : ¬(m.timer i).m_recurring = true := by
    rw [hr]
    exact Bool.false_ne_true
  constructor
  · exact fun hin => hne (((h.mem i).mp hin).2 hi)
  · rw [h.timer, if_pos hi, fired, if_neg hne]

/-- For every address of the search key: the timers due, or all after a rollover, are
    emitted once each in increasing (m_next, address); the recurring ones are in the set
    again with their next deadline, the others are out without callback, and no other
    timer has changed. -/
theorem listExpiredCb_expires (h : Lts.Reach Init Step m) (nowMs : UInt64) (addr : Nat) :
    ∃ m' expired, m.listExpiredCb nowMs addr = .ok (m', expired, expired.map fun i => (m.timer i).m_cb) ∧
      (∀ i, i ∈ expired ↔ i ∈ m.m_timers ∧ ((m.detectClockRollover nowMs).2 = true ∨ (m.timer i).m_next ≤ nowMs)) ∧
      expired.Nodup ∧
      expired.Pairwise (fun i j => (m.timer i).m_next < (m.timer j).m_next ∨
        ((m.timer i).m_next = (m.timer j).m_next ∧ (m.timer i).addr < (m.timer j).addr)) ∧
      (∀ i ∈ expired, (m.timer i).m_recurring = true →
        i ∈ m'.m_timers ∧ m'.timer i = { m.timer i with m_next := nowMs + (m.timer i).m_interval }) ∧
      (∀ i ∈ expired, (m.timer i).m_recurring = false →
        i ∉ m'.m_timers ∧ m'.timer i = { m.timer i with m_cb := none }) ∧
      (∀ i ∉ expired, m'.timer i = m.timer i ∧ (i ∈ m'.m_timers ↔ i ∈ m.m_timers)) := by
  have hok := reach_ok h
  obtain ⟨m', expired, he, hex⟩ := listExpiredCb_spec hok nowMs addr
  obtain ⟨hsorted, hnodup⟩ := expired_in_order hex hok
  exact ⟨m', expired, he, hex.due, hnodup, hsorted.imp lt_iff.mp, fun i hi => hex.again hi, fun i hi => hex.done hi,
    fun i hi => hex.other hi⟩

theorem listExpiredCb_expires_oneTimer :
    ∃ m' expired, oneTimer.listExpiredCb 5 100 = .ok (m', expired, expired.map fun i => (oneTimer.timer i).m_cb) ∧
      (∀ i ∈ expired, (oneTimer.timer i).m_recurring = false →
        i ∉ m'.m_timers ∧ m'.timer i = { oneTimer.timer i with m_cb := none }) := by
  obtain ⟨m', expired, he, -, -, -, -, hdone, -⟩ :=
    listExpiredCb_expires (.step _ (.init ⟨0, rfl⟩) oneTimer_step) 5 100
  exact ⟨m', expired, he, hdone⟩

/-! ## Readings that go back -/

variable {a : TimerOp × TimerOut}

/-- A rollover is a step back by more than an hour, or any from a reading below an hour. -/
theorem rollover_iff {nowMs : UInt64} : m.rollover nowMs = true ↔ nowMs < m.m_previousTime ∧
    (m.m_previousTime.toNat < 3600000 ∨ nowMs.toNat + 3600000 < m.m_previousTime.toNat) := by
  have hhour : (60 * 60 * 1000 : UInt64).toNat = 3600000 := rfl
  have hlt := nowMs.toNat_lt
  have hplt := m.m_previousTime.toNat_lt
  show (decide (nowMs < m.m_previousTime) && decide (nowMs < m.m_previousTime - 60 * 60 * 1000)) = true ↔ _
  rw [Bool.and_eq_true, decide_eq_true_iff, decide_eq_true_iff, UInt64.lt_iff_toNat_lt, UInt64.lt_iff_toNat_lt,
    UInt64.toNat_sub, hhour]
  omega

/-- The reading the next rollover is measured from: the last one of a listExpiredCb that
    found a timer. -/
def lastReading (m : TimerManager) (previous : UInt64) : TimerOp → UInt64
  | .listExpiredCb nowMs _ => if m.m_timers = [] then previous else nowMs
  | _ => previous

theorem Change.previous {op : TimerOp} {o : TimerOut} (hc : Change m op o m') :
    m'.m_previousTime = m.lastReading m.m_previousTime op := by
  cases hc with
  | add ha hadd =>
    rw [hadd.previous]
    cases op <;> first | rfl | cases ha
  | refuse ha => cases op <;> first | rfl | cases ha
  | refresh _ _ hr => exact hr.previous
  | reset _ _ _ hr => exact hr.previous
  | expire he => exact he.previous
  | _ => rfl

end TimerManager

namespace Rollover

open TimerManager

/-- A manager, and the reading at its construction or of the last listExpiredCb that
    found a timer. -/
structure State where
  m : TimerManager
  previous : UInt64

def Init (s : State) : Prop := s.m = new s.previous

def Step (s : State) (a : TimerOp × TimerOut) (s' : State) : Prop :=
  s.m.Step a s'.m ∧ s'.previous = s.m.lastReading s.previous a.1

/-- What is emitted before its deadline, at a reading more than an hour below the
    previous one. -/
def EarlyAfterHour (s : State) (a : TimerOp × TimerOut) (_ : State) : Prop :=
  ∀ nowMs addr, a.1 = .listExpiredCb nowMs addr → ∀ i ∈ a.2.expired, nowMs < (s.m.timer i).m_next →
    nowMs.toNat + 3600000 < s.previous.toNat

/-- No reading goes back from one below an hour while a timer is still to come. -/
def NoYoungStepBack (s : State) (a : TimerOp × TimerOut) : Prop :=
  ∀ nowMs addr, a.1 = .listExpiredCb nowMs addr → nowMs < s.previous →
    (∃ i ∈ s.m.m_timers, nowMs < (s.m.timer i).m_next) → 3600000 ≤ s.previous.toNat

structure Inv (s : State) : Prop where
  ok : Ok [] s.m
  previous : s.m.m_previousTime = s.previous

variable {s s' : State} {a : TimerOp × TimerOut}

theorem init_inv (h : Init s) : Inv s := ⟨h ▸ new_ok s.previous, by rw [h]; rfl⟩

theorem step_inv (hi : Inv s) (hs : Step s a s') : Inv s' := by
  have hc := step_change hi.ok hs.1
  exact ⟨hc.ok hi.ok, by rw [hc.previous, hs.2, hi.previous]⟩

theorem earlyAfterHour_iff (hi : Inv s) (hs : Step s a s') : EarlyAfterHour s a s' ↔ NoYoungStepBack s a := by
  have hc := step_change hi.ok hs.1
  obtain ⟨op, o⟩ := a
  generalize s'.m = m' at hc
  cases hc with
  | @expire nowMs addr l _ he =>
    have hdue : ∀ i ∈ s.m.m_timers, nowMs < (s.m.timer i).m_next → (i ∈ l ↔ s.m.rollover nowMs = true) := by
      intro i hin hlt
      rw [he.due, or_iff_left (UInt64.not_le.mpr hlt)]
      exact and_iff_right hin
    have hroll : s.m.rollover nowMs = true ↔ nowMs.toNat < s.previous.toNat ∧
        (s.previous.toNat < 3600000 ∨ nowMs.toNat + 3600000 < s.previous.toNat) := by
      rw [rollover_iff, hi.previous, UInt64.lt_iff_toNat_lt]
    constructor
    · intro hearly nowMs' addr' heq hback hex
      cases heq
      obtain ⟨i, hin, hlt⟩ := hex
      rw [UInt64.lt_iff_toNat_lt] at hback
      by_contra hyoung
      have hl := (hdue i hin hlt).mpr (hroll.mpr ⟨hback, .inl (Nat.not_le.mp hyoung)⟩)
      have := hearly nowMs addr rfl i hl hlt
      omega
    · intro hold nowMs' addr' heq i hl hlt
      cases heq
      have hin := he.mem_timers hl
      obtain ⟨hback, hfar⟩ := hroll.mp ((hdue i hin hlt).mp hl)
      have := hold nowMs addr rfl (UInt64.lt_iff_toNat_lt.mpr hback) ⟨i, hin, hlt⟩
      omega
  | add ha _ =>
    constructor
    · intro _ nowMs addr heq
      cases heq
      cases ha
    · intro _ nowMs addr heq i hin
      cases hin
  | refuse ha =>
    constructor
    · intro _ nowMs addr heq
      cases heq
      cases ha
    · intro _ nowMs addr heq i hin
      cases hin
  | _ => exact ⟨fun _ _ _ heq => (nomatch heq), fun _ _ _ heq => (nomatch heq)⟩

/-- In every run, every timer emitted before its deadline is emitted at a reading more
    than an hour below the previous one, exactly when no reading goes back from one below
    an hour while a timer is still to come. -/
theorem rollover_hour_iff {tr : List ((TimerOp × TimerOut) × State)} (hi : Init s) (hr : Lts.Run Step s tr) :
    Lts.Every EarlyAfterHour s tr ↔ Lts.Every (fun s a _ => NoYoungStepBack s a) s tr :=
  hr.every_iff (J := Inv) (P := EarlyAfterHour) (G := NoYoungStepBack) (fun _ _ _ hi _ hs => step_inv hi hs)
    (fun _ _ _ hi hs => earlyAfterHour_iff hi hs) (init_inv hi)

/-- A manager made nearly three hours after boot, with a timer due at 10000005. -/
def oldClock : TimerManager := ((new 10000000).addTimer 10000000 5 (some (.fn 7)) false 100).1

/-- Its clock goes back by one millisecond, then by more than an hour. -/
theorem rollover_hour_bothWays : ∃ tr : List ((TimerOp × TimerOut) × State),
    tr.map (·.1.2.expired) = [[], [], [0]] ∧ Lts.Every EarlyAfterHour ⟨new 10000000, 10000000⟩ tr := by
  have hadd : (new 10000000).Step (.addTimer 10000000 5 (some (.fn 7)) false 100, ⟨true, true, [], []⟩) oldClock := by
    refine ⟨?_, rfl⟩
    intro i hi
    rcases hi with hi | hi
    · cases hi
    · cases hi
  have hback : oldClock.Step (.listExpiredCb 9999999 0, ⟨true, false, [], []⟩)
      (oldClock.detectClockRollover 9999999).1 := ⟨trivial, rfl⟩
  have hfar : (oldClock.detectClockRollover 9999999).1.Step
      (.listExpiredCb 1000000 0, ⟨true, false, [0], [some (.fn 7)]⟩)
      { ((oldClock.detectClockRollover 9999999).1.detectClockRollover 1000000).1.clearCb 0 with m_timers := [] } :=
    ⟨trivial, rfl⟩
  have hrun : Lts.Run Step ⟨new 10000000, 10000000⟩ [(_, ⟨oldClock, 10000000⟩), (_, ⟨_, 9999999⟩), (_, ⟨_, 1000000⟩)] :=
    .cons ⟨hadd, rfl⟩ (.cons ⟨hback, rfl⟩ (.cons ⟨hfar, rfl⟩ (.nil _)))
  refine ⟨_, rfl, (rollover_hour_iff (show Init ⟨new 10000000, 10000000⟩ from rfl) hrun).mpr ⟨?_, ?_, ?_, trivial⟩⟩
  · intro nowMs addr heq
    cases heq
  · exact fun _ _ _ _ _ => by decide
  · exact fun _ _ _ _ _ => by decide

/-- A manager made one second after boot, with a timer due at 6000. -/
def youngTimer : TimerManager := ((new 1000).addTimer 1000 5000 (some (.fn 7)) false 100).1

/-- Its clock goes back by one millisecond, and the timer is emitted. -/
theorem rollover_young_clock :
    ∃ s tr, Init s ∧ Lts.Run Step s tr ∧ ¬Lts.Every EarlyAfterHour s tr := by
  have hadd : (new 1000).Step (.addTimer 1000 5000 (some (.fn 7)) false 100, ⟨true, true, [], []⟩) youngTimer := by
    refine ⟨?_, rfl⟩
    intro i hi
    rcases hi with hi | hi
    · cases hi
    · cases hi
  have hlist : youngTimer.Step (.listExpiredCb 999 0, ⟨true, false, [0], [some (.fn 7)]⟩)
      { (youngTimer.detectClockRollover 999).1.clearCb 0 with m_timers := [] } := ⟨trivial, rfl⟩
  have hrun : Lts.Run Step ⟨new 1000, 1000⟩ [(_, ⟨youngTimer, 1000⟩), (_, ⟨_, 999⟩)] :=
    .cons ⟨hadd, rfl⟩ (.cons ⟨hlist, rfl⟩ (.nil _))
  refine ⟨_, _, show Init ⟨new 1000, 1000⟩ from rfl, hrun, ?_⟩
  intro h
  obtain ⟨-, hearly, -⟩ := h
  have := hearly 999 0 rfl 0 (.head _) (by decide)
  revert this
  decide

end Rollover

/-! ## Deadlines in 64 bits -/

namespace OnTime

open TimerManager

/-- A manager, the last reading of its clock, and the start of each timer: the reading at
    its creation, its last refresh or reset from now, or its last emission. -/
structure State where
  m : TimerManager
  now : UInt64
  start : TimerId → UInt64

def Init (s : State) : Prop := s.m = new s.now

/-- The start an operation gives a timer, if it gives it one. -/
def restart (m : TimerManager) (a : TimerOp × TimerOut) (i : TimerId) : Option UInt64 :=
  match a.1 with
  | .addTimer nowMs _ _ _ _ => if i = m.created then some nowMs else none
  | .addConditionTimer nowMs _ _ _ _ _ => if i = m.created then some nowMs else none
  | .refresh j nowMs => if i = j ∧ a.2.ret = true then some nowMs else none
  | .reset j _ fromNow nowMs => if i = j ∧ fromNow = true ∧ a.2.ret = true then some nowMs else none
  | .listExpiredCb nowMs _ => if i ∈ a.2.expired then some nowMs else none
  | _ => none

/-- The clock does not go back. -/
structure Step (s : State) (a : TimerOp × TimerOut) (s' : State) : Prop where
  step : s.m.Step a s'.m
  clock : s.now ≤ s'.now
  now : s'.now = a.1.reading.getD s.now
  start : ∀ i, s'.start i = (restart s.m a i).getD (s.start i)

/-- No timer is emitted before its start plus its interval. -/
def NotEarly (s : State) (a : TimerOp × TimerOut) : Prop :=
  ∀ nowMs addr, a.1 = .listExpiredCb nowMs addr → ∀ i ∈ a.2.expired,
    (s.start i).toNat + (s.m.timer i).m_interval.toNat ≤ nowMs.toNat

/-- The next listExpiredCb, at whatever reading, emits no timer early. -/
def Punctual (s : State) : Prop := ∀ a s', Step s a s' → NotEarly s a

def Fits (s : State) (a : TimerOp × TimerOut) : Prop := s.m.NoOverflow a.1

variable {s s' : State} {a : TimerOp × TimerOut} {i : TimerId}

/-! ## The invariant -/

/-- The deadline is the sum, and the timer has started. -/
structure Counts (now start : UInt64) (t : Timer) : Prop where
  next : t.m_next = start + t.m_interval
  started : start ≤ now

structure Inv (s : State) : Prop where
  ok : Ok [] s.m
  counts : ∀ i ∈ s.m.m_timers, Counts s.now (s.start i) (s.m.timer i)
  previous : s.m.m_previousTime ≤ s.now

/-- The sum of start and interval fits in 64 bits. -/
def Exact (s : State) (i : TimerId) : Prop :=
  (s.start i).toNat + (s.m.timer i).m_interval.toNat < UInt64.size

theorem add_lt_of_overflow {x y : UInt64} (h : ¬x.toNat + y.toNat < UInt64.size) : x + y < x := by
  have hx := x.toNat_lt
  have hy := y.toNat_lt
  have hs : UInt64.size = 2 ^ 64 := rfl
  rw [UInt64.lt_iff_toNat_lt, UInt64.toNat_add]
  omega

/-- The start of a reset not from now is the one the timer has, overflow or not. -/
theorem Counts.resetStart {m : TimerManager} {now start : UInt64} (h : Counts now start (m.timer i))
    (nowMs : UInt64) : m.resetStart i false nowMs = start := by
  show (m.timer i).m_next - (m.timer i).m_interval = start
  rw [h.next, UInt64.add_sub_cancel]

theorem adds_restart {op : TimerOp} {t : Timer} (h : op.adds = some t) (m : TimerManager) (o : TimerOut) :
    ∃ r, op.reading = some r ∧ t.m_next = r + t.m_interval ∧
      (m.NoOverflow op ↔ r.toNat + t.m_interval.toNat < UInt64.size) ∧
      ∀ i, restart m (op, o) i = if i = m.created then some r else none := by
  cases op with
  | addTimer => cases h; exact ⟨_, rfl, rfl, Iff.rfl, fun _ => rfl⟩
  | addConditionTimer => cases h; exact ⟨_, rfl, rfl, Iff.rfl, fun _ => rfl⟩
  | _ => cases h

theorem restart_keeps (m : TimerManager) (j : TimerId) (interval nowMs : UInt64) (o : TimerOut) :
    restart m (.reset j interval false nowMs, o) i = none :=
  if_neg fun h => Bool.false_ne_true h.2.1

/-- An operation that refuses starts nothing. -/
theorem restart_refused {op : TimerOp} {j : TimerId} {o : TimerOut} (ha : op.asks = some j) (ho : o.ret = false)
    (m : TimerManager) : restart m (op, o) i = none := by
  cases op with
  | refresh => simp [restart, ho]
  | reset => simp [restart, ho]
  | cancel => rfl
  | _ => cases ha

/-! ## What a step counts -/

/-- The timers `C` are counted anew, by the additions of the step; the others in the set
    are as they were. -/
structure Counted (s : State) (a : TimerOp × TimerOut) (s' : State) (C : TimerId → Prop) : Prop where
  other : ∀ i ∈ s'.m.m_timers, ¬C i → i ∈ s.m.m_timers ∧ s'.start i = s.start i ∧ s'.m.timer i = s.m.timer i
  mem : ∀ i, C i → i ∈ s'.m.m_timers
  counts : ∀ i, C i → Counts s'.now (s'.start i) (s'.m.timer i)
  fits : Fits s a ↔ ∀ i, C i → Exact s' i

theorem Step.start_same (hs : Step s a s') (hr : restart s.m a i = none) : s'.start i = s.start i := by
  rw [hs.start, hr]
  rfl

theorem Step.start_new {r : UInt64} (hs : Step s a s') (hr : restart s.m a i = some r) : s'.start i = r := by
  rw [hs.start, hr]
  rfl

theorem Counted.none (hs : Step s a s') (hr : ∀ i, restart s.m a i = none)
    (hm : ∀ i ∈ s'.m.m_timers, i ∈ s.m.m_timers ∧ s'.m.timer i = s.m.timer i) (hf : Fits s a) :
    Counted s a s' fun _ => False where
  other i hin _ := ⟨(hm i hin).1, hs.start_same (hr i), (hm i hin).2⟩
  mem _ := False.elim
  counts _ := False.elim
  fits := ⟨fun _ _ => False.elim, fun _ => hf⟩

theorem Counted.same (hs : Step s a s') (hm : s'.m.m_timers = s.m.m_timers ∧ s'.m.timer = s.m.timer)
    (hr : ∀ i, restart s.m a i = Option.none) (hf : Fits s a) : Counted s a s' fun _ => False := by
  refine .none hs hr ?_ hf
  rw [hm.1, hm.2]
  exact fun i hin => ⟨hin, rfl⟩

/-- Timer `i` has become `t`, which is counted from `r`. -/
theorem Counted.one {t : Timer} {r : UInt64} (hs : Step s a s') (ht : s'.m.timer = Function.update s.m.timer i t)
    (hin : i ∈ s'.m.m_timers) (hm : ∀ j ∈ s'.m.m_timers, j ≠ i → j ∈ s.m.m_timers)
    (hr : ∀ j, j ≠ i → restart s.m a j = Option.none) (hstart : s'.start i = r) (hcount : Counts s'.now r t)
    (hf : Fits s a ↔ r.toNat + t.m_interval.toNat < UInt64.size) : Counted s a s' (· = i) := by
  have hself : s'.m.timer i = t := by rw [ht, Function.update_self]
  constructor
  · intro j hj hne
    refine ⟨hm j hj hne, hs.start_same (hr j hne), ?_⟩
    rw [ht, Function.update_of_ne hne]
  · intro j hj
    exact hj ▸ hin
  · intro j hj
    rw [hj, hself, hstart]
    exact hcount
  · rw [hf, forall_eq, Exact, hself, hstart]

theorem step_counted (hi : Inv s) (hs : Step s a s') : ∃ C, Counted s a s' C := by
  have hc := step_change hi.ok hs.step
  obtain ⟨op, o⟩ := a
  have hnow : ∀ {r}, op.reading = some r → s'.now = r := by
    intro r hr
    rw [hs.now, hr]
    rfl
  generalize hm' : s'.m = m' at hc
  cases hc with
  | @add _ t b _ ha hadd =>
    subst hm'
    obtain ⟨r, hr, hnext, hfit, hre⟩ := adds_restart ha s.m ⟨true, b, [], []⟩
    refine ⟨_, .one hs hadd.timer ((hadd.mem _).mpr (.inl rfl)) ?_ ?_ ?_ ⟨hnext, UInt64.le_of_eq (hnow hr).symm⟩ hfit⟩
    · exact fun j hj hne => ((hadd.mem j).mp hj).resolve_left hne
    · intro j hne
      rw [hre, if_neg hne]
    · exact hs.start_new (by rw [hre, if_pos rfl])
  | @refuse _ j ha hcb =>
    refine ⟨_, .same hs (by simp [hm']) (fun i => restart_refused ha rfl s.m) ?_⟩
    have hno : ∀ {P : Prop}, (s.m.timer j).m_cb.isSome = true → P := by
      intro P hsome
      rw [hcb] at hsome
      cases hsome
    cases op with
    | refresh => cases ha; exact hno
    | reset => cases ha; exact fun _ => hno
    | cancel => trivial
    | _ => cases ha
  | same =>
    exact ⟨_, .same hs (by simp [hm']) (fun i => restart_keeps ..) fun hne => absurd ⟨rfl, rfl⟩ hne⟩
  | @cancel j _ _ _ =>
    refine ⟨_, .none hs (fun _ => rfl) ?_ trivial⟩
    rw [hm']
    intro i hin
    obtain ⟨hne, hin⟩ := hi.ok.nodup.mem_erase_iff.mp hin
    exact ⟨hin, Function.update_of_ne hne ..⟩
  | @refresh j nowMs _ hin hcb hr _ =>
    subst hm'
    refine ⟨_, .one hs hr.timer ((hr.mem j).mpr hin) (fun i hi _ => (hr.mem i).mp hi) ?_ ?_
      ⟨rfl, UInt64.le_of_eq (hnow rfl).symm⟩ ⟨fun hf => hf hcb, fun hf _ => hf⟩⟩
    · exact fun i hne => if_neg fun h => hne h.1
    · exact hs.start_new (if_pos ⟨rfl, rfl⟩)
  | @reset j interval nowMs fromNow b _ hne hin hcb hr _ _ =>
    subst hm'
    have hcount := hi.counts j hin
    have hre : ∀ i, i ≠ j → restart s.m (.reset j interval fromNow nowMs, ⟨true, b, [], []⟩) i = none :=
      fun i hne => if_neg fun h => hne h.1
    have hstart : s'.start j = s.m.resetStart j fromNow nowMs ∧ s.m.resetStart j fromNow nowMs ≤ s'.now := by
      cases fromNow with
      | true =>
        exact ⟨hs.start_new (if_pos ⟨rfl, rfl, rfl⟩), UInt64.le_of_eq (hnow rfl).symm⟩
      | false =>
        rw [hcount.resetStart nowMs]
        exact ⟨hs.start_same (restart_keeps ..), UInt64.le_trans hcount.started hs.clock⟩
    exact ⟨_, .one hs hr.timer ((hr.mem j).mpr hin) (fun i hi _ => (hr.mem i).mp hi) hre hstart.1 ⟨rfl, hstart.2⟩
      ⟨fun hf => hf hne hcb, fun hf _ _ => hf⟩⟩
  | next => exact ⟨_, .same hs (by simp [hm']) (fun _ => rfl) trivial⟩
  | @expire nowMs addr l _ he =>
    subst hm'
    have hroll : s.m.rollover nowMs = false :=
      rollover_of_le (UInt64.le_trans hi.previous (hnow rfl ▸ hs.clock))
    have hstart : ∀ i ∈ l, s'.start i = nowMs := fun i hl => hs.start_new (if_pos hl)
    refine ⟨fun i => i ∈ l ∧ (s.m.timer i).m_recurring = true, ?_, ?_, ?_, ?_⟩
    · intro i hin hno
      have hl : i ∉ l := fun hl => hno ⟨hl, ((he.mem i).mp hin).2 hl⟩
      obtain ⟨ht, hmem⟩ := he.other hl
      exact ⟨hmem.mp hin, hs.start_same (if_neg hl), ht⟩
    · exact fun i h => (he.again h.1 h.2).1
    · intro i h
      rw [(he.again h.1 h.2).2, hstart i h.1]
      exact ⟨rfl, UInt64.le_of_eq (hnow rfl).symm⟩
    · constructor
      · intro hf i h
        have hdue := ((he.due i).mp h.1).2
        rw [hroll] at hdue
        rw [Exact, (he.again h.1 h.2).2, hstart i h.1]
        exact hf i (he.mem_timers h.1) h.2 (hdue.resolve_left Bool.false_ne_true)
      · intro hall i hin hr hdue
        have hl := (he.due i).mpr ⟨hin, .inr hdue⟩
        have hex := hall i ⟨hl, hr⟩
        rw [Exact, (he.again hl hr).2, hstart i hl] at hex
        exact hex
  | release => exact ⟨_, .same hs (by simp [hm']) (fun _ => rfl) trivial⟩

theorem init_inv (h : Init s) : Inv s ∧ ∀ i ∈ s.m.m_timers, Exact s i := by
  refine ⟨⟨h ▸ new_ok s.now, ?_, ?_⟩, ?_⟩
  · rw [h]
    exact nofun
  · rw [h]
    exact UInt64.le_refl _
  · rw [h]
    exact nofun

theorem step_inv (hi : Inv s) (hs : Step s a s') : Inv s' := by
  have hc := step_change hi.ok hs.step
  obtain ⟨C, hcounted⟩ := step_counted hi hs
  refine ⟨hc.ok hi.ok, ?_, ?_⟩
  · intro i hin
    by_cases h : C i
    · exact hcounted.counts i h
    · obtain ⟨hin, hstart, ht⟩ := hcounted.other i hin h
      rw [hstart, ht]
      exact ⟨(hi.counts i hin).next, UInt64.le_trans (hi.counts i hin).started hs.clock⟩
  · have hle := UInt64.le_trans hi.previous hs.clock
    have hnow := hs.now
    rw [hc.previous]
    cases hop : a.1 with
    | listExpiredCb nowMs addr =>
      rw [hop] at hnow
      simp only [lastReading]
      split
      · exact hle
      · exact UInt64.le_of_eq hnow.symm
    | _ => exact hle

/-- A step adds only sums that fit exactly when all deadlines of the set are exact after it. -/
theorem fits_iff (hi : Inv s) (he : ∀ i ∈ s.m.m_timers, Exact s i) (hs : Step s a s') :
    Fits s a ↔ ∀ i ∈ s'.m.m_timers, Exact s' i := by
  obtain ⟨C, hcounted⟩ := step_counted hi hs
  rw [hcounted.fits]
  constructor
  · intro hall i hin
    by_cases h : C i
    · exact hall i h
    · obtain ⟨hin, hstart, ht⟩ := hcounted.other i hin h
      rw [Exact, hstart, ht]
      exact he i hin
  · exact fun hall i h => hall i (hcounted.mem i h)

/-! ## Emission -/

/-- The next listExpiredCb is punctual exactly when all deadlines of the set are exact. -/
theorem punctual_iff (hi : Inv s) : Punctual s ↔ ∀ i ∈ s.m.m_timers, Exact s i := by
  constructor
  · intro hp i hin
    by_contra hover
    -- the deadline has wrapped around to before the start, so it has come
    have hdue : (s.m.timer i).m_next ≤ s.now := by
      have hcount := hi.counts i hin
      rw [hcount.next]
      exact UInt64.le_trans (UInt64.le_of_lt (add_lt_of_overflow hover)) hcount.started
    have hlegal : s.m.Legal (.listExpiredCb s.now 0) := trivial
    obtain ⟨o, m', he, hc⟩ := exec_change hi.ok hlegal
    have hl : i ∈ o.expired := by
      cases hc with
      | add ha _ => cases ha
      | refuse ha => cases ha
      | expire hex => exact (hex.due i).mpr ⟨hin, .inr hdue⟩
    have hlate := hp (.listExpiredCb s.now 0, o) ⟨m', s.now, _⟩
      ⟨⟨hlegal, he⟩, UInt64.le_refl _, rfl, fun _ => rfl⟩ s.now 0 rfl i hl
    have := s.now.toNat_lt
    have hsize : UInt64.size = 2 ^ 64 := rfl
    unfold Exact at hover
    omega
  · intro hex a s' hs nowMs addr hop i hl
    obtain ⟨op, o⟩ := a
    cases hop
    have hnow : s'.now = nowMs := hs.now
    have hc := step_change hi.ok hs.step
    generalize s'.m = m' at hc
    cases hc with
    | add ha _ => cases ha
    | refuse ha => cases ha
    | expire he =>
      have hroll : s.m.rollover nowMs = false :=
        rollover_of_le (UInt64.le_trans hi.previous (hnow ▸ hs.clock))
      obtain ⟨hin, hdue⟩ := (he.due i).mp hl
      rw [hroll] at hdue
      have hle := UInt64.le_iff_toNat_le.mp (hdue.resolve_left Bool.false_ne_true)
      rw [(hi.counts i hin).next, Front.toNat_add_of_fits (hex i hin)] at hle
      exact hle

/-- In every run, no listExpiredCb can emit a timer before its start plus its interval
    exactly when no addition of the run overflows. -/
theorem on_time_iff {tr : List ((TimerOp × TimerOut) × State)} (hi : Init s) (hr : Lts.Run Step s tr) :
    Lts.Every (fun _ _ s' => Punctual s') s tr ↔ Lts.Every (fun s a _ => Fits s a) s tr := by
  refine hr.every_iff (J := fun s => Inv s ∧ ∀ i ∈ s.m.m_timers, Exact s i) (P := fun _ _ s' => Punctual s')
    (G := Fits) ?_ ?_ (init_inv hi)
  · intro s a s' hinv hf hs
    exact ⟨step_inv hinv.1 hs, (fits_iff hinv.1 hinv.2 hs).mp hf⟩
  · intro s a s' hinv hs
    rw [punctual_iff (step_inv hinv.1 hs), fits_iff hinv.1 hinv.2 hs]

/-- The states before and after the one timer is added. -/
def beforeOne : State := ⟨new 0, 0, fun _ => 0⟩

def withOne : State := ⟨oneTimer, 0, fun _ => 0⟩

/-- The timer, refreshed at reading 2. -/
def refreshed : TimerManager := oneTimer.modify 0 ({ · with m_next := 7 })

/-- It is still to come at 5 and emitted at 7. -/
theorem refreshed_run : Lts.Run Step beforeOne
    [((.addTimer 0 5 (some (.fn 7)) false 100, ⟨true, true, [], []⟩), withOne),
      ((.refresh 0 2, ⟨true, false, [], []⟩), ⟨refreshed, 2, fun i => if i = 0 then 2 else 0⟩),
      ((.listExpiredCb 5 0, ⟨true, false, [], []⟩),
        ⟨(refreshed.detectClockRollover 5).1, 5, fun i => if i = 0 then 2 else 0⟩),
      ((.listExpiredCb 7 0, ⟨true, false, [0], [some (.fn 7)]⟩),
        ⟨{ (refreshed.detectClockRollover 7).1.clearCb 0 with m_timers := [] }, 7,
          fun i => if i = 0 then 7 else 0⟩)] := by
  have hadd : Step beforeOne (.addTimer 0 5 (some (.fn 7)) false 100, ⟨true, true, [], []⟩) withOne := by
    refine ⟨oneTimer_step, UInt64.le_refl _, rfl, ?_⟩
    intro i
    show (0 : UInt64) = (if i = 0 then some 0 else none).getD 0
    split <;> rfl
  have hrefresh : Step withOne (.refresh 0 2, ⟨true, false, [], []⟩)
      ⟨refreshed, 2, fun i => if i = 0 then 2 else 0⟩ := by
    refine ⟨⟨rfl, rfl⟩, by decide, rfl, ?_⟩
    intro i
    by_cases e : i = 0 <;> simp [restart, withOne, e]
  refine .cons hadd (.cons hrefresh (.cons ⟨⟨trivial, rfl⟩, by decide, rfl, ?_⟩
    (.cons ⟨⟨trivial, rfl⟩, by decide, rfl, ?_⟩ (.nil _))))
  · intro i
    rfl
  · intro i
    by_cases e : i = 0 <;> simp [restart, e]

theorem on_time_refreshed : ∃ tr : List ((TimerOp × TimerOut) × State),
    tr.map (·.1.2.expired) = [[], [], [], [0]] ∧ Lts.Every (fun _ _ s' => Punctual s') beforeOne tr := by
  refine ⟨_, rfl, (on_time_iff (show Init beforeOne from rfl) refreshed_run).mpr ⟨?_, ?_, ?_, ?_, trivial⟩⟩
  · show (0 : UInt64).toNat + (5 : UInt64).toNat < UInt64.size
    decide
  · intro _
    show (2 : UInt64).toNat + (5 : UInt64).toNat < UInt64.size
    decide
  · intro i hi hrec
    cases List.mem_singleton.mp hi
    cases hrec
  · intro i hi hrec
    cases List.mem_singleton.mp hi
    cases hrec

/-- A timer for the longest interval there is, at reading 1: its deadline is 0. -/
def wrappedTimer : TimerManager := ((new 1).addTimer 1 noTimer (some (.fn 7)) false 100).1

/-- The next listExpiredCb emits it at reading 1. -/
theorem wrapped_early : ∃ s tr, Init s ∧ Lts.Run Step s tr ∧ ¬Lts.Every (fun s a _ => NotEarly s a) s tr := by
  have hadd : (new 1).Step (.addTimer 1 noTimer (some (.fn 7)) false 100, ⟨true, true, [], []⟩) wrappedTimer := by
    refine ⟨?_, rfl⟩
    intro i hi
    rcases hi with hi | hi
    · cases hi
    · cases hi
  have hlist : wrappedTimer.Step (.listExpiredCb 1 0, ⟨true, false, [0], [some (.fn 7)]⟩)
      { (wrappedTimer.detectClockRollover 1).1.clearCb 0 with m_timers := [] } := ⟨trivial, rfl⟩
  have hrun : Lts.Run Step ⟨new 1, 1, fun _ => 1⟩ [(_, ⟨wrappedTimer, 1, _⟩), (_, ⟨_, 1, _⟩)] :=
    .cons ⟨hadd, UInt64.le_refl _, rfl, fun _ => rfl⟩ (.cons ⟨hlist, UInt64.le_refl _, rfl, fun _ => rfl⟩ (.nil _))
  refine ⟨_, _, show Init ⟨new 1, 1, _⟩ from rfl, hrun, ?_⟩
  intro h
  obtain ⟨-, hearly, -⟩ := h
  have := hearly 1 0 rfl 0 (.head _)
  revert this
  decide

end OnTime

end Sylar
