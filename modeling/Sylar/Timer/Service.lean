/-
  Sylar.Timer.Service — what a TimerManager is for: timers with deadlines, without the
  ordered set, its iterators, and the addresses that tell equal deadlines apart.

  A `TimerService` knows of each timer whether it is armed, and for when. Of the order it
  leaves open what the addresses decide: which of two timers with one deadline goes first,
  and whether a new timer with the earliest deadline so far, which another one has too,
  is one to call onTimerInsertedAtFront for.

  Proved:
  - `service_refines`: every history of a TimerManager is one of the service, with the same
    answers, callbacks and waiting times. So is the history without a fault.
  - `wait_exact`: after getNextTimer, listExpiredCb at a later time emits nothing exactly
    until the waiting time that it returned has passed, if there is a timer.
-/

import Sylar.Timer.Expiry
import Mathlib.Order.Bounds.Basic

namespace Sylar

/-- A timer, armed for `due`. -/
structure Alarm where
  recurring : Bool
  interval : UInt64
  cb : Option TimerCb
  due : Option UInt64
  deriving DecidableEq, Repr

structure TimerService where
  alarm : TimerId → Alarm
  created : Nat
  held : TimerId → Bool
  /-- Whoever waits has been told of an earlier deadline. -/
  told : Bool
  previous : UInt64

/-- Of a new timer. -/
def Timer.alarm (t : Timer) (armed : Bool) : Alarm :=
  ⟨t.m_recurring, t.m_interval, t.m_cb, if armed then some t.m_next else none⟩

namespace TimerService

def deadlines (s : TimerService) : Set UInt64 := {d | ∃ i, d ∈ (s.alarm i).due}

def set (s : TimerService) (i : TimerId) (a : Alarm) : TimerService :=
  { s with alarm := Function.update s.alarm i a }

@[simp] theorem set_self (s : TimerService) (i : TimerId) (a : Alarm) : (s.set i a).alarm i = a :=
  Function.update_self ..

@[simp] theorem set_of_ne (s : TimerService) {i j : TimerId} (a : Alarm) (h : j ≠ i) :
    (s.set i a).alarm j = s.alarm j := Function.update_of_ne h ..

/-- Whether to tell of the deadline `d`: it is the earliest, and nobody has been told. -/
structure Tells (s : TimerService) (d : UInt64) (atFront : Bool) : Prop where
  earliest : atFront = true → s.told = false ∧ ∀ d' ∈ s.deadlines, d ≤ d'
  always : s.told = false → (∀ d' ∈ s.deadlines, d < d') → atFront = true

/-- A step back by more than an hour, or any from a reading below an hour. -/
def Rollover (s : TimerService) (nowMs : UInt64) : Prop :=
  nowMs < s.previous ∧ (s.previous.toNat < 3600000 ∨ nowMs.toNat + 3600000 < s.previous.toNat)

/-- The alarm after it went off. -/
def fired (nowMs : UInt64) (a : Alarm) : Alarm :=
  if a.recurring then { a with due := some (nowMs + a.interval) } else { a with cb := none, due := none }

/-- `l` are those to go off, by their deadlines. -/
structure Due (s : TimerService) (nowMs : UInt64) (l : List TimerId) : Prop where
  mem : ∀ i, i ∈ l ↔ ∃ d ∈ (s.alarm i).due, s.Rollover nowMs ∨ d ≤ nowMs
  nodup : l.Nodup
  inOrder : l.Pairwise fun i j => ∀ d ∈ (s.alarm i).due, ∀ d' ∈ (s.alarm j).due, d ≤ d'

/-- How long to wait for the first deadline. -/
def Wait (s : TimerService) (nowMs wait : UInt64) : Prop :=
  (s.deadlines = ∅ ∧ wait = TimerManager.noTimer) ∨
    ∃ d, IsLeast s.deadlines d ∧ wait = if d ≤ nowMs then 0 else d - nowMs

/-- An operation, what it returns and emits, and the waiting time if it gives one. -/
inductive Step (s : TimerService) : TimerOp × TimerOut × Option UInt64 → TimerService → Prop
  | add {op : TimerOp} {t : Timer} {b : Bool} : op.adds = some t → s.Tells t.m_next b →
      Step s (op, ⟨true, b, [], []⟩, none)
        { s.set s.created (t.alarm true) with
          created := s.created + 1, held := Function.update s.held s.created true, told := s.told || b }
  | refuse {op : TimerOp} {i : TimerId} : op.asks = some i → (s.alarm i).cb = none →
      Step s (op, ⟨false, false, [], []⟩, none) s
  | same {i : TimerId} {nowMs : UInt64} :
      Step s (.reset i (s.alarm i).interval false nowMs, ⟨true, false, [], []⟩, none) s
  | cancel {i : TimerId} {d : UInt64} : d ∈ (s.alarm i).due → (s.alarm i).cb.isSome = true →
      Step s (.cancel i, ⟨true, false, [], []⟩, none) (s.set i { s.alarm i with cb := none, due := none })
  | refresh {i : TimerId} {nowMs d : UInt64} : d ∈ (s.alarm i).due → (s.alarm i).cb.isSome = true →
      Step s (.refresh i nowMs, ⟨true, false, [], []⟩, none)
        (s.set i { s.alarm i with due := some (nowMs + (s.alarm i).interval) })
  | reset {i : TimerId} {interval nowMs d : UInt64} {fromNow b : Bool} :
      ¬((s.alarm i).interval = interval ∧ fromNow = false) → d ∈ (s.alarm i).due → (s.alarm i).cb.isSome = true →
      (s.set i { s.alarm i with due := none }).Tells
        ((if fromNow then nowMs else d - (s.alarm i).interval) + interval) b →
      Step s (.reset i interval fromNow nowMs, ⟨true, b, [], []⟩, none)
        { s.set i { s.alarm i with
            interval := interval
            due := some ((if fromNow then nowMs else d - (s.alarm i).interval) + interval) } with
          told := s.told || b }
  | next {nowMs wait : UInt64} : s.Wait nowMs wait →
      Step s (.getNextTimer nowMs, ⟨true, false, [], []⟩, some wait) { s with told := false }
  | expire {nowMs : UInt64} {addr : Nat} {l : List TimerId} {s' : TimerService} : s.Due nowMs l →
      (s.deadlines = ∅ → s'.previous = s.previous) → (s.deadlines.Nonempty → s'.previous = nowMs) →
      s' = { s with
        alarm := fun i => if i ∈ l then fired nowMs (s.alarm i) else s.alarm i, previous := s'.previous } →
      Step s (.listExpiredCb nowMs addr, ⟨true, false, l, l.map fun i => (s.alarm i).cb⟩, none) s'
  | release {i : TimerId} : s.held i = true →
      Step s (.release i, ⟨true, false, [], []⟩, none) { s with held := Function.update s.held i false }

def start (nowMs : UInt64) : TimerService := ⟨fun _ => ⟨false, 0, none, none⟩, 0, fun _ => false, false, nowMs⟩

end TimerService

namespace TimerManager

/-- A step with the waiting time that getNextTimer returns. -/
def Observed (m : TimerManager) (a : TimerOp × TimerOut × Option UInt64) (m' : TimerManager) : Prop :=
  m.Step (a.1, a.2.1) m' ∧
    a.2.2 =
      match a.1 with
      | .getNextTimer nowMs => some (m.getNextTimer nowMs).2
      | _ => none

/-- Without the set and the addresses. -/
def service (m : TimerManager) : TimerService where
  alarm i := (m.timer i).alarm (i ∈ m.m_timers)
  created := m.created
  held := m.held
  told := m.m_tickled
  previous := m.m_previousTime

/-! ## The deadlines -/

variable {m m' : TimerManager} {i : TimerId} {d nowMs : UInt64}

theorem due_service : d ∈ (m.service.alarm i).due ↔ i ∈ m.m_timers ∧ (m.timer i).m_next = d := by
  show (if decide (i ∈ m.m_timers) then some (m.timer i).m_next else none) = some d ↔ _
  by_cases h : i ∈ m.m_timers
  · simp [h]
  · simp [h]

theorem mem_deadlines : d ∈ m.service.deadlines ↔ ∃ i ∈ m.m_timers, (m.timer i).m_next = d :=
  exists_congr fun _ => due_service

theorem deadlines_eq_empty : m.service.deadlines = ∅ ↔ m.m_timers = [] := by
  rw [Set.eq_empty_iff_forall_notMem, List.eq_nil_iff_forall_not_mem]
  constructor
  · intro h i hi
    exact h _ (mem_deadlines.mpr ⟨i, hi, rfl⟩)
  · intro h d hd
    obtain ⟨i, hi, -⟩ := mem_deadlines.mp hd
    exact h i hi

/-- The first timer of the set has the first deadline. -/
theorem isLeast_head (h : Ok [] m) {rest : List TimerId} (hl : m.m_timers = i :: rest) :
    IsLeast m.service.deadlines (m.timer i).m_next := by
  refine ⟨mem_deadlines.mpr ⟨i, hl ▸ List.mem_cons_self, rfl⟩, ?_⟩
  intro d hd
  obtain ⟨j, hj, rfl⟩ := mem_deadlines.mp hd
  have hsorted := h.sorted
  rw [hl] at hj hsorted
  rcases List.mem_cons.mp hj with rfl | hj
  · exact UInt64.le_refl _
  · exact UInt64.le_iff_toNat_le.mpr (next_le_of_lt ((List.pairwise_cons.mp hsorted).1 j hj))

theorem wait_service (h : Ok [] m) (nowMs : UInt64) : m.service.Wait nowMs (m.getNextTimer nowMs).2 := by
  cases hl : m.m_timers with
  | nil =>
    refine .inl ⟨deadlines_eq_empty.mpr hl, ?_⟩
    rw [getNextTimer, hl]
  | cons first rest =>
    refine .inr ⟨_, isLeast_head h hl, ?_⟩
    rw [getNextTimer, hl]

/-! ## The operations -/

/-- One timer is changed, armed or disarmed. -/
theorem alarm_update {t : Timer} (htimer : m'.timer = Function.update m.timer i t)
    (hmem : ∀ j, j ≠ i → (j ∈ m'.m_timers ↔ j ∈ m.m_timers)) :
    m'.service.alarm = Function.update m.service.alarm i (t.alarm (i ∈ m'.m_timers)) := by
  funext j
  show (m'.timer j).alarm (j ∈ m'.m_timers) = _
  by_cases hj : j = i
  · rw [hj, Function.update_self, htimer, Function.update_self]
  · rw [Function.update_of_ne hj, htimer, Function.update_of_ne hj, decide_eq_decide.mpr (hmem j hj)]
    rfl

theorem service_eq {s : TimerService} (halarm : m.service.alarm = s.alarm) (hcreated : m.created = s.created)
    (hheld : m.held = s.held) (htold : m.m_tickled = s.told) (hprevious : m.m_previousTime = s.previous) :
    m.service = s := by
  obtain ⟨_, _, _, _, _⟩ := s
  cases halarm
  cases hcreated
  cases hheld
  cases htold
  cases hprevious
  rfl

/-- The comparison with all others, without the addresses. -/
theorem tells_service {s : TimerService} {b : Bool} {d : UInt64} (htold : s.told = m.m_tickled)
    (hnext : (m'.timer i).m_next = d) (others : List TimerId)
    (hothers : ∀ d', d' ∈ s.deadlines ↔ ∃ j ∈ others, (m'.timer j).m_next = d')
    (hb : b = true ↔ m.m_tickled = false ∧ ∀ j ∈ others, m'.lt i j = true) : s.Tells d b := by
  constructor
  · intro htrue
    obtain ⟨hnot, hlt⟩ := hb.mp htrue
    refine ⟨htold.trans hnot, fun d' hd' => ?_⟩
    obtain ⟨j, hj, rfl⟩ := (hothers d').mp hd'
    rw [← hnext]
    exact UInt64.le_iff_toNat_le.mpr (next_le_of_lt (hlt j hj))
  · intro hnot hless
    refine hb.mpr ⟨htold.symm.trans hnot, fun j hj => lt_iff.mpr (.inl ?_)⟩
    rw [hnext]
    exact hless _ ((hothers _).mpr ⟨j, hj, rfl⟩)

theorem add_service (h : Ok [] m) {op : TimerOp} {t : Timer} {b : Bool} (ha : op.adds = some t)
    (hadd : Added m t b m') : m.service.Step (op, ⟨true, b, [], []⟩, none) m'.service := by
  have hne : ∀ j ∈ m.m_timers, j ≠ m.created := fun j hj => Nat.ne_of_lt (h.created j (.inl (.inr hj)))
  have htimer : ∀ j ∈ m.m_timers, m'.timer j = m.timer j := fun j hj => by
    rw [hadd.timer, Function.update_of_ne (hne j hj)]
  have htells : m.service.Tells t.m_next b := by
    refine tells_service (i := m.created) rfl ?_ m.m_timers (fun d' => ?_) hadd.front
    · rw [hadd.timer, Function.update_self]
    · rw [mem_deadlines]
      refine exists_congr fun j => and_congr_right fun hj => ?_
      rw [htimer j hj]
  have halarm := alarm_update hadd.timer fun j hj => by rw [hadd.mem, or_iff_right hj]
  rw [decide_eq_true ((hadd.mem _).mpr (.inl rfl))] at halarm
  have hservice := service_eq (m := m') (s := { m.service.set m.service.created (t.alarm true) with
    created := m.created + 1, held := Function.update m.held m.created true, told := m.m_tickled || b })
    halarm hadd.created hadd.held hadd.tickled hadd.previous
  rw [hservice]
  exact .add ha htells

theorem cancel_service (h : Ok [] m) (hin : i ∈ m.m_timers) (hcb : (m.timer i).m_cb.isSome = true) :
    m.service.Step (.cancel i, ⟨true, false, [], []⟩, none)
      (service { m.clearCb i with m_timers := m.m_timers.erase i }) := by
  have halarm := @alarm_update m { m.clearCb i with m_timers := m.m_timers.erase i } i _ rfl fun j hj =>
    List.mem_erase_of_ne hj
  have hout : ¬i ∈ m.m_timers.erase i := h.nodup.not_mem_erase
  have hservice := service_eq (s := m.service.set i { m.service.alarm i with cb := none, due := none })
    (halarm.trans ?_) rfl rfl rfl rfl
  · rw [hservice]
    exact .cancel (due_service.mpr ⟨hin, rfl⟩) hcb
  · rw [decide_eq_false hout]
    rfl

theorem refresh_service (hin : i ∈ m.m_timers) (hcb : (m.timer i).m_cb.isSome = true)
    (hr : Rearmed m i { m.timer i with m_next := nowMs + (m.timer i).m_interval } m')
    (ht : m'.m_tickled = m.m_tickled) :
    m.service.Step (.refresh i nowMs, ⟨true, false, [], []⟩, none) m'.service := by
  have halarm := alarm_update hr.timer fun j _ => hr.mem j
  rw [decide_eq_true ((hr.mem i).mpr hin)] at halarm
  have hservice := service_eq (m := m')
    (s := m.service.set i { m.service.alarm i with due := some (nowMs + (m.service.alarm i).interval) })
    halarm hr.created hr.held ht hr.previous
  rw [hservice]
  exact .refresh (due_service.mpr ⟨hin, rfl⟩) hcb

theorem reset_service {interval : UInt64} {fromNow b : Bool}
    (hne : ¬((m.timer i).m_interval = interval ∧ fromNow = false)) (hin : i ∈ m.m_timers)
    (hcb : (m.timer i).m_cb.isSome = true)
    (hr : Rearmed m i { m.timer i with
      m_interval := interval, m_next := m.resetStart i fromNow nowMs + interval } m')
    (ht : m'.m_tickled = (m.m_tickled || b))
    (hb : b = true ↔ m.m_tickled = false ∧ ∀ j ∈ m.m_timers, j ≠ i → m'.lt i j = true) :
    m.service.Step (.reset i interval fromNow nowMs, ⟨true, b, [], []⟩, none) m'.service := by
  have htells : (m.service.set i { m.service.alarm i with due := none }).Tells
      (m.resetStart i fromNow nowMs + interval) b := by
    refine @tells_service m m' i _ _ _ rfl ?_ (m.m_timers.filter (· ≠ i)) (fun d' => ?_) (hb.trans ?_)
    · rw [hr.timer, Function.update_self]
    · simp only [List.mem_filter, decide_eq_true_eq]
      constructor
      · rintro ⟨j, hj⟩
        by_cases hji : j = i
        · rw [hji, TimerService.set_self] at hj
          cases hj
        · rw [TimerService.set_of_ne _ _ hji] at hj
          obtain ⟨hmem, hnext⟩ := due_service.mp hj
          refine ⟨j, ⟨hmem, hji⟩, ?_⟩
          rw [hr.timer, Function.update_of_ne hji, hnext]
      · rintro ⟨j, ⟨hmem, hji⟩, hnext⟩
        rw [hr.timer, Function.update_of_ne hji] at hnext
        refine ⟨j, ?_⟩
        rw [TimerService.set_of_ne _ _ hji]
        exact due_service.mpr ⟨hmem, hnext⟩
    · simp only [List.mem_filter, decide_eq_true_eq, and_imp]
  have halarm := alarm_update hr.timer fun j _ => hr.mem j
  rw [decide_eq_true ((hr.mem i).mpr hin)] at halarm
  have hservice := service_eq (m := m') (s := { m.service.set i { m.service.alarm i with
      interval := interval, due := some (m.resetStart i fromNow nowMs + interval) } with told := m.m_tickled || b })
    halarm hr.created hr.held ht hr.previous
  rw [hservice]
  exact .reset hne (due_service.mpr ⟨hin, rfl⟩) hcb htells

theorem due_of_expired (h : Ok [] m) {l : List TimerId} (he : Expired m nowMs l m') : m.service.Due nowMs l := by
  obtain ⟨hsorted, hnodup⟩ := expired_in_order he h
  refine ⟨fun j => ?_, hnodup, hsorted.imp fun hlt d hd d' hd' => ?_⟩
  · rw [he.due, rollover_iff]
    constructor
    · rintro ⟨hin, hdue⟩
      exact ⟨_, due_service.mpr ⟨hin, rfl⟩, hdue⟩
    · rintro ⟨d, hd, hdue⟩
      obtain ⟨hin, rfl⟩ := due_service.mp hd
      exact ⟨hin, hdue⟩
  · obtain ⟨-, rfl⟩ := due_service.mp hd
    obtain ⟨-, rfl⟩ := due_service.mp hd'
    exact UInt64.le_iff_toNat_le.mpr (next_le_of_lt hlt)

/-- What goes off is armed again, or not. -/
theorem alarm_fired {l : List TimerId} (he : Expired m nowMs l m') (j : TimerId) : m'.service.alarm j =
    if j ∈ l then TimerService.fired nowMs (m.service.alarm j) else m.service.alarm j := by
  show (m'.timer j).alarm (j ∈ m'.m_timers) = _
  by_cases hj : j ∈ l
  · rw [if_pos hj, TimerService.fired]
    by_cases hrec : (m.timer j).m_recurring = true
    · obtain ⟨hin, htimer⟩ := he.again hj hrec
      rw [htimer, decide_eq_true hin]
      exact (if_pos hrec).symm
    · obtain ⟨hout, htimer⟩ := he.done hj (by simpa using hrec)
      rw [htimer, decide_eq_false hout]
      exact (if_neg hrec).symm
  · obtain ⟨htimer, hin⟩ := he.other hj
    rw [if_neg hj, htimer, decide_eq_decide.mpr hin]
    rfl

theorem expire_service (h : Ok [] m) {l : List TimerId} (he : Expired m nowMs l m') (addr : Nat) :
    m.service.Step (.listExpiredCb nowMs addr, ⟨true, false, l, l.map fun j => (m.timer j).m_cb⟩, none)
      m'.service := by
  refine .expire (due_of_expired h he) (fun hempty => ?_) (fun hsome => ?_) ?_
  · rw [deadlines_eq_empty] at hempty
    exact he.previous.trans (if_pos hempty)
  · refine he.previous.trans (if_neg fun hnil => ?_)
    rw [deadlines_eq_empty.mpr hnil] at hsome
    exact Set.not_nonempty_empty hsome
  · exact service_eq (funext fun j => alarm_fired he j) he.created he.held he.tickled rfl

/-- Every operation is one of the service. -/
theorem step_service (h : Ok [] m) {a : TimerOp × TimerOut × Option UInt64} (hs : Observed m a m') :
    m.service.Step a m'.service := by
  obtain ⟨op, o, wait⟩ := a
  obtain ⟨hs, hwait⟩ := hs
  have hc := step_change h hs
  dsimp only at hc hwait
  cases hc with
  | add ha hadd =>
    have hnone : wait = none := by cases op <;> first | exact hwait | cases ha
    rw [hnone]
    exact add_service h ha hadd
  | refuse ha hcb =>
    have hnone : wait = none := by cases op <;> first | exact hwait | cases ha
    rw [hnone]
    exact .refuse ha hcb
  | same =>
    rw [hwait]
    exact .same
  | cancel hin hcb _ =>
    rw [hwait]
    exact cancel_service h hin hcb
  | refresh hin hcb hr ht =>
    rw [hwait]
    exact refresh_service hin hcb hr ht
  | reset hne hin hcb hr ht hb =>
    rw [hwait]
    exact reset_service hne hin hcb hr ht hb
  | next =>
    rw [hwait]
    exact .next (wait_service h _)
  | expire he =>
    rw [hwait]
    exact expire_service h he _
  | release hheld =>
    rw [hwait]
    exact .release hheld

theorem service_refines (nowMs : UInt64) (tr : List ((TimerOp × TimerOut × Option UInt64) × TimerManager))
    (hr : Lts.Run Observed (new nowMs) tr) :
    Lts.Run TimerService.Step (TimerService.start nowMs) (tr.map fun p => (p.1, p.2.service)) ∧
      ∀ op, (Lts.final (new nowMs) tr).Legal op → ∃ r, (Lts.final (new nowMs) tr).exec op = .ok r := by
  have hkeep : ∀ m a m', Ok [] m → Observed m a m' → Ok [] m' := fun m a m' hok hs => step_ok hok hs.1
  constructor
  · exact hr.map service hkeep (fun m a m' hok hs => step_service hok hs) (new_ok nowMs)
  · intro op hl
    have hok := (hr.reach (.init rfl)).inv (fun m hm => hm ▸ new_ok nowMs) hkeep
    obtain ⟨o, m', he, -⟩ := exec_change hok hl
    exact ⟨_, he⟩

/-- A timer is added, waited for and emitted. -/
theorem service_refines_oneTimer : ∃ m₁ m₂ m₃ s₁ s₂ s₃,
    Lts.Run Observed (new 0) [((.addTimer 0 5 (some (.fn 7)) false 100, ⟨true, true, [], []⟩, none), m₁),
      ((.getNextTimer 2, ⟨true, false, [], []⟩, some 3), m₂),
      ((.listExpiredCb 5 200, ⟨true, false, [0], [some (.fn 7)]⟩, none), m₃)] ∧
    Lts.Run TimerService.Step (TimerService.start 0)
      [((.addTimer 0 5 (some (.fn 7)) false 100, ⟨true, true, [], []⟩, none), s₁),
      ((.getNextTimer 2, ⟨true, false, [], []⟩, some 3), s₂),
      ((.listExpiredCb 5 200, ⟨true, false, [0], [some (.fn 7)]⟩, none), s₃)] := by
  have hnext : Observed oneTimer (.getNextTimer 2, ⟨true, false, [], []⟩, some 3) (oneTimer.getNextTimer 2).1 :=
    ⟨⟨trivial, rfl⟩, rfl⟩
  obtain ⟨m', hexpire⟩ : ∃ m', Observed (oneTimer.getNextTimer 2).1
      (.listExpiredCb 5 200, ⟨true, false, [0], [some (.fn 7)]⟩, none) m' := ⟨_, ⟨trivial, rfl⟩, rfl⟩
  have hadd : Observed (new 0) (.addTimer 0 5 (some (.fn 7)) false 100, ⟨true, true, [], []⟩, none) oneTimer :=
    ⟨oneTimer_step, rfl⟩
  have hrun := Lts.Run.cons hadd (.cons hnext (.cons hexpire (.nil m')))
  exact ⟨_, _, _, _, _, _, hrun, (service_refines 0 _ hrun).1⟩

end TimerManager

/-! ## The waiting time -/

namespace TimerService

variable {s : TimerService} {nowMs later wait : UInt64} {l : List TimerId}

/-- Nothing goes off before the wait is over, and something does then. -/
theorem Wait.exact (hw : s.Wait nowMs wait) (hd : s.Due later l) (hle : nowMs ≤ later) (hno : ¬s.Rollover later) :
    l = [] ↔ s.deadlines = ∅ ∨ later.toNat < nowMs.toNat + wait.toNat := by
  have hmem : ∀ i, i ∈ l ↔ ∃ d ∈ (s.alarm i).due, d ≤ later := fun i => by
    rw [hd.mem]
    exact exists_congr fun d => and_congr_right fun _ => or_iff_right hno
  rw [List.eq_nil_iff_forall_not_mem]
  rcases hw with ⟨hempty, -⟩ | ⟨d, ⟨⟨i, hi⟩, hleast⟩, rfl⟩
  · refine iff_of_true (fun i hin => ?_) (.inl hempty)
    obtain ⟨d, hd, -⟩ := (hmem i).mp hin
    exact (Set.eq_empty_iff_forall_notMem.mp hempty d) ⟨i, hd⟩
  · have hsome : s.deadlines ≠ ∅ := Set.nonempty_iff_ne_empty.mp ⟨d, i, hi⟩
    rw [or_iff_right hsome]
    -- the first deadline is at the end of the wait, or has passed
    have hwait : later.toNat < nowMs.toNat + (if d ≤ nowMs then 0 else d - nowMs).toNat ↔ ¬d ≤ later := by
      have hle := UInt64.le_iff_toNat_le.mp hle
      rw [@UInt64.le_iff_toNat_le d later]
      split
      · next h =>
        have h := UInt64.le_iff_toNat_le.mp h
        rw [UInt64.toNat_zero]
        omega
      · next h =>
        rw [UInt64.le_iff_toNat_le] at h
        rw [UInt64.toNat_sub_of_le _ _ (UInt64.le_iff_toNat_le.mpr (Nat.le_of_not_le h))]
        omega
    rw [hwait]
    constructor
    · exact fun h hdue => h i ((hmem i).mpr ⟨d, hi, hdue⟩)
    · intro h j hj
      obtain ⟨d', hd', hdue⟩ := (hmem j).mp hj
      exact h (UInt64.le_trans (hleast ⟨j, hd'⟩) hdue)

end TimerService

namespace TimerManager

variable {m : TimerManager}

theorem wait_exact (h : Lts.Reach Init Step m) (nowMs later : UInt64) (addr : Nat) (hle : nowMs ≤ later)
    (hprevious : m.m_previousTime ≤ later) : ∃ m' l,
      m.listExpiredCb later addr = .ok (m', l, l.map fun i => (m.timer i).m_cb) ∧
      (l = [] ↔ m.m_timers = [] ∨ later.toNat < nowMs.toNat + (m.getNextTimer nowMs).2.toNat) := by
  have hok := reach_ok h
  obtain ⟨m', l, he, hex⟩ := listExpiredCb_spec hok later addr
  refine ⟨m', l, he, ?_⟩
  have hno : ¬m.service.Rollover later := fun hr => absurd hr.1 (UInt64.not_lt.mpr hprevious)
  rw [← deadlines_eq_empty]
  exact (wait_service hok nowMs).exact (due_of_expired hok hex) hle hno

theorem wait_exact_oneTimer : ∃ m' l,
    oneTimer.listExpiredCb 4 100 = .ok (m', l, l.map fun i => (oneTimer.timer i).m_cb) ∧ l = [] := by
  obtain ⟨m', l, he, hiff⟩ := wait_exact (.step _ (.init ⟨0, rfl⟩) oneTimer_step) 2 4 100 (by decide) (by decide)
  exact ⟨m', l, he, hiff.mpr (.inr (by decide))⟩

end TimerManager

end Sylar
