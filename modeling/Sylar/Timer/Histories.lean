/-
  Sylar.Timer.Histories — what holds over histories of a TimerManager's operations.

  `Change` says what each operation does and answers; `exec_change` that every legal
  operation does so without a fault, in any state that is `Ok`. From it:
  - `set_inv`: for callbacks that are not empty, the set is strictly sorted, a timer
    handed out is in it exactly when it has a callback, find locates every armed timer,
    and no operation faults.
  - `answers_armed_iff`: cancel, refresh and reset answer whether the timer is armed,
    except that reset to the interval it has, not from now, looks at nothing else and
    returns true on a dead timer too (`reset_cancelled_true`).
  - `fires_once`: a one-shot timer is emitted or cancelled once, exactly once when it has
    left the set; a recurring one stays in the set until it is cancelled; and nothing
    brings either back.
-/

import Sylar.Timer.ManagerProofs

namespace Sylar

/-! ## What an operation does -/

/-- The timer an operation creates. -/
def TimerOp.adds : TimerOp → Option Timer
  | .addTimer nowMs interval cb recurring addr => some (.new nowMs interval cb recurring addr)
  | .addConditionTimer nowMs interval cb weakCond recurring addr =>
    some (.new nowMs interval (some (.onTimer weakCond cb)) recurring addr)
  | _ => none

/-- The timer an operation is called on, if it is one that asks for its callback. -/
def TimerOp.asks : TimerOp → Option TimerId
  | .cancel val => some val
  | .refresh val _ => some val
  | .reset val _ _ _ => some val
  | _ => none

namespace TimerManager

variable {m m' : TimerManager} {i : TimerId}

/-- Timer `m.created` is `t`, in the set. -/
structure Added (m : TimerManager) (t : Timer) (b : Bool) (m' : TimerManager) : Prop where
  ok : Ok [] m'
  mem : ∀ j, j ∈ m'.m_timers ↔ j = m.created ∨ j ∈ m.m_timers
  timer : m'.timer = Function.update m.timer m.created t
  created : m'.created = m.created + 1
  held : m'.held = Function.update m.held m.created true
  previous : m'.m_previousTime = m.m_previousTime
  tickled : m'.m_tickled = (m.m_tickled || b)
  front : b = true ↔ m.m_tickled = false ∧ ∀ j ∈ m.m_timers, m'.lt m.created j = true

/-- What an operation does and answers. -/
inductive Change (m : TimerManager) : TimerOp → TimerOut → TimerManager → Prop
  | add {op : TimerOp} {t : Timer} {b : Bool} {m' : TimerManager} : op.adds = some t → Added m t b m' →
      Change m op ⟨true, b, [], []⟩ m'
  | refuse {op : TimerOp} {i : TimerId} : op.asks = some i → (m.timer i).m_cb = none →
      Change m op ⟨false, false, [], []⟩ m
  | same {i : TimerId} {nowMs : UInt64} :
      Change m (.reset i (m.timer i).m_interval false nowMs) ⟨true, false, [], []⟩ m
  | cancel {i : TimerId} : i ∈ m.m_timers → (m.timer i).m_cb.isSome = true →
      Ok [] { m.clearCb i with m_timers := m.m_timers.erase i } →
      Change m (.cancel i) ⟨true, false, [], []⟩ { m.clearCb i with m_timers := m.m_timers.erase i }
  | refresh {i : TimerId} {nowMs : UInt64} {m' : TimerManager} : i ∈ m.m_timers → (m.timer i).m_cb.isSome = true →
      Rearmed m i { m.timer i with m_next := nowMs + (m.timer i).m_interval } m' → m'.m_tickled = m.m_tickled →
      Change m (.refresh i nowMs) ⟨true, false, [], []⟩ m'
  | reset {i : TimerId} {interval nowMs : UInt64} {fromNow b : Bool} {m' : TimerManager} :
      ¬((m.timer i).m_interval = interval ∧ fromNow = false) → i ∈ m.m_timers → (m.timer i).m_cb.isSome = true →
      Rearmed m i { m.timer i with
        m_interval := interval, m_next := m.resetStart i fromNow nowMs + interval } m' →
      m'.m_tickled = (m.m_tickled || b) →
      (b = true ↔ m.m_tickled = false ∧ ∀ j ∈ m.m_timers, j ≠ i → m'.lt i j = true) →
      Change m (.reset i interval fromNow nowMs) ⟨true, b, [], []⟩ m'
  | next {nowMs : UInt64} : Change m (.getNextTimer nowMs) ⟨true, false, [], []⟩ { m with m_tickled := false }
  | expire {nowMs : UInt64} {addr : Nat} {l : List TimerId} {m' : TimerManager} : Expired m nowMs l m' →
      Change m (.listExpiredCb nowMs addr) ⟨true, false, l, l.map fun j => (m.timer j).m_cb⟩ m'
  | release {i : TimerId} : m.held i = true →
      Change m (.release i) ⟨true, false, [], []⟩ { m with held := Function.update m.held i false }

theorem add_change (h : Ok [] m) {op : TimerOp} {t : Timer} (ha : op.adds = some t) (hf : m.Fresh t.addr) :
    Change m op ⟨true, ((m.create t).addTimerLocked m.created).2, [], []⟩
      ((m.create t).addTimerLocked m.created).1 := by
  obtain ⟨hok, hmem, hfront⟩ := (create_ok h hf).addTimerLocked_ok
  refine .add ha ⟨hok, hmem, ?_, ?_, ?_, ?_, ?_, ?_⟩
  · rw [addTimerLocked_fst]; rfl
  · rw [addTimerLocked_fst]; rfl
  · rw [addTimerLocked_fst]; rfl
  · rw [addTimerLocked_fst]; rfl
  · rw [addTimerLocked_fst]; rfl
  · rw [hfront, addTimerLocked_fst]; rfl

theorem release_ok (h : Ok [] m) (i : TimerId) : Ok [] { m with held := Function.update m.held i false } := by
  have hlive : ∀ j, live { m with held := Function.update m.held i false } j ∨ j ∈ [] → m.live j := by
    intro j hj
    rcases hj with (hj | hj) | hj
    · have hh : Function.update m.held i false j = true := hj
      by_cases e : j = i
      · rw [e, Function.update_self] at hh
        cases hh
      · rw [Function.update_of_ne e] at hh
        exact .inl hh
    · exact .inr hj
    · cases hj
  exact ⟨h.sorted, h.outNodup, h.outIn, fun j hj => h.created j (.inl (hlive j hj)),
    fun j k hj hk => h.addr j k (.inl (hlive j hj)) (.inl (hlive k hk)), h.armed⟩

theorem Change.ok {op : TimerOp} {o : TimerOut} (hc : Change m op o m') (h : Ok [] m) : Ok [] m' := by
  cases hc with
  | add _ ha => exact ha.ok
  | refuse => exact h
  | same => exact h
  | cancel _ _ hok => exact hok
  | refresh _ _ hr => exact hr.ok
  | reset _ _ _ hr => exact hr.ok
  | next => exact ⟨h.sorted, h.outNodup, h.outIn, h.created, h.addr, h.armed⟩
  | expire he => exact he.ok
  | release => exact release_ok h _

/-- Every legal operation succeeds. -/
theorem exec_change (h : Ok [] m) {op : TimerOp} (hl : m.Legal op) :
    ∃ o m', m.exec op = .ok (m', o) ∧ Change m op o m' := by
  cases op with
  | addTimer nowMs interval cb recurring addr =>
    exact ⟨_, _, rfl, add_change h rfl hl⟩
  | addConditionTimer nowMs interval cb weakCond recurring addr =>
    exact ⟨_, _, rfl, add_change h rfl hl⟩
  | cancel i =>
    rcases cancel_spec h (h.created i (.inl (.inl hl))) with ⟨hc, he⟩ | ⟨hin, hc, he, hok⟩
    · exact ⟨_, _, by rw [exec, he]; rfl, .refuse rfl hc⟩
    · exact ⟨_, _, by rw [exec, he]; rfl, .cancel hin hc hok⟩
  | refresh i nowMs =>
    rcases refresh_spec h (h.created i (.inl (.inl hl))) nowMs with ⟨hc, he⟩ | ⟨hin, hc, m', he, hr, ht⟩
    · exact ⟨_, _, by rw [exec, he]; rfl, .refuse rfl hc⟩
    · exact ⟨_, _, by rw [exec, he]; rfl, .refresh hin hc hr ht⟩
  | reset i interval fromNow nowMs =>
    rcases reset_spec h (h.created i (.inl (.inl hl))) interval fromNow nowMs with
      ⟨rfl, rfl, he⟩ | ⟨hc, he⟩ | ⟨hne, hin, hc, m', b, he, hr, ht, hf⟩
    · exact ⟨_, _, by rw [exec, he]; rfl, .same⟩
    · exact ⟨_, _, by rw [exec, he]; rfl, .refuse rfl hc⟩
    · exact ⟨_, _, by rw [exec, he]; rfl, .reset hne hin hc hr ht hf⟩
  | getNextTimer nowMs => exact ⟨_, _, rfl, .next⟩
  | listExpiredCb nowMs addr =>
    obtain ⟨m', l, he, hex⟩ := listExpiredCb_spec h nowMs addr
    exact ⟨_, _, by rw [exec, he]; rfl, .expire hex⟩
  | release i => exact ⟨_, _, rfl, .release hl⟩

theorem step_change (h : Ok [] m) {a : TimerOp × TimerOut} (hs : Step m a m') : Change m a.1 a.2 m' := by
  obtain ⟨hl, he⟩ := hs
  obtain ⟨o, q, he', hc⟩ := exec_change h hl
  rw [he'] at he
  cases he
  exact hc

theorem step_ok (h : Ok [] m) {a : TimerOp × TimerOut} (hs : Step m a m') : Ok [] m' := (step_change h hs).ok h

theorem reach_ok (h : Lts.Reach Init Step m) : Ok [] m := by
  apply h.inv
  · intro s ⟨nowMs, hs⟩
    exact hs ▸ new_ok nowMs
  · exact fun _ _ _ hok hs => step_ok hok hs

/-! ## Callbacks that are not empty -/

/-- What is added has a callback. -/
def NonEmptyCb (_ : TimerManager) (a : TimerOp × TimerOut) : Prop := ∀ t, a.1.adds = some t → t.m_cb.isSome = true

/-- Only armed timers are in the set. -/
def Full (m : TimerManager) : Prop := ∀ i ∈ m.m_timers, (m.timer i).m_cb.isSome = true

theorem Rearmed.armed {j : TimerId} {t : Timer} (h : Rearmed m j t m') (ht : t.m_cb.isSome = true)
    (ha : i ∈ m.m_timers → (m.timer i).m_cb.isSome = true) (hin : i ∈ m'.m_timers) :
    (m'.timer i).m_cb.isSome = true := by
  rw [h.timer]
  by_cases e : i = j
  · rw [e, Function.update_self]
    exact ht
  · rw [Function.update_of_ne e]
    exact ha ((h.mem i).mp hin)

/-- A timer that has its callback while it is in the set keeps it so. -/
theorem Change.armed {op : TimerOp} {o : TimerOut} (hc : Change m op o m') (h : Ok [] m) (hi : i < m.created)
    (ha : i ∈ m.m_timers → (m.timer i).m_cb.isSome = true) (hin : i ∈ m'.m_timers) :
    (m'.timer i).m_cb.isSome = true := by
  cases hc with
  | add _ hadd =>
    rw [hadd.timer, Function.update_of_ne (Nat.ne_of_lt hi)]
    exact ha (((hadd.mem i).mp hin).resolve_left (Nat.ne_of_lt hi))
  | refuse => exact ha hin
  | same => exact ha hin
  | @cancel j _ _ _ =>
    obtain ⟨hne, hin⟩ := h.nodup.mem_erase_iff.mp hin
    show (Function.update m.timer j _ i).m_cb.isSome = true
    rw [Function.update_of_ne hne]
    exact ha hin
  | refresh _ hs hr => exact hr.armed hs ha hin
  | reset _ _ hs hr => exact hr.armed hs ha hin
  | next => exact ha hin
  | expire he =>
    obtain ⟨hin, hrec⟩ := (he.mem i).mp hin
    rw [he.timer]
    split
    · rename_i hl
      unfold fired
      rw [if_pos (hrec hl)]
      exact ha hin
    · exact ha hin
  | release => exact ha hin

theorem adds_of_asks {op : TimerOp} (h : op.asks = some i) : op.adds = none := by
  cases op with
  | cancel => rfl
  | refresh => rfl
  | reset => rfl
  | _ => cases h

/-- Only an operation that adds a timer makes one. -/
theorem Change.created_eq {op : TimerOp} {o : TimerOut} (hc : Change m op o m') :
    (∃ t b, op.adds = some t ∧ Added m t b m') ∨ (op.adds = none ∧ m'.created = m.created) := by
  cases hc with
  | add ha hadd => exact .inl ⟨_, _, ha, hadd⟩
  | refuse ha => exact .inr ⟨adds_of_asks ha, rfl⟩
  | refresh _ _ hr => exact .inr ⟨rfl, hr.created⟩
  | reset _ _ _ hr => exact .inr ⟨rfl, hr.created⟩
  | expire he => exact .inr ⟨rfl, he.created⟩
  | _ => exact .inr ⟨rfl, rfl⟩

theorem Change.created_le {op : TimerOp} {o : TimerOut} (hc : Change m op o m') : m.created ≤ m'.created := by
  rcases hc.created_eq with ⟨t, b, -, hadd⟩ | ⟨-, he⟩
  · rw [hadd.created]
    exact Nat.le_succ _
  · exact Nat.le_of_eq he.symm

theorem Change.full {a : TimerOp × TimerOut} (hc : Change m a.1 a.2 m') (h : Ok [] m) (hm : Full m)
    (hn : NonEmptyCb m a) : Full m' := by
  intro j hj
  by_cases hlt : j < m.created
  · exact hc.armed h hlt (hm j) hj
  · -- a timer that was not there before
    have hlt' := (hc.ok h).created j (.inl (.inr hj))
    rcases hc.created_eq with ⟨t, b, ha, hadd⟩ | ⟨-, he⟩
    · have hself : j = m.created := by
        rw [hadd.created] at hlt'
        exact Nat.le_antisymm (Nat.lt_succ_iff.mp hlt') (Nat.not_lt.mp hlt)
      rw [hadd.timer, hself, Function.update_self]
      exact hn t ha
    · exact absurd (he ▸ hlt') hlt

theorem reach_full (h : Lts.Reach Init (Lts.guarded Step NonEmptyCb) m) : Ok [] m ∧ Full m := by
  apply h.inv
  · intro s ⟨nowMs, hs⟩
    rw [hs]
    exact ⟨new_ok nowMs, nofun⟩
  · intro s a s' ⟨hok, hf⟩ ⟨hn, hs⟩
    have hc := step_change hok hs
    exact ⟨hc.ok hok, hc.full hok hf hn⟩

/-- The set is strictly sorted by (m_next, address), a timer handed out is in it exactly
    when it has a callback, find locates every armed timer, and no operation erases end()
    or assigns m_next of a timer in the set. -/
theorem set_inv (h : Lts.Reach Init (Lts.guarded Step NonEmptyCb) m) :
    m.m_timers.Pairwise (fun i j => (m.timer i).m_next < (m.timer j).m_next ∨
      ((m.timer i).m_next = (m.timer j).m_next ∧ (m.timer i).addr < (m.timer j).addr)) ∧
    m.m_timers.Nodup ∧
    (∀ i < m.created, i ∈ m.m_timers ↔ (m.timer i).m_cb.isSome = true) ∧
    (∀ i < m.created, (m.timer i).m_cb.isSome = true → m.m_timers[m.find i]? = some i) ∧
    (∀ op, m.Legal op → ∃ r, m.exec op = .ok r) := by
  obtain ⟨hok, hfull⟩ := reach_full h
  have harmed : ∀ i < m.created, (m.timer i).m_cb.isSome = true → i ∈ m.m_timers :=
    fun i hi hc => (hok.armed i hi hc).resolve_right (List.not_mem_nil)
  refine ⟨hok.sorted.imp lt_iff.mp, hok.nodup, ?_, ?_, ?_⟩
  · intro i hi
    exact ⟨hfull i, harmed i hi⟩
  · intro i hi hc
    exact OrderedSet.find_of_mem m.lt_strictWeak hok.sorted (harmed i hi hc)
  · intro op hl
    obtain ⟨o, m', he, -⟩ := exec_change hok hl
    exact ⟨_, he⟩

/-- A manager with one armed timer. -/
def oneTimer : TimerManager := ((new 0).addTimer 0 5 (some (.fn 7)) false 100).1

theorem oneTimer_step :
    Step (new 0) (.addTimer 0 5 (some (.fn 7)) false 100, ⟨true, true, [], []⟩) oneTimer := by
  refine ⟨?_, rfl⟩
  intro i hi
  rcases hi with hi | hi
  · cases hi
  · cases hi

theorem oneTimer_live {i : TimerId} (h : oneTimer.live i) : i = 0 := by
  rcases h with h | h
  · by_contra hne
    have hheld : oneTimer.held i = (new 0).held i := Function.update_of_ne hne ..
    rw [hheld] at h
    cases h
  · exact List.mem_singleton.mp h

/-- A second timer of the same deadline. -/
def twoTimers : TimerManager := (oneTimer.addTimer 0 5 (some (.fn 8)) false 200).1

theorem twoTimers_step :
    Step oneTimer (.addTimer 0 5 (some (.fn 8)) false 200, ⟨true, false, [], []⟩) twoTimers := by
  refine ⟨?_, rfl⟩
  intro i hi
  rw [oneTimer_live hi]
  decide

/-- The first one cancelled. -/
def secondLeft : TimerManager := { twoTimers.clearCb 0 with m_timers := [1] }

theorem secondLeft_step : Step twoTimers (.cancel 0, ⟨true, false, [], []⟩) secondLeft := ⟨rfl, rfl⟩

theorem set_inv_twoTimers :
    (twoTimers.m_timers = [0, 1] ∧ ∀ i < 2, (twoTimers.timer i).m_cb.isSome = true →
      twoTimers.m_timers[twoTimers.find i]? = some i) ∧
    ∀ i < 2, i ∈ secondLeft.m_timers ↔ (secondLeft.timer i).m_cb.isSome = true := by
  have h1 : Lts.Reach Init (Lts.guarded Step NonEmptyCb) oneTimer :=
    .step _ (.init ⟨0, rfl⟩) ⟨fun _ ht => by cases ht; rfl, oneTimer_step⟩
  have h2 : Lts.Reach Init (Lts.guarded Step NonEmptyCb) twoTimers :=
    .step _ h1 ⟨fun _ ht => by cases ht; rfl, twoTimers_step⟩
  have h3 : Lts.Reach Init (Lts.guarded Step NonEmptyCb) secondLeft :=
    .step _ h2 ⟨(fun _ ht => by cases ht), secondLeft_step⟩
  exact ⟨⟨rfl, (set_inv h2).2.2.2.1⟩, (set_inv h3).2.2.1⟩

end TimerManager

/-! ## What cancel, refresh and reset answer -/

namespace TimerManager

variable {m m' : TimerManager} {i : TimerId} {a : TimerOp × TimerOut}

/-- Called on timer `i`, it returns true exactly when the timer is armed, and changes
    nothing when it returns false. -/
def Answers (i : TimerId) (m : TimerManager) (a : TimerOp × TimerOut) (m' : TimerManager) : Prop :=
  a.1.asks = some i → (a.2.ret = true ↔ i ∈ m.m_timers) ∧ (a.2.ret = false → m' = m)

/-- reset to the interval the timer has, not from now, is called while it is armed. -/
def ResetsArmed (i : TimerId) (m : TimerManager) (a : TimerOp × TimerOut) : Prop :=
  ∀ nowMs, a.1 = .reset i (m.timer i).m_interval false nowMs → i ∈ m.m_timers

/-- Timer `i` was given a callback, and is armed while it has it. -/
structure Given (i : TimerId) (m : TimerManager) : Prop where
  ok : Ok [] m
  created : i < m.created
  armed : i ∈ m.m_timers → (m.timer i).m_cb.isSome = true

theorem Given.step (hg : Given i m) (hs : Step m a m') : Given i m' := by
  have hc := step_change hg.ok hs
  exact ⟨hc.ok hg.ok, Nat.lt_of_lt_of_le hg.created hc.created_le, hc.armed hg.ok hg.created hg.armed⟩

theorem Given.not_mem (hg : Given i m) (hc : (m.timer i).m_cb = none) : i ∉ m.m_timers := by
  intro hin
  have hs := hg.armed hin
  rw [hc] at hs
  cases hs

theorem answers_of_true {op : TimerOp} {o : TimerOut} (ho : o.ret = true) (hin : op.asks = some i → i ∈ m.m_timers) :
    Answers i m (op, o) m' := by
  intro hask
  refine ⟨⟨fun _ => hin hask, fun _ => ho⟩, ?_⟩
  intro hf
  rw [show o.ret = true from ho] at hf
  cases hf

theorem Given.answers_iff (hg : Given i m) (hs : Step m a m') : Answers i m a m' ↔ ResetsArmed i m a := by
  have hc := step_change hg.ok hs
  obtain ⟨op, o⟩ := a
  have hmem : ∀ {j : TimerId}, j ∈ m.m_timers → some j = some i → i ∈ m.m_timers := by
    intro j hj he
    cases he
    exact hj
  cases hc with
  | add ha _ =>
    constructor
    · intro _ nowMs heq
      cases heq
      cases ha
    · intro _
      apply answers_of_true rfl
      intro hask
      rw [adds_of_asks hask] at ha
      cases ha
  | @refuse _ j hj hnone =>
    constructor
    · intro hans nowMs heq
      cases heq
      -- refused, so not the shortcut of reset
      exact absurd hs.2 (by simp [exec, reset, bind, Except.bind])
    · intro _ hask
      rw [hj] at hask
      cases hask
      exact ⟨⟨nofun, fun hin => absurd hin (hg.not_mem hnone)⟩, fun _ => rfl⟩
  | @same j nowMs =>
    constructor
    · intro hans nowMs' heq
      cases heq
      exact (hans rfl).1.mp rfl
    · intro hra
      apply answers_of_true rfl
      intro hask
      cases hask
      exact hra nowMs rfl
  | cancel hin _ _ => exact ⟨fun _ _ heq => (nomatch heq), fun _ => answers_of_true rfl (hmem hin)⟩
  | refresh hin _ _ _ => exact ⟨fun _ _ heq => (nomatch heq), fun _ => answers_of_true rfl (hmem hin)⟩
  | @reset j interval nowMs fromNow b _ hne hin _ _ _ _ =>
    refine ⟨fun _ nowMs' heq => ?_, fun _ => answers_of_true rfl (hmem hin)⟩
    cases heq
    exact absurd ⟨rfl, rfl⟩ hne
  | next => exact ⟨fun _ _ heq => (nomatch heq), fun _ hask => (nomatch hask)⟩
  | expire _ => exact ⟨fun _ _ heq => (nomatch heq), fun _ hask => (nomatch hask)⟩
  | release _ => exact ⟨fun _ _ heq => (nomatch heq), fun _ hask => (nomatch hask)⟩

/-- In every run after a timer was added with a callback, cancel, refresh and reset answer
    whether it is armed exactly when no reset to the interval it has, not from now, is
    called on it while it is not. -/
theorem answers_armed_iff {t : Timer} {tr : List ((TimerOp × TimerOut) × TimerManager)} (h : Lts.Reach Init Step m)
    (ha : a.1.adds = some t) (ht : t.m_cb.isSome = true) (hs : Step m a m') (hr : Lts.Run Step m' tr) :
    Lts.Every (Answers m.created) m' tr ↔ Lts.Every (fun s b _ => ResetsArmed m.created s b) m' tr := by
  have hok := reach_ok h
  have hg : Given m.created m' := by
    have hc := step_change hok hs
    rcases hc.created_eq with ⟨t', b, ha', hadd⟩ | ⟨ha', -⟩
    · rw [ha] at ha'
      cases ha'
      refine ⟨hadd.ok, by rw [hadd.created]; exact Nat.lt_succ_self _, fun _ => ?_⟩
      rw [hadd.timer, Function.update_self]
      exact ht
    · rw [ha] at ha'
      cases ha'
  exact hr.every_iff (fun _ _ _ hg _ hs => hg.step hs) (fun _ _ _ hg hs => hg.answers_iff hs) hg

/-- The one timer, cancelled. -/
def oneCancelled : TimerManager := { oneTimer.clearCb 0 with m_timers := [] }

theorem oneCancelled_step : Step oneTimer (.cancel 0, ⟨true, false, [], []⟩) oneCancelled :=
  ⟨show oneTimer.held 0 = true from rfl, rfl⟩

theorem answers_armed_cancel :
    Lts.Every (Answers 0) oneTimer [((.cancel 0, ⟨true, false, [], []⟩), oneCancelled)] := by
  refine (answers_armed_iff (.init ⟨0, rfl⟩) rfl rfl oneTimer_step (.cons oneCancelled_step (.nil _))).mpr ⟨?_, trivial⟩
  intro nowMs heq
  cases heq

/-- Reset to its interval, not from now, a cancelled timer answers true. -/
theorem reset_cancelled_true : Lts.Reach Init Step (new 0) ∧
    Step (new 0) (.addTimer 0 5 (some (.fn 7)) false 100, ⟨true, true, [], []⟩) oneTimer ∧
    ∃ tr, Lts.Run Step oneTimer tr ∧ ¬Lts.Every (Answers 0) oneTimer tr := by
  refine ⟨.init ⟨0, rfl⟩, oneTimer_step, _, .cons oneCancelled_step (.cons (?_ : Step oneCancelled
    (.reset 0 5 false 3, ⟨true, false, [], []⟩) oneCancelled) (.nil _)), ?_⟩
  · exact ⟨show oneCancelled.held 0 = true from rfl, rfl⟩
  · intro h
    obtain ⟨-, hans, -⟩ := h
    have hin : 0 ∈ oneCancelled.m_timers := (hans rfl).1.mp rfl
    cases hin

end TimerManager

/-! ## Fired or cancelled, once -/

/-- How often timer `i` has been emitted, and how often cancel() returned true on it. -/
structure History where
  m : TimerManager
  emitted : TimerId → Nat
  cancelled : TimerId → Nat

namespace History

def emissions (a : TimerOp × TimerOut) (i : TimerId) : Nat := a.2.expired.count i

def cancels (a : TimerOp × TimerOut) (i : TimerId) : Nat := if a.1 = .cancel i ∧ a.2.ret = true then 1 else 0

def Init (h : History) : Prop := TimerManager.Init h.m ∧ h.emitted = (fun _ => 0) ∧ h.cancelled = fun _ => 0

def Step (h : History) (a : TimerOp × TimerOut) (h' : History) : Prop :=
  h.m.Step a h'.m ∧ h'.emitted = (fun i => h.emitted i + emissions a i) ∧
    h'.cancelled = fun i => h.cancelled i + cancels a i

end History

namespace TimerManager

variable {m m' : TimerManager} {i : Nat} {a : TimerOp × TimerOut}

def inSet (m : TimerManager) (i : TimerId) : Nat := if i ∈ m.m_timers then 1 else 0

theorem inSet_congr (h : i ∈ m'.m_timers ↔ i ∈ m.m_timers) : m'.inSet i = m.inSet i := by
  simp only [inSet, h]

theorem Expired.emissions {nowMs : UInt64} {l : List TimerId} (h : Expired m nowMs l m') (hok : Ok [] m) :
    l.count i = if i ∈ l then 1 else 0 := by
  obtain ⟨n, rfl⟩ := h.initial
  exact List.Nodup.count (List.Pairwise.sublist (List.take_sublist _ _) hok.nodup)

/-- A timer there is keeps its kind; it leaves the set exactly by being cancelled, or, a
    one-shot timer, by being emitted. -/
structure Balance (m : TimerManager) (a : TimerOp × TimerOut) (m' : TimerManager) (i : TimerId) : Prop where
  created : m.created ≤ m'.created
  recurring : (m'.timer i).m_recurring = (m.timer i).m_recurring
  leaves : m'.inSet i + History.cancels a i +
    (if (m.timer i).m_recurring = true then 0 else History.emissions a i) = m.inSet i
  emitted : History.emissions a i ≤ m.inSet i

theorem cancels_of_ne (h : ∀ j, a.1 ≠ .cancel j) : History.cancels a i = 0 :=
  if_neg fun hc => h i hc.1

/-- An operation that emits nothing and cancels nothing. -/
theorem Balance.quiet (hc : m.created ≤ m'.created) (hr : (m'.timer i).m_recurring = (m.timer i).m_recurring)
    (hm : i ∈ m'.m_timers ↔ i ∈ m.m_timers) (hcan : History.cancels a i = 0) (he : a.2.expired = []) :
    Balance m a m' i where
  created := hc
  recurring := hr
  leaves := by
    have h0 : History.emissions a i = 0 := by simp [History.emissions, he]
    rw [inSet_congr hm, hcan, h0]
    simp
  emitted := by
    have h0 : History.emissions a i = 0 := by simp [History.emissions, he]
    omega

theorem Rearmed.balance {j : TimerId} {t : Timer} (h : Rearmed m j t m') (ht : t.m_recurring = (m.timer j).m_recurring)
    (hcan : History.cancels a i = 0) (he : a.2.expired = []) : Balance m a m' i := by
  refine .quiet (Nat.le_of_eq h.created.symm) ?_ (h.mem i) hcan he
  rw [h.timer]
  by_cases e : i = j
  · rw [e, Function.update_self, ht]
  · rw [Function.update_of_ne e]

theorem Change.balance (hc : Change m a.1 a.2 m') (h : Ok [] m) (hi : i < m.created) : Balance m a m' i := by
  obtain ⟨op, o⟩ := a
  cases hc with
  | add ha hadd =>
    refine .quiet (by rw [hadd.created]; omega) ?_ ?_ ?_ rfl
    · rw [hadd.timer, Function.update_of_ne (Nat.ne_of_lt hi)]
    · rw [hadd.mem]
      exact or_iff_right (Nat.ne_of_lt hi)
    · apply cancels_of_ne
      intro j heq
      subst heq
      cases ha
  | refuse => exact .quiet (Nat.le_refl _) rfl Iff.rfl (if_neg fun hc => Bool.false_ne_true hc.2) rfl
  | same => exact .quiet (Nat.le_refl _) rfl Iff.rfl (cancels_of_ne nofun) rfl
  | @cancel j hin _ _ =>
    by_cases e : i = j
    · subst e
      refine ⟨Nat.le_refl _, ?_, ?_, Nat.zero_le _⟩
      · show (Function.update m.timer i _ i).m_recurring = _
        rw [Function.update_self]
      · simp [inSet, History.cancels, History.emissions, hin, h.nodup.not_mem_erase]
    · refine .quiet (Nat.le_refl _) ?_ (List.mem_erase_of_ne e) ?_ rfl
      · show (Function.update m.timer j _ i).m_recurring = _
        rw [Function.update_of_ne e]
      · apply if_neg
        intro hp
        obtain ⟨hj, -⟩ := hp
        cases hj
        exact e rfl
  | refresh _ _ hr => exact hr.balance rfl (cancels_of_ne nofun) rfl
  | reset _ _ _ hr => exact hr.balance rfl (cancels_of_ne nofun) rfl
  | next => exact .quiet (Nat.le_refl _) rfl Iff.rfl (cancels_of_ne nofun) rfl
  | @expire nowMs addr l _ he =>
    have hem : History.emissions (TimerOp.listExpiredCb nowMs addr,
        (⟨true, false, l, l.map fun j => (m.timer j).m_cb⟩ : TimerOut)) i = if i ∈ l then 1 else 0 := he.emissions h
    refine ⟨Nat.le_of_eq he.created.symm, ?_, ?_, ?_⟩
    · rw [he.timer]
      split
      · exact fired_recurring _ _
      · rfl
    · have hcan : History.cancels (TimerOp.listExpiredCb nowMs addr,
          (⟨true, false, l, l.map fun j => (m.timer j).m_cb⟩ : TimerOut)) i = 0 := cancels_of_ne nofun
      rw [hcan, hem]
      simp only [inSet, he.mem]
      by_cases hl : i ∈ l
      · have hin := he.mem_timers hl
        by_cases hr : (m.timer i).m_recurring = true
        · simp [hl, hin, hr]
        · simp [hl, hin, hr]
      · simp [hl]
    · rw [hem]
      by_cases hl : i ∈ l
      · simp [inSet, hl, he.mem_timers hl]
      · simp [hl]
  | release => exact .quiet (Nat.le_refl _) rfl Iff.rfl (cancels_of_ne nofun) rfl

/-- A timer that is not there yet is neither emitted nor cancelled, and comes in armed. -/
theorem Change.fresh (hc : Change m a.1 a.2 m') (h : Ok [] m) (hi : m.created ≤ i) :
    History.emissions a i = 0 ∧ History.cancels a i = 0 ∧ (i < m'.created → m'.inSet i = 1) := by
  have hout : i ∉ m.m_timers := fun hm => Nat.not_lt.mpr hi (h.created i (.inl (.inr hm)))
  obtain ⟨op, o⟩ := a
  cases hc with
  | add ha hadd =>
    refine ⟨rfl, ?_, ?_⟩
    · apply cancels_of_ne
      intro j heq
      subst heq
      cases ha
    · intro hi'
      rw [hadd.created] at hi'
      exact if_pos ((hadd.mem i).mpr (.inl (Nat.le_antisymm (Nat.lt_succ_iff.mp hi') hi)))
  | refuse => exact ⟨rfl, if_neg fun hc => Bool.false_ne_true hc.2, fun hi' => absurd hi' (Nat.not_lt.mpr hi)⟩
  | same => exact ⟨rfl, cancels_of_ne nofun, fun hi' => absurd hi' (Nat.not_lt.mpr hi)⟩
  | @cancel j hin _ _ =>
    refine ⟨rfl, if_neg ?_, ?_⟩
    · intro hp
      obtain ⟨hj, -⟩ := hp
      cases hj
      exact hout hin
    · intro (hi' : i < m.created)
      omega
  | refresh _ _ hr =>
    refine ⟨rfl, cancels_of_ne nofun, ?_⟩
    rw [hr.created]
    omega
  | reset _ _ _ hr =>
    refine ⟨rfl, cancels_of_ne nofun, ?_⟩
    rw [hr.created]
    omega
  | next => exact ⟨rfl, cancels_of_ne nofun, fun hi' => absurd hi' (Nat.not_lt.mpr hi)⟩
  | expire he =>
    refine ⟨List.count_eq_zero.mpr fun hl => hout (he.mem_timers hl), cancels_of_ne nofun, ?_⟩
    rw [he.created]
    omega
  | release => exact ⟨rfl, cancels_of_ne nofun, fun hi' => absurd hi' (Nat.not_lt.mpr hi)⟩

end TimerManager

namespace History

open TimerManager

variable {h h' : History} {i : Nat} {a : TimerOp × TimerOut}

/-- A timer is in the set or has been cancelled, or, a one-shot timer, emitted: one of
    these, once. -/
structure Inv (h : History) : Prop where
  ok : Ok [] h.m
  once : ∀ i < h.m.created, h.m.inSet i + h.cancelled i +
    (if (h.m.timer i).m_recurring = true then 0 else h.emitted i) = 1
  fresh : ∀ i, h.m.created ≤ i → h.emitted i = 0 ∧ h.cancelled i = 0

theorem init_inv (hi : Init h) : Inv h := by
  obtain ⟨⟨nowMs, hm⟩, he, hc⟩ := hi
  refine ⟨hm ▸ new_ok nowMs, ?_, ?_⟩
  · rw [hm]
    exact nofun
  · rw [he, hc]
    exact fun _ _ => ⟨rfl, rfl⟩

theorem step_inv (hi : Inv h) (hs : Step h a h') : Inv h' := by
  obtain ⟨hst, he, hc⟩ := hs
  have hch := step_change hi.ok hst
  have hcr := hch.created_le
  refine ⟨hch.ok hi.ok, ?_, ?_⟩
  · intro i hlt
    simp only [he, hc]
    by_cases hold : i < h.m.created
    · have hb := hch.balance hi.ok hold
      have hbal := hb.leaves
      have hone := hi.once i hold
      rw [hb.recurring]
      by_cases hr : (h.m.timer i).m_recurring = true
      · rw [if_pos hr] at hbal hone ⊢
        omega
      · rw [if_neg hr] at hbal hone ⊢
        omega
    · obtain ⟨he0, hc0, hin⟩ := hch.fresh hi.ok (i := i) (by omega)
      obtain ⟨hez, hcz⟩ := hi.fresh i (by omega)
      rw [hin hlt, he0, hc0, hez, hcz]
      simp
  · intro i hle
    obtain ⟨he0, hc0, -⟩ := hch.fresh hi.ok (i := i) (by omega)
    obtain ⟨hez, hcz⟩ := hi.fresh i (by omega)
    simp only [he, hc]
    exact ⟨by omega, by omega⟩

theorem reach_inv (hr : Lts.Reach Init Step h) : Inv h :=
  hr.inv (fun _ => init_inv) fun _ _ _ => step_inv

/-- Out of the set, a timer stays out, and is neither emitted nor cancelled any more. -/
theorem gone (hi : Inv h) (hlt : i < h.m.created) (hout : i ∉ h.m.m_timers) (hr : Lts.Reach (· = h) Step h') :
    Inv h' ∧ i < h'.m.created ∧ i ∉ h'.m.m_timers ∧ h'.emitted i = h.emitted i ∧ h'.cancelled i = h.cancelled i := by
  refine hr.inv ?_ ?_ (I := fun s => Inv s ∧ i < s.m.created ∧ i ∉ s.m.m_timers ∧ s.emitted i = h.emitted i ∧
    s.cancelled i = h.cancelled i)
  · intro s heq
    subst heq
    exact ⟨hi, hlt, hout, rfl, rfl⟩
  · intro s a s' ⟨hinv, hlt, hout, hem, hca⟩ hs
    have hb := (step_change hinv.ok hs.1).balance hinv.ok hlt
    have h0 : s.m.inSet i = 0 := if_neg hout
    have hle := hb.leaves
    have hee := hb.emitted
    refine ⟨step_inv hinv hs, Nat.lt_of_lt_of_le hlt hb.created, ?_, ?_, ?_⟩
    · intro hin
      have h1 : s'.m.inSet i = 1 := if_pos hin
      omega
    · rw [hs.2.1, ← hem]
      show s.emitted i + emissions a i = s.emitted i
      omega
    · rw [hs.2.2, ← hca]
      show s.cancelled i + cancels a i = s.cancelled i
      omega

/-- A one-shot timer is emitted or cancelled at most once, and exactly once when it has
    left the set; a recurring one that was not cancelled is in the set; a timer that was
    cancelled, or has fired as a one-shot, is never again in the set, emitted or cancelled. -/
theorem fires_once (hr : Lts.Reach Init Step h) (hi : i < h.m.created) :
    ((h.m.timer i).m_recurring = false →
      h.emitted i + h.cancelled i ≤ 1 ∧ (i ∉ h.m.m_timers → h.emitted i + h.cancelled i = 1)) ∧
    ((h.m.timer i).m_recurring = true → h.cancelled i = 0 → i ∈ h.m.m_timers) ∧
    (0 < h.cancelled i ∨ ((h.m.timer i).m_recurring = false ∧ 0 < h.emitted i) →
      ∀ h', Lts.Reach (· = h) Step h' →
        i ∉ h'.m.m_timers ∧ h'.emitted i = h.emitted i ∧ h'.cancelled i = h.cancelled i) := by
  have hinv := reach_inv hr
  have hone := hinv.once i hi
  have hset : i ∈ h.m.m_timers ↔ h.m.inSet i = 1 := by
    unfold inSet
    split <;> simp_all
  have hnot : i ∉ h.m.m_timers ↔ h.m.inSet i = 0 := by
    unfold inSet
    split <;> simp_all
  refine ⟨?_, ?_, ?_⟩
  · intro hrec
    rw [if_neg (by rw [hrec]; exact Bool.false_ne_true)] at hone
    rw [hnot]
    exact ⟨by omega, fun h0 => by omega⟩
  · intro hrec h0
    rw [if_pos hrec] at hone
    rw [hset]
    omega
  · intro hdead h' hr'
    have hout : i ∉ h.m.m_timers := by
      rw [hnot]
      rcases hdead with hc | ⟨hrec, he⟩
      · omega
      · rw [if_neg (by rw [hrec]; exact Bool.false_ne_true)] at hone
        omega
    exact (gone hinv hi hout hr').2.2

/-- A one-shot timer, cancelled. -/
def cancelledTimer : History :=
  ⟨{ oneTimer.clearCb 0 with m_timers := [] }, fun _ => 0, fun i => 0 + cancels (.cancel 0, ⟨true, false, [], []⟩) i⟩

theorem cancelledTimer_reach : Lts.Reach Init Step cancelledTimer := by
  have h1 : Lts.Reach Init Step ⟨oneTimer, fun _ => 0, fun _ => 0⟩ := by
    refine .step _ (.init (s := ⟨new 0, fun _ => 0, fun _ => 0⟩) ⟨⟨0, rfl⟩, rfl, rfl⟩) ⟨oneTimer_step, rfl, ?_⟩
    funext i
    show 0 = 0 + cancels _ i
    rw [cancels_of_ne]
    exact nofun
  exact .step (.cancel 0, ⟨true, false, [], []⟩) h1 ⟨oneCancelled_step, rfl, rfl⟩

theorem fires_once_cancelled :
    cancelledTimer.emitted 0 + cancelledTimer.cancelled 0 ≤ 1 ∧
      (0 ∉ cancelledTimer.m.m_timers → cancelledTimer.emitted 0 + cancelledTimer.cancelled 0 = 1) :=
  (fires_once cancelledTimer_reach (by decide)).1 rfl

end History

end Sylar
