/-
  Sylar.Timer.Front — when a TimerManager calls onTimerInsertedAtFront.

  A history with its clock (`now`, the last reading, which never goes back) and two
  records: `seen`, the earliest deadline at the last getNextTimer (`none` is infinity:
  no timer then, or no getNextTimer yet), and `calls`, how often onTimerInsertedAtFront
  was called since. The additions the operations make do not overflow (`NoOverflow`).

  `span` is why refresh and the re-insertion of recurring timers need no notice: the
  interval of a timer in the set starts no later than now, so counting it again from now
  moves no deadline forward.
  - `front_notified`: every timer in the set is due no earlier than `seen`, or
    onTimerInsertedAtFront was called since; and it was called at most once.
-/

import Sylar.Timer.Histories

namespace Sylar

/-- The reading of the clock an operation makes. -/
def TimerOp.reading : TimerOp → Option UInt64
  | .addTimer nowMs _ _ _ _ => some nowMs
  | .addConditionTimer nowMs _ _ _ _ _ => some nowMs
  | .cancel _ => none
  | .refresh _ nowMs => some nowMs
  | .reset _ _ fromNow nowMs => if fromNow then some nowMs else none
  | .getNextTimer nowMs => some nowMs
  | .listExpiredCb nowMs _ => some nowMs
  | .release _ => none

namespace TimerManager

/-- No addition the operation makes overflows. -/
def NoOverflow (m : TimerManager) : TimerOp → Prop
  | .addTimer nowMs interval _ _ _ => nowMs.toNat + interval.toNat < UInt64.size
  | .addConditionTimer nowMs interval _ _ _ _ => nowMs.toNat + interval.toNat < UInt64.size
  | .refresh i nowMs => (m.timer i).m_cb.isSome = true → nowMs.toNat + (m.timer i).m_interval.toNat < UInt64.size
  | .reset i interval fromNow nowMs =>
    ¬((m.timer i).m_interval = interval ∧ fromNow = false) → (m.timer i).m_cb.isSome = true →
      (m.resetStart i fromNow nowMs).toNat + interval.toNat < UInt64.size
  | .listExpiredCb nowMs _ =>
    ∀ i ∈ m.m_timers, (m.timer i).m_recurring = true → (m.timer i).m_next ≤ nowMs →
      nowMs.toNat + (m.timer i).m_interval.toNat < UInt64.size
  | _ => True

/-- The earliest deadline in the set. -/
def earliest (m : TimerManager) : Option UInt64 := (m.m_timers.map fun i => (m.timer i).m_next).min?

end TimerManager

namespace Front

open TimerManager

structure State where
  m : TimerManager
  now : UInt64
  seen : Option UInt64
  calls : Nat

def Init (s : State) : Prop := s.m = new s.now ∧ s.seen = none ∧ s.calls = 0

/-- Only getNextTimer takes a new record. -/
def TakesRecord : TimerOp → Bool
  | .getNextTimer _ => true
  | _ => false

structure Step (s : State) (a : TimerOp × TimerOut) (s' : State) : Prop where
  step : s.m.Step a s'.m
  fits : s.m.NoOverflow a.1
  clock : s.now ≤ s'.now
  now : s'.now = a.1.reading.getD s.now
  seen : s'.seen = if TakesRecord a.1 then s.m.earliest else s.seen
  calls : s'.calls = (if TakesRecord a.1 then 0 else s.calls) + if a.2.atFront then 1 else 0

/-! ## The invariant -/

/-- The timer's interval started no later than now. -/
def Spans (now : UInt64) (t : Timer) : Prop :=
  t.m_interval.toNat ≤ t.m_next.toNat ∧ t.m_next.toNat ≤ now.toNat + t.m_interval.toNat

/-- No timer in the set is due before the record. -/
def NotBefore (s : State) : Prop := ∀ i ∈ s.m.m_timers, ∃ d, s.seen = some d ∧ d ≤ (s.m.timer i).m_next

structure Inv (s : State) : Prop where
  ok : Ok [] s.m
  span : ∀ i ∈ s.m.m_timers, Spans s.now (s.m.timer i)
  previous : s.m.m_previousTime ≤ s.now
  notBefore : s.m.m_tickled = false → NotBefore s
  calls : s.calls = if s.m.m_tickled then 1 else 0

variable {s s' : State} {a : TimerOp × TimerOut}

theorem Spans.mono {now now' : UInt64} {t : Timer} (h : Spans now t) (hle : now ≤ now') : Spans now' t := by
  rw [UInt64.le_iff_toNat_le] at hle
  exact ⟨h.1, by have := h.2; omega⟩

theorem toNat_add_of_fits {x y : UInt64} (h : x.toNat + y.toNat < UInt64.size) : (x + y).toNat = x.toNat + y.toNat := by
  rw [UInt64.toNat_add]
  exact Nat.mod_eq_of_lt h

/-- An interval that starts at `start`. -/
theorem spans_add {now start interval : UInt64} {t : Timer} (ht : t.m_interval = interval)
    (hn : t.m_next = start + interval) (hle : start ≤ now) (hfit : start.toNat + interval.toNat < UInt64.size) :
    Spans now t := by
  rw [UInt64.le_iff_toNat_le] at hle
  unfold Spans
  rw [ht, hn, toNat_add_of_fits hfit]
  omega

/-- Counted again from a later start, an interval ends no earlier. -/
theorem Spans.next_le {now start : UInt64} {t : Timer} (h : Spans now t) (hle : now ≤ start)
    (hfit : start.toNat + t.m_interval.toNat < UInt64.size) : t.m_next ≤ start + t.m_interval := by
  rw [UInt64.le_iff_toNat_le] at hle ⊢
  rw [toNat_add_of_fits hfit]
  have := h.2
  omega

theorem earliest_spec (m : TimerManager) : ∀ i ∈ m.m_timers, ∃ d, m.earliest = some d ∧ d ≤ (m.timer i).m_next := by
  intro i hi
  cases he : m.earliest with
  | none =>
    have hnil := List.map_eq_nil_iff.mp (List.min?_eq_none_iff.mp he)
    rw [hnil] at hi
    cases hi
  | some d => exact ⟨d, rfl, (List.min?_eq_some_iff.mp he).2 _ (List.mem_map_of_mem hi)⟩

/-- A timer that is not below another one has a deadline no earlier. -/
theorem le_of_not_lt {m : TimerManager} (hok : Ok [] m) {i j : TimerId} (hi : i ∈ m.m_timers) (hj : j ∈ m.m_timers)
    (hne : j ≠ i) (hlt : ¬m.lt i j = true) : (m.timer j).m_next ≤ (m.timer i).m_next := by
  have hadr : (m.timer i).addr ≠ (m.timer j).addr := fun he =>
    hne (hok.addr i j (.inl (.inr hi)) (.inl (.inr hj)) he).symm
  exact UInt64.le_iff_toNat_le.mpr (next_le_of_lt ((lt_total hadr).resolve_left hlt))

/-! ## Steps -/

/-- A step other than getNextTimer that moves no deadline forward and calls nothing. -/
theorem Inv.later (hi : Inv s) (hs : Step s a s') (hok : Ok [] s'.m) (hrec : TakesRecord a.1 = false)
    (hfront : a.2.atFront = false) (ht : s'.m.m_tickled = s.m.m_tickled)
    (hp : s'.m.m_previousTime ≤ s'.now)
    (hmem : ∀ i ∈ s'.m.m_timers, i ∈ s.m.m_timers ∧ Spans s'.now (s'.m.timer i) ∧
      (s.m.timer i).m_next ≤ (s'.m.timer i).m_next) : Inv s' where
  ok := hok
  span i hin := (hmem i hin).2.1
  previous := hp
  notBefore htick i hin := by
    obtain ⟨hin', -, hle⟩ := hmem i hin
    obtain ⟨d, hd, hdle⟩ := hi.notBefore (ht ▸ htick) i hin'
    refine ⟨d, ?_, UInt64.le_trans hdle hle⟩
    rw [hs.seen, hrec, ← hd]
    rfl
  calls := by
    rw [hs.calls, hrec, hfront, ht, hi.calls]
    rfl

/-- A step that leaves the manager as it is. -/
theorem Inv.kept (hi : Inv s) (hs : Step s a s') (hm : s'.m = s.m) (hrec : TakesRecord a.1 = false)
    (hfront : a.2.atFront = false) : Inv s' := by
  refine hi.later hs (hm ▸ hi.ok) hrec hfront (by rw [hm]) ?_ ?_
  · rw [hm]
    exact UInt64.le_trans hi.previous hs.clock
  · rw [hm]
    exact fun i hin => ⟨hin, (hi.span i hin).mono hs.clock, UInt64.le_refl _⟩

/-- A step that puts timer `i` in its place by `addTimer(val, wlock)`. -/
theorem Inv.placed (hi : Inv s) (hs : Step s a s') (hok : Ok [] s'.m) (hrec : TakesRecord a.1 = false) {i : TimerId}
    (ht : s'.m.m_tickled = (s.m.m_tickled || a.2.atFront)) (hp : s'.m.m_previousTime = s.m.m_previousTime)
    (hin : i ∈ s'.m.m_timers) (hspan : Spans s'.now (s'.m.timer i))
    (hsub : ∀ j ∈ s.m.m_timers, j ∈ s'.m.m_timers)
    (hmem : ∀ j ∈ s'.m.m_timers, j ≠ i → j ∈ s.m.m_timers ∧ s'.m.timer j = s.m.timer j)
    (hfront : a.2.atFront = true ↔ s.m.m_tickled = false ∧ ∀ j ∈ s.m.m_timers, j ≠ i → s'.m.lt i j = true) :
    Inv s' := by
  have hseen : s'.seen = s.seen := by
    rw [hs.seen, hrec]
    rfl
  -- the other timers are where they were
  have hother : s.m.m_tickled = false → ∀ j ∈ s'.m.m_timers, j ≠ i →
      ∃ d, s'.seen = some d ∧ d ≤ (s'.m.timer j).m_next := by
    intro htick j hj hne
    obtain ⟨hj, he⟩ := hmem j hj hne
    rw [hseen, he]
    exact hi.notBefore htick j hj
  refine ⟨hok, ?_, hp ▸ UInt64.le_trans hi.previous hs.clock, ?_, ?_⟩
  · intro j hj
    by_cases e : j = i
    · exact e ▸ hspan
    · obtain ⟨hj, he⟩ := hmem j hj e
      rw [he]
      exact (hi.span j hj).mono hs.clock
  · intro htick j hj
    rw [ht, Bool.or_eq_false_iff] at htick
    by_cases e : j = i
    · subst e
      have hex : ∃ k ∈ s.m.m_timers, k ≠ j ∧ ¬s'.m.lt j k = true := by
        by_contra hno
        have hall : ∀ k ∈ s.m.m_timers, k ≠ j → s'.m.lt j k = true := by
          intro k hk hne
          by_contra hlt
          exact hno ⟨k, hk, hne, hlt⟩
        have := hfront.mpr ⟨htick.1, hall⟩
        rw [htick.2] at this
        cases this
      obtain ⟨k, hk, hne, hlt⟩ := hex
      obtain ⟨d, hd, hle⟩ := hother htick.1 k (hsub k hk) hne
      exact ⟨d, hd, UInt64.le_trans hle (le_of_not_lt hok hin (hsub k hk) hne hlt)⟩
    · exact hother htick.1 j hj e
  · rw [hs.calls, hrec, ht, hi.calls]
    cases hst : s.m.m_tickled with
    | true =>
      have hf : a.2.atFront = false := by
        cases hf : a.2.atFront with
        | true =>
          have := (hfront.mp hf).1
          rw [hst] at this
          cases this
        | false => rfl
      simp [hf]
    | false => simp

theorem init_inv (h : Init s) : Inv s := by
  obtain ⟨hm, -, hc⟩ := h
  refine ⟨hm ▸ new_ok s.now, ?_, ?_, ?_, ?_⟩
  · rw [hm]
    exact nofun
  · rw [hm]
    exact UInt64.le_refl _
  · intro _
    unfold NotBefore
    rw [hm]
    exact nofun
  · rw [hm, hc]
    rfl

theorem now_of_reading (hs : Step s a s') {r : UInt64} (hr : a.1.reading = some r) : s'.now = r := by
  rw [hs.now, hr]
  rfl

theorem adds_reading {op : TimerOp} {t : Timer} {m : TimerManager} (h : op.adds = some t) (hf : m.NoOverflow op) :
    ∃ r, op.reading = some r ∧ t.m_next = r + t.m_interval ∧ r.toNat + t.m_interval.toNat < UInt64.size ∧
      TakesRecord op = false := by
  cases op with
  | addTimer => cases h; exact ⟨_, rfl, rfl, hf, rfl⟩
  | addConditionTimer => cases h; exact ⟨_, rfl, rfl, hf, rfl⟩
  | _ => cases h

theorem step_inv (hi : Inv s) (hs : Step s a s') : Inv s' := by
  have hc := step_change hi.ok hs.step
  have hok := hc.ok hi.ok
  have hfit := hs.fits
  have hprev := UInt64.le_trans hi.previous hs.clock
  have hspan : ∀ i ∈ s.m.m_timers, Spans s'.now (s.m.timer i) := fun i hin => (hi.span i hin).mono hs.clock
  obtain ⟨op, o⟩ := a
  generalize hm' : s'.m = m' at hc hok
  cases hc with
  | @add _ t b _ ha hadd =>
    subst hm'
    obtain ⟨r, hr, hnext, hsum, hrec⟩ := adds_reading ha hfit
    have hnow := now_of_reading hs hr
    have hself : s'.m.timer s.m.created = t := by rw [hadd.timer, Function.update_self]
    have hne : ∀ j ∈ s.m.m_timers, j ≠ s.m.created := fun j hj => Nat.ne_of_lt (hi.ok.created j (.inl (.inr hj)))
    refine hi.placed hs hok hrec hadd.tickled hadd.previous ((hadd.mem _).mpr (.inl rfl)) ?_ ?_ ?_ ?_
    · rw [hself]
      exact spans_add rfl hnext (UInt64.le_of_eq hnow.symm) hsum
    · exact fun j hj => (hadd.mem j).mpr (.inr hj)
    · intro j hj e
      rw [hadd.timer, Function.update_of_ne e]
      exact ⟨((hadd.mem j).mp hj).resolve_left e, rfl⟩
    · rw [hadd.front]
      exact and_congr Iff.rfl ⟨fun h j hj _ => h j hj, fun h j hj => h j hj (hne j hj)⟩
  | refuse ha =>
    have hrec : TakesRecord op = false := by cases op <;> first | rfl | cases ha
    exact hi.kept hs hm' hrec rfl
  | same =>
    exact hi.kept hs hm' rfl rfl
  | @cancel i hin _ _ =>
    refine hi.later hs (hm' ▸ hok) rfl rfl (by rw [hm']; rfl) (by rw [hm']; exact hprev) ?_
    rw [hm']
    intro j hj
    obtain ⟨hne, hj⟩ := hi.ok.nodup.mem_erase_iff.mp hj
    have hself : (s.m.clearCb i).timer j = s.m.timer j := Function.update_of_ne hne ..
    show _ ∧ Spans _ ((s.m.clearCb i).timer j) ∧ _ ≤ ((s.m.clearCb i).timer j).m_next
    rw [hself]
    exact ⟨hj, hspan j hj, UInt64.le_refl _⟩
  | @refresh i nowMs _ hin hcb hr htick =>
    subst hm'
    have hnow := now_of_reading hs rfl
    have hsum := hfit hcb
    refine hi.later hs hok rfl rfl htick (hr.previous ▸ hprev) ?_
    intro j hj
    have hj := (hr.mem j).mp hj
    rw [hr.timer]
    by_cases e : j = i
    · subst e
      rw [Function.update_self]
      refine ⟨hj, spans_add rfl rfl (UInt64.le_of_eq hnow.symm) hsum, ?_⟩
      exact (hi.span j hj).next_le (hnow ▸ hs.clock) hsum
    · rw [Function.update_of_ne e]
      exact ⟨hj, hspan j hj, UInt64.le_refl _⟩
  | @reset i interval nowMs fromNow b _ hne hin hcb hr htick hfront =>
    subst hm'
    have hsum := hfit hne hcb
    -- the start is not after now
    have hstart : s.m.resetStart i fromNow nowMs ≤ s'.now := by
      cases fromNow with
      | true => exact UInt64.le_of_eq (now_of_reading hs rfl).symm
      | false =>
        have hsp := hspan i hin
        rw [UInt64.le_iff_toNat_le]
        show ((s.m.timer i).m_next - (s.m.timer i).m_interval).toNat ≤ _
        rw [UInt64.toNat_sub_of_le _ _ (UInt64.le_iff_toNat_le.mpr hsp.1)]
        have := hsp.2
        omega
    refine hi.placed hs hok rfl htick hr.previous ((hr.mem i).mpr hin) ?_ (fun j => (hr.mem j).mpr) ?_ hfront
    · rw [hr.timer, Function.update_self]
      exact spans_add rfl rfl hstart hsum
    · intro j hj e
      rw [hr.timer, Function.update_of_ne e]
      exact ⟨(hr.mem j).mp hj, rfl⟩
  | @next nowMs =>
    refine ⟨hm' ▸ hok, ?_, ?_, ?_, ?_⟩
    · rw [hm']
      exact hspan
    · rw [hm']
      exact hprev
    · intro _
      unfold NotBefore
      rw [hs.seen, hm']
      exact earliest_spec s.m
    · rw [hs.calls, hm']
      rfl
  | @expire nowMs addr l _ he =>
    subst hm'
    have hnow := now_of_reading hs rfl
    have hroll : s.m.rollover nowMs = false := rollover_of_le (hnow ▸ hprev)
    refine hi.later hs hok rfl rfl he.tickled ?_ ?_
    · rw [he.previous]
      split
      · exact hprev
      · exact UInt64.le_of_eq hnow.symm
    · intro j hj
      obtain ⟨hj, hrec⟩ := (he.mem j).mp hj
      rw [he.timer]
      by_cases hl : j ∈ l
      · have hdue : (s.m.timer j).m_next ≤ nowMs := by
          have := ((he.due j).mp hl).2
          rw [hroll] at this
          exact this.resolve_left Bool.false_ne_true
        have hsum := hfit j hj (hrec hl) hdue
        rw [if_pos hl, fired, if_pos (hrec hl)]
        refine ⟨hj, spans_add rfl rfl (UInt64.le_of_eq hnow.symm) hsum, ?_⟩
        exact (hi.span j hj).next_le (hnow ▸ hs.clock) hsum
      · rw [if_neg hl]
        exact ⟨hj, hspan j hj, UInt64.le_refl _⟩
  | release =>
    exact hi.later hs (hm' ▸ hok) rfl rfl (by rw [hm']) (by rw [hm']; exact hprev)
      (by rw [hm']; exact fun i hin => ⟨hin, hspan i hin, UInt64.le_refl _⟩)

/-- Every timer in the set is due no earlier than the earliest deadline at the last
    getNextTimer, or onTimerInsertedAtFront was called since, and at most once. -/
theorem front_notified (h : Lts.Reach Init Step s) :
    ((∀ i ∈ s.m.m_timers, ∃ d, s.seen = some d ∧ d ≤ (s.m.timer i).m_next) ∨ 0 < s.calls) ∧ s.calls ≤ 1 := by
  have hi : Inv s := h.inv (fun _ => init_inv) fun _ _ _ => step_inv
  have hc := hi.calls
  cases ht : s.m.m_tickled with
  | true =>
    rw [ht] at hc
    exact ⟨.inr (by rw [hc]; decide), by rw [hc]; decide⟩
  | false =>
    rw [ht] at hc
    exact ⟨.inl (hi.notBefore ht), by rw [hc]; decide⟩

/-- After getNextTimer at reading 0, a timer that is due before the first. -/
def earlier : TimerManager := ((oneTimer.getNextTimer 0).1.addTimer 1 3 (some (.fn 8)) false 200).1

theorem front_notified_earlier : ∃ s : State, s.m = earlier ∧ s.seen = some 5 ∧ s.m.m_timers = [1, 0] ∧
    ((∀ i ∈ s.m.m_timers, ∃ d, s.seen = some d ∧ d ≤ (s.m.timer i).m_next) ∨ 0 < s.calls) ∧ s.calls ≤ 1 := by
  have h1 : Lts.Reach Init Step ⟨oneTimer, 0, none, 1⟩ := by
    refine .step _ (.init (s := ⟨new 0, 0, none, 0⟩) ⟨rfl, rfl, rfl⟩) ⟨oneTimer_step, ?_, ?_, rfl, rfl, rfl⟩
    · show (0 : UInt64).toNat + (5 : UInt64).toNat < UInt64.size
      decide
    · exact UInt64.le_refl _
  have h2 : Lts.Reach Init Step ⟨(oneTimer.getNextTimer 0).1, 0, some 5, 0⟩ :=
    .step (.getNextTimer 0, ⟨true, false, [], []⟩) h1 ⟨⟨trivial, rfl⟩, trivial, UInt64.le_refl _, rfl, rfl, rfl⟩
  have h3 : Lts.Reach Init Step ⟨earlier, 1, some 5, 1⟩ := by
    refine .step (.addTimer 1 3 (some (.fn 8)) false 200, ⟨true, true, [], []⟩) h2 ⟨⟨?_, rfl⟩, ?_, ?_, rfl, rfl, rfl⟩
    · intro i hi
      rw [oneTimer_live hi]
      decide
    · show (1 : UInt64).toNat + (3 : UInt64).toNat < UInt64.size
      decide
    · decide
  exact ⟨_, rfl, rfl, rfl, front_notified h3⟩

end Front

end Sylar
