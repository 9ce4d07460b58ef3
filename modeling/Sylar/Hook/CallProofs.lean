/-
  Sylar.Hook.CallProofs — what a hooked call promises its caller (see `Sylar.Hook.Call`),
  and when it keeps it: `addEvent` returns true when it has registered the fiber, and the
  call takes that for a failure.

  Proved, over every run of a call:
  - `registration_iff`: it is about to yield only after an addEvent that succeeded, and
    returns with its registration and its timers gone, exactly when no addEvent of the
    run fails and each that succeeds is consumed by another thread before the call ends.
  - `transparent_iff`: a managed `do_io` returns, and what the blocking call could have
    returned, exactly when it makes no addEvent.
  - `connected_iff`: `connect_with_timeout` reports success, and ends at all, only once
    the connection is decided exactly when SO_ERROR is read after the kernel's report.
-/

import Sylar.Hook.Call

namespace Sylar.Hook

/-- Where a timer of the call may be armed. -/
def Pc.waiting : Pc → Bool
  | .addEvent | .refused | .yield | .asleep | .resumed => true
  | _ => false

/-- The errno that makes the function wait. -/
def Params.again (p : Params) : Errno :=
  match p.func with
  | .do_io _ => EAGAIN
  | .connect_with_timeout _ => EINPROGRESS

/-- What each program point knows of the kernel's answers. -/
def At (p : Params) (s : Call) : Prop :=
  match s.pc with
  | .start => s.answered = none ∧ s.added = none
  | .direct => p.entry = .direct ∧ s.added = none
  | .call => s.added ≠ some true
  | .arm | .addEvent => s.added ≠ some true ∧ s.answered = some (-1, p.again) ∧ s.errno = p.again
  | .refused => s.added = some true ∧ s.answered = some (-1, p.again) ∧ s.errno = p.again
  | .yield | .asleep | .resumed => s.added = some false ∧ s.answered = some (-1, p.again)
  | .getsockopt => (∃ t, p.func = .connect_with_timeout t) ∧ s.answered = some (-1, p.again)
  | .ret => True

structure Inv (p : Params) (s : Call) : Prop where
  timers : s.timers = [] ∨ ∃ x, s.timers = [x] ∧ s.timer = some x ∧ s.pc.waiting = true
  limited : s.timers ≠ [] ∨ s.popped ≠ 0 ∨ s.cancelled ≠ 0 → p.timeout ≠ noTimeout
  cancelled : s.cancelled = 0 ∨ s.cancelled = ETIMEDOUT
  point : At p s

/-! ## Each step -/

theorem cancelTimer_timers {p : Params} {s : Call} (hi : Inv p s) : s.cancelTimer.timers = [] := by
  rcases hi.timers with h | ⟨x, h, hx, -⟩
  · unfold Call.cancelTimer; rw [h]; cases s.timer <;> rfl
  · simp [Call.cancelTimer, h, hx]

theorem limited_cancelTimer {p : Params} {s : Call} (hi : Inv p s) :
    s.popped ≠ 0 ∨ s.cancelled ≠ 0 → p.timeout ≠ noTimeout := fun h => hi.limited (.inr h)

/-- A step that leaves no timer armed only has to keep what its point knows. -/
theorem Inv.quiet {p : Params} {s s' : Call} (hi : Inv p s) (ht : s'.timers = []) (hp : s'.popped = s.popped)
    (hc : s'.cancelled = s.cancelled) (hat : At p s') : Inv p s' :=
  ⟨.inl ht, fun h => limited_cancelTimer hi (by rw [hp, hc] at h; exact h.resolve_left fun hne => hne ht),
    by rw [hc]; exact hi.cancelled, hat⟩

/-- Outside the waiting points no timer is armed. -/
theorem Inv.timers_nil {p : Params} {s : Call} (hi : Inv p s) (hw : s.pc.waiting = false) : s.timers = [] := by
  rcases hi.timers with h | ⟨x, -, -, h⟩
  · exact h
  · rw [hw] at h; cases h

theorem addEvent_result {io io' : IOManager} {self : Caller} {fd : Nat} {event : Event} {cb : Option CbId}
    {ctl b : Bool} (h : io.addEvent self fd event cb ctl = .ok (b, io')) : b = ctl := by
  obtain ⟨c, -, h⟩ := Except.bind_eq_ok.mp h
  obtain ⟨_, -, h⟩ := Except.bind_eq_ok.mp h
  cases ctl with
  | false => cases h; rfl
  | true =>
    obtain ⟨ctx, -, h⟩ := Except.bind_eq_ok.mp h
    obtain ⟨_, -, h⟩ := Except.bind_eq_ok.mp h
    obtain ⟨_, -, h⟩ := Except.bind_eq_ok.mp h
    cases h; rfl

/-- The timer's callback: nothing once the call was cancelled, else the mark and a
    `cancelEvent`. -/
theorem onTimer_cases {p : Params} {s s' : Call} {ctl : Bool} (h : s.onTimer p ctl = .ok s') :
    (s.cancelled ≠ 0 ∧ s' = { s with popped := s.popped - 1 }) ∨
      ∃ io, s' = { s with popped := s.popped - 1, cancelled := ETIMEDOUT, io := io } := by
  simp only [Call.onTimer] at h
  split at h
  · rename_i hc; cases h; exact .inl ⟨hc, rfl⟩
  · obtain ⟨r, -, h⟩ := Except.bind_eq_ok.mp h
    cases h; exact .inr ⟨_, rfl⟩

theorem onAnswer_cases (p : Params) (s : Call) (n : Int) (errno : Errno) :
    (n = -1 ∧ errno = EINTR ∧ s.onAnswer p n errno = { s with answered := some (n, errno), errno := errno }) ∨
    (n = -1 ∧ errno = p.again ∧
      s.onAnswer p n errno = { s with answered := some (n, errno), errno := errno, pc := .arm }) ∨
    ((p.again = EAGAIN → ¬ (n = -1 ∧ (errno = EAGAIN ∨ errno = EINTR))) ∧
      ¬ (n = -1 ∧ errno = p.again) ∧
      s.onAnswer p n errno = { s with answered := some (n, errno), errno := errno }.returns n errno) := by
  unfold Call.onAnswer Params.again
  cases p.func with
  | do_io w =>
    simp only
    split
    · rename_i h; exact .inl ⟨h.1, h.2, rfl⟩
    · split
      · rename_i h; exact .inr (.inl ⟨h.1, h.2, rfl⟩)
      · rename_i h1 h2
        refine .inr (.inr ⟨?_, h2, rfl⟩)
        intro _ hx
        obtain ⟨hn, he | he⟩ := hx
        · exact h2 ⟨hn, he⟩
        · exact h1 ⟨hn, he⟩
  | connect_with_timeout t =>
    have hne : EINPROGRESS ≠ EAGAIN := by decide
    simp only
    split
    · rename_i h; subst h; exact .inr (.inr ⟨fun h => absurd h hne, by simp, rfl⟩)
    · split
      · rename_i h
        refine .inr (.inr ⟨fun h => absurd h hne, fun ⟨h1, h2⟩ => ?_, rfl⟩)
        exact h.elim (· h1) (· h2)
      · rename_i h
        rw [not_or, not_not, not_not] at h
        exact .inr (.inl ⟨h.1, h.2, rfl⟩)

theorem onRefused_cases (p : Params) (s : Call) :
    (∃ w, p.func = .do_io w ∧ s.onRefused p = s.cancelTimer.returns (-1) s.errno) ∨
    (∃ t, p.func = .connect_with_timeout t ∧ s.onRefused p = { s.cancelTimer with pc := .getsockopt }) := by
  unfold Call.onRefused
  cases p.func with
  | do_io w => exact .inl ⟨w, rfl, rfl⟩
  | connect_with_timeout t => exact .inr ⟨t, rfl, rfl⟩

theorem onResumed_cases (p : Params) (s : Call) :
    (s.cancelled ≠ 0 ∧ s.onResumed p = s.cancelTimer.returns (-1) s.cancelled) ∨
    (∃ w, p.func = .do_io w ∧ s.onResumed p = { s.cancelTimer with pc := .call }) ∨
    (∃ t, p.func = .connect_with_timeout t ∧ s.onResumed p = { s.cancelTimer with pc := .getsockopt }) := by
  unfold Call.onResumed
  by_cases hc : s.cancelled ≠ 0
  · exact .inl ⟨hc, if_pos hc⟩
  · cases p.func with
    | do_io w => exact .inr (.inl ⟨w, rfl, if_neg hc⟩)
    | connect_with_timeout t => exact .inr (.inr ⟨t, rfl, if_neg hc⟩)

theorem onGetsockopt_cases (s : Call) (ok : Bool) (errno : Errno) :
    ∃ n e, s.onGetsockopt ok errno = s.returns n e ∧ (n = 0 ↔ ok = true ∧ s.soError = 0) := by
  unfold Call.onGetsockopt
  cases ok with
  | false => exact ⟨-1, errno, rfl, by simp⟩
  | true =>
    by_cases he : s.soError = 0
    · exact ⟨0, s.errno, by simp [he], by simp [he]⟩
    · exact ⟨-1, s.soError, by simp [he], by simp [he]⟩

theorem step_inv {p : Params} {s s' : Call} {a : Act} (hi : Inv p s) (h : Step p s a s') : Inv p s' := by
  have hat := hi.point
  unfold At at hat
  cases h with
  | enter hpc =>
    have ht := hi.timers_nil (by rw [hpc]; rfl)
    rw [hpc] at hat
    unfold Call.enter
    cases he : p.entry with
    | direct => exact hi.quiet ht rfl rfl ⟨he, hat.2⟩
    | badf => exact hi.quiet ht rfl rfl trivial
    | managed t => exact hi.quiet ht rfl rfl (by simp [At, hat.2])
  | direct n errno hpc => exact hi.quiet (hi.timers_nil (by rw [hpc]; rfl)) rfl rfl trivial
  | answer n errno hpc =>
    have ht := hi.timers_nil (by rw [hpc]; rfl)
    rw [hpc] at hat
    rcases onAnswer_cases p s n errno with ⟨-, -, h⟩ | ⟨rfl, rfl, h⟩ | ⟨-, -, h⟩ <;> rw [h]
    · exact hi.quiet ht rfl rfl (by simp only [At, hpc]; exact hat)
    · exact hi.quiet ht rfl rfl ⟨hat, rfl, rfl⟩
    · exact hi.quiet ht rfl rfl trivial
  | arm hpc =>
    have ht := hi.timers_nil (by rw [hpc]; rfl)
    rw [hpc] at hat
    unfold Call.armTimer
    split
    · rename_i hto
      exact ⟨.inr ⟨s.made, by simp [ht], rfl, rfl⟩, fun _ => hto, hi.cancelled, hat⟩
    · exact hi.quiet ht rfl rfl hat
  | addEvent ctl errno hpc had =>
    rename_i b io
    rw [hpc] at hat
    have hw : s.timers = [] ∨ ∃ x, s.timers = [x] ∧ s.timer = some x :=
      hi.timers.imp id fun ⟨x, h1, h2, _⟩ => ⟨x, h1, h2⟩
    cases b with
    | true => exact ⟨hw.imp id fun ⟨x, h1, h2⟩ => ⟨x, h1, h2, rfl⟩, hi.limited, hi.cancelled, rfl, hat.2⟩
    | false => exact ⟨hw.imp id fun ⟨x, h1, h2⟩ => ⟨x, h1, h2, rfl⟩, hi.limited, hi.cancelled, rfl, hat.2.1⟩
  | refuse hpc =>
    rw [hpc] at hat
    rcases onRefused_cases p s with ⟨w, -, h⟩ | ⟨t, ht, h⟩ <;> rw [h]
    · exact hi.quiet (cancelTimer_timers hi) rfl rfl trivial
    · exact hi.quiet (cancelTimer_timers hi) rfl rfl ⟨⟨t, ht⟩, hat.2.1⟩
  | yield hpc =>
    rw [hpc] at hat
    exact ⟨hi.timers.imp id fun ⟨x, h1, h2, _⟩ => ⟨x, h1, h2, rfl⟩, hi.limited, hi.cancelled, hat⟩
  | wake errno hpc =>
    rw [hpc] at hat
    exact ⟨hi.timers.imp id fun ⟨x, h1, h2, _⟩ => ⟨x, h1, h2, rfl⟩, hi.limited, hi.cancelled, hat⟩
  | resume hpc =>
    rw [hpc] at hat
    rcases onResumed_cases p s with ⟨-, h⟩ | ⟨w, -, h⟩ | ⟨t, ht, h⟩ <;> rw [h]
    · exact hi.quiet (cancelTimer_timers hi) rfl rfl trivial
    · exact hi.quiet (cancelTimer_timers hi) rfl rfl (by simp [At, Call.cancelTimer, hat.1])
    · exact hi.quiet (cancelTimer_timers hi) rfl rfl ⟨⟨t, ht⟩, hat.2⟩
  | getsockopt ok errno hpc =>
    obtain ⟨n, e, h, -⟩ := onGetsockopt_cases s ok errno
    rw [h]
    exact hi.quiet (hi.timers_nil (by rw [hpc]; rfl)) rfl rfl trivial
  | other op _ _ _ => exact ⟨hi.timers, hi.limited, hi.cancelled, hi.point⟩
  | expire x _ hx =>
    have hto : p.timeout ≠ noTimeout := hi.limited (.inl (List.ne_nil_of_mem hx))
    refine ⟨.inl ?_, fun _ => hto, hi.cancelled, hi.point⟩
    rcases hi.timers with h | ⟨y, h, -⟩
    · rw [h] at hx; cases hx
    · rw [h, List.mem_singleton] at hx
      subst hx; simp [h]
  | onTimer ctl _ hq hcb =>
    have hto : p.timeout ≠ noTimeout := hi.limited (.inr (.inl hq))
    rcases onTimer_cases hcb with ⟨-, rfl⟩ | ⟨io, rfl⟩
    · exact ⟨hi.timers, fun _ => hto, hi.cancelled, hi.point⟩
    · exact ⟨hi.timers, fun _ => hto, .inr rfl, hi.point⟩
  | soError e _ => exact ⟨hi.timers, hi.limited, hi.cancelled, hi.point⟩
  | report _ => exact ⟨hi.timers, hi.limited, hi.cancelled, hi.point⟩

theorem start_inv {p : Params} {s : Call} (h : Start p s) : Inv p s :=
  ⟨.inl h.timers, fun hne => by simp [h.timers, h.popped, h.cancelled] at hne, .inl h.cancelled,
    by simp [At, h.pc, h.answered, h.added]⟩

/-! ## Yield and return -/

/-- The call's own registration: its event is armed, for its fiber. -/
def Registered (p : Params) (s : Call) : Prop :=
  ∃ c ctx, s.io.fdContext p.fd = .ok c ∧ (c.m_events &&& p.event).any = true ∧
    c.getEventContext p.event = .ok ctx ∧ ctx.m_fiber = some p.self.fiber

/-- About to yield, the call has just registered; back at its caller, neither its
    registration nor a timer of its own is armed. -/
structure Registration (p : Params) (s : Call) : Prop where
  yields : s.pc = .yield → s.added = some true
  returns : s.pc = .ret → ¬ (s.added = some true ∧ Registered p s) ∧ s.timers = []

/-- The step that ends a call whose addEvent succeeded. -/
def ends (p : Params) : Act → Bool
  | .refuse => match p.func with
    | .do_io _ => true
    | .connect_with_timeout _ => false
  | .getsockopt .. => true
  | _ => false

/-- The step fails no addEvent; if it ends a call that registered, another thread has
    consumed the registration. -/
structure Consumed (p : Params) (s : Call) (a : Act) : Prop where
  succeeds : ∀ ctl errno, a = .addEvent ctl errno → ctl = true
  consumed : ends p a = true → s.added = some true → ¬ Registered p s

theorem registration_of {p : Params} {s : Call} (hi : Inv p s) (hy : s.pc ≠ .yield)
    (hr : s.pc = .ret → s.added ≠ some true) : Registration p s :=
  ⟨fun h => absurd h hy, fun h => ⟨fun hn => hr h hn.1, hi.timers_nil (by rw [h]; rfl)⟩⟩

theorem consumed_of {p : Params} {s : Call} {a : Act} (ha : ∀ ctl errno, a ≠ .addEvent ctl errno)
    (he : ends p a = false) : Consumed p s a :=
  ⟨fun ctl errno h => absurd h (ha ctl errno), fun h => by rw [he] at h; cases h⟩

/-- What ends the call leaves the table as it was. -/
theorem registration_ends {p : Params} {s s' : Call} {a : Act} (hi : Inv p s') (hr : s'.pc = .ret)
    (hadd : s'.added = s.added) (hio : s'.io = s.io) (ha : ∀ ctl errno, a ≠ .addEvent ctl errno)
    (he : ends p a = true) : Registration p s' ↔ Consumed p s a := by
  have hreg : Registered p s' ↔ Registered p s := by unfold Registered; rw [hio]
  constructor
  · intro h
    refine ⟨fun ctl errno h => absurd h (ha ctl errno), ?_⟩
    intro _ h1 h2
    exact (h.returns hr).1 ⟨hadd.trans h1, hreg.mpr h2⟩
  · intro h
    refine ⟨fun hy => (nomatch hr.symm.trans hy), fun _ => ⟨?_, hi.timers_nil (by rw [hr]; rfl)⟩⟩
    intro hn
    exact h.consumed he (hadd.symm.trans hn.1) (hreg.mp hn.2)

/-- Before an addEvent has failed, no step but an addEvent leads to a yield. -/
theorem step_registration {p : Params} {s s' : Call} {a : Act} (hi : Inv p s) (hf : s.added ≠ some false)
    (h : Step p s a s') : Registration p s' ↔ Consumed p s a := by
  have hi' := step_inv hi h
  have hat := hi.point
  unfold At at hat
  have hno : s.pc ≠ .yield := fun hpc => by rw [hpc] at hat; exact hf hat.1
  have both {a : Act} (hy : s'.pc ≠ .yield) (hr : s'.pc = .ret → s'.added ≠ some true)
      (ha : ∀ ctl errno, a ≠ .addEvent ctl errno) (he : ends p a = false) : Registration p s' ↔ Consumed p s a :=
    ⟨fun _ => consumed_of ha he, fun _ => registration_of hi' hy hr⟩
  cases h with
  | enter hpc =>
    rw [hpc] at hat
    refine both ?_ (fun _ => ?_) (by simp) rfl <;> unfold Call.enter <;>
      cases p.entry <;> simp [Call.returns, hat.2]
  | direct n errno hpc =>
    rw [hpc] at hat
    exact both (by simp [Call.returns]) (fun _ => by simp [Call.returns, hat.2]) (by simp) rfl
  | answer n errno hpc =>
    rw [hpc] at hat
    rcases onAnswer_cases p s n errno with ⟨-, -, h⟩ | ⟨-, -, h⟩ | ⟨-, -, h⟩
    · exact both (by simp [h, hpc]) (by simp [h, hat]) (by simp) rfl
    · exact both (by simp [h]) (by simp [h]) (by simp) rfl
    · exact both (by simp [h, Call.returns]) (fun _ => by rw [h]; exact hat) (by simp) rfl
  | arm hpc =>
    have hpc' : (s.armTimer p).pc = .addEvent := by unfold Call.armTimer; split <;> rfl
    exact both (by simp [hpc']) (by simp [hpc']) (by simp) rfl
  | addEvent ctl errno hpc had =>
    have hb := addEvent_result had
    subst hb
    rename_i b io
    cases b with
    | true =>
      refine ⟨fun _ => ⟨fun ctl errno h => by cases h; rfl, fun h => nomatch h⟩, ?_⟩
      intro _
      exact registration_of hi' (by simp [Call.onAddEvent]) (by simp [Call.onAddEvent])
    | false =>
      constructor
      · intro h
        have := h.yields rfl; cases this
      · intro h
        have := h.succeeds false errno rfl; cases this
  | refuse hpc =>
    rcases onRefused_cases p s with ⟨w, hw, h⟩ | ⟨t, ht, h⟩
    · exact registration_ends hi' (by rw [h]; rfl) (by rw [h]; rfl) (by rw [h]; rfl) (by simp) (by simp [ends, hw])
    · exact both (by simp [h]) (by simp [h]) (by simp) (by simp [ends, ht])
  | yield hpc => exact absurd hpc hno
  | wake errno hpc => rw [hpc] at hat; exact absurd hat.1 hf
  | resume hpc => rw [hpc] at hat; exact absurd hat.1 hf
  | getsockopt ok errno hpc =>
    obtain ⟨n, e, h, -⟩ := onGetsockopt_cases s ok errno
    exact registration_ends hi' (by rw [h]; rfl) (by rw [h]; rfl) (by rw [h]; rfl) (by simp) rfl
  | other op hr _ _ => exact both hno (fun h => absurd h hr) (by simp) rfl
  | expire x hr _ => exact both hno (fun h => absurd h hr) (by simp) rfl
  | onTimer ctl hr _ hcb =>
    rcases onTimer_cases hcb with ⟨-, rfl⟩ | ⟨io, rfl⟩
    · exact both hno (fun h => absurd h hr) (by simp) rfl
    · exact both hno (fun h => absurd h hr) (by simp) rfl
  | soError e hr => exact both hno (fun h => absurd h hr) (by simp) rfl
  | report hr => exact both hno (fun h => absurd h hr) (by simp) rfl

/-- Only an addEvent changes what the last addEvent answered. -/
theorem step_added {p : Params} {s s' : Call} {a : Act} (h : Step p s a s') :
    (∃ ctl errno, a = .addEvent ctl errno ∧ s.pc = .addEvent ∧ s'.added = some ctl) ∨
      ((∀ ctl errno, a ≠ .addEvent ctl errno) ∧ s'.added = s.added) := by
  cases h with
  | enter hpc => exact .inr ⟨by simp, by unfold Call.enter; cases p.entry <;> rfl⟩
  | direct n errno hpc => exact .inr ⟨by simp, rfl⟩
  | answer n errno hpc =>
    rcases onAnswer_cases p s n errno with ⟨-, -, h⟩ | ⟨-, -, h⟩ | ⟨-, -, h⟩
    · exact .inr ⟨by simp, by rw [h]⟩
    · exact .inr ⟨by simp, by rw [h]⟩
    · exact .inr ⟨by simp, by rw [h]; rfl⟩
  | arm hpc => exact .inr ⟨by simp, by unfold Call.armTimer; split <;> rfl⟩
  | addEvent ctl errno hpc had => exact .inl ⟨ctl, errno, rfl, hpc, by rw [← addEvent_result had]; rfl⟩
  | refuse hpc =>
    rcases onRefused_cases p s with ⟨w, -, h⟩ | ⟨t, -, h⟩ <;> exact .inr ⟨by simp, by rw [h]; rfl⟩
  | yield hpc => exact .inr ⟨by simp, rfl⟩
  | wake errno hpc => exact .inr ⟨by simp, rfl⟩
  | resume hpc =>
    rcases onResumed_cases p s with ⟨-, h⟩ | ⟨w, -, h⟩ | ⟨t, -, h⟩ <;> exact .inr ⟨by simp, by rw [h]; rfl⟩
  | getsockopt ok errno hpc =>
    obtain ⟨n, e, h, -⟩ := onGetsockopt_cases s ok errno
    exact .inr ⟨by simp, by rw [h]; rfl⟩
  | other op hr _ _ => exact .inr ⟨by simp, rfl⟩
  | expire x hr _ => exact .inr ⟨by simp, rfl⟩
  | onTimer ctl hr _ hcb =>
    rcases onTimer_cases hcb with ⟨-, rfl⟩ | ⟨io, rfl⟩ <;> exact .inr ⟨by simp, rfl⟩
  | soError e hr => exact .inr ⟨by simp, rfl⟩
  | report hr => exact .inr ⟨by simp, rfl⟩

/-- A run of a call yields only where it has registered, and returns with registration
    and timers gone, exactly when no addEvent of it fails and each registration is
    consumed by another thread before the call ends. -/
theorem registration_iff {p : Params} {s₀ : Call} (h0 : Start p s₀) {tr : List (Act × Call)} (h : Run p s₀ tr) :
    Lts.Every (fun _ _ s' => Registration p s') s₀ tr ↔ Lts.Every (fun s a _ => Consumed p s a) s₀ tr := by
  refine h.every_iff (J := fun s => Inv p s ∧ s.added ≠ some false) (P := fun _ _ s' => Registration p s')
    (G := Consumed p) ?_ (fun s a s' hj hs => step_registration hj.1 hj.2 hs) ⟨start_inv h0, by simp [h0.added]⟩
  intro s a s' ⟨hi, hf⟩ hg hs
  refine ⟨step_inv hi hs, ?_⟩
  rcases step_added hs with ⟨ctl, errno, rfl, -, hadd⟩ | ⟨-, hadd⟩
  · rw [hadd, hg.succeeds ctl errno rfl]; simp
  · rw [hadd]; exact hf

/-! ## What a managed `do_io` returns -/

/-- The descriptor is a socket the user left in blocking mode, on a thread with hooks. -/
def Managed (p : Params) : Prop :=
  p.t_hook_enable = true ∧ ∃ ctx, p.ctx = some ctx ∧ ctx.m_isClosed = false ∧ ctx.m_isSocket = true ∧
    ctx.m_userNonBlock = false

theorem Managed.entry {p : Params} (h : Managed p) : ∃ timeout, p.entry = .managed timeout := by
  obtain ⟨he, ctx, hc, hcl, hs, hu⟩ := h
  unfold Params.entry
  cases p.func with
  | do_io w => exact ⟨_, by simp only [do_io.entry, he, hc, hcl, hs, hu]; rfl⟩
  | connect_with_timeout t => exact ⟨_, by simp only [connect_with_timeout.entry, he, hc, hcl, hs, hu]; rfl⟩

/-- On its way the call sleeps only while its event is registered; what it returns is the
    last answer of the underlying call, one that does not mean "again", or that it timed
    out, or that the event could not be registered. -/
structure Transparent (p : Params) (s : Call) : Prop where
  waits : s.pc = .yield → s.added = some true
  result : s.pc = .ret → (s.answered = some (s.n, s.errno) ∧ ¬ (s.n = -1 ∧ (s.errno = EAGAIN ∨ s.errno = EINTR))) ∨
    (s.n = -1 ∧ s.errno = ETIMEDOUT ∧ p.timeout ≠ noTimeout) ∨ (s.n = -1 ∧ s.added = some false)
  again : s.pc = .ret → s.added = some true → ¬ (s.n = -1 ∧ s.errno = EAGAIN)

/-- The call has nothing left to do by itself: it is back at its caller, inside the
    underlying call, or asleep. -/
def Settled (s : Call) : Prop := s.pc = .ret ∨ s.pc = .call ∨ s.pc = .asleep

/-- It is back at its caller, unless the underlying call has given no answer but EINTR. -/
def Returned (s : Call) : Prop :=
  s.pc = .ret ∨ (s.pc = .call ∧ (s.answered = none ∨ s.answered = some (-1, EINTR)))

/-- Before the first addEvent: what the underlying call said so far. -/
def Plain (s : Call) : Prop :=
  s.added = none ∧ (s.pc = .call → s.answered = none ∨ s.answered = some (-1, EINTR))

/-- A step but an addEvent, before the first addEvent. -/
theorem step_plain {p : Params} {w : Wrapper} (hw : p.func = .do_io w) (hm : Managed p) {s s' : Call} {a : Act}
    (hi : Inv p s) (hs : Plain s) (ha : ∀ ctl errno, a ≠ .addEvent ctl errno) (h : Step p s a s') :
    Plain s' ∧ Transparent p s' := by
  obtain ⟨hadd, hans⟩ := hs
  have hat := hi.point
  unfold At at hat
  have hagain : p.again = EAGAIN := by unfold Params.again; rw [hw]
  obtain ⟨timeout, he⟩ := hm.entry
  -- a step that does not return, and does not go back to the call
  have quiet (hc : s'.pc = .call → s'.answered = none ∨ s'.answered = some (-1, EINTR)) (h0 : s'.added = none)
      (hy : s'.pc ≠ .yield) (hr : s'.pc ≠ .ret) : Plain s' ∧ Transparent p s' :=
    ⟨⟨h0, hc⟩, fun h => absurd h hy, fun h => absurd h hr, fun h => absurd h hr⟩
  cases h with
  | enter hpc =>
    rw [hpc] at hat
    exact quiet (fun _ => .inl (by simp [Call.enter, he, hat.1])) (by simp [Call.enter, he, hadd])
      (by simp [Call.enter, he]) (by simp [Call.enter, he])
  | direct n errno hpc => rw [hpc] at hat; rw [he] at hat; cases hat.1
  | answer n errno hpc =>
    rcases onAnswer_cases p s n errno with ⟨rfl, rfl, h⟩ | ⟨-, -, h⟩ | ⟨hn, -, h⟩ <;> rw [h]
    · exact ⟨⟨hadd, fun _ => .inr rfl⟩, fun h => (by simp [hpc] at h), fun h => (by simp [hpc] at h),
        fun h => (by simp [hpc] at h)⟩
    · exact ⟨⟨hadd, fun h => (by cases h)⟩, fun h => (by cases h), fun h => (by cases h), fun h => (by cases h)⟩
    · refine ⟨⟨hadd, fun h => (by cases h)⟩, fun h => (by cases h), fun _ => .inl ⟨rfl, hn hagain⟩, ?_⟩
      intro _ h
      exact absurd (hadd.symm.trans h) (by simp)
  | arm hpc =>
    have h1 : (s.armTimer p).pc = .addEvent := by unfold Call.armTimer; split <;> rfl
    have h2 : (s.armTimer p).added = s.added := by unfold Call.armTimer; split <;> rfl
    exact quiet (by simp [h1]) (h2.trans hadd) (by simp [h1]) (by simp [h1])
  | addEvent ctl errno hpc had => exact absurd rfl (ha ctl errno)
  | refuse hpc => rw [hpc, hadd] at hat; cases hat.1
  | yield hpc => rw [hpc, hadd] at hat; cases hat.1
  | wake errno hpc => rw [hpc, hadd] at hat; cases hat.1
  | resume hpc => rw [hpc, hadd] at hat; cases hat.1
  | getsockopt ok errno hpc =>
    rw [hpc] at hat
    obtain ⟨⟨t, ht⟩, -⟩ := hat
    rw [hw] at ht; cases ht
  | other op hne _ _ =>
    exact quiet hans hadd (fun h => by rw [h, hadd] at hat; cases hat.1) hne
  | expire x hne _ => exact quiet hans hadd (fun h => by rw [h, hadd] at hat; cases hat.1) hne
  | onTimer ctl hne _ hcb =>
    have hy : s.pc ≠ .yield := fun h => by rw [h, hadd] at hat; cases hat.1
    rcases onTimer_cases hcb with ⟨-, rfl⟩ | ⟨io, rfl⟩ <;> exact quiet hans hadd hy hne
  | soError e hne => exact quiet hans hadd (fun h => by rw [h, hadd] at hat; cases hat.1) hne
  | report hne => exact quiet hans hadd (fun h => by rw [h, hadd] at hat; cases hat.1) hne

/-- A call that takes its registration for a failure goes on to return EAGAIN. -/
theorem refused_not_transparent {p : Params} {w : Wrapper} (hw : p.func = .do_io w) {s : Call}
    {tr : List (Act × Call)} (h : Run p s tr) (hi : Inv p s) (hpc : s.pc = .refused)
    (hend : Settled (Lts.final s tr)) : ¬ Lts.Every (fun _ _ s' => Transparent p s') s tr := by
  induction h with
  | nil => rcases hend with h | h | h <;> rw [Lts.final, hpc] at h <;> cases h
  | @cons s s' a tr hst _ ih =>
    have hi' := step_inv hi hst
    intro hall
    have stays (h : s'.pc = s.pc) : False := ih hi' (h.trans hpc) hend hall.2
    have hat := hi.point
    simp only [At, hpc] at hat
    cases hst with
    | refuse _ =>
      rcases onRefused_cases p s with ⟨_, -, h⟩ | ⟨t, ht, -⟩
      · have := hall.1.again (by rw [h]; rfl) (by rw [h]; exact hat.1)
        refine this ?_
        rw [h]
        have hagain : p.again = EAGAIN := by unfold Params.again; rw [hw]
        exact ⟨rfl, hat.2.2.trans hagain⟩
      · rw [hw] at ht; cases ht
    | other op _ _ _ => exact stays rfl
    | expire x _ _ => exact stays rfl
    | onTimer ctl _ _ hcb => rcases onTimer_cases hcb with ⟨-, rfl⟩ | ⟨io, rfl⟩ <;> exact stays rfl
    | soError e _ => exact stays rfl
    | report _ => exact stays rfl
    | enter h => rw [hpc] at h; cases h
    | direct _ _ h => rw [hpc] at h; cases h
    | answer _ _ h => rw [hpc] at h; cases h
    | arm h => rw [hpc] at h; cases h
    | addEvent _ _ h _ => rw [hpc] at h; cases h
    | yield h => rw [hpc] at h; cases h
    | wake _ h => rw [hpc] at h; cases h
    | resume h => rw [hpc] at h; cases h
    | getsockopt _ _ h => rw [hpc] at h; cases h

/-- A run to its end makes no addEvent, and is transparent, or makes one, and is not. -/
theorem run_transparent {p : Params} {w : Wrapper} (hw : p.func = .do_io w) (hm : Managed p) {s : Call}
    {tr : List (Act × Call)} (h : Run p s tr) (hi : Inv p s) (hs : Plain s) (hend : Settled (Lts.final s tr)) :
    ((∀ x ∈ tr, ∀ ctl errno, x.1 ≠ .addEvent ctl errno) ∧ Lts.Every (fun _ _ s' => Transparent p s') s tr ∧
        Plain (Lts.final s tr)) ∨
      ((∃ x ∈ tr, ∃ ctl errno, x.1 = .addEvent ctl errno) ∧ ¬ Lts.Every (fun _ _ s' => Transparent p s') s tr) := by
  induction h with
  | nil => exact .inl ⟨by simp, trivial, hs⟩
  | @cons s s' a tr hst htr ih =>
    have hi' := step_inv hi hst
    by_cases ha : ∃ ctl errno, a = .addEvent ctl errno
    · obtain ⟨ctl, errno, rfl⟩ := ha
      refine .inr ⟨⟨_, List.mem_cons_self, ctl, errno, rfl⟩, fun hall => ?_⟩
      cases hst with
      | addEvent _ _ hpc had =>
        rename_i b io
        cases b with
        | true => exact refused_not_transparent hw htr hi' rfl hend hall.2
        | false => exact absurd (hall.1.waits rfl) (by simp [Call.onAddEvent])
    · have hna : ∀ ctl errno, a ≠ .addEvent ctl errno := fun ctl errno h => ha ⟨ctl, errno, h⟩
      obtain ⟨hs', ht⟩ := step_plain hw hm hi hs hna hst
      rcases ih hi' hs' hend with ⟨hno, hall, hf⟩ | ⟨⟨x, hx, hxa⟩, hnot⟩
      · refine .inl ⟨?_, ⟨ht, hall⟩, hf⟩
        intro x hx
        rcases List.mem_cons.mp hx with rfl | hx
        · exact hna
        · exact hno x hx
      · exact .inr ⟨⟨x, List.mem_cons_of_mem _ hx, hxa⟩, fun hall => hnot hall.2⟩

/-- A managed `do_io` that went as far as it can by itself returned, and gave the caller
    what the blocking call could have given, exactly when it made no addEvent. -/
theorem transparent_iff {p : Params} {w : Wrapper} (hw : p.func = .do_io w) (hm : Managed p) {s₀ : Call}
    (h0 : Start p s₀) {tr : List (Act × Call)} (h : Run p s₀ tr) (hend : Settled (Lts.final s₀ tr)) :
    (Returned (Lts.final s₀ tr) ∧ Lts.Every (fun _ _ s' => Transparent p s') s₀ tr) ↔
      ∀ x ∈ tr, ∀ ctl errno, x.1 ≠ .addEvent ctl errno := by
  have hplain : Plain s₀ := ⟨h0.added, fun hpc => by rw [h0.pc] at hpc; cases hpc⟩
  have hfinal : Inv p (Lts.final s₀ tr) :=
    Lts.Reach.inv (h.reach (.init h0)) (fun _ => start_inv) fun _ _ _ hi hst => step_inv hi hst
  rcases run_transparent hw hm h (start_inv h0) hplain hend with
    ⟨hno, hall, hadd, hans⟩ | ⟨⟨x, hx, ctl, errno, hxa⟩, hnot⟩
  · refine ⟨fun _ => hno, fun _ => ⟨?_, hall⟩⟩
    rcases hend with hr | hc | hs
    · exact .inl hr
    · exact .inr ⟨hc, hans hc⟩
    · have hat := hfinal.point
      simp only [At, hs, hadd] at hat
      cases hat.1
  · exact ⟨fun ht => absurd ht.2 hnot, fun hno => absurd hxa (hno x hx ctl errno)⟩

/-! ## What `connect_with_timeout` returns -/

/-- It returned 0 on a connection that is there, and nothing while one is in progress
    that epoll watches. -/
structure Connected (s : Call) : Prop where
  success : s.n = 0 → (∃ errno, s.answered = some (0, errno)) ∨
    (s.answered = some (-1, EINPROGRESS) ∧ s.soError = 0 ∧ s.reported = true)
  waits : ¬ (s.answered = some (-1, EINPROGRESS) ∧ s.soError = 0 ∧ s.reported = false ∧ s.fired = false ∧
    s.added = some true)

/-- SO_ERROR reads 0, or would, only after epoll has reported the socket writable. -/
def ReadsAfterReport (s : Call) (a : Act) : Prop :=
  ∀ ok errno, a = .getsockopt ok errno → s.soError = 0 → ok = true ∨ (s.added = some true ∧ s.fired = false) →
    s.reported = true

theorem step_connected {p : Params} {timeoutMs : UInt64} (hf : p.func = .connect_with_timeout timeoutMs)
    (hm : Managed p) {s s' : Call} {a : Act} (hi : Inv p s) (h : Step p s a s') :
    (s'.pc = .ret → Connected s') ↔ ReadsAfterReport s a := by
  have hat := hi.point
  unfold At at hat
  have hagain : p.again = EINPROGRESS := by unfold Params.again; rw [hf]
  obtain ⟨timeout, he⟩ := hm.entry
  have both {a : Act} (hc : s'.pc = .ret → Connected s') (ha : ∀ ok errno, a ≠ .getsockopt ok errno) :
      (s'.pc = .ret → Connected s') ↔ ReadsAfterReport s a :=
    ⟨fun _ ok errno h => absurd h (ha ok errno), fun _ => hc⟩
  cases h with
  | enter hpc => exact both (fun hr => by simp [Call.enter, he] at hr) (by simp)
  | direct n errno hpc => rw [hpc] at hat; rw [he] at hat; cases hat.1
  | answer n errno hpc =>
    refine both ?_ (by simp)
    intro hr
    rcases onAnswer_cases p s n errno with ⟨-, -, h⟩ | ⟨-, -, h⟩ | ⟨-, hn, h⟩
    · rw [h] at hr; simp [hpc] at hr
    · rw [h] at hr; cases hr
    · rw [hagain] at hn
      rw [h]
      refine ⟨fun h0 => .inl ⟨errno, by simp [Call.returns] at h0 ⊢; exact h0⟩, fun ⟨hans, _⟩ => hn ?_⟩
      simpa [Call.returns] using hans
  | arm hpc => exact both (fun hr => by unfold Call.armTimer at hr; split at hr <;> cases hr) (by simp)
  | addEvent ctl errno hpc had => exact both (fun hr => by rename_i b io; cases b <;> cases hr) (by simp)
  | refuse hpc =>
    rcases onRefused_cases p s with ⟨w, hw, h⟩ | ⟨t, -, h⟩
    · rw [hf] at hw; cases hw
    · exact both (fun hr => by rw [h] at hr; cases hr) (by simp)
  | yield hpc => exact both (fun hr => nomatch hr) (by simp)
  | wake errno hpc => exact both (fun hr => nomatch hr) (by simp)
  | resume hpc =>
    rw [hpc] at hat
    refine both ?_ (by simp)
    intro hr
    rcases onResumed_cases p s with ⟨-, h⟩ | ⟨w, hw, h⟩ | ⟨t, -, h⟩
    · rw [h]
      refine ⟨fun h0 => by simp [Call.returns] at h0, fun ⟨_, _, _, _, hadd⟩ => ?_⟩
      simp [Call.returns, Call.cancelTimer, hat.1] at hadd
    · rw [hf] at hw; cases hw
    · rw [h] at hr; cases hr
  | getsockopt ok errno hpc =>
    rw [hpc, hagain] at hat
    obtain ⟨n, e, h, hn⟩ := onGetsockopt_cases s ok errno
    rw [h]
    constructor
    · intro hc ok' errno' ha hso hor
      cases ha
      have hc := hc rfl
      rcases hor with rfl | ⟨hadd, hfired⟩
      · rcases hc.success (hn.mpr ⟨rfl, hso⟩) with ⟨e', he'⟩ | ⟨-, -, hrep⟩
        · rw [show (s.returns n e).answered = s.answered from rfl, hat.2] at he'; cases he'
        · exact hrep
      · by_contra hrep
        exact hc.waits ⟨hat.2, hso, by simpa [Call.returns] using hrep, hfired, hadd⟩
    · intro hg _
      constructor
      · intro h0
        obtain ⟨hok, hso⟩ := hn.mp h0
        exact .inr ⟨hat.2, hso, hg ok errno rfl hso (.inl hok)⟩
      · intro hx
        obtain ⟨-, hso, hrep, hfired, hadd⟩ := hx
        have := hg ok errno rfl hso (.inr ⟨hadd, hfired⟩)
        rw [show (s.returns n e).reported = s.reported from rfl, this] at hrep; cases hrep
  | other op hne _ _ => exact both (fun hr => absurd hr hne) (by simp)
  | expire x hne _ => exact both (fun hr => absurd hr hne) (by simp)
  | onTimer ctl hne _ hcb =>
    rcases onTimer_cases hcb with ⟨-, rfl⟩ | ⟨io, rfl⟩ <;> exact both (fun hr => absurd hr hne) (by simp)
  | soError e hne => exact both (fun hr => absurd hr hne) (by simp)
  | report hne => exact both (fun hr => absurd hr hne) (by simp)

/-- A run of a managed `connect_with_timeout` ends only on a decided connection exactly
    when it reads a SO_ERROR of 0 only after the kernel's report. -/
theorem connected_iff {p : Params} {timeoutMs : UInt64} (hf : p.func = .connect_with_timeout timeoutMs)
    (hm : Managed p) {s₀ : Call} (h0 : Start p s₀) {tr : List (Act × Call)} (h : Run p s₀ tr) :
    Lts.Every (fun _ _ s' => s'.pc = .ret → Connected s') s₀ tr ↔
      Lts.Every (fun s a _ => ReadsAfterReport s a) s₀ tr :=
  h.every_iff (J := Inv p) (P := fun _ _ s' => s'.pc = .ret → Connected s') (G := ReadsAfterReport)
    (fun _ _ _ hi _ hs => step_inv hi hs) (fun _ _ _ hi hs => step_connected hf hm hi hs) (start_inv h0)

/-! ## Calls -/

/-- A blocking socket with no timeouts. -/
def blockingSocket : FdCtx := ⟨true, false, false, noTimeout, noTimeout⟩

/-- Fiber 7 calls recv, or connect, on descriptor 5. -/
def recvCall : Params := ⟨.do_io .recv, 5, true, some blockingSocket, IOManager.fiberSeven⟩
def connectCall : Params := ⟨.connect_with_timeout noTimeout, 5, true, some blockingSocket, IOManager.fiberSeven⟩

def begins : Call := ⟨.start, 0, 0, 0, none, [], 0, 0, IOManager.start, 0, none, none, false, false⟩

/-- The call once the underlying call has answered -1. -/
def waits (p : Params) : Call := ((begins.enter p).onAnswer p (-1) p.again).armTimer p

theorem begins_start {p : Params} (hp : p.self = IOManager.fiberSeven) : Start p begins :=
  ⟨rfl, rfl, rfl, rfl, rfl, rfl, rfl, rfl, .init rfl, by rw [hp]; rfl, by rw [hp]; rfl⟩

theorem recvCall_managed : Managed recvCall := ⟨rfl, _, rfl, rfl, rfl, rfl⟩
theorem connectCall_managed : Managed connectCall := ⟨rfl, _, rfl, rfl, rfl, rfl⟩

/-- The underlying call would wait, addEvent succeeds, and the call takes that for a
    failure. -/
theorem refused_run {p : Params} {io : IOManager} (he : begins.enter p = { begins with pc := .call })
    (ha : ((begins.enter p).onAnswer p (-1) p.again).pc = .arm) (hw : (waits p).pc = .addEvent)
    (hio : (waits p).io.addEvent p.self p.fd p.event none true = .ok (true, io)) :
    Run p begins [(.enter, begins.enter p), (.answer (-1) p.again, (begins.enter p).onAnswer p (-1) p.again),
      (.arm, waits p), (.addEvent true 0, (waits p).onAddEvent true io 0),
      (.refuse, ((waits p).onAddEvent true io 0).onRefused p)] :=
  .cons (.enter rfl) <| .cons (.answer (-1) p.again (by rw [he])) <| .cons (.arm ha) <|
    .cons (.addEvent true 0 hw hio) <| .cons (.refuse rfl) (.nil _)

theorem recvCall_registers : ∃ io, (waits recvCall).io.addEvent recvCall.self 5 .READ none true = .ok (true, io) ∧
    ∃ c ctx, io.fdContext 5 = .ok c ∧ (c.m_events &&& .READ).any = true ∧ c.getEventContext .READ = .ok ctx ∧
      ctx.m_fiber = some 7 := ⟨_, rfl, _, _, rfl, rfl, rfl, rfl⟩

theorem connectCall_registers :
    ∃ io, (waits connectCall).io.addEvent connectCall.self 5 .WRITE none true = .ok (true, io) := ⟨_, rfl⟩

/-- An entry of epoll_wait that reports descriptor 5 readable. -/
def readable : EpollEvent := ⟨⟨true, false, false, false, true⟩, .ptr 5⟩

/-- recv would wait and registers; before it returns, idle triggers its event. -/
theorem consumed_run : ∃ io io', Run recvCall begins
      [(.enter, begins.enter recvCall), (.answer (-1) EAGAIN, (begins.enter recvCall).onAnswer recvCall (-1) EAGAIN),
        (.arm, waits recvCall), (.addEvent true 0, (waits recvCall).onAddEvent true io 0),
        (.other (.idle readable true), { (waits recvCall).onAddEvent true io 0 with io := io' }),
        (.refuse, { (waits recvCall).onAddEvent true io 0 with io := io' }.onRefused recvCall)] ∧
    ∃ c, io'.fdContext 5 = .ok c ∧ c.m_events = .NONE := by
  refine ⟨_, _, .cons (.enter rfl) <| .cons (.answer (-1) EAGAIN rfl) <| .cons (.arm rfl) <|
    .cons (.addEvent true 0 rfl rfl) <| .cons (.other (.idle readable true) (by decide) ?_ ⟨trivial, rfl⟩) <|
    .cons (.refuse rfl) (.nil _), _, rfl, rfl⟩
  intro h
  cases h

theorem registration_ready : ∃ tr : List (Act × Call), tr.length = 6 ∧ (Lts.final begins tr).pc = .ret ∧
    Lts.Every (fun _ _ s' => Registration recvCall s') begins tr := by
  obtain ⟨io, io', hrun, c, hc, hnone⟩ := consumed_run
  refine ⟨_, rfl, rfl, (registration_iff (begins_start rfl) hrun).mpr ?_⟩
  refine ⟨consumed_of (by simp) rfl, consumed_of (by simp) rfl, consumed_of (by simp) rfl, ?_,
    consumed_of (by simp) rfl, ?_, trivial⟩
  · exact ⟨fun _ _ h => by cases h; rfl, fun h => by cases h⟩
  · refine ⟨fun _ _ h => (by cases h), fun _ _ ⟨c', _, hc', harmed, _⟩ => ?_⟩
    cases hc.symm.trans hc'
    rw [hnone] at harmed
    cases harmed

/-- The fiber stays registered for READ after its recv has returned. -/
theorem registration_outlives_call : ∃ tr, Run recvCall begins tr ∧
    ¬ Lts.Every (fun _ _ s' => Registration recvCall s') begins tr := by
  obtain ⟨io, hio, hreg⟩ := recvCall_registers
  refine ⟨_, refused_run rfl rfl rfl hio, ?_⟩
  intro h
  exact (h.2.2.2.2.1.returns rfl).1 ⟨rfl, hreg⟩

/-- The underlying call is interrupted twice, then answers. -/
def interrupted (p : Params) : List (Act × Call) :=
  let s₁ := begins.enter p
  let s₂ := s₁.onAnswer p (-1) EINTR
  let s₃ := s₂.onAnswer p (-1) EINTR
  [(.enter, s₁), (.answer (-1) EINTR, s₂), (.answer (-1) EINTR, s₃), (.answer 3 0, s₃.onAnswer p 3 0)]

theorem interrupted_run : Run recvCall begins (interrupted recvCall) :=
  .cons (.enter rfl) <| .cons (.answer (-1) EINTR rfl) <| .cons (.answer (-1) EINTR rfl) <|
    .cons (.answer 3 0 rfl) (.nil _)

theorem transparent_ready : Returned (Lts.final begins (interrupted recvCall)) ∧
    Lts.Every (fun _ _ s' => Transparent recvCall s') begins (interrupted recvCall) :=
  (transparent_iff rfl recvCall_managed (begins_start rfl) interrupted_run (.inl rfl)).mpr (by simp [interrupted])

/-- A blocking recv that returns EAGAIN. -/
theorem recv_returns_again : ∃ tr, Run recvCall begins tr ∧ (Lts.final begins tr).pc = .ret ∧
    ¬ Lts.Every (fun _ _ s' => Transparent recvCall s') begins tr := by
  obtain ⟨io, hio, -⟩ := recvCall_registers
  exact ⟨_, refused_run rfl rfl rfl hio, rfl, fun h => h.2.2.2.2.1.again rfl rfl ⟨rfl, rfl⟩⟩

/-- connectCall after its registration, once epoll has reported the socket writable. -/
def reportedCall (io : IOManager) : Call := { (waits connectCall).onAddEvent true io 0 with reported := true }

/-- The connection is made, and reported by epoll, before SO_ERROR is read. -/
theorem reported_run : ∃ io, Run connectCall begins
      [(.enter, begins.enter connectCall),
        (.answer (-1) EINPROGRESS, (begins.enter connectCall).onAnswer connectCall (-1) EINPROGRESS),
        (.arm, waits connectCall), (.addEvent true 0, (waits connectCall).onAddEvent true io 0),
        (.report, reportedCall io), (.refuse, (reportedCall io).onRefused connectCall),
        (.getsockopt true 0, ((reportedCall io).onRefused connectCall).onGetsockopt true 0)] :=
  ⟨_, .cons (.enter rfl) <| .cons (.answer (-1) EINPROGRESS rfl) <| .cons (.arm rfl) <|
    .cons (.addEvent true 0 rfl rfl) <| .cons (.report (by decide)) <| .cons (.refuse rfl) <|
    .cons (.getsockopt true 0 rfl) (.nil _)⟩

theorem connected_ready : ∃ tr : List (Act × Call), (Lts.final begins tr).pc = .ret ∧ (Lts.final begins tr).n = 0 ∧
    Lts.Every (fun _ _ s' => s'.pc = .ret → Connected s') begins tr := by
  obtain ⟨io, hrun⟩ := reported_run
  refine ⟨_, rfl, rfl, (connected_iff rfl connectCall_managed (begins_start rfl) hrun).mpr ?_⟩
  have no {s : Call} {a : Act} (h : ∀ ok errno, a ≠ .getsockopt ok errno) : ReadsAfterReport s a :=
    fun ok errno ha => absurd ha (h ok errno)
  exact ⟨no (by simp), no (by simp), no (by simp), no (by simp), no (by simp), no (by simp), fun _ _ _ _ _ => rfl,
    trivial⟩

/-- A connect that returns 0 while the connection is in progress. -/
theorem connect_returns_in_progress : ∃ tr, Run connectCall begins tr ∧
    ¬ Lts.Every (fun _ _ s' => s'.pc = .ret → Connected s') begins tr := by
  obtain ⟨io, hio⟩ := connectCall_registers
  have hrun := (refused_run rfl rfl rfl hio).append (.cons (.getsockopt true 0 rfl) (.nil _))
  refine ⟨_, hrun, ?_⟩
  intro h
  rcases (h.2.2.2.2.2.1 rfl).success rfl with ⟨errno, he⟩ | ⟨-, -, hrep⟩
  · cases he
  · cases hrep

end Sylar.Hook
