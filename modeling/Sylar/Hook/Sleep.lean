/-
  Sylar.Hook.Sleep — the hooked sleep, usleep and nanosleep (sylar/hook.cpp lines
  161-199): the interval in milliseconds that each hands to addTimer, which adds it to a
  reading of the clock (`GetElapsedMS`, sylar/util.cpp lines 24-28).

  The products are in the types the code has: unsigned int in sleep, long and then int in
  nanosleep, whose negative values become very large as uint64_t. A long product that
  overflows is taken to wrap around.

  Time runs in nanoseconds, and a reading cuts it to whole milliseconds.

  Proved: the interval is at least the requested duration, and no later reading of the
  clock finds the timer due before the duration is over, exactly when `Lasts` holds
  (`not_early_iff`): the time since the last full millisecond is lost (`usleep_short`),
  sleep wraps around from 4294968 seconds on, usleep and nanosleep cut off what is left
  below a millisecond, and an int of milliseconds holds less than 25 days.
-/

import Sylar.Timer.ManagerProofs

namespace Sylar
namespace Hook

/-! ## Words -/

theorem toNat_toUInt64 (x : Int64) : (x.toUInt64.toNat : Int) = x.toInt % 18446744073709551616 := by
  have h : x.toInt = (x.toUInt64.toNat : Int).bmod 18446744073709551616 := BitVec.toInt_eq_toNat_bmod _
  have hlt : x.toUInt64.toNat < 18446744073709551616 := x.toUInt64.toNat_lt_size
  rw [h, Int.bmod_def]
  omega

/-- Division by a positive number that is not negative. -/
theorem toInt_div_pos {x y : Int64} (hx : 0 ≤ x.toInt) (hy : 0 < y.toInt) : (x / y).toInt = x.toInt / y.toInt := by
  have hne : y ≠ -1 := by
    intro he
    rw [he] at hy
    exact absurd hy (by decide)
  rw [Int64.toInt_div_of_ne_right _ _ hne, Int.tdiv_eq_ediv_of_nonneg hx]

/-! ## The calls -/

/-- The reading of CLOCK_MONOTONIC at a time in nanoseconds. -/
def GetElapsedMS (ns : Nat) : UInt64 := UInt64.ofNat (ns / 1000000)

/-- A valid `struct timespec`. -/
structure Timespec where
  tv_sec : Int64
  tv_nsec : Int64
  sec_nonneg : 0 ≤ tv_sec.toInt
  nsec_range : 0 ≤ tv_nsec.toInt ∧ tv_nsec.toInt < 1000000000

def sleep.interval (seconds : UInt32) : UInt64 := (seconds * 1000).toUInt64

def usleep.interval (usec : UInt32) : UInt64 := (usec / 1000).toUInt64

def nanosleep.interval (req : Timespec) : UInt64 :=
  let timeoutMs : Int32 := (req.tv_sec * 1000 + req.tv_nsec / 1000 / 1000).toInt32
  timeoutMs.toInt64.toUInt64

inductive SleepCall where
  | sleep (seconds : UInt32)
  | usleep (usec : UInt32)
  | nanosleep (req : Timespec)

namespace SleepCall

def interval : SleepCall → UInt64
  | sleep seconds => sleep.interval seconds
  | usleep usec => usleep.interval usec
  | nanosleep req => nanosleep.interval req

/-- The requested duration in nanoseconds. -/
def duration : SleepCall → Nat
  | sleep seconds => seconds.toNat * 1000000000
  | usleep usec => usec.toNat * 1000
  | nanosleep req => req.tv_sec.toInt.toNat * 1000000000 + req.tv_nsec.toInt.toNat

/-- The timers after the call; `resume` is the bound `schedule(fiber, -1)`. -/
def addTimer (call : SleepCall) (m : TimerManager) (nowMs : UInt64) (resume : CbId) (addr : Nat) : TimerManager :=
  (m.addTimer nowMs call.interval (some (.fn resume)) false addr).1

/-- The interval is long enough, and where a later reading has reached the new timer's
    m_next the duration is over. -/
structure NotEarly (call : SleepCall) (m : TimerManager) (now : Nat) (resume : CbId) (addr : Nat) : Prop where
  interval : call.duration ≤ call.interval.toNat * 1000000
  due : ∀ later, now ≤ later →
    ((call.addTimer m (GetElapsedMS now) resume addr).timer m.created).m_next.toNat ≤ later / 1000000 →
    now + call.duration ≤ later

/-- Whole milliseconds of a timespec. -/
def millis (req : Timespec) : Nat := req.tv_sec.toInt.toNat * 1000 + req.tv_nsec.toInt.toNat / 1000000

/-- What becomes of a number of milliseconds that is negative as an int. -/
def wrapped (ms : Nat) : Nat := 18446744069414584320 + ms % 4294967296

/-- When the call sleeps long enough from `now` on. -/
def Lasts (call : SleepCall) (now : Nat) : Prop :=
  match call with
  | sleep seconds => seconds = 0 ∨
    (seconds.toNat ≤ 4294967 ∧ 1000000 ∣ now ∧ now / 1000000 + seconds.toNat * 1000 < 18446744073709551616)
  | usleep usec => usec = 0 ∨
    (1000 ∣ usec.toNat ∧ 1000000 ∣ now ∧ now / 1000000 + usec.toNat / 1000 < 18446744073709551616)
  | nanosleep req => (nanosleep req).duration = 0 ∨
    (1000000 ∣ req.tv_nsec.toInt.toNat ∧ millis req < 2147483648 ∧ 1000000 ∣ now ∧
      now / 1000000 + millis req < 18446744073709551616) ∨
    (2147483648 ≤ millis req % 4294967296 ∧ now / 1000000 + wrapped (millis req) < 18446744073709551616 ∧
      now % 1000000 + (nanosleep req).duration ≤ wrapped (millis req) * 1000000)

/-! ## The intervals -/

theorem sleep_interval (seconds : UInt32) : (sleep.interval seconds).toNat = seconds.toNat * 1000 % 4294967296 := by
  rw [sleep.interval, UInt32.toNat_toUInt64, UInt32.toNat_mul]
  rfl

theorem usleep_interval (usec : UInt32) : (usleep.interval usec).toNat = usec.toNat / 1000 := by
  rw [usleep.interval, UInt32.toNat_toUInt64, UInt32.toNat_div]
  rfl

/-- The low 32 bits as an int, and that as a uint64_t. -/
theorem sign_extended {ms n : Nat} (h : (n : Int) = (ms : Int).bmod 4294967296 % 18446744073709551616) :
    n = if ms % 4294967296 < 2147483648 then ms % 4294967296 else wrapped ms := by
  rw [Int.bmod_def] at h
  unfold wrapped
  split
  · omega
  · omega

theorem nanosleep_interval (req : Timespec) : (nanosleep.interval req).toNat =
    if millis req % 4294967296 < 2147483648 then millis req % 4294967296 else wrapped (millis req) := by
  obtain ⟨hnsec, _⟩ := req.nsec_range
  have hsec := req.sec_nonneg
  have h1000 : (1000 : Int64).toInt = 1000 := by decide
  have hms : (req.tv_nsec / 1000 / 1000).toInt = req.tv_nsec.toInt / 1000000 := by
    have hfirst : (req.tv_nsec / 1000).toInt = req.tv_nsec.toInt / 1000 := by
      rw [toInt_div_pos hnsec (by decide), h1000]
    rw [toInt_div_pos (by omega) (by decide), hfirst, h1000]
    omega
  have hmillis : req.tv_sec.toInt * 1000 + req.tv_nsec.toInt / 1000000 = (millis req : Int) := by
    unfold millis
    omega
  have hbits : (req.tv_sec * 1000 + req.tv_nsec / 1000 / 1000).toInt32.toInt =
      (millis req : Int).bmod 4294967296 := by
    rw [Int64.toInt_toInt32, Int64.toInt_add, Int64.toInt_mul, hms, h1000, ← hmillis]
    rw [Int.bmod_bmod_of_dvd (by decide), Int.add_bmod, Int.bmod_bmod_of_dvd (by decide), ← Int.add_bmod]
  have hnat := toNat_toUInt64 (req.tv_sec * 1000 + req.tv_nsec / 1000 / 1000).toInt32.toInt64
  rw [Int32.toInt_toInt64, hbits] at hnat
  exact sign_extended hnat

/-! ## Durations -/

theorem due_eq (call : SleepCall) (m : TimerManager) (nowMs : UInt64) (resume : CbId) (addr : Nat) :
    ((call.addTimer m nowMs resume addr).timer m.created).m_next = nowMs + call.interval := by
  have htimer : (call.addTimer m nowMs resume addr).timer m.created =
      .new nowMs call.interval (some (.fn resume)) false addr := by
    rw [addTimer, TimerManager.addTimer, TimerManager.addTimerLocked_fst]
    exact Function.update_self ..
  rw [htimer]
  rfl

/-- What is lost of the running millisecond, and the duration, fit into the interval. -/
def Fits (call : SleepCall) (now : Nat) : Prop :=
  now % 1000000 + call.duration ≤ call.interval.toNat * 1000000 ∧
    now / 1000000 + call.interval.toNat < 18446744073709551616

/-- The sum is exact as far as it fits 64 bits, and small once it does not. -/
theorem next_toNat (now : Nat) (interval : UInt64) : (GetElapsedMS now + interval).toNat =
    (now / 1000000 + interval.toNat) % 18446744073709551616 := by
  rw [UInt64.toNat_add, GetElapsedMS, UInt64.toNat_ofNat', Nat.mod_add_mod]

theorem notEarly_iff {call : SleepCall} {m : TimerManager} {now : Nat} {resume : CbId} {addr : Nat} :
    call.NotEarly m now resume addr ↔ call.duration = 0 ∨ call.Fits now := by
  have hint : call.interval.toNat < 18446744073709551616 := call.interval.toNat_lt_size
  unfold Fits
  constructor
  · rintro ⟨-, hdue⟩
    by_cases hzero : call.duration = 0
    · exact .inl hzero
    · have hlater := hdue (max now ((now / 1000000 + call.interval.toNat) % 18446744073709551616 * 1000000))
        (Nat.le_max_left ..) (by rw [due_eq, next_toNat]; omega)
      omega
  · intro h
    refine ⟨by omega, fun later hle hnext => ?_⟩
    rw [due_eq, next_toNat] at hnext
    omega

theorem lasts_iff (call : SleepCall) (now : Nat) : call.Lasts now ↔ call.duration = 0 ∨ call.Fits now := by
  unfold Fits
  cases call with
  | sleep seconds =>
    have hlt := seconds.toNat_lt_size
    have hzero : seconds = 0 ↔ seconds.toNat = 0 := ⟨fun h => h ▸ rfl, fun h => UInt32.toNat_inj.mp h⟩
    simp only [Lasts, duration, interval, sleep_interval, hzero]
    omega
  | usleep usec =>
    have hzero : usec = 0 ↔ usec.toNat = 0 := ⟨fun h => h ▸ rfl, fun h => UInt32.toNat_inj.mp h⟩
    simp only [Lasts, duration, interval, usleep_interval, hzero]
    omega
  | nanosleep req =>
    simp only [Lasts, duration, interval, nanosleep_interval]
    unfold wrapped millis
    generalize req.tv_sec.toInt.toNat = sec
    have hnsec : req.tv_nsec.toInt.toNat < 1000000000 := by
      have := req.nsec_range
      omega
    generalize req.tv_nsec.toInt.toNat = nsec at hnsec
    split <;> omega

theorem not_early_iff (call : SleepCall) (m : TimerManager) (now : Nat) (resume : CbId) (addr : Nat) :
    call.NotEarly m now resume addr ↔ call.Lasts now :=
  notEarly_iff.trans (call.lasts_iff now).symm

/-- 1999 microseconds sleep one millisecond, and 1000 microseconds half of one when the
    clock is half a millisecond past its reading. -/
theorem usleep_short : ¬(usleep 1999).NotEarly (.new 0) 0 0 0 ∧ ¬(usleep 1000).NotEarly (.new 0) 500000 0 0 := by
  constructor
  · intro h
    exact absurd h.interval (by decide)
  · intro h
    exact absurd (h.due 1000000 (by decide) (by decide)) (by decide)

end SleepCall
end Hook
end Sylar
