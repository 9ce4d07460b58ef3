/-
  Sylar.IOManager.Timeout — the timeouts that IOManager::idle passes to epoll_wait
  (sylar/iomanager.cpp lines 316-350).

  One round of the wait loop: `nextTimeout` comes from getNextTimer, read at `now`, and is
  cut in place before each epoll_wait; an EINTR goes round again with what the last cut
  left. `nows` is the clock at each restart.

  Proved: every wait of the loop has the timeout min(value, 5000), 5000 without a timer,
  and is over by the next deadline exactly when the value `Fits` an int or casts to one
  above 5000, and each restart leaves the whole timeout until the deadline
  (`waits_right_iff`). A timer 2^31 ms away waits without end (`far_timer_endless`).
-/

import Sylar.IOManager.Deadline

namespace Sylar
namespace Deadline

open TimerManager

/-- The calls of epoll_wait: the first, and one after each EINTR. -/
def waits (nextTimeout now : UInt64) : List UInt64 → List Wait
  | [] => [.after nextTimeout now]
  | next :: nows => .after nextTimeout now :: waits (cutTimeout nextTimeout) next nows

/-- What the timeout is meant to be. -/
def wanted (nextTimeout : UInt64) : Int :=
  if nextTimeout = noTimer then MAX_TIMEOUT else min nextTimeout.toNat MAX_TIMEOUT

def nextDeadline (m : TimerManager) : Option UInt64 := m.m_timers.head?.map fun next => (m.timer next).m_next

structure Wait.Right (m : TimerManager) (nextTimeout : UInt64) (w : Wait) : Prop where
  nonneg : 0 ≤ toInt w.nextTimeout
  eq : toInt w.nextTimeout = wanted nextTimeout
  inTime : ∀ deadline ∈ nextDeadline m, w.late deadline = false

/-- The low 32 bits are the value, or an int above MAX_TIMEOUT. -/
def Fits (nextTimeout : UInt64) : Prop :=
  nextTimeout.toNat ≤ 5000 ∨
    5000 ≤ nextTimeout.toNat % 4294967296 ∧ nextTimeout.toNat % 4294967296 < 2147483648

instance (nextTimeout : UInt64) : Decidable (Fits nextTimeout) := inferInstanceAs (Decidable (_ ∨ _))

/-! ## One cut -/

theorem wanted_bounds (n : UInt64) : 0 ≤ wanted n ∧ wanted n ≤ MAX_TIMEOUT := by
  unfold wanted MAX_TIMEOUT
  split <;> omega

theorem cut_wanted_iff (n : UInt64) : toInt (cutTimeout n) = wanted n ↔ n = noTimer ∨ Fits n := by
  rw [toInt_cutTimeout, wanted]
  by_cases hn : n = noTimer
  · simp [hn]
  · rw [if_pos hn, if_neg hn, toInt_eq, Int.bmod_def, MAX_TIMEOUT, Fits]
    simp only [hn, false_or]
    omega

/-- What a right cut leaves is cut to itself. -/
theorem cut_again {n : UInt64} {k : Int} (h : toInt (cutTimeout n) = k) (hk : 0 ≤ k ∧ k ≤ MAX_TIMEOUT) :
    toInt (cutTimeout (cutTimeout n)) = k := by
  have hne : cutTimeout n ≠ noTimer := by
    intro he
    have hnoTimer : toInt noTimer = -1 := by decide
    rw [he, hnoTimer] at h
    omega
  rw [toInt_cutTimeout, if_pos hne, h]
  omega

theorem Wait.late_iff {w : Wait} {k : Int} (hw : toInt w.nextTimeout = k) (hk : 0 ≤ k) (deadline : UInt64) :
    w.late deadline = false ↔ w.since.toNat + k ≤ max (deadline.toNat : Int) w.since.toNat := by
  rw [late, ends, hw, if_neg (by omega)]
  simp only [decide_eq_false_iff_not]
  omega

/-! ## The loop -/

theorem waits_since (n now : UInt64) (nows : List UInt64) : (waits n now nows).map Wait.since = now :: nows := by
  induction nows generalizing n now with
  | nil => rfl
  | cons next nows ih => exact congrArg (now :: ·) (ih _ _)

theorem waits_timeout {n now : UInt64} {nows : List UInt64} {k : Int} (hk : 0 ≤ k ∧ k ≤ MAX_TIMEOUT)
    (h : toInt (cutTimeout n) = k) : ∀ w ∈ waits n now nows, toInt w.nextTimeout = k := by
  induction nows generalizing n now with
  | nil =>
    intro w hw
    rw [List.mem_singleton.mp hw]
    exact h
  | cons next nows ih =>
    intro w hw
    rcases List.mem_cons.mp hw with rfl | hw
    · exact h
    · exact ih (cut_again h hk) w hw

theorem first_mem_waits (n now : UInt64) (nows : List UInt64) : Wait.after n now ∈ waits n now nows := by
  cases nows with
  | nil => exact List.mem_singleton.mpr rfl
  | cons next nows => exact List.mem_cons_self

/-- From the reading of getNextTimer the timeout does not go past the deadline. -/
theorem wanted_inTime {m : TimerManager} {now deadline : UInt64} (h : deadline ∈ nextDeadline m) :
    now.toNat + wanted (m.getNextTimer now).2 ≤ max (deadline.toNat : Int) now.toNat := by
  obtain ⟨next, hnext, rfl⟩ := Option.mem_map.mp h
  obtain ⟨rest, hl⟩ := List.head?_eq_some_iff.mp hnext
  simp only [getNextTimer, hl, ge_iff_le]
  split
  · have hzero : wanted 0 = 0 := by decide
    rw [hzero]
    omega
  · rename_i hlt
    rw [UInt64.le_iff_toNat_le] at hlt
    have hsub : ((m.timer next).m_next - now).toNat = (m.timer next).m_next.toNat - now.toNat :=
      UInt64.toNat_sub_of_le _ _ (UInt64.le_iff_toNat_le.mpr (by omega))
    have hle : wanted ((m.timer next).m_next - now) ≤ ((m.timer next).m_next - now).toNat := by
      unfold wanted MAX_TIMEOUT
      split
      · rename_i he
        rw [he]
        decide
      · omega
    omega

theorem waits_right_iff (m : TimerManager) (now : UInt64) (nows : List UInt64) :
    (∀ w ∈ waits (m.getNextTimer now).2 now nows, w.Right m (m.getNextTimer now).2) ↔
      ((m.getNextTimer now).2 = noTimer ∨ Fits (m.getNextTimer now).2) ∧
        ∀ deadline ∈ nextDeadline m, ∀ s ∈ nows,
          s.toNat + wanted (m.getNextTimer now).2 ≤ max (deadline.toNat : Int) s.toNat := by
  have hb := wanted_bounds (m.getNextTimer now).2
  constructor
  · intro h
    refine ⟨(cut_wanted_iff _).mp (h _ (first_mem_waits _ _ _)).eq, fun deadline hd s hs => ?_⟩
    have hsince : s ∈ (waits (m.getNextTimer now).2 now nows).map Wait.since := by
      rw [waits_since]
      exact List.mem_cons_of_mem _ hs
    obtain ⟨w, hw, rfl⟩ := List.mem_map.mp hsince
    exact (Wait.late_iff (h w hw).eq hb.1 deadline).mp ((h w hw).inTime deadline hd)
  · rintro ⟨hfits, hin⟩ w hw
    have ht := waits_timeout hb ((cut_wanted_iff _).mpr hfits) w hw
    refine ⟨ht ▸ hb.1, ht, fun deadline hd => (Wait.late_iff ht hb.1 deadline).mpr ?_⟩
    have hsince : w.since ∈ now :: nows := by
      rw [← waits_since (m.getNextTimer now).2 now nows]
      exact List.mem_map.mpr ⟨w, hw, rfl⟩
    rcases List.mem_cons.mp hsince with hs | hs
    · rw [hs]
      exact wanted_inTime hd
    · exact hin deadline hd _ hs

/-- One timer, added 2^31 ms ahead. -/
theorem far_timer_endless :
    let m := ((TimerManager.new 0).addTimer 0 2147483648 (some (.fn 0)) false 0).1
    ¬∀ w ∈ waits (m.getNextTimer 0).2 0 [], w.Right m (m.getNextTimer 0).2 := by
  intro m h
  have hneg : ¬0 ≤ toInt (Wait.after (m.getNextTimer 0).2 0).nextTimeout := by decide
  exact hneg (h _ (first_mem_waits _ _ _)).nonneg

end Deadline
end Sylar
