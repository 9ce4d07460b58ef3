/-
  Sylar.Hook.Timeouts — SO_RCVTIMEO and SO_SNDTIMEO under the hooked setsockopt
  (sylar/hook.cpp lines 459-475, sylar/fd_manager.cpp lines 55-69).

  The calls are those of hook-enabled threads on a world that `Sylar.Hook.FdManager`
  describes, each with any timeval and with the answer of `setsockopt_f`. Beside the
  world, `last` is the timeval of the last successful call of each socket and direction.
  A timeval whose milliseconds overflow a long is taken to wrap around.

  Proved: getTimeout reports what the last successful call asked for, and a call changes
  no more than it should, exactly when every successful call has a timeval that is not
  zero and that its milliseconds are no shorter than, and every failing call one that is
  recorded already (`reports_iff`): the timeout is recorded before `setsockopt_f` has
  answered, and as a number of milliseconds even when it is zero (`zero_not_infinite`).
  Of the timevals in range those are the ones of whole milliseconds (`whole_millis`): so a
  run of successful calls of sockets with a context conforms exactly when no timeval is zero
  and each is of whole milliseconds (`conforms_whole_iff`).
-/

import Sylar.Hook.FdManager
import Sylar.Hook.Sleep

namespace Sylar
namespace FdManager

open Hook (SockOpt noTimeout)

/-! ## The timeout of a socket and direction -/

/-- `getTimeout(type)` of the context. -/
def World.timeout (w : World) (fd : Nat) (type : SockOpt) : Option UInt64 :=
  (w.get fd).map fun ctx => ctx.getTimeout type

/-- Whatever the size of the table, it finds what is put where something was. -/
theorem lookup_put {α : Type} {m_datas : List (Option α)} {fd : Nat} {ctx : α} (h : lookup m_datas fd = some ctx)
    (ctx' : α) (i : Nat) : lookup (put m_datas fd ctx') i = if i = fd then some ctx' else lookup m_datas i := by
  have hlen : intSize (put m_datas fd ctx') = intSize m_datas := by
    rw [intSize, put, List.length_set, intSize]
  unfold lookup
  rw [hlen]
  by_cases e : i = fd
  · subst e
    have hin : ¬intSize m_datas ≤ i := by
      intro hle
      rw [lookup, if_pos hle] at h
      cases h
    rw [if_neg hin, if_pos rfl, put, List.getElem?_set_self (lt_of_lookup h)]
    rfl
  · rw [if_neg e, put, List.getElem?_set_ne (Ne.symm e)]

theorem World.setTimeout_timeout (w : World) (fd : Nat) (type : SockOpt) (val : UInt64) (fd' : Nat)
    (type' : SockOpt) : (w.setTimeout fd type val).timeout fd' type' =
      if fd' = fd ∧ type' = type then (w.timeout fd type).map fun _ => val else w.timeout fd' type' := by
  cases hg : w.get fd with
  | none =>
    have hsame : w.setTimeout fd type val = w := by
      rw [World.setTimeout, hg]
    rw [hsame]
    split
    · rename_i he
      rw [he.1, World.timeout, World.timeout, hg]
      rfl
    · rfl
  | some ctx =>
    have hget : (w.setTimeout fd type val).get fd' =
        if fd' = fd then some (ctx.setTimeout type val) else w.get fd' := by
      rw [World.setTimeout, hg]
      exact lookup_put hg _ fd'
    rw [World.timeout, hget]
    by_cases e : fd' = fd
    · subst e
      rw [World.timeout, World.timeout, hg]
      cases type <;> cases type' <;> simp [FdCtx.setTimeout, Hook.FdCtx.getTimeout]
    · rw [if_neg e, if_neg fun h => e h.1]
      rfl

/-! ## Timevals -/

structure Timeval where
  tv_sec : Int64
  tv_usec : Int64
  deriving DecidableEq, Repr

namespace Timeval

/-- In microseconds. -/
def duration (val : Timeval) : Int := val.tv_sec.toInt * 1000000 + val.tv_usec.toInt

/-- As `setsockopt_f` takes it, and so long that its milliseconds fit a long. -/
structure InRange (val : Timeval) : Prop where
  tv_sec : 0 ≤ val.tv_sec.toInt ∧ val.tv_sec.toInt < 9223372036854775
  tv_usec : 0 ≤ val.tv_usec.toInt ∧ val.tv_usec.toInt < 1000000

/-- In milliseconds, cut towards zero. -/
def millis (val : Timeval) : Int := val.tv_sec.toInt * 1000 + val.tv_usec.toInt.tdiv 1000

/-- `val->tv_sec * 1000 + val->tv_usec / 1000`. -/
def recorded (val : Timeval) : UInt64 := (val.tv_sec * 1000 + val.tv_usec / 1000).toUInt64

/-- The milliseconds, modulo 2^64, are a timeout and no shorter. -/
def Kept (val : Timeval) : Prop :=
  val.duration ≤ val.millis % 18446744073709551616 * 1000 ∧ val.millis % 18446744073709551616 ≠ 18446744073709551615

instance (val : Timeval) : Decidable val.Kept := inferInstanceAs (Decidable (_ ∧ _))

theorem recorded_toNat (val : Timeval) : (val.recorded.toNat : Int) = val.millis % 18446744073709551616 := by
  have h1000 : (1000 : Int64).toInt = 1000 := by decide
  have hdiv : (val.tv_usec / 1000).toInt = val.tv_usec.toInt.tdiv 1000 := by
    rw [Int64.toInt_div_of_ne_right _ _ (by decide), h1000]
  rw [recorded, Hook.toNat_toUInt64, Int64.toInt_add, Int64.toInt_mul, hdiv, h1000, Int.bmod_add_bmod, millis]
  exact Int.bmod_emod

theorem recorded_eq_noTimeout (val : Timeval) :
    val.recorded = noTimeout ↔ val.millis % 18446744073709551616 = 18446744073709551615 := by
  rw [← UInt64.toNat_inj, ← recorded_toNat]
  show _ = 18446744073709551615 ↔ _
  omega

theorem whole_millis {val : Timeval} (h : val.InRange) : val.Kept ↔ 1000 ∣ val.tv_usec.toInt := by
  obtain ⟨hsec, husec⟩ := h
  have hmillis : val.millis = val.tv_sec.toInt * 1000 + val.tv_usec.toInt / 1000 := by
    rw [millis, Int.tdiv_eq_ediv_of_nonneg husec.1]
  rw [Kept, duration, Int.emod_eq_of_lt (by omega) (by omega)]
  omega

end Timeval

/-! ## Calls -/

/-- `setsockopt(sockfd, SOL_SOCKET, type, &val, sizeof(val))` and whether `setsockopt_f` succeeds. -/
structure TimeoutCall where
  sockfd : Nat
  type : SockOpt
  val : Timeval
  ok : Bool

structure Timed where
  w : World
  /-- The timeval of the last successful call. -/
  last : Nat → SockOpt → Option Timeval

namespace Timed

structure Step (s : Timed) (a : TimeoutCall) (s' : Timed) : Prop where
  w : s'.w = (s.w.setsockopt true a.sockfd (some a.type) a.val.tv_sec a.val.tv_usec a.ok).1
  last : ∀ fd type, s'.last fd type =
    if a.ok = true ∧ fd = a.sockfd ∧ type = a.type then some a.val else s.last fd type

/-- The contexts are as their constructor leaves them. -/
structure Init (s : Timed) : Prop where
  w : ∀ fd type val, s.w.timeout fd type = some val → val = noTimeout
  last : ∀ fd type, s.last fd type = none

/-- Infinite for none and for zero, else a number of milliseconds that is long enough. -/
def Reports : Option Timeval → UInt64 → Prop
  | none, timeout => timeout = noTimeout
  | some val, timeout =>
    if val = ⟨0, 0⟩ then timeout = noTimeout
    else timeout ≠ noTimeout ∧ val.duration ≤ (timeout.toNat : Int) * 1000

def Right (s : Timed) : Prop := ∀ fd type timeout, s.w.timeout fd type = some timeout → Reports (s.last fd type) timeout

structure Conforms (s : Timed) (a : TimeoutCall) (s' : Timed) : Prop where
  right : s'.Right
  failed : a.ok = false → ∀ fd type, s'.w.timeout fd type = s.w.timeout fd type
  others : ∀ fd type, ¬(fd = a.sockfd ∧ type = a.type) → s'.w.timeout fd type = s.w.timeout fd type

/-- Of a socket with a context: a success with a timeval that can be kept, or a failure
    with one that is recorded already. -/
def Fine (s : Timed) (a : TimeoutCall) : Prop :=
  ∀ timeout, s.w.timeout a.sockfd a.type = some timeout →
    if a.ok then a.val ≠ ⟨0, 0⟩ ∧ a.val.Kept else a.val.millis % 18446744073709551616 = timeout.toNat

variable {s s' : Timed} {a : TimeoutCall}

theorem step_timeout (hs : Step s a s') (fd : Nat) (type : SockOpt) : s'.w.timeout fd type =
    if fd = a.sockfd ∧ type = a.type then (s.w.timeout a.sockfd a.type).map fun _ => a.val.recorded
    else s.w.timeout fd type := by
  rw [hs.w]
  exact s.w.setTimeout_timeout a.sockfd a.type a.val.recorded fd type

theorem reports_recorded (val : Timeval) : Reports (some val) val.recorded ↔ val ≠ ⟨0, 0⟩ ∧ val.Kept := by
  by_cases hz : val = ⟨0, 0⟩
  · rw [Reports, if_pos hz, hz]
    exact ⟨fun h => absurd h (by decide), fun h => absurd rfl h.1⟩
  · rw [Reports, if_neg hz, Timeval.Kept, Ne, Timeval.recorded_eq_noTimeout, ← Timeval.recorded_toNat, and_comm]
    exact (and_iff_right hz).symm

/-- What the call leaves recorded for its socket and direction is right. -/
theorem fine_iff (hi : s.Right) (hs : Step s a s') : Conforms s a s' ↔ Fine s a := by
  have hself := step_timeout hs a.sockfd a.type
  rw [if_pos ⟨rfl, rfl⟩] at hself
  have hlast := hs.last a.sockfd a.type
  constructor
  · intro h timeout ht
    rw [ht] at hself
    cases hok : a.ok with
    | true =>
      rw [if_pos ⟨hok, rfl, rfl⟩] at hlast
      have hr := h.right _ _ _ hself
      rw [hlast] at hr
      exact (reports_recorded _).mp hr
    | false =>
      have hsame := h.failed hok a.sockfd a.type
      rw [hself, ht] at hsame
      have hrec : a.val.recorded = timeout := Option.some_inj.mp hsame
      rw [if_neg Bool.false_ne_true, ← Timeval.recorded_toNat, hrec]
  · intro h
    have hothers : ∀ fd type, ¬(fd = a.sockfd ∧ type = a.type) → s'.w.timeout fd type = s.w.timeout fd type := by
      intro fd type hne
      rw [step_timeout hs, if_neg hne]
    have hfailed : a.ok = false → ∀ fd type, s'.w.timeout fd type = s.w.timeout fd type := by
      intro hok fd type
      by_cases he : fd = a.sockfd ∧ type = a.type
      · rw [he.1, he.2, hself]
        cases ht : s.w.timeout a.sockfd a.type with
        | none => rfl
        | some timeout =>
          have hsame := h timeout ht
          rw [hok, if_neg Bool.false_ne_true, ← Timeval.recorded_toNat] at hsame
          exact congrArg some (UInt64.toNat_inj.mp (Int.ofNat_inj.mp hsame))
      · exact hothers fd type he
    refine ⟨fun fd type timeout ht => ?_, hfailed, hothers⟩
    by_cases he : a.ok = true ∧ fd = a.sockfd ∧ type = a.type
    · obtain ⟨hok, rfl, rfl⟩ := he
      rw [if_pos ⟨hok, rfl, rfl⟩] at hlast
      rw [hself] at ht
      obtain ⟨before, hb, rfl⟩ := Option.map_eq_some_iff.mp ht
      have hfine := h before hb
      rw [hok, if_pos rfl] at hfine
      rw [hlast]
      exact (reports_recorded _).mpr hfine
    · rw [hs.last, if_neg he]
      cases hok : a.ok with
      | true => exact hi _ _ _ (hothers fd type (fun h => he ⟨hok, h⟩) ▸ ht)
      | false => exact hi _ _ _ (hfailed hok fd type ▸ ht)

theorem init_right (h : Init s) : s.Right := by
  intro fd type timeout ht
  rw [h.last]
  exact h.w fd type timeout ht

/-- In every run of hooked setsockopt calls every call conforms exactly when every call is
    `Fine`. -/
theorem reports_iff {tr : List (TimeoutCall × Timed)} (hi : Init s) (hr : Lts.Run Step s tr) :
    Lts.Every Conforms s tr ↔ Lts.Every (fun s a _ => Fine s a) s tr :=
  hr.every_iff (J := Right) (P := Conforms) (G := Fine)
    (fun _ _ _ hj hg hs => ((fine_iff hj hs).mpr hg).right) (fun _ _ _ hj hs => fine_iff hj hs) (init_right hi)

/-- The state after a call. -/
def next (s : Timed) (a : TimeoutCall) : Timed where
  w := (s.w.setsockopt true a.sockfd (some a.type) a.val.tv_sec a.val.tv_usec a.ok).1
  last fd type := if a.ok = true ∧ fd = a.sockfd ∧ type = a.type then some a.val else s.last fd type

theorem next_step (s : Timed) (a : TimeoutCall) : Step s a (s.next a) := ⟨rfl, fun _ _ => rfl⟩

/-! ## Timevals of whole milliseconds -/

/-- A successful call with a timeval in range, of a socket that has a context. -/
structure Usual (s : Timed) (a : TimeoutCall) : Prop where
  ok : a.ok = true
  val : a.val.InRange
  ctx : (s.w.timeout a.sockfd a.type).isSome

theorem fine_whole_iff (h : Usual s a) : Fine s a ↔ a.val ≠ ⟨0, 0⟩ ∧ 1000 ∣ a.val.tv_usec.toInt := by
  obtain ⟨timeout, ht⟩ := Option.isSome_iff_exists.mp h.ctx
  rw [← Timeval.whole_millis h.val]
  constructor
  · intro hfine
    have hval := hfine timeout ht
    rwa [if_pos h.ok] at hval
  · intro hval _ _
    rwa [if_pos h.ok]

/-- In a run of such calls every call conforms exactly when every timeval is of whole
    milliseconds and not zero. -/
theorem conforms_whole_iff {tr : List (TimeoutCall × Timed)} (hi : Init s)
    (hr : Lts.Run (Lts.guarded Step Usual) s tr) : Lts.Every Conforms s tr ↔
      Lts.Every (fun _ a _ => a.val ≠ ⟨0, 0⟩ ∧ 1000 ∣ a.val.tv_usec.toInt) s tr :=
  hr.every_iff (J := Right) (P := Conforms) (G := fun _ a => a.val ≠ ⟨0, 0⟩ ∧ 1000 ∣ a.val.tv_usec.toInt)
    (fun _ _ _ hj hg hs => ((fine_iff hj hs.2).mpr ((fine_whole_iff hs.1).mpr hg)).right)
    (fun _ _ _ hj hs => (fine_iff hj hs.2).trans (fine_whole_iff hs.1)) (init_right hi)

/-! ## One socket -/

/-- One socket, number 3. -/
def oneSocket : Timed := ⟨withSocket 1, fun _ _ => none⟩

theorem oneSocket_init : Init oneSocket := by
  refine ⟨fun fd type val h => ?_, fun _ _ => rfl⟩
  have hfd : (withSocket 1).fd = Function.update idle.fd 3 ((idle.fd 3).exec (openSocket 1)) :=
    (World.exec_on fresh_small (fun _ h => by cases h; decide) rfl).2
  obtain ⟨ctx, hctx, rfl⟩ := Option.map_eq_some_iff.mp h
  have hget : (Function.update idle.fd 3 ((idle.fd 3).exec (openSocket 1)) fd).ctx = some ctx := by
    rw [← hfd]
    exact hctx
  by_cases e : fd = 3
  · rw [e, Function.update_self] at hget
    have hidle : idle.fd 3 = ⟨none, none⟩ := rfl
    rw [hidle] at hget
    rw [← Option.some_inj.mp hget]
    cases type <;> rfl
  · rw [Function.update_of_ne e] at hget
    have hnone : idle.get fd = none := World.Init.get_eq (w := idle) rfl fd
    exact nomatch hnone.symm.trans hget

/-- One and a half seconds to receive. -/
theorem reports_oneSocket : Lts.Every Conforms oneSocket
    [(⟨3, .SO_RCVTIMEO, ⟨1, 500000⟩, true⟩, oneSocket.next ⟨3, .SO_RCVTIMEO, ⟨1, 500000⟩, true⟩)] := by
  refine (reports_iff oneSocket_init (.cons (next_step _ _) (.nil _))).mpr ⟨?_, trivial⟩
  intro timeout _
  exact ⟨by decide, by decide⟩

/-- Zero, which asks for no timeout, is recorded as a timeout of 0 ms. -/
theorem zero_not_infinite : ∃ s tr, Init s ∧ Lts.Run Step s tr ∧ ¬Lts.Every Conforms s tr := by
  refine ⟨oneSocket, [(⟨3, .SO_RCVTIMEO, ⟨0, 0⟩, true⟩, oneSocket.next ⟨3, .SO_RCVTIMEO, ⟨0, 0⟩, true⟩)],
    oneSocket_init, .cons (next_step _ _) (.nil _), ?_⟩
  rintro ⟨h, -⟩
  have hr : (0 : UInt64) = noTimeout := h.right 3 .SO_RCVTIMEO 0 rfl
  exact absurd hr (by decide)

end Timed
end FdManager
end Sylar
