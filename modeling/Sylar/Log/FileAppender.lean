/-
  Sylar.Log.FileAppender — FileLogAppender::log and reopen (sylar/log.cpp lines 380-411)
  on a std::ofstream that may fail to open and to write.

  `Stream` is the ofstream: whether its file is open, and its error state. As the standard
  has it, close on a file that is not open sets the error state, open fails on a file that
  is still open and clears the error state when it succeeds, and a stream in the error
  state writes nothing. An event comes with what opening the path and writing to it would
  do at that moment; `file` are the events written.

  Proved: in every state of a run the appender recovers, which is that with the path fit
  again an event that triggers a reopen and all later ones are written, exactly when no
  write has failed (`recovers_iff`): reopen closes the file only when the stream is in no
  error, so after a failed write the file stays open, and open fails for ever
  (`failed_write_stuck`). A failed open is made good at the next reopen.
-/

import Sylar.Lib.Lts
import Mathlib.Data.List.Basic

namespace Sylar.Log

/-- std::ofstream: is_open() and fail(). -/
structure Stream where
  is_open : Bool
  fail : Bool
  deriving DecidableEq, Repr

namespace Stream

def close (s : Stream) : Stream := if s.is_open then { s with is_open := false } else { s with fail := true }

def «open» (s : Stream) (ok : Bool) : Stream := if s.is_open || !ok then { s with fail := true } else ⟨true, false⟩

/-- A formatted event, and whether it is in the file. -/
def write (s : Stream) (ok : Bool) : Stream × Bool :=
  if s.fail then (s, false)
  else if s.is_open && ok then (s, true)
  else ({ s with fail := true }, false)

end Stream

/-- An event that reaches the appender. -/
structure FileEvent where
  time : UInt64
  openOk : Bool
  writeOk : Bool
  deriving DecidableEq, Repr

structure FileLogAppender where
  m_filestream : Stream
  m_lastTime : UInt64
  m_reopenError : Bool
  /-- The events written. -/
  file : List FileEvent
  /-- The time of the last event. -/
  now : UInt64
  deriving DecidableEq, Repr

namespace FileLogAppender

def reopen (self : FileLogAppender) (openOk : Bool) : FileLogAppender :=
  let m_filestream := if self.m_filestream.fail then self.m_filestream else self.m_filestream.close
  let m_filestream := m_filestream.open openOk
  { self with m_filestream, m_reopenError := m_filestream.fail }

/-- `FileLogAppender::FileLogAppender`. -/
def new (openOk : Bool) : FileLogAppender := reopen ⟨⟨false, false⟩, 0, false, [], 0⟩ openOk

/-- `now >= (m_lastTime + 3)`. -/
def triggers (self : FileLogAppender) (event : FileEvent) : Bool := decide (event.time ≥ self.m_lastTime + 3)

/-- The reopen of an event that is due for it. -/
def reopenDue (self : FileLogAppender) (event : FileEvent) : FileLogAppender :=
  let self := if self.triggers event then { self.reopen event.openOk with m_lastTime := event.time } else self
  { self with now := event.time }

def log (self : FileLogAppender) (event : FileEvent) : FileLogAppender :=
  let self := self.reopenDue event
  if self.m_reopenError then self
  else
    let r := self.m_filestream.write event.writeOk
    { self with m_filestream := r.1, file := if r.2 then self.file ++ [event] else self.file }

def logAll (self : FileLogAppender) (events : List FileEvent) : FileLogAppender := events.foldl log self

/-- Times do not go back. -/
structure Step (s : FileLogAppender) (event : FileEvent) (s' : FileLogAppender) : Prop where
  time : s.now ≤ event.time
  log : s' = s.log event

def Init (self : FileLogAppender) : Prop := ∃ openOk, self = new openOk

/-- Events from `now` on, of which every open and every write would succeed. -/
def Steady (now : UInt64) : List FileEvent → Prop
  | [] => True
  | event :: events => now ≤ event.time ∧ event.openOk = true ∧ event.writeOk = true ∧ Steady event.time events

/-- With opens and writes that succeed, an event that triggers a reopen and all later
    ones are written. -/
def Recovers (self : FileLogAppender) : Prop :=
  ∀ pre event post, Steady self.now (pre ++ event :: post) → (self.logAll pre).triggers event = true →
    (self.logAll (pre ++ event :: post)).file = (self.logAll pre).file ++ event :: post

/-- No write of this event fails: it succeeds, or the file is not open for it. -/
def NoFailedWrite (self : FileLogAppender) (event : FileEvent) : Prop :=
  event.writeOk = true ∨ if self.triggers event then event.openOk = false else self.m_reopenError = true

/-! ## The states of the stream -/

/-- The file is open and the stream in no error. -/
def Up (self : FileLogAppender) : Prop := self.m_filestream = ⟨true, false⟩ ∧ self.m_reopenError = false

/-- The open has failed, and is known to. -/
def Down (self : FileLogAppender) : Prop := self.m_filestream = ⟨false, true⟩ ∧ self.m_reopenError = true

/-- A write has failed. -/
def Stuck (self : FileLogAppender) : Prop := self.m_filestream = ⟨true, true⟩

variable {self self' : FileLogAppender} {event : FileEvent}

theorem reopen_up (h : self.Up ∨ self.Down) : (self.reopen true).Up := by
  rcases h with ⟨hs, -⟩ | ⟨hs, -⟩
  · simp [Up, reopen, hs, Stream.close, Stream.open]
  · simp [Up, reopen, hs, Stream.open]

theorem reopen_down (h : self.Up ∨ self.Down) : (self.reopen false).Down := by
  rcases h with ⟨hs, -⟩ | ⟨hs, -⟩
  · simp [Down, reopen, hs, Stream.close, Stream.open]
  · simp [Down, reopen, hs, Stream.open]

theorem reopen_stuck (h : self.Stuck) (openOk : Bool) : (self.reopen openOk).Stuck := by
  rw [Stuck] at h
  simp [Stuck, reopen, h, Stream.open]

theorem init_healthy (h : self.Init) : self.Up ∨ self.Down := by
  obtain ⟨openOk, rfl⟩ := h
  cases openOk with
  | true => exact .inl ⟨rfl, rfl⟩
  | false => exact .inr ⟨rfl, rfl⟩

/-! ## One event -/

theorem reopenDue_file (self : FileLogAppender) (event : FileEvent) : (self.reopenDue event).file = self.file := by
  unfold reopenDue
  split <;> rfl

theorem reopenDue_due (h : self.triggers event = true) :
    self.reopenDue event = { self.reopen event.openOk with m_lastTime := event.time, now := event.time } := by
  rw [reopenDue, if_pos h]

theorem reopenDue_early (h : ¬self.triggers event = true) : self.reopenDue event = { self with now := event.time } := by
  rw [reopenDue, if_neg h]

/-- The file is open for the event, or its open has failed. -/
theorem reopenDue_cases (h : self.Up ∨ self.Down) (event : FileEvent) :
    ((self.reopenDue event).Up ∧ ¬if self.triggers event then event.openOk = false else self.m_reopenError = true) ∨
      ((self.reopenDue event).Down ∧
        if self.triggers event then event.openOk = false else self.m_reopenError = true) := by
  by_cases ht : self.triggers event = true
  · rw [reopenDue_due ht, if_pos ht]
    cases ho : event.openOk with
    | true => exact .inl ⟨reopen_up h, nofun⟩
    | false => exact .inr ⟨reopen_down h, rfl⟩
  · rw [reopenDue_early ht, if_neg ht]
    rcases h with h | h
    · exact .inl ⟨h, by rw [h.2]; nofun⟩
    · exact .inr ⟨h, h.2⟩

theorem log_down (h : (self.reopenDue event).Down) : self.log event = self.reopenDue event := by
  rw [log]
  exact if_pos h.2

theorem log_up (h : (self.reopenDue event).Up) : self.log event =
    { self.reopenDue event with
      m_filestream := ⟨true, !event.writeOk⟩
      file := if event.writeOk then self.file ++ [event] else self.file } := by
  have hne : ¬(self.reopenDue event).m_reopenError = true := by
    rw [h.2]
    nofun
  rw [log]
  dsimp only
  rw [if_neg hne, h.1, reopenDue_file]
  cases event.writeOk <;> rfl

/-- With a path that is fit the event keeps the file open or the appender waiting, and
    with the file open it is written. -/
theorem log_steady (h : self.Up ∨ self.Down) (ho : event.openOk = true) (hw : event.writeOk = true) :
    ((self.log event).Up ∧ (self.log event).file = self.file ++ [event]) ∨
      ((self.log event).Down ∧ self.Down ∧ self.triggers event = false) := by
  rcases reopenDue_cases h event with ⟨hup, -⟩ | ⟨hdown, hclosed⟩
  · left
    rw [log_up hup, hw]
    exact ⟨⟨rfl, hup.2⟩, rfl⟩
  · right
    rw [log_down hdown]
    split at hclosed
    · rw [ho] at hclosed
      cases hclosed
    · rename_i ht
      refine ⟨hdown, h.resolve_left fun hup => ?_, by simpa using ht⟩
      rw [hup.2] at hclosed
      cases hclosed

/-- A stuck appender writes nothing, whatever the event. -/
theorem log_stuck (h : self.Stuck) (event : FileEvent) :
    (self.log event).Stuck ∧ (self.log event).file = self.file := by
  have hdue : (self.reopenDue event).Stuck := by
    by_cases ht : self.triggers event = true
    · rw [reopenDue_due ht]
      exact reopen_stuck h _
    · rw [reopenDue_early ht]
      exact h
  have hs : (self.reopenDue event).m_filestream = ⟨true, true⟩ := hdue
  unfold log
  dsimp only
  split
  · exact ⟨hdue, reopenDue_file _ _⟩
  · rw [hs, Stuck]
    exact ⟨rfl, reopenDue_file _ _⟩

/-! ## Recovery -/

theorem logAll_up {events : List FileEvent} {now : UInt64} (h : self.Up) (hs : Steady now events) :
    (self.logAll events).file = self.file ++ events := by
  induction events generalizing self now with
  | nil => exact (List.append_nil _).symm
  | cons event events ih =>
    obtain ⟨-, ho, hw, hs⟩ := hs
    rcases log_steady (.inl h) ho hw with ⟨hup, hfile⟩ | ⟨-, hdown, -⟩
    · refine (ih hup hs).trans ?_
      rw [hfile, List.append_assoc]
      rfl
    · have herr := hdown.2
      rw [h.2] at herr
      cases herr

theorem logAll_healthy {events : List FileEvent} {now : UInt64} (h : self.Up ∨ self.Down) (hs : Steady now events) :
    (self.logAll events).Up ∨ (self.logAll events).Down := by
  induction events generalizing self now with
  | nil => exact h
  | cons event events ih =>
    obtain ⟨-, ho, hw, hs⟩ := hs
    rcases log_steady h ho hw with ⟨hup, -⟩ | ⟨hdown, -⟩
    · exact ih (.inl hup) hs
    · exact ih (.inr hdown) hs

theorem steady_append {now : UInt64} {pre post : List FileEvent} (h : Steady now (pre ++ post)) :
    Steady now pre ∧ ∃ now', Steady now' post := by
  induction pre generalizing now with
  | nil => exact ⟨trivial, now, h⟩
  | cons event pre ih =>
    obtain ⟨hle, ho, hw, h⟩ := h
    obtain ⟨hpre, hpost⟩ := ih h
    exact ⟨⟨hle, ho, hw, hpre⟩, hpost⟩

theorem healthy_recovers (h : self.Up ∨ self.Down) : self.Recovers := by
  intro pre event post hs ht
  obtain ⟨hpre, now', -, ho, hw, hpost⟩ := steady_append hs
  have hsplit : self.logAll (pre ++ event :: post) = ((self.logAll pre).log event).logAll post :=
    List.foldl_append ..
  rcases log_steady (logAll_healthy h hpre) ho hw with ⟨hup, hfile⟩ | ⟨-, -, hno⟩
  · rw [hsplit, logAll_up hup hpost, hfile, List.append_assoc]
    rfl
  · rw [hno] at ht
    cases ht

theorem stuck_not_recovers (h : self.Stuck) : ¬self.Recovers := by
  intro hr
  have hle (time : UInt64) : time ≤ 18446744073709551615 := by
    have hlt := time.toNat_lt_size
    rw [UInt64.le_iff_toNat_le]
    show time.toNat ≤ 18446744073709551615
    exact Nat.le_of_lt_succ hlt
  have hfile := hr [] ⟨18446744073709551615, true, true⟩ [] ⟨hle _, rfl, rfl, trivial⟩
    (decide_eq_true (hle _))
  have hsame : (self.logAll [⟨18446744073709551615, true, true⟩]).file = self.file := (log_stuck h _).2
  rw [List.nil_append, hsame] at hfile
  exact absurd (congrArg List.length hfile) (by simp [logAll])

/-! ## Runs -/

theorem step_cases (hi : self.Up ∨ self.Down) (hs : Step self event self') :
    ((self'.Up ∨ self'.Down) ∧ self.NoFailedWrite event) ∨ (self'.Stuck ∧ ¬self.NoFailedWrite event) := by
  rw [hs.log]
  rcases reopenDue_cases hi event with ⟨hup, hopen⟩ | ⟨hdown, hclosed⟩
  · rw [log_up hup]
    cases hw : event.writeOk with
    | true => exact .inl ⟨.inl ⟨rfl, hup.2⟩, .inl hw⟩
    | false => exact .inr ⟨rfl, fun h => h.elim (fun h => by rw [hw] at h; cases h) hopen⟩
  · rw [log_down hdown]
    exact .inl ⟨.inr hdown, .inr hclosed⟩

theorem recovers_step_iff (hi : self.Up ∨ self.Down) (hs : Step self event self') :
    self'.Recovers ↔ self.NoFailedWrite event := by
  rcases step_cases hi hs with ⟨hhealthy, hno⟩ | ⟨hstuck, hfailed⟩
  · exact iff_of_true (healthy_recovers hhealthy) hno
  · exact iff_of_false (stuck_not_recovers hstuck) hfailed

/-- In every run of events with times that do not go back, every state recovers exactly
    when no write fails. -/
theorem recovers_iff {tr : List (FileEvent × FileLogAppender)} (hi : self.Init) (hr : Lts.Run Step self tr) :
    Lts.Every (fun _ _ s' => Recovers s') self tr ↔ Lts.Every (fun s a _ => NoFailedWrite s a) self tr :=
  hr.every_iff (J := fun s => s.Up ∨ s.Down) (P := fun _ _ s' => Recovers s') (G := NoFailedWrite)
    (fun _ _ _ hj hg hs => (step_cases hj hs).elim (·.1) fun h => absurd hg h.2)
    (fun _ _ _ hj hs => recovers_step_iff hj hs) (init_healthy hi)

/-- One event after a failed open. -/
theorem recovers_oneEvent : Lts.Every (fun _ _ s' => Recovers s') (new false)
    [(FileEvent.mk 5 true true, (new false).log ⟨5, true, true⟩)] :=
  (recovers_iff ⟨false, rfl⟩ (.cons ⟨by decide, rfl⟩ (.nil _))).mpr ⟨.inl rfl, trivial⟩

/-- One write fails, say on a full disk. -/
theorem failed_write_stuck : ∃ self tr, Init self ∧ Lts.Run Step self tr ∧
    ¬Lts.Every (fun _ _ s' => Recovers s') self tr := by
  refine ⟨new true, [(⟨5, true, false⟩, (new true).log ⟨5, true, false⟩)], ⟨true, rfl⟩,
    .cons ⟨by decide, rfl⟩ (.nil _), fun h => ?_⟩
  have hstuck : ((new true).log ⟨5, true, false⟩).Stuck := by
    unfold Stuck
    decide
  exact stuck_not_recovers hstuck h.1

end FileLogAppender
end Sylar.Log
