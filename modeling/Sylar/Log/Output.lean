/-
  Sylar.Log.Output — what is printed, by which appender, while the `logs` variable changes
  (sylar/log.h lines 17-30, sylar/log.cpp lines 446-452, 469, 603-652, ConfigVar::fromString,
  sylar/config.h lines 255-264).

  A log statement looks its logger up in its translation unit (and so creates it there),
  tests the level, and on its end `Logger::log` tests it again and has every appender print
  the event. A text that the variable gets is read and set; a new value is announced
  through the root logger of log.cpp before it is applied, an error is reported there (the
  variable's class is instantiated in log.cpp). The events of these lines but for level
  and text are parameters, as are the errors that yaml-cpp throws. `Tu` and `d` are as in
  `Sylar.Log.Loggers`. What an appender prints is handed to its stream
  (`Sylar.Log.FileAppender` says what becomes of it there).

  `expected` knows no loggers: it sends an event of log.cpp to the appenders of the
  definition in force, one of another unit to what a new logger has, and the announcement
  of a change by the definition before it. Proved: from the first logger on, whatever is
  logged and loaded, the library prints what `expected` says, and no change fails
  (`prints_as_defined`).
-/

import Sylar.Log.Loggers
import Sylar.Log.Formatter

namespace Sylar.Log.Output

/-- The values of `LogLevel::Level`. -/
def value : LogLevel → Nat
  | .FATAL => 0
  | .ALERT => 100
  | .CRIT => 200
  | .ERROR => 300
  | .WARN => 400
  | .NOTICE => 500
  | .INFO => 600
  | .DEBUG => 700
  | .NOTSET => 800

/-- What strftime prints, and the byte that `LogFormatter::init` may read past a pattern. -/
structure Printing where
  strftime : String → Int → String
  past : Char

/-- One text handed to one appender. -/
abbrev Line := AppenderKind × String

/-- `appender->log(event)`. -/
def LogAppender.log (P : Printing) (appender : LogAppender) (event : LogEvent) : Line :=
  (appender.kind, (LogFormatter.init P.past appender.pattern).format P.strftime event)

def Logger.log (P : Printing) (logger : Logger) (event : LogEvent) : List Line :=
  if value event.m_level ≤ value logger.m_level then
    logger.m_appenders.map fun appender => LogAppender.log P appender event
  else []

/-- `SYLAR_LOG_LEVEL(logger, level)` with the rest of the event. -/
def sylarLog (P : Printing) (logger : Logger) (event : LogEvent) : List Line :=
  if value event.m_level ≤ value logger.m_level then Logger.log P logger { event with m_loggerName := logger.m_name }
  else []

structure State where
  base : Log.State
  printed : List Line

inductive Act where
  | getLogger (u : Tu) (name : String)
  /-- A statement `SYLAR_LOG_LEVEL(SYLAR_LOG_NAME(name), level) << text` in `u`. -/
  | log (u : Tu) (name : String) (event : LogEvent)
  /-- `g_log_defines->fromString(val)`; `event` is the line about it in the root logger. -/
  | fromString (val : String) (event : LogEvent)

/-- A statement of the logger with that name. -/
def State.log (P : Printing) (s : State) (u : Tu) (name : String) (event : LogEvent) : State where
  base := (s.base.lookup u name).2
  printed := s.printed ++ sylarLog P (s.base.lookup u name).1 event

def announcement (event : LogEvent) : LogEvent := { event with m_level := .INFO, m_ss := "on log config changed" }

variable {Node : Type}

def exec (Y : YamlCpp Node) (d : Bool) (P : Printing) (s : State) : Act → Except Fault State
  | .getLogger u name => return { s with base := (s.base.lookup u name).2 }
  | .log u name event => return s.log P u name event
  | .fromString text event =>
    match castSet Y text with
    | .error _ => return s.log P .log_cpp "root" { event with m_level := .ERROR }
    | .ok val =>
      if s.base.m_val = val then return s
      else do
        -- the listener's first line, then its loops
        let s := s.log P .log_cpp "root" (announcement event)
        return { s with base := ← setValue d val s.base }

def run (Y : YamlCpp Node) (d : Bool) (P : Printing) (acts : List Act) (s : State) : Except Fault State :=
  acts.foldlM (exec Y d P) s

/-! ## By the definitions alone -/

/-- The level and the appenders of a name in log.cpp, by the definitions in force and those
    taken before. -/
def defined (d : Bool) (val : List LogDefine) (taken : List (List LogDefine)) (name : String) :
    LogLevel × List LogAppender :=
  match val.find? (·.m_name = name) with
  | some logDef => (logDef.level, appendersOf d logDef)
  | none => if taken.any (·.any (·.m_name = name)) then (.NOTSET, []) else unconfigured name

/-- In other units no definition has an effect. -/
def inForce (d : Bool) (val : List LogDefine) (taken : List (List LogDefine)) (u : Tu) (name : String) :
    LogLevel × List LogAppender :=
  match u with
  | .log_cpp => defined d val taken name
  | .other _ => unconfigured name

/-- The event goes to every appender in force, if its level does. -/
def sent (P : Printing) (force : LogLevel × List LogAppender) (name : String) (event : LogEvent) : List Line :=
  if value event.m_level ≤ value force.1 then
    force.2.map fun appender => LogAppender.log P appender { event with m_loggerName := name }
  else []

def expected (Y : YamlCpp Node) (d : Bool) (P : Printing) (val : List LogDefine) (taken : List (List LogDefine)) :
    List Act → List Line
  | [] => []
  | .getLogger _ _ :: acts => expected Y d P val taken acts
  | .log u name event :: acts => sent P (inForce d val taken u name) name event ++ expected Y d P val taken acts
  | .fromString text event :: acts =>
    let root := inForce d val taken .log_cpp "root"
    match castSet Y text with
    | .error _ => sent P root "root" { event with m_level := .ERROR } ++ expected Y d P val taken acts
    | .ok new =>
      if val = new then expected Y d P val taken acts
      else sent P root "root" (announcement event) ++ expected Y d P new (new :: taken) acts

/-! ## The loggers and the definitions -/

variable {Y : YamlCpp Node} {d : Bool} {P : Printing} {m m' : Loggers} {s s' : State} {name key : String}
  {logDef : LogDefine} {old new : List LogDefine}

/-- A logger is found by its own name. -/
def NamesOk (m : Loggers) : Prop := ∀ name logger, m name = some logger → logger.m_name = name

theorem NamesOk.update (h : NamesOk m) {logger : Logger} (hl : logger.m_name = key) :
    NamesOk (Function.update m key (some logger)) := by
  intro name l hm
  by_cases hname : name = key
  · rw [hname, Function.update_self] at hm
    rw [← Option.some.inj hm, hl, hname]
  · rw [Function.update_of_ne hname] at hm
    exact h name l hm

theorem NamesOk.getLogger (h : NamesOk m) (key : String) :
    NamesOk (getLogger m key).2 ∧ (Log.getLogger m key).1.m_name = key := by
  cases hm : m key with
  | some logger =>
    simp only [Log.getLogger, hm]
    exact ⟨h, h key logger hm⟩
  | none =>
    simp only [Log.getLogger, hm, and_true]
    exact h.update rfl

theorem NamesOk.configure (h : NamesOk m) (ht : ∀ lad ∈ logDef.m_appenders, lad.m_type = 1 ∨ lad.m_type = 2)
    (hc : configure d logDef m = .ok m') : NamesOk m' := by
  obtain ⟨hnames, hkey⟩ := h.getLogger logDef.m_name
  rw [Log.configure, addAppenders_ok ht, Except.ok_bind_eq] at hc
  cases hc
  exact hnames.update hkey

theorem NamesOk.applyNew (h : NamesOk m)
    (ht : ∀ logDef ∈ new, ∀ lad ∈ logDef.m_appenders, lad.m_type = 1 ∨ lad.m_type = 2)
    (ha : applyNew d old new m = .ok m') : NamesOk m' := by
  induction new generalizing m with
  | nil =>
    cases ha
    exact h
  | cons x rest ih =>
    have hrest : ∀ logDef ∈ rest, ∀ lad ∈ logDef.m_appenders, lad.m_type = 1 ∨ lad.m_type = 2 :=
      fun y hy => ht y (.tail _ hy)
    have hconf : (do Log.applyNew d old rest (← Log.configure d x m)) = .ok m' → NamesOk m' := by
      intro hb
      obtain ⟨m₁, hc, hb⟩ := Except.bind_eq_ok.mp hb
      exact ih (h.configure (ht x (.head _)) hc) hrest hb
    rw [Log.applyNew] at ha
    split at ha
    · exact hconf ha
    · split at ha
      · exact ih h hrest ha
      · exact hconf ha

theorem NamesOk.removeOld (h : NamesOk m) : NamesOk (removeOld new old m) := by
  induction old generalizing m with
  | nil => exact h
  | cons x rest ih =>
    rw [Log.removeOld]
    split
    · exact ih h
    · obtain ⟨hnames, hkey⟩ := h.getLogger x.m_name
      exact ih (hnames.update hkey)

/-- No value named it. -/
def Untaken (taken : List (List LogDefine)) (name : String) : Prop :=
  ∀ val ∈ taken, ∀ logDef ∈ val, logDef.m_name ≠ name

structure Holds (d : Bool) (s : Log.State) : Prop where
  inv : Log.Inv d s
  names : ∀ u, NamesOk (s.m_loggers u)
  current : s.m_val = [] ∨ s.m_val ∈ s.taken
  untouched : ∀ name, Untaken s.taken name → Untouched (s.m_loggers .log_cpp) name

theorem start_holds : Holds d Log.start where
  inv := start_inv
  names _ := by
    have hnone : NamesOk fun _ => none := fun _ _ h => by cases h
    exact hnone.update rfl
  current := .inl rfl
  untouched _ _ := .inl rfl

/-- A lookup. -/
theorem Holds.lookup {s : Log.State} (h : Holds d s) (u : Tu) (key : String) : Holds d (s.lookup u key).2 := by
  refine ⟨lookup_inv h.inv u key, fun v => ?_, h.current, fun name hno => ?_⟩
  · by_cases hv : v = u
    · subst hv
      simp only [State.lookup, Function.update_self]
      exact ((h.names v).getLogger key).1
    · simp only [State.lookup, Function.update_of_ne hv]
      exact h.names v
  · by_cases hu : Tu.log_cpp = u
    · subst hu
      simp only [State.lookup, Function.update_self]
      exact (h.untouched name hno).getLogger key
    · simp only [State.lookup, Function.update_of_ne hu]
      exact h.untouched name hno

/-- A change. -/
theorem Holds.setValue {s : Log.State} (h : Holds d s) {val : List LogDefine} (hv : WellFormed val)
    (hne : s.m_val ≠ val) :
    ∃ s', setValue d val s = .ok s' ∧ Holds d s' ∧ s'.m_val = val ∧ s'.taken = val :: s.taken := by
  obtain ⟨s', hok, hinv, hval⟩ := setValue_ok h.inv hv
  have htaken := setValue_taken hne hok
  obtain ⟨m₁, hnew, -, hkeep⟩ := applyNew_ok (d := d) (m := s.m_loggers .log_cpp) h.inv.wellFormed.sorted hv.sorted
    hv.types fun logDef _ hold => h.inv.follows logDef hold
  have hloggers : s'.m_loggers = Function.update s.m_loggers .log_cpp (removeOld val s.m_val m₁) := by
    rw [Log.setValue, if_neg hne, onChange, hnew] at hok
    cases hok
    rfl
  refine ⟨s', hok, ⟨hinv, fun u => ?_, .inr (by rw [hval, htaken]; exact .head _), fun name hno => ?_⟩, hval, htaken⟩
  · rw [hloggers]
    by_cases hu : u = .log_cpp
    · subst hu
      rw [Function.update_self]
      exact ((h.names _).applyNew hv.types hnew).removeOld
    · rw [Function.update_of_ne hu]
      exact h.names u
  · rw [htaken] at hno
    have hold : ∀ logDef ∈ s.m_val, logDef.m_name ≠ name := by
      rcases h.current with hnil | hmem
      · simp [hnil]
      · exact hno _ (.tail _ hmem)
    unfold Untouched
    rw [hloggers, Function.update_self, removeOld_other hv.sorted (.inr hold), hkeep name (hno val (.head _))]
    exact h.untouched name fun v hv => hno v (.tail _ hv)

/-- In log.cpp the logger of a name has what is defined. -/
theorem Holds.defined {s : Log.State} (h : Holds d s) (name : String) :
    let logger := (s.lookup .log_cpp name).1
    (logger.m_level, logger.m_appenders) = defined d s.m_val s.taken name := by
  unfold Output.defined
  cases hfind : s.m_val.find? (·.m_name = name) with
  | some logDef =>
    have hname : logDef.m_name = name := by simpa using List.find?_some hfind
    obtain ⟨logger, hm, hlevel, happenders⟩ := h.inv.follows logDef (List.mem_of_find?_eq_some hfind)
    rw [hname] at hm
    simp only [State.lookup, getLogger_of_some hm, hlevel, happenders]
  | none =>
    have hval : ∀ it ∈ s.m_val, it.m_name ≠ name := by simpa using hfind
    simp only
    by_cases hany : (s.taken.any (·.any (·.m_name = name))) = true
    · rw [if_pos hany]
      obtain ⟨val, hv, hany⟩ := List.any_eq_true.mp hany
      obtain ⟨logDef, hl, hname⟩ := List.any_eq_true.mp hany
      obtain rfl : logDef.m_name = name := by simpa using hname
      obtain ⟨logger, hm, hlevel, happenders⟩ := h.inv.cleared val hv logDef hl hval
      simp only [State.lookup, getLogger_of_some hm, hlevel, happenders]
    · rw [if_neg hany]
      have hno : Untaken s.taken name := by simpa [Untaken] using hany
      exact (h.untouched name hno).lookup

/-- The logger of a name has what is in force where it is looked up. -/
theorem Holds.force {s : Log.State} (h : Holds d s) (u : Tu) (name : String) :
    let logger := (s.lookup u name).1
    (logger.m_level, logger.m_appenders) = inForce d s.m_val s.taken u name := by
  cases u with
  | log_cpp => exact h.defined name
  | other i => exact (h.inv.elsewhere i name).lookup

/-- A log statement prints what is sent to the appenders in force. -/
theorem sylarLog_sent {s : Log.State} (h : Holds d s) (u : Tu) (name : String) (event : LogEvent) :
    sylarLog P (s.lookup u name).1 event = sent P (inForce d s.m_val s.taken u name) name event := by
  have hname : (s.lookup u name).1.m_name = name := ((h.names u).getLogger name).2
  rw [← h.force u name, sylarLog, Logger.log, sent, hname]
  by_cases hlevel : value event.m_level ≤ value (s.lookup u name).1.m_level
  · simp only [if_pos hlevel]
  · simp only [if_neg hlevel]

theorem run_prints (acts : List Act) (h : Holds d s.base) : ∃ s', run Y d P acts s = .ok s' ∧
    s'.printed = s.printed ++ expected Y d P s.base.m_val s.base.taken acts := by
  induction acts generalizing s with
  | nil => exact ⟨s, rfl, (List.append_nil _).symm⟩
  | cons a acts ih =>
    -- a statement, and what comes after it
    have hlog : ∀ u name event, ∃ s', run Y d P acts (s.log P u name event) = .ok s' ∧ s'.printed = s.printed ++
        (sent P (inForce d s.base.m_val s.base.taken u name) name event ++
          expected Y d P s.base.m_val s.base.taken acts) := by
      intro u name event
      obtain ⟨s', hrun, hprinted⟩ := ih (s := s.log P u name event) (h.lookup u name)
      refine ⟨s', hrun, hprinted.trans ?_⟩
      rw [← List.append_assoc, ← sylarLog_sent h]
      rfl
    rw [run, List.foldlM_cons]
    cases a with
    | getLogger u name => exact ih (h.lookup u name)
    | log u name event => exact hlog u name event
    | fromString text event =>
      cases hcast : castSet Y text with
      | error e =>
        simp only [exec, expected, hcast]
        exact hlog .log_cpp "root" { event with m_level := .ERROR }
      | ok val =>
        by_cases heq : s.base.m_val = val
        · simp only [exec, expected, hcast, if_pos heq]
          exact ih h
        · simp only [exec, expected, hcast, if_neg heq]
          have h₁ := h.lookup .log_cpp "root"
          obtain ⟨base, hset, hbase, hval, htaken⟩ := h₁.setValue (castSet_wellFormed hcast) heq
          obtain ⟨s', hrun, hprinted⟩ := ih (s := ⟨base, (s.log P .log_cpp "root" (announcement event)).printed⟩) hbase
          refine ⟨s', ?_, hprinted.trans ?_⟩
          · simp only [State.log, hset]
            exact hrun
          · rw [hval, htaken, ← List.append_assoc, ← sylarLog_sent h]
            rfl

/-- From the start the library prints what the definitions say. -/
theorem prints_as_defined (Y : YamlCpp Node) (d : Bool) (P : Printing) (acts : List Act) :
    ∃ s, run Y d P acts ⟨Log.start, []⟩ = .ok s ∧ s.printed = expected Y d P [] [] acts :=
  run_prints acts start_holds

end Sylar.Log.Output
