/-
  Sylar.Log.Loggers — the loggers under changes of the `logs` configuration variable:
  LogIniter's listener and `ConfigVar::setValue` (sylar/log.cpp, sylar/config.h,
  sylar/singleton.h).

  `Singleton` stands in an unnamed namespace, so every translation unit has a
  LoggerManager of its own. A change hands the stored set and the new one to the listener,
  which applies their difference to the loggers of log.cpp: definitions that are new or
  differ set the level and replace the appenders, names that are gone lose theirs. Then
  the new set is stored. Between changes anyone may call getLogger in any unit, which
  creates the loggers that do not exist there. `d` says whether the environment has the
  argument "d". Formatters are their pattern, the file streams are left out.

  Proved, after any sequence of changes to sets read from text: in log.cpp every logger of
  the stored set has the level and the appenders of its definition, and every other logger
  named before has none (`Inv`); in any other unit the loggers are as their manager made
  them, so that they follow only where the definitions ask for that (`loggers_follow_iff`).
  The next change does not fail.
-/

import Sylar.Lib.Lts
import Sylar.Log.Define
import Mathlib.Logic.Function.Basic

namespace Sylar
namespace Log

inductive AppenderKind where
  | file (m_filename : String)
  | stdout
  deriving DecidableEq, Repr

structure LogAppender where
  kind : AppenderKind
  pattern : String
  deriving DecidableEq, Repr

structure Logger where
  m_name : String
  m_level : LogLevel := .INFO
  m_appenders : List LogAppender := []
  deriving DecidableEq, Repr

def Logger.setLevel (l : Logger) (level : LogLevel) : Logger := { l with m_level := level }
def Logger.addAppender (l : Logger) (appender : LogAppender) : Logger :=
  { l with m_appenders := l.m_appenders ++ [appender] }
def Logger.clearAppenders (l : Logger) : Logger := { l with m_appenders := [] }

/-- The pattern of `LogFormatter{}`. -/
def defaultPattern : String := "%d{%Y-%m-%d %H:%M:%S} [%rms]%T%t%T%N%T%F%T[%p]%T[%c]%T%f:%l%T%m%n"

/-- LoggerManager::m_loggers. -/
abbrev Loggers := String → Option Logger

/-- `LoggerManager()`: the root logger with its stdout appender. -/
def newLoggers : Loggers :=
  Function.update (fun _ => none) "root" (some { m_name := "root", m_appenders := [⟨.stdout, defaultPattern⟩] })

def getLogger (m : Loggers) (name : String) : Logger × Loggers :=
  match m name with
  | some logger => (logger, m)
  | none => ({ m_name := name }, Function.update m name (some { m_name := name }))

inductive Fault where
  | nullAppender
  deriving DecidableEq, Repr

/-! ## The listener -/

def newKind (d : Bool) (lad : LogAppenderDefine) : Except Fault (Option AppenderKind) :=
  if lad.m_type = 1 then .ok (some (.file lad.m_file))
  else if lad.m_type ≠ 0 then .ok (if d then none else some .stdout)
  else .error .nullAppender

def addAppenders (d : Bool) : List LogAppenderDefine → Logger → Except Fault Logger
  | [], logger => return logger
  | lad :: rest, logger => do
    match ← newKind d lad with
    | none => addAppenders d rest logger
    | some kind =>
      let pattern := if lad.m_pattern = "" then defaultPattern else lad.m_pattern
      addAppenders d rest (logger.addAppender ⟨kind, pattern⟩)

def configure (d : Bool) (logDef : LogDefine) (m : Loggers) : Except Fault Loggers := do
  let logger := ((getLogger m logDef.m_name).1.setLevel logDef.level).clearAppenders
  let logger ← addAppenders d logDef.m_appenders logger
  return Function.update (getLogger m logDef.m_name).2 logDef.m_name (some logger)

/-- The loop over new_value. -/
def applyNew (d : Bool) (old : List LogDefine) : List LogDefine → Loggers → Except Fault Loggers
  | [], m => return m
  | logDef :: rest, m => do
    match old[OrderedSet.find LogDefine.lt logDef old]? with
    | none => applyNew d old rest (← configure d logDef m)
    | some it => if logDef = it then applyNew d old rest m else applyNew d old rest (← configure d logDef m)

/-- The loop over old_value. -/
def removeOld (new : List LogDefine) : List LogDefine → Loggers → Loggers
  | [], m => m
  | logDef :: rest, m =>
    match new[OrderedSet.find LogDefine.lt logDef new]? with
    | some _ => removeOld new rest m
    | none =>
      let logger := ((getLogger m logDef.m_name).1.setLevel .NOTSET).clearAppenders
      removeOld new rest (Function.update (getLogger m logDef.m_name).2 logDef.m_name (some logger))

def onChange (d : Bool) (old new : List LogDefine) (m : Loggers) : Except Fault Loggers := do
  let m ← applyNew d old new m
  return removeOld new old m

/-! ## The variable and its changes -/

/-- The translation unit in which `LoggerMgr::GetInstance()` is called. -/
inductive Tu where
  | log_cpp
  | other (i : Nat)
  deriving DecidableEq, Repr

structure State where
  m_val : List LogDefine
  m_loggers : Tu → Loggers
  /-- The values taken so far. -/
  taken : List (List LogDefine)

/-- SYLAR_LOG_NAME(name) in `u`: the logger, and the state with it made. -/
def State.lookup (s : State) (u : Tu) (name : String) : Logger × State :=
  let r := getLogger (s.m_loggers u) name
  (r.1, { s with m_loggers := Function.update s.m_loggers u r.2 })

/-- The listener works on the loggers of log.cpp. -/
def setValue (d : Bool) (val : List LogDefine) (s : State) : Except Fault State :=
  if s.m_val = val then return s
  else do
    let m ← onChange d s.m_val val (s.m_loggers .log_cpp)
    return { s with m_val := val, m_loggers := Function.update s.m_loggers .log_cpp m, taken := val :: s.taken }

inductive Act where
  | getLogger (u : Tu) (name : String)
  | setValue (val : List LogDefine)

/-- The variable is set to what is read from some text. -/
inductive Step {Node : Type} (Y : YamlCpp Node) (d : Bool) (s : State) : Act → State → Prop
  | getLogger (u : Tu) (name : String) : Step Y d s (.getLogger u name) (s.lookup u name).2
  | setValue (text : String) (val : List LogDefine) (s' : State) :
      castSet Y text = .ok val → setValue d val s = .ok s' →
      Step Y d s (.setValue val) s'

/-- The empty set; each unit has what its manager starts with. -/
def start : State := ⟨[], fun _ => newLoggers, []⟩

/-! ## What a change does -/

/-- The appender a definition asks for. -/
def appenderOf (lad : LogAppenderDefine) : LogAppender where
  kind := if lad.m_type = 1 then .file lad.m_file else .stdout
  pattern := if lad.m_pattern = "" then defaultPattern else lad.m_pattern

/-- With "d" only the file appenders are made. -/
def appendersOf (d : Bool) (logDef : LogDefine) : List LogAppender :=
  (logDef.m_appenders.filter fun lad => lad.m_type = 1 || !d).map appenderOf

/-- The logger has the level and the appenders of its definition. -/
def Follows (d : Bool) (m : Loggers) (logDef : LogDefine) : Prop :=
  ∃ logger, m logDef.m_name = some logger ∧ logger.m_level = logDef.level ∧ logger.m_appenders = appendersOf d logDef

def Cleared (m : Loggers) (name : String) : Prop :=
  ∃ logger, m name = some logger ∧ logger.m_level = .NOTSET ∧ logger.m_appenders = []

variable {Node : Type} {Y : YamlCpp Node} {d : Bool} {m m' : Loggers} {old new : List LogDefine} {logDef : LogDefine}
  {name : String} {s s' : State} {a : Act}

theorem getLogger_other (h : name ≠ logDef.m_name) : (getLogger m logDef.m_name).2 name = m name := by
  unfold getLogger
  split
  · rfl
  · exact Function.update_of_ne h ..

theorem addAppenders_ok {lads : List LogAppenderDefine} (h : ∀ lad ∈ lads, lad.m_type = 1 ∨ lad.m_type = 2)
    (logger : Logger) : addAppenders d lads logger = .ok { logger with
      m_appenders := logger.m_appenders ++ (lads.filter fun lad => lad.m_type = 1 || !d).map appenderOf } := by
  induction lads generalizing logger with
  | nil => simp [addAppenders, pure, Except.pure]
  | cons lad rest ih =>
    have ih' := ih fun x hx => h x (.tail _ hx)
    rcases h lad (.head _) with h1 | h2
    · have hk : newKind d lad = .ok (some (.file lad.m_file)) := if_pos h1
      rw [addAppenders, hk, Except.ok_bind_eq]
      simp [ih', Logger.addAppender, h1, appenderOf]
    · have hk : newKind d lad = .ok (if d then none else some .stdout) := by simp [newKind, h2]
      rw [addAppenders, hk, Except.ok_bind_eq]
      cases d with
      | true => simp [ih', h2]
      | false => simp [ih', Logger.addAppender, h2, appenderOf]

theorem configure_ok (h : ∀ lad ∈ logDef.m_appenders, lad.m_type = 1 ∨ lad.m_type = 2) :
    ∃ m', configure d logDef m = .ok m' ∧ Follows d m' logDef ∧ ∀ name, name ≠ logDef.m_name → m' name = m name := by
  let logger := ((getLogger m logDef.m_name).1.setLevel logDef.level).clearAppenders
  have hc : configure d logDef m = .ok (Function.update (getLogger m logDef.m_name).2 logDef.m_name
      (some { logger with m_appenders := appendersOf d logDef })) := by
    rw [configure, addAppenders_ok h, Except.ok_bind_eq]
    rfl
  refine ⟨_, hc, ⟨_, Function.update_self .., rfl, rfl⟩, ?_⟩
  intro name hn
  rw [Function.update_of_ne hn, getLogger_other hn]

theorem Follows.congr (h : Follows d m logDef) (he : m' logDef.m_name = m logDef.m_name) : Follows d m' logDef := by
  unfold Follows
  rw [he]
  exact h

/-! ## The two loops -/

theorem find_name (hs : OrderedSet.Sorted LogDefine.lt old) (logDef : LogDefine) :
    (∃ it ∈ old, it.m_name = logDef.m_name ∧ old[OrderedSet.find LogDefine.lt logDef old]? = some it) ∨
      (∀ it ∈ old, it.m_name ≠ logDef.m_name) ∧ old[OrderedSet.find LogDefine.lt logDef old]? = none := by
  cases hf : old[OrderedSet.find LogDefine.lt logDef old]? with
  | some it =>
    obtain ⟨hm, h1, h2⟩ := OrderedSet.find_some hf
    refine .inl ⟨it, hm, ?_, rfl⟩
    by_contra hne
    rcases LogDefine.lt_or_lt.mpr hne with h | h
    · rw [h2] at h
      cases h
    · rw [h1] at h
      cases h
  | none =>
    refine .inr ⟨?_, rfl⟩
    intro it hm he
    exact LogDefine.lt_or_lt.mp (OrderedSet.find_none LogDefine.strictWeak hs hf it hm) he.symm

/-- The loop over new_value: the loggers named in it follow it, the others stay. -/
theorem applyNew_ok (hold : OrderedSet.Sorted LogDefine.lt old) (hs : OrderedSet.Sorted LogDefine.lt new)
    (ht : ∀ logDef ∈ new, ∀ lad ∈ logDef.m_appenders, lad.m_type = 1 ∨ lad.m_type = 2)
    (hf : ∀ logDef ∈ new, logDef ∈ old → Follows d m logDef) :
    ∃ m', applyNew d old new m = .ok m' ∧ (∀ logDef ∈ new, Follows d m' logDef) ∧
      ∀ name, (∀ logDef ∈ new, logDef.m_name ≠ name) → m' name = m name := by
  induction new generalizing m with
  | nil => exact ⟨m, rfl, nofun, fun _ _ => rfl⟩
  | cons x rest ih =>
    obtain ⟨hx, hrest⟩ := List.pairwise_cons.mp hs
    have hne : ∀ y ∈ rest, y.m_name ≠ x.m_name := fun y hy => (LogDefine.lt_or_lt.mp (.inl (hx y hy))).symm
    -- the loop goes on from loggers where `x` is followed and only its logger may differ
    have hnext : ∀ m₁, Follows d m₁ x → (∀ name, name ≠ x.m_name → m₁ name = m name) →
        ∃ m', applyNew d old rest m₁ = .ok m' ∧ (∀ logDef ∈ x :: rest, Follows d m' logDef) ∧
          ∀ name, (∀ logDef ∈ x :: rest, logDef.m_name ≠ name) → m' name = m name := by
      intro m₁ hfx hm₁
      obtain ⟨m', hok, hfol, hkeep⟩ := ih (m := m₁) hrest (fun y hy => ht y (.tail _ hy))
        fun y hy hyo => (hf y (.tail _ hy) hyo).congr (hm₁ _ (hne y hy))
      refine ⟨m', hok, ?_, ?_⟩
      · intro y hy
        rcases List.mem_cons.mp hy with rfl | hy
        · exact hfx.congr (hkeep _ hne)
        · exact hfol y hy
      · intro name hn
        rw [hkeep name fun y hy => hn y (.tail _ hy), hm₁ name (hn x (.head _)).symm]
    obtain ⟨m₁, hc, hfx, hm₁⟩ := configure_ok (d := d) (m := m) (ht x (.head _))
    rcases find_name hold x with ⟨it, hit, -, hget⟩ | ⟨-, hget⟩
    · rw [applyNew, hget]
      by_cases he : x = it
      · -- unchanged: the logger follows it already
        simp only [he, if_true]
        exact he ▸ hnext m (hf x (.head _) (he ▸ hit)) fun _ _ => rfl
      · simp only [he, if_false, hc, Except.ok_bind_eq]
        exact hnext m₁ hfx hm₁
    · rw [applyNew, hget, hc, Except.ok_bind_eq]
      exact hnext m₁ hfx hm₁

/-- The loop over old_value clears the loggers that new_value does not name. -/
theorem removeOld_cleared (hn : OrderedSet.Sorted LogDefine.lt new) (hnew : ∀ it ∈ new, it.m_name ≠ name)
    (h : Cleared m name ∨ ∃ logDef ∈ old, logDef.m_name = name) : Cleared (removeOld new old m) name := by
  induction old generalizing m with
  | nil => exact h.resolve_right (by simp)
  | cons x rest ih =>
    rcases find_name hn x with ⟨it, hit, he, hget⟩ | ⟨-, hget⟩
    · rw [removeOld, hget]
      apply ih
      refine h.imp id fun ⟨y, hy, hyn⟩ => ⟨y, (List.mem_cons.mp hy).resolve_left ?_, hyn⟩
      intro heq
      subst heq
      exact hnew it hit (he.trans hyn)
    · rw [removeOld, hget]
      apply ih
      by_cases hx : x.m_name = name
      · left
        rw [← hx]
        exact ⟨_, Function.update_self .., rfl, rfl⟩
      · refine h.imp ?_ fun ⟨y, hy, hyn⟩ => ⟨y, (List.mem_cons.mp hy).resolve_left fun e => hx (e ▸ hyn), hyn⟩
        intro ⟨logger, hl, hc⟩
        refine ⟨logger, ?_, hc⟩
        rw [Function.update_of_ne (Ne.symm hx), getLogger_other (Ne.symm hx), hl]

theorem removeOld_other (hn : OrderedSet.Sorted LogDefine.lt new)
    (h : (∃ it ∈ new, it.m_name = name) ∨ ∀ logDef ∈ old, logDef.m_name ≠ name) :
    removeOld new old m name = m name := by
  induction old generalizing m with
  | nil => rfl
  | cons x rest ih =>
    have ih' := fun m => ih (m := m) (h.imp id fun hall y hy => hall y (.tail _ hy))
    rcases find_name hn x with ⟨it, hit, he, hget⟩ | ⟨hno, hget⟩
    · rw [removeOld, hget]
      exact ih' m
    · have hx : name ≠ x.m_name := by
        intro heq
        subst heq
        rcases h with ⟨it, hit, he⟩ | hall
        · exact hno it hit he
        · exact hall x (.head _) rfl
      rw [removeOld, hget]
      simp only
      rw [ih', Function.update_of_ne hx, getLogger_other hx]

/-! ## What a manager starts with -/

/-- What a logger has that nobody configured. -/
def unconfigured (name : String) : LogLevel × List LogAppender :=
  (.INFO, if name = "root" then [⟨.stdout, defaultPattern⟩] else [])

/-- The logger is as the manager made it, or not there yet. -/
def Untouched (m : Loggers) (name : String) : Prop :=
  m name = newLoggers name ∨ (name ≠ "root" ∧ m name = some { m_name := name })

theorem newLoggers_root : newLoggers "root" = some { m_name := "root", m_appenders := [⟨.stdout, defaultPattern⟩] } :=
  Function.update_self ..

theorem newLoggers_other (h : name ≠ "root") : newLoggers name = none := Function.update_of_ne h ..

theorem getLogger_of_some {logger : Logger} (h : m name = some logger) : (getLogger m name).1 = logger := by
  simp only [getLogger, h]

theorem Untouched.lookup (h : Untouched m name) :
    ((getLogger m name).1.m_level, (getLogger m name).1.m_appenders) = unconfigured name := by
  unfold unconfigured
  rcases h with h | ⟨hne, h⟩
  · by_cases hroot : name = "root"
    · subst hroot
      rw [getLogger_of_some (h.trans newLoggers_root), if_pos rfl]
    · simp only [getLogger, h.trans (newLoggers_other hroot), if_neg hroot]
  · rw [getLogger_of_some h, if_neg hne]

/-- Looking a logger up makes one only where there is none. -/
theorem getLogger_some {logger : Logger} {key : String} (h : m name = some logger) :
    (getLogger m key).2 name = some logger := by
  unfold getLogger
  split
  · exact h
  · rename_i hnone
    have hne : name ≠ key := by
      intro heq
      subst heq
      rw [h] at hnone
      cases hnone
    exact (Function.update_of_ne hne ..).trans h

theorem Untouched.getLogger (h : Untouched m name) (key : String) : Untouched (getLogger m key).2 name := by
  cases hm : m key with
  | some logger =>
    simp only [Log.getLogger, hm]
    exact h
  | none =>
    simp only [Log.getLogger, hm]
    by_cases hname : name = key
    · subst hname
      refine .inr ⟨fun hroot => ?_, Function.update_self ..⟩
      rcases h with heq | ⟨hne, -⟩
      · rw [hm, hroot, newLoggers_root] at heq
        cases heq
      · exact hne hroot
    · unfold Untouched
      rw [Function.update_of_ne hname]
      exact h

/-! ## All changes -/

structure Inv (d : Bool) (s : State) : Prop where
  wellFormed : WellFormed s.m_val
  follows : ∀ logDef ∈ s.m_val, Follows d (s.m_loggers .log_cpp) logDef
  cleared : ∀ val ∈ s.taken, ∀ logDef ∈ val, (∀ it ∈ s.m_val, it.m_name ≠ logDef.m_name) →
    Cleared (s.m_loggers .log_cpp) logDef.m_name
  elsewhere : ∀ i name, Untouched (s.m_loggers (.other i)) name

theorem setValue_ok {val : List LogDefine} (h : Inv d s) (hv : WellFormed val) :
    ∃ s', setValue d val s = .ok s' ∧ Inv d s' ∧ s'.m_val = val := by
  by_cases he : s.m_val = val
  · exact ⟨s, if_pos he, h, he⟩
  · obtain ⟨m₁, hok, hfol, hkeep⟩ := applyNew_ok (d := d) (m := s.m_loggers .log_cpp) h.wellFormed.sorted hv.sorted
      hv.types fun logDef _ hold => h.follows logDef hold
    refine ⟨{ s with m_val := val, m_loggers := Function.update s.m_loggers .log_cpp (removeOld val s.m_val m₁)
                     taken := val :: s.taken }, ?_, ⟨hv, ?_, ?_, ?_⟩, rfl⟩
    · rw [setValue, if_neg he, onChange, hok]
      rfl
    · intro logDef hl
      simp only [Function.update_self]
      exact (hfol logDef hl).congr (removeOld_other hv.sorted (.inl ⟨logDef, hl, rfl⟩))
    · intro v hmem logDef hl hno
      simp only [Function.update_self]
      rcases List.mem_cons.mp hmem with rfl | hmem
      · exact absurd rfl (hno logDef hl)
      · apply removeOld_cleared hv.sorted hno
        by_cases hcur : ∃ x ∈ s.m_val, x.m_name = logDef.m_name
        · exact .inr hcur
        · obtain ⟨logger, hlog, hc⟩ := h.cleared v hmem logDef hl fun x hx hxn => hcur ⟨x, hx, hxn⟩
          refine .inl ⟨logger, ?_, hc⟩
          rw [hkeep _ hno, hlog]
    · intro i name
      simp only [Function.update_of_ne (by simp : Tu.other i ≠ .log_cpp)]
      exact h.elsewhere i name

theorem start_inv : Inv d start :=
  ⟨⟨.nil, by simp [start]⟩, by simp [start], by simp [start], fun _ _ => .inl rfl⟩

theorem lookup_inv (h : Inv d s) (u : Tu) (key : String) : Inv d (s.lookup u key).2 := by
  cases u with
  | log_cpp =>
    refine ⟨h.wellFormed, ?_, ?_, ?_⟩
    · intro logDef hl
      obtain ⟨logger, hlog, hf⟩ := h.follows logDef hl
      refine ⟨logger, ?_, hf⟩
      simp only [State.lookup, Function.update_self]
      exact getLogger_some hlog
    · intro val hv logDef hl hno
      obtain ⟨logger, hlog, hc⟩ := h.cleared val hv logDef hl hno
      refine ⟨logger, ?_, hc⟩
      simp only [State.lookup, Function.update_self]
      exact getLogger_some hlog
    · intro i name
      simp only [State.lookup, Function.update_of_ne (by simp : Tu.other i ≠ .log_cpp)]
      exact h.elsewhere i name
  | other j =>
    have hlog : (s.lookup (.other j) key).2.m_loggers .log_cpp = s.m_loggers .log_cpp := by
      simp only [State.lookup, Function.update_of_ne (by simp : Tu.log_cpp ≠ .other j)]
    refine ⟨h.wellFormed, fun logDef hl => hlog ▸ h.follows logDef hl,
      fun val hv logDef hl hno => hlog ▸ h.cleared val hv logDef hl hno, ?_⟩
    intro i name
    by_cases hi : i = j
    · subst hi
      simp only [State.lookup, Function.update_self]
      exact (h.elsewhere i name).getLogger key
    · simp only [State.lookup, Function.update_of_ne (by simpa using hi : Tu.other i ≠ .other j)]
      exact h.elsewhere i name

theorem step_inv (h : Inv d s) (hst : Step Y d s a s') : Inv d s' := by
  cases hst with
  | getLogger u key => exact lookup_inv h u key
  | setValue text val _ hcast hset =>
    obtain ⟨s'', hok, hinv, -⟩ := setValue_ok h (castSet_wellFormed hcast)
    rw [hset] at hok
    cases hok
    exact hinv

/-! ## What a lookup finds -/

/-- Looked up in `u`, every logger of the stored value has the level of its definition and
    one appender per listed appender, in order, with its kind, file and pattern; every
    other logger named before has none. -/
structure Followed (s : State) (u : Tu) : Prop where
  current : ∀ logDef ∈ s.m_val, (s.lookup u logDef.m_name).1.m_level = logDef.level ∧
    (s.lookup u logDef.m_name).1.m_appenders = logDef.m_appenders.map appenderOf
  gone : ∀ val ∈ s.taken, ∀ logDef ∈ val, (∀ it ∈ s.m_val, it.m_name ≠ logDef.m_name) →
    (s.lookup u logDef.m_name).1.m_appenders = []

/-- The definitions ask for what a logger has that nobody configured. -/
structure Unconfigured (s : State) : Prop where
  current : ∀ logDef ∈ s.m_val, (logDef.level, logDef.m_appenders.map appenderOf) = unconfigured logDef.m_name
  gone : ∀ val ∈ s.taken, ∀ logDef ∈ val, (∀ it ∈ s.m_val, it.m_name ≠ logDef.m_name) → logDef.m_name ≠ "root"

theorem appendersOf_false (logDef : LogDefine) : appendersOf false logDef = logDef.m_appenders.map appenderOf := by
  rw [appendersOf, List.filter_eq_self.mpr]
  simp

theorem Inv.followed (h : Inv false s) : Followed s .log_cpp := by
  refine ⟨?_, ?_⟩
  · intro logDef hl
    obtain ⟨logger, hlog, hlv, hap⟩ := h.follows logDef hl
    rw [show (s.lookup .log_cpp logDef.m_name).1 = logger from getLogger_of_some hlog]
    exact ⟨hlv, hap.trans (appendersOf_false logDef)⟩
  · intro val hv logDef hl hno
    obtain ⟨logger, hlog, -, hap⟩ := h.cleared val hv logDef hl hno
    rw [show (s.lookup .log_cpp logDef.m_name).1 = logger from getLogger_of_some hlog]
    exact hap

theorem Inv.followed_other_iff (h : Inv false s) (i : Nat) : Followed s (.other i) ↔ Unconfigured s := by
  have hlook : ∀ name, (s.lookup (.other i) name).1.m_level = .INFO ∧
      (s.lookup (.other i) name).1.m_appenders = (unconfigured name).2 := fun name =>
    Prod.mk_inj.mp (h.elsewhere i name).lookup
  have hgone : ∀ name, (unconfigured name).2 = [] ↔ name ≠ "root" := by
    intro name
    unfold unconfigured
    split <;> simp [*]
  constructor
  · intro hf
    refine ⟨fun logDef hl => ?_, fun val hv logDef hl hno => ?_⟩
    · obtain ⟨hlv, hap⟩ := hf.current logDef hl
      exact Prod.ext (hlv.symm.trans (hlook _).1) (hap.symm.trans (hlook _).2)
    · exact (hgone _).mp ((hlook _).2.symm.trans (hf.gone val hv logDef hl hno))
  · intro hu
    refine ⟨fun logDef hl => ?_, fun val hv logDef hl hno => ?_⟩
    · obtain ⟨hlv, hap⟩ := Prod.ext_iff.mp (hu.current logDef hl)
      exact ⟨(hlook _).1.trans hlv.symm, (hlook _).2.trans hap.symm⟩
    · exact (hlook _).2.trans ((hgone _).mpr (hu.gone val hv logDef hl hno))

/-- Without "d", after any changes: the loggers that a lookup finds follow the definitions
    exactly when it is made in log.cpp, or the definitions ask for what they have anyway.
    The next change does not fail. -/
theorem loggers_follow_iff (h : Lts.Reach (· = start) (Step Y false) s) :
    (∀ u, Followed s u ↔ u = .log_cpp ∨ Unconfigured s) ∧
    ∀ text val, castSet Y text = .ok val → ∃ s', setValue false val s = .ok s' ∧ s'.m_val = val := by
  have hinv : Inv false s := h.inv (fun s hs => hs ▸ start_inv) fun _ _ _ => step_inv
  refine ⟨fun u => ?_, fun text val hcast => ?_⟩
  · cases u with
    | log_cpp => exact ⟨fun _ => .inl rfl, fun _ => hinv.followed⟩
    | other i => simpa using hinv.followed_other_iff i
  · obtain ⟨s', hok, -, hv⟩ := setValue_ok hinv (castSet_wellFormed hcast)
    exact ⟨s', hok, hv⟩

/-! ## A run -/

/-- A node with the text it is emitted as. -/
inductive Doc where
  | undefined
  | scalar (text : String)
  | seq (text : String) (items : List Doc)
  | map (text : String) (fields : List (String × Doc))

def Doc.text : Doc → String
  | .undefined => ""
  | .scalar text => text
  | .seq text _ => text
  | .map text _ => text

/-- yaml-cpp on the texts of `docs`. -/
def yaml (docs : List Doc) : YamlCpp Doc where
  Load text := match docs.find? (·.text = text) with
    | some doc => .ok doc
    | none => .error "yaml-cpp: error"
  IsDefined
    | .undefined => false
    | _ => true
  size
    | .seq _ items => items.length
    | .map _ fields => fields.length
    | _ => 0
  get node key := match node with
    | .map _ fields => .ok ((fields.lookup key).getD .undefined)
    | .scalar _ => .error "operator[] call on a scalar"
    | _ => .ok .undefined
  getIdx node i := match node with
    | .seq _ items => .ok (items.getD i .undefined)
    | .scalar _ => .error "operator[] call on a scalar"
    | _ => .ok .undefined
  asString
    | .scalar text => .ok text
    | _ => .error "bad conversion"
  emit := Doc.text

/-- root to a file, system to stdout. -/
def rootDoc : Doc := .map "name: root\nlevel: warn\nappenders:\n  - type: FileLogAppender\n    file: root.txt"
  [("name", .scalar "root"), ("level", .scalar "warn"), ("appenders", .seq "- type: FileLogAppender\n  file: root.txt"
    [.map "type: FileLogAppender\nfile: root.txt" [("type", .scalar "FileLogAppender"), ("file", .scalar "root.txt")]])]

def systemDoc : Doc := .map "name: system\nlevel: debug\nappenders:\n  - type: StdoutLogAppender\n    pattern: \"%m%n\""
  [("name", .scalar "system"), ("level", .scalar "debug"),
    ("appenders", .seq "- type: StdoutLogAppender\n  pattern: \"%m%n\""
      [.map "type: StdoutLogAppender\npattern: \"%m%n\""
        [("type", .scalar "StdoutLogAppender"), ("pattern", .scalar "%m%n")]])]

/-- Both, then system alone. -/
def bothDoc : Doc := .seq
  ("- name: root\n  level: warn\n  appenders:\n    - type: FileLogAppender\n      file: root.txt\n" ++
    "- name: system\n  level: debug\n  appenders:\n    - type: StdoutLogAppender\n      pattern: \"%m%n\"")
  [rootDoc, systemDoc]

def oneDoc : Doc := .seq
  "- name: system\n  level: debug\n  appenders:\n    - type: StdoutLogAppender\n      pattern: \"%m%n\"" [systemDoc]

def logsYaml : YamlCpp Doc := yaml [bothDoc, oneDoc, rootDoc, systemDoc]

def rootDefine : LogDefine := ⟨"root", .WARN, [⟨1, "", "root.txt"⟩]⟩
def systemDefine : LogDefine := ⟨"system", .DEBUG, [⟨2, "%m%n", ""⟩]⟩

theorem setValue_taken {val : List LogDefine} (hne : s.m_val ≠ val) (h : setValue d val s = .ok s') :
    s'.taken = val :: s.taken := by
  rw [setValue, if_neg hne] at h
  obtain ⟨_, -, h⟩ := Except.bind_eq_ok.mp h
  cases h
  rfl

theorem castSet_both : castSet logsYaml bothDoc.text = .ok [rootDefine, systemDefine] := by decide +kernel

/-- root and system are configured. -/
theorem both_run : ∃ s, Lts.Reach (· = start) (Step logsYaml false) s ∧ s.m_val = [rootDefine, systemDefine] ∧
    s.taken = [[rootDefine, systemDefine]] := by
  obtain ⟨s, hset, -, hval⟩ := setValue_ok (d := false) start_inv (castSet_wellFormed castSet_both)
  exact ⟨s, .step _ (.init rfl) (.setValue _ _ _ castSet_both hset), hval, setValue_taken (by decide) hset⟩

/-- Then root is taken out. -/
theorem loggers_follow_iff_rootRemoved : ∃ s, Lts.Reach (· = start) (Step logsYaml false) s ∧ s.m_val = [systemDefine] ∧
    (s.lookup .log_cpp "root").1.m_appenders = [] ∧ (s.lookup .log_cpp "system").1.m_level = .DEBUG ∧
    (s.lookup .log_cpp "system").1.m_appenders = [⟨.stdout, "%m%n"⟩] := by
  have hone : castSet logsYaml oneDoc.text = .ok [systemDefine] := by decide +kernel
  obtain ⟨s1, h1, hval1, htaken1⟩ := both_run
  obtain ⟨s2, hset2, hval2⟩ := (loggers_follow_iff h1).2 _ _ hone
  have h2 : Lts.Reach (· = start) (Step logsYaml false) s2 := .step _ h1 (.setValue _ _ _ hone hset2)
  have htaken : s2.taken = [[systemDefine], [rootDefine, systemDefine]] := by
    rw [setValue_taken (by rw [hval1]; decide) hset2, htaken1]
  obtain ⟨hcur, hgone⟩ := ((loggers_follow_iff h2).1 .log_cpp).mpr (.inl rfl)
  refine ⟨s2, h2, hval2, ?_, hcur systemDefine (by simp [hval2])⟩
  apply hgone [rootDefine, systemDefine] (by simp [htaken]) rootDefine (.head _)
  rw [hval2]
  decide

/-- Looked up in another unit, system is as it was before the change: INFO, and without an
    appender. -/
theorem other_unit_unconfigured : ∃ s, Lts.Reach (· = start) (Step logsYaml false) s ∧
    s.m_val = [rootDefine, systemDefine] ∧ (s.lookup (.other 0) "system").1 = { m_name := "system" } ∧
    ¬ Followed s (.other 0) := by
  have hset : ∃ s, setValue false [rootDefine, systemDefine] start = .ok s ∧ s.m_val = [rootDefine, systemDefine] ∧
      (s.lookup (.other 0) "system").1 = { m_name := "system" } := ⟨_, rfl, rfl, rfl⟩
  obtain ⟨s, hset, hval, hlook⟩ := hset
  refine ⟨s, .step _ (.init rfl) (.setValue _ _ _ castSet_both hset), hval, hlook, fun hf => ?_⟩
  have hlevel := (hf.current systemDefine (by simp [hval])).1
  rw [show systemDefine.m_name = "system" from rfl, hlook] at hlevel
  cases hlevel

end Log
end Sylar
