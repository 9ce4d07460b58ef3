/-
  Sylar.Log.Define — the values of the `logs` configuration variable and how they are
  read from YAML text (sylar/log.cpp).

  yaml-cpp is a parameter: what a node is, and the operations on nodes that the cast
  uses, each of which may throw. A set of definitions is ordered by name.

  Proved: a set read from text is ordered and its appenders have type 1 or 2, whatever
  yaml-cpp answers (`castSet_wellFormed`).
-/

import Sylar.Lib.OrderedSet
import Sylar.Lib.Except
import Mathlib.Data.String.Basic

namespace Sylar

/-- The operations of yaml-cpp in use; an exception is its what(). -/
structure YamlCpp (Node : Type) where
  Load : String → Except String Node
  IsDefined : Node → Bool
  size : Node → Nat
  /-- `node[key]`, with a string and with a number. -/
  get : Node → String → Except String Node
  getIdx : Node → Nat → Except String Node
  asString : Node → Except String String
  /-- `ss << node`. -/
  emit : Node → String

namespace Log

inductive LogLevel where
  | FATAL | ALERT | CRIT | ERROR | WARN | NOTICE | INFO | DEBUG | NOTSET
  deriving DecidableEq, Repr

def LogLevel.FromString (str : String) : LogLevel :=
  if str = "fatal" then .FATAL
  else if str = "alert" then .ALERT
  else if str = "crit" then .CRIT
  else if str = "error" then .ERROR
  else if str = "warn" then .WARN
  else if str = "notice" then .NOTICE
  else if str = "info" then .INFO
  else if str = "debug" then .DEBUG
  else if str = "FATAL" then .FATAL
  else if str = "ALERT" then .ALERT
  else if str = "CRIT" then .CRIT
  else if str = "ERROR" then .ERROR
  else if str = "WARN" then .WARN
  else if str = "NOTICE" then .NOTICE
  else if str = "INFO" then .INFO
  else if str = "DEBUG" then .DEBUG
  else .NOTSET

structure LogAppenderDefine where
  m_type : Int := 0
  m_pattern : String := ""
  m_file : String := ""
  deriving DecidableEq, Repr

structure LogDefine where
  m_name : String := ""
  level : LogLevel := .NOTSET
  m_appenders : List LogAppenderDefine := []
  deriving DecidableEq, Repr

/-- `operator<`. -/
def LogDefine.lt (a b : LogDefine) : Bool := decide (a.m_name < b.m_name)

theorem LogDefine.strictWeak : OrderedSet.StrictWeak LogDefine.lt where
  irrefl _ := by simp [lt]
  trans h h' := by
    simp only [lt, decide_eq_true_eq] at *
    exact h.trans h'

theorem LogDefine.lt_or_lt {a b : LogDefine} : (a.lt b = true ∨ b.lt a = true) ↔ a.m_name ≠ b.m_name := by
  simp only [lt, decide_eq_true_eq]
  exact lt_or_lt_iff_ne

/-! ## LexicalCast from text -/

section Cast

variable {Node : Type} (Y : YamlCpp Node)

/-- `node.IsDefined() ? node.as<std::string>() : ""`. -/
def castText (node : Node) : Except String String :=
  if Y.IsDefined node then Y.asString node else .ok ""

/-- One entry of `appenders`; `none` where the loop continues without it. -/
def castAppender (appender : Node) : Except String (Option LogAppenderDefine) := do
  let type ← Y.asString (← Y.get appender "type")
  if type = "FileLogAppender" then
    let file ← Y.get appender "file"
    if Y.IsDefined file then
      let m_file ← Y.asString file
      return some { m_type := 1, m_file, m_pattern := ← castText Y (← Y.get appender "pattern") }
    else return none
  else if type = "StdoutLogAppender" then
    return some { m_type := 2, m_pattern := ← castText Y (← Y.get appender "pattern") }
  else return none

def castEntries (appenders : Node) : List Nat → Except String (List LogAppenderDefine)
  | [] => return []
  | i :: rest => do
    let lad ← castAppender Y (← Y.getIdx appenders i)
    return lad.toList ++ (← castEntries appenders rest)

def castAppenders (appenders : Node) : Except String (List LogAppenderDefine) :=
  if Y.IsDefined appenders then castEntries Y appenders (List.range (Y.size appenders)) else .ok []

/-- `LexicalCast<std::string, LogDefine>`. -/
def castDefine (val : String) : Except String LogDefine := do
  let node ← Y.Load val
  let name ← Y.get node "name"
  if Y.IsDefined name then
    let m_name ← Y.asString name
    let level ← castText Y (← Y.get node "level")
    let m_appenders ← castAppenders Y (← Y.get node "appenders")
    return { m_name, level := .FromString level, m_appenders }
  else throw "log config name is null"

def castItems (node : Node) : List Nat → List LogDefine → Except String (List LogDefine)
  | [], vec => return vec
  | i :: rest, vec => do
    let define ← castDefine Y (Y.emit (← Y.getIdx node i))
    castItems node rest (OrderedSet.insert LogDefine.lt define vec).2.2

/-- `LexicalCast<std::string, std::set<LogDefine>>`. -/
def castSet (v : String) : Except String (List LogDefine) := do
  let node ← Y.Load v
  castItems Y node (List.range (Y.size node)) []

end Cast

/-! ## What is read -/

/-- A value of the `logs` variable: ordered by name, the appenders of type 1 or 2. -/
structure WellFormed (v : List LogDefine) : Prop where
  sorted : OrderedSet.Sorted LogDefine.lt v
  types : ∀ logDef ∈ v, ∀ lad ∈ logDef.m_appenders, lad.m_type = 1 ∨ lad.m_type = 2

variable {Node : Type} {Y : YamlCpp Node}

theorem castAppender_type {appender : Node} {lad : LogAppenderDefine} (h : castAppender Y appender = .ok (some lad)) :
    lad.m_type = 1 ∨ lad.m_type = 2 := by
  unfold castAppender at h
  obtain ⟨_, -, h⟩ := Except.bind_eq_ok.mp h
  obtain ⟨type, -, h⟩ := Except.bind_eq_ok.mp h
  split at h
  · obtain ⟨file, -, h⟩ := Except.bind_eq_ok.mp h
    split at h
    · obtain ⟨m_file, -, h⟩ := Except.bind_eq_ok.mp h
      obtain ⟨_, -, h⟩ := Except.bind_eq_ok.mp h
      obtain ⟨m_pattern, -, h⟩ := Except.bind_eq_ok.mp h
      cases h
      exact .inl rfl
    · cases h
  · split at h
    · obtain ⟨_, -, h⟩ := Except.bind_eq_ok.mp h
      obtain ⟨m_pattern, -, h⟩ := Except.bind_eq_ok.mp h
      cases h
      exact .inr rfl
    · cases h

theorem castEntries_type {appenders : Node} {is : List Nat} {lads : List LogAppenderDefine}
    (h : castEntries Y appenders is = .ok lads) : ∀ lad ∈ lads, lad.m_type = 1 ∨ lad.m_type = 2 := by
  induction is generalizing lads with
  | nil =>
    cases h
    nofun
  | cons i rest ih =>
    obtain ⟨_, -, h⟩ := Except.bind_eq_ok.mp h
    obtain ⟨lad?, hlad, h⟩ := Except.bind_eq_ok.mp h
    obtain ⟨tail, htail, h⟩ := Except.bind_eq_ok.mp h
    cases h
    intro lad hm
    rcases List.mem_append.mp hm with hm | hm
    · rw [Option.mem_toList] at hm
      rw [hm] at hlad
      exact castAppender_type hlad
    · exact ih htail lad hm

theorem castAppenders_type {appenders : Node} {lads : List LogAppenderDefine}
    (h : castAppenders Y appenders = .ok lads) :
    ∀ lad ∈ lads, lad.m_type = 1 ∨ lad.m_type = 2 := by
  unfold castAppenders at h
  split at h
  · exact castEntries_type h
  · cases h
    nofun

theorem castDefine_type {val : String} {logDef : LogDefine} (h : castDefine Y val = .ok logDef) :
    ∀ lad ∈ logDef.m_appenders, lad.m_type = 1 ∨ lad.m_type = 2 := by
  unfold castDefine at h
  obtain ⟨node, -, h⟩ := Except.bind_eq_ok.mp h
  obtain ⟨name, -, h⟩ := Except.bind_eq_ok.mp h
  split at h
  · obtain ⟨m_name, -, h⟩ := Except.bind_eq_ok.mp h
    obtain ⟨_, -, h⟩ := Except.bind_eq_ok.mp h
    obtain ⟨level, -, h⟩ := Except.bind_eq_ok.mp h
    obtain ⟨appenders, -, h⟩ := Except.bind_eq_ok.mp h
    obtain ⟨m_appenders, hap, h⟩ := Except.bind_eq_ok.mp h
    cases h
    exact castAppenders_type hap
  · cases h

theorem castItems_wellFormed {node : Node} {is : List Nat} {vec v : List LogDefine} (hvec : WellFormed vec)
    (h : castItems Y node is vec = .ok v) : WellFormed v := by
  induction is generalizing vec with
  | nil =>
    cases h
    exact hvec
  | cons i rest ih =>
    obtain ⟨_, -, h⟩ := Except.bind_eq_ok.mp h
    obtain ⟨define, hd, h⟩ := Except.bind_eq_ok.mp h
    refine ih ⟨OrderedSet.insert_sorted LogDefine.strictWeak hvec.sorted, ?_⟩ h
    intro logDef hm
    rcases OrderedSet.mem_of_insert logDef hm with rfl | hm
    · exact castDefine_type hd
    · exact hvec.types logDef hm

theorem castSet_wellFormed {val : String} {v : List LogDefine} (h : castSet Y val = .ok v) : WellFormed v := by
  obtain ⟨node, -, h⟩ := Except.bind_eq_ok.mp h
  exact castItems_wellFormed ⟨.nil, nofun⟩ h

end Log
end Sylar
