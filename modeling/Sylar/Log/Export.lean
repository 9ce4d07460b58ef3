/-
  Sylar.Log.Export — the loggers written as YAML and read back (`toYamlString` of the
  appenders, of Logger and LoggerManager, and the LexicalCasts of LogDefine,
  sylar/log.cpp).

  Two encoders and one decoder: the loggers write themselves, the values of the `logs`
  variable are written by LexicalCast, and both are read as a set of definitions.
  Formatters are their pattern. Assumed of yaml-cpp (`Faithful`): a node built from
  scalars, sequences and maps is found again by loading what is emitted of it, and its
  members by index and by key.

  Proved, of every manager that getLogger, setLevel, addAppender and clearAppenders make
  (`export_import`): reading the manager's text gives one definition for each logger, in
  the order of the names, with its level, its appenders, and what the listener would make
  of them; and writing and reading these definitions gives them again.
-/

import Sylar.Log.Formatter
import Sylar.Log.Loggers
import Sylar.Log.Appenders
import Sylar.Config.LexicalCast

namespace Sylar

/-- And a scalar node: `node = text`. -/
structure YamlScalars (Node : Type) extends YamlNodes Node where
  scalar : String → Node

/-- The nodes that the encoders build. -/
inductive YamlScalars.Made {Node : Type} (Y : YamlScalars Node) : Node → Prop where
  | scalar (text : String) : Made Y (Y.scalar text)
  | sequence {nodes : List Node} : (∀ node ∈ nodes, Made Y node) → Made Y (Y.sequence nodes)
  | map {entries : List (String × Node)} : (entries.map Prod.fst).Nodup → (∀ e ∈ entries, Made Y e.2) →
      Made Y (Y.map entries)

/-- Distinct keys, and built values. -/
structure YamlScalars.Fields {Node : Type} (Y : YamlScalars Node) (entries : List (String × Node)) : Prop where
  nodup : (entries.map Prod.fst).Nodup
  made : ∀ e ∈ entries, Y.Made e.2

theorem YamlScalars.Fields.map {Node : Type} {Y : YamlScalars Node} {entries : List (String × Node)}
    (h : Y.Fields entries) : Y.Made (Y.map entries) := .map h.nodup h.made

structure YamlScalars.Faithful {Node : Type} (Y : YamlScalars Node) : Prop where
  load_emit : ∀ node, Y.Made node → Y.Load (Y.emit node) = .ok node
  isDefined : ∀ node, Y.Made node → Y.IsDefined node = true
  asString_scalar : ∀ text, Y.asString (Y.scalar text) = .ok text
  size_sequence : ∀ nodes, (∀ node ∈ nodes, Y.Made node) → Y.size (Y.sequence nodes) = nodes.length
  getIdx_sequence : ∀ nodes i, (∀ node ∈ nodes, Y.Made node) → (h : i < nodes.length) →
    Y.getIdx (Y.sequence nodes) i = .ok nodes[i]
  get_mem : ∀ entries, Y.Fields entries → ∀ e ∈ entries, Y.get (Y.map entries) e.1 = .ok e.2
  get_missing : ∀ entries, Y.Fields entries → ∀ key ∉ entries.map Prod.fst,
    ∃ node, Y.get (Y.map entries) key = .ok node ∧ Y.IsDefined node = false

namespace Log
namespace Export

open LexicalCast (StdMap lessKey lookup_of_mem)

/-! ## The loggers -/

/-- `m_defaultFormatter` is LogFormatter{}. -/
structure Appender where
  kind : AppenderKind
  m_formatter : Option String := none
  deriving DecidableEq, Repr

def Appender.getPattern (appender : Appender) : String := appender.m_formatter.getD defaultPattern

structure Logger where
  m_name : String
  m_level : LogLevel := .INFO
  m_appenders : List Appender := []
  deriving DecidableEq, Repr

def Logger.setLevel (level : LogLevel) (logger : Logger) : Logger := { logger with m_level := level }
def Logger.addAppender (appender : Appender) (logger : Logger) : Logger :=
  { logger with m_appenders := logger.m_appenders ++ [appender] }
def Logger.clearAppenders (logger : Logger) : Logger := { logger with m_appenders := [] }

/-- Every logger is stored under its name, and root stays. -/
structure LoggerManager where
  m_loggers : StdMap Logger
  named : ∀ e ∈ m_loggers.entries, e.2.m_name = e.1
  root : "root" ∈ m_loggers.entries.map Prod.fst

/-- `LoggerManager()`. -/
def LoggerManager.init : LoggerManager where
  m_loggers := ⟨[("root", { m_name := "root", m_appenders := [{ kind := .stdout }] })], List.pairwise_singleton _ _⟩
  named := by simp
  root := by simp

theorem apart_of_lookup {α : Type} {entries : List (String × α)} {name : String} (value : α)
    (h : entries.lookup name = none) : OrderedSet.Apart lessKey (name, value) entries := by
  intro e he
  rw [List.lookup_eq_none_iff] at h
  have hne : name ≠ e.1 := by simpa using h e he
  simpa [lessKey] using hne.lt_or_gt

def LoggerManager.getLogger (m : LoggerManager) (name : String) : LoggerManager :=
  match h : m.m_loggers.entries.lookup name with
  | some _ => m
  | none =>
    have hmem := OrderedSet.mem_insert (apart_of_lookup ({ m_name := name } : Logger) h)
    { m_loggers := ⟨(OrderedSet.insert lessKey (name, { m_name := name }) m.m_loggers.entries).2.2,
        OrderedSet.insert_sorted LexicalCast.lessKey_strictWeak m.m_loggers.sorted⟩
      named := by
        intro e he
        rcases (hmem e).mp he with rfl | he
        · rfl
        · exact m.named e he
      root := by
        obtain ⟨e, he, hroot⟩ := List.mem_map.mp m.root
        exact List.mem_map.mpr ⟨e, (hmem e).mpr (.inr he), hroot⟩ }

def changed (name : String) (f : Logger → Logger) (e : String × Logger) : String × Logger :=
  (e.1, if e.1 = name then f e.2 else e.2)

/-- The logger that is stored under a name is changed, its name kept. -/
def LoggerManager.modify (m : LoggerManager) (name : String) (f : Logger → Logger)
    (hf : ∀ logger, (f logger).m_name = logger.m_name) : LoggerManager where
  m_loggers := ⟨m.m_loggers.entries.map (changed name f), List.pairwise_map.mpr m.m_loggers.sorted⟩
  named := by
    intro e he
    obtain ⟨old, hold, rfl⟩ := List.mem_map.mp he
    simp only [changed]
    split
    · exact (hf old.2).trans (m.named old hold)
    · exact m.named old hold
  root := by
    have hkeys : (m.m_loggers.entries.map (changed name f)).map Prod.fst = m.m_loggers.entries.map Prod.fst := by
      rw [List.map_map]
      rfl
    rw [hkeys]
    exact m.root

/-- What is called on the manager, and on the logger it returns. -/
inductive Act where
  | getLogger (name : String)
  | setLevel (name : String) (level : LogLevel)
  | addAppender (name : String) (appender : Appender)
  | clearAppenders (name : String)
  deriving DecidableEq, Repr

def LoggerManager.step (m : LoggerManager) : Act → LoggerManager
  | .getLogger name => m.getLogger name
  | .setLevel name level => (m.getLogger name).modify name (·.setLevel level) fun _ => rfl
  | .addAppender name appender => (m.getLogger name).modify name (·.addAppender appender) fun _ => rfl
  | .clearAppenders name => (m.getLogger name).modify name (·.clearAppenders) fun _ => rfl

/-! ## The encoders -/

section Encode

variable {Node : Type} (Y : YamlScalars Node)

/-- `node[key].push_back` of each: without members the key is not there. -/
def pushed (key : String) (nodes : List Node) : List (String × Node) :=
  if nodes = [] then [] else [(key, Y.sequence nodes)]

def Appender.fields (appender : Appender) : List (String × Node) :=
  match appender.kind with
  | .stdout => [("type", Y.scalar "StdoutLogAppender"), ("pattern", Y.scalar appender.getPattern)]
  | .file m_filename => [("type", Y.scalar "FileLogAppender"), ("file", Y.scalar m_filename),
      ("pattern", Y.scalar appender.getPattern)]

/-- `StdoutLogAppender::toYamlString` and `FileLogAppender::toYamlString`. -/
def Appender.toYamlString (appender : Appender) : String := Y.emit (Y.map (appender.fields Y))

/-- The fields of a logger, and of a definition. -/
def loggerFields (m_name : String) (level : LogLevel) (appenders : List Node) : List (String × Node) :=
  [("name", Y.scalar m_name), ("level", Y.scalar level.ToString)] ++ pushed Y "appenders" appenders

def Logger.toYamlString (logger : Logger) : Except String String := do
  let appenders ← logger.m_appenders.mapM fun appender => Y.Load (appender.toYamlString Y)
  return Y.emit (Y.map (loggerFields Y logger.m_name logger.m_level appenders))

def LoggerManager.toYamlString (m : LoggerManager) : Except String String := do
  let loggers ← m.m_loggers.entries.mapM fun e => do Y.Load (← e.2.toYamlString Y)
  return Y.emit (if loggers = [] then Y.null else Y.sequence loggers)

def typeFields (appender : LogAppenderDefine) : List (String × Node) :=
  if appender.m_type = 1 then [("type", Y.scalar "FileLogAppender"), ("file", Y.scalar appender.m_file)]
  else if appender.m_type = 2 then [("type", Y.scalar "StdoutLogAppender")]
  else []

def patternField (m_pattern : String) : List (String × Node) :=
  if m_pattern ≠ "" then [("pattern", Y.scalar m_pattern)] else []

/-- `tmpNode`. -/
def appenderNode (appender : LogAppenderDefine) : Node :=
  let fields := typeFields Y appender ++ patternField Y appender.m_pattern
  if fields = [] then Y.null else Y.map fields

/-- `LexicalCast<LogDefine, std::string>`. -/
def castToDefine (define : LogDefine) : String :=
  Y.emit (Y.map (loggerFields Y define.m_name define.level (define.m_appenders.map (appenderNode Y))))

/-- `LexicalCast<std::set<LogDefine>, std::string>`. -/
def castToSet (val : List LogDefine) : Except String String :=
  LexicalCast.castToSequence Y.toYamlNodes .list (fun define => .ok (castToDefine Y define)) val

end Encode

variable {Node : Type} {Y : YamlScalars Node}

/-! ## Nodes read back -/

theorem FromString_ToString (level : LogLevel) : LogLevel.FromString level.ToString = level := by
  cases level <;> rfl

theorem fields_scalars {entries : List (String × Node)} (hn : (entries.map Prod.fst).Nodup)
    (h : ∀ e ∈ entries, ∃ text, e.2 = Y.scalar text) : Y.Fields entries := by
  refine ⟨hn, ?_⟩
  intro e he
  obtain ⟨text, htext⟩ := h e he
  rw [htext]
  exact .scalar text

theorem field_mem (hY : Y.Faithful) {entries : List (String × Node)} (hf : Y.Fields entries) {key text : String}
    (h : (key, Y.scalar text) ∈ entries) : Field Y.toYamlCpp (Y.map entries) key text :=
  ⟨Y.scalar text, hY.get_mem _ hf _ h, hY.isDefined _ (.scalar text), hY.asString_scalar text⟩

theorem made_sequence {α : Type} {node : α → Node} {l : List α} (hm : ∀ a ∈ l, Y.Made (node a)) :
    Y.Made (Y.sequence (l.map node)) := .sequence (List.forall_mem_map.mpr hm)

theorem members_sequence (hY : Y.Faithful) {α β : Type} {P : Node → β → Prop} {node : α → Node} {f : α → β}
    {l : List α} (hm : ∀ a ∈ l, Y.Made (node a)) (h : ∀ a ∈ l, P (node a) (f a)) :
    Members Y.toYamlCpp P (Y.sequence (l.map node)) (l.map f) := by
  have hmade : ∀ n ∈ l.map node, Y.Made n := List.forall_mem_map.mpr hm
  refine members_of (by rw [hY.size_sequence _ hmade, List.length_map, List.length_map]) ?_
  intro i hi
  rw [List.length_map] at hi
  refine ⟨_, hY.getIdx_sequence _ i hmade (by rwa [List.length_map]), ?_⟩
  rw [List.getElem_map, List.getElem_map]
  exact h _ (List.getElem_mem hi)

theorem loggerFields_fields {m_name : String} {level : LogLevel} {appenders : List Node}
    (hm : ∀ node ∈ appenders, Y.Made node) : Y.Fields (loggerFields Y m_name level appenders) := by
  unfold loggerFields pushed
  split
  · exact fields_scalars (by simp) (by simp)
  · refine ⟨by simp, ?_⟩
    intro e he
    simp only [List.cons_append, List.nil_append, List.mem_cons, List.not_mem_nil, or_false] at he
    rcases he with rfl | rfl | rfl
    · exact .scalar m_name
    · exact .scalar level.ToString
    · exact .sequence hm

/-- Either encoder's text of a logger, given how its appenders are written and read. -/
theorem describes_loggerFields (hY : Y.Faithful) {α : Type} {m_name : String} {level : LogLevel} {node : α → Node}
    {entry : α → Entry} {l : List α} (hm : ∀ a ∈ l, Y.Made (node a))
    (h : ∀ a ∈ l, Reads Y.toYamlCpp (node a) (entry a)) :
    Describes Y.toYamlCpp (Y.emit (Y.map (loggerFields Y m_name level (l.map node))))
      ⟨m_name, level.ToString, l.map entry⟩ := by
  have hf : Y.Fields (loggerFields Y m_name level (l.map node)) := loggerFields_fields (List.forall_mem_map.mpr hm)
  refine ⟨_, hY.load_emit _ hf.map, field_mem hY hf (by simp [loggerFields]),
    .inl (field_mem hY hf (by simp [loggerFields])), ?_⟩
  cases l with
  | nil => exact .missing (hY.get_missing _ hf "appenders" (by simp [loggerFields, pushed]))
  | cons a l =>
    have hmem : ("appenders", Y.sequence ((a :: l).map node)) ∈ loggerFields Y m_name level ((a :: l).map node) := by
      simp [loggerFields, pushed]
    exact .list (hY.get_mem _ hf _ hmem) (hY.isDefined _ (made_sequence hm)) (members_sequence hY hm h)

/-- The text of a sorted set, given how its members are written and read. -/
theorem castSet_sequence (hY : Y.Faithful) {α : Type} {node : α → Node} {written : α → Written} {l : List α}
    (hm : ∀ a ∈ l, Y.Made (node a)) (h : ∀ a ∈ l, Describes Y.toYamlCpp (Y.emit (node a)) (written a))
    (ht : ∀ a ∈ l, (written a).Typed) {val : List LogDefine} (hval : l.map (Written.define ∘ written) = val)
    (hs : OrderedSet.Sorted LogDefine.lt val) :
    castSet Y.toYamlCpp (Y.emit (Y.sequence (l.map node))) = .ok val := by
  have hdescribes : DescribesSet Y.toYamlCpp (Y.emit (Y.sequence (l.map node))) (l.map written) :=
    ⟨_, hY.load_emit _ (made_sequence hm), members_sequence hY hm h⟩
  rw [castSet_typed hdescribes (List.forall_mem_map.mpr ht), defines, List.map_map, hval,
    OrderedSet.ofList_of_perm LogDefine.strictWeak hs (.refl _)]

/-! ## The loggers -/

def Appender.entry (appender : Appender) : Entry :=
  match appender.kind with
  | .stdout => .stdout appender.getPattern
  | .file m_filename => .file m_filename appender.getPattern

def Logger.written (logger : Logger) : Written :=
  ⟨logger.m_name, logger.m_level.ToString, logger.m_appenders.map Appender.entry⟩

def Logger.node (Y : YamlScalars Node) (logger : Logger) : Node :=
  Y.map (loggerFields Y logger.m_name logger.m_level (logger.m_appenders.map fun appender => Y.map (appender.fields Y)))

theorem appender_fields (appender : Appender) : Y.Fields (appender.fields Y) := by
  unfold Appender.fields
  split <;> exact fields_scalars (by simp) (by simp)

theorem reads_appender (hY : Y.Faithful) (appender : Appender) :
    Reads Y.toYamlCpp (Y.map (appender.fields Y)) appender.entry := by
  have hf := appender_fields (Y := Y) appender
  obtain ⟨kind, m_formatter⟩ := appender
  cases kind with
  | file m_filename =>
    exact .file (field_mem hY hf (by simp [Appender.fields])) (field_mem hY hf (by simp [Appender.fields]))
      (.inl (field_mem hY hf (by simp [Appender.fields])))
  | stdout =>
    exact .stdout (field_mem hY hf (by simp [Appender.fields])) (.inl (field_mem hY hf (by simp [Appender.fields])))

theorem describes_logger (hY : Y.Faithful) (logger : Logger) :
    Describes Y.toYamlCpp (Y.emit (logger.node Y)) logger.written :=
  describes_loggerFields hY (fun appender _ => (appender_fields appender).map) fun appender _ =>
    reads_appender hY appender

theorem written_typed (logger : Logger) : logger.written.Typed := by
  intro h
  obtain ⟨appender, -, hentry⟩ := List.mem_map.mp h
  unfold Appender.entry at hentry
  split at hentry <;> cases hentry

theorem made_logger (logger : Logger) : Y.Made (logger.node Y) :=
  (loggerFields_fields (List.forall_mem_map.mpr fun appender _ => (appender_fields appender).map)).map

theorem Logger.toYamlString_eq (hY : Y.Faithful) (logger : Logger) :
    logger.toYamlString Y = .ok (Y.emit (logger.node Y)) := by
  have hload : logger.m_appenders.mapM (fun appender => Y.Load (appender.toYamlString Y)) =
      .ok (logger.m_appenders.map fun appender => Y.map (appender.fields Y)) :=
    Except.mapM_map fun appender _ => hY.load_emit _ (appender_fields appender).map
  rw [Logger.toYamlString, hload]
  rfl

/-- The loggers by name. -/
def LoggerManager.loggers (m : LoggerManager) : List Logger := m.m_loggers.entries.map Prod.snd

theorem LoggerManager.loggers_ne_nil (m : LoggerManager) : m.loggers ≠ [] := by
  intro h
  obtain ⟨e, he, -⟩ := List.mem_map.mp m.root
  rw [List.map_eq_nil_iff.mp h] at he
  cases he

theorem LoggerManager.toYamlString_eq (hY : Y.Faithful) (m : LoggerManager) :
    m.toYamlString Y = .ok (Y.emit (Y.sequence (m.loggers.map (Logger.node Y)))) := by
  have hload : m.m_loggers.entries.mapM (fun e => do Y.Load (← e.2.toYamlString Y)) =
      .ok (m.loggers.map (Logger.node Y)) := by
    rw [loggers, List.map_map]
    refine Except.mapM_map fun e _ => ?_
    rw [Logger.toYamlString_eq hY]
    exact hY.load_emit _ (made_logger e.2)
  have hne : m.loggers.map (Logger.node Y) ≠ [] := by
    simpa using m.loggers_ne_nil
  rw [toYamlString, hload, Except.ok_bind_eq, if_neg hne]
  rfl

/-! ## The definitions -/

/-- A definition that the cast from text gives. -/
def Normal (lad : LogAppenderDefine) : Prop := lad.m_type = 1 ∨ lad.m_type = 2 ∧ lad.m_file = ""

def entryOf (lad : LogAppenderDefine) : Entry :=
  if lad.m_type = 1 then .file lad.m_file lad.m_pattern else .stdout lad.m_pattern

theorem entryOf_define {lad : LogAppenderDefine} (h : Normal lad) : (entryOf lad).define? = some lad := by
  obtain ⟨m_type, m_pattern, m_file⟩ := lad
  rcases h with rfl | ⟨rfl, rfl⟩ <;> rfl

theorem optional_pattern (hY : Y.Faithful) {fields : List (String × Node)} {m_pattern : String}
    (hf : Y.Fields (fields ++ patternField Y m_pattern)) (hkey : "pattern" ∉ fields.map Prod.fst) :
    Optional Y.toYamlCpp (Y.map (fields ++ patternField Y m_pattern)) "pattern" m_pattern := by
  by_cases hp : m_pattern = ""
  · refine .inr ⟨hY.get_missing _ hf "pattern" ?_, hp⟩
    simpa [patternField, hp] using hkey
  · exact .inl (field_mem hY hf (by simp [patternField, hp]))

theorem pattern_fields {fields : List (String × Node)} {m_pattern : String} (hn : (fields.map Prod.fst).Nodup)
    (hkey : "pattern" ∉ fields.map Prod.fst) (h : ∀ e ∈ fields, ∃ text, e.2 = Y.scalar text) :
    Y.Fields (fields ++ patternField Y m_pattern) := by
  refine fields_scalars ?_ ?_
  · unfold patternField
    split
    · rw [List.map_append, List.nodup_append']
      simpa [hn] using hkey
    · rwa [List.append_nil]
  · intro e he
    rcases List.mem_append.mp he with he | he
    · exact h e he
    · unfold patternField at he
      split at he
      · rw [List.mem_singleton.mp he]
        exact ⟨m_pattern, rfl⟩
      · cases he

/-- The node of a definition's appender is a map, read as the appender. -/
theorem appenderNode_reads (hY : Y.Faithful) {lad : LogAppenderDefine} (h : Normal lad) :
    Y.Made (appenderNode Y lad) ∧ Reads Y.toYamlCpp (appenderNode Y lad) (entryOf lad) := by
  obtain ⟨m_type, m_pattern, m_file⟩ := lad
  rcases h with rfl | ⟨rfl, rfl⟩
  · have hnode : appenderNode Y ⟨1, m_pattern, m_file⟩ =
        Y.map ([("type", Y.scalar "FileLogAppender"), ("file", Y.scalar m_file)] ++ patternField Y m_pattern) := rfl
    have hf : Y.Fields ([("type", Y.scalar "FileLogAppender"), ("file", Y.scalar m_file)] ++
        patternField Y m_pattern) := pattern_fields (by simp) (by simp) (by simp)
    rw [hnode]
    exact ⟨hf.map, .file (field_mem hY hf (by simp)) (field_mem hY hf (by simp)) (optional_pattern hY hf (by simp))⟩
  · have hnode : appenderNode Y ⟨2, m_pattern, ""⟩ =
        Y.map ([("type", Y.scalar "StdoutLogAppender")] ++ patternField Y m_pattern) := rfl
    have hf : Y.Fields ([("type", Y.scalar "StdoutLogAppender")] ++ patternField Y m_pattern) :=
      pattern_fields (by simp) (by simp) (by simp)
    rw [hnode]
    exact ⟨hf.map, .stdout (field_mem hY hf (by simp)) (optional_pattern hY hf (by simp))⟩

def writtenOf (define : LogDefine) : Written :=
  ⟨define.m_name, define.level.ToString, define.m_appenders.map entryOf⟩

theorem writtenOf_define {define : LogDefine} (h : ∀ lad ∈ define.m_appenders, Normal lad) :
    (writtenOf define).define = define := by
  have happ : (define.m_appenders.map entryOf).filterMap Entry.define? = define.m_appenders := by
    rw [List.filterMap_map]
    calc define.m_appenders.filterMap (Entry.define? ∘ entryOf)
        = define.m_appenders.filterMap some := List.filterMap_congr fun lad hlad => entryOf_define (h lad hlad)
      _ = define.m_appenders := List.filterMap_some
  simp only [Written.define, writtenOf, FromString_ToString, happ]

theorem writtenOf_typed (define : LogDefine) : (writtenOf define).Typed := by
  intro h
  obtain ⟨lad, -, hlad⟩ := List.mem_map.mp h
  unfold entryOf at hlad
  split at hlad <;> cases hlad

def defineNode (Y : YamlScalars Node) (define : LogDefine) : Node :=
  Y.map (loggerFields Y define.m_name define.level (define.m_appenders.map (appenderNode Y)))

theorem made_define (hY : Y.Faithful) {define : LogDefine} (h : ∀ lad ∈ define.m_appenders, Normal lad) :
    Y.Made (defineNode Y define) :=
  (loggerFields_fields (List.forall_mem_map.mpr fun lad hlad => (appenderNode_reads hY (h lad hlad)).1)).map

theorem describes_define (hY : Y.Faithful) {define : LogDefine} (h : ∀ lad ∈ define.m_appenders, Normal lad) :
    Describes Y.toYamlCpp (Y.emit (defineNode Y define)) (writtenOf define) :=
  describes_loggerFields hY (fun lad hlad => (appenderNode_reads hY (h lad hlad)).1) fun lad hlad =>
    (appenderNode_reads hY (h lad hlad)).2

/-- Writing a set of definitions and reading it gives the set. -/
theorem castToSet_back (hY : Y.Faithful) {val : List LogDefine} (hs : OrderedSet.Sorted LogDefine.lt val)
    (h : ∀ define ∈ val, ∀ lad ∈ define.m_appenders, Normal lad) :
    ∃ text, castToSet Y val = .ok text ∧ castSet Y.toYamlCpp text = .ok val := by
  have hmade : ∀ define ∈ val, Y.Made (defineNode Y define) := fun define hdefine => made_define hY (h define hdefine)
  have hval : val.map (Written.define ∘ writtenOf) = val :=
    calc val.map (Written.define ∘ writtenOf)
        = val.map id := List.map_congr_left fun define hdefine => writtenOf_define (h define hdefine)
      _ = val := List.map_id val
  refine ⟨Y.emit (Y.sequence (val.map (defineNode Y))), ?_, ?_⟩
  · refine LexicalCast.toSequence_eq_ok.mpr ⟨_, ?_, rfl⟩
    exact Except.mapM_map fun define hdefine => hY.load_emit _ (hmade define hdefine)
  · refine castSet_sequence hY hmade ?_ ?_ hval hs
    · exact fun define hdefine => describes_define hY (h define hdefine)
    · exact fun define _ => writtenOf_typed define

/-! ## Export and import -/

/-- The definition that a logger is read back as. -/
def Logger.define (logger : Logger) : LogDefine := logger.written.define

/-- What the appender of a definition is to say. -/
def Appender.define (appender : Appender) : LogAppenderDefine :=
  match appender.kind with
  | .stdout => { m_type := 2, m_pattern := appender.getPattern }
  | .file m_filename => { m_type := 1, m_file := m_filename, m_pattern := appender.getPattern }

/-- The same name, level and appenders; and with the patterns not empty, the appenders
    that the listener makes of the definition are the same again. -/
structure Exported (logger : Logger) (define : LogDefine) : Prop where
  name : define.m_name = logger.m_name
  level : define.level = logger.m_level
  appenders : define.m_appenders = logger.m_appenders.map Appender.define
  effective : (∀ appender ∈ logger.m_appenders, appender.getPattern ≠ "") →
    appendersOf false define = logger.m_appenders.map fun appender => ⟨appender.kind, appender.getPattern⟩

theorem Exported.eq_define {logger : Logger} {define : LogDefine} (h : Exported logger define) :
    define = ⟨logger.m_name, logger.m_level, logger.m_appenders.map Appender.define⟩ := by
  obtain ⟨m_name, level, m_appenders⟩ := define
  obtain ⟨rfl, rfl, rfl, -⟩ := h
  rfl

theorem entry_define (appender : Appender) : appender.entry.define? = some appender.define := by
  unfold Appender.entry Appender.define
  split <;> rfl

theorem define_appenders (logger : Logger) : logger.define.m_appenders = logger.m_appenders.map Appender.define := by
  show (logger.m_appenders.map Appender.entry).filterMap Entry.define? = _
  rw [List.filterMap_map]
  calc logger.m_appenders.filterMap (Entry.define? ∘ Appender.entry)
      = logger.m_appenders.filterMap (some ∘ Appender.define) := List.filterMap_congr fun a _ => entry_define a
    _ = logger.m_appenders.map Appender.define := by rw [List.filterMap_eq_map]

theorem define_normal (logger : Logger) : ∀ lad ∈ logger.define.m_appenders, Normal lad := by
  intro lad hlad
  rw [define_appenders] at hlad
  obtain ⟨appender, -, rfl⟩ := List.mem_map.mp hlad
  unfold Appender.define
  split
  · exact .inr ⟨rfl, rfl⟩
  · exact .inl rfl

theorem appenderOf_define {appender : Appender} (h : appender.getPattern ≠ "") :
    appenderOf appender.define = ⟨appender.kind, appender.getPattern⟩ := by
  unfold appenderOf Appender.define
  split <;> simp_all

theorem exported_define (logger : Logger) : Exported logger logger.define where
  name := rfl
  level := FromString_ToString logger.m_level
  appenders := define_appenders logger
  effective := by
    intro h
    rw [appendersOf, define_appenders]
    simp only [Bool.not_false, Bool.or_true, List.filter_true, List.map_map]
    exact List.map_congr_left fun appender happ => appenderOf_define (h appender happ)

theorem LoggerManager.defines_sorted (m : LoggerManager) :
    OrderedSet.Sorted LogDefine.lt (m.loggers.map Logger.define) := by
  rw [loggers, List.map_map]
  refine List.pairwise_map.mpr (m.m_loggers.sorted.imp_of_mem ?_)
  intro a b ha hb hab
  simp only [LogDefine.lt, lessKey, Function.comp_apply, decide_eq_true_eq] at *
  rwa [(exported_define a.2).name, (exported_define b.2).name, m.named a ha, m.named b hb]

/-- The manager's text gives a definition for each logger. -/
theorem LoggerManager.read_back (hY : Y.Faithful) (m : LoggerManager) :
    ∃ text, m.toYamlString Y = .ok text ∧ castSet Y.toYamlCpp text = .ok (m.loggers.map Logger.define) := by
  refine ⟨_, m.toYamlString_eq hY, castSet_sequence hY ?_ ?_ ?_ rfl m.defines_sorted⟩
  · exact fun logger _ => made_logger logger
  · exact fun logger _ => describes_logger hY logger
  · exact fun logger _ => written_typed logger

theorem export_import (Y : YamlScalars Node) (hY : Y.Faithful) (acts : List Act) :
    ∃ text defines, (acts.foldl LoggerManager.step .init).toYamlString Y = .ok text ∧
      castSet Y.toYamlCpp text = .ok defines ∧
      List.Forall₂ Exported (acts.foldl LoggerManager.step .init).loggers defines ∧
      ∃ text', castToSet Y defines = .ok text' ∧ castSet Y.toYamlCpp text' = .ok defines := by
  generalize acts.foldl LoggerManager.step .init = m
  obtain ⟨text, hto, hread⟩ := m.read_back hY
  refine ⟨text, _, hto, hread, ?_, castToSet_back hY m.defines_sorted ?_⟩
  · rw [List.forall₂_map_right_iff]
    exact List.forall₂_same.mpr fun logger _ => exported_define logger
  · intro define hdefine
    obtain ⟨logger, -, rfl⟩ := List.mem_map.mp hdefine
    exact define_normal logger

/-! ## Two loggers -/

section BlockYaml

def blockScalars : YamlScalars (Option BlockYaml.Node) where
  toYamlCpp := blockDocs
  null := some .null
  sequence nodes := some (.sequence (nodes.map (·.getD .null)))
  map entries := some (.map (entries.map fun e => (e.1, e.2.getD .null)))
  entries
    | some (.map entries) => entries.map fun e => (e.1, some e.2)
    | _ => []
  scalar text := some (.scalar text)

theorem made_some {node : Option BlockYaml.Node} (h : blockScalars.Made node) : node = some (node.getD .null) := by
  cases h <;> rfl

theorem blockScalars_faithful : blockScalars.Faithful where
  load_emit node h := by
    rw [made_some h]
    exact blockDocs_load _
  isDefined node h := by
    rw [made_some h]
    rfl
  asString_scalar _ := rfl
  size_sequence nodes _ := List.length_map _
  getIdx_sequence nodes i hm h := by
    show Except.ok ((nodes.map (·.getD .null))[i]?) = _
    rw [List.getElem?_map, List.getElem?_eq_getElem h]
    exact congrArg Except.ok (made_some (hm _ (List.getElem_mem h))).symm
  get_mem entries hf e he := by
    have hlookup : (entries.map fun e => (e.1, e.2.getD .null)).lookup e.1 = some (e.2.getD .null) := by
      refine lookup_of_mem ?_ (List.mem_map.mpr ⟨e, he, rfl⟩)
      rw [List.map_map]
      exact hf.nodup
    show Except.ok _ = _
    rw [hlookup, ← made_some (hf.made e he)]
  get_missing entries _ key hkey := by
    refine ⟨_, rfl, ?_⟩
    have hlookup : (entries.map fun e => (e.1, e.2.getD BlockYaml.Node.null)).lookup key = none := by
      rw [List.lookup_eq_none_iff]
      intro e he
      obtain ⟨old, hold, rfl⟩ := List.mem_map.mp he
      exact bne_iff_ne.mpr fun h => hkey (List.mem_map.mpr ⟨old, hold, h.symm⟩)
    rw [hlookup]
    rfl

def twoLoggers : List Act :=
  [.setLevel "root" .WARN, .addAppender "http" ⟨.file "http.txt", some "%m%n"⟩, .setLevel "http" .DEBUG]

theorem export_import_twoLoggers :
    ∃ text, (twoLoggers.foldl LoggerManager.step .init).toYamlString blockScalars = .ok text ∧
      castSet blockDocs text = .ok [⟨"http", .DEBUG, [⟨1, "%m%n", "http.txt"⟩]⟩,
        ⟨"root", .WARN, [⟨2, defaultPattern, ""⟩]⟩] := by
  obtain ⟨text, defines, hto, hread, hexp, -⟩ := export_import blockScalars blockScalars_faithful twoLoggers
  have hloggers : (twoLoggers.foldl LoggerManager.step .init).loggers =
      [⟨"http", .DEBUG, [⟨.file "http.txt", some "%m%n"⟩]⟩, ⟨"root", .WARN, [⟨.stdout, none⟩]⟩] := by decide +kernel
  rw [hloggers] at hexp
  rcases hexp with _ | ⟨hhttp, _ | ⟨hroot, _ | _⟩⟩
  refine ⟨text, hto, hread.trans ?_⟩
  rw [hhttp.eq_define, hroot.eq_define]
  rfl

end BlockYaml

end Export
end Log
end Sylar
