/-
  Sylar.Log.Appenders — what the `logs` setting keeps of appender entries that are
  malformed (`LexicalCast<std::string, LogDefine>`, sylar/log.cpp lines 526-571).

  `Written` is what a text says: a name, a level, and entries of which some have no type,
  an unknown type, or are file appenders without a file. `Describes` says that yaml-cpp
  reads a text so. Assumed of yaml-cpp: as<std::string>() on an undefined node throws.

  Proved: the cast gives the well-formed entries in their order exactly when every entry
  has a type, and so does the cast of a set of definitions (`keeps_iff`): an unknown type
  and a missing file are skipped by `continue`, a missing type is only printed, and the
  cast of the undefined node then throws out of the whole set (`untyped_throws`).
-/

import Sylar.Lib.BlockYaml
import Sylar.Config.FromString
import Sylar.Log.Define

namespace Sylar
namespace Log

/-! ## Texts of definitions -/

section Texts

variable {Node : Type} (Y : YamlCpp Node)

def Field (node : Node) (key text : String) : Prop :=
  ∃ field, Y.get node key = .ok field ∧ Y.IsDefined field = true ∧ Y.asString field = .ok text

def Missing (node : Node) (key : String) : Prop := ∃ field, Y.get node key = .ok field ∧ Y.IsDefined field = false

/-- A text, which is empty where the key is missing. -/
def Optional (node : Node) (key text : String) : Prop := Field Y node key text ∨ Missing Y node key ∧ text = ""

/-- An entry of `appenders`. -/
inductive Entry where
  | file (m_file m_pattern : String)
  | stdout (m_pattern : String)
  | noType
  | unknownType
  | noFile
  deriving DecidableEq, Repr

/-- The definition of a well-formed entry. -/
def Entry.define? : Entry → Option LogAppenderDefine
  | file m_file m_pattern => some { m_type := 1, m_file, m_pattern }
  | stdout m_pattern => some { m_type := 2, m_pattern }
  | _ => none

inductive Reads (node : Node) : Entry → Prop
  | file {m_file m_pattern : String} : Field Y node "type" "FileLogAppender" → Field Y node "file" m_file →
      Optional Y node "pattern" m_pattern → Reads node (.file m_file m_pattern)
  | stdout {m_pattern : String} : Field Y node "type" "StdoutLogAppender" → Optional Y node "pattern" m_pattern →
      Reads node (.stdout m_pattern)
  | noType : Missing Y node "type" → Reads node .noType
  | unknownType {type : String} : Field Y node "type" type → type ≠ "FileLogAppender" →
      type ≠ "StdoutLogAppender" → Reads node .unknownType
  | noFile : Field Y node "type" "FileLogAppender" → Missing Y node "file" → Reads node .noFile

structure Written where
  m_name : String
  level : String
  entries : List Entry

/-- With the well-formed entries, in order. -/
def Written.define (w : Written) : LogDefine :=
  { m_name := w.m_name, level := .FromString w.level, m_appenders := w.entries.filterMap Entry.define? }

/-- Every entry has a type. -/
def Written.Typed (w : Written) : Prop := .noType ∉ w.entries

instance (w : Written) : Decidable w.Typed := inferInstanceAs (Decidable (.noType ∉ w.entries))

/-- From begin to end the members are these. -/
def Members {α : Type} (P : Node → α → Prop) (node : Node) (members : List α) : Prop :=
  List.Forall₂ (fun i a => ∃ member, Y.getIdx node i = .ok member ∧ P member a) (List.range (Y.size node)) members

inductive ReadsAppenders (node : Node) : List Entry → Prop
  | missing : Missing Y node "appenders" → ReadsAppenders node []
  | list {appenders : Node} {entries : List Entry} : Y.get node "appenders" = .ok appenders →
      Y.IsDefined appenders = true → Members Y (Reads Y) appenders entries → ReadsAppenders node entries

/-- yaml-cpp reads the text of a definition so. -/
def Describes (val : String) (w : Written) : Prop :=
  ∃ node, Y.Load val = .ok node ∧ Field Y node "name" w.m_name ∧ Optional Y node "level" w.level ∧
    ReadsAppenders Y node w.entries

/-- And the text of a set of definitions. -/
def DescribesSet (v : String) (ws : List Written) : Prop :=
  ∃ node, Y.Load v = .ok node ∧ Members Y (fun member w => Describes Y (Y.emit member) w) node ws

end Texts

variable {Node : Type} {Y : YamlCpp Node}

/-! ## One entry -/

theorem Field.castText {node : Node} {key text : String} (h : Field Y node key text) :
    ∃ field, Y.get node key = .ok field ∧ castText Y field = .ok text := by
  obtain ⟨field, hget, hdef, htext⟩ := h
  refine ⟨field, hget, ?_⟩
  rw [Log.castText, hdef]
  exact htext

theorem Optional.castText {node : Node} {key text : String} (h : Optional Y node key text) :
    ∃ field, Y.get node key = .ok field ∧ castText Y field = .ok text := by
  rcases h with h | ⟨⟨field, hget, hdef⟩, rfl⟩
  · exact h.castText
  · refine ⟨field, hget, ?_⟩
    rw [Log.castText, hdef]
    rfl

/-- The entries with a type: kept or skipped. -/
theorem castAppender_typed {node : Node} {entry : Entry} (h : Reads Y node entry) (ht : entry ≠ .noType) :
    castAppender Y node = .ok entry.define? := by
  cases h with
  | noType => exact absurd rfl ht
  | file htype hfile hpattern =>
    obtain ⟨type, hget, -, htext⟩ := htype
    obtain ⟨file, hgetFile, hdef, hfile⟩ := hfile
    obtain ⟨pattern, hgetPattern, hpattern⟩ := hpattern.castText
    simp only [castAppender, hget, htext, hgetFile, hdef, hfile, hgetPattern, hpattern, Except.ok_bind_eq, if_true]
    rfl
  | stdout htype hpattern =>
    obtain ⟨type, hget, -, htext⟩ := htype
    obtain ⟨pattern, hgetPattern, hpattern⟩ := hpattern.castText
    simp only [castAppender, hget, htext, hgetPattern, hpattern, Except.ok_bind_eq]
    rfl
  | unknownType htype hfile hstdout =>
    obtain ⟨type, hget, -, htext⟩ := htype
    simp only [castAppender, hget, htext, Except.ok_bind_eq, if_neg hfile, if_neg hstdout]
    rfl
  | noFile htype hfile =>
    obtain ⟨type, hget, -, htext⟩ := htype
    obtain ⟨file, hgetFile, hdef⟩ := hfile
    simp only [castAppender, hget, htext, hgetFile, hdef, Except.ok_bind_eq]
    rfl

/-- as<std::string>() on an undefined node throws. -/
def UndefinedThrows (Y : YamlCpp Node) : Prop :=
  ∀ node, Y.IsDefined node = false → ∃ what, Y.asString node = .error what

theorem castAppender_untyped (hu : UndefinedThrows Y) {node : Node} (h : Reads Y node .noType) :
    ∃ what, castAppender Y node = .error what := by
  cases h with
  | noType htype =>
    obtain ⟨type, hget, hdef⟩ := htype
    obtain ⟨what, hthrow⟩ := hu type hdef
    refine ⟨what, ?_⟩
    simp only [castAppender, hget, hthrow, Except.ok_bind_eq]
    rfl

/-! ## All entries -/

theorem castEntries_typed {appenders : Node} {is : List Nat} {entries : List Entry}
    (h : List.Forall₂ (fun i entry => ∃ node, Y.getIdx appenders i = .ok node ∧ Reads Y node entry) is entries)
    (ht : .noType ∉ entries) : castEntries Y appenders is = .ok (entries.filterMap Entry.define?) := by
  induction h with
  | nil => rfl
  | @cons i entry is entries hi _ ih =>
    obtain ⟨node, hget, hreads⟩ := hi
    rw [List.mem_cons, not_or] at ht
    have hone := castAppender_typed hreads (Ne.symm ht.1)
    simp only [castEntries, hget, hone, ih ht.2, Except.ok_bind_eq, List.filterMap_cons]
    cases entry.define? <;> rfl

theorem castEntries_untyped (hu : UndefinedThrows Y) {appenders : Node} {is : List Nat} {entries : List Entry}
    (h : List.Forall₂ (fun i entry => ∃ node, Y.getIdx appenders i = .ok node ∧ Reads Y node entry) is entries)
    (ht : .noType ∈ entries) : ∃ what, castEntries Y appenders is = .error what := by
  induction h with
  | nil => cases ht
  | @cons i entry is entries hi _ ih =>
    obtain ⟨node, hget, hreads⟩ := hi
    by_cases he : entry = .noType
    · obtain ⟨what, hthrow⟩ := castAppender_untyped hu (he ▸ hreads)
      refine ⟨what, ?_⟩
      simp only [castEntries, hget, hthrow, Except.ok_bind_eq]
      rfl
    · obtain ⟨what, hrest⟩ := ih ((List.mem_cons.mp ht).resolve_left (Ne.symm he))
      refine ⟨what, ?_⟩
      simp only [castEntries, hget, castAppender_typed hreads he, hrest, Except.ok_bind_eq]
      rfl

theorem castAppenders_typed {node : Node} {entries : List Entry} (h : ReadsAppenders Y node entries)
    (ht : .noType ∉ entries) : ∃ appenders, Y.get node "appenders" = .ok appenders ∧
      castAppenders Y appenders = .ok (entries.filterMap Entry.define?) := by
  cases h with
  | missing h =>
    obtain ⟨appenders, hget, hdef⟩ := h
    refine ⟨appenders, hget, ?_⟩
    rw [castAppenders, hdef]
    rfl
  | @list appenders _ hget hdef hmembers =>
    refine ⟨appenders, hget, ?_⟩
    rw [castAppenders, hdef]
    exact castEntries_typed hmembers ht

theorem castAppenders_untyped (hu : UndefinedThrows Y) {node : Node} {entries : List Entry}
    (h : ReadsAppenders Y node entries) (ht : .noType ∈ entries) :
    ∃ appenders what, Y.get node "appenders" = .ok appenders ∧ castAppenders Y appenders = .error what := by
  cases h with
  | missing => cases ht
  | @list appenders _ hget hdef hmembers =>
    obtain ⟨what, hthrow⟩ := castEntries_untyped hu hmembers ht
    refine ⟨appenders, what, hget, ?_⟩
    rw [castAppenders, hdef]
    exact hthrow

/-! ## Definitions -/

theorem castDefine_typed {val : String} {w : Written} (h : Describes Y val w) (ht : w.Typed) :
    castDefine Y val = .ok w.define := by
  obtain ⟨node, hload, ⟨name, hget, hdef, hname⟩, hlevel, happenders⟩ := h
  obtain ⟨level, hgetLevel, hlevel⟩ := hlevel.castText
  obtain ⟨appenders, hgetAppenders, hcast⟩ := castAppenders_typed happenders ht
  simp only [castDefine, hload, hget, hdef, hname, hgetLevel, hlevel, hgetAppenders, hcast, Except.ok_bind_eq,
    if_true]
  rfl

theorem castDefine_untyped (hu : UndefinedThrows Y) {val : String} {w : Written} (h : Describes Y val w)
    (ht : ¬w.Typed) : ∃ what, castDefine Y val = .error what := by
  obtain ⟨node, hload, ⟨name, hget, hdef, hname⟩, hlevel, happenders⟩ := h
  obtain ⟨level, hgetLevel, hlevel⟩ := hlevel.castText
  obtain ⟨appenders, what, hgetAppenders, hthrow⟩ := castAppenders_untyped hu happenders (not_not.mp ht)
  refine ⟨what, ?_⟩
  simp only [castDefine, hload, hget, hdef, hname, hgetLevel, hlevel, hgetAppenders, hthrow, Except.ok_bind_eq,
    if_true]
  rfl

/-! ## Sets of definitions -/

/-- The set that the definitions make, inserted in order. -/
def defines (ws : List Written) : List LogDefine := OrderedSet.ofList LogDefine.lt (ws.map Written.define)

theorem castItems_typed {node : Node} {is : List Nat} {ws : List Written}
    (h : List.Forall₂ (fun i w => ∃ member, Y.getIdx node i = .ok member ∧ Describes Y (Y.emit member) w) is ws)
    (ht : ∀ w ∈ ws, w.Typed) (vec : List LogDefine) : castItems Y node is vec =
      .ok ((ws.map Written.define).foldl (fun l define => (OrderedSet.insert LogDefine.lt define l).2.2) vec) := by
  induction h generalizing vec with
  | nil => rfl
  | @cons i w is ws hi _ ih =>
    obtain ⟨member, hget, hdesc⟩ := hi
    obtain ⟨htw, htws⟩ := List.forall_mem_cons.mp ht
    simp only [castItems, hget, castDefine_typed hdesc htw, Except.ok_bind_eq, List.map_cons, List.foldl_cons]
    exact ih htws _

theorem castItems_untyped (hu : UndefinedThrows Y) {node : Node} {is : List Nat} {ws : List Written}
    (h : List.Forall₂ (fun i w => ∃ member, Y.getIdx node i = .ok member ∧ Describes Y (Y.emit member) w) is ws)
    (ht : ∃ w ∈ ws, ¬w.Typed) (vec : List LogDefine) : ∃ what, castItems Y node is vec = .error what := by
  induction h generalizing vec with
  | nil =>
    obtain ⟨w, hw, -⟩ := ht
    cases hw
  | @cons i w is ws hi _ ih =>
    obtain ⟨member, hget, hdesc⟩ := hi
    by_cases htw : w.Typed
    · obtain ⟨u, hmem, hut⟩ := ht
      have hus : u ∈ ws := (List.mem_cons.mp hmem).resolve_left fun he => hut (he ▸ htw)
      obtain ⟨what, hthrow⟩ := ih ⟨u, hus, hut⟩ (OrderedSet.insert LogDefine.lt w.define vec).2.2
      refine ⟨what, ?_⟩
      simp only [castItems, hget, castDefine_typed hdesc htw, Except.ok_bind_eq]
      exact hthrow
    · obtain ⟨what, hthrow⟩ := castDefine_untyped hu hdesc htw
      refine ⟨what, ?_⟩
      simp only [castItems, hget, hthrow, Except.ok_bind_eq]
      rfl

theorem castSet_typed {v : String} {ws : List Written} (h : DescribesSet Y v ws) (ht : ∀ w ∈ ws, w.Typed) :
    castSet Y v = .ok (defines ws) := by
  obtain ⟨node, hload, hmembers⟩ := h
  rw [castSet, hload]
  exact castItems_typed hmembers ht []

theorem castSet_untyped (hu : UndefinedThrows Y) {v : String} {ws : List Written} (h : DescribesSet Y v ws)
    (ht : ∃ w ∈ ws, ¬w.Typed) : ∃ what, castSet Y v = .error what := by
  obtain ⟨node, hload, hmembers⟩ := h
  rw [castSet, hload]
  exact castItems_untyped hu hmembers ht []

/-- The variable keeps its value, and nobody is told. -/
theorem fromString_untyped (hu : UndefinedThrows Y) {v : String} {ws : List Written} (h : DescribesSet Y v ws)
    (ht : ∃ w ∈ ws, ¬w.Typed) (var : ConfigVar.Var (List LogDefine)) :
    var.fromString (castSet Y) v = ⟨var, [], false⟩ := by
  obtain ⟨what, hthrow⟩ := castSet_untyped hu h ht
  rw [ConfigVar.Var.fromString, hthrow]

/-- The cast of a definition, and of a set of them, gives what is well-formed exactly when
    every entry has a type. -/
theorem keeps_iff (Y : YamlCpp Node) (hu : UndefinedThrows Y) :
    (∀ val w, Describes Y val w → (castDefine Y val = .ok w.define ↔ w.Typed)) ∧
    ∀ v ws, DescribesSet Y v ws → (castSet Y v = .ok (defines ws) ↔ ∀ w ∈ ws, w.Typed) := by
  constructor
  · intro val w h
    refine ⟨fun hok => ?_, castDefine_typed h⟩
    by_contra ht
    obtain ⟨what, hthrow⟩ := castDefine_untyped hu h ht
    rw [hok] at hthrow
    cases hthrow
  · intro v ws h
    refine ⟨fun hok => ?_, castSet_typed h⟩
    by_contra ht
    obtain ⟨what, hthrow⟩ := castSet_untyped hu h (by simpa using ht)
    rw [hok] at hthrow
    cases hthrow

/-! ## A text with each kind of entry -/

theorem members_of {α : Type} {P : Node → α → Prop} {node : Node} {members : List α}
    (hsize : Y.size node = members.length)
    (h : ∀ i (hi : i < members.length), ∃ member, Y.getIdx node i = .ok member ∧ P member members[i]) :
    Members Y P node members := by
  refine List.forall₂_iff_get.mpr ⟨by rw [List.length_range, hsize], ?_⟩
  intro i hi hm
  rw [List.get_eq_getElem, List.getElem_range]
  exact h i hm

section BlockYaml

/-- yaml-cpp on the texts of `BlockYaml`; `none` is an undefined node. -/
def blockDocs : YamlCpp (Option BlockYaml.Node) where
  Load text := match BlockYaml.load text with
    | some node => .ok (some node)
    | none => .error "yaml-cpp: error"
  IsDefined := Option.isSome
  size
    | some (.sequence nodes) => nodes.length
    | some (.map entries) => entries.length
    | _ => 0
  get
    | some (.map entries), key => .ok (entries.lookup key)
    | some (.scalar _), _ => .error "operator[] call on a scalar"
    | none, _ => .error "invalid node"
    | _, _ => .ok none
  getIdx
    | some (.sequence nodes), i => .ok nodes[i]?
    | some (.scalar _), _ => .error "operator[] call on a scalar"
    | none, _ => .error "invalid node"
    | _, _ => .ok none
  asString
    | some (.scalar text) => .ok text
    | some .null => .ok "null"
    | _ => .error "bad conversion"
  emit
    | some node => BlockYaml.emit node
    | none => ""

theorem blockDocs_load (node : BlockYaml.Node) : blockDocs.Load (BlockYaml.emit node) = .ok (some node) := by
  show (match BlockYaml.load (BlockYaml.emit node) with
    | some node => .ok (some node)
    | none => .error "yaml-cpp: error" : Except String (Option BlockYaml.Node)) = _
  rw [BlockYaml.load_emit]

theorem blockDocs_throws : UndefinedThrows blockDocs := by
  intro node h
  cases node with
  | none => exact ⟨_, rfl⟩
  | some => cases h

def Entry.node : Entry → BlockYaml.Node
  | file m_file m_pattern =>
    .map [("type", .scalar "FileLogAppender"), ("file", .scalar m_file), ("pattern", .scalar m_pattern)]
  | stdout m_pattern => .map [("type", .scalar "StdoutLogAppender"), ("pattern", .scalar m_pattern)]
  | noType => .map [("file", .scalar "log.txt")]
  | unknownType => .map [("type", .scalar "SocketLogAppender")]
  | noFile => .map [("type", .scalar "FileLogAppender")]

def Written.node (w : Written) : BlockYaml.Node :=
  .map [("name", .scalar w.m_name), ("level", .scalar w.level), ("appenders", .sequence (w.entries.map Entry.node))]

theorem reads_node (entry : Entry) : Reads blockDocs (some entry.node) entry := by
  cases entry with
  | file => exact .file ⟨_, rfl, rfl, rfl⟩ ⟨_, rfl, rfl, rfl⟩ (.inl ⟨_, rfl, rfl, rfl⟩)
  | stdout => exact .stdout ⟨_, rfl, rfl, rfl⟩ (.inl ⟨_, rfl, rfl, rfl⟩)
  | noType => exact .noType ⟨_, rfl, rfl⟩
  | unknownType =>
    have htype : Field blockDocs (some Entry.unknownType.node) "type" "SocketLogAppender" := ⟨_, rfl, rfl, rfl⟩
    exact .unknownType htype (by decide) (by decide)
  | noFile => exact .noFile ⟨_, rfl, rfl, rfl⟩ ⟨_, rfl, rfl⟩

theorem members_map {α : Type} {P : Option BlockYaml.Node → α → Prop} (f : α → BlockYaml.Node) (members : List α)
    (h : ∀ a ∈ members, P (some (f a)) a) : Members blockDocs P (some (.sequence (members.map f))) members := by
  refine members_of (List.length_map f) ?_
  intro i hi
  refine ⟨some (f members[i]), ?_, h _ (List.getElem_mem hi)⟩
  show Except.ok ((members.map f)[i]?) = _
  rw [List.getElem?_map, List.getElem?_eq_getElem hi]
  rfl

theorem describes_node (w : Written) : Describes blockDocs (BlockYaml.emit w.node) w :=
  ⟨some w.node, blockDocs_load w.node, ⟨_, rfl, rfl, rfl⟩, .inl ⟨_, rfl, rfl, rfl⟩,
    .list rfl rfl (members_map Entry.node w.entries fun entry _ => reads_node entry)⟩

def setText (ws : List Written) : String := BlockYaml.emit (.sequence (ws.map Written.node))

theorem describesSet_setText (ws : List Written) : DescribesSet blockDocs (setText ws) ws :=
  ⟨_, blockDocs_load _, members_map Written.node ws fun w _ => describes_node w⟩

/-- An unknown type and a missing file are skipped. -/
theorem keeps_skipped :
    castDefine blockDocs (BlockYaml.emit (Written.node ⟨"root", "warn", [.unknownType, .stdout "%m", .noFile]⟩)) =
      .ok ⟨"root", .WARN, [⟨2, "%m", ""⟩]⟩ ∧
    castSet blockDocs (setText [⟨"root", "warn", [.noFile]⟩, ⟨"http", "error", [.file "http.txt" ""]⟩]) =
      .ok [⟨"http", .ERROR, [⟨1, "", "http.txt"⟩]⟩, ⟨"root", .WARN, []⟩] := by
  obtain ⟨hone, hset⟩ := keeps_iff blockDocs blockDocs_throws
  refine ⟨(hone _ _ (describes_node _)).mpr (by decide), ?_⟩
  rw [(hset _ _ (describesSet_setText _)).mpr (by decide)]
  decide +kernel

/-- An entry without a type takes the next entry, and the next logger, with it. -/
theorem untyped_throws : ∃ root system : Written,
    Describes blockDocs (BlockYaml.emit root.node) root ∧ root.define.m_appenders = [⟨2, "%m", ""⟩] ∧
    DescribesSet blockDocs (setText [root, system]) [root, system] ∧ system.Typed ∧
    (∃ what, castDefine blockDocs (BlockYaml.emit root.node) = .error what) ∧
    ∃ what, castSet blockDocs (setText [root, system]) = .error what := by
  refine ⟨⟨"root", "warn", [.noType, .stdout "%m"]⟩, ⟨"system", "info", [.stdout ""]⟩, describes_node _, rfl,
    describesSet_setText _, by decide, castDefine_untyped blockDocs_throws (describes_node _) (by decide), ?_⟩
  exact castSet_untyped blockDocs_throws (describesSet_setText _) ⟨_, .head _, by decide⟩

end BlockYaml

end Log
end Sylar
