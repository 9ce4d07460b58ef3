/-
  Sylar.Env.Init — the command line (`Env::init`, `add`, `get`, sylar/env.cpp lines 13-74).

  An argument is a string without a null character; `exe` is what the link /proc/pid/exe
  reads. The loop carries the flag that still waits for its value and adds it when a value,
  another flag or the end comes.

  Proved (`init_iff`): init returns true exactly for sequences of groups, each a flag and at
  most one value; then every flag has the value of its last group, and every other key what
  it had before; so a map of non-empty keys and plain values, listed in any way, is found
  again.
-/

import Sylar.Config.LexicalCast

namespace Sylar

open LexicalCast (StdMap lessKey)

/-! ## std::map -/

namespace LexicalCast.StdMap

variable {α : Type}

/-- `m[key] = val`. -/
def assign (m : StdMap α) (key : String) (val : α) : StdMap α where
  entries := (OrderedSet.insert lessKey (key, val) (m.entries.filter (·.1 ≠ key))).2.2
  sorted := OrderedSet.insert_sorted lessKey_strictWeak (List.Pairwise.filter _ m.sorted)

def find (m : StdMap α) (key : String) : Option α := m.entries.lookup key

theorem mem_assign (m : StdMap α) (key : String) (val : α) (e : String × α) :
    e ∈ (m.assign key val).entries ↔ e = (key, val) ∨ e ∈ m.entries ∧ e.1 ≠ key := by
  have hapart : OrderedSet.Apart lessKey (key, val) (m.entries.filter (·.1 ≠ key)) := by
    intro f hf
    have hne : f.1 ≠ key := by simpa using (List.mem_filter.mp hf).2
    simpa [lessKey] using hne.symm.lt_or_gt
  simpa [assign, List.mem_filter] using OrderedSet.mem_insert hapart e

theorem find_eq_some {m : StdMap α} {key : String} {val : α} : m.find key = some val ↔ (key, val) ∈ m.entries := by
  refine ⟨fun h => ?_, lookup_of_mem m.keys_nodup⟩
  obtain ⟨before, after, hentries, -⟩ := List.lookup_eq_some_iff.mp h
  rw [hentries]
  exact List.mem_append_right _ (.head _)

theorem find_assign (m : StdMap α) (key : String) (val : α) (k : String) :
    (m.assign key val).find k = if k = key then some val else m.find k := by
  apply Option.ext
  intro v
  rw [find_eq_some, mem_assign]
  by_cases hk : k = key
  · simp [hk, eq_comm]
  · simp [hk, find_eq_some]

theorem ext_find {m m' : StdMap α} (h : ∀ key, m.find key = m'.find key) : m = m' := by
  have hmem : ∀ e, e ∈ m.entries ↔ e ∈ m'.entries := by
    intro e
    rw [← find_eq_some (m := m), ← find_eq_some (m := m'), h]
  have hnodup := fun m : StdMap α => OrderedSet.nodup_of_sorted lessKey_strictWeak m.sorted
  have hperm := (List.perm_ext_iff_of_nodup (hnodup m) (hnodup m')).mpr hmem
  exact StdMap.ext (m.sorted.eq_of_perm lessKey_strictWeak m'.sorted hperm)

end LexicalCast.StdMap

/-! ## The command line -/

structure Env where
  m_args : StdMap String := ⟨[], .nil⟩
  m_program : String := ""
  m_exe : String := ""
  m_cwd : String := ""

namespace Env

def add (self : Env) (key val : String) : Env := { self with m_args := self.m_args.assign key val }

def get (self : Env) (key default_value : String) : String := (self.m_args.find key).getD default_value

/-- The loop over argv, and what follows it. -/
def parse : List String → Option String → Env → Bool × Env
  | [], none, self => (true, self)
  | [], some now_key, self => (true, self.add now_key "")
  | arg :: rest, now_key, self =>
    if arg.toList.head? = some '-' then
      if arg.length > 1 then
        let self := match now_key with
          | some now_key => self.add now_key ""
          | none => self
        parse rest (some (String.ofList (arg.toList.drop 1))) self
      else (false, self)
    else
      match now_key with
      | some now_key => parse rest none (self.add now_key arg)
      | none => (false, self)

/-- `substr(0, find_last_of("/"))`. -/
def untilLastSlash (path : String) : String :=
  if '/' ∈ path.toList then String.ofList ((path.toList.reverse.dropWhile (· ≠ '/')).drop 1).reverse else path

/-- `Env::init`, of argv[0] and the arguments after it. -/
def init (self : Env) (exe program : String) (args : List String) : Bool × Env :=
  parse args none { self with m_program := program, m_exe := exe, m_cwd := untilLastSlash exe ++ "/" }

/-! ## Groups -/

def Plain (val : String) : Prop := val.toList.head? ≠ some '-'

/-- A flag and at most one value. -/
structure Group where
  key : String
  value : Option String
  key_ne : key ≠ ""
  plain : ∀ val ∈ value, Plain val

def Group.text (g : Group) : String := g.value.getD ""

def flag (key : String) : String := String.ofList ('-' :: key.toList)

def Group.args (g : Group) : List String := flag g.key :: g.value.toList

/-- What the last group with that flag says. -/
def lastText (groups : List Group) (key : String) : Option String :=
  (groups.reverse.find? (·.key = key)).map Group.text

/-- The groups say what the map holds, in any order. -/
def Lists (groups : List Group) (m : StdMap String) : Prop :=
  (groups.map fun g => (g.key, g.text)).Perm m.entries

variable {self : Env} {args : List String} {groups : List Group}

/-! ## The loop -/

theorem head_flag (key : String) : (flag key).toList.head? = some '-' := by
  rw [flag, String.toList_ofList]
  rfl

theorem length_flag {key : String} (h : key ≠ "") : (flag key).length > 1 := by
  have hlen : key.length ≠ 0 := by simpa using h
  rw [flag, String.length_ofList, List.length_cons, String.length_toList]
  omega

theorem key_of_flag (key : String) : String.ofList ((flag key).toList.drop 1) = key := by
  rw [flag, String.toList_ofList]
  exact String.ofList_toList

theorem flag_of_head {arg : String} (h : arg.toList.head? = some '-') :
    flag (String.ofList (arg.toList.drop 1)) = arg := by
  obtain ⟨rest, hrest⟩ := List.head?_eq_some_iff.mp h
  rw [flag, String.toList_ofList, hrest]
  exact hrest ▸ String.ofList_toList

theorem key_ne_of_length {arg : String} (h : arg.length > 1) : String.ofList (arg.toList.drop 1) ≠ "" := by
  intro hempty
  have hlen := congrArg String.length hempty
  rw [String.length_ofList, List.length_drop, String.length_toList, String.length_empty] at hlen
  omega

/-- The key that waits gets the empty text. -/
def flush : Option String → Env → Env
  | some now_key, self => self.add now_key ""
  | none, self => self

def addGroup (self : Env) (g : Group) : Env := self.add g.key g.text

theorem parse_cons (arg : String) (rest : List String) (now_key : Option String) (self : Env) :
    parse (arg :: rest) now_key self =
      if arg.toList.head? = some '-' then
        if arg.length > 1 then parse rest (some (String.ofList (arg.toList.drop 1))) (flush now_key self)
        else (false, self)
      else now_key.elim (false, self) fun now_key => parse rest none (self.add now_key arg) := by
  cases now_key <;> rfl

theorem parse_flag (rest : List String) (now_key : Option String) (self : Env) {key : String} (h : key ≠ "") :
    parse (flag key :: rest) now_key self = parse rest (some key) (flush now_key self) := by
  rw [parse_cons, if_pos (head_flag key), if_pos (length_flag h), key_of_flag]

theorem parse_value (rest : List String) (now_key : String) (self : Env) {val : String} (h : Plain val) :
    parse (val :: rest) (some now_key) self = parse rest none (self.add now_key val) := by
  rw [parse_cons, if_neg h, Option.elim_some]

theorem parse_groups (groups : List Group) (now_key : Option String) (self : Env) :
    parse (groups.flatMap Group.args) now_key self = (true, groups.foldl addGroup (flush now_key self)) := by
  induction groups generalizing now_key self with
  | nil =>
    rw [List.flatMap_nil, List.foldl_nil]
    cases now_key <;> rfl
  | cons g groups ih =>
    rw [List.flatMap_cons, List.foldl_cons, Group.args, List.cons_append, parse_flag _ _ _ g.key_ne]
    cases hvalue : g.value with
    | none =>
      have hadd : addGroup (flush now_key self) g = flush (some g.key) (flush now_key self) := by
        simp [addGroup, flush, Group.text, hvalue]
      rw [hadd]
      exact ih (some g.key) (flush now_key self)
    | some val =>
      have hadd : addGroup (flush now_key self) g = (flush now_key self).add g.key val := by
        simp [addGroup, Group.text, hvalue]
      rw [hadd]
      exact (parse_value _ g.key _ (g.plain val hvalue)).trans (ih none _)

/-- What was read before the cursor and waits is put in front of what follows. -/
theorem groups_of_parse {args : List String} {now_key : Option String} {self : Env}
    (h : (parse args now_key self).1 = true) (hkey : ∀ key ∈ now_key, key ≠ "") :
    ∃ groups : List Group, (now_key.map flag).toList ++ args = groups.flatMap Group.args := by
  induction args generalizing now_key self with
  | nil =>
    cases now_key with
    | none => exact ⟨[], rfl⟩
    | some key => exact ⟨[⟨key, none, hkey key rfl, nofun⟩], rfl⟩
  | cons arg rest ih =>
    rw [parse_cons] at h
    split at h
    · next hdash =>
      split at h
      · next hlen =>
        obtain ⟨groups, hgroups⟩ := ih h (fun key hkey => Option.mem_some_iff.mp hkey ▸ key_ne_of_length hlen)
        have hrest : arg :: rest = groups.flatMap Group.args := by
          rw [← hgroups, Option.map_some, flag_of_head hdash]
          rfl
        cases now_key with
        | none => exact ⟨groups, hrest⟩
        | some key =>
          refine ⟨⟨key, none, hkey key rfl, nofun⟩ :: groups, ?_⟩
          rw [List.flatMap_cons, ← hrest]
          rfl
      · cases h
    · next hdash =>
      cases now_key with
      | none => cases h
      | some key =>
        obtain ⟨groups, hgroups⟩ := ih h nofun
        have hplain : ∀ val ∈ some arg, Plain val := fun val hval => Option.mem_some_iff.mp hval ▸ hdash
        refine ⟨⟨key, some arg, hkey key rfl, hplain⟩ :: groups, ?_⟩
        rw [List.flatMap_cons, ← hgroups]
        rfl

/-! ## The map -/

theorem lastText_cons (g : Group) (groups : List Group) (key : String) :
    lastText (g :: groups) key = (lastText groups key).or (if key = g.key then some g.text else none) := by
  rw [lastText, List.reverse_cons, List.find?_append, Option.map_or]
  congr 1
  by_cases hkey : key = g.key
  · simp [hkey]
  · simp [hkey, Ne.symm hkey]

theorem find_foldl (groups : List Group) (self : Env) (key : String) :
    (groups.foldl addGroup self).m_args.find key = (lastText groups key).or (self.m_args.find key) := by
  induction groups generalizing self with
  | nil => rfl
  | cons g groups ih =>
    rw [List.foldl_cons, ih, lastText_cons, Option.or_assoc]
    congr 1
    rw [addGroup, add, StdMap.find_assign]
    split
    · rfl
    · rfl

theorem lastText_of_mem {g : Group} (hg : g ∈ groups) (hnodup : (groups.map Group.key).Nodup) :
    lastText groups g.key = some g.text := by
  induction groups with
  | nil => cases hg
  | cons first groups ih =>
    obtain ⟨hfirst, hnodup⟩ := List.nodup_cons.mp hnodup
    rw [lastText_cons]
    rcases List.mem_cons.mp hg with rfl | hg
    · have hnone : lastText groups g.key = none := by
        rw [lastText, Option.map_eq_none_iff, List.find?_eq_none]
        intro other hother hkey
        exact hfirst (List.mem_map.mpr ⟨other, List.mem_reverse.mp hother, by simpa using hkey⟩)
      simp [hnone]
    · rw [ih hg hnodup]
      rfl

theorem lastText_none {key : String} (h : key ∉ groups.map Group.key) : lastText groups key = none := by
  rw [lastText, Option.map_eq_none_iff, List.find?_eq_none]
  intro g hg hkey
  exact h (List.mem_map.mpr ⟨g, List.mem_reverse.mp hg, by simpa using hkey⟩)

theorem Lists.keys_nodup {m : StdMap String} (h : Lists groups m) : (groups.map Group.key).Nodup := by
  have hkeys := h.map Prod.fst
  rw [List.map_map] at hkeys
  exact hkeys.nodup_iff.mpr m.keys_nodup

/-- A map and a listing of it agree: each group is an entry, and no key is there twice. -/
theorem Lists.lastText_eq {m : StdMap String} (h : Lists groups m) (key : String) :
    lastText groups key = m.find key := by
  by_cases hkey : key ∈ groups.map Group.key
  · obtain ⟨g, hg, rfl⟩ := List.mem_map.mp hkey
    have hentry : (g.key, g.text) ∈ m.entries := h.subset (List.mem_map_of_mem hg)
    rw [lastText_of_mem hg h.keys_nodup, StdMap.find_eq_some.mpr hentry]
  · rw [lastText_none hkey, eq_comm, Option.eq_none_iff_forall_ne_some]
    intro val hval
    obtain ⟨g, hg, heq⟩ := List.mem_map.mp (h.symm.subset (StdMap.find_eq_some.mp hval))
    exact hkey (List.mem_map.mpr ⟨g, hg, congrArg Prod.fst heq⟩)

/-- Every flag with its value, in the order of the map. -/
theorem exists_lists {m : StdMap String} (h : ∀ e ∈ m.entries, e.1 ≠ "" ∧ Plain e.2) :
    ∃ groups, Lists groups m := by
  have hvalue : ∀ e ∈ m.entries, ∀ val ∈ some e.2, Plain val := fun e he val hval =>
    Option.mem_some_iff.mp hval ▸ (h e he).2
  refine ⟨m.entries.attach.map fun e => ⟨e.1.1, some e.1.2, (h e.1 e.2).1, hvalue e.1 e.2⟩, ?_⟩
  rw [Lists, List.map_map]
  exact .of_eq m.entries.attach_map_subtype_val

variable (self) (exe program : String) (args)

theorem init_groups (groups : List Group) :
    ∃ started : Env, started.m_args = self.m_args ∧
      init self exe program (groups.flatMap Group.args) = (true, groups.foldl addGroup started) :=
  ⟨{ self with m_program := program, m_exe := exe, m_cwd := untilLastSlash exe ++ "/" }, rfl,
    parse_groups groups none _⟩

/-- What `get` finds after the command line was read. -/
theorem get_init (groups : List Group) (key default_value : String) :
    (init self exe program (groups.flatMap Group.args)).2.get key default_value =
      (lastText groups key).getD (self.get key default_value) := by
  obtain ⟨started, hstarted, hinit⟩ := init_groups self exe program groups
  rw [hinit, get, find_foldl, hstarted, Option.getD_or]
  rfl

theorem init_iff :
    ((init self exe program args).1 = true ↔ ∃ groups : List Group, args = groups.flatMap Group.args) ∧
    (∀ groups : List Group, args = groups.flatMap Group.args → ∀ key,
      (init self exe program args).2.m_args.find key = (lastText groups key).or (self.m_args.find key)) ∧
    ∀ m : StdMap String, (∀ e ∈ m.entries, e.1 ≠ "" ∧ Plain e.2) →
      (∃ groups, Lists groups m) ∧
      ∀ groups, Lists groups m → self.m_args = ⟨[], .nil⟩ →
        (init self exe program (groups.flatMap Group.args)).1 = true ∧
        (init self exe program (groups.flatMap Group.args)).2.m_args = m := by
  refine ⟨⟨fun h => groups_of_parse h nofun, ?_⟩, ?_, ?_⟩
  · rintro ⟨groups, rfl⟩
    obtain ⟨started, -, hinit⟩ := init_groups self exe program groups
    rw [hinit]
  · rintro groups rfl key
    obtain ⟨started, hstarted, hinit⟩ := init_groups self exe program groups
    rw [hinit, find_foldl, hstarted]
  · intro m hm
    refine ⟨exists_lists hm, fun groups hlists hempty => ?_⟩
    obtain ⟨started, hstarted, hinit⟩ := init_groups self exe program groups
    refine ⟨by rw [hinit], ?_⟩
    apply StdMap.ext_find
    intro key
    rw [hinit, find_foldl, hstarted, hempty, hlists.lastText_eq]
    exact Option.or_none

end Env
end Sylar
