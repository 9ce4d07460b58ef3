/-
  Sylar.Config.LoadFromYaml — which configuration variables a YAML tree sets
  (`ListAllMember` and `Config::LoadFromYaml`, sylar/config.cpp lines 18-53), and which
  names a variable can have (`Config::Lookup`, sylar/config.h lines 322-349).

  A tree is a node of `Sylar.Lib.BlockYaml`; the key of an entry is its `Scalar()`, and
  `emit` is `ss << node`. A call of fromString is the variable's name and the text.

  Proved (`loads_iff`): a name over a-z, 0-9, '.' and '_' can be registered exactly when
  it has no '9', which the list of legal characters leaves out; and LoadFromYaml makes
  the calls it should (`wanted`), in pre-order, exactly when no node whose path is
  registered in lower case has an upper-case letter in its path, or the empty path: the
  characters are checked before the path is lower-cased (`upperCase_dropped`).
-/

import Sylar.Lib.BlockYaml

namespace Sylar
namespace Config

open BlockYaml (Node)

/-! ## Names -/

def legalChars : List Char := "abcdefghikjlmnopqrstuvwxyz._012345678".toList

/-- `find_first_not_of(..) == npos`. -/
def legal (name : String) : Bool := name.toList.all legalChars.contains

/-- `::tolower` on every character. -/
def toLower (name : String) : String := String.ofList (name.toList.map Char.toLower)

/-- The variables by name, each with its `getTypeName()`. -/
structure Registry where
  datas : List (String × String)
  legal : ∀ e ∈ datas, legal e.1 = true

def Registry.find (reg : Registry) (name : String) : Option String :=
  (reg.datas.find? fun e => e.1 == name).map (·.2)

/-- `Config::Lookup<T>(name, default_value)`: whether it returns a variable; an exception
    is the name. -/
def Lookup (reg : Registry) (typeName name : String) : Except String (Bool × Registry) :=
  match reg.find name with
  | some type => .ok (type == typeName, reg)
  | none =>
    if h : legal name = true then
      .ok (true, ⟨(name, typeName) :: reg.datas, List.forall_mem_cons.mpr ⟨h, reg.legal⟩⟩)
    else .error name

/-! ## The walk -/

/-- The path of a member. -/
def dotted (pre key : String) : String := if pre = "" then key else pre ++ "." ++ key

mutual

/-- `ListAllMember`: what it appends to `output`. -/
def ListAllMember (pre : String) : Node → List (String × Node)
  | .map entries => if legal pre then (pre, .map entries) :: listEntries pre entries else []
  | node => if legal pre then [(pre, node)] else []

def listEntries (pre : String) : List (String × Node) → List (String × Node)
  | [] => []
  | (key, value) :: rest => ListAllMember (dotted pre key) value ++ listEntries pre rest

end

/-- `IsScalar() ? Scalar() : ss.str()`. -/
def text (emit : Node → String) : Node → String
  | .scalar text => text
  | node => emit node

/-- The call of fromString for one of `all_nodes`, if any. -/
def loadOne (reg : Registry) (emit : Node → String) (p : String × Node) : Option (String × String) :=
  if p.1.isEmpty then none
  else if (reg.find (toLower p.1)).isSome then some (toLower p.1, text emit p.2)
  else none

def LoadFromYaml (reg : Registry) (emit : Node → String) (root : Node) : List (String × String) :=
  (ListAllMember "" root).filterMap (loadOne reg emit)

/-! ## What it should do -/

mutual

/-- The nodes reached through map keys with their paths, in pre-order. -/
def reached (path : String) : Node → List (String × Node)
  | .map entries => reachedEntries path entries
  | _ => []

def reachedEntries (path : String) : List (String × Node) → List (String × Node)
  | [] => []
  | (key, value) :: rest =>
    (dotted path key, value) :: (reached (dotted path key) value ++ reachedEntries path rest)

end

def wantedOne (reg : Registry) (emit : Node → String) (p : String × Node) : Option (String × String) :=
  if (reg.find (toLower p.1)).isSome then some (toLower p.1, text emit p.2) else none

/-- A call for every node whose path, lower-cased, is registered. -/
def wanted (reg : Registry) (emit : Node → String) (root : Node) : List (String × String) :=
  (reached "" root).filterMap (wantedOne reg emit)

/-- A name over lower-case letters, digits, '.' and '_'. -/
def WellSpelled (name : String) : Prop :=
  ∀ c ∈ name.toList, c.isLower = true ∨ c.isDigit = true ∨ c = '.' ∨ c = '_'

/-- A variable of that name is made. -/
def CanRegister (name : String) : Prop :=
  ∀ (reg : Registry) (typeName : String), reg.find name = none →
    ∃ reg', Lookup reg typeName name = .ok (true, reg') ∧ reg'.find name = some typeName

/-- The path is spelled so that it is not dropped. -/
def Plain (path : String) : Prop := path ≠ "" ∧ ∀ c ∈ path.toList, c.isUpper = false

/-! ## Characters -/

theorem legal_iff {name : String} : legal name = true ↔ ∀ c ∈ name.toList, c ∈ legalChars := by
  rw [legal, List.all_eq_true]
  exact forall₂_congr fun c _ => List.contains_iff_mem

theorem legalChars_iff (c : Char) : c ∈ legalChars ↔
    (c.isLower = true ∨ c.isDigit = true ∨ c = '.' ∨ c = '_') ∧ c ≠ '9' := by
  constructor
  · intro h
    have hall : legalChars.all (fun c => decide
        ((c.isLower = true ∨ c.isDigit = true ∨ c = '.' ∨ c = '_') ∧ c ≠ '9')) = true := by decide
    exact of_decide_eq_true (List.all_eq_true.mp hall c h)
  · -- Such a character is one of the first 128.
    have hall : ∀ n < 128, ((Char.ofNat n).isLower = true ∨ (Char.ofNat n).isDigit = true ∨ Char.ofNat n = '.' ∨
        Char.ofNat n = '_') ∧ Char.ofNat n ≠ '9' → Char.ofNat n ∈ legalChars := by decide
    intro h
    have hlt : c.toNat < 128 := by
      rcases h.1 with hl | hd | rfl | rfl
      · have hle : c.val ≤ 'z'.val := of_decide_eq_true (Bool.and_eq_true_iff.mp hl).2
        exact Nat.lt_of_le_of_lt hle (by decide)
      · have hle : c.val ≤ '9'.val := of_decide_eq_true (Bool.and_eq_true_iff.mp hd).2
        exact Nat.lt_of_le_of_lt hle (by decide)
      · decide
      · decide
    have hc := hall c.toNat hlt
    rw [Char.ofNat_toNat] at hc
    exact hc h

theorem isUpper_legal {c : Char} (h : c ∈ legalChars) : c.isUpper = false := by
  have hall : legalChars.all (fun c => !c.isUpper) = true := by decide
  simpa using List.all_eq_true.mp hall c h

theorem legal_toLower_iff {c : Char} (h : c.toLower ∈ legalChars) : c ∈ legalChars ↔ c.isUpper = false := by
  refine ⟨isUpper_legal, fun hu => ?_⟩
  have hsame : c.toLower = c := by
    unfold Char.toLower
    split
    · rename_i hr
      have hno : ¬(c.val ≥ 'A'.val ∧ c.val ≤ 'Z'.val) := of_decide_eq_false hu
      exact absurd hr hno
    · rfl
  rwa [hsame] at h

theorem toList_toLower (name : String) : (toLower name).toList = name.toList.map Char.toLower :=
  String.toList_ofList

/-- Of a name that is legal in lower case. -/
theorem legal_of_toLower {name : String} (h : legal (toLower name) = true) :
    legal name = true ↔ ∀ c ∈ name.toList, c.isUpper = false := by
  rw [legal_iff, toList_toLower, List.forall_mem_map] at h
  rw [legal_iff]
  exact forall₂_congr fun c hc => legal_toLower_iff (h c hc)

theorem legal_append (s t : String) : legal (s ++ t) = (legal s && legal t) := by
  rw [legal, String.toList_append, List.all_append]
  rfl

/-- Below an illegal path every path is illegal. -/
theorem legal_dotted {pre key : String} (h : legal pre = false) : legal (dotted pre key) = false := by
  have hne : pre ≠ "" := by
    intro he
    rw [he] at h
    cases h
  rw [dotted, if_neg hne, String.append_assoc, legal_append, h]
  rfl

/-! ## Registration -/

theorem find_cons (reg : Registry) (name typeName : String) (h : legal name = true) :
    Registry.find ⟨(name, typeName) :: reg.datas, List.forall_mem_cons.mpr ⟨h, reg.legal⟩⟩ name = some typeName := by
  simp [Registry.find]

theorem legal_of_find {reg : Registry} {name : String} (h : (reg.find name).isSome = true) : legal name = true := by
  obtain ⟨type, ht⟩ := Option.isSome_iff_exists.mp h
  obtain ⟨e, he, -⟩ := Option.map_eq_some_iff.mp ht
  have hname : e.1 = name := by simpa using List.find?_some he
  exact hname ▸ reg.legal e (List.mem_of_find?_eq_some he)

theorem canRegister_iff (name : String) : CanRegister name ↔ legal name = true := by
  constructor
  · intro h
    obtain ⟨reg', hreg, -⟩ := h ⟨[], nofun⟩ "int" rfl
    by_contra hill
    rw [Lookup, show Registry.find ⟨[], nofun⟩ name = none from rfl] at hreg
    simp only [dif_neg hill] at hreg
    cases hreg
  · intro h reg typeName hnone
    refine ⟨_, ?_, find_cons reg name typeName h⟩
    rw [Lookup, hnone]
    simp only [dif_pos h]

theorem canRegister_wellSpelled {name : String} (h : WellSpelled name) : CanRegister name ↔ '9' ∉ name.toList := by
  rw [canRegister_iff, legal_iff]
  constructor
  · intro hl h9
    exact ((legalChars_iff '9').mp (hl '9' h9)).2 rfl
  · intro h9 c hc
    exact (legalChars_iff c).mpr ⟨h c hc, fun he => h9 (he ▸ hc)⟩

/-! ## The walk and the paths -/

/-- The legal ones of some paths. -/
def legalOnes (nodes : List (String × Node)) : List (String × Node) := nodes.filter fun p => legal p.1

theorem legalOnes_entries {pre : String} (hpre : legal pre = false) {entries : List (String × Node)}
    (ih : ∀ e ∈ entries, ∀ pre, legal pre = false → legalOnes (reached pre e.2) = []) :
    legalOnes (reachedEntries pre entries) = [] := by
  induction entries with
  | nil => rfl
  | cons e rest ihr =>
    obtain ⟨key, value⟩ := e
    have hd : legal (dotted pre key) = false := legal_dotted hpre
    have hvalue := ih _ List.mem_cons_self _ hd
    have hrest := ihr fun e he => ih e (List.mem_cons_of_mem _ he)
    unfold legalOnes at *
    rw [reachedEntries, List.filter_cons_of_neg (by simp [hd]), List.filter_append, hvalue, hrest]
    rfl

theorem legalOnes_illegal (node : Node) :
    ∀ pre, legal pre = false → legalOnes (reached pre node) = [] := by
  induction node using Node.ind with
  | null => exact fun _ _ => rfl
  | scalar text => exact fun _ _ => rfl
  | sequence nodes => exact fun _ _ => rfl
  | map entries ih => exact fun _ hpre => legalOnes_entries hpre ih

theorem listEntries_eq {pre : String} {entries : List (String × Node)}
    (ih : ∀ e ∈ entries, ∀ pre,
      ListAllMember pre e.2 = if legal pre then (pre, e.2) :: legalOnes (reached pre e.2) else []) :
    listEntries pre entries = legalOnes (reachedEntries pre entries) := by
  induction entries with
  | nil => rfl
  | cons e rest ihr =>
    obtain ⟨key, value⟩ := e
    have hrest := ihr fun e he => ih e (List.mem_cons_of_mem _ he)
    have hvalue := ih (key, value) List.mem_cons_self (dotted pre key)
    have happend := List.filter_append (p := fun q => legal q.1) (reached (dotted pre key) value)
      (reachedEntries pre rest)
    rw [listEntries, reachedEntries, hrest, hvalue]
    cases hl : legal (dotted pre key) with
    | true =>
      rw [legalOnes, legalOnes, legalOnes, List.filter_cons_of_pos (by exact hl), happend]
      rfl
    | false =>
      have hnone := legalOnes_illegal value _ hl
      unfold legalOnes at *
      rw [List.filter_cons_of_neg (by simp [hl]), happend, hnone]
      rfl

/-- The walk leaves out the nodes with an illegal path. -/
theorem listAllMember_eq (node : Node) : ∀ pre,
    ListAllMember pre node = if legal pre then (pre, node) :: legalOnes (reached pre node) else [] := by
  induction node using Node.ind with
  | null => exact fun _ => rfl
  | scalar text => exact fun _ => rfl
  | sequence nodes => exact fun _ => rfl
  | map entries ih =>
    intro pre
    rw [ListAllMember, listEntries_eq ih]
    rfl

/-! ## The calls -/

theorem length_filterMap_le {α β : Type} {f g : α → Option β} (h : ∀ a, f a = g a ∨ f a = none) (l : List α) :
    (l.filterMap f).length ≤ (l.filterMap g).length := by
  induction l with
  | nil => exact Nat.le_refl _
  | cons a l ih =>
    rw [List.filterMap_cons, List.filterMap_cons]
    rcases h a with he | hnone
    · rw [he]
      cases g a with
      | none => exact ih
      | some b => exact Nat.succ_le_succ ih
    · rw [hnone]
      cases g a with
      | none => exact ih
      | some b => exact Nat.le_succ_of_le ih

/-- Two maps of which the first leaves out some of what the second gives. -/
theorem filterMap_eq_iff {α β : Type} {f g : α → Option β} (h : ∀ a, f a = g a ∨ f a = none) (l : List α) :
    l.filterMap f = l.filterMap g ↔ ∀ a ∈ l, (g a).isSome = true → (f a).isSome = true := by
  induction l with
  | nil => simp
  | cons a l ih =>
    rw [List.forall_mem_cons, ← ih, List.filterMap_cons, List.filterMap_cons]
    rcases h a with he | hnone
    · rw [he]
      cases g a with
      | none => simp
      | some b => simp
    · rw [hnone]
      cases g a with
      | none => simp
      | some b =>
        -- The first list is the shorter one.
        have hle := length_filterMap_le h l
        constructor
        · intro heq
          have hlen : (l.filterMap f).length = (l.filterMap g).length + 1 := congrArg List.length heq
          omega
        · rintro ⟨hf, -⟩
          exact absurd (hf rfl) Bool.false_ne_true

/-- What the walk and the loop leave of a node together. -/
def keptOne (reg : Registry) (emit : Node → String) (p : String × Node) : Option (String × String) :=
  if legal p.1 then loadOne reg emit p else none

theorem loadFromYaml_eq (reg : Registry) (emit : Node → String) (root : Node) :
    LoadFromYaml reg emit root = (reached "" root).filterMap (keptOne reg emit) := by
  have hroot : loadOne reg emit ("", root) = none := rfl
  have hlegal : ListAllMember "" root = ("", root) :: legalOnes (reached "" root) := listAllMember_eq root ""
  rw [LoadFromYaml, hlegal, List.filterMap_cons_none hroot, legalOnes, List.filterMap_filter]
  rfl

theorem keptOne_cases (reg : Registry) (emit : Node → String) (p : String × Node) :
    keptOne reg emit p = wantedOne reg emit p ∨ keptOne reg emit p = none := by
  unfold keptOne loadOne wantedOne
  split
  · split
    · exact .inr rfl
    · exact .inl rfl
  · exact .inr rfl

theorem keptOne_isSome {reg : Registry} {emit : Node → String} {p : String × Node}
    (h : (reg.find (toLower p.1)).isSome = true) : (keptOne reg emit p).isSome = true ↔ Plain p.1 := by
  unfold keptOne loadOne Plain
  rw [← legal_of_toLower (legal_of_find h)]
  by_cases hl : legal p.1 = true
  · by_cases he : p.1 = ""
    · simp [he]
    · simp [hl, he, h]
  · simp [hl]

theorem loads_iff (name : String) (reg : Registry) (emit : Node → String) (root : Node) :
    (WellSpelled name → (CanRegister name ↔ '9' ∉ name.toList)) ∧
      (LoadFromYaml reg emit root = wanted reg emit root ↔
        ∀ p ∈ reached "" root, (reg.find (toLower p.1)).isSome = true → Plain p.1) := by
  refine ⟨fun h => canRegister_wellSpelled h, ?_⟩
  rw [loadFromYaml_eq, wanted, filterMap_eq_iff (keptOne_cases reg emit)]
  refine forall₂_congr fun p _ => ?_
  have hwanted : (wantedOne reg emit p).isSome = (reg.find (toLower p.1)).isSome := by
    unfold wantedOne
    split <;> simp_all
  rw [hwanted]
  exact forall_congr' fun h => keptOne_isSome h

/-- No variable is named "v9", and the key "Port" does not set the variable "port". -/
theorem upperCase_dropped :
    (∃ name, WellSpelled name ∧ ¬CanRegister name) ∧
      ∃ (reg : Registry) (emit : Node → String) (root : Node), LoadFromYaml reg emit root ≠ wanted reg emit root := by
  constructor
  · have hspelled : WellSpelled "v9" := by
      intro c hc
      rcases List.mem_pair.mp (show c ∈ ['v', '9'] from hc) with rfl | rfl <;> decide
    refine ⟨"v9", hspelled, ?_⟩
    rw [canRegister_iff]
    decide
  · refine ⟨⟨[("port", "int")], by decide⟩, fun _ => "", .map [("Port", .scalar "8080")], ?_⟩
    intro h
    have hcalls : ([] : List (String × String)) = [("port", "8080")] := h
    cases hcalls

end Config
end Sylar
