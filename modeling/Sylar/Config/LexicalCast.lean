/-
  Sylar.Config.LexicalCast — the string form of configuration values (sylar/config.h): the
  LexicalCasts of int, std::string and the containers of them, nested in any way.

  yaml-cpp and boost::lexical_cast are parameters. Of yaml-cpp, `Lawful` assumes that
  loading an emitted node gives it back, of the nodes these casts come by. The order in
  which an unordered container is gone through is a parameter as well.

  Proved: casting to text and back gives the value exactly when every std::string inside
  a container is a text that YAML::Load accepts and whose node is emitted as that text
  (`lossless_iff`); so containers of int are lossless (`lossless_stringFree`). The empty
  text is never one (`empty_not_verbatim`): it comes back as ~ (`empty_becomes_tilde`).
-/

import Sylar.Log.Define
import Sylar.Lib.BlockYaml
import Mathlib.Data.List.Lex
import Mathlib.Data.Prod.Lex

namespace Sylar

/-- The operations of yaml-cpp that build nodes and go through them. -/
structure YamlNodes (Node : Type) extends YamlCpp Node where
  null : Node
  /-- A Sequence node after push_back of each. -/
  sequence : List Node → Node
  /-- A Map node after `node[key] = value` of each, the keys distinct. -/
  map : List (String × Node) → Node
  /-- From begin() to end(), `first.Scalar()` and `second`. -/
  entries : Node → List (String × Node)

/-- The nodes that the casts come by. -/
inductive YamlNodes.Built {Node : Type} (Y : YamlNodes Node) : Node → Prop where
  | load {text : String} {node : Node} : Y.Load text = .ok node → Built Y node
  | sequence {nodes : List Node} : (∀ node ∈ nodes, Built Y node) → Built Y (Y.sequence nodes)
  | map {entries : List (String × Node)} : (∀ e ∈ entries, Built Y e.2) → Built Y (Y.map entries)

structure YamlNodes.Lawful {Node : Type} (Y : YamlNodes Node) : Prop where
  load_emit : ∀ node, Y.Built node → Y.Load (Y.emit node) = .ok node
  load_empty : Y.Load "" = .ok Y.null
  emit_null : Y.emit Y.null = "~"
  size_sequence : ∀ nodes, Y.size (Y.sequence nodes) = nodes.length
  getIdx_sequence : ∀ nodes i, (h : i < nodes.length) → Y.getIdx (Y.sequence nodes) i = .ok nodes[i]
  entries_map : ∀ entries, (entries.map Prod.fst).Nodup → Y.entries (Y.map entries) = entries

abbrev CInt := {n : Int // -2147483648 ≤ n ∧ n ≤ 2147483647}

/-- boost::lexical_cast between int and text; an exception is its what(). -/
structure Boost where
  fromInt : CInt → String
  toInt : String → Except String CInt

/-- Decimal text reads back, and is a plain scalar in YAML. -/
structure Boost.Lawful {Node : Type} (B : Boost) (Y : YamlNodes Node) : Prop where
  toInt_fromInt : ∀ n, B.toInt (B.fromInt n) = .ok n
  plain : ∀ n, ∃ node, Y.Load (B.fromInt n) = .ok node ∧ Y.emit node = B.fromInt n

namespace LexicalCast

/-! ## Containers -/

section Ordered

variable {α : Type}

/-- `operator<`. -/
def less [LinearOrder α] (a b : α) : Bool := decide (a < b)

def lessKey (a b : String × α) : Bool := decide (a.1 < b.1)

theorem less_strictWeak [LinearOrder α] : OrderedSet.StrictWeak (less : α → α → Bool) where
  irrefl a := by simp [less]
  trans h h' := by
    simp only [less, decide_eq_true_eq] at *
    exact h.trans h'

theorem lessKey_strictWeak : OrderedSet.StrictWeak (lessKey : String × α → String × α → Bool) where
  irrefl a := by simp [lessKey]
  trans h h' := by
    simp only [lessKey, decide_eq_true_eq] at *
    exact h.trans h'

end Ordered

/-- The elements of a set in ascending order; of an unordered one this is the value, not
    the order it is gone through in. -/
@[ext]
structure StdSet (α : Type) [LinearOrder α] where
  elems : List α
  sorted : OrderedSet.Sorted less elems

/-- The entries of a map in the order of their keys. -/
@[ext]
structure StdMap (α : Type) where
  entries : List (String × α)
  sorted : OrderedSet.Sorted lessKey entries

instance {α : Type} [LinearOrder α] : LinearOrder (StdSet α) :=
  LinearOrder.lift' StdSet.elems fun _ _ h => StdSet.ext h

theorem lookup_of_mem {α : Type} {entries : List (String × α)} {key : String} {value : α}
    (hn : (entries.map Prod.fst).Nodup) (h : (key, value) ∈ entries) : entries.lookup key = some value := by
  induction entries with
  | nil => cases h
  | cons e entries ih =>
    rw [List.map_cons, List.nodup_cons] at hn
    rcases List.mem_cons.mp h with rfl | h
    · exact List.lookup_cons_self
    · have hne : (key == e.1) = false := by
        rw [beq_eq_false_iff_ne]
        rintro rfl
        exact hn.1 (List.mem_map.mpr ⟨_, h, rfl⟩)
      rw [List.lookup_cons, hne]
      exact ih hn.2 h

theorem StdMap.toLex_injective {α : Type} :
    Function.Injective fun m : StdMap α => (m.entries.map toLex : List (String ×ₗ α)) := by
  intro m m' h
  exact StdMap.ext (List.map_injective_iff.mpr toLex.injective h)

instance {α : Type} [LinearOrder α] : LinearOrder (StdMap α) :=
  LinearOrder.lift' _ StdMap.toLex_injective

/-- The order an unordered container is gone through in. -/
structure Hashing where
  iter : {α : Type} → List α → List α
  perm : ∀ {α : Type} (l : List α), (iter l).Perm l

/-- How a container is gone through, and filled by insertion of one after another. -/
structure Container (α γ : Type) where
  iter : γ → List α
  fill : List α → γ
  fill_iter : ∀ c, fill (iter c) = c
  mem_fill : ∀ xs, ∀ a ∈ iter (fill xs), a ∈ xs

namespace Container

variable {α : Type}

/-- std::vector and std::list. -/
def list : Container α (List α) where
  iter c := c
  fill xs := xs
  fill_iter _ := rfl
  mem_fill _ _ h := h

def set [LinearOrder α] : Container α (StdSet α) where
  iter c := c.elems
  fill xs := ⟨OrderedSet.ofList less xs, OrderedSet.ofList_sorted less_strictWeak xs⟩
  fill_iter c := StdSet.ext (OrderedSet.ofList_of_perm less_strictWeak c.sorted (.refl _))
  mem_fill _ _ h := OrderedSet.mem_of_ofList h

def unordered_set [LinearOrder α] (H : Hashing) : Container α (StdSet α) where
  iter c := H.iter c.elems
  fill xs := ⟨OrderedSet.ofList less xs, OrderedSet.ofList_sorted less_strictWeak xs⟩
  fill_iter c := StdSet.ext (OrderedSet.ofList_of_perm less_strictWeak c.sorted (H.perm _))
  mem_fill _ _ h := OrderedSet.mem_of_ofList ((H.perm _).mem_iff.mp h)

def map : Container (String × α) (StdMap α) where
  iter c := c.entries
  fill xs := ⟨OrderedSet.ofList lessKey xs, OrderedSet.ofList_sorted lessKey_strictWeak xs⟩
  fill_iter c := StdMap.ext (OrderedSet.ofList_of_perm lessKey_strictWeak c.sorted (.refl _))
  mem_fill _ _ h := OrderedSet.mem_of_ofList h

def unordered_map (H : Hashing) : Container (String × α) (StdMap α) where
  iter c := H.iter c.entries
  fill xs := ⟨OrderedSet.ofList lessKey xs, OrderedSet.ofList_sorted lessKey_strictWeak xs⟩
  fill_iter c := StdMap.ext (OrderedSet.ofList_of_perm lessKey_strictWeak c.sorted (H.perm _))
  mem_fill _ _ h := OrderedSet.mem_of_ofList ((H.perm _).mem_iff.mp h)

end Container

/-! ## Types and their values -/

inductive Ty where
  | int
  | string
  | vector (t : Ty)
  | list (t : Ty)
  | set (t : Ty)
  | unordered_set (t : Ty)
  /-- The keys of the maps are std::string. -/
  | map (t : Ty)
  | unordered_map (t : Ty)
  deriving DecidableEq, Repr

/-- The values of a type with their `operator<`: lexicographic on containers. -/
def Ty.interp : Ty → (α : Type) × LinearOrder α
  | int => ⟨CInt, inferInstance⟩
  | string => ⟨String, inferInstance⟩
  | vector t | list t =>
    letI := t.interp.2
    ⟨List t.interp.1, inferInstance⟩
  | set t | unordered_set t =>
    letI := t.interp.2
    ⟨StdSet t.interp.1, inferInstance⟩
  | map t | unordered_map t =>
    letI := t.interp.2
    ⟨StdMap t.interp.1, inferInstance⟩

abbrev Ty.Val (t : Ty) : Type := t.interp.1

instance (t : Ty) : LinearOrder t.Val := t.interp.2

/-! ## The casts -/

section Casts

variable {Node α γ : Type} (Y : YamlNodes Node) (B : Boost) (H : Hashing)

/-- `LexicalCast<std::vector<T>, std::string>` and its like, over the cast of T. -/
def castToSequence (C : Container α γ) (cast : α → Except String String) (val : γ) : Except String String := do
  let nodes ← (C.iter val).mapM fun v => do Y.Load (← cast v)
  return Y.emit (Y.sequence nodes)

def castFromSequence (C : Container α γ) (cast : String → Except String α) (val : String) : Except String γ := do
  let node ← Y.Load val
  let res ← (List.range (Y.size node)).mapM fun i => do cast (Y.emit (← Y.getIdx node i))
  return C.fill res

/-- A key with what its value gives. -/
def keyed {β : Type} (f : α → Except String β) (kv : String × α) : Except String (String × β) := do
  return (kv.1, ← f kv.2)

/-- `LexicalCast<std::map<std::string, T>, std::string>` and its like. -/
def castToMap (C : Container (String × α) γ) (cast : α → Except String String) (val : γ) : Except String String := do
  let nodes ← (C.iter val).mapM (keyed fun v => do Y.Load (← cast v))
  return Y.emit (Y.map nodes)

def castFromMap (C : Container (String × α) γ) (cast : String → Except String α) (val : String) :
    Except String γ := do
  let node ← Y.Load val
  let res ← (Y.entries node).mapM (keyed fun node => cast (Y.emit node))
  return C.fill res

/-- `LexicalCast<T, std::string>`. -/
def toStr : (t : Ty) → t.Val → Except String String
  | .int => fun val => .ok (B.fromInt val)
  | .string => fun val => .ok val
  | .vector t => castToSequence Y .list (toStr t)
  | .list t => castToSequence Y .list (toStr t)
  | .set t => castToSequence Y .set (toStr t)
  | .unordered_set t => castToSequence Y (.unordered_set H) (toStr t)
  | .map t => castToMap Y .map (toStr t)
  | .unordered_map t => castToMap Y (.unordered_map H) (toStr t)

/-- `LexicalCast<std::string, T>`. -/
def fromStr : (t : Ty) → String → Except String t.Val
  | .int => B.toInt
  | .string => fun val => .ok val
  | .vector t => castFromSequence Y .list (fromStr t)
  | .list t => castFromSequence Y .list (fromStr t)
  | .set t => castFromSequence Y .set (fromStr t)
  | .unordered_set t => castFromSequence Y (.unordered_set H) (fromStr t)
  | .map t => castFromMap Y .map (fromStr t)
  | .unordered_map t => castFromMap Y (.unordered_map H) (fromStr t)

end Casts

/-! ## An element out and back -/

section Back

variable {Node α γ : Type} {Y : YamlNodes Node} {C : Container α γ}
  {cast : α → Except String String} {uncast : String → Except String α}

/-- What an element goes through: out to text, loaded, emitted and cast back. -/
def back (Y : YamlNodes Node) (cast : α → Except String String) (uncast : String → Except String α) (v : α) :
    Except String α := do
  let node ← Y.Load (← cast v)
  uncast (Y.emit node)

theorem back_eq_ok {v w : α} : back Y cast uncast v = .ok w ↔
    ∃ text, cast v = .ok text ∧ ∃ node, Y.Load text = .ok node ∧ uncast (Y.emit node) = .ok w := by
  simp only [back, Except.bind_eq_ok]

theorem getIdx_all (hY : Y.Lawful) (nodes : List Node) :
    (List.range (Y.size (Y.sequence nodes))).mapM (Y.getIdx (Y.sequence nodes)) = .ok nodes := by
  rw [Except.mapM_eq_ok, List.forall₂_iff_get, hY.size_sequence]
  refine ⟨List.length_range, fun i hi hi' => ?_⟩
  simpa using hY.getIdx_sequence nodes i hi'

theorem fromSequence_emit (hY : Y.Lawful) {nodes : List Node} (hn : ∀ node ∈ nodes, Y.Built node) {val : γ} :
    castFromSequence Y C uncast (Y.emit (Y.sequence nodes)) = .ok val ↔
      ∃ res, nodes.mapM (fun node => uncast (Y.emit node)) = .ok res ∧ C.fill res = val := by
  rw [castFromSequence, hY.load_emit _ (.sequence hn), Except.ok_bind_eq, Except.bind_eq_ok]
  refine exists_congr fun res => and_congr ?_ (by simp [pure, Except.pure])
  rw [← Except.mapM_comp, getIdx_all hY]
  constructor
  · rintro ⟨m, hm, hr⟩
    cases hm
    exact hr
  · intro h
    exact ⟨nodes, rfl, h⟩

theorem toSequence_eq_ok {val : γ} {text : String} : castToSequence Y C cast val = .ok text ↔
    ∃ nodes, (C.iter val).mapM (fun v => cast v >>= Y.Load) = .ok nodes ∧ Y.emit (Y.sequence nodes) = text := by
  rw [castToSequence, Except.bind_eq_ok]
  exact exists_congr fun nodes => and_congr Iff.rfl (by simp [pure, Except.pure])

/-- The nodes pushed were loaded. -/
theorem built_of_mapM {l : List α} {nodes : List Node} (h : l.mapM (fun v => cast v >>= Y.Load) = .ok nodes) :
    ∀ node ∈ nodes, Y.Built node := by
  intro node hnode
  obtain ⟨v, -, hv⟩ := Except.mem_of_mapM h hnode
  obtain ⟨text, -, hload⟩ := Except.bind_eq_ok.mp hv
  exact .load hload

/-- A sequence comes back as what its elements come back as. -/
theorem sequence_back (hY : Y.Lawful) {val val' : γ} :
    (castToSequence Y C cast val >>= castFromSequence Y C uncast) = .ok val' ↔
      ∃ res, (C.iter val).mapM (back Y cast uncast) = .ok res ∧ C.fill res = val' := by
  have hback : back Y cast uncast = fun v => (cast v >>= Y.Load) >>= fun node => uncast (Y.emit node) := by
    funext v
    rw [bind_assoc]
    rfl
  rw [Except.bind_eq_ok, hback]
  constructor
  · rintro ⟨text, hto, hfrom⟩
    obtain ⟨nodes, hnodes, rfl⟩ := toSequence_eq_ok.mp hto
    obtain ⟨res, hres, hfill⟩ := (fromSequence_emit hY (built_of_mapM hnodes)).mp hfrom
    exact ⟨res, Except.mapM_comp.mp ⟨nodes, hnodes, hres⟩, hfill⟩
  · rintro ⟨res, hres, hfill⟩
    obtain ⟨nodes, hnodes, hres⟩ := Except.mapM_comp.mpr hres
    exact ⟨_, toSequence_eq_ok.mpr ⟨nodes, hnodes, rfl⟩,
      (fromSequence_emit hY (built_of_mapM hnodes)).mpr ⟨res, hres, hfill⟩⟩

theorem keyed_eq_ok {β : Type} {f : α → Except String β} {kv : String × α} {kw : String × β} :
    keyed f kv = .ok kw ↔ kw.1 = kv.1 ∧ f kv.2 = .ok kw.2 := by
  rw [keyed, Except.bind_eq_ok]
  constructor
  · rintro ⟨w, hw, h⟩
    cases h
    exact ⟨rfl, hw⟩
  · rintro ⟨hk, hw⟩
    refine ⟨kw.2, hw, ?_⟩
    rw [← hk]
    rfl

theorem keyed_comp {β δ : Type} (f : α → Except String β) (g : β → Except String δ) :
    (fun kv => keyed f kv >>= keyed g) = keyed fun v => f v >>= g := by
  funext kv
  cases hf : f kv.2 with
  | error e => simp only [keyed, hf, Except.error_bind_eq]
  | ok w => simp only [keyed, hf, Except.ok_bind_eq]; rfl

theorem keys_of_mapM {β : Type} {f : α → Except String β} {l : List (String × α)} {r : List (String × β)}
    (h : l.mapM (keyed f) = .ok r) : r.map Prod.fst = l.map Prod.fst := by
  have h := Except.mapM_eq_ok.mp h
  induction h with
  | nil => rfl
  | cons hab _ ih => rw [List.map_cons, List.map_cons, ih (Except.mapM_eq_ok.mpr ‹_›), (keyed_eq_ok.mp hab).1]

theorem fromMap_emit {C : Container (String × α) γ} (hY : Y.Lawful) {nodes : List (String × Node)}
    (hn : ∀ e ∈ nodes, Y.Built e.2) (hk : (nodes.map Prod.fst).Nodup) {val : γ} :
    castFromMap Y C uncast (Y.emit (Y.map nodes)) = .ok val ↔
      ∃ res, nodes.mapM (keyed fun node => uncast (Y.emit node)) = .ok res ∧ C.fill res = val := by
  rw [castFromMap, hY.load_emit _ (.map hn), Except.ok_bind_eq, hY.entries_map _ hk, Except.bind_eq_ok]
  exact exists_congr fun res => and_congr Iff.rfl (by simp [pure, Except.pure])

theorem toMap_eq_ok {C : Container (String × α) γ} {val : γ} {text : String} : castToMap Y C cast val = .ok text ↔
    ∃ nodes, (C.iter val).mapM (keyed fun v => cast v >>= Y.Load) = .ok nodes ∧ Y.emit (Y.map nodes) = text := by
  rw [castToMap, Except.bind_eq_ok]
  exact exists_congr fun nodes => and_congr Iff.rfl (by simp [pure, Except.pure])

theorem built_of_mapM_keyed {l : List (String × α)} {nodes : List (String × Node)}
    (h : l.mapM (keyed fun v => cast v >>= Y.Load) = .ok nodes) : ∀ e ∈ nodes, Y.Built e.2 := by
  intro e he
  obtain ⟨kv, -, hkv⟩ := Except.mem_of_mapM h he
  obtain ⟨text, -, hload⟩ := Except.bind_eq_ok.mp (keyed_eq_ok.mp hkv).2
  exact .load hload

/-- A map comes back with its keys, and values as they come back. -/
theorem map_back {C : Container (String × α) γ} (hY : Y.Lawful) {val val' : γ}
    (hk : ((C.iter val).map Prod.fst).Nodup) :
    (castToMap Y C cast val >>= castFromMap Y C uncast) = .ok val' ↔
      ∃ res, (C.iter val).mapM (keyed (back Y cast uncast)) = .ok res ∧ C.fill res = val' := by
  have hback : keyed (back Y cast uncast) = fun kv =>
      keyed (fun v => cast v >>= Y.Load) kv >>= keyed fun node => uncast (Y.emit node) := by
    rw [keyed_comp]
    congr 1
    funext v
    rw [bind_assoc]
    rfl
  rw [Except.bind_eq_ok, hback]
  constructor
  · rintro ⟨text, hto, hfrom⟩
    obtain ⟨nodes, hnodes, rfl⟩ := toMap_eq_ok.mp hto
    rw [← keys_of_mapM hnodes] at hk
    obtain ⟨res, hres, hfill⟩ := (fromMap_emit hY (built_of_mapM_keyed hnodes) hk).mp hfrom
    exact ⟨res, Except.mapM_comp.mp ⟨nodes, hnodes, hres⟩, hfill⟩
  · rintro ⟨res, hres, hfill⟩
    obtain ⟨nodes, hnodes, hres⟩ := Except.mapM_comp.mpr hres
    rw [← keys_of_mapM hnodes] at hk
    exact ⟨_, toMap_eq_ok.mpr ⟨nodes, hnodes, rfl⟩,
      (fromMap_emit hY (built_of_mapM_keyed hnodes) hk).mpr ⟨res, hres, hfill⟩⟩

/-- What is cast to the text of a node goes through loading and emitting unchanged. -/
theorem back_of_emitted (hY : Y.Lawful) {v : α}
    (h : ∀ text, cast v = .ok text → ∃ node, Y.Built node ∧ Y.emit node = text) {w : α} :
    back Y cast uncast v = .ok w ↔ (cast v >>= uncast) = .ok w := by
  rw [back_eq_ok, Except.bind_eq_ok]
  refine exists_congr fun text => and_congr_right fun htext => ?_
  obtain ⟨node, hbuilt, rfl⟩ := h text htext
  rw [hY.load_emit node hbuilt]
  simp

theorem toSequence_emitted {val : γ} {text : String} (h : castToSequence Y C cast val = .ok text) :
    ∃ node, Y.Built node ∧ Y.emit node = text := by
  obtain ⟨nodes, hnodes, htext⟩ := toSequence_eq_ok.mp h
  exact ⟨_, .sequence (built_of_mapM hnodes), htext⟩

theorem toMap_emitted {C : Container (String × α) γ} {val : γ} {text : String} (h : castToMap Y C cast val = .ok text) :
    ∃ node, Y.Built node ∧ Y.emit node = text := by
  obtain ⟨nodes, hnodes, htext⟩ := toMap_eq_ok.mp h
  exact ⟨_, .map (built_of_mapM_keyed hnodes), htext⟩

end Back

/-! ## Whole values -/

/-- Of every element that the container is gone through. -/
def Container.All {α γ : Type} (C : Container α γ) (K : α → Prop) (c : γ) : Prop := ∀ a ∈ C.iter c, K a

/-- `f` gives back exactly what is `K`, and nothing else comes out of it. -/
structure Projects {α : Type} (f : α → Except String α) (K : α → Prop) : Prop where
  fix : ∀ a, K a → f a = .ok a
  out : ∀ a b, f a = .ok b → K b

theorem Projects.iff {α : Type} {f : α → Except String α} {K : α → Prop} (h : Projects f K) (a : α) :
    f a = .ok a ↔ K a :=
  ⟨h.out a a, h.fix a⟩

theorem Projects.congr {α : Type} {f g : α → Except String α} {K : α → Prop} (h : Projects f K)
    (hfg : ∀ a b, g a = .ok b ↔ f a = .ok b) : Projects g K where
  fix a ha := (hfg a a).mpr (h.fix a ha)
  out a b hab := h.out a b ((hfg a b).mp hab)

/-- Element by element. -/
theorem Projects.all {α γ : Type} {C : Container α γ} {f : α → Except String α} {K : α → Prop}
    {g : γ → Except String γ} (h : Projects f K)
    (hg : ∀ c c', g c = .ok c' ↔ ∃ res, (C.iter c).mapM f = .ok res ∧ C.fill res = c') :
    Projects g (C.All K) where
  fix c hc := by
    refine (hg c c).mpr ⟨C.iter c, Except.mapM_self.mpr fun a ha => h.fix a (hc a ha), C.fill_iter c⟩
  out c c' hcc' := by
    obtain ⟨res, hres, rfl⟩ := (hg c c').mp hcc'
    intro a ha
    obtain ⟨b, -, hb⟩ := Except.mem_of_mapM hres (C.mem_fill res a ha)
    exact h.out b a hb

theorem Projects.keyed {α : Type} {f : α → Except String α} {K : α → Prop} (h : Projects f K) :
    Projects (LexicalCast.keyed f) fun kv => K kv.2 where
  fix _ hkv := keyed_eq_ok.mpr ⟨rfl, h.fix _ hkv⟩
  out _ _ hab := h.out _ _ (keyed_eq_ok.mp hab).2

section Lossless

variable {Node α γ : Type} {Y : YamlNodes Node} {B : Boost} {H : Hashing}
  {cast : α → Except String String} {uncast : String → Except String α} {K : α → Prop}

/-- YAML::Load accepts the text, and the node it gives is emitted as that text. -/
def Verbatim (Y : YamlNodes Node) (text : String) : Prop := ∃ node, Y.Load text = .ok node ∧ Y.emit node = text

/-- Every std::string in an element of this type is verbatim, keys apart. -/
def Kept (Y : YamlNodes Node) (H : Hashing) : (t : Ty) → t.Val → Prop
  | .int => fun _ => True
  | .string => Verbatim Y
  | .vector t => Container.list.All (Kept Y H t)
  | .list t => Container.list.All (Kept Y H t)
  | .set t => Container.set.All (Kept Y H t)
  | .unordered_set t => (Container.unordered_set H).All (Kept Y H t)
  | .map t => Container.map.All fun kv => Kept Y H t kv.2
  | .unordered_map t => (Container.unordered_map H).All fun kv => Kept Y H t kv.2

theorem sequence_projects (hY : Y.Lawful) (C : Container α γ) (h : Projects (back Y cast uncast) K) :
    Projects (fun val => castToSequence Y C cast val >>= castFromSequence Y C uncast) (C.All K) :=
  h.all fun _ _ => sequence_back hY

theorem map_projects (hY : Y.Lawful) (C : Container (String × α) γ)
    (hk : ∀ c, ((C.iter c).map Prod.fst).Nodup) (h : Projects (back Y cast uncast) K) :
    Projects (fun val => castToMap Y C cast val >>= castFromMap Y C uncast) (C.All fun kv => K kv.2) :=
  h.keyed.all fun c _ => map_back hY (hk c)

/-- As an element of another container. -/
theorem sequence_nested (hY : Y.Lawful) (C : Container α γ) (h : Projects (back Y cast uncast) K) :
    Projects (back Y (castToSequence Y C cast) (castFromSequence Y C uncast)) (C.All K) :=
  (sequence_projects hY C h).congr fun _ _ => back_of_emitted hY fun _ => toSequence_emitted

theorem map_nested (hY : Y.Lawful) (C : Container (String × α) γ) (hk : ∀ c, ((C.iter c).map Prod.fst).Nodup)
    (h : Projects (back Y cast uncast) K) :
    Projects (back Y (castToMap Y C cast) (castFromMap Y C uncast)) (C.All fun kv => K kv.2) :=
  (map_projects hY C hk h).congr fun _ _ => back_of_emitted hY fun _ => toMap_emitted

theorem StdMap.keys_nodup (m : StdMap α) : (m.entries.map Prod.fst).Nodup := by
  rw [List.Nodup, List.pairwise_map]
  refine m.sorted.imp fun {a b} h => ?_
  exact (of_decide_eq_true h).ne

theorem map_keys (c : StdMap α) : ((Container.map.iter c).map Prod.fst).Nodup := c.keys_nodup

theorem unordered_map_keys (H : Hashing) (c : StdMap α) :
    (((Container.unordered_map H).iter c).map Prod.fst).Nodup :=
  ((H.perm _).map Prod.fst).nodup_iff.mpr c.keys_nodup

theorem back_int (hB : B.Lawful Y) : Projects (back Y (toStr Y B H .int) (fromStr Y B H .int)) (Kept Y H .int) where
  fix n _ := by
    obtain ⟨node, hload, hemit⟩ := hB.plain n
    refine back_eq_ok.mpr ⟨_, rfl, node, hload, ?_⟩
    rw [hemit]
    exact hB.toInt_fromInt n
  out _ _ _ := trivial

theorem back_string (hY : Y.Lawful) :
    Projects (back Y (toStr Y B H .string) (fromStr Y B H .string)) (Kept Y H .string) where
  fix s hs := by
    obtain ⟨node, hload, hemit⟩ := hs
    exact back_eq_ok.mpr ⟨s, rfl, node, hload, congrArg Except.ok hemit⟩
  out s w h := by
    -- what comes back was emitted, and loads as the node it was emitted from
    obtain ⟨text, -, node, hload, hw⟩ := back_eq_ok.mp h
    cases hw
    exact ⟨node, hY.load_emit node (.load hload), rfl⟩

theorem back_projects (hY : Y.Lawful) (hB : B.Lawful Y) (t : Ty) :
    Projects (back Y (toStr Y B H t) (fromStr Y B H t)) (Kept Y H t) := by
  induction t with
  | int => exact back_int hB
  | string => exact back_string hY
  | vector t ih => exact sequence_nested hY _ ih
  | list t ih => exact sequence_nested hY _ ih
  | set t ih => exact sequence_nested hY _ ih
  | unordered_set t ih => exact sequence_nested hY _ ih
  | map t ih => exact map_nested hY _ map_keys ih
  | unordered_map t ih => exact map_nested hY _ (unordered_map_keys H) ih

theorem cast_projects (hY : Y.Lawful) (hB : B.Lawful Y) (t : Ty) (ht : t ≠ .string) :
    Projects (fun val => toStr Y B H t val >>= fromStr Y B H t) (Kept Y H t) := by
  have helem : ∀ t, Projects (back Y (toStr Y B H t) (fromStr Y B H t)) (Kept Y H t) := back_projects hY hB
  cases t with
  | int => exact ⟨fun n _ => hB.toInt_fromInt n, fun _ _ _ => trivial⟩
  | string => exact absurd rfl ht
  | vector t => exact sequence_projects hY _ (helem t)
  | list t => exact sequence_projects hY _ (helem t)
  | set t => exact sequence_projects hY _ (helem t)
  | unordered_set t => exact sequence_projects hY _ (helem t)
  | map t => exact map_projects hY _ map_keys (helem t)
  | unordered_map t => exact map_projects hY _ (unordered_map_keys H) (helem t)

/-- No std::string inside, keys apart. -/
def Ty.stringFree : Ty → Bool
  | .int => true
  | .string => false
  | .vector t | .list t | .set t | .unordered_set t | .map t | .unordered_map t => stringFree t

theorem kept_of_stringFree (t : Ty) (ht : t.stringFree = true) (val : t.Val) : Kept Y H t val := by
  induction t with
  | int => trivial
  | string => cases ht
  | vector t ih => exact fun v _ => ih ht v
  | list t ih => exact fun v _ => ih ht v
  | set t ih => exact fun v _ => ih ht v
  | unordered_set t ih => exact fun v _ => ih ht v
  | map t ih => exact fun kv _ => ih ht kv.2
  | unordered_map t ih => exact fun kv _ => ih ht kv.2

/-- The containers of int, in any nesting, are lossless. -/
theorem lossless_stringFree (hY : Y.Lawful) (hB : B.Lawful Y) (t : Ty) (ht : t.stringFree = true) (val : t.Val) :
    (toStr Y B H t val >>= fromStr Y B H t) = .ok val := by
  have hne : t ≠ .string := by
    rintro rfl
    cases ht
  exact (cast_projects hY hB t hne).fix val (kept_of_stringFree t ht val)

theorem empty_not_verbatim (hY : Y.Lawful) : ¬Verbatim Y "" := by
  rintro ⟨node, hload, hemit⟩
  rw [hY.load_empty] at hload
  cases hload
  rw [hY.emit_null] at hemit
  exact absurd hemit (by decide)

/-- The text form of a value is lossless exactly when every std::string inside a container
    is verbatim; a std::string alone is its own text. -/
theorem lossless_iff (Y : YamlNodes Node) (B : Boost) (H : Hashing) (hY : Y.Lawful) (hB : B.Lawful Y) (t : Ty)
    (val : t.Val) :
    (toStr Y B H t val >>= fromStr Y B H t) = .ok val ↔ t = .string ∨ Kept Y H t val := by
  by_cases ht : t = .string
  · subst ht
    exact iff_of_true rfl (.inl rfl)
  · rw [or_iff_right ht]
    exact (cast_projects hY hB t ht).iff val

end Lossless

/-! ## Two vectors of strings -/

section BlockYaml

/-- yaml-cpp on the texts of `BlockYaml`. -/
def blockYaml : YamlNodes BlockYaml.Node where
  Load text := (BlockYaml.load text).elim (.error "yaml-cpp: error") .ok
  IsDefined _ := true
  size
    | .sequence nodes => nodes.length
    | .map entries => entries.length
    | _ => 0
  get
    | .map entries, key => (entries.lookup key).elim (.error "invalid node") .ok
    | _, _ => .error "operator[] call on a scalar"
  getIdx
    | .sequence nodes, i => nodes[i]?.elim (.error "invalid node") .ok
    | _, _ => .error "operator[] call on a scalar"
  asString
    | .scalar text => .ok text
    | .null => .ok "null"
    | _ => .error "bad conversion"
  emit := BlockYaml.emit
  null := .null
  sequence := .sequence
  map := .map
  entries
    | .map entries => entries
    | _ => []

theorem blockYaml_load {text : String} {node : BlockYaml.Node} (h : BlockYaml.load text = some node) :
    blockYaml.Load text = .ok node := by
  show (BlockYaml.load text).elim _ _ = _
  rw [h]
  rfl

theorem blockYaml_lawful : blockYaml.Lawful where
  load_emit node _ := blockYaml_load (BlockYaml.load_emit node)
  load_empty := blockYaml_load BlockYaml.load_empty
  emit_null := BlockYaml.emit_null
  size_sequence _ := rfl
  getIdx_sequence nodes i h := by
    show nodes[i]?.elim _ _ = _
    rw [List.getElem?_eq_getElem h]
    rfl
  entries_map _ _ := rfl

theorem verbatim_of_plain {text : String} (h : BlockYaml.isPlain text.toList) : Verbatim blockYaml text :=
  ⟨.scalar text, blockYaml_load (BlockYaml.load_plain h), BlockYaml.emit_plain h⟩

def readDigits (s : List Char) : Option Int :=
  if s ≠ [] ∧ s.all Char.isDigit then some (Nat.ofDigitChars 10 s 0) else none

/-- A sign or none, and digits. -/
def readInt : List Char → Option Int
  | '-' :: s => (readDigits s).map (-·)
  | '+' :: s => readDigits s
  | s => readDigits s

/-- boost::lexical_cast on decimal texts. -/
def decimal : Boost where
  fromInt n := toString n.1
  toInt text := match readInt text.toList with
    | some n => if h : -2147483648 ≤ n ∧ n ≤ 2147483647 then .ok ⟨n, h⟩ else .error "bad lexical cast"
    | none => .error "bad lexical cast"

theorem digits_repr (k : Nat) : k.repr.toList ≠ [] ∧ ∀ c ∈ k.repr.toList, c.isDigit := by
  rw [Nat.toList_repr]
  exact ⟨Nat.toDigits_ne_nil, fun c hc => Nat.isDigit_of_mem_toDigits (by decide) (by decide) hc⟩

theorem readDigits_repr (k : Nat) : readDigits k.repr.toList = some (k : Int) := by
  obtain ⟨hne, hdigits⟩ := digits_repr k
  rw [readDigits, if_pos ⟨hne, List.all_eq_true.mpr hdigits⟩, Nat.toList_repr, Nat.ofDigitChars_ten_toDigits]

theorem readInt_toString (n : Int) : readInt (toString n).toList = some n := by
  rw [Int.toString_eq_repr, Int.repr_eq_if]
  split
  · obtain ⟨-, hdigits⟩ := digits_repr n.toNat
    have hread := readDigits_repr n.toNat
    rw [Int.toNat_of_nonneg ‹_›] at hread
    -- the first character is a digit, not a sign
    unfold readInt
    split
    · rename_i heq
      exact absurd (hdigits '-' (heq ▸ .head _)) (by decide)
    · rename_i heq
      exact absurd (hdigits '+' (heq ▸ .head _)) (by decide)
    · exact hread
  · have hread := readDigits_repr (-n).toNat
    rw [Int.toNat_of_nonneg (by omega)] at hread
    have hminus : ("-" ++ (-n).toNat.repr).toList = '-' :: (-n).toNat.repr.toList := by
      rw [String.toList_append]
      rfl
    rw [hminus, readInt, hread]
    simp

theorem decimal_plain (n : Int) : BlockYaml.isPlain (toString n).toList := by
  rw [Int.toString_eq_repr, Int.repr_eq_if]
  split
  · exact BlockYaml.isPlain_digits (digits_repr _).1 (digits_repr _).2
  · rw [String.toList_append]
    exact BlockYaml.isPlain_minus (digits_repr _).1 (digits_repr _).2

theorem decimal_lawful : decimal.Lawful blockYaml where
  toInt_fromInt n := by
    simp only [decimal, readInt_toString]
    exact dif_pos n.2
  plain n := verbatim_of_plain (decimal_plain n.1)

/-- Every container is gone through in ascending order. -/
def ascending : Hashing where
  iter l := l
  perm l := .refl l

theorem lossless_words :
    (toStr blockYaml decimal ascending (.vector .string) ["ab", "c"] >>=
      fromStr blockYaml decimal ascending (.vector .string)) = .ok ["ab", "c"] := by
  have hkept : Kept blockYaml ascending (.vector .string) ["ab", "c"] := by
    intro text htext
    rcases List.mem_pair.mp htext with rfl | rfl <;> exact verbatim_of_plain (by decide)
  exact (lossless_iff blockYaml decimal ascending blockYaml_lawful decimal_lawful (.vector .string) ["ab", "c"]).mpr
    (.inr hkept)

/-- The vector of one empty string is written `- ~`, and read back as the vector of `~`. -/
theorem empty_becomes_tilde :
    toStr blockYaml decimal ascending (.vector .string) [""] = .ok "- ~" ∧
      fromStr blockYaml decimal ascending (.vector .string) "- ~" = .ok ["~"] ∧
      (toStr blockYaml decimal ascending (.vector .string) [""] >>=
        fromStr blockYaml decimal ascending (.vector .string)) ≠ .ok [""] := by
  have hto : toStr blockYaml decimal ascending (.vector .string) [""] = .ok "- ~" := by rfl
  have hfrom : fromStr blockYaml decimal ascending (.vector .string) "- ~" = .ok ["~"] := by rfl
  refine ⟨hto, hfrom, ?_⟩
  rw [hto, Except.ok_bind_eq, hfrom]
  intro h
  have hne : (["~"] : List String) ≠ [""] := by decide
  exact hne (Except.ok.inj h)

end BlockYaml

end LexicalCast
end Sylar
