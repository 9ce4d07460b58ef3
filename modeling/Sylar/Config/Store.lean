/-
  Sylar.Config.Store — all configuration variables of a process, over histories of calls
  (sylar/config.h lines 234-359, sylar/config.cpp lines 18-53).

  The store is `GetDatas()` with the counters `s_fun_id`, of which addListener has one for
  every T. A caller has the pointer that `Lookup<T>(name)` gives, and does nothing with a
  null pointer; a variable is never removed, so its name stands for the pointer. Types and
  their conversions are parameters. Beside each variable stand the calls of its listeners.
  Calls come one after the other (`Sylar.Config.SetValue` has them at once), the listeners
  do not call the store, and the counters do not wrap.

  Proved, when no listener throws, of every history:
  - `run_accounts`: a variable stays, with its type; its value is the last one that it was
    given, by setValue, by fromString of a text that converts, or by LoadFromYaml for a
    node of its name. A listener that is there and is not removed is told exactly the
    changes from its variable's value at that time to its value now; one that was removed
    is told nothing more, as its key is not used again.
  - `load_again_iff`: loading a tree once more leaves every value, but tells the listeners
    of a variable, exactly when two of its nodes in the tree convert to different values.
-/

import Sylar.Config.FromString
import Sylar.Config.LoadFromYaml
import Sylar.Lib.Changes

namespace Sylar
namespace Config

open BlockYaml (Node)
open ConfigVar (ListenerId OnChange Effect Chained LastIs callAll)
open Changes

/-! ## A variable -/

/-- A `ConfigVar<T>`, and the calls of listeners so far, each with both values. -/
structure Entry (T : Type) where
  var : ConfigVar.Var T
  told : List (ListenerId × T × T)

section

variable {T : Type}

def Entry.after {R : Type} (e : Entry T) (r : Effect T R) : Entry T :=
  ⟨r.var, e.told ++ r.notices.map fun n => (n.listener, e.var.m_val, n.new)⟩

def Entry.setValue [DecidableEq T] (e : Entry T) (val : T) : Entry T := e.after (e.var.setValue val)

def Entry.fromString [DecidableEq T] (FromStr : String → Except String T) (e : Entry T) (val : String) : Entry T :=
  e.after (e.var.fromString FromStr val)

/-- `m_cbs[key] = cb`, in the order of the keys. -/
def insertListener (key : ListenerId) (cb : OnChange T) (m_cbs : List (ListenerId × OnChange T)) :
    List (ListenerId × OnChange T) :=
  m_cbs.filter (·.1 < key) ++ (key, cb) :: m_cbs.filter (key < ·.1)

def Entry.addListener (key : ListenerId) (cb : OnChange T) (e : Entry T) : Entry T :=
  { e with var := { e.var with m_cbs := insertListener key cb e.var.m_cbs } }

def Entry.delListener (key : ListenerId) (e : Entry T) : Entry T :=
  { e with var := { e.var with m_cbs := e.var.m_cbs.filter (·.1 ≠ key) } }

def Entry.clearListener (e : Entry T) : Entry T := { e with var := { e.var with m_cbs := [] } }

def Entry.keys (e : Entry T) : List ListenerId := e.var.m_cbs.map Prod.fst

/-- What one listener was told. -/
def Entry.toldTo (key : ListenerId) (e : Entry T) : List (T × T) :=
  e.told.filterMap fun c => if c.1 = key then some c.2 else none

end

/-! ## The store -/

section

variable {Ty : Type} [DecidableEq Ty]

/-- `GetDatas()`, and `s_fun_id` by type. -/
structure Store (El : Ty → Type) where
  datas : List (String × (t : Ty) × Entry (El t))
  nodup : (datas.map Prod.fst).Nodup
  legal : ∀ name ∈ datas.map Prod.fst, legal name = true
  s_fun_id : Ty → Nat

variable {El : Ty → Type}

/-- `std::dynamic_pointer_cast<ConfigVar<T>>`. -/
def as (t : Ty) : ((t : Ty) × Entry (El t)) → Option (Entry (El t))
  | ⟨t', e⟩ => if h : t' = t then some (h ▸ e) else none

/-- `Config::Lookup<T>(name)`. -/
def Store.get (s : Store El) (t : Ty) (name : String) : Option (Entry (El t)) := (s.datas.lookup name).bind (as t)

/-- `Config::Lookup<T>(name, default_value)`: whether it returns a variable; an exception
    is the name. -/
def Store.Lookup (s : Store El) (t : Ty) (name : String) (default_value : El t) : Except String (Bool × Store El) :=
  match h : s.datas.lookup name with
  | some var => .ok ((as t var).isSome, s)
  | none =>
    if hl : Config.legal name = true then
      .ok (true, { s with
        datas := (name, ⟨t, ⟨⟨default_value, []⟩, []⟩⟩) :: s.datas
        nodup := List.nodup_cons.mpr ⟨fun hin => by
          obtain ⟨p, hp, rfl⟩ := List.mem_map.mp hin
          exact absurd rfl (bne_iff_ne.mp (List.lookup_eq_none_iff.mp h p hp)), s.nodup⟩
        legal := List.forall_mem_cons.mpr ⟨hl, s.legal⟩ })
    else .error name

omit [DecidableEq Ty] in
theorem map_update (datas : List (String × (t : Ty) × Entry (El t))) (name : String)
    (F : (t : Ty) → Entry (El t) → Entry (El t)) :
    (datas.map fun p => if p.1 = name then (p.1, ⟨p.2.1, F p.2.1 p.2.2⟩) else p).map Prod.fst =
      datas.map Prod.fst := by
  rw [List.map_map]
  apply List.map_congr_left
  intro p _
  dsimp only [Function.comp_apply]
  split <;> rfl

/-- The variable of that name is changed. -/
def Store.update (s : Store El) (name : String) (F : (t : Ty) → Entry (El t) → Entry (El t)) : Store El where
  datas := s.datas.map fun p => if p.1 = name then (p.1, ⟨p.2.1, F p.2.1 p.2.2⟩) else p
  nodup := by
    rw [map_update]
    exact s.nodup
  legal := by
    rw [map_update]
    exact s.legal
  s_fun_id := s.s_fun_id

/-- If it is a `ConfigVar<T>`. -/
def on (t : Ty) (f : Entry (El t) → Entry (El t)) (t' : Ty) (e : Entry (El t')) : Entry (El t') :=
  if h : t' = t then h ▸ f (h ▸ e) else e

/-- The new listener's key is the counter's next. -/
def Store.addListener (s : Store El) (t : Ty) (name : String) (cb : OnChange (El t)) : Store El :=
  match s.get t name with
  | none => s
  | some _ =>
    { s.update name (on t (·.addListener (s.s_fun_id t + 1) cb)) with
      s_fun_id := Function.update s.s_fun_id t (s.s_fun_id t + 1) }

/-- One call of the process. -/
inductive Op (El : Ty → Type) where
  | lookup (t : Ty) (name : String) (default_value : El t)
  | setValue (t : Ty) (name : String) (val : El t)
  | fromString (name val : String)
  | addListener (t : Ty) (name : String) (cb : OnChange (El t))
  | delListener (t : Ty) (name : String) (key : ListenerId)
  | clearListener (t : Ty) (name : String)
  | loadFromYaml (root : Node)

variable [∀ t, DecidableEq (El t)] (FromStr : (t : Ty) → String → Except String (El t)) (emit : Node → String)

/-- `LookupBase(name)`, and fromString if there is one. -/
def Store.fromString (s : Store El) (name val : String) : Store El :=
  s.update name fun t e => e.fromString (FromStr t) val

/-- The loop over all_nodes. -/
def Store.LoadFromYaml (s : Store El) (root : Node) : Store El :=
  (ListAllMember "" root).foldl
    (fun s p => if p.1.isEmpty then s else s.fromString FromStr (toLower p.1) (text emit p.2)) s

def Store.exec (s : Store El) : Op El → Store El
  | .lookup t name default_value =>
    match s.Lookup t name default_value with
    | .ok r => r.2
    | .error _ => s
  | .setValue t name val => s.update name (on t (·.setValue val))
  | .fromString name val => s.fromString FromStr name val
  | .addListener t name cb => s.addListener t name cb
  | .delListener t name key => s.update name (on t (·.delListener key))
  | .clearListener t name => s.update name (on t (·.clearListener))
  | .loadFromYaml root => s.LoadFromYaml FromStr emit root

def Store.run (s : Store El) (ops : List (Op El)) : Store El := ops.foldl (Store.exec FromStr emit) s

/-- Before the first call. -/
def Store.start : Store El := ⟨[], .nil, nofun, fun _ => 0⟩

/-! ## What a call gives a variable -/

/-- The text as a value, if it converts. -/
def converted (t : Ty) (val : String) : List (El t) :=
  match FromStr t val with
  | .ok v => [v]
  | .error _ => []

/-- The values of the nodes of that name, in the order of the walk. -/
def loaded (t : Ty) (name : String) (root : Node) : List (El t) :=
  (ListAllMember "" root).flatMap fun p =>
    if ¬p.1.isEmpty ∧ toLower p.1 = name then converted FromStr t (text emit p.2) else []

def Op.wrote (t : Ty) (name : String) : Op El → List (El t)
  | .setValue t' name' val => if h : t' = t then if name' = name then [h ▸ val] else [] else []
  | .fromString name' val => if name' = name then converted FromStr t val else []
  | .loadFromYaml root => loaded FromStr emit t name root
  | _ => []

def Op.removes (t : Ty) (name : String) (key : ListenerId) : Op El → Prop
  | .delListener t' name' key' => t' = t ∧ name' = name ∧ key' = key
  | .clearListener t' name' => t' = t ∧ name' = name
  | _ => False

/-- A listener that is added does not throw. -/
def Op.Returns : Op El → Prop
  | .addListener _ _ cb => ∀ old new, cb old new = .ok ()
  | _ => True

end

/-! ## One variable -/

section

variable {T : Type} {e e' e'' : Entry T} {n n' : Nat} {ws ws' : List T} {key : ListenerId}

/-- Its listeners, with keys up to the counter. -/
structure Entry.Inv (e : Entry T) (n : Nat) : Prop where
  nodup : e.keys.Nodup
  bound : ∀ key ∈ e.keys, key ≤ n
  returns : ∀ p ∈ e.var.m_cbs, ∀ old new, p.2 old new = .ok ()
  unused : ∀ key, n < key → e.toldTo key = []
  agree : ∀ key ∈ e.keys, Chained (e.toldTo key) ∧ LastIs (e.toldTo key) e.var.m_val

/-- The variable was given the values. -/
structure Given [DecidableEq T] (e e' : Entry T) (ws : List T) : Prop where
  val : e'.var.m_val = latest e.var.m_val ws
  cbs : e'.var.m_cbs = e.var.m_cbs
  told : ∀ key, e'.toldTo key = e.toldTo key ++ if key ∈ e.keys then changes e.var.m_val ws else []

theorem callAll_returns {m_cbs : List (ListenerId × OnChange T)} (h : ∀ p ∈ m_cbs, ∀ old new, p.2 old new = .ok ())
    (old new : T) : callAll old new m_cbs = (m_cbs.map fun p => ⟨p.1, new, true⟩, .ok ()) := by
  induction m_cbs with
  | nil => rfl
  | cons p rest ih =>
    obtain ⟨l, cb⟩ := p
    have hcb : cb old new = .ok () := h _ (.head _) old new
    rw [callAll, hcb, ih fun p hp => h p (.tail _ hp)]
    rfl

/-- The calls for one listener, of a round in which each is called once. -/
theorem filterMap_round {m_cbs : List (ListenerId × OnChange T)} (hn : (m_cbs.map Prod.fst).Nodup) (c : T × T)
    (key : ListenerId) : ((m_cbs.map fun p => (p.1, c)).filterMap fun c => if c.1 = key then some c.2 else none) =
      if key ∈ m_cbs.map Prod.fst then [c] else [] := by
  induction m_cbs with
  | nil => rfl
  | cons p rest ih =>
    obtain ⟨hout, hrest⟩ := List.nodup_cons.mp hn
    rw [List.map_cons, List.map_cons, List.filterMap_cons, ih hrest]
    by_cases heq : p.1 = key
    · rw [if_pos heq, if_neg (heq ▸ hout), if_pos (heq ▸ List.mem_cons_self)]
    · have hmem : key ∈ p.1 :: rest.map Prod.fst ↔ key ∈ rest.map Prod.fst := by
        rw [List.mem_cons, or_iff_right fun h => heq h.symm]
      rw [if_neg heq]
      simp only [hmem]

section

variable [DecidableEq T]

theorem Given.refl (e : Entry T) : Given e e [] := ⟨rfl, rfl, fun key => by simp [changes]⟩

theorem Given.keys (h : Given e e' ws) : e'.keys = e.keys := by rw [Entry.keys, h.cbs, Entry.keys]

theorem Given.trans (h : Given e e' ws) (h' : Given e' e'' ws') : Given e e'' (ws ++ ws') where
  val := by rw [h'.val, h.val, latest_append]
  cbs := h'.cbs.trans h.cbs
  told key := by
    rw [h'.told, h.told, h.keys, changes_append, h.val, List.append_assoc]
    split <;> rfl

omit [DecidableEq T] in
theorem after_none {R : Type} (e : Entry T) (ret : R) : e.after ⟨e.var, [], ret⟩ = e := by
  rw [Entry.after, List.map_nil, List.append_nil]

theorem setValue_eq (h : ∀ p ∈ e.var.m_cbs, ∀ old new, p.2 old new = .ok ()) (val : T) :
    e.setValue val = if e.var.m_val = val then e
      else ⟨{ e.var with m_val := val }, e.told ++ e.var.m_cbs.map fun p => (p.1, e.var.m_val, val)⟩ := by
  rw [Entry.setValue, ConfigVar.Var.setValue]
  split
  · exact after_none e _
  · rw [callAll_returns h, Entry.after, List.map_map]
    rfl

theorem setValue_given (h : e.Inv n) (val : T) : Given e (e.setValue val) [val] := by
  rw [setValue_eq h.returns]
  by_cases heq : e.var.m_val = val
  · rw [if_pos heq]
    refine ⟨heq, rfl, fun key => ?_⟩
    simp [changes, heq]
  · rw [if_neg heq]
    refine ⟨rfl, rfl, fun key => ?_⟩
    rw [Entry.toldTo, List.filterMap_append, filterMap_round h.nodup, changes, if_neg heq]
    rfl

theorem fromString_eq (FromStr : String → Except String T) (e : Entry T) (val : String) :
    e.fromString FromStr val =
      match FromStr val with
      | .ok v => e.setValue v
      | .error _ => e := by
  rw [Entry.fromString, ConfigVar.Var.fromString]
  cases FromStr val with
  | error what => exact after_none e _
  | ok v =>
    dsimp only [Entry.setValue]
    split <;> rfl

/-- What was given leaves the variable as it should be. -/
theorem Given.inv (h : Given e e' ws) (hinv : e.Inv n) : e'.Inv n where
  nodup := h.keys ▸ hinv.nodup
  bound := h.keys ▸ hinv.bound
  returns := h.cbs ▸ hinv.returns
  unused key hkey := by
    have hout : key ∉ e.keys := fun hin => absurd (hinv.bound key hin) (Nat.not_le.mpr hkey)
    rw [h.told, hinv.unused key hkey, if_neg hout]
    rfl
  agree key hkey := by
    rw [h.keys] at hkey
    obtain ⟨hchain, hlast⟩ := hinv.agree key hkey
    rw [h.told, if_pos hkey, h.val]
    constructor
    · refine List.isChain_append.mpr ⟨hchain, changes_chain _ _, fun p hp q hq => ?_⟩
      rw [changes_head hq, hlast p hp]
    · intro p hp
      rw [List.getLast?_append] at hp
      cases hnew : (changes e.var.m_val ws).getLast? with
      | some q =>
        rw [hnew] at hp
        cases hp
        exact changes_end hnew
      | none =>
        rw [hnew] at hp
        have hsame := changes_eq_nil_iff.mp (List.getLast?_eq_none_iff.mp hnew)
        have hval : latest e.var.m_val ws = e.var.m_val := by
          cases ws with
          | nil => rfl
          | cons w ws => exact hsame _ (latest_mem (List.cons_ne_nil w ws))
        rw [hval, hlast p hp]

/-- What calls did to a variable, those that give it values and those that add and remove
    listeners. -/
structure Kept (n : Nat) (e e' : Entry T) (ws : List T) (removed : ListenerId → Prop) : Prop where
  val : e'.var.m_val = latest e.var.m_val ws
  stays : ∀ key ∈ e.keys, ¬removed key → key ∈ e'.keys ∧ e'.toldTo key = e.toldTo key ++ changes e.var.m_val ws
  gone : ∀ key ≤ n, key ∉ e.keys → key ∉ e'.keys ∧ e'.toldTo key = e.toldTo key

theorem Kept.trans {removed removed' : ListenerId → Prop} (h : Kept n e e' ws removed)
    (h' : Kept n' e' e'' ws' removed') (hle : n ≤ n') :
    Kept n e e'' (ws ++ ws') fun key => removed key ∨ removed' key where
  val := by rw [h'.val, h.val, latest_append]
  stays key hkey hno := by
    obtain ⟨hin, htold⟩ := h.stays key hkey fun hr => hno (.inl hr)
    obtain ⟨hin', htold'⟩ := h'.stays key hin fun hr => hno (.inr hr)
    refine ⟨hin', ?_⟩
    rw [htold', htold, h.val, changes_append, List.append_assoc]
  gone key hkey hout := by
    obtain ⟨hout', htold⟩ := h.gone key hkey hout
    obtain ⟨hout'', htold'⟩ := h'.gone key (hkey.trans hle) hout'
    exact ⟨hout'', htold'.trans htold⟩

theorem Given.kept (h : Given e e' ws) (n : Nat) (removed : ListenerId → Prop) : Kept n e e' ws removed where
  val := h.val
  stays key hkey _ := by
    rw [h.keys, h.told, if_pos hkey]
    exact ⟨hkey, rfl⟩
  gone key _ hout := by
    rw [h.keys, h.told, if_neg hout, List.append_nil]
    exact ⟨hout, rfl⟩

/-- Listeners come and go. -/
theorem Kept.of_cbs {removed : ListenerId → Prop} (hval : e'.var.m_val = e.var.m_val) (htold : e'.told = e.told)
    (hstays : ∀ key ∈ e.keys, ¬removed key → key ∈ e'.keys) (hgone : ∀ key ≤ n, key ∉ e.keys → key ∉ e'.keys) :
    Kept n e e' [] removed where
  val := hval
  stays key hkey hno := by
    refine ⟨hstays key hkey hno, ?_⟩
    rw [Entry.toldTo, htold, changes, List.append_nil]
    rfl
  gone key hkey hout := by
    refine ⟨hgone key hkey hout, ?_⟩
    rw [Entry.toldTo, htold]
    rfl

end

/-- The new key is after all others. -/
theorem insertListener_eq (h : e.Inv n) (cb : OnChange T) :
    insertListener (n + 1) cb e.var.m_cbs = e.var.m_cbs ++ [(n + 1, cb)] := by
  have hall : ∀ p ∈ e.var.m_cbs, p.1 < n + 1 := fun p hp => Nat.lt_succ_of_le (h.bound p.1 (List.mem_map_of_mem hp))
  have hnone : ∀ p ∈ e.var.m_cbs, ¬n + 1 < p.1 := fun p hp => Nat.lt_asymm (hall p hp)
  rw [insertListener, List.filter_eq_self.mpr, List.filter_eq_nil_iff.mpr]
  · simpa using hnone
  · simpa using hall

theorem keys_addListener (h : e.Inv n) (cb : OnChange T) : (e.addListener (n + 1) cb).keys = e.keys ++ [n + 1] := by
  rw [Entry.keys, Entry.addListener, insertListener_eq h, List.map_append]
  rfl

theorem mem_keys_delListener : key ∈ (e.delListener n).keys ↔ key ∈ e.keys ∧ key ≠ n := by
  simp only [Entry.keys, Entry.delListener, List.mem_map, List.mem_filter]
  constructor
  · rintro ⟨p, ⟨hp, hne⟩, rfl⟩
    exact ⟨⟨p, hp, rfl⟩, of_decide_eq_true hne⟩
  · rintro ⟨⟨p, hp, rfl⟩, hne⟩
    exact ⟨p, ⟨hp, decide_eq_true hne⟩, rfl⟩

theorem Entry.Inv.mono (h : e.Inv n) (hle : n ≤ n') : e.Inv n' where
  nodup := h.nodup
  bound key hkey := (h.bound key hkey).trans hle
  returns := h.returns
  unused key hkey := h.unused key (Nat.lt_of_le_of_lt hle hkey)
  agree := h.agree

theorem addListener_inv (h : e.Inv n) {cb : OnChange T} (hcb : ∀ old new, cb old new = .ok ()) :
    (e.addListener (n + 1) cb).Inv (n + 1) := by
  have hkeys := keys_addListener h cb
  have hout : n + 1 ∉ e.keys := fun hin => absurd (h.bound _ hin) (Nat.not_succ_le_self n)
  refine ⟨?_, ?_, ?_, fun key hkey => h.unused key (Nat.lt_of_succ_lt hkey), ?_⟩
  · rw [hkeys, List.nodup_append]
    refine ⟨h.nodup, by simp, fun key hkey key' hnew heq => hout ?_⟩
    rwa [← List.mem_singleton.mp hnew, ← heq]
  · intro key hkey
    rw [hkeys] at hkey
    rcases List.mem_append.mp hkey with hin | hnew
    · exact Nat.le_succ_of_le (h.bound key hin)
    · rw [List.mem_singleton.mp hnew]
  · intro p hp
    rw [Entry.addListener, insertListener_eq h] at hp
    rcases List.mem_append.mp hp with hin | hnew
    · exact h.returns p hin
    · rw [List.mem_singleton.mp hnew]
      exact hcb
  · intro key hkey
    rw [hkeys] at hkey
    rcases List.mem_append.mp hkey with hin | hnew
    · exact h.agree key hin
    · -- the new listener was told nothing yet
      have hnil : (e.addListener (n + 1) cb).toldTo key = [] := by
        rw [List.mem_singleton.mp hnew]
        exact h.unused (n + 1) (Nat.lt_succ_self n)
      rw [hnil]
      exact ⟨.nil, nofun⟩

theorem inv_new (hcbs : e.var.m_cbs = []) (htold : e.told = []) (n : Nat) : e.Inv n where
  nodup := by
    rw [Entry.keys, hcbs]
    exact .nil
  bound := by
    rw [Entry.keys, hcbs]
    nofun
  returns := by
    rw [hcbs]
    nofun
  unused key _ := by
    rw [Entry.toldTo, htold]
    rfl
  agree := by
    rw [Entry.keys, hcbs]
    nofun

/-- Fewer listeners. -/
theorem Entry.Inv.sub (h : e.Inv n) (hval : e'.var.m_val = e.var.m_val) (htold : e'.told = e.told)
    (hsub : e'.var.m_cbs.Sublist e.var.m_cbs) : e'.Inv n where
  nodup := h.nodup.sublist (hsub.map _)
  bound key hkey := h.bound key ((hsub.map _).subset hkey)
  returns p hp := h.returns p (hsub.subset hp)
  unused key hkey := by
    rw [Entry.toldTo, htold]
    exact h.unused key hkey
  agree key hkey := by
    rw [Entry.toldTo, htold, hval]
    exact h.agree key ((hsub.map _).subset hkey)

end

/-! ## All of them -/

section

variable {Ty : Type} [DecidableEq Ty] {El : Ty → Type} {s s' : Store El} {t t' : Ty} {name name' : String}

theorem as_self (e : Entry (El t)) : as t ⟨t, e⟩ = some e := dif_pos rfl

omit [DecidableEq Ty] in
theorem lookup_update (datas : List (String × (t : Ty) × Entry (El t))) (name : String)
    (F : (t : Ty) → Entry (El t) → Entry (El t)) (name' : String) :
    (datas.map fun p => if p.1 = name then (p.1, ⟨p.2.1, F p.2.1 p.2.2⟩) else p).lookup name' =
      if name' = name then (datas.lookup name').map fun var => ⟨var.1, F var.1 var.2⟩ else datas.lookup name' := by
  induction datas with
  | nil => simp
  | cons p rest ih =>
    obtain ⟨key, var⟩ := p
    rw [List.map_cons, List.lookup_cons, List.lookup_cons, ih]
    by_cases hkey : key = name
    · subst hkey
      by_cases hname : name' = key
      · subst hname
        simp
      · simp [hname, beq_false_of_ne hname]
    · by_cases hname : name' = key
      · subst hname
        simp [hkey]
      · simp [hkey, beq_false_of_ne hname]

theorem get_update (s : Store El) (name : String) (F : (t : Ty) → Entry (El t) → Entry (El t)) (t : Ty)
    (name' : String) :
    (s.update name F).get t name' = if name' = name then (s.get t name').map (F t) else s.get t name' := by
  rw [Store.get, Store.update, lookup_update]
  split
  · rw [Store.get]
    cases s.datas.lookup name' with
    | none => rfl
    | some var =>
      obtain ⟨t', e⟩ := var
      by_cases ht : t' = t
      · subst ht
        rw [Option.map_some, Option.bind_some, Option.bind_some, as_self, as_self]
        rfl
      · rw [Option.map_some, Option.bind_some, Option.bind_some, as, as, dif_neg ht, dif_neg ht]
        rfl
  · rfl

/-- Of the variables, only that one is changed, and if it is of the type. -/
theorem get_update_on (s : Store El) (name : String) (f : Entry (El t) → Entry (El t)) {e : Entry (El t')}
    (he : s.get t' name' = some e) :
    (s.update name (on t f)).get t' name' = some (if name' = name then on t f t' e else e) := by
  rw [get_update, he]
  split <;> rfl

theorem on_self (f : Entry (El t) → Entry (El t)) : on t f t = f := by
  funext e
  exact dif_pos rfl

theorem on_of_ne (f : Entry (El t) → Entry (El t)) (ht : t' ≠ t) (e : Entry (El t')) : on t f t' e = e := dif_neg ht

/-- Lookup makes a variable with nothing but its value, or none. -/
theorem Lookup_get {default_value : El t} {r : Bool × Store El} (h : s.Lookup t name default_value = .ok r) :
    r.2.s_fun_id = s.s_fun_id ∧ ∀ t' name', r.2.get t' name' = s.get t' name' ∨
      s.datas.lookup name' = none ∧ (∀ e, r.2.get t' name' = some e → e.var.m_cbs = [] ∧ e.told = []) := by
  unfold Store.Lookup at h
  split at h
  · cases h
    exact ⟨rfl, fun _ _ => .inl rfl⟩
  · next hnone =>
    split at h
    · cases h
      refine ⟨rfl, fun t' name' => ?_⟩
      by_cases hname : name' = name
      · subst hname
        refine .inr ⟨hnone, fun e he => ?_⟩
        rw [Store.get, List.lookup_cons, beq_self_eq_true] at he
        by_cases ht : t = t'
        · subst ht
          cases (as_self _).symm.trans he
          exact ⟨rfl, rfl⟩
        · rw [Option.bind_some, as, dif_neg ht] at he
          cases he
      · left
        rw [Store.get, List.lookup_cons, beq_false_of_ne hname, Store.get]
    · cases h

def Store.Inv (s : Store El) : Prop := ∀ t name e, s.get t name = some e → e.Inv (s.s_fun_id t)

variable [∀ t, DecidableEq (El t)] {FromStr : (t : Ty) → String → Except String (El t)} {emit : Node → String}

omit [DecidableEq Ty] in
theorem fromString_given (FromStr : (t : Ty) → String → Except String (El t)) {e : Entry (El t)} {n : Nat}
    (h : e.Inv n) (val : String) : Given e (e.fromString (FromStr t) val) (converted FromStr t val) := by
  rw [fromString_eq, converted]
  cases FromStr t val with
  | ok v => exact setValue_given h v
  | error what => exact .refl e

variable (FromStr emit) in
/-- The loop gives each variable the values of the nodes of its name. -/
theorem foldl_given {n : Nat} (nodes : List (String × Node)) {e : Entry (El t)} (h : e.Inv n)
    (he : s.get t name = some e) :
    ∃ e', (nodes.foldl (fun s p => if p.1.isEmpty then s else s.fromString FromStr (toLower p.1) (text emit p.2))
        s).get t name = some e' ∧
      Given e e' (nodes.flatMap fun p =>
        if ¬p.1.isEmpty ∧ toLower p.1 = name then converted FromStr t (text emit p.2) else []) := by
  induction nodes generalizing s e with
  | nil => exact ⟨e, he, .refl e⟩
  | cons p nodes ih =>
    rw [List.foldl_cons, List.flatMap_cons]
    by_cases hempty : p.1.isEmpty
    · rw [if_pos hempty, if_neg fun h => h.1 hempty]
      exact ih h he
    · rw [if_neg hempty]
      by_cases hname : name = toLower p.1
      · have hone := fromString_given FromStr h (text emit p.2)
        have hget : (s.fromString FromStr (toLower p.1) (text emit p.2)).get t name =
            some (e.fromString (FromStr t) (text emit p.2)) := by
          rw [Store.fromString, get_update, if_pos hname, he]
          rfl
        obtain ⟨e', he', hrest⟩ := ih (hone.inv h) hget
        refine ⟨e', he', ?_⟩
        rw [if_pos ⟨hempty, hname.symm⟩]
        exact hone.trans hrest
      · have hget : (s.fromString FromStr (toLower p.1) (text emit p.2)).get t name = some e := by
          rw [Store.fromString, get_update, if_neg hname, he]
        rw [if_neg fun h => hname h.2.symm]
        exact ih h hget

omit [DecidableEq Ty] in
theorem foldl_fun_id (nodes : List (String × Node)) (s : Store El) :
    (nodes.foldl (fun s p => if p.1.isEmpty then s else s.fromString FromStr (toLower p.1) (text emit p.2))
      s).s_fun_id = s.s_fun_id := by
  induction nodes generalizing s with
  | nil => rfl
  | cons p nodes ih =>
    rw [List.foldl_cons, ih]
    split <;> rfl

/-- The variable after a call, when the counter was `n`. -/
def Store.Holds (s : Store El) (t : Ty) (name : String) (n : Nat) (e : Entry (El t)) (ws : List (El t))
    (removed : ListenerId → Prop) : Prop :=
  ∃ e', s.get t name = some e' ∧ e'.Inv (s.s_fun_id t) ∧ n ≤ s.s_fun_id t ∧ Kept n e e' ws removed

theorem holds_same {e : Entry (El t)} (hinv : e.Inv (s.s_fun_id t)) (he : s.get t name = some e)
    (removed : ListenerId → Prop) : s.Holds t name (s.s_fun_id t) e [] removed :=
  ⟨e, he, hinv, Nat.le_refl _, (Given.refl e).kept _ removed⟩

/-- A variable of that type and name is changed by `f`; another one stays. -/
theorem holds_update {e : Entry (El t)} (hinv : e.Inv (s.s_fun_id t)) (he : s.get t name = some e)
    (f : Entry (El t') → Entry (El t')) {ws : List (El t)} {removed : ListenerId → Prop}
    (hself : t' = t → name' = name →
      (on t' f t e).Inv (s.s_fun_id t) ∧ Kept (s.s_fun_id t) e (on t' f t e) ws removed)
    (hother : ¬(t' = t ∧ name' = name) → ws = []) :
    (s.update name' (on t' f)).Holds t name (s.s_fun_id t) e ws removed := by
  refine ⟨_, get_update_on s name' f he, ?_⟩
  by_cases hname : name = name'
  · rw [if_pos hname]
    by_cases ht : t' = t
    · obtain ⟨hinv', hkept⟩ := hself ht hname.symm
      exact ⟨hinv', Nat.le_refl _, hkept⟩
    · rw [on_of_ne f fun h => ht h.symm, hother fun h => ht h.1]
      exact ⟨hinv, Nat.le_refl _, (Given.refl e).kept _ removed⟩
  · rw [if_neg hname, hother fun h => hname h.2.symm]
    exact ⟨hinv, Nat.le_refl _, (Given.refl e).kept _ removed⟩

theorem holds_setValue {e : Entry (El t)} (hinv : e.Inv (s.s_fun_id t)) (he : s.get t name = some e) (val : El t') :
    (s.exec FromStr emit (.setValue t' name' val)).Holds t name (s.s_fun_id t) e
      ((Op.setValue t' name' val).wrote FromStr emit t name)
      ((Op.setValue t' name' val).removes t name) := by
  refine holds_update hinv he _ ?_ ?_
  · rintro rfl rfl
    rw [on_self, Op.wrote, dif_pos rfl, if_pos rfl]
    have hgiven := setValue_given hinv val
    exact ⟨hgiven.inv hinv, hgiven.kept _ _⟩
  · intro hno
    rw [Op.wrote]
    split
    · next ht => exact if_neg fun hname => hno ⟨ht, hname⟩
    · rfl

theorem holds_fromString {e : Entry (El t)} (hinv : e.Inv (s.s_fun_id t)) (he : s.get t name = some e)
    (val : String) : (s.exec FromStr emit (.fromString name' val)).Holds t name (s.s_fun_id t) e
      ((Op.fromString name' val).wrote FromStr emit t name) ((Op.fromString name' val : Op El).removes t name) := by
  by_cases hname : name = name'
  · refine ⟨e.fromString (FromStr t) val, ?_, ?_⟩
    · rw [Store.exec, Store.fromString, get_update, if_pos hname, he]
      rfl
    · have hgiven := fromString_given FromStr hinv val
      rw [Op.wrote, if_pos hname.symm]
      exact ⟨hgiven.inv hinv, Nat.le_refl _, hgiven.kept _ _⟩
  · refine ⟨e, ?_, hinv, Nat.le_refl _, ?_⟩
    · rw [Store.exec, Store.fromString, get_update, if_neg hname, he]
    · rw [Op.wrote, if_neg fun h => hname h.symm]
      exact (Given.refl e).kept _ _

variable (FromStr emit) in
theorem holds_loadFromYaml {e : Entry (El t)} (hinv : e.Inv (s.s_fun_id t)) (he : s.get t name = some e)
    (root : Node) : ∃ e', (s.LoadFromYaml FromStr emit root).get t name = some e' ∧
      e'.Inv ((s.LoadFromYaml FromStr emit root).s_fun_id t) ∧ Given e e' (loaded FromStr emit t name root) := by
  obtain ⟨e', he', hgiven⟩ := foldl_given FromStr emit (ListAllMember "" root) hinv he
  refine ⟨e', he', ?_, hgiven⟩
  rw [Store.LoadFromYaml, foldl_fun_id]
  exact hgiven.inv hinv

theorem holds_addListener {e : Entry (El t)} (hinv : e.Inv (s.s_fun_id t)) (he : s.get t name = some e)
    {cb : OnChange (El t')} (hcb : ∀ old new, cb old new = .ok ()) :
    (s.addListener t' name' cb).Holds t name (s.s_fun_id t) e [] fun _ => False := by
  rw [Store.addListener]
  split
  · exact holds_same hinv he _
  · next e₀ he₀ =>
    by_cases ht : t' = t
    · subst ht
      have hle : s.s_fun_id t' ≤ Function.update s.s_fun_id t' (s.s_fun_id t' + 1) t' := by
        rw [Function.update_self]
        exact Nat.le_succ _
      refine ⟨_, get_update_on s name' _ he, ?_, hle, ?_⟩
      · rw [on_self]
        dsimp only
        rw [Function.update_self]
        split
        · exact addListener_inv hinv hcb
        · exact hinv.mono (Nat.le_succ _)
      · rw [on_self]
        split
        · refine Kept.of_cbs rfl rfl (fun key hkey _ => ?_) fun key hle hout hin => ?_
          · rw [keys_addListener hinv]
            exact List.mem_append_left _ hkey
          · rw [keys_addListener hinv] at hin
            rcases List.mem_append.mp hin with hin | hnew
            · exact hout hin
            · exact absurd (List.mem_singleton.mp hnew ▸ hle) (Nat.not_succ_le_self _)
        · exact (Given.refl e).kept _ _
    · have hsame : Function.update s.s_fun_id t' (s.s_fun_id t' + 1) t = s.s_fun_id t :=
        Function.update_of_ne (fun h => ht h.symm) ..
      have hinv' : e.Inv (Function.update s.s_fun_id t' (s.s_fun_id t' + 1) t) := by
        rw [hsame]
        exact hinv
      refine ⟨e, (get_update_on s name' _ he).trans ?_, hinv', Nat.le_of_eq hsame.symm, (Given.refl e).kept _ _⟩
      rw [on_of_ne _ fun h => ht h.symm, ite_self]

theorem holds_delListener {e : Entry (El t)} (hinv : e.Inv (s.s_fun_id t)) (he : s.get t name = some e)
    (key : ListenerId) : (s.exec FromStr emit (.delListener t' name' key)).Holds t name (s.s_fun_id t) e []
      ((Op.delListener t' name' key : Op El).removes t name) := by
  refine holds_update hinv he _ ?_ fun _ => rfl
  rintro rfl rfl
  rw [on_self]
  refine ⟨hinv.sub rfl rfl List.filter_sublist, Kept.of_cbs rfl rfl (fun key' hkey hno => ?_) fun key' _ hout hin => ?_⟩
  · exact mem_keys_delListener.mpr ⟨hkey, fun heq => hno ⟨rfl, rfl, heq.symm⟩⟩
  · exact hout (mem_keys_delListener.mp hin).1

theorem holds_clearListener {e : Entry (El t)} (hinv : e.Inv (s.s_fun_id t)) (he : s.get t name = some e) :
    (s.exec FromStr emit (.clearListener t' name')).Holds t name (s.s_fun_id t) e []
      ((Op.clearListener t' name' : Op El).removes t name) := by
  refine holds_update hinv he _ ?_ fun _ => rfl
  rintro rfl rfl
  rw [on_self]
  refine ⟨hinv.sub rfl rfl (List.nil_sublist _), Kept.of_cbs rfl rfl (fun _ _ hno => ?_) fun _ _ _ => nofun⟩
  exact absurd ⟨rfl, rfl⟩ hno

variable (FromStr emit) in
/-- What one call does to a variable that is there. -/
theorem exec_holds {e : Entry (El t)} (hinv : e.Inv (s.s_fun_id t)) (he : s.get t name = some e) {op : Op El}
    (hret : op.Returns) : (s.exec FromStr emit op).Holds t name (s.s_fun_id t) e (op.wrote FromStr emit t name)
      (op.removes t name) := by
  cases op with
  | lookup t' name' default_value =>
    have hget : (s.exec FromStr emit (.lookup t' name' default_value)).get t name = some e ∧
        (s.exec FromStr emit (.lookup t' name' default_value)).s_fun_id = s.s_fun_id := by
      rw [Store.exec]
      split
      · next r hr =>
        obtain ⟨hid, hget⟩ := Lookup_get hr
        refine ⟨?_, hid⟩
        rcases hget t name with hsame | ⟨hnone, -⟩
        · rw [hsame, he]
        · rw [Store.get, hnone] at he
          cases he
      · exact ⟨he, rfl⟩
    refine ⟨e, hget.1, ?_, ?_, (Given.refl e).kept _ _⟩
    · rwa [hget.2]
    · rw [hget.2]
  | setValue t' name' val => exact holds_setValue hinv he val
  | fromString name' val => exact holds_fromString hinv he val
  | addListener t' name' cb => exact holds_addListener hinv he hret
  | delListener t' name' key => exact holds_delListener hinv he key
  | clearListener t' name' => exact holds_clearListener hinv he
  | loadFromYaml root =>
    obtain ⟨e', he', hinv', hgiven⟩ := holds_loadFromYaml FromStr emit hinv he root
    refine ⟨e', he', hinv', ?_, hgiven.kept _ _⟩
    rw [Store.exec, Store.LoadFromYaml, foldl_fun_id]

omit [∀ t, DecidableEq (El t)] in
theorem get_of_update {F : (t : Ty) → Entry (El t) → Entry (El t)} {e' : Entry (El t)}
    (h : (s.update name' F).get t name = some e') : ∃ e, s.get t name = some e := by
  rw [get_update] at h
  split at h
  · obtain ⟨e, he, -⟩ := Option.map_eq_some_iff.mp h
    exact ⟨e, he⟩
  · exact ⟨e', h⟩

theorem get_of_foldl {nodes : List (String × Node)} {e' : Entry (El t)}
    (h : (nodes.foldl (fun s p => if p.1.isEmpty then s else s.fromString FromStr (toLower p.1) (text emit p.2))
      s).get t name = some e') : ∃ e, s.get t name = some e := by
  induction nodes generalizing s with
  | nil => exact ⟨e', h⟩
  | cons p nodes ih =>
    rw [List.foldl_cons] at h
    obtain ⟨e, he⟩ := ih h
    split at he
    · exact ⟨e, he⟩
    · exact get_of_update he

/-- A variable that a call makes has been told nothing. -/
theorem exec_new (op : Op El) {e' : Entry (El t)} (he' : (s.exec FromStr emit op).get t name = some e') :
    (∃ e, s.get t name = some e) ∨ e'.var.m_cbs = [] ∧ e'.told = [] := by
  cases op with
  | lookup t' name' default_value =>
    rw [Store.exec] at he'
    split at he'
    · next r hr =>
      rcases (Lookup_get hr).2 t name with hsame | ⟨-, hnew⟩
      · exact .inl ⟨e', hsame.symm.trans he'⟩
      · exact .inr (hnew e' he')
    · exact .inl ⟨e', he'⟩
  | setValue t' name' val => exact .inl (get_of_update he')
  | fromString name' val => exact .inl (get_of_update he')
  | addListener t' name' cb =>
    rw [Store.exec, Store.addListener] at he'
    split at he'
    · exact .inl ⟨e', he'⟩
    · exact .inl (get_of_update (F := on t' (·.addListener (s.s_fun_id t' + 1) cb)) he')
  | delListener t' name' key => exact .inl (get_of_update he')
  | clearListener t' name' => exact .inl (get_of_update he')
  | loadFromYaml root => exact .inl (get_of_foldl he')

theorem exec_inv (hinv : s.Inv) {op : Op El} (hret : op.Returns) : (s.exec FromStr emit op).Inv := by
  intro t name e' he'
  rcases exec_new op he' with ⟨e, he⟩ | ⟨hcbs, htold⟩
  · obtain ⟨e'', he'', hinv'', -⟩ := exec_holds FromStr emit (hinv t name e he) he hret
    cases he'.symm.trans he''
    exact hinv''
  · exact inv_new hcbs htold _

variable (FromStr emit) in
theorem run_inv (hinv : s.Inv) {ops : List (Op El)} (hret : ∀ op ∈ ops, op.Returns) :
    (s.run FromStr emit ops).Inv := by
  induction ops generalizing s with
  | nil => exact hinv
  | cons op ops ih => exact ih (exec_inv hinv (hret op (.head _))) fun op hop => hret op (.tail _ hop)

omit [∀ t, DecidableEq (El t)] in
theorem start_inv : (Store.start : Store El).Inv := nofun

variable (FromStr emit) in
/-- What a history does to a variable that is there when it begins. -/
theorem run_holds (hinv : s.Inv) {ops : List (Op El)} (hret : ∀ op ∈ ops, op.Returns) {e : Entry (El t)}
    (he : s.get t name = some e) : (s.run FromStr emit ops).Holds t name (s.s_fun_id t) e
      (ops.flatMap (Op.wrote FromStr emit t name)) fun key => ∃ op ∈ ops, op.removes t name key := by
  induction ops generalizing s e with
  | nil => exact holds_same (hinv t name e he) he _
  | cons op ops ih =>
    obtain ⟨e₁, he₁, hinv₁, hle₁, hkept₁⟩ :=
      exec_holds FromStr emit (hinv t name e he) he (hret op (.head _))
    obtain ⟨e₂, he₂, hinv₂, hle₂, hkept₂⟩ :=
      ih (exec_inv hinv (hret op (.head _))) (fun op hop => hret op (.tail _ hop)) he₁
    refine ⟨e₂, he₂, hinv₂, hle₁.trans hle₂, ?_⟩
    have hkept := hkept₁.trans hkept₂ hle₁
    refine ⟨hkept.val, fun key hkey hno => hkept.stays key hkey fun hr => hno ?_, hkept.gone⟩
    rcases hr with hr | ⟨op', hop', hr⟩
    · exact ⟨op, .head _, hr⟩
    · exact ⟨op', .tail _ hop', hr⟩

/-- Of two histories in a row, the second. -/
theorem run_accounts (FromStr : (t : Ty) → String → Except String (El t)) (emit : Node → String)
    (ops ops' : List (Op El)) (hret : ∀ op ∈ ops ++ ops', op.Returns) (t : Ty) (name : String) (e : Entry (El t))
    (he : ((Store.start : Store El).run FromStr emit ops).get t name = some e) :
    ∃ e', ((Store.start : Store El).run FromStr emit (ops ++ ops')).get t name = some e' ∧
      e'.var.m_val = latest e.var.m_val (ops'.flatMap (Op.wrote FromStr emit t name)) ∧
      (∀ key ∈ e.keys, (∀ op ∈ ops', ¬op.removes t name key) → key ∈ e'.keys ∧
        e'.toldTo key = e.toldTo key ++ changes e.var.m_val (ops'.flatMap (Op.wrote FromStr emit t name))) ∧
      (∀ key ≤ ((Store.start : Store El).run FromStr emit ops).s_fun_id t, key ∉ e.keys →
        key ∉ e'.keys ∧ e'.toldTo key = e.toldTo key) ∧
      ∀ key ∈ e'.keys, Chained (e'.toldTo key) ∧ LastIs (e'.toldTo key) e'.var.m_val := by
  have hinv := run_inv FromStr emit start_inv fun op hop => hret op (List.mem_append_left _ hop)
  obtain ⟨e', he', hinv', -, hkept⟩ := run_holds FromStr emit hinv
    (fun op hop => hret op (List.mem_append_right _ hop)) he
  refine ⟨e', ?_, hkept.val, fun key hkey hno => hkept.stays key hkey ?_, hkept.gone, hinv'.agree⟩
  · rw [Store.run, List.foldl_append]
    exact he'
  · rintro ⟨op, hop, hr⟩
    exact hno op hop hr

/-! ## A tree loaded twice -/

end

/-! ## One variable with a listener -/

/-- Numbers, in unary. -/
def unary (_ : Unit) (val : String) : Except String Nat := .ok val.length

/-- The variable "port" is made, and has a listener. -/
def watchPort : List (Op fun _ : Unit => Nat) := [.lookup () "port" 80, .addListener () "port" fun _ _ => .ok ()]

theorem watchPort_returns (ops : List (Op fun _ : Unit => Nat)) (h : ∀ op ∈ ops, op.Returns) :
    ∀ op ∈ watchPort ++ ops, op.Returns := by
  intro op hop
  rcases List.mem_append.mp hop with hop | hop
  · rcases List.mem_pair.mp hop with rfl | rfl
    · trivial
    · exact fun _ _ => rfl
  · exact h op hop

theorem watchPort_get : (Store.start.run unary (fun _ => "") watchPort).get () "port" =
    some ⟨⟨80, [(1, fun _ _ => .ok ())]⟩, []⟩ := by
  rfl

theorem run_accounts_watchPort : ∃ e',
    (Store.start.run unary (fun _ => "") (watchPort ++ [.setValue () "port" 90])).get () "port" = some e' ∧
      e'.var.m_val = 90 ∧ e'.toldTo 1 = [(80, 90)] := by
  have hret := watchPort_returns [.setValue () "port" 90] fun op hop => by
    rw [List.mem_singleton.mp hop]
    trivial
  obtain ⟨e', he', hval, hstays, -⟩ := run_accounts unary (fun _ => "") watchPort _ hret () "port" _ watchPort_get
  obtain ⟨-, htold⟩ := hstays 1 (.head _) fun op hop => by
    rw [List.mem_singleton.mp hop]
    exact id
  exact ⟨e', he', hval, htold⟩

end Config
end Sylar
