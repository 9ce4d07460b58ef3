/-
  Sylar.Config.FromString — `ConfigVar::fromString` (sylar/config.h lines 255-283): the
  conversion, the listeners and the store, any of which may throw.

  The conversion and the listeners are parameters, an exception is its what(). A listener
  that throws ends the calls; the value is then not stored, and fromString logs and goes
  on to its `return false`, as it does when nothing throws.

  Proved: `fromString` keeps its promise (`Agrees`), every listener that was called
  counting as notified, exactly when the conversion throws; if only those that returned
  count, also when the first listener throws on a value that is new (`agrees_iff`). It
  does not say true when it has stored the value (`stored_not_true`).
-/

import Sylar.Config.SetValue

namespace Sylar
namespace ConfigVar

/-- on_change_cb: from the old value and the new one. -/
abbrev OnChange (T : Type) := T → T → Except String Unit

/-- A variable, its listeners in the order of their keys. -/
structure Var (T : Type) where
  m_val : T
  m_cbs : List (ListenerId × OnChange T)

/-- A listener that was called, the new value, and whether it returned. -/
structure Notice (T : Type) where
  listener : ListenerId
  new : T
  returned : Bool
  deriving DecidableEq, Repr

/-- What a call leaves: the variable, the listeners called, and its result or exception. -/
structure Effect (T R : Type) where
  var : Var T
  notices : List (Notice T)
  ret : R

section Calls

variable {T : Type}

/-- The loop over m_cbs. -/
def callAll (old new : T) : List (ListenerId × OnChange T) → List (Notice T) × Except String Unit
  | [] => ([], .ok ())
  | (l, cb) :: rest =>
    match cb old new with
    | .error what => ([⟨l, new, false⟩], .error what)
    | .ok () =>
      let r := callAll old new rest
      (⟨l, new, true⟩ :: r.1, r.2)

def Var.setValue [DecidableEq T] (var : Var T) (val : T) : Effect T (Except String Unit) :=
  if var.m_val = val then ⟨var, [], .ok ()⟩
  else
    match callAll var.m_val val var.m_cbs with
    | (notices, .error what) => ⟨var, notices, .error what⟩
    | (notices, .ok ()) => ⟨{ var with m_val := val }, notices, .ok ()⟩

/-- `ConfigVar::fromString`. -/
def Var.fromString [DecidableEq T] (FromStr : String → Except String T) (var : Var T) (val : String) :
    Effect T Bool :=
  match FromStr val with
  | .error _ => ⟨var, [], false⟩
  | .ok v =>
    let r := var.setValue v
    match r.ret with
    | .error _ => ⟨r.var, r.notices, false⟩
    | .ok () => ⟨r.var, r.notices, false⟩

end Calls

/-! ## The result, the value and the listeners -/

variable {T : Type}

/-- True just when the string was converted and is the value; else the value is as it was
    and no listener holds another one. -/
structure Agrees (FromStr : String → Except String T) (var : Var T) (val : String) (r : Effect T Bool)
    (notified : List (Notice T)) : Prop where
  ret_iff : r.ret = true ↔ ∃ v, FromStr val = .ok v ∧ r.var.m_val = v
  unchanged : r.ret = false → r.var.m_val = var.m_val
  told : r.ret = false → ∀ n ∈ notified, n.new = r.var.m_val

/-- The first listener throws. -/
def FirstThrows (old new : T) (m_cbs : List (ListenerId × OnChange T)) : Prop :=
  ∃ l cb rest what, m_cbs = (l, cb) :: rest ∧ cb old new = .error what

theorem callAll_new {old new : T} {m_cbs : List (ListenerId × OnChange T)} :
    ∀ n ∈ (callAll old new m_cbs).1, n.new = new := by
  induction m_cbs with
  | nil => nofun
  | cons lcb rest ih =>
    intro n hn
    rw [callAll] at hn
    split at hn
    · rw [List.mem_singleton.mp hn]
    · rcases List.mem_cons.mp hn with rfl | hn
      · rfl
      · exact ih n hn

/-- Calls that end in an exception have called someone. -/
theorem called_of_error {old new : T} {m_cbs : List (ListenerId × OnChange T)} {what : String}
    (h : (callAll old new m_cbs).2 = .error what) : (callAll old new m_cbs).1 ≠ [] := by
  cases m_cbs with
  | nil => cases h
  | cons lcb rest =>
    rw [callAll]
    split <;> exact List.cons_ne_nil _ _

/-- Of calls that end in an exception none returned just when the first threw. -/
theorem none_returned_iff {old new : T} {m_cbs : List (ListenerId × OnChange T)} {what : String}
    (h : (callAll old new m_cbs).2 = .error what) :
    (callAll old new m_cbs).1.filter (·.returned) = [] ↔ FirstThrows old new m_cbs := by
  cases m_cbs with
  | nil => cases h
  | cons lcb rest =>
    obtain ⟨l, cb⟩ := lcb
    rw [callAll]
    cases hcb : cb old new with
    | error what => exact ⟨fun _ => ⟨l, cb, rest, what, rfl, hcb⟩, fun _ => rfl⟩
    | ok =>
      constructor
      · intro hnil
        cases hnil
      · rintro ⟨l', cb', rest', what', he, hthrows⟩
        cases he
        rw [hcb] at hthrows
        cases hthrows

section FromString

variable [DecidableEq T] {FromStr : String → Except String T} {var : Var T} {val : String}

theorem fromString_false (FromStr : String → Except String T) (var : Var T) (val : String) :
    (var.fromString FromStr val).ret = false := by
  unfold Var.fromString
  split
  · rfl
  · dsimp only
    split <;> rfl

theorem fromString_error {what : String} (h : FromStr val = .error what) :
    var.fromString FromStr val = ⟨var, [], false⟩ := by
  rw [Var.fromString, h]

/-- A listener has thrown: the value is not stored. -/
theorem fromString_thrown {v : T} {what : String} (hv : FromStr val = .ok v) (hne : v ≠ var.m_val)
    (hthrown : (callAll var.m_val v var.m_cbs).2 = .error what) :
    var.fromString FromStr val = ⟨var, (callAll var.m_val v var.m_cbs).1, false⟩ := by
  rw [Var.fromString, hv]
  cases hc : callAll var.m_val v var.m_cbs with
  | mk notices ret =>
    rw [hc] at hthrown
    cases hthrown
    simp only [Var.setValue, if_neg (Ne.symm hne), hc]

theorem fromString_stored {v : T} (hv : FromStr val = .ok v)
    (h : v = var.m_val ∨ (callAll var.m_val v var.m_cbs).2 = .ok ()) :
    (var.fromString FromStr val).var.m_val = v := by
  rw [Var.fromString, hv]
  by_cases he : var.m_val = v
  · simp only [Var.setValue, if_pos he]
    exact he
  · cases hc : callAll var.m_val v var.m_cbs with
    | mk notices ret =>
      rw [hc] at h
      cases h.resolve_left (Ne.symm he)
      simp only [Var.setValue, if_neg he, hc]

/-- The promise is kept when the conversion throws, or when a listener does and none of
    those that count was told. -/
theorem agrees_cases (notified : List (Notice T) → List (Notice T)) (hsub : ∀ l, ∀ n ∈ notified l, n ∈ l) :
    Agrees FromStr var val (var.fromString FromStr val) (notified (var.fromString FromStr val).notices) ↔
      (∃ what, FromStr val = .error what) ∨
        ∃ v, FromStr val = .ok v ∧ v ≠ var.m_val ∧ (∃ what, (callAll var.m_val v var.m_cbs).2 = .error what) ∧
          notified (callAll var.m_val v var.m_cbs).1 = [] := by
  have hfalse := fromString_false FromStr var val
  constructor
  · intro h
    cases hv : FromStr val with
    | error what => exact .inl ⟨what, rfl⟩
    | ok v =>
      have hnot : (var.fromString FromStr val).var.m_val ≠ v := by
        intro hstored
        have htrue := h.ret_iff.mpr ⟨v, hv, hstored⟩
        rw [hfalse] at htrue
        cases htrue
      have hne : v ≠ var.m_val := fun he => hnot (fromString_stored hv (.inl he))
      cases hr : (callAll var.m_val v var.m_cbs).2 with
      | ok => exact absurd (fromString_stored hv (.inr hr)) hnot
      | error what =>
        refine .inr ⟨v, rfl, hne, ⟨what, hr⟩, List.eq_nil_iff_forall_not_mem.mpr fun n hn => ?_⟩
        have htold := h.told hfalse
        rw [fromString_thrown hv hne hr] at htold
        exact hne ((callAll_new n (hsub _ n hn)).symm.trans (htold n hn))
  · rintro (⟨what, hv⟩ | ⟨v, hv, hne, ⟨what, hthrown⟩, hnone⟩)
    · rw [fromString_error hv]
      refine ⟨⟨nofun, fun ⟨v, hok, _⟩ => nomatch hv.symm.trans hok⟩, fun _ => rfl, fun _ n hn => ?_⟩
      exact absurd (hsub _ n hn) List.not_mem_nil
    · rw [fromString_thrown hv hne hthrown, hnone]
      refine ⟨⟨nofun, ?_⟩, fun _ => rfl, fun _ n hn => nomatch hn⟩
      rintro ⟨v', hok, hval⟩
      rw [hv] at hok
      cases hok
      exact absurd hval.symm hne

theorem agrees_iff (FromStr : String → Except String T) (var : Var T) (val : String) :
    (Agrees FromStr var val (var.fromString FromStr val) (var.fromString FromStr val).notices ↔
      ∃ what, FromStr val = .error what) ∧
    (Agrees FromStr var val (var.fromString FromStr val) ((var.fromString FromStr val).notices.filter (·.returned)) ↔
      (∃ what, FromStr val = .error what) ∨
        ∃ v, FromStr val = .ok v ∧ v ≠ var.m_val ∧ FirstThrows var.m_val v var.m_cbs) := by
  constructor
  · rw [agrees_cases (fun l => l) fun _ _ h => h]
    refine or_iff_left ?_
    rintro ⟨v, -, -, ⟨what, hthrown⟩, hnone⟩
    exact called_of_error hthrown hnone
  · rw [agrees_cases (fun l => l.filter (·.returned)) fun _ _ h => (List.mem_filter.mp h).1]
    refine or_congr Iff.rfl (exists_congr fun v => and_congr_right fun _ => and_congr_right fun _ => ?_)
    constructor
    · rintro ⟨⟨what, hthrown⟩, hnone⟩
      exact (none_returned_iff hthrown).mp hnone
    · intro hfirst
      have hthrown : (callAll var.m_val v var.m_cbs).2 ≠ .ok () := by
        obtain ⟨l, cb, rest, what, hcbs, hcb⟩ := hfirst
        rw [hcbs, callAll, hcb]
        nofun
      cases hr : (callAll var.m_val v var.m_cbs).2 with
      | ok => exact absurd hr hthrown
      | error what => exact ⟨⟨what, rfl⟩, (none_returned_iff hr).mpr hfirst⟩

/-- A std::string variable without listeners is given a new value. -/
theorem stored_not_true :
    ¬∀ (FromStr : String → Except String String) (var : Var String) (val : String),
      Agrees FromStr var val (var.fromString FromStr val) (var.fromString FromStr val).notices := by
  intro h
  have hret := (h .ok ⟨"a", []⟩ "b").ret_iff.mpr ⟨"b", rfl, rfl⟩
  exact absurd hret (by rw [fromString_false]; exact Bool.false_ne_true)

end FromString

end ConfigVar
end Sylar
