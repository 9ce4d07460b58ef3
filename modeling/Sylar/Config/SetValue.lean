/-
  Sylar.Config.SetValue — concurrent `ConfigVar::setValue` calls on one variable
  (sylar/config.h).

  Actors. Any threads, each calling `setValue` any number of times. A call takes the read
  lock and returns if the value is the stored one; else it calls every listener with the
  stored and the new value, in the order of m_cbs, and releases the lock (readers share
  it); then it stores the value under the write lock, when no reader holds the lock.
  Listeners record the pairs they are given; m_cbs does not change meanwhile.

  Proved: when all calls have returned, what each listener was last given is the stored
  value and its pairs form a chain exactly when no call began to notify while another one
  had begun and not yet stored, or there is no listener (`listeners_agree_iff`). Two calls
  that both notify before they store break it (`last_notified_not_stored`).
-/

import Sylar.Lib.Lts
import Sylar.Scheduler.Task
import Mathlib.Data.List.Chain
import Mathlib.Logic.Function.Basic

namespace Sylar
namespace ConfigVar

abbrev ListenerId := Nat

/-- Where a thread is in `setValue(val)`: under the read lock with the listeners it has
    yet to call, or about to take the write lock. -/
inductive Pc (T : Type) where
  | out
  | notify (val : T) (m_cbs : List ListenerId)
  | store (val : T)
  deriving DecidableEq, Repr

structure State (T : Type) where
  m_val : T
  m_cbs : List ListenerId
  pc : Tid → Pc T
  /-- The (old, new) pairs each listener was given. -/
  given : ListenerId → List (T × T)

inductive Act (T : Type) where
  | enter (t : Tid) (val : T)
  | call (t : Tid)
  | unlock (t : Tid)
  | store (t : Tid)
  deriving DecidableEq, Repr

variable {T : Type}

def Pc.reads : Pc T → Bool
  | .notify _ _ => true
  | _ => false

inductive Step (s : State T) : Act T → State T → Prop
  /-- `if (m_val == val) return`. -/
  | same (t : Tid) (val : T) : s.pc t = .out → s.m_val = val → Step s (.enter t val) s
  | enter (t : Tid) (val : T) : s.pc t = .out → s.m_val ≠ val →
      Step s (.enter t val) { s with pc := Function.update s.pc t (.notify val s.m_cbs) }
  | call (t : Tid) (val : T) (l : ListenerId) (rest : List ListenerId) : s.pc t = .notify val (l :: rest) →
      Step s (.call t) { s with
        pc := Function.update s.pc t (.notify val rest)
        given := Function.update s.given l (s.given l ++ [(s.m_val, val)]) }
  | unlock (t : Tid) (val : T) : s.pc t = .notify val [] →
      Step s (.unlock t) { s with pc := Function.update s.pc t (.store val) }
  | store (t : Tid) (val : T) : s.pc t = .store val → (∀ u, (s.pc u).reads = false) →
      Step s (.store t) { s with m_val := val, pc := Function.update s.pc t .out }

/-- No call yet; m_cbs is a map, its keys differ. -/
def Init (s : State T) : Prop := s.m_cbs.Nodup ∧ (∀ t, s.pc t = .out) ∧ ∀ l, s.given l = []

/-- All calls have returned. -/
def AllReturned (s : State T) : Prop := ∀ t, s.pc t = .out

/-- Each old value is the new value of the pair before. -/
def Chained (given : List (T × T)) : Prop := given.IsChain fun p q => q.1 = p.2

/-- What a listener holds: a chain that ends with the stored value. -/
def ListenersAgree (s : State T) : Prop :=
  ∀ l, Chained (s.given l) ∧ ∀ p, (s.given l).getLast? = some p → p.2 = s.m_val

/-- A call begins to notify only when none is between its notification and its store. -/
def Alone (s : State T) : Act T → Prop
  | .enter _ val => s.m_val = val ∨ ∀ u, s.pc u = .out
  | _ => True

/-! ## Calls one after the other -/

/-- The last value given, if any, is `v`. -/
def LastIs (given : List (T × T)) (v : T) : Prop := ∀ p, given.getLast? = some p → p.2 = v

/-- The last value given is `v`. -/
def EndsWith (given : List (T × T)) (v : T) : Prop := ∃ p, given.getLast? = some p ∧ p.2 = v

/-- At most one thread is in a call; the listeners it has called hold its value, the
    others the stored one. -/
inductive Phase (s : State T) : Prop
  | idle : (∀ u, s.pc u = .out) → (∀ l, LastIs (s.given l) s.m_val) → Phase s
  | notify (t : Tid) (val : T) (rest : List ListenerId) : (∀ u, u ≠ t → s.pc u = .out) → s.pc t = .notify val rest →
      s.m_val ≠ val → rest <:+ s.m_cbs → (∀ l ∈ rest, LastIs (s.given l) s.m_val) →
      (∀ l ∈ s.m_cbs, l ∉ rest → EndsWith (s.given l) val) → Phase s
  | store (t : Tid) (val : T) : (∀ u, u ≠ t → s.pc u = .out) → s.pc t = .store val → s.m_val ≠ val →
      (∀ l ∈ s.m_cbs, EndsWith (s.given l) val) → Phase s

structure Serial (s : State T) : Prop where
  nodup : s.m_cbs.Nodup
  chained : ∀ l, Chained (s.given l)
  others : ∀ l, l ∉ s.m_cbs → s.given l = []
  phase : Phase s

variable {s s' : State T} {a : Act T}

theorem chained_append {given : List (T × T)} {p : T × T} :
    Chained (given ++ [p]) ↔ Chained given ∧ LastIs given p.1 := by
  unfold Chained LastIs
  rw [List.isChain_append]
  simp [eq_comm]

theorem endsWith_append (given : List (T × T)) (p : T × T) : EndsWith (given ++ [p]) p.2 :=
  ⟨p, List.getLast?_concat, rfl⟩

theorem EndsWith.lastIs {given : List (T × T)} {v : T} (h : EndsWith given v) : LastIs given v := by
  obtain ⟨p, hp, hv⟩ := h
  intro q hq
  rw [hp] at hq
  cases hq
  exact hv

theorem lastIs_nil (v : T) : LastIs ([] : List (T × T)) v := fun _ h => nomatch h

theorem init_serial (h : Init s) : Serial s := by
  obtain ⟨hn, hp, hg⟩ := h
  refine ⟨hn, ?_, fun l _ => hg l, .idle hp ?_⟩
  · intro l
    rw [hg]
    exact .nil
  · intro l
    rw [hg]
    exact lastIs_nil _

/-- The thread that takes a step from inside a call is the one of the phase. -/
theorem busy_eq {t u : Tid} (hout : ∀ w, w ≠ t → s.pc w = .out) (hu : s.pc u ≠ .out) : u = t := by
  by_contra e
  exact hu (hout u e)

theorem update_out {t : Tid} {p : Pc T} (hout : ∀ w, w ≠ t → s.pc w = .out) :
    ∀ w, w ≠ t → Function.update s.pc t p w = .out := by
  intro w hw
  rw [Function.update_of_ne hw]
  exact hout w hw

/-- Nobody is in a call. -/
theorem Phase.of_out (h : Phase s) (hout : ∀ u, s.pc u = .out) : ∀ l, LastIs (s.given l) s.m_val := by
  cases h with
  | idle _ hlast => exact hlast
  | notify u _ _ _ hu => exact nomatch (hout u).symm.trans hu
  | store u _ _ hu => exact nomatch (hout u).symm.trans hu

/-- The phase of a thread that has listeners to call. -/
theorem Phase.of_notify {t : Tid} {val : T} {rest : List ListenerId} (h : Phase s) (hpc : s.pc t = .notify val rest) :
    (∀ u, u ≠ t → s.pc u = .out) ∧ s.m_val ≠ val ∧ rest <:+ s.m_cbs ∧ (∀ l ∈ rest, LastIs (s.given l) s.m_val) ∧
      ∀ l ∈ s.m_cbs, l ∉ rest → EndsWith (s.given l) val := by
  have hbusy : s.pc t ≠ .out := by
    rw [hpc]
    nofun
  cases h with
  | idle hout _ => exact absurd (hout t) hbusy
  | store u _ hout hu =>
    cases busy_eq hout hbusy
    cases hpc.symm.trans hu
  | notify u val' rest' hout hu hne hsuf hlast hends =>
    cases busy_eq hout hbusy
    cases hpc.symm.trans hu
    exact ⟨hout, hne, hsuf, hlast, hends⟩

/-- The phase of a thread that has its value to store. -/
theorem Phase.of_store {t : Tid} {val : T} (h : Phase s) (hpc : s.pc t = .store val) :
    (∀ u, u ≠ t → s.pc u = .out) ∧ ∀ l ∈ s.m_cbs, EndsWith (s.given l) val := by
  have hbusy : s.pc t ≠ .out := by
    rw [hpc]
    nofun
  cases h with
  | idle hout _ => exact absurd (hout t) hbusy
  | notify u _ _ hout hu =>
    cases busy_eq hout hbusy
    cases hpc.symm.trans hu
  | store u val' hout hu _ hends =>
    cases busy_eq hout hbusy
    cases hpc.symm.trans hu
    exact ⟨hout, hends⟩

theorem step_serial (h : Serial s) (hg : Alone s a) (hst : Step s a s') : Serial s' := by
  cases hst with
  | same => exact h
  | enter t val hpc hne =>
    have hall : ∀ u, s.pc u = .out := hg.resolve_left hne
    have hlast := h.phase.of_out hall
    exact ⟨h.nodup, h.chained, h.others,
      .notify t val s.m_cbs (update_out fun w _ => hall w) (Function.update_self ..)
      hne (List.suffix_refl _) (fun l _ => hlast l) fun l hl hn => absurd hl hn⟩
  | call t val l rest hpc =>
    obtain ⟨hout, hne, hsuf, hlast, hends⟩ := h.phase.of_notify hpc
    have hlm : l ∈ s.m_cbs := hsuf.subset (.head _)
    have hlr : l ∉ rest := (List.nodup_cons.mp (h.nodup.sublist hsuf.sublist)).1
    have hself : Function.update s.given l (s.given l ++ [(s.m_val, val)]) l = s.given l ++ [(s.m_val, val)] :=
      Function.update_self ..
    have hother : ∀ k, k ≠ l → Function.update s.given l (s.given l ++ [(s.m_val, val)]) k = s.given k :=
      fun k hk => Function.update_of_ne hk ..
    refine ⟨h.nodup, ?_, ?_, .notify t val rest (update_out hout) (Function.update_self ..) hne
      ((List.suffix_cons l rest).trans hsuf) ?_ ?_⟩
    · intro k
      show Chained (Function.update s.given l _ k)
      by_cases e : k = l
      · rw [e, hself, chained_append]
        exact ⟨h.chained l, hlast l (.head _)⟩
      · rw [hother k e]
        exact h.chained k
    · intro k hk
      show Function.update s.given l _ k = []
      rw [hother k fun e => hk (e ▸ hlm)]
      exact h.others k hk
    · intro k hk
      show LastIs (Function.update s.given l _ k) s.m_val
      rw [hother k fun e => hlr (e ▸ hk)]
      exact hlast k (.tail _ hk)
    · intro k hk hn
      show EndsWith (Function.update s.given l _ k) val
      by_cases e : k = l
      · rw [e, hself]
        exact endsWith_append _ _
      · rw [hother k e]
        exact hends k hk fun hm => (List.mem_cons.mp hm).elim e hn
  | unlock t val hpc =>
    obtain ⟨hout, hne, -, -, hends⟩ := h.phase.of_notify hpc
    exact ⟨h.nodup, h.chained, h.others, .store t val (update_out hout) (Function.update_self ..) hne
      fun l hl => hends l hl List.not_mem_nil⟩
  | store t val hpc _ =>
    obtain ⟨hout, hends⟩ := h.phase.of_store hpc
    refine ⟨h.nodup, h.chained, h.others, .idle ?_ ?_⟩
    · intro w
      show Function.update s.pc t .out w = .out
      by_cases e : w = t
      · rw [e, Function.update_self]
      · exact update_out hout w e
    · intro l
      show LastIs (s.given l) val
      by_cases hl : l ∈ s.m_cbs
      · exact (hends l hl).lastIs
      · rw [h.others l hl]
        exact lastIs_nil _

theorem step_cbs (hst : Step s a s') : s'.m_cbs = s.m_cbs := by cases hst <;> rfl

/-! ## Two calls at once -/

/-- A thread has yet to call a listener whose chain then breaks: it holds another value
    than the stored one, or a second thread has yet to call it too. -/
structure Doomed (s : State T) (t : Tid) (l : ListenerId) : Prop where
  due : ∃ val rest, s.pc t = .notify val rest ∧ l ∈ rest
  held : (∃ v, EndsWith (s.given l) v ∧ v ≠ s.m_val) ∨ ∃ u val rest, u ≠ t ∧ s.pc u = .notify val rest ∧ l ∈ rest

/-- A chain is broken for good, or will be. -/
def Broken (s : State T) : Prop := (∃ l, ¬Chained (s.given l)) ∨ ∃ t l, Doomed s t l

/-- A thread notifies of a value that is not the stored one. -/
def Differs (s : State T) : Prop := ∀ t val rest, s.pc t = .notify val rest → s.m_val ≠ val

/-- A thread that notifies after one has moved is that one, or did so before. -/
theorem update_notify {pc : Tid → Pc T} {t u : Tid} {p : Pc T} {v : T} {r : List ListenerId}
    (h : Function.update pc t p u = .notify v r) : p = .notify v r ∨ pc u = .notify v r := by
  by_cases e : u = t
  · rw [e, Function.update_self] at h
    exact .inl h
  · rw [Function.update_of_ne e] at h
    exact .inr h

theorem step_differs (h : Differs s) (hst : Step s a s') : Differs s' := by
  intro u v r hu
  cases hst with
  | same => exact h u v r hu
  | enter t val _ hne =>
    rcases update_notify hu with he | hu
    · cases he
      exact hne
    · exact h u v r hu
  | call t val l rest hpc =>
    rcases update_notify hu with he | hu
    · cases he
      exact h t _ _ hpc
    · exact h u v r hu
  | unlock t val =>
    rcases update_notify hu with he | hu
    · cases he
    · exact h u v r hu
  | store t val _ hread =>
    rcases update_notify hu with he | hu
    · cases he
    · have := hread u
      rw [hu] at this
      cases this

theorem Doomed.step {t : Tid} {l : ListenerId} (h : Doomed s t l) (hd : Differs s) (hst : Step s a s') :
    Broken s' := by
  obtain ⟨val, rest, hpc, hl⟩ := h.due
  have hne : ∀ {u : Tid}, s.pc u = .out → t ≠ u := by
    intro u hu e
    rw [← e, hpc] at hu
    cases hu
  have hkeep : ∀ (p : Tid → Pc T), (∀ w v r, s.pc w = .notify v r → l ∈ r → ∃ r', p w = .notify v r' ∧ l ∈ r') →
      Doomed { s with pc := p } t l := by
    intro p hp
    obtain ⟨r', hr', hl'⟩ := hp t val rest hpc hl
    refine ⟨⟨val, r', hr', hl'⟩, h.held.imp id ?_⟩
    intro ⟨w, v, r, hw, hpw, hlw⟩
    obtain ⟨r'', hr'', hl''⟩ := hp w v r hpw hlw
    exact ⟨w, v, r'', hw, hr'', hl''⟩
  cases hst with
  | same => exact .inr ⟨t, l, h⟩
  | enter u v hu =>
    refine .inr ⟨t, l, hkeep _ ?_⟩
    intro w v' r hw hlw
    refine ⟨r, ?_, hlw⟩
    rw [Function.update_of_ne, hw]
    intro e
    rw [e, hu] at hw
    cases hw
  | unlock u v hu =>
    refine .inr ⟨t, l, hkeep _ ?_⟩
    intro w v' r hw hlw
    refine ⟨r, ?_, hlw⟩
    rw [Function.update_of_ne, hw]
    intro e
    rw [e, hu] at hw
    cases hw
    cases hlw
  | store u v _ hread =>
    have := hread t
    rw [hpc] at this
    cases this
  | call u v k r hu =>
    by_cases e : k = l
    · -- the listener is called: by `t`, or by another thread before it
      subst e
      have hself : Function.update s.given k (s.given k ++ [(s.m_val, v)]) k = s.given k ++ [(s.m_val, v)] :=
        Function.update_self ..
      have hends : EndsWith (Function.update s.given k (s.given k ++ [(s.m_val, v)]) k) v := by
        rw [hself]
        exact endsWith_append _ _
      have hv : v ≠ s.m_val := (hd u v _ hu).symm
      rcases h.held with ⟨x, ⟨p, hp, hpx⟩, hx⟩ | ⟨w, vw, rw', hwt, hpw, hlw⟩
      · left
        refine ⟨k, ?_⟩
        show ¬Chained (Function.update s.given k _ k)
        rw [hself, chained_append]
        exact fun hc => hx (hpx ▸ hc.2 p hp)
      · right
        by_cases eu : u = t
        · refine ⟨w, k, ⟨vw, rw', ?_, hlw⟩, .inl ⟨v, hends, hv⟩⟩
          show Function.update s.pc u _ w = _
          rw [Function.update_of_ne fun e => hwt (e.trans eu), hpw]
        · refine ⟨t, k, ⟨val, rest, ?_, hl⟩, .inl ⟨v, hends, hv⟩⟩
          show Function.update s.pc u _ t = _
          rw [Function.update_of_ne (Ne.symm eu), hpc]
    · have hother : Function.update s.given k (s.given k ++ [(s.m_val, v)]) l = s.given l :=
        Function.update_of_ne (Ne.symm e) ..
      have hk := hkeep (Function.update s.pc u (.notify v r)) ?_
      · refine .inr ⟨t, l, hk.due, ?_⟩
        show (∃ x, EndsWith (Function.update s.given k _ l) x ∧ x ≠ s.m_val) ∨ _
        rw [hother]
        exact hk.held
      · intro w v' r' hw hlw
        by_cases ew : w = u
        · subst ew
          rw [hu] at hw
          cases hw
          exact ⟨r, Function.update_self .., (List.mem_cons.mp hlw).resolve_left (Ne.symm e)⟩
        · exact ⟨r', by rw [Function.update_of_ne ew, hw], hlw⟩

theorem step_broken (h : Broken s) (hd : Differs s) (hst : Step s a s') : Broken s' := by
  rcases h with ⟨l, hl⟩ | ⟨t, l, h⟩
  · left
    refine ⟨l, ?_⟩
    cases hst with
    | call t val k rest =>
      show ¬Chained (Function.update s.given k _ l)
      by_cases e : l = k
      · rw [e, Function.update_self, chained_append]
        exact fun hc => hl (e ▸ hc.1)
      · rw [Function.update_of_ne e]
        exact hl
    | _ => exact hl
  · exact h.step hd hst

theorem Serial.differs (h : Serial s) : Differs s := by
  intro t val rest ht
  obtain ⟨-, hne, -⟩ := h.phase.of_notify ht
  exact hne

/-- The second call to begin breaks a chain. -/
theorem enter_broken (h : Serial s) (hl : s.m_cbs ≠ []) (hg : ¬Alone s a) (hst : Step s a s') : Broken s' := by
  obtain ⟨l, hl⟩ := List.exists_mem_of_ne_nil _ hl
  cases hst with
  | same t val _ he => exact absurd (.inl he) hg
  | enter t val hpc hne =>
    right
    refine ⟨t, l, ⟨val, s.m_cbs, Function.update_self .., hl⟩, ?_⟩
    have hother : ∀ {u : Tid}, s.pc u ≠ .out → u ≠ t := fun hu e => hu (e ▸ hpc)
    cases h.phase with
    | idle hout _ => exact absurd (.inr hout) hg
    | notify u v rest hout hu hv _ _ hends =>
      have hut : u ≠ t := hother (by rw [hu]; nofun)
      by_cases hr : l ∈ rest
      · refine .inr ⟨u, v, rest, hut, ?_, hr⟩
        show Function.update s.pc t _ u = _
        rw [Function.update_of_ne hut, hu]
      · exact .inl ⟨v, hends l hl hr, hv.symm⟩
    | store u v hout hu hv hends => exact .inl ⟨v, hends l hl, hv.symm⟩
  | call => exact absurd trivial hg
  | unlock => exact absurd trivial hg
  | store => exact absurd trivial hg

/-! ## When all calls have returned -/

theorem Serial.agree (h : Serial s) (hret : AllReturned s) : ListenersAgree s := by
  intro l
  refine ⟨h.chained l, ?_⟩
  cases h.phase with
  | idle _ hlast => exact hlast l
  | notify t _ _ _ ht =>
    rw [hret t] at ht
    cases ht
  | store t _ _ ht =>
    rw [hret t] at ht
    cases ht

theorem Broken.disagree (h : Broken s) (hret : AllReturned s) : ¬ListenersAgree s := by
  intro ha
  rcases h with ⟨l, hl⟩ | ⟨t, l, h⟩
  · exact hl (ha l).1
  · obtain ⟨val, rest, ht, -⟩ := h.due
    rw [hret t] at ht
    cases ht

/-- Without listeners nothing is given. -/
structure Unheard (s : State T) : Prop where
  none : s.m_cbs = []
  rest : ∀ t val rest, s.pc t = .notify val rest → rest = []
  given : ∀ l, s.given l = []

theorem step_unheard (h : Unheard s) (hst : Step s a s') : Unheard s' := by
  refine ⟨?_, ?_, ?_⟩
  · cases hst <;> exact h.none
  · intro u v r hu
    cases hst with
    | same => exact h.rest u v r hu
    | enter t val =>
      rcases update_notify hu with he | hu
      · cases he
        exact h.none
      · exact h.rest u v r hu
    | call t val l rest hpc => cases h.rest t _ _ hpc
    | unlock t val =>
      rcases update_notify hu with he | hu
      · cases he
      · exact h.rest u v r hu
    | store t val =>
      rcases update_notify hu with he | hu
      · cases he
      · exact h.rest u v r hu
  · intro l
    cases hst with
    | call t val k rest hpc => cases h.rest t _ _ hpc
    | _ => exact h.given l

/-- When all calls have returned, every listener was last given the stored value and its
    pairs form a chain exactly when no call began to notify while another was between its
    notification and its store, or there is no listener. -/
theorem listeners_agree_iff {tr : List (Act T × State T)} (h0 : Init s) (h : Lts.Run Step s tr)
    (hret : AllReturned (Lts.final s tr)) :
    ListenersAgree (Lts.final s tr) ↔ s.m_cbs = [] ∨ Lts.Every (fun s a _ => Alone s a) s tr := by
  by_cases hl : s.m_cbs = []
  · have hu : Unheard (Lts.final s tr) := by
      have hr : Lts.Reach (· = s) Step (Lts.final s tr) := h.reach (.init rfl)
      refine hr.inv ?_ fun _ _ _ => step_unheard
      intro _ heq
      subst heq
      refine ⟨hl, ?_, h0.2.2⟩
      intro t _ _ ht
      rw [h0.2.1 t] at ht
      cases ht
    refine iff_of_true (fun l => ?_) (.inl hl)
    rw [hu.given l]
    exact ⟨.nil, lastIs_nil _⟩
  · have hcases := h.final_cases
      (J := fun s => Serial s ∧ s.m_cbs ≠ []) (D := fun s => Broken s ∧ Differs s) (G := Alone)
      (fun s a s' hj hg hst => ⟨step_serial hj.1 hg hst, step_cbs hst ▸ hj.2⟩)
      (fun s a s' hj hg hst => ⟨enter_broken hj.1 hj.2 hg hst, step_differs hj.1.differs hst⟩)
      (fun s a s' hd hst => ⟨step_broken hd.1 hd.2 hst, step_differs hd.2 hst⟩) ⟨init_serial h0, hl⟩
    rcases hcases with ⟨he, hj⟩ | ⟨he, hd⟩
    · exact iff_of_true (hj.1.agree hret) (.inr he)
    · exact iff_of_false (hd.1.disagree hret) fun hor => hor.elim hl he

/-! ## Runs of one and of two calls -/

/-- One variable with value 0 and one listener. -/
def start : State Int := ⟨0, [1], fun _ => .out, fun _ => []⟩

theorem start_init : Init start := ⟨by decide, fun _ => rfl, fun _ => rfl⟩

def setPc (s : State Int) (t : Tid) (p : Pc Int) : State Int := { s with pc := Function.update s.pc t p }

/-- A thread that has notified the listener and is about to store. -/
def notified (s : State Int) (t : Tid) (val : Int) : State Int :=
  setPc { s with given := Function.update s.given 1 (s.given 1 ++ [(s.m_val, val)]) } t (.store val)

def stored (s : State Int) (t : Tid) (val : Int) : State Int := setPc { s with m_val := val } t .out

/-- A call up to its store. -/
def notifySteps (s : State Int) (t : Tid) (val : Int) : List (Act Int × State Int) :=
  [(.enter t val, setPc s t (.notify val [1])),
    (.call t, setPc { s with given := Function.update s.given 1 (s.given 1 ++ [(s.m_val, val)]) } t (.notify val [])),
    (.unlock t, notified s t val)]

theorem notifySteps_run {s : State Int} {t : Tid} {val : Int} (hl : s.m_cbs = [1]) (hp : s.pc t = .out)
    (hv : s.m_val ≠ val) : Lts.Run Step s (notifySteps s t val) := by
  have h1 : Step s (.enter t val) (setPc s t (.notify val [1])) := hl ▸ .enter t val hp hv
  have h2 := Step.call (s := setPc s t (.notify val [1])) t val 1 [] (Function.update_self ..)
  have h3 := Step.unlock (s := setPc { s with given := Function.update s.given 1 (s.given 1 ++ [(s.m_val, val)]) } t
    (.notify val [])) t val (Function.update_self ..)
  simp only [setPc, Function.update_idem] at h2 h3
  exact .cons h1 (.cons h2 (.cons h3 (.nil _)))

theorem setPc_reads {s : State Int} {t : Tid} {p : Pc Int} (hp : p.reads = false)
    (h : ∀ u, u ≠ t → (s.pc u).reads = false) (u : Tid) : ((setPc s t p).pc u).reads = false := by
  show (Function.update s.pc t p u).reads = false
  by_cases e : u = t
  · rw [e, Function.update_self, hp]
  · rw [Function.update_of_ne e]
    exact h u e

theorem setPc_out {s : State Int} {t : Tid} (h : ∀ u, u ≠ t → s.pc u = .out) (u : Tid) :
    (setPc s t .out).pc u = .out := by
  show Function.update s.pc t .out u = .out
  by_cases e : u = t
  · rw [e, Function.update_self]
  · rw [Function.update_of_ne e]
    exact h u e

theorem setPc_other {s : State Int} {t u : Tid} (h : u ≠ t) (p : Pc Int) : (setPc s t p).pc u = s.pc u :=
  Function.update_of_ne h ..

/-- A call from its first step to its last. -/
def callSteps (s : State Int) (t : Tid) (val : Int) : List (Act Int × State Int) :=
  notifySteps s t val ++ [(.store t, stored (notified s t val) t val)]

theorem callSteps_run {s : State Int} {t : Tid} {val : Int} (hl : s.m_cbs = [1]) (hp : AllReturned s)
    (hv : s.m_val ≠ val) : Lts.Run Step s (callSteps s t val) := by
  have hread : ∀ u, ((notified s t val).pc u).reads = false := setPc_reads rfl fun u _ => by
    show (s.pc u).reads = false
    rw [hp u]
    rfl
  exact (notifySteps_run hl (hp t) hv).append (.cons (.store t val (Function.update_self ..) hread) (.nil _))

theorem callSteps_returned {s : State Int} {t : Tid} {val : Int} (hp : AllReturned s) :
    AllReturned (stored (notified s t val) t val) :=
  setPc_out fun u hu => (setPc_other hu _).trans (hp u)

/-- `setValue(1)` on thread 1, then `setValue(5)` on thread 2. -/
theorem listeners_agree_twoCalls : ∃ tr, Lts.Run Step start tr ∧ AllReturned (Lts.final start tr) ∧
    (Lts.final start tr).given 1 = [(0, 1), (1, 5)] ∧ ListenersAgree (Lts.final start tr) := by
  have hfirst : AllReturned (stored (notified start 1 1) 1 1) := callSteps_returned fun _ => rfl
  have hrun : Lts.Run Step start (callSteps start 1 1 ++ callSteps (stored (notified start 1 1) 1 1) 2 5) :=
    (callSteps_run rfl (fun _ => rfl) (by decide)).append (callSteps_run rfl hfirst (by decide))
  have hret : AllReturned (stored (notified (stored (notified start 1 1) 1 1) 2 5) 2 5) := callSteps_returned hfirst
  exact ⟨_, hrun, hret, rfl, (listeners_agree_iff start_init hrun hret).mpr
    (.inr ⟨.inr fun _ => rfl, trivial, trivial, trivial, .inr hfirst, trivial, trivial, trivial, trivial⟩)⟩

/-- Threads 1 and 2 both notify of the change from 0 before either stores; thread 2
    stores 2, then thread 1 stores 1: the listener was last given 2, from 0. -/
theorem last_notified_not_stored : ∃ tr, Init start ∧ Lts.Run Step start tr ∧ AllReturned (Lts.final start tr) ∧
    (Lts.final start tr).m_val = 1 ∧ (Lts.final start tr).given 1 = [(0, 1), (0, 2)] ∧
    ¬ListenersAgree (Lts.final start tr) := by
  let s := notified (notified start 1 1) 2 2
  have hread : ∀ u, (s.pc u).reads = false :=
    setPc_reads rfl fun u _ => setPc_reads (s := start) (p := .store 1) rfl (fun _ _ => rfl) u
  have hread' : ∀ u, ((stored s 2 2).pc u).reads = false := setPc_reads rfl fun u _ => hread u
  have hrun : Lts.Run Step start ((notifySteps start 1 1 ++ notifySteps (notified start 1 1) 2 2) ++
      [(.store 2, stored s 2 2), (.store 1, stored (stored s 2 2) 1 1)]) :=
    ((notifySteps_run rfl rfl (by decide)).append (notifySteps_run rfl rfl (by decide))).append
      (.cons (.store 2 2 rfl hread) (.cons (.store 1 1 rfl hread') (.nil _)))
  have hret : AllReturned (stored (stored s 2 2) 1 1) := by
    apply setPc_out
    intro u h1
    by_cases h2 : u = 2
    · subst h2
      rfl
    · exact (setPc_other h2 _).trans ((setPc_other h2 _).trans (setPc_other h1 _))
  refine ⟨_, start_init, hrun, hret, rfl, rfl, ?_⟩
  intro ha
  have hlast : (2 : Int) = 1 := (ha 1).2 (0, 2) rfl
  cases hlast

end ConfigVar
end Sylar
