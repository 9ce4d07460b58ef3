/-
  Sylar.IOManager.Agreement — the event table and the kernel's interest list.

  Actors. A sequence of `addEvent`, `delEvent`, `cancelEvent`, `cancelAll` and entries
  handled by `idle` (see `Sylar.IOManager.Events`), here with the test of the table's
  size in front of each, `static_cast<int>(m_fdContexts.size()) <= fd`, and the resize
  that `addEvent` does. epoll_ctl may fail for any reason and then changes nothing. A
  descriptor is closed only after `cancelAll` was called on it, and the kernel then
  drops its registration.

  Proved: a step of a run leaves the kernel holding a registration for exactly the armed
  descriptors, with EPOLLET|m_events and their context (`Agree`), issues ADD only for
  unregistered and MOD/DEL only for registered descriptors, and changes nothing when it
  returns false, exactly when it is `Sound`: no resize drops an armed context and no
  descriptor is closed armed (`agreement_iff`).
  After a `cancelAll` whose epoll_ctl failed a descriptor is closed armed
  (`closed_armed`). The size test is on an int: a table of 2^31 contexts has a negative
  size, so that the next `addEvent` of a small descriptor shrinks it. Below descriptor
  1431655766 no resize drops anything (`agree_of_small`).
-/

import Sylar.IOManager.EventsProofs
import Sylar.IOManager.Contexts

namespace Sylar
namespace Agreement

open IOManager (Inv acts realEvents assert_ok fdContext_ok fdContext_of_set)

/-! ## The operations with their size test -/

/-- `static_cast<int>(m_fdContexts.size())`. -/
def intSize (s : IOManager) : Int := (s.m_fdContexts.length : Int).bmod (2 ^ 32)

/-- The table `addEvent` works on. -/
def grown (s : IOManager) (fd : Nat) : IOManager :=
  if intSize s ≤ fd then s.contextResize (Contexts.growSize fd) else s

/-- `delEvent`, `cancelEvent` and `cancelAll` return false past the size. -/
def within (s : IOManager) (fd : Nat) (r : Except Abort (Bool × IOManager)) : Except Abort (Bool × IOManager) :=
  if intSize s ≤ fd then .ok (false, s) else r

structure State where
  iom : IOManager
  /-- The descriptors that may be closed. -/
  cancelled : Nat → Bool

inductive Op where
  | addEvent (self : Caller) (fd : Nat) (event : Event) (cb : Option CbId) (ctl : Bool)
  | delEvent (fd : Nat) (event : Event) (ctl : Bool)
  | cancelEvent (fd : Nat) (event : Event) (ctl : Bool)
  | cancelAll (fd : Nat) (ctl : Bool)
  | idle (e : EpollEvent) (ctl : Bool)
  | close (fd : Nat)
  deriving DecidableEq, Repr

def closeFd (s : IOManager) (fd : Nat) : IOManager := { s with epoll := Function.update s.epoll fd none }

/-- What the operation returns, and the state it leaves. -/
def exec (s : State) : Op → Except Abort (Bool × State)
  | .addEvent self fd event cb ctl => do
    let r ← (grown s.iom fd).addEvent self fd event cb ctl
    .ok (r.1, ⟨r.2, if r.1 then Function.update s.cancelled fd false else s.cancelled⟩)
  | .delEvent fd event ctl => do
    let r ← within s.iom fd (s.iom.delEvent fd event ctl)
    .ok (r.1, ⟨r.2, s.cancelled⟩)
  | .cancelEvent fd event ctl => do
    let r ← within s.iom fd (s.iom.cancelEvent fd event ctl)
    .ok (r.1, ⟨r.2, s.cancelled⟩)
  | .cancelAll fd ctl => do
    let r ← within s.iom fd (s.iom.cancelAll fd ctl)
    .ok (r.1, ⟨r.2, Function.update s.cancelled fd true⟩)
  | .idle e ctl => do
    let r ← s.iom.idleEntry e ctl
    .ok (true, ⟨r.1, s.cancelled⟩)
  | .close fd => .ok (true, ⟨closeFd s.iom fd, Function.update s.cancelled fd false⟩)

/-- Descriptors are non-negative ints, `addEvent` is called with a current scheduler. -/
def Legal (s : State) : Op → Prop
  | .addEvent self fd _ _ _ => self.scheduler.isSome = true ∧ fd < 2 ^ 31
  | .delEvent fd _ _ => fd < 2 ^ 31
  | .cancelEvent fd _ _ => fd < 2 ^ 31
  | .cancelAll fd _ => fd < 2 ^ 31
  | .idle _ _ => True
  | .close fd => s.cancelled fd = true

def Step (s : State) (a : Op × Bool) (s' : State) : Prop := Legal s a.1 ∧ exec s a.1 = .ok (a.2, s')

def start : State := ⟨IOManager.start, fun _ => false⟩

/-! ## The property -/

/-- m_events and the two event contexts of a descriptor, as a fresh context has them where
    there is none. -/
def contextAt (s : IOManager) (fd : Nat) : Event × EventContext × EventContext :=
  match s.m_fdContexts[fd]? with
  | some c => (c.m_events, c.m_readCtx, c.m_writeCtx)
  | none => (.NONE, .reset, .reset)

/-- The registration the armed events of a descriptor call for. -/
def registration (fd : Nat) (m_events : Event) : Option EpollEvent :=
  if m_events.any then some ⟨m_events.edgeTriggered, .ptr fd⟩ else none

def Agree (s : IOManager) : Prop := ∀ fd, s.epoll fd = registration fd (contextAt s fd).1

/-- The op of `leave`. -/
def leaveOp (left : Event) : CtlOp := if left.any then .EPOLL_CTL_MOD else .EPOLL_CTL_DEL

/-- The epoll_ctl call an operation makes: the descriptor and the op. -/
def issued (s : State) : Op → Option (Nat × CtlOp)
  | .addEvent _ fd _ _ _ =>
    some (fd, if (contextAt (grown s.iom fd) fd).1.any then .EPOLL_CTL_MOD else .EPOLL_CTL_ADD)
  | .delEvent fd event _ => leaving fd event
  | .cancelEvent fd event _ => leaving fd event
  | .cancelAll fd _ =>
    if intSize s.iom ≤ fd ∨ (contextAt s.iom fd).1.any = false then none else some (fd, .EPOLL_CTL_DEL)
  | .idle e _ => match e.data with
    | .tickle => none
    | .ptr fd => match s.iom.m_fdContexts[fd]? with
      | some c => if acts c e.events then some (fd, leaveOp (c.m_events &&& ~~~realEvents c e.events)) else none
      | none => none
  | .close _ => none
where
  leaving (fd : Nat) (event : Event) : Option (Nat × CtlOp) :=
    if intSize s.iom ≤ fd ∨ ((contextAt s.iom fd).1 &&& event).any = false then none
    else some (fd, leaveOp ((contextAt s.iom fd).1 &&& ~~~event))

/-- What the step must do: the two sides agree after it, the call it makes is ADD exactly
    for an unregistered descriptor, and returning false it has changed nothing. -/
structure Kept (s : State) (a : Op × Bool) (s' : State) : Prop where
  agree : Agree s'.iom
  legal : ∀ fd op, issued s a.1 = some (fd, op) → (op = .EPOLL_CTL_ADD ↔ s.iom.epoll fd = none)
  unchanged : a.2 = false → (∀ fd, contextAt s'.iom fd = contextAt s.iom fd) ∧
    s'.iom.m_pendingEventCount = s.iom.m_pendingEventCount

/-- No resize drops an armed context, and no descriptor is closed armed. -/
def Sound (s : State) (a : Op × Bool) : Prop :=
  match a.1 with
  | .addEvent _ fd _ _ _ =>
    intSize s.iom ≤ fd → ∀ k, Contexts.growSize fd ≤ k → (contextAt s.iom k).1.any = false
  | .close fd => (contextAt s.iom fd).1.any = false
  | _ => True

/-! ## Contexts by descriptor -/

theorem contextAt_of_get {s : IOManager} {fd : Nat} {c : FdContext} (h : s.m_fdContexts[fd]? = some c) :
    contextAt s fd = (c.m_events, c.m_readCtx, c.m_writeCtx) := by
  simp only [contextAt, h]

theorem contextAt_of_length {s : IOManager} {fd : Nat} (h : s.m_fdContexts.length ≤ fd) :
    contextAt s fd = (.NONE, .reset, .reset) := by
  simp only [contextAt, List.getElem?_eq_none h]

/-- An unarmed context is as a fresh one. -/
theorem unarmed_contextAt {s : IOManager} (hi : s.Inv) {fd : Nat} (h : (contextAt s fd).1.any = false) :
    contextAt s fd = (.NONE, .reset, .reset) := by
  cases hc : s.m_fdContexts[fd]? with
  | none => simp only [contextAt, hc]
  | some c =>
    rw [contextAt_of_get hc] at h ⊢
    obtain ⟨hr, hw⟩ := hi.wf c (List.mem_of_getElem? hc)
    rcases c with ⟨rc, wc, n, r, w⟩
    simp only [Event.any, Bool.or_eq_false_iff] at h
    obtain ⟨rfl, rfl⟩ := h
    simp only [EventContext.Wf, Bool.false_eq_true, if_false] at hr hw
    rw [hr, hw]
    rfl

theorem resizeFill_get {α : Type} (mk : Nat → α) (v : List α) (size k : Nat) :
    (resizeFill mk v size)[k]? = if k < size then some ((v[k]?).getD (mk k)) else none := by
  unfold resizeFill
  by_cases hk : k < size
  · rw [if_pos hk]
    by_cases hv : k < v.length
    · rw [List.getElem?_append_left (by rw [List.length_take]; omega), List.getElem?_take_of_lt hk,
        List.getElem?_eq_getElem hv]
      rfl
    · have hl : (v.take size).length = v.length := by rw [List.length_take]; omega
      rw [List.getElem?_append_right (by omega), List.getElem?_map, hl, List.getElem?_range' (by omega),
        List.getElem?_eq_none (by omega)]
      simp only [Option.map_some, Option.getD_none]
      congr 2
      omega
  · rw [if_neg hk, List.getElem?_eq_none_iff]
    simp only [List.length_append, List.length_take, List.length_map, List.length_range']
    omega

theorem contextAt_resize (s : IOManager) (n k : Nat) :
    contextAt (s.contextResize n) k = if k < n then contextAt s k else (.NONE, .reset, .reset) := by
  have hget : (s.contextResize n).m_fdContexts[k]? = _ := resizeFill_get FdContext.fresh s.m_fdContexts n k
  by_cases hk : k < n
  · rw [if_pos hk] at hget ⊢
    rw [contextAt_of_get hget]
    cases hc : s.m_fdContexts[k]? with
    | none => simp only [contextAt, hc, Option.getD_none, FdContext.fresh]
    | some c => simp only [contextAt, hc, Option.getD_some]
  · rw [if_neg hk] at hget ⊢
    simp only [contextAt, hget]

/-- A resize that drops only unarmed contexts. -/
theorem resize_inv {s : IOManager} (hi : s.Inv) {n : Nat} (h : ∀ k, n ≤ k → (contextAt s k).1.any = false) :
    (s.contextResize n).Inv := by
  have hz : ∀ c ∈ s.m_fdContexts.drop n, c.armedBits = 0 := by
    intro c hc
    obtain ⟨k, hk, he⟩ := List.mem_iff_getElem.mp hc
    rw [List.length_drop] at hk
    rw [List.getElem_drop] at he
    have hget : s.m_fdContexts[n + k]? = some c := by
      rw [List.getElem?_eq_getElem (by omega), he]
    have ha := h (n + k) (by omega)
    rw [contextAt_of_get hget] at ha
    simp only [Event.any, Bool.or_eq_false_iff] at ha
    simp [FdContext.armedBits, ha.1, ha.2]
  constructor
  · intro c hc
    rcases List.mem_append.mp hc with hc | hc
    · exact hi.wf c (List.mem_of_mem_take hc)
    · obtain ⟨fd, -, rfl⟩ := List.mem_map.mp hc
      exact FdContext.fresh_wf fd
  · have hdrop : ((s.m_fdContexts.drop n).map FdContext.armedBits).sum = 0 :=
      List.sum_eq_zero fun x hx => by
        obtain ⟨c, hc, rfl⟩ := List.mem_map.mp hx
        exact hz c hc
    have hnew : ((List.range' (s.m_fdContexts.take n).length (n - (s.m_fdContexts.take n).length)).map
        (FdContext.armedBits ∘ FdContext.fresh)).sum = 0 :=
      List.sum_eq_zero fun x hx => by
        obtain ⟨fd, -, rfl⟩ := List.mem_map.mp hx
        exact FdContext.fresh_armedBits fd
    have hsum : s.armedTotal = ((s.m_fdContexts.take n).map FdContext.armedBits).sum := by
      unfold IOManager.armedTotal
      conv_lhs => rw [← List.take_append_drop n s.m_fdContexts, List.map_append, List.sum_append, hdrop, Int.add_zero]
    have : (s.contextResize n).armedTotal = s.armedTotal := by
      rw [hsum]
      show ((resizeFill FdContext.fresh s.m_fdContexts n).map FdContext.armedBits).sum = _
      rw [resizeFill, List.map_append, List.sum_append, List.map_map, hnew, Int.add_zero]
    rw [this, ← hi.count]
    rfl

theorem grown_contextAt {s : IOManager} (hi : s.Inv) {fd : Nat}
    (h : intSize s ≤ fd → ∀ k, Contexts.growSize fd ≤ k → (contextAt s k).1.any = false) (k : Nat) :
    contextAt (grown s fd) k = contextAt s k := by
  unfold grown
  split
  · rename_i hle
    rw [contextAt_resize]
    split
    · rfl
    · exact (unarmed_contextAt hi (h hle k (by omega))).symm
  · rfl

theorem grown_inv {s : IOManager} (hi : s.Inv) {fd : Nat}
    (h : intSize s ≤ fd → ∀ k, Contexts.growSize fd ≤ k → (contextAt s k).1.any = false) : (grown s fd).Inv := by
  unfold grown
  split
  · rename_i hle
    exact resize_inv hi (h hle)
  · exact hi

@[simp] theorem grown_epoll (s : IOManager) (fd : Nat) : (grown s fd).epoll = s.epoll := by
  unfold grown
  split <;> rfl

@[simp] theorem grown_count (s : IOManager) (fd : Nat) : (grown s fd).m_pendingEventCount = s.m_pendingEventCount := by
  unfold grown
  split <;> rfl

/-! ## What an operation does to a descriptor -/

/-- The context of `fd` is `c'`, and the kernel was told so by `op`. -/
structure Moved (s : IOManager) (fd : Nat) (c' : FdContext) (op : CtlOp) (t : IOManager) : Prop where
  contexts : t.m_fdContexts = s.m_fdContexts.set fd c'
  epoll : ∃ e, t.epoll = epollCtl s.epoll op fd e ∧ (op ≠ .EPOLL_CTL_DEL → e = ⟨c'.m_events.edgeTriggered, .ptr fd⟩)
  op : op = .EPOLL_CTL_DEL ↔ c'.m_events.any = false

theorem Moved.contextAt {s t : IOManager} {fd : Nat} {c' : FdContext} {op : CtlOp} (h : Moved s fd c' op t)
    (hlt : fd < s.m_fdContexts.length) (k : Nat) :
    contextAt t k = if k = fd then (c'.m_events, c'.m_readCtx, c'.m_writeCtx) else contextAt s k := by
  unfold Agreement.contextAt
  rw [h.contexts]
  by_cases e : k = fd
  · subst e
    rw [List.getElem?_set_self hlt, if_pos rfl]
  · rw [List.getElem?_set_ne (Ne.symm e), if_neg e]

theorem Moved.length {s t : IOManager} {fd : Nat} {c' : FdContext} {op : CtlOp} (h : Moved s fd c' op t) :
    t.m_fdContexts.length = s.m_fdContexts.length := by
  rw [h.contexts, List.length_set]

theorem Moved.epoll_other {s t : IOManager} {fd : Nat} {c' : FdContext} {op : CtlOp} (h : Moved s fd c' op t) {k : Nat}
    (hk : k ≠ fd) : t.epoll k = s.epoll k := by
  obtain ⟨e, he, -⟩ := h.epoll
  rw [he]
  exact if_neg hk

theorem Moved.agree {s t : IOManager} {fd : Nat} {c' : FdContext} {op : CtlOp} (h : Moved s fd c' op t)
    (hlt : fd < s.m_fdContexts.length) (ha : Agree s) : Agree t := by
  intro k
  rw [h.contextAt hlt]
  by_cases e : k = fd
  · subst e
    obtain ⟨ev, he, hev⟩ := h.epoll
    rw [if_pos rfl, he]
    show (if k = k then _ else _) = _
    rw [if_pos rfl]
    unfold registration
    by_cases hany : c'.m_events.any = true
    · have hop : op ≠ .EPOLL_CTL_DEL := fun hd => by
        rw [h.op.mp hd] at hany
        cases hany
      rw [if_pos hany, ← hev hop]
      cases op
      · rfl
      · rfl
      · exact absurd rfl hop
    · rw [if_neg hany, h.op.mpr (by simpa using hany)]
  · rw [if_neg e, h.epoll_other e]
    exact ha k

theorem leaveOp_del (left : Event) : leaveOp left = .EPOLL_CTL_DEL ↔ left.any = false := by
  unfold leaveOp
  cases left.any <;> simp

theorem leaveOp_ne_add (left : Event) : leaveOp left ≠ .EPOLL_CTL_ADD := by
  unfold leaveOp
  cases left.any <;> simp

theorem setEventContext_events (c : FdContext) (event : Event) (ctx : EventContext) :
    (c.setEventContext event ctx).m_events = c.m_events := by
  unfold FdContext.setEventContext
  split <;> rfl

theorem lt_of_fdContext {s : IOManager} {fd : Nat} {c : FdContext} (h : s.fdContext fd = .ok c) :
    fd < s.m_fdContexts.length :=
  (List.getElem?_eq_some_iff.mp (fdContext_ok.mp h)).1

theorem addEvent_cases {s t : IOManager} {self : Caller} {fd : Nat} {event : Event} {cb : Option CbId} {ctl b : Bool}
    (h : s.addEvent self fd event cb ctl = .ok (b, t)) :
    ∃ c, s.fdContext fd = .ok c ∧ ((b = false ∧ t = s) ∨ (b = true ∧
      t.m_pendingEventCount = s.m_pendingEventCount + 1 ∧
      ∃ c', Moved s fd c' (if c.m_events.any then .EPOLL_CTL_MOD else .EPOLL_CTL_ADD) t)) := by
  obtain ⟨c, hc, h⟩ := Except.bind_eq_ok.mp h
  obtain ⟨_, -, h⟩ := Except.bind_eq_ok.mp h
  refine ⟨c, hc, ?_⟩
  cases ctl with
  | false =>
    cases h
    exact .inl ⟨rfl, rfl⟩
  | true =>
    simp only [Bool.not_true, Bool.false_eq_true, if_false] at h
    obtain ⟨ctx, hctx, h⟩ := Except.bind_eq_ok.mp h
    obtain ⟨_, -, h⟩ := Except.bind_eq_ok.mp h
    obtain ⟨_, -, h⟩ := Except.bind_eq_ok.mp h
    cases h
    refine .inr ⟨rfl, rfl, _, rfl, ⟨_, rfl, ?_⟩, ?_⟩
    · intro _
      rw [setEventContext_events]
    · rw [setEventContext_events]
      have hany : (c.m_events ||| event).any = true := by
        rcases FdContext.getEventContext_ok hctx with ⟨rfl, -⟩ | ⟨rfl, -⟩
        · simp [Event.any]
        · simp [Event.any]
      rw [hany]
      cases c.m_events.any <;> simp

/-- What `delEvent` and `cancelEvent` leave of an armed descriptor. -/
def Left (s : IOManager) (fd : Nat) (gone : Event) (t : IOManager) : Prop :=
  ∃ c c', s.fdContext fd = .ok c ∧ (c.m_events &&& gone).any = true ∧ c'.m_events = c.m_events &&& ~~~gone ∧
    Moved s fd c' (leaveOp (c.m_events &&& ~~~gone)) t

theorem leave_moved {s t : IOManager} {fd : Nat} {c' : FdContext} {left : Event} (hev : c'.m_events = left)
    (hctx : t.m_fdContexts = s.m_fdContexts.set fd c') (hep : t.epoll = (s.leave fd left).epoll) :
    Moved s fd c' (leaveOp left) t := by
  refine ⟨hctx, ⟨_, hep, ?_⟩, ?_⟩
  · intro _
    rw [hev]
  · rw [leaveOp_del, hev]

theorem delEvent_cases {s t : IOManager} {fd : Nat} {event : Event} {ctl b : Bool}
    (h : s.delEvent fd event ctl = .ok (b, t)) : (b = false ∧ t = s) ∨ (b = true ∧ Left s fd event t) := by
  unfold IOManager.delEvent at h
  split at h
  · cases h
    exact .inl ⟨rfl, rfl⟩
  obtain ⟨c, hc, h⟩ := Except.bind_eq_ok.mp h
  split at h
  · cases h
    exact .inl ⟨rfl, rfl⟩
  rename_i ha
  cases ctl with
  | false =>
    cases h
    exact .inl ⟨rfl, rfl⟩
  | true =>
    simp only [Bool.not_true, Bool.false_eq_true, if_false] at h
    obtain ⟨ctx, hctx, h⟩ := Except.bind_eq_ok.mp h
    cases h
    exact .inr ⟨rfl, c, _, hc, by simpa using ha, setEventContext_events _ _ _,
      leave_moved (setEventContext_events _ _ _) rfl rfl⟩

theorem cancelEvent_cases {s t : IOManager} (hi : s.Inv) {fd : Nat} {event : Event} {ctl b : Bool}
    (h : s.cancelEvent fd event ctl = .ok (b, t)) : (b = false ∧ t = s) ∨ (b = true ∧ Left s fd event t) := by
  unfold IOManager.cancelEvent at h
  split at h
  · cases h
    exact .inl ⟨rfl, rfl⟩
  obtain ⟨c, hc, h⟩ := Except.bind_eq_ok.mp h
  split at h
  · cases h
    exact .inl ⟨rfl, rfl⟩
  rename_i ha
  split at h
  · cases h
    exact .inl ⟨rfl, rfl⟩
  obtain ⟨u, hu, h⟩ := Except.bind_eq_ok.mp h
  cases h
  obtain ⟨c', hc', -, -, htr⟩ := IOManager.trigger_ok (IOManager.leave_inv hi fd _) hu
  have hcc : s.fdContext fd = .ok c' := hc'
  rw [hc] at hcc
  cases hcc
  exact .inr ⟨rfl, c, _, hc, by simpa using ha, FdContext.disarm_events c event,
    leave_moved (FdContext.disarm_events c event) htr.contexts htr.epoll⟩

theorem triggerIf_ok {s t : IOManager} (hi : s.Inv) {p : Bool} {fd : Nat} {event : Event} {c : FdContext}
    (hc : s.fdContext fd = .ok c) (h : s.triggerIf p fd event = .ok t) :
    t.Inv ∧ t.epoll = s.epoll ∧ ∃ c', t.m_fdContexts = s.m_fdContexts.set fd c' := by
  cases p with
  | false =>
    cases h
    obtain ⟨hlt, hget⟩ := List.getElem?_eq_some_iff.mp (fdContext_ok.mp hc)
    exact ⟨hi, rfl, c, by simp [← hget]⟩
  | true =>
    have h : s.trigger fd event = .ok t := h
    obtain ⟨d, -, -, -, htr⟩ := IOManager.trigger_ok hi h
    exact ⟨IOManager.trigger_inv hi h, htr.epoll, _, htr.contexts⟩

theorem cancelAll_cases {s t : IOManager} (hi : s.Inv) {fd : Nat} {ctl b : Bool}
    (h : s.cancelAll fd ctl = .ok (b, t)) : (b = false ∧ t = s) ∨ (b = true ∧ ∃ c c', s.fdContext fd = .ok c ∧
      Moved s fd c' .EPOLL_CTL_DEL t) := by
  unfold IOManager.cancelAll at h
  split at h
  · cases h
    exact .inl ⟨rfl, rfl⟩
  obtain ⟨c, hc, h⟩ := Except.bind_eq_ok.mp h
  split at h
  · cases h
    exact .inl ⟨rfl, rfl⟩
  split at h
  · cases h
    exact .inl ⟨rfl, rfl⟩
  obtain ⟨t1, h1, h⟩ := Except.bind_eq_ok.mp h
  obtain ⟨c1, hc1, h⟩ := Except.bind_eq_ok.mp h
  obtain ⟨t2, h2, h⟩ := Except.bind_eq_ok.mp h
  obtain ⟨c2, hc2, h⟩ := Except.bind_eq_ok.mp h
  obtain ⟨_, hn, h⟩ := Except.bind_eq_ok.mp h
  cases h
  have hi0 : Inv { s with epoll := epollCtl s.epoll .EPOLL_CTL_DEL fd ⟨.NONE, .ptr fd⟩ } := ⟨hi.wf, hi.count⟩
  obtain ⟨hi1, he1, d1, hd1⟩ := triggerIf_ok hi0 hc h1
  obtain ⟨-, he2, d2, hd2⟩ := triggerIf_ok hi1 hc1 h2
  have hd : t.m_fdContexts = s.m_fdContexts.set fd d2 := by
    rw [hd2, hd1, List.set_set]
  have hcd := fdContext_of_set hc hd
  rw [hc2] at hcd
  cases hcd
  rw [assert_ok, beq_iff_eq] at hn
  refine .inr ⟨rfl, c, c2, hc, hd, ⟨⟨.NONE, .ptr fd⟩, he2.trans he1, fun hne => absurd rfl hne⟩, ?_⟩
  rw [hn]
  exact ⟨fun _ => rfl, fun _ => rfl⟩

theorem idle_cases {s t : IOManager} (hi : s.Inv) {e : EpollEvent} {ctl : Bool} {r : Option Int}
    (h : s.idleEntry e ctl = .ok (t, r)) : t = s ∨ ∃ fd c c' op, s.fdContext fd = .ok c ∧ Moved s fd c' op t := by
  rcases e with ⟨e, _ | fd⟩
  · cases h
    exact .inl rfl
  have h' := h
  obtain ⟨c, hc, -⟩ := Except.bind_eq_ok.mp h
  by_cases ha : acts c e = true
  · cases ctl with
    | false =>
      rw [IOManager.idleEntry_refused hc ha] at h
      cases h
      exact .inl rfl
    | true =>
      have hp : IOManager.overlapsPartly c e = false := by
        rw [← Bool.not_eq_true]
        intro hp
        rw [IOManager.idleEntry_partly hi hc hp] at h'
        cases h'
      obtain ⟨u, hu, hh⟩ := IOManager.idleEntry_whole hi hc ha hp
      rw [h'] at hu
      cases hu
      obtain ⟨c', hset, hev⟩ := hh.contexts
      unfold acts at ha
      simp only [IOManager.idleEntry, hc, Except.ok_bind_eq, ha, Bool.not_true, Bool.false_eq_true, if_false] at h
      obtain ⟨t1, h1, h⟩ := Except.bind_eq_ok.mp h
      obtain ⟨t2, h2, h⟩ := Except.bind_eq_ok.mp h
      cases h
      obtain ⟨hi1, he1, d1, hd1⟩ := triggerIf_ok (IOManager.leave_inv hi fd _) hc h1
      obtain ⟨-, he2, -, -⟩ := triggerIf_ok hi1 (fdContext_of_set (s := s.leave fd _) hc hd1) h2
      exact .inr ⟨fd, c, c', _, hc, leave_moved hev hset (he2.trans he1)⟩
  · rw [IOManager.idleEntry_skipped hc (by simpa using ha)] at h
    cases h
    exact .inl rfl

/-! ## One step -/

/-- The invariant of the table, and agreement. -/
def Agrees (s : State) : Prop := s.iom.Inv ∧ Agree s.iom

theorem unregistered_iff {s : IOManager} (ha : Agree s) (fd : Nat) :
    s.epoll fd = none ↔ (contextAt s fd).1.any = false := by
  rw [ha fd, registration]
  cases (contextAt s fd).1.any <;> simp

theorem within_cases {s t : IOManager} {fd : Nat} {r : Except Abort (Bool × IOManager)} {b : Bool}
    (h : within s fd r = .ok (b, t)) : (b = false ∧ t = s) ∨ r = .ok (b, t) := by
  unfold within at h
  split at h
  · cases h
    exact .inl ⟨rfl, rfl⟩
  · exact .inr h

theorem Left.length {s t : IOManager} {fd : Nat} {gone : Event} (h : Left s fd gone t) :
    t.m_fdContexts.length = s.m_fdContexts.length := by
  obtain ⟨c, c', -, -, -, hm⟩ := h
  exact hm.length

theorem Left.agree {s t : IOManager} {fd : Nat} {gone : Event} (h : Left s fd gone t) (ha : Agree s) : Agree t := by
  obtain ⟨c, c', hc, -, -, hm⟩ := h
  exact hm.agree (lt_of_fdContext hc) ha

/-- What a step of `delEvent`, `cancelEvent` or `cancelAll` shows. -/
structure Disarms (s : IOManager) (b : Bool) (t : IOManager) : Prop where
  inv : t.Inv
  length : t.m_fdContexts.length = s.m_fdContexts.length
  agree : Agree s → Agree t
  unchanged : b = false → t = s

theorem delEvent_disarms {s t : IOManager} (hi : s.Inv) {fd : Nat} {event : Event} {ctl b : Bool}
    (h : within s fd (s.delEvent fd event ctl) = .ok (b, t)) : Disarms s b t := by
  rcases within_cases h with ⟨rfl, rfl⟩ | h
  · exact ⟨hi, rfl, id, fun _ => rfl⟩
  · have hinv := IOManager.delEvent_inv hi h
    rcases delEvent_cases h with ⟨rfl, rfl⟩ | ⟨rfl, hl⟩
    · exact ⟨hi, rfl, id, fun _ => rfl⟩
    · exact ⟨hinv, hl.length, hl.agree, nofun⟩

theorem cancelEvent_disarms {s t : IOManager} (hi : s.Inv) {fd : Nat} {event : Event} {ctl b : Bool}
    (h : within s fd (s.cancelEvent fd event ctl) = .ok (b, t)) : Disarms s b t := by
  rcases within_cases h with ⟨rfl, rfl⟩ | h
  · exact ⟨hi, rfl, id, fun _ => rfl⟩
  · have hinv := IOManager.cancelEvent_inv hi h
    rcases cancelEvent_cases hi h with ⟨rfl, rfl⟩ | ⟨rfl, hl⟩
    · exact ⟨hi, rfl, id, fun _ => rfl⟩
    · exact ⟨hinv, hl.length, hl.agree, nofun⟩

theorem cancelAll_disarms {s t : IOManager} (hi : s.Inv) {fd : Nat} {ctl b : Bool}
    (h : within s fd (s.cancelAll fd ctl) = .ok (b, t)) : Disarms s b t := by
  rcases within_cases h with ⟨rfl, rfl⟩ | h
  · exact ⟨hi, rfl, id, fun _ => rfl⟩
  · have hinv := IOManager.cancelAll_inv hi h
    rcases cancelAll_cases hi h with ⟨rfl, rfl⟩ | ⟨rfl, c, c', hc, hm⟩
    · exact ⟨hi, rfl, id, fun _ => rfl⟩
    · exact ⟨hinv, hm.length, hm.agree (lt_of_fdContext hc), nofun⟩

theorem Disarms.kept {s s' : State} {a : Op × Bool} (h : Disarms s.iom a.2 s'.iom) (ha : Agree s.iom)
    (hl : ∀ fd op, issued s a.1 = some (fd, op) → (op = .EPOLL_CTL_ADD ↔ s.iom.epoll fd = none)) : Kept s a s' where
  agree := h.agree ha
  legal := hl
  unchanged hb := by
    rw [h.unchanged hb]
    exact ⟨fun _ => rfl, rfl⟩

/-- MOD and DEL are issued for armed descriptors only. -/
theorem leaving_legal {s : State} (ha : Agree s.iom) {fd : Nat} {event : Event} {k : Nat} {op : CtlOp}
    (h : issued.leaving s fd event = some (k, op)) : op = .EPOLL_CTL_ADD ↔ s.iom.epoll k = none := by
  unfold issued.leaving at h
  split at h
  · cases h
  · rename_i hno
    cases h
    rw [not_or, Bool.not_eq_false] at hno
    have hany : (contextAt s.iom fd).1.any = true := by
      have := hno.2
      simp only [Event.any, Event.and_read, Event.and_write, Bool.or_eq_true, Bool.and_eq_true] at this ⊢
      exact this.imp And.left And.left
    rw [unregistered_iff ha, hany]
    simp [leaveOp_ne_add]

theorem idle_legal {s : State} (ha : Agree s.iom) {e : EpollEvent} {ctl : Bool} {k : Nat} {op : CtlOp}
    (h : issued s (.idle e ctl) = some (k, op)) : op = .EPOLL_CTL_ADD ↔ s.iom.epoll k = none := by
  rcases e with ⟨e, _ | fd⟩
  · cases h
  simp only [issued] at h
  cases hc : s.iom.m_fdContexts[fd]? with
  | none =>
    rw [hc] at h
    cases h
  | some c =>
    simp only [hc] at h
    split at h
    · rename_i hact
      cases h
      have hany : c.m_events.any = true := by
        simp only [acts, Event.any, Event.and_read, Event.and_write, Bool.or_eq_true, Bool.and_eq_true] at hact ⊢
        exact hact.imp And.left And.left
      rw [unregistered_iff ha, contextAt_of_get hc, hany]
      simp [leaveOp_ne_add]
    · cases h

theorem cancelAll_legal {s : State} (ha : Agree s.iom) {fd : Nat} {ctl : Bool} {k : Nat} {op : CtlOp}
    (h : issued s (.cancelAll fd ctl) = some (k, op)) : op = .EPOLL_CTL_ADD ↔ s.iom.epoll k = none := by
  simp only [issued] at h
  split at h
  · cases h
  · rename_i hno
    cases h
    rw [not_or, Bool.not_eq_false] at hno
    rw [unregistered_iff ha, hno.2]
    simp

/-- After a sound growth `addEvent` agrees. -/
theorem addEvent_kept {s : State} (h : Agrees s) {self : Caller} {fd : Nat} {event : Event} {cb : Option CbId}
    {ctl b : Bool} {t : IOManager} (ht : (grown s.iom fd).addEvent self fd event cb ctl = .ok (b, t))
    (hs : intSize s.iom ≤ fd → ∀ k, Contexts.growSize fd ≤ k → (contextAt s.iom k).1.any = false)
    (cancelled : Nat → Bool) : Kept s (.addEvent self fd event cb ctl, b) ⟨t, cancelled⟩ := by
  obtain ⟨hi, ha⟩ := h
  have hat := grown_contextAt hi hs
  have hag : Agree (grown s.iom fd) := by
    intro k
    rw [grown_epoll, hat]
    exact ha k
  obtain ⟨c, hc, hcase⟩ := addEvent_cases ht
  refine ⟨?_, ?_, ?_⟩
  · rcases hcase with ⟨-, he⟩ | ⟨-, -, c', hm⟩
    · show Agree t
      rw [he]
      exact hag
    · exact hm.agree (lt_of_fdContext hc) hag
  · intro k op hop
    simp only [issued] at hop
    cases hop
    rw [unregistered_iff ha, hat]
    cases (contextAt s.iom fd).1.any <;> simp
  · intro (hb : b = false)
    rcases hcase with ⟨-, he⟩ | ⟨hb', -⟩
    · simp only [he]
      exact ⟨hat, grown_count _ _⟩
    · rw [hb] at hb'
      cases hb'

/-- A growth that drops an armed context leaves its registration behind. -/
theorem addEvent_sound {s : State} (h : Agrees s) {self : Caller} {fd : Nat} {event : Event} {cb : Option CbId}
    {ctl b : Bool} {t : IOManager} (ht : (grown s.iom fd).addEvent self fd event cb ctl = .ok (b, t)) (hk : Agree t) :
    intSize s.iom ≤ fd → ∀ k, Contexts.growSize fd ≤ k → (contextAt s.iom k).1.any = false := by
  intro hle k hge
  obtain ⟨c, hc, hcase⟩ := addEvent_cases ht
  have hlt := lt_of_fdContext hc
  have hlen : (grown s.iom fd).m_fdContexts.length = Contexts.growSize fd := by
    rw [grown, if_pos hle]
    exact Contexts.resizeFill_length ..
  rw [hlen] at hlt
  have hne : k ≠ fd := by omega
  have hnone : contextAt t k = (.NONE, .reset, .reset) ∧ t.epoll k = s.iom.epoll k := by
    have hg : contextAt (grown s.iom fd) k = (.NONE, .reset, .reset) := contextAt_of_length (by omega)
    rcases hcase with ⟨-, he⟩ | ⟨-, -, c', hm⟩
    · rw [he]
      exact ⟨hg, by rw [grown_epoll]⟩
    · rw [hm.contextAt (lt_of_fdContext hc), if_neg hne, hm.epoll_other hne, grown_epoll]
      exact ⟨hg, rfl⟩
  rw [← unregistered_iff h.2, ← hnone.2, unregistered_iff hk, hnone.1]
  rfl

theorem closeFd_agree {s : IOManager} (ha : Agree s) (fd : Nat) :
    Agree (closeFd s fd) ↔ (contextAt s fd).1.any = false := by
  constructor
  · intro h
    have hr : Function.update s.epoll fd none fd = registration fd (contextAt s fd).1 := h fd
    rw [Function.update_self, registration] at hr
    rw [← Bool.not_eq_true]
    intro hany
    rw [if_pos hany] at hr
    cases hr
  · intro hun k
    by_cases e : k = fd
    · subst e
      show Function.update s.epoll k none k = registration k (contextAt s k).1
      rw [Function.update_self, registration, hun]
      rfl
    · show Function.update s.epoll fd none k = registration k (contextAt s k).1
      rw [Function.update_of_ne e]
      exact ha k

theorem step_kept {s s' : State} {a : Op × Bool} (h : Agrees s) (hst : Step s a s') : Kept s a s' ↔ Sound s a := by
  obtain ⟨hi, ha⟩ := h
  obtain ⟨op, b⟩ := a
  obtain ⟨hl, he⟩ := hst
  cases op with
  | addEvent self fd event cb ctl =>
    obtain ⟨⟨b', t⟩, ht, he⟩ := Except.bind_eq_ok.mp he
    cases he
    exact ⟨fun hk => addEvent_sound ⟨hi, ha⟩ ht hk.agree, fun hs => addEvent_kept ⟨hi, ha⟩ ht hs _⟩
  | delEvent fd event ctl =>
    obtain ⟨⟨b', t⟩, ht, he⟩ := Except.bind_eq_ok.mp he
    cases he
    exact ⟨fun _ => trivial, fun _ => (delEvent_disarms hi ht).kept ha fun k op => leaving_legal ha⟩
  | cancelEvent fd event ctl =>
    obtain ⟨⟨b', t⟩, ht, he⟩ := Except.bind_eq_ok.mp he
    cases he
    exact ⟨fun _ => trivial, fun _ => (cancelEvent_disarms hi ht).kept ha fun k op => leaving_legal ha⟩
  | cancelAll fd ctl =>
    obtain ⟨⟨b', t⟩, ht, he⟩ := Except.bind_eq_ok.mp he
    cases he
    exact ⟨fun _ => trivial, fun _ => (cancelAll_disarms hi ht).kept ha fun k op => cancelAll_legal ha⟩
  | idle e ctl =>
    obtain ⟨⟨t, r⟩, ht, he⟩ := Except.bind_eq_ok.mp he
    cases he
    refine ⟨fun _ => trivial, fun _ => ⟨?_, fun k op => idle_legal ha, nofun⟩⟩
    rcases idle_cases hi ht with rfl | ⟨fd, c, c', op, hc, hm⟩
    · exact ha
    · exact hm.agree (lt_of_fdContext hc) ha
  | close fd =>
    cases he
    exact ⟨fun hk => (closeFd_agree ha fd).mp hk.agree, fun hs => ⟨(closeFd_agree ha fd).mpr hs, nofun, nofun⟩⟩

theorem step_agrees {s s' : State} {a : Op × Bool} (h : Agrees s) (hs : Sound s a) (hst : Step s a s') : Agrees s' := by
  refine ⟨?_, ((step_kept h hst).mpr hs).agree⟩
  obtain ⟨hi, ha⟩ := h
  obtain ⟨op, b⟩ := a
  obtain ⟨hl, he⟩ := hst
  cases op with
  | addEvent self fd event cb ctl =>
    obtain ⟨⟨b', t⟩, ht, he⟩ := Except.bind_eq_ok.mp he
    cases he
    exact IOManager.addEvent_inv (grown_inv hi hs) hl.1 ht
  | delEvent fd event ctl =>
    obtain ⟨⟨b', t⟩, ht, he⟩ := Except.bind_eq_ok.mp he
    cases he
    exact (delEvent_disarms hi ht).inv
  | cancelEvent fd event ctl =>
    obtain ⟨⟨b', t⟩, ht, he⟩ := Except.bind_eq_ok.mp he
    cases he
    exact (cancelEvent_disarms hi ht).inv
  | cancelAll fd ctl =>
    obtain ⟨⟨b', t⟩, ht, he⟩ := Except.bind_eq_ok.mp he
    cases he
    exact (cancelAll_disarms hi ht).inv
  | idle e ctl =>
    obtain ⟨⟨t, r⟩, ht, he⟩ := Except.bind_eq_ok.mp he
    cases he
    rcases IOManager.idle_cases hi e ctl ht with ⟨t', r', he, hinv, -⟩ | ⟨he, -⟩ | ⟨he, -⟩
    · cases he
      exact hinv
    · cases he
    · cases he
  | close fd =>
    cases he
    exact ⟨hi.wf, hi.count⟩

theorem start_contextAt (fd : Nat) : contextAt IOManager.start fd = (.NONE, .reset, .reset) := by
  unfold IOManager.start
  rw [contextAt_resize]
  split <;> rfl

theorem start_agrees : Agrees start := by
  refine ⟨IOManager.start_inv, ?_⟩
  intro fd
  show none = registration fd (contextAt IOManager.start fd).1
  rw [start_contextAt]
  rfl

/-- Every step of a run keeps the two sides together exactly when every step is sound. -/
theorem agreement_iff {tr : List ((Op × Bool) × State)} (h : Lts.Run Step start tr) :
    Lts.Every Kept start tr ↔ Lts.Every (fun s a _ => Sound s a) start tr :=
  h.every_iff (J := Agrees) (P := Kept) (G := Sound) (fun _ _ _ hj hg hst => step_agrees hj hg hst)
    (fun _ _ _ hj hst => step_kept hj hst) start_agrees

/-! ## A descriptor closed -/

/-- Fiber 7 waits for READ of descriptor 5. -/
def waiting : State :=
  ⟨{ IOManager.start.setContext 5 ⟨⟨some 0, some 7, none⟩, .reset, 5, .READ⟩ with
      m_pendingEventCount := 1
      epoll := epollCtl IOManager.start.epoll .EPOLL_CTL_ADD 5 ⟨Event.READ.edgeTriggered, .ptr 5⟩ },
    Function.update start.cancelled 5 false⟩

theorem start_waiting : Step start (.addEvent IOManager.fiberSeven 5 .READ none true, true) waiting := by
  have hg : grown start.iom 5 = start.iom := if_neg (by decide +kernel)
  refine ⟨⟨rfl, by decide⟩, ?_⟩
  simp only [exec, hg]
  rfl

theorem waiting_within (r : Except Abort (Bool × IOManager)) : within waiting.iom 5 r = r := if_neg (by decide +kernel)

theorem waiting_armed : (contextAt waiting.iom 5).1 = .READ := rfl

/-- The descriptor is closed after a `cancelAll` that triggered its event. -/
theorem cancelled_run : ∃ s, Lts.Run Step start
      [((.addEvent IOManager.fiberSeven 5 .READ none true, true), waiting), ((.cancelAll 5 true, true), s),
        ((.close 5, true), ⟨closeFd s.iom 5, Function.update s.cancelled 5 false⟩)] ∧
    (contextAt s.iom 5).1 = .NONE := by
  have hcancel : ∃ t, waiting.iom.cancelAll 5 true = .ok (true, t) ∧ (contextAt t 5).1 = .NONE := ⟨_, rfl, rfl⟩
  obtain ⟨t, ht, hnone⟩ := hcancel
  refine ⟨⟨t, Function.update waiting.cancelled 5 true⟩,
    .cons start_waiting <| .cons ⟨(by decide : 5 < 2 ^ 31), ?_⟩ <| .cons ⟨rfl, rfl⟩ (.nil _), hnone⟩
  simp only [exec, waiting_within, ht]
  rfl

theorem agreement_cancelled : ∃ s s', Lts.Every Kept start
      [((.addEvent IOManager.fiberSeven 5 .READ none true, true), waiting), ((.cancelAll 5 true, true), s),
        ((.close 5, true), s')] ∧ s'.iom.epoll 5 = none := by
  obtain ⟨s, hrun, hs⟩ := cancelled_run
  refine ⟨s, _, (agreement_iff hrun).mpr ⟨?_, trivial, ?_, trivial⟩, by simp [closeFd]⟩
  · intro _ k _
    show (contextAt IOManager.start k).1.any = false
    rw [start_contextAt]
    rfl
  · show (contextAt s.iom 5).1.any = false
    rw [hs]
    rfl

/-- The `cancelAll` fails in epoll_ctl, and the descriptor is closed armed: the kernel has
    dropped a registration that the context still has. -/
theorem closed_armed : ∃ s s', Lts.Run Step start
      [((.addEvent IOManager.fiberSeven 5 .READ none true, true), waiting), ((.cancelAll 5 false, false), s),
        ((.close 5, true), s')] ∧
    (contextAt s'.iom 5).1 = .READ ∧ s'.iom.epoll 5 = none ∧ ¬Agree s'.iom := by
  refine ⟨⟨waiting.iom, Function.update waiting.cancelled 5 true⟩, ⟨closeFd waiting.iom 5, _⟩,
    .cons start_waiting <| .cons ⟨(by decide : 5 < 2 ^ 31), ?_⟩ <| .cons ⟨rfl, rfl⟩ (.nil _),
    waiting_armed, by simp [closeFd], ?_⟩
  · simp only [exec, waiting_within]
    rfl
  · intro h
    have := h 5
    rw [show contextAt (closeFd waiting.iom 5) 5 = contextAt waiting.iom 5 from rfl, waiting_armed] at this
    simp [closeFd, registration, Event.any, Event.READ] at this

/-! ## The size as an int -/

theorem intSize_of_lt {s : IOManager} (h : s.m_fdContexts.length < 2147483648) :
    intSize s = s.m_fdContexts.length := by
  unfold intSize
  rw [Int.bmod_def]
  omega

/-- While the size fits an int, growing drops nothing. -/
theorem sound_of_size {s : State} (h : s.iom.m_fdContexts.length < 2147483648) (self : Caller) (fd : Nat)
    (event : Event) (cb : Option CbId) (ctl b : Bool) : Sound s (.addEvent self fd event cb ctl, b) := by
  intro hle k hk
  rw [intSize_of_lt h] at hle
  unfold Contexts.growSize at hk
  rw [contextAt_of_length (by omega)]
  rfl

/-- Descriptors from which the table stays below 2^31 contexts; none is closed armed. -/
def Small (s : State) (a : Op × Bool) : Prop :=
  match a.1 with
  | .addEvent _ fd _ _ _ => fd < 1431655766
  | .close fd => (contextAt s.iom fd).1.any = false
  | _ => True

theorem grown_length {s : IOManager} {fd : Nat} (h : s.m_fdContexts.length < 2147483648) (hfd : fd < 1431655766) :
    (grown s fd).m_fdContexts.length < 2147483648 := by
  unfold grown
  split
  · have hl : (s.contextResize (Contexts.growSize fd)).m_fdContexts.length = Contexts.growSize fd :=
      Contexts.resizeFill_length ..
    rw [hl]
    unfold Contexts.growSize
    omega
  · exact h

theorem step_small {s s' : State} {a : Op × Bool} (h : Agrees s) (hlen : s.iom.m_fdContexts.length < 2147483648)
    (hs : Small s a) (hst : Step s a s') : Sound s a ∧ s'.iom.m_fdContexts.length < 2147483648 := by
  obtain ⟨hi, ha⟩ := h
  obtain ⟨op, b⟩ := a
  obtain ⟨hl, he⟩ := hst
  cases op with
  | addEvent self fd event cb ctl =>
    obtain ⟨⟨b', t⟩, ht, he⟩ := Except.bind_eq_ok.mp he
    cases he
    refine ⟨sound_of_size hlen self fd event cb ctl b, ?_⟩
    have hg := grown_length hlen hs
    obtain ⟨c, -, ⟨-, he⟩ | ⟨-, -, c', hm⟩⟩ := addEvent_cases ht
    · show t.m_fdContexts.length < _
      rw [he]
      exact hg
    · show t.m_fdContexts.length < _
      rw [hm.length]
      exact hg
  | delEvent fd event ctl =>
    obtain ⟨⟨b', t⟩, ht, he⟩ := Except.bind_eq_ok.mp he
    cases he
    exact ⟨trivial, by rw [(delEvent_disarms hi ht).length]; exact hlen⟩
  | cancelEvent fd event ctl =>
    obtain ⟨⟨b', t⟩, ht, he⟩ := Except.bind_eq_ok.mp he
    cases he
    exact ⟨trivial, by rw [(cancelEvent_disarms hi ht).length]; exact hlen⟩
  | cancelAll fd ctl =>
    obtain ⟨⟨b', t⟩, ht, he⟩ := Except.bind_eq_ok.mp he
    cases he
    exact ⟨trivial, by rw [(cancelAll_disarms hi ht).length]; exact hlen⟩
  | idle e ctl =>
    obtain ⟨⟨t, r⟩, ht, he⟩ := Except.bind_eq_ok.mp he
    cases he
    refine ⟨trivial, ?_⟩
    rcases idle_cases hi ht with rfl | ⟨fd, c, c', op, hc, hm⟩
    · exact hlen
    · show t.m_fdContexts.length < _
      rw [hm.length]
      exact hlen
  | close fd =>
    cases he
    exact ⟨hs, hlen⟩

/-- Below descriptor 1431655766 the two sides agree in every reachable state. -/
theorem agree_of_small {s : State} (h : Lts.Reach (· = start) (Lts.guarded Step Small) s) : Agree s.iom := by
  have hi : Agrees s ∧ s.iom.m_fdContexts.length < 2147483648 := by
    apply h.inv
    · intro s heq
      subst heq
      exact ⟨start_agrees, by decide⟩
    · intro s a s' ⟨hag, hlen⟩ ⟨hsm, hst⟩
      obtain ⟨hs, hlen'⟩ := step_small hag hlen hsm hst
      exact ⟨step_agrees hag hs hst, hlen'⟩
  exact hi.1.2

end Agreement
end Sylar
