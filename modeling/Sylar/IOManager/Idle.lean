/-
  Sylar.IOManager.Idle — one pass of `IOManager::idle` over the entries that epoll_wait
  returned (sylar/iomanager.cpp lines 369-410).

  The loop runs while `i < ret`, and every epoll_ctl inside it is assigned to the same
  `ret`: 0 or -1, so the loop ends with the first entry that gets as far as epoll_ctl.

  Proved, in every reachable table: the pass schedules every armed event that an entry
  reports (where its epoll_ctl succeeds) exactly when that first entry owes by itself all
  that the entries after it owe, and reports no unarmed event (`pass_handlesAll`).
-/

import Sylar.IOManager.EventsProofs

namespace Sylar
namespace IOManager

/-- The outcome of the entry's epoll_ctl, by descriptor. -/
def ctlOf (ctl : Nat → Bool) (e : EpollEvent) : Bool :=
  match e.data with
  | .tickle => true
  | .ptr fd => ctl fd

/-- `for (int i = 0; i < ret; ++i)`, with the `ret` that epoll_ctl leaves behind. -/
def idleLoop (ctl : Nat → Bool) : List EpollEvent → Int → Int → IOManager → Except Abort IOManager
  | [], _, _, s => .ok s
  | e :: es, i, ret, s =>
    if i < ret then do
      let (s, r) ← s.idleEntry e (ctlOf ctl e)
      idleLoop ctl es (i + 1) (r.getD ret) s
    else .ok s

def idlePass (s : IOManager) (ctl : Nat → Bool) (events : List EpollEvent) : Except Abort IOManager :=
  idleLoop ctl events 0 events.length s

/-! ## What a pass owes -/

/-- `event` is armed on `fd`, `e` reports it, and the epoll_ctl for `fd` succeeds. -/
structure Due (s : IOManager) (ctl : Nat → Bool) (e : EpollEvent) (fd : Nat) (event : Event) : Prop where
  data : e.data = .ptr fd
  ctl : ctl fd = true
  single : event.Single
  armed : ∃ c, s.fdContext fd = .ok c ∧ (c.m_events &&& realEvents c e.events &&& event).any = true

/-- Between `s` and `t` the event was disarmed and its task scheduled. -/
def Served (s t : IOManager) (fd : Nat) (event : Event) : Prop :=
  (∃ c, t.fdContext fd = .ok c ∧ (c.m_events &&& event).any = false) ∧
    ∃ c ctx scheduler, s.fdContext fd = .ok c ∧ c.getEventContext event = .ok ctx ∧
      ctx.m_scheduler = some scheduler ∧ (scheduler, ctx.task) ∈ t.scheduled.drop s.scheduled.length

/-- The pass returns, and has served whatever its entries owed. -/
def HandlesAll (s : IOManager) (ctl : Nat → Bool) (events : List EpollEvent) : Prop :=
  ∃ t, s.idlePass ctl events = .ok t ∧ ∀ e ∈ events, ∀ fd event, Due s ctl e fd event → Served s t fd event

/-- The entry gets as far as epoll_ctl. -/
def actsOn (s : IOManager) (e : EpollEvent) : Bool :=
  match e.data with
  | .tickle => false
  | .ptr fd => match s.fdContext fd with
    | .ok c => acts c e.events
    | .error _ => false

/-- The first entry that gets as far as epoll_ctl reports no unarmed event (unless that
    call fails), and owes all that the entries after it owe. -/
def Covers (s : IOManager) (ctl : Nat → Bool) : List EpollEvent → Prop
  | [] => True
  | e :: es =>
    if actsOn s e then
      ¬ Partial s (.idle e (ctlOf ctl e)) ∧ ∀ e' ∈ es, ∀ fd event, Due s ctl e' fd event → Due s ctl e fd event
    else Covers s ctl es

/-! ## The loop -/

theorem idleLoop_done (ctl : Nat → Bool) (es : List EpollEvent) {i ret : Int} (h : ret ≤ i) (s : IOManager) :
    idleLoop ctl es i ret s = .ok s := by
  cases es with
  | nil => rfl
  | cons e es => rw [idleLoop, if_neg (by omega)]

/-- An armed event that an entry reports: both bits are there. -/
theorem Due.bits {s : IOManager} {ctl : Nat → Bool} {e : EpollEvent} {fd : Nat} {event : Event}
    (h : Due s ctl e fd event) : ∃ c, s.fdContext fd = .ok c ∧ (c.m_events &&& event).any = true ∧
      (realEvents c e.events &&& event).any = true := by
  obtain ⟨c, hc, ha⟩ := h.armed
  rw [h.single.any_and, Bool.and_eq_true] at ha
  exact ⟨c, hc, ha⟩

theorem Due.acts {s : IOManager} {ctl : Nat → Bool} {e : EpollEvent} {fd : Nat} {event : Event}
    (h : Due s ctl e fd event) : actsOn s e = true := by
  obtain ⟨c, hc, ha⟩ := h.armed
  simp only [actsOn, h.data, hc, IOManager.acts]
  simp only [Event.any, Event.and_read, Event.and_write, Bool.or_eq_true, Bool.and_eq_true] at ha ⊢
  exact ha.imp And.left And.left

/-- An entry that makes no epoll_ctl call changes nothing. -/
theorem idleEntry_idle {s : IOManager} {e : EpollEvent} (hin : ∀ fd, e.data = .ptr fd → ∃ c, s.fdContext fd = .ok c)
    (ha : actsOn s e = false) (b : Bool) : s.idleEntry e b = .ok (s, none) := by
  rcases e with ⟨e, _ | fd⟩
  · exact idleEntry_tickle s e b
  · obtain ⟨c, hc⟩ := hin fd rfl
    simp only [actsOn, hc] at ha
    exact idleEntry_skipped hc ha b

/-- An event still armed has not been served. -/
theorem not_served_self {s : IOManager} {ctl : Nat → Bool} {e : EpollEvent} {fd : Nat} {event : Event}
    (hd : Due s ctl e fd event) {t : IOManager} (ht : t.fdContext fd = s.fdContext fd) : ¬ Served s t fd event := by
  intro hx
  obtain ⟨⟨c, hc, hun⟩, -⟩ := hx
  obtain ⟨x, hx, harm, -⟩ := hd.bits
  rw [ht, hx] at hc; cases hc
  rw [harm] at hun; cases hun

/-- An event the first acting entry does not owe is still armed when that entry is done. -/
theorem Due.not_served {s t : IOManager} {ctl : Nat → Bool} {e e' : EpollEvent} {fd fd' : Nat} {event : Event}
    (he : e.data = .ptr fd) {c c' : FdContext} (hc : s.fdContext fd = .ok c)
    (ht : t.m_fdContexts = s.m_fdContexts.set fd c') (hev : c'.m_events = c.m_events &&& ~~~(realEvents c e.events))
    (hctl : ctl fd = true) (hd : Due s ctl e' fd' event) (hn : ¬ Due s ctl e fd' event) : ¬ Served s t fd' event := by
  by_cases hfd : fd' = fd
  · subst hfd
    intro hx
    obtain ⟨⟨d, hd', hun⟩, -⟩ := hx
    obtain ⟨x, hx, harm, -⟩ := hd.bits
    rw [hc] at hx; cases hx
    rw [fdContext_of_set hc ht] at hd'; cases hd'
    rw [hev, hd.single.any_and_not, harm, Bool.true_and, Bool.not_eq_false'] at hun
    exact hn ⟨he, hctl, hd.single, c, hc, by rw [hd.single.any_and, harm, hun]; rfl⟩
  · apply not_served_self hd
    unfold fdContext; rw [ht, List.getElem?_set_ne (Ne.symm hfd)]

/-- What an entry owes, its own handling serves. -/
theorem Handled.served {s t : IOManager} {ctl : Nat → Bool} {e : EpollEvent} {fd fd' : Nat} {c : FdContext}
    {event : Event} (he : e.data = .ptr fd) (hc : s.fdContext fd = .ok c)
    (h : Handled s fd c (realEvents c e.events) t) (hd : Due s ctl e fd' event) : Served s t fd' event := by
  have hfd : fd = fd' := by have := hd.data; rw [he] at this; cases this; rfl
  subst hfd
  obtain ⟨x, hx, -, hrep⟩ := hd.bits
  rw [hc] at hx; cases hx
  obtain ⟨c', hset, hev⟩ := h.contexts
  obtain ⟨new, hnew, htask⟩ := h.scheduled
  obtain ⟨ctx, sch, hctx, hsch, hm⟩ := htask event hd.single hrep
  refine ⟨⟨c', fdContext_of_set hc hset, ?_⟩, c, ctx, sch, hc, hctx, hsch, ?_⟩
  · rw [hev, hd.single.any_and_not, hrep, Bool.not_true, Bool.and_false]
  · rw [hnew, List.drop_left]; exact hm

/-- The induction over the entries: before the first that acts, none changes the table. -/
theorem idleLoop_iff {s : IOManager} (hi : s.Inv) (ctl : Nat → Bool) :
    ∀ (es : List EpollEvent) (i ret : Int), 0 ≤ i → i + es.length ≤ ret →
      (∀ e ∈ es, ∀ fd, e.data = .ptr fd → ∃ c, s.fdContext fd = .ok c) →
      ((∃ t, idleLoop ctl es i ret s = .ok t ∧ ∀ e ∈ es, ∀ fd event, Due s ctl e fd event → Served s t fd event) ↔
        Covers s ctl es) := by
  intro es
  induction es with
  | nil => intro i ret _ _ _; exact ⟨fun _ => trivial, fun _ => ⟨s, rfl, fun e he => nomatch he⟩⟩
  | cons e es ih =>
    intro i ret h0 hle hin
    rw [List.length_cons] at hle
    have hlt : i < ret := by omega
    have hin' := fun e' he' => hin e' (List.mem_cons_of_mem _ he')
    rw [idleLoop, if_pos hlt, Covers]
    cases ha : actsOn s e with
    | false =>
      rw [idleEntry_idle (hin e List.mem_cons_self) ha]
      have hnone : ∀ fd event, ¬ Due s ctl e fd event := fun fd event hd => by rw [hd.acts] at ha; cases ha
      have := ih (i + 1) ret (by omega) (by omega) hin'
      simp only [Except.ok_bind_eq, Option.getD_none, Bool.false_eq_true, if_false, List.forall_mem_cons, ← this]
      constructor
      · intro hx
        obtain ⟨t, ht, -, h⟩ := hx
        exact ⟨t, ht, h⟩
      · intro ⟨t, ht, h⟩
        exact ⟨t, ht, fun fd event hd => absurd hd (hnone fd event), h⟩
    | true =>
      rcases e with ⟨bits, _ | fd⟩
      · simp [actsOn] at ha
      obtain ⟨c, hc⟩ := hin _ List.mem_cons_self fd rfl
      simp only [actsOn, hc] at ha
      have hctlOf : ctlOf ctl ⟨bits, .ptr fd⟩ = ctl fd := rfl
      rw [if_pos rfl, hctlOf]
      cases hctl : ctl fd with
      | false =>
        -- epoll_ctl fails: `ret` is -1 and the table stays as it was
        have hown : ∀ fd' event, ¬ Due s ctl ⟨bits, .ptr fd⟩ fd' event := fun fd' event hd => by
          have := hd.data; cases this; rw [hd.ctl] at hctl; cases hctl
        rw [idleEntry_refused hc ha, Except.ok_bind_eq]
        simp only [Option.getD_some]
        rw [idleLoop_done ctl es (by omega)]
        constructor
        · intro ⟨t, ht, hserved⟩
          cases ht
          refine ⟨fun hp => (nomatch hp.1), ?_⟩
          intro e' he' fd' event hd
          exact absurd (hserved e' (List.mem_cons_of_mem _ he') fd' event hd) (not_served_self hd rfl)
        · intro hx
          obtain ⟨-, hcov⟩ := hx
          refine ⟨s, rfl, ?_⟩
          intro e' he' fd' event hd
          rcases List.mem_cons.mp he' with rfl | he'
          · exact absurd hd (hown fd' event)
          · exact absurd (hcov e' he' fd' event hd) (hown fd' event)
      | true =>
        cases hp : overlapsPartly c bits with
        | true =>
          rw [idleEntry_partly hi hc hp]
          refine ⟨fun ⟨t, ht, _⟩ => (nomatch ht), ?_⟩
          intro h
          exact absurd ⟨rfl, fd, c, rfl, hc, hp⟩ h.1
        | false =>
          obtain ⟨t, ht, hh⟩ := idleEntry_whole hi hc ha hp
          obtain ⟨c', hset, hev⟩ := hh.contexts
          rw [ht, Except.ok_bind_eq]
          simp only [Option.getD_some]
          rw [idleLoop_done ctl es (by omega)]
          constructor
          · intro ⟨u, hu, hserved⟩
            cases hu
            constructor
            · intro hx
              obtain ⟨-, fd', c'', hd, hc'', hp'⟩ := hx
              cases hd; rw [hc] at hc''; cases hc''
              rw [hp] at hp'; cases hp'
            · intro e' he' fd' event hd
              by_contra hn
              exact hd.not_served (e := ⟨bits, .ptr fd⟩) rfl hc hset hev hctl hn
                (hserved e' (List.mem_cons_of_mem _ he') fd' event hd)
          · intro hx
            obtain ⟨-, hcov⟩ := hx
            refine ⟨t, rfl, ?_⟩
            intro e' he' fd' event hd
            have hown : Due s ctl ⟨bits, .ptr fd⟩ fd' event := by
              rcases List.mem_cons.mp he' with rfl | he'
              · exact hd
              · exact hcov e' he' fd' event hd
            exact hh.served rfl hc hown

/-- A pass serves all that its entries owe exactly when its first acting entry does. -/
theorem pass_handlesAll {s : IOManager} (h : Reach s) (ctl : Nat → Bool) (events : List EpollEvent)
    (hin : ∀ e ∈ events, ∀ fd, e.data = .ptr fd → fd < s.m_fdContexts.length) :
    HandlesAll s ctl events ↔ Covers s ctl events :=
  idleLoop_iff (inv h) ctl events 0 events.length (Int.le_refl 0) (by omega) fun e he fd hd =>
    ⟨s.m_fdContexts.get ⟨fd, hin e he fd hd⟩, fdContext_ok.mpr (List.getElem?_eq_getElem _)⟩

/-- Fibers 7 and 8 wait for READ of descriptors 5 and 6. -/
theorem twoReaders_reach : ∃ s, Reach s ∧ s.m_fdContexts.length = 32 ∧
    s.fdContext 5 = .ok ⟨⟨some 0, some 7, none⟩, .reset, 5, .READ⟩ ∧
    s.fdContext 6 = .ok ⟨⟨some 0, some 8, none⟩, .reset, 6, .READ⟩ := by
  have h1 : Reach _ := .step (.addEvent fiberSeven 5 .READ none true) (.init rfl) ⟨rfl, rfl⟩
  have h2 : Reach _ := .step (.addEvent fiberEight 6 .READ none true) h1 ⟨rfl, rfl⟩
  exact ⟨_, h2, rfl, rfl, rfl⟩

/-- `EPOLLIN` on a descriptor. -/
def readable (fd : Nat) : EpollEvent := ⟨⟨true, false, false, false, false⟩, .ptr fd⟩

/-- A tickle and one ready descriptor: the pass serves it. -/
theorem pass_handlesAll_tickled :
    ∃ s, Reach s ∧ HandlesAll s (fun _ => true) [⟨.NONE, .tickle⟩, readable 5] := by
  obtain ⟨s, hr, hlen, h5, -⟩ := twoReaders_reach
  have hin : ∀ e ∈ [⟨.NONE, .tickle⟩, readable 5], ∀ fd, e.data = .ptr fd → fd < s.m_fdContexts.length := by
    simp only [List.mem_cons, List.not_mem_nil, or_false]
    intro e hx fd hd
    rcases hx with rfl | rfl
    · cases hd
    · cases hd; omega
  refine ⟨s, hr, (pass_handlesAll hr _ _ hin).mpr ?_⟩
  have hacts : actsOn s (readable 5) = true := by simp only [actsOn, readable, h5]; rfl
  rw [Covers, if_neg (by simp [actsOn]), Covers, if_pos hacts]
  refine ⟨?_, fun e he => nomatch he⟩
  intro hx
  obtain ⟨-, fd, c, hd, hc, hp⟩ := hx
  cases hd; rw [h5] at hc; cases hc
  revert hp; decide

/-- Two ready descriptors: the second is dropped. -/
theorem second_ready_dropped : ∃ s, Reach s ∧ ¬ HandlesAll s (fun _ => true) [readable 5, readable 6] := by
  obtain ⟨s, hr, -, h5, h6⟩ := twoReaders_reach
  refine ⟨s, hr, ?_⟩
  intro h
  have hin : ∀ e ∈ [readable 5, readable 6], ∀ fd, e.data = .ptr fd → ∃ c, s.fdContext fd = .ok c := by
    simp only [List.mem_cons, List.not_mem_nil, or_false]
    intro e hx fd hd
    rcases hx with rfl | rfl
    · cases hd; exact ⟨_, h5⟩
    · cases hd; exact ⟨_, h6⟩
  have hcov := (idleLoop_iff (inv hr) _ _ 0 2 (Int.le_refl 0) (by simp) hin).mp h
  have hacts : actsOn s (readable 5) = true := by simp only [actsOn, readable, h5]; rfl
  rw [Covers, if_pos hacts] at hcov
  have hdue : Due s (fun _ => true) (readable 6) 6 .READ := ⟨rfl, rfl, Event.single_READ, _, h6, by decide⟩
  cases (hcov.2 (readable 6) (by simp) 6 .READ hdue).data

end IOManager
end Sylar
