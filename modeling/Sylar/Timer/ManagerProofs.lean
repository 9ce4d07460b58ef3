/-
  Sylar.Timer.ManagerProofs — the set of timers stays in order.

  `Ok out m`: `m_timers` strictly increases in (m_next, address), live timers have
  different addresses, and a timer with a callback is in the set or in `out`, the timers
  an operation has taken out and not yet put back. Between operations `out` is empty.
  - `erase_find`, `insert_ok`, `of_modify`: what taking out, putting back and changing a
    timer out of the set do to it.
  - `cancel_spec`, `refresh_spec`, `reset_spec`, `listExpiredCb_spec`: each operation
    succeeds, and what it leaves.
-/

import Sylar.Timer.Manager

namespace Sylar

theorem Timer.comparator_iff {a b : Timer} :
    Timer.Comparator (some a) (some b) = true ↔ a.m_next < b.m_next ∨ (a.m_next = b.m_next ∧ a.addr < b.addr) := by
  simp only [Timer.Comparator, UInt64.lt_iff_toNat_lt, ← UInt64.toNat_inj]
  split
  · simp only [true_iff]
    omega
  · split
    · simp only [Bool.false_eq_true, false_iff]
      omega
    · rw [decide_eq_true_iff]
      omega

namespace TimerManager

open OrderedSet

variable {m m' : TimerManager} {out : List TimerId} {i : TimerId}

theorem lt_iff {i j : TimerId} : m.lt i j = true ↔
    (m.timer i).m_next < (m.timer j).m_next ∨
      ((m.timer i).m_next = (m.timer j).m_next ∧ (m.timer i).addr < (m.timer j).addr) :=
  Timer.comparator_iff

theorem lt_strictWeak (m : TimerManager) : StrictWeak m.lt where
  irrefl i := by
    rw [← Bool.not_eq_true, lt_iff, UInt64.lt_iff_toNat_lt]
    omega
  trans {i j k} h1 h2 := by
    rw [lt_iff, UInt64.lt_iff_toNat_lt, ← UInt64.toNat_inj] at h1 h2 ⊢
    omega

/-- A smaller key has no later deadline. -/
theorem next_le_of_lt {i j : TimerId} (h : m.lt i j = true) :
    (m.timer i).m_next.toNat ≤ (m.timer j).m_next.toNat := by
  rw [lt_iff, UInt64.lt_iff_toNat_lt, ← UInt64.toNat_inj] at h
  omega

/-- Two timers at different addresses can be told apart. -/
theorem lt_total {i j : TimerId} (h : (m.timer i).addr ≠ (m.timer j).addr) : m.lt i j = true ∨ m.lt j i = true := by
  simp only [lt_iff, UInt64.lt_iff_toNat_lt, ← UInt64.toNat_inj]
  omega

/-! ## The invariant -/

structure Ok (out : List TimerId) (m : TimerManager) : Prop where
  sorted : Sorted m.lt m.m_timers
  outNodup : out.Nodup
  outIn : ∀ i ∈ out, i ∉ m.m_timers
  created : ∀ i, m.live i ∨ i ∈ out → i < m.created
  addr : ∀ i j, m.live i ∨ i ∈ out → m.live j ∨ j ∈ out → (m.timer i).addr = (m.timer j).addr → i = j
  armed : ∀ i, i < m.created → (m.timer i).m_cb.isSome = true → i ∈ m.m_timers ∨ i ∈ out

theorem Ok.nodup (h : Ok out m) : m.m_timers.Nodup := nodup_of_sorted m.lt_strictWeak h.sorted

theorem new_ok (nowMs : UInt64) : Ok [] (new nowMs) where
  sorted := List.Pairwise.nil
  outNodup := List.nodup_nil
  outIn := by simp
  created := by simp [live, new]
  addr := by simp [live, new]
  armed := by simp [new, Timer.at]

/-- A change of timers that leaves addresses, and the deadlines in the set, and arms none. -/
theorem Ok.of_timer (h : Ok out m) (f : TimerId → Timer) (hnext : ∀ i ∈ m.m_timers, (f i).m_next = (m.timer i).m_next)
    (haddr : ∀ i, (f i).addr = (m.timer i).addr)
    (hcb : ∀ i, (f i).m_cb.isSome = true → (m.timer i).m_cb.isSome = true) :
    Ok out { m with timer := f } where
  sorted := by
    apply h.sorted.congr
    intro i hi j hj
    simp only [lt, Timer.Comparator, hnext i hi, hnext j hj, haddr]
  outNodup := h.outNodup
  outIn := h.outIn
  created := h.created
  addr i j hi hj he := h.addr i j hi hj (by rwa [haddr, haddr] at he)
  armed i hi hc := h.armed i hi (hcb i hc)

theorem Ok.of_modify (h : Ok out m) (i : TimerId) (f : Timer → Timer)
    (hnext : i ∈ m.m_timers → (f (m.timer i)).m_next = (m.timer i).m_next)
    (haddr : (f (m.timer i)).addr = (m.timer i).addr)
    (hcb : (f (m.timer i)).m_cb.isSome = true → (m.timer i).m_cb.isSome = true) : Ok out (m.modify i f) := by
  apply h.of_timer
  · exact (Function.forall_update_iff m.timer fun j t => j ∈ m.m_timers → t.m_next = (m.timer j).m_next).mpr
      ⟨hnext, fun _ _ _ => rfl⟩
  · exact (Function.forall_update_iff m.timer fun j t => t.addr = (m.timer j).addr).mpr ⟨haddr, fun _ _ => rfl⟩
  · exact (Function.forall_update_iff m.timer fun j t => t.m_cb.isSome = true → (m.timer j).m_cb.isSome = true).mpr
      ⟨hcb, fun _ _ => id⟩

theorem Ok.clearCb (h : Ok out m) (i : TimerId) : Ok out (m.clearCb i) :=
  h.of_modify i _ (fun _ => rfl) rfl (nofun)

theorem Ok.setInterval (h : Ok out m) (i : TimerId) (interval : UInt64) : Ok out (m.setInterval i interval) :=
  h.of_modify i _ (fun _ => rfl) rfl id

/-! ## Taking out, putting back -/

theorem Ok.setNext (h : Ok out m) (hi : i ∈ out) (next : UInt64) :
    m.setNext i next = .ok (m.modify i ({ · with m_next := next })) ∧
      Ok out (m.modify i ({ · with m_next := next })) := by
  have hn := h.outIn i hi
  constructor
  · exact if_neg hn
  · exact h.of_modify i _ (fun hm => absurd hm hn) rfl id

/-- `m_timers.erase(m_timers.find(val))` of a timer in the set takes it out. -/
theorem Ok.erase_find (h : Ok out m) (hi : i ∈ m.m_timers) :
    m.find i < m.m_timers.length ∧ m.erase (m.find i) = .ok { m with m_timers := m.m_timers.erase i } ∧
      Ok (i :: out) { m with m_timers := m.m_timers.erase i } := by
  have hlt := find_lt_of_mem m.lt_strictWeak h.sorted hi
  refine ⟨hlt, ?_, ?_⟩
  · unfold erase find
    rw [if_pos hlt, eraseIdx_find m.lt_strictWeak h.sorted hi]
  · have hlive : ∀ j, live { m with m_timers := m.m_timers.erase i } j ∨ j ∈ i :: out → m.live j ∨ j ∈ out := by
      intro j hj
      rcases hj with (hj | hj) | hj
      · exact .inl (.inl hj)
      · exact .inl (.inr (List.mem_of_mem_erase hj))
      · rcases List.mem_cons.mp hj with rfl | hj
        · exact .inl (.inr hi)
        · exact .inr hj
    constructor
    · exact h.sorted.erase i
    · exact List.nodup_cons.mpr ⟨fun ho => h.outIn i ho hi, h.outNodup⟩
    · intro j hj hm
      rcases List.mem_cons.mp hj with rfl | hj
      · exact h.nodup.not_mem_erase hm
      · exact h.outIn j hj (List.mem_of_mem_erase hm)
    · exact fun j hj => h.created j (hlive j hj)
    · exact fun j k hj hk => h.addr j k (hlive j hj) (hlive k hk)
    · intro j hj hc
      by_cases e : j = i
      · exact .inr (e ▸ .head _)
      · exact (h.armed j hj hc).imp (List.mem_erase_of_ne e).mpr (.tail _)

/-- Without its callback a timer may stay out. -/
theorem Ok.discard (h : Ok (i :: out) m) (hc : (m.timer i).m_cb = none) : Ok out m where
  sorted := h.sorted
  outNodup := (List.nodup_cons.mp h.outNodup).2
  outIn j hj := h.outIn j (.tail _ hj)
  created j hj := h.created j (hj.imp id (.tail _))
  addr j k hj hk := h.addr j k (hj.imp id (.tail _)) (hk.imp id (.tail _))
  armed j hj hs := by
    rcases h.armed j hj hs with hm | hm
    · exact .inl hm
    · rcases List.mem_cons.mp hm with rfl | hm
      · rw [hc] at hs
        cases hs
      · exact .inr hm

theorem Ok.apart (h : Ok (i :: out) m) : Apart m.lt i m.m_timers := by
  intro j hj
  apply lt_total
  intro he
  have := h.addr i j (.inr (.head _)) (.inl (.inr hj)) he
  exact h.outIn i (.head _) (this ▸ hj)

/-- `m_timers.insert(val)` of a timer that is out of the set puts it back. -/
theorem Ok.insert_ok (h : Ok (i :: out) m) :
    Ok out (m.insert i).1 ∧ (∀ j, j ∈ (m.insert i).1.m_timers ↔ j = i ∨ j ∈ m.m_timers) ∧
      ((m.insert i).2 = 0 ↔ ∀ j ∈ m.m_timers, m.lt i j = true) := by
  have hmem : ∀ j, j ∈ (m.insert i).1.m_timers ↔ j = i ∨ j ∈ m.m_timers := mem_insert h.apart
  have hlive : ∀ j, (m.insert i).1.live j ∨ j ∈ out → m.live j ∨ j ∈ i :: out := by
    intro j hj
    rcases hj with (hj | hj) | hj
    · exact .inl (.inl hj)
    · rcases (hmem j).mp hj with rfl | hj
      · exact .inr (.head _)
      · exact .inl (.inr hj)
    · exact .inr (.tail _ hj)
  refine ⟨?_, hmem, insert_front m.lt_strictWeak h.sorted h.apart⟩
  obtain ⟨hni, hnd⟩ := List.nodup_cons.mp h.outNodup
  constructor
  · exact insert_sorted m.lt_strictWeak h.sorted
  · exact hnd
  · intro j hj hm
    rcases (hmem j).mp hm with rfl | hm
    · exact hni hj
    · exact h.outIn j (.tail _ hj) hm
  · exact fun j hj => h.created j (hlive j hj)
  · exact fun j k hj hk => h.addr j k (hlive j hj) (hlive k hk)
  · intro j hj hc
    rw [hmem]
    rcases h.armed j hj hc with hm | hm
    · exact .inl (.inr hm)
    · exact (List.mem_cons.mp hm).imp .inl id

/-! ## Adding -/

theorem addTimerLocked_fst (m : TimerManager) (i : TimerId) :
    (m.addTimerLocked i).1 = { (m.insert i).1 with m_tickled := m.m_tickled || (m.addTimerLocked i).2 } := by
  simp only [addTimerLocked]
  split
  · rename_i h
    rw [h, Bool.or_true]
  · rename_i h
    rw [Bool.eq_false_iff.mpr h, Bool.or_false]
    rfl

/-- The timer is in the set; onTimerInsertedAtFront is called when it is below all others
    and no call is outstanding. -/
theorem Ok.addTimerLocked_ok (h : Ok (i :: out) m) :
    Ok out (m.addTimerLocked i).1 ∧ (∀ j, j ∈ (m.addTimerLocked i).1.m_timers ↔ j = i ∨ j ∈ m.m_timers) ∧
      ((m.addTimerLocked i).2 = true ↔ m.m_tickled = false ∧ ∀ j ∈ m.m_timers, m.lt i j = true) := by
  obtain ⟨hok, hmem, hfront⟩ := h.insert_ok
  rw [addTimerLocked_fst]
  refine ⟨⟨hok.sorted, hok.outNodup, hok.outIn, hok.created, hok.addr, hok.armed⟩, hmem, ?_⟩
  rw [← hfront]
  simp [addTimerLocked, and_comm]

theorem create_ok (h : Ok [] m) {t : Timer} (hf : m.Fresh t.addr) : Ok [m.created] (m.create t) := by
  have hne : ∀ i, m.live i → i ≠ m.created := fun i hi => Nat.ne_of_lt (h.created i (.inl hi))
  have hlive : ∀ i, (m.create t).live i ∨ i ∈ [m.created] → m.live i ∨ i = m.created := by
    intro i hi
    rcases hi with (hi | hi) | hi
    · by_cases e : i = m.created
      · exact .inr e
      · have hh : Function.update m.held m.created true i = true := hi
        rw [Function.update_of_ne e] at hh
        exact .inl (.inl hh)
    · exact .inl (.inr hi)
    · exact .inr (List.mem_singleton.mp hi)
  have hself : (m.create t).timer m.created = t := Function.update_self ..
  have hother : ∀ i, i ≠ m.created → (m.create t).timer i = m.timer i := fun i e => Function.update_of_ne e ..
  constructor
  · apply h.sorted.congr
    intro i hi j hj
    simp only [lt, hother i (hne i (.inr hi)), hother j (hne j (.inr hj))]
  · exact List.nodup_singleton _
  · intro i hi hm
    exact hne i (.inr hm) (List.mem_singleton.mp hi)
  · intro i hi
    show i < m.created + 1
    rcases hlive i hi with hi | rfl
    · exact Nat.lt_succ_of_lt (h.created i (.inl hi))
    · exact Nat.lt_succ_self _
  · intro i j hi hj he
    rcases hlive i hi with hi | rfl
    · rcases hlive j hj with hj | rfl
      · rw [hother i (hne i hi), hother j (hne j hj)] at he
        exact h.addr i j (.inl hi) (.inl hj) he
      · rw [hother i (hne i hi), hself] at he
        exact absurd he (hf i hi)
    · rcases hlive j hj with hj | rfl
      · rw [hself, hother j (hne j hj)] at he
        exact absurd he.symm (hf j hj)
      · rfl
  · intro i hi hc
    by_cases e : i = m.created
    · exact .inr (List.mem_singleton.mpr e)
    · rw [hother i e] at hc
      have hi' : i < m.created := by
        have : i < m.created + 1 := hi
        omega
      rcases h.armed i hi' hc with hm | hm
      · exact .inl hm
      · cases hm

/-! ## The operations of a timer -/

theorem cancel_spec (h : Ok [] m) (hi : i < m.created) :
    ((m.timer i).m_cb = none ∧ m.cancel i = .ok (m, false)) ∨
      (i ∈ m.m_timers ∧ (m.timer i).m_cb.isSome = true ∧
        m.cancel i = .ok ({ m.clearCb i with m_timers := m.m_timers.erase i }, true) ∧
        Ok [] { m.clearCb i with m_timers := m.m_timers.erase i }) := by
  by_cases hc : (m.timer i).m_cb.isSome = true
  · right
    have hin : i ∈ m.m_timers := (h.armed i hi hc).resolve_right (List.not_mem_nil)
    obtain ⟨-, herase, hok⟩ := (h.clearCb i).erase_find hin
    refine ⟨hin, hc, ?_, hok.discard ?_⟩
    · unfold cancel
      rw [if_pos hc]
      show (m.clearCb i).erase ((m.clearCb i).find i) >>= _ = _
      rw [herase]
      rfl
    · show (Function.update m.timer i _ i).m_cb = none
      rw [Function.update_self]
  · left
    exact ⟨by simpa using hc, if_neg hc⟩

/-- Timer `i` has become `t`, out of the set; nothing else has changed. -/
structure Detached (m : TimerManager) (i : TimerId) (t : Timer) (p : TimerManager) : Prop where
  ok : Ok [i] p
  timers : p.m_timers = m.m_timers.erase i
  timer : p.timer = Function.update m.timer i t
  created : p.created = m.created
  held : p.held = m.held
  previous : p.m_previousTime = m.m_previousTime
  tickled : p.m_tickled = m.m_tickled

/-- Timer `i` has become `t`, in its new place in the set; nothing else has changed but
    perhaps m_tickled. -/
structure Rearmed (m : TimerManager) (i : TimerId) (t : Timer) (m' : TimerManager) : Prop where
  ok : Ok [] m'
  mem : ∀ j, j ∈ m'.m_timers ↔ j ∈ m.m_timers
  timer : m'.timer = Function.update m.timer i t
  created : m'.created = m.created
  held : m'.held = m.held
  previous : m'.m_previousTime = m.m_previousTime

variable {p : TimerManager} {t : Timer}

theorem erase_detached (h : Ok [] m) (hi : i ∈ m.m_timers) :
    m.find i < m.m_timers.length ∧ ∃ p, m.erase (m.find i) = .ok p ∧ Detached m i (m.timer i) p := by
  obtain ⟨hlt, herase, hout⟩ := h.erase_find hi
  exact ⟨hlt, _, herase, hout, rfl, (Function.update_eq_self i m.timer).symm, rfl, rfl, rfl, rfl⟩

theorem Detached.self (h : Detached m i t p) : p.timer i = t := by
  rw [h.timer, Function.update_self]

theorem Detached.modify_timer (h : Detached m i t p) (f : Timer → Timer) :
    (p.modify i f).timer = Function.update m.timer i (f t) := by
  show Function.update p.timer i (f (p.timer i)) = _
  rw [h.self, h.timer, Function.update_idem]

theorem Detached.setInterval (h : Detached m i t p) (interval : UInt64) :
    Detached m i { t with m_interval := interval } (p.setInterval i interval) :=
  ⟨h.ok.setInterval i interval, h.timers, h.modify_timer _, h.created, h.held, h.previous, h.tickled⟩

theorem Detached.setNext (h : Detached m i t p) (next : UInt64) :
    ∃ q, p.setNext i next = .ok q ∧ Detached m i { t with m_next := next } q := by
  obtain ⟨hset, hok⟩ := h.ok.setNext (.head _) next
  exact ⟨_, hset, hok, h.timers, h.modify_timer _, h.created, h.held, h.previous, h.tickled⟩

theorem mem_erase_or {l : List TimerId} (hd : l.Nodup) (hi : i ∈ l) (j : TimerId) : j = i ∨ j ∈ l.erase i ↔ j ∈ l := by
  rw [hd.mem_erase_iff]
  constructor
  · intro hj
    rcases hj with rfl | hj
    · exact hi
    · exact hj.2
  · intro hj
    by_cases e : j = i
    · exact .inl e
    · exact .inr ⟨e, hj⟩

theorem Detached.insert (h : Detached m i t p) (hm : Ok [] m) (hi : i ∈ m.m_timers) :
    Rearmed m i t (p.insert i).1 := by
  obtain ⟨hok, hmem, -⟩ := h.ok.insert_ok
  refine ⟨hok, ?_, h.timer, h.created, h.held, h.previous⟩
  intro j
  rw [hmem, h.timers]
  exact mem_erase_or hm.nodup hi j

theorem Detached.addTimerLocked (h : Detached m i t p) (hm : Ok [] m) (hi : i ∈ m.m_timers) :
    Rearmed m i t (p.addTimerLocked i).1 ∧
      (p.addTimerLocked i).1.m_tickled = (m.m_tickled || (p.addTimerLocked i).2) ∧
      ((p.addTimerLocked i).2 = true ↔
        m.m_tickled = false ∧ ∀ j ∈ m.m_timers, j ≠ i → (p.addTimerLocked i).1.lt i j = true) := by
  obtain ⟨hok, hmem, hfront⟩ := h.ok.addTimerLocked_ok
  have hlt : (p.addTimerLocked i).1.lt = p.lt := by
    rw [addTimerLocked_fst]
    rfl
  refine ⟨⟨hok, ?_, ?_, ?_, ?_, ?_⟩, ?_, ?_⟩
  · intro j
    rw [hmem, h.timers]
    exact mem_erase_or hm.nodup hi j
  · rw [addTimerLocked_fst]
    exact h.timer
  · rw [addTimerLocked_fst]
    exact h.created
  · rw [addTimerLocked_fst]
    exact h.held
  · rw [addTimerLocked_fst]
    exact h.previous
  · rw [addTimerLocked_fst, h.tickled]
  · rw [hfront, h.tickled, h.timers, hlt]
    simp only [hm.nodup.mem_erase_iff]
    exact and_congr Iff.rfl ⟨fun ha j hj hne => ha j ⟨hne, hj⟩, fun ha j hj => ha j hj.2 hj.1⟩

theorem refresh_spec (h : Ok [] m) (hi : i < m.created) (nowMs : UInt64) :
    ((m.timer i).m_cb = none ∧ m.refresh i nowMs = .ok (m, false)) ∨
      (i ∈ m.m_timers ∧ (m.timer i).m_cb.isSome = true ∧ ∃ m', m.refresh i nowMs = .ok (m', true) ∧
        Rearmed m i { m.timer i with m_next := nowMs + (m.timer i).m_interval } m' ∧
        m'.m_tickled = m.m_tickled) := by
  by_cases hc : (m.timer i).m_cb = none
  · left
    exact ⟨hc, if_pos (by rw [hc]; rfl)⟩
  · right
    have hs := Option.isSome_iff_ne_none.mpr hc
    have hin : i ∈ m.m_timers := (h.armed i hi hs).resolve_right (List.not_mem_nil)
    obtain ⟨hlt, p, herase, hp⟩ := erase_detached h hin
    obtain ⟨q, hset, hq⟩ := hp.setNext (nowMs + (m.timer i).m_interval)
    refine ⟨hin, hs, _, ?_, hq.insert h hin, hq.tickled⟩
    unfold refresh
    rw [if_neg (by simpa using hc), if_neg (Nat.ne_of_lt hlt), herase, Except.ok_bind_eq, hp.self, hset]
    rfl

/-- The start of the interval `reset` counts from. -/
def resetStart (m : TimerManager) (i : TimerId) (fromNow : Bool) (nowMs : UInt64) : UInt64 :=
  if fromNow then nowMs else (m.timer i).m_next - (m.timer i).m_interval

theorem reset_spec (h : Ok [] m) (hi : i < m.created) (interval : UInt64) (fromNow : Bool) (nowMs : UInt64) :
    ((m.timer i).m_interval = interval ∧ fromNow = false ∧ m.reset i interval fromNow nowMs = .ok (m, true, false)) ∨
      ((m.timer i).m_cb = none ∧ m.reset i interval fromNow nowMs = .ok (m, false, false)) ∨
      (¬((m.timer i).m_interval = interval ∧ fromNow = false) ∧ i ∈ m.m_timers ∧ (m.timer i).m_cb.isSome = true ∧
        ∃ m' b, m.reset i interval fromNow nowMs = .ok (m', true, b) ∧
        Rearmed m i { m.timer i with
          m_interval := interval, m_next := m.resetStart i fromNow nowMs + interval } m' ∧
        m'.m_tickled = (m.m_tickled || b) ∧
        (b = true ↔ m.m_tickled = false ∧ ∀ j ∈ m.m_timers, j ≠ i → m'.lt i j = true)) := by
  by_cases he : (m.timer i).m_interval = interval ∧ fromNow = false
  · left
    exact ⟨he.1, he.2, if_pos he⟩
  · right
    by_cases hc : (m.timer i).m_cb = none
    · left
      refine ⟨hc, ?_⟩
      unfold reset
      rw [if_neg he, if_pos (by rw [hc]; rfl)]
    · right
      have hs := Option.isSome_iff_ne_none.mpr hc
      have hin : i ∈ m.m_timers := (h.armed i hi hs).resolve_right (List.not_mem_nil)
      obtain ⟨hlt, p, herase, hp⟩ := erase_detached h hin
      obtain ⟨q, hset, hq⟩ := (hp.setInterval interval).setNext (m.resetStart i fromNow nowMs + interval)
      obtain ⟨hre, htick, hfront⟩ := hq.addTimerLocked h hin
      refine ⟨he, hin, hs, _, _, ?_, hre, htick, hfront⟩
      unfold reset
      rw [if_neg he, if_neg (by simpa using hc), if_neg (Nat.ne_of_lt hlt), herase, Except.ok_bind_eq]
      simp only [hp.self, (hp.setInterval interval).self]
      show (TimerManager.setNext _ i (m.resetStart i fromNow nowMs + interval) >>= _) = _
      rw [hset]
      rfl

/-! ## Expiry -/

/-- What a timer becomes when listExpiredCb emits it. -/
def fired (nowMs : UInt64) (t : Timer) : Timer :=
  if t.m_recurring then { t with m_next := nowMs + t.m_interval } else { t with m_cb := none }

@[simp] theorem fired_recurring (nowMs : UInt64) (t : Timer) : (fired nowMs t).m_recurring = t.m_recurring := by
  unfold fired
  split <;> rfl

theorem expireOne_spec (h : Ok (i :: out) m) (nowMs : UInt64) :
    ∃ m', m.expireOne nowMs i = .ok (m', (m.timer i).m_cb) ∧ Ok out m' ∧
      (∀ j, j ∈ m'.m_timers ↔ j ∈ m.m_timers ∨ (j = i ∧ (m.timer i).m_recurring = true)) ∧
      m'.timer = Function.update m.timer i (fired nowMs (m.timer i)) ∧
      m'.created = m.created ∧ m'.held = m.held ∧ m'.m_previousTime = m.m_previousTime ∧
      m'.m_tickled = m.m_tickled := by
  by_cases hr : (m.timer i).m_recurring = true
  · obtain ⟨hset, hok⟩ := h.setNext (.head _) (nowMs + (m.timer i).m_interval)
    obtain ⟨hok', hmem, -⟩ := hok.insert_ok
    refine ⟨_, ?_, hok', ?_, ?_, rfl, rfl, rfl, rfl⟩
    · unfold expireOne
      rw [if_pos hr, hset]
      rfl
    · intro j
      rw [hmem]
      show j = i ∨ j ∈ m.m_timers ↔ _
      rw [or_comm]
      simp [hr]
    · unfold fired
      rw [if_pos hr]
      rfl
  · refine ⟨_, if_neg hr, (h.clearCb i).discard ?_, ?_, ?_, rfl, rfl, rfl, rfl⟩
    · show (Function.update m.timer i _ i).m_cb = none
      rw [Function.update_self]
    · intro j
      show j ∈ m.m_timers ↔ _
      simp [hr]
    · unfold fired
      rw [if_neg hr]
      rfl

/-- The loop, over what is left of `expired`. -/
theorem expireAll_spec (nowMs : UInt64) : ∀ {l : List TimerId} {m : TimerManager}, Ok l m →
    ∃ m', expireAll nowMs l m = .ok (m', l.map fun i => (m.timer i).m_cb) ∧ Ok [] m' ∧
      (∀ j, j ∈ m'.m_timers ↔ j ∈ m.m_timers ∨ (j ∈ l ∧ (m.timer j).m_recurring = true)) ∧
      (∀ j, m'.timer j = if j ∈ l then fired nowMs (m.timer j) else m.timer j) ∧
      m'.created = m.created ∧ m'.held = m.held ∧ m'.m_previousTime = m.m_previousTime ∧
      m'.m_tickled = m.m_tickled := by
  intro l
  induction l with
  | nil =>
    intro m h
    exact ⟨m, rfl, h, by simp, by simp, rfl, rfl, rfl, rfl⟩
  | cons i l ih =>
    intro m h
    have hil : i ∉ l := (List.nodup_cons.mp h.outNodup).1
    obtain ⟨p, hone, hp, hpmem, hptimer, hpc, hph, hpp, hpt⟩ := expireOne_spec h nowMs
    obtain ⟨q, hall, hq, hqmem, hqtimer, hqc, hqh, hqp, hqt⟩ := ih hp
    have hother : ∀ j, j ≠ i → p.timer j = m.timer j := by
      intro j hj
      rw [hptimer, Function.update_of_ne hj]
    have hcbs : (l.map fun j => (p.timer j).m_cb) = l.map fun j => (m.timer j).m_cb := by
      apply List.map_congr_left
      intro j hj
      rw [hother j fun e => hil (e ▸ hj)]
    refine ⟨q, ?_, hq, ?_, ?_, hqc.trans hpc, hqh.trans hph, hqp.trans hpp, hqt.trans hpt⟩
    · rw [expireAll, hone, Except.ok_bind_eq, hall, Except.ok_bind_eq, hcbs]
      rfl
    · intro j
      rw [hqmem, hpmem, List.mem_cons]
      by_cases e : j = i
      · subst e
        simp [hil]
      · rw [hother j e]
        simp [e]
    · intro j
      rw [hqtimer]
      by_cases e : j = i
      · subst e
        rw [if_neg hil, if_pos (.head _), hptimer, Function.update_self]
      · rw [hother j e]
        simp [e]

/-- The timers before the position have expired, the others have not. -/
theorem expiredEnd_spec (h : Ok [] m) (rollover : Bool) (nowMs : UInt64) (addr : Nat) :
    (∀ j ∈ m.m_timers.take (m.expiredEnd rollover nowMs (.at nowMs addr)),
      rollover = true ∨ (m.timer j).m_next ≤ nowMs) ∧
    (∀ j ∈ m.m_timers.drop (m.expiredEnd rollover nowMs (.at nowMs addr)),
      rollover = false ∧ nowMs < (m.timer j).m_next) := by
  cases rollover with
  | true =>
    have hend : m.expiredEnd true nowMs (.at nowMs addr) = m.m_timers.length := by simp [expiredEnd]
    rw [hend]
    simp
  | false =>
    -- below: an earlier deadline, or this one at a lower address
    have hbelow : ∀ j, Timer.Comparator (some (m.timer j)) (some (.at nowMs addr)) = true ↔
        (m.timer j).m_next < nowMs ∨ ((m.timer j).m_next = nowMs ∧ (m.timer j).addr < addr) :=
      fun j => Timer.comparator_iff
    obtain ⟨it, hit⟩ : ∃ it, it =
      lowerBound (fun j => Timer.Comparator (some (m.timer j)) (some (.at nowMs addr))) m.m_timers := ⟨_, rfl⟩
    have hend : m.expiredEnd false nowMs (.at nowMs addr) =
        it + lowerBound (fun j => (m.timer j).m_next == nowMs) (m.m_timers.drop it) := by
      rw [hit]
      rfl
    have htake : ∀ j ∈ m.m_timers.take it, (m.timer j).m_next ≤ nowMs := by
      intro j hj
      have hb := (hbelow j).mp (take_lowerBound j (hit ▸ hj))
      rw [UInt64.lt_iff_toNat_lt, ← UInt64.toNat_inj] at hb
      rw [UInt64.le_iff_toNat_le]
      omega
    have hdrop : ∀ j ∈ m.m_timers.drop it, nowMs ≤ (m.timer j).m_next := by
      intro j hj
      have hb := drop_lowerBound h.sorted (fun a _ b _ hab hbb => by
        rw [hbelow, UInt64.lt_iff_toNat_lt, ← UInt64.toNat_inj] at hbb ⊢
        rw [lt_iff, UInt64.lt_iff_toNat_lt, ← UInt64.toNat_inj] at hab
        omega) j (hit ▸ hj)
      rw [← Bool.not_eq_true, hbelow, UInt64.lt_iff_toNat_lt, ← UInt64.toNat_inj] at hb
      rw [UInt64.le_iff_toNat_le]
      omega
    have hsorted : Sorted m.lt (m.m_timers.drop it) := List.Pairwise.sublist (List.drop_sublist _ _) h.sorted
    rw [hend]
    constructor
    · intro j hj
      right
      rw [List.take_add, List.mem_append] at hj
      rcases hj with hj | hj
      · exact htake j hj
      · exact UInt64.le_of_eq (by simpa using take_lowerBound j hj)
    · intro j hj
      refine ⟨rfl, ?_⟩
      rw [← List.drop_drop] at hj
      have hne := drop_lowerBound hsorted (fun a ha b _ hab hbb => by
        have hle := next_le_of_lt hab
        have hge := UInt64.le_iff_toNat_le.mp (hdrop a ha)
        rw [beq_iff_eq] at hbb ⊢
        rw [hbb] at hle
        exact UInt64.toNat_inj.mp (by omega)) j hj
      have hge := UInt64.le_iff_toNat_le.mp (hdrop j (List.mem_of_mem_drop hj))
      rw [beq_eq_false_iff_ne, Ne, ← UInt64.toNat_inj] at hne
      rw [UInt64.lt_iff_toNat_lt]
      omega

theorem take_ok (h : Ok [] m) (n : Nat) : Ok (m.m_timers.take n) { m with m_timers := m.m_timers.drop n } := by
  have hlive : ∀ j, live { m with m_timers := m.m_timers.drop n } j ∨ j ∈ m.m_timers.take n → m.live j := by
    intro j hj
    rcases hj with (hj | hj) | hj
    · exact .inl hj
    · exact .inr (List.mem_of_mem_drop hj)
    · exact .inr (List.mem_of_mem_take hj)
  constructor
  · exact List.Pairwise.sublist (List.drop_sublist _ _) h.sorted
  · exact List.Pairwise.sublist (List.take_sublist _ _) h.nodup
  · intro j hj hm
    exact List.disjoint_take_drop h.nodup (Nat.le_refl n) hj hm
  · exact fun j hj => h.created j (.inl (hlive j hj))
  · exact fun j k hj hk => h.addr j k (.inl (hlive j hj)) (.inl (hlive k hk))
  · intro j hj hc
    have hm := (h.armed j hj hc).resolve_right (List.not_mem_nil)
    rw [← List.take_append_drop n m.m_timers, List.mem_append] at hm
    exact hm.symm

/-- What detectClockRollover says of a reading. -/
def rollover (m : TimerManager) (nowMs : UInt64) : Bool := (m.detectClockRollover nowMs).2

theorem rollover_of_le {nowMs : UInt64} (h : m.m_previousTime ≤ nowMs) : m.rollover nowMs = false := by
  have hnlt : ¬nowMs < m.m_previousTime := UInt64.not_lt.mpr h
  simp [rollover, detectClockRollover, hnlt]

/-- What listExpiredCb leaves: `expired`, the first timers of the set, are those whose time
    has come, or all of them after a rollover. -/
structure Expired (m : TimerManager) (nowMs : UInt64) (expired : List TimerId) (m' : TimerManager) : Prop where
  ok : Ok [] m'
  initial : ∃ n, expired = m.m_timers.take n
  due : ∀ j, j ∈ expired ↔ j ∈ m.m_timers ∧ (m.rollover nowMs = true ∨ (m.timer j).m_next ≤ nowMs)
  mem : ∀ j, j ∈ m'.m_timers ↔ j ∈ m.m_timers ∧ (j ∈ expired → (m.timer j).m_recurring = true)
  timer : ∀ j, m'.timer j = if j ∈ expired then fired nowMs (m.timer j) else m.timer j
  created : m'.created = m.created
  held : m'.held = m.held
  tickled : m'.m_tickled = m.m_tickled
  previous : m'.m_previousTime = if m.m_timers = [] then m.m_previousTime else nowMs

theorem Expired.mem_timers {nowMs : UInt64} {l : List TimerId} (h : Expired m nowMs l m') {j : TimerId} (hj : j ∈ l) :
    j ∈ m.m_timers := ((h.due j).mp hj).1

theorem listExpiredCb_spec (h : Ok [] m) (nowMs : UInt64) (addr : Nat) :
    ∃ m' expired, m.listExpiredCb nowMs addr = .ok (m', expired, expired.map fun j => (m.timer j).m_cb) ∧
      Expired m nowMs expired m' := by
  cases hl : m.m_timers with
  | nil =>
    refine ⟨m, [], ?_, h, ⟨0, rfl⟩, by simp [hl], by simp, by simp, rfl, rfl, rfl, by simp [hl]⟩
    simp only [listExpiredCb, hl]
    rfl
  | cons first rest =>
    have hok : Ok [] (m.detectClockRollover nowMs).1 := ⟨h.sorted, h.outNodup, h.outIn, h.created, h.addr, h.armed⟩
    have hfirst : ∀ j ∈ m.m_timers, (m.timer first).m_next ≤ (m.timer j).m_next := by
      intro j hj
      rw [UInt64.le_iff_toNat_le]
      rw [hl] at hj
      rcases List.mem_cons.mp hj with rfl | hj
      · exact Nat.le_refl _
      · have hs := h.sorted
        rw [hl] at hs
        exact next_le_of_lt ((List.pairwise_cons.mp hs).1 j hj)
    by_cases hq : (!m.rollover nowMs && decide ((m.timer first).m_next > nowMs)) = true
    · -- nothing has expired
      refine ⟨(m.detectClockRollover nowMs).1, [], ?_, hok, ⟨0, rfl⟩, ?_, ?_, ?_, rfl, rfl, rfl, ?_⟩
      · simp only [listExpiredCb, hl]
        exact if_pos hq
      · intro j
        simp only [List.not_mem_nil, false_iff, not_and, not_or]
        intro hj
        simp only [Bool.and_eq_true, Bool.not_eq_true', decide_eq_true_eq] at hq
        refine ⟨by rw [hq.1]; exact Bool.false_ne_true, ?_⟩
        have hle := UInt64.le_iff_toNat_le.mp (hfirst j hj)
        have hlt := UInt64.lt_iff_toNat_lt.mp hq.2
        rw [UInt64.le_iff_toNat_le]
        omega
      · intro j
        simp [detectClockRollover]
      · intro j
        simp [detectClockRollover]
      · rw [hl]
        rfl
    · obtain ⟨it, hit⟩ : ∃ it, it =
          (m.detectClockRollover nowMs).1.expiredEnd (m.detectClockRollover nowMs).2 nowMs (.at nowMs addr) := ⟨_, rfl⟩
      have hend := expiredEnd_spec hok (m.detectClockRollover nowMs).2 nowMs addr
      rw [← hit] at hend
      have hin : ∀ j ∈ m.m_timers.take it, m.rollover nowMs = true ∨ (m.timer j).m_next ≤ nowMs := hend.1
      have hout : ∀ j ∈ m.m_timers.drop it, m.rollover nowMs = false ∧ nowMs < (m.timer j).m_next := hend.2
      have htake : Ok (m.m_timers.take it) { (m.detectClockRollover nowMs).1 with m_timers := m.m_timers.drop it } :=
        take_ok hok it
      obtain ⟨m', hall, hok', hmem, htimer, hc, hh, hp, ht⟩ := expireAll_spec nowMs htake
      have hsplit : ∀ j, j ∈ m.m_timers ↔ j ∈ m.m_timers.take it ∨ j ∈ m.m_timers.drop it := by
        intro j
        rw [← List.mem_append, List.take_append_drop]
      have hdisj : ∀ j ∈ m.m_timers.drop it, j ∉ m.m_timers.take it := by
        intro j hj hj'
        exact List.disjoint_take_drop h.nodup (Nat.le_refl it) hj' hj
      refine ⟨m', m.m_timers.take it, ?_, hok', ⟨it, rfl⟩, ?_, ?_, htimer, hc, hh, ht, ?_⟩
      · simp only [listExpiredCb, hl]
        rw [if_neg (show ¬(!(m.detectClockRollover nowMs).2 && decide ((m.timer first).m_next > nowMs)) = true from hq)]
        rw [← hl, ← hit]
        show (expireAll nowMs (m.m_timers.take it) _ >>= _) = _
        rw [hall]
        rfl
      · intro j
        constructor
        · intro hj
          exact ⟨(hsplit j).mpr (.inl hj), hin j hj⟩
        · intro ⟨hj, hdue⟩
          rcases (hsplit j).mp hj with hj | hj
          · exact hj
          · obtain ⟨hr, hlt⟩ := hout j hj
            rcases hdue with hdue | hdue
            · rw [hr] at hdue
              cases hdue
            · exfalso
              rw [UInt64.le_iff_toNat_le] at hdue
              rw [UInt64.lt_iff_toNat_lt] at hlt
              omega
      · intro j
        rw [hmem, hsplit]
        show j ∈ m.m_timers.drop it ∨ (j ∈ m.m_timers.take it ∧ (m.timer j).m_recurring = true) ↔ _
        constructor
        · intro hj
          rcases hj with hj | ⟨hj, hr⟩
          · exact ⟨.inr hj, fun hj' => absurd hj' (hdisj j hj)⟩
          · exact ⟨.inl hj, fun _ => hr⟩
        · intro hj
          obtain ⟨hj | hj, hr⟩ := hj
          · exact .inr ⟨hj, hr hj⟩
          · exact .inl hj
      · rw [if_neg (by rw [hl]; exact List.cons_ne_nil _ _), hp]
        rfl

end TimerManager

end Sylar
