/-
  Sylar.IOManager.Contexts — how concurrent `addEvent` calls grow `m_fdContexts`
  (sylar/iomanager.cpp lines 126-149): the size check under the read lock, the
  `contextResize(fd * 1.5)` under the write lock, and the read `m_fdContexts[fd]`, which
  follows the release of the write lock, or is made under the read lock when the size
  sufficed. A context is known by the order of its creation, so a new one is never
  mistaken for the one it replaces.

  Proved: in every run, each step leaves every context in its place and each read is in
  bounds exactly when each `contextResize` finds the table no longer than the size it
  asks for (`contexts_stable_iff`). The decision to grow is taken before the write lock,
  so two calls with different descriptors break this (`grown_table_shrinks`).
-/

import Sylar.Lib.Lts
import Sylar.IOManager.Events
import Mathlib.Algebra.Ring.Nat
import Mathlib.Logic.Function.Basic

namespace Sylar
namespace Contexts

theorem resizeFill_length {α : Type} (mk : Nat → α) (v : List α) (size : Nat) :
    (resizeFill mk v size).length = size := by
  simp only [resizeFill, List.length_append, List.length_take, List.length_map, List.length_range']
  omega

theorem resizeFill_extends {α : Type} (mk : Nat → α) (v : List α) (size : Nat) :
    v <+: resizeFill mk v size ↔ v.length ≤ size := by
  constructor
  · intro h
    rw [← resizeFill_length mk v size]; exact h.length_le
  · intro h
    rw [resizeFill, List.take_of_length_le h]; exact List.prefix_append _ _

/-- Where a call of `addEvent(fd, ..)` is: before its check, reading under the read lock,
    about to grow, reading with no lock. -/
inductive Pc where
  | out
  | locked (fd : Nat)
  | grow (fd : Nat)
  | unlocked (fd : Nat)
  deriving DecidableEq, Repr

structure Table where
  m_fdContexts : List Nat
  created : Nat
  readers : Nat
  pc : Tid → Pc

inductive Act where
  | check (t : Tid) (fd : Nat)
  | grow (t : Tid)
  | read (t : Tid)
  deriving DecidableEq, Repr

/-- `static_cast<int>(m_fdContexts.size())`. -/
def intSize (s : Table) : Int := (s.m_fdContexts.length : Int).bmod (2 ^ 32)

/-- `fd * 1.5`, as a `size_t`. -/
def growSize (fd : Nat) : Nat := fd * 3 / 2

def contextResize (s : Table) (size : Nat) : Table :=
  { s with m_fdContexts := resizeFill (s.created + ·) s.m_fdContexts size, created := s.created + size }

def setPc (s : Table) (t : Tid) (p : Pc) : Table := { s with pc := Function.update s.pc t p }

/-- One step of `addEvent`, while it may be taken: the write lock waits for the readers. -/
def step (s : Table) : Act → Option Table
  | .check t fd => match s.pc t with
    | .out =>
      if 2 ^ 31 ≤ fd then none
      else if intSize s ≤ fd then some (setPc s t (.grow fd))
      else some (setPc { s with readers := s.readers + 1 } t (.locked fd))
    | _ => none
  | .grow t => match s.pc t with
    | .grow fd => if s.readers = 0 then some (setPc (contextResize s (growSize fd)) t (.unlocked fd)) else none
    | _ => none
  | .read t => match s.pc t with
    | .locked _ => some (setPc { s with readers := s.readers - 1 } t .out)
    | .unlocked _ => some (setPc s t .out)
    | _ => none

/-- The `IOManager` as its constructor leaves it: `contextResize(32)`. -/
def start : Table := contextResize ⟨[], 0, 0, fun _ => .out⟩ 32

/-- The descriptor whose context the next read of `t` takes. -/
def reading (s : Table) (t : Tid) : Option Nat :=
  match s.pc t with
  | .locked fd => some fd
  | .unlocked fd => some fd
  | _ => none

/-- No context is destroyed, replaced or moved, and a read is in bounds. -/
def Stable (s : Table) (a : Act) (s' : Table) : Prop :=
  s.m_fdContexts <+: s'.m_fdContexts ∧ ∀ t fd, a = .read t → reading s t = some fd → fd < s.m_fdContexts.length

/-- A growing step finds the table no longer than the size it asks for. -/
def Fits (s : Table) (a : Act) : Prop :=
  ∀ t fd, a = .grow t → s.pc t = .grow fd → s.m_fdContexts.length ≤ growSize fd

structure Inv (s : Table) : Prop where
  size : 32 ≤ s.m_fdContexts.length
  reads : ∀ t fd, reading s t = some fd → fd < s.m_fdContexts.length

/-! ## One step -/

theorem reading_setPc (s : Table) (t u : Tid) (p : Pc) :
    reading (setPc s t p) u = if u = t then (match p with | .locked fd => some fd | .unlocked fd => some fd | _ => none)
      else reading s u := by
  unfold reading setPc
  by_cases h : u = t
  · subst h; simp
  · simp [h]

/-- The cast may fold a huge size over, never up. -/
theorem lt_of_intSize {s : Table} {fd : Nat} (h : ¬ intSize s ≤ fd) : fd < s.m_fdContexts.length := by
  unfold intSize at h
  generalize s.m_fdContexts.length = n at h
  have hle : ((n : Int).bmod (2 ^ 32)) ≤ n := by
    rw [Int.bmod_def]
    split <;> omega
  omega

/-- What a step can be. -/
theorem step_cases {s s' : Table} {a : Act} (h : step s a = some s') :
    (∃ t fd, a = .check t fd ∧ s' = setPc s t (.grow fd)) ∨
    (∃ t fd, a = .check t fd ∧ fd < s.m_fdContexts.length ∧
      s' = setPc { s with readers := s.readers + 1 } t (.locked fd)) ∨
    (∃ t fd, a = .grow t ∧ s.pc t = .grow fd ∧ s' = setPc (contextResize s (growSize fd)) t (.unlocked fd)) ∨
    (∃ t n, a = .read t ∧ s' = setPc { s with readers := n } t .out) := by
  cases a with
  | check t fd =>
    simp only [step] at h
    split at h
    · split at h
      · cases h
      · split at h
        · cases h; exact .inl ⟨t, fd, rfl, rfl⟩
        · cases h; exact .inr (.inl ⟨t, fd, rfl, lt_of_intSize ‹_›, rfl⟩)
    · cases h
  | grow t =>
    simp only [step] at h
    split at h
    · split at h
      · cases h; exact .inr (.inr (.inl ⟨t, _, rfl, ‹_›, rfl⟩))
      · cases h
    · cases h
  | read t =>
    simp only [step] at h
    split at h
    · cases h; exact .inr (.inr (.inr ⟨t, _, rfl, rfl⟩))
    · cases h; exact .inr (.inr (.inr ⟨t, s.readers, rfl, rfl⟩))
    · cases h

theorem step_inv {s s' : Table} {a : Act} (hi : Inv s) (hf : Fits s a) (h : step s a = some s') : Inv s' := by
  rcases step_cases h with ⟨t, fd, rfl, rfl⟩ | ⟨t, fd, rfl, hlt, rfl⟩ | ⟨t, fd, rfl, hpc, rfl⟩ | ⟨t, n, rfl, rfl⟩
  · refine ⟨hi.size, ?_⟩
    intro u fd' hr
    rw [reading_setPc] at hr
    split at hr
    · cases hr
    · exact hi.reads u fd' hr
  · refine ⟨hi.size, ?_⟩
    intro u fd' hr
    rw [reading_setPc] at hr
    split at hr
    · cases hr; exact hlt
    · exact hi.reads u fd' hr
  · have hfit := hf t fd rfl hpc
    have hlen : (setPc (contextResize s (growSize fd)) t (.unlocked fd)).m_fdContexts.length = growSize fd :=
      resizeFill_length _ _ _
    refine ⟨by rw [hlen]; exact Nat.le_trans hi.size hfit, ?_⟩
    intro u fd' hr
    rw [hlen]
    rw [reading_setPc] at hr
    split at hr
    · cases hr
      -- the table had 32 entries, so floor(1.5 fd) exceeds fd
      have := Nat.le_trans hi.size hfit
      unfold growSize at this ⊢; omega
    · exact Nat.lt_of_lt_of_le (hi.reads u fd' hr) hfit
  · refine ⟨hi.size, ?_⟩
    intro u fd' hr
    rw [reading_setPc] at hr
    split at hr
    · cases hr
    · exact hi.reads u fd' hr

theorem step_stable_iff {s s' : Table} {a : Act} (hi : Inv s) (h : step s a = some s') : Stable s a s' ↔ Fits s a := by
  rcases step_cases h with ⟨t, fd, rfl, rfl⟩ | ⟨t, fd, rfl, -, rfl⟩ | ⟨t, fd, rfl, hpc, rfl⟩ | ⟨t, n, rfl, rfl⟩
  · exact ⟨fun _ _ _ ha => (nomatch ha), fun _ => ⟨List.prefix_rfl, fun _ _ ha => (nomatch ha)⟩⟩
  · exact ⟨fun _ _ _ ha => (nomatch ha), fun _ => ⟨List.prefix_rfl, fun _ _ ha => (nomatch ha)⟩⟩
  · have hpre : s.m_fdContexts <+: (setPc (contextResize s (growSize fd)) t (.unlocked fd)).m_fdContexts ↔
        s.m_fdContexts.length ≤ growSize fd := resizeFill_extends _ _ _
    constructor
    · intro hx t' fd' ha hpc'
      obtain ⟨hp, -⟩ := hx
      cases ha; rw [hpc] at hpc'; cases hpc'
      exact hpre.mp hp
    · exact fun hf => ⟨hpre.mpr (hf t fd rfl hpc), fun _ _ ha => nomatch ha⟩
  · exact ⟨fun _ _ _ ha => (nomatch ha), fun _ => ⟨List.prefix_rfl, fun u fd' _ hr => hi.reads u fd' hr⟩⟩

theorem start_inv : Inv start := by
  constructor
  · exact Nat.le_of_eq (resizeFill_length _ _ _).symm
  · intro t fd h
    cases h

/-! ## Runs -/

/-- Every step of a run keeps the contexts and reads in bounds exactly when every
    growing step fits. -/
theorem contexts_stable_iff {tr : List (Act × Table)} (h : Lts.Run (Lts.ofFn step) start tr) :
    Lts.Every Stable start tr ↔ Lts.Every (fun s a _ => Fits s a) start tr :=
  h.every_iff (J := Inv) (P := Stable) (G := Fits) (fun _ _ _ hi hf hs => step_inv hi hf hs)
    (fun _ _ _ hi hs => step_stable_iff hi hs) start_inv

theorem step_check_grow {s : Table} {t : Tid} {fd : Nat} (hpc : s.pc t = .out) (hfd : fd < 2 ^ 31)
    (hs : intSize s ≤ fd) : step s (.check t fd) = some (setPc s t (.grow fd)) := by
  simp only [step, hpc, Nat.not_le.mpr hfd, if_false, hs, if_true]

/-- One call that grows the table for descriptor 40. -/
theorem contexts_stable_fd40 :
    ∃ tr, Lts.Run (Lts.ofFn step) start tr ∧ tr.length = 3 ∧ Lts.Every Stable start tr := by
  have h1 := step_check_grow (s := start) (t := 1) rfl (by decide : 40 < 2 ^ 31) (by decide)
  have hrun : Lts.Run (Lts.ofFn step) start [(.check 1 40, _), (.grow 1, _), (.read 1, _)] :=
    .cons h1 (.cons rfl (.cons rfl (.nil _)))
  refine ⟨_, hrun, rfl, (contexts_stable_iff hrun).mpr ⟨?_, ?_, ?_, trivial⟩⟩
  · intro t fd ha; cases ha
  · intro t fd ha hpc
    cases ha; cases hpc
    show (resizeFill _ _ 32).length ≤ _
    rw [resizeFill_length]; decide
  · intro t fd ha; cases ha

/-- Threads 1 and 2 both decide to grow, for descriptors 100 and 40; thread 2 gets the
    write lock last and shrinks the table from 150 contexts to 60. -/
theorem grown_table_shrinks : ∃ tr, Lts.Run (Lts.ofFn step) start tr ∧ ¬ Lts.Every Stable start tr := by
  have h1 := step_check_grow (s := start) (t := 1) rfl (by decide : 100 < 2 ^ 31) (by decide)
  have h2 := step_check_grow (s := setPc start 1 (.grow 100)) (t := 2) rfl (by decide : 40 < 2 ^ 31) (by decide)
  have hrun : Lts.Run (Lts.ofFn step) start [(.check 1 100, _), (.check 2 40, _), (.grow 1, _), (.grow 2, _)] :=
    .cons h1 (.cons h2 (.cons rfl (.cons rfl (.nil _))))
  refine ⟨_, hrun, ?_⟩
  intro hx
  obtain ⟨-, -, -, ⟨hpre, -⟩, -⟩ := hx
  have hlen := (resizeFill_extends _ (resizeFill _ _ 150) 60).mp hpre
  rw [resizeFill_length] at hlen
  omega

end Contexts
end Sylar
