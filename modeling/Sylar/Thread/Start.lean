/-
  Sylar.Thread.Start — Thread objects and the threads they start (sylar/thread.cpp, and
  Semaphore of sylar/mutex.cpp).

  The constructor makes the object, creates a thread for `Thread::run` and waits for the
  object's semaphore. run reads the name, writes m_id, takes m_cb, notifies and calls the
  callback. After that the object is its owner's: join waits for the thread to end, the
  destructor detaches a thread that was not joined.

  Actors. The thread of each object (`of o`) and those not started here (`other n`). In
  its callback, or in code of its own, a thread makes objects, sets its own name, and
  joins or destroys any object that no other thread is constructing or joining (`Free`:
  what the code leaves to its users). Each access to an object is one step. pthread_create
  may fail, and so may pthread_join (of the caller itself, or of a thread that joins the
  caller) and sem_wait (EINTR). Objects are numbered as they are made, and a number is not
  used again.

  `Semaphore::wait` throws when sem_wait fails. The constructor then throws too: its object
  goes while the thread is still at work on it (`interrupted`).

  Proved, over every interleaving in which no sem_wait fails (`thread_handshake`):
  - the object is there for all that its constructor, a join, and run up to the callback
    do with it, and the thread that a constructor waits for can move;
  - once the constructor has returned, m_id is the id of the thread, m_cb is empty, and
    the name is the thread's until the object goes;
  - the callback is called once, by that thread, and has returned when join returns;
  - a handle is joined or detached once, and a thread that runs on when its object is
    destroyed is detached: `SetName` in a joined object's thread never finds it gone.
-/

import Sylar.Lib.Lts
import Sylar.Scheduler.Task
import Mathlib.Logic.Function.Basic

namespace Sylar.Threads

inductive Tid where
  | other (n : Nat)
  | of (o : Nat)
  deriving DecidableEq, Repr

/-- A `Thread` object. -/
structure Thread where
  /-- `none` for -1. -/
  m_id : Option Tid := none
  /-- `none` for 0. -/
  m_thread : Option Tid := none
  m_cb : Option CbId
  m_name : String
  m_semaphore : Nat := 0
  deriving DecidableEq, Repr

/-- The members, and the first lines of the constructor. -/
def Thread.new (cb : CbId) (name : String) : Thread where
  m_cb := some cb
  m_name := if name = "" then "UNKNOW" else name

/-- The line of `run` that is next, or where in other code the thread is. -/
inductive Pc where
  | unborn
  | self
  | name
  | id
  | setname
  | swap
  | notify
  | call
  | user
  | create (o : Nat)
  | store (o : Nat)
  | wait (o : Nat)
  | join (o : Nat)
  | ended
  deriving DecidableEq, Repr

namespace Pc

/-- The object that a constructor or a join works on. -/
def uses : Pc → Option Nat
  | create o | store o | wait o | join o => some o
  | _ => none

/-- The object under construction. -/
def makes : Pc → Option Nat
  | create o | store o | wait o => some o
  | _ => none

/-- How far run has come. -/
def line : Pc → Nat
  | unborn => 0
  | self => 1
  | name => 2
  | id => 3
  | setname => 4
  | swap => 5
  | notify => 6
  | call => 7
  | _ => 8

end Pc

inductive Handle where
  | joinable
  | joined
  | detached
  deriving DecidableEq, Repr

/-- A thread: its thread_locals, the name the system has, `cb` of run, the callbacks it
    called. -/
structure Running where
  pc : Pc
  t_thread : Option Nat := none
  t_thread_name : String := "UNKNOW"
  comm : String := ""
  cb : Option CbId := none
  called : List CbId := []
  handle : Handle := .joinable
  deriving DecidableEq, Repr

structure State where
  threads : Tid → Running
  objs : Nat → Option Thread
  /-- What each constructor was given. -/
  given : Nat → CbId × String
  made : Nat

namespace State

def set (s : State) (t : Tid) (r : Running) : State := { s with threads := Function.update s.threads t r }

def goto (s : State) (t : Tid) (pc : Pc) : State := s.set t { s.threads t with pc := pc }

def put (s : State) (o : Nat) (th : Option Thread) : State := { s with objs := Function.update s.objs o th }

/-- pthread_join, pthread_detach. -/
def mark (s : State) (t : Tid) (h : Handle) : State := s.set t { s.threads t with handle := h }

/-- No thread constructs or joins it. -/
def Free (s : State) (o : Nat) : Prop := ∀ t, (s.threads t).pc.uses ≠ some o

end State

/-- `name.substr(0, 15)`, for pthread_setname_np. -/
def shortName (name : String) : String := String.ofList (name.toList.take 15)

/-- One line of `Thread::run`, up to `notify`. -/
def run (o : Nat) (r : Running) (thread : Thread) : Option (Running × Thread) :=
  match r.pc with
  | .self => some ({ r with pc := .name, t_thread := some o }, thread)
  | .name => some ({ r with pc := .id, t_thread_name := thread.m_name }, thread)
  | .id => some ({ r with pc := .setname }, { thread with m_id := some (.of o) })
  | .setname => some ({ r with pc := .swap, comm := shortName thread.m_name }, thread)
  | .swap => some ({ r with pc := .notify, cb := thread.m_cb }, { thread with m_cb := r.cb })
  | .notify => some ({ r with pc := .call }, { thread with m_semaphore := thread.m_semaphore + 1 })
  | _ => none

/-- `m_name` and `t_thread_name` after `SetName`. -/
def SetName (s : State) (t : Tid) (name : String) : State :=
  if name = "" then s
  else
    let s' := s.set t { s.threads t with t_thread_name := name }
    match (s.threads t).t_thread with
    | none => s'
    | some o => s'.put o ((s.objs o).map fun th => { th with m_name := name })

/-- The destructor: pthread_detach, and the object is gone. -/
def destroy (s : State) (o : Nat) (th : Thread) : State :=
  match th.m_thread with
  | none => s.put o none
  | some u => (s.mark u .detached).put o none

inductive Act where
  | construct (t : Tid) (cb : CbId) (name : String)
  | create (t : Tid)
  | createFails (t : Tid)
  | store (t : Tid)
  | wait (t : Tid)
  | waitFails (t : Tid)
  | run (o : Nat)
  | call (o : Nat)
  | finish (o : Nat)
  | setName (t : Tid) (name : String)
  | join (t : Tid) (o : Nat)
  | joined (t : Tid)
  | joinFails (t : Tid)
  | destroy (t : Tid) (o : Nat)
  deriving DecidableEq, Repr

inductive Step (s : State) : Act → State → Prop
  | construct (t : Tid) (cb : CbId) (name : String) : (s.threads t).pc = .user →
      Step s (.construct t cb name)
        { (s.goto t (.create s.made)).put s.made (some (.new cb name)) with
          given := Function.update s.given s.made (cb, name), made := s.made + 1 }
  | create (t : Tid) (o : Nat) : (s.threads t).pc = .create o →
      Step s (.create t) ((s.goto t (.store o)).set (.of o) ⟨.self, none, "UNKNOW", "", none, [], .joinable⟩)
  /-- The constructor throws, and there is no object. -/
  | createFails (t : Tid) (o : Nat) : (s.threads t).pc = .create o →
      Step s (.createFails t) ((s.goto t .user).put o none)
  /-- pthread_create has stored the handle. -/
  | store (t : Tid) (o : Nat) (th : Thread) : (s.threads t).pc = .store o → s.objs o = some th →
      Step s (.store t) ((s.goto t (.wait o)).put o (some { th with m_thread := some (.of o) }))
  /-- `m_semaphore.wait()` returns, and so does the constructor. -/
  | wait (t : Tid) (o : Nat) (th : Thread) : (s.threads t).pc = .wait o → s.objs o = some th → 0 < th.m_semaphore →
      Step s (.wait t) ((s.goto t .user).put o (some { th with m_semaphore := th.m_semaphore - 1 }))
  /-- sem_wait fails: the constructor throws, and there is no object. -/
  | waitFails (t : Tid) (o : Nat) : (s.threads t).pc = .wait o →
      Step s (.waitFails t) ((s.goto t .user).put o none)
  | run (o : Nat) (th th' : Thread) (r' : Running) : s.objs o = some th →
      run o (s.threads (.of o)) th = some (r', th') → Step s (.run o) ((s.set (.of o) r').put o (some th'))
  | call (o : Nat) (cb : CbId) : (s.threads (.of o)).pc = .call → (s.threads (.of o)).cb = some cb →
      Step s (.call o) (s.set (.of o)
        { s.threads (.of o) with pc := .user, called := (s.threads (.of o)).called ++ [cb] })
  | finish (o : Nat) : (s.threads (.of o)).pc = .user → Step s (.finish o) (s.goto (.of o) .ended)
  | setName (t : Tid) (name : String) : (s.threads t).pc = .user →
      (∀ o ∈ (s.threads t).t_thread, (s.objs o).isSome) → Step s (.setName t name) (SetName s t name)
  /-- `if (!m_thread) return`. -/
  | joinNone (t : Tid) (o : Nat) (th : Thread) : (s.threads t).pc = .user → s.objs o = some th → s.Free o →
      th.m_thread = none → Step s (.join t o) s
  | join (t : Tid) (o : Nat) (th : Thread) : (s.threads t).pc = .user → s.objs o = some th → s.Free o →
      th.m_thread ≠ none → Step s (.join t o) (s.goto t (.join o))
  | joined (t : Tid) (o : Nat) (th : Thread) (u : Tid) : (s.threads t).pc = .join o → s.objs o = some th →
      th.m_thread = some u → (s.threads u).pc = .ended →
      Step s (.joined t) (((s.mark u .joined).goto t .user).put o
        (some { th with m_thread := none }))
  | joinFails (t : Tid) (o : Nat) : (s.threads t).pc = .join o → Step s (.joinFails t) (s.goto t .user)
  | destroy (t : Tid) (o : Nat) (th : Thread) : (s.threads t).pc = .user → s.objs o = some th → s.Free o →
      Step s (.destroy t o) (destroy s o th)

/-- No sem_wait fails. -/
def Waits (_ : State) : Act → Prop
  | .waitFails _ => False
  | _ => True

/-- No object yet. -/
structure Start (s : State) : Prop where
  other : ∀ n, s.threads (.other n) = { pc := .user }
  unborn : ∀ o, (s.threads (.of o)).pc = .unborn
  objs : ∀ o, s.objs o = none
  made : s.made = 0

abbrev Reach : State → Prop := Lts.Reach Start (Lts.guarded Step Waits)

/-! ## The stages of an object -/

/-- What its thread has of its own. -/
structure Own (o : Nat) (given : CbId × String) (r : Running) : Prop where
  born : 1 ≤ r.pc.line
  self : 2 ≤ r.pc.line → r.t_thread = some o
  comm : 5 ≤ r.pc.line → r.comm = shortName (Thread.new given.1 given.2).m_name
  cb : r.cb = if r.pc.line ≤ 5 then none else some given.1
  called : r.called = if r.pc.line ≤ 7 then [] else [given.1]

/-- What the thread and the object agree on. -/
structure Shared (o : Nat) (given : CbId × String) (r : Running) (th : Thread) : Prop where
  orig : r.pc.line ≤ 7 → th.m_name = (Thread.new given.1 given.2).m_name
  name : 3 ≤ r.pc.line → r.t_thread_name = th.m_name
  id : 4 ≤ r.pc.line → th.m_id = some (.of o)
  cb : th.m_cb = if r.pc.line ≤ 5 then some given.1 else none

/-- The handle, in the object and in the system. -/
def Held (o : Nat) (r : Running) (th : Thread) : Prop :=
  th.m_thread = some (.of o) ∧ r.handle = .joinable ∨ th.m_thread = none ∧ r.handle = .joined ∧ r.pc = .ended

/-- `t` is in the constructor, and the thread runs. -/
structure Starting (s : State) (o : Nat) (t : Tid) (th : Thread) : Prop where
  ne : t ≠ .of o
  at_ : (s.threads t).pc = .store o ∧ th.m_thread = none ∨ (s.threads t).pc = .wait o ∧ th.m_thread = some (.of o)
  obj : s.objs o = some th
  own : Own o (s.given o) (s.threads (.of o))
  shared : Shared o (s.given o) (s.threads (.of o)) th
  sem : th.m_semaphore = if (s.threads (.of o)).pc.line ≤ 6 then 0 else 1
  handle : (s.threads (.of o)).handle = .joinable

/-- The constructor has returned. -/
structure Made (s : State) (o : Nat) (th : Thread) : Prop where
  users : ∀ t, (s.threads t).pc.uses = some o → (s.threads t).pc = .join o ∧ th.m_thread ≠ none
  obj : s.objs o = some th
  line : 7 ≤ (s.threads (.of o)).pc.line
  own : Own o (s.given o) (s.threads (.of o))
  shared : Shared o (s.given o) (s.threads (.of o)) th
  sem : th.m_semaphore = 0
  held : Held o (s.threads (.of o)) th

/-- Destroyed. -/
structure Gone (s : State) (o : Nat) : Prop where
  free : s.Free o
  obj : s.objs o = none
  line : 7 ≤ (s.threads (.of o)).pc.line
  own : Own o (s.given o) (s.threads (.of o))
  handle : (s.threads (.of o)).handle = .detached ∨
    (s.threads (.of o)).handle = .joined ∧ (s.threads (.of o)).pc = .ended

inductive Stage (s : State) (o : Nat) : Prop
  | creating {t : Tid} : (s.threads t).pc = .create o → s.objs o = some (.new (s.given o).1 (s.given o).2) →
      (s.threads (.of o)).pc = .unborn → Stage s o
  | starting {t : Tid} {th : Thread} : Starting s o t th → Stage s o
  | made {th : Thread} : Made s o th → Stage s o
  | gone : Gone s o → Stage s o
  | failed : s.Free o → s.objs o = none → (s.threads (.of o)).pc = .unborn → Stage s o

structure Inv (s : State) : Prop where
  unmade : ∀ o, s.made ≤ o → s.objs o = none ∧ s.Free o ∧ (s.threads (.of o)).pc = .unborn
  stage : ∀ o, o < s.made → Stage s o
  alone : ∀ t t' o, (s.threads t).pc.uses = some o → (s.threads t').pc.uses = some o → t = t'
  other : ∀ n, (s.threads (.other n)).pc.line = 8 ∧ (s.threads (.other n)).t_thread = none

variable {s s' : State} {t : Tid} {o : Nat} {a : Act} {th th' : Thread} {r r' : Running} {given : CbId × String}

theorem Start.inv (h : Start s) : Inv s where
  unmade o _ := by
    refine ⟨h.objs o, fun t => ?_, h.unborn o⟩
    cases t with
    | other n => simp [h.other, Pc.uses]
    | of o => simp [h.unborn, Pc.uses]
  stage o ho := absurd ho (by simp [h.made])
  alone t t' o ht := by
    cases t with
    | other n => simp [h.other, Pc.uses] at ht
    | of o => simp [h.unborn, Pc.uses] at ht
  other n := by simp [h.other, Pc.line]

/-- A line of run. -/
theorem run_keeps (h : run o r th = some (r', th')) (ho : Own o given r) (hs : Shared o given r th) :
    Own o given r' ∧ Shared o given r' th' ∧ r.pc.line ≤ 6 ∧ r'.pc.uses = none ∧ r.pc.uses = none ∧
      r'.handle = r.handle ∧ th'.m_thread = th.m_thread ∧
      th'.m_semaphore = th.m_semaphore + (if r'.pc.line ≤ 6 then 0 else 1) := by
  obtain ⟨pc, t_thread, t_thread_name, comm, cb, called, handle⟩ := r
  obtain ⟨-, hself, hcomm, hcb, hcalled⟩ := ho
  obtain ⟨horig, hname, hid, hscb⟩ := hs
  cases pc with
  | self | name | id | setname | swap | notify =>
    simp only [run, Option.some.injEq, Prod.mk.injEq] at h
    obtain ⟨rfl, rfl⟩ := h
    simp only [Pc.line] at *
    refine ⟨⟨?_, ?_, ?_, ?_, ?_⟩, ⟨?_, ?_, ?_, ?_⟩, ?_⟩ <;> simp_all [Pc.uses, Pc.line]
  | _ => cases h

/-! ## What a step leaves alone -/

/-- A thread goes on with other code. -/
structure Quiet (r r' : Running) : Prop where
  same : r' = { r with pc := r'.pc }
  before : r.pc.line = 8 ∧ r.pc ≠ .ended
  after : r'.pc.line = 8

theorem Quiet.own (h : Quiet r r') (ho : Own o given r) : Own o given r' := by
  have hline : r'.pc.line = r.pc.line := h.after.trans h.before.1.symm
  rw [h.same]
  refine ⟨?_, ?_, ?_, ?_, ?_⟩ <;> simp only [hline]
  exacts [ho.born, ho.self, ho.comm, ho.cb, ho.called]

theorem Quiet.shared (h : Quiet r r') (hs : Shared o given r th) : Shared o given r' th := by
  have hline : r'.pc.line = r.pc.line := h.after.trans h.before.1.symm
  rw [h.same]
  refine ⟨?_, ?_, ?_, ?_⟩ <;> simp only [hline]
  exacts [hs.orig, hs.name, hs.id, hs.cb]

theorem Own.mark (h : Own o given r) (handle : Handle) : Own o given { r with handle := handle } :=
  ⟨h.born, h.self, h.comm, h.cb, h.called⟩

theorem Shared.mark (h : Shared o given r th) (handle : Handle) (m_thread : Option Tid) (m_semaphore : Nat) :
    Shared o given { r with handle := handle } { th with m_thread := m_thread, m_semaphore := m_semaphore } :=
  ⟨h.orig, h.name, h.id, h.cb⟩

theorem Quiet.handle (h : Quiet r r') : r'.handle = r.handle := by rw [h.same]

theorem Quiet.held (h : Quiet r r') (hh : Held o r th) : Held o r' th := by
  rcases hh with ⟨hth, hr⟩ | ⟨-, -, hpc⟩
  · exact .inl ⟨hth, h.handle.trans hr⟩
  · exact absurd hpc h.before.2

/-- What another thread does, and what the thread itself does with other objects. -/
theorem Stage.other (h : Stage s o) (hobj : s'.objs o = s.objs o) (hgiven : s'.given o = s.given o)
    (hself : s'.threads (.of o) = s.threads (.of o) ∨ Quiet (s.threads (.of o)) (s'.threads (.of o)))
    (huses : ∀ t, (s'.threads t).pc = (s.threads t).pc ∨
      (s.threads t).pc.uses ≠ some o ∧ (s'.threads t).pc.uses ≠ some o) : Stage s' o := by
  have hkeep : ∀ t, (s.threads t).pc.uses = some o → (s'.threads t).pc = (s.threads t).pc :=
    fun t ht => (huses t).resolve_right fun h => h.1 ht
  have hback : ∀ t, (s'.threads t).pc.uses = some o → (s'.threads t).pc = (s.threads t).pc :=
    fun t ht => (huses t).resolve_right fun h => h.2 ht
  have hfree : s.Free o → s'.Free o := fun hf t ht => hf t (hback t ht ▸ ht)
  have hunborn : (s.threads (.of o)).pc = .unborn → (s'.threads (.of o)).pc = .unborn := by
    intro hu
    rcases hself with heq | hq
    · rw [heq, hu]
    · exact absurd hq.before.1 (by simp [hu, Pc.line])
  have hown : Own o (s.given o) (s.threads (.of o)) → Own o (s'.given o) (s'.threads (.of o)) := by
    rw [hgiven]
    rcases hself with heq | hq
    · rw [heq]
      exact id
    · exact hq.own
  have hshared {th : Thread} : Shared o (s.given o) (s.threads (.of o)) th →
      Shared o (s'.given o) (s'.threads (.of o)) th := by
    rw [hgiven]
    rcases hself with heq | hq
    · rw [heq]
      exact id
    · exact hq.shared
  have hline {n : Nat} (hn : n ≤ 8) : n ≤ (s.threads (.of o)).pc.line → n ≤ (s'.threads (.of o)).pc.line := by
    rcases hself with heq | hq
    · rw [heq]
      exact id
    · exact fun _ => hq.after ▸ hn
  cases h with
  | @creating t hpc ho hu =>
    exact .creating ((hkeep t (by simp [hpc, Pc.uses])).trans hpc) (by rw [hobj, hgiven, ho]) (hunborn hu)
  | @starting t th h =>
    have hpc : (s'.threads t).pc = (s.threads t).pc := by
      refine hkeep t ?_
      rcases h.at_ with ⟨hpc, -⟩ | ⟨hpc, -⟩ <;> rw [hpc] <;> rfl
    have hl : ((s'.threads (.of o)).pc.line ≤ 6 ↔ (s.threads (.of o)).pc.line ≤ 6) ∧
        (s'.threads (.of o)).handle = (s.threads (.of o)).handle := by
      rcases hself with heq | hq
      · simp [heq]
      · simp [hq.before, hq.after, hq.handle]
    exact .starting ⟨h.ne, hpc ▸ h.at_, hobj.trans h.obj, hown h.own, hshared h.shared, by simp only [h.sem, hl.1],
      hl.2.trans h.handle⟩
  | made h =>
    refine .made ⟨fun t ht => ?_, hobj.trans h.obj, hline (by decide) h.line, hown h.own, hshared h.shared, h.sem, ?_⟩
    · have heq := hback t ht
      rw [heq]
      exact h.users t (heq ▸ ht)
    · rcases hself with heq | hq
      · exact heq ▸ h.held
      · exact hq.held h.held
  | gone h =>
    refine .gone ⟨hfree h.free, hobj.trans h.obj, hline (by decide) h.line, hown h.own, ?_⟩
    rcases hself with heq | hq
    · exact heq ▸ h.handle
    · exact .inl (hq.handle.trans (h.handle.resolve_right fun hj => hq.before.2 hj.2))
  | failed hf ho hu => exact .failed (hfree hf) (hobj.trans ho) (hunborn hu)

/-- A step of `t` that works on `o`. -/
structure Frame (s s' : State) (t : Tid) (o : Nat) : Prop where
  objs : ∀ o' ≠ o, s'.objs o' = s.objs o'
  given : ∀ o' ≠ o, s'.given o' = s.given o'
  made : ∀ o' ≠ o, o' < s'.made ↔ o' < s.made
  threads : ∀ t' ≠ t, t' ≠ .of o → s'.threads t' = s.threads t'
  quiet : t ≠ .of o → Quiet (s.threads t) (s'.threads t)
  uses : ∀ t' o', o' ≠ o → (s'.threads t').pc = (s.threads t').pc ∨
    (s.threads t').pc.uses ≠ some o' ∧ (s'.threads t').pc.uses ≠ some o'

theorem Inv.frame (hi : Inv s) (h : Frame s s' t o) (ho : o < s'.made) (hstage : Stage s' o)
    (halone : (∀ t' ≠ t, (s'.threads t').pc.uses ≠ some o) ∨
      ∀ t', (s'.threads t').pc.uses = some o → (s.threads t').pc.uses = some o) : Inv s' := by
  have hself : ∀ o' ≠ o, s'.threads (.of o') = s.threads (.of o') ∨
      Quiet (s.threads (.of o')) (s'.threads (.of o')) := by
    intro o' ho'
    have hne : Tid.of o' ≠ .of o := fun h => ho' (Tid.of.inj h)
    by_cases ht : .of o' = t
    · exact .inr (ht ▸ h.quiet (ht ▸ hne))
    · exact .inl (h.threads _ ht hne)
  refine ⟨fun o' hle => ?_, fun o' hlt => ?_, fun t₁ t₂ o' h₁ h₂ => ?_, fun n => ?_⟩
  · have hne : o' ≠ o := fun heq => absurd ho (Nat.not_lt.mpr (heq ▸ hle))
    have hle' : s.made ≤ o' := Nat.not_lt.mp fun hlt => absurd ((h.made o' hne).mpr hlt) (Nat.not_lt.mpr hle)
    obtain ⟨hobj, hfree, hu⟩ := hi.unmade o' hle'
    refine ⟨(h.objs o' hne).trans hobj, fun t' ht' => ?_, ?_⟩
    · rcases h.uses t' o' hne with heq | hno
      · exact hfree t' (heq ▸ ht')
      · exact hno.2 ht'
    · rcases hself o' hne with heq | hq
      · rw [heq, hu]
      · exact absurd hq.before.1 (by simp [hu, Pc.line])
  · by_cases hne : o' = o
    · exact hne ▸ hstage
    · exact (hi.stage o' ((h.made o' hne).mp hlt)).other (h.objs o' hne) (h.given o' hne) (hself o' hne)
        fun t' => h.uses t' o' hne
  · by_cases hne : o' = o
    · rw [hne] at h₁ h₂
      rcases halone with hno | hback
      · have hat : ∀ t', (s'.threads t').pc.uses = some o → t' = t := fun t' ht' => by_contra fun hne => hno t' hne ht'
        rw [hat t₁ h₁, hat t₂ h₂]
      · exact hi.alone t₁ t₂ o (hback t₁ h₁) (hback t₂ h₂)
    · have hback : ∀ t', (s'.threads t').pc.uses = some o' → (s.threads t').pc.uses = some o' := fun t' ht' =>
        ((h.uses t' o' hne).resolve_right fun hno => hno.2 ht') ▸ ht'
      exact hi.alone t₁ t₂ o' (hback t₁ h₁) (hback t₂ h₂)
  · by_cases ht : .other n = t
    · have hq := h.quiet (ht ▸ Tid.noConfusion)
      rw [ht, hq.same]
      exact ⟨hq.after, by simpa [ht] using (hi.other n).2⟩
    · rw [h.threads _ ht Tid.noConfusion]
      exact hi.other n

/-! ## The steps -/

@[simp] theorem set_self (s : State) (t : Tid) (r : Running) : (s.set t r).threads t = r := by simp [State.set]

@[simp] theorem set_other {t' : Tid} (h : t' ≠ t) : (s.set t r).threads t' = s.threads t' := by
  simp [State.set, Function.update_of_ne h]

@[simp] theorem put_self (s : State) (o : Nat) (th : Option Thread) : (s.put o th).objs o = th := by simp [State.put]

@[simp] theorem put_other {o' : Nat} {th : Option Thread} (h : o' ≠ o) : (s.put o th).objs o' = s.objs o' := by
  simp [State.put, Function.update_of_ne h]

@[simp] theorem mark_self (s : State) (t : Tid) (h : Handle) :
    (s.mark t h).threads t = { s.threads t with handle := h } := set_self ..

@[simp] theorem mark_other {t' : Tid} {h : Handle} (hne : t' ≠ t) : (s.mark t h).threads t' = s.threads t' :=
  set_other hne

theorem Pc.uses_of_makes {p : Pc} (h : p.makes = some o) : p.uses = some o := by
  cases p <;> first | exact h | cases h

theorem Starting.makes (h : Starting s o t th) : (s.threads t).pc.makes = some o := by
  rcases h.at_ with ⟨hpc, -⟩ | ⟨hpc, -⟩ <;> rw [hpc] <;> rfl

theorem Inv.lt (hi : Inv s) (h : (s.threads t).pc.uses = some o) : o < s.made := by
  by_contra hlt
  exact (hi.unmade o (Nat.not_lt.mp hlt)).2.1 t h

theorem Inv.lt_of_obj (hi : Inv s) (h : s.objs o = some th) : o < s.made := by
  by_contra hlt
  exact absurd ((hi.unmade o (Nat.not_lt.mp hlt)).1.symm.trans h) (by simp)

/-- Where a thread that is at an object may be. -/
theorem Inv.use_cases (hi : Inv s) (huses : (s.threads t).pc.uses = some o) :
    ((s.threads t).pc = .create o ∧ s.objs o = some (.new (s.given o).1 (s.given o).2) ∧
      (s.threads (.of o)).pc = .unborn) ∨ (∃ th, Starting s o t th) ∨
      ∃ th, Made s o th ∧ (s.threads t).pc = .join o := by
  cases hi.stage o (hi.lt huses) with
  | @creating t' hpc hobj hu =>
    obtain rfl := hi.alone t t' o huses (by rw [hpc, Pc.uses])
    exact .inl ⟨hpc, hobj, hu⟩
  | @starting t' th hst =>
    obtain rfl := hi.alone t t' o huses (Pc.uses_of_makes hst.makes)
    exact .inr (.inl ⟨th, hst⟩)
  | @made th hm => exact .inr (.inr ⟨th, hm, (hm.users t huses).1⟩)
  | gone hg => exact absurd huses (hg.free t)
  | failed hf _ _ => exact absurd huses (hf t)

theorem Inv.at_create (hi : Inv s) (h : (s.threads t).pc = .create o) :
    s.objs o = some (.new (s.given o).1 (s.given o).2) ∧ (s.threads (.of o)).pc = .unborn := by
  rcases hi.use_cases (by rw [h, Pc.uses]) with ⟨-, hc⟩ | ⟨th, hst⟩ | ⟨th, -, hpc⟩
  · exact hc
  · rcases hst.at_ with ⟨hpc, -⟩ | ⟨hpc, -⟩ <;> simp [h] at hpc
  · simp [h] at hpc

/-- The thread in the constructor. -/
theorem Inv.at_start (hi : Inv s) (h : (s.threads t).pc = .store o ∨ (s.threads t).pc = .wait o)
    (hobj : s.objs o = some th) : Starting s o t th := by
  have huses : (s.threads t).pc.uses = some o := by rcases h with h | h <;> rw [h] <;> rfl
  rcases hi.use_cases huses with ⟨hpc, -⟩ | ⟨th', hst⟩ | ⟨th', -, hpc⟩
  · rcases h with h | h <;> simp [h] at hpc
  · obtain rfl := Option.some.inj (hobj.symm.trans hst.obj)
    exact hst
  · rcases h with h | h <;> simp [h] at hpc

theorem Inv.at_join (hi : Inv s) (h : (s.threads t).pc = .join o) : ∃ th, Made s o th := by
  rcases hi.use_cases (by rw [h, Pc.uses]) with ⟨hpc, -⟩ | ⟨th, hst⟩ | ⟨th, hm, -⟩
  · simp [h] at hpc
  · rcases hst.at_ with ⟨hpc, -⟩ | ⟨hpc, -⟩ <;> simp [h] at hpc
  · exact ⟨th, hm⟩

/-- An object that no constructor is at. -/
theorem Inv.at_made (hi : Inv s) (hobj : s.objs o = some th) (h : ∀ t, (s.threads t).pc.makes ≠ some o) :
    Made s o th := by
  cases hi.stage o (hi.lt_of_obj hobj) with
  | @creating t hpc _ _ => exact absurd (by rw [hpc, Pc.makes]) (h t)
  | @starting t _ hst => exact absurd hst.makes (h t)
  | made hm => exact Option.some.inj (hobj.symm.trans hm.obj) ▸ hm
  | gone hg => exact absurd (hobj.symm.trans hg.obj) (by simp)
  | failed _ ho _ => exact absurd (hobj.symm.trans ho) (by simp)

theorem Inv.at_free (hi : Inv s) (hobj : s.objs o = some th) (h : s.Free o) : Made s o th :=
  hi.at_made hobj fun t ht => h t (Pc.uses_of_makes ht)

/-- Run has not notified. -/
theorem Inv.at_run (hi : Inv s) (hobj : s.objs o = some th) (h : (s.threads (.of o)).pc.line ≤ 6)
    (hu : (s.threads (.of o)).pc ≠ .unborn) : ∃ t, Starting s o t th := by
  cases hi.stage o (hi.lt_of_obj hobj) with
  | creating _ _ hu' => exact absurd hu' hu
  | starting hst => exact ⟨_, Option.some.inj (hobj.symm.trans hst.obj) ▸ hst⟩
  | made hm => exact absurd hm.line (by omega)
  | gone hg => exact absurd hg.line (by omega)
  | failed _ _ hu' => exact absurd hu' hu

theorem near {p : Pc} (h : p.uses = none ∨ p.uses = some o) {o' : Nat} (hne : o' ≠ o) : p.uses ≠ some o' := by
  rcases h with h | h <;> simp [h, hne.symm]

/-- `t` goes on to `q`; all that changes besides is `o` and its thread. -/
theorem Inv.move {p q : Pc} (hi : Inv s) (hpc : (s.threads t).pc = p) (hp : p.line = 8 ∧ p ≠ .ended) (hq : q.line = 8)
    (hbefore : p.uses = none ∨ p.uses = some o) (hafter : q.uses = none ∨ q.uses = some o)
    (hobjs : ∀ o' ≠ o, s'.objs o' = s.objs o') (hgiven : ∀ o' ≠ o, s'.given o' = s.given o')
    (hmade : ∀ o' ≠ o, o' < s'.made ↔ o' < s.made) (ht : s'.threads t = { s.threads t with pc := q })
    (hthreads : ∀ t' ≠ t, t' ≠ .of o → s'.threads t' = s.threads t')
    (hself : t ≠ .of o → (s'.threads (.of o)).pc = (s.threads (.of o)).pc ∨
      (s.threads (.of o)).pc.uses = none ∧ (s'.threads (.of o)).pc.uses = none)
    (halone : ∀ t' ≠ t, (s.threads t').pc.uses ≠ some o) (ho : o < s'.made) (hstage : Stage s' o) : Inv s' := by
  have hpc₂ : (s'.threads t).pc = q := by rw [ht]
  refine hi.frame (t := t) (o := o) ⟨hobjs, hgiven, hmade, hthreads, fun _ => ?_, fun t' o' hne => ?_⟩
    ho hstage (.inl ?_)
  · exact ⟨by rw [ht], hpc.symm ▸ hp, hpc₂.symm ▸ hq⟩
  · by_cases htt : t' = t
    · rw [htt, hpc, hpc₂]
      exact .inr ⟨near hbefore hne, near hafter hne⟩
    · by_cases hto : t' = .of o
      · rcases hself (hto ▸ Ne.symm htt) with heq | ⟨h, h'⟩
        · exact .inl (hto ▸ heq)
        · rw [hto, h, h']
          exact .inr ⟨by simp, by simp⟩
      · exact .inl (by rw [hthreads t' htt hto])
  · intro t' htt
    by_cases hto : t' = .of o
    · rcases hself (hto ▸ Ne.symm htt) with heq | ⟨-, h'⟩
      · rw [hto, heq, ← hto]
        exact halone t' htt
      · rw [hto, h']
        simp
    · rw [hthreads t' htt hto]
      exact halone t' htt

@[simp] theorem goto_self (s : State) (t : Tid) (pc : Pc) : (s.goto t pc).threads t = { s.threads t with pc := pc } :=
  set_self ..

@[simp] theorem goto_other {t' : Tid} {pc : Pc} (h : t' ≠ t) : (s.goto t pc).threads t' = s.threads t' := set_other h

theorem Inv.construct (hi : Inv s) (hpc : (s.threads t).pc = .user) (cb : CbId) (name : String) :
    Inv { (s.goto t (.create s.made)).put s.made (some (.new cb name)) with
      given := Function.update s.given s.made (cb, name), made := s.made + 1 } := by
  obtain ⟨-, hfree, hu⟩ := hi.unmade s.made (Nat.le_refl _)
  have hne : .of s.made ≠ t := by
    rintro rfl
    simp [hu] at hpc
  refine hi.move (o := s.made) hpc (by simp [Pc.line]) rfl (.inl rfl) (.inr rfl) (fun _ h => put_other h)
    (fun _ h => Function.update_of_ne h ..) (fun o' h => ?_) (goto_self ..) (fun _ ht _ => goto_other ht)
    (fun _ => .inl (congrArg Running.pc (goto_other hne))) (fun t' _ => hfree t') (Nat.lt_succ_self _) ?_
  · show o' < s.made + 1 ↔ _
    omega
  · refine .creating (t := t) (congrArg Running.pc (goto_self ..)) ?_ ((congrArg Running.pc (goto_other hne)).trans hu)
    simp [State.put]

/-- No other thread is where `t` is. -/
theorem Inv.no_other (hi : Inv s) (h : (s.threads t).pc.uses = some o) : ∀ t' ≠ t, (s.threads t').pc.uses ≠ some o :=
  fun t' hne h' => hne (hi.alone t' t o h' h)

theorem Inv.create (hi : Inv s) (hpc : (s.threads t).pc = .create o) :
    Inv ((s.goto t (.store o)).set (.of o) ⟨.self, none, "UNKNOW", "", none, [], .joinable⟩) := by
  obtain ⟨hobj, hu⟩ := hi.at_create hpc
  have huses : (s.threads t).pc.uses = some o := by rw [hpc, Pc.uses]
  have hne : t ≠ .of o := by
    rintro rfl
    simp [hu] at hpc
  refine hi.move hpc (by simp [Pc.line]) (q := .store o) rfl (.inr rfl) (.inr rfl) (fun _ _ => rfl) (fun _ _ => rfl)
    (fun _ _ => Iff.rfl) ?_ (fun t' ht ho => ?_) (fun _ => .inr ?_) (hi.no_other huses) (hi.lt huses) ?_
  · rw [set_other hne, goto_self]
  · rw [set_other ho, goto_other ht]
  · simp [hu, Pc.uses]
  · refine .starting (show Starting _ o t (.new _ _) from ⟨hne, .inl ⟨?_, rfl⟩, hobj, ?_, ?_, ?_, ?_⟩)
    · rw [set_other hne, goto_self]
    · rw [set_self]
      refine ⟨?_, ?_, ?_, ?_, ?_⟩ <;> simp [Pc.line]
    · rw [set_self]
      refine ⟨fun _ => rfl, ?_, ?_, ?_⟩
      · simp [Pc.line]
      · simp [Pc.line]
      · rfl
    · simp [Pc.line, Thread.new]
    · simp

theorem Inv.createFails (hi : Inv s) (hpc : (s.threads t).pc = .create o) : Inv ((s.goto t .user).put o none) := by
  obtain ⟨-, hu⟩ := hi.at_create hpc
  have huses : (s.threads t).pc.uses = some o := by rw [hpc, Pc.uses]
  have hne : .of o ≠ t := by
    rintro rfl
    simp [hu] at hpc
  have hno := hi.no_other huses
  refine hi.move hpc (by simp [Pc.line]) rfl (.inr rfl) (.inl rfl) (fun _ h => put_other h) (fun _ _ => rfl)
    (fun _ _ => Iff.rfl) (goto_self ..) (fun _ ht _ => goto_other ht)
    (fun _ => .inl (congrArg Running.pc (goto_other hne))) hno (hi.lt huses) (.failed (fun t' => ?_) (put_self ..) ?_)
  · show ((s.goto t .user).threads t').pc.uses ≠ some o
    by_cases ht : t' = t
    · simp [ht, Pc.uses]
    · rw [goto_other ht]
      exact hno t' ht
  · exact (congrArg Running.pc (goto_other hne)).trans hu

theorem Inv.store (hi : Inv s) (hpc : (s.threads t).pc = .store o) (hobj : s.objs o = some th) :
    Inv ((s.goto t (.wait o)).put o (some { th with m_thread := some (.of o) })) := by
  have hst := hi.at_start (.inl hpc) hobj
  have huses : (s.threads t).pc.uses = some o := by rw [hpc, Pc.uses]
  have hself : ((s.goto t (.wait o)).put o (some { th with m_thread := some (.of o) })).threads (.of o) =
      s.threads (.of o) := goto_other hst.ne.symm
  refine hi.move hpc (by simp [Pc.line]) (q := .wait o) rfl (.inr rfl) (.inr rfl) (fun _ h => put_other h)
    (fun _ _ => rfl) (fun _ _ => Iff.rfl) (goto_self ..) (fun _ ht _ => goto_other ht)
    (fun _ => .inl (congrArg Running.pc hself)) (hi.no_other huses) (hi.lt huses) ?_
  refine .starting (t := t) ⟨hst.ne, .inr ⟨congrArg Running.pc (goto_self ..), rfl⟩, put_self .., ?_, ?_, ?_, ?_⟩
  · exact hself ▸ hst.own
  · rw [hself]
    exact hst.shared.mark _ _ _
  · rw [hself]
    exact hst.sem
  · exact hself ▸ hst.handle

theorem Inv.wait (hi : Inv s) (hpc : (s.threads t).pc = .wait o) (hobj : s.objs o = some th)
    (hsem : 0 < th.m_semaphore) :
    Inv ((s.goto t .user).put o (some { th with m_semaphore := th.m_semaphore - 1 })) := by
  have hst := hi.at_start (.inr hpc) hobj
  have huses : (s.threads t).pc.uses = some o := by rw [hpc, Pc.uses]
  have hself : ((s.goto t .user).put o (some { th with m_semaphore := th.m_semaphore - 1 })).threads (.of o) =
      s.threads (.of o) := goto_other hst.ne.symm
  have hthread : th.m_thread = some (.of o) := by
    rcases hst.at_ with ⟨h, -⟩ | ⟨-, h⟩
    · simp [hpc] at h
    · exact h
  have hline : ¬(s.threads (.of o)).pc.line ≤ 6 := fun hle => by
    rw [hst.sem, if_pos hle] at hsem
    exact absurd hsem (Nat.lt_irrefl 0)
  have hno := hi.no_other huses
  refine hi.move hpc (by simp [Pc.line]) (q := .user) rfl (.inr rfl) (.inl rfl) (fun _ h => put_other h)
    (fun _ _ => rfl) (fun _ _ => Iff.rfl) (goto_self ..) (fun _ ht _ => goto_other ht)
    (fun _ => .inl (congrArg Running.pc hself)) hno (hi.lt huses) ?_
  refine .made ⟨fun t' ht' => ?_, put_self .., ?_, ?_, ?_, ?_, ?_⟩
  · replace ht' : ((s.goto t .user).threads t').pc.uses = some o := ht'
    by_cases ht : t' = t
    · simp [ht, Pc.uses] at ht'
    · rw [goto_other ht] at ht'
      exact absurd ht' (hno t' ht)
  · rw [hself]
    omega
  · exact hself ▸ hst.own
  · rw [hself]
    exact hst.shared.mark _ _ _
  · simp [hst.sem, hline]
  · exact hself ▸ .inl ⟨hthread, hst.handle⟩

theorem Made.goto {pc : Pc} (h : Made s o th) (h8 : (s.threads t).pc.line = 8) (hne : (s.threads t).pc ≠ .ended)
    (h8' : pc.line = 8) (hpc : pc = .join o ∧ th.m_thread ≠ none ∨ pc.uses = none) : Made (s.goto t pc) o th := by
  have hself : (s.goto t pc).threads (.of o) = s.threads (.of o) ∨
      Quiet (s.threads (.of o)) ((s.goto t pc).threads (.of o)) := by
    by_cases ht : .of o = t
    · refine .inr ?_
      rw [ht, goto_self]
      exact ⟨rfl, ⟨h8, hne⟩, h8'⟩
    · exact .inl (goto_other ht)
  refine ⟨fun t' ht' => ?_, h.obj, ?_, ?_, ?_, h.sem, ?_⟩
  · by_cases ht : t' = t
    · rw [ht, goto_self] at ht' ⊢
      exact hpc.resolve_right fun hno => by simp [hno] at ht'
    · rw [goto_other ht] at ht' ⊢
      exact h.users t' ht'
  · rcases hself with heq | hq
    · exact heq ▸ h.line
    · rw [hq.after]
      decide
  · rcases hself with heq | hq
    · exact heq ▸ h.own
    · exact hq.own h.own
  · rcases hself with heq | hq
    · exact heq ▸ h.shared
    · exact hq.shared h.shared
  · rcases hself with heq | hq
    · exact heq ▸ h.held
    · exact hq.held h.held

theorem Inv.join (hi : Inv s) (hpc : (s.threads t).pc = .user) (hobj : s.objs o = some th) (hf : s.Free o)
    (hth : th.m_thread ≠ none) : Inv (s.goto t (.join o)) :=
  hi.move hpc (by simp [Pc.line]) (q := .join o) rfl (.inl rfl) (.inr rfl) (fun _ _ => rfl) (fun _ _ => rfl)
    (fun _ _ => Iff.rfl) (goto_self ..) (fun _ ht _ => goto_other ht)
    (fun ht => .inl (congrArg Running.pc (goto_other ht.symm))) (fun t' _ => hf t') (hi.lt_of_obj hobj)
    (.made ((hi.at_free hobj hf).goto (by simp [hpc, Pc.line]) (by simp [hpc]) rfl (.inl ⟨rfl, hth⟩)))

theorem Inv.joinFails (hi : Inv s) (hpc : (s.threads t).pc = .join o) : Inv (s.goto t .user) := by
  have huses : (s.threads t).pc.uses = some o := by rw [hpc, Pc.uses]
  obtain ⟨th, hm⟩ := hi.at_join hpc
  exact hi.move hpc (by simp [Pc.line]) (q := .user) rfl (.inr rfl) (.inl rfl) (fun _ _ => rfl) (fun _ _ => rfl)
    (fun _ _ => Iff.rfl) (goto_self ..) (fun _ ht _ => goto_other ht)
    (fun ht => .inl (congrArg Running.pc (goto_other ht.symm))) (hi.no_other huses) (hi.lt huses)
    (.made (hm.goto (by simp [hpc, Pc.line]) (by simp [hpc]) rfl (.inr rfl)))

theorem Made.handle_of {u : Tid} (h : Made s o th) (hu : th.m_thread = some u) :
    u = .of o ∧ (s.threads (.of o)).handle = .joinable := by
  rcases h.held with ⟨hth, hr⟩ | ⟨hth, -⟩
  · exact ⟨Option.some.inj (hu.symm.trans hth), hr⟩
  · simp [hu] at hth

theorem Inv.joined {u : Tid} (hi : Inv s) (hpc : (s.threads t).pc = .join o) (hobj : s.objs o = some th)
    (hu : th.m_thread = some u) (hend : (s.threads u).pc = .ended) :
    Inv (((s.mark u .joined).goto t .user).put o (some { th with m_thread := none })) := by
  obtain ⟨th', hm⟩ := hi.at_join hpc
  obtain rfl := Option.some.inj (hobj.symm.trans hm.obj)
  obtain ⟨rfl, -⟩ := hm.handle_of hu
  have huses : (s.threads t).pc.uses = some o := by rw [hpc, Pc.uses]
  have hno := hi.no_other huses
  have hne : t ≠ .of o := by
    rintro rfl
    simp [hpc] at hend
  have hself : (((s.mark (.of o) .joined).goto t .user).put o (some { th with m_thread := none })).threads (.of o) =
      { s.threads (.of o) with handle := .joined } := (goto_other hne.symm).trans (mark_self ..)
  have hother : ∀ t' ≠ t, t' ≠ .of o → ((s.mark (.of o) .joined).goto t .user).threads t' = s.threads t' :=
    fun t' ht ho => (goto_other ht).trans (mark_other ho)
  refine hi.move hpc (by simp [Pc.line]) (q := .user) rfl (.inr rfl) (.inl rfl) (fun _ h => put_other h)
    (fun _ _ => rfl) (fun _ _ => Iff.rfl) ?_ hother (fun _ => .inl (by rw [hself])) hno (hi.lt huses) ?_
  · refine (goto_self ..).trans ?_
    rw [mark_other hne]
  · refine .made ⟨fun t' ht' => ?_, put_self .., ?_, ?_, ?_, hm.sem, ?_⟩
    · replace ht' : (((s.mark (.of o) .joined).goto t .user).threads t').pc.uses = some o := ht'
      by_cases ht : t' = t
      · simp [ht, Pc.uses] at ht'
      · by_cases ho : t' = .of o
        · rw [ho, goto_other hne.symm, mark_self] at ht'
          simp [hend, Pc.uses] at ht'
        · rw [hother t' ht ho] at ht'
          exact absurd ht' (hno t' ht)
    · rw [hself]
      exact hm.line
    · rw [hself]
      exact hm.own.mark _
    · rw [hself]
      exact hm.shared.mark _ _ _
    · rw [hself]
      exact .inr ⟨rfl, rfl, hend⟩

/-- A step of the object's own thread, or one that no thread's place changes in. -/
theorem Inv.within (hi : Inv s) (ho : o < s.made) (hobjs : ∀ o' ≠ o, s'.objs o' = s.objs o')
    (hgiven : s'.given = s.given) (hmade : s'.made = s.made) (hthreads : ∀ t' ≠ .of o, s'.threads t' = s.threads t')
    (huses : (s'.threads (.of o)).pc = (s.threads (.of o)).pc ∨
      (s.threads (.of o)).pc.uses = none ∧ (s'.threads (.of o)).pc.uses = none) (hstage : Stage s' o) : Inv s' := by
  have hpc : ∀ t', (s'.threads t').pc = (s.threads t').pc ∨
      (s.threads t').pc.uses = none ∧ (s'.threads t').pc.uses = none := by
    intro t'
    by_cases ht : t' = .of o
    · exact ht ▸ huses
    · exact .inl (by rw [hthreads t' ht])
  refine hi.frame (t := .of o) ⟨hobjs, fun _ _ => by rw [hgiven], fun _ _ => by rw [hmade],
    fun t' ht _ => hthreads t' ht, fun h => absurd rfl h, fun t' o' _ => ?_⟩ (hmade ▸ ho) hstage (.inr fun t' ht' => ?_)
  · exact (hpc t').imp_right fun h => by simp [h]
  · rcases hpc t' with heq | ⟨-, h⟩
    · exact heq ▸ ht'
    · simp [h] at ht'

theorem Inv.destroy (hi : Inv s) (hobj : s.objs o = some th) (hf : s.Free o) : Inv (Threads.destroy s o th) := by
  have hm := hi.at_free hobj hf
  have hlt := hi.lt_of_obj hobj
  rcases hm.held with ⟨hth, -⟩ | ⟨hth, hj, hend⟩
  · simp only [Threads.destroy, hth]
    have hself : ((s.mark (.of o) .detached).put o none).threads (.of o) =
        { s.threads (.of o) with handle := .detached } := mark_self ..
    refine hi.within hlt (fun _ h => put_other h) rfl rfl (fun _ h => mark_other h) (.inl (by rw [hself]))
      (.gone ⟨fun t' ht' => ?_, put_self .., ?_, ?_, ?_⟩)
    · replace ht' : ((s.mark (.of o) .detached).threads t').pc.uses = some o := ht'
      by_cases ho : t' = .of o
      · rw [ho, mark_self] at ht'
        exact hf (.of o) ht'
      · rw [mark_other ho] at ht'
        exact hf t' ht'
    · rw [hself]
      exact hm.line
    · rw [hself]
      exact hm.own.mark _
    · rw [hself]
      exact .inl rfl
  · simp only [Threads.destroy, hth]
    exact hi.within hlt (fun _ h => put_other h) rfl rfl (fun _ _ => rfl) (.inl rfl)
      (.gone ⟨hf, put_self .., hm.line, hm.own, .inr ⟨hj, hend⟩⟩)

theorem Inv.run (hi : Inv s) (hobj : s.objs o = some th) (h : run o (s.threads (.of o)) th = some (r', th')) :
    Inv ((s.set (.of o) r').put o (some th')) := by
  have hline : (s.threads (.of o)).pc.line ≤ 6 ∧ (s.threads (.of o)).pc ≠ .unborn := by
    cases hpc : (s.threads (.of o)).pc <;> simp [Threads.run, hpc, Pc.line] at h ⊢
  obtain ⟨t, hst⟩ := hi.at_run hobj hline.1 hline.2
  obtain ⟨hown, hshared, -, hno', hno, hhandle, hthread, hsem⟩ := run_keeps h hst.own hst.shared
  have hself : ((s.set (.of o) r').put o (some th')).threads (.of o) = r' := set_self ..
  have ht : ((s.set (.of o) r').put o (some th')).threads t = s.threads t := set_other hst.ne
  refine hi.within (hi.lt_of_obj hobj) (fun _ h => put_other h) rfl rfl (fun _ h => set_other h)
    (.inr ⟨hno, by rw [hself, hno']⟩) (.starting (t := t) ⟨hst.ne, ?_, put_self .., ?_, ?_, ?_, ?_⟩)
  · rw [ht, hthread]
    exact hst.at_
  · rw [hself]
    exact hown
  · rw [hself]
    exact hshared
  · rw [hself, hsem, hst.sem, if_pos hline.1, Nat.zero_add]
  · rw [hself, hhandle, hst.handle]

/-- The thread goes on past `notify`. -/
theorem Inv.goOn (hi : Inv s) (hline : 7 ≤ (s.threads (.of o)).pc.line) (hend : (s.threads (.of o)).pc ≠ .ended)
    (hno : (s.threads (.of o)).pc.uses = none) {f : Thread → Thread}
    (hf : ∀ th, (f th).m_thread = th.m_thread ∧ (f th).m_semaphore = th.m_semaphore)
    (hobjs : ∀ o' ≠ o, s'.objs o' = s.objs o') (hobj : s'.objs o = (s.objs o).map f) (hgiven : s'.given = s.given)
    (hmade : s'.made = s.made) (hthreads : ∀ t' ≠ .of o, s'.threads t' = s.threads t') (hr : s'.threads (.of o) = r')
    (hno' : r'.pc.uses = none) (hline' : 7 ≤ r'.pc.line) (hhandle : r'.handle = (s.threads (.of o)).handle)
    (hown : Own o (s.given o) (s.threads (.of o)) → Own o (s.given o) r')
    (hshared : ∀ th, Shared o (s.given o) (s.threads (.of o)) th → Shared o (s.given o) r' (f th)) : Inv s' := by
  have hlt : o < s.made := by
    by_contra hlt
    exact absurd hline (by simp [(hi.unmade o (Nat.not_lt.mp hlt)).2.2, Pc.line])
  have hback : ∀ t, (s'.threads t).pc.uses = some o → s'.threads t = s.threads t := by
    intro t ht
    by_cases hto : t = .of o
    · rw [hto, hr, hno'] at ht
      cases ht
    · exact hthreads t hto
  subst hr
  refine hi.within hlt hobjs hgiven hmade hthreads (.inr ⟨hno, hno'⟩) ?_
  cases hi.stage o hlt with
  | creating _ _ hu => exact absurd hline (by simp [hu, Pc.line])
  | @starting t th hst =>
    refine .starting (show Starting s' o t (f th) from
      ⟨hst.ne, ?_, by rw [hobj, hst.obj, Option.map_some], ?_, ?_, ?_, ?_⟩)
    · rw [hthreads t hst.ne, (hf th).1]
      exact hst.at_
    · rw [hgiven]
      exact hown hst.own
    · rw [hgiven]
      exact hshared th hst.shared
    · rw [(hf th).2, hst.sem, if_neg (by omega), if_neg (by omega)]
    · exact hhandle.trans hst.handle
  | @made th hm =>
    refine .made (show Made s' o (f th) from
      ⟨fun t ht => ?_, by rw [hobj, hm.obj, Option.map_some], hline', ?_, ?_, ?_, ?_⟩)
    · have heq := hback t ht
      rw [heq] at ht ⊢
      rw [(hf th).1]
      exact hm.users t ht
    · rw [hgiven]
      exact hown hm.own
    · rw [hgiven]
      exact hshared th hm.shared
    · exact (hf th).2.trans hm.sem
    · rcases hm.held with ⟨hth, hj⟩ | ⟨-, -, he⟩
      · exact .inl ⟨(hf th).1.trans hth, hhandle.trans hj⟩
      · exact absurd he hend
  | gone hg =>
    refine .gone ⟨fun t ht => hg.free t (hback t ht ▸ ht), by rw [hobj, hg.obj, Option.map_none], hline', ?_, ?_⟩
    · rw [hgiven]
      exact hown hg.own
    · exact hg.handle.imp (hhandle.trans ·) fun h => absurd h.2 hend
  | failed _ _ hu => exact absurd hline (by simp [hu, Pc.line])

theorem Inv.call (hi : Inv s) (hpc : (s.threads (.of o)).pc = .call) {cb : CbId}
    (hcb : (s.threads (.of o)).cb = some cb) :
    Inv (s.set (.of o) { s.threads (.of o) with pc := .user, called := (s.threads (.of o)).called ++ [cb] }) := by
  refine hi.goOn (f := id) (by simp [hpc, Pc.line]) (by simp [hpc]) (by simp [hpc, Pc.uses]) (fun _ => ⟨rfl, rfl⟩)
    (fun _ _ => rfl) Option.map_id'.symm rfl rfl (fun _ h => set_other h) (set_self ..) rfl (by simp [Pc.line])
    rfl ?_ ?_
  · intro h
    have hgiven : cb = (s.given o).1 := by
      have := hcb.symm.trans h.cb
      simpa [hpc, Pc.line] using this
    refine ⟨by simp [Pc.line], fun _ => h.self (by simp [hpc, Pc.line]), fun _ => h.comm (by simp [hpc, Pc.line]),
      ?_, ?_⟩
    · rw [hcb, hgiven]
      rfl
    · simp [h.called, hpc, Pc.line, hgiven]
  · intro th h
    refine ⟨by simp [Pc.line], fun _ => h.name (by simp [hpc, Pc.line]), fun _ => h.id (by simp [hpc, Pc.line]), ?_⟩
    simpa [hpc, Pc.line] using h.cb

theorem Inv.finish (hi : Inv s) (hpc : (s.threads (.of o)).pc = .user) : Inv (s.goto (.of o) .ended) := by
  have hq : Quiet (s.threads (.of o)) { s.threads (.of o) with pc := .ended } :=
    ⟨rfl, by simp [hpc, Pc.line], rfl⟩
  exact hi.goOn (f := id) (by simp [hpc, Pc.line]) (by simp [hpc]) (by simp [hpc, Pc.uses]) (fun _ => ⟨rfl, rfl⟩)
    (fun _ _ => rfl) Option.map_id'.symm rfl rfl (fun _ h => set_other h) (set_self ..) rfl (by simp [Pc.line]) rfl
    hq.own fun _ => hq.shared

theorem Inv.own (hi : Inv s) (h : 1 ≤ (s.threads (.of o)).pc.line) :
    o < s.made ∧ Own o (s.given o) (s.threads (.of o)) := by
  have hunborn : (s.threads (.of o)).pc ≠ .unborn := by
    intro hu
    simp [hu, Pc.line] at h
  have hlt : o < s.made := by
    by_contra hlt
    exact hunborn (hi.unmade o (Nat.not_lt.mp hlt)).2.2
  cases hi.stage o hlt with
  | creating _ _ hu => exact absurd hu hunborn
  | starting h => exact ⟨hlt, h.own⟩
  | made h => exact ⟨hlt, h.own⟩
  | gone h => exact ⟨hlt, h.own⟩
  | failed _ _ hu => exact absurd hu hunborn

/-- A thread without an object renames itself. -/
theorem Inv.rename (hi : Inv s) (n : Nat) (name : String) :
    Inv (s.set (.other n) { s.threads (.other n) with t_thread_name := name }) := by
  have hpc : ∀ t, ((s.set (.other n) { s.threads (.other n) with t_thread_name := name }).threads t).pc =
      (s.threads t).pc := by
    intro t
    by_cases ht : t = .other n
    · rw [ht, set_self]
    · rw [set_other ht]
  refine ⟨fun o ho => ?_, fun o ho => (hi.stage o ho).other rfl rfl (.inl (set_other (by simp))) fun t => .inl (hpc t),
    fun t t' o ht ht' => hi.alone t t' o (hpc t ▸ ht) (hpc t' ▸ ht'), fun m => ⟨?_, ?_⟩⟩
  · obtain ⟨hobj, hf, hu⟩ := hi.unmade o ho
    exact ⟨hobj, fun t ht => hf t (hpc t ▸ ht), (hpc _).trans hu⟩
  · rw [hpc]
    exact (hi.other m).1
  · by_cases hm : m = n
    · rw [hm, set_self]
      exact (hi.other n).2
    · rw [set_other (by simpa using hm)]
      exact (hi.other m).2

theorem Inv.setName (hi : Inv s) (hpc : (s.threads t).pc = .user) (name : String) : Inv (SetName s t name) := by
  by_cases hname : name = ""
  · rw [SetName, if_pos hname]
    exact hi
  rw [SetName, if_neg hname]
  cases t with
  | other n =>
    split
    · exact hi.rename n name
    · next hself => exact absurd ((hi.other n).2.symm.trans hself) (by simp)
  | of o =>
    have hself := (hi.own (o := o) (by simp [hpc, Pc.line])).2.self (by simp [hpc, Pc.line])
    split
    · next hnone => exact absurd (hnone.symm.trans hself) (by simp)
    next o' hself' =>
    obtain rfl : o' = o := Option.some.inj (hself'.symm.trans hself)
    refine hi.goOn (f := fun th => { th with m_name := name }) (by simp [hpc, Pc.line]) (by simp [hpc])
      (by simp [hpc, Pc.uses]) (fun _ => ⟨rfl, rfl⟩) (fun _ h => put_other h) (put_self ..) rfl rfl
      (fun _ h => set_other h) (set_self ..) (by simp [hpc, Pc.uses]) (by simp [hpc, Pc.line]) rfl ?_ ?_
    · exact fun h => ⟨h.born, h.self, h.comm, h.cb, h.called⟩
    · exact fun th h => ⟨fun hle => absurd hle (by simp [hpc, Pc.line]), fun _ => rfl, h.id, h.cb⟩

theorem step_inv (hi : Inv s) (hw : Waits s a) (h : Step s a s') : Inv s' := by
  cases h with
  | construct t cb name hpc => exact hi.construct hpc cb name
  | create t o hpc => exact hi.create hpc
  | createFails t o hpc => exact hi.createFails hpc
  | store t o th hpc hobj => exact hi.store hpc hobj
  | wait t o th hpc hobj hsem => exact hi.wait hpc hobj hsem
  | waitFails => exact absurd hw id
  | run o th th' r' hobj hrun => exact hi.run hobj hrun
  | call o cb hpc hcb => exact hi.call hpc hcb
  | finish o hpc => exact hi.finish hpc
  | setName t name hpc _ => exact hi.setName hpc name
  | joinNone => exact hi
  | join t o th hpc hobj hf hth => exact hi.join hpc hobj hf hth
  | joined t o th u hpc hobj hu hend => exact hi.joined hpc hobj hu hend
  | joinFails t o hpc => exact hi.joinFails hpc
  | destroy t o th _ hobj hf => exact hi.destroy hobj hf

theorem reach_inv (h : Reach s) : Inv s :=
  h.inv (fun _ => Start.inv) fun _ _ _ hi hst => step_inv hi hst.1 hst.2

/-! ## The handshake -/

/-- The next line of a constructor, of a join, or of run up to the callback is about `o`. -/
def Touches (s : State) (t : Tid) (o : Nat) : Prop :=
  (s.threads t).pc.uses = some o ∨ t = .of o ∧ 1 ≤ (s.threads t).pc.line ∧ (s.threads t).pc.line ≤ 6

/-- The constructor has returned. -/
def Constructed (s : State) (o : Nat) : Prop := ∀ t, (s.threads t).pc.makes ≠ some o

structure Handshake (s : State) : Prop where
  there : ∀ t o, Touches s t o → (s.objs o).isSome
  /-- A constructor waits, and its thread can move. -/
  moves : ∀ t o th, (s.threads t).pc = .wait o → s.objs o = some th → th.m_semaphore = 0 → ∃ s', Step s (.run o) s'
  ready : ∀ o th, s.objs o = some th → Constructed s o → th.m_id = some (.of o) ∧ th.m_cb = none ∧
    th.m_semaphore = 0 ∧ (s.threads (.of o)).t_thread_name = th.m_name
  /-- The callback is called by the object's thread, once. -/
  called : ∀ o, (s.threads (.of o)).pc ≠ .unborn → (s.threads (.of o)).called =
    if (s.threads (.of o)).pc.line ≤ 7 then [] else [(s.given o).1]
  /-- The system's name stays the first one, cut. -/
  comm : ∀ o, 5 ≤ (s.threads (.of o)).pc.line →
    (s.threads (.of o)).comm = shortName (if (s.given o).2 = "" then "UNKNOW" else (s.given o).2)
  /-- What join waited for. -/
  joined : ∀ o th, s.objs o = some th → Constructed s o → th.m_thread = none →
    (s.threads (.of o)).pc = .ended ∧ (s.threads (.of o)).called = [(s.given o).1]
  /-- No handle is joined or detached twice. -/
  handle : ∀ o th u, s.objs o = some th → th.m_thread = some u → u = .of o ∧ (s.threads u).handle = .joinable
  /-- Which thread has lost its object. -/
  lost : ∀ o, (s.threads (.of o)).pc = .user → (s.objs o = none ↔ (s.threads (.of o)).handle = .detached)

theorem Inv.there (hi : Inv s) (h : Touches s t o) : (s.objs o).isSome := by
  have hlt : o < s.made := by
    rcases h with h | ⟨rfl, h, -⟩
    · exact hi.lt h
    · exact (hi.own h).1
  cases hi.stage o hlt with
  | creating _ hobj _ => simp [hobj]
  | starting hst => simp [hst.obj]
  | made hm => simp [hm.obj]
  | gone hg =>
    rcases h with h | ⟨rfl, -, h⟩
    · exact absurd h (hg.free t)
    · exact absurd hg.line (by omega)
  | failed hf _ hu =>
    rcases h with h | ⟨rfl, h, -⟩
    · exact absurd h (hf t)
    · simp [hu, Pc.line] at h

/-- A thread in the lines of run has one more to go. -/
theorem run_isSome (o : Nat) (th : Thread) (h : 1 ≤ r.pc.line) (h' : r.pc.line ≤ 6) : (run o r th).isSome := by
  cases hpc : r.pc <;> simp [hpc, Pc.line] at h h' <;> simp [run, hpc]

theorem Inv.moves (hi : Inv s) (hpc : (s.threads t).pc = .wait o) (hobj : s.objs o = some th)
    (hsem : th.m_semaphore = 0) : ∃ s', Step s (.run o) s' := by
  have hst := hi.at_start (.inr hpc) hobj
  have hline : (s.threads (.of o)).pc.line ≤ 6 := by
    by_contra hline
    simp [hst.sem, hline] at hsem
  obtain ⟨⟨r', th'⟩, hrun⟩ := Option.isSome_iff_exists.mp (run_isSome o th hst.own.born hline)
  exact ⟨_, .run o th th' r' hobj hrun⟩

theorem Inv.handle (hi : Inv s) {u : Tid} (hobj : s.objs o = some th) (hu : th.m_thread = some u) :
    u = .of o ∧ (s.threads u).handle = .joinable := by
  cases hi.stage o (hi.lt_of_obj hobj) with
  | creating _ h _ =>
    obtain rfl := Option.some.inj (hobj.symm.trans h)
    cases hu
  | starting h =>
    obtain rfl := Option.some.inj (hobj.symm.trans h.obj)
    rcases h.at_ with ⟨-, hth⟩ | ⟨-, hth⟩
    · simp [hu] at hth
    · obtain rfl := Option.some.inj (hu.symm.trans hth)
      exact ⟨rfl, h.handle⟩
  | made h =>
    obtain rfl := Option.some.inj (hobj.symm.trans h.obj)
    obtain ⟨rfl, hj⟩ := h.handle_of hu
    exact ⟨rfl, hj⟩
  | gone h => simp [h.obj] at hobj
  | failed _ h _ => simp [h] at hobj

theorem Inv.lost (hi : Inv s) (hpc : (s.threads (.of o)).pc = .user) :
    s.objs o = none ↔ (s.threads (.of o)).handle = .detached := by
  cases hi.stage o (hi.own (by simp [hpc, Pc.line])).1 with
  | creating _ _ hu => simp [hpc] at hu
  | starting h => simp [h.obj, h.handle]
  | made h =>
    rcases h.held with ⟨-, hj⟩ | ⟨-, -, hend⟩
    · simp [h.obj, hj]
    · simp [hpc] at hend
  | gone h =>
    rcases h.handle with hd | ⟨-, hend⟩
    · simp [h.obj, hd]
    · simp [hpc] at hend
  | failed _ _ hu => simp [hpc] at hu

theorem thread_handshake (h : Reach s) : Handshake s := by
  have hi := reach_inv h
  refine ⟨fun t o => hi.there, fun t o th => hi.moves, fun o th hobj hc => ?_, fun o hu => ?_, fun o h5 => ?_,
    fun o th hobj hc hth => ?_, fun o th u => hi.handle, fun o => hi.lost⟩
  · have hm := hi.at_made hobj hc
    have hline := hm.line
    refine ⟨hm.shared.id (by omega), ?_, hm.sem, hm.shared.name (by omega)⟩
    rw [hm.shared.cb, if_neg (by omega)]
  · refine (hi.own (o := o) ?_).2.called
    cases hpc : (s.threads (.of o)).pc <;> simp [hpc, Pc.line] at hu ⊢
  · exact (hi.own (o := o) (by omega)).2.comm h5
  · have hm := hi.at_made hobj hc
    rcases hm.held with ⟨h, -⟩ | ⟨-, -, hend⟩
    · simp [hth] at h
    · refine ⟨hend, ?_⟩
      rw [hm.own.called, hend]
      rfl

/-- The main thread before its first object. -/
def mainThread : State where
  threads
    | .other _ => { pc := .user }
    | .of _ => { pc := .unborn }
  objs _ := none
  given _ := (0, "")
  made := 0

/-- It makes one: the thread runs up to its callback, and the constructor returns. -/
theorem made_run : ∃ s : State, Reach s ∧ s.objs 0 = some ⟨some (.of 0), some (.of 0), none, "w", 0⟩ ∧
    (s.threads (.of 0)).pc = .call ∧ Constructed s 0 := by
  have h₀ : Reach mainThread := .init ⟨fun _ => rfl, fun _ => rfl, fun _ => rfl, rfl⟩
  have h₁ : Reach _ := .step (.construct (.other 0) 7 "w") h₀ ⟨trivial, .construct _ _ _ rfl⟩
  have h₂ : Reach _ := .step (.create (.other 0)) h₁ ⟨trivial, .create _ 0 rfl⟩
  have h₃ : Reach _ := .step (.run 0) h₂ ⟨trivial, .run 0 _ _ _ rfl rfl⟩
  have h₄ : Reach _ := .step (.store (.other 0)) h₃ ⟨trivial, .store _ 0 _ rfl rfl⟩
  have h₅ : Reach _ := .step (.run 0) h₄ ⟨trivial, .run 0 _ _ _ rfl rfl⟩
  have h₆ : Reach _ := .step (.run 0) h₅ ⟨trivial, .run 0 _ _ _ rfl rfl⟩
  have h₇ : Reach _ := .step (.run 0) h₆ ⟨trivial, .run 0 _ _ _ rfl rfl⟩
  have h₈ : Reach _ := .step (.run 0) h₇ ⟨trivial, .run 0 _ _ _ rfl rfl⟩
  have h₉ : Reach _ := .step (.run 0) h₈ ⟨trivial, .run 0 _ _ _ rfl rfl⟩
  have h₁₀ : Reach _ := .step (.wait (.other 0)) h₉ ⟨trivial, .wait _ 0 _ rfl rfl Nat.one_pos⟩
  refine ⟨_, h₁₀, rfl, rfl, fun t => ?_⟩
  by_cases hmain : t = .other 0
  · subst hmain
    exact nofun
  · by_cases hself : t = .of 0
    · subst hself
      exact nofun
    · simp only [State.put, State.set, State.goto, Function.update_of_ne hmain, Function.update_of_ne hself]
      cases t <;> exact nofun

theorem thread_handshake_mainThread : ∃ s : State, (s.threads (.of 0)).pc = .call ∧
    ∃ th, s.objs 0 = some th ∧ th.m_id = some (.of 0) ∧ th.m_cb = none ∧
      (s.threads (.of 0)).t_thread_name = th.m_name := by
  obtain ⟨s, hr, hobj, hpc, hmade⟩ := made_run
  obtain ⟨hid, hcb, -, hname⟩ := (thread_handshake hr).ready 0 _ hobj hmade
  exact ⟨s, hpc, _, hobj, hid, hcb, hname⟩

/-- A constructor that throws while its thread has not notified leaves the thread at a line
    that is about an object that is gone. -/
theorem interrupted (h : Reach s) (hst : Step s (.waitFails t) s') : ∃ o, (s.threads t).pc = .wait o ∧
    s'.objs o = none ∧ ((s.threads (.of o)).pc.line ≤ 6 → Touches s' (.of o) o) := by
  cases hst with
  | waitFails t o hpc =>
    obtain ⟨th, hobj⟩ := Option.isSome_iff_exists.mp ((reach_inv h).there (.inl (by rw [hpc, Pc.uses])))
    have hstart := (reach_inv h).at_start (.inr hpc) hobj
    have hself : ((s.goto t .user).put o none).threads (.of o) = s.threads (.of o) := goto_other hstart.ne.symm
    refine ⟨o, hpc, put_self .., fun hline => .inr ⟨rfl, ?_, ?_⟩⟩
    · rw [hself]
      exact hstart.own.born
    · rw [hself]
      exact hline

end Sylar.Threads
