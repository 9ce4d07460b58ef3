/-
  Sylar.Lib.Lts — labelled transition systems: reachable states, runs, invariants,
  and guards on the steps of a run.

  A system is a predicate `init` on states and a relation `step : σ → α → σ → Prop`.
  - `Reach.inv`: what holds at the start and is kept by every step holds of every
    reachable state.
  - `guarded step G` keeps the steps whose label meets `G` in the state before it.
  - `Run.every_iff`: when under an invariant a step has the property `P` exactly when it
    meets the guard `G`, a run has `P` at every step exactly when it meets `G` at every
    step. `Run.final_cases`: the same for a property of the last state, when a step
    outside `G` cannot be made good.
  - `Reach.down`: a measure that some step takes down leads to a goal.
  - `Reach.sim`: a function under which every step becomes steps of another system takes
    reachable states to reachable states of that system. `Run.map`: the same for runs,
    where each step becomes one of the same label.
-/

namespace Lts

variable {σ α : Type} {init : σ → Prop} {step : σ → α → σ → Prop}

inductive Reach (init : σ → Prop) (step : σ → α → σ → Prop) : σ → Prop
  | init {s : σ} : init s → Reach init step s
  | step {s s' : σ} (a : α) : Reach init step s → step s a s' → Reach init step s'

theorem Reach.inv {s : σ} (h : Reach init step s) {I : σ → Prop} (h0 : ∀ s, init s → I s)
    (hs : ∀ s a s', I s → step s a s' → I s') : I s := by
  induction h with
  | init hi => exact h0 _ hi
  | step a _ hst ih => exact hs _ a _ ih hst

theorem Reach.single {s s' : σ} {a : α} (h : step s a s') : Reach (· = s) step s' := .step a (.init rfl) h

theorem Reach.trans {s s' : σ} (h : Reach init step s) (h' : Reach (· = s) step s') : Reach init step s' := by
  induction h' with
  | init hi => exact hi ▸ h
  | step a _ hst ih => exact .step a ih hst

/-- From every state of `I` there is a way to `G`, when a step goes down in a measure. -/
theorem Reach.down {β : Type} {r : β → β → Prop} (hwf : WellFounded r) (μ : σ → β) {I G : σ → Prop}
    (hs : ∀ s, I s → G s ∨ ∃ a s', step s a s' ∧ I s' ∧ r (μ s') (μ s)) {s : σ} (h : I s) :
    ∃ s', Reach (· = s) step s' ∧ I s' ∧ G s' := by
  induction hm : μ s using hwf.induction generalizing s with
  | _ m ih =>
    rcases hs s h with hg | ⟨a, s', hst, hi, hlt⟩
    · exact ⟨s, .init rfl, h, hg⟩
    · obtain ⟨s'', hr, hi', hg⟩ := ih _ (hm ▸ hlt) hi rfl
      exact ⟨s'', (Reach.single hst).trans hr, hi', hg⟩

/-- `f` simulates: it takes a start to a start, and a step from a reachable state to any
    number of steps. -/
theorem Reach.sim {τ β : Type} {init' : τ → Prop} {step' : τ → β → τ → Prop} (f : σ → τ)
    (h0 : ∀ s, init s → init' (f s))
    (hs : ∀ s a s', Reach init step s → step s a s' → Reach (· = f s) step' (f s')) {s : σ}
    (h : Reach init step s) : Reach init' step' (f s) := by
  induction h with
  | init hi => exact .init (h0 _ hi)
  | step a hr hst ih => exact ih.trans (hs _ a _ hr hst)

/-! ## Runs -/

/-- The steps of a run from `s`, each with the state it leads to. -/
inductive Run (step : σ → α → σ → Prop) : σ → List (α × σ) → Prop
  | nil (s : σ) : Run step s []
  | cons {s s' : σ} {a : α} {tr : List (α × σ)} : step s a s' → Run step s' tr → Run step s ((a, s') :: tr)

/-- `P` holds of every step: the state before it, its label, the state after it. -/
def Every (P : σ → α → σ → Prop) : σ → List (α × σ) → Prop
  | _, [] => True
  | s, (a, s') :: tr => P s a s' ∧ Every P s' tr

/-- The state a run ends in. -/
def final : σ → List (α × σ) → σ
  | s, [] => s
  | _, (_, s') :: tr => final s' tr

theorem Run.reach {s : σ} {tr : List (α × σ)} (h : Run step s tr) (hr : Reach init step s) :
    Reach init step (final s tr) := by
  induction h with
  | nil => exact hr
  | cons hst _ ih => exact ih (.step _ hr hst)

theorem Run.append {s : σ} {tr tr' : List (α × σ)} (h : Run step s tr) (h' : Run step (final s tr) tr') :
    Run step s (tr ++ tr') := by
  induction h with
  | nil => exact h'
  | cons hst _ ih => exact .cons hst (ih h')

/-- A function that takes steps from `I` to steps of the same label takes runs to runs. -/
theorem Run.map {τ : Type} {step' : τ → α → τ → Prop} (f : σ → τ) {I : σ → Prop}
    (hI : ∀ s a s', I s → step s a s' → I s') (hs : ∀ s a s', I s → step s a s' → step' (f s) a (f s')) :
    ∀ {s : σ} {tr : List (α × σ)}, Run step s tr → I s → Run step' (f s) (tr.map fun p => (p.1, f p.2)) := by
  intro s tr h
  induction h with
  | nil => exact fun _ => .nil _
  | cons hst _ ih => exact fun hi => .cons (hs _ _ _ hi hst) (ih (hI _ _ _ hi hst))

/-- Under the invariant `J`, kept by the steps that meet `G`, a step has `P` exactly
    when it meets `G`: then so do runs. -/
theorem Run.every_iff {J : σ → Prop} {P : σ → α → σ → Prop} {G : σ → α → Prop}
    (hJ : ∀ s a s', J s → G s a → step s a s' → J s')
    (hP : ∀ s a s', J s → step s a s' → (P s a s' ↔ G s a)) :
    ∀ {s : σ} {tr : List (α × σ)}, Run step s tr → J s → (Every P s tr ↔ Every (fun s a _ => G s a) s tr) := by
  intro s tr h
  induction h with
  | nil => intro _; exact Iff.rfl
  | cons hst _ ih =>
    intro hj
    have hPG := hP _ _ _ hj hst
    constructor
    · intro ⟨hp, ht⟩
      have hg := hPG.mp hp
      exact ⟨hg, (ih (hJ _ _ _ hj hg hst)).mp ht⟩
    · intro ⟨hg, ht⟩
      exact ⟨hPG.mpr hg, (ih (hJ _ _ _ hj hg hst)).mpr ht⟩

/-- Where the steps that meet `G` keep `J`, the others lead from `J` to `D`, and `D` is
    never left: a run ends in `J` when every step meets `G`, else in `D`. -/
theorem Run.final_cases {J D : σ → Prop} {G : σ → α → Prop} (hJ : ∀ s a s', J s → G s a → step s a s' → J s')
    (hD : ∀ s a s', J s → ¬G s a → step s a s' → D s') (hDD : ∀ s a s', D s → step s a s' → D s') :
    ∀ {s : σ} {tr : List (α × σ)}, Run step s tr → J s →
      (Every (fun s a _ => G s a) s tr ∧ J (final s tr)) ∨ (¬Every (fun s a _ => G s a) s tr ∧ D (final s tr)) := by
  have hstay : ∀ {s : σ} {tr : List (α × σ)}, Run step s tr → D s → D (final s tr) := by
    intro s tr h
    induction h with
    | nil => exact id
    | cons hst _ ih => exact fun hd => ih (hDD _ _ _ hd hst)
  intro s tr h
  induction h with
  | nil => exact fun hj => .inl ⟨trivial, hj⟩
  | @cons s s' a tr hst hr ih =>
    intro hj
    by_cases hg : G s a
    · rcases ih (hJ _ _ _ hj hg hst) with ⟨he, hf⟩ | ⟨he, hf⟩
      · exact .inl ⟨⟨hg, he⟩, hf⟩
      · exact .inr ⟨fun h => he h.2, hf⟩
    · have hd : D (final s' tr) := hstay hr (hD _ _ _ hj hg hst)
      exact .inr ⟨fun h => hg h.1, hd⟩

/-! ## Guards -/

/-- The steps of `step` that meet `G` in the state before them. -/
def guarded (step : σ → α → σ → Prop) (G : σ → α → Prop) : σ → α → σ → Prop :=
  fun s a s' => G s a ∧ step s a s'

theorem Reach.stepIf {G : σ → α → Prop} {s s' : σ} {a : α} (h : Reach init (guarded step G) s) (hst : step s a s')
    (hg : G s a) : Reach init (guarded step G) s' :=
  .step a h ⟨hg, hst⟩

/-! ## Systems given by a step function -/

/-- The step relation of a step function. -/
def ofFn (f : σ → α → Option σ) : σ → α → σ → Prop := fun s a s' => f s a = some s'

end Lts
