import Mathlib.Logic.Relation
import Mathlib.Tactic.SplitIfs

/-!
# Runs of a partial step function

A system is a partial function `step : σ → ℓ → Option σ`; a label that is not enabled in a
state has no successor. Two views of its runs live here:

* `exec`, the executable one: follow a list of labels;
* `Reaches step C`, the relational one: the states reached by runs all of whose steps meet a
  condition `C` on the state before the step and the label. `Reaches.invariant` is the
  induction rule every run lemma goes through.

`record` runs a system together with a history variable.
-/

namespace Run

universe u v w

variable {σ : Type u} {ℓ : Type v} {η : Type w}

/-- Follow a list of labels. -/
def exec (step : σ → ℓ → Option σ) : σ → List ℓ → Option σ
  | s, [] => some s
  | s, l :: ls => (step s l).bind fun s' => exec step s' ls

/-- The system that only takes the steps that meet `C`. -/
def restrict (step : σ → ℓ → Option σ) (C : σ → ℓ → Prop) [∀ s l, Decidable (C s l)]
    (s : σ) (l : ℓ) : Option σ :=
  if C s l then step s l else none

/-- The states reached from `s` by runs all of whose steps meet `C`. -/
def Reaches (step : σ → ℓ → Option σ) (C : σ → ℓ → Prop) : σ → σ → Prop :=
  Relation.ReflTransGen fun s s' => ∃ l, C s l ∧ step s l = some s'

/-- Run a system together with a history variable, which `obs` updates from the state before
each step and its label. -/
def record (step : σ → ℓ → Option σ) (obs : η → σ → ℓ → η) (s : σ × η) (l : ℓ) :
    Option (σ × η) :=
  (step s.1 l).map fun s' => (s', obs s.2 s.1 l)

variable {step : σ → ℓ → Option σ} {C C' : σ → ℓ → Prop}

/-- The start is reached. -/
theorem Reaches.refl (s : σ) : Reaches step C s s := Relation.ReflTransGen.refl

/-- What holds at the start and is kept by every step that meets `C` holds in every state
reached. The step may use what is known of reached states, so invariants can be proved one
after the other. -/
theorem Reaches.invariant {I : σ → Prop} {s₀ s : σ} (h : Reaches step C s₀ s) (h₀ : I s₀)
    (hstep : ∀ s l s', Reaches step C s₀ s → I s → C s l → step s l = some s' → I s') : I s := by
  induction h with
  | refl => exact h₀
  | tail hreach hst ih =>
    obtain ⟨l, hC, hl⟩ := hst
    exact hstep _ _ _ hreach ih hC hl

/-- A list of labels the restricted system can follow is a run that meets the condition. -/
theorem reaches_of_exec [∀ s l, Decidable (C s l)] {ls : List ℓ} {s s' : σ}
    (h : exec (restrict step C) s ls = some s') : Reaches step C s s' := by
  induction ls generalizing s with
  | nil =>
    cases h
    exact Reaches.refl _
  | cons l ls ih =>
    simp only [exec, restrict] at h
    obtain ⟨s₁, hs₁, hrest⟩ := Option.bind_eq_some_iff.mp h
    -- the step was taken, so the test of `restrict` has succeeded
    split_ifs at hs₁ with hC
    exact Relation.ReflTransGen.head ⟨l, hC, hs₁⟩ (ih hrest)

/-- A system that can follow each step of another one from a related state can follow its runs. -/
theorem exec_simulates {τ : Type u} {step' : τ → ℓ → Option τ} {R : σ → τ → Prop}
    (hstep : ∀ s t l s', R s t → step s l = some s' → ∃ t', step' t l = some t' ∧ R s' t')
    {ls : List ℓ} {s s' : σ} {t : τ} (hR : R s t) (h : exec step s ls = some s') :
    ∃ t', exec step' t ls = some t' ∧ R s' t' := by
  induction ls generalizing s t with
  | nil =>
    cases h
    exact ⟨t, rfl, hR⟩
  | cons l ls ih =>
    obtain ⟨s₁, hs₁, hrest⟩ := Option.bind_eq_some_iff.mp h
    obtain ⟨t₁, ht₁, hR₁⟩ := hstep s t l s₁ hR hs₁
    obtain ⟨t', ht', hR'⟩ := ih hR₁ hrest
    exact ⟨t', Option.bind_eq_some_iff.mpr ⟨t₁, ht₁, ht'⟩, hR'⟩

/-- A step of a recorded system is a step of the system. -/
theorem record_eq_some {obs : η → σ → ℓ → η} {s s' : σ × η} {l : ℓ} :
    record step obs s l = some s' ↔ step s.1 l = some s'.1 ∧ s'.2 = obs s.2 s.1 l := by
  obtain ⟨s₁, h₁⟩ := s
  obtain ⟨s₂, h₂⟩ := s'
  simp only [record, Option.map_eq_some_iff, Prod.mk.injEq]
  constructor
  · rintro ⟨s', hs', rfl, rfl⟩
    exact ⟨hs', rfl⟩
  · rintro ⟨hs', rfl⟩
    exact ⟨s₂, hs', rfl, rfl⟩

/-- Forgetting the history leaves a run of the system. -/
theorem Reaches.of_record {obs : η → σ → ℓ → η} {D : σ × η → ℓ → Prop} {s s' : σ × η}
    (h : Reaches (record step obs) D s s') (hD : ∀ s l, D s l → C s.1 l) :
    Reaches step C s.1 s'.1 := by
  induction h with
  | refl => exact Reaches.refl _
  | tail _ hst ih =>
    obtain ⟨l, hl, hstep⟩ := hst
    exact ih.tail ⟨l, hD _ _ hl, (record_eq_some.mp hstep).1⟩

/-- Every run can be recorded. -/
theorem Reaches.exists_record {s₀ s : σ} (h : Reaches step C s₀ s) (obs : η → σ → ℓ → η)
    (h₀ : η) :
    ∃ hist, Reaches (record step obs) (fun s l => C s.1 l) (s₀, h₀) (s, hist) := by
  induction h with
  | refl => exact ⟨h₀, Reaches.refl _⟩
  | tail _ hst ih =>
    obtain ⟨l, hC, hl⟩ := hst
    obtain ⟨hist, hrec⟩ := ih
    exact ⟨_, hrec.tail ⟨l, hC, record_eq_some.mpr ⟨hl, rfl⟩⟩⟩

end Run
