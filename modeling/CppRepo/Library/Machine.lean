import Mathlib

/-!
# Machines that answer their inputs

A machine takes an input, gives an answer and goes to its next state. Its step has no result where a
program would run into undefined behaviour. `runPartial` is a run of such a machine over a list of
inputs, `run` a run of a machine whose step always has a result; both list the answers in order.

There is one induction for each thing that is proved about runs: a step-by-step simulation of a
machine by one that always answers, which shows on the way that the first never gets stuck, and a
relation that two machines keep when they are given the same inputs.
-/

namespace CppRepo

variable {σ τ ι ο : Type*}

/-- A run of a machine that may get stuck. -/
def runPartial (step : σ → ι → Option (ο × σ)) : σ → List ι → Option (List ο × σ)
  | s, [] => some ([], s)
  | s, i :: is =>
    (step s i).bind fun (answer, t) ↦
      (runPartial step t is).map fun (answers, u) ↦ (answer :: answers, u)

/-- A run of a machine that always answers. -/
def run (step : σ → ι → ο × σ) : σ → List ι → List ο × σ
  | s, [] => ([], s)
  | s, i :: is => ((step s i).1 :: (run step (step s i).2 is).1, (run step (step s i).2 is).2)

theorem runPartial_cons {step : σ → ι → Option (ο × σ)} {s t : σ} {i : ι} {answer : ο}
    (h : step s i = some (answer, t)) (is : List ι) :
    runPartial step s (i :: is) =
      (runPartial step t is).map fun (answers, u) ↦ (answer :: answers, u) := by
  rw [runPartial, h, Option.bind_some]

/-- **Simulation.** If each step of the first machine gives the answer of the second and keeps the
states related, then a run of the first is not stuck, gives the answers of the second and ends in a
related state. -/
theorem runPartial_of_simulation {step : σ → ι → Option (ο × σ)} {step' : τ → ι → ο × τ}
    {R : σ → τ → Prop}
    (hstep : ∀ s t i, R s t → ∃ s', step s i = some ((step' t i).1, s') ∧ R s' (step' t i).2)
    {s : σ} {t : τ} (h : R s t) (is : List ι) :
    ∃ s', runPartial step s is = some ((run step' t is).1, s') ∧ R s' (run step' t is).2 := by
  induction is generalizing s t with
  | nil => exact ⟨s, rfl, h⟩
  | cons i is ih =>
    obtain ⟨s₁, hs₁, h₁⟩ := hstep s t i h
    obtain ⟨s₂, hs₂, h₂⟩ := ih h₁
    refine ⟨s₂, ?_, h₂⟩
    rw [runPartial_cons hs₁, hs₂]
    rfl

/-- Two machines given the same inputs: what every pair of steps keeps, runs keep, and what holds of
the answers to one input holds of all of them. -/
theorem run_related {step : σ → ι → ο × σ} {step' : τ → ι → ο × τ} {R : σ → τ → Prop}
    {A : ο → ο → Prop}
    (hstep : ∀ s t i, R s t → A (step s i).1 (step' t i).1 ∧ R (step s i).2 (step' t i).2)
    {s : σ} {t : τ} (h : R s t) (is : List ι) :
    List.Forall₂ A (run step s is).1 (run step' t is).1 ∧
      R (run step s is).2 (run step' t is).2 := by
  induction is generalizing s t with
  | nil => exact ⟨List.Forall₂.nil, h⟩
  | cons i is ih =>
    obtain ⟨hanswer, hnext⟩ := hstep s t i h
    obtain ⟨hanswers, hend⟩ := ih hnext
    exact ⟨List.Forall₂.cons hanswer hanswers, hend⟩

end CppRepo
