import CppRepo.Library.Exec

/-!
# Counted loops

A loop whose counter goes up by one and whose bound the body does not change runs a known number of
times, so it needs no cut-off; its rule is an invariant for each value of the counter. Conditions
that read the state are evaluated from the left, and only as far as they have to be.
-/

namespace CppRepo

variable {ε σ : Type} {s : σ}

/-- `for (i = first; i < first + n; ++i) body(i)`. -/
def countFrom (body : ℕ → EStateM ε σ Unit) : ℕ → ℕ → EStateM ε σ Unit
  | _, 0 => pure ()
  | i, n + 1 => do
    body i
    countFrom body (i + 1) n

/-- **The rule of a counted loop.** -/
theorem ensures_countFrom {body : ℕ → EStateM ε σ Unit} {I : ℕ → σ → Prop} {E : ε → σ → Prop}
    {first n last : ℕ} (hlast : first + n = last) (hfirst : I first s)
    (hbody : ∀ i t, first ≤ i → i < last → I i t →
      Ensures (body i) t (fun _ u ↦ I (i + 1) u) E) :
    Ensures (countFrom body first n) s (fun _ t ↦ I last t) E := by
  induction n generalizing first s with
  | zero =>
    subst hlast
    exact hfirst
  | succ n ih =>
    rw [countFrom, ensures_bind]
    refine (hbody first s le_rfl (by omega) hfirst).mono (fun _ t ht ↦ ?_) fun _ _ ↦ id
    exact ih (by omega) ht fun i u hi hlt ↦ hbody i u (by omega) hlt

section Conditions

variable {x y : EStateM ε σ Bool} {Q : Bool → σ → Prop} {E : ε → σ → Prop}

theorem ensures_andM :
    Ensures (x <&&> y) s Q E ↔
      Ensures x s (fun b t ↦ if b then Ensures y t Q E else Q false t) E := by
  rw [andM, ensures_bind]
  refine iff_of_eq (congrArg (Ensures x s · E) (funext fun b ↦ ?_))
  cases b <;> rfl

theorem ensures_orM :
    Ensures (x <||> y) s Q E ↔
      Ensures x s (fun b t ↦ if b then Q true t else Ensures y t Q E) E := by
  rw [orM, ensures_bind]
  refine iff_of_eq (congrArg (Ensures x s · E) (funext fun b ↦ ?_))
  cases b <;> rfl

end Conditions

end CppRepo
