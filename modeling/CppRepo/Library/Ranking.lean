import CppRepo.Library.Transition

/-!
# Costs of a schedule

Each step of a schedule has a cost, which depends on the party and the state in which it acts. A
rank that pays for the cost of each step bounds what a whole schedule costs, and a rank that pays
for the steps of one party bounds how often this party acts, whatever the others do. Where some
steps make more to do, what they add is counted as a gain.
-/

namespace CppRepo

variable {π σ : Type*} {act : π → σ → Option σ} {cost : π → σ → ℕ} {I : σ → Prop} {s t : σ}

theorem execute_invariant (hstep : ∀ p s t, I s → act p s = some t → I t) {ps : List π} (hs : I s)
    (h : execute act ps s = some t) : I t := by
  induction ps generalizing s with
  | nil => exact Option.some_inj.mp h ▸ hs
  | cons p ps ih =>
    obtain ⟨u, hu, h⟩ := Option.bind_eq_some_iff.mp h
    exact ih (hstep p s u hs hu) h

/-- What the steps of a schedule cost together. -/
def spent (act : π → σ → Option σ) (cost : π → σ → ℕ) : List π → σ → ℕ
  | [], _ => 0
  | p :: ps, s => cost p s + (act p s).elim 0 (spent act cost ps)

theorem spent_cons {p : π} {ps : List π} (h : act p s = some t) :
    spent act cost (p :: ps) s = cost p s + spent act cost ps t := by
  rw [spent, h]
  rfl

/-- **The ranking rule, with gains.** Where each step keeps the invariant and its cost is paid by
the rank and by what is gained, the rank and what is gained on the way pay for each schedule. -/
theorem rank_add_spent_add_gain_le (rank gain : σ → ℕ) (cost : π → σ → ℕ)
    (hstep : ∀ p s t, I s → act p s = some t →
      I t ∧ rank t + cost p s + gain s ≤ rank s + gain t) {ps : List π}
    (hs : I s) (h : execute act ps s = some t) :
    I t ∧ rank t + spent act cost ps s + gain s ≤ rank s + gain t := by
  induction ps generalizing s with
  | nil => exact Option.some_inj.mp h ▸ ⟨hs, le_rfl⟩
  | cons p ps ih =>
    obtain ⟨u, hu, h⟩ := Option.bind_eq_some_iff.mp h
    obtain ⟨hIu, hle⟩ := hstep p s u hs hu
    obtain ⟨hIt, hle'⟩ := ih hIu h
    refine ⟨hIt, ?_⟩
    rw [spent_cons hu]
    omega

/-- **The ranking rule.** Where each step keeps the invariant and its cost is paid by the rank, the
rank pays for each schedule. -/
theorem rank_add_spent_le (rank : σ → ℕ) (cost : π → σ → ℕ)
    (hstep : ∀ p s t, I s → act p s = some t → I t ∧ rank t + cost p s ≤ rank s) {ps : List π}
    (hs : I s) (h : execute act ps s = some t) : I t ∧ rank t + spent act cost ps s ≤ rank s :=
  rank_add_spent_add_gain_le rank 0 cost hstep hs h

theorem rank_add_spent_eq (rank : σ → ℕ) (cost : π → σ → ℕ)
    (hstep : ∀ p s t, I s → act p s = some t → I t ∧ rank t + cost p s = rank s) {ps : List π}
    (hs : I s) (h : execute act ps s = some t) : I t ∧ rank t + spent act cost ps s = rank s := by
  induction ps generalizing s with
  | nil => exact Option.some_inj.mp h ▸ ⟨hs, rfl⟩
  | cons p ps ih =>
    obtain ⟨u, hu, h⟩ := Option.bind_eq_some_iff.mp h
    obtain ⟨hIu, heq⟩ := hstep p s u hs hu
    obtain ⟨hIt, heq'⟩ := ih hIu h
    refine ⟨hIt, ?_⟩
    rw [spent_cons hu]
    omega

theorem spent_eq_countP (P : π → Bool) {ps : List π} (h : execute act ps s = some t) :
    spent act (fun q _ ↦ if P q then 1 else 0) ps s = ps.countP P := by
  induction ps generalizing s with
  | nil => rfl
  | cons q ps ih =>
    obtain ⟨u, hu, h⟩ := Option.bind_eq_some_iff.mp h
    rw [spent_cons hu, ih h, List.countP_cons]
    exact Nat.add_comm _ _

theorem spent_eq_count [DecidableEq π] (p : π) {ps : List π} (h : execute act ps s = some t) :
    spent act (fun q _ ↦ if q = p then 1 else 0) ps s = ps.count p := by
  rw [List.count, ← spent_eq_countP _ h]
  simp only [beq_iff_eq]

theorem rank_add_countP_le (rank : σ → ℕ) {P : π → Bool}
    (hstep : ∀ q s t, I s → act q s = some t →
      I t ∧ rank t + (if P q then 1 else 0) ≤ rank s) {ps : List π}
    (hs : I s) (h : execute act ps s = some t) : I t ∧ rank t + ps.countP P ≤ rank s := by
  rw [← spent_eq_countP P h]
  exact rank_add_spent_le rank _ hstep hs h

theorem rank_add_count_le [DecidableEq π] (rank : σ → ℕ) {p : π}
    (hstep : ∀ q s t, I s → act q s = some t →
      I t ∧ rank t + (if q = p then 1 else 0) ≤ rank s) {ps : List π}
    (hs : I s) (h : execute act ps s = some t) : I t ∧ rank t + ps.count p ≤ rank s := by
  rw [← spent_eq_count p h]
  exact rank_add_spent_le rank _ hstep hs h

theorem rank_add_length_le (rank : σ → ℕ)
    (hstep : ∀ p s t, I s → act p s = some t → I t ∧ rank t < rank s) {ps : List π} (hs : I s)
    (h : execute act ps s = some t) : I t ∧ rank t + ps.length ≤ rank s := by
  induction ps generalizing s with
  | nil => exact Option.some_inj.mp h ▸ ⟨hs, le_rfl⟩
  | cons p ps ih =>
    obtain ⟨u, hu, h⟩ := Option.bind_eq_some_iff.mp h
    obtain ⟨hIu, hlt⟩ := hstep p s u hs hu
    obtain ⟨hIt, hle⟩ := ih hIu h
    refine ⟨hIt, ?_⟩
    rw [List.length_cons]
    omega

theorem exists_execute_rest (rank : σ → ℕ)
    (hstep : ∀ p s t, I s → act p s = some t → I t ∧ rank t < rank s) (hs : I s) :
    ∃ ps t, execute act ps s = some t ∧ ∀ p, act p t = none := by
  induction hr : rank s using Nat.strong_induction_on generalizing s with
  | _ r ih =>
    by_cases hrest : ∀ p, act p s = none
    · exact ⟨[], s, rfl, hrest⟩
    · push Not at hrest
      obtain ⟨p, hp⟩ := hrest
      obtain ⟨u, hu⟩ := Option.ne_none_iff_exists'.mp hp
      obtain ⟨hIu, hlt⟩ := hstep p s u hs hu
      obtain ⟨ps, t, ht, hnone⟩ := ih (rank u) (hr ▸ hlt) hIu rfl
      exact ⟨p :: ps, t, Option.bind_eq_some_iff.mpr ⟨u, hu, ht⟩, hnone⟩

end CppRepo
