import Mathlib

/-!
# Transition systems

A transition system is given by its initial states and a relation from each state to the states one
step leads to. Where several parties act, a step is a step of one of them, and a state that can be
reached is one that some order of their steps leads to. A condition on the steps leaves fewer of
them, and so fewer states to reach.
-/

namespace CppRepo

variable {σ : Type*} {init : σ → Prop} {step step' : σ → σ → Prop} {s t : σ}

/-- `s` is reached from an initial state by some steps. -/
inductive Reachable (init : σ → Prop) (step : σ → σ → Prop) : σ → Prop
  | start {s : σ} (hs : init s) : Reachable init step s
  | next {s t : σ} (hs : Reachable init step s) (hst : step s t) : Reachable init step t

namespace Reachable

/-- **The invariant rule.** What holds at first and is kept by each step from a state that can be
reached holds of all states that can be reached. -/
theorem invariant {I : σ → Prop} (hinit : ∀ s, init s → I s)
    (hstep : ∀ s t, Reachable init step s → I s → step s t → I t) (hs : Reachable init step s) :
    I s := by
  induction hs with
  | start hs => exact hinit _ hs
  | next hs hst ih => exact hstep _ _ hs ih hst

theorem mono (hsub : ∀ s t, step s t → step' s t) (hs : Reachable init step s) :
    Reachable init step' s := by
  induction hs with
  | start hs => exact start hs
  | next _ hst ih => exact next ih (hsub _ _ hst)

end Reachable

/-! ## Parties

Each party has at most one next step in each state, and a schedule is the list of the parties in the
order in which they act. -/

section Schedule

variable {π : Type*}

/-- Some party acts. -/
def Acts (act : π → σ → Option σ) (s t : σ) : Prop := ∃ p, act p s = some t

/-- The actions that meet a condition. -/
def guarded (guard : π → σ → Prop) [∀ p s, Decidable (guard p s)] (act : π → σ → Option σ) (p : π)
    (s : σ) : Option σ :=
  if guard p s then act p s else none

/-- The parties act in the given order. -/
def execute (act : π → σ → Option σ) : List π → σ → Option σ
  | [], s => some s
  | p :: ps, s => (act p s).bind (execute act ps)

variable {act : π → σ → Option σ} {guard : π → σ → Prop} [∀ p s, Decidable (guard p s)] {p : π}

theorem guarded_eq_some : guarded guard act p s = some t ↔ guard p s ∧ act p s = some t := by
  rw [guarded, Option.ite_none_right_eq_some]

theorem of_ite_some {c : Prop} [Decidable c] (h : (if c then some s else none) = some t) :
    c ∧ s = t :=
  (Option.ite_none_right_eq_some.mp h).imp_right Option.some.inj

theorem acts_of_guarded (h : Acts (guarded guard act) s t) : Acts act s t := by
  obtain ⟨p, hp⟩ := h
  exact ⟨p, (guarded_eq_some.mp hp).2⟩

theorem execute_append (ps qs : List π) (s : σ) :
    execute act (ps ++ qs) s = (execute act ps s).bind (execute act qs) := by
  induction ps generalizing s with
  | nil => rfl
  | cons p ps ih =>
    rw [List.cons_append, execute, execute, Option.bind_assoc]
    exact congrArg _ (funext ih)

theorem execute_concat (ps : List π) (p : π) (s : σ) :
    execute act (ps ++ [p]) s = (execute act ps s).bind (act p) := by
  rw [execute_append]
  exact congrArg _ (funext fun t ↦ Option.bind_fun_some (act p t))

theorem execute_of_guarded {ps : List π} (h : execute (guarded guard act) ps s = some t) :
    execute act ps s = some t := by
  induction ps generalizing s with
  | nil => exact h
  | cons p ps ih =>
    obtain ⟨u, hu, ht⟩ := Option.bind_eq_some_iff.mp h
    exact Option.bind_eq_some_iff.mpr ⟨u, (guarded_eq_some.mp hu).2, ih ht⟩

theorem reachable_of_execute {ps : List π} (hs : Reachable init (Acts act) s)
    (h : execute act ps s = some t) : Reachable init (Acts act) t := by
  induction ps generalizing s with
  | nil => exact Option.some_inj.mp h ▸ hs
  | cons p ps ih =>
    obtain ⟨u, hu, ht⟩ := Option.bind_eq_some_iff.mp h
    exact ih (hs.next ⟨p, hu⟩) ht

theorem exists_of_execute {ps : List π} {P : σ → Prop} [DecidablePred P]
    (h : (execute act ps s).any (fun t ↦ P t) = true) : ∃ t, execute act ps s = some t ∧ P t := by
  obtain ⟨t, ht, hP⟩ := (Option.any_eq_true _ _).mp h
  exact ⟨t, ht, of_decide_eq_true hP⟩

end Schedule

/-! ## A mutex

Several parties share a mutex, which is given by the party that holds it, if there is one. -/

section Mutex

variable {π : Type*} {p q : π} {a b : Option π}

/-- What `p` may do to a mutex: leave it, take it while it is free, or give back what it holds. -/
def MutexMove (p : π) (a b : Option π) : Prop :=
  b = a ∨ a = none ∧ b = some p ∨ a = some p ∧ b = none

namespace MutexMove

theorem stay : MutexMove p a a := Or.inl rfl

theorem lock (ha : a = none) : MutexMove p a (some p) := Or.inr (Or.inl ⟨ha, rfl⟩)

theorem unlock (ha : a = some p) : MutexMove p a none := Or.inr (Or.inr ⟨ha, rfl⟩)

theorem held_iff (h : MutexMove p a b) (hne : q ≠ p) : b = some q ↔ a = some q := by
  rcases h with rfl | ⟨rfl, rfl⟩ | ⟨rfl, rfl⟩
  · exact Iff.rfl
  · exact iff_of_false (fun hq ↦ hne (Option.some_inj.mp hq).symm) (Option.some_ne_none q).symm
  · exact iff_of_false (Option.some_ne_none q).symm fun hq ↦ hne (Option.some_inj.mp hq).symm

theorem held (h : MutexMove p a b) (ha : a = some q) (hne : q ≠ p) : b = some q :=
  (h.held_iff hne).mpr ha

end MutexMove

end Mutex

end CppRepo
