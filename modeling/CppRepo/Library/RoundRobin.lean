import Mathlib

/-!
# Round robin

`m` parties stand in a ring, and each acts when the one before it has acted. The sequence of their
actions is a beginning of `0, 1, …, m - 1, 0, 1, …`.
-/

namespace CppRepo

variable {m : ℕ} [NeZero m] {l : List (Fin m)} {i : Fin m}

/-- The first `k` parties that act. -/
def roundRobin (m : ℕ) [NeZero m] (k : ℕ) : List (Fin m) := (List.range k).map (Fin.ofNat m)

/-- The parties acted in turn. -/
def InTurn (l : List (Fin m)) : Prop := l = roundRobin m l.length

instance : Decidable (InTurn l) := inferInstanceAs (Decidable (_ = _))

/-- The party that acts after those of `l`. -/
def nextTurn (l : List (Fin m)) : Fin m := Fin.ofNat m l.length

theorem ofNat_succ (k : ℕ) : Fin.ofNat m (k + 1) = Fin.ofNat m k + 1 := by
  apply Fin.ext
  simp [Fin.val_add]

theorem roundRobin_succ (k : ℕ) : roundRobin m (k + 1) = roundRobin m k ++ [Fin.ofNat m k] := by
  rw [roundRobin, List.range_succ, List.map_append]
  rfl

theorem take_roundRobin (k n : ℕ) : (roundRobin m n).take k = roundRobin m (min k n) := by
  rw [roundRobin, ← List.map_take, List.take_range]
  rfl

namespace InTurn

theorem nil : InTurn ([] : List (Fin m)) := rfl

theorem concat (h : InTurn l) : InTurn (l ++ [nextTurn l]) := by
  rw [InTurn, List.length_append, List.length_singleton, roundRobin_succ, ← h]
  rfl

theorem take (h : InTurn l) (k : ℕ) : InTurn (l.take k) := by
  have htake := congrArg (List.take k) h
  rwa [take_roundRobin, ← List.length_take] at htake

end InTurn

theorem nextTurn_concat (l : List (Fin m)) (i : Fin m) : nextTurn (l ++ [i]) = nextTurn l + 1 := by
  rw [nextTurn, List.length_append, List.length_singleton, ofNat_succ, nextTurn]

/-- Nobody acts twice in succession. -/
theorem InTurn.isChain_ne (h : InTurn l) (hm : 1 < m) : l.IsChain (· ≠ ·) := by
  rw [InTurn] at h
  rw [h, roundRobin, List.isChain_map, List.isChain_range]
  intro k _ heq
  rw [Nat.succ_eq_add_one, ofNat_succ, left_eq_add] at heq
  have hval := congrArg Fin.val heq
  rw [Fin.val_one', Fin.val_zero, Nat.mod_eq_of_lt hm] at hval
  exact one_ne_zero hval

end CppRepo
