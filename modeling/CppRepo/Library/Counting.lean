import Mathlib

/-!
# Counting parties

A list holds the places of some parties. When one of them moves, the number of those at certain
places changes by the one that moves, and so does any sum over all of them. The equations are
written without subtraction.
-/

namespace CppRepo

variable {α : Type*} {l : List α} {i : ℕ} {x : α}

theorem countP_set_add (p : α → Bool) (y : α) (h : l[i]? = some x) :
    (l.set i y).countP p + (p x).toNat = l.countP p + (p y).toNat := by
  obtain ⟨hi, rfl⟩ := List.getElem?_eq_some_iff.mp h
  have hle : (if p l[i] = true then 1 else 0) ≤ l.countP p := by
    split
    · exact List.countP_pos_iff.mpr ⟨_, List.getElem_mem hi, ‹_›⟩
    · exact Nat.zero_le _
  rw [List.countP_set hi]
  cases hx : p l[i] <;> cases p y <;> simp_all

theorem countP_modify {p : α → Bool} {f : α → α} (hf : ∀ x, p (f x) = p x) (l : List α) (i : ℕ) :
    (l.modify i f).countP p = l.countP p := by
  induction l generalizing i with
  | nil => rw [List.modify_nil]
  | cons x l ih =>
    cases i with
    | zero => rw [List.modify_zero_cons, List.countP_cons, List.countP_cons, hf]
    | succ i => rw [List.modify_succ_cons, List.countP_cons, List.countP_cons, ih]

theorem sum_map_set_add (f : α → ℕ) (y : α) (h : l[i]? = some x) :
    ((l.set i y).map f).sum + f x = (l.map f).sum + f y := by
  induction l generalizing i with
  | nil => exact absurd h (by simp)
  | cons z l ih =>
    cases i with
    | zero =>
      obtain rfl := Option.some_inj.mp h
      rw [List.set_cons_zero, List.map_cons, List.map_cons, List.sum_cons, List.sum_cons]
      omega
    | succ i =>
      have hl := ih (i := i) h
      rw [List.set_cons_succ, List.map_cons, List.map_cons, List.sum_cons, List.sum_cons]
      omega

end CppRepo
