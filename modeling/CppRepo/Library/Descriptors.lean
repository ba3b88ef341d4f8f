import Mathlib

/-!
# Numbers given out from below

A kernel names open files by numbers and gives out the lowest number that is free. What matters of
the numbers that are taken is how many of them lie below a bound: the next number is below the bound
exactly if not all of the numbers below it are taken.
-/

namespace CppRepo

/-- The lowest number that is free. -/
def lowestFree (taken : Finset ℕ) : ℕ := Nat.find (Infinite.exists_notMem_finset taken)

/-- The numbers that are taken after the lowest free one was given out. -/
def takeLowest (taken : Finset ℕ) : Finset ℕ := insert (lowestFree taken) taken

/-- How many numbers below the bound are taken. -/
def takenBelow (bound : ℕ) (taken : Finset ℕ) : ℕ := (taken.filter (· < bound)).card

variable {bound n : ℕ} {taken : Finset ℕ}

theorem lowestFree_notMem (taken : Finset ℕ) : lowestFree taken ∉ taken :=
  Nat.find_spec (Infinite.exists_notMem_finset taken)

theorem lowestFree_le (h : n ∉ taken) : lowestFree taken ≤ n := Nat.find_min' _ h

theorem lowestFree_range (n : ℕ) : lowestFree (Finset.range n) = n := by
  refine le_antisymm (lowestFree_le Finset.notMem_range_self) ?_
  by_contra hlt
  exact lowestFree_notMem _ (Finset.mem_range.mpr (not_le.mp hlt))

theorem takeLowest_range (n : ℕ) : takeLowest (Finset.range n) = Finset.range (n + 1) := by
  rw [takeLowest, lowestFree_range, Finset.range_add_one]

theorem takenBelow_le (bound : ℕ) (taken : Finset ℕ) : takenBelow bound taken ≤ bound := by
  have hsub : taken.filter (· < bound) ⊆ Finset.range bound := by
    intro n hn
    exact Finset.mem_range.mpr (Finset.mem_filter.mp hn).2
  exact (Finset.card_le_card hsub).trans_eq (Finset.card_range bound)

/-- The next number is below the bound exactly if a number below it is free. -/
theorem lowestFree_lt_iff : lowestFree taken < bound ↔ takenBelow bound taken < bound := by
  constructor
  · intro hlt
    have hsub : taken.filter (· < bound) ⊆ (Finset.range bound).erase (lowestFree taken) := by
      intro n hn
      obtain ⟨hmem, hn⟩ := Finset.mem_filter.mp hn
      refine Finset.mem_erase.mpr ⟨?_, Finset.mem_range.mpr hn⟩
      rintro rfl
      exact lowestFree_notMem taken hmem
    have hcard := Finset.card_le_card hsub
    rw [Finset.card_erase_of_mem (Finset.mem_range.mpr hlt), Finset.card_range] at hcard
    rw [takenBelow]
    omega
  · intro hcount
    by_contra hge
    -- All numbers below the bound are taken.
    have hsub : Finset.range bound ⊆ taken.filter (· < bound) := by
      intro n hn
      rw [Finset.mem_range] at hn
      refine Finset.mem_filter.mpr ⟨?_, hn⟩
      by_contra hfree
      exact hge ((lowestFree_le hfree).trans_lt hn)
    have hcard := Finset.card_le_card hsub
    rw [Finset.card_range] at hcard
    exact absurd hcount (not_lt.mpr hcard)

/-- Each number that is given out is one more below the bound, until there is none left. -/
theorem takenBelow_takeLowest (bound : ℕ) (taken : Finset ℕ) :
    takenBelow bound (takeLowest taken) = min bound (takenBelow bound taken + 1) := by
  by_cases hlt : lowestFree taken < bound
  · have hcount := lowestFree_lt_iff.mp hlt
    have hnew : lowestFree taken ∉ taken.filter (· < bound) := fun hmem ↦
      lowestFree_notMem taken (Finset.mem_filter.mp hmem).1
    rw [takenBelow, takeLowest, Finset.filter_insert, if_pos hlt,
      Finset.card_insert_of_notMem hnew, ← takenBelow]
    omega
  · have hfull : takenBelow bound taken = bound := by
      have hle := takenBelow_le bound taken
      have hcount := mt lowestFree_lt_iff.mpr hlt
      omega
    rw [hfull, takenBelow, takeLowest, Finset.filter_insert, if_neg hlt, ← takenBelow, hfull]
    omega

end CppRepo
