import Mathlib

/-!
# Products of the summands of a number

A number is written as a sum of numbers that are at least one, and the summands are multiplied.
Which product is the largest can be told from the largest products of smaller numbers: a number that
is at least four need not stand alone, since `2 * (n - 2)` is no less than `n`, and a sum of several
numbers is cut in two after the first.

An integer `p` that is a product of summands of `n` satisfies `p ^ 3 ≤ 3 ^ n`, and powers of three
show that this is sharp.
-/

namespace CppRepo

section Splits

variable {α : Type*} [CommRing α] [LinearOrder α] {n m a b p v : α}

/-- The products of the summands of `n`. -/
def SummandProducts (n : α) : Set α :=
  {p | ∃ parts : List α, (∀ x ∈ parts, 1 ≤ x) ∧ parts ≠ [] ∧ parts.sum = n ∧ parts.prod = p}

namespace SummandProducts

theorem self_mem (hn : 1 ≤ n) : n ∈ SummandProducts n :=
  ⟨[n], fun _ hx ↦ List.mem_singleton.mp hx ▸ hn, List.cons_ne_nil _ _, List.sum_singleton,
    List.prod_singleton⟩

theorem mul_mem (ha : a ∈ SummandProducts n) (hb : b ∈ SummandProducts m) :
    a * b ∈ SummandProducts (n + m) := by
  obtain ⟨ps, hps, hne, rfl, rfl⟩ := ha
  obtain ⟨qs, hqs, -, rfl, rfl⟩ := hb
  refine ⟨ps ++ qs, fun x hx ↦ ?_, fun h ↦ hne (List.append_eq_nil_iff.mp h).1,
    List.sum_append, List.prod_append⟩
  exact (List.mem_append.mp hx).elim (hps x) (hqs x)

variable [IsStrictOrderedRing α]

theorem one_le_prod {parts : List α} (h : ∀ x ∈ parts, 1 ≤ x) : 1 ≤ parts.prod := by
  induction parts with
  | nil => exact le_of_eq List.prod_nil.symm
  | cons x parts ih =>
    rw [List.prod_cons]
    exact one_le_mul_of_one_le_of_one_le (h x List.mem_cons_self)
      (ih fun y hy ↦ h y (List.mem_cons_of_mem x hy))

theorem one_le (hp : p ∈ SummandProducts n) : 1 ≤ p := by
  obtain ⟨parts, hparts, -, -, rfl⟩ := hp
  exact one_le_prod hparts

theorem one_le_sum {parts : List α} (hne : parts ≠ []) (h : ∀ x ∈ parts, 1 ≤ x) :
    1 ≤ parts.sum := by
  induction parts with
  | nil => exact absurd rfl hne
  | cons x parts ih =>
    have hx := h x List.mem_cons_self
    rw [List.sum_cons]
    rcases eq_or_ne parts [] with rfl | hparts
    · rwa [List.sum_nil, add_zero]
    · have hsum := ih hparts fun y hy ↦ h y (List.mem_cons_of_mem x hy)
      linarith

/-- **The cut in two.** From four on, each product is at most a product for two smaller numbers. -/
theorem exists_split (hn : 4 ≤ n) (hp : p ∈ SummandProducts n) :
    ∃ j, 1 ≤ j ∧ j ≤ n - j ∧
      ∃ a ∈ SummandProducts j, ∃ b ∈ SummandProducts (n - j), p ≤ a * b := by
  obtain ⟨parts, hparts, hne, rfl, rfl⟩ := hp
  rcases parts with - | ⟨x, rest⟩
  · exact absurd rfl hne
  have hx := hparts x List.mem_cons_self
  have hrest : ∀ y ∈ rest, 1 ≤ y := fun y hy ↦ hparts y (List.mem_cons_of_mem x hy)
  rcases eq_or_ne rest [] with rfl | hrestne
  · -- The number stands alone: it is cut into two and the rest.
    rw [List.sum_singleton] at hn ⊢
    rw [List.prod_singleton]
    refine ⟨2, one_le_two, by linarith, 2, self_mem one_le_two, x - 2, self_mem (by linarith), ?_⟩
    linarith
  · have hsum := one_le_sum hrestne hrest
    have hxmem : x ∈ SummandProducts x := self_mem hx
    have hrestmem : rest.prod ∈ SummandProducts rest.sum := ⟨rest, hrest, hrestne, rfl, rfl⟩
    rw [List.sum_cons, List.prod_cons]
    rcases le_total x rest.sum with hle | hle
    · refine ⟨x, hx, by linarith, x, hxmem, rest.prod, ?_, le_rfl⟩
      rwa [add_sub_cancel_left]
    · refine ⟨rest.sum, hsum, by linarith, rest.prod, hrestmem, x, ?_, (mul_comm _ _).le⟩
      rwa [add_sub_cancel_right]

/-- **The recurrence.** The largest of the products for the cuts in two is the largest product. -/
theorem isGreatest_of_splits (hn : 4 ≤ n)
    (hmem : ∃ j a b, a ∈ SummandProducts j ∧ b ∈ SummandProducts (n - j) ∧ v = a * b)
    (hle : ∀ j, 1 ≤ j → j ≤ n - j → ∃ a b, IsGreatest (SummandProducts j) a ∧
      IsGreatest (SummandProducts (n - j)) b ∧ a * b ≤ v) :
    IsGreatest (SummandProducts n) v := by
  constructor
  · obtain ⟨j, a, b, ha, hb, rfl⟩ := hmem
    have hab := mul_mem ha hb
    rwa [add_sub_cancel] at hab
  · intro p hp
    obtain ⟨j, hj, hjn, a, ha, b, hb, hpab⟩ := exists_split hn hp
    obtain ⟨a', b', ha', hb', hv⟩ := hle j hj hjn
    have hnonneg : 0 ≤ b := zero_le_one.trans (one_le hb)
    have hnonneg' : 0 ≤ a' := zero_le_one.trans (one_le ha'.1)
    calc p ≤ a * b := hpab
      _ ≤ a' * b' := mul_le_mul (ha'.2 ha) (hb'.2 hb) hnonneg hnonneg'
      _ ≤ v := hv

end SummandProducts

end Splits

/-! ## How large the products are

For each summand its cube is bounded by a power of three, and the product of the powers is that of
the sum. -/

namespace SummandProducts

variable {n p : ℤ}

theorem cube_le_three_pow (x : ℕ) : x ^ 3 ≤ 3 ^ x := by
  rcases lt_or_ge x 3 with hlt | hge
  · interval_cases x <;> decide
  induction x, hge using Nat.le_induction with
  | base => decide
  | succ x hx ih =>
    have hstep : (x + 1) ^ 3 ≤ 3 * x ^ 3 := by
      obtain ⟨k, rfl⟩ := Nat.exists_eq_add_of_le hx
      nlinarith [Nat.zero_le (k ^ 3), Nat.zero_le (k ^ 2)]
    calc (x + 1) ^ 3 ≤ 3 * x ^ 3 := hstep
      _ ≤ 3 * 3 ^ x := Nat.mul_le_mul_left 3 ih
      _ = 3 ^ (x + 1) := by rw [pow_succ, mul_comm]

theorem cube_le (hp : p ∈ SummandProducts n) : p ^ 3 ≤ 3 ^ n.toNat := by
  obtain ⟨parts, hparts, -, rfl, rfl⟩ := hp
  have hbound : 0 ≤ parts.sum ∧ parts.prod ^ 3 ≤ 3 ^ parts.sum.toNat := by
    induction parts with
    | nil => simp
    | cons x parts ih =>
      have hx := hparts x List.mem_cons_self
      obtain ⟨hsum, hprod⟩ := ih fun y hy ↦ hparts y (List.mem_cons_of_mem x hy)
      have hcube : x ^ 3 ≤ 3 ^ x.toNat := by
        have hcast : ((x.toNat : ℕ) : ℤ) = x := Int.toNat_of_nonneg (by omega)
        have hle := cube_le_three_pow x.toNat
        zify at hle
        rwa [hcast] at hle
      have hpos : 0 ≤ parts.prod ^ 3 :=
        pow_nonneg (zero_le_one.trans (one_le_prod fun y hy ↦
          hparts y (List.mem_cons_of_mem x hy))) 3
      rw [List.sum_cons, List.prod_cons]
      refine ⟨by omega, ?_⟩
      rw [Int.toNat_add (by omega) hsum, pow_add, mul_pow]
      exact mul_le_mul hcube hprod hpos (by positivity)
  exact hbound.2

theorem le_of_cube_lt {v : ℤ} (hv : 3 ^ n.toNat < (v + 1) ^ 3) (hp : p ∈ SummandProducts n) :
    p ≤ v := by
  have hlt : p ^ 3 < (v + 1) ^ 3 := (cube_le hp).trans_lt hv
  have hpv : p < v + 1 := lt_of_pow_lt_pow_left₀ 3 ?_ hlt
  · omega
  · by_contra hneg
    have hcube : (v + 1) ^ 3 ≤ 0 := by
      have hodd : Odd 3 := by decide
      exact hodd.pow_nonpos (by omega)
    have hpos : (0 : ℤ) < 3 ^ n.toNat := by positivity
    omega

theorem isGreatest_self (hn : 1 ≤ n) (hn' : n ≤ 3) : IsGreatest (SummandProducts n) n := by
  refine ⟨self_mem hn, fun p hp ↦ le_of_cube_lt ?_ hp⟩
  interval_cases n <;> decide

end SummandProducts

end CppRepo
