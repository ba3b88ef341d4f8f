import Mathlib

/-!
# Bisection

To find an element in a sorted list one compares it with the element in the middle of a range of
indices and goes on with the half on one side of that. The ranges that come up form a tree, which is
given by the first range alone; the way through the tree is given by the list: it leads through the
ranges outside which the element cannot be.

A range may be empty, and its ends are integers, since the index before the first is the end of an
empty range.
-/

namespace CppRepo

/-- The ranges of a bisection of the indices from `lo` to `hi`. -/
inductive BisectionRange : ℤ → ℤ → ℤ → ℤ → Prop
  | whole (lo hi : ℤ) : BisectionRange lo hi lo hi
  | left {lo hi l h : ℤ} (hle : lo ≤ hi) (hlh : BisectionRange lo ((lo + hi) / 2 - 1) l h) :
    BisectionRange lo hi l h
  | right {lo hi l h : ℤ} (hle : lo ≤ hi) (hlh : BisectionRange ((lo + hi) / 2 + 1) hi l h) :
    BisectionRange lo hi l h

namespace BisectionRange

variable {lo hi l h r : ℤ}

theorem bounds (hlh : BisectionRange lo hi l h) (hle : lo ≤ hi + 1) :
    lo ≤ l ∧ h ≤ hi ∧ l ≤ h + 1 := by
  induction hlh with
  | whole lo hi => exact ⟨le_rfl, le_rfl, hle⟩
  | left hlohi _ ih =>
    have hmid := ih (by omega)
    omega
  | right hlohi _ ih =>
    have hmid := ih (by omega)
    omega

theorem single_mid_iff (hle : lo ≤ hi) (hr : (lo + hi) / 2 = r) :
    BisectionRange lo hi r r ↔ hi = r := by
  constructor
  · rintro (_ | ⟨-, hsub⟩ | ⟨-, hsub⟩)
    · rfl
    · have hbounds := hsub.bounds (by omega)
      omega
    · have hbounds := hsub.bounds (by omega)
      omega
  · rintro rfl
    obtain rfl : lo = hi := by omega
    exact whole lo lo

theorem single_left_iff (hle : lo ≤ hi) (hr : r < (lo + hi) / 2) :
    BisectionRange lo hi r r ↔ BisectionRange lo ((lo + hi) / 2 - 1) r r := by
  constructor
  · rintro (_ | ⟨-, hsub⟩ | ⟨-, hsub⟩)
    · omega
    · exact hsub
    · have hbounds := hsub.bounds (by omega)
      omega
  · exact left hle

theorem single_right_iff (hle : lo ≤ hi) (hr : (lo + hi) / 2 < r) :
    BisectionRange lo hi r r ↔ BisectionRange ((lo + hi) / 2 + 1) hi r r := by
  constructor
  · rintro (_ | ⟨-, hsub⟩ | ⟨-, hsub⟩)
    · omega
    · have hbounds := hsub.bounds (by omega)
      omega
    · exact hsub
  · exact right hle

end BisectionRange

section Within

variable {α : Type*} [LinearOrder α] {xs : List α} {x y : α} {lo hi bound : ℤ} {m : ℕ}

/-- Before the range everything is smaller than `x`, and after it everything is larger. -/
def Within (xs : List α) (x : α) (lo hi : ℤ) : Prop :=
  ∀ (i : ℕ) (y : α), xs[i]? = some y → ((i : ℤ) < lo → y < x) ∧ (hi < i → x < y)

theorem within_whole (xs : List α) (x : α) : Within xs x 0 (xs.length - 1) := by
  intro i y hy
  obtain ⟨hi, -⟩ := List.getElem?_eq_some_iff.mp hy
  omega

/-- In a sorted list, what stands before an index is no larger. -/
theorem getElem?_le_of_lt (hsorted : xs.Pairwise (· ≤ ·)) {i j : ℕ} {y z : α}
    (hy : xs[i]? = some y) (hz : xs[j]? = some z) (hij : i ≤ j) : y ≤ z := by
  obtain ⟨hi, rfl⟩ := List.getElem?_eq_some_iff.mp hy
  obtain ⟨hj, rfl⟩ := List.getElem?_eq_some_iff.mp hz
  rcases hij.eq_or_lt with rfl | hlt
  · exact le_rfl
  · exact List.pairwise_iff_getElem.mp hsorted i j hi hj hlt

theorem Within.left (h : Within xs x lo hi) (hsorted : xs.Pairwise (· ≤ ·))
    (hy : xs[m]? = some y) (hlt : x < y) : Within xs x lo (m - 1) := by
  refine fun i z hz ↦ ⟨(h i z hz).1, fun hi ↦ ?_⟩
  exact hlt.trans_le (getElem?_le_of_lt hsorted hy hz (by omega))

theorem Within.right (h : Within xs x lo hi) (hsorted : xs.Pairwise (· ≤ ·))
    (hy : xs[m]? = some y) (hlt : y < x) : Within xs x (m + 1) hi := by
  refine fun i z hz ↦ ⟨fun hi ↦ ?_, (h i z hz).2⟩
  exact (getElem?_le_of_lt hsorted hz hy (by omega)).trans_lt hlt

theorem Within.not_mem (h : Within xs x lo hi) (hlt : hi < lo) : x ∉ xs := by
  intro hx
  obtain ⟨i, hi⟩ := List.getElem?_of_mem hx
  rcases lt_or_ge (i : ℤ) lo with hlo | hlo
  · exact lt_irrefl x ((h i x hi).1 hlo)
  · exact lt_irrefl x ((h i x hi).2 (by omega))

/-! ## The sums of the ends

The sum of the two ends is formed for each range on the way. Whether all of them stay below a bound
is decided step by step, by the half in which the element is. -/

/-- The sum of the ends of each range on the way to `x` is at most `bound`. -/
def SumsBounded (bound : ℤ) (xs : List α) (x : α) (lo hi : ℤ) : Prop :=
  ∀ l h, BisectionRange lo hi l h → Within xs x l h → l + h ≤ bound

theorem SumsBounded.sum_le (h : SumsBounded bound xs x lo hi) (hwithin : Within xs x lo hi) :
    lo + hi ≤ bound := h lo hi (.whole lo hi) hwithin

/-- In a short list all sums are small. -/
theorem sumsBounded_of_le (hle : lo ≤ hi + 1) (hbound : 2 * hi + 1 ≤ bound) :
    SumsBounded bound xs x lo hi := by
  intro l h hlh _
  have hbounds := hlh.bounds hle
  omega

theorem sumsBounded_of_empty (hlt : hi < lo) (hsum : lo + hi ≤ bound) :
    SumsBounded bound xs x lo hi := by
  rintro l h (_ | ⟨hle, -⟩ | ⟨hle, -⟩) -
  · exact hsum
  · exact absurd hle (not_le.mpr hlt)
  · exact absurd hle (not_le.mpr hlt)

theorem sumsBounded_of_hit (hm : (lo + hi) / 2 = m) (hx : xs[m]? = some x)
    (hsum : lo + hi ≤ bound) : SumsBounded bound xs x lo hi := by
  rintro l h (_ | ⟨hle, hsub⟩ | ⟨hle, hsub⟩) hwithin
  · exact hsum
  · have hbounds := hsub.bounds (by omega)
    exact absurd ((hwithin m x hx).2 (by omega)) (lt_irrefl x)
  · have hbounds := hsub.bounds (by omega)
    exact absurd ((hwithin m x hx).1 (by omega)) (lt_irrefl x)

theorem sumsBounded_left_iff (hle : lo ≤ hi) (hm : (lo + hi) / 2 = m) (hy : xs[m]? = some y)
    (hlt : x < y) (hsum : lo + hi ≤ bound) :
    SumsBounded bound xs x lo hi ↔ SumsBounded bound xs x lo (m - 1) := by
  rw [← hm]
  constructor
  · exact fun hall l h hsub ↦ hall l h (.left hle hsub)
  · rintro hall l h (_ | ⟨-, hsub⟩ | ⟨-, hsub⟩) hwithin
    · exact hsum
    · exact hall l h hsub hwithin
    · have hbounds := hsub.bounds (by omega)
      exact absurd ((hwithin m y hy).1 (by omega)) (lt_asymm hlt)

theorem sumsBounded_right_iff (hle : lo ≤ hi) (hm : (lo + hi) / 2 = m) (hy : xs[m]? = some y)
    (hlt : y < x) (hsum : lo + hi ≤ bound) :
    SumsBounded bound xs x lo hi ↔ SumsBounded bound xs x (m + 1) hi := by
  rw [← hm]
  constructor
  · exact fun hall l h hsub ↦ hall l h (.right hle hsub)
  · rintro hall l h (_ | ⟨-, hsub⟩ | ⟨-, hsub⟩) hwithin
    · exact hsum
    · have hbounds := hsub.bounds (by omega)
      exact absurd ((hwithin m y hy).2 (by omega)) (lt_asymm hlt)
    · exact hall l h hsub hwithin

end Within

end CppRepo
