import CppRepo.Library.CLibrary
import CppRepo.Library.SummandProducts

/-!
# The largest product of summands

`maxproduct` fills an array with the largest products for all lengths up to its argument, from the
products for two parts. The same program is read twice: with integers that hold every number, and
with `int`, for which a sum or a product that does not fit is an overflow. `new int[]` is taken to
find the memory it asks for.
-/

namespace CppRepo

namespace MaxProduct

/-- What ends a run. An overflow and an access outside the array, or to an element that was not
written, are undefined behaviour. -/
inductive Halt where
  | additionOverflow
  | multiplicationOverflow
  | badArrayNewLength
  | badAccess
  | cutOff
  deriving DecidableEq, Repr

/-- A program with the array `product`, whose elements are unset at first. -/
abbrev ProductM (α : Type) := EStateM Halt (List (Option ℤ)) α

/-- An integer holds every number. -/
def EveryFits (_ : ℤ) : Prop := True

instance : DecidablePred EveryFits := fun _ ↦ inferInstanceAs (Decidable True)

section Model

variable (fits : ℤ → Prop) [DecidablePred fits]

/-- `x + y`. -/
def add (x y : ℤ) : ProductM ℤ :=
  if fits (x + y) then return x + y else throw .additionOverflow

/-- `x * y`. -/
def mul (x y : ℤ) : ProductM ℤ :=
  if fits (x * y) then return x * y else throw .multiplicationOverflow

/-- `product = new int[n]`. -/
def newProduct (n : ℤ) : ProductM Unit :=
  if n < 0 then throw .badArrayNewLength else set (List.replicate n.toNat (none : Option ℤ))

/-- `product[i]`. -/
def readProduct (i : ℤ) : ProductM ℤ := do
  let array ← get
  match if 0 ≤ i then array[i.toNat]? else none with
  | some (some v) => return v
  | _ => throw .badAccess

/-- `product[i] = v`. -/
def writeProduct (i v : ℤ) : ProductM Unit := do
  if 0 ≤ i ∧ i < (← get).length then modify fun a ↦ a.set i.toNat (some v) else throw .badAccess

/-- The inner loop of `maxproduct`, which tries the parts `j` and `i-j`. -/
def splitLoop (i : ℤ) : ℕ → ℤ → ℤ → ProductM ℤ
  | 0, j, max => if j ≤ i.tdiv 2 then throw .cutOff else return max
  | rounds + 1, j, max => do
    if j ≤ i.tdiv 2 then
      let tmp ← mul fits (← readProduct j) (← readProduct (i - j))
      let max := if max < tmp then tmp else max
      splitLoop i rounds (← add fits j 1) max
    else
      return max

/-- The outer loop of `maxproduct`. -/
def lengthLoop (length : ℤ) (turns : ℕ) : ℕ → ℤ → ProductM Unit
  | 0, i => if i ≤ length then throw .cutOff else return
  | rounds + 1, i => do
    if i ≤ length then
      writeProduct i (← splitLoop fits i turns 1 0)
      lengthLoop length turns rounds (← add fits i 1)
    else
      return

/-- `maxproduct`. -/
def maxproduct (rounds : ℕ) (length : ℤ) : ProductM ℤ := do
  if length = 0 then return 0
  else if length = 1 then return 1
  else if length = 2 then return 2
  else if length = 3 then return 3
  else
    newProduct (← add fits length 1)
    writeProduct 0 0
    writeProduct 1 1
    writeProduct 2 2
    writeProduct 3 3
    lengthLoop fits length rounds rounds 4
    let max ← readProduct length
    -- `delete []product`
    set ([] : List (Option ℤ))
    return max

end Model

section Rules

variable {fits : ℤ → Prop} [DecidablePred fits] {array : List (Option ℤ)} {i v x y : ℤ}
  {E : Halt → List (Option ℤ) → Prop}

private theorem add_of_fits (h : fits (x + y)) : add fits x y = pure (x + y) := if_pos h

private theorem mul_of_fits (h : fits (x * y)) : mul fits x y = pure (x * y) := if_pos h

private theorem mul_of_not_fits (h : ¬ fits (x * y)) :
    mul fits x y = throw .multiplicationOverflow := if_neg h

/-- The element `i` of the array is `v`. -/
def Holds (array : List (Option ℤ)) (i v : ℤ) : Prop :=
  0 ≤ i ∧ array[i.toNat]? = some (some v)

theorem ensures_readProduct {Q : ℤ → List (Option ℤ) → Prop} (h : Holds array i v) :
    Ensures (readProduct i) array Q E ↔ Q v array := by
  simp only [readProduct, ensures_bind, ensures_get, if_pos h.1, h.2, ensures_pure]

theorem ensures_writeProduct {Q : Unit → List (Option ℤ) → Prop} (hi : 0 ≤ i)
    (hlt : i < array.length) :
    Ensures (writeProduct i v) array Q E ↔ Q ⟨⟩ (array.set i.toNat (some v)) := by
  simp only [writeProduct, ensures_bind, ensures_get, if_pos (And.intro hi hlt), ensures_modify]

private theorem holds_set_self (hi : 0 ≤ i) (hlt : i < array.length) :
    Holds (array.set i.toNat (some v)) i v :=
  ⟨hi, List.getElem?_set_self (by omega)⟩

theorem Holds.set {k w : ℤ} (h : Holds array k w) (hi : 0 ≤ i) (hne : k ≠ i) :
    Holds (array.set i.toNat (some v)) k w := by
  have hk := h.1
  refine ⟨hk, ?_⟩
  rw [List.getElem?_set_ne (by omega)]
  exact h.2

end Rules

/-! ## The loops

In the inner loop the largest product found so far is that of two parts up to the one that was tried
last. The parts are largest products of their own lengths, which the array has; and for a length of
at least four two parts are never worse than one. -/

section Loops

variable {fits : ℤ → Prop} [DecidablePred fits] {array : List (Option ℤ)} {length i : ℤ}

/-- The array has the largest products for the lengths below `i`, and they fit. -/
def Filled (fits : ℤ → Prop) (array : List (Option ℤ)) (i : ℤ) : Prop :=
  ∀ k, 1 ≤ k → k < i → ∃ v, Holds array k v ∧ IsGreatest (SummandProducts k) v ∧ fits v

/-- Some product for the length `i` does not fit. -/
def Exceeds (fits : ℤ → Prop) (i : ℤ) : Prop := ∃ p ∈ SummandProducts i, ¬ fits p

/-- What the inner loop has found when it comes to `j`: `max` is at least each product tried, and is
one of them if it is not zero. -/
structure FoundBelow (i j max : ℤ) : Prop where
  nonneg : 0 ≤ max
  ge : ∀ k, 1 ≤ k → k < j → ∃ a b, IsGreatest (SummandProducts k) a ∧
    IsGreatest (SummandProducts (i - k)) b ∧ a * b ≤ max
  attained : 0 < max → ∃ k a b, a ∈ SummandProducts k ∧ b ∈ SummandProducts (i - k) ∧ max = a * b

private theorem foundBelow_one (i : ℤ) : FoundBelow i 1 0 :=
  ⟨le_rfl, fun k hk hk' ↦ by omega, fun h ↦ absurd h (lt_irrefl 0)⟩

theorem FoundBelow.step {j max a b : ℤ} (h : FoundBelow i j max)
    (ha : IsGreatest (SummandProducts j) a) (hb : IsGreatest (SummandProducts (i - j)) b) :
    FoundBelow i (j + 1) (if max < a * b then a * b else max) := by
  have hpos : 0 < a * b :=
    mul_pos (zero_lt_one.trans_le (SummandProducts.one_le ha.1))
      (zero_lt_one.trans_le (SummandProducts.one_le hb.1))
  split_ifs with hlt
  · refine ⟨hpos.le, fun k hk hkj ↦ ?_, fun _ ↦ ⟨j, a, b, ha.1, hb.1, rfl⟩⟩
    rcases eq_or_ne k j with rfl | hne
    · exact ⟨a, b, ha, hb, le_rfl⟩
    · obtain ⟨a', b', ha', hb', hle⟩ := h.ge k hk (by omega)
      exact ⟨a', b', ha', hb', hle.trans hlt.le⟩
  · refine ⟨h.nonneg, fun k hk hkj ↦ ?_, h.attained⟩
    rcases eq_or_ne k j with rfl | hne
    · exact ⟨a, b, ha, hb, not_lt.mp hlt⟩
    · exact h.ge k hk (by omega)

theorem FoundBelow.isGreatest {j max : ℤ} (h : FoundBelow i j max) (hi : 4 ≤ i)
    (hj : i < 2 * j) : IsGreatest (SummandProducts i) max := by
  have hpos : 0 < max := by
    obtain ⟨a, b, ha, hb, hle⟩ := h.ge 1 le_rfl (by omega)
    have hab := mul_pos (zero_lt_one.trans_le (SummandProducts.one_le ha.1))
      (zero_lt_one.trans_le (SummandProducts.one_le hb.1))
    exact hab.trans_le hle
  exact SummandProducts.isGreatest_of_splits hi (h.attained hpos)
    fun k hk hki ↦ h.ge k hk (by omega)

theorem ensures_splitLoop {turns : ℕ} {j max : ℤ} (hfill : Filled fits array i) (hi : 4 ≤ i)
    (hsmall : ∀ k, 1 ≤ k → k ≤ i → fits k) (hj : 1 ≤ j) (hfound : FoundBelow i j max)
    (hmax : fits max) (hturns : i < 2 * (j + turns)) :
    Ensures (splitLoop fits i turns j max) array
      (fun v a ↦ a = array ∧ IsGreatest (SummandProducts i) v ∧ fits v)
      (fun e _ ↦ e = .multiplicationOverflow ∧ Exceeds fits i) := by
  have hhalf : ∀ j : ℤ, j ≤ i.tdiv 2 ↔ 2 * j ≤ i := by
    intro j
    rw [Int.tdiv_eq_ediv_of_nonneg (by omega)]
    omega
  induction turns generalizing j max with
  | zero =>
    have hdone : ¬ j ≤ i.tdiv 2 := by
      rw [hhalf]
      omega
    rw [splitLoop, if_neg hdone]
    exact ⟨rfl, hfound.isGreatest hi (by omega), hmax⟩
  | succ turns ih =>
    rw [splitLoop]
    by_cases hle : j ≤ i.tdiv 2
    case neg =>
      rw [if_neg hle]
      rw [hhalf] at hle
      exact ⟨rfl, hfound.isGreatest hi (by omega), hmax⟩
    rw [if_pos hle]
    rw [hhalf] at hle
    obtain ⟨a, hreada, ha, -⟩ := hfill j hj (by omega)
    obtain ⟨b, hreadb, hb, -⟩ := hfill (i - j) (by omega) (by omega)
    rw [ensures_bind, ensures_readProduct hreada, ensures_bind, ensures_readProduct hreadb]
    by_cases hfits : fits (a * b)
    · rw [mul_of_fits hfits, pure_bind, add_of_fits (hsmall (j + 1) (by omega) (by omega)),
        pure_bind]
      refine ih (by omega) (hfound.step ha hb) ?_ (by push_cast at hturns; omega)
      split_ifs
      · exact hfits
      · exact hmax
    · rw [mul_of_not_fits hfits]
      refine ⟨rfl, a * b, ?_, hfits⟩
      have hmem := SummandProducts.mul_mem ha.1 hb.1
      rwa [add_sub_cancel] at hmem

omit [DecidablePred fits] in
theorem Filled.set {v : ℤ} (hfill : Filled fits array i) (hi : 1 ≤ i) (hlt : i < array.length)
    (hv : IsGreatest (SummandProducts i) v) (hfits : fits v) :
    Filled fits (array.set i.toNat (some v)) (i + 1) := by
  intro k hk hki
  rcases eq_or_ne k i with rfl | hne
  · exact ⟨v, holds_set_self (by omega) hlt, hv, hfits⟩
  · obtain ⟨w, hread, hw⟩ := hfill k hk (by omega)
    exact ⟨w, hread.set (by omega) hne, hw⟩

theorem ensures_lengthLoop {turns rounds : ℕ} (hfill : Filled fits array i) (hi : 4 ≤ i)
    (hsize : (array.length : ℤ) = length + 1) (hsmall : ∀ k, 0 ≤ k → k ≤ length + 1 → fits k)
    (hturns : length ≤ turns) (hrounds : length < i + rounds) :
    Ensures (lengthLoop fits length turns rounds i) array
      (fun _ a ↦ Filled fits a (length + 1))
      (fun e _ ↦ e = .multiplicationOverflow ∧ ∃ k, 4 ≤ k ∧ k ≤ length ∧ Exceeds fits k) := by
  induction rounds generalizing i array with
  | zero =>
    have hdone : ¬ i ≤ length := by omega
    rw [lengthLoop, if_neg hdone]
    exact fun k hk hk' ↦ hfill k hk (by omega)
  | succ rounds ih =>
    rw [lengthLoop]
    by_cases hle : i ≤ length
    case neg =>
      rw [if_neg hle]
      exact fun k hk hk' ↦ hfill k hk (by omega)
    rw [if_pos hle, ensures_bind]
    refine (ensures_splitLoop hfill hi (fun k hk hki ↦ hsmall k (by omega) (by omega)) le_rfl
      (foundBelow_one i) (hsmall 0 le_rfl (by omega)) (by omega)).mono ?_
      fun _ _ ⟨he, hexceeds⟩ ↦ ⟨he, i, hi, hle, hexceeds⟩
    rintro v _ ⟨rfl, hv, hfits⟩
    rw [ensures_bind, ensures_writeProduct (by omega) (by omega),
      add_of_fits (hsmall (i + 1) (by omega) (by omega)), pure_bind]
    exact ih (hfill.set (by omega) (by omega) hv hfits) (by omega)
      (by rw [List.length_set, hsize]) (by push_cast at hrounds; omega)

end Loops

/-! ## The result

Each product that is formed is one of summands of a length, and the largest of them grow with the
length. So whether a multiplication overflows is seen from the products for the argument itself. -/

section Result

variable {fits : ℤ → Prop} [DecidablePred fits] {array : List (Option ℤ)} {length : ℤ} {rounds : ℕ}

theorem ensures_maxproduct (hlength : 1 ≤ length)
    (hsmall : ∀ k, 0 ≤ k → k ≤ length + 1 → fits k) (hrounds : length ≤ rounds) :
    Ensures (maxproduct fits rounds length) array
      (fun v _ ↦ IsGreatest (SummandProducts length) v ∧
        ∀ k, 4 ≤ k → k ≤ length → ∃ w, IsGreatest (SummandProducts k) w ∧ fits w)
      (fun e _ ↦ e = .multiplicationOverflow ∧ ∃ k, 4 ≤ k ∧ k ≤ length ∧ Exceeds fits k) := by
  have hself : length ≤ 3 → IsGreatest (SummandProducts length) length ∧
      ∀ k, 4 ≤ k → k ≤ length → ∃ w, IsGreatest (SummandProducts k) w ∧ fits w := fun hle ↦
    ⟨SummandProducts.isGreatest_self hlength hle, fun k hk hk' ↦ absurd hk' (by omega)⟩
  rw [maxproduct, if_neg (by omega)]
  by_cases h1 : length = 1
  · subst h1
    exact hself (by omega)
  by_cases h2 : length = 2
  · subst h2
    exact hself (by omega)
  by_cases h3 : length = 3
  · subst h3
    exact hself (by omega)
  have hsize : (List.replicate (length + 1).toNat (none : Option ℤ)).length = length + 1 := by
    rw [List.length_replicate]
    omega
  rw [if_neg h1, if_neg h2, if_neg h3, add_of_fits (hsmall (length + 1) (by omega) le_rfl),
    pure_bind, newProduct, if_neg (by omega), ensures_bind, ensures_set]
  generalize List.replicate (length + 1).toNat (none : Option ℤ) = product at hsize ⊢
  have hfour : Filled fits
      ((((product.set 0 (some 0)).set 1 (some 1)).set 2 (some 2)).set 3 (some 3)) 4 := by
    have hone : Filled fits (product.set 0 (some 0)) 1 := fun k hk hk' ↦ absurd hk (by omega)
    have htwo := hone.set le_rfl (by rw [List.length_set]; omega)
      (SummandProducts.isGreatest_self le_rfl (by omega)) (hsmall 1 (by omega) (by omega))
    have hthree := htwo.set (by omega) (by simp only [List.length_set]; omega)
      (SummandProducts.isGreatest_self (by omega) (by omega)) (hsmall 2 (by omega) (by omega))
    exact hthree.set (by omega) (by simp only [List.length_set]; omega)
      (SummandProducts.isGreatest_self (by omega) le_rfl) (hsmall 3 (by omega) (by omega))
  rw [ensures_bind, ensures_writeProduct le_rfl (by omega), ensures_bind,
    ensures_writeProduct zero_le_one (by simp only [List.length_set]; omega), ensures_bind,
    ensures_writeProduct zero_le_two (by simp only [List.length_set]; omega), ensures_bind,
    ensures_writeProduct (by omega) (by simp only [List.length_set]; omega), ensures_bind]
  refine (ensures_lengthLoop hfour le_rfl (by simp only [List.length_set]; exact hsize) hsmall
    hrounds (by omega)).mono ?_ fun _ _ ↦ id
  rintro - array hfill
  obtain ⟨v, hread, hv, -⟩ := hfill length hlength (by omega)
  rw [ensures_bind, ensures_readProduct hread, ensures_bind, ensures_set]
  refine ⟨hv, fun k hk hk' ↦ ?_⟩
  obtain ⟨w, -, hw⟩ := hfill k (by omega) (by omega)
  exact ⟨w, hw⟩

private theorem not_exceeds_of_le (hlength : length ≤ 58) : ¬ Exceeds IntFits length := by
  rintro ⟨p, hp, hfits⟩
  have hone := SummandProducts.one_le hp
  have hle : p ≤ intMax := by
    refine SummandProducts.le_of_cube_lt ?_ hp
    have hpow : (3 : ℤ) ^ length.toNat ≤ 3 ^ 58 :=
      pow_le_pow_right₀ (by norm_num) (by omega)
    have hlt : (3 : ℤ) ^ 58 < ((intMax : ℤ) + 1) ^ 3 := by norm_num [intMax]
    exact hpow.trans_lt hlt
  exact hfits ⟨by omega, hle⟩

private theorem exceeds_59 : ∃ p ∈ SummandProducts (59 : ℤ), (intMax : ℤ) < p :=
  ⟨2 * 3 ^ 19, ⟨2 :: List.replicate 19 3, by decide, List.cons_ne_nil _ _, by decide, by decide⟩,
    by norm_num [intMax]⟩

private theorem maxproduct_of_intMax (rounds : ℕ) (array : List (Option ℤ)) :
    maxproduct IntFits rounds intMax array = .error .additionOverflow array := by
  have hadd : add IntFits intMax 1 = throw .additionOverflow := if_neg (by decide)
  rw [maxproduct, if_neg (by decide), if_neg (by decide), if_neg (by decide), if_neg (by decide),
    hadd]
  rfl

/-- `maxproduct` with `int`. -/
theorem ensures_maxproduct_int (hlength : 1 ≤ length) (hmax : length ≤ intMax)
    (hrounds : length ≤ rounds) :
    Ensures (maxproduct IntFits rounds length) array
      (fun v _ ↦ length ≤ 58 ∧ IsGreatest (SummandProducts length) v)
      fun e _ ↦ if length = intMax then e = .additionOverflow
        else e = .multiplicationOverflow ∧ 58 < length := by
  by_cases heq : length = intMax
  · subst heq
    rw [Ensures, maxproduct_of_intMax]
    dsimp only
    rw [if_pos rfl]
  have hsmall : ∀ k, 0 ≤ k → k ≤ length + 1 → IntFits k := fun k hk hk' ↦
    ⟨by omega, by omega⟩
  simp only [if_neg heq]
  refine (ensures_maxproduct hlength hsmall hrounds).mono ?_ ?_
  · rintro v - ⟨hv, hfit⟩
    refine ⟨?_, hv⟩
    by_contra hlt
    obtain ⟨w, hw, hfits⟩ := hfit 59 (by omega) (by omega)
    obtain ⟨p, hp, hgt⟩ := exceeds_59
    have hpw := hw.2 hp
    have hle := hfits.2
    omega
  · rintro e - ⟨rfl, k, -, hk, hexceeds⟩
    refine ⟨rfl, ?_⟩
    by_contra hle
    exact not_exceeds_of_le (by omega) hexceeds

/-- **The largest product.** With integers that hold every number, `maxproduct` returns the largest
product of summands of its argument. With `int` no multiplication overflows exactly if the argument
is at most 58 or is `INT_MAX`, for which already the size of the array overflows. -/
theorem maxproduct_largest (length : ℤ) (hlength : 1 ≤ length) (array : List (Option ℤ)) :
    ∃ n, ∀ rounds ≥ n,
      Ensures (maxproduct EveryFits rounds length) array
        (fun v _ ↦ IsGreatest (SummandProducts length) v) (fun _ _ ↦ False) ∧
      (length ≤ intMax →
        (Ensures (maxproduct IntFits rounds length) array (fun _ _ ↦ True)
          (fun e _ ↦ e ≠ .multiplicationOverflow) ↔ length ≤ 58 ∨ length = intMax)) := by
  refine ⟨length.toNat, fun rounds hrounds ↦ ⟨?_, fun hmax ↦ ?_⟩⟩
  · refine (ensures_maxproduct hlength (fun _ _ _ ↦ trivial) (by omega)).mono (fun _ _ h ↦ h.1) ?_
    rintro e - ⟨-, k, -, -, p, -, hfits⟩
    exact hfits trivial
  have hint : Ensures (maxproduct IntFits rounds length) array _ _ :=
    ensures_maxproduct_int hlength hmax (by omega)
  rw [Ensures] at hint ⊢
  rcases hx : maxproduct IntFits rounds length array with ⟨v, t⟩ | ⟨e, t⟩
  · rw [hx] at hint
    exact iff_of_true trivial (.inl hint.1)
  · rw [hx] at hint
    dsimp only at hint ⊢
    split_ifs at hint with heq
    · exact iff_of_true (by rw [hint]; decide) (.inr heq)
    · exact iff_of_false (fun hne ↦ hne hint.1) (by omega)

/-- For fifty-nine a multiplication overflows. -/
theorem maxproduct_largest_59 :
    ∃ n, ∀ rounds ≥ n, ¬ Ensures (maxproduct IntFits rounds 59) [] (fun _ _ ↦ True)
        fun e _ ↦ e ≠ .multiplicationOverflow := by
  obtain ⟨n, hn⟩ := maxproduct_largest 59 (by decide) []
  exact ⟨n, fun rounds hrounds h ↦ absurd (((hn rounds hrounds).2 (by decide)).mp h) (by decide)⟩

/-- For `INT_MAX` no multiplication is made. -/
theorem maxproduct_intMax :
    ¬ ∀ length : ℤ, 1 ≤ length → length ≤ intMax → ∃ n, ∀ rounds ≥ n,
      (Ensures (maxproduct IntFits rounds length) [] (fun _ _ ↦ True)
        (fun e _ ↦ e ≠ .multiplicationOverflow) ↔ length ≤ 58) := by
  intro h
  obtain ⟨n, hn⟩ := h intMax (by decide) le_rfl
  have hrun : Ensures (maxproduct IntFits n intMax) [] (fun _ _ ↦ True)
      fun e _ ↦ e ≠ .multiplicationOverflow := by
    rw [Ensures, maxproduct_of_intMax]
    exact Halt.noConfusion
  exact absurd ((hn n le_rfl).mp hrun) (by decide)

end Result

end MaxProduct

end CppRepo
