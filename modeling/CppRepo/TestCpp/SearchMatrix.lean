import CppRepo.Library.Heap
import CppRepo.Library.Bisection

/-!
# Search in a sorted matrix

`searchMatrix` finds the row that can hold a number by a bisection of the first elements of the
rows, and then bisects that row. The first bisection stops when it meets the number itself, but its
result is the end of the range it was in at that moment; and it has no row to give when the number
is larger than all first elements. The second bisection alone finds every number of a row in order
that is not too long. The state of a program is what was printed.

## Sums of indices

The middle of a range is half of the sum of its ends, and this sum is an `int`. For a range far to
the right the sum does not fit, although its half would. Whether a search forms such a sum depends
on where the number is, so the condition is about the sums that a bisection towards this number
forms, and not about the number of the rows alone.
-/

namespace CppRepo

namespace SearchMatrix

/-- A program that prints the lines `UPPER: ` with a number. -/
abbrev SearchM (α : Type) := EStateM (Fault CutOff) (List ℤ) α

/-- The loop of `lower_bound`, which leaves `start` and `end`. -/
def lowerBoundLoop (matrix : List (List ℤ)) (target : ℤ) :
    ℕ → ℤ → ℤ → ℤ → SearchM (ℤ × ℤ)
  | 0, start, end', _ => if start ≤ end' then throw (.thrown .cutOff) else return (start, end')
  | rounds + 1, start, end', mid => do
    if start ≤ end' then
      let first ← vectorAt (← vectorAt matrix (sizeOfInt mid)) 0
      if target = first then
        return (start, end')
      else if target < first then
        let end' ← sumInt mid (-1)
        let mid := (← sumInt start end').tdiv 2
        lowerBoundLoop matrix target rounds start end' mid
      else
        let start ← sumInt mid 1
        let mid := (← sumInt start end').tdiv 2
        lowerBoundLoop matrix target rounds start end' mid
    else
      return (start, end')

/-- `lower_bound`. -/
def lowerBound (rounds : ℕ) (matrix : List (List ℤ)) (target : ℤ) : SearchM ℤ := do
  let start := 0
  let end' := intOfSize (sizeMinusOne matrix)
  let mid := (← sumInt start end').tdiv 2
  let (start, end') ← lowerBoundLoop matrix target rounds start end' mid
  -- `start` is compared as a `size_t`.
  if sizeMinusOne matrix < sizeOfInt start ∨ end' < 0 then return -1
  return end'

/-- The loop of `find_mid`. -/
def findMidLoop (matrix : List (List ℤ)) (row target : ℤ) : ℕ → ℤ → ℤ → ℤ → SearchM Bool
  | 0, start, end', _ => if start ≤ end' then throw (.thrown .cutOff) else return false
  | rounds + 1, start, end', mid => do
    if start ≤ end' then
      let cell ← vectorAt (← vectorAt matrix (sizeOfInt row)) (sizeOfInt mid)
      if cell = target then
        return true
      else if target < cell then
        let end' ← sumInt mid (-1)
        let mid := (← sumInt start end').tdiv 2
        findMidLoop matrix row target rounds start end' mid
      else
        let start ← sumInt mid 1
        let mid := (← sumInt start end').tdiv 2
        findMidLoop matrix row target rounds start end' mid
    else
      return false

/-- `find_mid`. -/
def findMid (rounds : ℕ) (matrix : List (List ℤ)) (row target : ℤ) : SearchM Bool := do
  let start := 0
  let end' := intOfSize (sizeMinusOne (← vectorAt matrix (sizeOfInt row)))
  let mid := (← sumInt start end').tdiv 2
  findMidLoop matrix row target rounds start end' mid

/-- `searchMatrix`. -/
def searchMatrix (rounds : ℕ) (matrix : List (List ℤ)) (target : ℤ) : SearchM Bool := do
  if matrix.isEmpty then return false
  let first ← vectorAt matrix 0
  if first.isEmpty then return false
  if target < (← vectorAt first 0) then return false
  let last ← vectorAt matrix (sizeMinusOne matrix)
  if (← vectorAt last (sizeMinusOne first)) < target then return false
  let upper ← lowerBound rounds matrix target
  modify (· ++ [upper])
  if upper < 0 then return false
  findMid rounds matrix upper target

variable {matrix : List (List ℤ)} {row : List ℤ} {target : ℤ} {out : List ℤ} {rounds r : ℕ}

/-! ## The bisections

Both bisections keep a range with everything to the left smaller than the number and everything
to the right larger. A range and its halves are followed once, and used for the column and for a
row. -/

/-- The first elements of the rows. -/
def firstColumn (matrix : List (List ℤ)) : List ℤ := matrix.map fun row ↦ row.headD 0

/-- What is known of the variables of a bisection of `xs` that looks for `target`. -/
structure Searching (xs : List ℤ) (target start end' : ℤ) (rounds : ℕ) : Prop where
  within : Within xs target start end'
  nonneg : 0 ≤ start
  lt_length : end' < xs.length
  le : start ≤ end' + 1
  sum_le : start + end' ≤ intMax
  end_le : end' ≤ intMax
  enough : end' + 1 ≤ start + rounds

namespace Searching

variable {xs : List ℤ} {start end' y : ℤ} {m : ℕ}

private theorem of_whole (hn : (xs.length : ℤ) - 1 ≤ intMax) (hrounds : xs.length ≤ rounds) :
    Searching xs target 0 (xs.length - 1) rounds :=
  ⟨within_whole xs target, le_rfl, by omega, by omega, by omega, hn, by omega⟩

private theorem exists_mid (h : Searching xs target start end' rounds) (hle : start ≤ end') :
    ∃ (m : ℕ) (y : ℤ), (start + end') / 2 = m ∧ (start + end').tdiv 2 = m ∧ start ≤ m ∧
      (m : ℤ) ≤ end' ∧ sizeOfInt m = m ∧ xs[m]? = some y := by
  have hnonneg := h.nonneg
  have hlength := h.lt_length
  have hend := h.end_le
  have hmax : (intMax : ℤ) = 2 ^ 31 - 1 := by decide
  obtain ⟨m, hm⟩ := Int.eq_ofNat_of_zero_le (by omega : 0 ≤ (start + end') / 2)
  have hlt : m < xs.length := by omega
  refine ⟨m, xs[m], hm, ?_, by omega, by omega, sizeOfInt_natCast (by omega),
    List.getElem?_eq_getElem hlt⟩
  rw [Int.tdiv_eq_ediv_of_nonneg (by omega), hm]

theorem left (h : Searching xs target start end' (rounds + 1)) (hsorted : xs.Pairwise (· ≤ ·))
    (hm : (start + end') / 2 = m) (hle : start ≤ end') (hy : xs[m]? = some y) (hlt : target < y) :
    Searching xs target start (m - 1) rounds := by
  obtain ⟨hwithin, hnonneg, hlength, -, hsum, hend, henough⟩ := h
  push_cast at henough
  exact ⟨hwithin.left hsorted hy hlt, hnonneg, by omega, by omega, by omega, by omega, by omega⟩

theorem right (h : Searching xs target start end' (rounds + 1)) (hsorted : xs.Pairwise (· ≤ ·))
    (hm : (start + end') / 2 = m) (hle : start ≤ end') (hy : xs[m]? = some y) (hlt : y < target)
    (hsum' : m + 1 + end' ≤ intMax) :
    Searching xs target (m + 1) end' rounds := by
  obtain ⟨hwithin, hnonneg, hlength, -, hsum, hend, henough⟩ := h
  push_cast at henough
  exact ⟨hwithin.right hsorted hy hlt, by omega, by omega, by omega, by omega, by omega, by omega⟩

theorem not_mem (h : Searching xs target start end' rounds) (hlt : ¬ start ≤ end') :
    target ∉ xs := h.within.not_mem (by omega)

private theorem sumsBounded (h : Searching xs target start end' rounds) (hlt : ¬ start ≤ end') :
    SumsBounded intMax xs target start end' := sumsBounded_of_empty (by omega) h.sum_le

private theorem not_le_of_zero (h : Searching xs target start end' 0) : ¬ start ≤ end' := by
  have henough := h.enough
  push_cast at henough
  omega

end Searching

section Steps

variable {α : Type} {xs : List ℤ} {start end' y : ℤ} {m : ℕ} {next : ℤ → ℤ → ℤ → SearchM α}
  {Q : α → List ℤ → Prop} {E : Fault CutOff → List ℤ → Prop}

private theorem ensures_goLeft (h : Searching xs target start end' (rounds + 1))
    (hm : (start + end') / 2 = m) (hle : start ≤ end') :
    Ensures (do
      let end' ← sumInt m (-1)
      let mid := (← sumInt start end').tdiv 2
      next start end' mid) out Q E
      ↔ Ensures (next start (m - 1) ((start + (m - 1)).tdiv 2)) out Q E := by
  obtain ⟨-, hnonneg, -, -, hsum, hend, -⟩ := h
  rw [sumInt_of_fits ⟨by omega, by omega⟩, pure_bind, sumInt_of_fits ⟨by omega, by omega⟩,
    pure_bind, ← sub_eq_add_neg]

private theorem ensures_goRight (h : Searching xs target start end' (rounds + 1))
    (hm : (start + end') / 2 = m) (hle : start ≤ end') :
    Ensures (do
      let start ← sumInt m 1
      let mid := (← sumInt start end').tdiv 2
      next start end' mid) out Q E
      ↔ if m + 1 + end' ≤ intMax then
          Ensures (next (m + 1) end' ((m + 1 + end').tdiv 2)) out Q E
        else E .undefinedBehaviour out := by
  obtain ⟨-, hnonneg, -, -, hsum, hend, -⟩ := h
  have hpos : (0 : ℤ) < intMax := by decide
  rw [sumInt_of_fits ⟨by omega, by omega⟩, pure_bind]
  split_ifs with hsum'
  · rw [sumInt_of_fits ⟨by omega, hsum'⟩, pure_bind]
  · rw [sumInt_of_not_fits fun hfits ↦ hsum' hfits.2]
    rfl

end Steps

private theorem sizeOfInt_row (hr : r ≤ intMax) : sizeOfInt r = r :=
  sizeOfInt_natCast (hr.trans_lt (by decide))

theorem ensures_findMidLoop {start end' : ℤ} (hrow : matrix[r]? = some row)
    (hr : r ≤ intMax)
    (hsorted : row.Pairwise (· ≤ ·)) (h : Searching row target start end' rounds) :
    Ensures (findMidLoop matrix r target rounds start end' ((start + end').tdiv 2)) out
      (fun b o ↦ o = out ∧ SumsBounded intMax row target start end' ∧ (b = true ↔ target ∈ row))
      (fun _ _ ↦ ¬ SumsBounded intMax row target start end') := by
  induction rounds generalizing start end' with
  | zero =>
    rw [findMidLoop, if_neg h.not_le_of_zero]
    exact ⟨rfl, h.sumsBounded h.not_le_of_zero,
      iff_of_false Bool.false_ne_true (h.not_mem h.not_le_of_zero)⟩
  | succ rounds ih =>
    rw [findMidLoop]
    by_cases hle : start ≤ end'
    case neg =>
      rw [if_neg hle]
      exact ⟨rfl, h.sumsBounded hle, iff_of_false Bool.false_ne_true (h.not_mem hle)⟩
    obtain ⟨m, y, hm, htdiv, hstart, hend, hsize, hy⟩ := h.exists_mid hle
    rw [if_pos hle, htdiv, hsize, sizeOfInt_row hr, vectorAt_of_getElem? hrow, pure_bind,
      vectorAt_of_getElem? hy, pure_bind]
    by_cases heq : y = target
    · subst heq
      rw [if_pos rfl]
      exact ⟨rfl, sumsBounded_of_hit hm hy h.sum_le, iff_of_true rfl (List.mem_of_getElem? hy)⟩
    rw [if_neg heq]
    by_cases hlt : target < y
    · rw [if_pos hlt, ensures_goLeft h hm hle]
      refine (ih (h.left hsorted hm hle hy hlt)).mono ?_ ?_
      · rintro b o ⟨rfl, hsums, hb⟩
        exact ⟨rfl, (sumsBounded_left_iff hle hm hy hlt h.sum_le).mpr hsums, hb⟩
      · exact fun _ _ hsums h' ↦ hsums ((sumsBounded_left_iff hle hm hy hlt h.sum_le).mp h')
    · have hgt : y < target := lt_of_le_of_ne (not_lt.mp hlt) heq
      rw [if_neg hlt, ensures_goRight h hm hle]
      split_ifs with hsum
      · refine (ih (h.right hsorted hm hle hy hgt hsum)).mono ?_ ?_
        · rintro b o ⟨rfl, hsums, hb⟩
          exact ⟨rfl, (sumsBounded_right_iff hle hm hy hgt h.sum_le).mpr hsums, hb⟩
        · exact fun _ _ hsums h' ↦ hsums ((sumsBounded_right_iff hle hm hy hgt h.sum_le).mp h')
      · intro hsums
        have hright := (sumsBounded_right_iff hle hm hy hgt h.sum_le).mp hsums
        exact hsum (hright.sum_le (h.within.right hsorted hy hgt))

private theorem findMidLoop_of_lt {i start end' mid : ℤ} (h : end' < start) :
    findMidLoop matrix i target rounds start end' mid = pure false := by
  cases rounds <;> rw [findMidLoop, if_neg (not_le.mpr h)]

theorem ensures_findMid (hrow : matrix[r]? = some row) (hr : r ≤ intMax) (hne : row ≠ [])
    (hsorted : row.Pairwise (· ≤ ·)) (hlength : row.length ≤ 2 ^ 32)
    (hrounds : row.length ≤ rounds) :
    Ensures (findMid rounds matrix r target) out
      (fun b o ↦ o = out ∧
        (row.length ≤ 2 ^ 31 → SumsBounded intMax row target 0 (row.length - 1)) ∧
        (b = true ↔ row.length ≤ 2 ^ 31 ∧ target ∈ row))
      (fun _ _ ↦ row.length ≤ 2 ^ 31 ∧ ¬ SumsBounded intMax row target 0 (row.length - 1)) := by
  have hpos := List.length_pos_iff.mpr hne
  have hmax : (intMax : ℤ) = 2 ^ 31 - 1 := by decide
  rw [findMid, sizeOfInt_row hr, vectorAt_of_getElem? hrow, pure_bind]
  dsimp only
  by_cases hle : row.length ≤ 2 ^ 31
  · have hsearch : Searching row target 0 (row.length - 1) rounds := .of_whole (by omega) hrounds
    rw [intOfSize_sizeMinusOne hne hle, sumInt_of_fits ⟨by omega, hsearch.sum_le⟩, pure_bind]
    refine (ensures_findMidLoop hrow hr hsorted hsearch).mono ?_ fun _ _ hsums ↦ ⟨hle, hsums⟩
    rintro b o ⟨rfl, hsums, hb⟩
    exact ⟨rfl, fun _ ↦ hsums, hb.trans (and_iff_right hle).symm⟩
  · obtain ⟨hlow, hneg⟩ := intOfSize_sizeMinusOne_neg hne (not_le.mp hle) hlength
    rw [sumInt_of_fits ⟨by omega, by omega⟩, pure_bind, findMidLoop_of_lt hneg]
    exact ⟨rfl, fun h ↦ absurd h hle, iff_of_false Bool.false_ne_true fun h ↦ hle h.1⟩

private theorem findMid_of_nil (hrow : matrix[r]? = some []) (hr : r ≤ intMax) :
    findMid rounds matrix r target = pure false := by
  have hend : intOfSize (sizeMinusOne ([] : List ℤ)) = -1 := by decide
  rw [findMid, sizeOfInt_row hr, vectorAt_of_getElem? hrow, pure_bind]
  dsimp only
  rw [hend, sumInt_of_fits ⟨by omega, by omega⟩, pure_bind, findMidLoop_of_lt (by omega)]

/-- **Search in one row.** In a row of fewer than `2 ^ 30` numbers in order, which may be empty and
may hold a number more than once, `find_mid` ends, without an index outside the row and without an
overflow, and finds the number exactly if it occurs. -/
theorem findMid_finds (matrix : List (List ℤ)) (i target : ℤ) (row : List ℤ) (hi : 0 ≤ i)
    (hfits : IntFits i) (hrow : matrix[i.toNat]? = some row) (hsorted : row.Pairwise (· ≤ ·))
    (hlength : row.length < 2 ^ 30) (out : List ℤ) :
    ∃ n, ∀ rounds ≥ n, Ensures (findMid rounds matrix i target) out
      (fun b o ↦ o = out ∧ (b = true ↔ target ∈ row)) fun _ _ ↦ False := by
  have hmax : (intMax : ℤ) = 2 ^ 31 - 1 := by decide
  obtain ⟨r, rfl⟩ := Int.eq_ofNat_of_zero_le hi
  rw [Int.toNat_natCast] at hrow
  have hr : r ≤ intMax := Int.ofNat_le.mp hfits.2
  refine ⟨row.length, fun rounds hrounds ↦ ?_⟩
  by_cases hne : row = []
  · subst hne
    rw [findMid_of_nil hrow hr]
    exact ⟨rfl, iff_of_false Bool.false_ne_true List.not_mem_nil⟩
  have hshort : row.length ≤ 2 ^ 31 := by omega
  have hsums : SumsBounded intMax row target 0 (row.length - 1) :=
    sumsBounded_of_le (by omega) (by omega)
  refine (ensures_findMid hrow hr hne hsorted (by omega) hrounds).mono ?_ ?_
  · rintro b o ⟨rfl, -, hb⟩
    exact ⟨rfl, hb.trans (and_iff_right hshort)⟩
  · exact fun _ _ hnot ↦ hnot.2 hsums

/-- An empty row, and a row that holds its first number twice. -/
theorem findMid_finds_rows :
    (∃ n, ∀ rounds ≥ n, Ensures (findMid rounds [[], [3, 3, 7]] 0 3) []
      (fun b o ↦ o = [] ∧ (b = true ↔ (3 : ℤ) ∈ ([] : List ℤ))) fun _ _ ↦ False) ∧
    ∃ n, ∀ rounds ≥ n, Ensures (findMid rounds [[], [3, 3, 7]] 1 3) []
      (fun b o ↦ o = [] ∧ (b = true ↔ (3 : ℤ) ∈ [3, 3, 7])) fun _ _ ↦ False :=
  ⟨findMid_finds [[], [3, 3, 7]] 0 3 [] (by decide) (by decide) rfl (by decide) (by decide) [],
    findMid_finds [[], [3, 3, 7]] 1 3 [3, 3, 7] (by decide) (by decide) rfl (by decide) (by decide)
      []⟩

/-- What the loop of `lower_bound` leaves: the range in which it met the number, whose end is the
row of the number only if the range has no other, or else the empty range at the place of the
number. -/
def LeavesRange (xs : List ℤ) (target start end' : ℤ) (s e : ℤ) : Prop :=
  (∃ r : ℕ, xs[r]? = some target ∧ s ≤ r ∧ (r : ℤ) ≤ e ∧ (e = r ↔ BisectionRange start end' r r)) ∨
    s = e + 1 ∧ Within xs target s e

namespace LeavesRange

variable {xs : List ℤ} {start end' s e : ℤ} {m : ℕ}

private theorem of_empty (h : Searching xs target start end' rounds) (hlt : ¬ start ≤ end') :
    LeavesRange xs target start end' start end' := by
  have hle := h.le
  exact .inr ⟨by omega, h.within⟩

private theorem of_left (h : LeavesRange xs target start (m - 1) s e) (hle : start ≤ end')
    (hm : (start + end') / 2 = m) (he : e ≤ m - 1) : LeavesRange xs target start end' s e := by
  refine h.imp_left ?_
  rintro ⟨r, hr, hsr, hre, hiff⟩
  refine ⟨r, hr, hsr, hre, hiff.trans ?_⟩
  rw [BisectionRange.single_left_iff hle (by omega), hm]

private theorem of_right (h : LeavesRange xs target (m + 1) end' s e) (hle : start ≤ end')
    (hm : (start + end') / 2 = m) (hs : m + 1 ≤ s) : LeavesRange xs target start end' s e := by
  refine h.imp_left ?_
  rintro ⟨r, hr, hsr, hre, hiff⟩
  refine ⟨r, hr, hsr, hre, hiff.trans ?_⟩
  rw [BisectionRange.single_right_iff hle (by omega), hm]

end LeavesRange

private theorem getElem?_firstColumn {m : ℕ} {y : ℤ} (hne : ∀ row ∈ matrix, row ≠ []) :
    (firstColumn matrix)[m]? = some y ↔ ∃ row, matrix[m]? = some row ∧ row[0]? = some y := by
  rw [firstColumn, List.getElem?_map, Option.map_eq_some_iff]
  refine exists_congr fun row ↦ and_congr_right fun hrow ↦ ?_
  obtain ⟨x, xs, rfl⟩ := List.exists_cons_of_ne_nil (hne row (List.mem_of_getElem? hrow))
  exact Option.some_inj.symm

theorem ensures_lowerBoundLoop {start end' : ℤ} (hne : ∀ row ∈ matrix, row ≠ [])
    (hsorted : (firstColumn matrix).Pairwise (· ≤ ·))
    (h : Searching (firstColumn matrix) target start end' rounds) :
    Ensures (lowerBoundLoop matrix target rounds start end' ((start + end').tdiv 2)) out
      (fun p o ↦ o = out ∧ SumsBounded intMax (firstColumn matrix) target start end' ∧
        start ≤ p.1 ∧ p.2 ≤ end' ∧ LeavesRange (firstColumn matrix) target start end' p.1 p.2)
      (fun _ _ ↦ ¬ SumsBounded intMax (firstColumn matrix) target start end') := by
  induction rounds generalizing start end' with
  | zero =>
    have hdone := h.not_le_of_zero
    rw [lowerBoundLoop, if_neg hdone]
    exact ⟨rfl, h.sumsBounded hdone, le_rfl, le_rfl, .of_empty h hdone⟩
  | succ rounds ih =>
    rw [lowerBoundLoop]
    by_cases hle : start ≤ end'
    case neg =>
      rw [if_neg hle]
      exact ⟨rfl, h.sumsBounded hle, le_rfl, le_rfl, .of_empty h hle⟩
    obtain ⟨m, y, hm, htdiv, hstart, hend, hsize, hy⟩ := h.exists_mid hle
    obtain ⟨row, hrow, hfirst⟩ := (getElem?_firstColumn hne).mp hy
    rw [if_pos hle, htdiv, hsize, vectorAt_of_getElem? hrow, pure_bind, vectorAt_of_getElem? hfirst,
      pure_bind]
    by_cases heq : target = y
    · subst heq
      rw [if_pos rfl]
      refine ⟨rfl, sumsBounded_of_hit hm hy h.sum_le, le_rfl, le_rfl,
        .inl ⟨m, hy, hstart, hend, ?_⟩⟩
      exact (BisectionRange.single_mid_iff hle hm).symm
    rw [if_neg heq]
    by_cases hlt : target < y
    · have hleft := h.left hsorted hm hle hy hlt
      rw [if_pos hlt, ensures_goLeft h hm hle]
      refine (ih hleft).mono ?_ ?_
      · rintro p o ⟨rfl, hsums, hp, hp', hleaves⟩
        exact ⟨rfl, (sumsBounded_left_iff hle hm hy hlt h.sum_le).mpr hsums, hp, by omega,
          hleaves.of_left hle hm hp'⟩
      · exact fun _ _ hsums h' ↦ hsums ((sumsBounded_left_iff hle hm hy hlt h.sum_le).mp h')
    · have hgt : y < target := lt_of_le_of_ne (not_lt.mp hlt) (Ne.symm heq)
      rw [if_neg hlt, ensures_goRight h hm hle]
      split_ifs with hsum
      · have hright := h.right hsorted hm hle hy hgt hsum
        refine (ih hright).mono ?_ ?_
        · rintro p o ⟨rfl, hsums, hp, hp', hleaves⟩
          exact ⟨rfl, (sumsBounded_right_iff hle hm hy hgt h.sum_le).mpr hsums, by omega, hp',
            hleaves.of_right hle hm hp⟩
        · exact fun _ _ hsums h' ↦ hsums ((sumsBounded_right_iff hle hm hy hgt h.sum_le).mp h')
      · intro hsums
        have hright := (sumsBounded_right_iff hle hm hy hgt h.sum_le).mp hsums
        exact hsum (hright.sum_le (h.within.right hsorted hy hgt))

/-! ## The row

Where the number is not at the head of a row, the range becomes empty at the row it belongs to.
Where it is, the bisection ends as soon as it meets the number, with a range that may have other
rows in it. -/

/-- The row `r` is the last whose first element is not larger than the number. -/
def Belongs (matrix : List (List ℤ)) (target : ℤ) (r : ℕ) : Prop :=
  r < matrix.length ∧
    ∀ (i : ℕ) (y : ℤ), (firstColumn matrix)[i]? = some y → (y ≤ target ↔ i ≤ r)

/-- What `lower_bound` returns. -/
inductive LowerBoundResult (matrix : List (List ℤ)) (target : ℤ) : ℤ → Prop
  /-- It met the number at the head of the row `r`. -/
  | met {r : ℕ} {u : ℕ} (hfew : matrix.length ≤ 2 ^ 31)
    (hr : (firstColumn matrix)[r]? = some target) (hu : u < matrix.length)
    (hiff : u = r ↔ BisectionRange 0 (matrix.length - 1) r r) : LowerBoundResult matrix target u
  /-- It found the place of the number after the head of the row `r`. -/
  | after {r : ℕ} (hfew : matrix.length ≤ 2 ^ 31) (hbelongs : Belongs matrix target r)
    (hhead : (firstColumn matrix)[r]? ≠ some target) (hr : r + 1 < matrix.length) :
    LowerBoundResult matrix target r
  /-- It found that place in the last row. -/
  | last {r : ℕ} (hbelongs : Belongs matrix target r)
    (hhead : (firstColumn matrix)[r]? ≠ some target) (hr : r + 1 = matrix.length) :
    LowerBoundResult matrix target (-1)
  /-- There are so many rows that none is searched. -/
  | none (hmany : 2 ^ 31 < matrix.length) : LowerBoundResult matrix target (-1)

private theorem lowerBoundLoop_of_lt {start end' mid : ℤ} (h : end' < start) :
    lowerBoundLoop matrix target rounds start end' mid = pure (start, end') := by
  cases rounds <;> rw [lowerBoundLoop, if_neg (not_le.mpr h)]

private theorem length_firstColumn (matrix : List (List ℤ)) :
    (firstColumn matrix).length = matrix.length := List.length_map _

private theorem belongs_of_within (hr : r < matrix.length)
    (hwithin : Within (firstColumn matrix) target (r + 1) r) :
    Belongs matrix target r ∧ (firstColumn matrix)[r]? ≠ some target := by
  constructor
  · refine ⟨hr, fun i y hy ↦ ?_⟩
    obtain ⟨hbefore, hafter⟩ := hwithin i y hy
    rcases le_or_gt i r with hir | hri
    · exact iff_of_true (hbefore (by omega)).le hir
    · exact iff_of_false (not_le.mpr (hafter (by omega))) (by omega)
  · exact fun hhead ↦ lt_irrefl target ((hwithin r target hhead).1 (by omega))

theorem ensures_lowerBound (hne : ∀ row ∈ matrix, row ≠ [])
    (hsorted : (firstColumn matrix).Pairwise (· ≤ ·)) (hlength : matrix.length ≤ 2 ^ 32)
    {x : ℤ} (hx : (firstColumn matrix)[0]? = some x) (hle : x ≤ target)
    (hrounds : matrix.length ≤ rounds) :
    Ensures (lowerBound rounds matrix target) out
      (fun u o ↦ o = out ∧ (matrix.length ≤ 2 ^ 31 →
        SumsBounded intMax (firstColumn matrix) target 0 (matrix.length - 1)) ∧
        LowerBoundResult matrix target u)
      (fun _ _ ↦ matrix.length ≤ 2 ^ 31 ∧
        ¬ SumsBounded intMax (firstColumn matrix) target 0 (matrix.length - 1)) := by
  have hmax : (intMax : ℤ) = 2 ^ 31 - 1 := by decide
  have hlen := length_firstColumn matrix
  have hpos : 0 < matrix.length := by
    obtain ⟨hlt, -⟩ := List.getElem?_eq_some_iff.mp hx
    omega
  have hmatrix : matrix ≠ [] := List.length_pos_iff.mp hpos
  rw [lowerBound]
  dsimp only
  by_cases hmany : matrix.length ≤ 2 ^ 31
  case neg =>
    obtain ⟨hlow, hneg⟩ := intOfSize_sizeMinusOne_neg hmatrix (not_le.mp hmany) hlength
    rw [sumInt_of_fits ⟨by omega, by omega⟩, pure_bind, lowerBoundLoop_of_lt hneg, pure_bind,
      if_pos (.inr hneg)]
    exact ⟨rfl, fun h ↦ absurd h hmany, .none (not_le.mp hmany)⟩
  have hsearch : Searching (firstColumn matrix) target 0 (matrix.length - 1) rounds := by
    have hwhole :
        Searching (firstColumn matrix) target 0 ((firstColumn matrix).length - 1) rounds :=
      .of_whole (by omega) (by omega)
    rwa [hlen] at hwhole
  rw [intOfSize_sizeMinusOne hmatrix hmany, sumInt_of_fits ⟨by omega, hsearch.sum_le⟩, pure_bind,
    ensures_bind, sizeMinusOne_of_ne_nil hmatrix]
  refine (ensures_lowerBoundLoop hne hsorted hsearch).mono ?_ fun _ _ h ↦ ⟨hmany, h⟩
  rintro ⟨s, e⟩ o ⟨rfl, hsums, hs, he, hleaves⟩
  dsimp only at hs he hleaves ⊢
  rcases hleaves with ⟨r, hr, hsr, hre, hiff⟩ | ⟨rfl, hwithin⟩
  · obtain ⟨u, rfl⟩ := Int.eq_ofNat_of_zero_le (by omega : 0 ≤ e)
    have hsize : sizeOfInt s = s.toNat := sizeOfInt_of_nonneg hs (by omega)
    rw [hsize, if_neg (by omega)]
    exact ⟨rfl, fun _ ↦ hsums, .met hmany hr (by omega) (by rwa [← Int.natCast_inj])⟩
  · -- The number is in its row, if it is in one, and not at the head.
    obtain ⟨r, rfl⟩ : ∃ r : ℕ, e = r := by
      refine Int.eq_ofNat_of_zero_le ?_
      by_contra hneg
      exact absurd ((hwithin 0 x hx).2 (by push_cast; omega)) (not_lt.mpr hle)
    obtain ⟨hbelongs, hhead⟩ := belongs_of_within (by omega) hwithin
    have hsize : sizeOfInt (r + 1) = r + 1 := by
      rw [sizeOfInt_of_nonneg (by omega) (by omega)]
      omega
    rw [hsize]
    by_cases hlast : r + 1 = matrix.length
    · rw [if_pos (.inl (by omega))]
      exact ⟨rfl, fun _ ↦ hsums, .last hbelongs hhead hlast⟩
    · rw [if_neg (by omega)]
      exact ⟨rfl, fun _ ↦ hsums, .after hmany hbelongs hhead (by omega)⟩

/-! ## The matrix

The elements increase from row to row, so all of them are in order, and each row lies between its
first element and that of the next row. As they are of type `int` there cannot be more than `2 ^ 32`
of them. -/

/-- The rows are of equal length and not empty, and the elements, which are numbers of type `int`,
increase along each row and from the end of a row to the start of the next. -/
structure SortedMatrix (matrix : List (List ℤ)) : Prop where
  ne_nil : ∀ row ∈ matrix, row ≠ []
  length_eq : ∀ row ∈ matrix, ∀ row' ∈ matrix, row.length = row'.length
  increasing : ∀ row ∈ matrix, row.Pairwise (· < ·)
  chain : matrix.IsChain fun row row' ↦ ∀ x ∈ row.getLast?, ∀ y ∈ row'.head?, x < y
  fits : ∀ row ∈ matrix, ∀ x ∈ row, IntFits x

namespace SortedMatrix

private theorem le_getLast? {xs : List ℤ} (h : xs.Pairwise (· < ·)) {x y : ℤ} (hx : x ∈ xs)
    (hy : xs.getLast? = some y) : x ≤ y := by
  obtain ⟨ys, rfl⟩ := List.getLast?_eq_some_iff.mp hy
  rcases List.mem_append.mp hx with hx | hx
  · exact ((List.pairwise_append.mp h).2.2 x hx y List.mem_cons_self).le
  · exact (List.mem_singleton.mp hx).le

theorem rows_lt (hne : ∀ row ∈ matrix, row ≠ [])
    (hincreasing : ∀ row ∈ matrix, row.Pairwise (· < ·))
    (hchain : matrix.IsChain fun row row' ↦ ∀ x ∈ row.getLast?, ∀ y ∈ row'.head?, x < y) :
    matrix.Pairwise fun row row' ↦ ∀ x ∈ row, ∀ y ∈ row', x < y := by
  induction matrix with
  | nil => exact .nil
  | cons row rest ih =>
    have hrest := ih (fun row' hrow' ↦ hne row' (List.mem_cons_of_mem row hrow'))
      (fun row' hrow' ↦ hincreasing row' (List.mem_cons_of_mem row hrow')) hchain.tail
    refine List.pairwise_cons.mpr ⟨?_, hrest⟩
    rcases rest with - | ⟨next, rest⟩
    · exact fun row' hrow' ↦ absurd hrow' List.not_mem_nil
    -- The first element of the next row is between.
    obtain ⟨z, zs, rfl⟩ := List.exists_cons_of_ne_nil (hne next (by simp))
    have hlt : ∀ x ∈ row, x < z := by
      intro x hx
      obtain ⟨y, hy⟩ :=
        List.getLast?_isSome.mpr (hne row List.mem_cons_self) |> Option.isSome_iff_exists.mp
      have hhead := (List.isChain_cons_cons.mp hchain).1 y hy z rfl
      exact (le_getLast? (hincreasing row List.mem_cons_self) hx hy).trans_lt hhead
    intro row' hrow' x hx y hy
    rcases List.mem_cons.mp hrow' with rfl | hrow'
    · rcases List.mem_cons.mp hy with rfl | hy
      · exact hlt x hx
      · have hz := hincreasing (z :: zs) (by simp)
        exact (hlt x hx).trans ((List.pairwise_cons.mp hz).1 y hy)
    · have hz := (List.pairwise_cons.mp hrest).1 row' hrow' z List.mem_cons_self y hy
      exact (hlt x hx).trans hz

private theorem rows_pairwise (h : SortedMatrix matrix) :
    matrix.Pairwise fun row row' ↦ ∀ x ∈ row, ∀ y ∈ row', x < y :=
  rows_lt h.ne_nil h.increasing h.chain

private theorem pairwise_flatten (h : SortedMatrix matrix) : matrix.flatten.Pairwise (· < ·) :=
  List.pairwise_flatten.mpr ⟨h.increasing, h.rows_pairwise⟩

private theorem firstColumn_pairwise (h : SortedMatrix matrix) :
    (firstColumn matrix).Pairwise (· < ·) := by
  refine List.pairwise_map.mpr (h.rows_pairwise.imp_of_mem ?_)
  intro row row' hrow hrow' hlt
  obtain ⟨x, xs, rfl⟩ := List.exists_cons_of_ne_nil (h.ne_nil row hrow)
  obtain ⟨y, ys, rfl⟩ := List.exists_cons_of_ne_nil (h.ne_nil row' hrow')
  exact hlt x List.mem_cons_self y List.mem_cons_self

theorem length_le (h : SortedMatrix matrix) (hrow : row ∈ matrix) : row.length ≤ 2 ^ 32 :=
  length_le_of_intFits ((h.increasing row hrow).imp ne_of_lt) (h.fits row hrow)

private theorem rows_length_le (h : SortedMatrix matrix) : matrix.length ≤ 2 ^ 32 := by
  rw [← length_firstColumn]
  refine length_le_of_intFits (h.firstColumn_pairwise.imp ne_of_lt) fun x hx ↦ ?_
  obtain ⟨row, hrow, rfl⟩ := List.mem_map.mp hx
  obtain ⟨y, ys, rfl⟩ := List.exists_cons_of_ne_nil (h.ne_nil row hrow)
  exact h.fits _ hrow y List.mem_cons_self

section Rows

variable {x z : ℤ} {first last : List ℤ} {i : ℕ}

private theorem first_le (h : SortedMatrix matrix) (hfirst : matrix[0]? = some first)
    (hx : first[0]? = some x) : ∀ row ∈ matrix, ∀ y ∈ row, x ≤ y := by
  rcases matrix with - | ⟨row₀, rest⟩
  · exact fun row hrow ↦ absurd hrow List.not_mem_nil
  obtain rfl : row₀ = first := Option.some_inj.mp hfirst
  rcases row₀ with - | ⟨x₀, xs⟩
  · exact absurd rfl (h.ne_nil [] List.mem_cons_self)
  obtain rfl : x₀ = x := Option.some_inj.mp hx
  intro row hrow y hy
  rcases List.mem_cons.mp hrow with rfl | hrow
  · rcases List.mem_cons.mp hy with rfl | hy
    · exact le_rfl
    · exact ((List.pairwise_cons.mp (h.increasing _ List.mem_cons_self)).1 y hy).le
  · exact ((List.pairwise_cons.mp h.rows_pairwise).1 row hrow x₀ List.mem_cons_self y hy).le

private theorem le_last (h : SortedMatrix matrix) (hlast : matrix[matrix.length - 1]? = some last)
    (hz : last[last.length - 1]? = some z) : ∀ row ∈ matrix, ∀ y ∈ row, y ≤ z := by
  rw [← List.getLast?_eq_getElem?] at hlast hz
  obtain ⟨init, rfl⟩ := List.getLast?_eq_some_iff.mp hlast
  have hmem : last ∈ init ++ [last] := List.mem_append_right _ List.mem_cons_self
  intro row hrow y hy
  rcases List.mem_append.mp hrow with hrow | hrow
  · have hlt := (List.pairwise_append.mp h.rows_pairwise).2.2 row hrow last List.mem_cons_self
    exact (hlt y hy z (List.mem_of_getLast? hz)).le
  · obtain rfl := List.mem_singleton.mp hrow
    exact le_getLast? (h.increasing row hmem) hy hz

private theorem eq_of_mem (h : SortedMatrix matrix) (hbelongs : Belongs matrix target r)
    (hrow : matrix[i]? = some row) (hmem : target ∈ row) : i = r := by
  have hile : i ≤ r := by
    obtain ⟨x, xs, rfl⟩ := List.exists_cons_of_ne_nil (h.ne_nil row (List.mem_of_getElem? hrow))
    refine (hbelongs.2 i x ((getElem?_firstColumn h.ne_nil).mpr ⟨_, hrow, rfl⟩)).mp ?_
    rcases List.mem_cons.mp hmem with rfl | hmem
    · exact le_rfl
    · exact ((List.pairwise_cons.mp (h.increasing _ (List.mem_of_getElem? hrow))).1 _ hmem).le
  by_contra hne
  have hlt : i < r := lt_of_le_of_ne hile hne
  -- The row it belongs to begins after everything in an earlier row.
  obtain ⟨hr, hhead⟩ := hbelongs
  obtain ⟨hi, rfl⟩ := List.getElem?_eq_some_iff.mp hrow
  obtain ⟨z, zs, hz⟩ := List.exists_cons_of_ne_nil (h.ne_nil matrix[r] (List.getElem_mem hr))
  have hzhead : (firstColumn matrix)[r]? = some z :=
    (getElem?_firstColumn h.ne_nil).mpr ⟨matrix[r], List.getElem?_eq_getElem hr, by rw [hz]; rfl⟩
  have hzle := (hhead r z hzhead).mpr le_rfl
  have hbefore := List.pairwise_iff_getElem.mp h.rows_pairwise i r hi hr hlt target hmem z
    (by rw [hz]; exact List.mem_cons_self)
  exact absurd hbefore (not_lt.mpr hzle)

private theorem belongs_of_head (h : SortedMatrix matrix)
    (hr : (firstColumn matrix)[r]? = some target) : Belongs matrix target r := by
  obtain ⟨hlt, hget⟩ := List.getElem?_eq_some_iff.mp hr
  refine ⟨by rwa [length_firstColumn] at hlt, fun i y hy ↦ ?_⟩
  obtain ⟨hi, rfl⟩ := List.getElem?_eq_some_iff.mp hy
  have hsorted := List.pairwise_iff_getElem.mp h.firstColumn_pairwise
  rcases lt_trichotomy i r with hir | rfl | hri
  · exact iff_of_true (hget ▸ (hsorted i r hi hlt hir).le) hir.le
  · exact iff_of_true hget.le le_rfl
  · exact iff_of_false (not_le.mpr (hget ▸ hsorted r i hlt hi hri)) (by omega)

end Rows

end SortedMatrix

theorem Belongs.unique {r' : ℕ} (h : Belongs matrix target r) (h' : Belongs matrix target r') :
    r = r' := by
  have hle : ∀ {i j : ℕ}, Belongs matrix target i → Belongs matrix target j → i ≤ j := by
    intro i j hi hj
    have hlt : i < (firstColumn matrix).length := by
      rw [length_firstColumn]
      exact hi.1
    have hget : (firstColumn matrix)[i]? = some (firstColumn matrix)[i] :=
      List.getElem?_eq_getElem hlt
    exact (hj.2 i _ hget).mp ((hi.2 i _ hget).mpr le_rfl)
  exact le_antisymm (hle h h') (hle h' h)

/-! ## The search

`Searchable` collects what was found of the two bisections. If the number does not occur, a wrong
row does no harm; only the overflows matter then. -/

/-- The number is neither smaller nor larger than all elements. -/
def InRange (matrix : List (List ℤ)) (target : ℤ) : Prop :=
  (∃ row ∈ matrix, ∃ x ∈ row, x ≤ target) ∧ ∃ row ∈ matrix, ∃ x ∈ row, target ≤ x

/-- Where the search is right: the sums it forms do not overflow, and if the number occurs, then
there are not too many rows and columns, and it is at the head of a row that the bisection of the
rows comes to alone, or elsewhere in a row that is not the last. -/
structure Searchable (matrix : List (List ℤ)) (target : ℤ) : Prop where
  rows : matrix.length ≤ 2 ^ 31 →
    SumsBounded intMax (firstColumn matrix) target 0 (matrix.length - 1)
  columns : ∀ r row, matrix[r]? = some row → Belongs matrix target r → r + 1 < matrix.length →
    matrix.length ≤ 2 ^ 31 → row.length ≤ 2 ^ 31 →
    SumsBounded intMax row target 0 (row.length - 1)
  position : ∀ (r c : ℕ) (row : List ℤ), matrix[r]? = some row → row[c]? = some target →
    matrix.length ≤ 2 ^ 31 ∧ row.length ≤ 2 ^ 31 ∧
      if c = 0 then BisectionRange 0 (matrix.length - 1) r r else r + 1 < matrix.length

/-- The number occurs in the matrix. -/
def Occurs (matrix : List (List ℤ)) (target : ℤ) : Prop := ∃ row ∈ matrix, target ∈ row

private theorem not_occurs_of_not_inRange (h : ¬ InRange matrix target) : ¬ Occurs matrix target :=
  fun ⟨row, hrow, hmem⟩ ↦ h ⟨⟨row, hrow, target, hmem, le_rfl⟩, row, hrow, target, hmem, le_rfl⟩

private theorem sumsBounded_of_head (hhead : row[0]? = some target) (hlength : row.length ≤ 2 ^ 31)
    : SumsBounded intMax row target 0 (row.length - 1) := by
  intro l h hlh hwithin
  have hmax : (intMax : ℤ) = 2 ^ 31 - 1 := by decide
  have hbounds := hlh.bounds (by omega)
  have hl : ¬ (0 : ℤ) < l := fun hlt ↦ lt_irrefl target ((hwithin 0 target hhead).1 hlt)
  omega

private theorem occurs_of_getElem? {r c : ℕ} (hrow : matrix[r]? = some row)
    (hc : row[c]? = some target) :
    Occurs matrix target := ⟨row, List.mem_of_getElem? hrow, List.mem_of_getElem? hc⟩

private theorem occurs_iff (h : SortedMatrix matrix) (hbelongs : Belongs matrix target r)
    (hrow : matrix[r]? = some row) : Occurs matrix target ↔ target ∈ row := by
  constructor
  · rintro ⟨row', hrow', hmem⟩
    obtain ⟨i, hi⟩ := List.getElem?_of_mem hrow'
    obtain rfl := h.eq_of_mem hbelongs hi hmem
    obtain rfl : row' = row := Option.some_inj.mp (hi.symm.trans hrow)
    exact hmem
  · exact fun hmem ↦ ⟨row, List.mem_of_getElem? hrow, hmem⟩

private theorem searchable_of_not_occurs (hoccurs : ¬ Occurs matrix target)
    (hrows : matrix.length ≤ 2 ^ 31 →
      SumsBounded intMax (firstColumn matrix) target 0 (matrix.length - 1))
    (hcolumns : ∀ r row, matrix[r]? = some row → Belongs matrix target r → r + 1 < matrix.length →
      matrix.length ≤ 2 ^ 31 → row.length ≤ 2 ^ 31 →
      SumsBounded intMax row target 0 (row.length - 1)) : Searchable matrix target :=
  ⟨hrows, hcolumns, fun _ _ _ hrow hc ↦ absurd (occurs_of_getElem? hrow hc) hoccurs⟩

private theorem false_iff {occurs searchable : Prop} (hnot : occurs → ¬ searchable)
    (hall : ¬ occurs → searchable) : ((false = true ↔ occurs) ↔ searchable) := by
  constructor
  · exact fun h ↦ hall fun hoccurs ↦ Bool.false_ne_true (h.mpr hoccurs)
  · exact fun hs ↦ iff_of_false Bool.false_ne_true fun hoccurs ↦ hnot hoccurs hs

/-- The end of `searchMatrix`. -/
def searchRow (rounds : ℕ) (matrix : List (List ℤ)) (target upper : ℤ) : SearchM Bool := do
  modify (· ++ [upper])
  if upper < 0 then return false
  findMid rounds matrix upper target

private theorem ne_zero_of_head (h : SortedMatrix matrix) {r c : ℕ}
    (hhead : (firstColumn matrix)[r]? ≠ some target) (hrow : matrix[r]? = some row)
    (hc : row[c]? = some target) : c ≠ 0 := by
  rintro rfl
  exact hhead ((getElem?_firstColumn h.ne_nil).mpr ⟨row, hrow, hc⟩)

private theorem eq_zero_iff_head (h : SortedMatrix matrix) {r c : ℕ} (hrow : matrix[r]? = some row)
    (hc : row[c]? = some target) : c = 0 ↔ row[0]? = some target := by
  constructor
  · rintro rfl
    exact hc
  · intro hzero
    obtain ⟨hlt, hget⟩ := List.getElem?_eq_some_iff.mp hc
    obtain ⟨hlt₀, hget₀⟩ := List.getElem?_eq_some_iff.mp hzero
    have hnodup := (h.increasing row (List.mem_of_getElem? hrow)).imp ne_of_lt
    exact (List.Nodup.getElem_inj_iff hnodup).mp (hget.trans hget₀.symm)

private theorem columns_of_belongs (hbelongs : Belongs matrix target r)
    (hrow : matrix[r]? = some row)
    (hsums : row.length ≤ 2 ^ 31 → SumsBounded intMax row target 0 (row.length - 1)) :
    ∀ r' row', matrix[r']? = some row' → Belongs matrix target r' → r' + 1 < matrix.length →
      matrix.length ≤ 2 ^ 31 → row'.length ≤ 2 ^ 31 →
      SumsBounded intMax row' target 0 (row'.length - 1) := by
  intro r' row' hrow' hbelongs' _ _ hlength
  obtain rfl := hbelongs.unique hbelongs'
  obtain rfl := Option.some_inj.mp (hrow.symm.trans hrow')
  exact hsums hlength

private theorem searchable_iff_of_mem (h : SortedMatrix matrix) (hbelongs : Belongs matrix target r)
    (hrow : matrix[r]? = some row) (hmem : target ∈ row) (hfew : matrix.length ≤ 2 ^ 31)
    (hrows : SumsBounded intMax (firstColumn matrix) target 0 (matrix.length - 1))
    (hsums : row.length ≤ 2 ^ 31 → SumsBounded intMax row target 0 (row.length - 1)) :
    Searchable matrix target ↔ row.length ≤ 2 ^ 31 ∧
      if row[0]? = some target then BisectionRange 0 (matrix.length - 1) r r
      else r + 1 < matrix.length := by
  constructor
  · intro hs
    obtain ⟨c, hc⟩ := List.getElem?_of_mem hmem
    obtain ⟨-, hlength, hplace⟩ := hs.position r c row hrow hc
    simp only [eq_zero_iff_head h hrow hc] at hplace
    exact ⟨hlength, hplace⟩
  · rintro ⟨hlength, hplace⟩
    refine ⟨fun _ ↦ hrows, columns_of_belongs hbelongs hrow hsums, ?_⟩
    intro r' c row' hrow' hc
    obtain rfl := h.eq_of_mem hbelongs hrow' (List.mem_of_getElem? hc)
    obtain rfl := Option.some_inj.mp (hrow.symm.trans hrow')
    simp only [eq_zero_iff_head h hrow hc]
    exact ⟨hfew, hlength, hplace⟩

private theorem ensures_findMid_row (h : SortedMatrix matrix)
    (hrounds : ∀ row ∈ matrix, row.length ≤ rounds) (hrow : matrix[r]? = some row)
    (hr : r ≤ intMax) :
    Ensures (findMid rounds matrix r target) out
      (fun b _ ↦ (row.length ≤ 2 ^ 31 → SumsBounded intMax row target 0 (row.length - 1)) ∧
        (b = true ↔ row.length ≤ 2 ^ 31 ∧ target ∈ row))
      (fun _ _ ↦ row.length ≤ 2 ^ 31 ∧ ¬ SumsBounded intMax row target 0 (row.length - 1)) := by
  have hmem := List.mem_of_getElem? hrow
  have hsorted := (h.increasing row hmem).imp le_of_lt
  exact (ensures_findMid hrow hr (h.ne_nil row hmem) hsorted (h.length_le hmem)
    (hrounds row hmem)).mono (fun _ _ hq ↦ hq.2) fun _ _ ↦ id

private theorem ensures_findMid_of_met {u : ℕ} (h : SortedMatrix matrix)
    (hrounds : ∀ row ∈ matrix, row.length ≤ rounds) (hfew : matrix.length ≤ 2 ^ 31)
    (hrows : SumsBounded intMax (firstColumn matrix) target 0 (matrix.length - 1))
    (hr : (firstColumn matrix)[r]? = some target) (hu : u < matrix.length)
    (hiff : u = r ↔ BisectionRange 0 (matrix.length - 1) r r) :
    Ensures (findMid rounds matrix u target) out
      (fun b _ ↦ (b = true ↔ Occurs matrix target) ↔ Searchable matrix target)
      (fun _ _ ↦ ¬ Searchable matrix target) := by
  have hmax : intMax = 2 ^ 31 - 1 := rfl
  obtain ⟨row, hrow, hhead⟩ := (getElem?_firstColumn h.ne_nil).mp hr
  have hbelongs := h.belongs_of_head hr
  have hmem : target ∈ row := List.mem_of_getElem? hhead
  have hoccurs : Occurs matrix target := occurs_of_getElem? hrow hhead
  have hsearchable := searchable_iff_of_mem h hbelongs hrow hmem hfew hrows
    (sumsBounded_of_head hhead)
  rw [if_pos hhead, ← hiff] at hsearchable
  by_cases hur : u = r
  · subst hur
    refine (ensures_findMid_row h hrounds hrow (by omega)).mono ?_ ?_
    · rintro b - ⟨-, hb⟩
      rw [hsearchable, iff_true_right hoccurs, hb, and_iff_left hmem, and_iff_left rfl]
    · rintro - - ⟨hlength, hsums⟩
      exact absurd (sumsBounded_of_head hhead hlength) hsums
  · -- The number is not in the row that is searched.
    have hnot : ¬ Searchable matrix target := fun hs ↦ hur (hsearchable.mp hs).2
    have hrow' := List.getElem?_eq_getElem hu
    refine (ensures_findMid_row h hrounds hrow' (by omega)).mono ?_ fun _ _ _ ↦ hnot
    rintro b - ⟨-, hb⟩
    refine iff_of_false (fun hright ↦ ?_) hnot
    exact hur (h.eq_of_mem hbelongs hrow' (hb.mp (hright.mpr hoccurs)).2)

private theorem ensures_findMid_of_after (h : SortedMatrix matrix)
    (hrounds : ∀ row ∈ matrix, row.length ≤ rounds) (hfew : matrix.length ≤ 2 ^ 31)
    (hrows : SumsBounded intMax (firstColumn matrix) target 0 (matrix.length - 1))
    (hbelongs : Belongs matrix target r) (hhead : (firstColumn matrix)[r]? ≠ some target)
    (hr : r + 1 < matrix.length) :
    Ensures (findMid rounds matrix r target) out
      (fun b _ ↦ (b = true ↔ Occurs matrix target) ↔ Searchable matrix target)
      (fun _ _ ↦ ¬ Searchable matrix target) := by
  have hmax : intMax = 2 ^ 31 - 1 := rfl
  have hrow : matrix[r]? = some matrix[r] := List.getElem?_eq_getElem hbelongs.1
  refine (ensures_findMid_row h hrounds hrow (by omega)).mono ?_ ?_
  · rintro b - ⟨hsums, hb⟩
    rw [hb, occurs_iff h hbelongs hrow]
    by_cases hmem : target ∈ matrix[r]
    · have hnothead : matrix[r][0]? ≠ some target := fun hzero ↦
        hhead ((getElem?_firstColumn h.ne_nil).mpr ⟨matrix[r], hrow, hzero⟩)
      rw [searchable_iff_of_mem h hbelongs hrow hmem hfew hrows hsums, if_neg hnothead,
        iff_true_right hmem, and_iff_left hmem, and_iff_left hr]
    · have hoccurs := (occurs_iff h hbelongs hrow).not.mpr hmem
      exact iff_of_true (iff_of_false (fun hboth ↦ hmem hboth.2) hmem)
        (searchable_of_not_occurs hoccurs (fun _ ↦ hrows)
          (columns_of_belongs hbelongs hrow hsums))
  · rintro - - ⟨hlength, hsums⟩ hs
    exact hsums (hs.columns r _ hrow hbelongs hr hfew hlength)

theorem ensures_searchRow {upper : ℤ} (h : SortedMatrix matrix)
    (hrounds : ∀ row ∈ matrix, row.length ≤ rounds)
    (hrows : matrix.length ≤ 2 ^ 31 →
      SumsBounded intMax (firstColumn matrix) target 0 (matrix.length - 1))
    (hupper : LowerBoundResult matrix target upper) :
    Ensures (searchRow rounds matrix target upper) out
      (fun b _ ↦ (b = true ↔ Occurs matrix target) ↔ Searchable matrix target)
      (fun _ _ ↦ ¬ Searchable matrix target) := by
  rw [searchRow, ensures_bind, ensures_modify]
  cases hupper with
  | @met r u hfew hr hu hiff =>
    rw [if_neg (by omega)]
    exact ensures_findMid_of_met h hrounds hfew (hrows hfew) hr hu hiff
  | @after r hfew hbelongs hhead hr =>
    rw [if_neg (by omega)]
    exact ensures_findMid_of_after h hrounds hfew (hrows hfew) hbelongs hhead hr
  | @last r hbelongs hhead hr =>
    rw [if_pos (by decide)]
    refine false_iff ?_ fun hoccurs ↦ searchable_of_not_occurs hoccurs hrows ?_
    · rintro ⟨row, hmem, htarget⟩ hs
      obtain ⟨i, hrow⟩ := List.getElem?_of_mem hmem
      obtain ⟨c, hc⟩ := List.getElem?_of_mem htarget
      obtain rfl := h.eq_of_mem hbelongs hrow htarget
      have hposition := (hs.position i c row hrow hc).2.2
      rw [if_neg (ne_zero_of_head h hhead hrow hc)] at hposition
      omega
    · intro r' row' _ hbelongs' hlt
      obtain rfl := hbelongs.unique hbelongs'
      omega
  | none hmany =>
    rw [if_pos (by decide)]
    refine false_iff ?_ fun hoccurs ↦ searchable_of_not_occurs hoccurs hrows ?_
    · rintro ⟨row, hrow, hmem⟩ hs
      obtain ⟨r, hr⟩ := List.getElem?_of_mem hrow
      obtain ⟨c, hc⟩ := List.getElem?_of_mem hmem
      have hfew := (hs.position r c row hr hc).1
      omega
    · intro _ _ _ _ _ hfew
      omega

section Corners

variable {first last : List ℤ} {x z : ℤ}

private theorem SortedMatrix.exists_corners (h : SortedMatrix matrix) (hne : matrix ≠ []) :
    ∃ first last x z, matrix[0]? = some first ∧ matrix[sizeMinusOne matrix]? = some last ∧
      first ≠ [] ∧ first[0]? = some x ∧ last[sizeMinusOne first]? = some z ∧
      last[last.length - 1]? = some z := by
  have hpos := List.length_pos_iff.mpr hne
  have hfirst : matrix[0] ∈ matrix := List.getElem_mem _
  have hlast : matrix[matrix.length - 1] ∈ matrix := List.getElem_mem _
  have hlength := h.length_eq _ hfirst _ hlast
  have hfirstpos := List.length_pos_iff.mpr (h.ne_nil _ hfirst)
  have hlastpos := List.length_pos_iff.mpr (h.ne_nil _ hlast)
  have hz := List.getElem?_eq_getElem (Nat.sub_lt hlastpos Nat.one_pos)
  refine ⟨_, _, _, _, List.getElem?_eq_getElem hpos, ?_, h.ne_nil _ hfirst,
    List.getElem?_eq_getElem hfirstpos, ?_, hz⟩
  · rw [sizeMinusOne_of_ne_nil hne]
    exact List.getElem?_eq_getElem (Nat.sub_lt hpos Nat.one_pos)
  · rw [sizeMinusOne_of_ne_nil (h.ne_nil _ hfirst), hlength]
    exact hz

private theorem SortedMatrix.inRange_iff (h : SortedMatrix matrix)
    (hfirst : matrix[0]? = some first)
    (hx : first[0]? = some x) (hlast : matrix[sizeMinusOne matrix]? = some last)
    (hz : last[last.length - 1]? = some z) :
    InRange matrix target ↔ ¬ target < x ∧ ¬ z < target := by
  have hne : matrix ≠ [] := List.ne_nil_of_mem (List.mem_of_getElem? hfirst)
  rw [not_lt, not_lt]
  constructor
  · rintro ⟨⟨row, hrow, y, hy, hle⟩, row', hrow', y', hy', hle'⟩
    rw [sizeMinusOne_of_ne_nil hne] at hlast
    exact ⟨(h.first_le hfirst hx row hrow y hy).trans hle,
      hle'.trans (h.le_last hlast hz row' hrow' y' hy')⟩
  · rintro ⟨hlow, hhigh⟩
    exact ⟨⟨first, List.mem_of_getElem? hfirst, x, List.mem_of_getElem? hx, hlow⟩,
      last, List.mem_of_getElem? hlast, z, List.mem_of_getElem? hz, hhigh⟩

end Corners

theorem ensures_searchMatrix (h : SortedMatrix matrix) (hrounds : matrix.length ≤ rounds)
    (hrounds' : ∀ row ∈ matrix, row.length ≤ rounds) :
    Ensures (searchMatrix rounds matrix target) out
      (fun b _ ↦ (b = true ↔ Occurs matrix target) ↔
        (InRange matrix target → Searchable matrix target))
      (fun _ _ ↦ ¬ (InRange matrix target → Searchable matrix target)) := by
  have houtside : ¬ InRange matrix target → ((false = true ↔ Occurs matrix target) ↔
      (InRange matrix target → Searchable matrix target)) := fun hout ↦
    iff_of_true (iff_of_false Bool.false_ne_true (not_occurs_of_not_inRange hout))
      fun hin ↦ absurd hin hout
  rw [searchMatrix]
  by_cases hempty : matrix = []
  · subst hempty
    exact houtside fun ⟨⟨row, hrow, _⟩, _⟩ ↦ List.not_mem_nil hrow
  obtain ⟨first, last, x, z, hfirst, hlast, hfirstne, hx, hz, hz'⟩ := h.exists_corners hempty
  have hrange : InRange matrix target ↔ _ := h.inRange_iff hfirst hx hlast hz'
  rw [List.isEmpty_eq_false_iff.mpr hempty, if_neg Bool.false_ne_true, vectorAt_of_getElem? hfirst,
    pure_bind, List.isEmpty_eq_false_iff.mpr hfirstne, if_neg Bool.false_ne_true,
    vectorAt_of_getElem? hx, pure_bind]
  by_cases hlow : target < x
  · rw [if_pos hlow]
    exact houtside fun hin ↦ (hrange.mp hin).1 hlow
  rw [if_neg hlow, vectorAt_of_getElem? hlast, pure_bind, vectorAt_of_getElem? hz, pure_bind]
  by_cases hhigh : z < target
  · rw [if_pos hhigh]
    exact houtside fun hin ↦ (hrange.mp hin).2 hhigh
  simp only [imp_iff_right (hrange.mpr ⟨hlow, hhigh⟩)]
  rw [if_neg hhigh]
  change Ensures (lowerBound rounds matrix target >>= searchRow rounds matrix target) out _ _
  have hcolumn := (getElem?_firstColumn h.ne_nil).mpr ⟨first, hfirst, hx⟩
  rw [ensures_bind]
  refine (ensures_lowerBound h.ne_nil (h.firstColumn_pairwise.imp le_of_lt) h.rows_length_le hcolumn
    (not_lt.mp hlow) hrounds).mono ?_ ?_
  · rintro upper - ⟨-, hrows, hupper⟩
    exact ensures_searchRow h hrounds' hrows hupper
  · rintro - - ⟨hfew, hsums⟩ hs
    exact hsums (hs.rows hfew)

/-- With at most `2 ^ 30` rows and columns no sum overflows. -/
theorem searchable_iff_of_le (h : matrix.length ≤ 2 ^ 30)
    (hcolumns : ∀ row ∈ matrix, row.length ≤ 2 ^ 30) :
    Searchable matrix target ↔ ∀ (r c : ℕ) (row : List ℤ), matrix[r]? = some row →
      row[c]? = some target →
        if c = 0 then BisectionRange 0 (matrix.length - 1) r r else r + 1 < matrix.length := by
  have hmax : (intMax : ℤ) = 2 ^ 31 - 1 := by decide
  constructor
  · exact fun hs r c row hrow hc ↦ (hs.position r c row hrow hc).2.2
  · refine fun hposition ↦ ⟨fun _ ↦ sumsBounded_of_le (by omega) (by omega), ?_, ?_⟩
    · intro r row hrow _ _ _ _
      have hlength := hcolumns row (List.mem_of_getElem? hrow)
      exact sumsBounded_of_le (by omega) (by omega)
    · intro r c row hrow hc
      have hlength := hcolumns row (List.mem_of_getElem? hrow)
      exact ⟨by omega, by omega, hposition r c row hrow hc⟩

/-- **Search.** In a sorted matrix `searchMatrix` ends, without an index outside the matrix and
without an overflow, and finds the number exactly if it occurs, if and only if the number is out of
range or the matrix is searchable for it. -/
theorem searchMatrix_iff (matrix : List (List ℤ)) (target : ℤ) (h : SortedMatrix matrix)
    (out : List ℤ) :
    (∃ n, ∀ rounds ≥ n, Ensures (searchMatrix rounds matrix target) out
      (fun b _ ↦ b = true ↔ Occurs matrix target) fun _ _ ↦ False) ↔
      (InRange matrix target → Searchable matrix target) := by
  have henough : ∀ rounds ≥ matrix.length + matrix.flatten.length,
      Ensures (searchMatrix rounds matrix target) out
        (fun b _ ↦ (b = true ↔ Occurs matrix target) ↔
          (InRange matrix target → Searchable matrix target))
        (fun _ _ ↦ ¬ (InRange matrix target → Searchable matrix target)) := by
    intro rounds hrounds
    refine ensures_searchMatrix h (by omega) fun row hrow ↦ ?_
    have hle := (List.sublist_flatten_of_mem hrow).length_le
    omega
  constructor
  · rintro ⟨n, hn⟩
    have hright := hn _ (le_max_left n (matrix.length + matrix.flatten.length))
    obtain ⟨b, o, hrun, hb⟩ := hright.exists_ok
    exact ((henough _ (le_max_right _ _)).of_ok hrun).mp hb
  · intro hs
    refine ⟨_, fun rounds hrounds ↦ (henough rounds hrounds).mono (fun _ _ hq ↦ hq.mpr hs) ?_⟩
    exact fun _ _ hnot ↦ hnot hs

/-- The matrix of `main`. -/
def mainMatrix : List (List ℤ) := [[1, 2, 5, 7], [10, 11, 16, 20], [23, 30, 34, 50]]

private theorem sortedMatrix_mainMatrix : SortedMatrix mainMatrix where
  ne_nil := by decide
  length_eq := by decide
  increasing := by decide
  chain := by simp [mainMatrix]
  fits := by decide

/-- The call in `main`. -/
theorem searchMatrix_iff_main :
    ∃ n, ∀ rounds ≥ n, Ensures (searchMatrix rounds mainMatrix 3) []
      (fun b _ ↦ b = true ↔ Occurs mainMatrix 3) fun _ _ ↦ False := by
  refine (searchMatrix_iff mainMatrix 3 sortedMatrix_mainMatrix []).mpr fun _ ↦ ?_
  have hoccurs : ¬ Occurs mainMatrix 3 := by simp [Occurs, mainMatrix]
  refine (searchable_iff_of_le (by decide) (by decide)).mpr fun r c row hrow hc ↦ ?_
  exact absurd (occurs_of_getElem? hrow hc) hoccurs

/-- In the last row only the first element is found. -/
theorem searchMatrix_misses_last_row :
    ¬ ∀ (matrix : List (List ℤ)) (target : ℤ), SortedMatrix matrix →
      ∃ n, ∀ rounds ≥ n, Ensures (searchMatrix rounds matrix target) []
        (fun b _ ↦ b = true ↔ Occurs matrix target) fun _ _ ↦ False := by
  intro h
  obtain ⟨n, hn⟩ := h mainMatrix 30 sortedMatrix_mainMatrix
  have hrun : searchMatrix (n + 4) mainMatrix 30 [] = .ok false [-1] := rfl
  have hright := (hn (n + 4) (Nat.le_add_right n 4)).of_ok hrun
  exact Bool.false_ne_true (hright.mpr ⟨[23, 30, 34, 50], by decide, by decide⟩)

end SearchMatrix

end CppRepo
