import CppRepo.Library.CLibrary
import CppRepo.Library.Loops
import CppRepo.Library.StarPattern

/-!
# Matching a text against a pattern

`isMatch` fills a table from the prefixes of a text and of a pattern. The table is a local array, so
its cells have no value until they are written. Of the first row, which belongs to the empty text,
the code writes the cell of the empty pattern and the cells behind a star, and no others; whether
one of the others is read is a matter of the text and the pattern. The two constants of the function
are its arguments here.

## What the table holds

A cell says whether a prefix of the text matches a prefix of the pattern. For the text without
characters the pattern must consist of pairs with a star, which is why the cells of the first row
that get a value get `true`. The others would have to hold `false`, and to read one of them is
undefined behaviour.
-/

namespace CppRepo

namespace IsMatch

open StarPattern

/-- `'*'`. -/
abbrev star : UInt8 := 42

/-- `'.'`. -/
abbrev dot : UInt8 := 46

/-- The array `dp` of `rows` times `cols` cells, and what was printed. -/
structure DpState where
  rows : ℕ
  cols : ℕ
  cell : ℕ → ℕ → Option Bool
  printed : List (ℕ × ℕ × Option Bool)

/-- A program on the table. -/
abbrev MatchM (α : Type) := EStateM (Fault Empty) DpState α

/-- Before the array is made. -/
def DpState.initial : DpState := ⟨0, 0, fun _ _ ↦ none, []⟩

/-- The table after a store. -/
def DpState.put (t : DpState) (i j : ℕ) (b : Bool) : DpState :=
  { t with cell := fun i' j' ↦ if i' = i ∧ j' = j then some b else t.cell i' j' }

/-- The state after a line of output. -/
def DpState.print (t : DpState) (i j : ℕ) : DpState :=
  { t with printed := t.printed ++ [(i, j, t.cell i j)] }

/-- `bool dp[rows][cols]`. -/
def newTable (rows cols : ℤ) : MatchM Unit :=
  if 0 < rows ∧ 0 < cols then
    modify fun t ↦ { t with rows := rows.toNat, cols := cols.toNat, cell := fun _ _ ↦ none }
  else
    throw .undefinedBehaviour

/-- A read of `dp[i][j]`. Outside the table there is no cell that could have a value. -/
def cellAt (i j : ℕ) : MatchM Bool := do
  match (← get).cell i j with
  | some b => return b
  | none => throw .undefinedBehaviour

/-- `dp[i][j] = b`. -/
def setCell (i j : ℕ) (b : Bool) : MatchM Unit := do
  let t ← get
  if i < t.rows ∧ j < t.cols then set (t.put i j b) else throw .undefinedBehaviour

/-- The line of output about `dp[i][j]`. What it shows of a cell without a value is left open. So it
is what the first line shows if the text or the pattern is empty: then `dp[1][1]` is outside of the
array. -/
def trace (i j : ℕ) : MatchM Unit := modify fun t ↦ t.print i j

/-- `s[i] == p[j] || p[j] == '.'`. -/
def agrees (s p : Bytes) (i j : ℕ) : MatchM Bool := do
  return decide ((← vectorAt s i) = (← vectorAt p j)) || decide ((← vectorAt p j) = dot)

/-- The body of the loop over the first row. -/
def firstRow (p : Bytes) (j : ℕ) : MatchM Unit := do
  if (← vectorAt p j) = star then
    setCell 0 (j + 1) (← cellAt 0 (j - 1))

/-- What is stored for a star. -/
def starCell (s p : Bytes) (i j : ℕ) : MatchM Bool :=
  pure (decide (0 < j)) <&&> (cellAt (i + 1) (j - 1) <||>
    (cellAt i (j - 1) <&&> agrees s p i (j - 1)) <||>
    (cellAt i (j + 1) <&&> agrees s p i (j - 1)))

/-- The body of the loop over the other rows. -/
def fillCell (s p : Bytes) (i j : ℕ) : MatchM Unit := do
  if (← vectorAt p j) ≠ star then
    if ← agrees s p i j then
      setCell (i + 1) (j + 1) (← cellAt i j)
      trace (i + 1) (j + 1)
    else
      setCell (i + 1) (j + 1) false
  else
    setCell (i + 1) (j + 1) (← starCell s p i j)

/-- `isMatch` of the text `s` and the pattern `p`. -/
def isMatch (s p : Bytes) : MatchM Bool := do
  let len1 := intOfSize s.length
  let len2 := intOfSize p.length
  let rows ← sumInt len1 1
  let cols ← sumInt len2 1
  newTable rows cols
  trace 1 1
  countFrom (fun i ↦ setCell i 0 false) 0 rows.toNat
  setCell 0 0 true
  countFrom (firstRow p) 1 (len2 - 1).toNat
  countFrom (fun i ↦ countFrom (fillCell s p i) 0 len2.toNat) 0 len1.toNat
  cellAt len1.toNat len2.toNat

variable {s p : Bytes} {t : DpState} {c x : UInt8} {b : Bool} {i j k m n : ℕ}
  {Q : Bool → DpState → Prop} {R : Unit → DpState → Prop} {E : Fault Empty → DpState → Prop}

/-! ## Prefixes

One step of the language for each case of the code: the last character of the pattern is a star, or
is not. A star takes its character away with it, so this case goes back by two. -/

/-- The first `k` characters of the pattern match the first `i` characters of the text. -/
def Matches (s p : Bytes) (i k : ℕ) : Prop := s.take i ∈ language dot star (p.take k)

private theorem take_succ_of_getElem? (h : s[i]? = some c) : s.take (i + 1) = s.take i ++ [c] := by
  rw [List.take_add_one, h]
  rfl

private theorem take_star (hx : p[k]? = some x) (hstar : p[k + 1]? = some star) :
    p.take (k + 2) = p.take k ++ [x, star] := by
  rw [take_succ_of_getElem? hstar, take_succ_of_getElem? hx, List.append_assoc]
  rfl

private theorem matches_zero : Matches s p 0 0 := Language.nil_mem_one

private theorem not_matches_zero (hc : s[i]? = some c) : ¬ Matches s p (i + 1) 0 := by
  rw [Matches, take_succ_of_getElem? hc, List.take_zero]
  exact fun h ↦ List.cons_ne_nil c [] (List.append_eq_nil_iff.mp h).2

private theorem matches_succ (hc : s[i]? = some c) (hx : p[k]? = some x) (hne : x ≠ star) :
    Matches s p (i + 1) (k + 1) ↔ Matches s p i k ∧ (c = x ∨ x = dot) := by
  rw [Matches, take_succ_of_getElem? hc, take_succ_of_getElem? hx, language_append_atom hne,
    append_mem_mul_atom_iff]
  rfl

private theorem matches_star_zero (hx : p[k]? = some x) (hne : x ≠ star)
    (hstar : p[k + 1]? = some star) : Matches s p 0 (k + 2) ↔ Matches s p 0 k := by
  rw [Matches, take_star hx hstar, language_append_star hne, List.take_zero, nil_mem_mul_kstar_iff]
  rfl

private theorem matches_star_succ (hc : s[i]? = some c) (hx : p[k]? = some x) (hne : x ≠ star)
    (hstar : p[k + 1]? = some star) :
    Matches s p (i + 1) (k + 2) ↔ Matches s p (i + 1) k ∨
      Matches s p i k ∧ (c = x ∨ x = dot) ∨ Matches s p i (k + 2) ∧ (c = x ∨ x = dot) := by
  have hmono : Matches s p i k → Matches s p i (k + 2) := by
    rw [Matches, Matches, take_star hx hstar, language_append_star hne]
    exact mem_mul_kstar_of_mem
  have hlast : Matches s p (i + 1) (k + 2) ↔ Matches s p (i + 1) k ∨
      Matches s p i (k + 2) ∧ (c = x ∨ x = dot) := by
    rw [Matches, Matches, Matches, take_star hx hstar, language_append_star hne,
      take_succ_of_getElem? hc, append_mem_mul_kstar_iff]
  rw [hlast, ← or_and_right, or_iff_right_of_imp hmono]

/-! ## The parts of the program

Rules for the cells, in both directions: a cell that has a value is read, and one that has none ends
the program. -/

private theorem ensures_cellAt_of_some (h : t.cell i j = some b) :
    Ensures (cellAt i j) t Q E ↔ Q b t := by
  rw [cellAt, ensures_bind, ensures_get, h]
  rfl

private theorem ensures_cellAt_of_none (h : t.cell i j = none) :
    Ensures (cellAt i j) t Q E ↔ E .undefinedBehaviour t := by
  rw [cellAt, ensures_bind, ensures_get, h]
  rfl

theorem ensures_setCell (hi : i < t.rows) (hj : j < t.cols) :
    Ensures (setCell i j b) t R E ↔ R ⟨⟩ (t.put i j b) := by
  rw [setCell, ensures_bind, ensures_get, if_pos ⟨hi, hj⟩, ensures_set]

theorem ensures_trace : Ensures (trace i j) t R E ↔ R ⟨⟩ (t.print i j) := Iff.rfl

private theorem agrees_eq (hc : s[i]? = some c) (hx : p[j]? = some x) :
    agrees s p i j = pure (decide (c = x ∨ x = dot)) := by
  rw [agrees, vectorAt_of_getElem? hc, vectorAt_of_getElem? hx]
  simp only [pure_bind, Bool.decide_or]

namespace DpState

@[simp] theorem cell_put_self : (t.put i j b).cell i j = some b := if_pos ⟨rfl, rfl⟩

private theorem cell_put_of_row_ne {i' j' : ℕ} (h : i' ≠ i) :
    (t.put i j b).cell i' j' = t.cell i' j' :=
  if_neg fun hij ↦ h hij.1

private theorem cell_put_of_col_ne {i' j' : ℕ} (h : j' ≠ j) :
    (t.put i j b).cell i' j' = t.cell i' j' :=
  if_neg fun hij ↦ h hij.2

end DpState

/-! ## The cells that are written

Whether the function reads an unwritten cell depends on the text and the pattern only. A star looks
two cells to the left in its row, and the first row is built from there; a character of the pattern
that agrees with the first one of the text looks at the first row, too. -/

/-- The cells of the first row that are written: the first one, and those behind a star. -/
def Written (p : Bytes) (k : ℕ) : Prop := k = 0 ∨ 1 < k ∧ p[k - 1]? = some star

instance : DecidablePred (Written p) := fun _ ↦ inferInstanceAs (Decidable (_ ∨ _))

/-- The cell that the star in column `j` reads two columns to the left has been written. -/
def StarCovered (p : Bytes) (j : ℕ) : Prop := 0 < j → p[j]? = some star → Written p (j - 1)

/-- If the character in column `j` agrees with the first one of the text, the cell that it reads on
the diagonal has been written. -/
def CharCovered (s p : Bytes) (j : ℕ) : Prop :=
  ∀ c ∈ s[0]?, ∀ x ∈ p[j]?, x ≠ star → c = x ∨ x = dot → Written p j

instance : DecidablePred (StarCovered p) := fun _ ↦ inferInstanceAs (Decidable (_ → _ → _))

instance : DecidablePred (CharCovered s p) := fun j ↦
  inferInstanceAs (Decidable (∀ c ∈ s[0]?, ∀ x ∈ p[j]?, x ≠ star → c = x ∨ x = dot → Written p j))

/-- What is read of the first row has been written, for a text of `m` characters and a pattern of
`n`. -/
structure Covered (s p : Bytes) (m n : ℕ) : Prop where
  stars : ∀ j < n, StarCovered p j
  chars : 0 < m → ∀ j < n, CharCovered s p j
  last : m = 0 → Written p n

private theorem written_succ_iff (hj : 0 < j) : Written p (j + 1) ↔ p[j]? = some star := by
  rw [Written, Nat.add_sub_cancel, or_iff_right (Nat.succ_ne_zero j),
    and_iff_right (Nat.succ_lt_succ hj)]

private theorem Written.exists_star (h : Written p k) (hk : 0 < k) :
    ∃ j, k = j + 2 ∧ p[j + 1]? = some star := by
  obtain rfl | ⟨hlt, hstar⟩ := h
  · exact absurd hk (lt_irrefl 0)
  · obtain ⟨j, rfl⟩ := Nat.exists_eq_add_of_lt hlt
    exact ⟨j, by omega, by simpa [Nat.add_comm 1 j] using hstar⟩

private theorem matches_of_written (hp : WellStarred star p) (hstars : ∀ j < n, StarCovered p j)
    (hk : k ≤ n) (hw : Written p k) : Matches s p 0 k := by
  induction k using Nat.strong_induction_on with
  | _ k ih =>
    rcases Nat.eq_zero_or_pos k with rfl | hpos
    · exact matches_zero
    · obtain ⟨j, rfl, hstar⟩ := hw.exists_star hpos
      obtain ⟨x, hx, hne⟩ := hp.exists_starred hstar
      rw [matches_star_zero hx hne hstar]
      exact ih j (by omega) (by omega) (hstars (j + 1) (by omega) (by omega) hstar)

/-! ## The first column and the first row

The first column is written before the first row, and the cell in the corner a second time, between
the two. The loop over the first row ends, undefined, at the first star that is not covered. -/

/-- The table when the first row has been written up to the column `e`. -/
structure Edges (p : Bytes) (m n e : ℕ) (t : DpState) : Prop where
  rows_eq : t.rows = m + 1
  cols_eq : t.cols = n + 1
  column : ∀ i < m, t.cell (i + 1) 0 = some false
  written : ∀ k ≤ e, Written p k → t.cell 0 k = some true
  unwritten : ∀ k, ¬ (k ≤ e ∧ Written p k) → t.cell 0 k = none

/-- The table while its first column is written. -/
structure Columns (m n i : ℕ) (t : DpState) : Prop where
  rows_eq : t.rows = m + 1
  cols_eq : t.cols = n + 1
  column : ∀ i' < i, t.cell i' 0 = some false
  row : ∀ k, 0 < k → t.cell 0 k = none

theorem ensures_firstColumn (hrows : t.rows = m + 1) (hcols : t.cols = n + 1)
    (hcell : ∀ i j, t.cell i j = none) :
    Ensures (countFrom (fun i ↦ setCell i 0 false) 0 (m + 1)) t (fun _ u ↦ Columns m n (m + 1) u)
      E := by
  have hfirst : Columns m n 0 t := ⟨hrows, hcols, by simp, fun k _ ↦ hcell 0 k⟩
  refine ensures_countFrom (Nat.zero_add (m + 1)) hfirst fun i u _ hi h ↦ ?_
  rw [ensures_setCell (by rw [h.rows_eq]; omega) (by rw [h.cols_eq]; omega)]
  refine ⟨h.rows_eq, h.cols_eq, fun i' hi' ↦ ?_, fun k hk ↦ ?_⟩
  · rcases Nat.lt_succ_iff_lt_or_eq.mp hi' with hlt | rfl
    · rw [DpState.cell_put_of_row_ne hlt.ne]
      exact h.column i' hlt
    · exact DpState.cell_put_self
  · rw [DpState.cell_put_of_col_ne hk.ne']
    exact h.row k hk

private theorem Columns.edges (h : Columns m n (m + 1) t) : Edges p m n 1 (t.put 0 0 true) := by
  refine ⟨h.rows_eq, h.cols_eq, fun i hi ↦ ?_, fun k hk hw ↦ ?_, fun k hk ↦ ?_⟩
  · rw [DpState.cell_put_of_row_ne (Nat.succ_ne_zero i)]
    exact h.column (i + 1) (by omega)
  · obtain rfl | ⟨hlt, -⟩ := hw
    · exact DpState.cell_put_self
    · omega
  · have hpos : 0 < k := Nat.pos_of_ne_zero fun hzero ↦ hk ⟨by omega, .inl hzero⟩
    rw [DpState.cell_put_of_col_ne hpos.ne']
    exact h.row k hpos

private theorem Edges.succ_of_ne {e : ℕ} (h : Edges p m n e t) (he : 0 < e)
    (hne : p[e]? ≠ some star) : Edges p m n (e + 1) t := by
  refine ⟨h.rows_eq, h.cols_eq, h.column, fun k hk hw ↦ ?_, fun k hk ↦ ?_⟩
  · rcases Nat.le_succ_iff.mp hk with hle | rfl
    · exact h.written k hle hw
    · exact absurd ((written_succ_iff he).mp hw) hne
  · exact h.unwritten k fun ⟨hle, hw⟩ ↦ hk ⟨by omega, hw⟩

private theorem Edges.succ_of_star {e : ℕ} (h : Edges p m n e t) (hstar : p[e]? = some star)
    (he : 0 < e) : Edges p m n (e + 1) (t.put 0 (e + 1) true) := by
  refine ⟨h.rows_eq, h.cols_eq, fun i hi ↦ ?_, fun k hk hw ↦ ?_, fun k hk ↦ ?_⟩
  · rw [DpState.cell_put_of_row_ne (Nat.succ_ne_zero i)]
    exact h.column i hi
  · rcases Nat.le_succ_iff.mp hk with hle | rfl
    · rw [DpState.cell_put_of_col_ne (by omega)]
      exact h.written k hle hw
    · exact DpState.cell_put_self
  · have hcol : k ≠ e + 1 := by
      rintro rfl
      exact hk ⟨le_rfl, (written_succ_iff he).mpr hstar⟩
    rw [DpState.cell_put_of_col_ne hcol]
    exact h.unwritten k fun ⟨hle, hw⟩ ↦ hk ⟨by omega, hw⟩

private theorem ensures_firstRows (hn : n ≤ p.length) (h : Edges p m n 1 t) :
    Ensures (countFrom (firstRow p) 1 (n - 1)) t
      (fun _ u ↦ Edges p m n (1 + (n - 1)) u ∧ ∀ j < n, StarCovered p j)
      fun _ _ ↦ ¬ ∀ j < n, StarCovered p j := by
  have hfirst : Edges p m n 1 t ∧ ∀ j < 1, StarCovered p j :=
    ⟨h, fun j hj hpos ↦ absurd hpos (by omega)⟩
  refine (ensures_countFrom (I := fun e u ↦ Edges p m n e u ∧ ∀ j < e, StarCovered p j) rfl hfirst
    ?_).mono ?_ fun _ _ ↦ id
  · rintro e u he hlt ⟨hu, hstars⟩
    have hpe : p[e]? = some p[e] := List.getElem?_eq_getElem (by omega)
    rw [firstRow, vectorAt_of_getElem? hpe, pure_bind]
    by_cases hstar : p[e] = star
    · have hstar' : p[e]? = some star := hpe.trans (congrArg some hstar)
      rw [if_pos hstar, ensures_bind]
      by_cases hw : Written p (e - 1)
      · rw [ensures_cellAt_of_some (hu.written _ (by omega) hw),
          ensures_setCell (by rw [hu.rows_eq]; omega) (by rw [hu.cols_eq]; omega)]
        exact ⟨hu.succ_of_star hstar' he, Nat.forall_lt_succ_right.mpr ⟨hstars, fun _ _ ↦ hw⟩⟩
      · rw [ensures_cellAt_of_none (hu.unwritten _ fun h ↦ hw h.2)]
        exact fun hall ↦ hw (hall e (by omega) he hstar')
    · have hne : p[e]? ≠ some star := fun heq ↦ hstar (Option.some_inj.mp (hpe.symm.trans heq))
      rw [if_neg hstar]
      exact ⟨hu.succ_of_ne he hne,
        Nat.forall_lt_succ_right.mpr ⟨hstars, fun _ heq ↦ absurd heq hne⟩⟩
  · rintro - u ⟨hu, hstars⟩
    exact ⟨hu, fun j hj ↦ hstars j (by omega)⟩

/-! ## The other rows

`Filled` is about the table up to a cell: what is before it holds the right answers. The cell above
is in a row that is done, or in the first row, where it may be one that was not written. -/

/-- The cell `(i, k)` has a value, and says whether the prefixes match. -/
def Holds (s p : Bytes) (t : DpState) (i k : ℕ) : Prop :=
  ∃ b, t.cell i k = some b ∧ (b = true ↔ Matches s p i k)

/-- The table when the rows of the first `i` characters of the text, and of the next row the first
`j` characters of the pattern, have been filled. -/
structure Filled (s p : Bytes) (m n i j : ℕ) (t : DpState) : Prop
    extends Edges p m n (1 + (n - 1)) t where
  done : ∀ i' < i, ∀ k ≤ n, Holds s p t (i' + 1) k
  row : i < m → ∀ k ≤ j, Holds s p t (i + 1) k

namespace Filled

private theorem of_done (h : Edges p m n (1 + (n - 1)) t) (hm : m ≤ s.length)
    (hdone : ∀ i' < i, ∀ k ≤ n, Holds s p t (i' + 1) k) : Filled s p m n i 0 t := by
  refine ⟨h, hdone, fun hi k hk ↦ ?_⟩
  obtain rfl : k = 0 := Nat.le_zero.mp hk
  have hc : s[i]? = some s[i] := List.getElem?_eq_getElem (by omega)
  exact ⟨false, h.column i hi, iff_of_false Bool.false_ne_true (not_matches_zero hc)⟩

theorem next (h : Filled s p m n i n t) (hm : m ≤ s.length) (hi : i < m) :
    Filled s p m n (i + 1) 0 t :=
  of_done h.toEdges hm (Nat.forall_lt_succ_right.mpr ⟨h.done, h.row hi⟩)

private theorem holds_above (h : Filled s p m n i j t) (hp : WellStarred star p)
    (hstars : ∀ j < n, StarCovered p j) (hk : k ≤ n) (hw : i = 0 → Written p k) :
    Holds s p t i k := by
  cases i with
  | zero =>
    have hw := hw rfl
    exact ⟨true, h.written k (by omega) hw, iff_of_true rfl (matches_of_written hp hstars hk hw)⟩
  | succ i => exact h.done i (Nat.lt_succ_self i) k hk

theorem put (h : Filled s p m n i j t) (hb : b = true ↔ Matches s p (i + 1) (j + 1)) :
    Filled s p m n i (j + 1) (t.put (i + 1) (j + 1) b) := by
  have hleft : ∀ i', ∀ k ≤ j, (t.put (i + 1) (j + 1) b).cell i' k = t.cell i' k :=
    fun i' k hk ↦ DpState.cell_put_of_col_ne (by omega)
  have habove : ∀ i' ≤ i, ∀ k, (t.put (i + 1) (j + 1) b).cell i' k = t.cell i' k :=
    fun i' hi' k ↦ DpState.cell_put_of_row_ne (by omega)
  refine ⟨⟨h.rows_eq, h.cols_eq, fun i' hi' ↦ ?_, fun k hk hw ↦ ?_, fun k hk ↦ ?_⟩, ?_, ?_⟩
  · rw [hleft _ 0 (Nat.zero_le j)]
    exact h.column i' hi'
  · rw [habove 0 (Nat.zero_le i)]
    exact h.written k hk hw
  · rw [habove 0 (Nat.zero_le i)]
    exact h.unwritten k hk
  · intro i' hi' k hk
    rw [Holds, habove _ (by omega)]
    exact h.done i' hi' k hk
  · intro hi k hk
    rcases Nat.le_succ_iff.mp hk with hle | rfl
    · rw [Holds, hleft _ k hle]
      exact h.row hi k hle
    · exact ⟨b, DpState.cell_put_self, hb⟩

private theorem print {i' j' : ℕ} (h : Filled s p m n i j t) : Filled s p m n i j (t.print i' j') :=
  ⟨⟨h.rows_eq, h.cols_eq, h.column, h.written, h.unwritten⟩, h.done, h.row⟩

end Filled

section Rows

variable (hp : WellStarred star p) (hstars : ∀ j < n, StarCovered p j) (hm : m ≤ s.length)
  (hn : n ≤ p.length) (hi : i < m)
include hp hstars hm hi

theorem ensures_starCell (hj : j < n) (h : Filled s p m n i j t) (hstar : p[j]? = some star)
    : Ensures (starCell s p i j) t (fun b u ↦ u = t ∧ (b = true ↔ Matches s p (i + 1) (j + 1)))
      fun _ _ ↦ False := by
  have hc : s[i]? = some s[i] := List.getElem?_eq_getElem (by omega)
  obtain ⟨j, rfl⟩ : ∃ j', j = j' + 1 :=
    Nat.exists_eq_succ_of_ne_zero fun hzero ↦ hp.head_ne (hzero ▸ hstar)
  obtain ⟨x, hx, hne⟩ := hp.exists_starred hstar
  obtain ⟨b₁, hcell₁, hb₁⟩ := h.row hi j (by omega)
  obtain ⟨b₂, hcell₂, hb₂⟩ : Holds s p t i j :=
    h.holds_above hp hstars (by omega) fun _ ↦ hstars (j + 1) hj (by omega) hstar
  obtain ⟨b₃, hcell₃, hb₃⟩ : Holds s p t i (j + 2) :=
    h.holds_above hp hstars (by omega) fun _ ↦ (written_succ_iff (by omega)).mpr hstar
  rw [matches_star_succ hc hx hne hstar, ← hb₁, ← hb₂, ← hb₃]
  simp only [starCell, Nat.add_sub_cancel, ensures_andM, ensures_orM, ensures_pure,
    ensures_cellAt_of_some hcell₁, ensures_cellAt_of_some hcell₂, ensures_cellAt_of_some hcell₃,
    agrees_eq hc hx, decide_eq_true_eq, Nat.zero_lt_succ, if_true]
  cases b₁ <;> cases b₂ <;> cases b₃ <;> simp

include hn

theorem ensures_fillCell (hj : j < n) (h : Filled s p m n i j t) :
    Ensures (fillCell s p i j) t
      (fun _ u ↦ Filled s p m n i (j + 1) u ∧ (i = 0 → CharCovered s p j))
      fun _ _ ↦ i = 0 ∧ ¬ CharCovered s p j := by
  have hc : s[i]? = some s[i] := List.getElem?_eq_getElem (by omega)
  have hx : p[j]? = some p[j] := List.getElem?_eq_getElem (by omega)
  have hset : ∀ b R, Ensures (setCell (i + 1) (j + 1) b) t R
      (fun _ _ ↦ i = 0 ∧ ¬ CharCovered s p j) ↔ R ⟨⟩ (t.put (i + 1) (j + 1) b) := fun b R ↦
    ensures_setCell (by rw [h.rows_eq]; omega) (by rw [h.cols_eq]; omega)
  rw [fillCell, vectorAt_of_getElem? hx, pure_bind]
  by_cases hstar : p[j] = star
  · rw [if_neg (not_not.mpr hstar), ensures_bind]
    refine (ensures_starCell hp hstars hm hi hj h (hx.trans (congrArg some hstar))).mono ?_
      fun _ _ hfalse ↦ hfalse.elim
    rintro b u ⟨rfl, hb⟩
    rw [hset]
    exact ⟨h.put hb, fun _ c _ x hx' hne ↦
      absurd ((Option.some_inj.mp (hx'.symm.trans hx)).trans hstar) hne⟩
  · have hmatches := matches_succ hc hx hstar
    rw [if_pos hstar, agrees_eq hc hx, pure_bind]
    by_cases hagree : s[i] = p[j] ∨ p[j] = dot
    · rw [if_pos (decide_eq_true hagree), ensures_bind]
      by_cases hw : i = 0 → Written p j
      · obtain ⟨b, hcell, hb⟩ := h.holds_above hp hstars hj.le hw
        rw [ensures_cellAt_of_some hcell, ensures_bind, hset, ensures_trace]
        exact ⟨(h.put (hb.trans (hmatches.trans (and_iff_left hagree)).symm)).print,
          fun hzero _ _ _ _ _ _ ↦ hw hzero⟩
      · obtain ⟨rfl, hunwritten⟩ := Classical.not_imp.mp hw
        rw [ensures_cellAt_of_none (h.unwritten j fun hj ↦ hunwritten hj.2)]
        exact ⟨rfl, fun hcovered ↦ hunwritten (hcovered _ hc _ hx hstar hagree)⟩
    · rw [if_neg (by simpa using hagree), hset]
      refine ⟨h.put (iff_of_false Bool.false_ne_true fun hm ↦ hagree (hmatches.mp hm).2), ?_⟩
      rintro rfl c hc' x hx' - hcx
      rw [← Option.some_inj.mp (hc'.symm.trans hc), ← Option.some_inj.mp (hx'.symm.trans hx)]
        at hagree
      exact absurd hcx hagree

private theorem ensures_fillRow (h : Filled s p m n i 0 t) :
    Ensures (countFrom (fillCell s p i) 0 n) t
      (fun _ u ↦ Filled s p m n (i + 1) 0 u ∧ (i = 0 → ∀ j < n, CharCovered s p j))
      fun _ _ ↦ i = 0 ∧ ¬ ∀ j < n, CharCovered s p j := by
  have hfirst : Filled s p m n i 0 t ∧ (i = 0 → ∀ j < 0, CharCovered s p j) :=
    ⟨h, fun _ _ hj ↦ absurd hj (Nat.not_lt_zero _)⟩
  refine (ensures_countFrom (I := fun j u ↦ Filled s p m n i j u ∧
    (i = 0 → ∀ j' < j, CharCovered s p j')) (Nat.zero_add n) hfirst ?_).mono ?_ fun _ _ ↦ id
  · rintro j u - hj ⟨hu, hchars⟩
    refine (ensures_fillCell hp hstars hm hn hi (by omega) hu).mono ?_ ?_
    · rintro - v ⟨hv, hchar⟩
      exact ⟨hv, fun hzero ↦ Nat.forall_lt_succ_right.mpr ⟨hchars hzero, hchar hzero⟩⟩
    · rintro - - ⟨hzero, hchar⟩
      exact ⟨hzero, fun hall ↦ hchar (hall j (by omega))⟩
  · rintro - u ⟨hu, hchars⟩
    exact ⟨hu.next hm hi, hchars⟩

end Rows

private theorem ensures_fillRows (hp : WellStarred star p) (hstars : ∀ j < n, StarCovered p j)
    (hm : m ≤ s.length) (hn : n ≤ p.length) (h : Edges p m n (1 + (n - 1)) t) :
    Ensures (countFrom (fun i ↦ countFrom (fillCell s p i) 0 n) 0 m) t
      (fun _ u ↦ Filled s p m n m 0 u ∧ (0 < m → ∀ j < n, CharCovered s p j))
      fun _ _ ↦ ¬ (0 < m → ∀ j < n, CharCovered s p j) := by
  have hfirst : Filled s p m n 0 0 t ∧ (0 < 0 → ∀ j < n, CharCovered s p j) :=
    ⟨.of_done h hm fun i hi ↦ absurd hi (Nat.not_lt_zero i), fun hlt ↦ absurd hlt (lt_irrefl 0)⟩
  refine ensures_countFrom (I := fun i u ↦ Filled s p m n i 0 u ∧
    (0 < i → ∀ j < n, CharCovered s p j)) (Nat.zero_add m) hfirst ?_
  rintro i u - hi ⟨hu, hchars⟩
  refine (ensures_fillRow hp hstars hm hn hi hu).mono ?_ ?_
  · rintro - v ⟨hv, hchars'⟩
    exact ⟨hv, fun _ ↦ (Nat.eq_zero_or_pos i).elim hchars' hchars⟩
  · rintro - - ⟨-, hnot⟩ hall
    exact hnot (hall (by omega))

private theorem ensures_lastCell (hp : WellStarred star p) (hstars : ∀ j < n, StarCovered p j)
    (h : Filled s p m n m 0 t) :
    Ensures (cellAt m n) t (fun b _ ↦ (m = 0 → Written p n) ∧ (b = true ↔ Matches s p m n))
      fun _ _ ↦ ¬ (m = 0 → Written p n) := by
  by_cases hlast : m = 0 → Written p n
  · obtain ⟨b, hcell, hb⟩ := h.holds_above hp hstars le_rfl hlast
    rw [ensures_cellAt_of_some hcell]
    exact ⟨hlast, hb⟩
  · obtain ⟨rfl, hunwritten⟩ := Classical.not_imp.mp hlast
    rw [ensures_cellAt_of_none (h.unwritten n fun hn ↦ hunwritten hn.2)]
    exact hlast

/-! ## The whole function

The two lengths are converted to `int`, and the table is made for these. If one of them is cut
short, the answer is that for the parts that are counted. -/

private theorem intOfSize_of_mod_lt {l : ℕ} (h : l % 2 ^ 32 < intMax) :
    intOfSize l = (l % 2 ^ 32 : ℕ) := by
  rw [intOfSize, if_pos h.le]

private theorem ensures_sizePlusOne {ε σ : Type} {u : σ} (l : ℕ) :
    Ensures (sumInt (ε := ε) (intOfSize l) 1) u
      (fun r v ↦ v = u ∧ r = intOfSize l + 1 ∧ (0 < r ↔ l % 2 ^ 32 < intMax))
      fun _ _ ↦ ¬ l % 2 ^ 32 < intMax := by
  have hmax : (intMax : ℤ) = 2 ^ 31 - 1 := by decide
  by_cases hfits : IntFits (intOfSize l + 1)
  · rw [sumInt_of_fits hfits]
    refine ⟨rfl, rfl, ?_⟩
    obtain ⟨-, hhigh⟩ := hfits
    rw [intOfSize] at hhigh ⊢
    split_ifs at hhigh ⊢ <;> omega
  · rw [sumInt_of_not_fits hfits]
    refine fun hlt ↦ hfits ?_
    rw [intOfSize_of_mod_lt hlt]
    exact ⟨by omega, by omega⟩

/-- The length of a text that an `int` counts. -/
def intLength (s : Bytes) : ℕ := s.length % 2 ^ 32

/-- The table fits into its array, and what is read of it has been written. -/
structure Readable (s p : Bytes) : Prop where
  rows_lt : intLength s < intMax
  cols_lt : intLength p < intMax
  covered : Covered s p (intLength s) (intLength p)

theorem ensures_isMatch (hp : WellStarred star p) :
    Ensures (isMatch s p) t
      (fun b _ ↦ Readable s p ∧ (b = true ↔ Matches s p (intLength s) (intLength p)))
      fun _ _ ↦ ¬ Readable s p := by
  rw [isMatch, ensures_bind]
  refine (ensures_sizePlusOne s.length).mono ?_ fun _ _ hnot h ↦ hnot h.rows_lt
  rintro rows u ⟨rfl, hrows, hrowspos⟩
  rw [ensures_bind]
  refine (ensures_sizePlusOne p.length).mono ?_ fun _ _ hnot h ↦ hnot h.cols_lt
  rintro cols u ⟨rfl, hcols, hcolspos⟩
  rw [ensures_bind, newTable]
  by_cases hpos : 0 < rows ∧ 0 < cols
  case neg =>
    rw [if_neg hpos]
    exact fun h ↦ hpos ⟨hrowspos.mpr h.rows_lt, hcolspos.mpr h.cols_lt⟩
  have hm : intLength s < intMax := hrowspos.mp hpos.1
  have hn : intLength p < intMax := hcolspos.mp hpos.2
  have hm' : intLength s ≤ s.length := Nat.mod_le _ _
  have hn' : intLength p ≤ p.length := Nat.mod_le _ _
  have hlen1 : intOfSize s.length = intLength s := intOfSize_of_mod_lt hm
  have hlen2 : intOfSize p.length = intLength p := intOfSize_of_mod_lt hn
  have hlast : ((intLength p : ℤ) - 1).toNat = intLength p - 1 := by omega
  rw [if_pos hpos, ensures_modify, ensures_bind, ensures_trace, ensures_bind, hrows, hcols, hlen1,
    hlen2, hlast]
  simp only [Int.toNat_natCast, Int.toNat_natCast_add_one]
  refine (ensures_firstColumn rfl rfl fun _ _ ↦ rfl).mono ?_ fun _ _ hfalse ↦ hfalse
  rintro - u hu
  rw [ensures_bind, ensures_setCell (by rw [hu.rows_eq]; omega) (by rw [hu.cols_eq]; omega),
    ensures_bind]
  refine (ensures_firstRows hn' hu.edges).mono ?_ fun _ _ hnot h ↦ hnot h.covered.stars
  rintro - v ⟨hv, hstars⟩
  rw [ensures_bind]
  refine (ensures_fillRows hp hstars hm' hn' hv).mono ?_ fun _ _ hnot h ↦ hnot h.covered.chars
  rintro - w ⟨hw, hchars⟩
  refine (ensures_lastCell hp hstars hw).mono ?_ fun _ _ hnot h ↦ hnot h.covered.last
  rintro b - ⟨hlast, hb⟩
  exact ⟨⟨hm, hn, hstars, hchars, hlast⟩, hb⟩

example : ∃ t, isMatch (ascii "aab") (ascii "c*a*b") .initial = .ok true t := ⟨_, rfl⟩

/-- An `int` counts the characters of a text of less than `2 ^ 32` as they are. -/
theorem matches_intLength (hs : s.length < 2 ^ 32) (hp : p.length < 2 ^ 32) :
    Matches s p (intLength s) (intLength p) ↔ s ∈ language dot star p := by
  rw [Matches, intLength, intLength, Nat.mod_eq_of_lt hs, Nat.mod_eq_of_lt hp, List.take_length,
    List.take_length]

/-- **Matching.** For a pattern whose stars all have a character of their own, `isMatch` reads no
cell that was not written and tells whether the pattern matches the text, if and only if what it
reads of the first row is written and the parts that an `int` counts match when the whole does. -/
theorem isMatch_iff (s p : Bytes) (hp : WellStarred star p) (t : DpState) :
    Ensures (isMatch s p) t (fun b _ ↦ b = true ↔ s ∈ language dot star p) (fun _ _ ↦ False) ↔
      Readable s p ∧
        (Matches s p (intLength s) (intLength p) ↔ s ∈ language dot star p) := by
  have h := ensures_isMatch (s := s) (t := t) hp
  constructor
  · intro hright
    obtain ⟨b, u, hrun, hb⟩ := hright.exists_ok
    obtain ⟨hreadable, hb'⟩ := h.of_ok hrun
    exact ⟨hreadable, hb'.symm.trans hb⟩
  · rintro ⟨hreadable, hiff⟩
    exact h.mono (fun b _ hq ↦ hq.2.trans hiff) fun _ _ hnot ↦ hnot hreadable

/-- A pattern whose stars are all at its front. -/
theorem isMatch_iff_front :
    Ensures (isMatch (ascii "aab") (ascii "c*a*b")) .initial
      (fun b _ ↦ b = true ↔ ascii "aab" ∈ language dot star (ascii "c*a*b")) fun _ _ ↦ False :=
  (isMatch_iff (ascii "aab") (ascii "c*a*b") ⟨by decide, by decide⟩ .initial).mpr
    ⟨⟨by decide, by decide, ⟨by decide, fun _ ↦ by decide +kernel, by decide⟩⟩,
      matches_intLength (by decide) (by decide)⟩

/-- With the constants of the function the second cell of the first row is read, which nothing has
written. -/
theorem isMatch_reads_unwritten :
    ¬ ∀ (s p : Bytes) (t : DpState), WellStarred star p →
      Ensures (isMatch s p) t (fun b _ ↦ b = true ↔ s ∈ language dot star p) fun _ _ ↦ False := by
  intro h
  have hright := h (ascii "aaa") (ascii "aaaa") .initial ⟨by decide, by decide⟩
  obtain ⟨u, hrun⟩ : ∃ u, isMatch (ascii "aaa") (ascii "aaaa") .initial
      = .error .undefinedBehaviour u := ⟨_, rfl⟩
  exact hright.of_error hrun

end IsMatch

end CppRepo
