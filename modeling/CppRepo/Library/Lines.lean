import Mathlib

/-!
# Lines, and text that comes in pieces

A line is a run of elements that ends with a delimiter and has no other. A text is a list of lines
and a rest without a delimiter. Whoever receives a text in pieces can keep what has come so far
until there is a delimiter in it; what is then kept is a line only if nothing has come after the
delimiter.

**Main result.** A receiver that takes all it has whenever there is a delimiter in it takes the
lines of the text, whatever these are, if and only if each piece has a delimiter at most at its end
(`burstsFrom_eq_linesFrom_iff`).
-/

namespace CppRepo

section Lines

variable {α : Type*} [DecidableEq α] (d : α)

/-- The lines of a text, the first of which begins with `acc`. -/
def linesFrom : List α → List α → List (List α)
  | _, [] => []
  | acc, c :: cs => if c = d then (acc ++ [c]) :: linesFrom [] cs else linesFrom (acc ++ [c]) cs

/-- What follows the lines of a text. -/
def restFrom : List α → List α → List α
  | acc, [] => acc
  | acc, c :: cs => if c = d then restFrom [] cs else restFrom (acc ++ [c]) cs

/-- What a receiver takes who has `acc` and takes all it has once there is a delimiter in it. -/
def burstsFrom : List α → List (List α) → List (List α)
  | _, [] => []
  | acc, piece :: pieces =>
    if d ∈ acc ++ piece then (acc ++ piece) :: burstsFrom [] pieces
    else burstsFrom (acc ++ piece) pieces

/-- What such a receiver has at the end. -/
def heldFrom : List α → List (List α) → List α
  | acc, [] => acc
  | acc, piece :: pieces =>
    if d ∈ acc ++ piece then heldFrom [] pieces else heldFrom (acc ++ piece) pieces

variable {d} {acc piece text rest : List α} {pieces : List (List α)}

/-! ## Lines

`linesFrom` goes over a text with the beginning of a line that has come so far. Both the lines and
the rest are found without looking back. -/

theorem linesFrom_append_of_notMem (h : d ∉ text) (acc rest : List α) :
    linesFrom d acc (text ++ rest) = linesFrom d (acc ++ text) rest := by
  induction text generalizing acc with
  | nil => rw [List.nil_append, List.append_nil]
  | cons c cs ih =>
    rw [List.mem_cons, not_or] at h
    rw [List.cons_append, linesFrom, if_neg (Ne.symm h.1), ih h.2, List.append_assoc,
      List.singleton_append]

theorem linesFrom_append_delimiter (h : d ∉ text) (acc rest : List α) :
    linesFrom d acc (text ++ d :: rest) = (acc ++ text ++ [d]) :: linesFrom d [] rest := by
  rw [linesFrom_append_of_notMem h, linesFrom, if_pos rfl]

theorem restFrom_append_of_notMem (h : d ∉ text) (acc rest : List α) :
    restFrom d acc (text ++ rest) = restFrom d (acc ++ text) rest := by
  induction text generalizing acc with
  | nil => rw [List.nil_append, List.append_nil]
  | cons c cs ih =>
    rw [List.mem_cons, not_or] at h
    rw [List.cons_append, restFrom, if_neg (Ne.symm h.1), ih h.2, List.append_assoc,
      List.singleton_append]

theorem restFrom_append_delimiter (h : d ∉ text) (acc rest : List α) :
    restFrom d acc (text ++ d :: rest) = restFrom d [] rest := by
  rw [restFrom_append_of_notMem h, restFrom, if_pos rfl]

theorem flatten_linesFrom (acc text : List α) :
    (linesFrom d acc text).flatten ++ restFrom d acc text = acc ++ text := by
  induction text generalizing acc with
  | nil => rw [linesFrom, restFrom, List.flatten_nil, List.nil_append, List.append_nil]
  | cons c cs ih =>
    rw [linesFrom, restFrom]
    split_ifs
    · rw [List.flatten_cons, List.append_assoc, ih, List.nil_append, List.append_assoc,
        List.singleton_append]
    · rw [ih, List.append_assoc, List.singleton_append]

theorem notMem_restFrom (h : d ∉ acc) (text : List α) : d ∉ restFrom d acc text := by
  induction text generalizing acc with
  | nil => exact h
  | cons c cs ih =>
    rw [restFrom]
    split_ifs with hc
    · exact ih List.not_mem_nil
    · apply ih
      rw [List.mem_append, List.mem_singleton, not_or]
      exact ⟨h, Ne.symm hc⟩

theorem exists_of_mem_linesFrom (h : d ∉ acc) {line : List α}
    (hline : line ∈ linesFrom d acc text) :
    ∃ body, line = body ++ [d] ∧ d ∉ body := by
  induction text generalizing acc with
  | nil => exact absurd hline List.not_mem_nil
  | cons c cs ih =>
    rw [linesFrom] at hline
    split_ifs at hline with hc
    · rcases List.mem_cons.mp hline with rfl | hline
      · exact ⟨acc, by rw [hc], h⟩
      · exact ih List.not_mem_nil hline
    · refine ih ?_ hline
      rw [List.mem_append, List.mem_singleton, not_or]
      exact ⟨h, Ne.symm hc⟩

/-! ## Pieces

The receiver looks at each piece with what it has held back in front of it. -/

theorem burstsFrom_concat (acc : List α) (pieces : List (List α)) (piece : List α) :
    burstsFrom d acc (pieces ++ [piece]) = burstsFrom d acc pieces ++
      if d ∈ heldFrom d acc pieces ++ piece then [heldFrom d acc pieces ++ piece] else [] := by
  induction pieces generalizing acc with
  | nil =>
    rw [List.nil_append, burstsFrom, burstsFrom, burstsFrom, heldFrom, burstsFrom, List.nil_append]
  | cons first pieces ih =>
    rw [List.cons_append, burstsFrom, burstsFrom, heldFrom]
    by_cases h : d ∈ acc ++ first
    · rw [if_pos h, if_pos h, if_pos h, ih, List.cons_append]
    · rw [if_neg h, if_neg h, if_neg h, ih]

theorem heldFrom_concat (acc : List α) (pieces : List (List α)) (piece : List α) :
    heldFrom d acc (pieces ++ [piece])
      = if d ∈ heldFrom d acc pieces ++ piece then [] else heldFrom d acc pieces ++ piece := by
  induction pieces generalizing acc with
  | nil => rw [List.nil_append, heldFrom, heldFrom, heldFrom, heldFrom]
  | cons first pieces ih =>
    rw [List.cons_append, heldFrom, heldFrom]
    by_cases h : d ∈ acc ++ first
    · rw [if_pos h, if_pos h, ih]
    · rw [if_neg h, if_neg h, ih]

omit [DecidableEq α] in
/-- A piece with a delimiter has it only at the end exactly if nothing follows the first one. -/
theorem notMem_dropLast_append_iff {body after : List α} (h : d ∉ body) :
    d ∉ (body ++ d :: after).dropLast ↔ after = [] := by
  constructor
  · intro hnot
    by_contra hne
    apply hnot
    rw [List.dropLast_append_of_ne_nil (List.cons_ne_nil _ _), List.dropLast_cons_of_ne_nil hne]
    exact List.mem_append_right _ List.mem_cons_self
  · rintro rfl
    rwa [List.dropLast_concat]

/-- **When the pieces taken are the lines.** -/
theorem burstsFrom_eq_linesFrom_iff (hacc : d ∉ acc) :
    burstsFrom d acc pieces = linesFrom d acc pieces.flatten
      ↔ ∀ piece ∈ pieces, d ∉ piece.dropLast := by
  induction pieces generalizing acc with
  | nil => simp [burstsFrom, linesFrom]
  | cons piece pieces ih =>
    rw [burstsFrom, List.flatten_cons, List.forall_mem_cons]
    by_cases hmem : d ∈ piece
    · obtain ⟨body, after, rfl, hbody⟩ := List.eq_append_cons_of_mem hmem
      rw [if_pos (List.mem_append_right acc hmem), notMem_dropLast_append_iff hbody,
        List.append_assoc, List.cons_append, linesFrom_append_delimiter hbody, List.cons_eq_cons]
      constructor
      · rintro ⟨hhead, htail⟩
        have hafter : after = [] := by simpa using hhead
        subst hafter
        exact ⟨rfl, (ih List.not_mem_nil).mp htail⟩
      · rintro ⟨rfl, hpieces⟩
        exact ⟨(List.append_assoc _ _ _).symm, (ih List.not_mem_nil).mpr hpieces⟩
    · have hkept : d ∉ acc ++ piece := fun h ↦ (List.mem_append.mp h).elim hacc hmem
      rw [if_neg hkept, linesFrom_append_of_notMem hmem, ih hkept]
      exact ⟨fun h ↦ ⟨fun hlast ↦ hmem (List.mem_of_mem_dropLast hlast), h⟩, And.right⟩

theorem heldFrom_eq_restFrom (hacc : d ∉ acc) (h : ∀ piece ∈ pieces, d ∉ piece.dropLast) :
    heldFrom d acc pieces = restFrom d acc pieces.flatten := by
  induction pieces generalizing acc with
  | nil => rfl
  | cons piece pieces ih =>
    obtain ⟨hlast, hpieces⟩ := List.forall_mem_cons.mp h
    rw [heldFrom, List.flatten_cons]
    by_cases hmem : d ∈ piece
    · obtain ⟨body, after, rfl, hbody⟩ := List.eq_append_cons_of_mem hmem
      obtain rfl := (notMem_dropLast_append_iff hbody).mp hlast
      rw [if_pos (List.mem_append_right acc hmem), List.append_assoc, List.cons_append,
        restFrom_append_delimiter hbody, List.nil_append, ih List.not_mem_nil hpieces]
    · have hkept : d ∉ acc ++ piece := fun h ↦ (List.mem_append.mp h).elim hacc hmem
      rw [if_neg hkept, restFrom_append_of_notMem hmem, ih hkept hpieces]

end Lines

end CppRepo
