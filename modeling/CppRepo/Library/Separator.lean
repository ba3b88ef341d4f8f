import Mathlib

/-!
# Splitting at a separator, and numerals of fixed width

`split` cuts a text at each occurrence of a separator, from left to right and without overlap, as
the string types of many languages do. It gives back the part before a separator that was put there
only if nothing earlier in the text looks like the separator; `split_append` has exactly this
condition, and `head_split_of_infix` says what happens otherwise.

`cut` stops at the first occurrence. The separators of line formats are mostly two different
characters, and for these the condition is about the part alone: a separator that begins in it does
not end behind it.

Numerals that are filled up with zeros to one width are ordered as texts as their numbers are.
-/

namespace CppRepo

/-! ## Splitting

`splitFrom` goes over the text with the piece so far, and skips what is left of a separator it has
found. -/

section Split

variable {α : Type*} [DecidableEq α]

/-- The pieces of a text, the first of which begins with `acc`, after the next `skip` elements. -/
def splitFrom (sep : List α) : ℕ → List α → List α → List (List α)
  | _, acc, [] => [acc]
  | skip + 1, acc, _ :: cs => splitFrom sep skip acc cs
  | 0, acc, c :: cs =>
    if sep <+: c :: cs then acc :: splitFrom sep (sep.length - 1) [] cs
    else splitFrom sep 0 (acc ++ [c]) cs

/-- The pieces between the occurrences of a separator. -/
def split (sep text : List α) : List (List α) := splitFrom sep 0 [] text

variable {sep text front rest : List α}

theorem splitFrom_append_of_length {skip : ℕ} (h : front.length = skip) (acc rest : List α) :
    splitFrom sep skip acc (front ++ rest) = splitFrom sep 0 acc rest := by
  induction front generalizing skip with
  | nil =>
    obtain rfl : skip = 0 := h.symm
    rfl
  | cons c cs ih =>
    obtain rfl : skip = cs.length + 1 := h.symm
    exact ih rfl

theorem splitFrom_separator (hsep : sep ≠ []) (acc rest : List α) :
    splitFrom sep 0 acc (sep ++ rest) = acc :: splitFrom sep 0 [] rest := by
  obtain ⟨c, cs, rfl⟩ := List.exists_cons_of_ne_nil hsep
  have hhere : c :: cs <+: c :: (cs ++ rest) := List.prefix_append (c :: cs) rest
  rw [List.cons_append, splitFrom, if_pos hhere]
  exact congrArg (acc :: ·) (splitFrom_append_of_length rfl [] rest)

theorem splitFrom_append (acc rest : List α)
    (h : ∀ tail, tail ≠ [] → tail <:+ front → ¬ sep <+: tail ++ rest) :
    splitFrom sep 0 acc (front ++ rest) = splitFrom sep 0 (acc ++ front) rest := by
  induction front generalizing acc with
  | nil => rw [List.nil_append, List.append_nil]
  | cons c cs ih =>
    have hhere : ¬ sep <+: c :: (cs ++ rest) := h (c :: cs) (List.cons_ne_nil _ _) List.suffix_rfl
    rw [List.cons_append, splitFrom, if_neg hhere,
      ih _ fun tail hne htail ↦ h tail hne (htail.trans (List.suffix_cons c cs)),
      List.append_assoc, List.singleton_append]

theorem split_of_not_infix (h : ¬ sep <:+: text) : split sep text = [text] := by
  have hnone : ∀ tail, tail ≠ [] → tail <:+ text → ¬ sep <+: tail ++ [] := by
    intro tail _ htail hbegins
    rw [List.append_nil] at hbegins
    exact h (hbegins.isInfix.trans htail.isInfix)
  have hsplit : splitFrom sep 0 [] (text ++ []) = splitFrom sep 0 ([] ++ text) [] :=
    splitFrom_append [] [] hnone
  rwa [List.append_nil] at hsplit

/-- What stands before a separator is a piece if no separator begins earlier. -/
theorem split_append (hsep : sep ≠ [])
    (h : ∀ tail, tail ≠ [] → tail <:+ front → ¬ sep <+: tail ++ (sep ++ rest)) :
    split sep (front ++ (sep ++ rest)) = front :: split sep rest := by
  rw [split, splitFrom_append [] _ h, splitFrom_separator hsep, List.nil_append]
  rfl

theorem head_splitFrom_of_infix (hsep : sep ≠ []) (acc rest : List α) (h : sep <:+: text) :
    ∃ head tail, splitFrom sep 0 acc (text ++ rest) = head :: tail ∧
      head.length < acc.length + text.length := by
  induction text generalizing acc with
  | nil => exact absurd (List.infix_nil.mp h) hsep
  | cons c cs ih =>
    rw [List.cons_append, splitFrom, List.length_cons]
    by_cases hhere : sep <+: c :: (cs ++ rest)
    · rw [if_pos hhere]
      exact ⟨acc, _, rfl, by omega⟩
    · rw [if_neg hhere]
      have hlater : sep <:+: cs := by
        rcases List.infix_cons_iff.mp h with hbegins | hoccurs
        · exact absurd (hbegins.trans (List.prefix_append (c :: cs) rest)) hhere
        · exact hoccurs
      obtain ⟨head, tail, heq, hlt⟩ := ih (acc ++ [c]) hlater
      rw [List.length_append, List.length_singleton] at hlt
      exact ⟨head, tail, heq, by omega⟩

theorem head_split_of_infix (hsep : sep ≠ []) (rest : List α) (h : sep <:+: text) :
    ∃ head tail, split sep (text ++ rest) = head :: tail ∧ head ≠ text := by
  obtain ⟨head, tail, heq, hlt⟩ := head_splitFrom_of_infix hsep [] rest h
  rw [List.length_nil, zero_add] at hlt
  exact ⟨head, tail, heq, fun h ↦ hlt.ne (congrArg List.length h)⟩

end Split

/-! ## The first of two characters

Two different characters cannot overlap with themselves. If the first of the two is not in a text,
or what follows does not begin with the second, the pair does not reach from one into the other. -/

section Cut

variable {α : Type*} {a b c : α} {text front rest : List α}

/-- What stands before the first occurrence of a separator, and what follows it. -/
def cut [DecidableEq α] (sep : List α) : List α → Option (List α × List α)
  | [] => none
  | c :: cs =>
    if sep <+: c :: cs then some ([], (c :: cs).drop sep.length)
    else (cut sep cs).map fun p ↦ (c :: p.1, p.2)

theorem pair_infix_append_cons (hc : c ≠ b) :
    [a, b] <:+: front ++ c :: rest ↔ [a, b] <:+: front ∨ [a, b] <:+: c :: rest := by
  induction front with
  | nil => simp
  | cons d front ih =>
    have hbegins : [a, b] <+: d :: (front ++ c :: rest) ↔ [a, b] <+: d :: front := by
      rcases front with - | ⟨e, front⟩
      · simp [hc.symm]
      · simp
    rw [List.cons_append, List.infix_cons_iff, List.infix_cons_iff, ih, hbegins, or_assoc]

theorem pair_infix_cons (hc : c ≠ a) : [a, b] <:+: c :: rest ↔ [a, b] <:+: rest := by
  rw [List.infix_cons_iff]
  exact or_iff_right fun h ↦ hc (List.cons_prefix_cons.mp h).1.symm

theorem pair_infix_append (h : a ∉ front) :
    [a, b] <:+: front ++ rest ↔ [a, b] <:+: rest := by
  induction front with
  | nil => rfl
  | cons c front ih =>
    rw [List.mem_cons, not_or] at h
    rw [List.cons_append, pair_infix_cons (Ne.symm h.1), ih h.2]

/-- **The first separator** of two different characters. -/
theorem cut_eq_some_iff [DecidableEq α] (hab : a ≠ b) : cut [a, b] text = some (front, rest) ↔
    text = front ++ a :: b :: rest ∧ ¬[a, b] <:+: front := by
  induction text generalizing front with
  | nil => simp [cut]
  | cons c text ih =>
    rw [cut]
    by_cases hhere : [a, b] <+: c :: text
    · obtain ⟨tail, htail⟩ := hhere
      obtain ⟨rfl, rfl⟩ := List.cons.inj htail
      rw [if_pos ⟨tail, rfl⟩]
      constructor
      · intro h
        obtain ⟨rfl, rfl⟩ := Prod.mk.inj (Option.some_inj.mp h)
        exact ⟨rfl, by simp⟩
      · rintro ⟨heq, hfront⟩
        -- a part before the pair begins with it, or is its first character
        match front with
        | [] => exact congrArg (fun rest ↦ some ([], rest)) (List.cons.inj (List.cons.inj heq).2).2
        | [d] => exact absurd (List.cons.inj (List.cons.inj heq).2).1.symm hab
        | d :: e :: front =>
          have hd : a = d := (List.cons.inj heq).1
          have he : b = e := (List.cons.inj (List.cons.inj heq).2).1
          exact absurd ⟨[], front, by rw [hd, he]; rfl⟩ hfront
    · rw [if_neg hhere, Option.map_eq_some_iff]
      constructor
      · rintro ⟨⟨front', rest'⟩, hcut, heq⟩
        obtain ⟨rfl, rfl⟩ := Prod.mk.inj heq
        obtain ⟨rfl, hfront⟩ := ih.mp hcut
        refine ⟨rfl, fun hoccurs ↦ ?_⟩
        rcases List.infix_cons_iff.mp hoccurs with hbegins | hlater
        · exact hhere (hbegins.trans (List.prefix_append (c :: front') _))
        · exact hfront hlater
      · rintro ⟨heq, hfront⟩
        match front with
        | [] => exact absurd ⟨rest, heq.symm⟩ hhere
        | d :: front =>
          obtain ⟨rfl, rfl⟩ := List.cons.inj heq
          have hlater : ¬[a, b] <:+: front := fun h ↦ hfront (List.infix_cons_iff.mpr (.inr h))
          exact ⟨(front, rest), ih.mpr ⟨rfl, hlater⟩, rfl⟩

end Cut

/-! ## Numerals of fixed width

The first digit in which two numerals of one width differ decides, for the texts as for the
numbers. -/

/-- The last `w` decimal digits of a number, with zeros in front. -/
def zeroPad : ℕ → ℕ → List Char
  | 0, _ => []
  | w + 1, n => Nat.digitChar (n / 10 ^ w % 10) :: zeroPad w n

theorem isDigit_of_mem_zeroPad {w n : ℕ} {c : Char} (h : c ∈ zeroPad w n) : c.isDigit = true := by
  have hall : ∀ d < 10, (Nat.digitChar d).isDigit = true := by decide
  induction w with
  | zero => exact absurd h List.not_mem_nil
  | succ w ih =>
    rcases List.mem_cons.mp h with rfl | h
    · exact hall _ (Nat.mod_lt _ (by decide))
    · exact ih h

theorem digitChar_lt {c d : ℕ} (h : c < d) (hd : d < 10) : Nat.digitChar c < Nat.digitChar d := by
  have hall : ∀ d < 10, ∀ c < d, Nat.digitChar c < Nat.digitChar d := by decide
  exact hall d hd c h

/-- **The order of numerals** of one width is that of their numbers. -/
theorem zeroPad_lt {w m n : ℕ} (h : m % 10 ^ w < n % 10 ^ w) : zeroPad w m < zeroPad w n := by
  induction w with
  | zero =>
    rw [pow_zero, Nat.mod_one, Nat.mod_one] at h
    exact absurd h (lt_irrefl 0)
  | succ w ih =>
    rw [Nat.mod_pow_succ, Nat.mod_pow_succ] at h
    rw [zeroPad, zeroPad, List.cons_lt_cons_iff]
    have hpos : 0 < 10 ^ w := Nat.pow_pos (by decide)
    have hm := Nat.mod_lt m hpos
    have hn := Nat.mod_lt n hpos
    rcases lt_trichotomy (m / 10 ^ w % 10) (n / 10 ^ w % 10) with hlt | heq | hgt
    · exact Or.inl (digitChar_lt hlt (Nat.mod_lt _ (by decide)))
    · rw [heq] at h
      exact Or.inr ⟨congrArg Nat.digitChar heq, ih (Nat.lt_of_add_lt_add_right h)⟩
    · -- A greater digit outweighs all that follow.
      have hmul : 10 ^ w * (n / 10 ^ w % 10) + 10 ^ w ≤ 10 ^ w * (m / 10 ^ w % 10) := by
        rw [← Nat.mul_succ]
        exact Nat.mul_le_mul_left _ hgt
      omega

end CppRepo
