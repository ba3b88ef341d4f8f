import Mathlib.Computability.Language

/-!
# Patterns with a wildcard and a star

A pattern is a list of characters. One of them, `any`, stands for every character, and another,
`star`, lets the character in front of it occur any number of times. A pattern denotes a language,
by recursion from its front; a table over the prefixes of a word and of a pattern is filled from
their ends. The lemmas of this file are about the ends: what a character, or a character with its
star, adds behind a pattern, and when a word that ends in a given character is matched then.
-/

open Computability

namespace CppRepo

namespace StarPattern

variable {α : Type} (any star : α)

/-- The words of one character that `x` stands for. -/
def atom (x : α) : Language α := {w | ∃ c, w = [c] ∧ (c = x ∨ x = any)}

/-- The words that match a pattern. -/
def language [DecidableEq α] : List α → Language α
  | [] => 1
  | [x] => atom any x
  | x :: y :: p =>
    if y = star then (atom any x)∗ * language p else atom any x * language (y :: p)

/-- Every star has a character in front of it that is not a star. -/
structure WellStarred (p : List α) : Prop where
  head_ne : p[0]? ≠ some star
  next_ne : ∀ j < p.length, p[j]? = some star → p[j + 1]? ≠ some star

variable {any star} {c x : α} {w : List α} {l m : Language α}

theorem WellStarred.exists_starred {p : List α} {j : ℕ} (h : WellStarred star p)
    (hstar : p[j + 1]? = some star) : ∃ x, p[j]? = some x ∧ x ≠ star := by
  obtain ⟨hlt, -⟩ := List.getElem?_eq_some_iff.mp hstar
  have hj : p[j]? = some p[j] := List.getElem?_eq_getElem (by omega)
  exact ⟨p[j], hj, fun heq ↦ h.next_ne j (by omega) (heq ▸ hj) hstar⟩

/-! ## The end of a pattern

Only a character that is followed by a star is affected by what comes behind it. So the language of
a pattern is taken apart at its end as it is at its front. -/

section Append

variable [DecidableEq α]

theorem language_cons_star (x : α) (p : List α) :
    language any star (x :: star :: p) = (atom any x)∗ * language any star p := by
  rw [language, if_pos rfl]

theorem language_cons_of_ne {y : α} (hy : y ≠ star) (x : α) (p : List α) :
    language any star (x :: y :: p) = atom any x * language any star (y :: p) := by
  rw [language, if_neg hy]

theorem language_append_atom (hx : x ≠ star) (p : List α) :
    language any star (p ++ [x]) = language any star p * atom any x := by
  induction p using language.induct star with
  | case1 => exact (one_mul _).symm
  | case2 y => exact language_cons_of_ne hx y []
  | case3 y p ih =>
    rw [List.cons_append, List.cons_append, language_cons_star, ih, language_cons_star, mul_assoc]
  | case4 y z p hz ih =>
    rw [List.cons_append, List.cons_append, language_cons_of_ne hz, ← List.cons_append, ih,
      language_cons_of_ne hz, mul_assoc]

theorem language_append_star (hx : x ≠ star) (p : List α) :
    language any star (p ++ [x, star]) = language any star p * (atom any x)∗ := by
  have hpair : language any star [x, star] = (atom any x)∗ :=
    (language_cons_star x []).trans (mul_one _)
  induction p using language.induct star with
  | case1 => exact hpair.trans (one_mul _).symm
  | case2 y =>
    rw [List.singleton_append, language_cons_of_ne hx, hpair]
    rfl
  | case3 y p ih =>
    rw [List.cons_append, List.cons_append, language_cons_star, ih, language_cons_star, mul_assoc]
  | case4 y z p hz ih =>
    rw [List.cons_append, List.cons_append, language_cons_of_ne hz, ← List.cons_append, ih,
      language_cons_of_ne hz, mul_assoc]

end Append

/-! ## The end of a word

A word in the star of one character ends with an occurrence of it, or is empty. -/

theorem nil_mem_mul_iff : [] ∈ l * m ↔ [] ∈ l ∧ [] ∈ m := by
  simp only [Language.mem_mul, List.append_eq_nil_iff]
  exact ⟨fun ⟨_, hl, _, hm, hx, hy⟩ ↦ ⟨hx ▸ hl, hy ▸ hm⟩, fun ⟨hl, hm⟩ ↦ ⟨[], hl, [], hm, rfl, rfl⟩⟩

theorem nil_mem_mul_kstar_iff : [] ∈ l * m∗ ↔ [] ∈ l := by
  rw [nil_mem_mul_iff]
  exact and_iff_left (Language.nil_mem_kstar m)

theorem append_mem_mul_atom_iff : w ++ [c] ∈ l * atom any x ↔ w ∈ l ∧ (c = x ∨ x = any) := by
  rw [Language.mem_mul]
  constructor
  · rintro ⟨a, ha, -, ⟨d, rfl, hd⟩, hac⟩
    obtain ⟨rfl, hcd⟩ := List.append_inj' hac rfl
    obtain rfl : d = c := List.singleton_inj.mp hcd
    exact ⟨ha, hd⟩
  · rintro ⟨hw, hc⟩
    exact ⟨w, hw, [c], ⟨c, rfl, hc⟩, rfl⟩

theorem mem_mul_kstar_of_mem (h : w ∈ l) : w ∈ l * m∗ :=
  Language.mem_mul.mpr ⟨w, h, [], Language.nil_mem_kstar m, List.append_nil w⟩

/-- The last occurrence of a starred character. -/
theorem append_mem_mul_kstar_iff :
    w ++ [c] ∈ l * (atom any x)∗ ↔
      w ++ [c] ∈ l ∨ w ∈ l * (atom any x)∗ ∧ (c = x ∨ x = any) := by
  have hunfold : l * (atom any x)∗ = l + l * (atom any x)∗ * atom any x := by
    conv_lhs => rw [← Language.one_add_kstar_mul_self_eq_kstar, mul_add, mul_one, ← mul_assoc]
  conv_lhs => rw [hunfold, Language.mem_add, append_mem_mul_atom_iff]

end StarPattern

end CppRepo
