import Mathlib

/-!
# Objects that are handed from place to place

Objects lie at places, each object at one place. A step moves one object, and leaves all others
where they are: it creates an object at a place, hands it over from one place to another, or
destroys it. An object that lies at one place only stays at one place only.
-/

namespace CppRepo

variable {P α : Type*}

/-- No place holds an object twice, and no two places hold the same object. -/
structure Exclusive (held : P → List α) : Prop where
  nodup : ∀ p, (held p).Nodup
  unique : ∀ {p q a}, a ∈ held p → a ∈ held q → p = q

variable {held held' : P → List α} {a b : α} {p q : P} {dest : Option P}

theorem Exclusive.notMem (h : Exclusive held) (ha : a ∈ held p) (hne : q ≠ p) : a ∉ held q :=
  fun hq ↦ hne (h.unique hq ha)

variable [DecidableEq P] [DecidableEq α]

/-- The object `a` goes to the place `dest`, or is destroyed, and nothing else moves. -/
def Moves (a : α) (dest : Option P) (held held' : P → List α) : Prop :=
  ∀ p, (held' p).Perm (if dest = some p then a :: (held p).erase a else (held p).erase a)

namespace Exclusive

theorem mem_iff_of_moves (h : Exclusive held) (hm : Moves a dest held held') :
    b ∈ held' p ↔ b = a ∧ dest = some p ∨ b ≠ a ∧ b ∈ held p := by
  rw [(hm p).mem_iff]
  by_cases hp : dest = some p
  · by_cases hb : b = a <;> simp [hp, hb]
  · by_cases hb : b = a <;> simp [hp, hb, (h.nodup p).mem_erase_iff]

theorem moves (h : Exclusive held) (hm : Moves a dest held held') : Exclusive held' := by
  constructor
  · intro p
    refine (hm p).nodup_iff.mpr ?_
    have herase := (h.nodup p).erase a
    split
    · exact List.nodup_cons.mpr ⟨List.Nodup.not_mem_erase (h.nodup p), herase⟩
    · exact herase
  · intro p q b hp hq
    rw [h.mem_iff_of_moves hm] at hp hq
    rcases hp with ⟨rfl, hp⟩ | ⟨hne, hp⟩
    · rcases hq with ⟨-, hq⟩ | ⟨hne, -⟩
      · exact Option.some_inj.mp (hp.symm.trans hq)
      · exact absurd rfl hne
    · rcases hq with ⟨rfl, -⟩ | ⟨-, hq⟩
      · exact absurd rfl hne
      · exact h.unique hp hq

/-- An object is held by some place after the move if it has not been destroyed. -/
theorem exists_mem_iff_of_moves (h : Exclusive held) (hm : Moves a dest held held') :
    (∃ p, b ∈ held' p) ↔ b = a ∧ dest.isSome ∨ b ≠ a ∧ ∃ p, b ∈ held p := by
  simp only [h.mem_iff_of_moves hm, exists_or, exists_and_left, Option.isSome_iff_exists]

end Exclusive

namespace Moves

theorem stay (h : Exclusive held) (ha : a ∈ held p) : Moves a (some p) held held := by
  intro q
  by_cases hq : q = p
  · subst hq
    rw [if_pos rfl]
    exact List.perm_cons_erase ha
  · rw [if_neg fun h ↦ hq (Option.some_inj.mp h).symm, List.erase_of_not_mem (h.notMem ha hq)]

theorem create (hfresh : ∀ p, a ∉ held p) (hq : (held' q).Perm (a :: held q))
    (hrest : ∀ p, p ≠ q → held' p = held p) : Moves a (some q) held held' := by
  intro p
  rw [List.erase_of_not_mem (hfresh p)]
  by_cases hp : p = q
  · subst hp
    rwa [if_pos rfl]
  · rw [if_neg fun h ↦ hp (Option.some_inj.mp h).symm, hrest p hp]

theorem destroy (h : Exclusive held) (hp : (held p).Perm (a :: held' p))
    (hrest : ∀ q, q ≠ p → held' q = held q) : Moves a none held held' := by
  have ha : a ∈ held p := hp.mem_iff.mpr List.mem_cons_self
  intro q
  rw [if_neg (Option.some_ne_none q).symm]
  by_cases hq : q = p
  · subst hq
    simpa using (hp.erase a).symm
  · rw [List.erase_of_not_mem (h.notMem ha hq), hrest q hq]

theorem handOver (h : Exclusive held) (hne : p ≠ q) (hp : (held p).Perm (a :: held' p))
    (hq : (held' q).Perm (a :: held q)) (hrest : ∀ r, r ≠ p → r ≠ q → held' r = held r) :
    Moves a (some q) held held' := by
  have ha : a ∈ held p := hp.mem_iff.mpr List.mem_cons_self
  intro r
  by_cases hrq : r = q
  · subst hrq
    rwa [if_pos rfl, List.erase_of_not_mem (h.notMem ha hne.symm)]
  · rw [if_neg fun h ↦ hrq (Option.some_inj.mp h).symm]
    by_cases hrp : r = p
    · subst hrp
      simpa using (hp.erase a).symm
    · rw [List.erase_of_not_mem (h.notMem ha hrp), hrest r hrp hrq]

end Moves

/-- When what one place counts changes, the total changes by as much. -/
theorem sum_add_of_forall_ne {P : Type*} [DecidableEq P] [Fintype P] {f g : P → ℕ} (p : P)
    (h : ∀ q ≠ p, g q = f q) : ∑ q, g q + f p = ∑ q, f q + g p := by
  have hg := Finset.add_sum_erase Finset.univ g (Finset.mem_univ p)
  have hf := Finset.add_sum_erase Finset.univ f (Finset.mem_univ p)
  have hrest : ∑ q ∈ Finset.univ.erase p, g q = ∑ q ∈ Finset.univ.erase p, f q :=
    Finset.sum_congr rfl fun q hq ↦ h q (Finset.ne_of_mem_erase hq)
  omega

end CppRepo
