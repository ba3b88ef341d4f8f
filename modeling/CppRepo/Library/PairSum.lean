import Mathlib

/-!
# Disjoint pairs with a given sum

From a list one takes pairs of elements at different positions whose sum is a given target, each
position at most once. How many there are is a matter of counting values: `x` and `y` with
`x + y = target` are paired as often as the rarer of the two occurs, and a half of the target as
often as two of it can be taken.

`CountsPairs` states this of a list of pairs. It is built up by three rules: a list that is too
short has no pair, a pair of elements at the two ends may be taken, and an element that has no
partner in the list may be left out. None of the rules needs the list to be sorted.
-/

namespace CppRepo

/-! ## Pairs of positions

Elements that can be taken from a list stand at positions of it, and what stands at positions that
are all different can be taken from it. So pairs of positions are as good as pairs of elements. -/

section Positions

variable {α : Type*} [AddCommGroup α] {target : α} {a : List α} {ps : List (α × α)}

/-- Pairs of positions, no position twice, at which the elements have the sum. -/
structure IsDisjointPairs (target : α) (a : List α) (ps : List (Fin a.length × Fin a.length)) :
    Prop where
  nodup : (ps.flatMap fun p ↦ [p.1, p.2]).Nodup
  sum : ∀ p ∈ ps, a[p.1] + a[p.2] = target

/-- The elements of pairs. -/
def flatPairs {β : Type*} (ps : List (β × β)) : List β := ps.flatMap fun p ↦ [p.1, p.2]

theorem flatPairs_cons {β : Type*} (p : β × β) (ps : List (β × β)) :
    flatPairs (p :: ps) = p.1 :: p.2 :: flatPairs ps := rfl

/-- Elements that can be taken from a list stand at positions of it that are all different. -/
theorem exists_positions {β : Type*} {w a : List β} (h : w.Subperm a) :
    ∃ is : List (Fin a.length), is.Nodup ∧ is.map (a[·]) = w := by
  obtain ⟨w', hperm, hsub⟩ := h
  obtain ⟨js, rfl, hjs⟩ := List.sublist_eq_map_getElem hsub
  have hforall : List.Forall₂ (fun x (i : Fin a.length) ↦ a[i] = x) (js.map (a[·])) js := by
    rw [List.forall₂_map_left_iff]
    exact List.forall₂_same.mpr fun i _ ↦ rfl
  obtain ⟨is, his, hisjs⟩ := List.perm_comp_forall₂ hperm.symm hforall
  refine ⟨is, hisjs.nodup_iff.mpr (hjs.imp ne_of_lt), ?_⟩
  clear hisjs hforall hperm
  induction his with
  | nil => rfl
  | cons hx _ ih => rw [List.map_cons, ih, hx]

theorem exists_flatPairs_eq {β : Type*} {a : List β} {ps : List (β × β)}
    {is : List (Fin a.length)} (h : is.map (a[·]) = flatPairs ps) :
    ∃ qs, flatPairs qs = is ∧ qs.map (fun q ↦ (a[q.1], a[q.2])) = ps := by
  induction ps generalizing is with
  | nil => exact ⟨[], (List.map_eq_nil_iff.mp h).symm, rfl⟩
  | cons p ps ih =>
    rw [flatPairs_cons] at h
    obtain ⟨i, is, rfl, hi, h⟩ := List.map_eq_cons_iff.mp h
    obtain ⟨j, is, rfl, hj, h⟩ := List.map_eq_cons_iff.mp h
    obtain ⟨qs, rfl, hqs⟩ := ih h
    exact ⟨(i, j) :: qs, rfl, by rw [List.map_cons, hqs, hi, hj]⟩

/-- Pairs of elements that can be taken from a list can be taken at different positions. -/
theorem exists_isDisjointPairs (hsum : ∀ p ∈ ps, p.1 + p.2 = target)
    (h : (flatPairs ps).Subperm a) :
    ∃ qs, IsDisjointPairs target a qs ∧ qs.length = ps.length := by
  obtain ⟨is, hnodup, his⟩ := exists_positions h
  obtain ⟨qs, rfl, hqs⟩ := exists_flatPairs_eq his
  refine ⟨qs, ⟨hnodup, fun q hq ↦ ?_⟩, ?_⟩
  · exact hsum (a[q.1], a[q.2]) (hqs ▸ List.mem_map_of_mem hq)
  · rw [← hqs, List.length_map]

/-- What stands at disjoint pairs of positions can be taken from the list. -/
theorem IsDisjointPairs.subperm {qs : List (Fin a.length × Fin a.length)}
    (h : IsDisjointPairs target a qs) :
    (flatPairs (qs.map fun q ↦ (a[q.1], a[q.2]))).Subperm a := by
  have hflat : flatPairs (qs.map fun q ↦ (a[q.1], a[q.2])) = (flatPairs qs).map (a[·]) := by
    rw [flatPairs, flatPairs, List.flatMap_map, List.map_flatMap]
    rfl
  have hsub : (flatPairs qs).Subperm (List.finRange a.length) :=
    List.subperm_of_subset h.nodup fun i _ ↦ List.mem_finRange i
  obtain ⟨is, hperm, hsublist⟩ := hsub
  refine ⟨is.map (a[·]), ?_, ?_⟩
  · rw [hflat]
    exact hperm.map _
  · have hall : (List.finRange a.length).map (fun i ↦ a[i]) = a :=
      List.map_getElem_finRange a
    have hsub := hsublist.map fun i ↦ a[i]
    rwa [hall] at hsub

end Positions

/-! ## The elements of pairs

`flatPairs` puts the elements of the pairs in one list, and only how often an element is in it
matters. -/

section FlatPairs

variable {β : Type*} [LinearOrder β]

theorem flatPairs_sorted_perm (ps : List (β × β)) :
    (flatPairs (ps.map fun p ↦ (min p.1 p.2, max p.1 p.2))).Perm (flatPairs ps) := by
  induction ps with
  | nil => exact List.Perm.refl _
  | cons p ps ih =>
    rw [List.map_cons, flatPairs_cons, flatPairs_cons]
    rcases le_total p.1 p.2 with hle | hle
    · rw [min_eq_left hle, max_eq_right hle]
      exact (ih.cons _).cons _
    · rw [min_eq_right hle, max_eq_left hle]
      exact ((ih.cons _).cons _).trans (List.Perm.swap _ _ _)

end FlatPairs

/-! ## Counting values

The three rules by which `CountsPairs` is built up: a list that is too short, two elements that are
taken, and an element that is left out. -/

section Counting

variable {α : Type*} [AddCommGroup α] [LinearOrder α] {target x y f l : α} {w w' a : List α}
  {ps : List (α × α)}

/-- The pairs have the sum, each with its smaller element first, and there are as many with given
values as can be taken from the list. -/
structure CountsPairs (target : α) (w : List α) (ps : List (α × α)) : Prop where
  sum : ∀ p ∈ ps, p.1 + p.2 = target ∧ p.1 ≤ p.2
  count_of_lt : ∀ x y, x < y → x + y = target → ps.count (x, y) = min (w.count x) (w.count y)
  count_self : ∀ x, x + x = target → ps.count (x, x) = w.count x / 2

namespace CountsPairs

theorem of_length_le_one (h : w.length ≤ 1) : CountsPairs target w [] := by
  refine ⟨fun p hp ↦ absurd hp List.not_mem_nil, fun x y hlt _ ↦ ?_, fun x _ ↦ ?_⟩
  · rw [List.count_nil]
    rcases w with - | ⟨z, - | ⟨z', w⟩⟩
    · rfl
    · rcases eq_or_ne z x with rfl | hx
      · have hy : y ∉ [z] := fun hmem ↦ hlt.ne' (List.mem_singleton.mp hmem)
        rw [List.count_eq_zero_of_not_mem hy, Nat.min_zero]
      · have hx' : x ∉ [z] := fun hmem ↦ hx (List.mem_singleton.mp hmem).symm
        rw [List.count_eq_zero_of_not_mem hx', Nat.zero_min]
    · simp at h
  · rw [List.count_nil]
    have hle : w.count x ≤ 1 := List.count_le_length.trans h
    omega

theorem perm (h : CountsPairs target w ps) (hw : w.Perm w') : CountsPairs target w' ps := by
  refine ⟨h.sum, fun x y hlt hsum ↦ ?_, fun x hsum ↦ ?_⟩
  · rw [h.count_of_lt x y hlt hsum, hw.count_eq, hw.count_eq]
  · rw [h.count_self x hsum, hw.count_eq]

theorem take (h : CountsPairs target w ps) (hle : f ≤ l) (hsum : f + l = target) :
    CountsPairs target (f :: l :: w) ((f, l) :: ps) := by
  refine ⟨fun p hp ↦ ?_, fun x y hlt hxy ↦ ?_, fun x hx ↦ ?_⟩
  · rcases List.mem_cons.mp hp with rfl | hp
    · exact ⟨hsum, hle⟩
    · exact h.sum p hp
  · have hps := h.count_of_lt x y hlt hxy
    by_cases hf : f = x
    · subst hf
      have hl : l = y := add_left_cancel (hsum.trans hxy.symm)
      subst hl
      rw [List.count_cons_self, hps, List.count_cons_self, List.count_cons_of_ne hlt.ne',
        List.count_cons_of_ne hlt.ne, List.count_cons_self]
      omega
    · have hly : l ≠ y := by
        rintro rfl
        exact hf (add_right_cancel (hsum.trans hxy.symm))
      have hlx : l ≠ x := by
        rintro rfl
        have hfy : f = y := add_right_cancel (hsum.trans (hxy.symm.trans (add_comm l y)))
        exact absurd (hfy ▸ hle) (not_le.mpr hlt)
      have hfy : f ≠ y := by
        rintro rfl
        exact hlx (add_left_cancel (hsum.trans (hxy.symm.trans (add_comm x f))))
      have hpair : (f, l) ≠ (x, y) := fun heq ↦ hf (Prod.mk.inj heq).1
      rw [List.count_cons_of_ne hpair, hps, List.count_cons_of_ne hf, List.count_cons_of_ne hlx,
        List.count_cons_of_ne hfy, List.count_cons_of_ne hly]
  · have hps := h.count_self x hx
    by_cases hf : f = x
    · subst hf
      have hl : l = f := add_left_cancel (hsum.trans hx.symm)
      subst hl
      rw [List.count_cons_self, hps, List.count_cons_self, List.count_cons_self]
      omega
    · have hlx : l ≠ x := by
        rintro rfl
        exact hf (add_right_cancel (hsum.trans hx.symm))
      have hpair : (f, l) ≠ (x, x) := fun heq ↦ hf (Prod.mk.inj heq).1
      rw [List.count_cons_of_ne hpair, hps, List.count_cons_of_ne hf, List.count_cons_of_ne hlx]

theorem leave (h : CountsPairs target w ps) (hne : ∀ y ∈ f :: w, f + y ≠ target) :
    CountsPairs target (f :: w) ps := by
  refine ⟨h.sum, fun x y hlt hxy ↦ ?_, fun x hx ↦ ?_⟩
  · have hps := h.count_of_lt x y hlt hxy
    by_cases hf : f = x
    · subst hf
      have hy : (f :: w).count y = 0 := List.count_eq_zero_of_not_mem fun hmem ↦ hne y hmem hxy
      have hy' : w.count y = 0 := List.count_eq_zero_of_not_mem fun hmem ↦
        hne y (List.mem_cons_of_mem f hmem) hxy
      rw [hps, hy, hy', Nat.min_zero, Nat.min_zero]
    by_cases hf' : f = y
    · subst hf'
      rw [add_comm] at hxy
      have hx : (f :: w).count x = 0 := List.count_eq_zero_of_not_mem fun hmem ↦ hne x hmem hxy
      have hx' : w.count x = 0 := List.count_eq_zero_of_not_mem fun hmem ↦
        hne x (List.mem_cons_of_mem f hmem) hxy
      rw [hps, hx, hx', Nat.zero_min, Nat.zero_min]
    · rw [hps, List.count_cons_of_ne hf, List.count_cons_of_ne hf']
  · have hf : f ≠ x := by
      rintro rfl
      exact hne f List.mem_cons_self hx
    rw [h.count_self x hx, List.count_cons_of_ne hf]

end CountsPairs

/-! ## As many pairs as there can be

Whatever pairs one takes, an element is in no more of them than its partner occurs. -/

theorem count_flatPairs (hps : ∀ p ∈ ps, p.1 + p.2 = target ∧ p.1 ≤ p.2) (v : α) :
    (flatPairs ps).count v
      = if v < target - v then ps.count (v, target - v)
        else if v = target - v then 2 * ps.count (v, v) else ps.count (target - v, v) := by
  induction ps with
  | nil => simp [flatPairs]
  | cons p ps ih =>
    obtain ⟨x, y⟩ := p
    obtain ⟨hsum, hle⟩ := hps (x, y) List.mem_cons_self
    have hrest := ih fun p hp ↦ hps p (List.mem_cons_of_mem _ hp)
    dsimp only at hsum hle
    have hx : x = v ↔ y = target - v := by
      constructor
      · rintro rfl
        exact eq_sub_of_add_eq' hsum
      · rintro rfl
        exact add_right_cancel (hsum.trans (add_sub_cancel v target).symm)
    have hy : y = v ↔ x = target - v := by
      constructor
      · rintro rfl
        exact eq_sub_of_add_eq hsum
      · rintro rfl
        exact add_left_cancel (hsum.trans (sub_add_cancel target v).symm)
    rw [flatPairs_cons]
    simp only [List.count_cons, beq_iff_eq, Prod.mk.injEq, hrest]
    rcases lt_trichotomy v (target - v) with hlt | heq | hgt
    · have hyv : ¬ y = v := by
        intro h
        have hxv := hy.mp h
        rw [hxv, h] at hle
        exact absurd hlt (not_lt.mpr hle)
      simp only [if_pos hlt, hyv, if_false, hx, and_self]
      omega
    · have hboth : x = v ↔ y = v := by rw [hx, ← heq]
      simp only [if_neg heq.not_lt, if_pos heq, hboth, and_self]
      split_ifs <;> omega
    · have hxv : ¬ x = v := by
        intro h
        have hyv := hx.mp h
        rw [hyv, h] at hle
        exact absurd hgt (not_lt.mpr hle)
      simp only [if_neg hgt.not_gt, if_neg hgt.ne', hxv, if_false, ← hy, and_self]
      omega

theorem CountsPairs.subperm (h : CountsPairs target a ps) : (flatPairs ps).Subperm a := by
  refine List.subperm_ext_iff.mpr fun v _ ↦ ?_
  rw [count_flatPairs h.sum]
  split_ifs with hlt heq
  · rw [h.count_of_lt v (target - v) hlt (add_sub_cancel v target)]
    exact min_le_left _ _
  · have hself : v + v = target := by
      rw [eq_sub_iff_add_eq] at heq
      exact heq
    rw [h.count_self v hself]
    omega
  · have hgt : target - v < v := lt_of_le_of_ne (not_lt.mp hlt) (Ne.symm heq)
    rw [h.count_of_lt (target - v) v hgt (sub_add_cancel target v)]
    exact min_le_right _ _

/-- **As many pairs as there can be.** The number of counted pairs is the largest number of disjoint
pairs of positions with the sum. -/
theorem CountsPairs.isGreatest (h : CountsPairs target a ps) :
    IsGreatest {n | ∃ qs, IsDisjointPairs target a qs ∧ qs.length = n} ps.length := by
  refine ⟨exists_isDisjointPairs (fun p hp ↦ (h.sum p hp).1) h.subperm, ?_⟩
  rintro n ⟨qs, hqs, rfl⟩
  let values := qs.map fun q ↦ (a[q.1], a[q.2])
  -- The smaller element of each pair is put first.
  let ordered := values.map fun p ↦ (min p.1 p.2, max p.1 p.2)
  have hlength : ordered.length = qs.length := by rw [List.length_map, List.length_map]
  have hsum : ∀ p ∈ ordered, p.1 + p.2 = target ∧ p.1 ≤ p.2 := by
    intro p hp
    obtain ⟨value, hvalue, rfl⟩ := List.mem_map.mp hp
    obtain ⟨q, hq, rfl⟩ := List.mem_map.mp hvalue
    refine ⟨?_, min_le_max⟩
    rw [min_add_max]
    exact hqs.sum q hq
  have hflat : (flatPairs ordered).Subperm a :=
    (flatPairs_sorted_perm values).subperm_right.mpr hqs.subperm
  rw [← hlength]
  refine List.Subperm.length_le (List.subperm_ext_iff.mpr fun p hp ↦ ?_)
  obtain ⟨hpsum, hle⟩ := hsum p hp
  obtain ⟨x, y⟩ := p
  dsimp only at hpsum hle
  have hcount := fun v ↦ hflat.count_le v
  obtain rfl : y = target - x := eq_sub_of_add_eq' hpsum
  have hx := count_flatPairs hsum x
  rcases hle.lt_or_eq with hlt | heq
  · have hy := count_flatPairs hsum (target - x)
    rw [if_pos hlt] at hx
    rw [sub_sub_cancel, if_neg hlt.not_gt, if_neg hlt.ne'] at hy
    rw [h.count_of_lt x (target - x) hlt hpsum]
    exact le_min (hx ▸ hcount x) (hy ▸ hcount (target - x))
  · rw [if_neg heq.not_lt, if_pos heq] at hx
    rw [← heq] at hpsum ⊢
    rw [h.count_self x hpsum]
    have htwo := hcount x
    omega

end Counting

end CppRepo
