import CppRepo.Library.RecencyList

/-!
# Stack distance

A history lists the keys that were used, the last one first. Its distinct keys, each at the place of
its last use, are in the order of recency, and a list that keeps the `m` most recent keys is always
the beginning of this one. So whether it still has a key depends on how many other keys were used
after it: that number is the stack distance of the key.
-/

namespace CppRepo

variable {K : Type*} [DecidableEq K] {k : K} {history : List K} {m : ℕ}

/-- The distinct keys of a history, the most recently used first. -/
def recents : List K → List K
  | [] => []
  | k :: older => k :: (recents older).erase k

/-- How many other keys were used after the last use of `k`. -/
def stackDistance (k : K) (history : List K) : ℕ := (history.takeWhile (· ≠ k)).toFinset.card

theorem nodup_recents (history : List K) : (recents history).Nodup := by
  induction history with
  | nil => exact List.nodup_nil
  | cons x older ih => exact List.nodup_cons.mpr ⟨ih.not_mem_erase, ih.erase x⟩

theorem mem_recents : k ∈ recents history ↔ k ∈ history := by
  induction history with
  | nil => rfl
  | cons x older ih =>
    rw [recents, List.mem_cons, List.mem_cons]
    rcases eq_or_ne k x with rfl | hne
    · exact iff_of_true (Or.inl rfl) (Or.inl rfl)
    · rw [List.mem_erase_of_ne hne, ih]

theorem take_erase_take (l : List K) (k : K) (m : ℕ) :
    ((l.take (m + 1)).erase k).take m = (l.erase k).take m := by
  induction l generalizing m with
  | nil => rfl
  | cons x l ih =>
    rw [List.take_succ_cons]
    rcases eq_or_ne x k with rfl | hne
    · rw [List.erase_cons_head, List.erase_cons_head, List.take_take, min_self]
    · rw [List.erase_cons_tail (by simpa using hne), List.erase_cons_tail (by simpa using hne)]
      cases m with
      | zero => rfl
      | succ m => rw [List.take_succ_cons, List.take_succ_cons, ih]

/-- To move a key to the front and keep `m` keys, the first `m` keys are enough. -/
theorem take_cons_erase_take (l : List K) (k : K) (m : ℕ) :
    (k :: (l.take m).erase k).take m = (k :: l.erase k).take m := by
  cases m with
  | zero => rfl
  | succ m => rw [List.take_succ_cons, List.take_succ_cons, take_erase_take]

theorem exists_recents_eq (h : k ∈ history) :
    ∃ newer older, recents history = newer ++ k :: older ∧ k ∉ newer ∧
      newer.toFinset = (history.takeWhile (· ≠ k)).toFinset := by
  induction history with
  | nil => exact absurd h List.not_mem_nil
  | cons x history ih =>
    rcases eq_or_ne x k with rfl | hne
    · exact ⟨[], (recents history).erase x, rfl, List.not_mem_nil, by simp⟩
    · have hk : k ∈ history := (List.mem_cons.mp h).resolve_left hne.symm
      obtain ⟨newer, older, hrecents, hnot, hnewer⟩ := ih hk
      have hwhile : ((x :: history).takeWhile (· ≠ k)).toFinset = insert x newer.toFinset := by
        rw [List.takeWhile_cons_of_pos (by simpa using hne), List.toFinset_cons, hnewer]
      by_cases hx : x ∈ newer
      · refine ⟨x :: newer.erase x, older, ?_, ?_, ?_⟩
        · rw [recents, hrecents, List.erase_append_left _ hx, List.cons_append]
        · rw [List.mem_cons, not_or]
          exact ⟨hne.symm, fun hmem ↦ hnot (List.mem_of_mem_erase hmem)⟩
        · rw [hwhile, List.toFinset_eq_of_perm _ _ (List.perm_cons_erase hx).symm,
            Finset.insert_eq_of_mem (List.mem_toFinset.mpr hx)]
      · refine ⟨x :: newer, older.erase x, ?_, ?_, ?_⟩
        · rw [recents, hrecents, List.erase_append_right _ hx,
            List.erase_cons_tail (by simpa using hne.symm), List.cons_append]
        · rw [List.mem_cons, not_or]
          exact ⟨hne.symm, hnot⟩
        · rw [hwhile, List.toFinset_cons]

/-- **Stack distance.** The `m` most recent keys are those with a stack distance less than `m`. -/
theorem mem_take_recents_iff :
    k ∈ (recents history).take m ↔ k ∈ history ∧ stackDistance k history < m := by
  by_cases hk : k ∈ history
  · obtain ⟨newer, older, hrecents, hnot, hnewer⟩ := exists_recents_eq hk
    have hnodup : newer.Nodup := by
      have hall := nodup_recents history
      rw [hrecents] at hall
      exact hall.of_append_left
    have hlength : stackDistance k history = newer.length := by
      rw [stackDistance, ← hnewer, List.toFinset_card_of_nodup hnodup]
    have hmem : k ∈ recents history := mem_recents.mpr hk
    rw [List.mem_take_iff_idxOf_lt hmem, hrecents, List.idxOf_append_of_notMem hnot,
      List.idxOf_cons_self, Nat.add_zero, hlength, and_iff_right hk]
  · exact iff_of_false (fun h ↦ hk (mem_recents.mp (List.mem_of_mem_take h))) fun h ↦ hk h.1

/-! ## Bounded recency lists

`add` and a `find` that hits both use their key. What they do to the keys is what `recents` does
when the key is put in front of the history. -/

namespace RecencyList

variable {V : Type*} {r : RecencyList m K V} {v : V}

theorem keys_add : (r.add k v).pairs.keys = (k :: r.pairs.keys.erase k).take m := by
  rcases le_or_gt (r.pairs.insert k v).keys.length m with hle | hlt
  · rw [pairs_add_of_le hle, AList.keys_insert]
    rw [AList.keys_insert] at hle
    exact (List.take_of_length_le hle).symm
  · have hlength : (r.pairs.insert k v).keys.length = m + 1 :=
      le_antisymm ((length_insert_le _ _ _).trans (Nat.succ_le_succ r.length_le)) hlt
    rw [pairs_add_of_lt hlt, keys_dropLastPair, List.dropLast_eq_take, hlength, AList.keys_insert,
      Nat.add_sub_cancel]

theorem keys_find_of_mem (h : k ∈ r.pairs.keys) :
    (r.find k).2.pairs.keys = (k :: r.pairs.keys.erase k).take m := by
  obtain ⟨v, hv⟩ := Option.isSome_iff_exists.mp (AList.lookup_isSome.mpr (AList.mem_keys.mpr h))
  have hlength := (r.find k).2.length_le
  rw [pairs_find_of_some hv, AList.keys_insert] at hlength ⊢
  exact (List.take_of_length_le hlength).symm

end RecencyList

end CppRepo
