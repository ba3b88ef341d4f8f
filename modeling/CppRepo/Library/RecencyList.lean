import CppRepo.Library.KeyedList

/-!
# Bounded recency lists

A cache that forgets what was used least recently is a list of pairs of a key and a value in which
no key occurs twice, most recently used first, with at most `max` pairs. Mathlib's `AList.insert` is
the move to the front: it takes the key out and puts the pair first.

## Inclusion

Give the same calls to a list with room for `m` pairs and to one with room for `n`, where `m ≤ n`. A
lookup may hit in the larger list and miss in the smaller one, and an erased key frees a place in
both or only in the larger one, so the two do not drop pairs at the same calls. Still the smaller
list is a sublist of the larger one. What carries this through a call that drops a pair is a bound
on the pairs the larger list has in addition: at most `n - m`. When the larger list is over its
limit, so is the smaller one.
-/

namespace CppRepo

variable {K V : Type*} {m n : ℕ}

/-- Pairs with distinct keys, the most recently used first, at most `max` of them. -/
structure RecencyList (max : ℕ) (K V : Type*) where
  pairs : AList (fun _ : K ↦ V)
  length_le : pairs.keys.length ≤ max

namespace RecencyList

/-- No pairs. -/
def empty : RecencyList m K V := ⟨∅, Nat.zero_le m⟩

variable [DecidableEq K]

theorem length_insert_le (pairs : AList (fun _ : K ↦ V)) (k : K) (v : V) :
    (pairs.insert k v).keys.length ≤ pairs.keys.length + 1 := by
  rw [AList.keys_insert, List.length_cons]
  exact Nat.succ_le_succ List.erase_sublist.length_le

theorem length_insert_of_mem {pairs : AList (fun _ : K ↦ V)} {k : K} (h : k ∈ pairs) (v : V) :
    (pairs.insert k v).keys.length = pairs.keys.length := by
  rw [AList.keys_insert, List.length_cons, List.length_erase_add_one h]

/-- Puts the pair first, and drops the last pair if there are then more than `max`. -/
def add (r : RecencyList m K V) (k : K) (v : V) : RecencyList m K V :=
  if h : (r.pairs.insert k v).keys.length ≤ m then
    ⟨r.pairs.insert k v, h⟩
  else
    ⟨dropLastPair (r.pairs.insert k v), by
      rw [keys_dropLastPair, List.length_dropLast]
      have hlength := length_insert_le r.pairs k v
      have hmax := r.length_le
      omega⟩

/-- The value of `k`, whose pair becomes the first; nothing happens if `k` is not there. -/
def find (r : RecencyList m K V) (k : K) : Option V × RecencyList m K V :=
  match h : r.pairs.lookup k with
  | none => (none, r)
  | some v => (some v, ⟨r.pairs.insert k v, by
      have hk : k ∈ r.pairs := AList.lookup_isSome.mp (by rw [h]; rfl)
      rw [length_insert_of_mem hk]
      exact r.length_le⟩)

/-- Removes the pair of `k`. -/
def erase (r : RecencyList m K V) (k : K) : RecencyList m K V :=
  ⟨r.pairs.erase k, by
    rw [AList.keys_erase]
    exact List.erase_sublist.length_le.trans r.length_le⟩

theorem pairs_add_of_le {r : RecencyList m K V} {k : K} {v : V}
    (h : (r.pairs.insert k v).keys.length ≤ m) : (r.add k v).pairs = r.pairs.insert k v := by
  rw [add, dif_pos h]

theorem pairs_add_of_lt {r : RecencyList m K V} {k : K} {v : V}
    (h : m < (r.pairs.insert k v).keys.length) :
    (r.add k v).pairs = dropLastPair (r.pairs.insert k v) := by
  rw [add, dif_neg h.not_ge]

@[simp] theorem find_fst (r : RecencyList m K V) (k : K) : (r.find k).1 = r.pairs.lookup k := by
  rw [find]
  split
  · next h => exact h.symm
  · next h => exact h.symm

theorem find_of_none {r : RecencyList m K V} {k : K} (h : r.pairs.lookup k = none) :
    (r.find k).2 = r := by
  rw [find]
  split
  · rfl
  · next h' => exact absurd (h.symm.trans h') (by simp)

theorem pairs_find_of_some {r : RecencyList m K V} {k : K} {v : V}
    (h : r.pairs.lookup k = some v) : (r.find k).2.pairs = r.pairs.insert k v := by
  rw [find]
  split
  · next h' => exact absurd (h.symm.trans h') (by simp)
  · next h' => rw [Option.some_inj.mp (h.symm.trans h')]

/-! ## Inclusion

Each call keeps both fields. For `add` the two lists may be at their limits or not, and the bound on
the additional pairs says which of these cases there are. -/

/-- The list with room for `m` pairs is a sublist of the one with room for `n`, which has at most
`n - m` pairs more. -/
structure Within (small : RecencyList m K V) (large : RecencyList n K V) : Prop where
  sublist : small.pairs.entries.Sublist large.pairs.entries
  slack : large.pairs.keys.length + m ≤ small.pairs.keys.length + n

namespace Within

variable {small : RecencyList m K V} {large : RecencyList n K V}

omit [DecidableEq K] in
theorem empty (hmn : m ≤ n) :
    Within (RecencyList.empty : RecencyList m K V) (RecencyList.empty : RecencyList n K V) :=
  ⟨List.Sublist.refl _, by simpa [RecencyList.empty] using hmn⟩

theorem lookup (h : small.Within large) {k : K} {v : V} (hk : small.pairs.lookup k = some v) :
    large.pairs.lookup k = some v :=
  AList.mem_lookup_iff.mpr (h.sublist.mem (AList.mem_lookup_iff.mp hk))

omit [DecidableEq K] in
theorem mem (h : small.Within large) {k : K} (hk : k ∈ small.pairs) : k ∈ large.pairs :=
  (h.sublist.map Sigma.fst).mem hk

omit [DecidableEq K] in
private theorem sublist_dropLast {l l' : List (Σ _ : K, V)} (h : l.Sublist l') :
    l.dropLast.Sublist l'.dropLast := by
  have htail := h.reverse.tail
  rwa [List.tail_reverse, List.tail_reverse, List.reverse_sublist] at htail

private theorem sublist_kerase {l l' : List (Σ _ : K, V)} (h : l.Sublist l') (k : K) :
    (l.kerase k).Sublist (l'.kerase k) := h.eraseP

/-- A move to the front keeps the sublist. -/
private theorem sublist_insert {pairs pairs' : AList (fun _ : K ↦ V)}
    (h : pairs.entries.Sublist pairs'.entries) (k : K) (v : V) :
    (pairs.insert k v).entries.Sublist (pairs'.insert k v).entries := by
  rw [AList.entries_insert, AList.entries_insert]
  exact (sublist_kerase h k).cons_cons _

private theorem slack_insert (h : small.Within large) (k : K) (v : V) :
    (large.pairs.insert k v).keys.length + m ≤ (small.pairs.insert k v).keys.length + n := by
  have hslack := h.slack
  have hlarge := length_insert_le large.pairs k v
  by_cases hk : k ∈ small.pairs
  · rw [length_insert_of_mem hk, length_insert_of_mem (h.mem hk)]
    exact hslack
  · have hsmall : (small.pairs.insert k v).keys.length = small.pairs.keys.length + 1 := by
      rw [AList.keys_insert, List.length_cons, List.erase_of_not_mem hk]
    omega

theorem add (h : small.Within large) (k : K) (v : V) : (small.add k v).Within (large.add k v) := by
  have hsublist := sublist_insert h.sublist k v
  have hslack := h.slack_insert k v
  have hlength : (small.pairs.insert k v).keys.length ≤ (large.pairs.insert k v).keys.length :=
    (hsublist.map Sigma.fst).length_le
  rcases le_or_gt (small.pairs.insert k v).keys.length m with hsmall | hsmall
  · -- The smaller list is within its limit, so the larger one is: the bound says so.
    have hlarge : (large.pairs.insert k v).keys.length ≤ n := by omega
    refine ⟨?_, ?_⟩
    · rwa [pairs_add_of_le hsmall, pairs_add_of_le hlarge]
    · rwa [pairs_add_of_le hsmall, pairs_add_of_le hlarge]
  · have hsmall' := length_insert_le small.pairs k v
    have hmax := small.length_le
    rcases le_or_gt (large.pairs.insert k v).keys.length n with hlarge | hlarge
    · refine ⟨?_, ?_⟩
      · rw [pairs_add_of_lt hsmall, pairs_add_of_le hlarge]
        exact (List.dropLast_sublist _).trans hsublist
      · rw [pairs_add_of_lt hsmall, pairs_add_of_le hlarge, keys_dropLastPair, List.length_dropLast]
        omega
    · refine ⟨?_, ?_⟩
      · rw [pairs_add_of_lt hsmall, pairs_add_of_lt hlarge]
        exact sublist_dropLast hsublist
      · rw [pairs_add_of_lt hsmall, pairs_add_of_lt hlarge, keys_dropLastPair, keys_dropLastPair,
          List.length_dropLast, List.length_dropLast]
        omega

theorem find (h : small.Within large) (k : K) : (small.find k).2.Within (large.find k).2 := by
  rcases hlarge : large.pairs.lookup k with - | v
  · have hsmall : small.pairs.lookup k = none := by
      rcases hsmall : small.pairs.lookup k with - | v
      · rfl
      · rw [h.lookup hsmall] at hlarge
        exact absurd hlarge (by simp)
    rwa [find_of_none hsmall, find_of_none hlarge]
  · have hk : k ∈ large.pairs := AList.lookup_isSome.mp (by rw [hlarge]; rfl)
    rcases hsmall : small.pairs.lookup k with - | v'
    · -- A hit in the larger list only: the key was in front of nothing the smaller list has.
      have hk' : k ∉ small.pairs := AList.lookup_eq_none.mp hsmall
      rw [find_of_none hsmall]
      refine ⟨?_, ?_⟩
      · rw [pairs_find_of_some hlarge, AList.entries_insert]
        refine List.Sublist.cons _ ?_
        have hsublist := sublist_kerase h.sublist k
        rwa [List.kerase_of_notMem_keys hk'] at hsublist
      · rw [pairs_find_of_some hlarge, length_insert_of_mem hk]
        exact h.slack
    · obtain rfl : v' = v := Option.some_inj.mp ((h.lookup hsmall).symm.trans hlarge)
      refine ⟨?_, ?_⟩
      · rw [pairs_find_of_some hlarge, pairs_find_of_some hsmall]
        exact sublist_insert h.sublist k v'
      · rw [pairs_find_of_some hlarge, pairs_find_of_some hsmall]
        exact h.slack_insert k v'

theorem erase (h : small.Within large) (k : K) : (small.erase k).Within (large.erase k) := by
  have hslack := h.slack
  refine ⟨sublist_kerase h.sublist k, ?_⟩
  change (large.pairs.erase k).keys.length + m ≤ (small.pairs.erase k).keys.length + n
  rw [AList.keys_erase, AList.keys_erase]
  by_cases hk : k ∈ small.pairs
  · have hsmall := List.length_erase_add_one hk
    have hlarge := List.length_erase_add_one (h.mem hk)
    omega
  · have hlarge := (List.erase_sublist (a := k) (l := large.pairs.keys)).length_le
    rw [List.erase_of_not_mem hk]
    omega

end Within

end RecencyList

end CppRepo
