import CppRepo.Library.RecencyList
import CppRepo.Lru.LruMap

/-!
# The map is a bounded recency list

The two containers of a `LruMap` together stand for one list of pairs. `Represents` says how: the
keys are in the order of `entries_lru`, the values are those of `entries`, and the iterator of an
entry denotes the node of its key. Each member takes a representation of a list to a representation
of the list that the bounded recency list of the same capacity has after the same call, and gives
back the same. In particular no member runs into undefined behaviour.

`add` goes through a list that may have one pair too many, so the representation itself says nothing
about the capacity.
-/

namespace CppRepo

variable {K V : Type} [DecidableEq K] {max : ℕ}

open LruMap (Op Reply)

/-! ## The abstract run

The recency list takes the same calls and gives the same replies. Its calls are always defined. -/

/-- A call on the recency list, and what it gives back: through a pointer that is not null, `find`
writes the value it found. -/
def RecencyList.step (r : RecencyList max K V) : Op K V → Reply V × RecencyList max K V
  | .find key value =>
    (some ((r.find key).1.isSome, value.map fun old ↦ (r.find key).1.getD old), (r.find key).2)
  | .add key value => (none, r.add key value)
  | .erase key => (none, r.erase key)

/-- Many calls on a recency list that is empty at first. -/
def RecencyList.calls (max : ℕ) (ops : List (Op K V)) : List (Reply V) × RecencyList max K V :=
  run RecencyList.step RecencyList.empty ops

/-! ## The representation

A member first takes the node of its key out, if there is one, and in between the containers stand
for nothing: an entry is left whose iterator denotes no node. `Unlinked` is this state. From it a
new node for the key, or the removal of the entry, leads back to a representation. -/

/-- The two containers stand for the list `pairs`. -/
structure Represents (entries : AList (fun _ : K ↦ Entry V)) (lru : NodeList K)
    (pairs : AList (fun _ : K ↦ V)) : Prop where
  keys : lru.toList = pairs.keys
  value : ∀ k, (entries.lookup k).map Entry.value = pairs.lookup k
  denotes : ∀ k e, entries.lookup k = some e → lru.Denotes e.lruIter k

namespace Represents

variable {entries : AList (fun _ : K ↦ Entry V)} {lru : NodeList K} {pairs : AList (fun _ : K ↦ V)}
  {key : K}

theorem mem_iff (h : Represents entries lru pairs) (k : K) : k ∈ entries ↔ k ∈ pairs := by
  rw [← AList.lookup_isSome, ← AList.lookup_isSome, ← h.value k, Option.isSome_map]

theorem nodup (h : Represents entries lru pairs) : lru.toList.Nodup := by
  rw [h.keys]
  exact pairs.keys_nodup

/-- The two containers without the node of `key`: what is left before `key` gets a new node or loses
its entry. -/
structure Unlinked (key : K) (entries : AList (fun _ : K ↦ Entry V)) (lru : NodeList K)
    (pairs : AList (fun _ : K ↦ V)) : Prop where
  keys : lru.toList = pairs.keys.erase key
  value : ∀ k, (entries.lookup k).map Entry.value = pairs.lookup k
  denotes : ∀ k e, k ≠ key → entries.lookup k = some e → lru.Denotes e.lruIter k

/-- An entry's iterator can be erased, which takes out the node of its key and no other. -/
theorem erase_iter (h : Represents entries lru pairs) {e : Entry V}
    (he : entries.lookup key = some e) :
    ∃ lru', lru.erase e.lruIter = some lru' ∧ Unlinked key entries lru' pairs := by
  obtain ⟨lru', herase, hkeys, hdenotes⟩ := NodeList.erase_spec (h.denotes key e he) h.nodup
  refine ⟨lru', herase, ?_, h.value, ?_⟩
  · rw [hkeys, h.keys]
  · exact fun k e' hk he' ↦ hdenotes _ k hk (h.denotes k e' he')

private theorem unlinked_of_none (h : Represents entries lru pairs)
    (hkey : entries.lookup key = none) : Unlinked key entries lru pairs := by
  have hmem : key ∉ pairs.keys := by
    rw [← AList.mem_keys, ← h.mem_iff key]
    exact AList.lookup_eq_none.mp hkey
  refine ⟨?_, h.value, fun k e _ he ↦ h.denotes k e he⟩
  rw [h.keys, List.erase_of_not_mem hmem]

private theorem Unlinked.link (h : Unlinked key entries lru pairs) (v : V) :
    Represents (entries.insert key ⟨v, (lru.pushFront key).begin⟩) (lru.pushFront key)
      (pairs.insert key v) := by
  refine ⟨?_, ?_, ?_⟩
  · rw [NodeList.toList_pushFront, h.keys, AList.keys_insert]
  · intro k
    by_cases hk : k = key
    · rw [hk, AList.lookup_insert, AList.lookup_insert]
      rfl
    · rw [AList.lookup_insert_ne hk, AList.lookup_insert_ne hk]
      exact h.value k
  · intro k e he
    by_cases hk : k = key
    · subst hk
      rw [AList.lookup_insert] at he
      rw [← Option.some_inj.mp he]
      exact NodeList.denotes_begin lru k
    · rw [AList.lookup_insert_ne hk] at he
      exact (h.denotes k e hk he).pushFront key

private theorem Unlinked.forget (h : Unlinked key entries lru pairs) :
    Represents (entries.erase key) lru (pairs.erase key) := by
  refine ⟨?_, ?_, ?_⟩
  · rw [h.keys, AList.keys_erase]
  · intro k
    by_cases hk : k = key
    · rw [hk, AList.lookup_erase, AList.lookup_erase]
      rfl
    · rw [AList.lookup_erase_ne hk, AList.lookup_erase_ne hk]
      exact h.value k
  · intro k e he
    by_cases hk : k = key
    · rw [hk, AList.lookup_erase] at he
      exact absurd he (by simp)
    · rw [AList.lookup_erase_ne hk] at he
      exact h.denotes k e hk he

/-- The last key has an entry; without both, the containers stand for the list without its last
pair. -/
theorem popBack (h : Represents entries lru pairs) (hback : lru.back = some key) :
    key ∈ entries ∧ ∃ lru', lru.popBack = some lru' ∧
      Represents (entries.erase key) lru' (dropLastPair pairs) := by
  obtain ⟨lru', hpop, hkeys, hdenotes⟩ := NodeList.popBack_spec hback
  have hlast : pairs.keys.getLast? = some key := by rw [← h.keys, ← hback, NodeList.back]
  refine ⟨?_, lru', hpop, ?_, ?_, ?_⟩
  · rw [h.mem_iff, AList.mem_keys]
    exact List.mem_of_getLast? hlast
  · rw [hkeys, h.keys, keys_dropLastPair]
  · intro k
    rw [lookup_dropLastPair hlast]
    by_cases hk : k = key
    · rw [hk, AList.lookup_erase, AList.lookup_erase]
      rfl
    · rw [AList.lookup_erase_ne hk, AList.lookup_erase_ne hk]
      exact h.value k
  · intro k e he
    by_cases hk : k = key
    · rw [hk, AList.lookup_erase] at he
      exact absurd he (by simp)
    · rw [AList.lookup_erase_ne hk] at he
      exact hdenotes _ k hk (h.denotes k e he)

end Represents

/-! ## The members

Each member is followed through the states above. `find` and `add` go through `Unlinked` and back
with a new node, `erase` without one; `add` then has one pair too many if the key is new and the map
was full. -/

/-- The map stands for the bounded recency list `r` of its own capacity. -/
structure LruMap.Refines (m : LruMap K V) (r : RecencyList max K V) : Prop where
  max_eq : m.max.toNat = max
  represents : Represents m.entries m.entriesLru r.pairs

namespace LruMap

variable {m : LruMap K V} {r : RecencyList max K V}

theorem Refines.size_eq (h : m.Refines r) : m.entriesLru.size = r.pairs.keys.length := by
  rw [NodeList.size_eq_length, h.represents.keys]

theorem Refines.unlink (h : m.Refines r) (key : K) :
    ∃ lru, m.unlink key = some lru ∧ Represents.Unlinked key m.entries lru r.pairs := by
  rw [LruMap.unlink]
  rcases he : m.entries.lookup key with - | e
  · exact ⟨m.entriesLru, rfl, h.represents.unlinked_of_none he⟩
  · exact h.represents.erase_iter he

theorem Refines.find (h : m.Refines r) (key : K) (value : Option V) :
    ∃ m', m.find key value =
        some (((r.find key).1.isSome, value.map fun old ↦ (r.find key).1.getD old), m') ∧
      m'.Refines (r.find key).2 := by
  have hvalue := h.represents.value key
  rw [LruMap.find, RecencyList.find_fst]
  rcases he : m.entries.lookup key with - | e
  · rw [he] at hvalue
    have hnone : r.pairs.lookup key = none := hvalue.symm
    refine ⟨m, ?_, ?_⟩
    · rw [hnone]
      cases value <;> rfl
    · rwa [RecencyList.find_of_none hnone]
  · rw [he] at hvalue
    have hsome : r.pairs.lookup key = some e.value := hvalue.symm
    obtain ⟨lru, herase, hunlinked⟩ := h.represents.erase_iter he
    refine ⟨{ m with entries := m.entries.insert key ⟨e.value, (lru.pushFront key).begin⟩,
                     entriesLru := lru.pushFront key }, ?_, h.max_eq, ?_⟩
    · rw [hsome]
      simp only [herase]
      rfl
    · rw [RecencyList.pairs_find_of_some hsome]
      exact hunlinked.link e.value

private theorem evict_of_represents {pairs : AList (fun _ : K ↦ V)}
    (h : Represents m.entries m.entriesLru pairs) :
    ∃ m', m.evict = some m' ∧ m'.max = m.max ∧
      Represents m'.entries m'.entriesLru
        (if pairs.keys.length ≤ m.max.toNat then pairs else dropLastPair pairs) := by
  have hsize : m.entriesLru.size = pairs.keys.length := by
    rw [NodeList.size_eq_length, h.keys]
  rw [evict, hsize]
  by_cases hle : pairs.keys.length ≤ m.max.toNat
  · rw [if_neg hle.not_gt, if_pos hle]
    exact ⟨m, rfl, rfl, h⟩
  · rw [if_pos (not_le.mp hle), if_neg hle]
    have hne : m.entriesLru.toList ≠ [] := by
      rintro hnil
      rw [← h.keys, hnil] at hle
      exact hle (Nat.zero_le _)
    have hback : m.entriesLru.back = some (m.entriesLru.toList.getLast hne) :=
      List.getLast?_eq_some_getLast hne
    obtain ⟨hmem, lru, hpop, hrepresents⟩ := h.popBack hback
    refine ⟨{ m with entries := m.entries.erase _, entriesLru := lru }, ?_, rfl, hrepresents⟩
    simp only [hback, Option.bind_eq_bind, Option.bind_some, hmem, guard_true, hpop]
    rfl

theorem Refines.add (h : m.Refines r) (key : K) (value : V) :
    ∃ m', m.add key value = some m' ∧ m'.Refines (r.add key value) := by
  obtain ⟨lru, hunlink, hunlinked⟩ := h.unlink key
  obtain ⟨m', hevict, hmax, hrepresents⟩ := evict_of_represents
    (m := { m with entries := m.entries.insert key ⟨value, (lru.pushFront key).begin⟩,
                   entriesLru := lru.pushFront key }) (hunlinked.link value)
  refine ⟨m', ?_, ?_, ?_⟩
  · rw [LruMap.add, hunlink]
    exact hevict
  · rw [hmax, h.max_eq]
  · rw [h.max_eq] at hrepresents
    by_cases hle : (r.pairs.insert key value).keys.length ≤ max
    · rw [RecencyList.pairs_add_of_le hle]
      rwa [if_pos hle] at hrepresents
    · rw [RecencyList.pairs_add_of_lt (not_le.mp hle)]
      rwa [if_neg hle] at hrepresents

theorem Refines.erase (h : m.Refines r) (key : K) :
    ∃ m', m.erase key = some m' ∧ m'.Refines (r.erase key) := by
  rw [LruMap.erase]
  rcases he : m.entries.lookup key with - | e
  · refine ⟨m, rfl, h.max_eq, ?_⟩
    have hforget := (h.represents.unlinked_of_none he).forget
    have hentries : m.entries.erase key = m.entries := by
      refine AList.ext ?_
      exact List.kerase_of_notMem_keys (AList.lookup_eq_none.mp he)
    rwa [hentries] at hforget
  · obtain ⟨lru, herase, hunlinked⟩ := h.represents.erase_iter he
    refine ⟨{ m with entries := m.entries.erase key, entriesLru := lru }, ?_, h.max_eq,
      hunlinked.forget⟩
    simp only [herase]
    rfl

/-- **One call.** It has a result, gives back what the recency list gives back, and leaves a map
that stands for the list after the call. -/
theorem Refines.step (h : m.Refines r) (op : Op K V) :
    ∃ m', m.step op = some ((r.step op).1, m') ∧ m'.Refines (r.step op).2 := by
  match op with
  | .find key value =>
    obtain ⟨m', hm', h'⟩ := h.find key value
    exact ⟨m', by rw [LruMap.step, hm']; rfl, h'⟩
  | .add key value =>
    obtain ⟨m', hm', h'⟩ := h.add key value
    exact ⟨m', by rw [LruMap.step, hm']; rfl, h'⟩
  | .erase key =>
    obtain ⟨m', hm', h'⟩ := h.erase key
    exact ⟨m', by rw [LruMap.step, hm']; rfl, h'⟩

/-- Before the first call. -/
theorem refines_ofMax (max : UInt64) :
    (ofMax max : LruMap K V).Refines (RecencyList.empty : RecencyList max.toNat K V) := by
  refine ⟨rfl, rfl, fun k ↦ rfl, fun k e he ↦ ?_⟩
  rw [ofMax, AList.lookup_empty] at he
  exact absurd he (by simp)

/-- **Many calls**, on a map that is empty at first. -/
theorem refines_calls (max : UInt64) (ops : List (Op K V)) :
    ∃ m, (ofMax max).calls ops = some ((RecencyList.calls max.toNat ops).1, m) ∧
      m.Refines (RecencyList.calls max.toNat ops).2 :=
  runPartial_of_simulation (fun _ _ op h ↦ h.step op) (refines_ofMax max) ops

/-! ## What a map stands for

What `recency` reads off is the list of pairs itself, as the nodes are in its order and the values
are looked up in it. -/

/-- An association list is read off by looking up its keys in order. -/
private theorem entries_eq_filterMap_keys (pairs : AList (fun _ : K ↦ V)) :
    (pairs.keys.filterMap fun k ↦ (pairs.lookup k).map fun v ↦ (⟨k, v⟩ : Σ _ : K, V)) =
      pairs.entries := by
  have hlookup : ∀ x ∈ pairs.entries,
      ((fun k ↦ (pairs.lookup k).map fun v ↦ (⟨k, v⟩ : Σ _ : K, V)) ∘ Sigma.fst) x = some x := by
    intro x hx
    have hx' : pairs.lookup x.1 = some x.2 := AList.mem_lookup_iff.mpr hx
    rw [Function.comp_apply, hx']
    rfl
  rw [AList.keys, List.keys, List.filterMap_map, List.filterMap_congr hlookup, List.filterMap_some]

private theorem Refines.recency_eq (h : m.Refines r) : m.recency = r.pairs.entries := by
  rw [recency, h.represents.keys, ← entries_eq_filterMap_keys r.pairs]
  refine List.filterMap_congr fun k _ ↦ ?_
  rw [← h.represents.value k, Option.map_map]
  rfl

theorem Refines.linked (h : m.Refines r) : m.Linked := by
  have hmem (k : K) : k ∈ m.entries ↔ k ∈ m.entriesLru.toList := by
    rw [h.represents.mem_iff k, AList.mem_keys, h.represents.keys]
  have hperm : m.entries.keys.Perm m.entriesLru.toList :=
    (List.perm_ext_iff_of_nodup m.entries.keys_nodup h.represents.nodup).mpr hmem
  refine ⟨hmem, h.represents.nodup, h.represents.denotes, ?_, ?_⟩
  · rw [NodeList.size_eq_length, hperm.length_eq]
  · rw [h.size_eq, h.max_eq]
    exact r.length_le

/-- **The map refines the bounded recency list.** For every capacity and every sequence of calls on
a map that is empty at first, no call runs into undefined behaviour, the calls give back what the
calls on the recency list of that capacity give back, the map stands for that list afterwards, and
its two containers are linked. -/
theorem lruMap_refines (max : UInt64) (ops : List (Op K V)) :
    ∃ m : LruMap K V, (ofMax max).calls ops = some ((RecencyList.calls max.toNat ops).1, m) ∧
      m.recency = (RecencyList.calls max.toNat ops).2.pairs.entries ∧ m.max = max ∧ m.Linked := by
  obtain ⟨m, hcalls, h⟩ := refines_calls max ops
  exact ⟨m, hcalls, h.recency_eq, UInt64.toNat_inj.mp h.max_eq, h.linked⟩

end LruMap

end CppRepo
