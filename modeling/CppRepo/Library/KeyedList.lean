import Mathlib

/-!
# Lists whose items have a key of their own

A Mathlib `AList` is a list of pairs in which no key occurs twice, so it can also stand for a list
in which the order matters. Below is what is missing for that use: dropping the last pair. Then
comes a doubly linked list. A node is known by its address, an iterator denotes a node by that
address, and inserting or removing other nodes leaves it valid.

## Addresses

The address of a new node is one that no node had before. An allocator may give out an address again
once its node is gone, but then every iterator that had it became invalid when the node went, and
using it is undefined behaviour. Here such an iterator denotes no node, and an operation that needs
a node has no result.
-/

namespace CppRepo

variable {K : Type*}

/-! ## The last pair of an association list

The keys of an association list are all different, so the pair that is dropped is the only one with
its key. -/

section DropLast

variable {α : Type*} {β : α → Type*}

/-- The association list without its last pair. -/
def dropLastPair (s : AList β) : AList β :=
  ⟨s.entries.dropLast, s.nodupKeys.sublist (List.dropLast_sublist _)⟩

theorem keys_dropLastPair (s : AList β) : (dropLastPair s).keys = s.keys.dropLast := by
  rw [AList.keys, dropLastPair, List.keys, List.map_dropLast, AList.keys, List.keys]

private theorem mk_mem_dropLast_iff {entries : List (Sigma β)} (hkeys : entries.NodupKeys)
    {last : α} (hlast : entries.keys.getLast? = some last) {a : α} {b : β a} :
    ⟨a, b⟩ ∈ entries.dropLast ↔ a ≠ last ∧ ⟨a, b⟩ ∈ entries := by
  rcases List.eq_nil_or_concat entries with rfl | ⟨init, x, rfl⟩
  · simp at hlast
  · rw [List.concat_eq_append] at hkeys hlast ⊢
    rw [List.keys, List.map_append, List.map_singleton, List.getLast?_concat,
      Option.some_inj] at hlast
    rw [List.NodupKeys, List.keys, List.map_append, List.nodup_append] at hkeys
    rw [List.dropLast_concat, List.mem_append, List.mem_singleton]
    refine ⟨fun h ↦ ⟨?_, Or.inl h⟩, ?_⟩
    · rw [← hlast]
      exact hkeys.2.2 a (List.mem_map_of_mem (f := Sigma.fst) h) x.1 (by simp)
    · rintro ⟨hne, h | h⟩
      · exact h
      · exact absurd (by rw [← hlast, ← h]) hne

theorem lookup_dropLastPair [DecidableEq α] {s : AList β} {last : α}
    (hlast : s.keys.getLast? = some last) (a : α) :
    (dropLastPair s).lookup a = (s.erase last).lookup a := by
  refine Option.ext fun b ↦ ?_
  rw [← Option.mem_def, ← Option.mem_def, AList.mem_lookup_iff]
  by_cases h : a = last
  · subst h
    rw [dropLastPair, mk_mem_dropLast_iff s.nodupKeys hlast, AList.lookup_erase]
    simp
  · rw [dropLastPair, mk_mem_dropLast_iff s.nodupKeys hlast, AList.lookup_erase_ne h,
      AList.mem_lookup_iff, and_iff_right h]

end DropLast

/-! ## The linked list

The addresses of the nodes are all different, and those of nodes to come are larger than all before.
An operation is specified by the elements it leaves and by the iterators that are still valid. -/

/-- An iterator: the address of a node, or `none` for the end. -/
abbrev Iterator := Option ℕ

/-- A `std::list`: its nodes by address, front first. -/
structure NodeList (K : Type*) where
  nodes : AList (fun _ : ℕ ↦ K)
  /-- Where the next node will be. -/
  fresh : ℕ
  lt_fresh : ∀ a ∈ nodes, a < fresh

namespace NodeList

/-- The empty list. -/
def empty : NodeList K := ⟨∅, 0, fun a h ↦ absurd h (AList.notMem_empty a)⟩

/-- The elements, front first. -/
def toList (l : NodeList K) : List K := l.nodes.entries.map Sigma.snd

/-- `size()`. -/
def size (l : NodeList K) : ℕ := l.nodes.entries.length

/-- `it` denotes a node with the element `k`. -/
def Denotes (l : NodeList K) (it : Iterator) (k : K) : Prop :=
  ∃ a, it = some a ∧ ⟨a, k⟩ ∈ l.nodes.entries

theorem fresh_notMem (l : NodeList K) : l.fresh ∉ l.nodes :=
  fun h ↦ (l.lt_fresh _ h).false

/-- `push_front(k)`. -/
def pushFront (l : NodeList K) (k : K) : NodeList K where
  nodes := l.nodes.insert l.fresh k
  fresh := l.fresh + 1
  lt_fresh a ha := by
    rcases (AList.mem_insert _).mp ha with rfl | h
    · exact Nat.lt_succ_self _
    · exact (l.lt_fresh a h).trans (Nat.lt_succ_self _)

/-- `begin()`. -/
def begin (l : NodeList K) : Iterator := l.nodes.keys.head?

/-- `erase(it)`: only a node of the list can be erased. -/
def erase (l : NodeList K) (it : Iterator) : Option (NodeList K) :=
  match it with
  | none => none
  | some a =>
    if a ∈ l.nodes then
      some ⟨l.nodes.erase a, l.fresh, fun b hb ↦ l.lt_fresh b (AList.mem_erase.mp hb).2⟩
    else
      none

/-- `*rbegin()`: the last element, if there is one. -/
def back (l : NodeList K) : Option K := l.toList.getLast?

/-- `pop_back()`: of a list that has elements. -/
def popBack (l : NodeList K) : Option (NodeList K) :=
  if l.toList = [] then
    none
  else
    some ⟨dropLastPair l.nodes, l.fresh, fun a ha ↦ l.lt_fresh a (by
      rw [AList.mem_keys, keys_dropLastPair] at ha
      exact AList.mem_keys.mpr ((List.dropLast_sublist _).mem ha))⟩

@[simp] theorem toList_empty : (empty : NodeList K).toList = [] := rfl

theorem size_eq_length (l : NodeList K) : l.size = l.toList.length := by
  rw [size, toList, List.length_map]

theorem entries_pushFront (l : NodeList K) (k : K) :
    (l.pushFront k).nodes.entries = ⟨l.fresh, k⟩ :: l.nodes.entries := by
  rw [pushFront, AList.entries_insert_of_notMem l.fresh_notMem]

@[simp] theorem toList_pushFront (l : NodeList K) (k : K) :
    (l.pushFront k).toList = k :: l.toList := by
  rw [toList, entries_pushFront, List.map_cons, toList]

theorem denotes_begin (l : NodeList K) (k : K) :
    (l.pushFront k).Denotes (l.pushFront k).begin k := by
  refine ⟨l.fresh, ?_, ?_⟩
  · rw [begin, AList.keys, entries_pushFront]
    rfl
  · rw [entries_pushFront]
    exact List.mem_cons_self

theorem Denotes.pushFront {l : NodeList K} {it : Iterator} {k : K} (h : l.Denotes it k) (k' : K) :
    (l.pushFront k').Denotes it k := by
  obtain ⟨a, rfl, ha⟩ := h
  exact ⟨a, rfl, by rw [entries_pushFront]; exact List.mem_cons_of_mem _ ha⟩

private theorem map_snd_kerase [DecidableEq K] {a : ℕ} {k : K} {nodes : List (Σ _ : ℕ, K)}
    (hnodup : (nodes.map Sigma.snd).Nodup) (hmem : ⟨a, k⟩ ∈ nodes) (hkeys : nodes.NodupKeys) :
    (nodes.kerase a).map Sigma.snd = (nodes.map Sigma.snd).erase k := by
  induction nodes with
  | nil => simp at hmem
  | cons x nodes ih =>
    rw [List.nodupKeys_cons] at hkeys
    rw [List.map_cons, List.nodup_cons] at hnodup
    rcases List.mem_cons.mp hmem with rfl | hmem
    · have hhead : List.kerase a ((⟨a, k⟩ : Σ _ : ℕ, K) :: nodes) = nodes :=
        List.kerase_cons_eq rfl
      rw [hhead, List.map_cons, List.erase_cons_head]
    · have hne : a ≠ x.1 := fun h ↦ hkeys.1 (h ▸ List.mem_map_of_mem (f := Sigma.fst) hmem)
      have hne' : x.2 ≠ k := fun h ↦ hnodup.1 (h ▸ List.mem_map_of_mem (f := Sigma.snd) hmem)
      rw [List.kerase_cons_ne hne, List.map_cons, ih hnodup.2 hmem hkeys.2, List.map_cons,
        List.erase_cons_tail (by simpa using hne')]

/-- **Erasing through an iterator.** If `it` denotes a node with the element `k` and elements do not
repeat, then `k` is removed, and every iterator that denotes another element still does. -/
theorem erase_spec [DecidableEq K] {l : NodeList K} {it : Iterator} {k : K} (h : l.Denotes it k)
    (hnodup : l.toList.Nodup) :
    ∃ l', l.erase it = some l' ∧ l'.toList = l.toList.erase k ∧
      ∀ it' k', k' ≠ k → l.Denotes it' k' → l'.Denotes it' k' := by
  obtain ⟨a, rfl, ha⟩ := h
  have hmem : a ∈ l.nodes := AList.mem_keys.mpr (List.mem_map_of_mem ha)
  refine ⟨_, if_pos hmem, map_snd_kerase hnodup ha l.nodes.nodupKeys, ?_⟩
  rintro it' k' hk' ⟨b, rfl, hb⟩
  have hne : b ≠ a := by
    rintro rfl
    exact hk' (l.nodes.nodupKeys.eq_of_mk_mem hb ha)
  refine ⟨b, rfl, ?_⟩
  rw [← AList.mem_lookup_iff] at hb ⊢
  rwa [AList.lookup_erase_ne hne]

theorem not_denotes_of_erase {l l' : NodeList K} {it : Iterator} (h : l.erase it = some l')
    (k k' : K) : ¬(l'.pushFront k').Denotes it k := by
  rintro ⟨a, rfl, ha⟩
  rw [erase] at h
  by_cases hmem : a ∈ l.nodes
  · rw [if_pos hmem] at h
    obtain rfl := Option.some_inj.mp h
    rw [entries_pushFront, List.mem_cons] at ha
    rcases ha with hnew | hold
    · exact (l.lt_fresh a hmem).ne (congrArg Sigma.fst hnew)
    · have hstill : a ∈ l.nodes.erase a := AList.mem_keys.mpr (List.mem_map_of_mem hold)
      exact (AList.mem_erase.mp hstill).1 rfl
  · rw [if_neg hmem] at h
    exact absurd h (by simp)

theorem popBack_spec {l : NodeList K} {k : K} (h : l.back = some k) :
    ∃ l', l.popBack = some l' ∧ l'.toList = l.toList.dropLast ∧
      ∀ it' k', k' ≠ k → l.Denotes it' k' → l'.Denotes it' k' := by
  have hne : l.toList ≠ [] := by
    rintro hnil
    rw [back, hnil] at h
    simp at h
  refine ⟨_, if_neg hne, List.map_dropLast, ?_⟩
  rintro it' k' hk' ⟨b, rfl, hb⟩
  refine ⟨b, rfl, ?_⟩
  rw [back, toList] at h
  rcases List.eq_nil_or_concat l.nodes.entries with hnil | ⟨init, x, hx⟩
  · rw [hnil] at h
    simp at h
  · rw [hx, List.map_concat, List.concat_eq_append, List.getLast?_concat] at h
    rw [hx, List.concat_eq_append, List.mem_append, List.mem_singleton] at hb
    change ⟨b, k'⟩ ∈ l.nodes.entries.dropLast
    rw [hx, List.concat_eq_append, List.dropLast_concat]
    rcases hb with hb | rfl
    · exact hb
    · exact absurd (Option.some_inj.mp h) hk'

end NodeList

end CppRepo
