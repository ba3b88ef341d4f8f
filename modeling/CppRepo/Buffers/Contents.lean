import CppRepo.Buffers.Buffers

/-!
# What the members do to the contents

`Holds h root items` says that on the heap `h` the container at `root` has the elements `items`,
each given with the address of its node. Each member takes such a heap to one on which the container
has the list it should have, returns the iterator it should return, and leaves every cell alone that
is not of the container or the new node.

A position in the container is a split of its elements: `insert` and `erase` work at the cell right
of the split, and `push_back`, `push_front` and the two pops are their cases at the two ends.

## Reading the specifications

Each specification is stated for an arbitrary postcondition or for one that names the new list, and
all of them add what did not change: the cells outside of the container and the new node. With this
frame a second container on the same heap keeps its list, and a call in the middle of a run does not
have to look back.
-/

namespace CppRepo

open Heap (Ring Linked)
open Heap.Ring (left right left_mem right_mem left_concat)

variable {T : Type} {h h' : Heap (Option T)} {root x : Address} {as bs nodes : List Address}

/-! ## Insertion and removal of a cell

The ring of `Library.Ring` is opened at a split. A cell that is in none of the two halves comes
between them, and a cell at the split is taken out; the proof follows the source and rewrites each
pointer that is read by what was written to it last. -/

/-- `insert` before the cell right of a split. -/
theorem ensures_insert (hr : h.Ring root (as ++ bs)) (hx : x ∉ root :: (as ++ bs))
    (hlive : h.Live x) :
    Ensures (ListBase.insert (right root bs) x) h
      (fun _ h' ↦ h'.Ring root (as ++ x :: bs) ∧ (∀ a, h'.content a = h.content a) ∧
        h.SameOutside (x :: root :: (as ++ bs)) h')
      fun _ _ ↦ False := by
  obtain ⟨hnext, hprev⟩ := hr.linked
  have hp := left_mem root as bs
  have hq := right_mem root as bs
  have hpx : left root as ≠ x := fun heq ↦ hx (heq ▸ hp)
  have hqx : right root bs ≠ x := fun heq ↦ hx (heq ▸ hq)
  have hplive : h.Live (left root as) := hr.live hp
  have hqlive : h.Live (right root bs) := hr.live hq
  -- Neither write to the new cell changes the `prev` that is read after it.
  rw [ListBase.insert, ensures_bind, ensures_writeNext hlive, ensures_bind,
    ensures_readPrev (by rwa [Heap.prev_setNext]), ensures_bind,
    ensures_writePrev (by rwa [Heap.live_setNext]), ensures_bind,
    ensures_readPrev (by rwa [Heap.prev_setPrev_of_ne hqx, Heap.prev_setNext]), ensures_bind,
    ensures_writeNext (by simpa using hplive), ensures_writePrev (by simpa using hqlive)]
  refine ⟨hr.splice hx ⟨?_, ?_⟩ ⟨?_, ?_⟩ (fun a ha hap ↦ ?_) (fun a ha haq ↦ ?_), ?_, ?_⟩
  · rw [Heap.next_setPrev, Heap.next_setNext_self (by simpa using hplive)]
  · rw [Heap.prev_setPrev_of_ne hqx.symm, Heap.prev_setNext,
      Heap.prev_setPrev_self (by simpa using hlive)]
  · rw [Heap.next_setPrev, Heap.next_setNext_of_ne hpx.symm, Heap.next_setPrev,
      Heap.next_setNext_self hlive]
  · rw [Heap.prev_setPrev_self (by simpa using hqlive)]
  · have hax : a ≠ x := fun heq ↦ hx (heq ▸ ha)
    rw [Heap.next_setPrev, Heap.next_setNext_of_ne hap, Heap.next_setPrev,
      Heap.next_setNext_of_ne hax]
  · have hax : a ≠ x := fun heq ↦ hx (heq ▸ ha)
    rw [Heap.prev_setPrev_of_ne haq, Heap.prev_setNext, Heap.prev_setPrev_of_ne hax,
      Heap.prev_setNext]
  · simp
  · intro a ha
    have hax : a ≠ x := List.ne_of_not_mem_cons ha
    have hout : a ∉ root :: (as ++ bs) := List.not_mem_of_not_mem_cons ha
    have hap : a ≠ left root as := fun heq ↦ hout (by rwa [heq])
    have haq : a ≠ right root bs := fun heq ↦ hout (by rwa [heq])
    rw [Heap.setPrev_of_ne haq, Heap.setNext_of_ne hap, Heap.setPrev_of_ne hax,
      Heap.setNext_of_ne hax]

/-- `unlink` of a cell of the ring: it is out of the ring, and still there. -/
theorem ensures_unlink (hr : h.Ring root (as ++ x :: bs)) :
    Ensures (ListBase.unlink x) h
      (fun _ h' ↦ h'.Ring root (as ++ bs) ∧ (∀ a, h'.content a = h.content a) ∧
        h.SameOutside (root :: (as ++ x :: bs)) h')
      fun _ _ ↦ False := by
  have hpx : h.Linked (left root as) x := hr.linked
  have hxq : h.Linked x (right root bs) := by
    have hlink : h.Linked (left root (as ++ [x])) (right root bs) := by
      refine Ring.linked ?_
      rwa [List.append_assoc, List.singleton_append]
    rwa [left_concat] at hlink
  have hx : x ∉ root :: (as ++ bs) := by
    have hnodup := hr.nodup
    rw [← List.cons_append, List.nodup_middle] at hnodup
    exact (List.nodup_cons.mp hnodup).1
  have hmem : ∀ a ∈ root :: (as ++ bs), a ∈ root :: (as ++ x :: bs) := by
    intro a ha
    simp only [List.mem_cons, List.mem_append] at ha ⊢
    tauto
  have hp := left_mem root as bs
  have hq := right_mem root as bs
  have hplive : h.Live (left root as) := hr.live (hmem _ hp)
  have hqlive : h.Live (right root bs) := hr.live (hmem _ hq)
  have hxlive : h.Live x := Heap.live_of_next hxq.1
  rw [ListBase.unlink, ensures_bind, ensures_readNext hxq.1, ensures_bind,
    ensures_readPrev hpx.2, ensures_bind, ensures_writePrev hqlive, ensures_bind,
    ensures_readNext (by rw [Heap.next_setPrev]; exact hxq.1), ensures_bind,
    ensures_readPrev (Heap.prev_setPrev_self hqlive), ensures_bind,
    ensures_readNext (by rw [Heap.next_setPrev]; exact hxq.1), ensures_bind,
    ensures_writeNext (by simpa using hplive), ensures_bind,
    ensures_writeNext (by simpa using hxlive), ensures_writePrev (by simpa using hxlive)]
  have hne : ∀ a ∈ root :: (as ++ bs), a ≠ x := fun a ha heq ↦ hx (heq ▸ ha)
  refine ⟨hr.unsplice ⟨?_, ?_⟩ (fun a ha hap ↦ ?_) (fun a ha haq ↦ ?_), ?_, ?_⟩
  · rw [Heap.next_setPrev, Heap.next_setNext_of_ne (hne _ hp),
      Heap.next_setNext_self (by simpa using hplive)]
  · rw [Heap.prev_setPrev_of_ne (hne _ hq), Heap.prev_setNext, Heap.prev_setNext,
      Heap.prev_setPrev_self hqlive]
  · rw [Heap.next_setPrev, Heap.next_setNext_of_ne (hne a ha), Heap.next_setNext_of_ne hap,
      Heap.next_setPrev]
  · rw [Heap.prev_setPrev_of_ne (hne a ha), Heap.prev_setNext, Heap.prev_setNext,
      Heap.prev_setPrev_of_ne haq]
  · simp
  · intro a ha
    have hax : a ≠ x := by
      rintro rfl
      exact ha (List.mem_cons_of_mem _ (List.mem_append_right _ List.mem_cons_self))
    have hap : a ≠ left root as := fun heq ↦ ha (hmem a (by rwa [heq]))
    have haq : a ≠ right root bs := fun heq ↦ ha (hmem a (by rwa [heq]))
    rw [Heap.setPrev_of_ne hax, Heap.setNext_of_ne hax, Heap.setNext_of_ne hap,
      Heap.setPrev_of_ne haq]

theorem ensures_deleteNode {v : T} {Q : Unit → Heap (Option T) → Prop}
    {E : Fault CutOff → Heap (Option T) → Prop} (hx : h.content x = some (some v)) :
    Ensures (deleteNode x) h Q E ↔ Q ⟨⟩ (Function.update h x none) := by
  obtain ⟨c, hc, hele⟩ := Option.map_eq_some_iff.mp hx
  rw [deleteNode, ensures_bind, ensures_read hc, hele]
  exact ensures_release (Heap.live_iff.mpr ⟨c, hc⟩)

/-! ## The contents of a container

`Holds` is a ring through the root and the nodes, with an element in each node and none in the root.
It says nothing about the rest of the heap, and so it is kept by all that happens there. -/

/-- The cells of a container with these elements. -/
def ownCells (root : Address) (items : List (Address × T)) : List Address :=
  root :: items.map Prod.fst

/-- The container at `root` has the elements `items`, each in the node with its address. -/
structure Holds (h : Heap (Option T)) (root : Address) (items : List (Address × T)) : Prop where
  ring : h.Ring root (items.map Prod.fst)
  root_content : h.content root = some none
  element : ∀ i ∈ items, h.content i.1 = some (some i.2)

/-- The address at a position: of the first element after it, or of `_root`. -/
def positionOf (root : Address) (rest : List (Address × T)) : Address :=
  right root (rest.map Prod.fst)

namespace Holds

variable {items pre post : List (Address × T)} {i : Address × T} {item : Address} {val : T}

theorem live (hh : Holds h root items) {a : Address} (ha : a ∈ ownCells root items) : h.Live a :=
  hh.ring.live ha

theorem not_mem_of_not_live (hh : Holds h root items) (hitem : ¬ h.Live item) :
    item ∉ ownCells root items := fun ha ↦ hitem (hh.live ha)

theorem congr (hh : Holds h root items) (heq : ∀ a ∈ ownCells root items, h' a = h a) :
    Holds h' root items := by
  have hroot : h' root = h root := heq root List.mem_cons_self
  refine ⟨hh.ring.congr (fun a ha ↦ ?_) fun a ha ↦ ?_, ?_, fun i hi ↦ ?_⟩
  · rw [Heap.next, Heap.next, heq a ha]
  · rw [Heap.prev, Heap.prev, heq a ha]
  · rw [Heap.content, hroot]
    exact hh.root_content
  · rw [Heap.content, heq i.1 (List.mem_cons_of_mem _ (List.mem_map_of_mem hi))]
    exact hh.element i hi

private theorem items_eq (hh : Holds h root items) :
    items = (items.map Prod.fst).filterMap fun a ↦ (h.content a).join.map fun v ↦ (a, v) := by
  rw [List.filterMap_map]
  have hsome : ∀ i ∈ items,
      ((fun a ↦ (h.content a).join.map fun v ↦ (a, v)) ∘ Prod.fst) i = some i := by
    intro i hi
    rw [Function.comp_apply, hh.element i hi]
    rfl
  rw [List.filterMap_congr hsome, List.filterMap_some]

/-- The elements are determined by the heap. -/
theorem items_unique {items' : List (Address × T)} (hh : Holds h root items)
    (hh' : Holds h root items') : items = items' := by
  rw [hh.items_eq, hh'.items_eq, hh.ring.nodes_unique hh'.ring]

/-- The address at a position and the one before it are linked. -/
theorem linked (hh : Holds h root (pre ++ post)) :
    h.Linked (left root (pre.map Prod.fst)) (positionOf root post) := by
  refine Ring.linked ?_
  rw [← List.map_append]
  exact hh.ring

/-- A position and where it is in the list of the addresses. -/
theorem exists_split (hh : Holds h root items) {a : Address} (ha : h.Reaches root a) :
    ∃ pre post, items = pre ++ post ∧ a = positionOf root post ∧
      (items.map Prod.fst).idxOf a = pre.length := by
  have hmem := hh.ring.mem_of_reaches ha
  have hroot : root ∉ items.map Prod.fst := (List.nodup_cons.mp hh.ring.nodup).1
  rcases List.mem_cons.mp hmem with rfl | hmem
  · exact ⟨items, [], (List.append_nil _).symm, rfl, by
      rw [List.idxOf_eq_length hroot, List.length_map]⟩
  · obtain ⟨i, hi, rfl⟩ := List.mem_map.mp hmem
    obtain ⟨pre, post, rfl⟩ := List.append_of_mem hi
    refine ⟨pre, i :: post, rfl, rfl, ?_⟩
    have hnodup := (List.nodup_cons.mp hh.ring.nodup).2
    rw [List.map_append, List.map_cons] at hnodup ⊢
    have hpre : i.1 ∉ pre.map Prod.fst := fun h' ↦
      (List.nodup_append.mp hnodup).2.2 i.1 h' i.1 List.mem_cons_self rfl
    rw [List.idxOf_append_of_notMem hpre, List.idxOf_cons_self, List.length_map, Nat.add_zero]

theorem ensures_newNode (hh : Holds h root items) (hitem : ¬ h.Live item) :
    Ensures (newNode item val) h
      (fun _ h' ↦ Holds h' root items ∧ h'.content item = some (some val) ∧
        h.SameOutside [item] h')
      fun _ _ ↦ False := by
  rw [newNode, ensures_allocate hitem]
  have hsame : h.SameOutside [item] (Function.update h item (some ⟨item, item, some val⟩)) := by
    intro a ha
    rw [Function.update_of_ne (List.ne_of_not_mem_cons ha)]
  refine ⟨hh.congr fun a ha ↦ hsame a ?_, ?_, hsame⟩
  · rw [List.mem_singleton]
    rintro rfl
    exact hitem (hh.live ha)
  · rw [Heap.content, Function.update_self]
    rfl

/-- A new node goes before a position. -/
theorem ensures_insert (hh : Holds h root (pre ++ post))
    (hout : item ∉ ownCells root (pre ++ post)) (hitem : h.content item = some (some val)) :
    Ensures (ListBase.insert (positionOf root post) item) h
      (fun _ h' ↦ Holds h' root (pre ++ (item, val) :: post) ∧
        h.SameOutside (item :: ownCells root (pre ++ post)) h')
      fun _ _ ↦ False := by
  have hring := hh.ring
  rw [List.map_append] at hring
  rw [ownCells, List.map_append] at hout ⊢
  refine (CppRepo.ensures_insert hring hout (Heap.live_of_content hitem)).mono ?_ fun _ _ ↦ id
  rintro - h' ⟨hring', hcontent, hsame⟩
  refine ⟨⟨?_, ?_, fun i hi ↦ ?_⟩, hsame⟩
  · rw [List.map_append, List.map_cons]
    exact hring'
  · rw [hcontent]
    exact hh.root_content
  · rw [hcontent]
    rw [List.mem_append, List.mem_cons, or_left_comm, ← List.mem_append] at hi
    rcases hi with rfl | hi
    · exact hitem
    · exact hh.element i hi

/-- The node of an element is taken out and deleted. -/
theorem ensures_eraseNode (hh : Holds h root (pre ++ i :: post)) :
    Ensures (Buffers.eraseNode ⟨i.1⟩) h
      (fun _ h' ↦ Holds h' root (pre ++ post) ∧
        h.Replaced (ownCells root (pre ++ i :: post)) (ownCells root (pre ++ post)) h')
      fun _ _ ↦ False := by
  have hring := hh.ring
  rw [List.map_append, List.map_cons] at hring
  have hnodup := hring.nodup
  rw [← List.cons_append, List.nodup_middle] at hnodup
  have hout : i.1 ∉ root :: (pre ++ post).map Prod.fst := by
    rw [List.map_append]
    exact (List.nodup_cons.mp hnodup).1
  have hmem : i ∈ pre ++ i :: post := List.mem_append_right _ List.mem_cons_self
  rw [Buffers.eraseNode, ensures_bind]
  refine (ensures_unlink hring).mono ?_ fun _ _ ↦ id
  rintro - h₁ ⟨hring₁, hcontent, hsame⟩
  rw [← List.map_append] at hring₁
  have hele : h₁.content i.1 = some (some i.2) := (hcontent i.1).trans (hh.element i hmem)
  refine (ensures_deleteNode hele).mpr
    ⟨⟨?_, ?_, fun j hj ↦ ?_⟩, fun a ha _ ↦ ?_, fun a ha hna ↦ ?_, fun a ha hna ↦ ?_⟩
  · exact hring₁.update hout none
  · rw [Heap.content, Function.update_of_ne (List.ne_of_not_mem_cons hout).symm]
    exact (hcontent root).trans hh.root_content
  · have hji : j.1 ≠ i.1 := by
      intro heq
      exact hout (List.mem_cons_of_mem _ (heq ▸ List.mem_map_of_mem hj))
    rw [Heap.content, Function.update_of_ne hji]
    refine (hcontent j.1).trans (hh.element j ?_)
    rw [List.mem_append] at hj
    rw [List.mem_append, List.mem_cons]
    tauto
  · have hai : a ≠ i.1 := by
      rintro rfl
      exact ha (List.mem_cons_of_mem _ (List.mem_map_of_mem hmem))
    rw [Function.update_of_ne hai]
    refine hsame a ?_
    rwa [← List.map_cons, ← List.map_append]
  · -- The only cell the container loses is the node.
    have hai : a = i.1 := by
      rw [ownCells, List.map_append, List.map_cons] at ha
      rw [ownCells, List.map_append] at hna
      simp only [List.mem_cons, List.mem_append] at ha hna
      tauto
    rw [hai, Heap.Live, Function.update_self]
    simp
  · refine absurd ?_ hna
    rw [ownCells, List.map_append] at ha
    rw [ownCells, List.map_append, List.map_cons]
    simp only [List.mem_cons, List.mem_append] at ha ⊢
    tauto

end Holds

end CppRepo
