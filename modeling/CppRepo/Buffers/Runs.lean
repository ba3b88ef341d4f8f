import CppRepo.Buffers.Contents
import CppRepo.Library.Machine

/-!
# Runs of calls refine the list operations

What a call should do is said on the list of the elements: append, prepend, insert before a
position, delete at a position, drop the last, drop the first. `call_spec` is one call on the heap
against one such operation, `runAll_spec` a run against a run, and the last theorem adds what a
caller sees: the elements read along `next`, the iterators that are returned, and the iterators that
were taken before.

## The simulation

The abstract state is the list of the elements with their addresses, and `listStep` the abstract
operation with its reply. A position is found in the list by its address, so an iterator of the
caller means the same thing on both sides for as long as its element is in the list. The simulation
needs no more of the heap than `Holds`.
-/

namespace CppRepo

variable {T : Type}

/-! ## The list operations

`onItems` is the list after an operation, `reply` what it returns, and `removed` the element whose
iterators it invalidates. An iterator that is no element's is `end()`, whose index is the length of
the list. -/

namespace Buffers

/-- Where an iterator stands in the list; `end()` stands after the last element. -/
def indexOf (pos : BuffersIterator) (items : List (Address × T)) : ℕ :=
  (items.map Prod.fst).idxOf pos.cur

namespace Op

/-- What a call does to the list of the elements. -/
def onItems : Op T → List (Address × T) → List (Address × T)
  | .pushBack item val, items => items ++ [(item, val)]
  | .pushFront item val, items => (item, val) :: items
  | .insert item pos val, items => items.insertIdx (indexOf pos items) (item, val)
  | .erase pos, items => items.eraseIdx (indexOf pos items)
  | .popBack, items => items.dropLast
  | .popFront, items => items.tail

/-- The iterator a call returns: to the new element, or to the one after the removed one. -/
def reply (root : Address) : Op T → List (Address × T) → Option BuffersIterator
  | .insert item _ _, _ => some ⟨item⟩
  | .erase pos, items => some ⟨positionOf root (items.drop (indexOf pos items + 1))⟩
  | .pushBack _ _, _ => none
  | .pushFront _ _, _ => none
  | .popBack, _ => none
  | .popFront, _ => none

/-- The element a call removes. -/
def removed : Op T → List (Address × T) → Option (Address × T)
  | .erase pos, items => items[indexOf pos items]?
  | .popBack, items => items.getLast?
  | .popFront, items => items.head?
  | .pushBack _ _, _ => none
  | .pushFront _ _, _ => none
  | .insert _ _ _, _ => none

end Op

/-- A call on the list, as the step of a machine. -/
def listStep (root : Address) (items : List (Address × T)) (op : Op T) :
    Option BuffersIterator × List (Address × T) :=
  (op.reply root items, op.onItems items)

end Buffers

/-! ## One call

Each call is a specification of the module before, at the split that its position makes. Calls at
the two ends are splits with nothing on one side. -/

section Calls

open Buffers
open Heap.Ring (left left_concat)

variable {h : Heap (Option T)} {root : Address} {items : List (Address × T)} {op : Op T}

theorem insertIdx_length_append {α : Type} (pre post : List α) (x : α) :
    (pre ++ post).insertIdx pre.length x = pre ++ x :: post := by
  induction pre with
  | nil => rfl
  | cons y pre ih => rw [List.cons_append, List.length_cons, List.insertIdx_succ_cons, ih]; rfl

theorem eraseIdx_length_append {α : Type} (pre post : List α) (x : α) :
    (pre ++ x :: post).eraseIdx pre.length = pre ++ post := by
  rw [List.eraseIdx_append_of_length_le le_rfl, Nat.sub_self, List.eraseIdx_cons_zero]

/-- An element is linked to the position after it. -/
theorem Holds.linked_element {pre post : List (Address × T)} {i : Address × T}
    (hh : Holds h root (pre ++ i :: post)) : h.Linked i.1 (positionOf root post) := by
  have hlink : h.Linked (left root ((pre ++ [i]).map Prod.fst)) (positionOf root post) := by
    refine Holds.linked ?_
    rwa [List.append_assoc, List.singleton_append]
  rwa [List.map_append, List.map_singleton, left_concat] at hlink

theorem Holds.next_root (hh : Holds h root items) : h.next root = some (positionOf root items) := by
  have hlink : h.Linked (left root (List.map Prod.fst [])) (positionOf root items) :=
    Holds.linked hh
  exact hlink.1

theorem Holds.root_ne (hh : Holds h root items) {i : Address × T} (hi : i ∈ items) :
    i.1 ≠ root := by
  rintro rfl
  exact (List.nodup_cons.mp hh.ring.nodup).1 (List.mem_map_of_mem hi)

private theorem Holds.ensures_newNode_bind {α : Type} {k : Unit → BuffersM T α} {item : Address}
    {val : T} {Q : α → Heap (Option T) → Prop} (hh : Holds h root items) (hitem : ¬ h.Live item)
    (hk : ∀ h₁, Holds h₁ root items → h₁.content item = some (some val) →
      h.SameOutside [item] h₁ → Ensures (k ⟨⟩) h₁ Q fun _ _ ↦ False) :
    Ensures (newNode item val >>= k) h Q fun _ _ ↦ False := by
  rw [ensures_bind]
  refine (hh.ensures_newNode hitem).mono ?_ fun _ _ ↦ id
  rintro - h₁ ⟨hh₁, hcontent, hsame⟩
  exact hk h₁ hh₁ hcontent hsame

/-- What the making of a node and its insertion do to the heap together. -/
private theorem replaced_insert {h₁ h₂ : Heap (Option T)} {item : Address}
    {pre post : List (Address × T)} (val : T) (hitem : ¬ h.Live item)
    (h₀₁ : h.SameOutside [item] h₁)
    (h₁₂ : h₁.SameOutside (item :: ownCells root (pre ++ post)) h₂) :
    h.Replaced (ownCells root (pre ++ post)) (ownCells root (pre ++ (item, val) :: post)) h₂ := by
  have hmem : ∀ a, a ∈ ownCells root (pre ++ (item, val) :: post)
      ↔ a = item ∨ a ∈ ownCells root (pre ++ post) := by
    intro a
    rw [ownCells, ownCells, List.map_append, List.map_append, List.map_cons]
    simp only [List.mem_cons, List.mem_append]
    tauto
  refine ⟨fun a ha ha' ↦ ?_, fun a ha hna ↦ ?_, fun a ha hna ↦ ?_⟩
  · have hne : a ≠ item := fun heq ↦ ha' ((hmem a).mpr (.inl heq))
    rw [h₁₂ a (List.not_mem_cons_of_ne_of_not_mem hne ha), h₀₁ a (by simpa using hne)]
  · exact absurd ((hmem a).mpr (.inr ha)) hna
  · rcases (hmem a).mp ha with rfl | ha
    · exact hitem
    · exact absurd ha hna

/-- **One call.** It returns what the list operation says, its container then has the list after
that operation, and no cell but the container's own and the new one is touched. -/
theorem call_spec (hh : Holds h root items) (hvalid : ValidOp root h op) :
    Ensures (call root op) h
      (fun reply h' ↦ reply = op.reply root items ∧ Holds h' root (op.onItems items) ∧
        h.Replaced (ownCells root items) (ownCells root (op.onItems items)) h')
      fun _ _ ↦ False := by
  match op with
  | .pushBack item val =>
    have hout := hh.not_mem_of_not_live hvalid
    rw [call, ensures_bind, pushBack]
    refine hh.ensures_newNode_bind hvalid fun h₁ hh₁ hcontent h₀₁ ↦ ?_
    rw [← List.append_nil items] at hh₁ hout
    refine (hh₁.ensures_insert hout hcontent).mono ?_ fun _ _ ↦ id
    rintro - h' ⟨hnew, h₁₂⟩
    have hrep := replaced_insert val hvalid h₀₁ h₁₂
    rw [List.append_nil] at hrep
    exact ⟨rfl, hnew, hrep⟩
  | .pushFront item val =>
    have hout := hh.not_mem_of_not_live hvalid
    rw [call, ensures_bind, pushFront]
    refine hh.ensures_newNode_bind hvalid fun h₁ hh₁ hcontent h₀₁ ↦ ?_
    rw [ensures_bind, beginIterator, ensures_bind, ensures_readNext hh₁.next_root, ensures_pure]
    rw [← List.nil_append items] at hh₁ hout
    refine (hh₁.ensures_insert hout hcontent).mono ?_ fun _ _ ↦ id
    rintro - h' ⟨hnew, h₁₂⟩
    exact ⟨rfl, hnew, replaced_insert val hvalid h₀₁ h₁₂⟩
  | .insert item pos val =>
    obtain ⟨hitem, hpos⟩ := hvalid
    obtain ⟨pre, post, rfl, hcur, hidx⟩ := hh.exists_split hpos
    have hout := hh.not_mem_of_not_live hitem
    rw [call, ensures_map, Buffers.insert]
    refine hh.ensures_newNode_bind hitem fun h₁ hh₁ hcontent h₀₁ ↦ ?_
    rw [ensures_bind, hcur]
    refine (hh₁.ensures_insert hout hcontent).mono ?_ fun _ _ ↦ id
    rintro - h' ⟨hnew, h₁₂⟩
    rw [ensures_bind, ensures_readPrev hnew.linked_element.2, ensures_pure]
    rw [Op.onItems, indexOf, hidx, insertIdx_length_append]
    exact ⟨rfl, hnew, replaced_insert val hitem h₀₁ h₁₂⟩
  | .erase pos =>
    obtain ⟨hpos, hend⟩ := hvalid
    obtain ⟨pre, post, rfl, hcur, hidx⟩ := hh.exists_split hpos
    rcases post with - | ⟨i, post⟩
    · exact absurd (congrArg BuffersIterator.mk hcur) hend
    obtain rfl : pos = ⟨i.1⟩ := congrArg BuffersIterator.mk hcur
    rw [call, ensures_map, Buffers.erase, ensures_bind, BuffersIterator.incr, ensures_bind,
      ensures_readNext hh.linked_element.1, ensures_pure, ensures_bind]
    refine hh.ensures_eraseNode.mono ?_ fun _ _ ↦ id
    rintro - h' ⟨hnew, hrep⟩
    have hdrop : (pre ++ i :: post).drop (pre.length + 1) = post := by
      rw [List.drop_length_add_append, List.drop_succ_cons, List.drop_zero]
    rw [Op.reply, Op.onItems, indexOf, hidx, hdrop, eraseIdx_length_append]
    exact ⟨rfl, hnew, hrep⟩
  | .popBack =>
    rw [call, ensures_bind, popBack, ensures_bind]
    rcases List.eq_nil_or_concat' items with rfl | ⟨pre, i, rfl⟩
    · have hlink : h.Linked root root := Heap.Ring.nil_iff.mp hh.ring
      rw [ensures_readPrev hlink.2, if_pos rfl]
      exact ⟨rfl, hh, Heap.Replaced.refl _ _⟩
    · have hprev : h.prev root = some i.1 := hh.linked_element.2
      have hmem : i ∈ pre ++ [i] := List.mem_append_right _ List.mem_cons_self
      rw [ensures_readPrev hprev, if_neg (hh.root_ne hmem), ensures_bind, ensures_readPrev hprev]
      refine hh.ensures_eraseNode.mono ?_ fun _ _ ↦ id
      rintro - h' ⟨hnew, hrep⟩
      rw [List.append_nil] at hnew hrep
      rw [Op.onItems, List.dropLast_concat]
      exact ⟨rfl, hnew, hrep⟩
  | .popFront =>
    rw [call, ensures_bind, popFront, ensures_bind, ensures_readNext hh.next_root]
    rcases items with - | ⟨i, items⟩
    · rw [if_pos (show positionOf root [] = root from rfl)]
      exact ⟨rfl, hh, Heap.Replaced.refl _ _⟩
    · have hne : positionOf root (i :: items) ≠ root := hh.root_ne List.mem_cons_self
      rw [if_neg hne, ensures_bind, ensures_readNext hh.next_root]
      rw [← List.nil_append (i :: items)] at hh
      refine hh.ensures_eraseNode.mono ?_ fun _ _ ↦ id
      rintro - h' ⟨hnew, hrep⟩
      exact ⟨rfl, hnew, hrep⟩

/-- The default constructor makes a container without elements. -/
theorem construct_spec (hroot : ¬ h.Live root) :
    Ensures (construct root) h
      (fun _ h' ↦ Holds h' root [] ∧ h.Replaced [] [root] h') fun _ _ ↦ False := by
  have hlive : Heap.Live (Function.update h root (some (⟨root, root, none⟩ : Cell (Option T))))
      root := by
    rw [Heap.Live, Function.update_self]
    rfl
  rw [construct, ensures_bind, ensures_allocate hroot, ensures_bind, ensures_writeNext hlive,
    ensures_writePrev (by rwa [Heap.live_setNext])]
  refine ⟨⟨Heap.Ring.nil_iff.mpr ⟨?_, ?_⟩, ?_, ?_⟩, fun a _ ha ↦ ?_, ?_, fun a ha _ ↦ ?_⟩
  · rw [Heap.next_setPrev, Heap.next_setNext_self hlive]
  · rw [Heap.prev_setPrev_self (by rwa [Heap.live_setNext])]
  · rw [Heap.content_setPrev, Heap.content_setNext, Heap.content, Function.update_self]
    rfl
  · rintro i ⟨⟩
  · have hne : a ≠ root := List.ne_of_not_mem_cons ha
    rw [Heap.setPrev_of_ne hne, Heap.setNext_of_ne hne, Function.update_of_ne hne]
  · rintro a ⟨⟩
  · rwa [List.mem_singleton.mp ha]

/-! ## What a caller sees

A caller reads elements and compares iterators. Both give what the list says, and an iterator of an
element that was not removed denotes it still. -/

/-- An iterator to an element denotes it. -/
theorem Holds.ensures_deref (hh : Holds h root items) {i : Address × T} (hi : i ∈ items) :
    Ensures (BuffersIterator.deref ⟨i.1⟩) h (fun v h' ↦ v = i.2 ∧ h' = h) fun _ _ ↦ False := by
  obtain ⟨c, hc, hele⟩ := Option.map_eq_some_iff.mp (hh.element i hi)
  rw [BuffersIterator.deref, ensures_bind, ensures_read hc, hele]
  exact ⟨rfl, rfl⟩

theorem Holds.ensures_readElements {pre post : List (Address × T)}
    (hh : Holds h root (pre ++ post)) {rounds : ℕ} (hrounds : post.length ≤ rounds) :
    Ensures (readElements root rounds ⟨positionOf root post⟩) h
      (fun vs h' ↦ vs = post.map Prod.snd ∧ h' = h) fun _ _ ↦ False := by
  induction post generalizing pre rounds with
  | nil =>
    have hend : (⟨positionOf root ([] : List (Address × T))⟩ : BuffersIterator)
        = endIterator root := rfl
    rcases rounds with - | rounds <;> rw [readElements, if_pos hend] <;> exact ⟨rfl, rfl⟩
  | cons i post ih =>
    have hi : i ∈ pre ++ i :: post := List.mem_append_right _ List.mem_cons_self
    have hne : (⟨positionOf root (i :: post)⟩ : BuffersIterator) ≠ endIterator root := fun heq ↦
      hh.root_ne hi (congrArg BuffersIterator.cur heq)
    rcases rounds with - | rounds
    · exact absurd hrounds (Nat.not_succ_le_zero _)
    rw [readElements, if_neg hne, ensures_bind]
    refine (hh.ensures_deref hi).mono ?_ fun _ _ ↦ id
    rintro v h' ⟨rfl, rfl⟩
    have hpre : Holds h' root (pre ++ [i] ++ post) := by
      rwa [List.append_assoc, List.singleton_append]
    have hnext : h'.next (positionOf root (i :: post)) = some (positionOf root post) :=
      hh.linked_element.1
    rw [ensures_bind, BuffersIterator.incr, ensures_bind, ensures_readNext hnext, ensures_pure,
      ensures_bind]
    refine (ih hpre (Nat.le_of_succ_le_succ hrounds)).mono ?_ fun _ _ ↦ id
    rintro vs h' ⟨rfl, rfl⟩
    exact ⟨rfl, rfl⟩

private theorem Op.mem_onItems {i : Address × T} (hi : i ∈ items) (hne : op.removed items ≠ some i)
    : i ∈ op.onItems items := by
  match op with
  | .pushBack item val => exact List.mem_append_left _ hi
  | .pushFront item val => exact List.mem_cons_of_mem _ hi
  | .insert item pos val =>
    have hindex : indexOf pos items ≤ items.length := by
      rw [indexOf, ← List.length_map (f := Prod.fst)]
      exact List.idxOf_le_length
    rw [Op.onItems, List.mem_insertIdx hindex]
    exact .inr hi
  | .erase pos =>
    obtain ⟨n, hn⟩ := List.mem_iff_getElem?.mp hi
    refine List.mem_eraseIdx_iff_getElem?.mpr ⟨n, fun heq ↦ hne ?_, hn⟩
    rw [Op.removed, ← heq, hn]
  | .popBack =>
    rcases List.eq_nil_or_concat' items with rfl | ⟨pre, last, rfl⟩
    · exact hi
    · rw [Op.onItems, List.dropLast_concat]
      rw [Op.removed, List.getLast?_concat] at hne
      rw [List.mem_append, List.mem_singleton] at hi
      rcases hi with hi | rfl
      · exact hi
      · exact absurd rfl hne
  | .popFront =>
    rcases items with - | ⟨first, items⟩
    · exact hi
    · rcases List.mem_cons.mp hi with rfl | hi
      · exact absurd rfl hne
      · exact hi

end Calls

/-! ## Runs

The validity of a run is asked for call by call on the heap that the calls before have left. So the
induction is on the run, with the container's list as the state that is carried along. -/

section Runs

open Buffers

variable {h h₀ : Heap (Option T)} {root : Address} {items : List (Address × T)} {op : Op T}
  {ops done rest : List (Op T)}

private theorem validRun_append_iff : ValidRun root h (done ++ rest)
    ↔ ValidRun root h done ∧ ValidRun root (runAll (call root) done h).2 rest := by
  induction done generalizing h with
  | nil => rw [List.nil_append, ValidRun, runAll_nil, true_and]
  | cons op done ih => rw [List.cons_append, ValidRun, ValidRun, ih, runAll_cons_state, and_assoc]

/-- **A run.** Its calls return what the list operations say, and the container has the list after
them. -/
theorem runAll_spec (hh : Holds h root items) (hvalid : ValidRun root h ops) :
    (runAll (call root) ops h).1 = (run (listStep root) items ops).1.map .ok ∧
      Holds (runAll (call root) ops h).2 root (run (listStep root) items ops).2 := by
  induction ops generalizing h items with
  | nil => exact ⟨rfl, hh⟩
  | cons op ops ih =>
    obtain ⟨hop, hops⟩ := hvalid
    obtain ⟨reply, h', hok, rfl, hh', -⟩ := (call_spec hh hop).exists_ok
    rw [after_of_ok hok] at hops
    obtain ⟨hreplies, hlast⟩ := ih hh' hops
    rw [runAll_cons_of_ok hok, run, List.map_cons]
    exact ⟨congrArg _ hreplies, hlast⟩

/-- **The container refines a list.** At every moment of a run of valid calls on a
default-constructed container: the calls have returned what the list operations say; following
`next` from `_root` visits the nodes of the list and comes back, with `prev` its inverse; read along
`next`, the elements are those of the list; and an iterator to an element that the next call does
not remove still denotes it after the call. -/
theorem buffers_refines (hroot : ¬ h₀.Live root)
    (hvalid : ValidRun root (after (construct root) h₀) ops) (hdone : ops = done ++ rest) :
    (∃ h₁, construct root h₀ = .ok ⟨⟩ h₁) ∧
    (runAll (call root) done (after (construct root) h₀)).1
      = (run (listStep root) [] done).1.map .ok ∧
    Holds (runAll (call root) done (after (construct root) h₀)).2 root
      (run (listStep root) [] done).2 ∧
    (∀ rounds, (run (listStep root) [] done).2.length ≤ rounds →
      Ensures (beginIterator root >>= readElements root rounds)
        (runAll (call root) done (after (construct root) h₀)).2
        (fun vs h ↦ vs = (run (listStep root) [] done).2.map Prod.snd ∧
          h = (runAll (call root) done (after (construct root) h₀)).2)
        fun _ _ ↦ False) ∧
    ∀ op rest', rest = op :: rest' → ∀ i ∈ (run (listStep root) [] done).2,
      op.removed (run (listStep root) [] done).2 ≠ some i →
      Ensures (BuffersIterator.deref ⟨i.1⟩)
        (runAll (call root) (done ++ [op]) (after (construct root) h₀)).2
        (fun v h ↦ v = i.2 ∧ h = (runAll (call root) (done ++ [op]) (after (construct root) h₀)).2)
        fun _ _ ↦ False := by
  obtain ⟨⟨⟩, h₁, hok, hempty, -⟩ := (construct_spec hroot).exists_ok
  rw [after_of_ok hok] at hvalid ⊢
  rw [hdone, validRun_append_iff] at hvalid
  obtain ⟨hreplies, hh⟩ := runAll_spec hempty hvalid.1
  refine ⟨⟨h₁, hok⟩, hreplies, hh, fun rounds hrounds ↦ ?_, ?_⟩
  · rw [ensures_bind, beginIterator, ensures_bind, ensures_readNext hh.next_root, ensures_pure]
    have hh' : Holds _ root ([] ++ (run (listStep root) [] done).2) := hh
    exact hh'.ensures_readElements hrounds
  · rintro op rest' rfl i hi hne
    obtain ⟨_, h', hok', -, hh', -⟩ := (call_spec hh hvalid.2.1).exists_ok
    rw [runAll_append, runAll_cons_state, after_of_ok hok', runAll_nil]
    exact hh'.ensures_deref (Op.mem_onItems hi hne)

/-- Two elements, the second at `end()`, and then the first is erased. -/
theorem validRun_letters : ValidRun 0 (after (construct 0) (fun _ ↦ none : Heap (Option Char)))
    [.pushBack 1 'a', .insert 2 ⟨0⟩ 'b', .erase ⟨1⟩] := by
  have hroot : Heap.Reaches (after (call 0 (.pushBack 1 'a'))
      (after (construct 0) (fun _ ↦ none : Heap (Option Char)))) 0 0 := Relation.ReflTransGen.refl
  refine ⟨?_, ⟨by decide, hroot⟩, ⟨?_, by decide⟩, trivial⟩
  · rw [ValidOp]
    decide
  · exact Relation.ReflTransGen.single (by decide)

/-- Two elements, the second at `end()`, before the first is erased. -/
theorem buffers_refines_two :
    Holds (runAll (call 0) [.pushBack 1 'a', .insert 2 ⟨0⟩ 'b']
        (after (construct 0) fun _ ↦ none)).2 0 [(1, 'a'), (2, 'b')] := by
  have hfree : ¬ Heap.Live (fun _ ↦ none : Heap (Option Char)) 0 := by decide
  exact (buffers_refines hfree validRun_letters (show _ = [_, _] ++ [_] from rfl)).2.2.1

end Runs

end CppRepo
