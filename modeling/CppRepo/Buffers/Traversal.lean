import CppRepo.Buffers.Runs

/-!
# Traversals

`for (it = begin(); it != last; ++it)`, where `last` denotes `end()`. Which `operator!=` the
condition means depends on the classes of the two iterators. The two member operators are the
negation of their `operator==`; the one that compares an `iterator` with a `const_iterator` is not.

## What the wrong operator does

The mixed operator returns whether the two are equal. At `begin()` of a container with elements it
says that there is nothing left, and the loop ends at once. At `begin()` of an empty container,
which is `end()`, it says that there is something left, and the loop dereferences the root, which
holds no element.
-/

namespace CppRepo

variable {T : Type}

namespace Buffers

/-! ## The comparison operators

There are two classes of iterators, each with its own pair of operators, and one pair outside of the
classes for an `iterator` and a `const_iterator`. `Pairing` names which of them a condition uses. -/

/-- `buffers_iterator::operator==`. -/
def iteratorEq (it other : BuffersIterator) : Bool := it.cur = other.cur

/-- `buffers_iterator::operator!=`. -/
def iteratorNe (it other : BuffersIterator) : Bool := !iteratorEq it other

/-- `buffers_const_iterator::operator==`. -/
def constIteratorEq (it other : BuffersIterator) : Bool := it.cur = other.cur

/-- `buffers_const_iterator::operator!=`. -/
def constIteratorNe (it other : BuffersIterator) : Bool := !constIteratorEq it other

/-- `operator==(const buffers_iterator&, const buffers_const_iterator&)`. -/
def mixedEq (x y : BuffersIterator) : Bool := x.cur = y.cur

/-- `operator!=(const buffers_iterator&, const buffers_const_iterator&)`. -/
def mixedNe (x y : BuffersIterator) : Bool := x.cur = y.cur

/-- The classes of the two iterators of a loop. -/
inductive Pairing
  | iterators
  | constIterators
  /-- `it` is an `iterator` and `last` a `const_iterator` -/
  | mixed
  deriving DecidableEq, Repr

namespace Pairing

/-- The `operator==` of a pairing. -/
def eq : Pairing → BuffersIterator → BuffersIterator → Bool
  | iterators => iteratorEq
  | constIterators => constIteratorEq
  | mixed => mixedEq

/-- The `operator!=` of a pairing. -/
def ne : Pairing → BuffersIterator → BuffersIterator → Bool
  | iterators => iteratorNe
  | constIterators => constIteratorNe
  | mixed => mixedNe

variable {p : Pairing} {it last : BuffersIterator}

theorem eq_iff : p.eq it last = true ↔ it = last := by
  have hcur : it.cur = last.cur ↔ it = last := by
    cases it
    cases last
    simp
  cases p <;> simp [eq, iteratorEq, constIteratorEq, mixedEq, hcur]

private theorem ne_of_ne_mixed (hp : p ≠ mixed) (it last : BuffersIterator) :
    p.ne it last = !p.eq it last := by
  cases p
  · rfl
  · rfl
  · exact absurd rfl hp

private theorem ne_mixed (it last : BuffersIterator) : mixed.ne it last = mixed.eq it last := rfl

end Pairing

/-! ## The loop

The loop is given rounds, for with the wrong operator it need not end. `Visits` asks that enough
rounds give exactly the elements. -/

/-- The loop from `it` on. Its body reads the element; the visited elements are collected, each with
the address of its node. -/
def visitFrom (p : Pairing) (last : BuffersIterator) :
    ℕ → BuffersIterator → BuffersM T (List (Address × T))
  | 0, it => if p.ne it last then throw (.thrown .cutOff) else return []
  | rounds + 1, it => do
    if p.ne it last then
      let ele ← it.deref
      let visited ← visitFrom p last rounds (← it.incr)
      return (it.cur, ele) :: visited
    else
      return []

/-- `for (it = begin(); it != last; ++it)`. -/
def traversal (p : Pairing) (rounds : ℕ) (root : Address) : BuffersM T (List (Address × T)) := do
  visitFrom p (endIterator root) rounds (← beginIterator root)

/-- The traversal ends and has visited these elements, in this order. -/
def Visits (p : Pairing) (h : Heap (Option T)) (root : Address) (items : List (Address × T)) :
    Prop :=
  ∃ n, ∀ rounds ≥ n, Ensures (traversal p rounds root) h (fun visited h' ↦ visited = items ∧ h' = h)
    fun _ _ ↦ False

end Buffers

/-! ## What it visits

For the right operators the induction is on what comes after the position: the loop is past the
position when the list is used up. The other two cases are decided in the first round. -/

section Traversal

open Buffers

variable {h : Heap (Option T)} {root : Address} {items : List (Address × T)} {p : Pairing}

private theorem visitFrom_end (hne : p.ne (endIterator root) (endIterator root) = false)
    (rounds : ℕ) :
    (visitFrom p (endIterator root) rounds (endIterator root) : BuffersM T _) = pure [] := by
  cases rounds with
  | zero => rw [visitFrom, if_neg (by rw [hne]; exact Bool.false_ne_true)]
  | succ rounds => rw [visitFrom, if_neg (by rw [hne]; exact Bool.false_ne_true)]

theorem Holds.ensures_visitFrom {pre post : List (Address × T)} (hp : p ≠ .mixed)
    (hh : Holds h root (pre ++ post)) {rounds : ℕ} (hrounds : post.length ≤ rounds) :
    Ensures (visitFrom p (endIterator root) rounds ⟨positionOf root post⟩) h
      (fun visited h' ↦ visited = post ∧ h' = h) fun _ _ ↦ False := by
  induction post generalizing pre rounds with
  | nil =>
    have hend : p.ne (endIterator root) (endIterator root) = false := by
      rw [Pairing.ne_of_ne_mixed hp, Pairing.eq_iff.mpr rfl]
      rfl
    have hlast : (⟨positionOf root ([] : List (Address × T))⟩ : BuffersIterator)
        = endIterator root := rfl
    rw [hlast, visitFrom_end hend]
    exact ⟨rfl, rfl⟩
  | cons i post ih =>
    have hi : i ∈ pre ++ i :: post := List.mem_append_right _ List.mem_cons_self
    have hne : p.ne ⟨positionOf root (i :: post)⟩ (endIterator root) = true := by
      rw [Pairing.ne_of_ne_mixed hp, Bool.not_eq_true', Bool.eq_false_iff]
      exact fun heq ↦ hh.root_ne hi (congrArg BuffersIterator.cur (Pairing.eq_iff.mp heq))
    rcases rounds with - | rounds
    · exact absurd hrounds (Nat.not_succ_le_zero _)
    rw [visitFrom, if_pos hne, ensures_bind]
    refine (hh.ensures_deref hi).mono ?_ fun _ _ ↦ id
    rintro v h' ⟨rfl, rfl⟩
    have hpre : Holds h' root (pre ++ [i] ++ post) := by
      rwa [List.append_assoc, List.singleton_append]
    have hnext : h'.next (positionOf root (i :: post)) = some (positionOf root post) :=
      hh.linked_element.1
    rw [ensures_bind, BuffersIterator.incr, ensures_bind, ensures_readNext hnext, ensures_pure,
      ensures_bind]
    refine (ih hpre (Nat.le_of_succ_le_succ hrounds)).mono ?_ fun _ _ ↦ id
    rintro visited h' ⟨rfl, rfl⟩
    exact ⟨rfl, rfl⟩

private theorem Holds.traversal_mixed_of_ne_nil (hh : Holds h root items) (hne : items ≠ [])
    (rounds : ℕ) : traversal .mixed rounds root h = .ok [] h := by
  obtain ⟨i, post, rfl⟩ := List.exists_cons_of_ne_nil hne
  have hdiffers : Pairing.mixed.ne ⟨positionOf root (i :: post)⟩ (endIterator root) = false := by
    rw [Pairing.ne_mixed, Bool.eq_false_iff]
    exact fun heq ↦ hh.root_ne List.mem_cons_self
      (congrArg BuffersIterator.cur (Pairing.eq_iff.mp heq))
  have hend : Ensures (traversal .mixed rounds root) h (fun visited h' ↦ visited = [] ∧ h' = h)
      fun _ _ ↦ False := by
    rw [traversal, ensures_bind, beginIterator, ensures_bind, ensures_readNext hh.next_root,
      ensures_pure]
    cases rounds with
    | zero => rw [visitFrom, hdiffers]; exact ⟨rfl, rfl⟩
    | succ rounds => rw [visitFrom, hdiffers]; exact ⟨rfl, rfl⟩
  obtain ⟨visited, h', hok, rfl, rfl⟩ := hend.exists_ok
  exact hok

private theorem Holds.traversal_mixed_of_nil (hh : Holds h root []) (rounds : ℕ) :
    traversal .mixed (rounds + 1) root h = .error .undefinedBehaviour h := by
  obtain ⟨c, hc, hcontent⟩ := Option.map_eq_some_iff.mp hh.root_content
  have hderef : BuffersIterator.deref ⟨root⟩ h = .error .undefinedBehaviour h := by
    have hread : read root h = .ok c h := by
      rw [read, get_bind, hc]
      rfl
    rw [BuffersIterator.deref, bind_of_ok hread, hcontent]
    rfl
  have hbegin : beginIterator root h = .ok ⟨root⟩ h := by
    have hok : Ensures (beginIterator root) h (fun it h' ↦ it = ⟨root⟩ ∧ h' = h)
        fun _ _ ↦ False := by
      rw [beginIterator, ensures_bind, ensures_readNext hh.next_root]
      exact ⟨rfl, rfl⟩
    obtain ⟨it, h', hok, rfl, rfl⟩ := hok.exists_ok
    exact hok
  have hdiffers : Pairing.mixed.ne ⟨root⟩ (endIterator root) = true := by
    rw [Pairing.ne_mixed]
    exact Pairing.eq_iff.mpr rfl
  rw [traversal, bind_of_ok hbegin, visitFrom, if_pos hdiffers, bind_of_error hderef]

/-- **Traversals.** For every contents: the traversal ends and visits each element once and in
order, if and only if the two iterators are of one class, and it is for them that the inequality
operator is the negation of equality. -/
theorem visits_iff (hh : Holds h root items) (p : Pairing) :
    (Visits p h root items ↔ p ≠ .mixed) ∧
      ((∀ it last, p.ne it last = true ↔ it ≠ last) ↔ p ≠ .mixed) := by
  refine ⟨⟨?_, fun hp ↦ ⟨items.length, fun rounds hrounds ↦ ?_⟩⟩, ?_, fun hp it last ↦ ?_⟩
  · rintro ⟨n, hn⟩ rfl
    have hvisits := hn (n + 1) (Nat.le_succ n)
    rcases eq_or_ne items [] with rfl | hne
    · exact hvisits.of_error (hh.traversal_mixed_of_nil n)
    · exact hne (hvisits.of_ok (hh.traversal_mixed_of_ne_nil hne (n + 1))).1.symm
  · have hh' : Holds h root ([] ++ items) := hh
    rw [traversal, ensures_bind, beginIterator, ensures_bind, ensures_readNext hh.next_root,
      ensures_pure]
    exact hh'.ensures_visitFrom hp hrounds
  · rintro hagree rfl
    refine (hagree ⟨root⟩ ⟨root⟩).mp ?_ rfl
    rw [Pairing.ne_mixed]
    exact Pairing.eq_iff.mpr rfl
  · rw [Pairing.ne_of_ne_mixed hp, Bool.not_eq_true', Bool.eq_false_iff]
    exact not_congr Pairing.eq_iff

/-- The container at `0` with the elements `'a'` and `'b'`. -/
private def lettersHeap : Heap (Option Char) :=
  (runAll (call 0) [.pushBack 1 'a', .pushBack 2 'b'] (after (construct 0) fun _ ↦ none)).2

private theorem holds_lettersHeap : Holds lettersHeap 0 [(1, 'a'), (2, 'b')] := by
  have hroot : ¬ Heap.Live (fun _ ↦ none : Heap (Option Char)) 0 := by decide
  obtain ⟨_, h₁, hok, hh, -⟩ := (construct_spec hroot).exists_ok
  have hvalid : ValidRun 0 (after (construct 0) (fun _ ↦ none : Heap (Option Char)))
      [.pushBack 1 'a', .pushBack 2 'b'] := by
    simp only [ValidRun, ValidOp]
    decide
  rw [after_of_ok hok] at hvalid
  have hrun := (runAll_spec hh hvalid).2
  rwa [← after_of_ok hok] at hrun

theorem visits_iff_letters : Visits .constIterators lettersHeap 0 [(1, 'a'), (2, 'b')] :=
  (visits_iff holds_lettersHeap .constIterators).1.mpr (by decide)

/-- With an `iterator` and a `const_iterator` the two elements are not visited. -/
theorem mixed_visits_nothing :
    ¬ Visits .mixed lettersHeap 0 [(1, 'a'), (2, 'b')] ∧
      traversal .mixed 3 0 lettersHeap = .ok [] lettersHeap := by
  refine ⟨fun h ↦ ?_, holds_lettersHeap.traversal_mixed_of_ne_nil (List.cons_ne_nil _ _) 3⟩
  obtain ⟨n, hn⟩ := h
  have hnone := (hn n le_rfl).of_ok
    (holds_lettersHeap.traversal_mixed_of_ne_nil (List.cons_ne_nil _ _) n)
  exact absurd hnone.1 (by decide)

end Traversal

end CppRepo
