import CppRepo.Library.Transition
import CppRepo.Buffers.Runs

/-!
# Several containers, destruction and moves

A program makes containers, calls their members, moves one into another and destroys them. The heap
is well formed if every container on it is a ring of its own nodes. Two such rings never share a
node, so what a member or a destructor does to one leaves the others as they are.

The move constructor takes over the two links of the source's `_root`, but not the links of the
first and the last node that lead back to it. It therefore keeps the heap well formed exactly when
there are no such nodes.

## Why this is exact

A source with elements is not handed over as it should be, because the first node still leads back
to the source. `moveConstruct_cons` says this of every such source, and a ring in which a node leads
back elsewhere is no ring of the new container. In the other direction an empty source is copied
link by link and emptied again. Every heap that programs reach without such a move is well formed,
and stays so whatever they do next.
-/

namespace CppRepo

open Heap.Ring (left right left_concat)

variable {T : Type} {h h' h₁ h₂ : Heap (Option T)} {root other : Address}
  {items items' pre post : List (Address × T)}

/-- There is a container at `root`: a plain `list_base`. -/
def IsContainer (h : Heap (Option T)) (root : Address) : Prop := h.content root = some none

/-- Every container is the ring of some elements. -/
def WellFormed (h : Heap (Option T)) : Prop :=
  ∀ root, IsContainer h root → ∃ items, Holds h root items

/-! ## Two containers share no node

A node has one cell before it. So from a node that two containers have in common one comes back to
the roots of both, and these are one and the same. What an event replaces are the cells of one
container; all others keep their rings. -/

namespace Holds

/-- The cell before an element is the root, or holds an element. -/
private theorem left_root_or_mem (pre : List (Address × T)) :
    (pre = [] ∧ left root (pre.map Prod.fst) = root) ∨
      ∃ pre' j, pre = pre' ++ [j] ∧ left root (pre.map Prod.fst) = j.1 := by
  rcases List.eq_nil_or_concat' pre with rfl | ⟨pre', j, rfl⟩
  · exact .inl ⟨rfl, rfl⟩
  · refine .inr ⟨pre', j, rfl, ?_⟩
    rw [List.map_append, List.map_singleton, left_concat]

private theorem root_not_element (hh : Holds h root items) (hroot : IsContainer h other)
    {i : Address × T} (hi : i ∈ items) : i.1 ≠ other := by
  rintro rfl
  rw [IsContainer, hh.element i hi] at hroot
  exact absurd (Option.some_inj.mp hroot) (by simp)

private theorem root_eq_of_common {i : Address × T} (hh : Holds h root (pre ++ i :: post))
    (hh' : Holds h other items') (hi : i.1 ∈ items'.map Prod.fst) : root = other := by
  induction pre using List.reverseRecOn generalizing i post with
  | nil =>
    obtain ⟨i', hi', heq⟩ := List.mem_map.mp hi
    obtain ⟨pre', post', rfl⟩ := List.append_of_mem hi'
    have hprev : h.prev i.1 = some root := hh.linked.2
    have hprev' : h.prev i'.1 = some (left other (pre'.map Prod.fst)) := hh'.linked.2
    rw [heq, hprev] at hprev'
    rcases left_root_or_mem pre' with ⟨rfl, hleft⟩ | ⟨pre'', j, rfl, hleft⟩
    · rw [hleft] at hprev'
      exact Option.some_inj.mp hprev'
    · rw [hleft] at hprev'
      refine absurd (Option.some_inj.mp hprev').symm (hh'.root_not_element hh.root_content ?_)
      simp
  | append_singleton pre j ih =>
    obtain ⟨i', hi', heq⟩ := List.mem_map.mp hi
    obtain ⟨pre', post', rfl⟩ := List.append_of_mem hi'
    rw [List.append_assoc, List.singleton_append] at hh
    have hprev : h.prev i.1 = some j.1 := hh.linked_element.2
    have hprev' : h.prev i'.1 = some (left other (pre'.map Prod.fst)) := hh'.linked.2
    rw [heq, hprev] at hprev'
    rcases left_root_or_mem pre' with ⟨rfl, hleft⟩ | ⟨pre'', j', rfl, hleft⟩
    · rw [hleft] at hprev'
      refine absurd (Option.some_inj.mp hprev') (hh.root_not_element hh'.root_content ?_)
      simp
    · rw [hleft] at hprev'
      refine ih hh ?_
      rw [Option.some_inj.mp hprev']
      simp

/-- The cells of different containers are different. -/
theorem disjoint (hh : Holds h root items) (hh' : Holds h other items') (hne : root ≠ other) :
    (ownCells root items).Disjoint (ownCells other items') := by
  intro a ha ha'
  rcases List.mem_cons.mp ha with rfl | ha <;> rcases List.mem_cons.mp ha' with heq | ha'
  · exact hne heq
  · obtain ⟨i, hi, heq⟩ := List.mem_map.mp ha'
    exact hh'.root_not_element hh.root_content hi heq
  · obtain ⟨i, hi, rfl⟩ := List.mem_map.mp ha
    exact hh.root_not_element hh'.root_content hi heq
  · obtain ⟨i, hi, rfl⟩ := List.mem_map.mp ha
    obtain ⟨pre, post, rfl⟩ := List.append_of_mem hi
    exact hne (hh.root_eq_of_common hh' ha')

end Holds

private theorem WellFormed.replaced {own own' : List Address} (hw : WellFormed h)
    (hrep : h.Replaced own own' h')
    (hown : ∀ r xs, Holds h r xs → r ∉ own → own.Disjoint (ownCells r xs))
    (hnew : ∀ r ∈ own', IsContainer h' r → ∃ xs, Holds h' r xs) : WellFormed h' := by
  intro r hr
  by_cases hr' : r ∈ own'
  · exact hnew r hr' hr
  have hlive : h'.Live r := Heap.live_of_content hr
  have hro : r ∉ own := fun hmem ↦ hrep.released r hmem hr' hlive
  have hsame : h' r = h r := hrep.same r hro hr'
  obtain ⟨xs, hxs⟩ := hw r (by rwa [IsContainer, Heap.content, ← hsame])
  refine ⟨xs, hxs.congr fun a ha ↦ hrep.eq_of_live (hxs.live ha) ?_⟩
  exact fun hmem ↦ hown r xs hxs hro hmem ha

private theorem Holds.eq_nil_iff (hh : Holds h root items) :
    items = [] ↔ h.next root = some root := by
  rw [hh.next_root]
  rcases items with - | ⟨i, items⟩
  · exact iff_of_true rfl rfl
  · have hne : positionOf root (i :: items) ≠ root := hh.root_ne List.mem_cons_self
    exact iff_of_false (List.cons_ne_nil _ _) fun heq ↦ hne (Option.some_inj.mp heq)

private theorem Holds.disjoint_of_not_mem (hh : Holds h root items) :
    ∀ r xs, Holds h r xs → r ∉ ownCells root items →
      (ownCells root items).Disjoint (ownCells r xs) := by
  intro r xs hxs hr
  refine hh.disjoint hxs ?_
  rintro rfl
  exact hr List.mem_cons_self

private theorem Holds.eq_of_isContainer (hh : Holds h root items) {r : Address}
    (hr : r ∈ ownCells root items) (hcont : IsContainer h r) : r = root := by
  rcases List.mem_cons.mp hr with rfl | hr
  · rfl
  · obtain ⟨i, hi, heq⟩ := List.mem_map.mp hr
    exact absurd heq (hh.root_not_element hcont hi)

/-! ## The destructor

The loop reads the next pointer before it deletes the node. What is already deleted does not matter
to the nodes that are left, so the induction is on these. -/

section Destroy

open Buffers

theorem Holds.ensures_destroyLoop (hh : Holds h₁ root (pre ++ post))
    (hsame : ∀ a ∈ post.map Prod.fst, h a = h₁ a) (rounds : ℕ) :
    Ensures (destroyLoop root rounds (positionOf root post) (positionOf root post)) h
      (fun _ h' ↦ h.SameOutside (post.map Prod.fst) h' ∧ ∀ a ∈ post.map Prod.fst, ¬ h'.Live a)
      fun _ _ ↦ rounds < post.length := by
  induction post generalizing pre rounds h with
  | nil =>
    have hend : positionOf root ([] : List (Address × T)) = root := rfl
    rcases rounds with - | rounds <;> rw [destroyLoop, if_pos hend] <;>
      exact ⟨fun _ _ ↦ rfl, by rintro a ⟨⟩⟩
  | cons i post ih =>
    have hi : i ∈ pre ++ i :: post := List.mem_append_right _ List.mem_cons_self
    have hpre : Holds h₁ root (pre ++ [i] ++ post) := by
      rwa [List.append_assoc, List.singleton_append]
    have hcell : h i.1 = h₁ i.1 := hsame i.1 List.mem_cons_self
    have hnext : h.next i.1 = some (positionOf root post) := by
      rw [Heap.next, hcell]
      exact hh.linked_element.1
    have hele : h.content i.1 = some (some i.2) := by
      rw [Heap.content, hcell]
      exact hh.element i hi
    have hout : i.1 ∉ post.map Prod.fst := by
      have hnodup := (List.nodup_cons.mp hh.ring.nodup).2
      rw [List.map_append, List.map_cons] at hnodup
      exact (List.nodup_cons.mp (List.nodup_append.mp hnodup).2.1).1
    have hne : positionOf root (i :: post) ≠ root := hh.root_ne hi
    rcases rounds with - | rounds
    · rw [destroyLoop, if_neg hne]
      exact Nat.zero_lt_succ _
    have hposition : positionOf root (i :: post) = i.1 := rfl
    rw [destroyLoop, if_neg hne, hposition, ensures_bind, ensures_readNext hnext, ensures_bind,
      ensures_deleteNode hele]
    have hrest : ∀ a ∈ post.map Prod.fst, Function.update h i.1 none a = h₁ a := by
      intro a ha
      rw [Function.update_of_ne fun heq ↦ hout (by rwa [heq] at ha)]
      exact hsame a (List.mem_cons_of_mem _ ha)
    refine (ih hpre hrest rounds).mono ?_ fun _ _ ↦ Nat.succ_lt_succ
    rintro - h' ⟨hout', hgone⟩
    refine ⟨fun a ha ↦ ?_, fun a ha ↦ ?_⟩
    · have hai : a ≠ i.1 := List.ne_of_not_mem_cons ha
      rw [hout' a (List.not_mem_of_not_mem_cons ha), Function.update_of_ne hai]
    · rcases List.mem_cons.mp ha with rfl | ha
      · rw [Heap.Live, hout' i.1 hout, Function.update_self]
        simp
      · exact hgone a ha

theorem destroy_spec (hh : Holds h root items) (rounds : ℕ) :
    Ensures (destroy rounds root) h (fun _ h' ↦ h.Replaced (ownCells root items) [] h')
      fun _ _ ↦ rounds < items.length := by
  have hh' : Holds h root ([] ++ items) := hh
  rw [destroy, ensures_bind, ensures_readNext hh.next_root, ensures_bind,
    ensures_readNext hh.next_root, ensures_bind]
  refine (hh'.ensures_destroyLoop (fun _ _ ↦ rfl) rounds).mono ?_ fun _ _ ↦ id
  rintro - h₁ ⟨hsame, hgone⟩
  have hroot : h₁ root = h root := hsame root (List.nodup_cons.mp hh.ring.nodup).1
  have hlive : h₁.Live root := by
    rw [Heap.Live, hroot]
    exact hh.live List.mem_cons_self
  refine (ensures_release hlive).mpr ⟨fun a ha _ ↦ ?_, fun a ha _ ↦ ?_, ?_⟩
  · rw [Function.update_of_ne (List.ne_of_not_mem_cons ha)]
    exact hsame a (List.not_mem_of_not_mem_cons ha)
  · rcases eq_or_ne a root with rfl | hne
    · rw [Heap.Live, Function.update_self]
      simp
    · rw [Heap.Live, Function.update_of_ne hne]
      exact hgone a ((List.mem_cons.mp ha).resolve_left hne)
  · rintro a ⟨⟩

end Destroy

/-! ## The move constructor

The constructor writes to the two roots and to nothing else. Whether that is enough depends on
whether there are nodes that lead back to the old root. -/

section MoveConstruct

open Buffers

theorem moveConstruct_spec {next prev : Address} (hroot : ¬ h.Live root)
    (hother : IsContainer h other) (hnext : h.next other = some next)
    (hprev : h.prev other = some prev) :
    Ensures (moveConstruct root other) h
      (fun _ h' ↦ h'.next root = some (if next = other then root else next) ∧
        h'.prev root = some (if prev = other then root else prev) ∧ IsContainer h' root ∧
        h'.Linked other other ∧ IsContainer h' other ∧ h.SameOutside [root, other] h')
      fun _ _ ↦ False := by
  have hne : other ≠ root := by
    rintro rfl
    exact hroot (Heap.live_of_content hother)
  set h₀ : Heap (Option T) := Function.update h root (some ⟨root, root, none⟩) with hh₀
  have hcell : h₀ other = h other := Function.update_of_ne hne _ _
  have hlive : h₀.Live root := by
    rw [Heap.Live, hh₀, Function.update_self]
    rfl
  have hlive' : h₀.Live other := by
    rw [Heap.Live, hcell]
    exact Heap.live_of_content hother
  have hnext₀ : h₀.next other = some next := by
    rw [Heap.next, hcell]
    exact hnext
  have hprev₀ : h₀.prev other = some prev := by
    rw [Heap.prev, hcell]
    exact hprev
  rw [moveConstruct, ensures_bind, ensures_allocate hroot, ← hh₀, ensures_bind,
    ensures_readNext hnext₀, ensures_bind, ensures_writeNext hlive, ensures_bind,
    ensures_readPrev (by rwa [Heap.prev_setNext]), ensures_bind,
    ensures_writePrev (by rwa [Heap.live_setNext]), ensures_bind,
    ensures_writeNext (by simpa using hlive'), ensures_writePrev (by simpa using hlive')]
  refine ⟨?_, ?_, ?_, ⟨?_, ?_⟩, ?_, fun a ha ↦ ?_⟩
  · rw [Heap.next_setPrev, Heap.next_setNext_of_ne hne.symm, Heap.next_setPrev,
      Heap.next_setNext_self hlive]
  · rw [Heap.prev_setPrev_of_ne hne.symm, Heap.prev_setNext,
      Heap.prev_setPrev_self (by rwa [Heap.live_setNext])]
  · rw [IsContainer, Heap.content_setPrev, Heap.content_setNext, Heap.content_setPrev,
      Heap.content_setNext, Heap.content, hh₀, Function.update_self]
    rfl
  · rw [Heap.next_setPrev, Heap.next_setNext_self (by simpa using hlive')]
  · rw [Heap.prev_setPrev_self (by simpa using hlive')]
  · rw [IsContainer, Heap.content_setPrev, Heap.content_setNext, Heap.content_setPrev,
      Heap.content_setNext, Heap.content, hcell]
    exact hother
  · have har : a ≠ root := List.ne_of_not_mem_cons ha
    have hao : a ≠ other := List.ne_of_not_mem_cons (List.not_mem_of_not_mem_cons ha)
    rw [Heap.setPrev_of_ne hao, Heap.setNext_of_ne hao, Heap.setPrev_of_ne har,
      Heap.setNext_of_ne har, hh₀, Function.update_of_ne har]

private theorem moveConstruct_nil (hroot : ¬ h.Live root) (hh : Holds h other []) :
    Ensures (moveConstruct root other) h
      (fun _ h' ↦ Holds h' root [] ∧ Holds h' other [] ∧
        h.Replaced [other] [root, other] h')
      fun _ _ ↦ False := by
  have hlink : h.Linked other other := Heap.Ring.nil_iff.mp hh.ring
  refine (moveConstruct_spec hroot hh.root_content hlink.1 hlink.2).mono ?_ fun _ _ ↦ id
  rintro - h' ⟨hnext, hprev, hcontent, hlink', hcontent', hsame⟩
  rw [if_pos rfl] at hnext hprev
  refine ⟨⟨Heap.Ring.nil_iff.mpr ⟨hnext, hprev⟩, hcontent, by rintro i ⟨⟩⟩,
    ⟨Heap.Ring.nil_iff.mpr hlink', hcontent', by rintro i ⟨⟩⟩,
    fun a _ ha ↦ hsame a ha, fun a ha hna ↦ ?_, fun a ha hna ↦ ?_⟩
  · exact absurd (List.mem_cons_of_mem _ ha) hna
  · rcases List.mem_cons.mp ha with rfl | ha
    · exact hroot
    · exact absurd ha hna

private theorem moveConstruct_cons {i : Address × T} (hroot : ¬ h.Live root)
    (hh : Holds h other (i :: items)) :
    Ensures (moveConstruct root other) h
      (fun _ h' ↦ h'.next root = some i.1 ∧ h'.prev i.1 = some other) fun _ _ ↦ False := by
  have hi : i ∈ i :: items := List.mem_cons_self
  have hh' : Holds h other ([] ++ i :: items) := hh
  have hhi : Holds h other (i :: items ++ []) := by rwa [List.append_nil]
  have hne : i.1 ≠ root := by
    rintro rfl
    exact hroot (hh.live (List.mem_cons_of_mem _ (List.mem_map_of_mem hi)))
  refine (moveConstruct_spec hroot hh.root_content hh.next_root hhi.linked.2).mono ?_ fun _ _ ↦ id
  rintro - h' ⟨hnext, -, -, -, -, hsame⟩
  have hio : positionOf other (i :: items) ≠ other := hh.root_ne hi
  rw [if_neg hio] at hnext
  refine ⟨hnext, ?_⟩
  rw [Heap.prev, hsame i.1 (by simpa using ⟨hne, hh.root_ne hi⟩)]
  exact hh'.linked.2

end MoveConstruct

/-! ## Programs with containers

An event of a program is a construction, a call, a move or a destruction, and each is one of the
specifications above. The heaps that are reached are those of programs whose moves are from empty
containers; from there any events may follow. -/

/-- What a program does to a container. -/
inductive ContainerEvent (T : Type)
  | construct (root : Address)
  | moveConstruct (root other : Address)
  | member (root : Address) (op : Buffers.Op T)
  | destroy (root : Address)

namespace ContainerEvent

/-- The program of an event; only a destructor has a loop, of at most `rounds` rounds. -/
def exec (rounds : ℕ) : ContainerEvent T → BuffersM T Unit
  | construct root => Buffers.construct root
  | moveConstruct root other => Buffers.moveConstruct root other
  | member root op => (fun _ ↦ ⟨⟩) <$> Buffers.call root op
  | destroy root => Buffers.destroy rounds root

/-- A new container is made where nothing is, and the others are about containers that are there. -/
def Valid (h : Heap (Option T)) : ContainerEvent T → Prop
  | construct root => ¬ h.Live root
  | moveConstruct root other => ¬ h.Live root ∧ IsContainer h other
  | member root op => IsContainer h root ∧ Buffers.ValidOp root h op
  | destroy root => IsContainer h root

/-- The cells of the container an event is about. -/
def Owns (h : Heap (Option T)) : ContainerEvent T → Address → Prop
  | construct _, _ => False
  | moveConstruct _ other, a => h.Reaches other a
  | member root _, a => h.Reaches root a
  | destroy root, a => h.Reaches root a

/-- The event is not a move, or one from an empty container. -/
def MovesEmpty (h : Heap (Option T)) : ContainerEvent T → Prop
  | construct _ => True
  | moveConstruct _ other => h.next other = some other
  | member _ _ => True
  | destroy _ => True

/-- The event is a call of a member or a destructor. -/
def IsLater : ContainerEvent T → Prop
  | construct _ => False
  | moveConstruct _ _ => False
  | member _ _ => True
  | destroy _ => True

/-- The event ends without undefined behaviour, and of the cells there are it touches only those of
its own container. -/
def Safe (h : Heap (Option T)) (e : ContainerEvent T) : Prop :=
  ∃ n, ∀ rounds ≥ n, Ensures (e.exec rounds) h
    (fun _ h' ↦ ∀ a, h.Live a → ¬ e.Owns h a → h' a = h a) fun _ _ ↦ False

/-- The event takes `h` to `h'`. -/
def Performs (e : ContainerEvent T) (h h' : Heap (Option T)) : Prop :=
  e.Valid h ∧ ∃ rounds, e.exec rounds h = .ok ⟨⟩ h'

theorem exec_spec {e : ContainerEvent T} (hw : WellFormed h) (hvalid : e.Valid h)
    (hempty : e.MovesEmpty h) :
    ∃ n, ∀ rounds, Ensures (e.exec rounds) h
      (fun _ h' ↦ WellFormed h' ∧ ∀ a, h.Live a → ¬ e.Owns h a → h' a = h a)
      fun _ _ ↦ rounds < n := by
  match e with
  | construct root =>
    refine ⟨0, fun rounds ↦ (construct_spec hvalid).mono ?_ fun _ _ ↦ False.elim⟩
    rintro - h' ⟨hh, hrep⟩
    refine ⟨hw.replaced hrep (fun _ _ _ _ ↦ List.disjoint_nil_left _) fun r hr _ ↦ ?_,
      fun a ha _ ↦ hrep.eq_of_live ha List.not_mem_nil⟩
    rw [List.mem_singleton.mp hr]
    exact ⟨[], hh⟩
  | moveConstruct root other =>
    obtain ⟨hroot, hother⟩ := hvalid
    obtain ⟨items, hh⟩ := hw other hother
    obtain rfl := hh.eq_nil_iff.mpr hempty
    refine ⟨0, fun rounds ↦ (moveConstruct_nil hroot hh).mono ?_ fun _ _ ↦ False.elim⟩
    rintro - h' ⟨hh₁, hh₂, hrep⟩
    refine ⟨hw.replaced hrep hh.disjoint_of_not_mem fun r hr _ ↦ ?_,
      fun a ha hna ↦ hrep.eq_of_live ha fun hmem ↦ hna (hh.ring.reaches_of_mem hmem)⟩
    rcases List.mem_cons.mp hr with rfl | hr
    · exact ⟨[], hh₁⟩
    · rw [List.mem_singleton.mp hr]
      exact ⟨[], hh₂⟩
  | member root op =>
    obtain ⟨hroot, hop⟩ := hvalid
    obtain ⟨items, hh⟩ := hw root hroot
    refine ⟨0, fun rounds ↦ ?_⟩
    rw [exec, ensures_map]
    refine (call_spec hh hop).mono ?_ fun _ _ ↦ False.elim
    rintro reply h' ⟨-, hh', hrep⟩
    refine ⟨hw.replaced hrep hh.disjoint_of_not_mem fun r hr hcont ↦ ?_,
      fun a ha hna ↦ hrep.eq_of_live ha fun hmem ↦ hna (hh.ring.reaches_of_mem hmem)⟩
    rw [hh'.eq_of_isContainer hr hcont]
    exact ⟨_, hh'⟩
  | destroy root =>
    obtain ⟨items, hh⟩ := hw root hvalid
    refine ⟨items.length, fun rounds ↦ (destroy_spec hh rounds).mono ?_ fun _ _ ↦ id⟩
    rintro - h' hrep
    refine ⟨hw.replaced hrep hh.disjoint_of_not_mem fun r hr _ ↦ ?_,
      fun a ha hna ↦ hrep.eq_of_live ha fun hmem ↦ hna (hh.ring.reaches_of_mem hmem)⟩
    exact absurd hr List.not_mem_nil

theorem Performs.wellFormed {e : ContainerEvent T} (hperf : e.Performs h h') (hw : WellFormed h)
    (hempty : e.MovesEmpty h) : WellFormed h' := by
  obtain ⟨hvalid, rounds, hok⟩ := hperf
  obtain ⟨n, hspec⟩ := exec_spec hw hvalid hempty
  exact ((hspec rounds).of_ok hok).1

private theorem safe_of_wellFormed {e : ContainerEvent T} (hw : WellFormed h) (hvalid : e.Valid h)
    (hempty : e.MovesEmpty h) : e.Safe h := by
  obtain ⟨n, hspec⟩ := exec_spec hw hvalid hempty
  exact ⟨n, fun rounds hrounds ↦ (hspec rounds).mono (fun _ _ ↦ And.right)
    fun _ _ ↦ Nat.not_lt_of_ge hrounds⟩

private theorem IsLater.movesEmpty {e : ContainerEvent T} (he : e.IsLater) : e.MovesEmpty h := by
  match e, he with
  | member _ _, _ => exact trivial
  | destroy _, _ => exact trivial

end ContainerEvent

/-- A program that starts without containers and has moved from empty ones only. -/
def ReachesHeap (h : Heap (Option T)) : Prop :=
  Reachable (fun h ↦ h = fun _ ↦ none)
    (fun h h' ↦ ∃ e : ContainerEvent T, e.MovesEmpty h ∧ e.Performs h h') h

/-- From then on the program only calls members and destructors. -/
def Later (h h' : Heap (Option T)) : Prop :=
  Reachable (fun h₁ ↦ h₁ = h) (fun h h' ↦ ∃ e : ContainerEvent T, e.IsLater ∧ e.Performs h h') h'

theorem ReachesHeap.start : ReachesHeap (fun _ ↦ none : Heap (Option T)) := Reachable.start rfl

private theorem ReachesHeap.perform {e : ContainerEvent T} (hreach : ReachesHeap h)
    (hempty : e.MovesEmpty h) (hperf : e.Performs h h') : ReachesHeap h' :=
  Reachable.next hreach ⟨e, hempty, hperf⟩

theorem ReachesHeap.wellFormed (hreach : ReachesHeap h) : WellFormed h := by
  refine Reachable.invariant ?_ ?_ hreach
  · rintro h rfl root hroot
    exact absurd hroot (by simp [IsContainer, Heap.content])
  · rintro h h' - hw ⟨e, hempty, hperf⟩
    exact hperf.wellFormed hw hempty

theorem WellFormed.later (hw : WellFormed h) (hlater : Later h h') : WellFormed h' := by
  refine Reachable.invariant ?_ ?_ hlater
  · rintro h rfl
    exact hw
  · rintro h h' - hw ⟨e, he, hperf⟩
    exact hperf.wellFormed hw he.movesEmpty

/-- What a move should do: the new container has the elements, in a ring of its own, the source is
an empty ring, and each later call of a member or a destructor ends and touches only the cells of
its own container. -/
structure MoveKeeps (h h' : Heap (Option T)) (root other : Address) : Prop where
  moved : ∃ items, Holds h other items ∧ Holds h' root items
  emptied : Holds h' other []
  safe : ∀ h₂, Later h' h₂ → ∀ e : ContainerEvent T, e.IsLater → e.Valid h₂ → e.Safe h₂

private theorem not_moveKeeps_of_prev {a : Address} (hnext : h'.next root = some a)
    (hprev : h'.prev a = some other) (hroot : ¬ h.Live root) (hother : IsContainer h other) :
    ¬ MoveKeeps h h' root other := by
  rintro ⟨⟨items, -, hh'⟩, -, -⟩
  have hlink : h'.Linked (left root (List.map Prod.fst [])) (positionOf root items) :=
    Holds.linked hh'
  have hnext' : h'.next root = some (positionOf root items) := hlink.1
  have hprev' : h'.prev (positionOf root items) = some root := hlink.2
  rw [Option.some_inj.mp (hnext'.symm.trans hnext), hprev] at hprev'
  obtain rfl := Option.some_inj.mp hprev'
  exact hroot (Heap.live_of_content hother)

/-- **Moves.** The move constructor does what a move should do exactly when the source is empty. -/
theorem moveConstruct_iff (hreach : ReachesHeap h) (hroot : ¬ h.Live root)
    (hother : IsContainer h other) :
    ∃ h', Buffers.moveConstruct root other h = .ok ⟨⟩ h' ∧
      (MoveKeeps h h' root other ↔ h.next other = some other) := by
  have hw := hreach.wellFormed
  obtain ⟨items, hh⟩ := hw other hother
  rcases items with - | ⟨i, items⟩
  · obtain ⟨⟨⟩, h', hok, hh₁, hh₂, -⟩ := (moveConstruct_nil hroot hh).exists_ok
    have hempty : h.next other = some other := hh.eq_nil_iff.mp rfl
    have hperf : (ContainerEvent.moveConstruct root other).Performs h h' :=
      ⟨⟨hroot, hother⟩, 0, hok⟩
    have hw' : WellFormed h' := hperf.wellFormed hw hempty
    refine ⟨h', hok, iff_of_true ⟨⟨[], hh, hh₁⟩, hh₂, fun h₂ hlater e he hvalid ↦ ?_⟩ hempty⟩
    exact ContainerEvent.safe_of_wellFormed (hw'.later hlater) hvalid he.movesEmpty
  · obtain ⟨⟨⟩, h', hok, hnext, hprev⟩ := (moveConstruct_cons hroot hh).exists_ok
    refine ⟨h', hok, iff_of_false (not_moveKeeps_of_prev hnext hprev hroot hother) fun heq ↦ ?_⟩
    exact List.cons_ne_nil _ _ (hh.eq_nil_iff.mpr heq)

/-- The container at `0` with the one element `'a'`. -/
private def oneElement : Heap (Option Char) :=
  after (Buffers.call 0 (.pushBack 1 'a')) (after (Buffers.construct 0) fun _ ↦ none)

/-- An empty container may be moved from. -/
theorem moveConstruct_iff_empty :
    MoveKeeps (after (Buffers.construct 0) (fun _ ↦ none : Heap (Option Char)))
      (after (Buffers.moveConstruct 2 0)
        (after (Buffers.construct 0) (fun _ ↦ none : Heap (Option Char)))) 2 0 := by
  have hreach : ReachesHeap (after (Buffers.construct 0) (fun _ ↦ none : Heap (Option Char))) := by
    refine ReachesHeap.start.perform (e := .construct 0) trivial ⟨?_, 0, rfl⟩
    rw [ContainerEvent.Valid]
    decide
  obtain ⟨h', hok, hiff⟩ := moveConstruct_iff hreach (show ¬ Heap.Live _ 2 by decide)
    (show IsContainer _ 0 from rfl)
  rw [after_of_ok hok]
  exact hiff.mpr (by decide)

/-- After a move from a container with one element, the node leads back to the source, and the
destructor of the new container deletes the source's root. -/
theorem moveConstruct_breaks_ring :
    ∃ h h' : Heap (Option Char), ReachesHeap h ∧ ¬ h.Live 2 ∧ IsContainer h 0 ∧
      Buffers.moveConstruct 2 0 h = .ok ⟨⟩ h' ∧ ¬ MoveKeeps h h' 2 0 ∧
      h'.next 2 = some 1 ∧ h'.prev 1 = some 0 ∧
      ∃ h₃, Buffers.destroy 2 2 h' = .error .undefinedBehaviour h₃ := by
  have hempty : ReachesHeap (after (Buffers.construct 0) (fun _ ↦ none : Heap (Option Char))) := by
    refine ReachesHeap.start.perform (e := .construct 0) trivial ⟨?_, 0, rfl⟩
    rw [ContainerEvent.Valid]
    decide
  have hreach : ReachesHeap oneElement := by
    refine hempty.perform (e := .member 0 (.pushBack 1 'a')) trivial ⟨⟨rfl, ?_⟩, 0, rfl⟩
    rw [Buffers.ValidOp]
    decide
  refine ⟨oneElement, after (Buffers.moveConstruct 2 0) oneElement, hreach, by decide, rfl, rfl,
    not_moveKeeps_of_prev rfl rfl (by decide) rfl, rfl, rfl, _, rfl⟩

end CppRepo
