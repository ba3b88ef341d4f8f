import CppRepo.Library.Heap

/-!
# Rings of doubly linked cells

A ring is a cell, its root, and the cells that following `next` visits before it comes back to the
root; on all of them `prev` is the inverse of `next`. `Ring` states this about the closed walk
`root, nodes, root`: consecutive cells of the walk are linked both ways.

## Why the walk repeats the root

In a ring without nodes the root is its own neighbour, and in a ring with one node the root is the
neighbour on both sides. On the closed walk these are not special cases. A cell is put between two
consecutive cells `p` and `q` of the walk, or taken out from between them, and what changes is the
`next` of `p` and the `prev` of `q`, even where `p` and `q` are the same cell.
-/

namespace CppRepo

namespace Heap

variable {P : Type} {h h' : Heap P} {root x p q : Address} {nodes as bs l r : List Address}

/-- `b` follows `a`, and `a` precedes `b`. -/
def Linked (h : Heap P) (a b : Address) : Prop := h.next a = some b ∧ h.prev b = some a

/-- `a` is reached from `root` along `next`. -/
def Reaches (h : Heap P) (root a : Address) : Prop :=
  Relation.ReflTransGen (fun a b ↦ h.next a = some b) root a

/-- A chain of links depends on the `next` of all its cells but the last and the `prev` of all its
cells but the first. -/
theorem isChain_linked_congr (hl : l.IsChain h.Linked)
    (hnext : ∀ a ∈ l.dropLast, h'.next a = h.next a) (hprev : ∀ a ∈ l.tail, h'.prev a = h.prev a) :
    l.IsChain h'.Linked := by
  rw [List.isChain_iff_forall₂] at hl ⊢
  generalize l.dropLast = starts at hl hnext
  generalize l.tail = ends at hl hprev
  induction hl with
  | nil => exact .nil
  | @cons a b starts ends hab _ ih =>
    refine .cons ⟨?_, ?_⟩ (ih (fun a ha ↦ hnext a (List.mem_cons_of_mem _ ha))
      (fun b hb ↦ hprev b (List.mem_cons_of_mem _ hb)))
    · rw [hnext a List.mem_cons_self]
      exact hab.1
    · rw [hprev b List.mem_cons_self]
      exact hab.2

/-- `nodes` are the cells between `root` and its next occurrence on the closed walk. -/
structure Ring (h : Heap P) (root : Address) (nodes : List Address) : Prop where
  nodup : (root :: nodes).Nodup
  chain : (root :: (nodes ++ [root])).IsChain h.Linked

namespace Ring

theorem congr (hr : h.Ring root nodes) (hnext : ∀ a ∈ root :: nodes, h'.next a = h.next a)
    (hprev : ∀ a ∈ root :: nodes, h'.prev a = h.prev a) : h'.Ring root nodes := by
  refine ⟨hr.nodup, isChain_linked_congr hr.chain (fun a ha ↦ hnext a ?_) fun a ha ↦ hprev a ?_⟩
  · rwa [← List.cons_append, List.dropLast_concat] at ha
  · rw [List.tail_cons, List.mem_append, List.mem_singleton] at ha
    rcases ha with ha | rfl
    · exact List.mem_cons_of_mem _ ha
    · exact List.mem_cons_self

/-- The cell before a cut of the walk that leaves `as` on the side of the start. -/
def left (root : Address) (as : List Address) : Address := as.getLastD root

/-- The cell after a cut of the walk that leaves `bs` on the side of the end. -/
def right (root : Address) (bs : List Address) : Address := bs.headD root

@[simp] theorem left_nil : left root [] = root := rfl

@[simp] theorem right_nil : right root [] = root := rfl

@[simp] theorem right_cons : right root (x :: bs) = x := rfl

@[simp] theorem left_concat : left root (as ++ [x]) = x := by
  rw [left, List.getLastD_concat]

theorem left_mem (root : Address) (as bs : List Address) : left root as ∈ root :: (as ++ bs) := by
  rcases List.eq_nil_or_concat' as with rfl | ⟨as, a, rfl⟩
  · exact List.mem_cons_self
  · rw [left_concat, List.append_assoc]
    exact List.mem_cons_of_mem _ (List.mem_append_right _ List.mem_cons_self)

theorem right_mem (root : Address) (as bs : List Address) : right root bs ∈ root :: (as ++ bs) := by
  rcases bs with - | ⟨b, bs⟩
  · exact List.mem_cons_self
  · exact List.mem_cons_of_mem _ (List.mem_append_right _ List.mem_cons_self)

theorem exists_cut (root : Address) (as bs : List Address) :
    ∃ l r, root :: as = l ++ [left root as] ∧ bs ++ [root] = right root bs :: r := by
  obtain ⟨l, hl⟩ : ∃ l, root :: as = l ++ [left root as] := by
    rcases List.eq_nil_or_concat' as with rfl | ⟨as, a, rfl⟩
    · exact ⟨[], rfl⟩
    · exact ⟨root :: as, by rw [left_concat, List.cons_append]⟩
  obtain ⟨r, hr⟩ : ∃ r, bs ++ [root] = right root bs :: r := by
    rcases bs with - | ⟨b, bs⟩
    · exact ⟨[], rfl⟩
    · exact ⟨bs ++ [root], rfl⟩
  exact ⟨l, r, hl, hr⟩

/-- The closed walk, cut between two consecutive cells `p` and `q`. -/
theorem isChain_walk_iff {R : Address → Address → Prop} (has : root :: as = l ++ [p])
    (hbs : bs ++ [root] = q :: r) :
    (root :: (as ++ bs ++ [root])).IsChain R
      ↔ (l ++ [p]).IsChain R ∧ R p q ∧ (q :: r).IsChain R := by
  rw [List.append_assoc, hbs, ← List.cons_append, has, List.append_assoc, List.singleton_append,
    List.isChain_append_cons_cons]

theorem linked (hr : h.Ring root (as ++ bs)) : h.Linked (left root as) (right root bs) := by
  obtain ⟨l, r, has, hbs⟩ := exists_cut root as bs
  exact ((isChain_walk_iff has hbs).mp hr.chain).2.1

theorem live (hr : h.Ring root nodes) {a : Address} (ha : a ∈ root :: nodes) : h.Live a := by
  rcases List.mem_cons.mp ha with rfl | ha
  · have hlink : h.Linked (left a []) (right a nodes) := linked hr
    exact live_of_next hlink.1
  · obtain ⟨as, bs, rfl⟩ := List.append_of_mem ha
    exact live_of_prev hr.linked.2

theorem nil_iff : h.Ring root [] ↔ h.Linked root root := by
  refine ⟨fun hr ↦ ?_, fun hl ↦ ⟨List.nodup_singleton root, ?_⟩⟩
  · exact List.isChain_pair.mp hr.chain
  · rw [List.nil_append, List.isChain_pair]
    exact hl

/-- The two halves of the walk, on both sides of the cut, keep their links when only the `next` of
`p` and the `prev` of `q` change. -/
theorem halves (hnodup : (root :: (as ++ bs)).Nodup) (has : root :: as = l ++ [p])
    (hbs : bs ++ [root] = q :: r)
    (hnext : ∀ a ∈ root :: (as ++ bs), a ≠ p → h'.next a = h.next a)
    (hprev : ∀ a ∈ root :: (as ++ bs), a ≠ q → h'.prev a = h.prev a)
    (hl : (l ++ [p]).IsChain h.Linked) (hr : (q :: r).IsChain h.Linked) :
    (l ++ [p]).IsChain h'.Linked ∧ (q :: r).IsChain h'.Linked := by
  have hstarts : (l ++ [p] ++ bs).Nodup := by
    rw [← has, List.cons_append]
    exact hnodup
  have hends : (as ++ q :: r).Nodup := by
    rw [← hbs, ← List.append_assoc, List.nodup_append_comm, List.singleton_append]
    exact hnodup
  have hmem : ∀ a, a ∈ as ∨ a ∈ q :: r → a ∈ root :: (as ++ bs) := by
    intro a ha
    rw [← hbs, List.mem_append, List.mem_singleton] at ha
    rw [List.mem_cons, List.mem_append]
    tauto
  constructor
  · refine isChain_linked_congr hl (fun a ha ↦ ?_) fun a ha ↦ ?_
    · rw [List.dropLast_concat] at ha
      refine hnext a ?_ ?_
      · rw [← List.cons_append, has]
        exact List.mem_append_left _ (List.mem_append_left _ ha)
      · rintro rfl
        exact (List.nodup_append.mp (List.nodup_append.mp hstarts).1).2.2 a ha a
          (List.mem_singleton_self a) rfl
    · rw [← has, List.tail_cons] at ha
      refine hprev a (hmem a (.inl ha)) ?_
      rintro rfl
      exact (List.nodup_append.mp hends).2.2 a ha a List.mem_cons_self rfl
  · refine isChain_linked_congr hr (fun a ha ↦ ?_) fun a ha ↦ ?_
    · rw [← hbs, List.dropLast_concat] at ha
      refine hnext a (List.mem_cons_of_mem _ (List.mem_append_right _ ha)) ?_
      rintro rfl
      exact (List.nodup_append.mp hstarts).2.2 a
        (List.mem_append_right _ (List.mem_singleton_self a)) a ha rfl
    · rw [List.tail_cons] at ha
      refine hprev a (hmem a (.inr (List.mem_cons_of_mem _ ha))) ?_
      rintro rfl
      exact (List.nodup_cons.mp (List.nodup_append.mp hends).2.1).1 ha

theorem splice (hr : h.Ring root (as ++ bs)) (hx : x ∉ root :: (as ++ bs))
    (hpx : h'.Linked (left root as) x) (hxq : h'.Linked x (right root bs))
    (hnext : ∀ a ∈ root :: (as ++ bs), a ≠ left root as → h'.next a = h.next a)
    (hprev : ∀ a ∈ root :: (as ++ bs), a ≠ right root bs → h'.prev a = h.prev a) :
    h'.Ring root (as ++ x :: bs) := by
  obtain ⟨l, r, has, hbs⟩ := exists_cut root as bs
  obtain ⟨hl, -, hq⟩ := (isChain_walk_iff has hbs).mp hr.chain
  obtain ⟨hl', hq'⟩ := halves hr.nodup has hbs hnext hprev hl hq
  refine ⟨?_, ?_⟩
  · rw [← List.cons_append, List.nodup_middle, List.cons_append, List.nodup_cons]
    exact ⟨hx, hr.nodup⟩
  · have hxbs : x :: bs ++ [root] = x :: (right root bs :: r) := by rw [List.cons_append, hbs]
    rw [isChain_walk_iff has hxbs, List.isChain_cons_cons]
    exact ⟨hl', hpx, hxq, hq'⟩

theorem unsplice (hr : h.Ring root (as ++ x :: bs))
    (hpq : h'.Linked (left root as) (right root bs))
    (hnext : ∀ a ∈ root :: (as ++ bs), a ≠ left root as → h'.next a = h.next a)
    (hprev : ∀ a ∈ root :: (as ++ bs), a ≠ right root bs → h'.prev a = h.prev a) :
    h'.Ring root (as ++ bs) := by
  obtain ⟨l, r, has, hbs⟩ := exists_cut root as bs
  have hxbs : x :: bs ++ [root] = x :: (right root bs :: r) := by rw [List.cons_append, hbs]
  obtain ⟨hl, -, hxq⟩ := (isChain_walk_iff has hxbs).mp hr.chain
  have hnodup : (root :: (as ++ bs)).Nodup := by
    refine hr.nodup.sublist (List.Sublist.cons_cons root ?_)
    exact List.Sublist.append_left (List.sublist_cons_self x bs) as
  obtain ⟨hl', hq'⟩ := halves hnodup has hbs hnext hprev hl hxq.tail
  exact ⟨hnodup, (isChain_walk_iff has hbs).mpr ⟨hl', hpq, hq'⟩⟩

theorem update (hr : h.Ring root nodes) (hx : x ∉ root :: nodes) (c : Option (Cell P)) :
    Ring (Function.update h x c) root nodes := by
  have hne : ∀ a ∈ root :: nodes, Function.update h x c a = h a := by
    intro a ha
    have hax : a ≠ x := by
      rintro rfl
      exact hx ha
    rw [Function.update_of_ne hax]
  refine hr.congr (fun a ha ↦ ?_) fun a ha ↦ ?_
  · rw [next, next, hne a ha]
  · rw [prev, prev, hne a ha]

/-! ## Following `next`

A walk along `next` from the root visits the nodes in their order and is then back. So the nodes are
determined by the heap and the root, and a walk that does not stop at the root goes round. -/

theorem nodes_unique {nodes' : List Address} (hr : h.Ring root nodes) (hr' : h.Ring root nodes') :
    nodes = nodes' := by
  have hwalk : ∀ (xs ys : List Address) (a : Address), root ∉ xs → root ∉ ys →
      (a :: (xs ++ [root])).IsChain h.Linked → (a :: (ys ++ [root])).IsChain h.Linked →
      xs = ys := by
    intro xs
    induction xs with
    | nil =>
      rintro (- | ⟨y, ys⟩) a _ hys hx hy
      · rfl
      · rw [List.nil_append, List.isChain_pair] at hx
        rw [List.cons_append, List.isChain_cons_cons] at hy
        have hroot : root = y := Option.some_inj.mp (hx.1.symm.trans hy.1.1)
        exact absurd (hroot ▸ List.mem_cons_self) hys
    | cons x xs ih =>
      rintro (- | ⟨y, ys⟩) a hxs hys hx hy <;>
        rw [List.cons_append, List.isChain_cons_cons] at hx
      · rw [List.nil_append, List.isChain_pair] at hy
        have hroot : root = x := Option.some_inj.mp (hy.1.symm.trans hx.1.1)
        exact absurd (hroot ▸ List.mem_cons_self) hxs
      · rw [List.cons_append, List.isChain_cons_cons] at hy
        obtain rfl : x = y := Option.some_inj.mp (hx.1.1.symm.trans hy.1.1)
        rw [ih ys x (List.not_mem_of_not_mem_cons hxs) (List.not_mem_of_not_mem_cons hys) hx.2 hy.2]
  exact hwalk nodes nodes' root (List.nodup_cons.mp hr.nodup).1 (List.nodup_cons.mp hr'.nodup).1
    hr.chain hr'.chain

theorem mem_of_reaches (hr : h.Ring root nodes) {a : Address} (ha : h.Reaches root a) :
    a ∈ root :: nodes := by
  induction ha with
  | refl => exact List.mem_cons_self
  | @tail a b _ hab ih =>
    obtain ⟨as, bs, rfl, rfl⟩ : ∃ as bs, nodes = as ++ bs ∧ left root as = a := by
      rcases List.mem_cons.mp ih with rfl | ha
      · exact ⟨[], nodes, rfl, rfl⟩
      · obtain ⟨as, bs, rfl⟩ := List.append_of_mem ha
        exact ⟨as ++ [a], bs, by rw [List.append_assoc, List.singleton_append], left_concat⟩
    obtain rfl : right root bs = b := Option.some_inj.mp (hr.linked.1.symm.trans hab)
    exact right_mem root as bs

theorem reaches_of_mem (hr : h.Ring root nodes) {a : Address} (ha : a ∈ root :: nodes) :
    h.Reaches root a := by
  have hwalk : ∀ (xs : List Address) (a b : Address), (a :: (xs ++ [root])).IsChain h.Linked →
      b ∈ a :: xs → h.Reaches a b := by
    intro xs
    induction xs with
    | nil =>
      intro a b _ hb
      rw [List.mem_singleton.mp hb]
      exact Relation.ReflTransGen.refl
    | cons x xs ih =>
      intro a b hchain hb
      rw [List.cons_append, List.isChain_cons_cons] at hchain
      rcases List.mem_cons.mp hb with rfl | hb
      · exact Relation.ReflTransGen.refl
      · exact (ih x b hchain.2 hb).head hchain.1.1
  exact hwalk nodes root a hr.chain ha

end Ring

end Heap

end CppRepo
