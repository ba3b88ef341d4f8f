import CppRepo.Buffers.Runs

/-!
# The life of a container

A container is constructed, its members are called, and it is destroyed. Every node is made by a
member and deleted by a member or by the destructor. What was made and what was deleted is kept in a
ledger beside the heap: a node has its number in the order of creation, since an address may be
given out again after a deletion. The programs of this file are those of the container with the
ledger written where a node is made and where one is deleted.

On the heap, reading or deleting what is not live is undefined behaviour, and so is deleting a plain
`list_base` such as `_root`. A life without undefined behaviour therefore reads no deleted node and
does not delete the root; what is left to show is that the ledger is balanced at its end.

## How the two are compared

`Erases` says that a program with the ledger, run on a heap and a ledger, does to the heap what the
program without it does. It is proved for `newNode` and `deleteNode` and carried through the
members, which are put together from these two in the same way. So what was proved of the members is
used here, and only the ledger is followed again.
-/

namespace CppRepo

variable {T : Type}

/-! ## The ledger

A ledger is balanced if the nodes that were made and not deleted are those of the elements, in
order, and each number was deleted once at most. Making a node and deleting one keep that, given
that the element comes or goes at the same time. -/

/-- The nodes that were made and those that were deleted. -/
structure Ledger where
  /-- The addresses of the nodes in the order of their creation; a node is numbered by its place. -/
  created : List Address
  /-- The number of the node that was last made at an address. -/
  number : Address → ℕ
  /-- The deleted nodes, each with its address. -/
  deleted : List (Address × ℕ)

namespace Ledger

/-- Nothing has been made. -/
def empty : Ledger := ⟨[], fun _ ↦ 0, []⟩

/-- A node is made. -/
def create (a : Address) (L : Ledger) : Ledger :=
  { L with created := L.created ++ [a], number := Function.update L.number a L.created.length }

/-- A node is deleted. -/
def delete (a : Address) (L : Ledger) : Ledger :=
  { L with deleted := L.deleted ++ [(a, L.number a)] }

/-- The nodes of these elements. -/
def nodes (L : Ledger) (items : List (Address × T)) : List (Address × ℕ) :=
  items.map fun i ↦ (i.1, L.number i.1)

/-- The nodes that were made are those that were deleted and those of the elements, each once, and
none of them was at the address of the root. -/
structure Balanced (root : Address) (items : List (Address × T)) (L : Ledger) : Prop where
  perm : (L.deleted ++ L.nodes items).Perm L.created.zipIdx
  root_notMem : root ∉ L.created

variable {L : Ledger} {root item : Address} {items pre post : List (Address × T)}

private theorem balanced_empty : (empty).Balanced root ([] : List (Address × T)) :=
  ⟨List.Perm.refl _, List.not_mem_nil⟩

private theorem nodes_create (hitem : item ∉ ownCells root items) :
    (L.create item).nodes items = L.nodes items := by
  refine List.map_congr_left fun i hi ↦ ?_
  have hne : i.1 ≠ item := fun heq ↦
    hitem (heq ▸ List.mem_cons_of_mem _ (List.mem_map_of_mem hi))
  have hnumber : (L.create item).number i.1 = L.number i.1 := Function.update_of_ne hne _ _
  rw [hnumber]

/-- A node is made for a new element. -/
theorem Balanced.create (hL : L.Balanced root (pre ++ post))
    (hitem : item ∉ ownCells root (pre ++ post)) (val : T) :
    (L.create item).Balanced root (pre ++ (item, val) :: post) := by
  have hcreated :
      (L.create item).created.zipIdx = L.created.zipIdx ++ [(item, L.created.length)] := by
    rw [Ledger.create, List.zipIdx_append]
    simp
  have hnumber : (L.create item).number item = L.created.length := Function.update_self _ _ _
  have hpre : (L.create item).nodes (pre ++ (item, val) :: post)
      = (L.create item).nodes pre ++ (item, L.created.length) :: (L.create item).nodes post := by
    rw [nodes, nodes, nodes, List.map_append, List.map_cons, hnumber]
  have hold : L.nodes (pre ++ post) = (L.create item).nodes pre ++ (L.create item).nodes post := by
    rw [← nodes_create hitem, nodes, nodes, nodes, List.map_append]
  refine ⟨?_, ?_⟩
  · rw [hcreated, hpre]
    have hdeleted : (L.create item).deleted = L.deleted := rfl
    rw [hdeleted]
    calc (L.deleted ++ ((L.create item).nodes pre
            ++ (item, L.created.length) :: (L.create item).nodes post)).Perm
          (L.deleted ++ ((item, L.created.length) :: ((L.create item).nodes pre
            ++ (L.create item).nodes post))) := List.Perm.append_left _ List.perm_middle
      _ = L.deleted ++ ((item, L.created.length) :: L.nodes (pre ++ post)) := by rw [hold]
      _ |>.Perm ((item, L.created.length) :: (L.deleted ++ L.nodes (pre ++ post))) :=
        List.perm_middle
      _ |>.Perm ((L.deleted ++ L.nodes (pre ++ post)) ++ [(item, L.created.length)]) :=
        (List.perm_append_singleton _ _).symm
      _ |>.Perm (L.created.zipIdx ++ [(item, L.created.length)]) := hL.perm.append_right _
  · rw [Ledger.create, List.mem_append, List.mem_singleton]
    rintro (hroot | rfl)
    · exact hL.root_notMem hroot
    · exact hitem List.mem_cons_self

/-- The node of an element is deleted. -/
theorem Balanced.delete {i : Address × T} (hL : L.Balanced root (pre ++ i :: post)) :
    (L.delete i.1).Balanced root (pre ++ post) := by
  refine ⟨?_, hL.root_notMem⟩
  have hnodes : (L.delete i.1).nodes (pre ++ post) = L.nodes pre ++ L.nodes post := by
    rw [nodes, nodes, nodes, List.map_append]
    rfl
  have hall : L.nodes (pre ++ i :: post) = L.nodes pre ++ (i.1, L.number i.1) :: L.nodes post := by
    rw [nodes, nodes, nodes, List.map_append, List.map_cons]
  have hcreated : (L.delete i.1).created = L.created := rfl
  have hdeleted : (L.delete i.1).deleted = L.deleted ++ [(i.1, L.number i.1)] := rfl
  rw [hnodes, hcreated, hdeleted, List.append_assoc, List.singleton_append]
  refine List.Perm.trans (List.Perm.append_left _ List.perm_middle.symm) ?_
  rw [← hall]
  exact hL.perm

end Ledger

/-! ## The programs with the ledger

These definitions repeat the programs of the container word for word, with the two tracked programs
in the place of `newNode` and `deleteNode`. -/

/-- A program on the lists and the ledger. -/
abbrev TrackedM (T α : Type) := EStateM (Fault CutOff) (Heap (Option T) × Ledger) α

namespace Tracked

open Buffers

def newNode (item : Address) (val : T) : TrackedM T Unit := do
  besideGhost (CppRepo.newNode item val)
  onGhost (Ledger.create item)

def deleteNode (a : Address) : TrackedM T Unit := do
  besideGhost (CppRepo.deleteNode a)
  onGhost (Ledger.delete a)

def pushBack (root item : Address) (val : T) : TrackedM T Unit := do
  newNode item val
  besideGhost (ListBase.insert root item)

def pushFront (root item : Address) (val : T) : TrackedM T Unit := do
  newNode item val
  let first ← besideGhost (beginIterator root)
  besideGhost (ListBase.insert first.cur item)

def insert (item : Address) (pos : BuffersIterator) (val : T) : TrackedM T BuffersIterator := do
  newNode item val
  besideGhost (ListBase.insert pos.cur item)
  return ⟨← besideGhost (readPrev pos.cur)⟩

def eraseNode (pos : BuffersIterator) : TrackedM T Unit := do
  besideGhost (ListBase.unlink pos.cur)
  deleteNode pos.cur

def erase (pos : BuffersIterator) : TrackedM T BuffersIterator := do
  let tmp := pos
  let pos ← besideGhost pos.incr
  eraseNode tmp
  return pos

def popBack (root : Address) : TrackedM T Unit := do
  if (← besideGhost (readPrev root)) = root then
    return
  else
    eraseNode ⟨← besideGhost (readPrev root)⟩

def popFront (root : Address) : TrackedM T Unit := do
  if (← besideGhost (readNext root)) = root then
    return
  else
    eraseNode ⟨← besideGhost (readNext root)⟩

def destroyLoop (root : Address) : ℕ → Address → Address → TrackedM T Unit
  | 0, head, _ => if head = root then return else throw (.thrown .cutOff)
  | rounds + 1, head, t => do
    if head = root then
      return
    else
      let head ← besideGhost (readNext t)
      deleteNode t
      destroyLoop root rounds head head

def destroy (rounds : ℕ) (root : Address) : TrackedM T Unit := do
  let head ← besideGhost (readNext root)
  let t ← besideGhost (readNext root)
  destroyLoop root rounds head t
  besideGhost (release root)

def call (root : Address) : Op T → TrackedM T (Option BuffersIterator)
  | .pushBack item val => do pushBack root item val; return none
  | .pushFront item val => do pushFront root item val; return none
  | .insert item pos val => some <$> insert item pos val
  | .erase pos => some <$> erase pos
  | .popBack => do popBack root; return none
  | .popFront => do popFront root; return none

/-- The calls of a life. -/
def calls (root : Address) : List (Op T) → TrackedM T Unit
  | [] => return
  | op :: ops => do
    let _ ← call root op
    calls root ops

/-- The whole life of a container. -/
def life (rounds : ℕ) (root : Address) (ops : List (Op T)) : TrackedM T Unit := do
  besideGhost (construct root)
  calls root ops
  destroy rounds root

/-! ## Without the ledger they are the programs of the container

The proof of each follows the shape of the program: a bind of two programs erases to the bind of
what they erase to. -/

private theorem erases_newNode (item : Address) (val : T) :
    Erases (newNode item val) (CppRepo.newNode item val) := (erases_besideGhost _).onGhost _

private theorem erases_deleteNode (a : Address) :
    Erases (deleteNode (T := T) a) (CppRepo.deleteNode a) := (erases_besideGhost _).onGhost _

private theorem erases_eraseNode (pos : BuffersIterator) :
    Erases (eraseNode (T := T) pos) (Buffers.eraseNode pos) :=
  (erases_besideGhost _).bind fun _ ↦ erases_deleteNode pos.cur

theorem erases_call (root : Address) (op : Op T) :
    Erases (call root op) (Buffers.call root op) := by
  match op with
  | .pushBack item val =>
    refine Erases.bind ?_ fun _ ↦ erases_pure none
    exact (erases_newNode item val).bind fun _ ↦ erases_besideGhost _
  | .pushFront item val =>
    refine Erases.bind ?_ fun _ ↦ erases_pure none
    exact (erases_newNode item val).bind fun _ ↦ (erases_besideGhost _).bind fun first ↦
      erases_besideGhost (ListBase.insert first.cur item)
  | .insert item pos val =>
    refine Erases.map ?_ some
    exact (erases_newNode item val).bind fun _ ↦ (erases_besideGhost _).bind fun _ ↦
      (erases_besideGhost _).bind fun _ ↦ erases_pure _
  | .erase pos =>
    refine Erases.map ?_ some
    exact (erases_besideGhost _).bind fun next ↦ (erases_eraseNode pos).bind fun _ ↦
      erases_pure next
  | .popBack =>
    refine Erases.bind ?_ fun _ ↦ erases_pure none
    exact (erases_besideGhost _).bind fun _ ↦ (erases_pure ()).ite
      ((erases_besideGhost _).bind fun last ↦ erases_eraseNode ⟨last⟩)
  | .popFront =>
    refine Erases.bind ?_ fun _ ↦ erases_pure none
    exact (erases_besideGhost _).bind fun _ ↦ (erases_pure ()).ite
      ((erases_besideGhost _).bind fun first ↦ erases_eraseNode ⟨first⟩)

private theorem erases_destroyLoop (root : Address) (rounds : ℕ) (head t : Address) :
    Erases (destroyLoop (T := T) root rounds head t) (Buffers.destroyLoop root rounds head t) := by
  induction rounds generalizing head t with
  | zero => exact (erases_pure ()).ite (erases_throw _)
  | succ rounds ih =>
    exact (erases_pure ()).ite ((erases_besideGhost _).bind fun head ↦
      (erases_deleteNode t).bind fun _ ↦ ih head head)

theorem erases_destroy (rounds : ℕ) (root : Address) :
    Erases (destroy (T := T) rounds root) (Buffers.destroy rounds root) :=
  (erases_besideGhost _).bind fun head ↦ (erases_besideGhost _).bind fun t ↦
    (erases_destroyLoop root rounds head t).bind fun _ ↦ erases_besideGhost _

end Tracked

/-! ## What a life leaves in the ledger

A call keeps the heap's contents by `call_spec` and the ledger's balance by the members' use of the
two tracked programs. The destructor deletes the nodes from the first to the last; when it ends
nothing is left, and balance says that each node was deleted once. -/

section Life

open Buffers

variable {h h₀ h₁ : Heap (Option T)} {L : Ledger} {root item : Address}
  {items pre post : List (Address × T)} {op : Op T} {ops : List (Op T)}

private theorem ensures_newNode_ledger {α : Type} {val : T} {k : Unit → TrackedM T α}
    {Q : α → Heap (Option T) × Ledger → Prop}
    (hk : ∀ h₁, Ensures (k ⟨⟩) (h₁, L.create item) Q fun _ _ ↦ True) :
    Ensures (Tracked.newNode item val >>= k) (h, L) Q fun _ _ ↦ True := by
  rw [ensures_bind, Tracked.newNode, ensures_bind, ensures_besideGhost]
  exact Ensures.of_forall (fun _ h₁ ↦ hk h₁) fun _ _ ↦ trivial

private theorem ensures_eraseNode_ledger {i : Address × T}
    (hL : L.Balanced root (pre ++ i :: post)) :
    Ensures (Tracked.eraseNode ⟨i.1⟩ : TrackedM T Unit) (h, L)
      (fun _ s ↦ s.2.Balanced root (pre ++ post)) fun _ _ ↦ True := by
  rw [Tracked.eraseNode, ensures_bind, ensures_besideGhost]
  refine Ensures.of_forall (fun _ h₁ ↦ ?_) fun _ _ ↦ trivial
  rw [Tracked.deleteNode, ensures_bind, ensures_besideGhost]
  exact Ensures.of_forall (fun _ _ ↦ hL.delete) fun _ _ ↦ trivial

private theorem call_ledger (hh : Holds h root items) (hvalid : ValidOp root h op)
    (hL : L.Balanced root items) :
    Ensures (Tracked.call root op) (h, L) (fun _ s ↦ s.2.Balanced root (op.onItems items))
      fun _ _ ↦ True := by
  match op with
  | .pushBack item val =>
    have hout := hh.not_mem_of_not_live hvalid
    rw [← List.append_nil items] at hL hout
    have hnew := hL.create hout val
    rw [Tracked.call, ensures_bind, Tracked.pushBack]
    refine ensures_newNode_ledger fun h₁ ↦ ensures_besideGhost.mpr ?_
    exact Ensures.of_forall (fun _ _ ↦ hnew) fun _ _ ↦ trivial
  | .pushFront item val =>
    have hout := hh.not_mem_of_not_live hvalid
    rw [← List.nil_append items] at hL hout
    have hnew := hL.create hout val
    rw [Tracked.call, ensures_bind, Tracked.pushFront]
    refine ensures_newNode_ledger fun h₁ ↦ ?_
    rw [ensures_bind, ensures_besideGhost]
    refine Ensures.of_forall (fun first h₂ ↦ ensures_besideGhost.mpr ?_) fun _ _ ↦ trivial
    exact Ensures.of_forall (fun _ _ ↦ hnew) fun _ _ ↦ trivial
  | .insert item pos val =>
    obtain ⟨hitem, hpos⟩ := hvalid
    obtain ⟨pre, post, rfl, -, hidx⟩ := hh.exists_split hpos
    have hnew := hL.create (hh.not_mem_of_not_live hitem) val
    rw [Tracked.call, ensures_map, Tracked.insert, Op.onItems, indexOf, hidx,
      insertIdx_length_append]
    refine ensures_newNode_ledger fun h₁ ↦ ?_
    rw [ensures_bind, ensures_besideGhost]
    refine Ensures.of_forall (fun _ h₂ ↦ ?_) fun _ _ ↦ trivial
    rw [ensures_bind, ensures_besideGhost]
    exact Ensures.of_forall (fun _ _ ↦ hnew) fun _ _ ↦ trivial
  | .erase pos =>
    obtain ⟨hpos, hend⟩ := hvalid
    obtain ⟨pre, post, rfl, hcur, hidx⟩ := hh.exists_split hpos
    rcases post with - | ⟨i, post⟩
    · exact absurd (congrArg BuffersIterator.mk hcur) hend
    obtain rfl : pos = ⟨i.1⟩ := congrArg BuffersIterator.mk hcur
    rw [Tracked.call, ensures_map, Tracked.erase, ensures_bind, ensures_besideGhost, Op.onItems,
      indexOf, hidx, eraseIdx_length_append]
    refine Ensures.of_forall (fun next h₁ ↦ ?_) fun _ _ ↦ trivial
    exact ensures_bind.mpr (ensures_eraseNode_ledger hL)
  | .popBack =>
    rw [Tracked.call, ensures_bind, Tracked.popBack, ensures_bind, ensures_besideGhost]
    rcases List.eq_nil_or_concat' items with rfl | ⟨pre, i, rfl⟩
    · have hlink : h.Linked root root := Heap.Ring.nil_iff.mp hh.ring
      rw [ensures_readPrev hlink.2, if_pos rfl]
      exact hL
    · have hlast : h.prev root = some i.1 := hh.linked_element.2
      have hne : i.1 ≠ root := hh.root_ne (List.mem_append_right _ List.mem_cons_self)
      rw [ensures_readPrev hlast, if_neg hne, ensures_bind, ensures_besideGhost,
        ensures_readPrev hlast, Op.onItems, List.dropLast_concat, ← List.append_nil pre]
      exact ensures_eraseNode_ledger hL
  | .popFront =>
    rw [Tracked.call, ensures_bind, Tracked.popFront, ensures_bind, ensures_besideGhost]
    rcases items with - | ⟨i, items⟩
    · have hlink : h.Linked root root := Heap.Ring.nil_iff.mp hh.ring
      rw [ensures_readNext hlink.1, if_pos rfl]
      exact hL
    · have hne : positionOf root (i :: items) ≠ root := hh.root_ne List.mem_cons_self
      rw [ensures_readNext hh.next_root, if_neg hne, ensures_bind, ensures_besideGhost,
        ensures_readNext hh.next_root, Op.onItems, List.tail_cons, ← List.nil_append items]
      exact ensures_eraseNode_ledger hL

private theorem call_tracked (hh : Holds h root items) (hvalid : ValidOp root h op)
    (hL : L.Balanced root items) :
    ∃ reply h' L', Tracked.call root op (h, L) = .ok reply (h', L') ∧
      call root op h = .ok reply h' ∧ Holds h' root (op.onItems items) ∧
      L'.Balanced root (op.onItems items) := by
  obtain ⟨reply, h', hok, -, hh', -⟩ := (call_spec hh hvalid).exists_ok
  obtain ⟨L', hok'⟩ := (Tracked.erases_call root op).exists_ok (s := (h, L)) hok
  exact ⟨reply, h', L', hok', hok, hh', (call_ledger hh hvalid hL).of_ok hok'⟩

private theorem calls_tracked (hh : Holds h root items) (hvalid : ValidRun root h ops)
    (hL : L.Balanced root items) :
    ∃ h' L', Tracked.calls root ops (h, L) = .ok ⟨⟩ (h', L') ∧
      Holds h' root (run (listStep root) items ops).2 ∧
      L'.Balanced root (run (listStep root) items ops).2 := by
  induction ops generalizing h L items with
  | nil => exact ⟨h, L, rfl, hh, hL⟩
  | cons op ops ih =>
    obtain ⟨hop, hops⟩ := hvalid
    obtain ⟨reply, h₁, L₁, hok, hcall, hh₁, hL₁⟩ := call_tracked hh hop hL
    rw [after_of_ok hcall] at hops
    obtain ⟨h', L', hok', hh', hL'⟩ := ih hh₁ hops hL₁
    refine ⟨h', L', ?_, hh', hL'⟩
    rw [Tracked.calls, bind_of_ok hok]
    exact hok'

private theorem Holds.ensures_destroyLoop_ledger (hh : Holds h₁ root (pre ++ post))
    (hsame : ∀ a ∈ post.map Prod.fst, h a = h₁ a) (hL : L.Balanced root post) (rounds : ℕ) :
    Ensures (Tracked.destroyLoop root rounds (positionOf root post) (positionOf root post)) (h, L)
      (fun _ s ↦ post.length ≤ rounds ∧ s.2.Balanced root ([] : List (Address × T)) ∧
        s.1 root = h root)
      fun e _ ↦ rounds < post.length ∧ e = .thrown .cutOff := by
  induction post generalizing pre rounds h L with
  | nil =>
    have hend : positionOf root ([] : List (Address × T)) = root := rfl
    rcases rounds with - | rounds <;> rw [Tracked.destroyLoop, if_pos hend] <;>
      exact ⟨Nat.zero_le _, hL, rfl⟩
  | cons i post ih =>
    have hi : i ∈ pre ++ i :: post := List.mem_append_right _ List.mem_cons_self
    have hpre : Holds h₁ root (pre ++ [i] ++ post) := by
      rwa [List.append_assoc, List.singleton_append]
    have hcell : h i.1 = h₁ i.1 := hsame i.1 List.mem_cons_self
    have hnext : h.next i.1 = some (positionOf root post) := by
      rw [Heap.next, hcell]
      exact hh.linked_element.1
    have hele : h.content i.1 = some (some i.2) := by
      rw [Heap.content, hcell]
      exact hh.element i hi
    have hout : i.1 ∉ post.map Prod.fst := by
      have hnodup := (List.nodup_cons.mp hh.ring.nodup).2
      rw [List.map_append, List.map_cons] at hnodup
      exact (List.nodup_cons.mp (List.nodup_append.mp hnodup).2.1).1
    have hne : positionOf root (i :: post) ≠ root := hh.root_ne hi
    have hposition : positionOf root (i :: post) = i.1 := rfl
    rcases rounds with - | rounds
    · rw [Tracked.destroyLoop, if_neg hne]
      exact ⟨Nat.zero_lt_succ _, rfl⟩
    rw [Tracked.destroyLoop, if_neg hne, hposition, ensures_bind, ensures_besideGhost,
      ensures_readNext hnext, ensures_bind, Tracked.deleteNode, ensures_bind, ensures_besideGhost,
      ensures_deleteNode hele, ensures_onGhost]
    have hrest : ∀ a ∈ post.map Prod.fst, Function.update h i.1 none a = h₁ a := by
      intro a ha
      rw [Function.update_of_ne fun heq ↦ hout (by rwa [heq] at ha)]
      exact hsame a (List.mem_cons_of_mem _ ha)
    have hL' : (L.delete i.1).Balanced root ([] ++ post) := Ledger.Balanced.delete hL
    refine (ih hpre hrest hL' rounds).mono ?_ ?_
    · rintro - s ⟨hrounds, hbalanced, hroot⟩
      refine ⟨Nat.succ_le_succ hrounds, hbalanced, hroot.trans ?_⟩
      exact Function.update_of_ne (hh.root_ne hi).symm _ _
    · rintro e - ⟨hrounds, rfl⟩
      exact ⟨Nat.succ_lt_succ hrounds, rfl⟩

/-- **The life of a container.** A life of valid calls is cut off only if the loop of the destructor
is given fewer rounds than there are elements left. Otherwise it ends, and then every node that was
made has been deleted once, and none of them is `_root`. -/
theorem life_balanced (hroot : ¬ h₀.Live root)
    (hvalid : ValidRun root (after (construct root) h₀) ops) (rounds : ℕ) :
    Ensures (Tracked.life rounds root ops) (h₀, .empty)
      (fun _ s ↦ (run (listStep root) [] ops).2.length ≤ rounds ∧
        s.2.deleted.Perm s.2.created.zipIdx ∧ root ∉ s.2.created)
      fun e _ ↦ rounds < (run (listStep root) [] ops).2.length ∧ e = .thrown .cutOff := by
  obtain ⟨⟨⟩, h₁, hok, hh₁, -⟩ := (construct_spec hroot).exists_ok
  rw [after_of_ok hok] at hvalid
  obtain ⟨h₂, L₂, hcalls, hh₂, hL₂⟩ := calls_tracked hh₁ hvalid Ledger.balanced_empty
  have hconstruct : besideGhost (construct root) (h₀, Ledger.empty) = .ok ⟨⟩ (h₁, .empty) := by
    rw [besideGhost, zoom, hok]
  have hh₂' : Holds h₂ root ([] ++ (run (listStep root) [] ops).2) := hh₂
  rw [Ensures, Tracked.life, bind_of_ok hconstruct, bind_of_ok hcalls, ← Ensures,
    Tracked.destroy, ensures_bind, ensures_besideGhost, ensures_readNext hh₂.next_root,
    ensures_bind, ensures_besideGhost, ensures_readNext hh₂.next_root, ensures_bind]
  refine (hh₂'.ensures_destroyLoop_ledger (fun _ _ ↦ rfl) hL₂ rounds).mono ?_ fun _ _ ↦ id
  rintro - s ⟨hrounds, hbalanced, hcell⟩
  have hlive : s.1.Live root := by
    rw [Heap.Live, hcell]
    exact hh₂.live List.mem_cons_self
  have hperm := hbalanced.perm
  rw [Ledger.nodes, List.map_nil, List.append_nil] at hperm
  exact ensures_besideGhost.mpr ((ensures_release hlive).mpr
    ⟨hrounds, hperm, hbalanced.root_notMem⟩)

/-- Two nodes, of which one is erased and one left to the destructor. -/
theorem life_balanced_two :
    ∃ s, Tracked.life 1 0 [.pushBack 1 'a', .insert 2 ⟨0⟩ 'b', .erase ⟨1⟩]
        ((fun _ ↦ none : Heap (Option Char)), .empty) = .ok ⟨⟩ s ∧
      s.2.deleted.Perm s.2.created.zipIdx := by
  have hfree : ¬ Heap.Live (fun _ ↦ none : Heap (Option Char)) 0 := by decide
  have hlife := life_balanced hfree validRun_letters 1
  rw [Ensures] at hlife
  split at hlife
  case h_1 s heq => exact ⟨s, heq, hlife.2.1⟩
  case h_2 => exact absurd hlife.1 (by decide)

end Life

end CppRepo
