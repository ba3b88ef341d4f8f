import CppRepo.Library.Ring

/-!
# The list of buffers

`buffers<T>` is a doubly linked list. A `list_base` has the two links; a `Node<T>` is a `list_base`
with an element, and `_root`, a plain `list_base` inside the container, closes the list to a ring.
On the heap of the model a cell is a `list_base` and its content the element of a `Node<T>`, which a
plain `list_base` does not have.

The members follow the source statement by statement, each pointer written where the source writes
it. A container is given by the address of its `_root`. The address of a new node is the allocator's
choice and an argument here. Dereferencing an iterator that does not point to a `Node<T>`, and
deleting what `new` did not make, is undefined behaviour. `iterator` and `const_iterator` both hold
one pointer and are one type.
-/

namespace CppRepo

/-- A program on the lists of one element type. -/
abbrev BuffersM (T α : Type) := HeapM (Option T) α

/-! ## `list_base`

Linking and unlinking write four pointers each. They are written one at a time, in the order of the
source, so that what a pointer leads to may have been changed by the statement before. -/

namespace ListBase

variable {T : Type}

/-- `insert(e)`: `e` goes before `this`. -/
def insert (this e : Address) : BuffersM T Unit := do
  writeNext e this
  writePrev e (← readPrev this)
  writeNext (← readPrev this) e
  writePrev this e

/-- `unlink()`. -/
def unlink (this : Address) : BuffersM T Unit := do
  -- `next->prev = prev; next->prev->next = next;`
  writePrev (← readNext this) (← readPrev this)
  writeNext (← readPrev (← readNext this)) (← readNext this)
  writeNext this this
  writePrev this this

end ListBase

/-! ## Nodes and iterators

A node is allocated with both links leading to itself, as its constructor leaves it. An iterator is
a pointer; only dereferencing it asks what it points to. -/

section Nodes

variable {T : Type}

/-- `new _Node(val)`. -/
def newNode (item : Address) (val : T) : BuffersM T Unit := allocate item ⟨item, item, some val⟩

/-- `delete`, through a pointer to `list_base`. -/
def deleteNode (a : Address) : BuffersM T Unit := do
  match (← read a).content with
  | some _ => release a
  | none => throw .undefinedBehaviour

/-- `buffers_iterator`. -/
structure BuffersIterator where
  cur : Address
  deriving DecidableEq, Repr

namespace BuffersIterator

/-- `operator*`. -/
def deref (it : BuffersIterator) : BuffersM T T := do
  match (← read it.cur).content with
  | some ele => return ele
  | none => throw .undefinedBehaviour

/-- The prefix `operator++`. -/
def incr (it : BuffersIterator) : BuffersM T BuffersIterator := do
  return ⟨← readNext it.cur⟩

end BuffersIterator

end Nodes

/-! ## `buffers`

The loop of the destructor has fuel, because on a heap that is not a ring nothing says that it comes
back to `_root`. Fewer rounds than there are nodes cut it off, which is no error of the source and
is told apart from one. -/

namespace Buffers

variable {T : Type}

/-- The default constructor. -/
def construct (root : Address) : BuffersM T Unit := do
  -- `list_base()` of the member
  allocate root ⟨root, root, none⟩
  writeNext root root
  writePrev root root

/-- `buffers(buffers&& other)`. -/
def moveConstruct (root other : Address) : BuffersM T Unit := do
  allocate root ⟨root, root, none⟩
  let next ← readNext other
  writeNext root (if next = other then root else next)
  let prev ← readPrev other
  writePrev root (if prev = other then root else prev)
  writeNext other other
  writePrev other other

/-- `begin()`. -/
def beginIterator (root : Address) : BuffersM T BuffersIterator := do
  return ⟨← readNext root⟩

/-- `end()`. -/
def endIterator (root : Address) : BuffersIterator := ⟨root⟩

/-- `back()`. -/
def back (root : Address) : BuffersM T BuffersIterator := do
  return ⟨← readPrev root⟩

/-- `empty()`. -/
def empty (root : Address) : BuffersM T Bool := do
  return (← readNext root) = root

/-- `push_back(val)`. -/
def pushBack (root item : Address) (val : T) : BuffersM T Unit := do
  newNode item val
  ListBase.insert root item

/-- `push_front(val)`. -/
def pushFront (root item : Address) (val : T) : BuffersM T Unit := do
  newNode item val
  let first ← beginIterator root
  ListBase.insert first.cur item

/-- `insert(pos, _val)`. -/
def insert (item : Address) (pos : BuffersIterator) (val : T) : BuffersM T BuffersIterator := do
  newNode item val
  ListBase.insert pos.cur item
  return ⟨← readPrev pos.cur⟩

/-- `_erase(pos)`. -/
def eraseNode (pos : BuffersIterator) : BuffersM T Unit := do
  ListBase.unlink pos.cur
  deleteNode pos.cur

/-- `erase(pos)`. -/
def erase (pos : BuffersIterator) : BuffersM T BuffersIterator := do
  let tmp := pos
  let pos ← pos.incr
  eraseNode tmp
  return pos

/-- `pop_back()`. -/
def popBack (root : Address) : BuffersM T Unit := do
  if (← readPrev root) = root then
    return
  else
    eraseNode ⟨← readPrev root⟩

/-- `pop_front()`. -/
def popFront (root : Address) : BuffersM T Unit := do
  if (← readNext root) = root then
    return
  else
    eraseNode ⟨← readNext root⟩

/-- The loop of the destructor. -/
def destroyLoop (root : Address) : ℕ → Address → Address → BuffersM T Unit
  | 0, head, _ => if head = root then return else throw (.thrown .cutOff)
  | rounds + 1, head, t => do
    if head = root then
      return
    else
      let head ← readNext t
      deleteNode t
      destroyLoop root rounds head head

/-- The destructor, after which `_root` is gone too. -/
def destroy (rounds : ℕ) (root : Address) : BuffersM T Unit := do
  let head ← readNext root
  let t ← readNext root
  destroyLoop root rounds head t
  release root

/-- Reads the elements from `it` to `end()`, as the loop of a standard algorithm does. -/
def readElements (root : Address) : ℕ → BuffersIterator → BuffersM T (List T)
  | 0, it => if it = endIterator root then return [] else throw (.thrown .cutOff)
  | rounds + 1, it => do
    if it = endIterator root then
      return []
    else
      let ele ← it.deref
      let elements ← readElements root rounds (← it.incr)
      return ele :: elements

/-! ## Calls

A call is a member with its arguments. It is valid if the address for a new node is free and its
iterator is one that a caller may have: of an element, or `end()` where the source allows that. A
run is valid if each of its calls is, on the heap at which it is made. -/

/-- A call of a member that changes the container. Where the member makes a node, `item` is the
address it gets. -/
inductive Op (T : Type)
  | pushBack (item : Address) (val : T)
  | pushFront (item : Address) (val : T)
  | insert (item : Address) (pos : BuffersIterator) (val : T)
  | erase (pos : BuffersIterator)
  | popBack
  | popFront

/-- A call, and the iterator it returns if it returns one. -/
def call (root : Address) : Op T → BuffersM T (Option BuffersIterator)
  | .pushBack item val => do pushBack root item val; return none
  | .pushFront item val => do pushFront root item val; return none
  | .insert item pos val => some <$> insert item pos val
  | .erase pos => some <$> erase pos
  | .popBack => do popBack root; return none
  | .popFront => do popFront root; return none

/-- What a caller owes a call: an iterator for `insert` points into the container or to its end, one
for `erase` to an element of it. A new node has an address that is free. -/
def ValidOp (root : Address) (h : Heap (Option T)) : Op T → Prop
  | .pushBack item _ => ¬ h.Live item
  | .pushFront item _ => ¬ h.Live item
  | .insert item pos _ => ¬ h.Live item ∧ h.Reaches root pos.cur
  | .erase pos => h.Reaches root pos.cur ∧ pos ≠ endIterator root
  | .popBack => True
  | .popFront => True

/-- Each call of the run is valid when it is made. -/
def ValidRun (root : Address) : Heap (Option T) → List (Op T) → Prop
  | _, [] => True
  | h, op :: ops => ValidOp root h op ∧ ValidRun root (after (call root op) h) ops

end Buffers

end CppRepo
