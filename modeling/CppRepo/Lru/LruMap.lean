import CppRepo.Library.KeyedList
import CppRepo.Library.Machine

/-!
# The map with least recently used eviction

`lru_map` keeps its values in a `std::map` and the order of use in a `std::list` of the keys, the
most recent first. Each entry of the map holds the iterator of its key's node in the list, so that
the node can be taken out without a search.

The members below follow the source statement by statement. Erasing an iterator that denotes no
node, erasing `end()` of the map and reading or removing the last element of an empty list are
undefined behaviour: then there is no result. A key is passed by reference; it is taken to be the
caller's own object, not the element of a node of `entries_lru`. The mutex makes each call atomic,
and `dump` only prints; neither is modelled. `std::map` is modelled by an association list, in which
the order of the pairs has no meaning.

## Calls and replies

A run is a list of calls, each with the values it is given. `find` takes a pointer, which may be
null, and assigns to what it points to if it finds the key; so what is there before and after the
call belongs to the call and to the reply. The capacity is a `size_t`, which the constructor makes
of an `int`: a negative one becomes so large that nothing is ever evicted.
-/

namespace CppRepo

/-- `lru_map::entry`. -/
structure Entry (V : Type) where
  value : V
  lruIter : Iterator

/-- `lru_map`. -/
structure LruMap (K V : Type) where
  entries : AList (fun _ : K ↦ Entry V)
  entriesLru : NodeList K
  max : UInt64

/-- A call of a member. The argument `value` of `find` is what the pointer points to before the
call, or `none` for the null pointer. -/
inductive LruMap.Op (K V : Type)
  | find (key : K) (value : Option V)
  | add (key : K) (value : V)
  | erase (key : K)

/-- What a call gives back: nothing, or for `find` the returned flag and what the pointer points to
after the call. -/
abbrev LruMap.Reply (V : Type) := Option (Bool × Option V)

namespace LruMap

variable {K V : Type}

/-- A map without entries. -/
def ofMax (max : UInt64) : LruMap K V := ⟨∅, NodeList.empty, max⟩

/-- The constructor: its `int` is converted to the `size_t` of the member. -/
def new (max : Int32) : LruMap K V := ofMax max.toInt64.toUInt64

variable [DecidableEq K]

/-- `find(key, value)`. -/
def find (m : LruMap K V) (key : K) (value : Option V) :
    Option ((Bool × Option V) × LruMap K V) :=
  match m.entries.lookup key with
  | none => some ((false, value), m)
  | some e => do
    let value := value.map fun _ ↦ e.value
    let lru ← m.entriesLru.erase e.lruIter
    let lru := lru.pushFront key
    let entries := m.entries.insert key { e with lruIter := lru.begin }
    return ((true, value), { m with entries := entries, entriesLru := lru })

/-- The first lines of `add`: the node of a key that is present is taken out. -/
def unlink (m : LruMap K V) (key : K) : Option (NodeList K) :=
  match m.entries.lookup key with
  | some e => m.entriesLru.erase e.lruIter
  | none => some m.entriesLru

/-- The last lines of `add`: when there are too many keys, the last one goes. -/
def evict (m : LruMap K V) : Option (LruMap K V) :=
  if m.max.toNat < m.entriesLru.size then do
    let key ← m.entriesLru.back
    -- `entries.erase(entries.find(key))`
    guard (key ∈ m.entries)
    let lru ← m.entriesLru.popBack
    return { m with entries := m.entries.erase key, entriesLru := lru }
  else
    return m

/-- `add(key, value)`. -/
def add (m : LruMap K V) (key : K) (value : V) : Option (LruMap K V) := do
  let lru ← m.unlink key
  let lru := lru.pushFront key
  -- `entries[key]` makes an entry if there is none, and both of its fields are assigned.
  let entries := m.entries.insert key ⟨value, lru.begin⟩
  evict { m with entries := entries, entriesLru := lru }

/-- `erase(key)`. -/
def erase (m : LruMap K V) (key : K) : Option (LruMap K V) :=
  match m.entries.lookup key with
  | none => some m
  | some e => do
    let lru ← m.entriesLru.erase e.lruIter
    return { m with entries := m.entries.erase key, entriesLru := lru }

/-- A call and what it gives back. -/
def step (m : LruMap K V) : Op K V → Option (Reply V × LruMap K V)
  | .find key value => (m.find key value).map fun (reply, m') ↦ (some reply, m')
  | .add key value => (m.add key value).map fun m' ↦ (none, m')
  | .erase key => (m.erase key).map fun m' ↦ (none, m')

/-- Many calls, and what they give back. -/
def calls (m : LruMap K V) (ops : List (Op K V)) : Option (List (Reply V) × LruMap K V) :=
  runPartial step m ops

/-! ## What holds between calls

`recency` reads the two containers as one list, in the order of use. `Linked` is the invariant of
the data structure in its own terms: it does not speak of a list of pairs. -/

/-- The pairs of the keys and their values, the most recently used first. -/
def recency (m : LruMap K V) : List (Σ _ : K, V) :=
  m.entriesLru.toList.filterMap fun k ↦ (m.entries.lookup k).map fun e ↦ ⟨k, e.value⟩

/-- The two containers have the same keys, each once, an entry's iterator denotes the node of its
key, and there are at most `max` of them. -/
structure Linked (m : LruMap K V) : Prop where
  mem_iff : ∀ k, k ∈ m.entries ↔ k ∈ m.entriesLru.toList
  nodup : m.entriesLru.toList.Nodup
  denotes : ∀ k e, m.entries.lookup k = some e → m.entriesLru.Denotes e.lruIter k
  size_eq : m.entries.keys.length = m.entriesLru.size
  size_le : m.entriesLru.size ≤ m.max.toNat

end LruMap

end CppRepo
