import CppRepo.Library.CLibrary
import CppRepo.Library.Transition
import CppRepo.Lru.Refinement

/-!
# What an exception leaves of the map

The members of `lru_map` change the list, the map, a value and an iterator one after the other.
Copying or default-constructing a key or a value, assigning a value and allocating a node can throw;
then the call ends with what was done up to there, since nothing catches the exception and nothing
is taken back.

Below are the members with the points at which they can throw. The containers give the strong
guarantee for a single element: a `push_front` or `operator[]` that throws has no effect. A value
whose assignment throws may be left with any content. Comparing and destroying keys, erasing nodes
and moving iterators do not throw, so `erase` never does.

**Main result.** A call that throws leaves the containers linked exactly if it throws before it
changed anything: at the assignment through the pointer of `find`, or in the `push_front` of an
`add` of a key without an entry (`linked_after_throw_iff`). At every other point it has taken a node
out, or put one in, for which there is no matching entry.
-/

namespace CppRepo

/-- The statements of the members that can throw. -/
inductive Statement where
  /-- `*value = e.value` in `find`. -/
  | assignFound
  /-- `entries_lru.push_front(key)`. -/
  | pushFront
  /-- `entries[key]`. -/
  | subscript
  /-- `e.value = value`. -/
  | assignValue
  deriving DecidableEq, Repr

/-- What can throw in them. -/
inductive ThrowPoint (V : Type) where
  | assignFound
  | allocateListNode
  | copyKeyToList
  | allocateMapNode
  | copyKeyToMap
  | constructValue
  /-- The assignment leaves some value in the entry. -/
  | assignValue (left : V)
  deriving DecidableEq, Repr

def ThrowPoint.statement {V : Type} : ThrowPoint V → Statement
  | .assignFound => .assignFound
  | .allocateListNode | .copyKeyToList => .pushFront
  | .allocateMapNode | .copyKeyToMap | .constructValue => .subscript
  | .assignValue _ => .assignValue

/-- A member that can throw. -/
abbrev Throwing (K V α : Type) := EStateM (Fault (ThrowPoint V)) (LruMap K V) α

namespace Throwing

variable {K V : Type}

/-! ## Statements

A member is a sequence of statements on the map. Which point is to throw is given to the call, and a
statement throws if this is one of its points; a call that does not come to it completes. So one
parameter covers all points and all calls. -/

/-- Throws if the call is to throw in this statement. -/
def passing (statement : Statement) (fails : Option (ThrowPoint V)) : Throwing K V Unit :=
  match fails.filter fun p ↦ p.statement = statement with
  | some p => throw (.thrown p)
  | none => pure ()

/-- A statement that cannot throw, but is not always defined. -/
def defined (f : LruMap K V → Option (LruMap K V)) : Throwing K V Unit := do
  match f (← get) with
  | some m => set m
  | none => throw .undefinedBehaviour

/-- `entries_lru.erase(it)`. -/
def eraseNode (it : Iterator) : Throwing K V Unit :=
  defined fun m ↦ (m.entriesLru.erase it).map fun lru ↦ { m with entriesLru := lru }

/-- `entries_lru.push_front(key)`. -/
def pushFront (fails : Option (ThrowPoint V)) (key : K) : Throwing K V Unit := do
  passing .pushFront fails
  modify fun m ↦ { m with entriesLru := m.entriesLru.pushFront key }

variable [DecidableEq K]

/-- Changes the entry of a key, which a reference denotes. -/
def updateEntry (key : K) (f : Entry V → Entry V) (m : LruMap K V) : LruMap K V :=
  match m.entries.lookup key with
  | some e => { m with entries := m.entries.insert key (f e) }
  | none => m

/-- `e.lru_iter = entries_lru.begin()`. -/
def assignIter (key : K) : Throwing K V Unit :=
  modify fun m ↦ updateEntry key (fun e ↦ { e with lruIter := m.entriesLru.begin }) m

/-- `entries[key]`: a new entry has a default value and an iterator that denotes nothing. -/
def subscript [Inhabited V] (fails : Option (ThrowPoint V)) (key : K) : Throwing K V Unit := do
  if key ∉ (← get).entries then
    passing .subscript fails
    modify fun m ↦ { m with entries := m.entries.insert key ⟨default, none⟩ }

/-- `e.value = value`. -/
def assignValue (fails : Option (ThrowPoint V)) (key : K) (value : V) : Throwing K V Unit :=
  match fails with
  | some (.assignValue left) => do
    modify (updateEntry key fun e ↦ { e with value := left })
    throw (.thrown (.assignValue left))
  | _ => modify (updateEntry key fun e ↦ { e with value })

/-! ## The members

They are those of `LruMap`, with the statements in the order of the source. `entries[key]` and the
assignment of the value are two statements here, since the first may throw with the node linked, and
the second with the entry made. -/

/-- `find(key, value)`. -/
def find (fails : Option (ThrowPoint V)) (key : K) (value : Option V) :
    Throwing K V (Bool × Option V) := do
  match (← get).entries.lookup key with
  | none => return (false, value)
  | some e =>
    if value.isSome then
      passing .assignFound fails
    eraseNode e.lruIter
    pushFront fails key
    assignIter key
    return (true, value.map fun _ ↦ e.value)

/-- The first lines of `add`. -/
def unlink (key : K) : Throwing K V Unit := do
  match (← get).entries.lookup key with
  | some e => eraseNode e.lruIter
  | none => return ()

/-- `add(key, value)`. -/
def add [Inhabited V] (fails : Option (ThrowPoint V)) (key : K) (value : V) :
    Throwing K V Unit := do
  unlink key
  pushFront fails key
  subscript fails key
  assignValue fails key value
  assignIter key
  defined LruMap.evict

/-- A call that throws at the given point, if it comes there. -/
def call [Inhabited V] (fails : Option (ThrowPoint V)) :
    LruMap.Op K V → Throwing K V (LruMap.Reply V)
  | .find key value => do return some (← find fails key value)
  | .add key value => do
    add fails key value
    return none
  | .erase key => do
    defined (LruMap.erase · key)
    return none

end Throwing

/-- The point is one at which the call has changed nothing. -/
def LruMap.Untouched {K V : Type} [DecidableEq K] (m : LruMap K V) :
    LruMap.Op K V → ThrowPoint V → Prop
  | .find _ _, p => p.statement = .assignFound
  | .add key _, p => key ∉ m.entries ∧ p.statement = .pushFront
  | .erase _, _ => False

namespace Throwing

variable {K V : Type} {m : LruMap K V} {fails : Option (ThrowPoint V)} {key : K}
  {Q : Unit → LruMap K V → Prop} {E : Fault (ThrowPoint V) → LruMap K V → Prop}

/-! ## One statement

One rule for each statement: what has to hold where it throws, and where it passes. -/

theorem ensures_passing {statement : Statement}
    (hfails : ∀ p, fails = some p → p.statement = statement → E (.thrown p) m) (hpasses : Q () m) :
    Ensures (passing statement fails) m Q E := by
  rw [passing]
  split
  · next p hfilter =>
    obtain ⟨hp, hstatement⟩ := Option.filter_eq_some_iff.mp hfilter
    exact hfails p hp (of_decide_eq_true hstatement)
  · exact hpasses

theorem ensures_defined {f : LruMap K V → Option (LruMap K V)} {m' : LruMap K V}
    (hf : f m = some m') (h : Q () m') : Ensures (defined f) m Q E := by
  rw [defined, ensures_bind, ensures_get, hf]
  exact h

theorem ensures_eraseNode {it : Iterator} {lru : NodeList K}
    (herase : m.entriesLru.erase it = some lru) (h : Q () { m with entriesLru := lru }) :
    Ensures (eraseNode it) m Q E :=
  ensures_defined (by rw [herase]; rfl) h

theorem ensures_pushFront
    (hfails : ∀ p, fails = some p → p.statement = .pushFront → E (.thrown p) m)
    (hpasses : Q () { m with entriesLru := m.entriesLru.pushFront key }) :
    Ensures (pushFront fails key) m Q E := by
  rw [pushFront, ensures_bind]
  exact ensures_passing hfails hpasses

variable [DecidableEq K]

private theorem updateEntry_of_some {e : Entry V} (h : m.entries.lookup key = some e)
    (f : Entry V → Entry V) :
    updateEntry key f m = { m with entries := m.entries.insert key (f e) } := by
  rw [updateEntry, h]

theorem ensures_assignIter {e : Entry V} (he : m.entries.lookup key = some e)
    (h : Q () { m with entries := m.entries.insert key ⟨e.value, m.entriesLru.begin⟩ }) :
    Ensures (assignIter key) m Q E := by
  rw [assignIter, ensures_modify, updateEntry_of_some he]
  exact h

theorem ensures_assignValue {e : Entry V} (he : m.entries.lookup key = some e) (value : V)
    (hfails : ∀ left, fails = some (.assignValue left) → E (.thrown (.assignValue left))
      { m with entries := m.entries.insert key ⟨left, e.lruIter⟩ })
    (hpasses : Q () { m with entries := m.entries.insert key ⟨value, e.lruIter⟩ }) :
    Ensures (assignValue fails key value) m Q E := by
  have hpasses' : Q () (updateEntry key (fun e ↦ { e with value }) m) := by
    rw [updateEntry_of_some he]
    exact hpasses
  match fails with
  | some (.assignValue left) =>
    rw [assignValue, ensures_bind, ensures_modify, ensures_throw, updateEntry_of_some he]
    exact hfails left rfl
  | none | some .assignFound | some .allocateListNode | some .copyKeyToList
  | some .allocateMapNode | some .copyKeyToMap | some .constructValue => exact hpasses'

theorem ensures_subscript [Inhabited V]
    (hfails : key ∉ m.entries → ∀ p, fails = some p → p.statement = .subscript → E (.thrown p) m)
    (hpresent : key ∈ m.entries → Q () m)
    (habsent : key ∉ m.entries → Q () { m with entries := m.entries.insert key ⟨default, none⟩ }) :
    Ensures (subscript fails key) m Q E := by
  rw [subscript, ensures_bind, ensures_get]
  by_cases hkey : key ∈ m.entries
  · rw [if_neg (not_not.mpr hkey)]
    exact hpresent hkey
  · rw [if_pos hkey, ensures_bind]
    exact ensures_passing (hfails hkey) (habsent hkey)

theorem ensures_unlink {lru : NodeList K} (hunlink : m.unlink key = some lru)
    (h : Q () { m with entriesLru := lru }) : Ensures (unlink key) m Q E := by
  rw [LruMap.unlink] at hunlink
  rw [unlink, ensures_bind, ensures_get]
  rcases he : m.entries.lookup key with - | e
  · rw [he] at hunlink
    obtain rfl := Option.some_inj.mp hunlink
    exact h
  · rw [he] at hunlink
    exact ensures_eraseNode hunlink h

/-! ## Containers that are not linked

Any one of these three is enough: an entry without a node, a node without an entry, or an iterator
that does not denote the node of its key. -/

private theorem not_linked_of_mem_entries (hentry : key ∈ m.entries)
    (hnode : key ∉ m.entriesLru.toList) : ¬m.Linked := fun h ↦ hnode ((h.mem_iff key).mp hentry)

private theorem not_linked_of_mem_toList (hnode : key ∈ m.entriesLru.toList)
    (hentry : key ∉ m.entries) : ¬m.Linked := fun h ↦ hentry ((h.mem_iff key).mpr hnode)

private theorem not_linked_of_not_denotes {e : Entry V} (he : m.entries.lookup key = some e)
    (hiter : ¬m.entriesLru.Denotes e.lruIter key) : ¬m.Linked := fun h ↦ hiter (h.denotes key e he)

/-! ## One call

The member is followed statement by statement. As soon as something has been changed the containers
are not linked, and they are not again before the iterator of the entry has been assigned, after
which nothing throws. -/

/-- How a call ends that throws: at its point, and with the map as it was or torn. -/
def AfterThrow (m : LruMap K V) (op : LruMap.Op K V) (fails : Option (ThrowPoint V))
    (e : Fault (ThrowPoint V)) (m' : LruMap K V) : Prop :=
  ∃ p, fails = some p ∧ e = .thrown p ∧
    (m.Untouched op p ∧ m' = m ∨ ¬m.Untouched op p ∧ ¬m'.Linked)

variable {max : ℕ} {r : RecencyList max K V}

private theorem notMem_of_unlinked {lru : NodeList K}
    (h : Represents.Unlinked key m.entries lru r.pairs) : key ∉ lru.toList := by
  rw [h.keys]
  exact fun hmem ↦ (r.pairs.keys_nodup.mem_erase_iff.mp hmem).1 rfl

theorem ensures_find (h : m.Refines r) (key : K) (value : Option V) :
    Ensures (find fails key value) m (fun reply m' ↦ m.find key value = some (reply, m'))
      (AfterThrow m (.find key value) fails) := by
  rw [find, ensures_bind, ensures_get, LruMap.find]
  rcases he : m.entries.lookup key with - | e
  · exact rfl
  · obtain ⟨lru, herase, hunlinked⟩ := h.represents.erase_iter he
    have hentry : key ∈ m.entries := AList.lookup_isSome.mp (by rw [he]; rfl)
    have hrest : Ensures (do
          eraseNode e.lruIter
          pushFront fails key
          assignIter key
          return (true, value.map fun _ ↦ e.value) : Throwing K V (Bool × Option V)) m
        (fun reply m' ↦ m.find key value = some (reply, m'))
        (AfterThrow m (.find key value) fails) := by
      rw [ensures_bind]
      refine ensures_eraseNode herase ?_
      rw [ensures_bind]
      refine ensures_pushFront (fun p hp hpush ↦ ⟨p, hp, rfl, .inr ⟨fun hfound ↦ ?_, ?_⟩⟩) ?_
      · exact absurd (hpush.symm.trans hfound) (by decide)
      · -- the node is gone, and the entry is not
        exact not_linked_of_mem_entries hentry (notMem_of_unlinked hunlinked)
      · rw [ensures_bind]
        refine ensures_assignIter he ?_
        rw [ensures_pure, LruMap.find, he]
        simp only [herase]
        rfl
    rw [LruMap.find, he] at hrest
    by_cases hvalue : value.isSome = true
    · simp only [hvalue, if_true]
      rw [ensures_bind]
      exact ensures_passing (fun p hp hfound ↦ ⟨p, hp, rfl, .inl ⟨hfound, rfl⟩⟩) hrest
    · simp only [hvalue]
      exact hrest

theorem ensures_assign {lru : NodeList K} {entries : AList (fun _ : K ↦ Entry V)}
    {e : Entry V} {value : V} {m' : LruMap K V} (he : entries.lookup key = some e)
    (hiter : ¬(lru.pushFront key).Denotes e.lruIter key)
    (hevict : LruMap.evict { m with
      entries := entries.insert key ⟨value, (lru.pushFront key).begin⟩
      entriesLru := lru.pushFront key } = some m') :
    Ensures (do
        assignValue fails key value
        assignIter key
        defined LruMap.evict : Throwing K V Unit)
      { m with entries, entriesLru := lru.pushFront key } (fun _ u ↦ u = m')
      (AfterThrow m (.add key value) fails) := by
  rw [ensures_bind]
  refine ensures_assignValue he value (fun left hleft ↦ ⟨_, hleft, rfl, .inr ⟨?_, ?_⟩⟩) ?_
  · exact fun huntouched ↦ Statement.noConfusion huntouched.2
  · exact not_linked_of_not_denotes (AList.lookup_insert _) hiter
  · rw [ensures_bind]
    refine ensures_assignIter (AList.lookup_insert _) ?_
    rw [AList.insert_insert]
    exact ensures_defined hevict rfl

theorem ensures_add [Inhabited V] (h : m.Refines r) (key : K) (value : V) :
    Ensures (add fails key value) m (fun _ m' ↦ m.add key value = some m')
      (AfterThrow m (.add key value) fails) := by
  obtain ⟨lru, hunlink, hunlinked⟩ := h.unlink key
  obtain ⟨m', hadd, _⟩ := h.add key value
  have hevict : LruMap.evict { m with
      entries := m.entries.insert key ⟨value, (lru.pushFront key).begin⟩
      entriesLru := lru.pushFront key } = some m' := by
    rwa [LruMap.add, hunlink] at hadd
  have hnode : key ∈ (lru.pushFront key).toList := by
    rw [NodeList.toList_pushFront]
    exact List.mem_cons_self
  rw [add, ensures_bind, hadd]
  refine ensures_unlink hunlink ?_
  rw [ensures_bind]
  refine ensures_pushFront (fun p hp hpush ↦ ⟨p, hp, rfl, ?_⟩) ?_
  · by_cases hentry : key ∈ m.entries
    · refine .inr ⟨fun huntouched ↦ huntouched.1 hentry, ?_⟩
      exact not_linked_of_mem_entries hentry (notMem_of_unlinked hunlinked)
    · have hnone : m.entries.lookup key = none := AList.lookup_eq_none.mpr hentry
      rw [LruMap.unlink, hnone] at hunlink
      refine .inl ⟨⟨hentry, hpush⟩, ?_⟩
      rw [← Option.some_inj.mp hunlink]
  · rw [ensures_bind]
    refine ensures_subscript (fun hentry p hp hsubscript ↦ ⟨p, hp, rfl, .inr ⟨?_, ?_⟩⟩)
      (fun hentry ↦ ?_) fun hentry ↦ ?_
    · exact fun huntouched ↦ absurd (hsubscript.symm.trans huntouched.2) (by decide)
    · exact not_linked_of_mem_toList hnode hentry
    · -- the iterator of a key that is present denotes the node that was taken out
      obtain ⟨e, he⟩ := Option.isSome_iff_exists.mp (AList.lookup_isSome.mpr hentry)
      rw [LruMap.unlink, he] at hunlink
      refine (ensures_assign he (NodeList.not_denotes_of_erase hunlink key key) hevict).mono ?_ ?_
      · exact fun _ u hu ↦ congrArg some hu.symm
      · exact fun _ _ hthrow ↦ hthrow
    · -- and that of a new entry denotes nothing
      have hnone : ¬(lru.pushFront key).Denotes none key := by
        rintro ⟨a, ha, _⟩
        exact absurd ha (by simp)
      rw [← AList.insert_insert (b := ⟨default, none⟩)] at hevict
      refine (ensures_assign (AList.lookup_insert _) hnone hevict).mono ?_ ?_
      · exact fun _ u hu ↦ congrArg some hu.symm
      · exact fun _ _ hthrow ↦ hthrow

/-- **One call** that completes does what it does without exceptions, and one that throws leaves the
map as it was, or torn. -/
theorem ensures_call [Inhabited V] (h : m.Refines r) (op : LruMap.Op K V) :
    Ensures (call fails op) m (fun reply m' ↦ m.step op = some (reply, m'))
      (AfterThrow m op fails) := by
  match op with
  | .find key value =>
    rw [call, ensures_bind]
    refine (ensures_find h key value).mono ?_ fun _ _ hthrow ↦ hthrow
    intro reply m' hfind
    rw [ensures_pure, LruMap.step, hfind, Option.map_some]
  | .add key value =>
    rw [call, ensures_bind]
    refine (ensures_add h key value).mono ?_ fun _ _ hthrow ↦ hthrow
    intro _ m' hadd
    rw [ensures_pure, LruMap.step, hadd, Option.map_some]
  | .erase key =>
    obtain ⟨m', herase, _⟩ := h.erase key
    rw [call, ensures_bind]
    refine ensures_defined herase ?_
    rw [ensures_pure, LruMap.step, herase, Option.map_some]

/-! ## Runs

A call that throws where it has changed nothing leaves the map as it was, so such calls make no
difference to the run. -/

/-- One call on the map, which completes or throws where it has changed nothing. -/
def Calls [Inhabited V] (m m' : LruMap K V) : Prop :=
  ∃ fails op, (∃ reply, call fails op m = .ok reply m') ∨
    ∃ p, call fails op m = .error (.thrown p) m' ∧ m.Untouched op p

/-- **A run.** A map on which calls completed, or threw where they had changed nothing, stands for a
recency list of its capacity. -/
theorem refines_of_reachable [Inhabited V] {max : UInt64}
    (hm : Reachable (· = LruMap.ofMax max) Calls m) :
    ∃ r : RecencyList max.toNat K V, m.Refines r := by
  refine Reachable.invariant (I := fun m ↦ ∃ r : RecencyList max.toNat K V, m.Refines r) ?_ ?_ hm
  · rintro _ rfl
    exact ⟨_, LruMap.refines_ofMax max⟩
  · rintro m m' _ ⟨r, hr⟩ ⟨fails, op, ⟨reply, hcall⟩ | ⟨p, hcall, huntouched⟩⟩
    · obtain ⟨m'', hstep, hr'⟩ := hr.step op
      have hsame := hstep.symm.trans ((ensures_call hr op).of_ok hcall)
      obtain ⟨_, rfl⟩ := Prod.mk.inj (Option.some_inj.mp hsame)
      exact ⟨_, hr'⟩
    · obtain ⟨q, _, hq, hstate⟩ := (ensures_call hr op).of_error hcall
      obtain rfl := Fault.thrown.inj hq
      rcases hstate with ⟨_, rfl⟩ | ⟨hnot, _⟩
      · exact ⟨r, hr⟩
      · exact absurd huntouched hnot

/-- **Exceptions.** In every state that calls reach which completed, or threw where they had changed
nothing: every call is defined, one that completes leaves the containers linked, and one that throws
leaves them linked if and only if it throws where it has changed nothing. -/
theorem linked_after_throw_iff [Inhabited V] {max : UInt64}
    (hm : Reachable (· = LruMap.ofMax max) Calls m) (fails : Option (ThrowPoint V))
    (op : LruMap.Op K V) :
    Ensures (call fails op) m (fun _ m' ↦ m'.Linked)
      fun e m' ↦ ∃ p, fails = some p ∧ e = .thrown p ∧ (m'.Linked ↔ m.Untouched op p) := by
  obtain ⟨r, hr⟩ := refines_of_reachable hm
  refine (ensures_call hr op).mono ?_ ?_
  · intro reply m' hstep
    obtain ⟨m'', hstep', hr'⟩ := hr.step op
    obtain ⟨_, rfl⟩ := Prod.mk.inj (Option.some_inj.mp (hstep'.symm.trans hstep))
    exact hr'.linked
  · rintro e m' ⟨p, hp, rfl, ⟨huntouched, rfl⟩ | ⟨huntouched, htorn⟩⟩
    · exact ⟨p, hp, rfl, iff_of_true hr.linked huntouched⟩
    · exact ⟨p, hp, rfl, iff_of_false htorn huntouched⟩

/-- A map of capacity two with one entry. -/
def oneEntry : LruMap ℕ ℕ where
  entries := (∅ : AList fun _ : ℕ ↦ Entry ℕ).insert 1 ⟨10, some 0⟩
  entriesLru := NodeList.empty.pushFront 1
  max := 2

private theorem reachable_oneEntry : Reachable (· = LruMap.ofMax 2) Calls oneEntry :=
  .next (.start rfl) ⟨none, .add 1 10, .inl ⟨none, rfl⟩⟩

/-- When there is no memory for the node of a new key, the map is as it was. -/
theorem linked_after_throw_iff_newKey : oneEntry.Linked := by
  have hthrow := linked_after_throw_iff reachable_oneEntry (some .allocateListNode) (.add 2 20)
  have hcall : call (some .allocateListNode) (.add 2 20) oneEntry
      = .error (.thrown .allocateListNode) oneEntry := rfl
  obtain ⟨p, hp, _, hlinked⟩ := hthrow.of_error hcall
  obtain rfl := Option.some_inj.mp hp
  exact hlinked.mpr ⟨by decide, rfl⟩

/-- When there is none for the node of a key that was found, its entry is left without a node, and
the next call for this key erases an iterator that denotes nothing. -/
theorem find_throws_torn :
    ∃ m, call (some .allocateListNode) (.find 1 none) oneEntry
        = .error (.thrown .allocateListNode) m ∧
      ¬m.Linked ∧ call none (.find 1 none) m = .error .undefinedBehaviour m := by
  refine ⟨_, rfl, fun h ↦ ?_, rfl⟩
  exact absurd ((h.mem_iff 1).mp (by decide)) (by decide)

end Throwing

end CppRepo
