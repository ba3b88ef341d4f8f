import CppRepo.Library.Chain

/-!
# The longest common prefix, with a trie

`longestCommonPrefix` puts strings into a trie and goes down from its root. A node of the trie has a
vector of pointers to its children, which nothing ever gives a size: the constructor of a node
writes to the first 26 elements of an empty vector. So already the first node is not made.

Which allocations fail is left open; `insert` catches the exception of one that does.

## What is undefined

`links` is a vector that starts empty, and `links[i]` with an index that is not below its size is
undefined behaviour, for reading and for writing. A pointer to a node that was deleted is treated in
the same way. The recursion of `insertNode` follows the string; the other two loops are cut off
after a number of rounds.
-/

namespace CppRepo

namespace CommonPrefix

/-- How a run ends that does not return. -/
inductive Stop where
  | cutOff
  | badAlloc
  deriving DecidableEq, Repr

/-- `trieNode`. -/
structure TrieNode where
  value : UInt8
  links : List Pointer
  deriving DecidableEq, Repr

/-- The live nodes, and the address of the next. -/
structure Memory where
  nodes : Address → Option TrieNode
  fresh : Address

/-- A program on a trie. -/
abbrev TrieM (α : Type) := EStateM (Fault Stop) Memory α

/-- Reads the node behind a pointer. -/
def readNode (p : Pointer) : TrieM TrieNode := do
  match p.bind (← get).nodes with
  | some node => return node
  | none => throw .undefinedBehaviour

/-- `links[i]`. -/
def linkAt (p : Pointer) (i : ℤ) : TrieM Pointer := do
  vectorAt (← readNode p).links (sizeOfInt i)

/-- `links[i] = q`. -/
def setLink (p : Pointer) (i : ℤ) (q : Pointer) : TrieM Unit := do
  let node ← readNode p
  if sizeOfInt i < node.links.length then
    modify fun m ↦ { m with
      nodes := Function.update m.nodes (p.getD 0)
        (some { node with links := node.links.set (sizeOfInt i) q }) }
  else
    throw .undefinedBehaviour

/-- The `n` elements of `links` from `i` on are set to null. -/
def clearLinks (this : Pointer) : ℕ → ℤ → TrieM Unit
  | 0, _ => return
  | n + 1, i => do
    setLink this i none
    clearLinks this n (i + 1)

/-- `new trieNode(ch)`. -/
def newTrieNode (fails : Address → Bool) (ch : UInt8) : TrieM Pointer := do
  let m ← get
  if fails m.fresh then throw (.thrown .badAlloc)
  else
    set (Memory.mk (Function.update m.nodes m.fresh (some ⟨ch, []⟩)) (m.fresh + 1))
    clearLinks (some m.fresh) 26 0
    return some m.fresh

/-- A `char` as an `int`. -/
def charInt (c : UInt8) : ℤ := if c.toNat < 128 then c.toNat else c.toNat - 256

/-- `links[i] = new trieNode(ch)`, if the allocation does not fail. -/
def newLink (fails : Address → Bool) (this : Pointer) (i : ℤ) (ch : UInt8) : TrieM Bool :=
  tryCatch (do
    let p ← newTrieNode fails ch
    setLink this i p
    return true)
    fun e ↦ if e = .thrown .badAlloc then return false else throw e

/-- `trieNode::insert`, for the string from the position on. -/
def insertNode (fails : Address → Bool) : Bytes → Pointer → TrieM ℤ
  | [], _ => return 0
  | ch :: res, this => do
    if ch = 0 then return 0
    else
      let i := charInt ch - 97
      let linked ← match ← linkAt this i with
        | none => newLink fails this i ch
        | some _ => pure true
      if linked then insertNode fails res (← linkAt this i) else return -1

/-- `trie::insert`. -/
def insert (fails : Address → Bool) (root : Pointer) (str : Bytes) : TrieM ℤ :=
  if str.isEmpty then return 0 else insertNode fails str root

/-- The loop of `getCommonPrefix`. It goes on where a node has no child or several, and stops where
it has one. -/
def prefixLoop : ℕ → Pointer → Bytes → TrieM Bytes
  | 0, index, res => do
    if (← readNode index).links.countP (· ≠ none) ≠ 1 then throw (.thrown .cutOff) else return res
  | rounds + 1, index, res => do
    let links := (← readNode index).links
    if links.countP (· ≠ none) ≠ 1 then
      match links.find? (· ≠ none) with
      | some tmp => prefixLoop rounds tmp (res ++ [(← readNode tmp).value])
      -- `*tmp` is past the end.
      | none => throw .undefinedBehaviour
    else
      return res

/-- The children from `i` on are deleted. -/
def deleteLinks (delete : Pointer → TrieM Unit) (this : Pointer) : ℕ → ℤ → TrieM Unit
  | 0, _ => return
  | n + 1, i => do
    match ← linkAt this i with
    | none => deleteLinks delete this n (i + 1)
    | some a =>
      delete (some a)
      deleteLinks delete this n (i + 1)

/-- `delete` of a node. -/
def deleteNode : ℕ → Pointer → TrieM Unit
  | 0, _ => throw (.thrown .cutOff)
  | rounds + 1, p => do
    deleteLinks (deleteNode rounds) p 26 0
    modify fun m ↦ { m with nodes := Function.update m.nodes (p.getD 0) none }

/-- The loop of `longestCommonPrefix`. -/
def insertAll (fails : Address → Bool) (root : Pointer) : List Bytes → TrieM Unit
  | [] => return
  | str :: strs => do
    let _ ← insert fails root str
    insertAll fails root strs

/-- `longestCommonPrefix`. -/
def longestCommonPrefix (fails : Address → Bool) (rounds : ℕ) (strs : List Bytes) :
    TrieM Bytes := do
  let root ← newTrieNode fails 35
  insertAll fails root strs
  let res ← prefixLoop rounds root []
  deleteNode rounds root
  return res

variable {fails : Address → Bool} {m : Memory} {a : Address} {node : TrieNode} {rounds : ℕ}

/-! ## The nodes

The constructor clears `links` element by element, from the first one on. It comes to an element
that the vector does not have before it has cleared 26, so the node is not returned to anybody. -/

theorem ensures_readNode {Q : TrieNode → Memory → Prop} {E : Fault Stop → Memory → Prop}
    (ha : m.nodes a = some node) : Ensures (readNode (some a)) m Q E ↔ Q node m := by
  simp only [readNode, ensures_bind, ensures_get, Option.bind_some, ha, ensures_pure]

theorem ensures_setLink {i : ℤ} {q : Pointer} {Q : Unit → Memory → Prop}
    {E : Fault Stop → Memory → Prop} (ha : m.nodes a = some node) :
    Ensures (setLink (some a) i q) m Q E ↔
      if sizeOfInt i < node.links.length then
        Q ⟨⟩ ⟨Function.update m.nodes a
          (some { node with links := node.links.set (sizeOfInt i) q }), m.fresh⟩
      else E .undefinedBehaviour m := by
  rw [setLink, ensures_bind, ensures_readNode ha]
  split_ifs <;> rfl

theorem ensures_clearLinks {n : ℕ} {i : ℤ} (ha : m.nodes a = some node) (hi : 0 ≤ i)
    (hle : i ≤ node.links.length) (hlt : node.links.length < i + n) (hsize : i + n < 2 ^ 64) :
    Ensures (clearLinks (some a) n i) m (fun _ _ ↦ False) fun e _ ↦ e = .undefinedBehaviour := by
  induction n generalizing m i node with
  | zero =>
    push_cast at hlt
    omega
  | succ n ih =>
    push_cast at hlt hsize
    rw [clearLinks, ensures_bind, ensures_setLink ha, sizeOfInt_of_nonneg hi (by omega)]
    split_ifs with hin
    · apply ih (Function.update_self a _ _)
      · omega
      · simp only [List.length_set]
        omega
      · simp only [List.length_set]
        omega
      · omega
    · rfl

theorem ensures_newTrieNode (fails : Address → Bool) (ch : UInt8) (m : Memory) :
    Ensures (newTrieNode fails ch) m (fun _ _ ↦ False)
      fun e _ ↦ e = .undefinedBehaviour ∨ fails m.fresh ∧ e = .thrown .badAlloc := by
  rw [newTrieNode, ensures_bind, ensures_get]
  split_ifs with hfails
  · exact .inr ⟨hfails, rfl⟩
  · rw [ensures_bind, ensures_set, ensures_bind]
    refine (ensures_clearLinks (Function.update_self m.fresh _ m.nodes) le_rfl ?_ ?_ ?_).mono
      (fun _ _ ↦ False.elim) fun _ _ ↦ .inl
    · exact le_rfl
    · simp
    · decide

/-! ## The result

The root of the trie is made before anything else. Where its allocation fails, the exception is not
caught there, since the `try` is around the allocations in `insert` only. -/

/-- `r` is the longest of the common prefixes. -/
def IsLongestCommonPrefix (strs : List Bytes) (r : Bytes) : Prop :=
  (∀ s ∈ strs, r <+: s) ∧ ∀ r', (∀ s ∈ strs, r' <+: s) → r' <+: r

theorem ensures_longestCommonPrefix {strs : List Bytes} :
    Ensures (longestCommonPrefix fails rounds strs) m (fun _ _ ↦ False)
      fun e _ ↦ e = .undefinedBehaviour ∨ fails m.fresh ∧ e = .thrown .badAlloc := by
  rw [longestCommonPrefix, ensures_bind]
  exact (ensures_newTrieNode fails 35 m).mono (fun _ _ ↦ False.elim) fun _ _ ↦ id

/-- **No result.** Whatever the strings are, and whichever allocations fail, `longestCommonPrefix`
does not return the longest common prefix. -/
theorem longestCommonPrefix_fails (fails : Address → Bool) (strs : List Bytes) (m : Memory) :
    ¬ ∃ n, ∀ rounds ≥ n, Ensures (longestCommonPrefix fails rounds strs) m
      (fun r _ ↦ IsLongestCommonPrefix strs r) fun _ _ ↦ False := by
  rintro ⟨n, hn⟩
  obtain ⟨r, m', hrun, -⟩ := (hn n le_rfl).exists_ok
  exact ensures_longestCommonPrefix.of_ok hrun

/-- The call in `main`, with allocations that do not fail. -/
theorem longestCommonPrefix_main :
    ¬ ∀ strs : List Bytes, strs ≠ [] →
      (∀ s ∈ strs, ∀ c ∈ s, 97 ≤ c.toNat ∧ c.toNat ≤ 122) →
        ∃ n, ∀ rounds ≥ n, Ensures (longestCommonPrefix (fun _ ↦ false) rounds strs)
          ⟨fun _ ↦ none, 0⟩ (fun r _ ↦ IsLongestCommonPrefix strs r) fun _ _ ↦ False := by
  intro hall
  obtain ⟨n, hn⟩ := hall [ascii "flower", ascii "flow", ascii "flight"] (by decide)
    (by decide +kernel)
  obtain ⟨r, m', hrun, -⟩ := (hn n le_rfl).exists_ok
  exact ensures_longestCommonPrefix.of_ok hrun

end CommonPrefix

end CppRepo
