import CppRepo.Library.Separator

/-!
# Who is elected from a list of nodes

A member of the election owns nodes in ZooKeeper whose names are its member id, `-by-`, and the
sequence number ZooKeeper appends. `_elect` takes the names apart again, and a member is the leader
if its id stands with the smallest sequence number.

The member id begins with the name of the host, which may be anything. What follows in it has no
`y`, so that `-by-` occurs in the id only if it occurs in the name of the host
(`infix_memberId_iff`); and then `_elect` takes the name apart at the wrong place.

## Agreement and its failure

The names are taken apart at the first `-by-`. If the id has none, this is the one that ZooKeeper's
number follows, and the entries are compared by the numbers, which are padded to one width. If the
id has one, the number that `_elect` sees is a text out of the host's name, and the id it finds is
cut short: no member has it, so not even the owner elects itself. Hence the condition is necessary,
too, and it is one on the names of the hosts.

**Main result.** All members agree on the owner of the smallest sequence number, and take all names
apart correctly, if and only if no owner has `-by-` in the name of its host (`electsOwner_iff`).
-/

namespace CppRepo

namespace Daemon

/-- A string of Python. -/
abbrev Str := List Char

/-! ## Member ids and node names

A member id is the name of the host, the number of the worker and a UUID, with dots between them. A
node is known by its owner and its sequence number. -/

/-- What `create_instance` puts behind the member id. -/
def byText : Str := "-by-".toList

/-- The text of an `int`. -/
def decimalText (n : ℤ) : Str :=
  if n < 0 then '-' :: Nat.toDigits 10 n.natAbs else Nat.toDigits 10 n.natAbs

/-- A UUID, given by its hexadecimal digits. -/
structure Uuid where
  digits : Vector (Fin 16) 32
  deriving DecidableEq

/-- Its text, in five groups. -/
def Uuid.text (u : Uuid) : Str :=
  let hex := u.digits.toList.map fun d : Fin 16 ↦ Nat.digitChar d.val
  hex.take 8 ++ '-' :: (hex.drop 8).take 4 ++ '-' :: (hex.drop 12).take 4
    ++ '-' :: (hex.drop 16).take 4 ++ '-' :: hex.drop 20

/-- What `_configure` makes the member id of. -/
structure Member where
  host : Str
  workerId : ℤ
  uuid : Uuid
  deriving DecidableEq

namespace Member

/-- The part of the member id behind the name of the host. -/
def idTail (m : Member) : Str := '.' :: (decimalText m.workerId ++ '.' :: m.uuid.text)

def memberId (m : Member) : Str := m.host ++ m.idTail

end Member

/-- A node of a member, with the sequence number ZooKeeper gave it, which has ten digits. -/
structure Node where
  owner : Member
  seq : Fin (10 ^ 10)
  deriving DecidableEq

/-- The name of a node, as `get_children` returns it. -/
def Node.name (node : Node) : Str := node.owner.memberId ++ (byText ++ zeroPad 10 node.seq)

/-! ## `_elect`

The functions follow the Python source, with its errors: a name that cannot be split, and the
minimum of an empty list. -/

/-- The exceptions of `_elect`. -/
inductive ElectError
  | indexError
  | valueError
  deriving DecidableEq

/-- The pair of the parts of a name, the second one first. -/
def nodeEntry (ins : Str) : Except ElectError (Str ×ₗ Str) :=
  let parts := split byText ins
  match parts[1]?, parts[0]? with
  | some seq, some memberId => .ok (toLex (seq, memberId))
  | _, _ => .error .indexError

/-- `min(node_list)[1]` -/
def elected (instanceList : List Str) : Except ElectError Str := do
  let nodeList ← instanceList.mapM nodeEntry
  match nodeList.min? with
  | none => throw .valueError
  | some entry => return (ofLex entry).2

/-- `_elect` of the member with the given id on what `get_children` returned: what `is_leader` is
then, if it was `isLeader` before. -/
def elect (memberId : Str) (isLeader : Bool) (instanceList : List Str) :
    Except ElectError Bool := do
  let winner ← elected instanceList
  if winner = memberId then
    return if !isLeader then true else isLeader
  else
    return false

/-! ## Where `-by-` occurs

A `y` would have to be in the number, in the UUID or in one of the dots. An occurrence that begins
in the id and ends in what follows it would put a piece of `-by-` at the end of the id, which has no
such piece either. -/

private theorem notMem_decimalText (n : ℤ) : 'y' ∉ decimalText n := by
  have hdigits : ∀ k, 'y' ∉ Nat.toDigits 10 k := fun k h ↦
    absurd (Nat.isDigit_of_mem_toDigits (by decide) (by decide) h) (by decide)
  rw [decimalText]
  split_ifs
  · exact List.not_mem_cons_of_ne_of_not_mem (by decide) (hdigits _)
  · exact hdigits _

private theorem Uuid.notMem_text (u : Uuid) : 'y' ∉ u.text := by
  have hdigit : ∀ d : Fin 16, Nat.digitChar d.val ≠ 'y' := by decide
  have hhex : 'y' ∉ u.digits.toList.map fun d : Fin 16 ↦ Nat.digitChar d.val := by
    rw [List.mem_map]
    rintro ⟨d, -, hd⟩
    exact hdigit d hd
  have hdash : 'y' ≠ '-' := by decide
  have htake : ∀ i n,
      'y' ∉ ((u.digits.toList.map fun d : Fin 16 ↦ Nat.digitChar d.val).drop i).take n :=
    fun i n h ↦ hhex (List.mem_of_mem_drop (List.mem_of_mem_take h))
  have hfront : 'y' ∉ (u.digits.toList.map fun d : Fin 16 ↦ Nat.digitChar d.val).take 8 := htake 0 8
  have hend : 'y' ∉ (u.digits.toList.map fun d : Fin 16 ↦ Nat.digitChar d.val).drop 20 :=
    fun h ↦ hhex (List.mem_of_mem_drop h)
  simp only [Uuid.text, List.mem_append, List.mem_cons, hfront, htake, hend, hdash, or_false,
    not_false_eq_true]

namespace Member

private theorem notMem_idTail (m : Member) : 'y' ∉ m.idTail := by
  have hdot : 'y' ≠ '.' := by decide
  simp only [idTail, List.mem_append, List.mem_cons, notMem_decimalText, m.uuid.notMem_text, hdot,
    or_false, not_false_eq_true]

/-- The id has the text `-by-` only if the name of the host has it. -/
theorem infix_memberId_iff (m : Member) : byText <:+: m.memberId ↔ byText <:+: m.host := by
  constructor
  · rintro ⟨front, rest, heq⟩
    have hcut : (front ++ ['-', 'b', 'y']) ++ ('-' :: rest) = m.host ++ m.idTail := by
      rw [← memberId, ← heq, byText]
      simp
    rcases List.append_eq_append_iff.mp hcut with ⟨mid, hhost, hrest⟩ | ⟨mid, hfront, htail⟩
    · rcases mid with - | ⟨c, mid⟩
      · -- The last character would be the first one behind the name of the host.
        rw [List.nil_append, idTail] at hrest
        exact absurd (List.cons.inj hrest).1 (by decide)
      · obtain ⟨rfl, -⟩ := List.cons.inj hrest
        exact ⟨front, mid, by rw [hhost, byText]; simp⟩
    · rcases List.eq_nil_or_concat' mid with rfl | ⟨mid, c, rfl⟩
      · rw [List.nil_append, idTail] at htail
        exact absurd (List.cons.inj htail).1 (by decide)
      · -- Then the `y` would stand behind the name of the host.
        have hy : 'y' ∈ m.idTail := by
          have hlast : 'y' = c := by simpa using congrArg List.getLast? hfront
          rw [htail, hlast]
          simp
        exact absurd hy m.notMem_idTail
  · exact fun h ↦ h.trans (List.prefix_append _ _).isInfix

private theorem not_prefix_of_suffix {m : Member} (h : ¬ byText <:+: m.memberId) {tail rest : Str}
    (hne : tail ≠ []) (htail : tail <:+ m.memberId) : ¬ byText <+: tail ++ (byText ++ rest) := by
  intro hbegins
  rcases lt_or_ge tail.length 4 with hshort | hlong
  · -- The only begin of `-by-` that is followed by `-by-` ends with `y`.
    have hy : 'y' ∈ tail := by
      match tail with
      | [] => exact absurd rfl hne
      | [a] => simp [byText] at hbegins
      | [a, b] => simp [byText] at hbegins
      | [a, b, c] =>
        have hchars : '-' = a ∧ 'b' = b ∧ 'y' = c := by simpa [byText] using hbegins
        rw [hchars.2.2]
        simp
    have hlength : 4 ≤ m.idTail.length := by
      simp only [idTail, Uuid.text, List.length_cons, List.length_append]
      omega
    have hidTail : tail <:+ m.idTail := List.suffix_of_suffix_length_le htail
      (List.suffix_append m.host m.idTail) (hshort.le.trans hlength)
    exact m.notMem_idTail (hidTail.subset hy)
  · have hwhole : byText <+: tail :=
      List.prefix_of_prefix_length_le hbegins (List.prefix_append tail _) hlong
    exact h (hwhole.isInfix.trans htail.isInfix)

end Member

/-! ## Taking names apart

So the first `-by-` of a name is where it should be exactly for the owners without one. -/

/-- `_elect` takes the name of this node apart where `create_instance` put it together. -/
def Node.Decodes (node : Node) : Prop :=
  nodeEntry node.name = .ok (toLex (zeroPad 10 node.seq, node.owner.memberId))

private theorem not_infix_zeroPad (w n : ℕ) : ¬ byText <:+: zeroPad w n := by
  intro h
  have hy : 'y' ∈ zeroPad w n := h.subset (by decide)
  exact absurd (isDigit_of_mem_zeroPad hy) (by decide)

theorem Node.decodes_iff (node : Node) : node.Decodes ↔ ¬ byText <:+: node.owner.host := by
  have hsep : byText ≠ [] := by decide
  rw [← node.owner.infix_memberId_iff]
  constructor
  · intro hdecodes hoccurs
    obtain ⟨head, tail, hsplit, hne⟩ :=
      head_split_of_infix hsep (byText ++ zeroPad 10 node.seq) hoccurs
    rw [Decodes, nodeEntry, Node.name, hsplit] at hdecodes
    rcases tail with - | ⟨second, tail⟩
    · exact absurd hdecodes (by simp)
    · have hentry : toLex (second, head) = toLex (zeroPad 10 node.seq, node.owner.memberId) :=
        Except.ok.inj hdecodes
      exact hne (Prod.mk.inj (toLex_inj.mp hentry)).2
  · intro hoccurs
    have hsplit : split byText node.name = [node.owner.memberId, zeroPad 10 node.seq] := by
      rw [Node.name, split_append hsep fun tail hne htail ↦
        Member.not_prefix_of_suffix hoccurs hne htail, split_of_not_infix (not_infix_zeroPad _ _)]
    rw [Decodes, nodeEntry, hsplit]
    rfl

/-! ## The election

Texts of one width are ordered like the numbers they stand for. Where all names are taken apart
correctly, the smallest entry is the one of the smallest number; the order of the list does not
matter, as the numbers differ. -/

private theorem mapM_ok {ε α β : Type} {f : α → Except ε β} {g : α → β} {as : List α}
    (h : ∀ a ∈ as, f a = .ok (g a)) : as.mapM f = .ok (as.map g) := by
  induction as with
  | nil => rfl
  | cons a as ih =>
    obtain ⟨ha, has⟩ := List.forall_mem_cons.mp h
    rw [List.mapM_cons, ha, ih has]
    rfl

private theorem entry_le {node other : Node} (h : node.seq < other.seq) :
    toLex (zeroPad 10 node.seq, node.owner.memberId)
      ≤ toLex (zeroPad 10 other.seq, other.owner.memberId) := by
  rw [Prod.Lex.le_iff]
  refine Or.inl (zeroPad_lt ?_)
  rwa [Nat.mod_eq_of_lt node.seq.isLt, Nat.mod_eq_of_lt other.seq.isLt]

/-- The owner of the smallest sequence number wins, if all names are taken apart correctly. -/
theorem elected_eq {nodes : List Node} {node : Node} (hseq : (nodes.map Node.seq).Nodup)
    (hdecodes : ∀ node ∈ nodes, node.Decodes) (hmem : node ∈ nodes)
    (hmin : ∀ other ∈ nodes, node.seq ≤ other.seq) :
    elected (nodes.map Node.name) = .ok node.owner.memberId := by
  have hentries : (nodes.map Node.name).mapM nodeEntry
      = .ok (nodes.map fun node ↦ toLex (zeroPad 10 node.seq, node.owner.memberId)) := by
    rw [List.mapM_map]
    exact mapM_ok hdecodes
  have hmin : (nodes.map fun node ↦ toLex (zeroPad 10 node.seq, node.owner.memberId)).min?
      = some (toLex (zeroPad 10 node.seq, node.owner.memberId)) := by
    rw [List.min?_eq_some_iff]
    refine ⟨List.mem_map_of_mem hmem, fun entry hentry ↦ ?_⟩
    obtain ⟨other, hother, rfl⟩ := List.mem_map.mp hentry
    rcases (hmin other hother).lt_or_eq with hlt | heq
    · exact entry_le hlt
    · rw [List.inj_on_of_nodup_map hseq hmem hother heq]
  rw [elected, hentries]
  simp only [bind, Except.bind, hmin]
  rfl

/-- All names are taken apart where they were put together, and the members that run `_elect` on the
list agree that the owner of the smallest sequence number is the leader, and nobody else. -/
structure ElectsOwner (members : Set Member) (nodes : List Node) : Prop where
  decodes : ∀ node ∈ nodes, node.Decodes
  agrees : ∃ node ∈ nodes, (∀ other ∈ nodes, node.seq ≤ other.seq) ∧
    ∀ m ∈ members, ∀ wasLeader, ∃ isLeader,
      elect m.memberId wasLeader (nodes.map Node.name) = .ok isLeader ∧
        (isLeader = true ↔ m = node.owner)

theorem elect_eq {memberId winner : Str} {instanceList : List Str} (isLeader : Bool)
    (h : elected instanceList = .ok winner) :
    elect memberId isLeader instanceList = .ok (decide (winner = memberId)) := by
  rw [elect, h]
  by_cases heq : winner = memberId
  · rw [decide_eq_true heq]
    rcases isLeader with - | -
    · exact if_pos heq
    · exact if_pos heq
  · rw [decide_eq_false heq]
    exact if_neg heq

/-- **Who is elected.** For nodes of some members, with different sequence numbers and in any order:
all members agree on the owner of the smallest sequence number, and all names are taken apart
correctly, if and only if no owner has `-by-` in the name of its host. -/
theorem electsOwner_iff {members : Set Member} {nodes : List Node} (hnodes : nodes ≠ [])
    (hids : Set.InjOn Member.memberId members) (howners : ∀ node ∈ nodes, node.owner ∈ members)
    (hseq : (nodes.map Node.seq).Nodup) :
    ElectsOwner members nodes ↔ ∀ node ∈ nodes, ¬ byText <:+: node.owner.host := by
  constructor
  · exact fun h node hmem ↦ node.decodes_iff.mp (h.decodes node hmem)
  · intro h
    have hdecodes : ∀ node ∈ nodes, node.Decodes := fun node hmem ↦
      node.decodes_iff.mpr (h node hmem)
    obtain ⟨node, hmem, hmin⟩ : ∃ node ∈ nodes, ∀ other ∈ nodes, node.seq ≤ other.seq := by
      have hne : nodes.toFinset.Nonempty := List.toFinset_nonempty_iff nodes |>.mpr hnodes
      obtain ⟨node, hmem, hmin⟩ := nodes.toFinset.exists_min_image Node.seq hne
      exact ⟨node, List.mem_toFinset.mp hmem, fun other hother ↦
        hmin other (List.mem_toFinset.mpr hother)⟩
    refine ⟨hdecodes, node, hmem, hmin, fun m hm wasLeader ↦ ⟨_, elect_eq wasLeader
      (elected_eq hseq hdecodes hmem hmin), ?_⟩⟩
    rw [decide_eq_true_iff]
    exact ⟨fun heq ↦ hids hm (howners node hmem) heq.symm,
      fun heq ↦ congrArg Member.memberId heq.symm⟩

/-- A member on the given host. -/
def memberOn (host : Str) (workerId : ℤ) : Member := ⟨host, workerId, ⟨Vector.replicate 32 0⟩⟩

/-- Two members on one host, the second of which has two nodes. -/
theorem electsOwner_iff_web :
    ElectsOwner {memberOn "web".toList 0, memberOn "web".toList 1}
      [⟨memberOn "web".toList 1, 12⟩, ⟨memberOn "web".toList 0, 7⟩,
        ⟨memberOn "web".toList 1, 3⟩] := by
  refine (electsOwner_iff (List.cons_ne_nil _ _) ?_ ?_ (by decide)).mpr ?_
  · rintro m (rfl | rfl) n (rfl | rfl) heq
    · rfl
    · exact absurd heq (by decide +kernel)
    · exact absurd heq (by decide +kernel)
    · rfl
  · simp
  · decide +kernel

/-- The only member is on a host named `stand-by-1`, and does not elect itself. -/
theorem standBy_not_electsOwner :
    let m := memberOn "stand-by-1".toList 0
    elect m.memberId false [(⟨m, 0⟩ : Node).name] = .ok false ∧ ¬ ElectsOwner {m} [⟨m, 0⟩] := by
  intro m
  have hnot : elect m.memberId false [(⟨m, 0⟩ : Node).name] = .ok false := by decide +kernel
  refine ⟨hnot, fun h ↦ ?_⟩
  obtain ⟨node, hmem, -, hagrees⟩ := h.agrees
  obtain ⟨isLeader, helect, hiff⟩ := hagrees m rfl false
  obtain rfl : isLeader = false := (Except.ok.inj (hnot.symm.trans helect)).symm
  rw [List.mem_singleton.mp hmem] at hiff
  exact absurd (hiff.mpr rfl) (by decide)

end Daemon

end CppRepo
