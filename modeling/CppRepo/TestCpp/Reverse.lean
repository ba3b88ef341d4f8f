import CppRepo.Library.Chain

/-!
# Reversal of a linked list

`reverse` turns the pointers of a list with three cursors: `index` is turned to point to `suf`, and
`pre` is where to go on. The `next` of the first node is cleared inside the loop, so that it is
cleared only if the loop body is run, that is for a list of at least three nodes.
-/

namespace CppRepo

namespace Reverse

/-- How a run ends that does not return. -/
inductive Stop where
  | cutOff
  | exit (code : ℤ)
  deriving DecidableEq, Repr

/-- A program on nodes with an `int`. -/
abbrev ReverseM (α : Type) := EStateM (Fault Stop) (Links ℤ) α

/-- Where the loop first sees the first node, it clears its `next`. -/
def detach (start suf : Pointer) : ReverseM Unit :=
  if suf = start then writeLink suf none else pure ⟨⟩

/-- The loop of `reverse`, which leaves `suf` and `index`. -/
def reverseLoop (start end' : Pointer) :
    ℕ → Pointer → Pointer → Pointer → ReverseM (Pointer × Pointer)
  | 0, suf, index, pre =>
    if index ≠ end' ∧ pre ≠ none then throw (.thrown .cutOff) else return (suf, index)
  | rounds + 1, suf, index, pre => do
    if index ≠ end' ∧ pre ≠ none then
      detach start suf
      writeLink index suf
      let suf := index
      let index := pre
      let pre ← readLink pre
      reverseLoop start end' rounds suf index pre
    else
      return (suf, index)

/-- `reverse`. -/
def reverse (rounds : ℕ) (start end' : Pointer) : ReverseM (Pointer × Pointer) := do
  if start = none then throw (.thrown (.exit (-1)))
  else if start = end' then return (start, end')
  else
    let suf := start
    let index ← readLink start
    let pre ← readLink index
    let (suf, index) ← reverseLoop start end' rounds suf index pre
    writeLink index suf
    return (index, start)

variable {h : Links ℤ} {start end' : Pointer} {a b c i s : Address} {nodes rest back : List Address}
  {rounds : ℕ}

/-! ## The loop

Once the loop has been through its first round, the list falls into the part that is turned, with
`suf` in front of it, and the part that begins with `index`. Each round moves one node from the
second part to the first; the last node of the list is left for the statement after the loop. -/

private theorem ne_end (hend : end' = none ∨ end' = (i :: c :: rest).getLast?) (hi : i ∉ c :: rest)
    : some i ≠ end' := by
  rcases hend with rfl | rfl
  · exact Option.some_ne_none i
  · intro heq
    rw [List.getLast?_cons_cons] at heq
    exact hi (List.mem_of_getLast? heq.symm)

/-- What the loop leaves: all nodes of `nodes` but the last are turned, in front of `back`. -/
def Turned (h h' : Links ℤ) (nodes back : List Address) (p : Pointer × Pointer) : Prop :=
  ∃ init l q, nodes = init ++ [l] ∧ p.2 = some l ∧ h'.Chain p.1 (init.reverse ++ back) ∧
    h'.next l = some q ∧ h'.content = h.content

theorem ensures_reverseLoop (hback : h.Chain (some s) (s :: back))
    (hrest : h.Chain (some i) (i :: rest)) (hnodup : (s :: back ++ i :: rest).Nodup)
    (hstart : a ∈ back) (hend : end' = none ∨ end' = (i :: rest).getLast?)
    (hrounds : rest.length ≤ rounds) :
    Ensures (reverseLoop (some a) end' rounds (some s) (some i) rest.head?) h
      (fun p h' ↦ Turned h h' (i :: rest) (s :: back) p) fun _ _ ↦ False := by
  obtain ⟨-, q, hi, hq⟩ := hrest
  induction rest generalizing h s i back rounds q with
  | nil =>
    have hdone : ¬ (some i ≠ end' ∧ ([] : List Address).head? ≠ none) := fun hgo ↦ hgo.2 rfl
    have hturned : Turned h h [i] (s :: back) (some s, some i) :=
      ⟨[], i, q, rfl, rfl, hback, hi, rfl⟩
    cases rounds <;> rw [reverseLoop, if_neg hdone] <;> exact hturned
  | cons j rest ih =>
    obtain ⟨rfl, q, hj, hq⟩ := hq
    rw [List.length_cons] at hrounds
    obtain ⟨rounds, rfl⟩ : ∃ n, rounds = n + 1 := ⟨rounds - 1, by omega⟩
    obtain ⟨hbacknodup, hrestnodup, hdisjoint⟩ := List.nodup_append.mp hnodup
    have hsa : some s ≠ some a := by
      rintro heq
      obtain rfl := Option.some_inj.mp heq
      exact (List.nodup_cons.mp hbacknodup).1 hstart
    have hiback : i ∉ s :: back := fun hmem ↦ hdisjoint i hmem i List.mem_cons_self rfl
    have hirest : i ∉ j :: rest := (List.nodup_cons.mp hrestnodup).1
    have hgo : some i ≠ end' ∧ (j :: rest).head? ≠ none :=
      ⟨ne_end hend hirest, Option.some_ne_none j⟩
    have hjne : j ≠ i := fun heq ↦ hirest (heq ▸ List.mem_cons_self)
    have hj' : (h.setNext i (some s)).next j = some q := by
      rw [Links.next_setNext_of_ne hjne, hj]
    have htail : (h.setNext i (some s)).Chain (some j) (j :: rest) :=
      (Links.chain_cons hj hq).setNext hirest
    rw [reverseLoop, if_pos hgo, detach, if_neg hsa, pure_bind, ensures_bind, ensures_writeLink hi,
      List.head?_cons, ensures_bind, ensures_readLink hj']
    obtain ⟨-, q', hq', htail⟩ := htail
    obtain rfl := Option.some_inj.mp (hq'.symm.trans hj')
    rw [htail.eq_head?]
    refine (ih (hback.push hiback hi) ?_ (List.mem_cons_of_mem s hstart) ?_ (by omega) q' hj'
      htail).mono ?_ fun _ _ ↦ id
    · exact List.perm_middle.nodup_iff.mp hnodup
    · rwa [List.getLast?_cons_cons] at hend
    · rintro p h' ⟨init, l, q, heq, hp, hchain, hl, hcontent⟩
      refine ⟨i :: init, l, q, by rw [heq]; rfl, hp, ?_, hl, ?_⟩
      · simpa using hchain
      · rw [hcontent, Links.content_setNext]

/-! ## The reversal

The loop body is run for a list of three nodes or more. With two, the last statement makes them
point to each other; with one, there is either nothing to do, or a null pointer is followed. -/

/-- The list is reversed: the last and the first node are returned, and from the last all nodes are
followed in the reverse order up to a null pointer. The nodes hold what they held. -/
def Reversed (h h' : Links ℤ) (nodes : List Address) (p : Pointer × Pointer) : Prop :=
  p = (nodes.getLast?, nodes.head?) ∧ h'.Chain p.1 nodes.reverse ∧ h'.content = h.content

private theorem last_notMem {init : List Address} (hnodup : (back ++ (init ++ [i])).Nodup) :
    i ∉ init.reverse ++ back := by
  rw [← List.append_assoc] at hnodup
  intro hmem
  have hmem' : i ∈ back ++ init := by
    rcases List.mem_append.mp hmem with hmem | hmem
    · exact List.mem_append_right back (List.mem_reverse.mp hmem)
    · exact List.mem_append_left init hmem
  exact (List.nodup_append.mp hnodup).2.2 i hmem' i List.mem_cons_self rfl

private theorem ensures_reverse_of_three (hchain : h.Chain start (a :: b :: c :: rest))
    (hend : end' = none ∨ end' = (a :: b :: c :: rest).getLast?) (hrounds : rest.length < rounds) :
    Ensures (reverse rounds start end') h (fun p h' ↦ Reversed h h' (a :: b :: c :: rest) p)
      fun _ _ ↦ False := by
  have hnodup := hchain.nodup
  obtain ⟨rfl, q, ha, rfl, q, hb, rfl, q, hc, hq⟩ := hchain
  obtain ⟨rounds, rfl⟩ : ∃ n, rounds = n + 1 := ⟨rounds - 1, by omega⟩
  obtain ⟨hanodup, hbnodup, -⟩ : a ∉ b :: c :: rest ∧ b ∉ c :: rest ∧ (c :: rest).Nodup := by
    rwa [List.nodup_cons, List.nodup_cons] at hnodup
  have hne : some a ≠ end' := ne_end hend hanodup
  rw [List.getLast?_cons_cons] at hend
  have hgo : some b ≠ end' ∧ some c ≠ none := ⟨ne_end hend hbnodup, Option.some_ne_none c⟩
  rw [List.getLast?_cons_cons] at hend
  have hturnedNodup : ([b, a] ++ c :: rest).Nodup :=
    (List.Perm.swap a b (c :: rest)).nodup_iff.mpr hnodup
  have hba : b ≠ a := fun heq ↦ hanodup (heq ▸ List.mem_cons_self)
  have hbacknodup : b ∉ [a] := fun hmem ↦ hba (List.mem_singleton.mp hmem)
  have hb' : (h.setNext a none).next b = some (some c) := by
    rw [Links.next_setNext_of_ne hba, hb]
  -- The first node is cleared and the second turned.
  have hback : ((h.setNext a none).setNext b (some a)).Chain (some b) [b, a] :=
    (Links.chain_cons (Links.next_setNext_self ha) Links.chain_nil).push hbacknodup hb'
  have hrest : ((h.setNext a none).setNext b (some a)).Chain (some c) (c :: rest) := by
    have hacut : a ∉ c :: rest := fun hmem ↦ hanodup (List.mem_cons_of_mem b hmem)
    exact ((Links.chain_cons hc hq).setNext hacut).setNext hbnodup
  obtain ⟨-, q', hc', hq'⟩ := hrest
  rw [reverse, if_neg (Option.some_ne_none a), if_neg hne, ensures_bind, ensures_readLink ha,
    ensures_bind, ensures_readLink hb, reverseLoop, if_pos hgo, detach, if_pos rfl, ensures_bind,
    ensures_bind, ensures_writeLink ha, ensures_bind, ensures_writeLink hb', ensures_bind,
    ensures_readLink hc', hq'.eq_head?]
  refine (ensures_reverseLoop hback ⟨rfl, q', hc', hq'⟩ ?_ List.mem_cons_self hend
    (by omega)).mono ?_ fun _ _ ↦ id
  · exact hturnedNodup
  · rintro ⟨suf, index⟩ h' ⟨init, l, q, heq, rfl, hturned, hl, hcontent⟩
    have hlcut : l ∉ init.reverse ++ [b, a] := by
      rw [heq] at hturnedNodup
      exact last_notMem hturnedNodup
    rw [ensures_bind, ensures_writeLink hl]
    refine ⟨?_, ?_, ?_⟩
    · rw [List.getLast?_cons_cons, List.getLast?_cons_cons, heq, List.getLast?_concat,
        List.head?_cons]
    · rw [heq]
      simpa using hturned.push hlcut hl
    · rw [Links.content_setNext, hcontent, Links.content_setNext, Links.content_setNext]

private theorem ensures_reverse_of_two (hchain : h.Chain start [a, b])
    (hend : end' = none ∨ end' = some b) :
    Ensures (reverse rounds start end') h (fun _ h' ↦ h'.next a = some (some b))
      fun _ _ ↦ False := by
  have hnodup := hchain.nodup
  obtain ⟨rfl, q, ha, rfl, q, hb, rfl⟩ := hchain
  have hab : a ≠ b := fun heq ↦ (List.nodup_cons.mp hnodup).1 (heq ▸ List.mem_cons_self)
  have hne : some a ≠ end' := by
    rcases hend with rfl | rfl
    · exact Option.some_ne_none a
    · exact fun heq ↦ hab (Option.some_inj.mp heq)
  have hdone : ¬ (some b ≠ end' ∧ (none : Pointer) ≠ none) := fun hgo ↦ hgo.2 rfl
  have hloop : reverseLoop (some a) end' rounds (some a) (some b) none = pure (some a, some b) := by
    cases rounds <;> rw [reverseLoop, if_neg hdone]
  rw [reverse, if_neg (Option.some_ne_none a), if_neg hne, ensures_bind, ensures_readLink ha,
    ensures_bind, ensures_readLink hb, hloop, pure_bind, ensures_bind, ensures_writeLink hb]
  change (h.setNext b (some a)).next a = some (some b)
  rw [Links.next_setNext_of_ne hab, ha]

private theorem not_reversed_of_next {h' : Links ℤ} {p : Pointer × Pointer}
    (hnext : h'.next a = some (some b)) : ¬ Reversed h h' [a, b] p := by
  rintro ⟨-, ⟨-, q, -, -, q', hq', rfl⟩, -⟩
  exact absurd (Option.some_inj.mp (hq'.symm.trans hnext)) (Option.some_ne_none b).symm

private theorem ensures_reverse_of_one (hchain : h.Chain start [a]) :
    Ensures (reverse rounds start none) h (fun _ _ ↦ False) fun e _ ↦ e = .undefinedBehaviour := by
  obtain ⟨rfl, q, ha, rfl⟩ := hchain
  rw [reverse, if_neg (Option.some_ne_none a), if_neg (Option.some_ne_none a), ensures_bind,
    ensures_readLink ha, ensures_bind]
  exact rfl

/-- **Reversal.** For a list with at least one node, given with its last node or with a null
pointer, `reverse` reverses the list if and only if it has at least three nodes, or has one and is
given with it. -/
theorem reverse_iff (h : Links ℤ) (start end' : Pointer) (nodes : List Address)
    (hchain : h.Chain start nodes) (hne : nodes ≠ [])
    (hend : end' = none ∨ end' = nodes.getLast?) :
    (∃ n, ∀ rounds ≥ n, Ensures (reverse rounds start end') h (fun p h' ↦ Reversed h h' nodes p)
      fun _ _ ↦ False) ↔ 3 ≤ nodes.length ∨ nodes.length = 1 ∧ end' = nodes.getLast? := by
  rcases nodes with - | ⟨a, - | ⟨b, - | ⟨c, rest⟩⟩⟩
  · exact absurd rfl hne
  · rcases hend with rfl | rfl
    · refine iff_of_false ?_ (by simp)
      rintro ⟨n, hn⟩
      obtain ⟨p, h', hrun, -⟩ := (hn n le_rfl).exists_ok
      exact (ensures_reverse_of_one hchain).of_ok hrun
    · refine iff_of_true ⟨0, fun rounds _ ↦ ?_⟩ (.inr ⟨rfl, rfl⟩)
      obtain ⟨rfl, hnext⟩ := hchain
      rw [reverse, if_neg (Option.some_ne_none a), List.getLast?_singleton, if_pos rfl]
      exact ⟨rfl, ⟨rfl, hnext⟩, rfl⟩
  · refine iff_of_false ?_ (by simp)
    rintro ⟨n, hn⟩
    obtain ⟨p, h', hrun, hreversed⟩ := (hn n le_rfl).exists_ok
    exact not_reversed_of_next ((ensures_reverse_of_two hchain hend).of_ok hrun) hreversed
  · refine iff_of_true ⟨rest.length + 1, fun rounds hrounds ↦ ?_⟩ (.inl (by simp))
    exact ensures_reverse_of_three hchain hend (by omega)

/-- The nodes that `cst` makes. -/
def cstNodes : Links ℤ
  | 1 => some ⟨2, some 2⟩
  | 2 => some ⟨1, some 3⟩
  | 3 => some ⟨4, none⟩
  | _ => none

private theorem chain_cstNodes : cstNodes.Chain (some 1) [1, 2, 3] :=
  ⟨rfl, some 2, rfl, rfl, some 3, rfl, rfl, none, rfl, rfl⟩

/-- The call in `main`. -/
theorem reverse_iff_main :
    ∃ n, ∀ rounds ≥ n, Ensures (reverse rounds (some 1) none) cstNodes
      (fun p h' ↦ Reversed cstNodes h' [1, 2, 3] p) fun _ _ ↦ False :=
  (reverse_iff cstNodes (some 1) none [1, 2, 3] chain_cstNodes (by decide) (.inl rfl)).mpr
    (.inl (by decide))

/-- The second and third node alone are not reversed. -/
theorem two_not_reversed :
    ¬ ∀ (h : Links ℤ) (start end' : Pointer) (nodes : List Address), h.Chain start nodes →
      nodes ≠ [] → end' = none ∨ end' = nodes.getLast? →
        ∃ n, ∀ rounds ≥ n, Ensures (reverse rounds start end') h
          (fun p h' ↦ Reversed h h' nodes p) fun _ _ ↦ False := by
  intro hall
  have hchain : cstNodes.Chain (some 2) [2, 3] := ⟨rfl, some 3, rfl, rfl, none, rfl, rfl⟩
  obtain ⟨n, hn⟩ := hall cstNodes (some 2) none [2, 3] hchain (by decide) (.inl rfl)
  obtain ⟨p, h', hrun, hreversed⟩ := (hn n le_rfl).exists_ok
  exact not_reversed_of_next ((ensures_reverse_of_two hchain (.inl rfl)).of_ok hrun) hreversed

end Reverse

end CppRepo
