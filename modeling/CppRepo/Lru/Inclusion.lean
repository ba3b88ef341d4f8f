import CppRepo.Lru.Refinement

/-!
# A larger map loses no hit

Two maps of different capacities are given the same calls. They refine recency lists of these
capacities, and of those the smaller one stays a sublist of the larger one. Hence everything the
smaller map has, the larger one has with the same value, its order of use is that of the smaller map
with more keys in between, and a `find` that hits in the smaller map hits in the larger one.

## Why nothing is lost

That the smaller list is a sublist is not kept by itself: the larger one might evict what the
smaller one still has. So the invariant adds a bound: the larger list has at most as many more pairs
than the smaller one as it has more room. When the larger list is full, the smaller one is, too, and
both evict the last key; what that is for the larger one, the smaller one does not keep.
-/

namespace CppRepo

variable {K V : Type} [DecidableEq K] {max max' : ℕ}

open LruMap (Op Reply)

/-- If the first reply is a hit, the second one is a hit with the same value. -/
def LruMap.HitStays (reply reply' : Reply V) : Prop :=
  ∀ value, reply = some (true, value) → reply' = some (true, value)

/-- One call on both lists. -/
theorem RecencyList.Within.step {small : RecencyList max K V} {large : RecencyList max' K V}
    (h : small.Within large) (op : Op K V) :
    LruMap.HitStays (small.step op).1 (large.step op).1 ∧
      (small.step op).2.Within (large.step op).2 := by
  match op with
  | .find key value =>
    refine ⟨?_, h.find key⟩
    rintro value' hhit
    rw [RecencyList.step, RecencyList.find_fst] at hhit ⊢
    rcases hsmall : small.pairs.lookup key with - | v
    · rw [hsmall] at hhit
      simp at hhit
    · rw [hsmall] at hhit
      rw [h.lookup hsmall]
      exact hhit
  | .add key value => exact ⟨fun _ hhit ↦ absurd hhit (by simp [RecencyList.step]), h.add key value⟩
  | .erase key => exact ⟨fun _ hhit ↦ absurd hhit (by simp [RecencyList.step]), h.erase key⟩

/-- Many calls on both lists. -/
theorem RecencyList.Within.calls (hmax : max ≤ max') (ops : List (Op K V)) :
    List.Forall₂ LruMap.HitStays (RecencyList.calls max ops).1 (RecencyList.calls max' ops).1 ∧
      (RecencyList.calls max ops).2.Within (RecencyList.calls max' ops).2 :=
  run_related (fun _ _ op h ↦ h.step op) (RecencyList.Within.empty hmax) ops

namespace LruMap

/-- **Inclusion.** Give the same calls to two maps that are empty at first, one of them with at
least the capacity of the other. After every sequence of calls, each entry of the smaller map has an
entry of the larger one with the same value, the keys of the smaller map are in the order of use a
sublist of those of the larger one, and every `find` that hit in the smaller map hit in the larger
one and returned the same value. -/
theorem lruMap_inclusion {max max' : UInt64} (hmax : max ≤ max') (ops : List (Op K V)) :
    ∃ (small large : LruMap K V) (replies replies' : List (Reply V)),
      (ofMax max).calls ops = some (replies, small) ∧
      (ofMax max').calls ops = some (replies', large) ∧
      (∀ k e, small.entries.lookup k = some e →
        ∃ e', large.entries.lookup k = some e' ∧ e'.value = e.value) ∧
      small.entriesLru.toList.Sublist large.entriesLru.toList ∧
      List.Forall₂ HitStays replies replies' := by
  obtain ⟨small, hsmall, hs⟩ := refines_calls max ops
  obtain ⟨large, hlarge, hl⟩ := refines_calls max' ops
  obtain ⟨hreplies, hwithin⟩ :=
    RecencyList.Within.calls (UInt64.le_iff_toNat_le.mp hmax) ops
  refine ⟨small, large, _, _, hsmall, hlarge, ?_, ?_, hreplies⟩
  · intro k e he
    have hvalue := hs.represents.value k
    rw [he] at hvalue
    have hlookup := hl.represents.value k
    rw [hwithin.lookup hvalue.symm] at hlookup
    exact Option.map_eq_some_iff.mp hlookup
  · rw [hs.represents.keys, hl.represents.keys]
    exact hwithin.sublist.map Sigma.fst

/-- At capacities 1 and 2: `b` has pushed `a` out of the smaller map only. -/
theorem lruMap_inclusion_one_two :
    ∃ (small large : LruMap Char ℕ) (replies replies' : List (Reply ℕ)),
      (ofMax 1).calls [.add 'a' 1, .add 'b' 2, .find 'a' (some 0), .find 'b' (some 0)] =
        some (replies, small) ∧
      (ofMax 2).calls [.add 'a' 1, .add 'b' 2, .find 'a' (some 0), .find 'b' (some 0)] =
        some (replies', large) ∧
      (∀ k e, small.entries.lookup k = some e →
        ∃ e', large.entries.lookup k = some e' ∧ e'.value = e.value) ∧
      small.entriesLru.toList.Sublist large.entriesLru.toList ∧
      List.Forall₂ HitStays replies replies' :=
  lruMap_inclusion (by decide) _

end LruMap

end CppRepo
