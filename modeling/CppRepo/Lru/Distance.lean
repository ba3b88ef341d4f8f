import CppRepo.Library.StackDistance
import CppRepo.Lru.Refinement

/-!
# When a find hits

`find` hits as long as fewer than `max` other keys were used after the last use of its key: an
`add` is a use of its key, and so is a `find` that hits. A `find` that misses is none, and nothing
else makes the map forget a key before its time. This is so as long as no key is erased; an erased
key frees a place that the keys forgotten earlier do not get back.

## The history of uses

The uses of the keys, the last one first, are a list in which a key may occur many times. `recents`
keeps the first occurrence of each, and the map has the first `max` of these. A miss is not a use:
the key is not in the map, and stays out of it. Where keys are erased this is false: a key that was
forgotten does not come back when there is room again.
-/

namespace CppRepo

variable {K V : Type} [DecidableEq K] {max : ℕ} {r : RecencyList max K V} {op : LruMap.Op K V}
  {ops : List (LruMap.Op K V)} {before : List K} {key : K} {v : V} {last : K → Option V}

open LruMap (Op Reply)

namespace LruMap

/-- The call is one of `erase`. -/
def Op.isErase : Op K V → Bool
  | .erase _ => true
  | _ => false

/-- The keys that a call uses: that of an `add`, and that of a `find` which has returned `true`. -/
def uses : Op K V → Reply V → List K
  | .add key _, _ => [key]
  | .find key _, some (true, _) => [key]
  | _, _ => []

/-- The keys that calls have used, the last one first. -/
def history (ops : List (Op K V)) (replies : List (Reply V)) : List K :=
  ((ops.zip replies).flatMap fun (op, reply) ↦ uses op reply).reverse

/-- The value that a call adds for `key`. -/
def Op.added (key : K) : Op K V → Option V
  | .add key' value => if key' = key then some value else none
  | _ => none

/-- The value that was last added for `key`. -/
def lastAdded (key : K) (last : Option V) (ops : List (Op K V)) : Option V :=
  ops.foldl (fun last op ↦ (op.added key).or last) last

omit [DecidableEq K] in
private theorem reverse_uses (op : Op K V) (reply : Reply V) :
    (uses op reply).reverse = uses op reply := by
  rcases op with ⟨k, value⟩ | ⟨k, v⟩ | k
  · rcases reply with - | ⟨- | -, w⟩ <;> rfl
  · rfl
  · rfl

omit [DecidableEq K] in
private theorem history_cons (op : Op K V) (ops : List (Op K V)) (reply : Reply V)
    (replies : List (Reply V)) :
    history (op :: ops) (reply :: replies) = history ops replies ++ uses op reply := by
  rw [history, history, List.zip_cons_cons, List.flatMap_cons, List.reverse_append, reverse_uses]

end LruMap

/-- The list keeps the most recent keys of a history, with their last values. -/
structure RecencyList.Recent (before : List K) (last : K → Option V) (r : RecencyList max K V) :
    Prop where
  keys : r.pairs.keys = (recents before).take max
  value : ∀ k v, r.pairs.lookup k = some v → last k = some v

namespace RecencyList.Recent

theorem empty : Recent [] (fun _ ↦ none) (RecencyList.empty : RecencyList max K V) := by
  refine ⟨List.take_nil.symm, fun k v h ↦ ?_⟩
  rw [RecencyList.empty, AList.lookup_empty] at h
  exact absurd h (by simp)

/-- A key is moved to the front. -/
theorem front {r' : RecencyList max K V} (h : Recent before last r)
    (hkeys : r'.pairs.keys = (key :: r.pairs.keys.erase key).take max) :
    r'.pairs.keys = (recents (key :: before)).take max := by
  rw [hkeys, h.keys, take_cons_erase_take, recents]

private theorem lookup_add {k : K} {w : V} (h : (r.add key v).pairs.lookup k = some w) :
    (r.pairs.insert key v).lookup k = some w := by
  rw [← Option.mem_def, AList.mem_lookup_iff] at h ⊢
  rcases le_or_gt (r.pairs.insert key v).keys.length max with hle | hlt
  · rwa [pairs_add_of_le hle] at h
  · rw [pairs_add_of_lt hlt] at h
    exact List.mem_of_mem_dropLast h

/-- **One call.** -/
theorem step (h : Recent before last r) (hop : op.isErase = false) :
    Recent (LruMap.uses op (r.step op).1 ++ before) (fun k ↦ (op.added k).or (last k))
      (r.step op).2 := by
  cases op with
  | add key v =>
    refine ⟨h.front keys_add, fun k w hw ↦ ?_⟩
    have hinsert := lookup_add hw
    rcases eq_or_ne k key with rfl | hne
    · rw [AList.lookup_insert] at hinsert
      rw [LruMap.Op.added, if_pos rfl, ← hinsert]
      rfl
    · rw [AList.lookup_insert_ne hne] at hinsert
      rw [LruMap.Op.added, if_neg hne.symm, Option.none_or]
      exact h.value k w hinsert
  | find key value =>
    rcases hlookup : r.pairs.lookup key with - | v
    · -- A miss changes nothing.
      have hstep : r.step (.find key value) = (some (false, value), r) := by
        rw [RecencyList.step, find_fst, hlookup, find_of_none hlookup]
        cases value <;> rfl
      rw [hstep]
      exact ⟨h.keys, h.value⟩
    · have hmem : key ∈ r.pairs.keys :=
        AList.mem_keys.mp (AList.lookup_isSome.mp (by rw [hlookup]; rfl))
      have huses : LruMap.uses (.find key value) (r.step (.find key value)).1 = [key] := by
        rw [RecencyList.step, find_fst, hlookup]
        rfl
      rw [huses]
      refine ⟨h.front (keys_find_of_mem hmem), fun k w hw ↦ ?_⟩
      have hadded : (Op.find key value : Op K V).added k = none := rfl
      rw [hadded, Option.none_or]
      change (r.find key).2.pairs.lookup k = some w at hw
      rw [pairs_find_of_some hlookup] at hw
      rcases eq_or_ne k key with rfl | hne
      · rw [AList.lookup_insert] at hw
        exact h.value k w (hlookup.trans hw)
      · rw [AList.lookup_insert_ne hne] at hw
        exact h.value k w hw
  | erase key => exact absurd hop (by simp [LruMap.Op.isErase])

/-- **Many calls.** -/
theorem calls (h : Recent before last r) (hops : ∀ op ∈ ops, op.isErase = false) :
    Recent (LruMap.history ops (run RecencyList.step r ops).1 ++ before)
      (fun k ↦ LruMap.lastAdded k (last k) ops) (run RecencyList.step r ops).2 := by
  induction ops generalizing r before last with
  | nil => exact h
  | cons op ops ih =>
    have hnext := ih (h.step (hops op List.mem_cons_self)) fun op' hop' ↦
      hops op' (List.mem_cons_of_mem _ hop')
    rw [run, LruMap.history_cons, List.append_assoc]
    exact hnext

end RecencyList.Recent

namespace LruMap

/-- **When a find hits.** After calls of `add` and `find` on a map that is empty at first, the map
has the most recently used keys, as many as it has room for. The next `find` hits if its key was
used and fewer than `max` other keys were used since, and then finds the value added last. -/
theorem find_hits_iff (max : UInt64) (ops : List (Op K V))
    (hops : ∀ op ∈ ops, op.isErase = false) (key : K) (value : Option V) :
    ∃ (replies : List (Reply V)) (m : LruMap K V) (found : Bool) (value' : Option V)
        (m' : LruMap K V),
      (ofMax max).calls ops = some (replies, m) ∧
      m.entriesLru.toList = (recents (history ops replies)).take max.toNat ∧
      m.find key value = some ((found, value'), m') ∧
      (found = true ↔
        key ∈ history ops replies ∧ stackDistance key (history ops replies) < max.toNat) ∧
      (found = true → ∃ v, lastAdded key none ops = some v ∧ value' = value.map fun _ ↦ v) := by
  obtain ⟨m, hcalls, hm⟩ := refines_calls max ops
  obtain ⟨m', hfind, -⟩ := hm.find key value
  have hempty : RecencyList.Recent [] (fun _ ↦ none)
      (RecencyList.empty : RecencyList max.toNat K V) := RecencyList.Recent.empty
  have hrecent := hempty.calls hops
  rw [List.append_nil] at hrecent
  refine ⟨_, m, _, _, m', hcalls, hm.represents.keys.trans hrecent.keys, hfind, ?_,
    fun hfound ↦ ?_⟩
  · rw [RecencyList.find_fst, AList.lookup_isSome, AList.mem_keys, ← mem_take_recents_iff]
    exact iff_of_eq (congrArg (key ∈ ·) hrecent.keys)
  · rw [RecencyList.find_fst] at hfound ⊢
    obtain ⟨v, hv⟩ := Option.isSome_iff_exists.mp hfound
    refine ⟨v, hrecent.value key v hv, ?_⟩
    rw [hv]
    rfl

/-- `a` is used again before `c` comes, and so it is `b` that has to go. -/
def useAgain : List (Op Char ℕ) := [.add 'a' 1, .add 'b' 2, .find 'a' (some 0), .add 'c' 3]

theorem find_hits_iff_useAgain :
    ∃ (replies : List (Reply ℕ)) (m : LruMap Char ℕ) (found : Bool) (value' : Option ℕ)
        (m' : LruMap Char ℕ),
      (ofMax 2).calls useAgain = some (replies, m) ∧
      m.entriesLru.toList = (recents (history useAgain replies)).take 2 ∧
      m.find 'b' (some 0) = some ((found, value'), m') ∧
      (found = true ↔
        'b' ∈ history useAgain replies ∧ stackDistance 'b' (history useAgain replies) < 2) := by
  obtain ⟨replies, m, found, value', m', hcalls, hrecent, hfind, hfound, -⟩ :=
    find_hits_iff 2 useAgain (by decide) 'b' (some 0)
  exact ⟨replies, m, found, value', m', hcalls, hrecent, hfind, hfound⟩

end LruMap

end CppRepo
