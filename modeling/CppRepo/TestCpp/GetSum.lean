import CppRepo.Library.Heap
import CppRepo.Library.PairSum

/-!
# Pairs with a given sum, printed

`getSumB` sorts its argument and walks over it from both ends: where the two elements have the sum
it prints them and moves both ends, and otherwise it moves the end whose element is too small or too
large to have a partner. Sums are taken without overflow. The state of a program is what was
printed.
-/

namespace CppRepo

namespace Meeting

/-- The line `left+right=target`. -/
structure SumLine where
  left : ℤ
  right : ℤ
  target : ℤ
  deriving DecidableEq, Repr

/-- A program that prints lines. -/
abbrev PrintM (α : Type) := EStateM (Fault CutOff) (List SumLine) α

/-- The loop of `getSumB`. -/
def sumLoop (a : List ℤ) (target : ℤ) : ℕ → ℕ → ℕ → PrintM Unit
  | 0, left, right => if left < right then throw (.thrown .cutOff) else return
  | rounds + 1, left, right => do
    if left < right then
      if (← vectorAt a left) + (← vectorAt a right) = target then
        let line : SumLine := ⟨← vectorAt a left, ← vectorAt a right, target⟩
        modify (· ++ [line])
        sumLoop a target rounds (left + 1) (right - 1)
      else if (← vectorAt a left) + (← vectorAt a right) < target then
        sumLoop a target rounds (left + 1) right
      else
        sumLoop a target rounds left (right - 1)
    else
      return

/-- `getSumB`. -/
def getSumB (rounds : ℕ) (a : List ℤ) (target : ℤ) : PrintM Unit := do
  let a := a.insertionSort (· ≤ ·)
  sumLoop a target rounds 0 (sizeMinusOne a)

/-- The loop of `func`. -/
def funcLoop (rounds : ℕ) (a : List ℤ) : List ℤ → PrintM Unit
  | [] => return
  | target :: b => do
    getSumB rounds a target
    funcLoop rounds a b

/-- `func`. -/
def func (rounds : ℕ) (a b : List ℤ) : PrintM Unit := do
  if a.isEmpty || b.isEmpty then return
  funcLoop rounds a b

variable {a pre w post : List ℤ} {target : ℤ} {printed : List SumLine}

/-! ## The loop

The array is taken apart into what is before the left end, what is between the ends, and what is
after the right end. The loop is followed with the part in between as its variable, which loses an
element at one end or at both in each round; so the number of rounds is bounded by its length. -/

/-- The line of a pair. -/
def lineOf (target : ℤ) (p : ℤ × ℤ) : SumLine := ⟨p.1, p.2, target⟩

private theorem lineOf_injective (target : ℤ) : Function.Injective (lineOf target) := by
  rintro ⟨x, y⟩ ⟨x', y'⟩ h
  obtain ⟨rfl, rfl, -⟩ := SumLine.mk.inj h
  rfl

private theorem le_ends {f l : ℤ} {m : List ℤ}
    (hsorted : (pre ++ (f :: (m ++ [l]) ++ post)).Pairwise (· ≤ ·)) :
    ∀ y ∈ f :: (m ++ [l]), f ≤ y ∧ y ≤ l := by
  have hw := (List.pairwise_append.mp (List.pairwise_append.mp hsorted).2.1).1
  have hcons := List.pairwise_cons.mp hw
  have hfl : f ≤ l := hcons.1 l (List.mem_append_right _ List.mem_cons_self)
  intro y hy
  rcases List.mem_cons.mp hy with rfl | hy
  · exact ⟨le_rfl, hfl⟩
  refine ⟨hcons.1 y hy, ?_⟩
  rcases List.mem_append.mp hy with hm | hl
  · exact (List.pairwise_append.mp hcons.2).2.2 y hm l List.mem_cons_self
  · exact (List.mem_singleton.mp hl).le

private theorem exists_ends (h : 1 < w.length) : ∃ f m l, w = f :: (m ++ [l]) := by
  obtain ⟨f, w, rfl⟩ := List.exists_cons_of_length_pos (by omega : 0 < w.length)
  have hne : w ≠ [] := by
    rintro rfl
    exact absurd h (lt_irrefl 1)
  obtain ⟨m, l, rfl⟩ := (List.eq_nil_or_concat' w).resolve_left hne
  exact ⟨f, m, l, rfl⟩

section Ends

variable (pre post : List ℤ) (f l : ℤ) (m : List ℤ)

private theorem getElem?_front : (pre ++ (f :: (m ++ [l]) ++ post))[pre.length]? = some f := by
  rw [List.getElem?_append_right le_rfl, Nat.sub_self]
  rfl

private theorem getElem?_back :
    (pre ++ (f :: (m ++ [l]) ++ post))[pre.length + (m.length + 1)]? = some l := by
  rw [List.getElem?_append_right (Nat.le_add_right _ _), Nat.add_sub_cancel_left]
  simp

end Ends

theorem ensures_sumLoop {rounds left right : ℕ}
    (hsorted : (pre ++ (w ++ post)).Pairwise (· ≤ ·)) (hleft : left = pre.length)
    (hright : right + 1 = left + w.length) (hrounds : w.length ≤ rounds) :
    Ensures (sumLoop (pre ++ (w ++ post)) target rounds left right) printed
      (fun _ out ↦ ∃ ps, out = printed ++ ps.map (lineOf target) ∧ CountsPairs target w ps)
      fun _ _ ↦ False := by
  induction rounds generalizing pre w post left right printed with
  | zero =>
    have hlt : ¬ left < right := by omega
    rw [sumLoop, if_neg hlt]
    exact ⟨[], (List.append_nil _).symm, .of_length_le_one (by omega)⟩
  | succ rounds ih =>
    by_cases hlt : left < right
    case neg =>
      rw [sumLoop, if_neg hlt]
      exact ⟨[], (List.append_nil _).symm, .of_length_le_one (by omega)⟩
    obtain ⟨f, m, l, rfl⟩ := exists_ends (by omega : 1 < w.length)
    rw [List.length_cons, List.length_append, List.length_singleton] at hright hrounds
    have hends := le_ends hsorted
    have hf : (pre ++ (f :: (m ++ [l]) ++ post))[left]? = some f :=
      hleft ▸ getElem?_front pre post f l m
    have hl : (pre ++ (f :: (m ++ [l]) ++ post))[right]? = some l := by
      have hr : right = pre.length + (m.length + 1) := by omega
      exact hr ▸ getElem?_back pre post f l m
    have hmoveLeft : pre ++ (f :: (m ++ [l]) ++ post) = pre ++ [f] ++ (m ++ [l] ++ post) := by simp
    have hmoveRight : pre ++ (f :: (m ++ [l]) ++ post) = pre ++ (f :: m ++ ([l] ++ post)) := by simp
    have hmoveBoth :
        pre ++ (f :: (m ++ [l]) ++ post) = pre ++ [f] ++ (m ++ ([l] ++ post)) := by simp
    have hlast : (l :: (f :: m)).Perm (f :: (m ++ [l])) :=
      (List.perm_append_singleton l (f :: m)).symm
    rw [sumLoop, if_pos hlt, vectorAt_of_getElem? hf, vectorAt_of_getElem? hl, pure_bind, pure_bind]
    by_cases heq : f + l = target
    · rw [if_pos heq, pure_bind, pure_bind, ensures_bind, ensures_modify, hmoveBoth]
      refine (ih (hmoveBoth ▸ hsorted) (by simp; omega) (by omega) (by omega)).mono ?_ fun _ _ ↦ id
      rintro - out ⟨ps, rfl, hps⟩
      refine ⟨(f, l) :: ps, by simp [lineOf], ?_⟩
      have hfl := (hends l (List.mem_cons_of_mem _ (List.mem_append_right _ List.mem_cons_self))).1
      refine (hps.take hfl heq).perm (List.Perm.cons f ?_)
      exact (List.perm_append_singleton l m).symm
    rw [if_neg heq, pure_bind, pure_bind]
    by_cases hless : f + l < target
    · rw [if_pos hless, hmoveLeft]
      refine (ih (hmoveLeft ▸ hsorted) (by simp; omega) (by simp; omega) (by simp; omega)).mono ?_
        fun _ _ ↦ id
      rintro - out ⟨ps, rfl, hps⟩
      refine ⟨ps, rfl, hps.leave fun y hy ↦ ?_⟩
      have hy := (hends y hy).2
      omega
    · rw [if_neg hless, hmoveRight]
      refine (ih (hmoveRight ▸ hsorted) hleft (by simp; omega) (by simp; omega)).mono ?_
        fun _ _ ↦ id
      rintro - out ⟨ps, rfl, hps⟩
      refine ⟨ps, rfl, CountsPairs.perm (hps.leave fun y hy ↦ ?_) hlast⟩
      have hy := (hends y (hlast.mem_iff.mp hy)).1
      omega

/-! ## What is printed

`PrintsPairs` is about the argument of `getSumB` and does not mention the order: a value may occur
many times, and a pair of values is printed as often as there are pairs of positions for it, no
position being used twice. -/

/-- The lines for the pairs of an array that have the sum: as many with given values as there can
be, and no others. -/
structure PrintsPairs (a : List ℤ) (target : ℤ) (lines : List SumLine) : Prop where
  line : ∀ s ∈ lines, s.target = target ∧ s.left + s.right = target ∧ s.left ≤ s.right
  count_of_lt : ∀ x y, x < y → x + y = target →
    lines.count ⟨x, y, target⟩ = min (a.count x) (a.count y)
  count_self : ∀ x, 2 * x = target → lines.count ⟨x, x, target⟩ = a.count x / 2
  greatest : IsGreatest {n | ∃ ps, IsDisjointPairs target a ps ∧ ps.length = n} lines.length

private theorem printsPairs_of_countsPairs {ps : List (ℤ × ℤ)} (h : CountsPairs target a ps) :
    PrintsPairs a target (ps.map (lineOf target)) := by
  have hcount : ∀ x y, (ps.map (lineOf target)).count ⟨x, y, target⟩ = ps.count (x, y) :=
    fun x y ↦ List.count_map_of_injective ps (lineOf target) (lineOf_injective target) (x, y)
  refine ⟨fun s hs ↦ ?_, fun x y hlt hsum ↦ ?_, fun x hx ↦ ?_, ?_⟩
  · obtain ⟨p, hp, rfl⟩ := List.mem_map.mp hs
    exact ⟨rfl, h.sum p hp⟩
  · rw [hcount, h.count_of_lt x y hlt hsum]
  · rw [hcount, h.count_self x (by omega)]
  · rw [List.length_map]
    exact h.isGreatest

theorem ensures_getSumB {rounds : ℕ} (hne : a ≠ []) (hrounds : a.length ≤ rounds) :
    Ensures (getSumB rounds a target) printed
      (fun _ out ↦ ∃ lines, out = printed ++ lines ∧ PrintsPairs a target lines)
      fun _ _ ↦ False := by
  have hperm : (a.insertionSort (· ≤ ·)).Perm a := List.perm_insertionSort _ a
  have hsorted : ([] ++ (a.insertionSort (· ≤ ·) ++ [])).Pairwise (· ≤ ·) := by
    rw [List.append_nil, List.nil_append]
    exact List.pairwise_insertionSort _ a
  have hlength := List.length_insertionSort (· ≤ ·) a
  have hpos := List.length_pos_iff.mpr hne
  have hright : sizeMinusOne (a.insertionSort (· ≤ ·)) + 1
      = 0 + (a.insertionSort (· ≤ ·)).length := by
    rw [sizeMinusOne, if_neg (by omega)]
    omega
  have hloop : Ensures (sumLoop ([] ++ (a.insertionSort (· ≤ ·) ++ [])) target rounds 0
      (sizeMinusOne (a.insertionSort (· ≤ ·)))) printed
      (fun _ out ↦ ∃ ps, out = printed ++ ps.map (lineOf target) ∧
        CountsPairs target (a.insertionSort (· ≤ ·)) ps) fun _ _ ↦ False :=
    ensures_sumLoop hsorted rfl hright (by omega)
  rw [List.append_nil, List.nil_append] at hloop
  refine hloop.mono ?_ fun _ _ ↦ id
  rintro - out ⟨ps, rfl, hps⟩
  exact ⟨_, rfl, printsPairs_of_countsPairs (hps.perm hperm)⟩

theorem ensures_funcLoop {rounds : ℕ} {b : List ℤ} (hne : a ≠ [])
    (hrounds : a.length ≤ rounds) : Ensures (funcLoop rounds a b) printed
      (fun _ out ↦ ∃ blocks, out = printed ++ blocks.flatten ∧
        List.Forall₂ (PrintsPairs a) b blocks) fun _ _ ↦ False := by
  induction b generalizing printed with
  | nil => exact ⟨[], (List.append_nil _).symm, .nil⟩
  | cons target b ih =>
    rw [funcLoop, ensures_bind]
    refine (ensures_getSumB hne hrounds).mono ?_ fun _ _ ↦ id
    rintro - out ⟨lines, rfl, hlines⟩
    refine ih.mono ?_ fun _ _ ↦ id
    rintro - out ⟨blocks, rfl, hblocks⟩
    exact ⟨lines :: blocks, by rw [List.flatten_cons, List.append_assoc], .cons hlines hblocks⟩

/-- `func` prints the lines for each target in turn. -/
theorem ensures_func {rounds : ℕ} {b : List ℤ} (hne : a ≠ []) (hrounds : a.length ≤ rounds) :
    Ensures (func rounds a b) printed
      (fun _ out ↦ ∃ blocks, out = printed ++ blocks.flatten ∧
        List.Forall₂ (PrintsPairs a) b blocks) fun _ _ ↦ False := by
  have hisEmpty : a.isEmpty = false := List.isEmpty_eq_false_iff.mpr hne
  rw [func, hisEmpty, Bool.false_or]
  rcases b with - | ⟨target, b⟩
  · exact ⟨[], (List.append_nil _).symm, .nil⟩
  · exact ensures_funcLoop hne hrounds

/-- **Pairs.** For every array that is not empty and every target, `getSumB` ends, reads the array
in its bounds only, and prints the line of each pair of values as often as disjoint pairs of
positions have them, and nothing else. -/
theorem getSumB_prints (a : List ℤ) (target : ℤ) (hne : a ≠ []) (printed : List SumLine) :
    ∃ n, ∀ rounds ≥ n, Ensures (getSumB rounds a target) printed
      (fun _ out ↦ ∃ lines, out = printed ++ lines ∧ PrintsPairs a target lines)
      fun _ _ ↦ False :=
  ⟨a.length, fun _ hrounds ↦ ensures_getSumB hne hrounds⟩

/-- There are two ones and one six. -/
theorem getSumB_prints_seven :
    ∃ n, ∀ rounds ≥ n, Ensures (getSumB rounds [1, 5, 3, 2, 7, 1, 6, 4, 3, 2] 7) []
      (fun _ out ↦ out.count ⟨1, 6, 7⟩ = 1) fun _ _ ↦ False := by
  obtain ⟨n, hn⟩ := getSumB_prints [1, 5, 3, 2, 7, 1, 6, 4, 3, 2] 7 (by decide) []
  refine ⟨n, fun rounds hrounds ↦ (hn rounds hrounds).mono ?_ fun _ _ ↦ id⟩
  rintro - out ⟨lines, rfl, hlines⟩
  exact hlines.count_of_lt 1 6 (by decide) (by decide)

end Meeting

end CppRepo
