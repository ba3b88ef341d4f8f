import CppRepo.Library.Text
import CppRepo.Library.Exec

/-!
# What the C and C++ libraries do with characters and integers

The documented behaviour of the few standard functions the code calls: `snprintf`, `std::stoi`,
`std::strtoul`, `toupper`, and reading a range of a character array. A read past the end of an
array, a store past its end and a signed overflow are undefined behaviour; the model stops there
with a fault that no caller handles, so that a run without that fault is a run in which none of them
happened.
-/

namespace CppRepo

/-- How a call can end other than by returning: with an exception, or by behaviour the language
leaves undefined. -/
inductive Fault (ε : Type) where
  | thrown (e : ε)
  | undefinedBehaviour
  deriving DecidableEq, Repr

/-- `INT_MAX`. -/
def intMax : ℕ := 2 ^ 31 - 1

/-! ## Integers

An `int` has 32 bits and a `size_t` has 64. A conversion between them is modulo a power of two; a
sum of two `int`s that does not fit is undefined. -/

/-- The numbers an `int` holds. -/
def IntFits (x : ℤ) : Prop := -(intMax : ℤ) - 1 ≤ x ∧ x ≤ intMax

instance : DecidablePred IntFits := fun _ ↦ inferInstanceAs (Decidable (_ ∧ _))

/-- `x + y` with `int`. -/
def sumInt {ε σ : Type} (x y : ℤ) : EStateM (Fault ε) σ ℤ :=
  if IntFits (x + y) then pure (x + y) else throw .undefinedBehaviour

theorem sumInt_of_fits {ε σ : Type} {x y : ℤ} (h : IntFits (x + y)) :
    sumInt (ε := ε) (σ := σ) x y = pure (x + y) := if_pos h

theorem sumInt_of_not_fits {ε σ : Type} {x y : ℤ} (h : ¬ IntFits (x + y)) :
    sumInt (ε := ε) (σ := σ) x y = throw .undefinedBehaviour := if_neg h

/-- The conversion of a `size_t` to `int`. -/
def intOfSize (n : ℕ) : ℤ :=
  if n % 2 ^ 32 ≤ intMax then (n % 2 ^ 32 : ℕ) else (n % 2 ^ 32 : ℕ) - 2 ^ 32

theorem intOfSize_of_le {n : ℕ} (h : n ≤ intMax) : intOfSize n = n := by
  have hmod : n % 2 ^ 32 = n := Nat.mod_eq_of_lt (h.trans_lt (by decide))
  rw [intOfSize, hmod, if_pos h]

theorem intOfSize_neg {n : ℕ} (h : intMax < n) (h' : n < 2 ^ 32) :
    -(intMax : ℤ) - 1 ≤ intOfSize n ∧ intOfSize n < 0 := by
  rw [intOfSize, Nat.mod_eq_of_lt h', if_neg (not_le.mpr h)]
  rw [intMax] at h ⊢
  omega

/-- The conversion of an `int` to `size_t`. -/
def sizeOfInt (x : ℤ) : ℕ := (x % 2 ^ 64).toNat

theorem sizeOfInt_of_nonneg {x : ℤ} (h : 0 ≤ x) (h' : x < 2 ^ 64) : sizeOfInt x = x.toNat := by
  rw [sizeOfInt, Int.emod_eq_of_lt h h']

theorem sizeOfInt_natCast {n : ℕ} (h : n < 2 ^ 64) : sizeOfInt n = n := by
  rw [sizeOfInt_of_nonneg (by omega) (by omega), Int.toNat_natCast]

theorem length_le_of_intFits {xs : List ℤ} (hnodup : xs.Nodup) (h : ∀ x ∈ xs, IntFits x) :
    xs.length ≤ 2 ^ 32 := by
  have hsub : xs.toFinset ⊆ Finset.Icc (-(intMax : ℤ) - 1) intMax := by
    intro x hx
    obtain ⟨hlow, hhigh⟩ := h x (List.mem_toFinset.mp hx)
    exact Finset.mem_Icc.mpr ⟨hlow, hhigh⟩
  have hcard := Finset.card_le_card hsub
  rw [List.toFinset_card_of_nodup hnodup, Int.card_Icc] at hcard
  rw [intMax] at hcard
  omega

/-! ## Character arrays

A C string ends at the first NUL of the array it is in. To read outside of an array or a vector is
undefined. -/

/-- The string a `const char *` points to: the bytes before the first NUL. -/
def cString (s : Bytes) : Bytes := s.takeWhile (· ≠ 0)

theorem cString_eq_self {text : Bytes} (h : ∀ c ∈ text, c ≠ 0) : cString text = text :=
  List.takeWhile_eq_self_iff.mpr fun c hc ↦ decide_eq_true (h c hc)

theorem cString_append_zero {text rest : Bytes} (h : ∀ c ∈ text, c ≠ 0) :
    cString (text ++ 0 :: rest) = text := by
  rw [cString, List.takeWhile_append_of_pos fun c hc ↦ decide_eq_true (h c hc),
    List.takeWhile_cons_of_neg (by decide), List.append_nil]

/-- `snprintf` into an array of `size` characters, given the text the format renders: what the array
then holds, at most `size - 1` characters and a NUL, and the returned length of the whole text, or a
negative number when an `int` cannot hold it. -/
def snprintf (size : ℕ) (text : Bytes) : Bytes × ℤ :=
  (text.take (size - 1) ++ [0], if text.length ≤ intMax then text.length else -1)

theorem snprintf_of_lt {size : ℕ} {text : Bytes} (h : text.length < size) (hs : size ≤ intMax) :
    snprintf size text = (text ++ [0], (text.length : ℤ)) := by
  rw [snprintf, List.take_of_length_le (by omega), if_pos (by omega)]

/-- The `n` characters from the start of an array. -/
def charRange {ε σ : Type} (array : Bytes) (n : ℕ) : EStateM (Fault ε) σ Bytes :=
  if n ≤ array.length then pure (array.take n) else throw .undefinedBehaviour

@[simp] theorem charRange_of_append {ε σ : Type} (text rest : Bytes) :
    charRange (ε := ε) (σ := σ) (text ++ rest) text.length = pure text := by
  rw [charRange, if_pos (by rw [List.length_append]; omega), List.take_left]

/-- `operator[]` of a `std::vector`. -/
def vectorAt {ε σ β : Type} (v : List β) (i : ℕ) : EStateM (Fault ε) σ β :=
  match v[i]? with
  | some x => pure x
  | none => throw .undefinedBehaviour

theorem vectorAt_of_getElem? {ε σ β : Type} {v : List β} {i : ℕ} {x : β} (h : v[i]? = some x) :
    vectorAt (ε := ε) (σ := σ) v i = pure x := by
  rw [vectorAt, h]

/-- `size()-1` of a `std::vector`, as a `size_t`. -/
def sizeMinusOne {β : Type} (v : List β) : ℕ := if v.length = 0 then 2 ^ 64 - 1 else v.length - 1

theorem sizeMinusOne_of_ne_nil {β : Type} {v : List β} (h : v ≠ []) :
    sizeMinusOne v = v.length - 1 := if_neg (List.length_pos_iff.mpr h).ne'

section LastIndex

variable {β : Type} {v : List β}

theorem intOfSize_sizeMinusOne (hne : v ≠ []) (h : v.length ≤ 2 ^ 31) :
    intOfSize (sizeMinusOne v) = v.length - 1 := by
  have hpos := List.length_pos_iff.mpr hne
  have hmax : intMax = 2 ^ 31 - 1 := rfl
  rw [sizeMinusOne_of_ne_nil hne, intOfSize_of_le (by omega)]
  omega

/-- Where an `int` does not hold it, the conversion makes a negative number of it. -/
theorem intOfSize_sizeMinusOne_neg (hne : v ≠ []) (h : 2 ^ 31 < v.length)
    (hlength : v.length ≤ 2 ^ 32) :
    -(intMax : ℤ) - 1 ≤ intOfSize (sizeMinusOne v) ∧ intOfSize (sizeMinusOne v) < 0 := by
  have hmax : intMax = 2 ^ 31 - 1 := rfl
  rw [sizeMinusOne_of_ne_nil hne]
  exact intOfSize_neg (by omega) (by omega)

end LastIndex

/-! ## Characters and numbers

`std::stoi` and `std::strtoul` skip white space, read a sign if there is one, and then take the
longest run of digits. -/

/-- `std::toupper` in the C locale. -/
def toupper (c : UInt8) : UInt8 := if 97 ≤ c.toNat ∧ c.toNat ≤ 122 then c - 32 else c

/-- `std::isspace` in the C locale. -/
def isspace (c : UInt8) : Bool := c = 32 || (9 ≤ c.toNat && c.toNat ≤ 13)

/-- The decimal text of an `int`, as `%d` and `std::to_string` write it. -/
def decimal (n : ℤ) : Bytes :=
  if n < 0 then ascii "-" ++ numeral 10 n.natAbs else numeral 10 n.natAbs

/-- Why `std::stoi` throws. -/
inductive StoiError where
  | invalidArgument
  | outOfRange
  deriving DecidableEq, Repr

/-- The sign of a numeral and what follows it. -/
def readSign : Bytes → Bool × Bytes
  | 45 :: s => (true, s)
  | 43 :: s => (false, s)
  | s => (false, s)

/-- `std::stoi`: white space, an optional sign, and the longest run of decimal digits. What follows
the digits is ignored. -/
def stoi (s : Bytes) : Except StoiError ℤ :=
  let (neg, s) := readSign (s.dropWhile isspace)
  match readNumeral 10 s with
  | none => .error .invalidArgument
  | some (n, _) =>
    let v : ℤ := if neg then -n else n
    if -(intMax : ℤ) - 1 ≤ v ∧ v ≤ intMax then .ok v else .error .outOfRange

theorem toNat_of_digitVal_ten {c : UInt8} {d : ℕ} (h : digitVal 10 c = some d) :
    48 ≤ c.toNat ∧ c.toNat ≤ 57 := by
  rw [digitVal] at h
  split_ifs at h <;> first | assumption | omega

theorem digitByte_lt_ten {d : ℕ} (h : d < 10) :
    isspace (digitByte d) = false ∧ digitByte d ≠ 45 ∧ digitByte d ≠ 43 := by
  have hall : ∀ d < 10, isspace (digitByte d) = false ∧ digitByte d ≠ 45 ∧ digitByte d ≠ 43 := by
    decide
  exact hall d h

theorem digitByte_of_digitVal_ten {c : UInt8} {d : ℕ} (h : digitVal 10 c = some d) :
    d < 10 ∧ c = digitByte d := by
  obtain ⟨hlow, hhigh⟩ := toNat_of_digitVal_ten h
  have hval : digitVal 10 c = some (c.toNat - 48) := by
    simp only [digitVal, hlow, hhigh, and_self, if_true]
    rw [if_pos (by omega)]
  have hd : c.toNat - 48 = d := Option.some_inj.mp (hval.symm.trans h)
  have hlt : d < 10 := by omega
  have hc : 48 + d = c.toNat := by omega
  rw [digitByte, if_pos hlt, hc, UInt8.ofNat_toNat]
  exact ⟨hlt, rfl⟩

theorem readSign_cons {c : UInt8} {cs : Bytes} (hminus : c ≠ 45) (hplus : c ≠ 43) :
    readSign (c :: cs) = (false, c :: cs) := by
  rw [readSign]
  · rintro t heq
    exact hminus (List.cons.inj heq).1
  · rintro t heq
    exact hplus (List.cons.inj heq).1

theorem stoi_of_readNumeral {s : Bytes} {n : ℕ} (h : readNumeral 10 s = some (n, [])) :
    stoi s = if n ≤ intMax then .ok (n : ℤ) else .error .outOfRange := by
  match s with
  | [] => exact absurd h (by simp [readNumeral])
  | c :: cs =>
    obtain ⟨d, hd⟩ : ∃ d, digitVal 10 c = some d := by
      rcases hd : digitVal 10 c with - | d
      · rw [readNumeral, hd] at h
        exact absurd h (by simp)
      · exact ⟨d, rfl⟩
    obtain ⟨hlt, rfl⟩ := digitByte_of_digitVal_ten hd
    obtain ⟨hspace, hminus, hplus⟩ := digitByte_lt_ten hlt
    rw [stoi, List.dropWhile_cons_of_neg (by simp [hspace]), readSign_cons hminus hplus]
    simp only [h, Bool.false_eq_true, if_false]
    by_cases hn : n ≤ intMax
    · rw [if_pos hn, if_pos ⟨by omega, by omega⟩]
    · rw [if_neg hn, if_neg (by omega)]

/-! ## Numerals with a sign

A string is taken apart into these pieces in one way only, so what `strtoul` reads of it can be said
of the pieces. -/

/-- `ULONG_MAX`. -/
def ulongMax : ℕ := 2 ^ 64 - 1

/-- A number that was read with its sign, as an `unsigned long`. -/
def unsignedLong (neg : Bool) (n : ℕ) : ℕ :=
  if ulongMax < n then ulongMax else if neg then (2 ^ 64 - n) % 2 ^ 64 else n

/-- `std::strtoul` in base ten: white space, an optional sign, and the longest run of digits. The
value, and the string that `end` is left at, which is all of it if there are no digits. -/
def strtoul (s : Bytes) : ℕ × Bytes :=
  let (neg, t) := readSign (s.dropWhile isspace)
  match readNumeral 10 t with
  | none => (0, s)
  | some (n, rest) => (unsignedLong neg n, rest)

/-- The sign a numeral may have. -/
inductive Sign where
  | none
  | plus
  | minus
  deriving DecidableEq, Repr

/-- How a sign is written. -/
def Sign.text : Sign → Bytes
  | .none => []
  | .plus => ascii "+"
  | .minus => ascii "-"

/-- `s` is white space, a sign, decimal digits as many as there are, and `rest`. -/
structure NumeralText (s space : Bytes) (sign : Sign) (ds : List ℕ) (rest : Bytes) : Prop where
  eq : s = space ++ (sign.text ++ (ds.map digitByte ++ rest))
  isspace_of_mem : ∀ c ∈ space, isspace c = true
  ne_nil : ds ≠ []
  lt_ten : ∀ d ∈ ds, d < 10
  stops : StopsDigits 10 rest

theorem exists_map_digitByte_append (s : Bytes) : ∃ (ds : List ℕ) (rest : Bytes),
    s = ds.map digitByte ++ rest ∧ (∀ d ∈ ds, d < 10) ∧ StopsDigits 10 rest := by
  induction s with
  | nil => exact ⟨[], [], rfl, by simp, by simp [StopsDigits]⟩
  | cons c cs ih =>
    cases hc : digitVal 10 c with
    | none =>
      refine ⟨[], c :: cs, rfl, by simp, ?_⟩
      intro c' hc'
      obtain rfl : c = c' := Option.some_inj.mp hc'
      exact hc
    | some d =>
      obtain ⟨hd, rfl⟩ := digitByte_of_digitVal_ten hc
      obtain ⟨ds, rest, rfl, hds, hrest⟩ := ih
      exact ⟨d :: ds, rest, rfl, List.forall_mem_cons.mpr ⟨hd, hds⟩, hrest⟩

theorem readSign_eq (s : Bytes) :
    ∃ sign : Sign, readSign s = (decide (sign = .minus), (readSign s).2)
      ∧ s = sign.text ++ (readSign s).2 := by
  unfold readSign
  split
  · exact ⟨.minus, rfl, rfl⟩
  · exact ⟨.plus, rfl, rfl⟩
  · exact ⟨.none, rfl, rfl⟩

namespace NumeralText

variable {s space rest : Bytes} {sign : Sign} {ds : List ℕ}

theorem dropWhile_eq (h : NumeralText s space sign ds rest) :
    s.dropWhile isspace = sign.text ++ (ds.map digitByte ++ rest) := by
  obtain ⟨d, es, rfl⟩ := List.exists_cons_of_ne_nil h.ne_nil
  have hdigit := digitByte_lt_ten (h.lt_ten d List.mem_cons_self)
  rw [h.eq, List.dropWhile_append_of_pos h.isspace_of_mem]
  cases sign with
  | none => exact List.dropWhile_cons_of_neg (by simp [hdigit.1])
  | plus => rfl
  | minus => rfl

theorem readSign_eq (h : NumeralText s space sign ds rest) :
    readSign (sign.text ++ (ds.map digitByte ++ rest))
      = (decide (sign = .minus), ds.map digitByte ++ rest) := by
  obtain ⟨d, es, rfl⟩ := List.exists_cons_of_ne_nil h.ne_nil
  have hdigit := digitByte_lt_ten (h.lt_ten d List.mem_cons_self)
  cases sign with
  | none => exact readSign_cons hdigit.2.1 hdigit.2.2
  | plus => rfl
  | minus => rfl

theorem strtoul_eq (h : NumeralText s space sign ds rest) :
    strtoul s = (unsignedLong (decide (sign = .minus)) (Nat.ofDigits 10 ds.reverse), rest) := by
  rw [strtoul, h.dropWhile_eq, h.readSign_eq]
  simp only [readNumeral_map_digitByte (by omega) h.stops h.ne_nil h.lt_ten]

theorem length_lt (h : NumeralText s space sign ds rest) : rest.length < s.length := by
  have hpos := List.length_pos_iff.mpr h.ne_nil
  rw [h.eq]
  simp only [List.length_append, List.length_map]
  omega

/-- A string that is a plain numeral is read in no other way. -/
theorem eq_of_plain {es : List ℕ} (h : NumeralText s space sign ds rest)
    (hplain : NumeralText s [] .none es []) : space = [] ∧ sign = .none ∧ rest = [] := by
  have hrest : rest = [] := (Prod.mk.inj (h.strtoul_eq.symm.trans hplain.strtoul_eq)).2
  have hdrop := h.dropWhile_eq.symm.trans hplain.dropWhile_eq
  have hspace : space = [] := by
    have heq := h.eq.symm.trans hplain.eq
    rw [hdrop, List.nil_append] at heq
    exact List.append_left_eq_self.mp heq
  refine ⟨hspace, ?_, hrest⟩
  obtain ⟨e, es, rfl⟩ := List.exists_cons_of_ne_nil hplain.ne_nil
  have hdigit := digitByte_lt_ten (hplain.lt_ten e List.mem_cons_self)
  cases sign with
  | none => rfl
  | plus => exact absurd (List.cons.inj hdrop).1.symm hdigit.2.2
  | minus => exact absurd (List.cons.inj hdrop).1.symm hdigit.2.1

end NumeralText

/-- A string begins with a numeral, or `strtoul` reads nothing of it. -/
theorem numeralText_or_strtoul_eq (s : Bytes) :
    (∃ space sign ds rest, NumeralText s space sign ds rest) ∨ strtoul s = (0, s) := by
  obtain ⟨sign, hsign, htext⟩ := readSign_eq (s.dropWhile isspace)
  obtain ⟨ds, rest, hdigits, hlt, hstops⟩ :=
    exists_map_digitByte_append (readSign (s.dropWhile isspace)).2
  by_cases hne : ds = []
  · right
    subst hne
    rw [strtoul, hsign, hdigits]
    simp only [List.map_nil, List.nil_append, readNumeral_of_stops hstops]
  · left
    refine ⟨s.takeWhile isspace, sign, ds, rest, ?_, ?_, hne, hlt, hstops⟩
    · rw [← hdigits, ← htext, List.takeWhile_append_dropWhile]
    · exact fun c hc ↦ List.mem_takeWhile_imp hc

end CppRepo
