import CppRepo.Library.CLibrary

/-!
# The port of an endpoint

`parse_port` leaves the numeral to `strtoul` and looks at two things afterwards: whether the value
is a port, and whether anything was read at all. What `strtoul` passes over in front of the digits,
what it does with a sign and where it stops are not looked at.

`strtoul` reads white space, a sign and then as many digits as there are, and returns the value
modulo the range of an `unsigned long`, or the largest value if there are too many digits. A numeral
behind a minus sign is negated in this arithmetic, so it may come into the range of a port again.
`Sign.InPortRange` says which values do, and the main result is that these texts, and the ones with
something in front of the digits or behind them, are all that is accepted beyond the ports.

The text of a numeral is taken apart once, by `NumeralText` of `Library.CLibrary`, and every
statement below is about these parts.
-/

namespace CppRepo

/-- The codes of `errno` that are assigned to an `error_code`. -/
inductive Errno where
  | einval
  | erange
  deriving DecidableEq, Repr

/-- `parse_port` of the characters at `input`, with the error code on entry: the port and the error
code it leaves. -/
def parsePort (input : Bytes) (ec : Option Errno) : UInt16 × Option Errno :=
  let s := cString input
  let (port, end') := strtoul s
  let ec :=
    if 65535 < port then some .erange
    -- Two pointers into one string are equal when the same text follows them.
    else if port = 0 ∧ end' = s then some .einval
    else ec
  (UInt16.ofNat port, ec)

variable {input s space rest : Bytes} {sign : Sign} {ds : List ℕ} {n : ℕ}

/-- The whole string is a decimal numeral of the port `n`. -/
def IsPort (s : Bytes) (n : ℕ) : Prop := n ≤ 65535 ∧ ∃ ds : List ℕ, ds ≠ [] ∧ (∀ d ∈ ds, d < 10) ∧
  s = ds.map digitByte ∧ n = Nat.ofDigits 10 ds.reverse

/-- The numbers that are a port once `strtoul` has applied their sign. The last of those with a
minus sign are negative numbers that have wrapped round. -/
def Sign.InPortRange : Sign → ℕ → Prop
  | .minus, n => n = 0 ∨ 2 ^ 64 - 65535 ≤ n ∧ n < 2 ^ 64
  | _, n => n ≤ 65535

private theorem unsignedLong_le_iff :
    unsignedLong (decide (sign = .minus)) n ≤ 65535 ↔ sign.InPortRange n := by
  have hmax : ulongMax = 2 ^ 64 - 1 := rfl
  cases sign <;> simp only [unsignedLong, Sign.InPortRange, hmax, reduceCtorEq, decide_false,
    decide_true, Bool.false_eq_true, if_true, if_false] <;> split_ifs <;> omega

private theorem unsignedLong_of_isPort (h : n ≤ 65535) : unsignedLong false n = n := by
  have hmax : ulongMax = 2 ^ 64 - 1 := rfl
  rw [unsignedLong, if_neg (by omega), if_neg Bool.false_ne_true]

private theorem parsePort_of_numeralText {ec : Option Errno}
    (h : NumeralText (cString input) space sign ds rest) :
    parsePort input ec =
      let port := unsignedLong (decide (sign = .minus)) (Nat.ofDigits 10 ds.reverse)
      (UInt16.ofNat port, if 65535 < port then some .erange else ec) := by
  have hrest : rest ≠ cString input := fun heq ↦ h.length_lt.ne (congrArg List.length heq)
  simp only [parsePort, h.strtoul_eq, hrest, and_false, if_false]

/-- A numeral is all the string can begin with for the error code to stay clear. -/
theorem parsePort_clear_iff :
    (parsePort input none).2 = none ↔ ∃ space sign ds rest,
      NumeralText (cString input) space sign ds rest ∧
        sign.InPortRange (Nat.ofDigits 10 ds.reverse) := by
  constructor
  · intro hclear
    rcases numeralText_or_strtoul_eq (cString input) with ⟨space, sign, ds, rest, h⟩ | h
    · refine ⟨space, sign, ds, rest, h, unsignedLong_le_iff.mp (not_lt.mp fun hlt ↦ ?_)⟩
      rw [parsePort_of_numeralText h] at hclear
      simp only [hlt, if_true, reduceCtorEq] at hclear
    · simp [parsePort, h] at hclear
  · rintro ⟨space, sign, ds, rest, h, hrange⟩
    rw [parsePort_of_numeralText h]
    exact if_neg (not_lt.mpr (unsignedLong_le_iff.mpr hrange))

private theorem IsPort.numeralText (h : IsPort s n) :
    ∃ ds, NumeralText s [] .none ds [] ∧ n = Nat.ofDigits 10 ds.reverse := by
  obtain ⟨-, ds, hne, hlt, rfl, rfl⟩ := h
  refine ⟨ds, ⟨?_, fun _ hc ↦ absurd hc List.not_mem_nil, hne, hlt, ?_⟩, rfl⟩
  · simp [Sign.text]
  · simp [StopsDigits]

private theorem NumeralText.isPort (h : NumeralText s [] .none ds [])
    (hle : Nat.ofDigits 10 ds.reverse ≤ 65535) : IsPort s (Nat.ofDigits 10 ds.reverse) := by
  refine ⟨hle, ds, h.ne_nil, h.lt_ten, ?_, rfl⟩
  simpa [Sign.text] using h.eq

private theorem IsPort.parsePort_eq (h : IsPort (cString input) n) :
    parsePort input none = (UInt16.ofNat n, none) := by
  have hle := h.1
  obtain ⟨ds, htext, rfl⟩ := h.numeralText
  rw [parsePort_of_numeralText htext]
  have hport : unsignedLong (decide (Sign.none = .minus)) (Nat.ofDigits 10 ds.reverse)
      = Nat.ofDigits 10 ds.reverse := unsignedLong_of_isPort hle
  simp only [hport, if_neg (not_lt.mpr hle)]

/-- **Ports.** The error code stays clear exactly for the numerals of the ports, and the port is
then returned, if and only if the string is no numeral whose value comes into the range behind
white space or a sign, or in front of other text. -/
theorem parsePort_iff (input : Bytes) :
    (((parsePort input none).2 = none ↔ ∃ n, IsPort (cString input) n) ∧
      ∀ n, IsPort (cString input) n → (parsePort input none).1.toNat = n) ↔
    ∀ space sign ds rest, NumeralText (cString input) space sign ds rest →
      sign.InPortRange (Nat.ofDigits 10 ds.reverse) → space = [] ∧ sign = .none ∧ rest = [] := by
  constructor
  · rintro ⟨hclear, -⟩ space sign ds rest h hrange
    obtain ⟨n, hport⟩ := hclear.mp (parsePort_clear_iff.mpr ⟨space, sign, ds, rest, h, hrange⟩)
    obtain ⟨es, hplain, -⟩ := hport.numeralText
    obtain ⟨rfl, rfl, rfl⟩ := h.eq_of_plain hplain
    exact ⟨rfl, rfl, rfl⟩
  · intro hplain
    refine ⟨⟨fun hclear ↦ ?_, ?_⟩, ?_⟩
    · obtain ⟨space, sign, ds, rest, h, hrange⟩ := parsePort_clear_iff.mp hclear
      obtain ⟨rfl, rfl, rfl⟩ := hplain space sign ds rest h hrange
      exact ⟨_, h.isPort hrange⟩
    · rintro ⟨n, hport⟩
      rw [hport.parsePort_eq]
    · intro n hport
      have hle := hport.1
      rw [hport.parsePort_eq]
      exact UInt16.toNat_ofNat_of_lt' (hle.trans_lt (by decide))

/-- Text behind the digits is overlooked. -/
theorem parsePort_overlooks_text :
    ¬ ∀ input : Bytes, ((parsePort input none).2 = none ↔ ∃ n, IsPort (cString input) n) ∧
      ∀ n, IsPort (cString input) n → (parsePort input none).1.toNat = n := by
  intro h
  have hclear : (parsePort (ascii "80abc") none).2 = none := by decide
  obtain ⟨n, -, ds, -, hlt, htext, -⟩ := (h (ascii "80abc")).1.mp hclear
  have hletter : (97 : UInt8) ∈ ds.map digitByte := htext ▸ by decide
  obtain ⟨d, hd, hbyte⟩ := List.mem_map.mp hletter
  have hdigits : ∀ d < 10, digitByte d ≠ 97 := by decide
  exact hdigits d (hlt d hd) hbyte

-- A negative number wraps round into the range of the ports.
example : parsePort (ascii "-18446744073709551535") none = (81, none) := by decide

end CppRepo
