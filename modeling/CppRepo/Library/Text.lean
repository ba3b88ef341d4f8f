import Mathlib

/-!
# Byte strings and numerals

Byte strings are lists of `UInt8`. The numerals are the ones `printf` writes: no leading zero, most
significant digit first, lower-case letters above nine. Reading takes the longest run of digits, as
`strtoul` and an HTTP chunk-size line do, and accepts both letter cases.

The two meet in `readNumeral_numeral`: what was written is read back, and reading stops where the
numeral ends as long as what follows is not itself a digit.
-/

namespace CppRepo

/-- A string of bytes, as `std::string` and `std::string_view` carry it. -/
abbrev Bytes := List UInt8

/-- The bytes of an ASCII literal. -/
def ascii (s : String) : Bytes := s.toList.map fun c ↦ c.val.toUInt8

/-- The carriage return and line feed that end a line. -/
def crlf : Bytes := ascii "\r\n"

@[simp] theorem length_crlf : crlf.length = 2 := rfl

/-! ## Digits

A digit is a byte, and its value is known for both letter cases. -/

/-- The byte of a digit below sixteen. -/
def digitByte (d : ℕ) : UInt8 := if d < 10 then UInt8.ofNat (48 + d) else UInt8.ofNat (87 + d)

/-- The value of a byte as a digit in base `b`, if it is one. -/
def digitVal (b : ℕ) (c : UInt8) : Option ℕ :=
  let d := if 48 ≤ c.toNat ∧ c.toNat ≤ 57 then c.toNat - 48
    else if 97 ≤ c.toNat ∧ c.toNat ≤ 102 then c.toNat - 87
    else if 65 ≤ c.toNat ∧ c.toNat ≤ 70 then c.toNat - 55
    else b
  if d < b then some d else none

theorem digitVal_digitByte {b d : ℕ} (hb : b ≤ 16) (hd : d < b) :
    digitVal b (digitByte d) = some d := by
  have hall : ∀ d < 16, digitVal 16 (digitByte d) = some d := by decide
  have h16 : digitVal 16 (digitByte d) = some d := hall d (by omega)
  rw [digitVal] at h16 ⊢
  split_ifs at h16 ⊢ <;> simp_all <;> omega

/-! ## Writing and reading numerals

Numerals are written from the least significant digit on, and then reversed. -/

/-- The numeral of `n` in base `b`, as `printf` writes it. -/
def numeral (b n : ℕ) : Bytes :=
  if n = 0 then [digitByte 0] else (Nat.digits b n).reverse.map digitByte

/-- The value of the longest run of digits, continuing from `acc`, and what follows the run. -/
def readDigits (b : ℕ) : ℕ → Bytes → ℕ × Bytes
  | acc, [] => (acc, [])
  | acc, c :: cs =>
    match digitVal b c with
    | some d => readDigits b (acc * b + d) cs
    | none => (acc, c :: cs)

/-- Reads a numeral: at least one digit, then as many as there are. -/
def readNumeral (b : ℕ) : Bytes → Option (ℕ × Bytes)
  | [] => none
  | c :: cs =>
    match digitVal b c with
    | some d => some (readDigits b d cs)
    | none => none

/-- No digit stands at the front, so a run of digits before it ends there. -/
def StopsDigits (b : ℕ) (s : Bytes) : Prop := ∀ c ∈ s.head?, digitVal b c = none

theorem readDigits_of_stops {b acc : ℕ} {s : Bytes} (h : StopsDigits b s) :
    readDigits b acc s = (acc, s) := by
  cases s with
  | nil => rfl
  | cons c cs =>
    have hc : digitVal b c = none := h c rfl
    rw [readDigits, hc]

theorem readDigits_map_digitByte {b : ℕ} (hb : b ≤ 16) {s : Bytes} (hs : StopsDigits b s) :
    ∀ (ds : List ℕ) (acc : ℕ), (∀ d ∈ ds, d < b) →
      readDigits b acc (ds.map digitByte ++ s)
        = (ds.foldl (fun n d ↦ n * b + d) acc, s) := by
  intro ds
  induction ds with
  | nil => intro acc _; exact readDigits_of_stops hs
  | cons d ds ih =>
    intro acc h
    have hd : d < b := h d List.mem_cons_self
    rw [List.map_cons, List.cons_append, readDigits, digitVal_digitByte hb hd]
    exact ih _ fun e he ↦ h e (List.mem_cons_of_mem _ he)

theorem foldl_digits_reverse (b : ℕ) (ds : List ℕ) :
    ds.reverse.foldl (fun n d ↦ n * b + d) 0 = Nat.ofDigits b ds := by
  rw [List.foldl_reverse, Nat.ofDigits_eq_foldr]
  congr 1
  funext d n
  rw [mul_comm, add_comm, Nat.cast_id]

theorem readNumeral_of_stops {b : ℕ} {s : Bytes} (h : StopsDigits b s) :
    readNumeral b s = none := by
  cases s with
  | nil => rfl
  | cons c cs =>
    have hc : digitVal b c = none := h c rfl
    rw [readNumeral, hc]

theorem readNumeral_map_digitByte {b : ℕ} (hb : b ≤ 16) {s : Bytes} (hs : StopsDigits b s)
    {ds : List ℕ} (hne : ds ≠ []) (h : ∀ d ∈ ds, d < b) :
    readNumeral b (ds.map digitByte ++ s) = some (Nat.ofDigits b ds.reverse, s) := by
  obtain ⟨d, es, rfl⟩ := List.exists_cons_of_ne_nil hne
  have hrest := readDigits_map_digitByte hb hs es d fun e he ↦ h e (List.mem_cons_of_mem _ he)
  have hvalue := foldl_digits_reverse b (d :: es).reverse
  rw [List.reverse_reverse, List.foldl_cons, zero_mul, zero_add] at hvalue
  rw [List.map_cons, List.cons_append, readNumeral, digitVal_digitByte hb (h d List.mem_cons_self),
    ← hvalue]
  exact congrArg some hrest

/-- **The numeral round trip.** -/
theorem readNumeral_numeral {b : ℕ} (h2 : 2 ≤ b) (hb : b ≤ 16) (n : ℕ) {s : Bytes}
    (hs : StopsDigits b s) : readNumeral b (numeral b n ++ s) = some (n, s) := by
  rw [numeral]
  split_ifs with hn
  · subst hn
    exact readNumeral_map_digitByte hb hs (List.cons_ne_nil 0 []) (by simpa using by omega)
  · have hne : (Nat.digits b n).reverse ≠ [] := by
      simpa using Nat.digits_ne_nil_iff_ne_zero.mpr hn
    have hlt : ∀ d ∈ (Nat.digits b n).reverse, d < b := fun d hd ↦
      Nat.digits_lt_base (by omega) (List.mem_reverse.mp hd)
    rw [readNumeral_map_digitByte hb hs hne hlt, List.reverse_reverse, Nat.ofDigits_digits]

theorem length_numeral_le {b n k : ℕ} (hb : 2 ≤ b) (hk : 0 < k) (hn : n < b ^ k) :
    (numeral b n).length ≤ k := by
  rw [numeral]
  split_ifs with h0
  · exact hk
  · rw [List.length_map, List.length_reverse]
    exact (Nat.digits_length_le_iff (by omega) n).mpr hn

/-- Every byte of a numeral is a digit. -/
theorem digitVal_of_mem_numeral {b n : ℕ} (h2 : 2 ≤ b) (hb : b ≤ 16) {c : UInt8}
    (hc : c ∈ numeral b n) : ∃ d, digitVal b c = some d := by
  rw [numeral] at hc
  split_ifs at hc with hn
  · rw [List.mem_singleton] at hc
    exact ⟨0, hc ▸ digitVal_digitByte hb (by omega)⟩
  · obtain ⟨d, hd, rfl⟩ := List.mem_map.mp hc
    rw [List.mem_reverse] at hd
    exact ⟨d, digitVal_digitByte hb (Nat.digits_lt_base (by omega) hd)⟩

end CppRepo
