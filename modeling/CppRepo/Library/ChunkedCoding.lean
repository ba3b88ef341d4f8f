import CppRepo.Library.Text

/-!
# The chunked transfer coding, as a receiver reads it

A chunked body is a sequence of chunks, each a hexadecimal size and CRLF, that many bytes and CRLF.
A chunk of size zero ends the body and is followed by CRLF. Trailers and chunk extensions are not
part of this coding.

The receiver is executable and does not depend on who wrote the bytes. What follows it are the two
facts a writer needs: a nonempty chunk is read and the rest of the body follows it, and the first
chunk of size zero ends the body whatever comes after.
-/

namespace CppRepo

/-- Removes a CRLF from the front. -/
def expectCrlf (s : Bytes) : Option Bytes := if s.take 2 = crlf then some (s.drop 2) else none

@[simp] theorem expectCrlf_crlf (s : Bytes) : expectCrlf (crlf ++ s) = some s := rfl

/-- Reads at most `fuel` chunks. Returns the body and the bytes that follow it. -/
def readChunks : ℕ → Bytes → Option (Bytes × Bytes)
  | 0, _ => none
  | fuel + 1, s => do
    let (size, s) ← readNumeral 16 s
    let s ← expectCrlf s
    if size = 0 then
      return ([], ← expectCrlf s)
    if s.length < size then
      none
    let (body, rest) ← readChunks fuel (← expectCrlf (s.drop size))
    return (s.take size ++ body, rest)

/-- The chunked-body decoder. Every chunk is longer than one byte, so the length of the input
bounds their number. -/
def decodeChunked (s : Bytes) : Option (Bytes × Bytes) := readChunks s.length s

/-! ## Writing chunks

The receiver is given as many rounds as the text is long, and each chunk has at least one byte; so
the rounds are enough for every body that was written. -/

/-- A chunk: the size line, the bytes, and the line end. -/
def chunk (b : Bytes) : Bytes := numeral 16 b.length ++ crlf ++ b ++ crlf

/-- The chunk of size zero and the CRLF that ends the body. -/
def lastChunk : Bytes := ascii "0\r\n\r\n"

theorem stopsDigits_crlf (b : ℕ) (s : Bytes) : StopsDigits b (crlf ++ s) := by
  intro c hc
  have hc13 : c = 13 := (Option.some.inj hc).symm
  subst hc13
  simp [digitVal]

theorem readChunks_chunk {fuel : ℕ} {b : Bytes} (hb : b ≠ []) (s : Bytes) :
    readChunks (fuel + 1) (chunk b ++ s)
      = (readChunks fuel s).map fun r ↦ (b ++ r.1, r.2) := by
  have hlen : b.length ≠ 0 := fun h ↦ hb (List.length_eq_zero_iff.mp h)
  have hsize : readNumeral 16 (chunk b ++ s)
      = some (b.length, crlf ++ (b ++ (crlf ++ s))) := by
    rw [chunk, List.append_assoc, List.append_assoc, List.append_assoc]
    exact readNumeral_numeral (by omega) le_rfl _ (stopsDigits_crlf 16 _)
  have hdrop : (b ++ (crlf ++ s)).drop b.length = crlf ++ s := List.drop_left
  have htake : (b ++ (crlf ++ s)).take b.length = b := List.take_left
  rw [readChunks, hsize]
  simp only [Option.bind_eq_bind, Option.bind_some, expectCrlf_crlf, hlen, if_false, hdrop, htake]
  rw [if_neg (by rw [List.length_append]; omega)]
  cases readChunks fuel s <;> rfl

theorem readChunks_zero {fuel : ℕ} (s : Bytes) :
    readChunks (fuel + 1) (lastChunk ++ s) = some ([], s) := by
  have hsize : readNumeral 16 (lastChunk ++ s) = some (0, crlf ++ (crlf ++ s)) :=
    readNumeral_numeral (b := 16) (by omega) le_rfl 0 (stopsDigits_crlf 16 (crlf ++ s))
  rw [readChunks, hsize]
  rfl

theorem chunk_nil : chunk [] = lastChunk := by decide

theorem length_chunk_pos (b : Bytes) : 0 < (chunk b).length := by
  rw [chunk, List.length_append]
  simp

/-- **Reading back what was written.** Nonempty chunks are decoded in order; the first empty one
ends the body and leaves everything after it. -/
theorem readChunks_flatMap_chunk {bs : List Bytes} (hbs : ∀ b ∈ bs, b ≠ []) (s : Bytes) :
    ∀ fuel, bs.length < fuel →
      readChunks fuel (bs.flatMap chunk ++ (lastChunk ++ s)) = some (bs.flatten, s) := by
  induction bs with
  | nil =>
    intro fuel hfuel
    obtain ⟨fuel, rfl⟩ := Nat.exists_eq_succ_of_ne_zero (by omega : fuel ≠ 0)
    exact readChunks_zero s
  | cons b bs ih =>
    intro fuel hfuel
    obtain ⟨fuel, rfl⟩ := Nat.exists_eq_succ_of_ne_zero (by omega : fuel ≠ 0)
    have hrest := ih (fun c hc ↦ hbs c (List.mem_cons_of_mem _ hc)) fuel
      (by rw [List.length_cons] at hfuel; omega)
    rw [List.flatMap_cons, List.append_assoc, readChunks_chunk (hbs b List.mem_cons_self), hrest]
    rfl

theorem length_le_flatMap_chunk (bs : List Bytes) : bs.length ≤ (bs.flatMap chunk).length := by
  induction bs with
  | nil => exact le_rfl
  | cons b bs ih =>
    have hb := length_chunk_pos b
    rw [List.flatMap_cons, List.length_append, List.length_cons]
    omega

theorem decodeChunked_flatMap_chunk {bs : List Bytes} (hbs : ∀ b ∈ bs, b ≠ []) (s : Bytes) :
    decodeChunked (bs.flatMap chunk ++ (lastChunk ++ s)) = some (bs.flatten, s) := by
  refine readChunks_flatMap_chunk hbs s _ ?_
  have hle := length_le_flatMap_chunk bs
  rw [List.length_append, List.length_append]
  have hlast : 0 < lastChunk.length := by decide
  omega

end CppRepo
