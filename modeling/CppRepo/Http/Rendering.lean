import CppRepo.Http.Delivery
import CppRepo.Http.Responses

/-!
# What is rendered into arrays of a fixed size

Four places of the response path let `snprintf` render a line into an array and pass on the length
it returns. That is the length of the whole text, also where the array did not hold it, so each
place relies on a bound of what it renders. The numbers have one: a port has five digits, a content
length twenty and the size of a chunk sixteen. The name of a status has none.

The array of `send_status` holds the line exactly if the status and its name have at most 115
characters. With 116 the NUL that ends the array is sent in the place of the line feed, with more
the array is read past its end, and a line longer than an `int` can count is not sent at all.
-/

namespace CppRepo

variable {ω δ : Type} {size : ℕ} {text : Bytes}

/-! ## Whole texts

An array of a fixed size has room for one character less, as a NUL is put behind the text.
`RendersWhole` asks that both the array and the length that is passed on are right. -/

/-- The array holds the text that is rendered into it, and the length passed on is the length of
what it holds. -/
def RendersWhole (size : ℕ) (text : Bytes) : Prop :=
  snprintf size text = (text ++ [0], (text.length : ℤ))

instance : Decidable (RendersWhole size text) := inferInstanceAs (Decidable (_ = _))

private theorem rendersWhole_iff (hsize : 0 < size) (hmax : size ≤ intMax) :
    RendersWhole size text ↔ text.length < size := by
  constructor
  · intro h
    have hlength := congrArg (fun r : Bytes × ℤ ↦ r.1.length) h
    simp only [snprintf, List.length_append, List.length_take, List.length_singleton] at hlength
    omega
  · exact fun h ↦ snprintf_of_lt h hmax

private theorem length_decimal_port_lt (port : UInt16) : (decimal port.toNat).length < 16 := by
  have hle : (numeral 10 port.toNat).length ≤ 5 :=
    length_numeral_le (by omega) (by omega) (port.toNat_lt.trans (by norm_num))
  rw [decimal, if_neg (by omega), Int.natAbs_natCast]
  omega

namespace ClientIo

variable (sink : BuffererSink ω)

/-! ## The status line

The line of a status has twelve characters besides the status and its name. Depending on its
`send_status` puts the line itself, the line with a NUL in the place of its last character, bytes
from behind the array, or nothing. -/

private theorem length_statusLine (status : Int32) (statusName : Bytes) :
    (statusLine status statusName).length
      = (decimal status.toInt).length + (cString statusName).length + 12 := by
  have hversion : (ascii "HTTP/1.1 ").length = 9 := rfl
  have hblank : (ascii " ").length = 1 := rfl
  simp only [statusLine, List.length_append, hversion, hblank, length_crlf]
  omega

/-- **What `send_status` puts**, for a line of any length. -/
theorem sendStatus_eq (status : Int32) (statusName : Bytes) {line : Bytes}
    (hline : statusLine status statusName = line) : sendStatus sink status statusName =
      if line.length < 128 then putText sink line
      else if line.length = 128 then putText sink (line.take 127 ++ [0])
      else if line.length ≤ intMax then throw .undefinedBehaviour
      else putText sink [] := by
  have hmax : 128 ≤ intMax := by decide
  have hsend : sendStatus sink status statusName
      = putArray sink (snprintf 128 line).1 (snprintf 128 line).2 := by
    rw [sendStatus, hline]
  by_cases hlt : line.length < 128
  · rw [if_pos hlt, hsend, putArray_snprintf sink hlt hmax]
  · have harray : (line.take 127 ++ [0]).length = 128 := by
      rw [List.length_append, List.length_take, List.length_singleton]
      omega
    have hcut : snprintf 128 line
        = (line.take 127 ++ [0], if line.length ≤ intMax then (line.length : ℤ) else -1) := rfl
    rw [if_neg hlt, hsend, hcut]
    by_cases hint : line.length ≤ intMax
    · rw [if_pos hint, putArray, Int.toNat_natCast, charRange, harray]
      by_cases heq : line.length = 128
      · rw [if_pos heq, heq, if_pos le_rfl, pure_bind, List.take_of_length_le harray.le]
      · rw [if_neg heq, if_pos hint, if_neg (by omega)]
        rfl
    · rw [if_neg hint, if_neg (by omega), if_neg hint]
      rfl

/-! ## The other lines

These are numbers of a bounded size: a content length, the size of a chunk, and the port. So the
arrays have room for them whatever their values are. -/

private theorem lookup_serverPort (io : ClientIo ω) : io.environment.lookup (ascii "SERVER_PORT")
    = some (cString (snprintf 16 (decimal io.localEndpoint.port.toNat)).1) := by
  have hmem : (ascii "SERVER_PORT", cString (snprintf 16 (decimal io.localEndpoint.port.toNat)).1)
      ∈ io.requestLine := by
    refine List.mem_append_left _ (List.mem_append_left _ (List.mem_append_right _ ?_))
    exact List.mem_cons_of_mem _ (List.mem_cons_of_mem _ List.mem_cons_self)
  rw [environment_eq, lookup_assignAll, lastAssigned_of_mem io.nodup_requestLine hmem,
    Option.some_or]

private theorem lookup_serverPort_eq (io : ClientIo ω) : io.environment.lookup (ascii "SERVER_PORT")
    = some (decimal io.localEndpoint.port.toNat) := by
  rw [lookup_serverPort, snprintf_of_lt (length_decimal_port_lt _) (by decide),
    cString_append_zero fun c hc ↦ (plainText_decimal _ c hc).1]

end ClientIo

/-- What `send_body` does with chunking: the line with the size, the bytes and the line end. -/
def ChunkingFilter.sendChunk (d : RestfulClient δ) (buf : Bytes) :
    Method (ChunkingFilter × δ) UInt64 := do
  let sent₁ ← onDecoratee (d.sendBody (ChunkingFilter.sizeLine buf))
  let sent₂ ← onDecoratee (d.sendBody buf)
  let sent₃ ← onDecoratee (d.sendBody crlf)
  return sent₁ + sent₂ + sent₃

private theorem ChunkingFilter.sendBody_eq (d : RestfulClient δ) (buf : Bytes) {f : ChunkingFilter}
    (hf : f.chunkingEnabled = true) (s : δ) :
    ChunkingFilter.sendBody d buf (f, s) = ChunkingFilter.sendChunk d buf (f, s) := by
  have hsend : ChunkingFilter.sendBody d buf (f, s) = (do
      let line ← charRange (snprintf 32 (ChunkingFilter.sizeLine buf)).1
        (snprintf 32 (ChunkingFilter.sizeLine buf)).2.toNat
      let sent₁ ← onDecoratee (d.sendBody line)
      let sent₂ ← onDecoratee (d.sendBody buf)
      let sent₃ ← onDecoratee (d.sendBody crlf)
      return sent₁ + sent₂ + sent₃ : Method (ChunkingFilter × δ) UInt64) (f, s) := by
    have hown : ∀ g : ChunkingFilter → Method (ChunkingFilter × δ) UInt64,
        (ownFields >>= g) (f, s) = g f (f, s) := fun g ↦ rfl
    rw [ChunkingFilter.sendBody, hown, if_neg (not_not.mpr hf)]
    rfl
  rw [hsend, ChunkingFilter.snprintf_sizeLine, Int.toNat_natCast, charRange_of_append, pure_bind]
  rfl

/-! ## All four places

`RendersLines` has one field for each array. Three of them hold always, and the fourth exactly up to
the bound. -/

/-- Every line that the response path renders into an array is held there whole, and what is sent
or set in the environment is the whole line. -/
structure RendersLines (sink : BuffererSink ω) (d : RestfulClient δ) (status : Int32)
    (statusName : Bytes) (len : UInt64) (buf : Bytes) (io : ClientIo ω) : Prop where
  statusbuf : RendersWhole 128 (ClientIo.statusLine status statusName)
  sizebuf : RendersWhole 128 (ClientIo.contentLengthText len)
  chunkSize : RendersWhole 32 (ChunkingFilter.sizeLine buf)
  portBuf : RendersWhole 16 (decimal io.localEndpoint.port.toNat)
  sendStatus : ClientIo.sendStatus sink status statusName
    = ClientIo.putText sink (ClientIo.statusLine status statusName)
  sendContentLength : ClientIo.sendContentLength sink len
    = ClientIo.putText sink (ClientIo.contentLengthText len)
  sendBody : ∀ (f : ChunkingFilter) (s : δ), f.chunkingEnabled = true →
    ChunkingFilter.sendBody d buf (f, s) = ChunkingFilter.sendChunk d buf (f, s)
  initEnv : io.environment.lookup (ascii "SERVER_PORT")
    = some (decimal io.localEndpoint.port.toNat)

/-- **Rendering.** For every status, name, content length, buffer and port, the arrays hold the
whole lines, and the whole lines are passed on, if and only if the status and its name have at most
115 characters together. -/
theorem rendersLines_iff (sink : BuffererSink ω) (d : RestfulClient δ) (status : Int32)
    (statusName : Bytes) (len : UInt64) (buf : Bytes) (io : ClientIo ω) :
    RendersLines sink d status statusName len buf io ↔
      (decimal status.toInt).length + (cString statusName).length ≤ 115 := by
  have hstatus : RendersWhole 128 (ClientIo.statusLine status statusName) ↔
      (decimal status.toInt).length + (cString statusName).length ≤ 115 := by
    rw [rendersWhole_iff (by omega) (by decide), ClientIo.length_statusLine]
    omega
  constructor
  · exact fun h ↦ hstatus.mp h.statusbuf
  · intro h
    have hlt := (rendersWhole_iff (by omega) (by decide)).mp (hstatus.mpr h)
    exact {
      statusbuf := hstatus.mpr h
      sizebuf := snprintf_of_lt (ClientIo.length_contentLengthText_lt len) (by decide)
      chunkSize := ChunkingFilter.snprintf_sizeLine buf
      portBuf := snprintf_of_lt (length_decimal_port_lt _) (by decide)
      sendStatus := ClientIo.sendStatus_of_lt sink hlt
      sendContentLength := ClientIo.sendContentLength_eq sink len
      sendBody := fun f s hf ↦ ChunkingFilter.sendBody_eq d buf hf s
      initEnv := ClientIo.lookup_serverPort_eq io }

/-- With one character more, a NUL is sent in the place of the line feed. -/
theorem longName_not_rendersLines :
    (∀ (sink : BuffererSink Stream), ClientIo.sendStatus sink 200 (List.replicate 113 97)
      = ClientIo.putText sink (ascii "HTTP/1.1 200 " ++ List.replicate 113 97 ++ [13, 0])) ∧
    ¬RendersLines Stream.sink StreamIo.client 200 (List.replicate 113 97) 0 []
      StreamIo.bare := by
  have hline : ClientIo.statusLine 200 (List.replicate 113 97)
      = ascii "HTTP/1.1 200 " ++ List.replicate 113 97 ++ [13, 10] := by decide +kernel
  constructor
  · intro sink
    rw [ClientIo.sendStatus_eq sink 200 _ hline, if_neg (by decide +kernel),
      if_pos (by decide +kernel)]
    exact congrArg _ (by decide +kernel)
  · intro h
    have hlt := (rendersWhole_iff (by omega) (by decide)).mp h.statusbuf
    rw [hline] at hlt
    exact absurd hlt (by decide +kernel)

end CppRepo
