import CppRepo.Http.Delivery
import CppRepo.Library.ChunkedCoding

/-!
# What a chunked response looks like on the wire

The bytes a `ChunkingFilter` hands to its decoratee are, call by call, one chunk for a `send_body`
and the last chunk for `complete_request`. So the whole body is `bufs.flatMap chunk ++ lastChunk`,
and the decoder of `Library.ChunkedCoding` reads it back.

It does so only when no buffer is empty. The filter renders the size of an empty buffer like any
other, and a chunk of size zero is the end of the body: what the caller sends afterwards, and the
terminator `complete_request` adds, are left unread.

## What the decoder sees

The decoder is run on the concatenation of what the decoratee was given through `send_body`, so it
does not matter how the bytes were cut into calls. Each buffer that is not empty is decoded and the
decoder goes on behind it; the first empty one stops it, with a rest that holds at least the
terminator.
-/

namespace CppRepo

variable {δ : Type}

/-- A buffer given to `send_body`: its length is a `size_t`. -/
structure BodyBuffer where
  bytes : Bytes
  /-- The length fits the type of the parameter. -/
  size_lt : bytes.length < 2 ^ 64

/-! ## One call

The filter writes the size in the arithmetic of `size_t`, so the length of a buffer has to be one.
With that its three calls carry exactly the chunk of the buffer. -/

/-- What a call makes the filter send through the decoratee's `send_body`, once chunking is on. -/
def chunkedPart : Call → Bytes
  | .sendBody buf => chunk buf
  | .completeRequest => lastChunk
  | _ => []

private theorem bodyBytes_passes {f : ChunkingFilter} (hf : f.chunkingEnabled = true) {c : Call}
    (hc : ∀ buf, c.body? = some buf → buf.length < 2 ^ 64) :
    bodyBytes (f.passes c) = chunkedPart c := by
  cases c with
  | sendBody buf =>
    have hlen : (UInt64.ofNat buf.length).toNat = buf.length :=
      UInt64.toNat_ofNat_of_lt' (hc buf rfl)
    rw [ChunkingFilter.passes, if_pos hf, ChunkingFilter.sizeLine, hlen, chunkedPart, chunk]
    simp [bodyBytes, Call.body?]
  | completeRequest =>
    rw [ChunkingFilter.passes, if_pos hf]
    exact List.append_nil _
  | _ => rfl

private theorem ensures_chunking_invoke (d : RestfulClient δ) {c : Call}
    (hc : ∀ buf, c.body? = some buf → buf.length < 2 ^ 64) {f : ChunkingFilter}
    (hf : f.chunkingEnabled = true) (s : List Call × δ) :
    Ensures ((ChunkingFilter.client (recorded d)).invoke c) (f, s)
      (fun _ t ↦ t.1.chunkingEnabled = true ∧
        bodyBytes t.2.1 = bodyBytes s.1 ++ chunkedPart c) fun _ _ ↦ True := by
  rw [ChunkingFilter.ensures_invoke_iff]
  refine (ensures_callAll_recorded (bounded_toNat d) _ s).mono ?_ fun _ _ _ ↦ trivial
  rintro _ t ⟨ht, _⟩
  refine ⟨?_, by rw [ht, bodyBytes_append, bodyBytes_passes hf hc]⟩
  cases c <;> first | exact hf | rfl

/-! ## A whole response

The announcement comes first and switches the filter on; after that the body bytes grow with each
call by `chunkedPart`, and a run in which every call returns has sent the parts of all its calls. In
the other direction an empty buffer is found, the first of them, and the decoder is followed up to
there. -/

/-- The calls of a chunked response: the announcement, whatever else belongs to the head, the
buffers of the body, and the completion. -/
def chunkedResponse (head : List Call) (bufs : List BodyBuffer) : List Call :=
  .sendChunkedTransferEncoding ::
    (head ++ bufs.map (fun b ↦ .sendBody b.bytes) ++ [.completeRequest])

/-- The run of a chunked response on a filter over a recorded decoratee. -/
def runChunked (d : RestfulClient δ) (head : List Call) (bufs : List BodyBuffer)
    (s : ChunkingFilter × δ) :
    List (Except (Fault Exception) UInt64) × ChunkingFilter × List Call × δ :=
  runAll (ChunkingFilter.client (recorded d)).invoke (chunkedResponse head bufs) (s.1, [], s.2)

private theorem ensures_chunking_announce (d : RestfulClient δ) (f : ChunkingFilter)
    (s : List Call × δ) :
    Ensures ((ChunkingFilter.client (recorded d)).invoke .sendChunkedTransferEncoding) (f, s)
      (fun _ t ↦ t.1.chunkingEnabled = true ∧ bodyBytes t.2.1 = bodyBytes s.1)
      fun _ _ ↦ True := by
  rw [ChunkingFilter.ensures_invoke_iff]
  refine (ensures_callAll_recorded (bounded_toNat d) _ s).mono ?_ fun _ _ _ ↦ trivial
  rintro _ t ⟨ht, _⟩
  refine ⟨rfl, ?_⟩
  rw [ht, bodyBytes_append]
  exact List.append_nil _

private theorem bodyBytes_runChunked (d : RestfulClient δ) {head : List Call}
    (hhead : ∀ c ∈ head, c.body? = none ∧ c ≠ .completeRequest) (bufs : List BodyBuffer)
    (s : ChunkingFilter × δ) (hret : AllReturn (runChunked d head bufs s)) :
    bodyBytes (runChunked d head bufs s).2.2.1
      = (bufs.map (·.bytes)).flatMap chunk ++ lastChunk := by
  have hfits : ∀ c ∈ head ++ bufs.map (fun b ↦ .sendBody b.bytes) ++ [.completeRequest],
      ∀ buf, c.body? = some buf → buf.length < 2 ^ 64 := by
    intro c hc buf hbuf
    simp only [List.mem_append, List.mem_map, List.mem_singleton] at hc
    rcases hc with (hc | ⟨b, _, rfl⟩) | rfl
    · rw [(hhead c hc).1] at hbuf
      cases hbuf
    · cases hbuf
      exact b.size_lt
    · cases hbuf
  have hparts : (head ++ bufs.map (fun b ↦ Call.sendBody b.bytes)
      ++ [Call.completeRequest]).flatMap chunkedPart
        = (bufs.map (·.bytes)).flatMap chunk ++ lastChunk := by
    have hnone : head.flatMap chunkedPart = [] := by
      refine List.flatMap_eq_nil_iff.mpr fun c hc ↦ ?_
      obtain ⟨hbody, hreq⟩ := hhead c hc
      cases c with
      | sendBody buf => cases hbody
      | completeRequest => exact absurd rfl hreq
      | _ => rfl
    rw [List.flatMap_append, List.flatMap_append, hnone, List.nil_append, List.flatMap_map,
      List.flatMap_map]
    exact congrArg _ (List.append_nil _)
  rw [runChunked, chunkedResponse] at hret ⊢
  obtain ⟨n, t, hannounce, htail⟩ := allReturn_cons_iff.mp hret
  obtain ⟨ht, hbody⟩ := (ensures_chunking_announce d s.1 ([], s.2)).of_ok hannounce
  -- from here on chunking is on
  have hrun := runAll_trace_of_allReturn
    (I := fun done (r : _ × ChunkingFilter × List Call × δ) ↦
      r.2.1.chunkingEnabled = true ∧ bodyBytes r.2.2.1 = done.flatMap chunkedPart)
    ⟨ht, hbody⟩ (fun done c rest hsplit r hr ↦ ?_) htail
  · rw [runAll_cons_of_ok hannounce, hrun.2, hparts]
  · refine (ensures_chunking_invoke d (hfits c ?_) hr.1 r.2.2).mono ?_ fun _ _ _ ↦ trivial
    · rw [hsplit]
      exact List.mem_append_right _ List.mem_cons_self
    · rintro _ v ⟨hv, hbody⟩
      exact ⟨hv, by rw [hbody, hr.2, List.flatMap_append, List.flatMap_singleton]⟩

private theorem exists_first_nil {bs : List Bytes} (h : [] ∈ bs) :
    ∃ pre post, bs = pre ++ [] :: post ∧ ∀ b ∈ pre, b ≠ [] := by
  induction bs with
  | nil => cases h
  | cons b bs ih =>
    by_cases hb : b = []
    · exact ⟨[], bs, by rw [hb, List.nil_append], by simp⟩
    · obtain ⟨pre, post, rfl, hpre⟩ := ih ((List.mem_cons.mp h).resolve_left (Ne.symm hb))
      refine ⟨b :: pre, post, rfl, fun c hc ↦ ?_⟩
      rcases List.mem_cons.mp hc with rfl | hc
      · exact hb
      · exact hpre c hc

/-- **A chunked response is decoded to the buffers exactly when no buffer is empty.** -/
theorem decodeChunked_response_iff (d : RestfulClient δ) (head : List Call)
    (hhead : ∀ c ∈ head, c.body? = none ∧ c ≠ .completeRequest) (bufs : List BodyBuffer)
    (s : ChunkingFilter × δ) (hret : AllReturn (runChunked d head bufs s)) :
    decodeChunked (bodyBytes (runChunked d head bufs s).2.2.1)
        = some ((bufs.map (·.bytes)).flatten, [])
      ↔ ∀ b ∈ bufs, b.bytes ≠ [] := by
  rw [bodyBytes_runChunked d hhead bufs s hret]
  constructor
  · intro hdec
    by_contra hsome
    have hnil : [] ∈ bufs.map (·.bytes) := by
      push Not at hsome
      obtain ⟨b, hb, hempty⟩ := hsome
      exact List.mem_map.mpr ⟨b, hb, hempty⟩
    obtain ⟨pre, post, hbufs, hpre⟩ := exists_first_nil hnil
    -- the first empty buffer ends the body, and its terminator is not the last byte sent
    rw [hbufs, List.flatMap_append, List.flatMap_cons, chunk_nil, List.append_assoc,
      List.append_assoc, decodeChunked_flatMap_chunk hpre] at hdec
    have hrest := congrArg Prod.snd (Option.some.inj hdec)
    exact absurd (List.append_eq_nil_iff.mp hrest).2 (by decide)
  · intro hne
    have hne' : ∀ b ∈ bufs.map (·.bytes), b ≠ [] := by
      intro b hb
      obtain ⟨b', hb', rfl⟩ := List.mem_map.mp hb
      exact hne b' hb'
    simpa using decodeChunked_flatMap_chunk hne' []

/-- Over a client whose writes succeed, a response throws nothing. -/
private theorem allReturn_runChunked {head : List Call} (hhead : ∀ c ∈ head, ClientIo.LineFits c)
    (bufs : List BodyBuffer) : AllReturn (runChunked StreamIo.client head bufs ({}, .bare)) := by
  refine ((StreamIo.returns []).recorded.filter .chunking).allReturn (fun c hc ↦ ?_)
    ⟨Nat.zero_le _, Stream.Reliable.writingSince fun _ ↦ rfl⟩
  simp only [chunkedResponse, List.mem_cons, List.mem_append, List.mem_map, List.not_mem_nil,
    or_false] at hc
  rcases hc with rfl | (hc | ⟨b, _, rfl⟩) | rfl
  · trivial
  · exact hhead c hc
  · trivial
  · trivial

/-- A header, and two buffers of five bytes. -/
theorem decodeChunked_response_helloWorld :
    decodeChunked (bodyBytes (runChunked StreamIo.client
        [.sendHeader (ascii "Server") (ascii "x"), .completeHeader]
        [⟨ascii "hello", by decide⟩, ⟨ascii "world", by decide⟩] ({}, .bare)).2.2.1)
      = some (([ascii "hello", ascii "world"] : List Bytes).flatten, []) :=
  (decodeChunked_response_iff StreamIo.client
    [.sendHeader (ascii "Server") (ascii "x"), .completeHeader] (by simp [Call.body?])
    [⟨ascii "hello", by decide⟩, ⟨ascii "world", by decide⟩] ({}, .bare)
    (allReturn_runChunked (by simp [ClientIo.LineFits]) _)).mpr (by simp [ascii])

/-- After an empty buffer the receiver takes the body to be over: the byte that follows is not part
of it. -/
theorem decodeChunked_response_empty_buffer :
    ¬decodeChunked (bodyBytes (runChunked StreamIo.client []
        [⟨[], by decide⟩, ⟨ascii "x", by decide⟩] ({}, .bare)).2.2.1)
      = some (([[], ascii "x"] : List Bytes).flatten, []) := by
  have hdec : decodeChunked (lastChunk ++ (chunk (ascii "x") ++ lastChunk))
      = some ([], chunk (ascii "x") ++ lastChunk) :=
    decodeChunked_flatMap_chunk (by simp : ∀ b ∈ ([] : List Bytes), b ≠ []) _
  have hnone : ∀ c ∈ ([] : List Call), c.body? = none ∧ c ≠ .completeRequest := by simp
  have hrun := bodyBytes_runChunked StreamIo.client hnone
    [⟨[], by decide⟩, ⟨ascii "x", by decide⟩] ({}, .bare) (allReturn_runChunked (by simp) _)
  rw [hrun]
  simp only [List.map_cons, List.map_nil, List.flatMap_cons, List.flatMap_nil, chunk_nil,
    List.append_nil, List.append_assoc]
  rw [hdec]
  simp [ascii]

end CppRepo
