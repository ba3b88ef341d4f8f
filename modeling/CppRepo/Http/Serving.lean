import CppRepo.Http.Environment
import CppRepo.Http.Connection
import CppRepo.Http.HeadBuffering

/-!
# What serving one request comes to

Serving a request ends in one of two ways, and which one can be told from what the request meets:
the outcome of the writes, the value of `Content-Length`, whether there is memory for the body, and
the reads the body arrives in. If it returns, the stream was handed the buffers listed in
`Message.answers` and nothing else happened to it; if it throws, the next header was not read.

## The reads of the body

Two loops read the body: `recv_body` until its buffer is full, and the connection until the message
is complete. `Brings` says of the reads that the first loop gets what it is after before a read
fails, `Drains` that the two together reach the end of the message. Neither mentions the loops.

## From the loops to the writes

A client that serves a request writes a few buffers and reads the body in between. Each part of
`putobj` has a specification in terms of what it meets, and `Uploads` puts the conditions together
in the order in which they are met. A request that is no upload meets nothing that could fail. The
rule for one turn of the loop has one case for each way in which the turn can end, and the modules
about whole connections use only that.
-/

namespace CppRepo

/-! ## The reads of the body

The predicates follow the reads one by one, as the loops do, and each loop is shown to return
exactly where its predicate holds. What the first loop leaves to the second is enough for it if the
two together reach the end of the message. -/

/-- Whether the message is complete after the reads. -/
def BodyState.doneAfter (b : BodyState) (reads : List ReadSome) : Bool :=
  reads.foldl (fun _ r ↦ r.done) b.done

/-- Before a read fails, the reads show `needed` bytes, or complete the message, or the parser asks
for another buffer. -/
def Brings (needed : ℕ) (b : BodyState) (reads : List ReadSome) : Prop :=
  ∃ pre post, reads = pre ++ post ∧ (∀ r ∈ pre, r.ec = none) ∧
    ((needed ≤ (pre.map ReadSome.avail).sum ∧ needed ≤ b.unread.length) ∨
      b.doneAfter pre = true ∨ ∃ r, post.head? = some r ∧ r.ec = some .needBuffer)

/-- A read that does not end the connection. -/
def ReadSome.Harmless (r : ReadSome) : Prop := r.ec = none ∨ r.ec = some .needBuffer

/-- The reads complete the message before one of them ends the connection. -/
def Drains (b : BodyState) (reads : List ReadSome) : Prop :=
  ∃ pre, pre <+: reads ∧ (∀ r ∈ pre, r.Harmless) ∧ b.doneAfter pre = true

section Reads

variable {b b' : BodyState} {r : ReadSome} {reads : List ReadSome} {needed : ℕ}

private theorem brings_zero : Brings 0 b reads :=
  ⟨[], reads, rfl, by simp, .inl ⟨Nat.zero_le _, Nat.zero_le _⟩⟩

theorem brings_of_done (h : b.done = true) : Brings needed b reads :=
  ⟨[], reads, rfl, by simp, .inr (.inl h)⟩

private theorem drains_of_done (h : b.done = true) : Drains b reads :=
  ⟨[], List.nil_prefix, by simp, h⟩

private theorem brings_nil_iff : Brings needed b [] ↔ needed = 0 ∨ b.done = true := by
  refine ⟨?_, ?_⟩
  · rintro ⟨pre, post, hreads, _, h⟩
    obtain ⟨rfl, rfl⟩ := List.append_eq_nil_iff.mp hreads.symm
    rcases h with ⟨h, _⟩ | h | ⟨r, hr, _⟩
    · exact .inl (Nat.le_zero.mp h)
    · exact .inr h
    · exact absurd hr (by simp)
  · rintro (rfl | h)
    · exact brings_zero
    · exact brings_of_done h

private theorem drains_nil_iff : Drains b [] ↔ b.done = true := by
  refine ⟨?_, drains_of_done⟩
  rintro ⟨pre, hpre, _, h⟩
  obtain rfl := List.prefix_nil.mp hpre
  exact h

private theorem length_stored (r : ReadSome) (size : ℕ) (b : BodyState) :
    (b.readSome r size).1.1.length = min size (min r.avail b.unread.length) := by
  rw [BodyState.readSome, List.length_take, List.length_take]

private theorem length_unread_readSome (r : ReadSome) (size : ℕ) (b : BodyState) :
    (b.readSome r size).2.unread.length
      = b.unread.length - min size (min r.avail b.unread.length) := by
  rw [← length_stored, BodyState.readSome, List.length_drop]

private theorem done_readSome (r : ReadSome) (size : ℕ) (b : BodyState) :
    (b.readSome r size).2.done = r.done := rfl

private theorem brings_cons_iff (hneeded : needed ≠ 0) (hdone : b.done = false) :
    Brings needed b (r :: reads) ↔ r.ec = some .needBuffer ∨ (r.ec = none ∧
      Brings (needed - (b.readSome r needed).1.1.length) (b.readSome r needed).2 reads) := by
  refine ⟨?_, ?_⟩
  · rintro ⟨pre, post, hreads, hpre, h⟩
    match pre with
    | [] =>
      obtain rfl : post = r :: reads := hreads.symm
      rcases h with ⟨h, _⟩ | h | ⟨r', hr', hec⟩
      · exact absurd (Nat.le_zero.mp h) hneeded
      · exact absurd (hdone.symm.trans h) (by simp)
      · exact .inl (Option.some_inj.mp hr' ▸ hec)
    | r' :: pre =>
      obtain ⟨rfl, rfl⟩ := List.cons.inj hreads
      refine .inr ⟨hpre r List.mem_cons_self, pre, post, rfl,
        fun q hq ↦ hpre q (List.mem_cons_of_mem r hq), ?_⟩
      rw [length_stored, length_unread_readSome]
      rcases h with ⟨hsum, hunread⟩ | h | h
      · rw [List.map_cons, List.sum_cons] at hsum
        exact .inl ⟨by omega, by omega⟩
      · exact .inr (.inl h)
      · exact .inr (.inr h)
  · rintro (hec | ⟨hec, pre, post, rfl, hpre, h⟩)
    · exact ⟨[], r :: reads, rfl, by simp, .inr (.inr ⟨r, rfl, hec⟩)⟩
    · refine ⟨r :: pre, post, rfl, List.forall_mem_cons.mpr ⟨hec, hpre⟩, ?_⟩
      rw [length_stored, length_unread_readSome] at h
      rw [List.map_cons, List.sum_cons]
      rcases h with ⟨hsum, hunread⟩ | h | h
      · exact .inl ⟨by omega, by omega⟩
      · exact .inr (.inl h)
      · exact .inr (.inr h)

private theorem drains_cons_iff (hdone : b.done = false) (hb' : b'.done = r.done) :
    Drains b (r :: reads) ↔ r.Harmless ∧ Drains b' reads := by
  refine ⟨?_, ?_⟩
  · rintro ⟨pre, hpre, hharmless, h⟩
    match pre with
    | [] => exact absurd (hdone.symm.trans h) (by simp)
    | r' :: pre =>
      obtain ⟨rfl, hpre'⟩ := List.cons_prefix_cons.mp hpre
      refine ⟨hharmless r' List.mem_cons_self, pre, hpre',
        fun q hq ↦ hharmless q (List.mem_cons_of_mem r' hq), ?_⟩
      rw [BodyState.doneAfter, hb']
      exact h
  · rintro ⟨hr, pre, hpre, hharmless, h⟩
    rw [BodyState.doneAfter, hb'] at h
    exact ⟨r :: pre, List.cons_prefix_cons.mpr ⟨rfl, hpre⟩,
      List.forall_mem_cons.mpr ⟨hr, hharmless⟩, h⟩

private theorem ec_readSome (r : ReadSome) (size : ℕ) (b : BodyState) :
    (b.readSome r size).1.2 = (r.ec <|>
      if size < min r.avail b.unread.length then some ErrorCode.needBuffer else none) := by
  rw [← List.length_take]
  rfl

/-! ### One turn of the loop of `recv_body`

A read that finds no room for the rest of the body ends the loop like a full buffer does; any other
error throws. -/

section Turn

variable {size : ℕ} {got : Bytes} {ec : ErrorCode}

private theorem recvLoop_of_none (hstop : ¬ (size = 0 ∨ b.done = true))
    (h : (b.readSome r size).1.2 = none) :
    StreamIo.recvLoop (r :: reads) size got b
      = StreamIo.recvLoop reads (size - (b.readSome r size).1.1.length)
          (got ++ (b.readSome r size).1.1) (b.readSome r size).2 := by
  rw [StreamIo.recvLoop, if_neg hstop]
  rcases hx : b.readSome r size with ⟨⟨stored, ec'⟩, b'⟩
  rw [hx] at h
  obtain rfl : ec' = none := h
  rfl

private theorem recvLoop_of_needBuffer (hstop : ¬ (size = 0 ∨ b.done = true))
    (h : (b.readSome r size).1.2 = some .needBuffer) :
    StreamIo.recvLoop (r :: reads) size got b
      = (.ok (got ++ (b.readSome r size).1.1), reads, (b.readSome r size).2) := by
  rw [StreamIo.recvLoop, if_neg hstop]
  rcases hx : b.readSome r size with ⟨⟨stored, ec'⟩, b'⟩
  rw [hx] at h
  obtain rfl : ec' = some .needBuffer := h
  rfl

private theorem recvLoop_of_error (hstop : ¬ (size = 0 ∨ b.done = true))
    (h : (b.readSome r size).1.2 = some ec) (hec : ec ≠ .needBuffer) :
    StreamIo.recvLoop (r :: reads) size got b
      = (.error ec, reads, (b.readSome r size).2) := by
  rw [StreamIo.recvLoop, if_neg hstop]
  rcases hx : b.readSome r size with ⟨⟨stored, ec'⟩, b'⟩
  rw [hx] at h
  obtain rfl : ec' = some ec := h
  match ec with
  | .needBuffer => exact absurd rfl hec
  | .connectionReset | .badDescriptor | .operationAborted | .endOfStream | .brokenPipe
  | .partialMessage | .other _ => rfl

end Turn

end Reads

/-- **The loop of `recv_body`** returns if and only if the reads bring what it is after, and leaves
the connection's loop as many reads as it needs. -/
theorem recvLoop_spec (reads : List ReadSome) : ∀ (size : ℕ) (got : Bytes) (b : BodyState),
    (∃ got' reads' b', StreamIo.recvLoop reads size got b = (.ok got', reads', b') ∧
      Brings size b reads ∧ (Drains b' reads' ↔ Drains b reads)) ∨
    ∃ ec reads' b', StreamIo.recvLoop reads size got b = (.error ec, reads', b') ∧
      ¬Brings size b reads := by
  induction reads with
  | nil =>
    intro size got b
    by_cases h : size = 0 ∨ b.done = true
    · exact .inl ⟨got, [], b, if_pos h, brings_nil_iff.mpr h, Iff.rfl⟩
    · exact .inr ⟨_, [], b, if_neg h, fun hb ↦ h (brings_nil_iff.mp hb)⟩
  | cons r reads ih =>
    intro size got b
    by_cases h : size = 0 ∨ b.done = true
    · refine .inl ⟨got, r :: reads, b, if_pos h, ?_, Iff.rfl⟩
      rcases h with rfl | h
      · exact brings_zero
      · exact brings_of_done h
    obtain ⟨hsize, hdone⟩ := not_or.mp h
    rw [Bool.not_eq_true] at hdone
    have hbrings : Brings size b (r :: reads) ↔ _ := brings_cons_iff hsize hdone
    have hdrains : Drains b (r :: reads) ↔ _ := drains_cons_iff hdone (done_readSome r size b)
    have hread := ec_readSome r size b
    rcases hec : r.ec with - | ec
    · have hharmless := hdrains.trans (and_iff_right (.inl hec))
      rw [hec] at hread
      by_cases hfull : size < min r.avail b.unread.length
      · -- More was seen than there is room for: the loop ends, with the buffer full.
        have hstored : size - (b.readSome r size).1.1.length = 0 := by
          rw [length_stored]
          omega
        rw [if_pos hfull] at hread
        refine .inl ⟨_, _, _, recvLoop_of_needBuffer h hread, ?_, hharmless.symm⟩
        refine hbrings.mpr (.inr ⟨hec, ?_⟩)
        rw [hstored]
        exact brings_zero
      · rw [if_neg hfull] at hread
        rw [recvLoop_of_none h hread]
        rcases ih (size - (b.readSome r size).1.1.length) (got ++ (b.readSome r size).1.1)
          (b.readSome r size).2 with ⟨got', reads', b', hloop, hb, hd⟩ | ⟨ec, reads', b', hloop, hb⟩
        · refine .inl ⟨got', reads', b', hloop, hbrings.mpr (.inr ⟨hec, hb⟩), ?_⟩
          exact hd.trans hharmless.symm
        · refine .inr ⟨ec, reads', b', hloop, fun h ↦ ?_⟩
          rcases hbrings.mp h with hneed | ⟨_, hrest⟩
          · exact absurd (hec.symm.trans hneed) (by simp)
          · exact hb hrest
    · rw [hec] at hread
      by_cases hneed : ec = .needBuffer
      · subst hneed
        refine .inl ⟨_, _, _, recvLoop_of_needBuffer h hread, hbrings.mpr (.inl hec), ?_⟩
        exact (hdrains.trans (and_iff_right (.inr hec))).symm
      · refine .inr ⟨ec, reads, _, recvLoop_of_error h hread hneed, fun h ↦ ?_⟩
        rcases hbrings.mp h with hsome | ⟨hnone, _⟩
        · exact hneed (Option.some_inj.mp (hec.symm.trans hsome))
        · exact absurd (hec.symm.trans hnone) (by simp)

/-- **The loop of the connection** ends without an error if and only if the reads complete the
message. -/
theorem discardLoop_eq_none_iff (reads : List ReadSome) : ∀ b : BodyState,
    discardLoop reads b = none ↔ Drains b reads := by
  induction reads with
  | nil =>
    intro b
    rw [drains_nil_iff, discardLoop]
    by_cases h : b.done = true <;> simp [h]
  | cons r reads ih =>
    intro b
    rw [discardLoop]
    by_cases h : b.done = true
    · simp [h, drains_of_done h]
    · rw [if_neg h]
      rw [Bool.not_eq_true] at h
      have hdrains : Drains b (r :: reads) ↔ _ := drains_cons_iff h (done_readSome r 1024 b)
      have hread := ec_readSome r 1024 b
      rcases hx : b.readSome r 1024 with ⟨⟨stored, ec⟩, b'⟩
      rw [hx] at hread hdrains
      rw [hdrains, ReadSome.Harmless]
      rcases hec : r.ec with - | ec'
      · rw [hec] at hread
        by_cases hfull : 1024 < min r.avail b.unread.length
        · rw [if_pos hfull] at hread
          obtain rfl : ec = some .needBuffer := hread
          simpa using ih b'
        · rw [if_neg hfull] at hread
          obtain rfl : ec = none := hread
          simpa using ih b'
      · rw [hec] at hread
        obtain rfl : ec = some ec' := hread
        match ec' with
        | .needBuffer => simpa using ih b'
        | .connectionReset | .badDescriptor | .operationAborted | .endOfStream | .brokenPipe
        | .partialMessage | .other _ => simp

/-! ## The content length of a request

The environment keeps the text of the last header of that name, and `contentLength` is the number
that this text stands for. The parser has already refused a message whose length is no numeral. -/

namespace Message

/-- The text of the last `Content-Length` field. -/
def contentLengthText (m : Message) : Option Bytes :=
  (m.fields.filter fun f ↦ f.isNamed (ascii "Content-Length")).getLast?.map Field.value

/-- Its number. -/
def contentLength (m : Message) : Option ℕ :=
  m.contentLengthText.bind fun text ↦ (readNumeral 10 text).map Prod.fst

/-- The requests `process` hands to `putobj`. -/
def isUpload (m : Message) : Bool := m.method = .put ∨ m.method = .post

theorem contentLength_of_text {m : Message} {text : Bytes} (h : m.contentLengthText = some text) :
    ∃ len, readNumeral 10 text = some (len, []) ∧ m.contentLength = some len := by
  obtain ⟨f, hf, rfl⟩ := Option.map_eq_some_iff.mp h
  obtain ⟨hmem, hname⟩ := List.mem_filter.mp (List.mem_of_getLast? hf)
  obtain ⟨len, _, hlen⟩ := m.contentLength_ok f hmem hname
  exact ⟨len, hlen, by rw [contentLength, h, Option.bind_some, hlen]; rfl⟩

theorem contentLength_of_text_none {m : Message} (h : m.contentLengthText = none) :
    m.contentLength = none := by
  rw [contentLength, h, Option.bind_none]

end Message

namespace ClientIo

variable {ω : Type}

theorem lookup_foldl_addHeader (fields : List Field) :
    (fields.foldl addHeader ∅).lookup (ascii "CONTENT_LENGTH")
      = (fields.filter fun f ↦ f.isNamed (ascii "Content-Length")).getLast?.map Field.value := by
  rw [foldl_addHeader, lookup_assignAll, lastAssigned_headerLines _ headerKey_eq_contentLength,
    AList.lookup_empty, Option.or_none, List.getLast?_map]

theorem lookup_addRequestLine (io : ClientIo ω) (env : EnvMap) :
    (io.addRequestLine env).lookup (ascii "CONTENT_LENGTH")
      = env.lookup (ascii "CONTENT_LENGTH") := by
  have hline : lastAssigned io.requestLine (ascii "CONTENT_LENGTH") = none :=
    lastAssigned_eq_none fun p hp hpk ↦ absurd (mem_serverVariables_of_mem_requestLine hp)
      (hpk ▸ by decide +kernel)
  rw [addRequestLine_eq, lookup_assignAll, hline, Option.none_or]

end ClientIo

/-! ## Calls whose texts fit the buffer

For a status line and headers of the usual lengths the buffer has room, so a call that does not
flush writes nothing, and one that flushes makes a single write. `wrote` is the stream after some
successful writes. -/

namespace Stream

/-- The stream after some buffers were handed to it. -/
def wrote (bufs : List Bytes) (s : Stream) : Stream :=
  { s with log := s.log ++ bufs.map .write }

@[simp] theorem wrote_nil (s : Stream) : s.wrote [] = s := by
  rw [wrote, List.map_nil, List.append_nil]

private theorem wrote_wrote (s : Stream) (bufs bufs' : List Bytes) :
    (s.wrote bufs).wrote bufs' = s.wrote (bufs ++ bufs') := by
  rw [wrote, wrote, wrote, List.map_append, ← List.append_assoc]

private theorem written_wrote (s : Stream) (bufs : List Bytes) :
    (s.wrote bufs).written = s.written ++ bufs := by
  have hmap : (bufs.map Event.write).filterMap Event.written? = bufs := by
    rw [List.filterMap_map]
    exact List.filterMap_some
  rw [written, wrote, List.filterMap_append, hmap, written]

/-- Whatever was done with the stream since, no header was read. -/
def NotReadSince (s t : Stream) : Prop := ∃ events, t.log = s.log ++ events ∧ .readHeader ∉ events

private theorem notReadSince_wrote (s : Stream) (bufs : List Bytes) :
    s.NotReadSince (s.wrote bufs) :=
  ⟨bufs.map .write, rfl, by simp⟩

private theorem NotReadSince.of_wrote {s t : Stream} {bufs : List Bytes}
    (h : (s.wrote bufs).NotReadSince t) : s.NotReadSince t := by
  obtain ⟨events, hlog, hevents⟩ := h
  exact ⟨bufs.map .write ++ events, by rw [hlog, wrote, List.append_assoc], by simp [hevents]⟩

private theorem ensures_writeData_outcome (buf : Bytes) (s : Stream) : Ensures (writeData buf) s
    (fun _ t ↦ s.writeOutcome s.written.length = none ∧ t = s.wrote [buf])
    fun _ t ↦ s.writeOutcome s.written.length ≠ none ∧ s.NotReadSince t := by
  rw [writeData, ensures_bind, ensures_get, ensures_bind, ensures_modify]
  rcases h : s.writeOutcome s.written.length with - | ec
  · exact ⟨rfl, rfl⟩
  · by_cases hpipe : ec = .brokenPipe
    · simp only [ensures_bind, ensures_modify, hpipe, if_true, ensures_throw]
      refine ⟨by simp, [.write buf, .shutdown], ?_, by simp⟩
      rw [note, note, List.append_assoc]
      rfl
    · simp only [hpipe, if_false, ensures_throw]
      exact ⟨by simp, [.write buf], rfl, by simp⟩

end Stream

namespace StreamIo

variable (io : StreamIo) {c : Call}

private theorem ensures_invoke_held (hbody : c.body? = none) (hline : ClientIo.LineFits c)
    (hflush : ClientIo.flushes c = false)
    (hroom : io.txbuf.pptr + (io.generated c).length ≤ StaticOutputBufferer.epptr txbufSize) :
    Ensures (client.invoke c) io
      (fun _ t ↦ ∃ b, t = { io with txbuf := b } ∧ b.sink = io.txbuf.sink ∧
        b.pptr = io.txbuf.pptr + (io.generated c).length ∧
        b.pending = io.txbuf.pending ++ io.generated c) fun _ _ ↦ False := by
  rw [ClientIo.generated_of_body hbody] at hroom ⊢
  rw [client, ClientIo.ensures_invoke_iff hbody hline, hflush]
  refine (StaticOutputBufferer.ensures_emit_held _ io.txbuf hroom).mono ?_ fun _ _ h ↦ h
  rintro n b ⟨hsink, hpptr, hpending⟩
  exact ⟨b, rfl, hsink, hpptr, hpending⟩

/-- A call that flushes, with room for its texts: one write of everything pending. -/
theorem ensures_invoke_flushed (hbody : c.body? = none) (hline : ClientIo.LineFits c)
    (hflush : ClientIo.flushes c = true)
    (hroom : io.txbuf.pptr + (io.generated c).length ≤ StaticOutputBufferer.epptr txbufSize) :
    Ensures (client.invoke c) io
      (fun _ t ↦ io.txbuf.sink.writeOutcome io.txbuf.sink.written.length = none ∧
        ∃ b, t = { io with txbuf := b } ∧ b.pptr = 0 ∧
          b.sink = io.txbuf.sink.wrote [io.txbuf.pending ++ io.generated c])
      fun _ t ↦ io.txbuf.sink.writeOutcome io.txbuf.sink.written.length ≠ none ∧
        io.txbuf.sink.NotReadSince t.txbuf.sink := by
  rw [ClientIo.generated_of_body hbody] at hroom ⊢
  rw [client, ClientIo.ensures_invoke_iff hbody hline, hflush]
  refine StaticOutputBufferer.ensures_emit_of_le _ io.txbuf _ hroom ?_
  refine (Stream.ensures_writeData_outcome _ io.txbuf.sink).mono ?_ ?_
  · rintro n w ⟨hok, rfl⟩ _ b hsink hzero
    exact ⟨hok, b, rfl, hzero, hsink⟩
  · rintro e w ⟨hfail, hlog⟩ b hsink _
    exact ⟨hfail, by rwa [← hsink] at hlog⟩

end StreamIo

/-! ## An upload

An upload writes the interim response, then reads the body, and then writes the head of its response
in one piece. What can go wrong are the two writes, the conversion of the length, the increment, the
allocation and the reads. -/

/-- The head of the response to an upload. -/
def okHead (now : Option Tm) (keepAlive : Bool) : Bytes :=
  ClientIo.statusLine 200 (ascii "OK") ++ (ascii "Content-Length: 0" ++ crlf)
    ++ (((ClientIo.dumpDateHeader now).map cString).getD [] ++
      (ClientIo.connectionText keepAlive ++ crlf))

namespace ClientIo

variable {ω : Type}

theorem generated_send100Continue (io : ClientIo ω) :
    io.generated .send100Continue = continueText := List.append_nil _

theorem generated_sendStatus (io : ClientIo ω) (status : Int32) (statusName : Bytes) :
    io.generated (.sendStatus status statusName) = statusLine status statusName := List.append_nil _

theorem generated_sendHeader (io : ClientIo ω) (name value : Bytes) :
    io.generated (.sendHeader name value) = name ++ (ascii ": " ++ (value ++ crlf)) := by
  rw [generated_of_body rfl, texts, List.flatten_cons, List.flatten_cons, List.flatten_cons,
    List.flatten_singleton]

theorem generated_completeHeader (io : ClientIo ω) : io.generated .completeHeader
    = ((dumpDateHeader io.now).map cString).getD [] ++
      (connectionText io.parser.message.keepAlive ++ crlf) := by
  rw [generated_of_body rfl, texts, completionTexts, List.flatten_append]
  congr 1
  rcases dumpDateHeader io.now with - | timestr
  · rfl
  · exact List.append_nil _

private theorem length_generated_completeHeader_le (io : ClientIo ω) :
    (io.generated .completeHeader).length ≤ 200 := by
  have hconnection : (connectionText io.parser.message.keepAlive).length ≤ 24 := by
    rw [connectionText]
    split_ifs <;> decide
  have hdate : (((dumpDateHeader io.now).map cString).getD []).length ≤ 128 := by
    rcases hnow : io.now with - | t
    · exact Nat.zero_le _
    · rw [dumpDateHeader]
      split_ifs with hlt
      · rw [Option.map_some, Option.getD_some, cString]
        exact (List.takeWhile_sublist _).length_le.trans hlt.le
      · exact Nat.zero_le _
  rw [generated_completeHeader, List.length_append, List.length_append, length_crlf]
  omega

end ClientIo

/-- The outcome of the `i`-th write from now on. -/
def Stream.outcome (s : Stream) (i : ℕ) : Option ErrorCode := s.writeOutcome (s.written.length + i)

theorem Stream.outcome_wrote (s : Stream) (bufs : List Bytes) (i : ℕ) :
    (s.wrote bufs).outcome i = s.outcome (bufs.length + i) := by
  rw [outcome, written_wrote, List.length_append, Nat.add_assoc]
  rfl

/-- What an upload must meet so that the call returns: the writes that answer it succeed, the length
and one more character can be counted by an `int` and allocated, and the reads bring the body. -/
def Uploads (m : Message) (allocates : ℕ → Bool) (b : BodyState) (reads : List ReadSome)
    (outcome : ℕ → Option ErrorCode) : Prop :=
  outcome 0 = none ∧ ∀ len, m.contentLength = some len →
    len < intMax ∧ allocates (len + 1) = true ∧ Brings len b reads ∧ outcome 1 = none

/-- The buffers handed to the stream in answer to an upload. -/
def Message.uploadAnswers (m : Message) (now : Option Tm) : List Bytes :=
  ClientIo.continueText :: (m.contentLength.map fun _ ↦ okHead now m.keepAlive).toList

section Upload

variable {io : StreamIo} {allocates : ℕ → Bool} {E : Fault Exception → StreamIo → Prop}

theorem ensures_stoiThrowing {text : Bytes} {len : ℕ}
    (h : readNumeral 10 text = some (len, []))
    {Q : ℤ → StreamIo → Prop} : Ensures (stoiThrowing text) io Q E
      ↔ if len ≤ intMax then Q len io else E (.thrown .outOfRange) io := by
  rw [stoiThrowing, stoi_of_readNumeral h]
  split_ifs <;> rfl

private theorem ensures_addInt_one {len : ℕ} (h : len ≤ intMax) {Q : ℤ → StreamIo → Prop} :
    Ensures (addInt len 1) io Q E
      ↔ if len < intMax then Q (len + 1 : ℕ) io else E .undefinedBehaviour io := by
  rw [addInt]
  by_cases hlt : len < intMax
  · rw [if_pos hlt, if_pos (by omega)]
    rfl
  · rw [if_neg hlt, if_neg (by omega)]
    rfl

theorem ensures_newCharArray {n : ℕ} {Q : Unit → StreamIo → Prop} :
    Ensures (newCharArray allocates n) io Q E
      ↔ if allocates n then Q () io else E (.thrown .badAlloc) io := by
  rw [newCharArray, if_neg (by omega), Int.toNat_natCast]
  split_ifs <;> rfl

theorem toNat_ofInt {len : ℕ} (h : len ≤ intMax) : (UInt64.ofInt (len : ℤ)).toNat = len := by
  have hlt : len < 2 ^ 64 := h.trans_lt (by decide)
  rw [UInt64.ofInt, UInt64.toNat_ofNat', Int.emod_eq_of_lt (by omega) (by omega),
    Int.toNat_natCast, Nat.mod_eq_of_lt hlt]

theorem ensures_recvBody (io : StreamIo) (max : UInt64) : Ensures (StreamIo.recvBody max) io
    (fun _ t ↦ Brings max.toNat io.parser.body io.parser.reads ∧ ∃ reads body,
      t = { io with parser := { io.parser with reads, body } } ∧
      (Drains body reads ↔ Drains io.parser.body io.parser.reads))
    fun _ t ↦ ¬Brings max.toNat io.parser.body io.parser.reads ∧ t.txbuf = io.txbuf := by
  rw [StreamIo.recvBody, ensures_bind, ensures_get]
  rcases recvLoop_spec io.parser.reads max.toNat [] io.parser.body with
    ⟨got, reads, body, hloop, hbrings, hdrains⟩ | ⟨ec, reads, body, hloop, hbrings⟩
  · simp only [hloop, ensures_bind, ensures_set, ensures_pure]
    exact ⟨hbrings, reads, body, rfl, hdrains⟩
  · simp only [hloop, ensures_bind, ensures_set, ensures_throw]
    exact ⟨hbrings, trivial⟩

theorem ensures_okCalls (io : StreamIo) (hpptr : io.txbuf.pptr = 0) : Ensures (do
      let _ ← StreamIo.client.sendStatus 200 (ascii "OK")
      let _ ← StreamIo.client.sendHeader (ascii "Content-Length") (ascii "0")
      let _ ← StreamIo.client.completeHeader
      let _ ← StreamIo.client.completeRequest
      return (200 : ℤ)) io
    (fun ret t ↦ 0 ≤ ret ∧ io.txbuf.sink.outcome 0 = none ∧ t.parser = io.parser ∧
      t.txbuf.sink = io.txbuf.sink.wrote [okHead io.now io.parser.message.keepAlive])
    fun _ t ↦ io.txbuf.sink.outcome 0 ≠ none ∧ io.txbuf.sink.NotReadSince t.txbuf.sink := by
  have hline : (ClientIo.statusLine 200 (ascii "OK")).length = 17 := by decide
  have hstatus := StreamIo.ensures_invoke_held io (c := .sendStatus 200 (ascii "OK")) rfl
    (hline.trans_lt (by decide)) rfl
  rw [ClientIo.generated_sendStatus, hpptr] at hstatus
  rw [ensures_bind]
  refine (hstatus (by rw [hline]; decide)).mono ?_ fun _ _ h ↦ h.elim
  rintro _ _ ⟨b₁, rfl, hsink₁, hpptr₁, hpending₁⟩
  have hheader := StreamIo.ensures_invoke_held { io with txbuf := b₁ }
    (c := .sendHeader (ascii "Content-Length") (ascii "0")) rfl trivial rfl
  rw [ClientIo.generated_sendHeader, hpptr₁, hline] at hheader
  rw [ensures_bind]
  refine (hheader (by decide)).mono ?_ fun _ _ h ↦ h.elim
  rintro _ _ ⟨b₂, rfl, hsink₂, hpptr₂, hpending₂⟩
  have hcomplete := StreamIo.ensures_invoke_flushed { io with txbuf := b₂ }
    (c := .completeHeader) rfl trivial rfl
  rw [ensures_bind]
  refine (hcomplete ?_).mono ?_ ?_
  · have hlength := ClientIo.length_generated_completeHeader_le { io with txbuf := b₂ }
    have hhead : b₂.pptr = 36 := hpptr₂
    refine (Nat.add_le_add hhead.le hlength).trans ?_
    decide
  · rintro _ _ ⟨hok, b₃, rfl, _, hsink₃⟩
    simp only at hsink₁ hsink₂ hsink₃ hpending₁ hpending₂ hok
    rw [hsink₂, hsink₁] at hok hsink₃
    refine ⟨by decide, hok, rfl, ?_⟩
    rw [hsink₃, hpending₂, hpending₁, StaticOutputBufferer.pending, hpptr, List.take_zero,
      List.nil_append, ClientIo.generated_completeHeader]
    rfl
  · rintro _ t ⟨hfail, hlog⟩
    simp only at hsink₁ hsink₂ hfail hlog
    rw [hsink₂, hsink₁] at hfail hlog
    exact ⟨hfail, hlog⟩

/-- **An upload** returns if and only if it meets what `Uploads` says, and then the stream was
handed the buffers of `uploadAnswers`. -/
theorem ensures_putobj (hpptr : io.txbuf.pptr = 0)
    (hval : io.getVal (ascii "CONTENT_LENGTH") = io.parser.message.contentLengthText) :
    Ensures (putobj allocates) io
      (fun ret t ↦ 0 ≤ ret ∧
        Uploads io.parser.message allocates io.parser.body io.parser.reads io.txbuf.sink.outcome ∧
        t.txbuf.sink = io.txbuf.sink.wrote (io.parser.message.uploadAnswers io.now) ∧
        (Drains t.parser.body t.parser.reads ↔ Drains io.parser.body io.parser.reads))
      fun _ t ↦
        ¬Uploads io.parser.message allocates io.parser.body io.parser.reads io.txbuf.sink.outcome ∧
        io.txbuf.sink.NotReadSince t.txbuf.sink := by
  have hcontinue := StreamIo.ensures_invoke_flushed io (c := .send100Continue) rfl trivial rfl
  rw [ClientIo.generated_send100Continue, hpptr] at hcontinue
  rw [putobj, ensures_bind]
  refine (hcontinue (by decide)).mono ?_ fun _ t h ↦ ⟨fun hup ↦ h.1 hup.1, h.2⟩
  rintro _ _ ⟨h0, b, rfl, hzero, hsink⟩
  rw [StaticOutputBufferer.pending, hpptr, List.take_zero, List.nil_append] at hsink
  have hlog : io.txbuf.sink.NotReadSince b.sink := hsink ▸ Stream.notReadSince_wrote _ _
  rw [ensures_bind, ensures_get]
  have hval' : ({ io with txbuf := b } : StreamIo).getVal (ascii "CONTENT_LENGTH")
      = io.parser.message.contentLengthText := hval
  rw [hval']
  rcases htext : io.parser.message.contentLengthText with - | text
  · have hlen := Message.contentLength_of_text_none htext
    refine ⟨by decide, ⟨h0, fun len h ↦ absurd (hlen.symm.trans h) (by simp)⟩, ?_, Iff.rfl⟩
    rw [Message.uploadAnswers, hlen]
    exact hsink
  · obtain ⟨len, hread, hlen⟩ := Message.contentLength_of_text htext
    simp only [ensures_bind]
    rw [ensures_stoiThrowing hread]
    by_cases hle : len ≤ intMax
    swap
    · rw [if_neg hle]
      exact ⟨fun hup ↦ hle (hup.2 len hlen).1.le, hlog⟩
    rw [if_pos hle, ensures_addInt_one hle]
    by_cases hlt : len < intMax
    swap
    · rw [if_neg hlt]
      exact ⟨fun hup ↦ hlt (hup.2 len hlen).1, hlog⟩
    rw [if_pos hlt, ensures_newCharArray]
    by_cases halloc : allocates (len + 1) = true
    swap
    · rw [if_neg halloc]
      exact ⟨fun hup ↦ halloc (hup.2 len hlen).2.1, hlog⟩
    rw [if_pos halloc]
    have hrecv := ensures_recvBody { io with txbuf := b } (UInt64.ofInt (len : ℤ))
    rw [toNat_ofInt hle] at hrecv
    refine hrecv.mono ?_ ?_
    · rintro _ _ ⟨hbrings, reads, body, rfl, hdrains⟩
      have hstore : ¬((len : ℤ) < 0 ∨ ((len + 1 : ℕ) : ℤ) ≤ len) := by omega
      rw [if_neg hstore]
      have hok :=
        ensures_okCalls { io with txbuf := b, parser := { io.parser with reads, body } } hzero
      rw [hsink, Stream.outcome_wrote] at hok
      refine hok.mono ?_ ?_
      · rintro ret t ⟨hret, h1, hparser, hsink'⟩
        refine ⟨hret, ⟨h0, fun len' hlen' ↦ ?_⟩, ?_, ?_⟩
        · obtain rfl : len' = len := Option.some_inj.mp (hlen'.symm.trans hlen)
          exact ⟨hlt, halloc, hbrings, h1⟩
        · rw [hsink', Stream.wrote_wrote, Message.uploadAnswers, hlen]
          rfl
        · rw [hparser]
          exact hdrains
      · rintro _ t ⟨hfail, hnot⟩
        exact ⟨fun hup ↦ hfail (hup.2 len hlen).2.2.2, hnot.of_wrote⟩
    · rintro _ t ⟨hbrings, htxbuf⟩
      refine ⟨fun hup ↦ hbrings (hup.2 len hlen).2.2.1, ?_⟩
      rw [htxbuf]
      exact hlog

end Upload

/-! ## A request

`answers` lists the buffers that a request makes the server write, and `Serves` is what the request
must meet. Neither depends on the bytes of the body. -/

/-- The buffers handed to the stream in answer to a request: none, unless it is an upload. -/
def Exchange.answers (x : Exchange) (m : Message) : List Bytes :=
  if m.isUpload then m.uploadAnswers x.now else []

/-- How many of them there are. -/
def Message.writes (m : Message) : ℕ :=
  if m.isUpload then (if m.contentLength.isSome then 2 else 1) else 0

theorem Exchange.length_answers (x : Exchange) (m : Message) : (x.answers m).length = m.writes := by
  rw [answers, Message.writes, Message.uploadAnswers]
  split_ifs with hup hlen
  · obtain ⟨len, hlen⟩ := Option.isSome_iff_exists.mp hlen
    rw [hlen]
    rfl
  · rw [Option.not_isSome_iff_eq_none.mp hlen]
    rfl
  · rfl

/-- What a request must meet so that serving it returns. -/
def Exchange.Serves (x : Exchange) (m : Message) (outcome : ℕ → Option ErrorCode) : Prop :=
  m.isUpload = true → Uploads m x.allocates x.body x.reads outcome

theorem ensures_withClient {α : Type} {make : Stream → StreamIo} {p : Method StreamIo α}
    {s : Stream} {Q : α × Parser → Stream → Prop} {E : Fault Exception → Stream → Prop} :
    Ensures (withClient make p) s Q E ↔ Ensures p (make s)
      (fun a io ↦ Q (a, io.parser) io.txbuf.sink) fun e io ↦ E e io.txbuf.sink := by
  rw [Ensures, Ensures, withClient]
  rcases p (make s) with ⟨a, io⟩ | ⟨e, io⟩ <;> rfl

theorem process_of_isUpload {allocates : ℕ → Bool} {method : Verb} {httpRet : ℤ}
    (h : method = .put ∨ method = .post) : process allocates method httpRet = putobj allocates := by
  rcases h with rfl | rfl <;> rfl

private theorem process_of_not_isUpload {allocates : ℕ → Bool} {method : Verb}
    (h : ¬(method = .put ∨ method = .post)) : process allocates method 0 = pure 0 := by
  match method with
  | .put => exact absurd (.inl rfl) h
  | .post => exact absurd (.inr rfl) h
  | .get => rfl
  | .head => rfl
  | .other _ => rfl

/-- **Serving a request** returns if and only if the request meets what it must, and then the stream
was handed the answers and nothing else. -/
theorem ensures_serve (x : Exchange) (m : Message) (localEndpoint : Endpoint) (s : Stream) :
    Ensures (withClient (x.clientIo m localEndpoint) do
        let _ ← ClientIo.initEnv
        process x.allocates m.method 0) s
      (fun r t ↦ 0 ≤ r.1 ∧ x.Serves m s.outcome ∧ t = s.wrote (x.answers m) ∧
        (discardLoop r.2.reads r.2.body = none ↔ Drains x.body x.reads))
      fun _ t ↦ ¬x.Serves m s.outcome ∧ s.NotReadSince t := by
  rw [ensures_withClient, ensures_bind, ClientIo.initEnv, ensures_bind, ensures_modify,
    ensures_pure]
  by_cases hup : m.method = .put ∨ m.method = .post
  · have hup' : m.isUpload = true := decide_eq_true hup
    rw [process_of_isUpload hup, Exchange.answers, if_pos hup']
    refine (ensures_putobj rfl ?_).mono ?_ ?_
    · rw [ClientIo.getVal, ClientIo.lookup_addRequestLine]
      exact ClientIo.lookup_foldl_addHeader m.fields
    · rintro ret t ⟨hret, huploads, hsink, hdrains⟩
      exact ⟨hret, fun _ ↦ huploads, hsink, (discardLoop_eq_none_iff _ _).trans hdrains⟩
    · rintro _ t ⟨huploads, hnot⟩
      exact ⟨fun h ↦ huploads (h hup'), hnot⟩
  · have hup' : ¬m.isUpload = true := fun h ↦ hup (of_decide_eq_true h)
    rw [process_of_not_isUpload hup, Exchange.answers, if_neg hup', Stream.wrote_nil]
    exact ⟨le_rfl, fun h ↦ absurd h hup', rfl, discardLoop_eq_none_iff _ _⟩

/-! ## A turn of the loop

A turn ends with an exception, with the end of the connection, or with the next turn. In the first
two cases no further header is read, which `NotReadSince` keeps for the modules that look at the
log. -/

theorem Stream.outcome_note_readHeader (s : Stream) : (s.note .readHeader).outcome = s.outcome := by
  have hwritten : (s.note .readHeader).written = s.written := by
    rw [written, note, List.filterMap_append]
    exact List.append_nil _
  funext i
  rw [outcome, hwritten]
  rfl

theorem ensures_orThrow {α : Type} {r : Except ErrorCode α} {s : Stream}
    {Q : α → Stream → Prop} {E : Fault Exception → Stream → Prop} (hok : ∀ a, r = .ok a → Q a s)
    (herror : ∀ ec, r = .error ec → E (.thrown (.systemError ec)) s) :
    Ensures (orThrow r) s Q E := by
  match r with
  | .ok a => exact hok a rfl
  | .error ec => exact herror ec rfl

/-- **The rule for one turn.** A header that could not be parsed ends the connection without an
exception. A request throws where the socket cannot say its endpoint or the request does not meet
what it must; otherwise it is answered, and the loop goes on if the connection stays open and the
rest of the message can be read. -/
theorem ensures_handleConnection_cons {x : Exchange} {xs : List Exchange} {s : Stream}
    {Q : Unit → Stream → Prop} {E : Fault Exception → Stream → Prop}
    (hfailed : ∀ ec version, x.header = .failed ec version → Q () (s.note .readHeader) ∧
      Q () ((s.note .readHeader).note (.write (badRequestText version))))
    (hendpoint : ∀ m ec, x.header = .parsed m → x.localEndpoint = .error ec →
      E (.thrown (.systemError ec)) (s.note .readHeader))
    (hthrows : ∀ m e t, x.header = .parsed m → ¬x.Serves m s.outcome →
      (s.note .readHeader).NotReadSince t → E e t)
    (hends : ∀ m e, x.header = .parsed m → x.localEndpoint = .ok e → x.Serves m s.outcome →
      ¬(m.keepAlive = true ∧ Drains x.body x.reads) →
      Q () ((s.note .readHeader).wrote (x.answers m)))
    (hnext : ∀ m e, x.header = .parsed m → x.localEndpoint = .ok e → x.Serves m s.outcome →
      m.keepAlive = true → Drains x.body x.reads →
      Ensures (handleConnection xs) ((s.note .readHeader).wrote (x.answers m)) Q E) :
    Ensures (handleConnection (x :: xs)) s Q E := by
  rw [handleConnection, ensures_bind, ensures_modify]
  rcases hheader : x.header with ⟨ec, version⟩ | m
  · obtain ⟨hsilent, hanswered⟩ := hfailed ec version hheader
    by_cases hmem : ec ∈ silentErrors
    · simp only [hmem, if_true, ensures_pure]
      exact hsilent
    · simp only [hmem, if_false]
      exact hanswered
  · simp only [ensures_bind]
    refine ensures_orThrow (fun e he ↦ ?_) (fun ec hec ↦ hendpoint m ec hheader hec)
    refine (ensures_serve x m e (s.note .readHeader)).mono ?_ ?_
    · rintro ⟨ret, parser⟩ t ⟨hret, hserves, rfl, hdrains⟩
      rw [Stream.outcome_note_readHeader] at hserves
      simp only at hret hdrains
      rw [if_neg (not_lt.mpr hret)]
      by_cases hkeep : m.keepAlive = true
      · rw [if_neg (not_not.mpr hkeep)]
        rcases hdiscard : discardLoop parser.reads parser.body with - | ec
        · exact hnext m e hheader he hserves hkeep (hdrains.mp hdiscard)
        · refine hends m e hheader he hserves fun h ↦ ?_
          exact absurd (hdiscard.symm.trans (hdrains.mpr h.2)) (by simp)
      · rw [if_pos hkeep]
        exact hends m e hheader he hserves fun h ↦ hkeep h.1
    · rintro e' t ⟨hserves, hnot⟩
      rw [Stream.outcome_note_readHeader] at hserves
      exact hthrows m e' t hheader hserves hnot

end CppRepo
