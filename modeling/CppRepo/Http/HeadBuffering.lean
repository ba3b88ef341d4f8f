import CppRepo.Http.ClientIo

/-!
# The response head goes through the buffer, the body past it

Every call on a `ClientIo` but `send_body` does one thing: it puts some texts into `txbuf` and then
perhaps flushes. `emit` is that program on the buffer alone, and `invoke_eq_emit` says which texts
each call puts. What a run sends is then read off the specification of `emit`, whatever the texts
are and wherever the buffer spills in between.

`send_body` hands its bytes to the sink directly. They would overtake what is still in the buffer,
so the order on the wire rests on the buffer being empty at every `send_body`: `complete_header`
flushes, and nothing that may follow it puts a text.

## The documented order

A response is a head, `complete_header`, and a body. With flushes put in anywhere,
`Response.exists_split` finds these three parts again, so the invariant `Sending` only has to know
whether `complete_header` was made: before it everything is put into the buffer, and after it the
buffer is empty.
-/

namespace CppRepo

/-! ## Texts into the buffer

Where the buffer spills depends on the lengths of all texts before, and so does what the sink is
handed in one piece. The specification of `emit` leaves this open: it is about the concatenation.
Where the texts are known to fit, they reach the sink together, and `ensures_emit_held` and
`ensures_emit_of_le` say so. -/

namespace StaticOutputBufferer

variable {N : BufferSize} {ω : Type}

/-- Puts the texts one after the other, flushes if asked to, and returns how many bytes the texts
have. -/
def emit (sink : BuffererSink ω) : List Bytes → Bool → Member N ω UInt64
  | [], flushes => do
    if flushes then
      let _ ← pubsync sink
    return 0
  | text :: texts, flushes => do
    let n ← sputn sink text
    return UInt64.ofNat n + (← emit sink texts flushes)

section Emit

variable {sink : BuffererSink ω} {given : ω → Bytes} {I : ω → Prop} {F : Exception → Prop}

/-- **What putting texts does**, whatever spills on the way: they are taken in order, and the result
is their length. -/
theorem ensures_emit_taken (hkeeps : Keeps sink given I F) (flushes : Bool) (texts : List Bytes) :
    ∀ s : StaticOutputBufferer N ω, Settled I s → Ensures (emit sink texts flushes) s
      (fun n t ↦ n = UInt64.ofNat texts.flatten.length ∧ Settled I t ∧
        taken given t = taken given s ++ texts.flatten ∧ (flushes = true → t.pptr = 0))
      fun e t ↦ (∃ x, F x ∧ e = .thrown x) ∧ Settled I t := by
  induction texts with
  | nil =>
    intro s h
    by_cases hf : flushes = true
    · simp only [emit, hf, if_true, ensures_bind, ensures_pure]
      refine (ensures_pubsync_taken hkeeps h).mono ?_ ?_
      · rintro _ t ⟨hzero, ht, htaken⟩
        exact ⟨rfl, ht, by rw [htaken, List.flatten_nil, List.append_nil], fun _ ↦ hzero⟩
      · rintro e t ⟨he, ht, _⟩
        exact ⟨he, ht⟩
    · rw [Bool.not_eq_true] at hf
      subst hf
      exact ⟨rfl, h, (List.append_nil _).symm, by simp⟩
  | cons text texts ih =>
    intro s h
    rw [emit, ensures_bind]
    refine (ensures_sputn_taken hkeeps text s h).mono ?_ ?_
    · rintro n t ⟨rfl, ht, htaken⟩
      rw [ensures_bind]
      refine (ih t ht).mono ?_ fun e u he ↦ he
      rintro n u ⟨rfl, hu, htaken', hzero⟩
      refine ⟨?_, hu, ?_, hzero⟩
      · rw [List.flatten_cons, List.length_append, UInt64.ofNat_add]
      · rw [htaken', htaken, List.flatten_cons, List.append_assoc]
    · rintro e t ⟨he, ht, _⟩
      exact ⟨he, ht⟩

private theorem ensures_sputn_of_le (cs : Bytes) :
    ∀ s : StaticOutputBufferer N ω, s.pptr + cs.length ≤ epptr N → Ensures (sputn sink cs) s
      (fun n t ↦ n = cs.length ∧ t.sink = s.sink ∧ t.pptr = s.pptr + cs.length ∧
        t.pending = s.pending ++ cs) fun _ _ ↦ False := by
  induction cs with
  | nil => intro s _; exact ⟨rfl, rfl, rfl, (List.append_nil _).symm⟩
  | cons c cs ih =>
    intro s h
    rw [List.length_cons] at h
    have hlt : s.pptr < epptr N := by omega
    rw [sputn, ensures_bind, ensures_sputc_of_lt hlt]
    simp only [ensures_bind, ensures_pure]
    refine (ih (s.push c (lt_of_lt_epptr hlt)) ?_).mono ?_ fun _ _ h ↦ h
    · rw [pptr_push]
      omega
    · rintro n t ⟨rfl, hsink, hpptr, hpending⟩
      refine ⟨rfl, hsink, ?_, ?_⟩
      · rw [hpptr, pptr_push, List.length_cons]
        omega
      · rw [hpending, pending_push, List.append_assoc, List.singleton_append]

/-- Texts that fit the put area wait there. -/
theorem ensures_emit_held (texts : List Bytes) :
    ∀ s : StaticOutputBufferer N ω, s.pptr + texts.flatten.length ≤ epptr N →
      Ensures (emit sink texts false) s
        (fun _ t ↦ t.sink = s.sink ∧ t.pptr = s.pptr + texts.flatten.length ∧
          t.pending = s.pending ++ texts.flatten) fun _ _ ↦ False := by
  induction texts with
  | nil => intro s _; exact ⟨rfl, rfl, (List.append_nil _).symm⟩
  | cons text texts ih =>
    intro s h
    rw [List.flatten_cons, List.length_append, ← Nat.add_assoc] at h
    rw [emit, ensures_bind]
    refine (ensures_sputn_of_le text s ((Nat.le_add_right _ _).trans h)).mono ?_ fun _ _ hf ↦ hf
    rintro n t ⟨rfl, hsink, hpptr, hpending⟩
    rw [ensures_bind]
    refine (ih t (by rw [hpptr]; exact h)).mono ?_ fun _ _ hf ↦ hf
    rintro m u ⟨husink, hupptr, hupending⟩
    refine ⟨husink.trans hsink, ?_, ?_⟩
    · rw [hupptr, hpptr, List.flatten_cons, List.length_append, Nat.add_assoc]
    · rw [hupending, hpending, List.flatten_cons, List.append_assoc]

/-- Texts that fit the put area reach the sink only with the flush, all in one buffer. -/
theorem ensures_emit_of_le {E : Fault Exception → StaticOutputBufferer N ω → Prop}
    (texts : List Bytes) :
    ∀ (s : StaticOutputBufferer N ω) (Q : UInt64 → StaticOutputBufferer N ω → Prop),
      s.pptr + texts.flatten.length ≤ epptr N →
      Ensures (sink.writeData (s.pending ++ texts.flatten)) s.sink
        (fun _ w ↦ ∀ n t, t.sink = w → t.pptr = 0 → Q n t)
        (fun x w ↦ ∀ t, t.sink = w → t.pptr = 0 → E (.thrown x) t) →
      Ensures (emit sink texts true) s Q E := by
  induction texts with
  | nil =>
    intro s Q hle h
    rw [List.flatten_nil, List.append_nil] at h
    rw [emit, if_pos rfl, ensures_bind, pubsync,
      ensures_sync ((Nat.le_add_right _ _).trans (hle.trans (Nat.sub_le N.val 1)))]
    exact h.mono (fun _ w hw ↦ hw _ _ rfl rfl) fun _ w hw ↦ hw _ rfl rfl
  | cons text texts ih =>
    intro s Q hle h
    rw [List.flatten_cons, List.length_append, ← Nat.add_assoc] at hle
    rw [emit, ensures_bind]
    refine (ensures_sputn_of_le text s ((Nat.le_add_right _ _).trans hle)).mono ?_
      fun _ _ hf ↦ hf.elim
    rintro n t ⟨rfl, hsink, hpptr, hpending⟩
    rw [ensures_bind]
    refine ih t _ (by rw [hpptr]; exact hle) ?_
    rw [hpending, hsink, List.append_assoc, ← List.flatten_cons]
    exact h.mono (fun _ w hw n u hu hzero ↦ hw _ u hu hzero) fun _ w hw ↦ hw

theorem ensures_sputn_le (cs : Bytes) : ∀ s : StaticOutputBufferer N ω,
    Ensures (sputn sink cs) s (fun n _ ↦ n ≤ cs.length) fun _ _ ↦ True := by
  induction cs with
  | nil => exact fun s ↦ le_rfl
  | cons c cs ih =>
    intro s
    rw [sputn, ensures_bind, Ensures]
    cases sputc sink c s with
    | error e t => trivial
    | ok r t =>
      cases r with
      | none => exact Nat.zero_le _
      | some c' =>
        simp only [ensures_bind, ensures_pure]
        exact (ih t).mono (fun n _ hn ↦ Nat.succ_le_succ hn) fun _ _ _ ↦ trivial

theorem ensures_emit_le (flushes : Bool) (texts : List Bytes) : ∀ s : StaticOutputBufferer N ω,
    Ensures (emit sink texts flushes) s (fun n _ ↦ n.toNat ≤ texts.flatten.length)
      fun _ _ ↦ True := by
  induction texts with
  | nil =>
    intro s
    by_cases hf : flushes = true
    · rw [emit, if_pos hf, ensures_bind, Ensures]
      cases pubsync sink s with
      | ok n t => exact le_rfl
      | error e t => trivial
    · rw [emit, if_neg hf]
      exact le_rfl
  | cons text texts ih =>
    intro s
    rw [emit, ensures_bind]
    refine (ensures_sputn_le text s).mono (fun n t hn ↦ ?_) fun _ _ _ ↦ trivial
    rw [ensures_bind]
    refine (ih t).mono (fun m u hm ↦ ?_) fun _ _ _ ↦ trivial
    have hsum : (UInt64.ofNat n + m).toNat ≤ n + m.toNat := by
      rw [UInt64.toNat_add, UInt64.toNat_ofNat']
      exact (Nat.mod_le _ _).trans (Nat.add_le_add_right (Nat.mod_le _ _) _)
    rw [ensures_pure, List.flatten_cons, List.length_append]
    exact hsum.trans (Nat.add_le_add hn hm)

end Emit

end StaticOutputBufferer

/-! ## What each call generates

`texts` lists what a call puts, and `flushes` whether it flushes afterwards. The two arrays on the
stack, of 128 bytes each, cut off a text that does not fit. That never happens to a content length;
for a status line it is excluded by `LineFits`. -/

namespace ClientIo

variable {ω : Type}

/-- The texts that complete the head: the date, whether the connection stays open, an empty line. -/
def completionTexts (io : ClientIo ω) : List Bytes :=
  ((dumpDateHeader io.now).map cString).toList
    ++ [connectionText io.parser.message.keepAlive, crlf]

/-- The texts a call puts into the buffer. -/
def texts (io : ClientIo ω) : Call → List Bytes
  | .send100Continue => [continueText]
  | .sendStatus status statusName => [statusLine status statusName]
  | .sendHeader name value => [name, ascii ": ", value, crlf]
  | .sendContentLength len => [contentLengthText len]
  | .completeHeader => io.completionTexts
  | .sendChunkedTransferEncoding | .sendBody _ | .flush | .completeRequest => []

/-- The calls that flush. -/
def flushes : Call → Bool
  | .send100Continue | .completeHeader | .flush => true
  | _ => false

/-- The bytes a call generates. -/
def generated (io : ClientIo ω) (c : Call) : Bytes :=
  match c.body? with
  | some buf => buf
  | none => (io.texts c).flatten

/-- The status line a call sends, if it sends one, fits the array it is rendered into. -/
def LineFits : Call → Prop
  | .sendStatus status statusName => (statusLine status statusName).length < 128
  | _ => True

theorem length_contentLengthText_lt (len : UInt64) : (contentLengthText len).length < 128 := by
  have hlen : (numeral 10 len.toNat).length ≤ 20 := by
    refine length_numeral_le (by omega) (by omega) ?_
    exact len.toNat_lt.trans (by norm_num)
  have hname : (ascii "Content-Length: ").length = 16 := rfl
  rw [contentLengthText, List.length_append, List.length_append, hname, length_crlf]
  omega

theorem putArray_snprintf (sink : BuffererSink ω) {size : ℕ} {text : Bytes}
    (h : text.length < size) (hs : size ≤ intMax) :
    putArray sink (snprintf size text).1 (snprintf size text).2 = putText sink text := by
  rw [snprintf_of_lt h hs, putArray, Int.toNat_natCast, charRange_of_append, pure_bind]

theorem sendStatus_of_lt (sink : BuffererSink ω) {status : Int32} {statusName : Bytes}
    (h : (statusLine status statusName).length < 128) :
    sendStatus sink status statusName = putText sink (statusLine status statusName) :=
  putArray_snprintf sink h (by decide)

theorem sendContentLength_eq (sink : BuffererSink ω) (len : UInt64) :
    sendContentLength sink len = putText sink (contentLengthText len) :=
  putArray_snprintf sink (length_contentLengthText_lt len) (by decide)

theorem ensures_onTxbuf {α : Type} {x : StaticOutputBufferer.Member txbufSize ω α}
    {io : ClientIo ω} {Q : α → ClientIo ω → Prop} {E : Fault Exception → ClientIo ω → Prop} :
    Ensures (onTxbuf x) io Q E ↔ Ensures x io.txbuf (fun a b ↦ Q a { io with txbuf := b })
      fun e b ↦ E e { io with txbuf := b } := ensures_zoom

theorem ensures_putText {sink : BuffererSink ω} {text : Bytes} {io : ClientIo ω}
    {Q : UInt64 → ClientIo ω → Prop} {E : Fault Exception → ClientIo ω → Prop} :
    Ensures (putText sink text) io Q E
      ↔ Ensures (StaticOutputBufferer.sputn sink text) io.txbuf
          (fun n b ↦ Q (UInt64.ofNat n) { io with txbuf := b })
          fun e b ↦ E e { io with txbuf := b } := by
  simp only [putText, ensures_bind, ensures_onTxbuf, ensures_pure]

/-- **Every call but `send_body` is an `emit`** of its texts. -/
theorem ensures_invoke_iff {sink : BuffererSink ω}
    {recvBody : UInt64 → Method (ClientIo ω) Bytes} {c : Call} (hbody : c.body? = none)
    (hline : LineFits c) {io : ClientIo ω} {Q : UInt64 → ClientIo ω → Prop}
    {E : Fault Exception → ClientIo ω → Prop} :
    Ensures ((client sink recvBody).invoke c) io Q E
      ↔ Ensures (StaticOutputBufferer.emit sink (io.texts c) (flushes c)) io.txbuf
          (fun n b ↦ Q n { io with txbuf := b }) fun e b ↦ E e { io with txbuf := b } := by
  cases c with
  | sendStatus status statusName =>
    simp only [RestfulClient.invoke, client, sendStatus_of_lt sink hline, ensures_putText, texts,
      flushes, StaticOutputBufferer.emit, if_false, Bool.false_eq_true, add_zero, ensures_bind,
      ensures_pure]
  | sendContentLength len =>
    simp only [RestfulClient.invoke, client, sendContentLength_eq, ensures_putText, texts, flushes,
      StaticOutputBufferer.emit, if_false, Bool.false_eq_true, add_zero, ensures_bind, ensures_pure]
  | completeHeader =>
    -- the date is a text of its own, or none
    cases hdate : dumpDateHeader io.now <;>
      simp only [RestfulClient.invoke, client, completeHeader, flush, hdate, ensures_onTxbuf,
        ensures_get, ensures_putText, texts, completionTexts, flushes, StaticOutputBufferer.emit,
        if_true, add_zero, ensures_bind, ensures_pure, zero_add, add_assoc, Option.map_some,
        Option.map_none, Option.toList_some, Option.toList_none, List.singleton_append,
        List.nil_append]
  | sendBody buf => cases hbody
  | _ =>
    simp only [RestfulClient.invoke, client, sendHeader, send100Continue, completeRequest, flush,
      ensures_onTxbuf, pure_bind, ensures_putText, texts, flushes, StaticOutputBufferer.emit,
      if_false, if_true, Bool.false_eq_true, add_zero, ensures_bind, ensures_pure, zero_add,
      add_assoc]

theorem ensures_sendBody_iff {sink : BuffererSink ω}
    {recvBody : UInt64 → Method (ClientIo ω) Bytes} {buf : Bytes} {io : ClientIo ω}
    {Q : UInt64 → ClientIo ω → Prop} {E : Fault Exception → ClientIo ω → Prop} :
    Ensures ((client sink recvBody).invoke (.sendBody buf)) io Q E
      ↔ Ensures (sink.writeData buf) io.txbuf.sink
          (fun n w ↦ Q n { io with txbuf := { io.txbuf with sink := w } })
          fun x w ↦ E (.thrown x) { io with txbuf := { io.txbuf with sink := w } } := by
  simp only [RestfulClient.invoke, client, sendBody, writeData, ensures_onTxbuf, ensures_zoom,
    ensures_mapError]

theorem generated_of_body {c : Call} {io : ClientIo ω} (hbody : c.body? = none) :
    io.generated c = (io.texts c).flatten := by
  rw [generated, hbody]

@[simp] theorem generated_with_txbuf (io : ClientIo ω)
    (b : StaticOutputBufferer txbufSize ω) : ({ io with txbuf := b } : ClientIo ω).generated
      = io.generated := by
  funext c
  cases c <;> rfl

/-- What one call other than `send_body` does with what it generates. -/
theorem ensures_invoke_taken {sink : BuffererSink ω} {given : ω → Bytes} {I : ω → Prop}
    {F : Exception → Prop} (hkeeps : StaticOutputBufferer.Keeps sink given I F)
    (recvBody : UInt64 → Method (ClientIo ω) Bytes) {c : Call} (hbody : c.body? = none)
    (hline : LineFits c) {io : ClientIo ω} (hio : io.txbuf.Settled I) :
    Ensures ((client sink recvBody).invoke c) io
      (fun n t ↦ n = UInt64.ofNat (io.generated c).length ∧ t.generated = io.generated ∧
        t.txbuf.Settled I ∧ t.txbuf.taken given = io.txbuf.taken given ++ io.generated c ∧
        (flushes c = true → t.txbuf.pptr = 0))
      fun e t ↦ (∃ x, F x ∧ e = .thrown x) ∧ t.generated = io.generated ∧ t.txbuf.Settled I := by
  rw [ensures_invoke_iff hbody hline, generated_of_body hbody]
  refine (StaticOutputBufferer.ensures_emit_taken hkeeps _ _ io.txbuf hio).mono ?_ ?_
  · rintro n b ⟨hn, hb, htaken, hzero⟩
    exact ⟨hn, generated_with_txbuf io b, hb, htaken, hzero⟩
  · rintro e b ⟨he, hb⟩
    exact ⟨he, generated_with_txbuf io b, hb⟩

end ClientIo

/-! ## The stream as the sink

The stream never looks at the bytes, so its account of what was handed over holds for failing
writes, too. On a stream without failing writes a client throws nothing, which is the case
`sink_keeps_reliable` is for. -/

namespace Stream

/-- The bytes handed to `async_write`. -/
def sent (s : Stream) : Bytes := s.written.flatten

/-- No write fails. -/
def Reliable (s : Stream) : Prop := ∀ n, s.writeOutcome n = none

private theorem written_note_write (s : Stream) (buf : Bytes) :
    (s.note (.write buf)).written = s.written ++ [buf] := by
  rw [written, note, List.filterMap_append]
  rfl

theorem sent_note_write (s : Stream) (buf : Bytes) :
    (s.note (.write buf)).sent = s.sent ++ buf := by
  rw [sent, written_note_write, List.flatten_append, sent, List.flatten_singleton]

/-- What a write does: its outcome is the one assigned to its number, and it is noted either way. -/
theorem ensures_writeData (buf : Bytes) (s : Stream) : Ensures (writeData buf) s
    (fun n t ↦ s.writeOutcome s.written.length = none ∧ n = UInt64.ofNat buf.length ∧
      t = s.note (.write buf))
    fun x t ↦ ∃ ec, s.writeOutcome s.written.length = some ec ∧ x = .systemError ec ∧
      t.writeOutcome = s.writeOutcome ∧ t.written = s.written ++ [buf] := by
  rw [writeData, ensures_bind, ensures_get]
  cases h : s.writeOutcome s.written.length with
  | none => exact ⟨rfl, rfl, rfl⟩
  | some ec =>
    have hwritten := written_note_write s buf
    by_cases hpipe : ec = .brokenPipe
    · simp only [ensures_bind, ensures_modify, hpipe, if_true, ensures_throw]
      refine ⟨.brokenPipe, rfl, rfl, rfl, ?_⟩
      rw [← hwritten, written, note, List.filterMap_append]
      exact List.append_nil _
    · simp only [ensures_bind, ensures_modify, hpipe, if_false, ensures_throw]
      exact ⟨ec, rfl, rfl, rfl, hwritten⟩

theorem sink_keeps : StaticOutputBufferer.Keeps sink sent (fun _ ↦ True) fun _ ↦ True := by
  intro buf w _
  refine (ensures_writeData buf w).mono ?_ ?_
  · rintro n t ⟨_, _, rfl⟩
    exact ⟨trivial, sent_note_write w buf⟩
  · rintro x t ⟨ec, _, _, _, hwritten⟩
    exact ⟨trivial, trivial, by
      rw [sent, hwritten, List.flatten_append, sent, List.flatten_singleton]⟩

/-- No write fails, and nothing but writing was done since the log was `log`. -/
def WritingSince (log : List Event) (s : Stream) : Prop :=
  s.Reliable ∧ ∃ bufs : List Bytes, s.log = log ++ bufs.map .write

theorem Reliable.writingSince {s : Stream} (h : s.Reliable) : s.WritingSince s.log :=
  ⟨h, [], (List.append_nil _).symm⟩

theorem sink_keeps_reliable (log : List Event) :
    StaticOutputBufferer.Keeps sink sent (WritingSince log) fun _ ↦ False := by
  rintro buf w ⟨hw, bufs, hlog⟩
  refine (ensures_writeData buf w).mono ?_ ?_
  · rintro n t ⟨_, _, rfl⟩
    refine ⟨⟨hw, bufs ++ [buf], ?_⟩, sent_note_write w buf⟩
    rw [note, hlog, List.append_assoc, List.map_append, List.map_singleton]
  · rintro x t ⟨ec, hec, _⟩
    rw [hw] at hec
    cases hec

end Stream

/-! ## The documented order -/

/-- The calls that belong between the status and the end of the head. -/
def Call.isHeader : Call → Bool
  | .sendHeader _ _ | .sendContentLength _ | .sendChunkedTransferEncoding => true
  | _ => false

def Call.isStatus : Call → Bool
  | .sendStatus _ _ => true
  | _ => false

/-- The calls that say where the body ends. -/
def Call.isFraming : Call → Bool
  | .sendContentLength _ | .sendChunkedTransferEncoding => true
  | _ => false

/-- A response as the interface documents it. -/
structure Response where
  sends100 : Bool
  status : Int32
  statusName : Bytes
  headers : List Call
  bodies : List Bytes
  /-- The rendered status line fits its array. -/
  statusLine_lt : (ClientIo.statusLine status statusName).length < 128
  headers_ok : ∀ c ∈ headers, c.isHeader = true
  one_framing : (headers.filter Call.isFraming).length ≤ 1

namespace Response

/-- The calls before `complete_header`, in order. -/
def headCalls (r : Response) : List Call :=
  (if r.sends100 then [.send100Continue] else []) ++ .sendStatus r.status r.statusName :: r.headers

/-- The calls after `complete_header`, in order. -/
def bodyCalls (r : Response) : List Call := r.bodies.map .sendBody ++ [.completeRequest]

/-- The calls of the response, in order. -/
def calls (r : Response) : List Call := r.headCalls ++ .completeHeader :: r.bodyCalls

end Response

/-- A call of the head, or a flush: it has no body bytes, and its status line fits. -/
def Call.OfHead (c : Call) : Prop := c.body? = none ∧ ClientIo.LineFits c ∧ c ≠ .completeHeader

/-- A call that may follow the head, or a flush. -/
def Call.OfBody (c : Call) : Prop := c.body? ≠ none ∨ c = .flush ∨ c = .completeRequest

private theorem Response.ofHead_of_mem {r : Response} {c : Call} (hc : c ∈ r.headCalls) :
    c.OfHead := by
  rw [Response.headCalls, List.mem_append, List.mem_cons] at hc
  rcases hc with hc | rfl | hc
  · split_ifs at hc with h100
    · obtain rfl := List.mem_singleton.mp hc
      exact ⟨rfl, trivial, by simp⟩
    · cases hc
  · exact ⟨rfl, r.statusLine_lt, by simp⟩
  · have hheader := r.headers_ok c hc
    cases c with
    | sendHeader | sendContentLength | sendChunkedTransferEncoding => exact ⟨rfl, trivial, by simp⟩
    | _ => cases hheader

private theorem Response.ofBody_of_mem {r : Response} {c : Call} (hc : c ∈ r.bodyCalls) :
    c.OfBody := by
  rw [Response.bodyCalls, List.mem_append, List.mem_map, List.mem_singleton] at hc
  rcases hc with ⟨buf, _, rfl⟩ | rfl
  · exact .inl (by simp [Call.body?])
  · exact .inr (.inr rfl)

/-- With flushes anywhere, a documented sequence is a head, its end, and a body. -/
theorem Response.exists_split {r : Response} {calls : List Call}
    (hcalls : calls.filter (· ≠ .flush) = r.calls) :
    ∃ head body, calls = head ++ .completeHeader :: body ∧ (∀ c ∈ head, c.OfHead) ∧
      (∀ c ∈ body, c.OfBody) ∧ head.filter (· ≠ .flush) = r.headCalls ∧
      body.filter (· ≠ .flush) = r.bodyCalls := by
  obtain ⟨head, tail, rfl, hhead, htail⟩ := List.filter_eq_append_iff.mp hcalls
  obtain ⟨mid, body, rfl, hmid, _, hbody⟩ := List.filter_eq_cons_iff.mp htail
  have hflush : ∀ c ∈ mid, c = .flush := fun c hc ↦ by simpa using hmid c hc
  refine ⟨head ++ mid, body, by rw [List.append_assoc], fun c hc ↦ ?_, fun c hc ↦ ?_, ?_, hbody⟩
  · rcases List.mem_append.mp hc with hc | hc
    · by_cases hne : c = .flush
      · exact hne ▸ ⟨rfl, trivial, by simp⟩
      · exact r.ofHead_of_mem (hhead ▸ List.mem_filter.mpr ⟨hc, by simpa using hne⟩)
    · exact hflush c hc ▸ ⟨rfl, trivial, by simp⟩
  · by_cases hne : c = .flush
    · exact .inr (.inl hne)
    · exact r.ofBody_of_mem (hbody ▸ List.mem_filter.mpr ⟨hc, by simpa using hne⟩)
  · rw [List.filter_append, hhead, List.filter_eq_nil_iff.mpr (by simpa using hflush),
      List.append_nil]

private theorem place_of_split {head body done rest : List Call} {c : Call}
    (hhead : ∀ d ∈ head, d.OfHead)
    (hsplit : head ++ .completeHeader :: body = done ++ c :: rest) :
    ((c.OfHead ∨ c = .completeHeader) ∧ .completeHeader ∉ done) ∨
      (c ∈ body ∧ .completeHeader ∈ done) := by
  have hnot : .completeHeader ∉ head := fun h ↦ (hhead _ h).2.2 rfl
  rcases split_trichotomy hsplit with ⟨mid, rfl⟩ | ⟨rfl, rfl, rfl⟩ | ⟨mid, rfl, rfl⟩
  · exact .inl ⟨.inl (hhead c (by simp)), fun h ↦ hnot (List.mem_append_left _ h)⟩
  · exact .inl ⟨.inr rfl, hnot⟩
  · exact .inr ⟨by simp, by simp⟩

/-! ## Runs

`wire` is what the stream was handed, followed by what still waits in the buffer. It grows by what a
call generates, whichever way the call goes; so the invariant speaks of `wire`, and only at the end,
where the buffer is empty, of the stream. -/

namespace StreamIo

/-- Everything given to the client: what the stream was handed, and what is in the buffer. -/
def wire (io : StreamIo) : Bytes := io.txbuf.taken Stream.sent

/-- The client after the calls. -/
def afterCalls (start : StreamIo) (calls : List Call) : StreamIo :=
  (runAll client.invoke calls start).2

private theorem wire_of_pptr_eq_zero {io : StreamIo} (h : io.txbuf.pptr = 0) :
    wire io = io.txbuf.sink.sent := by
  rw [wire, StaticOutputBufferer.taken, StaticOutputBufferer.pending, h, List.take_zero,
    List.append_nil]

/-- After the calls `done` of a response begun in `start`, on a stream on which no write fails: the
bytes they generated follow each other, and once the head is complete none is in the buffer. -/
structure Sending (start : StreamIo) (done : List Call) (io : StreamIo) : Prop where
  generated : io.generated = start.generated
  settled : io.txbuf.Settled (Stream.WritingSince start.txbuf.sink.log)
  wire : wire io = start.wire ++ done.flatMap start.generated
  empty : .completeHeader ∈ done → io.txbuf.pptr = 0

theorem Sending.start {start : StreamIo} (hpptr : start.txbuf.pptr = 0)
    (hrel : start.txbuf.sink.Reliable) : Sending start [] start where
  generated := rfl
  settled := ⟨hpptr.trans_le (Nat.zero_le _), hrel.writingSince⟩
  wire := (List.append_nil _).symm
  empty := by rintro ⟨⟩

private theorem Sending.invoke_emit {start io : StreamIo} {done : List Call}
    (h : Sending start done io) {c : Call} (hbody : c.body? = none) (hline : ClientIo.LineFits c)
    (hend : .completeHeader ∈ done ++ [c] → ClientIo.flushes c = true) :
    Ensures (client.invoke c) io (fun _ t ↦ Sending start (done ++ [c]) t) fun _ _ ↦ False := by
  have hstep := ClientIo.ensures_invoke_taken
    (Stream.sink_keeps_reliable start.txbuf.sink.log) recvBody hbody hline h.settled
  refine hstep.mono ?_ ?_
  · rintro n t ⟨_, hgen, ht, htaken, hzero⟩
    refine ⟨hgen.trans h.generated, ht, ?_, fun hmem ↦ hzero (hend hmem)⟩
    rw [StreamIo.wire, htaken, ← StreamIo.wire, h.wire, h.generated, List.flatMap_append,
      List.append_assoc, List.flatMap_singleton]
  · rintro e t ⟨⟨x, hx, _⟩, _⟩
    exact hx

private theorem Sending.invoke_sendBody {start io : StreamIo} {done : List Call}
    (h : Sending start done io) (hdone : .completeHeader ∈ done) (buf : Bytes) :
    Ensures (client.invoke (.sendBody buf)) io
      (fun _ t ↦ Sending start (done ++ [.sendBody buf]) t) fun _ _ ↦ False := by
  have hzero := h.empty hdone
  have hwrite := Stream.sink_keeps_reliable start.txbuf.sink.log buf _ h.settled.2
  rw [client, ClientIo.ensures_sendBody_iff]
  refine hwrite.mono ?_ fun _ _ hf ↦ hf.1.elim
  rintro n w ⟨hw, hsent⟩
  have hwire : StreamIo.wire { io with txbuf := { io.txbuf with sink := w } } = w.sent :=
    wire_of_pptr_eq_zero hzero
  refine ⟨h.generated, ⟨h.settled.1, hw⟩, ?_, fun _ ↦ hzero⟩
  rw [hwire, hsent, ← wire_of_pptr_eq_zero hzero, h.wire, List.flatMap_append,
    List.flatMap_singleton, List.append_assoc]
  rfl

private theorem Sending.invoke_completeRequest {start io : StreamIo} {done : List Call}
    (h : Sending start done io) :
    Ensures (client.invoke .completeRequest) io
      (fun _ t ↦ Sending start (done ++ [.completeRequest]) t) fun _ _ ↦ False := by
  refine ⟨h.generated, h.settled, ?_, fun hmem ↦ h.empty (by simpa using hmem)⟩
  rw [h.wire, List.flatMap_append, List.flatMap_singleton]
  exact congrArg _ (List.append_nil _).symm

private theorem runAll_sending {r : Response} {calls : List Call}
    (hcalls : calls.filter (· ≠ .flush) = r.calls) {start : StreamIo}
    (hpptr : start.txbuf.pptr = 0) (hrel : start.txbuf.sink.Reliable) {done : List Call}
    (hdone : done <+: calls) :
    AllReturn (runAll client.invoke done start) ∧
      Sending start done (runAll client.invoke done start).2 := by
  obtain ⟨head, body, hsplit, hhead, hbody, _⟩ := Response.exists_split hcalls
  refine runAll_trace (.start hpptr hrel) (fun done c rest hplace io h ↦ ?_) hdone
  rcases place_of_split hhead (hsplit.symm.trans hplace) with ⟨hc, hmem⟩ | ⟨hc, hmem⟩
  · rcases hc with ⟨hnone, hline, hne⟩ | rfl
    · exact h.invoke_emit hnone hline fun hend ↦ by simp [hmem, Ne.symm hne] at hend
    · exact h.invoke_emit rfl trivial fun _ ↦ rfl
  · rcases hbody c hc with hsome | rfl | rfl
    · cases c with
      | sendBody buf => exact h.invoke_sendBody hmem buf
      | _ => exact absurd rfl hsome
    · exact h.invoke_emit rfl trivial fun _ ↦ rfl
    · exact h.invoke_completeRequest

end StreamIo

/-- The bytes of a documented sequence are those of the head, and then the bodies. -/
theorem Response.flatMap_generated {ω : Type} {r : Response} {calls : List Call}
    (hcalls : calls.filter (· ≠ .flush) = r.calls) (io : ClientIo ω) :
    calls.flatMap io.generated
      = (r.headCalls ++ [Call.completeHeader]).flatMap io.generated ++ r.bodies.flatten := by
  have hfilter : ∀ cs : List Call,
      (cs.filter (· ≠ .flush)).flatMap io.generated = cs.flatMap io.generated := by
    intro cs
    induction cs with
    | nil => rfl
    | cons c cs ih =>
      by_cases hc : c = .flush
      · rw [List.filter_cons_of_neg (by simpa using hc), ih, List.flatMap_cons, hc]
        rfl
      · rw [List.filter_cons_of_pos (by simpa using hc), List.flatMap_cons, List.flatMap_cons, ih]
  have hbodies : r.bodyCalls.flatMap io.generated = r.bodies.flatten := by
    rw [Response.bodyCalls, List.flatMap_append, List.flatMap_map]
    exact (List.append_nil _).trans List.flatMap_id'
  rw [← hfilter, hcalls, Response.calls, List.append_cons, List.flatMap_append, hbodies]

/-- At the end the stream was handed what the calls generated. -/
theorem StreamIo.sent_afterCalls {r : Response} {calls : List Call}
    (hcalls : calls.filter (· ≠ .flush) = r.calls) {start : StreamIo}
    (hpptr : start.txbuf.pptr = 0) (hrel : start.txbuf.sink.Reliable) :
    (afterCalls start calls).txbuf.sink.sent
      = start.txbuf.sink.sent ++ calls.flatMap start.generated := by
  have hsending : Sending start calls (afterCalls start calls) :=
    (runAll_sending hcalls hpptr hrel List.prefix_rfl).2
  have hend : Call.completeHeader ∈ calls := by
    obtain ⟨head, body, rfl, _⟩ := Response.exists_split hcalls
    exact List.mem_append_right head List.mem_cons_self
  rw [← wire_of_pptr_eq_zero (hsending.empty hend), hsending.wire, wire_of_pptr_eq_zero hpptr]

/-- **The bytes of a response reach the stream in call order.** For every documented sequence of
calls, flushes anywhere, on a new client whose writes succeed: no call throws; after every call,
what was handed to the stream and what is in the buffer are the bytes the calls generated; from
`complete_header` onwards the buffer is empty; and at the end the stream was handed everything, the
head before the bodies. -/
theorem streamIo_sends_in_order (parser : Parser) (isSsl : Bool)
    (localEndpoint remoteEndpoint : Endpoint) (now : Option Tm)
    (array : Vector UInt8 txbufSize.val) (stream : Stream) (hwrites : stream.Reliable)
    (r : Response) (calls : List Call) (hcalls : calls.filter (· ≠ .flush) = r.calls) :
    let start := ClientIo.new parser isSsl localEndpoint remoteEndpoint now array stream
    AllReturn (runAll StreamIo.client.invoke calls start) ∧
      (∀ done, done <+: calls →
        (StreamIo.afterCalls start done).txbuf.sink.sent ++
          (StreamIo.afterCalls start done).txbuf.pending
          = stream.sent ++ done.flatMap start.generated) ∧
      (∀ done, done <+: calls → Call.completeHeader ∈ done →
        (StreamIo.afterCalls start done).txbuf.pending = []) ∧
      (StreamIo.afterCalls start calls).txbuf.sink.sent =
        stream.sent ++ calls.flatMap start.generated ∧
      calls.flatMap start.generated
        = (r.headCalls ++ [Call.completeHeader]).flatMap start.generated ++ r.bodies.flatten := by
  intro start
  have hrun : ∀ done, done <+: calls → AllReturn (runAll StreamIo.client.invoke done start) ∧
      StreamIo.Sending start done (StreamIo.afterCalls start done) :=
    fun done hdone ↦ StreamIo.runAll_sending hcalls rfl hwrites hdone
  have hstart : StreamIo.wire start = stream.sent := StreamIo.wire_of_pptr_eq_zero rfl
  have hwire : ∀ done, done <+: calls →
      StreamIo.wire (StreamIo.afterCalls start done) =
        stream.sent ++ done.flatMap start.generated :=
    fun done hdone ↦ hstart ▸ (hrun done hdone).2.wire
  refine ⟨(hrun calls List.prefix_rfl).1, hwire, fun done hdone hmem ↦ ?_,
    StreamIo.sent_afterCalls hcalls rfl hwrites, Response.flatMap_generated hcalls start⟩
  rw [StaticOutputBufferer.pending, (hrun done hdone).2.empty hmem, List.take_zero]

/-- The case of a response with a body of two bytes and a flush before its status. -/
theorem streamIo_sends_in_order_ok :
    let calls := [.flush, .sendStatus 200 (ascii "OK"), .completeHeader, .sendBody (ascii "hi"),
      .completeRequest]
    (StreamIo.afterCalls StreamIo.bare calls).txbuf.sink.sent
      = Stream.fresh.sent ++ calls.flatMap StreamIo.bare.generated := by
  intro calls
  have h := (streamIo_sends_in_order ⟨.bare .get, ⟨[], true⟩, []⟩ false ⟨[], 0⟩ ⟨[], 0⟩ none
      (Vector.replicate txbufSize.val 0) .fresh (fun _ ↦ rfl)
    ⟨false, 200, ascii "OK", [], [ascii "hi"], by decide, by simp, by simp⟩ calls rfl).2.2.2.1
  rw [← StreamIo.bare] at h
  exact h

end CppRepo
