import CppRepo.Http.Responses
import CppRepo.Library.HeadSyntax

/-!
# What header content can do to the head

`send_header` puts the name, a separator, the value and a line end into the buffer, whatever the
name and the value are. Nothing on the way looks at them, so the head a receiver reads is the one
that was meant only as long as no part has the separator that ends it.

## The receiver

The receiver is `parseHead` of `Library.HeadSyntax`: it reads lines until an empty one, and cuts
each at the first colon with a blank behind it. There it is shown that a rendered head is read back
if and only if its parts do not have the separators in them. What is left to do here is to write
what was sent as a rendered head.

**Main result.** A head is read back as its status line, the headers in order, the date and the
connection header, and it ends where `complete_header` ended it, exactly if no name and no value has
a line end, no name has a colon with a blank behind it, and the status name has no line end
(`head_parses_iff`). The date and the connection header never do harm. A value with a line end can
add a header or end the head (`lineEnd_injects`).
-/

namespace CppRepo

private theorem PlainText.crlf_free {s : Bytes} (h : PlainText s) : ¬crlf <:+: s :=
  fun hoccurs ↦ h.notMem 13 (by decide) (hoccurs.subset (by decide))

/-! ## The fields of the completion

Two or three lines are added by `complete_header` itself. They are made of plain text, so they are
clean in every case; this is why the result speaks only of what the caller has given. -/

namespace ClientIo

variable {ω : Type}

/-- The status line without its end. -/
def statusText (status : Int32) (statusName : Bytes) : Bytes :=
  ascii "HTTP/1.1 " ++ decimal status.toInt ++ ascii " " ++ cString statusName

/-- The value of the date header. -/
def dateValue (t : Tm) : Bytes :=
  ascii (dayNames.getD t.wday "?") ++ ascii ", " ++ twoDigits t.mday ++ ascii " "
    ++ ascii (monthNames.getD t.mon "?") ++ ascii " " ++ decimal t.year ++ ascii " "
    ++ twoDigits t.hour ++ ascii ":" ++ twoDigits t.min ++ ascii ":" ++ twoDigits t.sec
    ++ ascii " GMT"

/-- The date header, if there is one. -/
def dateFields : Option Tm → List (Bytes × Bytes)
  | none => []
  | some t => if (dateText t).length < 128 then [(ascii "Date", dateValue t)] else []

/-- The headers that `complete_header` adds. -/
def completionFields (io : ClientIo ω) : List (Bytes × Bytes) :=
  dateFields io.now ++
    [(ascii "Connection",
      if io.parser.message.keepAlive then ascii "Keep-Alive" else ascii "close")]

private theorem dateText_eq (t : Tm) : dateText t = renderField (ascii "Date", dateValue t) := by
  have hname : ascii "Date: " = ascii "Date" ++ headerSep := rfl
  simp only [dateText, hname, renderField, dateValue, List.append_assoc]

private theorem connectionText_eq_renderField (keepAlive : Bool) :
    connectionText keepAlive = renderField
      (ascii "Connection", if keepAlive then ascii "Keep-Alive" else ascii "close") := by
  cases keepAlive <;> rfl

private theorem cString_dateText (t : Tm) : cString (dateText t) = dateText t := by
  obtain ⟨line, hline, _, hplain⟩ := exists_dateLine t
  rw [hline, cString_of_plainText hplain]

private theorem plainText_dateValue (t : Tm) : PlainText (dateValue t) := by
  obtain ⟨line, hline, _, hplain⟩ := exists_dateLine t
  rw [dateText_eq, renderField] at hline
  intro c hc
  refine hplain c ?_
  rw [← List.append_cancel_right hline]
  exact List.mem_append_right _ hc

private theorem isCleanField_of_mem_completionFields {io : ClientIo ω} {f : Bytes × Bytes}
    (hf : f ∈ io.completionFields) : IsCleanField f := by
  rw [completionFields, List.mem_append, List.mem_singleton] at hf
  rcases hf with hf | rfl
  · rcases hnow : io.now with - | t
    · rw [hnow] at hf
      exact absurd hf List.not_mem_nil
    · rw [hnow, dateFields] at hf
      split_ifs at hf
      · obtain rfl := List.mem_singleton.mp hf
        have hname : ¬crlf <:+: ascii "Date" ∧ ¬headerSep <:+: ascii "Date" := by decide +kernel
        exact ⟨hname.1, hname.2, (plainText_dateValue t).crlf_free⟩
      · exact absurd hf List.not_mem_nil
  · cases io.parser.message.keepAlive <;> decide +kernel

/-! ## The head on the wire

By the order of the bytes on the wire, which `streamIo_sends_in_order` gives, a response is the
interim head if there was one, the status line, the headers and the completion, all rendered in the
same way, and then the bodies. The line end behind the status line is not a part of it, so the name
of the status is clean if and only if the line is. -/

private theorem generated_completeHeader_eq (io : ClientIo ω) : io.generated .completeHeader
    = io.completionFields.flatMap renderField ++ crlf := by
  rw [generated_completeHeader, completionFields, connectionText_eq_renderField,
    List.flatMap_append, List.flatMap_singleton, List.append_assoc]
  congr 1
  rcases io.now with - | t
  · rfl
  · rw [dumpDateHeader, dateFields]
    split_ifs
    · rw [Option.map_some, Option.getD_some, cString_dateText, dateText_eq, List.flatMap_singleton]
    · rfl

private theorem generated_sendHeader_eq (io : ClientIo ω) (f : Bytes × Bytes) :
    io.generated (.sendHeader f.1 f.2) = renderField f := by
  rw [generated_sendHeader, renderField, List.append_assoc, List.append_assoc]
  rfl

private theorem crlf_infix_statusText_iff (status : Int32) (statusName : Bytes) :
    crlf <:+: statusText status statusName ↔ crlf <:+: cString statusName := by
  have hversion : PlainText (ascii "HTTP/1.1 ") := by decide +kernel
  have hblank : PlainText (ascii " ") := by decide +kernel
  have hplain := (hversion.append (plainText_decimal status.toInt)).append hblank
  have hcrlf : crlf = [13, 10] := rfl
  rw [statusText, hcrlf, pair_infix_append (hplain.notMem 13 (by decide))]

end ClientIo

/-- The interim response, if one is sent. -/
def Response.interim (r : Response) : Bytes := if r.sends100 then ClientIo.continueText else []

/-- **The head on the wire** is rendered from the headers that were sent and those of the
completion. -/
theorem sent_response (parser : Parser) (isSsl : Bool) (localEndpoint remoteEndpoint : Endpoint)
    (now : Option Tm) (array : Vector UInt8 txbufSize.val) (stream : Stream)
    (hwrites : stream.Reliable) (r : Response) (pairs : List (Bytes × Bytes))
    (hpairs : r.headers = pairs.map fun f ↦ .sendHeader f.1 f.2) (calls : List Call)
    (hcalls : calls.filter (· ≠ .flush) = r.calls) :
    let start := ClientIo.new parser isSsl localEndpoint remoteEndpoint now array stream
    (StreamIo.afterCalls start calls).txbuf.sink.sent = stream.sent ++ r.interim ++
      (renderHead (ClientIo.statusText r.status r.statusName) (pairs ++ start.completionFields)
        ++ r.bodies.flatten) := by
  intro start
  have hhead : (r.headCalls ++ [Call.completeHeader]).flatMap start.generated = r.interim ++
      renderHead (ClientIo.statusText r.status r.statusName) (pairs ++ start.completionFields) := by
    have hinterim : (if r.sends100 then [Call.send100Continue] else []).flatMap start.generated
        = r.interim := by
      rw [Response.interim]
      split_ifs
      · rw [List.flatMap_singleton, ClientIo.generated_send100Continue]
      · rfl
    have hfields : r.headers.flatMap start.generated = pairs.flatMap renderField := by
      rw [hpairs, List.flatMap_map]
      exact congrArg pairs.flatMap (funext start.generated_sendHeader_eq)
    rw [Response.headCalls, List.append_assoc, List.cons_append, List.flatMap_append, hinterim,
      List.flatMap_cons, List.flatMap_append, hfields, List.flatMap_singleton,
      ClientIo.generated_sendStatus, ClientIo.generated_completeHeader_eq, renderHead,
      List.flatMap_append]
    simp only [ClientIo.statusLine, ClientIo.statusText, List.append_assoc]
  rw [StreamIo.sent_afterCalls hcalls rfl hwrites, Response.flatMap_generated hcalls, hhead,
    List.append_assoc, List.append_assoc]
  rfl

/-- **Header content.** For every list of headers sent between the status and the end of the head,
on a new client whose writes succeed: what a receiver reads from the wire is the status line, the
headers in order, the date and the connection header, and the head ends where `complete_header`
ended it, if and only if the status name and the headers do not have the separators in them. -/
theorem head_parses_iff (parser : Parser) (isSsl : Bool) (localEndpoint remoteEndpoint : Endpoint)
    (now : Option Tm) (array : Vector UInt8 txbufSize.val) (stream : Stream)
    (hwrites : stream.Reliable) (r : Response) (pairs : List (Bytes × Bytes))
    (hpairs : r.headers = pairs.map fun f ↦ .sendHeader f.1 f.2) (calls : List Call)
    (hcalls : calls.filter (· ≠ .flush) = r.calls) :
    let start := ClientIo.new parser isSsl localEndpoint remoteEndpoint now array stream
    ∃ response, (StreamIo.afterCalls start calls).txbuf.sink.sent
        = stream.sent ++ r.interim ++ response ∧
      (parseHead response = some (ClientIo.statusText r.status r.statusName,
          pairs ++ start.completionFields, r.bodies.flatten) ↔
        ¬crlf <:+: cString r.statusName ∧ ∀ f ∈ pairs, IsCleanField f) := by
  intro start
  refine ⟨_, sent_response parser isSsl localEndpoint remoteEndpoint now array stream hwrites r
    pairs hpairs calls hcalls, ?_⟩
  have hcompletion : ∀ f ∈ start.completionFields, IsCleanField f :=
    fun f hf ↦ ClientIo.isCleanField_of_mem_completionFields hf
  rw [parseHead_renderHead_iff, ClientIo.crlf_infix_statusText_iff, List.forall_mem_append,
    and_iff_left hcompletion]

private theorem Response.filter_calls (r : Response) : r.calls.filter (· ≠ .flush) = r.calls := by
  refine List.filter_eq_self.mpr fun c hc ↦ decide_eq_true ?_
  rintro rfl
  rw [Response.calls, Response.headCalls, Response.bodyCalls, List.mem_append, List.mem_append,
    List.mem_cons, List.mem_cons, List.mem_append, List.mem_map] at hc
  rcases hc with (h100 | h | hheader) | h | ⟨buf, _, h⟩ | h
  · split_ifs at h100
    · exact absurd h100 (by simp)
    · exact absurd h100 List.not_mem_nil
  · exact absurd h (by simp)
  · exact Bool.false_ne_true (r.headers_ok _ hheader)
  · exact absurd h (by simp)
  · exact absurd h (by simp)
  · exact absurd h (by simp)

/-- A response with the status 200, these headers and no body. -/
def okResponse (pairs : List (Bytes × Bytes)) : Response where
  sends100 := false
  status := 200
  statusName := ascii "OK"
  headers := pairs.map fun f ↦ .sendHeader f.1 f.2
  bodies := []
  statusLine_lt := by decide
  headers_ok c hc := by
    obtain ⟨f, _, rfl⟩ := List.mem_map.mp hc
    rfl
  one_framing := by
    have hnone : (pairs.map fun f ↦ Call.sendHeader f.1 f.2).filter Call.isFraming = [] := by
      refine List.filter_eq_nil_iff.mpr fun c hc ↦ ?_
      obtain ⟨f, _, rfl⟩ := List.mem_map.mp hc
      exact Bool.false_ne_true
    rw [hnone]
    decide

/-- What is sent for it on a fresh stream. -/
def okText (pairs : List (Bytes × Bytes)) : Bytes :=
  (StreamIo.afterCalls .bare (okResponse pairs).calls).txbuf.sink.sent

private theorem okText_eq (pairs : List (Bytes × Bytes)) :
    okText pairs = renderHead (ascii "HTTP/1.1 200 OK")
      (pairs ++ [(ascii "Connection", ascii "Keep-Alive")]) := by
  have hsent := sent_response ⟨.bare .get, ⟨[], true⟩, []⟩ false ⟨[], 0⟩ ⟨[], 0⟩ none
    (Vector.replicate txbufSize.val 0) .fresh (fun _ ↦ rfl) (okResponse pairs) pairs rfl
    (okResponse pairs).calls (okResponse pairs).filter_calls
  rw [← StreamIo.bare] at hsent
  have hline : ClientIo.statusText 200 (ascii "OK") = ascii "HTTP/1.1 200 OK" := by decide +kernel
  have hfields : StreamIo.bare.completionFields
      = [(ascii "Connection", ascii "Keep-Alive")] := rfl
  rw [okText, hsent, hfields, ← hline]
  exact List.append_nil _

/-- Two headers, one of them without a value. -/
def twoHeaders : List (Bytes × Bytes) := [(ascii "X-Length", ascii "0"), (ascii "X-Note", [])]

theorem head_parses_iff_twoHeaders : ∃ response, okText twoHeaders = response ∧
    parseHead response = some (ClientIo.statusText 200 (ascii "OK"),
      twoHeaders ++ StreamIo.bare.completionFields, []) := by
  have hparses := head_parses_iff ⟨.bare .get, ⟨[], true⟩, []⟩ false ⟨[], 0⟩ ⟨[], 0⟩ none
    (Vector.replicate txbufSize.val 0) .fresh (fun _ ↦ rfl) (okResponse twoHeaders) twoHeaders rfl
    (okResponse twoHeaders).calls (okResponse twoHeaders).filter_calls
  rw [← StreamIo.bare] at hparses
  obtain ⟨response, hsent, hiff⟩ := hparses
  have hname : ¬crlf <:+: cString (ascii "OK") := by decide +kernel
  have hfields : ∀ f ∈ twoHeaders, IsCleanField f := by decide +kernel
  exact ⟨response, hsent, hiff.mpr ⟨hname, hfields⟩⟩

/-- A line end in a value adds a header, and two of them end the head, so that what
`complete_header` sends is read as the body. -/
theorem lineEnd_injects :
    parseHead (okText [(ascii "X-Note", ascii "a\r\nSet-Cookie: b")])
      = some (ascii "HTTP/1.1 200 OK", [(ascii "X-Note", ascii "a"),
          (ascii "Set-Cookie", ascii "b"), (ascii "Connection", ascii "Keep-Alive")], []) ∧
    parseHead (okText [(ascii "X-Note", ascii "\r\n\r\nhi")])
      = some (ascii "HTTP/1.1 200 OK", [(ascii "X-Note", [])],
          ascii "hi\r\nConnection: Keep-Alive\r\n\r\n") ∧
    ¬∀ pairs, parseHead (okText pairs) = some (ascii "HTTP/1.1 200 OK",
      pairs ++ [(ascii "Connection", ascii "Keep-Alive")], []) := by
  have hadds : okText [(ascii "X-Note", ascii "a\r\nSet-Cookie: b")]
      = renderHead (ascii "HTTP/1.1 200 OK") [(ascii "X-Note", ascii "a"),
        (ascii "Set-Cookie", ascii "b"), (ascii "Connection", ascii "Keep-Alive")] ++ [] := by
    rw [okText_eq]
    decide +kernel
  have hends : okText [(ascii "X-Note", ascii "\r\n\r\nhi")]
      = renderHead (ascii "HTTP/1.1 200 OK") [(ascii "X-Note", [])]
        ++ ascii "hi\r\nConnection: Keep-Alive\r\n\r\n" := by
    rw [okText_eq]
    decide +kernel
  refine ⟨?_, ?_, fun h ↦ ?_⟩
  · rw [hadds]
    exact parseHead_renderHead_iff.mpr ⟨by decide +kernel, by decide +kernel⟩
  · rw [hends]
    exact parseHead_renderHead_iff.mpr ⟨by decide +kernel, by decide +kernel⟩
  · -- the whole value would be read back
    have hvalue := h [(ascii "X-Note", ascii "a\r\nSet-Cookie: b")]
    rw [okText_eq, ← List.append_nil (renderHead _ _), parseHead_renderHead_iff] at hvalue
    exact absurd (hvalue.2 _ List.mem_cons_self) (by decide +kernel)

end CppRepo
