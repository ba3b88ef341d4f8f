import CppRepo.Http.Serving

/-!
# One response for each request

A connection that is kept alive is to answer its requests in order, one final response each. What
was written between the reading of two headers is the answer to the request of the first; it is to
be any number of interim heads, whose status code starts with 1, and then one head of another
status.

`process` answers an upload that has a `Content-Length`, and no other request: for a `GET` or `HEAD`
it returns at once, for a method it does not know it only sets a number that nobody reads, and an
upload without a length gets the interim response only. An upload that throws gets no final response
either. So the requests stay in step with their responses if and only if all of them are uploads
whose length an `int` can count and whose body there is memory for.

## How responses are told apart

A text is taken apart by its line ends: a head is a status line and header lines that are not empty,
each ended by one, and an empty line. Since none of the parts has a line end in it, two heads in a
row are longer than one, and a text that begins with an interim head is not itself a final one. That
is all that is needed to count responses.
-/

namespace CppRepo

/-! ## Response heads

`IsHead` is about the form of a head, and `IsInterim` about the first digit of its status code.
Neither a text without any bytes nor the interim response alone is one final response. -/

/-- A head with the given three-digit status code: the status line, lines that are not empty, and an
empty line. -/
def IsHead (code head : Bytes) : Prop :=
  code.length = 3 ∧ ∃ (reason : Bytes) (lines : List Bytes),
    head = ascii "HTTP/1.1 " ++ (code ++ (ascii " " ++ (reason ++ (crlf
      ++ ((lines.map (· ++ crlf)).flatten ++ crlf))))) ∧
    (∀ c ∈ crlf, c ∉ reason) ∧ ∀ line ∈ lines, line ≠ [] ∧ ∀ c ∈ crlf, c ∉ line

/-- A status code of the class of interim responses. -/
def IsInterim (code : Bytes) : Prop := code.head? = some 49

/-- Any number of interim heads, and then one head that is final. -/
def OneFinalResponse (text : Bytes) : Prop :=
  ∃ (interim : List Bytes) (final : Bytes), text = interim.flatten ++ final ∧
    (∀ head ∈ interim, ∃ code, IsInterim code ∧ IsHead code head) ∧
    ∃ code, ¬IsInterim code ∧ IsHead code final

/-- What a connection did with its stream while it served `n` requests: each header was followed by
writes that made up one final response, and then the next header was read. -/
def AnsweredInOrder : ℕ → List Event → Prop
  | 0, events => events = [.readHeader]
  | n + 1, events => ∃ (bufs : List Bytes) (rest : List Event),
      events = .readHeader :: (bufs.map .write ++ rest) ∧ OneFinalResponse bufs.flatten ∧
      AnsweredInOrder n rest

private theorem IsHead.length_ge {code head : Bytes} (h : IsHead code head) : 17 ≤ head.length := by
  obtain ⟨hcode, reason, lines, rfl, _⟩ := h
  have hstart : (ascii "HTTP/1.1 ").length = 9 := rfl
  have hspace : (ascii " ").length = 1 := rfl
  simp only [List.length_append, hcode, hstart, hspace, length_crlf]
  omega

private theorem not_oneFinalResponse_nil : ¬OneFinalResponse [] := by
  rintro ⟨interim, final, htext, _, code, _, hfinal⟩
  have hlength := hfinal.length_ge
  obtain ⟨_, rfl⟩ := List.append_eq_nil_iff.mp htext.symm
  exact absurd hlength (by decide)

private theorem not_oneFinalResponse_continue : ¬OneFinalResponse ClientIo.continueText := by
  rintro ⟨interim, final, htext, hinterim, code, hcode, hfinal⟩
  have htotal : ClientIo.continueText.length = 25 := rfl
  match interim with
  | [] =>
    obtain ⟨hthree, reason, lines, rfl, _⟩ := hfinal
    refine hcode ?_
    have hstart : (ascii "HTTP/1.1 ").length = 9 := rfl
    have hdrop := congrArg (List.drop 9) htext
    rw [List.flatten_nil, List.nil_append, List.drop_left' hstart] at hdrop
    have htake := congrArg (List.take 3) hdrop
    rw [List.take_left' hthree] at htake
    rw [← htake]
    rfl
  | head :: interim =>
    obtain ⟨code', _, hhead⟩ := hinterim head List.mem_cons_self
    have hlength := congrArg List.length htext
    rw [htotal, List.flatten_cons, List.length_append, List.length_append] at hlength
    have h₁ := hhead.length_ge
    have h₂ := hfinal.length_ge
    omega

/-! ## The head of the response to an upload

The response to an upload is rendered from the status line, the date and two more header lines. Each
is a plain text with a line end behind it, as all of them are made of digits, names of days and
months, and fixed words. -/

/-- A byte that can stand inside a line. -/
def IsPlain (c : UInt8) : Prop := c ≠ 0 ∧ c ≠ 13 ∧ c ≠ 10

instance : DecidablePred IsPlain := fun c ↦ inferInstanceAs (Decidable (c ≠ 0 ∧ c ≠ 13 ∧ c ≠ 10))

/-- A text that can stand inside a line. -/
def PlainText (s : Bytes) : Prop := ∀ c ∈ s, IsPlain c

instance : DecidablePred PlainText := fun s ↦ inferInstanceAs (Decidable (∀ c ∈ s, IsPlain c))

theorem PlainText.append {s t : Bytes} (hs : PlainText s) (ht : PlainText t) :
    PlainText (s ++ t) := fun c hc ↦ (List.mem_append.mp hc).elim (hs c) (ht c)

theorem PlainText.notMem {s : Bytes} (h : PlainText s) : ∀ c ∈ crlf, c ∉ s := by
  have hcrlf : crlf = [13, 10] := rfl
  intro c hc hmem
  rw [hcrlf, List.mem_cons, List.mem_singleton] at hc
  rcases hc with rfl | rfl
  · exact (h _ hmem).2.1 rfl
  · exact (h _ hmem).2.2 rfl

private theorem plainText_numeral (n : ℕ) : PlainText (numeral 10 n) := by
  intro c hc
  obtain ⟨d, hd⟩ := digitVal_of_mem_numeral (by decide) (by decide) hc
  obtain ⟨hlow, _⟩ := toNat_of_digitVal_ten hd
  refine ⟨?_, ?_, ?_⟩
  all_goals
    rintro rfl
    exact absurd hlow (by decide)

theorem plainText_decimal (n : ℤ) : PlainText (decimal n) := by
  have hsign : PlainText (ascii "-") := by decide +kernel
  rw [decimal]
  split_ifs
  · exact hsign.append (plainText_numeral _)
  · exact plainText_numeral _

private theorem plainText_twoDigits {n : ℕ} (h : n < 100) : PlainText (ClientIo.twoDigits n) := by
  have hdigit : ∀ d < 10, IsPlain (digitByte d) := by decide
  intro c hc
  rw [ClientIo.twoDigits, List.mem_cons, List.mem_singleton] at hc
  rcases hc with rfl | rfl
  · exact hdigit _ (by omega)
  · exact hdigit _ (by omega)

private theorem plainText_dayName (d : Fin 7) :
    PlainText (ascii (ClientIo.dayNames.getD d "?")) := by
  fin_cases d <;> simp [ClientIo.dayNames, ascii, PlainText, IsPlain] <;> decide

private theorem plainText_monthName (d : Fin 12) :
    PlainText (ascii (ClientIo.monthNames.getD d "?")) := by
  fin_cases d <;> simp [ClientIo.monthNames, ascii, PlainText, IsPlain] <;> decide

/-- The line of the date. -/
theorem exists_dateLine (t : Tm) :
    ∃ line, ClientIo.dateText t = line ++ crlf ∧ line ≠ [] ∧ PlainText line := by
  refine ⟨_, rfl, by simp [ascii], ?_⟩
  have hspace : PlainText (ascii " ") := by decide +kernel
  have hcolon : PlainText (ascii ":") := by decide +kernel
  have hgmt : PlainText (ascii " GMT") := by decide +kernel
  have hday : PlainText (ascii "Date: " ++ ascii (ClientIo.dayNames.getD t.wday "?") ++ ascii ", "
      ++ ClientIo.twoDigits t.mday) :=
    (((by decide +kernel : PlainText (ascii "Date: ")).append (plainText_dayName t.wday)).append
      (by decide +kernel)).append (plainText_twoDigits (by omega))
  have hmonth := ((hday.append hspace).append (plainText_monthName t.mon)).append hspace
  have hyear := (hmonth.append (plainText_decimal t.year)).append hspace
  have hhour := (hyear.append (plainText_twoDigits (n := t.hour) (by omega))).append hcolon
  have hmin := (hhour.append (plainText_twoDigits (n := t.min) (by omega))).append hcolon
  exact (hmin.append (plainText_twoDigits (n := t.sec) (by omega))).append hgmt

theorem cString_of_plainText {s : Bytes} (h : PlainText s) : cString (s ++ crlf) = s ++ crlf := by
  have hcrlf : ∀ c ∈ crlf, c ≠ 0 := by decide +kernel
  exact cString_eq_self (List.forall_mem_append.mpr ⟨fun c hc ↦ (h c hc).1, hcrlf⟩)

private theorem exists_dateLines (now : Option Tm) : ∃ lines : List Bytes,
    ((ClientIo.dumpDateHeader now).map cString).getD [] = (lines.map (· ++ crlf)).flatten ∧
    ∀ line ∈ lines, line ≠ [] ∧ PlainText line := by
  have hnone : ∃ lines : List Bytes, [] = (lines.map (· ++ crlf)).flatten ∧
      ∀ line ∈ lines, line ≠ [] ∧ PlainText line := ⟨[], rfl, by simp⟩
  match now with
  | none => exact hnone
  | some t =>
    rw [ClientIo.dumpDateHeader]
    split_ifs
    · obtain ⟨line, hline, hne, hplain⟩ := exists_dateLine t
      refine ⟨[line], ?_, by simpa using ⟨hne, hplain⟩⟩
      rw [hline, Option.map_some, Option.getD_some, cString_of_plainText hplain]
      exact (List.append_nil _).symm
    · exact hnone

/-- The line that says whether the connection stays open. -/
def connectionLine (keepAlive : Bool) : Bytes :=
  if keepAlive then ascii "Connection: Keep-Alive" else ascii "Connection: close"

private theorem connectionText_eq (keepAlive : Bool) :
    ClientIo.connectionText keepAlive = connectionLine keepAlive ++ crlf := by
  rcases keepAlive with - | -
  · rfl
  · rfl

private theorem plainText_connectionLine (keepAlive : Bool) :
    connectionLine keepAlive ≠ [] ∧ PlainText (connectionLine keepAlive) := by
  rcases keepAlive with - | -
  · exact ⟨by decide, by decide +kernel⟩
  · exact ⟨by decide, by decide +kernel⟩

/-- **The response to an upload** is one head of status 200. -/
theorem isHead_okHead (now : Option Tm) (keepAlive : Bool) :
    IsHead (ascii "200") (okHead now keepAlive) := by
  obtain ⟨lines, hlines, hplain⟩ := exists_dateLines now
  refine ⟨rfl, ascii "OK",
    ascii "Content-Length: 0" :: (lines ++ [connectionLine keepAlive]), ?_, ?_, ?_⟩
  · have hstatus : ClientIo.statusLine 200 (ascii "OK")
        = ascii "HTTP/1.1 " ++ (ascii "200" ++ (ascii " " ++ (ascii "OK" ++ crlf))) := by decide
    rw [okHead, hlines, hstatus, connectionText_eq, List.map_cons, List.flatten_cons,
      List.map_append, List.flatten_append, List.map_singleton, List.flatten_singleton]
    simp only [List.append_assoc]
  · exact (by decide +kernel : PlainText (ascii "OK")).notMem
  · intro line hline
    rw [List.mem_cons, List.mem_append, List.mem_singleton] at hline
    rcases hline with rfl | hline | rfl
    · exact ⟨by decide, (by decide +kernel : PlainText (ascii "Content-Length: 0")).notMem⟩
    · exact ⟨(hplain line hline).1, (hplain line hline).2.notMem⟩
    · exact ⟨(plainText_connectionLine keepAlive).1, (plainText_connectionLine keepAlive).2.notMem⟩

private theorem isHead_continueText : IsHead (ascii "100") ClientIo.continueText :=
  ⟨rfl, ascii "CONTINUE", [], rfl, (by decide +kernel : PlainText (ascii "CONTINUE")).notMem,
    by simp⟩

private theorem oneFinalResponse_answers_iff (x : Exchange) (m : Message) :
    OneFinalResponse (x.answers m).flatten ↔ m.isUpload = true ∧ m.contentLength ≠ none := by
  rw [Exchange.answers]
  by_cases hup : m.isUpload = true
  · rw [if_pos hup, Message.uploadAnswers, and_iff_right hup]
    rcases hlen : m.contentLength with - | len
    · refine ⟨fun h ↦ absurd h ?_, fun h ↦ absurd rfl h⟩
      exact not_oneFinalResponse_continue
    · refine ⟨fun _ ↦ by simp, fun _ ↦ ?_⟩
      refine ⟨[ClientIo.continueText], okHead x.now m.keepAlive, ?_, ?_, ?_⟩
      · rw [Option.map_some, Option.toList_some, List.flatten_cons, List.flatten_singleton,
          List.flatten_singleton]
      · intro head hhead
        obtain rfl := List.mem_singleton.mp hhead
        exact ⟨ascii "100", rfl, isHead_continueText⟩
      · refine ⟨ascii "200", ?_, isHead_okHead _ _⟩
        intro h
        exact absurd h (by decide : ¬(ascii "200").head? = some 49)
  · rw [if_neg hup]
    exact ⟨fun h ↦ absurd h not_oneFinalResponse_nil, fun h ↦ absurd h.1 hup⟩

/-! ## The requests of a connection

A request arrives if its header and its body come complete and it keeps the connection open. Then
nothing the client sends can fail, and what remains to be asked is whether its socket can name its
end, the length fits, and there is memory. -/

/-- A request that keeps the connection open and arrives completely. -/
structure Exchange.Arrives (x : Exchange) : Prop where
  keepsAlive : ∃ m, x.header = .parsed m ∧ m.keepAlive = true
  reads_ok : ∀ r ∈ x.reads, r.ec = none
  complete : x.body.doneAfter x.reads = true

/-- A request that gets a final response: an upload with a length an `int` can count with one more
character, when there is memory for these and the socket can say its endpoint. -/
def Exchange.GetsResponse (x : Exchange) : Prop :=
  ∃ m len, x.header = .parsed m ∧ (∃ e, x.localEndpoint = .ok e) ∧ m.isUpload = true ∧
    m.contentLength = some len ∧ len < intMax ∧ x.allocates (len + 1) = true

theorem Exchange.Arrives.drains {x : Exchange} (h : x.Arrives) : Drains x.body x.reads :=
  ⟨x.reads, List.prefix_rfl, fun r hr ↦ .inl (h.reads_ok r hr), h.complete⟩

theorem Exchange.Arrives.brings {x : Exchange} (h : x.Arrives) (needed : ℕ) :
    Brings needed x.body x.reads :=
  ⟨x.reads, [], (List.append_nil _).symm, h.reads_ok, .inr (.inl h.complete)⟩

private theorem Exchange.Arrives.getsResponse_iff {x : Exchange} {m : Message} (h : x.Arrives)
    (hm : x.header = .parsed m) {outcome : ℕ → Option ErrorCode} (hwrites : ∀ i, outcome i = none) :
    x.GetsResponse ↔ (∃ e, x.localEndpoint = .ok e) ∧ x.Serves m outcome ∧
      OneFinalResponse (x.answers m).flatten := by
  rw [oneFinalResponse_answers_iff]
  refine ⟨?_, ?_⟩
  · rintro ⟨m', len, hm', he, hup, hlen, hlt, halloc⟩
    obtain rfl := HeaderRead.parsed.inj (hm.symm.trans hm')
    refine ⟨he, fun _ ↦ ⟨hwrites 0, fun len' hlen' ↦ ?_⟩, hup, by rw [hlen]; simp⟩
    obtain rfl := Option.some_inj.mp (hlen.symm.trans hlen')
    exact ⟨hlt, halloc, h.brings len, hwrites 1⟩
  · rintro ⟨he, hserves, hup, hsome⟩
    obtain ⟨len, hlen⟩ := Option.ne_none_iff_exists'.mp hsome
    obtain ⟨hlt, halloc, _⟩ := (hserves hup).2 len hlen
    exact ⟨m, len, hm, he, hup, hlen, hlt, halloc⟩

/-! ## What the log says

The log is cut at the headers that were read. The induction follows the loop: the answer to the
first request stands between the first two headers, or there is no second header and the requests
left are not answered at all. -/

private theorem answeredInOrder_head {n : ℕ} {events : List Event} (h : AnsweredInOrder n events) :
    ∃ rest, events = .readHeader :: rest := by
  match n with
  | 0 => exact ⟨[], h⟩
  | n + 1 =>
    obtain ⟨bufs, rest, rfl, _⟩ := h
    exact ⟨_, rfl⟩

private theorem not_answeredInOrder_succ {n : ℕ} {events : List Event} (h : .readHeader ∉ events) :
    ¬AnsweredInOrder (n + 1) (.readHeader :: events) := by
  rintro ⟨bufs, rest, hevents, _, hrest⟩
  obtain ⟨rest, rfl⟩ := answeredInOrder_head hrest
  refine h ?_
  rw [(List.cons.inj hevents).2]
  simp

private theorem answeredInOrder_succ_iff {n : ℕ} {bufs : List Bytes} {rest : List Event} :
    AnsweredInOrder (n + 1) (.readHeader :: (bufs.map .write ++ .readHeader :: rest))
      ↔ OneFinalResponse bufs.flatten ∧ AnsweredInOrder n (.readHeader :: rest) := by
  refine ⟨?_, fun h ↦ ⟨bufs, _, rfl, h.1, h.2⟩⟩
  rintro ⟨bufs', rest', hevents, hresponse, hrest⟩
  obtain ⟨rest', rfl⟩ := answeredInOrder_head hrest
  have hwrite : ∀ bufs : List Bytes, Event.readHeader ∉ bufs.map Event.write := by simp
  rcases split_trichotomy (List.cons.inj hevents).2 with
    ⟨mid, hmid⟩ | ⟨hbufs, _, rfl⟩ | ⟨mid, hmid, _⟩
  · exact absurd (by rw [hmid]; simp) (hwrite bufs)
  · have hinj : Function.Injective Event.write := fun _ _ h ↦ Event.write.inj h
    obtain rfl := (List.map_injective_iff.mpr hinj) hbufs
    exact ⟨hresponse, hrest⟩
  · exact absurd (by rw [hmid]; simp) (hwrite bufs')

/-- What is proved of a run: its log, and when the log is in order. -/
def InOrderIff (xs : List Exchange) (s t : Stream) : Prop :=
  ∃ events, t.log = s.log ++ .readHeader :: events ∧
    (AnsweredInOrder xs.length (.readHeader :: events) ↔ ∀ x ∈ xs, x.GetsResponse)

private theorem ensures_handleConnection_inOrder (xs : List Exchange) (hxs : ∀ x ∈ xs, x.Arrives) :
    ∀ s : Stream, s.Reliable → Ensures (handleConnection xs) s
      (fun _ t ↦ InOrderIff xs s t) fun _ t ↦ InOrderIff xs s t := by
  induction xs with
  | nil => exact fun s _ ↦ ⟨[], rfl, by simp [AnsweredInOrder]⟩
  | cons x xs ih =>
    intro s hs
    have hx := hxs x List.mem_cons_self
    obtain ⟨m, hm, hkeep⟩ := hx.keepsAlive
    have hparsed : ∀ {m' : Message}, x.header = .parsed m' → m' = m :=
      fun h ↦ HeaderRead.parsed.inj (h.symm.trans hm)
    have hgets :=
      hx.getsResponse_iff hm (fun i ↦ hs (s.written.length + i) : ∀ i, s.outcome i = none)
    have hthrown : ∀ t, ¬x.GetsResponse → (s.note .readHeader).NotReadSince t →
        InOrderIff (x :: xs) s t := by
      rintro t hnot ⟨events, hlog, hevents⟩
      refine ⟨events, ?_, ?_⟩
      · rw [hlog, Stream.note, List.append_assoc]
        rfl
      · exact ⟨fun h ↦ absurd h (not_answeredInOrder_succ hevents),
          fun h ↦ absurd (h x List.mem_cons_self) hnot⟩
    refine ensures_handleConnection_cons ?_ ?_ ?_ ?_ ?_
    · rintro ec version hfailed
      exact absurd (hfailed.symm.trans hm) (by simp)
    · rintro m' ec _ hec
      refine hthrown _ (fun h ↦ ?_) ⟨[], (List.append_nil _).symm, by simp⟩
      obtain ⟨e, he⟩ := (hgets.mp h).1
      exact absurd (hec.symm.trans he) (by simp)
    · rintro m' e t hm' hserves hlog
      obtain rfl := hparsed hm'
      exact hthrown t (fun h ↦ hserves (hgets.mp h).2.1) hlog
    · rintro m' e hm' _ _ hends
      obtain rfl := hparsed hm'
      exact absurd ⟨hkeep, hx.drains⟩ hends
    · rintro m' e hm' he hserves _ _
      obtain rfl := hparsed hm'
      have hrest := ih (fun y hy ↦ hxs y (List.mem_cons_of_mem x hy))
        ((s.note .readHeader).wrote (x.answers m')) hs
      have hcons : ∀ t, InOrderIff xs ((s.note .readHeader).wrote (x.answers m')) t →
          InOrderIff (x :: xs) s t := by
        rintro t ⟨events, hlog, hiff⟩
        refine ⟨(x.answers m').map .write ++ .readHeader :: events, ?_, ?_⟩
        · rw [hlog, Stream.wrote, Stream.note, List.append_assoc, List.append_assoc]
          rfl
        · rw [List.length_cons, answeredInOrder_succ_iff, hiff, List.forall_mem_cons, hgets]
          refine and_congr_left fun _ ↦ ⟨fun h ↦ ⟨⟨e, he⟩, hserves, h⟩, fun h ↦ h.2.2⟩
      exact hrest.mono (fun _ t ↦ hcons t) fun _ t ↦ hcons t

/-- **When every request gets its response.** For every connection whose requests keep it open and
arrive completely, on a stream whose writes succeed: each request is answered by one final response
before the next header is read if and only if each is an upload with a length that fits and for
which there is memory. -/
theorem responses_inOrder_iff (xs : List Exchange) (hxs : ∀ x ∈ xs, x.Arrives) (stream : Stream)
    (hwrites : stream.Reliable) :
    (∃ events, (after (handleConnection xs) stream).log = stream.log ++ events ∧
        AnsweredInOrder xs.length events) ↔ ∀ x ∈ xs, x.GetsResponse := by
  have hafter : InOrderIff xs stream (after (handleConnection xs) stream) := by
    have hspec := ensures_handleConnection_inOrder xs hxs stream hwrites
    rcases hrun : handleConnection xs stream with ⟨_, t⟩ | ⟨e, t⟩
    · rw [after_of_ok hrun]
      exact hspec.of_ok hrun
    · rw [after_of_error hrun]
      exact hspec.of_error hrun
  obtain ⟨events, hlog, hiff⟩ := hafter
  refine ⟨?_, fun h ↦ ⟨_, hlog, hiff.mpr h⟩⟩
  rintro ⟨events', hlog', hordered⟩
  obtain rfl := List.append_cancel_left (hlog'.symm.trans hlog)
  exact hiff.mp hordered

/-- A request whose body comes in one read, if it has one. -/
def completeExchange (m : Message) (body : Bytes) : Exchange where
  header := .parsed m
  localEndpoint := .ok ⟨[], 0⟩
  remoteEndpoint := ⟨[], 0⟩
  body := ⟨body, false⟩
  reads := [⟨body.length, none, true⟩]
  now := none
  allocates _ := true

/-- An upload of two bytes. -/
def smallUpload : Exchange :=
  completeExchange ⟨.put, ascii "/", 11, [⟨ascii "Content-Length", ascii "2"⟩], true, by
    intro f hf _
    obtain rfl := List.mem_singleton.mp hf
    exact ⟨2, by norm_num, rfl⟩⟩ (ascii "hi")

private theorem arrives_completeExchange (m : Message) (body : Bytes) (hkeep : m.keepAlive = true) :
    (completeExchange m body).Arrives where
  keepsAlive := ⟨m, rfl, hkeep⟩
  reads_ok r hr := by
    obtain rfl := List.mem_singleton.mp hr
    rfl
  complete := rfl

/-- Two uploads are answered in order. -/
theorem responses_inOrder_uploads :
    ∃ events, (after (handleConnection [smallUpload, smallUpload]) .fresh).log
        = Stream.fresh.log ++ events ∧ AnsweredInOrder 2 events := by
  have hmem : ∀ x ∈ [smallUpload, smallUpload], x = smallUpload := by simp
  refine (responses_inOrder_iff _ (fun x hx ↦ ?_) .fresh fun _ ↦ rfl).mpr fun x hx ↦ ?_
  · rw [hmem x hx]
    exact arrives_completeExchange _ _ rfl
  · rw [hmem x hx]
    exact ⟨_, 2, rfl, ⟨_, rfl⟩, rfl, rfl, by decide, rfl⟩

/-- A `GET` gets no response: the next header is read at once. -/
theorem responses_get_unanswered :
    (completeExchange (.bare .get) []).Arrives ∧ Stream.fresh.Reliable ∧
      ¬∃ events, (after (handleConnection [completeExchange (.bare .get) []]) .fresh).log
          = Stream.fresh.log ++ events ∧ AnsweredInOrder 1 events := by
  refine ⟨arrives_completeExchange _ _ rfl, fun _ ↦ rfl, ?_⟩
  rintro ⟨events, hlog, hordered⟩
  have hevents : .readHeader :: (([] : List Bytes).map .write ++ [.readHeader]) = events := hlog
  rw [← hevents] at hordered
  have hresponse : OneFinalResponse ([] : List Bytes).flatten :=
    (answeredInOrder_succ_iff.mp hordered).1
  exact not_oneFinalResponse_nil hresponse

end CppRepo
