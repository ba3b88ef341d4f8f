import CppRepo.Http.Connection

/-!
# Where each request begins

The bytes that come in on a connection are one request after the other. Two loops read the body of a
request with the same parser: that of `recv_body`, which fills the caller's buffer, and the one in
`handle_connection` that discards what is left. Both set the cursor of the body, in `body()`, to a
buffer of their own before they read; `need_buffer` ends the first loop, and the second one goes on.

**Main result.** Each call of `recv_body` gets the next bytes of the body, as many as it asks for
and there are, and each header is read from the first byte of its request, in whichever pieces the
bytes come in and however much of each body the handler reads (`handleConnection_framed`).

## What is known of Beast

Asio and Beast are a parameter: what `async_read_header` and `async_read_some` do to the input, the
parser and the cursor. They may look at the buffer and at how later reads cut the rest. What is
assumed of them is `Beast.Lawful`, and `payload` says which part of its message a parser has not
consumed. A message may be framed by a length or by chunks, so that not each byte behind its header
is one of the body.
-/

namespace CppRepo

namespace Framing

/-! ## Requests

The payload of a message is what stands behind its header. Each byte of it knows whether it is one
of the body, so that chunk headers and trailers are payload, too. -/

/-- A byte behind the header of a request, of its body or of what frames the body. -/
structure PayloadByte where
  byte : UInt8
  isBody : Bool
  deriving DecidableEq

/-- The bytes of a payload on the wire. -/
def wire (payload : List PayloadByte) : Bytes := payload.map PayloadByte.byte

/-- The bytes of the body. -/
def bodyOf (payload : List PayloadByte) : Bytes :=
  (payload.filter PayloadByte.isBody).map PayloadByte.byte

structure Request where
  head : Bytes
  payload : List PayloadByte
  deriving DecidableEq

namespace Request

def bytes (r : Request) : Bytes := r.head ++ wire r.payload

def body (r : Request) : Bytes := bodyOf r.payload

end Request

/-! ## Asio and Beast

The input is what the buffer holds and what later reads will bring; `unread` forgets where the one
ends and the others begin. A parser is a state of an arbitrary type. -/

/-- What has come in and was not consumed: in `parse_buffer`, and in the reads of the stream to
come. -/
structure Input where
  buffer : Bytes
  reads : List Bytes
  deriving DecidableEq

def Input.unread (input : Input) : Bytes := input.buffer ++ input.reads.flatten

/-- The value of a `buffer_body`: what is in the caller's buffer before `data`, and `size`. -/
structure Cursor where
  stored : Bytes
  size : ℕ
  deriving DecidableEq

/-- What a request is read with. -/
structure State (π : Type) where
  input : Input
  parser : π
  /-- `parser.get().body()` -/
  body : Cursor

/-- The operations of Asio and Beast, for parsers of type `π`. -/
structure Beast (π : Type) where
  /-- `http::async_read_header`, with a new parser -/
  asyncReadHeader : Input → Option ErrorCode × State π
  /-- `http::async_read_some` -/
  asyncReadSome : State π → Option ErrorCode × State π
  isDone : π → Bool
  keepAlive : π → Bool

variable {π : Type}

/-! ## The loops

The loops have fuel, for nothing in the source bounds them. The theorems give them one unit for each
byte of the payload and one more, and show that this is enough. -/

/-- How the functions below end, other than by returning. -/
inductive Ending
  | outOfFuel
  | failed (ec : ErrorCode)
  deriving DecidableEq

variable (beast : Beast π)

/-- The loop of `recv_body`. -/
def recvLoop : ℕ → State π → Except Ending (State π)
  | 0, _ => throw .outOfFuel
  | fuel + 1, s =>
    if s.body.size ≠ 0 ∧ beast.isDone s.parser = false then
      match beast.asyncReadSome s with
      | (some .needBuffer, s) => return s
      | (some ec, _) => throw (.failed ec)
      | (none, s) => recvLoop fuel s
    else return s

/-- `recv_body`: what it returns, and the bytes in the caller's buffer. -/
def recvBody (fuel max : ℕ) (s : State π) : Except Ending ((ℕ × Bytes) × State π) := do
  let s ← recvLoop beast fuel { s with body := ⟨[], max⟩ }
  return ((max - s.body.size, s.body.stored), s)

/-- The calls of `recv_body` while a request is processed, given by the sizes of the buffers. -/
def recvBodies (fuel : ℕ) : List ℕ → State π → Except Ending (List (ℕ × Bytes) × State π)
  | [], s => return ([], s)
  | max :: calls, s => do
    let (received, s) ← recvBody beast fuel max s
    let (rest, s) ← recvBodies fuel calls s
    return (received :: rest, s)

/-- The loop that discards what is left of a message. -/
def discardLoop : ℕ → State π → Except Ending (State π)
  | 0, _ => throw .outOfFuel
  | fuel + 1, s =>
    if beast.isDone s.parser then return s
    else
      match beast.asyncReadSome { s with body := ⟨[], 1024⟩ } with
      | (some .needBuffer, s) => discardLoop fuel s
      | (some ec, _) => throw (.failed ec)
      | (none, s) => discardLoop fuel s

/-- What `process` does with a request: the sizes it calls `recv_body` with, and `http_ret`. -/
structure Handler where
  calls : List ℕ
  httpRet : ℤ

/-- What was read for one request. -/
structure Turn where
  /-- The bytes from which its header was read. -/
  unread : Bytes
  /-- What the calls of `recv_body` gave. -/
  received : List (ℕ × Bytes)
  deriving DecidableEq

/-- The loop of `handle_connection`, from the `k`-th request on. -/
def serve (handler : ℕ → Handler) (fuel : ℕ) : ℕ → ℕ → Input → Except Ending (List Turn)
  | 0, _, _ => throw .outOfFuel
  | turns + 1, k, input =>
    match beast.asyncReadHeader input with
    | (some _, _) => return []
    | (none, s) => do
      let (received, s) ← recvBodies beast fuel (handler k).calls s
      let turn : Turn := ⟨input.unread, received⟩
      if (handler k).httpRet < 0 then return [turn]
      else if !beast.keepAlive s.parser then return [turn]
      else
        match discardLoop beast fuel s with
        | .error (.failed _) => return [turn]
        | .error .outOfFuel => throw .outOfFuel
        | .ok s => do
          let rest ← serve handler fuel turns (k + 1) s.input
          return turn :: rest

/-- `handle_connection`, with as many rounds of each loop as there is fuel. -/
def handleConnection (handler : ℕ → Handler) (fuel : ℕ) (input : Input) :
    Except Ending (List Turn) :=
  serve beast handler fuel fuel 0 input

/-! ## What is assumed of Beast

A read consumes at least one byte of the payload, stores the body bytes among those it has consumed,
and ends with an error only where the message is complete or there is no room. `Lawful` asks for
this whenever the input goes on with the rest of the payload, so it says nothing about input that is
not well-formed. -/

/-- A read that went well, and consumed some of the payload. -/
structure ReadsSome (payload : π → List PayloadByte) (taken : List PayloadByte) (s t : State π)
    (ec : Option ErrorCode) : Prop where
  ne_nil : taken ≠ []
  payload_eq : payload s.parser = taken ++ payload t.parser
  unread_eq : s.input.unread = wire taken ++ t.input.unread
  stored_eq : t.body.stored = s.body.stored ++ bodyOf taken
  size_eq : t.body.size + (bodyOf taken).length = s.body.size
  /-- The buffer is full, and there is more of the body. -/
  ec_eq : ec = none ∨ ec = some .needBuffer ∧ t.body.size = 0 ∧ bodyOf (payload t.parser) ≠ []

/-- What is assumed of Beast, for requests it takes for well-formed and to be kept alive. -/
structure Beast.Lawful (wellFormed : Request → Prop) (payload : π → List PayloadByte) : Prop where
  /-- A header is read, and nothing behind it. -/
  header : ∀ r rest input, wellFormed r → input.unread = r.bytes ++ rest →
    ∃ s, beast.asyncReadHeader input = (none, s) ∧ s.input.unread = wire r.payload ++ rest ∧
      payload s.parser = r.payload ∧ beast.keepAlive s.parser = true
  headerEnd : ∀ input, input.unread = [] →
    ∃ s, beast.asyncReadHeader input = (some .endOfStream, s)
  readSome : ∀ s rest, s.body.size ≠ 0 → payload s.parser ≠ [] →
    s.input.unread = wire (payload s.parser) ++ rest →
    ∃ taken ec t, beast.asyncReadSome s = (ec, t) ∧ ReadsSome payload taken s t ec ∧
      beast.keepAlive t.parser = beast.keepAlive s.parser
  isDone : ∀ parser, beast.isDone parser = true ↔ payload parser = []

/-! ## Bodies

`Left` is the invariant of both loops: what is left of the payload is the first thing in the input,
and the parser is done if and only if that is nothing. Since each read takes something away from it,
its length bounds the number of rounds. -/

private theorem wire_append (a b : List PayloadByte) : wire (a ++ b) = wire a ++ wire b :=
  List.map_append

private theorem bodyOf_append (a b : List PayloadByte) :
    bodyOf (a ++ b) = bodyOf a ++ bodyOf b := by
  rw [bodyOf, List.filter_append, List.map_append, bodyOf, bodyOf]

variable {beast} {wellFormed : Request → Prop} {payload : π → List PayloadByte}
  {left : List PayloadByte} {rest : Bytes} {s t : State π} {fuel : ℕ}

/-- The parser has this payload left, and the input goes on with it. -/
structure Left (beast : Beast π) (payload : π → List PayloadByte) (left : List PayloadByte)
    (rest : Bytes) (s : State π) : Prop where
  parser : payload s.parser = left
  input : s.input.unread = wire left ++ rest
  keepAlive : beast.keepAlive s.parser = true

/-- Each read consumes something. -/
theorem ReadsSome.length_lt {taken : List PayloadByte} {ec : Option ErrorCode}
    (h : ReadsSome payload taken s t ec) (left : List PayloadByte) :
    left.length < (taken ++ left).length := by
  rw [List.length_append]
  exact Nat.lt_add_of_pos_left (List.length_pos_iff.mpr h.ne_nil)

namespace Left

private theorem isDone_iff (hb : beast.Lawful wellFormed payload)
    (h : Left beast payload left rest s) : beast.isDone s.parser = true ↔ left = [] := by
  rw [hb.isDone, h.parser]

theorem ne_nil (hb : beast.Lawful wellFormed payload) (h : Left beast payload left rest s)
    (hdone : beast.isDone s.parser = false) : left ≠ [] := fun hnil ↦
  Bool.false_ne_true (hdone.symm.trans ((h.isDone_iff hb).mpr hnil))

private theorem withBody (h : Left beast payload left rest s) (body : Cursor) :
    Left beast payload left rest { s with body } := ⟨h.parser, h.input, h.keepAlive⟩

theorem readSome (hb : beast.Lawful wellFormed payload) (h : Left beast payload left rest s)
    (hsize : s.body.size ≠ 0) (hleft : left ≠ []) :
    ∃ taken left' ec t, beast.asyncReadSome s = (ec, t) ∧ ReadsSome payload taken s t ec ∧
      left = taken ++ left' ∧ Left beast payload left' rest t := by
  have hinput : s.input.unread = wire (payload s.parser) ++ rest := by
    rw [h.parser]
    exact h.input
  obtain ⟨taken, ec, t, hread, hsome, hkeep⟩ :=
    hb.readSome s rest hsize (h.parser.symm ▸ hleft) hinput
  refine ⟨taken, payload t.parser, ec, t, hread, hsome, ?_, rfl, ?_, hkeep.trans h.keepAlive⟩
  · rw [← h.parser]
    exact hsome.payload_eq
  · have hwire : wire taken ++ t.input.unread
        = wire taken ++ (wire (payload t.parser) ++ rest) := by
      rw [← hsome.unread_eq, hinput, hsome.payload_eq, wire_append, List.append_assoc]
    exact List.append_cancel_left hwire

theorem recvLoop (hb : beast.Lawful wellFormed payload) (h : Left beast payload left rest s)
    (hfuel : left.length < fuel) :
    ∃ taken left' t, recvLoop beast fuel s = .ok t ∧ left = taken ++ left' ∧
      Left beast payload left' rest t ∧ t.body.stored = s.body.stored ++ bodyOf taken ∧
      t.body.size + (bodyOf taken).length = s.body.size ∧ (t.body.size = 0 ∨ left' = []) := by
  induction fuel generalizing left s with
  | zero => exact absurd hfuel (Nat.not_lt_zero _)
  | succ fuel ih =>
    rw [Framing.recvLoop]
    by_cases hgo : s.body.size ≠ 0 ∧ beast.isDone s.parser = false
    · rw [if_pos hgo]
      obtain ⟨taken, left', ec, t, hread, hsome, rfl, ht⟩ :=
        h.readSome hb hgo.1 (h.ne_nil hb hgo.2)
      rw [hread]
      rcases hsome.ec_eq with rfl | ⟨rfl, hfull, -⟩
      · have hless : left'.length < fuel :=
          (hsome.length_lt left').trans_le (Nat.le_of_lt_succ hfuel)
        obtain ⟨more, left'', u, hloop, rfl, hu, hstored, hsize, hend⟩ := ih ht hless
        refine ⟨taken ++ more, left'', u, hloop, (List.append_assoc _ _ _).symm, hu, ?_, ?_, hend⟩
        · rw [hstored, hsome.stored_eq, bodyOf_append, List.append_assoc]
        · rw [bodyOf_append, List.length_append, ← hsome.size_eq, ← hsize]
          omega
      · exact ⟨taken, left', t, rfl, rfl, ht, hsome.stored_eq, hsome.size_eq, Or.inl hfull⟩
    · rw [if_neg hgo]
      refine ⟨[], left, s, rfl, rfl, h, (List.append_nil _).symm, rfl, ?_⟩
      rcases eq_or_ne s.body.size 0 with hzero | hne
      · exact Or.inl hzero
      · exact Or.inr ((h.isDone_iff hb).mp (Bool.of_not_eq_false fun hfalse ↦ hgo ⟨hne, hfalse⟩))

/-- **One call of `recv_body`.** It gets the next bytes of the body. -/
theorem recvBody (hb : beast.Lawful wellFormed payload) (h : Left beast payload left rest s)
    (hfuel : left.length < fuel) (max : ℕ) :
    ∃ left' t, Framing.recvBody beast fuel max s
        = .ok ((min max (bodyOf left).length, (bodyOf left).take max), t) ∧
      Left beast payload left' rest t ∧ bodyOf left' = (bodyOf left).drop max ∧
      left'.length ≤ left.length := by
  obtain ⟨taken, left', t, hloop, rfl, ht, hstored, hsize, hend⟩ :=
    (h.withBody ⟨[], max⟩).recvLoop hb hfuel
  have hstored : t.body.stored = bodyOf taken := hstored
  have hsize : t.body.size + (bodyOf taken).length = max := hsize
  have hret : max - t.body.size = min max (bodyOf (taken ++ left')).length ∧
      bodyOf taken = (bodyOf (taken ++ left')).take max ∧
      bodyOf left' = (bodyOf (taken ++ left')).drop max := by
    rw [bodyOf_append, List.length_append]
    -- The buffer is full, or there is nothing left of the body.
    rcases hend with hfull | rfl
    · have hmax : (bodyOf taken).length = max := by omega
      refine ⟨by omega, ?_, ?_⟩
      · rw [← hmax, List.take_left']
        rfl
      · rw [← hmax, List.drop_left']
        rfl
    · have hnil : bodyOf ([] : List PayloadByte) = [] := rfl
      rw [hnil, List.append_nil]
      refine ⟨by rw [List.length_nil]; omega, ?_, ?_⟩
      · exact (List.take_of_length_le (by omega)).symm
      · exact (List.drop_of_length_le (by omega)).symm
  refine ⟨left', t, ?_, ht, hret.2.2, ?_⟩
  · rw [Framing.recvBody, hloop, ← hret.1, ← hret.2.1, ← hstored]
    rfl
  · rw [List.length_append]
    exact Nat.le_add_left _ _

theorem discardLoop (hb : beast.Lawful wellFormed payload) (h : Left beast payload left rest s)
    (hfuel : left.length < fuel) :
    ∃ t, Framing.discardLoop beast fuel s = .ok t ∧ Left beast payload [] rest t := by
  induction fuel generalizing left s with
  | zero => exact absurd hfuel (Nat.not_lt_zero _)
  | succ fuel ih =>
    rw [Framing.discardLoop]
    by_cases hdone : beast.isDone s.parser = true
    · rw [if_pos hdone]
      obtain rfl : left = [] := (h.isDone_iff hb).mp hdone
      exact ⟨s, rfl, h⟩
    · rw [if_neg hdone]
      have hleft : left ≠ [] := h.ne_nil hb (Bool.eq_false_of_not_eq_true hdone)
      obtain ⟨taken, left', ec, t, hread, hsome, rfl, ht⟩ :=
        (h.withBody ⟨[], 1024⟩).readSome hb (Nat.succ_ne_zero 1023) hleft
      have hless : left'.length < fuel :=
        (hsome.length_lt left').trans_le (Nat.le_of_lt_succ hfuel)
      rw [hread]
      -- Whether the buffer is full or not, the loop goes on.
      rcases hsome.ec_eq with rfl | ⟨rfl, -⟩
      · exact ih ht hless
      · exact ih ht hless

end Left

/-! ## What the handlers get

The handler's calls see the body as a list from which each takes the next bytes. `deliveries` is
that list cut up, and it does not depend on how the reads cut the input. -/

/-- What calls of `recv_body` with these sizes get of a body. -/
def deliveries : Bytes → List ℕ → List (ℕ × Bytes)
  | _, [] => []
  | body, max :: calls =>
    (min max body.length, body.take max) :: deliveries (body.drop max) calls

private theorem length_deliveries (body : Bytes) (calls : List ℕ) :
    (deliveries body calls).length = calls.length := by
  induction calls generalizing body with
  | nil => rfl
  | cons max calls ih => exact congrArg Nat.succ (ih _)

private theorem deliveries_getElem? {calls : List ℕ} {j max : ℕ} (h : calls[j]? = some max)
    (body : Bytes) :
    ∃ bytes, (deliveries body calls)[j]? = some
        (min max (body.length - (((deliveries body calls).take j).map Prod.fst).sum), bytes) ∧
      bytes.length
        = min max (body.length - (((deliveries body calls).take j).map Prod.fst).sum) := by
  induction calls generalizing body j with
  | nil => exact absurd h (by simp)
  | cons first calls ih =>
    rcases j with - | j
    · obtain rfl : first = max := by simpa using h
      exact ⟨body.take first, by simp [deliveries], by simp⟩
    · obtain ⟨bytes, hget, hlength⟩ := ih (by simpa using h) (body.drop first)
      have hrest : (body.drop first).length
            - (((deliveries (body.drop first) calls).take j).map Prod.fst).sum
          = body.length - (((deliveries body (first :: calls)).take (j + 1)).map Prod.fst).sum := by
        rw [deliveries, List.take_succ_cons, List.map_cons, List.sum_cons, List.length_drop]
        omega
      rw [hrest] at hget hlength
      exact ⟨bytes, hget, hlength⟩

private theorem flatten_deliveries (body : Bytes) (calls : List ℕ) :
    ((deliveries body calls).map Prod.snd).flatten <+: body := by
  induction calls generalizing body with
  | nil => exact List.nil_prefix
  | cons max calls ih =>
    rw [deliveries, List.map_cons, List.flatten_cons]
    have hnext : body.take max ++ ((deliveries (body.drop max) calls).map Prod.snd).flatten
        <+: body.take max ++ body.drop max := (List.prefix_append_right_inj _).mpr (ih _)
    rwa [List.take_append_drop] at hnext

/-- The calls get the first part of the body, each of them as much as it asks for and is left. -/
structure Delivers (body : Bytes) (calls : List ℕ) (received : List (ℕ × Bytes)) : Prop where
  length_eq : received.length = calls.length
  each : ∀ j max, calls[j]? = some max → ∃ ret bytes, received[j]? = some (ret, bytes) ∧
    ret = min max (body.length - ((received.take j).map Prod.fst).sum) ∧ bytes.length = ret
  flatten : (received.map Prod.snd).flatten <+: body

private theorem delivers_deliveries (body : Bytes) (calls : List ℕ) :
    Delivers body calls (deliveries body calls) := by
  refine ⟨length_deliveries body calls, fun j max h ↦ ?_, flatten_deliveries body calls⟩
  obtain ⟨bytes, hget, hlength⟩ := deliveries_getElem? h body
  exact ⟨_, bytes, hget, rfl, hlength⟩

private theorem Left.recvBodies (hb : beast.Lawful wellFormed payload)
    (h : Left beast payload left rest s) (hfuel : left.length < fuel) (calls : List ℕ) :
    ∃ left' t, Framing.recvBodies beast fuel calls s = .ok (deliveries (bodyOf left) calls, t) ∧
      Left beast payload left' rest t ∧ left'.length ≤ left.length := by
  induction calls generalizing left s with
  | nil => exact ⟨left, s, rfl, h, le_rfl⟩
  | cons max calls ih =>
    obtain ⟨left', t, hfirst, ht, hdrop, hle⟩ := h.recvBody hb hfuel max
    obtain ⟨left'', u, hrest, hu, hle'⟩ := ih ht (hle.trans_lt hfuel)
    refine ⟨left'', u, ?_, hu, hle'.trans hle⟩
    rw [Framing.recvBodies, hfirst, deliveries, ← hdrop]
    simp only [bind, Except.bind, hrest]
    rfl

/-! ## The same loops with given reads

`StreamIo.recvLoop` and `discardLoop` are these loops where only the body is looked at, and the
outcomes of the reads are given. What the loops here do is one case of what those do.
-/

private theorem ReadsSome.exists_readSome {taken : List PayloadByte} {ec : Option ErrorCode}
    (h : ReadsSome payload taken s t ec) (done done' : Bool) :
    ∃ read, BodyState.readSome read s.body.size ⟨bodyOf (payload s.parser), done⟩
      = ((bodyOf taken, ec), ⟨bodyOf (payload t.parser), done'⟩) := by
  have hsplit : bodyOf (payload s.parser) = bodyOf taken ++ bodyOf (payload t.parser) := by
    rw [h.payload_eq, bodyOf_append]
  have hsize := h.size_eq
  rcases h.ec_eq with rfl | ⟨rfl, hfull, hmore⟩
  · -- The parser sees what it stores.
    refine ⟨⟨(bodyOf taken).length, none, done'⟩, ?_⟩
    have hfits : ¬ s.body.size < (bodyOf taken).length := by omega
    simp only [BodyState.readSome, hsplit, List.take_left', List.drop_left', if_neg hfits,
      List.take_of_length_le (not_lt.mp hfits)]
    rfl
  · -- The parser sees a byte more than it can store.
    refine ⟨⟨s.body.size + 1, none, done'⟩, ?_⟩
    have hfull : s.body.size = (bodyOf taken).length := by omega
    have hstored : ((bodyOf taken ++ bodyOf (payload t.parser)).take (s.body.size + 1)).take
        s.body.size = bodyOf taken := by
      rw [List.take_take, Nat.min_eq_left (Nat.le_succ _), List.take_left' hfull.symm]
    have hseen : s.body.size <
        ((bodyOf taken ++ bodyOf (payload t.parser)).take (s.body.size + 1)).length := by
      have hpos : 0 < (bodyOf (payload t.parser)).length := List.length_pos_iff.mpr hmore
      rw [List.length_take, List.length_append]
      omega
    simp only [BodyState.readSome, hsplit, hstored, if_pos hseen, List.drop_left']
    rfl

theorem exists_recvLoop (hb : beast.Lawful wellFormed payload)
    (h : Left beast payload left rest s) (ht : recvLoop beast fuel s = .ok t) :
    ∃ reads, StreamIo.recvLoop reads s.body.size s.body.stored
        ⟨bodyOf (payload s.parser), beast.isDone s.parser⟩
      = (.ok t.body.stored, [], ⟨bodyOf (payload t.parser), beast.isDone t.parser⟩) := by
  induction fuel generalizing left s with
  | zero => exact absurd ht (by simp [recvLoop, throw, throwThe, MonadExceptOf.throw])
  | succ fuel ih =>
    rw [recvLoop] at ht
    by_cases hgo : s.body.size ≠ 0 ∧ beast.isDone s.parser = false
    · rw [if_pos hgo] at ht
      obtain ⟨taken, left', ec, u, hread, hsome, rfl, hu⟩ :=
        h.readSome hb hgo.1 (h.ne_nil hb hgo.2)
      rw [hread] at ht
      obtain ⟨read, hbody⟩ :=
        hsome.exists_readSome (beast.isDone s.parser) (beast.isDone u.parser)
      have hstay : ¬ (s.body.size = 0 ∨ beast.isDone s.parser = true) := by
        rintro (hzero | hdone)
        · exact hgo.1 hzero
        · exact Bool.false_ne_true (hgo.2.symm.trans hdone)
      rcases hsome.ec_eq with rfl | ⟨rfl, -, -⟩
      · obtain ⟨reads, hreads⟩ := ih hu ht
        refine ⟨read :: reads, ?_⟩
        have hsize : s.body.size - (bodyOf taken).length = u.body.size := by
          rw [← hsome.size_eq, Nat.add_sub_cancel]
        rw [StreamIo.recvLoop, if_neg hstay, hbody]
        simp only [hsize, ← hsome.stored_eq]
        exact hreads
      · obtain rfl : u = t := Except.ok.inj ht
        refine ⟨[read], ?_⟩
        rw [StreamIo.recvLoop, if_neg hstay, hbody]
        simp only [← hsome.stored_eq]
    · rw [if_neg hgo] at ht
      obtain rfl : s = t := Except.ok.inj ht
      refine ⟨[], if_pos ?_⟩
      rcases eq_or_ne s.body.size 0 with hzero | hne
      · exact Or.inl hzero
      · exact Or.inr (Bool.of_not_eq_false fun hfalse ↦ hgo ⟨hne, hfalse⟩)

theorem exists_discardLoop (hb : beast.Lawful wellFormed payload)
    (h : Left beast payload left rest s) (ht : discardLoop beast fuel s = .ok t) :
    ∃ reads,
      CppRepo.discardLoop reads ⟨bodyOf (payload s.parser), beast.isDone s.parser⟩ = none := by
  induction fuel generalizing left s with
  | zero => exact absurd ht (by simp [discardLoop, throw, throwThe, MonadExceptOf.throw])
  | succ fuel ih =>
    rw [discardLoop] at ht
    by_cases hdone : beast.isDone s.parser = true
    · exact ⟨[], if_pos hdone⟩
    · rw [if_neg hdone] at ht
      have hleft : left ≠ [] := h.ne_nil hb (Bool.eq_false_of_not_eq_true hdone)
      obtain ⟨taken, left', ec, u, hread, hsome, rfl, hu⟩ :=
        (h.withBody ⟨[], 1024⟩).readSome hb (Nat.succ_ne_zero 1023) hleft
      rw [hread] at ht
      obtain ⟨read, hbody⟩ :=
        hsome.exists_readSome (beast.isDone s.parser) (beast.isDone u.parser)
      rcases hsome.ec_eq with rfl | ⟨rfl, -, -⟩
      · obtain ⟨reads, hreads⟩ := ih hu ht
        refine ⟨read :: reads, ?_⟩
        rw [CppRepo.discardLoop, if_neg hdone, hbody]
        exact hreads
      · obtain ⟨reads, hreads⟩ := ih hu ht
        refine ⟨read :: reads, ?_⟩
        rw [CppRepo.discardLoop, if_neg hdone, hbody]
        exact hreads

/-! ## The connection

The induction is on the list of requests. A turn whose handler fails is the last one; otherwise the
loop that discards has used up the payload, and the next header starts behind it. -/

/-- What is read for each request until `http_ret` is negative. -/
def turnsOf (handler : ℕ → Handler) : ℕ → List Request → List Turn
  | _, [] => []
  | k, r :: rs =>
    ⟨(r :: rs).flatMap Request.bytes, deliveries r.body (handler k).calls⟩ ::
      if (handler k).httpRet < 0 then [] else turnsOf handler (k + 1) rs

variable {handler : ℕ → Handler} {r : Request} {rs : List Request} {turn : Turn}

private theorem turnsOf_getElem? {k i : ℕ} (h : (turnsOf handler k rs)[i]? = some turn)
    (hr : rs[i]? = some r) :
    turn = ⟨(rs.drop i).flatMap Request.bytes, deliveries r.body (handler (k + i)).calls⟩ := by
  induction rs generalizing k i with
  | nil => exact absurd hr (by simp)
  | cons first rs ih =>
    rw [turnsOf] at h
    rcases i with - | i
    · obtain rfl : first = r := by simpa using hr
      exact (by simpa using h : _ = turn).symm
    · split_ifs at h with hret
      · exact absurd h (by simp)
      · rw [List.drop_succ_cons, ih (by simpa using h) (by simpa using hr), Nat.add_assoc,
          Nat.add_comm 1 i]

private theorem lt_length_turnsOf_iff {k i : ℕ} : i < (turnsOf handler k rs).length ↔
    i < rs.length ∧ ∀ j < i, 0 ≤ (handler (k + j)).httpRet := by
  induction rs generalizing k i with
  | nil => simp [turnsOf]
  | cons r rs ih =>
    rw [turnsOf]
    rcases i with - | i
    · simp
    · rw [List.length_cons, List.length_cons, Nat.succ_lt_succ_iff, Nat.succ_lt_succ_iff]
      by_cases hret : (handler k).httpRet < 0
      · rw [if_pos hret]
        refine iff_of_false (Nat.not_lt_zero _) fun h ↦ ?_
        exact absurd hret (not_lt.mpr (h.2 0 (Nat.succ_pos _)))
      · rw [if_neg hret, ih]
        refine and_congr_right fun _ ↦ ⟨fun h j hj ↦ ?_, fun h j hj ↦ ?_⟩
        · rcases j with - | j
          · exact not_lt.mp hret
          · have hrest := h j (Nat.lt_of_succ_lt_succ hj)
            rwa [Nat.add_assoc, Nat.add_comm 1 j] at hrest
        · have hrest := h (j + 1) (Nat.succ_lt_succ hj)
          rwa [← Nat.add_assoc, Nat.add_right_comm] at hrest

/-- **The turns.** -/
theorem serve_eq (hb : beast.Lawful wellFormed payload) (hrs : ∀ r ∈ rs, wellFormed r)
    (hfuel : ∀ r ∈ rs, r.payload.length < fuel) {turns : ℕ} (hturns : rs.length < turns) (k : ℕ)
    {input : Input} (hinput : input.unread = rs.flatMap Request.bytes) :
    serve beast handler fuel turns k input = .ok (turnsOf handler k rs) := by
  induction rs generalizing turns k input with
  | nil =>
    obtain ⟨turns, rfl⟩ := Nat.exists_eq_succ_of_ne_zero (Nat.ne_of_gt hturns)
    obtain ⟨s, hs⟩ := hb.headerEnd input hinput
    rw [serve, hs]
    rfl
  | cons r rs ih =>
    obtain ⟨turns, rfl⟩ := Nat.exists_eq_succ_of_ne_zero (Nat.ne_of_gt (Nat.zero_lt_of_lt hturns))
    obtain ⟨hr, hrs⟩ := List.forall_mem_cons.mp hrs
    obtain ⟨hrFuel, hfuel⟩ := List.forall_mem_cons.mp hfuel
    obtain ⟨s, hs, hunread, hpayload, hkeep⟩ := hb.header r (rs.flatMap Request.bytes) input hr
      (by rw [hinput, List.flatMap_cons])
    have hstart : Left beast payload r.payload (rs.flatMap Request.bytes) s :=
      ⟨hpayload, hunread, hkeep⟩
    obtain ⟨left, t, hreceived, ht, hle⟩ := hstart.recvBodies hb hrFuel (handler k).calls
    -- Whatever the handler has left of the payload is discarded, and the next request follows.
    rw [serve, hs, turnsOf, Request.body]
    simp only [hreceived, bind, Except.bind, hinput]
    by_cases hret : (handler k).httpRet < 0
    · rw [if_pos hret, if_pos hret]
      rfl
    · obtain ⟨u, hdiscard, hu⟩ := ht.discardLoop hb (hle.trans_lt hrFuel)
      have hrest : u.input.unread = rs.flatMap Request.bytes := hu.input
      rw [if_neg hret, if_neg hret, ht.keepAlive]
      simp only [hdiscard, ih hrs hfuel (Nat.lt_of_succ_lt_succ hturns) (k + 1) hrest]
      rfl

/-- **Framing.** On a connection with well-formed requests that keep it open, one after the other,
all loops end. There is a turn for each request up to the first one whose handler fails, its header
is read from the first byte of the request, and the calls of `recv_body` get the first part of its
body, each of them as much as it asks for and is left. -/
theorem handleConnection_framed (hb : beast.Lawful wellFormed payload)
    (hrs : ∀ r ∈ rs, wellFormed r) {input : Input}
    (hinput : input.unread = rs.flatMap Request.bytes) (handler : ℕ → Handler) :
    ∃ enough, ∀ fuel ≥ enough, ∃ turns, handleConnection beast handler fuel input = .ok turns ∧
      (∀ k, k < turns.length ↔ k < rs.length ∧ ∀ j < k, 0 ≤ (handler j).httpRet) ∧
      ∀ k r turn, rs[k]? = some r → turns[k]? = some turn →
        turn.unread = (rs.drop k).flatMap Request.bytes ∧
          Delivers r.body (handler k).calls turn.received := by
  refine ⟨(rs.map fun r ↦ r.payload.length).sum + rs.length + 1, fun fuel hfuel ↦
    ⟨turnsOf handler 0 rs, ?_, fun k ↦ ?_, fun k r turn hr hturn ↦ ?_⟩⟩
  · refine serve_eq hb hrs (fun r hr ↦ ?_) (by omega) 0 hinput
    have hle : r.payload.length ≤ (rs.map fun r ↦ r.payload.length).sum :=
      List.le_sum_of_mem (List.mem_map_of_mem hr)
    omega
  · have hlength : k < (turnsOf handler 0 rs).length ↔
        k < rs.length ∧ ∀ j < k, 0 ≤ (handler (0 + j)).httpRet := lt_length_turnsOf_iff
    simpa only [Nat.zero_add] using hlength
  · rw [turnsOf_getElem? hturn hr, Nat.zero_add]
    exact ⟨rfl, delivers_deliveries r.body _⟩

/-! ## Two requests

A parser that knows two headers, and reads from the stream only what it needs.
-/

/-- Reads until there are `n` bytes in the buffer. -/
def Input.fill (n : ℕ) : Bytes → List Bytes → Input
  | buffer, [] => ⟨buffer, []⟩
  | buffer, read :: reads =>
    if n ≤ buffer.length then ⟨buffer, read :: reads⟩ else fill n (buffer ++ read) reads

private theorem Input.unread_fill (n : ℕ) (buffer : Bytes) (reads : List Bytes) :
    (Input.fill n buffer reads).unread = buffer ++ reads.flatten := by
  induction reads generalizing buffer with
  | nil => rfl
  | cons read reads ih =>
    rw [Input.fill]
    split_ifs
    · rfl
    · rw [ih, List.flatten_cons, List.append_assoc]

private theorem Input.le_length_fill {n : ℕ} {buffer : Bytes} {reads : List Bytes}
    (h : n ≤ (buffer ++ reads.flatten).length) : n ≤ (Input.fill n buffer reads).buffer.length := by
  induction reads generalizing buffer with
  | nil => simpa [Input.fill] using h
  | cons read reads ih =>
    rw [Input.fill]
    split_ifs with hn
    · exact hn
    · refine ih ?_
      rwa [List.flatten_cons, ← List.append_assoc] at h

/-- The input without its first `n` bytes. -/
def Input.consume (n : ℕ) (input : Input) : Input :=
  let filled := Input.fill n input.buffer input.reads
  { filled with buffer := filled.buffer.drop n }

private theorem Input.unread_consume {n : ℕ} {input : Input} (h : n ≤ input.unread.length) :
    (input.consume n).unread = input.unread.drop n := by
  have hfill : (Input.fill n input.buffer input.reads).unread = input.unread :=
    Input.unread_fill n input.buffer input.reads
  have hle : n ≤ (Input.fill n input.buffer input.reads).buffer.length := Input.le_length_fill h
  rw [← hfill]
  exact (List.drop_append_of_le_length hle).symm

def putHead : Bytes := ascii "PUT / HTTP/1.1\r\nContent-Length: 3\r\n\r\n"

def getHead : Bytes := ascii "GET / HTTP/1.1\r\n\r\n"

/-- The payload of a request with a length. -/
def plain (body : Bytes) : List PayloadByte := body.map fun b ↦ ⟨b, true⟩

private theorem wire_plain (body : Bytes) : wire (plain body) = body := by
  rw [wire, plain, List.map_map]
  exact List.map_id body

private theorem bodyOf_plain (body : Bytes) : bodyOf (plain body) = body := by
  rw [bodyOf, plain, List.filter_map, List.map_map]
  simp [Function.comp_def]

/-- The state of this parser is what is left of the body. -/
def twoHeads : Beast Bytes where
  asyncReadHeader input :=
    let parsed (head : Bytes) (length : ℕ) : Option ErrorCode × State Bytes :=
      (none, ⟨input.consume head.length, (input.unread.drop head.length).take length, ⟨[], 0⟩⟩)
    if putHead <+: input.unread then parsed putHead 3
    else if getHead <+: input.unread then parsed getHead 0
    else (some (if input.unread = [] then .endOfStream else .partialMessage), ⟨input, [], ⟨[], 0⟩⟩)
  asyncReadSome s :=
    let input := Input.fill 1 s.input.buffer s.input.reads
    let seen := min s.parser.length input.buffer.length
    let n := min s.body.size seen
    (if n < seen then some .needBuffer else none,
      ⟨{ input with buffer := input.buffer.drop n }, s.parser.drop n,
        ⟨s.body.stored ++ input.buffer.take n, s.body.size - n⟩⟩)
  isDone parser := parser.isEmpty
  keepAlive _ := true

/-- The requests this parser knows. -/
def IsPutOrGet (r : Request) : Prop :=
  (∃ body : Bytes, body.length = 3 ∧ r = ⟨putHead, plain body⟩) ∨ r = ⟨getHead, []⟩

private theorem not_putHead_prefix (rest : Bytes) : ¬ putHead <+: getHead ++ rest := by
  rintro ⟨tail, h⟩
  have hfirst : (putHead ++ tail).head? = (getHead ++ rest).head? := congrArg List.head? h
  exact absurd (Option.some.inj hfirst) (by decide)

private theorem Input.consume_append {input : Input} {first rest : Bytes}
    (h : input.unread = first ++ rest) : (input.consume first.length).unread = rest := by
  have hle : first.length ≤ input.unread.length := by
    rw [h, List.length_append]
    exact Nat.le_add_right _ _
  rw [Input.unread_consume hle, h, List.drop_left' rfl]

private theorem readsSome_twoHeads {s : State Bytes} (hsize : s.body.size ≠ 0)
    (hleft : s.parser ≠ []) (hunread : s.input.unread = s.parser ++ rest) :
    ∃ taken ec t, twoHeads.asyncReadSome s = (ec, t) ∧ ReadsSome plain taken s t ec := by
  have hfill : (Input.fill 1 s.input.buffer s.input.reads).unread = s.parser ++ rest :=
    (Input.unread_fill _ _ _).trans hunread
  have hparser : 0 < s.parser.length := List.length_pos_iff.mpr hleft
  have hbuffer : 1 ≤ (Input.fill 1 s.input.buffer s.input.reads).buffer.length := by
    refine Input.le_length_fill ?_
    have hlength : 1 ≤ (s.parser ++ rest).length := by
      rw [List.length_append]
      omega
    rwa [← hunread] at hlength
  set input := Input.fill 1 s.input.buffer s.input.reads with hinput
  set seen := min s.parser.length input.buffer.length with hseen
  set n := min s.body.size seen with hn
  have hnParser : n ≤ s.parser.length := by omega
  have hnBuffer : n ≤ input.buffer.length := by omega
  -- What the buffer begins with is what is left of the body.
  have htake : input.buffer.take n = s.parser.take n := by
    have htakes := congrArg (List.take n) hfill
    rwa [Input.unread, List.take_append_of_le_length hnBuffer,
      List.take_append_of_le_length hnParser] at htakes
  have hpos : 0 < n := by omega
  refine ⟨plain (s.parser.take n), _, _, rfl, ?_, ?_, ?_, ?_, ?_, ?_⟩
  · rw [plain, ne_eq, List.map_eq_nil_iff, ← List.length_eq_zero_iff, List.length_take]
    omega
  · rw [plain, plain, plain, ← List.map_append]
    exact congrArg (List.map _) (List.take_append_drop n s.parser).symm
  · rw [wire_plain, ← htake, hunread, ← hfill, Input.unread, Input.unread, ← List.append_assoc]
    exact congrArg (· ++ input.reads.flatten) (List.take_append_drop n input.buffer).symm
  · rw [bodyOf_plain, ← htake]
  · rw [bodyOf_plain, List.length_take, Nat.min_eq_left hnParser]
    exact Nat.sub_add_cancel (Nat.min_le_left _ _)
  · by_cases hless : n < seen
    · refine Or.inr ⟨if_pos hless, ?_, ?_⟩
      · have hfull : s.body.size - n = 0 := by omega
        exact hfull
      · rw [bodyOf_plain]
        refine List.ne_nil_of_length_pos ?_
        rw [List.length_drop]
        omega
    · exact Or.inl (if_neg hless)

private theorem lawful_twoHeads : twoHeads.Lawful IsPutOrGet plain := by
  constructor
  · rintro r rest input (⟨body, hbody, rfl⟩ | rfl) hunread
    · rw [Request.bytes, wire_plain, List.append_assoc] at hunread
      have hput : putHead <+: input.unread := ⟨_, hunread.symm⟩
      refine ⟨_, if_pos hput, ?_, ?_, rfl⟩
      · rw [wire_plain]
        exact Input.consume_append hunread
      · refine congrArg plain ?_
        rw [hunread, List.drop_left' rfl, List.take_left' hbody]
    · have hget : input.unread = getHead ++ rest := by
        rw [hunread, Request.bytes]
        exact congrArg (· ++ rest) (List.append_nil getHead)
      have hput : ¬ putHead <+: input.unread := by
        rw [hget]
        exact not_putHead_prefix rest
      refine ⟨_, (if_neg hput).trans (if_pos ⟨rest, hget.symm⟩), ?_, ?_, rfl⟩
      · exact Input.consume_append hget
      · rfl
  · intro input hunread
    have hnone : ∀ c cs, ¬ c :: cs <+: input.unread := by
      intro c cs h
      rw [hunread] at h
      exact absurd (List.prefix_nil.mp h) (List.cons_ne_nil _ _)
    refine ⟨⟨input, [], ⟨[], 0⟩⟩, ?_⟩
    refine ((if_neg (hnone _ _)).trans (if_neg (hnone _ _))).trans ?_
    rw [if_pos hunread]
  · intro s rest hsize hleft hunread
    rw [wire_plain] at hunread
    obtain ⟨taken, ec, t, hread, hsome⟩ :=
      readsSome_twoHeads hsize (fun h ↦ hleft (by rw [h]; rfl)) hunread
    exact ⟨taken, ec, t, hread, hsome, rfl⟩
  · intro parser
    rw [plain, List.map_eq_nil_iff]
    exact List.isEmpty_iff

/-- The body of the first request comes in two pieces, and its last byte is left to the discarding
loop. -/
theorem handleConnection_framed_twoHeads :
    let rs : List Request := [⟨putHead, plain (ascii "abc")⟩, ⟨getHead, []⟩]
    let input : Input := ⟨[], [putHead ++ ascii "a", ascii "bc" ++ getHead]⟩
    let handler : ℕ → Handler := fun k ↦ if k = 0 then ⟨[2], 0⟩ else ⟨[5], 0⟩
    ∃ enough, ∀ fuel ≥ enough, ∃ turns, handleConnection twoHeads handler fuel input = .ok turns ∧
      (∀ k, k < turns.length ↔ k < rs.length ∧ ∀ j < k, 0 ≤ (handler j).httpRet) ∧
      ∀ k r turn, rs[k]? = some r → turns[k]? = some turn →
        turn.unread = (rs.drop k).flatMap Request.bytes ∧
          Delivers r.body (handler k).calls turn.received := by
  intro rs input handler
  refine handleConnection_framed lawful_twoHeads (fun r hr ↦ ?_) ?_ handler
  · rcases List.mem_cons.mp hr with rfl | hr
    · exact Or.inl ⟨ascii "abc", rfl, rfl⟩
    · exact Or.inr (List.mem_singleton.mp hr)
  · decide +kernel

end Framing

end CppRepo
