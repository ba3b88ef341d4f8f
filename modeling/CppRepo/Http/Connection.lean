import CppRepo.Http.ClientIo

/-!
# Serving a connection

`process` answers one request and `handleConnection` reads requests from a stream until it ends.
What one turn of the loop meets is an `Exchange`: the outcome of reading the header, the endpoints,
the body and the reads it arrives in, the clock, and which allocations succeed. A connection is a
list of exchanges; when it is used up the peer has closed the stream.

Neither function catches anything. What a method throws leaves `process`, then `handleConnection`,
then the coroutine `accept` spawned, and then `io_context::run`, which the lambda of a `run()`
thread calls without a handler.
-/

namespace CppRepo

/-! ## One request

The length of an upload goes through `std::stoi`, one is added to it, and then `new char[]` is asked
for that many bytes. Each of the three may fail in its own way, and each failure leaves `putobj`. -/

/-- `new char[n]`, where `n` is an `int`: the memory may not be there. -/
def newCharArray (allocates : ℕ → Bool) (n : ℤ) : Method StreamIo Unit :=
  if n < 0 then throw (.thrown .badArrayNewLength)
  else if allocates n.toNat then return ()
  else throw (.thrown .badAlloc)

/-- Addition of `int`s. -/
def addInt (a b : ℤ) : Method StreamIo ℤ :=
  if -(intMax : ℤ) - 1 ≤ a + b ∧ a + b ≤ intMax then return a + b else throw .undefinedBehaviour

/-- `std::stoi`, throwing. -/
def stoiThrowing (s : Bytes) : Method StreamIo ℤ :=
  match stoi s with
  | .ok n => return n
  | .error .invalidArgument => throw (.thrown .invalidArgument)
  | .error .outOfRange => throw (.thrown .outOfRange)

/-- `putobj`: its return value is the status of the request. -/
def putobj (allocates : ℕ → Bool) : Method StreamIo ℤ := do
  let _ ← StreamIo.client.send100Continue
  match (← get).getVal (ascii "CONTENT_LENGTH") with
  | none => return 400
  | some conlen =>
    let needLen ← stoiThrowing conlen
    let size ← addInt needLen 1
    newCharArray allocates size
    let _ ← StreamIo.client.recvBody (UInt64.ofInt needLen)
    -- the terminating NUL goes to index `need_len`
    if needLen < 0 ∨ size ≤ needLen then
      throw .undefinedBehaviour
    let _ ← StreamIo.client.sendStatus 200 (ascii "OK")
    let _ ← StreamIo.client.sendHeader (ascii "Content-Length") (ascii "0")
    let _ ← StreamIo.client.completeHeader
    let _ ← StreamIo.client.completeRequest
    return 200

/-- `process`, with the value of `http_ret` before and after. A method that is not one of the four
sets it to 400 and then to the zero `ret` still holds. -/
def process (allocates : ℕ → Bool) (method : Verb) (httpRet : ℤ) : Method StreamIo ℤ :=
  match method with
  | .put | .post => putobj allocates
  | .get | .head => return httpRet
  | .other _ => return 0

/-! ## The loop

The errors on which `handle_connection` ends without a word are listed in `silentErrors`. A header
that cannot be parsed is answered with `badRequestText`, unless the error is one of these. After a
request the rest of its message is read and thrown away, so that the next header is found. -/

/-- The outcome of `async_read_header`. A parser that failed still has a version. -/
inductive HeaderRead where
  | failed (ec : ErrorCode) (version : ℕ)
  | parsed (message : Message)

/-- What one turn of the loop meets. -/
structure Exchange where
  header : HeaderRead
  /-- `local_endpoint()` throws when the socket cannot say. -/
  localEndpoint : Except ErrorCode Endpoint
  remoteEndpoint : Endpoint
  body : BodyState
  reads : List ReadSome
  now : Option Tm
  allocates : ℕ → Bool

/-- The errors after which the peer is not answered. -/
def silentErrors : List ErrorCode :=
  [.connectionReset, .badDescriptor, .operationAborted, .endOfStream]

/-- The response to a header that could not be parsed, as Beast serializes it. -/
def badRequestText (version : ℕ) : Bytes :=
  ascii (if version = 10 then "HTTP/1.0" else "HTTP/1.1")
    ++ ascii " 400 Bad Request\r\nContent-Length: 0\r\n\r\n"

/-- The loop that discards what is left of a message, 1024 bytes at a time: the error that ends the
connection, or nothing when the message is complete. -/
def discardLoop : List ReadSome → BodyState → Option ErrorCode
  | [], b => if b.done then none else some .partialMessage
  | r :: reads, b =>
    if b.done then none else
      match b.readSome r 1024 with
      | ((_, none), b) => discardLoop reads b
      | ((_, some .needBuffer), b) => discardLoop reads b
      | ((_, some ec), _) => some ec

/-- The client of a request. The array of its output buffer starts out with nothing that is read. -/
def Exchange.clientIo (x : Exchange) (message : Message) (localEndpoint : Endpoint)
    (stream : Stream) : StreamIo :=
  .new ⟨message, x.body, x.reads⟩ false localEndpoint x.remoteEndpoint x.now
    (Vector.replicate txbufSize.val 0) stream

/-- Runs a program of a client made for this request; what stays is the stream, and the parser. -/
def withClient {α : Type} (make : Stream → StreamIo) (x : Method StreamIo α) :
    EStateM (Fault Exception) Stream (α × Parser) := fun stream ↦
  match x (make stream) with
  | .ok a io => .ok (a, io.parser) io.txbuf.sink
  | .error e io => .error e io.txbuf.sink

/-- A program with an error code, throwing. -/
def orThrow {α : Type} : Except ErrorCode α → EStateM (Fault Exception) Stream α
  | .ok a => return a
  | .error ec => throw (.thrown (.systemError ec))

/-- `handle_connection`. The filters it stacks on the client are not used. -/
def handleConnection : List Exchange → EStateM (Fault Exception) Stream Unit
  | [] => modify (Stream.note .readHeader)
  | x :: xs => do
    modify (Stream.note .readHeader)
    match x.header with
    | .failed ec version =>
      if ec ∈ silentErrors then
        return ()
      -- the outcome of this write is only logged
      modify (Stream.note (.write (badRequestText version)))
    | .parsed message =>
      let localEndpoint ← orThrow x.localEndpoint
      let (httpRet, parser) ← withClient (x.clientIo message localEndpoint) do
        let _ ← ClientIo.initEnv
        process x.allocates message.method 0
      if httpRet < 0 then
        return ()
      if ¬message.keepAlive then
        return ()
      match discardLoop parser.reads parser.body with
      | some _ => return ()
      | none => handleConnection xs

/-! ## The thread

Between the coroutine and the thread there is no handler, so what a request throws ends the process.
This is the only place where the model says what becomes of an exception that nobody catches. -/

/-- The coroutine `accept` spawns for a connection. -/
def connectionCoroutine (xs : List Exchange) : EStateM (Fault Exception) Stream Unit := do
  handleConnection xs
  modify (Stream.note .shutdown)

/-- What becomes of a `run()` thread that runs a coroutine. -/
inductive ThreadOutcome where
  | keepsRunning
  | terminated (fault : Fault Exception)
  deriving DecidableEq, Repr

/-- An exception that leaves a coroutine leaves `io_context::run`, and the lambda of the thread has
no handler. -/
def runThread (xs : List Exchange) (stream : Stream) : ThreadOutcome :=
  match connectionCoroutine xs stream with
  | .ok _ _ => .keepsRunning
  | .error e _ => .terminated e

end CppRepo
