import CppRepo.Http.StaticOutputBufferer

/-!
# The client object of one request

`ClientIo` (`ClientIO` in the source) renders the response head into an output buffer and passes the
body straight to `write_data`; `StreamIo` (`StreamIO`) adds the two methods that touch the socket.
The state of a client is its fields, with the stream as the state of the buffer's sink, and with the
request parser it holds a reference to.

## The outside world

What Asio and Beast do is given as data. Writes complete with the outcome `writeOutcome` assigns to
their number. A read of the body finds some of the bytes still to come, and may end with an error or
complete the message; once the listed reads are used up the peer is gone. The clock is what
`gmtime_r` makes of it. What the stream was asked to do is kept in a log.
-/

namespace CppRepo

/-! ## Requests

A parser that has read the header holds a `Message`, and what is still to come of the body is in its
`BodyState`. One read stores bytes up to the room it is given; whether it also completes the message
or fails is said by the `ReadSome`. -/

/-- The methods of Beast's `verb` that the code tells apart, and all others by their text. -/
inductive Verb where
  | get
  | head
  | post
  | put
  | other (name : Bytes)
  deriving DecidableEq, Repr

/-- `method_string()`. -/
def Verb.methodString : Verb → Bytes
  | .get => ascii "GET"
  | .head => ascii "HEAD"
  | .post => ascii "POST"
  | .put => ascii "PUT"
  | .other name => name

/-- A header field. -/
structure Field where
  name : Bytes
  value : Bytes
  deriving DecidableEq, Repr

/-- Beast recognizes a field by its name without regard to case. -/
def Field.isNamed (f : Field) (name : Bytes) : Bool := f.name.map toupper = name.map toupper

/-- A parsed header. -/
structure Message where
  method : Verb
  target : Bytes
  /-- `version()`: ten times the major version plus the minor one. -/
  version : ℕ
  fields : List Field
  keepAlive : Bool
  /-- The parser accepts a `Content-Length` only if it is the numeral of a 64-bit number. -/
  contentLength_ok : ∀ f ∈ fields, f.isNamed (ascii "Content-Length") = true →
    ∃ n < 2 ^ 64, readNumeral 10 f.value = some (n, [])

/-- A request of HTTP/1.1 without header fields, which keeps the connection open. -/
def Message.bare (method : Verb) : Message := ⟨method, ascii "/", 11, [], true, by simp⟩

/-- One `async_read_some` as far as it does not depend on the caller's buffer: how many of the body
bytes still to come the parser can see, whether the read fails, and whether the message is then
complete. -/
structure ReadSome where
  avail : ℕ
  ec : Option ErrorCode
  done : Bool
  deriving DecidableEq, Repr

/-- The body of the current message: the bytes not yet stored in a caller's buffer, and
`is_done()`. -/
structure BodyState where
  unread : Bytes
  done : Bool
  deriving DecidableEq, Repr

/-- `async_read_some` with a buffer of the given size: the bytes it stores, its error code, and the
body that is left. It reports `need_buffer` when it sees more than fits. -/
def BodyState.readSome (r : ReadSome) (size : ℕ) (b : BodyState) :
    (Bytes × Option ErrorCode) × BodyState :=
  let seen := b.unread.take r.avail
  let stored := seen.take size
  ((stored, r.ec <|> if size < seen.length then some .needBuffer else none),
    { unread := b.unread.drop stored.length, done := r.done })

/-- The request parser: the header, the state of the body, and the reads still to happen. -/
structure Parser where
  message : Message
  body : BodyState
  reads : List ReadSome

/-! ## The state of a client

The environment is a map without order, as in the source. The buffer of the response is part of the
client, with the stream as its sink, so each method of a client is a program on one state. -/

/-- An address and a port. -/
structure Endpoint where
  address : Bytes
  port : UInt16
  deriving DecidableEq, Repr

/-- The broken-down time `gmtime_r` gives. -/
structure Tm where
  sec : Fin 61
  min : Fin 60
  hour : Fin 24
  mday : Fin 32
  mon : Fin 12
  /-- The full year. -/
  year : ℕ
  wday : Fin 7
  /-- `tm_year` is an `int`. -/
  year_le : year ≤ intMax + 1900
  deriving DecidableEq, Repr

/-- The environment variables of a request. -/
abbrev EnvMap := AList fun _ : Bytes ↦ Bytes

/-- The size of the buffer of a `ClientIo`. -/
def txbufSize : BufferSize := ⟨4096, by decide, by decide⟩

/-- The fields of `ClientIo` over a sink with state `ω`, and the time its clock shows. -/
structure ClientIo (ω : Type) where
  parser : Parser
  isSsl : Bool
  localEndpoint : Endpoint
  remoteEndpoint : Endpoint
  envMap : EnvMap
  now : Option Tm
  txbuf : StaticOutputBufferer txbufSize ω

namespace ClientIo

variable {ω α : Type}

/-- The constructor. -/
def new (parser : Parser) (isSsl : Bool) (localEndpoint remoteEndpoint : Endpoint)
    (now : Option Tm) (array : Vector UInt8 txbufSize.val) (sink : ω) : ClientIo ω where
  parser := parser
  isSsl := isSsl
  localEndpoint := localEndpoint
  remoteEndpoint := remoteEndpoint
  envMap := ∅
  now := now
  txbuf := .new array sink

/-! ## The environment

`initEnv` is run once, before any method of the response. It copies the headers one after another,
so that of two headers with one name the last one counts, and then sets the variables of the request
line, which overwrite what a header has set. -/

/-- The name a header gets in the environment: `HTTP_` and the name in upper case with dashes as
underscores. It passes through a character array, so it ends at a NUL. -/
def httpName (name : Bytes) : Bytes :=
  cString (ascii "HTTP_" ++ name.map fun c ↦ if c = 45 then 95 else toupper c)

/-- What one header does to the environment. -/
def addHeader (env : EnvMap) (f : Field) : EnvMap :=
  if f.isNamed (ascii "Content-Length") then env.insert (ascii "CONTENT_LENGTH") f.value
  else if f.isNamed (ascii "Content-Type") then env.insert (ascii "CONTENT_TYPE") f.value
  else env.insert (httpName f.name) f.value

/-- The variables that do not come from headers, in the order they are set. -/
def addRequestLine (io : ClientIo ω) (env : EnvMap) : EnvMap :=
  let request := io.parser.message
  let version := decimal (request.version / 10) ++ ascii "." ++ decimal (request.version % 10)
  let env := env.insert (ascii "HTTP_VERSION") version
  let env := env.insert (ascii "REQUEST_METHOD") request.method.methodString
  -- the target up to the first question mark, and what follows it
  let uri := request.target.takeWhile (· ≠ 63)
  let env := if uri.length < request.target.length then
      env.insert (ascii "QUERY_STRING") (request.target.drop (uri.length + 1))
    else env
  let env := env.insert (ascii "SCRIPT_URI") uri
  let env := env.insert (ascii "REQUEST_URI") request.target
  let portBuf := cString (snprintf 16 (decimal io.localEndpoint.port.toNat)).1
  let env := env.insert (ascii "SERVER_PORT") portBuf
  let env := if io.isSsl then env.insert (ascii "SERVER_PORT_SECURE") portBuf else env
  env.insert (ascii "REMOTE_ADDR") io.remoteEndpoint.address

/-- `init_env`. -/
def initEnv : Method (ClientIo ω) ℤ := do
  modify fun io ↦
    { io with envMap := io.addRequestLine (io.parser.message.fields.foldl addHeader io.envMap) }
  return 0

/-- `get_val`. -/
def getVal (io : ClientIo ω) (name : Bytes) : Option Bytes := io.envMap.lookup name

/-! ## The response

Each method renders its text with `snprintf` or `std::string` as the source does, puts it into the
buffer, and returns the number of bytes. Only `send_body` does not touch the buffer. -/

/-- A member of `txbuf`, as a part of a method of the client. -/
def onTxbuf (x : StaticOutputBufferer.Member txbufSize ω α) : Method (ClientIo ω) α :=
  zoom (·.txbuf) (fun b io ↦ { io with txbuf := b }) x

/-- `txbuf.sputn` of a whole string. -/
def putText (sink : BuffererSink ω) (text : Bytes) : Method (ClientIo ω) UInt64 := do
  return UInt64.ofNat (← onTxbuf (StaticOutputBufferer.sputn sink text))

/-- `txbuf.sputn` of the first `n` characters of an array: none if `n` is not positive. -/
def putArray (sink : BuffererSink ω) (array : Bytes) (n : ℤ) : Method (ClientIo ω) UInt64 := do
  let text ← charRange array n.toNat
  putText sink text

def flush (sink : BuffererSink ω) : Method (ClientIo ω) Unit := do
  let _ ← onTxbuf (StaticOutputBufferer.pubsync sink)

def completeRequest : Method (ClientIo ω) UInt64 := pure 0

/-- The status line, as the format renders it. -/
def statusLine (status : Int32) (statusName : Bytes) : Bytes :=
  ascii "HTTP/1.1 " ++ decimal status.toInt ++ ascii " " ++ cString statusName ++ crlf

def sendStatus (sink : BuffererSink ω) (status : Int32) (statusName : Bytes) :
    Method (ClientIo ω) UInt64 := do
  let (statusbuf, statuslen) := snprintf 128 (statusLine status statusName)
  putArray sink statusbuf statuslen

def continueText : Bytes := ascii "HTTP/1.1 100 CONTINUE\r\n\r\n"

def send100Continue (sink : BuffererSink ω) : Method (ClientIo ω) UInt64 := do
  let sent ← putText sink continueText
  flush sink
  return sent

/-- The names `%a` and `%b` take in the C locale. -/
def dayNames : List String := ["Sun", "Mon", "Tue", "Wed", "Thu", "Fri", "Sat"]

def monthNames : List String :=
  ["Jan", "Feb", "Mar", "Apr", "May", "Jun", "Jul", "Aug", "Sep", "Oct", "Nov", "Dec"]

/-- A two-digit field of `strftime`. -/
def twoDigits (n : ℕ) : Bytes := [digitByte (n / 10), digitByte (n % 10)]

/-- The text of the date header: the format `Date: %a, %d %b %Y %H:%M:%S %Z` and a line end. -/
def dateText (t : Tm) : Bytes :=
  ascii "Date: " ++ ascii (dayNames.getD t.wday "?") ++ ascii ", " ++ twoDigits t.mday ++ ascii " "
    ++ ascii (monthNames.getD t.mon "?") ++ ascii " " ++ decimal t.year ++ ascii " "
    ++ twoDigits t.hour ++ ascii ":" ++ twoDigits t.min ++ ascii ":" ++ twoDigits t.sec
    ++ ascii " GMT" ++ crlf

/-- `dump_date_header`: the text in the array, or nothing where the function returns zero. The array
has 128 characters. -/
def dumpDateHeader : Option Tm → Option Bytes
  | none => none
  | some t => if (dateText t).length < 128 then some (dateText t) else none

/-- The header that says whether the connection stays open. -/
def connectionText (keepAlive : Bool) : Bytes :=
  if keepAlive then ascii "Connection: Keep-Alive\r\n" else ascii "Connection: close\r\n"

def completeHeader (sink : BuffererSink ω) : Method (ClientIo ω) UInt64 := do
  let mut sent := 0
  if let some timestr := dumpDateHeader (← get).now then
    sent := sent + (← putText sink (cString timestr))
  sent := sent + (← putText sink (connectionText (← get).parser.message.keepAlive))
  sent := sent + (← putText sink crlf)
  flush sink
  return sent

def sendHeader (sink : BuffererSink ω) (name value : Bytes) : Method (ClientIo ω) UInt64 := do
  let mut sent := 0
  sent := sent + (← putText sink name)
  sent := sent + (← putText sink (ascii ": "))
  sent := sent + (← putText sink value)
  sent := sent + (← putText sink crlf)
  return sent

/-- The content length header, as the format renders it. -/
def contentLengthText (len : UInt64) : Bytes :=
  ascii "Content-Length: " ++ numeral 10 len.toNat ++ crlf

def sendContentLength (sink : BuffererSink ω) (len : UInt64) : Method (ClientIo ω) UInt64 := do
  let (sizebuf, sizelen) := snprintf 128 (contentLengthText len)
  putArray sink sizebuf sizelen

/-- `write_data`, on the sink's own state. -/
def writeData (sink : BuffererSink ω) (buf : Bytes) : Method (ClientIo ω) UInt64 :=
  onTxbuf (zoom (·.sink) (fun w b ↦ { b with sink := w })
    (mapError Fault.thrown (sink.writeData buf)))

def sendBody (sink : BuffererSink ω) (buf : Bytes) : Method (ClientIo ω) UInt64 :=
  writeData sink buf

/-- The methods of `ClientIo`, given the two it leaves abstract. -/
def client (sink : BuffererSink ω) (recvBody : UInt64 → Method (ClientIo ω) Bytes) :
    RestfulClient (ClientIo ω) where
  send100Continue := send100Continue sink
  sendStatus := sendStatus sink
  sendHeader := sendHeader sink
  sendContentLength := sendContentLength sink
  completeHeader := completeHeader sink
  recvBody := recvBody
  sendBody := sendBody sink
  flush := flush sink
  completeRequest := completeRequest

end ClientIo

/-! ## The stream

A write is noted in the log whether it succeeds or not, for the bytes were handed over. `Event` also
has what the loop of the connection does with the stream, so that the order of reads and writes can
be told from the log. -/

/-- What a connection does with its stream. -/
inductive Event where
  | readHeader
  | write (buf : Bytes)
  | shutdown
  deriving DecidableEq, Repr

/-- The buffer of a write. -/
def Event.written? : Event → Option Bytes
  | .write buf => some buf
  | _ => none

/-- The stream of a connection: what was done with it, oldest first, and how its writes complete. -/
structure Stream where
  log : List Event
  /-- The error of the `n`-th `async_write`, or nothing if it writes the whole buffer. -/
  writeOutcome : ℕ → Option ErrorCode

namespace Stream

/-- The buffers handed to `async_write`. -/
def written (s : Stream) : List Bytes := s.log.filterMap Event.written?

/-- Appends to the log. -/
def note (e : Event) (s : Stream) : Stream := { s with log := s.log ++ [e] }

/-- A stream on which nothing was done, and on which no write fails. -/
def fresh : Stream := ⟨[], fun _ ↦ none⟩

/-- `StreamIO::write_data`. -/
def writeData (buf : Bytes) : EStateM Exception Stream UInt64 := do
  let s ← get
  let ec := s.writeOutcome s.written.length
  modify (note (.write buf))
  match ec with
  | some ec =>
    if ec = .brokenPipe then
      modify (note .shutdown)
    throw (.systemError ec)
  | none => return UInt64.ofNat buf.length

/-- The stream as the sink of an output buffer. -/
def sink : BuffererSink Stream := ⟨writeData⟩

end Stream

/-- `StreamIo`: a client whose sink is the stream. -/
abbrev StreamIo := ClientIo Stream

namespace StreamIo

/-- The loop of `recv_body`, with the bytes stored so far: it ends when the buffer is full, when the
message is complete, when the parser needs another buffer, or with an error. -/
def recvLoop : List ReadSome → ℕ → Bytes → BodyState →
    Except ErrorCode Bytes × List ReadSome × BodyState
  | [], size, got, b =>
    if size = 0 ∨ b.done then (.ok got, [], b) else (.error .partialMessage, [], b)
  | r :: reads, size, got, b =>
    if size = 0 ∨ b.done then (.ok got, r :: reads, b) else
      match b.readSome r size with
      | ((stored, none), b) => recvLoop reads (size - stored.length) (got ++ stored) b
      | ((stored, some .needBuffer), b) => (.ok (got ++ stored), reads, b)
      | ((_, some ec), b) => (.error ec, reads, b)

/-- `recv_body`: the bytes stored in a buffer of the given size. -/
def recvBody (max : UInt64) : Method StreamIo Bytes := do
  let io ← get
  let (result, reads, body) := recvLoop io.parser.reads max.toNat [] io.parser.body
  set { io with parser := { io.parser with reads, body } }
  match result with
  | .ok got => return got
  | .error ec => throw (.thrown (.systemError ec))

/-- The methods of `StreamIo`. -/
def client : RestfulClient StreamIo := ClientIo.client Stream.sink recvBody

/-- The client of a request without header fields and body, on a fresh stream. -/
def bare : StreamIo :=
  .new ⟨.bare .get, ⟨[], true⟩, []⟩ false ⟨[], 0⟩ ⟨[], 0⟩ none (Vector.replicate txbufSize.val 0)
    .fresh

end StreamIo

end CppRepo
