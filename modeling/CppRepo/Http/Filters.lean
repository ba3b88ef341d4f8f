import CppRepo.Http.Client

/-!
# The filters of the response path

`AccountingFilter`, `ChunkingFilter`, `ConLenControllingFilter` and `ReorderingFilter`, each over an
arbitrary decoratee. A filter is a structure with its own fields and the table of its methods over
those fields and the decoratee's state; the methods it does not override are the decoratee's.

## Nothing is shared between filters

A filter reads and changes its own fields only, and reaches the rest of the stack through the
methods of its decoratee. The specifications of the filters are therefore statements about one
filter over any decoratee, and those of a stack are put together from them by induction on the list
of its filters. The return values are sums of what the decoratee returned, in the arithmetic of
`size_t`: a filter that buffers a call returns zero for it, and one that makes several calls adds
them up.
-/

namespace CppRepo

variable {δ : Type}

/-! ## Accounting

Both directions are counted by the same wrapper, which adds to the total what the method has
returned. A method that throws has returned nothing, so it adds nothing. -/

/-- The fields of `AccountingFilter`, with the values the constructor gives them. -/
structure AccountingFilter where
  enabled : Bool := false
  totalSent : UInt64 := 0
  totalReceived : UInt64 := 0
  deriving DecidableEq, Repr

namespace AccountingFilter

/-- `total_sent += sent`, when accounting is enabled. -/
def addSent (sent : UInt64) (f : AccountingFilter) : AccountingFilter :=
  if f.enabled then { f with totalSent := f.totalSent + sent } else f

/-- `total_received += received`, when accounting is enabled. -/
def addReceived (received : UInt64) (f : AccountingFilter) : AccountingFilter :=
  if f.enabled then { f with totalReceived := f.totalReceived + received } else f

/-- What every sending method of the filter does with the decoratee's method. -/
def accounting (x : Method δ UInt64) : Method (AccountingFilter × δ) UInt64 := do
  let sent ← onDecoratee x
  modifyOwn (addSent sent)
  return sent

/-- The methods of `AccountingFilter`. `flush` is not overridden. -/
def client (d : RestfulClient δ) : RestfulClient (AccountingFilter × δ) :=
  { decoratedRestfulClient d with
    sendStatus := fun status statusName ↦ accounting (d.sendStatus status statusName)
    send100Continue := accounting d.send100Continue
    sendHeader := fun name value ↦ accounting (d.sendHeader name value)
    sendContentLength := fun len ↦ accounting (d.sendContentLength len)
    sendChunkedTransferEncoding := accounting d.sendChunkedTransferEncoding
    completeHeader := accounting d.completeHeader
    recvBody := fun max ↦ do
      let received ← onDecoratee (d.recvBody max)
      modifyOwn (addReceived (UInt64.ofNat received.length))
      return received
    sendBody := fun buf ↦ accounting (d.sendBody buf)
    completeRequest := accounting d.completeRequest }

def getBytesSent (f : AccountingFilter) : UInt64 := f.totalSent

def getBytesReceived (f : AccountingFilter) : UInt64 := f.totalReceived

def setAccount (enabled : Bool) (f : AccountingFilter) : AccountingFilter := { f with enabled }

end AccountingFilter

/-! ## Chunking

The filter is switched on by `send_chunked_transfer_encoding` and never off again. From then on each
`send_body` is three calls on the decoratee: the size in hexadecimal digits, the bytes, and the end
of the line. -/

/-- The field of `ChunkingFilter`, with the value the constructor gives it. -/
structure ChunkingFilter where
  chunkingEnabled : Bool := false
  deriving DecidableEq, Repr

namespace ChunkingFilter

def sendChunkedTransferEncoding (d : RestfulClient δ) : Method (ChunkingFilter × δ) UInt64 := do
  modifyOwn fun f ↦ { f with chunkingEnabled := true }
  onDecoratee (d.sendHeader (ascii "Transfer-Encoding") (ascii "chunked"))

/-- `send_body`. With chunking the size line, the bytes and the line end are three separate calls;
the size line is rendered into an array of 32 characters. -/
def sendBody (d : RestfulClient δ) (buf : Bytes) : Method (ChunkingFilter × δ) UInt64 := do
  if ¬(← ownFields).chunkingEnabled then
    onDecoratee (d.sendBody buf)
  else
    let len := (UInt64.ofNat buf.length).toNat
    let (chunkSize, chunkSizeLen) := snprintf 32 (numeral 16 len ++ crlf)
    let line ← charRange chunkSize chunkSizeLen.toNat
    let sent₁ ← onDecoratee (d.sendBody line)
    let sent₂ ← onDecoratee (d.sendBody buf)
    let sent₃ ← onDecoratee (d.sendBody crlf)
    return sent₁ + sent₂ + sent₃

def completeRequest (d : RestfulClient δ) : Method (ChunkingFilter × δ) UInt64 := do
  let mut sent := 0
  if (← ownFields).chunkingEnabled then
    sent := sent + (← onDecoratee (d.sendBody (ascii "0\r\n\r\n")))
  return sent + (← onDecoratee d.completeRequest)

/-- The methods of `ChunkingFilter`. -/
def client (d : RestfulClient δ) : RestfulClient (ChunkingFilter × δ) :=
  { decoratedRestfulClient d with
    sendChunkedTransferEncoding := sendChunkedTransferEncoding d
    sendBody := sendBody d
    completeRequest := completeRequest d }

end ChunkingFilter

/-! ## Content length

The answer of the filter to `send_content_length` depends on the last status alone. Before there was
one, the length is refused with an error number that is returned as a length. -/

/-- What `send_content_length` is to do. -/
inductive ContentLengthAction where
  | forward
  | inhibit
  | unknown
  deriving DecidableEq, Repr

/-- The field of `ConLenControllingFilter`, with the value the constructor gives it. -/
structure ConLenControllingFilter where
  action : ContentLengthAction := .unknown
  deriving DecidableEq, Repr

/-- The value `(size_t)-EINVAL`. -/
def negEinval : UInt64 := -22

namespace ConLenControllingFilter

/-- RFC 7230 wants no length on a response to these statuses. -/
def actionOf (status : Int32) : ContentLengthAction :=
  if status = 204 ∨ status = 304 then .inhibit else .forward

def sendStatus (d : RestfulClient δ) (status : Int32) (statusName : Bytes) :
    Method (ConLenControllingFilter × δ) UInt64 := do
  modifyOwn fun f ↦ { f with action := actionOf status }
  onDecoratee (d.sendStatus status statusName)

def sendContentLength (d : RestfulClient δ) (len : UInt64) :
    Method (ConLenControllingFilter × δ) UInt64 := do
  match (← ownFields).action with
  | .forward => onDecoratee (d.sendContentLength len)
  | .inhibit => return 0
  | .unknown => return negEinval

/-- The methods of `ConLenControllingFilter`. -/
def client (d : RestfulClient δ) : RestfulClient (ConLenControllingFilter × δ) :=
  { decoratedRestfulClient d with
    sendStatus := sendStatus d
    sendContentLength := sendContentLength d }

end ConLenControllingFilter

/-! ## Reordering

Headers that come before the status wait in `headers`; the status is passed on first, and
`complete_header` sends what has waited. `send_chunked_transfer_encoding` is not overridden, so it
does not wait. -/

/-- How far the head of the response has come. -/
inductive ReorderState where
  | earlyHeaders
  | statusSeen
  | data
  deriving DecidableEq, Repr

/-- The fields of `ReorderingFilter`, with the values the constructor gives them. -/
structure ReorderingFilter where
  phase : ReorderState := .earlyHeaders
  contentLength : Option UInt64 := none
  headers : List (Bytes × Bytes) := []
  deriving DecidableEq, Repr

namespace ReorderingFilter

/-- `send_header`. The source's `return -EIO` after the switch is not reached: the switch covers the
enumeration. -/
def sendHeader (d : RestfulClient δ) (name value : Bytes) :
    Method (ReorderingFilter × δ) UInt64 := do
  match (← ownFields).phase with
  | .earlyHeaders | .statusSeen =>
    modifyOwn fun f ↦ { f with headers := f.headers ++ [(name, value)] }
    return 0
  | .data => onDecoratee (d.sendHeader name value)

def sendStatus (d : RestfulClient δ) (status : Int32) (statusName : Bytes) :
    Method (ReorderingFilter × δ) UInt64 := do
  modifyOwn fun f ↦ { f with phase := .statusSeen }
  onDecoratee (d.sendStatus status statusName)

def sendContentLength (d : RestfulClient δ) (len : UInt64) :
    Method (ReorderingFilter × δ) UInt64 := do
  if (← ownFields).phase = .earlyHeaders then
    modifyOwn fun f ↦ { f with contentLength := some len }
    return 0
  else
    onDecoratee (d.sendContentLength len)

/-- Sends the buffered headers in order and adds up what they generated. -/
def sendBuffered (d : RestfulClient δ) : List (Bytes × Bytes) → Method δ UInt64
  | [] => return 0
  | kv :: headers => do
    let sent ← d.sendHeader kv.1 kv.2
    return sent + (← sendBuffered d headers)

def completeHeader (d : RestfulClient δ) : Method (ReorderingFilter × δ) UInt64 := do
  let mut sent := 0
  modifyOwn fun f ↦ { f with phase := .data }
  if let some len := (← ownFields).contentLength then
    sent := sent + (← onDecoratee (d.sendContentLength len))
  sent := sent + (← onDecoratee (sendBuffered d (← ownFields).headers))
  modifyOwn fun f ↦ { f with headers := [] }
  return sent + (← onDecoratee d.completeHeader)

/-- The methods of `ReorderingFilter`. -/
def client (d : RestfulClient δ) : RestfulClient (ReorderingFilter × δ) :=
  { decoratedRestfulClient d with
    sendHeader := sendHeader d
    sendStatus := sendStatus d
    sendContentLength := sendContentLength d
    completeHeader := completeHeader d }

end ReorderingFilter

/-! ## Stacks

A stack is a list of filters over a base, the outermost first. Its state is nested like the stack
itself, and `stackBase` reads what the innermost object has received. -/

/-- The kinds of filter. -/
inductive FilterKind where
  | accounting
  | chunking
  | conLenControlling
  | reordering
  deriving DecidableEq, Repr

/-- The fields of a filter of each kind. -/
def FilterKind.Fields : FilterKind → Type
  | .accounting => AccountingFilter
  | .chunking => ChunkingFilter
  | .conLenControlling => ConLenControllingFilter
  | .reordering => ReorderingFilter

/-- A filter as constructed. -/
def FilterKind.new : (k : FilterKind) → k.Fields
  | .accounting => ({} : AccountingFilter)
  | .chunking => ({} : ChunkingFilter)
  | .conLenControlling => ({} : ConLenControllingFilter)
  | .reordering => ({} : ReorderingFilter)

/-- The methods of a filter of each kind. -/
def FilterKind.client (d : RestfulClient δ) : (k : FilterKind) → RestfulClient (k.Fields × δ)
  | .accounting => AccountingFilter.client d
  | .chunking => ChunkingFilter.client d
  | .conLenControlling => ConLenControllingFilter.client d
  | .reordering => ReorderingFilter.client d

/-- The state of a stack of filters over a client, the outermost filter first. -/
def StackState (δ : Type) : List FilterKind → Type
  | [] => δ
  | k :: ks => k.Fields × StackState δ ks

/-- The methods of a stack of filters. -/
def stackClient (d : RestfulClient δ) : (ks : List FilterKind) → RestfulClient (StackState δ ks)
  | [] => d
  | k :: ks => k.client (stackClient d ks)

/-- A stack as constructed. -/
def stackNew (s : δ) : (ks : List FilterKind) → StackState δ ks
  | [] => s
  | k :: ks => (k.new, stackNew s ks)

/-- The client at the bottom of a stack. -/
def stackBase : (ks : List FilterKind) → StackState δ ks → δ
  | [], s => s
  | _ :: ks, s => stackBase ks s.2

/-- The stack `handle_connection` builds. -/
def connectionStack : List FilterKind := [.reordering, .chunking, .conLenControlling]

end CppRepo
