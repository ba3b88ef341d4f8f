import CppRepo.Library.CLibrary
import CppRepo.Library.Paths

/-!
# A server that sends files

`handle_request` answers one request: it rejects what is no `GET` or `HEAD` and a target that is
not absolute or has two dots in a row, and otherwise opens the file that the target names below
`doc_root`. It calls `send` once, as the last thing it does, so it is modelled by what it sends.
`do_session` reads requests and has them answered until a request does not keep the connection
alive, the client closes its side, or something fails.

## What is given

What the network and the file system do is given to the functions: for each turn of the loop what
`async_read` brings, what opening a file brings, and how the write of the response goes. Every
response also names the version of the library as the server, which is left out.

## Files and their sizes

The size of a file is asked for when it is opened, and the length of the response is this size; the
content is read only while the response is written. So a file may open, and yet not all that was
announced can be read: a directory opens and cannot be read at all, and a file may have become
shorter. `File` keeps both, and a response with a file counts the bytes that will be `missing`. A
response that misses something cannot be written in full, however well the socket does.

## What is written

What goes into the stream are tokens: the fields of a response as one, and each byte of a body. A
response that is written in full leaves all its tokens; a write that fails leaves a beginning of
them, and never the whole response.
-/

namespace CppRepo

namespace FileServer

/-- `req.method()`. -/
inductive Verb
  | get
  | head
  | other
  deriving DecidableEq, Repr

structure Request where
  method : Verb
  target : Bytes
  version : ℕ
  keepAlive : Bool
  deriving DecidableEq, Repr

/-- The fields of a response. -/
structure ResponseHead where
  status : ℕ
  version : ℕ
  contentType : Bytes
  contentLength : Option ℕ
  keepAlive : Bool
  deriving DecidableEq, Repr

structure Response where
  head : ResponseHead
  body : Bytes
  /-- How many bytes of the body cannot be had. -/
  missing : ℕ := 0
  deriving DecidableEq, Repr

/-- A file that was opened: its size at that time, and what can be read of it before reading fails
or ends. -/
structure File where
  size : ℕ
  readable : Bytes
  length_le : readable.length ≤ size

/-- A file that can be read. -/
def File.whole (content : Bytes) : File := ⟨content.length, content, le_rfl⟩

/-- What `body.open` brings: a file or an error. -/
inductive Opened
  | file (f : File)
  | noSuchFile
  | error (what : Bytes)

/-! ## The type of a file

`mime_type` compares the extension with those it knows, without regard to case, one after the
other. -/

/-- The lower case of an ASCII letter. -/
def asciiToLower (c : UInt8) : UInt8 := if 65 ≤ c ∧ c ≤ 90 then c + 32 else c

/-- `beast::iequals`: equal up to the case of ASCII letters. -/
def iequals (a b : Bytes) : Bool := a.map asciiToLower = b.map asciiToLower

/-- The byte before an extension. -/
def dot : UInt8 := 46

/-- What stands behind the last `c`, or the whole text where there is none. -/
def afterLast (c : UInt8) (text : Bytes) : Bytes := (text.reverse.takeWhile (· ≠ c)).reverse

/-- `ext`: the path from the last dot on. -/
def ext (path : Bytes) : Bytes := if dot ∈ path then dot :: afterLast dot path else []

/-- The extensions that `mime_type` tries, in order, and the types they stand for. -/
def mimeTypes : List (Bytes × Bytes) :=
  [(".htm", "text/html"), (".html", "text/html"), (".php", "text/html"), (".css", "text/css"),
    (".txt", "text/plain"), (".js", "application/javascript"), (".json", "application/json"),
    (".xml", "application/xml"), (".swf", "application/x-shockwave-flash"),
    (".flv", "video/x-flv"), (".png", "image/png"), (".jpe", "image/jpeg"),
    (".jpeg", "image/jpeg"), (".jpg", "image/jpeg"), (".gif", "image/gif"),
    (".bmp", "image/bmp"), (".ico", "image/vnd.microsoft.icon"), (".tiff", "image/tiff"),
    (".tif", "image/tiff"), (".svg", "image/svg+xml"), (".svgz", "image/svg+xml")].map
      fun (e, t) ↦ (ascii e, ascii t)

def mimeType (path : Bytes) : Bytes :=
  match mimeTypes.find? fun entry ↦ iequals (ext path) entry.1 with
  | some entry => entry.2
  | none => ascii "application/text"

/-! ## One request

The three errors differ in their status and text. A response with a file tells the size of the file
as its length for `HEAD`, too, and then has no body. -/

/-- `path_cat`, where `BOOST_MSVC` is not defined. -/
def pathCat (base path : Bytes) : Bytes :=
  if base = [] then path
  else if base.getLast? = some slash then base.dropLast ++ path
  else base ++ path

/-- A response with a text: `bad_request`, `not_found` and `server_error`. -/
def textResponse (status : ℕ) (req : Request) (body : Bytes) : Response where
  head :=
    { status
      version := req.version
      contentType := ascii "text/html"
      contentLength := some body.length
      keepAlive := req.keepAlive }
  body := body

def badRequest (req : Request) (why : Bytes) : Response := textResponse 400 req why

def notFound (req : Request) (target : Bytes) : Response :=
  textResponse 404 req (ascii "The resource '" ++ target ++ ascii "' was not found.")

def serverError (req : Request) (what : Bytes) : Response :=
  textResponse 500 req (ascii "An error occurred: '" ++ what ++ ascii "'")

/-- The target is absolute and has no two dots in a row. -/
def LegalTarget (target : Bytes) : Prop := target.head? = some slash ∧ ¬ dotDot <:+: target

instance : DecidablePred LegalTarget := fun _ ↦ inferInstanceAs (Decidable (_ ∧ _))

/-- The path of the requested file. -/
def requestedPath (docRoot target : Bytes) : Bytes :=
  pathCat docRoot target ++ if target.getLast? = some slash then ascii "index.html" else []

/-- The response with a file, whose content is sent for `GET`. -/
def fileResponse (req : Request) (path : Bytes) (f : File) : Response where
  head :=
    { status := 200
      version := req.version
      contentType := mimeType path
      contentLength := some f.size
      keepAlive := req.keepAlive }
  body := if req.method = .head then [] else f.readable
  missing := if req.method = .head then 0 else f.size - f.readable.length

/-- What `handle_request` sends. -/
def handleRequest (docRoot : Bytes) (openFile : Bytes → Opened) (req : Request) : Response :=
  if req.method ≠ .get ∧ req.method ≠ .head then badRequest req (ascii "Unknown HTTP-method")
  else if ¬ LegalTarget req.target then badRequest req (ascii "Illegal request-target")
  else
    let path := requestedPath docRoot req.target
    match openFile (cString path) with
    | .noSuchFile => notFound req req.target
    | .error what => serverError req what
    | .file f => fileResponse req path f

theorem handleRequest_cases (docRoot : Bytes) (openFile : Bytes → Opened) (req : Request) :
    (∃ status body, status ≠ 200 ∧ body ≠ [] ∧
      handleRequest docRoot openFile req = textResponse status req body) ∨
    ∃ f, LegalTarget req.target ∧
      openFile (cString (requestedPath docRoot req.target)) = .file f ∧
      handleRequest docRoot openFile req =
        fileResponse req (requestedPath docRoot req.target) f := by
  have htext (before : Bytes) (after : Bytes) (h : before ≠ []) : before ++ after ≠ [] :=
    List.append_ne_nil_of_left_ne_nil h after
  unfold handleRequest
  split
  case isTrue => exact Or.inl ⟨400, _, by decide, by decide, rfl⟩
  case isFalse =>
    split
    case isTrue => exact Or.inl ⟨400, _, by decide, by decide, rfl⟩
    case isFalse htarget =>
      cases hopen : openFile (cString (requestedPath docRoot req.target)) with
      | file f => exact Or.inr ⟨f, not_not.mp htarget, rfl, by simp only [hopen]⟩
      | noSuchFile =>
        refine Or.inl ⟨404, _, by decide, ?_, by simp only [hopen]; rfl⟩
        exact htext _ _ (htext _ _ (by decide))
      | error what =>
        refine Or.inl ⟨500, _, by decide, ?_, by simp only [hopen]; rfl⟩
        exact htext _ _ (htext _ _ (by decide))

/-! ## A session

The state of a session is what it has sent. It is over when the client has closed its side, when
reading or writing fails, or when a response says that it is the last one. -/

/-- `msg.need_eof()`: only the end of the stream ends the response, or the client asked for it. -/
def ResponseHead.needEof (head : ResponseHead) : Bool :=
  head.contentLength.isNone || !head.keepAlive

/-- What is in the stream: the fields of a response, which end with an empty line, and single bytes
of a body. -/
inductive Token
  | head (head : ResponseHead)
  | byte (b : UInt8)
  deriving DecidableEq, Repr

/-- What there is to write of a response. -/
def Response.tokens (res : Response) : List Token := .head res.head :: res.body.map .byte

/-- What is left in the stream by a write that fails after `n` tokens, or before it has written the
whole response. -/
def Response.part (res : Response) (n : ℕ) : List Token :=
  res.tokens.take (min n (res.tokens.length + res.missing - 1))

/-- How `async_write` goes. -/
structure Write where
  /-- The socket takes what there is to write. -/
  ok : Bool
  /-- How much is written by a write that fails. -/
  count : ℕ

/-- What `async_read` brings. -/
inductive Read
  | request (req : Request)
  | endOfStream
  | error
  deriving DecidableEq, Repr

/-- What the session meets in one turn of its loop. -/
structure Turn where
  read : Read
  openFile : Bytes → Opened
  writes : Write

/-- How a session ends. -/
inductive Ending
  /-- The turns are used up, and the session reads on. -/
  | reading
  /-- The socket is shut down for sending. -/
  | shutdown
  /-- `fail(ec, "read")` -/
  | readFailed
  /-- `fail(ec, "write")` -/
  | writeFailed
  deriving DecidableEq, Repr

/-- A response that could not be written in full. -/
structure Cut where
  req : Request
  res : Response
  /-- What was written of it. -/
  part : List Token

/-- What a session has done. -/
structure Sent where
  /-- The requests with the responses that were written in full. -/
  exchanges : List (Request × Response)
  /-- The response whose write failed. -/
  cut : Option Cut
  ending : Ending

def doSession (docRoot : Bytes) : List Turn → Sent
  | [] => ⟨[], none, .reading⟩
  | turn :: turns =>
    match turn.read with
    | .endOfStream => ⟨[], none, .shutdown⟩
    | .error => ⟨[], none, .readFailed⟩
    | .request req =>
      let res := handleRequest docRoot turn.openFile req
      if turn.writes.ok = false ∨ res.missing ≠ 0 then
        ⟨[], some ⟨req, res, res.part turn.writes.count⟩, .writeFailed⟩
      else if res.head.needEof then ⟨[(req, res)], none, .shutdown⟩
      else
        let sent := doSession docRoot turns
        { sent with exchanges := (req, res) :: sent.exchanges }

end FileServer

end CppRepo
