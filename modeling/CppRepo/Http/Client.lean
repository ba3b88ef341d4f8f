import CppRepo.Library.CLibrary

/-!
# The RESTful client interface and its decorators

`RestfulClient` is the abstract class the response of a request goes through, as a table of methods
over the state of the object that implements it. Each method returns a number of bytes or throws.

A decorator holds a decoratee. Its state is its own fields next to the decoratee's state, and
`DecoratedRestfulClient` is the table that passes every method on; a filter is that table with some
methods overridden, as in the source.

`Call` names one call of a method with its arguments, so that sequences of calls can be quantified
over, and `recorded` keeps the calls an object received.
-/

namespace CppRepo

/-! ## Errors

What a method may throw is one type for all clients: an error code of the socket, or one of the
exceptions of the standard library that its body can raise. Undefined behaviour is not among these.
It is a fault of its own, so that no handler of the source can catch it. -/

/-- The error codes of Asio and Beast that the code tells apart, and all others. -/
inductive ErrorCode where
  | connectionReset
  | badDescriptor
  | operationAborted
  | endOfStream
  | needBuffer
  | brokenPipe
  | partialMessage
  | other (value : ℕ)
  deriving DecidableEq, Repr

/-- The exceptions thrown on the request path. -/
inductive Exception where
  | systemError (ec : ErrorCode)
  | invalidArgument
  | outOfRange
  | badAlloc
  | badArrayNewLength
  deriving DecidableEq, Repr

/-- A method body: it works on the object's state, and ends with a value or a fault. -/
abbrev Method (σ α : Type) := EStateM (Fault Exception) σ α

/-! ## The interface

The interface is a table, and not a class of Lean, because a filter changes single entries of it. A
call with its arguments is a value, and `invoke` is the one place that turns it into a method; what
holds of every call is then proved by cases on `Call`. -/

/-- The methods of `RestfulClient`. `recvBody` is given the size of the caller's buffer and returns
the bytes it stored there. -/
structure RestfulClient (σ : Type) where
  send100Continue : Method σ UInt64
  sendStatus : Int32 → Bytes → Method σ UInt64
  sendHeader : Bytes → Bytes → Method σ UInt64
  sendContentLength : UInt64 → Method σ UInt64
  /-- The null implementation of the base class. -/
  sendChunkedTransferEncoding : Method σ UInt64 := pure 0
  completeHeader : Method σ UInt64
  recvBody : UInt64 → Method σ Bytes
  sendBody : Bytes → Method σ UInt64
  flush : Method σ Unit
  completeRequest : Method σ UInt64

/-- A call of a method of the response path. -/
inductive Call where
  | send100Continue
  | sendStatus (status : Int32) (statusName : Bytes)
  | sendHeader (name value : Bytes)
  | sendContentLength (len : UInt64)
  | sendChunkedTransferEncoding
  | completeHeader
  | sendBody (buf : Bytes)
  | flush
  | completeRequest
  deriving DecidableEq, Repr

/-- Makes a call. `flush` returns nothing, which counts as no bytes. -/
def RestfulClient.invoke {σ : Type} (d : RestfulClient σ) : Call → Method σ UInt64
  | .send100Continue => d.send100Continue
  | .sendStatus status statusName => d.sendStatus status statusName
  | .sendHeader name value => d.sendHeader name value
  | .sendContentLength len => d.sendContentLength len
  | .sendChunkedTransferEncoding => d.sendChunkedTransferEncoding
  | .completeHeader => d.completeHeader
  | .sendBody buf => d.sendBody buf
  | .flush => do d.flush; return 0
  | .completeRequest => d.completeRequest

/-! ## Decorators

Each layer sees only its own half of the state. `onDecoratee` and `ownFields` are the two ways to
act on it, and their rules for `Ensures` are simp lemmas, so the body of a filter is taken apart
without unfolding either. -/

variable {φ δ α : Type}

/-- A method body of the decoratee, run on the decoratee inside the decorator. -/
def onDecoratee (x : Method δ α) : Method (φ × δ) α := zoom Prod.snd (fun t s ↦ (s.1, t)) x

@[simp] theorem ensures_onDecoratee {x : Method δ α} {s : φ × δ} {Q : α → φ × δ → Prop}
    {E : Fault Exception → φ × δ → Prop} :
    Ensures (onDecoratee x) s Q E
      ↔ Ensures x s.2 (fun a t ↦ Q a (s.1, t)) fun e t ↦ E e (s.1, t) := by
  rw [onDecoratee, ensures_zoom]

/-- Reads the decorator's own fields. -/
def ownFields : Method (φ × δ) φ := do return (← get).1

/-- Updates the decorator's own fields. -/
def modifyOwn (f : φ → φ) : Method (φ × δ) Unit := modify fun s ↦ (f s.1, s.2)

@[simp] theorem ensures_ownFields {s : φ × δ} {Q : φ → φ × δ → Prop}
    {E : Fault Exception → φ × δ → Prop} : Ensures ownFields s Q E ↔ Q s.1 s := Iff.rfl

@[simp] theorem ensures_modifyOwn {f : φ → φ} {s : φ × δ} {Q : Unit → φ × δ → Prop}
    {E : Fault Exception → φ × δ → Prop} :
    Ensures (modifyOwn f) s Q E ↔ Q () (f s.1, s.2) := Iff.rfl

/-- `DecoratedRestfulClient`: every method is the decoratee's. -/
def decoratedRestfulClient (d : RestfulClient δ) : RestfulClient (φ × δ) where
  send100Continue := onDecoratee d.send100Continue
  sendStatus status statusName := onDecoratee (d.sendStatus status statusName)
  sendHeader name value := onDecoratee (d.sendHeader name value)
  sendContentLength len := onDecoratee (d.sendContentLength len)
  sendChunkedTransferEncoding := onDecoratee d.sendChunkedTransferEncoding
  completeHeader := onDecoratee d.completeHeader
  recvBody max := onDecoratee (d.recvBody max)
  sendBody buf := onDecoratee (d.sendBody buf)
  flush := onDecoratee d.flush
  completeRequest := onDecoratee d.completeRequest

theorem decoratedRestfulClient_invoke (d : RestfulClient δ) (c : Call) :
    (decoratedRestfulClient (φ := φ) d).invoke c = onDecoratee (d.invoke c) := by
  cases c with
  | flush =>
    funext s
    simp only [RestfulClient.invoke, decoratedRestfulClient, onDecoratee, zoom, bind,
      EStateM.bind]
    cases d.flush s.2 <;> rfl
  | _ => rfl

/-! ## Recording

A recorded object is the object with the list of its calls next to its state. The recording does not
look at the results, and it notes a call before it is made: one that throws was received, too. -/

/-- Notes a call before it is made. -/
def noting (c : Call) (x : Method (List Call × δ) α) : Method (List Call × δ) α := do
  modifyOwn (· ++ [c])
  x

/-- An object that keeps, oldest first, the calls it received, and otherwise behaves as `d`. -/
def recorded (d : RestfulClient δ) : RestfulClient (List Call × δ) where
  send100Continue := noting .send100Continue (onDecoratee d.send100Continue)
  sendStatus status statusName :=
    noting (.sendStatus status statusName) (onDecoratee (d.sendStatus status statusName))
  sendHeader name value := noting (.sendHeader name value) (onDecoratee (d.sendHeader name value))
  sendContentLength len := noting (.sendContentLength len) (onDecoratee (d.sendContentLength len))
  sendChunkedTransferEncoding :=
    noting .sendChunkedTransferEncoding (onDecoratee d.sendChunkedTransferEncoding)
  completeHeader := noting .completeHeader (onDecoratee d.completeHeader)
  recvBody max := onDecoratee (d.recvBody max)
  sendBody buf := noting (.sendBody buf) (onDecoratee (d.sendBody buf))
  flush := noting .flush (onDecoratee d.flush)
  completeRequest := noting .completeRequest (onDecoratee d.completeRequest)

@[simp] theorem ensures_noting {c : Call} {x : Method (List Call × δ) α} {s : List Call × δ}
    {Q : α → List Call × δ → Prop} {E : Fault Exception → List Call × δ → Prop} :
    Ensures (noting c x) s Q E ↔ Ensures x (s.1 ++ [c], s.2) Q E := by
  rw [noting, ensures_bind, ensures_modifyOwn]

theorem ensures_recorded_iff {d : RestfulClient δ} {c : Call} {s : List Call × δ}
    {Q : UInt64 → List Call × δ → Prop} {E : Fault Exception → List Call × δ → Prop} :
    Ensures ((recorded d).invoke c) s Q E ↔ Ensures (d.invoke c) s.2
      (fun n t ↦ Q n (s.1 ++ [c], t)) fun e t ↦ E e (s.1 ++ [c], t) := by
  cases c with
  | flush =>
    simp only [RestfulClient.invoke, recorded, ensures_bind, ensures_noting, ensures_onDecoratee,
      ensures_pure]
  | _ => simp only [RestfulClient.invoke, recorded, ensures_noting, ensures_onDecoratee]

/-- The bytes a `send_body` call carries. -/
def Call.body? : Call → Option Bytes
  | .sendBody buf => some buf
  | _ => none

/-- What the `send_body` calls carried, in order. -/
def bodyBytes (calls : List Call) : Bytes := (calls.filterMap Call.body?).flatten

@[simp] theorem bodyBytes_nil : bodyBytes [] = [] := rfl

@[simp] theorem bodyBytes_append (cs ds : List Call) :
    bodyBytes (cs ++ ds) = bodyBytes cs ++ bodyBytes ds := by
  rw [bodyBytes, List.filterMap_append, List.flatten_append, ← bodyBytes, ← bodyBytes]

end CppRepo
