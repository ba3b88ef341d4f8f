import CppRepo.Library.Text
import CppRepo.Library.Transition

/-!
# The asynchronous greeter

A `CallData` serves one call. Its constructor asks the runtime for a call, and the address of the
instance is the tag under which the completion queue later says that the call has come, and then
that the answer has been sent. `HandleRpcs` takes the events from the queue, in any number of
threads, and lets the instances proceed.

A step is one access of a thread to an instance, to the heap or to the runtime, or a step of the
runtime. `new` gives out any address that is free, so also one that was freed before. The runtime
gives a call to any instance that asks for one, and the queue gives out any of its events. A step
that touches an instance that does not exist is not defined. `ok` is false where the call was dead
when its answer was to be sent, and `GPR_ASSERT(ok)` then aborts the process. There is no shutdown.

`ctx` numbers the calls in the order in which the runtime gives them to the instances. `accepted`,
`replies` and `replied` record the past and do not influence the steps.

## A thread inside `Proceed`

`Proceed` of an instance that has been given a call constructs the next instance, and the
constructor calls `Proceed` of its own. So a thread may be in two instances at once; its place names
the one it is in and those whose `Proceed` waits for a constructor to return. Each place but those
in the loop is a statement of `Proceed`, which touches the instance the thread is in.
-/

namespace CppRepo

namespace Greeter

inductive CallStatus
  | create
  | process
  | finish
  deriving DecidableEq, Repr

structure CallData where
  /-- `ctx_`: the call that the runtime has given to the instance. -/
  ctx : Option ℕ := none
  /-- `request_.name()` -/
  request : Bytes := []
  /-- `reply_.message()` -/
  reply : Bytes := []
  status : CallStatus := .create
  /-- `responder_.Finish` has been called. -/
  replied : Bool := false
  deriving DecidableEq, Repr

/-- What a thread does next. `callers` are the instances in whose `Proceed` the thread still is:
the constructor of an instance runs in the `Proceed` of another one. -/
inductive Pc
  /-- `new CallData(&service_, cq_.get())` in `HandleRpcs` -/
  | start
  /-- `cq_->Next(&tag, &ok)` and `GPR_ASSERT(ok)` -/
  | next
  /-- `Proceed`, which looks at `status_` -/
  | proceed (a : ℕ) (callers : List ℕ)
  /-- `status_ = PROCESS` -/
  | setProcess (a : ℕ) (callers : List ℕ)
  /-- `service_->RequestSayHello(&ctx_, &request_, &responder_, cq_, cq_, this)` -/
  | request (a : ℕ) (callers : List ℕ)
  /-- `new CallData(service_, cq_)` in `Proceed` -/
  | spawn (a : ℕ) (callers : List ℕ)
  /-- `reply_.set_message(prefix + request_.name())` -/
  | setMessage (a : ℕ) (callers : List ℕ)
  /-- `status_ = FINISH` -/
  | setFinish (a : ℕ) (callers : List ℕ)
  /-- `responder_.Finish(reply_, Status::OK, this)` -/
  | finish (a : ℕ) (callers : List ℕ)
  /-- `delete this` -/
  | destroy (a : ℕ) (callers : List ℕ)
  deriving DecidableEq, Repr

/-- The instances in whose `Proceed` a thread is. -/
def Pc.frames : Pc → List ℕ
  | .start | .next => []
  | .proceed a callers | .setProcess a callers | .request a callers | .spawn a callers
  | .setMessage a callers | .setFinish a callers | .finish a callers | .destroy a callers =>
    a :: callers

/-- Where a thread goes on when `Proceed` returns: in the `Proceed` that called the constructor, or
in the loop of `HandleRpcs`. -/
def Pc.ret : List ℕ → Pc
  | [] => .next
  | a :: callers => .setMessage a callers

variable {τ : Type*} [DecidableEq τ]

/-- The instances, the threads and the runtime. -/
structure State (τ : Type*) where
  heap : ℕ → Option CallData := fun _ ↦ none
  pc : τ → Pc := fun _ ↦ .start
  /-- The instances for which `RequestSayHello` was called and no call has come. -/
  requests : List ℕ := []
  /-- The instances for which `Finish` was called and no event was queued yet. -/
  finishes : List ℕ := []
  /-- The completion queue. -/
  events : List (ℕ × Bool) := []
  aborted : Bool := false
  /-- The names in the calls that the runtime gave to instances. -/
  accepted : List Bytes := []
  /-- The answers that were passed to `Finish`, with the calls they are for. -/
  replies : List (Option ℕ × Bytes) := []

/-- Who acts. -/
inductive Party (τ : Type*)
  /-- A thread. `choice` is the address that `new` returns, or the event that `Next` takes. -/
  | thread (t : τ) (choice : ℕ)
  /-- The runtime gives a call with this name to the instance of the `k`-th request. -/
  | call (k : ℕ) (name : Bytes)
  /-- The runtime is done with the `k`-th answer. -/
  | done (k : ℕ) (ok : Bool)

def IsInitial (s : State τ) : Prop := s = {}

/-- `std::string prefix("Hello ")` and `prefix + request_.name()`. -/
def greeting (name : Bytes) : Bytes := ascii "Hello " ++ name

/-- Where `Proceed` goes on after it has looked at `status_`. -/
def Pc.branch (status : CallStatus) (a : ℕ) (callers : List ℕ) : Pc :=
  match status with
  | .create => .setProcess a callers
  | .process => .spawn a callers
  | .finish => .destroy a callers

/-- An assignment to a member of an instance. -/
def assign (heap : ℕ → Option CallData) (a : ℕ) (d : CallData) : ℕ → Option CallData :=
  Function.update heap a (some d)

/-- The next step of a thread in `HandleRpcs`. -/
def threadStep (t : τ) (choice : ℕ) (s : State τ) : Option (State τ) :=
  let goTo pc := Function.update s.pc t pc
  match s.pc t with
  | .start =>
    if s.heap choice = none then
      some { s with heap := assign s.heap choice {}, pc := goTo (.proceed choice []) }
    else none
  | .next =>
    s.events[choice]?.map fun event ↦
      if event.2 then
        { s with events := s.events.eraseIdx choice, pc := goTo (.proceed event.1 []) }
      else { s with aborted := true }
  | .proceed a callers =>
    (s.heap a).map fun d ↦ { s with pc := goTo (.branch d.status a callers) }
  | .setProcess a callers =>
    (s.heap a).map fun d ↦
      { s with
        heap := assign s.heap a { d with status := .process }
        pc := goTo (.request a callers) }
  | .request a callers =>
    (s.heap a).map fun _ ↦
      { s with requests := s.requests ++ [a], pc := goTo (.ret callers) }
  | .spawn a callers =>
    (s.heap a).bind fun _ ↦
      if s.heap choice = none then
        some { s with heap := assign s.heap choice {}, pc := goTo (.proceed choice (a :: callers)) }
      else none
  | .setMessage a callers =>
    (s.heap a).map fun d ↦
      { s with
        heap := assign s.heap a { d with reply := greeting d.request }
        pc := goTo (.setFinish a callers) }
  | .setFinish a callers =>
    (s.heap a).map fun d ↦
      { s with
        heap := assign s.heap a { d with status := .finish }
        pc := goTo (.finish a callers) }
  | .finish a callers =>
    (s.heap a).map fun d ↦
      { s with
        heap := assign s.heap a { d with replied := true }
        finishes := s.finishes ++ [a]
        replies := s.replies ++ [(d.ctx, d.reply)]
        pc := goTo (.ret callers) }
  | .destroy a callers =>
    (s.heap a).map fun _ ↦
      { s with heap := Function.update s.heap a none, pc := goTo (.ret callers) }

/-- A call comes, and the runtime writes it into the instance. -/
def callStep (k : ℕ) (name : Bytes) (s : State τ) : Option (State τ) :=
  s.requests[k]?.bind fun a ↦ (s.heap a).map fun d ↦
    { s with
      heap := assign s.heap a { d with ctx := some s.accepted.length, request := name }
      requests := s.requests.eraseIdx k
      events := s.events ++ [(a, true)]
      accepted := s.accepted ++ [name] }

/-- The answer has been sent, or cannot be sent because the call is dead. -/
def doneStep (k : ℕ) (ok : Bool) (s : State τ) : Option (State τ) :=
  s.finishes[k]?.map fun a ↦
    { s with finishes := s.finishes.eraseIdx k, events := s.events ++ [(a, ok)] }

/-- The next step of a party. -/
def act (p : Party τ) (s : State τ) : Option (State τ) :=
  if s.aborted then none
  else
    match p with
    | .thread t choice => threadStep t choice s
    | .call k name => callStep k name s
    | .done k ok => doneStep k ok s

/-- A state that can be reached by the threads and the runtime. -/
def Reached (s : State τ) : Prop := Reachable IsInitial (Acts act) s

end Greeter

end CppRepo
