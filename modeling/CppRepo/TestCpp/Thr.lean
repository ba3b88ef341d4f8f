import CppRepo.Library.Transition
import CppRepo.Library.RoundRobin

/-!
# A ring of threads that notify each other

Each object has a mutex, a condition variable and a thread, which waits, calls `process()`, and
notifies the next object of the ring, the last the first. `main` creates the threads one after the
other and notifies the first object. Calls of `stop` may come at any time, any number of them for
each object. The ring has `n + 2` objects, so at least two.

A step is one action of one party. `cond.wait(lk)` gives the mutex back and goes to sleep in one
step; a thread that is woken has to take the mutex again. `notify` wakes the thread only if it
sleeps, and takes no lock. A sleeping thread may also wake spuriously, which is a party of its own.

`calls`, `atStop` and `lost` record the past and do not influence the steps.

## Timely notifications

A notification of a thread that does not sleep has no effect, so with it the turn is gone.
`Approaching` are the places before the wait, and a step is timely if it notifies no thread at one
of these, and is not a spurious wakeup of an object that is not stopped. Both conditions are on the
state before the step.
-/

namespace CppRepo

namespace Thr

/-- An object of the ring. -/
abbrev Obj (n : ℕ) := Fin (n + 2)

/-- Who holds the mutex of an object: its thread, or a call of `stop`. -/
inductive Holder
  | thread
  | stopper (k : ℕ)
  deriving DecidableEq, Repr

/-- Who acts. -/
inductive Party (n : ℕ)
  | main
  | thread (i : Obj n)
  /-- a spurious wakeup of the thread -/
  | spurious (i : Obj n)
  | stopper (i : Obj n) (k : ℕ)
  deriving DecidableEq, Repr

/-- What `main` does next. -/
inductive MainPc
  /-- `create` of an object -/
  | create (k : ℕ)
  /-- `notify` of the first object -/
  | notify
  | done
  deriving DecidableEq, Repr

/-- What a thread does next in `run`. -/
inductive RunPc
  | notCreated
  /-- `std::unique_lock<std::mutex> lk{mtx}` -/
  | lock
  /-- `!isstop()` -/
  | testIsstop
  /-- `cond.wait(lk)` -/
  | wait
  /-- asleep in `cond.wait` -/
  | waiting
  /-- awake in `cond.wait`, which takes the mutex again -/
  | woken
  /-- `if (stopped)` -/
  | testStopped
  /-- `process()` -/
  | process
  /-- `next_ptr->notify()` -/
  | notify
  /-- the end of `run`, where `lk` is destroyed -/
  | leave
  | returned
  deriving DecidableEq, Repr

/-- What a call of `stop` does next. -/
inductive StopPc
  | idle
  /-- `std::lock_guard<std::mutex> lock{mtx}` -/
  | lock
  /-- `stopped = true` -/
  | set
  /-- `cond.notify_all()` -/
  | notify
  /-- the end of the body, where `lock` is destroyed -/
  | unlock
  | returned
  deriving DecidableEq, Repr

/-- The objects, and where the threads and the callers are. -/
structure State (n : ℕ) where
  /-- Who holds `mtx`. -/
  owner : Obj n → Option Holder := fun _ ↦ none
  stopped : Obj n → Bool := fun _ ↦ false
  run : Obj n → RunPc := fun _ ↦ .notCreated
  main : MainPc := .create 0
  stops : Obj n → ℕ → StopPc := fun _ _ ↦ .idle
  /-- The calls of `process()`, by the object. -/
  calls : List (Obj n) := []
  /-- How many calls of `process()` there were when the first call of `stop` began. -/
  atStop : Option ℕ := none
  /-- A notification came when the thread of the object was not asleep. -/
  lost : Bool := false

variable {n : ℕ}

def IsInitial (s : State n) : Prop := s = {}

/-- `cond.notify_all()`. -/
def notifyAll (j : Obj n) (s : State n) : State n :=
  { s with run := if s.run j = .waiting then Function.update s.run j .woken else s.run }

/-- `notify`. -/
def notify (j : Obj n) (s : State n) : State n :=
  { notifyAll j s with lost := s.lost || s.run j ≠ .waiting }

/-- The next step of `main`. -/
def mainStep (s : State n) : Option (State n) :=
  match s.main with
  | .create k =>
    if h : k < n + 2 then
      some { s with
        run := Function.update s.run ⟨k, h⟩ .lock
        main := if k + 1 < n + 2 then .create (k + 1) else .notify }
    else none
  | .notify => some { notify 0 s with main := .done }
  | .done => none

/-- The next step of the thread of object `i` in `run`. -/
def runStep (i : Obj n) (s : State n) : Option (State n) :=
  let goTo pc := Function.update s.run i pc
  match s.run i with
  | .notCreated => none
  | .lock =>
    if s.owner i = none then
      some { s with owner := Function.update s.owner i (some .thread), run := goTo .testIsstop }
    else none
  | .testIsstop => some { s with run := goTo (if s.stopped i then .leave else .wait) }
  | .wait => some { s with owner := Function.update s.owner i none, run := goTo .waiting }
  | .waiting => none
  | .woken =>
    if s.owner i = none then
      some { s with owner := Function.update s.owner i (some .thread), run := goTo .testStopped }
    else none
  | .testStopped => some { s with run := goTo (if s.stopped i then .leave else .process) }
  | .process => some { s with calls := s.calls ++ [i], run := goTo .notify }
  | .notify => some (notify (i + 1) { s with run := goTo .testIsstop })
  | .leave => some { s with owner := Function.update s.owner i none, run := goTo .returned }
  | .returned => none

/-- A spurious wakeup of the thread of object `i`. -/
def wakeSpuriously (i : Obj n) (s : State n) : Option (State n) :=
  if s.run i = .waiting then some { s with run := Function.update s.run i .woken } else none

/-- The next step of call `k` of `stop` for object `i`. -/
def stopStep (i : Obj n) (k : ℕ) (s : State n) : Option (State n) :=
  let goTo pc := Function.update s.stops i (Function.update (s.stops i) k pc)
  match s.stops i k with
  | .idle => some { s with stops := goTo .lock, atStop := s.atStop.or (some s.calls.length) }
  | .lock =>
    if s.owner i = none then
      some { s with owner := Function.update s.owner i (some (.stopper k)), stops := goTo .set }
    else none
  | .set => some { s with stopped := Function.update s.stopped i true, stops := goTo .notify }
  | .notify => some { notifyAll i s with stops := goTo .unlock }
  | .unlock => some { s with owner := Function.update s.owner i none, stops := goTo .returned }
  | .returned => none

/-- The next step of a party. -/
def act : Party n → State n → Option (State n)
  | .main, s => mainStep s
  | .thread i, s => runStep i s
  | .spurious i, s => wakeSpuriously i s
  | .stopper i k, s => stopStep i k s

/-- The calls of `process()` up to the first call of `stop`. -/
def callsToStop (s : State n) : List (Obj n) :=
  match s.atStop with
  | none => s.calls
  | some k => s.calls.take k

/-- The thread is on its way to `cond.wait`, from its creation or from the end of a round. -/
def Approaching : RunPc → Prop
  | .notCreated | .lock | .testIsstop | .wait => True
  | _ => False

instance : DecidablePred Approaching := fun pc ↦ by
  cases pc <;> first | exact isTrue trivial | exact isFalse id

/-- The object that a party notifies with its next step. -/
def target : Party n → State n → Option (Obj n)
  | .main, s => if s.main = .notify then some 0 else none
  | .thread i, s => if s.run i = .notify then some (i + 1) else none
  | _, _ => none

/-- No thread wakes spuriously, unless its object is stopped. -/
def NoSpurious : Party n → State n → Prop
  | .spurious i, s => s.stopped i = true
  | _, _ => True

instance (p : Party n) (s : State n) : Decidable (NoSpurious p s) := by
  cases p <;> first | exact isTrue trivial | exact inferInstanceAs (Decidable (_ = true))

/-- Moreover no object is notified while its thread is on its way to `cond.wait`. -/
def Timely (p : Party n) (s : State n) : Prop :=
  NoSpurious p s ∧ ∀ j ∈ target p s, ¬ Approaching (s.run j)

instance (p : Party n) (s : State n) : Decidable (Timely p s) :=
  inferInstanceAs (Decidable (_ ∧ _))

end Thr

end CppRepo
