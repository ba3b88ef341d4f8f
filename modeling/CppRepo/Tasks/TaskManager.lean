import CppRepo.Library.Transition

/-!
# The task manager with a condition variable

A worker thread runs `entry`, and any number of threads call `add_task` and `stop`. There are two
versions of the code: in the first the worker takes the lock again at the end of each round, in the
second `stop` tests `stopped` before it takes the lock and the worker's lock stays released. The
model has a switch for each of the two differences.

A step is one action of one party on what they share: the mutex, `stopped`, and `task`. A party that
needs the mutex while it is taken has no step. `cond.wait(lock, pred)` tests `pred` and, while it is
false, gives the mutex back, sleeps, and takes the mutex again. A sleeper may wake at any time,
since wakeups may be spurious; `notify_all` has then no effect of its own and is left out. A wait or
an `unlock` with a lock that does not own the mutex ends the program: the first is undefined
behaviour, the second throws `std::system_error` in a thread that does not catch it.

A call of `add_task` is known by its number, which also stands for its task. What the worker does
when it runs a task is up to the task and not part of the state. `pushed`, `ran`, `rounds` and
`pushedAtTest` record the past and do not influence the steps.

## Frames

The worker does not set the flag and pushes nothing, a call of `add_task` neither sets the flag nor
runs anything, and `stop` leaves all tasks where they are. There is a frame for each party that says
so, and a list of the moves of the worker and of `add_task`; the modules below argue with these.
-/

namespace CppRepo

namespace Tasks

/-- Which version of the code. -/
structure Variant where
  /-- The worker takes the lock again at the end of a round. -/
  relocks : Bool
  /-- `stop` returns at once if `stopped` is set. -/
  stopTests : Bool

/-- The version of `test_cp.cc`. -/
def testCp : Variant := ⟨false, true⟩

/-- Who acts. -/
inductive Party
  | worker
  | adder (i : ℕ)
  | stopper (i : ℕ)
  deriving DecidableEq, Repr

/-- What the worker does next. -/
inductive WorkerPc
  /-- `std::unique_lock<std::mutex> lock{mtx}` -/
  | start
  /-- `!stopped`, in the condition of the loop -/
  | testStopped
  /-- `!task.empty()`, in the condition of the loop -/
  | testEmpty
  /-- `cond.wait(lock, pred)`: `!task.empty()`, in the predicate -/
  | predEmpty
  /-- `stopped`, in the predicate; the mutex is given back if both are false -/
  | predStopped
  /-- asleep in `cond.wait` -/
  | waiting
  /-- `tmp.swap(task)` -/
  | swap
  /-- `lock.unlock()` -/
  | unlock (tmp : List ℕ)
  /-- `_process(tmp)`, with the tasks that are still to be run -/
  | process (tsk : List ℕ)
  /-- `lock.lock()` -/
  | relock
  /-- the end of `entry`, where `lock` is destroyed -/
  | leave
  | returned
  /-- the program has ended -/
  | terminated
  deriving DecidableEq, Repr

/-- What a call of `add_task` does next. -/
inductive AddPc
  | idle
  /-- `if (stopped)` -/
  | test
  /-- `std::lock_guard<std::mutex> lock{mtx}` -/
  | lock
  /-- `task.push_back(ts)` -/
  | push
  /-- the end of the block, where `lock` is destroyed -/
  | unlock
  | returned (r : ℤ)
  deriving DecidableEq, Repr

/-- What a call of `stop` does next. -/
inductive StopPc
  | idle
  /-- `if (stopped)` -/
  | test
  /-- `std::lock_guard<std::mutex> lock{mtx}` -/
  | lock
  /-- `stopped = true` -/
  | set
  /-- the end of the body, where `lock` is destroyed -/
  | unlock
  | returned
  deriving DecidableEq, Repr

/-- `TaskManager`, and where its callers and its worker are. -/
structure State where
  /-- Who holds `mtx`. -/
  owner : Option Party := none
  stopped : Bool := false
  task : List ℕ := []
  worker : WorkerPc := .start
  adds : ℕ → AddPc := fun _ ↦ .idle
  stops : ℕ → StopPc := fun _ ↦ .idle
  /-- The tasks in the order they were pushed. -/
  pushed : List ℕ := []
  /-- The tasks in the order they were run. -/
  ran : List ℕ := []
  /-- How many rounds are over. -/
  rounds : ℕ := 0
  /-- What had been pushed when the condition of the loop last tested `task.empty()`. -/
  pushedAtTest : List ℕ := []

/-- The manager when its thread is created: it is made by `std::make_shared`, which sets `stopped`
to zero. -/
def IsInitial (s : State) : Prop := s = {}

variable (v : Variant)

/-- The next step of the worker. -/
def workerStep (s : State) : Option State :=
  match s.worker with
  | .start =>
    if s.owner = none then some { s with owner := some .worker, worker := .testStopped } else none
  | .testStopped => some { s with worker := if s.stopped then .testEmpty else .predEmpty }
  | .testEmpty =>
    some { s with pushedAtTest := s.pushed, worker := if s.task = [] then .leave else .predEmpty }
  | .predEmpty => some { s with worker := if s.task = [] then .predStopped else .swap }
  | .predStopped =>
    if s.stopped then some { s with worker := .swap }
    else if s.owner = some .worker then some { s with owner := none, worker := .waiting }
    else some { s with worker := .terminated }
  | .waiting =>
    if s.owner = none then some { s with owner := some .worker, worker := .predEmpty } else none
  | .swap => some { s with task := [], worker := .unlock s.task }
  | .unlock tmp =>
    if s.owner = some .worker then some { s with owner := none, worker := .process tmp }
    else some { s with worker := .terminated }
  | .process [] =>
    some { s with rounds := s.rounds + 1, worker := if v.relocks then .relock else .testStopped }
  | .process (t :: tsk) => some { s with ran := s.ran ++ [t], worker := .process tsk }
  | .relock =>
    if s.owner = none then some { s with owner := some .worker, worker := .testStopped } else none
  | .leave =>
    some { s with
      owner := if s.owner = some .worker then none else s.owner
      worker := .returned }
  | .returned => none
  | .terminated => none

/-- The next step of call `i` of `add_task`. -/
def addStep (i : ℕ) (s : State) : Option State :=
  match s.adds i with
  | .idle => some { s with adds := Function.update s.adds i .test }
  | .test =>
    some { s with adds := Function.update s.adds i (if s.stopped then .returned (-1) else .lock) }
  | .lock =>
    if s.owner = none then
      some { s with owner := some (.adder i), adds := Function.update s.adds i .push }
    else none
  | .push =>
    some { s with
      task := s.task ++ [i]
      pushed := s.pushed ++ [i]
      adds := Function.update s.adds i .unlock }
  | .unlock => some { s with owner := none, adds := Function.update s.adds i (.returned 0) }
  | .returned _ => none

/-- The next step of call `i` of `stop`. -/
def stopStep (i : ℕ) (s : State) : Option State :=
  match s.stops i with
  | .idle =>
    some { s with stops := Function.update s.stops i (if v.stopTests then .test else .lock) }
  | .test =>
    some { s with stops := Function.update s.stops i (if s.stopped then .returned else .lock) }
  | .lock =>
    if s.owner = none then
      some { s with owner := some (.stopper i), stops := Function.update s.stops i .set }
    else none
  | .set => some { s with stopped := true, stops := Function.update s.stops i .unlock }
  | .unlock => some { s with owner := none, stops := Function.update s.stops i .returned }
  | .returned => none

/-- The next step of a party, as long as the program has not ended. -/
def act (p : Party) (s : State) : Option State :=
  if s.worker = .terminated then none
  else
    match p with
    | .worker => workerStep v s
    | .adder i => addStep i s
    | .stopper i => stopStep v i s

theorem alive_of_act {v : Variant} {p : Party} {s t : State} (h : act v p s = some t) :
    s.worker ≠ .terminated := by
  intro hw
  rw [act.eq_def, if_pos hw] at h
  exact Option.some_ne_none t h.symm

theorem act_of_alive {v : Variant} {p : Party} {s : State} (h : s.worker ≠ .terminated) :
    act v p s = match p with
      | .worker => workerStep v s
      | .adder i => addStep i s
      | .stopper i => stopStep v i s := by
  rw [act.eq_def, if_neg h]

/-- A step of some party. -/
def Step : State → State → Prop := Acts (act v)

/-! ## What a step does

The worker has one move for each place of its program and each outcome of the test there. A call of
`add_task` tests `stopped` before it takes the mutex, so it may push although `stopped` has been set
since. -/

section Frames

variable {v : Variant} {i : ℕ} {s t : State}

/-- The kinds of steps of the worker. A wait or an `unlock` without the mutex ends the program. -/
inductive WorkerMove (v : Variant) (s : State) : State → Prop
  | start (hw : s.worker = .start) (hfree : s.owner = none) :
      WorkerMove v s { s with owner := some .worker, worker := .testStopped }
  | stopped (hw : s.worker = .testStopped) (hs : s.stopped = true) :
      WorkerMove v s { s with worker := .testEmpty }
  | goOn (hw : s.worker = .testStopped) (hs : s.stopped = false) :
      WorkerMove v s { s with worker := .predEmpty }
  | done (hw : s.worker = .testEmpty) (htask : s.task = []) :
      WorkerMove v s { s with pushedAtTest := s.pushed, worker := .leave }
  | goOnToTask (hw : s.worker = .testEmpty) (htask : s.task ≠ []) :
      WorkerMove v s { s with pushedAtTest := s.pushed, worker := .predEmpty }
  | noTask (hw : s.worker = .predEmpty) (htask : s.task = []) :
      WorkerMove v s { s with worker := .predStopped }
  | ready (hw : s.worker = .predEmpty ∧ s.task ≠ [] ∨
      s.worker = .predStopped ∧ s.stopped = true) : WorkerMove v s { s with worker := .swap }
  | wait (hw : s.worker = .predStopped) (hs : s.stopped = false)
      (hown : s.owner = some .worker) : WorkerMove v s { s with owner := none, worker := .waiting }
  | waitUnlocked (hw : s.worker = .predStopped) (hs : s.stopped = false)
      (hown : s.owner ≠ some .worker) : WorkerMove v s { s with worker := .terminated }
  | wake (hw : s.worker = .waiting) (hfree : s.owner = none) :
      WorkerMove v s { s with owner := some .worker, worker := .predEmpty }
  | swap (hw : s.worker = .swap) : WorkerMove v s { s with task := [], worker := .unlock s.task }
  | unlock {tmp : List ℕ} (hw : s.worker = .unlock tmp) (hown : s.owner = some .worker) :
      WorkerMove v s { s with owner := none, worker := .process tmp }
  | unlockUnlocked {tmp : List ℕ} (hw : s.worker = .unlock tmp)
      (hown : s.owner ≠ some .worker) : WorkerMove v s { s with worker := .terminated }
  | roundOver (hw : s.worker = .process []) :
      WorkerMove v s { s with
        rounds := s.rounds + 1
        worker := if v.relocks then .relock else .testStopped }
  | run {i : ℕ} {tsk : List ℕ} (hw : s.worker = .process (i :: tsk)) :
      WorkerMove v s { s with ran := s.ran ++ [i], worker := .process tsk }
  | relock (hw : s.worker = .relock) (hfree : s.owner = none) :
      WorkerMove v s { s with owner := some .worker, worker := .testStopped }
  | leave (hw : s.worker = .leave) :
      WorkerMove v s { s with
        owner := if s.owner = some .worker then none else s.owner
        worker := .returned }

/-- **What the worker may do.** -/
theorem workerStep_move (h : workerStep v s = some t) : WorkerMove v s t := by
  rcases hw : s.worker with - | - | - | - | - | - | - | tmp | ⟨- | ⟨i, tsk⟩⟩ | - | - | - | - <;>
    simp only [workerStep, hw, Option.ite_none_right_eq_some, Option.some.injEq, reduceCtorEq] at h
  case start => exact h.2 ▸ .start hw h.1
  case testStopped =>
    subst h
    split_ifs with hs
    · exact .stopped hw hs
    · exact .goOn hw (Bool.eq_false_iff.mpr hs)
  case testEmpty =>
    subst h
    split_ifs with htask
    · exact .done hw htask
    · exact .goOnToTask hw htask
  case predEmpty =>
    subst h
    split_ifs with htask
    · exact .noTask hw htask
    · exact .ready (.inl ⟨hw, htask⟩)
  case predStopped =>
    split_ifs at h with hs hown <;> obtain rfl := Option.some_inj.mp h
    · exact .ready (.inr ⟨hw, hs⟩)
    · exact .wait hw (Bool.eq_false_iff.mpr hs) hown
    · exact .waitUnlocked hw (Bool.eq_false_iff.mpr hs) hown
  case waiting => exact h.2 ▸ .wake hw h.1
  case swap => exact h ▸ .swap hw
  case unlock =>
    split_ifs at h with hown <;> obtain rfl := Option.some_inj.mp h
    · exact .unlock hw hown
    · exact .unlockUnlocked hw hown
  case process.nil => exact h ▸ .roundOver hw
  case process.cons => exact h ▸ .run hw
  case relock => exact h.2 ▸ .relock hw h.1
  case leave => exact h ▸ .leave hw

/-- The kinds of steps of a call of `add_task`. -/
inductive AddMove (i : ℕ) (s : State) : State → Prop
  | start (hi : s.adds i = .idle) :
      AddMove i s { s with adds := Function.update s.adds i .test }
  | refuse (hi : s.adds i = .test) (hs : s.stopped = true) :
      AddMove i s { s with adds := Function.update s.adds i (.returned (-1)) }
  | accept (hi : s.adds i = .test) (hs : s.stopped = false) :
      AddMove i s { s with adds := Function.update s.adds i .lock }
  | lock (hi : s.adds i = .lock) (hfree : s.owner = none) :
      AddMove i s { s with owner := some (.adder i), adds := Function.update s.adds i .push }
  | push (hi : s.adds i = .push) :
      AddMove i s { s with
        task := s.task ++ [i]
        pushed := s.pushed ++ [i]
        adds := Function.update s.adds i .unlock }
  | unlock (hi : s.adds i = .unlock) :
      AddMove i s { s with owner := none, adds := Function.update s.adds i (.returned 0) }

/-- **What a call of `add_task` may do.** -/
theorem addStep_move (h : addStep i s = some t) : AddMove i s t := by
  rcases hi : s.adds i with - | - | - | - | - | r <;>
    simp only [addStep, hi, Option.ite_none_right_eq_some, Option.some.injEq, reduceCtorEq] at h
  case idle => exact h ▸ .start hi
  case test =>
    subst h
    split_ifs with hs
    · exact .refuse hi hs
    · exact .accept hi (Bool.eq_false_iff.mpr hs)
  case lock => exact h.2 ▸ .lock hi h.1
  case push => exact h ▸ .push hi
  case unlock => exact h ▸ .unlock hi

/-! ## What a step leaves as it is

A frame lists what a step of the party leaves alone, with the places of the other parties among
it. -/

/-- A step of the worker leaves the calls, `stopped` and what was pushed, takes the mutex only when
it is free and gives back only what the worker holds. -/
structure WorkerFrame (s t : State) : Prop where
  stopped : t.stopped = s.stopped
  adds : t.adds = s.adds
  stops : t.stops = s.stops
  pushed : t.pushed = s.pushed
  mutex : MutexMove .worker s.owner t.owner

/-- A step of call `i` of `add_task` leaves the other parties and all but the mutex and the queue.
-/
structure AddFrame (i : ℕ) (s t : State) : Prop where
  stopped : t.stopped = s.stopped
  worker : t.worker = s.worker
  adds : ∀ j ≠ i, t.adds j = s.adds j
  stops : t.stops = s.stops
  ran : t.ran = s.ran
  rounds : t.rounds = s.rounds
  pushedAtTest : t.pushedAtTest = s.pushedAtTest

/-- A step of call `i` of `stop` leaves the other parties and all but the mutex and `stopped`. -/
structure StopFrame (i : ℕ) (s t : State) : Prop where
  task : t.task = s.task
  worker : t.worker = s.worker
  adds : t.adds = s.adds
  stops : ∀ j ≠ i, t.stops j = s.stops j
  pushed : t.pushed = s.pushed
  ran : t.ran = s.ran
  rounds : t.rounds = s.rounds
  pushedAtTest : t.pushedAtTest = s.pushedAtTest

theorem workerStep_frame (h : workerStep v s = some t) : WorkerFrame s t := by
  cases workerStep_move h with
  | start _ hfree | wake _ hfree | relock _ hfree => exact ⟨rfl, rfl, rfl, rfl, .lock hfree⟩
  | wait _ _ hown | unlock _ hown => exact ⟨rfl, rfl, rfl, rfl, .unlock hown⟩
  | leave =>
    refine ⟨rfl, rfl, rfl, rfl, ?_⟩
    by_cases hown : s.owner = some .worker
    · rw [if_pos hown]
      exact .unlock hown
    · rw [if_neg hown]
      exact .stay
  | _ => exact ⟨rfl, rfl, rfl, rfl, .stay⟩

theorem addStep_frame (h : addStep i s = some t) : AddFrame i s t := by
  have hadds : ∀ pc : AddPc, ∀ j ≠ i, Function.update s.adds i pc j = s.adds j :=
    fun pc j hj ↦ Function.update_of_ne hj _ _
  cases addStep_move h <;> exact ⟨rfl, rfl, hadds _, rfl, rfl, rfl, rfl⟩

theorem stopStep_frame (h : stopStep v i s = some t) : StopFrame i s t := by
  have hstops : ∀ pc : StopPc, ∀ j ≠ i, Function.update s.stops i pc j = s.stops j :=
    fun pc j hj ↦ Function.update_of_ne hj _ _
  rcases hi : s.stops i with - | - | - | - | - | - <;>
    simp only [stopStep, hi, Option.ite_none_right_eq_some, reduceCtorEq] at h
  case lock => exact Option.some_inj.mp h.2 ▸ ⟨rfl, rfl, rfl, hstops _, rfl, rfl, rfl, rfl⟩
  all_goals exact Option.some_inj.mp h ▸ ⟨rfl, rfl, rfl, hstops _, rfl, rfl, rfl, rfl⟩

end Frames

namespace WorkerPc

/-- The tasks that have been swapped out and not yet run. -/
def batch : WorkerPc → List ℕ
  | .unlock tmp => tmp
  | .process tsk => tsk
  | _ => []

/-- The worker has left its loop. -/
def HasLeft : WorkerPc → Prop
  | .leave | .returned => True
  | _ => False

end WorkerPc

namespace State

def batch (s : State) : List ℕ := s.worker.batch

def HasLeft (s : State) : Prop := s.worker.HasLeft

end State

/-- The call holds the mutex here. -/
def AddPc.Holds : AddPc → Prop
  | .push | .unlock => True
  | _ => False

/-- The call has pushed its task, and returned 0 if it has returned. -/
def AddPc.HasPushed : AddPc → Prop
  | .unlock => True
  | .returned r => r = 0
  | _ => False

/-- The call holds the mutex here. -/
def StopPc.Holds : StopPc → Prop
  | .set | .unlock => True
  | _ => False

end Tasks

end CppRepo
