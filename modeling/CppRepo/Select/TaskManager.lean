import CppRepo.Library.Transition

/-!
# The task manager with `select`

A worker thread runs `entry`: it builds a set of descriptors from `io_callback`, waits in `select`,
calls the callbacks of the descriptors that are ready, and drains the pipe `thread_pipe`, whose only
purpose is to end the `select`. Any number of threads call `register_fd`, `unregister_fd` and
`stop`, which change what the worker has to look at and then write four bytes to the pipe.

A step is one action of one party on what they share: the mutex, `stopped`, `io_callback`, and the
number of unread bytes in the pipe. A party that needs the mutex while it is taken has no step, and
neither has a write while the pipe has no room for it: the write end blocks, and a write of four
bytes is not split. The kernel is a party of its own, whose only action is to answer a `select`.

A call is known by its number. What a callback does is up to the callback and not part of the state,
and `create` has been called before the first step. `FD_SET` is taken to find room for each
descriptor. `snapshot` records the descriptors the worker last saw in `io_callback` and does not
influence the steps.

## Parties and moves

The three functions differ in whether they test `stopped`, take the mutex, and what they change;
otherwise they go the same way. So a step of a call is described once for all three, by `CallMove`,
and a step of the worker by `WorkerMove`; the invariants of the modules below are proved from these
two and do not look at the functions again.
-/

namespace CppRepo

namespace Select

/-- A handler object, known by a number, with the read end of its pipe. -/
structure IoHandler where
  object : ℕ
  pipefd : ℕ
  deriving DecidableEq, Repr

/-- Which function is called. -/
inductive Call
  | registerFd (handler : IoHandler)
  | unregisterFd (io : IoHandler)
  | stop
  deriving DecidableEq, Repr

/-- What stays the same in a run. -/
structure Setting where
  /-- The read end of `thread_pipe`. -/
  threadPipe : ℕ
  /-- How many bytes `thread_pipe` holds. -/
  capacity : ℕ
  /-- What each call is. -/
  call : ℕ → Call

/-- Each call registers a handler of its own. -/
def registering (capacity : ℕ) : Setting := ⟨3, capacity, fun i ↦ .registerFd ⟨i, 2 * i + 5⟩⟩

/-- `sizeof(buf)` in `signal_thread`. -/
def signalSize : ℕ := 4

/-- `buf.size()` in `clear_signal`. -/
def clearSize : ℕ := 256

/-- Who acts. -/
inductive Party
  | worker
  /-- The kernel answers a `select` with the descriptors that are ready, or with an error. -/
  | kernel (ret : Option (Finset ℕ))
  | caller (i : ℕ)
  deriving DecidableEq

/-- What the worker does next. -/
inductive WorkerPc
  /-- `!stopped`, in the condition of the loop -/
  | testStopped
  /-- `!io_callback.empty()`, in the condition of the loop -/
  | testEmpty
  /-- `std::unique_lock<std::mutex> lock{mtx}` -/
  | lock
  /-- the loop that builds `fdread` and `maxfd` -/
  | build
  /-- `lock.unlock()`, before the `select` -/
  | unlock (fdread : Finset ℕ) (maxfd : ℕ)
  /-- in `select` -/
  | select (fdread : Finset ℕ) (maxfd : ℕ)
  /-- `lock.lock()` -/
  | relock (fdread : Finset ℕ)
  /-- the loop over the callbacks, with the handlers that are still to be looked at -/
  | dispatch (ios : List (ℕ × IoHandler)) (fdread : Finset ℕ)
  /-- in a callback -/
  | callback (io : IoHandler) (ios : List (ℕ × IoHandler)) (fdread : Finset ℕ)
  /-- `clear_signal`, if the pipe is ready -/
  | clear (fdread : Finset ℕ)
  /-- `lock.unlock()`, at the end of the round -/
  | unlockEnd
  | returned
  deriving DecidableEq

/-- What a call does next. -/
inductive CallPc
  | idle
  /-- `if (stopped)` -/
  | test
  /-- `std::lock_guard<std::mutex> lock{mtx}` -/
  | lock
  /-- the change of `io_callback` or `stopped` -/
  | update
  /-- the write in `signal_thread` -/
  | signal
  /-- the end of the block, where `lock` is destroyed -/
  | unlock
  /-- the call is over; the value is 0 for a function without one -/
  | returned (r : ℤ)
  deriving DecidableEq, Repr

/-- `TaskManager`, and where its callers and its worker are. -/
structure State where
  /-- Who holds `mtx`. -/
  owner : Option Party := none
  stopped : Bool := false
  /-- The map from descriptors to handlers, in the order of its keys. -/
  ioCallback : List (ℕ × IoHandler) := []
  /-- How many bytes are in `thread_pipe`. -/
  unread : ℕ := 0
  worker : WorkerPc := .testStopped
  callers : ℕ → CallPc := fun _ ↦ .idle
  /-- The keys of `io_callback` when `fdread` was last built. -/
  snapshot : Finset ℕ := ∅

/-- The manager when its thread is created: it is made by `std::make_shared`, which sets `stopped`
to zero. -/
def IsInitial (s : State) : Prop := s = {}

namespace State

/-- The keys of `io_callback`. -/
def keys (s : State) : Finset ℕ := (s.ioCallback.map Prod.fst).toFinset

/-- `io_callback.insert`, which leaves the map alone if it has the key. -/
def insert (handler : IoHandler) (s : State) : State :=
  { s with ioCallback :=
      if handler.pipefd ∈ s.keys then s.ioCallback
      else s.ioCallback.orderedInsert (fun x y ↦ x.1 ≤ y.1) (handler.pipefd, handler) }

/-- `io_callback.erase` -/
def erase (io : IoHandler) (s : State) : State :=
  { s with ioCallback := s.ioCallback.filter fun x ↦ x.1 ≠ io.pipefd }

def setCaller (i : ℕ) (pc : CallPc) (s : State) : State :=
  { s with callers := Function.update s.callers i pc }

theorem callers_setCaller (i : ℕ) (pc : CallPc) (s : State) :
    (s.setCaller i pc).callers i = pc := Function.update_self _ _ _

private theorem callers_setCaller_of_ne {i j : ℕ} (hj : j ≠ i) (pc : CallPc) (s : State) :
    (s.setCaller i pc).callers j = s.callers j := Function.update_of_ne hj _ _

end State

/-! ## The calls

Each function is a sequence of places, one for each access to what is shared. `register_fd` and
`stop` begin with the test of `stopped`, outside the mutex; the test and the change are two steps. A
write to the pipe has a step only if there is room for all of its bytes. -/

variable (e : Setting)

/-- The write of `signal_thread`. -/
def signalThread (s : State) : Option State :=
  if s.unread + signalSize ≤ e.capacity then some { s with unread := s.unread + signalSize }
  else none

/-- `std::lock_guard<std::mutex> lock{mtx}` -/
def lockMutex (p : Party) (s : State) : Option State :=
  if s.owner = none then some { s with owner := some p } else none

def unlockMutex (s : State) : State := { s with owner := none }

/-- The next step of call `i`, if it is a call of `register_fd`. -/
def registerStep (handler : IoHandler) (i : ℕ) (s : State) : Option State :=
  match s.callers i with
  | .idle => some (s.setCaller i .test)
  | .test => some (s.setCaller i (if s.stopped then .returned (-1) else .lock))
  | .lock => (lockMutex (.caller i) s).map (State.setCaller i .update)
  | .update => some ((s.insert handler).setCaller i .signal)
  | .signal => (signalThread e s).map (State.setCaller i .unlock)
  | .unlock => some ((unlockMutex s).setCaller i (.returned 0))
  | .returned _ => none

/-- The next step of call `i`, if it is a call of `unregister_fd`. -/
def unregisterStep (io : IoHandler) (i : ℕ) (s : State) : Option State :=
  match s.callers i with
  | .idle => some (s.setCaller i .lock)
  | .lock => (lockMutex (.caller i) s).map (State.setCaller i .update)
  | .update => some ((s.erase io).setCaller i .signal)
  | .signal => (signalThread e s).map (State.setCaller i .unlock)
  | .unlock => some ((unlockMutex s).setCaller i (.returned 0))
  | .test => none
  | .returned _ => none

/-- The next step of call `i`, if it is a call of `stop`, which does not use the mutex. -/
def stopStep (i : ℕ) (s : State) : Option State :=
  match s.callers i with
  | .idle => some (s.setCaller i .test)
  | .test => some (s.setCaller i (if s.stopped then .returned 0 else .update))
  | .update => some { s.setCaller i .signal with stopped := true }
  | .signal => (signalThread e s).map (State.setCaller i (.returned 0))
  | .lock => none
  | .unlock => none
  | .returned _ => none

/-- The next step of call `i`. -/
def callStep (i : ℕ) (s : State) : Option State :=
  match e.call i with
  | .registerFd handler => registerStep e handler i s
  | .unregisterFd io => unregisterStep e io i s
  | .stop => stopStep e i s

/-! ## The worker

The worker builds its set under the mutex, gives the mutex back, and only then selects. What it
dispatches afterwards is `io_callback` as it is then, with the answer of `select` as it was. -/

/-- The loop that computes `maxfd`. -/
def maxfd (fds : List ℕ) : ℕ :=
  fds.foldl (fun maxfd fd ↦ if maxfd ≤ fd then fd + 1 else maxfd) (e.threadPipe + 1)

/-- `clear_signal`: a read of an empty pipe fails at once and changes nothing. -/
def clearSignal (s : State) : State := { s with unread := s.unread - clearSize }

/-- The next step of the worker. -/
def workerStep (s : State) : Option State :=
  match s.worker with
  | .testStopped => some { s with worker := if s.stopped then .testEmpty else .lock }
  | .testEmpty => some { s with worker := if s.ioCallback = [] then .returned else .lock }
  | .lock => (lockMutex .worker s).map fun s ↦ { s with worker := .build }
  | .build =>
    some { s with
      snapshot := s.keys
      worker := .unlock (Insert.insert e.threadPipe s.keys) (maxfd e (s.ioCallback.map Prod.fst)) }
  | .unlock fdread maxfd => some { unlockMutex s with worker := .select fdread maxfd }
  | .select _ _ => none
  | .relock fdread =>
    (lockMutex .worker s).map fun s ↦ { s with worker := .dispatch s.ioCallback fdread }
  | .dispatch [] fdread => some { s with worker := .clear fdread }
  | .dispatch ((fd, io) :: ios) fdread =>
    some { s with worker := if fd ∈ fdread then .callback io ios fdread else .dispatch ios fdread }
  | .callback _ ios fdread => some { s with worker := .dispatch ios fdread }
  | .clear fdread =>
    some { if e.threadPipe ∈ fdread then clearSignal s else s with worker := .unlockEnd }
  | .unlockEnd => some { unlockMutex s with worker := .testStopped }
  | .returned => none

/-- `select` may find these descriptors ready. Of the descriptors of the handlers any may be. -/
def MayAnswer (s : State) (fdread : Finset ℕ) (maxfd : ℕ) (ready : Finset ℕ) : Prop :=
  ready ⊆ fdread.filter (· < maxfd) ∧ ready.Nonempty ∧
    (e.threadPipe ∈ ready ↔ e.threadPipe ∈ fdread.filter (· < maxfd) ∧ 0 < s.unread)

instance (s : State) (fdread : Finset ℕ) (maxfd : ℕ) (ready : Finset ℕ) :
    Decidable (MayAnswer e s fdread maxfd ready) :=
  inferInstanceAs (Decidable (_ ∧ _ ∧ _))

/-- The kernel answers the worker's `select`. On an error `entry` returns. -/
def kernelStep (ret : Option (Finset ℕ)) (s : State) : Option State :=
  match s.worker, ret with
  | .select _ _, none => some { s with worker := .returned }
  | .select fdread maxfd, some ready =>
    if MayAnswer e s fdread maxfd ready then some { s with worker := .relock ready } else none
  | _, _ => none

/-- The next step of a party. -/
def act (p : Party) (s : State) : Option State :=
  match p with
  | .worker => workerStep e s
  | .kernel ret => kernelStep e ret s
  | .caller i => callStep e i s

/-- A step of some party. -/
def Step : State → State → Prop := Acts (act e)

/-! ## What a step does

Of the five kinds of steps of a call, only the update changes what the worker looks at, and only the
signal changes the pipe. The worker alone takes bytes out, and it changes neither `io_callback` nor
`stopped`. -/

section Moves

variable {e} {i : ℕ} {s t : State} {ret : Option (Finset ℕ)}

/-- What a call changes, once it has the mutex if it needs it. -/
def Call.update : Call → State → State
  | .registerFd handler, s => s.insert handler
  | .unregisterFd io, s => s.erase io
  | .stop, s => { s with stopped := true }

/-- An update leaves the mutex, the pipe and the places of the parties. -/
theorem Call.update_frame (c : Call) (s : State) :
    (c.update s).owner = s.owner ∧ (c.update s).unread = s.unread ∧
      (c.update s).worker = s.worker ∧ (c.update s).callers = s.callers ∧
        (c.update s).snapshot = s.snapshot := by
  rcases c with handler | io | - <;> exact ⟨rfl, rfl, rfl, rfl, rfl⟩

/-- The five kinds of steps of a call. Only `stop` comes to its update without the mutex. -/
inductive CallMove (e : Setting) (i : ℕ) (s : State) : State → Prop
  | go (pc : CallPc) (hfrom : s.callers i = .idle ∨ s.callers i = .test) (hsignal : pc ≠ .signal)
      (hunlock : pc ≠ .unlock) (hupdate : pc = .update → e.call i = .stop) :
      CallMove e i s (s.setCaller i pc)
  | lock (hcall : e.call i ≠ .stop) (hfrom : s.callers i = .lock) (hfree : s.owner = none) :
      CallMove e i s ({ s with owner := some (.caller i) }.setCaller i .update)
  | update (hfrom : s.callers i = .update) :
      CallMove e i s (((e.call i).update s).setCaller i .signal)
  | signal (pc : CallPc) (hfrom : s.callers i = .signal)
      (hroom : s.unread + signalSize ≤ e.capacity)
      (hpc : e.call i ≠ .stop ∧ pc = .unlock ∨ e.call i = .stop ∧ pc = .returned 0) :
      CallMove e i s ({ s with unread := s.unread + signalSize }.setCaller i pc)
  | unlock (hcall : e.call i ≠ .stop) (hfrom : s.callers i = .unlock) :
      CallMove e i s ((unlockMutex s).setCaller i (.returned 0))

private theorem callMove_of_register {handler : IoHandler} (hcall : e.call i = .registerFd handler)
    (h : registerStep e handler i s = some t) : CallMove e i s t := by
  have hstop : e.call i ≠ .stop := by
    rw [hcall]
    exact nofun
  rcases hi : s.callers i with - | - | - | - | - | - | r <;>
    simp only [registerStep, hi, lockMutex, signalThread, Option.map_eq_some_iff,
      Option.ite_none_right_eq_some, Option.some.injEq, reduceCtorEq] at h
  case idle => exact h ▸ .go _ (Or.inl hi) nofun nofun nofun
  case test =>
    subst h
    split_ifs
    · exact .go _ (Or.inr hi) nofun nofun nofun
    · exact .go _ (Or.inr hi) nofun nofun nofun
  case lock =>
    obtain ⟨_, ⟨hfree, rfl⟩, rfl⟩ := h
    exact .lock hstop hi hfree
  case update =>
    have hmove := CallMove.update (e := e) hi
    rw [hcall] at hmove
    exact h ▸ hmove
  case signal =>
    obtain ⟨_, ⟨hroom, rfl⟩, rfl⟩ := h
    exact .signal _ hi hroom (Or.inl ⟨hstop, rfl⟩)
  case unlock => exact h ▸ .unlock hstop hi

private theorem callMove_of_unregister {io : IoHandler} (hcall : e.call i = .unregisterFd io)
    (h : unregisterStep e io i s = some t) : CallMove e i s t := by
  have hstop : e.call i ≠ .stop := by
    rw [hcall]
    exact nofun
  rcases hi : s.callers i with - | - | - | - | - | - | r <;>
    simp only [unregisterStep, hi, lockMutex, signalThread, Option.map_eq_some_iff,
      Option.ite_none_right_eq_some, Option.some.injEq, reduceCtorEq] at h
  case idle => exact h ▸ .go _ (Or.inl hi) nofun nofun nofun
  case lock =>
    obtain ⟨_, ⟨hfree, rfl⟩, rfl⟩ := h
    exact .lock hstop hi hfree
  case update =>
    have hmove := CallMove.update (e := e) hi
    rw [hcall] at hmove
    exact h ▸ hmove
  case signal =>
    obtain ⟨_, ⟨hroom, rfl⟩, rfl⟩ := h
    exact .signal _ hi hroom (Or.inl ⟨hstop, rfl⟩)
  case unlock => exact h ▸ .unlock hstop hi

private theorem callMove_of_stop (hcall : e.call i = .stop) (h : stopStep e i s = some t) :
    CallMove e i s t := by
  rcases hi : s.callers i with - | - | - | - | - | - | r <;>
    simp only [stopStep, hi, signalThread, Option.map_eq_some_iff, Option.ite_none_right_eq_some,
      Option.some.injEq, reduceCtorEq] at h
  case idle => exact h ▸ .go _ (Or.inl hi) nofun nofun nofun
  case test =>
    subst h
    split_ifs
    · exact .go _ (Or.inr hi) nofun nofun nofun
    · exact .go _ (Or.inr hi) nofun nofun fun _ ↦ hcall
  case update =>
    have hmove := CallMove.update (e := e) hi
    rw [hcall] at hmove
    exact h ▸ hmove
  case signal =>
    obtain ⟨_, ⟨hroom, rfl⟩, rfl⟩ := h
    exact .signal _ hi hroom (Or.inr ⟨hcall, rfl⟩)

/-- **What a call may do.** -/
theorem callStep_move (h : callStep e i s = some t) : CallMove e i s t := by
  rcases hcall : e.call i with handler | io | - <;> simp only [callStep, hcall] at h
  · exact callMove_of_register hcall h
  · exact callMove_of_unregister hcall h
  · exact callMove_of_stop hcall h

namespace CallMove

theorem worker_eq (h : CallMove e i s t) : t.worker = s.worker := by
  rcases h with - | - | - | - | -
  case update => exact ((e.call i).update_frame s).2.2.1
  all_goals rfl

theorem snapshot_eq (h : CallMove e i s t) : t.snapshot = s.snapshot := by
  rcases h with - | - | - | - | -
  case update => exact ((e.call i).update_frame s).2.2.2.2
  all_goals rfl

/-- A call takes no byte out of the pipe. -/
theorem unread_le (h : CallMove e i s t) : s.unread ≤ t.unread := by
  rcases h with - | - | - | - | -
  case update => exact ((e.call i).update_frame s).2.1.ge
  case signal => exact Nat.le_add_right _ _
  all_goals exact le_rfl

/-- A call that is about to write to the pipe can only write, if there is room. -/
theorem unread_of_signal (h : CallMove e i s t) (hi : s.callers i = .signal) :
    s.unread + signalSize ≤ e.capacity ∧ t.unread = s.unread + signalSize := by
  rcases h with ⟨-, hfrom, -⟩ | ⟨-, hfrom, -⟩ | hfrom | ⟨-, -, hroom, -⟩ | ⟨-, hfrom⟩
  case signal => exact ⟨hroom, rfl⟩
  case go => rcases hfrom with hfrom | hfrom <;> rw [hi] at hfrom <;> nomatch hfrom
  all_goals
    rw [hi] at hfrom
    nomatch hfrom

theorem eq_of_update (h : CallMove e i s t) (hi : s.callers i = .update) :
    t = ((e.call i).update s).setCaller i .signal := by
  rcases h with ⟨-, hfrom, -⟩ | ⟨-, hfrom, -⟩ | - | ⟨-, hfrom, -⟩ | ⟨-, hfrom⟩
  case update => rfl
  case go => rcases hfrom with hfrom | hfrom <;> rw [hi] at hfrom <;> nomatch hfrom
  all_goals
    rw [hi] at hfrom
    nomatch hfrom

theorem callers_of_ne (h : CallMove e i s t) {j : ℕ} (hj : j ≠ i) : t.callers j = s.callers j := by
  rcases h with - | - | - | - | - <;> rw [State.callers_setCaller_of_ne hj]
  case update => rw [((e.call i).update_frame s).2.2.2.1]
  case unlock => rw [unlockMutex]

end CallMove

/-- The kinds of steps of the worker. -/
inductive WorkerMove (e : Setting) (s : State) : State → Prop
  | stopped (hw : s.worker = .testStopped) (hs : s.stopped = true) :
      WorkerMove e s { s with worker := .testEmpty }
  | goOn (hon : s.worker = .testStopped ∧ s.stopped = false ∨
      s.worker = .testEmpty ∧ s.ioCallback ≠ []) : WorkerMove e s { s with worker := .lock }
  | leave (hw : s.worker = .testEmpty) (hempty : s.ioCallback = []) :
      WorkerMove e s { s with worker := .returned }
  | lock (hw : s.worker = .lock) (hfree : s.owner = none) :
      WorkerMove e s { s with owner := some .worker, worker := .build }
  | build (hw : s.worker = .build) :
      WorkerMove e s { s with
        snapshot := s.keys
        worker := .unlock (Insert.insert e.threadPipe s.keys)
          (maxfd e (s.ioCallback.map Prod.fst)) }
  | unlock {fdread : Finset ℕ} {maxfd : ℕ} (hw : s.worker = .unlock fdread maxfd) :
      WorkerMove e s { unlockMutex s with worker := .select fdread maxfd }
  | relock {fdread : Finset ℕ} (hw : s.worker = .relock fdread) (hfree : s.owner = none) :
      WorkerMove e s { s with owner := some .worker, worker := .dispatch s.ioCallback fdread }
  | dispatched {fdread : Finset ℕ} (hw : s.worker = .dispatch [] fdread) :
      WorkerMove e s { s with worker := .clear fdread }
  | call {fd : ℕ} {io : IoHandler} {ios : List (ℕ × IoHandler)} {fdread : Finset ℕ}
      (hw : s.worker = .dispatch ((fd, io) :: ios) fdread) (hready : fd ∈ fdread) :
      WorkerMove e s { s with worker := .callback io ios fdread }
  | skip {fd : ℕ} {io : IoHandler} {ios : List (ℕ × IoHandler)} {fdread : Finset ℕ}
      (hw : s.worker = .dispatch ((fd, io) :: ios) fdread) (hready : fd ∉ fdread) :
      WorkerMove e s { s with worker := .dispatch ios fdread }
  | called {io : IoHandler} {ios : List (ℕ × IoHandler)} {fdread : Finset ℕ}
      (hw : s.worker = .callback io ios fdread) :
      WorkerMove e s { s with worker := .dispatch ios fdread }
  | clear {fdread : Finset ℕ} (hw : s.worker = .clear fdread) :
      WorkerMove e s { s with
        unread := if e.threadPipe ∈ fdread then s.unread - clearSize else s.unread
        worker := .unlockEnd }
  | unlockEnd (hw : s.worker = .unlockEnd) :
      WorkerMove e s { unlockMutex s with worker := .testStopped }

/-- **What the worker may do.** -/
theorem workerStep_move (h : workerStep e s = some t) : WorkerMove e s t := by
  rcases hw : s.worker with - | - | - | - | ⟨fdread, maxfd⟩ | ⟨fdread, maxfd⟩ | fdread |
      ⟨- | ⟨⟨fd, io⟩, ios⟩, fdread⟩ | ⟨io, ios, fdread⟩ | fdread | - | - <;>
    simp only [workerStep, hw, lockMutex, Option.map_eq_some_iff, Option.ite_none_right_eq_some,
      Option.some.injEq, reduceCtorEq] at h
  case testStopped =>
    subst h
    split_ifs with hs
    · exact .stopped hw hs
    · exact .goOn (.inl ⟨hw, Bool.eq_false_iff.mpr hs⟩)
  case testEmpty =>
    subst h
    split_ifs with hempty
    · exact .leave hw hempty
    · exact .goOn (.inr ⟨hw, hempty⟩)
  case lock =>
    obtain ⟨_, ⟨hfree, rfl⟩, rfl⟩ := h
    exact .lock hw hfree
  case build => exact h ▸ .build hw
  case unlock => exact h ▸ .unlock hw
  case relock =>
    obtain ⟨_, ⟨hfree, rfl⟩, rfl⟩ := h
    exact .relock hw hfree
  case dispatch.nil => exact h ▸ .dispatched hw
  case dispatch.cons =>
    subst h
    split_ifs with hready
    · exact .call hw hready
    · exact .skip hw hready
  case callback => exact h ▸ .called hw
  case clear =>
    have ht : { s with
        unread := if e.threadPipe ∈ fdread then s.unread - clearSize else s.unread
        worker := .unlockEnd } = t := by
      rw [← h]
      split_ifs <;> simp only [clearSignal]
    exact ht ▸ .clear hw
  case unlockEnd => exact h ▸ .unlockEnd hw

/-- A step of the worker leaves the calls and what they change, and writes nothing to the pipe. -/
structure WorkerFrame (s t : State) : Prop where
  stopped : t.stopped = s.stopped
  ioCallback : t.ioCallback = s.ioCallback
  callers : t.callers = s.callers
  unread : t.unread ≤ s.unread

theorem workerStep_frame (h : workerStep e s = some t) : WorkerFrame s t := by
  cases workerStep_move h with
  | @clear fdread =>
    refine ⟨rfl, rfl, rfl, ?_⟩
    dsimp only
    split_ifs
    · exact Nat.sub_le _ _
    · exact le_rfl
  | _ => exact ⟨rfl, rfl, rfl, le_rfl⟩

/-- An answer of the kernel moves the worker out of its `select` and does nothing else. -/
theorem kernelStep_move (h : kernelStep e ret s = some t) :
    (∃ fdread maxfd, s.worker = .select fdread maxfd) ∧
      ∃ pc, t = { s with worker := pc } ∧
        (ret = none ∧ pc = .returned ∨ ∃ ready, ret = some ready ∧ pc = .relock ready) := by
  rcases hw : s.worker with - | - | - | - | ⟨fdread, maxfd⟩ | ⟨fdread, maxfd⟩ | fdread |
      ⟨ios, fdread⟩ | ⟨io, ios, fdread⟩ | fdread | - | - <;>
    rcases ret with - | ready <;>
    simp only [kernelStep, hw, Option.ite_none_right_eq_some, Option.some.injEq, reduceCtorEq] at h
  · exact ⟨⟨fdread, maxfd, rfl⟩, _, h.symm, Or.inl ⟨rfl, rfl⟩⟩
  · exact ⟨⟨fdread, maxfd, rfl⟩, _, h.2.symm, Or.inr ⟨ready, rfl, rfl⟩⟩

end Moves

end Select

end CppRepo
