import CppRepo.Library.Descriptors
import CppRepo.Select.Unregister

/-!
# The descriptors of the handlers

`io_handler` opens a pipe in its constructor and has no destructor, so nobody closes the pipe of a
handler. The descriptors of handlers that are gone stay taken, and those of later handlers are
higher however few handlers there are at a time, until one does not fit in an `fd_set`.

A process here is a manager with its parties and the handlers the program makes and drops. `create`
was called first, with the descriptors open that the process inherited. A handler has the number of
its creation as its object. Whether `pipe2` and `fcntl` succeed is for the kernel to say; where one
of them fails, the constructor ends the process.

## Which handlers are early

`pipe2` gives the lowest two descriptors that are free. As none is closed while the process runs,
the pipe of handler `n` has the free descriptors number `2n` and `2n + 1` of those that were free
after `create`, and whether its read end fits depends on `n` and on the inherited descriptors alone.
What became of the handlers in between makes no difference.
-/

namespace CppRepo

namespace Select

variable {e : Setting} {s t : State} {inherited : Finset ℕ}

/-- `FD_SETSIZE`. -/
def fdSetSize : ℕ := 1024

/-! ## The process

A handler is given to a call only while the program has a pointer to it, and the map keeps the
handlers in it alive. When the last pointer is given up the handler is gone, and nothing is
closed. -/

/-- What becomes of the two calls in `pipe_ocloexc`. -/
inductive PipeOutcome
  | ok
  | pipeFails
  | fcntlFails
  deriving DecidableEq, Repr

/-- `pipe2`: the two ends get the lowest free descriptors. -/
def pipe2 (opened : Finset ℕ) : (ℕ × ℕ) × Finset ℕ :=
  ((lowestFree opened, lowestFree (takeLowest opened)), takeLowest (takeLowest opened))

/-- `pipe_ocloexc`: the ends of the pipe unless it fails, and the descriptors that are then open. -/
def pipeOcloexc (outcome : PipeOutcome) (opened : Finset ℕ) : Option (ℕ × ℕ) × Finset ℕ :=
  match outcome with
  | .pipeFails => (none, opened)
  | .fcntlFails =>
    (none, ((pipe2 opened).2.erase (pipe2 opened).1.2).erase (pipe2 opened).1.1)
  | .ok => (some (pipe2 opened).1, (pipe2 opened).2)

/-- A process that has a manager. -/
structure Process where
  opened : Finset ℕ
  /-- How many handlers were made. -/
  made : ℕ := 0
  /-- The handlers the program has a `shared_ptr` to. The argument of a call is one of these. -/
  held : List IoHandler := []
  /-- `exit(-1)` was called. -/
  exited : Bool := false
  manager : State := {}

/-- The process once `create` has made `thread_pipe`. -/
def IsCreated (inherited : Finset ℕ) (e : Setting) (p : Process) : Prop :=
  e.threadPipe = (pipe2 inherited).1.1 ∧ p = { opened := (pipe2 inherited).2 }

/-- What happens in a process. -/
inductive Action
  /-- The program makes a handler. -/
  | make (outcome : PipeOutcome)
  /-- The program gives up its pointer to a handler. -/
  | drop (io : IoHandler)
  /-- A party of the manager acts. -/
  | manager (q : Party)
  deriving DecidableEq

/-- The handler a call is given. -/
def Call.handler? : Call → Option IoHandler
  | .registerFd handler => some handler
  | .unregisterFd io => some io
  | .stop => none

namespace Process

/-- The handlers that are alive: the program or the map has a pointer to them. -/
def alive (p : Process) : Finset IoHandler :=
  p.held.toFinset ∪ (p.manager.ioCallback.map Prod.snd).toFinset

/-- The constructor of `io_handler`. -/
def make (outcome : PipeOutcome) (p : Process) : Process :=
  match pipeOcloexc outcome p.opened with
  | (some (pipefd, _), opened) =>
    { p with opened := opened, made := p.made + 1, held := ⟨p.made, pipefd⟩ :: p.held }
  | (none, opened) => { p with opened := opened, exited := true }

/-- A pointer to the handler is given up. Nothing is closed, whether it was the last one or not. -/
def drop (io : IoHandler) (p : Process) : Process := { p with held := p.held.erase io }

/-- The argument of a call is a handler the program has. -/
def Has (e : Setting) (p : Process) : Party → Prop
  | .caller i => ∀ io ∈ (e.call i).handler?, io ∈ p.held
  | _ => True

instance (p : Process) : ∀ q, Decidable (p.Has e q)
  | .caller i => inferInstanceAs (Decidable (∀ io ∈ (e.call i).handler?, io ∈ p.held))
  | .worker => isTrue trivial
  | .kernel _ => isTrue trivial

/-- The next step of a process. -/
def act (e : Setting) (a : Action) (p : Process) : Option Process :=
  if p.exited then none else
    match a with
    | .make outcome => some (p.make outcome)
    | .drop io => if io ∈ p.held then some (p.drop io) else none
    | .manager q =>
      if p.Has e q then (Select.act e q p.manager).map fun s ↦ { p with manager := s } else none

end Process

/-! ## What fits in an `fd_set`

The worker passes its set to `FD_SET` and `FD_ISSET`, each descriptor by itself, and `maxfd` to
`select`. The condition of the run is on the insertions: a handler is inserted only if its number is
early enough. -/

/-- The descriptors the next step of the worker passes to `FD_SET` or `FD_ISSET`. -/
def macroArguments (e : Setting) (s : State) : Finset ℕ :=
  match s.worker with
  | .build => insert e.threadPipe s.keys
  | .dispatch ((fd, _) :: _) _ => {fd}
  | .clear _ => {e.threadPipe}
  | _ => ∅

/-- All descriptors that are passed to `FD_SET` and `FD_ISSET` fit in an `fd_set`, and `select` is
given a bound above all descriptors in its set. -/
structure WithinSets (e : Setting) (s : State) : Prop where
  macros : ∀ fd ∈ macroArguments e s, fd < fdSetSize
  maxfd : ∀ fdread maxfd, s.worker = .select fdread maxfd → ∀ fd ∈ fdread, fd < maxfd

/-- The pipe that was made after `n` others has a read end that fits. -/
def PipeFits (inherited : Finset ℕ) (n : ℕ) : Prop :=
  takenBelow fdSetSize inherited + 2 * n < fdSetSize

instance (inherited : Finset ℕ) (n : ℕ) : Decidable (PipeFits inherited n) :=
  inferInstanceAs (Decidable (_ < _))

/-- The handler that a call is about to put into the map was made early enough for its pipe to fit.
A call that is refused puts none there. -/
def InsertsEarly (inherited : Finset ℕ) (s : State) (i : ℕ) : Call → Prop
  | .registerFd handler => s.callers i = .update → PipeFits inherited (handler.object + 1)
  | .unregisterFd _ | .stop => True

instance (inherited : Finset ℕ) (s : State) (i : ℕ) :
    ∀ c, Decidable (InsertsEarly inherited s i c)
  | .registerFd _ => inferInstanceAs (Decidable (_ → _))
  | .unregisterFd _ | .stop => .isTrue trivial

/-- The step does not put a handler into the map after whose pipe none fits any more. The manager's
own pipe is the first. -/
def RegistersEarly (inherited : Finset ℕ) (e : Setting) (a : Action) (p : Process) : Prop :=
  match a with
  | .manager (.caller i) => InsertsEarly inherited p.manager i (e.call i)
  | .manager .worker => PipeFits inherited 0
  | _ => True

instance (p : Process) : ∀ a, Decidable (RegistersEarly inherited e a p)
  | .manager (.caller _) => inferInstanceAs (Decidable (InsertsEarly _ _ _ _))
  | .manager .worker => inferInstanceAs (Decidable (PipeFits inherited 0))
  | .manager (.kernel _) | .make _ | .drop _ => .isTrue trivial

/-! ## The bound of `select`

`maxfd` is computed from the same map as the set, in the same step, and goes with it to the
`select`. -/

private theorem lt_maxfd_of_mem {fds : List ℕ} {fd : ℕ} (h : fd ∈ fds) : fd < maxfd e fds := by
  have hkeeps : ∀ (fds : List ℕ) (m : ℕ),
      m ≤ fds.foldl (fun maxfd fd ↦ if maxfd ≤ fd then fd + 1 else maxfd) m := by
    intro fds
    induction fds with
    | nil => exact fun m ↦ le_rfl
    | cons fd fds ih =>
      intro m
      rw [List.foldl_cons]
      refine le_trans ?_ (ih _)
      split_ifs with hle
      · exact Nat.le_succ_of_le hle
      · exact le_rfl
  rw [maxfd]
  generalize e.threadPipe + 1 = m
  induction fds generalizing m with
  | nil => exact absurd h List.not_mem_nil
  | cons fd' fds ih =>
    rw [List.foldl_cons]
    rcases List.mem_cons.mp h with rfl | h
    · refine lt_of_lt_of_le ?_ (hkeeps fds _)
      split_ifs with hle
      · exact Nat.lt_succ_self fd
      · exact not_le.mp hle
    · exact ih h _

/-- The set the worker selects on is below its bound. -/
def Bounded (s : State) : Prop :=
  ∀ fdread maxfd, s.worker.watched = some (fdread, maxfd) → ∀ fd ∈ fdread, fd < maxfd

private theorem bounded_of_unwatched (h : s.worker.watched = none) : Bounded s := fun _ _ hw ↦
  absurd (h.symm.trans hw) (Option.some_ne_none _).symm

theorem Bounded.workerStep (hb : Bounded s) (h : Select.workerStep e s = some t) : Bounded t := by
  cases workerStep_move h with
  | build =>
    rintro fdread maxfd heq fd hfd
    obtain ⟨rfl, rfl⟩ := Prod.mk.inj (Option.some_inj.mp heq)
    rcases Finset.mem_insert.mp hfd with rfl | hfd
    · exact lt_maxfd _
    · exact lt_maxfd_of_mem (List.mem_toFinset.mp hfd)
  | @unlock fdread maxfd hw =>
    have hbuilt := hb fdread maxfd
    rw [hw] at hbuilt
    rintro _ _ heq
    obtain ⟨rfl, rfl⟩ := Prod.mk.inj (Option.some_inj.mp heq)
    exact hbuilt rfl
  | _ => exact bounded_of_unwatched rfl

theorem Bounded.of_reachable (hs : Reachable IsInitial (Step e) s) : Bounded s := by
  apply hs.invariant
  · rintro s rfl
    exact bounded_of_unwatched rfl
  · rintro s t - hb ⟨p, hp⟩
    rcases p with - | ret | i
    · exact hb.workerStep hp
    · obtain ⟨-, pc, rfl, hpc⟩ := kernelStep_move hp
      rcases hpc with ⟨-, rfl⟩ | ⟨ready, -, rfl⟩
      · exact bounded_of_unwatched rfl
      · exact bounded_of_unwatched rfl
    · rw [Bounded, (callStep_move hp).worker_eq]
      exact hb

/-! ## The descriptors of a run

The open descriptors below a bound are counted with the free ones that were there first. Handler `n`
takes two more, as long as there are two; where the count reaches the bound, the next pipe is above
it. -/

section Run

variable {p p' : Process} {a : Action} {q : Party}

private theorem pipe2_fits {opened : Finset ℕ} {n : ℕ}
    (h : takenBelow fdSetSize opened = min fdSetSize (takenBelow fdSetSize inherited + 2 * n)) :
    ((pipe2 opened).1.1 < fdSetSize ↔ PipeFits inherited n) ∧
      takenBelow fdSetSize (pipe2 opened).2
        = min fdSetSize (takenBelow fdSetSize inherited + 2 * (n + 1)) := by
  rw [pipe2, lowestFree_lt_iff, PipeFits, takenBelow_takeLowest, takenBelow_takeLowest, h]
  constructor <;> omega

/-- What holds of the descriptors in every run. -/
structure Allocates (inherited : Finset ℕ) (e : Setting) (p : Process) : Prop where
  threadPipe : e.threadPipe < fdSetSize ↔ PipeFits inherited 0
  opened : p.exited = false → takenBelow fdSetSize p.opened
    = min fdSetSize (takenBelow fdSetSize inherited + 2 * (p.made + 1))
  held : ∀ io ∈ p.held, io.pipefd < fdSetSize ↔ PipeFits inherited (io.object + 1)
  manager : Reachable IsInitial (Step e) p.manager

private theorem Process.act_cases (h : p.act e a = some p') :
    p.exited = false ∧ ((∃ outcome, a = .make outcome ∧ p' = p.make outcome) ∨
      (∃ io, a = .drop io ∧ p' = p.drop io) ∨
      ∃ q s, a = .manager q ∧ p.Has e q ∧ Select.act e q p.manager = some s ∧
        p' = { p with manager := s }) := by
  unfold Process.act at h
  split_ifs at h with hexited
  refine ⟨Bool.eq_false_iff.mpr hexited, ?_⟩
  rcases a with outcome | io | q
  · exact .inl ⟨outcome, rfl, (Option.some_inj.mp h).symm⟩
  · obtain ⟨-, rfl⟩ := of_ite_some h
    exact .inr (.inl ⟨io, rfl, rfl⟩)
  · obtain ⟨hhas, h⟩ := Option.ite_none_right_eq_some.mp h
    obtain ⟨s, hs, rfl⟩ := Option.map_eq_some_iff.mp h
    exact .inr (.inr ⟨q, s, rfl, hhas, hs, rfl⟩)

private theorem allocates_of_isCreated (h : IsCreated inherited e p) : Allocates inherited e p := by
  obtain ⟨hpipe, rfl⟩ := h
  have hstart : takenBelow fdSetSize inherited
      = min fdSetSize (takenBelow fdSetSize inherited + 2 * 0) := by
    have hle := takenBelow_le fdSetSize inherited
    omega
  obtain ⟨hfits, hopened⟩ := pipe2_fits hstart
  exact ⟨hpipe ▸ hfits, fun _ ↦ hopened, fun io hio ↦ absurd hio List.not_mem_nil, .start rfl⟩

/-- The constructor makes a handler whose number says whether its descriptor fits. -/
theorem Allocates.make (ha : Allocates inherited e p) (hexited : p.exited = false)
    (outcome : PipeOutcome) : Allocates inherited e (p.make outcome) := by
  obtain ⟨hfits, hopened⟩ := pipe2_fits (ha.opened hexited)
  cases outcome with
  | ok =>
    refine ⟨ha.threadPipe, fun _ ↦ hopened, fun io hio ↦ ?_, ha.manager⟩
    rcases List.mem_cons.mp hio with rfl | hio
    · exact hfits
    · exact ha.held io hio
  | pipeFails => exact ⟨ha.threadPipe, nofun, ha.held, ha.manager⟩
  | fcntlFails => exact ⟨ha.threadPipe, nofun, ha.held, ha.manager⟩

theorem Allocates.step (ha : Allocates inherited e p) (h : p.act e a = some p') :
    Allocates inherited e p' := by
  obtain ⟨hexited, ⟨outcome, -, rfl⟩ | ⟨io, -, rfl⟩ | ⟨q, s, -, -, hs, rfl⟩⟩ :=
    Process.act_cases h
  · exact ha.make hexited outcome
  · exact ⟨ha.threadPipe, ha.opened, fun io' hio ↦ ha.held io' (List.mem_of_mem_erase hio),
      ha.manager⟩
  · exact ⟨ha.threadPipe, ha.opened, ha.held, ha.manager.next ⟨q, hs⟩⟩

private theorem fits_of_registersEarly {x : ℕ × IoHandler} (ha : Allocates inherited e p)
    (hfits : ∀ x ∈ p.manager.ioCallback, x.1 < fdSetSize) (hearly : RegistersEarly inherited e a p)
    (h : p.act e a = some p') (hx : x ∈ p'.manager.ioCallback) : x.1 < fdSetSize := by
  obtain ⟨-, ⟨outcome, -, rfl⟩ | ⟨io, -, rfl⟩ | ⟨q, s, rfl, hhas, hs, rfl⟩⟩ :=
    Process.act_cases h
  · refine hfits x ?_
    cases outcome <;> exact hx
  · exact hfits x hx
  rcases q with - | ret | i
  · refine hfits x ?_
    rwa [← (workerStep_frame hs).ioCallback]
  · obtain ⟨-, pc, rfl, -⟩ := kernelStep_move hs
    exact hfits x hx
  · rcases (callStep_move hs).mem_ioCallback hx with
      hold | ⟨hupdate, -, handler, hcall, rfl⟩
    · exact hfits x hold
    · rw [RegistersEarly, hcall] at hearly
      refine (ha.held handler (hhas handler ?_)).mpr (hearly hupdate)
      rw [hcall]
      rfl

/-- The steps that register early handlers only. -/
def EarlyStep (inherited : Finset ℕ) (e : Setting) : Process → Process → Prop :=
  Acts (guarded (RegistersEarly inherited e) (Process.act e))

/-- What holds of a run in which only early handlers are registered. -/
structure RunsEarly (inherited : Finset ℕ) (e : Setting) (p : Process) : Prop where
  allocates : Allocates inherited e p
  registered : ∀ x ∈ p.manager.ioCallback, x.1 < fdSetSize
  started : p.manager.worker ≠ .testStopped → PipeFits inherited 0

theorem RunsEarly.step (hr : RunsEarly inherited e p) (h : EarlyStep inherited e p p') :
    RunsEarly inherited e p' := by
  obtain ⟨a, ha⟩ := h
  obtain ⟨hearly, hact⟩ := guarded_eq_some.mp ha
  refine ⟨hr.allocates.step hact,
    fun x hx ↦ fits_of_registersEarly hr.allocates hr.registered hearly hact hx, ?_⟩
  obtain ⟨-, ⟨outcome, -, rfl⟩ | ⟨io, -, rfl⟩ | ⟨q, s, rfl, -, hs, rfl⟩⟩ := Process.act_cases hact
  · cases outcome <;> exact hr.started
  · exact hr.started
  rcases q with - | ret | i
  · exact fun _ ↦ hearly
  · obtain ⟨⟨fdread, maxfd, hw⟩, -⟩ := kernelStep_move hs
    exact fun _ ↦ hr.started (by rw [hw]; exact nofun)
  · rw [(callStep_move hs).worker_eq]
    exact hr.started

theorem RunsEarly.of_reachable
    (hp : Reachable (IsCreated inherited e) (EarlyStep inherited e) p) :
    RunsEarly inherited e p := by
  apply hp.invariant
  · intro p hp
    have hmanager : p.manager = {} := by rw [hp.2]
    refine ⟨allocates_of_isCreated hp, fun x hx ↦ ?_, fun hne ↦ ?_⟩
    · rw [hmanager] at hx
      exact absurd hx List.not_mem_nil
    · rw [hmanager] at hne
      exact absurd rfl hne
  · exact fun p p' _ hr hst ↦ hr.step hst

private theorem RunsEarly.macros (hr : RunsEarly inherited e p) :
    ∀ fd ∈ macroArguments e p.manager, fd < fdSetSize := by
  have hround := (Dispatches.of_reachable hr.allocates.manager).registered
  have hpipe := fun hne ↦ hr.allocates.threadPipe.mpr (hr.started hne)
  intro fd hfd
  rw [macroArguments.eq_def] at hfd
  rcases hw : p.manager.worker with - | - | - | - | ⟨fdread, maxfd⟩ | ⟨fdread, maxfd⟩ | fdread |
      ⟨- | ⟨⟨fd', io⟩, ios⟩, fdread⟩ | ⟨io, ios, fdread⟩ | fdread | - | - <;>
    simp only [hw] at hfd hround hpipe
  case build =>
    rcases Finset.mem_insert.mp hfd with rfl | hfd
    · exact hpipe nofun
    · obtain ⟨x, hx, rfl⟩ := List.mem_map.mp (List.mem_toFinset.mp hfd)
      exact hr.registered x hx
  case dispatch.cons =>
    obtain rfl := Finset.mem_singleton.mp hfd
    exact hr.registered _ (hround _ List.mem_cons_self)
  case clear =>
    obtain rfl := Finset.mem_singleton.mp hfd
    exact hpipe nofun
  all_goals exact absurd hfd (Finset.notMem_empty fd)

/-- **Descriptors.** In every run in which a handler is registered only if it was made early enough
for its descriptor to fit, whatever becomes of the others: all descriptors that the worker passes to
`FD_SET` and `FD_ISSET` fit in an `fd_set`, and the bound of `select` is above all descriptors of
its set. -/
theorem withinSets_of_early (inherited : Finset ℕ) (e : Setting) :
    ∀ p, Reachable (IsCreated inherited e) (EarlyStep inherited e) p → WithinSets e p.manager := by
  intro p hp
  have hr := RunsEarly.of_reachable hp
  refine ⟨hr.macros, fun fdread maxfd hw ↦ ?_⟩
  exact Bounded.of_reachable hr.allocates.manager fdread maxfd (by rw [hw]; rfl)

/-! ## Two runs

With the standard streams open and the pipe of the manager after them, handler `n` gets the
descriptors `2n + 5` and `2n + 6`. In both runs all handlers but the last are dropped before the
next one is made. -/

/-- The descriptors of a process that is started with its three standard streams. -/
def standardStreams : Finset ℕ := Finset.range 3

/-- Call 0 registers the handler that was made after `n` others. -/
def registersLast (n : ℕ) : Setting := ⟨3, 65536, fun _ ↦ .registerFd ⟨n, 2 * n + 5⟩⟩

/-- No more than 100 handlers are alive. -/
def FewAlive (_ : Action) (p : Process) : Prop := p.alive.card ≤ 100

instance (a : Action) (p : Process) : Decidable (FewAlive a p) :=
  inferInstanceAs (Decidable (_ ≤ _))

/-- The process after the program has made `n` handlers and dropped them. -/
def churned (n : ℕ) : Process := { opened := Finset.range (2 * n + 5), made := n }

/-- The process that has dropped `n` handlers and has the next one. -/
def holding (n : ℕ) : Process :=
  { opened := Finset.range (2 * (n + 1) + 5), made := n + 1, held := [⟨n, 2 * n + 5⟩] }

private theorem make_churned (n : ℕ) : (churned n).make .ok = holding n := by
  have hpipe : pipe2 (churned n).opened
      = ((2 * n + 5, 2 * n + 6), Finset.range (2 * (n + 1) + 5)) := by
    have hnext : 2 * (n + 1) + 5 = 2 * n + 5 + 1 + 1 := by ring
    rw [pipe2, churned, lowestFree_range, takeLowest_range, lowestFree_range, takeLowest_range,
      hnext]
  rw [Process.make, pipeOcloexc, hpipe]
  rfl

private theorem drop_holding (n : ℕ) : (holding n).drop ⟨n, 2 * n + 5⟩ = churned (n + 1) := by
  rw [Process.drop, holding, List.erase_cons_head]
  rfl

private theorem isCreated_churned (n : ℕ) :
    IsCreated standardStreams (registersLast n) (churned 0) := by
  rw [IsCreated, pipe2, standardStreams, lowestFree_range, takeLowest_range, takeLowest_range]
  exact ⟨rfl, rfl⟩

/-- The steps of a process in which few handlers are alive at a time. -/
def FewStep (e : Setting) : Process → Process → Prop := Acts (guarded FewAlive (Process.act e))

/-- Handlers may be made and dropped one after another without end. -/
private theorem reachable_churned {G : Action → Process → Prop} [∀ a p, Decidable (G a p)] (m : ℕ)
    (hmake : ∀ n, G (.make .ok) (churned n)) (hdrop : ∀ n, G (.drop ⟨n, 2 * n + 5⟩) (holding n))
    (n : ℕ) :
    Reachable (IsCreated standardStreams (registersLast m))
      (Acts (guarded G (Process.act (registersLast m)))) (churned n) := by
  induction n with
  | zero => exact .start (isCreated_churned m)
  | succ n ih =>
    have hmade : (churned n).act (registersLast m) (.make .ok) = some (holding n) :=
      congrArg some (make_churned n)
    have hdropped : (holding n).act (registersLast m) (.drop ⟨n, 2 * n + 5⟩)
        = some (churned (n + 1)) := by
      rw [← drop_holding]
      exact if_pos (List.mem_singleton_self _)
    exact (ih.next ⟨_, guarded_eq_some.mpr ⟨hmake n, hmade⟩⟩).next
      ⟨_, guarded_eq_some.mpr ⟨hdrop n, hdropped⟩⟩

private theorem fewAlive_make (n : ℕ) : FewAlive (.make .ok) (churned n) := by
  rw [FewAlive, Process.alive]
  simp [churned]

private theorem fewAlive_drop (n : ℕ) : FewAlive (.drop ⟨n, 2 * n + 5⟩) (holding n) := by
  rw [FewAlive, Process.alive]
  simp [holding]

/-- The last handler is registered, and the worker is about to look at it. -/
def registration : List Action :=
  List.replicate 6 (.manager (.caller 0)) ++ [.manager .worker, .manager .worker]

/-- With the standard streams, 510 handlers that were made and dropped are enough: the one after
them does not fit, although it is the only one. -/
theorem leaked_exceed_fdSet :
    ∃ p, Reachable (IsCreated standardStreams (registersLast 510)) (FewStep (registersLast 510)) p ∧
      p.alive.card = 1 ∧ 1025 ∈ macroArguments (registersLast 510) p.manager ∧
      ¬ WithinSets (registersLast 510) p.manager := by
  have hmade : Reachable (IsCreated standardStreams (registersLast 510))
      (FewStep (registersLast 510)) (holding 510) := by
    refine (reachable_churned 510 fewAlive_make fewAlive_drop 510).next
      ⟨.make .ok, guarded_eq_some.mpr ⟨fewAlive_make 510, ?_⟩⟩
    exact congrArg some (make_churned 510)
  have hs : (execute (guarded FewAlive (Process.act (registersLast 510))) registration
      (holding 510)).any (fun p ↦
        p.alive.card = 1 ∧ 1025 ∈ macroArguments (registersLast 510) p.manager) = true := by
    decide +kernel
  obtain ⟨p, hrun, halive, hmem⟩ := exists_of_execute hs
  refine ⟨p, reachable_of_execute hmade hrun, halive, hmem, fun hwithin ↦ ?_⟩
  exact absurd (hwithin.macros 1025 hmem) (by decide)

/-- The last handler that fits, of which the others were made and dropped before. -/
theorem withinSets_of_early_last :
    ∃ p, Reachable (IsCreated standardStreams (registersLast 509))
        (EarlyStep standardStreams (registersLast 509)) p ∧
      1023 ∈ macroArguments (registersLast 509) p.manager ∧
      WithinSets (registersLast 509) p.manager := by
  have hmade : Reachable (IsCreated standardStreams (registersLast 509))
      (EarlyStep standardStreams (registersLast 509)) (holding 509) := by
    refine (reachable_churned 509 (fun _ ↦ trivial) (fun _ ↦ trivial) 509).next
      ⟨.make .ok, guarded_eq_some.mpr ⟨trivial, ?_⟩⟩
    exact congrArg some (make_churned 509)
  have hs : (execute (guarded (RegistersEarly standardStreams (registersLast 509))
      (Process.act (registersLast 509))) registration (holding 509)).any
        (fun p ↦ 1023 ∈ macroArguments (registersLast 509) p.manager) = true := by
    decide +kernel
  obtain ⟨p, hrun, hend⟩ := exists_of_execute hs
  have hp := reachable_of_execute hmade hrun
  exact ⟨p, hp, hend, withinSets_of_early _ _ p hp⟩

end Run

end Select

end CppRepo
