import CppRepo.Library.Transition

/-!
# The main loop and the session events

ZooKeeper tells a process in a thread of its own that its session is lost or suspended:
`ZKBase.listen` sets `state_changes` and then, through `callback`, the event `_wake_up`. The main
loop waits for the event or for the next interval, clears the event, and tests `state_changes`. If
it is set, it calls `ZKBase.reinit` and `HAMaster.reinit`, outside of its exception handler, with an
argument `state` that is not a name `run` knows. So the loop ends with an exception whenever it
notices an event.

## The beginning of a run

`run` first makes a `ZKBase`, whose constructor registers `listen`, then sets `state` to `RUNNING`
and at last clears `state_changes`. The model begins where `listen` has been registered, and these
two statements are steps of their own, since `listen` ignores what comes before the first and an
event that comes between them is forgotten by the second. The first election and the delayed start
are one step, since they do not touch the flags; the election talks to ZooKeeper outside of any
handler, so it may raise, and that is a step of its own, too. So may the election of
`HAMaster.reinit`.

## Steps and ghosts

A step is one action of one party on what they share. There may be any number of notifications, and
they may be on their way at the same time. A notification is delivered when `listen` is through.
`ZKBase.reinit` may have to restart the connection any number of times. What `ZKBase.reinit` and
`HAMaster.reinit` have followed is recorded in `reset` and `handled`, which no step looks at.

## When no event is lost

The loop has two chances to go wrong: the constructor may clear a flag that is set, and the loop may
find one. A run that meets neither is quiet. In a quiet run a notification leaves the flag set for
good, and the event is set or the loop is about to test the flag; so a loop that waits has missed
nothing, as there was nothing to miss. The other two lead to the two ways in which the claim of the
code fails: a loop that waits with an event unhandled, and a loop that has ended.
-/

namespace CppRepo

namespace Daemon

/-! ## Names -/

/-- The local names of `run` in its loop. -/
def runLocals : List String := ["self", "timer"]

/-- The names `process.py` imports and defines. -/
def processGlobals : List String :=
  ["socket", "threading", "time", "uuid", "sys", "cachetools", "cotyledon", "oslo_config_glue",
    "utils", "zk_common", "logging", "LOG", "Config", "ProcessBase", "UpdnsServiceManager",
    "process", "conf"]

/-- Python finds the name in `run`, given that it is not one of the built-in names. -/
def resolves (name : String) : Bool := name ∈ runLocals ++ processGlobals

theorem not_resolves_state : resolves "state" = false := by decide

/-! ## The parties -/

/-- What `run` does next. -/
inductive MainPc
  /-- `self.state = "RUNNING"`, in the constructor of `ZKBase` -/
  | setRunning
  /-- `self.state_changes = False`, the last statement there -/
  | initChanges
  /-- the constructor of `HAMaster`, `self.ha.elect()` and `time.sleep(self.startup_delay)` -/
  | startup
  /-- `not self._shutdown.is_set()` -/
  | testShutdown
  /-- the job, with its exception handler -/
  | job
  /-- `self._wake_up.wait(..)` -/
  | wait
  /-- `self._wake_up.clear()` -/
  | clear
  /-- `if self.zkcli.state_changes` -/
  | testChanges
  /-- the argument of `self.zkcli.reinit(state)` -/
  | zkArgument
  /-- `self.zk.state != KazooState.CONNECTED` -/
  | testConnected
  /-- `self.zk.restart()`, with its exception handler -/
  | restart
  /-- `self.state_changes = False` -/
  | resetChanges
  /-- the argument of `self.ha.reinit(state)` -/
  | haArgument
  /-- the body of `HAMaster.reinit` -/
  | haReinit
  /-- `self._shutdown_done.set()` -/
  | setDone
  | done
  /-- `run` has ended with an exception while it handled an event. -/
  | raised
  /-- `run` has ended with an exception of the first election. -/
  | failed
  deriving DecidableEq

/-- Where a notification is in `listen`. -/
inductive NotificationPc
  | pending
  /-- `if self.state == "STOPPED"` -/
  | test
  /-- `self.state_changes = True` -/
  | setChanges
  /-- `self.scheduler.callback(state)` -/
  | callback
  | delivered
  | ignored
  deriving DecidableEq

/-- What `terminate` does next. -/
inductive TerminatePc
  | idle
  /-- `self._shutdown.set()` -/
  | setShutdown
  /-- `self.wakeup()` -/
  | wakeup
  /-- `self._shutdown_done.wait()` -/
  | waitDone
  /-- `self.close_services()` -/
  | closeServices
  | returned
  deriving DecidableEq

/-- Who acts. -/
inductive Party
  | main
  | notification (n : ℕ)
  | terminate
  /-- The connection to ZooKeeper comes or goes. -/
  | connection (up : Bool)
  /-- The election in which the loop is raises. -/
  | electionFails
  deriving DecidableEq

/-- What the threads of a process share, and where they are. -/
structure State where
  wakeUp : Bool := false
  shutdown : Bool := false
  shutdownDone : Bool := false
  connected : Bool := true
  /-- `ZKBase.state` is `RUNNING`. -/
  running : Bool := false
  stateChanges : Bool := false
  main : MainPc := .setRunning
  notifications : ℕ → NotificationPc := fun _ ↦ .pending
  terminate : TerminatePc := .idle
  /-- What was delivered when `ZKBase.reinit` was last through. -/
  reset : ℕ → Bool := fun _ ↦ false
  /-- What a completed `ZKBase.reinit` and then a completed `HAMaster.reinit` have followed. -/
  handled : ℕ → Bool := fun _ ↦ false

def IsInitial (s : State) : Prop := s = {}

/-! ## The steps -/

/-- The next step of `run`. -/
def mainStep (s : State) : Option State :=
  match s.main with
  | .setRunning => some { s with running := true, main := .initChanges }
  | .initChanges => some { s with stateChanges := false, main := .startup }
  | .startup => some { s with main := .testShutdown }
  | .testShutdown => some { s with main := if s.shutdown then .setDone else .job }
  | .job => some { s with main := .wait }
  -- The event is set, or the time is over.
  | .wait => some { s with main := .clear }
  | .clear => some { s with wakeUp := false, main := .testChanges }
  | .testChanges => some { s with main := if s.stateChanges then .zkArgument else .testShutdown }
  | .zkArgument =>
    some { s with main := if resolves "state" then .testConnected else .raised }
  | .testConnected => some { s with main := if s.connected then .resetChanges else .restart }
  | .restart => some { s with main := .testConnected }
  | .resetChanges => some { s with
      stateChanges := false
      reset := fun n ↦ s.notifications n = .delivered
      main := .haArgument }
  | .haArgument => some { s with main := if resolves "state" then .haReinit else .raised }
  | .haReinit => some { s with handled := s.reset, main := .testShutdown }
  | .setDone => some { s with shutdownDone := true, main := .done }
  | .done | .raised | .failed => none

/-- The election in which the loop is raises. -/
def electionFails (s : State) : Option State :=
  match s.main with
  | .startup => some { s with main := .failed }
  | .haReinit => some { s with main := .raised }
  | _ => none

def State.setNotification (n : ℕ) (pc : NotificationPc) (s : State) : State :=
  { s with notifications := Function.update s.notifications n pc }

/-- The next step of `listen` for a notification. -/
def notificationStep (n : ℕ) (s : State) : Option State :=
  match s.notifications n with
  | .pending => some (s.setNotification n .test)
  | .test => some (s.setNotification n (if s.running then .setChanges else .ignored))
  | .setChanges => some { s.setNotification n .callback with stateChanges := true }
  | .callback => some { s.setNotification n .delivered with wakeUp := true }
  | .delivered => none
  | .ignored => none

/-- The next step of `terminate`. -/
def terminateStep (s : State) : Option State :=
  match s.terminate with
  | .idle => some { s with terminate := .setShutdown }
  | .setShutdown => some { s with shutdown := true, terminate := .wakeup }
  | .wakeup => some { s with wakeUp := true, terminate := .waitDone }
  | .waitDone => if s.shutdownDone then some { s with terminate := .closeServices } else none
  | .closeServices => some { s with running := false, terminate := .returned }
  | .returned => none

/-- The next step of a party. -/
def act (p : Party) (s : State) : Option State :=
  match p with
  | .main => mainStep s
  | .notification n => notificationStep n s
  | .terminate => terminateStep s
  | .connection up => some { s with connected := up }
  | .electionFails => electionFails s

/-- A step of some party. -/
def Step : State → State → Prop := Acts act

/-! ## Runs in which the loop finds nothing -/

/-- If this step clears or tests `state_changes`, it finds the flag clear. -/
def FindsNone (p : Party) (s : State) : Prop :=
  p = .main → s.main = .initChanges ∨ s.main = .testChanges → s.stateChanges = false

instance (p : Party) (s : State) : Decidable (FindsNone p s) :=
  inferInstanceAs (Decidable (_ → _ → _))

/-- A step that does not find the flag set, to clear it or to act on it. -/
def QuietStep : State → State → Prop := Acts (guarded FindsNone act)

/-- While the loop waits with nothing to wake it up, each notification that was delivered has been
handled; and the loop has not ended with an exception while it handled one. -/
def Handles (s : State) : Prop :=
  (s.main = .wait → s.wakeUp = false → s.shutdown = false →
    ∀ n, s.notifications n = .delivered → s.handled n = true) ∧ s.main ≠ .raised

/-- The loop is not in the branch in which it handles an event. -/
def MainPc.IsQuiet : MainPc → Prop
  | .setRunning | .initChanges | .startup | .testShutdown | .job | .wait | .clear | .testChanges
  | .setDone | .done | .failed => True
  | _ => False

/-- `listen` has set the flag for the notification. -/
def NotificationPc.HasSet (pc : NotificationPc) : Prop := pc = .callback ∨ pc = .delivered

/-- A notification leaves the flag set, and is not yet missed: the event is set, or the loop has
just cleared it and tests the flag next. Only notifications set the flag. -/
structure Quiet (s : State) : Prop where
  main : s.main.IsQuiet
  flag : ∀ n, (s.notifications n).HasSet → s.stateChanges = true
  source : s.stateChanges = true → ∃ n, (s.notifications n).HasSet
  event : ∀ n, s.notifications n = .delivered → s.wakeUp = true ∨ s.main = .testChanges
  handled : ∀ n, s.handled n = false

variable {s t : State} {n : ℕ}

namespace Quiet

private theorem initial : Quiet {} := by
  constructor
  · trivial
  · rintro n (h | h) <;> exact NotificationPc.noConfusion h
  · exact fun h ↦ Bool.noConfusion h
  · exact fun n h ↦ NotificationPc.noConfusion h
  · exact fun _ ↦ rfl

/-- The flag is clear, so nothing was delivered. -/
private theorem not_delivered (hq : Quiet s) (hclear : s.stateChanges = false) :
    s.notifications n ≠ .delivered := fun h ↦
  Bool.noConfusion (hclear.symm.trans (hq.flag n (Or.inr h)))

private theorem mainStep (hq : Quiet s) (hnone : FindsNone .main s)
    (h : Daemon.mainStep s = some t) : Quiet t := by
  have hmain := hq.main
  -- At a place other than the test of the flag the event is set.
  have hset : s.main ≠ .testChanges → ∀ n, s.notifications n = .delivered → s.wakeUp = true :=
    fun hm n hn ↦ (hq.event n hn).resolve_right hm
  rcases hm : s.main <;> rw [hm] at hmain hset <;>
    simp only [Daemon.mainStep, hm, Option.some.injEq, reduceCtorEq] at h
  case setRunning | startup | job | wait | setDone =>
    subst h
    exact ⟨trivial, hq.flag, hq.source, fun n hn ↦ Or.inl (hset MainPc.noConfusion n hn),
      hq.handled⟩
  case initChanges =>
    -- The flag was clear before, so clearing it forgets nothing.
    have hclear := hnone rfl (Or.inl hm)
    subst h
    refine ⟨trivial, fun n hn ↦ ?_, fun h ↦ Bool.noConfusion h, fun n hn ↦ ?_, hq.handled⟩
    · exact hclear.symm.trans (hq.flag n hn)
    · exact absurd hn (hq.not_delivered hclear)
  case testShutdown =>
    subst h
    refine ⟨?_, hq.flag, hq.source, fun n hn ↦ Or.inl (hset MainPc.noConfusion n hn), hq.handled⟩
    split_ifs
    · trivial
    · trivial
  case clear =>
    subst h
    exact ⟨trivial, hq.flag, hq.source, fun _ _ ↦ Or.inr rfl, hq.handled⟩
  case testChanges =>
    have hclear := hnone rfl (Or.inr hm)
    rw [if_neg (ne_true_of_eq_false hclear)] at h
    subst h
    exact ⟨trivial, hq.flag, hq.source, fun n hn ↦ absurd hn (hq.not_delivered hclear), hq.handled⟩
  all_goals exact hmain.elim

private theorem notifications_setNotification (n m : ℕ) (pc : NotificationPc) (s : State) :
    (s.setNotification n pc).notifications m = if m = n then pc else s.notifications m :=
  Function.update_apply _ _ _ _

/-- A notification that moves on, but does not set the flag. -/
private theorem setNotification (hq : Quiet s) {pc : NotificationPc} (hpc : ¬ pc.HasSet)
    (hn : ¬ (s.notifications n).HasSet) : Quiet (s.setNotification n pc) := by
  refine ⟨hq.main, fun m hm ↦ ?_, fun hset ↦ ?_, fun m hm ↦ ?_, hq.handled⟩
  · rw [notifications_setNotification] at hm
    split_ifs at hm with hmn
    · exact absurd hm hpc
    · exact hq.flag m hm
  · obtain ⟨m, hm⟩ := hq.source hset
    refine ⟨m, ?_⟩
    have hmn : m ≠ n := fun hmn ↦ hn (hmn ▸ hm)
    rwa [notifications_setNotification, if_neg hmn]
  · rw [notifications_setNotification] at hm
    split_ifs at hm with hmn
    · exact absurd (Or.inr hm) hpc
    · exact hq.event m hm

private theorem notificationStep (hq : Quiet s) (h : Daemon.notificationStep n s = some t) :
    Quiet t := by
  have hself (pc : NotificationPc) : (s.setNotification n pc).notifications n = pc := by
    rw [notifications_setNotification, if_pos rfl]
  rcases hn : s.notifications n <;>
    simp only [Daemon.notificationStep, hn, Option.some.injEq, reduceCtorEq] at h
  case pending =>
    subst h
    exact hq.setNotification (by simp [NotificationPc.HasSet]) (by simp [NotificationPc.HasSet, hn])
  case test =>
    subst h
    refine hq.setNotification ?_ (by simp [NotificationPc.HasSet, hn])
    split_ifs <;> simp [NotificationPc.HasSet]
  case setChanges =>
    -- The notification is not delivered before the event is set, too.
    subst h
    refine ⟨hq.main, fun _ _ ↦ rfl, fun _ ↦ ⟨n, Or.inl (hself _)⟩, fun m hm ↦ ?_, hq.handled⟩
    have hold : s.notifications m = .delivered := by
      have hm' : (s.setNotification n .callback).notifications m = .delivered := hm
      rw [notifications_setNotification] at hm'
      split_ifs at hm'
      exact hm'
    exact hq.event m hold
  case callback =>
    subst h
    exact ⟨hq.main, fun m _ ↦ hq.flag n (Or.inl hn), fun _ ↦ ⟨n, Or.inr (hself _)⟩,
      fun _ _ ↦ Or.inl rfl, hq.handled⟩

private theorem terminateStep (hq : Quiet s) (h : Daemon.terminateStep s = some t) : Quiet t := by
  rcases hp : s.terminate <;>
    simp only [Daemon.terminateStep, hp, Option.some.injEq, Option.ite_none_right_eq_some,
      reduceCtorEq] at h
  case wakeup =>
    subst h
    exact ⟨hq.main, hq.flag, hq.source, fun _ _ ↦ Or.inl rfl, hq.handled⟩
  case waitDone =>
    obtain ⟨-, rfl⟩ := h
    exact ⟨hq.main, hq.flag, hq.source, hq.event, hq.handled⟩
  all_goals
    subst h
    exact ⟨hq.main, hq.flag, hq.source, hq.event, hq.handled⟩

private theorem electionFails (hq : Quiet s) (h : Daemon.electionFails s = some t) : Quiet t := by
  have hmain := hq.main
  rcases hm : s.main <;> rw [hm] at hmain <;>
    simp only [Daemon.electionFails, hm, Option.some.injEq, reduceCtorEq] at h
  case startup =>
    subst h
    refine ⟨trivial, hq.flag, hq.source, fun n hn ↦ Or.inl ?_, hq.handled⟩
    exact (hq.event n hn).resolve_right (by rw [hm]; exact MainPc.noConfusion)
  case haReinit => exact hmain.elim

/-- **One step.** -/
theorem step (hq : Quiet s) (h : QuietStep s t) : Quiet t := by
  obtain ⟨p, hp⟩ := h
  obtain ⟨hnone, hp⟩ := guarded_eq_some.mp hp
  rcases p with - | n | - | up | -
  · exact hq.mainStep hnone hp
  · exact hq.notificationStep hp
  · exact hq.terminateStep hp
  · obtain rfl := Option.some_inj.mp hp
    exact ⟨hq.main, hq.flag, hq.source, hq.event, hq.handled⟩
  · exact hq.electionFails hp

/-- **A run.** -/
theorem of_reachable (hs : Reachable IsInitial QuietStep s) : Quiet s := by
  apply hs.invariant
  · rintro s rfl
    exact initial
  · exact fun s t _ hq hst ↦ hq.step hst

/-- Nothing that was delivered is missed by a loop that waits. -/
theorem handles (hq : Quiet s) : Handles s := by
  constructor
  · intro hm hclear _ n hn
    rcases hq.event n hn with hset | htest
    · exact Bool.noConfusion (hclear.symm.trans hset)
    · exact MainPc.noConfusion (hm.symm.trans htest)
  · intro hm
    have hmain := hq.main
    rw [hm] at hmain
    exact hmain

/-! ## What happens to a notification

The two steps that a quiet run does without. The test that finds the flag set is followed by the
exception. The constructor that clears a flag which is set forgets the notification that has set it:
when this is delivered, the event wakes the loop once, but the loop finds the flag clear and goes
back to its wait. -/

end Quiet

private theorem exists_raised (hm : s.main = .testChanges) (hchanges : s.stateChanges = true) :
    ∃ t, act .main s = some t ∧ act .main t = some { t with main := .raised } := by
  refine ⟨{ s with main := .zkArgument }, ?_, ?_⟩
  · simp only [act, mainStep, hm, hchanges, if_true]
  · simp only [act, mainStep, not_resolves_state, Bool.false_eq_true, if_false]

/-- The loop from the end of the constructor to its second wait. -/
private theorem execute_twoRounds (hm : s.main = .initChanges) (hshutdown : s.shutdown = false) :
    execute act (List.replicate 9 .main) s =
      some { s with stateChanges := false, wakeUp := false, main := .wait } := by
  simp [List.replicate_succ, execute, act, mainStep, hm, hshutdown]

/-- A notification that has set the flag is delivered, and nothing else changes but the event. -/
private theorem exists_delivered (hset : (s.notifications n).HasSet) :
    ∃ ps t, execute act ps s = some t ∧ t.notifications n = .delivered ∧ t.main = s.main ∧
      t.shutdown = s.shutdown ∧ t.handled = s.handled := by
  rcases hset with hn | hn
  · refine ⟨[.notification n], { s.setNotification n .delivered with wakeUp := true }, ?_, ?_, rfl,
      rfl, rfl⟩
    · simp only [execute, act, notificationStep, hn, Option.bind_some]
    · exact Function.update_self _ _ _
  · exact ⟨[], s, rfl, hn, rfl, rfl, rfl⟩

private theorem Quiet.exists_missed (hq : Quiet s) (hm : s.main = .initChanges)
    (hchanges : s.stateChanges = true) (hshutdown : s.shutdown = false) :
    ∃ ps t, execute act ps s = some t ∧ ¬ Handles t := by
  obtain ⟨n, hset⟩ := hq.source hchanges
  obtain ⟨ps, t, hps, hn, hmain, hshut, hhandled⟩ := exists_delivered hset
  have hrounds := execute_twoRounds (hmain.trans hm) (hshut.trans hshutdown)
  refine ⟨ps ++ List.replicate 9 .main,
    { t with stateChanges := false, wakeUp := false, main := .wait }, ?_, fun h ↦ ?_⟩
  · rw [execute_append, hps]
    exact hrounds
  · have htrue : t.handled n = true := h.1 rfl rfl (hshut.trans hshutdown) n hn
    have hfalse : t.handled n = false := (congrFun hhandled n).trans (hq.handled n)
    exact Bool.noConfusion (htrue.symm.trans hfalse)

/-- **The session events.** As long as the constructor never clears `state_changes` when it is set
and the loop never finds it set, the loop waits only while nothing delivered is unhandled, and it
has not ended with an exception. Where the loop finds the flag set, its next step is the exception;
and where the constructor clears a flag that is set, the notification is missed, in a run that goes
on from there without a request to shut down. -/
theorem handles_of_quiet (hs : Reachable IsInitial QuietStep s) :
    Handles s ∧
      (s.main = .testChanges → s.stateChanges = true →
        ∃ t, act .main s = some t ∧ act .main t = some { t with main := .raised }) ∧
      (s.main = .initChanges → s.stateChanges = true → s.shutdown = false →
        ∃ ps t, execute act ps s = some t ∧ ¬ Handles t) := by
  have hq := Quiet.of_reachable hs
  exact ⟨hq.handles, exists_raised, hq.exists_missed⟩

/-- A first round without an event, after which the loop waits. -/
theorem handles_of_quiet_wait :
    ∃ s, Reachable IsInitial QuietStep s ∧ s.main = .wait ∧ s.wakeUp = false ∧ Handles s := by
  have hs : (execute (guarded FindsNone act) (List.replicate 10 .main) {}).any
      (fun s ↦ s.main = .wait ∧ s.wakeUp = false) = true := by decide +kernel
  obtain ⟨s, hrun, hm, hclear⟩ := exists_of_execute hs
  have hreach : Reachable IsInitial QuietStep s := reachable_of_execute (.start rfl) hrun
  exact ⟨s, hreach, hm, hclear, (handles_of_quiet hreach).1⟩

/-- One notification while the loop waits, and the loop ends with an exception. -/
theorem notification_raises :
    ∃ s, Reachable IsInitial Step s ∧ s.notifications 0 = .delivered ∧ ¬ Handles s := by
  have hs : (execute act (List.replicate 5 .main ++ List.replicate 4 (.notification 0) ++
      List.replicate 4 .main) {}).any (fun s ↦
        s.notifications 0 = .delivered ∧ s.main = .raised) = true := by decide +kernel
  obtain ⟨s, hrun, hdelivered, hm⟩ := exists_of_execute hs
  exact ⟨s, reachable_of_execute (.start rfl) hrun, hdelivered, fun h ↦ h.2 hm⟩

end Daemon

end CppRepo
