import CppRepo.Tasks.Conservation

/-!
# The sleep of the worker

In `TaskManager` a sleeper may wake at any time and `notify_all` does nothing. Here `cond` is
spelled out: the worker falls asleep with the step that gives the mutex back, and cannot go on until
a call of `add_task` or `stop` has notified `cond`, or it has been woken for nothing. A call
notifies before it gives its mutex back; the two are one step, since nobody sees what lies between
them.

**Main results.** Both machines reach the same states of the manager, so what was shown of every run
of the first is true of the second. In the version that locks again at the end of a round no
notification is lost: a worker that sleeps although there is something to do is woken by the next
step of the call that holds the mutex.
-/

namespace CppRepo

namespace Tasks

/-- The manager with its condition variable. -/
structure Monitor where
  manager : State := {}
  /-- The worker sleeps in `cond`. -/
  asleep : Bool := false

/-- `p` is about to call `cond.notify_all()` and to give the mutex back. -/
def notifies (s : State) : Party → Bool
  | .worker => false
  | .adder i => s.adds i = .unlock
  | .stopper i => s.stops i = .unlock

namespace Monitor

/-- What may happen: a step of a party, or a spurious wakeup. -/
inductive Action
  | step (p : Party)
  | wake
  deriving DecidableEq, Repr

/-- Whether the worker sleeps after a step of `p` to `t`. -/
def sleepAfter (m : Monitor) (p : Party) (t : State) : Bool :=
  match p with
  | .worker => t.worker = .waiting
  | p => m.asleep && !notifies m.manager p

/-- What an action does. A worker that sleeps has no step. -/
def act (v : Variant) (a : Action) (m : Monitor) : Option Monitor :=
  match a with
  | .step p =>
    if p = .worker ∧ m.asleep = true then none
    else (Tasks.act v p m.manager).map fun t ↦ ⟨t, m.sleepAfter p t⟩
  | .wake => if m.asleep = true then some { m with asleep := false } else none

/-- The manager when its thread is created. -/
def IsInitial (m : Monitor) : Prop := m = {}

def Step (v : Variant) : Monitor → Monitor → Prop := Acts (act v)

variable {v : Variant} {a : Action} {p q : Party} {i : ℕ} {m n : Monitor} {s t : State}

theorem act_step (h : act v (.step p) m = some n) :
    (p = .worker → m.asleep = false) ∧ Tasks.act v p m.manager = some n.manager ∧
      n.asleep = m.sleepAfter p n.manager := by
  obtain ⟨hawake, h⟩ := Option.ite_none_left_eq_some.mp h
  obtain ⟨t, ht, rfl⟩ := Option.map_eq_some_iff.mp h
  refine ⟨fun hp ↦ ?_, ht, rfl⟩
  exact Bool.eq_false_iff.mpr fun hasleep ↦ hawake ⟨hp, hasleep⟩

private theorem sleepAfter_of_ne (hp : p ≠ .worker) :
    m.sleepAfter p t = (m.asleep && !notifies m.manager p) := by
  cases p with
  | worker => exact absurd rfl hp
  | adder | stopper => rfl

theorem act_wake (h : act v .wake m = some n) : n = { m with asleep := false } :=
  (of_ite_some h).2.symm

theorem isSome_step (hp : p ≠ .worker) (h : (Tasks.act v p m.manager).isSome) :
    (act v (.step p) m).isSome := by
  rw [act, if_neg fun hw ↦ hp hw.1, Option.isSome_map]
  exact h

/-! ## The two machines

A run with the sleep spelled out is one of the manager if one forgets the sleep. The other way, a
wakeup is put in after each step of the worker that falls asleep, so that it is always awake. -/

private theorem manager_of_act (h : act v a m = some n) :
    Tasks.Step v m.manager n.manager ∨ n.manager = m.manager := by
  rcases a with p | -
  · exact Or.inl ⟨p, (act_step h).2.1⟩
  · exact Or.inr (by rw [act_wake h])

theorem reachable_manager (hm : Reachable IsInitial (Step v) m) :
    Reachable Tasks.IsInitial (Tasks.Step v) m.manager := by
  induction hm with
  | start hm => exact .start (congrArg manager hm)
  | next _ hst ih =>
    obtain ⟨a, ha⟩ := hst
    rcases manager_of_act ha with hstep | heq
    · exact ih.next hstep
    · rw [heq]
      exact ih

private theorem reachable_awake (hs : Reachable IsInitial (Step v) ⟨s, false⟩)
    (h : Tasks.act v p s = some t) : Reachable IsInitial (Step v) ⟨t, false⟩ := by
  have hstep : act v (.step p) ⟨s, false⟩ = some ⟨t, sleepAfter ⟨s, false⟩ p t⟩ := by
    rw [act, if_neg fun hw ↦ Bool.false_ne_true hw.2, h]
    rfl
  have hnext := hs.next ⟨_, hstep⟩
  rcases hasleep : sleepAfter ⟨s, false⟩ p t with - | -
  · rw [hasleep] at hnext
    exact hnext
  · rw [hasleep] at hnext
    exact hnext.next ⟨.wake, rfl⟩

/-- **Spurious wakeups make up for what the first machine leaves out.** A state of the manager is
reached with the sleep spelled out if and only if it is reached without. -/
theorem reachable_iff : Reachable Tasks.IsInitial (Tasks.Step v) s ↔
    ∃ m : Monitor, m.manager = s ∧ Reachable IsInitial (Step v) m := by
  constructor
  · intro hs
    suffices h : Reachable IsInitial (Step v) ⟨s, false⟩ from ⟨_, rfl, h⟩
    induction hs with
    | start hs => exact .start (congrArg (Monitor.mk · false) hs)
    | next _ hst ih =>
      obtain ⟨p, hp⟩ := hst
      exact reachable_awake ih hp
  · rintro ⟨m, rfl, hm⟩
    exact reachable_manager hm

/-! ## What a call does to what the worker waits for

A step of a call leaves the worker where it is, and changes the queue only if the call holds the
mutex. After a step that changes the queue or the flag, the call is about to notify. -/

/-- A step of a call leaves the worker and the others where they are, touches the queue only with
the mutex, and goes on to notify if it has changed what the worker waits for. -/
structure CallFrame (p : Party) (s t : State) : Prop where
  worker : t.worker = s.worker
  others : ∀ q ≠ p, notifies t q = notifies s q
  queue : t.task = s.task ∨ s.owner = some p
  tells : t.task = s.task ∧ t.stopped = s.stopped ∨ notifies t p = true

private theorem callFrame (hl : Locks v s) (hp : p ≠ .worker) (h : Tasks.act v p s = some t) :
    CallFrame p s t := by
  rw [act_of_alive (alive_of_act h)] at h
  rcases p with - | i | i
  · exact absurd rfl hp
  · have hframe := addStep_frame h
    refine ⟨hframe.worker, fun q hq ↦ ?_, ?_, ?_⟩
    · rcases q with - | j | j
      · rfl
      · simp only [notifies, hframe.adds j fun hji ↦ hq (congrArg Party.adder hji)]
      · simp only [notifies, hframe.stops]
    · cases addStep_move h with
      | push hi => exact Or.inr (hl.add i (by rw [hi]; trivial))
      | _ => exact Or.inl rfl
    · cases addStep_move h with
      | push hi => exact Or.inr (decide_eq_true (Function.update_self _ _ _))
      | _ => exact Or.inl ⟨rfl, rfl⟩
  · have hframe := stopStep_frame h
    refine ⟨hframe.worker, fun q hq ↦ ?_, Or.inl hframe.task, ?_⟩
    · rcases q with - | j | j
      · rfl
      · simp only [notifies, hframe.adds]
      · simp only [notifies, hframe.stops j fun hji ↦ hq (congrArg Party.stopper hji)]
    · rcases hi : s.stops i with - | - | - | - | - | - <;>
        simp only [stopStep, hi, Option.ite_none_right_eq_some, reduceCtorEq] at h
      case lock => exact Option.some_inj.mp h.2 ▸ Or.inl ⟨rfl, rfl⟩
      case set =>
        exact Option.some_inj.mp h ▸ Or.inr (decide_eq_true (Function.update_self _ _ _))
      all_goals exact Option.some_inj.mp h ▸ Or.inl ⟨rfl, rfl⟩

/-! ## No notification is lost

The worker falls asleep with the mutex in its hands, having seen that there is nothing to do. From
then on only a call can change this, under the mutex, and it notifies before it gives the mutex
back; so in between, while the worker is wrongly asleep, this call is the owner. -/

/-- Where the worker is while it sleeps, and that there is nothing to do then, or a call is about to
notify it. -/
structure Sleeps (m : Monitor) : Prop where
  waiting : m.asleep = true → m.manager.worker = .waiting
  found : m.manager.worker = .predStopped → m.manager.task = []
  told : m.asleep = true → m.manager.task = [] ∧ m.manager.stopped = false ∨
    ∃ p, notifies m.manager p = true

namespace Sleeps

theorem initial : Sleeps {} := ⟨nofun, nofun, nofun⟩

theorem workerStep (hm : Sleeps m) (h : Tasks.workerStep v m.manager = some t) :
    Sleeps ⟨t, m.sleepAfter .worker t⟩ := by
  refine ⟨fun hasleep ↦ of_decide_eq_true hasleep, fun hw ↦ ?_, fun hasleep ↦ ?_⟩
  · cases workerStep_move h with
    | noTask _ htask => exact htask
    | roundOver =>
      dsimp only at hw
      split_ifs at hw
    | _ => exact absurd hw nofun
  · have hwaiting : t.worker = .waiting := of_decide_eq_true hasleep
    cases workerStep_move h with
    | wait hw hs => exact Or.inl ⟨hm.found hw, hs⟩
    | roundOver =>
      dsimp only at hwaiting
      split_ifs at hwaiting
    | _ => exact absurd hwaiting nofun

theorem callStep (hm : Sleeps m) (hl : Locks v m.manager) (hp : p ≠ .worker)
    (h : Tasks.act v p m.manager = some t) : Sleeps ⟨t, m.sleepAfter p t⟩ := by
  have hframe := callFrame hl hp h
  refine ⟨fun hasleep ↦ ?_, fun hw ↦ ?_, fun hasleep ↦ ?_⟩
  · rw [sleepAfter_of_ne hp, Bool.and_eq_true] at hasleep
    exact hframe.worker.trans (hm.waiting hasleep.1)
  · have hw' : m.manager.worker = .predStopped := hframe.worker.symm.trans hw
    rcases hframe.queue with htask | hown
    · exact htask.trans (hm.found hw')
    · -- The worker holds the mutex there, so no call does.
      have hworker := hl.discipline.wait (Or.inr hw')
      exact absurd (Option.some_inj.mp (hown.symm.trans hworker)) hp
  · rw [sleepAfter_of_ne hp, Bool.and_eq_true, Bool.not_eq_true'] at hasleep
    rcases hm.told hasleep.1 with ⟨htask, hstopped⟩ | ⟨q, hq⟩
    · rcases hframe.tells with ⟨htask', hstopped'⟩ | htells
      · exact Or.inl ⟨htask'.trans htask, hstopped'.trans hstopped⟩
      · exact Or.inr ⟨p, htells⟩
    · refine Or.inr ⟨q, (hframe.others q ?_).trans hq⟩
      rintro rfl
      exact Bool.false_ne_true (hasleep.2.symm.trans hq)

/-- **One step.** -/
theorem step (hm : Sleeps m) (hl : Locks v m.manager) (h : Step v m n) : Sleeps n := by
  obtain ⟨p | -, ha⟩ := h
  · obtain ⟨-, hact, hasleep⟩ := act_step ha
    have hn : n = ⟨n.manager, m.sleepAfter p n.manager⟩ := congrArg (Monitor.mk n.manager) hasleep
    rw [hn]
    by_cases hp : p = .worker
    · subst hp
      exact hm.workerStep ((act_of_alive (alive_of_act hact)).symm.trans hact)
    · exact hm.callStep hl hp hact
  · rw [act_wake ha]
    exact ⟨nofun, hm.found, nofun⟩

/-- **A run.** -/
theorem of_reachable (hv : v.relocks = true) (hm : Reachable IsInitial (Step v) m) : Sleeps m := by
  apply hm.invariant
  · rintro m rfl
    exact .initial
  · exact fun m n hm hsleeps hst ↦ hsleeps.step (Locks.of_relocks hv (reachable_manager hm)) hst

end Sleeps

private theorem exists_woken (hl : Locks v m.manager) (hp : notifies m.manager p = true) :
    m.manager.owner = some p ∧ ∃ n, act v (.step p) m = some n ∧ n.asleep = false := by
  have hne : p ≠ .worker := by
    rintro rfl
    exact Bool.noConfusion hp
  have hcan : m.manager.owner = some p ∧ (Tasks.act v p m.manager).isSome := by
    rw [act_of_alive hl.worker.alive]
    rcases p with - | i | i
    · exact absurd rfl hne
    · have hi : m.manager.adds i = .unlock := of_decide_eq_true hp
      refine ⟨hl.add i ?_, ?_⟩
      · rw [hi]
        trivial
      · simp only [addStep, hi, Option.isSome_some]
    · have hi : m.manager.stops i = .unlock := of_decide_eq_true hp
      refine ⟨hl.stop i ?_, ?_⟩
      · rw [hi]
        trivial
      · simp only [stopStep, hi, Option.isSome_some]
  obtain ⟨n, hn⟩ := Option.isSome_iff_exists.mp (isSome_step hne hcan.2)
  refine ⟨hcan.1, n, hn, ?_⟩
  rw [(act_step hn).2.2, sleepAfter_of_ne hne, hp]
  exact Bool.and_false _

/-- **No notification is lost.** The worker sleeps only in the wait; and when it does although the
queue is not empty or `stopped` is set, a call holds the mutex whose next step wakes it. -/
theorem no_lost_notification (hv : v.relocks = true) (hm : Reachable IsInitial (Step v) m)
    (hasleep : m.asleep = true) :
    m.manager.worker = .waiting ∧
      (m.manager.task ≠ [] ∨ m.manager.stopped = true → ∃ p, m.manager.owner = some p ∧
        ∃ n, act v (.step p) m = some n ∧ n.asleep = false) := by
  have hsleeps := Sleeps.of_reachable hv hm
  refine ⟨hsleeps.waiting hasleep, fun hready ↦ ?_⟩
  rcases hsleeps.told hasleep with ⟨htask, hstopped⟩ | ⟨p, hp⟩
  · rcases hready with htask' | hstopped'
    · exact absurd htask htask'
    · exact absurd (hstopped.symm.trans hstopped') Bool.false_ne_true
  · exact ⟨p, exists_woken (Locks.of_relocks hv (reachable_manager hm)) hp⟩

/-- The worker has fallen asleep, and a call has pushed its task and not yet notified. -/
def pushing : List Action :=
  List.replicate 4 (.step .worker) ++ List.replicate 4 (.step (.adder 0))

theorem no_lost_notification_pushing :
    ∃ m, Reachable IsInitial (Step ⟨true, false⟩) m ∧ m.asleep = true ∧ m.manager.task = [0] ∧
      m.manager.worker = .waiting ∧ ∃ p, m.manager.owner = some p ∧
        ∃ n, act ⟨true, false⟩ (.step p) m = some n ∧ n.asleep = false := by
  have hm : (execute (act ⟨true, false⟩) pushing {}).any
      (fun m ↦ m.asleep = true ∧ m.manager.task = [0]) = true := by decide +kernel
  obtain ⟨m, hrun, hasleep, htask⟩ := exists_of_execute hm
  have hreach : Reachable IsInitial (Step ⟨true, false⟩) m := reachable_of_execute (.start rfl) hrun
  obtain ⟨hwaiting, hwoken⟩ := no_lost_notification rfl hreach hasleep
  have htask' : m.manager.task ≠ [] := by
    rw [htask]
    exact List.cons_ne_nil 0 []
  exact ⟨m, hreach, hasleep, htask, hwaiting, hwoken (Or.inl htask')⟩

end Monitor

end Tasks

end CppRepo
