import CppRepo.Library.Ranking
import CppRepo.Tasks.Monitor

/-!
# The manager is drained when it stops

Once `stopped` is set, a call of `add_task` that has not yet tested it is refused, so what is still
pushed comes from the calls that had tested it before. A round that finds a task takes nine steps of
the worker and one for each task it runs, and the round that finds none is the last; so the rank of
the worker grows with the queue by nine for each task, and a push pays for what it adds. Where the
worker has to wait, it waits for the mutex, and the call that holds it has a step, or for a
notification, which the call that holds the mutex gives next.

**Main result.** In the version that locks again at the end of a round, `stop` lets the worker
finish: it comes to its end, in whatever schedule, with everything run that had been pushed before.
-/

namespace CppRepo

namespace Tasks

variable {v : Variant} {p : Party} {i : ℕ} {s t : State}

/-! ## The party that holds the mutex

If the mutex is taken, its owner is at a place inside its critical section, where nothing can keep
it from going on: none of these places waits for anything. -/

/-- A call that owns the mutex is in its critical section. -/
structure Inside (s : State) : Prop where
  add : ∀ i, s.owner = some (.adder i) → (s.adds i).Holds
  stop : ∀ i, s.owner = some (.stopper i) → (s.stops i).Holds

namespace Inside

theorem initial : Inside {} := ⟨nofun, nofun⟩

theorem workerStep (hi : Inside s) (h : Tasks.workerStep v s = some t) : Inside t := by
  have hframe := workerStep_frame h
  refine ⟨fun i hown ↦ ?_, fun i hown ↦ ?_⟩
  · rw [hframe.adds]
    exact hi.add i ((hframe.mutex.held_iff (q := .adder i) nofun).mp hown)
  · rw [hframe.stops]
    exact hi.stop i ((hframe.mutex.held_iff (q := .stopper i) nofun).mp hown)

private theorem addStep_holds (hi : Inside s) (h : addStep i s = some t)
    (hown : t.owner = some (.adder i)) : (t.adds i).Holds := by
  have hself (pc : AddPc) : Function.update s.adds i pc i = pc := Function.update_self _ _ _
  cases addStep_move h with
  | start hpc | refuse hpc | accept hpc =>
    have hholds := hi.add i hown
    rw [hpc] at hholds
    exact hholds.elim
  | lock | push =>
    dsimp only
    rw [hself]
    trivial
  | unlock => exact absurd hown (Option.some_ne_none _).symm

private theorem stopStep_holds (hi : Inside s) (h : stopStep v i s = some t)
    (hown : t.owner = some (.stopper i)) : (t.stops i).Holds := by
  have hself (pc : StopPc) : Function.update s.stops i pc i = pc := Function.update_self _ _ _
  rcases hpc : s.stops i with - | - | - | - | - | - <;>
    simp only [stopStep, hpc, Option.ite_none_right_eq_some, Option.some.injEq, reduceCtorEq] at h
  case idle | test =>
    subst h
    have hholds := hi.stop i hown
    rw [hpc] at hholds
    exact hholds.elim
  case lock =>
    obtain ⟨-, rfl⟩ := h
    dsimp only
    rw [hself]
    trivial
  case set =>
    subst h
    dsimp only
    rw [hself]
    trivial
  case unlock =>
    subst h
    exact absurd hown (Option.some_ne_none _).symm

/-- **One step.** -/
theorem step (hi : Inside s) (hl : Locks v s) (h : Step v s t) : Inside t := by
  obtain ⟨p, hp⟩ := h
  rw [act_of_alive (alive_of_act hp)] at hp
  rcases p with - | i | i
  · exact hi.workerStep hp
  · have hframe := addStep_frame hp
    have hmove := (addStep_mutex (hl.add i) hp).1
    refine ⟨fun j hown ↦ ?_, fun j hown ↦ ?_⟩
    · by_cases hji : j = i
      · subst hji
        exact hi.addStep_holds hp hown
      · rw [hframe.adds j hji]
        exact hi.add j ((hmove.held_iff fun he ↦ hji (Party.adder.inj he)).mp hown)
    · rw [hframe.stops]
      exact hi.stop j ((hmove.held_iff (q := .stopper j) nofun).mp hown)
  · have hframe := stopStep_frame hp
    have hmove := (stopStep_mutex (hl.stop i) hp).1
    refine ⟨fun j hown ↦ ?_, fun j hown ↦ ?_⟩
    · rw [hframe.adds]
      exact hi.add j ((hmove.held_iff (q := .adder j) nofun).mp hown)
    · by_cases hji : j = i
      · subst hji
        exact hi.stopStep_holds hp hown
      · rw [hframe.stops j hji]
        exact hi.stop j ((hmove.held_iff fun he ↦ hji (Party.stopper.inj he)).mp hown)

/-- **A run.** -/
theorem of_reachable (hv : v.relocks = true) (hs : Reachable IsInitial (Step v) s) : Inside s := by
  apply hs.invariant
  · rintro s rfl
    exact .initial
  · exact fun s t hs hi hst ↦ hi.step (Locks.of_relocks hv hs) hst

theorem isSome (hi : Inside s) (halive : s.worker ≠ .terminated) (hp : p ≠ .worker)
    (hown : s.owner = some p) : (act v p s).isSome := by
  rw [act_of_alive halive]
  rcases p with - | i | i
  · exact absurd rfl hp
  · have hholds := hi.add i hown
    rcases hpc : s.adds i with - | - | - | - | - | r <;> rw [hpc] at hholds
    case push | unlock => simp only [addStep, hpc, Option.isSome_some]
    all_goals exact hholds.elim
  · have hholds := hi.stop i hown
    rcases hpc : s.stops i with - | - | - | - | - | - <;> rw [hpc] at hholds
    case set | unlock => simp only [stopStep, hpc, Option.isSome_some]
    all_goals exact hholds.elim

end Inside

private theorem workerStep_isSome (hl : WorkerLocks v s)
    (hfree : s.owner = none ∨ s.owner = some .worker)
    (hw : s.worker ≠ .returned) : (workerStep v s).isSome := by
  have hplace := hl.alive
  have howner : ¬ WorkerHolds v s → s.owner = none :=
    fun hnot ↦ hfree.resolve_right (mt hl.holds.mp hnot)
  rcases hpc : s.worker with - | - | - | - | - | - | - | tmp | ⟨- | ⟨i, tsk⟩⟩ | - | - | - | -
  case start | waiting | relock =>
    have hnone : s.owner = none := howner (by rw [WorkerHolds, hpc]; exact id)
    simp only [workerStep, hpc, hnone, if_true, Option.isSome_some]
  case predStopped | unlock =>
    simp only [workerStep, hpc]
    split_ifs <;> rfl
  case returned => exact absurd hpc hw
  case terminated => exact absurd hpc hplace
  all_goals simp only [workerStep, hpc, Option.isSome_some]

/-! ## What is left to do

The rank bounds the steps that the worker may still take. Where the tests of the loop come before
the next swap, a task in the queue counts for a whole round, since it makes one necessary; from the
wait to the swap it counts for the step that runs it. So a push adds nine at most, wherever the
worker is. -/

/-- The steps the worker may still take once `stopped` is set, with `n` tasks in the queue. -/
def WorkerPc.rank (n : ℕ) : WorkerPc → ℕ
  | .returned | .terminated => 0
  | .leave => 1
  | .testEmpty => 2 + 9 * n
  | .testStopped => 3 + 9 * n
  | .start | .relock => 4 + 9 * n
  | .process tsk => 5 + tsk.length + 9 * n
  | .unlock tmp => 6 + tmp.length + 9 * n
  | .swap => 7 + n
  | .predStopped => 8 + n
  | .predEmpty => 9 + n
  | .waiting => 10 + n

namespace WorkerPc

theorem rank_le (n : ℕ) (pc : WorkerPc) : pc.rank n ≤ 10 + pc.batch.length + 9 * n := by
  cases pc <;> simp only [rank, batch, List.length_nil] <;> omega

private theorem rank_succ_le (n : ℕ) (pc : WorkerPc) : pc.rank (n + 1) ≤ pc.rank n + 9 := by
  cases pc <;> simp only [rank] <;> omega

end WorkerPc

/-- The steps the worker may still take once `stopped` is set. -/
def State.rank (s : State) : ℕ := s.worker.rank s.task.length

private theorem workerStep_rank (hstopped : s.stopped = true) (h : workerStep v s = some t) :
    t.rank < s.rank := by
  cases workerStep_move h with
  | goOn hw hs | wait hw hs | waitUnlocked hw hs =>
    exact absurd (hs.symm.trans hstopped) Bool.false_ne_true
  | done hw htask =>
    simp only [State.rank, hw, WorkerPc.rank, htask, List.length_nil]
    omega
  | goOnToTask hw htask =>
    -- The queue is not empty, so nine of its steps are left for this round.
    have hpos := List.length_pos_of_ne_nil htask
    simp only [State.rank, hw, WorkerPc.rank]
    omega
  | ready hw =>
    rcases hw with ⟨hw, -⟩ | ⟨hw, -⟩ <;> simp only [State.rank, hw, WorkerPc.rank] <;> omega
  | roundOver hw =>
    simp only [State.rank, hw]
    split_ifs <;> simp only [WorkerPc.rank, List.length_nil] <;> omega
  | start hw | stopped hw | noTask hw | wake hw | swap hw | unlock hw | unlockUnlocked hw
  | run hw | relock hw | leave hw =>
    simp only [State.rank, hw, WorkerPc.rank, List.length_nil, List.length_cons]
    omega

/-! ## After `stopped` is set

`Stopping` compares a later state with one in which `stopped` was set. No further call gets past its
test, and what has been pushed in between is from calls that were past it then. -/

/-- The call has tested `stopped` and has not yet pushed. -/
def AddPc.IsAccepted (pc : AddPc) : Prop := pc = .lock ∨ pc = .push

/-- What holds after `s`, in which `stopped` was set: only calls that were accepted by then push. -/
structure Stopping (s t : State) : Prop where
  stopped : t.stopped = true
  accepted : ∀ i, (t.adds i).IsAccepted → (s.adds i).IsAccepted
  pushed : ∀ i ∈ t.pushed, i ∈ s.pushed ∨ (s.adds i).IsAccepted

namespace Stopping

variable {u : State}

theorem refl (hstopped : s.stopped = true) : Stopping s s :=
  ⟨hstopped, fun _ ↦ id, fun _ ↦ Or.inl⟩

theorem addStep (ht : Stopping s t) (h : Tasks.addStep i t = some u) : Stopping s u := by
  have hframe := addStep_frame h
  have hself (pc : AddPc) : Function.update t.adds i pc i = pc := Function.update_self _ _ _
  refine ⟨hframe.stopped.trans ht.stopped, fun j hj ↦ ?_, fun j hj ↦ ?_⟩
  · by_cases hji : j = i
    · subst hji
      cases addStep_move h with
      | accept _ hs => exact absurd (hs.symm.trans ht.stopped) Bool.false_ne_true
      | lock hpc => exact ht.accepted j (hpc ▸ Or.inl rfl)
      | push hpc => exact ht.accepted j (hpc ▸ Or.inr rfl)
      | start | refuse | unlock =>
        dsimp only at hj
        rw [hself] at hj
        rcases hj with hj | hj <;> exact absurd hj nofun
    · rw [hframe.adds j hji] at hj
      exact ht.accepted j hj
  · cases addStep_move h with
    | push hpc =>
      rcases List.mem_append.mp hj with hj | hj
      · exact ht.pushed j hj
      · obtain rfl := List.mem_singleton.mp hj
        exact Or.inr (ht.accepted j (hpc ▸ Or.inr rfl))
    | _ => exact ht.pushed j hj

/-- A step of the manager after `stopped` was set, and what it takes from the rank. -/
theorem step (ht : Stopping s t) (h : act v p t = some u) :
    Stopping s u ∧ u.rank + (if p = .worker then 1 else 0) + 9 * t.pushed.length ≤
      t.rank + 9 * u.pushed.length := by
  rw [act_of_alive (alive_of_act h)] at h
  rcases p with - | i | i
  · have hframe := workerStep_frame h
    refine ⟨⟨hframe.stopped.trans ht.stopped, ?_, ?_⟩, ?_⟩
    · rw [hframe.adds]
      exact ht.accepted
    · rw [hframe.pushed]
      exact ht.pushed
    · have hlt := workerStep_rank ht.stopped h
      rw [hframe.pushed, if_pos rfl]
      omega
  · have hworker := (addStep_frame h).worker
    refine ⟨ht.addStep h, ?_⟩
    rw [if_neg fun hp ↦ Party.noConfusion hp, State.rank, State.rank, hworker]
    rcases addStep_queue h with ⟨htask, hpushed, -⟩ | ⟨htask, hpushed, -⟩
    · rw [htask, hpushed]
      omega
    · have hle := t.worker.rank_succ_le t.task.length
      simp only [htask, hpushed, List.length_append, List.length_singleton]
      omega
  · have hframe := stopStep_frame h
    have hstopped : u.stopped = true := by
      rcases hpc : t.stops i with - | - | - | - | - | - <;>
        simp only [stopStep, hpc, Option.ite_none_right_eq_some, reduceCtorEq] at h
      case lock => exact Option.some_inj.mp h.2 ▸ ht.stopped
      case set => exact Option.some_inj.mp h ▸ rfl
      all_goals exact Option.some_inj.mp h ▸ ht.stopped
    refine ⟨⟨hstopped, ?_, ?_⟩, ?_⟩
    · rw [hframe.adds]
      exact ht.accepted
    · rw [hframe.pushed]
      exact ht.pushed
    · rw [if_neg fun hp ↦ Party.noConfusion hp, State.rank, State.rank, hframe.worker, hframe.task,
        hframe.pushed]
      omega

end Stopping

/-! ## What was pushed before the worker left

What was pushed only grows. The worker leaves its loop at a test of the queue, with all run that
had been pushed at this test; so if it was still in the loop, what had been pushed before is
among this. -/

/-- What had been pushed in `s`, when the worker was in its loop, has been pushed when it tests the
queue for the last time. -/
structure Covers (s t : State) : Prop where
  pushed : s.pushed <+: t.pushed
  left : t.HasLeft → s.pushed <+: t.pushedAtTest

theorem Covers.step {u : State} (ht : Covers s t) (h : act v p t = some u) : Covers s u := by
  rw [act_of_alive (alive_of_act h)] at h
  rcases p with - | i | i
  · refine ⟨?_, fun hleft ↦ ?_⟩
    · rw [(workerStep_frame h).pushed]
      exact ht.pushed
    · rcases (workerStep_moves h).left hleft with ⟨hleft', -, hat⟩ | ⟨-, -, -, hat⟩
      · rw [hat]
        exact ht.left hleft'
      · rw [hat]
        exact ht.pushed
  · have hframe := addStep_frame h
    refine ⟨?_, ?_⟩
    · rcases addStep_queue h with ⟨-, hpushed, -⟩ | ⟨-, hpushed, -⟩ <;> rw [hpushed]
      · exact ht.pushed
      · exact ht.pushed.trans (List.prefix_append _ _)
    · rw [State.HasLeft, hframe.worker, hframe.pushedAtTest]
      exact ht.left
  · have hframe := stopStep_frame h
    refine ⟨?_, ?_⟩
    · rw [hframe.pushed]
      exact ht.pushed
    · rw [State.HasLeft, hframe.worker, hframe.pushedAtTest]
      exact ht.left

namespace Monitor

variable {m n : Monitor} {as : List Action}

/-- Unless the worker has returned, it can go on, or the call that holds the mutex can. -/
def CanGoOn (v : Variant) (m : Monitor) : Prop :=
  m.manager.worker = .returned ∨ (act v (.step .worker) m).isSome ∨
    ∃ p, m.manager.owner = some p ∧ (act v (.step p) m).isSome

/-- The worker is never stuck for good when `stopped` is set. -/
theorem canGoOn (hv : v.relocks = true) (hm : Reachable IsInitial (Step v) m)
    (hstopped : m.manager.stopped = true) : CanGoOn v m := by
  have hs := reachable_manager hm
  have hl := Locks.of_relocks hv hs
  by_cases hw : m.manager.worker = .returned
  · exact Or.inl hw
  by_cases hcall : ∃ p ≠ Party.worker, m.manager.owner = some p
  · obtain ⟨p, hp, hown⟩ := hcall
    have hsome := (Inside.of_reachable hv hs).isSome (v := v) hl.worker.alive hp hown
    exact Or.inr (Or.inr ⟨p, hown, isSome_step hp hsome⟩)
  · have hfree : m.manager.owner = none ∨ m.manager.owner = some .worker := by
      rcases hown : m.manager.owner with - | p
      · exact Or.inl rfl
      · push Not at hcall
        have hp : p = .worker := not_not.mp fun hp ↦ hcall p hp hown
        exact Or.inr (congrArg some hp)
    -- Nobody else holds the mutex, so the worker is awake.
    have hawake : m.asleep = false := by
      by_contra hasleep
      obtain ⟨-, hready⟩ := no_lost_notification hv hm (Bool.not_eq_false _ ▸ hasleep)
      obtain ⟨p, hown, k, hk, -⟩ := hready (Or.inr hstopped)
      by_cases hp : p = .worker
      · subst hp
        exact hasleep ((act_step hk).1 rfl)
      · exact hcall ⟨p, hp, hown⟩
    refine Or.inr (Or.inl ?_)
    rw [act, if_neg fun h ↦ Bool.false_ne_true (hawake.symm.trans h.2), Option.isSome_map,
      act_of_alive hl.worker.alive]
    exact workerStep_isSome hl.worker hfree hw

private theorem stopping_act {a : Action} (hn : Stopping s m.manager) (h : act v a m = some n) :
    Stopping s n.manager ∧ n.manager.rank + (if a = .step .worker then 1 else 0) +
      9 * m.manager.pushed.length ≤ m.manager.rank + 9 * n.manager.pushed.length := by
  rcases a with p | -
  · have hstep := hn.step (act_step h).2.1
    simp only [Action.step.injEq]
    exact hstep
  · rw [act_wake h, if_neg fun hp ↦ Action.noConfusion hp]
    exact ⟨hn, le_rfl⟩

private theorem covers_act {a : Action} (hn : Covers s m.manager) (h : act v a m = some n) :
    Covers s n.manager := by
  rcases a with p | -
  · exact hn.step (act_step h).2.1
  · rw [act_wake h]
    exact hn

/-- **The manager is drained.** Let `stopped` be set. Whatever the calls, the worker and `cond` do
from there, the worker takes at most ten steps, one for each task in hand, and nine for each task in
the queue and each that is still pushed; only the calls push that had been accepted; and unless the
worker has returned, it can go on or the call that holds the mutex can. If it was still in its loop
and has left it, it has run all that had been pushed. -/
theorem drained_of_stopped (v : Variant) (m n : Monitor) (as : List Action)
    (hv : v.relocks = true) (hm : Reachable IsInitial (Step v) m)
    (hstopped : m.manager.stopped = true) (h : execute (act v) as m = some n) :
    as.count (.step .worker) + 9 * m.manager.pushed.length ≤
        10 + m.manager.batch.length + 9 * m.manager.task.length + 9 * n.manager.pushed.length ∧
      (∀ i ∈ n.manager.pushed, i ∈ m.manager.pushed ∨ (m.manager.adds i).IsAccepted) ∧
      CanGoOn v n ∧
      (¬ m.manager.HasLeft → n.manager.HasLeft → m.manager.pushed <+: n.manager.ran) := by
  have hn := reachable_of_execute hm h
  obtain ⟨hstopping, hrank⟩ := rank_add_spent_add_gain_le
    (I := fun n ↦ Stopping m.manager n.manager) (fun n ↦ n.manager.rank)
    (fun n ↦ 9 * n.manager.pushed.length) _ (fun _ _ _ hs h ↦ stopping_act hs h)
    (Stopping.refl hstopped) h
  rw [spent_eq_count _ h] at hrank
  have hle := m.manager.worker.rank_le m.manager.task.length
  refine ⟨?_, hstopping.pushed, canGoOn hv hn hstopping.stopped, fun hin hleft ↦ ?_⟩
  · simp only [State.rank, State.batch] at hrank hle ⊢
    omega
  · have hcovers := execute_invariant (I := fun n ↦ Covers m.manager n.manager)
      (fun _ _ _ hs h ↦ covers_act hs h) ⟨List.prefix_rfl, fun hleft ↦ absurd hleft hin⟩ h
    rw [(Books.of_reachable (reachable_manager hn)).left hleft]
    exact hcovers.left hleft

/-- While the worker sleeps two calls push and a third is accepted, and then `stop` is called. -/
def stopWithTasks : List Action :=
  List.map .step (List.flatten [List.replicate 4 .worker, List.replicate 5 (.adder 0),
    List.replicate 5 (.adder 1), List.replicate 2 (.adder 2), List.replicate 4 (.stopper 0)])

/-- The third call pushes, and the worker comes to its end. -/
def finish : List Action :=
  List.map .step (List.replicate 3 (.adder 2) ++ List.replicate 12 .worker)

theorem drained_of_stopped_stopWithTasks :
    ∃ m n, Reachable IsInitial (Step ⟨true, false⟩) m ∧ m.manager.stopped = true ∧
      m.manager.pushed = [0, 1] ∧ execute (act ⟨true, false⟩) finish m = some n ∧
      n.manager.worker = .returned ∧ m.manager.pushed <+: n.manager.ran ∧
      ∀ i ∈ n.manager.pushed, i ∈ m.manager.pushed ∨ (m.manager.adds i).IsAccepted := by
  have hm : (execute (act ⟨true, false⟩) stopWithTasks {}).any (fun m ↦
      m.manager.stopped = true ∧ m.manager.pushed = [0, 1] ∧ m.manager.worker = .waiting ∧
      (execute (act ⟨true, false⟩) finish m).any (fun n ↦ n.manager.worker = .returned) = true) =
      true := by
    decide +kernel
  obtain ⟨m, hrun, hstopped, hpushed, hwaiting, hn⟩ := exists_of_execute hm
  obtain ⟨n, hrun', hreturned⟩ := exists_of_execute hn
  have hreach : Reachable IsInitial (Step ⟨true, false⟩) m := reachable_of_execute (.start rfl) hrun
  obtain ⟨-, haccepted, -, hran⟩ := drained_of_stopped _ m n _ rfl hreach hstopped hrun'
  have hin : ¬ m.manager.HasLeft := by
    rw [State.HasLeft, hwaiting]
    exact id
  have hleft : n.manager.HasLeft := by
    rw [State.HasLeft, hreturned]
    trivial
  exact ⟨m, n, hreach, hstopped, hpushed, hrun', hreturned, hran hin hleft, haccepted⟩

end Monitor

end Tasks

end CppRepo
