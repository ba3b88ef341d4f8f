import CppRepo.Tasks.TaskManager

/-!
# Who holds the mutex of the task manager

The worker has to own the mutex when it waits, when it swaps the queue out and when it unlocks, and
must not own it while it runs tasks. Each party takes and gives back the mutex for itself only, so
the invariant `Locks` says for each place of each party whether it owns the mutex there.

Where the worker locks again at the end of a round, the invariant holds in every run. Without it the
worker tests the condition of the loop unlocked from the second time on. That is harmless as long as
it then leaves; the step that goes into a further round, `Reenters`, is the one that breaks the
discipline.
-/

namespace CppRepo

namespace Tasks

variable {v : Variant} {i : ℕ} {s t : State}

/-! ## The discipline

`Reenters` is the step from the tests of the loop into the wait, with the worker's lock released. It
needs a version in which the worker does not lock again, and it is not in the first round. -/

/-- The worker waits, swaps and unlocks only with a lock that owns the mutex, and runs tasks only
without it. -/
structure LockDiscipline (s : State) : Prop where
  wait : s.worker = .predEmpty ∨ s.worker = .predStopped → s.owner = some .worker
  swap : s.worker = .swap → s.owner = some .worker
  unlock : ∀ tmp, s.worker = .unlock tmp → s.owner = some .worker
  process : ∀ tsk, s.worker = .process tsk → s.owner ≠ some .worker

/-- The worker is about to go into a further round, in a version that does not lock again. -/
def Reenters (v : Variant) (s : State) : Prop :=
  v.relocks = false ∧ 0 < s.rounds ∧
    (s.worker = .testStopped ∧ s.stopped = false ∨ s.worker = .testEmpty ∧ s.task ≠ [])

instance : Decidable (Reenters v s) := inferInstanceAs (Decidable (_ ∧ _ ∧ _))

/-- The actions that do not go into a further round unlocked. -/
def guardedAct (v : Variant) : Party → State → Option State :=
  guarded (fun p s ↦ ¬ (p = .worker ∧ Reenters v s)) (act v)

/-- A step that does not go into a further round unlocked. -/
def GuardedStep (v : Variant) : State → State → Prop := Acts (guardedAct v)

/-! ## Who holds the mutex

Apart from the tests of the loop, the places of the worker determine whether it owns the mutex. At
the tests, and on the way out, it depends on the version and on whether a round has been made. -/

/-- The worker owns the mutex where it is. The condition of the loop is the one place where it may
or may not. -/
def WorkerHolds (v : Variant) (s : State) : Prop :=
  match s.worker with
  | .testStopped | .testEmpty | .leave => v.relocks = true ∨ s.rounds = 0
  | .predEmpty | .predStopped | .swap | .unlock _ => True
  | .start | .waiting | .process _ | .relock | .returned | .terminated => False

/-- The worker starts before its first round, locks again only where the version does, and does not
end the program. -/
def WorkerPlace (v : Variant) (s : State) : Prop :=
  match s.worker with
  | .start => s.rounds = 0
  | .relock => v.relocks = true
  | .terminated => False
  | _ => True

/-- What the worker knows of the mutex, and where it is in its loop. -/
structure WorkerLocks (v : Variant) (s : State) : Prop where
  holds : s.owner = some .worker ↔ WorkerHolds v s
  place : WorkerPlace v s

theorem WorkerLocks.alive (hl : WorkerLocks v s) : s.worker ≠ .terminated := by
  intro hw
  have hplace := hl.place
  rw [WorkerPlace, hw] at hplace
  exact hplace

/-- Each party owns the mutex in its critical sections. -/
structure Locks (v : Variant) (s : State) : Prop where
  worker : WorkerLocks v s
  add : ∀ i, (s.adds i).Holds → s.owner = some (.adder i)
  stop : ∀ i, (s.stops i).Holds → s.owner = some (.stopper i)

namespace Locks

theorem initial : Locks v {} :=
  ⟨⟨iff_of_false (by decide) id, rfl⟩, fun _ h ↦ h.elim, fun _ h ↦ h.elim⟩

theorem discipline (hl : Locks v s) : LockDiscipline s := by
  have hholds := hl.worker.holds
  refine ⟨?_, fun hw ↦ ?_, fun tmp hw ↦ ?_, fun tsk hw ↦ ?_⟩
  · rintro (hw | hw)
    · exact hholds.mpr (by rw [WorkerHolds, hw]; trivial)
    · exact hholds.mpr (by rw [WorkerHolds, hw]; trivial)
  · exact hholds.mpr (by rw [WorkerHolds, hw]; trivial)
  · exact hholds.mpr (by rw [WorkerHolds, hw]; trivial)
  · rw [Ne, hholds, WorkerHolds, hw]
    exact id

end Locks

/-! ## Steps of the worker

The worker gives the mutex back to run the tasks and, in the wait, to sleep. With the guard it never
comes to the wait or to `unlock` without owning it, so it is never terminated. -/

private theorem locked_of_not_reenters (hre : ¬ Reenters v s)
    (hon : s.worker = .testStopped ∧ s.stopped = false ∨ s.worker = .testEmpty ∧ s.task ≠ []) :
    v.relocks = true ∨ s.rounds = 0 := by
  by_contra hno
  push Not at hno
  exact hre ⟨Bool.eq_false_iff.mpr hno.1, Nat.pos_of_ne_zero hno.2, hon⟩

private theorem workerStep_locks (hl : WorkerLocks v s) (hre : ¬ Reenters v s)
    (h : workerStep v s = some t) : WorkerLocks v t := by
  obtain ⟨hholds, hplace⟩ := hl
  cases workerStep_move h with
  | start hw =>
    simp only [WorkerPlace, hw] at hplace
    exact ⟨iff_of_true rfl (Or.inr hplace), trivial⟩
  | goOn hw hs =>
    -- Going on with the lock not taken is what `Reenters` excludes.
    have hown := locked_of_not_reenters hre (Or.inl ⟨hw, hs⟩)
    simp only [WorkerHolds, hw] at hholds
    exact ⟨iff_of_true (hholds.mpr hown) trivial, trivial⟩
  | goOnToTask hw htask =>
    have hown := locked_of_not_reenters hre (Or.inr ⟨hw, htask⟩)
    simp only [WorkerHolds, hw] at hholds
    exact ⟨iff_of_true (hholds.mpr hown) trivial, trivial⟩
  | stopped hw | done hw | noTask hw | swap hw | run hw =>
    simp only [WorkerHolds, hw] at hholds
    exact ⟨hholds, trivial⟩
  | ready hw =>
    rcases hw with ⟨hw, -⟩ | ⟨hw, -⟩
    · simp only [WorkerHolds, hw] at hholds
      exact ⟨hholds, trivial⟩
    · simp only [WorkerHolds, hw] at hholds
      exact ⟨hholds, trivial⟩
  | wait | unlock => exact ⟨iff_of_false (Option.some_ne_none _).symm id, trivial⟩
  | waitUnlocked hw _ hown | unlockUnlocked hw hown =>
    -- A wait or an `unlock` without the mutex would end the program.
    simp only [WorkerHolds, hw] at hholds
    exact absurd (hholds.mpr trivial) hown
  | wake => exact ⟨iff_of_true rfl trivial, trivial⟩
  | roundOver hw =>
    simp only [WorkerHolds, hw] at hholds
    rcases hv : v.relocks with - | -
    · -- From here on the condition of the loop is tested without the mutex.
      refine ⟨hholds.trans (iff_of_false id ?_), trivial⟩
      rintro (hrelocks | hrounds)
      · exact Bool.false_ne_true (hv.symm.trans hrelocks)
      · exact Nat.succ_ne_zero _ hrounds
    · exact ⟨hholds, hv⟩
  | relock hw =>
    simp only [WorkerPlace, hw] at hplace
    exact ⟨iff_of_true rfl (Or.inl hplace), trivial⟩
  | leave =>
    refine ⟨iff_of_false ?_ id, trivial⟩
    split_ifs with hown
    · exact id
    · exact hown

/-! ## Steps of the calls

A call changes the owner only by taking the mutex while it is free, or by giving back what it owns;
the worker's ownership is not affected by either. -/

private theorem WorkerLocks.of_call {p : Party} (hl : WorkerLocks v s)
    (hworker : t.worker = s.worker)
    (hrounds : t.rounds = s.rounds) (hmove : MutexMove p s.owner t.owner) (hp : .worker ≠ p) :
    WorkerLocks v t := by
  have hholds : WorkerHolds v t ↔ WorkerHolds v s := by
    rw [WorkerHolds, WorkerHolds, hworker, hrounds]
  have hplace : WorkerPlace v t ↔ WorkerPlace v s := by
    rw [WorkerPlace, WorkerPlace, hworker, hrounds]
  constructor
  · rw [hmove.held_iff hp, hholds]
    exact hl.holds
  · exact hplace.mpr hl.place

theorem addStep_mutex (hadd : (s.adds i).Holds → s.owner = some (.adder i))
    (h : addStep i s = some t) :
    MutexMove (.adder i) s.owner t.owner ∧
      ((t.adds i).Holds → t.owner = some (.adder i)) := by
  cases addStep_move h with
  | start | refuse | accept =>
    refine ⟨.stay, ?_⟩
    simp only [Function.update_self]
    exact False.elim
  | lock _ hfree => exact ⟨.lock hfree, fun _ ↦ rfl⟩
  | push hi =>
    rw [hi] at hadd
    exact ⟨.stay, fun _ ↦ hadd trivial⟩
  | unlock hi =>
    rw [hi] at hadd
    refine ⟨.unlock (hadd trivial), ?_⟩
    simp only [Function.update_self]
    exact False.elim

theorem stopStep_mutex (hstop : (s.stops i).Holds → s.owner = some (.stopper i))
    (h : stopStep v i s = some t) :
    MutexMove (.stopper i) s.owner t.owner ∧
      ((t.stops i).Holds → t.owner = some (.stopper i)) := by
  rcases hi : s.stops i with - | - | - | - | - | - <;>
    simp only [stopStep, hi, Option.ite_none_right_eq_some, Option.some.injEq,
      reduceCtorEq] at h <;>
    rw [hi] at hstop
  case idle =>
    subst h
    refine ⟨.stay, ?_⟩
    simp only [Function.update_self]
    split_ifs <;> exact False.elim
  case test =>
    subst h
    refine ⟨.stay, ?_⟩
    simp only [Function.update_self]
    split_ifs <;> exact False.elim
  case lock =>
    obtain ⟨hfree, rfl⟩ := h
    exact ⟨.lock hfree, fun _ ↦ rfl⟩
  case set =>
    subst h
    exact ⟨.stay, fun _ ↦ hstop trivial⟩
  case unlock =>
    subst h
    refine ⟨.unlock (hstop trivial), ?_⟩
    simp only [Function.update_self]
    exact False.elim

/-! ## Runs

Where the worker locks again no step re-enters, so there the lemma on guarded runs is one on all
runs. -/

/-- **One step.** A step that does not go into a further round unlocked keeps the invariant. -/
theorem Locks.step (hl : Locks v s) (h : GuardedStep v s t) : Locks v t := by
  obtain ⟨p, hp⟩ := h
  obtain ⟨hre, hp⟩ := guarded_eq_some.mp hp
  have hact := (act_of_alive hl.worker.alive).symm.trans hp
  rcases p with - | i | i
  · have hframe := workerStep_frame hact
    refine ⟨workerStep_locks hl.worker (fun hr ↦ hre ⟨rfl, hr⟩) hact, fun i hi ↦ ?_, fun i hi ↦ ?_⟩
    · rw [hframe.adds] at hi
      exact hframe.mutex.held (hl.add i hi) nofun
    · rw [hframe.stops] at hi
      exact hframe.mutex.held (hl.stop i hi) nofun
  · obtain ⟨hmove, hown⟩ := addStep_mutex (hl.add i) hact
    have hframe := addStep_frame hact
    refine ⟨hl.worker.of_call hframe.worker hframe.rounds hmove nofun, fun j hj ↦ ?_, fun j hj ↦ ?_⟩
    · by_cases hji : j = i
      · subst hji
        exact hown hj
      · rw [hframe.adds j hji] at hj
        exact hmove.held (hl.add j hj) fun he ↦ hji (Party.adder.inj he)
    · rw [hframe.stops] at hj
      exact hmove.held (hl.stop j hj) nofun
  · obtain ⟨hmove, hown⟩ := stopStep_mutex (hl.stop i) hact
    have hframe := stopStep_frame hact
    refine ⟨hl.worker.of_call hframe.worker hframe.rounds hmove nofun, fun j hj ↦ ?_, fun j hj ↦ ?_⟩
    · rw [hframe.adds] at hj
      exact hmove.held (hl.add j hj) nofun
    · by_cases hji : j = i
      · subst hji
        exact hown hj
      · rw [hframe.stops j hji] at hj
        exact hmove.held (hl.stop j hj) fun he ↦ hji (Party.stopper.inj he)

/-- **A run.** The invariant holds as long as no step goes into a further round unlocked. -/
theorem Locks.of_reachable (hs : Reachable IsInitial (GuardedStep v) s) : Locks v s := by
  apply hs.invariant
  · rintro s rfl
    exact .initial
  · exact fun s t _ hl hst ↦ hl.step hst

theorem Locks.of_relocks (hv : v.relocks = true) (hs : Reachable IsInitial (Step v) s) :
    Locks v s := by
  refine Locks.of_reachable (hs.mono ?_)
  rintro s t ⟨p, hp⟩
  exact ⟨p, guarded_eq_some.mpr ⟨fun hre ↦ Bool.false_ne_true (hre.2.1.symm.trans hv), hp⟩⟩

private theorem not_discipline_of_reenters (hl : Locks v s) (hre : Reenters v s)
    (h : workerStep v s = some t) : ¬ LockDiscipline t := by
  obtain ⟨hrelocks, hrounds, hplace⟩ := hre
  have hnot : ¬ (v.relocks = true ∨ s.rounds = 0) := by
    rintro (hv | hzero)
    · exact Bool.false_ne_true (hrelocks.symm.trans hv)
    · exact hrounds.ne' hzero
  have hfree : s.owner ≠ some .worker := by
    rw [Ne, hl.worker.holds, WorkerHolds]
    rcases hplace with ⟨hw, -⟩ | ⟨hw, -⟩
    · rw [hw]
      exact hnot
    · rw [hw]
      exact hnot
  intro hd
  rcases hplace with ⟨hw, hstop⟩ | ⟨hw, htask⟩
  · simp only [workerStep, hw, hstop, Bool.false_eq_true, if_false] at h
    obtain rfl := Option.some_inj.mp h
    exact hfree (hd.wait (Or.inl rfl))
  · simp only [workerStep, hw, if_neg htask] at h
    obtain rfl := Option.some_inj.mp h
    exact hfree (hd.wait (Or.inl rfl))

/-- **The worker of `test_cp.cc` keeps to the discipline as long as it does not go into a further
round**, and the step that goes into one breaks it. -/
theorem guarded_discipline (hs : Reachable IsInitial (GuardedStep testCp) s) :
    LockDiscipline s ∧
      ∀ t, Reenters testCp s → act testCp .worker s = some t → ¬ LockDiscipline t := by
  have hl := Locks.of_reachable hs
  refine ⟨hl.discipline, fun t hre h ↦ ?_⟩
  exact not_discipline_of_reenters hl hre ((act_of_alive hl.worker.alive).symm.trans h)

/-- The worker waits, call 0 of `add_task` pushes its task, and the worker runs it. -/
def oneRound : List Party :=
  List.flatten [List.replicate 4 .worker, List.replicate 5 (.adder 0), List.replicate 6 .worker]

/-- The round ends in a state that meets the discipline and whose next step does not. -/
theorem guarded_discipline_oneRound :
    ∃ s t, Reachable IsInitial (GuardedStep testCp) s ∧ s.ran = [0] ∧ LockDiscipline s ∧
      act testCp .worker s = some t ∧ ¬ LockDiscipline t := by
  have hs : ∃ s, execute (guardedAct testCp) oneRound {} = some s ∧ s.ran = [0] ∧
      Reenters testCp s ∧ ∃ t, act testCp .worker s = some t :=
    ⟨_, rfl, rfl, by decide, _, rfl⟩
  obtain ⟨s, hrun, hran, hre, t, ht⟩ := hs
  have hreach : Reachable IsInitial (GuardedStep testCp) s :=
    reachable_of_execute (.start rfl) hrun
  obtain ⟨hkeeps, hbreaks⟩ := guarded_discipline hreach
  exact ⟨s, t, hreach, hran, hkeeps, ht, hbreaks t hre ht⟩

/-- In a second round the worker tests the predicate of the wait with its lock released. -/
theorem testCp_breaks_discipline :
    ∃ s, Reachable IsInitial (Step testCp) s ∧ ¬ LockDiscipline s := by
  have hs : ∃ s, execute (act testCp) (oneRound ++ [.worker]) {} = some s ∧
      s.worker = .predEmpty ∧ s.owner = none := ⟨_, rfl, rfl, rfl⟩
  obtain ⟨s, hrun, hw, hfree⟩ := hs
  refine ⟨s, reachable_of_execute (.start rfl) hrun, fun hd ↦ ?_⟩
  exact Option.some_ne_none _ ((hd.wait (Or.inl hw)).symm.trans hfree)

end Tasks

end CppRepo
