import CppRepo.Tasks.LockDiscipline

/-!
# No task is lost, doubled or overtaken inside the loop

A task that was pushed is in one of three places: it has been run, it is in the batch that was
swapped out, or it is in the queue. The three lists, in this order, are what was pushed, in order.
One lemma for each party says how a step moves tasks between them; the invariant `Books` follows for
all interleavings.

The worker leaves its loop only after it has found the queue empty with no batch in hand, so what
was pushed by then has been run. What is pushed later stays in the queue. Whether there is such a
task is exactly whether an accepted task is lost.
-/

namespace CppRepo

namespace Tasks

variable {v : Variant} {i : ℕ} {s t : State}

/-! ## What a step does to the tasks

`swap` moves the queue to the batch, running a task moves it on, and a push adds it to the queue. No
other step touches the three lists. -/

/-- A step of the worker moves the queue to the batch, or the first task of the batch to those that
were run, or nothing, and it leaves the loop only from an empty queue. -/
structure WorkerMoves (s t : State) : Prop where
  moved : t.worker ≠ .terminated → t.ran ++ t.batch ++ t.task = s.ran ++ s.batch ++ s.task
  left : t.HasLeft → s.HasLeft ∧ t.ran = s.ran ∧ t.pushedAtTest = s.pushedAtTest ∨
    s.batch = [] ∧ s.task = [] ∧ t.ran = s.ran ∧ t.pushedAtTest = s.pushed

/-- A step with no batch in hand that stays in the loop and runs nothing. -/
theorem WorkerMoves.quiet (hs : s.batch = []) (ht : t.batch = []) (htask : t.task = s.task)
    (hran : t.ran = s.ran) (hleft : ¬ t.HasLeft) : WorkerMoves s t := by
  refine ⟨fun _ ↦ ?_, fun hl ↦ absurd hl hleft⟩
  rw [hs, ht, htask, hran]

theorem workerStep_moves (h : workerStep v s = some t) : WorkerMoves s t := by
  cases workerStep_move h with
  | start hw | stopped hw | goOn hw | goOnToTask hw | noTask hw | wait hw | waitUnlocked hw
  | wake hw | relock hw => exact .quiet (congrArg WorkerPc.batch hw) rfl rfl rfl id
  | ready hw =>
    rcases hw with ⟨hw, -⟩ | ⟨hw, -⟩
    · exact .quiet (congrArg WorkerPc.batch hw) rfl rfl rfl id
    · exact .quiet (congrArg WorkerPc.batch hw) rfl rfl rfl id
  | done hw htask =>
    have hbatch : s.batch = [] := congrArg WorkerPc.batch hw
    exact ⟨fun _ ↦ by rw [hbatch]; rfl, fun _ ↦ Or.inr ⟨hbatch, htask, rfl, rfl⟩⟩
  | swap hw =>
    have hbatch : s.batch = [] := congrArg WorkerPc.batch hw
    refine ⟨fun _ ↦ ?_, False.elim⟩
    rw [hbatch]
    simp only [State.batch, WorkerPc.batch, List.append_nil]
  | @unlock tmp hw =>
    have hbatch : s.batch = tmp := congrArg WorkerPc.batch hw
    exact ⟨fun _ ↦ by rw [hbatch]; rfl, False.elim⟩
  | unlockUnlocked => exact ⟨fun halive ↦ absurd rfl halive, False.elim⟩
  | roundOver hw =>
    have hbatch : s.batch = [] := congrArg WorkerPc.batch hw
    split_ifs <;> exact .quiet hbatch rfl rfl rfl id
  | @run i tsk hw =>
    have hbatch : s.batch = i :: tsk := congrArg WorkerPc.batch hw
    refine ⟨fun _ ↦ ?_, False.elim⟩
    rw [hbatch]
    exact congrArg (· ++ s.task) (List.append_assoc _ _ _)
  | leave hw =>
    have hbatch : s.batch = [] := congrArg WorkerPc.batch hw
    have hleft : s.HasLeft := by
      rw [State.HasLeft, hw]
      trivial
    exact ⟨fun _ ↦ by rw [hbatch]; rfl, fun _ ↦ Or.inl ⟨hleft, rfl, rfl⟩⟩

theorem addStep_queue (h : addStep i s = some t) :
    t.task = s.task ∧ t.pushed = s.pushed ∧ ((t.adds i).HasPushed ↔ (s.adds i).HasPushed) ∨
      t.task = s.task ++ [i] ∧ t.pushed = s.pushed ++ [i] ∧ (t.adds i).HasPushed ∧
        ¬ (s.adds i).HasPushed := by
  cases addStep_move h with
  | start hi | accept hi | lock hi =>
    refine Or.inl ⟨rfl, rfl, ?_⟩
    simp only [Function.update_self, hi]
    exact iff_of_false id id
  | refuse hi =>
    refine Or.inl ⟨rfl, rfl, ?_⟩
    simp only [Function.update_self, hi]
    -- A call that is refused returns -1, which is not 0.
    exact iff_of_false (show (-1 : ℤ) ≠ 0 by decide) id
  | push hi =>
    refine Or.inr ⟨rfl, rfl, ?_, ?_⟩
    · simp only [Function.update_self]
      trivial
    · rw [hi]
      exact id
  | unlock hi =>
    refine Or.inl ⟨rfl, rfl, ?_⟩
    simp only [Function.update_self, hi]
    exact iff_of_true rfl trivial

/-! ## The books

The fields are the equation between the lists, as long as the program has not ended; that the tasks
that were pushed are those of the calls past their push, each once; and that a worker that has left
has run what had been pushed at its last test. -/

/-- Where the tasks are, in every state of every run. -/
structure Books (s : State) : Prop where
  order : s.worker ≠ .terminated → s.ran ++ s.batch ++ s.task = s.pushed
  calls : ∀ i, i ∈ s.pushed ↔ (s.adds i).HasPushed
  nodup : s.pushed.Nodup
  left : s.HasLeft → s.ran = s.pushedAtTest

namespace Books

theorem initial : Books {} := by
  refine ⟨fun _ ↦ rfl, fun i ↦ ?_, List.nodup_nil, False.elim⟩
  exact iff_of_false List.not_mem_nil id

theorem workerStep (hb : Books s) (halive : s.worker ≠ .terminated)
    (h : Tasks.workerStep v s = some t) : Books t := by
  have hframe := workerStep_frame h
  have hmoves := workerStep_moves h
  refine ⟨fun hw ↦ ?_, fun i ↦ ?_, ?_, fun hl ↦ ?_⟩
  · rw [hmoves.moved hw, hframe.pushed]
    exact hb.order halive
  · rw [hframe.pushed, hframe.adds]
    exact hb.calls i
  · rw [hframe.pushed]
    exact hb.nodup
  · rcases hmoves.left hl with ⟨hleft, hran, hat⟩ | ⟨hbatch, htask, hran, hat⟩
    · rw [hran, hat]
      exact hb.left hleft
    · -- The queue is empty and no batch is in hand, so all that was pushed has been run.
      have horder := hb.order halive
      rw [hbatch, htask, List.append_nil, List.append_nil] at horder
      rw [hran, hat, horder]

theorem addStep (hb : Books s) (h : Tasks.addStep i s = some t) : Books t := by
  have hframe := addStep_frame h
  have hbatch : t.batch = s.batch := congrArg WorkerPc.batch hframe.worker
  have hleft : t.HasLeft → t.ran = t.pushedAtTest := by
    rw [State.HasLeft, hframe.worker, hframe.ran, hframe.pushedAtTest]
    exact hb.left
  rcases addStep_queue h with ⟨htask, hpushed, hhas⟩ | ⟨htask, hpushed, hhas, hnot⟩
  · refine ⟨?_, fun j ↦ ?_, ?_, hleft⟩
    · rw [hframe.worker, hframe.ran, hbatch, htask, hpushed]
      exact hb.order
    · rw [hpushed, hb.calls j]
      by_cases hji : j = i
      · subst hji
        exact hhas.symm
      · rw [hframe.adds j hji]
    · rw [hpushed]
      exact hb.nodup
  · refine ⟨fun halive ↦ ?_, fun j ↦ ?_, ?_, hleft⟩
    · rw [hframe.worker] at halive
      rw [hframe.ran, hbatch, htask, hpushed, ← List.append_assoc, hb.order halive]
    · rw [hpushed, List.mem_append, List.mem_singleton, hb.calls j]
      by_cases hji : j = i
      · subst hji
        exact iff_of_true (Or.inr rfl) hhas
      · rw [hframe.adds j hji, or_iff_left hji]
    · rw [hpushed]
      refine hb.nodup.append (List.nodup_singleton i) ?_
      rw [List.disjoint_singleton, hb.calls i]
      exact hnot

theorem stopStep (hb : Books s) (h : Tasks.stopStep v i s = some t) : Books t := by
  have hframe := stopStep_frame h
  have hbatch : t.batch = s.batch := congrArg WorkerPc.batch hframe.worker
  refine ⟨?_, fun j ↦ ?_, ?_, ?_⟩
  · rw [hframe.worker, hframe.ran, hbatch, hframe.task, hframe.pushed]
    exact hb.order
  · rw [hframe.pushed, hframe.adds]
    exact hb.calls j
  · rw [hframe.pushed]
    exact hb.nodup
  · rw [State.HasLeft, hframe.worker, hframe.ran, hframe.pushedAtTest]
    exact hb.left

/-- **One step.** -/
theorem step (hb : Books s) (h : Step v s t) : Books t := by
  obtain ⟨p, hp⟩ := h
  have halive := alive_of_act hp
  rw [act_of_alive halive] at hp
  rcases p with - | i | i
  · exact hb.workerStep halive hp
  · exact hb.addStep hp
  · exact hb.stopStep hp

/-- **A run.** -/
theorem of_reachable (hs : Reachable IsInitial (Step v) s) : Books s := by
  apply hs.invariant
  · rintro s rfl
    exact .initial
  · exact fun s t _ hb hst ↦ hb.step hst

end Books

/-! ## What is run, and in which order

Both the conservation and the order are read off the equation, since each task is pushed once. -/

/-- **The queue is a queue.** In the version that locks again at the end of a round, what was run,
the batch in hand and the queue are, one after the other, what was pushed. So tasks are run in the
order they were pushed and none is run twice, and the worker leaves its loop with everything run
that had been pushed when it last tested the queue. -/
theorem ran_in_order (hv : v.relocks = true) (hs : Reachable IsInitial (Step v) s) :
    s.ran ++ s.batch ++ s.task = s.pushed ∧ s.ran <+: s.pushed ∧ s.ran.Nodup ∧
      (s.HasLeft → ∀ i ∈ s.pushedAtTest, i ∈ s.ran) := by
  have hb := Books.of_reachable hs
  have horder := hb.order (Locks.of_relocks hv hs).worker.alive
  have hprefix : s.ran <+: s.pushed := by
    rw [← horder, List.append_assoc]
    exact List.prefix_append _ _
  refine ⟨horder, hprefix, hb.nodup.sublist hprefix.sublist, fun hleft i hi ↦ ?_⟩
  rw [hb.left hleft]
  exact hi

/-- The worker wakes up for nothing, two calls push, and a third pushes while the worker runs the
first task of its batch. -/
def interleaved : List Party :=
  List.flatten [List.replicate 7 .worker, List.replicate 5 (.adder 3), List.replicate 5 (.adder 1),
    List.replicate 5 .worker, List.replicate 5 (.adder 2)]

/-- In that run each of the three places holds one task. -/
theorem ran_in_order_interleaved :
    ∃ s, Reachable IsInitial (Step ⟨true, false⟩) s ∧ s.ran = [3] ∧ s.batch = [1] ∧ s.task = [2] ∧
      s.ran ++ s.batch ++ s.task = s.pushed ∧ s.ran <+: s.pushed ∧ s.ran.Nodup := by
  have hs : (execute (act ⟨true, false⟩) interleaved {}).any
      (fun s ↦ s.ran = [3] ∧ s.batch = [1] ∧ s.task = [2]) = true := by decide +kernel
  obtain ⟨s, hrun, hran, hbatch, htask⟩ := exists_of_execute hs
  have hreach : Reachable IsInitial (Step ⟨true, false⟩) s := reachable_of_execute (.start rfl) hrun
  obtain ⟨horder, hprefix, hnodup, -⟩ := ran_in_order rfl hreach
  exact ⟨s, hreach, hran, hbatch, htask, horder, hprefix, hnodup⟩

/-! ## Accepted tasks

A call that was accepted returns 0, whatever becomes of its task. The worker has left with the queue
empty at its last test, and a task pushed after that test stays there; so the tasks that are lost
are the ones that were pushed too late. -/

/-- No call of `add_task` is in progress. -/
def Quiescent (s : State) : Prop := ∀ i, s.adds i = .idle ∨ ∃ r, s.adds i = .returned r

/-- The tasks that were accepted have been run once, those that were refused have not been run. -/
def Delivered (s : State) : Prop :=
  (∀ i, s.adds i = .returned 0 → s.ran.count i = 1) ∧ ∀ i, s.adds i = .returned (-1) → i ∉ s.ran

/-- **Which runs lose an accepted task.** When the worker has returned and no call is in progress,
the accepted tasks have been run if and only if none was pushed after the worker last tested the
queue. -/
theorem delivered_iff (hs : Reachable IsInitial (Step testCp) s) (hw : s.worker = .returned)
    (hq : Quiescent s) : Delivered s ↔ s.pushed = s.pushedAtTest := by
  have hb := Books.of_reachable hs
  have hran : s.ran = s.pushedAtTest := by
    apply hb.left
    rw [State.HasLeft, hw]
    trivial
  have horder : s.ran ++ s.task = s.pushed := by
    have hall := hb.order (by rw [hw]; exact nofun)
    have hbatch : s.batch = [] := congrArg WorkerPc.batch hw
    rwa [hbatch, List.append_nil] at hall
  constructor
  · rintro ⟨haccepted, -⟩
    have htask : s.task = [] := by
      by_contra hne
      obtain ⟨i, hi⟩ := List.exists_mem_of_ne_nil _ hne
      have hpushed : i ∈ s.pushed := by
        rw [← horder]
        exact List.mem_append_right _ hi
      -- The call has returned 0, but its task is still in the queue.
      have hreturned : s.adds i = .returned 0 := by
        have hhas := (hb.calls i).mp hpushed
        rcases hq i with hpc | ⟨r, hpc⟩ <;> rw [hpc] at hhas
        · exact hhas.elim
        · rw [hpc, show r = 0 from hhas]
      have hmem : i ∈ s.ran := by
        rw [← List.count_pos_iff, haccepted i hreturned]
        exact Nat.one_pos
      have hnodup := hb.nodup
      rw [← horder] at hnodup
      exact List.disjoint_of_nodup_append hnodup hmem hi
    rw [← horder, htask, List.append_nil, hran]
  · intro heq
    have hall : s.ran = s.pushed := hran.trans heq.symm
    refine ⟨fun i hi ↦ ?_, fun i hi ↦ ?_⟩
    · rw [hall]
      apply List.count_eq_one_of_mem hb.nodup
      rw [hb.calls i, hi]
      rfl
    · rw [hall, hb.calls i, hi]
      exact show (-1 : ℤ) ≠ 0 by decide

private theorem adds_of_execute {ps : List Party} (h : execute (act v) ps s = some t)
    (hi : .adder i ∉ ps) : t.adds i = s.adds i := by
  induction ps generalizing s with
  | nil => rw [Option.some_inj.mp h]
  | cons p ps ih =>
    obtain ⟨hp, hps⟩ := List.ne_and_not_mem_of_not_mem_cons hi
    obtain ⟨u, hu, ht⟩ := Option.bind_eq_some_iff.mp h
    rw [ih ht hps]
    rw [act_of_alive (alive_of_act hu)] at hu
    rcases p with - | j | j
    · rw [(workerStep_frame hu).adds]
    · exact (addStep_frame hu).adds i fun hij ↦ hp (congrArg Party.adder hij)
    · rw [(stopStep_frame hu).adds]

/-- Call 0 is accepted and its task run, the manager is stopped, call 1 is refused, and the worker
returns. -/
def stoppedAfterRound : List Party :=
  List.flatten [List.replicate 5 (.adder 0), List.replicate 7 .worker,
    List.replicate 5 (.stopper 0), List.replicate 2 (.adder 1), List.replicate 3 .worker]

theorem delivered_iff_stoppedAfterRound :
    ∃ s, Reachable IsInitial (Step testCp) s ∧ s.worker = .returned ∧ Quiescent s ∧
      s.adds 0 = .returned 0 ∧ s.adds 1 = .returned (-1) ∧ Delivered s := by
  have hs : (execute (act testCp) stoppedAfterRound {}).any (fun s ↦ s.worker = .returned ∧
      s.adds 0 = .returned 0 ∧ s.adds 1 = .returned (-1) ∧ s.pushed = s.pushedAtTest) = true := by
    decide +kernel
  obtain ⟨s, hrun, hw, hzero, hone, hpushed⟩ := exists_of_execute hs
  have hreach : Reachable IsInitial (Step testCp) s := reachable_of_execute (.start rfl) hrun
  have hq : Quiescent s := by
    rintro (- | - | i)
    · exact Or.inr ⟨0, hzero⟩
    · exact Or.inr ⟨-1, hone⟩
    · exact Or.inl (adds_of_execute hrun (by simp [stoppedAfterRound]))
  exact ⟨s, hreach, hw, hq, hzero, hone, (delivered_iff hreach hw hq).mpr hpushed⟩

/-- Call 0 tests `stopped` before it is set, and pushes when the worker has already returned. -/
def pushedTooLate : List Party :=
  List.flatten [List.replicate 2 (.adder 0), List.replicate 5 (.stopper 0),
    List.replicate 4 .worker, List.replicate 3 (.adder 0)]

/-- A task that was accepted is never run. -/
theorem accepted_task_lost :
    ∃ s, Reachable IsInitial (Step testCp) s ∧ s.worker = .returned ∧ Quiescent s ∧
      s.adds 0 = .returned 0 ∧ s.ran = [] ∧ ¬ Delivered s := by
  have hs : (execute (act testCp) pushedTooLate {}).any
      (fun s ↦ s.worker = .returned ∧ s.adds 0 = .returned 0 ∧ s.ran = []) = true := by
    decide +kernel
  obtain ⟨s, hrun, hw, hzero, hran⟩ := exists_of_execute hs
  have hq : Quiescent s := by
    rintro (- | i)
    · exact Or.inr ⟨0, hzero⟩
    · exact Or.inl (adds_of_execute hrun (by simp [pushedTooLate]))
  refine ⟨s, reachable_of_execute (.start rfl) hrun, hw, hq, hzero, hran, ?_⟩
  rintro ⟨haccepted, -⟩
  have hcount := haccepted 0 hzero
  rw [hran, List.count_nil] at hcount
  exact Nat.zero_ne_one hcount

end Tasks

end CppRepo
