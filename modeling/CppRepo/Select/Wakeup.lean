import CppRepo.Select.TaskManager

/-!
# No wakeup is lost

Between two drains of the pipe, a change that was made is either followed by an unread byte or its
call has still to write one: the update and the write are two steps of one call, and bytes leave the
pipe only when the worker drains it. The worker drains it after its callbacks and before it reads
`stopped` and `io_callback` again, so from that test to its `select` nothing it has seen gets out of
date without a byte in the pipe. The invariant `Watches` says so for each place of the worker on
this way; how many bytes there are, and how many one drain takes, plays no part.
-/

namespace CppRepo

namespace Select

variable {e : Setting} {i : ℕ} {s t : State} {ret : Option (Finset ℕ)}

/-! ## Pending signals

What is pending stays pending through the steps of the calls. Only the worker can take it away, with
its drain, and after that it reads everything again. -/

/-- The pipe has an unread byte, or a call is between its update and its write. -/
def Pending (s : State) : Prop := 0 < s.unread ∨ ∃ i, s.callers i = .signal

theorem Pending.callMove (hp : Pending s) (h : CallMove e i s t) : Pending t := by
  rcases hp with hbytes | ⟨j, hj⟩
  · exact Or.inl (hbytes.trans_le h.unread_le)
  · by_cases hji : j = i
    · subst hji
      rw [Pending, (h.unread_of_signal hj).2]
      exact Or.inl (Nat.add_pos_right _ (by decide))
    · exact Or.inr ⟨j, (h.callers_of_ne hji).trans hj⟩

/-- A step of a call changes nothing the worker looks at, or its signal is pending. -/
theorem CallMove.pending (h : CallMove e i s t) :
    t.stopped = s.stopped ∧ t.ioCallback = s.ioCallback ∨ Pending t := by
  rcases h with - | - | - | - | -
  case update => exact Or.inr (Or.inr ⟨i, State.callers_setCaller i _ _⟩)
  all_goals exact Or.inl ⟨rfl, rfl⟩

/-! ## What the worker watches

The set that was built is the one of `snapshot` with the pipe, and `maxfd` is above the pipe, so the
kernel sees a byte in it. The other two fields say what the pending signal is for: a map that has
changed since, or an end that the worker does not know of. -/

/-- The set of descriptors the worker waits for, or is about to wait for. -/
def WorkerPc.watched : WorkerPc → Option (Finset ℕ × ℕ)
  | .unlock fdread maxfd => some (fdread, maxfd)
  | .select fdread maxfd => some (fdread, maxfd)
  | _ => none

/-- The worker has tested the condition of the loop, and its `select` is not over. -/
def WorkerPc.Awaits : WorkerPc → Prop
  | .lock | .build | .unlock _ _ | .select _ _ => True
  | _ => False

/-- What the worker has seen is up to date, or a signal is pending. -/
structure Watches (e : Setting) (s : State) : Prop where
  built : ∀ fdread maxfd, s.worker.watched = some (fdread, maxfd) →
    fdread = insert e.threadPipe s.snapshot ∧ e.threadPipe < maxfd
  fresh : ∀ w, s.worker.watched = some w → s.keys ≠ s.snapshot → Pending s
  goesOn : s.worker.Awaits → s.stopped = true → s.ioCallback = [] → Pending s

theorem lt_maxfd (fds : List ℕ) : e.threadPipe < maxfd e fds := by
  have hloop : ∀ (fds : List ℕ) (m : ℕ), e.threadPipe < m →
      e.threadPipe < fds.foldl (fun maxfd fd ↦ if maxfd ≤ fd then fd + 1 else maxfd) m := by
    intro fds
    induction fds with
    | nil => exact fun m hm ↦ hm
    | cons fd fds ih =>
      intro m hm
      rw [List.foldl_cons]
      apply ih
      split_ifs with hle
      · exact Nat.lt_succ_of_lt (hm.trans_le hle)
      · exact hm
  exact hloop fds _ (Nat.lt_succ_self _)

namespace Watches

private theorem of_unwatched (hwatched : s.worker.watched = none)
    (hgoesOn : s.worker.Awaits → s.stopped = true → s.ioCallback = [] → Pending s) :
    Watches e s := by
  refine ⟨fun fdread maxfd hw ↦ ?_, fun w hw ↦ ?_, hgoesOn⟩
  · exact absurd (hwatched.symm.trans hw) (Option.some_ne_none _).symm
  · exact absurd (hwatched.symm.trans hw) (Option.some_ne_none _).symm

private theorem of_elsewhere (hwatched : s.worker.watched = none) (hawaits : ¬ s.worker.Awaits) :
    Watches e s :=
  of_unwatched hwatched fun h ↦ absurd h hawaits

theorem initial : Watches e {} := of_elsewhere rfl id

theorem callMove (hw : Watches e s) (h : CallMove e i s t) : Watches e t := by
  have hkept : (t.stopped = s.stopped ∧ t.ioCallback = s.ioCallback → Pending s) → Pending t := by
    intro hs
    rcases h.pending with hsame | ht
    · exact (hs hsame).callMove h
    · exact ht
  refine ⟨?_, fun w ↦ ?_, ?_⟩
  · rw [h.worker_eq, h.snapshot_eq]
    exact hw.built
  · rw [h.worker_eq, h.snapshot_eq]
    intro hwatched hne
    refine hkept fun hsame ↦ hw.fresh w hwatched ?_
    rwa [State.keys, hsame.2] at hne
  · rw [h.worker_eq]
    intro hawaits hstopped hempty
    refine hkept fun hsame ↦ hw.goesOn hawaits ?_ ?_
    · rw [← hsame.1]
      exact hstopped
    · rw [← hsame.2]
      exact hempty

theorem workerStep (hw : Watches e s) (h : Select.workerStep e s = some t) : Watches e t := by
  cases workerStep_move h with
  | goOn hon =>
    -- The worker goes on because it has not been stopped, or because there are handlers.
    refine of_unwatched rfl fun _ hstopped hempty ↦ ?_
    rcases hon with ⟨-, hnot⟩ | ⟨-, hnot⟩
    · exact absurd (hnot.symm.trans hstopped) Bool.false_ne_true
    · exact absurd hempty hnot
  | lock hpc =>
    have hgoesOn := hw.goesOn
    rw [hpc] at hgoesOn
    exact of_unwatched rfl hgoesOn
  | build hpc =>
    have hgoesOn := hw.goesOn
    rw [hpc] at hgoesOn
    refine ⟨?_, fun w _ hne ↦ absurd rfl hne, hgoesOn⟩
    rintro fdread maxfd heq
    obtain ⟨rfl, rfl⟩ := Prod.mk.inj (Option.some_inj.mp heq)
    exact ⟨rfl, lt_maxfd _⟩
  | unlock hpc =>
    have hbuilt := hw.built
    have hfresh := hw.fresh
    have hgoesOn := hw.goesOn
    rw [hpc] at hbuilt hfresh hgoesOn
    exact ⟨hbuilt, hfresh, hgoesOn⟩
  | _ => exact of_elsewhere rfl id

theorem kernelStep (h : Select.kernelStep e ret s = some t) : Watches e t := by
  obtain ⟨-, pc, rfl, hpc⟩ := kernelStep_move h
  rcases hpc with ⟨-, rfl⟩ | ⟨ready, -, rfl⟩
  · exact of_elsewhere rfl id
  · exact of_elsewhere rfl id

/-- **One step.** -/
theorem step (hw : Watches e s) (h : Step e s t) : Watches e t := by
  obtain ⟨p, hp⟩ := h
  rcases p with - | ret | i
  · exact hw.workerStep hp
  · exact kernelStep hp
  · exact hw.callMove (callStep_move hp)

/-- **A run.** -/
theorem of_reachable (hs : Reachable IsInitial (Step e) s) : Watches e s := by
  apply hs.invariant
  · rintro s rfl
    exact .initial
  · exact fun s t _ hw hst ↦ hw.step hst

end Watches

/-! ## No lost wakeup

With a byte in the pipe the kernel can answer, and the answer has the pipe in it. Without one, the
call at its write puts one there, unless the pipe is full, and then there is a byte. -/

theorem exists_answer {fdread : Finset ℕ} {maxfd : ℕ} (hw : s.worker = .select fdread maxfd)
    (hpipe : e.threadPipe ∈ fdread) (hlt : e.threadPipe < maxfd) (hunread : 0 < s.unread) :
    ∃ ready, act e (.kernel (some ready)) s = some { s with worker := .relock ready } := by
  have hmem : e.threadPipe ∈ fdread.filter (· < maxfd) := Finset.mem_filter.mpr ⟨hpipe, hlt⟩
  have hanswer : MayAnswer e s fdread maxfd {e.threadPipe} := by
    refine ⟨Finset.singleton_subset_iff.mpr hmem, Finset.singleton_nonempty _, ?_⟩
    exact iff_of_true (Finset.mem_singleton_self _) ⟨hmem, hunread⟩
  refine ⟨{e.threadPipe}, ?_⟩
  simp only [act, kernelStep, hw, if_pos hanswer]

/-- **No lost wakeup.** While the worker is in `select`, the set it waits for is the pipe and the
descriptors it last saw in `io_callback`. If these are out of date, or the worker should leave, then
there is an unread byte, with which the `select` can return, or a call is about to write one. -/
theorem no_lost_wakeup {fdread : Finset ℕ} {maxfd : ℕ} (hs : Reachable IsInitial (Step e) s)
    (hw : s.worker = .select fdread maxfd) :
    fdread = insert e.threadPipe s.snapshot ∧
      (s.keys ≠ s.snapshot ∨ s.stopped = true ∧ s.ioCallback = [] →
        (0 < s.unread ∧ ∃ ready t, act e (.kernel (some ready)) s = some t) ∨
          ∃ i, s.callers i = .signal) := by
  have hwatches := Watches.of_reachable hs
  have hwatched : s.worker.watched = some (fdread, maxfd) := congrArg WorkerPc.watched hw
  obtain ⟨hset, hlt⟩ := hwatches.built _ _ hwatched
  refine ⟨hset, fun hchange ↦ ?_⟩
  have hpending : Pending s := by
    rcases hchange with hne | ⟨hstopped, hempty⟩
    · exact hwatches.fresh _ hwatched hne
    · refine hwatches.goesOn ?_ hstopped hempty
      rw [hw]
      trivial
  rcases hpending with hunread | hsignal
  · have hpipe : e.threadPipe ∈ fdread := hset ▸ Finset.mem_insert_self _ _
    obtain ⟨ready, hanswer⟩ := exists_answer hw hpipe hlt hunread
    exact Or.inl ⟨hunread, ready, _, hanswer⟩
  · exact Or.inr hsignal

/-- A handler is registered while the worker is in `select`. -/
theorem no_lost_wakeup_registering :
    ∃ s, Reachable IsInitial (Step (registering 8)) s ∧ s.worker = .select {3} 4 ∧ s.keys = {5} ∧
      ((0 < s.unread ∧ ∃ ready t, act (registering 8) (.kernel (some ready)) s = some t) ∨
        ∃ i, s.callers i = .signal) := by
  have hs : (execute (act (registering 8))
      (List.flatten [List.replicate 4 .worker, List.replicate 5 (.caller 0)]) {}).any
        (fun s ↦ s.worker = .select {3} 4 ∧ s.keys = {5} ∧ s.snapshot = ∅) = true := by
    decide +kernel
  obtain ⟨s, hrun, hw, hkeys, hsnapshot⟩ := exists_of_execute hs
  have hreach : Reachable IsInitial (Step (registering 8)) s :=
    reachable_of_execute (.start rfl) hrun
  refine ⟨s, hreach, hw, hkeys, (no_lost_wakeup hreach hw).2 (Or.inl ?_)⟩
  rw [hkeys, hsnapshot]
  exact Finset.singleton_ne_empty 5

end Select

end CppRepo
