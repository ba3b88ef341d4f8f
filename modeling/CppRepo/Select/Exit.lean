import CppRepo.Select.TaskManager

/-!
# What is registered when the worker is gone

The worker leaves its loop when it finds `stopped` set and then `io_callback` empty, and
`register_fd` refuses a handler when it finds `stopped` set. Neither of them looks at both at once:
a call that found `stopped` clear may insert its handler after the worker has left, and returns 0.
And the worker leaves its loop a second way, when `select` fails, whatever is registered then.

So once all calls are over and the worker has returned, what one wants to know is that `stopped` is
set and `io_callback` is empty. That holds in a run in which no handler is inserted after the worker
has left, and no `select` fails before there is nothing left to do.
-/

namespace CppRepo

namespace Select

variable {e : Setting} {i : ℕ} {s t : State} {p : Party} {ret : Option (Finset ℕ)}

/-! ## Accepted handlers

A handler is left behind if the call that registered it has returned 0, and it is still in the map
when the worker is gone. `LeavesNoHandler` forbids two steps: an insertion when the worker has
returned, and a failing `select` when there is something to do. -/

/-- No call is in progress. -/
def Quiescent (s : State) : Prop := ∀ i, s.callers i = .idle ∨ ∃ r, s.callers i = .returned r

/-- A call registered the handler and returned 0. -/
def Accepted (e : Setting) (s : State) (handler : IoHandler) : Prop :=
  ∃ i, e.call i = .registerFd handler ∧ s.callers i = .returned 0

/-- The manager is stopped, and no handler that was accepted is still registered. -/
def LeavesNone (e : Setting) (s : State) : Prop :=
  s.stopped = true ∧ ∀ handler, Accepted e s handler → (handler.pipefd, handler) ∉ s.ioCallback

/-- The manager is stopped and nothing is registered. -/
def Done (s : State) : Prop := s.stopped = true ∧ s.ioCallback = []

/-- This step does not leave a handler behind: nothing is inserted after the worker has left, and a
`select` fails only when there is nothing left to do. -/
def LeavesNoHandler (e : Setting) (p : Party) (s : State) : Prop :=
  match p with
  | .worker => True
  | .kernel ret => ret = none → s.stopped = true ∧ s.ioCallback = []
  | .caller i =>
    match e.call i with
    | .registerFd _ => s.callers i = .update → s.worker ≠ .returned
    | _ => True

instance : ∀ p, Decidable (LeavesNoHandler e p s)
  | .worker => isTrue trivial
  | .kernel ret => inferInstanceAs (Decidable (ret = none → s.stopped = true ∧ s.ioCallback = []))
  | .caller i =>
    match h : e.call i with
    | .registerFd _ => decidable_of_iff (s.callers i = .update → s.worker ≠ .returned)
        (by rw [LeavesNoHandler, h])
    | .unregisterFd _ => isTrue (by rw [LeavesNoHandler, h]; trivial)
    | .stop => isTrue (by rw [LeavesNoHandler, h]; trivial)

/-- The actions that leave no handler behind. -/
def carefulAct (e : Setting) : Party → State → Option State :=
  guarded (fun p s ↦ LeavesNoHandler e p s) (act e)

/-- A step that leaves no handler behind. -/
def CarefulStep (e : Setting) : State → State → Prop := Acts (carefulAct e)

/-! ## What an update does to the map

Handlers come into the map by updates of `register_fd` only, and `stopped` is never cleared. -/

private theorem Call.mem_update {c : Call} {x : ℕ × IoHandler} (h : x ∈ (c.update s).ioCallback) :
    x ∈ s.ioCallback ∨ ∃ handler, c = .registerFd handler ∧ x = (handler.pipefd, handler) := by
  rcases c with handler | io | -
  · rw [update, State.insert] at h
    split_ifs at h
    · exact Or.inl h
    · rcases List.mem_orderedInsert _ |>.mp h with hx | hx
      · exact Or.inr ⟨handler, rfl, hx⟩
      · exact Or.inl hx
  · exact Or.inl (List.mem_of_mem_filter h)
  · exact Or.inl h

private theorem Call.stopped_update (c : Call) (hs : s.stopped = true) :
    (c.update s).stopped = true := by
  rcases c with handler | io | -
  · exact hs
  · exact hs
  · rfl

private theorem Call.update_register_ne_nil (handler : IoHandler) :
    ((Call.registerFd handler).update s).ioCallback ≠ [] := by
  rw [update, State.insert]
  split_ifs with h
  · rintro hnil
    rw [State.keys, hnil] at h
    exact absurd h (Finset.notMem_empty _)
  · exact List.ne_nil_of_mem (List.mem_orderedInsert _ |>.mpr (Or.inl rfl))

namespace CallMove

theorem frame (h : CallMove e i s t) (hi : s.callers i ≠ .update) :
    t.stopped = s.stopped ∧ t.ioCallback = s.ioCallback := by
  rcases h with - | - | hfrom | - | -
  case update => exact absurd hfrom hi
  all_goals exact ⟨rfl, rfl⟩

theorem stopped (h : CallMove e i s t) (hs : s.stopped = true) : t.stopped = true := by
  by_cases hi : s.callers i = .update
  · rw [h.eq_of_update hi]
    exact (e.call i).stopped_update hs
  · exact (h.frame hi).1.trans hs

/-- What is in the map after a step of a call was there, or is inserted in this step. -/
theorem mem_ioCallback (h : CallMove e i s t) {x : ℕ × IoHandler} (hx : x ∈ t.ioCallback) :
    x ∈ s.ioCallback ∨ s.callers i = .update ∧ t.callers i = .signal ∧
      ∃ handler, e.call i = .registerFd handler ∧ x = (handler.pipefd, handler) := by
  by_cases hi : s.callers i = .update
  · rw [h.eq_of_update hi] at hx ⊢
    rcases Call.mem_update hx with hmem | hnew
    · exact Or.inl hmem
    · exact Or.inr ⟨hi, State.callers_setCaller _ _ _, hnew⟩
  · exact Or.inl ((h.frame hi).2 ▸ hx)

end CallMove

/-! ## Where the registered handlers come from

What is in the map was put there by a call that is now past its update. Once no call is in progress,
such a call has returned, and it has returned 0, as it refuses only before. -/

/-- The call has made its update and has not failed. -/
def CallPc.Updated : CallPc → Prop
  | .signal | .unlock => True
  | .returned r => r = 0
  | _ => False

private theorem CallMove.updated (h : CallMove e i s t) (hi : (s.callers i).Updated) :
    (t.callers i).Updated := by
  rcases h with ⟨pc, hfrom, -⟩ | ⟨-, hfrom, -⟩ | hfrom | ⟨pc, -, -, hpc⟩ | -
  case go => rcases hfrom with hfrom | hfrom <;> rw [hfrom] at hi <;> exact hi.elim
  case signal =>
    rw [State.callers_setCaller]
    rcases hpc with ⟨-, rfl⟩ | ⟨-, rfl⟩
    · trivial
    · exact rfl
  case unlock =>
    rw [State.callers_setCaller]
    exact rfl
  all_goals
    rw [hfrom] at hi
    exact hi.elim

/-- Each handler in the map was put there by a call. -/
def Sourced (e : Setting) (s : State) : Prop :=
  ∀ x ∈ s.ioCallback, ∃ i handler, e.call i = .registerFd handler ∧ x = (handler.pipefd, handler) ∧
    (s.callers i).Updated

namespace Sourced

theorem step (hs : Sourced e s) (h : act e p s = some t) : Sourced e t := by
  rcases p with - | ret | i
  · have hframe := workerStep_frame h
    rw [Sourced, hframe.ioCallback, hframe.callers]
    exact hs
  · obtain ⟨-, pc, rfl, -⟩ := kernelStep_move h
    exact hs
  · have hmove := callStep_move h
    intro x hx
    rcases hmove.mem_ioCallback hx with hold | ⟨-, hsignal, handler, hcall, hx⟩
    · obtain ⟨j, handler, hcall, hx, hj⟩ := hs x hold
      refine ⟨j, handler, hcall, hx, ?_⟩
      by_cases hji : j = i
      · subst hji
        exact hmove.updated hj
      · rw [hmove.callers_of_ne hji]
        exact hj
    · refine ⟨i, handler, hcall, hx, ?_⟩
      rw [hsignal]
      trivial

theorem of_reachable (hs : Reachable IsInitial (Step e) s) : Sourced e s := by
  apply hs.invariant
  · rintro s rfl x hx
    exact absurd hx List.not_mem_nil
  · rintro s t _ hs ⟨p, hp⟩
    exact hs.step hp

end Sourced

/-- **No call in progress.** Each handler in the map was then accepted, so that none of them is
accepted is the same as that there is none. -/
theorem leavesNone_iff (hs : Reachable IsInitial (Step e) s) (hq : Quiescent s) :
    LeavesNone e s ↔ Done s := by
  constructor
  · rintro ⟨hstopped, hnone⟩
    refine ⟨hstopped, List.eq_nil_iff_forall_not_mem.mpr fun x hx ↦ ?_⟩
    obtain ⟨i, handler, hcall, rfl, hi⟩ := Sourced.of_reachable hs x hx
    refine hnone handler ⟨i, hcall, ?_⟩ hx
    rcases hq i with hidle | ⟨r, hreturned⟩
    · rw [hidle] at hi
      exact hi.elim
    · rw [hreturned] at hi ⊢
      exact congrArg CallPc.returned hi
  · rintro ⟨hstopped, hnil⟩
    refine ⟨hstopped, fun handler _ ↦ ?_⟩
    rw [hnil]
    exact List.not_mem_nil

/-! ## How the worker leaves

The worker tests `stopped` first and then whether the map is empty, without the mutex. Between the
two tests nothing clears the flag, and what is inserted after the second one is inserted after the
worker has left. -/

/-- What the worker found on its way out still holds. -/
def Exits (s : State) : Prop :=
  match s.worker with
  | .testEmpty => s.stopped = true
  | .returned => Done s
  | _ => True

namespace Exits

theorem done (hexits : Exits s) (hw : s.worker = .returned) : Done s := by
  rwa [Exits, hw] at hexits

theorem workerStep (hexits : Exits s) (h : Select.workerStep e s = some t) : Exits t := by
  cases workerStep_move h with
  -- The worker is bound to leave from the test of `stopped` on, if it finds it set.
  | stopped _ hs => exact hs
  | leave hw hempty =>
    rw [Exits, hw] at hexits
    exact ⟨hexits, hempty⟩
  | _ => trivial

/-- A call keeps what the worker found, if it inserts nothing after the worker has left. -/
theorem callMove (hexits : Exits s) (hcareful : LeavesNoHandler e (.caller i) s)
    (h : CallMove e i s t) : Exits t := by
  rw [Exits] at hexits ⊢
  rw [h.worker_eq]
  rcases hw : s.worker with - | - | - | - | ⟨fdread, maxfd⟩ | ⟨fdread, maxfd⟩ | fdread |
      ⟨ios, fdread⟩ | ⟨io, ios, fdread⟩ | fdread | - | - <;> rw [hw] at hexits
  case testEmpty => exact h.stopped hexits
  case returned =>
    obtain ⟨hstopped, hnil⟩ := hexits
    refine ⟨h.stopped hstopped, List.eq_nil_iff_forall_not_mem.mpr fun x hx ↦ ?_⟩
    rcases h.mem_ioCallback hx with hold | ⟨hupdate, -, handler, hcall, -⟩
    · rw [hnil] at hold
      exact absurd hold List.not_mem_nil
    · rw [LeavesNoHandler, hcall] at hcareful
      exact hcareful hupdate hw
  all_goals trivial

/-- **One step.** -/
theorem step (hexits : Exits s) (h : CarefulStep e s t) : Exits t := by
  obtain ⟨p, hp⟩ := h
  obtain ⟨hcareful, hp⟩ := guarded_eq_some.mp hp
  rcases p with - | ret | i
  · exact hexits.workerStep hp
  · obtain ⟨-, pc, rfl, ⟨hnone, rfl⟩ | ⟨ready, -, rfl⟩⟩ := kernelStep_move hp
    · exact hcareful hnone
    · trivial
  · exact hexits.callMove hcareful (callStep_move hp)

/-- **A run.** -/
theorem of_reachable (hs : Reachable IsInitial (CarefulStep e) s) : Exits s := by
  apply hs.invariant
  · rintro s rfl
    trivial
  · exact fun s t _ hexits hst ↦ hexits.step hst

end Exits

/-! ## When no handler is left behind -/

private theorem not_done_of_not_careful (hcareful : ¬ LeavesNoHandler e p s)
    (h : act e p s = some t) : t.worker = .returned ∧ ¬ Done t := by
  rcases p with - | ret | i
  · exact absurd trivial hcareful
  · rw [LeavesNoHandler, Classical.not_imp] at hcareful
    obtain ⟨hnone, hnot⟩ := hcareful
    obtain ⟨-, pc, rfl, ⟨-, rfl⟩ | ⟨ready, hsome, -⟩⟩ := kernelStep_move h
    · exact ⟨rfl, hnot⟩
    · exact absurd (hnone.symm.trans hsome) (Option.some_ne_none ready).symm
  · rcases hcall : e.call i with handler | io | - <;>
      rw [LeavesNoHandler, hcall] at hcareful
    case registerFd =>
      push Not at hcareful
      obtain ⟨hupdate, hw⟩ := hcareful
      have hmove := callStep_move h
      refine ⟨hmove.worker_eq.trans hw, fun hdone ↦ ?_⟩
      rw [hmove.eq_of_update hupdate, hcall] at hdone
      exact Call.update_register_ne_nil handler hdone.2
    all_goals exact absurd trivial hcareful

/-- **The end of the worker.** In a careful run, once the worker has returned and no call is in
progress, the manager is stopped and no accepted handler is left. In any run these two amount to
nothing being registered any more; and a step that is not careful ends with the worker gone and the
manager not done. -/
theorem leavesNone_of_careful (e : Setting) :
    (∀ s, Reachable IsInitial (CarefulStep e) s → s.worker = .returned → Quiescent s →
      LeavesNone e s) ∧
    (∀ s, Reachable IsInitial (Step e) s → Quiescent s → (LeavesNone e s ↔ Done s)) ∧
    ∀ s p t, act e p s = some t → ¬ LeavesNoHandler e p s → t.worker = .returned ∧ ¬ Done t := by
  refine ⟨fun s hs hw hq ↦ ?_, fun s hs hq ↦ leavesNone_iff hs hq, fun s p t h hcareful ↦
    not_done_of_not_careful hcareful h⟩
  have hdone : Done s := (Exits.of_reachable hs).done hw
  exact (leavesNone_iff (hs.mono fun _ _ ↦ acts_of_guarded) hq).mpr hdone

/-! ## Two runs

Both runs are given by the schedule of the parties. In the first one call 0 has passed its test when
call 1 stops the manager; in the second one its handler is unregistered before that. -/

private theorem callers_of_execute {ps : List Party} (h : execute (act e) ps s = some t)
    (hi : .caller i ∉ ps) : t.callers i = s.callers i := by
  induction ps generalizing s with
  | nil => rw [Option.some_inj.mp h]
  | cons p ps ih =>
    obtain ⟨u, hu, ht⟩ := Option.bind_eq_some_iff.mp h
    rw [List.mem_cons, not_or] at hi
    obtain ⟨hp, hps⟩ := hi
    refine (ih ht hps).trans ?_
    rcases p with - | ret | j
    · rw [(workerStep_frame hu).callers]
    · obtain ⟨-, pc, rfl, -⟩ := kernelStep_move hu
      rfl
    · exact (callStep_move hu).callers_of_ne fun hij ↦ hp (congrArg Party.caller hij)

private theorem quiescent_of_execute {ps : List Party} (h : execute (act e) ps {} = some t)
    (hps : ∀ i, .caller i ∈ ps → t.callers i = .returned 0) : Quiescent t := by
  intro i
  by_cases hi : .caller i ∈ ps
  · exact Or.inr ⟨0, hps i hi⟩
  · exact Or.inl (callers_of_execute h hi)

/-- Call 1 stops the manager, call 2 unregisters the handler of call 0, and the others register
handlers of their own. -/
def stopping : Setting where
  threadPipe := 3
  capacity := 65536
  call i := if i = 1 then .stop else if i = 2 then .unregisterFd ⟨0, 5⟩ else
    .registerFd ⟨i, 2 * i + 5⟩

/-- Call 0 finds the manager running. Then the manager is stopped and the worker leaves, and only
now the call inserts its handler. -/
def lateRegistration : List Party :=
  [.caller 0, .caller 0, .caller 1, .caller 1, .caller 1, .caller 1, .worker, .worker,
    .caller 0, .caller 0, .caller 0, .caller 0]

/-- Call 0 returns 0, and its handler stays registered with nobody to serve it. -/
theorem lateRegistration_leaves_handler :
    ∃ s, Reachable IsInitial (Step stopping) s ∧ s.worker = .returned ∧ Quiescent s ∧
      ¬ LeavesNone stopping s := by
  have hs : (execute (act stopping) lateRegistration {}).any (fun s ↦
      s.worker = .returned ∧ s.callers 0 = .returned 0 ∧ s.callers 1 = .returned 0 ∧
        (5, ⟨0, 5⟩) ∈ s.ioCallback) = true := by decide +kernel
  obtain ⟨s, hrun, hw, hregister, hstop, hmem⟩ := exists_of_execute hs
  have hover : ∀ i, .caller i ∈ lateRegistration → s.callers i = .returned 0 := by
    simp only [lateRegistration, List.mem_cons, List.not_mem_nil, reduceCtorEq, Party.caller.injEq]
    rintro i h
    obtain rfl | rfl : i = 0 ∨ i = 1 := by tauto
    · exact hregister
    · exact hstop
  refine ⟨s, reachable_of_execute (.start rfl) hrun, hw, quiescent_of_execute hrun hover, ?_⟩
  exact fun hnone ↦ hnone.2 ⟨0, 5⟩ ⟨0, rfl, hregister⟩ hmem

/-- Call 0 registers its handler, call 2 unregisters it, call 1 stops the manager, and the worker
leaves. -/
def orderlyStop : List Party :=
  List.replicate 6 (.caller 0) ++ List.replicate 5 (.caller 2) ++ List.replicate 4 (.caller 1)
    ++ [.worker, .worker]

theorem leavesNone_of_careful_orderlyStop :
    ∃ s, Reachable IsInitial (CarefulStep stopping) s ∧ s.worker = .returned ∧
      Accepted stopping s ⟨0, 5⟩ ∧ LeavesNone stopping s := by
  have hs : (execute (carefulAct stopping) orderlyStop {}).any (fun s ↦
      s.worker = .returned ∧ s.callers 0 = .returned 0 ∧ s.callers 1 = .returned 0 ∧
        s.callers 2 = .returned 0) = true := by decide +kernel
  obtain ⟨s, hrun, hw, hregister, hstop, hunregister⟩ := exists_of_execute hs
  have hover : ∀ i, .caller i ∈ orderlyStop → s.callers i = .returned 0 := by
    simp only [orderlyStop, List.mem_append, List.mem_replicate, List.mem_cons, List.not_mem_nil,
      reduceCtorEq, Party.caller.injEq]
    rintro i h
    obtain rfl | rfl | rfl : i = 0 ∨ i = 1 ∨ i = 2 := by tauto
    · exact hregister
    · exact hstop
    · exact hunregister
  have hreach : Reachable IsInitial (CarefulStep stopping) s :=
    reachable_of_execute (.start rfl) hrun
  exact ⟨s, hreach, hw, ⟨0, rfl, hregister⟩, (leavesNone_of_careful _).1 s hreach hw
    (quiescent_of_execute (execute_of_guarded hrun) hover)⟩

end Select

end CppRepo
