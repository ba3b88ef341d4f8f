import CppRepo.Daemon.Loop
import CppRepo.Library.Ranking

/-!
# Ending a process

`terminate` sets `_shutdown`, wakes the loop, and waits for `_shutdown_done`, which the loop sets
when it has left. The loop sees `_shutdown` only between two rounds, so a job that is on its way is
not broken off, and the services are closed after the last one.

`_shutdown_done` is set at the end of `run`, and not in a `finally`. If `run` has ended with an
exception, nobody sets it, and `terminate` waits for ever. There are two ways to come to that: a
session event leads to one, since its handler names a variable that does not exist, and so does a
first election that raises.

## The steps, once more

For what happens after `_shutdown` is set, most of the state does not matter. `LoopStep` and
`TerminateStep` say which place of the loop and of `terminate` leads to which, and `Effect` says
that each step of the machine is one of these, or changes neither. The places past the argument that
raises are never reached, so they have no step here.

**Main result.** After `_shutdown` is set the loop begins one job at most and soon comes to an end,
whatever the other threads do, and then `terminate` returns or waits for ever
(`terminate_of_shutdown`).
-/

namespace CppRepo

namespace Daemon

variable {s t : State} {p : Party} {n : ℕ}

/-! ## Where the loop and `terminate` are

`hasLeft` is true of the loop once it has found `_shutdown` set, and `hasWaited` of `terminate` once
it has got past the event. `Ordered` says which of these implies which, and that no place past the
argument that raises is reached. -/

/-- The loop is past the argument that raises. -/
def MainPc.IsPastArgument : MainPc → Bool
  | .testConnected | .restart | .resetChanges | .haArgument | .haReinit => true
  | _ => false

/-- `run` has ended with an exception. -/
def MainPc.HasRaised (pc : MainPc) : Prop := pc = .raised ∨ pc = .failed

/-- A step of the thread in which the loop is. -/
def Party.isLoop : Party → Bool
  | .main | .electionFails => true
  | _ => false

/-- The loop has left. -/
def MainPc.hasLeft : MainPc → Bool
  | .setDone | .done => true
  | _ => false

/-- `terminate` has set `_shutdown`. -/
def TerminatePc.hasShutDown : TerminatePc → Bool
  | .idle | .setShutdown => false
  | _ => true

/-- `terminate` has waited for `_shutdown_done`. -/
def TerminatePc.hasWaited : TerminatePc → Bool
  | .closeServices | .returned => true
  | _ => false

/-- The events say where the loop and `terminate` are. -/
structure Ordered (s : State) : Prop where
  argument : s.main.IsPastArgument = false
  shutdown : s.terminate.hasShutDown = s.shutdown
  left : s.main.hasLeft = true → s.shutdown = true
  done : s.shutdownDone = decide (s.main = .done)
  waited : s.terminate.hasWaited = true → s.main = .done
  raised : s.main = .zkArgument ∨ s.main = .raised → s.stateChanges = true

/-! ## What a step does

The steps are listed once, in the terms of this module. The lemmas on them are what the invariant
and the ranking below need; neither unfolds the machine again. -/

/-- A step of the loop, up to the argument that raises. -/
inductive LoopStep (shutdown stateChanges : Bool) : MainPc → MainPc → Prop
  | setRunning : LoopStep shutdown stateChanges .setRunning .initChanges
  | initChanges : LoopStep shutdown stateChanges .initChanges .startup
  | electionFails : LoopStep shutdown stateChanges .startup .failed
  | startup : LoopStep shutdown stateChanges .startup .testShutdown
  | testShutdown :
      LoopStep shutdown stateChanges .testShutdown (if shutdown then .setDone else .job)
  | job : LoopStep shutdown stateChanges .job .wait
  | wait : LoopStep shutdown stateChanges .wait .clear
  | clear : LoopStep shutdown stateChanges .clear .testChanges
  | testChanges :
      LoopStep shutdown stateChanges .testChanges
        (if stateChanges then .zkArgument else .testShutdown)
  | zkArgument : LoopStep shutdown stateChanges .zkArgument .raised
  | setDone : LoopStep shutdown stateChanges .setDone .done

namespace LoopStep

variable {shutdown stateChanges : Bool} {pc pc' : MainPc}

private theorem ne_done (h : LoopStep shutdown stateChanges pc pc') : pc ≠ .done := by
  cases h <;> decide

private theorem isPastArgument (h : LoopStep shutdown stateChanges pc pc') :
    pc'.IsPastArgument = false := by
  cases h with
  | testShutdown => cases shutdown <;> rfl
  | testChanges => cases stateChanges <;> rfl
  | _ => rfl

theorem hasLeft (h : LoopStep shutdown stateChanges pc pc') (hleft : pc'.hasLeft = true) :
    shutdown = true ∨ pc.hasLeft = true := by
  cases h with
  | testShutdown =>
    cases shutdown with
    | false => exact absurd hleft (by decide)
    | true => exact Or.inl rfl
  | testChanges => cases stateChanges <;> exact absurd hleft (by decide)
  | setDone => exact Or.inr rfl
  | _ => exact absurd hleft (by decide)

private theorem eq_done_iff (h : LoopStep shutdown stateChanges pc pc') :
    pc' = .done ↔ pc = .setDone := by
  cases h with
  | testShutdown => cases shutdown <;> decide
  | testChanges => cases stateChanges <;> decide
  | _ => decide

theorem raised (h : LoopStep shutdown stateChanges pc pc')
    (hraised : pc' = .zkArgument ∨ pc' = .raised) :
    stateChanges = true ∨ pc = .zkArgument ∨ pc = .raised := by
  cases h with
  | testShutdown => cases shutdown <;> exact absurd hraised (by decide)
  | testChanges =>
    cases stateChanges with
    | false => exact absurd hraised (by decide)
    | true => exact Or.inl rfl
  | zkArgument => exact Or.inr (Or.inl rfl)
  | _ => exact absurd hraised (by decide)

end LoopStep

/-- A step of `terminate`. -/
inductive TerminateStep (shutdownDone : Bool) : TerminatePc → Bool → TerminatePc → Bool → Prop
  | idle (shutdown : Bool) : TerminateStep shutdownDone .idle shutdown .setShutdown shutdown
  | setShutdown (shutdown : Bool) :
      TerminateStep shutdownDone .setShutdown shutdown .wakeup true
  | wakeup (shutdown : Bool) : TerminateStep shutdownDone .wakeup shutdown .waitDone shutdown
  | waitDone (shutdown : Bool) (hdone : shutdownDone = true) :
      TerminateStep shutdownDone .waitDone shutdown .closeServices shutdown
  | closeServices (shutdown : Bool) :
      TerminateStep shutdownDone .closeServices shutdown .returned shutdown

namespace TerminateStep

variable {shutdownDone shutdown shutdown' : Bool} {pc pc' : TerminatePc}

private theorem hasShutDown (h : TerminateStep shutdownDone pc shutdown pc' shutdown')
    (hshutdown : pc.hasShutDown = shutdown) : pc'.hasShutDown = shutdown' := by
  cases h with
  | setShutdown => rfl
  | _ => exact hshutdown

theorem stays (h : TerminateStep shutdownDone pc shutdown pc' shutdown')
    (hshutdown : shutdown = true) : shutdown' = true := by
  cases h with
  | setShutdown => rfl
  | _ => exact hshutdown

private theorem hasWaited (h : TerminateStep shutdownDone pc shutdown pc' shutdown')
    (hwaited : pc'.hasWaited = true) : shutdownDone = true ∨ pc.hasWaited = true := by
  cases h with
  | waitDone _ hdone => exact Or.inl hdone
  | closeServices => exact Or.inr rfl
  | _ => exact absurd hwaited (by decide)

end TerminateStep

/-- What a step of `p` does to what the loop and `terminate` are about. -/
inductive Effect (p : Party) (s t : State) : Prop
  | main (hp : p.isLoop = true) (hshutdown : t.shutdown = s.shutdown)
      (hchanges : t.stateChanges = s.stateChanges ∨ t.main = .startup)
      (hterminate : t.terminate = s.terminate)
      (hdone : t.shutdownDone = (s.shutdownDone || decide (s.main = .setDone)))
      (hmain : LoopStep s.shutdown s.stateChanges s.main t.main)
  | terminate (hp : p.isLoop = false) (hmain : t.main = s.main)
      (hchanges : t.stateChanges = s.stateChanges) (hdone : t.shutdownDone = s.shutdownDone)
      (hterminate :
        TerminateStep s.shutdownDone s.terminate s.shutdown t.terminate t.shutdown)
  | other (hp : p.isLoop = false) (hmain : t.main = s.main) (hshutdown : t.shutdown = s.shutdown)
      (hterminate : t.terminate = s.terminate) (hdone : t.shutdownDone = s.shutdownDone)
      (hchanges : s.stateChanges = true → t.stateChanges = true)

theorem mainStep_effect (hargument : s.main.IsPastArgument = false) (h : mainStep s = some t) :
    Effect .main s t := by
  rcases hm : s.main <;> rw [hm] at hargument <;>
    simp only [mainStep, hm, Option.some.injEq, reduceCtorEq] at h
  case testConnected | restart | resetChanges | haArgument | haReinit =>
    exact absurd hargument (by decide)
  case initChanges =>
    subst h
    refine .main rfl rfl (Or.inr rfl) rfl (by simp [hm]) ?_
    rw [hm]
    exact .initChanges
  all_goals
    subst h
    refine .main rfl rfl (Or.inl rfl) rfl (by simp [hm]) ?_
    rw [hm]
  case setRunning => exact .setRunning
  case startup => exact .startup
  case testShutdown => exact .testShutdown
  case job => exact .job
  case wait => exact .wait
  case clear => exact .clear
  case testChanges => exact .testChanges
  case zkArgument => exact .zkArgument
  case setDone => exact .setDone

theorem electionFails_effect (hargument : s.main.IsPastArgument = false)
    (h : electionFails s = some t) : Effect .electionFails s t := by
  rcases hm : s.main <;> rw [hm] at hargument <;>
    simp only [electionFails, hm, Option.some.injEq, reduceCtorEq] at h
  case startup =>
    subst h
    refine .main rfl rfl (Or.inl rfl) rfl (by simp [hm]) ?_
    rw [hm]
    exact .electionFails
  case haReinit => exact absurd hargument (by decide)

theorem notificationStep_effect (h : notificationStep n s = some t) :
    Effect (.notification n) s t := by
  rcases hn : s.notifications n <;>
    simp only [notificationStep, hn, Option.some.injEq, reduceCtorEq] at h
  case setChanges =>
    subst h
    exact .other rfl rfl rfl rfl rfl fun _ ↦ rfl
  all_goals
    subst h
    exact .other rfl rfl rfl rfl rfl id

theorem terminateStep_effect (h : terminateStep s = some t) : Effect .terminate s t := by
  rcases hp : s.terminate <;>
    simp only [terminateStep, hp, Option.some.injEq, Option.ite_none_right_eq_some,
      reduceCtorEq] at h
  case waitDone =>
    obtain ⟨hdone, rfl⟩ := h
    refine .terminate rfl rfl rfl rfl ?_
    rw [hp]
    exact .waitDone _ hdone
  all_goals
    subst h
    refine .terminate rfl rfl rfl rfl ?_
    rw [hp]
  case idle => exact .idle _
  case setShutdown => exact .setShutdown _
  case wakeup => exact .wakeup _
  case closeServices => exact .closeServices _

theorem act_effect (hargument : s.main.IsPastArgument = false) (h : act p s = some t) :
    Effect p s t := by
  cases p with
  | main => exact mainStep_effect hargument h
  | notification n => exact notificationStep_effect h
  | terminate => exact terminateStep_effect h
  | connection up =>
    obtain rfl := Option.some_inj.mp h
    exact .other rfl rfl rfl rfl rfl id
  | electionFails => exact electionFails_effect hargument h

/-! ## The invariant

`_shutdown_done` is set if and only if the loop is done, and `terminate` gets past it only then. The
flags are set before the places that depend on them. -/

namespace Ordered

theorem initial : Ordered {} :=
  ⟨rfl, rfl, fun h ↦ absurd h (by decide), rfl, fun h ↦ absurd h (by decide),
    fun h ↦ absurd h (by decide)⟩

theorem main (hs : Ordered s) (hshutdown : t.shutdown = s.shutdown)
    (hchanges : t.stateChanges = s.stateChanges ∨ t.main = .startup)
    (hterminate : t.terminate = s.terminate)
    (hdone : t.shutdownDone = (s.shutdownDone || decide (s.main = .setDone)))
    (hmain : LoopStep s.shutdown s.stateChanges s.main t.main) : Ordered t := by
  constructor
  · exact hmain.isPastArgument
  · rw [hterminate, hshutdown]
    exact hs.shutdown
  · rw [hshutdown]
    exact fun hleft ↦ (hmain.hasLeft hleft).elim id hs.left
  · rw [hdone, hs.done, decide_eq_false hmain.ne_done, Bool.false_or]
    exact decide_eq_decide.mpr hmain.eq_done_iff.symm
  · rw [hterminate]
    exact fun hwaited ↦ absurd (hs.waited hwaited) hmain.ne_done
  · intro hraised
    rcases hchanges with hchanges | hstartup
    · rw [hchanges]
      exact (hmain.raised hraised).elim id hs.raised
    · rw [hstartup] at hraised
      exact absurd hraised (by decide)

theorem terminate (hs : Ordered s) (hmain : t.main = s.main)
    (hchanges : t.stateChanges = s.stateChanges) (hdone : t.shutdownDone = s.shutdownDone)
    (hterminate : TerminateStep s.shutdownDone s.terminate s.shutdown t.terminate t.shutdown) :
    Ordered t := by
  constructor
  · exact hmain ▸ hs.argument
  · exact hterminate.hasShutDown hs.shutdown
  · exact fun hleft ↦ hterminate.stays (hs.left (hmain ▸ hleft))
  · rw [hdone, hmain]
    exact hs.done
  · rw [hmain]
    refine fun hwaited ↦ (hterminate.hasWaited hwaited).elim (fun hset ↦ ?_) hs.waited
    exact of_decide_eq_true (hs.done.symm.trans hset)
  · rw [hmain, hchanges]
    exact hs.raised

theorem step (hs : Ordered s) (h : Effect p s t) : Ordered t := by
  cases h with
  | main _ hshutdown hchanges hterminate hdone hmain =>
    exact hs.main hshutdown hchanges hterminate hdone hmain
  | terminate _ hmain hchanges hdone hterminate =>
    exact hs.terminate hmain hchanges hdone hterminate
  | other _ hmain hshutdown hterminate hdone hchanges =>
    obtain ⟨hargument, hshut, hleft, hisDone, hwaited, hraised⟩ := hs
    refine ⟨?_, ?_, ?_, ?_, ?_, fun h ↦ hchanges (hraised (hmain ▸ h))⟩
    · exact hmain ▸ hargument
    · rw [hterminate, hshutdown]
      exact hshut
    · rw [hmain, hshutdown]
      exact hleft
    · rw [hdone, hmain]
      exact hisDone
    · rw [hterminate, hmain]
      exact hwaited

theorem of_reachable (hs : Reachable IsInitial Step s) : Ordered s := by
  apply hs.invariant
  · rintro s rfl
    exact initial
  · rintro s t - hordered ⟨p, hp⟩
    exact hordered.step (act_effect hordered.argument hp)

end Ordered

/-! ## After `_shutdown` is set

With `_shutdown` set, each step of the loop's thread lowers its rank, and no other party raises it.
The job that may still be done is the one that the loop was about to begin. -/

/-- How many steps the loop takes at most once `_shutdown` is set. -/
def MainPc.rank : MainPc → ℕ
  | .job => 6
  | .wait => 5
  | .clear => 4
  | .setRunning => 5
  | .initChanges => 4
  | .testChanges | .startup => 3
  | .testShutdown => 2
  | .zkArgument | .setDone => 1
  | _ => 0

/-- A step of `p` is a job. -/
def jobCost (p : Party) (s : State) : ℕ := if p.isLoop ∧ s.main = .job then 1 else 0

/-- How many jobs are done in a schedule. -/
def jobs : List Party → State → ℕ := spent act jobCost

theorem LoopStep.rank_lt {stateChanges : Bool} {pc pc' : MainPc}
    (h : LoopStep true stateChanges pc pc') : pc'.rank + 1 ≤ pc.rank := by
  cases h with
  | testChanges => cases stateChanges <;> decide
  | _ => decide

private theorem LoopStep.ne_job {stateChanges : Bool} {pc pc' : MainPc}
    (h : LoopStep true stateChanges pc pc') : pc' ≠ .job := by
  cases h with
  | testChanges => cases stateChanges <;> decide
  | _ => decide

/-- `_shutdown` is set, and the invariant holds. -/
structure ShutDown (s : State) : Prop where
  ordered : Ordered s
  shutdown : s.shutdown = true

namespace ShutDown

theorem step (hs : ShutDown s) (h : act p s = some t) : ShutDown t := by
  have heffect := act_effect hs.ordered.argument h
  refine ⟨hs.ordered.step heffect, ?_⟩
  cases heffect with
  | main _ hshutdown => exact hshutdown.trans hs.shutdown
  | terminate _ _ _ _ hterminate => exact hterminate.stays hs.shutdown
  | other _ _ hshutdown => exact hshutdown.trans hs.shutdown

private theorem rank_step (hs : ShutDown s) (h : act p s = some t) :
    t.main.rank + (if p.isLoop then 1 else 0) ≤ s.main.rank := by
  cases act_effect hs.ordered.argument h with
  | main hp _ _ _ _ hmain =>
    rw [if_pos hp]
    rw [hs.shutdown] at hmain
    exact hmain.rank_lt
  | terminate hp hmain | other hp hmain =>
    rw [if_neg (Bool.eq_false_iff.mp hp), hmain]
    exact le_rfl

private theorem jobs_step (hs : ShutDown s) (h : act p s = some t) :
    (if t.main = .job then 1 else 0) + jobCost p s ≤ if s.main = .job then 1 else 0 := by
  cases act_effect hs.ordered.argument h with
  | main hp _ _ _ _ hmain =>
    rw [hs.shutdown] at hmain
    rw [if_neg hmain.ne_job, jobCost]
    simp only [hp, true_and, Nat.zero_add, le_refl]
  | terminate hp hmain => simp [jobCost, hp, hmain]
  | other hp hmain => simp [jobCost, hp, hmain]

private theorem exists_returned (hs : ShutDown s) (hdone : s.main = .done) :
    ∃ k ≤ 3, ∃ u, execute act (List.replicate k .terminate) s = some u ∧
      u.terminate = .returned := by
  have hset : s.shutdownDone = true := hs.ordered.done.trans (decide_eq_true hdone)
  have hshut : s.terminate.hasShutDown = true := hs.ordered.shutdown.trans hs.shutdown
  have hreturned (k : ℕ) (hk : k ≤ 3)
      (hany : (execute act (List.replicate k .terminate) s).any
        (fun u ↦ u.terminate = .returned) = true) :
      ∃ k ≤ 3, ∃ u, execute act (List.replicate k .terminate) s = some u ∧
        u.terminate = .returned := ⟨k, hk, exists_of_execute hany⟩
  cases hp : s.terminate
  case idle | setShutdown => exact absurd hshut (by rw [hp]; decide)
  case wakeup => exact hreturned 3 le_rfl (by simp [execute, act, terminateStep, hp, hset])
  case waitDone => exact hreturned 2 (by decide) (by simp [execute, act, terminateStep, hp, hset])
  case closeServices => exact hreturned 1 (by decide) (by simp [execute, act, terminateStep, hp])
  case returned => exact hreturned 0 (by decide) (by simp [execute, hp])

private theorem hasWaited_of_raised {ps : List Party} (hs : ShutDown s) (hraised : s.main.HasRaised)
    (h : execute act ps s = some t) : t.terminate.hasWaited = false := by
  have hstep (p : Party) (s t : State) (hs : ShutDown s ∧ s.main.HasRaised)
      (h : act p s = some t) : ShutDown t ∧ t.main.HasRaised := by
    refine ⟨hs.1.step h, ?_⟩
    cases act_effect hs.1.ordered.argument h with
    | main _ _ _ _ _ hmain =>
      rcases hs.2 with hraised | hfailed
      · rw [hraised] at hmain
        cases hmain
      · rw [hfailed] at hmain
        cases hmain
    | terminate _ hmain | other _ hmain =>
      rw [hmain]
      exact hs.2
  obtain ⟨ht, hmain⟩ := execute_invariant (I := fun s ↦ ShutDown s ∧ s.main.HasRaised) hstep
    ⟨hs, hraised⟩ h
  refine Bool.eq_false_iff.mpr fun hwaited ↦ ?_
  have hdone := ht.ordered.waited hwaited
  rw [hdone] at hmain
  rcases hmain with h | h <;> exact MainPc.noConfusion h

end ShutDown

private theorem main_isSome (s : State) :
    (act .main s).isSome ∨ s.main = .done ∨ s.main.HasRaised := by
  cases hm : s.main <;> simp [act, mainStep, hm, MainPc.HasRaised]

/-- **The end of a process.** Once `_shutdown` is set, whatever the threads do, the loop takes six
steps and does one job at most, and is stuck only where it has left or raised. `terminate` goes on
only when the loop has left, and then returns without the help of others. If the loop has raised,
`terminate` waits for ever; it has raised while it handled a session event, or in the first
election. -/
theorem terminate_of_shutdown (s t : State) (ps : List Party) (hs : Reachable IsInitial Step s)
    (hshutdown : s.shutdown = true) (h : execute act ps s = some t) :
    ps.countP Party.isLoop ≤ 6 ∧ jobs ps s ≤ 1 ∧
      ((act .main t).isSome ∨ t.main = .done ∨ t.main.HasRaised) ∧
      (t.terminate.hasWaited = true → t.main = .done) ∧
      (t.main = .done → ∃ k ≤ 3, ∃ u, execute act (List.replicate k .terminate) t = some u ∧
        u.terminate = .returned) ∧
      (t.main = .raised → t.stateChanges = true) ∧
      (t.main.HasRaised → ∀ qs u, execute act qs t = some u → u.terminate.hasWaited = false) := by
  have hdown : ShutDown s := ⟨Ordered.of_reachable hs, hshutdown⟩
  obtain ⟨ht, hcount⟩ := rank_add_countP_le (fun s ↦ s.main.rank) (P := Party.isLoop)
    (fun _ _ _ hs h ↦ ⟨hs.step h, hs.rank_step h⟩) hdown h
  have hjobs := (rank_add_spent_le (fun s ↦ if s.main = .job then 1 else 0) jobCost
    (fun _ _ _ hs h ↦ ⟨ShutDown.step hs h, hs.jobs_step h⟩) hdown h).2
  have hrank : s.main.rank ≤ 6 := by
    cases s.main <;> decide
  have hone : (if s.main = .job then 1 else 0) ≤ 1 := by
    split <;> decide
  refine ⟨by omega, ?_, main_isSome t, ht.ordered.waited, ht.exists_returned, fun hraised ↦ ?_,
    fun hraised qs u ↦ ht.hasWaited_of_raised hraised⟩
  · exact ((Nat.le_add_left _ _).trans hjobs).trans hone
  · exact ht.ordered.raised (Or.inr hraised)

/-- `terminate` is called during a job. -/
def duringJob : List Party := List.replicate 4 .main ++ List.replicate 2 .terminate

/-- The process ends. -/
def endOfJob : List Party := List.replicate 6 .main ++ List.replicate 3 .terminate

theorem terminate_of_shutdown_duringJob :
    ∃ s t, Reachable IsInitial Step s ∧ execute act (endOfJob) s = some t ∧
      t.main = .done ∧ jobs (endOfJob) s ≤ 1 ∧
        ∃ k ≤ 3, ∃ u, execute act (List.replicate k .terminate) t = some u ∧
          u.terminate = .returned := by
  have hs : (execute act duringJob {}).any (fun s ↦ s.shutdown = true ∧
      (execute act (endOfJob) s).any (fun t ↦ t.main = .done) = true) = true := by
    decide +kernel
  obtain ⟨s, hrun, hshutdown, ht⟩ := exists_of_execute hs
  obtain ⟨t, hrun', hdone⟩ := exists_of_execute ht
  have hreach : Reachable IsInitial Step s := reachable_of_execute (.start rfl) hrun
  obtain ⟨-, hjobs, -, -, hreturns, -, -⟩ := terminate_of_shutdown s t _ hreach hshutdown hrun'
  exact ⟨s, t, hreach, hrun', hdone, hjobs, hreturns hdone⟩

end Daemon

end CppRepo
