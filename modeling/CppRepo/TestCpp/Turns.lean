import CppRepo.TestCpp.Thr

/-!
# Whose turn it is

The turn is nowhere in the state of the objects: it is with the thread that was woken, until that
thread notifies the next. `mayProcess` says which threads may still process, where a thread that was
woken by `stop` may not. A step that is neither a call of `process()` nor a notification lets nobody
in, and that is all the invariant has to know about it.

Without spurious wakeups at most one thread may process, and the calls of `process()` are in turn. A
notification is lost when the thread of the object is not asleep, and then nobody may process any
more: before the first `stop`, some thread has the turn exactly if no notification was lost.
-/

namespace CppRepo

namespace Thr

variable {n : ℕ} {s t : State n} {p : Party n} {i j : Obj n}

/-- Where a thread has been woken and has not notified the next. -/
def HasTurn : RunPc → Prop
  | .woken | .testStopped | .process | .notify => True
  | _ => False

/-- Where a thread goes on to `process()` or comes from there; `stopped` is that of its object. -/
def mayProcess : RunPc → Bool → Bool
  | .woken, stopped | .testStopped, stopped => !stopped
  | .process, _ | .notify, _ => true
  | _, _ => false

/-- The thread of the object may process. -/
def MayProcess (s : State n) (i : Obj n) : Prop := mayProcess (s.run i) (s.stopped i) = true

private theorem mayProcess_false_of {pc : RunPc} {b : Bool} (h : mayProcess pc b = true) :
    mayProcess pc false = true := by
  cases pc <;> first | rfl | exact absurd h Bool.false_ne_true

private theorem hasTurn_iff {pc : RunPc} : HasTurn pc ↔ mayProcess pc false = true := by
  cases pc <;> simp [HasTurn, mayProcess]

private theorem waiting_of {pc : RunPc} (happroaching : ¬ Approaching pc)
    (hmay : mayProcess pc false ≠ true)
    (hleft : ¬ (pc = .leave ∨ pc = .returned)) : pc = .waiting := by
  cases pc <;> simp_all [Approaching, mayProcess]

/-! ## What a step can do

Most steps keep the set of the threads that may process, or make it smaller. The others are the call
of `process()`, which leaves this set and adds to the calls, and the two kinds of notifications, by
a thread that had the turn and by `main`, which gives the first one. -/

/-- A step that moves one thread, neither into `process()` nor out of `notify`. -/
structure Moves (i : Obj n) (pc : RunPc) (s t : State n) : Prop where
  run : t.run = Function.update s.run i pc
  stopped : t.stopped = s.stopped
  stops : t.stops = s.stops
  calls : t.calls = s.calls
  lost : t.lost = s.lost
  atStop : t.atStop = s.atStop
  main : t.main = .done ↔ s.main = .done
  left : pc = .leave ∨ pc = .returned →
    s.stopped i = true ∨ s.run i = .leave ∨ s.run i = .returned
  keeps : mayProcess pc (s.stopped i) = true →
    mayProcess (s.run i) (s.stopped i) = true ∧ (pc = .notify ↔ s.run i = .notify)
  regains : s.main = .done → s.stopped i = false →
    mayProcess (s.run i) false = true → mayProcess pc false = true

/-- A step of a call of `stop`, which wakes only a thread whose object is stopped. -/
structure StopMoves (s t : State n) : Prop where
  run : ∀ i, t.run i = s.run i ∨ t.run i = .woken ∧ s.stopped i = true
  stopped : ∀ i, s.stopped i = true → t.stopped i = true
  notifying : ∀ i k, t.stops i k = .notify → s.stops i k = .notify ∨ t.stopped i = true
  calls : t.calls = s.calls
  lost : t.lost = s.lost
  main : t.main = s.main
  atStop : t.atStop ≠ none

/-- What a step does. -/
inductive Event (p : Party n) (s t : State n) : Prop
  | moves {i : Obj n} {pc : RunPc} (h : Moves i pc s t)
  | stops (h : StopMoves s t)
  | process {i : Obj n} (hi : s.run i = .process)
    (ht : t = { s with calls := s.calls ++ [i], run := Function.update s.run i .notify })
  | notify {i : Obj n} (hp : p = .thread i) (hi : s.run i = .notify)
    (ht : t = notify (i + 1) { s with run := Function.update s.run i .testIsstop })
  | first (hp : p = .main) (hm : s.main = .notify) (ht : t = { notify 0 s with main := .done })

/-- A thread leaves `run` and a call of `stop` notifies only after `stopped` is set, and before the
first call of `stop` nothing is set. -/
structure Basic (s : State n) : Prop where
  notifying : ∀ i k, s.stops i k = .notify → s.stopped i = true
  left : ∀ i, s.run i = .leave ∨ s.run i = .returned → s.stopped i = true
  calm : s.atStop = none → ∀ i, s.stopped i = false ∧ ∀ k, s.stops i k = .idle

private theorem run_notify (j : Obj n) (s : State n) (x : Obj n) :
    (notify j s).run x = if x = j ∧ s.run j = .waiting then .woken else s.run x := by
  simp only [notify, notifyAll]
  by_cases hwaiting : s.run j = .waiting
  · rw [if_pos hwaiting, Function.update_apply]
    simp only [hwaiting, and_true]
  · rw [if_neg hwaiting, if_neg fun h ↦ hwaiting h.2]

theorem mainStep_event (h : mainStep s = some t) : Event .main s t := by
  rcases hm : s.main with k | - | - <;> simp only [mainStep, hm] at h
  · by_cases hk : k < n + 2
    · rw [dif_pos hk] at h
      obtain rfl := Option.some_inj.mp h
      refine .moves ⟨rfl, rfl, rfl, rfl, rfl, rfl, ?_, by simp, by simp [mayProcess], by simp [hm]⟩
      rw [hm]
      split_ifs <;> simp
    · rw [dif_neg hk] at h
      exact absurd h (Option.some_ne_none t).symm
  · exact .first rfl hm (Option.some_inj.mp h).symm
  · exact absurd h (Option.some_ne_none t).symm

theorem runStep_event (h : runStep i s = some t) : Event (.thread i) s t := by
  rcases hi : s.run i with - | - | - | - | - | - | - | - | - | - | - <;>
    simp only [runStep, hi, Option.ite_none_right_eq_some, Option.some.injEq, reduceCtorEq] at h
  case lock | woken =>
    obtain ⟨-, rfl⟩ := h
    exact .moves ⟨rfl, rfl, rfl, rfl, rfl, rfl, Iff.rfl, by simp, by simp [hi, mayProcess],
      by simp [hi, mayProcess]⟩
  case testIsstop | testStopped =>
    subst h
    cases hstop : s.stopped i
    · exact .moves ⟨rfl, hstop ▸ rfl, rfl, rfl, rfl, rfl, Iff.rfl, by simp,
        by simp [hi, hstop, mayProcess], by simp [hi, mayProcess]⟩
    · exact .moves ⟨rfl, rfl, rfl, rfl, rfl, rfl, Iff.rfl, by simp [hstop],
        by simp [mayProcess], by simp [hstop]⟩
  case process => exact .process hi h.symm
  case notify => exact .notify rfl hi h.symm
  all_goals
    subst h
    exact .moves ⟨rfl, rfl, rfl, rfl, rfl, rfl, Iff.rfl, by simp [hi], by simp [mayProcess],
      by simp [hi, mayProcess]⟩

theorem wakeSpuriously_event (hstopped : s.stopped i = true)
    (h : wakeSpuriously i s = some t) : Event (.spurious i) s t := by
  rw [wakeSpuriously] at h
  obtain ⟨-, rfl⟩ := of_ite_some h
  exact .moves ⟨rfl, rfl, rfl, rfl, rfl, rfl, Iff.rfl, by simp, by simp [hstopped, mayProcess],
    by simp [hstopped]⟩

private theorem stops_of_update {stops : Obj n → ℕ → StopPc} {k l : ℕ} {pc : StopPc}
    (h : Function.update stops i (Function.update (stops i) k pc) j l = .notify) :
    stops j l = .notify ∨ i = j ∧ pc = .notify := by
  rcases eq_or_ne j i with rfl | hj
  · rw [Function.update_self] at h
    rcases eq_or_ne l k with rfl | hl
    · rw [Function.update_self] at h
      exact .inr ⟨rfl, h⟩
    · rw [Function.update_of_ne hl] at h
      exact .inl h
  · rw [Function.update_of_ne hj] at h
    exact .inl h

theorem stopStep_event {k : ℕ} (hbasic : Basic s) (h : stopStep i k s = some t) :
    Event (.stopper i k) s t := by
  -- A call that is under way has begun.
  have hbegun : s.stops i k ≠ .idle → s.atStop ≠ none := fun hi hnone ↦
    hi ((hbasic.calm hnone i).2 k)
  have hquiet : ∀ {pc : StopPc} {j : Obj n} {l : ℕ}, pc ≠ .notify →
      Function.update s.stops i (Function.update (s.stops i) k pc) j l = .notify →
        s.stops j l = .notify := fun hpc h ↦ (stops_of_update h).resolve_right fun hi ↦ hpc hi.2
  rcases hi : s.stops i k with - | - | - | - | - | - <;>
    simp only [stopStep, hi, Option.ite_none_right_eq_some, Option.some.injEq, reduceCtorEq] at h
  case idle =>
    subst h
    refine .stops ⟨fun _ ↦ .inl rfl, fun _ ↦ id, fun _ _ h ↦ .inl (hquiet (by decide) h), rfl, rfl,
      rfl, ?_⟩
    cases hs : s.atStop <;> simp
  case lock =>
    obtain ⟨-, rfl⟩ := h
    exact .stops ⟨fun _ ↦ .inl rfl, fun _ ↦ id, fun _ _ h ↦ .inl (hquiet (by decide) h), rfl, rfl,
      rfl, hbegun (by simp [hi])⟩
  case set =>
    subst h
    refine .stops ⟨fun _ ↦ .inl rfl, fun j hj ↦ ?_, fun j l h ↦ ?_, rfl, rfl, rfl,
      hbegun (by simp [hi])⟩
    · dsimp only
      rw [Function.update_apply]
      split_ifs
      · rfl
      · exact hj
    · refine (stops_of_update h).imp_right ?_
      rintro ⟨rfl, -⟩
      exact Function.update_self i true s.stopped
  case notify =>
    subst h
    refine .stops ⟨fun j ↦ ?_, fun _ ↦ id, fun _ _ h ↦ .inl (hquiet (by decide) h), rfl, rfl, rfl,
      hbegun (by simp [hi])⟩
    have hrun := run_notify i s j
    change (notifyAll i s).run j = _ at hrun
    rw [hrun]
    split_ifs with hwoken
    · obtain ⟨rfl, -⟩ := hwoken
      exact .inr ⟨rfl, hbasic.notifying j k hi⟩
    · exact .inl rfl
  case unlock =>
    subst h
    exact .stops ⟨fun _ ↦ .inl rfl, fun _ ↦ id, fun _ _ h ↦ .inl (hquiet (by decide) h), rfl, rfl,
      rfl, hbegun (by simp [hi])⟩

theorem act_event (hbasic : Basic s) (hguard : NoSpurious p s) (h : act p s = some t) :
    Event p s t := by
  cases p with
  | main => exact mainStep_event h
  | thread i => exact runStep_event h
  | spurious i => exact wakeSpuriously_event hguard h
  | stopper i k => exact stopStep_event hbasic h

/-! ## Calls of `stop`

Before the first call of `stop` nothing is stopped and no thread has left. A thread leaves, and a
call of `stop` notifies, only after `stopped` of the object is set. -/

private theorem basic_initial (h : IsInitial s) : Basic s := by
  subst h
  exact ⟨fun _ _ h ↦ absurd h (by simp), fun _ h ↦ absurd h (by simp), fun _ _ ↦ ⟨rfl, fun _ ↦ rfl⟩⟩

private theorem Basic.of_run (h : Basic s) (hstopped : t.stopped = s.stopped)
    (hstops : t.stops = s.stops) (hatStop : t.atStop = s.atStop)
    (hleft : ∀ i, t.run i = .leave ∨ t.run i = .returned →
      s.stopped i = true ∨ s.run i = .leave ∨ s.run i = .returned) : Basic t := by
  refine ⟨?_, fun i hi ↦ ?_, ?_⟩
  · rw [hstopped, hstops]
    exact h.notifying
  · rw [hstopped]
    exact (hleft i hi).elim id (h.left i)
  · rw [hstopped, hstops, hatStop]
    exact h.calm

private theorem left_of_notify {s : State n}
    (h : (notify j s).run i = .leave ∨ (notify j s).run i = .returned) :
    s.run i = .leave ∨ s.run i = .returned := by
  rw [run_notify] at h
  split_ifs at h
  · simp at h
  · exact h

private theorem left_of_update {pc : RunPc} (hpc : ¬ (pc = .leave ∨ pc = .returned))
    (h : Function.update s.run i pc j = .leave ∨ Function.update s.run i pc j = .returned) :
    s.run j = .leave ∨ s.run j = .returned := by
  rcases eq_or_ne j i with rfl | hne
  · rw [Function.update_self] at h
    exact absurd h hpc
  · rwa [Function.update_of_ne hne] at h

private theorem Event.basic (h : Event p s t) (hbasic : Basic s) : Basic t := by
  cases h with
  | @moves i pc h =>
    refine hbasic.of_run h.stopped h.stops h.atStop fun j hj ↦ ?_
    rw [h.run] at hj
    rcases eq_or_ne j i with rfl | hne
    · rw [Function.update_self] at hj
      exact h.left hj
    · rw [Function.update_of_ne hne] at hj
      exact .inr hj
  | stops h =>
    refine ⟨fun i k hi ↦ ?_, fun i hi ↦ ?_, fun hnone ↦ absurd hnone h.atStop⟩
    · exact (h.notifying i k hi).elim (fun hs ↦ h.stopped i (hbasic.notifying i k hs)) id
    · rcases h.run i with hrun | ⟨hrun, -⟩
      · rw [hrun] at hi
        exact h.stopped i (hbasic.left i hi)
      · simp [hrun] at hi
  | process hi ht =>
    subst ht
    exact hbasic.of_run rfl rfl rfl fun j hj ↦ .inr (left_of_update (by simp) hj)
  | notify hp hi ht =>
    subst ht
    exact hbasic.of_run rfl rfl rfl fun j hj ↦ .inr (left_of_update (by simp) (left_of_notify hj))
  | first hp hm ht =>
    subst ht
    exact hbasic.of_run rfl rfl rfl fun j hj ↦ .inr (left_of_notify hj)

/-! ## The turn

The calls so far determine whose turn it is. A thread that may process is the one of that object, or
it has just processed and is about to notify the object after it. -/

/-- The calls are in turn, and at most one thread may process, that of the object whose turn it is.
Before the first call of `stop` there is such a thread as long as no notification was lost. -/
structure Turn (s : State n) : Prop where
  inTurn : InTurn s.calls
  before : s.main ≠ .done → s.calls = [] ∧ s.lost = false ∧ ∀ i, ¬ MayProcess s i
  unique : ∀ i j, MayProcess s i → MayProcess s j → i = j
  coming : ∀ i, MayProcess s i → s.run i ≠ .notify → i = nextTurn s.calls
  passing : ∀ i, s.run i = .notify → i + 1 = nextTurn s.calls
  held : s.main = .done → s.atStop = none → s.lost = false → ∃ i, MayProcess s i
  nobody : s.atStop = none → s.lost = true → ∀ i, ¬ MayProcess s i

private theorem turn_initial (h : IsInitial s) : Turn s := by
  subst h
  have hnone : ∀ i : Obj n, ¬ MayProcess ({} : State n) i := fun _ ↦ Bool.false_ne_true
  exact ⟨.nil, fun _ ↦ ⟨rfl, rfl, hnone⟩, fun i _ hi ↦ absurd hi (hnone i),
    fun i hi ↦ absurd hi (hnone i), fun i hi ↦ absurd hi (by simp), fun h ↦ absurd h (by simp),
    fun _ _ ↦ hnone⟩

private theorem mayProcess_of_notify (hi : s.run i = .notify) : MayProcess s i := by
  rw [MayProcess, hi]
  rfl

private theorem Turn.main_done (h : Turn s) (hi : MayProcess s i) : s.main = .done := by
  by_contra hne
  exact (h.before hne).2.2 i hi

private theorem Turn.of_quiet (h : Turn s) (hcalls : t.calls = s.calls) (hlost : t.lost = s.lost)
    (hmain : t.main = .done ↔ s.main = .done) (hatStop : t.atStop = none → s.atStop = none)
    (hkeeps : ∀ i, MayProcess t i → MayProcess s i ∧ (t.run i = .notify ↔ s.run i = .notify))
    (hregains : s.main = .done → t.atStop = none → ∀ i, MayProcess s i → MayProcess t i) :
    Turn t := by
  refine ⟨?_, fun hne ↦ ?_, fun i j hi hj ↦ ?_, fun i hi hrun ↦ ?_, fun i hi ↦ ?_,
    fun hdone hnone hnot ↦ ?_, fun hnone hlost' i hi ↦ ?_⟩
  · rw [hcalls]
    exact h.inTurn
  · obtain ⟨hempty, hnot, hnobody⟩ := h.before fun hdone ↦ hne (hmain.mpr hdone)
    rw [hcalls, hlost]
    exact ⟨hempty, hnot, fun i hi ↦ hnobody i (hkeeps i hi).1⟩
  · exact h.unique i j (hkeeps i hi).1 (hkeeps j hj).1
  · obtain ⟨his, hnotify⟩ := hkeeps i hi
    rw [hcalls]
    exact h.coming i his fun hs ↦ hrun (hnotify.mpr hs)
  · rw [hcalls]
    exact h.passing i ((hkeeps i (mayProcess_of_notify hi)).2.mp hi)
  · obtain ⟨i, hi⟩ := h.held (hmain.mp hdone) (hatStop hnone) (hlost ▸ hnot)
    exact ⟨i, hregains (hmain.mp hdone) hnone i hi⟩
  · exact h.nobody (hatStop hnone) (hlost ▸ hlost') i (hkeeps i hi).1

theorem Moves.turn {pc : RunPc} (h : Moves i pc s t) (hbasic : Basic s) (hturn : Turn s) :
    Turn t := by
  refine hturn.of_quiet h.calls h.lost h.main (fun hnone ↦ h.atStop ▸ hnone) (fun j hj ↦ ?_)
    fun hdone hnone j hj ↦ ?_
  · rw [MayProcess, h.run, h.stopped] at hj
    rw [h.run]
    rcases eq_or_ne j i with rfl | hne
    · rw [Function.update_self] at hj ⊢
      exact h.keeps hj
    · rw [Function.update_of_ne hne] at hj ⊢
      exact ⟨hj, Iff.rfl⟩
  · have hstopped := (hbasic.calm (h.atStop ▸ hnone) j).1
    rw [MayProcess, hstopped] at hj
    rw [MayProcess, h.run, h.stopped, hstopped]
    rcases eq_or_ne j i with rfl | hne
    · rw [Function.update_self]
      exact h.regains hdone hstopped hj
    · rwa [Function.update_of_ne hne]

theorem StopMoves.turn (h : StopMoves s t) (hturn : Turn s) : Turn t := by
  refine hturn.of_quiet h.calls h.lost (by rw [h.main]) (fun hnone ↦ absurd hnone h.atStop)
    (fun i hi ↦ ?_) fun _ hnone ↦ absurd hnone h.atStop
  rw [MayProcess] at hi
  rcases h.run i with hrun | ⟨hrun, hstopped⟩
  · rw [hrun] at hi ⊢
    refine ⟨?_, Iff.rfl⟩
    rw [MayProcess]
    cases hs : s.stopped i
    · exact mayProcess_false_of hi
    · rwa [h.stopped i hs] at hi
  · -- What `stop` woke finds `stopped` set.
    rw [hrun, h.stopped i hstopped] at hi
    exact absurd hi Bool.false_ne_true

theorem Turn.process (h : Turn s) (hi : s.run i = .process) :
    Turn { s with calls := s.calls ++ [i], run := Function.update s.run i .notify } := by
  have hmay : MayProcess s i := by
    rw [MayProcess, hi]
    rfl
  have hplace := h.coming i hmay (by rw [hi]; decide)
  have hall : ∀ j, MayProcess { s with
      calls := s.calls ++ [i], run := Function.update s.run i .notify } j → j = i := by
    intro j hj
    by_contra hne
    rw [MayProcess] at hj
    dsimp only at hj
    rw [Function.update_of_ne hne] at hj
    exact hne (h.unique j i hj hmay)
  have hrun : Function.update s.run i .notify i = .notify := Function.update_self i _ s.run
  refine ⟨?_, fun hne ↦ absurd (h.main_done hmay) hne, fun j k hj hk ↦ ?_, fun j hj hne ↦ ?_,
    fun j hj ↦ ?_, fun _ _ _ ↦ ⟨i, mayProcess_of_notify hrun⟩,
    fun hnone hlost ↦ absurd hmay (h.nobody hnone hlost i)⟩
  · dsimp only
    rw [hplace]
    exact h.inTurn.concat
  · rw [hall j hj, hall k hk]
  · obtain rfl := hall j hj
    exact absurd hrun hne
  · obtain rfl := hall j (mayProcess_of_notify hj)
    dsimp only
    rw [nextTurn_concat, ← hplace]

private theorem turn_notify (hin : InTurn s.calls) (hnobody : ∀ i, ¬ MayProcess s i)
    (hj : j = nextTurn s.calls) (hlost : s.atStop = none → s.lost = false)
    (hcalm : s.atStop = none → s.stopped j = false) :
    Turn { notify j s with main := .done } := by
  have hall : ∀ i, MayProcess { notify j s with main := .done } i →
      i = j ∧ s.run j = .waiting := by
    intro i hi
    rw [MayProcess] at hi
    dsimp only at hi
    rw [run_notify] at hi
    split_ifs at hi with hwoken
    · exact hwoken
    · exact absurd hi (hnobody i)
  refine ⟨hin, fun hne ↦ absurd rfl hne, fun i k hi hk ↦ ?_, fun i hi _ ↦ ?_, fun i hi ↦ ?_,
    fun _ hnone hnot ↦ ?_, fun hnone hlost' i hi ↦ ?_⟩
  · rw [(hall i hi).1, (hall k hk).1]
  · rw [(hall i hi).1]
    exact hj
  · obtain ⟨rfl, hwaiting⟩ := hall i (mayProcess_of_notify hi)
    dsimp only at hi
    rw [run_notify, if_pos ⟨rfl, hwaiting⟩] at hi
    exact absurd hi (by decide)
  · refine ⟨j, ?_⟩
    have hwaiting : s.run j = .waiting := by
      simpa [notify, hlost hnone] using hnot
    have hstopped : (notify j s).stopped j = false := hcalm hnone
    rw [MayProcess]
    dsimp only
    rw [run_notify, if_pos ⟨rfl, hwaiting⟩, hstopped]
    rfl
  · obtain ⟨-, hwaiting⟩ := hall i hi
    have hnot : (notify j s).lost = false := by
      simp [notify, hwaiting, hlost hnone]
    exact absurd hlost' (by rw [hnot]; exact Bool.false_ne_true)

theorem Event.turn (h : Event p s t) (hbasic : Basic s) (hturn : Turn s) : Turn t := by
  cases h with
  | moves h => exact h.turn hbasic hturn
  | stops h => exact h.turn hturn
  | process hi ht =>
    subst ht
    exact hturn.process hi
  | @notify i hp hi ht =>
    subst ht
    have hmay := mayProcess_of_notify hi
    have hdone := hturn.main_done hmay
    have heq : Thr.notify (i + 1) { s with run := Function.update s.run i .testIsstop }
        = { Thr.notify (i + 1) { s with run := Function.update s.run i .testIsstop } with
            main := .done } := by
      rw [← hdone]
      rfl
    rw [heq]
    apply turn_notify
    · exact hturn.inTurn
    · intro j hj
      rw [MayProcess] at hj
      dsimp only at hj
      rcases eq_or_ne j i with rfl | hne
      · rw [Function.update_self] at hj
        exact Bool.false_ne_true hj
      · rw [Function.update_of_ne hne] at hj
        exact hne (hturn.unique j i hj hmay)
    · exact hturn.passing i hi
    · intro hnone
      by_contra hlost
      exact hturn.nobody hnone (Bool.eq_true_of_not_eq_false hlost) i hmay
    · exact fun hnone ↦ (hbasic.calm hnone (i + 1)).1
  | first hp hm ht =>
    subst ht
    obtain ⟨hempty, hlost, hnobody⟩ := hturn.before (by rw [hm]; decide)
    apply turn_notify
    · exact hturn.inTurn
    · exact hnobody
    · rw [hempty]
      rfl
    · exact fun _ ↦ hlost
    · exact fun hnone ↦ (hbasic.calm hnone 0).1

private theorem turn_of_reachable (hs : Reachable IsInitial (Acts (guarded NoSpurious act)) s) :
    Basic s ∧ Turn s := by
  refine hs.invariant (I := fun s ↦ Basic s ∧ Turn s)
    (fun s hs ↦ ⟨basic_initial hs, turn_initial hs⟩) ?_
  rintro s t - ⟨hbasic, hturn⟩ ⟨p, hp⟩
  obtain ⟨hguard, hact⟩ := guarded_eq_some.mp hp
  have hevent := act_event hbasic hguard hact
  exact ⟨hevent.basic hbasic, hevent.turn hbasic hturn⟩

/-! ## Calls in turn

What was called up to the first `stop` is a beginning of all calls, and the beginning of a list in
turn is in turn. -/

/-- **In turn.** In every run without spurious wakeups of objects that are not stopped, the calls of
`process()` up to the first call of `stop` are in turn, and no two in succession are by the same
object. -/
theorem callsToStop_inTurn (n : ℕ) (s : State n)
    (hs : Reachable IsInitial (Acts (guarded NoSpurious act)) s) :
    InTurn (callsToStop s) ∧ (callsToStop s).IsChain (· ≠ ·) := by
  have hcalls := (turn_of_reachable hs).2.inTurn
  have hin : InTurn (callsToStop s) := by
    rw [callsToStop]
    split
    · exact hcalls
    · exact hcalls.take _
  exact ⟨hin, hin.isChain_ne (by omega)⟩

/-- `main` and the three threads, until each of the threads sleeps. -/
def started : List (Party 1) :=
  List.flatten [List.replicate 3 .main, List.replicate 3 (.thread 0), List.replicate 3 (.thread 1),
    List.replicate 3 (.thread 2)]

/-- The three threads take their turns and the first has the turn again. -/
def oneRound : List (Party 1) :=
  List.flatten [started, [.main], List.replicate 6 (.thread 0), List.replicate 6 (.thread 1),
    List.replicate 6 (.thread 2), List.replicate 3 (.thread 0)]

theorem callsToStop_inTurn_oneRound :
    ∃ s : State 1, Reachable IsInitial (Acts (guarded NoSpurious act)) s ∧
      s.calls = [0, 1, 2, 0] ∧ InTurn (callsToStop s) := by
  have hs : (execute (guarded NoSpurious act) oneRound {}).any
      (fun s ↦ s.calls = [0, 1, 2, 0]) = true := by decide +kernel
  obtain ⟨s, hrun, hcalls⟩ := exists_of_execute hs
  have hreach : Reachable IsInitial (Acts (guarded NoSpurious act)) s :=
    reachable_of_execute (.start rfl) hrun
  exact ⟨s, hreach, hcalls, (callsToStop_inTurn 1 s hreach).1⟩

/-- The thread of the second object wakes spuriously. -/
def wokenSpuriously : List (Party 1) :=
  List.flatten [started, [.main, .spurious 1], List.replicate 3 (.thread 1)]

theorem spurious_out_of_turn :
    ¬ ∀ (n : ℕ) (s : State n), Reachable IsInitial (Acts act) s →
      InTurn (callsToStop s) ∧ (callsToStop s).IsChain (· ≠ ·) := by
  intro hall
  have hs : (execute act wokenSpuriously {}).any (fun s ↦ callsToStop s = [1]) = true := by
    decide +kernel
  obtain ⟨s, hrun, hcalls⟩ := exists_of_execute hs
  obtain ⟨hin, -⟩ := hall 1 s (reachable_of_execute (.start rfl) hrun)
  rw [hcalls] at hin
  exact absurd hin (by decide)

/-! ## The turn is kept

A thread that may not process, and is not on its way to the wait, sleeps, as long as nothing is
stopped; so a timely notification wakes it. -/

private theorem waiting_of_not_mayProcess (hbasic : Basic s) (hnone : s.atStop = none)
    (hnot : ¬ MayProcess s j) (happroaching : ¬ Approaching (s.run j)) : s.run j = .waiting := by
  have hstopped := (hbasic.calm hnone j).1
  rw [MayProcess, hstopped] at hnot
  refine waiting_of happroaching hnot fun hleft ↦ ?_
  rw [hbasic.left j hleft] at hstopped
  exact Bool.false_ne_true hstopped.symm

/-- A notification that does not come while the thread is on its way to `cond.wait` is not lost. -/
theorem Event.kept (h : Event p s t) (hbasic : Basic s) (hturn : Turn s)
    (htimely : ∀ j ∈ target p s, ¬ Approaching (s.run j))
    (hkept : s.atStop = none → s.lost = false) : t.atStop = none → t.lost = false := by
  cases h with
  | moves h =>
    rw [h.atStop, h.lost]
    exact hkept
  | stops h => exact fun hnone ↦ absurd hnone h.atStop
  | process hi ht =>
    subst ht
    exact hkept
  | @notify i hp hi ht =>
    subst hp ht
    intro hnone
    have hne : i + 1 ≠ i := fun heq ↦ one_ne_zero (add_eq_left.mp heq)
    have hwaiting : s.run (i + 1) = .waiting := by
      apply waiting_of_not_mayProcess hbasic hnone
      · exact fun hj ↦ hne (hturn.unique (i + 1) i hj (mayProcess_of_notify hi))
      · exact htimely (i + 1) (by rw [target, if_pos hi]; rfl)
    simp [Thr.notify, hwaiting, hkept hnone]
  | first hp hm ht =>
    subst hp ht
    intro hnone
    have hwaiting : s.run 0 = .waiting := by
      apply waiting_of_not_mayProcess hbasic hnone
      · exact (hturn.before (by rw [hm]; decide)).2.2 0
      · exact htimely 0 (by rw [target, if_pos hm]; rfl)
    simp [Thr.notify, hwaiting, hkept hnone]

private theorem noSpurious_of_timely (hs : Reachable IsInitial (Acts (guarded Timely act)) s) :
    Reachable IsInitial (Acts (guarded NoSpurious act)) s := by
  refine hs.mono ?_
  rintro s t ⟨p, hp⟩
  obtain ⟨hguard, hact⟩ := guarded_eq_some.mp hp
  exact ⟨p, guarded_eq_some.mpr ⟨hguard.1, hact⟩⟩

/-- Before the first call of `stop` some thread has the turn exactly if no notification was lost. -/
theorem hasTurn_iff_not_lost (hs : Reachable IsInitial (Acts (guarded NoSpurious act)) s)
    (hdone : s.main = .done) (hnone : s.atStop = none) :
    (∃ i, HasTurn (s.run i)) ↔ s.lost = false := by
  obtain ⟨hbasic, hturn⟩ := turn_of_reachable hs
  have hiff : ∀ i, HasTurn (s.run i) ↔ MayProcess s i := by
    intro i
    rw [hasTurn_iff, MayProcess, (hbasic.calm hnone i).1]
  constructor
  · rintro ⟨i, hi⟩
    by_contra hlost
    exact hturn.nobody hnone (Bool.eq_true_of_not_eq_false hlost) i ((hiff i).mp hi)
  · intro hlost
    obtain ⟨i, hi⟩ := hturn.held hdone hnone hlost
    exact ⟨i, (hiff i).mpr hi⟩

/-- **The turn is kept.** In every run without spurious wakeups in which no object is notified while
its thread is on its way to `cond.wait`, after the initial notification and before the first call of
`stop` some thread has been woken and has not notified the next, and no notification was lost. -/
theorem turn_kept (n : ℕ) (s : State n)
    (hs : Reachable IsInitial (Acts (guarded Timely act)) s) (hdone : s.main = .done)
    (hnone : s.atStop = none) : (∃ i, HasTurn (s.run i)) ∧ s.lost = false := by
  have hkept : s.atStop = none → s.lost = false := by
    have hall : (Basic s ∧ Turn s) ∧ (s.atStop = none → s.lost = false) := by
      refine hs.invariant (I := fun s ↦ (Basic s ∧ Turn s) ∧ (s.atStop = none → s.lost = false))
        (fun s hs ↦ ⟨⟨basic_initial hs, turn_initial hs⟩, ?_⟩) ?_
      · subst hs
        exact fun _ ↦ rfl
      · rintro s t - ⟨⟨hbasic, hturn⟩, hkept⟩ ⟨p, hp⟩
        obtain ⟨hguard, hact⟩ := guarded_eq_some.mp hp
        have hevent := act_event hbasic hguard.1 hact
        exact ⟨⟨hevent.basic hbasic, hevent.turn hbasic hturn⟩,
          hevent.kept hbasic hturn hguard.2 hkept⟩
    exact hall.2
  exact ⟨(hasTurn_iff_not_lost (noSpurious_of_timely hs) hdone hnone).mpr (hkept hnone),
    hkept hnone⟩

theorem turn_kept_oneRound :
    ∃ s : State 1, Reachable IsInitial (Acts (guarded Timely act)) s ∧
      (∃ i, HasTurn (s.run i)) ∧ s.lost = false := by
  have hs : (execute (guarded Timely act) oneRound {}).any
      (fun s ↦ s.main = .done ∧ s.atStop = none) = true := by decide +kernel
  obtain ⟨s, hrun, hdone, hnone⟩ := exists_of_execute hs
  have hreach : Reachable IsInitial (Acts (guarded Timely act)) s :=
    reachable_of_execute (.start rfl) hrun
  exact ⟨s, hreach, turn_kept 1 s hreach hdone hnone⟩

/-- `main` notifies the first object before its thread has taken a step. -/
theorem initial_notify_lost :
    ¬ ∀ (n : ℕ) (s : State n), Reachable IsInitial (Acts (guarded NoSpurious act)) s →
      s.main = .done → s.atStop = none → ∃ i, HasTurn (s.run i) := by
  intro hall
  have hs : (execute (guarded NoSpurious act) (List.replicate 4 (.main : Party 1)) {}).any
      (fun s ↦ s.main = .done ∧ s.atStop = none ∧ ∀ i, s.run i = .lock) = true := by
    decide +kernel
  obtain ⟨s, hrun, hdone, hnone, hlock⟩ := exists_of_execute hs
  obtain ⟨i, hi⟩ := hall 1 s (reachable_of_execute (.start rfl) hrun) hdone hnone
  rw [hlock i] at hi
  exact hi

end Thr

end CppRepo
