import CppRepo.TestCpp.Thr
import CppRepo.Library.Ranking

/-!
# A call of `stop` is not lost

A notification is lost when the thread is not asleep, but `stop` is not. It sets `stopped` and
notifies under the mutex, and the thread looks at `stopped` under the mutex, which it gives back
only by going to sleep. So when `stop` returns the thread is awake and will find `stopped` set: it
takes three more steps at most, calls `process()` no more, and waits for nothing but the mutex,
which other calls of `stop` may hold for a while. This holds for all schedules, also with spurious
wakeups.

All that matters for the thread of an object is the object itself: `Effect` says what a step can do
to one object.
-/

namespace CppRepo

namespace Thr

variable {n : ℕ} {s t : State n} {p : Party n} {i j : Obj n} {k : ℕ}

/-! ## What a step does to an object

`Runs` and `CallsStop` are the programs of the thread and of a call, seen from one object: the
holder of the mutex and the place, before and after. Of the other parties it matters only whether
they create the thread or wake it. -/

/-- A step of the thread: the owner of the mutex and the place of the thread, before and after. -/
inductive Runs (stopped : Bool) : Option Holder → RunPc → Option Holder → RunPc → Prop
  | lock : Runs stopped none .lock (some .thread) .testIsstop
  | testIsstop (o : Option Holder) :
      Runs stopped o .testIsstop o (if stopped then .leave else .wait)
  | wait (o : Option Holder) : Runs stopped o .wait none .waiting
  | woken : Runs stopped none .woken (some .thread) .testStopped
  | testStopped (o : Option Holder) :
      Runs stopped o .testStopped o (if stopped then .leave else .process)
  | process (o : Option Holder) : Runs stopped o .process o .notify
  | notify (o : Option Holder) : Runs stopped o .notify o .testIsstop
  | leave (o : Option Holder) : Runs stopped o .leave none .returned

/-- A step of the `k`-th call of `stop`. -/
inductive CallsStop (k : ℕ) : Option Holder → StopPc → Option Holder → StopPc → Prop
  | idle (o : Option Holder) : CallsStop k o .idle o .lock
  | lock : CallsStop k none .lock (some (.stopper k)) .set
  | set (o : Option Holder) : CallsStop k o .set o .notify
  | notify (o : Option Holder) : CallsStop k o .notify o .unlock
  | unlock (o : Option Holder) : CallsStop k o .unlock none .returned

private theorem CallsStop.ne_returned {o o' : Option Holder} {pc pc' : StopPc}
    (h : CallsStop k o pc o' pc') : pc ≠ .returned := by
  cases h <;> decide

private theorem Runs.ne_notCreated {b : Bool} {o o' : Option Holder} {pc pc' : RunPc}
    (h : Runs b o pc o' pc') : pc ≠ .notCreated := by
  cases h <;> decide

/-- Where a thread is after it was woken. -/
def RunPc.wake (pc : RunPc) : RunPc := if pc = .waiting then .woken else pc

/-- What a step of `p` does to the object `i`. -/
inductive Effect (i : Obj n) (p : Party n) (s t : State n) : Prop
  /-- Somebody else does something, and may wake the thread. -/
  | other (hp : p ≠ .thread i) (howner : t.owner i = s.owner i)
      (hstopped : t.stopped i = s.stopped i) (hstops : t.stops i = s.stops i)
      (hmain : ∀ m, t.main = .create m → m ≤ i → ∃ m' ≤ i.val, s.main = .create m')
      (hrun : t.run i = s.run i ∨ t.run i = (s.run i).wake)
  | create (hp : p ≠ .thread i) (howner : t.owner i = s.owner i)
      (hstopped : t.stopped i = s.stopped i) (hstops : t.stops i = s.stops i)
      (hmain : s.main = .create i) (hmain' : ∀ m, t.main = .create m → i < m)
      (hrun : t.run i = .lock)
  | runs (hp : p = .thread i) (hstopped : t.stopped i = s.stopped i)
      (hstops : t.stops i = s.stops i) (hmain : t.main = s.main)
      (hrun : Runs (s.stopped i) (s.owner i) (s.run i) (t.owner i) (t.run i))
  | calls (hp : p ≠ .thread i) (k : ℕ) (pc : StopPc) (hmain : t.main = s.main)
      (hcalls : CallsStop k (s.owner i) (s.stops i k) (t.owner i) pc)
      (hstops : t.stops i = Function.update (s.stops i) k pc)
      (hstopped : t.stopped i = (s.stopped i || decide (pc = .notify)))
      (hrun : t.run i = if pc = .unlock then (s.run i).wake else s.run i)

private theorem run_notifyAll (j : Obj n) (s : State n) (x : Obj n) :
    (notifyAll j s).run x = if x = j then (s.run x).wake else s.run x := by
  simp only [notifyAll, RunPc.wake]
  by_cases hx : x = j
  · subst hx
    by_cases hwaiting : s.run x = .waiting
    · rw [if_pos hwaiting, if_pos rfl, if_pos hwaiting, Function.update_self]
    · rw [if_neg hwaiting, if_pos rfl, if_neg hwaiting]
  · by_cases hwaiting : s.run j = .waiting
    · rw [if_pos hwaiting, if_neg hx, Function.update_of_ne hx]
    · rw [if_neg hwaiting, if_neg hx]

private theorem run_notify_cases (j : Obj n) (s : State n) (x : Obj n) :
    (notify j s).run x = s.run x ∨ (notify j s).run x = (s.run x).wake := by
  have hrun : (notify j s).run x = _ := run_notifyAll j s x
  rw [hrun]
  split
  · exact Or.inr rfl
  · exact Or.inl rfl

theorem mainStep_effect (i : Obj n) (h : mainStep s = some t) : Effect i .main s t := by
  rcases hm : s.main with m | - | - <;> simp only [mainStep, hm] at h
  · by_cases hk : m < n + 2
    · rw [dif_pos hk] at h
      obtain rfl := Option.some_inj.mp h
      have hnext : ∀ m', (if m + 1 < n + 2 then MainPc.create (m + 1) else .notify) = .create m' →
          m' = m + 1 := by
        intro m' hm'
        split at hm'
        · exact (MainPc.create.inj hm').symm
        · exact absurd hm' (by simp)
      by_cases hi : i = ⟨m, hk⟩
      · refine .create (by simp) rfl rfl rfl (hi ▸ hm) (fun m' hm' ↦ ?_) ?_
        · rw [hnext m' hm', hi]
          exact Nat.lt_succ_self m
        · simp only [hi, Function.update_self]
      · refine .other (by simp) rfl rfl rfl (fun m' hm' hle ↦ ⟨m, ?_, hm⟩) (.inl ?_)
        · rw [hnext m' hm'] at hle
          exact Nat.le_of_succ_le hle
        · exact Function.update_of_ne hi ..
    · rw [dif_neg hk] at h
      exact absurd h (Option.some_ne_none t).symm
  · obtain rfl := Option.some_inj.mp h
    exact .other (by simp) rfl rfl rfl (fun m hm' ↦ absurd hm' (by simp)) (run_notify_cases 0 s i)
  · exact absurd h (Option.some_ne_none t).symm

private theorem effect_of_ne (hij : i ≠ j) (howner : t.owner i = s.owner i)
    (hstopped : t.stopped = s.stopped) (hstops : t.stops = s.stops) (hmain : t.main = s.main)
    (hrun : t.run i = s.run i ∨ t.run i = (s.run i).wake) : Effect i (.thread j) s t := by
  refine .other (fun h ↦ hij (Party.thread.inj h).symm) howner (congrFun hstopped i)
    (congrFun hstops i) (fun m hm hle ↦ ⟨m, hle, hmain ▸ hm⟩) hrun

private theorem runStep_effect_self (h : runStep i s = some t) : Effect i (.thread i) s t := by
  rcases hi : s.run i with - | - | - | - | - | - | - | - | - | - | - <;>
    simp only [runStep, hi, Option.ite_none_right_eq_some, Option.some.injEq, reduceCtorEq] at h
  case lock =>
    obtain ⟨howner, rfl⟩ := h
    refine .runs rfl rfl rfl rfl ?_
    simp only [hi, howner, Function.update_self]
    exact .lock
  case testIsstop =>
    subst h
    refine .runs rfl rfl rfl rfl ?_
    simp only [hi, Function.update_self]
    exact .testIsstop _
  case wait =>
    subst h
    refine .runs rfl rfl rfl rfl ?_
    simp only [hi, Function.update_self]
    exact .wait _
  case woken =>
    obtain ⟨howner, rfl⟩ := h
    refine .runs rfl rfl rfl rfl ?_
    simp only [hi, howner, Function.update_self]
    exact .woken
  case testStopped =>
    subst h
    refine .runs rfl rfl rfl rfl ?_
    simp only [hi, Function.update_self]
    exact .testStopped _
  case process =>
    subst h
    refine .runs rfl rfl rfl rfl ?_
    simp only [hi, Function.update_self]
    exact .process _
  case notify =>
    subst h
    refine .runs rfl rfl rfl rfl ?_
    -- The thread that notifies is not asleep.
    have hrun := run_notify_cases (i + 1) { s with run := Function.update s.run i .testIsstop } i
    simp only [Function.update_self, RunPc.wake, reduceCtorEq, if_false, or_self] at hrun
    rw [hi, hrun]
    exact .notify _
  case leave =>
    subst h
    refine .runs rfl rfl rfl rfl ?_
    simp only [hi, Function.update_self]
    exact .leave _

theorem runStep_effect (hij : i ≠ j) (h : runStep j s = some t) :
    Effect i (.thread j) s t := by
  have hsame (pc : RunPc) : Function.update s.run j pc i = s.run i := Function.update_of_ne hij ..
  have howner (o : Option Holder) : Function.update s.owner j o i = s.owner i :=
    Function.update_of_ne hij ..
  rcases hj : s.run j with - | - | - | - | - | - | - | - | - | - | - <;>
    simp only [runStep, hj, Option.ite_none_right_eq_some, Option.some.injEq, reduceCtorEq] at h
  case lock | woken =>
    obtain ⟨-, rfl⟩ := h
    exact effect_of_ne hij (howner _) rfl rfl rfl (.inl (hsame _))
  case wait | leave =>
    subst h
    exact effect_of_ne hij (howner _) rfl rfl rfl (.inl (hsame _))
  case testIsstop | testStopped | process =>
    subst h
    exact effect_of_ne hij rfl rfl rfl rfl (.inl (hsame _))
  case notify =>
    subst h
    have hrun := run_notify_cases (j + 1) { s with run := Function.update s.run j .testIsstop } i
    simp only [hsame] at hrun
    exact effect_of_ne hij rfl rfl rfl rfl hrun

theorem wakeSpuriously_effect (i : Obj n) (h : wakeSpuriously j s = some t) :
    Effect i (.spurious j) s t := by
  rw [wakeSpuriously] at h
  obtain ⟨hwaiting, rfl⟩ := of_ite_some h
  refine .other (by simp) rfl rfl rfl (fun m hm hle ↦ ⟨m, hle, hm⟩) ?_
  by_cases hij : i = j
  · subst hij
    refine .inr ?_
    simp only [Function.update_self, RunPc.wake, if_pos hwaiting]
  · exact .inl (Function.update_of_ne hij ..)

theorem stopStep_effect (i : Obj n) (h : stopStep j k s = some t) :
    Effect i (.stopper j k) s t := by
  by_cases hij : i = j
  · subst hij
    rcases hk : s.stops i k with - | - | - | - | - | - <;>
      simp only [stopStep, hk, Option.ite_none_right_eq_some, Option.some.injEq, reduceCtorEq] at h
    case idle =>
      subst h
      refine .calls (by simp) k .lock rfl ?_ ?_ ?_ rfl
      · rw [hk]
        exact .idle _
      · exact Function.update_self ..
      · simp
    case lock =>
      obtain ⟨howner, rfl⟩ := h
      refine .calls (by simp) k .set rfl ?_ ?_ ?_ rfl
      · simp only [hk, howner, Function.update_self]
        exact .lock
      · exact Function.update_self ..
      · simp
    case set =>
      subst h
      refine .calls (by simp) k .notify rfl ?_ ?_ ?_ rfl
      · rw [hk]
        exact .set _
      · exact Function.update_self ..
      · simp
    case notify =>
      subst h
      refine .calls (by simp) k .unlock rfl ?_ ?_ ?_ ?_
      · rw [hk]
        exact .notify _
      · exact Function.update_self ..
      · simp [notifyAll]
      · exact (run_notifyAll i s i).trans (if_pos rfl)
    case unlock =>
      subst h
      refine .calls (by simp) k .returned rfl ?_ ?_ ?_ rfl
      · simp only [hk, Function.update_self]
        exact .unlock _
      · exact Function.update_self ..
      · simp
  · have hstops (calls : ℕ → StopPc) : Function.update s.stops j calls i = s.stops i :=
      Function.update_of_ne hij ..
    have howner (o : Option Holder) : Function.update s.owner j o i = s.owner i :=
      Function.update_of_ne hij ..
    rcases hk : s.stops j k with - | - | - | - | - | - <;>
      simp only [stopStep, hk, Option.ite_none_right_eq_some, Option.some.injEq, reduceCtorEq] at h
    case idle =>
      subst h
      exact .other (by simp) rfl rfl (hstops _) (fun m hm hle ↦ ⟨m, hle, hm⟩) (.inl rfl)
    case lock =>
      obtain ⟨-, rfl⟩ := h
      exact .other (by simp) (howner _) rfl (hstops _) (fun m hm hle ↦ ⟨m, hle, hm⟩) (.inl rfl)
    case set =>
      subst h
      exact .other (by simp) rfl (Function.update_of_ne hij ..) (hstops _)
        (fun m hm hle ↦ ⟨m, hle, hm⟩) (.inl rfl)
    case notify =>
      subst h
      exact .other (by simp) rfl rfl (hstops _) (fun m hm hle ↦ ⟨m, hle, hm⟩)
        (.inl ((run_notifyAll j s i).trans (if_neg hij)))
    case unlock =>
      subst h
      exact .other (by simp) (howner _) rfl (hstops _) (fun m hm hle ↦ ⟨m, hle, hm⟩) (.inl rfl)

theorem act_effect (i : Obj n) (h : act p s = some t) : Effect i p s t := by
  cases p with
  | main => exact mainStep_effect i h
  | thread j =>
    by_cases hij : i = j
    · subst hij
      exact runStep_effect_self h
    · exact runStep_effect hij h
  | spurious j => exact wakeSpuriously_effect i h
  | stopper j k => exact stopStep_effect i h

/-! ## The mutex and `stopped`

The thread is asleep only at one place, and comes there with `stopped` not set. A call of `stop` has
set it and notifies before it gives the mutex back; from then on the thread does not get to this
place any more. -/

/-- A thread holds the mutex of its object. -/
def RunPc.holds : RunPc → Bool
  | .testIsstop | .wait | .testStopped | .process | .notify | .leave => true
  | _ => false

/-- A call of `stop` holds the mutex of its object. -/
def StopPc.holds : StopPc → Bool
  | .set | .notify | .unlock => true
  | _ => false

/-- A thread has found `stopped` not set, and still holds the mutex. -/
def RunPc.goesOn : RunPc → Bool
  | .wait | .process | .notify => true
  | _ => false

/-- A call of `stop` has set `stopped`. -/
def StopPc.hasSet : StopPc → Bool
  | .notify | .unlock | .returned => true
  | _ => false

/-- A call of `stop` has notified. -/
def StopPc.hasNotified : StopPc → Bool
  | .unlock | .returned => true
  | _ => false

/-- Who holds the mutex is where it has to be. The thread does not go on once `stopped` is set, and
is not asleep once a call of `stop` has notified. -/
structure Heeds (i : Obj n) (s : State n) : Prop where
  main : ∀ m, s.main = .create m → m ≤ i.val → s.run i = .notCreated
  thread : (s.run i).holds = true ↔ s.owner i = some .thread
  stopper : ∀ k, (s.stops i k).holds = true ↔ s.owner i = some (.stopper k)
  goesOn : (s.run i).goesOn = true → s.stopped i = false
  set : ∀ k, (s.stops i k).hasSet = true → s.stopped i = true
  awake : ∀ k, (s.stops i k).hasNotified = true → s.run i ≠ .waiting

private theorem holds_wake (pc : RunPc) : pc.wake.holds = pc.holds := by
  cases pc <;> rfl

private theorem goesOn_wake (pc : RunPc) : pc.wake.goesOn = pc.goesOn := by
  cases pc <;> rfl

private theorem wake_ne_waiting (pc : RunPc) : pc.wake ≠ .waiting := by
  cases pc <;> decide

private theorem holds_of_goesOn {pc : RunPc} (h : pc.goesOn = true) : pc.holds = true := by
  cases pc <;> first | rfl | exact absurd h Bool.false_ne_true

private theorem heeds_initial (h : IsInitial s) (i : Obj n) : Heeds i s := by
  subst h
  exact ⟨fun _ _ _ ↦ rfl, by simp [RunPc.holds], by simp [StopPc.holds], by simp [RunPc.goesOn],
    by simp [StopPc.hasSet], by simp [StopPc.hasNotified]⟩

/-- The thread is where it was, or was woken. -/
structure SamePlace (i : Obj n) (s t : State n) : Prop where
  holds : (t.run i).holds = (s.run i).holds
  goesOn : (t.run i).goesOn = (s.run i).goesOn
  awake : s.run i ≠ .waiting → t.run i ≠ .waiting
  notCreated : s.run i = .notCreated → t.run i = .notCreated

private theorem samePlace_of (h : t.run i = s.run i ∨ t.run i = (s.run i).wake) :
    SamePlace i s t := by
  rcases h with h | h
  · exact ⟨by rw [h], by rw [h], h ▸ id, h ▸ id⟩
  · refine ⟨?_, ?_, fun _ ↦ ?_, fun hnot ↦ ?_⟩
    · rw [h, holds_wake]
    · rw [h, goesOn_wake]
    · rw [h]
      exact wake_ne_waiting _
    · rw [h, hnot]
      rfl

namespace Heeds

/-- Somebody else does something. -/
theorem other (hs : Heeds i s) (howner : t.owner i = s.owner i)
    (hstopped : t.stopped i = s.stopped i) (hstops : t.stops i = s.stops i)
    (hmain : ∀ m, t.main = .create m → m ≤ i → ∃ m' ≤ i.val, s.main = .create m')
    (hrun : SamePlace i s t) : Heeds i t := by
  refine ⟨fun m hm hle ↦ ?_, ?_, fun k ↦ ?_, ?_, fun k ↦ ?_, fun k hk ↦ ?_⟩
  · obtain ⟨m', hle', hm'⟩ := hmain m hm hle
    exact hrun.notCreated (hs.main m' hm' hle')
  · rw [hrun.holds, howner]
    exact hs.thread
  · rw [hstops, howner]
    exact hs.stopper k
  · rw [hrun.goesOn, hstopped]
    exact hs.goesOn
  · rw [hstops, hstopped]
    exact hs.set k
  · rw [hstops] at hk
    exact hrun.awake (hs.awake k hk)

/-- `main` creates the thread. -/
theorem create (hs : Heeds i s) (howner : t.owner i = s.owner i)
    (hstopped : t.stopped i = s.stopped i) (hstops : t.stops i = s.stops i)
    (hmain : s.main = .create i) (hmain' : ∀ m, t.main = .create m → i < m)
    (hrun : t.run i = .lock) : Heeds i t := by
  have hnot : s.run i = .notCreated := hs.main i hmain le_rfl
  have hfree : s.owner i ≠ some .thread := fun h ↦ by
    have := hs.thread.mpr h
    rw [hnot] at this
    exact Bool.false_ne_true this
  refine ⟨fun m hm hle ↦ absurd hle (not_le.mpr (hmain' m hm)), ?_, fun k ↦ ?_, ?_, fun k ↦ ?_, ?_⟩
  · rw [hrun, howner]
    exact iff_of_false Bool.false_ne_true hfree
  · rw [hstops, howner]
    exact hs.stopper k
  · rw [hrun]
    exact fun h ↦ absurd h Bool.false_ne_true
  · rw [hstops, hstopped]
    exact hs.set k
  · rw [hrun]
    exact fun _ _ ↦ by decide

/-- The thread takes a step. It holds the mutex, or takes it while it is free. -/
theorem runs (hs : Heeds i s) (hstopped : t.stopped i = s.stopped i)
    (hstops : t.stops i = s.stops i) (hmain : t.main = s.main)
    (hrun : Runs (s.stopped i) (s.owner i) (s.run i) (t.owner i) (t.run i)) : Heeds i t := by
  obtain ⟨hcreate, hthread, hstopper, hgoes, hset, hawake⟩ := hs
  have hcreated := hrun.ne_notCreated
  have hnotMain : ∀ m, t.main = .create m → m ≤ i.val → t.run i = .notCreated :=
    fun m hm hle ↦ absurd (hcreate m (hmain ▸ hm) hle) hcreated
  have hsets : ∀ k, (t.stops i k).hasSet = true → t.stopped i = true := by
    rw [hstops, hstopped]
    exact hset
  -- What remains is about the mutex and the place of the thread.
  suffices hrest : ((t.run i).holds = true ↔ t.owner i = some .thread) ∧
      (∀ k, (s.stops i k).holds = true ↔ t.owner i = some (.stopper k)) ∧
      ((t.run i).goesOn = true → s.stopped i = false) ∧
      (t.run i = .waiting → s.stopped i = false) by
    obtain ⟨hthread', hstopper', hgoes', hwaiting⟩ := hrest
    refine ⟨hnotMain, hthread', ?_, ?_, hsets, fun k hk hw ↦ ?_⟩
    · rw [hstops]
      exact hstopper'
    · rw [hstopped]
      exact hgoes'
    · have hk' : (s.stops i k).hasSet = true := by
        rw [hstops] at hk
        revert hk
        cases s.stops i k <;> simp [StopPc.hasNotified, StopPc.hasSet]
      exact Bool.false_ne_true ((hwaiting hw).symm.trans (hset k hk'))
  have hmine : (s.run i).holds = true → ∀ k, (s.stops i k).holds = true ↔ False := by
    intro hholds k
    rw [hstopper k, hthread.mp hholds]
    simp
  generalize s.owner i = o, s.run i = pc, t.owner i = o', t.run i = pc', s.stopped i = b at *
  cases hrun with
  | lock => simp_all [RunPc.holds, RunPc.goesOn]
  | testIsstop => cases b <;> simp_all [RunPc.holds, RunPc.goesOn]
  | wait => simp_all [RunPc.holds, RunPc.goesOn]
  | woken => simp_all [RunPc.holds, RunPc.goesOn]
  | testStopped => cases b <;> simp_all [RunPc.holds, RunPc.goesOn]
  | process => simp_all [RunPc.holds, RunPc.goesOn]
  | notify => simp_all [RunPc.holds, RunPc.goesOn]
  | leave => simp_all [RunPc.holds, RunPc.goesOn]

/-- A call of `stop` takes a step. -/
theorem calls {pc : StopPc} (hs : Heeds i s) (hmain : t.main = s.main)
    (hcalls : CallsStop k (s.owner i) (s.stops i k) (t.owner i) pc)
    (hstops : t.stops i = Function.update (s.stops i) k pc)
    (hstopped : t.stopped i = (s.stopped i || decide (pc = .notify)))
    (hrun : t.run i = if pc = .unlock then (s.run i).wake else s.run i) : Heeds i t := by
  have hplace : SamePlace i s t := by
    refine samePlace_of ?_
    rw [hrun]
    split
    · exact Or.inr rfl
    · exact Or.inl rfl
  obtain ⟨hcreate, hthread, hstopper, hgoes, hset, hawake⟩ := hs
  have hk := hstopper k
  refine ⟨fun m hm hle ↦ hplace.notCreated (hcreate m (hmain ▸ hm) hle), ?_, fun l ↦ ?_,
    fun hgoes' ↦ ?_, fun l hl ↦ ?_, fun l hl ↦ ?_⟩
  · rw [hplace.holds, hthread]
    generalize s.owner i = o, t.owner i = o', s.stops i k = pc₀ at *
    cases hcalls <;> simp_all [StopPc.holds]
  · rw [hstops]
    have hl := hstopper l
    by_cases hlk : l = k
    · subst hlk
      rw [Function.update_self]
      generalize s.owner i = o, t.owner i = o', s.stops i l = pc₀ at *
      cases hcalls <;> simp_all [StopPc.holds]
    · rw [Function.update_of_ne hlk, hl]
      have hkl : k ≠ l := Ne.symm hlk
      generalize s.owner i = o, t.owner i = o', s.stops i k = pc₀ at *
      cases hcalls <;> simp_all [StopPc.holds]
  · rw [hplace.goesOn] at hgoes'
    have hthread' := hthread.mp (holds_of_goesOn hgoes')
    have hne : pc ≠ .notify := by
      rintro rfl
      generalize s.owner i = o, t.owner i = o', s.stops i k = pc₀ at *
      cases hcalls
      simp_all [StopPc.holds]
    rw [hstopped, hgoes hgoes', decide_eq_false hne]
    rfl
  · rw [hstopped]
    rw [hstops] at hl
    by_cases hlk : l = k
    · subst hlk
      rw [Function.update_self] at hl
      have hl' := hset l
      generalize s.owner i = o, t.owner i = o', s.stops i l = pc₀ at *
      cases hcalls <;> simp_all [StopPc.hasSet]
    · rw [Function.update_of_ne hlk] at hl
      rw [hset l hl, Bool.true_or]
  · rw [hstops] at hl
    by_cases hlk : l = k
    · subst hlk
      rw [Function.update_self] at hl
      have hl' := hawake l
      rw [hrun]
      generalize s.owner i = o, t.owner i = o', s.stops i l = pc₀ at *
      cases hcalls <;> simp_all [StopPc.hasNotified, wake_ne_waiting]
    · rw [Function.update_of_ne hlk] at hl
      exact hplace.awake (hawake l hl)

theorem step (hs : Heeds i s) (h : Effect i p s t) : Heeds i t := by
  cases h with
  | other _ howner hstopped hstops hmain hrun =>
    exact hs.other howner hstopped hstops hmain (samePlace_of hrun)
  | create _ howner hstopped hstops hmain hmain' hrun =>
    exact hs.create howner hstopped hstops hmain hmain' hrun
  | runs _ hstopped hstops hmain hrun => exact hs.runs hstopped hstops hmain hrun
  | calls _ k pc hmain hcalls hstops hstopped hrun =>
    exact hs.calls hmain hcalls hstops hstopped hrun

theorem of_reachable (hs : Reachable IsInitial (Acts act) s) (i : Obj n) : Heeds i s := by
  refine hs.invariant (fun s hs ↦ heeds_initial hs i) ?_
  rintro s t - hheeds ⟨p, hp⟩
  exact hheeds.step (act_effect i hp)

end Heeds

/-! ## What is left to do

The rank is that of a thread whose object is stopped, so the places that such a thread does not come
to do not count. A step of the thread lowers it, and nobody else raises it, as there is no thread
asleep to be woken. -/

/-- How many steps the thread of a stopped object takes at most. -/
def RunPc.rank : RunPc → ℕ
  | .notCreated | .lock | .woken => 3
  | .testIsstop | .testStopped => 2
  | .leave => 1
  | .wait | .waiting | .process | .notify | .returned => 0

/-- A call of `stop` has returned, and the invariant holds. -/
structure Stopped (i : Obj n) (k : ℕ) (s : State n) : Prop where
  heeds : Heeds i s
  returned : s.stops i k = .returned

namespace Stopped

theorem stopped (hs : Stopped i k s) : s.stopped i = true := by
  refine hs.heeds.set k ?_
  rw [hs.returned]
  rfl

private theorem not_goesOn (hs : Stopped i k s) :
    (s.run i).goesOn = false ∧ s.run i ≠ .waiting := by
  constructor
  · refine Bool.eq_false_iff.mpr fun h ↦ ?_
    exact Bool.false_ne_true ((hs.heeds.goesOn h).symm.trans hs.stopped)
  · refine hs.heeds.awake k ?_
    rw [hs.returned]
    rfl

/-- Each step of the thread brings it nearer to its end, and nothing takes it back. -/
theorem step (hs : Stopped i k s) (h : Effect i p s t) : Stopped i k t ∧
    (t.run i).rank + (if p = .thread i then 1 else 0) ≤ (s.run i).rank := by
  obtain ⟨hgoes, hwaiting⟩ := hs.not_goesOn
  have hheeds := hs.heeds.step h
  have hwake : (s.run i).wake = s.run i := if_neg hwaiting
  cases h with
  | other hp _ _ hstops _ hrun =>
    have hsame : t.run i = s.run i := hrun.elim id fun h ↦ h.trans hwake
    rw [if_neg hp, hsame]
    exact ⟨⟨hheeds, (congrFun hstops k).trans hs.returned⟩, le_rfl⟩
  | create hp _ _ hstops hmain _ hrun =>
    rw [if_neg hp, hrun, hs.heeds.main i hmain le_rfl]
    exact ⟨⟨hheeds, (congrFun hstops k).trans hs.returned⟩, le_rfl⟩
  | runs hp _ hstops _ hrun =>
    refine ⟨⟨hheeds, (congrFun hstops k).trans hs.returned⟩, ?_⟩
    have hstopped := hs.stopped
    rw [if_pos hp]
    generalize s.owner i = o, s.run i = pc, t.owner i = o', t.run i = pc', s.stopped i = b at *
    cases hrun <;> simp_all [RunPc.rank, RunPc.goesOn]
  | calls hp l pc _ hcalls hstops _ hrun =>
    have hsame : t.run i = s.run i := by
      rw [hrun]
      split
      · exact hwake
      · rfl
    rw [if_neg hp, hsame]
    refine ⟨⟨hheeds, ?_⟩, le_rfl⟩
    rw [hstops]
    by_cases hkl : k = l
    · exact absurd (hkl ▸ hs.returned) hcalls.ne_returned
    · rw [Function.update_of_ne hkl]
      exact hs.returned

end Stopped

private theorem count_calls (h : act p s = some t) (hi : s.run i ≠ .process) :
    t.calls.count i = s.calls.count i := by
  cases p with
  | main =>
    rcases hm : s.main with m | - | - <;> simp only [act, mainStep, hm] at h
    · by_cases hk : m < n + 2
      · rw [dif_pos hk] at h
        exact Option.some_inj.mp h ▸ rfl
      · rw [dif_neg hk] at h
        exact absurd h (Option.some_ne_none t).symm
    · exact Option.some_inj.mp h ▸ rfl
    · exact absurd h (Option.some_ne_none t).symm
  | thread j =>
    rcases hj : s.run j with - | - | - | - | - | - | - | - | - | - | - <;>
      simp only [act, runStep, hj, Option.ite_none_right_eq_some, Option.some.injEq,
        reduceCtorEq] at h
    case lock | woken => exact h.2 ▸ rfl
    case process =>
      have hij : i ≠ j := fun hij ↦ hi (hij ▸ hj)
      subst h
      simp only [List.count_append, List.count_singleton, beq_eq_false_iff_ne.mpr hij.symm,
        Bool.false_eq_true, if_false, Nat.add_zero]
    all_goals exact h ▸ rfl
  | spurious j =>
    obtain ⟨-, rfl⟩ := of_ite_some h
    rfl
  | stopper j k =>
    rcases hk : s.stops j k with - | - | - | - | - | - <;>
      simp only [act, stopStep, hk, Option.ite_none_right_eq_some, Option.some.injEq,
        reduceCtorEq] at h
    case lock => exact h.2 ▸ rfl
    all_goals exact h ▸ rfl

/-- The thread has returned or was never created, or can take a step, or a call of `stop` that holds
the mutex can. -/
def CanGoOn (i : Obj n) (s : State n) : Prop :=
  s.run i = .returned ∨ s.run i = .notCreated ∨ (act (.thread i) s).isSome ∨
    ∃ k, s.owner i = some (.stopper k) ∧ (act (.stopper i k) s).isSome

theorem Stopped.canGoOn (hs : Stopped i k s) : CanGoOn i s := by
  obtain ⟨hgoes, hwaiting⟩ := hs.not_goesOn
  -- Only the mutex may keep the thread from a step.
  have hmutex (hfree : s.owner i = none → (act (.thread i) s).isSome)
      (hholds : (s.run i).holds = false) : CanGoOn i s := by
    rcases howner : s.owner i with - | - | l
    · exact Or.inr (Or.inr (Or.inl (hfree howner)))
    · exact absurd (hholds.symm.trans (hs.heeds.thread.mpr howner)) Bool.false_ne_true
    · refine Or.inr (Or.inr (Or.inr ⟨l, howner, ?_⟩))
      have hl := (hs.heeds.stopper l).mpr howner
      revert hl
      cases hpc : s.stops i l <;> simp [StopPc.holds, act, stopStep, hpc]
  rcases hpc : s.run i with - | - | - | - | - | - | - | - | - | - | -
  case notCreated => exact Or.inr (Or.inl hpc)
  case returned => exact Or.inl hpc
  case lock | woken =>
    refine hmutex (fun hfree ↦ ?_) (by rw [hpc]; rfl)
    simp [act, runStep, hpc, hfree]
  case testIsstop | testStopped | leave =>
    exact Or.inr (Or.inr (Or.inl (by simp [act, runStep, hpc])))
  case wait | process | notify =>
    rw [hpc] at hgoes
    exact absurd hgoes (by decide)
  case waiting => exact absurd hpc hwaiting

private theorem Stopped.calls_step (hs : Stopped i k s) (h : act p s = some t) :
    t.calls.count i = s.calls.count i := by
  refine count_calls h fun hpc ↦ ?_
  have hgoes := hs.not_goesOn.1
  rw [hpc] at hgoes
  exact absurd hgoes (by decide)

/-- **A call of `stop` is not lost.** When it has returned, in whatever schedule, the thread of the
object takes three steps at most and processes no more, it never sleeps again, and unless it has
returned it can take a step, or a call of `stop` that holds its mutex can. -/
theorem stop_not_lost (n : ℕ) (s t : State n) (i : Obj n) (k : ℕ) (ps : List (Party n))
    (hs : Reachable IsInitial (Acts act) s) (hreturned : s.stops i k = .returned)
    (h : execute act ps s = some t) :
    ps.count (.thread i) ≤ 3 ∧ t.calls.count i = s.calls.count i ∧ t.run i ≠ .waiting ∧
      CanGoOn i t := by
  have hstopped : Stopped i k s := ⟨Heeds.of_reachable hs i, hreturned⟩
  have hstep (p : Party n) (u v : State n) (hu : Stopped i k u) (h : act p u = some v) :
      Stopped i k v ∧ (v.run i).rank + (if p = .thread i then 1 else 0) ≤ (u.run i).rank :=
    hu.step (act_effect i h)
  obtain ⟨hst, hle⟩ := rank_add_count_le (fun u ↦ (u.run i).rank) hstep hstopped h
  have hcount := (execute_invariant
    (I := fun u ↦ Stopped i k u ∧ u.calls.count i = s.calls.count i)
    (fun p u v hu h ↦ ⟨(hstep p u v hu.1 h).1, (hu.1.calls_step h).trans hu.2⟩)
    ⟨hstopped, rfl⟩ h).2
  have hrank : (s.run i).rank ≤ 3 := by
    cases s.run i <;> decide
  exact ⟨by omega, hcount, hst.not_goesOn.2, hst.canGoOn⟩

/-- `stop` is called while the thread sleeps. -/
def stopSleeping : List (Party 0) :=
  List.replicate 2 .main ++ List.replicate 3 (.thread 0) ++ List.replicate 5 (.stopper 0 7)

theorem stop_not_lost_stopSleeping :
    ∃ s t : State 0, Reachable IsInitial (Acts act) s ∧ s.stops 0 7 = .returned ∧
      execute act (List.replicate 3 (.thread 0)) s = some t ∧ t.run 0 ≠ .waiting ∧
        CanGoOn 0 t := by
  have hs : (execute act stopSleeping {}).any (fun s ↦ s.stops 0 7 = .returned ∧
      (execute act (List.replicate 3 (.thread 0)) s).isSome) = true := by decide +kernel
  obtain ⟨s, hrun, hreturned, hsome⟩ := exists_of_execute hs
  obtain ⟨t, ht⟩ := Option.isSome_iff_exists.mp hsome
  have hreach : Reachable IsInitial (Acts act) s := reachable_of_execute (.start rfl) hrun
  obtain ⟨-, -, hwaiting, hgoes⟩ := stop_not_lost 0 s t 0 7 _ hreach hreturned ht
  exact ⟨s, t, hreach, hreturned, ht, hwaiting, hgoes⟩

end Thr

end CppRepo
