import CppRepo.Select.Wakeup

/-!
# The mutex and the pipe

`register_fd` and `unregister_fd` write to the pipe inside their critical section, and the worker
drains the pipe inside its own. If the pipe is full when such a call comes to its write, the call
waits for the worker with the mutex taken, and the worker, once it needs the mutex, waits for the
call. Nothing bounds the number of calls between two drains, so this can happen for every capacity.

It does not happen in a run in which a call makes its update only while the pipe has room for the
bytes it then has to write, and `stop`, which writes without the mutex, leaves that room.
-/

namespace CppRepo

namespace Select

variable {e : Setting} {i : ℕ} {s t : State} {p : Party} {ret : Option (Finset ℕ)}

/-! ## Who holds the mutex

The places at which the mutex is held are those between taking it and giving it back. `stop` writes
to the pipe at the same place of its program as the others, but without the mutex. -/

/-- The call holds the mutex here, if it is a call that takes it. -/
def CallPc.Holds : CallPc → Prop
  | .update | .signal | .unlock => True
  | _ => False

/-- The worker holds the mutex here. -/
def WorkerPc.Holds : WorkerPc → Prop
  | .build | .unlock _ _ | .dispatch _ _ | .callback _ _ _ | .clear _ | .unlockEnd => True
  | _ => False

/-- Each party owns the mutex in its critical sections, and `stop` never does. -/
structure Locks (e : Setting) (s : State) : Prop where
  worker : s.worker.Holds → s.owner = some .worker
  caller : ∀ i, e.call i ≠ .stop → (s.callers i).Holds → s.owner = some (.caller i)
  stop : ∀ i, e.call i = .stop → s.owner ≠ some (.caller i)

theorem CallMove.mutex (hl : Locks e s) (h : CallMove e i s t) :
    MutexMove (.caller i) s.owner t.owner ∧
      (e.call i ≠ .stop → (t.callers i).Holds → t.owner = some (.caller i)) ∧
        (e.call i = .stop → t.owner ≠ some (.caller i)) := by
  rcases h with ⟨pc, -, hsignal, hunlock, hupdate⟩ | ⟨hcall, -, hfree⟩ | hfrom |
    ⟨pc, hfrom, -, hpc⟩ | ⟨hcall, hfrom⟩
  case go =>
    refine ⟨.stay, fun hcall hholds ↦ ?_, hl.stop i⟩
    rw [State.callers_setCaller] at hholds
    rcases pc with - | - | - | - | - | - | r
    case update => exact absurd (hupdate rfl) hcall
    case signal => exact absurd rfl hsignal
    case unlock => exact absurd rfl hunlock
    all_goals exact hholds.elim
  case lock => exact ⟨.lock hfree, fun _ _ ↦ rfl, fun hstop ↦ absurd hstop hcall⟩
  case update =>
    have howner : (((e.call i).update s).setCaller i .signal).owner = s.owner :=
      ((e.call i).update_frame s).1
    rw [howner]
    refine ⟨.stay, fun hcall _ ↦ hl.caller i hcall ?_, hl.stop i⟩
    rw [hfrom]
    trivial
  case signal =>
    refine ⟨.stay, fun hcall _ ↦ hl.caller i hcall ?_, hl.stop i⟩
    rw [hfrom]
    trivial
  case unlock =>
    have hown : s.owner = some (.caller i) := by
      apply hl.caller i hcall
      rw [hfrom]
      trivial
    refine ⟨.unlock hown, fun _ hholds ↦ ?_, fun hstop ↦ absurd hstop hcall⟩
    rw [State.callers_setCaller] at hholds
    exact hholds.elim

private theorem workerStep_mutex (hl : s.worker.Holds → s.owner = some .worker)
    (h : workerStep e s = some t) :
    MutexMove .worker s.owner t.owner ∧ (t.worker.Holds → t.owner = some .worker) := by
  cases workerStep_move h with
  | stopped | goOn | leave => exact ⟨.stay, fun hholds ↦ hholds.elim⟩
  | lock _ hfree | relock _ hfree => exact ⟨.lock hfree, fun _ ↦ rfl⟩
  | unlock hw | unlockEnd hw =>
    rw [hw] at hl
    exact ⟨.unlock (hl trivial), fun hholds ↦ hholds.elim⟩
  | build hw | dispatched hw | call hw | skip hw | called hw | clear hw =>
    rw [hw] at hl
    exact ⟨.stay, fun _ ↦ hl trivial⟩

namespace Locks

theorem initial : Locks e {} := by
  constructor
  · exact nofun
  · exact fun _ _ ↦ nofun
  · exact fun _ _ ↦ nofun

/-- **One step.** -/
theorem step (hl : Locks e s) (h : act e p s = some t) : Locks e t := by
  rcases p with - | ret | i
  · have hframe := workerStep_frame h
    obtain ⟨hmove, hholds⟩ := workerStep_mutex hl.worker h
    refine ⟨hholds, fun i hcall hi ↦ ?_, fun i hcall ↦ ?_⟩
    · rw [hframe.callers] at hi
      exact hmove.held (hl.caller i hcall hi) nofun
    · have hne : Party.caller i ≠ .worker := nofun
      rw [Ne, hmove.held_iff hne]
      exact hl.stop i hcall
  · obtain ⟨-, pc, rfl, hpc⟩ := kernelStep_move h
    refine ⟨?_, hl.caller, hl.stop⟩
    rcases hpc with ⟨-, rfl⟩ | ⟨ready, -, rfl⟩
    · exact nofun
    · exact nofun
  · have hmoves := callStep_move h
    obtain ⟨hmove, hcaller, hstop⟩ := hmoves.mutex hl
    refine ⟨fun hholds ↦ ?_, fun j hcall hj ↦ ?_, fun j hcall ↦ ?_⟩
    · rw [hmoves.worker_eq] at hholds
      exact hmove.held (hl.worker hholds) nofun
    · by_cases hji : j = i
      · subst hji
        exact hcaller hcall hj
      · rw [hmoves.callers_of_ne hji] at hj
        exact hmove.held (hl.caller j hcall hj) fun heq ↦ hji (Party.caller.inj heq)
    · by_cases hji : j = i
      · subst hji
        exact hstop hcall
      · rw [Ne, hmove.held_iff fun heq ↦ hji (Party.caller.inj heq)]
        exact hl.stop j hcall

/-- **A run.** -/
theorem of_reachable (hs : Reachable IsInitial (Step e) s) : Locks e s := by
  apply hs.invariant
  · rintro s rfl
    exact .initial
  · rintro s t _ hl ⟨p, hp⟩
    exact hl.step hp

end Locks

/-! ## The deadlock

The holder of the mutex waits for room, which only the worker's drain makes; the worker waits for
the mutex. `HasRoom` looks at the state before a step: at an update under the mutex there is room
for the signal that has to follow, and a `stop` that writes meanwhile leaves it. -/

/-- A call waits for room in the pipe with the mutex taken. -/
def HolderWaits (e : Setting) (s : State) : Prop :=
  ∃ i, s.owner = some (.caller i) ∧ s.callers i = .signal ∧ e.capacity < s.unread + signalSize

/-- A call waits for room in the pipe with the mutex taken, and the worker waits for the mutex
before it can drain the pipe. -/
def Deadlocked (e : Setting) (s : State) : Prop :=
  HolderWaits e s ∧ (s.worker = .lock ∨ ∃ ready, s.worker = .relock ready)

/-- The party that holds the mutex is about to write to the pipe. -/
def HolderSignals (s : State) : Prop :=
  match s.owner with
  | some (.caller i) => s.callers i = .signal
  | _ => False

instance : Decidable (HolderSignals s) :=
  match h : s.owner with
  | some (.caller i) => decidable_of_iff (s.callers i = .signal) (by rw [HolderSignals, h])
  | some .worker => isFalse (by rw [HolderSignals, h]; exact id)
  | some (.kernel _) => isFalse (by rw [HolderSignals, h]; exact id)
  | none => isFalse (by rw [HolderSignals, h]; exact id)

/-- The pipe has room for what the step of this party leads to: for the signal of a call that is
about to make its update with the mutex taken, and beside the signal of `stop` for that of such a
call. -/
def HasRoom (e : Setting) (p : Party) (s : State) : Prop :=
  match p with
  | .caller i =>
    (s.callers i = .update → e.call i ≠ .stop → s.unread + signalSize ≤ e.capacity) ∧
    (s.callers i = .signal → e.call i = .stop → HolderSignals s →
      s.unread + signalSize + signalSize ≤ e.capacity)
  | _ => True

instance : ∀ p, Decidable (HasRoom e p s)
  | .caller _ => inferInstanceAs (Decidable (_ ∧ _))
  | .worker => isTrue trivial
  | .kernel _ => isTrue trivial

/-- The actions for which the pipe has room. -/
def roomyAct (e : Setting) : Party → State → Option State :=
  guarded (fun p s ↦ HasRoom e p s) (act e)

/-- A step for which the pipe has room. -/
def RoomyStep (e : Setting) : State → State → Prop := Acts (roomyAct e)

private theorem holderSignals_iff :
    HolderSignals s ↔ ∃ i, s.owner = some (.caller i) ∧ s.callers i = .signal := by
  constructor
  · intro h
    rcases hown : s.owner with - | - | ret | i <;> rw [HolderSignals, hown] at h
    case some.caller => exact ⟨i, rfl, h⟩
    all_goals exact h.elim
  · rintro ⟨i, hown, hi⟩
    rw [HolderSignals, hown]
    exact hi

/-! ## Runs with room in the pipe

Between the update and the signal of the holder, bytes are added by calls of `stop` only, since the
others would need the mutex for it. -/

/-- The write of the party that holds the mutex does not have to wait. -/
def WritesFit (e : Setting) (s : State) : Prop :=
  ∀ i, s.owner = some (.caller i) → s.callers i = .signal → s.unread + signalSize ≤ e.capacity

private theorem CallMove.writesFit (hl : Locks e s) (hf : WritesFit e s)
    (hroom : HasRoom e (.caller i) s) (h : CallMove e i s t) : WritesFit e t := by
  intro j hown hj
  have hother : j ≠ i → s.callers j = .signal := fun hji ↦ (h.callers_of_ne hji).symm.trans hj
  rcases h with ⟨pc, -, hsignal, -⟩ | - | hfrom | ⟨pc, hfrom, -, hpc⟩ | -
  case go =>
    by_cases hji : j = i
    · subst hji
      rw [State.callers_setCaller] at hj
      exact absurd hj hsignal
    · exact hf j hown (hother hji)
  case lock =>
    obtain rfl : i = j := Party.caller.inj (Option.some_inj.mp hown)
    rw [State.callers_setCaller] at hj
    nomatch hj
  case update =>
    obtain ⟨howner, hunread, -⟩ := (e.call i).update_frame s
    have hown' : s.owner = some (.caller j) := howner.symm.trans hown
    have hfits : s.unread + signalSize ≤ e.capacity := by
      by_cases hji : j = i
      · subst hji
        exact hroom.1 hfrom fun hcall ↦ hl.stop j hcall hown'
      · exact hf j hown' (hother hji)
    exact (congrArg (· + signalSize) hunread).trans_le hfits
  case signal =>
    by_cases hji : j = i
    · subst hji
      rw [State.callers_setCaller] at hj
      rcases hpc with ⟨-, rfl⟩ | ⟨-, rfl⟩ <;> nomatch hj
    · -- Another call writes while this one holds the mutex, so it is a call of `stop`.
      have hcall : e.call i = .stop := by
        by_contra hcall
        have hi : s.owner = some (.caller i) := by
          apply hl.caller i hcall
          rw [hfrom]
          trivial
        exact hji (Party.caller.inj (Option.some_inj.mp (hown.symm.trans hi)))
      exact hroom.2 hfrom hcall (holderSignals_iff.mpr ⟨j, hown, hother hji⟩)
  case unlock => nomatch hown

theorem WritesFit.step (hl : Locks e s) (hf : WritesFit e s) (h : RoomyStep e s t) :
    WritesFit e t := by
  obtain ⟨p, hp⟩ := h
  obtain ⟨hroom, hp⟩ := guarded_eq_some.mp hp
  rcases p with - | ret | i
  · intro i hown hi
    have hframe := workerStep_frame hp
    have hne : Party.caller i ≠ .worker := nofun
    have hown' := ((workerStep_mutex hl.worker hp).1.held_iff hne).mp hown
    rw [hframe.callers] at hi
    exact (Nat.add_le_add_right hframe.unread _).trans (hf i hown' hi)
  · obtain ⟨-, pc, rfl, -⟩ := kernelStep_move hp
    exact hf
  · exact (callStep_move hp).writesFit hl hf hroom

theorem WritesFit.of_reachable (hs : Reachable IsInitial (RoomyStep e) s) : WritesFit e s := by
  have hlocks : ∀ s, Reachable IsInitial (RoomyStep e) s → Locks e s :=
    fun s hs ↦ Locks.of_reachable (hs.mono fun _ _ ↦ acts_of_guarded)
  apply hs.invariant
  · rintro s rfl i hown
    nomatch hown
  · exact fun s t hreach hf hst ↦ hf.step (hlocks s hreach) hst

private theorem WritesFit.not_deadlocked (hf : WritesFit e s) : ¬ Deadlocked e s := by
  rintro ⟨⟨i, hown, hi, hfull⟩, -⟩
  exact (hf i hown hi).not_gt hfull

/-! ## The deadlock is for ever

Neither of the two can go on, and what the others do does not help them: the only one that may get
past its test is `stop`, which writes more bytes if it writes at all, and the kernel has nothing to
answer. -/

theorem Deadlocked.step (hl : Locks e s) (hd : Deadlocked e s) (h : Step e s t) :
    Deadlocked e t := by
  obtain ⟨⟨i, hown, hi, hfull⟩, hworker⟩ := hd
  obtain ⟨p, hp⟩ := h
  have htaken : s.owner ≠ none := by
    rw [hown]
    exact nofun
  rcases p with - | ret | j
  · -- The worker is at a place where it needs the mutex.
    rcases hworker with hw | ⟨ready, hw⟩ <;>
      simp only [act, workerStep, hw, lockMutex, if_neg htaken, Option.map_none, reduceCtorEq] at hp
  · obtain ⟨⟨fdread, maxfd, hw⟩, -⟩ := kernelStep_move hp
    rcases hworker with hw' | ⟨ready, hw'⟩
    · exact WorkerPc.noConfusion (hw.symm.trans hw')
    · exact WorkerPc.noConfusion (hw.symm.trans hw')
  · have hmove := callStep_move hp
    have hij : i ≠ j := by
      rintro rfl
      exact (hmove.unread_of_signal hi).1.not_gt hfull
    have hown' : t.owner = some (.caller i) :=
      (hmove.mutex hl).1.held hown fun heq ↦ hij (Party.caller.inj heq)
    rw [← hmove.worker_eq] at hworker
    refine ⟨⟨i, hown', (hmove.callers_of_ne hij).trans hi, ?_⟩, hworker⟩
    exact hfull.trans_le (Nat.add_le_add_right hmove.unread_le _)

/-! ## Filling the pipe

In the setting `registering`, call `i` registers a handler of its own. One call after the other
returns while the worker is about to lock the mutex for the first time; after as many as the pipe
has room for, the next one is stuck. -/

private theorem exists_enter {handler : IoHandler} (hcall : e.call i = .registerFd handler)
    (hidle : s.callers i = .idle) (hgoing : s.stopped = false) (hfree : s.owner = none) :
    ∃ t, execute (act e) (List.replicate 4 (.caller i)) s = some t ∧ t.owner = some (.caller i) ∧
      t.stopped = s.stopped ∧ t.unread = s.unread ∧ t.worker = s.worker ∧
        t.callers = Function.update s.callers i .signal := by
  have hgoes : ¬ s.stopped = true := ne_true_of_eq_false hgoing
  have hinsert : ∀ u : State, (u.insert handler).callers = u.callers := fun _ ↦ rfl
  simp only [List.replicate, execute, act, callStep, registerStep, hcall, hidle, if_neg hgoes,
    hfree, State.setCaller, lockMutex, hinsert, Function.update_self, Function.update_idem, if_true,
    Option.map_some, Option.bind_some]
  exact ⟨_, rfl, rfl, rfl, rfl, rfl, rfl⟩

private theorem execute_finish {handler : IoHandler} (hcall : e.call i = .registerFd handler)
    (hi : s.callers i = .signal) (hroom : s.unread + signalSize ≤ e.capacity) :
    execute (act e) (List.replicate 2 (.caller i)) s = some { s with
      owner := none
      unread := s.unread + signalSize
      callers := Function.update s.callers i (.returned 0) } := by
  simp only [List.replicate, execute, act, callStep, registerStep, hcall, hi, signalThread,
    if_pos hroom, unlockMutex, State.setCaller, Function.update_self, Function.update_idem,
    Option.map_some, Option.bind_some]

/-- The first `n` calls have registered their handlers, and the worker, about to lock the mutex for
the first time, has drained nothing. -/
structure Filled (e : Setting) (n : ℕ) (s : State) : Prop where
  reachable : Reachable IsInitial (Step e) s
  worker : s.worker = .lock
  free : s.owner = none
  going : s.stopped = false
  unread : s.unread = n * signalSize
  idle : ∀ i, n ≤ i → s.callers i = .idle

private theorem exists_filled {capacity n : ℕ} (hn : n * signalSize ≤ capacity) :
    ∃ s, Filled (registering capacity) n s := by
  induction n with
  | zero =>
    have hrun : execute (act (registering capacity)) [.worker] {} = some { worker := .lock } := rfl
    exact ⟨_, reachable_of_execute (.start rfl) hrun, rfl, rfl, rfl, (Nat.zero_mul _).symm,
      fun _ _ ↦ rfl⟩
  | succ n ih =>
    rw [Nat.succ_mul] at hn
    obtain ⟨s, hs⟩ := ih ((Nat.le_add_right _ _).trans hn)
    obtain ⟨t, henter, -, hgoing, hunread, hworker, hcallers⟩ :=
      exists_enter (e := registering capacity) rfl (hs.idle n le_rfl) hs.going hs.free
    have hsignal : t.callers n = .signal := by rw [hcallers, Function.update_self]
    have hroom : t.unread + signalSize ≤ capacity := by rwa [hunread, hs.unread]
    have hfinish := execute_finish (e := registering capacity) rfl hsignal hroom
    refine ⟨_, reachable_of_execute (reachable_of_execute hs.reachable henter) hfinish,
      hworker.trans hs.worker, rfl, hgoing.trans hs.going, ?_, fun i hi ↦ ?_⟩
    · rw [Nat.succ_mul, ← hs.unread, ← hunread]
    · have hne : i ≠ n := (Nat.lt_of_succ_le hi).ne'
      have hidle : t.callers i = .idle := by
        rw [hcallers, Function.update_of_ne hne]
        exact hs.idle i (Nat.le_of_succ_le hi)
      exact (Function.update_of_ne hne _ _).trans hidle

private theorem exists_deadlocked (capacity : ℕ) :
    ∃ s, Reachable IsInitial (Step (registering capacity)) s ∧
      Deadlocked (registering capacity) s := by
  have hfilled : ∃ s, Filled (registering capacity) (capacity / signalSize) s :=
    exists_filled (Nat.div_mul_le_self capacity signalSize)
  obtain ⟨s, hs⟩ := hfilled
  obtain ⟨t, henter, hown, -, hunread, hworker, hcallers⟩ :=
    exists_enter (e := registering capacity) rfl (hs.idle _ le_rfl) hs.going hs.free
  refine ⟨t, reachable_of_execute hs.reachable henter, ⟨_, hown, ?_, ?_⟩,
    Or.inl (hworker.trans hs.worker)⟩
  · rw [hcallers, Function.update_self]
  · rw [hunread, hs.unread]
    exact Nat.lt_div_mul_add (by decide)

/-! ## When the manager does not deadlock

After a step that breaks the condition the holder of the mutex waits. The worker then comes to one
of its locks without any other call, with an answer of the kernel if it is in `select`, unless it
leaves instead. -/

private theorem holderWaits_of_not_hasRoom (hl : Locks e s) (hroom : ¬ HasRoom e p s)
    (h : act e p s = some t) : HolderWaits e t := by
  rcases p with - | ret | i
  · exact absurd trivial hroom
  · exact absurd trivial hroom
  · have hmove := callStep_move h
    rw [HasRoom, not_and_or] at hroom
    push Not at hroom
    rcases hroom with ⟨hi, hcall, hfull⟩ | ⟨hi, hcall, hholder, hfull⟩
    · obtain ⟨howner, hunread, -⟩ := (e.call i).update_frame s
      have hown : s.owner = some (.caller i) := by
        apply hl.caller i hcall
        rw [hi]
        trivial
      obtain rfl := hmove.eq_of_update hi
      refine ⟨i, howner.trans hown, State.callers_setCaller _ _ _, ?_⟩
      exact hfull.trans_eq (congrArg (· + signalSize) hunread.symm)
    · obtain ⟨j, hown, hj⟩ := holderSignals_iff.mp hholder
      have hji : j ≠ i := by
        rintro rfl
        exact hl.stop j hcall hown
      have hown' : t.owner = some (.caller j) :=
        (hmove.mutex hl).1.held hown fun heq ↦ hji (Party.caller.inj heq)
      refine ⟨j, hown', (hmove.callers_of_ne hji).trans hj, ?_⟩
      rw [(hmove.unread_of_signal hi).2]
      exact hfull

/-- The worker has left its loop, or is about to. -/
def Leaving (s : State) : Prop :=
  s.worker = .returned ∨
    s.ioCallback = [] ∧ (s.worker = .testEmpty ∨ s.worker = .testStopped ∧ s.stopped = true)

private theorem exists_deadlocked_of_holderWaits (hcapacity : signalSize ≤ e.capacity)
    (hs : Reachable IsInitial (Step e) s) (hwaits : HolderWaits e s) (hstays : ¬ Leaving s) :
    ∃ t, Reachable (· = s) (Step e) t ∧ Deadlocked e t := by
  obtain ⟨i, hown, hi, hfull⟩ := id hwaits
  have hat : ∀ pc, (pc = .lock ∨ ∃ ready, pc = .relock ready) →
      Deadlocked e { s with worker := pc } := fun pc hpc ↦ ⟨⟨i, hown, hi, hfull⟩, hpc⟩
  have hnot : ¬ s.worker.Holds := by
    intro hholds
    have hworker := (Locks.of_reachable hs).worker hholds
    rw [hown] at hworker
    nomatch hworker
  have hstart : Reachable (· = s) (Step e) s := .start rfl
  rcases hw : s.worker with - | - | - | - | ⟨fdread, maxfd⟩ | ⟨fdread, maxfd⟩ | ready |
      ⟨ios, fdread⟩ | ⟨io, ios, fdread⟩ | fdread | - | -
  case lock => exact ⟨s, hstart, hwaits, Or.inl hw⟩
  case relock => exact ⟨s, hstart, hwaits, Or.inr ⟨ready, hw⟩⟩
  case select =>
    have hwatched : s.worker.watched = some (fdread, maxfd) := congrArg WorkerPc.watched hw
    obtain ⟨hset, hlt⟩ := (Watches.of_reachable hs).built fdread maxfd hwatched
    have hpipe : e.threadPipe ∈ fdread := hset ▸ Finset.mem_insert_self _ _
    obtain ⟨ready, hanswer⟩ := exists_answer hw hpipe hlt (by omega)
    exact ⟨_, hstart.next ⟨_, hanswer⟩, hat _ (Or.inr ⟨ready, rfl⟩)⟩
  case testStopped =>
    rcases hstopped : s.stopped with - | -
    · have hgoes : act e .worker s = some { s with worker := .lock } := by
        simp only [act, workerStep, hw, hstopped, Bool.false_eq_true, if_false]
      exact ⟨_, hstart.next ⟨_, hgoes⟩, hat _ (Or.inl rfl)⟩
    · have hempty : s.ioCallback ≠ [] := fun h ↦ hstays (Or.inr ⟨h, Or.inr ⟨hw, hstopped⟩⟩)
      have htests : act e .worker s = some { s with worker := .testEmpty } := by
        simp only [act, workerStep, hw, hstopped, if_true]
      have hgoes : act e .worker { s with worker := .testEmpty } =
          some { s with worker := .lock } := by
        simp only [act, workerStep, if_neg hempty]
      exact ⟨_, (hstart.next ⟨_, htests⟩).next ⟨_, hgoes⟩, hat _ (Or.inl rfl)⟩
  case testEmpty =>
    have hempty : s.ioCallback ≠ [] := fun h ↦ hstays (Or.inr ⟨h, Or.inl hw⟩)
    have hgoes : act e .worker s = some { s with worker := .lock } := by
      simp only [act, workerStep, hw, if_neg hempty]
    exact ⟨_, hstart.next ⟨_, hgoes⟩, hat _ (Or.inl rfl)⟩
  case returned => exact absurd (Or.inl hw) hstays
  all_goals
    rw [hw] at hnot
    exact absurd trivial hnot

/-- **The pipe and the mutex.** In a run in which each call makes its update under the mutex only
while the pipe has room for its signal, and `stop` leaves that room, no deadlock is reached. A step
that breaks the condition makes a deadlock reachable, unless the worker is leaving. For every
capacity there is a run that reaches one. -/
theorem not_deadlocked_of_roomy (e : Setting) :
    (∀ s, Reachable IsInitial (RoomyStep e) s → ¬ Deadlocked e s) ∧
      (∀ s p t, signalSize ≤ e.capacity → Reachable IsInitial (Step e) s → act e p s = some t →
        ¬ HasRoom e p s → ¬ Leaving t → ∃ u, Reachable (· = t) (Step e) u ∧ Deadlocked e u) ∧
      ∃ s, Reachable IsInitial (Step (registering e.capacity)) s ∧
        Deadlocked (registering e.capacity) s := by
  refine ⟨fun _ hs ↦ (WritesFit.of_reachable hs).not_deadlocked, ?_, exists_deadlocked _⟩
  intro s p t hcapacity hs h hroom hstays
  have hwaits := holderWaits_of_not_hasRoom (Locks.of_reachable hs) hroom h
  exact exists_deadlocked_of_holderWaits hcapacity (hs.next ⟨p, h⟩) hwaits hstays

/-- The pipe has room for one signal, and the first call registers and returns. -/
theorem not_deadlocked_of_roomy_once :
    ∃ s, Reachable IsInitial (RoomyStep (registering 4)) s ∧ s.callers 0 = .returned 0 ∧
      s.unread = 4 ∧ ¬ Deadlocked (registering 4) s := by
  have hs : (execute (roomyAct (registering 4)) (.worker :: List.replicate 6 (.caller 0)) {}).any
      (fun s ↦ s.callers 0 = .returned 0 ∧ s.unread = 4) = true := by decide +kernel
  obtain ⟨s, hrun, hreturned, hunread⟩ := exists_of_execute hs
  have hreach : Reachable IsInitial (RoomyStep (registering 4)) s :=
    reachable_of_execute (.start rfl) hrun
  exact ⟨s, hreach, hreturned, hunread, (not_deadlocked_of_roomy _).1 s hreach⟩

/-- With a pipe of four bytes the second call waits for room with the mutex taken. -/
theorem second_registration_deadlocks :
    ∃ s, Reachable IsInitial (Step (registering 4)) s ∧ Deadlocked (registering 4) s := by
  have hs : (execute (act (registering 4))
      (.worker :: (List.replicate 6 (.caller 0) ++ List.replicate 4 (.caller 1))) {}).any
        (fun s ↦ s.owner = some (.caller 1) ∧ s.callers 1 = .signal ∧ s.unread = 4 ∧
          s.worker = .lock) = true := by decide +kernel
  obtain ⟨s, hrun, hown, hcaller, hunread, hw⟩ := exists_of_execute hs
  refine ⟨s, reachable_of_execute (.start rfl) hrun, ⟨1, hown, hcaller, ?_⟩, Or.inl hw⟩
  rw [hunread]
  decide

end Select

end CppRepo
