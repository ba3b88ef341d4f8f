import CppRepo.Select.Deadlock
import CppRepo.Select.Exit

/-!
# Unregistering a handler

The worker selects on what was registered some time ago, and what `select` finds ready may have been
unregistered since. But it looks the callbacks up in `io_callback` under the mutex, and keeps the
mutex until it has called all of them. So `unregister_fd`, which changes the map under the mutex,
falls before a round of callbacks or after it, and a handler that it removed is called by no later
round.

`unregister_fd` has this effect from its change of the map on. If a handler is registered again it
may be called again, also when that happens before `unregister_fd` has returned.
-/

namespace CppRepo

namespace Select

variable {e : Setting} {i : ℕ} {io : IoHandler} {s t : State} {p : Party} {ps : List Party}

/-- The handler is in the map. -/
def State.Registered (s : State) (io : IoHandler) : Prop := (io.pipefd, io) ∈ s.ioCallback

/-- The callback of the handler is running. -/
def State.Running (s : State) (io : IoHandler) : Prop :=
  ∃ ios fdread, s.worker = .callback io ios fdread

/-- A call of `register_fd` inserts the handler in this step. -/
def Registers (e : Setting) (io : IoHandler) (p : Party) (s : State) : Prop :=
  ∃ i, p = .caller i ∧ e.call i = .registerFd io ∧ s.callers i = .update

/-- No step of the schedule inserts the handler. -/
def RegistersNone (e : Setting) (io : IoHandler) : List Party → State → Prop
  | [], _ => True
  | p :: ps, s => ¬ Registers e io p s ∧ ∀ t, act e p s = some t → RegistersNone e io ps t

/-! ## The callbacks of a round

The handlers of a round are those still to be looked at and the one whose callback is running. All
of them are in the map, since it cannot change while the worker has the mutex. -/

/-- The handlers the worker has in its loop over the callbacks, with the one it has called. -/
def WorkerPc.inRound : WorkerPc → List (ℕ × IoHandler)
  | .dispatch ios _ => ios
  | .callback io ios _ => (io.pipefd, io) :: ios
  | _ => []

private theorem WorkerPc.holds_of_inRound {w : WorkerPc} (h : w.inRound ≠ []) : w.Holds := by
  rcases w with - | - | - | - | ⟨fdread, maxfd⟩ | ⟨fdread, maxfd⟩ | fdread | ⟨ios, fdread⟩ |
    ⟨io, ios, fdread⟩ | fdread | - | -
  case dispatch => trivial
  case callback => trivial
  all_goals exact absurd rfl h

/-- All handlers of a round are in the map, under their descriptors. -/
structure Dispatches (s : State) : Prop where
  registered : ∀ x ∈ s.worker.inRound, x ∈ s.ioCallback
  keyed : ∀ x ∈ s.ioCallback, x.1 = x.2.pipefd

namespace Dispatches

/-- The worker takes the handlers of a round from the map, which it does not change. -/
theorem workerStep (hd : Dispatches s) (h : Select.workerStep e s = some t) : Dispatches t := by
  have hframe := workerStep_frame h
  refine ⟨fun x hx ↦ ?_, hframe.ioCallback ▸ hd.keyed⟩
  have hround := hd.registered
  rw [hframe.ioCallback]
  cases workerStep_move h with
  | relock => exact hx
  | @call fd io ios fdread hw =>
    rw [hw] at hround
    have hkey := hd.keyed (fd, io) (hround _ List.mem_cons_self)
    refine hround x ?_
    rwa [WorkerPc.inRound, ← hkey] at hx
  | skip hw | called hw =>
    rw [hw] at hround
    exact hround x (List.mem_cons_of_mem _ hx)
  | _ => exact absurd hx List.not_mem_nil

theorem callMove (hl : Locks e s) (hd : Dispatches s) (h : CallMove e i s t) : Dispatches t := by
  refine ⟨fun x hx ↦ ?_, fun x hx ↦ ?_⟩
  · rw [h.worker_eq] at hx
    have hmem := hd.registered x hx
    by_cases hi : s.callers i = .update
    · have hworker : s.owner = some .worker :=
        hl.worker (WorkerPc.holds_of_inRound (List.ne_nil_of_mem hx))
      have hstop : e.call i = .stop := by
        by_contra hstop
        have howner := hl.caller i hstop (hi.symm ▸ trivial)
        rw [hworker] at howner
        exact absurd (Option.some_inj.mp howner) (by simp)
      rw [h.eq_of_update hi, hstop]
      exact hmem
    · rw [(h.frame hi).2]
      exact hmem
  · rcases h.mem_ioCallback hx with hold | ⟨-, -, handler, -, rfl⟩
    · exact hd.keyed x hold
    · rfl

theorem step (hl : Locks e s) (hd : Dispatches s) (h : act e p s = some t) : Dispatches t := by
  rcases p with - | ret | i
  · exact hd.workerStep h
  · obtain ⟨-, pc, rfl, hpc⟩ := kernelStep_move h
    refine ⟨fun x hx ↦ ?_, hd.keyed⟩
    rcases hpc with ⟨-, rfl⟩ | ⟨ready, -, rfl⟩
    · exact absurd hx List.not_mem_nil
    · exact absurd hx List.not_mem_nil
  · exact hd.callMove hl (callStep_move h)

theorem of_reachable (hs : Reachable IsInitial (Step e) s) : Dispatches s := by
  apply hs.invariant
  · rintro s rfl
    exact ⟨fun x hx ↦ absurd hx List.not_mem_nil, fun x hx ↦ absurd hx List.not_mem_nil⟩
  · rintro s t hs hd ⟨p, hp⟩
    exact hd.step (.of_reachable hs) hp

private theorem registered_of_running (hd : Dispatches s) (h : s.Running io) : s.Registered io := by
  obtain ⟨ios, fdread, hw⟩ := h
  refine hd.registered _ ?_
  rw [hw]
  exact List.mem_cons_self

end Dispatches

/-! ## After the handler is erased

A schedule is followed from the step at which the call makes its update. Before that the handler may
have run, and after it only an insertion can bring it back. -/

private theorem not_registered_of_act (hno : ¬ s.Registered io) (hp : ¬ Registers e io p s)
    (h : act e p s = some t) : ¬ t.Registered io := by
  rcases p with - | ret | i
  · rwa [State.Registered, (workerStep_frame h).ioCallback]
  · obtain ⟨-, pc, rfl, -⟩ := kernelStep_move h
    exact hno
  · intro hmem
    rcases (callStep_move h).mem_ioCallback hmem with hold | ⟨hi, -, handler, hcall, hx⟩
    · exact hno hold
    · obtain rfl : io = handler := (Prod.mk.inj hx).2
      exact hp ⟨i, rfl, hcall, hi⟩

private theorem not_registered_of_execute (hno : ¬ s.Registered io) (hps : RegistersNone e io ps s)
    (h : execute (act e) ps s = some t) : ¬ t.Registered io := by
  induction ps generalizing s with
  | nil => exact Option.some_inj.mp h ▸ hno
  | cons p ps ih =>
    obtain ⟨u, hu, ht⟩ := Option.bind_eq_some_iff.mp h
    exact ih (not_registered_of_act hno hps.1 hu) (hps.2 u hu) ht

private theorem not_registered_of_update (hcall : e.call i = .unregisterFd io)
    (hi : s.callers i = .update) (h : act e (.caller i) s = some t) : ¬ t.Registered io := by
  rw [(callStep_move h).eq_of_update hi, hcall]
  intro hmem
  have hne := (List.mem_filter.mp hmem).2
  exact absurd rfl (of_decide_eq_true hne)

private theorem updated_of_step (hcall : e.call i = .unregisterFd io) (ht : (t.callers i).Updated)
    (h : act e p s = some t) :
    (s.callers i).Updated ∨ p = .caller i ∧ s.callers i = .update := by
  rcases p with - | ret | j
  · rw [(workerStep_frame h).callers] at ht
    exact Or.inl ht
  · obtain ⟨-, pc, rfl, -⟩ := kernelStep_move h
    exact Or.inl ht
  · by_cases hji : i = j
    · subst hji
      rcases hi : s.callers i with - | - | - | - | - | - | r
      case update => exact Or.inr ⟨rfl, rfl⟩
      case signal => exact Or.inl trivial
      case unlock => exact Or.inl trivial
      all_goals
        simp only [act, callStep, hcall, unregisterStep, hi, lockMutex, Option.map_eq_some_iff,
          Option.ite_none_right_eq_some, Option.some.injEq, reduceCtorEq] at h
      case idle =>
        rw [← h, State.callers_setCaller] at ht
        exact ht.elim
      case lock =>
        obtain ⟨_, -, rfl⟩ := h
        rw [State.callers_setCaller] at ht
        exact ht.elim
    · rw [(callStep_move h).callers_of_ne hji] at ht
      exact Or.inl ht

private theorem exists_update (hcall : e.call i = .unregisterFd io)
    (h : execute (act e) ps {} = some t) (ht : (t.callers i).Updated) :
    ∃ before later s, ps = before ++ .caller i :: later ∧
      execute (act e) before {} = some s ∧ s.callers i = .update := by
  induction ps using List.reverseRecOn generalizing t with
  | nil =>
    obtain rfl : {} = t := Option.some_inj.mp h
    exact ht.elim
  | append_singleton ps p ih =>
    rw [execute_concat] at h
    obtain ⟨u, hu, hp⟩ := Option.bind_eq_some_iff.mp h
    rcases updated_of_step hcall ht hp with hupdated | ⟨rfl, hupdate⟩
    · obtain ⟨before, later, s, rfl, hs, hi⟩ := ih hu hupdated
      exact ⟨before, later ++ [p], s, by rw [List.append_assoc, List.cons_append], hs, hi⟩
    · exact ⟨ps, [], u, rfl, hu, hupdate⟩

/-- **Unregistering.** A callback runs only while its handler is registered. And when
`unregister_fd` has returned, the callback of its handler is not running, unless some call has
inserted the handler since `unregister_fd` has erased it. -/
theorem callbacks_registered (e : Setting) :
    (∀ s io, Reachable IsInitial (Step e) s → s.Running io → s.Registered io) ∧
      ∀ ps t i io, execute (act e) ps {} = some t → e.call i = .unregisterFd io →
        t.callers i = .returned 0 →
        ∃ before later s, ps = before ++ .caller i :: later ∧
          execute (act e) before {} = some s ∧ s.callers i = .update ∧
          ∀ u, act e (.caller i) s = some u → RegistersNone e io later u → ¬ t.Running io := by
  refine ⟨fun s io hs ↦ (Dispatches.of_reachable hs).registered_of_running,
    fun ps t i io h hcall ht ↦ ?_⟩
  obtain ⟨before, later, s, rfl, hs, hi⟩ := exists_update hcall h (ht ▸ rfl)
  refine ⟨before, later, s, rfl, hs, hi, fun u hu hnone hrunning ↦ ?_⟩
  have hlater : execute (act e) later u = some t := by
    rw [execute_append, hs, Option.bind_some, execute, hu] at h
    exact h
  have hreach : Reachable IsInitial (Step e) t := reachable_of_execute (.start rfl) h
  exact not_registered_of_execute (not_registered_of_update hcall hi hu) hnone hlater
    ((Dispatches.of_reachable hreach).registered_of_running hrunning)

private theorem registersNone_of_forall (h : ∀ j, .caller j ∈ ps → e.call j ≠ .registerFd io)
    (s : State) : RegistersNone e io ps s := by
  induction ps generalizing s with
  | nil => trivial
  | cons p ps ih =>
    refine ⟨?_, fun t _ ↦ ih (fun j hj ↦ h j (List.mem_cons_of_mem _ hj)) t⟩
    rintro ⟨j, rfl, hcall, -⟩
    exact h j List.mem_cons_self hcall

/-- Call 0 registers its handler, and `select` finds its descriptor ready. Before the worker has the
mutex again, call 2 unregisters the handler. -/
def staleRead : List Party :=
  List.replicate 6 (Party.caller 0) ++ List.replicate 4 Party.worker
    ++ [Party.kernel (some {3, 5})] ++ List.replicate 5 (Party.caller 2) ++ [Party.worker]

theorem callbacks_registered_staleRead :
    ∃ t, execute (act stopping) staleRead {} = some t ∧ t.callers 2 = .returned 0 ∧
      t.worker = .dispatch [] {3, 5} ∧ ¬ t.Running ⟨0, 5⟩ := by
  have hrun : (execute (act stopping) staleRead {}).any (fun t ↦
      t.callers 2 = .returned 0 ∧ t.worker = .dispatch [] {3, 5}) = true := by decide +kernel
  obtain ⟨t, ht, hreturned, hw⟩ := exists_of_execute hrun
  refine ⟨t, ht, hreturned, hw, ?_⟩
  obtain ⟨before, later, s, hsplit, hs, hi, hlast⟩ :=
    (callbacks_registered stopping).2 staleRead t 2 ⟨0, 5⟩ ht rfl hreturned
  -- Only after 13 steps call 2 is at its update.
  have hlength : before.length < staleRead.length := by
    rw [hsplit, List.length_append, List.length_cons]
    omega
  have hbefore : before = staleRead.take before.length := by
    rw [hsplit, List.take_left]
  have honly : ∀ n < staleRead.length, (execute (act stopping) (staleRead.take n) {}).any
      (fun s ↦ s.callers 2 = .update) = true → n = 13 := by decide +kernel
  have hn : before.length = 13 := by
    refine honly _ hlength ?_
    rw [← hbefore, hs]
    exact decide_eq_true hi
  have hlater : later = staleRead.drop (13 + 1) := by
    rw [← hn, hsplit, List.drop_length_add_append, List.drop_one, List.tail_cons]
  have hnone : ∀ j, Party.caller j ∈ later → stopping.call j ≠ .registerFd ⟨0, 5⟩ := by
    intro j hj
    have hj' : j = 2 := by simpa [hlater, staleRead] using hj
    rw [hj']
    decide
  have hu : act stopping (.caller 2) s = some ((s.erase ⟨0, 5⟩).setCaller 2 .signal) := by
    have hact : act stopping (.caller 2) s = unregisterStep stopping ⟨0, 5⟩ 2 s := rfl
    rw [hact, unregisterStep, hi]
  exact hlast _ hu (registersNone_of_forall hnone _)

end Select

end CppRepo
