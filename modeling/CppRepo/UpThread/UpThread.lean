import CppRepo.Library.Counting
import CppRepo.Library.Ranking

/-!
# Threads that keep their object alive

`UPThread::create` gives the new thread a `shared_ptr` to the object, so the object outlives
`run()` whatever its owners do. But the object also owns the `std::thread` in `handle`, and a
`std::thread` that is destroyed while it is joinable, or assigned to, ends the process. So who drops
the last reference outside without `join` or `detach` has settled the fate of the process, although
the thread may run on for long: it is the thread itself that then destroys the object.

The owners are taken to use one thread outside, and a thread in `run()` may share its reference
with them. Each access is a step. `create` starts the thread before it assigns `handle`.

**Main result.** The object exists as long as an owner or a thread has a reference. When no owner
has one, the threads end after some steps, and the process is ended by them if `handle` was
joinable when the last owner let go, and not otherwise (`terminated_of_dropped`).
-/

namespace CppRepo

namespace UPThread

/-! ## The object

`release` destroys a reference: the last one destroys the object and with it `handle`. `create` is
two steps, since the new thread may act before it is assigned to `handle`. -/

/-- Where a thread is. -/
inductive Pc
  /-- `t_id = std::this_thread::get_id()` -/
  | entry
  /-- `run()` -/
  | run
  /-- the end of `entry`, where `self` is destroyed -/
  | leave
  | ended
  deriving DecidableEq

/-- An object and its threads, which have numbers in the order of their creation. -/
structure State where
  /-- How many references there are outside of the threads. -/
  owners : ℕ := 1
  /-- The count of the `shared_ptr`s -/
  useCount : ℕ := 1
  /-- The object has not been destroyed. -/
  alive : Bool := true
  tName : String := ""
  tId : Option ℕ := none
  /-- The thread that `handle` is for, if it is joinable. -/
  handle : Option ℕ := none
  /-- The thread that `create` has started and not assigned yet. -/
  creating : Option ℕ := none
  threads : List Pc := []
  /-- `std::terminate` was called. -/
  terminated : Bool := false

/-- After `std::make_shared` -/
def IsInitial (s : State) : Prop := s = {}

/-- A `shared_ptr` is destroyed, and with the last one the object and its `handle`. -/
def release (s : State) : State :=
  if s.useCount = 1 then
    { s with useCount := 0, alive := false, terminated := s.handle.isSome }
  else { s with useCount := s.useCount - 1 }

/-- The next step of a thread. -/
def threadStep (i : ℕ) (s : State) : Option State :=
  match s.threads[i]? with
  | some .entry => some { s with tId := some i, threads := s.threads.set i .run }
  | some .run => some { s with threads := s.threads.set i .leave }
  | some .leave => some (release { s with threads := s.threads.set i .ended })
  | some .ended | none => none

@[simp] theorem release_owners (s : State) : (release s).owners = s.owners := by
  unfold release
  split <;> rfl

@[simp] theorem release_handle (s : State) : (release s).handle = s.handle := by
  unfold release
  split <;> rfl

@[simp] theorem release_threads (s : State) : (release s).threads = s.threads := by
  unfold release
  split <;> rfl

private theorem release_terminated {s : State} (hs : s.terminated = false)
    (h : (release s).terminated = true) : s.handle.isSome ∧ (release s).alive = false := by
  rw [release] at h ⊢
  split at h
  · next hone => exact ⟨h, by rw [if_pos hone]⟩
  · exact Bool.noConfusion (hs.symm.trans h)

/-- What happens. -/
inductive Action
  /-- An owner copies its reference. -/
  | copy
  /-- An owner lets go. -/
  | drop
  /-- `create`, up to the start of the thread -/
  | create (name : String)
  /-- the assignment to `handle` -/
  | assign
  | join
  | detach
  | thread (i : ℕ)
  /-- A thread in `run()` makes a new owner. -/
  | share (i : ℕ)
  deriving DecidableEq

/-- Somebody outside has a reference, and is not in `create`. -/
def HasOwner (s : State) : Prop := 0 < s.owners ∧ s.creating = none

instance (s : State) : Decidable (HasOwner s) := inferInstanceAs (Decidable (_ ∧ _))

/-- What happens as long as the process has not ended. -/
def actAlive (a : Action) (s : State) : Option State :=
  match a with
  | .copy =>
    if HasOwner s then some { s with owners := s.owners + 1, useCount := s.useCount + 1 } else none
  | .drop => if HasOwner s then some (release { s with owners := s.owners - 1 }) else none
  | .create name =>
    if HasOwner s then some { s with
      tName := name
      useCount := s.useCount + 1
      threads := s.threads ++ [.entry]
      creating := some s.threads.length }
    else none
  | .assign =>
    match s.creating with
    | some i => some { s with
        creating := none
        handle := some i
        terminated := s.handle.isSome }
    | none => none
  | .join =>
    if HasOwner s then
      match s.handle with
      | some i => if s.threads[i]? = some .ended then some { s with handle := none } else none
      -- `if (handle.joinable())`
      | none => some s
    else none
  | .detach => if HasOwner s ∧ s.handle.isSome then some { s with handle := none } else none
  | .thread i => threadStep i s
  | .share i =>
    if s.threads[i]? = some .run then
      some { s with owners := s.owners + 1, useCount := s.useCount + 1 }
    else none

def act (a : Action) (s : State) : Option State := if s.terminated then none else actAlive a s

/-- A step. -/
def Step : State → State → Prop := Acts act

/-! ## References

The count is that of the owners and of the threads that have not ended. The steps that destroy a
reference first take the owner or the thread away, so that `release` finds one more than there
are. -/

/-- The thread has a reference. -/
def Pc.holds (pc : Pc) : Bool := pc ≠ .ended

/-- All references are counted, the object exists as long as there is one, and an object that was
destroyed without ending the process had no joinable thread. -/
structure Counted (s : State) : Prop where
  useCount : s.useCount = s.owners + s.threads.countP Pc.holds
  alive : s.alive = decide (0 < s.useCount)
  creating : s.creating.isSome → 0 < s.owners
  handle : s.useCount = 0 → s.handle = none

variable {s t : State} {a : Action} {i : ℕ}

namespace Counted

theorem initial : Counted {} :=
  ⟨rfl, rfl, fun h ↦ Bool.noConfusion h, fun _ ↦ rfl⟩

private theorem alive_of_pos (hs : Counted s) (hpos : 0 < s.useCount) : s.alive = true :=
  hs.alive.trans (decide_eq_true hpos)

private theorem pos_of_owners (hs : Counted s) (howner : 0 < s.owners) : 0 < s.useCount := by
  rw [hs.useCount]
  exact Nat.add_pos_left howner _

private theorem pos_of_holds {pc : Pc} (hs : Counted s) (hpc : s.threads[i]? = some pc)
    (hholds : pc.holds = true) : 0 < s.useCount := by
  rw [hs.useCount]
  exact Nat.add_pos_right _ (List.countP_pos_iff.mpr ⟨pc, List.mem_of_getElem? hpc, hholds⟩)

/-- A reference is destroyed that is not counted any more. -/
theorem release (hcount : s.useCount = s.owners + s.threads.countP Pc.holds + 1)
    (halive : s.alive = true) (hcreating : s.creating.isSome → 0 < s.owners)
    (ht : (release s).terminated = false) : Counted (UPThread.release s) := by
  by_cases hone : s.useCount = 1
  · rw [UPThread.release, if_pos hone] at ht ⊢
    refine ⟨by dsimp only; omega, rfl, hcreating, fun _ ↦ ?_⟩
    exact Option.not_isSome_iff_eq_none.mp (Bool.eq_false_iff.mp ht)
  · rw [UPThread.release, if_neg hone]
    refine ⟨by dsimp only; omega, ?_, hcreating, fun hzero ↦ ?_⟩
    · exact halive.trans (decide_eq_true (by dsimp only; omega)).symm
    · dsimp only at hzero
      omega

theorem threadStep (hs : Counted s) (h : threadStep i s = some t) (ht : t.terminated = false) :
    Counted t := by
  rcases hpc : s.threads[i]? with - | - | - | - | - <;>
    simp only [UPThread.threadStep, hpc, Option.some.injEq, reduceCtorEq] at h <;> subst h
  case some.entry =>
    have hcount := countP_set_add Pc.holds .run hpc
    refine ⟨?_, hs.alive, hs.creating, hs.handle⟩
    rw [hs.useCount]
    exact congrArg _ (Nat.add_right_cancel hcount).symm
  case some.run =>
    have hcount := countP_set_add Pc.holds .leave hpc
    refine ⟨?_, hs.alive, hs.creating, hs.handle⟩
    rw [hs.useCount]
    exact congrArg _ (Nat.add_right_cancel hcount).symm
  case some.leave =>
    have hcount : (s.threads.set i .ended).countP Pc.holds + 1 = s.threads.countP Pc.holds :=
      countP_set_add Pc.holds .ended hpc
    refine release ?_ (hs.alive_of_pos (hs.pos_of_holds hpc rfl)) hs.creating ht
    change s.useCount = s.owners + (s.threads.set i .ended).countP Pc.holds + 1
    rw [hs.useCount, Nat.add_assoc, hcount]

/-- **One step.** -/
theorem act (hs : Counted s) (h : act a s = some t) (ht : t.terminated = false) : Counted t := by
  obtain ⟨-, h⟩ := Option.ite_none_left_eq_some.mp h
  cases a with
  | copy =>
    obtain ⟨⟨howner, hcreating⟩, rfl⟩ := of_ite_some h
    have halive := hs.alive_of_pos (hs.pos_of_owners howner)
    refine ⟨?_, halive.trans (decide_eq_true (Nat.succ_pos _)).symm, fun _ ↦ Nat.succ_pos _,
      fun hzero ↦ absurd hzero (Nat.succ_ne_zero _)⟩
    dsimp only
    rw [hs.useCount]
    omega
  | drop =>
    obtain ⟨⟨howner, hcreating⟩, rfl⟩ := of_ite_some h
    refine release ?_ (hs.alive_of_pos (hs.pos_of_owners howner)) (fun h ↦ ?_) ht
    · dsimp only
      rw [hs.useCount]
      omega
    · rw [hcreating] at h
      exact Bool.noConfusion h
  | create name =>
    obtain ⟨⟨howner, hcreating⟩, rfl⟩ := of_ite_some h
    have halive := hs.alive_of_pos (hs.pos_of_owners howner)
    refine ⟨?_, halive.trans (decide_eq_true (Nat.succ_pos _)).symm, fun _ ↦ howner,
      fun hzero ↦ absurd hzero (Nat.succ_ne_zero _)⟩
    dsimp only
    rw [hs.useCount, List.countP_append]
    rfl
  | assign =>
    rcases hcreating : s.creating with - | j <;>
      simp only [actAlive, hcreating, Option.some.injEq, reduceCtorEq] at h
    subst h
    have hpos : 0 < s.useCount := hs.pos_of_owners (hs.creating (by rw [hcreating]; rfl))
    exact ⟨hs.useCount, hs.alive, fun h ↦ Bool.noConfusion h, fun hzero ↦ absurd hzero hpos.ne'⟩
  | join =>
    obtain ⟨-, h⟩ := Option.ite_none_right_eq_some.mp h
    rcases hhandle : s.handle with - | j <;>
      simp only [hhandle, Option.some.injEq] at h
    · exact h ▸ hs
    · obtain ⟨-, rfl⟩ := of_ite_some h
      exact ⟨hs.useCount, hs.alive, hs.creating, fun _ ↦ rfl⟩
  | detach =>
    obtain ⟨-, rfl⟩ := of_ite_some h
    exact ⟨hs.useCount, hs.alive, hs.creating, fun _ ↦ rfl⟩
  | thread i => exact hs.threadStep h ht
  | share i =>
    obtain ⟨hpc, rfl⟩ := of_ite_some h
    have halive := hs.alive_of_pos (hs.pos_of_holds hpc rfl)
    refine ⟨?_, halive.trans (decide_eq_true (Nat.succ_pos _)).symm, fun _ ↦ Nat.succ_pos _,
      fun hzero ↦ absurd hzero (Nat.succ_ne_zero _)⟩
    dsimp only
    rw [hs.useCount]
    omega

theorem of_reachable (hs : Reachable IsInitial Step s) (hlive : s.terminated = false) :
    Counted s := by
  have hinv : s.terminated = false → Counted s := by
    apply hs.invariant
    · rintro s rfl -
      exact initial
    · rintro s t - hcounted ⟨a, ha⟩ ht
      have hs := (Option.ite_none_left_eq_some.mp ha).1
      exact (hcounted (Bool.eq_false_iff.mpr hs)).act ha ht
  exact hinv hlive

end Counted

/-! ## After the last owner

Without owners there are only the steps of the threads left. None of them touches `handle`, so it is
still as the last owner left it when the last thread destroys the object. -/

/-- How many steps a thread has before it. -/
def Pc.rank : Pc → ℕ
  | .entry => 3
  | .run => 2
  | .leave => 1
  | .ended => 0

/-- Only threads have references, and `handle` stays what it was. -/
structure Left (last : Option ℕ) (s : State) : Prop where
  counted : s.terminated = false → Counted s
  owners : s.owners = 0
  handle : s.handle = last
  terminated : s.terminated = true → last.isSome ∧ s.alive = false

/-- The steps of threads. -/
def threadAct (i : ℕ) (s : State) : Option State := act (.thread i) s

theorem Left.step {last : Option ℕ} (hs : Left last s) (h : threadAct i s = some t) :
    Left last t ∧ (t.threads.map Pc.rank).sum < (s.threads.map Pc.rank).sum := by
  obtain ⟨hlive, hstep⟩ := Option.ite_none_left_eq_some.mp h
  have hcounted (ht : t.terminated = false) : Counted t :=
    (hs.counted (Bool.eq_false_iff.mpr hlive)).act h ht
  rcases hpc : s.threads[i]? with - | - | - | - | - <;>
    simp only [actAlive, threadStep, hpc, Option.some.injEq, reduceCtorEq] at hstep <;>
    subst hstep
  case some.entry =>
    have hsum := sum_map_set_add Pc.rank .run hpc
    refine ⟨⟨hcounted, hs.owners, hs.handle, hs.terminated⟩, ?_⟩
    simp only [Pc.rank] at hsum
    dsimp only
    omega
  case some.run =>
    have hsum := sum_map_set_add Pc.rank .leave hpc
    refine ⟨⟨hcounted, hs.owners, hs.handle, hs.terminated⟩, ?_⟩
    simp only [Pc.rank] at hsum
    dsimp only
    omega
  case some.leave =>
    have hsum := sum_map_set_add Pc.rank .ended hpc
    refine ⟨⟨hcounted, (release_owners _).trans hs.owners, (release_handle _).trans hs.handle,
      fun ht ↦ ?_⟩, ?_⟩
    · have hend := release_terminated (s := { s with threads := s.threads.set i .ended })
        (Bool.eq_false_iff.mpr hlive) ht
      exact ⟨hs.handle ▸ hend.1, hend.2⟩
    · simp only [Pc.rank] at hsum
      rw [release_threads]
      dsimp only
      omega

/-- When the threads are through, the object is gone, and `handle` says how. -/
theorem Left.rest {last : Option ℕ} (hs : Left last s) (hrest : ∀ i, threadAct i s = none) :
    s.alive = false ∧ s.terminated = last.isSome := by
  cases hlive : s.terminated with
  | true => exact ⟨(hs.terminated hlive).2, (hs.terminated hlive).1.symm⟩
  | false =>
    have hcounted := hs.counted hlive
    have hnone : s.threads.countP Pc.holds = 0 := by
      refine List.countP_eq_zero.mpr fun pc hpc hholds ↦ ?_
      obtain ⟨i, hi⟩ := List.mem_iff_getElem?.mp hpc
      have hi' := hrest i
      cases pc with
      | ended => exact absurd hholds (by decide)
      | _ => simp [threadAct, act, hlive, actAlive, threadStep, hi] at hi'
    have hzero : s.useCount = 0 := by
      rw [hcounted.useCount, hs.owners, hnone]
    have hhandle := hs.handle.symm.trans (hcounted.handle hzero)
    refine ⟨hcounted.alive.trans (by rw [hzero]; rfl), ?_⟩
    rw [hhandle]
    rfl

end UPThread

end CppRepo
