import CppRepo.Http.Shutdown
import CppRepo.Library.Counting
import CppRepo.Library.Ranking

/-!
# The socket of a listener

Each listener has one socket for the connections to come. An outstanding `async_accept` writes it,
and `accept` moves it out before it starts the next `async_accept`; the handlers run on any thread.
So there must be no two of them for one listener at a time, and to go on accepting there must be
one. `accept` returns without another `async_accept` when it gets an error, whatever the error is,
or finds the listener closed, and nothing else starts one.

## The count

`hands` counts who has the socket of a listener, the outstanding `async_accept` or the calls of
`accept` that have not moved it out; `losses` counts the calls that return without another
`async_accept`. Their sum does not change, so it is one in every run that begins with one. Both at
once could only come from a second `async_accept`, and no step makes one while there is a first.

**Main result.** One `async_accept` or one call of `accept` has the socket of a listener until one
of them is lost, and none after that (`hands_add_losses`).
-/

namespace CppRepo

namespace AsioFrontend

variable {n : ℕ} {s t : State n} {a : Action n} {l : Fin n} {i : ℕ}

/-- A connection is in a call of `accept` which has not started the next `async_accept` yet. -/
def ConnectionPc.uses (l : Fin n) : ConnectionPc n → Bool
  | .testOpen l' | .move l' | .asyncAccept l' => l' = l
  | _ => false

/-- How many have the socket of `l` in their hands. -/
def hands (l : Fin n) (s : State n) : ℕ :=
  (s.pending l).toNat + s.accepted.countP fun c ↦ c.pc.uses l

/-- In this step `accept` gets an error, or finds the listener closed. -/
def lossCost (l : Fin n) (a : Action n) (s : State n) : ℕ :=
  match a with
  | .refuse l' => if l' = l then 1 else 0
  | .connection i =>
    if (s.accepted[i]?.map Connection.pc) = some (.testOpen l) ∧ s.acceptorOpen l = false then 1
    else 0
  | .accept _ | .stop => 0

/-- How often `accept` does not start the next `async_accept`. -/
def losses (l : Fin n) : List (Action n) → State n → ℕ := spent act (lossCost l)

/-! ## One step

Only the steps of `accept` and the completion of an `async_accept` matter. Where nobody else has the
socket, a step of a connection hands it on or loses it; so the invariant that at most one has it is
carried along with the sum. -/

private theorem next_uses {acceptorOpen pending : Fin n → Bool} {e : Effect n}
    {pc pc' : ConnectionPc n} (h : pc.next acceptorOpen = some (e, pc'))
    (halone : pc.uses l = true → pending l = false) :
    (e.pending pending l).toNat + (pc'.uses l).toNat +
      (if pc = .testOpen l ∧ acceptorOpen l = false then 1 else 0) =
    (pending l).toNat + (pc.uses l).toNat := by
  rcases pc with l' | - | l' | l' | - | - | - | - | - | - | - | - | - | - | - <;>
    simp only [ConnectionPc.next, Option.some.injEq, Prod.mk.injEq, reduceCtorEq] at h
  case testOpen =>
    obtain ⟨rfl, rfl⟩ := h
    rcases eq_or_ne l' l with rfl | hne
    · cases hopen : acceptorOpen l' <;> simp [ConnectionPc.uses, Effect.pending]
    · cases hopen : acceptorOpen l' <;> simp [ConnectionPc.uses, Effect.pending, hne]
  case asyncAccept =>
    obtain ⟨rfl, rfl⟩ := h
    rcases eq_or_ne l' l with rfl | hne
    · have hpending : pending l' = false := halone (by simp [ConnectionPc.uses])
      simp [ConnectionPc.uses, Effect.pending, hpending]
    · simp [ConnectionPc.uses, Effect.pending, hne, Function.update_of_ne hne.symm]
  all_goals
    obtain ⟨rfl, rfl⟩ := h
    simp [ConnectionPc.uses, Effect.pending]

private theorem toNat_update_false {pending : Fin n → Bool} {l' : Fin n} (h : pending l' = true) :
    (Function.update pending l' false l).toNat + (if l' = l then 1 else 0) =
      (pending l).toNat := by
  rcases eq_or_ne l' l with rfl | hne
  · rw [Function.update_self, if_pos rfl, h]
    rfl
  · rw [Function.update_of_ne hne.symm, if_neg hne, Nat.add_zero]

private theorem hands_step (hs : hands l s ≤ 1) (h : act a s = some t) :
    hands l t + lossCost l a s = hands l s := by
  cases a with
  | accept l' =>
    obtain ⟨⟨hpending, -⟩, rfl⟩ := of_ite_some h
    have hupdate := toNat_update_false (l := l) hpending
    simp only [hands, lossCost, List.countP_append, List.countP_singleton, ConnectionPc.uses,
      decide_eq_true_eq]
    omega
  | refuse l' =>
    obtain ⟨hpending, rfl⟩ := of_ite_some h
    have hupdate := toNat_update_false (l := l) hpending
    simp only [hands, lossCost]
    omega
  | connection i =>
    obtain ⟨c, e, pc, mutex, hc, hnext, -, rfl⟩ := connectionStep_eq_some h
    have halone : c.pc.uses l = true → s.pending l = false := by
      intro huses
      have hpos : 0 < s.accepted.countP fun c ↦ c.pc.uses l :=
        List.countP_pos_iff.mpr ⟨c, List.mem_of_getElem? hc, huses⟩
      rw [hands] at hs
      cases hpending : s.pending l with
      | false => rfl
      | true =>
        rw [hpending, Bool.toNat_true] at hs
        omega
    have hcount := countP_set_add (fun c ↦ c.pc.uses l) ⟨pc, e.isOpen c.isOpen⟩ hc
    dsimp only at hcount
    have huses := next_uses hnext halone
    simp only [hands, lossCost, hc, Option.map_some, Option.some.injEq]
    omega
  | stop =>
    have hcount (i : ℕ) : (s.accepted.modify i fun c ↦ { c with isOpen := false }).countP
        (fun c ↦ c.pc.uses l) = s.accepted.countP fun c ↦ c.pc.uses l :=
      countP_modify (f := fun c : Connection n ↦ { c with isOpen := false }) (fun _ ↦ rfl) _ _
    cases stopStep_move h with
    | close =>
      simp only [hands, lossCost, hcount]
      rfl
    | _ => rfl

/-- **The socket of a listener.** As long as no call of `accept` for a listener that waits gets an
error or finds the listener closed, the socket is in the hands of one `async_accept` or one call of
`accept`; after the first such loss it is in nobody's, and the listener accepts no more. This is so
for all the listeners that `init` may leave open or waiting. -/
theorem hands_add_losses (s t : State n) (as : List (Action n)) (l : Fin n)
    (hs : s.accepted = []) (h : execute act as s = some t) :
    hands l t + losses l as s = (s.pending l).toNat := by
  have hinitial : hands l s = (s.pending l).toNat := by
    rw [hands, hs, List.countP_nil, Nat.add_zero]
  have hle : hands l s ≤ 1 := by
    rw [hinitial]
    exact Bool.toNat_le _
  have hstep (a : Action n) (u v : State n) (hu : hands l u ≤ 1) (h : act a u = some v) :
      hands l v ≤ 1 ∧ hands l v + lossCost l a u = hands l u := by
    have heq := hands_step hu h
    exact ⟨by omega, heq⟩
  exact ((rank_add_spent_eq (hands l) (lossCost l) hstep hle h).2).trans hinitial

/-- One listener, which waits. -/
def oneListener : State 1 := { acceptorOpen := fun _ ↦ true, pending := fun _ ↦ true }

/-- It accepts a connection, and then its next `async_accept` fails. -/
def acceptAndFail : List (Action 1) :=
  [.accept (.last 0), .connection 0, .connection 0, .connection 0, .refuse (.last 0),
    .connection 0]

theorem hands_add_losses_acceptAndFail :
    ∃ t, execute act acceptAndFail oneListener = some t ∧
      losses (.last 0) acceptAndFail oneListener = 1 ∧ hands (.last 0) t = 0 := by
  have hs : (execute act acceptAndFail oneListener).any
      (fun _ ↦ losses (.last 0) acceptAndFail oneListener = 1) = true := by decide +kernel
  obtain ⟨t, hrun, hlosses⟩ := exists_of_execute hs
  have heq := hands_add_losses oneListener t acceptAndFail (.last 0) rfl hrun
  rw [hlosses] at heq
  exact ⟨t, hrun, hlosses, Nat.succ.inj heq⟩

end AsioFrontend

end CppRepo
