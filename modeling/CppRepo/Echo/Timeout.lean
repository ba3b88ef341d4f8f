import CppRepo.Echo.Spawn

/-!
# Ten seconds

The timer of a session is never lost: a wait that is over while the timer is set again only makes
the second coroutine look at the time and wait anew. So a session whose client does nothing is
closed when its ten seconds are over, neither before nor after, and then both coroutines end; and a
session whose rounds are all over in time is never closed and returns what it is sent.

## What a session does by itself

The coroutines and the timer go on by themselves for at most ten steps, and then the session is
blocked: only its socket or time can move it on. The bytes that have arrived are no reason for it to
wait, so it is at rest only when it has read them and written them back, too. Each byte that is read
and written may take another round of the loop, and each round wakes the second coroutine, so what a
session does by itself is bounded by `load`: a step of a coroutine is paid by `work`, and what a
round adds to it by the byte that the round takes at least.

## What the clock decides

`IsIdle` follows the session while the socket brings and takes nothing: only the second coroutine
closes it, and only when the time is over. `Serves` follows a session whose rounds are in time: when
the second coroutine is woken, it finds a timer that has not expired.

**Main results.** What a session does by itself ends after a number of steps that is linear in the
bytes it has not yet sent back, and leaves a session that waits for its client and has sent back all
that has arrived, or one that is closed and has ended (`session_comes_to_rest`). An idle session is
open as long as its time is not over (`idle_isOpen_iff`), and one that is served in time always
(`prompt_isOpen`).
-/

namespace CppRepo

namespace SpawnEcho

variable {s t : Session} {a : Action} {as : List Action}

/-! ## What a session does by itself

A step of the first coroutine may wake the second one, whose rank then goes up by one; so the rank
of the first one counts twice. An expired timer makes the second coroutine's wait worth three steps,
since it has to be woken, to look at the time and to end. -/

/-- The steps of a session without its client and without time. -/
def ownAct : Action → Session → Option Session := guarded IsOwn act

/-- Those of them that leave the socket alone. -/
def internalAct : Action → Session → Option Session := guarded IsInternal act

/-- How far the first coroutine is from an operation of the client, and from its end. -/
def EchoPc.rank : EchoPc → ℕ
  | .start | .read (some _) | .written true => 3
  | .reading | .writing _ => 2
  | .read none | .written false => 1
  | .ended => 0

/-- How far the second coroutine is from the next wait, if the timer has expired or not. -/
def WatchPc.rank (expired : Bool) : WatchPc → ℕ
  | .start => 4
  | .waiting => if expired then 3 else 1
  | .woken => 2
  | .ended => 0

/-- The timer has expired. -/
def Session.expired (s : Session) : Bool := decide (s.expiry ≤ s.now)

/-- How much the coroutines can do by themselves. A step of the first one may wake the second. -/
def work (s : Session) : ℕ := 2 * s.echo.rank + s.watch.rank s.expired

/-- How much a session can do by itself. A byte that is read makes two steps, and one that is
written makes two others and may wake the second coroutine. -/
def load (s : Session) : ℕ := work s + 6 * s.input.length + 3 * s.echo.held.length

private theorem rank_cancelWait_le (expired expired' : Bool) (w : WatchPc) :
    (cancelWait w).rank expired' ≤ w.rank expired + 1 := by
  cases w <;> cases expired <;> cases expired' <;> decide

private theorem work_resumeEcho_lt (h : resumeEcho s = some t) : work t < work s := by
  have hwork : work s = 2 * s.echo.rank + s.watch.rank s.expired := rfl
  cases resumeEcho_move h with
  | read he =>
    have hbegin : work (beginRead s) ≤ 4 + (s.watch.rank s.expired + 1) :=
      Nat.add_le_add_left (rank_cancelWait_le _ _ _) 4
    have hrank : s.echo.rank = 3 := by rcases he with he | he <;> rw [he, EchoPc.rank]
    omega
  | @write data he =>
    have hnext : work { s with echo := .writing data } = 4 + s.watch.rank s.expired := rfl
    rw [hnext, hwork, he, EchoPc.rank]
    omega
  | leave he =>
    have hcatch : work (catchException s) ≤ 0 + (s.watch.rank s.expired + 1) :=
      Nat.add_le_add_left (rank_cancelWait_le _ _ _) 0
    have hrank : s.echo.rank = 1 := by rcases he with he | he <;> rw [he, EchoPc.rank]
    omega

private theorem work_resumeWatch_lt (h : resumeWatch s = some t) : work t < work s := by
  cases resumeWatch_move h with
  | start hw =>
    refine Nat.add_lt_add_left ?_ _
    rw [hw]
    change WatchPc.rank s.expired (if s.isOpen then .waiting else .ended) < 4
    cases s.isOpen <;> cases s.expired <;> decide
  | woken hw =>
    refine Nat.add_lt_add_left ?_ _
    rw [hw]
    change WatchPc.rank s.expired
      (if s.isOpen && decide (s.now < s.expiry) then .waiting else .ended) < 2
    have hexpired : decide (s.now < s.expiry) = !s.expired := by
      rw [Session.expired, ← decide_not]
      simp only [not_le]
    rw [hexpired]
    cases s.isOpen <;> cases s.expired <;> decide

private theorem work_fail_lt (h : fail s = some t) : work t < work s := by
  cases fail_move h with
  | read he | write he =>
    refine Nat.add_lt_add_right ?_ _
    rw [he]
    change 2 < 4
    decide

private theorem work_le (s : Session) : work s ≤ 10 := by
  have hecho : s.echo.rank ≤ 3 := by
    rcases s.echo with - | - | (- | data) | rest | (- | -) | - <;> simp [EchoPc.rank]
  have hwatch : s.watch.rank s.expired ≤ 4 := by
    cases s.watch <;> cases s.expired <;> decide
  rw [work]
  omega

private theorem work_lt (h : internalAct a s = some t) : work t < work s := by
  obtain ⟨hinternal, h⟩ := guarded_eq_some.mp h
  rcases hinternal with rfl | rfl | rfl | ⟨rfl, -⟩
  · exact work_resumeEcho_lt h
  · exact work_resumeWatch_lt h
  · obtain ⟨⟨hw, hexpired⟩, rfl⟩ := of_ite_some h
    refine Nat.add_lt_add_left ?_ _
    have hexpired' : s.expired = true := decide_eq_true hexpired
    rw [hw, hexpired']
    change 2 < 3
    decide
  · exact work_fail_lt h

/-- No byte arrives, and none is read, by a coroutine. -/
private theorem held_length_le (h : internalAct a s = some t) :
    t.input = s.input ∧ t.echo.held.length ≤ s.echo.held.length := by
  obtain ⟨hinternal, h⟩ := guarded_eq_some.mp h
  rcases hinternal with rfl | rfl | rfl | ⟨rfl, -⟩
  · cases resumeEcho_move h with
    | read | leave => exact ⟨rfl, Nat.zero_le _⟩
    | write he =>
      refine ⟨rfl, ?_⟩
      rw [he]
      exact le_rfl
  · cases resumeWatch_move h with
    | start | woken => exact ⟨rfl, le_rfl⟩
  · obtain ⟨-, rfl⟩ := of_ite_some h
    exact ⟨rfl, le_rfl⟩
  · cases fail_move h with
    | read | write => exact ⟨rfl, Nat.zero_le _⟩

private theorem load_readSome_lt {n : ℕ} (h : readSome n s = some t) : load t < load s := by
  obtain ⟨⟨he, -, hpos, -, hle⟩, rfl⟩ := of_ite_some h
  simp only [load, work, Session.expired, he, EchoPc.rank, EchoPc.held, List.length_take_of_le hle,
    List.length_drop, List.length_nil]
  omega

private theorem load_writeSome_lt {n : ℕ} (hs : Sound s) (h : writeSome n s = some t) :
    load t < load s := by
  cases writeSome_move h with
  | all he hn =>
    have hpos := List.length_pos_iff.mpr (hs.writing _ he)
    simp only [load, work, Session.expired, he, EchoPc.rank, EchoPc.held, List.length_nil]
    omega
  | some he hpos hlt =>
    simp only [load, work, Session.expired, he, EchoPc.rank, EchoPc.held, List.length_drop]
    omega

/-- With each step of its own a session comes nearer to rest. -/
private theorem load_lt (hs : Sound s) (h : ownAct a s = some t) : load t < load s := by
  have hinternal (h : internalAct a s = some t) : load t < load s := by
    have hwork := work_lt h
    obtain ⟨hinput, hheld⟩ := held_length_le h
    simp only [load, hinput]
    omega
  obtain ⟨hown, hact⟩ := guarded_eq_some.mp h
  cases a with
  | readSome n => exact load_readSome_lt hact
  | writeSome n => exact load_writeSome_lt hs hact
  | tick | arrive | fail | expire | echo | watch =>
    exact hinternal (guarded_eq_some.mpr ⟨hown, hact⟩)

/-! ## Sessions at rest

In a blocked session each coroutine waits for an operation or has ended. If the socket is open none
of them has ended; if it is closed no operation on it is outstanding, since it would fail. -/

/-- A session is open, and both coroutines wait. -/
structure Waits (s : Session) : Prop where
  isOpen : s.isOpen = true
  watch : s.watch = .waiting
  echo : s.echo = .reading ∨ ∃ rest, s.echo = .writing rest
  early : s.now < s.expiry

/-- A session is closed, and both coroutines have ended. -/
structure Ended (s : Session) : Prop where
  isOpen : s.isOpen = false
  watch : s.watch = .ended
  echo : s.echo = .ended

/-- **Blocked sessions.** No session is left half closed, and none waits when it is late. -/
theorem waits_or_ended (hs : Sound s) (hblocked : IsBlocked s) : Waits s ∨ Ended s := by
  have hecho : resumeEcho s = none := hblocked .echo (Or.inl rfl)
  have hwatch : resumeWatch s = none := hblocked .watch (Or.inr (Or.inl rfl))
  have hexpire : expire s = none := hblocked .expire (Or.inr (Or.inr (Or.inl rfl)))
  have hfail (hclosed : s.isOpen = false) : fail s = none :=
    hblocked .fail (Or.inr (Or.inr (Or.inr ⟨rfl, hclosed⟩)))
  have hplace : s.echo = .reading ∨ (∃ rest, s.echo = .writing rest) ∨ s.echo = .ended := by
    rcases he : s.echo with - | - | (- | data) | rest | (- | -) | - <;>
      simp [resumeEcho, he] at hecho ⊢
  have hstarted : s.echo ≠ .start := by
    rcases hplace with h | ⟨rest, h⟩ | h <;> rw [h] <;> exact EchoPc.noConfusion
  rcases hopen : s.isOpen with - | -
  · right
    have hended : s.echo = .ended := by
      rcases hplace with h | ⟨rest, h⟩ | h
      · exact absurd (hfail hopen) (by simp [fail, h])
      · exact absurd (hfail hopen) (by simp [fail, h])
      · exact h
    refine ⟨hopen, ?_, hended⟩
    rcases hw : s.watch
    case start => simp [resumeWatch, hw, hstarted] at hwatch
    case waiting => exact absurd (hs.waiting hw) (by rw [hopen]; decide)
    case woken => simp [resumeWatch, hw] at hwatch
    case ended => rfl
  · left
    have hwaiting : s.watch = .waiting := by
      rcases hw : s.watch
      case start => simp [resumeWatch, hw, hstarted] at hwatch
      case waiting => rfl
      case woken => simp [resumeWatch, hw] at hwatch
      case ended => exact absurd (hs.watchEnded hw) (by rw [hopen]; decide)
    refine ⟨hopen, hwaiting, ?_, ?_⟩
    · rcases hplace with h | h | h
      · exact Or.inl h
      · exact Or.inr h
      · exact absurd (hs.echoEnded h) (by rw [hopen]; decide)
    · by_contra hlate
      simp [expire, hwaiting, not_lt.mp hlate] at hexpire

private theorem AtRest.isBlocked (hrest : AtRest s) : IsBlocked s := by
  intro a hinternal
  cases a with
  | readSome | writeSome => exact hrest _ trivial
  | tick | arrive | fail | expire | echo | watch => exact hrest _ hinternal

/-- **Sessions at rest.** One that is open has sent back all that has arrived. -/
theorem served_or_ended (hs : Sound s) (hrest : AtRest s) :
    (Waits s ∧ s.echo = .reading ∧ s.sent = s.arrived) ∨ Ended s := by
  refine (waits_or_ended hs hrest.isBlocked).imp_left fun hwaits ↦ ?_
  rcases hwaits.echo with he | ⟨rest, he⟩
  · have hread : readSome 1 s = none := hrest (.readSome 1) trivial
    have hinput : s.input = [] := by
      by_contra hne
      have hpos := List.length_pos_iff.mpr hne
      rw [readSome, if_pos ⟨he, hwaits.isOpen, Nat.one_pos, by decide, hpos⟩] at hread
      exact Option.some_ne_none _ hread
    refine ⟨hwaits, he, ?_⟩
    rw [hs.arrived, hs.dropped (by rw [he]; rfl), he, hinput]
    simp only [EchoPc.held, List.append_nil]
  · have hwrite : writeSome 1 s = none := hrest (.writeSome 1) trivial
    have hempty : rest = [] := by simpa [writeSome, he, hwaits.isOpen] using hwrite
    exact absurd hempty (hs.writing rest he)

/-- **A session comes to rest.** It sends back a beginning of what has arrived. Its coroutines and
its timer go on by themselves for ten steps at most; what it does without its client and without
time, reading and writing back what has arrived, ends after a number of steps that is bounded by the
bytes it has to read and to write back. At the end it is at rest: it waits for its client, has sent
back all that has arrived and is not late, or it has ended. -/
theorem session_comes_to_rest (s : Session) (hs : Reachable IsInitial Step s) :
    s.sent <+: s.arrived ∧
      (∀ as t, execute internalAct as s = some t → as.length ≤ 10) ∧
      (∀ as t, execute ownAct as s = some t →
        as.length ≤ 10 + 6 * s.input.length + 3 * s.echo.held.length ∧
          (AtRest t → (Waits t ∧ t.echo = .reading ∧ t.sent = t.arrived) ∨ Ended t)) ∧
      ∃ as t, execute ownAct as s = some t ∧ AtRest t := by
  have hsound := Sound.of_reachable hs
  have hwork := work_le s
  have hstep (a : Action) (s t : Session) (hs : Sound s) (h : ownAct a s = some t) :
      Sound t ∧ load t < load s := ⟨hs.act (guarded_eq_some.mp h).2, load_lt hs h⟩
  refine ⟨?_, fun as t h ↦ ?_, fun as t h ↦ ⟨?_, ?_⟩, ?_⟩
  · rw [hsound.arrived, List.append_assoc, List.append_assoc]
    exact List.prefix_append _ _
  · have hle := (rank_add_length_le work (fun a s t (_ : True) h ↦ ⟨trivial, work_lt h⟩)
      trivial h).2
    omega
  · have hle := (rank_add_length_le load hstep hsound h).2
    simp only [load] at hle
    omega
  · exact served_or_ended (rank_add_length_le load hstep hsound h).1
  · obtain ⟨as, t, h, hnone⟩ := exists_execute_rest load hstep hsound
    refine ⟨as, t, h, fun a hown ↦ ?_⟩
    have ha := hnone a
    rwa [ownAct, guarded, if_pos hown] at ha

/-- Three bytes have arrived, and only one of them was read. -/
def burst : List Action :=
  [.echo, .watch, .arrive [65, 66], .readSome 1, .echo, .arrive [67]]

theorem session_comes_to_rest_burst :
    ∃ s, Reachable IsInitial Step s ∧ s.input = [66, 67] ∧ s.echo.held = [65] ∧
      (∀ as t, execute ownAct as s = some t → as.length ≤ 25) ∧
      ∃ as t, execute ownAct as s = some t ∧ AtRest t := by
  have hs : (execute act burst { now := 5 }).any
      (fun s ↦ s.input = [66, 67] ∧ s.echo.held = [65]) = true := by decide +kernel
  obtain ⟨s, hrun, hinput, hheld⟩ := exists_of_execute hs
  have hreach : Reachable IsInitial Step s := reachable_of_execute (.start ⟨5, rfl⟩) hrun
  obtain ⟨-, -, hbound, hrest⟩ := session_comes_to_rest s hreach
  refine ⟨s, hreach, hinput, hheld, fun as t h ↦ ?_, hrest⟩
  have hle := (hbound as t h).1
  rw [hinput, hheld] at hle
  exact hle

/-! ## A client that does nothing

The timer's expiry does not change while the first coroutine waits. Waking the second one early
does no harm, as it finds the time not over; waking it late closes the socket, and this is the
only way. -/

/-- The client does nothing, and the socket brings and takes nothing, but time may pass. -/
def WithoutClient (a : Action) (s : Session) : Prop :=
  match a with
  | .tick _ => True
  | _ => IsInternal a s

instance (a : Action) (s : Session) : Decidable (WithoutClient a s) :=
  match a with
  | .tick _ => .isTrue trivial
  | .arrive _ | .readSome _ | .writeSome _ | .fail | .expire | .echo | .watch =>
    inferInstanceAs (Decidable (IsInternal _ _))

/-- The session waits until `expiry`, or it was closed then. -/
def IsIdle (expiry : ℕ) (s : Session) : Prop :=
  s.isOpen = true ∧ s.expiry = expiry ∧ (s.echo = .reading ∨ ∃ rest, s.echo = .writing rest) ∨
    s.isOpen = false ∧ expiry ≤ s.now

private theorem act_isOpen (h : act a s = some t) :
    (s.isOpen = false → t.isOpen = false) ∧ s.now ≤ t.now := by
  cases a with
  | tick d =>
    obtain rfl := Option.some_inj.mp h
    exact ⟨id, Nat.le_add_right _ _⟩
  | arrive data =>
    obtain rfl := Option.some_inj.mp h
    exact ⟨id, le_rfl⟩
  | readSome n | expire =>
    obtain ⟨-, rfl⟩ := of_ite_some h
    exact ⟨id, le_rfl⟩
  | writeSome n =>
    cases writeSome_move h with
    | all | some => exact ⟨id, le_rfl⟩
  | fail =>
    cases fail_move h with
    | read | write => exact ⟨id, le_rfl⟩
  | echo =>
    cases resumeEcho_move h with
    | read | write => exact ⟨id, le_rfl⟩
    | leave => exact ⟨fun _ ↦ rfl, le_rfl⟩
  | watch =>
    cases resumeWatch_move h with
    | start => exact ⟨id, le_rfl⟩
    | woken => exact ⟨fun hclosed ↦ Bool.and_eq_false_iff.mpr (Or.inl hclosed), le_rfl⟩

theorem IsIdle.step {expiry : ℕ} (hidle : IsIdle expiry s)
    (h : guarded WithoutClient act a s = some t) : IsIdle expiry t := by
  obtain ⟨hguard, h⟩ := guarded_eq_some.mp h
  obtain ⟨hstays, hnow⟩ := act_isOpen h
  rcases hidle with ⟨hopen, hexpiry, hecho⟩ | ⟨hclosed, hle⟩
  · cases a with
    | tick d =>
      obtain rfl := Option.some_inj.mp h
      exact Or.inl ⟨hopen, hexpiry, hecho⟩
    | echo =>
      rcases hecho with he | ⟨rest, he⟩ <;> simp [act, resumeEcho, he] at h
    | watch =>
      cases resumeWatch_move h with
      | start => exact Or.inl ⟨hopen, hexpiry, hecho⟩
      | woken =>
        by_cases hearly : s.now < s.expiry
        · refine Or.inl ⟨?_, hexpiry, hecho⟩
          exact Bool.and_eq_true_iff.mpr ⟨hopen, decide_eq_true hearly⟩
        · refine Or.inr ⟨?_, hexpiry ▸ not_lt.mp hearly⟩
          exact Bool.and_eq_false_iff.mpr (Or.inr (decide_eq_false hearly))
    | expire =>
      obtain ⟨-, rfl⟩ := of_ite_some h
      exact Or.inl ⟨hopen, hexpiry, hecho⟩
    | fail | arrive | readSome | writeSome => simp [WithoutClient, IsInternal, hopen] at hguard
  · exact Or.inr ⟨hstays hclosed, hle.trans hnow⟩

/-- Each round is over in ten seconds, and no operation fails while the socket is open. -/
def IsPrompt (a : Action) (s : Session) : Prop :=
  match a with
  | .tick d => s.echo = .start ∨ s.now + d < s.expiry
  | .fail => s.isOpen = false
  | _ => True

instance (a : Action) (s : Session) : Decidable (IsPrompt a s) :=
  match a with
  | .tick _ => inferInstanceAs (Decidable (_ ∨ _))
  | .fail => inferInstanceAs (Decidable (_ = _))
  | .arrive _ | .readSome _ | .writeSome _ | .expire | .echo | .watch => .isTrue trivial

/-- The first coroutine has met no error. -/
def EchoPc.isServing : EchoPc → Bool
  | .read none | .written false | .ended => false
  | _ => true

private theorem EchoPc.not_hasFailed {pc : EchoPc} (h : pc.isServing = true) :
    pc.hasFailed = false := by
  rcases pc with - | - | (- | data) | rest | (- | -) | - <;>
    first | rfl | exact absurd h Bool.false_ne_true

/-- The session is open and serves. -/
structure Serves (s : Session) : Prop where
  sound : Sound s
  isOpen : s.isOpen = true
  echo : s.echo.isServing = true
  early : s.echo = .start ∨ s.now < s.expiry

namespace Serves

theorem beginRead (hs : Serves s) (hsound : Sound (beginRead s)) :
    Serves (SpawnEcho.beginRead s) :=
  ⟨hsound, hs.isOpen, rfl, Or.inr (Nat.lt_add_of_pos_right (by decide))⟩

private theorem now_lt (hs : Serves s) (hstart : s.echo ≠ .start) : s.now < s.expiry :=
  hs.early.resolve_left hstart

theorem step (hs : Serves s) (h : guarded IsPrompt act a s = some t) : Serves t := by
  obtain ⟨hguard, h⟩ := guarded_eq_some.mp h
  have ht : Sound t := hs.sound.act h
  have hserving := hs.echo
  cases a with
  | tick d =>
    obtain rfl := Option.some_inj.mp h
    exact ⟨ht, hs.isOpen, hs.echo, hguard⟩
  | arrive data =>
    obtain rfl := Option.some_inj.mp h
    exact ⟨ht, hs.isOpen, hs.echo, hs.early⟩
  | readSome n =>
    obtain ⟨⟨he, -⟩, rfl⟩ := of_ite_some h
    exact ⟨ht, hs.isOpen, rfl, Or.inr (hs.now_lt (by rw [he]; exact EchoPc.noConfusion))⟩
  | writeSome n =>
    cases writeSome_move h with
    | all he | some he =>
      exact ⟨ht, hs.isOpen, rfl, Or.inr (hs.now_lt (by rw [he]; exact EchoPc.noConfusion))⟩
  | fail => exact Bool.noConfusion (hs.isOpen.symm.trans hguard)
  | expire =>
    obtain ⟨-, rfl⟩ := of_ite_some h
    exact ⟨ht, hs.isOpen, hs.echo, hs.early⟩
  | echo =>
    cases resumeEcho_move h with
    | read => exact hs.beginRead ht
    | write he =>
      exact ⟨ht, hs.isOpen, rfl, Or.inr (hs.now_lt (by rw [he]; exact EchoPc.noConfusion))⟩
    | leave he => rcases he with he | he <;> rw [he] at hserving <;> exact Bool.noConfusion hserving
  | watch =>
    cases resumeWatch_move h with
    | start => exact ⟨ht, hs.isOpen, hs.echo, hs.early⟩
    | woken hw =>
      have hearly : s.now < s.expiry := hs.now_lt fun he ↦
        WatchPc.noConfusion (hw.symm.trans (hs.sound.start he).1)
      exact ⟨ht, Bool.and_eq_true_iff.mpr ⟨hs.isOpen, decide_eq_true hearly⟩, hs.echo,
        Or.inr hearly⟩

end Serves

/-- **A session that is served in time.** It is never closed, its coroutines go on, and nothing is
lost: what has arrived is what was sent back, what is about to be, and what was not read yet. -/
theorem prompt_isOpen (s : Session) (hs : Reachable IsInitial (Acts (guarded IsPrompt act)) s) :
    s.isOpen = true ∧ s.watch ≠ .ended ∧ s.echo.isServing = true ∧
      s.arrived = s.sent ++ s.echo.held ++ s.input := by
  have hserves : Serves s := by
    apply hs.invariant
    · rintro s ⟨now, rfl⟩
      exact ⟨Sound.initial now, rfl, rfl, Or.inl rfl⟩
    · rintro s t - hserves ⟨a, ha⟩
      exact hserves.step ha
  have harrived := hserves.sound.arrived
  have hdropped : s.dropped = [] := hserves.sound.dropped (EchoPc.not_hasFailed hserves.echo)
  rw [hdropped, List.append_nil] at harrived
  refine ⟨hserves.isOpen, fun hended ↦ ?_, hserves.echo, harrived⟩
  exact Bool.noConfusion ((hserves.sound.watchEnded hended).symm.trans hserves.isOpen)

/-- Two rounds, each of them nine seconds long, with a timer that was set again in between. -/
def twoRounds : List Action :=
  [.echo, .watch, .tick (seconds 9), .arrive [65, 66], .readSome 2, .echo, .writeSome 2, .echo,
    .watch, .tick (seconds 9), .arrive [67], .readSome 1, .echo]

theorem prompt_isOpen_twoRounds :
    ∃ s : Session, s.now = 5 + seconds 18 ∧ s.sent = [65, 66] ∧ s.isOpen = true ∧
      s.arrived = s.sent ++ s.echo.held ++ s.input := by
  have hs : (execute (guarded IsPrompt act) twoRounds { now := 5 }).any
      (fun s ↦ s.now = 5 + seconds 18 ∧ s.sent = [65, 66]) = true := by decide +kernel
  obtain ⟨s, hrun, hnow, hsent⟩ := exists_of_execute hs
  obtain ⟨hopen, -, -, harrived⟩ := prompt_isOpen s (reachable_of_execute (.start ⟨5, rfl⟩) hrun)
  exact ⟨s, hnow, hsent, hopen, harrived⟩

end SpawnEcho

end CppRepo
