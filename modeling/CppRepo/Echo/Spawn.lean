import CppRepo.Library.Ranking
import CppRepo.Library.Text

/-!
# The echo server with a timer

A session has two coroutines. The first one reads what the client sends and writes it back, and sets
the timer to ten seconds before each read. The second one waits for the timer; setting the timer
wakes it too, so when it is woken it looks at the time, and closes the socket if it is late. The
first coroutine learns from the error of its operation that the socket was closed, and the second
one from `is_open`, after the first one has cancelled its wait.

One thread runs both coroutines, so what one of them does between two operations is one step. An
operation that is over makes its coroutine ready, and time may pass before it is resumed. The socket
is given by what it does: a read takes some of the bytes that have arrived, a write sends some of
those that are left, either of them may fail, and it fails if the socket is closed. That `close`
throws is left out.

## Who moves a session on

Three kinds of actions are told apart, because the results are about runs without some of them. The
coroutines, the timer and the failing of operations on a closed socket are internal. A session's own
actions are these, and the reading and writing of bytes that have arrived. The rest is the client's,
or time.
-/

namespace CppRepo

namespace SpawnEcho

/-! ## The session

The two program counters name the operation that a coroutine waits for, or that has just ended. The
bytes that a session has seen are kept in four lists, and an invariant says how they make up what
has arrived. -/

/-- Where the first coroutine is. -/
inductive EchoPc
  | start
  /-- `async_read_some` is outstanding. -/
  | reading
  /-- It is over, with these bytes or with an error. -/
  | read (data : Option Bytes)
  /-- `async_write` is outstanding, with these bytes still to be written. -/
  | writing (rest : Bytes)
  /-- It is over, without an error or with one. -/
  | written (ok : Bool)
  | ended
  deriving DecidableEq

/-- Where the second coroutine is. -/
inductive WatchPc
  | start
  /-- `async_wait` is outstanding. -/
  | waiting
  /-- It is over. -/
  | woken
  | ended
  deriving DecidableEq

/-- A session, its clock and its client. -/
structure Session where
  /-- The time, in nanoseconds. -/
  now : ℕ
  /-- `socket_.is_open()` -/
  isOpen : Bool := true
  /-- When `timer_` expires. A timer that was never set has expired. -/
  expiry : ℕ := 0
  echo : EchoPc := .start
  watch : WatchPc := .start
  /-- What has arrived and was not read. -/
  input : Bytes := []
  /-- What was written. -/
  sent : Bytes := []
  /-- All that has arrived. -/
  arrived : Bytes := []
  /-- What was read and then not written, because the write failed. -/
  dropped : Bytes := []

def IsInitial (s : Session) : Prop := ∃ now, s = { now }

def seconds (n : ℕ) : ℕ := n * 1000000000

/-- `sizeof data` -/
def maxLength : ℕ := 128

/-! ## The members

A member is what a coroutine does from one operation to the next. Both coroutines use the timer:
setting it cancels a wait that is outstanding, which is then over with an error that nobody looks
at. -/

/-- A wait that is outstanding is over. -/
def cancelWait (w : WatchPc) : WatchPc := if w = .waiting then .woken else w

/-- The loop from its beginning to the read: `timer_.expires_from_now(std::chrono::seconds(10))`,
which cancels the wait. -/
def beginRead (s : Session) : Session :=
  { s with expiry := s.now + seconds 10, watch := cancelWait s.watch, echo := .reading }

/-- The exception handler. -/
def catchException (s : Session) : Session :=
  { s with isOpen := false, watch := cancelWait s.watch, echo := .ended }

/-- The first coroutine is resumed. -/
def resumeEcho (s : Session) : Option Session :=
  match s.echo with
  | .start => some (beginRead s)
  | .read (some data) => some { s with echo := .writing data }
  | .read none => some (catchException s)
  | .written true => some (beginRead s)
  | .written false => some (catchException s)
  | .reading | .writing _ | .ended => none

/-- `while (socket_.is_open())`, and `async_wait` -/
def watchLoop (s : Session) : Session :=
  { s with watch := if s.isOpen then .waiting else .ended }

/-- The second coroutine is resumed. It is spawned after the first one. -/
def resumeWatch (s : Session) : Option Session :=
  match s.watch with
  | .start => if s.echo = .start then none else some (watchLoop s)
  | .woken => some (watchLoop { s with isOpen := s.isOpen && decide (s.now < s.expiry) })
  | .waiting | .ended => none

/-! ## The operations

An operation ends with some of its bytes or with an error. For a closed socket only the error is
left; the timer expires when its time has come, and then its wait is over. -/

/-- `async_read_some` takes `n` bytes. -/
def readSome (n : ℕ) (s : Session) : Option Session :=
  if s.echo = .reading ∧ s.isOpen = true ∧ 0 < n ∧ n ≤ maxLength ∧ n ≤ s.input.length then
    some { s with echo := .read (some (s.input.take n)), input := s.input.drop n }
  else none

/-- `async_write` writes `n` bytes, and is over when none is left. -/
def writeSome (n : ℕ) (s : Session) : Option Session :=
  match s.echo with
  | .writing rest =>
    if s.isOpen = true ∧ 0 < n ∧ n ≤ rest.length then
      some { s with
        sent := s.sent ++ rest.take n
        echo := if n = rest.length then .written true else .writing (rest.drop n) }
    else none
  | _ => none

/-- The outstanding operation on the socket fails. -/
def fail (s : Session) : Option Session :=
  match s.echo with
  | .reading => some { s with echo := .read none }
  | .writing rest => some { s with echo := .written false, dropped := rest }
  | _ => none

/-- The timer expires. -/
def expire (s : Session) : Option Session :=
  if s.watch = .waiting ∧ s.expiry ≤ s.now then some { s with watch := .woken } else none

/-- What happens. -/
inductive Action
  | tick (d : ℕ)
  | arrive (data : Bytes)
  | readSome (n : ℕ)
  | writeSome (n : ℕ)
  | fail
  | expire
  | echo
  | watch
  deriving DecidableEq

def act : Action → Session → Option Session
  | .tick d, s => some { s with now := s.now + d }
  | .arrive data, s => some { s with input := s.input ++ data, arrived := s.arrived ++ data }
  | .readSome n, s => readSome n s
  | .writeSome n, s => writeSome n s
  | .fail, s => fail s
  | .expire, s => expire s
  | .echo, s => resumeEcho s
  | .watch, s => resumeWatch s

/-- A step of a session. -/
def Step : Session → Session → Prop := Acts act

/-- What takes neither the client nor time nor what the socket holds: coroutines are resumed, the
timer expires, and the operations on a closed socket fail. -/
def IsInternal (a : Action) (s : Session) : Prop :=
  a = .echo ∨ a = .watch ∨ a = .expire ∨ a = .fail ∧ s.isOpen = false

instance (a : Action) (s : Session) : Decidable (IsInternal a s) :=
  inferInstanceAs (Decidable (_ ∨ _ ∨ _ ∨ _ ∧ _))

/-- The session goes on only if its socket brings or takes something, or time passes. -/
def IsBlocked (s : Session) : Prop := ∀ a, IsInternal a s → act a s = none

/-- What happens without the client and without time. What has arrived is read and written back. -/
def IsOwn (a : Action) (s : Session) : Prop :=
  match a with
  | .readSome _ | .writeSome _ => True
  | _ => IsInternal a s

instance (a : Action) (s : Session) : Decidable (IsOwn a s) :=
  match a with
  | .readSome _ | .writeSome _ => .isTrue trivial
  | .tick _ | .arrive _ | .fail | .expire | .echo | .watch =>
    inferInstanceAs (Decidable (IsInternal _ _))

/-- Nothing is left to be done before the client does something or time passes: the coroutines
wait, and there is nothing to be read or to be written back. -/
def AtRest (s : Session) : Prop := ∀ a, IsOwn a s → act a s = none

/-! ## What a step does

What a coroutine or an operation does depends on where the coroutine is. The cases are listed here,
each with the places it starts from, and all that is shown of a step goes through them. -/

variable {s t : Session} {a : Action} {n : ℕ}

/-- The first coroutine is resumed where an operation is over, or at its start. -/
inductive EchoMove (s : Session) : Session → Prop
  | read (he : s.echo = .start ∨ s.echo = .written true) : EchoMove s (beginRead s)
  | write {data : Bytes} (he : s.echo = .read (some data)) :
      EchoMove s { s with echo := .writing data }
  | leave (he : s.echo = .read none ∨ s.echo = .written false) : EchoMove s (catchException s)

theorem resumeEcho_move (h : resumeEcho s = some t) : EchoMove s t := by
  rcases he : s.echo with - | - | (- | data) | rest | (- | -) | - <;>
    simp only [resumeEcho, he, Option.some.injEq, reduceCtorEq] at h <;> subst h
  case start => exact .read (Or.inl he)
  case read.none => exact .leave (Or.inl he)
  case read.some => exact .write he
  case written.false => exact .leave (Or.inr he)
  case written.true => exact .read (Or.inr he)

/-- The second coroutine is resumed. It starts only after the first one. -/
inductive WatchMove (s : Session) : Session → Prop
  | start (hw : s.watch = .start) (he : s.echo ≠ .start) : WatchMove s (watchLoop s)
  | woken (hw : s.watch = .woken) :
      WatchMove s (watchLoop { s with isOpen := s.isOpen && decide (s.now < s.expiry) })

theorem resumeWatch_move (h : resumeWatch s = some t) : WatchMove s t := by
  rcases hw : s.watch <;>
    simp only [resumeWatch, hw, Option.some.injEq, Option.ite_none_left_eq_some,
      reduceCtorEq] at h
  case start =>
    obtain ⟨he, rfl⟩ := h
    exact .start hw he
  case woken => exact h ▸ .woken hw

/-- A write takes all of its bytes, or some of them. -/
inductive WriteMove (n : ℕ) (s : Session) : Session → Prop
  | all {rest : Bytes} (he : s.echo = .writing rest) (hn : n = rest.length) :
      WriteMove n s { s with sent := s.sent ++ rest, echo := .written true }
  | some {rest : Bytes} (he : s.echo = .writing rest) (hpos : 0 < n) (hlt : n < rest.length) :
      WriteMove n s { s with sent := s.sent ++ rest.take n, echo := .writing (rest.drop n) }

theorem writeSome_move (h : writeSome n s = some t) : WriteMove n s t := by
  rcases he : s.echo with - | - | data | rest | ok | - <;>
    simp only [writeSome, he, reduceCtorEq] at h
  obtain ⟨⟨-, hpos, hle⟩, rfl⟩ := of_ite_some h
  by_cases hn : n = rest.length
  · rw [if_pos hn, hn, List.take_length]
    exact .all he rfl
  · rw [if_neg hn]
    exact .some he hpos (lt_of_le_of_ne hle hn)

/-- The bytes of a write that fails are lost. -/
inductive FailMove (s : Session) : Session → Prop
  | read (he : s.echo = .reading) : FailMove s { s with echo := .read none }
  | write {rest : Bytes} (he : s.echo = .writing rest) :
      FailMove s { s with echo := .written false, dropped := rest }

theorem fail_move (h : fail s = some t) : FailMove s t := by
  rcases he : s.echo with - | - | data | rest | ok | - <;>
    simp only [fail, he, Option.some.injEq, reduceCtorEq] at h <;> subst h
  case reading => exact .read he
  case writing => exact .write he

/-! ## The invariant

The fields on the bytes are about the first coroutine, those on the places about both. A coroutine
that has ended means a closed socket; and a wait that is outstanding means an open one, as closing
it from the first coroutine cancels the wait, and the second one closes it only when it is not
waiting. -/

/-- What was read and is not yet written. -/
def EchoPc.held : EchoPc → Bytes
  | .read (some data) => data
  | .writing rest => rest
  | _ => []

/-- A write has failed. -/
def EchoPc.hasFailed : EchoPc → Bool
  | .written false | .ended => true
  | _ => false

/-- What holds in each state of a session. A socket that is closed wakes its second coroutine. -/
structure Sound (s : Session) : Prop where
  arrived : s.arrived = s.sent ++ s.echo.held ++ s.dropped ++ s.input
  dropped : s.echo.hasFailed = false → s.dropped = []
  writing : ∀ rest, s.echo = .writing rest → rest ≠ []
  read : ∀ data, s.echo = .read (some data) → data ≠ [] ∧ data.length ≤ maxLength
  start : s.echo = .start → s.watch = .start ∧ s.isOpen = true
  echoEnded : s.echo = .ended → s.isOpen = false
  watchEnded : s.watch = .ended → s.isOpen = false
  waiting : s.watch = .waiting → s.isOpen = true
  expiry : s.expiry ≤ s.now + seconds 10

private theorem cancelWait_ne_waiting (w : WatchPc) : cancelWait w ≠ .waiting := by
  cases w <;> decide

private theorem cancelWait_eq_ended_iff {w : WatchPc} : cancelWait w = .ended ↔ w = .ended := by
  cases w <;> decide

namespace Sound

theorem initial (now : ℕ) : Sound { now } := by
  refine ⟨rfl, fun _ ↦ rfl, ?_, ?_, fun _ ↦ ⟨rfl, rfl⟩, ?_, ?_, ?_, Nat.zero_le _⟩
  all_goals simp

theorem beginRead (hs : Sound s) (hheld : s.echo.held = []) (hok : s.echo.hasFailed = false) :
    Sound (beginRead s) := by
  constructor
  case arrived =>
    have harrived := hs.arrived
    rw [hheld] at harrived
    exact harrived
  case dropped => exact fun _ ↦ hs.dropped hok
  case writing => exact fun _ h ↦ EchoPc.noConfusion h
  case read => exact fun _ h ↦ EchoPc.noConfusion h
  case start => exact fun h ↦ EchoPc.noConfusion h
  case echoEnded => exact fun h ↦ EchoPc.noConfusion h
  case watchEnded => exact fun h ↦ hs.watchEnded (cancelWait_eq_ended_iff.mp h)
  case waiting => exact fun h ↦ absurd h (cancelWait_ne_waiting _)
  case expiry => exact le_rfl

theorem catchException (hs : Sound s) (hheld : s.echo.held = []) : Sound (catchException s) := by
  constructor
  case arrived =>
    have harrived := hs.arrived
    rw [hheld] at harrived
    exact harrived
  case dropped => exact fun h ↦ Bool.noConfusion h
  case writing => exact fun _ h ↦ EchoPc.noConfusion h
  case read => exact fun _ h ↦ EchoPc.noConfusion h
  case start => exact fun h ↦ EchoPc.noConfusion h
  case echoEnded => exact fun _ ↦ rfl
  case watchEnded => exact fun _ ↦ rfl
  case waiting => exact fun h ↦ absurd h (cancelWait_ne_waiting _)
  case expiry => exact hs.expiry

theorem resumeEcho (hs : Sound s) (h : resumeEcho s = some t) : Sound t := by
  cases resumeEcho_move h with
  | read he =>
    rcases he with he | he
    · exact hs.beginRead (by rw [he]; rfl) (by rw [he]; rfl)
    · exact hs.beginRead (by rw [he]; rfl) (by rw [he]; rfl)
  | @write data he =>
    have harrived := hs.arrived
    rw [he] at harrived
    refine ⟨harrived, fun _ ↦ hs.dropped (by rw [he]; rfl), fun rest hrest ↦ ?_, ?_, ?_, ?_,
      hs.watchEnded, hs.waiting, hs.expiry⟩
    · exact EchoPc.writing.inj hrest ▸ (hs.read data he).1
    all_goals simp
  | leave he =>
    rcases he with he | he
    · exact hs.catchException (by rw [he]; rfl)
    · exact hs.catchException (by rw [he]; rfl)

theorem watchLoop (hs : Sound s) (hstart : s.echo ≠ .start) : Sound (watchLoop s) := by
  refine ⟨hs.arrived, hs.dropped, hs.writing, hs.read, fun h ↦ absurd h hstart, hs.echoEnded,
    fun h ↦ ?_, fun h ↦ ?_, hs.expiry⟩
  · simp only [SpawnEcho.watchLoop] at h ⊢
    split at h
    · exact WatchPc.noConfusion h
    · exact Bool.eq_false_iff.mpr ‹_›
  · simp only [SpawnEcho.watchLoop] at h ⊢
    split at h
    · assumption
    · exact WatchPc.noConfusion h

theorem resumeWatch (hs : Sound s) (h : resumeWatch s = some t) : Sound t := by
  cases resumeWatch_move h with
  | start _ he => exact hs.watchLoop he
  | woken hw =>
    have hstart : s.echo ≠ .start := fun he ↦ WatchPc.noConfusion (hw.symm.trans (hs.start he).1)
    refine watchLoop ?_ hstart
    refine ⟨hs.arrived, hs.dropped, hs.writing, hs.read, fun h ↦ absurd h hstart, fun h ↦ ?_,
      fun h ↦ ?_, fun h ↦ ?_, hs.expiry⟩
    · rw [hs.echoEnded h, Bool.false_and]
    · exact WatchPc.noConfusion (hw.symm.trans h)
    · exact WatchPc.noConfusion (hw.symm.trans h)

theorem readSome (hs : Sound s) (h : readSome n s = some t) : Sound t := by
  obtain ⟨⟨he, hopen, hpos, hmax, hle⟩, rfl⟩ := of_ite_some h
  have harrived := hs.arrived
  have hdropped : s.dropped = [] := hs.dropped (by rw [he]; rfl)
  rw [he, hdropped] at harrived
  refine ⟨?_, fun _ ↦ hdropped, ?_, fun data hdata ↦ ?_, ?_, ?_, hs.watchEnded, hs.waiting,
    hs.expiry⟩
  · rw [harrived, hdropped]
    simp only [EchoPc.held, List.append_nil, List.append_assoc, List.take_append_drop]
  · simp
  · obtain rfl := Option.some.inj (EchoPc.read.inj hdata)
    rw [← List.length_pos_iff, List.length_take_of_le hle]
    exact ⟨hpos, hmax⟩
  · simp
  · simp

theorem writeSome (hs : Sound s) (h : writeSome n s = some t) : Sound t := by
  have harrived := hs.arrived
  cases writeSome_move h with
  | @all rest he hn =>
    have hdropped : s.dropped = [] := hs.dropped (by rw [he]; rfl)
    rw [he, hdropped] at harrived
    refine ⟨?_, fun _ ↦ hdropped, ?_, ?_, ?_, ?_, hs.watchEnded, hs.waiting, hs.expiry⟩
    · rw [harrived, hdropped]
      simp only [EchoPc.held, List.append_nil]
    all_goals simp
  | @some rest he hpos hlt =>
    have hdropped : s.dropped = [] := hs.dropped (by rw [he]; rfl)
    rw [he, hdropped] at harrived
    refine ⟨?_, fun _ ↦ hdropped, fun rest' hrest ↦ ?_, ?_, ?_, ?_, hs.watchEnded, hs.waiting,
      hs.expiry⟩
    · rw [harrived, hdropped]
      simp only [EchoPc.held, List.append_nil, List.append_assoc]
      rw [← List.append_assoc (rest.take n), List.take_append_drop]
    · obtain rfl := EchoPc.writing.inj hrest
      rw [← List.length_pos_iff, List.length_drop]
      omega
    all_goals simp

theorem fail (hs : Sound s) (h : fail s = some t) : Sound t := by
  have harrived := hs.arrived
  cases fail_move h with
  | read he =>
    have hdropped : s.dropped = [] := hs.dropped (by rw [he]; rfl)
    rw [he, hdropped] at harrived
    refine ⟨?_, fun _ ↦ hdropped, ?_, ?_, ?_, ?_, hs.watchEnded, hs.waiting, hs.expiry⟩
    · rw [harrived, hdropped]
      rfl
    all_goals simp
  | write he =>
    have hdropped : s.dropped = [] := hs.dropped (by rw [he]; rfl)
    rw [he, hdropped] at harrived
    refine ⟨?_, fun h ↦ Bool.noConfusion h, ?_, ?_, ?_, ?_, hs.watchEnded, hs.waiting, hs.expiry⟩
    · rw [harrived]
      simp [EchoPc.held]
    all_goals simp

/-- **One step.** -/
theorem act (hs : Sound s) (h : act a s = some t) : Sound t := by
  cases a with
  | tick d =>
    obtain rfl := Option.some_inj.mp h
    refine ⟨hs.arrived, hs.dropped, hs.writing, hs.read, hs.start, hs.echoEnded, hs.watchEnded,
      hs.waiting, hs.expiry.trans ?_⟩
    exact Nat.add_le_add_right (Nat.le_add_right _ _) _
  | arrive data =>
    obtain rfl := Option.some_inj.mp h
    refine ⟨?_, hs.dropped, hs.writing, hs.read, hs.start, hs.echoEnded, hs.watchEnded,
      hs.waiting, hs.expiry⟩
    rw [hs.arrived, List.append_assoc]
  | readSome n => exact hs.readSome h
  | writeSome n => exact hs.writeSome h
  | fail => exact hs.fail h
  | expire =>
    obtain ⟨⟨hw, -⟩, rfl⟩ := of_ite_some h
    refine ⟨hs.arrived, hs.dropped, hs.writing, hs.read, fun he ↦ ?_, hs.echoEnded, ?_, ?_,
      hs.expiry⟩
    · exact WatchPc.noConfusion (hw.symm.trans (hs.start he).1)
    all_goals exact fun h ↦ WatchPc.noConfusion h
  | echo => exact hs.resumeEcho h
  | watch => exact hs.resumeWatch h

theorem of_reachable (hs : Reachable IsInitial Step s) : Sound s := by
  apply hs.invariant
  · rintro s ⟨now, rfl⟩
    exact initial now
  · rintro s t - hsound ⟨a, ha⟩
    exact hsound.act ha

end Sound

end SpawnEcho

end CppRepo
