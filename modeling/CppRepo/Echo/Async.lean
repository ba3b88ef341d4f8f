import CppRepo.Library.Text
import CppRepo.Library.Transition

/-!
# The asynchronous echo server

A session of this server has one buffer. A read puts what it finds into the buffer, its handler
starts a write of that part of the buffer, and the handler of the write starts the next read. The
write takes the bytes out of the buffer while it goes on, so it is all right only because no read is
outstanding then. Each operation holds a `shared_ptr` to the session, and nothing else does; the
session is destroyed, and its socket closed, with the last of them.

One thread runs all handlers, so a handler is one step, with the end of its operation. Which
operation of which session is over next, and how, is left open. A session that was destroyed stays
in the list with what it has sent.

## One operation at a time

The number of the `shared_ptr` is the number of the outstanding operations, and that is one until a
handler starts no other. So the buffer is in one of two hands: a read fills it, or a write takes
bytes from it, with an offset that says how far it has come. What is behind the offset is what was
read and is not yet sent back.

**Main result.** One accept is outstanding at all times, each session has one operation outstanding
or is destroyed, and it sends back what it is sent (`oneOperation_of_reachable`).
-/

namespace CppRepo

namespace AsyncEcho

/-! ## A session

A handler is called when its operation is over, with an error or without. It starts the next
operation, which takes a `shared_ptr`, before its own is released; after an error it starts none. -/

/-- An outstanding operation. -/
inductive Operation
  /-- `async_read_some` into the buffer -/
  | read
  /-- `async_write`, with `length` bytes of the buffer from `offset` on still to be written -/
  | write (offset length : ℕ)
  deriving DecidableEq

structure Session where
  /-- `data_` -/
  data : Bytes
  /-- How many `shared_ptr`s there are. -/
  useCount : ℕ := 0
  destroyed : Bool := false
  operations : List Operation := []
  /-- What has arrived and was not read. -/
  input : Bytes := []
  /-- What was written. -/
  sent : Bytes := []
  /-- All that has arrived. -/
  arrived : Bytes := []

/-- The size of the buffer -/
def maxLength : ℕ := 1024

namespace Session

/-- An operation is started, with a handler that holds the session. -/
def begin (operation : Operation) (s : Session) : Session :=
  { s with useCount := s.useCount + 1, operations := s.operations ++ [operation] }

/-- A `shared_ptr` is destroyed, and the session with the last one. -/
def release (s : Session) : Session :=
  { s with useCount := s.useCount - 1, destroyed := s.destroyed || s.useCount == 1 }

def doRead (s : Session) : Session := s.begin .read

def doWrite (length : ℕ) (s : Session) : Session := s.begin (.write 0 length)

/-- `std::make_shared<session>(std::move(socket))->start()` -/
def start (data : Bytes) : Session := (doRead { data, useCount := 1 }).release

/-- The handler of a read. -/
def onRead (ok : Bool) (length : ℕ) (s : Session) : Session :=
  (if ok then s.doWrite length else s).release

/-- The handler of a write. -/
def onWrite (ok : Bool) (s : Session) : Session := (if ok then s.doRead else s).release

/-- A read takes `n` bytes, or fails. -/
def endRead (n : Option ℕ) (s : Session) : Option Session :=
  match n with
  | some n =>
    if 0 < n ∧ n ≤ maxLength ∧ n ≤ s.input.length then
      some (onRead true n { s with
        data := s.input.take n ++ s.data.drop n
        input := s.input.drop n })
    else none
  | none => some (onRead false 0 s)

/-- The `k`-th operation takes or writes `n` bytes, or fails. -/
def proceed (k : ℕ) (n : Option ℕ) (s : Session) : Option Session :=
  match s.operations[k]?, n with
  | some .read, n => endRead n { s with operations := s.operations.eraseIdx k }
  | some (.write offset length), some n =>
    if 0 < n ∧ n ≤ length then
      let s := { s with sent := s.sent ++ (s.data.drop offset).take n }
      if n = length then some (onWrite true { s with operations := s.operations.eraseIdx k })
      else some { s with
        operations := s.operations.set k (.write (offset + n) (length - n)) }
    else none
  | some (.write _ _), none =>
    some (onWrite false { s with operations := s.operations.eraseIdx k })
  | none, _ => none

end Session

/-! ## The server

The server has one socket for the next client. Its handler makes a session from it, unless it was
told of an error, and accepts again in both cases. -/

structure Server where
  /-- How many `async_accept` are outstanding. -/
  accepts : ℕ := 1
  sessions : List Session := []

/-- What happens. -/
inductive Action
  /-- The accept is over, with a connection whose buffer has this content, or with an error. -/
  | accept (data : Option Bytes)
  /-- Bytes arrive for a session. -/
  | arrive (i : ℕ) (bytes : Bytes)
  | proceed (i k : ℕ) (n : Option ℕ)
  deriving DecidableEq

/-- The handler of an accept. -/
def onAccept (data : Option Bytes) (s : Server) : Server :=
  let s := match data with
    | some data => { s with sessions := s.sessions ++ [Session.start data] }
    | none => s
  { s with accepts := s.accepts + 1 }

def act (a : Action) (s : Server) : Option Server :=
  match a with
  | .accept data =>
    if 0 < s.accepts ∧ ∀ bytes ∈ data, bytes.length = maxLength then
      some (onAccept data { s with accepts := s.accepts - 1 })
    else none
  | .arrive i bytes =>
    if i < s.sessions.length then
      some { s with sessions := s.sessions.modify i fun session ↦ { session with
        input := session.input ++ bytes
        arrived := session.arrived ++ bytes } }
    else none
  | .proceed i k n => do
    let session ← s.sessions[i]?
    let session ← session.proceed k n
    return { s with sessions := s.sessions.set i session }

def IsInitial (s : Server) : Prop := s = {}

/-- A step of the server. -/
def Step : Server → Server → Prop := Acts act

/-! ## The invariant

`Outstanding` lists the two things that may be outstanding, and `Sound` adds what has arrived in
terms of the buffer. A session that is destroyed has sent back a beginning of what has arrived; the
rest was dropped with it. -/

/-- What is outstanding says what the buffer is for. -/
inductive Outstanding (s : Session) : List Operation → Prop
  | read (harrived : s.arrived = s.sent ++ s.input) : Outstanding s [.read]
  | write {offset length : ℕ} (hle : offset + length ≤ maxLength) (hpos : 0 < length)
      (harrived : s.arrived = s.sent ++ (s.data.drop offset).take length ++ s.input) :
      Outstanding s [.write offset length]
  | none (hsent : s.sent <+: s.arrived) : Outstanding s []

/-- What holds of a session. -/
structure Sound (s : Session) : Prop where
  data : s.data.length = maxLength
  useCount : s.useCount = s.operations.length
  destroyed : s.destroyed = s.operations.isEmpty
  outstanding : Outstanding s s.operations

variable {s t : Session} {k : ℕ} {n : Option ℕ} {bytes : Bytes}

namespace Sound

theorem start (h : bytes.length = maxLength) : Sound (Session.start bytes) :=
  ⟨h, rfl, rfl, .read rfl⟩

private theorem sent_prefix (hs : Sound s) : s.sent <+: s.arrived := by
  have houtstanding := hs.outstanding
  generalize s.operations = operations at houtstanding
  cases houtstanding with
  | read harrived => exact harrived ▸ List.prefix_append _ _
  | write _ _ harrived =>
    rw [harrived, List.append_assoc]
    exact List.prefix_append _ _
  | none hsent => exact hsent

theorem arrive (hs : Sound s) (bytes : Bytes) :
    Sound { s with input := s.input ++ bytes, arrived := s.arrived ++ bytes } := by
  refine ⟨hs.data, hs.useCount, hs.destroyed, ?_⟩
  have houtstanding := hs.outstanding
  change Outstanding _ s.operations
  generalize s.operations = operations at houtstanding ⊢
  cases houtstanding with
  | read harrived => exact .read (by rw [harrived, List.append_assoc])
  | write hle hpos harrived => exact .write hle hpos (by rw [harrived, List.append_assoc])
  | none hsent => exact .none (hsent.trans (List.prefix_append _ _))

theorem failed (hs : Sound s) (hone : s.operations.length = 1) :
    Sound (Session.release { s with operations := [] }) := by
  have hcount : s.useCount = 1 := hs.useCount.trans hone
  refine ⟨hs.data, ?_, ?_, .none hs.sent_prefix⟩
  · simp only [Session.release, hcount, List.length_nil]
  · simp only [Session.release, hcount, List.isEmpty_nil, beq_self_eq_true, Bool.or_true]

theorem next (hs : Sound s) (hone : s.operations.length = 1) {operation : Operation}
    (ht : t.useCount = s.useCount ∧ t.destroyed = s.destroyed ∧ t.operations = [])
    (hdata : t.data.length = maxLength)
    (houtstanding : Outstanding (t.begin operation).release [operation]) :
    Sound (t.begin operation).release := by
  obtain ⟨hcount, hdestroyed, hoperations⟩ := ht
  have hcount' : t.useCount = 1 := hcount.trans (hs.useCount.trans hone)
  have hdestroyed' : t.destroyed = false := by
    rw [hdestroyed, hs.destroyed, List.isEmpty_eq_false_iff, ← List.length_pos_iff, hone]
    exact Nat.one_pos
  refine ⟨hdata, ?_, ?_, ?_⟩
  · simp [Session.begin, Session.release, hcount', hoperations]
  · simp [Session.begin, Session.release, hcount', hoperations, hdestroyed']
  · simpa [Session.begin, Session.release, hoperations] using houtstanding

theorem endRead (hs : Sound s) (hread : s.operations = [.read])
    (h : Session.endRead n { s with operations := [] } = some t) : Sound t := by
  have hone : s.operations.length = 1 := by rw [hread]; rfl
  have houtstanding := hs.outstanding
  rw [hread] at houtstanding
  obtain ⟨harrived⟩ := houtstanding
  rcases n with - | n
  · obtain rfl := Option.some_inj.mp h
    exact hs.failed hone
  · obtain ⟨⟨hpos, hmax, hle⟩, rfl⟩ := of_ite_some h
    have hlength : (s.input.take n).length = n := List.length_take_of_le hle
    refine hs.next hone ⟨rfl, rfl, rfl⟩ ?_ (.write ?_ hpos ?_)
    · rw [List.length_append, hlength, List.length_drop, hs.data]
      omega
    · rw [Nat.zero_add]
      exact hmax
    · change s.arrived =
        s.sent ++ ((s.input.take n ++ s.data.drop n).drop 0).take n ++ s.input.drop n
      rw [List.drop_zero, List.take_left' hlength, List.append_assoc, List.take_append_drop]
      exact harrived

theorem endWrite {offset length : ℕ} (hs : Sound s)
    (hwrite : s.operations = [.write offset length]) (h : s.proceed 0 n = some t) : Sound t := by
  have hone : s.operations.length = 1 := by rw [hwrite]; rfl
  have houtstanding := hs.outstanding
  rw [hwrite] at houtstanding
  obtain - | ⟨hle, hpos, harrived⟩ | - := houtstanding
  have hget : s.operations[0]? = some (.write offset length) := by rw [hwrite]; rfl
  have herase : s.operations.eraseIdx 0 = [] := by rw [hwrite]; rfl
  rcases n with - | n
  · simp only [Session.proceed, hget, herase, Option.some.injEq] at h
    exact h ▸ hs.failed hone
  · simp only [Session.proceed, hget, herase] at h
    obtain ⟨⟨hn, hnlength⟩, h⟩ := Option.ite_none_right_eq_some.mp h
    by_cases heq : n = length
    · rw [if_pos heq] at h
      obtain rfl := Option.some_inj.mp h
      refine hs.next hone ⟨rfl, rfl, rfl⟩ hs.data (.read ?_)
      rw [heq]
      exact harrived
    · rw [if_neg heq] at h
      obtain rfl := Option.some_inj.mp h
      have hset : s.operations.set 0 (.write (offset + n) (length - n)) =
          [.write (offset + n) (length - n)] := by rw [hwrite]; rfl
      refine ⟨hs.data, ?_, ?_, ?_⟩
      · rw [hset]
        exact hs.useCount.trans hone
      · rw [hset]
        exact hs.destroyed.trans (by rw [hwrite]; rfl)
      · rw [hset]
        refine .write (by omega) (by omega) ?_
        have hsplit : (s.data.drop offset).take length =
            (s.data.drop offset).take n ++ (s.data.drop (offset + n)).take (length - n) := by
          rw [← List.drop_drop, ← List.take_add, Nat.add_sub_cancel' hnlength]
        rw [harrived, hsplit]
        simp only [List.append_assoc]

/-- **One step of a session.** -/
theorem proceed (hs : Sound s) (h : s.proceed k n = some t) : Sound t := by
  have houtstanding := hs.outstanding
  rcases hoperations : s.operations with - | ⟨operation, rest⟩
  · simp [Session.proceed, hoperations] at h
  · have hrest : rest = [] := by
      rw [hoperations] at houtstanding
      cases houtstanding <;> rfl
    subst hrest
    obtain rfl : k = 0 := by
      by_contra hk
      obtain ⟨k, rfl⟩ := Nat.exists_eq_succ_of_ne_zero hk
      simp [Session.proceed, hoperations] at h
    cases operation with
    | read =>
      have hread : Session.endRead n { s with operations := [] } = some t := by
        simpa only [Session.proceed, hoperations, List.getElem?_cons_zero,
          List.eraseIdx_cons_zero] using h
      exact hs.endRead hoperations hread
    | write offset length => exact hs.endWrite hoperations h

end Sound

/-- One accept is outstanding, and what holds of each session. -/
structure Serving (s : Server) : Prop where
  accepts : s.accepts = 1
  sessions : ∀ session ∈ s.sessions, Sound session

theorem Serving.step {s t : Server} {a : Action} (hs : Serving s) (h : act a s = some t) :
    Serving t := by
  obtain ⟨haccepts, hsessions⟩ := hs
  cases a with
  | accept data =>
    obtain ⟨⟨-, hdata⟩, rfl⟩ := of_ite_some h
    refine ⟨?_, ?_⟩
    · cases data <;> simp only [onAccept, haccepts]
    · cases data with
      | none => exact hsessions
      | some data =>
        intro session hmem
        rcases List.mem_append.mp hmem with hmem | hmem
        · exact hsessions session hmem
        · rw [List.mem_singleton.mp hmem]
          exact Sound.start (hdata data rfl)
  | arrive i bytes =>
    obtain ⟨-, rfl⟩ := of_ite_some h
    refine ⟨haccepts, fun session hmem ↦ ?_⟩
    obtain ⟨j, hj⟩ := List.mem_iff_getElem?.mp hmem
    rw [List.getElem?_modify] at hj
    obtain ⟨old, hold, rfl⟩ := Option.map_eq_some_iff.mp hj
    have hsound := hsessions old (List.mem_of_getElem? hold)
    split
    · exact hsound.arrive bytes
    · exact hsound
  | proceed i k n =>
    obtain ⟨session, hsession, h⟩ := Option.bind_eq_some_iff.mp h
    obtain ⟨session', hproceed, h⟩ := Option.bind_eq_some_iff.mp h
    obtain rfl := Option.some_inj.mp h
    refine ⟨haccepts, fun other hmem ↦ ?_⟩
    rcases List.mem_or_eq_of_mem_set hmem with hmem | rfl
    · exact hsessions other hmem
    · exact (hsessions session (List.mem_of_getElem? hsession)).proceed hproceed

/-- **The server.** One accept is outstanding. A session has one operation outstanding, which holds
its only `shared_ptr`, or is destroyed; before a read everything that was taken out of the socket
has been sent back, and during a write all but the rest of it. -/
theorem oneOperation_of_reachable (s : Server) (hs : Reachable IsInitial Step s) :
    s.accepts = 1 ∧ ∀ session ∈ s.sessions, session.sent <+: session.arrived ∧
      (session.destroyed = true ∧ session.operations = [] ∧ session.useCount = 0 ∨
        session.destroyed = false ∧ session.useCount = 1 ∧
          (session.operations = [.read] ∧ session.arrived = session.sent ++ session.input ∨
            ∃ offset length, session.operations = [.write offset length] ∧
              session.arrived = session.sent ++ (session.data.drop offset).take length ++
                session.input)) := by
  have hserving : Serving s := by
    apply hs.invariant
    · rintro s rfl
      exact ⟨rfl, fun session hmem ↦ absurd hmem List.not_mem_nil⟩
    · rintro s t - hserving ⟨a, ha⟩
      exact hserving.step ha
  refine ⟨hserving.accepts, fun session hmem ↦ ?_⟩
  have hsound := hserving.sessions session hmem
  refine ⟨hsound.sent_prefix, ?_⟩
  obtain ⟨hdata, hcount, hdestroyed, houtstanding⟩ := hsound
  generalize session.operations = operations at *
  cases houtstanding with
  | read harrived => exact Or.inr ⟨hdestroyed, hcount, Or.inl ⟨rfl, harrived⟩⟩
  | write hle hpos harrived =>
    exact Or.inr ⟨hdestroyed, hcount, Or.inr ⟨_, _, rfl, harrived⟩⟩
  | none hsent => exact Or.inl ⟨hdestroyed, rfl, hcount⟩

/-- Two clients, one of which hangs up during a write. -/
def twoClients (data : Bytes) : List Action :=
  [.accept (some data), .arrive 0 [65, 66, 67], .proceed 0 0 (some 3), .accept none,
    .accept (some data), .proceed 0 0 (some 1), .arrive 1 [68], .proceed 0 0 none,
    .proceed 1 0 (some 1)]

theorem oneOperation_of_reachable_twoClients :
    ∃ s, Reachable IsInitial Step s ∧ s.accepts = 1 ∧
      s.sessions.map Session.sent = [[65], []] ∧
        ∀ session ∈ s.sessions, session.sent <+: session.arrived := by
  have hs : (execute act (twoClients (List.replicate maxLength 0)) {}).any
      (fun s ↦ s.sessions.map Session.sent = [[65], []]) = true := by decide +kernel
  obtain ⟨s, hrun, hsent⟩ := exists_of_execute hs
  have hreach : Reachable IsInitial Step s := reachable_of_execute (.start rfl) hrun
  obtain ⟨haccepts, hsessions⟩ := oneOperation_of_reachable s hreach
  exact ⟨s, hreach, haccepts, hsent, fun session hmem ↦ (hsessions session hmem).1⟩

end AsyncEcho

end CppRepo
