import CppRepo.Library.Text
import CppRepo.Library.Transition

/-!
# The sessions of the chat server

A session writes the messages that are posted to it one after the other. The message that is being
written stays at the front of `outgoing` until its write is over, and whether a post has to start a
write is told from whether `outgoing` is empty. All handlers run on one thread, so each of them is
one step, and so is each call of `post`.

Asio is given by what it does to the state: an `async_read_until` puts the bytes that arrive into
`streambuf` and is over when there is a line end among them, or with an error; an `async_write` is
over when its whole buffer is written, or with an error. Which outstanding operation is over next,
and how, is left open.

## What the invariant says

Nothing but `failed` and `outgoing` is needed to tell which write is outstanding: the one of the
front, unless a write has failed. The queue then never becomes empty again, because only `on_write`
takes messages out of it, and so no post starts another write.
-/

namespace CppRepo

namespace Chat

/-- A session, the operations it has outstanding, and what has happened to its messages. -/
structure Session where
  /-- The text of the address of the peer. -/
  peer : Bytes := []
  closed : Bool := false
  streambuf : Bytes := []
  outgoing : List Bytes := []
  /-- How many `async_read_until` are outstanding. -/
  reads : ℕ := 0
  /-- The outstanding `async_write`s, each with the string it was started with. -/
  writes : List Bytes := []
  /-- `front` or `pop` was called on the empty queue. -/
  undefined : Bool := false
  /-- The arguments of the calls of `post`. -/
  posted : List Bytes := []
  /-- The strings writes were started with. -/
  started : List Bytes := []
  /-- The strings that were written without an error. -/
  completed : List Bytes := []
  /-- A write was over with an error. -/
  failed : Bool := false
  /-- The pieces in which bytes arrived. -/
  arrived : List Bytes := []
  /-- The arguments of the calls of `on_message`. -/
  messages : List Bytes := []

/-- The byte `\n`. -/
def newline : UInt8 := 10

/-- What `async_read_until` looks for: the length of the first line, with its end. -/
def lineLength (text : Bytes) : Option ℕ := (text.findIdx? (· = newline)).map (· + 1)

namespace Session

/-! ## The members

The methods are those of the source. An operation is started by noting it: the number of reads that
are outstanding, and the messages whose writes are. -/

def asyncRead (s : Session) : Session := { s with reads := s.reads + 1 }

def asyncWrite (s : Session) : Session :=
  match s.outgoing with
  | [] => { s with undefined := true }
  | front :: _ => { s with writes := s.writes ++ [front], started := s.started ++ [front] }

def post (message : Bytes) (s : Session) : Session :=
  let idle := s.outgoing.isEmpty
  let s := { s with outgoing := s.outgoing ++ [message], posted := s.posted ++ [message] }
  if idle then s.asyncWrite else s

/-- `socket.remote_endpoint(error)`: a closed socket has none, and an endpoint made without an
address is put out instead. -/
def remoteEndpoint (s : Session) : Bytes := if s.closed then ascii "0.0.0.0:0" else s.peer

/-- What `on_read` does before it passes a message on: the streambuf is inserted into the stream,
which takes all of its characters, and then as many are consumed as it still has of those
transferred. -/
def readMessage (bytesTransferred : ℕ) (s : Session) : Bytes × Session :=
  let message := s.remoteEndpoint ++ ascii ": " ++ s.streambuf
  let streambuf := s.streambuf.drop s.streambuf.length
  (message, { s with
    streambuf := streambuf.drop bytesTransferred
    messages := s.messages ++ [message] })

/-- `outgoing.pop()` -/
def pop (s : Session) : Session :=
  match s.outgoing with
  | [] => { s with undefined := true }
  | _ :: rest => { s with outgoing := rest }

/-- `on_write` without an error. -/
def onWritten (s : Session) : Session :=
  let s := s.pop
  if s.outgoing.isEmpty then s else s.asyncWrite

/-- `socket.close(error)` -/
def close (s : Session) : Session := { s with closed := true }

/-! ## The ends of operations

What ends an operation comes from outside, and the handler is called with it at once. A read that
ends while there is no line end in the buffer ends with an error. -/

/-- An outstanding read is over. -/
def endRead (s : Session) : Option Session :=
  if s.reads = 0 then none else some { s with reads := s.reads - 1 }

/-- Bytes arrive for an outstanding read that has not found a line end yet. -/
def arrive (data : Bytes) (s : Session) : Option Session :=
  if s.reads ≠ 0 ∧ newline ∉ s.streambuf then
    some { s with streambuf := s.streambuf ++ data, arrived := s.arrived ++ [data] }
  else none

/-- The `k`-th outstanding write is over, and `on_write` is called, up to its call of `on_error`. -/
def endWrite (k : ℕ) (error : Bool) (s : Session) : Option Session :=
  s.writes[k]?.map fun message ↦
    let s := { s with writes := s.writes.eraseIdx k }
    if error then close { s with failed := true }
    else onWritten { s with completed := s.completed ++ [message] }

/-- What can happen to a session. -/
inductive Action
  | post (message : Bytes)
  | start
  | arrive (data : Bytes)
  | read (error : Bool)
  | write (k : ℕ) (error : Bool)
  deriving DecidableEq

/-- The next state of a session. What `on_message` and `on_error` do to it are posts, which are
actions of their own. -/
def act : Action → Session → Option Session
  | .post message, s => some (s.post message)
  | .start, s => some s.asyncRead
  | .arrive data, s => s.arrive data
  | .read true, s => s.endRead.map close
  | .read false, s => do
    let s ← s.endRead
    let bytesTransferred ← lineLength s.streambuf
    return (s.readMessage bytesTransferred).2.asyncRead
  | .write k error, s => s.endWrite k error

/-- A session when it is made. -/
def IsInitial (s : Session) : Prop := ∃ peer, s = { peer }

/-- A step of a session. -/
def Step : Session → Session → Prop := Acts act

/-! ## The queue and the writes

`Coupled` has the invariant of the module's text. Most of what a session does leaves both the queue
and the writes alone, and `SameWriting` says so once for all of it; posting a message and the end of
a write are the two steps that are left. -/

variable {s t : Session} {k : ℕ} {error : Bool} {message : Bytes}

theorem post_of_nil (h : s.outgoing = []) :
    s.post message = { s with
      outgoing := [message]
      posted := s.posted ++ [message]
      writes := s.writes ++ [message]
      started := s.started ++ [message] } := by
  simp only [post, h, List.isEmpty_nil, if_true, List.nil_append, asyncWrite]

theorem post_of_ne_nil (h : s.outgoing ≠ []) :
    s.post message
      = { s with outgoing := s.outgoing ++ [message], posted := s.posted ++ [message] } := by
  rw [post, if_neg]
  rwa [List.isEmpty_iff]

/-- How the queue and the outstanding writes go together. -/
structure Coupled (s : Session) : Prop where
  defined : s.undefined = false
  writes : s.writes = if s.failed then [] else s.outgoing.take 1
  stuck : s.failed = true → s.outgoing ≠ []
  posted : s.posted = s.completed ++ s.outgoing
  started : s.started = s.completed ++ s.outgoing.take 1

/-- `t` differs from `s` in nothing that concerns the messages that are written. -/
structure SameWriting (s t : Session) : Prop where
  undefined : t.undefined = s.undefined
  writes : t.writes = s.writes
  failed : t.failed = s.failed
  outgoing : t.outgoing = s.outgoing
  posted : t.posted = s.posted
  completed : t.completed = s.completed
  started : t.started = s.started

theorem SameWriting.trans {u : Session} (h : SameWriting s t) (h' : SameWriting t u) :
    SameWriting s u where
  undefined := h'.undefined.trans h.undefined
  writes := h'.writes.trans h.writes
  failed := h'.failed.trans h.failed
  outgoing := h'.outgoing.trans h.outgoing
  posted := h'.posted.trans h.posted
  completed := h'.completed.trans h.completed
  started := h'.started.trans h.started

theorem sameWriting_asyncRead (s : Session) : SameWriting s s.asyncRead :=
  ⟨rfl, rfl, rfl, rfl, rfl, rfl, rfl⟩

theorem sameWriting_close (s : Session) : SameWriting s s.close :=
  ⟨rfl, rfl, rfl, rfl, rfl, rfl, rfl⟩

theorem sameWriting_readMessage (n : ℕ) (s : Session) : SameWriting s (s.readMessage n).2 :=
  ⟨rfl, rfl, rfl, rfl, rfl, rfl, rfl⟩

theorem sameWriting_endRead (h : s.endRead = some t) : SameWriting s t := by
  obtain ⟨-, ht⟩ := Option.ite_none_left_eq_some.mp h
  obtain rfl := Option.some_inj.mp ht
  exact ⟨rfl, rfl, rfl, rfl, rfl, rfl, rfl⟩

theorem sameWriting_arrive {data : Bytes} (h : s.arrive data = some t) : SameWriting s t := by
  obtain ⟨-, rfl⟩ := of_ite_some h
  exact ⟨rfl, rfl, rfl, rfl, rfl, rfl, rfl⟩

private theorem sameWriting_read (h : act (.read false) s = some t) : SameWriting s t := by
  obtain ⟨u, hu, h⟩ := Option.bind_eq_some_iff.mp h
  obtain ⟨n, -, h⟩ := Option.bind_eq_some_iff.mp h
  obtain rfl := Option.some_inj.mp h
  exact (sameWriting_endRead hu).trans
    ((sameWriting_readMessage n u).trans (sameWriting_asyncRead _))

private theorem sameWriting_readFailed (h : act (.read true) s = some t) : SameWriting s t := by
  obtain ⟨u, hu, rfl⟩ := Option.map_eq_some_iff.mp h
  exact (sameWriting_endRead hu).trans (sameWriting_close u)

namespace Coupled

theorem initial (peer : Bytes) : Coupled { peer } :=
  ⟨rfl, rfl, fun h ↦ Bool.noConfusion h, rfl, rfl⟩

theorem congr (hc : Coupled s) (h : SameWriting s t) : Coupled t := by
  constructor
  · exact h.undefined.trans hc.defined
  · rw [h.writes, h.failed, h.outgoing]
    exact hc.writes
  · rw [h.failed, h.outgoing]
    exact hc.stuck
  · rw [h.posted, h.completed, h.outgoing]
    exact hc.posted
  · rw [h.started, h.completed, h.outgoing]
    exact hc.started

private theorem not_failed (hc : Coupled s) (h : s.outgoing = []) : s.failed = false := by
  by_contra hfailed
  exact hc.stuck (Bool.eq_true_of_not_eq_false hfailed) h

private theorem eq_of_write (hc : Coupled s) (h : s.writes[k]? = some message) :
    s.failed = false ∧ k = 0 ∧ s.writes = [message] ∧ ∃ rest, s.outgoing = message :: rest := by
  have hwrites := hc.writes
  rcases hfailed : s.failed with - | -
  · rcases hout : s.outgoing with - | ⟨front, rest⟩
    · simp [hwrites, hfailed, hout] at h
    · rw [hfailed, hout] at hwrites
      rw [hwrites] at h
      rcases k with - | k
      · obtain rfl : front = message := Option.some_inj.mp h
        exact ⟨rfl, rfl, hwrites, rest, rfl⟩
      · simp at h
  · rw [hfailed, if_pos rfl] at hwrites
    simp [hwrites] at h

theorem post (hc : Coupled s) (message : Bytes) : Coupled (s.post message) := by
  rcases hout : s.outgoing with - | ⟨front, rest⟩
  · have hfailed := hc.not_failed hout
    have hwrites : s.writes = [] := by simp [hc.writes, hfailed, hout]
    rw [post_of_nil hout]
    constructor
    · exact hc.defined
    · simp [hwrites, hfailed]
    · exact fun _ ↦ List.cons_ne_nil _ _
    · simp [hc.posted, hout]
    · simp [hc.started, hout]
  · rw [post_of_ne_nil (by simp [hout])]
    constructor
    · exact hc.defined
    · simpa [hout] using hc.writes
    · simp [hout]
    · simp [hc.posted]
    · simpa [hout] using hc.started

theorem endWrite (hc : Coupled s) (h : s.endWrite k error = some t) : Coupled t := by
  obtain ⟨message, hk, rfl⟩ := Option.map_eq_some_iff.mp h
  obtain ⟨hfailed, rfl, hwrites, rest, hout⟩ := hc.eq_of_write hk
  have hposted := hc.posted
  have hstarted := hc.started
  rw [hout] at hposted hstarted
  rcases error with - | -
  · simp only [Bool.false_eq_true, if_false, onWritten, pop, hout, hwrites]
    rcases rest with - | ⟨next, rest⟩
    · refine ⟨hc.defined, ?_, ?_, ?_, ?_⟩
      · simp [hfailed]
      · simp [hfailed]
      · simp [hposted]
      · simp [hstarted]
    · -- The next message is written at once, so that the queue is never left without a write.
      refine ⟨hc.defined, ?_, ?_, ?_, ?_⟩
      · simp [asyncWrite, hfailed]
      · simp [asyncWrite]
      · simp [asyncWrite, hposted]
      · simp [asyncWrite, hstarted]
  · -- After an error nothing is taken out of the queue any more.
    simp only [if_true, close, hwrites]
    refine ⟨hc.defined, rfl, fun _ ↦ ?_, hc.posted, hc.started⟩
    simp [hout]

/-- **One step.** -/
theorem step (hc : Coupled s) (h : Step s t) : Coupled t := by
  obtain ⟨a, ha⟩ := h
  rcases a with message | - | data | error | ⟨k, error⟩
  · exact Option.some_inj.mp ha ▸ hc.post message
  · exact Option.some_inj.mp ha ▸ hc.congr (sameWriting_asyncRead s)
  · exact hc.congr (sameWriting_arrive ha)
  · rcases error with - | -
    · exact hc.congr (sameWriting_read ha)
    · exact hc.congr (sameWriting_readFailed ha)
  · exact hc.endWrite ha

/-- **A run.** -/
theorem of_reachable (hs : Reachable IsInitial Step s) : Coupled s := by
  apply hs.invariant
  · rintro s ⟨peer, rfl⟩
    exact initial peer
  · exact fun s t _ hc hst ↦ hc.step hst

private theorem failed_step (hc : Coupled s) (hfailed : s.failed = true) (h : Step s t) :
    t.failed = true ∧ t.started = s.started := by
  obtain ⟨a, ha⟩ := h
  have hsame : ∀ {u}, SameWriting s u → u.failed = true ∧ u.started = s.started :=
    fun hu ↦ ⟨hu.failed.trans hfailed, hu.started⟩
  rcases a with message | - | data | error | ⟨k, error⟩
  · obtain rfl := Option.some_inj.mp ha
    rw [post_of_ne_nil (hc.stuck hfailed)]
    exact ⟨hfailed, rfl⟩
  · exact Option.some_inj.mp ha ▸ hsame (sameWriting_asyncRead s)
  · exact hsame (sameWriting_arrive ha)
  · rcases error with - | -
    · exact hsame (sameWriting_read ha)
    · exact hsame (sameWriting_readFailed ha)
  · obtain ⟨message, hk, -⟩ := Option.map_eq_some_iff.mp ha
    exact Bool.noConfusion (hfailed.symm.trans (hc.eq_of_write hk).1)

private theorem started_of_failed (hs : Reachable IsInitial Step s) (hfailed : s.failed = true)
    (ht : Reachable (· = s) Step t) : t.started = s.started := by
  have hfrom : Coupled t ∧ t.failed = true ∧ t.started = s.started := by
    apply ht.invariant
    · rintro t rfl
      exact ⟨of_reachable hs, hfailed, rfl⟩
    · rintro t u - ⟨hc, htfailed, htstarted⟩ hst
      obtain ⟨hufailed, hustarted⟩ := hc.failed_step htfailed hst
      exact ⟨hc.step hst, hufailed, hustarted.trans htstarted⟩
  exact hfrom.2.2

end Coupled

/-- **The writes of a session.** In every run at most one write is outstanding; it was started with
the front of the queue, which is still there; the messages written are the first of those posted, in
order; messages wait without a write only after a write has failed, and then no write is ever
started again. Neither `front` nor `pop` is called on an empty queue. -/
theorem writes_of_reachable (hs : Reachable IsInitial Step s) :
    s.writes.length ≤ 1 ∧
    (∀ message ∈ s.writes, s.outgoing.head? = some message) ∧
    s.completed <+: s.posted ∧
    (s.outgoing ≠ [] → s.writes = [] → s.failed = true) ∧
    (s.failed = true → ∀ t, Reachable (· = s) Step t → t.started = s.started) ∧
    s.undefined = false := by
  have hc := Coupled.of_reachable hs
  refine ⟨?_, fun message hmem ↦ ?_, ?_, fun hout hwrites ↦ ?_,
    fun hfailed t ht ↦ Coupled.started_of_failed hs hfailed ht, hc.defined⟩
  · rw [hc.writes]
    split_ifs
    · exact Nat.zero_le 1
    · exact List.length_take_le 1 _
  · obtain ⟨k, hk⟩ := List.getElem?_of_mem hmem
    obtain ⟨-, -, -, rest, hout⟩ := hc.eq_of_write hk
    rw [hout, List.head?_cons]
  · rw [hc.posted]
    exact List.prefix_append _ _
  · by_contra hfailed
    rw [hc.writes, if_neg hfailed, List.take_eq_nil_iff] at hwrites
    exact hwrites.elim Nat.one_ne_zero hout

/-- Three messages are posted; the first is written, the write of the second fails. -/
theorem writes_of_reachable_failed :
    ∃ s, Reachable IsInitial Step s ∧ s.completed = [ascii "a"] ∧
      s.outgoing = [ascii "b", ascii "c"] ∧ s.failed = true ∧ s.writes.length ≤ 1 ∧
        s.completed <+: s.posted ∧ s.undefined = false := by
  have hs : (execute act [.start, .post (ascii "a"), .post (ascii "b"), .write 0 false,
      .write 0 true, .post (ascii "c")] {}).any (fun s ↦ s.completed = [ascii "a"] ∧
        s.outgoing = [ascii "b", ascii "c"] ∧ s.failed = true) = true := by decide +kernel
  obtain ⟨s, hrun, hcompleted, hout, hfailed⟩ := exists_of_execute hs
  have hreach : Reachable IsInitial Step s := reachable_of_execute (.start ⟨[], rfl⟩) hrun
  obtain ⟨hlength, -, hprefix, -, -, hdefined⟩ := writes_of_reachable hreach
  exact ⟨s, hreach, hcompleted, hout, hfailed, hlength, hprefix, hdefined⟩

end Session

end Chat

end CppRepo
