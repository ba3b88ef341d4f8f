import CppRepo.Library.Transition

/-!
# Stopping the frontend

`AsioFrontend::stop` closes the listeners, and then the connections that are in the list of
connections. A connection is put into the list by its coroutine, which `accept` spawns on the
threads of `run()`. So there is a time at which the connection is accepted and is not in the list;
and if `stop` goes through the list then, the connection stays open, and `join()` waits until the
client hangs up.

The same holds for a connection that was accepted just before the listener was closed: `accept`
finds the listener closed and returns, and the socket stays in the listener.

A step is one action of one thread on what they share. The completion of an `async_accept` and each
coroutine may run on any thread, so there is one party for each connection. `going_down` is left
out: only `join` reads it.

## How the two invariants divide the work

`Closing` is about runs in which nobody is missed: it says how far `stop` has come with each
connection. `Orderly` holds in all runs and is about the mutex and the list only. With it one missed
connection can be followed to the end: while `stop` holds the mutex nobody is put into the list, and
so the connection is still open when `stop` returns.

**Main result.** All connections are closed or left once `stop` has returned, in the runs in which
all accepted connections are registered when it takes the mutex of the list, and in no others
(`closes_of_registered`).
-/

namespace CppRepo

namespace AsioFrontend

/-! ## The parties

A connection is a place in its coroutine and the state of its socket. `init` has run, so each
listener is open and waits for a connection, or not; `n` is the number of the listeners. -/

/-- What is done next for a connection, from its acceptance to the end of its coroutine. -/
inductive ConnectionPc (n : ℕ)
  /-- `if (!l.acceptor.is_open())`, in `accept` -/
  | testOpen (l : Fin n)
  /-- `accept` has returned, and the socket is still that of the listener. -/
  | dropped
  /-- `std::move(l.socket)` -/
  | move (l : Fin n)
  /-- `l.acceptor.async_accept` -/
  | asyncAccept (l : Fin n)
  /-- `boost::asio::spawn` -/
  | spawn
  /-- the coroutine, with the mutex of `ConnectionList::add` -/
  | lockAdd
  /-- `connections.push_back(conn)` -/
  | pushBack
  | unlockAdd
  /-- `handle_connection` -/
  | handle
  /-- `s.shutdown` -/
  | shutdown
  /-- the destructor of the guard, with the mutex of `ConnectionList::remove` -/
  | lockRemove
  /-- `connections.erase`, if it is linked -/
  | erase
  | unlockRemove
  /-- the destructor of the socket -/
  | destroy
  | ended
  deriving DecidableEq

/-- What `stop` does next. -/
inductive StopPc
  | idle
  /-- `listener.acceptor.close(ec)`, for this listener -/
  | closeAcceptor (k : ℕ)
  /-- the mutex of `ConnectionList::close` -/
  | lock
  /-- `conn.socket.close(ec)`, for these connections -/
  | close (rest : List ℕ)
  /-- `connections.clear()` -/
  | clear
  | unlock
  | returned
  deriving DecidableEq

/-- Who holds the mutex of the list. -/
inductive Holder
  | connection (i : ℕ)
  | stop
  deriving DecidableEq

/-- A connection that was accepted. -/
structure Connection (n : ℕ) where
  pc : ConnectionPc n
  /-- Its socket is open. -/
  isOpen : Bool
  deriving DecidableEq

/-- The frontend with its listeners. Connections have numbers, in the order of their acceptance. -/
structure State (n : ℕ) where
  acceptorOpen : Fin n → Bool
  /-- An `async_accept` is pending. -/
  pending : Fin n → Bool
  accepted : List (Connection n) := []
  mutex : Option Holder := none
  /-- `ConnectionList::connections` -/
  connections : List ℕ := []
  stop : StopPc := .idle

variable {n : ℕ}

/-- `init` has opened some of the listeners, and each of them waits for a connection. -/
def IsInitial (s : State n) : Prop :=
  ∃ listening, s = { acceptorOpen := listening, pending := listening }

/-! ## The steps

What a connection does to the rest of the frontend is one of a few effects: it takes or gives back
the mutex, changes the list, starts the next `async_accept`, or closes its own socket. Each effect
has its lemma here, so that the invariants do not look into the steps. -/

/-- What a step of a connection does to what it shares. -/
inductive Effect (n : ℕ)
  | nothing
  | asyncAccept (l : Fin n)
  | lock
  | unlock
  | pushBack
  | erase
  | close
  deriving DecidableEq

namespace Effect

def pending (e : Effect n) (pending : Fin n → Bool) : Fin n → Bool :=
  match e with
  | .asyncAccept l => Function.update pending l true
  | _ => pending

/-- A mutex that is held cannot be taken. -/
def mutex (i : ℕ) (e : Effect n) (mutex : Option Holder) : Option (Option Holder) :=
  match e with
  | .lock => if mutex = none then some (some (.connection i)) else none
  | .unlock => some none
  | _ => some mutex

def connections (i : ℕ) (e : Effect n) (connections : List ℕ) : List ℕ :=
  match e with
  | .pushBack => connections ++ [i]
  | .erase => connections.erase i
  | _ => connections

def isOpen (e : Effect n) (isOpen : Bool) : Bool :=
  match e with
  | .close => false
  | _ => isOpen

private theorem mem_connections {e : Effect n} {i j : ℕ} {l : List ℕ} (h : j ≠ i ∨ e ≠ .erase)
    (hmem : j ∈ l) : j ∈ e.connections i l := by
  rcases e with - | l | - | - | - | - | -
  case pushBack => exact List.mem_append_left _ hmem
  case erase => exact (List.mem_erase_of_ne (h.resolve_right (fun hne ↦ hne rfl))).mpr hmem
  all_goals exact hmem

private theorem notMem_connections {e : Effect n} {i j : ℕ} {l : List ℕ} (h : j ≠ i ∨ e ≠ .pushBack)
    (hmem : j ∉ l) : j ∉ e.connections i l := by
  rcases e with - | l | - | - | - | - | -
  case pushBack =>
    have hne : j ≠ i := h.resolve_right fun hne ↦ hne rfl
    exact fun hj ↦ (List.mem_append.mp hj).elim hmem fun hj ↦ hne (List.mem_singleton.mp hj)
  case erase => exact fun hj ↦ hmem (List.mem_of_mem_erase hj)
  all_goals exact hmem

private theorem mutexMove {e : Effect n} {i : ℕ} {before after : Option Holder}
    (h : e.mutex i before = some after) (hheld : e = .unlock → before = some (.connection i)) :
    MutexMove (.connection i) before after := by
  rcases e with - | l | - | - | - | - | -
  case lock =>
    obtain ⟨hfree, rfl⟩ := of_ite_some h
    exact MutexMove.lock hfree
  case unlock =>
    obtain rfl := Option.some.inj h
    exact MutexMove.unlock (hheld rfl)
  all_goals
    obtain rfl := Option.some.inj h
    exact MutexMove.stay

private theorem mutex_eq {e : Effect n} {i : ℕ} {before after : Option Holder}
    (h : e.mutex i before = some after) (hlock : e ≠ .lock) (hunlock : e ≠ .unlock) :
    after = before := by
  rcases e with - | l | - | - | - | - | -
  case lock => exact absurd rfl hlock
  case unlock => exact absurd rfl hunlock
  all_goals exact (Option.some.inj h).symm

private theorem isOpen_eq {e : Effect n} (h : e ≠ .close) (isOpen : Bool) :
    e.isOpen isOpen = isOpen := by
  rcases e with - | l | - | - | - | - | -
  case close => exact absurd rfl h
  all_goals rfl

private theorem isOpen_eq_false {e : Effect n} {isOpen : Bool} (h : isOpen = false) :
    e.isOpen isOpen = false := by
  rw [h]
  rcases e <;> rfl

end Effect

/-- What comes next, and what is done before. -/
def ConnectionPc.next (acceptorOpen : Fin n → Bool) :
    ConnectionPc n → Option (Effect n × ConnectionPc n)
  | .testOpen l => some (.nothing, if acceptorOpen l then .move l else .dropped)
  | .dropped => none
  | .move l => some (.nothing, .asyncAccept l)
  | .asyncAccept l => some (.asyncAccept l, .spawn)
  | .spawn => some (.nothing, .lockAdd)
  | .lockAdd => some (.lock, .pushBack)
  | .pushBack => some (.pushBack, .unlockAdd)
  | .unlockAdd => some (.unlock, .handle)
  | .handle => some (.nothing, .shutdown)
  | .shutdown => some (.nothing, .lockRemove)
  | .lockRemove => some (.lock, .erase)
  | .erase => some (.erase, .unlockRemove)
  | .unlockRemove => some (.unlock, .destroy)
  | .destroy => some (.close, .ended)
  | .ended => none

/-- The next step of a connection. -/
def connectionStep (i : ℕ) (s : State n) : Option (State n) := do
  let c ← s.accepted[i]?
  let (e, pc) ← c.pc.next s.acceptorOpen
  let mutex ← e.mutex i s.mutex
  return { s with
    pending := e.pending s.pending
    accepted := s.accepted.set i ⟨pc, e.isOpen c.isOpen⟩
    mutex := mutex
    connections := e.connections i s.connections }

/-- The next step of `stop`. -/
def stopStep (s : State n) : Option (State n) :=
  match s.stop with
  | .idle => some { s with stop := .closeAcceptor 0 }
  | .closeAcceptor k =>
    if h : k < n then
      some { s with
        acceptorOpen := Function.update s.acceptorOpen ⟨k, h⟩ false
        stop := .closeAcceptor (k + 1) }
    else some { s with stop := .lock }
  | .lock =>
    if s.mutex = none then some { s with mutex := some .stop, stop := .close s.connections }
    else none
  | .close [] => some { s with stop := .clear }
  | .close (i :: rest) => some { s with
      accepted := s.accepted.modify i fun c ↦ { c with isOpen := false }
      stop := .close rest }
  | .clear => some { s with connections := [], stop := .unlock }
  | .unlock => some { s with mutex := none, stop := .returned }
  | .returned => none

/-- What happens next. -/
inductive Action (n : ℕ)
  /-- An `async_accept` completes with a connection. -/
  | accept (l : Fin n)
  /-- An `async_accept` completes with an error, and `accept` returns. -/
  | refuse (l : Fin n)
  | connection (i : ℕ)
  | stop
  deriving DecidableEq

/-- The next state. -/
def act (a : Action n) (s : State n) : Option (State n) :=
  match a with
  | .accept l =>
    if s.pending l ∧ s.acceptorOpen l then
      some { s with
        pending := Function.update s.pending l false
        accepted := s.accepted ++ [⟨.testOpen l, true⟩] }
    else none
  | .refuse l =>
    if s.pending l then some { s with pending := Function.update s.pending l false } else none
  | .connection i => connectionStep i s
  | .stop => stopStep s

/-- A step of the frontend. -/
def Step : State n → State n → Prop := Acts act

/-! ## Where a connection is

Four predicates on the places say how far a connection is. A step of the connection changes them in
one direction only, and the list changes where they do. -/

namespace ConnectionPc

/-- It has been put into the list. -/
def isRegistered : ConnectionPc n → Bool
  | .testOpen _ | .dropped | .move _ | .asyncAccept _ | .spawn | .lockAdd | .pushBack => false
  | _ => true

/-- It has been put into the list and was not yet taken out again by its coroutine. -/
def isListed : ConnectionPc n → Bool
  | .unlockAdd | .handle | .shutdown | .lockRemove | .erase => true
  | _ => false

/-- Its coroutine has left `handle_connection`. -/
def hasLeft : ConnectionPc n → Bool
  | .shutdown | .lockRemove | .erase | .unlockRemove | .destroy | .ended => true
  | _ => false

def holdsMutex : ConnectionPc n → Bool
  | .pushBack | .unlockAdd | .erase | .unlockRemove => true
  | _ => false

variable {acceptorOpen : Fin n → Bool} {e : Effect n} {pc pc' : ConnectionPc n}

private theorem hasLeft_or_isListed (h : pc.isRegistered = true) :
    pc.hasLeft = true ∨ pc.isListed = true := by
  rcases pc <;> simp_all [isRegistered, isListed, hasLeft]

private theorem isRegistered_of_hasLeft (h : pc.hasLeft = true) : pc.isRegistered = true := by
  rcases pc <;> simp_all [isRegistered, hasLeft]

private theorem next_isRegistered (h : pc.next acceptorOpen = some (e, pc'))
    (hpc : pc.isRegistered = true) : pc'.isRegistered = true := by
  rcases pc <;> simp_all [next, isRegistered] <;> simp [← h.2]

private theorem next_hasLeft (h : pc.next acceptorOpen = some (e, pc')) (hpc : pc.hasLeft = true) :
    pc'.hasLeft = true := by
  rcases pc <;> simp_all [next, hasLeft] <;> simp [← h.2]

private theorem next_isListed (h : pc.next acceptorOpen = some (e, pc'))
    (hpc' : pc'.isListed = true) : e = .pushBack ∨ pc.isListed = true ∧ e ≠ .erase := by
  rcases pc <;> simp_all [next, isListed] <;> grind

private theorem next_not_isRegistered (h : pc.next acceptorOpen = some (e, pc'))
    (hpc' : pc'.isRegistered = false) :
    pc.isRegistered = false ∧ e ≠ .pushBack ∧ e ≠ .close := by
  rcases pc <;> simp_all [next, isRegistered] <;> grind

private theorem next_holdsMutex_or (h : pc.next acceptorOpen = some (e, pc'))
    (hpc : pc.isRegistered = false) : pc.holdsMutex = true ∨ pc'.isRegistered = false := by
  rcases pc <;> simp_all [next, isRegistered, holdsMutex] <;> grind

private theorem next_holdsMutex (h : pc.next acceptorOpen = some (e, pc')) :
    (e = .lock ∧ pc.holdsMutex = false ∧ pc'.holdsMutex = true) ∨
    (e = .unlock ∧ pc.holdsMutex = true ∧ pc'.holdsMutex = false) ∨
    (e ≠ .lock ∧ e ≠ .unlock ∧ pc'.holdsMutex = pc.holdsMutex) := by
  rcases pc <;> simp_all [next, holdsMutex] <;> grind

private theorem holdsMutex_of_next (h : pc.next acceptorOpen = some (.erase, pc')) :
    pc.holdsMutex = true := by
  rcases pc <;> simp_all [next, holdsMutex]

end ConnectionPc

variable {s t : State n} {i j : ℕ} {c c' : Connection n}

theorem connectionStep_eq_some (h : connectionStep i s = some t) :
    ∃ c e pc mutex, s.accepted[i]? = some c ∧ c.pc.next s.acceptorOpen = some (e, pc) ∧
      e.mutex i s.mutex = some mutex ∧ t = { s with
        pending := e.pending s.pending
        accepted := s.accepted.set i ⟨pc, e.isOpen c.isOpen⟩
        mutex := mutex
        connections := e.connections i s.connections } := by
  obtain ⟨c, hc, h⟩ := Option.bind_eq_some_iff.mp h
  obtain ⟨⟨e, pc⟩, hnext, h⟩ := Option.bind_eq_some_iff.mp h
  obtain ⟨mutex, hmutex, h⟩ := Option.bind_eq_some_iff.mp h
  exact ⟨c, e, pc, mutex, hc, hnext, hmutex, (Option.some.inj h).symm⟩

/-- What a step of `stop` does. -/
inductive StopMove (s : State n) : State n → Prop
  | start (hstop : s.stop = .idle) : StopMove s { s with stop := .closeAcceptor 0 }
  | closeAcceptor {k : ℕ} (hstop : s.stop = .closeAcceptor k) (hk : k < n) :
    StopMove s { s with
      acceptorOpen := Function.update s.acceptorOpen ⟨k, hk⟩ false
      stop := .closeAcceptor (k + 1) }
  | acceptorsClosed {k : ℕ} (hstop : s.stop = .closeAcceptor k) (hk : n ≤ k) :
    StopMove s { s with stop := .lock }
  | lock (hstop : s.stop = .lock) (hfree : s.mutex = none) :
    StopMove s { s with mutex := some .stop, stop := .close s.connections }
  | close {i : ℕ} {rest : List ℕ} (hstop : s.stop = .close (i :: rest)) :
    StopMove s { s with
      accepted := s.accepted.modify i fun c ↦ { c with isOpen := false }
      stop := .close rest }
  | socketsClosed (hstop : s.stop = .close []) : StopMove s { s with stop := .clear }
  | clear (hstop : s.stop = .clear) : StopMove s { s with connections := [], stop := .unlock }
  | unlock (hstop : s.stop = .unlock) : StopMove s { s with mutex := none, stop := .returned }

theorem stopStep_move (h : stopStep s = some t) : StopMove s t := by
  rcases hstop : s.stop with - | k | - | ⟨- | ⟨i, rest⟩⟩ | - | - | - <;>
    simp only [stopStep, hstop, Option.some.injEq, reduceCtorEq] at h
  case idle => exact h ▸ .start hstop
  case closeAcceptor =>
    split_ifs at h with hk
    · exact Option.some.inj h ▸ .closeAcceptor hstop hk
    · exact Option.some.inj h ▸ .acceptorsClosed hstop (not_lt.mp hk)
  case lock =>
    obtain ⟨hfree, rfl⟩ := of_ite_some h
    exact .lock hstop hfree
  case close.nil => exact h ▸ .socketsClosed hstop
  case close.cons => exact h ▸ .close hstop
  case clear => exact h ▸ .clear hstop
  case unlock => exact h ▸ .unlock hstop

private theorem getElem?_set_eq_some {l : List (Connection n)} {b : Connection n}
    (h : (l.set i b)[j]? = some c) : j = i ∧ c = b ∨ j ≠ i ∧ l[j]? = some c := by
  rcases eq_or_ne j i with rfl | hne
  · rw [List.getElem?_set_self'] at h
    obtain ⟨_, -, rfl⟩ := Option.map_eq_some_iff.mp h
    exact Or.inl ⟨rfl, rfl⟩
  · rw [List.getElem?_set_ne hne.symm] at h
    exact Or.inr ⟨hne, h⟩

private theorem getElem?_modify_eq_some {l : List (Connection n)}
    (h : (l.modify i fun c ↦ { c with isOpen := false })[j]? = some c') :
    ∃ c, l[j]? = some c ∧ c'.pc = c.pc ∧ (j = i ∧ c'.isOpen = false ∨ j ≠ i ∧ c' = c) := by
  rw [List.getElem?_modify] at h
  obtain ⟨c, hc, rfl⟩ := Option.map_eq_some_iff.mp h
  refine ⟨c, hc, ?_⟩
  rcases eq_or_ne i j with rfl | hne
  · rw [if_pos rfl]
    exact ⟨rfl, Or.inl ⟨rfl, rfl⟩⟩
  · rw [if_neg hne]
    exact ⟨rfl, Or.inr ⟨hne.symm, rfl⟩⟩

private theorem getElem?_append_eq_some {l : List (Connection n)} {b : Connection n}
    (h : (l ++ [b])[j]? = some c) : l[j]? = some c ∨ j = l.length ∧ c = b := by
  rw [List.getElem?_append] at h
  split_ifs at h with hlt
  · exact Or.inl h
  · obtain ⟨hzero, rfl⟩ := List.getElem?_eq_some_iff.mp h
    have heq : j - l.length = 0 := Nat.lt_one_iff.mp hzero
    exact Or.inr ⟨le_antisymm (Nat.sub_eq_zero_iff_le.mp heq) (not_lt.mp hlt), by simp⟩

/-! ## Runs in which all connections are registered

`Covers` says what `stop` has done for a connection, given where `stop` is. The step that takes the
mutex of the list establishes it for the connections that are not closed with a listener; nothing
undoes it afterwards. -/

/-- If `stop` takes the mutex of the list in this step, all accepted connections have been put into
the list. -/
def Registers (a : Action n) (s : State n) : Prop :=
  a = .stop → s.stop = .lock → ∀ c ∈ s.accepted, c.pc.isRegistered = true

instance (a : Action n) (s : State n) : Decidable (Registers a s) :=
  inferInstanceAs (Decidable (_ → _ → _))

/-- A step in which `stop` does not take the mutex too early. -/
def RegisteredStep : State n → State n → Prop := Acts (guarded Registers act)

/-- Once `stop` has returned, all connections are closed, or their coroutines have left
`handle_connection`. -/
def Closes (s : State n) : Prop :=
  s.stop = .returned → ∀ c ∈ s.accepted, c.isOpen = false ∨ c.pc.hasLeft = true

namespace StopPc

/-- `stop` has closed this listener. -/
def HasClosed (l : Fin n) : StopPc → Prop
  | .idle => False
  | .closeAcceptor k => l.val < k
  | _ => True

/-- The list has not been cleared. -/
def KeepsList : StopPc → Prop
  | .unlock | .returned => False
  | _ => True

def HoldsMutex : StopPc → Prop
  | .close _ | .clear | .unlock => True
  | _ => False

/-- What `stop` has done for a connection. -/
def Covers (i : ℕ) (c : Connection n) : StopPc → Prop
  | .close rest =>
    c.pc.isRegistered = true ∧ ((c.isOpen = false ∨ c.pc.hasLeft = true) ∨ i ∈ rest)
  | .clear | .unlock | .returned =>
    c.pc.isRegistered = true ∧ (c.isOpen = false ∨ c.pc.hasLeft = true)
  | _ => True

end StopPc

/-- What `stop` relies on, and what it achieves. -/
structure Closing (s : State n) : Prop where
  acceptors : ∀ l, s.stop.HasClosed l → s.acceptorOpen l = false
  listed : s.stop.KeepsList → ∀ i c, s.accepted[i]? = some c → c.pc.isListed = true →
    i ∈ s.connections
  covers : ∀ i c, s.accepted[i]? = some c → s.stop.Covers i c

namespace Closing

theorem initial (h : IsInitial s) : Closing s := by
  obtain ⟨listening, rfl⟩ := h
  refine ⟨fun _ hclosed ↦ hclosed.elim, fun _ i c hc ↦ ?_, fun i c _ ↦ trivial⟩
  exact absurd (List.mem_of_getElem? hc) List.not_mem_nil

private theorem covers_next {e : Effect n} {pc : ConnectionPc n} {stop : StopPc}
    (hnext : c.pc.next s.acceptorOpen = some (e, pc)) (h : stop.Covers i c) :
    stop.Covers i ⟨pc, e.isOpen c.isOpen⟩ := by
  have hdone : c.isOpen = false ∨ c.pc.hasLeft = true →
      e.isOpen c.isOpen = false ∨ pc.hasLeft = true :=
    Or.imp Effect.isOpen_eq_false (ConnectionPc.next_hasLeft hnext)
  match stop with
  | .idle | .closeAcceptor _ | .lock => trivial
  | .close rest => exact ⟨ConnectionPc.next_isRegistered hnext h.1, h.2.imp_left hdone⟩
  | .clear | .unlock | .returned =>
    exact ⟨ConnectionPc.next_isRegistered hnext h.1, hdone h.2⟩

theorem connectionStep (h : Closing s) (hst : AsioFrontend.connectionStep i s = some t) :
    Closing t := by
  obtain ⟨c, e, pc, mutex, hc, hnext, -, rfl⟩ := connectionStep_eq_some hst
  refine ⟨h.acceptors, fun hkeeps j d hd hlisted ↦ ?_, fun j d hd ↦ ?_⟩
  · rcases getElem?_set_eq_some hd with ⟨rfl, rfl⟩ | ⟨hne, hd⟩
    · rcases ConnectionPc.next_isListed hnext hlisted with rfl | ⟨hold, herase⟩
      · exact List.mem_append_right _ (List.mem_singleton_self _)
      · exact Effect.mem_connections (Or.inr herase) (h.listed hkeeps j c hc hold)
    · exact Effect.mem_connections (Or.inl hne) (h.listed hkeeps j d hd hlisted)
  · rcases getElem?_set_eq_some hd with ⟨rfl, rfl⟩ | ⟨hne, hd⟩
    · exact covers_next hnext (h.covers j c hc)
    · exact h.covers j d hd

theorem accept (h : Closing s) {l : Fin n} (hopen : s.acceptorOpen l = true) :
    Closing { s with
      pending := Function.update s.pending l false
      accepted := s.accepted ++ [⟨.testOpen l, true⟩] } := by
  have hnot : ¬ s.stop.HasClosed l := fun hclosed ↦
    Bool.noConfusion (hopen.symm.trans (h.acceptors l hclosed))
  refine ⟨h.acceptors, fun hkeeps j d hd hlisted ↦ ?_, fun j d hd ↦ ?_⟩
  · rcases getElem?_append_eq_some hd with hd | ⟨rfl, rfl⟩
    · exact h.listed hkeeps j d hd hlisted
    · exact Bool.noConfusion hlisted
  · rcases getElem?_append_eq_some hd with hd | ⟨rfl, rfl⟩
    · exact h.covers j d hd
    · -- From `lock` on all listeners are closed.
      match hstop : s.stop with
      | .idle | .closeAcceptor _ | .lock => trivial
      | .close _ | .clear | .unlock | .returned =>
        rw [hstop] at hnot
        exact absurd trivial hnot

theorem stopStep (h : Closing s) (hregisters : Registers .stop s)
    (hst : AsioFrontend.stopStep s = some t) : Closing t := by
  obtain ⟨hacceptors, hlisted, hcovers⟩ := h
  cases stopStep_move hst with
  | start hstop =>
    rw [hstop] at hlisted
    exact ⟨fun l hl ↦ absurd hl (Nat.not_lt_zero _), hlisted, fun _ _ _ ↦ trivial⟩
  | @closeAcceptor k hstop hk =>
    rw [hstop] at hacceptors hlisted
    refine ⟨fun l hl ↦ ?_, hlisted, fun _ _ _ ↦ trivial⟩
    rcases eq_or_ne l ⟨k, hk⟩ with rfl | hne
    · exact Function.update_self _ _ _
    · have hlt : l.val < k :=
        lt_of_le_of_ne (Nat.lt_succ_iff.mp hl) fun heq ↦ hne (Fin.ext heq)
      exact (Function.update_of_ne hne _ _).trans (hacceptors l hlt)
  | acceptorsClosed hstop hk =>
    rw [hstop] at hacceptors hlisted
    exact ⟨fun l _ ↦ hacceptors l (l.isLt.trans_le hk), hlisted, fun _ _ _ ↦ trivial⟩
  | lock hstop =>
    rw [hstop] at hacceptors hlisted
    refine ⟨hacceptors, hlisted, fun i c hc ↦ ?_⟩
    have hregistered := hregisters rfl hstop c (List.mem_of_getElem? hc)
    -- A connection that was put into the list is still there, or its coroutine has taken it out.
    refine ⟨hregistered, ?_⟩
    rcases ConnectionPc.hasLeft_or_isListed hregistered with hleft | hin
    · exact Or.inl (Or.inr hleft)
    · exact Or.inr (hlisted trivial i c hc hin)
  | close hstop =>
    rw [hstop] at hacceptors hlisted hcovers
    refine ⟨hacceptors, fun _ j d hd hin ↦ ?_, fun j d hd ↦ ?_⟩
    · obtain ⟨c, hc, hpc, -⟩ := getElem?_modify_eq_some hd
      rw [hpc] at hin
      exact hlisted trivial j c hc hin
    · obtain ⟨c, hc, hpc, ⟨rfl, hclosed⟩ | ⟨hne, rfl⟩⟩ := getElem?_modify_eq_some hd
      · refine ⟨?_, Or.inl (Or.inl hclosed)⟩
        rw [hpc]
        exact (hcovers j c hc).1
      · exact (hcovers j d hc).imp_right (Or.imp_right fun hin ↦ List.mem_of_ne_of_mem hne hin)
  | socketsClosed hstop =>
    rw [hstop] at hacceptors hlisted hcovers
    exact ⟨hacceptors, hlisted, fun i c hc ↦
      (hcovers i c hc).imp_right (Or.resolve_right · List.not_mem_nil)⟩
  | clear hstop | unlock hstop =>
    rw [hstop] at hacceptors hcovers
    exact ⟨hacceptors, fun hkeeps ↦ hkeeps.elim, hcovers⟩

/-- **One step.** -/
theorem step (h : Closing s) (hst : RegisteredStep s t) : Closing t := by
  obtain ⟨a, ha⟩ := hst
  obtain ⟨hregisters, ha⟩ := guarded_eq_some.mp ha
  rcases a with l | l | i | -
  · obtain ⟨⟨-, hopen⟩, rfl⟩ := of_ite_some ha
    exact h.accept hopen
  · obtain ⟨-, rfl⟩ := of_ite_some ha
    exact ⟨h.acceptors, h.listed, h.covers⟩
  · exact h.connectionStep ha
  · exact h.stopStep hregisters ha

/-- **A run.** -/
theorem of_reachable (hs : Reachable IsInitial RegisteredStep s) : Closing s :=
  hs.invariant (fun _ ↦ initial) fun _ _ _ h hst ↦ h.step hst

theorem closes (h : Closing s) : Closes s := by
  intro hstop c hc
  obtain ⟨i, hi⟩ := List.mem_iff_getElem?.mp hc
  have hcovers := h.covers i c hi
  rw [hstop] at hcovers
  exact hcovers.2

end Closing

/-! ## Runs in which a connection is missed

The runs that `Registers` leaves out are followed from the step at which it fails. The connection
that was not in the list at that step stays out of it until `stop` is through, for it needs the
mutex to get there. -/

/-- The list is changed by those who hold the mutex, and a connection that is not yet in it is open.
-/
structure Orderly (s : State n) : Prop where
  connection : ∀ i c, s.accepted[i]? = some c → c.pc.holdsMutex = true →
    s.mutex = some (.connection i)
  stop : s.stop.HoldsMutex → s.mutex = some .stop
  closing : ∀ rest, s.stop = .close rest → rest ⊆ s.connections
  known : ∀ i ∈ s.connections, i < s.accepted.length
  unlisted : ∀ i c, s.accepted[i]? = some c → c.pc.isRegistered = false →
    c.isOpen = true ∧ i ∉ s.connections

namespace Orderly

theorem initial (h : IsInitial s) : Orderly s := by
  obtain ⟨listening, rfl⟩ := h
  refine ⟨fun i c hc ↦ ?_, fun hholds ↦ hholds.elim, fun _ hstop ↦ StopPc.noConfusion hstop,
    fun i hi ↦ absurd hi List.not_mem_nil, fun i c hc ↦ ?_⟩
  · exact absurd (List.mem_of_getElem? hc) List.not_mem_nil
  · exact absurd (List.mem_of_getElem? hc) List.not_mem_nil

theorem connectionStep (h : Orderly s) (hst : AsioFrontend.connectionStep i s = some t) :
    Orderly t := by
  obtain ⟨c, e, pc, mutex, hc, hnext, hmutex, rfl⟩ := connectionStep_eq_some hst
  have hholds := ConnectionPc.next_holdsMutex hnext
  have hmove : MutexMove (.connection i) s.mutex mutex := by
    refine Effect.mutexMove hmutex ?_
    rintro rfl
    rcases hholds with ⟨hlock, -⟩ | ⟨-, hheld, -⟩ | ⟨-, hunlock, -⟩
    · exact absurd hlock (by simp)
    · exact h.connection i c hc hheld
    · exact absurd rfl hunlock
  refine ⟨fun j d hd hheld ↦ ?_, fun hstop ↦ hmove.held (h.stop hstop) Holder.noConfusion,
    fun rest hrest j hj ↦ ?_, fun j hj ↦ ?_, fun j d hd hpc ↦ ?_⟩
  · rcases getElem?_set_eq_some hd with ⟨rfl, rfl⟩ | ⟨hne, hd⟩
    · rcases hholds with ⟨rfl, -⟩ | ⟨-, -, hfalse⟩ | ⟨hlock, hunlock, heq⟩
      · obtain ⟨-, hafter⟩ := Option.ite_none_right_eq_some.mp hmutex
        exact (Option.some.inj hafter).symm
      · exact Bool.noConfusion (hfalse.symm.trans hheld)
      · rw [Effect.mutex_eq hmutex hlock hunlock]
        exact h.connection j c hc (heq.symm.trans hheld)
    · exact hmove.held (h.connection j d hd hheld) fun heq ↦ hne (Holder.connection.inj heq)
  · refine Effect.mem_connections (Or.inr ?_) (h.closing rest hrest hj)
    rintro rfl
    -- A connection would hold the mutex as well.
    have hstop : s.stop.HoldsMutex := by
      rw [hrest]
      trivial
    have hboth := (h.stop hstop).symm.trans
      (h.connection i c hc (ConnectionPc.holdsMutex_of_next hnext))
    exact Holder.noConfusion (Option.some.inj hboth)
  · rw [List.length_set]
    rcases eq_or_ne j i with rfl | hne
    · exact (List.getElem?_eq_some_iff.mp hc).1
    · by_contra hlarge
      exact Effect.notMem_connections (Or.inl hne) (fun hmem ↦ hlarge (h.known j hmem)) hj
  · rcases getElem?_set_eq_some hd with ⟨rfl, rfl⟩ | ⟨hne, hd⟩
    · obtain ⟨hold, hpush, hclose⟩ := ConnectionPc.next_not_isRegistered hnext hpc
      obtain ⟨hopen, hmem⟩ := h.unlisted j c hc hold
      exact ⟨(Effect.isOpen_eq hclose c.isOpen).trans hopen,
        Effect.notMem_connections (Or.inr hpush) hmem⟩
    · obtain ⟨hopen, hmem⟩ := h.unlisted j d hd hpc
      exact ⟨hopen, Effect.notMem_connections (Or.inl hne) hmem⟩

theorem accept (h : Orderly s) (l : Fin n) (pending : Fin n → Bool) :
    Orderly { s with pending := pending, accepted := s.accepted ++ [⟨.testOpen l, true⟩] } := by
  refine ⟨fun j d hd hheld ↦ ?_, h.stop, h.closing, fun j hj ↦ ?_, fun j d hd hpc ↦ ?_⟩
  · rcases getElem?_append_eq_some hd with hd | ⟨rfl, rfl⟩
    · exact h.connection j d hd hheld
    · exact Bool.noConfusion hheld
  · rw [List.length_append]
    exact Nat.lt_add_right _ (h.known j hj)
  · rcases getElem?_append_eq_some hd with hd | ⟨rfl, rfl⟩
    · exact h.unlisted j d hd hpc
    · exact ⟨rfl, fun hmem ↦ (h.known _ hmem).false⟩

private theorem withStop (h : Orderly s) {acceptorOpen : Fin n → Bool} {stop : StopPc}
    (hheld : stop.HoldsMutex → s.mutex = some .stop)
    (hclosing : ∀ rest, stop = .close rest → rest ⊆ s.connections) :
    Orderly { s with acceptorOpen, stop } :=
  ⟨h.connection, hheld, hclosing, h.known, h.unlisted⟩

theorem stopStep (h : Orderly s) (hst : AsioFrontend.stopStep s = some t) : Orderly t := by
  have hstopped := h.stop
  cases stopStep_move hst with
  | start | closeAcceptor | acceptorsClosed =>
    exact h.withStop False.elim fun _ hrest ↦ StopPc.noConfusion hrest
  | lock hstop hfree =>
    refine ⟨fun j d hd hheld ↦ ?_, fun _ ↦ rfl, fun rest hrest ↦ ?_, h.known, h.unlisted⟩
    · exact absurd (hfree.symm.trans (h.connection j d hd hheld)) (by simp)
    · rw [← StopPc.close.inj hrest]
      exact List.Subset.refl _
  | @close i rest hstop =>
    -- The socket that is closed belongs to a connection in the list.
    have hin : i :: rest ⊆ s.connections := h.closing _ hstop
    rw [hstop] at hstopped
    refine ⟨fun j d hd hheld ↦ ?_, fun _ ↦ hstopped trivial, fun rest' hrest ↦ ?_, fun j hj ↦ ?_,
      fun j d hd hpc ↦ ?_⟩
    · obtain ⟨c, hc, heq, -⟩ := getElem?_modify_eq_some hd
      exact h.connection j c hc (heq ▸ hheld)
    · rw [← StopPc.close.inj hrest]
      exact List.subset_of_cons_subset hin
    · rw [List.length_modify]
      exact h.known j hj
    · obtain ⟨c, hc, heq, ⟨rfl, -⟩ | ⟨-, rfl⟩⟩ := getElem?_modify_eq_some hd
      · exact absurd (hin List.mem_cons_self) (h.unlisted j c hc (heq ▸ hpc)).2
      · exact h.unlisted j d hc hpc
  | socketsClosed hstop =>
    rw [hstop] at hstopped
    exact h.withStop (fun _ ↦ hstopped trivial) fun _ hrest ↦ StopPc.noConfusion hrest
  | clear hstop =>
    rw [hstop] at hstopped
    exact ⟨h.connection, fun _ ↦ hstopped trivial, fun _ hrest ↦ StopPc.noConfusion hrest,
      fun _ hj ↦ absurd hj List.not_mem_nil,
      fun j d hd hpc ↦ ⟨(h.unlisted j d hd hpc).1, List.not_mem_nil⟩⟩
  | unlock hstop =>
    rw [hstop] at hstopped
    refine ⟨fun j d hd hheld ↦ ?_, fun hholds ↦ hholds.elim,
      fun _ hrest ↦ StopPc.noConfusion hrest, h.known, h.unlisted⟩
    have hboth := (hstopped trivial).symm.trans (h.connection j d hd hheld)
    exact Holder.noConfusion (Option.some.inj hboth)

theorem step (h : Orderly s) (hst : Step s t) : Orderly t := by
  obtain ⟨a, ha⟩ := hst
  rcases a with l | l | i | -
  · obtain ⟨-, rfl⟩ := of_ite_some ha
    exact h.accept l _
  · obtain ⟨-, rfl⟩ := of_ite_some ha
    exact ⟨h.connection, h.stop, h.closing, h.known, h.unlisted⟩
  · exact h.connectionStep ha
  · exact h.stopStep ha

theorem of_reachable (hs : Reachable IsInitial Step s) : Orderly s :=
  hs.invariant (fun _ ↦ initial) fun _ _ _ h hst ↦ h.step hst

end Orderly

/-- `stop` goes through the list, or has returned, and this connection was not in it. -/
def Missed (i : ℕ) (s : State n) : Prop :=
  s.stop = .returned ∨
    s.stop.HoldsMutex ∧ ∃ c, s.accepted[i]? = some c ∧ c.pc.isRegistered = false

private theorem missed_of_step (h : Orderly s) (hmissed : Missed i s) (hst : Step s t) :
    Missed i t := by
  obtain ⟨a, ha⟩ := hst
  rcases a with l | l | j | -
  · obtain ⟨-, rfl⟩ := of_ite_some ha
    refine hmissed.imp_right (And.imp_right ?_)
    rintro ⟨c, hc, hpc⟩
    have hlt : i < s.accepted.length := (List.getElem?_eq_some_iff.mp hc).1
    exact ⟨c, (List.getElem?_append_left hlt).trans hc, hpc⟩
  · obtain ⟨-, rfl⟩ := of_ite_some ha
    exact hmissed
  · obtain ⟨d, e, pc, mutex, hd, hnext, -, rfl⟩ := connectionStep_eq_some ha
    refine hmissed.imp_right ?_
    rintro ⟨hstop, c, hc, hpc⟩
    refine ⟨hstop, ?_⟩
    rcases eq_or_ne i j with rfl | hne
    · obtain rfl := Option.some.inj (hc.symm.trans hd)
      have hlt : i < s.accepted.length := (List.getElem?_eq_some_iff.mp hc).1
      refine ⟨⟨pc, e.isOpen c.isOpen⟩, List.getElem?_set_self hlt, ?_⟩
      -- To be put into the list, the connection would have to hold the mutex that `stop` holds.
      refine (ConnectionPc.next_holdsMutex_or hnext hpc).resolve_left fun hheld ↦ ?_
      have hboth := (h.stop hstop).symm.trans (h.connection i c hc hheld)
      exact Holder.noConfusion (Option.some.inj hboth)
    · exact ⟨c, (List.getElem?_set_ne hne.symm).trans hc, hpc⟩
  · rcases hmissed with hreturned | ⟨hholds, c, hc, hpc⟩
    · simp only [act, stopStep, hreturned, reduceCtorEq] at ha
    · cases stopStep_move ha with
      | start hstop | closeAcceptor hstop | acceptorsClosed hstop | lock hstop =>
        rw [hstop] at hholds
        exact hholds.elim
      | @close j rest hstop =>
        refine Or.inr ⟨trivial, if j = i then { c with isOpen := false } else c, ?_, ?_⟩
        · rw [List.getElem?_modify, hc]
          rfl
        · rwa [apply_ite Connection.pc, ite_self]
      | socketsClosed | clear => exact Or.inr ⟨trivial, c, hc, hpc⟩
      | unlock => exact Or.inl rfl

private theorem missed_of_not_registers {a : Action n} (ha : act a s = some t) (h : ¬ Registers a s)
    : ∃ i, Missed i t := by
  rw [Registers, Classical.not_imp, Classical.not_imp] at h
  obtain ⟨rfl, hlock, hnot⟩ := h
  push Not at hnot
  obtain ⟨c, hc, hpc⟩ := hnot
  obtain ⟨i, hi⟩ := List.mem_iff_getElem?.mp hc
  simp only [act, stopStep, hlock] at ha
  obtain ⟨-, rfl⟩ := of_ite_some ha
  exact ⟨i, Or.inr ⟨trivial, c, hi, Bool.eq_false_iff.mpr hpc⟩⟩

private theorem not_closes_of_missed (h : Orderly s) (hmissed : Missed i s)
    (hst : stopStep s = some t) (hreturned : t.stop = .returned) : ¬ Closes t := by
  intro hcloses
  rcases hmissed with hold | ⟨-, c, hc, hpc⟩
  · simp only [stopStep, hold, reduceCtorEq] at hst
  · obtain ⟨hopen, -⟩ := h.unlisted i c hc hpc
    cases stopStep_move hst with
    | unlock =>
      rcases hcloses rfl c (List.mem_of_getElem? hc) with hclosed | hleft
      · exact Bool.noConfusion (hclosed.symm.trans hopen)
      · exact Bool.noConfusion ((ConnectionPc.isRegistered_of_hasLeft hleft).symm.trans hpc)
    | start | closeAcceptor | acceptorsClosed | lock | close | socketsClosed | clear =>
      exact StopPc.noConfusion hreturned

/-- **The connections that are closed.** As long as `stop` does not take the mutex of the list while
an accepted connection is not in it yet, all connections are closed or left once it has returned. If
it does, this fails when it returns. -/
theorem closes_of_registered (hs : Reachable IsInitial RegisteredStep s) :
    Closes s ∧ ∀ a u v t, act a s = some u → ¬ Registers a s →
      Reachable (· = u) Step v → act .stop v = some t → t.stop = .returned → ¬ Closes t := by
  refine ⟨(Closing.of_reachable hs).closes, fun a u v t ha hnot hv hst hreturned ↦ ?_⟩
  have horderly : Orderly u :=
    (Orderly.of_reachable (hs.mono fun _ _ ↦ acts_of_guarded)).step ⟨a, ha⟩
  obtain ⟨i, hmissed⟩ := missed_of_not_registers ha hnot
  have hlast : Orderly v ∧ Missed i v := by
    refine hv.invariant (I := fun w ↦ Orderly w ∧ Missed i w) (fun w hw ↦ ?_)
      fun w x _ hw hx ↦ ?_
    · rw [hw]
      exact ⟨horderly, hmissed⟩
    · exact ⟨hw.1.step hx, missed_of_step hw.1 hw.2 hx⟩
  exact not_closes_of_missed hlast.1 hlast.2 hst hreturned

/-- Two listeners, as `init` makes them. -/
def listening : State 2 := { acceptorOpen := fun _ ↦ true, pending := fun _ ↦ true }

/-- A connection that is registered before `stop` is called. -/
theorem closes_of_registered_early :
    ∃ s : State 2, Reachable IsInitial RegisteredStep s ∧ s.stop = .returned ∧
      s.accepted ≠ [] ∧ Closes s := by
  have hs : (execute (guarded Registers act)
      (.accept 0 :: (List.replicate 7 (.connection 0) ++ List.replicate 9 .stop)) listening).any
      (fun s ↦ s.stop = .returned ∧ s.accepted ≠ []) = true := by decide +kernel
  obtain ⟨s, hrun, hreturned, haccepted⟩ := exists_of_execute hs
  have hreach : Reachable IsInitial RegisteredStep s :=
    reachable_of_execute (.start ⟨fun _ ↦ true, rfl⟩) hrun
  exact ⟨s, hreach, hreturned, haccepted, (closes_of_registered hreach).1⟩

/-- A connection whose coroutine is spawned when `stop` is called, and then serves the client. -/
theorem spawned_not_closes :
    ∃ s : State 2, Reachable IsInitial Step s ∧ s.accepted = [⟨.handle, true⟩] ∧ ¬ Closes s := by
  have hs : (execute act (.accept 0 :: (List.replicate 4 (.connection 0) ++
      List.replicate 8 .stop ++ List.replicate 3 (.connection 0))) listening).any
      (fun s ↦ s.stop = .returned ∧ s.accepted = [⟨.handle, true⟩]) = true := by decide +kernel
  obtain ⟨s, hrun, hreturned, haccepted⟩ := exists_of_execute hs
  refine ⟨s, reachable_of_execute (.start ⟨fun _ ↦ true, rfl⟩) hrun, haccepted, fun hcloses ↦ ?_⟩
  have hmem : (⟨.handle, true⟩ : Connection 2) ∈ s.accepted := by
    rw [haccepted]
    exact List.mem_singleton_self _
  rcases hcloses hreturned _ hmem with hclosed | hleft
  · exact Bool.noConfusion hclosed
  · exact Bool.noConfusion hleft

end AsioFrontend

end CppRepo
