import CppRepo.Library.Exec
import CppRepo.Library.Transition

/-!
# The list of connections

`ConnectionList` is an intrusive list: the node of a connection is a part of the `Connection`, which
lives in the frame of its coroutine. A connection leaves the list in one of two ways, through the
destructor of its guard or through `close`, and the two may run on different threads. Which of them
came first the guard finds out from the node itself, with `is_linked()`.

The three operations hold the mutex from beginning to end, so each of them is one step here. Any
number of coroutines and callers of `close` take their steps in any order; a coroutine destroys its
`Connection` when its guard is destroyed, and steps of others may fall in between.

A connection is a number. `linked` is the state of the nodes: `push_back` links a node, `erase` and
`clear` unlink. Each `socket.close` is counted. A history is the list of the steps so far.

## Who is in the list

A connection is in the list from `add` until either its guard is destroyed or `close` is called.
`Live` says this of a history, and the list has exactly the live connections in every run. The
sockets that `close` closes are therefore those of the live connections, each of them once, since a
connection is added once and is not added again after it has left.
-/

namespace CppRepo

namespace ConnectionList

/-- Where the coroutine of a connection is. -/
inductive ConnectionPc
  | notStarted
  /-- `Connection conn{s}` -/
  | constructed
  /-- `auto c = connections.add(conn)` -/
  | guarded
  /-- The guard is destroyed. -/
  | unguarded
  /-- The connection is destroyed. -/
  | destroyed
  deriving DecidableEq, Repr

/-- `ConnectionList`, with its connections and their sockets. -/
structure State where
  connections : List ℕ := []
  /-- `is_linked()` -/
  linked : ℕ → Bool := fun _ ↦ false
  /-- How often `close` has closed the socket. -/
  closes : ℕ → ℕ := fun _ ↦ 0
  pc : ℕ → ConnectionPc := fun _ ↦ .notStarted

/-- A step of a coroutine, or a call of `close`. -/
inductive Action
  | construct (c : ℕ)
  | add (c : ℕ)
  | destroyGuard (c : ℕ)
  | destroyConnection (c : ℕ)
  | close
  deriving DecidableEq, Repr

namespace State

/-- `connections.push_back(c)` -/
def pushBack (c : ℕ) (s : State) : State :=
  { s with connections := s.connections ++ [c], linked := Function.update s.linked c true }

/-- `connections.erase(List::s_iterator_to(c))` -/
def erase (c : ℕ) (s : State) : State :=
  { s with connections := s.connections.erase c, linked := Function.update s.linked c false }

/-- `connections.clear()`, which unlinks each node of the list. -/
def clear (s : State) : State :=
  { s with connections := [], linked := fun c ↦ s.linked c && !s.connections.contains c }

/-- `conn.socket.close(ec)` -/
def closeSocket (s : State) (c : ℕ) : State :=
  { s with closes := Function.update s.closes c (s.closes c + 1) }

def setPc (c : ℕ) (pc : ConnectionPc) (s : State) : State :=
  { s with pc := Function.update s.pc c pc }

end State

/-- `remove` -/
def remove (c : ℕ) (s : State) : State := if s.linked c then s.erase c else s

/-- `close` -/
def close (s : State) : State := (s.connections.foldl State.closeSocket s).clear

/-- The next state, if the step can be taken. -/
def act (a : Action) (s : State) : Option State :=
  match a with
  | .construct c => if s.pc c = .notStarted then some (s.setPc c .constructed) else none
  | .add c => if s.pc c = .constructed then some ((s.pushBack c).setPc c .guarded) else none
  | .destroyGuard c => if s.pc c = .guarded then some ((remove c s).setPc c .unguarded) else none
  | .destroyConnection c => if s.pc c = .unguarded then some (s.setPc c .destroyed) else none
  | .close => some (close s)

/-- The connection was added, and since then neither its guard was destroyed nor `close` was called.
-/
def Live (history : List Action) (c : ℕ) : Prop :=
  ∃ before since, history = before ++ .add c :: since ∧ .destroyGuard c ∉ since ∧ .close ∉ since

/-! ## What a step does

`Inv` ties the three views of a connection together: the list has no duplicates, a node is linked if
and only if it is in the list, and only a guarded connection is. The steps then are list operations,
and `mem_connections_iff` says what each does to the members. -/

section Moves

variable {c d : ℕ} {s t : State}

private theorem foldl_closeSocket (l : List ℕ) (s : State) :
    l.foldl State.closeSocket s = { s with closes := fun c ↦ s.closes c + l.count c } := by
  induction l generalizing s with
  | nil => rfl
  | cons d l ih =>
    rw [List.foldl_cons, ih]
    refine congrArg (fun closes ↦ { s with closes := closes }) (funext fun c ↦ ?_)
    by_cases h : c = d
    · subst h
      have hself : (s.closeSocket c).closes c = s.closes c + 1 := Function.update_self _ _ _
      rw [hself, List.count_cons_self, Nat.add_right_comm, Nat.add_assoc]
    · have hother : (s.closeSocket d).closes c = s.closes c := Function.update_of_ne h _ _
      rw [hother, List.count_cons_of_ne (Ne.symm h)]

private theorem closes_close (s : State) (c : ℕ) :
    (close s).closes c = s.closes c + s.connections.count c := by
  rw [close, foldl_closeSocket]
  rfl

/-- The nodes of the connections in the list are linked, each connection is in it once, and its
guard is alive. -/
structure Inv (s : State) : Prop where
  linked_iff : ∀ c, s.linked c = true ↔ c ∈ s.connections
  nodup : s.connections.Nodup
  guarded : ∀ c ∈ s.connections, s.pc c = .guarded

namespace Inv

private theorem setPc (hi : Inv s) (hc : c ∉ s.connections) (pc : ConnectionPc) :
    Inv (s.setPc c pc) := by
  refine ⟨hi.linked_iff, hi.nodup, fun d hd ↦ ?_⟩
  have hne : d ≠ c := fun heq ↦ hc (heq ▸ hd)
  exact (Function.update_of_ne hne _ _).trans (hi.guarded d hd)

theorem notMem (hi : Inv s) (hpc : s.pc c ≠ .guarded) : c ∉ s.connections := fun hc ↦
  hpc (hi.guarded c hc)

theorem add (hi : Inv s) (hpc : s.pc c = .constructed) :
    Inv ((s.pushBack c).setPc c .guarded) := by
  have hc : c ∉ s.connections := hi.notMem (by rw [hpc]; exact nofun)
  refine ⟨fun d ↦ ?_, List.nodup_append.mpr ?_, fun d hd ↦ ?_⟩
  · have hmem : d ∈ s.connections ++ [c] ↔ d ∈ s.connections ∨ d = c := by
      rw [List.mem_append, List.mem_singleton]
    refine Iff.trans ?_ hmem.symm
    by_cases h : d = c
    · subst h
      exact iff_of_true (Function.update_self _ _ _) (Or.inr rfl)
    · rw [or_iff_left h, ← hi.linked_iff d]
      exact iff_of_eq (congrArg (· = true) (Function.update_of_ne h _ _))
  · refine ⟨hi.nodup, List.nodup_singleton c, fun d hd e he heq ↦ hc ?_⟩
    rwa [← List.mem_singleton.mp he, ← heq]
  · by_cases h : d = c
    · subst h
      exact Function.update_self _ _ _
    · refine (Function.update_of_ne h _ _).trans (hi.guarded d ?_)
      exact (List.mem_append.mp hd).resolve_right fun hd ↦ h (List.mem_singleton.mp hd)

theorem erase (hi : Inv s) : Inv ((s.erase c).setPc c .unguarded) := by
  have hmem : ∀ d, d ∈ s.connections.erase c ↔ d ≠ c ∧ d ∈ s.connections := fun d ↦
    hi.nodup.mem_erase_iff
  refine ⟨fun d ↦ Iff.trans ?_ (hmem d).symm, hi.nodup.erase c, fun d hd ↦ ?_⟩
  · by_cases h : d = c
    · subst h
      refine iff_of_false ?_ fun hne ↦ hne.1 rfl
      exact fun htrue ↦ Bool.false_ne_true ((Function.update_self _ _ _).symm.trans htrue)
    · rw [and_iff_right h, ← hi.linked_iff d]
      exact iff_of_eq (congrArg (· = true) (Function.update_of_ne h _ _))
  · obtain ⟨h, hd⟩ := (hmem d).mp hd
    exact (Function.update_of_ne h _ _).trans (hi.guarded d hd)

theorem close (hi : Inv s) : Inv (close s) := by
  refine ⟨fun d ↦ ?_, List.nodup_nil, fun d hd ↦ absurd hd List.not_mem_nil⟩
  refine iff_of_false ?_ List.not_mem_nil
  rw [ConnectionList.close, foldl_closeSocket]
  intro htrue
  obtain ⟨hlinked, hout⟩ := (Bool.and_eq_true _ _).mp htrue
  have hin : s.connections.contains d = true :=
    List.contains_iff_mem.mpr ((hi.linked_iff d).mp hlinked)
  rw [hin] at hout
  exact absurd hout (by decide)

private theorem remove_eq (hi : Inv s) :
    remove c s = if c ∈ s.connections then s.erase c else s := by
  by_cases h : c ∈ s.connections
  · rw [remove, if_pos ((hi.linked_iff c).mpr h), if_pos h]
  · rw [remove, if_neg fun hlinked ↦ h ((hi.linked_iff c).mp hlinked), if_neg h]

/-- **One step.** -/
theorem step {a : Action} (hi : Inv s) (h : act a s = some t) : Inv t := by
  cases a with
  | construct c =>
    obtain ⟨hpc, rfl⟩ := of_ite_some h
    exact hi.setPc (hi.notMem (by rw [hpc]; exact nofun)) _
  | add c =>
    obtain ⟨hpc, rfl⟩ := of_ite_some h
    exact hi.add hpc
  | destroyGuard c =>
    obtain ⟨hpc, rfl⟩ := of_ite_some h
    rw [hi.remove_eq]
    split_ifs with hc
    · exact hi.erase
    · exact hi.setPc hc _
  | destroyConnection c =>
    obtain ⟨hpc, rfl⟩ := of_ite_some h
    exact hi.setPc (hi.notMem (by rw [hpc]; exact nofun)) _
  | close =>
    obtain rfl := Option.some.inj h
    exact hi.close

/-- **A run.** -/
theorem of_execute {history : List Action} (h : execute act history {} = some s) : Inv s := by
  induction history using List.reverseRecOn generalizing s with
  | nil =>
    obtain rfl : {} = s := Option.some_inj.mp h
    refine ⟨fun c ↦ iff_of_false (by exact nofun) List.not_mem_nil, List.nodup_nil, ?_⟩
    exact fun c hc ↦ absurd hc List.not_mem_nil
  | append_singleton history a ih =>
    rw [execute_concat] at h
    obtain ⟨t, ht, ha⟩ := Option.bind_eq_some_iff.mp h
    exact (ih ht).step ha

end Inv

private theorem mem_connections_iff {a : Action} (hi : Inv s) (h : act a s = some t) :
    c ∈ t.connections ↔
      a = .add c ∨ c ∈ s.connections ∧ a ≠ .destroyGuard c ∧ a ≠ .close := by
  cases a with
  | construct d =>
    obtain ⟨-, rfl⟩ := of_ite_some h
    exact ⟨fun hc ↦ Or.inr ⟨hc, nofun, nofun⟩, fun hc ↦ (hc.resolve_left nofun).1⟩
  | add d =>
    obtain ⟨-, rfl⟩ := of_ite_some h
    have hmem : c ∈ s.connections ++ [d] ↔ c ∈ s.connections ∨ c = d := by
      rw [List.mem_append, List.mem_singleton]
    refine Iff.trans hmem ⟨?_, ?_⟩
    · rintro (hc | rfl)
      · exact Or.inr ⟨hc, nofun, nofun⟩
      · exact Or.inl rfl
    · rintro (heq | ⟨hc, -, -⟩)
      · exact Or.inr (Action.add.inj heq).symm
      · exact Or.inl hc
  | destroyGuard d =>
    obtain ⟨-, rfl⟩ := of_ite_some h
    rw [hi.remove_eq]
    split_ifs with hd
    · have hmem : c ∈ s.connections.erase d ↔ c ≠ d ∧ c ∈ s.connections := hi.nodup.mem_erase_iff
      refine Iff.trans hmem ⟨?_, ?_⟩
      · rintro ⟨hne, hc⟩
        exact Or.inr ⟨hc, fun heq ↦ hne (Action.destroyGuard.inj heq).symm, nofun⟩
      · rintro (heq | ⟨hc, hne, -⟩)
        · exact absurd heq nofun
        · exact ⟨fun heq ↦ hne (congrArg _ heq.symm), hc⟩
    · constructor
      · exact fun hc ↦ Or.inr ⟨hc, fun heq ↦ hd (Action.destroyGuard.inj heq ▸ hc), nofun⟩
      · exact fun hc ↦ (hc.resolve_left nofun).1
  | destroyConnection d =>
    obtain ⟨-, rfl⟩ := of_ite_some h
    exact ⟨fun hc ↦ Or.inr ⟨hc, nofun, nofun⟩, fun hc ↦ (hc.resolve_left nofun).1⟩
  | close =>
    obtain rfl := Option.some.inj h
    constructor
    · exact fun hc ↦ absurd hc List.not_mem_nil
    · rintro (heq | ⟨-, -, hne⟩)
      · exact Action.noConfusion heq
      · exact absurd rfl hne

private theorem live_concat_iff {history : List Action} {a : Action} :
    Live (history ++ [a]) c ↔ a = .add c ∨ Live history c ∧ a ≠ .destroyGuard c ∧ a ≠ .close := by
  constructor
  · rintro ⟨before, since, heq, hguard, hclose⟩
    rcases List.eq_nil_or_concat since with rfl | ⟨since, b, rfl⟩
    · exact Or.inl (List.append_inj_right' heq rfl |> List.singleton_inj.mp)
    · rw [List.concat_eq_append] at heq hguard hclose
      rw [← List.cons_append, ← List.append_assoc] at heq
      obtain ⟨rfl, hlast⟩ := List.append_inj' heq rfl
      obtain rfl := List.singleton_inj.mp hlast
      rw [List.mem_append, List.mem_singleton, not_or] at hguard hclose
      exact Or.inr ⟨⟨before, since, rfl, hguard.1, hclose.1⟩, Ne.symm hguard.2, Ne.symm hclose.2⟩
  · rintro (rfl | ⟨⟨before, since, rfl, hguard, hclose⟩, hne, hne'⟩)
    · exact ⟨history, [], rfl, List.not_mem_nil, List.not_mem_nil⟩
    · refine ⟨before, since ++ [a], by rw [List.append_assoc, List.cons_append], ?_, ?_⟩
      · rw [List.mem_append, List.mem_singleton, not_or]
        exact ⟨hguard, Ne.symm hne⟩
      · rw [List.mem_append, List.mem_singleton, not_or]
        exact ⟨hclose, Ne.symm hne'⟩

private theorem mem_connections_iff_live {history : List Action}
    (h : execute act history {} = some s) : c ∈ s.connections ↔ Live history c := by
  induction history using List.reverseRecOn generalizing s with
  | nil =>
    obtain rfl : {} = s := Option.some_inj.mp h
    refine iff_of_false List.not_mem_nil ?_
    rintro ⟨before, since, heq, -⟩
    exact absurd heq.symm (List.append_ne_nil_of_right_ne_nil _ (List.cons_ne_nil _ _))
  | append_singleton history a ih =>
    rw [execute_concat] at h
    obtain ⟨t, ht, ha⟩ := Option.bind_eq_some_iff.mp h
    rw [mem_connections_iff (Inv.of_execute ht) ha, live_concat_iff, ih ht]

/-- The coroutine of a connection that was added is past that point, and stays so. -/
def Added (s : State) (c : ℕ) : Prop := s.pc c ≠ .notStarted ∧ s.pc c ≠ .constructed

private theorem Added.setPc (hc : Added s c) {pc : ConnectionPc} (hpc : pc ≠ .notStarted)
    (hpc' : pc ≠ .constructed) : Added (s.setPc d pc) c := by
  by_cases h : c = d
  · subst h
    have hself : (s.setPc c pc).pc c = pc := Function.update_self _ _ _
    rw [Added, hself]
    exact ⟨hpc, hpc'⟩
  · have hother : (s.setPc d pc).pc c = s.pc c := Function.update_of_ne h _ _
    rw [Added, hother]
    exact hc

private theorem pc_remove : (remove c s).pc = s.pc := by
  rw [remove]
  split_ifs
  · rfl
  · rfl

theorem Added.step {a : Action} (hc : Added s c) (h : act a s = some t) : Added t c := by
  cases a with
  | construct d =>
    obtain ⟨hpc, rfl⟩ := of_ite_some h
    have hne : c ≠ d := fun heq ↦ hc.1 (heq ▸ hpc)
    have hother : (s.setPc d .constructed).pc c = s.pc c := Function.update_of_ne hne _ _
    rw [Added, hother]
    exact hc
  | add d =>
    obtain ⟨-, rfl⟩ := of_ite_some h
    have hpush : Added (s.pushBack d) c := hc
    exact hpush.setPc nofun nofun
  | destroyGuard d =>
    obtain ⟨-, rfl⟩ := of_ite_some h
    have hremove : Added (remove d s) c := by
      rw [Added, pc_remove]
      exact hc
    exact hremove.setPc nofun nofun
  | destroyConnection d =>
    obtain ⟨-, rfl⟩ := of_ite_some h
    exact hc.setPc nofun nofun
  | close =>
    obtain rfl := Option.some.inj h
    rw [Added, close, foldl_closeSocket]
    exact hc

private theorem added_of_mem {history : List Action} (h : execute act history {} = some s)
    (hadd : .add c ∈ history) : Added s c := by
  induction history using List.reverseRecOn generalizing s with
  | nil => exact absurd hadd List.not_mem_nil
  | append_singleton history a ih =>
    rw [execute_concat] at h
    obtain ⟨t, ht, ha⟩ := Option.bind_eq_some_iff.mp h
    rcases List.mem_append.mp hadd with hadd | hadd
    · exact (ih ht hadd).step ha
    · obtain rfl := List.mem_singleton.mp hadd
      obtain ⟨-, rfl⟩ := of_ite_some ha
      have hself : ((t.pushBack c).setPc c .guarded).pc c = .guarded := Function.update_self _ _ _
      rw [Added, hself]
      exact ⟨nofun, nofun⟩

private theorem add_notMem_before {before since : List Action}
    (h : execute act (before ++ .add c :: since) {} = some s) : .add c ∉ before := by
  intro hadd
  rw [execute_append] at h
  obtain ⟨t, ht, hrest⟩ := Option.bind_eq_some_iff.mp h
  obtain ⟨u, hu, -⟩ := Option.bind_eq_some_iff.mp hrest
  exact (added_of_mem ht hadd).2 (of_ite_some hu).1

private theorem not_live_of_close {before since : List Action}
    (h : execute act (before ++ .add c :: since) {} = some s) (hclose : .close ∈ since) :
    ¬ Live (before ++ .add c :: since) c := by
  rintro ⟨before', since', heq, -, hno⟩
  rcases split_trichotomy heq with ⟨mid, rfl⟩ | ⟨-, -, rfl⟩ | ⟨mid, rfl, -⟩
  · exact add_notMem_before h (List.mem_append_right _ List.mem_cons_self)
  · exact hno hclose
  · rw [heq] at h
    exact add_notMem_before h (List.mem_append_right _ List.mem_cons_self)

/-! ## The list

The claims about a history are read off at its end. A run is cut at the `add` of a connection:
before it the connection was not in the list, and after it whether it still is depends on the rest
of the run alone. -/

/-- After this history the list has the connections that are live, once each; `close` closes their
sockets, each once, and no others; the destructor of a guard does nothing to the list and the
sockets if `close` was called since the connection was added; and a connection that is destroyed is
not linked. -/
structure Keeps (history : List Action) (s : State) : Prop where
  mem_iff : ∀ c, c ∈ s.connections ↔ Live history c
  nodup : s.connections.Nodup
  close : ∀ t, act .close s = some t →
    ∀ c, t.closes c = s.closes c + if c ∈ s.connections then 1 else 0
  guard : ∀ before c since, history = before ++ .add c :: since → .close ∈ since →
    ∀ t, act (.destroyGuard c) s = some t → t = s.setPc c .unguarded
  destroy : ∀ c t, act (.destroyConnection c) s = some t →
    s.linked c = false ∧ c ∉ s.connections

/-- **The list of connections.** In every order of the steps of any number of connections and calls
of `close` the list keeps to its connections. -/
theorem keeps_of_execute {history : List Action} (h : execute act history {} = some s) :
    Keeps history s := by
  have hi : Inv s := Inv.of_execute h
  refine ⟨fun c ↦ mem_connections_iff_live h, hi.nodup, fun t ht c ↦ ?_,
    fun before c since heq hclose t ht ↦ ?_, fun c t ht ↦ ?_⟩
  · obtain rfl := Option.some.inj ht
    rw [closes_close, hi.nodup.count]
  · have hc : c ∉ s.connections := by
      subst heq
      rw [mem_connections_iff_live h]
      exact not_live_of_close h hclose
    obtain ⟨-, rfl⟩ := of_ite_some ht
    rw [hi.remove_eq, if_neg hc]
  · obtain ⟨hpc, -⟩ := of_ite_some ht
    have hc : c ∉ s.connections := hi.notMem (by rw [hpc]; exact nofun)
    exact ⟨Bool.eq_false_of_not_eq_true fun hlinked ↦ hc ((hi.linked_iff c).mp hlinked), hc⟩

/-- Two connections are added, `close` is called, and a third is added; then the first guard is
destroyed. -/
theorem keeps_of_execute_three :
    ∃ s, s.connections = [2] ∧ s.closes 0 = 1 ∧
      Keeps [.construct 0, .add 0, .construct 1, .add 1, .close, .construct 2, .add 2,
        .destroyGuard 0] s := by
  have hrun : (execute act [.construct 0, .add 0, .construct 1, .add 1, .close, .construct 2,
      .add 2, .destroyGuard 0] {}).any (fun s ↦ s.connections = [2] ∧ s.closes 0 = 1) = true := by
    decide +kernel
  obtain ⟨s, hs, hconnections, hcloses⟩ := exists_of_execute hrun
  exact ⟨s, hconnections, hcloses, keeps_of_execute hs⟩

end Moves

end ConnectionList

end CppRepo
