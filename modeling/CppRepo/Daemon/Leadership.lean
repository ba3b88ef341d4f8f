import CppRepo.Library.Transition
import CppRepo.Daemon.Election

/-!
# Who takes itself for the leader

A member remembers in `is_leader` what its last election came to. ZooKeeper removes the nodes of a
session when it expires the session, and the others may elect a new leader long before the old one
hears of it: nothing in the code asks ZooKeeper again before a member acts as leader. So there may
be two members with `is_leader` set, but not two whose session, the one of the node they were
elected with, is still alive.

## What a read may return

`get_children` returns the children at some time up to now, in any order: ZooKeeper does not promise
that a read sees the last write of another client. The argument only needs that sequence numbers
increase, so that a node is missing in a past list of children only if it was made later than all
nodes of that list, or is gone.

A member may run several elections at a time, one in `elect` or `reinit` and others in callbacks of
watches. These may be delivered at any time, and so may be the notifications that lead to a
`reinit`. A call of ZooKeeper may fail with an exception, which ends the election.
-/

namespace CppRepo

namespace Daemon

namespace Ensemble

/-- A child of the path of the election, with the session that made it: that of a member, by number.
-/
structure Child where
  node : Node
  session : ℕ × ℕ
  deriving DecidableEq

/-- What an election does next. -/
inductive ElectPc
  | idle
  /-- `self.is_leader = False`, in `reinit` -/
  | clear
  /-- `create_instance` -/
  | create
  /-- `self.zk.get_children` -/
  | getChildren
  /-- the rest of `_elect`, with what `get_children` returned -/
  | choose (children : List Child)
  deriving DecidableEq

/-- What happens in the ensemble. The first number is that of a member, the second one that of one
of its elections. -/
inductive Action
  /-- `elect` begins. -/
  | elect (i k : ℕ)
  /-- `reinit` begins. -/
  | reinit (i k : ℕ)
  /-- A watch is delivered. -/
  | watch (i k : ℕ)
  | clear (i k : ℕ)
  | create (i k : ℕ)
  | getChildren (i k : ℕ) (children : List Child)
  | choose (i k : ℕ)
  /-- The call of ZooKeeper raises. -/
  | fail (i k : ℕ)
  /-- ZooKeeper expires a session. -/
  | expire (session : ℕ × ℕ)
  /-- The client of a member begins a new session. -/
  | renew (i : ℕ)
  deriving DecidableEq

/-- The ensemble and its members. -/
structure State where
  children : List Child := []
  /-- The sequence number of the next node. -/
  next : ℕ := 0
  /-- The lists of children there have been. -/
  pasts : List (List Child) := [[]]
  expired : ℕ × ℕ → Bool := fun _ ↦ false
  /-- Which of its sessions a member is in. -/
  session : ℕ → ℕ := fun _ ↦ 0
  isLeader : ℕ → Bool := fun _ ↦ false
  elections : ℕ → ℕ → ElectPc := fun _ _ ↦ .idle
  /-- The node with which a member was last elected. -/
  won : ℕ → Option Child := fun _ ↦ none

def IsInitial (s : State) : Prop := s = {}

namespace State

def setElection (i k : ℕ) (pc : ElectPc) (s : State) : State :=
  { s with elections := Function.update s.elections i (Function.update (s.elections i) k pc) }

def setLeader (i : ℕ) (isLeader : Bool) (s : State) : State :=
  { s with isLeader := Function.update s.isLeader i isLeader }

/-- The children change. -/
def setChildren (children : List Child) (s : State) : State :=
  { s with children := children, pasts := children :: s.pasts }

/-- ZooKeeper expires a session, and removes the nodes it made. -/
def expire (session : ℕ × ℕ) (s : State) : State :=
  { s.setChildren (s.children.filter fun z ↦ z.session ≠ session) with
    expired := Function.update s.expired session true }

end State

variable (member : ℕ → Member)

/-- ZooKeeper makes a sequential node in a session that is alive, as long as ten digits suffice. -/
def createNode (i : ℕ) (s : State) : Option State :=
  let session := (i, s.session i)
  if h : s.next < 10 ^ 10 then
    if s.expired session then none
    else some { s.setChildren (s.children ++ [⟨⟨member i, ⟨s.next, h⟩⟩, session⟩]) with
      next := s.next + 1 }
  else none

/-- The rest of `_elect`, after `get_children`. An exception leaves the member as it is. -/
def chooseLeader (i : ℕ) (children : List Child) (s : State) : State :=
  match Daemon.elect (member i).memberId (s.isLeader i) (children.map fun z ↦ z.node.name) with
  | .error _ => s
  | .ok isLeader =>
    { s.setLeader i isLeader with
      won := Function.update s.won i (children.argmin fun z ↦ z.node.seq) }

/-- The next state. -/
def act (a : Action) (s : State) : Option State :=
  match a with
  | .elect i k => if s.elections i k = .idle then some (s.setElection i k .create) else none
  | .reinit i k => if s.elections i k = .idle then some (s.setElection i k .clear) else none
  | .watch i k => if s.elections i k = .idle then some (s.setElection i k .getChildren) else none
  | .clear i k =>
    if s.elections i k = .clear then some ((s.setLeader i false).setElection i k .create) else none
  | .create i k =>
    if s.elections i k = .create then
      (createNode member i s).map (State.setElection i k .getChildren)
    else none
  | .getChildren i k children =>
    if s.elections i k = .getChildren ∧ ∃ past ∈ s.pasts, children.Perm past then
      some (s.setElection i k (.choose children))
    else none
  | .choose i k =>
    match s.elections i k with
    | .choose children => some ((chooseLeader member i children s).setElection i k .idle)
    | _ => none
  | .fail i k =>
    if s.elections i k = .create ∨ s.elections i k = .getChildren then
      some (s.setElection i k .idle)
    else none
  | .expire session => some (s.expire session)
  | .renew i => some { s with session := Function.update s.session i (s.session i + 1) }

/-- A step of the ensemble. -/
def Step : State → State → Prop := Acts (act member)

/-! ## The lists of children there have been

`History` is about the lists of children there have been, of which the present one is the last:
sequence numbers only increase, and a node that is missing in a later list is one whose session has
expired. -/

/-- What is known of the lists of children up to now. -/
structure History (s : State) : Prop where
  current : s.children ∈ s.pasts
  owner : ∀ past ∈ s.pasts, ∀ z ∈ past, ∃ i, z.node.owner = member i
  below : ∀ past ∈ s.pasts, ∀ z ∈ past, z.node.seq.val < s.next
  nodup : ∀ past ∈ s.pasts, (past.map fun z ↦ z.node.seq).Nodup
  /-- A child that was missing in an earlier list came later than all of that list. -/
  kept : ∀ past ∈ s.pasts, ∀ z ∈ s.children, z ∈ past ∨ ∀ y ∈ past, y.node.seq < z.node.seq
  /-- A child that is missing now is gone with its session. -/
  gone : ∀ past ∈ s.pasts, ∀ z ∈ past, z ∈ s.children ∨ s.expired z.session = true

namespace History

variable {member} {s t : State} {i k : ℕ}

theorem initial : History member {} := by
  have hempty : ∀ past ∈ ({} : State).pasts, past = [] := fun past h ↦ List.mem_singleton.mp h
  refine ⟨List.mem_singleton_self _, ?_, ?_, ?_, ?_, ?_⟩
  · exact fun past h z hz ↦ absurd (hempty past h ▸ hz) List.not_mem_nil
  · exact fun past h z hz ↦ absurd (hempty past h ▸ hz) List.not_mem_nil
  · exact fun past h ↦ hempty past h ▸ List.nodup_nil
  · exact fun past h z hz ↦ absurd hz List.not_mem_nil
  · exact fun past h z hz ↦ absurd (hempty past h ▸ hz) List.not_mem_nil

theorem congr (h : History member s) (hchildren : t.children = s.children)
    (hpasts : t.pasts = s.pasts) (hnext : t.next = s.next) (hexpired : t.expired = s.expired) :
    History member t := by
  constructor
  · rw [hchildren, hpasts]
    exact h.current
  · rw [hpasts]
    exact h.owner
  · rw [hpasts, hnext]
    exact h.below
  · rw [hpasts]
    exact h.nodup
  · rw [hchildren, hpasts]
    exact h.kept
  · rw [hchildren, hpasts, hexpired]
    exact h.gone

/-- A new node has a larger sequence number than all there were. -/
theorem createNode (h : History member s) (ht : createNode member i s = some t) :
    History member t := by
  rw [Ensemble.createNode] at ht
  split_ifs at ht with hdigits halive
  obtain rfl := Option.some.inj ht
  -- So the new node is later than each list there has been.
  have hnew : ∀ past ∈ s.pasts, ∀ y ∈ past, y.node.seq < ⟨s.next, hdigits⟩ := h.below
  have hcurrent := h.current
  constructor
  · exact List.mem_cons_self
  · rintro past (- | ⟨-, hpast⟩) z hz
    · rcases List.mem_append.mp hz with hz | hz
      · exact h.owner _ hcurrent z hz
      · exact ⟨i, by rw [List.mem_singleton.mp hz]⟩
    · exact h.owner past hpast z hz
  · rintro past (- | ⟨-, hpast⟩) z hz
    · rcases List.mem_append.mp hz with hz | hz
      · exact Nat.lt_succ_of_lt (h.below _ hcurrent z hz)
      · rw [List.mem_singleton.mp hz]
        exact Nat.lt_succ_self _
    · exact Nat.lt_succ_of_lt (h.below past hpast z hz)
  · rintro past (- | ⟨-, hpast⟩)
    · rw [List.map_append, List.map_singleton, ← List.concat_eq_append]
      refine List.Nodup.concat (fun hseq ↦ ?_) (h.nodup _ hcurrent)
      obtain ⟨y, hy, heq⟩ := List.mem_map.mp hseq
      exact (hnew _ hcurrent y hy).ne heq
    · exact h.nodup past hpast
  · rintro past (- | ⟨-, hpast⟩) z hz
    · exact Or.inl hz
    · rcases List.mem_append.mp hz with hz | hz
      · exact h.kept past hpast z hz
      · rw [List.mem_singleton.mp hz]
        exact Or.inr (hnew past hpast)
  · rintro past (- | ⟨-, hpast⟩) z hz
    · exact Or.inl hz
    · exact (h.gone past hpast z hz).imp_left (List.mem_append_left _)

/-- The children of an expired session go. -/
theorem expire (h : History member s) (session : ℕ × ℕ) : History member (s.expire session) := by
  have hcurrent := h.current
  have hleft : ∀ z, z ∈ s.children.filter (fun z ↦ z.session ≠ session) → z ∈ s.children :=
    fun z hz ↦ List.mem_of_mem_filter hz
  constructor
  · exact List.mem_cons_self
  · rintro past (- | ⟨-, hpast⟩) z hz
    · exact h.owner _ hcurrent z (hleft z hz)
    · exact h.owner past hpast z hz
  · rintro past (- | ⟨-, hpast⟩) z hz
    · exact h.below _ hcurrent z (hleft z hz)
    · exact h.below past hpast z hz
  · rintro past (- | ⟨-, hpast⟩)
    · exact (h.nodup _ hcurrent).sublist (List.filter_sublist.map _)
    · exact h.nodup past hpast
  · rintro past (- | ⟨-, hpast⟩) z hz
    · exact Or.inl hz
    · exact h.kept past hpast z (hleft z hz)
  · rintro past (- | ⟨-, hpast⟩) z hz
    · exact Or.inl hz
    · -- What was there is there still, unless its session is the one that expires.
      by_cases hsession : z.session = session
      · refine Or.inr ?_
        rw [hsession]
        exact Function.update_self session true s.expired
      · rcases h.gone past hpast z hz with hz | hexpired
        · exact Or.inl (List.mem_filter.mpr ⟨hz, decide_eq_true hsession⟩)
        · have hrest : (s.expire session).expired z.session = s.expired z.session :=
            Function.update_of_ne hsession _ _
          exact Or.inr (hrest.trans hexpired)

end History

/-! ## What the members have seen of them

A member that won has seen a list in which its own node was the first. `Recorded` keeps this with
the node, and an expired session or a new node does not change what was seen. -/

/-- The histories, what elections have in hand, and why a member takes itself for the leader. -/
structure Recorded (s : State) : Prop extends History member s where
  chosen : ∀ i k children, s.elections i k = .choose children →
    ∃ past ∈ s.pasts, children.Perm past
  /-- A leader was elected with a node of its own, which came first in some list. -/
  won : ∀ i, s.isLeader i = true → ∃ z, s.won i = some z ∧ z.node.owner = member i ∧
    ∃ past ∈ s.pasts, z ∈ past ∧ ∀ y ∈ past, z.node.seq ≤ y.node.seq

namespace Recorded

variable {member} {s t : State} {i k : ℕ}

theorem initial : Recorded member {} := by
  refine ⟨History.initial, ?_, ?_⟩
  · exact fun i k children h ↦ absurd h (ElectPc.noConfusion)
  · exact fun i h ↦ absurd h Bool.false_ne_true

private theorem setElection (h : Recorded member s) {pc : ElectPc}
    (hpc : ∀ children, pc = .choose children → ∃ past ∈ s.pasts, children.Perm past) :
    Recorded member (s.setElection i k pc) := by
  refine ⟨h.toHistory.congr rfl rfl rfl rfl, fun j l children hj ↦ ?_, h.won⟩
  have hmoved : Function.update s.elections i (Function.update (s.elections i) k pc) j l
      = .choose children := hj
  rcases eq_or_ne j i with rfl | hne
  · rw [Function.update_self] at hmoved
    rcases eq_or_ne l k with rfl | hne
    · rw [Function.update_self] at hmoved
      exact hpc children hmoved
    · rw [Function.update_of_ne hne] at hmoved
      exact h.chosen j l children hmoved
  · rw [Function.update_of_ne hne] at hmoved
    exact h.chosen j l children hmoved

private theorem ofHistory (h : Recorded member s) (ht : History member t)
    (hpasts : s.pasts ⊆ t.pasts)
    (helections : t.elections = s.elections) (hleader : t.isLeader = s.isLeader)
    (hwon : t.won = s.won) : Recorded member t := by
  refine ⟨ht, fun j l children hj ↦ ?_, fun j hj ↦ ?_⟩
  · rw [helections] at hj
    obtain ⟨past, hpast, hperm⟩ := h.chosen j l children hj
    exact ⟨past, hpasts hpast, hperm⟩
  · rw [hleader] at hj
    rw [hwon]
    obtain ⟨z, hz, howner, past, hpast, hfirst⟩ := h.won j hj
    exact ⟨z, hz, howner, past, hpasts hpast, hfirst⟩

/-- A member is the leader, or no longer, after an election. -/
theorem setLeader (h : Recorded member s) {isLeader : Bool} {z : Option Child}
    (hz : isLeader = true → ∃ x, z = some x ∧ x.node.owner = member i ∧
      ∃ past ∈ s.pasts, x ∈ past ∧ ∀ y ∈ past, x.node.seq ≤ y.node.seq) :
    Recorded member { s.setLeader i isLeader with won := Function.update s.won i z } := by
  refine ⟨h.toHistory.congr rfl rfl rfl rfl, h.chosen, fun j hj ↦ ?_⟩
  have hmoved : Function.update s.isLeader i isLeader j = true := hj
  have hwon : ({ s.setLeader i isLeader with won := Function.update s.won i z } : State).won j
      = Function.update s.won i z j := rfl
  rw [hwon]
  rcases eq_or_ne j i with rfl | hne
  · rw [Function.update_self] at hmoved ⊢
    exact hz hmoved
  · rw [Function.update_of_ne hne] at hmoved ⊢
    exact h.won j hmoved

theorem clear (h : Recorded member s) : Recorded member (s.setLeader i false) := by
  have hnone : Function.update s.won i (s.won i) = s.won := Function.update_eq_self i s.won
  have hcleared := h.setLeader (i := i) (z := s.won i) fun hfalse ↦ absurd hfalse Bool.false_ne_true
  rwa [hnone] at hcleared

/-- `_elect` makes a member the leader only if the first node of the list is its own. -/
theorem chooseLeader (hids : Function.Injective fun i ↦ (member i).memberId)
    (hhosts : ∀ i, ¬ byText <:+: (member i).host) (h : Recorded member s) {children : List Child}
    (hk : s.elections i k = .choose children) :
    Recorded member (chooseLeader member i children s) := by
  rw [Ensemble.chooseLeader]
  split
  · exact h
  · rename_i isLeader helect
    refine h.setLeader fun hleader ↦ ?_
    obtain ⟨past, hpast, hperm⟩ := h.chosen i k children hk
    have howners : ∀ z ∈ children, ∃ j, z.node.owner = member j := fun z hz ↦
      h.owner past hpast z (hperm.mem_iff.mp hz)
    rcases hfirst : children.argmin fun z ↦ z.node.seq with - | z
    · -- Without any node, `min` raises.
      rw [List.argmin_eq_none.mp hfirst] at helect
      have hraises : elect (member i).memberId (s.isLeader i) [] = .error .valueError := rfl
      rw [List.map_nil, hraises] at helect
      exact absurd helect (by simp)
    · -- All names are taken apart correctly, so the owner of the first node is elected.
      have hmem : z ∈ children := List.argmin_mem hfirst
      have hmin : ∀ y ∈ children, z.node.seq ≤ y.node.seq := fun y hy ↦
        List.le_of_mem_argmin (f := fun z : Child ↦ z.node.seq) hy hfirst
      have hseq : ((children.map Child.node).map Node.seq).Nodup := by
        rw [List.map_map]
        exact ((hperm.map _).nodup_iff).mpr (h.nodup past hpast)
      have hdecodes : ∀ node ∈ children.map Child.node, node.Decodes := by
        intro node hnode
        obtain ⟨y, hy, rfl⟩ := List.mem_map.mp hnode
        obtain ⟨j, hj⟩ := howners y hy
        rw [Node.decodes_iff, hj]
        exact hhosts j
      have hwinner : elected ((children.map Child.node).map Node.name)
          = .ok z.node.owner.memberId :=
        elected_eq hseq hdecodes (List.mem_map_of_mem hmem) (by simpa using hmin)
      rw [List.map_map] at hwinner
      have hself : z.node.owner.memberId = (member i).memberId := by
        have hok := helect.symm.trans (elect_eq (s.isLeader i) hwinner)
        rw [hleader] at hok
        exact of_decide_eq_true (Except.ok.inj hok).symm
      obtain ⟨j, hj⟩ := howners z hmem
      rw [hj] at hself
      obtain rfl : j = i := hids hself
      exact ⟨z, hfirst, hj, past, hpast, hperm.mem_iff.mp hmem,
        fun y hy ↦ hmin y (hperm.mem_iff.mpr hy)⟩

end Recorded

/-- **One step.** -/
theorem recorded_of_step (hids : Function.Injective fun i ↦ (member i).memberId)
    (hhosts : ∀ i, ¬ byText <:+: (member i).host) {s t : State} (h : Recorded member s)
    (hst : Step member s t) : Recorded member t := by
  obtain ⟨a, ha⟩ := hst
  match a with
  | .elect i k | .reinit i k | .watch i k =>
    obtain ⟨-, rfl⟩ := of_ite_some ha
    exact h.setElection fun children hpc ↦ ElectPc.noConfusion hpc
  | .clear i k =>
    obtain ⟨-, rfl⟩ := of_ite_some ha
    exact h.clear.setElection fun children hpc ↦ ElectPc.noConfusion hpc
  | .create i k =>
    obtain ⟨-, hcreate⟩ := Option.ite_none_right_eq_some.mp ha
    obtain ⟨u, hu, rfl⟩ := Option.map_eq_some_iff.mp hcreate
    have hmade : History member u := h.toHistory.createNode hu
    rw [createNode] at hu
    split_ifs at hu
    obtain rfl := Option.some.inj hu
    exact (h.ofHistory hmade (List.subset_cons_self _ _) rfl rfl rfl).setElection
      fun children hpc ↦ ElectPc.noConfusion hpc
  | .getChildren i k children =>
    obtain ⟨⟨-, hread⟩, rfl⟩ := of_ite_some ha
    refine h.setElection fun other hpc ↦ ?_
    obtain rfl := ElectPc.choose.inj hpc
    exact hread
  | .choose i k =>
    rw [act] at ha
    split at ha
    · rename_i children hk
      obtain rfl := Option.some.inj ha
      exact (h.chooseLeader hids hhosts hk).setElection fun other hpc ↦ ElectPc.noConfusion hpc
    · exact absurd ha (Option.some_ne_none t).symm
  | .fail i k =>
    obtain ⟨-, rfl⟩ := of_ite_some ha
    exact h.setElection fun children hpc ↦ ElectPc.noConfusion hpc
  | .expire session =>
    obtain rfl := Option.some.inj ha
    exact h.ofHistory (h.toHistory.expire session) (List.subset_cons_self _ _) rfl rfl rfl
  | .renew i =>
    obtain rfl := Option.some.inj ha
    exact h.ofHistory (h.toHistory.congr rfl rfl rfl rfl) (List.Subset.refl _) rfl rfl rfl

/-- **A run.** -/
theorem recorded_of_reachable (hids : Function.Injective fun i ↦ (member i).memberId)
    (hhosts : ∀ i, ¬ byText <:+: (member i).host) {s : State}
    (hs : Reachable IsInitial (Step member) s) : Recorded member s := by
  refine Reachable.invariant (fun s hs ↦ ?_) (fun s t _ h hst ↦ ?_) hs
  · rw [IsInitial] at hs
    rw [hs]
    exact Recorded.initial
  · exact recorded_of_step member hids hhosts h hst

/-! ## Two leaders

Take two members that won, with nodes whose sessions are alive. Both nodes are children still. The
one with the smaller number is not in the list that the other member has seen, as the other's node
comes first there. A child that is missing in a past list was made later than all of that list; so
its number is the larger one, which is a contradiction. -/

/-- The session of the node this member was elected with is alive. -/
def State.WonAlive (s : State) (i : ℕ) : Prop := ∃ z ∈ s.won i, s.expired z.session = false

instance (s : State) (i : ℕ) : Decidable (s.WonAlive i) :=
  inferInstanceAs (Decidable (∃ z ∈ s.won i, s.expired z.session = false))

/-- **One leader with a live session.** If the ids of the members differ and no host has `-by-` in
its name, then in every state that can be reached there is at most one member with `is_leader` set
among those that were elected with a node whose session has not expired. -/
theorem leader_unique (hids : Function.Injective fun i ↦ (member i).memberId)
    (hhosts : ∀ i, ¬ byText <:+: (member i).host) {s : State}
    (hs : Reachable IsInitial (Step member) s) {i j : ℕ} (hi : s.isLeader i = true)
    (hj : s.isLeader j = true) (hiAlive : s.WonAlive i) (hjAlive : s.WonAlive j) : i = j := by
  have h := recorded_of_reachable member hids hhosts hs
  -- Both nodes are there, and each was the first one of a list the other one was in or came after.
  have hwon : ∀ k, s.isLeader k = true → s.WonAlive k → ∃ z ∈ s.children,
      z.node.owner = member k ∧ ∀ y ∈ s.children, z.node.seq ≤ y.node.seq := by
    rintro k hk ⟨z, hz, halive⟩
    obtain ⟨x, hx, howner, past, hpast, hmem, hfirst⟩ := h.won k hk
    obtain rfl : z = x := Option.some.inj (hz.symm.trans hx)
    refine ⟨z, ?_, howner, fun y hy ↦ ?_⟩
    · rcases h.gone past hpast z hmem with hleft | hexpired
      · exact hleft
      · exact absurd hexpired (ne_true_of_eq_false halive)
    · rcases h.kept past hpast y hy with hy | hlater
      · exact hfirst y hy
      · exact (hlater z hmem).le
  obtain ⟨x, hx, hxOwner, hxFirst⟩ := hwon i hi hiAlive
  obtain ⟨y, hy, hyOwner, hyFirst⟩ := hwon j hj hjAlive
  have hseq : x.node.seq = y.node.seq := le_antisymm (hxFirst y hy) (hyFirst x hx)
  obtain rfl : x = y := List.inj_on_of_nodup_map (h.nodup _ h.current) hx hy hseq
  exact hids (congrArg Member.memberId (hxOwner.symm.trans hyOwner))

/-- Members on hosts `w`, `ww` and so on. -/
def memberAt (i : ℕ) : Member := memberOn (List.replicate (i + 1) 'w') 0

private theorem memberAt_injective : Function.Injective fun i ↦ (memberAt i).memberId := by
  intro i j h
  have htail : (memberAt i).idTail = (memberAt j).idTail := rfl
  have hids : List.replicate (i + 1) 'w' ++ (memberAt i).idTail
      = List.replicate (j + 1) 'w' ++ (memberAt j).idTail := h
  rw [htail] at hids
  have hlength := congrArg List.length (List.append_cancel_right hids)
  rw [List.length_replicate, List.length_replicate] at hlength
  exact Nat.succ_injective hlength

private theorem not_infix_memberAt (i : ℕ) : ¬ byText <:+: (memberAt i).host := by
  intro h
  have hy : 'y' ∈ List.replicate (i + 1) 'w' := h.subset (by decide)
  exact absurd (List.eq_of_mem_replicate hy) (by decide)

/-- The first node of each of the first two members. -/
def firstNode (i : Fin 2) : Child :=
  ⟨⟨memberAt i, ⟨i, i.isLt.trans (by decide)⟩⟩, (i, 0)⟩

/-- The first member is elected, the second one stands by. Then ZooKeeper expires the session of the
first one, and the watch of the second one is delivered. -/
def takeover : List Action :=
  List.flatten [
    [.elect 0 0, .create 0 0, .getChildren 0 0 [firstNode 0], .choose 0 0],
    [.elect 1 0, .create 1 0, .getChildren 1 0 [firstNode 0, firstNode 1], .choose 1 0],
    [.expire (0, 0), .watch 1 0, .getChildren 1 0 [firstNode 1], .choose 1 0]]

private theorem takeover_isLeader :
    ∃ s, Reachable IsInitial (Step memberAt) s ∧ s.isLeader 0 = true ∧ s.isLeader 1 = true ∧
      s.WonAlive 1 := by
  have hrun : (execute (act memberAt) takeover {}).any
      (fun s ↦ decide (s.isLeader 0 = true ∧ s.isLeader 1 = true ∧ s.WonAlive 1)) = true := by
    decide +kernel
  obtain ⟨s, hs, hleaders⟩ := exists_of_execute hrun
  exact ⟨s, reachable_of_execute (.start rfl) hs, hleaders⟩

/-- Two members take themselves for the leader, and the session of the second one is alive. -/
theorem leader_unique_takeover :
    ∃ s, Reachable IsInitial (Step memberAt) s ∧ s.isLeader 0 = true ∧ s.isLeader 1 = true ∧
      s.WonAlive 1 ∧ ∀ i, s.isLeader i = true → s.WonAlive i → i = 1 := by
  obtain ⟨s, hs, hfirst, hsecond, halive⟩ := takeover_isLeader
  refine ⟨s, hs, hfirst, hsecond, halive, fun i hi hiAlive ↦ ?_⟩
  exact leader_unique memberAt memberAt_injective not_infix_memberAt hs hi hsecond hiAlive halive

/-- So the sessions matter. -/
theorem exists_two_leaders :
    ∃ s i j, Reachable IsInitial (Step memberAt) s ∧ s.isLeader i = true ∧ s.isLeader j = true ∧
      i ≠ j := by
  obtain ⟨s, hs, hfirst, hsecond, -⟩ := takeover_isLeader
  exact ⟨s, 0, 1, hs, hfirst, hsecond, zero_ne_one⟩

end Ensemble

end Daemon

end CppRepo
