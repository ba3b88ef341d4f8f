import CppRepo.Library.Ownership
import CppRepo.Rpc.Greeter

/-!
# The instances of the greeter and who holds them

An instance is held by the thread that is in its `Proceed`, by the runtime, or by the event in the
completion queue that bears its address. Nobody else refers to it, so an address that is freed and
given out again cannot be mistaken for the instance that had it before.

## The invariant

`Fits` says of each instance that it is at one place and has come as far as it has to be at this
place. The status alone does not tell how far that is, because an instance that waits for a call has
the same one as an instance that was given a call; hence the stages, which also say what the runtime
has written.
-/

namespace CppRepo

namespace Greeter

variable {τ : Type*} [DecidableEq τ]

/-! ## What a step does

The places of a thread are told apart by what happens there: an instance is constructed, the one the
thread is in is read or written, or it leaves the thread for the runtime or for good. -/

/-- A thread at `pc` constructs an instance at `b` and goes on at `pc'`. -/
inductive Constructs (b : ℕ) : Pc → Pc → Prop
  | handleRpcs : Constructs b .start (.proceed b [])
  | proceed (a : ℕ) (callers : List ℕ) :
      Constructs b (.spawn a callers) (.proceed b (a :: callers))

/-- A thread reads or writes a member of the instance `a`, which was `d` and then is `d'`, and goes
from the first place in `Proceed` to the second. -/
inductive Accesses (a : ℕ) (callers : List ℕ) (d : CallData) : Pc → Pc → CallData → Prop
  | proceed : Accesses a callers d (.proceed a callers) (.branch d.status a callers) d
  | setProcess :
      Accesses a callers d (.setProcess a callers) (.request a callers)
        { d with status := .process }
  | setMessage :
      Accesses a callers d (.setMessage a callers) (.setFinish a callers)
        { d with reply := greeting d.request }
  | setFinish :
      Accesses a callers d (.setFinish a callers) (.finish a callers) { d with status := .finish }

/-- What a step of a thread does to the state. -/
inductive ThreadStep (t : τ) (s : State τ) : State τ → Prop
  | construct {b : ℕ} {pc : Pc} (hpc : Constructs b (s.pc t) pc) (hb : s.heap b = none) :
      ThreadStep t s { s with heap := assign s.heap b {}, pc := Function.update s.pc t pc }
  | access {a : ℕ} {callers : List ℕ} {d d' : CallData} {pc : Pc}
      (hpc : Accesses a callers d (s.pc t) pc d') (ha : s.heap a = some d) :
      ThreadStep t s { s with heap := assign s.heap a d', pc := Function.update s.pc t pc }
  | request {a : ℕ} {callers : List ℕ} {d : CallData} (hpc : s.pc t = .request a callers)
      (ha : s.heap a = some d) :
      ThreadStep t s { s with
        requests := s.requests ++ [a], pc := Function.update s.pc t (.ret callers) }
  | finish {a : ℕ} {callers : List ℕ} {d : CallData} (hpc : s.pc t = .finish a callers)
      (ha : s.heap a = some d) :
      ThreadStep t s { s with
        heap := assign s.heap a { d with replied := true }
        finishes := s.finishes ++ [a]
        replies := s.replies ++ [(d.ctx, d.reply)]
        pc := Function.update s.pc t (.ret callers) }
  | destroy {a : ℕ} {callers : List ℕ} {d : CallData} (hpc : s.pc t = .destroy a callers)
      (ha : s.heap a = some d) :
      ThreadStep t s { s with
        heap := Function.update s.heap a none, pc := Function.update s.pc t (.ret callers) }
  | next {k a : ℕ} (hpc : s.pc t = .next) (hk : s.events[k]? = some (a, true)) :
      ThreadStep t s { s with
        events := s.events.eraseIdx k, pc := Function.update s.pc t (.proceed a []) }
  | abort {k a : ℕ} (hpc : s.pc t = .next) (hk : s.events[k]? = some (a, false)) :
      ThreadStep t s { s with aborted := true }

/-- What a step does to the state. -/
inductive Step (s : State τ) : State τ → Prop
  | thread {t : τ} {s' : State τ} (h : ThreadStep t s s') : Step s s'
  | call {k a : ℕ} {d : CallData} {name : Bytes} (hk : s.requests[k]? = some a)
      (ha : s.heap a = some d) :
      Step s { s with
        heap := assign s.heap a { d with ctx := some s.accepted.length, request := name }
        requests := s.requests.eraseIdx k
        events := s.events ++ [(a, true)]
        accepted := s.accepted ++ [name] }
  | done {k a : ℕ} {ok : Bool} (hk : s.finishes[k]? = some a) :
      Step s { s with finishes := s.finishes.eraseIdx k, events := s.events ++ [(a, ok)] }

variable {s s' : State τ}

theorem ThreadStep.of_eq {t : τ} {choice : ℕ} (h : threadStep t choice s = some s') :
    ThreadStep t s s' := by
  cases hpc : s.pc t with
  | start =>
    simp only [threadStep, hpc] at h
    obtain ⟨hb, rfl⟩ := of_ite_some h
    exact .construct (hpc ▸ .handleRpcs) hb
  | next =>
    simp only [threadStep, hpc] at h
    obtain ⟨⟨a, ok⟩, hk, rfl⟩ := Option.map_eq_some_iff.mp h
    cases ok with
    | false => exact .abort hpc hk
    | true => exact .next hpc hk
  | proceed a callers =>
    simp only [threadStep, hpc] at h
    obtain ⟨d, ha, rfl⟩ := Option.map_eq_some_iff.mp h
    have hstep := ThreadStep.access (hpc ▸ Accesses.proceed) ha
    rwa [assign, Function.update_eq_self_iff.mpr ha.symm] at hstep
  | setProcess a callers =>
    simp only [threadStep, hpc] at h
    obtain ⟨d, ha, rfl⟩ := Option.map_eq_some_iff.mp h
    exact .access (hpc ▸ Accesses.setProcess) ha
  | request a callers =>
    simp only [threadStep, hpc] at h
    obtain ⟨d, ha, rfl⟩ := Option.map_eq_some_iff.mp h
    exact .request hpc ha
  | spawn a callers =>
    simp only [threadStep, hpc] at h
    obtain ⟨d, ha, h⟩ := Option.bind_eq_some_iff.mp h
    obtain ⟨hb, rfl⟩ := of_ite_some h
    exact .construct (hpc ▸ .proceed a callers) hb
  | setMessage a callers =>
    simp only [threadStep, hpc] at h
    obtain ⟨d, ha, rfl⟩ := Option.map_eq_some_iff.mp h
    exact .access (hpc ▸ Accesses.setMessage) ha
  | setFinish a callers =>
    simp only [threadStep, hpc] at h
    obtain ⟨d, ha, rfl⟩ := Option.map_eq_some_iff.mp h
    exact .access (hpc ▸ Accesses.setFinish) ha
  | finish a callers =>
    simp only [threadStep, hpc] at h
    obtain ⟨d, ha, rfl⟩ := Option.map_eq_some_iff.mp h
    exact .finish hpc ha
  | destroy a callers =>
    simp only [threadStep, hpc] at h
    obtain ⟨d, ha, rfl⟩ := Option.map_eq_some_iff.mp h
    exact .destroy hpc ha

private theorem step_of_act {p : Party τ} (h : act p s = some s') :
    s.aborted = false ∧ Step s s' := by
  unfold act at h
  split at h
  case isTrue => exact absurd h (Option.some_ne_none s').symm
  case isFalse habort =>
    refine ⟨Bool.eq_false_iff.mpr habort, ?_⟩
    cases p with
    | thread t choice => exact .thread (.of_eq h)
    | call k name =>
      obtain ⟨a, hk, h⟩ := Option.bind_eq_some_iff.mp h
      obtain ⟨d, ha, rfl⟩ := Option.map_eq_some_iff.mp h
      exact .call hk ha
    | done k ok =>
      obtain ⟨a, hk, rfl⟩ := Option.map_eq_some_iff.mp h
      exact .done hk

/-- What holds at first and is kept by what a step does holds of every state that can be reached. -/
theorem Reached.invariant {I : State τ → Prop} (hinit : I {}) (hs : Reached s)
    (hstep : ∀ s s', Reached s → I s → Step s s' → I s') : I s := by
  refine Reachable.invariant ?_ ?_ hs
  · rintro s rfl
    exact hinit
  · rintro s s' hs hI ⟨p, hp⟩
    exact hstep s s' hs hI (step_of_act hp).2

/-! ## Who holds an instance

The four kinds of places are disjoint, and an address is at most once at one of them. A thread is in
two instances only while the constructor of the second one runs, and that one constructs none. -/

/-- Where an instance may be. -/
inductive Place (τ : Type*)
  | thread (t : τ)
  | requests
  | finishes
  | events
  deriving DecidableEq

/-- The instances at a place. -/
def holdings (s : State τ) : Place τ → List ℕ
  | .thread t => (s.pc t).frames
  | .requests => s.requests
  | .finishes => s.finishes
  | .events => s.events.map Prod.fst

/-- The instance has been given a call, which is the one that it says. -/
def CallData.Called (accepted : List Bytes) (d : CallData) : Prop :=
  ∃ i, d.ctx = some i ∧ accepted[i]? = some d.request

/-- How far an instance has come. -/
inductive Stage
  | created
  | requested
  | accepted
  | greeted
  | finishing
  | answered
  deriving DecidableEq, Repr

/-- What an instance at a stage is like. -/
def CallData.Is (accepted : List Bytes) (d : CallData) : Stage → Prop
  | .created => d.status = .create ∧ d.ctx = none ∧ d.replied = false
  | .requested => d.status = .process ∧ d.ctx = none ∧ d.replied = false
  | .accepted => d.status = .process ∧ d.Called accepted ∧ d.replied = false
  | .greeted =>
    d.status = .process ∧ d.Called accepted ∧ d.replied = false ∧ d.reply = greeting d.request
  | .finishing =>
    d.status = .finish ∧ d.Called accepted ∧ d.replied = false ∧ d.reply = greeting d.request
  | .answered => d.status = .finish ∧ d.Called accepted ∧ d.replied = true

/-- The address is that of an instance at this stage. -/
def IsAt (heap : ℕ → Option CallData) (accepted : List Bytes) (a : ℕ) (stage : Stage) : Prop :=
  ∃ d, heap a = some d ∧ d.Is accepted stage

/-- A constructor runs in `HandleRpcs`, or in the `Proceed` of an instance that was given a call. -/
def CallersFit (heap : ℕ → Option CallData) (accepted : List Bytes) : List ℕ → Prop
  | [] => True
  | [a] => IsAt heap accepted a .accepted
  | _ :: _ :: _ => False

/-- How far the instances are in whose `Proceed` a thread is. -/
def PcFits (heap : ℕ → Option CallData) (accepted : List Bytes) : Pc → Prop
  | .start | .next => True
  | .proceed a callers =>
    IsAt heap accepted a .created ∧ CallersFit heap accepted callers ∨
      callers = [] ∧ (IsAt heap accepted a .accepted ∨ IsAt heap accepted a .answered)
  | .setProcess a callers => IsAt heap accepted a .created ∧ CallersFit heap accepted callers
  | .request a callers => IsAt heap accepted a .requested ∧ CallersFit heap accepted callers
  | .spawn a callers | .setMessage a callers => callers = [] ∧ IsAt heap accepted a .accepted
  | .setFinish a callers => callers = [] ∧ IsAt heap accepted a .greeted
  | .finish a callers => callers = [] ∧ IsAt heap accepted a .finishing
  | .destroy a callers => callers = [] ∧ IsAt heap accepted a .answered

/-- The event is about a call that came, or about an answer. -/
def EventFits (heap : ℕ → Option CallData) (accepted : List Bytes) (e : ℕ × Bool) : Prop :=
  IsAt heap accepted e.1 .accepted ∧ e.2 = true ∨ IsAt heap accepted e.1 .answered

/-- Each instance is at one place, and as far as it has to be there. -/
structure Fits (s : State τ) : Prop where
  exclusive : Exclusive (holdings s)
  thread : ∀ t, PcFits s.heap s.accepted (s.pc t)
  requests : ∀ a ∈ s.requests, IsAt s.heap s.accepted a .requested
  finishes : ∀ a ∈ s.finishes, IsAt s.heap s.accepted a .answered
  events : ∀ e ∈ s.events, EventFits s.heap s.accepted e
  held : ∀ a, s.heap a ≠ none → ∃ p, a ∈ holdings s p

/-! ## What a step leaves alone

The calls that came are only added to, so an instance that nobody writes to keeps its stage.
`Fits.next` is the step in general: one instance goes from one place to another, or stays, and all
others are left alone. -/

variable {heap heap' : ℕ → Option CallData} {acc acc' : List Bytes} {a b : ℕ} {d d' : CallData}
  {stage : Stage} {pc pc' : Pc} {callers : List ℕ} {t : τ} {p : Place τ} {dest : Option (Place τ)}

theorem CallData.Called.mono (h : d.Called acc) (hacc : acc <+: acc') : d.Called acc' := by
  obtain ⟨i, hctx, hi⟩ := h
  obtain ⟨more, rfl⟩ := hacc
  have hlt : i < acc.length := (List.getElem?_eq_some_iff.mp hi).1
  exact ⟨i, hctx, (List.getElem?_append_left hlt).trans hi⟩

theorem CallData.Is.mono (h : d.Is acc stage) (hacc : acc <+: acc') : d.Is acc' stage := by
  cases stage with
  | created => exact h
  | requested => exact h
  | accepted => exact ⟨h.1, h.2.1.mono hacc, h.2.2⟩
  | greeted => exact ⟨h.1, h.2.1.mono hacc, h.2.2⟩
  | finishing => exact ⟨h.1, h.2.1.mono hacc, h.2.2⟩
  | answered => exact ⟨h.1, h.2.1.mono hacc, h.2.2⟩

namespace IsAt

theorem ne_none (h : IsAt heap acc a stage) : heap a ≠ none := by
  obtain ⟨d, hd, -⟩ := h
  exact Option.ne_none_iff_exists'.mpr ⟨d, hd⟩

theorem mono (h : IsAt heap acc a stage) (heq : heap' a = heap a) (hacc : acc <+: acc') :
    IsAt heap' acc' a stage := by
  obtain ⟨d, hd, hstage⟩ := h
  exact ⟨d, heq.trans hd, hstage.mono hacc⟩

theorem is_of_eq (h : IsAt heap acc a stage) (ha : heap a = some d) : d.Is acc stage := by
  obtain ⟨e, he, hstage⟩ := h
  exact Option.some_inj.mp (he.symm.trans ha) ▸ hstage

private theorem assigned (h : d.Is acc stage) : IsAt (assign heap a d) acc a stage :=
  ⟨d, Function.update_self .., h⟩

end IsAt

theorem assign_self : assign heap a d a = some d := Function.update_self ..

theorem assign_of_ne (hne : b ≠ a) : assign heap a d b = heap b := Function.update_of_ne hne ..

theorem CallersFit.mono (h : CallersFit heap acc callers) (heq : ∀ a ∈ callers, heap' a = heap a)
    (hacc : acc <+: acc') : CallersFit heap' acc' callers := by
  match callers with
  | [] => trivial
  | [a] => exact IsAt.mono h (heq a List.mem_cons_self) hacc
  | _ :: _ :: _ => exact h

private theorem CallersFit.isAt (h : CallersFit heap acc callers) (ha : a ∈ callers) :
    IsAt heap acc a .accepted := by
  match callers with
  | [c] => exact List.mem_singleton.mp ha ▸ h

/-- The thread goes on in the `Proceed` that called the constructor. -/
theorem CallersFit.ret (h : CallersFit heap acc callers) : PcFits heap acc (.ret callers) := by
  match callers with
  | [] => trivial
  | [a] => exact ⟨rfl, h⟩

private theorem frames_ret : (Pc.ret callers).frames = callers := by
  cases callers <;> rfl

namespace PcFits

theorem mono (h : PcFits heap acc pc) (heq : ∀ a ∈ pc.frames, heap' a = heap a)
    (hacc : acc <+: acc') : PcFits heap' acc' pc := by
  cases pc with
  | start => trivial
  | next => trivial
  | proceed a callers =>
    have ha := heq a List.mem_cons_self
    have hcallers : ∀ c ∈ callers, heap' c = heap c := fun c hc ↦ heq c (List.mem_cons_of_mem a hc)
    exact h.imp (fun h ↦ ⟨h.1.mono ha hacc, h.2.mono hcallers hacc⟩)
      (fun h ↦ ⟨h.1, h.2.imp (·.mono ha hacc) (·.mono ha hacc)⟩)
  | setProcess a callers | request a callers =>
    have ha := heq a List.mem_cons_self
    have hcallers : ∀ c ∈ callers, heap' c = heap c := fun c hc ↦ heq c (List.mem_cons_of_mem a hc)
    exact ⟨h.1.mono ha hacc, h.2.mono hcallers hacc⟩
  | spawn a callers | setMessage a callers | setFinish a callers | finish a callers
  | destroy a callers =>
    exact ⟨h.1, h.2.mono (heq a List.mem_cons_self) hacc⟩

private theorem exists_isAt (h : PcFits heap acc pc) (ha : a ∈ pc.frames) :
    ∃ stage, IsAt heap acc a stage := by
  cases pc with
  | start => exact absurd ha List.not_mem_nil
  | next => exact absurd ha List.not_mem_nil
  | proceed b callers =>
    rcases h with ⟨hb, hcallers⟩ | ⟨rfl, hb⟩
    · rcases List.mem_cons.mp ha with rfl | ha
      · exact ⟨_, hb⟩
      · exact ⟨_, hcallers.isAt ha⟩
    · obtain rfl := List.mem_singleton.mp ha
      exact hb.elim (⟨_, ·⟩) (⟨_, ·⟩)
  | setProcess b callers | request b callers =>
    rcases List.mem_cons.mp ha with rfl | ha
    · exact ⟨_, h.1⟩
    · exact ⟨_, h.2.isAt ha⟩
  | spawn b callers | setMessage b callers | setFinish b callers | finish b callers
  | destroy b callers =>
    obtain ⟨rfl, hb⟩ := h
    exact ⟨_, List.mem_singleton.mp ha ▸ hb⟩

end PcFits

theorem EventFits.mono {e : ℕ × Bool} (h : EventFits heap acc e) (heq : heap' e.1 = heap e.1)
    (hacc : acc <+: acc') : EventFits heap' acc' e :=
  h.imp (fun h ↦ ⟨h.1.mono heq hacc, h.2⟩) (·.mono heq hacc)

namespace Fits

omit [DecidableEq τ] in
private theorem exists_isAt (hs : Fits s) (ha : a ∈ holdings s p) :
    ∃ stage, IsAt s.heap s.accepted a stage := by
  cases p with
  | thread t => exact (hs.thread t).exists_isAt ha
  | requests => exact ⟨_, hs.requests a ha⟩
  | finishes => exact ⟨_, hs.finishes a ha⟩
  | events =>
    obtain ⟨e, he, rfl⟩ := List.mem_map.mp ha
    exact (hs.events e he).elim (⟨_, ·.1⟩) (⟨_, ·⟩)

omit [DecidableEq τ] in
/-- Whoever refers to an instance refers to one that exists. -/
theorem live (hs : Fits s) (ha : a ∈ holdings s p) : s.heap a ≠ none := by
  obtain ⟨stage, hstage⟩ := hs.exists_isAt ha
  exact hstage.ne_none

omit [DecidableEq τ] in
theorem exists_is (hs : Fits s) (ha : s.heap a = some d) : ∃ stage, d.Is s.accepted stage := by
  obtain ⟨p, hp⟩ := hs.held a (ha ▸ Option.some_ne_none d)
  obtain ⟨stage, hstage⟩ := hs.exists_isAt hp
  exact ⟨stage, hstage.is_of_eq ha⟩

/-- One instance moves and changes. What has to be shown is that it fits where it is now. -/
theorem next (hs : Fits s) (hm : Moves a dest (holdings s) (holdings s'))
    (hacc : s.accepted <+: s'.accepted) (hheap : ∀ b ≠ a, s'.heap b = s.heap b)
    (hdest : s'.heap a ≠ none → dest.isSome)
    (hthread : ∀ u, s'.pc u = s.pc u ∧ dest ≠ some (.thread u) ∨
      PcFits s'.heap s'.accepted (s'.pc u))
    (hrequests : dest = some .requests → IsAt s'.heap s'.accepted a .requested)
    (hfinishes : dest = some .finishes → IsAt s'.heap s'.accepted a .answered)
    (hevents : ∀ e ∈ s'.events, e ∈ s.events ∧ (dest = some .events → e.1 ≠ a) ∨
      EventFits s'.heap s'.accepted e) : Fits s' := by
  have hmem b p : b ∈ holdings s' p ↔ b = a ∧ dest = some p ∨ b ≠ a ∧ b ∈ holdings s p :=
    hs.exclusive.mem_iff_of_moves hm
  refine ⟨hs.exclusive.moves hm, ?_, ?_, ?_, ?_, ?_⟩
  · intro u
    rcases hthread u with ⟨hpc, hne⟩ | hfits
    · have hframes : ∀ b ∈ (s.pc u).frames, s'.heap b = s.heap b := by
        intro b hb
        have hb : b ∈ holdings s' (.thread u) := by rwa [holdings, hpc]
        rcases (hmem b _).mp hb with ⟨-, hu⟩ | ⟨hba, -⟩
        · exact absurd hu hne
        · exact hheap b hba
      exact hpc ▸ (hs.thread u).mono hframes hacc
    · exact hfits
  · intro b hb
    rcases (hmem b .requests).mp hb with ⟨rfl, hb⟩ | ⟨hba, hb⟩
    · exact hrequests hb
    · exact (hs.requests b hb).mono (hheap b hba) hacc
  · intro b hb
    rcases (hmem b .finishes).mp hb with ⟨rfl, hb⟩ | ⟨hba, hb⟩
    · exact hfinishes hb
    · exact (hs.finishes b hb).mono (hheap b hba) hacc
  · intro e he
    rcases hevents e he with ⟨hes, hea⟩ | hfits
    · have he' : e.1 ∈ holdings s' .events := List.mem_map_of_mem he
      have hne : e.1 ≠ a := by
        rcases (hmem _ _).mp he' with ⟨-, hdest⟩ | ⟨hne, -⟩
        · exact hea hdest
        · exact hne
      exact (hs.events e hes).mono (hheap _ hne) hacc
    · exact hfits
  · intro b hb
    refine (hs.exclusive.exists_mem_iff_of_moves hm).mpr ?_
    by_cases hba : b = a
    · exact Or.inl ⟨hba, hdest (hba ▸ hb)⟩
    · exact Or.inr ⟨hba, hs.held b (hheap b hba ▸ hb)⟩

private theorem thread_of_update (hpc : s'.pc = Function.update s.pc t pc)
    (hdest : ∀ u, dest = some (.thread u) → u = t) (hfits : PcFits s'.heap s'.accepted pc) (u : τ) :
    s'.pc u = s.pc u ∧ dest ≠ some (.thread u) ∨ PcFits s'.heap s'.accepted (s'.pc u) := by
  by_cases hu : u = t
  · subst hu
    rw [hpc, Function.update_self]
    exact Or.inr hfits
  · rw [hpc, Function.update_of_ne hu]
    exact Or.inl ⟨rfl, fun h ↦ hu (hdest u h)⟩

end Fits

private theorem holdings_thread (hpc : s'.pc = Function.update s.pc t pc) :
    holdings s' (.thread t) = pc.frames := by
  rw [holdings, hpc, Function.update_self]

private theorem holdings_of_ne {u : τ} (hpc : s'.pc = Function.update s.pc t pc) (hu : u ≠ t) :
    holdings s' (.thread u) = holdings s (.thread u) := by
  rw [holdings, hpc, Function.update_of_ne hu, holdings]

/-! ## What each step does to the places

Only what is at the top changes: a new instance is put there, or the one that is there is written
to. -/

namespace Constructs

theorem frames (h : Constructs b pc pc') : pc'.frames = b :: pc.frames := by
  cases h <;> rfl

/-- The new instance is where its `Proceed` begins. -/
theorem fits (h : Constructs b pc pc') (hpc : PcFits heap acc pc) (hb : heap b = none) :
    PcFits (assign heap b {}) acc pc' := by
  have hnew : IsAt (assign heap b {}) acc b .created := IsAt.assigned ⟨rfl, rfl, rfl⟩
  cases h with
  | handleRpcs => exact Or.inl ⟨hnew, trivial⟩
  | proceed a callers =>
    obtain ⟨rfl, ha⟩ := hpc
    have hne : a ≠ b := fun h ↦ ha.ne_none (h ▸ hb)
    exact Or.inl ⟨hnew, ha.mono (assign_of_ne hne) List.prefix_rfl⟩

end Constructs

namespace Accesses

theorem frames (h : Accesses a callers d pc pc' d') : pc.frames = a :: callers ∧
    pc'.frames = a :: callers := by
  cases h with
  | proceed => cases d.status <;> exact ⟨rfl, rfl⟩
  | setProcess => exact ⟨rfl, rfl⟩
  | setMessage => exact ⟨rfl, rfl⟩
  | setFinish => exact ⟨rfl, rfl⟩

/-- The instance has come as far as it has to be where its `Proceed` goes on. -/
theorem fits (h : Accesses a callers d pc pc' d') (hpc : PcFits heap acc pc)
    (ha : heap a = some d) (hcallers : a ∉ callers) : PcFits (assign heap a d') acc pc' := by
  have hmono (hc : CallersFit heap acc callers) : CallersFit (assign heap a d') acc callers :=
    hc.mono (fun c hc ↦ assign_of_ne fun h ↦ hcallers (h ▸ hc)) List.prefix_rfl
  cases h with
  | proceed =>
    rw [assign, Function.update_eq_self_iff.mpr ha.symm]
    rcases hpc with ⟨hnew, hc⟩ | ⟨rfl, hold | hold⟩
    · rw [(hnew.is_of_eq ha).1]
      exact ⟨hnew, hc⟩
    · rw [(hold.is_of_eq ha).1]
      exact ⟨rfl, hold⟩
    · rw [(hold.is_of_eq ha).1]
      exact ⟨rfl, hold⟩
  | setProcess =>
    obtain ⟨hnew, hc⟩ := hpc
    exact ⟨IsAt.assigned ⟨rfl, (hnew.is_of_eq ha).2⟩, hmono hc⟩
  | setMessage =>
    obtain ⟨hnil, hold⟩ := hpc
    obtain ⟨hstatus, hcalled, hreplied⟩ := hold.is_of_eq ha
    exact ⟨hnil, IsAt.assigned ⟨hstatus, hcalled, hreplied, rfl⟩⟩
  | setFinish =>
    obtain ⟨hnil, hold⟩ := hpc
    exact ⟨hnil, IsAt.assigned ⟨rfl, (hold.is_of_eq ha).2⟩⟩

end Accesses

/-! ## The invariant

There is a lemma for each kind of step, which says where the instance was and where it goes. An
instance that is created goes to its thread, one that is destroyed goes nowhere. -/

theorem perm_eraseIdx {α : Type*} {l : List α} {x : α} {k : ℕ} (hk : l[k]? = some x) :
    l.Perm (x :: l.eraseIdx k) := by
  obtain ⟨hlt, rfl⟩ := List.getElem?_eq_some_iff.mp hk
  exact (List.getElem_cons_eraseIdx_perm hlt).symm

theorem Fits.construct (hs : Fits s) (hpc : Constructs b (s.pc t) pc) (hb : s.heap b = none) :
    Fits { s with heap := assign s.heap b {}, pc := Function.update s.pc t pc } := by
  have hfresh : ∀ p, b ∉ holdings s p := fun p hp ↦ hs.live hp hb
  have hm : Moves b (some (.thread t)) (holdings s)
      (holdings { s with heap := assign s.heap b {}, pc := Function.update s.pc t pc }) := by
    refine Moves.create hfresh ?_ ?_
    · rw [holdings_thread rfl, hpc.frames]
      exact List.Perm.rfl
    · intro p hp
      cases p with
      | thread u => exact holdings_of_ne rfl fun h ↦ hp (h ▸ rfl)
      | requests => rfl
      | finishes => rfl
      | events => rfl
  refine hs.next hm List.prefix_rfl (fun c hc ↦ assign_of_ne hc) (fun _ ↦ rfl) ?_ nofun nofun ?_
  · exact thread_of_update rfl (fun u hu ↦ by cases hu; rfl) (hpc.fits (hs.thread t) hb)
  · exact fun e he ↦ Or.inl ⟨he, nofun⟩

theorem Fits.access (hs : Fits s) (hpc : Accesses a callers d (s.pc t) pc d')
    (ha : s.heap a = some d) :
    Fits { s with heap := assign s.heap a d', pc := Function.update s.pc t pc } := by
  obtain ⟨hframes, hframes'⟩ := hpc.frames
  have hheld : holdings s (.thread t) = a :: callers := hframes
  have hcallers : a ∉ callers := (List.nodup_cons.mp (hheld ▸ hs.exclusive.nodup (.thread t))).1
  have hsame : holdings { s with heap := assign s.heap a d', pc := Function.update s.pc t pc } =
      holdings s := by
    funext p
    cases p with
    | thread u =>
      by_cases hu : u = t
      · subst hu
        rw [holdings_thread rfl, hheld, hframes']
      · exact holdings_of_ne rfl hu
    | requests => rfl
    | finishes => rfl
    | events => rfl
  have hm : Moves a (some (.thread t)) (holdings s)
      (holdings { s with heap := assign s.heap a d', pc := Function.update s.pc t pc }) := by
    rw [hsame]
    exact Moves.stay hs.exclusive (hheld ▸ List.mem_cons_self)
  refine hs.next hm List.prefix_rfl (fun c hc ↦ assign_of_ne hc) (fun _ ↦ rfl) ?_
    nofun nofun ?_
  · exact thread_of_update rfl (fun u hu ↦ by cases hu; rfl) (hpc.fits (hs.thread t) ha hcallers)
  · exact fun e he ↦ Or.inl ⟨he, nofun⟩

/-- The thread hands its instance over to the runtime, which is to find a call for it. -/
theorem Fits.request (hs : Fits s) (hpc : s.pc t = .request a callers) :
    Fits { s with
      requests := s.requests ++ [a], pc := Function.update s.pc t (.ret callers) } := by
  have hfits : IsAt s.heap s.accepted a .requested ∧ CallersFit s.heap s.accepted callers := by
    have h := hs.thread t
    rwa [hpc] at h
  have hm : Moves a (some .requests) (holdings s) (holdings { s with
      requests := s.requests ++ [a], pc := Function.update s.pc t (.ret callers) }) := by
    refine Moves.handOver (p := .thread t) hs.exclusive nofun ?_ (List.perm_append_singleton a _) ?_
    · rw [holdings, hpc, holdings_thread rfl, frames_ret, Pc.frames]
    · intro p hp hne
      cases p with
      | thread u => exact holdings_of_ne rfl fun h ↦ hp (h ▸ rfl)
      | requests => exact absurd rfl hne
      | finishes => rfl
      | events => rfl
  refine hs.next hm List.prefix_rfl (fun _ _ ↦ rfl) (fun _ ↦ rfl) ?_ (fun _ ↦ hfits.1) nofun ?_
  · exact thread_of_update rfl nofun hfits.2.ret
  · exact fun e he ↦ Or.inl ⟨he, nofun⟩

theorem Fits.finish (hs : Fits s) (hpc : s.pc t = .finish a callers) (ha : s.heap a = some d) :
    Fits { s with
      heap := assign s.heap a { d with replied := true }
      finishes := s.finishes ++ [a]
      replies := s.replies ++ [(d.ctx, d.reply)]
      pc := Function.update s.pc t (.ret callers) } := by
  have hfits : callers = [] ∧ IsAt s.heap s.accepted a .finishing := by
    have h := hs.thread t
    rwa [hpc] at h
  obtain ⟨rfl, hold⟩ := hfits
  obtain ⟨hstatus, hcalled, -⟩ := hold.is_of_eq ha
  have hm : Moves a (some .finishes) (holdings s) (holdings { s with
      heap := assign s.heap a { d with replied := true }
      finishes := s.finishes ++ [a]
      replies := s.replies ++ [(d.ctx, d.reply)]
      pc := Function.update s.pc t (.ret []) }) := by
    refine Moves.handOver (p := .thread t) hs.exclusive nofun ?_ (List.perm_append_singleton a _) ?_
    · rw [holdings, hpc, holdings_thread rfl, frames_ret, Pc.frames]
    · intro p hp hne
      cases p with
      | thread u => exact holdings_of_ne rfl fun h ↦ hp (h ▸ rfl)
      | requests => rfl
      | finishes => exact absurd rfl hne
      | events => rfl
  refine hs.next hm List.prefix_rfl (fun c hc ↦ assign_of_ne hc) (fun _ ↦ rfl) ?_ nofun ?_ ?_
  · exact thread_of_update rfl nofun trivial
  · exact fun _ ↦ IsAt.assigned ⟨hstatus, hcalled, rfl⟩
  · exact fun e he ↦ Or.inl ⟨he, nofun⟩

theorem Fits.destroy (hs : Fits s) (hpc : s.pc t = .destroy a callers) :
    Fits { s with
      heap := Function.update s.heap a none, pc := Function.update s.pc t (.ret callers) } := by
  have hfits : callers = [] ∧ IsAt s.heap s.accepted a .answered := by
    have h := hs.thread t
    rwa [hpc] at h
  obtain ⟨rfl, -⟩ := hfits
  have hm : Moves a none (holdings s) (holdings { s with
      heap := Function.update s.heap a none, pc := Function.update s.pc t (.ret []) }) := by
    refine Moves.destroy (p := .thread t) hs.exclusive ?_ ?_
    · rw [holdings, hpc, holdings_thread rfl, frames_ret, Pc.frames]
    · intro p hp
      cases p with
      | thread u => exact holdings_of_ne rfl fun h ↦ hp (h ▸ rfl)
      | requests => rfl
      | finishes => rfl
      | events => rfl
  refine hs.next hm List.prefix_rfl (fun c hc ↦ Function.update_of_ne hc ..) ?_ ?_ nofun nofun ?_
  · exact fun h ↦ absurd (Function.update_self ..) h
  · exact thread_of_update rfl nofun trivial
  · exact fun e he ↦ Or.inl ⟨he, nofun⟩

private theorem Fits.takeEvent {k : ℕ} (hs : Fits s) (hpc : s.pc t = .next)
    (hk : s.events[k]? = some (a, true)) :
    Fits { s with
      events := s.events.eraseIdx k, pc := Function.update s.pc t (.proceed a []) } := by
  have hm : Moves a (some (.thread t)) (holdings s) (holdings { s with
      events := s.events.eraseIdx k, pc := Function.update s.pc t (.proceed a []) }) := by
    refine Moves.handOver (p := .events) hs.exclusive nofun ((perm_eraseIdx hk).map Prod.fst) ?_ ?_
    · rw [holdings_thread rfl, holdings, hpc]
      exact List.Perm.rfl
    · intro p hp hne
      cases p with
      | thread u => exact holdings_of_ne rfl fun h ↦ hne (h ▸ rfl)
      | requests => rfl
      | finishes => rfl
      | events => exact absurd rfl hp
  refine hs.next hm List.prefix_rfl (fun _ _ ↦ rfl) (fun _ ↦ rfl) ?_ nofun nofun ?_
  · refine thread_of_update rfl (fun u hu ↦ by cases hu; rfl) (Or.inr ⟨rfl, ?_⟩)
    exact (hs.events _ (List.mem_of_getElem? hk)).imp_left And.left
  · exact fun e he ↦ Or.inl ⟨List.mem_of_mem_eraseIdx he, nofun⟩

/-- The runtime gives a call to an instance that asks for one. -/
theorem Fits.call {k : ℕ} (hs : Fits s) (hk : s.requests[k]? = some a) (ha : s.heap a = some d)
    (name : Bytes) :
    Fits { s with
      heap := assign s.heap a { d with ctx := some s.accepted.length, request := name }
      requests := s.requests.eraseIdx k
      events := s.events ++ [(a, true)]
      accepted := s.accepted ++ [name] } := by
  have hmem : a ∈ s.requests := List.mem_of_getElem? hk
  obtain ⟨hstatus, -, hreplied⟩ := (hs.requests a hmem).is_of_eq ha
  have hm : Moves a (some .events) (holdings s) (holdings { s with
      heap := assign s.heap a { d with ctx := some s.accepted.length, request := name }
      requests := s.requests.eraseIdx k
      events := s.events ++ [(a, true)]
      accepted := s.accepted ++ [name] }) := by
    refine Moves.handOver (p := .requests) hs.exclusive nofun (perm_eraseIdx hk) ?_ ?_
    · rw [holdings, List.map_append]
      exact List.perm_append_singleton a _
    · intro p hp hne
      cases p with
      | thread u => rfl
      | requests => exact absurd rfl hp
      | finishes => rfl
      | events => exact absurd rfl hne
  refine hs.next hm (List.prefix_append ..) (fun c hc ↦ assign_of_ne hc) (fun _ ↦ rfl) ?_ nofun
    nofun ?_
  · exact fun u ↦ Or.inl ⟨rfl, nofun⟩
  · intro e he
    rcases List.mem_append.mp he with he | he
    · refine Or.inl ⟨he, fun _ heq ↦ ?_⟩
      have hmem' : e.1 ∈ holdings s .events := List.mem_map_of_mem he
      exact hs.exclusive.notMem (p := .requests) (q := .events) hmem nofun (heq ▸ hmem')
    · obtain rfl := List.mem_singleton.mp he
      refine Or.inr (Or.inl ⟨IsAt.assigned ⟨hstatus, ⟨_, rfl, ?_⟩, hreplied⟩, rfl⟩)
      exact List.getElem?_concat_length

/-- The runtime is done with an answer. -/
theorem Fits.done {k : ℕ} (hs : Fits s) (hk : s.finishes[k]? = some a) (ok : Bool) :
    Fits { s with finishes := s.finishes.eraseIdx k, events := s.events ++ [(a, ok)] } := by
  have hmem : a ∈ s.finishes := List.mem_of_getElem? hk
  have hm : Moves a (some .events) (holdings s) (holdings { s with
      finishes := s.finishes.eraseIdx k, events := s.events ++ [(a, ok)] }) := by
    refine Moves.handOver (p := .finishes) hs.exclusive nofun (perm_eraseIdx hk) ?_ ?_
    · rw [holdings, List.map_append]
      exact List.perm_append_singleton a _
    · intro p hp hne
      cases p with
      | thread u => rfl
      | requests => rfl
      | finishes => exact absurd rfl hp
      | events => exact absurd rfl hne
  refine hs.next hm List.prefix_rfl (fun _ _ ↦ rfl) (fun _ ↦ rfl) ?_ nofun nofun ?_
  · exact fun u ↦ Or.inl ⟨rfl, nofun⟩
  · intro e he
    rcases List.mem_append.mp he with he | he
    · refine Or.inl ⟨he, fun _ heq ↦ ?_⟩
      have hmem' : e.1 ∈ holdings s .events := List.mem_map_of_mem he
      exact hs.exclusive.notMem (p := .finishes) (q := .events) hmem nofun (heq ▸ hmem')
    · obtain rfl := List.mem_singleton.mp he
      exact Or.inr (Or.inr (hs.finishes a hmem))

theorem Fits.of_threadStep (hs : Fits s) (h : ThreadStep t s s') : Fits s' := by
  cases h with
  | construct hpc hb => exact hs.construct hpc hb
  | access hpc ha => exact hs.access hpc ha
  | request hpc ha => exact hs.request hpc
  | finish hpc ha => exact hs.finish hpc ha
  | destroy hpc ha => exact hs.destroy hpc
  | next hpc hk => exact hs.takeEvent hpc hk
  | abort hpc hk => exact ⟨hs.exclusive, hs.thread, hs.requests, hs.finishes, hs.events, hs.held⟩

theorem Fits.step (hs : Fits s) (h : Step s s') : Fits s' := by
  cases h with
  | thread h => exact hs.of_threadStep h
  | call hk ha => exact hs.call hk ha _
  | done hk => exact hs.done hk _

omit [DecidableEq τ] in
private theorem fits_initial : Fits ({} : State τ) := by
  have hnone : ∀ p, holdings ({} : State τ) p = [] := by
    intro p
    cases p <;> rfl
  refine ⟨⟨fun p ↦ ?_, fun {p q a} hp _ ↦ ?_⟩, fun _ ↦ trivial, nofun, nofun, nofun, nofun⟩
  · rw [hnone p]
    exact List.nodup_nil
  · exact absurd (hnone p ▸ hp) List.not_mem_nil

theorem fits_of_reached (hs : Reached s) : Fits s :=
  hs.invariant fits_initial fun _ _ _ hfits hstep ↦ hfits.step hstep

/-- **An instance exists exactly as long as one place refers to it.** So no thread, and not the
runtime either, gets to an instance that was deleted, no two threads are in the same instance, none
is deleted twice, and none is left over. -/
theorem exists_iff_held (hs : Reached s) (a : ℕ) :
    (s.heap a ≠ none ↔ ∃ p, a ∈ holdings s p) ∧
      ∀ p, a ∈ holdings s p → (holdings s p).count a = 1 ∧ ∀ q, a ∈ holdings s q → q = p := by
  have hfits := fits_of_reached hs
  refine ⟨⟨hfits.held a, fun ⟨p, hp⟩ ↦ hfits.live hp⟩, fun p hp ↦ ⟨?_, fun q hq ↦ ?_⟩⟩
  · exact List.count_eq_one_of_mem (hfits.exclusive.nodup p) hp
  · exact hfits.exclusive.unique hq hp

/-- Two threads serve one call, and the instance that served it is deleted. -/
def oneCall : List (Party Bool) :=
  [.thread false 0, .thread true 1, .thread false 0, .thread true 0, .thread true 0,
    .thread true 0, .thread false 0, .thread false 0, .call 1 (ascii "you"), .thread true 0,
    .thread true 0, .thread true 2, .thread true 0, .thread true 0, .thread true 0,
    .thread true 0, .thread true 0, .thread true 0, .done 0 true, .thread false 0,
    .thread false 0, .thread false 0]

theorem exists_iff_held_oneCall :
    ∃ s : State Bool, s.heap 0 = none ∧ s.heap 2 ≠ none ∧ ∃ p, 2 ∈ holdings s p := by
  have hs : (execute act oneCall {}).any (fun s ↦ s.heap 0 = none ∧ s.heap 2 ≠ none) = true := by
    decide +kernel
  obtain ⟨s, hrun, hdeleted, hlive⟩ := exists_of_execute hs
  have hreached : Reached s := reachable_of_execute (.start rfl) hrun
  exact ⟨s, hdeleted, hlive, (exists_iff_held hreached 2).1.mp hlive⟩

end Greeter

end CppRepo
