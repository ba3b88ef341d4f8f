import CppRepo.Rpc.Lifetime

/-!
# Every call is answered once

Between its two events an instance serves the call it was given, and no other instance serves that
call. So each call gets one answer, which is made from its own name. When a call has come, the
instance that serves it first constructs the one that asks for the next call, so the number of the
instances that wait for a call is that of the threads.
-/

namespace CppRepo

namespace Greeter

variable {τ : Type*} [DecidableEq τ] {s s' : State τ} {t : τ} {a b : ℕ} {d d' : CallData}
  {pc pc' : Pc} {callers : List ℕ}

/-! ## The calls

An instance is given a call once in its life, and its number is not changed then. So no call has two
instances, and the step that adds an answer is the one that marks the instance as one that has
answered. -/

/-- An instance serves call `i` and has not answered it. -/
def InService (s : State τ) (i : ℕ) : Prop :=
  ∃ a d, s.heap a = some d ∧ d.ctx = some i ∧ d.replied = false

/-- The calls that were answered. -/
def repliedTo (s : State τ) : List (Option ℕ) := s.replies.map Prod.fst

/-- Each call has one instance until it is answered, and one answer. -/
structure Answers (s : State τ) : Prop where
  unique : ∀ {a b d e i}, s.heap a = some d → s.heap b = some e → d.ctx = some i →
    e.ctx = some i → a = b
  replied : ∀ {a d i}, s.heap a = some d → d.ctx = some i →
    (d.replied = true ↔ some i ∈ repliedTo s)
  served : ∀ i < s.accepted.length, some i ∈ repliedTo s ∨ InService s i
  right : ∀ r ∈ s.replies, ∃ i name, r.1 = some i ∧ s.accepted[i]? = some name ∧
    r.2 = greeting name
  once : (repliedTo s).Nodup

omit [DecidableEq τ] in
private theorem Fits.ctx_lt {i : ℕ} (hs : Fits s) (ha : s.heap a = some d) (hd : d.ctx = some i) :
    i < s.accepted.length := by
  have hcalled (h : d.Called s.accepted) : i < s.accepted.length := by
    obtain ⟨j, hj, hname⟩ := h
    obtain rfl := Option.some_inj.mp (hj.symm.trans hd)
    exact (List.getElem?_eq_some_iff.mp hname).1
  obtain ⟨stage, hstage⟩ := hs.exists_is ha
  cases stage with
  | created => exact absurd (hstage.2.1.symm.trans hd) (Option.some_ne_none i).symm
  | requested => exact absurd (hstage.2.1.symm.trans hd) (Option.some_ne_none i).symm
  | accepted | greeted | finishing | answered => exact hcalled hstage.2.1

omit [DecidableEq τ] in
theorem Answers.frame (hs : Answers s) (hacc : s'.accepted = s.accepted)
    (hreplies : s'.replies = s.replies)
    (hback : ∀ c e', s'.heap c = some e' → e'.ctx ≠ none →
      ∃ e, s.heap c = some e ∧ e.ctx = e'.ctx ∧ e.replied = e'.replied)
    (hforth : ∀ c e, s.heap c = some e → e.replied = false → e.ctx ≠ none →
      ∃ e', s'.heap c = some e' ∧ e'.ctx = e.ctx ∧ e'.replied = false) : Answers s' := by
  have hsame : repliedTo s' = repliedTo s := congrArg (List.map Prod.fst) hreplies
  refine ⟨?_, ?_, ?_, ?_, ?_⟩
  · intro a b d e i ha hb hd he
    obtain ⟨d₀, ha₀, hd₀, -⟩ := hback a d ha (hd ▸ Option.some_ne_none i)
    obtain ⟨e₀, hb₀, he₀, -⟩ := hback b e hb (he ▸ Option.some_ne_none i)
    exact hs.unique ha₀ hb₀ (hd₀.trans hd) (he₀.trans he)
  · intro a d i ha hd
    obtain ⟨d₀, ha₀, hd₀, hreplied⟩ := hback a d ha (hd ▸ Option.some_ne_none i)
    rw [hsame, ← hreplied]
    exact hs.replied ha₀ (hd₀.trans hd)
  · intro i hi
    rw [hsame]
    refine (hs.served i (hacc ▸ hi)).imp_right ?_
    rintro ⟨a, d, ha, hd, hreplied⟩
    obtain ⟨d', ha', hd', hreplied'⟩ := hforth a d ha hreplied (hd ▸ Option.some_ne_none i)
    exact ⟨a, d', ha', hd'.trans hd, hreplied'⟩
  · rw [hreplies, hacc]
    exact hs.right
  · rw [hsame]
    exact hs.once

omit [DecidableEq τ] in
theorem Answers.finish {i : ℕ} (hs : Answers s) (ha : s.heap a = some d) (hctx : d.ctx = some i)
    (hname : s.accepted[i]? = some d.request) (hreply : d.reply = greeting d.request)
    (hopen : d.replied = false) (hheap : s'.heap = assign s.heap a { d with replied := true })
    (hacc : s'.accepted = s.accepted) (hreplies : s'.replies = s.replies ++ [(d.ctx, d.reply)]) :
    Answers s' := by
  have hback : ∀ c e', s'.heap c = some e' → ∃ e, s.heap c = some e ∧ e.ctx = e'.ctx ∧
      (c ≠ a → e = e') := by
    intro c e' he'
    rw [hheap] at he'
    by_cases hc : c = a
    · subst hc
      obtain rfl := Option.some_inj.mp (assign_self.symm.trans he')
      exact ⟨d, ha, rfl, fun hne ↦ absurd rfl hne⟩
    · exact ⟨e', (assign_of_ne hc).symm.trans he', rfl, fun _ ↦ rfl⟩
  have hsame : repliedTo s' = repliedTo s ++ [some i] := by
    rw [repliedTo, hreplies, List.map_append, List.map_singleton, hctx, repliedTo]
  have hnew : some i ∉ repliedTo s := fun h ↦ by
    have := (hs.replied ha hctx).mpr h
    exact absurd (hopen.symm.trans this) Bool.false_ne_true
  refine ⟨?_, ?_, ?_, ?_, ?_⟩
  · intro b c e f j hb hc he hf
    obtain ⟨e₀, hb₀, he₀, -⟩ := hback b e hb
    obtain ⟨f₀, hc₀, hf₀, -⟩ := hback c f hc
    exact hs.unique hb₀ hc₀ (he₀.trans he) (hf₀.trans hf)
  · intro b e j hb he
    obtain ⟨e₀, hb₀, he₀, hold⟩ := hback b e hb
    rw [hsame, List.mem_append, List.mem_singleton]
    by_cases hba : b = a
    · subst hba
      obtain rfl := Option.some_inj.mp (ha.symm.trans hb₀)
      have hji : some j = some i := (he.symm.trans he₀.symm).trans hctx
      rw [hheap, assign, Function.update_self] at hb
      obtain rfl := Option.some_inj.mp hb
      exact iff_of_true rfl (Or.inr hji)
    · have hji : some j ≠ some i := fun h ↦
        hba (hs.unique hb₀ ha (he₀.trans he) (hctx.trans h.symm))
      rw [or_iff_left hji, ← hold hba]
      exact hs.replied hb₀ (he₀.trans he)
  · intro j hj
    rw [hsame, List.mem_append, List.mem_singleton]
    rcases hs.served j (hacc ▸ hj) with hj | ⟨b, e, hb, he, hopen'⟩
    · exact Or.inl (Or.inl hj)
    · by_cases hba : b = a
      · subst hba
        obtain rfl := Option.some_inj.mp (ha.symm.trans hb)
        exact Or.inl (Or.inr (he.symm.trans hctx))
      · exact Or.inr ⟨b, e, by rw [hheap, assign_of_ne hba, hb], he, hopen'⟩
  · intro r hr
    rw [hacc]
    rcases List.mem_append.mp (hreplies ▸ hr) with hr | hr
    · exact hs.right r hr
    · obtain rfl := List.mem_singleton.mp hr
      exact ⟨i, d.request, hctx, hname, hreply⟩
  · rw [hsame]
    exact hs.once.append (List.nodup_singleton _) (List.disjoint_singleton.mpr hnew)

omit [DecidableEq τ] in
/-- An instance that waits for a call gets the next one. -/
theorem Answers.call {name : Bytes} (hfits : Fits s) (hs : Answers s) (ha : s.heap a = some d)
    (hopen : d.replied = false)
    (hheap : s'.heap = assign s.heap a { d with ctx := some s.accepted.length, request := name })
    (hacc : s'.accepted = s.accepted ++ [name]) (hreplies : s'.replies = s.replies)
    (hnone : d.ctx = none) : Answers s' := by
  have hsame : repliedTo s' = repliedTo s := congrArg (List.map Prod.fst) hreplies
  have hnew : some s.accepted.length ∉ repliedTo s := by
    intro h
    obtain ⟨r, hr, heq⟩ := List.mem_map.mp h
    obtain ⟨i, name, hi, hname, -⟩ := hs.right r hr
    obtain rfl := Option.some_inj.mp (hi.symm.trans heq)
    exact absurd (List.getElem?_eq_some_iff.mp hname).1 (lt_irrefl _)
  have hback : ∀ c e, s'.heap c = some e →
      c = a ∧ e.ctx = some s.accepted.length ∧ e.replied = false ∨ c ≠ a ∧ s.heap c = some e := by
    intro c e he
    rw [hheap] at he
    by_cases hc : c = a
    · subst hc
      obtain rfl := Option.some_inj.mp (assign_self.symm.trans he)
      exact Or.inl ⟨rfl, rfl, hopen⟩
    · exact Or.inr ⟨hc, (assign_of_ne hc).symm.trans he⟩
  refine ⟨?_, ?_, ?_, ?_, ?_⟩
  · intro b c e f i hb hc he hf
    rcases hback b e hb with ⟨rfl, he', -⟩ | ⟨-, hb⟩
    · rcases hback c f hc with ⟨rfl, -⟩ | ⟨-, hc⟩
      · rfl
      · have hlt := hfits.ctx_lt hc hf
        obtain rfl := Option.some_inj.mp (he'.symm.trans he)
        exact absurd hlt (lt_irrefl _)
    · rcases hback c f hc with ⟨rfl, hf', -⟩ | ⟨-, hc⟩
      · have hlt := hfits.ctx_lt hb he
        obtain rfl := Option.some_inj.mp (hf'.symm.trans hf)
        exact absurd hlt (lt_irrefl _)
      · exact hs.unique hb hc he hf
  · intro b e i hb he
    rw [hsame]
    rcases hback b e hb with ⟨rfl, he', hopen'⟩ | ⟨-, hb⟩
    · rw [hopen', ← he, he']
      exact iff_of_false Bool.false_ne_true hnew
    · exact hs.replied hb he
  · intro i hi
    rw [hsame]
    rw [hacc, List.length_append, List.length_singleton] at hi
    rcases Nat.lt_succ_iff_lt_or_eq.mp hi with hi | rfl
    · refine (hs.served i hi).imp_right ?_
      rintro ⟨b, e, hb, he, hopen'⟩
      have hba : b ≠ a := by
        rintro rfl
        obtain rfl := Option.some_inj.mp (ha.symm.trans hb)
        exact absurd (hnone.symm.trans he) (Option.some_ne_none i).symm
      exact ⟨b, e, by rw [hheap, assign_of_ne hba, hb], he, hopen'⟩
    · exact Or.inr ⟨a, _, (congrFun hheap a).trans assign_self, rfl, hopen⟩
  · rw [hreplies, hacc]
    intro r hr
    obtain ⟨i, name', hi, hname, hreply⟩ := hs.right r hr
    have hlt : i < s.accepted.length := (List.getElem?_eq_some_iff.mp hname).1
    exact ⟨i, name', hi, (List.getElem?_append_left hlt).trans hname, hreply⟩
  · rw [hsame]
    exact hs.once

theorem Accesses.keeps (h : Accesses a callers d pc pc' d') :
    d'.ctx = d.ctx ∧ d'.replied = d.replied := by
  cases h <;> exact ⟨rfl, rfl⟩

theorem Answers.of_threadStep (hfits : Fits s) (hs : Answers s) (h : ThreadStep t s s') :
    Answers s' := by
  cases h with
  | @construct b pc hpc hb =>
    refine hs.frame rfl rfl ?_ ?_
    · intro c e' he' hctx
      by_cases hc : c = b
      · subst hc
        obtain rfl := Option.some_inj.mp (assign_self.symm.trans he')
        exact absurd rfl hctx
      · exact ⟨e', (assign_of_ne hc).symm.trans he', rfl, rfl⟩
    · intro c e he hopen _
      have hc : c ≠ b := fun h ↦ Option.some_ne_none e ((h ▸ he).symm.trans hb)
      exact ⟨e, (assign_of_ne hc).trans he, rfl, hopen⟩
  | @access a callers d d' pc hpc ha =>
    obtain ⟨hctx, hreplied⟩ := hpc.keeps
    refine hs.frame rfl rfl ?_ ?_
    · intro c e' he' _
      by_cases hc : c = a
      · subst hc
        obtain rfl := Option.some_inj.mp (assign_self.symm.trans he')
        exact ⟨d, ha, hctx.symm, hreplied.symm⟩
      · exact ⟨e', (assign_of_ne hc).symm.trans he', rfl, rfl⟩
    · intro c e he hopen _
      by_cases hc : c = a
      · subst hc
        obtain rfl := Option.some_inj.mp (ha.symm.trans he)
        exact ⟨d', assign_self, hctx, hreplied.trans hopen⟩
      · exact ⟨e, (assign_of_ne hc).trans he, rfl, hopen⟩
  | request hpc ha =>
    exact hs.frame rfl rfl (fun c e he _ ↦ ⟨e, he, rfl, rfl⟩)
      fun c e he hopen _ ↦ ⟨e, he, rfl, hopen⟩
  | @finish a callers d hpc ha =>
    have hpcFits := hfits.thread t
    rw [hpc] at hpcFits
    obtain ⟨-, ⟨i, hctx, hname⟩, hopen, hreply⟩ := hpcFits.2.is_of_eq ha
    exact hs.finish ha hctx hname hreply hopen rfl rfl rfl
  | @destroy a callers d hpc ha =>
    have hpcFits := hfits.thread t
    rw [hpc] at hpcFits
    obtain ⟨-, -, hreplied⟩ := hpcFits.2.is_of_eq ha
    refine hs.frame rfl rfl ?_ ?_
    · intro c e' he' _
      have hc : c ≠ a := fun h ↦
        Option.some_ne_none e' (he'.symm.trans (h ▸ Function.update_self ..))
      exact ⟨e', (Function.update_of_ne hc ..).symm.trans he', rfl, rfl⟩
    · intro c e he hopen _
      have hc : c ≠ a := by
        rintro rfl
        obtain rfl := Option.some_inj.mp (ha.symm.trans he)
        exact absurd (hopen.symm.trans hreplied) Bool.false_ne_true
      exact ⟨e, (Function.update_of_ne hc ..).trans he, rfl, hopen⟩
  | next hpc hk =>
    exact hs.frame rfl rfl (fun c e he _ ↦ ⟨e, he, rfl, rfl⟩)
      fun c e he hopen _ ↦ ⟨e, he, rfl, hopen⟩
  | abort hpc hk =>
    exact hs.frame rfl rfl (fun c e he _ ↦ ⟨e, he, rfl, rfl⟩)
      fun c e he hopen _ ↦ ⟨e, he, rfl, hopen⟩

theorem Answers.step (hfits : Fits s) (hs : Answers s) (h : Step s s') : Answers s' := by
  cases h with
  | thread h => exact hs.of_threadStep hfits h
  | @call k a d name hk ha =>
    obtain ⟨-, hnone, hopen⟩ := (hfits.requests a (List.mem_of_getElem? hk)).is_of_eq ha
    exact hs.call hfits ha hopen rfl rfl rfl hnone
  | done hk =>
    exact hs.frame rfl rfl (fun c e he _ ↦ ⟨e, he, rfl, rfl⟩)
      fun c e he hopen _ ↦ ⟨e, he, rfl, hopen⟩

theorem answers_of_reached (hs : Reached s) : Answers s := by
  refine hs.invariant ⟨nofun, nofun, nofun, nofun, List.nodup_nil⟩ ?_
  exact fun _ _ hreached hanswers hstep ↦ hanswers.step (fits_of_reached hreached) hstep

/-- **No call is answered twice, for another one, or forgotten.** -/
theorem answered_once (hs : Reached s) :
    (repliedTo s).Nodup ∧
      (∀ r ∈ s.replies, ∃ i name, r.1 = some i ∧ s.accepted[i]? = some name ∧
        r.2 = greeting name) ∧
      ∀ i < s.accepted.length, some i ∉ repliedTo s →
        ∃! a, ∃ d, s.heap a = some d ∧ d.ctx = some i ∧ d.replied = false := by
  have hanswers := answers_of_reached hs
  refine ⟨hanswers.once, hanswers.right, fun i hi hopen ↦ ?_⟩
  obtain ⟨a, d, ha, hd, hreplied⟩ := (hanswers.served i hi).resolve_left hopen
  refine ⟨a, ⟨d, ha, hd, hreplied⟩, ?_⟩
  rintro b ⟨e, hb, he, -⟩
  exact hanswers.unique hb ha he hd

theorem answered_once_oneCall :
    ∃ s : State Bool, s.accepted = [ascii "you"] ∧ (repliedTo s).Nodup ∧
      ∀ r ∈ s.replies, ∃ i name, r.1 = some i ∧ s.accepted[i]? = some name ∧
        r.2 = greeting name := by
  have hs : (execute act oneCall {}).any (fun s ↦ s.accepted = [ascii "you"]) = true := by
    decide +kernel
  obtain ⟨s, hrun, haccepted⟩ := exists_of_execute hs
  have hreached : Reached s := reachable_of_execute (.start rfl) hrun
  exact ⟨s, haccepted, (answered_once hreached).1, (answered_once hreached).2.1⟩

/-! ## The instances that wait for a call

A call that comes turns a request into an event. The thread that takes this event owes a request,
which it makes in the constructor of the next instance, and then owes none. A thread owes one at
first, since it makes the first instance before its loop. -/

/-- The instance has not answered: its event is about a call that came. -/
def isOpen (heap : ℕ → Option CallData) (a : ℕ) : Bool :=
  (heap a).any fun d ↦ d.status ≠ .finish

/-- The thread is going to ask for a call. -/
def owed (heap : ℕ → Option CallData) : Pc → ℕ
  | .proceed a _ => (isOpen heap a).toNat
  | .start | .setProcess .. | .request .. | .spawn .. => 1
  | .next | .setMessage .. | .setFinish .. | .finish .. | .destroy .. => 0

/-- The requests for a call, those that were made and those that are going to be made because a
call has come. -/
def requested [Fintype τ] (s : State τ) : ℕ :=
  s.requests.length + s.events.countP (fun e ↦ isOpen s.heap e.1) + ∑ t, owed s.heap (s.pc t)

variable {heap heap' : ℕ → Option CallData}

private theorem isOpen_congr (h : heap' a = heap a) : isOpen heap' a = isOpen heap a := by
  rw [isOpen, h, isOpen]

private theorem owed_congr (h : ∀ a ∈ pc.frames, heap' a = heap a) :
    owed heap' pc = owed heap pc := by
  cases pc with
  | proceed a callers => exact congrArg Bool.toNat (isOpen_congr (h a List.mem_cons_self))
  | _ => rfl

private theorem countP_congr {events : List (ℕ × Bool)}
    (h : ∀ a ∈ events.map Prod.fst, heap' a = heap a) :
    events.countP (fun e ↦ isOpen heap' e.1) = events.countP fun e ↦ isOpen heap e.1 := by
  refine List.countP_congr fun e he ↦ ?_
  rw [isOpen_congr (h e.1 (List.mem_map_of_mem he))]

omit [DecidableEq τ] in
private theorem Fits.heap_eq {p : Place τ} (hs : Fits s) (hheap : ∀ c ≠ a, heap' c = s.heap c)
    (ha : s.heap a = none ∨ ∃ q ≠ p, a ∈ holdings s q) :
    ∀ c ∈ holdings s p, heap' c = s.heap c := by
  intro c hc
  refine hheap c ?_
  rintro rfl
  rcases ha with hnone | ⟨q, hq, ha⟩
  · exact hs.live hc hnone
  · exact hq (hs.exclusive.unique ha hc)

private theorem Fits.sum_owed [Fintype τ] (hs : Fits s) (pc : Pc)
    (hheap : ∀ c ≠ a, heap' c = s.heap c) (ha : s.heap a = none ∨ a ∈ (s.pc t).frames) :
    ∑ u, owed heap' (Function.update s.pc t pc u) + owed s.heap (s.pc t) =
      ∑ u, owed s.heap (s.pc u) + owed heap' pc := by
  have hother : ∀ u ≠ t, owed heap' (Function.update s.pc t pc u) = owed s.heap (s.pc u) := by
    intro u hu
    rw [Function.update_of_ne hu]
    refine owed_congr (hs.heap_eq (p := .thread u) hheap (ha.imp_right fun ha ↦ ?_))
    exact ⟨.thread t, fun h ↦ hu (Place.thread.inj h).symm, ha⟩
  have hsum := sum_add_of_forall_ne t hother
  rwa [Function.update_self] at hsum

private theorem owed_ret : owed heap (.ret callers) = 0 := by
  cases callers <;> rfl

private theorem isOpen_of_eq (ha : heap a = some d) :
    isOpen heap a = decide (d.status ≠ .finish) := by
  rw [isOpen, ha, Option.any_some]

theorem Constructs.owed (h : Constructs b pc pc') (heap heap' : ℕ → Option CallData) :
    Greeter.owed heap pc = 1 ∧ Greeter.owed (assign heap' b {}) pc' = 1 := by
  have hopen : isOpen (assign heap' b {}) b = true := isOpen_of_eq assign_self
  cases h with
  | handleRpcs => exact ⟨rfl, congrArg Bool.toNat hopen⟩
  | proceed a callers => exact ⟨rfl, congrArg Bool.toNat hopen⟩

theorem Accesses.owed (h : Accesses a callers d pc pc' d') (heap' : ℕ → Option CallData)
    (ha : heap a = some d) :
    Greeter.owed heap' pc' = Greeter.owed heap pc := by
  cases h with
  | proceed =>
    have hopen : Greeter.owed heap (.proceed a callers) = (decide (d.status ≠ .finish)).toNat :=
      congrArg Bool.toNat (isOpen_of_eq ha)
    rw [hopen]
    cases d.status <;> rfl
  | setProcess => rfl
  | setMessage => rfl
  | setFinish => rfl

private theorem requested_threadStep [Fintype τ] (hs : Fits s) (h : ThreadStep t s s') :
    requested s' = requested s := by
  cases h with
  | @construct b pc hpc hb =>
    have hheap : ∀ c ≠ b, assign s.heap b {} c = s.heap c := fun c hc ↦ assign_of_ne hc
    have hevents := countP_congr (hs.heap_eq (p := .events) hheap (Or.inl hb))
    have hsum := hs.sum_owed (t := t) pc hheap (Or.inl hb)
    have howed := hpc.owed s.heap s.heap
    simp only [requested, hevents]
    omega
  | @access a callers d d' pc hpc ha =>
    have hheap : ∀ c ≠ a, assign s.heap a d' c = s.heap c := fun c hc ↦ assign_of_ne hc
    have hmem : a ∈ (s.pc t).frames := hpc.frames.1 ▸ List.mem_cons_self
    have hevents := countP_congr
      (hs.heap_eq (p := .events) hheap (Or.inr ⟨.thread t, nofun, hmem⟩))
    have hsum := hs.sum_owed pc hheap (Or.inr hmem)
    have howed := hpc.owed (assign s.heap a d') ha
    simp only [requested, hevents]
    omega
  | @request a callers d hpc ha =>
    have hmem : a ∈ (s.pc t).frames := by rw [hpc]; exact List.mem_cons_self
    have hsum := hs.sum_owed (.ret callers) (fun c (_ : c ≠ a) ↦ rfl) (Or.inr hmem)
    have howed : owed s.heap (s.pc t) = 1 := by rw [hpc, owed]
    rw [owed_ret] at hsum
    simp only [requested, List.length_append, List.length_singleton]
    omega
  | @finish a callers d hpc ha =>
    have hheap : ∀ c ≠ a, assign s.heap a { d with replied := true } c = s.heap c :=
      fun c hc ↦ assign_of_ne hc
    have hmem : a ∈ (s.pc t).frames := by rw [hpc]; exact List.mem_cons_self
    have hevents := countP_congr
      (hs.heap_eq (p := .events) hheap (Or.inr ⟨.thread t, nofun, hmem⟩))
    have hsum := hs.sum_owed (.ret callers) hheap (Or.inr hmem)
    have howed : owed s.heap (s.pc t) = 0 := by rw [hpc, owed]
    rw [owed_ret] at hsum
    simp only [requested, hevents]
    omega
  | @destroy a callers d hpc ha =>
    have hheap : ∀ c ≠ a, Function.update s.heap a none c = s.heap c :=
      fun c hc ↦ Function.update_of_ne hc ..
    have hmem : a ∈ (s.pc t).frames := by rw [hpc]; exact List.mem_cons_self
    have hevents := countP_congr
      (hs.heap_eq (p := .events) hheap (Or.inr ⟨.thread t, nofun, hmem⟩))
    have hsum := hs.sum_owed (.ret callers) hheap (Or.inr hmem)
    have howed : owed s.heap (s.pc t) = 0 := by rw [hpc, owed]
    rw [owed_ret] at hsum
    simp only [requested, hevents]
    omega
  | @next k a hpc hk =>
    have hcount := (perm_eraseIdx hk).countP_eq fun e ↦ isOpen s.heap e.1
    have hother : ∀ u ≠ t, owed s.heap (Function.update s.pc t (.proceed a []) u) =
        owed s.heap (s.pc u) := fun u hu ↦ congrArg _ (Function.update_of_ne hu ..)
    have hsum := sum_add_of_forall_ne t hother
    have hproceed : owed s.heap (.proceed a []) = (isOpen s.heap a).toNat := rfl
    have howed : owed s.heap (s.pc t) = 0 := by rw [hpc, owed]
    rw [Function.update_self, howed, hproceed] at hsum
    rw [List.countP_cons] at hcount
    simp only [requested]
    cases hopen : isOpen s.heap a
    · rw [hopen, if_neg Bool.false_ne_true] at hcount
      rw [hopen, Bool.toNat_false] at hsum
      omega
    · rw [hopen, if_pos rfl] at hcount
      rw [hopen, Bool.toNat_true] at hsum
      omega
  | abort hpc hk => rfl

private theorem requested_step [Fintype τ] (hs : Fits s) (h : Step s s') :
    requested s' = requested s := by
  cases h with
  | thread h => exact requested_threadStep hs h
  | @call k a d name hk ha =>
    have hmem : a ∈ s.requests := List.mem_of_getElem? hk
    have hlength := (perm_eraseIdx hk).length_eq
    rw [List.length_cons] at hlength
    obtain ⟨hstatus, -⟩ := (hs.requests a hmem).is_of_eq ha
    let heap' := assign s.heap a { d with ctx := some s.accepted.length, request := name }
    have hheap : ∀ c ≠ a, heap' c = s.heap c := fun c hc ↦ assign_of_ne hc
    have hevents := countP_congr
      (hs.heap_eq (p := .events) hheap (Or.inr ⟨.requests, nofun, hmem⟩))
    have hopen : isOpen heap' a = true := by
      rw [isOpen_of_eq assign_self, hstatus]
      rfl
    have hsum : ∑ u, owed heap' (s.pc u) = ∑ u, owed s.heap (s.pc u) :=
      Finset.sum_congr rfl fun u _ ↦
        owed_congr (hs.heap_eq (p := .thread u) hheap (Or.inr ⟨.requests, nofun, hmem⟩))
    simp only [requested, List.countP_append, List.countP_singleton]
    change _ + (List.countP (fun e ↦ isOpen heap' e.1) s.events +
      if isOpen heap' a = true then 1 else 0) + ∑ u, owed heap' (s.pc u) = _
    rw [hevents, hsum, if_pos hopen]
    omega
  | @done k a ok hk =>
    obtain ⟨d, ha, hstatus, -⟩ := hs.finishes a (List.mem_of_getElem? hk)
    have hopen : isOpen s.heap a = false := by
      rw [isOpen_of_eq ha, hstatus]
      rfl
    simp only [requested, List.countP_append, List.countP_singleton, hopen]
    simp

/-- **There is a request for each thread**, made or owed. -/
theorem requested_eq [Fintype τ] (hs : Reached s) : requested s = Fintype.card τ := by
  refine hs.invariant (I := fun s ↦ requested s = Fintype.card τ) ?_ ?_
  · simp [requested, owed]
  · intro s s' hreached hrequested hstep
    exact (requested_step (fits_of_reached hreached) hstep).trans hrequested

end Greeter

end CppRepo
