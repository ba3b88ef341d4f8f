import CppRepo.Rpc.Answers

/-!
# The threads come to rest

When all threads wait for an event and there is none, every call that came has been answered, and
each thread has one instance that waits for a call. The threads come to rest by themselves: what
they do without the runtime has an end, which the number of the events and of the threads bounds.
-/

namespace CppRepo

namespace Greeter

variable {τ : Type*} [DecidableEq τ] {s s' : State τ} {t : τ} {a b : ℕ} {d d' : CallData}
  {heap : ℕ → Option CallData} {acc : List Bytes} {pc pc' : Pc} {callers : List ℕ}

/-- All threads wait for an event, and there is none. -/
def Idle (s : State τ) : Prop := (∀ t, s.pc t = .next) ∧ s.events = []

namespace Idle

omit [DecidableEq τ] in
private theorem exists_iff (hidle : Idle s) (hs : Fits s) :
    s.heap a ≠ none ↔ a ∈ s.requests ∨ a ∈ s.finishes := by
  constructor
  · intro ha
    obtain ⟨p, hp⟩ := hs.held a ha
    cases p with
    | thread t =>
      rw [holdings, hidle.1 t] at hp
      exact absurd hp List.not_mem_nil
    | requests => exact Or.inl hp
    | finishes => exact Or.inr hp
    | events =>
      rw [holdings, hidle.2] at hp
      exact absurd hp List.not_mem_nil
  · rintro (ha | ha)
    · exact (hs.requests a ha).ne_none
    · exact (hs.finishes a ha).ne_none

omit [DecidableEq τ] in
private theorem not_inService {i : ℕ} (hidle : Idle s) (hs : Fits s) : ¬ InService s i := by
  rintro ⟨a, d, ha, hctx, hopen⟩
  rcases (hidle.exists_iff hs).mp (ha ▸ Option.some_ne_none d) with hmem | hmem
  · have hnone := ((hs.requests a hmem).is_of_eq ha).2.1
    exact Option.some_ne_none i (hctx.symm.trans hnone)
  · have hreplied := ((hs.finishes a hmem).is_of_eq ha).2.2
    exact Bool.false_ne_true (hopen.symm.trans hreplied)

end Idle

/-- The calls that came, in the order in which they came. -/
def calls (s : State τ) : List (Option ℕ) := (List.range s.accepted.length).map some

/-- **At rest, every call has been answered, and each thread has an instance that waits for a
call.** No other instances are left than these and those whose answer the runtime still sends. -/
theorem idle [Fintype τ] (hs : Reached s) (hidle : Idle s) :
    (repliedTo s).Perm (calls s) ∧ s.requests.length = Fintype.card τ ∧
      ∀ a, s.heap a ≠ none ↔ a ∈ s.requests ∨ a ∈ s.finishes := by
  have hfits := fits_of_reached hs
  have hanswers := answers_of_reached hs
  have hcalls : (calls s).Nodup := List.nodup_range.map (Option.some_injective ℕ)
  refine ⟨(List.perm_ext_iff_of_nodup hanswers.once hcalls).mpr fun c ↦ ⟨fun hc ↦ ?_, fun hc ↦ ?_⟩,
    ?_, fun a ↦ hidle.exists_iff hfits⟩
  · obtain ⟨r, hr, rfl⟩ := List.mem_map.mp hc
    obtain ⟨i, name, hi, hname, -⟩ := hanswers.right r hr
    exact hi ▸ List.mem_map_of_mem (List.mem_range.mpr (List.getElem?_eq_some_iff.mp hname).1)
  · obtain ⟨i, hi, rfl⟩ := List.mem_map.mp hc
    exact (hanswers.served i (List.mem_range.mp hi)).resolve_right (hidle.not_inService hfits)
  · have hrequested := requested_eq hs
    have howed : ∑ t, owed s.heap (s.pc t) = 0 :=
      Finset.sum_eq_zero fun t _ ↦ by rw [hidle.1 t, owed]
    rwa [requested, hidle.2, howed, List.countP_nil] at hrequested

theorem idle_oneCall :
    ∃ s : State Bool, s.accepted = [ascii "you"] ∧ (repliedTo s).Perm (calls s) ∧
      s.requests.length = 2 := by
  have hs : (execute act oneCall {}).any (fun s ↦ s.accepted = [ascii "you"] ∧
      (∀ t, s.pc t = .next) ∧ s.events = []) = true := by decide +kernel
  obtain ⟨s, hrun, haccepted, hidle⟩ := exists_of_execute hs
  obtain ⟨hperm, hlength, -⟩ := idle (reachable_of_execute (.start rfl) hrun) hidle
  exact ⟨s, haccepted, hperm, hlength⟩

/-! ## What the threads do without the runtime

The rank of a place counts the steps up to the next wait in `Next`, with those in the constructor of
the next instance. An event is worth one step more than the `Proceed` it leads to. A step of a
thread lowers the sum, as it adds no event: those come from the runtime. -/

/-- How many steps a thread takes at most until it waits for the next event. -/
def rank : Pc → ℕ
  | .start => 9
  | .next => 0
  | .proceed _ [] => 8
  | .proceed _ (_ :: _) => 6
  | .setProcess _ callers => 2 + 3 * callers.length
  | .request _ callers => 1 + 3 * callers.length
  | .spawn .. => 7
  | .setMessage .. => 3
  | .setFinish .. => 2
  | .finish .. | .destroy .. => 1

/-- How many steps the threads take at most without the runtime. -/
def work [Fintype τ] (s : State τ) : ℕ := 9 * s.events.length + ∑ t, rank (s.pc t)

theorem rank_le (h : PcFits heap acc pc) : rank pc ≤ 9 := by
  cases pc with
  | proceed a callers => cases callers <;> simp [rank]
  | setProcess a callers | request a callers =>
    match callers with
    | [] => simp [rank]
    | [_] => simp [rank]
    | _ :: _ :: _ => exact h.2.elim
  | _ => simp [rank]

private theorem CallersFit.rank_ret (h : CallersFit heap acc callers) :
    rank (.ret callers) = 3 * callers.length := by
  match callers with
  | [] => rfl
  | [_] => rfl
  | _ :: _ :: _ => exact h.elim

theorem Constructs.rank_lt (h : Constructs b pc pc') : rank pc' < rank pc := by
  cases h <;> simp [rank]

theorem Accesses.rank_lt (h : Accesses a callers d pc pc' d') (hpc : PcFits heap acc pc)
    (ha : heap a = some d) : rank pc' < rank pc := by
  cases h with
  | proceed =>
    rcases hpc with ⟨hnew, hcallers⟩ | ⟨rfl, -⟩
    · rw [(hnew.is_of_eq ha).1]
      match callers with
      | [] => simp [Pc.branch, rank]
      | [_] => simp [Pc.branch, rank]
      | _ :: _ :: _ => exact hcallers.elim
    · cases d.status <;> simp [Pc.branch, rank]
  | setProcess => simp [rank]
  | setMessage => simp [rank]
  | setFinish => simp [rank]

private theorem work_update [Fintype τ] (pc : Pc) :
    ∑ u, rank (Function.update s.pc t pc u) + rank (s.pc t) = ∑ u, rank (s.pc u) + rank pc := by
  have hother : ∀ u ≠ t, rank (Function.update s.pc t pc u) = rank (s.pc u) :=
    fun u hu ↦ congrArg rank (Function.update_of_ne hu ..)
  have hsum := sum_add_of_forall_ne t hother
  rwa [Function.update_self] at hsum

/-- The answers whose events are in the queue could be sent. -/
def AllOk (s : State τ) : Prop := ∀ e ∈ s.events, e.2 = true

/-- What a thread does brings the threads nearer to rest. -/
theorem ThreadStep.work_lt [Fintype τ] (h : ThreadStep t s s') (hs : Fits s) (hok : AllOk s) :
    work s' < work s ∧ AllOk s' ∧ s'.aborted = s.aborted := by
  have hpcFits := hs.thread t
  cases h with
  | @construct b pc hpc hb =>
    have hsum := work_update (s := s) (t := t) pc
    have hlt := hpc.rank_lt
    refine ⟨?_, hok, rfl⟩
    simp only [work]
    omega
  | @access a callers d d' pc hpc ha =>
    have hsum := work_update (s := s) (t := t) pc
    have hlt := hpc.rank_lt hpcFits ha
    refine ⟨?_, hok, rfl⟩
    simp only [work]
    omega
  | @request a callers d hpc ha =>
    have hsum := work_update (s := s) (t := t) (.ret callers)
    rw [hpc] at hpcFits
    rw [hpcFits.2.rank_ret, hpc, rank] at hsum
    refine ⟨?_, hok, rfl⟩
    simp only [work]
    omega
  | @finish a callers d hpc ha =>
    have hsum := work_update (s := s) (t := t) (.ret callers)
    rw [hpc] at hpcFits
    obtain ⟨rfl, -⟩ := hpcFits
    rw [hpc, rank, Pc.ret, rank] at hsum
    refine ⟨?_, hok, rfl⟩
    simp only [work, Pc.ret]
    omega
  | @destroy a callers d hpc ha =>
    have hsum := work_update (s := s) (t := t) (.ret callers)
    rw [hpc] at hpcFits
    obtain ⟨rfl, -⟩ := hpcFits
    rw [hpc, rank, Pc.ret, rank] at hsum
    refine ⟨?_, hok, rfl⟩
    simp only [work, Pc.ret]
    omega
  | @next k a hpc hk =>
    have hsum := work_update (s := s) (t := t) (.proceed a [])
    rw [hpc, rank, rank] at hsum
    have hlength := (perm_eraseIdx hk).length_eq
    rw [List.length_cons] at hlength
    refine ⟨?_, fun e he ↦ hok e (List.mem_of_mem_eraseIdx he), rfl⟩
    simp only [work]
    omega
  | @abort k a hpc hk => exact absurd (hok _ (List.mem_of_getElem? hk)) Bool.false_ne_true

omit [DecidableEq τ] in
private theorem Fits.exists_free [Finite τ] (hs : Fits s) : ∃ b, s.heap b = none := by
  have hthreads : (⋃ t, {a | a ∈ (s.pc t).frames}).Finite :=
    Set.finite_iUnion fun t ↦ (s.pc t).frames.finite_toSet
  have hlists : {a | a ∈ s.requests ++ s.finishes ++ s.events.map Prod.fst}.Finite :=
    (s.requests ++ s.finishes ++ s.events.map Prod.fst).finite_toSet
  obtain ⟨b, hb⟩ := (hthreads.union hlists).exists_notMem
  refine ⟨b, by_contra fun hne ↦ hb ?_⟩
  obtain ⟨p, hp⟩ := hs.held b hne
  cases p with
  | thread t => exact Or.inl (Set.mem_iUnion.mpr ⟨t, hp⟩)
  | requests => exact Or.inr (List.mem_append_left _ (List.mem_append_left _ hp))
  | finishes => exact Or.inr (List.mem_append_left _ (List.mem_append_right _ hp))
  | events => exact Or.inr (List.mem_append_right _ hp)

private theorem Fits.exists_threadStep [Finite τ] (hs : Fits s) (h : s.pc t ≠ .next ∨ s.events ≠ [])
    : ∃ choice, (threadStep t choice s).isSome := by
  have hlive {a : ℕ} (hmem : a ∈ (s.pc t).frames) : ∃ d, s.heap a = some d :=
    Option.ne_none_iff_exists'.mp (hs.live (p := .thread t) hmem)
  obtain ⟨b, hb⟩ := hs.exists_free
  cases hpc : s.pc t with
  | start => exact ⟨b, by simp [threadStep, hpc, hb]⟩
  | next =>
    obtain ⟨e, events, hevents⟩ := List.exists_cons_of_ne_nil (h.resolve_left (absurd hpc))
    exact ⟨0, by simp [threadStep, hpc, hevents]⟩
  | spawn a callers =>
    obtain ⟨d, ha⟩ := hlive (a := a) (hpc ▸ List.mem_cons_self)
    exact ⟨b, by simp [threadStep, hpc, ha, hb]⟩
  | proceed a callers | setProcess a callers | request a callers | setMessage a callers
  | setFinish a callers | finish a callers | destroy a callers =>
    obtain ⟨d, ha⟩ := hlive (a := a) (hpc ▸ List.mem_cons_self)
    exact ⟨b, by simp [threadStep, hpc, ha]⟩

/-- The steps of threads, each with its choice. -/
def threads (ps : List (τ × ℕ)) : List (Party τ) := ps.map fun p ↦ .thread p.1 p.2

private theorem work_execute [Fintype τ] {ps : List (τ × ℕ)} (hs : Fits s) (hok : AllOk s)
    (h : execute act (threads ps) s = some s') :
    Fits s' ∧ AllOk s' ∧ s'.aborted = s.aborted ∧ work s' + ps.length ≤ work s := by
  induction ps generalizing s with
  | nil =>
    obtain rfl := Option.some_inj.mp h
    exact ⟨hs, hok, rfl, le_rfl⟩
  | cons p ps ih =>
    obtain ⟨u, hu, h⟩ := Option.bind_eq_some_iff.mp h
    have hstep : ThreadStep p.1 s u := ThreadStep.of_eq (Option.ite_none_left_eq_some.mp hu).2
    obtain ⟨hlt, hokU, habort⟩ := hstep.work_lt hs hok
    obtain ⟨hfits, hok', habort', hle⟩ := ih (hs.of_threadStep hstep) hokU h
    refine ⟨hfits, hok', habort'.trans habort, ?_⟩
    rw [List.length_cons]
    omega

/-- **The threads come to rest by themselves.** What they do without the runtime has an end, and
unless a call was dead they go on until they are at rest. -/
theorem comes_to_rest [Fintype τ] [Nonempty τ] {ps : List (τ × ℕ)} (hs : Reached s)
    (hok : AllOk s) (habort : s.aborted = false) (h : execute act (threads ps) s = some s') :
    ps.length ≤ 9 * (s.events.length + Fintype.card τ) ∧
      (Idle s' ∨ ∃ t choice, (act (.thread t choice) s').isSome) := by
  have hfits := fits_of_reached hs
  obtain ⟨hfits', -, habort', hle⟩ := work_execute hfits hok h
  constructor
  · have hsum : ∑ t, rank (s.pc t) ≤ ∑ _t : τ, 9 :=
      Finset.sum_le_sum fun t _ ↦ rank_le (hfits.thread t)
    rw [Finset.sum_const, Finset.card_univ, smul_eq_mul] at hsum
    simp only [work] at hle
    omega
  · by_cases hidle : Idle s'
    · exact Or.inl hidle
    · have hbusy : ∃ t, s'.pc t ≠ .next ∨ s'.events ≠ [] := by
        by_contra hall
        push Not at hall
        exact hidle ⟨fun t ↦ (hall t).1, (hall (Classical.arbitrary τ)).2⟩
      obtain ⟨t, ht⟩ := hbusy
      obtain ⟨choice, hsome⟩ := hfits'.exists_threadStep ht
      refine Or.inr ⟨t, choice, ?_⟩
      simpa [act, habort'.trans habort] using hsome

/-- What one thread does when a call has come. -/
def serveOne : List (Bool × ℕ) := [(true, 0), (true, 0)] ++ List.replicate 7 (true, 2)

theorem comes_to_rest_oneCall :
    ∃ s s' : State Bool, s.events.length = 1 ∧ execute act (threads serveOne) s = some s' ∧
      serveOne.length ≤ 9 * (s.events.length + 2) ∧
      (Idle s' ∨ ∃ t choice, (act (.thread t choice) s').isSome) := by
  have hs : (execute act (oneCall.take 9) {}).any (fun s ↦ s.events = [(0, true)] ∧
      s.aborted = false ∧ (execute act (threads serveOne) s).isSome) = true := by decide +kernel
  obtain ⟨s, hrun, hevents, habort, hsome⟩ := exists_of_execute hs
  obtain ⟨s', hrun'⟩ := Option.isSome_iff_exists.mp hsome
  have hok : AllOk s := by simp [AllOk, hevents]
  obtain ⟨hle, hrest⟩ := comes_to_rest (reachable_of_execute (.start rfl) hrun) hok habort hrun'
  exact ⟨s, s', congrArg List.length hevents, hrun', hle, hrest⟩

end Greeter

end CppRepo
