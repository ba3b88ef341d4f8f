import CppRepo.Http.Serving

/-!
# What one connection can do to the server

Nothing on the request path catches an exception, so a request that throws ends the thread that runs
it. `NothingThrows` says, of what the connection meets, when that does not happen: every request
that is reached is either not an upload, or its writes succeed, its length and the terminating
character fit an `int`, there is memory for them, and its body arrives. A client decides about most
of this: it may leave before it was answered, name a length above the limit, or close the stream in
the middle of a body.

Which requests are reached, and how many writes came before them, depends on the earlier ones. The
condition counts the writes and follows the loop.

## Why this is exact

The rule for one turn says when the turn throws and what the stream was handed if it does not. So
the condition can be followed along the loop with nothing but the outcomes of the writes to come;
and where it fails, the request that fails it is reached, because all turns before it came to their
end. The coroutine and the thread add nothing, as neither of them has a handler.
-/

namespace CppRepo

/-- No request that is reached throws; `outcome` is that of the writes from now on. -/
def NothingThrows : List Exchange → (ℕ → Option ErrorCode) → Prop
  | [], _ => True
  | x :: xs, outcome => ∀ m, x.header = .parsed m →
      (∃ e, x.localEndpoint = .ok e) ∧ x.Serves m outcome ∧
      (m.keepAlive = true → Drains x.body x.reads →
        NothingThrows xs fun i ↦ outcome (m.writes + i))

private theorem outcome_after_answers (s : Stream) (x : Exchange) (m : Message) :
    ((s.note .readHeader).wrote (x.answers m)).outcome = fun i ↦ s.outcome (m.writes + i) := by
  funext i
  rw [Stream.outcome_wrote, Stream.outcome_note_readHeader, x.length_answers]

theorem ensures_handleConnection (xs : List Exchange) : ∀ s : Stream,
    Ensures (handleConnection xs) s (fun _ _ ↦ NothingThrows xs s.outcome)
      fun _ _ ↦ ¬NothingThrows xs s.outcome := by
  induction xs with
  | nil => exact fun s ↦ trivial
  | cons x xs ih =>
    intro s
    have hparsed : ∀ {m m' : Message}, x.header = .parsed m → x.header = .parsed m' → m' = m :=
      fun h h' ↦ HeaderRead.parsed.inj (h'.symm.trans h)
    refine ensures_handleConnection_cons ?_ ?_ ?_ ?_ ?_
    · rintro ec version hfailed
      have hnone : NothingThrows (x :: xs) s.outcome := by
        rintro m hm
        exact absurd (hfailed.symm.trans hm) (by simp)
      exact ⟨hnone, hnone⟩
    · rintro m ec hm hec h
      obtain ⟨e, he⟩ := (h m hm).1
      exact absurd (hec.symm.trans he) (by simp)
    · rintro m _ _ hm hserves _ h
      exact hserves (h m hm).2.1
    · rintro m e hm he hserves hends m' hm'
      obtain rfl := hparsed hm hm'
      exact ⟨⟨e, he⟩, hserves, fun hkeep hdrains ↦ absurd ⟨hkeep, hdrains⟩ hends⟩
    · rintro m e hm he hserves hkeep hdrains
      have hrest := ih ((s.note .readHeader).wrote (x.answers m))
      rw [outcome_after_answers] at hrest
      refine hrest.mono ?_ ?_
      · rintro _ t h m' hm'
        obtain rfl := hparsed hm hm'
        exact ⟨⟨e, he⟩, hserves, fun _ _ ↦ h⟩
      · rintro _ t hnot h
        exact hnot ((h m hm).2.2 hkeep hdrains)

theorem ensures_connectionCoroutine (xs : List Exchange) (s : Stream) :
    Ensures (connectionCoroutine xs) s (fun _ _ ↦ NothingThrows xs s.outcome)
      fun _ _ ↦ ¬NothingThrows xs s.outcome := by
  rw [connectionCoroutine, ensures_bind]
  exact (ensures_handleConnection xs s).mono (fun _ _ h ↦ h) fun _ _ h ↦ h

private theorem runThread_of_throws {xs : List Exchange} {s : Stream}
    (h : ¬NothingThrows xs s.outcome) : ∃ fault, runThread xs s = .terminated fault := by
  rw [runThread]
  rcases hrun : connectionCoroutine xs s with ⟨_, t⟩ | ⟨fault, t⟩
  · exact absurd ((ensures_connectionCoroutine xs s).of_ok hrun) h
  · exact ⟨fault, rfl⟩

/-- **When a connection is contained.** For every connection and every stream: no exception leaves
`handle_connection`, and the thread that runs the coroutine keeps running, if and only if no request
that is reached throws. -/
theorem connection_contained_iff (xs : List Exchange) (stream : Stream) :
    ((∀ fault t, handleConnection xs stream ≠ .error fault t) ∧
        runThread xs stream = .keepsRunning) ↔
      NothingThrows xs stream.outcome := by
  refine ⟨?_, fun h ↦ ⟨?_, ?_⟩⟩
  · rintro ⟨_, hthread⟩
    by_contra hthrows
    obtain ⟨fault, hfault⟩ := runThread_of_throws hthrows
    exact absurd (hthread.symm.trans hfault) (by simp)
  · intro fault t hrun
    exact (ensures_handleConnection xs stream).of_error hrun h
  · rw [runThread]
    rcases hrun : connectionCoroutine xs stream with ⟨_, t⟩ | ⟨fault, t⟩
    · rfl
    · exact absurd h ((ensures_connectionCoroutine xs stream).of_error hrun)

/-- An upload of two gigabytes: one more than an `int` can count. -/
def oversizedUpload : Exchange where
  header := .parsed ⟨.put, ascii "/", 11, [⟨ascii "Content-Length", ascii "2147483648"⟩], true, by
    intro f hf _
    obtain rfl := List.mem_singleton.mp hf
    exact ⟨2147483648, by norm_num, rfl⟩⟩
  localEndpoint := .ok ⟨[], 0⟩
  remoteEndpoint := ⟨[], 0⟩
  body := ⟨[], false⟩
  reads := []
  now := none
  allocates _ := true

/-- Its header alone ends the thread. -/
theorem oversizedUpload_terminates :
    ∃ fault, runThread [oversizedUpload] .fresh = .terminated fault := by
  refine runThread_of_throws fun h ↦ ?_
  obtain ⟨_, hserves, _⟩ := h _ rfl
  obtain ⟨hlt, _⟩ := (hserves rfl).2 2147483648 rfl
  exact absurd hlt (by decide)

end CppRepo
