import CppRepo.Http.Delivery

/-!
# The byte counts add up

A client is metered if there is a count on its state such that every call returns, as its number of
bytes, exactly what the count grew by. A `ClientIo` is metered by the bytes it put into its buffer
or handed to its stream. Each filter over a metered client is metered by the same count: some return
the sum of several calls, some nothing now and everything later, but nothing is reported that was
not generated below, and nothing twice. An enabled `AccountingFilter` moreover keeps its total equal
to the count. So the count seen at any depth of a stack is the same, and the induction is on the
stack.

The one exception is `ConLenControllingFilter`, which returns an error value for a content length
that comes before the status; the documented order excludes that, and `K` below says that it is
excluded.
-/

namespace CppRepo

variable {δ : Type}

/-- The calls that may come only after the status. -/
def Call.needsStatus : Call → Bool
  | .sendContentLength _ | .completeHeader => true
  | _ => false

/-- In states satisfying `I`, a call returns what `meter` grows by; where the call needs the status,
only if it was sent, which `K` says. -/
def Metered (d : RestfulClient δ) (I K : δ → Prop) (meter : δ → UInt64) : Prop :=
  ∀ c, ClientIo.LineFits c → ∀ s, I s → (c.needsStatus = true → K s) → Ensures (d.invoke c) s
    (fun n t ↦ I t ∧ meter t = meter s + n ∧ (K s → K t) ∧ (c.isStatus = true → K t))
    fun _ _ ↦ True

namespace Metered

variable {d : RestfulClient δ} {I K : δ → Prop} {meter : δ → UInt64}

theorem callAll (h : Metered d I K meter) {cs : List Call}
    (hline : ∀ c ∈ cs, ClientIo.LineFits c) {s : δ} (hs : I s)
    (hneeds : ∀ c ∈ cs, c.needsStatus = true → K s) : Ensures (callAll d cs) s
      (fun n t ↦ I t ∧ meter t = meter s + n ∧ (K s → K t) ∧ (∀ c ∈ cs, c.isStatus = true → K t))
      fun _ _ ↦ True := by
  induction cs generalizing s with
  | nil => exact ⟨hs, (add_zero _).symm, id, by simp⟩
  | cons c cs ih =>
    rw [ensures_callAll_cons]
    refine (h c (hline c List.mem_cons_self) s hs (hneeds c List.mem_cons_self)).mono ?_
      fun _ _ _ ↦ trivial
    rintro n t ⟨ht, hn, hK, hstatus⟩
    refine (ih (fun c' hc' ↦ hline c' (List.mem_cons_of_mem c hc')) ht
      fun c' hc' hneed ↦ hK (hneeds c' (List.mem_cons_of_mem c hc') hneed)).mono ?_
      fun _ _ _ ↦ trivial
    rintro m u ⟨hu, hm, hK', hstatus'⟩
    refine ⟨hu, by rw [hm, hn, add_assoc], fun hs ↦ hK' (hK hs), ?_⟩
    rintro c' hc' hst
    rcases List.mem_cons.mp hc' with rfl | hc'
    · exact hK' (hstatus hst)
    · exact hstatus' c' hc' hst

/-- Over a metered client the total of an enabled filter is the count. -/
theorem accounting (h : Metered d I K meter) : Metered (AccountingFilter.client d)
    (fun s ↦ I s.2 ∧ s.1.enabled = true ∧ s.1.totalSent = meter s.2) (fun s ↦ K s.2)
    fun s ↦ meter s.2 := by
  rintro c hline ⟨f, s⟩ ⟨hs, henabled, htotal⟩ hneeds
  rw [AccountingFilter.ensures_invoke_iff]
  have hadd : ∀ n, (f.addSent n).enabled = true ∧ (f.addSent n).totalSent = f.totalSent + n := by
    intro n
    rw [AccountingFilter.addSent, if_pos henabled]
    exact ⟨henabled, rfl⟩
  by_cases hc : c = .flush
  · -- the filter does not see a flush, and a flush counts for nothing
    subst hc
    have hflush := h .flush hline s hs hneeds
    simp only [RestfulClient.invoke, ensures_bind, ensures_pure] at hflush ⊢
    refine hflush.mono ?_ fun _ _ _ ↦ trivial
    rintro _ t ⟨ht, hn, hK⟩
    exact ⟨⟨ht, henabled, by rw [hn, add_zero]; exact htotal⟩, hn, hK⟩
  · refine (h c hline s hs hneeds).mono ?_ fun _ _ _ ↦ trivial
    rintro n t ⟨ht, hn, hK⟩
    rw [AccountingFilter.next, if_neg hc]
    refine ⟨⟨ht, (hadd n).1, ?_⟩, hn, hK⟩
    rw [(hadd n).2, hn]
    exact congrArg (· + n) htotal

theorem chunking (h : Metered d I K meter) : Metered (ChunkingFilter.client d)
    (fun s ↦ I s.2) (fun s ↦ K s.2) fun s ↦ meter s.2 := by
  rintro c hline ⟨f, s⟩ hs hneeds
  rw [ChunkingFilter.ensures_invoke_iff]
  refine (h.callAll (fun c' hc' ↦ ChunkingFilter.lineFits_of_mem hline hc') hs fun c' hc' ↦ ?_).mono
    ?_ fun _ _ _ ↦ trivial
  · rcases ChunkingFilter.eq_of_mem_passes hc' with rfl | ⟨name, value, rfl⟩ | ⟨buf, rfl⟩
    · exact hneeds
    · rintro ⟨⟩
    · rintro ⟨⟩
  · rintro n t ⟨ht, hn, hK, hstatus⟩
    refine ⟨ht, hn, hK, fun hst ↦ ?_⟩
    cases c with
    | sendStatus status statusName => exact hstatus _ List.mem_cons_self rfl
    | _ => cases hst

theorem conLenControlling (h : Metered d I K meter) : Metered (ConLenControllingFilter.client d)
    (fun s ↦ I s.2) (fun s ↦ s.1.action ≠ .unknown ∧ K s.2) fun s ↦ meter s.2 := by
  rintro c hline ⟨f, s⟩ hs hneeds
  rw [ConLenControllingFilter.ensures_invoke_iff]
  have hline' : ∀ c' ∈ f.passes c, ClientIo.LineFits c' :=
    fun c' hc' ↦ ConLenControllingFilter.eq_of_mem_passes hc' ▸ hline
  have hneeds' : ∀ c' ∈ f.passes c, c'.needsStatus = true → K s := by
    intro c' hc' hneed
    rw [ConLenControllingFilter.eq_of_mem_passes hc'] at hneed
    exact (hneeds hneed).2
  refine (h.callAll hline' hs hneeds').mono ?_ fun _ _ _ ↦ trivial
  rintro n t ⟨ht, hn, hK, hstatus⟩
  have hvalue : f.value c n = n := by
    cases c with
    | sendContentLength len => exact if_neg (hneeds rfl).1
    | _ => rfl
  rw [hvalue]
  cases c with
  | sendStatus status statusName =>
    have haction := ConLenControllingFilter.actionOf_ne_unknown status
    have hKt := hstatus _ List.mem_cons_self rfl
    exact ⟨ht, hn, fun _ ↦ ⟨haction, hKt⟩, fun _ ↦ ⟨haction, hKt⟩⟩
  | _ => exact ⟨ht, hn, fun hs ↦ ⟨hs.1, hK hs.2⟩, by rintro ⟨⟩⟩

theorem reordering (h : Metered d I K meter) : Metered (ReorderingFilter.client d)
    (fun s ↦ I s.2) (fun s ↦ K s.2) fun s ↦ meter s.2 := by
  rintro c hline ⟨f, s⟩ hs hneeds
  refine ReorderingFilter.ensures_invoke_of ((h.callAll
    (fun c' hc' ↦ ReorderingFilter.lineFits_of_mem hline hc') hs fun c' hc' ↦ ?_).mono ?_
    fun _ _ _ ↦ ⟨trivial, fun _ ↦ trivial⟩)
  · rcases ReorderingFilter.eq_of_mem_passes hc' with rfl | ⟨rfl, _⟩
    · exact hneeds
    · exact fun _ ↦ hneeds rfl
  · rintro n t ⟨ht, hn, hK, hstatus⟩
    refine ⟨ht, hn, hK, fun hst ↦ ?_⟩
    cases c with
    | sendStatus status statusName => exact hstatus _ List.mem_cons_self rfl
    | _ => cases hst

end Metered

/-! ## Stacks

The invariant of a stack is put together from those of its filters, and so is the condition on the
status; `Metered.stack` finds both by induction on the list of filters. The accounting filters are
enabled before the first call. -/

/-- `set_account(true)` on a filter, if it has it. -/
def FilterKind.enable : (k : FilterKind) → k.Fields → k.Fields
  | .accounting, f => AccountingFilter.setAccount true f
  | .chunking, f => f
  | .conLenControlling, f => f
  | .reordering, f => f

/-- Enables every accounting filter of a stack. -/
def enableAccounting : (ks : List FilterKind) → StackState δ ks → StackState δ ks
  | [], s => s
  | k :: ks, s => (k.enable s.1, enableAccounting ks s.2)

/-- `get_bytes_sent()` of a filter, if it has it. -/
def FilterKind.bytesSent : (k : FilterKind) → k.Fields → List UInt64
  | .accounting, f => [AccountingFilter.getBytesSent f]
  | .chunking, _ => []
  | .conLenControlling, _ => []
  | .reordering, _ => []

/-- What `get_bytes_sent()` says on the accounting filters of a stack, the outermost first. -/
def bytesSent : (ks : List FilterKind) → StackState δ ks → List UInt64
  | [], _ => []
  | k :: ks, s => k.bytesSent s.1 ++ bytesSent ks s.2

/-- **A stack over a metered client is metered by the same count**, and every accounting filter in
it, enabled before anything was sent, shows that count. -/
theorem Metered.stack {d : RestfulClient δ} {I K : δ → Prop} {meter : δ → UInt64}
    (h : Metered d I K meter) : ∀ ks : List FilterKind, ∃ J L : StackState δ ks → Prop,
      Metered (stackClient d ks) J L (fun s ↦ meter (stackBase ks s)) ∧
        (∀ s, I s → meter s = 0 → J (enableAccounting ks (stackNew s ks)) ∧
          stackBase ks (enableAccounting ks (stackNew s ks)) = s) ∧
        ∀ s, J s → I (stackBase ks s) ∧ ∀ n ∈ bytesSent ks s, n = meter (stackBase ks s)
  | [] => ⟨I, K, h, fun s hs _ ↦ ⟨hs, rfl⟩, fun s hs ↦ ⟨hs, by rintro _ ⟨⟩⟩⟩
  | k :: ks => by
    obtain ⟨J, L, hmetered, hnew, hbytes⟩ := h.stack ks
    cases k with
    | accounting =>
      refine ⟨_, _, hmetered.accounting, fun s hs hzero ↦ ⟨⟨(hnew s hs hzero).1, rfl, ?_⟩,
        (hnew s hs hzero).2⟩, ?_⟩
      · have hbase := (hnew s hs hzero).2
        exact (hzero.symm.trans (congrArg meter hbase.symm) : (0 : UInt64) = _)
      · rintro s ⟨hs, _, htotal⟩
        refine ⟨(hbytes s.2 hs).1, fun n hn ↦ ?_⟩
        rcases List.mem_append.mp hn with hn | hn
        · exact (List.mem_singleton.mp hn).trans htotal
        · exact (hbytes s.2 hs).2 n hn
    | chunking => exact ⟨_, _, hmetered.chunking, hnew, fun s hs ↦ hbytes s.2 hs⟩
    | conLenControlling => exact ⟨_, _, hmetered.conLenControlling, hnew, fun s hs ↦ hbytes s.2 hs⟩
    | reordering => exact ⟨_, _, hmetered.reordering, hnew, fun s hs ↦ hbytes s.2 hs⟩

/-! ## The client at the bottom

The count at the bottom is the length of what was put into the buffer or handed to the stream, since
the start of the run. It is a natural number there, and a `size_t` only where it is compared with
what a call returns. -/

namespace StreamIo

/-- How many bytes the client put into its buffer or handed to its stream since `start`. -/
def bytesGenerated (start io : StreamIo) : ℕ := io.wire.length - start.wire.length

private theorem metered (start : StreamIo) : Metered client
    (fun io ↦ io.txbuf.Settled (fun _ ↦ True) ∧ start.wire.length ≤ io.wire.length) (fun _ ↦ True)
    fun io ↦ UInt64.ofNat (bytesGenerated start io) := by
  rintro c hline io ⟨hio, hle⟩ _
  -- what is left to see is that the call adds as many bytes as it says
  have hmeter : ∀ (t : StreamIo) (k : ℕ), t.wire.length = io.wire.length + k →
      start.wire.length ≤ t.wire.length ∧ UInt64.ofNat (bytesGenerated start t)
        = UInt64.ofNat (bytesGenerated start io) + UInt64.ofNat k := by
    intro t k ht
    refine ⟨by omega, ?_⟩
    rw [bytesGenerated, ht, Nat.sub_add_comm hle, UInt64.ofNat_add, bytesGenerated]
  by_cases hbody : c.body? = none
  · refine (ClientIo.ensures_invoke_taken Stream.sink_keeps recvBody hbody hline hio).mono ?_
      fun _ _ _ ↦ trivial
    rintro n t ⟨rfl, _, ht, htaken, _⟩
    obtain ⟨hle', hcount⟩ := hmeter t _ (by rw [wire, htaken, List.length_append, ← wire])
    exact ⟨⟨ht, hle'⟩, hcount, id, fun _ ↦ trivial⟩
  · cases c with
    | sendBody buf =>
      rw [client, ClientIo.ensures_sendBody_iff]
      refine (Stream.ensures_writeData buf io.txbuf.sink).mono ?_ fun _ _ _ ↦ trivial
      rintro n w ⟨_, rfl, rfl⟩
      obtain ⟨hle', hcount⟩ := hmeter { io with
          txbuf := { io.txbuf with sink := io.txbuf.sink.note (.write buf) } } buf.length (by
        simp only [wire, StaticOutputBufferer.taken, Stream.sent_note_write,
          StaticOutputBufferer.pending, List.length_append]
        omega)
      exact ⟨⟨⟨hio.1, trivial⟩, hle'⟩, hcount, id, fun _ ↦ trivial⟩
    | _ => exact absurd rfl hbody

end StreamIo

/-! ## The documented order

Flushes anywhere do not change which calls come before which. All that the sum needs is that a
content length does not come before the status. -/

private theorem Response.status_before (r : Response) {calls done rest : List Call} {c : Call}
    (hcalls : calls.filter (· ≠ .flush) = r.calls) (hsplit : calls = done ++ c :: rest)
    (hneeds : c.needsStatus = true) : ∃ d ∈ done, d.isStatus = true := by
  rw [Response.calls, Response.headCalls, List.append_assoc] at hcalls
  obtain ⟨before, tail, rfl, hbefore, htail⟩ := List.filter_eq_append_iff.mp hcalls
  obtain ⟨mid, after, rfl, hmid, _, _⟩ := List.filter_eq_cons_iff.mp htail
  -- before the status come flushes and perhaps a 100 Continue
  have hplain : ∀ e ∈ before ++ mid, e.needsStatus = false := by
    intro e he
    by_cases hflush : e = .flush
    · rw [hflush]
      rfl
    · rcases List.mem_append.mp he with he | he
      · have hmem : e ∈ before.filter (· ≠ .flush) := by
          rw [List.mem_filter]
          exact ⟨he, by simpa using hflush⟩
        rw [hbefore] at hmem
        split_ifs at hmem
        · rw [List.mem_singleton.mp hmem]
          rfl
        · cases hmem
      · exact absurd (by simpa using hmid e he) hflush
  rw [← List.append_assoc] at hsplit
  rcases split_trichotomy hsplit with ⟨mid', hmid'⟩ | ⟨_, rfl, _⟩ | ⟨mid', rfl, _⟩
  · rw [hplain c (hmid' ▸ List.mem_append_right _ List.mem_cons_self)] at hneeds
    cases hneeds
  · cases hneeds
  · exact ⟨.sendStatus r.status r.statusName, by simp, rfl⟩

private theorem Response.lineFits (r : Response) {calls : List Call} {c : Call}
    (hcalls : calls.filter (· ≠ .flush) = r.calls) (hc : c ∈ calls) : ClientIo.LineFits c := by
  obtain ⟨head, body, rfl, hhead, hbody, _⟩ := Response.exists_split hcalls
  rcases List.mem_append.mp hc with hc | hc
  · exact (hhead c hc).2.1
  · rcases List.mem_cons.mp hc with rfl | hc
    · trivial
    · rcases hbody c hc with hsome | rfl | rfl
      · cases c with
        | sendBody buf => trivial
        | _ => exact absurd rfl hsome
      · trivial
      · trivial

/-! ## Runs

The results of a run are added up in the order of the calls. A call that throws adds nothing, but
the theorem is about runs in which none does. -/

/-- The sum of what the calls returned. -/
def total (results : List (Except (Fault Exception) UInt64)) : UInt64 :=
  (results.map fun r ↦ match r with
    | .ok n => n
    | .error _ => 0).sum

private theorem total_append_ok (results : List (Except (Fault Exception) UInt64)) (n : UInt64) :
    total (results ++ [.ok n]) = total results + n := by
  simp [total]

/-- Over a documented sequence in which every call returns, a metered client returns, added up, what
the count grows by. -/
theorem Metered.run {d : RestfulClient δ} {I K : δ → Prop} {meter : δ → UInt64}
    (h : Metered d I K meter) {r : Response} {calls : List Call}
    (hcalls : calls.filter (· ≠ .flush) = r.calls) {s : δ} (hs : I s)
    (hret : AllReturn (runAll d.invoke calls s)) :
    I (runAll d.invoke calls s).2 ∧
      meter (runAll d.invoke calls s).2 = meter s + total (runAll d.invoke calls s).1 := by
  have hrun := runAll_trace_of_allReturn
    (I := fun done (x : List (Except (Fault Exception) UInt64) × δ) ↦
      I x.2 ∧ meter x.2 = meter s + total x.1 ∧ ((∃ e ∈ done, e.isStatus = true) → K x.2))
    ⟨hs, (add_zero _).symm, by simp⟩ (fun done c rest hsplit x hx ↦ ?_) hret
  · exact ⟨hrun.1, hrun.2.1⟩
  obtain ⟨hI, hmeter, hK⟩ := hx
  have hline : ClientIo.LineFits c :=
    r.lineFits hcalls (hsplit ▸ List.mem_append_right _ List.mem_cons_self)
  refine (h c hline x.2 hI fun hneeds ↦ hK (r.status_before hcalls hsplit hneeds)).mono ?_
    fun _ _ _ ↦ trivial
  rintro n t ⟨ht, hn, hkeep, hstatus⟩
  refine ⟨ht, by rw [hn, hmeter, total_append_ok, add_assoc], ?_⟩
  rintro ⟨e, he, hst⟩
  rcases List.mem_append.mp he with he | he
  · exact hkeep (hK ⟨e, he, hst⟩)
  · exact hstatus (List.mem_singleton.mp he ▸ hst)

/-- **What a stack reports is what was generated.** For every stack of filters over a client, every
accounting filter enabled, and every documented sequence of calls in which none throws: the sizes
returned add up to the number of bytes the client put into its buffer or handed to its stream, and
so does `get_bytes_sent()` of every accounting filter, at whatever depth. -/
theorem stack_accounts (ks : List FilterKind) (parser : Parser) (isSsl : Bool)
    (localEndpoint remoteEndpoint : Endpoint) (now : Option Tm)
    (array : Vector UInt8 txbufSize.val) (stream : Stream) (r : Response) (calls : List Call)
    (hcalls : calls.filter (· ≠ .flush) = r.calls) :
    let start : StreamIo := .new parser isSsl localEndpoint remoteEndpoint now array stream
    let run := runAll (stackClient StreamIo.client ks).invoke calls
      (enableAccounting ks (stackNew start ks))
    AllReturn run → ∃ generated : ℕ,
      (stackBase ks run.2).wire.length = start.wire.length + generated ∧
        total run.1 = UInt64.ofNat generated ∧
        ∀ n ∈ bytesSent ks run.2, n = UInt64.ofNat generated := by
  intro start run hret
  obtain ⟨J, L, hmetered, hnew, hbytes⟩ := (StreamIo.metered start).stack ks
  have hzero : UInt64.ofNat (StreamIo.bytesGenerated start start) = 0 := by
    rw [StreamIo.bytesGenerated, Nat.sub_self]
    rfl
  obtain ⟨hstart, hbase⟩ := hnew start ⟨⟨Nat.zero_le _, trivial⟩, le_rfl⟩ hzero
  obtain ⟨hJ, hmeter⟩ := hmetered.run hcalls hstart hret
  obtain ⟨⟨_, hle⟩, hall⟩ := hbytes _ hJ
  rw [hbase, hzero, zero_add] at hmeter
  refine ⟨StreamIo.bytesGenerated start (stackBase ks run.2), ?_, hmeter.symm, hall⟩
  rw [StreamIo.bytesGenerated]
  exact (Nat.add_sub_cancel' hle).symm

/-- The case of accounting filters above and below the stack of a connection. -/
theorem stack_accounts_ok :
    let ks := [.accounting, .reordering, .chunking, .conLenControlling, .accounting]
    let calls := [.sendStatus 200 (ascii "OK"), .sendContentLength 2, .completeHeader, .flush,
      .sendBody (ascii "hi"), .completeRequest]
    let run := runAll (stackClient StreamIo.client ks).invoke calls
      (enableAccounting ks (stackNew .bare ks))
    ∃ generated : ℕ, (stackBase ks run.2).wire.length = StreamIo.bare.wire.length + generated ∧
      total run.1 = UInt64.ofNat generated ∧
      ∀ n ∈ bytesSent ks run.2, n = UInt64.ofNat generated := by
  intro ks calls
  have hstatus : (ClientIo.statusLine 200 (ascii "OK")).length < 128 := by decide
  let r : Response := ⟨false, 200, ascii "OK", [.sendContentLength 2], [ascii "hi"], hstatus,
    by decide, by decide⟩
  have hcalls : calls.filter (· ≠ .flush) = r.calls := rfl
  have hret : AllReturn (runAll (stackClient StreamIo.client ks).invoke calls
      (enableAccounting ks (stackNew .bare ks))) :=
    ((StreamIo.returns []).stack ks).allReturn (fun _ hc ↦ r.lineFits hcalls hc)
      ⟨Nat.zero_le _, Stream.Reliable.writingSince fun _ ↦ rfl⟩
  exact stack_accounts ks ⟨.bare .get, ⟨[], true⟩, []⟩ false ⟨[], 0⟩ ⟨[], 0⟩ none
    (Vector.replicate txbufSize.val 0) .fresh r calls hcalls hret

end CppRepo
