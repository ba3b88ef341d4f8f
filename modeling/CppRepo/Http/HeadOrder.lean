import CppRepo.Http.Delivery

/-!
# The order in which a head reaches the client

The stack of a connection is a `ReorderingFilter` over a `ChunkingFilter` over a
`ConLenControllingFilter`. Two of them have a state that decides what becomes of a content length,
and they advance at different calls. `Head` is what the stack is for: it knows the status once it
was sent, the length and the headers that wait for the end of the head, and what was passed on. The
stack refines it call by call, also when a call throws, and what the client below received at any
moment is read off it.

## What is not reordered

`send_chunked_transfer_encoding` is not among the methods `ReorderingFilter` overrides. Called
before the status it goes through to the `ChunkingFilter`, which sends its header at once: ahead of
the status line. Every other header waits.

## How the stack is followed

The two lower filters see a stream of calls, some of which change them. Most change neither, and
these go through unchanged or are held back; only the status and the announcement of a chunked body
are looked at one by one. On top of that `ReorderingFilter` is a matter of what it has buffered.
`Refines` says that its fields, and the action of the filter at the bottom, are those of the head.
-/

namespace CppRepo

variable {δ : Type}

/-! ## What the stack is for

`emits` is what the client below receives at once for a call, `next` is the head after it, and
`completion` is what `complete_header` adds. None of them mentions a filter. -/

/-- A head in the making. -/
structure Head where
  /-- The status, once it was sent. -/
  status : Option Int32 := none
  /-- A content length that waits. -/
  contentLength : Option UInt64 := none
  /-- The headers that wait, in order. -/
  headers : List (Bytes × Bytes) := []

namespace Head

/-- The header that announces a chunked body. -/
def transferEncoding : Call := .sendHeader (ascii "Transfer-Encoding") (ascii "chunked")

/-- The call that states a length under a status, if it is stated at all. -/
def lengthCalls (status : Int32) (len : UInt64) : List Call :=
  if status = 204 ∨ status = 304 then [] else [.sendContentLength len]

/-- What a call makes the client below receive at once. -/
def emits (h : Head) : Call → List Call
  | .sendHeader _ _ => []
  | .sendContentLength len => (h.status.map fun st ↦ lengthCalls st len).getD []
  | .sendChunkedTransferEncoding => [transferEncoding]
  | .sendStatus status statusName => [.sendStatus status statusName]
  | .send100Continue => [.send100Continue]
  | .flush => [.flush]
  | .completeHeader | .sendBody _ | .completeRequest => []

/-- The head after a call. -/
def next (h : Head) : Call → Head
  | .sendHeader name value => { h with headers := h.headers ++ [(name, value)] }
  | .sendContentLength len =>
    if h.status = none then { h with contentLength := some len } else h
  | .sendStatus status _ => { h with status := some status }
  | .sendChunkedTransferEncoding | .send100Continue | .flush => h
  | .completeHeader | .sendBody _ | .completeRequest => h

/-- What the end of the head makes the client below receive: the length that waited, the headers in
order, and the end. -/
def completion (h : Head) (status : Int32) : List Call :=
  ((h.contentLength.map (lengthCalls status)).getD [])
    ++ h.headers.map (fun kv ↦ .sendHeader kv.1 kv.2) ++ [.completeHeader]

end Head

/-- The calls from which a head is made, besides its end. -/
def Call.inHead : Call → Bool
  | .sendHeader _ _ | .sendContentLength _ | .sendChunkedTransferEncoding | .send100Continue
  | .sendStatus _ _ | .flush => true
  | .completeHeader | .sendBody _ | .completeRequest => false

/-! ## The lower two filters

A plain call is one that `ChunkingFilter` passes on as it is, and a call is quiet for a
`ConLenControllingFilter` if it does not change its action. Calls that are both leave the two
filters alone, however many there are and wherever one of them throws. -/

/-- The calls a `ChunkingFilter` passes on as they are. -/
def Call.isPlain : Call → Bool
  | .sendHeader _ _ | .sendContentLength _ | .sendStatus _ _ | .send100Continue | .flush
  | .completeHeader => true
  | .sendChunkedTransferEncoding | .sendBody _ | .completeRequest => false

private theorem ChunkingFilter.ensures_callAll_iff {d : RestfulClient δ} {cs : List Call}
    (hcs : ∀ c ∈ cs, c.isPlain = true) {f : ChunkingFilter} {s : δ}
    {Q : UInt64 → ChunkingFilter × δ → Prop} {E : Fault Exception → ChunkingFilter × δ → Prop} :
    Ensures (callAll (client d) cs) (f, s) Q E
      ↔ Ensures (callAll d cs) s (fun n t ↦ Q n (f, t)) fun e t ↦ E e (f, t) := by
  induction cs generalizing s Q with
  | nil => rfl
  | cons c cs ih =>
    have hc : f.passes c = [c] ∧ f.next c = f := by
      have hplain := hcs c List.mem_cons_self
      cases c <;> first | exact ⟨rfl, rfl⟩ | cases hplain
    rw [ensures_callAll_cons, ensures_invoke_iff, hc.1, hc.2, ensures_callAll_singleton,
      ensures_callAll_cons]
    simp only [ih fun c' hc' ↦ hcs c' (List.mem_cons_of_mem c hc')]

/-- The calls that leave a `ConLenControllingFilter` alone and return what its decoratee returns. -/
def ConLenControllingFilter.Quiet (f : ConLenControllingFilter) (c : Call) : Prop :=
  f.next c = f ∧ ∀ n, f.value c n = n

private theorem ConLenControllingFilter.quiet_of_isStatus {f : ConLenControllingFilter}
    (hf : f.action ≠ .unknown) {c : Call} (hc : c.isStatus = false) : f.Quiet c := by
  cases c with
  | sendStatus status statusName => cases hc
  | sendContentLength len => exact ⟨rfl, fun n ↦ if_neg hf⟩
  | _ => exact ⟨rfl, fun n ↦ rfl⟩

private theorem ConLenControllingFilter.ensures_callAll_iff {d : RestfulClient δ} {cs : List Call}
    {f : ConLenControllingFilter} (hcs : ∀ c ∈ cs, f.Quiet c) {s : δ}
    {Q : UInt64 → ConLenControllingFilter × δ → Prop}
    {E : Fault Exception → ConLenControllingFilter × δ → Prop} :
    Ensures (callAll (client d) cs) (f, s) Q E
      ↔ Ensures (callAll d (cs.flatMap f.passes)) s (fun n t ↦ Q n (f, t))
        fun e t ↦ E e (f, t) := by
  induction cs generalizing s Q with
  | nil => rfl
  | cons c cs ih =>
    obtain ⟨hnext, hvalue⟩ := hcs c List.mem_cons_self
    rw [ensures_callAll_cons, ensures_invoke_iff, hnext, List.flatMap_cons, ensures_callAll_append]
    simp only [hvalue, ih fun c' hc' ↦ hcs c' (List.mem_cons_of_mem c hc')]

/-- The two filters and the client below, which keeps the calls it receives. -/
abbrev Lower (δ : Type) := ChunkingFilter × ConLenControllingFilter × List Call × δ

/-- The methods of the two filters. -/
abbrev lowerClient (d : RestfulClient δ) : RestfulClient (Lower δ) :=
  ChunkingFilter.client (ConLenControllingFilter.client (recorded d))

section Lower

variable {d : RestfulClient δ} {b : Call → ℕ}

private theorem ensures_lower_quiet (hd : Bounded d b) {cs : List Call}
    (hplain : ∀ c ∈ cs, c.isPlain = true) (s : Lower δ) (hquiet : ∀ c ∈ cs, s.2.1.Quiet c) :
    Ensures (callAll (lowerClient d) cs) s
      (fun n t ↦ t.2.1 = s.2.1 ∧ t.2.2.1 = s.2.2.1 ++ cs.flatMap s.2.1.passes ∧
        n.toNat ≤ allowance b (cs.flatMap s.2.1.passes))
      fun _ t ↦ t.2.1 = s.2.1 ∧ ∃ made, made ≠ [] ∧ made <+: cs.flatMap s.2.1.passes ∧
        t.2.2.1 = s.2.2.1 ++ made := by
  obtain ⟨cf, lf, s⟩ := s
  rw [ChunkingFilter.ensures_callAll_iff hplain, ConLenControllingFilter.ensures_callAll_iff hquiet]
  exact (ensures_callAll_recorded hd _ s).mono (fun _ _ ht ↦ ⟨rfl, ht⟩) fun _ _ he ↦ ⟨rfl, he⟩

private theorem ensures_lower_quiet_singleton (hd : Bounded d b) {c : Call}
    (hplain : c.isPlain = true) (s : Lower δ) (hquiet : s.2.1.Quiet c) :
    Ensures (callAll (lowerClient d) [c]) s
      (fun n t ↦ t.2.1 = s.2.1 ∧ t.2.2.1 = s.2.2.1 ++ s.2.1.passes c ∧
        n.toNat ≤ allowance b (s.2.1.passes c))
      fun _ t ↦ t.2.1 = s.2.1 ∧ t.2.2.1 = s.2.2.1 ++ s.2.1.passes c := by
  have hlen : (s.2.1.passes c).length ≤ 1 := by
    cases c with
    | sendContentLength len =>
      rw [ConLenControllingFilter.passes]
      split_ifs <;> simp
    | _ => exact le_rfl
  have h := ensures_lower_quiet hd (by simpa using hplain : ∀ c' ∈ [c], c'.isPlain = true) s
    (by simpa using hquiet)
  rw [List.flatMap_singleton] at h
  refine h.mono (fun _ _ ht ↦ ht) ?_
  rintro _ t ⟨hlf, made, hne, hmade, ht⟩
  refine ⟨hlf, ?_⟩
  -- a prefix that is not empty of a list of at most one call is that list
  have hpos : 0 < made.length := List.length_pos_iff.mpr hne
  rw [ht, hmade.eq_of_length (by have := hmade.length_le; omega)]

private theorem ensures_recorded_singleton (hd : Bounded d b) (c : Call) (s : List Call × δ) :
    Ensures (callAll (recorded d) [c]) s
      (fun n t ↦ t.1 = s.1 ++ [c] ∧ n.toNat ≤ allowance b [c]) fun _ t ↦ t.1 = s.1 ++ [c] := by
  rw [ensures_callAll_singleton, ensures_recorded_iff, allowance, List.map_singleton,
    List.sum_singleton]
  exact (hd c s.2).mono (fun _ _ hn ↦ ⟨rfl, hn⟩) fun _ _ _ ↦ rfl

private theorem ensures_lower_status (hd : Bounded d b) (status : Int32) (statusName : Bytes)
    (s : Lower δ) : Ensures (callAll (lowerClient d) [.sendStatus status statusName]) s
      (fun n t ↦ t.2.1.action = ConLenControllingFilter.actionOf status ∧
        t.2.2.1 = s.2.2.1 ++ [.sendStatus status statusName] ∧
        n.toNat ≤ allowance b [.sendStatus status statusName])
      fun _ t ↦ t.2.1.action = ConLenControllingFilter.actionOf status ∧
        t.2.2.1 = s.2.2.1 ++ [.sendStatus status statusName] := by
  obtain ⟨cf, lf, s⟩ := s
  rw [ChunkingFilter.ensures_callAll_iff (by simp [Call.isPlain]), ensures_callAll_singleton,
    ConLenControllingFilter.ensures_invoke_iff]
  exact (ensures_recorded_singleton hd (.sendStatus status statusName) s).mono
    (fun _ _ ht ↦ ⟨rfl, ht⟩) fun _ _ ht ↦ ⟨rfl, ht⟩

private theorem ensures_lower_chunked (hd : Bounded d b) (s : Lower δ) :
    Ensures (callAll (lowerClient d) [.sendChunkedTransferEncoding]) s
      (fun n t ↦ t.2.1 = s.2.1 ∧ t.2.2.1 = s.2.2.1 ++ [Head.transferEncoding] ∧
        n.toNat ≤ allowance b [Head.transferEncoding])
      fun _ t ↦ t.2.1 = s.2.1 ∧ t.2.2.1 = s.2.2.1 ++ [Head.transferEncoding] := by
  obtain ⟨cf, lf, s⟩ := s
  have hquiet : ∀ c ∈ [Head.transferEncoding], lf.Quiet c := by
    intro c hc
    rw [List.mem_singleton.mp hc]
    exact ⟨rfl, fun _ ↦ rfl⟩
  have hpasses : cf.passes .sendChunkedTransferEncoding = [Head.transferEncoding] := rfl
  rw [ensures_callAll_singleton, ChunkingFilter.ensures_invoke_iff, hpasses,
    ConLenControllingFilter.ensures_callAll_iff hquiet]
  exact (ensures_recorded_singleton hd Head.transferEncoding s).mono (fun _ _ ht ↦ ⟨rfl, ht⟩)
    fun _ _ ht ↦ ⟨rfl, ht⟩

end Lower

/-! ## The stack refines the head

A call of the head is a case of the section before, but for the end of the head: there the stack
makes several calls, and if one throws, what was received is a first part of them. -/

/-- The state of the stack of a connection over a client that keeps the calls it receives. -/
abbrev HeadStack (δ : Type) := ReorderingFilter × Lower δ

/-- The calls received at the bottom of the stack. -/
def HeadStack.log (t : HeadStack δ) : List Call := t.2.2.2.1

/-- The methods of the stack. -/
def headStackClient (d : RestfulClient δ) : RestfulClient (HeadStack δ) :=
  ReorderingFilter.client (lowerClient d)

theorem headStackClient_eq (d : RestfulClient δ) :
    headStackClient d = stackClient (recorded d) connectionStack := rfl

/-- The stack before the end of the head is in the state `h`. -/
structure Refines (t : HeadStack δ) (h : Head) : Prop where
  phase : t.1.phase = if h.status = none then .earlyHeaders else .statusSeen
  contentLength : t.1.contentLength = h.contentLength
  headers : t.1.headers = h.headers
  action : t.2.2.1.action = (h.status.map ConLenControllingFilter.actionOf).getD .unknown

section Stack

variable {d : RestfulClient δ} {b : Call → ℕ}

private theorem passes_contentLength {f : ConLenControllingFilter} {status : Int32}
    (hf : f.action = ConLenControllingFilter.actionOf status) (len : UInt64) :
    f.passes (.sendContentLength len) = Head.lengthCalls status len := by
  rw [ConLenControllingFilter.passes, hf, ConLenControllingFilter.actionOf, Head.lengthCalls]
  split_ifs <;> simp_all

/-- **One call**: the stack stays a head, and the client below receives what the head says, also
when the call throws. -/
theorem ensures_headStack (hd : Bounded d b) {c : Call} (hc : c.inHead = true) {t : HeadStack δ}
    {h : Head} (ht : Refines t h) : Ensures ((headStackClient d).invoke c) t
      (fun n u ↦ Refines u (h.next c) ∧ u.log = t.log ++ h.emits c ∧
        n.toNat ≤ allowance b (h.emits c))
      fun _ u ↦ Refines u (h.next c) ∧ u.log = t.log ++ h.emits c := by
  obtain ⟨rf, s⟩ := t
  obtain ⟨hphase, hlen, hheaders, haction⟩ := ht
  have hdata : rf.phase ≠ .data := by
    rw [hphase]
    split_ifs <;> simp
  refine ReorderingFilter.ensures_invoke_of ?_
  have hpass : c.isPlain = true → rf.next c = rf → h.next c = h → rf.passes c = [c] →
      s.2.1.Quiet c → s.2.1.passes c = h.emits c → Ensures (callAll (lowerClient d) (rf.passes c)) s
        (fun n u ↦ Refines (rf.next c, u) (h.next c) ∧
          HeadStack.log (rf.next c, u) = HeadStack.log (rf, s) ++ h.emits c ∧
          n.toNat ≤ allowance b (h.emits c))
        fun _ u ↦ Refines (rf.next c, u) (h.next c) ∧
          HeadStack.log (rf.next c, u) = HeadStack.log (rf, s) ++ h.emits c := by
    intro hplain hrf hh hpasses hquiet hemits
    rw [hpasses, hrf, hh, ← hemits]
    refine (ensures_lower_quiet_singleton hd hplain s hquiet).mono ?_ ?_
    · rintro n u ⟨hlf, hlog, hn⟩
      exact ⟨⟨hphase, hlen, hheaders, by rw [hlf]; exact haction⟩, hlog, hn⟩
    · rintro e u ⟨hlf, hlog⟩
      exact ⟨⟨hphase, hlen, hheaders, by rw [hlf]; exact haction⟩, hlog⟩
  suffices hsuff : Ensures (callAll (lowerClient d) (rf.passes c)) s
      (fun n u ↦ Refines (rf.next c, u) (h.next c) ∧
        HeadStack.log (rf.next c, u) = HeadStack.log (rf, s) ++ h.emits c ∧
        n.toNat ≤ allowance b (h.emits c))
      fun _ u ↦ Refines (rf.next c, u) (h.next c) ∧
        HeadStack.log (rf.next c, u) = HeadStack.log (rf, s) ++ h.emits c by
    refine hsuff.mono (fun _ _ hu ↦ hu) fun _ _ he ↦ ⟨he, fun hend ↦ ?_⟩
    rw [hend] at hc
    cases hc
  cases c with
  | sendHeader name value =>
    rw [ReorderingFilter.passes, if_neg hdata, ensures_callAll_nil, ReorderingFilter.next,
      if_neg hdata]
    refine ⟨⟨hphase, hlen, ?_, haction⟩, (List.append_nil _).symm, le_rfl⟩
    exact congrArg (· ++ [(name, value)]) hheaders
  | sendContentLength len =>
    cases hstatus : h.status with
    | none =>
      -- too early: it waits
      have hearly : rf.phase = .earlyHeaders := by rw [hphase, if_pos hstatus]
      have hemits : h.emits (.sendContentLength len) = [] := by rw [Head.emits, hstatus]; rfl
      rw [ReorderingFilter.passes, if_pos hearly, ensures_callAll_nil, ReorderingFilter.next,
        if_pos hearly, Head.next, if_pos hstatus, hemits]
      exact ⟨⟨hphase, rfl, hheaders, haction⟩, (List.append_nil _).symm, le_rfl⟩
    | some status =>
      have hseen : rf.phase ≠ .earlyHeaders := by
        rw [hphase, if_neg (by simp [hstatus])]
        simp
      rw [hstatus] at haction
      refine hpass rfl (if_neg hseen) ?_ (if_neg hseen) ?_ ?_
      · rw [Head.next, if_neg (by simp [hstatus])]
      · refine ConLenControllingFilter.quiet_of_isStatus ?_ rfl
        rw [haction]
        exact ConLenControllingFilter.actionOf_ne_unknown status
      · rw [passes_contentLength haction, Head.emits, hstatus]
        rfl
  | sendChunkedTransferEncoding =>
    refine (ensures_lower_chunked hd s).mono ?_ ?_
    · rintro n u ⟨hlf, hlog, hn⟩
      exact ⟨⟨hphase, hlen, hheaders, by rw [hlf]; exact haction⟩, hlog, hn⟩
    · rintro e u ⟨hlf, hlog⟩
      exact ⟨⟨hphase, hlen, hheaders, by rw [hlf]; exact haction⟩, hlog⟩
  | sendStatus status statusName =>
    refine (ensures_lower_status hd status statusName s).mono ?_ ?_
    · rintro n u ⟨hact, hlog, hn⟩
      exact ⟨⟨rfl, hlen, hheaders, hact⟩, hlog, hn⟩
    · rintro e u ⟨hact, hlog⟩
      exact ⟨⟨rfl, hlen, hheaders, hact⟩, hlog⟩
  | send100Continue | flush => exact hpass rfl rfl rfl rfl ⟨rfl, fun _ ↦ rfl⟩ rfl
  | _ => cases hc

private theorem flatMap_passes_complete {rf : ReorderingFilter} {lf : ConLenControllingFilter}
    {h : Head}
    {status : Int32} (hlen : rf.contentLength = h.contentLength) (hheaders : rf.headers = h.headers)
    (hlf : lf.action = ConLenControllingFilter.actionOf status) :
    (rf.passes .completeHeader).flatMap lf.passes = h.completion status := by
  have hmap : ∀ kvs : List (Bytes × Bytes),
      (kvs.map fun kv ↦ Call.sendHeader kv.1 kv.2).flatMap lf.passes
        = kvs.map fun kv ↦ .sendHeader kv.1 kv.2 := by
    intro kvs
    rw [List.flatMap_map]
    exact List.map_eq_flatMap.symm
  rw [ReorderingFilter.passes, ReorderingFilter.buffered, List.flatMap_append, List.flatMap_append,
    hmap, hlen, hheaders, Head.completion]
  cases h.contentLength with
  | none => rfl
  | some len =>
    simp only [Option.map_some, Option.toList_some, Option.getD_some, List.flatMap_singleton,
      passes_contentLength hlf]
    rfl

/-- **The end of the head**: everything that waited is received, in order, and then the end; if a
call throws, the first few of these. -/
theorem ensures_headStack_complete (hd : Bounded d b) {t : HeadStack δ} {h : Head}
    (ht : Refines t h) {status : Int32} (hstatus : h.status = some status) :
    Ensures ((headStackClient d).invoke .completeHeader) t
      (fun n u ↦ u.log = t.log ++ h.completion status ∧ n.toNat ≤ allowance b (h.completion status))
      fun _ u ↦ ∃ made, made ≠ [] ∧ made <+: h.completion status ∧ u.log = t.log ++ made := by
  obtain ⟨rf, s⟩ := t
  obtain ⟨_, hlen, hheaders, haction⟩ := ht
  rw [hstatus] at haction
  have hplain : ∀ c ∈ rf.passes .completeHeader, c.isPlain = true ∧ c.isStatus = false := by
    intro c hc
    rcases ReorderingFilter.eq_of_mem_passes hc with rfl | ⟨_, ⟨len, rfl⟩ | ⟨name, value, rfl⟩⟩ <;>
      exact ⟨rfl, rfl⟩
  have hknown : s.2.1.action ≠ .unknown := by
    rw [haction]
    exact ConLenControllingFilter.actionOf_ne_unknown status
  refine ReorderingFilter.ensures_invoke_of ?_
  rw [← flatMap_passes_complete hlen hheaders haction]
  refine (ensures_lower_quiet hd (fun c hc ↦ (hplain c hc).1) s fun c hc ↦
    ConLenControllingFilter.quiet_of_isStatus hknown (hplain c hc).2).mono ?_ ?_
  · rintro n u ⟨_, hu⟩
    exact hu
  · rintro e u ⟨_, hu⟩
    exact ⟨hu, fun _ ↦ hu⟩

end Stack

/-! ## Sequences of calls

`after` and `emitted` follow the head over a list of calls. A call other than a status emits what
the status in force says, so over such calls the head need not be followed: `emitted_of_isStatus`
flattens them. -/

/-- The name and value of a header that is sent. -/
def Call.header? : Call → Option (Bytes × Bytes)
  | .sendHeader name value => some (name, value)
  | _ => none

def Call.contentLength? : Call → Option UInt64
  | .sendContentLength len => some len
  | _ => none

namespace Head

/-- The head after several calls. -/
def after (h : Head) (cs : List Call) : Head := cs.foldl next h

/-- What several calls make the client below receive at once. -/
def emitted (h : Head) : List Call → List Call
  | [] => []
  | c :: cs => h.emits c ++ (h.next c).emitted cs

@[simp] theorem after_append (h : Head) (cs ds : List Call) :
    h.after (cs ++ ds) = (h.after cs).after ds := List.foldl_append

theorem emitted_append (h : Head) (cs ds : List Call) :
    h.emitted (cs ++ ds) = h.emitted cs ++ (h.after cs).emitted ds := by
  induction cs generalizing h with
  | nil => rfl
  | cons c cs ih => rw [List.cons_append, emitted, ih, emitted, List.append_assoc]; rfl

theorem after_of_isStatus {cs : List Call} (hcs : ∀ c ∈ cs, c.isStatus = false) :
    ∀ h : Head, (h.after cs).status = h.status ∧
      (h.after cs).headers = h.headers ++ cs.filterMap Call.header? ∧
      (h.after cs).contentLength = if h.status = none then
        (cs.filterMap Call.contentLength?).getLast?.or h.contentLength else h.contentLength := by
  induction cs with
  | nil => intro h; refine ⟨rfl, (List.append_nil _).symm, ?_⟩; split_ifs <;> rfl
  | cons c cs ih =>
    intro h
    obtain ⟨hstatus, hheaders, hlen⟩ :=
      ih (fun c' hc' ↦ hcs c' (List.mem_cons_of_mem c hc')) (h.next c)
    have hafter : h.after (c :: cs) = (h.next c).after cs := rfl
    rw [hafter, hstatus, hheaders, hlen]
    cases c with
    | sendStatus status statusName => cases hcs _ List.mem_cons_self
    | sendHeader name value =>
      refine ⟨rfl, ?_, rfl⟩
      rw [next, List.append_assoc]
      rfl
    | sendContentLength len =>
      by_cases hnone : h.status = none
      · rw [next, if_pos hnone, if_pos hnone, if_pos hnone]
        refine ⟨rfl, rfl, ?_⟩
        simp [Call.contentLength?, List.getLast?_cons]
      · rw [next, if_neg hnone]
        exact ⟨rfl, rfl, by rw [if_neg hnone, if_neg hnone]⟩
    | _ => exact ⟨rfl, rfl, rfl⟩

private theorem emits_congr {h h' : Head} (hstatus : h.status = h'.status) (c : Call) :
    h.emits c = h'.emits c := by
  cases c with
  | sendContentLength len => rw [emits, emits, hstatus]
  | _ => rfl

theorem emitted_of_isStatus {cs : List Call} (hcs : ∀ c ∈ cs, c.isStatus = false) :
    ∀ h : Head, h.emitted cs = cs.flatMap h.emits := by
  induction cs with
  | nil => exact fun _ ↦ rfl
  | cons c cs ih =>
    intro h
    have hnext : (h.next c).status = h.status :=
      (after_of_isStatus
        (by simpa using hcs c List.mem_cons_self : ∀ c' ∈ [c], c'.isStatus = false) h).1
    rw [emitted, ih (fun c' hc' ↦ hcs c' (List.mem_cons_of_mem c hc')), List.flatMap_cons,
      funext (emits_congr hnext)]

end Head

section Runs

variable {d : RestfulClient δ} {b : Call → ℕ}

theorem runAll_headStack (hd : Bounded d b) {cs : List Call} (hcs : ∀ c ∈ cs, c.inHead = true) :
    ∀ {t : HeadStack δ} {h : Head}, Refines t h →
      Refines (runAll (headStackClient d).invoke cs t).2 (h.after cs) ∧
        (runAll (headStackClient d).invoke cs t).2.log = t.log ++ h.emitted cs ∧
        ∀ x ∈ (runAll (headStackClient d).invoke cs t).1, ∀ n, x = .ok n →
          ∃ h' : Head, ∃ c ∈ cs, n.toNat ≤ allowance b (h'.emits c) := by
  induction cs with
  | nil => intro t h ht; exact ⟨ht, (List.append_nil _).symm, by rintro _ ⟨⟩⟩
  | cons c cs ih =>
    intro t h ht
    have hstep := ensures_headStack hd (hcs c List.mem_cons_self) ht
    have htail := fun {u h'} ↦ ih (fun c' hc' ↦ hcs c' (List.mem_cons_of_mem c hc'))
      (t := u) (h := h')
    cases hx : (headStackClient d).invoke c t with
    | ok n u =>
      obtain ⟨hu, hlog, hn⟩ := hstep.of_ok hx
      obtain ⟨hv, hlog', hvalues⟩ := htail hu
      rw [runAll_cons_of_ok hx]
      refine ⟨hv, by rw [hlog', hlog, List.append_assoc, Head.emitted], ?_⟩
      intro x hmem m hm
      rcases List.mem_cons.mp hmem with rfl | hmem
      · cases hm
        exact ⟨h, c, List.mem_cons_self, hn⟩
      · obtain ⟨h', c', hc', hle⟩ := hvalues x hmem m hm
        exact ⟨h', c', List.mem_cons_of_mem c hc', hle⟩
    | error e u =>
      obtain ⟨hu, hlog⟩ := hstep.of_error hx
      obtain ⟨hv, hlog', hvalues⟩ := htail hu
      rw [runAll_cons_of_error hx]
      refine ⟨hv, by rw [hlog', hlog, List.append_assoc, Head.emitted], ?_⟩
      intro x hmem m hm
      rcases List.mem_cons.mp hmem with rfl | hmem
      · cases hm
      · obtain ⟨h', c', hc', hle⟩ := hvalues x hmem m hm
        exact ⟨h', c', List.mem_cons_of_mem c hc', hle⟩

end Runs

end CppRepo
